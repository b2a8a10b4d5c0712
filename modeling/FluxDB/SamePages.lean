-- When two page images count as the same: they may differ in the checksum field and in the
-- INCOMPLETE_SPLIT bit. The mutators cannot tell such images apart, so they fail alike on
-- both or leave images that again count as the same.
import FluxDB.PageBytes

namespace FluxDB

open Bytes List

variable {len off : Nat} {bs : Bytes}

namespace Page

/-! ## Overwriting -/

theorem put_apply (b : Page) (off : Nat) (bs : Bytes) (i : Nat) :
    b.put off bs i = if off ≤ i ∧ i < off + bs.length then (bs[i - off]?).getD 0 else b i := by
  unfold put
  by_cases h1 : off ≤ i
  · by_cases h2 : i < off + bs.length
    · have hlt : i - off < bs.length := by omega
      simp [h1, h2, getElem?_eq_getElem hlt]
    have hge : bs.length ≤ i - off := by omega
    simp [h1, h2, getElem?_eq_none hge]
  · simp [h1]

variable {b : Page}

theorem put_inside {i : Nat} (h1 : off ≤ i) (h2 : i < off + bs.length) :
    b.put off bs i = (bs[i - off]?).getD 0 := by
  rw [put_apply, if_pos ⟨h1, h2⟩]

theorem put_outside {i : Nat} (h : i < off ∨ off + bs.length ≤ i) : b.put off bs i = b i := by
  rw [put_apply, if_neg (by omega)]

theorem slice_congr {a : Page} (h : ∀ i, off ≤ i → i < off + len → a i = b i) :
    a.slice off len = b.slice off len := by
  unfold slice
  apply map_congr_left
  intro i hi
  apply h
  · omega
  have := mem_range.mp hi
  omega

@[simp] theorem length_slice (b : Page) (off len : Nat) : (b.slice off len).length = len := by
  simp [slice]

theorem slice_put (b : Page) (off : Nat) (bs : Bytes) :
    (b.put off bs).slice off bs.length = bs := by
  apply ext_getElem
  · simp
  intro i h1 h2
  simp only [slice, getElem_map, getElem_range]
  rw [put_inside (by omega) (by omega)]
  simp [getElem?_eq_getElem h2]

theorem put_nil (b : Page) (off : Nat) : b.put off [] = b := by
  funext i
  apply put_outside
  simp only [length_nil]
  omega

/-- Two runs of bytes that do not overlap can be written in either order. -/
theorem put_comm {off' : Nat} {bs' : Bytes}
    (h : off + bs.length ≤ off' ∨ off' + bs'.length ≤ off) :
    (b.put off bs).put off' bs' = (b.put off' bs').put off bs := by
  funext i
  simp only [put_apply]
  by_cases h1 : off ≤ i ∧ i < off + bs.length
  · have h2 : ¬ (off' ≤ i ∧ i < off' + bs'.length) := by omega
    simp only [if_pos h1, if_neg h2]
  · simp only [if_neg h1]

end Page

/-! ## Relations that reads and writes respect -/

/-- Reads at the offsets `rd` give the same on related pages, and a write at the offsets `wr`
leaves related pages. -/
structure Respects (rd wr : Nat → Prop) (R : Page → Page → Prop) : Prop where
  read : ∀ {a b : Page} {i : Nat}, R a b → rd i → i < PAGE_SIZE → a i = b i
  write : ∀ {a b : Page} {off : Nat} (bs : Bytes), R a b →
    (∀ i, off ≤ i → i < off + bs.length → wr i) → R (a.put off bs) (b.put off bs)

namespace Respects

variable {rd wr : Nat → Prop} {R : Page → Page → Prop} {a b : Page} (hR : Respects rd wr R)
  (h : R a b)
include hR h

theorem read_bytes (hrd : ∀ i, off ≤ i → i < off + len → rd i) :
    a.read_bytes off len = b.read_bytes off len := by
  unfold Page.read_bytes
  by_cases hle : off + len ≤ PAGE_SIZE
  · rw [if_pos hle, if_pos hle, Page.slice_congr]
    intro i h1 h2
    exact hR.read h (hrd i h1 h2) (by omega)
  · rw [if_neg hle, if_neg hle]

theorem read_nat (n : Nat)
    (hrd : ∀ i, off ≤ i → i < off + n → rd i) : Page.read_nat n a off = Page.read_nat n b off := by
  unfold Page.read_nat
  rw [hR.read_bytes h hrd]

theorem write_bytes (hwr : ∀ i, off ≤ i → i < off + bs.length → wr i) :
    Alike R (a.write_bytes off bs) (b.write_bytes off bs) := by
  unfold Page.write_bytes
  apply Alike.ite
  · intro _
    exact Alike.ok (hR.write bs h hwr)
  intro _
  exact Alike.error _

theorem copy_within {src dst : Nat}
    (hrd : ∀ i, src ≤ i → i < src + len → rd i) (hwr : ∀ i, dst ≤ i → wr i) :
    Alike R (a.copy_within src len dst) (b.copy_within src len dst) := by
  unfold Page.copy_within
  rw [hR.read_bytes h hrd]
  apply (Alike.refl _).bind
  rintro bs _ rfl
  exact hR.write_bytes h fun i hi _ => hwr i hi

end Respects

/-! ## The leaf mutators -/

namespace Leaf

/-- What the record-level mutators of a leaf read: the counters, the high-key length and the
slots. -/
def Reads (i : Nat) : Prop := 2 ≤ i ∧ i < 8 ∨ 40 ≤ i ∧ i < 44 ∨ 48 ≤ i

/-- Nothing they do touches the page type or the flags. -/
def Writes (i : Nat) : Prop := 2 ≤ i

theorem le_slot_offset_at (hkl i : Nat) : 48 ≤ slot_offset_at hkl i := by
  unfold slot_offset_at slot_base LEAF_HEADER_SIZE
  omega

variable {R : Page → Page → Prop} {a b : Page} (hR : Respects Reads Writes R) (h : R a b)
include hR h

theorem read_high_key_len :
    a.read_u16 OFF_LEAF_HIGH_KEY_LEN = b.read_u16 OFF_LEAF_HIGH_KEY_LEN := by
  apply hR.read_nat h
  intro i h1 h2
  unfold OFF_LEAF_HIGH_KEY_LEN at h1 h2
  unfold Reads
  omega

theorem read_slot (hkl i : Nat) :
    a.read_u16 (slot_offset_at hkl i) = b.read_u16 (slot_offset_at hkl i) := by
  apply hR.read_nat h
  intro j h1 _
  have := le_slot_offset_at hkl i
  unfold Reads
  omega

/-- The counters in front of the header's links. -/
theorem read_counter (h1 : 2 ≤ off) (h2 : off + 2 ≤ 8) : a.read_u16 off = b.read_u16 off := by
  apply hR.read_nat h
  intro i hi hi'
  unfold Reads
  omega

/-- A write past the first two bytes. -/
theorem write_alike (hoff : 2 ≤ off) : Alike R (a.write_bytes off bs) (b.write_bytes off bs) := by
  apply hR.write_bytes h
  intro i hi _
  unfold Writes
  omega

/-- A stamp on the record of a slot. -/
theorem stamp_alike (pos field v : Nat) (hfield : 2 ≤ field) : Alike R
      (do let hkl ← a.read_u16 OFF_LEAF_HIGH_KEY_LEN
          let rec_base ← a.read_u16 (slot_offset_at hkl pos)
          a.write_u64 (rec_base + field) v)
      (do let hkl ← b.read_u16 OFF_LEAF_HIGH_KEY_LEN
          let rec_base ← b.read_u16 (slot_offset_at hkl pos)
          b.write_u64 (rec_base + field) v) := by
  apply (Alike.of_eq (read_high_key_len hR h)).bind
  rintro hkl _ rfl
  apply (Alike.of_eq (read_slot hR h hkl pos)).bind
  rintro base _ rfl
  exact write_alike hR h (by omega)

theorem set_xmin_alike (pos : Nat) (xmin : UInt64) :
    Alike R (set_xmin a pos xmin) (set_xmin b pos xmin) :=
  stamp_alike hR h pos REC_OFF_XMIN xmin.toNat (by decide)

theorem set_xmax_alike (pos : Nat) (xmax : UInt64) :
    Alike R (set_xmax a pos xmax) (set_xmax b pos xmax) :=
  stamp_alike hR h pos REC_OFF_XMAX xmax.toNat (by decide)

theorem set_prev_page_alike (prev : Option UInt64) :
    Alike R (set_prev_page a prev) (set_prev_page b prev) := by
  unfold set_prev_page
  exact write_alike hR h (by decide)

theorem set_rightlink_alike (right : Option UInt64) :
    Alike R (set_rightlink a right) (set_rightlink b right) := by
  unfold set_rightlink
  exact write_alike hR h (by decide)

theorem write_record_alike {rec_base : Nat} (hbase : 2 ≤ rec_base) (key val : Bytes)
    (rec_type : UInt8) :
    Alike R (write_record a rec_base key val rec_type)
      (write_record b rec_base key val rec_type) := by
  unfold write_record
  apply (write_alike hR h (by omega)).bind
  intro a b h
  apply (write_alike hR h (by omega)).bind
  intro a b h
  apply (write_alike hR h (by omega)).bind
  intro a b h
  apply (write_alike hR h (by omega)).bind
  intro a b h
  apply (write_alike hR h (by omega)).bind
  intro a b h
  apply (write_alike hR h (by omega)).bind
  intro a b h
  exact write_alike hR h (by omega)

theorem shift_slots_alike {src : Nat}
    (hsrc : 48 ≤ src) (len : Nat) : Alike R (shift_slots a src len) (shift_slots b src len) := by
  unfold shift_slots
  apply Alike.ite
  · intro _
    apply hR.copy_within h
    · intro i h1 _
      unfold Reads
      omega
    intro i h1
    unfold Writes
    omega
  intro _
  exact Alike.ok h

theorem write_slot_alike (pos rec_base rec_size free_start : Nat) :
    Alike R (write_slot a pos rec_base rec_size free_start)
      (write_slot b pos rec_base rec_size free_start) := by
  unfold write_slot
  apply (Alike.of_eq (read_high_key_len hR h)).bind
  rintro hkl _ rfl
  apply (Alike.of_eq (read_counter hR h (by decide) (by decide))).bind
  rintro n _ rfl
  have hslot := le_slot_offset_at hkl pos
  apply Alike.guard
  intro _
  apply (shift_slots_alike hR h hslot _).bind
  intro a b h
  apply (write_alike hR h (by omega)).bind
  intro a b h
  apply (write_alike hR h (by omega)).bind
  intro a b h
  apply (write_alike hR h (by decide)).bind
  intro a b h
  apply (write_alike hR h (by decide)).bind
  intro a b h
  exact write_alike hR h (by decide)

theorem insert_raw_alike (pos : Nat) (key val : Bytes) (rec_type : UInt8) :
    Alike R (insert_raw a pos key val rec_type) (insert_raw b pos key val rec_type) := by
  unfold insert_raw
  apply (Alike.of_eq (read_counter hR h (by decide) (by decide))).bind
  rintro free_end _ rfl
  apply (Alike.of_eq (read_counter hR h (by decide) (by decide))).bind
  rintro free_start _ rfl
  apply Alike.guard
  intro _
  apply Alike.guard
  intro hfit
  -- The record lies above the slot it needs, so its offset is at least that slot's size.
  have hbase : 2 ≤ free_end - rec_total_size key.length val.length := by
    unfold SLOT_SIZE at hfit
    omega
  apply (write_record_alike hR h hbase key val rec_type).bind
  intro a b h
  exact write_slot_alike hR h _ _ _ _

end Leaf

/-! ## The internal mutators -/

namespace Internal

/-- What the mutators of an internal page read and write: the counters, and everything behind
the header. -/
def Touches (i : Nat) : Prop := 2 ≤ i ∧ i < 8 ∨ 40 ≤ i

theorem le_int_child_offset (i : Nat) : 40 ≤ int_child_offset i := by
  unfold int_child_offset INT_HEADER_SIZE
  omega

theorem le_int_key_end_offset (n i : Nat) : 40 ≤ int_key_end_offset n i := by
  unfold int_key_end_offset int_key_end_section INT_HEADER_SIZE
  omega

theorem le_int_key_data_base (n : Nat) : 40 ≤ int_key_data_base n := by
  unfold int_key_data_base int_key_end_section INT_HEADER_SIZE
  omega

variable {R : Page → Page → Prop} {a b : Page} (hR : Respects Touches Touches R) (h : R a b)
include hR h

theorem read_behind (n : Nat) (hoff : 40 ≤ off) :
    Page.read_nat n a off = Page.read_nat n b off := by
  apply hR.read_nat h
  intro i h1 _
  unfold Touches
  omega

theorem read_counter (h1 : 2 ≤ off) (h2 : off + 2 ≤ 8) : a.read_u16 off = b.read_u16 off := by
  apply hR.read_nat h
  intro i hi hi'
  unfold Touches
  omega

theorem write_behind (hoff : 40 ≤ off) : Alike R (a.write_bytes off bs) (b.write_bytes off bs) := by
  apply hR.write_bytes h
  intro i h1 _
  unfold Touches
  omega

theorem key_start_eq (n i : Nat) : key_start a n i = key_start b n i := by
  unfold key_start Page.read_u32
  rw [read_behind hR h 4 (le_int_key_end_offset n (i - 1))]

theorem used_bytes_eq : used_bytes a = used_bytes b := by
  unfold used_bytes
  rw [read_counter hR h (by decide) (by decide)]
  congr 1
  funext n
  rw [key_start_eq hR h]

theorem free_bytes_eq : free_bytes a = free_bytes b := by
  unfold free_bytes
  rw [used_bytes_eq hR h, read_counter hR h (by decide) (by decide)]

theorem key_bytes_eq (n i : Nat) : key_bytes a n i = key_bytes b n i := by
  have hbase := le_int_key_data_base n
  unfold key_bytes Page.read_u32
  rw [key_start_eq hR h, read_behind hR h 4 (le_int_key_end_offset n i)]
  congr 1
  funext start
  congr 1
  funext stop
  rw [hR.read_bytes h]
  intro j h1 _
  unfold Touches
  omega

theorem snapshot_eq : snapshot a = snapshot b := by
  have hchild : (fun i => a.read_u64 (int_child_offset i)) =
      fun i => b.read_u64 (int_child_offset i) := by
    funext i
    exact read_behind hR h 8 (le_int_child_offset i)
  have hkey : (fun n i => key_bytes a n i) = fun n i => key_bytes b n i := by
    funext n i
    exact key_bytes_eq hR h n i
  unfold snapshot
  rw [read_counter hR h (by decide) (by decide), hchild]
  congr 1
  funext n
  congr 1
  funext children
  rw [congrFun hkey n]

theorem rewrite_alike (children : List Nat)
    (keys : List Bytes) : Alike R (rewrite a children keys) (rewrite b children keys) := by
  unfold rewrite
  have hcount : Alike R (a.write_u16 OFF_INT_NUM_KEYS keys.length)
      (b.write_u16 OFF_INT_NUM_KEYS keys.length) := by
    apply hR.write_bytes h
    intro i h1 h2
    rw [length_leBytes] at h2
    unfold OFF_INT_NUM_KEYS at h1 h2
    unfold Touches
    omega
  apply hcount.bind
  intro a b h
  have hchildren : Alike R
      (children.zipIdx.foldlM (fun b c => b.write_u64 (int_child_offset c.2) c.1) a)
      (children.zipIdx.foldlM (fun b c => b.write_u64 (int_child_offset c.2) c.1) b) :=
    Alike.foldlM h fun c _ _ _ h => write_behind hR h (le_int_child_offset c.2)
  apply hchildren.bind
  intro a b h
  have hends : Alike R ((key_ends keys).zipIdx.foldlM
        (fun b c => b.write_u32 (int_key_end_offset keys.length c.2) c.1) a)
      ((key_ends keys).zipIdx.foldlM
        (fun b c => b.write_u32 (int_key_end_offset keys.length c.2) c.1) b) :=
    Alike.foldlM h fun c _ _ _ h => write_behind hR h (le_int_key_end_offset _ c.2)
  apply hends.bind
  intro a b h
  exact write_behind hR h (le_int_key_data_base _)

theorem insert_key_and_right_child_alike (index : Nat) (key : Bytes) (right_child : UInt64) :
    Alike R (insert_key_and_right_child a index key right_child)
      (insert_key_and_right_child b index key right_child) := by
  unfold insert_key_and_right_child
  apply (Alike.of_eq (free_bytes_eq hR h)).bind
  rintro free _ rfl
  apply Alike.guard
  intro _
  apply (Alike.of_eq (snapshot_eq hR h)).bind
  rintro ⟨children, keys⟩ _ rfl
  apply Alike.guard
  intro _
  exact rewrite_alike hR h _ _

theorem remove_key_at_alike (index : Nat)
    (keep : ChildSide) : Alike R (remove_key_at a index keep) (remove_key_at b index keep) := by
  unfold remove_key_at
  apply (Alike.of_eq (snapshot_eq hR h)).bind
  rintro ⟨children, keys⟩ _ rfl
  apply Alike.guard
  intro _
  cases keep with
  | Left | Right => exact rewrite_alike hR h _ _

end Internal

/-! ## The same page but for the checksum and the split flag -/

/-- The bytes of the checksum field of a page type. -/
def InChecksum (page_type : UInt8) (i : Nat) : Prop :=
  ∃ off, Page.checksum_offset page_type = some off ∧ off ≤ i ∧ i < off + 4

/-- Equal bytes, but for the checksum field and the INCOMPLETE_SPLIT bit. -/
structure Same (a b : Page) : Prop where
  page_type : a OFF_PAGE_TYPE = b OFF_PAGE_TYPE
  flags : a OFF_FLAGS ||| FLAG_INCOMPLETE_SPLIT = b OFF_FLAGS ||| FLAG_INCOMPLETE_SPLIT
  rest : ∀ i, 2 ≤ i → i < PAGE_SIZE → ¬ InChecksum (a OFF_PAGE_TYPE) i → a i = b i

theorem checksum_offset_cases {page_type : UInt8} (h : Page.checksum_offset page_type = some off) :
    24 ≤ off ∧ off + 4 ≤ 60 := by
  unfold Page.checksum_offset at h
  repeat' split at h
  all_goals cases h
  all_goals decide

namespace Same

variable {a b c : Page}

theorem refl (a : Page) : Same a a := ⟨rfl, rfl, fun _ _ _ _ => rfl⟩

theorem symm (h : Same a b) : Same b a := by
  refine ⟨h.page_type.symm, h.flags.symm, fun i h1 h2 h3 => ?_⟩
  exact (h.rest i h1 h2 (by rwa [h.page_type])).symm

theorem trans (h : Same a b) (h' : Same b c) : Same a c := by
  refine ⟨h.page_type.trans h'.page_type, h.flags.trans h'.flags, fun i h1 h2 h3 => ?_⟩
  rw [h.rest i h1 h2 h3]
  exact h'.rest i h1 h2 (by rwa [← h.page_type])

/-- A write past the flags. -/
theorem put (h : Same a b) (hoff : 2 ≤ off) (bs : Bytes) :
    Same (a.put off bs) (b.put off bs) := by
  have h0 : ∀ b : Page, b.put off bs OFF_PAGE_TYPE = b OFF_PAGE_TYPE := fun b =>
    Page.put_outside (.inl (by unfold OFF_PAGE_TYPE; omega))
  have h1 : ∀ b : Page, b.put off bs OFF_FLAGS = b OFF_FLAGS := fun b =>
    Page.put_outside (.inl (by unfold OFF_FLAGS; omega))
  refine ⟨by rw [h0, h0, h.page_type], by rw [h1, h1, h.flags], fun i hi hlt hc => ?_⟩
  rw [h0] at hc
  rw [Page.put_apply, Page.put_apply, h.rest i hi hlt hc]

theorem slice (h : Same a b) (h2 : 2 ≤ off) (h24 : off + len ≤ 24) :
    a.slice off len = b.slice off len := by
  apply Page.slice_congr
  intro i h1 hi
  apply h.rest i (by omega) (by unfold PAGE_SIZE; omega)
  rintro ⟨o, ho, hle, _⟩
  have := (checksum_offset_cases ho).1
  omega

theorem page_lsn (h : Same a b) : a.page_lsn = b.page_lsn := by
  unfold Page.page_lsn
  rw [h.slice (by decide) (by decide)]

/-- Related pages of one type. -/
def OfType (page_type : UInt8) (a b : Page) : Prop := Same a b ∧ a OFF_PAGE_TYPE = page_type

theorem OfType.put {page_type : UInt8} (h : OfType page_type a b) (bs : Bytes)
    (hwr : ∀ i, off ≤ i → i < off + bs.length → 2 ≤ i) :
    OfType page_type (a.put off bs) (b.put off bs) := by
  by_cases hbs : bs = []
  · rw [hbs, Page.put_nil, Page.put_nil]
    exact h
  have hpos : 0 < bs.length := length_pos_iff.mpr hbs
  have hoff : 2 ≤ off := hwr off le_rfl (by omega)
  refine ⟨h.1.put hoff bs, ?_⟩
  rw [Page.put_outside (.inl (by unfold OFF_PAGE_TYPE; omega)), h.2]

theorem respects_leaf : Respects Leaf.Reads Leaf.Writes (OfType LEAF) where
  read := by
    rintro a b i ⟨h, hty⟩ hrd hlt
    unfold Leaf.Reads at hrd
    apply h.rest i (by omega) hlt
    rintro ⟨off, ho, h1, h2⟩
    rw [hty] at ho
    cases ho
    omega
  write := fun bs h hwr => h.put bs hwr

theorem respects_internal : Respects Internal.Touches Internal.Touches (OfType INTERNAL) where
  read := by
    rintro a b i ⟨h, hty⟩ hrd hlt
    unfold Internal.Touches at hrd
    apply h.rest i (by omega) hlt
    rintro ⟨off, ho, h1, h2⟩
    rw [hty] at ho
    cases ho
    omega
  write := fun bs h hwr => h.put bs fun i h1 h2 => by
    have := hwr i h1 h2
    unfold Internal.Touches at this
    omega

/-! ## The shared header -/

theorem set_lsn_alike (h : Same a b) (lsn : Nat) : Alike Same (a.set_lsn lsn) (b.set_lsn lsn) :=
  Alike.ok (h.put (by decide) _)

/-- A new flag byte that depends only on the bits the relation keeps. -/
theorem put_flags (h : Same a b) {f g : UInt8}
    (hfg : f ||| FLAG_INCOMPLETE_SPLIT = g ||| FLAG_INCOMPLETE_SPLIT) :
    Same (a.put OFF_FLAGS [f]) (b.put OFF_FLAGS [g]) := by
  have h0 : ∀ (b : Page) (f : UInt8), b.put OFF_FLAGS [f] OFF_PAGE_TYPE = b OFF_PAGE_TYPE :=
    fun b f => Page.put_outside (.inl (by decide))
  have h1 : ∀ (b : Page) (f : UInt8), b.put OFF_FLAGS [f] OFF_FLAGS = f := fun b f =>
    Page.put_inside le_rfl (by simp)
  refine ⟨by rw [h0, h0, h.page_type], by rw [h1, h1, hfg], fun i hi hlt hc => ?_⟩
  rw [h0] at hc
  have hout : ∀ (b : Page) (f : UInt8), b.put OFF_FLAGS [f] i = b i := fun b f =>
    Page.put_outside (.inr (by simp [OFF_FLAGS]; omega))
  rw [hout, hout, h.rest i hi hlt hc]

theorem set_half_dead_alike (h : Same a b) : Alike Same a.set_half_dead b.set_half_dead := by
  apply Alike.ok (h.put_flags ?_)
  rw [UInt8.or_assoc, UInt8.or_comm FLAG_HALF_DEAD, ← UInt8.or_assoc, h.flags, UInt8.or_assoc,
    UInt8.or_comm FLAG_INCOMPLETE_SPLIT, ← UInt8.or_assoc]

theorem clear_or (f c : UInt8) : (f &&& ~~~c) ||| c = f ||| c := by
  apply UInt8.eq_of_toBitVec_eq
  ext i hi
  simp only [UInt8.toBitVec_or, UInt8.toBitVec_and, UInt8.toBitVec_not, BitVec.getElem_or,
    BitVec.getElem_and, BitVec.getElem_not]
  cases f.toBitVec[i] <;> cases c.toBitVec[i] <;> rfl

theorem clear_incomplete_split_alike (h : Same a b) :
    Alike Same a.clear_incomplete_split b.clear_incomplete_split := by
  apply Alike.ok (h.put_flags ?_)
  rw [clear_or, clear_or, h.flags]

theorem of_clear_incomplete_split (h : a.clear_incomplete_split = .ok b) : Same b a := by
  cases h
  have hself : a.put OFF_FLAGS [a OFF_FLAGS] = a := by
    funext i
    rw [Page.put_apply]
    split
    · rename_i hi
      obtain rfl : i = OFF_FLAGS := by simp at hi; omega
      simp
    · rfl
  have hput := (refl a).put_flags (clear_or (a OFF_FLAGS) FLAG_INCOMPLETE_SPLIT)
  rwa [hself] at hput

/-! ## Checksums -/

theorem stamp_checksum_verifies (a : Page) :
    Same a.stamp_checksum a ∧ a.stamp_checksum.verify_checksum := by
  cases ho : Page.checksum_offset (a OFF_PAGE_TYPE) with
  | none =>
    have hstamp : a.stamp_checksum = a := by
      unfold Page.stamp_checksum
      rw [ho]
    rw [hstamp]
    refine ⟨refl a, ?_⟩
    unfold Page.verify_checksum
    rw [ho]
  | some off =>
    have hoff := checksum_offset_cases ho
    have hstamp : a.stamp_checksum = a.put off (leBytes 4 (a.compute_checksum off).toNat) := by
      unfold Page.stamp_checksum
      rw [ho]
    rw [hstamp]
    generalize hb : a.put off (leBytes 4 (a.compute_checksum off).toNat) = b
    have hout : ∀ i, i < off ∨ off + 4 ≤ i → b i = a i := by
      intro i hi
      rw [← hb]
      apply Page.put_outside
      rwa [length_leBytes]
    have htype : b OFF_PAGE_TYPE = a OFF_PAGE_TYPE :=
      hout _ (.inl (by unfold OFF_PAGE_TYPE; omega))
    refine ⟨⟨htype, by rw [hout _ (.inl (by unfold OFF_FLAGS; omega))], ?_⟩, ?_⟩
    · intro i _ _ hc
      apply hout
      by_contra hcon
      exact hc ⟨off, by rw [htype, ho], by omega, by omega⟩
    have hsum : b.compute_checksum off = a.compute_checksum off := by
      unfold Page.compute_checksum
      rw [Page.slice_congr (a := b) (b := a) fun i _ hi => hout i (.inl (by omega)),
        Page.slice_congr (a := b) (b := a) fun i hi _ => hout i (.inr hi)]
    have hfield : b.slice off 4 = leBytes 4 (a.compute_checksum off).toNat := by
      rw [← hb]
      simpa using a.slice_put off (leBytes 4 (a.compute_checksum off).toNat)
    unfold Page.verify_checksum
    rw [htype, ho]
    simp only [hsum, hfield, beq_iff_eq]
    exact leNat_leBytes_of_lt (UInt32.toNat_lt _)

end Same

/-! ## The same page with another LSN -/

def Restamped (lsn : Nat) (a b : Page) : Prop := a = b.put OFF_LSN (leBytes 8 lsn)

theorem respects_restamped (lsn : Nat) :
    Respects Internal.Touches Internal.Touches (Restamped lsn) where
  read := by
    rintro a b i rfl hrd hlt
    unfold Internal.Touches at hrd
    apply Page.put_outside
    simp only [length_leBytes, OFF_LSN]
    omega
  write := by
    rintro a b off bs rfl hwr
    by_cases hbs : bs = []
    · rw [hbs, Page.put_nil, Page.put_nil]
      rfl
    apply Page.put_comm
    have hpos : 0 < bs.length := length_pos_iff.mpr hbs
    have hfirst := hwr off le_rfl (by omega)
    have hlast := hwr (off + bs.length - 1) (by omega) (by omega)
    rw [length_leBytes]
    unfold Internal.Touches at hfirst hlast
    unfold OFF_LSN
    -- A run that starts below the LSN and ends above it would pass through it.
    by_contra hcon
    have hmid := hwr 16 (by omega) (by omega)
    unfold Internal.Touches at hmid
    omega

end FluxDB
