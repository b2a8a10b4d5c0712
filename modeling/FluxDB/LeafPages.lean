-- Leaf pages, read and built. The accessor reads the records of a page through its slot
-- directory; the builder writes a fresh page record by record and panics where one does not fit.
-- What the builder has written, the accessor reads.
import FluxDB.SamePages
import FluxDB.Recovery

namespace FluxDB

open Bytes List Except Option Maps

def MAX_KEY_SIZE : Nat := 512
def OVERFLOW_THRESHOLD : Nat := 2048

/-! ## Bytes at a place -/

variable {n off : Nat} {α ε : Type}

namespace Page

/-- The bytes stand at this place of the page. -/
def Shows (b : Page) (off : Nat) (bs : Bytes) : Prop := b.slice off bs.length = bs

theorem shows_put (b : Page) (off : Nat) (bs : Bytes) : (b.put off bs).Shows off bs :=
  slice_put b off bs

variable {bs : Bytes}

theorem Shows.put {b : Page} (h : b.Shows off bs) {off' : Nat} {bs' : Bytes}
    (hd : off + bs.length ≤ off' ∨ off' + bs'.length ≤ off) : (b.put off' bs').Shows off bs := by
  refine Eq.trans (slice_congr fun i h1 h2 => ?_) h
  exact put_outside (by omega)

theorem Shows.congr {b b' : Page} (h : b.Shows off bs)
    (heq : ∀ i, off ≤ i → i < off + bs.length → b' i = b i) : b'.Shows off bs :=
  (slice_congr heq).trans h

theorem Shows.read_bytes {b : Page} (h : b.Shows off bs) (hoff : off + bs.length ≤ PAGE_SIZE) :
    b.read_bytes off bs.length = .ok bs := by
  unfold Page.read_bytes
  rw [if_pos hoff, h]

theorem Shows.read_nat {b : Page} {v : Nat} (h : b.Shows off (leBytes n v))
    (hoff : off + n ≤ PAGE_SIZE) (hv : v < 256 ^ n) : b.read_nat n off = .ok v := by
  have hread := h.read_bytes (by rw [length_leBytes]; exact hoff)
  rw [length_leBytes] at hread
  unfold Page.read_nat
  rw [hread, ok_bind, leNat_leBytes_of_lt hv]

theorem Shows.read_u8 {b : Page} {v : UInt8} (h : b.Shows off [v]) (hoff : off < PAGE_SIZE) :
    b.read_u8 off = .ok v := by
  unfold Page.read_u8
  rw [if_pos hoff]
  have hv : [b (off + 0)] = [v] := h
  exact congrArg Except.ok (head_eq_of_cons_eq hv)

theorem write_bytes_ok {b : Page} (h : off + bs.length ≤ PAGE_SIZE) :
    b.write_bytes off bs = .ok (b.put off bs) := if_pos h

theorem write_nat_ok {b : Page} {v : Nat} (h : off + n ≤ PAGE_SIZE) :
    b.write_bytes off (leBytes n v) = .ok (b.put off (leBytes n v)) :=
  write_bytes_ok (by rw [length_leBytes]; exact h)

def set_incomplete_split (b : Page) : Except PageFault Page := do
  let f ← b.read_u8 OFF_FLAGS
  b.write_u8 OFF_FLAGS (f ||| FLAG_INCOMPLETE_SPLIT)

theorem set_lsn_ok (b : Page) (lsn : Nat) : ∃ b', b.set_lsn lsn = .ok b' ∧
    ∀ i, i < 16 ∨ 24 ≤ i → b' i = b i := by
  unfold Page.set_lsn write_u64
  refine ⟨_, write_nat_ok (by decide), fun i hi => put_outside ?_⟩
  rw [length_leBytes]
  unfold OFF_LSN
  omega

theorem set_incomplete_split_ok (b : Page) : ∃ b', b.set_incomplete_split = .ok b' ∧
    ∀ i, i ≠ 1 → b' i = b i := by
  unfold Page.set_incomplete_split read_u8 write_u8
  rw [if_pos (by decide), ok_bind]
  refine ⟨_, write_bytes_ok (by rw [length_singleton]; decide), fun i hi => ?_⟩
  apply put_outside
  rw [length_singleton]
  unfold OFF_FLAGS
  omega

end Page

theorem mapM_eq_ok {β : Type} {f : α → Except ε β} {l : List α} {ys : List β} :
    l.mapM f = .ok ys ↔ l.map f = ys.map .ok := by
  induction l generalizing ys with
  | nil => cases ys <;> simp [pure, Except.pure]
  | cons x l ih =>
    rw [mapM_cons, map_cons, bind_eq_ok]
    constructor
    · rintro ⟨y, hy, h⟩
      obtain ⟨ys', hys', h⟩ := bind_eq_ok.mp h
      cases h
      rw [hy, ih.mp hys', map_cons]
    intro h
    cases ys with
    | nil => cases h
    | cons y ys =>
      obtain ⟨hy, hys⟩ := List.cons.inj h
      exact ⟨y, hy, by rw [ih.mpr hys]; rfl⟩

theorem mapM_range {f : Nat → Except ε α} {xs : List α}
    (hf : ∀ (i : Nat) x, xs[i]? = some x → f i = .ok x) :
    (List.range xs.length).mapM f = .ok xs := by
  rw [mapM_eq_ok]
  apply ext_getElem?
  intro i
  rw [getElem?_map, getElem?_map]
  cases hi : xs[i]? with
  | none =>
    rw [getElem?_eq_none (by rw [length_range]; exact getElem?_eq_none_iff.mp hi)]
    rfl
  | some x =>
    rw [getElem?_range (lt_of_getElem? hi), map_some, map_some, hf i x hi]

theorem of_mapM_range {f : Nat → Except ε α} {xs : List α} (h : (List.range n).mapM f = .ok xs) :
    xs.length = n ∧ ∀ (i : Nat) x, xs[i]? = some x → f i = .ok x := by
  rw [mapM_eq_ok] at h
  have hlen := congrArg List.length h
  rw [length_map, length_map, length_range] at hlen
  refine ⟨hlen.symm, fun i x hx => ?_⟩
  have hi : ((List.range n).map f)[i]? = (xs.map Except.ok)[i]? := by rw [h]
  rw [getElem?_map, getElem?_map, hx,
    getElem?_range (by rw [hlen]; exact (lt_of_getElem? hx))] at hi
  exact Option.some.inj hi

/-! ## The accessor -/

namespace Leaf

/-- A record of a leaf: one version of a key. -/
structure Rec where
  key : Bytes
  value : Bytes
  rec_type : UInt8
  xmin : Nat
  xmax : Nat
  deriving DecidableEq, Repr

/-- The bytes that a record takes, without its slot. -/
def Rec.size (r : Rec) : Nat := rec_total_size r.key.length r.value.length

def num_pairs (b : Page) : Except PageFault Nat := b.read_u16 OFF_LEAF_SLOT_COUNT

def high_key_len (b : Page) : Except PageFault Nat := b.read_u16 OFF_LEAF_HIGH_KEY_LEN

/-- The bytes of the high key; none stand for the key above all others. -/
def stored_high_key (b : Page) : Except PageFault Bytes := do
  let len ← high_key_len b
  b.read_bytes LEAF_HEADER_SIZE len

def high_key_bytes (b : Page) : Except PageFault (Option Bytes) := do
  let hk ← stored_high_key b
  .ok (if hk = [] then none else some hk)

def prev_page (b : Page) : Except PageFault (Option UInt64) := do
  let v ← b.read_u64 OFF_LEAF_PREV
  .ok (Payload.link v)

def rightlink (b : Page) : Except PageFault (Option UInt64) := do
  let v ← b.read_u64 OFF_LEAF_RIGHTLINK
  .ok (Payload.link v)

def free_space (b : Page) : Except PageFault Nat := do
  let free_end ← b.read_u16 OFF_LEAF_FREE_END
  let free_start ← b.read_u16 OFF_LEAF_FREE_START
  if free_end < free_start then .error .panic else .ok (free_end - free_start)

def can_fit_direct (b : Page) (key_len val_len : Nat) : Except PageFault Bool := do
  let free ← free_space b
  .ok (SLOT_SIZE + rec_total_size key_len val_len ≤ free)

/-- The record of slot `i`: its key, its stored value, its type and its stamps. -/
def record_at (b : Page) (i : Nat) : Except PageFault Rec := do
  let hkl ← high_key_len b
  let rec_base ← b.read_u16 (slot_offset_at hkl i)
  let key_len ← b.read_u16 (rec_base + REC_OFF_KEY_LEN)
  let val_len ← b.read_u16 (rec_base + REC_OFF_VAL_LEN)
  let rec_type ← b.read_u8 (rec_base + REC_OFF_REC_TYPE)
  let xmin ← b.read_u64 (rec_base + REC_OFF_XMIN)
  let xmax ← b.read_u64 (rec_base + REC_OFF_XMAX)
  let key ← b.read_bytes (rec_base + REC_HEADER_SIZE) key_len
  let value ← b.read_bytes (rec_base + REC_HEADER_SIZE + align2 key_len) val_len
  .ok ⟨key, value, rec_type, xmin, xmax⟩

/-- All records of the page, in slot order. -/
def records (b : Page) : Except PageFault (List Rec) := do
  let n ← num_pairs b
  (List.range n).mapM (record_at b)

/-! ## The builder -/

structure Builder where
  data : Page
  write_end : Nat
  hkl : Nat

namespace Builder

def new (page_id : UInt64) : Builder := ⟨Leaf.new page_id, PAGE_SIZE, 0⟩

def set_prev_page (t : Builder) (prev : Option UInt64) : Except PageFault Builder := do
  let data ← Leaf.set_prev_page t.data prev
  .ok { t with data }

def set_rightlink (t : Builder) (right : Option UInt64) : Except PageFault Builder := do
  let data ← Leaf.set_rightlink t.data right
  .ok { t with data }

def write_high_key (b : Page) (key : Bytes) : Except PageFault Page :=
  if 0 < key.length then b.write_bytes LEAF_HEADER_SIZE key else .ok b

def set_high_key (t : Builder) (key : Bytes) : Except PageFault Builder := do
  let data ← t.data.write_u16 OFF_LEAF_HIGH_KEY_LEN key.length
  let data ← write_high_key data key
  let data ← data.write_u16 OFF_LEAF_FREE_START (slot_base key.length)
  .ok { t with data, hkl := key.length }

/-- The record with its stamps. -/
def write_version (b : Page) (rec_base : Nat) (r : Rec) : Except PageFault Page := do
  let b ← b.write_u16 (rec_base + REC_OFF_KEY_LEN) r.key.length
  let b ← b.write_u16 (rec_base + REC_OFF_VAL_LEN) r.value.length
  let b ← b.write_u8 (rec_base + REC_OFF_REC_TYPE) r.rec_type
  let b ← b.write_u64 (rec_base + REC_OFF_XMIN) r.xmin
  let b ← b.write_u64 (rec_base + REC_OFF_XMAX) r.xmax
  let b ← b.write_bytes (rec_base + REC_HEADER_SIZE) r.key
  b.write_bytes (rec_base + REC_HEADER_SIZE + align2 r.key.length) r.value

/-- The assertion that the page is not full comes before any write. -/
def push_with_mvcc_raw (t : Builder) (r : Rec) : Except PageFault Builder := do
  let n ← num_pairs t.data
  let free_start := slot_base t.hkl + n * SLOT_SIZE
  if t.write_end < free_start + SLOT_SIZE + r.size then .error .panic
  else do
    let rec_base := t.write_end - r.size
    let data ← write_version t.data rec_base r
    let slot_off := slot_offset_at t.hkl n
    let data ← data.write_u16 slot_off rec_base
    let data ← data.write_u16 (slot_off + 2) r.size
    let data ← data.write_u16 OFF_LEAF_SLOT_COUNT (n + 1)
    let data ← data.write_u16 OFF_LEAF_FREE_START (slot_off + SLOT_SIZE)
    let data ← data.write_u16 OFF_LEAF_FREE_END rec_base
    .ok { t with data, write_end := rec_base }

def push_all (t : Builder) (rs : List Rec) : Except PageFault Builder :=
  rs.foldlM push_with_mvcc_raw t

end Builder

/-! ## What is written is read -/

/-- The bytes of the record stand at `base`. -/
structure HoldsRec (b : Page) (base : Nat) (r : Rec) : Prop where
  key_len : b.Shows (base + REC_OFF_KEY_LEN) (leBytes 2 r.key.length)
  val_len : b.Shows (base + REC_OFF_VAL_LEN) (leBytes 2 r.value.length)
  rec_type : b.Shows (base + REC_OFF_REC_TYPE) [r.rec_type]
  xmin : b.Shows (base + REC_OFF_XMIN) (leBytes 8 r.xmin)
  xmax : b.Shows (base + REC_OFF_XMAX) (leBytes 8 r.xmax)
  key : b.Shows (base + REC_HEADER_SIZE) r.key
  value : b.Shows (base + REC_HEADER_SIZE + align2 r.key.length) r.value

theorem le_align2 (n : Nat) : n ≤ align2 n := by
  unfold align2
  omega

/-- The parts of a record lie one behind the other. -/
theorem Rec.le_size (r : Rec) :
    REC_HEADER_SIZE + align2 r.key.length + r.value.length ≤ r.size := by
  unfold Rec.size rec_total_size
  exact le_align2 _

theorem HoldsRec.congr {b b' : Page} {base : Nat} {r : Rec} (h : HoldsRec b base r)
    (heq : ∀ i, base ≤ i → i < base + r.size → b' i = b i) : HoldsRec b' base r := by
  have hsize := r.le_size
  have halign := le_align2 r.key.length
  unfold REC_HEADER_SIZE at hsize
  have hpart : ∀ {off : Nat} {bs : Bytes}, b.Shows (base + off) bs →
      off + bs.length ≤ 24 + align2 r.key.length + r.value.length → b'.Shows (base + off) bs :=
    fun hs hoff => hs.congr fun i h1 h2 => heq i (by omega) (by omega)
  refine ⟨hpart h.key_len ?_, hpart h.val_len ?_, hpart h.rec_type ?_, hpart h.xmin ?_,
    hpart h.xmax ?_, hpart h.key ?_, ?_⟩
  · rw [length_leBytes]
    unfold REC_OFF_KEY_LEN
    omega
  · rw [length_leBytes]
    unfold REC_OFF_VAL_LEN
    omega
  · rw [length_singleton]
    unfold REC_OFF_REC_TYPE
    omega
  · rw [length_leBytes]
    unfold REC_OFF_XMIN
    omega
  · rw [length_leBytes]
    unfold REC_OFF_XMAX
    omega
  · unfold REC_HEADER_SIZE
    omega
  have hvalue := h.value
  rw [Nat.add_assoc] at hvalue ⊢
  exact hpart hvalue le_rfl

theorem write_version_ok (b : Page) {base : Nat} {r : Rec} (hfit : base + r.size ≤ PAGE_SIZE) :
    ∃ b', Builder.write_version b base r = .ok b' ∧ HoldsRec b' base r ∧
      ∀ i, i < base ∨ base + r.size ≤ i → b' i = b i := by
  have hsize := r.le_size
  have halign := le_align2 r.key.length
  unfold Builder.write_version Page.write_u16 Page.write_u8 Page.write_u64
  unfold REC_HEADER_SIZE at hsize
  simp only [REC_OFF_KEY_LEN, REC_OFF_VAL_LEN, REC_OFF_REC_TYPE, REC_OFF_XMIN, REC_OFF_XMAX,
    REC_HEADER_SIZE]
  rw [Page.write_nat_ok (by omega), ok_bind, Page.write_nat_ok (by omega), ok_bind,
    Page.write_bytes_ok (by rw [length_singleton]; omega), ok_bind,
    Page.write_nat_ok (by omega), ok_bind, Page.write_nat_ok (by omega), ok_bind,
    Page.write_bytes_ok (by omega), ok_bind, Page.write_bytes_ok (by omega)]
  have h1 := length_leBytes 2 r.key.length
  have h2 := length_leBytes 2 r.value.length
  have h3 : [r.rec_type].length = 1 := rfl
  have h4 := length_leBytes 8 r.xmin
  have h5 := length_leBytes 8 r.xmax
  refine ⟨_, rfl, ⟨?_, ?_, ?_, ?_, ?_, ?_, Page.shows_put _ _ _⟩, ?_⟩
  · exact ((((((Page.shows_put _ _ _).put (by omega)).put (by omega)).put (by omega)).put
      (by omega)).put (by omega)).put (by omega)
  · exact (((((Page.shows_put _ _ _).put (by omega)).put (by omega)).put (by omega)).put
      (by omega)).put (by omega)
  · exact ((((Page.shows_put _ _ _).put (by omega)).put (by omega)).put (by omega)).put (by omega)
  · exact (((Page.shows_put _ _ _).put (by omega)).put (by omega)).put (by omega)
  · exact ((Page.shows_put _ _ _).put (by omega)).put (by omega)
  · exact (Page.shows_put _ _ _).put (by omega)
  intro i hi
  simp (disch := omega) only [Page.put_outside]

/-- The page holds the high key and the records. The records fill the end of the page from
`write_end` on, and the slot directory ends in front of it. -/
structure Laid (b : Page) (write_end : Nat) (hk : Bytes) (rs : List Rec) : Prop where
  type : b OFF_PAGE_TYPE = LEAF
  high_key_len : b.Shows OFF_LEAF_HIGH_KEY_LEN (leBytes 2 hk.length)
  high_key : b.Shows LEAF_HEADER_SIZE hk
  count : b.Shows OFF_LEAF_SLOT_COUNT (leBytes 2 rs.length)
  free_start : b.Shows OFF_LEAF_FREE_START (leBytes 2 (slot_offset_at hk.length rs.length))
  free_end : b.Shows OFF_LEAF_FREE_END (leBytes 2 write_end)
  room : slot_offset_at hk.length rs.length ≤ write_end
  used : write_end + (rs.map Rec.size).sum = PAGE_SIZE
  slots : ∀ (i : Nat) r, rs[i]? = some r → ∃ base,
    b.Shows (slot_offset_at hk.length i) (leBytes 2 base) ∧ write_end ≤ base ∧
    base + r.size ≤ PAGE_SIZE ∧ HoldsRec b base r

section Laid

variable {b b' : Page} {write_end : Nat} {hk : Bytes} {rs : List Rec}

section

variable (h : Laid b write_end hk rs)

include h

theorem Laid.le_page :
    LEAF_HEADER_SIZE + hk.length ≤ write_end ∧ rs.length * SLOT_SIZE ≤ write_end ∧ write_end ≤
      PAGE_SIZE := by
  have hroom := h.room
  have hused := h.used
  have halign := le_align2 hk.length
  unfold slot_offset_at slot_base at hroom
  omega

/-- Links, flags and the LSN are not part of the layout. -/
theorem Laid.congr (heq : ∀ i, i = 0 ∨ 2 ≤ i ∧ i < 8 ∨ 40 ≤ i → b' i = b i) :
    Laid b' write_end hk rs := by
  have hbehind : ∀ {off : Nat} {bs : Bytes}, b.Shows off bs → 40 ≤ off → b'.Shows off bs :=
    fun hs hoff => hs.congr fun i h1 _ => heq i (by omega)
  have hfront : ∀ {off v : Nat}, b.Shows off (leBytes 2 v) → 2 ≤ off → off ≤ 6 →
      b'.Shows off (leBytes 2 v) := by
    intro off v hs h1 h2
    refine hs.congr fun i hi hi' => heq i ?_
    rw [length_leBytes] at hi'
    omega
  refine ⟨(heq 0 (.inl rfl)).trans h.type, hbehind h.high_key_len (by decide),
    hbehind h.high_key (by decide), hfront h.count (by decide) (by decide),
    hfront h.free_start (by decide) (by decide), hfront h.free_end (by decide) (by decide), h.room,
    h.used, ?_⟩
  intro i r hi
  obtain ⟨base, hslot, hle, hend, hrec⟩ := h.slots i r hi
  have hpage := h.le_page.1
  unfold LEAF_HEADER_SIZE at hpage
  have hoff := le_slot_offset_at hk.length i
  exact ⟨base, hbehind hslot (by omega), hle, hend, hrec.congr fun j h1 _ => heq j (by omega)⟩

theorem Laid.stored_high_key : stored_high_key b = .ok hk := by
  obtain ⟨h1, -, h3⟩ := h.le_page
  have hlen : hk.length < 256 ^ 2 := by
    unfold PAGE_SIZE at h3
    omega
  unfold Leaf.stored_high_key Leaf.high_key_len Page.read_u16
  rw [h.high_key_len.read_nat (by decide) hlen, ok_bind]
  exact h.high_key.read_bytes (by omega)

theorem Laid.record_at {i : Nat} {r : Rec} (hi : rs[i]? = some r) (hxmin : r.xmin < 2 ^ 64)
    (hxmax : r.xmax < 2 ^ 64) : record_at b i = .ok r := by
  obtain ⟨h1, h2, h3⟩ := h.le_page
  obtain ⟨base, hslot, hle, hend, hrec⟩ := h.slots i r hi
  have hsize := r.le_size
  have halign := le_align2 r.key.length
  have hlt := lt_of_getElem? hi
  have hroom := h.room
  have hoff : slot_offset_at hk.length i + 2 ≤ PAGE_SIZE := by
    unfold slot_offset_at SLOT_SIZE at hroom ⊢
    omega
  unfold PAGE_SIZE at h3 hend hoff
  unfold REC_HEADER_SIZE at hsize
  unfold Leaf.record_at Leaf.high_key_len Page.read_u16 Page.read_u64
  rw [h.high_key_len.read_nat (by decide) (by omega), ok_bind,
    hslot.read_nat hoff (by omega), ok_bind,
    hrec.key_len.read_nat (by unfold REC_OFF_KEY_LEN PAGE_SIZE; omega) (by omega), ok_bind,
    hrec.val_len.read_nat (by unfold REC_OFF_VAL_LEN PAGE_SIZE; omega) (by omega), ok_bind,
    hrec.rec_type.read_u8 (by unfold REC_OFF_REC_TYPE PAGE_SIZE; omega), ok_bind,
    hrec.xmin.read_nat (by unfold REC_OFF_XMIN PAGE_SIZE; omega) hxmin, ok_bind,
    hrec.xmax.read_nat (by unfold REC_OFF_XMAX PAGE_SIZE; omega) hxmax, ok_bind,
    hrec.key.read_bytes (by unfold REC_HEADER_SIZE PAGE_SIZE; omega), ok_bind,
    hrec.value.read_bytes (by unfold REC_HEADER_SIZE PAGE_SIZE; omega), ok_bind]

theorem Laid.num_pairs : num_pairs b = .ok rs.length := by
  obtain ⟨-, h2, h3⟩ := h.le_page
  unfold PAGE_SIZE at h3
  unfold SLOT_SIZE at h2
  exact h.count.read_nat (by decide) (by omega)

theorem Laid.free_space :
    free_space b = .ok (write_end - slot_offset_at hk.length rs.length) := by
  have hroom := h.room
  have hle := h.le_page.2.2
  unfold PAGE_SIZE at hle
  unfold Leaf.free_space Page.read_u16
  rw [h.free_end.read_nat (by decide) (by omega), ok_bind,
    h.free_start.read_nat (by decide) (by omega), ok_bind, if_neg (by omega)]

/-- The accessor reads the records back. -/
theorem Laid.records (hstamps : ∀ r ∈ rs, r.xmin < 2 ^ 64 ∧ r.xmax < 2 ^ 64) :
    records b = .ok rs := by
  unfold Leaf.records
  rw [h.num_pairs, ok_bind]
  apply mapM_range
  intro i r hi
  obtain ⟨hxmin, hxmax⟩ := hstamps r (mem_of_getElem? hi)
  exact h.record_at hi hxmin hxmax

end

end Laid

/-! ## Building -/

namespace Builder

variable {t : Builder} {hk : Bytes} {rs : List Rec} {r : Rec}

/-- The builder has laid out the high key and the records. -/
structure Built (t : Builder) (hk : Bytes) (rs : List Rec) : Prop where
  laid : Laid t.data t.write_end hk rs
  hkl : t.hkl = hk.length

theorem built_new (page_id : UInt64) : Built (new page_id) [] [] := by
  have hid := length_leBytes 8 page_id.toNat
  have hstart := length_leBytes 2 (slot_base 0)
  have hend := length_leBytes 2 PAGE_SIZE
  have hzero : ∀ off, off = 2 ∨ off = 40 → (Leaf.new page_id).Shows off (leBytes 2 0) := by
    intro off hoff
    have hlen : (leBytes 2 0).length = 2 := length_leBytes 2 0
    have hblank : Page.zero.Shows off (leBytes 2 0) := rfl
    unfold Leaf.new OFF_PAGE_TYPE OFF_PAGE_ID OFF_LEAF_FREE_START OFF_LEAF_FREE_END
    exact (((hblank.put (by rw [length_singleton]; omega)).put (by omega)).put (by omega)).put
      (by omega)
  have htype : Leaf.new page_id OFF_PAGE_TYPE = LEAF := by
    simp [Leaf.new, Page.put, OFF_PAGE_TYPE, OFF_PAGE_ID, OFF_LEAF_FREE_START, OFF_LEAF_FREE_END]
  have hroom : slot_offset_at 0 0 ≤ PAGE_SIZE := by decide
  have hfree : (Leaf.new page_id).Shows OFF_LEAF_FREE_START (leBytes 2 (slot_base 0)) :=
    (Page.shows_put _ _ _).put (by rw [hstart]; decide)
  exact ⟨⟨htype, hzero 40 (.inr rfl), rfl, hzero 2 (.inl rfl), hfree, Page.shows_put _ _ _, hroom,
    rfl, nofun⟩, rfl⟩

theorem Built.put_link (h : Built t hk rs) (h1 : 24 ≤ off) (h2 : off + 8 ≤ 40) (v : Nat) :
    Built { t with data := t.data.put off (leBytes 8 v) } hk rs := by
  refine ⟨h.laid.congr fun i hi => Page.put_outside ?_, h.hkl⟩
  rw [length_leBytes]
  omega

theorem Built.set_high_key (h : Built t [] []) (hfit : slot_base hk.length ≤ PAGE_SIZE) :
    ∃ t', t.set_high_key hk = .ok t' ∧ Built t' hk [] ∧
      ∀ i, 8 ≤ i → i < 40 → t'.data i = t.data i := by
  have hlen := length_leBytes 2 hk.length
  have hstart := length_leBytes 2 (slot_base hk.length)
  have halign := le_align2 hk.length
  have hhk : LEAF_HEADER_SIZE + hk.length ≤ PAGE_SIZE := by
    unfold slot_base at hfit
    omega
  have hmid : ∀ b : Page, write_high_key b hk = .ok (b.put LEAF_HEADER_SIZE hk) := by
    intro b
    unfold write_high_key
    split
    · exact Page.write_bytes_ok hhk
    · next hnil =>
      rw [eq_nil_of_length_eq_zero (Nat.eq_zero_of_not_pos hnil), Page.put_nil]
  have hcount := h.laid.count
  have htype := h.laid.type
  have hused := h.laid.used
  have hfree := h.laid.free_end
  have hend := length_leBytes 2 t.write_end
  unfold Builder.set_high_key Page.write_u16
  rw [Page.write_nat_ok (by decide), ok_bind, hmid, ok_bind, Page.write_nat_ok (by decide), ok_bind]
  unfold OFF_LEAF_HIGH_KEY_LEN LEAF_HEADER_SIZE OFF_LEAF_FREE_START
  refine ⟨_, rfl, ⟨⟨?_, ?_, ?_, ?_, ?_, ?_, ?_, hused, nofun⟩, rfl⟩, ?_⟩
  · unfold OFF_PAGE_TYPE at htype ⊢
    dsimp only
    simp (disch := omega) only [Page.put_outside, htype]
  · unfold OFF_LEAF_HIGH_KEY_LEN
    exact ((Page.shows_put _ _ _).put (by omega)).put (by omega)
  · exact (Page.shows_put _ _ _).put (by omega)
  · have hzero := length_leBytes 2 ([] : List Rec).length
    unfold OFF_LEAF_SLOT_COUNT at hcount ⊢
    exact ((hcount.put (by omega)).put (by omega)).put (by omega)
  · have hnone : slot_offset_at hk.length ([] : List Rec).length = slot_base hk.length := by
      simp [slot_offset_at]
    rw [hnone]
    exact Page.shows_put _ _ _
  · unfold OFF_LEAF_FREE_END at hfree ⊢
    exact ((hfree.put (by omega)).put (by omega)).put (by omega)
  · have hend : t.write_end = PAGE_SIZE := hused
    unfold slot_offset_at
    rw [hend]
    simpa using hfit
  intro i h1 h2
  simp (disch := omega) only [Page.put_outside]

/-- One more record, if it fits between the slots and the records. -/
theorem Built.push (h : Built t hk rs)
    (hfit : slot_offset_at hk.length (rs.length + 1) + r.size ≤ t.write_end) :
    ∃ t', t.push_with_mvcc_raw r = .ok t' ∧ Built t' hk (rs ++ [r]) ∧
      t'.write_end + r.size = t.write_end ∧ ∀ i, 8 ≤ i → i < 40 → t'.data i = t.data i := by
  obtain ⟨hlaid, hhkl⟩ := h
  obtain ⟨hhk, hslots, hend⟩ := hlaid.le_page
  have hslot : slot_offset_at hk.length (rs.length + 1) =
      slot_offset_at hk.length rs.length + SLOT_SIZE := by
    unfold slot_offset_at
    rw [Nat.add_mul, Nat.one_mul, Nat.add_assoc]
  have hbase := le_slot_offset_at hk.length rs.length
  have hmono : ∀ i, i < rs.length →
      slot_offset_at hk.length i + SLOT_SIZE ≤ slot_offset_at hk.length rs.length := by
    intro i hi
    unfold slot_offset_at SLOT_SIZE
    omega
  have hafter : LEAF_HEADER_SIZE + hk.length ≤ slot_offset_at hk.length rs.length := by
    have := le_align2 hk.length
    unfold slot_offset_at slot_base
    omega
  have hlow : slot_offset_at hk.length rs.length + SLOT_SIZE ≤ t.write_end - r.size := by omega
  obtain ⟨b, hwrite, hrec, hout⟩ := write_version_ok t.data
    (show t.write_end - r.size + r.size ≤ PAGE_SIZE by omega)
  have hlt : ¬ t.write_end < slot_base t.hkl + rs.length * SLOT_SIZE + SLOT_SIZE + r.size := by
    rw [hhkl]
    change ¬ t.write_end < slot_offset_at hk.length rs.length + SLOT_SIZE + r.size
    omega
  have h1 := length_leBytes 2 (t.write_end - r.size)
  have h2 := length_leBytes 2 r.size
  have h3 := length_leBytes 2 (rs.length + 1)
  have h4 := length_leBytes 2 (slot_offset_at hk.length rs.length + SLOT_SIZE)
  unfold push_with_mvcc_raw Page.write_u16
  rw [hlaid.num_pairs, ok_bind, if_neg hlt]
  dsimp only
  unfold SLOT_SIZE at hlow h4 hmono hslot
  rw [hwrite, ok_bind, hhkl, Page.write_nat_ok (by omega), ok_bind,
    Page.write_nat_ok (by omega), ok_bind, Page.write_nat_ok (by decide), ok_bind,
    Page.write_nat_ok (by decide), ok_bind, Page.write_nat_ok (by decide), ok_bind]
  unfold OFF_LEAF_SLOT_COUNT OFF_LEAF_FREE_START OFF_LEAF_FREE_END SLOT_SIZE
  -- behind the header, only the new slot and the new record are new
  have hkeep : ∀ i, i < 2 ∨ 8 ≤ i ∧ i < slot_offset_at hk.length rs.length ∨ t.write_end ≤ i →
      ((((((b.put (slot_offset_at hk.length rs.length) (leBytes 2 (t.write_end - r.size))).put
        (slot_offset_at hk.length rs.length + 2) (leBytes 2 r.size)).put 2
        (leBytes 2 (rs.length + 1))).put 4
        (leBytes 2 (slot_offset_at hk.length rs.length + 4))).put 6
        (leBytes 2 (t.write_end - r.size))) i) = t.data i := by
    intro i hi
    simp (disch := omega) only [Page.put_outside, hout]
  refine ⟨_, rfl, ⟨⟨?_, ?_, ?_, ?_, ?_, Page.shows_put _ _ _, ?_, ?_, ?_⟩, rfl⟩,
    Nat.sub_add_cancel (by omega), ?_⟩
  · exact (hkeep 0 (by omega)).trans hlaid.type
  · refine hlaid.high_key_len.congr fun i hi1 hi2 => hkeep i ?_
    rw [length_leBytes] at hi2
    unfold OFF_LEAF_HIGH_KEY_LEN at hi1 hi2
    omega
  · refine hlaid.high_key.congr fun i hi1 hi2 => hkeep i ?_
    unfold LEAF_HEADER_SIZE at hi1 hi2 hafter
    omega
  · rw [length_append, length_singleton]
    exact ((Page.shows_put _ _ _).put (by omega)).put (by omega)
  · rw [length_append, length_singleton, hslot]
    exact (Page.shows_put _ _ _).put (by omega)
  · rw [length_append, length_singleton]
    dsimp only
    omega
  · have hused := hlaid.used
    simp only [map_append, sum_append, map_cons, map_nil, sum_cons, sum_nil]
    omega
  · intro i r' hi
    rcases getElem?_concat_cases hi with hi | ⟨rfl, rfl⟩
    · obtain ⟨base, hshow, hle, hpage, hrec'⟩ := hlaid.slots i r' hi
      have hlen := length_leBytes 2 base
      have hi' := hmono i (lt_of_getElem? hi)
      have hi48 := le_slot_offset_at hk.length i
      refine ⟨base, hshow.congr fun j hj1 hj2 => hkeep j (by omega), ?_, hpage,
        hrec'.congr fun j hj1 hj2 => hkeep j (by omega)⟩
      dsimp only
      omega
    refine ⟨t.write_end - r'.size, ?_, le_rfl, ?_, ?_⟩
    · exact ((((Page.shows_put _ _ _).put (by omega)).put (by omega)).put (by omega)).put (by omega)
    · omega
    refine hrec.congr fun j hj1 hj2 => ?_
    simp (disch := omega) only [Page.put_outside]
  intro i hi1 hi2
  exact hkeep i (by omega)

/-- As many records as fit, one after the other. -/
theorem Built.push_all (h : Built t hk rs) (more : List Rec)
    (hfit : slot_offset_at hk.length rs.length + (more.map fun r => SLOT_SIZE + r.size).sum ≤
      t.write_end) :
    ∃ t', t.push_all more = .ok t' ∧ Built t' hk (rs ++ more) ∧
      ∀ i, 8 ≤ i → i < 40 → t'.data i = t.data i := by
  induction more generalizing t rs with
  | nil => exact ⟨t, rfl, by rwa [append_nil], fun _ _ _ => rfl⟩
  | cons r more ih =>
    have hslot : slot_offset_at hk.length (rs.length + 1) =
        slot_offset_at hk.length rs.length + SLOT_SIZE := by
      unfold slot_offset_at
      rw [Nat.add_mul, Nat.one_mul, Nat.add_assoc]
    rw [map_cons, sum_cons] at hfit
    obtain ⟨t₁, hpush, hbuilt, hend, hkeep⟩ := h.push (r := r) (by omega)
    obtain ⟨t₂, hall, hbuilt₂, hkeep₂⟩ := ih hbuilt (by
      rw [length_append, length_singleton]
      omega)
    refine ⟨t₂, ?_, by rwa [append_assoc] at hbuilt₂,
      fun i h1 h2 => (hkeep₂ i h1 h2).trans (hkeep i h1 h2)⟩
    unfold Builder.push_all at hall ⊢
    rw [foldlM_cons, hpush, ok_bind]
    exact hall

/-- A fresh page, with its high key if it has one. -/
def start (page_id : UInt64) : Option Bytes → Except PageFault Builder
  | some hk => (new page_id).set_high_key hk
  | none => .ok (new page_id)

theorem start_ok (page_id : UInt64) (hk : Option Bytes)
    (hfit : slot_base (hk.getD []).length ≤ PAGE_SIZE) :
    ∃ t, start page_id hk = .ok t ∧ Built t (hk.getD []) [] := by
  cases hk with
  | none => exact ⟨_, rfl, built_new page_id⟩
  | some hk =>
    obtain ⟨t, ht, hbuilt, -⟩ := (built_new page_id).set_high_key hfit
    exact ⟨t, ht, hbuilt⟩

end Builder

/-- How a split or a compaction writes a page: the high key, the links, then the records. -/
def build (page_id : UInt64) (high_key : Option Bytes) (right prev : Option UInt64)
    (rs : List Rec) : Except PageFault Page := do
  let t ← Builder.start page_id high_key
  let t ← t.set_rightlink right
  let t ← t.set_prev_page prev
  let t ← t.push_all rs
  mutator t.data
  .ok t.data

theorem link_toNat {p : Option UInt64} (hp : p ≠ some 0) : Payload.link (p.getD 0).toNat = p := by
  unfold Payload.link
  cases p with
  | none => rfl
  | some v =>
    have hv : v.toNat ≠ 0 := by
      intro h
      apply hp
      rw [← @UInt64.ofNat_toNat v, h]
      rfl
    rw [getD_some, if_pos hv, UInt64.ofNat_toNat]

theorem read_link {b : Page} {p : Option UInt64} (h : b.Shows off (leBytes 8 (p.getD 0).toNat))
    (hoff : off + 8 ≤ PAGE_SIZE) (hp : p ≠ some 0) :
    (b.read_u64 off >>= fun v => Except.ok (Payload.link v)) = .ok p := by
  have hread : b.read_u64 off = .ok (p.getD 0).toNat := h.read_nat hoff (UInt64.toNat_lt _)
  rw [hread, ok_bind, link_toNat hp]

/-- A page is built if its high key, its slots and its records fit, and it holds them. -/
theorem build_ok (page_id : UInt64) (hk : Option Bytes) {right prev : Option UInt64}
    (rs : List Rec) (hright : right ≠ some 0) (hprev : prev ≠ some 0)
    (hfit : slot_base (hk.getD []).length + (rs.map fun r => SLOT_SIZE + r.size).sum ≤ PAGE_SIZE) :
    ∃ b write_end, build page_id hk right prev rs = .ok b ∧ Laid b write_end (hk.getD []) rs ∧
      rightlink b = .ok right ∧ prev_page b = .ok prev := by
  obtain ⟨t, ht, hbuilt⟩ := Builder.start_ok page_id hk (by omega)
  have hlinked := (hbuilt.put_link (by decide : 24 ≤ OFF_LEAF_RIGHTLINK) (by decide)
    (right.getD 0).toNat).put_link (by decide : 24 ≤ OFF_LEAF_PREV) (by decide) (prev.getD 0).toNat
  have hend : t.write_end = PAGE_SIZE := hbuilt.laid.used
  obtain ⟨t', hpush, hbuilt', hkeep⟩ := hlinked.push_all rs (by
    have hzero : slot_offset_at (hk.getD []).length ([] : List Rec).length =
        slot_base (hk.getD []).length := by simp [slot_offset_at]
    rw [hzero]
    dsimp only
    omega)
  have h1 := length_leBytes 8 (right.getD 0).toNat
  have h2 := length_leBytes 8 (prev.getD 0).toNat
  refine ⟨t'.data, t'.write_end, ?_, hbuilt'.laid, ?_, ?_⟩
  · unfold build Builder.set_rightlink Builder.set_prev_page Leaf.set_rightlink Leaf.set_prev_page
      Page.write_u64 mutator
    rw [ht, ok_bind, Page.write_nat_ok (by decide), ok_bind, ok_bind,
      Page.write_nat_ok (by decide), ok_bind, ok_bind, hpush, ok_bind,
      if_pos hbuilt'.laid.type]
    rfl
  · refine read_link (Page.Shows.congr ?_ fun i hi1 hi2 => hkeep i ?_ ?_) (by decide) hright
    · exact (Page.shows_put _ _ _).put (by unfold OFF_LEAF_PREV OFF_LEAF_RIGHTLINK; omega)
    · unfold OFF_LEAF_RIGHTLINK at hi1
      omega
    unfold OFF_LEAF_RIGHTLINK at hi2
    omega
  refine read_link (Page.Shows.congr (Page.shows_put _ _ _) fun i hi1 hi2 => hkeep i ?_ ?_)
    (by decide) hprev
  · unfold OFF_LEAF_PREV at hi1
    omega
  unfold OFF_LEAF_PREV at hi2
  omega

end Leaf

end FluxDB
