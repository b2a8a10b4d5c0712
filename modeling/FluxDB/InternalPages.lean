-- Internal pages, read and built. The children, the ends of the keys and the key data stand one
-- behind the other; the high key stands at the end of the page. The builder writes them all, and
-- only the end of the page stops it.
import FluxDB.Lib.Search
import FluxDB.LeafPages

namespace FluxDB

open Bytes List Except Maps

/-! ## Rows of numbers -/

variable {i : Nat}

namespace Page

theorem put_put (b : Page) (off : Nat) (xs ys : Bytes) :
    (b.put off xs).put (off + xs.length) ys = b.put off (xs ++ ys) := by
  funext i
  simp only [put_apply, length_append]
  by_cases h1 : i < off
  · rw [if_neg (by omega), if_neg (by omega), if_neg (by omega)]
  by_cases h2 : i < off + xs.length
  · rw [if_neg (by omega), if_pos (by omega), if_pos (by omega)]
    congr 1
    rw [getElem?_append_left (by omega)]
  by_cases h3 : i < off + xs.length + ys.length
  · rw [if_pos (by omega), if_pos (by omega), getElem?_append_right (by omega)]
    congr 2
    omega
  · rw [if_neg (by omega), if_neg (by omega), if_neg (by omega)]

variable {b : Page} {off : Nat}

theorem shows_iff {bs : Bytes} :
    b.Shows off bs ↔ ∀ (i : Nat) x, bs[i]? = some x → b (off + i) = x := by
  unfold Shows slice
  constructor
  · intro h i x hi
    have hlt := lt_of_getElem? hi
    rw [← h, getElem?_map, getElem?_range hlt] at hi
    exact Option.some.inj hi
  intro h
  apply ext_getElem?
  intro i
  rw [getElem?_map]
  cases hi : bs[i]? with
  | none =>
    rw [getElem?_eq_none (by rw [length_range]; exact getElem?_eq_none_iff.mp hi)]
    rfl
  | some x =>
    rw [getElem?_range (lt_of_getElem? hi), Option.map_some, h i x hi]

theorem Shows.part {xs ys zs : Bytes} (h : b.Shows off (xs ++ ys ++ zs)) :
    b.Shows (off + xs.length) ys := by
  rw [shows_iff] at h ⊢
  intro i x hi
  have hlt := lt_of_getElem? hi
  rw [Nat.add_assoc]
  apply h
  rw [append_assoc, getElem?_append_right (by omega), Nat.add_sub_cancel_left,
    getElem?_append_left hlt, hi]

/-- Numbers of `n` bytes, one behind the other. -/
def row (n : Nat) (vs : List Nat) : Bytes := vs.flatMap (leBytes n)

theorem length_row (n : Nat) (vs : List Nat) : (row n vs).length = vs.length * n := by
  unfold row
  induction vs with
  | nil => simp
  | cons v vs ih =>
    rw [flatMap_cons, length_append, ih, length_leBytes, length_cons, Nat.succ_mul, Nat.add_comm]

/-- A loop that writes them writes the row. -/
theorem write_row {n : Nat} {base : Nat → Nat} (hbase : ∀ i, base i = base 0 + i * n)
    (vs : List Nat) (b : Page) {k : Nat} (hfit : base (k + vs.length) ≤ PAGE_SIZE) :
    (vs.zipIdx k).foldlM (fun b c => Page.write_bytes b (base c.2) (leBytes n c.1)) b =
      .ok (b.put (base k) (row n vs)) := by
  induction vs generalizing b k with
  | nil => exact congrArg Except.ok (put_nil b _).symm
  | cons v vs ih =>
    have hstep := hbase (k + 1)
    have hk := hbase k
    have hall := hbase (k + (v :: vs).length)
    rw [length_cons] at hfit hall
    rw [Nat.add_mul, Nat.add_mul] at hall
    rw [Nat.add_mul] at hstep
    rw [zipIdx_cons, foldlM_cons]
    dsimp only
    rw [write_bytes_ok (by rw [length_leBytes]; omega), ok_bind,
      ih _ (by rwa [Nat.add_assoc, Nat.add_comm 1]), row, row, flatMap_cons,
      ← put_put, length_leBytes]
    congr 2
    omega

theorem Shows.number {n : Nat} {vs : List Nat} (h : b.Shows off (row n vs)) {v : Nat}
    (hi : vs[i]? = some v) : b.Shows (off + i * n) (leBytes n v) := by
  obtain ⟨hlt, rfl⟩ := List.getElem?_eq_some_iff.mp hi
  have hsplit : row n vs = row n (vs.take i) ++ leBytes n vs[i] ++ row n (vs.drop (i + 1)) := by
    unfold row
    conv_lhs => rw [← take_append_drop i vs, drop_eq_getElem_cons hlt]
    rw [flatMap_append, flatMap_cons, append_assoc]
  rw [hsplit] at h
  have hpart := h.part
  rw [length_row, length_take_of_le hlt.le] at hpart
  exact hpart

end Page

/-! ## The accessor -/

namespace Internal

def OFF_INT_RIGHTLINK : Nat := 24

def num_keys (b : Page) : Except PageFault Nat := b.read_u16 OFF_INT_NUM_KEYS

def high_key_len (b : Page) : Except PageFault Nat := b.read_u16 OFF_INT_HIGH_KEY_LEN

/-- The bytes of the high key, at the end of the page; none stand for the key above all others. -/
def stored_high_key (b : Page) : Except PageFault Bytes := do
  let len ← high_key_len b
  b.read_bytes (PAGE_SIZE - len) len

def high_key_bytes (b : Page) : Except PageFault (Option Bytes) := do
  let hk ← stored_high_key b
  .ok (if hk = [] then none else some hk)

def rightlink (b : Page) : Except PageFault (Option UInt64) := do
  let v ← b.read_u64 OFF_INT_RIGHTLINK
  .ok (Payload.link v)

def child_page_at (b : Page) (i : Nat) : Except PageFault Nat := b.read_u64 (int_child_offset i)

/-- The child to descend into: the one in front of the first separator above the key. -/
def find_child (cmp : Compare) (b : Page) (search_key : Bytes) :
    Except PageFault (Nat × Nat) := do
  let n ← num_keys b
  let low ← Search.bisectM (fun i => do
    let key ← key_bytes b n i
    .ok (cmp key search_key == .gt)) n 0 n
  let child ← child_page_at b low
  .ok (low, child)

/-! ## The builder -/

structure Builder where
  data : Page
  keys : List Bytes
  children : List Nat

namespace Builder

def new (page_id : UInt64) : Builder :=
  ⟨(Page.zero.put OFF_PAGE_TYPE [INTERNAL]).put OFF_PAGE_ID (leBytes 8 page_id.toNat), [], []⟩

def push_first_child (t : Builder) (child : Nat) : Except PageFault Builder :=
  if t.children = [] then .ok { t with children := [child] } else .error .panic

def push_key_and_right_child (t : Builder) (key : Bytes) (right_child : Nat) :
    Except PageFault Builder :=
  if t.children = [] then .error .panic
  else .ok { t with keys := t.keys ++ [key], children := t.children ++ [right_child] }

/-- The loop over the keys of a half and the children right of them. -/
def push_all (t : Builder) (pairs : List (Bytes × Nat)) : Except PageFault Builder :=
  pairs.foldlM (fun t p => t.push_key_and_right_child p.1 p.2) t

def set_rightlink (t : Builder) (right : Option UInt64) : Except PageFault Builder := do
  let data ← t.data.write_u64 OFF_INT_RIGHTLINK (right.getD 0).toNat
  .ok { t with data }

def write_high_key (b : Page) (key : Bytes) : Except PageFault Page :=
  if 0 < key.length then b.write_bytes (PAGE_SIZE - key.length) key else .ok b

def set_high_key (t : Builder) (key : Bytes) : Except PageFault Builder := do
  let data ← t.data.write_u16 OFF_INT_HIGH_KEY_LEN key.length
  let data ← write_high_key data key
  .ok { t with data }

/-- Nothing compares the end of the key data with the high key. -/
def finish (t : Builder) : Except PageFault Page := do
  let data ← rewrite t.data t.children t.keys
  mutator data
  .ok data

end Builder

/-! ## What is written is read -/

/-- The page holds the children and the keys. -/
structure Laid (b : Page) (children : List Nat) (keys : List Bytes) : Prop where
  type : b OFF_PAGE_TYPE = INTERNAL
  arity : children.length = keys.length + 1
  count : b.Shows OFF_INT_NUM_KEYS (leBytes 2 keys.length)
  children : b.Shows (int_child_offset 0) (Page.row 8 children)
  ends : b.Shows (int_key_end_offset keys.length 0) (Page.row 4 (key_ends keys))
  data : b.Shows (int_key_data_base keys.length) keys.flatten
  room : int_key_data_base keys.length + keys.flatten.length ≤ PAGE_SIZE

theorem length_key_ends (keys : List Bytes) : (key_ends keys).length = keys.length := by
  unfold key_ends
  rw [length_map, length_range]

theorem key_ends_eq {keys : List Bytes} (hi : i < keys.length) :
    (key_ends keys)[i]? = some (keys.take (i + 1)).flatten.length := by
  unfold key_ends
  rw [getElem?_map, getElem?_range hi, Option.map_some, length_flatten]

section Laid

variable {b b' : Page} {children : List Nat} {keys : List Bytes} (h : Laid b children keys)

include h

/-- Links, flags, the high key and the LSN are not part of the layout. -/
theorem Laid.congr (heq : ∀ i, i = 0 ∨ 2 ≤ i ∧ i < 4 ∨
      40 ≤ i ∧ i < int_key_data_base keys.length + keys.flatten.length → b' i = b i) :
    Laid b' children keys := by
  have h8 := Page.length_row 8 children
  have h4 := Page.length_row 4 (key_ends keys)
  rw [length_key_ends] at h4
  rw [h.arity] at h8
  unfold int_key_data_base int_key_end_section INT_HEADER_SIZE at heq
  refine ⟨(heq 0 (.inl rfl)).trans h.type, h.arity, h.count.congr fun i h1 h2 => heq i ?_,
    h.children.congr fun i h1 h2 => heq i ?_, h.ends.congr fun i h1 h2 => heq i ?_,
    h.data.congr fun i h1 h2 => heq i ?_, h.room⟩
  · rw [length_leBytes] at h2
    unfold OFF_INT_NUM_KEYS at h1 h2
    omega
  · unfold int_child_offset INT_HEADER_SIZE at h1 h2
    omega
  · unfold int_key_end_offset int_key_end_section INT_HEADER_SIZE at h1 h2
    omega
  unfold int_key_data_base int_key_end_section INT_HEADER_SIZE at h1 h2
  omega

theorem Laid.length_lt : keys.length < 400 := by
  have hroom := h.room
  unfold int_key_data_base int_key_end_section INT_HEADER_SIZE PAGE_SIZE at hroom
  omega

theorem Laid.num_keys : num_keys b = .ok keys.length := by
  have hlt := h.length_lt
  exact h.count.read_nat (by decide) (by omega)

theorem Laid.read_end (hi : i < keys.length) :
    b.read_u32 (int_key_end_offset keys.length i) = .ok (keys.take (i + 1)).flatten.length := by
  have hnumber := h.ends.number (key_ends_eq hi)
  have hoff : int_key_end_offset keys.length 0 + i * 4 = int_key_end_offset keys.length i := by
    unfold int_key_end_offset
    omega
  rw [hoff] at hnumber
  have hroom := h.room
  have hle : (keys.take (i + 1)).flatten.length ≤ keys.flatten.length := by
    conv_rhs => rw [← take_append_drop (i + 1) keys, flatten_append, length_append]
    omega
  unfold int_key_data_base PAGE_SIZE at hroom
  refine hnumber.read_nat ?_ (by omega)
  unfold int_key_end_offset PAGE_SIZE
  omega

theorem Laid.key_start (hi : i ≤ keys.length) :
    key_start b keys.length i = .ok (keys.take i).flatten.length := by
  unfold Internal.key_start
  cases i with
  | zero => rfl
  | succ i =>
    rw [if_neg (by omega), Nat.add_sub_cancel]
    exact h.read_end hi

theorem Laid.key_bytes {k : Bytes} (hk : keys[i]? = some k) :
    key_bytes b keys.length i = .ok k := by
  obtain ⟨hi, rfl⟩ := List.getElem?_eq_some_iff.mp hk
  have hlen : (keys.take (i + 1)).flatten.length =
      (keys.take i).flatten.length + keys[i].length := by
    rw [take_succ_eq_append_getElem hi, flatten_append, length_append, flatten_singleton]
  have hsplit : keys.flatten = (keys.take i).flatten ++ keys[i] ++ (keys.drop (i + 1)).flatten := by
    conv_lhs => rw [← take_append_drop i keys, drop_eq_getElem_cons hi]
    rw [flatten_append, flatten_cons, append_assoc]
  have hdata := h.data
  have hroom := h.room
  rw [hsplit] at hdata
  have hend := congrArg List.length hsplit
  rw [length_append, length_append] at hend
  unfold Internal.key_bytes
  rw [h.key_start hi.le, ok_bind, h.read_end hi, ok_bind, hlen,
    if_neg (by omega), Nat.add_sub_cancel_left]
  exact hdata.part.read_bytes (by omega)

theorem Laid.child_page_at {c : Nat} (hc : children[i]? = some c)
    (hlt : c < 2 ^ 64) : child_page_at b i = .ok c := by
  have hnumber := h.children.number hc
  have hi := lt_of_getElem? hc
  have hoff : int_child_offset 0 + i * 8 = int_child_offset i := by
    unfold int_child_offset
    omega
  rw [hoff] at hnumber
  have hroom := h.room
  rw [h.arity] at hi
  unfold int_key_data_base int_key_end_section PAGE_SIZE at hroom
  refine hnumber.read_nat ?_ hlt
  unfold int_child_offset PAGE_SIZE
  omega

/-- The accessor reads the children and the keys back. -/
theorem Laid.snapshot (hlt : ∀ c ∈ children, c < 2 ^ 64) : snapshot b = .ok (children, keys) := by
  have hcount : b.read_u16 OFF_INT_NUM_KEYS = .ok keys.length := h.num_keys
  have hchildren : (List.range children.length).mapM (Internal.child_page_at b) = .ok children :=
    mapM_range fun i c hc => h.child_page_at hc (hlt c (mem_of_getElem? hc))
  have hkeys : (List.range keys.length).mapM (Internal.key_bytes b keys.length) = .ok keys :=
    mapM_range fun i k hk => h.key_bytes hk
  unfold Internal.child_page_at at hchildren
  unfold Internal.snapshot
  rw [hcount, ok_bind, ← h.arity, hchildren, ok_bind, hkeys, ok_bind]

end Laid

/-! ## Building -/

section Building

variable {b b' : Page} {children : List Nat} {keys : List Bytes} {hk : Bytes}

/-- The children, the ends and the key data are written if they end inside the page. -/
theorem rewrite_ok (b : Page) (harity : children.length = keys.length + 1)
    (hroom : int_key_data_base keys.length + keys.flatten.length ≤ PAGE_SIZE) :
    ∃ b', rewrite b children keys = .ok b' ∧ (b OFF_PAGE_TYPE = INTERNAL → Laid b' children keys) ∧
      ∀ i, i < 2 ∨ 4 ≤ i ∧ i < 40 ∨ int_key_data_base keys.length + keys.flatten.length ≤ i →
        b' i = b i := by
  have h2 := length_leBytes 2 keys.length
  have h8 := Page.length_row 8 children
  have h4 := Page.length_row 4 (key_ends keys)
  rw [length_key_ends] at h4
  rw [harity] at h8
  have hchild : ∀ i, int_child_offset i = int_child_offset 0 + i * 8 := by
    intro i
    unfold int_child_offset
    omega
  have hend : ∀ i, int_key_end_offset keys.length i = int_key_end_offset keys.length 0 + i * 4 := by
    intro i
    unfold int_key_end_offset
    omega
  unfold rewrite Page.write_u16 Page.write_u64 Page.write_u32
  dsimp only
  rw [Page.write_bytes_ok (by rw [h2]; decide), ok_bind, Page.write_row hchild _ _ (by
      unfold int_key_data_base int_key_end_section at hroom
      unfold int_child_offset
      omega), ok_bind,
    Page.write_row hend _ _ (by
      unfold int_key_data_base at hroom
      unfold int_key_end_offset
      rw [length_key_ends]
      omega), ok_bind, Page.write_bytes_ok hroom]
  have hoff8 : int_child_offset 0 = 40 := rfl
  have hoff4 : int_key_end_offset keys.length 0 = 40 + (keys.length + 1) * 8 := rfl
  have hbase : int_key_data_base keys.length = 40 + (keys.length + 1) * 8 + keys.length * 4 := rfl
  unfold OFF_INT_NUM_KEYS
  refine ⟨_, rfl, fun htype => ⟨?_, harity, ?_, ?_, ?_, Page.shows_put _ _ _, hroom⟩, ?_⟩
  · unfold OFF_PAGE_TYPE at htype ⊢
    simp (disch := omega) only [Page.put_outside, htype]
  · unfold OFF_INT_NUM_KEYS
    exact (((Page.shows_put _ _ _).put (by omega)).put (by omega)).put (by omega)
  · exact ((Page.shows_put _ _ _).put (by omega)).put (by omega)
  · exact (Page.shows_put _ _ _).put (by omega)
  intro i hi
  simp (disch := omega) only [Page.put_outside]

/-- The only check: the key data ends inside the page. -/
theorem rewrite_room (h : rewrite b children keys = .ok b') :
    int_key_data_base keys.length + keys.flatten.length ≤ PAGE_SIZE := by
  unfold rewrite at h
  obtain ⟨b₁, -, h⟩ := bind_eq_ok.mp h
  obtain ⟨b₂, -, h⟩ := bind_eq_ok.mp h
  obtain ⟨b₃, -, h⟩ := bind_eq_ok.mp h
  unfold Page.write_bytes at h
  split at h
  · assumption
  · cases h

/-- The page is an internal page with this high key. -/
structure Headed (b : Page) (hk : Bytes) : Prop where
  type : b OFF_PAGE_TYPE = INTERNAL
  len : b.Shows OFF_INT_HIGH_KEY_LEN (leBytes 2 hk.length)
  high_key : b.Shows (PAGE_SIZE - hk.length) hk
  size : hk.length + 40 ≤ PAGE_SIZE

/-- The page has this rightlink. -/
def Linked (b : Page) (right : Option UInt64) : Prop :=
  b.Shows OFF_INT_RIGHTLINK (leBytes 8 (right.getD 0).toNat)

theorem Linked.rightlink {right : Option UInt64} (h : Linked b right) (hne : right ≠ some 0) :
    rightlink b = .ok right := Leaf.read_link h (by decide) hne

theorem Linked.congr {right : Option UInt64} (h : Linked b right)
    (heq : ∀ i, 24 ≤ i → i < 32 → b' i = b i) : Linked b' right := by
  refine Page.Shows.congr h fun i h1 h2 => heq i h1 ?_
  rw [length_leBytes] at h2
  exact h2

theorem Headed.stored_high_key (h : Headed b hk) : stored_high_key b = .ok hk := by
  have hsize := h.size
  unfold PAGE_SIZE at hsize
  unfold Internal.stored_high_key Internal.high_key_len Page.read_u16
  rw [h.len.read_nat (by decide) (by omega), ok_bind]
  exact h.high_key.read_bytes (by have := h.size; omega)

theorem Headed.congr (h : Headed b hk)
    (heq : ∀ i, i = 0 ∨ 4 ≤ i ∧ i < 6 ∨ PAGE_SIZE - hk.length ≤ i → b' i = b i) :
    Headed b' hk := by
  refine ⟨(heq 0 (.inl rfl)).trans h.type, h.len.congr fun i h1 h2 => heq i ?_,
    h.high_key.congr fun i h1 _ => heq i (.inr (.inr h1)), h.size⟩
  rw [length_leBytes] at h2
  unfold OFF_INT_HIGH_KEY_LEN at h1 h2
  omega

namespace Builder

variable {t : Builder}

theorem headed_new (page_id : UInt64) : Headed (new page_id).data [] := by
  refine ⟨?_, ?_, rfl, by decide⟩
  · simp [new, Page.put, OFF_PAGE_TYPE, OFF_PAGE_ID]
  have hid := length_leBytes 8 page_id.toNat
  have hzero := length_leBytes 2 0
  have hblank : Page.zero.Shows 4 (leBytes 2 0) := rfl
  unfold new OFF_PAGE_TYPE OFF_PAGE_ID OFF_INT_HIGH_KEY_LEN
  exact (hblank.put (by rw [length_singleton]; omega)).put (by omega)

theorem set_rightlink_ok (h : Headed t.data hk) (right : Option UInt64) :
    ∃ data, t.set_rightlink right = .ok { t with data } ∧ Headed data hk ∧ Linked data right := by
  have hsize := h.size
  unfold set_rightlink Page.write_u64
  rw [Page.write_nat_ok (by decide), ok_bind]
  refine ⟨_, rfl, h.congr fun i hi => Page.put_outside ?_, Page.shows_put _ _ _⟩
  rw [length_leBytes]
  unfold OFF_INT_RIGHTLINK
  omega

theorem set_high_key_ok (h : Headed t.data []) (hsize : hk.length + 40 ≤ PAGE_SIZE) :
    ∃ data, t.set_high_key hk = .ok { t with data } ∧ Headed data hk ∧
      ∀ i, 6 ≤ i → i < 40 → data i = t.data i := by
  have hlen := length_leBytes 2 hk.length
  have htype := h.type
  have hwrite : ∀ b : Page, write_high_key b hk = .ok (b.put (PAGE_SIZE - hk.length) hk) := by
    intro b
    unfold write_high_key
    split
    · exact Page.write_bytes_ok (by omega)
    · next hnil =>
      rw [eq_nil_of_length_eq_zero (Nat.eq_zero_of_not_pos hnil), Page.put_nil]
  unfold set_high_key Page.write_u16
  rw [Page.write_nat_ok (by decide), ok_bind, hwrite, ok_bind]
  unfold OFF_INT_HIGH_KEY_LEN
  refine ⟨_, rfl, ⟨?_, ?_, Page.shows_put _ _ _, hsize⟩, fun i h1 h2 => ?_⟩
  · unfold OFF_PAGE_TYPE at htype ⊢
    simp (disch := omega) only [Page.put_outside, htype]
  · exact (Page.shows_put _ _ _).put (by omega)
  · simp (disch := omega) only [Page.put_outside]

theorem push_all_ok (hne : t.children ≠ []) (pairs : List (Bytes × Nat)) :
    t.push_all pairs = .ok { t with keys := t.keys ++ pairs.map Prod.fst,
                                    children := t.children ++ pairs.map Prod.snd } := by
  unfold push_all
  induction pairs generalizing t with
  | nil => simp [pure, Except.pure]
  | cons p pairs ih =>
    rw [foldlM_cons, push_key_and_right_child, if_neg hne, ok_bind, ih (by simp)]
    simp

/-- The page is sealed if the key data ends inside it. What stands behind the key data stays. -/
theorem finish_eq (h : Headed t.data hk) (harity : t.children.length = t.keys.length + 1)
    (hroom : int_key_data_base t.keys.length + t.keys.flatten.length ≤ PAGE_SIZE) :
    ∃ b, t.finish = .ok b ∧ Laid b t.children t.keys ∧
      ∀ i, 4 ≤ i ∧ i < 40 ∨ int_key_data_base t.keys.length + t.keys.flatten.length ≤ i →
        b i = t.data i := by
  obtain ⟨b, hrewrite, hlaid, hkeep⟩ := rewrite_ok t.data harity hroom
  have hlaid := hlaid h.type
  refine ⟨b, ?_, hlaid, fun i hi => hkeep i (.inr hi)⟩
  unfold finish mutator
  rw [hrewrite, ok_bind, if_pos hlaid.type]
  rfl

/-- The high key is still there if the key data ends in front of it. -/
theorem finish_ok (h : Headed t.data hk) (harity : t.children.length = t.keys.length + 1)
    (hroom : int_key_data_base t.keys.length + t.keys.flatten.length ≤ PAGE_SIZE) :
    ∃ b, t.finish = .ok b ∧ Laid b t.children t.keys ∧
      (int_key_data_base t.keys.length + t.keys.flatten.length + hk.length ≤ PAGE_SIZE →
        Headed b hk) := by
  obtain ⟨b, hb, hlaid, hkeep⟩ := finish_eq h harity hroom
  refine ⟨b, hb, hlaid, fun hfit => h.congr fun i hi => ?_⟩
  rcases hi with rfl | hi
  · exact hlaid.type.trans h.type.symm
  · exact hkeep i (by omega)

theorem finish_room (h : t.finish = .ok b) :
    int_key_data_base t.keys.length + t.keys.flatten.length ≤ PAGE_SIZE := by
  unfold finish at h
  obtain ⟨b', h, -⟩ := bind_eq_ok.mp h
  exact rewrite_room h

end Builder

end Building

end Internal

end FluxDB
