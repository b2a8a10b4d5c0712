-- The shape of the tree: levels of pages, the leaves first. The pages of a level form a chain by
-- their rightlinks, and a page's keys begin where its left neighbour's high key says. A downlink
-- leads to a page whose keys begin at the separator in front of it; a page without a downlink is
-- reached by the chain. Flags are no part of the shape.
import FluxDB.Lib.Chain
import FluxDB.TreeRows

namespace FluxDB.Tree

open Comparator Option Chain

/-! ## Where the keys of a page begin -/

/-- The high key of the left neighbour. The first page of a level begins nowhere. -/
def low (pages : Nat → Node) (level : List Nat) (p : Nat) : Option Bytes :=
  (Chain.prev level p).map fun q => (pages q).high_key

/-- The one bound does not lie above the other. No bound lies below every bound. -/
def LowLe (cmp : Compare) : Option Bytes → Option Bytes → Prop
  | none, _ => True
  | some _, none => False
  | some a, some b => Le cmp a b

section LowLe

variable {cmp : Compare} [Std.TransCmp cmp]

theorem LowLe.refl (b : Option Bytes) : LowLe cmp b b := by
  cases b with
  | none => trivial
  | some b => exact le_refl b

theorem LowLe.trans {a b c : Option Bytes} (h : LowLe cmp a b) (h' : LowLe cmp b c) :
    LowLe cmp a c := by
  cases a with
  | none => trivial
  | some a =>
    cases b with
    | none => exact h.elim
    | some b =>
      cases c with
      | none => exact h'.elim
      | some c => exact le_trans h h'

end LowLe

variable {p q : Nat} {level : List Nat}

theorem low_congr {pages pages' : Nat → Node}
    (h : ∀ q ∈ level, (pages' q).high_key = (pages q).high_key) (p : Nat) :
    low pages' level p = low pages level p := by
  unfold low
  cases hprev : Chain.prev level p with
  | none => rfl
  | some q =>
    rw [map_some, map_some, h q (mem_of_prev hprev).2]

theorem low_head {pages : Nat → Node} (hnodup : level.Nodup) (h : level.head? = some p) :
    low pages level p = none := by
  unfold low
  rw [prev_head hnodup h]
  rfl

theorem low_next {pages : Nat → Node} (hnodup : level.Nodup) (h : Chain.next level p = some q) :
    low pages level q = some (pages p).high_key := by
  unfold low
  rw [prev_of_next hnodup h]
  rfl

/-- A new page behind `p` takes the old high key, and `p` a new one: no other page begins
elsewhere. -/
theorem low_insertAfter {pages pages' : Nat → Node} (hnodup : level.Nodup) (hp : p ∈ level)
    (hq : q ∉ level) (hright : (pages' q).high_key = (pages p).high_key)
    (hsame : ∀ x ∈ level, x ≠ p → (pages' x).high_key = (pages x).high_key) {x : Nat}
    (hx : x ∈ level) : low pages' (Chain.insertAfter p q level) x = low pages level x := by
  unfold low
  by_cases hnext : Chain.next level p = some x
  · rw [prev_insertAfter_right hnodup hp hq hnext, prev_of_next hnodup hnext,
      map_some, map_some, hright]
  rw [prev_insertAfter_other hnodup hp hq hx hnext]
  cases hprev : Chain.prev level x with
  | none => rfl
  | some y =>
    rw [map_some, map_some, hsame y (mem_of_prev hprev).2]
    rintro rfl
    exact hnext (next_of_prev hnodup hprev)

theorem low_inserted {pages : Nat → Node} (hnodup : level.Nodup) (hp : p ∈ level) (hq : q ∉ level) :
    low pages (Chain.insertAfter p q level) q = some (pages p).high_key := by
  unfold low
  rw [prev_insertAfter_new hnodup hp hq]
  rfl

/-! ## Pages in order -/

/-- The size up to which two records fit on every leaf. -/
def HALF_LEAF : Nat := 1924

/-- A version with a short key and a record of at most half a leaf. -/
def Slight (r : Row) : Prop := ShortKey r.key ∧ r.size ≤ HALF_LEAF

instance (r : Row) : Decidable (Slight r) := inferInstanceAs (Decidable (_ ∧ _))

structure LeafOk (cmp : Compare) (low : Option Bytes) (next prev : Option Nat) (l : LeafNode)
    : Prop where
  rightlink : l.rightlink = next
  back : l.prev = prev
  top : l.high_key = [] ↔ next = none
  short : l.high_key.length ≤ 200
  sorted : Sorted cmp l.rows
  slight : ∀ r ∈ l.rows, Slight r
  below : l.high_key ≠ [] → ∀ r ∈ l.rows, Le cmp r.key l.high_key
  first : ∀ b, low = some b → ∃ r, l.rows.head? = some r ∧ cmp r.key b = .eq
  alive : l.half_dead = false

/-- Where the child with this index begins, if the page begins at `b`. -/
def start (b : Option Bytes) (keys : List Bytes) : Nat → Option Bytes
  | 0 => b
  | j + 1 => keys[j]?

theorem start_succ (b : Option Bytes) (keys : List Bytes) (j : Nat) :
    start b keys (j + 1) = keys[j]? := rfl

/-- Separators and children in order: every child begins where the separator in front of it says. -/
structure Downlinks (cmp : Compare) (pages : Nat → Node) (lower : List Nat)
    (b : Option Bytes) (keys : List Bytes) (children : List Nat) : Prop where
  arity : children.length = keys.length + 1
  sorted : keys.Pairwise (Le cmp)
  short : ∀ k ∈ keys, ShortKey k
  above : ∀ k ∈ keys, LowLe cmp b (some k)
  child : ∀ (j c : Nat), children[j]? = some c → c ∈ lower ∧
    LowLe cmp (low pages lower c) (start b keys j) ∧ LowLe cmp (start b keys j) (low pages lower c)

structure InternalOk (cmp : Compare) (pages : Nat → Node) (lower : List Nat)
    (b : Option Bytes) (next : Option Nat) (n : InternalNode) : Prop where
  links : Downlinks cmp pages lower b n.keys n.children
  rightlink : n.rightlink = next
  top : n.high_key = [] ↔ next = none
  short : n.high_key.length ≤ 200
  below : n.high_key ≠ [] → ∀ k ∈ n.keys, Le cmp k n.high_key
  wide : n.high_key ≠ [] → LowLe cmp b (some n.high_key)
  room : n.used_bytes + n.high_key.length ≤ PAGE_SIZE

structure Shape (cmp : Compare) (pages : Nat → Node) (levels : List (List Nat)) : Prop where
  nodup : ∀ (i : Nat) level, levels[i]? = some level → level.Nodup
  apart : ∀ (i j : Nat) a b p, levels[i]? = some a → levels[j]? = some b → p ∈ a → p ∈ b → i = j
  leaf : ∀ chain, levels[0]? = some chain → ∀ p ∈ chain, ∃ l, pages p = .leaf l ∧
    LeafOk cmp (low pages chain p) (Chain.next chain p) (Chain.prev chain p) l
  internal : ∀ (i : Nat) upper lower, levels[i + 1]? = some upper → levels[i]? = some lower →
    ∀ p ∈ upper, ∃ n, pages p = .internal n ∧
      InternalOk cmp pages lower (low pages upper p) (Chain.next upper p) n

/-- The page belongs to the tree. -/
def InTree (levels : List (List Nat)) (p : Nat) : Prop :=
  ∃ (i : Nat) (level : List Nat), levels[i]? = some level ∧ p ∈ level

/-! ## Changes that leave the levels as they are -/

section Same

variable {cmp : Compare} {pages pages' : Nat → Node}
  {levels : List (List Nat)}

theorem InternalOk.congr {lower lower' : List Nat} {b : Option Bytes} {next : Option Nat}
    {n : InternalNode} (h : InternalOk cmp pages lower b next n)
    (hlow : ∀ c ∈ lower, c ∈ lower' ∧ low pages' lower' c = low pages lower c) :
    InternalOk cmp pages' lower' b next n := by
  refine { h with links := { h.links with child := fun j c hc => ?_ } }
  obtain ⟨hmem, hle, hge⟩ := h.links.child j c hc
  obtain ⟨hmem', heq⟩ := hlow c hmem
  rw [heq]
  exact ⟨hmem', hle, hge⟩

theorem Shape.leafOk {chain : List Nat} {p : Nat} {l : LeafNode} (h : Shape cmp pages levels)
    (hchain : levels[0]? = some chain) (hp : p ∈ chain) (hl : pages p = .leaf l) :
    LeafOk cmp (low pages chain p) (Chain.next chain p) (Chain.prev chain p) l := by
  obtain ⟨l', hl', hok⟩ := h.leaf chain hchain p hp
  cases hl.symm.trans hl'
  exact hok

/-- Pages change, but not their high keys, and each stays in order. -/
theorem Shape.update (h : Shape cmp pages levels)
    (hhigh : ∀ p, InTree levels p → (pages' p).high_key = (pages p).high_key)
    (hleaf : ∀ chain, levels[0]? = some chain → ∀ p ∈ chain, ∀ l, pages p = .leaf l →
      LeafOk cmp (low pages chain p) (Chain.next chain p) (Chain.prev chain p) l →
      ∃ l', pages' p = .leaf l' ∧
        LeafOk cmp (low pages chain p) (Chain.next chain p) (Chain.prev chain p) l')
    (hinternal : ∀ (i : Nat) upper lower, levels[i + 1]? = some upper → levels[i]? = some lower →
      ∀ p ∈ upper, ∀ n, pages p = .internal n →
      InternalOk cmp pages lower (low pages upper p) (Chain.next upper p) n →
      ∃ n', pages' p = .internal n' ∧
        InternalOk cmp pages lower (low pages upper p) (Chain.next upper p) n') :
    Shape cmp pages' levels := by
  have hlow : ∀ (i : Nat) level, levels[i]? = some level → ∀ p,
      low pages' level p = low pages level p := fun i level hi p =>
    low_congr (fun q hq => hhigh q ⟨i, level, hi, hq⟩) p
  refine ⟨h.nodup, h.apart, fun chain hchain p hp => ?_, fun i upper lower hu hl p hp => ?_⟩
  · obtain ⟨l, hl, hok⟩ := h.leaf chain hchain p hp
    obtain ⟨l', hl', hok'⟩ := hleaf chain hchain p hp l hl hok
    rw [hlow 0 chain hchain p]
    exact ⟨l', hl', hok'⟩
  obtain ⟨n, hn, hok⟩ := h.internal i upper lower hu hl p hp
  obtain ⟨n', hn', hok'⟩ := hinternal i upper lower hu hl p hp n hn hok
  rw [hlow (i + 1) upper hu p]
  exact ⟨n', hn', hok'.congr fun c hc => ⟨hc, hlow i lower hl c⟩⟩

/-- Pages outside the tree may change. -/
theorem Shape.congr (h : Shape cmp pages levels)
    (hsame : ∀ p, InTree levels p → pages' p = pages p) : Shape cmp pages' levels := by
  refine h.update (fun p hp => by rw [hsame p hp]) (fun chain hchain p hp l hl hok => ?_)
    fun i upper lower hu _ p hp n hn hok => ?_
  · rw [hsame p ⟨0, chain, hchain, hp⟩]
    exact ⟨l, hl, hok⟩
  rw [hsame p ⟨i + 1, upper, hu, hp⟩]
  exact ⟨n, hn, hok⟩

variable {i : Nat}

/-- Below every level but that of the leaves there is another. -/
theorem exists_lower {upper : List Nat} (h : levels[i + 1]? = some upper) :
    ∃ lower, levels[i]? = some lower := by
  have hlt := Maps.lt_of_getElem? h
  exact ⟨_, List.getElem?_eq_getElem (by omega)⟩

section

variable (h : Shape cmp pages levels)

include h

theorem Shape.links (hi : levels[i]? = some level) (hp : p ∈ level) :
    (pages p).rightlink = Chain.next level p ∧ ((pages p).high_key = [] ↔ Chain.next level p = none)
      ∧ (pages p).high_key.length ≤ 200 := by
  cases i with
  | zero =>
    obtain ⟨l, hl, hok⟩ := h.leaf level hi p hp
    rw [hl]
    exact ⟨hok.rightlink, hok.top, hok.short⟩
  | succ i =>
    obtain ⟨lower, hlower⟩ := exists_lower hi
    obtain ⟨n, hn, hok⟩ := h.internal i level lower hi hlower p hp
    rw [hn]
    exact ⟨hok.rightlink, hok.top, hok.short⟩

theorem Shape.put_leaf {chain : List Nat} (hchain : levels[0]? = some chain) (hp : p ∈ chain)
    {l l' : LeafNode} (hl : pages p = .leaf l) (hhigh : l'.high_key = l.high_key)
    (hok : LeafOk cmp (low pages chain p) (Chain.next chain p) (Chain.prev chain p) l') :
    Shape cmp (fun q => if q = p then .leaf l' else pages q) levels := by
  refine h.update (fun q _ => ?_) (fun chain' hchain' q hq l₀ hl₀ hok₀ => ?_)
    fun i upper lower hu _ q hq n hn hok₀ => ?_
  · split
    · next heq =>
      rw [heq, hl]
      exact hhigh
    · rfl
  · rw [hchain] at hchain'
    cases hchain'
    split
    · next heq =>
      subst heq
      exact ⟨l', rfl, hok⟩
    · exact ⟨l₀, hl₀, hok₀⟩
  have hne : q ≠ p := by
    rintro rfl
    rw [hl] at hn
    cases hn
  rw [if_neg hne]
  exact ⟨n, hn, hok₀⟩

theorem Shape.put_internal {upper lower : List Nat} (hupper : levels[i + 1]? = some upper)
    (hlower : levels[i]? = some lower) (hp : p ∈ upper) {n n' : InternalNode}
    (hn : pages p = .internal n) (hhigh : n'.high_key = n.high_key)
    (hok : InternalOk cmp pages lower (low pages upper p) (Chain.next upper p) n') :
    Shape cmp (fun q => if q = p then .internal n' else pages q) levels := by
  refine h.update (fun q _ => ?_) (fun chain hchain q hq l₀ hl₀ hok₀ => ?_)
    fun j upper' lower' hu hl q hq n₀ hn₀ hok₀ => ?_
  · split
    · next heq =>
      rw [heq, hn]
      exact hhigh
    · rfl
  · have hne : q ≠ p := by
      rintro rfl
      rw [hn] at hl₀
      cases hl₀
    rw [if_neg hne]
    exact ⟨l₀, hl₀, hok₀⟩
  split
  · next heq =>
    subst heq
    cases h.apart (j + 1) (i + 1) upper' upper q hu hupper hq hp
    rw [hupper] at hu
    rw [hlower] at hl
    cases hu
    cases hl
    exact ⟨n', rfl, hok⟩
  · exact ⟨n₀, hn₀, hok₀⟩

theorem Shape.flags (hflags : ∀ p, InTree levels p → (∀ l, pages p = .leaf l → ∃ b, pages' p = .leaf
    { l with incomplete_split := b }) ∧
      ∀ n, pages p = .internal n → ∃ b, pages' p = .internal { n with incomplete_split := b }) :
    Shape cmp pages' levels := by
  refine h.update (fun p hp => ?_) (fun chain hchain p hp l hl hok => ?_)
    fun i upper lower hu _ p hp n hn hok => ?_
  · obtain ⟨i, level, hi, hmem⟩ := hp
    have hpage := hflags p ⟨i, level, hi, hmem⟩
    cases i with
    | zero =>
      obtain ⟨l, hl, -⟩ := h.leaf level hi p hmem
      obtain ⟨b, hb⟩ := hpage.1 l hl
      rw [hl, hb]
      rfl
    | succ i =>
      obtain ⟨lower, hlower⟩ := exists_lower hi
      obtain ⟨n, hn, -⟩ := h.internal i level lower hi hlower p hmem
      obtain ⟨b, hb⟩ := hpage.2 n hn
      rw [hn, hb]
      rfl
  · obtain ⟨b, hb⟩ := (hflags p ⟨0, chain, hchain, hp⟩).1 l hl
    exact ⟨_, hb, { hok with }⟩
  obtain ⟨b, hb⟩ := (hflags p ⟨i + 1, upper, hu, hp⟩).2 n hn
  exact ⟨_, hb, { hok with }⟩

end

end Same

end FluxDB.Tree
