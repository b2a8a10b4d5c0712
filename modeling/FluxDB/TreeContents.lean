-- The versions of the index, leaf after leaf along the chain. The ranges of the leaves follow each
-- other, so this list is sorted by key, and all versions of a key lie on the leaf whose range
-- holds it and on the leaves to its left that end in that key.
import FluxDB.TreeGrowth

namespace FluxDB.Tree

open Comparator List Chain

/-- The versions on a page. -/
def Node.rows : Node → List Row
  | leaf l => l.rows
  | _ => []

def contents (pages : Nat → Node) (chain : List Nat) : List Row :=
  chain.flatMap fun p => (pages p).rows

variable {p : Nat} {r : Row}

theorem mem_contents {pages : Nat → Node} {chain : List Nat} :
    r ∈ contents pages chain ↔ ∃ p ∈ chain, r ∈ (pages p).rows := mem_flatMap

theorem contents_append (pages : Nat → Node) (l₁ l₂ : List Nat) :
    contents pages (l₁ ++ l₂) = contents pages l₁ ++ contents pages l₂ := flatMap_append

theorem contents_cons {pages : Nat → Node} {l : LeafNode} (hl : pages p = .leaf l)
    (ps : List Nat) : contents pages (p :: ps) = l.rows ++ contents pages ps := by
  unfold contents
  rw [flatMap_cons, hl]
  rfl

theorem contents_congr {pages pages' : Nat → Node} {chain : List Nat}
    (h : ∀ p ∈ chain, (pages' p).rows = (pages p).rows) :
    contents pages' chain = contents pages chain := by
  unfold contents
  exact flatMap_congr h

/-- One leaf with what is in front of it and behind it. -/
theorem contents_around {chain : List Nat} (hnodup : chain.Nodup) (hp : p ∈ chain)
    (pages : Nat → Node) : ∃ front back, contents pages chain = front ++ (pages p).rows ++ back ∧
      ∀ pages' : Nat → Node, (∀ q ∈ chain, q ≠ p → (pages' q).rows = (pages q).rows) →
        contents pages' chain = front ++ (pages' p).rows ++ back := by
  obtain ⟨l₁, l₂, rfl, h₁, h₂, -⟩ := exists_around hnodup hp
  have hsplit : ∀ pages : Nat → Node, contents pages (l₁ ++ p :: l₂) =
      contents pages l₁ ++ (pages p).rows ++ contents pages l₂ := by
    intro pages
    rw [contents_append, append_assoc]
    rfl
  refine ⟨contents pages l₁, contents pages l₂, hsplit pages, fun pages' hsame => ?_⟩
  have hfront : contents pages' l₁ = contents pages l₁ := contents_congr fun q hq =>
    hsame q (mem_append_left _ hq) fun heq => h₁ (heq ▸ hq)
  have hback : contents pages' l₂ = contents pages l₂ := contents_congr fun q hq =>
    hsame q (mem_append_right _ (mem_cons_of_mem _ hq)) fun heq => h₂ (heq ▸ hq)
  rw [hsplit pages', hfront, hback]

/-! ## Ranges follow each other -/

section Order

variable {cmp : Compare} [Std.TransCmp cmp] {pages : Nat → Node}
  {levels : List (List Nat)} {chain : List Nat} {key : Bytes}

variable {q : Nat} {l₁ l₂ : List Nat}

theorem Shape.low_le_next (h : Shape cmp pages levels) {i : Nat} {level : List Nat}
    (hi : levels[i]? = some level) (hnext : Chain.next level p = some q) :
    LowLe cmp (low pages level p) (low pages level q) := by
  rw [low_next (h.nodup i level hi) hnext]
  have hp := (mem_of_next hnext).1
  cases i with
  | zero =>
    obtain ⟨l, hl, hok⟩ := h.leaf level hi p hp
    rw [hl]
    cases hb : low pages level p with
    | none => trivial
    | some b =>
      obtain ⟨r, hhead, heq⟩ := hok.first b hb
      have hhk : l.high_key ≠ [] := fun hnil => by
        rw [hok.top.mp hnil] at hnext
        cases hnext
      exact le_trans (le_of_eq (eq_symm heq)) (hok.below hhk r (mem_of_mem_head? hhead))
  | succ i =>
    obtain ⟨lower, hlower⟩ := exists_lower hi
    obtain ⟨n, hn, hok⟩ := h.internal i level lower hi hlower p hp
    rw [hn]
    apply hok.wide
    intro hnil
    rw [hok.top.mp hnil] at hnext
    cases hnext

/-- A page further right begins at or above the high key. -/
theorem Shape.high_le_low (h : Shape cmp pages levels) {i : Nat} {level : List Nat}
    (hi : levels[i]? = some level) (hlevel : level = l₁ ++ p :: l₂) (hq : q ∈ l₂) :
    LowLe cmp (some (pages p).high_key) (low pages level q) := by
  have hnodup := h.nodup i level hi
  induction l₂ generalizing l₁ p with
  | nil => cases hq
  | cons x l₂ ih =>
    rw [← low_next hnodup (next_around hnodup hlevel)]
    rcases mem_cons.mp hq with rfl | hq
    · exact LowLe.refl _
    have hlevel' : level = (l₁ ++ [p]) ++ x :: l₂ := by
      rw [hlevel]
      simp
    refine LowLe.trans ?_ (ih hlevel' hq)
    obtain ⟨y, rest, rfl⟩ := exists_cons_of_ne_nil (ne_nil_of_mem hq)
    have hy := next_around hnodup hlevel'
    have hle := h.low_le_next hi hy
    rwa [low_next hnodup hy] at hle

theorem LeafOk.above {b : Option Bytes} {next prev : Option Nat} {l : LeafNode}
    (h : LeafOk cmp b next prev l) (hr : r ∈ l.rows) : LowLe cmp b (some r.key) := by
  cases b with
  | none => trivial
  | some b =>
    obtain ⟨first, hhead, heq⟩ := h.first b rfl
    refine le_trans (le_of_eq (eq_symm heq)) ?_
    obtain ⟨rest, hrows⟩ : ∃ rest, l.rows = first :: rest := head?_eq_some_iff.mp hhead
    have hsorted := h.sorted
    unfold Sorted at hsorted
    rw [hrows] at hr hsorted
    rcases mem_cons.mp hr with rfl | hr
    · exact le_refl _
    · exact (pairwise_cons.mp hsorted).1 r hr

/-- The high key of a leaf bounds every leaf further right from below. -/
theorem Shape.high_le (h : Shape cmp pages levels) (hchain : levels[0]? = some chain)
    (heq : chain = l₁ ++ p :: l₂) (hr : r ∈ contents pages l₂) :
    Le cmp (pages p).high_key r.key := by
  obtain ⟨q, hq, hr⟩ := mem_contents.mp hr
  have hmem : q ∈ chain := by
    rw [heq]
    exact mem_append_right _ (mem_cons_of_mem _ hq)
  obtain ⟨l, hl, hok⟩ := h.leaf chain hchain q hmem
  rw [hl] at hr
  exact (h.high_le_low hchain heq hq).trans (hok.above hr)

omit [Std.TransCmp cmp] in
theorem LeafOk.high_ne_nil {b : Option Bytes} {prev : Option Nat} {l : LeafNode}
    (h : LeafOk cmp b (some q) prev l) : l.high_key ≠ [] := fun hnil => by
  cases h.top.mp hnil

/-- And every leaf further left from above. -/
theorem Shape.le_low (h : Shape cmp pages levels) (hchain : levels[0]? = some chain)
    (heq : chain = l₁ ++ p :: l₂) (hr : r ∈ contents pages l₁) :
    LowLe cmp (some r.key) (low pages chain p) := by
  obtain ⟨q, hq, hrow⟩ := mem_contents.mp hr
  obtain ⟨m₁, m₂, rfl⟩ := append_of_mem hq
  have hsplit : chain = m₁ ++ q :: (m₂ ++ p :: l₂) := by
    rw [heq]
    simp
  obtain ⟨x, hx⟩ : ∃ x, Chain.next chain q = some x := by
    rw [next_around (h.nodup 0 chain hchain) hsplit]
    cases m₂ with
    | nil => exact ⟨p, rfl⟩
    | cons x m₂ => exact ⟨x, rfl⟩
  obtain ⟨l, hl, hok⟩ := h.leaf chain hchain q (mem_of_next hx).1
  have hhigh := h.high_le_low hchain hsplit (mem_append_right m₂ mem_cons_self)
  rw [hx] at hok
  rw [hl] at hrow hhigh
  exact (show LowLe cmp (some r.key) (some l.high_key) from hok.below hok.high_ne_nil r hrow).trans
    hhigh

theorem Shape.sorted (h : Shape cmp pages levels) (hchain : levels[0]? = some chain) :
    Sorted cmp (contents pages chain) := by
  suffices hsuffix : ∀ l₁ l₂, chain = l₁ ++ l₂ → Sorted cmp (contents pages l₂) from
    hsuffix [] chain rfl
  intro l₁ l₂ heq
  induction l₂ generalizing l₁ with
  | nil => exact List.Pairwise.nil
  | cons p l₂ ih =>
    have hmem : p ∈ chain := heq ▸ mem_append_cons_self
    obtain ⟨l, hl, hok⟩ := h.leaf chain hchain p hmem
    rw [contents_cons hl]
    refine pairwise_append.mpr ⟨hok.sorted, ih (l₁ ++ [p]) (by rw [heq]; simp), ?_⟩
    intro r hr r' hr'
    have hhigh := h.high_le hchain heq hr'
    rw [hl] at hhigh
    refine le_trans (hok.below ?_ r hr) hhigh
    -- Some leaf stands behind this one, so it has a high key.
    intro hnil
    have hnext := hok.top.mp hnil
    rw [next_around (h.nodup 0 chain hchain) heq] at hnext
    rw [head?_eq_none_iff.mp hnext] at hr'
    cases hr'

end Order

end FluxDB.Tree
