-- The leaves as one finds them: down from the root by first children and then to the right. Of an
-- index in order that is the whole chain of its leaves.
import Mathlib.Data.Fintype.Card
import FluxDB.TreeLeaves

namespace FluxDB.Tree

open Comparator List Chain

/-! ## The way along the leaves -/

/-- The page that the first children lead to. -/
def leftmost (pages : Nat → Node) : Nat → Nat → Nat
  | 0, p => p
  | n + 1, p =>
    match pages p with
    | .internal i =>
      match i.children[0]? with
      | some c => leftmost pages n c
      | none => p
    | _ => p

/-- The pages from this one to the right, at most so many. -/
def chainFrom (pages : Nat → Node) : Nat → Nat → List Nat
  | 0, _ => []
  | n + 1, p =>
    p :: match (pages p).rightlink with
      | some q => chainFrom pages n q
      | none => []

/-- The leaves, from left to right. -/
def World.leaves (w : World) : List Nat :=
  chainFrom w.pages w.next_page_id (leftmost w.pages w.next_page_id w.root)

/-- The stored versions, leaf after leaf. -/
def World.versions (w : World) : List Row := contents w.pages w.leaves

/-! ## The leaves of an index in order -/

variable {cmp : Compare} {pages : Nat → Node} {w : World}
  {levels : List (List Nat)}

/-- The first child of the first page of a level is the first page of the level below. -/
theorem Shape.first_child (h : Shape cmp pages levels) {i p : Nat} {upper : List Nat}
    (hupper : levels[i + 1]? = some upper) (hp : upper.head? = some p) :
    ∃ n c lower, pages p = .internal n ∧ n.children[0]? = some c ∧ levels[i]? = some lower ∧
      lower.head? = some c := by
  obtain ⟨lower, hlower⟩ := exists_lower hupper
  obtain ⟨n, hn, hok⟩ := h.internal i upper lower hupper hlower p (mem_of_mem_head? hp)
  have hlt : 0 < n.children.length := by
    rw [hok.links.arity]
    exact Nat.succ_pos _
  obtain ⟨hc, hle, -⟩ := hok.links.child 0 _ (getElem?_eq_getElem hlt)
  -- The page begins nowhere, so its first child begins nowhere.
  rw [low_head (h.nodup _ upper hupper) hp] at hle
  have hprev : Chain.prev lower n.children[0] = none := by
    cases hprev : Chain.prev lower n.children[0] with
    | none => rfl
    | some x =>
      unfold low at hle
      rw [hprev] at hle
      exact hle.elim
  exact ⟨n, n.children[0], lower, hn, getElem?_eq_getElem hlt, hlower,
    head_of_prev (h.nodup i lower hlower) hc hprev⟩

/-- Below a page there is one on every level. -/
theorem Shape.exists_head (h : Shape cmp pages levels) {i j p : Nat} {upper : List Nat}
    (hupper : levels[i]? = some upper) (hp : upper.head? = some p) (hj : j ≤ i) :
    ∃ lower q, levels[j]? = some lower ∧ lower.head? = some q := by
  induction i generalizing upper p with
  | zero =>
    cases Nat.le_zero.mp hj
    exact ⟨upper, p, hupper, hp⟩
  | succ i ih =>
    rcases Nat.le_or_eq_of_le_succ hj with hj | rfl
    · obtain ⟨_, c, lower, -, -, hlower, hc⟩ := h.first_child hupper hp
      exact ih hlower hc hj
    · exact ⟨upper, p, hupper, hp⟩

theorem Shape.leftmost_eq (h : Shape cmp pages levels) {i n p : Nat} {level leaves : List Nat}
    (hlevel : levels[i]? = some level) (hp : level.head? = some p) (hn : i ≤ n)
    (hleaves : levels[0]? = some leaves) : leaves.head? = some (leftmost pages n p) := by
  induction i generalizing level p n with
  | zero =>
    cases hlevel.symm.trans hleaves
    obtain ⟨l, hl, -⟩ := h.leaf leaves hleaves p (mem_of_mem_head? hp)
    have hstop : leftmost pages n p = p := by
      cases n with
      | zero => rfl
      | succ n =>
        unfold leftmost
        rw [hl]
    rw [hstop]
    exact hp
  | succ i ih =>
    obtain ⟨node, c, lower, hnode, hc, hlower, hhead⟩ := h.first_child hlevel hp
    obtain ⟨n, rfl⟩ : ∃ m, n = m + 1 := ⟨n - 1, by omega⟩
    unfold leftmost
    rw [hnode]
    dsimp only
    rw [hc]
    exact ih hlower hhead (by omega)

theorem chainFrom_eq {chain : List Nat} (hnodup : chain.Nodup)
    (hlinks : ∀ p ∈ chain, (pages p).rightlink = Chain.next chain p) {p n : Nat}
    {front back : List Nat} (h : chain = front ++ p :: back) (hn : back.length < n) :
    chainFrom pages n p = p :: back := by
  induction back generalizing front p n with
  | nil =>
    obtain ⟨n, rfl⟩ : ∃ m, n = m + 1 := ⟨n - 1, by omega⟩
    have hlink := hlinks p (by rw [h]; simp)
    rw [next_around hnodup h] at hlink
    unfold chainFrom
    rw [hlink]
    rfl
  | cons q back ih =>
    obtain ⟨n, rfl⟩ : ∃ m, n = m + 1 := ⟨n - 1, by omega⟩
    have hlink := hlinks p (by rw [h]; simp)
    rw [next_around hnodup h] at hlink
    rw [length_cons] at hn
    have hsplit : chain = (front ++ [p]) ++ q :: back := by
      rw [h]
      simp
    have hrest := ih hsplit (by omega : back.length < n)
    unfold chainFrom
    rw [hlink]
    dsimp only [head?_cons]
    rw [hrest]

theorem Good.length_le (hg : Good cmp w levels) {i : Nat} {level : List Nat}
    (hi : levels[i]? = some level) : level.length ≤ w.next_page_id := by
  have hsub : level ⊆ List.range w.next_page_id := fun p hp =>
    mem_range.mpr (hg.sound.fresh p ⟨i, level, hi, hp⟩)
  have hperm := (hg.shape.nodup i level hi).subperm hsub
  calc level.length ≤ (List.range w.next_page_id).length := hperm.length_le
    _ = w.next_page_id := length_range

theorem Good.depth_le (hg : Good cmp w levels) : levels.length ≤ w.next_page_id := by
  obtain ⟨top, htop, hroot⟩ := hg.sound.root
  rw [getLast?_eq_getElem?] at htop
  have hpick : ∀ i : Fin levels.length, ∃ p : Fin w.next_page_id, ∃ level,
      levels[i.val]? = some level ∧ p.val ∈ level := by
    intro i
    obtain ⟨level, q, hlevel, hq⟩ := hg.shape.exists_head htop hroot (j := i.val) (by omega)
    have hmem := mem_of_mem_head? hq
    exact ⟨⟨q, hg.sound.fresh q ⟨i, level, hlevel, hmem⟩⟩, level, hlevel, hmem⟩
  choose page hpage using hpick
  have hinj : Function.Injective page := by
    intro i j hij
    obtain ⟨a, ha, hpa⟩ := hpage i
    obtain ⟨b, hb, hpb⟩ := hpage j
    rw [← hij] at hpb
    exact Fin.ext (hg.shape.apart i j a b _ ha hb hpa hpb)
  simpa using Fintype.card_le_of_injective page hinj

theorem Good.leaves_eq (hg : Good cmp w levels) : levels[0]? = some w.leaves := by
  obtain ⟨top, htop, hroot⟩ := hg.sound.root
  rw [getLast?_eq_getElem?] at htop
  obtain ⟨leaves, first, hleaves, hfirst⟩ := hg.shape.exists_head htop hroot (Nat.zero_le _)
  have hdepth := hg.depth_le
  have hstart := hg.shape.leftmost_eq (n := w.next_page_id) htop hroot (by omega) hleaves
  obtain ⟨back, hback⟩ := head?_eq_some_iff.mp hstart
  have hlength := hg.length_le hleaves
  rw [hback, length_cons] at hlength
  have hsplit : leaves = [] ++ _ :: back := hback
  have hchain := chainFrom_eq (hg.shape.nodup 0 leaves hleaves)
    (fun p hp => (hg.shape.links hleaves hp).1) hsplit (n := w.next_page_id) (by omega)
  rw [hleaves]
  unfold World.leaves
  rw [hchain]
  exact congrArg some hback

theorem Good.versions_eq (hg : Good cmp w levels) : w.versions = stored w levels := by
  unfold World.versions stored
  rw [hg.leaves_eq]
  rfl

end FluxDB.Tree
