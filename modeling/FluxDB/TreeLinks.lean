-- The links of an index that gentle steps have led to: a page has a right neighbour exactly if it
-- has a high key, and along the rightlinks the leaves are in order. Beside each law stands a run
-- that breaks it after a step that is not gentle.
import FluxDB.TreeLaws

namespace FluxDB.Tree

open Comparator List

/-- The pages that downlinks and rightlinks lead to from the root. -/
inductive Reached (w : World) : Nat → Prop
  | root : Reached w w.root
  | down {p c : Nat} {n : InternalNode} (hp : Reached w p) (hn : w.pages p = .internal n)
    (hc : c ∈ n.children) : Reached w c
  | right {p q : Nat} (hp : Reached w p) (hq : (w.pages p).rightlink = some q) : Reached w q

variable {cmp : Compare} {w : World} {levels : List (List Nat)} {p : Nat}

/-- All of them belong to the tree. -/
theorem Good.inTree_of_reached (hg : Good cmp w levels) (h : Reached w p) : InTree levels p := by
  induction h with
  | root =>
    obtain ⟨top, htop, hroot⟩ := hg.sound.root
    rw [getLast?_eq_getElem?] at htop
    exact ⟨_, top, htop, mem_of_mem_head? hroot⟩
  | @down p c n _ hn hc ih =>
    obtain ⟨i, level, hi, hp⟩ := ih
    cases i with
    | zero =>
      obtain ⟨l, hl, -⟩ := hg.shape.leaf level hi p hp
      cases hn.symm.trans hl
    | succ i =>
      obtain ⟨lower, hlower⟩ := exists_lower hi
      obtain ⟨n', hn', hok⟩ := hg.shape.internal i level lower hi hlower p hp
      cases hn.symm.trans hn'
      obtain ⟨j, hj⟩ := mem_iff_getElem?.mp hc
      exact ⟨i, lower, hlower, (hok.links.child j c hj).1⟩
  | @right p q _ hq ih =>
    obtain ⟨i, level, hi, hp⟩ := ih
    rw [(hg.shape.links hi hp).1] at hq
    exact ⟨i, level, hi, (Chain.mem_of_next hq).2⟩

/-! ## Rightlinks and high keys -/

/-- After gentle steps, a page has a rightlink exactly if it has a high key, and no call panics. -/
theorem links_match_high_keys_after_gentle_steps [Std.TransCmp cmp] (h : Gently cmp w) :
    (∀ p, Reached w p → ((w.pages p).rightlink ≠ none ↔ (w.pages p).high_key ≠ [])) ∧
      ∀ n key value txn io, (get cmp n key txn (w.enter io)).panics = false ∧
        (w.Running txn → (delete cmp n key txn (w.enter io)).panics = false ∧
          (Gentle cmp w (.insert txn key value io) →
            (insert cmp n key value txn (w.enter io)).panics = false ∧
            (update cmp n key value txn (w.enter io)).panics = false)) := by
  obtain ⟨levels, hg⟩ := h.good
  refine ⟨fun p hp => ?_, fun n key value txn io => ⟨?_, fun htxn => ⟨?_, fun hok => ⟨?_, ?_⟩⟩⟩⟩
  · obtain ⟨i, level, hi, hmem⟩ := hg.inTree_of_reached hp
    obtain ⟨hlink, htop, -⟩ := hg.sound.shape.links hi hmem
    rw [hlink]
    exact not_congr htop.symm
  · exact (get_ends (hg.enter io) key txn).panics_eq_false n
  · exact (delete_ends (hg.enter io) htxn key).panics_eq_false n
  · exact (insert_ends (hg.enter io) htxn hok.1 (hg.keepsFor hok.2)).panics_eq_false n
  · exact (update_ends (hg.enter io) htxn hok.1 (hg.keepsFor hok.2)).panics_eq_false n

theorem the_links_of_two_leaves_match : ∃ w, Gently byBytes w ∧
    ∀ p, Reached w p → ((w.pages p).rightlink ≠ none ↔ (w.pages p).high_key ≠ []) := by
  obtain ⟨w, h, -⟩ := twoLeaves_ends
  exact ⟨w, h, (links_match_high_keys_after_gentle_steps h).1⟩

/-- The vacuum unlinks the last leaf. The leaf in front of it keeps its high key, and a lookup
behind that key panics. -/
theorem a_high_key_outlives_the_rightlink :
    ∃ w, Runs.run (World.step byBytes) .create
        (threeRows [[2], [3]] ++ .vacuum calm :: beginEvents 2) = some w ∧
      Reached w 1 ∧ (w.pages 1).rightlink = none ∧ (w.pages 1).high_key = [2] ∧
      w.Running (alone 2) ∧ (get byBytes 40 [3] (alone 2) (w.enter calm)).panics = true := by
  have hend : ∃ w, Runs.run (World.step byBytes) .create
        (threeRows [[2], [3]] ++ .vacuum calm :: beginEvents 2) = some w ∧
      w.pages w.root = .internal ⟨[], [1], [], none, false⟩ ∧ (w.pages 1).rightlink = none ∧
      (w.pages 1).high_key = [2] ∧ w.Running (alone 2) ∧
      (get byBytes 40 [3] (alone 2) (w.enter calm)).panics = true :=
    Runs.exists_run (by decide +kernel)
  obtain ⟨w, hrun, hroot, h⟩ := hend
  exact ⟨w, hrun, .down .root hroot List.mem_cons_self, h⟩

/-! ## The order of the leaves -/

/-- The leaves from left to right, as the links lead from one to the next, and their versions. The
leftmost one is found, unless the pool fails. -/
structure LeafOrder (cmp : Compare) (w : World) : Prop where
  first : ∀ io, Ends (fun n => find_leftmost_leaf n w.root) (w.enter io)
    (fun p _ => w.leaves.head? = some p) (fun e _ => e = .BufferPool ∨ e = .Wal)
  once : w.leaves.Nodup
  next : ∀ p ∈ w.leaves, (w.pages p).rightlink = Chain.next w.leaves p
  back : ∀ p ∈ w.leaves, ∃ l, w.pages p = .leaf l ∧ l.prev = Chain.prev w.leaves p
  all : ∀ p l, Reached w p → w.pages p = .leaf l → p ∈ w.leaves
  sorted : Sorted cmp w.versions
  high : ∀ front p back, w.leaves = front ++ p :: back → (w.pages p).high_key ≠ [] →
    (∀ r ∈ (w.pages p).rows, Le cmp r.key (w.pages p).high_key) ∧
    ∀ r ∈ contents w.pages back, Le cmp (w.pages p).high_key r.key

/-- After gentle steps the leaves are in order. -/
theorem leaves_in_order_after_gentle_steps [Std.TransCmp cmp] (h : Gently cmp w) :
    LeafOrder cmp w := by
  obtain ⟨levels, hg⟩ := h.good
  have hleaves := hg.leaves_eq
  have hshape := hg.sound.shape
  refine ⟨fun io => ?_, hshape.nodup 0 _ hleaves,
    fun p hp => (hshape.links hleaves hp).1, fun p hp => ?_, fun p l hp hl => ?_,
    hshape.sorted hleaves, fun front p back heq hne => ⟨fun r hr => ?_, fun r hr => ?_⟩⟩
  · obtain ⟨top, htop, hroot⟩ := hg.sound.root
    rw [List.getLast?_eq_getElem?] at htop
    refine (find_leftmost_leaf_ends (hg.enter io) htop hroot (.refl (hg.enter io))).imp ?_
      fun _ _ h => h.error
    rintro p w' ⟨-, leaves, hchain, hhead⟩
    cases hchain.symm.trans hleaves
    exact hhead
  · obtain ⟨l, hl, hok⟩ := hshape.leaf _ hleaves p hp
    exact ⟨l, hl, hok.back⟩
  · obtain ⟨i, level, hi, hmem⟩ := hg.inTree_of_reached hp
    cases i with
    | zero =>
      cases hi.symm.trans hleaves
      exact hmem
    | succ i =>
      obtain ⟨lower, hlower⟩ := exists_lower hi
      obtain ⟨n, hn, -⟩ := hshape.internal i level lower hi hlower p hmem
      cases hl.symm.trans hn
  · have hmem : p ∈ w.leaves := by
      rw [heq]
      exact List.mem_append_cons_self
    obtain ⟨l, hl, hok⟩ := hshape.leaf _ hleaves p hmem
    rw [hl] at hr hne ⊢
    exact hok.below hne r hr
  · exact hshape.high_le hleaves heq hr

theorem two_leaves_are_in_order : ∃ w, Gently byBytes w ∧ LeafOrder byBytes w := by
  obtain ⟨w, h, -⟩ := twoLeaves_ends
  exact ⟨w, h, leaves_in_order_after_gentle_steps h⟩

/-- The vacuum unlinks the first leaf, and the pool does not give it the second one: the back-link
there still leads to the leaf that is gone. -/
theorem a_back_link_leads_to_an_unlinked_leaf :
    ∃ w, Runs.run (World.step byBytes) .create
        (threeRows [[1]] ++ [.vacuum ⟨40, List.replicate 12 false ++ [true], []⟩]) = some w ∧
      w.leaves = [3] ∧ IsLeaf w 3 ⟨[longRow 2 0, longRow 3 0], [], none, some 1, false, false⟩ :=
  Runs.exists_run (by decide +kernel)

end FluxDB.Tree
