-- Vacuum on an index in order. A sweep passes over the leaves from left to right and compacts each.
-- If every leaf keeps a version of its first key and none but the root becomes empty, no leaf is
-- unlinked: the sweep drops vacuumable versions and does nothing else.
import FluxDB.TreeCalls
import FluxDB.TreeChain

namespace FluxDB.Tree

open Comparator List

variable {cmp : Compare} {w w' w'' : World}
  {levels : List (List Nat)} {leaves : List Nat}

/-! ## The first leaf -/

/-- The way down by first children ends on the first leaf. -/
theorem find_leftmost_leaf_ends (hg : Good cmp w levels) {i p : Nat} {level : List Nat}
    (hi : levels[i]? = some level) (hp : level.head? = some p) (hs : Still cmp w levels w') :
    Ends (fun n => find_leftmost_leaf n p) w'
      (fun a w'' => Still cmp w levels w'' ∧ ∃ leaves, levels[0]? = some leaves ∧
        leaves.head? = some a)
      (Broke cmp w levels) := by
  have hmem := mem_of_mem_head? hp
  induction i generalizing level p w' with
  | zero =>
    obtain ⟨l, hl, -⟩ := hg.shape.leaf level hi p hmem
    refine .succ rfl ?_
    unfold find_leftmost_leaf
    refine .bind (fetch_page_ends hs (hg.lt hi hmem)) ?_
    rintro _ w₁ ⟨hw₁, rfl⟩
    rw [hl]
    exact .pure ⟨hw₁, level, hi, hp⟩
  | succ i ih =>
    obtain ⟨n, c, lower, hn, hc, hlower, hhead⟩ := hg.shape.first_child hi hp
    refine .succ rfl ?_
    unfold find_leftmost_leaf
    refine .bind (fetch_page_ends hs (hg.lt hi hmem)) ?_
    rintro _ w₁ ⟨hw₁, rfl⟩
    rw [hn]
    dsimp only
    rw [hc]
    apply Ends.bind_pure
    exact ih hlower hhead hw₁ (mem_of_mem_head? hhead)

/-- A batch starts where the last one stopped, and the first one on the first leaf. -/
theorem batch_start_ends (hg : Good cmp w levels) (hleaves : levels[0]? = some leaves)
    {cursor : Option Nat} (hcursor : ∀ p, cursor = some p → p ∈ leaves) :
    Ends (fun n => batch_start n cursor) w
      (fun a w' => Still cmp w levels w' ∧ a ∈ leaves ∧ (cursor.isSome → cursor = some a))
      (Broke cmp w levels) := by
  cases cursor with
  | none =>
    unfold batch_start
    apply Ends.bind_read
    obtain ⟨top, htop, hroot⟩ := hg.sound.root
    rw [getLast?_eq_getElem?] at htop
    refine (find_leftmost_leaf_ends hg htop hroot (.refl hg)).imp ?_ fun _ _ h => h
    rintro a w₁ ⟨hw₁, chain, hchain, ha⟩
    cases hchain.symm.trans hleaves
    exact ⟨hw₁, mem_of_mem_head? ha, nofun⟩
  | some p =>
    have hp := hcursor p rfl
    obtain ⟨l, hl, -⟩ := hg.shape.leaf leaves hleaves p hp
    unfold batch_start
    refine .bind (fetch_page_ends (.refl hg) (hg.lt hleaves hp)) ?_
    rintro _ w₁ ⟨hw₁, rfl⟩
    rw [hl]
    exact .pure ⟨hw₁, hp, fun _ => rfl⟩

/-! ## A sweep -/

/-- Compaction costs no leaf its first key and makes no leaf but the root empty. -/
def Sweepable (cmp : Compare) (w : World) (leaves : List Nat) : Prop :=
  ∀ p ∈ leaves, ∀ l, w.pages p = .leaf l → Keeps cmp w.tm l ∧
    (p ≠ w.root → ∃ r ∈ l.rows, ¬ Vacuumable w.tm r)

/-- Vacuumable versions are gone and nothing else has changed. -/
structure Swept (cmp : Compare) (w : World) (levels : List (List Nat)) (leaves : List Nat)
    (w' : World) : Prop extends Advances cmp w levels w' levels where
  dropped : Pruned w.tm (stored w levels) (stored w' levels)
  written : w'.written = w.written
  sweepable : Sweepable cmp w' leaves
  root : w'.root = w.root

theorem Swept.trans (h : Swept cmp w levels leaves w') (h' : Swept cmp w' levels leaves w'') :
    Swept cmp w levels leaves w'' := by
  have hdropped := h'.dropped
  rw [h.tm] at hdropped
  exact { h.toAdvances.trans h'.toAdvances with
    dropped := h.dropped.trans hdropped
    written := h'.written.trans h.written
    sweepable := h'.sweepable
    root := h'.root.trans h.root }

theorem Swept.of_still (hg : Good cmp w levels) (hsweep : Sweepable cmp w leaves)
    (h : Still cmp w levels w') : Swept cmp w levels leaves w' := by
  refine { h.toStructural.advances hg with
    dropped := (Pruned.refl _ _).of_eq (h.toStructural.stored_eq hg)
    written := h.written, sweepable := ?_, root := h.root }
  unfold Sweepable
  rw [h.same, h.root]
  exact hsweep

/-- No leaf is unlinked. -/
theorem unlink_if_empty_ends {p : Nat} {l : LeafNode} {F : IndexError → World → Prop}
    (halive : l.half_dead = false) (hrows : p ≠ w.root → l.rows ≠ []) :
    Ends (fun n => unlink_if_empty cmp n p l) w (fun _ w' => w' = w) F := by
  unfold unlink_if_empty
  apply Ends.bind_read
  refine .ite (fun hempty => ?_) fun _ => .pure rfl
  rcases hempty with ⟨hnil | hdead, hne⟩
  · exact absurd hnil (hrows hne)
  rw [halive] at hdead
  cases hdead

/-- No page was unlinked, so none is freed. -/
theorem graduate_ends (hg : Good cmp w levels) (horizon : Nat) :
    Ends (fun _ => graduate horizon) w (fun _ => Still cmp w levels) (Broke cmp w levels) := by
  unfold graduate
  refine .bind (call_ends hg (.inl rfl)) fun _ w₁ hw₁ => ?_
  apply Ends.bind_read
  apply Ends.bind_modify
  have hsame : { w₁ with pending_recycle := [] } = w₁ := by
    rw [← hw₁.good.pending]
  rw [hw₁.good.pending]
  refine .ite (fun _ => .pure ?_) fun h => absurd rfl h
  rw [← hsame] at hw₁
  exact hw₁

section Sweep

variable [Std.TransCmp cmp]

/-- A leaf that was compacted stays as it is in the next sweep. -/
theorem Swept.of_compacted {p : Nat} {l : LeafNode} (hsweep : Sweepable cmp w leaves)
    (hp : p ∈ leaves) (hl : w.pages p = .leaf l) (h : Compacted cmp w levels p l w') :
    Swept cmp w levels leaves w' := by
  refine { h.toAdvances with
    dropped := h.dropped, written := h.written, root := h.root
    sweepable := fun q hq lq hlq => ?_ }
  rw [h.tm, h.root]
  by_cases hqp : q = p
  · subst hqp
    cases h.leaf.symm.trans hlq
    obtain ⟨hkeeps, hsome⟩ := hsweep q hq l hl
    refine ⟨fun hprev => ?_, fun hroot => ?_⟩
    · obtain ⟨r, hr, hlive, -⟩ := hkeeps hprev
      exact keeps_of_live (fun x hx => (mem_live.mp hx).2)
        (ne_nil_of_mem (mem_live.mpr ⟨hr, hlive⟩)) hprev
    obtain ⟨r, hr, hlive⟩ := hsome hroot
    exact ⟨r, mem_live.mpr ⟨hr, hlive⟩, hlive⟩
  rw [h.same q hqp] at hlq
  exact hsweep q hq lq hlq

section

variable (hg : Good cmp w levels) (hleaves : levels[0]? = some leaves)
  (hsweep : Sweepable cmp w leaves)

include hg hleaves hsweep

/-- A batch drops what is vacuumable on its leaves and stops that many leaves further right. -/
theorem vacuum_leaves_ends (k : Nat) {p : Nat} {l₁ l₂ : List Nat} (heq : leaves = l₁ ++ p :: l₂) :
    Ends (fun n => vacuum_leaves cmp n w.tm.global_xmin k p) w
      (fun a w' => Swept cmp w levels leaves w' ∧
        ∀ q, a = some q → ∃ m₁ m₂, leaves = m₁ ++ q :: m₂ ∧ m₂.length + k = l₂.length)
      (Failed cmp w levels) := by
  have hnodup := hg.shape.nodup 0 leaves hleaves
  induction k generalizing w p l₁ l₂ with
  | zero =>
    refine .pure ⟨Swept.of_still hg hsweep (.refl hg), ?_⟩
    rintro q ⟨⟩
    exact ⟨l₁, l₂, heq, Nat.add_zero _⟩
  | succ k ih =>
    have hp : p ∈ leaves := heq ▸ mem_append_cons_self
    obtain ⟨l, hl, hok⟩ := hg.shape.leaf leaves hleaves p hp
    unfold vacuum_leaves
    refine .seq (fetch_leaf_ends (.refl hg) (hg.lt hleaves hp) hl) (fun _ _ h => h.failed hg) ?_
    rintro _ w₁ ⟨hw₁, -⟩
    have hswept₁ := Swept.of_still hg hsweep hw₁
    have hl₁ : w₁.pages p = .leaf l := by
      rw [hw₁.same]
      exact hl
    rw [← hw₁.tm]
    refine .bind ((compact_ends hw₁.good hleaves hp hl₁ (hswept₁.sweepable p hp l hl₁).1).imp
      (fun _ _ h => h.1) fun _ _ h => h.trans hswept₁.toAdvances) fun _ w₂ hw₂ => ?_
    have hswept₂ := hswept₁.trans (Swept.of_compacted hswept₁.sweepable hp hl₁ hw₂)
    apply bind_held hw₂.leaf
    refine .bind (unlink_if_empty_ends ?_ fun hroot => ?_) ?_
    · exact hok.alive
    · obtain ⟨r, hr, -⟩ := (hswept₂.sweepable p hp _ hw₂.leaf).2 hroot
      exact ne_nil_of_mem hr
    rintro _ _ rfl
    dsimp only
    rw [hok.rightlink, Chain.next_around hnodup heq]
    cases l₂ with
    | nil => exact .pure ⟨hswept₂, nofun⟩
    | cons q l₂ =>
      have heq' : leaves = (l₁ ++ [p]) ++ q :: l₂ := by
        rw [heq]
        simp
      dsimp only [head?_cons]
      rw [← hw₂.tm]
      refine (ih hw₂.good hswept₂.sweepable heq').imp ?_ fun _ _ h => h.trans hswept₂.toAdvances
      rintro a w₃ ⟨hw₃, ha⟩
      refine ⟨hswept₂.trans hw₃, fun x hx => ?_⟩
      obtain ⟨m₁, m₂, hm, hlen⟩ := ha x hx
      exact ⟨m₁, m₂, hm, by rw [length_cons]; omega⟩

/-- The batches come to the end of the chain: less is left of it behind every batch. -/
theorem vacuum_batches_ends {cursor : Option Nat} (hcursor : ∀ p, cursor = some p → p ∈ leaves)
    (k : Nat) (hk : ∀ p, (cursor.isSome → cursor = some p) → p ∈ leaves →
      ∃ l₁ l₂, leaves = l₁ ++ p :: l₂ ∧ l₂.length < k) :
    Ends (fun n => vacuum_batches cmp n w.tm.global_xmin cursor) w
      (fun _ w' => Swept cmp w levels leaves w') (Failed cmp w levels) := by
  induction k using Nat.strong_induction_on generalizing w cursor with
  | _ k ih =>
    refine .succ rfl ?_
    unfold vacuum_batches
    refine .seq (batch_start_ends hg hleaves hcursor) (fun _ _ h => h.failed hg) ?_
    rintro p w₁ ⟨hw₁, hp, hpc⟩
    have hswept₁ := Swept.of_still hg hsweep hw₁
    obtain ⟨l₁, l₂, heq, hlt⟩ := hk p hpc hp
    rw [← hw₁.tm]
    refine .seq (vacuum_leaves_ends hw₁.good hleaves hswept₁.sweepable VACUUM_BATCH_MAX_LEAVES heq)
      (fun _ _ h => h.trans hswept₁.toAdvances) ?_
    rintro next w₂ ⟨hw₂, hnext⟩
    have hswept₂ := hswept₁.trans hw₂
    cases next with
    | none => exact .pure hswept₂
    | some q =>
      obtain ⟨m₁, m₂, hm, hlen⟩ := hnext q rfl
      unfold VACUUM_BATCH_MAX_LEAVES at hlen
      dsimp only
      rw [← hw₂.tm]
      refine (ih l₂.length hlt hw₂.good hswept₂.sweepable ?_ ?_).imp
        (fun _ _ h => hswept₂.trans h) fun _ _ h => h.trans hswept₂.toAdvances
      · rintro _ ⟨⟩
        exact hm ▸ mem_append_cons_self
      rintro x hx -
      cases hx rfl
      exact ⟨m₁, m₂, hm, by omega⟩

/-- Vacuum drops vacuumable versions and does nothing else. -/
theorem vacuum_ends :
    Ends (fun n => vacuum cmp n) w (fun _ w' => Swept cmp w levels leaves w')
      (Failed cmp w levels) := by
  unfold vacuum
  apply Ends.bind_read
  refine .bind (vacuum_batches_ends hg hleaves hsweep nofun leaves.length fun p _ hp => ?_)
    fun _ w₁ hw₁ => ?_
  · obtain ⟨l₁, l₂, heq⟩ := append_of_mem hp
    refine ⟨l₁, l₂, heq, ?_⟩
    rw [heq, length_append, length_cons]
    omega
  exact (graduate_ends hw₁.good _).imp (fun _ _ h => hw₁.trans (Swept.of_still hw₁.good
    hw₁.sweepable h)) fun _ _ h => (h.failed hw₁.good).trans hw₁.toAdvances

end

end Sweep

end FluxDB.Tree
