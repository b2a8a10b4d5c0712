-- Runs of the index. As long as records are small and compaction costs no leaf its first key, every
-- call leaves the index in order, and so does every crash that comes before a call of the pool or
-- the log has failed: what redo brings back is in order too.
import FluxDB.TreeSweeps

namespace FluxDB

/-! ## Transactions after a restart -/

section Recover

variable {p : Phase} {w : Txns}

theorem Phase.recovered_clog_ne_none (h : p.clog ≠ none) : p.recovered.clog ≠ none := by
  cases p with
  | unborn => exact h
  | starting | running | committing | aborting | committed | aborted => exact nofun

theorem Phase.recovered_final (h : p.Final) : p.recovered.Final := by
  cases p with
  | unborn | starting | running => cases h <;> contradiction
  | committing | committed => exact .inl rfl
  | aborting | aborted => exact .inr rfl

/-- A crash victim gets the entry of its phase, and whoever had ended keeps it. -/
theorem Phase.recovered_clog (p : Phase) :
    p.recovered.clog = if p.Open ∧ p.clog ≠ some .Committed then some .Aborted else p.clog := by
  cases p <;> rfl

theorem Txns.Good.recover_clog (hg : w.Good) (t : Nat) :
    w.recover.tm.clog.lookup t = (w.recover.phase t).clog := by
  have hvictims : w.recover.tm.clog.lookup t = _ := lookup_mark_victims w.tm.active_txns.keys w.tm t
  rw [hvictims, hg.clog]
  refine .trans ?_ (w.phase t).recovered_clog.symm
  refine if_congr (and_congr (AList.mem_keys.symm.trans (hg.active t)) .rfl |>.trans ?_) rfl rfl
  refine and_congr_right fun ho => and_iff_right ?_
  rintro rfl
  rw [(hg.born 0).mpr (.inl rfl)] at ho
  exact ho

/-- After a restart every transaction has ended and the rest stands. -/
theorem Txns.Good.recover (hg : w.Good) : w.recover.Good := by
  have hnext : w.recover.tm.next_txn_id = w.tm.next_txn_id :=
    StatusScan.mark_victims_tm (P := fun tm => tm.next_txn_id = w.tm.next_txn_id) _ rfl
      fun _ _ h => h
  have hunborn : ∀ t, w.recover.phase t = .unborn ↔ w.phase t = .unborn := by
    intro t
    change (w.phase t).recovered = .unborn ↔ _
    cases w.phase t <;> simp [Phase.recovered]
  exact {
    next_pos := hnext ▸ hg.next_pos
    next_le := hnext ▸ hg.next_le
    active := fun t => ⟨nofun, fun ho => by
      change (w.phase t).recovered.Open at ho
      cases hp : w.phase t <;> rw [hp] at ho <;> exact ho.elim⟩
    issued := fun t ht => hnext ▸ hg.issued t fun hu => ht ((hunborn t).mpr hu)
    aborted := fun t ht => by rw [hg.recover_clog]; rcases ht with ht | ht <;> rw [ht] <;> rfl
    bounded := nofun
    fresh := fun t ht => hnext ▸ hg.fresh t ((hunborn t).mp ht)
    clog := hg.recover_clog
    active_le := nofun
    reader_le := nofun
    reader_lt := nofun
    holder := nofun
    unique := nofun }

end Recover

end FluxDB

namespace FluxDB.Tree

open Comparator

/-! ## Steps that keep the index in order -/

/-- The leaves with their pages. -/
def World.leafPages (w : World) : List (Nat × LeafNode) :=
  w.leaves.filterMap fun p =>
    match w.pages p with
    | .leaf l => some (p, l)
    | _ => none

theorem mem_leafPages {w : World} {p : Nat} {l : LeafNode} :
    (p, l) ∈ w.leafPages ↔ p ∈ w.leaves ∧ w.pages p = .leaf l := by
  unfold World.leafPages
  rw [List.mem_filterMap]
  constructor
  · rintro ⟨q, hq, h⟩
    split at h
    · next hl =>
      cases h
      exact ⟨hq, hl⟩
    · cases h
  rintro ⟨hp, hl⟩
  exact ⟨p, hp, by rw [hl]⟩

instance (cmp : Compare) : (a b : Option Bytes) → Decidable (LowLe cmp a b)
  | none, _ => isTrue trivial
  | some _, none => isFalse id
  | some a, some b => inferInstanceAs (Decidable (Le cmp a b))

/-- The leaf whose range holds the key is like this. -/
def World.OnLeafOf (w : World) (cmp : Compare) (key : Bytes) (P : LeafNode → Prop) : Prop :=
  ∀ x ∈ w.leafPages, LowLe cmp (low w.pages w.leaves x.1) (some key) →
    ¬ Beyond cmp key x.2.high_key → P x.2

instance (w : World) (cmp : Compare) (key : Bytes) (P : LeafNode → Prop) [DecidablePred P] :
    Decidable (w.OnLeafOf cmp key P) := inferInstanceAs (Decidable (∀ _ ∈ _, _))

/-- A write is of a small record, and the leaf whose range holds its key keeps its first key when it
is compacted. Vacuum costs no leaf its first key and makes none but the root empty. No crash comes
behind a failed call of the pool or the log. -/
def Gentle (cmp : Compare) (w : World) : Event → Prop
  | .insert _ key value _ | .update _ key value _ =>
    Modest key value ∧ w.OnLeafOf cmp key (Keeps cmp w.tm)
  | .vacuum _ => ∀ x ∈ w.leafPages, Keeps cmp w.tm x.2 ∧
      (x.1 ≠ w.root → ∃ r ∈ x.2.rows, ¬ Vacuumable w.tm r)
  | .txn _ | .delete _ _ _ | .crash _ _ => True
  | .crash_after_failure _ => False

instance (cmp : Compare) (w : World) (e : Event) : Decidable (Gentle cmp w e) := by
  cases e <;> dsimp only [Gentle] <;> infer_instance

variable {cmp : Compare} {w w' : World} {levels : List (List Nat)}

theorem Good.onLeafOf (hg : Good cmp w levels) {key : Bytes} {P : LeafNode → Prop}
    (h : w.OnLeafOf cmp key P) {leaves : List Nat} (hleaves : levels[0]? = some leaves) {p : Nat}
    {l : LeafNode} (hland : Lands cmp w.pages leaves key p l) : P l := by
  cases hleaves.symm.trans hg.leaves_eq
  exact h (p, l) (mem_leafPages.mpr ⟨hland.mem, hland.page⟩) hland.above hland.inside

theorem Good.keepsFor (hg : Good cmp w levels) {key : Bytes}
    (h : w.OnLeafOf cmp key (Keeps cmp w.tm)) : KeepsFor cmp w levels key :=
  fun _ _ _ hleaves hland => hg.onLeafOf h hleaves hland

theorem Gentle.sweepable {io : Limits} (h : Gentle cmp w (.vacuum io)) :
    Sweepable cmp w w.leaves := fun p hp l hl => h (p, l) (mem_leafPages.mpr ⟨hp, hl⟩)

/-! ## One step -/

theorem Good.enter (hg : Good cmp w levels) (io : Limits) : Good cmp (w.enter io) levels :=
  { hg with }

/-- What a call leaves, it leaves by returning or by failing. -/
theorem leave_ends {x : Nat → Act Unit} {Q : Unit → World → Prop} {E : IndexError → World → Prop}
    {n : Nat} (h : Ends x w Q E) (hleave : World.leave (x n w) = some w') :
    Q () w' ∨ ∃ e, E e w' := by
  have hends := h.meets (n := n) fun hstuck => by rw [hstuck] at hleave; cases hleave
  generalize x n w = r at hends hleave
  match r, hleave with
  | .ok _ _, rfl => exact .inl hends
  | .err e v, hleave =>
    have hv : v = w' := by cases e <;> cases hleave <;> rfl
    exact .inr ⟨e, hv ▸ hends⟩

/-- Transactions that have begun have begun for good. -/
theorem Sound.with_txns {d : Durable} {root : Nat} (h : Sound cmp d root levels) {txns : Txns}
    (hgood : txns.Good)
    (hclog : ∀ t, (d.txns.phase t).clog ≠ none → (txns.phase t).clog ≠ none)
    (hfinal : ∀ t, (d.txns.phase t).Final → (txns.phase t).Final) :
    Sound cmp { d with txns } root levels :=
  { h with
    txns := hgood
    rows := fun p l hl r hr => by
      obtain ⟨hcreator, hdeleter, hended, hchain⟩ := h.rows p l hl r hr
      exact ⟨hclog _ hcreator, hdeleter.imp_right (hclog _),
        hended.imp_right (Or.imp_right (hfinal _)), hchain⟩ }

theorem Sound.recover {d : Durable} {root : Nat} (h : Sound cmp d root levels)
    (reflagged : List Nat) : Sound cmp (d.recover reflagged) root levels := by
  have htxns := h.with_txns h.txns.recover (fun _ => Phase.recovered_clog_ne_none)
    fun _ => Phase.recovered_final
  refine htxns.of_flags (fun p => ?_) rfl rfl rfl
  unfold Durable.recover
  dsimp only
  split
  · cases d.pages p <;> rfl
  · rfl

theorem good_open {d : Durable} (h : Sound cmp d d.meta_root levels) : Good cmp (.open d) levels :=
  ⟨h, h.bitmap, rfl, fun _ => ⟨rfl, fun d' hd' => ⟨levels, by
    rw [List.mem_singleton.mp hd']
    exact h⟩⟩⟩

theorem good_create : Good cmp .create [[1]] := by
  refine good_open ⟨⟨?_, ?_, ?_, nofun⟩, ⟨[1], rfl, rfl⟩, ?_, fun p hp => ?_, fun p l hl => ?_, rfl,
    Txns.good_new⟩
  · rintro (_ | i) level ⟨⟩
    exact List.nodup_singleton 1
  · rintro (_ | i) (_ | j) a b p ⟨⟩ ⟨⟩ - -
    rfl
  · rintro _ ⟨⟩ p hp
    cases List.mem_singleton.mp hp
    exact ⟨.new, rfl, by constructor <;> simp [LeafNode.new, Chain.next, Chain.prev, low, Sorted]⟩
  · rintro p ⟨_ | i, level, ⟨⟩, hp⟩
    cases List.mem_singleton.mp hp
    decide
  · have hp' : 3 ≤ p := hp
    simp [Durable.create, show p ≠ 0 by omega, show p ≠ 1 by omega, show p ≠ 2 by omega]
  unfold Durable.create at hl
  dsimp only at hl
  split_ifs at hl
  cases hl
  rintro _ ⟨⟩

variable [Std.TransCmp cmp]

/-- A gentle step leaves the index in order. -/
theorem good_step {e : Event} (hg : ∃ levels, Good cmp w levels) (hok : Gentle cmp w e)
    (h : w.step cmp e = some w') : ∃ levels, Good cmp w' levels := by
  obtain ⟨levels, hg⟩ := hg
  cases e with
  | txn e =>
    obtain ⟨txns, htxns, rfl⟩ := Option.map_eq_some_iff.mp h
    have hsound : ∀ {root}, Sound cmp w.toDurable root levels →
        Sound cmp { w.toDurable with txns } root levels := fun hs =>
      have hlater := (Txns.later_step hs.txns htxns).phase
      hs.with_txns (Txns.good_step hs.txns htxns) (fun t => (hlater t).clog_ne_none)
        fun t => (hlater t).final
    refine ⟨levels, hsound hg.sound, hg.pool, hg.pending, fun hfailed => ?_⟩
    obtain ⟨hroot, hredo⟩ := hg.redo hfailed
    exact ⟨hroot, Maps.forall_mem_concat hredo ⟨levels, hsound (hroot ▸ hg.sound)⟩⟩
  | insert txn key value io =>
    obtain ⟨htxn, h⟩ := Option.ite_none_right_eq_some.mp h
    rcases leave_ends (insert_ends (hg.enter io) htxn hok.1 (hg.keepsFor hok.2)) h with
      ⟨-, levels', pages, hs⟩ | ⟨e, hf | hn | hr⟩
    · exact ⟨levels', hs.good⟩
    · exact hf.advances.imp fun _ ha => ha.good
    · exact hn.advances.imp fun _ ha => ha.1.good
    · exact hr.structural.imp fun _ hs => hs.good
  | update txn key value io =>
    obtain ⟨htxn, h⟩ := Option.ite_none_right_eq_some.mp h
    rcases leave_ends (update_ends (hg.enter io) htxn hok.1 (hg.keepsFor hok.2)) h with
      ⟨levels', hs⟩ | ⟨e, hf | ⟨_, _, _, -, hn⟩ | hr⟩
    · exact ⟨levels', hs.good⟩
    · exact hf.advances.imp fun _ ha => ha.good
    · exact hn.advances.imp fun _ ha => ha.1.good
    · exact hr.structural.imp fun _ hs => hs.good
  | delete txn key io =>
    obtain ⟨htxn, h⟩ := Option.ite_none_right_eq_some.mp h
    rcases leave_ends (delete_ends (hg.enter io) htxn key) h with hd | ⟨e, hb | hr⟩
    · exact ⟨levels, hd.good⟩
    · exact hb.structural.imp fun _ hs => hs.good
    · exact hr.structural.imp fun _ hs => hs.good
  | vacuum io =>
    rcases leave_ends (vacuum_ends (hg.enter io) hg.leaves_eq hok.sweepable) h with hs | ⟨e, hf⟩
    · exact ⟨levels, hs.good⟩
    · exact hf.advances.imp fun _ ha => ha.good
  | crash records reflagged =>
    simp only [World.step] at h
    split at h
    · next d hd =>
      obtain ⟨⟨hfailed, -⟩, ⟨⟩⟩ := Option.ite_none_right_eq_some.mp h
      obtain ⟨levels', hs⟩ := (hg.redo hfailed).2 d (List.mem_of_getElem? hd)
      exact ⟨levels', good_open (hs.recover reflagged)⟩
    · cases h
  | crash_after_failure d => exact hok.elim

/-- A run of gentle steps on a new index ends here. -/
def Gently (cmp : Compare) (w : World) : Prop :=
  ∃ es, Runs.Meets (World.step cmp) (Gentle cmp) .create es ∧
    Runs.run (World.step cmp) .create es = some w

theorem Gently.good (h : Gently cmp w) : ∃ levels, Good cmp w levels := by
  obtain ⟨es, hok, hrun⟩ := h
  exact Runs.inv_run_meets (I := fun w => ∃ levels, Good cmp w levels)
    (fun _ _ _ hg hok h => good_step hg hok h) ⟨_, good_create⟩ hok hrun

end FluxDB.Tree
