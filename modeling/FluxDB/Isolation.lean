-- What the index is to a running transaction: a bag of keys with their values. Its own calls put
-- pairs in and take pairs out. The calls of others, their ends and the sweeps leave the bag as it
-- is, whatever they split and compact on the way.
import FluxDB.TreeLaws

namespace FluxDB.Tree

open List

variable {cmp : Compare} {w w' : World} {d : Durable} {levels levels' : List (List Nat)}
  {key value : Bytes} {txn reader : Transaction} {rows rows' front back : List Row} {r : Row}
  {tm : TransactionManager} {io : Limits} {e : IndexError}

/-! ## The pairs that a transaction is shown -/

/-- The row without its stamps. -/
def Row.pair (r : Row) : Bytes × Bytes := (r.key, r.value)

/-- The visible ones of these versions, without their stamps. -/
def pairsOf (txn : Transaction) (tm : TransactionManager) (rows : List Row) :
    List (Bytes × Bytes) :=
  (rows.filter fun r => txn.is_visible r.xmin r.xmax tm).map Row.pair

def World.pairs (w : World) (txn : Transaction) : List (Bytes × Bytes) :=
  pairsOf txn w.tm w.versions

/-- What a lookup in these pairs may return. -/
def Yields (cmp : Compare) (pairs : List (Bytes × Bytes)) (key : Bytes) :
    Option Bytes → Prop
  | some v => ∃ k, (k, v) ∈ pairs ∧ cmp k key = .eq
  | none => ∀ x ∈ pairs, cmp x.1 key ≠ .eq

theorem mem_pairsOf {x : Bytes × Bytes} : x ∈ pairsOf txn tm rows ↔
    ∃ r ∈ rows, txn.is_visible r.xmin r.xmax tm = true ∧ r.pair = x := by
  simp only [pairsOf, mem_map, mem_filter, and_assoc]

theorem pairsOf_perm (h : rows.Perm rows') : (pairsOf txn tm rows).Perm (pairsOf txn tm rows') :=
  (h.filter _).map _

theorem pairsOf_cons (r : Row) (rows : List Row) : pairsOf txn tm (r :: rows) =
    if txn.is_visible r.xmin r.xmax tm then r.pair :: pairsOf txn tm rows
    else pairsOf txn tm rows := by
  unfold pairsOf
  rw [filter_cons]
  split <;> rfl

theorem pairsOf_cons_perm (r : Row) (h : (pairsOf txn tm rows).Perm (pairsOf txn tm rows')) :
    (pairsOf txn tm (r :: rows)).Perm (pairsOf txn tm (r :: rows')) := by
  rw [pairsOf_cons, pairsOf_cons]
  split
  · exact h.cons _
  · exact h

theorem Answers.yields {a : Option Bytes} (h : Answers cmp rows tm txn key a) :
    Yields cmp (pairsOf txn tm rows) key a := by
  cases a with
  | some v =>
    obtain ⟨r, hr, hkey, hvisible, rfl⟩ := h
    exact ⟨r.key, mem_pairsOf.mpr ⟨r, hr, hvisible, rfl⟩, hkey⟩
  | none =>
    intro x hx hkey
    obtain ⟨r, hr, hvisible, rfl⟩ := mem_pairsOf.mp hx
    rw [h r hr hkey] at hvisible
    cases hvisible

theorem Yields.perm {pairs pairs' : List (Bytes × Bytes)} {a : Option Bytes}
    (h : Yields cmp pairs key a) (hperm : pairs.Perm pairs') : Yields cmp pairs' key a := by
  cases a with
  | some v =>
    obtain ⟨k, hk, hkey⟩ := h
    exact ⟨k, hperm.mem_iff.mp hk, hkey⟩
  | none => exact fun x hx => h x (hperm.mem_iff.mpr hx)

/-! ## Versions that go -/

/-- What a running transaction is shown is of use. -/
theorem not_vacuumable_of_visible (hg : d.txns.Good) (htxn : d.Running txn) (hr : Intact d r)
    (hvisible : txn.is_visible r.xmin r.xmax d.tm = true) : ¬ Vacuumable d.tm r := by
  intro hvacuumable
  unfold Vacuumable is_vacuumable at hvacuumable
  rw [if_neg (settled_status_of_visible hg htxn hvisible)] at hvacuumable
  split_ifs at hvacuumable with hstays
  obtain ⟨h0, hcommitted⟩ := not_or.mp hstays
  have hlt := of_decide_eq_true hvacuumable
  obtain ⟨hne, hown | hsees⟩ := transaction_is_visible_iff.mp hvisible
  · rcases hr.ended with h | h | h
    · exact h0 h
    · exact hne (h.trans hown)
    rw [hown, htxn.2] at h
    rcases h with h | h <;> cases h
  have haborted : d.tm.is_aborted r.xmax = false := by
    rw [Bool.eq_false_iff]
    intro ha
    apply hcommitted
    unfold TransactionManager.settled_status
    rw [if_neg ?_, if_pos ha]
    · exact nofun
    rw [hg.is_committed_iff h0]
    rcases (hg.is_aborted_iff _).mp ha with hphase | hphase <;> rw [hphase] <;> simp
  have hmin := htxn.global_xmin_le hg
  have hholder := hg.holder _ htxn.1
  have hle : txn.snapshot.xmin ≤ txn.snapshot.xmax := hholder.xmin_le
  refine (is_visible_iff.mp hsees).2.elim h0 fun hunseen => ?_
  rw [Bool.eq_false_iff, Ne, snapshot_is_committed_iff] at hunseen
  refine hunseen (.inr ⟨by omega, fun hactive => ?_, haborted⟩)
  have hge : txn.snapshot.xmin ≤ r.xmax := hholder.active_ge _ hactive
  omega

theorem Pruned.pairs (hg : d.txns.Good) (htxn : d.Running txn) (hrows : ∀ r ∈ rows, Intact d r)
    (h : Pruned d.tm rows rows') : (pairsOf txn d.tm rows').Perm (pairsOf txn d.tm rows) := by
  obtain ⟨gone, hperm, hgone⟩ := h
  refine .trans ?_ (pairsOf_perm hperm.symm)
  have hnone : gone.filter (fun r => txn.is_visible r.xmin r.xmax d.tm) = [] := by
    refine filter_eq_nil_iff.mpr fun r hr hvisible => ?_
    have hmem := hperm.mem_iff.mpr (mem_append_left _ hr)
    exact not_vacuumable_of_visible hg htxn (hrows r hmem) hvisible (hgone r hr)
  unfold pairsOf
  rw [filter_append, hnone, nil_append]

/-! ## What a call does to the pairs -/

theorem Good.pairs_eq (hg : Good cmp w levels) (txn : Transaction) :
    w.pairs txn = pairsOf txn w.tm (stored w levels) := by
  unfold World.pairs
  rw [hg.versions_eq]

theorem Onward.pairs_eq (h : Onward cmp w levels w' levels') (txn : Transaction) :
    w'.pairs txn = pairsOf txn w.tm (stored w' levels') := by
  rw [h.good.pairs_eq, h.tm]

/-- Versions that are of no use have been shown to nobody. -/
theorem Onward.pairs_of_pruned (h : Onward cmp w levels w' levels') (hg : Good cmp w levels)
    (hreader : w.Running reader) (hrows : ∀ x ∈ rows, Intact w.toDurable x)
    (hpruned : Pruned w.tm rows (stored w' levels')) :
    (w'.pairs reader).Perm (pairsOf reader w.tm rows) := by
  rw [h.pairs_eq]
  exact hpruned.pairs hg.sound.txns hreader hrows

/-- The pairs are as they were, if nothing failed behind the first change of a version. -/
def Unharmed (w : World) (io : Limits) (reader : Transaction) (w' : World) : Prop :=
  io.late_faults = [] → (w'.pairs reader).Perm (w.pairs reader)

section Views

variable (hg : Good cmp w levels) (hreader : w.Running reader)

include hg

theorem Refused.unharmed (h : Refused cmp (w.enter io) levels key txn e w') :
    Unharmed w io reader w' := by
  intro _
  obtain ⟨levels', hs⟩ := h.structural
  rw [hg.pairs_eq, hs.pairs_eq, hs.stored_eq (hg.enter io)]
  exact .refl _

theorem Picked.intact (h : Picked cmp w.tm key txn (stored w levels) front r back)
    (htxn : w.Running txn) :
    ∀ x ∈ front ++ { r with xmax := txn.txn_id } :: back, Intact w.toDurable x := by
  have hold : ∀ x ∈ front ++ r :: back, Intact w.toDurable x := h.rows ▸ fun _ => hg.intact
  simp only [mem_append, mem_cons] at hold ⊢
  rintro x (hx | rfl | hx)
  · exact hold x (.inl hx)
  · exact (hold r (.inr (.inl rfl))).stamp hg.sound.txns htxn h.visible
  · exact hold x (.inr (.inr hx))

include hreader

theorem Failed.unharmed (h : Failed cmp (w.enter io) levels e w') : Unharmed w io reader w' := by
  intro hlate
  obtain ⟨levels', ha⟩ := h.advances
  rw [hg.pairs_eq]
  exact ha.toOnward.pairs_of_pruned (hg.enter io) hreader (fun _ => hg.intact)
    (ha.pruned (h.early hlate))

theorem NoRoom.pairs {size : Nat} (h : NoRoom cmp (w.enter io) levels key size rows e w')
    (hrows : ∀ x ∈ rows, Intact w.toDurable x) :
    (w'.pairs reader).Perm (pairsOf reader w.tm rows) := by
  obtain ⟨levels', ha, hpruned⟩ := h.advances
  exact ha.toOnward.pairs_of_pruned (hg.enter io) hreader hrows hpruned

variable [Std.TransCmp cmp] (htxn : w.Running txn)

include htxn

/-- What anyone is shown after an insert. -/
theorem insert_views (hgentle : Gentle cmp w (.insert txn key value io)) :
    Ends (fun n => insert cmp n key value txn) (w.enter io)
      (fun _ w' => Verdict cmp w.tm txn key (stored w levels) (.ok ()) ∧ ∃ pages,
        (w'.pairs reader).Perm
          (pairsOf reader w.tm (newRow key value pages txn :: stored w levels)))
      (fun _ w' => Unharmed w io reader w') := by
  refine (insert_ends (hg.enter io) htxn hgentle.1 (hg.keepsFor hgentle.2)).imp ?_ ?_
  · rintro _ w' ⟨hclear, levels', pages, hs⟩
    obtain ⟨rest, hpruned, hperm⟩ := hs.rows
    refine ⟨hclear, pages, ?_⟩
    rw [hs.pairs_eq]
    exact (pairsOf_perm hperm).trans
      (pairsOf_cons_perm _ (hpruned.pairs hg.sound.txns hreader fun _ => hg.intact))
  rintro e w' (hf | hn | hr)
  · exact hf.unharmed hg hreader
  · intro _
    rw [hg.pairs_eq]
    exact hn.pairs hg hreader fun _ => hg.intact
  · exact hr.unharmed hg

/-- What anyone is shown after an update. If its new version finds no room, it has deleted the old
one. -/
theorem update_views (hgentle : Gentle cmp w (.update txn key value io)) :
    Ends (fun n => update cmp n key value txn) (w.enter io)
      (fun _ w' => ∃ front r back pages, Picked cmp w.tm key txn (stored w levels) front r back ∧
        (w'.pairs reader).Perm (pairsOf reader w.tm
          (newRow key value pages txn :: { r with xmax := txn.txn_id } :: (front ++ back))))
      (fun e w' => Unharmed w io reader w' ∨ e = .Page ∧ ∃ front r back,
        Picked cmp w.tm key txn (stored w levels) front r back ∧ (w'.pairs reader).Perm
          (pairsOf reader w.tm ({ r with xmax := txn.txn_id } :: (front ++ back)))) := by
  refine (update_ends (hg.enter io) htxn hgentle.1 (hg.keepsFor hgentle.2)).imp ?_ ?_
  · rintro _ w' ⟨levels', hu⟩
    obtain ⟨front, r, back, pages, rest, hpicked, hpruned, hperm⟩ := hu.rows
    have hrest := hpruned.pairs hg.sound.txns hreader (hpicked.intact hg htxn)
    refine ⟨front, r, back, pages, hpicked, ?_⟩
    rw [hu.pairs_eq]
    exact (pairsOf_perm hperm).trans
      (pairsOf_cons_perm _ (hrest.trans (pairsOf_perm perm_middle)))
  rintro e w' (hf | ⟨front, r, back, hpicked, hn⟩ | hr)
  · exact .inl (hf.unharmed hg hreader)
  · exact .inr ⟨hn.error, front, r, back, hpicked,
      (hn.pairs hg hreader (hpicked.intact hg htxn)).trans (pairsOf_perm perm_middle)⟩
  · exact .inl (hr.unharmed hg)

/-- What anyone is shown after a delete. -/
theorem delete_views (key : Bytes) (io : Limits) :
    Ends (fun n => delete cmp n key txn) (w.enter io)
      (fun _ w' => ∃ front r back, Picked cmp w.tm key txn (stored w levels) front r back ∧
        (w'.pairs reader).Perm
          (pairsOf reader w.tm ({ r with xmax := txn.txn_id } :: (front ++ back))))
      (fun _ w' => Unharmed w io reader w') := by
  refine (delete_ends (hg.enter io) htxn key).imp ?_ ?_
  · intro _ w' hd
    obtain ⟨front, r, back, hpicked, hafter⟩ := hd.rows
    refine ⟨front, r, back, hpicked, ?_⟩
    rw [hd.pairs_eq, hafter]
    exact pairsOf_perm perm_middle
  rintro e w' (hb | hr)
  · exact (hb.failed (hg.enter io)).unharmed hg hreader
  · exact hr.unharmed hg

end Views

theorem Picked.pairs (h : Picked cmp tm key txn rows front r back) (reader : Transaction) :
    (pairsOf reader tm rows).Perm (pairsOf reader tm (r :: (front ++ back))) := by
  rw [h.rows]
  exact pairsOf_perm perm_middle

/-! ## Calls of the transaction itself -/

theorem pairsOf_newRow (hg : d.txns.Good) (htxn : d.Running txn) (pages : List Nat) :
    pairsOf txn d.tm (newRow key value pages txn :: rows) =
      (key, value) :: pairsOf txn d.tm rows := by
  have h0 : txn.txn_id ≠ 0 := hg.holder_id_ne_zero htxn.1
  rw [pairsOf_cons]
  exact if_pos (transaction_is_visible_iff.mpr ⟨h0.symm, .inl rfl⟩)

theorem pairsOf_stamped (r : Row) (rows : List Row) :
    pairsOf txn tm ({ r with xmax := txn.txn_id } :: rows) = pairsOf txn tm rows := by
  rw [pairsOf_cons, if_neg fun h => (transaction_is_visible_iff.mp h).1 rfl]

/-- The pair of the picked version is among those of its picker. -/
theorem Picked.own (h : Picked cmp tm key txn rows front r back) :
    (pairsOf txn tm rows).Perm (r.pair :: pairsOf txn tm (front ++ back)) := by
  have hpairs := h.pairs txn
  rwa [pairsOf_cons, if_pos h.visible] at hpairs

theorem Picked.taken (h : Picked cmp tm key txn rows front r back)
    {pairs : List (Bytes × Bytes)} (hpairs : pairs.Perm
      (pairsOf txn tm ({ r with xmax := txn.txn_id } :: (front ++ back)))) :
    ∃ x, cmp x.1 key = .eq ∧ (pairsOf txn tm rows).Perm (x :: pairs) := by
  rw [pairsOf_stamped] at hpairs
  exact ⟨r.pair, h.key, h.own.trans (hpairs.symm.cons _)⟩

/-! ## Calls of others -/

section Others

variable (hg : d.txns.Good) (htxn : d.Running txn) (hreader : d.Running reader)
  (hne : txn.txn_id ≠ reader.txn_id)

include hg htxn hreader

theorem unseen_running : reader.snapshot.is_committed txn.txn_id d.tm = false := by
  rw [Bool.eq_false_iff, Ne, hg.sees_iff hreader.1]
  rintro (h0 | ⟨-, -, hphase⟩)
  · exact hg.holder_id_ne_zero htxn.1 h0
  rw [htxn.2] at hphase
  cases hphase

include hne

theorem pairsOf_newRow_beside (pages : List Nat) :
    pairsOf reader d.tm (newRow key value pages txn :: rows) = pairsOf reader d.tm rows := by
  rw [pairsOf_cons, if_neg]
  intro h
  obtain ⟨-, hown | hsees⟩ := transaction_is_visible_iff.mp h
  · exact hne hown
  · cases (unseen_running hg htxn hreader).symm.trans (is_visible_iff.mp hsees).1

/-- Whoever is shown the stamped version was shown it before: its former deleter, if any, has
aborted. -/
theorem Picked.beside (h : Picked cmp d.tm key txn rows front r back) :
    (pairsOf reader d.tm ({ r with xmax := txn.txn_id } :: (front ++ back))).Perm
      (pairsOf reader d.tm rows) := by
  refine .trans ?_ (h.pairs reader).symm
  have hformer : r.xmax ≠ reader.txn_id ∧
      (r.xmax = 0 ∨ reader.snapshot.is_committed r.xmax d.tm = false) := by
    rcases check_write_conflict_ok_iff.mp h.clear with h0 | hself | ⟨-, haborted⟩
    · exact ⟨h0 ▸ (hg.holder_id_ne_zero hreader.1).symm, .inl h0⟩
    · exact absurd hself (transaction_is_visible_iff.mp h.visible).1
    refine ⟨fun hown => ?_, or_iff_not_imp_left.mpr fun h0 => ?_⟩
    · rw [hown, hg.is_aborted_iff, hreader.2] at haborted
      rcases haborted with h | h <;> cases h
    rw [Bool.eq_false_iff, Ne, snapshot_is_committed_iff]
    rintro (h | ⟨-, -, h⟩)
    · exact h0 h
    · cases haborted.symm.trans h
  have hvisible : reader.is_visible r.xmin txn.txn_id d.tm =
      reader.is_visible r.xmin r.xmax d.tm := by
    rw [Bool.eq_iff_iff, transaction_is_visible_iff, transaction_is_visible_iff, is_visible_iff,
      is_visible_iff]
    simp only [hne, hformer, unseen_running hg htxn hreader, ne_eq, not_false_eq_true, or_true]
  rw [pairsOf_cons, pairsOf_cons, hvisible]
  exact .refl _

end Others

/-! ## The two laws -/

variable [Std.TransCmp cmp]

/-- After gentle steps the index is a bag of pairs to a running transaction: a lookup answers from
the bag, an insert adds a pair with a new key, an update replaces a pair of the key and a delete
takes one out. A call that fails does nothing to them, except that an update without room has
deleted a pair. -/
theorem own_calls_act_on_the_pairs (h : Gently cmp w) (htxn : w.Running txn)
    (key value : Bytes) (io : Limits) :
    Ends (fun n => get cmp n key txn) (w.enter io)
        (fun a w' => Yields cmp (w.pairs txn) key a ∧ w'.pairs txn = w.pairs txn)
        (fun _ w' => Unharmed w io txn w') ∧
      (Gentle cmp w (.insert txn key value io) →
        Ends (fun n => insert cmp n key value txn) (w.enter io)
          (fun _ w' => Yields cmp (w.pairs txn) key none ∧
            (w'.pairs txn).Perm ((key, value) :: w.pairs txn))
          (fun _ w' => Unharmed w io txn w')) ∧
      (Gentle cmp w (.update txn key value io) →
        Ends (fun n => update cmp n key value txn) (w.enter io)
          (fun _ w' => ∃ x rest, cmp x.1 key = .eq ∧ (w.pairs txn).Perm (x :: rest) ∧
            (w'.pairs txn).Perm ((key, value) :: rest))
          (fun e w' => Unharmed w io txn w' ∨ e = .Page ∧ ∃ x, cmp x.1 key = .eq ∧
            (w.pairs txn).Perm (x :: w'.pairs txn))) ∧
      Ends (fun n => delete cmp n key txn) (w.enter io)
        (fun _ w' => ∃ x, cmp x.1 key = .eq ∧ (w.pairs txn).Perm (x :: w'.pairs txn))
        (fun _ w' => Unharmed w io txn w') := by
  obtain ⟨levels, hg⟩ := h.good
  have hge := hg.enter io
  rw [hg.pairs_eq]
  refine ⟨?_, fun hgentle => ?_, fun hgentle => ?_, ?_⟩
  · refine (get_ends hge key txn).imp ?_ fun _ _ hb => (hb.failed hge).unharmed hg htxn
    rintro a w' ⟨hs, ha⟩
    refine ⟨ha.yields, ?_⟩
    rw [hs.pairs_eq, hs.toStructural.stored_eq hge]
    rfl
  · refine (insert_views hg htxn htxn hgentle).imp ?_ fun _ _ h => h
    rintro _ w' ⟨hclear, pages, hpairs⟩
    rw [pairsOf_newRow hg.sound.txns htxn] at hpairs
    refine ⟨fun x hx hkey => ?_, hpairs⟩
    obtain ⟨r, hr, hvisible, rfl⟩ := mem_pairsOf.mp hx
    have hone := check_insert_conflict_ok_iff.mp (hclear r hr hkey) _ (mem_singleton.mpr rfl)
    cases hvisible.symm.trans hone.2.1
  · refine (update_views hg htxn htxn hgentle).imp ?_ ?_
    · rintro _ w' ⟨front, r, back, pages, hpicked, hpairs⟩
      rw [pairsOf_newRow hg.sound.txns htxn, pairsOf_stamped] at hpairs
      exact ⟨r.pair, _, hpicked.key, hpicked.own, hpairs⟩
    rintro e w' (hu | ⟨he, front, r, back, hpicked, hpairs⟩)
    · exact .inl hu
    · exact .inr ⟨he, hpicked.taken hpairs⟩
  refine (delete_views hg htxn htxn key io).imp ?_ fun _ _ h => h
  rintro _ w' ⟨front, r, back, hpicked, hpairs⟩
  exact hpicked.taken hpairs

theorem an_insert_adds_its_pair : ∃ w, Gently byBytes w ∧
    Ends (fun n => insert byBytes n [4] [7] (alone 2)) (w.enter calm)
      (fun _ w' => Yields byBytes (w.pairs (alone 2)) [4] none ∧
        (w'.pairs (alone 2)).Perm (([4], [7]) :: w.pairs (alone 2)))
      (fun _ w' => Unharmed w calm (alone 2) w') := by
  obtain ⟨w, h, htxn, -, hgentle, -⟩ := twoLeaves_ends
  exact ⟨w, h, (own_calls_act_on_the_pairs h htxn [4] [7] calm).2.1 hgentle⟩

/-- A call or an end of someone else, with nothing that fails late. -/
def Event.Beside (reader : Transaction) : Event → Prop
  | .txn _ => True
  | .insert txn _ _ io | .update txn _ _ io | .delete txn _ io =>
    txn.txn_id ≠ reader.txn_id ∧ io.late_faults = []
  | .vacuum io => io.late_faults = []
  | .crash _ _ | .crash_after_failure _ => False

instance (reader : Transaction) (e : Event) : Decidable (e.Beside reader) := by
  induction e using Event.casesOn <;> dsimp only [Event.Beside] <;> infer_instance

/-- A gentle step of others while the reader runs. -/
abbrev Beside (cmp : Compare) (reader : Transaction) (w : World) (e : Event) : Prop :=
  Gentle cmp w e ∧ w.Running reader ∧ e.Beside reader

theorem pairs_step {e : Event} (hg : Good cmp w levels) (hok : Beside cmp reader w e)
    (h : w.step cmp e = some w') : (w'.pairs reader).Perm (w.pairs reader) := by
  obtain ⟨hgentle, hreader, hok⟩ := hok
  have hsame := hg.pairs_eq reader
  cases e with
  | txn e =>
    obtain ⟨txns, htxns, rfl⟩ := Option.map_eq_some_iff.mp h
    have hsees : ∀ x, reader.snapshot.is_committed x txns.tm =
        reader.snapshot.is_committed x w.tm :=
      Txns.sees_stable hg.sound.txns (Txns.good_step hg.sound.txns htxns)
        (Txns.later_step hg.sound.txns htxns) hreader.1
    refine .of_eq (congrArg (map Row.pair) (filter_congr fun r _ => ?_))
    rw [Bool.eq_iff_iff, transaction_is_visible_iff, transaction_is_visible_iff, is_visible_iff,
      is_visible_iff, ← hsees, ← hsees]
  | insert txn key value io =>
    obtain ⟨htxn, h⟩ := Option.ite_none_right_eq_some.mp h
    rcases leave_ends (insert_views hg hreader htxn hgentle) h with ⟨-, pages, hpairs⟩ | ⟨e, hu⟩
    · rwa [pairsOf_newRow_beside hg.sound.txns htxn hreader hok.1, ← hsame] at hpairs
    · exact hu hok.2
  | update txn key value io =>
    obtain ⟨htxn, h⟩ := Option.ite_none_right_eq_some.mp h
    rw [hsame]
    rcases leave_ends (update_views hg hreader htxn hgentle) h with
      ⟨front, r, back, pages, hpicked, hpairs⟩ | ⟨e, hu | ⟨-, front, r, back, hpicked, hpairs⟩⟩
    · rw [pairsOf_newRow_beside hg.sound.txns htxn hreader hok.1] at hpairs
      exact hpairs.trans (hpicked.beside hg.sound.txns htxn hreader hok.1)
    · exact hsame ▸ hu hok.2
    · exact hpairs.trans (hpicked.beside hg.sound.txns htxn hreader hok.1)
  | delete txn key io =>
    obtain ⟨htxn, h⟩ := Option.ite_none_right_eq_some.mp h
    rcases leave_ends (delete_views hg hreader htxn key io) h with
      ⟨front, r, back, hpicked, hpairs⟩ | ⟨e, hu⟩
    · rw [hsame]
      exact hpairs.trans (hpicked.beside hg.sound.txns htxn hreader hok.1)
    · exact hu hok.2
  | vacuum io =>
    rcases leave_ends (vacuum_ends (hg.enter io) hg.leaves_eq hgentle.sweepable) h with
      hs | ⟨e, hf⟩
    · rw [hsame]
      exact hs.toOnward.pairs_of_pruned (hg.enter io) hreader (fun _ => hg.intact) hs.dropped
    · exact hf.unharmed hg hreader hok
  | crash | crash_after_failure => exact hok.elim

/-- After gentle steps, the pairs that a running transaction is shown stay the same along every run
of calls and ends of others and of sweeps, and its lookups keep answering from them. -/
theorem a_reader_is_shown_the_same_pairs (h : Gently cmp w) {es : List Event}
    (hok : Runs.Meets (World.step cmp) (Beside cmp reader) w es)
    (hrun : Runs.run (World.step cmp) w es = some w') (key : Bytes) (io : Limits) :
    (w'.pairs reader).Perm (w.pairs reader) ∧
      Ends (fun n => get cmp n key reader) (w'.enter io)
        (fun a _ => Yields cmp (w.pairs reader) key a)
        (fun e _ => e = .BufferPool ∨ e = .Wal) := by
  have hend : (∃ levels, Good cmp w' levels) ∧ (w'.pairs reader).Perm (w.pairs reader) := by
    refine Runs.inv_run_meets (I := fun v => (∃ levels, Good cmp v levels) ∧
      (v.pairs reader).Perm (w.pairs reader)) ?_ ⟨h.good, .refl _⟩ hok hrun
    rintro v e v' ⟨⟨levels, hg⟩, hperm⟩ hok hstep
    exact ⟨good_step ⟨levels, hg⟩ hok.1 hstep, (pairs_step hg hok hstep).trans hperm⟩
  obtain ⟨⟨levels, hg⟩, hperm⟩ := hend
  refine ⟨hperm, (get_ends (hg.enter io) key reader).imp ?_ fun _ _ hb => hb.error⟩
  rintro a w'' ⟨-, ha⟩
  refine Yields.perm ?_ hperm
  rw [hg.pairs_eq]
  exact ha.yields

/-- While the second transaction runs, a third one changes two rows and commits. -/
def besideTheSecond : List Event :=
  let third : Transaction := ⟨3, ⟨2, 4, [3, 2]⟩⟩
  beginEvents 3 ++ [.insert third [4] [7] calm, .update third [1] [8] calm,
    .txn (.commit_clog 3), .txn (.commit_active 3), .vacuum calm]

theorem the_second_is_shown_the_same_pairs : ∃ w w', Gently byBytes w ∧
    Runs.run (World.step byBytes) w besideTheSecond = some w' ∧
    (w'.pairs (alone 2)).Perm (w.pairs (alone 2)) := by
  have hend : ∃ w, Runs.run (World.step byBytes) .create (threeRows [] ++ beginEvents 2) = some w ∧
      Runs.Meets (World.step byBytes) (Beside byBytes (alone 2)) w besideTheSecond ∧
      (Runs.run (World.step byBytes) w besideTheSecond).isSome :=
    Runs.exists_run (by decide +kernel)
  obtain ⟨w, hrun, hok, hsome⟩ := hend
  obtain ⟨w', hrun'⟩ := Option.isSome_iff_exists.mp hsome
  have h : Gently byBytes w := ⟨_, by decide +kernel, hrun⟩
  exact ⟨w, w', h, hrun', (a_reader_is_shown_the_same_pairs h hok hrun' [] calm).1⟩

end FluxDB.Tree
