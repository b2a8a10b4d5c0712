-- Truncation of the CLOG. Vacuum sweeps erase the versions that aborted transactions
-- created, so the entries of those transactions can go. The stamps that aborted
-- transactions left as deleters stay, and the entries that void them must not go.
import FluxDB.VersionStore

namespace FluxDB

open Maps List Option

/-- Drop the entries that no stored version is thought to need: committed ones below the
caller's horizon, aborted ones below the horizon of the last completed sweep. -/
def TransactionManager.truncate_clog (tm : TransactionManager)
    (vacuum_horizon committed_horizon : Nat) : TransactionManager :=
  { tm with clog := retain tm.clog fun txn_id status =>
      match status with
      | .Active => true
      | .Committed => decide (committed_horizon ≤ txn_id)
      | .Aborted => decide (vacuum_horizon ≤ txn_id) }

/-! ## The index under vacuum -/

/-- The sweep in progress: the horizon it read first, the number of versions there were,
and the slots that it has looked at. -/
structure VacuumSweep where
  global_xmin : Nat
  since : Nat
  visited : List Nat
  deriving DecidableEq, Repr

/-- The version store with the slots that compactions have emptied. -/
structure Vacuumed (K V : Type*) where
  store : Store K V
  gone : List Nat
  sweep : Option VacuumSweep
  vacuum_horizon : Nat

inductive VacuumEvent (K V : Type*)
  | txn (e : TxnEvent)
  | create (t : Nat) (key : K) (val : V)
  | stamp (txn : Transaction) (slot : Nat)
  | compact (slot : Nat)
  | sweep_start
  | sweep_visit (slot : Nat)
  | sweep_abandon
  | sweep_finish

variable {slot t : Nat}

namespace Vacuumed

variable {K V : Type*}

def new : Vacuumed K V where
  store := .new
  gone := []
  sweep := none
  vacuum_horizon := 0

abbrev tm (w : Vacuumed K V) : TransactionManager := w.store.txns.tm

/-- The version in a slot, unless a compaction has removed it. -/
def stored (w : Vacuumed K V) (slot : Nat) : Option (Version K V) :=
  if slot ∈ w.gone then none else w.store.versions[slot]?

/-- One step. An insert that finds its leaf full compacts it with the horizon of that
moment (`compact`); a sweep compacts leaf after leaf with the horizon it began with. -/
def step (w : Vacuumed K V) : VacuumEvent K V → Option (Vacuumed K V)
  | .txn e => (w.store.step (.txn e)).map fun store => { w with store }
  | .create t key val => (w.store.step (.create t key val)).map fun store => { w with store }
  | .stamp txn slot =>
    if slot ∈ w.gone then none
    else (w.store.step (.stamp txn slot)).map fun store => { w with store }
  | .compact slot =>
    match w.stored slot with
    | some v =>
      if is_vacuumable v.xmin v.xmax w.tm.global_xmin w.tm then
        some { w with gone := slot :: w.gone }
      else none
    | none => none
  | .sweep_start =>
    match w.sweep with
    | none =>
      some { w with sweep := some { global_xmin := w.tm.global_xmin,
                                    since := w.store.versions.length, visited := [] } }
    | some _ => none
  | .sweep_visit slot =>
    match w.sweep, w.stored slot with
    | some s, some v =>
      some { w with gone := if is_vacuumable v.xmin v.xmax s.global_xmin w.tm then slot :: w.gone
                            else w.gone
                    sweep := some { s with visited := slot :: s.visited } }
    | _, _ => none
  | .sweep_abandon =>
    match w.sweep with
    | some _ => some { w with sweep := none }
    | none => none
  | .sweep_finish =>
    match w.sweep with
    | some s =>
      some { w with sweep := none, vacuum_horizon := max w.vacuum_horizon s.global_xmin }
    | none => none

/-- A sweep that completes has looked at every version that was stored when it began. -/
def SweepCovers (w : Vacuumed K V) : VacuumEvent K V → Prop
  | .sweep_finish =>
    match w.sweep with
    | some s => ∀ slot ∈ List.range s.since, slot ∈ w.gone ∨ slot ∈ s.visited
    | none => True
  | _ => True

instance (w : Vacuumed K V) (e : VacuumEvent K V) : Decidable (w.SweepCovers e) := by
  cases e <;> dsimp only [SweepCovers]
  case sweep_finish => split <;> infer_instance
  all_goals infer_instance

/-! ## What truncation must not change -/

/-- The same index with another manager. -/
def withTm (w : Vacuumed K V) (tm : TransactionManager) : Vacuumed K V :=
  { w with store := { w.store with txns := { w.store.txns with tm } } }

def truncate_clog (w : Vacuumed K V) (committed_horizon : Nat) : Vacuumed K V :=
  w.withTm (w.tm.truncate_clog w.vacuum_horizon committed_horizon)

/-- The handle is in use, or it is the one that a reader gets who comes now. -/
def InUse (w : Vacuumed K V) (txn : Transaction) : Prop :=
  (∃ h ∈ w.store.txns.holders, w.store.txns.Live h ∧ h.txn = txn) ∨
    txn = { txn_id := u64Max, snapshot := w.tm.get_snapshot }

/-- The two indexes store the same versions and answer the same about each of them, to
every handle in use. -/
structure SameAnswers (w w' : Vacuumed K V) : Prop where
  stored : ∀ slot, w'.stored slot = w.stored slot
  visible : ∀ slot v txn, w.stored slot = some v → w.InUse txn →
    txn.is_visible v.xmin v.xmax w'.tm = txn.is_visible v.xmin v.xmax w.tm
  vacuumable : ∀ slot v horizon, w.stored slot = some v →
    is_vacuumable v.xmin v.xmax horizon w'.tm = is_vacuumable v.xmin v.xmax horizon w.tm
  conflict : ∀ slot v txn, w.stored slot = some v → w.InUse txn →
    check_write_conflict w'.tm txn v.xmax = check_write_conflict w.tm txn v.xmax

/-- Nobody notices the truncation, now or later: whatever happens from here on can happen
after the truncation too, with the same answers. -/
def Invisible (w : Vacuumed K V) (committed_horizon : Nat) : Prop :=
  ∀ es w₁, Runs.run step w es = some w₁ →
    ∃ w₂, Runs.run step (w.truncate_clog committed_horizon) es = some w₂ ∧ w₁.SameAnswers w₂

/-! ## The invariant -/

structure SweepGood (w : Vacuumed K V) (s : VacuumSweep) : Prop where
  horizon : s.global_xmin ≤ w.tm.global_xmin
  visited : ∀ slot ∈ s.visited, ∀ v, w.stored slot = some v → w.store.Aborted v.xmin →
    s.global_xmin ≤ v.xmin
  since : ∀ slot v, s.since ≤ slot → w.stored slot = some v → s.global_xmin ≤ v.xmin

structure Good (w : Vacuumed K V) : Prop where
  store : w.store.Good
  horizon : w.vacuum_horizon ≤ w.tm.global_xmin
  swept : ∀ slot v, w.stored slot = some v → w.store.Aborted v.xmin → w.vacuum_horizon ≤ v.xmin
  sweep : ∀ s, w.sweep = some s → w.SweepGood s

theorem good_new : (new : Vacuumed K V).Good where
  store := Store.good_new
  horizon := Nat.zero_le _
  swept slot v h := by simp [new, stored, Store.new] at h
  sweep s h := by simp [new] at h

variable {v : Version K V} {x : Nat}

section Steps

variable {w w' : Vacuumed K V}

theorem stored_eq_some :
    w.stored slot = some v ↔ slot ∉ w.gone ∧ w.store.versions[slot]? = some v := by
  unfold stored
  split <;> simp_all

variable {g : Nat} {store : Store K V} {e : StoreEvent K V}

section

variable (hg : w.Good)

include hg

/-- A creator below a horizon that was reached has ended, and its fate is known. -/
theorem Good.settled (h0 : x ≠ 0) (hx : x < g) (hle : g ≤ w.tm.global_xmin) :
    (w.store.phase x).Settled :=
  Txns.settled_of_lt_global_xmin hg.store.txns h0 (hx.trans_le hle)

theorem global_xmin_le_store (h : w.store.step e = some store) :
    w.tm.global_xmin ≤ store.tm.global_xmin := by
  cases Store.step_kind hg.store h with
  | txn e txns hs eq => subst eq; exact Txns.global_xmin_le_step hg.store.txns hs
  | create t key val hp eq | stamp txn slot v hr hv hx eq | sweep s eq => subst eq; exact le_rfl

/-- A version whose creator lies behind a horizon was there before the step, and what the
CLOG says about the creator is not new. So what bounded the old creators bounds the new ones. -/
theorem le_xmin_of_old (h : w.store.step e = some store) (hle : g ≤ w.tm.global_xmin)
    (hv : stored { w with store } slot = some v)
    (hold : ∀ u, w.stored slot = some u → (store.Aborted v.xmin → w.store.Aborted u.xmin) →
      g ≤ u.xmin) : g ≤ v.xmin := by
  by_contra hlt
  obtain ⟨hgone, hv⟩ := stored_eq_some.mp hv
  have hg' := Store.good_step hg.store h
  have hl := Store.later_step hg.store h
  have h0 := hg'.wrote_ne_zero (hg'.xmin v (mem_of_getElem? hv))
  have hset := hg.settled h0 (Nat.not_le.mp hlt) hle
  cases hu : w.store.versions[slot]? with
  | none => exact absurd hset.final (hl.created slot v hv hu)
  | some u =>
    obtain ⟨v', hv', hvl⟩ := hl.versions slot u hu
    rw [hv] at hv'
    cases hv'
    refine hlt (hvl.xmin ▸ hold u (stored_eq_some.mpr ⟨hgone, hu⟩) fun ha => ?_)
    rw [← hvl.xmin, Store.Aborted, Store.phase, ← (hl.txns.phase v.xmin).eq_of_settled hset]
    exact ha

theorem good_store (h : w.store.step e = some store) : Good { w with store } where
  store := Store.good_step hg.store h
  horizon := hg.horizon.trans (global_xmin_le_store hg h)
  swept slot v hv ha := le_xmin_of_old hg h hg.horizon hv fun u hu hab =>
    hg.swept slot u hu (hab ha)
  sweep s hs := by
    have hgood := hg.sweep s hs
    refine ⟨hgood.horizon.trans (global_xmin_le_store hg h), fun slot hslot v hv ha => ?_,
      fun slot v hslot hv => ?_⟩
    · exact le_xmin_of_old hg h hgood.horizon hv fun u hu hab =>
        hgood.visited slot hslot u hu (hab ha)
    · exact le_xmin_of_old hg h hgood.horizon hv fun u hu _ => hgood.since slot u hslot hu

/-- A compaction takes versions away and changes nothing else. -/
theorem Good.gone {gone : List Nat} (hsub : ∀ i ∈ w.gone, i ∈ gone) :
    Good { w with gone } := by
  have hold : ∀ {i v}, stored { w with gone } i = some v → w.stored i = some v := by
    intro i v h
    obtain ⟨hi, hv⟩ := stored_eq_some.mp h
    exact stored_eq_some.mpr ⟨fun hm => hi (hsub i hm), hv⟩
  exact ⟨hg.store, hg.horizon, fun slot v hv => hg.swept slot v (hold hv), fun s hs =>
    ⟨(hg.sweep s hs).horizon, fun slot hslot v hv => (hg.sweep s hs).visited slot hslot v (hold hv),
      fun slot v hslot hv => (hg.sweep s hs).since slot v hslot (hold hv)⟩⟩

theorem is_vacuumable_of_aborted {horizon : Nat} (ha : w.store.Aborted v.xmin) :
    is_vacuumable v.xmin v.xmax horizon w.tm = true := by
  have hclog : w.tm.clog.lookup v.xmin = some .Aborted := (hg.store.txns.clog _).trans ha
  have h0 : v.xmin ≠ 0 := hg.store.wrote_ne_zero fun hnone => by
    cases ha.symm.trans hnone
  have hc : w.tm.is_committed v.xmin = false := by
    simp [TransactionManager.is_committed, h0, hclog]
  simp [is_vacuumable, TransactionManager.settled_status, hc, is_aborted_iff.mpr hclog]

theorem good_visit {s : VacuumSweep} (hs : w.sweep = some s)
    (hv : w.stored slot = some v) :
    Good { w with gone := if is_vacuumable v.xmin v.xmax s.global_xmin w.tm then slot :: w.gone
                          else w.gone
                  sweep := some { s with visited := slot :: s.visited } } := by
  have hg' : Good { w with gone := if is_vacuumable v.xmin v.xmax s.global_xmin w.tm then
      slot :: w.gone else w.gone } := by
    refine hg.gone fun i hi => ?_
    split
    · exact mem_cons_of_mem _ hi
    · exact hi
  refine { hg' with sweep := ?_ }
  rintro _ ⟨⟩
  have hgood := hg'.sweep s hs
  refine ⟨hgood.horizon, fun i hi u hu ha => ?_, hgood.since⟩
  rcases mem_cons.mp hi with rfl | hi
  · -- the visited version is still there, so its creator has not aborted
    obtain ⟨hgone, hu⟩ := stored_eq_some.mp hu
    obtain ⟨_, hv⟩ := stored_eq_some.mp hv
    rw [show w.store.versions[i]? = some u from hu] at hv
    cases hv
    simp [is_vacuumable_of_aborted hg ha] at hgone
  · exact hgood.visited i hi u hu ha

theorem good_finish {s : VacuumSweep} (hs : w.sweep = some s)
    (hcovers : ∀ slot ∈ List.range s.since, slot ∈ w.gone ∨ slot ∈ s.visited) :
    Good { w with sweep := none, vacuum_horizon := max w.vacuum_horizon s.global_xmin } where
  store := hg.store
  horizon := max_le hg.horizon (hg.sweep s hs).horizon
  swept slot v hv ha := by
    have hgood := hg.sweep s hs
    refine max_le (hg.swept slot v hv ha) ?_
    by_cases hslot : slot < s.since
    · rcases hcovers slot (mem_range.mpr hslot) with hgone | hvisited
      · exact absurd hgone (stored_eq_some.mp hv).1
      · exact hgood.visited slot hvisited v hv ha
    · exact hgood.since slot v (by omega) hv
  sweep s h := by simp at h

theorem good_step {e : VacuumEvent K V} (hok : w.SweepCovers e) (h : w.step e = some w') :
    w'.Good := by
  cases e with
  | txn e | create t key val =>
    obtain ⟨store, hs, rfl⟩ := map_eq_some_iff.mp h
    exact good_store hg hs
  | stamp txn slot =>
    simp only [step] at h
    split at h
    · simp at h
    obtain ⟨store, hs, rfl⟩ := map_eq_some_iff.mp h
    exact good_store hg hs
  | compact slot =>
    simp only [step] at h
    split at h
    swap
    · simp at h
    split at h <;> cases h
    exact hg.gone fun i hi => mem_cons_of_mem _ hi
  | sweep_start =>
    simp only [step] at h
    split at h <;> cases h
    refine { hg with sweep := ?_ }
    rintro _ ⟨⟩
    refine ⟨le_rfl, fun slot hslot => by simp at hslot, fun slot v hslot hv => ?_⟩
    have hlt := (List.getElem?_eq_some_iff.mp (stored_eq_some.mp hv).2).1
    simp only at hslot hlt
    omega
  | sweep_visit slot =>
    simp only [step] at h
    split at h <;> cases h
    rename_i s v hs hv
    exact good_visit hg hs hv
  | sweep_abandon =>
    simp only [step] at h
    split at h
    · cases h
      exact { hg with sweep := fun s h => by simp at h }
    · simp at h
  | sweep_finish =>
    simp only [step] at h
    split at h
    · next s hs =>
      cases h
      simp only [SweepCovers, hs] at hok
      exact good_finish hg hs hok
    · simp at h

end

end Steps

/-! ## A forgetful CLOG gives the same answers -/

/-- The manager with another CLOG. -/
abbrev withClog (w : Vacuumed K V) (clog : Map Nat TransactionStatus) : Vacuumed K V :=
  w.withTm { w.tm with clog }

/-- No stored version carries the id. -/
def Unused (w : Vacuumed K V) (x : Nat) : Prop :=
  ∀ slot v, w.stored slot = some v → v.xmin ≠ x ∧ v.xmax ≠ x

/-- The CLOG has lost some entries of transactions behind the horizon: committed ones, and
aborted ones that no stored version names. -/
def Forgets (w : Vacuumed K V) (clog : Map Nat TransactionStatus) : Prop :=
  ∀ x, clog.lookup x = w.tm.clog.lookup x ∨
    clog.lookup x = none ∧ x < w.tm.global_xmin ∧
      (w.tm.clog.lookup x = some .Committed ∨ w.tm.clog.lookup x = some .Aborted ∧ w.Unused x)

section Answers

variable {w : Vacuumed K V} {clog : Map Nat TransactionStatus}

section

variable (hf : w.Forgets clog) (hx : ¬ w.Unused x)

include hf hx

/-- The entry that a stored version asks for, as far as an answer can depend on it. -/
theorem Forgets.entry :
    clog.lookup x = w.tm.clog.lookup x ∨ clog.lookup x = none ∧ x < w.tm.global_xmin ∧
      w.tm.clog.lookup x = some .Committed := by
  rcases hf x with h | ⟨h, hlt, hc | ⟨_, hu⟩⟩
  · exact .inl h
  · exact .inr ⟨h, hlt, hc⟩
  · exact absurd hu hx

theorem Forgets.is_aborted : (w.withClog clog).tm.is_aborted x = w.tm.is_aborted x := by
  simp only [TransactionManager.is_aborted, withTm]
  rcases hf.entry hx with h | ⟨h, _, hc⟩
  · rw [h]
  · simp [h, hc]

theorem Forgets.settled_status : (w.withClog clog).tm.settled_status x = w.tm.settled_status x := by
  unfold TransactionManager.settled_status
  rw [hf.is_aborted hx, show (w.withClog clog).tm.global_xmin = w.tm.global_xmin from rfl]
  unfold TransactionManager.is_committed
  rcases hf.entry hx with h | ⟨h, hlt, hc⟩
  · rw [show (w.withClog clog).tm.clog.lookup x = w.tm.clog.lookup x from h]
  have hna : w.tm.is_aborted x = false := by simp [TransactionManager.is_aborted, hc]
  simp [show (w.withClog clog).tm.clog.lookup x = none from h, hc, hna, hlt]

/-- A settled transaction behind the horizon is in progress for nobody. -/
theorem Forgets.is_in_progress {s : Snapshot} (hs : w.tm.global_xmin ≤ s.xmin) :
    s.is_in_progress x (w.withClog clog).tm = s.is_in_progress x w.tm := by
  unfold Snapshot.is_in_progress
  rw [hf.is_aborted hx]
  unfold TransactionManager.is_committed
  rcases hf.entry hx with h | ⟨h, hlt, hc⟩
  · rw [show (w.withClog clog).tm.clog.lookup x = w.tm.clog.lookup x from h]
  have hlt' : x < s.xmin := by omega
  simp [show (w.withClog clog).tm.clog.lookup x = none from h, hc, hlt']

end

theorem used (hv : w.stored slot = some v) (hx : v.xmin = x ∨ v.xmax = x) : ¬ w.Unused x :=
  fun h => hx.elim (h slot v hv).1 (h slot v hv).2

theorem used_xmin (hv : w.stored slot = some v) : ¬ w.Unused v.xmin := used hv (.inl rfl)

theorem used_xmax (hv : w.stored slot = some v) : ¬ w.Unused v.xmax := used hv (.inr rfl)

theorem global_xmin_le_of_inUse (hg : w.store.Good) {txn : Transaction} (htxn : w.InUse txn) :
    w.tm.global_xmin ≤ txn.snapshot.xmin := by
  rcases htxn with ⟨h, hm, hl, rfl⟩ | rfl
  · exact Txns.global_xmin_le_of_live hg.txns hm hl
  · exact hg.txns.global_xmin_le_snapshot

theorem Forgets.check_write_conflict (hf : w.Forgets clog) (hg : w.store.Good) {txn : Transaction}
    (hv : w.stored slot = some v) (htxn : w.InUse txn) :
    FluxDB.check_write_conflict (w.withClog clog).tm txn v.xmax =
      FluxDB.check_write_conflict w.tm txn v.xmax := by
  unfold FluxDB.check_write_conflict
  rw [hf.is_aborted (used_xmax hv),
    hf.is_in_progress (used_xmax hv) (global_xmin_le_of_inUse hg htxn)]

theorem Forgets.is_vacuumable (hf : w.Forgets clog) (hv : w.stored slot = some v) (horizon : Nat) :
    FluxDB.is_vacuumable v.xmin v.xmax horizon (w.withClog clog).tm =
      FluxDB.is_vacuumable v.xmin v.xmax horizon w.tm := by
  unfold FluxDB.is_vacuumable
  rw [hf.settled_status (used_xmin hv), hf.settled_status (used_xmax hv)]

theorem Forgets.is_visible (hf : w.Forgets clog) (hv : w.stored slot = some v) (txn : Transaction) :
    txn.is_visible v.xmin v.xmax (w.withClog clog).tm = txn.is_visible v.xmin v.xmax w.tm := by
  unfold Transaction.is_visible FluxDB.is_visible Snapshot.is_committed
  rw [hf.is_aborted (used_xmin hv), hf.is_aborted (used_xmax hv)]

theorem Forgets.sameAnswers (hf : w.Forgets clog) (hg : w.store.Good) :
    w.SameAnswers (w.withClog clog) where
  stored _ := rfl
  visible _ _ txn hv _ := hf.is_visible hv txn
  vacuumable _ _ horizon hv := hf.is_vacuumable hv horizon
  conflict _ _ _ hv htxn := hf.check_write_conflict hg hv htxn

end Answers

end Vacuumed

/-! ## The two indexes in lockstep -/

namespace Txns

/-- What a step of the manager writes to the CLOG. -/
def clogAfter (clog : Map Nat TransactionStatus) : TxnEvent → Map Nat TransactionStatus
  | .begin_clog t => clog.insert t .Active
  | .commit_clog t => clog.insert t .Committed
  | .abort_clog t => clog.insert t .Aborted
  | _ => clog

/-- The manager's own steps never read the CLOG. -/
theorem step_withClog (w : Txns) (clog : Map Nat TransactionStatus) (e : TxnEvent) :
    step { w with tm := { w.tm with clog } } e =
      (w.step e).map fun w' => { w' with tm := { w'.tm with clog := clogAfter clog e } } := by
  cases e with
  | begin =>
    simp only [step, TransactionManager.begin_active]
    split <;> rfl
  | read_snapshot =>
    simp only [step]
    split <;> rfl
  | end_read token => rfl
  | begin_clog t | commit_clog t | commit_active t | abort_clog t | abort_active t =>
    simp only [step, move]
    split <;> rfl

theorem step_clog {w w' : Txns} {e : TxnEvent} (h : w.step e = some w') :
    w'.tm.clog = clogAfter w.tm.clog e := by
  have := step_withClog w w.tm.clog e
  rw [show ({ w with tm := { w.tm with clog := w.tm.clog } } : Txns) = w from rfl, h] at this
  exact congrArg (fun w => w.tm.clog) (Option.some.inj this)

end Txns

namespace Vacuumed

variable {K V : Type*} {w w' : Vacuumed K V} {clog : Map Nat TransactionStatus}

theorem store_good_step {e : VacuumEvent K V} (hg : w.store.Good) (h : w.step e = some w') :
    w'.store.Good := by
  cases e with
  | txn e | create t key val =>
    obtain ⟨store, hs, rfl⟩ := map_eq_some_iff.mp h
    exact Store.good_step hg hs
  | stamp txn slot =>
    simp only [step] at h
    split at h
    · simp at h
    obtain ⟨store, hs, rfl⟩ := map_eq_some_iff.mp h
    exact Store.good_step hg hs
  | compact slot =>
    simp only [step] at h
    split at h
    · split at h
      · cases h; exact hg
      · simp at h
    · simp at h
  | sweep_start | sweep_visit slot | sweep_abandon | sweep_finish =>
    simp only [step] at h
    split at h
    · cases h; exact hg
    · simp at h

/-- The stamps of the stored versions are old ones, or ids of running transactions. -/
def NewStamps (w w' : Vacuumed K V) : Prop :=
  ∀ slot v x, w'.stored slot = some v → v.xmin = x ∨ v.xmax = x →
    ¬ w.Unused x ∨ x = 0 ∨ w.store.phase x = .running

/-- What the CLOG has forgotten stays forgotten without harm. -/
theorem Forgets.later (hf : w.Forgets clog) (hg : w.store.Good)
    (hclog : w'.tm.clog = w.tm.clog) (hgx : w.tm.global_xmin ≤ w'.tm.global_xmin)
    (hnew : w.NewStamps w') : w'.Forgets clog := by
  intro x
  rw [hclog]
  refine (hf x).imp_right fun ⟨hnone, hlt, hx⟩ => ⟨hnone, hlt.trans_le hgx, hx.imp_right ?_⟩
  rintro ⟨ha, hu⟩
  have hopen : ∀ slot v, w'.stored slot = some v → ¬ (v.xmin = x ∨ v.xmax = x) := by
    intro slot v hv he
    have hclog := hg.txns.clog x
    rcases hnew slot v x hv he with hn | rfl | hp
    · exact hn hu
    · rw [(hg.txns.born 0).mpr (.inl rfl), ha] at hclog
      simp at hclog
    rw [show w.store.txns.phase x = .running from hp, ha] at hclog
    simp at hclog
  exact ⟨ha, fun slot v hv => ⟨fun h => hopen slot v hv (.inl h),
    fun h => hopen slot v hv (.inr h)⟩⟩

theorem newStamps_of_stored (h : ∀ slot v, w'.stored slot = some v → w.stored slot = some v) :
    w.NewStamps w' := fun slot v _ hv he => .inl (used (h slot v hv) he)

theorem newStamps_create {key : K} {val : V} (hp : w.store.phase t = .running) :
    w.NewStamps { w with store := w.store.put_version t key val } := by
  intro slot v x hv he
  obtain ⟨hgone, hv⟩ := stored_eq_some.mp hv
  rw [Store.put_version_getElem?] at hv
  split at hv
  · cases hv
    exact .inr (he.elim (fun h => .inr (h ▸ hp)) fun h => .inl h.symm)
  · exact .inl (used (stored_eq_some.mpr ⟨hgone, hv⟩) he)

theorem newStamps_stamp {v : Version K V} (hp : w.store.phase t = .running)
    (hv : w.stored slot = some v) : w.NewStamps { w with store := w.store.put_stamp t slot v } := by
  intro i u x hu he
  obtain ⟨hgone, hu⟩ := stored_eq_some.mp hu
  rw [Store.put_stamp_getElem? _ (stored_eq_some.mp hv).2] at hu
  split at hu
  · cases hu
    rcases he with rfl | rfl
    · exact .inl (used_xmin hv :)
    · exact .inr (.inr hp)
  · exact .inl (used (stored_eq_some.mpr ⟨hgone, hu⟩) he)

/-- A step of the transactions writes the same entry to both CLOGs. -/
theorem forgets_txn {txns : Txns} {e : TxnEvent} (hf : w.Forgets clog) (hg : w.store.Good)
    (h : w.store.txns.step e = some txns) :
    Forgets { w with store := { w.store with txns } } (Txns.clogAfter clog e) := by
  have hgx := Txns.global_xmin_le_step hg.txns h
  have hkeep : ∀ x, (Txns.clogAfter clog e).lookup x = clog.lookup x ∧
      txns.tm.clog.lookup x = w.tm.clog.lookup x ∨
      (Txns.clogAfter clog e).lookup x = txns.tm.clog.lookup x := by
    intro x
    rw [Txns.step_clog h]
    cases e with
    | begin_clog t | commit_clog t | abort_clog t =>
      simp only [Txns.clogAfter, lookup_insert_eq_ite]
      split
      · exact .inr rfl
      · exact .inl ⟨rfl, rfl⟩
    | begin | read_snapshot | end_read token | commit_active t | abort_active t =>
      exact .inl ⟨rfl, rfl⟩
  intro x
  rcases hkeep x with ⟨he, he'⟩ | he
  · rw [he]
    simp only [he']
    exact (hf x).imp_right fun ⟨hnone, hlt, hx⟩ => ⟨hnone, hlt.trans_le hgx, hx⟩
  · exact .inl he

theorem lockstep {e : VacuumEvent K V} (hg : w.store.Good) (hf : w.Forgets clog)
    (h : w.step e = some w') :
    ∃ clog', (w.withClog clog).step e = some (w'.withClog clog') ∧ w'.Forgets clog' := by
  have hstored : ∀ slot, (w.withClog clog).stored slot = w.stored slot := fun _ => rfl
  cases e with
  | txn e =>
    obtain ⟨store, hs, rfl⟩ := map_eq_some_iff.mp h
    obtain ⟨txns, ht, rfl⟩ := Store.txn_eq_some hs
    refine ⟨Txns.clogAfter clog e, ?_, forgets_txn hf hg ht⟩
    simp only [step, Store.step, withTm, Txns.step_withClog, ht, map_some]
  | create t key val =>
    obtain ⟨store, hs, rfl⟩ := map_eq_some_iff.mp h
    obtain ⟨hp, rfl⟩ := Store.create_eq_some hs
    refine ⟨clog, ?_, hf.later hg rfl le_rfl (newStamps_create hp)⟩
    simp only [step, Store.step, show (w.withClog clog).store.phase t = .running from hp, if_true]
    rfl
  | stamp txn slot =>
    simp only [step] at h
    split at h
    · simp at h
    next hgone =>
    obtain ⟨store, hs, rfl⟩ := map_eq_some_iff.mp h
    have hpass := hs
    obtain ⟨hr, v, hv, _, rfl⟩ := Store.stamp_eq_some hg hs
    have hst : w.stored slot = some v := stored_eq_some.mpr ⟨hgone, hv⟩
    refine ⟨clog, ?_, hf.later hg rfl le_rfl (newStamps_stamp hr.2 hst)⟩
    have hlive : w.store.txns.Live { txn, token := none } :=
      (hg.txns.active _).mpr (by simp [show w.store.txns.phase txn.txn_id = _ from hr.2])
    have hsame := hf.check_write_conflict hg hst (.inl ⟨_, hr.1, hlive, rfl⟩)
    simp only [Store.step, hr, if_true, hv] at hpass
    have hok : check_write_conflict w.tm txn v.xmax = .ok () := by
      split at hpass
      · next hok => exact hok
      · simp at hpass
    rw [hok] at hsame
    have hr' : (w.withClog clog).store.Running txn := hr
    have hv' : (w.withClog clog).store.versions[slot]? = some v := hv
    simp only [step, show slot ∉ (w.withClog clog).gone from hgone, if_false, Store.step, hr',
      if_true, hv',
      show check_write_conflict (w.withClog clog).store.tm txn v.xmax = .ok () from hsame]
    rfl
  | compact slot =>
    simp only [step] at h
    split at h
    swap
    · simp at h
    next v hv =>
    split at h <;> cases h
    rename_i hvac
    refine ⟨clog, ?_, hf.later hg rfl le_rfl (newStamps_of_stored fun i u hu => ?_)⟩
    · simp only [step, hstored, hv, hf.is_vacuumable hv]
      rw [if_pos (by exact hvac)]
      rfl
    obtain ⟨hgone, hu⟩ := stored_eq_some.mp hu
    exact stored_eq_some.mpr ⟨fun hm => hgone (mem_cons_of_mem _ hm), hu⟩
  | sweep_start =>
    simp only [step] at h
    split at h <;> cases h
    rename_i hs
    refine ⟨clog, ?_, hf.later hg rfl le_rfl (newStamps_of_stored fun _ _ hu => hu)⟩
    simp only [step, show (w.withClog clog).sweep = none from hs]
    rfl
  | sweep_visit slot =>
    simp only [step] at h
    split at h <;> cases h
    rename_i s v hs hv
    refine ⟨clog, ?_, hf.later hg rfl le_rfl (newStamps_of_stored fun i u hu => ?_)⟩
    · simp only [step, hstored, hv, show (w.withClog clog).sweep = some s from hs,
        hf.is_vacuumable hv]
      rfl
    obtain ⟨hgone, hu⟩ := stored_eq_some.mp hu
    refine stored_eq_some.mpr ⟨fun hm => hgone ?_, hu⟩
    simp only
    split
    · exact mem_cons_of_mem _ hm
    · exact hm
  | sweep_abandon | sweep_finish =>
    simp only [step] at h
    split at h <;> cases h
    rename_i s hs
    refine ⟨clog, ?_, hf.later hg rfl le_rfl (newStamps_of_stored fun _ _ hu => hu)⟩
    simp only [step, show (w.withClog clog).sweep = some s from hs]
    rfl

theorem lockstep_run {es : List (VacuumEvent K V)} (hg : w.store.Good) (hf : w.Forgets clog)
    (h : Runs.run step w es = some w') :
    ∃ w₂, Runs.run step (w.withClog clog) es = some w₂ ∧ w'.SameAnswers w₂ := by
  induction es generalizing w clog with
  | nil =>
    cases h
    exact ⟨_, rfl, hf.sameAnswers hg⟩
  | cons e es ih =>
    obtain ⟨w₁, h1, hrest⟩ := Runs.run_cons.mp h
    obtain ⟨clog', h2, hf'⟩ := lockstep hg hf h1
    obtain ⟨w₂, hrun, hsame⟩ := ih (store_good_step hg h1) hf' hrest
    exact ⟨w₂, Runs.run_cons.mpr ⟨_, h2, hrun⟩, hsame⟩

/-! ## When truncation is invisible -/

/-- No stored version carries the stamp of an aborted deleter behind the vacuum horizon. -/
def NoUndoneDelete (w : Vacuumed K V) : Prop :=
  ∀ slot v, w.stored slot = some v → w.tm.is_aborted v.xmax = true → w.vacuum_horizon ≤ v.xmax

theorem noUndoneDelete_iff : w.NoUndoneDelete ↔
    ∀ slot ∈ List.range w.store.versions.length, ∀ v ∈ (w.stored slot).toList,
      w.tm.is_aborted v.xmax = true → w.vacuum_horizon ≤ v.xmax := by
  constructor
  · intro h slot _ v hv
    exact h slot v (mem_toList.mp hv)
  intro h slot v hv
  have hlt := (List.getElem?_eq_some_iff.mp (stored_eq_some.mp hv).2).1
  exact h slot (mem_range.mpr hlt) v (mem_toList.mpr hv)

instance : Decidable w.NoUndoneDelete := decidable_of_iff' _ noUndoneDelete_iff

theorem forgets_truncate {committed_horizon : Nat} (hg : w.Good)
    (hle : committed_horizon ≤ w.tm.global_xmin) (hno : w.NoUndoneDelete) :
    w.Forgets (w.tm.truncate_clog w.vacuum_horizon committed_horizon).clog := by
  intro x
  simp only [TransactionManager.truncate_clog, lookup_retain]
  cases hx : w.tm.clog.lookup x with
  | none => exact .inl rfl
  | some status =>
    cases status with
    | Active => exact .inl rfl
    | Committed =>
      by_cases hc : committed_horizon ≤ x
      · simp [Option.filter, hc]
      · refine .inr ⟨by simp [Option.filter, hc], by omega, .inl rfl⟩
    | Aborted =>
      by_cases hc : w.vacuum_horizon ≤ x
      · simp [Option.filter, hc]
      have hle' := hg.horizon
      refine .inr ⟨by simp [Option.filter, hc], by omega, .inr ⟨rfl, fun slot v hv => ?_⟩⟩
      constructor
      · rintro rfl
        exact hc (hg.swept slot v hv ((hg.store.txns.clog _).symm.trans hx))
      rintro rfl
      exact hc (hno slot v hv (is_aborted_iff.mpr hx))

/-- A deleter behind the horizon whose `Aborted` entry is gone counts as committed, and it
stops every later writer. -/
theorem conflict_of_forgotten (tm : TransactionManager) (txn : Transaction) {d : Nat}
    (h0 : d ≠ 0) (hid : d ≠ txn.txn_id) (hx : d < txn.snapshot.xmin)
    (hnone : tm.clog.lookup d = none) :
    check_write_conflict tm txn d = .error .WriteConflict := by
  have hna : tm.is_aborted d = false := by simp [TransactionManager.is_aborted, hnone]
  have hnp : txn.snapshot.is_in_progress d tm = false := by
    rw [Bool.eq_false_iff, ne_eq, snapshot_is_in_progress_iff]
    omega
  simp [check_write_conflict, h0, hid, hnp, hna]

theorem noUndoneDelete_of_invisible (hg : w.Good) (h : w.Invisible 0) : w.NoUndoneDelete := by
  intro slot v hv ha
  by_contra hlt
  have hclog := is_aborted_iff.mp ha
  have h0 : v.xmax ≠ 0 := by
    intro h0
    rw [h0, hg.store.txns.clog, (hg.store.txns.born 0).mpr (.inl rfl)] at hclog
    simp at hclog
  have hgx := hg.horizon
  have hsnap : w.tm.global_xmin ≤ w.tm.get_snapshot.xmin := hg.store.txns.global_xmin_le_snapshot
  have hmax : w.tm.global_xmin ≤ u64Max := hg.store.txns.global_xmin_le.trans hg.store.txns.next_le
  -- Before the truncation a reader may stamp the version, after it it may not.
  obtain ⟨w₂, hrun, hsame⟩ := h [] _ rfl
  cases hrun
  have hconflict := hsame.conflict slot v _ hv (.inr rfl)
  have hok : check_write_conflict w.tm { txn_id := u64Max, snapshot := w.tm.get_snapshot }
      v.xmax = .ok () := by
    refine check_write_conflict_ok_iff.mpr (.inr (.inr ⟨?_, ha⟩))
    rw [Bool.eq_false_iff, ne_eq, snapshot_is_in_progress_iff]
    simp [ha]
  have herror := conflict_of_forgotten (w.truncate_clog 0).tm
    { txn_id := u64Max, snapshot := w.tm.get_snapshot } (d := v.xmax) h0 (by simp only; omega)
    (by simp only; omega)
    (by simp [truncate_clog, withTm, TransactionManager.truncate_clog, lookup_retain, hclog,
      Option.filter, hlt])
  exact absurd (herror.symm.trans (hconflict.trans hok)) (by simp)

/-- CLOG truncation is invisible exactly as long as no stored version carries the stamp of
an aborted deleter behind the vacuum horizon, in every state that a run reaches whose
completed sweeps have covered the index. -/
theorem clog_truncation_is_invisible_iff {p : List (VacuumEvent K V)}
    (hrun : Runs.run step new p = some w) (hcovers : Runs.Meets step SweepCovers new p) :
    (∀ committed_horizon ≤ w.tm.global_xmin, w.Invisible committed_horizon) ↔
      w.NoUndoneDelete := by
  have hg : w.Good :=
    Runs.inv_run_meets (fun _ _ _ hg hok hstep => good_step hg hok hstep) good_new hcovers hrun
  constructor
  · intro h
    exact noUndoneDelete_of_invisible hg (h 0 (Nat.zero_le _))
  · intro hno committed_horizon hle fs w₁ h1
    exact lockstep_run hg.store (forgets_truncate hg hle hno) h1

/-- A row is inserted and committed. A second one is inserted, its transaction aborts, and
a sweep removes it. -/
def sweepAnAbortedInsert : List (VacuumEvent Nat Nat) :=
  [.txn .begin, .txn (.begin_clog 1), .create 1 7 70, .txn (.commit_clog 1),
    .txn (.commit_active 1), .txn .begin, .txn (.begin_clog 2), .create 2 8 80,
    .txn (.abort_clog 2), .txn (.abort_active 2), .sweep_start, .sweep_visit 0, .sweep_visit 1,
    .sweep_finish]

theorem truncation_after_an_aborted_insert_is_invisible :
    ∃ w : Vacuumed Nat Nat, Runs.run step new sweepAnAbortedInsert = some w ∧
      w.gone = [1] ∧ w.vacuum_horizon = 3 ∧ w.Invisible 3 := by
  refine ⟨_, rfl, rfl, rfl, ?_⟩
  exact (clog_truncation_is_invisible_iff (K := Nat) (V := Nat) (p := sweepAnAbortedInsert) rfl
    (by decide)).mpr (by decide) 3 (by decide)

/-- A row is inserted and committed. A second transaction deletes it and aborts, and a
sweep keeps the row with the stamp. -/
def sweepAnAbortedDelete : List (VacuumEvent Nat Nat) :=
  [.txn .begin, .txn (.begin_clog 1), .create 1 7 70, .txn (.commit_clog 1),
    .txn (.commit_active 1), .txn .begin, .txn (.begin_clog 2), .stamp ⟨2, ⟨2, 3, [2]⟩⟩ 0,
    .txn (.abort_clog 2), .txn (.abort_active 2), .sweep_start, .sweep_visit 0, .sweep_finish,
    .txn .read_snapshot]

/-- The reader sees the row, and after the truncation it does not. -/
theorem truncation_hides_a_row :
    ∃ (w : Vacuumed Nat Nat) (h : Holder), Runs.run step new sweepAnAbortedDelete = some w ∧
      3 ≤ w.tm.global_xmin ∧ w.stored 0 = some ⟨7, 70, 1, 2⟩ ∧
      h ∈ w.store.txns.holders ∧ w.store.txns.Live h ∧
      h.txn.is_visible 1 2 w.tm = true ∧
      h.txn.is_visible 1 2 (w.truncate_clog 3).tm = false := by
  refine ⟨_, ⟨⟨u64Max, ⟨3, 3, []⟩⟩, some 0⟩, rfl, ?_, rfl, ?_, ?_, ?_, ?_⟩ <;> decide

end Vacuumed

end FluxDB
