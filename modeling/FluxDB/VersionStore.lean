-- The version store: the row versions of the index as one growing list, written by
-- running transactions, with one compaction that reads the manager between their steps.
-- A stamp asks only what `check_write_conflict` asks, and a creation asks nothing.
import FluxDB.TransactionSystem
import FluxDB.VersionChecks

namespace FluxDB

open List Maps

/-! ## Versions and a compaction's reads -/

/-- A stored row version with the ids of its creator and of its deleter. -/
structure Version (K V : Type*) where
  key : K
  val : V
  xmin : Nat
  xmax : Nat
  deriving DecidableEq, Repr

/-- The next read of `settled_status`, each under a lock of its own. -/
inductive StatusRead
  | committed
  | aborted
  | horizon
  deriving DecidableEq, Repr

/-- One read of `settled_status`: the answer, or the read that follows. -/
def StatusRead.next (tm : TransactionManager) (txn_id : Nat) :
    StatusRead → TransactionStatus ⊕ StatusRead
  | committed => if tm.is_committed txn_id then .inl .Committed else .inr aborted
  | aborted => if tm.is_aborted txn_id then .inl .Aborted else .inr horizon
  | horizon => .inl (if txn_id < tm.global_xmin then .Committed else .Active)

/-- How far a compaction is with the version it looks at. -/
inductive SweepStage
  | ready
  | creator (read : StatusRead)
  | deleter (read : StatusRead)
  | answered (vacuumable : Bool)
  deriving DecidableEq, Repr

/-- A compaction: the horizon it captured first, and the stamps of the version that it
asks `is_vacuumable` about. -/
structure Sweep where
  horizon : Nat
  slot : Nat
  xmin : Nat
  xmax : Nat
  stage : SweepStage
  deriving DecidableEq, Repr

/-- One read of `is_vacuumable`. -/
def Sweep.read (tm : TransactionManager) (s : Sweep) : Option Sweep :=
  match s.stage with
  | .creator r =>
    match r.next tm s.xmin with
    | .inr r' => some { s with stage := .creator r' }
    | .inl .Aborted => some { s with stage := .answered true }
    | .inl _ =>
      if s.xmax = 0 then some { s with stage := .answered false }
      else some { s with stage := .deleter .committed }
  | .deleter r =>
    match r.next tm s.xmax with
    | .inr r' => some { s with stage := .deleter r' }
    | .inl .Committed => some { s with stage := .answered (s.xmax < s.horizon) }
    | .inl _ => some { s with stage := .answered false }
  | _ => none

/-! ## The store and its steps -/

/-- The transactions, the versions ever created, the stamps ever made (by whom, on which
version) and the compaction in progress. -/
structure Store (K V : Type*) where
  txns : Txns
  versions : List (Version K V)
  stamps : List (Nat × Nat)
  sweep : Option Sweep

inductive StoreEvent (K V : Type*)
  | txn (e : TxnEvent)
  | create (t : Nat) (key : K) (val : V)
  | stamp (txn : Transaction) (slot : Nat)
  | sweep_start
  | sweep_pick (slot : Nat)
  | sweep_read

namespace Store

variable {K V : Type*}

def new : Store K V where
  txns := .new
  versions := []
  stamps := []
  sweep := none

abbrev tm (w : Store K V) : TransactionManager := w.txns.tm

abbrev phase (w : Store K V) : Nat → Phase := w.txns.phase

/-- The handle was returned by `begin` and its transaction has not ended. -/
def Running (w : Store K V) (txn : Transaction) : Prop :=
  { txn, token := none : Holder } ∈ w.txns.holders ∧ w.phase txn.txn_id = .running

instance (w : Store K V) (txn : Transaction) : Decidable (w.Running txn) :=
  inferInstanceAs (Decidable (_ ∧ _))

/-- The version in the slot gets the transaction's id as its `xmax`. -/
def put_stamp (w : Store K V) (t slot : Nat) (v : Version K V) : Store K V :=
  { w with versions := w.versions.set slot { v with xmax := t }
           stamps := (t, slot) :: w.stamps }

def put_version (w : Store K V) (t : Nat) (key : K) (val : V) : Store K V :=
  { w with versions := w.versions ++ [{ key, val, xmin := t, xmax := 0 }] }

def step (w : Store K V) : StoreEvent K V → Option (Store K V)
  | .txn e => (w.txns.step e).map fun txns => { w with txns }
  | .create t key val =>
    if w.phase t = .running then some (w.put_version t key val) else none
  | .stamp txn slot =>
    if w.Running txn then
      match w.versions[slot]? with
      | some v =>
        match check_write_conflict w.tm txn v.xmax with
        | .ok _ => some (w.put_stamp txn.txn_id slot v)
        | .error _ => none
      | none => none
    else none
  | .sweep_start =>
    some { w with sweep := some { horizon := w.tm.global_xmin, slot := 0, xmin := 0, xmax := 0,
                                  stage := .ready } }
  | .sweep_pick slot =>
    match w.sweep, w.versions[slot]? with
    | some s, some v =>
      some { w with sweep := some { s with slot, xmin := v.xmin, xmax := v.xmax,
                                           stage := .creator .committed } }
    | _, _ => none
  | .sweep_read => (w.sweep.bind fun s => s.read w.tm).map fun s => { w with sweep := some s }

/-! ## What holds in every reachable state -/

/-- The transaction has been running: only such a transaction leaves its id in a version. -/
def Wrote (w : Store K V) (t : Nat) : Prop := (w.phase t).clog ≠ none

/-- The transaction has its final CLOG entry, and that entry is `Aborted`. -/
def Aborted (w : Store K V) (t : Nat) : Prop := (w.phase t).clog = some .Aborted

instance (w : Store K V) (t : Nat) : Decidable (w.Aborted t) :=
  inferInstanceAs (Decidable (_ = _))

structure Good (w : Store K V) : Prop where
  txns : w.txns.Good
  xmin : ∀ v ∈ w.versions, w.Wrote v.xmin
  xmax : ∀ v ∈ w.versions, v.xmax = 0 ∨ w.Wrote v.xmax
  stamper : ∀ t i, (t, i) ∈ w.stamps → w.Wrote t
  stamped : ∀ t i, (t, i) ∈ w.stamps →
    ∃ v, w.versions[i]? = some v ∧ (v.xmax = t ∨ w.Aborted t)
  recorded : ∀ (i : Nat) v, w.versions[i]? = some v → v.xmax ≠ 0 → (v.xmax, i) ∈ w.stamps

/-- The second version is the first at a later time. Its `xmax` is the same, or it
replaced nothing or an aborted deleter by a transaction that had not ended. -/
structure VersionLater (w w' : Store K V) (v v' : Version K V) : Prop where
  key : v'.key = v.key
  val : v'.val = v.val
  xmin : v'.xmin = v.xmin
  xmax : v'.xmax = v.xmax ∨
    ((v.xmax = 0 ∨ w'.Aborted v.xmax) ∧ ¬ (w.phase v'.xmax).Final)

/-- The second store comes later than the first. -/
structure Later (w w' : Store K V) : Prop where
  txns : w.txns.Later w'.txns
  stamps : ∀ s ∈ w.stamps, s ∈ w'.stamps
  versions : ∀ (i : Nat) v, w.versions[i]? = some v →
    ∃ v', w'.versions[i]? = some v' ∧ w.VersionLater w' v v'
  created : ∀ (i : Nat) v', w'.versions[i]? = some v' → w.versions[i]? = none →
    ¬ (w.phase v'.xmin).Final

theorem VersionLater.refl (w : Store K V) (v : Version K V) : w.VersionLater w v v :=
  ⟨rfl, rfl, rfl, .inl rfl⟩

variable {w w' : Store K V} {t : Nat} {e : StoreEvent K V}

theorem Later.aborted (h : w.Later w') (ha : w.Aborted t) : w'.Aborted t :=
  (h.txns.phase t).clog ha (by simp)

theorem Later.settled (h : w.Later w') (hs : (w.phase t).Settled) : (w'.phase t).Settled := by
  rw [phase, (h.txns.phase t).eq_of_settled hs]
  exact hs

theorem Later.final (h : w.Later w') (hf : (w.phase t).Final) : (w'.phase t).Final :=
  (h.txns.phase t).final hf

theorem VersionLater.trans {w'' : Store K V} {v v' v'' : Version K V} (hl : w.Later w')
    (hl' : w'.Later w'') (h : w.VersionLater w' v v') (h' : w'.VersionLater w'' v' v'') :
    w.VersionLater w'' v v'' := by
  refine ⟨h'.key.trans h.key, h'.val.trans h.val, h'.xmin.trans h.xmin, ?_⟩
  rcases h.xmax with he | ⟨hold, hnew⟩
  · rcases h'.xmax with he' | ⟨hold', hnew'⟩
    · exact .inl (he'.trans he)
    · exact .inr ⟨he ▸ hold', fun hf => hnew' (hl.final hf)⟩
  have hold' : v.xmax = 0 ∨ w''.Aborted v.xmax := hold.imp_right hl'.aborted
  rcases h'.xmax with he' | ⟨_, hnew'⟩
  · exact .inr ⟨hold', he' ▸ hnew⟩
  · exact .inr ⟨hold', fun hf => hnew' (hl.final hf)⟩

theorem Later.refl (w : Store K V) : w.Later w where
  txns := .refl _
  stamps _ h := h
  versions _ v h := ⟨v, h, .refl w v⟩
  created i v h h' := by rw [h] at h'; simp at h'

theorem Later.trans {w'' : Store K V} (h : w.Later w') (h' : w'.Later w'') : w.Later w'' where
  txns := h.txns.trans h'.txns
  stamps s hs := h'.stamps s (h.stamps s hs)
  versions i v hv := by
    obtain ⟨v', hv', hvl⟩ := h.versions i v hv
    obtain ⟨v'', hv'', hvl'⟩ := h'.versions i v' hv'
    exact ⟨v'', hv'', hvl.trans h h' hvl'⟩
  created i v'' hv'' hnone hf := by
    cases hv' : w'.versions[i]? with
    | none => exact h'.created i v'' hv'' hv' (h.final hf)
    | some v' =>
      obtain ⟨u, hu, hvl⟩ := h'.versions i v' hv'
      rw [hv''] at hu
      cases hu
      exact h.created i v' hv' hnone (hvl.xmin ▸ hf)

/-! ## Each step keeps the invariant -/

theorem good_new : (new : Store K V).Good where
  txns := Txns.good_new
  xmin v h := by simp [new] at h
  xmax v h := by simp [new] at h
  stamper t i h := by simp [new] at h
  stamped t i h := by simp [new] at h
  recorded i v h := by simp [new] at h

/-- What a stamp step found: a handle in use, and a version without a deleter, with an
aborted one, or already stamped by the same transaction. -/
theorem stamp_eq_some {txn : Transaction} {slot : Nat} (hg : w.Good)
    (h : w.step (.stamp txn slot) = some w') :
    w.Running txn ∧ ∃ v, w.versions[slot]? = some v ∧
      (v.xmax = 0 ∨ v.xmax = txn.txn_id ∨ w.Aborted v.xmax) ∧
      w' = w.put_stamp txn.txn_id slot v := by
  simp only [step] at h
  split at h
  swap
  · simp at h
  next hr =>
  split at h
  swap
  · simp at h
  next v hv =>
  split at h
  swap
  · simp at h
  next hok =>
  refine ⟨hr, v, hv, ?_, (Option.some.inj h).symm⟩
  rcases check_write_conflict_ok_iff.mp hok with h0 | ht | ⟨_, ha⟩
  · exact .inl h0
  · exact .inr (.inl ht)
  refine .inr (.inr ?_)
  rw [Aborted, phase, ← hg.txns.clog]
  exact is_aborted_iff.mp ha

theorem create_eq_some {key : K} {val : V} (h : w.step (.create t key val) = some w') :
    w.phase t = .running ∧ w' = w.put_version t key val := by
  simp only [step] at h
  split at h
  · next hp => exact ⟨hp, (Option.some.inj h).symm⟩
  · simp at h

theorem txn_eq_some {e : TxnEvent} (h : w.step (.txn e) = some w') :
    ∃ txns, w.txns.step e = some txns ∧ w' = { w with txns } := by
  simp only [step, Option.map_eq_some_iff] at h
  obtain ⟨txns, h1, rfl⟩ := h
  exact ⟨txns, h1, rfl⟩

theorem sweep_eq_some (h : w.step e = some w')
    (he : (∀ e', e ≠ .txn e') ∧ (∀ t k v, e ≠ .create t k v) ∧ ∀ t i, e ≠ .stamp t i) :
    ∃ sweep, w' = { w with sweep } := by
  obtain ⟨h1, h2, h3⟩ := he
  cases e with
  | txn e => exact absurd rfl (h1 e)
  | create t k v => exact absurd rfl (h2 t k v)
  | stamp t i => exact absurd rfl (h3 t i)
  | sweep_start => cases h; exact ⟨_, rfl⟩
  | sweep_pick slot =>
    simp only [step] at h
    split at h
    · cases h; exact ⟨_, rfl⟩
    · simp at h
  | sweep_read =>
    simp only [step, Option.map_eq_some_iff] at h
    obtain ⟨s, _, rfl⟩ := h
    exact ⟨_, rfl⟩

/-- The four kinds of step of the store. -/
inductive StepKind (w w' : Store K V) : Prop
  | txn (e : TxnEvent) (txns : Txns) (h : w.txns.step e = some txns)
      (eq : w' = { w with txns })
  | create (t : Nat) (key : K) (val : V) (h : w.phase t = .running)
      (eq : w' = w.put_version t key val)
  | stamp (txn : Transaction) (slot : Nat) (v : Version K V) (h : w.Running txn)
      (hv : w.versions[slot]? = some v)
      (hx : v.xmax = 0 ∨ v.xmax = txn.txn_id ∨ w.Aborted v.xmax)
      (eq : w' = w.put_stamp txn.txn_id slot v)
  | sweep (s : Option Sweep) (eq : w' = { w with sweep := s })

theorem step_kind (hg : w.Good) (h : w.step e = some w') : w.StepKind w' := by
  cases e with
  | txn e =>
    obtain ⟨txns, h1, h2⟩ := txn_eq_some h
    exact .txn e txns h1 h2
  | create t key val =>
    obtain ⟨h1, h2⟩ := create_eq_some h
    exact .create t key val h1 h2
  | stamp txn slot =>
    obtain ⟨h1, v, hv, hx, h2⟩ := stamp_eq_some hg h
    exact .stamp txn slot v h1 hv hx h2
  | sweep_start | sweep_pick slot | sweep_read =>
    obtain ⟨s, hs⟩ := sweep_eq_some h (by simp); exact .sweep s hs

theorem put_version_getElem? (w : Store K V) (t i : Nat) (key : K) (val : V) :
    (w.put_version t key val).versions[i]? =
      if i = w.versions.length then some { key, val, xmin := t, xmax := 0 }
      else w.versions[i]? := by
  simp only [put_version, getElem?_append]
  split_ifs with h1 h2 h2
  · omega
  · rfl
  · simp [h2]
  · rw [getElem?_eq_none (by simp; omega), getElem?_eq_none (by omega)]

theorem put_stamp_getElem? {slot : Nat} {v : Version K V} (i : Nat)
    (hv : w.versions[slot]? = some v) :
    (w.put_stamp t slot v).versions[i]? =
      if i = slot then some { v with xmax := t } else w.versions[i]? :=
  getElem?_set_eq_ite hv _ i

theorem later_step (hg : w.Good) (h : w.step e = some w') : w.Later w' := by
  cases step_kind hg h with
  | txn e txns hs eq =>
    subst eq
    exact ⟨Txns.later_step hg.txns hs, fun _ h => h, fun i v hv => ⟨v, hv, rfl, rfl, rfl, .inl rfl⟩,
      fun i v hv hn => by rw [hv] at hn; simp at hn⟩
  | create t key val hp eq =>
    subst eq
    refine ⟨.refl _, fun _ h => h, fun i v hv => ⟨v, ?_, rfl, rfl, rfl, .inl rfl⟩, ?_⟩
    · have hlt : i < w.versions.length := lt_of_getElem? hv
      rw [put_version_getElem?, if_neg (by omega)]
      exact hv
    intro i v' hv' hn
    rw [put_version_getElem?] at hv'
    split at hv'
    · cases hv'; simp [hp, Phase.Final]
    · rw [hv'] at hn; simp at hn
  | stamp txn slot v hr hv hx eq =>
    subst eq
    refine ⟨.refl _, fun _ h => mem_cons_of_mem _ h, ?_, ?_⟩
    · intro i u hu
      by_cases hi : i = slot
      swap
      · exact ⟨u, by rw [put_stamp_getElem? _ hv, if_neg hi]; exact hu, rfl, rfl, rfl, .inl rfl⟩
      subst hi
      rw [hv] at hu
      cases hu
      refine ⟨{ v with xmax := txn.txn_id }, ?_, rfl, rfl, rfl, ?_⟩
      · rw [put_stamp_getElem? _ hv, if_pos rfl]
      have hnf : ¬ (w.phase txn.txn_id).Final := by simp [hr.2, Phase.Final]
      rcases hx with h0 | ht | ha
      · exact .inr ⟨.inl h0, hnf⟩
      · exact .inl ht.symm
      · exact .inr ⟨.inr ha, hnf⟩
    intro i v' hv' hn
    rw [put_stamp_getElem? _ hv] at hv'
    split at hv'
    · next hi => subst hi; rw [hv] at hn; simp at hn
    · rw [hv'] at hn; simp at hn
  | sweep s eq =>
    subst eq
    exact ⟨.refl _, fun _ h => h, fun i v hv => ⟨v, hv, rfl, rfl, rfl, .inl rfl⟩,
      fun i v hv hn => by rw [hv] at hn; simp at hn⟩

theorem Later.wrote (h : w.Later w') (hw : w.Wrote t) : w'.Wrote t :=
  (h.txns.phase t).clog_ne_none hw

theorem Good.wrote_ne_zero (hg : w.Good) (h : w.Wrote t) : t ≠ 0 := by
  rintro rfl
  have hu : w.phase 0 = .unborn := (hg.txns.born 0).mpr (.inl rfl)
  simp [Wrote, hu] at h

/-- A stamp on record stays in place, or its transaction has aborted. -/
theorem Later.stamped (hg : w.Good) (hl : w.Later w') {i : Nat} (hs : (t, i) ∈ w.stamps) :
    ∃ v, w'.versions[i]? = some v ∧ (v.xmax = t ∨ w'.Aborted t) := by
  obtain ⟨v, hv, hx⟩ := hg.stamped t i hs
  obtain ⟨v', hv', hvl⟩ := hl.versions i v hv
  refine ⟨v', hv', ?_⟩
  rcases hx with rfl | ha
  · rcases hvl.xmax with he | ⟨h0 | ha, _⟩
    · exact .inl he
    · exact absurd h0 (hg.wrote_ne_zero (hg.stamper _ i hs))
    · exact .inr ha
  · exact .inr (hl.aborted ha)

theorem good_step (hg : w.Good) (h : w.step e = some w') : w'.Good := by
  have hl := later_step hg h
  cases step_kind hg h with
  | txn e txns hs eq =>
    subst eq
    exact ⟨Txns.good_step hg.txns hs, fun v hv => hl.wrote (hg.xmin v hv),
      fun v hv => (hg.xmax v hv).imp_right hl.wrote, fun t i hs => hl.wrote (hg.stamper t i hs),
      fun t i hs => hl.stamped hg hs, hg.recorded⟩
  | create t key val hp eq =>
    subst eq
    have hw : w.Wrote t := by simp [Wrote, hp]
    refine ⟨hg.txns, fun v hv => ?_, fun v hv => ?_, hg.stamper, fun t i hs => hl.stamped hg hs,
      fun i v hv h0 => ?_⟩
    · rcases mem_append.mp hv with hv | hv
      · exact hg.xmin v hv
      · cases mem_singleton.mp hv; exact hw
    · rcases mem_append.mp hv with hv | hv
      · exact hg.xmax v hv
      · cases mem_singleton.mp hv; exact .inl rfl
    rw [put_version_getElem?] at hv
    split at hv
    · cases hv; exact absurd rfl h0
    · exact hg.recorded i v hv h0
  | stamp txn slot v hr hv hx eq =>
    subst eq
    have hw : w.Wrote txn.txn_id := by simp [Wrote, hr.2]
    have hmem : v ∈ w.versions := mem_of_getElem? hv
    refine ⟨hg.txns, forall_mem_set hg.xmin (hg.xmin v hmem),
      forall_mem_set hg.xmax (.inr hw), ?_, ?_, ?_⟩
    · intro t i hs
      rcases mem_cons.mp hs with hs | hs
      · cases hs; exact hw
      · exact hg.stamper t i hs
    · intro t i hs
      rcases mem_cons.mp hs with hs | hs
      · cases hs
        exact ⟨{ v with xmax := txn.txn_id }, by rw [put_stamp_getElem? _ hv, if_pos rfl],
          .inl rfl⟩
      · exact hl.stamped hg hs
    intro i u hu h0
    rw [put_stamp_getElem? _ hv] at hu
    split at hu
    · next he => cases hu; exact he ▸ mem_cons_self
    · exact mem_cons_of_mem _ (hg.recorded i u hu h0)
  | sweep s eq =>
    subst eq
    exact { hg with }

theorem good_run {es : List (StoreEvent K V)} (h : Runs.run step new es = some w) : w.Good :=
  Runs.inv_run (fun _ _ _ => good_step) good_new h

theorem later_run {es : List (StoreEvent K V)} (hg : w.Good) (h : Runs.run step w es = some w') :
    w.Later w' :=
  Runs.rel_run (fun _ _ _ => good_step) Later.refl (fun _ _ _ => .trans)
    (fun _ _ _ => later_step) hg h

end Store

end FluxDB
