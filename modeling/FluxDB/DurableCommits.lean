-- Commits on top of the threads of the log: a transaction that wrote appends its Commit record,
-- waits until the record is flushed and only then leaves the active set as committed; if the log
-- refuses it, it leaves as aborted. What another snapshot can see of it is therefore durable.
import FluxDB.LogStatuses
import FluxDB.ReopenedLog
import FluxDB.TransactionSystem

namespace FluxDB

open Maps List Function Option AList

/-! ## Transactions after a reopen -/

variable {p q : Phase}

namespace Txns

theorem begin_eq_some {w w' : Txns} (hstep : w.step .begin = some w') :
    w.tm.next_txn_id < u64Max ∧ w'.tm.next_txn_id = w.tm.next_txn_id + 1 ∧
      w'.phase = update w.phase w.tm.next_txn_id .starting := by
  obtain ⟨hlt, ⟨⟩⟩ := ite_none_right_eq_some.mp hstep
  exact ⟨hlt, rfl, rfl⟩

end Txns

/-! ## Records on their way into the log -/

namespace WalThreads

/-- The record that a call of `append` has not put into the buffer yet. -/
def Call.entry : Call → Option Entry
  | append stage =>
    match stage with
    | .start entry | .lock entry | .locked entry | .push _ entry => some entry
    | .ok _ | .err _ => none
  | flush_up_to _ _ => none

/-- The record is in the log or on its way there. -/
def World.Has (w : World) (entry : Entry) : Prop :=
  (∃ r ∈ w.log, r.entry = entry) ∨ ∃ c ∈ w.calls, c.entry = some entry

/-- The call was made for this record, and if it has returned an LSN, the record is in the log under
that LSN. -/
def AppendStage.Handles (log : List Logged) (entry : Entry) : AppendStage → Prop
  | start e | lock e | locked e | push _ e => e = entry
  | ok lsn => ⟨lsn, entry⟩ ∈ log
  | err _ => True

section

variable {w w' : World} {i : Nat} {stage : AppendStage} {entry : Entry}

theorem Call.entry_wake (c : Call) : c.wake.entry = c.entry := by
  cases c with
  | append stage => rfl
  | flush_up_to target stage => cases stage <;> rfl

theorem has_runAppend (hi : w.calls[i]? = some (.append stage))
    (hstep : w.runAppend i stage = some w') (h : w'.Has entry) : w.Has entry := by
  have hset : ∀ {stage' : AppendStage}, (∃ c ∈ w.calls.set i (.append stage'),
      c.entry = some entry) → (Call.append stage').entry = (Call.append stage).entry ∨
        (Call.append stage').entry = none → w.Has entry := by
    rintro stage' ⟨c, hc, hentry⟩ hsame
    right
    rcases mem_or_eq_of_mem_set hc with hc | rfl
    · exact ⟨c, hc, hentry⟩
    rcases hsame with hsame | hsame
    · exact ⟨_, mem_of_getElem? hi, hsame ▸ hentry⟩
    · cases hsame.symm.trans hentry
  cases appends_of_run hstep with
  | tooLarge | refuse | overrun => exact h.elim .inl fun hc => hset hc (.inr rfl)
  | size | lock | allocate => exact h.elim .inl fun hc => hset hc (.inl rfl)
  | push lsn e buffer hpush =>
    rcases h with ⟨r, hr, rfl⟩ | hc
    · rcases mem_append.mp hr with hr | hr
      · exact .inl ⟨r, hr, rfl⟩
      cases mem_singleton.mp hr
      exact .inr ⟨_, mem_of_getElem? hi, rfl⟩
    · exact hset hc (.inr rfl)

/-- Only a new call of `append` brings a record. -/
theorem has_step {e : Event} (hstep : step w e = some w') (h : w'.Has entry) :
    w.Has entry ∨ e = .append entry := by
  have hcall : ∀ {c : Call}, (∃ d ∈ w.calls ++ [c], d.entry = some entry) →
      w.Has entry ∨ c.entry = some entry := by
    rintro c ⟨d, hd, hentry⟩
    rcases mem_append.mp hd with hd | hd
    · exact .inl (.inr ⟨d, hd, hentry⟩)
    · exact .inr (mem_singleton.mp hd ▸ hentry)
  rcases step_cases hstep with ⟨e, rfl, rfl⟩ | ⟨lsn, rfl, rfl⟩ | ⟨i, stage, hi, hrun⟩ |
    ⟨i, target, stage, hi, hlog, -, t, s, hcalls⟩
  · rcases h with h | h
    · exact .inl (.inl h)
    rcases hcall h with h | h
    · exact .inl h
    · cases h
      exact .inr rfl
  · rcases h with h | h
    · exact .inl (.inl h)
    · exact .inl ((hcall h).resolve_right nofun)
  · exact .inl (has_runAppend hi hrun h)
  · left
    rcases h with h | ⟨c, hc, hentry⟩
    · exact .inl (hlog ▸ h)
    right
    rcases hcalls with hcalls | hcalls
    all_goals
      rw [hcalls] at hc
      rcases mem_or_eq_of_mem_set hc with hc | rfl
    · exact ⟨c, hc, hentry⟩
    · cases hentry
    · obtain ⟨d, hd, rfl⟩ := mem_map.mp hc
      exact ⟨d, hd, d.entry_wake ▸ hentry⟩
    · cases hentry

theorem handles_runAppend (hi : w.calls[i]? = some (.append stage))
    (hstep : w.runAppend i stage = some w') (h : stage.Handles w.log entry) :
    ∃ stage', w'.calls[i]? = some (.append stage') ∧ stage'.Handles w'.log entry := by
  have hset : ∀ {stage' : AppendStage},
      (w.calls.set i (.append stage'))[i]? = some (.append stage') := by
    intro stage'
    rw [getElem?_set_eq_ite hi, if_pos rfl]
  cases appends_of_run hstep with
  | tooLarge | refuse | overrun => exact ⟨_, hset, trivial⟩
  | size | lock | allocate => exact ⟨_, hset, h⟩
  | push lsn e buffer hpush =>
    cases h
    exact ⟨_, hset, mem_append_right _ (mem_singleton.mpr rfl)⟩

/-- A call of `append` goes on with its own record. -/
theorem handles_step {e : Event} (hstep : step w e = some w') (hpre : w.log <+: w'.log)
    (hi : w.calls[i]? = some (.append stage)) (h : stage.Handles w.log entry) :
    ∃ stage', w'.calls[i]? = some (.append stage') ∧ stage'.Handles w'.log entry := by
  have hgrown : stage.Handles w'.log entry := by
    cases stage with
    | ok lsn => exact hpre.subset h
    | _ => exact h
  rcases step_cases hstep with ⟨e, rfl, rfl⟩ | ⟨lsn, rfl, rfl⟩ | ⟨j, stage', hj, hrun⟩ |
    ⟨j, target, s', hj, hlog, -, t, s, hcalls⟩
  · exact ⟨stage, (getElem?_append_left (lt_of_getElem? hi)).trans hi, hgrown⟩
  · exact ⟨stage, (getElem?_append_left (lt_of_getElem? hi)).trans hi, hgrown⟩
  · by_cases hij : i = j
    · subst hij
      cases hi.symm.trans hj
      exact handles_runAppend hi hrun h
    refine ⟨stage, ?_, hgrown⟩
    obtain ⟨c, hc⟩ : ∃ c, w'.calls = w.calls.set j c := by
      cases appends_of_run hrun <;> exact ⟨_, rfl⟩
    rw [hc, getElem?_set_ne (Ne.symm hij)]
    exact hi
  · have hij : i ≠ j := by
      rintro rfl
      cases hi.symm.trans hj
    refine ⟨stage, ?_, hgrown⟩
    rcases hcalls with hcalls | hcalls
    all_goals rw [hcalls, getElem?_set_ne (Ne.symm hij)]
    · exact hi
    · rw [getElem?_map, hi]
      rfl

end

end WalThreads

/-! ## The engine -/

namespace Commits

/-- How far the call that ends a transaction is: it waits for its call `i` of the log. -/
inductive Ending
  | running
  | log_commit (i : Nat)
  | flush_up_to (i : Nat)
  | log_abort (i : Nat)
  deriving DecidableEq, Repr

/-- The transactions and the log, with the records that the last open has found in the log, the
flag of each transaction that `note_write` sets and the stamps of the versions that were placed
since the engine was opened. `failed` remembers the transactions whose commit returned an error,
until their id is issued again. -/
structure World where
  txns : Txns
  wal : WalThreads.World
  found : List Logged
  wrote : Nat → Bool
  ending : Nat → Ending
  versions : List (Nat × Nat)
  failed : Nat → Bool

inductive Event
  | begin
  | begin_clog (t : Nat)
  | read_snapshot
  | end_read (token : Nat)
  | note_write (t : Nat)
  | insert_version (t : Nat)
  | set_xmax (i t : Nat)
  | log_record (entry : Entry)
  | log_commit (t : Nat)
  | flush_commit (t : Nat)
  | wal (e : WalThreads.Event)
  | commit_clog (t : Nat)
  | commit_active (t : Nat)
  | log_abort (t : Nat)
  | abort_clog (t : Nat)
  | abort_active (t : Nat)
  | restart (kept : Nat)

def create (buffer_capacity segment_size : Nat) : World where
  txns := .new
  wal := .opened buffer_capacity segment_size [] 0
  found := []
  wrote := fun _ => false
  ending := fun _ => .running
  versions := []
  failed := fun _ => false

variable (w : World)

/-- The transaction can still write: its handle has been given to neither `commit` nor
`abort`. -/
def World.Usable (t : Nat) : Prop := w.txns.phase t = .running ∧ w.ending t = .running

instance (t : Nat) : Decidable (w.Usable t) := inferInstanceAs (Decidable (_ ∧ _))

/-- Whether `commit` has come to `mark_committed`: at once for a transaction that wrote nothing,
and after `flush_up_to` has returned otherwise. -/
def World.mayCommit (t : Nat) : Bool :=
  match w.ending t with
  | .running => !w.wrote t
  | .flush_up_to i =>
    match w.wal.calls[i]? with
    | some (.flush_up_to _ .ok) => true
    | _ => false
  | _ => false

/-- Whether `commit` or `abort` has come to `mark_aborted`. An `abort` whose record is refused
does not come there. -/
def World.mayAbort (t : Nat) : Bool :=
  match w.ending t with
  | .running => !w.wrote t
  | .log_commit i =>
    match w.wal.calls[i]? with
    | some (.append (.err _)) => true
    | _ => false
  | .flush_up_to i =>
    match w.wal.calls[i]? with
    | some (.flush_up_to _ (.err _)) => true
    | _ => false
  | .log_abort i =>
    match w.wal.calls[i]? with
    | some (.append (.ok _)) => true
    | _ => false

/-- Whether `mark_aborted` is the one of a commit that returns an error. -/
def Ending.failsCommit : Ending → Bool
  | .log_commit _ | .flush_up_to _ => true
  | _ => false

/-- The step of the transactions, the rest unchanged. -/
def World.txnStep (e : TxnEvent) : Option World := do
  let txns ← w.txns.step e
  some { w with txns }

/-- A step of the log, as long as LSNs fit 64 bits; `ending` is how far the calls are then. -/
def World.walStep (e : WalThreads.Event) (ending : Nat → Ending) : Option World :=
  if w.wal.next_lsn < 2 ^ 64 then
    (WalThreads.step w.wal e).map fun wal => { w with wal, ending }
  else none

/-- The log and the transaction manager after a reopen. Of the bytes of the current segment that
no sync covers the first ones have survived, up to `kept`. -/
def World.reopen (kept : Nat) : Option (WalThreads.World × TransactionManager) :=
  match WalThreads.new_with_options w.wal.buffer_capacity w.wal.writer.segment_size
      (w.wal.writer.survivors kept) with
  | .ok wal =>
    match recover_statuses wal.writer.segments .new with
    | .ok tm => some (wal, tm)
    | .error _ => none
  | .error _ => none

/-- One step. Versions are placed and stamped under a page latch before their record is appended;
when the append fails the page keeps them. A record takes the steps of its own call of `append`. A
restart forgets the versions: what is said of them is about one opening of the engine. -/
def step : Event → Option World
  | .begin => do
    let txns ← w.txns.step .begin
    let t := w.txns.tm.next_txn_id
    some { w with
      txns
      wrote := update w.wrote t false
      ending := update w.ending t .running
      failed := update w.failed t false }
  | .begin_clog t => w.txnStep (.begin_clog t)
  | .read_snapshot => w.txnStep .read_snapshot
  | .end_read token => w.txnStep (.end_read token)
  | .note_write t =>
    if w.Usable t then some { w with wrote := update w.wrote t true } else none
  | .insert_version t =>
    if w.Usable t ∧ w.wrote t then some { w with versions := (t, 0) :: w.versions } else none
  | .set_xmax i t =>
    if w.Usable t ∧ w.wrote t then
      some { w with versions := w.versions.modify i fun v => (v.1, t) }
    else none
  | .log_record entry =>
    if entry.entry_type ≠ .Commit ∧ entry.entry_type ≠ .Abort ∧
        (entry.txn_id = SYSTEM_TXN_ID ∨ w.Usable entry.txn ∧ w.wrote entry.txn) then
      w.walStep (.append entry) w.ending
    else none
  | .log_commit t =>
    if w.Usable t ∧ w.wrote t then
      w.walStep (.append (FluxDB.log_commit (UInt64.ofNat t)))
        (update w.ending t (.log_commit w.wal.calls.length))
    else none
  | .flush_commit t =>
    match w.ending t with
    | .log_commit i =>
      match w.wal.calls[i]? with
      | some (.append (.ok lsn)) =>
        w.walStep (.flush_up_to lsn)
          (update w.ending t (.flush_up_to w.wal.calls.length))
      | _ => none
    | _ => none
  | .wal e =>
    match e with
    | .append _ => none
    | e => w.walStep e w.ending
  | .commit_clog t => if w.mayCommit t then w.txnStep (.commit_clog t) else none
  | .commit_active t => w.txnStep (.commit_active t)
  | .log_abort t =>
    if w.Usable t ∧ w.wrote t then
      w.walStep (.append (FluxDB.log_abort (UInt64.ofNat t)))
        (update w.ending t (.log_abort w.wal.calls.length))
    else none
  | .abort_clog t => if w.mayAbort t then w.txnStep (.abort_clog t) else none
  | .abort_active t => do
    let txns ← w.txns.step (.abort_active t)
    some { w with
      txns
      failed := if (w.ending t).failsCommit then update w.failed t true else w.failed }
  | .restart kept =>
    if w.wal.writer.synced ≤ kept ∧ kept ≤ w.wal.writer.offset then
      match w.reopen kept with
      | some (wal, tm) => some {
          txns := { tm, phase := fun _ => .unborn, holders := [] }
          wal
          found := (w.found ++ w.wal.log).take wal.flushed_lsn
          wrote := fun _ => false
          ending := fun _ => .running
          versions := []
          failed := w.failed }
      | none => none
    else none

/-- A record fits the fields of its header. `append` does not check that. -/
def Event.Fits : Event → Prop
  | .log_record entry => entry.Fits
  | _ => True

instance (e : Event) : Decidable e.Fits := by
  cases e <;> dsimp only [Event.Fits] <;> infer_instance

/-! ## What holds in every reachable state -/

/-- The Commit record of the transaction with this LSN. -/
def commitRecord (lsn t : Nat) : Logged := ⟨lsn, FluxDB.log_commit (UInt64.ofNat t)⟩

theorem toNat_ofNat_id {t : Nat} (h : t < u64Max) : (UInt64.ofNat t).toNat = t := by
  rw [UInt64.toNat_ofNat']
  unfold u64Max at h
  exact Nat.mod_eq_of_lt (by omega)

/-- The record was found by the open, or it has come into the log since or is on its way there. -/
def World.Has (entry : Entry) : Prop := (∃ r ∈ w.found, r.entry = entry) ∨ w.wal.Has entry

variable {w}

theorem has_of_mem {r : Logged} (hr : r ∈ w.found ++ w.wal.log) : w.Has r.entry := by
  rcases mem_append.mp hr with hr | hr
  · exact .inl ⟨r, hr, rfl⟩
  · exact .inr (.inl ⟨r, hr, rfl⟩)

/-- The records name only issued ids and settle each with one status; a commit that has come past
the flush has its record among the flushed ones. -/
structure Good (w : World) : Prop where
  wal : WalThreads.Resumes w.found w.wal
  txns : w.txns.Sound
  ids : ∀ e, w.Has e → e.txn < w.txns.tm.next_txn_id
  one : ∀ e e', w.Has e → w.Has e' → e.txn = e'.txn → e.status ≠ none → e'.status ≠ none →
    e.status = e'.status
  unsettled : ∀ t, w.txns.phase t = .starting ∨ w.Usable t →
    ∀ e, w.Has e → e.txn = t → e.status = none
  logging : ∀ t i, w.ending t = .log_commit i → ∃ stage, w.wal.calls[i]? = some (.append stage) ∧
    stage.Handles w.wal.log (FluxDB.log_commit (UInt64.ofNat t))
  flushing : ∀ t i, w.ending t = .flush_up_to i → ∃ lsn target stage,
    commitRecord lsn t ∈ w.wal.log ∧ lsn ≤ target ∧
      w.wal.calls[i]? = some (.flush_up_to target stage)
  committed : ∀ t, (w.txns.phase t).clog = some .Committed → w.wrote t = true →
    ∃ lsn, commitRecord lsn t ∈ w.wal.log ∧ lsn ≤ w.wal.flushed_lsn
  versions : ∀ v ∈ w.versions, w.txns.phase v.1 ≠ .unborn ∧ w.wrote v.1 = true
  failed : ∀ t, w.failed t = true → 0 < t ∧ t < u64Max

theorem good_create (buffer_capacity segment_size : Nat) :
    Good (create buffer_capacity segment_size) := by
  have hnone : ∀ e, ¬ (create buffer_capacity segment_size).Has e := by
    rintro e (⟨_, ⟨⟩, _⟩ | ⟨_, ⟨⟩, _⟩ | ⟨_, ⟨⟩, _⟩)
  refine ⟨⟨⟨.open segment_size [], ⟨[], [], rfl, rfl, rfl⟩, WalThreads.good_opened _ _ _ _⟩,
    ⟨nofun, nofun⟩, nofun, nofun⟩, Txns.good_new.toSound, fun e he => (hnone e he).elim,
    fun e _ he => (hnone e he).elim, fun _ _ e he => (hnone e he).elim, nofun, nofun, nofun, nofun,
    nofun⟩

variable {w' : World}

namespace Good

variable {t : Nat} (h : Good w)
include h

/-- One transaction moves to a later phase. -/
theorem move {txns : Txns} (hsound : txns.Sound) (hp : w.txns.phase t = p)
    (hphase : txns.phase = update w.txns.phase t q)
    (hnext : txns.tm.next_txn_id = w.txns.tm.next_txn_id) (hb : q ≠ .unborn)
    (hstart : q ≠ .starting) (hrunning : q = .running → p = .starting)
    (hcommitted : q.clog = some .Committed → w.wrote t = true →
      ∃ lsn, commitRecord lsn t ∈ w.wal.log ∧ lsn ≤ w.wal.flushed_lsn) :
    Good { w with txns } where
  __ := h
  txns := hsound
  ids e he := hnext ▸ h.ids e he
  unsettled x hx := by
    refine h.unsettled x ?_
    unfold World.Usable at hx ⊢
    dsimp only at hx
    rw [hphase] at hx
    by_cases hxt : x = t
    · subst hxt
      rw [update_self] at hx
      exact .inl (hp.trans (hrunning (hx.resolve_left hstart).1))
    · rwa [update_of_ne hxt] at hx
  committed x hx hwrote := by
    dsimp only at hx
    rw [hphase] at hx
    by_cases hxt : x = t
    · subst hxt
      rw [update_self] at hx
      exact hcommitted hx hwrote
    rw [update_of_ne hxt] at hx
    exact h.committed x hx hwrote
  versions v hv := by
    obtain ⟨hborn, hwrote⟩ := h.versions v hv
    refine ⟨?_, hwrote⟩
    dsimp only
    rw [hphase, update_apply]
    split
    · exact hb
    · exact hborn

/-- A reader comes or goes. -/
theorem reader {txns : Txns} (hsound : txns.Sound) (hphase : txns.phase = w.txns.phase)
    (hnext : txns.tm.next_txn_id = w.txns.tm.next_txn_id) : Good { w with txns } where
  __ := h
  txns := hsound
  ids e he := hnext ▸ h.ids e he
  unsettled x hx := h.unsettled x (by unfold World.Usable at hx ⊢; rwa [hphase] at hx)
  committed x hx := h.committed x (by rwa [hphase] at hx)
  versions v hv := by
    dsimp only
    rw [hphase]
    exact h.versions v hv

/-- Every record of the log has an LSN that was given out. -/
theorem lsn_lt {lsn : Nat} (hmem : commitRecord lsn t ∈ w.wal.log) : lsn < w.wal.next_lsn := by
  obtain ⟨o, -, hgood⟩ := h.wal.opened
  obtain ⟨i, hi⟩ := mem_iff_getElem?.mp hmem
  have hlsn : lsn = w.found.length + i + 1 := hgood.numbered i _ hi
  have hlt := lt_of_getElem? hi
  have hnext := hgood.next
  omega

/-- A step of the log. A new record has an issued id, and settles it only if nothing else does; a
call that ends a transaction has made its own call of the log. -/
theorem wal_step {e : WalThreads.Event} {ending : Nat → Ending}
    (hstep : w.walStep e ending = some w') (hfits : e.Fits)
    (hnew : ∀ entry, e = .append entry → entry.txn < w.txns.tm.next_txn_id ∧
      (entry.status ≠ none → ∀ e', w.Has e' → e'.txn = entry.txn → e'.status = none))
    (hunsettled : ∀ x, w.txns.phase x = .starting ∨
        (w.txns.phase x = .running ∧ ending x = .running) →
      (w.txns.phase x = .starting ∨ w.Usable x) ∧
        ∀ entry, e = .append entry → entry.txn = x → entry.status = none)
    (hlogging : ∀ x i, ending x = .log_commit i → w.ending x = .log_commit i ∨
      i = w.wal.calls.length ∧ e = .append (FluxDB.log_commit (UInt64.ofNat x)))
    (hflushing : ∀ x i, ending x = .flush_up_to i → w.ending x = .flush_up_to i ∨
      i = w.wal.calls.length ∧ ∃ lsn, e = .flush_up_to lsn ∧ commitRecord lsn x ∈ w.wal.log) :
    Good w' := by
  obtain ⟨hlsn, hstep⟩ := ite_none_right_eq_some.mp hstep
  obtain ⟨wal, hwal, rfl⟩ := map_eq_some_iff.mp hstep
  obtain ⟨o, -, hgood⟩ := h.wal.opened
  have hkept := WalThreads.kept_step hgood hwal
  have hhas : ∀ entry, World.Has { w with wal, ending } entry →
      w.Has entry ∨ e = .append entry := by
    rintro entry (hentry | hentry)
    · exact .inl (.inl hentry)
    · exact (WalThreads.has_step hwal hentry).imp_left .inr
  refine ⟨h.wal.step hfits hlsn hwal, h.txns, fun e₁ h₁ => ?_, fun e₁ e₂ h₁ h₂ htxn hs₁ hs₂ => ?_,
    fun x hx e₁ h₁ htxn => ?_, fun x i hx => ?_, fun x i hx => ?_, fun x hx hwrote => ?_,
    h.versions, h.failed⟩
  · rcases hhas e₁ h₁ with h₁ | rfl
    · exact h.ids e₁ h₁
    · exact (hnew e₁ rfl).1
  · rcases hhas e₁ h₁ with h₁ | he₁
    · rcases hhas e₂ h₂ with h₂ | he₂
      · exact h.one e₁ e₂ h₁ h₂ htxn hs₁ hs₂
      · exact absurd ((hnew e₂ he₂).2 hs₂ e₁ h₁ htxn) hs₁
    · rcases hhas e₂ h₂ with h₂ | he₂
      · exact absurd ((hnew e₁ he₁).2 hs₁ e₂ h₂ htxn.symm) hs₂
      · cases he₁.symm.trans he₂
        rfl
  · obtain ⟨hold, hstatus⟩ := hunsettled x hx
    rcases hhas e₁ h₁ with h₁ | he₁
    · exact h.unsettled x hold e₁ h₁ htxn
    · exact hstatus e₁ he₁ htxn
  · rcases hlogging x i hx with hx | ⟨rfl, rfl⟩
    · obtain ⟨stage, hi, hstage⟩ := h.logging x i hx
      exact WalThreads.handles_step hwal hkept.log hi hstage
    · cases hwal
      exact ⟨_, getElem?_concat_length, rfl⟩
  · rcases hflushing x i hx with hx | ⟨rfl, lsn, rfl, hmem⟩
    · obtain ⟨lsn, target, stage, hmem, hle, hi⟩ := h.flushing x i hx
      obtain ⟨target', stage', hi', hle'⟩ := hkept.targets i target stage hi
      have hlt := h.lsn_lt hmem
      exact ⟨lsn, target', stage', hkept.log.subset hmem, by omega, hi'⟩
    · cases hwal
      exact ⟨lsn, lsn, .start, hmem, le_rfl, getElem?_concat_length⟩
  · obtain ⟨lsn, hmem, hle⟩ := h.committed x hx hwrote
    exact ⟨lsn, hkept.log.subset hmem, hle.trans hkept.flushed⟩

theorem usable_lt (ht : w.Usable t) : t < w.txns.tm.next_txn_id :=
  (h.txns.issued t (by rw [ht.1]; exact Phase.noConfusion)).2

theorem lt_u64Max (ht : t < w.txns.tm.next_txn_id) : t < u64Max := ht.trans_le h.txns.next_le

theorem begin (hstep : step w .begin = some w') : Good w' := by
  simp only [step, bind_eq_bind, bind_eq_some_iff] at hstep
  obtain ⟨txns, htxns, hw⟩ := hstep
  cases hw
  obtain ⟨hlt, hnext, hphase⟩ := Txns.begin_eq_some htxns
  have hunborn : w.txns.phase w.txns.tm.next_txn_id = .unborn := by
    by_contra hb
    exact absurd (h.txns.issued _ hb).2 (lt_irrefl _)
  refine ⟨h.wal, Txns.sound_step h.txns htxns, fun e he => ?_, h.one, fun x hx e he htxn => ?_,
    fun x i hi => ?_, fun x i hi => ?_, fun x hx hwrote => ?_, fun v hv => ?_, fun x hx => ?_⟩
  · dsimp only
    rw [hnext]
    exact (h.ids e he).trans (Nat.lt_succ_self _)
  · have hne : x ≠ w.txns.tm.next_txn_id := by
      rintro rfl
      exact absurd htxn (h.ids e he).ne
    refine h.unsettled x ?_ e he htxn
    unfold World.Usable at hx ⊢
    dsimp only at hx
    rwa [hphase, update_of_ne hne, update_of_ne hne] at hx
  · dsimp only at hi
    rw [update_apply] at hi
    split at hi
    · cases hi
    · exact h.logging x i hi
  · dsimp only at hi
    rw [update_apply] at hi
    split at hi
    · cases hi
    · exact h.flushing x i hi
  · dsimp only at hx hwrote
    rw [hphase] at hx
    by_cases hxt : x = w.txns.tm.next_txn_id
    · rw [hxt, update_self] at hx
      cases hx
    rw [update_of_ne hxt] at hx hwrote
    exact h.committed x hx hwrote
  · obtain ⟨hborn, hwrote⟩ := h.versions v hv
    have hne : v.1 ≠ w.txns.tm.next_txn_id := by
      intro heq
      exact hborn (heq ▸ hunborn)
    dsimp only
    rw [hphase, update_of_ne hne, update_of_ne hne]
    exact ⟨hborn, hwrote⟩
  dsimp only at hx
  rw [update_apply] at hx
  split at hx
  · cases hx
  · exact h.failed x hx

theorem log_record {entry : Entry} (hfits : entry.Fits)
    (hstep : step w (.log_record entry) = some w') : Good w' := by
  obtain ⟨⟨hcommit, habort, hid⟩, hstep⟩ := ite_none_right_eq_some.mp hstep
  have hstatus : entry.status = none := by
    unfold Entry.status WalRecordType.status
    cases he : entry.entry_type <;> simp_all
  refine h.wal_step hstep hfits ?_ (fun x hx => ⟨hx, ?_⟩) (fun _ _ => .inl) fun _ _ => .inl
  · rintro _ ⟨⟩
    refine ⟨?_, fun hs => absurd hstatus hs⟩
    rcases hid with hid | hid
    · unfold Entry.txn
      rw [hid]
      exact h.txns.next_pos
    · exact h.usable_lt hid.1
  · rintro _ ⟨⟩ _
    exact hstatus

/-- The record that settles a transaction is the first that does. -/
theorem log_settle {entry : Entry} {e : Ending}
    (hstep : w.walStep (.append entry) (update w.ending t e) = some w') (hfits : entry.Fits)
    (ht : w.Usable t) (hid : entry.txn_id = UInt64.ofNat t) (he : e ≠ .running)
    (hlogging : ∀ i, e = .log_commit i →
      i = w.wal.calls.length ∧ entry = FluxDB.log_commit (UInt64.ofNat t))
    (hflushing : ∀ i, e ≠ .flush_up_to i) : Good w' := by
  have hlt := h.usable_lt ht
  have htxn : entry.txn = t := by
    unfold Entry.txn
    rw [hid]
    exact toNat_ofNat_id (h.lt_u64Max hlt)
  refine h.wal_step hstep hfits ?_ (fun x hx => ?_) (fun x i hi => ?_) fun x i hi => ?_
  · rintro _ ⟨⟩
    exact ⟨htxn ▸ hlt, fun _ e' he' htxn' => h.unsettled t (.inr ht) e' he' (htxn'.trans htxn)⟩
  · have hxt : x ≠ t := by
      rintro rfl
      rcases hx with hx | hx
      · rw [ht.1] at hx
        cases hx
      rw [update_self] at hx
      exact he hx.2
    rw [update_of_ne hxt] at hx
    refine ⟨hx, ?_⟩
    rintro _ ⟨⟩ hentry
    exact absurd (hentry.symm.trans htxn) hxt
  · rw [update_apply] at hi
    split at hi
    · next hxt =>
      obtain ⟨hi, hentry⟩ := hlogging i hi
      exact .inr ⟨hi, by rw [hxt, hentry]⟩
    · exact .inl hi
  · rw [update_apply] at hi
    split at hi
    · exact absurd hi (hflushing i)
    · exact .inl hi

/-- `flush_up_to` is called for the LSN of the Commit record itself. -/
theorem flush_commit (hstep : step w (.flush_commit t) = some w') : Good w' := by
  simp only [step] at hstep
  split at hstep
  swap
  · cases hstep
  rename_i i hending
  split at hstep
  swap
  · cases hstep
  rename_i lsn hi
  obtain ⟨stage, hi', hstage⟩ := h.logging t i hending
  cases hi.symm.trans hi'
  refine h.wal_step hstep trivial nofun (fun x hx => ⟨?_, nofun⟩) (fun x j hj => ?_)
    fun x j hj => ?_
  · refine hx.imp_right fun hx => ⟨hx.1, ?_⟩
    have hrunning := hx.2
    rw [update_apply] at hrunning
    split at hrunning
    · cases hrunning
    · exact hrunning
  · rw [update_apply] at hj
    split at hj
    · cases hj
    · exact .inl hj
  · rw [update_apply] at hj
    split at hj
    · next hxt =>
      cases hj
      exact .inr ⟨rfl, lsn, rfl, hxt ▸ hstage⟩
    · exact .inl hj

/-- A commit that has come past the flush finds its record among the flushed ones. -/
theorem flushed_of_mayCommit (hmay : w.mayCommit t = true) (hwrote : w.wrote t = true) :
    ∃ lsn, commitRecord lsn t ∈ w.wal.log ∧ lsn ≤ w.wal.flushed_lsn := by
  unfold World.mayCommit at hmay
  split at hmay
  · rw [hwrote] at hmay
    cases hmay
  · next i hending =>
    split at hmay
    swap
    · cases hmay
    rename_i target hi
    obtain ⟨lsn, target', stage, hmem, hle, hi'⟩ := h.flushing t i hending
    cases hi.symm.trans hi'
    obtain ⟨o, -, hgood⟩ := h.wal.opened
    have hflushed : target ≤ w.wal.flushed_lsn := (hgood.calls i _ hi).2
    exact ⟨lsn, hmem, hle.trans hflushed⟩
  · cases hmay

theorem synced_le : w.wal.writer.synced ≤ w.wal.writer.offset := by
  obtain ⟨o, -, hgood⟩ := h.wal.opened
  obtain ⟨_, _, _, hsynced⟩ := hgood.synced
  exact hsynced.1

/-- Whatever a crash leaves of the files, they open, and recovery settles the transactions by a
front of the log with all flushed records. -/
theorem reopen {kept : Nat} (hsynced : w.wal.writer.synced ≤ kept)
    (hkept : kept ≤ w.wal.writer.offset) :
    ∃ rs, rs <+: w.found ++ w.wal.log ∧ w.wal.flushed_lsn ≤ rs.length ∧
      Holds rs w.wal.writer.closed (w.wal.writer.file.take kept) ∧
      ∃ wal : WalThreads.World, w.reopen kept = some (wal, statusesOf rs) ∧
        WalThreads.Resumes rs wal ∧ wal.flushed_lsn = rs.length ∧ wal.log = [] ∧ wal.calls = [] ∧
        recover_statuses wal.writer.segments .new = .ok (statusesOf rs) := by
  obtain ⟨o, ho, hgood⟩ := h.wal.opened
  obtain ⟨d, hflushed, hd, hholds⟩ := hgood.cut ho h.wal.fitting.log h.wal.fits hsynced hkept
  obtain ⟨hnum, hfits⟩ := h.wal.records
  have hpre : w.found ++ w.wal.log.take d <+: w.found ++ w.wal.log :=
    (prefix_append_right_inj _).mpr (List.take_prefix d _)
  have hnum' : WalThreads.NumberedFrom 0 (w.found ++ w.wal.log.take d) := by
    rw [prefix_iff_eq_take.mp hpre]
    exact hnum.take _
  have hfits' : ∀ r ∈ w.found ++ w.wal.log.take d, r.Fits := fun r hr =>
    hfits r (hpre.subset hr)
  obtain ⟨segments, hopen, hwhole, hresumes⟩ := WalThreads.Resumes.reopen hnum' hfits' hholds
    w.wal.buffer_capacity w.wal.writer.segment_size
  have hrec := recover_statuses_eq hfits' (segmented_of_whole hwhole)
  refine ⟨_, hpre, ?_, hholds, _, ?_, hresumes, rfl, rfl, rfl, hrec⟩
  · rw [length_append, length_take, Nat.min_eq_left hd]
    exact hflushed
  unfold World.reopen SegmentWriter.survivors
  rw [hopen]
  simp only [WalThreads.World.opened, hrec]

theorem restart {kept : Nat} (hstep : step w (.restart kept) = some w') : Good w' := by
  obtain ⟨hguard, hstep⟩ := ite_none_right_eq_some.mp hstep
  obtain ⟨rs, hpre, _, _, wal, hopen, hresumes, hlen, hlog, hcalls, _⟩ :=
    h.reopen hguard.1 hguard.2
  rw [hopen] at hstep
  cases hstep
  have hfound : (w.found ++ w.wal.log).take wal.flushed_lsn = rs := by
    rw [hlen]
    exact (prefix_iff_eq_take.mp hpre).symm
  rw [hfound]
  -- nothing is on its way, and every record that was found had been in the log
  have hmem : ∀ r ∈ rs, w.Has r.entry := fun r hr => has_of_mem (hpre.subset hr)
  have hhas : ∀ {e}, (∃ r ∈ rs, r.entry = e) ∨ wal.Has e → w.Has e ∧ ∃ r ∈ rs, r.entry = e := by
    rintro e (⟨r, hr, rfl⟩ | ⟨r, hr, -⟩ | ⟨c, hc, -⟩)
    · exact ⟨hmem r hr, r, hr, rfl⟩
    · rw [hlog] at hr
      cases hr
    · rw [hcalls] at hc
      cases hc
  obtain ⟨hids, hmin⟩ := statusesOf_next_txn_id rs
  have hle := hmin w.txns.tm.next_txn_id h.txns.next_pos fun r hr => h.ids _ (hmem r hr)
  have hpos : 0 < (statusesOf rs).next_txn_id := by
    unfold statusesOf
    exact lt_of_lt_of_le (Nat.succ_pos _) (le_max_right _ _)
  refine ⟨hresumes, ⟨hpos, hle.trans h.txns.next_le, fun x => ?_, nofun, fun x hx => ?_, nofun⟩,
    fun e he => ?_, fun e e' he he' => h.one e e' (hhas he).1 (hhas he').1, fun x hx => ?_, nofun,
    nofun, nofun, nofun, h.failed⟩
  · dsimp only
    rw [statusesOf_active_txns]
    exact iff_of_false (notMem_empty x) id
  · rcases hx with hx | hx <;> cases hx
  · obtain ⟨-, r, hr, rfl⟩ := hhas he
    exact hids r hr
  · rcases hx with hx | hx
    · cases hx
    · exact nomatch hx.1

theorem oneStatus {rs : List Logged} (hsub : rs ⊆ w.found ++ w.wal.log) : OneStatus rs :=
  fun _ hr _ hr' => h.one _ _ (has_of_mem (hsub hr)) (has_of_mem (hsub hr'))

end Good

theorem txnStep_eq_some {w : World} {e : TxnEvent} (h : w.txnStep e = some w') :
    ∃ txns, w.txns.step e = some txns ∧ w' = { w with txns } := by
  unfold World.txnStep at h
  simp only [bind_eq_bind, bind_eq_some_iff] at h
  obtain ⟨txns, htxns, hw⟩ := h
  cases hw
  exact ⟨txns, htxns, rfl⟩

/-- Every step keeps the invariant. -/
theorem good_step {w : World} {e : Event} (h : Good w) (hfits : e.Fits)
    (hstep : step w e = some w') : Good w' := by
  cases e with
  | begin => exact h.begin hstep
  | log_record entry => exact h.log_record hfits hstep
  | log_commit t =>
    obtain ⟨⟨ht, -⟩, hstep⟩ := ite_none_right_eq_some.mp hstep
    refine h.log_settle hstep (fits_log_commit _) ht rfl nofun ?_ nofun
    rintro i ⟨⟩
    exact ⟨rfl, rfl⟩
  | log_abort t =>
    obtain ⟨⟨ht, -⟩, hstep⟩ := ite_none_right_eq_some.mp hstep
    exact h.log_settle hstep (fits_log_abort _) ht rfl nofun nofun nofun
  | flush_commit t => exact h.flush_commit hstep
  | wal e =>
    have hno : ∀ entry, e ≠ .append entry := by
      rintro entry rfl
      cases hstep
    have hwal : w.walStep e w.ending = some w' := by
      cases e with
      | append entry => exact absurd rfl (hno entry)
      | _ => exact hstep
    refine h.wal_step hwal ?_ (fun entry he => absurd he (hno entry)) (fun x hx => ⟨hx, ?_⟩)
      (fun _ _ => .inl) fun _ _ => .inl
    · cases e with
      | append entry => exact absurd rfl (hno entry)
      | _ => trivial
    · exact fun entry he => absurd he (hno entry)
  | restart kept => exact h.restart hstep
  | begin_clog t =>
    obtain ⟨txns, htxns, rfl⟩ := txnStep_eq_some hstep
    have hsound := Txns.sound_step h.txns htxns
    obtain ⟨hp, rfl⟩ := Txns.move_eq_some htxns
    exact h.move hsound hp rfl rfl nofun nofun (fun _ => rfl) nofun
  | read_snapshot =>
    obtain ⟨txns, htxns, rfl⟩ := txnStep_eq_some hstep
    have hsound := Txns.sound_step h.txns htxns
    obtain rfl := Txns.read_snapshot_eq_some htxns
    exact h.reader hsound rfl rfl
  | end_read token =>
    obtain ⟨txns, htxns, rfl⟩ := txnStep_eq_some hstep
    have hsound := Txns.sound_step h.txns htxns
    cases htxns
    exact h.reader hsound rfl rfl
  | note_write t =>
    obtain ⟨ht, ⟨⟩⟩ := ite_none_right_eq_some.mp hstep
    refine { h with committed := fun x hx hwrote => ?_, versions := fun v hv => ?_ }
    · dsimp only at hx hwrote
      by_cases hxt : x = t
      · rw [hxt, ht.1] at hx
        cases hx
      rw [update_of_ne hxt] at hwrote
      exact h.committed x hx hwrote
    obtain ⟨hborn, hwrote⟩ := h.versions v hv
    refine ⟨hborn, ?_⟩
    dsimp only
    rw [update_apply]
    split
    · rfl
    · exact hwrote
  | insert_version t =>
    obtain ⟨ht, ⟨⟩⟩ := ite_none_right_eq_some.mp hstep
    refine { h with versions := fun v hv => ?_ }
    rcases mem_cons.mp hv with rfl | hv
    · refine ⟨?_, ht.2⟩
      change w.txns.phase t ≠ .unborn
      rw [ht.1.1]
      exact nofun
    · exact h.versions v hv
  | set_xmax i t =>
    obtain ⟨-, ⟨⟩⟩ := ite_none_right_eq_some.mp hstep
    refine { h with versions := fun v hv => ?_ }
    obtain ⟨j, hj⟩ := mem_iff_getElem?.mp hv
    rw [getElem?_modify, Option.map_eq_map, map_eq_some_iff] at hj
    obtain ⟨v', hv', heq⟩ := hj
    have hfst : v.1 = v'.1 := by
      rw [← heq]
      split <;> rfl
    rw [hfst]
    exact h.versions v' (mem_of_getElem? hv')
  | commit_clog t =>
    obtain ⟨hmay, hstep⟩ := ite_none_right_eq_some.mp hstep
    obtain ⟨txns, htxns, rfl⟩ := txnStep_eq_some hstep
    have hsound := Txns.sound_step h.txns htxns
    obtain ⟨hp, rfl⟩ := Txns.move_eq_some htxns
    exact h.move hsound hp rfl rfl nofun nofun nofun fun _ => h.flushed_of_mayCommit hmay
  | commit_active t =>
    obtain ⟨txns, htxns, rfl⟩ := txnStep_eq_some hstep
    have hsound := Txns.sound_step h.txns htxns
    obtain ⟨hp, rfl⟩ := Txns.move_eq_some htxns
    exact h.move hsound hp rfl rfl nofun nofun nofun fun _ => h.committed t (by rw [hp]; rfl)
  | abort_clog t =>
    obtain ⟨-, hstep⟩ := ite_none_right_eq_some.mp hstep
    obtain ⟨txns, htxns, rfl⟩ := txnStep_eq_some hstep
    have hsound := Txns.sound_step h.txns htxns
    obtain ⟨hp, rfl⟩ := Txns.move_eq_some htxns
    exact h.move hsound hp rfl rfl nofun nofun nofun nofun
  | abort_active t =>
    simp only [step, bind_eq_bind, bind_eq_some_iff] at hstep
    obtain ⟨txns, htxns, hw⟩ := hstep
    cases hw
    have hsound := Txns.sound_step h.txns htxns
    obtain ⟨hp, rfl⟩ := Txns.move_eq_some htxns
    have hmoved := h.move hsound hp rfl rfl nofun nofun nofun nofun
    refine { hmoved with failed := fun x hx => ?_ }
    dsimp only at hx
    split at hx
    · rw [update_apply] at hx
      split at hx
      · next hxt =>
        obtain ⟨hpos, hlt⟩ := h.txns.issued t (by rw [hp]; exact nofun)
        exact hxt ▸ ⟨hpos, h.lt_u64Max hlt⟩
      · exact h.failed x hx
    · exact h.failed x hx

/-! ## The law -/

variable {w : World}

/-- Every record that is logged along the run fits the fields of its header. -/
abbrev Fitting (buffer_capacity segment_size : Nat) (p : List Event) : Prop :=
  Runs.Meets step (fun _ e => e.Fits) (create buffer_capacity segment_size) p

theorem good_run {buffer_capacity segment_size : Nat} {p : List Event}
    (hfits : Fitting buffer_capacity segment_size p)
    (hrun : Runs.run step (create buffer_capacity segment_size) p = some w) : Good w :=
  Runs.inv_run_meets (fun _ _ _ h hfits hstep => good_step h hfits hstep) (good_create _ _) hfits
    hrun

/-- Transaction 1 places a version, its records are appended, and `commit` calls `flush_up_to`. -/
def commitUpToFlush : List Event :=
  [.begin, .begin_clog 1, .note_write 1, .insert_version 1,
    .log_record (log_insert 1 1 0 [7] [8] 0 1)] ++ List.replicate 4 (.wal (.run 0)) ++
    .log_commit 1 :: List.replicate 4 (.wal (.run 1)) ++ [.flush_commit 1]

end Commits

end FluxDB
