-- The segmented log is one sequence. Over any calls of `append` and `flush_up_to` without faults
-- and any number of reopens, with any sizes of the segments and of the buffer, an iterator over
-- the directory finds the flushed records, each once and in order, and a reopen goes on behind
-- the last of them.
import FluxDB.ReopenedLog
import FluxDB.ReturningCalls

namespace FluxDB.WalThreads

open Maps List Option

/-! ## Reading the directory -/

/-- The records that a `WalIterator` yields until it ends. Every record takes a round. -/
def yields : Nat → List Bytes → Except WalError (List WalRecord)
  | 0, _ => .ok []
  | rounds + 1, segments =>
    match next_record segments with
    | none => .ok []
    | some (.error e) => .error e
    | some (.ok (record, unread)) => do
      let records ← yields rounds unread
      .ok (record :: records)

/-- All that a `WalIterator` over the segments yields. -/
def iterate (segments : List Bytes) : Except WalError (List WalRecord) :=
  yields (segments.flatten.length + 1) segments

theorem yields_records {rs : List Logged} (hrs : ∀ r ∈ rs, r.Fits) {segments : List Bytes}
    (hseg : Running.Segmented segments (rs.map Logged.bytes)) {rounds : Nat}
    (hrounds : rs.length < rounds) : yields rounds segments = .ok (rs.map Logged.record) := by
  induction rs generalizing rounds segments with
  | nil =>
    obtain ⟨rounds, rfl⟩ : ∃ n, rounds = n + 1 := ⟨rounds - 1, by omega⟩
    rw [yields, Running.next_record_nil hseg]
    rfl
  | cons r rs ih =>
    obtain ⟨rounds, rfl⟩ : ∃ n, rounds = n + 1 := ⟨rounds - 1, by omega⟩
    have hr := hrs r mem_cons_self
    obtain ⟨rest, hnext, hrest⟩ := Running.next_record_cons hr.entry hr.lsn hseg
    rw [length_cons] at hrounds
    have hall : yields rounds rest = .ok (rs.map Logged.record) :=
      ih (fun r hr => hrs r (mem_cons_of_mem _ hr)) hrest (by omega)
    simp only [yields, hnext, hall, Except.ok_bind]
    rfl

theorem iterate_whole {rs : List Logged} (hrs : ∀ r ∈ rs, r.Fits) {w : SegmentWriter}
    (h : Whole rs w) : iterate w.segments = .ok (rs.map Logged.record) := by
  refine yields_records hrs (segmented_of_whole h) (Nat.lt_succ_of_le ?_)
  obtain ⟨groups, last, rfl, hclosed, hfile⟩ := h
  have hlen : (w.segments.flatten).length = (bytesOf (groups.flatten ++ last)).length := by
    unfold SegmentWriter.segments
    rw [hclosed, hfile, flatten_append, flatten_singleton, length_append,
      length_flatten_map_bytesOf, bytesOf_append, length_append]
  rw [hlen]
  exact length_le_length_bytesOf _

/-! ## Without faults -/

def Event.faultless : Event → Bool
  | .write_fault _ _ | .sync_fault _ => false
  | _ => true

/-- What the call has in hand fits into a segment, and its flush has not failed. -/
def Call.Calm (segment_size : Nat) : Call → Prop
  | append stage =>
    match stage with
    | .lock entry | .locked entry | .push _ entry => entry.record_size ≤ segment_size
    | _ => True
  | flush_up_to _ stage =>
    match stage with
    | .lock_writer _ records | .writing _ records => ∀ x ∈ records, x.2.length ≤ segment_size
    | .written _ flush_result | .publish _ flush_result | .publish_active _ flush_result
    | .publish_result _ flush_result => flush_result = .ok ()
    | .err _ => False
    | _ => True

/-- No flush has failed, and none will unless a write or a sync does. -/
structure Calm (w : World) : Prop where
  error : w.flush_error = none
  log : ∀ r ∈ w.log, r.bytes.length ≤ w.writer.segment_size
  calls : ∀ c ∈ w.calls, c.Calm w.writer.segment_size

section Calm

variable {o : SegmentWriter} {base : Nat} {w w' : World} {i : Nat} {c : Call}

theorem Calm.set (h : Calm w) (herror : w'.flush_error = w.flush_error) (hlog : w'.log = w.log)
    (hsize : w'.writer.segment_size = w.writer.segment_size)
    (hcalls : w'.calls = w.calls.set i c) (hc : c.Calm w.writer.segment_size) : Calm w' := by
  refine ⟨herror.trans h.error, ?_, fun d hd => ?_⟩
  · rw [hlog, hsize]
    exact h.log
  rw [hcalls] at hd
  rw [hsize]
  exact forall_mem_set h.calls hc d hd

theorem calm_runAppend {stage : AppendStage} (h : Calm w) (hi : w.calls[i]? = some (.append stage))
    (hstep : w.runAppend i stage = some w') : Calm w' := by
  have hcalm := h.calls _ (mem_of_getElem? hi)
  cases appends_of_run hstep with
  | tooLarge | refuse | overrun => exact h.set rfl rfl rfl rfl trivial
  | size entry hsize => exact h.set rfl rfl rfl rfl hsize
  | lock | allocate => exact h.set rfl rfl rfl rfl hcalm
  | push lsn entry buffer hpush =>
    exact ⟨h.error, forall_mem_concat h.log ((entry.length_bytes lsn).trans_le hcalm),
      forall_mem_set h.calls trivial⟩

theorem segment_size_ready (v : SegmentWriter) (record : Bytes) :
    (v.ready record).segment_size = v.segment_size := by
  unfold SegmentWriter.ready
  split <;> rfl

/-- A write without a fault succeeds for a record that fits into a segment. -/
theorem write_record_calm {v : SegmentWriter} (lsn : Nat) {record : Bytes}
    (hsize : record.length ≤ v.segment_size) :
    ∃ v', v.write_record lsn record none = some (.ok (), v') ∧
      v'.segment_size = v.segment_size := by
  unfold SegmentWriter.write_record
  rw [if_neg (Nat.not_lt.mpr hsize)]
  exact ⟨_, rfl, segment_size_ready v record⟩

theorem calm_runFlush {target : Nat} {stage : FlushStage} (h : Calm w) (hgood : Good o base w)
    (hi : w.calls[i]? = some (.flush_up_to target stage))
    (hstep : w.runFlush i target stage = some w') : Calm w' := by
  have hcalm := h.calls _ (mem_of_getElem? hi)
  cases stage with
  | start | fast | gated | gated_failed | gated_active =>
    cases hstep
    split <;> exact h.set rfl rfl rfl rfl trivial
  | gated_wait | elected | found_empty | empty_active =>
    cases hstep
    exact h.set rfl rfl rfl rfl trivial
  | lock_state | lock_gate | woken | announce again =>
    obtain ⟨-, ⟨⟩⟩ := ite_none_right_eq_some.mp hstep
    exact h.set rfl rfl rfl rfl trivial
  | locked =>
    simp only [World.runFlush, h.error] at hstep
    split at hstep
    · cases hstep
      exact h.set rfl rfl rfl rfl trivial
    cases hstep
    exact h.set h.error.symm rfl rfl rfl trivial
  | active =>
    simp only [World.runFlush] at hstep
    split at hstep
    · cases hstep
      exact h.set rfl rfl rfl rfl trivial
    cases hstep
    refine h.set rfl rfl rfl rfl ?_
    intro x hx
    rw [hgood.buffer.copy_records] at hx
    obtain ⟨r, hr, rfl⟩ := mem_map.mp hx
    exact h.log r (mem_of_mem_drop hr)
  | lock_writer batch records | written batch flush_result =>
    obtain ⟨-, ⟨⟩⟩ := ite_none_right_eq_some.mp hstep
    exact h.set rfl rfl rfl rfl hcalm
  | writing batch records =>
    cases records with
    | nil =>
      cases hstep
      exact h.set rfl rfl rfl rfl rfl
    | cons record rest =>
      obtain ⟨writer, hwrite, hsize⟩ := write_record_calm record.1 (hcalm record mem_cons_self)
      simp only [World.runFlush, World.writeNext, hwrite] at hstep
      cases hstep
      exact h.set rfl rfl hsize rfl fun x hx => hcalm x (mem_cons_of_mem _ hx)
  | publish batch flush_result | publish_active batch flush_result =>
    cases hstep
    exact h.set rfl rfl rfl rfl hcalm
  | publish_result batch flush_result =>
    cases hcalm
    simp only [World.runFlush] at hstep
    split at hstep <;> cases hstep
    exact h.set rfl rfl rfl rfl trivial
  | notify again =>
    cases hstep
    have hwoken : Calm { w with calls := w.calls.map Call.wake } := by
      refine ⟨h.error, h.log, fun d hd => ?_⟩
      obtain ⟨c, hc, rfl⟩ := mem_map.mp hd
      have hc := h.calls c hc
      cases c with
      | append stage => exact hc
      | flush_up_to target stage =>
        cases stage with
        | parked => trivial
        | _ => exact hc
    split <;> exact hwoken.set rfl rfl rfl rfl trivial
  | parked | ok | err e => cases hstep

theorem calm_step {e : Event} (h : Calm w) (hgood : Good o base w) (he : e.faultless = true)
    (hstep : step w e = some w') : Calm w' := by
  have hcall : ∀ c : Call, c.Calm w.writer.segment_size →
      Calm { w with calls := w.calls ++ [c] } := by
    intro c hc
    exact ⟨h.error, h.log, forall_mem_concat h.calls hc⟩
  cases steps_of_step hstep with
  | append | flush_up_to => exact hcall _ trivial
  | runAppend hi hrun => exact calm_runAppend h hi hrun
  | runFlush hi hrun => exact calm_runFlush h hgood hi hrun
  | write_fault | sync_fault => cases he
  | spurious_wakeup hi => exact h.set rfl rfl rfl rfl trivial

end Calm

/-! ## The log and its reopens -/

/-- The log with the records that the last open found. -/
structure Log where
  wal : World
  found : List Logged

/-- A step of the threads, or a reopen between two calls. -/
inductive LogEvent
  | thread (e : Event)
  | reopen (buffer_capacity segment_size : Nat)
  deriving DecidableEq, Repr

namespace Log

/-- The log in a new directory. -/
def create (buffer_capacity segment_size : Nat) : Log :=
  ⟨.opened buffer_capacity segment_size [] 0, []⟩

/-- The records through `flushed_lsn`. -/
def flushed (s : Log) : List Logged := (s.found ++ s.wal.log).take s.wal.flushed_lsn

/-- Records fit the fields of their headers, and LSNs fit 64 bits. A reopen loses what was not
flushed. -/
def step (s : Log) : LogEvent → Option Log
  | .thread e =>
    if e.Fits ∧ e.faultless = true ∧ s.wal.next_lsn < 2 ^ 64 then
      (WalThreads.step s.wal e).map fun wal => { s with wal }
    else none
  | .reopen buffer_capacity segment_size =>
    if s.wal.calls.all Call.returned then
      match WalThreads.new_with_options buffer_capacity segment_size s.wal.writer.segments with
      | .ok wal => some ⟨wal, s.flushed⟩
      | .error _ => none
    else none

/-- The threads have gone on behind the records that the open found, without a fault. -/
structure Sound (s : Log) : Prop extends Resumes s.found s.wal where
  calm : Calm s.wal

variable {s s' : Log}

theorem sound_create (buffer_capacity segment_size : Nat) :
    (create buffer_capacity segment_size).Sound where
  opened := ⟨.open segment_size [], ⟨[], [], rfl, rfl, rfl⟩,
    good_opened buffer_capacity segment_size 0 []⟩
  fitting := ⟨nofun, nofun⟩
  fits := nofun
  numbered := nofun
  calm := ⟨rfl, nofun, nofun⟩

theorem flushing_of_returned {c : Call} (h : c.returned = true) : c.flushing = false := by
  rw [Bool.eq_false_iff]
  intro hf
  rw [(Call.awake_of_flushing hf).1] at h
  cases h

namespace Sound

/-- The records through `flushed_lsn` are there, with consecutive LSNs. -/
theorem flushed_records (h : s.Sound) :
    s.flushed.length = s.wal.flushed_lsn ∧ NumberedFrom 0 s.flushed ∧ ∀ r ∈ s.flushed, r.Fits := by
  obtain ⟨o, ho, hgood⟩ := h.opened
  have hle := hgood.flushed_le
  obtain ⟨hnum, hfits⟩ := h.records
  refine ⟨?_, hnum.take _, fun r hr => hfits r (mem_of_mem_take hr)⟩
  unfold flushed
  rw [length_take, length_append]
  omega

/-- Between two flushes the files hold the flushed records, each whole in one segment. -/
theorem whole (h : s.Sound) (hidle : ∀ c ∈ s.wal.calls, c.flushing = false) :
    Whole s.flushed s.wal.writer := by
  obtain ⟨o, ho, hgood⟩ := h.opened
  have hzero : s.wal.calls.countP Call.flushing = 0 := by
    rw [countP_eq_zero]
    intro c hc hf
    rw [hidle c hc] at hf
    cases hf
  obtain ⟨hwritten, _⟩ := hgood.quiet hzero h.calm.error
  obtain ⟨groups, last, hrs, hclosed, hfile⟩ := hwritten.holds ho
  refine ⟨groups, last, ?_, hclosed, by rw [hfile, append_nil]⟩
  have hge := hgood.flushed_ge
  unfold flushed
  rw [hrs, take_append, take_of_length_le hge]

/-- A reopen finds the flushed records and goes on behind them. -/
theorem reopen (h : s.Sound) (hidle : ∀ c ∈ s.wal.calls, c.flushing = false)
    (buffer_capacity segment_size : Nat) :
    ∃ wal, WalThreads.new_with_options buffer_capacity segment_size s.wal.writer.segments =
      .ok wal ∧ wal.next_lsn = s.wal.flushed_lsn + 1 ∧ (Log.mk wal s.flushed).Sound := by
  obtain ⟨hlen, hnum, hfits⟩ := h.flushed_records
  obtain ⟨segments, hopen, -, hresumes⟩ := Resumes.reopen hnum hfits (h.whole hidle).holds
    buffer_capacity segment_size
  exact ⟨_, hopen, by rw [hlen]; rfl, hresumes, ⟨rfl, nofun, nofun⟩⟩

end Sound

theorem sound_step {e : LogEvent} (h : s.Sound) (hstep : s.step e = some s') : s'.Sound := by
  cases e with
  | thread e =>
    obtain ⟨hok, hstep⟩ := ite_none_right_eq_some.mp hstep
    obtain ⟨hfits, hfault, hlsn⟩ := hok
    obtain ⟨wal, hwal, rfl⟩ := map_eq_some_iff.mp hstep
    obtain ⟨o, ho, hgood⟩ := h.opened
    exact ⟨h.toResumes.step hfits hlsn hwal, calm_step h.calm hgood hfault hwal⟩
  | reopen buffer_capacity segment_size =>
    obtain ⟨hreturned, hstep⟩ := ite_none_right_eq_some.mp hstep
    have hidle : ∀ c ∈ s.wal.calls, c.flushing = false := fun c hc =>
      flushing_of_returned (all_eq_true.mp hreturned c hc)
    obtain ⟨wal, hopen, _, hsound⟩ := h.reopen hidle buffer_capacity segment_size
    rw [hopen] at hstep
    cases hstep
    exact hsound

/-- Whenever no flush is under way, an iterator over the directory yields exactly the flushed
records, which have the LSNs from 1 to `flushed_lsn`; each of them is whole in one segment; and a
reopen, with any sizes, goes on with the next LSN. -/
theorem the_segments_are_one_sequence (buffer_capacity segment_size : Nat) {p : List LogEvent}
    (hrun : Runs.run step (create buffer_capacity segment_size) p = some s)
    (hidle : ∀ c ∈ s.wal.calls, c.flushing = false) :
    iterate s.wal.writer.segments = .ok (s.flushed.map Logged.record) ∧
    s.flushed.length = s.wal.flushed_lsn ∧ NumberedFrom 0 s.flushed ∧
    (∃ groups : List (List Logged), groups.flatten = s.flushed ∧
      s.wal.writer.segments = groups.map bytesOf) ∧
    ∀ buffer_capacity segment_size, ∃ wal,
      WalThreads.new_with_options buffer_capacity segment_size s.wal.writer.segments = .ok wal ∧
        wal.next_lsn = s.wal.flushed_lsn + 1 := by
  have hsound : s.Sound :=
    Runs.inv_run (fun _ _ _ h hs => sound_step h hs) (sound_create _ _) hrun
  have hwhole := hsound.whole hidle
  obtain ⟨hlen, hnum, hfits⟩ := hsound.flushed_records
  refine ⟨iterate_whole hfits hwhole, hlen, hnum, ?_, fun buffer_capacity segment_size => ?_⟩
  · obtain ⟨groups, last, hrs, hclosed, hfile⟩ := hwhole
    refine ⟨groups ++ [last], by simpa using hrs, ?_⟩
    unfold SegmentWriter.segments
    rw [hclosed, hfile, List.map_append]
    rfl
  · obtain ⟨wal, hopen, hnext, _⟩ := hsound.reopen hidle buffer_capacity segment_size
    exact ⟨wal, hopen, hnext⟩

/-- A commit and an abort record are appended, and another thread flushes the two. -/
def twoRecords : List Event :=
  .append (log_commit 5) :: List.replicate 4 (.run 0) ++
    .append (log_abort 6) :: List.replicate 4 (.run 1) ++
    .flush_up_to 2 :: List.replicate 17 (.run 2)

/-- The two records do not fit into one segment. They are there after a reopen. -/
theorem two_segments_are_read_after_a_reopen :
    ∃ s, Runs.run step (create 64 40) (twoRecords.map .thread ++ [.reopen 100 100]) = some s ∧
      s.wal.flushed_lsn = 2 ∧ s.wal.writer.segments.length = 2 ∧
      iterate s.wal.writer.segments = .ok (s.flushed.map Logged.record) := by
  have hex : ∃ s, Runs.run step (create 64 40)
      (twoRecords.map .thread ++ [.reopen 100 100]) = some s ∧
      s.wal.flushed_lsn = 2 ∧ s.wal.writer.segments.length = 2 ∧ s.wal.calls = [] :=
    Runs.exists_run (by decide +kernel)
  obtain ⟨s, hrun, hflushed, hsegments, hcalls⟩ := hex
  have hidle : ∀ c ∈ s.wal.calls, c.flushing = false := by
    rw [hcalls]
    exact nofun
  exact ⟨s, hrun, hflushed, hsegments, (the_segments_are_one_sequence 64 40 hrun hidle).1⟩

end Log

end FluxDB.WalThreads
