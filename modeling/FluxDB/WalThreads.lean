-- The threads of the log. Any number of calls of `append` and `flush_up_to` run at once, cut at
-- every lock that they take and at every shared value that they read or write without one, and
-- every write, rotation and sync of the leader's may fail.
import FluxDB.Lib.Maps
import FluxDB.WalBuffer

namespace FluxDB.WalThreads

/-! ## Calls -/

/-- Where a call of `append` is. It holds the state lock from `locked` to `push`. -/
inductive AppendStage
  | start (entry : Entry)
  | lock (entry : Entry)
  | locked (entry : Entry)
  | push (lsn : Nat) (entry : Entry)
  | ok (lsn : Nat)
  | err (e : FlushError)
  deriving DecidableEq, Repr

/-- What a leader has found in the buffer. -/
structure Batch where
  bytes_to_consume : Nat
  durable_lsn : Nat
  deriving DecidableEq, Repr

/-- Where a call of `flush_up_to` is. `fast` is the head of the loop. A follower goes through the
stages from `lock_gate` to `woken`. A leader goes through those from `elected` on: it has set
`is_flushing` in `elected` and `flush_active` in `active`, and it has taken them back in
`publish_active` and `publish_result`, or `empty_active` and `announce`. -/
inductive FlushStage
  | start
  | fast
  | lock_state
  | locked
  | lock_gate
  | gated
  | gated_failed
  | gated_active
  | gated_wait
  | parked
  | woken
  | elected
  | active
  | found_empty
  | empty_active
  | lock_writer (batch : Batch) (records : List (Nat × Bytes))
  | writing (batch : Batch) (records : List (Nat × Bytes))
  | written (batch : Batch) (flush_result : Except FlushError Unit)
  | publish (batch : Batch) (flush_result : Except FlushError Unit)
  | publish_active (batch : Batch) (flush_result : Except FlushError Unit)
  | publish_result (batch : Batch) (flush_result : Except FlushError Unit)
  | announce (again : Bool)
  | notify (again : Bool)
  | ok
  | err (e : FlushError)
  deriving DecidableEq, Repr

/-- A call, with the LSN that it was made for. Behind `start` that is the clamped target. -/
inductive Call
  | append (stage : AppendStage)
  | flush_up_to (lsn : Nat) (stage : FlushStage)
  deriving DecidableEq, Repr

namespace Call

def holdsState : Call → Bool
  | append (.locked _) | append (.push _ _) => true
  | flush_up_to _ stage =>
    match stage with
    | .locked | .elected | .active | .found_empty | .empty_active | .publish _ _
    | .publish_active _ _ | .publish_result _ _ => true
    | _ => false
  | _ => false

def holdsGate : Call → Bool
  | flush_up_to _ stage =>
    match stage with
    | .gated | .gated_failed | .gated_active | .gated_wait => true
    | _ => false
  | _ => false

def holdsWriter : Call → Bool
  | flush_up_to _ (.writing _ _) => true
  | _ => false

def isParked : Call → Bool
  | flush_up_to _ .parked => true
  | _ => false

/-- The call has set `is_flushing` and not taken it back. -/
def leads : Call → Bool
  | flush_up_to _ stage =>
    match stage with
    | .elected | .active | .found_empty | .lock_writer _ _ | .writing _ _ | .written _ _
    | .publish _ _ => true
    | _ => false
  | _ => false

/-- The call has led and not finished its `notify_all`. -/
def winds_up : Call → Bool
  | flush_up_to _ stage =>
    match stage with
    | .empty_active | .publish_active _ _ | .publish_result _ _ | .announce _ | .notify _ => true
    | _ => false
  | _ => false

def returned : Call → Bool
  | append (.ok _) | append (.err _) | flush_up_to _ .ok | flush_up_to _ (.err _) => true
  | _ => false

/-- What `notify_all` does to a call. -/
def wake : Call → Call
  | flush_up_to target .parked => flush_up_to target .woken
  | c => c

end Call

/-! ## The log and its threads -/

/-- The log with its calls. `log` is the history of every record that was put into the buffer
since the log was opened. -/
structure World where
  buffer_capacity : Nat
  next_lsn : Nat
  buffer : WalBuffer
  is_flushing : Bool
  flush_error : Option FlushError
  flushed_lsn : Nat
  flush_failed : Bool
  flush_active : Bool
  writer : SegmentWriter
  calls : List Call
  log : List Logged
  deriving DecidableEq, Repr

/-- A thread makes a call, or a call takes its next step. The step may be a write or a sync that
fails, or a wakeup that nobody has sent. -/
inductive Event
  | append (entry : Entry)
  | flush_up_to (lsn : Nat)
  | run (i : Nat)
  | write_fault (i : Nat) (fault : WriteFault)
  | sync_fault (i : Nat)
  | spurious_wakeup (i : Nat)
  deriving DecidableEq, Repr

namespace World

variable (w : World)

def stateFree : Bool := w.calls.all fun c => !c.holdsState
def gateFree : Bool := w.calls.all fun c => !c.holdsGate
def writerFree : Bool := w.calls.all fun c => !c.holdsWriter

def setCall (i : Nat) (c : Call) : World := { w with calls := w.calls.set i c }

def setAppend (i : Nat) (stage : AppendStage) : World := w.setCall i (.append stage)

def setFlush (i target : Nat) (stage : FlushStage) : World :=
  w.setCall i (.flush_up_to target stage)

/-- The next step of a call of `append`. -/
def runAppend (i : Nat) : AppendStage → Option World
  | .start entry =>
    let segment_limit := w.writer.segment_size
    let max_allowed_size := min segment_limit w.buffer_capacity
    if entry.record_size > segment_limit then
      some (w.setAppend i (.err (.RecordTooLarge 0 entry.record_size segment_limit)))
    else if entry.record_size > max_allowed_size then
      some (w.setAppend i (.err (.RecordTooLarge w.next_lsn entry.record_size max_allowed_size)))
    else some (w.setAppend i (.lock entry))
  | .lock entry => if w.stateFree then some (w.setAppend i (.locked entry)) else none
  | .locked entry =>
    match w.flush_error with
    | some cause => some (w.setAppend i (.err (.FlushFailed cause)))
    | none =>
      if entry.record_size > w.buffer.free_space then
        some (w.setAppend i (.err (.BufferFull entry.record_size w.buffer.free_space)))
      else
        some ({ w with next_lsn := w.next_lsn + 1 }.setAppend i (.push w.next_lsn entry))
  | .push lsn entry =>
    match w.buffer.push_record lsn (entry.bytes lsn) with
    | .ok buffer =>
      some ({ w with buffer, log := w.log ++ [Logged.mk lsn entry] }.setAppend i (.ok lsn))
    | .error e => some (w.setAppend i (.err e))
  | .ok _ => none
  | .err _ => none

/-- The leader's write of the next record. -/
def writeNext (i target : Nat) (batch : Batch) (lsn : Nat) (record : Bytes)
    (rest : List (Nat × Bytes)) (fault : Option WriteFault) : Option World :=
  match w.writer.write_record lsn record fault with
  | some (.ok _, writer) => some ({ w with writer }.setFlush i target (.writing batch rest))
  | some (.error e, writer) =>
    some ({ w with writer }.setFlush i target (.written batch (.error e)))
  | none => none

/-- The next step of a call of `flush_up_to`. A lock that is taken and let go at once is one
step. -/
def runFlush (i lsn : Nat) : FlushStage → Option World
  | .start =>
    let target := min lsn (w.next_lsn - 1)
    some (w.setFlush i target (if target = 0 then .ok else .fast))
  | .fast => some (w.setFlush i lsn (if w.flushed_lsn ≥ lsn then .ok else .lock_state))
  | .lock_state => if w.stateFree then some (w.setFlush i lsn .locked) else none
  | .locked =>
    match w.flush_error with
    | some cause => some (w.setFlush i lsn (.err (.FlushFailed cause)))
    | none =>
      if w.is_flushing then some (w.setFlush i lsn .lock_gate)
      else some ({ w with is_flushing := true }.setFlush i lsn .elected)
  | .lock_gate => if w.gateFree then some (w.setFlush i lsn .gated) else none
  | .gated => some (w.setFlush i lsn (if w.flushed_lsn < lsn then .gated_failed else .fast))
  | .gated_failed => some (w.setFlush i lsn (if w.flush_failed then .fast else .gated_active))
  | .gated_active => some (w.setFlush i lsn (if w.flush_active then .gated_wait else .fast))
  | .gated_wait => some (w.setFlush i lsn .parked)
  | .parked => none
  | .woken => if w.gateFree then some (w.setFlush i lsn .fast) else none
  | .elected => some ({ w with flush_active := true }.setFlush i lsn .active)
  | .active =>
    match w.buffer.buffered_prefix_len with
    | none => some (w.setFlush i lsn .found_empty)
    | some (bytes_to_consume, durable_lsn) =>
      some (w.setFlush i lsn (.lock_writer ⟨bytes_to_consume, durable_lsn⟩ w.buffer.copy_records))
  | .found_empty => some ({ w with is_flushing := false }.setFlush i lsn .empty_active)
  | .empty_active => some ({ w with flush_active := false }.setFlush i lsn (.announce false))
  | .lock_writer batch records =>
    if w.writerFree then some (w.setFlush i lsn (.writing batch records)) else none
  | .writing batch [] =>
    some ({ w with writer := w.writer.sync }.setFlush i lsn (.written batch (.ok ())))
  | .writing batch ((rec_lsn, record) :: rest) => w.writeNext i lsn batch rec_lsn record rest none
  | .written batch flush_result =>
    if w.stateFree then some (w.setFlush i lsn (.publish batch flush_result)) else none
  | .publish batch flush_result =>
    some ({ w with is_flushing := false }.setFlush i lsn (.publish_active batch flush_result))
  | .publish_active batch flush_result =>
    some ({ w with flush_active := false }.setFlush i lsn (.publish_result batch flush_result))
  | .publish_result batch (.ok _) =>
    match w.buffer.consume_prefix batch.bytes_to_consume with
    | some buffer =>
      some ({ w with buffer, flushed_lsn := batch.durable_lsn }.setFlush i lsn (.announce true))
    | none => none
  | .publish_result _ (.error e) =>
    some ({ w with flush_error := some e, flush_failed := true }.setFlush i lsn (.announce true))
  | .announce again => if w.gateFree then some (w.setFlush i lsn (.notify again)) else none
  | .notify again =>
    some ({ w with calls := w.calls.map Call.wake }.setFlush i lsn (if again then .fast else .ok))
  | .ok => none
  | .err _ => none

def runCall (i : Nat) : Call → Option World
  | .append stage => w.runAppend i stage
  | .flush_up_to lsn stage => w.runFlush i lsn stage

/-- The log as an open finds it: `last_lsn` is the last record of the segments. -/
def opened (buffer_capacity segment_size : Nat) (segments : List Bytes) (last_lsn : Nat) :
    World where
  buffer_capacity
  next_lsn := last_lsn + 1
  buffer := .with_capacity buffer_capacity
  is_flushing := false
  flush_error := none
  flushed_lsn := last_lsn
  flush_failed := false
  flush_active := false
  writer := .open segment_size segments
  calls := []
  log := []

end World

def step (w : World) : Event → Option World
  | .append entry => some { w with calls := w.calls ++ [.append (.start entry)] }
  | .flush_up_to lsn => some { w with calls := w.calls ++ [.flush_up_to lsn .start] }
  | .run i => w.calls[i]?.bind (w.runCall i)
  | .write_fault i fault =>
    match w.calls[i]? with
    | some (.flush_up_to target (.writing batch ((lsn, record) :: rest))) =>
      w.writeNext i target batch lsn record rest (some fault)
    | _ => none
  | .sync_fault i =>
    match w.calls[i]? with
    | some (.flush_up_to target (.writing batch [])) =>
      some (w.setFlush i target (.written batch (.error .Io)))
    | _ => none
  | .spurious_wakeup i =>
    match w.calls[i]? with
    | some (.flush_up_to target .parked) => some (w.setFlush i target .woken)
    | _ => none

/-! ## What a step of an appender does -/

/-- The steps of `append`, with what they have checked. -/
inductive Appends (w : World) (i : Nat) : AppendStage → World → Prop
  | tooLarge (entry : Entry) (e : FlushError) :
    Appends w i (.start entry) (w.setAppend i (.err e))
  | size (entry : Entry) (hsize : entry.record_size ≤ w.writer.segment_size) :
    Appends w i (.start entry) (w.setAppend i (.lock entry))
  | lock (entry : Entry) (hfree : w.stateFree = true) :
    Appends w i (.lock entry) (w.setAppend i (.locked entry))
  | refuse (entry : Entry) (e : FlushError) :
    Appends w i (.locked entry) (w.setAppend i (.err e))
  | allocate (entry : Entry) (hroom : entry.record_size ≤ w.buffer.free_space) :
    Appends w i (.locked entry)
      ({ w with next_lsn := w.next_lsn + 1 }.setAppend i (.push w.next_lsn entry))
  | push (lsn : Nat) (entry : Entry) (buffer : WalBuffer)
    (hpush : w.buffer.push_record lsn (entry.bytes lsn) = .ok buffer) :
    Appends w i (.push lsn entry)
      ({ w with buffer, log := w.log ++ [Logged.mk lsn entry] }.setAppend i (.ok lsn))
  | overrun (lsn : Nat) (entry : Entry) (e : FlushError)
    (hpush : w.buffer.push_record lsn (entry.bytes lsn) = .error e) :
    Appends w i (.push lsn entry) (w.setAppend i (.err e))

theorem appends_of_run {w w' : World} {i : Nat} {stage : AppendStage}
    (hstep : w.runAppend i stage = some w') : Appends w i stage w' := by
  cases stage with
  | start entry =>
    simp only [World.runAppend] at hstep
    split at hstep
    · cases hstep
      exact .tooLarge _ _
    rename_i hsize
    split at hstep
    · cases hstep
      exact .tooLarge _ _
    cases hstep
    exact .size _ (Nat.not_lt.mp hsize)
  | lock entry =>
    obtain ⟨hfree, ⟨⟩⟩ := Option.ite_none_right_eq_some.mp hstep
    exact .lock _ hfree
  | locked entry =>
    simp only [World.runAppend] at hstep
    split at hstep
    · cases hstep
      exact .refuse _ _
    split at hstep
    · cases hstep
      exact .refuse _ _
    rename_i hroom
    cases hstep
    exact .allocate _ (Nat.not_lt.mp hroom)
  | push lsn entry =>
    simp only [World.runAppend] at hstep
    split at hstep
    · next hpush =>
      cases hstep
      exact .push _ _ _ hpush
    rename_i hpush
    cases hstep
    exact .overrun _ _ _ hpush
  | ok lsn | err e => cases hstep

/-! ## What a step does -/

/-- A call is made, a call takes its next step, or a write, a sync or a wait goes wrong. -/
inductive Steps (w : World) : Event → World → Prop
  | append (entry : Entry) :
    Steps w (.append entry) { w with calls := w.calls ++ [.append (.start entry)] }
  | flush_up_to (lsn : Nat) :
    Steps w (.flush_up_to lsn) { w with calls := w.calls ++ [.flush_up_to lsn .start] }
  | runAppend {i : Nat} {stage : AppendStage} {w' : World}
    (hi : w.calls[i]? = some (.append stage)) (hrun : w.runAppend i stage = some w') :
    Steps w (.run i) w'
  | runFlush {i target : Nat} {stage : FlushStage} {w' : World}
    (hi : w.calls[i]? = some (.flush_up_to target stage))
    (hrun : w.runFlush i target stage = some w') : Steps w (.run i) w'
  | write_fault {i target lsn : Nat} {batch : Batch} {record : Bytes}
    {rest : List (Nat × Bytes)} {fault : WriteFault} {w' : World}
    (hi : w.calls[i]? = some (.flush_up_to target (.writing batch ((lsn, record) :: rest))))
    (hrun : w.writeNext i target batch lsn record rest (some fault) = some w') :
    Steps w (.write_fault i fault) w'
  | sync_fault {i target : Nat} {batch : Batch}
    (hi : w.calls[i]? = some (.flush_up_to target (.writing batch []))) :
    Steps w (.sync_fault i) (w.setFlush i target (.written batch (.error .Io)))
  | spurious_wakeup {i target : Nat} (hi : w.calls[i]? = some (.flush_up_to target .parked)) :
    Steps w (.spurious_wakeup i) (w.setFlush i target .woken)

theorem steps_of_step {w w' : World} {e : Event} (hstep : step w e = some w') : Steps w e w' := by
  cases e with
  | append entry =>
    cases hstep
    exact .append entry
  | flush_up_to lsn =>
    cases hstep
    exact .flush_up_to lsn
  | run i =>
    obtain ⟨c, hi, hrun⟩ := Option.bind_eq_some_iff.mp hstep
    cases c with
    | append stage => exact .runAppend hi hrun
    | flush_up_to target stage => exact .runFlush hi hrun
  | write_fault i fault =>
    simp only [step] at hstep
    split at hstep
    · next hi => exact .write_fault hi hstep
    · cases hstep
  | sync_fault i =>
    simp only [step] at hstep
    split at hstep <;> cases hstep
    exact .sync_fault ‹_›
  | spurious_wakeup i =>
    simp only [step] at hstep
    split at hstep <;> cases hstep
    exact .spurious_wakeup ‹_›

end FluxDB.WalThreads
