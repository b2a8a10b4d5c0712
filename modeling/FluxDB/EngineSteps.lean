-- The engine as one machine: transactions that begin, write, commit and abort, vacuum
-- sweeps, checkpoints in the order in which the code captures and publishes them, the
-- log with its segments, page writes, and a crash followed by recovery at any point.
import FluxDB.Lib.Runs
import FluxDB.StatusRecovery

namespace FluxDB

open Maps
open Function (update)

namespace Engine

/-! ## Stages -/

/-- How far a transaction is. `wrote` is its `wrote_anything` flag. A writer holds the
status guard from `committing` or `aborting` on until it has left the active set. -/
inductive Stage
  | idle
  | running (wrote : Bool)
  | committing (lsn : Nat)
  | aborting
  | settled (guarded : Bool)
  deriving DecidableEq, Repr

/-- Whether the transaction holds the status guard, shared. -/
def Stage.guarded : Stage → Bool
  | committing _ | aborting | settled true => true
  | _ => false

/-- How far a call of `checkpoint` is. It holds the status guard alone up to `pages`. -/
inductive CheckpointStage
  | redo
  | next_txn
  | active
  | horizon
  | pinned
  | pages
  | logged
  | synced
  | flushed
  | named
  deriving DecidableEq, Repr

/-- Whether the status guard is held. -/
def CheckpointStage.capturing : CheckpointStage → Bool
  | redo | next_txn | active | horizon | pinned => true
  | _ => false

/-- A call of `checkpoint` in progress, with what it has captured so far. -/
structure Flight where
  data : CheckpointData
  stage : CheckpointStage
  lsn : Nat
  deriving DecidableEq, Repr

/-- A record's LSN with a page that it touches and that is still to be latched, changed
and stamped. -/
structure LateStamp where
  lsn : Nat
  page_id : Nat
  links : List Nat
  deriving DecidableEq, Repr

end Engine

/-! ## The state and the steps -/

/-- The engine, its files, and three things that the code does not store: the records ever
logged that no crash has lost (`log`, the one with LSN `n` at index `n - 1`; `segments`
holds the first LSNs of the segment files that remain), how far each transaction is, and
the vacuum horizon that the last recovery started from (`base`). -/
structure Engine where
  tm : TransactionManager
  vacuum_horizon : Nat
  base : Nat
  stage : Nat → Engine.Stage
  sweeps : List Nat
  log : List Engine.LogRecord
  segments : List Nat
  flushed : Nat
  mem : Nat → Engine.TreePage
  disk : Nat → Engine.TreePage
  num_pages : Nat
  next_page_id : Nat
  late : List Engine.LateStamp
  superblock : Option Nat
  checkpoints : List Engine.Flight

namespace Engine

inductive Event
  | begin
  | read_snapshot
  | end_read (token : Nat)
  | note_write (t : Nat)
  | insert (t page_id slot : Nat) (links : List Nat)
  | set_xmax (t page_id slot : Nat)
  | overflow_write (t page_id : Nat) (links : List Nat)
  | system (blocks : List (Nat × Change)) (late : List (Nat × List Nat))
  | late_stamp (i : Nat)
  | alloc
  | log_commit (t : Nat)
  | mark_committed (t : Nat)
  | log_abort (t : Nat)
  | mark_aborted (t : Nat)
  | settle (t : Nat)
  | sweep_start
  | sweep_finish (i : Nat)
  | flush (lsn : Nat) (rotations : List Nat)
  | write_page (page_id : Nat)
  | checkpoint
  | checkpoint_next (i : Nat)
  | flush_all_pages (i : Nat)
  | flush_some_pages (i : Nat)
  | crash (survived : Nat)

/-- The pages of a new index: the meta page with the root leaf and the bitmap page. -/
def created : Nat → TreePage :=
  update (fun _ => .zero) 0 { lsn := 0, rows := [], links := [1, 2] }

/-- The engine after `create`. -/
def new : Engine where
  tm := .new
  vacuum_horizon := 0
  base := 0
  stage := fun _ => .idle
  sweeps := []
  log := []
  segments := [1]
  flushed := 0
  mem := created
  disk := created
  num_pages := 3
  next_page_id := 3
  late := []
  superblock := none
  checkpoints := []

variable (w : Engine)

/-- The page id is one of the first three, or a logged record has a block for it. -/
def knows (q : Nat) : Bool :=
  decide (q < 3) || w.log.any fun r => r.blocks.any fun b => b.1 == q

/-- No checkpoint holds the status guard. -/
def guard_free : Bool := w.checkpoints.all fun f => !f.stage.capturing

/-- The record is appended and its blocks are changed and stamped, all under the latches of
their pages. -/
def log_blocks (r : LogRecord) (blocks : List (Nat × Change)) : Engine :=
  { w with
    log := w.log ++ [r]
    mem := blocks.foldl (change_block (w.log.length + 1)) w.mem }

/-- A transaction's write of one page, which comes after its `note_write`. -/
def write (t : Nat) (r : LogRecord) : Option Engine :=
  if w.stage t = .running true then some (w.log_blocks r r.blocks) else none

/-- What a record logged by the system may hold: pages that exist, row versions that are on
one of its pages, and page ids of its own pages or of pages logged before. -/
def fits (pages : List Nat) : Nat × Change → Bool
  | (page_id, .image rows links) =>
    decide (page_id < w.next_page_id) &&
      rows.all (fun v => pages.any fun q => decide (v ∈ (w.mem q).rows)) &&
      links.all fun q => decide (q ∈ pages) || w.knows q
  | (page_id, .link links) =>
    decide (page_id < w.next_page_id) && links.all fun q => decide (q ∈ pages) || w.knows q
  | _ => false

def system (blocks : List (Nat × Change)) (late : List (Nat × List Nat)) : Option Engine :=
  let all := blocks ++ late.map fun l => (l.1, .link l.2)
  if all.all (w.fits (all.map Prod.fst)) then
    some { w.log_blocks (.System all) blocks with
      late := w.late ++ late.map fun l => ⟨w.log.length + 1, l.1, l.2⟩ }
  else none

/-- The late change of a page. Its LSN becomes the record's, whatever it was. -/
def late_stamp (s : LateStamp) : Engine :=
  { w with mem := change_block s.lsn w.mem (s.page_id, .link s.links) }

/-- Segments are deleted from the oldest on, as long as the next one starts at or below the
redo point. The last one is kept. -/
def reclaim_segments_below (redo_point : Nat) : List Nat → List Nat
  | first :: next :: rest =>
    if next ≤ redo_point then reclaim_segments_below redo_point (next :: rest)
    else first :: next :: rest
  | segments => segments

/-- The first LSN that the remaining segments hold. -/
def first_lsn : Nat := w.segments.headD 1

/-- The transactions that the commit log has as aborted, from the horizon on. -/
def aborted_from (vacuum_horizon : Nat) : List Nat :=
  w.tm.clog.keys.filter fun t => w.tm.is_aborted t && decide (vacuum_horizon ≤ t)

/-- The next step of a checkpoint, in the order of the code. No production path records a
dirty page's first LSN, so the redo point is the next LSN to be given. -/
def advance (f : Flight) : Option (Engine × Flight) :=
  match f.stage with
  | .redo =>
    some (w, ⟨{ f.data with next_txn_id := w.tm.next_txn_id }, .next_txn, 0⟩)
  | .next_txn =>
    some (w, ⟨{ f.data with active_txns := w.tm.active_txns.keys }, .active, 0⟩)
  | .active =>
    some (w, ⟨{ f.data with vacuum_horizon := w.vacuum_horizon }, .horizon, 0⟩)
  | .horizon =>
    some (w, ⟨{ f.data with pinned_aborted := w.aborted_from f.data.vacuum_horizon }, .pinned, 0⟩)
  | .pinned =>
    some (w, ⟨{ f.data with next_page_id := w.next_page_id }, .pages, 0⟩)
  | .pages =>
    some (w.log_blocks (.Checkpoint f.data) [], ⟨f.data, .logged, w.log.length + 1⟩)
  | .logged =>
    if f.lsn ≤ w.flushed then some (w, { f with stage := .synced }) else none
  | .synced => none
  | .flushed => some ({ w with superblock := some f.lsn }, { f with stage := .named })
  | .named => none

/-- What a crash leaves when the log survives up to the LSN. -/
def files (survived : Nat) : Files where
  superblock := w.superblock
  first_lsn := w.first_lsn
  records := (w.log.take survived).drop (w.first_lsn - 1)
  pages := w.disk
  num_pages := w.num_pages

/-- The length of the data file after the pages that differ from it have been written. -/
def length_after (num_pages next_page_id : Nat) (disk mem : Nat → TreePage) : Nat :=
  ((List.range next_page_id).filter fun p => decide (mem p ≠ disk p)).foldl
    (fun n p => max n (p + 1)) num_pages

/-- The engine that `open` returns after a crash. -/
def reopened (survived : Nat) : Engine :=
  let r := recover (w.files survived)
  { tm := r.tm
    vacuum_horizon := r.vacuum_horizon
    base := r.vacuum_horizon
    stage := fun _ => .idle
    sweeps := []
    log := w.log.take survived
    segments := w.segments
    flushed := survived
    mem := r.pages
    disk := r.pages
    num_pages := length_after w.num_pages r.next_page_id w.disk r.pages
    next_page_id := r.next_page_id
    late := []
    superblock := w.superblock
    checkpoints := [] }

def step (w : Engine) : Event → Option Engine
  | .begin =>
    some { w with tm := w.tm.begin.2,
                  stage := update w.stage w.tm.next_txn_id (.running false) }
  | .read_snapshot => some { w with tm := w.tm.read_snapshot.2.2 }
  | .end_read token => some { w with tm := w.tm.end_read token }
  | .note_write t =>
    match w.stage t with
    | .running _ => some { w with stage := update w.stage t (.running true) }
    | _ => none
  | .insert t page_id slot links =>
    if page_id < w.next_page_id ∧ links.all w.knows then
      w.write t (.Insert t page_id slot links)
    else none
  | .set_xmax t page_id slot =>
    if page_id < w.next_page_id then w.write t (.SetXMax t page_id slot) else none
  | .overflow_write t page_id links =>
    if page_id < w.next_page_id ∧ links.all w.knows then
      w.write t (.OverflowWrite t page_id links)
    else none
  | .system blocks late => w.system blocks late
  | .late_stamp i =>
    match w.late[i]? with
    | some s => some { w.late_stamp s with late := w.late.eraseIdx i }
    | none => none
  | .alloc => some { w with next_page_id := w.next_page_id + 1 }
  | .log_commit t =>
    if w.stage t = .running true ∧ w.guard_free then
      some { w.log_blocks (.Commit t) [] with
        stage := update w.stage t (.committing (w.log.length + 1)) }
    else none
  | .mark_committed t =>
    match w.stage t with
    | .committing lsn =>
      if lsn ≤ w.flushed then
        some { w with tm := w.tm.clog_insert t .Committed,
                      stage := update w.stage t (.settled true) }
      else none
    | .running false =>
      some { w with tm := w.tm.clog_insert t .Committed,
                    stage := update w.stage t (.settled false) }
    | _ => none
  | .log_abort t =>
    if w.stage t = .running true ∧ w.guard_free then
      some { w.log_blocks (.Abort t) [] with stage := update w.stage t .aborting }
    else none
  | .mark_aborted t =>
    match w.stage t with
    | .aborting =>
      some { w with tm := w.tm.clog_insert t .Aborted,
                    stage := update w.stage t (.settled true) }
    | .running false =>
      some { w with tm := w.tm.clog_insert t .Aborted,
                    stage := update w.stage t (.settled false) }
    | _ => none
  | .settle t =>
    match w.stage t with
    | .settled _ =>
      some { w with tm := w.tm.active_remove t, stage := update w.stage t .idle }
    | _ => none
  | .sweep_start => some { w with sweeps := w.tm.global_xmin :: w.sweeps }
  | .sweep_finish i =>
    match w.sweeps[i]? with
    | some horizon => some { w with vacuum_horizon := max w.vacuum_horizon horizon }
    | none => none
  | .flush lsn rotations =>
    if w.flushed ≤ lsn ∧ lsn ≤ w.log.length ∧ rotations.Pairwise (· < ·) ∧
        ∀ r ∈ rotations, w.flushed < r ∧ r ≤ lsn then
      some { w with flushed := lsn, segments := w.segments ++ rotations }
    else none
  | .write_page page_id =>
    if (w.mem page_id).lsn ≤ w.flushed then
      some { w with disk := update w.disk page_id (w.mem page_id),
                    num_pages := max w.num_pages (page_id + 1) }
    else none
  | .checkpoint =>
    if w.guard_free ∧ w.tm.active_txns.keys.all fun t => !(w.stage t).guarded then
      some { w with checkpoints :=
        ⟨⟨w.log.length + 1, 0, [], [], 0, 0⟩, .redo, 0⟩ :: w.checkpoints }
    else none
  | .checkpoint_next i =>
    match w.checkpoints[i]? with
    | some f =>
      match f.stage with
      | .named =>
        some { w with segments := reclaim_segments_below f.data.redo_point w.segments,
                      checkpoints := w.checkpoints.eraseIdx i }
      | _ => (w.advance f).map fun (w', f') =>
          { w' with checkpoints := w.checkpoints.set i f' }
    | none => none
  | .flush_all_pages i =>
    -- nobody writes meanwhile, and the log is flushed first
    match w.checkpoints[i]? with
    | some f =>
      if f.stage = .synced ∧ w.flushed = w.log.length then
        some { w with disk := w.mem,
                      num_pages := length_after w.num_pages w.next_page_id w.disk w.mem,
                      checkpoints := w.checkpoints.set i { f with stage := .flushed } }
      else none
    | none => none
  | .flush_some_pages i =>
    -- writers are at work: the pages that it wrote out are `write_page` steps of their own
    match w.checkpoints[i]? with
    | some f =>
      if f.stage = .synced then
        some { w with checkpoints := w.checkpoints.set i { f with stage := .flushed } }
      else none
    | none => none
  | .crash survived =>
    if w.flushed ≤ survived ∧ survived ≤ w.log.length then some (w.reopened survived) else none

end Engine

end FluxDB
