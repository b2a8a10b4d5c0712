-- The buffer pool and the checkpoint. Frames cache pages, with pins and dirty flags; a
-- flush copies a frame and writes the copy later, without the shard lock; a checkpoint
-- reads a redo point, flushes the frames one after the other, syncs and writes the superblock.
import FluxDB.Lib.Maps
import FluxDB.PageLsns
import FluxDB.ShardFrames

namespace FluxDB

open Function (update)

/-! ## Frames, flushes and the checkpoint -/

/-- The metadata of a frame, with its flag in the replacer. `readers` counts the live read
guards among its pins. A page is loaded within one step here. -/
structure FrameMetadata extends Shard.FrameMetadata where
  evictable : Bool
  readers : Nat
  deriving DecidableEq, Repr

def FrameMetadata.free : FrameMetadata :=
  { Shard.FrameMetadata.free with evictable := false, readers := 0 }

/-- One more pin: the frame leaves the replacer. -/
def FrameMetadata.pin (m : FrameMetadata) : FrameMetadata :=
  { m with pin_count := m.pin_count + 1, evictable := false }

/-- One pin less: without pins the frame is a candidate for eviction. -/
def FrameMetadata.unpin (m : FrameMetadata) (is_dirty : Bool) : FrameMetadata :=
  { m with pin_count := m.pin_count - 1
           is_dirty := m.is_dirty || is_dirty
           evictable := m.evictable || (m.pin_count - 1 == 0) }

inductive FlightStage
  | copying
  | copied (lsn : Nat)
  | written
  | done
  | failed
  deriving DecidableEq, Repr

/-- A `flush_page_inner` after it has cleared the dirty flag. -/
structure Flight where
  frame : Nat
  page : Nat
  stage : FlightStage
  deriving DecidableEq, Repr

def Flight.active (fl : Flight) : Bool :=
  match fl.stage with
  | .done | .failed => false
  | _ => true

/-- Where `Engine::checkpoint` is. `cursor` is the frame that `flush_all_pages` is at. -/
inductive Checkpoint
  | idle
  | started (redo : Nat)
  | visiting (redo cursor : Nat)
  | flushing (redo cursor page : Nat)
  | waiting (redo cursor flight : Nat)
  | synced (redo : Nat)
  deriving DecidableEq, Repr

/-- The pool over the pages. `disk` and `synced` hold the page LSN of the image that was
last written and of the one that was on disk at the last sync; `pages.lsn` is that of the
image in the frame. -/
structure Pool where
  pages : Pages
  n_frames : Nat
  page_table : Nat → Option Nat
  metadata : Nat → FrameMetadata
  disk : Nat → Nat
  synced : Nat → Nat
  flights : List Flight
  checkpoint : Checkpoint

inductive PoolEvent
  | page (e : PagesEvent)
  | fetch_page (p : Nat)
  | drop_read_guard (p : Nat)
  | victim (f : Nat)
  | evict (f : Nat)
  | load (p f : Nat)
  | flush_page (p : Nat)
  | copy_frame (k : Nat)
  | write_page (k : Nat)
  | finish_flush (k : Nat)
  | fail_flush (k : Nat)
  | sync_data
  | read_redo_point
  | log_checkpoint
  | visit_frame
  | flush_visited
  | flush_returned
  | sync_checkpoint
  | write_superblock
  | fail_checkpoint
  deriving DecidableEq, Repr

/-! ## Steps -/

/-- The pages that a task's live guards have written. -/
def Pages.wrote (w : Pages) (i : Nat) : List Nat :=
  match w.tasks[i]? with
  | some task => task.wrote
  | none => []

namespace Pool

def new (n_frames : Nat) : Pool where
  pages := Pages.new
  n_frames := n_frames
  page_table := fun _ => none
  metadata := fun _ => FrameMetadata.free
  disk := fun _ => 0
  synced := fun _ => 0
  flights := []
  checkpoint := .idle

def unpin_page (w : Pool) (p : Nat) (is_dirty : Bool) : Pool :=
  match w.page_table p with
  | some f =>
    if 0 < (w.metadata f).pin_count then
      { w with metadata := update w.metadata f ((w.metadata f).unpin is_dirty) }
    else w
  | none => w

/-- A hit of `acquire_frame`. -/
def pin_page (w : Pool) (p : Nat) : Option Pool :=
  match w.page_table p with
  | some f => some { w with metadata := update w.metadata f (w.metadata f).pin }
  | none => none

/-- What a section's action does to the frames. A thread that waits for a latch has pinned
the page before; its pin is that of a reader until the latch is granted. -/
def act_frames (w : Pool) (i : Nat) : List Action → Option Pool
  | .latch p :: _ | .new p :: _ => w.pin_page p
  | .unpin p :: _ => some (w.unpin_page p (decide (p ∈ w.pages.wrote i)))
  | _ => some w

/-- The start of `flush_page_inner` on a dirty page: the flag is cleared and the frame is
pinned, but it stays in the replacer. -/
def start_flush (w : Pool) (p f : Nat) : Pool :=
  { w with
    metadata := update w.metadata f
      { w.metadata f with is_dirty := false, pin_count := (w.metadata f).pin_count + 1 }
    flights := w.flights ++ [{ frame := f, page := p, stage := .copying }] }

def set_stage (w : Pool) (k : Nat) (fl : Flight) (stage : FlightStage) : Pool :=
  { w with flights := w.flights.set k { fl with stage := stage } }

/-- The end of `flush_page_inner`, with or without an error. -/
def end_flush (w : Pool) (k : Nat) (fl : Flight) (ok : Bool) : Pool :=
  { w.set_stage k fl (if ok then .done else .failed) with
    metadata := update w.metadata fl.frame ((w.metadata fl.frame).unpin (!ok)) }

/-- The page that sits dirty in a frame. -/
def dirty_page (w : Pool) (f : Nat) : Option Nat :=
  if (w.metadata f).is_dirty then (w.metadata f).page_id else none

/-- The frame of a dirty page. -/
def dirty_frame (w : Pool) (p : Nat) : Option Nat :=
  match w.page_table p with
  | some f => if (w.metadata f).is_dirty then some f else none
  | none => none

def step (w : Pool) : PoolEvent → Option Pool
  | .page e =>
    match w.pages.step e with
    | some pages =>
      match e with
      | .act i => (w.act_frames i (w.pages.todo i)).map fun v => { v with pages := pages }
      | _ => some { w with pages := pages }
    | none => none
  | .fetch_page p =>
    match w.page_table p with
    | some f =>
      some { w with metadata := update w.metadata f
                      { (w.metadata f).pin with readers := (w.metadata f).readers + 1 } }
    | none => none
  | .drop_read_guard p =>
    match w.page_table p with
    | some f =>
      if 0 < (w.metadata f).readers then
        some { w with metadata := update w.metadata f
                        { (w.metadata f).unpin false with readers := (w.metadata f).readers - 1 } }
      else none
    | none => none
  -- the clock picked a dirty frame: it leaves the replacer, and its page is flushed next
  | .victim f =>
    if (w.metadata f).evictable ∧ (w.metadata f).is_dirty then
      some { w with metadata := update w.metadata f { w.metadata f with evictable := false } }
    else none
  | .evict f =>
    match (w.metadata f).page_id with
    | some p =>
      if (w.metadata f).evictable ∧ (w.metadata f).is_dirty = false then
        some { w with page_table := update w.page_table p none
                      metadata := update w.metadata f FrameMetadata.free }
      else none
    | none => none
  | .load p f =>
    if w.page_table p = none ∧ (w.metadata f).page_id = none ∧ f < w.n_frames then
      some { w with page_table := update w.page_table p (some f)
                    metadata := update w.metadata f
                      { page_id := some p, pin_count := 1, is_dirty := false, loading := false,
                        evictable := false, readers := 1 }
                    pages := { w.pages with lsn := update w.pages.lsn p (w.disk p) } }
    else none
  | .flush_page p => (w.dirty_frame p).map fun f => w.start_flush p f
  -- the bytes and their LSN are read under the frame's read latch
  | .copy_frame k =>
    match w.flights[k]? with
    | some fl =>
      match fl.stage, (w.metadata fl.frame).page_id with
      | .copying, some q =>
        if w.pages.holder q = none then some (w.set_stage k fl (.copied (w.pages.lsn q))) else none
      | _, _ => none
    | none => none
  | .write_page k =>
    match w.flights[k]? with
    | some fl =>
      match fl.stage with
      | .copied lsn =>
        some { w.set_stage k fl .written with disk := update w.disk fl.page lsn }
      | _ => none
    | none => none
  | .finish_flush k =>
    match w.flights[k]? with
    | some fl => if fl.stage = .written then some (w.end_flush k fl true) else none
    | none => none
  | .fail_flush k =>
    match w.flights[k]? with
    | some fl => if fl.active then some (w.end_flush k fl false) else none
    | none => none
  | .sync_data => some { w with synced := w.disk }
  -- no writer records a `rec_lsn`, so the redo point is the next LSN
  | .read_redo_point =>
    match w.checkpoint with
    | .idle => some { w with checkpoint := .started w.pages.next_lsn }
    | _ => none
  | .log_checkpoint =>
    match w.checkpoint, w.pages.step .log_other with
    | .started redo, some pages => some { w with pages := pages, checkpoint := .visiting redo 0 }
    | _, _ => none
  | .visit_frame =>
    match w.checkpoint with
    | .visiting redo cursor =>
      if cursor < w.n_frames then
        match w.dirty_page cursor with
        | some p => some { w with checkpoint := .flushing redo cursor p }
        | none => some { w with checkpoint := .visiting redo (cursor + 1) }
      else none
    | _ => none
  | .flush_visited =>
    match w.checkpoint with
    | .flushing redo cursor p =>
      match w.dirty_frame p with
      | some f =>
        some { w.start_flush p f with checkpoint := .waiting redo cursor w.flights.length }
      | none => some { w with checkpoint := .visiting redo (cursor + 1) }
    | _ => none
  | .flush_returned =>
    match w.checkpoint with
    | .waiting redo cursor k =>
      match (w.flights[k]?).map Flight.stage with
      | some .done => some { w with checkpoint := .visiting redo (cursor + 1) }
      | some .failed => some { w with checkpoint := .idle }
      | _ => none
    | _ => none
  | .sync_checkpoint =>
    match w.checkpoint with
    | .visiting redo cursor =>
      if cursor = w.n_frames then some { w with synced := w.disk, checkpoint := .synced redo }
      else none
    | _ => none
  | .write_superblock =>
    match w.checkpoint with
    | .synced _ => some { w with checkpoint := .idle }
    | _ => none
  | .fail_checkpoint => some { w with checkpoint := .idle }

end Pool

end FluxDB
