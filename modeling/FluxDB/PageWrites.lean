-- The buffer pool over the log. A thread that writes a page out copies its frame, flushes the log
-- up to the LSN of the copy and writes the copy to the data file. The shards, the threads of the
-- log, crashes and reopens interleave as they like, and it is kept what of the segment files is
-- on the disk for good.
import FluxDB.FrameContents
import FluxDB.ReopenedLog

namespace FluxDB.PageWrites

open Function (update)

/-- A page: its LSN and the rest of it. -/
structure Image where
  page_lsn : Nat
  data : Bytes
  deriving DecidableEq, Repr

/-- A page of zeros has the null LSN. -/
instance : Inhabited Image := ⟨⟨0, []⟩⟩

/-- The shards of the pool, the log, and the call of `flush_up_to` that a thread of a shard waits
for. `images` is what has been written to a page of the data file since the last crash. The
records of the log have the LSNs from `base + 1` on, and `found` are those that the open found.
`short` names the segments that the open found with bytes that were not synced and that were not
synced since, with the number of bytes that are. -/
structure Store where
  shards : Nat → Shard.World Image
  wal : WalThreads.World
  waits : Nat × Nat → Option Nat
  images : Nat → Nat → List Image
  base : Nat
  found : List Logged
  short : Nat → Option Nat

/-- A step of the log, a step of a shard, the call of `flush_up_to` of a thread that writes a page
out, a restart of the process, or a crash of the machine. After a crash each segment has kept a
number of its bytes and each page some image that was written to it. -/
inductive Event
  | wal (e : WalThreads.Event)
  | shard (k : Nat) (e : Shard.Event Image)
  | flush_wal (k i : Nat)
  | reopen (buffer_capacity segment_size n_frames : Nat)
  | crash (kept : Nat → Nat) (pick : Nat → Nat → Nat) (buffer_capacity segment_size n_frames : Nat)

/-- The step syncs the current segment, on its own or before a rotation. -/
def syncs (w : WalThreads.World) : WalThreads.Event → Bool
  | .run i =>
    match w.calls[i]? with
    | some (.flush_up_to _ (.writing _ [])) => true
    | some (.flush_up_to _ (.writing _ ((_, record) :: _))) =>
      decide (record.length ≤ w.writer.segment_size) && w.writer.needs_rotation record
    | _ => false
  | .write_fault i fault =>
    match w.calls[i]?, fault with
    | some (.flush_up_to _ (.writing _ ((_, record) :: _))), .write _
    | some (.flush_up_to _ (.writing _ ((_, record) :: _))), .rotate_open
    | some (.flush_up_to _ (.writing _ ((_, record) :: _))), .rotate_dir =>
      w.writer.needs_rotation record
    | _, _ => false
  | _ => false

/-- `Wal::new` cuts a torn tail off, and syncs the segment then. -/
def truncates (segments : List Bytes) : Bool :=
  match scan_segments segments .start with
  | .ok (_, kept) => decide (kept ≠ segments)
  | .error _ => false

namespace Store

variable (s : Store)

/-- The LSN of the last record in the log. -/
def last_lsn : Nat := s.base + s.found.length + s.wal.log.length

/-- How many bytes of a segment would survive a crash. -/
def durable_len (i : Nat) : Nat :=
  match s.short i with
  | some n => n
  | none => if i < s.wal.writer.closed.length then (s.wal.writer.closed.getD i []).length
    else s.wal.writer.synced

/-- The segments as far as they are on the disk for good. -/
def durable : List Bytes :=
  s.wal.writer.segments.mapIdx fun i segment => segment.take (s.durable_len i)

/-- An LSN that a page may be stamped with: it was there at the open, or an append has returned
it. -/
def stampable (lsn : Nat) : Bool :=
  decide (lsn ≤ s.base + s.found.length) || s.wal.calls.contains (.append (.ok lsn))

/-- The call that thread `i` of shard `k` waits for. -/
def awaited (k i : Nat) : Option WalThreads.Call := (s.waits (k, i)).bind fun j => s.wal.calls[j]?

/-- The thread has its copy and the log is flushed for it. -/
def flushed (k i : Nat) : Bool :=
  match s.awaited k i with
  | some (.flush_up_to _ .ok) => true
  | _ => false

/-- A page is written only behind a flush that succeeded, and stamped only with such LSNs. -/
def allows (k : Nat) : Shard.Event Image → Bool
  | .write _ data => s.stampable data.page_lsn
  | .run i =>
    match (s.shards k).threads[i]? with
    | some (.write_page ..) => s.flushed k i
    | _ => true
  | .fail i =>
    match (s.shards k).threads[i]? with
    | some (.write_page ..) => (s.awaited k i).any WalThreads.Call.returned
    | _ => true
  | _ => true

/-- The images with the one that the step writes. -/
def imagesAfter (k : Nat) : Shard.Event Image → Nat → Nat → List Image
  | .run i =>
    match (s.shards k).threads[i]? with
    | some (.write_page p _ _ buf) =>
      update s.images k (update (s.images k) p (buf :: s.images k p))
    | _ => s.images
  | _ => s.images

/-- The store when `Wal::new` has returned this log. The frames are empty. -/
def restart (wal : WalThreads.World) (disk : Nat → Nat → Image) (images : Nat → Nat → List Image)
    (short : Nat → Option Nat) (n_frames : Nat) : Store where
  shards := fun k => .new n_frames (disk k)
  wal
  waits := fun _ => none
  images
  base := s.base
  found := (s.found ++ s.wal.log).take (wal.flushed_lsn - s.base)
  short

/-- What is not synced when the process restarts and the files are as it left them. -/
def shortAfter : Nat → Option Nat :=
  let last := s.wal.writer.closed.length
  update s.short last
    (if truncates s.wal.writer.segments = false ∧ s.durable_len last < s.wal.writer.file.length then
      some (s.durable_len last)
    else none)

/-- A log with these segments, all of it on the disk, under a data file with these pages. -/
def opened (buffer_capacity segment_size n_frames base : Nat) (segments : List Bytes)
    (found : List Logged) (disk : Nat → Nat → Image) : Store where
  shards := fun k => .new n_frames (disk k)
  wal := .opened buffer_capacity segment_size segments (base + found.length)
  waits := fun _ => none
  images := fun k p => [disk k p]
  base
  found
  short := fun _ => none

/-- LSNs fit 64 bits. -/
def step : Event → Option Store
  | .wal e =>
    if s.wal.next_lsn < 2 ^ 64 then
      (WalThreads.step s.wal e).map fun wal =>
        { s with
          wal
          short := if syncs s.wal e then update s.short s.wal.writer.closed.length none
            else s.short }
    else none
  | .shard k e =>
    if s.allows k e then
      ((s.shards k).step e).map fun shard =>
        { s with
          shards := update s.shards k shard
          waits := match e.thread with
            | some i => update s.waits (k, i) none
            | none => s.waits
          images := s.imagesAfter k e }
    else none
  | .flush_wal k i =>
    match (s.shards k).threads[i]?, s.waits (k, i) with
    | some (.write_page _ _ _ buf), none =>
      if s.wal.next_lsn < 2 ^ 64 then
        (WalThreads.step s.wal (.flush_up_to buf.page_lsn)).map fun wal =>
          { s with wal, waits := update s.waits (k, i) (some s.wal.calls.length) }
      else none
    | _, _ => none
  | .reopen buffer_capacity segment_size n_frames =>
    match WalThreads.new_with_options buffer_capacity segment_size s.wal.writer.segments with
    | .ok wal =>
      some (s.restart wal (fun k => (s.shards k).disk) s.images s.shortAfter n_frames)
    | .error _ => none
  | .crash kept pick buffer_capacity segment_size n_frames =>
    if ∀ i < s.wal.writer.segments.length, s.durable_len i ≤ kept i then
      let disk := fun k p => ((s.images k p)[pick k p]?).getD ((s.shards k).disk p)
      match WalThreads.new_with_options buffer_capacity segment_size
          (s.wal.writer.segments.mapIdx fun i segment => segment.take (kept i)) with
      | .ok wal => some (s.restart wal disk (fun k p => [disk k p]) (fun _ => none) n_frames)
      | .error _ => none
    else none

end Store

end FluxDB.PageWrites
