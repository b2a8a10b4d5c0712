-- Crash recovery: the log is read record by record, the commit log is rebuilt from the
-- commit and abort records, and each page that a record names is redone unless the image
-- on disk already carries the record.
import FluxDB.StatusScan
import FluxDB.WalRecords

namespace FluxDB

open Bytes
open Function (update)

inductive RecoverError
  | wal (e : WalError)
  | page (e : PageFault)
  | PageCorruption (page_id : UInt64)
  | outOfFuel
  deriving DecidableEq, Repr

/-- What recovery works on: the frames of the pool, the data file behind them, the transaction
manager, and the watermarks of the scan. -/
structure RecoveryState extends StatusScan where
  frames : UInt64 → Option Page
  disk : UInt64 → Page
  max_page_id : Nat

namespace RecoveryState

def start (disk : UInt64 → Page) (tm : TransactionManager) : RecoveryState where
  toStatusScan := .start tm
  frames := fun _ => none
  disk := disk
  max_page_id := 0

/-! ## The pool -/

variable (s : RecoveryState)

/-- The page in its frame, loaded and verified if it was not there. A page past the end of
the file is a page of zeros. -/
def ensure_page (page_id : UInt64) : Except RecoverError Page :=
  match s.frames page_id with
  | some b => .ok b
  | none =>
    if (s.disk page_id).verify_checksum then .ok (s.disk page_id)
    else .error (.PageCorruption page_id)

def setFrame (page_id : UInt64) (b : Page) : RecoveryState :=
  { s with frames := update s.frames page_id (some b) }

/-- The frame is written out and given up. -/
def delete_page (page_id : UInt64) : RecoveryState :=
  match s.frames page_id with
  | some b =>
    { s with
      frames := update s.frames page_id none
      disk := update s.disk page_id b.stamp_checksum }
  | none => s

def flush_all_pages : UInt64 → Page := fun p =>
  match s.frames p with
  | some b => b.stamp_checksum
  | none => s.disk p

end RecoveryState

/-! ## Redo of one block -/

namespace Payload

/-- `data.expect(..)`. -/
def expect (data : Option Bytes) : Except PageFault Bytes :=
  match data with
  | some d => .ok d
  | none => .error .panic

/-- A slice of a payload. -/
def part (d : Bytes) (off len : Nat) : Except PageFault Bytes :=
  if off + len ≤ d.length then .ok ((d.drop off).take len) else .error .panic

/-- A little-endian number in a payload. -/
def field (d : Bytes) (off len : Nat) : Except PageFault Nat := do
  let bs ← part d off len
  .ok (leNat bs)

/-- A link that is zero when there is none. -/
def link (v : Nat) : Option UInt64 := if v ≠ 0 then some (UInt64.ofNat v) else none

end Payload

open Payload

def redo_insert (d : Bytes) (page : Page) : Except PageFault Page := do
  let slot ← field d 0 2
  let key_len ← field d 2 2
  let val_len ← field d 4 2
  let rec_type ← field d 6 1
  let xmin ← field d 7 8
  let key ← part d 15 key_len
  let val ← part d (15 + key_len) val_len
  Leaf.mutator page
  let page ← Leaf.insert_raw page slot key val (UInt8.ofNat rec_type)
  Leaf.set_xmin page slot (UInt64.ofNat xmin)

def redo_set_xmax (d : Bytes) (page : Page) : Except PageFault Page := do
  let slot ← field d 0 2
  let xmax ← field d 2 8
  Leaf.mutator page
  Leaf.set_xmax page slot (UInt64.ofNat xmax)

/-- The key passes through the key type: `canon` is its `as_bytes` after its `from_bytes`. -/
def redo_insert_downlink (canon : Bytes → Bytes) (d : Bytes) (page : Page) :
    Except PageFault Page := do
  let at_index ← field d 0 2
  let sep_len ← field d 2 2
  let right_child ← field d 4 8
  let sep_key ← part d 12 sep_len
  Internal.mutator page
  Internal.insert_key_and_right_child page at_index (canon sep_key) (UInt64.ofNat right_child)

def redo_unlink_page (d : Bytes) (page : Page) : Except PageFault Page := do
  let role ← field d 0 1
  if role = UNLINK_ROLE_LEFT.toNat then do
    let new_rightlink ← field d 1 8
    Leaf.mutator page
    Leaf.set_rightlink page (link new_rightlink)
  else if role = UNLINK_ROLE_RIGHT.toNat then do
    let new_prev ← field d 1 8
    Leaf.mutator page
    Leaf.set_prev_page page (link new_prev)
  else if role = UNLINK_ROLE_PARENT.toNat then do
    let remove_index ← field d 1 2
    let keep ← field d 3 1
    Internal.mutator page
    Internal.remove_key_at page remove_index
      (if keep = UNLINK_KEEP_RIGHT.toNat then .Right else .Left)
  else .error .panic

def redo_new_root (d : Bytes) (page : Page) : Except PageFault Page := do
  let root_page_id ← field d 0 8
  Meta.set_root page (UInt64.ofNat root_page_id)

/-- The physiological redo of a block, by record type and block index. -/
def apply_data (canon : Bytes → Bytes) (entry_type : WalRecordType) (block_idx : Nat)
    (data : Option Bytes) (page : Page) : Except PageFault Page :=
  match entry_type, block_idx with
  | .Insert, 0 => do redo_insert (← expect data) page
  | .SetXMax, 0 => do redo_set_xmax (← expect data) page
  | .InsertDownLink, 0 => do redo_insert_downlink canon (← expect data) page
  | .MarkHalfDead, 0 => page.set_half_dead
  | .UnlinkPage, _ => do redo_unlink_page (← expect data) page
  | .InsertDownLink, 1 => page.clear_incomplete_split
  | .NewRoot, 1 => do redo_new_root (← expect data) page
  | .NewRoot, 2 => page.clear_incomplete_split
  | _, _ => .ok page

/-- A page from its full-page image. -/
def Page.ofImage (fpi : Bytes) : Page := fun i => (fpi[i]?).getD 0

/-- The page after a block, before it is stamped: its image, or the payload applied. -/
def apply_block (canon : Bytes → Bytes) (entry_type : WalRecordType) (i : Nat)
    (block : Block) (page : Page) : Except PageFault Page :=
  match block.fpi with
  | some fpi => .ok (Page.ofImage fpi)
  | none => apply_data canon entry_type i block.data page

def redo_page (canon : Bytes → Bytes) (entry_type : WalRecordType) (lsn i : Nat)
    (block : Block) (page : Page) : Except PageFault Page := do
  let page ← apply_block canon entry_type i block page
  page.set_lsn lsn

def RecoveryState.redo_block (canon : Bytes → Bytes) (record : WalRecord)
    (s : RecoveryState) (block : Block × Nat) : Except RecoverError RecoveryState := do
  let page ← s.ensure_page block.1.page_id
  if record.lsn ≤ page.page_lsn then .ok (s.setFrame block.1.page_id page)
  else
    match redo_page canon record.entry_type record.lsn block.2 block.1 page with
    | .ok page => .ok (s.setFrame block.1.page_id page)
    | .error e => .error (.page e)

/-! ## Redo of a record -/

namespace RecoveryState

def redo_record (canon : Bytes → Bytes) (s : RecoveryState) (record : WalRecord) :
    Except RecoverError RecoveryState :=
  record.blocks.zipIdx.foldlM (redo_block canon record) s

/-- The page ids packed into the main data, eight bytes each. -/
def chunkIds (data : Bytes) : List UInt64 :=
  (List.range (data.length / 8)).map fun i => UInt64.ofNat (leNat ((data.drop (8 * i)).take 8))

def redo_overflow_free (s : RecoveryState) (record : WalRecord) :
    Except RecoverError RecoveryState :=
  match record.main_data with
  | none => .error (.wal .MissingMainData)
  | some data =>
    if data.length % 8 ≠ 0 then .error (.wal (.MainDataLength data.length))
    else .ok ((chunkIds data).foldl delete_page s)

/-- Transaction ids and page ids seen in the scan. -/
def note (s : RecoveryState) (record : WalRecord) : RecoveryState :=
  { s with
    seen := if record.txn_id ≠ 0 then record.txn_id.toNat :: s.seen else s.seen
    max_txn := max s.max_txn record.txn_id.toNat
    max_page_id := record.blocks.foldl (fun m b => max m b.page_id.toNat) s.max_page_id }

/-- Records below the redo point are scanned, but only commits and aborts take effect. -/
def redo (canon : Bytes → Bytes) (redo_point : Nat) (s : RecoveryState)
    (record : WalRecord) : Except RecoverError RecoveryState :=
  match record.entry_type with
  | .Commit => .ok { s with tm := s.tm.mark_committed record.txn_id.toNat }
  | .Abort => .ok { s with tm := s.tm.mark_aborted record.txn_id.toNat }
  | .Checkpoint => .ok s
  | .OverflowFree => if redo_point ≤ record.lsn then s.redo_overflow_free record else .ok s
  | _ => if redo_point ≤ record.lsn then s.redo_record canon record else .ok s

/-- The scan over the whole log. -/
def replay (canon : Bytes → Bytes) (redo_point : Nat) :
    Nat → List Bytes → RecoveryState → Except RecoverError RecoveryState
  | 0, _, _ => .error .outOfFuel
  | fuel + 1, segments, s =>
    match next_record segments with
    | none => .ok s
    | some (.error e) => .error (.wal e)
    | some (.ok (record, segments)) => do
      let s ← (s.note record).redo canon redo_point record
      replay canon redo_point fuel segments s

end RecoveryState

/-- What recovery leaves: the data file, the transaction manager and the next page id. -/
structure Recovered where
  disk : UInt64 → Page
  tm : TransactionManager
  next_page_id : Nat

/-- `recover` on a database without a checkpoint superblock. Every record takes at least one
byte, so the length of the log bounds the scan. -/
def recover (canon : Bytes → Bytes) (disk : UInt64 → Page)
    (segments : List Bytes) (tm : TransactionManager) (next_page_id : Nat) :
    Except RecoverError Recovered := do
  let s ← RecoveryState.replay canon 0 ((segments.map List.length).sum + 1) segments
    (RecoveryState.start disk tm)
  .ok {
    disk := s.flush_all_pages
    tm := s.finish [] 0
    next_page_id := max next_page_id (s.max_page_id + 1) }

end FluxDB
