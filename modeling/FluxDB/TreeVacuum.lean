-- Vacuum and the life of an index: sweeps that compact the leaves and unlink those that are
-- empty, the recycling of their pages, and what a crash leaves of it all. A run is a list of
-- calls, each with the rounds it may take and the faults it meets.
import FluxDB.Lib.Runs
import FluxDB.StatusScan
import FluxDB.TreeIndex
import Mathlib.Data.List.Sort

namespace FluxDB

/-! ## Unlinking a leaf -/

namespace Tree

variable (cmp : Compare)

def find_leftmost_leaf : Nat → Nat → Act Nat
  | 0, _ => Prog.stuck
  | fuel + 1, pid => do
    let node ← fetch_page pid
    match node with
    | .internal n => do
      let child ← unwrap n.children[0]?
      find_leftmost_leaf fuel child
    | .leaf _ => pure pid
    | .other t => Prog.fail (.UnexpectedPageType LEAF.toNat t.toNat)

/-- A half-dead leaf that cannot be unlinked now is alive again. -/
def abandon_unlink (leaf_pid : Nat) : Act Unit := do
  let l ← fetch_leaf leaf_pid
  if l.half_dead then do
    edit fun d => d.put leaf_pid (.leaf { l with half_dead := false })
    log
  else pure ()

/-- The leaf's range cannot lie under this page. An empty high key stands for the last leaf. -/
def unlink_moves_right (high_key : Bytes) (n : InternalNode) : Bool :=
  if high_key = [] then n.rightlink.isSome
  else decide (n.high_key ≠ [] ∧ cmp high_key n.high_key = .gt)

/-- The child just below the high key. -/
def unlink_child (high_key : Bytes) (n : InternalNode) : Nat :=
  if high_key = [] then n.keys.length else n.keys.findIdx fun k => decide (cmp k high_key ≠ .lt)

/-- The way down towards a leaf with this high key, as the stack of internal pages. -/
def descend_to_leaf : Nat → Bytes → Nat → List Nat → Act (List Nat)
  | 0, _, _, _ => Prog.stuck
  | fuel + 1, high_key, pid, stack => do
    let node ← fetch_page pid
    if node.is_incomplete_split then do
      finish_split cmp fuel pid stack
      let w ← Prog.read
      descend_to_leaf fuel high_key w.root []
    else
      match node with
      | .internal n =>
        if unlink_moves_right cmp high_key n then do
          let right ← unwrap n.rightlink
          descend_to_leaf fuel high_key right stack
        else do
          let child ← unwrap n.children[unlink_child cmp high_key n]?
          descend_to_leaf fuel high_key child (pid :: stack)
      | .leaf _ => pure stack
      | .other t => Prog.fail (.UnexpectedPageType LEAF.toNat t.toNat)

/-- The page of the parent level that has the downlink, from this page to the right. -/
def find_downlink : Nat → Nat → Nat → Act (Option (Nat × InternalNode))
  | 0, _, _ => Prog.stuck
  | fuel + 1, leaf_pid, parent_pid => do
    let n ← fetch_internal parent_pid
    if leaf_pid ∈ n.children then pure (some (parent_pid, n))
    else
      match n.rightlink with
      | some right => find_downlink fuel leaf_pid right
      | none => pure none

/-- The links of the leaf, once it is half-dead. A leaf with versions is left alone. -/
def mark_half_dead (leaf_pid : Nat) : Act (Option (Option Nat × Option Nat)) := do
  let l ← fetch_leaf leaf_pid
  if l.half_dead then pure (some (l.prev, l.rightlink))
  else if l.rows ≠ [] then pure none
  else do
    log_as fun d => d.put leaf_pid (.leaf { l with half_dead := true })
    edit fun d => d.put leaf_pid (.leaf { l with half_dead := true })
    pure (some (l.prev, l.rightlink))

/-- The true left neighbour, from a hint to the right. -/
def find_left_neighbour : Nat → Nat → Nat → Act (Option Nat)
  | 0, _, _ => Prog.stuck
  | fuel + 1, leaf_pid, pid => do
    let l ← fetch_leaf pid
    match l.rightlink with
    | some next =>
      if next = leaf_pid then pure (some pid) else find_left_neighbour fuel leaf_pid next
    | none => pure none

/-- The left neighbour, if the leaf has one; `none` if the chain does not lead to the leaf. -/
def left_sibling (fuel leaf_pid : Nat) : Option Nat → Act (Option (Option Nat))
  | none => pure (some none)
  | some pid => do
    let left ← find_left_neighbour fuel leaf_pid pid
    pure (left.map some)

def setRightlink (pid right : Option Nat) (d : Durable) : Durable :=
  match pid with
  | none => d
  | some p =>
    match d.pages p with
    | .leaf l => d.put p (.leaf { l with rightlink := right })
    | _ => d

def setPrev (pid left : Option Nat) (d : Durable) : Durable :=
  match pid with
  | none => d
  | some p =>
    match d.pages p with
    | .leaf l => d.put p (.leaf { l with prev := left })
    | _ => d

/-- The parent without the downlink: its first child goes with the first separator, any other with
the separator in front of it. -/
def withoutDownlink (leaf_pid : Nat) (n : InternalNode) : InternalNode :=
  match n.children.idxOf leaf_pid with
  | 0 => n.remove_key_at 0 .Right
  | j + 1 => n.remove_key_at j .Left

/-- The right neighbour's back-link, on its own latch. -/
def splice_right (right left : Option Nat) : Act Unit :=
  match right with
  | none => pure ()
  | some p => do
    let _ ← fetch_leaf p
    edit (setPrev right left)

/-- The record, then the parent, the left neighbour and the right one. -/
def unlink (leaf_pid : Nat) (left right : Option Nat) (parent_pid : Nat) (n : InternalNode) :
    Act Unit := do
  let parentAndLeft := fun d : Durable =>
    setRightlink left right (d.put parent_pid (.internal (withoutDownlink leaf_pid n)))
  log_as fun d => setPrev right left (parentAndLeft d)
  edit parentAndLeft
  splice_right right left
  Prog.modify fun w =>
    { w with pending_recycle := w.pending_recycle ++ [(leaf_pid, w.tm.global_xmin)] }

/-- The leaf is marked, its neighbour and its downlink are looked up again, and it is unlinked. -/
def unlink_marked (fuel leaf_pid parent_pid : Nat) (prev_hint right : Option Nat) : Act Unit := do
  let left ← left_sibling fuel leaf_pid prev_hint
  match left with
  | none => abandon_unlink leaf_pid
  | some left => do
    let parent ← find_downlink fuel leaf_pid parent_pid
    match parent with
    | none => abandon_unlink leaf_pid
    | some (parent_pid, n) =>
      if n.keys = [] then abandon_unlink leaf_pid else unlink leaf_pid left right parent_pid n

def delete_empty_leaf (fuel leaf_pid : Nat) : Act Unit := do
  let l ← fetch_leaf leaf_pid
  let w ← Prog.read
  let stack ← descend_to_leaf cmp fuel l.high_key w.root []
  match stack with
  | [] => pure ()
  | entry :: _ => do
    let parent ← find_downlink fuel leaf_pid entry
    match parent with
    | none => abandon_unlink leaf_pid
    | some (parent_pid, n) =>
      if n.keys = [] then abandon_unlink leaf_pid
      else do
        let links ← mark_half_dead leaf_pid
        match links with
        | none => pure ()
        | some (prev_hint, right) => unlink_marked fuel leaf_pid parent_pid prev_hint right

/-! ## Sweeps -/

def VACUUM_BATCH_MAX_LEAVES : Nat := 64

def unlink_if_empty (fuel leaf_pid : Nat) (l : LeafNode) : Act Unit := do
  let w ← Prog.read
  if (l.rows = [] ∨ l.half_dead = true) ∧ leaf_pid ≠ w.root then delete_empty_leaf cmp fuel leaf_pid
  else pure ()

/-- A batch of leaves; returns the leaf where the next batch starts. -/
def vacuum_leaves (fuel horizon : Nat) : Nat → Nat → Act (Option Nat)
  | 0, leaf_pid => pure (some leaf_pid)
  | leaves + 1, leaf_pid => do
    let _ ← fetch_leaf leaf_pid
    let _ ← compact horizon leaf_pid
    let l ← held leaf_pid
    unlink_if_empty cmp fuel leaf_pid l
    match l.rightlink with
    | some next => vacuum_leaves fuel horizon leaves next
    | none => pure none

/-- Where a batch starts: at the cursor, or at the first leaf if the cursor is no leaf any more. -/
def batch_start (fuel : Nat) : Option Nat → Act Nat
  | none => do
    let w ← Prog.read
    find_leftmost_leaf fuel w.root
  | some pid => do
    let node ← fetch_page pid
    match node with
    | .leaf _ => pure pid
    | _ => do
      let w ← Prog.read
      find_leftmost_leaf fuel w.root

def vacuum_batches : Nat → Nat → Option Nat → Act Unit
  | 0, _, _ => Prog.stuck
  | fuel + 1, horizon, cursor => do
    let leaf_pid ← batch_start fuel cursor
    let next ← vacuum_leaves cmp fuel horizon VACUUM_BATCH_MAX_LEAVES leaf_pid
    match next with
    | none => pure ()
    | some pid => vacuum_batches fuel horizon (some pid)

def set_free (bitmap : List Nat) (pid : Nat) : List Nat :=
  if pid ∈ bitmap then bitmap else bitmap.orderedInsert (· ≤ ·) pid

/-- Pages that were unlinked before the horizon are free. -/
def graduate (horizon : Nat) : Act Unit := do
  call .BufferPool
  let w ← Prog.read
  let graduated := ((w.pending_recycle.filter fun e => e.2 < horizon).map Prod.fst).filter
    fun pid => pid < CAPACITY
  Prog.modify fun w =>
    { w with pending_recycle := w.pending_recycle.filter fun e => ¬ e.2 < horizon
             bitmap := graduated.foldl set_free w.bitmap }
  if graduated = [] then pure ()
  else do
    log
    Prog.modify fun w => { w with free_pool := w.free_pool ++ graduated }

def vacuum (fuel : Nat) : Act Unit := do
  let w ← Prog.read
  vacuum_batches cmp fuel w.tm.global_xmin none
  graduate w.tm.global_xmin

end Tree

/-! ## After a crash -/

def Phase.recovered : Phase → Phase
  | .starting | .running | .aborting => .aborted
  | .committing => .committed
  | p => p

/-- The transactions after a restart: every one has ended, one without a commit or abort record as
a crash victim, and no snapshot is in use. -/
def Txns.recover (t : Txns) : Txns where
  tm := { t.tm.active_txns.keys.foldl mark_victim t.tm with
    active_txns := ∅, readers := ∅, next_reader_token := 0 }
  phase x := (t.phase x).recovered
  holders := []

namespace Tree

def Node.set_incomplete_split : Node → Node
  | leaf l => leaf { l with incomplete_split := true }
  | internal n => internal { n with incomplete_split := true }
  | other t => other t

/-- What is on disk after recovery: flags that were cleared without a record may be back. -/
def Durable.recover (d : Durable) (reflagged : List Nat) : Durable :=
  { d with
    pages := fun p => if p ∈ reflagged then (d.pages p).set_incomplete_split else d.pages p
    txns := d.txns.recover
    unlogged := [] }

/-- `open` after recovery. -/
def World.open (d : Durable) : World where
  toDurable := d
  root := d.meta_root
  free_pool := d.bitmap
  pending_recycle := []
  redo := [d]
  faults := []
  late_faults := []
  written := false
  failed := false

/-- The superblock, the root leaf and the bitmap page that `create` leaves. -/
def Durable.create : Durable where
  pages p := if p = 0 then .other META else if p = 1 then .leaf .new
    else if p = 2 then .other FREE_SPACE else .other 0
  next_page_id := 3
  meta_root := 1
  bitmap := []
  txns := .new
  unlogged := []

/-! ## Runs -/

/-- The rounds a call may take and the faults it meets. -/
structure Limits where
  fuel : Nat
  faults : List Bool
  late_faults : List Bool
  deriving DecidableEq, Repr

inductive Event
  | txn (e : TxnEvent)
  | insert (txn : Transaction) (key value : Bytes) (io : Limits)
  | update (txn : Transaction) (key value : Bytes) (io : Limits)
  | delete (txn : Transaction) (key : Bytes) (io : Limits)
  | vacuum (io : Limits)
  | crash (records : Nat) (reflagged : List Nat)
  | crash_after_failure (d : Durable)

namespace World

/-- The state in which a call starts. -/
def enter (w : World) (io : Limits) : World :=
  { w with faults := io.faults, late_faults := io.late_faults, written := false }

/-- The state that a call leaves, if it returns. A call that sleeps does not return. -/
def leave : Outcome IndexError World Unit → Option World
  | .ok _ w => some w
  | .err (.WaitFor _) _ => none
  | .err _ w => some w
  | .panic => none
  | .stuck => none

variable (cmp : Compare)

/-- One call of one thread, or a crash behind the record with this number. What redo brings back is
followed until a call of the pool or the log fails; a crash behind that may bring back anything. -/
def step (w : World) : Event → Option World
  | .txn e =>
    (w.txns.step e).map fun txns =>
      let d := { w.toDurable with txns }
      { w with toDurable := d, redo := w.redo ++ [d] }
  | .insert txn key value io =>
    if w.Running txn then leave (insert cmp io.fuel key value txn (w.enter io)) else none
  | .update txn key value io =>
    if w.Running txn then leave (update cmp io.fuel key value txn (w.enter io)) else none
  | .delete txn key io =>
    if w.Running txn then leave (delete cmp io.fuel key txn (w.enter io)) else none
  | .vacuum io => leave (vacuum cmp io.fuel (w.enter io))
  | .crash records reflagged =>
    match w.redo[records]? with
    | some d =>
      if w.failed = false ∧ ∀ p ∈ reflagged, p ∈ d.unlogged then some (.open (d.recover reflagged))
      else none
    | none => none
  | .crash_after_failure d => if w.failed then some (.open d) else none

def create : World := .open .create

end World

end Tree

end FluxDB
