-- The transaction manager: ids, the commit log (CLOG), the active set, the registered
-- readers, and the visibility rules that read them. Ids are natural numbers and the
-- step that issues one is only taken below the last 64-bit id.
import FluxDB.Lib.Maps

namespace FluxDB

open Maps

/-- The largest 64-bit number. Snapshot readers carry it in place of a transaction id. -/
def u64Max : Nat := 2 ^ 64 - 1

inductive TransactionStatus
  | Active
  | Committed
  | Aborted
  deriving DecidableEq, Repr

/-- A point in time view of the transactions: those below `xmax` that are not in
`active` were settled when it was taken. -/
structure Snapshot where
  xmin : Nat
  xmax : Nat
  active : List Nat
  deriving DecidableEq, Repr

structure TransactionManager where
  next_txn_id : Nat
  clog : Map Nat TransactionStatus
  active_txns : Map Nat Nat
  readers : Map Nat Nat
  next_reader_token : Nat

/-- A transaction handle: its id and the snapshot taken when it began. -/
structure Transaction where
  txn_id : Nat
  snapshot : Snapshot
  deriving DecidableEq, Repr

/-! ## The manager -/

namespace TransactionManager

def new : TransactionManager where
  next_txn_id := 1
  clog := ∅
  active_txns := ∅
  readers := ∅
  next_reader_token := 0

variable (tm : TransactionManager)

/-- The oldest `xmin` that a live snapshot holds. -/
def global_xmin : Nat :=
  minOr (values tm.active_txns ++ values tm.readers) tm.next_txn_id

def get_snapshot : Snapshot where
  xmin := minOr tm.active_txns.keys tm.next_txn_id
  xmax := tm.next_txn_id
  active := tm.active_txns.keys

/-- The snapshot of a reader, its token, and the manager with the token registered. -/
def read_snapshot : Snapshot × Nat × TransactionManager :=
  let snapshot := tm.get_snapshot
  (snapshot, tm.next_reader_token,
    { tm with
      readers := tm.readers.insert tm.next_reader_token snapshot.xmin
      next_reader_token := tm.next_reader_token + 1 })

def end_read (token : Nat) : TransactionManager :=
  { tm with readers := tm.readers.erase token }

/-- The part of `begin` under the lock of the active set. -/
def begin_active : Transaction × TransactionManager :=
  let txn_id := tm.next_txn_id
  let xmin := minOr tm.active_txns.keys txn_id
  let active := tm.active_txns.insert txn_id xmin
  ({ txn_id, snapshot := { xmin, xmax := txn_id + 1, active := active.keys } },
    { tm with next_txn_id := txn_id + 1, active_txns := active })

/-- One write to the commit log: the last part of `begin` and the first part of
`mark_committed` and `mark_aborted`. -/
def clog_insert (txn_id : Nat) (status : TransactionStatus) : TransactionManager :=
  { tm with clog := tm.clog.insert txn_id status }

/-- The second part of `mark_committed` and `mark_aborted`. -/
def active_remove (txn_id : Nat) : TransactionManager :=
  { tm with active_txns := tm.active_txns.erase txn_id }

/-- `begin` with nothing between its two parts. -/
def begin : Transaction × TransactionManager :=
  let (txn, tm') := tm.begin_active
  (txn, tm'.clog_insert txn.txn_id .Active)

def mark_committed (txn_id : Nat) : TransactionManager :=
  (tm.clog_insert txn_id .Committed).active_remove txn_id

def mark_aborted (txn_id : Nat) : TransactionManager :=
  (tm.clog_insert txn_id .Aborted).active_remove txn_id

def is_committed (txn_id : Nat) : Bool :=
  txn_id == 0 || tm.clog.lookup txn_id == some .Committed

def is_aborted (txn_id : Nat) : Bool :=
  tm.clog.lookup txn_id == some .Aborted

def settled_status (txn_id : Nat) : TransactionStatus :=
  if tm.is_committed txn_id then .Committed
  else if tm.is_aborted txn_id then .Aborted
  else if txn_id < tm.global_xmin then .Committed
  else .Active

end TransactionManager

/-! ## Visibility -/

namespace Snapshot

def is_committed (s : Snapshot) (txn_id : Nat) (tm : TransactionManager) : Bool :=
  if txn_id = 0 then true
  else if txn_id ≥ s.xmax then false
  else if txn_id ∈ s.active then false
  else !tm.is_aborted txn_id

def is_in_progress (s : Snapshot) (txn_id : Nat) (tm : TransactionManager) : Bool :=
  if txn_id = 0 then false
  else if tm.is_committed txn_id || tm.is_aborted txn_id then false
  else if txn_id < s.xmin then false
  else if txn_id ≥ s.xmax then true
  else decide (txn_id ∈ s.active)

end Snapshot

/-- Whether the snapshot sees a record with these stamps. -/
def is_visible (rec_xmin rec_xmax : Nat) (snap : Snapshot) (tm : TransactionManager) : Bool :=
  if !snap.is_committed rec_xmin tm then false
  else if rec_xmax = 0 then true
  else if snap.is_committed rec_xmax tm then false
  else true

/-- Whether the holder sees a record with these stamps: its own writes come first, then
the rule of its snapshot. -/
def Transaction.is_visible (txn : Transaction) (rec_xmin rec_xmax : Nat)
    (tm : TransactionManager) : Bool :=
  if rec_xmax = txn.txn_id then false
  else if rec_xmin = txn.txn_id then true
  else FluxDB.is_visible rec_xmin rec_xmax txn.snapshot tm

def is_vacuumable (xmin xmax horizon : Nat) (tm : TransactionManager) : Bool :=
  if tm.settled_status xmin = .Aborted then true
  else if xmax = 0 ∨ tm.settled_status xmax ≠ .Committed then false
  else decide (xmax < horizon)

/-! ## Reading the rules -/

section Rules

variable {tm : TransactionManager} {s : Snapshot} {x c d : Nat}

theorem is_aborted_iff : tm.is_aborted x = true ↔ tm.clog.lookup x = some .Aborted := by
  simp [TransactionManager.is_aborted]

theorem is_committed_iff :
    tm.is_committed x = true ↔ x = 0 ∨ tm.clog.lookup x = some .Committed := by
  simp [TransactionManager.is_committed]

theorem snapshot_is_committed_iff : s.is_committed x tm = true ↔
      x = 0 ∨ (x < s.xmax ∧ x ∉ s.active ∧ tm.is_aborted x = false) := by
  unfold Snapshot.is_committed
  split_ifs <;> simp_all

theorem snapshot_is_in_progress_iff : s.is_in_progress x tm = true ↔
      x ≠ 0 ∧ tm.is_committed x = false ∧ tm.is_aborted x = false ∧ s.xmin ≤ x ∧
        (s.xmax ≤ x ∨ x ∈ s.active) := by
  unfold Snapshot.is_in_progress
  split_ifs <;> grind

theorem is_visible_iff : is_visible c d s tm = true ↔
      s.is_committed c tm = true ∧ (d = 0 ∨ s.is_committed d tm = false) := by
  unfold is_visible
  split_ifs <;> simp_all

theorem transaction_is_visible_iff {txn : Transaction} : txn.is_visible c d tm = true ↔
      d ≠ txn.txn_id ∧ (c = txn.txn_id ∨ is_visible c d txn.snapshot tm = true) := by
  unfold Transaction.is_visible
  split_ifs <;> simp_all

/-! ## The horizon -/

variable {m t k : Nat}

theorem global_xmin_le_of_active (h : tm.active_txns.lookup t = some m) : tm.global_xmin ≤ m :=
  minOr_le_of_mem (List.mem_append_left _ (mem_values.mpr ⟨t, h⟩))

theorem global_xmin_le_of_reader (h : tm.readers.lookup k = some m) : tm.global_xmin ≤ m :=
  minOr_le_of_mem (List.mem_append_right _ (mem_values.mpr ⟨k, h⟩))

theorem forall_counted {P : Nat → Prop} (hactive : ∀ t m, tm.active_txns.lookup t = some m → P m)
    (hreaders : ∀ k m, tm.readers.lookup k = some m → P m) :
    ∀ m ∈ values tm.active_txns ++ values tm.readers, P m := by
  refine List.forall_mem_append.mpr ⟨fun m hm => ?_, fun m hm => ?_⟩
  · obtain ⟨t, ht⟩ := mem_values.mp hm
    exact hactive t m ht
  · obtain ⟨k, hk⟩ := mem_values.mp hm
    exact hreaders k m hk

/-- The horizon bounds what the manager counts, and nothing above it. -/
theorem le_global_xmin (hactive : ∀ t x, tm.active_txns.lookup t = some x → m ≤ x)
    (hreaders : ∀ k x, tm.readers.lookup k = some x → m ≤ x) (hnext : m ≤ tm.next_txn_id) :
    m ≤ tm.global_xmin :=
  le_minOr (forall_counted hactive hreaders) hnext

theorem global_xmin_le_next (hactive : ∀ t x, tm.active_txns.lookup t = some x → x ≤ tm.next_txn_id)
    (hreaders : ∀ k x, tm.readers.lookup k = some x → x ≤ tm.next_txn_id) :
    tm.global_xmin ≤ tm.next_txn_id :=
  minOr_le_default (forall_counted hactive hreaders)

end Rules

end FluxDB
