-- The conflict checks of the index: what an insert asks of the versions of its key, and
-- what a delete or an update asks of the version it is about to stamp.
import FluxDB.TransactionManager

namespace FluxDB

open List

inductive IndexError
  | KeyNotFound
  | KeyTooLarge (size max : Nat)
  | ValueTooLarge (size max : Nat)
  | DuplicateKey
  | WriteConflict
  | UnexpectedPageType (expected found : Nat)
  | BufferPool
  | Page
  | Wal
  | WaitFor (txn_id : Nat)
  | CorruptMetadata
  deriving DecidableEq, Repr

variable (tm : TransactionManager) (txn : Transaction)

/-- The stamps `(xmin, xmax)` of the versions of the key, in slot order. -/
def check_insert_conflict : List (Nat × Nat) → Except IndexError Unit
  | [] => .ok ()
  | (xmin, xmax) :: rest =>
    if xmin ≠ txn.txn_id ∧ txn.snapshot.is_in_progress xmin tm then .error (.WaitFor xmin)
    else if txn.is_visible xmin xmax tm then .error .DuplicateKey
    else if xmax ≠ 0 ∧ xmax ≠ txn.txn_id ∧ txn.snapshot.is_in_progress xmax tm then
      .error (.WaitFor xmax)
    else check_insert_conflict rest

def check_write_conflict (rec_xmax : Nat) : Except IndexError Unit :=
  if rec_xmax = 0 then .ok ()
  else if rec_xmax = txn.txn_id then .ok ()
  else if txn.snapshot.is_in_progress rec_xmax tm then .error (.WaitFor rec_xmax)
  else if tm.is_aborted rec_xmax then .ok ()
  else .error .WriteConflict

variable {tm txn} {stamps : List (Nat × Nat)}

theorem check_insert_conflict_ok_iff : check_insert_conflict tm txn stamps = .ok () ↔
      ∀ s ∈ stamps, (s.1 ≠ txn.txn_id → txn.snapshot.is_in_progress s.1 tm = false) ∧
        txn.is_visible s.1 s.2 tm = false ∧
        (s.2 ≠ 0 → s.2 ≠ txn.txn_id → txn.snapshot.is_in_progress s.2 tm = false) := by
  induction stamps with
  | nil => simp [check_insert_conflict]
  | cons s rest ih =>
    obtain ⟨xmin, xmax⟩ := s
    simp only [check_insert_conflict, forall_mem_cons, ← ih]
    split_ifs <;> simp_all

/-- The check of all versions asks each on its own. -/
theorem check_insert_conflict_cons (s : Nat × Nat) (stamps : List (Nat × Nat)) :
    check_insert_conflict tm txn (s :: stamps) = match check_insert_conflict tm txn [s] with
      | .ok _ => check_insert_conflict tm txn stamps
      | .error e => .error e := by
  obtain ⟨xmin, xmax⟩ := s
  simp only [check_insert_conflict]
  split_ifs <;> rfl

theorem check_insert_conflict_error {e : IndexError}
    (h : check_insert_conflict tm txn stamps = .error e) :
    ∃ s ∈ stamps, check_insert_conflict tm txn [s] = .error e := by
  induction stamps with
  | nil => cases h
  | cons s rest ih =>
    rw [check_insert_conflict_cons] at h
    cases hs : check_insert_conflict tm txn [s] with
    | ok _ =>
      rw [hs] at h
      obtain ⟨s', hmem, hs'⟩ := ih h
      exact ⟨s', mem_cons_of_mem _ hmem, hs'⟩
    | error e' =>
      rw [hs] at h
      cases h
      exact ⟨s, mem_cons_self, hs⟩

theorem check_insert_conflict_forall : check_insert_conflict tm txn stamps = .ok () ↔
      ∀ s ∈ stamps, check_insert_conflict tm txn [s] = .ok () := by
  simp only [check_insert_conflict_ok_iff, forall_mem_singleton]

theorem check_write_conflict_ok_iff {d : Nat} : check_write_conflict tm txn d = .ok () ↔
      d = 0 ∨ d = txn.txn_id ∨
        (txn.snapshot.is_in_progress d tm = false ∧ tm.is_aborted d = true) := by
  unfold check_write_conflict
  split_ifs <;> simp_all

/-- No call is told to wait for its own transaction. -/
theorem check_insert_conflict_ne {t : Nat}
    (h : check_insert_conflict tm txn stamps = .error (.WaitFor t)) : t ≠ txn.txn_id := by
  obtain ⟨⟨xmin, xmax⟩, -, h⟩ := check_insert_conflict_error h
  simp only [check_insert_conflict] at h
  split_ifs at h with hxmin hvisible hxmax
  · cases h
    exact hxmin.1
  · cases h
  · cases h
    exact hxmax.2.1

theorem check_write_conflict_ne {d t : Nat}
    (h : check_write_conflict tm txn d = .error (.WaitFor t)) : t ≠ txn.txn_id := by
  unfold check_write_conflict at h
  split_ifs at h with hzero hown
  · cases h
    exact hown
  · cases h

end FluxDB
