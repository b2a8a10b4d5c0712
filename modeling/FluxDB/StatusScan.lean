-- What recovery gathers about the transactions while it reads the log, and what it makes of those
-- that the log leaves unsettled. A record counts by its transaction and by the status it gives it.
import FluxDB.TransactionManager

namespace FluxDB

open Maps List TransactionManager

/-- What recovery reads of a Checkpoint record: all but the root page id. -/
structure CheckpointData (α : Type) where
  redo_point : α
  next_txn_id : α
  active_txns : List α
  pinned_aborted : List α
  vacuum_horizon : α
  next_page_id : α
  deriving DecidableEq, Repr

structure StatusScan where
  tm : TransactionManager
  seen : List Nat
  max_txn : Nat

/-- A transaction with neither status was running when the log ends. -/
def mark_victim (tm : TransactionManager) (t : Nat) : TransactionManager :=
  if !tm.is_committed t && !tm.is_aborted t then tm.mark_aborted t else tm

namespace StatusScan

def start (tm : TransactionManager) : StatusScan := ⟨tm, [], 0⟩

def see (s : StatusScan) (t : Nat) (status : Option TransactionStatus) : StatusScan where
  tm := match status with
    | some .Committed => s.tm.mark_committed t
    | some .Aborted => s.tm.mark_aborted t
    | _ => s.tm
  seen := if t ≠ 0 then t :: s.seen else s.seen
  max_txn := max s.max_txn t

/-- The records of the log, one after the other. -/
def seeAll (s : StatusScan) (rs : List (Nat × Option TransactionStatus)) : StatusScan :=
  rs.foldl (fun s r => s.see r.1 r.2) s

/-- The manager at the end of recovery. `active_txns` and `next_txn_id` are those of the
checkpoint. -/
def finish (s : StatusScan) (active_txns : List Nat) (next_txn_id : Nat) : TransactionManager :=
  let tm := (active_txns ++ s.seen).foldl mark_victim s.tm
  { tm with next_txn_id := max tm.next_txn_id (max next_txn_id (s.max_txn + 1)) }

end StatusScan

/-! ## The statuses -/

theorem lookup_mark_committed (tm : TransactionManager) (t u : Nat) :
    (tm.mark_committed t).clog.lookup u = if u = t then some .Committed else tm.clog.lookup u :=
  lookup_insert_eq_ite tm.clog t u _

theorem lookup_mark_aborted (tm : TransactionManager) (t u : Nat) :
    (tm.mark_aborted t).clog.lookup u = if u = t then some .Aborted else tm.clog.lookup u :=
  lookup_insert_eq_ite tm.clog t u _

theorem lookup_mark_victim (tm : TransactionManager) (u t : Nat) :
    (mark_victim tm u).clog.lookup t =
      if t = u ∧ t ≠ 0 ∧ tm.clog.lookup t ≠ some .Committed then some .Aborted
      else tm.clog.lookup t := by
  unfold mark_victim
  by_cases h : t = u
  · subst h
    by_cases h0 : t = 0
    · simp [h0, is_committed]
    by_cases hc : tm.clog.lookup t = some .Committed
    · simp [hc, is_committed]
    by_cases ha : tm.clog.lookup t = some .Aborted
    · simp [ha, is_aborted]
    simp [h0, hc, ha, is_committed, is_aborted, lookup_mark_aborted]
  simp only [h, false_and, if_false]
  split
  · rw [lookup_mark_aborted, if_neg h]
  · rfl

theorem lookup_mark_victims (l : List Nat) (tm : TransactionManager) (t : Nat) :
    (l.foldl mark_victim tm).clog.lookup t =
      if t ∈ l ∧ t ≠ 0 ∧ tm.clog.lookup t ≠ some .Committed then some .Aborted
      else tm.clog.lookup t := by
  induction l generalizing tm with
  | nil => simp
  | cons a l ih =>
    rw [foldl_cons, ih, lookup_mark_victim]
    by_cases h : t = a
    · subst h
      by_cases h0 : t = 0 <;> by_cases hc : tm.clog.lookup t = some .Committed <;> simp [h0, hc]
    · simp [h]

namespace StatusScan

variable {s : StatusScan} {rs : List (Nat × Option TransactionStatus)} {t : Nat}

theorem lookup_finish (s : StatusScan) (active_txns : List Nat) (next_txn_id t : Nat) :
    (s.finish active_txns next_txn_id).clog.lookup t =
      if t ∈ active_txns ++ s.seen ∧ t ≠ 0 ∧ s.tm.clog.lookup t ≠ some .Committed then
        some .Aborted
      else s.tm.clog.lookup t := lookup_mark_victims _ _ _

/-- A fact about a status that the records of the transaction give and the others keep. -/
theorem seeAll_induct {P : Option TransactionStatus → Prop} (h : P (s.tm.clog.lookup t))
    (hrs : ∀ status, (t, some status) ∈ rs → P (some status)) :
    P ((s.seeAll rs).tm.clog.lookup t) := by
  induction rs generalizing s with
  | nil => exact h
  | cons r rs ih =>
    apply ih
    · obtain ⟨u, status⟩ := r
      have hr : u = t → ∀ st, status = some st → P (some st) := by
        rintro rfl st rfl
        exact hrs st mem_cons_self
      unfold see
      dsimp only
      split
      · rw [lookup_mark_committed]
        split
        · next htu => exact hr htu.symm _ rfl
        · exact h
      · rw [lookup_mark_aborted]
        split
        · next htu => exact hr htu.symm _ rfl
        · exact h
      · exact h
    · exact fun status hmem => hrs status (mem_cons_of_mem _ hmem)

/-- A transaction gets the status on which the records that settle it agree. -/
theorem lookup_seeAll {status : TransactionStatus} (hsettled : status ≠ .Active)
    (hall : ∀ status', (t, some status') ∈ rs → status' = status) (h : (t, some status) ∈ rs) :
    (s.seeAll rs).tm.clog.lookup t = some status := by
  obtain ⟨before, after, rfl⟩ := append_of_mem h
  unfold seeAll
  rw [foldl_append, foldl_cons]
  refine seeAll_induct (P := fun found => found = some status) ?_ fun status' hmem => ?_
  · cases status with
    | Active => exact absurd rfl hsettled
    | Committed => exact (lookup_mark_committed _ _ _).trans (if_pos rfl)
    | Aborted => exact (lookup_mark_aborted _ _ _).trans (if_pos rfl)
  · exact congrArg some (hall status' (mem_append_right _ (mem_cons_of_mem _ hmem)))

/-! ## The ids -/

theorem mem_seen_seeAll : t ∈ (s.seeAll rs).seen ↔ t ∈ s.seen ∨ t ≠ 0 ∧ ∃ r ∈ rs, r.1 = t := by
  induction rs generalizing s with
  | nil => simp [seeAll]
  | cons r rs ih =>
    have hsee : t ∈ (s.see r.1 r.2).seen ↔ t ∈ s.seen ∨ t ≠ 0 ∧ r.1 = t := by
      unfold see
      dsimp only
      split
      · rw [mem_cons]
        grind
      · grind
    change t ∈ ((s.see r.1 r.2).seeAll rs).seen ↔ _
    rw [ih, hsee]
    simp only [mem_cons, exists_eq_or_imp]
    tauto

theorem max_txn_seeAll (s : StatusScan) (rs : List (Nat × Option TransactionStatus)) :
    s.max_txn ≤ (s.seeAll rs).max_txn ∧ (∀ r ∈ rs, r.1 ≤ (s.seeAll rs).max_txn) ∧
      ∀ m, s.max_txn ≤ m → (∀ r ∈ rs, r.1 ≤ m) → (s.seeAll rs).max_txn ≤ m := by
  induction rs generalizing s with
  | nil => simp [seeAll]
  | cons r rs ih =>
    obtain ⟨hle, hrs, hmax⟩ := ih (s.see r.1 r.2)
    have hsee : (s.see r.1 r.2).max_txn = max s.max_txn r.1 := rfl
    change s.max_txn ≤ ((s.see r.1 r.2).seeAll rs).max_txn ∧ _
    rw [hsee] at hle hmax
    refine ⟨(le_max_left _ _).trans hle, ?_, ?_⟩
    · intro x hx
      rcases mem_cons.mp hx with rfl | hx
      · exact (le_max_right _ _).trans hle
      · exact hrs x hx
    intro m hm hall
    exact hmax m (max_le hm (hall r mem_cons_self)) fun x hx => hall x (mem_cons_of_mem _ hx)

/-! ## The manager -/

section Marks

variable {P : TransactionManager → Prop}

/-- A fact about the manager that marking a transaction keeps holds behind the scan. -/
theorem seeAll_tm (h : P s.tm) (hcommit : ∀ tm t, P tm → P (tm.mark_committed t))
    (habort : ∀ tm t, P tm → P (tm.mark_aborted t)) : P (s.seeAll rs).tm := by
  refine foldlRecOn (motive := fun s : StatusScan => P s.tm) rs _ h fun s h r _ => ?_
  unfold see
  dsimp only
  split
  · exact hcommit _ _ h
  · exact habort _ _ h
  · exact h

theorem mark_victims_tm {tm : TransactionManager} (l : List Nat) (h : P tm)
    (habort : ∀ tm t, P tm → P (tm.mark_aborted t)) : P (l.foldl mark_victim tm) := by
  refine foldlRecOn l mark_victim h fun tm h t _ => ?_
  unfold mark_victim
  split
  · exact habort _ _ h
  · exact h

end Marks

end StatusScan

end FluxDB
