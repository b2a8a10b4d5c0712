-- What recovery makes of the transactions in the log: the part of its scan that reads the
-- statuses. The redo of the pages has no part in it, so a log that can be read settles every
-- transaction it names.
import FluxDB.StatusRecovery
import FluxDB.TornTails

namespace FluxDB

open List Except

/-- The status that a record of this type gives its transaction. -/
def WalRecordType.status : WalRecordType → Option TransactionStatus
  | .Commit => some .Committed
  | .Abort => some .Aborted
  | _ => none

namespace StatusScan

/-- The scan over the whole log. -/
def scan : Nat → List Bytes → StatusScan → Except RecoverError StatusScan
  | 0, _, _ => .error .outOfFuel
  | fuel + 1, segments, s =>
    match next_record segments with
    | none => .ok s
    | some (.error e) => .error (.wal e)
    | some (.ok (record, segments)) =>
      scan fuel segments (s.see record.txn_id.toNat record.entry_type.status)

end StatusScan

/-- The transaction manager after `recover` on a database without a checkpoint superblock. -/
def recover_statuses (segments : List Bytes) (tm : TransactionManager) :
    Except RecoverError TransactionManager := do
  let s ← StatusScan.scan ((segments.map List.length).sum + 1) segments (.start tm)
  .ok (s.finish [] 0)

/-! ## The redo of pages leaves the statuses alone -/

namespace RecoveryState

variable {canon : Bytes → Bytes}

variable {s s' : RecoveryState} {record : WalRecord}

theorem statuses_redo_block {b : Block × Nat} (h : s.redo_block canon record b = .ok s') :
    s'.toStatusScan = s.toStatusScan := by
  unfold redo_block at h
  obtain ⟨page, _, h⟩ := bind_eq_ok.mp h
  split at h
  · cases h
    rfl
  split at h
  · cases h
    rfl
  · cases h

theorem statuses_redo_record (h : s.redo_record canon record = .ok s') :
    s'.toStatusScan = s.toStatusScan := by
  unfold redo_record at h
  generalize record.blocks.zipIdx = bs at h
  induction bs generalizing s with
  | nil =>
    cases h
    rfl
  | cons b bs ih =>
    rw [foldlM_cons] at h
    obtain ⟨s1, h1, h⟩ := bind_eq_ok.mp h
    exact (ih h).trans (statuses_redo_block h1)

theorem statuses_delete_page (s : RecoveryState) (p : UInt64) :
    (s.delete_page p).toStatusScan = s.toStatusScan := by
  unfold delete_page
  split <;> rfl

theorem statuses_redo_overflow_free (h : s.redo_overflow_free record = .ok s') :
    s'.toStatusScan = s.toStatusScan := by
  unfold redo_overflow_free at h
  split at h
  · cases h
  rename_i data _
  split at h
  · cases h
  cases h
  generalize chunkIds data = ps
  induction ps generalizing s with
  | nil => rfl
  | cons p ps ih => exact ih.trans (s.statuses_delete_page p)

theorem statuses_note (s : RecoveryState) (record : WalRecord) :
    (s.note record).toStatusScan = s.toStatusScan.see record.txn_id.toNat none := by
  have hzero : record.txn_id ≠ 0 ↔ record.txn_id.toNat ≠ 0 := not_congr UInt64.toNat_inj.symm
  simp only [note, StatusScan.see, hzero]

theorem statuses_redo {redo_point : Nat}
    (h : (s.note record).redo canon redo_point record = .ok s') :
    s'.toStatusScan = s.toStatusScan.see record.txn_id.toNat record.entry_type.status := by
  have hnote := statuses_note s record
  unfold redo at h
  cases ht : record.entry_type with
  | Commit =>
    simp only [ht] at h
    cases h
    exact congrArg ({ · with tm := s.tm.mark_committed record.txn_id.toNat }) hnote
  | Abort =>
    simp only [ht] at h
    cases h
    exact congrArg ({ · with tm := s.tm.mark_aborted record.txn_id.toNat }) hnote
  | _ =>
    refine Eq.trans ?_ hnote
    simp only [ht] at h
    first
    | (cases h; rfl)
    | split at h
      · first
        | exact statuses_redo_overflow_free h
        | exact statuses_redo_record h
      cases h
      rfl

theorem statuses_replay {redo_point fuel : Nat} {segments : List Bytes}
    (h : replay canon redo_point fuel segments s = .ok s') :
    StatusScan.scan fuel segments s.toStatusScan = .ok s'.toStatusScan := by
  induction fuel generalizing segments s with
  | zero => cases h
  | succ fuel ih =>
    revert h
    rw [replay, StatusScan.scan]
    cases next_record segments with
    | none =>
      rintro ⟨⟩
      rfl
    | some result =>
      cases result with
      | error e => rintro ⟨⟩
      | ok found =>
        intro h
        obtain ⟨s1, h1, h⟩ := bind_eq_ok.mp h
        have hscan := ih h
        rwa [statuses_redo h1] at hscan

end RecoveryState

/-- Whenever recovery goes through, its transaction manager is the one of the status scan. -/
theorem recover_statuses_of_recover {canon : Bytes → Bytes} {disk : UInt64 → Page}
    {segments : List Bytes} {tm : TransactionManager} {next_page_id : Nat} {r : Recovered}
    (h : recover canon disk segments tm next_page_id = .ok r) :
    recover_statuses segments tm = .ok r.tm := by
  obtain ⟨s, hs, h⟩ := bind_eq_ok.mp h
  cases h
  unfold recover_statuses
  have hscan := RecoveryState.statuses_replay hs
  change StatusScan.scan _ segments (.start tm) = _ at hscan
  rw [hscan]
  rfl

/-! ## The statuses that a log gives -/

/-- The transaction that the record names. -/
def Entry.txn (e : Entry) : Nat := e.txn_id.toNat

abbrev Entry.status (e : Entry) : Option TransactionStatus := e.entry_type.status

abbrev Logged.txn (r : Logged) : Nat := r.entry.txn

abbrev Logged.status (r : Logged) : Option TransactionStatus := r.entry.status

/-- What recovery reads of the record for the statuses. -/
def Logged.seen (r : Logged) : Nat × Option TransactionStatus := (r.txn, r.status)

namespace StatusScan

variable {rs : List Logged} {s : StatusScan} {t : Nat}

theorem scan_records (hrs : ∀ r ∈ rs, r.Fits) {segments : List Bytes}
    (hseg : Running.Segmented segments (rs.map Logged.bytes)) {fuel : Nat}
    (hfuel : rs.length < fuel) : scan fuel segments s = .ok (s.seeAll (rs.map Logged.seen)) := by
  induction rs generalizing fuel segments s with
  | nil =>
    obtain ⟨fuel, rfl⟩ : ∃ f, fuel = f + 1 := ⟨fuel - 1, by omega⟩
    rw [scan, Running.next_record_nil hseg]
    rfl
  | cons r rs ih =>
    obtain ⟨fuel, rfl⟩ : ∃ f, fuel = f + 1 := ⟨fuel - 1, by omega⟩
    have hr := hrs r mem_cons_self
    obtain ⟨rest, hnext, hrest⟩ := Running.next_record_cons hr.entry hr.lsn hseg
    rw [length_cons] at hfuel
    rw [scan, hnext]
    exact ih (fun r hr => hrs r (mem_cons_of_mem _ hr)) hrest (by omega)

end StatusScan

/-! ## What recovery says of a transaction -/

section Answers

variable {rs : List Logged} {segments : List Bytes} {t : Nat}

/-- What the scan gathers from these records. -/
def scanOf (rs : List Logged) : StatusScan := (StatusScan.start .new).seeAll (rs.map Logged.seen)

/-- The transaction manager that recovery builds from these records. -/
def statusesOf (rs : List Logged) : TransactionManager := (scanOf rs).finish [] 0

theorem recover_statuses_eq (hrs : ∀ r ∈ rs, r.Fits)
    (hseg : Running.Segmented segments (rs.map Logged.bytes)) :
    recover_statuses segments .new = .ok (statusesOf rs) := by
  have hfuel : rs.length < (segments.map List.length).sum + 1 := by
    have hle := hseg.length_le fun b hb => by
      obtain ⟨r, _, rfl⟩ := mem_map.mp hb
      exact r.bytes_ne_nil
    rw [length_map] at hle
    omega
  unfold recover_statuses
  rw [StatusScan.scan_records hrs hseg hfuel]
  rfl

theorem mem_map_seen {status : Option TransactionStatus} :
    (t, status) ∈ rs.map Logged.seen ↔ ∃ r ∈ rs, r.txn = t ∧ r.status = status := by
  simp only [mem_map, Logged.seen, Prod.mk.injEq]

theorem lookup_statusesOf (rs : List Logged) (t : Nat) : (statusesOf rs).clog.lookup t =
      if (∃ r ∈ rs, r.txn = t) ∧ t ≠ 0 ∧ (scanOf rs).tm.clog.lookup t ≠ some .Committed then
        some .Aborted
      else (scanOf rs).tm.clog.lookup t := by
  have hseen : t ∈ [] ++ (scanOf rs).seen ↔ t ≠ 0 ∧ ∃ r ∈ rs, r.txn = t := by
    unfold scanOf
    rw [nil_append, StatusScan.mem_seen_seeAll]
    refine (or_iff_right not_mem_nil).trans ?_
    simp only [mem_map, exists_exists_and_eq_and, Logged.seen]
  exact (StatusScan.lookup_finish _ _ _ _).trans (if_congr (by rw [hseen]; tauto) rfl rfl)

/-- At most one status is logged for each transaction. -/
def OneStatus (rs : List Logged) : Prop :=
  ∀ r ∈ rs, ∀ r' ∈ rs, r.txn = r'.txn → r.status ≠ none → r'.status ≠ none → r.status = r'.status

theorem lookup_scanOf_ne (hno : ∀ r ∈ rs, r.txn = t → r.status ≠ some .Committed) :
    (scanOf rs).tm.clog.lookup t ≠ some .Committed := by
  refine StatusScan.seeAll_induct (P := fun found => found ≠ some .Committed) ?_
    fun status hmem heq => ?_
  · simp [StatusScan.start, TransactionManager.new]
  · obtain ⟨r, hr, htxn, hstatus⟩ := mem_map_seen.mp hmem
    exact hno r hr htxn (hstatus.trans heq)

/-- Recovery marks a transaction committed when its Commit record is in the log, and never
otherwise. -/
theorem statusesOf_is_committed_iff (hone : OneStatus rs) (h0 : t ≠ 0) :
    (statusesOf rs).is_committed t = true ↔ ∃ r ∈ rs, r.txn = t ∧ r.status = some .Committed := by
  rw [is_committed_iff, or_iff_right h0, lookup_statusesOf]
  constructor
  · intro h
    by_contra hno
    have hlook : (scanOf rs).tm.clog.lookup t ≠ some .Committed :=
      lookup_scanOf_ne fun r hr htxn hstatus => hno ⟨r, hr, htxn, hstatus⟩
    split at h
    · cases h
    · exact hlook h
  rintro ⟨r, hr, htxn, hstatus⟩
  have hlook : (scanOf rs).tm.clog.lookup t = some .Committed := by
    refine StatusScan.lookup_seeAll nofun (fun status hmem => ?_)
      (mem_map_seen.mpr ⟨r, hr, htxn, hstatus⟩)
    obtain ⟨r', hr', htxn', hstatus'⟩ := mem_map_seen.mp hmem
    have heq := hone r hr r' hr' (htxn.trans htxn'.symm) (by simp [hstatus]) (by simp [hstatus'])
    rw [hstatus, hstatus'] at heq
    exact (Option.some.inj heq).symm
  rw [if_neg fun h => h.2.2 hlook]
  exact hlook

/-- A transaction that the log names and does not commit is marked aborted. -/
theorem statusesOf_is_aborted (h0 : t ≠ 0) (hseen : ∃ r ∈ rs, r.txn = t)
    (hno : ∀ r ∈ rs, r.txn = t → r.status ≠ some .Committed) :
    (statusesOf rs).is_aborted t = true := by
  rw [is_aborted_iff, lookup_statusesOf, if_pos ⟨hseen, h0, lookup_scanOf_ne hno⟩]

theorem statusesOf_active_txns (rs : List Logged) : (statusesOf rs).active_txns = ∅ := by
  have hmark : ∀ (tm : TransactionManager) (t : Nat), tm.active_txns = ∅ →
      tm.active_txns.erase t = ∅ := by
    intro tm t h
    rw [h]
    rfl
  exact StatusScan.mark_victims_tm (P := fun tm => tm.active_txns = ∅) _
    (StatusScan.seeAll_tm (P := fun tm => tm.active_txns = ∅) rfl hmark hmark) hmark

/-- The next id is the least one above every id in the log. -/
theorem statusesOf_next_txn_id (rs : List Logged) :
    (∀ r ∈ rs, r.txn < (statusesOf rs).next_txn_id) ∧
      ∀ m, 0 < m → (∀ r ∈ rs, r.txn < m) → (statusesOf rs).next_txn_id ≤ m := by
  have hnext : ((scanOf rs).seen.foldl mark_victim (scanOf rs).tm).next_txn_id = 1 :=
    StatusScan.mark_victims_tm (P := fun tm => tm.next_txn_id = 1) _
      (StatusScan.seeAll_tm (P := fun tm => tm.next_txn_id = 1) rfl (fun _ _ h => h) fun _ _ h => h)
      fun _ _ h => h
  have hids : (statusesOf rs).next_txn_id = max 1 (max 0 ((scanOf rs).max_txn + 1)) :=
    congrArg (max · (max 0 ((scanOf rs).max_txn + 1))) hnext
  obtain ⟨_, hle, hmax⟩ := StatusScan.max_txn_seeAll (.start .new) (rs.map Logged.seen)
  rw [forall_mem_map] at hle
  simp only [forall_mem_map] at hmax
  rw [hids]
  refine ⟨fun r hr => ?_, fun m hpos hall => ?_⟩
  · have : r.txn ≤ (scanOf rs).max_txn := hle r hr
    omega
  have : (scanOf rs).max_txn ≤ m - 1 := hmax (m - 1) (Nat.zero_le _) fun r hr => by
    have := hall r hr
    change r.txn ≤ _
    omega
  omega

/-- The engine's recovery and the one that reads the files agree on the statuses when there is no
checkpoint. -/
theorem recover_tm_eq_statusesOf {d : Engine.Files} (hcheckpoint : d.checkpoint = none)
    (hrecords : d.records.map Engine.LogRecord.seen = rs.map Logged.seen) :
    (Engine.recover d).tm = statusesOf rs := by
  rw [Engine.recover_tm, Engine.Files.statuses, hcheckpoint, hrecords]
  rfl

end Answers

end FluxDB
