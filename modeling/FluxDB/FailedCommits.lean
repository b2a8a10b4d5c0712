-- Commits that return an error: the group flush gives up at some write, rotation or sync, the
-- transaction is marked aborted in memory, and what recovery makes of it is decided by the
-- bytes of its Commit record that reached the file all the same.
import FluxDB.DurableCommits

namespace FluxDB.Commits

variable {w : World}

/-- A record in the surviving files has a twin among the records that they hold. -/
theorem exists_twin {rs : List Logged} (hfits : ∀ r ∈ rs, r.Fits) {closed : List Bytes}
    {file : Bytes} (hholds : Holds rs closed file) {r : Logged}
    (hr : HoldsRecord (closed ++ [file]) r) :
    ∃ r' ∈ rs, r'.txn = r.txn ∧ r'.status = r.status := by
  obtain ⟨r', hr', hrec⟩ := hholds.mem_of_holdsRecord hfits hr
  have hid : r'.entry.txn_id = r.entry.txn_id := congrArg (fun x : WalRecord => x.txn_id) hrec
  have htype : r'.entry.entry_type = r.entry.entry_type :=
    congrArg (fun x : WalRecord => x.entry_type) hrec
  refine ⟨r', hr', ?_, ?_⟩
  · unfold Logged.txn Entry.txn
    rw [hid]
  · unfold Logged.status Entry.status
    rw [htype]

/-- The files hold a whole Commit record of the transaction. -/
def HoldsCommit (segments : List Bytes) (t : Nat) : Prop :=
  ∃ r : Logged, r.txn = t ∧ r.status = some .Committed ∧ HoldsRecord segments r

/-- The files hold some whole record of the transaction. -/
def HoldsTrace (segments : List Bytes) (t : Nat) : Prop :=
  ∃ r : Logged, r.txn = t ∧ HoldsRecord segments r

/-- After every run whose records fit their headers, for every transaction whose commit has returned
an error and every state of the files at a later reopen: recovery leaves the transaction uncommitted
exactly if its Commit record did not get into the files as a whole, and it then marks it aborted if
any of its records did. -/
theorem a_failed_commit_stays_aborted_iff_its_record_is_cut (buffer_capacity segment_size : Nat)
    {p : List Event} (hfits : Fitting buffer_capacity segment_size p)
    (hrun : Runs.run step (create buffer_capacity segment_size) p = some w)
    {t : Nat} (hfailed : w.failed t = true) {kept : Nat} (hsynced : w.wal.writer.synced ≤ kept)
    (hkept : kept ≤ w.wal.writer.offset) :
    ∃ wal tm, w.reopen kept = some (wal, tm) ∧
      (tm.is_committed t = false ↔ ¬ HoldsCommit (w.wal.writer.survivors kept) t) ∧
      (tm.is_committed t = false → HoldsTrace (w.wal.writer.survivors kept) t →
        tm.is_aborted t = true) ∧
      ∀ canon disk next_page_id r,
        recover canon disk wal.writer.segments .new next_page_id = .ok r → r.tm = tm := by
  have h := good_run hfits hrun
  have hpos := (h.failed t hfailed).1.ne'
  obtain ⟨rs, hpre, _, hholds, wal, hopen, _, _, _, _, hrec⟩ := h.reopen hsynced hkept
  have hrs : ∀ r ∈ rs, r.Fits := fun r hr => h.wal.records.2 r (hpre.subset hr)
  have hiff := statusesOf_is_committed_iff (h.oneStatus hpre.subset) hpos
  have hcommit : (statusesOf rs).is_committed t = true ↔
      HoldsCommit (w.wal.writer.survivors kept) t := by
    rw [hiff]
    constructor
    · rintro ⟨r, hr, htxn, hstatus⟩
      exact ⟨r, htxn, hstatus, hholds.holdsRecord hrs hr⟩
    · rintro ⟨r, htxn, hstatus, hheld⟩
      obtain ⟨r', hr', htxn', hstatus'⟩ := exists_twin hrs hholds hheld
      exact ⟨r', hr', htxn'.trans htxn, hstatus'.trans hstatus⟩
  refine ⟨wal, _, hopen, ?_, fun hno htrace => ?_, fun canon disk next_page_id r hr => ?_⟩
  · rw [← hcommit, Bool.not_eq_true]
  · obtain ⟨r, htxn, hheld⟩ := htrace
    obtain ⟨r', hr', htxn', _⟩ := exists_twin hrs hholds hheld
    refine statusesOf_is_aborted hpos ⟨r', hr', htxn'.trans htxn⟩ fun x hx hxt hstatus => ?_
    rw [hiff.mpr ⟨x, hx, hxt, hstatus⟩] at hno
    cases hno
  · have := recover_statuses_of_recover hr
    rw [hrec] at this
    exact (Except.ok.inj this).symm

/-- The leader publishes the failure, and its commit marks the transaction aborted and returns the
error. -/
def commitFails : List Event :=
  List.replicate 9 (.wal (.run 2)) ++ [.abort_clog 1, .abort_active 1]

/-- The write of the Commit record fails after five bytes. -/
def tornCommit : List Event :=
  commitUpToFlush ++ List.replicate 8 (.wal (.run 2)) ++ .wal (.write_fault 2 (.write 5)) ::
    commitFails

theorem a_torn_commit_stays_aborted :
    ∃ w, Runs.run step (create 256 256) tornCommit = some w ∧ w.failed 1 = true ∧
      ∃ wal tm, w.reopen w.wal.writer.offset = some (wal, tm) ∧
        (tm.is_committed 1 = false ↔
          ¬ HoldsCommit (w.wal.writer.survivors w.wal.writer.offset) 1) := by
  obtain ⟨w, hrun, hfailed⟩ : ∃ w, Runs.run step (create 256 256) tornCommit = some w ∧
      w.failed 1 = true := Runs.exists_run (by decide +kernel)
  have hfits : Fitting 256 256 tornCommit := by decide +kernel
  obtain ⟨wal, tm, hopen, hiff, _⟩ := a_failed_commit_stays_aborted_iff_its_record_is_cut 256 256
    hfits hrun hfailed (good_run hfits hrun).synced_le le_rfl
  exact ⟨w, hrun, hfailed, wal, tm, hopen, hiff⟩

/-- Both records are written and the sync fails. -/
def unsyncedCommit : List Event :=
  commitUpToFlush ++ List.replicate 9 (.wal (.run 2)) ++ .wal (.sync_fault 2) :: commitFails

/-- The commit has failed, the transaction is aborted in memory, and recovery of the files as
they are marks it committed. -/
def ComesBack (w : World) (t : Nat) : Prop :=
  w.failed t = true ∧ w.txns.tm.is_aborted t = true ∧
    (w.reopen w.wal.writer.offset).any fun r => r.2.is_committed t

instance (w : World) (t : Nat) : Decidable (ComesBack w t) := inferInstanceAs (Decidable (_ ∧ _))

theorem a_failed_sync_commits_after_a_reopen :
    ∃ w, Runs.run step (create 256 256) unsyncedCommit = some w ∧ ComesBack w 1 :=
  Runs.exists_run (by decide +kernel)

end FluxDB.Commits
