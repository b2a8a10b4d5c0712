-- Recovery of the transaction statuses and of the id counters. Pages are kept as the row
-- versions and page ids on them, records as what recovery reads of them, and the branch
-- that starts from the checkpoint named by the superblock is in the model.
import FluxDB.StatusScan

namespace FluxDB.Engine

open Maps List TransactionManager
open Function (update)

/-! ## Pages and records -/

/-- A row version on a page. `born` is the LSN of the record that inserted it: it tells
which version this is, and the code does not store it. -/
structure Row where
  born : Nat
  xmin : Nat
  xmax : Nat
  deriving DecidableEq, Repr

/-- A page: its LSN, its row versions, and the page ids that it names (children, siblings,
the first page of an overflow chain, the next page of one). -/
structure TreePage where
  lsn : Nat
  rows : List Row
  links : List Nat
  deriving DecidableEq, Repr

/-- A zero-filled page. -/
def TreePage.zero : TreePage := { lsn := 0, rows := [], links := [] }

/-- What one block of a record does to its page. -/
inductive Change
  | insert (slot xmin : Nat) (links : List Nat)
  | set_xmax (slot xmax : Nat)
  | image (rows : List Row) (links : List Nat)
  | link (links : List Nat)
  deriving DecidableEq, Repr

/-- The page after the change, stamped with the record's LSN. A block without an image
that changes links only ever counts the page ids that it adds. -/
def Change.apply (lsn : Nat) (p : TreePage) : Change → TreePage
  | insert slot xmin links =>
    { lsn, rows := p.rows.insertIdx slot { born := lsn, xmin, xmax := 0 },
      links := links ++ p.links }
  | set_xmax slot xmax =>
    { p with lsn, rows := p.rows.modify slot fun row => { row with xmax } }
  | image rows links => { lsn, rows, links }
  | link links => { p with lsn, links := links ++ p.links }

/-- Here the numbers of a checkpoint are unbounded. -/
abbrev CheckpointData := FluxDB.CheckpointData Nat

/-- A record. `System` stands for every record that is logged with the system's id 0:
splits, downlinks, new roots, compactions, unlinks, and frees (no block at all). -/
inductive LogRecord
  | Insert (txn_id page_id slot : Nat) (links : List Nat)
  | SetXMax (txn_id page_id slot : Nat)
  | OverflowWrite (txn_id page_id : Nat) (links : List Nat)
  | System (blocks : List (Nat × Change))
  | Commit (txn_id : Nat)
  | Abort (txn_id : Nat)
  | Checkpoint (data : CheckpointData)
  deriving DecidableEq, Repr

namespace LogRecord

/-- The transaction id in the record's header. -/
def txn_id : LogRecord → Nat
  | Insert t _ _ _ | SetXMax t _ _ | OverflowWrite t _ _ | Commit t | Abort t => t
  | System _ | Checkpoint _ => 0

def blocks : LogRecord → List (Nat × Change)
  | Insert t page_id slot links => [(page_id, .insert slot t links)]
  | SetXMax t page_id slot => [(page_id, .set_xmax slot t)]
  | OverflowWrite _ page_id links => [(page_id, .image [] links)]
  | System blocks => blocks
  | Commit _ | Abort _ | Checkpoint _ => []

/-- The status that the record gives its transaction. -/
def status : LogRecord → Option TransactionStatus
  | Commit _ => some .Committed
  | Abort _ => some .Aborted
  | _ => none

/-- What recovery reads of the record for the statuses. -/
def seen (r : LogRecord) : Nat × Option TransactionStatus := (r.txn_id, r.status)

end LogRecord

/-! ## Recovery -/

/-- The pages with the block's page changed and stamped. -/
def change_block (lsn : Nat) (pages : Nat → TreePage) (b : Nat × Change) : Nat → TreePage :=
  update pages b.1 (b.2.apply lsn (pages b.1))

/-- Redo of one block: a page that has the record's LSN or a later one is left alone. -/
def redo_block (lsn : Nat) (pages : Nat → TreePage) (b : Nat × Change) : Nat → TreePage :=
  if lsn ≤ (pages b.1).lsn then pages else change_block lsn pages b

def redo_record (lsn : Nat) (pages : Nat → TreePage) (r : LogRecord) : Nat → TreePage :=
  r.blocks.foldl (redo_block lsn) pages

/-- What a crash leaves: the superblock file, the records of the remaining segments with
the LSN of the first one, and the data file with its length in pages. -/
structure Files where
  superblock : Option Nat
  first_lsn : Nat
  records : List LogRecord
  pages : Nat → TreePage
  num_pages : Nat

/-- The first pass: the checkpoint record with the LSN of the superblock. -/
def find_checkpoint (target : Nat) : Nat → List LogRecord → Option CheckpointData
  | _, [] => none
  | lsn, r :: rest =>
    match r with
    | .Checkpoint data => if lsn = target then some data else find_checkpoint target (lsn + 1) rest
    | _ => find_checkpoint target (lsn + 1) rest

/-- What the second pass has gathered so far. -/
structure Scan extends StatusScan where
  max_page_id : Nat
  pages : Nat → TreePage

/-- The second pass on one record. Commit and Abort records are applied below the redo
point too. -/
def Scan.record (redo_point lsn : Nat) (s : Scan) (r : LogRecord) : Scan where
  toStatusScan := s.toStatusScan.see r.txn_id r.status
  max_page_id := (r.blocks.map Prod.fst).foldl max s.max_page_id
  pages := if lsn < redo_point then s.pages else redo_record lsn s.pages r

def Scan.records (redo_point : Nat) : Nat → Scan → List LogRecord → Scan
  | _, s, [] => s
  | lsn, s, r :: rest => Scan.records redo_point (lsn + 1) (s.record redo_point lsn r) rest

def seed_clog_from_checkpoint (tm : TransactionManager) (pinned_aborted : List Nat) :
    TransactionManager :=
  pinned_aborted.foldl (fun tm t => tm.clog_insert t .Aborted) tm

/-- The database after recovery. -/
structure Recovered where
  checkpoint : Option CheckpointData
  tm : TransactionManager
  vacuum_horizon : Nat
  pages : Nat → TreePage
  next_page_id : Nat

/-- The checkpoint that recovery starts from, when there is one. -/
def Files.checkpoint (d : Files) : Option CheckpointData :=
  d.superblock.bind fun target => find_checkpoint target d.first_lsn d.records

/-- The state before the second pass. -/
def Scan.start (c : Option CheckpointData) (pages : Nat → TreePage) : Scan where
  tm := seed_clog_from_checkpoint .new ((c.map CheckpointData.pinned_aborted).getD [])
  seen := []
  max_txn := (c.map fun c => c.next_txn_id - 1).getD 0
  max_page_id := (c.map fun c => c.next_page_id - 1).getD 0
  pages

def recover (d : Files) : Recovered :=
  let c := d.checkpoint
  let redo_point := (c.map CheckpointData.redo_point).getD 0
  let s := Scan.records redo_point d.first_lsn (.start c d.pages) d.records
  let final_next_page_id := max ((c.map CheckpointData.next_page_id).getD 0) (s.max_page_id + 1)
  { checkpoint := c
    tm := s.finish ((c.map CheckpointData.active_txns).getD [])
      ((c.map CheckpointData.next_txn_id).getD 0)
    vacuum_horizon := (c.map CheckpointData.vacuum_horizon).getD 0
    pages := s.pages
    next_page_id := max d.num_pages final_next_page_id }

section Passes

variable {redo_point lsn t : Nat} {s : Scan} {rs : List LogRecord} {tm : TransactionManager}

/-- A fact that every record keeps holds after all of them. -/
theorem Scan.records_induct {P : Scan → Prop} (hs : P s)
    (hstep : ∀ i r, rs[i]? = some r → ∀ s, P s → P (s.record redo_point (lsn + i) r)) :
    P (Scan.records redo_point lsn s rs) := by
  induction rs generalizing lsn s with
  | nil => exact hs
  | cons r rest ih =>
    apply ih (hstep 0 r (by simp) s hs)
    intro i r' hr' s' hs'
    have := hstep (i + 1) r' (by simpa using hr') s' hs'
    rwa [show lsn + (i + 1) = lsn + 1 + i by omega] at this

theorem Scan.toStatusScan_records (s : Scan) (rs : List LogRecord) :
    (Scan.records redo_point lsn s rs).toStatusScan =
      s.toStatusScan.seeAll (rs.map LogRecord.seen) := by
  induction rs generalizing lsn s with
  | nil => rfl
  | cons r rest ih => exact ih (s.record redo_point lsn r)

theorem mem_seen_iff {status : TransactionStatus} : (t, some status) ∈ rs.map LogRecord.seen ↔
      status = .Committed ∧ .Commit t ∈ rs ∨ status = .Aborted ∧ .Abort t ∈ rs := by
  rw [mem_map]
  constructor
  · rintro ⟨r, hr, heq⟩
    cases r <;> cases heq
    · exact .inl ⟨rfl, hr⟩
    · exact .inr ⟨rfl, hr⟩
  · rintro (⟨rfl, h⟩ | ⟨rfl, h⟩)
    · exact ⟨_, h, rfl⟩
    · exact ⟨_, h, rfl⟩

theorem le_foldl_max (l : List Nat) (m : Nat) : m ≤ l.foldl max m ∧ ∀ x ∈ l, x ≤ l.foldl max m := by
  induction l generalizing m with
  | nil => simp
  | cons a l ih =>
    obtain ⟨h1, h2⟩ := ih (max m a)
    refine ⟨le_trans (le_max_left _ _) h1, ?_⟩
    intro x hx
    rcases mem_cons.mp hx with rfl | hx
    · exact le_trans (le_max_right _ _) h1
    · exact h2 x hx

theorem Scan.max_page_id_ge : s.max_page_id ≤ (Scan.records redo_point lsn s rs).max_page_id ∧
      ∀ r ∈ rs, ∀ b ∈ r.blocks, b.1 ≤ (Scan.records redo_point lsn s rs).max_page_id := by
  induction rs generalizing lsn s with
  | nil => simp [Scan.records]
  | cons r rest ih =>
    obtain ⟨h1, h2⟩ := @ih (lsn + 1) (s.record redo_point lsn r)
    obtain ⟨h3, h4⟩ := le_foldl_max (r.blocks.map Prod.fst) s.max_page_id
    refine ⟨le_trans h3 h1, ?_⟩
    intro r' hr' b hb
    rcases mem_cons.mp hr' with rfl | hr'
    · exact le_trans (h4 b.1 (mem_map_of_mem hb)) h1
    · exact h2 r' hr' b hb

theorem lookup_seed_clog (l : List Nat) (tm : TransactionManager) (t : Nat) :
    (seed_clog_from_checkpoint tm l).clog.lookup t =
      if t ∈ l then some .Aborted else tm.clog.lookup t := by
  induction l generalizing tm with
  | nil => simp [seed_clog_from_checkpoint]
  | cons a l ih =>
    have := ih (tm.clog_insert a .Aborted)
    simp only [seed_clog_from_checkpoint, foldl_cons] at this ⊢
    rw [this, clog_insert, lookup_insert_eq_ite]
    by_cases h : t = a <;> simp [h]

end Passes

theorem find_checkpoint_eq {rs : List LogRecord} {i : Nat} {c : CheckpointData} (lsn : Nat)
    (h : rs[i]? = some (.Checkpoint c)) : find_checkpoint (lsn + i) lsn rs = some c := by
  induction rs generalizing i lsn with
  | nil => simp at h
  | cons r rest ih =>
    cases i with
    | zero =>
      simp only [getElem?_cons_zero, Option.some.injEq] at h
      subst h
      simp [find_checkpoint]
    | succ i =>
      have hrest : find_checkpoint (lsn + (i + 1)) (lsn + 1) rest = some c := by
        rw [show lsn + (i + 1) = lsn + 1 + i by omega]
        exact ih _ h
      cases r <;> simp [find_checkpoint, hrest]

/-! ## What recovery answers -/

section Answers

variable {d : Files} {t : Nat}

/-- What the second pass has gathered about the transactions. -/
def Files.statuses (d : Files) : StatusScan :=
  (Scan.start d.checkpoint d.pages).seeAll (d.records.map LogRecord.seen)

theorem recover_tm (d : Files) : (recover d).tm =
      d.statuses.finish ((d.checkpoint.map CheckpointData.active_txns).getD [])
        ((d.checkpoint.map CheckpointData.next_txn_id).getD 0) := by
  unfold recover
  dsimp only
  rw [Scan.toStatusScan_records]
  rfl

theorem lookup_start (c : Option CheckpointData) (pages : Nat → TreePage) (t : Nat) :
    (Scan.start c pages).tm.clog.lookup t =
      if t ∈ (c.map CheckpointData.pinned_aborted).getD [] then some .Aborted else none := by
  rw [Scan.start, lookup_seed_clog]
  rfl

/-- A transaction whose Commit record is found, or that recovery finds no trace of, is not
marked aborted. -/
theorem recover_not_aborted (ha : .Abort t ∉ d.records)
    (h : .Commit t ∈ d.records ∨
      (∀ c, d.checkpoint = some c → t ∉ c.pinned_aborted ∧ t ∉ c.active_txns) ∧
        ∀ r ∈ d.records, r.txn_id ≠ t) :
    (recover d).tm.is_aborted t = false := by
  have hall : ∀ status, (t, some status) ∈ d.records.map LogRecord.seen → status = .Committed := by
    intro status hmem
    rcases mem_seen_iff.mp hmem with ⟨hc, -⟩ | ⟨-, h⟩
    · exact hc
    · exact absurd h ha
  rw [Bool.eq_false_iff, Ne, is_aborted_iff, recover_tm, StatusScan.lookup_finish]
  rcases h with hc | ⟨hact, hrec⟩
  · have hcommitted : d.statuses.tm.clog.lookup t = some .Committed :=
      StatusScan.lookup_seeAll nofun hall (mem_seen_iff.mpr (.inl ⟨rfl, hc⟩))
    rw [hcommitted]
    simp
  have hnot : t ∉ (d.checkpoint.map CheckpointData.active_txns).getD [] ++ d.statuses.seen := by
    rw [mem_append, Files.statuses, StatusScan.mem_seen_seeAll]
    rintro (h | h | ⟨_, r, hr, ht⟩)
    · cases hcp : d.checkpoint with
      | none => simp [hcp] at h
      | some c => exact (hact c hcp).2 (by simpa [hcp] using h)
    · simp [Scan.start] at h
    · obtain ⟨r', hr', rfl⟩ := mem_map.mp hr
      exact hrec r' hr' ht
  rw [if_neg (fun h => hnot h.1)]
  refine StatusScan.seeAll_induct (P := fun found => found ≠ some .Aborted) ?_ fun status hmem => ?_
  · rw [lookup_start]
    cases hcp : d.checkpoint with
    | none => simp
    | some c => simpa using (hact c hcp).1
  · rw [hall status hmem]
    simp

/-- A transaction without a Commit record that the checkpoint or a record names is marked
aborted. -/
theorem recover_aborted (h0 : t ≠ 0) (hc : .Commit t ∉ d.records)
    (h : (∃ c, d.checkpoint = some c ∧ (t ∈ c.pinned_aborted ∨ t ∈ c.active_txns)) ∨
      ∃ r ∈ d.records, r.txn_id = t) :
    (recover d).tm.is_aborted t = true := by
  have hall : ∀ status, (t, some status) ∈ d.records.map LogRecord.seen → status = .Aborted := by
    intro status hmem
    rcases mem_seen_iff.mp hmem with ⟨-, h⟩ | ⟨ha, -⟩
    · exact absurd h hc
    · exact ha
  rw [is_aborted_iff, recover_tm, StatusScan.lookup_finish]
  split
  · rfl
  rename_i hn
  have hncommit : d.statuses.tm.clog.lookup t ≠ some .Committed := by
    refine StatusScan.seeAll_induct (P := fun found => found ≠ some .Committed) ?_
      fun status hmem => ?_
    · rw [lookup_start]
      split <;> simp
    · rw [hall status hmem]
      simp
  rcases h with ⟨c, hcp, hpin | hact⟩ | ⟨r, hr, ht⟩
  · refine StatusScan.seeAll_induct (P := fun found => found = some .Aborted) ?_
      fun status hmem => congrArg some (hall status hmem)
    rw [lookup_start, hcp, if_pos (by simpa using hpin)]
  · exact absurd ⟨mem_append_left _ (by simpa [hcp] using hact), h0, hncommit⟩ hn
  · refine absurd ⟨mem_append_right _ (StatusScan.mem_seen_seeAll.mpr (.inr ⟨h0, r.seen, ?_, ht⟩)),
      h0, hncommit⟩ hn
    exact mem_map_of_mem hr

theorem lt_recover_next_txn_id
    (h : (∃ c, d.checkpoint = some c ∧ t < c.next_txn_id) ∨ ∃ r ∈ d.records, r.txn_id = t) :
    t < (recover d).tm.next_txn_id := by
  rw [recover_tm]
  refine lt_of_lt_of_le ?_ (le_max_right _ _)
  rcases h with ⟨c, hc, ht⟩ | ⟨r, hr, rfl⟩
  · exact lt_of_lt_of_le ht (le_trans (by simp [hc]) (le_max_left _ _))
  · have hle := (StatusScan.max_txn_seeAll (Scan.start d.checkpoint d.pages).toStatusScan
      (d.records.map LogRecord.seen)).2.1 r.seen (mem_map_of_mem hr)
    exact lt_of_lt_of_le (Nat.lt_succ_of_le hle) (le_max_right _ _)

theorem lt_recover_next_page_id {q : Nat}
    (h : q < d.num_pages ∨ (∃ c, d.checkpoint = some c ∧ q < c.next_page_id) ∨
      ∃ r ∈ d.records, ∃ b ∈ r.blocks, b.1 = q) :
    q < (recover d).next_page_id := by
  rcases h with h | ⟨c, hc, hq⟩ | ⟨r, hr, b, hb, rfl⟩
  · exact lt_of_lt_of_le h (le_max_left _ _)
  · refine lt_of_lt_of_le ?_ (le_max_right _ _)
    exact lt_of_lt_of_le hq (le_trans (by simp [hc]) (le_max_left _ _))
  refine lt_of_lt_of_le ?_ (le_max_right _ _)
  exact lt_of_lt_of_le (Nat.lt_succ_of_le (Scan.max_page_id_ge.2 r hr b hb)) (le_max_right _ _)

/-- A fact about the manager that a new one has and that marking a transaction keeps. -/
theorem recover_tm_induct {P : TransactionManager → Prop} (hnew : P .new)
    (hclog : ∀ tm t status, P tm → P (tm.clog_insert t status))
    (hremove : ∀ tm t, P tm → P (tm.active_remove t))
    (hnext : ∀ tm next_txn_id, P tm → P { tm with next_txn_id }) : P (recover d).tm := by
  have hseed : ∀ (l : List Nat) (tm : TransactionManager), P tm →
      P (seed_clog_from_checkpoint tm l) := by
    intro l
    induction l with
    | nil => exact fun _ h => h
    | cons a l ih => exact fun tm h => ih (tm.clog_insert a .Aborted) (hclog tm a _ h)
  rw [recover_tm]
  refine hnext _ _ (StatusScan.mark_victims_tm _ ?_ fun tm t h => hremove _ t (hclog tm t _ h))
  exact StatusScan.seeAll_tm (hseed _ _ hnew) (fun tm t h => hremove _ t (hclog tm t _ h))
    fun tm t h => hremove _ t (hclog tm t _ h)

/-- After recovery no transaction is active. -/
theorem recover_active_txns (d : Files) : (recover d).tm.active_txns = ∅ := by
  refine recover_tm_induct (P := fun tm => tm.active_txns = ∅) rfl (fun _ _ _ h => h) ?_
    (fun _ _ h => h)
  intro tm t h
  change tm.active_txns.erase t = ∅
  rw [h]
  rfl

theorem recover_readers (d : Files) : (recover d).tm.readers = ∅ :=
  recover_tm_induct (P := fun tm => tm.readers = ∅) rfl (fun _ _ _ h => h) (fun _ _ h => h)
    (fun _ _ h => h)

/-- A fact about the pages that the redo of every record from the redo point on keeps. -/
theorem recover_pages_induct {P : (Nat → TreePage) → Prop} (h : P d.pages)
    (hstep : ∀ i r, d.records[i]? = some r →
      (d.checkpoint.map CheckpointData.redo_point).getD 0 ≤ d.first_lsn + i →
      ∀ pages, P pages → P (redo_record (d.first_lsn + i) pages r)) :
    P (recover d).pages := by
  refine Scan.records_induct (P := fun s => P s.pages) h ?_
  intro i r hr s hs
  simp only [Scan.record]
  split
  · exact hs
  · next hlt => exact hstep i r hr (by omega) s.pages hs

end Answers

end FluxDB.Engine
