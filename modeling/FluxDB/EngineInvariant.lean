-- The invariant of the engine: what the log and the commit log say of every transaction,
-- that pages hold nothing that the log does not cover, and what a checkpoint has captured
-- by each of its stages.
import Mathlib.Data.List.InsertIdx
import Mathlib.Tactic.Common
import FluxDB.EngineSteps

namespace FluxDB.Engine

open Maps List Function Option TransactionManager

/-! ## The log and what it covers -/

/-- The record with this LSN. -/
def At (log : List LogRecord) (lsn : Nat) (r : LogRecord) : Prop :=
  1 ≤ lsn ∧ log[lsn - 1]? = some r

section Log

variable {log log' : List LogRecord} {n m t q : Nat} {r : LogRecord}

theorem At.mono (h : At log n r) (hp : log <+: log') : At log' n r := by
  obtain ⟨l, rfl⟩ := hp
  have hlt := (List.getElem?_eq_some_iff.mp h.2).1
  exact ⟨h.1, by rw [getElem?_append_left hlt]; exact h.2⟩

theorem At.mem (h : At log n r) : r ∈ log := mem_of_getElem? h.2

theorem At.le_length (h : At log n r) : n ≤ log.length := by
  have := (List.getElem?_eq_some_iff.mp h.2).1
  have := h.1
  omega

theorem At.take (h : At log n r) (hn : n ≤ m) : At (log.take m) n r := by
  have h1 := h.1
  exact ⟨h1, by rw [getElem?_take_of_lt (by omega)]; exact h.2⟩

theorem at_append (log : List LogRecord) (r : LogRecord) : At (log ++ [r]) (log.length + 1) r :=
  ⟨by omega, by simp⟩

theorem At.unique {r' : LogRecord} (h : At log n r) (h' : At log n r') : r = r' :=
  Option.some.inj (h.2.symm.trans h'.2)

theorem at_append_cases {r' : LogRecord} (h : At (log ++ [r]) n r') :
    At log n r' ∨ n = log.length + 1 ∧ r' = r := by
  by_cases hle : n ≤ log.length
  · have h' := h.take hle
    rw [take_append_of_le_length (le_refl _), take_length] at h'
    exact .inl h'
  have hn : n = log.length + 1 := by
    have := h.le_length
    simp only [length_append, length_singleton] at this
    omega
  subst hn
  exact .inr ⟨rfl, h.unique (at_append log r)⟩

theorem mem_of_mem_take (h : r ∈ log.take n) (hn : n ≤ m) : r ∈ log.take m :=
  (List.take_prefix_take_left hn).subset h

/-- The transaction has no record in the log. -/
def Unlogged (log : List LogRecord) (t : Nat) : Prop := ∀ r ∈ log, r.txn_id ≠ t

/-- The stamps of a row version are ids of records of the log, and its creator's record is
the one that inserted it. -/
def RowIn (log : List LogRecord) (v : Row) : Prop :=
  (∃ r, At log v.born r ∧ r.txn_id = v.xmin) ∧ (v.xmax = 0 ∨ ∃ r ∈ log, r.txn_id = v.xmax)

/-- The page id is one of the first three, or the log has a block for it. -/
def LinkIn (log : List LogRecord) (q : Nat) : Prop :=
  q < 3 ∨ ∃ r ∈ log, ∃ b ∈ r.blocks, b.1 = q

def PageIn (log : List LogRecord) (p : TreePage) : Prop :=
  (∀ v ∈ p.rows, RowIn log v) ∧ ∀ q ∈ p.links, LinkIn log q

/-- What a change of the record with this LSN puts on its page is in the log. -/
def ChangeIn (log : List LogRecord) (lsn : Nat) : Change → Prop
  | .insert _ xmin links => (∃ r, At log lsn r ∧ r.txn_id = xmin) ∧ ∀ q ∈ links, LinkIn log q
  | .set_xmax _ xmax => ∃ r ∈ log, r.txn_id = xmax
  | .image rows links => (∀ v ∈ rows, RowIn log v) ∧ ∀ q ∈ links, LinkIn log q
  | .link links => ∀ q ∈ links, LinkIn log q

theorem RowIn.mono {v : Row} (h : RowIn log v) (hp : log <+: log') : RowIn log' v := by
  obtain ⟨⟨r, hr, ht⟩, hx⟩ := h
  refine ⟨⟨r, hr.mono hp, ht⟩, hx.imp id ?_⟩
  rintro ⟨r, hr, ht⟩
  exact ⟨r, hp.subset hr, ht⟩

theorem LinkIn.mono (h : LinkIn log q) (hp : log <+: log') : LinkIn log' q :=
  h.imp id fun ⟨r, hr, hb⟩ => ⟨r, hp.subset hr, hb⟩

variable {pages : Nat → TreePage} {p : TreePage}

theorem PageIn.mono (h : PageIn log p) (hp : log <+: log') : PageIn log' p :=
  ⟨fun v hv => (h.1 v hv).mono hp, fun q hq => (h.2 q hq).mono hp⟩

theorem mem_of_mem_modify {l : List Row} {f : Row → Row} {i : Nat} {v : Row}
    (h : v ∈ l.modify i f) : v ∈ l ∨ ∃ u ∈ l, v = f u := by
  obtain ⟨j, hj⟩ := mem_iff_getElem?.mp h
  rw [getElem?_modify] at hj
  cases hl : l[j]? with
  | none => simp [hl] at hj
  | some u =>
    have hu : u ∈ l := mem_of_getElem? hl
    by_cases hij : i = j
    · simp only [hl, hij, if_true, Option.map_eq_map, Option.map_some, Option.some.injEq] at hj
      exact .inr ⟨u, hu, hj.symm⟩
    simp only [hl, hij, if_false, Option.map_eq_map, Option.map_some, Option.some.injEq] at hj
    exact .inl (hj ▸ hu)

/-- The changed page is covered by the log up to the LSN it is stamped with. -/
theorem PageIn.apply {c : Change} (h : PageIn (log.take p.lsn) p) (hle : p.lsn ≤ n)
    (hc : ChangeIn (log.take n) n c) : PageIn (log.take n) (c.apply n p) := by
  have h' : PageIn (log.take n) p := h.mono (List.take_prefix_take_left hle)
  have hlinks : ∀ links : List Nat, (∀ q ∈ links, LinkIn (log.take n) q) →
      ∀ q ∈ links ++ p.links, LinkIn (log.take n) q := by
    intro links hl
    exact forall_mem_append.mpr ⟨hl, h'.2⟩
  cases c with
  | insert slot xmin links =>
    refine ⟨?_, hlinks links hc.2⟩
    intro v hv
    rcases eq_or_mem_of_mem_insertIdx hv with rfl | hv
    · exact ⟨hc.1, .inl rfl⟩
    · exact h'.1 v hv
  | set_xmax slot xmax =>
    refine ⟨?_, h'.2⟩
    intro v hv
    rcases mem_of_mem_modify hv with hv | ⟨u, hu, rfl⟩
    · exact h'.1 v hv
    · exact ⟨(h'.1 u hu).1, .inr hc⟩
  | image rows links => exact hc
  | link links => exact ⟨h'.1, hlinks links hc⟩

theorem apply_lsn (n : Nat) (p : TreePage) (c : Change) : (c.apply n p).lsn = n := by
  cases c <;> rfl

/-- The page is covered by the log up to its LSN, which is at most `n`, and when it holds row
versions that log has a block for it. -/
def PageAt (log : List LogRecord) (n page_id : Nat) (p : TreePage) : Prop :=
  PageIn (log.take p.lsn) p ∧ p.lsn ≤ n ∧ (p.rows ≠ [] → LinkIn (log.take p.lsn) page_id)

def PagesIn (log : List LogRecord) (n : Nat) (pages : Nat → TreePage) : Prop :=
  ∀ p, PageAt log n p (pages p)

theorem PageAt.mono (h : PageAt log n q p) (hm : n ≤ m) (htake : log'.take p.lsn = log.take p.lsn) :
    PageAt log' m q p := by
  unfold PageAt
  rw [htake]
  exact ⟨h.1, le_trans h.2.1 hm, h.2.2⟩

theorem PagesIn.append (h : PagesIn log n pages) (hn : n ≤ log.length) (l : List LogRecord) :
    PagesIn (log ++ l) n pages :=
  fun p => (h p).mono (le_refl _) (take_append_of_le_length (le_trans (h p).2.1 hn))

theorem PagesIn.take (h : PagesIn log n pages) : PagesIn (log.take n) n pages := by
  refine fun p => (h p).mono (le_refl _) ?_
  rw [take_take, Nat.min_eq_left (h p).2.1]

theorem PagesIn.le (h : PagesIn log n pages) (hm : n ≤ m) : PagesIn log m pages :=
  fun p => (h p).mono hm rfl

theorem PagesIn.change_block {b : Nat × Change} (h : PagesIn log m pages)
    (hle : (pages b.1).lsn ≤ n) (hn : n ≤ m) (hc : ChangeIn (log.take n) n b.2)
    (hb : LinkIn (log.take n) b.1) : PagesIn log m (change_block n pages b) := by
  intro q
  unfold Engine.change_block
  by_cases hq : q = b.1
  · subst hq
    rw [update_self, PageAt, apply_lsn]
    exact ⟨(h b.1).1.apply hle hc, hn, fun _ => hb⟩
  rw [update_of_ne hq]
  exact h q

end Log

/-! ## What holds in every reachable state -/

/-- What the log and the commit log say of a transaction at each stage. -/
def StageGood (w : Engine) (t : Nat) : Stage → Prop
  | .idle =>
    t ≠ 0 → w.base ≤ t → .Commit t ∈ w.log ∨ w.tm.is_aborted t = true ∨ Unlogged w.log t
  | .running wrote =>
    .Commit t ∉ w.log ∧ .Abort t ∉ w.log ∧ w.tm.is_aborted t = false ∧
      (wrote = false → Unlogged w.log t)
  | .committing _ => .Commit t ∈ w.log ∧ .Abort t ∉ w.log ∧ w.tm.is_aborted t = false
  | .aborting => .Commit t ∉ w.log
  | .settled true => .Commit t ∈ w.log ∨ w.tm.is_aborted t = true
  | .settled false => Unlogged w.log t

structure TxnsGood (w : Engine) : Prop where
  active_iff : ∀ t, t ∈ w.tm.active_txns ↔ w.stage t ≠ .idle
  zero_idle : w.stage 0 = .idle
  next_pos : 0 < w.tm.next_txn_id
  stage_lt : ∀ t, w.stage t ≠ .idle → t < w.tm.next_txn_id
  record_lt : ∀ r ∈ w.log, r.txn_id < w.tm.next_txn_id
  commit_ne_zero : .Commit 0 ∉ w.log
  commit_last : w.log.Pairwise fun r r' => ∀ t, r = .Commit t → r'.txn_id ≠ t
  not_both : ∀ t, .Commit t ∈ w.log → .Abort t ∉ w.log
  aborted : ∀ t, w.tm.is_aborted t = true → .Commit t ∉ w.log
  stages : ∀ t, StageGood w t (w.stage t)

/-- Every stamp and every page id on a page is covered by the log up to the page's LSN, and
what is on the disk by its flushed part. -/
structure PagesGood (w : Engine) : Prop where
  mem_in : PagesIn w.log w.log.length w.mem
  disk_in : PagesIn w.log w.flushed w.disk
  flushed_le : w.flushed ≤ w.log.length
  changes : ∀ n r, At w.log n r → ∀ b ∈ r.blocks, ChangeIn (w.log.take n) n b.2
  block_lt : ∀ r ∈ w.log, ∀ b ∈ r.blocks, b.1 < w.next_page_id
  late_in : ∀ s ∈ w.late, s.lsn ≤ w.log.length ∧
    ∀ q ∈ s.page_id :: s.links, LinkIn (w.log.take s.lsn) q
  three_le : 3 ≤ w.num_pages ∧ 3 ≤ w.next_page_id

/-! ### Checkpoints -/

@[simp] def CheckpointStage.num : CheckpointStage → Nat
  | redo => 0
  | next_txn => 1
  | active => 2
  | horizon => 3
  | pinned => 4
  | pages => 5
  | logged => 6
  | synced => 7
  | flushed => 8
  | named => 9

/-- The records below the checkpoint's redo point. -/
def before (log : List LogRecord) (c : CheckpointData) : List LogRecord :=
  log.take (c.redo_point - 1)

section Captured

variable (log : List LogRecord) (c : CheckpointData)

def TxnsBelow : Prop := ∀ r ∈ before log c, r.txn_id < c.next_txn_id

def PagesBelow : Prop := ∀ r ∈ before log c, ∀ b ∈ r.blocks, b.1 < c.next_page_id

/-- A transaction whose Commit record is below the redo point is in none of the lists. -/
def ActiveOpen : Prop := ∀ t ∈ c.active_txns, .Commit t ∉ before log c

def PinnedOpen : Prop := ∀ t ∈ c.pinned_aborted, .Commit t ∉ before log c

/-- A transaction with a record but no Commit record below the redo point is in the active
list or has aborted. -/
def OpenListed (tm : TransactionManager) (base : Nat) : Prop :=
  ∀ t, t ≠ 0 → base ≤ t → ¬ Unlogged (before log c) t → .Commit t ∉ before log c →
    t ∈ c.active_txns ∨ tm.is_aborted t = true

/-- From the horizon on such a transaction is in one of the two lists. -/
def OpenNamed : Prop :=
  ∀ t, t ≠ 0 → c.vacuum_horizon ≤ t → ¬ Unlogged (before log c) t → .Commit t ∉ before log c →
    t ∈ c.active_txns ∨ t ∈ c.pinned_aborted

/-- What is right about a checkpoint record that recovery may start from. -/
structure DataGood : Prop where
  redo_pos : 1 ≤ c.redo_point
  redo_le : c.redo_point ≤ log.length + 1
  txns : TxnsBelow log c
  pages : PagesBelow log c
  active : ActiveOpen log c
  listed : OpenNamed log c
  pinned : PinnedOpen log c

end Captured

/-- What is right about the fields of a checkpoint that has captured the first `n` after its
redo point. -/
structure Captured (w : Engine) (c : CheckpointData) (n : Nat) : Prop where
  txns : 1 ≤ n → TxnsBelow w.log c
  active : 2 ≤ n → ActiveOpen w.log c ∧ OpenListed w.log c w.tm w.base
  horizon : 3 ≤ n → w.base ≤ c.vacuum_horizon ∧ c.vacuum_horizon ≤ w.vacuum_horizon
  pinned : 4 ≤ n → OpenNamed w.log c ∧ PinnedOpen w.log c
  pages : 5 ≤ n → PagesBelow w.log c

/-- What a checkpoint in progress has got right so far. -/
structure FlightGood (w : Engine) (f : Flight) : Prop where
  redo_pos : 1 ≤ f.data.redo_point
  redo_le : f.data.redo_point ≤ w.log.length + 1
  first_le : w.first_lsn ≤ f.data.redo_point
  quiet : f.stage.capturing = true → (∀ t, (w.stage t).guarded = false) ∧
    ∀ t, .Commit t ∈ w.log → .Commit t ∈ before w.log f.data
  captured : Captured w f.data f.stage.num
  logged : 6 ≤ f.stage.num → At w.log f.lsn (.Checkpoint f.data) ∧ f.data.redo_point ≤ f.lsn
  synced : 7 ≤ f.stage.num → f.lsn ≤ w.flushed
  named : 9 ≤ f.stage.num → w.superblock = some f.lsn

/-- The checkpoint that the superblock names is complete, and the remaining segments reach
down to its redo point. -/
def Named (w : Engine) (lsn : Nat) (c : CheckpointData) : Prop :=
  At w.log lsn (.Checkpoint c) ∧ lsn ≤ w.flushed ∧ DataGood w.log c ∧
    w.base ≤ c.vacuum_horizon ∧ c.vacuum_horizon ≤ w.vacuum_horizon ∧
    w.first_lsn ≤ c.redo_point ∧ c.redo_point ≤ lsn

structure CheckpointsGood (w : Engine) : Prop where
  one : w.checkpoints.length ≤ 1
  flights : ∀ f ∈ w.checkpoints, FlightGood w f
  superblock : ∀ lsn, w.superblock = some lsn → ∃ c, Named w lsn c
  fresh : w.superblock = none → w.base = 0 ∧ w.first_lsn = 1
  base_le : w.base ≤ w.vacuum_horizon
  segments_ne : w.segments ≠ []
  segments_pos : ∀ s ∈ w.segments, 1 ≤ s

structure Good (w : Engine) : Prop where
  txns : TxnsGood w
  pages : PagesGood w
  checkpoints : CheckpointsGood w

/-- The condition: a checkpoint starts when no other is in progress, and a late stamp finds
the page with its record's LSN or an older one. -/
def InOrder (w : Engine) : Event → Prop
  | .checkpoint => w.checkpoints = []
  | .late_stamp i => ∀ s ∈ w.late[i]?, (w.mem s.page_id).lsn ≤ s.lsn
  | _ => True

instance (w : Engine) (e : Event) : Decidable (InOrder w e) := by
  cases e <;> dsimp only [InOrder] <;> infer_instance

/-! ## Steps: transactions -/

section Transactions

variable {w w' : Engine} {t u : Nat} {r : LogRecord} {tm : TransactionManager}
  {stage : Nat → Stage} {mem : Nat → TreePage} {late : List LateStamp} {checkpoints : List Flight}

theorem is_aborted_clog_insert (tm : TransactionManager) (t u : Nat) (status : TransactionStatus) :
    (tm.clog_insert t status).is_aborted u =
      if u = t then decide (status = .Aborted) else tm.is_aborted u := by
  unfold is_aborted clog_insert
  rw [lookup_insert_eq_ite]
  split
  · cases status <;> rfl
  · rfl

theorem Unlogged.append (h : Unlogged w.log t) (hr : r.txn_id ≠ t) : Unlogged (w.log ++ [r]) t :=
  forall_mem_concat h hr

/-- A record that is not the transaction's own leaves it as it is. -/
theorem StageGood.append (hr : r.txn_id ≠ t) {p : Stage} (h : StageGood w t p) :
    StageGood { w with log := w.log ++ [r], mem, late, stage, checkpoints } t p := by
  have hc : .Commit t ∈ w.log ++ [r] ↔ .Commit t ∈ w.log := by
    rw [mem_append, mem_singleton, or_iff_left]
    rintro rfl
    exact hr rfl
  have ha : .Abort t ∈ w.log ++ [r] ↔ .Abort t ∈ w.log := by
    rw [mem_append, mem_singleton, or_iff_left]
    rintro rfl
    exact hr rfl
  cases p with
  | idle => exact fun h0 hb => (h h0 hb).imp hc.mpr (.imp_right fun hu => hu.append hr)
  | running wrote =>
    obtain ⟨h1, h2, h3, h4⟩ := h
    exact ⟨hc.not.mpr h1, ha.not.mpr h2, h3, fun h => (h4 h).append hr⟩
  | committing lsn =>
    obtain ⟨h1, h2, h3⟩ := h
    exact ⟨hc.mpr h1, ha.not.mpr h2, h3⟩
  | aborting => exact hc.not.mpr h
  | settled guarded =>
    cases guarded with
    | false => exact Unlogged.append h hr
    | true => exact h.imp_left hc.mpr

/-- A record is appended by a writer that is still running, or by the system. -/
theorem TxnsGood.append (h : TxnsGood w) (hstage : ∀ u, u ≠ r.txn_id ∨ u = 0 → stage u = w.stage u)
    (hown : r.txn_id ≠ 0 → w.stage r.txn_id = .running true ∧ stage r.txn_id ≠ .idle ∧
      StageGood { w with log := w.log ++ [r], mem, late, stage, checkpoints } r.txn_id
        (stage r.txn_id) ∧ (.Commit r.txn_id ∈ w.log ++ [r] → .Abort r.txn_id ∉ w.log ++ [r]))
    (hcommit : r ≠ .Commit 0) :
    TxnsGood { w with log := w.log ++ [r], mem, late, stage, checkpoints } := by
  have hlt : r.txn_id < w.tm.next_txn_id := by
    by_cases h0 : r.txn_id = 0
    · rw [h0]; exact h.next_pos
    · exact h.stage_lt _ (by rw [(hown h0).1]; simp)
  have hrun : r.txn_id ≠ 0 → .Commit r.txn_id ∉ w.log ∧ w.tm.is_aborted r.txn_id = false := by
    intro h0
    have := h.stages r.txn_id
    rw [(hown h0).1] at this
    exact ⟨this.1, this.2.2.1⟩
  have hzero : .Commit 0 ∉ w.log ++ [r] := by
    rw [mem_append, mem_singleton]
    rintro (hc | hc)
    · exact h.commit_ne_zero hc
    · exact hcommit hc.symm
  have hother : ∀ u, u ≠ r.txn_id → .Commit u ∈ w.log ++ [r] → .Commit u ∈ w.log := by
    intro u hu hc
    rw [mem_append, mem_singleton] at hc
    rcases hc with hc | rfl
    · exact hc
    · exact absurd rfl hu
  refine
    { h with
      active_iff := fun u => (h.active_iff u).trans ?_
      zero_idle := (hstage 0 (.inr rfl)).trans h.zero_idle
      stage_lt := fun u hu => ?_
      record_lt := forall_mem_concat h.record_lt hlt
      commit_ne_zero := hzero
      commit_last := ?_
      not_both := fun u hc ha => ?_
      aborted := fun u hu hc => ?_
      stages := fun u => ?_ }
  · dsimp only
    by_cases hu : u = r.txn_id ∧ u ≠ 0
    · obtain ⟨rfl, h0⟩ := hu
      simp [(hown h0).1, (hown h0).2.1]
    · rw [hstage u (by tauto)]
  · dsimp only at hu
    by_cases he : u = r.txn_id
    · rw [he]; exact hlt
    rw [hstage u (.inl he)] at hu
    exact h.stage_lt u hu
  · dsimp only
    rw [pairwise_append]
    refine ⟨h.commit_last, pairwise_singleton _ _, ?_⟩
    intro a ha b hb u hu hbu
    rw [mem_singleton.mp hb] at hbu
    subst hu hbu
    by_cases h0 : r.txn_id = 0
    · exact h.commit_ne_zero (h0 ▸ ha)
    · exact (hrun h0).1 ha
  · by_cases hu : u = 0
    · exact hzero (hu ▸ hc)
    by_cases he : u = r.txn_id
    · subst he
      exact (hown hu).2.2.2 hc ha
    refine h.not_both u (hother u he hc) ?_
    rw [mem_append, mem_singleton] at ha
    rcases ha with ha | rfl
    · exact ha
    · exact absurd rfl he
  · by_cases he : u = r.txn_id
    · by_cases h0 : u = 0
      · exact hzero (h0 ▸ hc)
      subst he
      exact absurd ((hrun h0).2.symm.trans hu) (by simp)
    · exact h.aborted u hu (hother u he hc)
  dsimp only
  by_cases he : u = r.txn_id
  · subst he
    by_cases h0 : r.txn_id = 0
    · rw [hstage _ (.inr h0), h0, h.zero_idle]
      exact fun h => absurd rfl h
    · exact (hown h0).2.2.1
  rw [hstage u (.inl he)]
  exact (h.stages u).append (Ne.symm he)

theorem StageGood.congr {p : Stage} (hab : tm.is_aborted t = w.tm.is_aborted t)
    (h : StageGood w t p) : StageGood { w with tm, stage } t p := by
  cases p with
  | settled guarded => cases guarded <;> simpa only [StageGood, hab] using h
  | idle | running | committing | aborting => simpa only [StageGood, hab] using h

/-- A step of one transaction that appends no record. -/
theorem TxnsGood.move {p : Stage} (h : TxnsGood w) (h0 : t ≠ 0)
    (hnext : w.tm.next_txn_id ≤ tm.next_txn_id) (hlt : t < tm.next_txn_id)
    (hactive : ∀ u, u ∈ tm.active_txns ↔ update w.stage t p u ≠ .idle)
    (hother : ∀ u, u ≠ t → tm.is_aborted u = w.tm.is_aborted u)
    (hown : StageGood { w with tm, stage := update w.stage t p } t p)
    (haborted : tm.is_aborted t = true → .Commit t ∉ w.log) :
    TxnsGood { w with tm, stage := update w.stage t p } := by
  refine
    { h with
      active_iff := hactive
      zero_idle := (update_of_ne h0.symm _ _).trans h.zero_idle
      next_pos := lt_of_lt_of_le h.next_pos hnext
      stage_lt := fun u hu => ?_
      record_lt := fun r hr => lt_of_lt_of_le (h.record_lt r hr) hnext
      aborted := fun u hu => ?_
      stages := fun u => ?_ }
  · by_cases he : u = t
    · exact he ▸ hlt
    dsimp only at hu
    rw [update_of_ne he] at hu
    exact lt_of_lt_of_le (h.stage_lt u hu) hnext
  · by_cases he : u = t
    · subst he
      exact haborted hu
    · exact h.aborted u ((hother u he).symm.trans hu)
  dsimp only
  by_cases he : u = t
  · subst he
    rw [update_self]
    exact hown
  rw [update_of_ne he]
  exact (h.stages u).congr (hother u he)

theorem TxnsGood.ne_zero (h : TxnsGood w) (ht : w.stage t ≠ .idle) : t ≠ 0 := by
  rintro rfl
  exact ht h.zero_idle

/-- The commit log has a status for a transaction that has not left the active set. -/
abbrev marked (w : Engine) (t : Nat) (status : TransactionStatus) (guarded : Bool) : Engine :=
  { w with
    tm := w.tm.clog_insert t status
    stage := update w.stage t (.settled guarded) }

section

variable (h : TxnsGood w)

include h

theorem TxnsGood.mark {guarded : Bool} {status : TransactionStatus} (ht : w.stage t ≠ .idle)
    (hgood : StageGood (marked w t status guarded) t (.settled guarded))
    (hab : status = .Aborted → .Commit t ∉ w.log) : TxnsGood (marked w t status guarded) := by
  refine h.move (h.ne_zero ht) le_rfl (h.stage_lt t ht) (fun u => ?_) (fun u hu => ?_) hgood
    fun hu => ?_
  · refine (h.active_iff u).trans ?_
    by_cases hu : u = t <;> simp [hu, ht]
  · rw [is_aborted_clog_insert, if_neg hu]
  rw [is_aborted_clog_insert, if_pos rfl] at hu
  exact hab (by simpa using hu)

theorem TxnsGood.settle {guarded : Bool} (ht : w.stage t = .settled guarded) :
    TxnsGood { w with tm := w.tm.active_remove t, stage := update w.stage t .idle } := by
  have hne : w.stage t ≠ .idle := by simp [ht]
  refine h.move (h.ne_zero hne) le_rfl (h.stage_lt t hne) (fun u => ?_) (fun _ _ => rfl) ?_
    (h.aborted t)
  · rw [active_remove, AList.mem_erase, h.active_iff]
    by_cases hu : u = t <;> simp [hu]
  have hs := h.stages t
  rw [ht] at hs
  intro _ _
  cases guarded with
  | true => exact hs.imp_right .inl
  | false => exact .inr (.inr hs)

theorem TxnsGood.note_write {wrote : Bool} (ht : w.stage t = .running wrote) :
    TxnsGood { w with stage := update w.stage t (.running true) } := by
  have hne : w.stage t ≠ .idle := by simp [ht]
  refine h.move (h.ne_zero hne) le_rfl (h.stage_lt t hne) (fun u => ?_) (fun _ _ => rfl) ?_
    (h.aborted t)
  · refine (h.active_iff u).trans ?_
    by_cases hu : u = t <;> simp [hu, hne]
  have hs := h.stages t
  rw [ht] at hs
  exact ⟨hs.1, hs.2.1, hs.2.2.1, fun h => absurd h (by simp)⟩

theorem TxnsGood.begin : TxnsGood { w with
      tm := w.tm.begin.2
      stage := update w.stage w.tm.next_txn_id (.running false) } := by
  have hpos := h.next_pos
  have hab : ∀ u, w.tm.begin.2.is_aborted u =
      if u = w.tm.next_txn_id then false else w.tm.is_aborted u := fun u =>
    is_aborted_clog_insert w.tm.begin_active.2 w.tm.next_txn_id u .Active
  have hun : Unlogged w.log w.tm.next_txn_id := fun r hr => (h.record_lt r hr).ne
  refine h.move hpos.ne' (Nat.le_succ _) (Nat.lt_succ_self _) (fun u => ?_) (fun u hu => ?_) ?_ ?_
  · have hact : w.tm.begin.2.active_txns = w.tm.active_txns.insert w.tm.next_txn_id
        (minOr w.tm.active_txns.keys w.tm.next_txn_id) := rfl
    rw [hact, AList.mem_insert, h.active_iff]
    by_cases hu : u = w.tm.next_txn_id <;> simp [hu]
  · rw [hab, if_neg hu]
  · exact ⟨fun hc => hun _ hc rfl, fun ha => hun _ ha rfl, (hab _).trans (if_pos rfl), fun _ => hun⟩
  rw [hab, if_pos rfl]
  exact fun h => absurd h (by simp)

theorem TxnsGood.append_system (hr : r.txn_id = 0) (hcommit : r ≠ .Commit 0) :
    TxnsGood { w with log := w.log ++ [r], mem, late, checkpoints } :=
  h.append (fun _ _ => rfl) (fun h0 => absurd hr h0) hcommit

theorem txnsGood_write (hr : r.txn_id = t) (hc : r ≠ .Commit t) (ha : r ≠ .Abort t)
    (hw : w.write t r = some w') : TxnsGood w' := by
  obtain ⟨hrun, ⟨⟩⟩ := ite_none_right_eq_some.mp hw
  subst hr
  have hne : r.txn_id ≠ 0 := h.ne_zero (by simp [hrun])
  have hs := h.stages r.txn_id
  rw [hrun] at hs
  have hcommit : .Commit r.txn_id ∉ w.log ++ [r] := by
    rw [mem_append, mem_singleton]
    rintro (h | h)
    · exact hs.1 h
    · exact hc h.symm
  refine h.append (r := r) (fun _ _ => rfl) (fun _ => ?_) ?_
  · refine ⟨hrun, by simp [hrun], ?_, fun h => absurd h hcommit⟩
    rw [hrun]
    refine ⟨hcommit, ?_, hs.2.2.1, fun h => absurd h (by simp)⟩
    dsimp only
    rw [mem_append, mem_singleton]
    rintro (h | h)
    · exact hs.2.1 h
    · exact ha h.symm
  rintro rfl
  exact hne rfl

theorem txnsGood_log_commit (hw : w.step (.log_commit t) = some w') : TxnsGood w' := by
  obtain ⟨hcond, ⟨⟩⟩ := ite_none_right_eq_some.mp hw
  have hs := h.stages t
  rw [hcond.1] at hs
  have hne : t ≠ 0 := h.ne_zero (by simp [hcond.1])
  have habort : .Abort t ∉ w.log ++ [.Commit t] := by simp [hs.2.1]
  refine h.append (r := .Commit t) ?_ (fun _ => ?_) ?_
  · rintro u (hu | rfl)
    · exact update_of_ne hu _ _
    · exact update_of_ne hne.symm _ _
  · refine ⟨hcond.1, by simp [LogRecord.txn_id], ?_, fun _ => habort⟩
    simp only [LogRecord.txn_id, update_self]
    exact ⟨by simp, habort, hs.2.2.1⟩
  rintro ⟨rfl⟩
  exact hne rfl

theorem txnsGood_log_abort (hw : w.step (.log_abort t) = some w') : TxnsGood w' := by
  obtain ⟨hcond, ⟨⟩⟩ := ite_none_right_eq_some.mp hw
  have hs := h.stages t
  rw [hcond.1] at hs
  have hne : t ≠ 0 := h.ne_zero (by simp [hcond.1])
  have hcommit : .Commit t ∉ w.log ++ [.Abort t] := by simp [hs.1]
  refine h.append (r := .Abort t) ?_ (fun _ => ?_) (by simp)
  · rintro u (hu | rfl)
    · exact update_of_ne hu _ _
    · exact update_of_ne hne.symm _ _
  refine ⟨hcond.1, by simp [LogRecord.txn_id], ?_, fun h => absurd h hcommit⟩
  simp only [LogRecord.txn_id, update_self]
  exact hcommit

end

end Transactions

/-! ## Steps: pages -/

section Pages

variable {w w' : Engine} {r : LogRecord}

theorem knows_iff (w : Engine) (q : Nat) : w.knows q = true ↔ LinkIn w.log q := by
  simp [knows, LinkIn]

theorem prefix_append (w : Engine) (r : LogRecord) : w.log <+: w.log ++ [r] :=
  List.prefix_append _ _

theorem pages_log_blocks (h : PagesGood w) {blocks : List (Nat × Change)}
    (hsub : ∀ b ∈ blocks, b ∈ r.blocks)
    (hb : ∀ b ∈ blocks, ChangeIn (w.log ++ [r]) (w.log.length + 1) b.2) :
    PagesIn (w.log ++ [r]) (w.log.length + 1) (w.log_blocks r blocks).mem := by
  have htake : (w.log ++ [r]).take (w.log.length + 1) = w.log ++ [r] := by
    rw [take_of_length_le (by simp)]
  have hstart : PagesIn (w.log ++ [r]) (w.log.length + 1) w.mem :=
    (h.mem_in.append (le_refl _) [r]).le (Nat.le_succ _)
  refine foldlRecOn blocks (change_block _) hstart fun mem hmem b hin => ?_
  apply hmem.change_block (hmem b.1).2.1 (le_refl _)
  · rw [htake]
    exact hb b hin
  rw [htake]
  exact .inr ⟨r, mem_append_right _ (mem_singleton_self _), b, hsub b hin, rfl⟩

/-- A record is appended and some of its blocks are changed; the others are to be stamped
late. -/
theorem PagesGood.append (h : PagesGood w) {blocks : List (Nat × Change)} {stage : Nat → Stage}
    {late : List LateStamp} {checkpoints : List Flight} (hsub : ∀ b ∈ blocks, b ∈ r.blocks)
    (hr : ∀ b ∈ r.blocks, ChangeIn (w.log ++ [r]) (w.log.length + 1) b.2 ∧ b.1 < w.next_page_id)
    (hlate : ∀ s ∈ late, s ∈ w.late ∨
      s.lsn = w.log.length + 1 ∧ ∀ q ∈ s.page_id :: s.links, LinkIn (w.log ++ [r]) q) :
    PagesGood { w.log_blocks r blocks with stage, late, checkpoints } := by
  have htake : (w.log ++ [r]).take (w.log.length + 1) = w.log ++ [r] := by
    rw [take_of_length_le (by simp)]
  have hlen : (w.log ++ [r]).length = w.log.length + 1 := length_append
  refine
    { mem_in := ?_
      disk_in := h.disk_in.append h.flushed_le [r]
      flushed_le := h.flushed_le.trans (hlen ▸ Nat.le_succ _)
      changes := fun n r' hat b hb => ?_
      block_lt := forall_mem_concat h.block_lt fun b hb => (hr b hb).2
      late_in := fun s hs => ?_
      three_le := h.three_le }
  · dsimp only [log_blocks]
    rw [hlen]
    exact pages_log_blocks h hsub fun b hb => (hr b (hsub b hb)).1
  · dsimp only [log_blocks] at hat ⊢
    rcases at_append_cases hat with hold | ⟨rfl, rfl⟩
    · rw [take_append_of_le_length hold.le_length]
      exact h.changes n r' hold b hb
    rw [htake]
    exact (hr b hb).1
  dsimp only [log_blocks]
  rw [hlen]
  rcases hlate s hs with hs | ⟨hlsn, hlinks⟩
  · obtain ⟨h1, h2⟩ := h.late_in s hs
    rw [take_append_of_le_length h1]
    exact ⟨Nat.le_succ_of_le h1, h2⟩
  rw [hlsn, htake]
  exact ⟨le_refl _, hlinks⟩

/-- A change that the system may log is covered by the log with its record. -/
theorem fits_in (h : PagesGood w) {pages : List Nat} {b : Nat × Change} {lsn : Nat}
    (hf : w.fits pages b = true) (hp : ∀ q ∈ pages, LinkIn (w.log ++ [r]) q) :
    ChangeIn (w.log ++ [r]) lsn b.2 ∧ b.1 < w.next_page_id := by
  have hlinks : ∀ links : List Nat, (links.all fun q => decide (q ∈ pages) || w.knows q) = true →
      ∀ q ∈ links, LinkIn (w.log ++ [r]) q := by
    intro links hl q hq
    have := all_eq_true.mp hl q hq
    rw [Bool.or_eq_true, decide_eq_true_iff, knows_iff] at this
    exact this.elim (hp q) (fun h => h.mono (prefix_append w r))
  obtain ⟨page_id, c⟩ := b
  cases c with
  | insert slot xmin links => cases hf
  | set_xmax slot xmax => cases hf
  | image rows links =>
    simp only [fits, Bool.and_eq_true, decide_eq_true_eq] at hf
    refine ⟨⟨?_, hlinks links hf.2⟩, hf.1.1⟩
    intro v hv
    have := all_eq_true.mp hf.1.2 v hv
    obtain ⟨q, _, hq⟩ := any_eq_true.mp this
    have hrow := (h.mem_in q).1.1 v (by simpa using hq)
    exact hrow.mono ((List.take_prefix _ _).trans (prefix_append w r))
  | link links =>
    simp only [fits, Bool.and_eq_true, decide_eq_true_eq] at hf
    exact ⟨hlinks links hf.2, hf.1⟩

end Pages

end FluxDB.Engine
