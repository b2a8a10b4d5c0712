-- Deletes that were undone: a version whose deleter aborted is still there after a
-- checkpoint and a restart, as long as the checkpoint finds no stamp of an aborted
-- deleter below the vacuum horizon, where it forgets who aborted.
import FluxDB.RecoveredStatus

namespace FluxDB.Engine

open Maps List Function Option

/-! ## The horizon -/

/-- Every transaction that is not over is at or above the vacuum horizon, and so is every
one to come. The same holds of the horizon that a sweep has captured. -/
structure HorizonGood (w : Engine) : Prop where
  live : ∀ t, w.stage t ≠ .idle → w.vacuum_horizon ≤ t
  next : w.vacuum_horizon ≤ w.tm.next_txn_id
  xmin_le : ∀ t x, w.tm.active_txns.lookup t = some x → x ≤ t
  readers_le : ∀ t x, w.tm.readers.lookup t = some x → x ≤ w.tm.next_txn_id
  sweeps : ∀ g ∈ w.sweeps, g ≤ w.tm.next_txn_id ∧ ∀ t, w.stage t ≠ .idle → g ≤ t

/-- Nobody writes while a checkpoint is in progress, and a sweep does not complete then, so that
the checkpoint flushes every page. -/
def Alone (w : Engine) : Event → Prop
  | .insert .. | .set_xmax .. | .overflow_write .. | .system .. | .late_stamp _ | .log_commit _
  | .log_abort _ | .sweep_finish _ => w.checkpoints = []
  | .flush_some_pages _ => False
  | _ => True

/-- The row version carries as `xmax` a transaction below the vacuum horizon that has not
committed. -/
def UndoneStamp (w : Engine) (v : Row) : Prop :=
  v.xmax ≠ 0 ∧ v.xmax < w.vacuum_horizon ∧ .Commit v.xmax ∉ w.log

instance (w : Engine) (v : Row) : Decidable (w.UndoneStamp v) :=
  inferInstanceAs (Decidable (_ ∧ _ ∧ _))

def NoUndoneStamp (w : Engine) : Prop :=
  ∀ p < w.next_page_id, ∀ v ∈ (w.mem p).rows, ¬ w.UndoneStamp v

/-- The condition holds when a checkpoint captures the horizon. -/
def NoUndoneDelete (w : Engine) : Event → Prop
  | .checkpoint_next i => ∀ f ∈ w.checkpoints[i]?, f.stage = .active → w.NoUndoneStamp
  | _ => True

def CleanCheckpoints (w : Engine) (e : Event) : Prop :=
  InOrder w e ∧ Alone w e ∧ NoUndoneDelete w e

instance (w : Engine) (e : Event) : Decidable (Alone w e) := by
  induction e using Event.casesOn <;> dsimp only [Alone] <;> infer_instance

instance (w : Engine) : Decidable w.NoUndoneStamp :=
  inferInstanceAs (Decidable (∀ p < w.next_page_id, ∀ v ∈ (w.mem p).rows, ¬ w.UndoneStamp v))

instance (w : Engine) (e : Event) : Decidable (NoUndoneDelete w e) := by
  induction e using Event.casesOn <;> dsimp only [NoUndoneDelete] <;> infer_instance

instance (w : Engine) (e : Event) : Decidable (CleanCheckpoints w e) :=
  inferInstanceAs (Decidable (_ ∧ _ ∧ _))

section Horizon

variable {w w' : Engine} {e : Event} {t : Nat}

theorem HorizonGood.global_xmin_le (h : HorizonGood w) (ht : TxnsGood w) :
    w.tm.global_xmin ≤ w.tm.next_txn_id ∧ ∀ t, w.stage t ≠ .idle → w.tm.global_xmin ≤ t := by
  refine ⟨global_xmin_le_next (fun t x hl => ?_) h.readers_le, fun t hst => ?_⟩
  · have hst := (ht.active_iff t).mp (mem_of_lookup_eq_some hl)
    exact (h.xmin_le t x hl).trans (ht.stage_lt t hst).le
  obtain ⟨x, hl⟩ := exists_lookup_of_mem ((ht.active_iff t).mpr hst)
  exact (global_xmin_le_of_active hl).trans (h.xmin_le t x hl)

/-- A step that starts no transaction and moves no horizon. -/
theorem HorizonGood.frame {tm : TransactionManager} {stage : Nat → Stage} {log : List LogRecord}
    {mem : Nat → TreePage} (h : HorizonGood w) (hnext : tm.next_txn_id = w.tm.next_txn_id)
    (hactive : ∀ t x, tm.active_txns.lookup t = some x → w.tm.active_txns.lookup t = some x)
    (hreaders : tm.readers = w.tm.readers) (hstage : ∀ t, stage t ≠ .idle → w.stage t ≠ .idle) :
    HorizonGood { w with tm, stage, log, mem } where
  live t ht := h.live t (hstage t ht)
  next := h.next.trans_eq hnext.symm
  xmin_le t x hx := h.xmin_le t x (hactive t x hx)
  readers_le t x hx := (h.readers_le t x (hreaders ▸ hx)).trans_eq hnext.symm
  sweeps g hg := by
    obtain ⟨h1, h2⟩ := h.sweeps g hg
    exact ⟨h1.trans_eq hnext.symm, fun t ht => h2 t (hstage t ht)⟩

theorem horizonGood_begin (h : HorizonGood w) (ht : TxnsGood w) (hw : w.step .begin = some w') :
    HorizonGood w' := by
  cases hw
  have hidle : ∀ u, update w.stage w.tm.next_txn_id (.running false) u ≠ .idle →
      u = w.tm.next_txn_id ∨ w.stage u ≠ .idle := by
    intro u hu
    by_cases he : u = w.tm.next_txn_id
    · exact .inl he
    rw [update_of_ne he] at hu
    exact .inr hu
  refine
    { live := fun u hu => ?_
      next := Nat.le_succ_of_le h.next
      xmin_le := fun u x hx => ?_
      readers_le := fun u x hx => Nat.le_succ_of_le (h.readers_le u x hx)
      sweeps := fun g hg => ⟨Nat.le_succ_of_le (h.sweeps g hg).1, fun u hu => ?_⟩ }
  · rcases hidle u hu with rfl | hu
    · exact h.next
    · exact h.live u hu
  · change (w.tm.active_txns.insert w.tm.next_txn_id
      (minOr w.tm.active_txns.keys w.tm.next_txn_id)).lookup u = some x at hx
    rw [lookup_insert_eq_ite] at hx
    split at hx
    · next he =>
      cases hx
      subst he
      apply minOr_le_default
      intro t ht'
      exact (ht.stage_lt t ((ht.active_iff t).mp ht')).le
    · exact h.xmin_le u x hx
  rcases hidle u hu with rfl | hu
  · exact (h.sweeps g hg).1
  · exact (h.sweeps g hg).2 u hu

theorem ne_idle_of_update {stage : Nat → Stage} {p : Stage} (ht : stage t ≠ .idle) (u : Nat)
    (hu : update stage t p u ≠ .idle) : stage u ≠ .idle := by
  by_cases he : u = t
  · rw [he]; exact ht
  · rwa [update_of_ne he] at hu

theorem horizonGood_reopened {survived : Nat}
    (hnext : (w.reopened survived).vacuum_horizon ≤ (w.reopened survived).tm.next_txn_id)
    (hreaders : (w.reopened survived).tm.readers = ∅) : HorizonGood (w.reopened survived) where
  live t ht := absurd rfl ht
  next := hnext
  xmin_le t x hx := by
    rw [show (w.reopened survived).tm.active_txns = ∅ from recover_active_txns _] at hx
    simp at hx
  readers_le t x hx := by
    rw [hreaders] at hx
    simp at hx
  sweeps := by simp [reopened]

/-- The horizon stays below the transactions that are not over. -/
theorem horizonGood_step (h : HorizonGood w) (hg : Good w) (he : ∀ n, e ≠ .crash n)
    (hw : w.step e = some w') : HorizonGood w' := by
  cases e with
  | begin => exact horizonGood_begin h hg.txns hw
  | read_snapshot =>
    cases hw
    refine { h with readers_le := fun u x hx => ?_ }
    change (w.tm.readers.insert w.tm.next_reader_token
      (minOr w.tm.active_txns.keys w.tm.next_txn_id)).lookup u = some x at hx
    rw [lookup_insert_eq_ite] at hx
    split at hx
    · cases hx
      apply minOr_le_default
      intro t ht
      exact (hg.txns.stage_lt t ((hg.txns.active_iff t).mp ht)).le
    · exact h.readers_le u x hx
  | end_read token =>
    cases hw
    exact { h with readers_le := fun u x hx => h.readers_le u x (lookup_of_lookup_erase hx) }
  | note_write t | log_commit t | mark_committed t | log_abort t | mark_aborted t =>
    -- the transaction was not over before
    simp only [step] at hw
    repeat' split at hw
    all_goals cases hw
    all_goals
      exact h.frame rfl (fun _ _ h => h) rfl (ne_idle_of_update (by simp [*]))
  | settle t =>
    simp only [step] at hw
    split at hw <;> cases hw
    all_goals
      exact h.frame rfl (fun _ _ h => lookup_of_lookup_erase h) rfl
        (ne_idle_of_update (by simp [*]))
  | sweep_start =>
    cases hw
    refine { h with sweeps := fun g hgm => ?_ }
    rcases mem_cons.mp hgm with rfl | hgm
    · exact h.global_xmin_le hg.txns
    · exact h.sweeps g hgm
  | sweep_finish i =>
    simp only [step] at hw
    split at hw
    · next g hi =>
      cases hw
      obtain ⟨h1, h2⟩ := h.sweeps g (mem_of_getElem? hi)
      exact { h with live := fun t ht => max_le (h.live t ht) (h2 t ht), next := max_le h.next h1 }
    · cases hw
  | insert | set_xmax | overflow_write | system | late_stamp | alloc | flush | write_page
  | checkpoint | flush_all_pages | flush_some_pages | checkpoint_next =>
    -- the log, the pages and the checkpoints leave the transactions alone
    simp only [step, write, system, Engine.advance] at hw
    repeat' split at hw
    all_goals cases hw
    all_goals exact { h with }
  | crash survived => exact absurd rfl (he survived)

end Horizon

/-! ## Clean pages -/

/-- A deleter below the horizon has its Commit record among these. -/
def RowClean (committed : List LogRecord) (horizon : Nat) (v : Row) : Prop :=
  v.xmax ≠ 0 → v.xmax < horizon → .Commit v.xmax ∈ committed

def PagesClean (committed : List LogRecord) (horizon : Nat) (pages : Nat → TreePage) : Prop :=
  ∀ p, ∀ v ∈ (pages p).rows, RowClean committed horizon v

def ChangeClean (committed : List LogRecord) (horizon : Nat) : Change → Prop
  | .insert .. | .link _ => True
  | .set_xmax _ xmax => xmax ≠ 0 → xmax < horizon → .Commit xmax ∈ committed
  | .image rows _ => ∀ v ∈ rows, RowClean committed horizon v

section Clean

variable {committed : List LogRecord} {horizon n : Nat} {pages : Nat → TreePage}

section

variable (h : PagesClean committed horizon pages)

include h

theorem PagesClean.change_block {b : Nat × Change} (hb : ChangeClean committed horizon b.2) :
    PagesClean committed horizon (change_block n pages b) := by
  intro q v hv
  unfold Engine.change_block at hv
  by_cases hq : q = b.1
  · subst hq
    rw [update_self] at hv
    obtain ⟨page_id, c⟩ := b
    cases c with
    | insert slot xmin links =>
      rcases eq_or_mem_of_mem_insertIdx hv with rfl | hv
      · exact fun h0 => absurd rfl h0
      · exact h page_id v hv
    | set_xmax slot xmax =>
      rcases mem_of_mem_modify hv with hv | ⟨u, _, rfl⟩
      · exact h page_id v hv
      · exact hb
    | image rows links => exact hb v hv
    | link links => exact h page_id v hv
  rw [update_of_ne hq] at hv
  exact h q v hv

theorem PagesClean.change_blocks {blocks : List (Nat × Change)}
    (hb : ∀ b ∈ blocks, ChangeClean committed horizon b.2) :
    PagesClean committed horizon (blocks.foldl (Engine.change_block n) pages) := by
  refine foldlRecOn blocks (Engine.change_block n) h fun pages h b hmem => ?_
  exact h.change_block (hb b hmem)

theorem PagesClean.redo_record {r : LogRecord}
    (hb : ∀ b ∈ r.blocks, ChangeClean committed horizon b.2) :
    PagesClean committed horizon (redo_record n pages r) := by
  refine foldlRecOn r.blocks (redo_block n) h fun pages h b hmem => ?_
  unfold redo_block
  split
  · exact h
  · exact h.change_block (hb b hmem)

end

end Clean

/-- The pages and the records from the redo point on are clean for the checkpoint. -/
structure NamedClean (w : Engine) (c : CheckpointData) : Prop where
  horizon_le : c.vacuum_horizon ≤ c.next_txn_id
  mem : PagesClean (before w.log c) c.vacuum_horizon w.mem
  disk : PagesClean (before w.log c) c.vacuum_horizon w.disk
  changes : ∀ n r, At w.log n r → c.redo_point ≤ n →
    ∀ b ∈ r.blocks, ChangeClean (before w.log c) c.vacuum_horizon b.2

/-- The same of a checkpoint in progress, as far as it has come. -/
structure FlightClean (w : Engine) (f : Flight) : Prop where
  quiet : ∀ n r, At w.log n r → f.data.redo_point ≤ n → r.blocks = []
  next : 1 ≤ f.stage.num → w.vacuum_horizon ≤ f.data.next_txn_id
  horizon : 3 ≤ f.stage.num → f.data.vacuum_horizon ≤ f.data.next_txn_id
  mem : 3 ≤ f.stage.num → PagesClean (before w.log f.data) f.data.vacuum_horizon w.mem
  disk : 8 ≤ f.stage.num → PagesClean (before w.log f.data) f.data.vacuum_horizon w.disk

structure CleanGood (w : Engine) : Prop where
  named : ∀ lsn c, w.superblock = some lsn → At w.log lsn (.Checkpoint c) → NamedClean w c
  flights : ∀ f ∈ w.checkpoints, FlightClean w f

section CleanSteps

variable {w w' : Engine} {c : CheckpointData} {f : Flight} {r : LogRecord} {t : Nat}

variable {i lsn : Nat}

/-- The record of a superblock is not the one that is being appended. -/
theorem at_of_append (hg : Good w) (hl : w.superblock = some lsn)
    (hat : At (w.log ++ [r]) lsn (.Checkpoint c)) : At w.log lsn (.Checkpoint c) := by
  obtain ⟨c', hc⟩ := hg.checkpoints.superblock lsn hl
  obtain rfl : c' = c := by
    simpa using (hc.1.mono (prefix_append w r)).unique hat
  exact hc.1

theorem redo_le_of_named (hg : Good w) (hl : w.superblock = some lsn)
    (hat : At w.log lsn (.Checkpoint c)) :
    c.redo_point ≤ w.log.length + 1 ∧ c.vacuum_horizon ≤ w.vacuum_horizon := by
  obtain ⟨c', hc⟩ := hg.checkpoints.superblock lsn hl
  obtain rfl : c' = c := by
    simpa using hc.1.unique hat
  exact ⟨hc.2.2.1.redo_le, hc.2.2.2.2.1⟩

/-- A record is appended and some of its blocks are changed, with no checkpoint in progress. -/
theorem CleanGood.append {blocks : List (Nat × Change)} {stage : Nat → Stage}
    {late : List LateStamp} (h : CleanGood w) (hg : Good w) (hnone : w.checkpoints = [])
    (hsub : ∀ b ∈ blocks, b ∈ r.blocks)
    (hclean : ∀ committed horizon, horizon ≤ w.vacuum_horizon → PagesClean committed horizon w.mem →
      ∀ b ∈ r.blocks, ChangeClean committed horizon b.2) :
    CleanGood { w.log_blocks r blocks with stage, late } := by
  refine ⟨fun lsn c hl hat => ?_, fun f hf => ?_⟩
  · have hold := at_of_append hg hl hat
    obtain ⟨hredo, hhor⟩ := redo_le_of_named hg hl hold
    obtain ⟨h0, h1, h2, h3⟩ := h.named lsn c hl hold
    have hbefore : before (w.log ++ [r]) c = before w.log c := before_append [r] hredo
    have hr := hclean _ _ hhor h1
    refine ⟨h0, ?_, hbefore.symm ▸ h2, fun n r' hat' hn b hb => ?_⟩
    · exact hbefore.symm ▸ h1.change_blocks (fun b hb => hr b (hsub b hb))
    dsimp only [log_blocks] at hat' ⊢
    rw [hbefore]
    rcases at_append_cases hat' with hold' | ⟨rfl, rfl⟩
    · exact h3 n r' hold' hn b hb
    · exact hr b hb
  rw [show ({ w.log_blocks r blocks with stage, late } : Engine).checkpoints = [] from hnone] at hf
  cases hf

theorem clean_write (h : CleanGood w) (hg : Good w) (hnone : w.checkpoints = [])
    (hw : w.write t r = some w')
    (hclean : ∀ committed horizon, horizon ≤ w.vacuum_horizon → w.stage t = .running true →
      ∀ b ∈ r.blocks, ChangeClean committed horizon b.2) : CleanGood w' := by
  obtain ⟨hrun, ⟨⟩⟩ := ite_none_right_eq_some.mp hw
  exact h.append hg hnone (fun _ hb => hb)
    (fun committed horizon hle _ => hclean committed horizon hle hrun)

/-- A running transaction is not below the horizon. -/
theorem clean_set_xmax {page_id slot : Nat} (h : CleanGood w) (hg : Good w) (hh : HorizonGood w)
    (hnone : w.checkpoints = []) (hw : w.step (.set_xmax t page_id slot) = some w') :
    CleanGood w' := by
  simp only [step] at hw
  split at hw
  · refine clean_write h hg hnone hw ?_
    intro committed horizon hle hrun
    simp only [LogRecord.blocks, mem_singleton, forall_eq]
    intro _ hlt
    have := hh.live t (by simp [hrun])
    omega
  · cases hw

theorem fits_clean {pages : List Nat} {b : Nat × Change} {committed : List LogRecord}
    {horizon : Nat} (hf : w.fits pages b = true) (hm : PagesClean committed horizon w.mem) :
    ChangeClean committed horizon b.2 := by
  obtain ⟨page_id, c⟩ := b
  cases c with
  | insert slot xmin links => trivial
  | set_xmax slot xmax => cases hf
  | image rows links =>
    simp only [fits, Bool.and_eq_true, decide_eq_true_eq] at hf
    intro v hv
    obtain ⟨q, _, hq⟩ := any_eq_true.mp (all_eq_true.mp hf.1.2 v hv)
    exact hm q v (by simpa using hq)
  | link links => trivial

section

variable (h : CleanGood w)

include h

theorem clean_system {blocks : List (Nat × Change)} {late : List (Nat × List Nat)} (hg : Good w)
    (hnone : w.checkpoints = []) (hw : w.step (.system blocks late) = some w') : CleanGood w' := by
  simp only [step, system] at hw
  split at hw
  · next hfits =>
    cases hw
    exact h.append hg hnone (fun b hb => mem_append_left _ hb)
      (fun _ _ _ hm b hb => fits_clean (all_eq_true.mp hfits b hb) hm)
  · cases hw

theorem clean_status_record {stage : Nat → Stage} (hg : Good w) (hnone : w.checkpoints = [])
    (hr : r.blocks = []) : CleanGood { w.log_blocks r [] with stage } :=
  h.append hg hnone (by simp) (by simp [hr])

theorem clean_late_stamp (hnone : w.checkpoints = []) (hw : w.step (.late_stamp i) = some w') :
    CleanGood w' := by
  simp only [step] at hw
  split at hw <;> cases hw
  refine ⟨fun lsn c hl hat => ?_, by simp [late_stamp, hnone]⟩
  have hc := h.named lsn c hl hat
  exact { hc with mem := hc.mem.change_block trivial }

theorem clean_write_page {page_id : Nat} (hw : w.step (.write_page page_id) = some w') :
    CleanGood w' := by
  have hdisk : ∀ committed horizon, PagesClean committed horizon w.mem →
      PagesClean committed horizon w.disk → PagesClean committed horizon
        (update w.disk page_id (w.mem page_id)) := by
    intro committed horizon hm hd q v hv
    by_cases hq : q = page_id
    · subst hq
      rw [update_self] at hv
      exact hm q v hv
    rw [update_of_ne hq] at hv
    exact hd q v hv
  obtain ⟨-, ⟨⟩⟩ := ite_none_right_eq_some.mp hw
  refine ⟨fun lsn c hl hat => ?_, fun f hf => ?_⟩
  · have hc := h.named lsn c hl hat
    exact { hc with disk := hdisk _ _ hc.mem hc.disk }
  have hc := h.flights f hf
  exact { hc with disk := fun hn => hdisk _ _ (hc.mem (by omega)) (hc.disk hn) }

theorem clean_checkpoint (hnone : w.checkpoints = []) (hw : w.step .checkpoint = some w') :
    CleanGood w' := by
  obtain ⟨-, ⟨⟩⟩ := ite_none_right_eq_some.mp hw
  refine ⟨fun lsn c hl hat => { h.named lsn c hl hat with }, fun f hf => ?_⟩
  rw [hnone, mem_singleton] at hf
  subst hf
  refine ⟨fun n r hat hn => ?_, by simp, by simp, by simp, by simp⟩
  have := hat.le_length
  simp only at hn this
  omega

/-- The pages are flushed with nobody writing, so the disk is as clean as the memory. -/
theorem clean_flush_all_pages (hg : Good w) (hw : w.step (.flush_all_pages i) = some w') :
    CleanGood w' := by
  simp only [step] at hw
  split at hw
  swap
  · cases hw
  rename_i f hi
  obtain ⟨hf, rfl⟩ := checkpoints_eq hg.checkpoints.one hi
  split at hw
  swap
  · cases hw
  rename_i hcond
  cases hw
  refine ⟨fun lsn c hl hat => ?_, fun g hgm => ?_⟩
  · have hc := h.named lsn c hl hat
    exact { hc with disk := hc.mem }
  have hgf : g = { f with stage := .flushed } := by simpa [hf] using hgm
  subst hgf
  obtain ⟨h0, h1, h2, h3, h4⟩ := h.flights f (by simp [hf])
  have hn : 3 ≤ f.stage.num := by simp [hcond.1]
  exact ⟨h0, fun _ => h1 (by omega), fun _ => h2 hn, fun _ => h3 hn, fun _ => h3 hn⟩

/-- Only the checkpoint itself moves on. -/
theorem CleanGood.flight (hf : FlightClean w f) : CleanGood { w with checkpoints := [f] } :=
  ⟨fun lsn c hl hat => { h.named lsn c hl hat with }, forall_mem_singleton.mpr { hf with }⟩

end

/-- The horizon is captured: by the condition the pages in memory are clean for it. -/
theorem clean_capture {data : CheckpointData} (hg : Good w)
    (hf : w.checkpoints = [⟨data, .active, lsn⟩]) (hok : w.NoUndoneStamp) :
    PagesClean (before w.log data) w.vacuum_horizon w.mem := by
  intro p v hv h0 hlt
  have hfg := hg.checkpoints.flights ⟨data, .active, lsn⟩ (by simp [hf])
  have hp : p < w.next_page_id := by
    have hlink := (hg.pages.mem_in p).2.2 (ne_nil_of_mem hv)
    rcases hlink with h3 | ⟨r, hr, b, hb, rfl⟩
    · exact lt_of_lt_of_le h3 hg.pages.three_le.2
    · exact hg.pages.block_lt r (take_subset _ _ hr) b hb
  refine (hfg.quiet rfl).2 _ ?_
  by_contra hc
  exact hok p hp v hv ⟨h0, hlt, hc⟩

theorem clean_advance {w₁ : Engine} {f₁ : Flight} (h : CleanGood w) (hg : Good w)
    (hh : HorizonGood w) (hf : w.checkpoints = [f])
    (hok : f.stage = .active → w.NoUndoneStamp)
    (hadv : w.advance f = some (w₁, f₁)) : CleanGood { w₁ with checkpoints := [f₁] } := by
  have hfg := hg.checkpoints.flights f (by simp [hf])
  obtain ⟨h0, h1, h2, h3, h4⟩ := h.flights f (by simp [hf])
  obtain ⟨data, stage, lsn⟩ := f
  cases stage with
  | redo =>
    cases hadv
    exact h.flight ⟨h0, fun _ => hh.next, by simp, by simp, by simp⟩
  | next_txn =>
    cases hadv
    exact h.flight ⟨h0, fun _ => h1 (by simp), by simp, by simp, by simp⟩
  | active =>
    have hclean := clean_capture hg hf (hok rfl)
    cases hadv
    exact h.flight ⟨h0, fun _ => h1 (by simp), fun _ => h1 (by simp), fun _ => hclean, by simp⟩
  | horizon | pinned =>
    cases hadv
    exact h.flight ⟨h0, fun _ => h1 (by simp), fun _ => h2 (by simp), fun _ => h3 (by simp),
      by simp⟩
  | logged =>
    obtain ⟨-, ⟨⟩⟩ := ite_none_right_eq_some.mp hadv
    exact h.flight ⟨h0, fun _ => h1 (by simp), fun _ => h2 (by simp), fun _ => h3 (by simp),
      by simp⟩
  | pages =>
    cases hadv
    have hbefore : ∀ c : CheckpointData, c.redo_point ≤ w.log.length + 1 →
        before (w.log ++ [.Checkpoint data]) c = before w.log c := fun c hc => before_append _ hc
    refine ⟨fun lsn c hl hat => ?_, fun g hgm => ?_⟩
    · have hold := at_of_append hg hl hat
      obtain ⟨hredo, _⟩ := redo_le_of_named hg hl hold
      obtain ⟨k0, k1, k2, k3⟩ := h.named lsn c hl hold
      refine ⟨k0, ?_, ?_, fun n r hat' hn b hb => ?_⟩
      · exact (hbefore c hredo).symm ▸ k1
      · exact (hbefore c hredo).symm ▸ k2
      rcases at_append_cases hat' with hat' | ⟨_, rfl⟩
      · exact (hbefore c hredo).symm ▸ k3 n r hat' hn b hb
      · simp [LogRecord.blocks] at hb
    rw [mem_singleton.mp hgm]
    refine ⟨fun n r hat' hn => ?_, fun _ => h1 (by simp), fun _ => h2 (by simp), fun _ => ?_,
      by simp⟩
    · rcases at_append_cases hat' with hat' | ⟨_, rfl⟩
      · exact h0 n r hat' hn
      · rfl
    · exact (hbefore data hfg.redo_le).symm ▸ h3 (by simp)
  | synced => cases hadv
  | flushed =>
    cases hadv
    refine ⟨?_, fun g hgm => ?_⟩
    · rintro lsn' c ⟨rfl⟩ hat
      -- the record that the superblock names is the checkpoint's own
      have hown := (hfg.logged (by simp)).1
      obtain rfl : data = c := by
        simpa using hown.unique hat
      exact ⟨h2 (by simp), h3 (by simp), h4 (by simp),
        fun n r hat' hn b hb => by simp [h0 n r hat' hn] at hb⟩
    rw [mem_singleton.mp hgm]
    exact ⟨h0, fun _ => h1 (by simp), fun _ => h2 (by simp), fun _ => h3 (by simp),
      fun _ => h4 (by simp)⟩
  | named => cases hadv

theorem clean_checkpoint_next (h : CleanGood w) (hg : Good w) (hh : HorizonGood w)
    (hok : NoUndoneDelete w (.checkpoint_next i)) (hw : w.step (.checkpoint_next i) = some w') :
    CleanGood w' := by
  simp only [step] at hw
  split at hw
  swap
  · cases hw
  rename_i f hi
  have hok' := hok f hi
  obtain ⟨hf, rfl⟩ := checkpoints_eq hg.checkpoints.one hi
  split at hw
  · cases hw
    exact ⟨fun lsn c hl hat => { h.named lsn c hl hat with }, by simp [hf]⟩
  obtain ⟨⟨w₁, f₁⟩, hadv, he⟩ := map_eq_some_iff.mp hw
  cases he
  have := clean_advance h hg hh hf hok' hadv
  simpa [hf] using this

end CleanSteps

/-! ## A crash -/

section CleanCrash

variable {w : Engine} {survived : Nat}

section

variable (h : CleanGood w) (hg : Good w) (hs : w.flushed ≤ survived)

include h hg hs

/-- The recovered pages are clean for the checkpoint that recovery started from. -/
theorem recovered_clean {c : CheckpointData} (hc : (w.files survived).checkpoint = some c) :
    NamedClean w c ∧ PagesClean (before w.log c) c.vacuum_horizon
      (recover (w.files survived)).pages := by
  rcases files_cases hg hs with ⟨_, hnone, _⟩ | ⟨lsn, c', hsb, hn, hcp, _, _⟩
  · simp [hnone] at hc
  obtain rfl : c' = c := Option.some.inj (hcp.symm.trans hc)
  have hclean := h.named lsn c' hsb hn.1
  refine ⟨hclean, recover_pages_induct (P := PagesClean _ _) hclean.disk ?_⟩
  intro i r hr hredo pages hp
  refine hp.redo_record (fun b hb => ?_)
  rw [hc] at hredo
  exact hclean.changes _ r ((at_of_records hg hr).mono (List.take_prefix _ _)) hredo b hb

theorem clean_reopened : CleanGood (w.reopened survived) := by
  refine ⟨fun lsn c hl hat => ?_, by simp [reopened]⟩
  have hsb : w.superblock = some lsn := hl
  rcases files_cases hg hs with ⟨hnone, _⟩ | ⟨lsn', c', hsb', hn, hcp, _, _⟩
  · exact absurd (hnone.symm.trans hsb) (by simp)
  obtain rfl : lsn' = lsn := Option.some.inj (hsb'.symm.trans hsb)
  obtain rfl : c' = c := by
    simpa using hn.1.unique (hat.mono (List.take_prefix _ _))
  obtain ⟨hclean, hpages⟩ := recovered_clean h hg hs hcp
  have hbefore : before (w.log.take survived) c' = before w.log c' := by
    apply before_take
    have := hn.2.1
    have := hn.2.2.2.2.2.2
    omega
  refine ⟨hclean.horizon_le, ?_, ?_, fun n r hat' hr b hb => ?_⟩
  · change PagesClean (before (w.log.take survived) c') _ _
    rw [hbefore]
    exact hpages
  · change PagesClean (before (w.log.take survived) c') _ _
    rw [hbefore]
    exact hpages
  change ChangeClean (before (w.log.take survived) c') _ _
  rw [hbefore]
  exact hclean.changes n r (hat'.mono (List.take_prefix _ _)) hr b hb

theorem horizon_reopened : HorizonGood (w.reopened survived) := by
  refine horizonGood_reopened ?_ (recover_readers _)
  cases hc : (w.files survived).checkpoint with
  | none => simp [reopened, recover, hc]
  | some c =>
    have hle := (recovered_clean h hg hs hc).1.horizon_le
    have hv : (w.reopened survived).vacuum_horizon = c.vacuum_horizon := by
      simp [reopened, recover, hc]
    rw [hv]
    refine le_trans hle ?_
    change c.next_txn_id ≤ (recover (w.files survived)).tm.next_txn_id
    simp [recover, StatusScan.finish, hc]

end

end CleanCrash

/-! ## Every run -/

theorem clean_new : CleanGood new := ⟨by simp [new], by simp [new]⟩

theorem horizonGood_new : HorizonGood new where
  live t ht := absurd rfl ht
  next := Nat.zero_le _
  xmin_le := by simp [new, TransactionManager.new]
  readers_le := by simp [new, TransactionManager.new]
  sweeps := by simp [new]

theorem clean_step {w w' : Engine} {e : Event} (h : CleanGood w) (hg : Good w) (hh : HorizonGood w)
    (hok : CleanCheckpoints w e) (hw : w.step e = some w') : CleanGood w' := by
  obtain ⟨hin, halone, hno⟩ := hok
  cases e with
  | begin | read_snapshot | end_read | sweep_start | alloc | note_write | settle | mark_aborted
  | mark_committed | flush =>
    simp only [step] at hw
    repeat' split at hw
    all_goals cases hw
    all_goals
      exact ⟨fun lsn c hl hat => { h.named lsn c hl hat with }, fun f hf => { h.flights f hf with }⟩
  | insert | overflow_write =>
    simp only [step] at hw
    split at hw
    · exact clean_write h hg halone hw (by simp [LogRecord.blocks, ChangeClean])
    · cases hw
  | set_xmax t page_id slot => exact clean_set_xmax h hg hh halone hw
  | system blocks late => exact clean_system h hg halone hw
  | late_stamp i => exact clean_late_stamp h halone hw
  | log_commit | log_abort =>
    obtain ⟨-, ⟨⟩⟩ := ite_none_right_eq_some.mp hw
    exact clean_status_record h hg halone rfl
  | sweep_finish i =>
    simp only [step] at hw
    split at hw <;> cases hw
    have halone : w.checkpoints = [] := halone
    exact ⟨fun lsn c hl hat => { h.named lsn c hl hat with }, by simp [halone]⟩
  | write_page page_id => exact clean_write_page h hw
  | checkpoint => exact clean_checkpoint h hin hw
  | checkpoint_next i => exact clean_checkpoint_next h hg hh hno hw
  | flush_all_pages i => exact clean_flush_all_pages h hg hw
  | flush_some_pages i => exact absurd halone (fun h => h)
  | crash survived =>
    obtain ⟨hcond, ⟨⟩⟩ := ite_none_right_eq_some.mp hw
    exact clean_reopened h hg hcond.1

theorem horizon_step {w w' : Engine} {e : Event} (h : CleanGood w) (hg : Good w)
    (hh : HorizonGood w) (hw : w.step e = some w') : HorizonGood w' := by
  by_cases he : ∀ n, e ≠ .crash n
  · exact horizonGood_step hh hg he hw
  push Not at he
  obtain ⟨survived, rfl⟩ := he
  obtain ⟨hcond, ⟨⟩⟩ := ite_none_right_eq_some.mp hw
  exact horizon_reopened h hg hcond.1

theorem clean_run {w : Engine} {p : List Event} (hp : Runs.Meets step CleanCheckpoints new p)
    (hrun : Runs.run step new p = some w) : Good w ∧ HorizonGood w ∧ CleanGood w := by
  refine Runs.inv_run_meets (I := fun w => Good w ∧ HorizonGood w ∧ CleanGood w) ?_
    ⟨good_new, horizonGood_new, clean_new⟩ hp hrun
  rintro w e w' ⟨hg, hh, hc⟩ hok hw
  exact ⟨good_step hg hok.1 hw, horizon_step hc hg hh hw, clean_step hc hg hh hok hw⟩

theorem recovered_snapshot_is_committed (w : Engine) (survived t : Nat) :
    (recover (w.files survived)).tm.get_snapshot.is_committed t (recover (w.files survived)).tm =
        true ↔
      t = 0 ∨ t < (recover (w.files survived)).tm.next_txn_id ∧
        (recover (w.files survived)).tm.is_aborted t = false := by
  have hact : (recover (w.files survived)).tm.get_snapshot.active = [] := by
    change (recover (w.files survived)).tm.active_txns.keys = []
    rw [recover_active_txns]
    rfl
  rw [snapshot_is_committed_iff, hact]
  simp [TransactionManager.get_snapshot]

/-- A deleter without a surviving Commit record is known to have aborted: clean pages have no
such stamp below the horizon. -/
theorem recovered_deleter_aborted {w : Engine} {survived b : Nat} {v : Row} (hg : Good w)
    (hc : CleanGood w) (hs : w.flushed ≤ survived)
    (hv : v ∈ ((recover (w.files survived)).pages b).rows) (h0 : v.xmax ≠ 0)
    (hcommit : .Commit v.xmax ∉ w.log.take survived) :
    (recover (w.files survived)).tm.is_aborted v.xmax = true := by
  have hstamped : Stamped (recover (w.files survived)).pages v.xmax := ⟨h0, b, v, hv, .inr rfl⟩
  obtain ⟨r, hr, hrt⟩ := hstamped.logged (recovered_pages hg hs)
  refine recovered_aborted hg hs h0 (fun hu => hu r hr hrt) hcommit (fun c hcp => ?_)
  by_contra hlt
  have hbefore := (recovered_clean hc hg hs hcp).2 b v hv h0 (by omega)
  rcases files_cases hg hs with ⟨_, hnone, _⟩ | ⟨lsn, c', _, _, hcp', _, hsub⟩
  · simp [hnone] at hcp
  obtain rfl : c' = c := Option.some.inj (hcp'.symm.trans hcp)
  exact hcommit (hsub hbefore)

/-- A row version that a fresh snapshot saw before the crash, whose creator's Commit record
has survived and that is still on a page after recovery, is seen by a fresh snapshot then,
unless a transaction whose Commit record has survived deleted it. -/
theorem an_undone_delete_stays_undone {w : Engine} {p : List Event} (survived : Nat)
    (hp : Runs.Meets step CleanCheckpoints new p) (hrun : Runs.run step new p = some w)
    (hs : w.flushed ≤ survived) {a b : Nat} {u v : Row} (hu : u ∈ (w.mem a).rows)
    (_hseen : is_visible u.xmin u.xmax w.tm.get_snapshot w.tm = true)
    (hcommit : .Commit u.xmin ∈ w.log.take survived)
    (hv : v ∈ ((recover (w.files survived)).pages b).rows) (hsame : v.born = u.born) :
    is_visible v.xmin v.xmax (recover (w.files survived)).tm.get_snapshot
        (recover (w.files survived)).tm = true ∨
      v.xmax ≠ 0 ∧ .Commit v.xmax ∈ w.log.take survived := by
  obtain ⟨hg, _, hc⟩ := clean_run hp hrun
  -- both copies of the version carry the creator that the record at `born` names
  obtain ⟨⟨r, hat, hr⟩, _⟩ := (hg.pages.mem_in a).1.1 u hu
  obtain ⟨⟨r', hat', hr'⟩, _⟩ := (recovered_pages hg hs b).1.1 v hv
  have hxmin : v.xmin = u.xmin := by
    have h1 := hat.mono (List.take_prefix _ _)
    have h2 := hat'.mono (List.take_prefix _ _)
    rw [hsame] at h2
    rw [← hr, ← hr', h1.unique h2]
  rw [is_visible_iff, ← Bool.not_eq_true, recovered_snapshot_is_committed,
    recovered_snapshot_is_committed, hxmin]
  have hcreator : u.xmin < (recover (w.files survived)).tm.next_txn_id ∧
      (recover (w.files survived)).tm.is_aborted u.xmin = false :=
    ⟨lt_recovered_next_txn_id hg hs hcommit, recovered_not_aborted hg hs hcommit⟩
  by_cases hx0 : v.xmax = 0
  · exact .inl ⟨.inr hcreator, .inl hx0⟩
  · by_cases hxc : .Commit v.xmax ∈ w.log.take survived
    · exact .inr ⟨hx0, hxc⟩
    · have haborted := recovered_deleter_aborted hg hc hs hv hx0 hxc
      exact .inl ⟨.inr hcreator, .inr (by simp [hx0, haborted])⟩

/-- One transaction inserts a row and commits, the next one deletes it and aborts. -/
def insertThenUndoneDelete : List Event :=
  [.begin, .note_write 1, .insert 1 1 0 [], .log_commit 1, .flush 2 [], .mark_committed 1,
    .settle 1, .begin, .note_write 2, .set_xmax 2 1 0, .log_abort 2, .mark_aborted 2, .settle 2]

/-- A checkpoint that comes before any sweep keeps the aborted deleter. -/
theorem a_row_stays_after_its_delete_was_undone :
    ∃ w, Runs.run step new (insertThenUndoneDelete ++ checkpointTo 5 [5] ++
        [.checkpoint_next 0, .checkpoint_next 0]) = some w ∧
      (⟨1, 1, 2⟩ : Row) ∈ (w.mem 1).rows ∧
      (is_visible 1 2 (recover (w.files 5)).tm.get_snapshot (recover (w.files 5)).tm = true ∨
        2 ≠ 0 ∧ .Commit 2 ∈ w.log.take 5) := by
  have hp : Runs.Meets step CleanCheckpoints new (insertThenUndoneDelete ++ checkpointTo 5 [5] ++
      [.checkpoint_next 0, .checkpoint_next 0]) := by decide +kernel
  refine ⟨_, rfl, by decide, ?_⟩
  have hseen := an_undone_delete_stays_undone 5 hp rfl (by decide) (a := 1) (b := 1)
    (u := ⟨1, 1, 2⟩) (v := ⟨1, 1, 2⟩) (by decide) (by decide +kernel) (by decide)
  exact hseen (by decide) rfl

/-- A sweep completes before the checkpoint: the deleter is below the horizon, the checkpoint
does not pin it and its records are deleted. The row was seen and is not seen any more. -/
theorem a_checkpoint_makes_an_undone_delete_count :
    ∃ w, Runs.run step new (insertThenUndoneDelete ++ [.sweep_start, .sweep_finish 0] ++
        checkpointTo 5 [5] ++ [.checkpoint_next 0, .checkpoint_next 0]) = some w ∧
      w.flushed ≤ 5 ∧ (⟨1, 1, 2⟩ : Row) ∈ (w.mem 1).rows ∧
      is_visible 1 2 w.tm.get_snapshot w.tm = true ∧ .Commit 1 ∈ w.log.take 5 ∧
      (⟨1, 1, 2⟩ : Row) ∈ ((recover (w.files 5)).pages 1).rows ∧ .Commit 2 ∉ w.log.take 5 ∧
      is_visible 1 2 (recover (w.files 5)).tm.get_snapshot (recover (w.files 5)).tm = false := by
  refine ⟨_, rfl, by decide, by decide, ?_, by decide, by decide, by decide, ?_⟩
  · decide +kernel
  · decide +kernel

end FluxDB.Engine
