-- What recovery knows of a transaction: as long as checkpoints do not overlap and no late
-- stamp lowers a page's LSN, the status of every transaction that left a stamp on a page
-- is the one that its Commit record decides, and the id counters are past every id in use.
import FluxDB.CheckpointCapture

namespace FluxDB.Engine

open Maps List Function Option

/-! ## Steps that append a record -/

variable {i page_id : Nat} {pages : Nat → TreePage}

section Appends

variable {w w' : Engine} {t : Nat} {r : LogRecord}

/-- While a checkpoint captures, the record is no Commit and no guard is taken. -/
theorem CheckpointsGood.append {stage : Nat → Stage} {mem : Nat → TreePage}
    {late : List LateStamp} (h : CheckpointsGood w)
    (hquiet : w.guard_free = false → (∀ t, r ≠ .Commit t) ∧ stage = w.stage) :
    CheckpointsGood { w with log := w.log ++ [r], stage, mem, late } := by
  refine h.frame rfl (fun t _ ht => ht) (le_refl _) (le_refl _) fun f hf hc => ?_
  have hfree : w.guard_free = false := by
    rw [Bool.eq_false_iff]
    intro hall
    have := all_eq_true.mp hall f hf
    simp [hc] at this
  obtain ⟨h1, h2⟩ := hquiet hfree
  exact ⟨fun t ht => h1 t (mem_singleton.mp ht).symm, fun hg => h2 ▸ hg⟩

theorem good_write (h : Good w) (hw : w.write t r = some w') (hr : r.txn_id = t)
    (hc : ∀ u, r ≠ .Commit u) (ha : r ≠ .Abort t)
    (hblocks : ∀ b ∈ r.blocks,
      ChangeIn (w.log ++ [r]) (w.log.length + 1) b.2 ∧ b.1 < w.next_page_id) : Good w' := by
  have ht := txnsGood_write h.txns hr (hc t) ha hw
  obtain ⟨-, ⟨⟩⟩ := ite_none_right_eq_some.mp hw
  exact ⟨ht, h.pages.append (fun _ hb => hb) hblocks (fun s hs => .inl hs),
    h.checkpoints.append (fun _ => ⟨hc, rfl⟩)⟩

variable {links : List Nat}

theorem linkIn_of_knows (h : links.all w.knows = true) : ∀ q ∈ links, LinkIn (w.log ++ [r]) q := by
  intro q hq
  exact ((knows_iff w q).mp (all_eq_true.mp h q hq)).mono (prefix_append w r)

section

variable (h : Good w)

include h

theorem good_insert {slot : Nat} (hw : w.step (.insert t page_id slot links) = some w') :
    Good w' := by
  obtain ⟨hcond, hw⟩ := ite_none_right_eq_some.mp hw
  refine good_write h hw rfl (by simp) (by simp) ?_
  simp only [LogRecord.blocks, mem_singleton, forall_eq]
  exact ⟨⟨⟨_, at_append _ _, rfl⟩, linkIn_of_knows hcond.2⟩, hcond.1⟩

theorem good_set_xmax {slot : Nat} (hw : w.step (.set_xmax t page_id slot) = some w') :
    Good w' := by
  obtain ⟨hcond, hw⟩ := ite_none_right_eq_some.mp hw
  refine good_write h hw rfl (by simp) (by simp) ?_
  simp only [LogRecord.blocks, mem_singleton, forall_eq]
  exact ⟨⟨_, mem_append_right _ (mem_singleton_self _), rfl⟩, hcond⟩

theorem good_overflow_write (hw : w.step (.overflow_write t page_id links) = some w') :
    Good w' := by
  obtain ⟨hcond, hw⟩ := ite_none_right_eq_some.mp hw
  refine good_write h hw rfl (by simp) (by simp) ?_
  simp only [LogRecord.blocks, mem_singleton, forall_eq]
  exact ⟨⟨by simp, linkIn_of_knows hcond.2⟩, hcond.1⟩

theorem good_system {blocks : List (Nat × Change)} {late : List (Nat × List Nat)}
    (hw : w.step (.system blocks late) = some w') : Good w' := by
  simp only [step, system] at hw
  split at hw
  swap
  · cases hw
  rename_i hfits
  cases hw
  -- the page ids of the record's own blocks are covered by the record
  have hown : ∀ q ∈ (blocks ++ late.map fun l => (l.1, Change.link l.2)).map Prod.fst,
      LinkIn (w.log ++ [.System (blocks ++ late.map fun l => (l.1, Change.link l.2))]) q := by
    intro q hq
    obtain ⟨b, hb, rfl⟩ := mem_map.mp hq
    exact .inr ⟨_, mem_append_right _ (mem_singleton_self _), b, hb, rfl⟩
  have hall : ∀ b ∈ blocks ++ late.map fun l => (l.1, Change.link l.2),
      ChangeIn (w.log ++ [.System (blocks ++ late.map fun l => (l.1, Change.link l.2))])
        (w.log.length + 1) b.2 ∧ b.1 < w.next_page_id :=
    fun b hb => fits_in h.pages (all_eq_true.mp hfits b hb) hown
  refine ⟨h.txns.append_system rfl (by simp), ?_, ?_⟩
  swap
  · exact h.checkpoints.append (fun _ => ⟨by simp, rfl⟩)
  refine h.pages.append (fun b hb => mem_append_left _ hb) hall fun s hs => ?_
  rcases mem_append.mp hs with hs | hs
  · exact .inl hs
  obtain ⟨l, hl, rfl⟩ := mem_map.mp hs
  have hmem : (l.1, .link l.2) ∈ blocks ++ late.map fun l => (l.1, Change.link l.2) :=
    mem_append_right _ (mem_map.mpr ⟨l, hl, rfl⟩)
  refine .inr ⟨rfl, ?_⟩
  rw [forall_mem_cons]
  exact ⟨hown l.1 (mem_map.mpr ⟨_, hmem, rfl⟩), (hall _ hmem).1⟩

/-- A Commit or an Abort record, for which no checkpoint may be capturing. -/
theorem good_status_record {stage : Nat → Stage} (hfree : w.guard_free = true) (hr : r.blocks = [])
    (ht : TxnsGood { w.log_blocks r [] with stage }) : Good { w.log_blocks r [] with stage } := by
  refine ⟨ht, h.pages.append (by simp) (by simp [hr]) (fun s hs => .inl hs), ?_⟩
  refine h.checkpoints.append fun hg => ?_
  rw [hfree] at hg
  cases hg

theorem good_log_commit (hw : w.step (.log_commit t) = some w') : Good w' := by
  have ht := txnsGood_log_commit h.txns hw
  obtain ⟨hcond, ⟨⟩⟩ := ite_none_right_eq_some.mp hw
  exact good_status_record h hcond.2 rfl ht

theorem good_log_abort (hw : w.step (.log_abort t) = some w') : Good w' := by
  have ht := txnsGood_log_abort h.txns hw
  obtain ⟨hcond, ⟨⟩⟩ := ite_none_right_eq_some.mp hw
  exact good_status_record h hcond.2 rfl ht

end

end Appends

/-! ## Steps of the transactions and of the sweeps -/

section Statuses

variable {w w' : Engine} {t : Nat}

/-- A step that changes the transactions only. -/
theorem good_of_txns {tm : TransactionManager} {stage : Nat → Stage} {vacuum_horizon : Nat}
    {sweeps : List Nat} (h : Good w) (ht : TxnsGood { w with tm, stage, vacuum_horizon, sweeps })
    (hab : ∀ t, ¬ Unlogged w.log t → w.tm.is_aborted t = true → tm.is_aborted t = true)
    (hhorizon : w.vacuum_horizon ≤ vacuum_horizon)
    (hstage : (∀ t, (w.stage t).guarded = false) → ∀ t, (stage t).guarded = false) :
    Good { w with tm, stage, vacuum_horizon, sweeps } := by
  refine ⟨ht, { h.pages with }, ?_⟩
  exact h.checkpoints.frame (l := []) (by simp) hab hhorizon (le_refl _)
    (fun f _ _ => ⟨by simp, hstage⟩)

theorem guarded_update {stage : Nat → Stage} {p : Stage} (hp : p.guarded = false)
    (h : ∀ t, (stage t).guarded = false) (u : Nat) : (update stage t p u).guarded = false := by
  by_cases hu : u = t
  · rw [hu, update_self]
    exact hp
  rw [update_of_ne hu]
  exact h u

section

variable (h : Good w)

include h

theorem good_begin (hw : w.step .begin = some w') : Good w' := by
  cases hw
  refine good_of_txns h h.txns.begin ?_ (le_refl _) (guarded_update rfl)
  intro u hlogged hu
  refine (is_aborted_clog_insert w.tm.begin_active.2 w.tm.next_txn_id u .Active).trans ?_
  rw [if_neg]
  · exact hu
  rintro rfl
  exact hlogged fun r hr => (h.txns.record_lt r hr).ne

theorem good_note_write (hw : w.step (.note_write t) = some w') : Good w' := by
  simp only [step] at hw
  split at hw
  · next wrote hst =>
    cases hw
    exact good_of_txns h (h.txns.note_write hst) (fun _ _ h => h) (le_refl _) (guarded_update rfl)
  · cases hw

/-- A status in the commit log, for a transaction that is not marked aborted before. -/
theorem good_mark {guarded : Bool} {status : TransactionStatus}
    (ht : TxnsGood (marked w t status guarded)) (hab : w.tm.is_aborted t = true → status = .Aborted)
    (hg : (∀ t, (w.stage t).guarded = false) → guarded = false) :
    Good (marked w t status guarded) := by
  refine good_of_txns h ht ?_ (le_refl _) ?_
  · intro u _ hu
    simp only [is_aborted_clog_insert]
    split
    · next he =>
      subst he
      simp [hab hu]
    · exact hu
  intro hall
  exact guarded_update (by simp [hg hall, Stage.guarded]) hall

theorem good_mark_committed (hw : w.step (.mark_committed t) = some w') : Good w' := by
  have hs := h.txns.stages t
  simp only [step] at hw
  split at hw
  · next lsn hst =>
    rw [hst] at hs
    split at hw
    · cases hw
      have hne : w.stage t ≠ .idle := by simp [hst]
      refine good_mark h (h.txns.mark hne (.inl hs.1) (by simp))
        (fun ha => by simp [hs.2.2] at ha) (fun hall => ?_)
      simpa [hst, Stage.guarded] using hall t
    · cases hw
  · next hst =>
    rw [hst] at hs
    cases hw
    have hne : w.stage t ≠ .idle := by simp [hst]
    exact good_mark h (h.txns.mark hne (hs.2.2.2 rfl) (by simp))
      (fun ha => by simp [hs.2.2.1] at ha) (fun _ => rfl)
  · cases hw

theorem good_mark_aborted (hw : w.step (.mark_aborted t) = some w') : Good w' := by
  have hs := h.txns.stages t
  simp only [step] at hw
  split at hw
  · next hst =>
    rw [hst] at hs
    cases hw
    have hne : w.stage t ≠ .idle := by simp [hst]
    refine good_mark h (h.txns.mark hne ?_ (fun _ => hs)) (fun _ => rfl) (fun hall => ?_)
    · exact .inr (by simp [is_aborted_clog_insert])
    · simpa [hst, Stage.guarded] using hall t
  · next hst =>
    rw [hst] at hs
    cases hw
    have hne : w.stage t ≠ .idle := by simp [hst]
    exact good_mark h (h.txns.mark hne (hs.2.2.2 rfl) (fun _ => hs.1)) (fun _ => rfl) (fun _ => rfl)
  · cases hw

theorem good_settle (hw : w.step (.settle t) = some w') : Good w' := by
  simp only [step] at hw
  split at hw
  · next guarded hst =>
    cases hw
    exact good_of_txns h (h.txns.settle hst) (fun _ _ h => h) (le_refl _) (guarded_update rfl)
  · cases hw

theorem good_sweep_finish (hw : w.step (.sweep_finish i) = some w') : Good w' := by
  simp only [step] at hw
  split at hw <;> cases hw
  exact good_of_txns h { h.txns with } (fun _ _ h => h) (le_max_left _ _) fun h => h

/-- The steps of readers, and the start of a sweep. -/
theorem good_readers {readers : Map Nat Nat} {next_reader_token : Nat} {sweeps : List Nat} :
    Good { w with tm := { w.tm with readers, next_reader_token }, sweeps } :=
  good_of_txns h { h.txns with } (fun _ _ h => h) (le_refl _) fun h => h

end

end Statuses

/-! ## Steps of the log, of the pages and of the checkpoints -/

section Storage

variable {w w' : Engine} {f : Flight}

theorem good_flush {lsn : Nat} {rotations : List Nat} (h : Good w)
    (hw : w.step (.flush lsn rotations) = some w') : Good w' := by
  obtain ⟨hcond, ⟨⟩⟩ := ite_none_right_eq_some.mp hw
  obtain ⟨hle, hlen, _, hrot⟩ := hcond
  have hfirst : (w.segments ++ rotations).headD 1 = w.segments.headD 1 := by
    have := h.checkpoints.segments_ne
    cases hs : w.segments with
    | nil => exact absurd hs this
    | cons a l => rfl
  refine ⟨{ h.txns with },
    { h.pages with disk_in := h.pages.disk_in.le hle, flushed_le := hlen }, ?_⟩
  refine
    { one := h.checkpoints.one
      flights := fun f hf => ?_
      superblock := fun lsn hl => ?_
      fresh := fun hn => ?_
      base_le := h.checkpoints.base_le
      segments_ne := by simp [h.checkpoints.segments_ne]
      segments_pos := ?_ }
  · exact (h.checkpoints.flights f hf).mono (l := []) (by simp) (fun _ _ h => h) (le_refl _) hle
      hfirst (fun _ => ⟨by simp, fun h => h⟩)
  · obtain ⟨c, hc⟩ := h.checkpoints.superblock lsn hl
    exact ⟨c, hc.mono (l := []) (by simp) (le_refl _) hle (le_trans hfirst.le hc.2.2.2.2.2.1)⟩
  · exact ⟨(h.checkpoints.fresh hn).1, hfirst.trans (h.checkpoints.fresh hn).2⟩
  refine forall_mem_append.mpr ⟨h.checkpoints.segments_pos, fun s hs => ?_⟩
  have := (hrot s hs).1
  omega

theorem CheckpointsGood.same {num_pages next_page_id : Nat} {mem disk : Nat → TreePage}
    {late : List LateStamp} (h : CheckpointsGood w) :
    CheckpointsGood { w with num_pages, next_page_id, mem, disk, late } :=
  h.frame (l := []) (by simp) (fun _ _ h => h) (le_refl _) (le_refl _)
    (fun _ _ _ => ⟨by simp, fun h => h⟩)

theorem good_write_page (h : Good w) (hw : w.step (.write_page page_id) = some w') : Good w' := by
  obtain ⟨hle, ⟨⟩⟩ := ite_none_right_eq_some.mp hw
  have hp := h.pages
  refine ⟨{ h.txns with },
    { hp with
        disk_in := fun p => ?_
        three_le := ⟨le_trans hp.three_le.1 (le_max_left _ _), hp.three_le.2⟩ },
    h.checkpoints.same⟩
  by_cases he : p = page_id
  · subst he
    simp only [update_self]
    exact ⟨(hp.mem_in p).1, hle, (hp.mem_in p).2.2⟩
  simp only [update_of_ne he]
  exact hp.disk_in p

theorem good_alloc (h : Good w) (hw : w.step .alloc = some w') : Good w' := by
  cases hw
  exact ⟨{ h.txns with },
    { h.pages with
      block_lt := fun r hr b hb => Nat.lt_succ_of_lt (h.pages.block_lt r hr b hb)
      three_le := ⟨h.pages.three_le.1, Nat.le_succ_of_le h.pages.three_le.2⟩ },
    h.checkpoints.same⟩

theorem good_late_stamp (h : Good w) (hok : InOrder w (.late_stamp i))
    (hw : w.step (.late_stamp i) = some w') : Good w' := by
  simp only [step] at hw
  split at hw
  swap
  · cases hw
  rename_i s hs
  cases hw
  have hp := h.pages
  obtain ⟨hle, hlinks⟩ := hp.late_in s (mem_of_getElem? hs)
  have hpages : PagesIn w.log w.log.length (change_block s.lsn w.mem (s.page_id, .link s.links)) :=
    hp.mem_in.change_block (hok s hs) hle (fun q hq => hlinks q (mem_cons_of_mem _ hq))
      (hlinks s.page_id mem_cons_self)
  exact ⟨{ h.txns with },
    { hp with
        mem_in := hpages, late_in := fun s hs => hp.late_in s (mem_of_mem_eraseIdx hs) },
    h.checkpoints.same⟩

theorem good_checkpoint (h : Good w) (hok : InOrder w .checkpoint)
    (hw : w.step .checkpoint = some w') : Good w' := by
  obtain ⟨hcond, ⟨⟩⟩ := ite_none_right_eq_some.mp hw
  have hempty : w.checkpoints = [] := hok
  have hfirst : w.first_lsn ≤ w.log.length + 1 := by
    cases hs : w.superblock with
    | none =>
      have := (h.checkpoints.fresh hs).2
      omega
    | some lsn =>
      obtain ⟨c, _, hle, _, _, _, h1, h2⟩ := h.checkpoints.superblock lsn hs
      have := h.pages.flushed_le
      omega
  refine ⟨{ h.txns with },
    { h.pages with }, ?_⟩
  rw [hempty]
  refine h.checkpoints.flight (l := []) (by simp) ?_
  refine
    { redo_pos := by simp, redo_le := le_refl _, first_le := hfirst
      quiet := fun _ => ⟨fun t => ?_, fun t ht => ?_⟩
      captured := ⟨by simp, by simp, by simp, by simp, by simp⟩
      logged := by simp, synced := by simp, named := by simp }
  · by_cases hst : w.stage t = .idle
    · simp [hst, Stage.guarded]
    have hmem : t ∈ w.tm.active_txns.keys := (h.txns.active_iff t).mpr hst
    simpa using all_eq_true.mp hcond.2 t hmem
  · simpa [before] using ht

theorem headD_reclaim (redo_point : Nat) (segments : List Nat) :
    (reclaim_segments_below redo_point segments).headD 1 = segments.headD 1 ∨
      (reclaim_segments_below redo_point segments).headD 1 ≤ redo_point := by
  fun_induction reclaim_segments_below redo_point segments with
  | case1 first next rest hle ih =>
    rcases ih with ih | ih
    · right
      rw [ih]
      exact hle
    · exact .inr ih
  | case2 first next rest hgt => exact .inl rfl
  | case3 segments hne => exact .inl rfl

theorem reclaim_suffix (redo_point : Nat) (segments : List Nat) :
    reclaim_segments_below redo_point segments <:+ segments ∧
      (segments ≠ [] → reclaim_segments_below redo_point segments ≠ []) := by
  fun_induction reclaim_segments_below redo_point segments with
  | case1 first next rest hle ih =>
    exact ⟨ih.1.trans (List.suffix_cons _ _), fun _ => ih.2 (by simp)⟩
  | case2 first next rest hgt => exact ⟨List.suffix_refl _, fun h => h⟩
  | case3 segments hne => exact ⟨List.suffix_refl _, fun h => h⟩

/-- The last step of a checkpoint: the superblock names it, so its redo point bounds what
may be deleted. -/
theorem good_reclaim (h : Good w) (hf : w.checkpoints = [f]) (hstage : f.stage = .named) :
    Good { w with segments := reclaim_segments_below f.data.redo_point w.segments,
                  checkpoints := [] } := by
  have hfg := h.checkpoints.flights f (by simp [hf])
  have hname := hfg.named (by simp [hstage])
  obtain ⟨hsuf, hne⟩ := reclaim_suffix f.data.redo_point w.segments
  refine ⟨{ h.txns with },
    { h.pages with }, ?_⟩
  refine
    { one := by simp
      flights := by simp
      superblock := fun lsn hl => ?_
      fresh := fun hn => ?_
      base_le := h.checkpoints.base_le
      segments_ne := hne h.checkpoints.segments_ne
      segments_pos := fun s hs => h.checkpoints.segments_pos s (hsuf.subset hs) }
  · obtain ⟨c, hc⟩ := h.checkpoints.superblock lsn hl
    refine ⟨c, hc.mono (l := []) (by simp) (le_refl _) (le_refl _) ?_⟩
    rcases headD_reclaim f.data.redo_point w.segments with he | hle
    · exact le_trans he.le hc.2.2.2.2.2.1
    -- the superblock's record is the checkpoint's own
    have hlsn : lsn = f.lsn := Option.some.inj (hl.symm.trans hname)
    subst hlsn
    have := hc.1.unique (hfg.logged (by simp [hstage])).1
    simp only [LogRecord.Checkpoint.injEq] at this
    exact this ▸ hle
  have : w.superblock = none := hn
  rw [hname] at this
  cases this

/-- The superblock is written for a checkpoint that has gone through all its stages. -/
theorem named_of_flight (h : FlightGood w f) (hn : 8 ≤ f.stage.num) : Named w f.lsn f.data := by
  have hc := h.captured
  obtain ⟨hat, hredo⟩ := h.logged (by omega)
  obtain ⟨hb, hv⟩ := hc.horizon (by omega)
  refine ⟨hat, h.synced (by omega), ?_, hb, hv, h.first_le, hredo⟩
  exact
    { redo_pos := h.redo_pos
      redo_le := h.redo_le
      txns := hc.txns (by omega)
      pages := hc.pages (by omega)
      active := (hc.active (by omega)).1
      listed := (hc.pinned (by omega)).1
      pinned := (hc.pinned (by omega)).2 }

/-- What a checkpoint has captured does not depend on the pages or on which checkpoints are under
way. -/
theorem FlightGood.apart {f : Flight} {num_pages : Nat} {disk : Nat → TreePage}
    {checkpoints : List Flight} (h : FlightGood w f) :
    FlightGood { w with num_pages, disk, checkpoints } f :=
  h.mono (l := []) (by simp) (fun _ _ h => h) (le_refl _) (le_refl _) rfl
    (fun _ => ⟨by simp, fun h => h⟩)

theorem good_advance {w₁ : Engine} {f₁ : Flight} (h : Good w) (hf : w.checkpoints = [f])
    (hadv : w.advance f = some (w₁, f₁)) : Good { w₁ with checkpoints := [f₁] } := by
  have hfg := h.checkpoints.flights f (by simp [hf])
  have hfg₁ := hfg.advance h.txns h.pages h.checkpoints.base_le hadv
  -- all stages but two leave the engine as it is
  have hkeep : w₁ = w → Good { w₁ with checkpoints := [f₁] } := by
    rintro rfl
    exact ⟨{ h.txns with },
      { h.pages with },
      h.checkpoints.flight (l := []) (by simp) hfg₁.apart⟩
  unfold Engine.advance at hadv
  split at hadv
  iterate 5
    · cases hadv
      exact hkeep rfl
  · cases hadv
    exact ⟨h.txns.append_system rfl (by simp),
      h.pages.append (by simp) (by simp [LogRecord.blocks]) (fun s hs => .inl hs),
      h.checkpoints.flight rfl hfg₁.apart⟩
  · split at hadv
    · cases hadv; exact hkeep rfl
    · cases hadv
  · cases hadv
  · next hstage =>
    cases hadv
    refine ⟨{ h.txns with },
      { h.pages with }, ?_⟩
    exact
      { one := le_refl _
        flights := by
          simp only [mem_singleton, forall_eq]
          exact hfg₁.apart
        superblock := by
          rintro lsn ⟨rfl⟩
          exact ⟨f.data, (named_of_flight hfg (by simp [hstage])).mono (l := []) (by simp)
            (le_refl _) (le_refl _) hfg.first_le⟩
        fresh := by simp
        base_le := h.checkpoints.base_le
        segments_ne := h.checkpoints.segments_ne
        segments_pos := h.checkpoints.segments_pos }
  · cases hadv

theorem good_checkpoint_next (h : Good w) (hw : w.step (.checkpoint_next i) = some w') :
    Good w' := by
  simp only [step] at hw
  split at hw
  swap
  · cases hw
  rename_i f hi
  obtain ⟨hf, rfl⟩ := checkpoints_eq h.checkpoints.one hi
  split at hw
  · next hstage =>
    cases hw
    have := good_reclaim h hf hstage
    simpa [hf] using this
  obtain ⟨⟨w₁, f₁⟩, hadv, he⟩ := map_eq_some_iff.mp hw
  cases he
  have := good_advance h hf hadv
  simpa [hf] using this

/-- The pages have been flushed, whichever of them were. -/
theorem good_flushed {num_pages : Nat} {disk : Nat → TreePage} (h : Good w)
    (hf : w.checkpoints = [f]) (hstage : f.stage = .synced)
    (hp : PagesGood { w with num_pages, disk }) :
    Good { w with num_pages, disk, checkpoints := [{ f with stage := .flushed }] } := by
  have hfg := h.checkpoints.flights f (by simp [hf])
  refine ⟨{ h.txns with }, { hp with }, h.checkpoints.flight (l := []) (by simp) ?_⟩
  have hfg' : FlightGood
      { w with num_pages, disk, checkpoints := [{ f with stage := .flushed }] } f := hfg.apart
  exact
    { redo_pos := hfg'.redo_pos, redo_le := hfg'.redo_le, first_le := hfg'.first_le
      quiet := fun hc => by simp [CheckpointStage.capturing] at hc
      captured := hfg'.captured.up (by simp [hstage])
      logged := fun _ => hfg'.logged (by simp [hstage])
      synced := fun _ => hfg'.synced (by simp [hstage])
      named := by simp }

theorem le_length_after (num_pages next_page_id : Nat) (disk mem : Nat → TreePage) :
    num_pages ≤ length_after num_pages next_page_id disk mem := by
  unfold length_after
  generalize (List.range next_page_id).filter _ = l
  induction l generalizing num_pages with
  | nil => exact le_refl _
  | cons p l ih => exact le_trans (le_max_left _ _) (ih _)

theorem good_flush_all_pages (h : Good w) (hw : w.step (.flush_all_pages i) = some w') :
    Good w' := by
  simp only [step] at hw
  split at hw
  swap
  · cases hw
  rename_i f hi
  obtain ⟨hf, rfl⟩ := checkpoints_eq h.checkpoints.one hi
  split at hw
  · next hcond =>
    cases hw
    have hp := h.pages
    rw [hf]
    refine good_flushed h hf hcond.1 ?_
    exact { hp with
        disk_in := hp.mem_in.le hcond.2.ge
        three_le := ⟨le_trans hp.three_le.1 (le_length_after _ _ _ _), hp.three_le.2⟩ }
  · cases hw

theorem good_flush_some_pages (h : Good w) (hw : w.step (.flush_some_pages i) = some w') :
    Good w' := by
  simp only [step] at hw
  split at hw
  · next f hi =>
    obtain ⟨hf, rfl⟩ := checkpoints_eq h.checkpoints.one hi
    split at hw
    · next hstage =>
      cases hw
      rw [hf]
      exact good_flushed h hf hstage { h.pages with }
    · cases hw
  · cases hw

end Storage

/-! ## A crash and what recovery makes of it -/

section Crash

variable {w : Engine} {survived t : Nat}

theorem first_lsn_pos (h : Good w) : 1 ≤ w.first_lsn := by
  unfold first_lsn
  have hne := h.checkpoints.segments_ne
  have hseg := h.checkpoints.segments_pos
  cases hs : w.segments with
  | nil => exact absurd hs hne
  | cons a l => exact hseg a (by simp [hs])

/-- Either there is no checkpoint and no segment has been deleted, or recovery finds the one
that the superblock names, and the records that are gone are below its redo point. -/
theorem files_cases (h : Good w) (hs : w.flushed ≤ survived) :
    (w.superblock = none ∧ (w.files survived).checkpoint = none ∧ w.first_lsn = 1) ∨
      ∃ lsn c, w.superblock = some lsn ∧ Named w lsn c ∧ (w.files survived).checkpoint = some c ∧
        (w.log.take survived).take (w.first_lsn - 1) ⊆ before w.log c ∧
        before w.log c ⊆ w.log.take survived := by
  cases hsb : w.superblock with
  | none =>
    left
    refine ⟨rfl, ?_, (h.checkpoints.fresh hsb).2⟩
    simp [Files.checkpoint, files, hsb]
  | some lsn =>
    obtain ⟨c, hc⟩ := h.checkpoints.superblock lsn hsb
    have ⟨hat, hle, hgood, _, _, hfirst, hredo⟩ := hc
    have hpos := first_lsn_pos h
    have hone := hgood.redo_pos
    right
    refine ⟨lsn, c, rfl, hc, ?_, ?_, ?_⟩
    · have hfind : ((w.log.take survived).drop (w.first_lsn - 1))[lsn - w.first_lsn]? =
          some (.Checkpoint c) := by
        rw [getElem?_drop, show w.first_lsn - 1 + (lsn - w.first_lsn) = lsn - 1 by omega]
        exact (hat.take (by omega)).2
      have := find_checkpoint_eq w.first_lsn hfind
      rw [show w.first_lsn + (lsn - w.first_lsn) = lsn by omega] at this
      simp [Files.checkpoint, files, hsb, this]
    · rw [take_take]
      exact (List.take_prefix_take_left (by omega)).subset
    · exact (List.take_prefix_take_left (by omega)).subset

variable {r : LogRecord}

theorem records_subset (w : Engine) (survived : Nat) :
    (w.files survived).records ⊆ w.log.take survived :=
  drop_subset _ _

section

variable (h : Good w) (hs : w.flushed ≤ survived)

include h hs

/-- A record that has survived is in the files, or it is gone and the checkpoint covers it. -/
theorem record_cases (hr : r ∈ w.log.take survived) : r ∈ (w.files survived).records ∨
    r ∈ (w.log.take survived).take (w.first_lsn - 1) ∧ ∃ c, DataGood w.log c ∧
      (w.files survived).checkpoint = some c ∧ r ∈ before w.log c ∧
      before w.log c ⊆ w.log.take survived := by
  have hr' := hr
  rw [← take_append_drop (w.first_lsn - 1) (w.log.take survived), mem_append] at hr'
  rcases hr' with hgone | hrec
  swap
  · exact .inl hrec
  rcases files_cases h hs with ⟨_, _, hfirst⟩ | ⟨lsn, c, _, hn, hcp, hsub, hpre⟩
  · simp [hfirst] at hgone
  · exact .inr ⟨hgone, c, hn.2.2.1, hcp, hsub hgone, hpre⟩

/-- A transaction whose Commit record has survived is not marked aborted. -/
theorem recovered_not_aborted (hc : .Commit t ∈ w.log.take survived) :
    (recover (w.files survived)).tm.is_aborted t = false := by
  have hlog : .Commit t ∈ w.log := take_subset _ _ hc
  apply recover_not_aborted
  · intro ha
    exact h.txns.not_both t hlog (take_subset _ _ (records_subset w survived ha))
  rcases record_cases h hs hc with hrec | ⟨hgone, c', hgood, hcp', hbefore, _⟩
  · exact .inl hrec
  right
  refine ⟨fun c hcp => ?_, fun r hr => ?_⟩
  · obtain rfl : c' = c := Option.some.inj (hcp'.symm.trans hcp)
    exact ⟨fun ht => hgood.pinned t ht hbefore, fun ht => hgood.active t ht hbefore⟩
  have hpair := h.txns.commit_last.sublist (take_sublist survived w.log)
  rw [← take_append_drop (w.first_lsn - 1) (w.log.take survived), pairwise_append] at hpair
  exact hpair.2.2 _ hgone r hr t rfl

/-- A transaction with a surviving record but no surviving Commit record is marked aborted,
from the horizon of the checkpoint on. -/
theorem recovered_aborted (h0 : t ≠ 0) (hl : ¬ Unlogged (w.log.take survived) t)
    (hc : .Commit t ∉ w.log.take survived)
    (hv : ∀ c, (w.files survived).checkpoint = some c → c.vacuum_horizon ≤ t) :
    (recover (w.files survived)).tm.is_aborted t = true := by
  apply recover_aborted h0 (fun hm => hc (records_subset w survived hm))
  obtain ⟨r, hr, ht⟩ : ∃ r ∈ w.log.take survived, r.txn_id = t := by
    by_contra hno
    exact hl fun r hr ht => hno ⟨r, hr, ht⟩
  rcases record_cases h hs hr with hrec | ⟨_, c, hgood, hcp, hbefore, hpre⟩
  · exact .inr ⟨r, hrec, ht⟩
  left
  refine ⟨c, hcp, (hgood.listed t h0 (hv c hcp) ?_ (fun hm => hc (hpre hm))).symm⟩
  exact fun hun => hun r hbefore ht

theorem lt_recovered_next_txn_id (hr : r ∈ w.log.take survived) :
    r.txn_id < (recover (w.files survived)).tm.next_txn_id := by
  apply lt_recover_next_txn_id
  rcases record_cases h hs hr with hrec | ⟨_, c, hgood, hcp, hbefore, _⟩
  · exact .inr ⟨r, hrec, rfl⟩
  · exact .inl ⟨c, hcp, hgood.txns r hbefore⟩

theorem lt_recovered_next_page_id {q : Nat} (hq : LinkIn (w.log.take survived) q) :
    q < (recover (w.files survived)).next_page_id := by
  apply lt_recover_next_page_id
  rcases hq with hq | ⟨r, hr, b, hb, rfl⟩
  · exact .inl (lt_of_lt_of_le hq h.pages.three_le.1)
  right
  rcases record_cases h hs hr with hrec | ⟨_, c, hgood, hcp, hbefore, _⟩
  · exact .inr ⟨r, hrec, b, hb, rfl⟩
  · exact .inl ⟨c, hcp, hgood.pages r hbefore b hb⟩

end

/-- The redo of a record keeps the pages covered by the log. -/
theorem PagesIn.redo_record {log : List LogRecord} {n m : Nat} (h : PagesIn log m pages)
    (hn : n ≤ m) (hc : ∀ b ∈ r.blocks, ChangeIn (log.take n) n b.2 ∧ LinkIn (log.take n) b.1) :
    PagesIn log m (redo_record n pages r) := by
  refine foldlRecOn r.blocks (redo_block n) h fun pages h b hb => ?_
  unfold redo_block
  split
  · exact h
  rename_i hlt
  obtain ⟨h1, h2⟩ := hc b hb
  exact h.change_block (by omega) hn h1 h2

theorem at_of_records (h : Good w) (hr : (w.files survived).records[i]? = some r) :
    At (w.log.take survived) (w.first_lsn + i) r := by
  have hpos := first_lsn_pos h
  have hr' : ((w.log.take survived).drop (w.first_lsn - 1))[i]? = some r := hr
  rw [getElem?_drop, show w.first_lsn - 1 + i = w.first_lsn + i - 1 by omega] at hr'
  exact ⟨by omega, hr'⟩

theorem recovered_pages (h : Good w) (hs : w.flushed ≤ survived) :
    PagesIn w.log survived (recover (w.files survived)).pages := by
  refine recover_pages_induct (P := PagesIn w.log survived) ?_ ?_
  · exact h.pages.disk_in.le hs
  intro i r hr _ pages hp
  have hat := at_of_records h hr
  have hle : w.first_lsn + i ≤ survived := le_trans hat.le_length (length_take_le _ _)
  have hat' : At w.log (w.first_lsn + i) r := hat.mono (List.take_prefix _ _)
  refine hp.redo_record hle (fun b hb => ⟨h.pages.changes _ r hat' b hb, ?_⟩)
  exact .inr ⟨r, (hat'.take (le_refl _)).mem, b, hb, rfl⟩

theorem txnsGood_reopened (h : Good w) (hs : w.flushed ≤ survived) :
    TxnsGood (w.reopened survived) := by
  have hsub : w.log.take survived ⊆ w.log := take_subset _ _
  refine
    { active_iff := fun t => ?_
      zero_idle := rfl
      next_pos := ?_
      stage_lt := fun t ht => absurd rfl ht
      record_lt := fun r hr => lt_recovered_next_txn_id h hs hr
      commit_ne_zero := fun hc => h.txns.commit_ne_zero (hsub hc)
      commit_last := h.txns.commit_last.sublist (take_sublist _ _)
      not_both := fun t hc ha => h.txns.not_both t (hsub hc) (hsub ha)
      aborted := fun t ht hc => ?_
      stages := fun t h0 hb => ?_ }
  · change t ∈ (recover (w.files survived)).tm.active_txns ↔ _
    rw [recover_active_txns]
    simp [reopened]
  · exact lt_of_lt_of_le (Nat.succ_pos _) (le_trans (le_max_right _ _) (le_max_right _ _))
  · have := recovered_not_aborted h hs hc
    rw [show (w.reopened survived).tm = (recover (w.files survived)).tm from rfl, this] at ht
    cases ht
  by_cases hc : .Commit t ∈ w.log.take survived
  · exact .inl hc
  by_cases hl : Unlogged (w.log.take survived) t
  · exact .inr (.inr hl)
  refine .inr (.inl (recovered_aborted h hs h0 hl hc ?_))
  intro c hcp
  refine le_trans (le_of_eq ?_) hb
  simp [reopened, recover, hcp]

theorem pagesGood_reopened (h : Good w) (hs : w.flushed ≤ survived)
    (hle : survived ≤ w.log.length) : PagesGood (w.reopened survived) := by
  have hlen : (w.log.take survived).length = survived := by
    rw [length_take]
    omega
  have hin := (recovered_pages h hs).take
  refine
    { mem_in := hin.le hlen.ge
      disk_in := hin
      flushed_le := hlen.ge
      changes := fun n r hat b hb => ?_
      block_lt := fun r hr b hb => ?_
      late_in := by simp [reopened]
      three_le := ⟨le_trans h.pages.three_le.1 (le_length_after _ _ _ _),
        le_trans h.pages.three_le.1 (le_max_left _ _)⟩ }
  · have hn : n ≤ survived := le_trans hat.le_length hlen.le
    change ChangeIn ((w.log.take survived).take n) n b.2
    rw [take_take, Nat.min_eq_left hn]
    exact h.pages.changes n r (hat.mono (List.take_prefix _ _)) b hb
  · exact lt_recovered_next_page_id h hs (.inr ⟨r, hr, b, hb, rfl⟩)

theorem checkpointsGood_reopened (h : Good w) (hs : w.flushed ≤ survived)
    (hle : survived ≤ w.log.length) : CheckpointsGood (w.reopened survived) := by
  have hhor : ∀ c, (w.files survived).checkpoint = some c →
      (w.reopened survived).vacuum_horizon = c.vacuum_horizon := by
    intro c hc
    simp [reopened, recover, hc]
  refine
    { one := Nat.zero_le _
      flights := by simp [reopened]
      superblock := fun lsn hl => ?_
      fresh := fun hn => ?_
      base_le := le_refl _
      segments_ne := h.checkpoints.segments_ne
      segments_pos := h.checkpoints.segments_pos }
  · rcases files_cases h hs with ⟨hnone, _⟩ | ⟨lsn', c, hsb, hn, hcp, _, _⟩
    · exact absurd (hnone.symm.trans hl) (by simp)
    obtain rfl : lsn' = lsn := Option.some.inj (hsb.symm.trans hl)
    obtain ⟨hat, hfl, hgood, _, _, hfirst, hredo⟩ := hn
    have hlen : (w.log.take survived).length = survived := by
      rw [length_take]
      omega
    refine ⟨c, hat.take (by omega), le_trans hfl hs, ?_, (hhor c hcp).le, (hhor c hcp).ge,
      hfirst, hredo⟩
    refine hgood.mono (before_take (by omega)) ?_
    change c.redo_point ≤ (w.log.take survived).length + 1
    omega
  have hn' : w.superblock = none := hn
  refine ⟨?_, (h.checkpoints.fresh hn').2⟩
  simp [reopened, recover, Files.checkpoint, files, hn']

theorem good_crash {w' : Engine} (h : Good w) (hw : w.step (.crash survived) = some w') :
    Good w' := by
  obtain ⟨hcond, ⟨⟩⟩ := ite_none_right_eq_some.mp hw
  exact ⟨txnsGood_reopened h hcond.1, pagesGood_reopened h hcond.1 hcond.2,
    checkpointsGood_reopened h hcond.1 hcond.2⟩

end Crash

/-! ## Every run -/

theorem good_new : Good new := by
  have hcreated : PagesIn [] 0 created := by
    intro p
    unfold created
    by_cases hp : p = 0
    · subst hp
      simp [PageAt, PageIn, LinkIn]
    · simp [update_of_ne hp, TreePage.zero, PageAt, PageIn]
  refine ⟨?_, ?_, ?_⟩
  · exact
      { active_iff := fun t => by simp [new, TransactionManager.new]
        zero_idle := rfl
        next_pos := Nat.one_pos
        stage_lt := fun t ht => absurd rfl ht
        record_lt := by simp [new]
        commit_ne_zero := by simp [new]
        commit_last := List.Pairwise.nil
        not_both := by simp [new]
        aborted := by simp [new]
        stages := fun t _ _ => .inr (.inr (by simp [Unlogged, new])) }
  · exact
      { mem_in := hcreated
        disk_in := hcreated
        flushed_le := le_refl _
        changes := fun n r hat => absurd hat.mem (by simp [new])
        block_lt := by simp [new]
        late_in := by simp [new]
        three_le := ⟨le_refl _, le_refl _⟩ }
  exact
    { one := Nat.zero_le _
      flights := by simp [new]
      superblock := by simp [new]
      fresh := fun _ => ⟨rfl, rfl⟩
      base_le := le_refl _
      segments_ne := by simp [new]
      segments_pos := by simp [new] }

theorem good_step {w w' : Engine} {e : Event} (h : Good w) (hok : InOrder w e)
    (hw : w.step e = some w') : Good w' := by
  cases e with
  | begin => exact good_begin h hw
  | read_snapshot | end_read token | sweep_start => cases hw; exact good_readers h
  | note_write t => exact good_note_write h hw
  | insert t page_id slot links => exact good_insert h hw
  | set_xmax t page_id slot => exact good_set_xmax h hw
  | overflow_write t page_id links => exact good_overflow_write h hw
  | system blocks late => exact good_system h hw
  | late_stamp i => exact good_late_stamp h hok hw
  | alloc => exact good_alloc h hw
  | log_commit t => exact good_log_commit h hw
  | mark_committed t => exact good_mark_committed h hw
  | log_abort t => exact good_log_abort h hw
  | mark_aborted t => exact good_mark_aborted h hw
  | settle t => exact good_settle h hw
  | sweep_finish i => exact good_sweep_finish h hw
  | flush lsn rotations => exact good_flush h hw
  | write_page page_id => exact good_write_page h hw
  | checkpoint => exact good_checkpoint h hok hw
  | checkpoint_next i => exact good_checkpoint_next h hw
  | flush_all_pages i => exact good_flush_all_pages h hw
  | flush_some_pages i => exact good_flush_some_pages h hw
  | crash survived => exact good_crash h hw

theorem good_run {w : Engine} {p : List Event} (hp : Runs.Meets step InOrder new p)
    (hrun : Runs.run step new p = some w) : Good w :=
  Runs.inv_run_meets (fun _ _ _ h hok hw => good_step h hok hw) good_new hp hrun

/-- The transaction is the creator or the deleter of a row version on one of the pages. -/
def Stamped (pages : Nat → TreePage) (t : Nat) : Prop :=
  t ≠ 0 ∧ ∃ p, ∃ v ∈ (pages p).rows, v.xmin = t ∨ v.xmax = t

theorem Stamped.logged {w : Engine} {survived t : Nat} (hp : PagesIn w.log survived pages)
    (h : Stamped pages t) : ∃ r ∈ w.log.take survived, r.txn_id = t := by
  obtain ⟨h0, p, v, hv, ht⟩ := h
  obtain ⟨hpage, hle, _⟩ := hp p
  obtain ⟨⟨r, hat, hr⟩, hx⟩ := hpage.1 v hv
  rcases ht with rfl | rfl
  · exact ⟨r, mem_of_mem_take hat.mem hle, hr⟩
  rcases hx with hx | ⟨r, hr, hrt⟩
  · exact absurd hx h0
  · exact ⟨r, mem_of_mem_take hr hle, hrt⟩

/-- A checkpoint up to its record, which is then flushed (a new segment may start) and
followed by the flush of the pages. -/
def checkpointTo (lsn : Nat) (rotations : List Nat) : List Event :=
  .checkpoint :: List.replicate 6 (.checkpoint_next 0) ++
    [.flush lsn rotations, .checkpoint_next 0, .flush_all_pages 0]

/-- A late stamp that lowers a page's LSN lets the page be written before the last record on
it is flushed: the transaction has left a row on the disk and nothing in the log. -/
example : ∃ w, Runs.run step new [.begin, .note_write 1, .alloc, .alloc,
      .system [(1, .image [] [3]), (3, .image [] [])] [],
      .system [(4, .image [] [1, 3]), (0, .link [4])] [(1, [])],
      .insert 1 1 0 [], .late_stamp 0, .flush 2 [], .write_page 1] = some w ∧
    Stamped (recover (w.files 2)).pages 1 ∧ (recover (w.files 2)).tm.is_aborted 1 = false := by
  refine ⟨_, rfl, ⟨by decide, 1, ⟨3, 1, 0⟩, by decide, .inl rfl⟩, ?_⟩
  decide +kernel

end FluxDB.Engine
