-- Checkpoints: what a call of `checkpoint` has captured by each of its stages stays right
-- while transactions and sweeps go on, and each of its own steps adds to it.
import FluxDB.EngineInvariant

namespace FluxDB.Engine

open Maps List

/-! ## What every step keeps of a checkpoint -/

section Checkpoints

variable {log log' : List LogRecord} {c : CheckpointData} {w w' : Engine} {f f' : Flight}

theorem before_subset (log : List LogRecord) (c : CheckpointData) : before log c ⊆ log :=
  take_subset _ _

theorem before_append (l : List LogRecord) (h : c.redo_point ≤ log.length + 1) :
    before (log ++ l) c = before log c :=
  take_append_of_le_length (by omega)

variable {l : List LogRecord} {n : Nat}

theorem before_take (h : c.redo_point ≤ n + 1) : before (log.take n) c = before log c := by
  unfold before
  rw [take_take, Nat.min_eq_left (by omega)]

theorem DataGood.mono (h : DataGood log c) (hbefore : before log' c = before log c)
    (hle : c.redo_point ≤ log'.length + 1) : DataGood log' c where
  redo_pos := h.redo_pos
  redo_le := hle
  txns := fun r hr => h.txns r (hbefore ▸ hr)
  pages := fun r hr => h.pages r (hbefore ▸ hr)
  active := fun t ht => hbefore ▸ h.active t ht
  listed := fun t h0 hv hl hc => h.listed t h0 hv (hbefore ▸ hl) (hbefore ▸ hc)
  pinned := fun t ht => hbefore ▸ h.pinned t ht

theorem Captured.mono (h : Captured w c n) (hbefore : before w'.log c = before w.log c)
    (hab : ∀ t, ¬ Unlogged w.log t → w.tm.is_aborted t = true → w'.tm.is_aborted t = true)
    (hbase : w'.base = w.base) (hhorizon : w.vacuum_horizon ≤ w'.vacuum_horizon) :
    Captured w' c n where
  txns hn r hr := h.txns hn r (hbefore ▸ hr)
  active hn := ⟨fun t ht => hbefore ▸ (h.active hn).1 t ht, fun t h0 hb hl hc =>
    ((h.active hn).2 t h0 (hbase ▸ hb) (hbefore ▸ hl) (hbefore ▸ hc)).imp_right
      (hab t fun hu => hl fun r hr => hu r (before_subset _ _ (hbefore ▸ hr)))⟩
  horizon hn := ⟨hbase ▸ (h.horizon hn).1, le_trans (h.horizon hn).2 hhorizon⟩
  pinned hn := ⟨fun t h0 hv hl hc => (h.pinned hn).1 t h0 hv (hbefore ▸ hl) (hbefore ▸ hc),
    fun t ht => hbefore ▸ (h.pinned hn).2 t ht⟩
  pages hn r hr := h.pages hn r (hbefore ▸ hr)

/-- After the fifth field nothing more is captured. -/
theorem Captured.up {m : Nat} (h : Captured w c n) (hn : 5 ≤ n) : Captured w c m where
  txns _ := h.txns (by omega)
  active _ := h.active (by omega)
  horizon _ := h.horizon (by omega)
  pinned _ := h.pinned (by omega)
  pages _ := h.pages hn

section Frames

variable {tm : TransactionManager} {stage : Nat → Stage} {sweeps segments : List Nat}
  {vacuum_horizon flushed num_pages next_page_id : Nat} {mem disk : Nat → TreePage}
  {late : List LateStamp} {checkpoints : List Flight} (hlog : log = w.log ++ l)
  (hab : ∀ t, ¬ Unlogged w.log t → w.tm.is_aborted t = true → tm.is_aborted t = true)
  (hhorizon : w.vacuum_horizon ≤ vacuum_horizon) (hflushed : w.flushed ≤ flushed)

include hlog hhorizon hflushed

theorem Named.mono {lsn : Nat} {superblock : Option Nat} (h : Named w lsn c)
    (hfirst : segments.headD 1 ≤ c.redo_point) :
    Named { w with
      tm, stage, sweeps, segments, vacuum_horizon, flushed, num_pages, next_page_id, mem, disk,
      late, checkpoints, log, superblock } lsn c := by
  subst hlog
  obtain ⟨hat, hle, hgood, hb, hv, _, hredo⟩ := h
  refine ⟨hat.mono (List.prefix_append _ _), le_trans hle hflushed, ?_, hb, le_trans hv hhorizon,
    hfirst, hredo⟩
  have := hgood.redo_le
  apply hgood.mono (before_append l hgood.redo_le)
  rw [length_append]
  omega

include hab

/-- Records are appended, the commit log gets more aborted transactions, and the flushed
part and the horizon grow. -/
theorem FlightGood.mono (h : FlightGood w f) (hfirst : segments.headD 1 = w.first_lsn)
    (hquiet : f.stage.capturing = true → (∀ t, .Commit t ∉ l) ∧
      ((∀ t, (w.stage t).guarded = false) → ∀ t, (stage t).guarded = false)) :
    FlightGood { w with
      tm, stage, sweeps, segments, vacuum_horizon, flushed, num_pages, next_page_id, mem, disk,
      late, checkpoints, log } f := by
  subst hlog
  have hbefore : before (w.log ++ l) f.data = before w.log f.data := before_append l h.redo_le
  refine
    { redo_pos := h.redo_pos
      redo_le := ?_
      first_le := hfirst.trans_le h.first_le
      quiet := fun hc => ⟨(hquiet hc).2 (h.quiet hc).1, fun t ht => ?_⟩
      captured := h.captured.mono hbefore hab rfl hhorizon
      logged := fun hn => ⟨(h.logged hn).1.mono (List.prefix_append _ _), (h.logged hn).2⟩
      synced := fun hn => le_trans (h.synced hn) hflushed
      named := h.named }
  · have := h.redo_le
    dsimp only
    rw [length_append]
    omega
  dsimp only at ht ⊢
  rw [hbefore]
  rw [mem_append] at ht
  exact ht.elim ((h.quiet hc).2 t) (fun ht => absurd ht ((hquiet hc).1 t))

/-- A step that is no checkpoint's own. -/
theorem CheckpointsGood.frame (h : CheckpointsGood w)
    (hquiet : ∀ f ∈ w.checkpoints, f.stage.capturing = true → (∀ t, .Commit t ∉ l) ∧
      ((∀ t, (w.stage t).guarded = false) → ∀ t, (stage t).guarded = false)) :
    CheckpointsGood { w with
      tm, stage, sweeps, vacuum_horizon, flushed, num_pages, next_page_id, mem, disk, late,
      log } := by
  refine
    { h with
      flights := fun f hf => ?_
      superblock := fun lsn hl => ?_
      base_le := le_trans h.base_le hhorizon }
  · exact (h.flights f hf).mono hlog hab hhorizon hflushed rfl (hquiet f hf)
  obtain ⟨c, hc⟩ := h.superblock lsn hl
  exact ⟨c, hc.mono hlog hhorizon hflushed hc.2.2.2.2.2.1⟩

end Frames

theorem checkpoints_eq (h : w.checkpoints.length ≤ 1) {i : Nat} (hi : w.checkpoints[i]? = some f) :
    w.checkpoints = [f] ∧ i = 0 := by
  match hc : w.checkpoints, i with
  | [], i => simp [hc] at hi
  | [g], 0 => simp [hc] at hi; exact ⟨by rw [hi], rfl⟩
  | [g], i + 1 => simp [hc] at hi
  | a :: b :: rest, i => simp [hc] at h

/-- One checkpoint takes a step of its own that leaves the superblock and the segments. -/
theorem CheckpointsGood.flight {num_pages : Nat} {mem disk : Nat → TreePage} (h : CheckpointsGood w)
    (hlog : log = w.log ++ l)
    (hf : FlightGood { w with log, num_pages, mem, disk, checkpoints := [f] } f) :
    CheckpointsGood { w with log, num_pages, mem, disk, checkpoints := [f] } := by
  refine
    { h with
      one := le_refl _
      flights := forall_mem_singleton.mpr hf
      superblock := fun lsn hl => ?_ }
  obtain ⟨c, hc⟩ := h.superblock lsn hl
  exact ⟨c, hc.mono hlog (le_refl _) (le_refl _) hc.2.2.2.2.2.1⟩

end Checkpoints

/-! ## A checkpoint's own steps -/

section Captures

variable {log : List LogRecord} {c : CheckpointData} {w w' : Engine} {f f' : Flight}

/-- With no guard held, a transaction that is in the active set has no Commit record. -/
theorem TxnsGood.uncommitted_of_active (h : TxnsGood w) {t : Nat} (ht : w.stage t ≠ .idle)
    (hg : (w.stage t).guarded = false) : .Commit t ∉ w.log := by
  have hs := h.stages t
  cases hst : w.stage t with
  | idle => exact absurd hst ht
  | running wrote => rw [hst] at hs; exact hs.1
  | committing lsn | aborting => simp [hst, Stage.guarded] at hg
  | settled guarded =>
    cases guarded with
    | true => simp [hst, Stage.guarded] at hg
    | false => rw [hst] at hs; exact fun hc => hs _ hc rfl

theorem activeOpen_capture (ht : TxnsGood w) (h : FlightGood w f) (hc : f.stage.capturing = true) :
    ActiveOpen w.log { f.data with active_txns := w.tm.active_txns.keys } := by
  intro t hmem hcommit
  have hst : w.stage t ≠ .idle := (ht.active_iff t).mp hmem
  exact ht.uncommitted_of_active hst ((h.quiet hc).1 t) (before_subset _ _ hcommit)

theorem openListed_capture (ht : TxnsGood w) (h : FlightGood w f) (hc : f.stage.capturing = true) :
    OpenListed w.log { f.data with active_txns := w.tm.active_txns.keys } w.tm w.base := by
  intro t h0 hb hl hcommit
  by_cases hst : w.stage t = .idle
  · have hs := ht.stages t
    rw [hst] at hs
    rcases hs h0 hb with hs | hs | hs
    · exact absurd ((h.quiet hc).2 t hs) hcommit
    · exact .inr hs
    · exact absurd (fun r hr => hs r (before_subset _ _ hr)) hl
  · exact .inl ((ht.active_iff t).mpr hst)

theorem mem_aborted_from {v t : Nat} :
    t ∈ w.aborted_from v ↔ w.tm.is_aborted t = true ∧ v ≤ t := by
  unfold aborted_from
  simp only [mem_filter, Bool.and_eq_true, decide_eq_true_eq, and_iff_right_iff_imp, and_imp]
  intro ha _
  exact mem_of_lookup_eq_some (is_aborted_iff.mp ha)

/-- One field more is captured under the status guard. -/
theorem FlightGood.capture {data : CheckpointData} {stage : CheckpointStage} (h : FlightGood w f)
    (hredo : data.redo_point = f.data.redo_point) (hstage : f.stage.capturing = true)
    (hnum : stage.num ≤ 5) (hc : Captured w data stage.num) : FlightGood w ⟨data, stage, 0⟩ where
  redo_pos := hredo ▸ h.redo_pos
  redo_le := hredo ▸ h.redo_le
  first_le := hredo ▸ h.first_le
  quiet _ := by
    unfold before
    rw [hredo]
    exact h.quiet hstage
  captured := hc
  logged hn := absurd hn (by simp only; omega)
  synced hn := absurd hn (by simp only; omega)
  named hn := absurd hn (by simp only; omega)

/-- One step of a checkpoint keeps what it has got right and adds to it. -/
theorem FlightGood.advance (ht : TxnsGood w) (hp : PagesGood w) (hbase : w.base ≤ w.vacuum_horizon)
    (h : FlightGood w f) (hadv : w.advance f = some (w', f')) : FlightGood w' f' := by
  obtain ⟨data, stage, lsn⟩ := f
  have hcap := h.captured
  cases stage with
  | redo =>
    cases hadv
    refine h.capture rfl rfl (by decide) ?_
    exact
      { txns := fun _ r hr => ht.record_lt r (before_subset _ _ hr)
        active := by simp, horizon := by simp, pinned := by simp, pages := by simp }
  | next_txn =>
    cases hadv
    refine h.capture rfl rfl (by decide) ?_
    exact
      { txns := fun _ => hcap.txns (le_refl _)
        active := fun _ => ⟨activeOpen_capture ht h rfl, openListed_capture ht h rfl⟩
        horizon := by simp, pinned := by simp, pages := by simp }
  | active =>
    cases hadv
    refine h.capture rfl rfl (by decide) ?_
    exact
      { txns := fun _ => hcap.txns (by simp)
        active := fun _ => hcap.active (le_refl _)
        horizon := fun _ => ⟨hbase, le_refl _⟩
        pinned := by simp, pages := by simp }
  | horizon =>
    cases hadv
    have hhor := hcap.horizon (le_refl _)
    have hact := hcap.active (by simp)
    refine h.capture rfl rfl (by decide) ?_
    exact
      { txns := fun _ => hcap.txns (by simp)
        active := fun _ => hact
        horizon := fun _ => hhor
        pinned := fun _ => ⟨fun t h0 hv hl hc => (hact.2 t h0 (le_trans hhor.1 hv) hl hc).imp_right
              (fun ha => mem_aborted_from.mpr ⟨ha, hv⟩),
          fun t hm hc => ht.aborted t (mem_aborted_from.mp hm).1 (before_subset _ _ hc)⟩
        pages := by simp }
  | pinned =>
    cases hadv
    refine h.capture rfl rfl (by decide) ?_
    exact
      { txns := fun _ => hcap.txns (by simp)
        active := fun _ => hcap.active (by simp)
        horizon := fun _ => hcap.horizon (by simp)
        pinned := fun _ => hcap.pinned (le_refl _)
        pages := fun _ r hr => hp.block_lt r (before_subset _ _ hr) }
  | pages =>
    cases hadv
    have h' : FlightGood (w.log_blocks (.Checkpoint data) []) ⟨data, .pages, lsn⟩ :=
      h.mono (l := [.Checkpoint data]) rfl (fun _ _ h => h) (le_refl _) (le_refl _) rfl
        (fun hc => by simp [CheckpointStage.capturing] at hc)
    exact
      { redo_pos := h.redo_pos, redo_le := h'.redo_le, first_le := h'.first_le
        quiet := fun hc => by simp [CheckpointStage.capturing] at hc
        captured := h'.captured.up (le_refl _)
        logged := fun _ => ⟨at_append w.log _, h.redo_le⟩
        synced := by simp, named := by simp }
  | logged =>
    obtain ⟨hle, ⟨⟩⟩ := Option.ite_none_right_eq_some.mp hadv
    exact
      { redo_pos := h.redo_pos, redo_le := h.redo_le, first_le := h.first_le
        quiet := fun hc => by simp [CheckpointStage.capturing] at hc
        captured := hcap.up (by simp)
        logged := fun _ => h.logged (le_refl _)
        synced := fun _ => hle
        named := by simp }
  | synced => cases hadv
  | flushed =>
    cases hadv
    exact
      { redo_pos := h.redo_pos, redo_le := h.redo_le, first_le := h.first_le
        quiet := fun hc => by simp [CheckpointStage.capturing] at hc
        captured := (hcap.up (by simp)).mono rfl (fun _ _ h => h) rfl (le_refl _)
        logged := fun _ => h.logged (by simp)
        synced := fun _ => h.synced (by simp)
        named := fun _ => rfl }
  | named => cases hadv

end Captures

end FluxDB.Engine
