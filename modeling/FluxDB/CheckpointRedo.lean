-- The redo point of a checkpoint. While the checkpoint walks over the frames, every older
-- record is on disk, or in a frame that is still to be visited, or in the flush the
-- checkpoint waits for; at the sync all of them are on disk.
import FluxDB.RecordCover

namespace FluxDB

open Option

/-! ## What a checkpoint still has to reach -/

def Checkpoint.redo : Checkpoint → Option Nat
  | .idle => none
  | .started r | .visiting r _ | .flushing r _ _ | .waiting r _ _ | .synced r => some r

/-- The frame of the page is still to be visited, or was found dirty just now. -/
def Checkpoint.Pending : Checkpoint → Nat → Nat → Prop
  | .started _, _, _ => True
  | .visiting _ cursor, _, f => cursor ≤ f
  | .flushing _ cursor q, p, f => cursor < f ∨ (f = cursor ∧ p = q)
  | .waiting _ cursor _, _, f => cursor < f
  | _, _, _ => False

namespace Pool

/-- The record is on disk, or the checkpoint will still flush the page that has it. -/
def Reached (w : Pool) (p l : Nat) : Prop :=
  l ≤ w.disk p ∨
  (∃ f, w.page_table p = some f ∧ w.checkpoint.Pending p f ∧ w.Kept p l) ∨
  ∃ (r cursor k : Nat) (fl : Flight), w.checkpoint = .waiting r cursor k ∧
    w.flights[k]? = some fl ∧ (fl.Carries p l ∨ fl.stage = .failed)

/-- The condition on the steps: besides the order of flushes, the redo point is read when no
live guard has written and no stamp is outstanding, and the checkpoint visits no frame under
a flush of another thread. -/
def CheckpointAlone (w : Pool) (e : PoolEvent) : Prop :=
  w.Orderly e ∧
    match e, w.checkpoint with
    | .read_redo_point, _ => ∀ t ∈ w.pages.tasks, owed t.todo = [] ∧ t.wrote = []
    | .visit_frame, .visiting _ cursor => w.flightsOn cursor = 0
    | _, _ => True

instance decidableCheckpointAlone (w : Pool) (e : PoolEvent) : Decidable (w.CheckpointAlone e) := by
  unfold CheckpointAlone
  refine @instDecidableAnd _ _ _ ?_
  generalize w.checkpoint = c
  induction e using PoolEvent.casesOn
  case visit_frame => induction c using Checkpoint.casesOn <;> dsimp only <;> infer_instance
  all_goals dsimp only; infer_instance

structure Sound (w : Pool) : Prop where
  flushed : w.Flushed
  redo_le : ∀ r, w.checkpoint.redo = some r → r ≤ w.pages.next_lsn
  reached : ∀ r, w.checkpoint.redo = some r → ∀ x ∈ w.pages.log, x.1 < r → ∀ p ∈ x.2,
    x.1 ∈ w.pages.stamped p ∧ w.Reached p x.1
  synced : ∀ r, w.checkpoint = .synced r → ∀ x ∈ w.pages.log, x.1 < r → ∀ p ∈ x.2,
    x.1 ≤ w.synced p

/-! ## Steps of the other threads -/

variable {w w' : Pool} {p : Nat}

theorem Reached.of_later {l : Nat} (h : w.Reached p l) (hl : Later w w')
    (hmem : l ∈ w.pages.stamped p) (hck : w'.checkpoint = w.checkpoint) : w'.Reached p l := by
  rcases h with hd | ⟨f, hf, hpend, hk⟩ | ⟨r, c, k, fl, hck', hk, hc | hs⟩
  · exact .inl (hd.trans (hl.disk p))
  · rcases hl.kept p l hmem hk with hd | ⟨hk, htable⟩
    · exact .inl hd
    · exact .inr (.inl ⟨f, by rwa [htable], by rwa [hck], hk⟩)
  · rcases hl.carries k fl p l hmem hk hc with hd | ⟨gl, hk, hgl⟩
    · exact .inl hd
    · exact .inr (.inr ⟨r, c, k, gl, by rwa [hck], hk, hgl⟩)
  obtain ⟨gl, hk, hs⟩ := hl.failed k fl hk hs
  exact .inr (.inr ⟨r, c, k, gl, by rwa [hck], hk, .inr hs⟩)

/-- What a step outside the checkpoint leaves alone, and that the log only grows. -/
structure Beside (w w' : Pool) : Prop where
  checkpoint : w'.checkpoint = w.checkpoint
  synced : w'.synced = w.synced ∨ w'.synced = w'.disk
  next : w.pages.next_lsn ≤ w'.pages.next_lsn
  stamped : ∀ p, w.pages.stamped p ⊆ w'.pages.stamped p
  log : ∀ r ∈ w'.pages.log, r ∈ w.pages.log ∨ w.pages.next_lsn ≤ r.1

theorem Beside.of_frames (hck : w'.checkpoint = w.checkpoint)
    (hsync : w'.synced = w.synced ∨ w'.synced = w'.disk)
    (hnext : w'.pages.next_lsn = w.pages.next_lsn) (hstamped : w'.pages.stamped = w.pages.stamped)
    (hlog : w'.pages.log = w.pages.log) : Beside w w' where
  checkpoint := hck
  synced := hsync
  next := hnext.ge
  stamped p := by rw [hstamped]; exact List.Subset.refl _
  log r hr := .inl (by rwa [hlog] at hr)

theorem Beside.of_pages {e : PagesEvent} (hck : w'.checkpoint = w.checkpoint)
    (hsync : w'.synced = w.synced) (hpages : w.pages.step e = some w'.pages) : Beside w w' :=
  have heff := Pages.effect_step hpages
  ⟨hck, .inl hsync, heff.next, heff.stamped, heff.log⟩

theorem act_frames_keeps {v : Pool} {i : Nat} {todo : List Action}
    (h : w.act_frames i todo = some v) : v.checkpoint = w.checkpoint ∧ v.synced = w.synced := by
  unfold act_frames at h
  split at h
  · unfold pin_page at h; split at h <;> cases h; exact ⟨rfl, rfl⟩
  · unfold pin_page at h; split at h <;> cases h; exact ⟨rfl, rfl⟩
  · cases h
    unfold unpin_page
    split
    · split <;> exact ⟨rfl, rfl⟩
    · exact ⟨rfl, rfl⟩
  · cases h; exact ⟨rfl, rfl⟩

theorem beside_page {e : PagesEvent} (hw : w.step (.page e) = some w') : Beside w w' := by
  have hpages := (later_page hw).2.2.2.1
  simp only [step] at hw
  split at hw
  · cases e with
    | act i =>
      simp only [map_eq_some_iff] at hw
      obtain ⟨v, hv, rfl⟩ := hw
      obtain ⟨hck, hsync⟩ := act_frames_keeps hv
      exact Beside.of_pages hck hsync hpages
    | _ => cases hw; exact Beside.of_pages rfl rfl hpages
  · cases hw

/-- A step keeps the law if each record below the redo point is still to be reached. -/
theorem Sound.of_move (h : w.Sound) (hf : w'.Flushed)
    (hredo : w'.checkpoint.redo = w.checkpoint.redo)
    (hnext : w.pages.next_lsn ≤ w'.pages.next_lsn)
    (hstamped : ∀ p, w.pages.stamped p ⊆ w'.pages.stamped p)
    (hlog : ∀ r ∈ w'.pages.log, r ∈ w.pages.log ∨ w.pages.next_lsn ≤ r.1)
    (hreach : ∀ p l, l ∈ w.pages.stamped p → w.Reached p l → w'.Reached p l)
    (hsync : ∀ r, w'.checkpoint = .synced r → ∀ x ∈ w.pages.log, x.1 < r → ∀ p ∈ x.2,
      w.Reached p x.1 → x.1 ≤ w'.synced p) : w'.Sound := by
  -- a record below the redo point was logged before this step
  have hold {r : Nat} (hr : w'.checkpoint.redo = some r) {x : Nat × List Nat}
      (hx : x ∈ w'.pages.log) (hlt : x.1 < r) : x ∈ w.pages.log := by
    rw [hredo] at hr
    have := h.redo_le r hr
    rcases hlog x hx with hx | hx
    · exact hx
    · omega
  refine ⟨hf, ?_, ?_, ?_⟩
  · intro r hr
    rw [hredo] at hr
    exact (h.redo_le r hr).trans hnext
  · intro r hr x hx hlt p hp
    have hx := hold hr hx hlt
    rw [hredo] at hr
    obtain ⟨hmem, hreached⟩ := h.reached r hr x hx hlt p hp
    exact ⟨hstamped p hmem, hreach p x.1 hmem hreached⟩
  intro r hr x hx hlt p hp
  have hr' : w'.checkpoint.redo = some r := by rw [hr]; rfl
  have hx := hold hr' hx hlt
  rw [hredo] at hr'
  exact hsync r hr x hx hlt p hp (h.reached r hr' x hx hlt p hp).2

theorem Sound.of_beside (h : w.Sound) (hf : w'.Flushed) (hl : Later w w') (hb : Beside w w') :
    w'.Sound := by
  refine h.of_move hf (by rw [hb.checkpoint]) hb.next hb.stamped hb.log
    (fun p l hmem hr => hr.of_later hl hmem hb.checkpoint) fun r hr x hx hlt p hp hreached => ?_
  rw [hb.checkpoint] at hr
  rcases hb.synced with hs | hs
  · rw [hs]; exact h.synced r hr x hx hlt p hp
  rw [hs]
  rcases hreached with hd | ⟨f, _, hpend, _⟩ | ⟨_, _, _, _, hck, _⟩
  · exact hd.trans (hl.disk p)
  · rw [hr] at hpend; cases hpend
  · rw [hr] at hck; cases hck

/-! ## Steps of the checkpoint -/

theorem sound_idle (hf : w.Flushed) (hidle : w.checkpoint = .idle) : w.Sound :=
  ⟨hf, by simp [hidle, Checkpoint.redo], by simp [hidle, Checkpoint.redo], by simp [hidle]⟩

theorem sound_read_redo_point (h : w.Sound) (hf : w'.Flushed)
    (hok : w.CheckpointAlone .read_redo_point) (hw : w.step .read_redo_point = some w') :
    w'.Sound := by
  simp only [step] at hw
  split at hw <;> cases hw
  refine ⟨hf, ?_, ?_, ?_⟩
  · intro r hr
    cases hr
    exact le_rfl
  · intro r _ x hx _ p hp
    have hmem : x.1 ∈ w.pages.stamped p := by
      rcases h.flushed.logged x hx p hp with hmem | ⟨t, ht, _, howed⟩
      · exact hmem
      · rw [(hok.2 t ht).1] at howed; cases howed
    refine ⟨hmem, ?_⟩
    rcases h.flushed.covered p x.1 hmem with hd | hk | ⟨t, ht, hw⟩
    · exact .inl hd
    · obtain ⟨f, hf⟩ : ∃ f, w.page_table p = some f := by
        rcases hk with ⟨f, hf, _⟩ | ⟨k, fl, hk, hc⟩
        · exact ⟨f, hf⟩
        · exact ⟨fl.frame, hc.1 ▸ h.flushed.pinned.flights fl (List.mem_of_getElem? hk) hc.active⟩
      exact .inr (.inl ⟨f, hf, trivial, hk⟩)
    · rw [(hok.2 t ht).2] at hw; cases hw
  intro r hr
  cases hr

/-- A page that sits in a frame without a flush in flight and is not dirty is not kept. -/
theorem not_kept_of_clean {f l : Nat} (hf : w.page_table p = some f)
    (hclean : (w.metadata f).is_dirty = false) (hno : w.NoFlight p) : ¬ w.Kept p l := by
  rintro (⟨g, hg, hd⟩ | ⟨k, fl, hk, hc⟩)
  · rw [hf] at hg
    cases hg
    rw [hclean] at hd
    cases hd
  · exact hno fl (List.mem_of_getElem? hk) hc.active hc.1

theorem noFlight_of_frame (h : w.Pinned) {f : Nat} (hf : w.page_table p = some f)
    (hno : w.flightsOn f = 0) : w.NoFlight p := by
  rintro fl hfl hact rfl
  have hframe : fl.frame = f := Option.some.inj ((h.flights fl hfl hact).symm.trans hf)
  have : 0 < w.flightsOn f := flightsOn_pos_iff.mpr ⟨fl, hfl, hact, hframe⟩
  omega

theorem sound_visit_frame (h : w.Sound) (hf : w'.Flushed) (hok : w.CheckpointAlone .visit_frame)
    (hw : w.step .visit_frame = some w') : w'.Sound := by
  simp only [step] at hw
  split at hw
  swap
  · cases hw
  rename_i redo cursor hck
  split at hw
  swap
  · cases hw
  have hno : w.flightsOn cursor = 0 := by simpa [hck] using hok.2
  have hredo : w.checkpoint.redo = some redo := by rw [hck]; rfl
  split at hw
  · rename_i q hq
    cases hw
    refine h.of_move hf hredo.symm le_rfl (fun _ _ h => h) (fun _ hr => .inl hr)
      ?_ (by rintro _ ⟨⟩)
    rintro p l hmem (hd | ⟨f, hpf, hpend, hk⟩ | ⟨_, _, _, _, hck', _⟩)
    · exact .inl hd
    · refine .inr (.inl ⟨f, hpf, ?_, hk⟩)
      rw [hck] at hpend
      rcases Nat.lt_or_eq_of_le hpend with hlt | rfl
      · exact .inl hlt
      right
      simp only [dirty_page, ite_none_right_eq_some] at hq
      rw [(h.flushed.pinned.table p cursor).mp hpf] at hq
      exact ⟨rfl, Option.some.inj hq.2⟩
    · rw [hck] at hck'; cases hck'
  rename_i hq
  cases hw
  refine h.of_move hf hredo.symm le_rfl (fun _ _ h => h) (fun _ hr => .inl hr) ?_ (by rintro _ ⟨⟩)
  rintro p l hmem (hd | ⟨f, hpf, hpend, hk⟩ | ⟨_, _, _, _, hck', _⟩)
  · exact .inl hd
  · refine .inr (.inl ⟨f, hpf, ?_, hk⟩)
    rw [hck] at hpend
    rcases Nat.lt_or_eq_of_le hpend with hlt | rfl
    · exact hlt
    -- the frame that is passed over is clean, so it keeps no record
    refine absurd hk (not_kept_of_clean hpf ?_ (noFlight_of_frame h.flushed.pinned hpf hno))
    rw [Bool.eq_false_iff]
    intro hd
    simp [dirty_page, hd, (h.flushed.pinned.table p cursor).mp hpf] at hq
  · rw [hck] at hck'; cases hck'

theorem sound_flush_visited (h : w.Sound) (hf : w'.Flushed)
    (hok : w.CheckpointAlone .flush_visited) (hw : w.step .flush_visited = some w') : w'.Sound := by
  simp only [step] at hw
  split at hw
  swap
  · cases hw
  rename_i redo cursor q hck
  have hno : w.NoFlight q := by simpa [Orderly, hck] using hok.1
  have hredo : w.checkpoint.redo = some redo := by rw [hck]; rfl
  split at hw
  · rename_i g hg
    cases hw
    have hg := (dirty_frame_eq_some.mp hg).1
    have hl := later_start_flush h.flushed.pinned hg
    refine h.of_move hf hredo.symm le_rfl (fun _ _ h => h) (fun _ hr => .inl hr)
      ?_ (by rintro _ ⟨⟩)
    rintro p l hmem (hd | ⟨f, hpf, hpend, hk⟩ | ⟨_, _, _, _, hck', _⟩)
    · exact .inl hd
    · rw [hck] at hpend
      rcases hpend with hlt | ⟨_, rfl⟩
      · rcases hl.kept p l hmem hk with hd | ⟨hk, _⟩
        · exact .inl hd
        · exact .inr (.inl ⟨f, hpf, hlt, hk⟩)
      exact .inr (.inr ⟨redo, cursor, w.flights.length, ⟨g, p, .copying⟩, rfl,
        by simp [start_flush], .inl ⟨rfl, .inl rfl⟩⟩)
    · rw [hck] at hck'; cases hck'
  rename_i hg
  cases hw
  refine h.of_move hf hredo.symm le_rfl (fun _ _ h => h) (fun _ hr => .inl hr) ?_ (by rintro _ ⟨⟩)
  rintro p l hmem (hd | ⟨f, hpf, hpend, hk⟩ | ⟨_, _, _, _, hck', _⟩)
  · exact .inl hd
  · rw [hck] at hpend
    rcases hpend with hlt | ⟨rfl, rfl⟩
    · exact .inr (.inl ⟨f, hpf, hlt, hk⟩)
    refine absurd hk (not_kept_of_clean hpf ?_ hno)
    rw [Bool.eq_false_iff]
    intro hd
    rw [dirty_frame_eq_some.mpr ⟨hpf, hd⟩] at hg
    cases hg
  · rw [hck] at hck'; cases hck'

theorem sound_flush_returned (h : w.Sound) (hf : w'.Flushed)
    (hw : w.step .flush_returned = some w') : w'.Sound := by
  simp only [step] at hw
  split at hw
  swap
  · cases hw
  rename_i redo cursor k hck
  have hredo : w.checkpoint.redo = some redo := by rw [hck]; rfl
  split at hw
  · rename_i hdone
    cases hw
    refine h.of_move hf hredo.symm le_rfl (fun _ _ h => h) (fun _ hr => .inl hr)
      ?_ (by rintro _ ⟨⟩)
    rintro p l hmem (hd | ⟨f, hpf, hpend, hk⟩ | ⟨_, _, j, fl, hck', hj, hc⟩)
    · exact .inl hd
    · rw [hck] at hpend
      exact .inr (.inl ⟨f, hpf, hpend, hk⟩)
    -- the flush that has returned carries nothing and has not failed
    rw [hck] at hck'
    cases hck'
    rw [hj] at hdone
    have hstage : fl.stage = .done := by simpa using hdone
    rcases hc with ⟨_, hc | ⟨_, hc, _⟩⟩ | hc <;> rw [hstage] at hc <;> cases hc
  · cases hw
    exact sound_idle hf rfl
  · cases hw

theorem sound_sync_checkpoint (h : w.Sound) (hf : w'.Flushed)
    (hw : w.step .sync_checkpoint = some w') : w'.Sound := by
  simp only [step] at hw
  split at hw
  swap
  · cases hw
  rename_i redo cursor hck
  have hredo : w.checkpoint.redo = some redo := by rw [hck]; rfl
  obtain ⟨rfl, ⟨⟩⟩ := ite_none_right_eq_some.mp hw
  -- no frame is left to be visited
  have hdisk {p l : Nat} (hr : w.Reached p l) : l ≤ w.disk p := by
    rcases hr with hd | ⟨f, hpf, hpend, _⟩ | ⟨_, _, _, _, hck', _⟩
    · exact hd
    · rw [hck] at hpend
      have hlt := h.flushed.pinned.bound p f hpf
      simp only [Checkpoint.Pending] at hpend
      omega
    · rw [hck] at hck'; cases hck'
  exact h.of_move hf hredo.symm le_rfl (fun _ _ h => h) (fun _ hr => .inl hr)
    (fun p l _ hr => .inl (hdisk hr)) fun _ _ _ _ _ _ _ hr => hdisk hr

theorem sound_log_checkpoint (h : w.Sound) (hf : w'.Flushed)
    (hw : w.step .log_checkpoint = some w') : w'.Sound := by
  simp only [step] at hw
  split at hw
  swap
  · cases hw
  rename_i redo pages hck hpages
  cases hw
  have hredo : w.checkpoint.redo = some redo := by rw [hck]; rfl
  have heff := Pages.effect_step hpages
  cases hpages
  refine h.of_move hf hredo.symm heff.next (fun _ _ h => h) heff.log ?_ (by rintro _ ⟨⟩)
  rintro p l hmem (hd | ⟨f, hpf, hpend, hk⟩ | ⟨_, _, _, _, hck', _⟩)
  · exact .inl hd
  · exact .inr (.inl ⟨f, hpf, Nat.zero_le f, hk⟩)
  · rw [hck] at hck'; cases hck'

/-! ## Every run -/

theorem sound_step {e : PoolEvent} (h : w.Sound) (hok : w.CheckpointAlone e)
    (hw : w.step e = some w') : w'.Sound := by
  obtain ⟨hf, hl⟩ := flushed_step h.flushed hok.1 hw
  cases e with
  | read_redo_point => exact sound_read_redo_point h hf hok hw
  | log_checkpoint => exact sound_log_checkpoint h hf hw
  | visit_frame => exact sound_visit_frame h hf hok hw
  | flush_visited => exact sound_flush_visited h hf hok hw
  | flush_returned => exact sound_flush_returned h hf hw
  | sync_checkpoint => exact sound_sync_checkpoint h hf hw
  | write_superblock =>
    simp only [step] at hw
    split at hw
    · cases hw; exact sound_idle hf rfl
    · cases hw
  | fail_checkpoint => cases hw; exact sound_idle hf rfl
  | page e => exact h.of_beside hf hl (beside_page hw)
  | sync_data => cases hw; exact h.of_beside hf hl (Beside.of_frames rfl (.inr rfl) rfl rfl rfl)
  | _ =>
    simp only [step, map_eq_some_iff] at hw
    repeat' split at hw
    all_goals first
      | cases hw
        exact h.of_beside hf hl (Beside.of_frames rfl (.inl rfl) rfl rfl rfl)
      | obtain ⟨_, _, rfl⟩ := hw
        exact h.of_beside hf hl (Beside.of_frames rfl (.inl rfl) rfl rfl rfl)
      | cases hw

/-- In every run whose steps meet the condition, when a checkpoint is about to write the
superblock with redo point `r`, every record below `r` is, for each page it touches, in a
page image that is on disk and synced. -/
theorem a_redo_point_leaves_no_record_behind {n r : Nat} {e : List PoolEvent} {w : Pool}
    (hm : Runs.Meets step CheckpointAlone (new n) e) (hrun : Runs.run step (new n) e = some w)
    (hck : w.checkpoint = .synced r) :
    ∀ x ∈ w.pages.log, x.1 < r → ∀ p ∈ x.2, x.1 ≤ w.synced p :=
  (Runs.inv_run_meets (I := Sound) (fun _ _ _ h hok hw => sound_step h hok hw)
    (sound_idle (flushed_new n) rfl) hm hrun).synced r hck

/-- A page is written and its guard is dropped before the checkpoint starts. -/
theorem a_checkpoint_after_the_guard_is_dropped :
    let e := [.load 1 0, .page (.start (.write 1 [] 1))] ++ List.replicate 5 (.page (.act 0)) ++
      [.drop_read_guard 1, .read_redo_point, .log_checkpoint, .visit_frame, .flush_visited,
        .copy_frame 0, .write_page 0, .finish_flush 0, .flush_returned, .sync_checkpoint]
    ∃ w, Runs.Meets step CheckpointAlone (new 1) e ∧ Runs.run step (new 1) e = some w ∧
      w.checkpoint = .synced 2 ∧ w.synced 1 = 1 ∧
      ∀ x ∈ w.pages.log, x.1 < 2 → ∀ p ∈ x.2, x.1 ≤ w.synced p := by
  intro e
  have hm : Runs.Meets step CheckpointAlone (new 1) e := by decide +kernel
  exact ⟨_, hm, rfl, rfl, rfl, a_redo_point_leaves_no_record_behind hm rfl rfl⟩

/-- The checkpoint reads its redo point while a writer that has appended record 1 holds its
guard: the frame is not dirty yet and is passed over. -/
theorem a_checkpoint_passes_over_a_guarded_frame :
    ∃ w, Runs.run step (new 1) ([.load 1 0, .page (.start (.write 1 [] 1))] ++
        List.replicate 3 (.page (.act 0)) ++
        [.read_redo_point, .log_checkpoint, .visit_frame, .sync_checkpoint]) = some w ∧
      w.checkpoint = .synced 2 ∧ (1, [1]) ∈ w.pages.log ∧ w.synced 1 < 1 :=
  ⟨_, rfl, rfl, by decide, by decide⟩

end Pool

end FluxDB
