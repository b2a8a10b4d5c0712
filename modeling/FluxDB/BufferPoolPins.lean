-- Pins of the buffer pool. As long as no frame is evicted under a flush, a frame's pin count
-- is the number of guards on its page and flushes of it, so a frame in the replacer has no
-- live guard, and a page that is being written or flushed stays in its frame.
import FluxDB.BufferPool

namespace FluxDB

open List Function Option Maps

/-! ## Guards -/

/-- The live write guards on a page. -/
def Pages.guards (w : Pages) (p : Nat) : Nat := w.tasks.countP fun t => decide (p ∈ t.pinned)

namespace Pages

variable {w w' : Pages} {i p : Nat} {t t' : Task}

theorem guards_pos (ht : w.tasks[i]? = some t) (hp : p ∈ t.pinned) : 0 < w.guards p := by
  apply countP_pos_iff.mpr
  exact ⟨t, mem_of_getElem? ht, by simpa using hp⟩

variable (ht : w.tasks[i]? = some t) (htasks : w'.tasks = w.tasks.set i t')

include ht htasks

theorem guards_set (q : Nat) : w'.guards q + (if q ∈ t.pinned then 1 else 0) =
      w.guards q + (if q ∈ t'.pinned then 1 else 0) := by
  have h := countP_set_add ht t' fun u => decide (q ∈ u.pinned)
  simpa only [guards, htasks, decide_eq_true_eq] using h

theorem guards_set_same (hpinned : t'.pinned = t.pinned) (q : Nat) : w'.guards q = w.guards q := by
  have h := guards_set ht htasks q
  rw [hpinned] at h
  omega

theorem guards_set_cons (hp : p ∉ t.pinned) (hpinned : t'.pinned = p :: t.pinned) (q : Nat) :
    w'.guards q = w.guards q + if q = p then 1 else 0 := by
  have h := guards_set ht htasks q
  rw [hpinned] at h
  by_cases hq : q = p
  · subst hq; simpa [hp] using h
  simp only [mem_cons, hq, false_or] at h
  simp only [hq, if_false]
  omega

theorem guards_set_filter (hp : p ∈ t.pinned) (hpinned : t'.pinned = t.pinned.filter (· ≠ p))
    (q : Nat) : w'.guards q + (if q = p then 1 else 0) = w.guards q := by
  have h := guards_set ht htasks q
  rw [hpinned] at h
  by_cases hq : q = p
  · subst hq; simpa [hp] using h
  simp only [mem_filter, ne_eq, hq, not_false_eq_true, decide_true, and_true] at h
  simp only [hq, if_false]
  omega

end Pages

namespace Pool

/-- The flushes of a frame in flight. -/
def flightsOn (w : Pool) (f : Nat) : Nat :=
  w.flights.countP fun fl => fl.active && fl.frame == f

/-! ## The invariant -/

structure Pinned (w : Pool) : Prop where
  table : ∀ p f, w.page_table p = some f ↔ (w.metadata f).page_id = some p
  bound : ∀ p f, w.page_table p = some f → f < w.n_frames
  resident : ∀ p, 0 < w.pages.guards p → ∃ f, w.page_table p = some f
  pins : ∀ p f, w.page_table p = some f →
    (w.metadata f).pin_count = w.pages.guards p + (w.metadata f).readers + w.flightsOn f
  evictable : ∀ p f, w.page_table p = some f → (w.metadata f).evictable = true →
    w.pages.guards p = 0 ∧ (w.metadata f).readers = 0
  flights : ∀ fl ∈ w.flights, fl.active = true → w.page_table fl.page = some fl.frame

variable {w w' : Pool} {f k p : Nat} {fl : Flight}

theorem flightsOn_pos_iff :
    0 < w.flightsOn f ↔ ∃ fl ∈ w.flights, fl.active = true ∧ fl.frame = f := by
  simp [flightsOn, countP_pos_iff]

theorem pinned_new (n : Nat) : Pinned (new n) where
  table := by simp [new, FrameMetadata.free, Shard.FrameMetadata.free]
  bound := by simp [new]
  resident := by simp [new, Pages.guards, Pages.new]
  pins := by simp [new]
  evictable := by simp [new]
  flights := by simp [new]

section Frames

variable {pages : Pages} {flights : List Flight}
  (hflights : ∀ fl ∈ flights, fl.active = true → w.page_table fl.page = some fl.frame)

include hflights

/-- A step that changes one frame, and pins or flushes on that frame only. -/
theorem Pinned.change_frame {m : FrameMetadata} (h : w.Pinned) (hf : w.page_table p = some f)
    (hid : m.page_id = (w.metadata f).page_id)
    (hguards : ∀ q, q ≠ p → pages.guards q = w.pages.guards q)
    (hon : ∀ g, g ≠ f → flightsOn { w with flights } g = w.flightsOn g)
    (hpins : m.pin_count = pages.guards p + m.readers + flightsOn { w with flights } f)
    (hevict : m.evictable = true → pages.guards p = 0 ∧ m.readers = 0) :
    Pinned { w with pages, flights, metadata := update w.metadata f m } := by
  have hne {q g : Nat} (hq : w.page_table q = some g) (hqp : q ≠ p) : g ≠ f := by
    rintro rfl
    have h1 := (h.table q g).mp hq
    rw [(h.table p g).mp hf] at h1
    exact hqp (Option.some.inj h1).symm
  have hself {g : Nat} (hg : w.page_table p = some g) : g = f := Option.some.inj (hg.symm.trans hf)
  refine ⟨fun q g => ?_, h.bound, fun q hq => ?_, fun q g hq => ?_, fun q g hq => ?_, hflights⟩
  · dsimp only
    rw [h.table q g]
    by_cases hg : g = f
    · subst hg; rw [update_self, hid]
    · rw [update_of_ne hg]
  · by_cases hqp : q = p
    · subst hqp; exact ⟨f, hf⟩
    · exact h.resident q (hguards q hqp ▸ hq)
  · dsimp only
    by_cases hqp : q = p
    · subst hqp; rw [hself hq, update_self]; exact hpins
    rw [update_of_ne (hne hq hqp), hguards q hqp]
    exact (h.pins q g hq).trans (congrArg _ (hon g (hne hq hqp)).symm)
  dsimp only
  by_cases hqp : q = p
  · subst hqp; rw [hself hq, update_self]; exact hevict
  rw [update_of_ne (hne hq hqp), hguards q hqp]
  exact h.evictable q g hq

/-- A step that leaves the frames, and the pins and flushes on them, as they are. -/
theorem Pinned.congr (h : w.Pinned) (hguards : ∀ q, pages.guards q = w.pages.guards q)
    (hon : ∀ g, flightsOn { w with flights } g = w.flightsOn g) :
    Pinned { w with pages, flights } := by
  refine ⟨h.table, h.bound, fun q hq => h.resident q (hguards q ▸ hq), fun q g hq => ?_,
    fun q g hq => ?_, hflights⟩
  · dsimp only
    rw [hguards]
    exact (h.pins q g hq).trans (congrArg _ (hon g).symm)
  dsimp only
  rw [hguards]
  exact h.evictable q g hq

end Frames

/-! ## Guards and read guards -/

theorem pinned_pin_page {v : Pool} {pages : Pages} (h : w.Pinned) (hv : w.pin_page p = some v)
    (hguards : ∀ q, pages.guards q = w.pages.guards q + if q = p then 1 else 0) :
    Pinned { v with pages := pages } := by
  unfold pin_page at hv
  split at hv
  swap
  · cases hv
  rename_i f hf
  cases hv
  refine h.change_frame h.flights hf rfl ?_ (fun _ _ => rfl) ?_ ?_
  · intro q hq; simpa [hq] using hguards q
  · have := h.pins p f hf
    have hp := hguards p
    simp only [if_true] at hp
    simp only [FrameMetadata.pin, flightsOn] at this ⊢
    omega
  · simp [FrameMetadata.pin]

/-- Without pins no guard and no read guard is left. -/
theorem unpin_evictable {m : FrameMetadata} {b : Bool} (guards readers flights : Nat)
    (hpins : m.pin_count = guards + 1 + readers + flights)
    (hev : (m.unpin b).evictable = true) (hold : m.evictable = true → False) :
    guards = 0 ∧ readers = 0 := by
  simp only [FrameMetadata.unpin, Bool.or_eq_true, beq_iff_eq] at hev
  rcases hev with hev | hev
  · exact absurd hev fun h => hold h
  · omega

theorem pinned_unpin_page {pages : Pages} (b : Bool) (h : w.Pinned) (hpos : 0 < w.pages.guards p)
    (hguards : ∀ q, pages.guards q + (if q = p then 1 else 0) = w.pages.guards q) :
    Pinned { w.unpin_page p b with pages := pages } := by
  obtain ⟨f, hf⟩ := h.resident p hpos
  have hpins := h.pins p f hf
  have hp := hguards p
  simp only [if_true] at hp
  have hpin : 0 < (w.metadata f).pin_count := by omega
  have hunpin : w.unpin_page p b =
      { w with metadata := update w.metadata f ((w.metadata f).unpin b) } := by
    simp [unpin_page, hf, hpin]
  rw [hunpin]
  refine h.change_frame h.flights hf rfl ?_ (fun _ _ => rfl) ?_ ?_
  · intro q hq; simpa [hq] using hguards q
  · simp only [FrameMetadata.unpin, flightsOn] at hpins ⊢
    omega
  intro hev
  refine unpin_evictable (pages.guards p) (w.metadata f).readers (w.flightsOn f) (by omega) hev
    fun hold => ?_
  have := (h.evictable p f hf hold).1
  omega

theorem pinned_fetch_page (h : w.Pinned) (hw : w.step (.fetch_page p) = some w') : w'.Pinned := by
  simp only [step] at hw
  split at hw
  · rename_i f hf
    cases hw
    have hpins := h.pins p f hf
    refine h.change_frame h.flights hf rfl (fun _ _ => rfl) (fun _ _ => rfl) ?_ ?_
    · simp only [FrameMetadata.pin, flightsOn] at hpins ⊢
      omega
    · simp [FrameMetadata.pin]
  · cases hw

theorem pinned_drop_read_guard (h : w.Pinned) (hw : w.step (.drop_read_guard p) = some w') :
    w'.Pinned := by
  simp only [step] at hw
  split at hw
  swap
  · cases hw
  rename_i f hf
  split at hw
  swap
  · cases hw
  rename_i hreaders
  cases hw
  have hpins := h.pins p f hf
  refine h.change_frame h.flights hf rfl (fun _ _ => rfl) (fun _ _ => rfl) ?_ ?_
  · simp only [FrameMetadata.unpin, flightsOn] at hpins ⊢
    omega
  intro hev
  refine unpin_evictable (b := false) (w.pages.guards p) ((w.metadata f).readers - 1)
    (w.flightsOn f) (by omega) hev fun hold => ?_
  have := (h.evictable p f hf hold).2
  omega

/-! ## Eviction and loading -/

theorem pinned_victim (h : w.Pinned) (hw : w.step (.victim f) = some w') : w'.Pinned := by
  obtain ⟨-, ⟨⟩⟩ := ite_none_right_eq_some.mp hw
  by_cases hp : ∃ p, (w.metadata f).page_id = some p
  · obtain ⟨p, hp⟩ := hp
    have hf := (h.table p f).mpr hp
    exact h.change_frame h.flights hf rfl (fun _ _ => rfl) (fun _ _ => rfl) (h.pins p f hf)
      (by simp)
  have hne {q g : Nat} (hq : w.page_table q = some g) : g ≠ f := by
    rintro rfl
    exact hp ⟨q, (h.table q g).mp hq⟩
  refine ⟨?_, h.bound, h.resident, ?_, ?_, h.flights⟩
  · intro q g
    by_cases hg : g = f
    · subst hg; simpa using h.table q g
    · simpa [update_of_ne hg] using h.table q g
  · intro q g hq
    simpa [update_of_ne (hne hq), flightsOn] using h.pins q g hq
  intro q g hq
  simpa [update_of_ne (hne hq)] using h.evictable q g hq

theorem pinned_evict (h : w.Pinned) (hok : w.flightsOn f = 0) (hw : w.step (.evict f) = some w') :
    w'.Pinned := by
  simp only [step] at hw
  split at hw
  swap
  · cases hw
  rename_i p hp
  obtain ⟨⟨hev, _⟩, ⟨⟩⟩ := ite_none_right_eq_some.mp hw
  have hf := (h.table p f).mpr hp
  have hguards := (h.evictable p f hf hev).1
  have hne {q g : Nat} (hq : w.page_table q = some g) (hqp : q ≠ p) : g ≠ f := by
    rintro rfl
    rw [(h.table q g).mp hq] at hp
    exact hqp (Option.some.inj hp)
  have hold {q g : Nat} (hq : update w.page_table p none q = some g) :
      w.page_table q = some g ∧ g ≠ f := by
    have hqp : q ≠ p := by rintro rfl; simp at hq
    rw [update_of_ne hqp] at hq
    exact ⟨hq, hne hq hqp⟩
  refine ⟨?_, fun q g hq => h.bound q g (hold hq).1, ?_, ?_, ?_, ?_⟩
  · intro q g
    by_cases hg : g = f
    · subst hg
      simp only [update_self, FrameMetadata.free, Shard.FrameMetadata.free]
      exact ⟨fun hq => absurd rfl (hold hq).2, fun hq => by cases hq⟩
    dsimp only
    rw [update_of_ne hg, ← h.table q g]
    refine ⟨fun hq => (hold hq).1, fun hq => ?_⟩
    have hqp : q ≠ p := by rintro rfl; exact hg (Option.some.inj (hq.symm.trans hf))
    rwa [update_of_ne hqp]
  · intro q hq
    obtain ⟨g, hg⟩ := h.resident q hq
    have hqp : q ≠ p := by rintro rfl; exact absurd hguards (Nat.ne_of_gt hq)
    exact ⟨g, by dsimp only; rwa [update_of_ne hqp]⟩
  · intro q g hq
    simpa [update_of_ne (hold hq).2, flightsOn] using h.pins q g (hold hq).1
  · intro q g hq
    simpa [update_of_ne (hold hq).2] using h.evictable q g (hold hq).1
  intro fl hfl hact
  have htable := h.flights fl hfl hact
  have hqp : fl.page ≠ p := by
    intro heq
    rw [heq, hf] at htable
    have : 0 < w.flightsOn f := flightsOn_pos_iff.mpr ⟨fl, hfl, hact, (Option.some.inj htable).symm⟩
    omega
  dsimp only
  rwa [update_of_ne hqp]

theorem pinned_load (h : w.Pinned) (hw : w.step (.load p f) = some w') : w'.Pinned := by
  obtain ⟨⟨hp, hfree, hlt⟩, ⟨⟩⟩ := ite_none_right_eq_some.mp hw
  have hguards : w.pages.guards p = 0 := by
    rcases Nat.eq_zero_or_pos (w.pages.guards p) with h0 | h0
    · exact h0
    obtain ⟨g, hg⟩ := h.resident p h0
    rw [hp] at hg
    cases hg
  have hon : w.flightsOn f = 0 := by
    rcases Nat.eq_zero_or_pos (w.flightsOn f) with h0 | h0
    · exact h0
    obtain ⟨fl, hfl, hact, rfl⟩ := flightsOn_pos_iff.mp h0
    rw [(h.table _ _).mp (h.flights fl hfl hact)] at hfree
    cases hfree
  have hne {q g : Nat} (hq : w.page_table q = some g) : q ≠ p ∧ g ≠ f := by
    constructor
    · rintro rfl; rw [hp] at hq; cases hq
    · rintro rfl; rw [(h.table q g).mp hq] at hfree; cases hfree
  have hcases {q g : Nat} (hq : update w.page_table p (some f) q = some g) :
      (q = p ∧ g = f) ∨ w.page_table q = some g := by
    by_cases hqp : q = p
    · subst hqp
      rw [update_self] at hq
      exact .inl ⟨rfl, (Option.some.inj hq).symm⟩
    rw [update_of_ne hqp] at hq
    exact .inr hq
  refine ⟨?_, ?_, ?_, ?_, ?_, ?_⟩
  · intro q g
    dsimp only
    constructor
    · intro hq
      rcases hcases hq with ⟨rfl, rfl⟩ | hq
      · simp
      · rw [update_of_ne (hne hq).2]; exact (h.table q g).mp hq
    intro hq
    by_cases hg : g = f
    · subst hg
      rw [update_self] at hq
      cases hq
      simp
    rw [update_of_ne hg, ← h.table q g] at hq
    rwa [update_of_ne (hne hq).1]
  · intro q g hq
    rcases hcases hq with ⟨rfl, rfl⟩ | hq
    · exact hlt
    · exact h.bound q g hq
  · intro q hq
    obtain ⟨g, hg⟩ := h.resident q hq
    exact ⟨g, by dsimp only; rwa [update_of_ne (hne hg).1]⟩
  · intro q g hq
    rcases hcases hq with ⟨rfl, rfl⟩ | hq
    · simp only [update_self]
      simp only [flightsOn, Pages.guards] at hguards hon ⊢
      omega
    · simpa [update_of_ne (hne hq).2, flightsOn, Pages.guards] using h.pins q g hq
  · intro q g hq hev
    rcases hcases hq with ⟨rfl, rfl⟩ | hq
    · simp at hev
    simp only [update_of_ne (hne hq).2] at hev ⊢
    exact h.evictable q g hq hev
  intro fl hfl hact
  have htable := h.flights fl hfl hact
  dsimp only
  rwa [update_of_ne (hne htable).1]

/-! ## Flushes -/

theorem dirty_frame_eq_some :
    w.dirty_frame p = some f ↔ w.page_table p = some f ∧ (w.metadata f).is_dirty = true := by
  unfold dirty_frame
  split
  · rename_i g hg
    rw [hg, ite_none_right_eq_some, Option.some.injEq]
    constructor
    · rintro ⟨hd, rfl⟩; exact ⟨rfl, hd⟩
    · rintro ⟨rfl, hd⟩; exact ⟨hd, rfl⟩
  rename_i hg
  simp [hg]

theorem pinned_start_flush (h : w.Pinned) (hf : w.page_table p = some f) :
    (w.start_flush p f).Pinned := by
  have hpins := h.pins p f hf
  refine h.change_frame ?_ hf rfl (fun _ _ => rfl) ?_ ?_ (h.evictable p f hf)
  · exact forall_mem_concat h.flights fun _ => hf
  · intro g hg
    simp [flightsOn, countP_append, Flight.active, Ne.symm hg]
  simp only [flightsOn, countP_append, countP_singleton, Flight.active,
    Bool.true_and, beq_self_eq_true, if_true] at hpins ⊢
  omega

theorem flightsOn_set_stage (hk : w.flights[k]? = some fl) (stage : FlightStage) (f : Nat) :
    (w.set_stage k fl stage).flightsOn f + (if fl.active && fl.frame == f then 1 else 0) =
      w.flightsOn f + (if Flight.active { fl with stage } && fl.frame == f then 1 else 0) :=
  countP_set_add hk { fl with stage := stage } fun fl => fl.active && fl.frame == f

/-- A flush that goes on is still one of its frame. -/
theorem pinned_set_stage (h : w.Pinned) (hk : w.flights[k]? = some fl) (stage : FlightStage)
    (hact : fl.active = true) (hstage : Flight.active { fl with stage := stage } = true) :
    (w.set_stage k fl stage).Pinned := by
  refine h.congr ?_ (fun _ => rfl) fun g => ?_
  · exact forall_mem_set h.flights fun _ => h.flights fl (mem_of_getElem? hk) hact
  have := flightsOn_set_stage hk stage g
  rw [hact, hstage] at this
  exact Nat.add_right_cancel this

theorem pinned_end_flush (h : w.Pinned) (ok : Bool) (hk : w.flights[k]? = some fl)
    (hact : fl.active = true) : (w.end_flush k fl ok).Pinned := by
  have hf := h.flights fl (mem_of_getElem? hk) hact
  have hpins := h.pins fl.page fl.frame hf
  have hoff : Flight.active { fl with stage := if ok then .done else .failed } = false := by
    cases ok <;> rfl
  have hon (g : Nat) := flightsOn_set_stage hk (if ok then .done else .failed) g
  simp only [hact, hoff, Bool.true_and, Bool.false_and, beq_iff_eq, Bool.false_eq_true,
    if_false] at hon
  have hself := hon fl.frame
  simp only [if_true] at hself
  refine h.change_frame ?_ hf rfl (fun _ _ => rfl) ?_ ?_ ?_
  · exact forall_mem_set h.flights fun hgact => nomatch hoff.symm.trans hgact
  · intro g hg
    have := hon g
    simp only [Ne.symm hg, if_false] at this
    exact this
  · show (w.metadata fl.frame).pin_count - 1 = w.pages.guards fl.page +
      (w.metadata fl.frame).readers + (w.set_stage k fl (if ok then .done else .failed)).flightsOn
        fl.frame
    omega
  intro hev
  simp only [FrameMetadata.unpin, Bool.or_eq_true, beq_iff_eq] at hev
  rcases hev with hev | hev
  · exact h.evictable fl.page fl.frame hf hev
  show w.pages.guards fl.page = 0 ∧ (w.metadata fl.frame).readers = 0
  omega

/-! ## Every step -/

/-- No frame is evicted while a flush of it is in flight. -/
def EvictsIdle (w : Pool) : PoolEvent → Prop
  | .evict f => w.flightsOn f = 0
  | _ => True

theorem pinned_page {e : PagesEvent} (h : w.Pinned) (hg : w.pages.Good)
    (hw : w.step (.page e) = some w') : w'.Pinned := by
  simp only [step] at hw
  split at hw
  swap
  · cases hw
  rename_i pages hpages
  cases e with
  | start s =>
    cases hw
    cases hpages
    refine h.congr h.flights (fun q => ?_) (fun _ => rfl)
    simp [Pages.guards, countP_append, Task.start]
  | log_other =>
    cases hw
    cases hpages
    exact { h with }
  | fail i =>
    cases hw
    simp only [Pages.step] at hpages
    split at hpages
    · rename_i t ht
      cases hpages
      exact h.congr h.flights (Pages.guards_set_same ht rfl rfl) (fun _ => rfl)
    · cases hpages
  | act i =>
    simp only [map_eq_some_iff] at hw
    obtain ⟨v, hv, rfl⟩ := hw
    obtain ⟨t, a, rest, ht, htodo, hexec⟩ := Pages.step_act hpages
    have htodoi : w.pages.todo i = a :: rest := by simp [Pages.todo, ht, htodo]
    obtain ⟨held, hfine, hsub, hheld⟩ := (hg.tasks i t ht).fine
    rw [htodo] at hfine
    rw [htodoi] at hv
    have hsame (t' : Task) (htasks : pages.tasks = w.pages.tasks.set i t')
        (hpinned : t'.pinned = t.pinned) (hv : v = w) : Pinned { v with pages := pages } := by
      subst hv
      exact h.congr h.flights (Pages.guards_set_same ht htasks hpinned) (fun _ => rfl)
    cases a with
    | latch p | new p =>
      obtain ⟨hnone, ⟨⟩⟩ := ite_none_right_eq_some.mp hexec
      have hp : p ∉ t.pinned := by
        rcases hfine with hp | hp
        · rw [(hheld p).mpr hp] at hnone; cases hnone
        · exact hp.1
      exact pinned_pin_page h hv (Pages.guards_set_cons ht rfl hp rfl)
    | unpin p =>
      simp only [Pages.exec, Option.some.injEq] at hexec
      subst hexec
      simp only [act_frames, Option.some.injEq] at hv
      subst hv
      exact pinned_unpin_page _ h (Pages.guards_pos ht hfine.1)
        (Pages.guards_set_filter ht rfl hfine.1 rfl)
    | _ =>
      simp only [Pages.exec, Option.some.injEq] at hexec
      simp only [act_frames, Option.some.injEq] at hv
      subst hexec
      exact hsame _ rfl rfl hv.symm

theorem pinned_step {e : PoolEvent} (h : w.Pinned) (hg : w.pages.Good) (hok : w.EvictsIdle e)
    (hw : w.step e = some w') : w'.Pinned := by
  cases e with
  | page e => exact pinned_page h hg hw
  | fetch_page p => exact pinned_fetch_page h hw
  | drop_read_guard p => exact pinned_drop_read_guard h hw
  | victim f => exact pinned_victim h hw
  | evict f => exact pinned_evict h hok hw
  | load p f => exact pinned_load h hw
  | flush_page p =>
    simp only [step, map_eq_some_iff] at hw
    obtain ⟨f, hf, rfl⟩ := hw
    exact pinned_start_flush h (dirty_frame_eq_some.mp hf).1
  | copy_frame k =>
    simp only [step] at hw
    split at hw
    · rename_i fl hk
      split at hw
      · rename_i hstage _
        split at hw
        · cases hw
          exact pinned_set_stage h hk _ (by simp [Flight.active, hstage]) rfl
        · cases hw
      · cases hw
    · cases hw
  | write_page k =>
    simp only [step] at hw
    split at hw
    · rename_i fl hk
      split at hw
      · rename_i lsn hstage
        cases hw
        have hset := pinned_set_stage h hk .written (by simp [Flight.active, hstage]) rfl
        exact { hset with }
      · cases hw
    · cases hw
  | finish_flush k =>
    simp only [step] at hw
    split at hw
    · rename_i fl hk
      split at hw
      · rename_i hstage
        cases hw
        exact pinned_end_flush h true hk (by simp [Flight.active, hstage])
      · cases hw
    · cases hw
  | fail_flush k =>
    simp only [step] at hw
    split at hw
    · rename_i fl hk
      split at hw
      · rename_i hact
        cases hw
        exact pinned_end_flush h false hk hact
      · cases hw
    · cases hw
  | sync_data | fail_checkpoint =>
    cases hw
    exact { h with }
  | flush_visited =>
    simp only [step] at hw
    split at hw
    · split at hw
      · rename_i f hf
        cases hw
        have hstart := pinned_start_flush h (dirty_frame_eq_some.mp hf).1
        exact { hstart with }
      cases hw
      exact { h with }
    · cases hw
  | log_checkpoint =>
    simp only [step, Pages.step] at hw
    split at hw
    · rename_i hpages
      cases hw
      cases hpages
      exact { h with }
    · cases hw
  | _ =>
    simp only [step] at hw
    repeat' split at hw
    all_goals first
      | cases hw
        exact { h with }
      | cases hw

end Pool

end FluxDB
