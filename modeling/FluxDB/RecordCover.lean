-- What carries a record to disk. A record that was stamped on a page is covered by the page
-- image on disk, by a dirty frame, by a flush in flight or by a live guard. No step loses
-- it, as long as flushes of one page do not overlap and no frame is evicted under a flush.
import FluxDB.BufferPoolPins

namespace FluxDB

open List Function Option Maps

/-! ## Records and their stamps -/

variable {p : Nat} {e : PagesEvent}

namespace Pages

/-- Every page of a record was stamped with it, or is still to be stamped. -/
def Logged (w : Pages) : Prop :=
  ∀ r ∈ w.log, ∀ p ∈ r.2, r.1 ∈ w.stamped p ∨ ∃ t ∈ w.tasks, t.lsn = r.1 ∧ p ∈ owed t.todo

/-- What a step does to stamps, page LSNs and the log. -/
structure Effect (w w' : Pages) : Prop where
  next : w.next_lsn ≤ w'.next_lsn
  stamped : ∀ p, w.stamped p ⊆ w'.stamped p
  fresh : ∀ p, ∀ l ∈ w'.stamped p, l ∈ w.stamped p ∨ ∃ t ∈ w'.tasks, p ∈ t.wrote
  lsn : ∀ p, w'.lsn p = w.lsn p ∨ w'.lsn p = 0 ∨ w'.lsn p ∈ w'.stamped p
  log : ∀ r ∈ w'.log, r ∈ w.log ∨ w.next_lsn ≤ r.1

variable {w' : Pages} {i : Nat} {t : Task}

theorem Effect.of_same {w : Pages} {holder : Nat → Option Nat} {tasks : List Task} :
    Effect w { w with holder, tasks } :=
  ⟨le_rfl, fun _ => List.Subset.refl _, fun _ _ hl => .inl hl, fun _ => .inl rfl,
    fun _ hr => .inl hr⟩

theorem effect_log {w : Pages} {ps : List Nat} {tasks : List Task} : Effect w { w with
      next_lsn := w.next_lsn + 1, log := (w.next_lsn, ps) :: w.log, tasks } := by
  refine ⟨Nat.le_succ _, fun _ => List.Subset.refl _, fun _ _ hl => .inl hl,
    fun _ => .inl rfl, fun r hr => ?_⟩
  rcases mem_cons.mp hr with rfl | hr
  · exact .inr le_rfl
  · exact .inl hr

theorem mem_set_self {w : Pages} (ht : w.tasks[i]? = some t) (t' : Task) : t' ∈ w.tasks.set i t' :=
  mem_set (lt_of_getElem? ht) _

theorem effect_wipe {w : Pages} {holder : Nat → Option Nat} {tasks : List Task} {p : Nat} :
    Effect w { w with holder, tasks, lsn := update w.lsn p 0 } := by
  refine ⟨le_rfl, fun _ => List.Subset.refl _, fun _ _ hl => .inl hl, fun q => ?_,
    fun _ hr => .inl hr⟩
  by_cases hq : q = p
  · subst hq; exact .inr (.inl (update_self _ _ _))
  · exact .inl (update_of_ne hq _ _)

theorem effect_exec {w : Pages} {task : Task} {a : Action} (ht : w.tasks[i]? = some t)
    (h : w.exec i task a = some w') : Effect w w' := by
  cases a with
  | latch p =>
    obtain ⟨-, ⟨⟩⟩ := ite_none_right_eq_some.mp h
    exact Effect.of_same
  | new p =>
    obtain ⟨-, ⟨⟩⟩ := ite_none_right_eq_some.mp h
    exact effect_wipe
  | rebuild p =>
    cases h
    exact effect_wipe
  | log ps =>
    cases h
    exact effect_log
  | stamp p =>
    cases h
    refine ⟨le_rfl, fun q => ?_, fun q l hl => ?_, fun q => ?_, fun _ hr => .inl hr⟩
    · by_cases hq : q = p
      · subst hq; simp
      · simp [update_of_ne hq]
    · by_cases hq : q = p
      · subst hq
        exact .inr ⟨_, mem_set_self ht _, mem_cons_self⟩
      · exact .inl (by simpa [update_of_ne hq] using hl)
    by_cases hq : q = p
    · subst hq; simp
    · simp [update_of_ne hq]
  | touch p | unlatch p | unpin p =>
    cases h
    exact Effect.of_same

theorem effect_step {w : Pages} (h : w.step e = some w') : Effect w w' := by
  cases e with
  | start s =>
    cases h
    exact Effect.of_same
  | act i =>
    obtain ⟨t, a, rest, ht, _, hexec⟩ := step_act h
    exact effect_exec ht hexec
  | fail i =>
    simp only [step] at h
    split at h
    · cases h; exact Effect.of_same
    · cases h
  | log_other =>
    cases h
    exact effect_log

theorem mem_set_of_mem {w : Pages} {u : Task} (ht : w.tasks[i]? = some t) (hu : u ∈ w.tasks)
    (t' : Task) : u = t ∨ u ∈ w.tasks.set i t' := by
  obtain ⟨j, hj⟩ := mem_iff_getElem?.mp hu
  by_cases hji : j = i
  · subst hji; exact .inl (Option.some.inj (hj.symm.trans ht))
  right
  apply mem_of_getElem? (i := j)
  rw [getElem?_set_eq_ite ht, if_neg hji]
  exact hj

/-- A task that keeps or pays what it owes keeps every record accounted for. -/
theorem Logged.of_set {w : Pages} {t' : Task} (h : w.Logged) (ht : w.tasks[i]? = some t)
    (htasks : w'.tasks = w.tasks.set i t') (hstamped : ∀ p, w.stamped p ⊆ w'.stamped p)
    (hlog : ∀ r ∈ w'.log, r ∈ w.log ∨ (r.1 = t'.lsn ∧ ∀ p ∈ r.2, p ∈ owed t'.todo))
    (hmine : ∀ p ∈ owed t.todo, t.lsn ∈ w'.stamped p ∨ (t'.lsn = t.lsn ∧ p ∈ owed t'.todo)) :
    w'.Logged := by
  intro r hr p hp
  have hself : t' ∈ w'.tasks := by rw [htasks]; exact mem_set_self ht t'
  rcases hlog r hr with hr | ⟨hlsn, howed⟩
  · rcases h r hr p hp with hl | ⟨u, hu, hlsn, howed⟩
    · exact .inl (hstamped p hl)
    rcases mem_set_of_mem ht hu t' with rfl | hu
    · rcases hmine p howed with hl | ⟨hl, howed⟩
      · exact .inl (hlsn ▸ hl)
      · exact .inr ⟨t', hself, hl.trans hlsn, howed⟩
    · exact .inr ⟨u, by rwa [htasks], hlsn, howed⟩
  · exact .inr ⟨t', hself, hlsn.symm, howed p hp⟩

theorem logged_exec {w : Pages} {a : Action} {rest : List Action} (h : w.Logged) (hg : w.Good)
    (ht : w.tasks[i]? = some t) (htodo : t.todo = a :: rest)
    (hexec : w.exec i { t with todo := rest } a = some w') : w'.Logged := by
  have heff := effect_exec ht hexec
  have hfine := (hg.tasks i t ht).fine
  rw [htodo] at hfine
  obtain ⟨held, hfine, _⟩ := hfine
  cases a with
  | log ps =>
    cases hexec
    refine h.of_set ht rfl heff.stamped ?_ (by simp [htodo, owed])
    intro r hr
    rcases mem_cons.mp hr with rfl | hr
    · exact .inr ⟨rfl, fun p hp => (hfine.1 p).mp hp⟩
    · exact .inl hr
  | stamp q =>
    cases hexec
    refine h.of_set ht rfl heff.stamped (fun _ hr => .inl hr) ?_
    intro p hp
    rw [htodo] at hp
    rcases mem_cons.mp hp with rfl | hp
    · exact .inl (by simp)
    · exact .inr ⟨rfl, hp⟩
  | latch q | new q =>
    obtain ⟨-, ⟨⟩⟩ := ite_none_right_eq_some.mp hexec
    exact h.of_set ht rfl heff.stamped (fun _ hr => .inl hr)
      fun p hp => .inr ⟨rfl, by rwa [htodo] at hp⟩
  | _ =>
    cases hexec
    exact h.of_set ht rfl heff.stamped (fun _ hr => .inl hr)
      fun p hp => .inr ⟨rfl, by rwa [htodo] at hp⟩

/-- A section does not fail while a record of it is not stamped on all its pages. -/
def FailsPaid (w : Pages) : PagesEvent → Prop
  | .fail i => owed (w.todo i) = []
  | _ => True

instance decidableFailsPaid (w : Pages) (e : PagesEvent) : Decidable (w.FailsPaid e) := by
  induction e using PagesEvent.casesOn <;> dsimp only [FailsPaid] <;> infer_instance

theorem logged_step {w : Pages} (h : w.Logged) (hg : w.Good) (hok : w.FailsPaid e)
    (hstep : w.step e = some w') : w'.Logged := by
  cases e with
  | start s =>
    cases hstep
    intro r hr p hp
    rcases h r hr p hp with hl | ⟨t, ht, hrest⟩
    · exact .inl hl
    · exact .inr ⟨t, mem_append_left _ ht, hrest⟩
  | act i =>
    obtain ⟨t, a, rest, ht, htodo, hexec⟩ := step_act hstep
    exact logged_exec h hg ht htodo hexec
  | fail i =>
    simp only [step] at hstep
    split at hstep
    · rename_i t ht
      cases hstep
      simp only [FailsPaid, todo, ht] at hok
      exact h.of_set ht rfl (fun _ => List.Subset.refl _) (fun _ hr => .inl hr) (by simp [hok])
    · cases hstep
  | log_other =>
    cases hstep
    intro r hr p hp
    rcases mem_cons.mp hr with rfl | hr
    · cases hp
    · exact h r hr p hp

/-- A page that a live guard has written stays so until that guard is dropped. -/
theorem step_wrote {w : Pages} (h : w.step e = some w') (hp : ∃ t ∈ w.tasks, p ∈ t.wrote) :
    (∃ t ∈ w'.tasks, p ∈ t.wrote) ∨
      ∃ i rest, e = .act i ∧ w.todo i = .unpin p :: rest ∧ p ∈ w.wrote i := by
  obtain ⟨u, hu, hp⟩ := hp
  cases e with
  | start s => cases h; exact .inl ⟨u, mem_append_left _ hu, hp⟩
  | log_other => cases h; exact .inl ⟨u, hu, hp⟩
  | fail i =>
    simp only [step] at h
    split at h
    · rename_i t ht
      cases h
      rcases mem_set_of_mem ht hu { t with todo := w.drops i t } with rfl | hu
      · exact .inl ⟨_, mem_set_self ht _, hp⟩
      · exact .inl ⟨u, hu, hp⟩
    · cases h
  | act i =>
    obtain ⟨t, a, rest, ht, htodo, hexec⟩ := step_act h
    have hset {t' : Task} (htasks : w'.tasks = w.tasks.set i t')
        (hsub : p ∈ t.wrote → p ∈ t'.wrote) : ∃ t ∈ w'.tasks, p ∈ t.wrote := by
      rw [htasks]
      rcases mem_set_of_mem ht hu t' with rfl | hu
      · exact ⟨t', mem_set_self ht t', hsub hp⟩
      · exact ⟨u, hu, hp⟩
    cases a with
    | unpin q =>
      cases hexec
      by_cases hq : p ∈ t.wrote ∧ p = q
      · obtain ⟨hw, rfl⟩ := hq
        exact .inr ⟨i, rest, rfl, by simp [todo, ht, htodo], by simpa [wrote, ht] using hw⟩
      refine .inl (hset rfl fun hw => mem_filter.mpr ⟨hw, ?_⟩)
      simpa using fun hpq => hq ⟨hw, hpq⟩
    | latch q | new q =>
      obtain ⟨-, ⟨⟩⟩ := ite_none_right_eq_some.mp hexec
      exact .inl (hset rfl id)
    | rebuild q | touch q | stamp q =>
      cases hexec
      exact .inl (hset rfl (mem_cons_of_mem _))
    | log q | unlatch q =>
      cases hexec
      exact .inl (hset rfl id)

end Pages

/-! ## What carries a record -/

/-- A flush in flight will write an image of the page that has the record. -/
def Flight.Carries (fl : Flight) (p l : Nat) : Prop :=
  fl.page = p ∧ (fl.stage = .copying ∨ ∃ c, fl.stage = .copied c ∧ l ≤ c)

theorem Flight.Carries.active {fl : Flight} {l : Nat} (h : fl.Carries p l) : fl.active = true := by
  rcases h.2 with hs | ⟨c, hs, _⟩ <;> simp [Flight.active, hs]

namespace Pool

def Dirty (w : Pool) (p : Nat) : Prop :=
  ∃ f, w.page_table p = some f ∧ (w.metadata f).is_dirty = true

def Kept (w : Pool) (p l : Nat) : Prop :=
  w.Dirty p ∨ ∃ (k : Nat) (fl : Flight), w.flights[k]? = some fl ∧ fl.Carries p l

/-- No flush of the page is in flight. -/
def NoFlight (w : Pool) (p : Nat) : Prop := ∀ fl ∈ w.flights, fl.active = true → fl.page ≠ p

/-- The conditions under which no record is lost: stamps in order, no failure with a record
not stamped, one flush of a page at a time, and no eviction under a flush. -/
def Orderly (w : Pool) : PoolEvent → Prop
  | .page e => w.pages.StampsInOrder e ∧ w.pages.FailsPaid e
  | .evict f => w.flightsOn f = 0
  | .flush_page p => w.NoFlight p
  | .flush_visited =>
    match w.checkpoint with
    | .flushing _ _ p => w.NoFlight p
    | _ => True
  | _ => True

instance decidableNoFlight (w : Pool) (p : Nat) : Decidable (w.NoFlight p) := by
  unfold NoFlight
  infer_instance

instance decidableOrderly (w : Pool) : DecidablePred w.Orderly := by
  intro e
  cases e <;> unfold Orderly
  case flush_visited => dsimp only; split <;> infer_instance
  all_goals infer_instance

theorem Orderly.evictsIdle {w : Pool} {e : PoolEvent} (h : w.Orderly e) : w.EvictsIdle e := by
  cases e <;> first | exact h | trivial

/-- What a step keeps of what carries the records. -/
structure Later (w w' : Pool) : Prop where
  disk : ∀ p, w.disk p ≤ w'.disk p
  kept : ∀ p, ∀ l ∈ w.pages.stamped p, w.Kept p l →
    l ≤ w'.disk p ∨ (w'.Kept p l ∧ w'.page_table p = w.page_table p)
  carries : ∀ (k : Nat) (fl : Flight) (p : Nat), ∀ l ∈ w.pages.stamped p,
    w.flights[k]? = some fl → fl.Carries p l →
    l ≤ w'.disk p ∨ ∃ gl : Flight, w'.flights[k]? = some gl ∧ (gl.Carries p l ∨ gl.stage = .failed)
  failed : ∀ (k : Nat) (fl : Flight), w.flights[k]? = some fl → fl.stage = .failed →
    ∃ gl : Flight, w'.flights[k]? = some gl ∧ gl.stage = .failed

structure Flushed (w : Pool) : Prop where
  pages : w.pages.Good
  pinned : w.Pinned
  logged : w.pages.Logged
  single : ∀ (j k : Nat) (fl gl : Flight), w.flights[j]? = some fl → w.flights[k]? = some gl →
    fl.active = true → gl.active = true → fl.page = gl.page → j = k
  image : ∀ (k : Nat) (fl : Flight) c, w.flights[k]? = some fl → fl.stage = .copied c →
    w.disk fl.page ≤ c ∧ (c = 0 ∨ c ∈ w.pages.stamped fl.page)
  disk_mem : ∀ p, w.disk p = 0 ∨ w.disk p ∈ w.pages.stamped p
  lsn_mem : ∀ p, w.pages.lsn p = 0 ∨ w.pages.lsn p ∈ w.pages.stamped p
  covered : ∀ p, ∀ l ∈ w.pages.stamped p,
    l ≤ w.disk p ∨ w.Kept p l ∨ ∃ t ∈ w.pages.tasks, p ∈ t.wrote

section Frames

variable {w : Pool} {pages : Pages} {page_table : Nat → Option Nat}
  {metadata : Nat → FrameMetadata} {synced : Nat → Nat} {checkpoint : Checkpoint}

/-- A step without flushes that keeps the dirty flags. -/
theorem Later.of_dirty
    (hdirty : ∀ p, w.Dirty p → Dirty { w with pages, page_table, metadata, synced, checkpoint } p)
    (htable : ∀ p l, w.Kept p l → page_table p = w.page_table p) :
    Later w { w with pages, page_table, metadata, synced, checkpoint } where
  disk _ := le_rfl
  kept p l _ hk := .inr ⟨hk.imp_left (hdirty p), htable p l hk⟩
  carries _ fl _ _ _ hk hc := .inr ⟨fl, hk, .inl hc⟩
  failed _ fl hk hs := ⟨fl, hk, hs⟩

theorem Later.of_same : Later w { w with pages, synced, checkpoint } :=
  Later.of_dirty (fun _ hp => hp) fun _ _ _ => rfl

variable {f : Nat}

/-- A frame whose metadata is replaced by one that is at least as dirty. -/
theorem Later.of_frame {m : FrameMetadata}
    (hdirty : (w.metadata f).is_dirty = true → m.is_dirty = true) :
    Later w { w with pages, metadata := update w.metadata f m } := by
  refine .of_dirty ?_ fun _ _ _ => rfl
  rintro p ⟨g, hg, hgd⟩
  refine ⟨g, hg, ?_⟩
  by_cases hgf : g = f
  · subst hgf; simpa using hdirty hgd
  · simpa [update_of_ne hgf] using hgd

end Frames

variable {f : Nat}

/-- A step that keeps every record that was covered, and covers the new ones. -/
theorem Flushed.covered_of_later {w w' : Pool} (h : w.Flushed) (hl : Later w w')
    (hfresh : ∀ p, ∀ l ∈ w'.pages.stamped p,
      l ∈ w.pages.stamped p ∨ ∃ t ∈ w'.pages.tasks, p ∈ t.wrote)
    (hwrote : ∀ p, (∃ t ∈ w.pages.tasks, p ∈ t.wrote) →
      (∃ t ∈ w'.pages.tasks, p ∈ t.wrote) ∨ w'.Dirty p) (p : Nat) :
    ∀ l ∈ w'.pages.stamped p,
      l ≤ w'.disk p ∨ w'.Kept p l ∨ ∃ t ∈ w'.pages.tasks, p ∈ t.wrote := by
  intro l hmem
  rcases hfresh p l hmem with hmem | hw
  swap
  · exact .inr (.inr hw)
  rcases h.covered p l hmem with hd | hk | hw
  · exact .inl (hd.trans (hl.disk p))
  · rcases hl.kept p l hmem hk with hd | hk
    · exact .inl hd
    · exact .inr (.inl hk.1)
  rcases hwrote p hw with hw | hd
  · exact .inr (.inr hw)
  · exact .inr (.inl (.inl hd))

/-- A page that no flush, dirty frame or guard can carry has every record on disk. -/
theorem Flushed.le_disk {w : Pool} (h : w.Flushed) (htable : w.page_table p = none) :
    ∀ l ∈ w.pages.stamped p, l ≤ w.disk p := by
  intro l hl
  rcases h.covered p l hl with hd | (⟨f, hf, _⟩ | ⟨k, fl, hk, hc⟩) | ⟨t, ht, hw⟩
  · exact hd
  · rw [htable] at hf; cases hf
  · have := h.pinned.flights fl (mem_of_getElem? hk) hc.active
    rw [hc.1, htable] at this
    cases this
  obtain ⟨i, hi⟩ := mem_iff_getElem?.mp ht
  obtain ⟨f, hf⟩ := h.pinned.resident p (Pages.guards_pos hi ((h.pages.tasks i t hi).wrote hw))
  rw [htable] at hf
  cases hf

/-! ## Page steps -/

theorem later_page {w w' : Pool} (hw : w.step (.page e) = some w') :
    Later w w' ∧ w'.flights = w.flights ∧ w'.disk = w.disk ∧ w.pages.step e = some w'.pages ∧
      ∀ i p rest, e = .act i → w.pages.todo i = .unpin p :: rest → p ∈ w.pages.wrote i →
        (∃ f, w.page_table p = some f ∧ 0 < (w.metadata f).pin_count) → w'.Dirty p := by
  simp only [step] at hw
  split at hw
  swap
  · cases hw
  rename_i pages hpages
  cases e with
  | act i =>
    simp only [map_eq_some_iff] at hw
    obtain ⟨v, hv, rfl⟩ := hw
    obtain ⟨t, a, rest, ht, htodo, hexec⟩ := Pages.step_act hpages
    have htodoi : w.pages.todo i = a :: rest := by simp [Pages.todo, ht, htodo]
    rw [htodoi] at hv
    cases a with
    | unpin p =>
      simp only [act_frames, Option.some.injEq] at hv
      subst hv
      unfold unpin_page
      split
      · rename_i f hf
        split
        · refine ⟨Later.of_frame fun hd => by simp [FrameMetadata.unpin, hd], rfl, rfl, hpages, ?_⟩
          intro j q rest' hj htodoq hq _
          cases hj
          rw [htodoi] at htodoq
          cases htodoq
          exact ⟨f, hf, by simp [FrameMetadata.unpin, hq]⟩
        rename_i hpin
        refine ⟨Later.of_same, rfl, rfl, hpages, ?_⟩
        rintro j q rest' hj htodoq - ⟨g, hg, hgpin⟩
        cases hj
        rw [htodoi] at htodoq
        cases htodoq
        rw [hf] at hg
        cases hg
        exact absurd hgpin hpin
      rename_i hnone
      refine ⟨Later.of_same, rfl, rfl, hpages, ?_⟩
      rintro j q rest' hj htodoq - ⟨g, hg, _⟩
      cases hj
      rw [htodoi] at htodoq
      cases htodoq
      rw [hnone] at hg
      cases hg
    | latch p | new p =>
      simp only [act_frames, pin_page] at hv
      split at hv
      · cases hv
        exact ⟨Later.of_frame id, rfl, rfl, hpages, fun j q r hj hq => by
          cases hj; rw [htodoi] at hq; cases hq⟩
      · cases hv
    | _ =>
      simp only [act_frames, Option.some.injEq] at hv
      subst hv
      exact ⟨Later.of_same, rfl, rfl, hpages, fun j q r hj hq => by
        cases hj; rw [htodoi] at hq; cases hq⟩
  | _ =>
    cases hw
    exact ⟨Later.of_same, rfl, rfl, hpages, fun j q r hj => by cases hj⟩

theorem flushed_page {w w' : Pool} (h : w.Flushed) (hok : w.Orderly (.page e))
    (hw : w.step (.page e) = some w') : w'.Flushed := by
  obtain ⟨hlater, hflights, hdisk, hpages, hunpin⟩ := later_page hw
  have heff := Pages.effect_step hpages
  refine ⟨Pages.good_step h.pages hok.1 hpages,
    pinned_step (e := .page e) h.pinned h.pages trivial hw,
    Pages.logged_step h.logged h.pages hok.2 hpages, ?_, ?_, ?_, ?_, ?_⟩
  · rw [hflights]; exact h.single
  · intro k fl c hk hs
    rw [hflights] at hk
    rw [hdisk]
    exact (h.image k fl c hk hs).imp id fun hm => hm.imp id fun hm => heff.stamped _ hm
  · intro p
    rw [hdisk]
    exact (h.disk_mem p).imp id fun hm => heff.stamped p hm
  · intro p
    rcases heff.lsn p with hl | hl
    · rw [hl]; exact (h.lsn_mem p).imp id fun hm => heff.stamped p hm
    · exact hl
  refine h.covered_of_later hlater heff.fresh fun p hp => ?_
  rcases Pages.step_wrote hpages hp with hp | ⟨i, rest, rfl, htodo, hp⟩
  · exact .inl hp
  right
  refine hunpin i p rest rfl htodo hp ?_
  -- the guard that is dropped pins the page, so its frame has a pin
  obtain ⟨t, ht, hpt⟩ : ∃ t, w.pages.tasks[i]? = some t ∧ p ∈ t.wrote := by
    unfold Pages.wrote at hp
    split at hp
    · rename_i t ht; exact ⟨t, ht, hp⟩
    · cases hp
  have hpos := Pages.guards_pos ht ((h.pages.tasks i t ht).wrote hpt)
  obtain ⟨f, hf⟩ := h.pinned.resident p hpos
  have := h.pinned.pins p f hf
  exact ⟨f, hf, by omega⟩

/-! ## Frames that are pinned, evicted and loaded -/

theorem Flushed.frames_step {w : Pool} {page_table : Nat → Option Nat}
    {metadata : Nat → FrameMetadata} {synced : Nat → Nat} {checkpoint : Checkpoint} (h : w.Flushed)
    (hpinned : Pinned { w with page_table, metadata, synced, checkpoint })
    (hl : Later w { w with page_table, metadata, synced, checkpoint }) :
    Flushed { w with page_table, metadata, synced, checkpoint } ∧
      Later w { w with page_table, metadata, synced, checkpoint } := by
  refine ⟨{ h with pinned := hpinned, covered := ?_ }, hl⟩
  exact h.covered_of_later hl (fun _ _ hl => .inl hl) fun _ hp => .inl hp

theorem later_evict {w : Pool} (h : w.Flushed) (hok : w.flightsOn f = 0)
    (hp : (w.metadata f).page_id = some p) (hclean : (w.metadata f).is_dirty = false) :
    Later w { w with
      page_table := update w.page_table p none
      metadata := update w.metadata f FrameMetadata.free } := by
  have hf := (h.pinned.table p f).mpr hp
  have hnot (l : Nat) : ¬ w.Kept p l := by
    rintro (⟨g, hg, hd⟩ | ⟨k, fl, hk, hc⟩)
    · rw [hf] at hg
      cases hg
      rw [hclean] at hd
      cases hd
    have hmem := mem_of_getElem? hk
    have htable := h.pinned.flights fl hmem hc.active
    rw [hc.1, hf] at htable
    have : 0 < w.flightsOn f :=
      flightsOn_pos_iff.mpr ⟨fl, hmem, hc.active, (Option.some.inj htable).symm⟩
    omega
  have hne {q : Nat} (hq : ∃ l, w.Kept q l) : q ≠ p := by
    rintro rfl
    obtain ⟨l, hl⟩ := hq
    exact hnot l hl
  refine .of_dirty ?_ ?_
  · rintro q ⟨g, hg, hd⟩
    have hqp : q ≠ p := hne ⟨0, .inl ⟨g, hg, hd⟩⟩
    have hgf : g ≠ f := by
      rintro rfl
      rw [(h.pinned.table q g).mp hg] at hp
      exact hqp (Option.some.inj hp)
    exact ⟨g, by simpa [update_of_ne hqp] using hg, by simpa [update_of_ne hgf] using hd⟩
  intro q l hk
  simp [update_of_ne (hne ⟨l, hk⟩)]

theorem later_load {w w' : Pool} (h : w.Flushed) (hw : w.step (.load p f) = some w') :
    Later w w' := by
  obtain ⟨⟨hp, hfree, _⟩, ⟨⟩⟩ := ite_none_right_eq_some.mp hw
  have hne {q : Nat} {l : Nat} (hk : w.Kept q l) : q ≠ p := by
    rintro rfl
    rcases hk with ⟨g, hg, _⟩ | ⟨k, fl, hk, hc⟩
    · rw [hp] at hg; cases hg
    have := h.pinned.flights fl (mem_of_getElem? hk) hc.active
    rw [hc.1, hp] at this
    cases this
  refine .of_dirty ?_ fun q l hk => by simp [update_of_ne (hne hk)]
  rintro q ⟨g, hg, hd⟩
  have hqp : q ≠ p := hne (l := 0) (.inl ⟨g, hg, hd⟩)
  have hgf : g ≠ f := by
    rintro rfl
    rw [(h.pinned.table q g).mp hg] at hfree
    cases hfree
  exact ⟨g, by simpa [update_of_ne hqp] using hg, by simpa [update_of_ne hgf] using hd⟩

/-- The invariant of the pages holds for another LSN of a page that nobody holds. -/
theorem good_load {w : Pages} {l : Nat} (hg : w.Good) (hp : w.holder p = none)
    (hl : ∀ x ∈ w.stamped p, x ≤ l) : Pages.Good { w with lsn := update w.lsn p l } := by
  refine { hg with tasks := fun i t ht => ?_, free := fun q hq => ?_ }
  · have hold := hg.tasks i t ht
    refine { hold with stamped := fun q hq hw => ?_ }
    have hqp : q ≠ p := by rintro rfl; rw [hp] at hq; cases hq
    simpa [update_of_ne hqp] using hold.stamped q hq hw
  by_cases hqp : q = p
  · subst hqp; simpa using hl
  · simpa [update_of_ne hqp] using hg.free q hq

theorem flushed_load {w w' : Pool} (h : w.Flushed) (hw : w.step (.load p f) = some w') :
    w'.Flushed := by
  have hlater := later_load h hw
  have hpinned := pinned_step (e := .load p f) h.pinned h.pages trivial hw
  obtain ⟨⟨hp, _, _⟩, ⟨⟩⟩ := ite_none_right_eq_some.mp hw
  have hholder : w.pages.holder p = none := by
    rcases hh : w.pages.holder p with _ | i
    · rfl
    obtain ⟨t, ht⟩ : ∃ t, w.pages.tasks[i]? = some t :=
      ⟨_, getElem?_eq_getElem (h.pages.holder p i hh)⟩
    obtain ⟨held, _, hsub, hheld⟩ := (h.pages.tasks i t ht).fine
    obtain ⟨g, hg⟩ := h.pinned.resident p (Pages.guards_pos ht (hsub ((hheld p).mp hh)))
    rw [hp] at hg
    cases hg
  refine ⟨good_load h.pages hholder (h.le_disk hp), hpinned, h.logged, h.single, h.image,
    h.disk_mem, fun q => ?_, h.covered_of_later hlater (fun _ _ hl => .inl hl)
      fun _ hp => .inl hp⟩
  by_cases hq : q = p
  · subst hq; simpa using h.disk_mem q
  · simpa [update_of_ne hq] using h.lsn_mem q

/-! ## Flushes -/

theorem later_start_flush {w : Pool} (h : w.Pinned) (hf : w.page_table p = some f) :
    Later w (w.start_flush p f) := by
  have hold {j : Nat} {fl : Flight} (hj : w.flights[j]? = some fl) :
      (w.start_flush p f).flights[j]? = some fl := by
    simp only [start_flush]
    rw [getElem?_append_left (lt_of_getElem? hj)]
    exact hj
  refine ⟨fun _ => le_rfl, fun q l _ hk => .inr ⟨?_, rfl⟩, fun k fl q l _ hk hc =>
    .inr ⟨fl, hold hk, .inl hc⟩, fun k fl hk hs => ⟨fl, hold hk, hs⟩⟩
  rcases hk with ⟨g, hg, hd⟩ | ⟨k, fl, hk, hc⟩
  swap
  · exact .inr ⟨k, fl, hold hk, hc⟩
  by_cases hqp : q = p
  · subst hqp
    exact .inr ⟨w.flights.length, ⟨f, q, .copying⟩, by simp [start_flush], rfl, .inl rfl⟩
  have hgf : g ≠ f := by
    rintro rfl
    have hid := (h.table q g).mp hg
    rw [(h.table p g).mp hf] at hid
    exact hqp (Option.some.inj hid).symm
  exact .inl ⟨g, hg, by simpa [start_flush, update_of_ne hgf] using hd⟩

theorem flushed_start_flush {w : Pool} (h : w.Flushed) (hok : w.NoFlight p)
    (hf : w.page_table p = some f) : (w.start_flush p f).Flushed := by
  refine ⟨h.pages, pinned_start_flush h.pinned hf, h.logged, ?_, ?_, h.disk_mem, h.lsn_mem,
    h.covered_of_later (later_start_flush h.pinned hf) (fun _ _ hl => .inl hl)
      fun _ hp => .inl hp⟩
  · intro j k fl gl hj hk hfl hgl hpage
    rcases getElem?_concat_cases hj with hj | ⟨rfl, rfl⟩ <;>
      rcases getElem?_concat_cases hk with hk | ⟨rfl, rfl⟩
    · exact h.single j k fl gl hj hk hfl hgl hpage
    · exact absurd hpage (hok fl (mem_of_getElem? hj) hfl)
    · exact absurd hpage.symm (hok gl (mem_of_getElem? hk) hgl)
    · rfl
  intro k fl c hk hs
  rcases getElem?_concat_cases hk with hk | ⟨rfl, rfl⟩
  · exact h.image k fl c hk hs
  · cases hs

section SetStage

variable {w : Pool} {k : Nat} {fl : Flight} {s : FlightStage}
  {metadata : Nat → FrameMetadata} {disk : Nat → Nat}

/-- A flush that goes on, or ends, without losing what it carried. -/
theorem Later.of_set_stage (hk : w.flights[k]? = some fl) (hact : fl.active = true)
    (hdisk : ∀ p, w.disk p ≤ disk p)
    (hdirty : ∀ p, w.Dirty p → Dirty { w.set_stage k fl s with metadata, disk } p)
    (hmine : ∀ p, ∀ l ∈ w.pages.stamped p, fl.Carries p l → l ≤ disk p ∨
      Flight.Carries { fl with stage := s } p l ∨
        (s = .failed ∧ Dirty { w.set_stage k fl s with metadata, disk } p)) :
    Later w { w.set_stage k fl s with metadata, disk } := by
  have hget := getElem?_set_eq_ite hk { fl with stage := s }
  have hself : (w.set_stage k fl s).flights[k]? = some { fl with stage := s } :=
    (hget k).trans (if_pos rfl)
  have hother {j : Nat} {gl : Flight} (hj : w.flights[j]? = some gl) (hne : j ≠ k) :
      (w.set_stage k fl s).flights[j]? = some gl := (hget j).trans ((if_neg hne).trans hj)
  refine ⟨hdisk, fun p l hl hkept => ?_, fun j gl p l hl hj hc => ?_, fun j gl hj hs => ?_⟩
  · rcases hkept with hd | ⟨j, gl, hj, hc⟩
    · exact .inr ⟨.inl (hdirty p hd), rfl⟩
    by_cases hjk : j = k
    · subst hjk
      cases hj.symm.trans hk
      rcases hmine p l hl hc with hd | hc | ⟨_, hd⟩
      · exact .inl hd
      · exact .inr ⟨.inr ⟨j, _, hself, hc⟩, rfl⟩
      · exact .inr ⟨.inl hd, rfl⟩
    · exact .inr ⟨.inr ⟨j, gl, hother hj hjk, hc⟩, rfl⟩
  · by_cases hjk : j = k
    · subst hjk
      cases hj.symm.trans hk
      rcases hmine p l hl hc with hd | hc | ⟨hs, _⟩
      · exact .inl hd
      · exact .inr ⟨_, hself, .inl hc⟩
      · exact .inr ⟨_, hself, .inr hs⟩
    · exact .inr ⟨gl, hother hj hjk, .inl hc⟩
  by_cases hjk : j = k
  · subst hjk
    cases hj.symm.trans hk
    simp [Flight.active, hs] at hact
  · exact ⟨gl, hother hj hjk, hs⟩

theorem Flushed.of_set_stage (h : w.Flushed) (hk : w.flights[k]? = some fl)
    (hact : fl.active = true) (hl : Later w { w.set_stage k fl s with metadata, disk })
    (hpinned : Pinned { w.set_stage k fl s with metadata, disk })
    (hdisk : ∀ p, p ≠ fl.page → disk p = w.disk p)
    (hmem : disk fl.page = 0 ∨ disk fl.page ∈ w.pages.stamped fl.page)
    (himage : ∀ c, s = .copied c → disk fl.page ≤ c ∧ (c = 0 ∨ c ∈ w.pages.stamped fl.page)) :
    Flushed { w.set_stage k fl s with metadata, disk } := by
  have hget := getElem?_set_eq_ite hk { fl with stage := s }
  -- a flush of the new state was one of the old state, of the same page
  have hold {j : Nat} {gl : Flight} (hj : (w.set_stage k fl s).flights[j]? = some gl)
      (hgl : gl.active = true) :
      ∃ gl', w.flights[j]? = some gl' ∧ gl'.active = true ∧ gl'.page = gl.page := by
    unfold set_stage at hj
    rw [hget] at hj
    split at hj
    · rename_i hjk
      cases hj
      exact ⟨fl, by rw [hjk]; exact hk, hact, rfl⟩
    · exact ⟨gl, hj, hgl, rfl⟩
  refine
    { h with
      pinned := hpinned
      single := fun i j gl gl' hi hj hgl hgl' hpage => ?_
      image := fun j gl c hj hs => ?_
      disk_mem := fun p => ?_
      covered := h.covered_of_later hl (fun _ _ hl => .inl hl) fun _ hp => .inl hp }
  · obtain ⟨al, hi, hal, hpi⟩ := hold hi hgl
    obtain ⟨bl, hj, hbl, hpj⟩ := hold hj hgl'
    exact h.single i j al bl hi hj hal hbl (by rw [hpi, hpj, hpage])
  · unfold set_stage at hj
    rw [hget] at hj
    split at hj
    · cases hj
      exact himage c hs
    rename_i hjk
    have hne : gl.page ≠ fl.page := by
      intro hpage
      exact hjk (h.single j k gl fl hj hk (by simp [Flight.active, hs]) hact hpage)
    dsimp only
    rw [hdisk _ hne]
    exact h.image j gl c hj hs
  dsimp only
  by_cases hp : p = fl.page
  · subst hp; exact hmem
  · rw [hdisk p hp]; exact h.disk_mem p

end SetStage

/-- The copy has every record stamped on the page. -/
theorem flushed_copy_frame {w w' : Pool} {k : Nat} (h : w.Flushed)
    (hw : w.step (.copy_frame k) = some w') : w'.Flushed ∧ Later w w' := by
  have hpinned := pinned_step (e := .copy_frame k) h.pinned h.pages trivial hw
  simp only [step] at hw
  split at hw
  swap
  · cases hw
  rename_i fl hk
  split at hw
  swap
  · cases hw
  rename_i q hstage hq
  obtain ⟨hholder, ⟨⟩⟩ := ite_none_right_eq_some.mp hw
  have hact : fl.active = true := by simp [Flight.active, hstage]
  have hqp : q = fl.page := by
    have := (h.pinned.table _ _).mp (h.pinned.flights fl (mem_of_getElem? hk) hact)
    rw [hq] at this
    exact Option.some.inj this
  subst hqp
  have hle : ∀ l ∈ w.pages.stamped fl.page, l ≤ w.pages.lsn fl.page := h.pages.free _ hholder
  have hlater : Later w (w.set_stage k fl (.copied (w.pages.lsn fl.page))) := by
    refine .of_set_stage hk hact (fun _ => le_rfl) (fun _ hd => hd) ?_
    intro p l hl hc
    rw [← hc.1] at hl
    exact .inr (.inl ⟨hc.1, .inr ⟨_, rfl, hle l hl⟩⟩)
  refine ⟨h.of_set_stage hk hact hlater hpinned (fun _ _ => rfl) (h.disk_mem _) ?_, hlater⟩
  intro c hc
  cases hc
  refine ⟨?_, h.lsn_mem fl.page⟩
  rcases h.disk_mem fl.page with hd | hd
  · show w.disk fl.page ≤ _
    omega
  · exact hle _ hd

theorem flushed_write_page {w w' : Pool} {k : Nat} (h : w.Flushed)
    (hw : w.step (.write_page k) = some w') : w'.Flushed ∧ Later w w' := by
  have hpinned := pinned_step (e := .write_page k) h.pinned h.pages trivial hw
  simp only [step] at hw
  split at hw
  swap
  · cases hw
  rename_i fl hk
  split at hw <;> cases hw
  rename_i lsn hstage
  have hact : fl.active = true := by simp [Flight.active, hstage]
  obtain ⟨himage, hmem⟩ := h.image k fl lsn hk hstage
  have hlater : Later w
      { w.set_stage k fl .written with disk := update w.disk fl.page lsn } := by
    refine .of_set_stage (s := .written) hk hact ?_ (fun _ hd => hd) ?_
    · intro p
      by_cases hp : p = fl.page
      · subst hp; simpa using himage
      · simp [update_of_ne hp]
    rintro p l _ ⟨rfl, hs | ⟨c, hs, hle⟩⟩
    · rw [hstage] at hs; cases hs
    rw [hstage] at hs
    cases hs
    exact .inl (by simpa using hle)
  refine ⟨h.of_set_stage (s := .written) hk hact hlater hpinned ?_ ?_ ?_, hlater⟩
  · intro p hp
    exact update_of_ne hp _ _
  · simpa using hmem
  intro c hc
  cases hc

theorem flushed_end_flush {w : Pool} {k : Nat} {fl : Flight} (h : w.Flushed) (ok : Bool)
    (hk : w.flights[k]? = some fl) (hact : fl.active = true)
    (hok : ok = true → fl.stage = .written) :
    (w.end_flush k fl ok).Flushed ∧ Later w (w.end_flush k fl ok) := by
  have htable := h.pinned.flights fl (mem_of_getElem? hk) hact
  have hdirty : ∀ p, w.Dirty p → (w.end_flush k fl ok).Dirty p := by
    rintro p ⟨g, hg, hd⟩
    refine ⟨g, hg, ?_⟩
    by_cases hgf : g = fl.frame
    · subst hgf; simp [end_flush, FrameMetadata.unpin, hd]
    · simpa [end_flush, update_of_ne hgf] using hd
  have hlater : Later w (w.end_flush k fl ok) := by
    refine .of_set_stage (s := if ok then .done else .failed) hk hact (fun _ => le_rfl)
      hdirty ?_
    rintro p l _ ⟨rfl, hc⟩
    cases ok with
    | true =>
      rw [hok rfl] at hc
      rcases hc with hc | ⟨_, hc, _⟩ <;> cases hc
    | false =>
      exact .inr (.inr ⟨rfl, fl.frame, htable, by simp [FrameMetadata.unpin]⟩)
  refine ⟨h.of_set_stage (s := if ok then .done else .failed) hk hact hlater
    (pinned_end_flush h.pinned ok hk hact) (fun _ _ => rfl) (h.disk_mem _) ?_, hlater⟩
  intro c hc
  cases ok <;> cases hc

/-! ## Every step -/

theorem flushed_step {w w' : Pool} {e : PoolEvent} (h : w.Flushed) (hok : w.Orderly e)
    (hw : w.step e = some w') : w'.Flushed ∧ Later w w' := by
  have hpinned := pinned_step h.pinned h.pages hok.evictsIdle hw
  cases e with
  | page e => exact ⟨flushed_page h hok hw, (later_page hw).1⟩
  | fetch_page p =>
    simp only [step] at hw
    split at hw
    · cases hw
      exact h.frames_step hpinned (Later.of_frame id)
    · cases hw
  | drop_read_guard p =>
    simp only [step] at hw
    split at hw
    · split at hw
      · cases hw
        exact h.frames_step hpinned (Later.of_frame (by simp [FrameMetadata.unpin]))
      · cases hw
    · cases hw
  | victim f =>
    obtain ⟨-, ⟨⟩⟩ := ite_none_right_eq_some.mp hw
    exact h.frames_step hpinned (Later.of_frame id)
  | evict f =>
    simp only [step] at hw
    split at hw
    · next p hp =>
      obtain ⟨⟨-, hclean⟩, ⟨⟩⟩ := ite_none_right_eq_some.mp hw
      exact h.frames_step hpinned (later_evict h hok hp hclean)
    · cases hw
  | load p f => exact ⟨flushed_load h hw, later_load h hw⟩
  | flush_page p =>
    simp only [step, map_eq_some_iff] at hw
    obtain ⟨f, hf, rfl⟩ := hw
    have hf := (dirty_frame_eq_some.mp hf).1
    exact ⟨flushed_start_flush h hok hf, later_start_flush h.pinned hf⟩
  | copy_frame k => exact flushed_copy_frame h hw
  | write_page k => exact flushed_write_page h hw
  | finish_flush k =>
    simp only [step] at hw
    split at hw
    · rename_i fl hk
      split at hw
      · rename_i hstage
        cases hw
        exact flushed_end_flush h true hk (by simp [Flight.active, hstage]) fun _ => hstage
      · cases hw
    · cases hw
  | fail_flush k =>
    simp only [step] at hw
    split at hw
    · rename_i fl hk
      split at hw
      · rename_i hact
        cases hw
        exact flushed_end_flush h false hk hact (by simp)
      · cases hw
    · cases hw
  | flush_visited =>
    simp only [step] at hw
    split at hw
    swap
    · cases hw
    rename_i redo cursor p hstage
    simp only [Orderly, hstage] at hok
    split at hw
    · rename_i f hf
      cases hw
      have hf := (dirty_frame_eq_some.mp hf).1
      have hs := flushed_start_flush h hok hf
      have hl := later_start_flush h.pinned hf
      exact ⟨(hs.frames_step hpinned Later.of_same).1, { hl with }⟩
    cases hw
    exact h.frames_step hpinned Later.of_same
  | log_checkpoint =>
    simp only [step] at hw
    split at hw
    · rename_i redo pages hstage hpages
      cases hw
      have hpage : w.step (.page .log_other) = some { w with pages := pages } := by
        simp [step, hpages]
      have hs := flushed_page (e := .log_other) h ⟨trivial, trivial⟩ hpage
      have hl := (later_page hpage).1
      exact ⟨(hs.frames_step hpinned Later.of_same).1, { hl with }⟩
    · cases hw
  | _ =>
    simp only [step] at hw
    repeat' split at hw
    all_goals first
      | cases hw
        exact h.frames_step hpinned Later.of_same
      | cases hw

theorem flushed_new (n : Nat) : (new n).Flushed where
  pages := Pages.good_init
  pinned := pinned_new n
  logged := by simp [Pages.Logged, new, Pages.new]
  single := by simp [new]
  image := by simp [new]
  disk_mem := by simp [new]
  lsn_mem := by simp [new, Pages.new]
  covered := by simp [new, Pages.new]

end Pool

end FluxDB
