-- What the steps of a thread do to the invariant of the shard: latches, loads, writes through
-- a guard, pins and unpins, writes to the disk, and frames that get or lose their page. The
-- hypotheses are what a step needs beyond the invariant.
import FluxDB.PoolCoherence

namespace FluxDB.Shard

open List Maps Thread

variable {α : Type} {w w' : World α} {i : Nat} {t t' : Thread α} {p f : Nat}

attribute [simp] World.setThread World.setMeta World.reserve World.unpin ClockReplacer.pin
  ClockReplacer.unpin

/-! ## Latches -/

theorem writes_of_write_latched (h : w.write_latched f = false) :
    ∀ t ∈ w.threads, t.on f = true → t.writes = false := by
  intro t ht hon
  have := any_eq_false.mp h t ht
  simpa [hon] using this

theorem free_of_latched (h : w.latched f = false) :
    ∀ t ∈ w.threads, t.on f = true → t.writes = false ∧ t.reads = false := by
  intro t ht hon
  have := any_eq_false.mp h t ht
  simpa [hon] using this

theorem Good.latest_of_free (h : Good w) (hown : w.page_table p = some f)
    (hloading : (w.metadata f).loading = false)
    (hfree : ∀ t ∈ w.threads, t.on f = true → t.writes = false) : w.pages f = w.latest p :=
  (h.kept p).resident f hown hloading hfree

variable {a : Access} {needs_load : Bool}

theorem good_take_latch (h : Good w) (hi : w.threads[i]? = some (.latch a p f needs_load))
    (hstep : w.take_latch i a p f needs_load = some w') : Good w' := by
  have hfits := h.fits i _ hi p f rfl
  -- both kinds of a write latch need the frame to be free
  have hgrants : w.latched f = false → ∀ t' : Thread α, t'.reads = false → w.Grants i t' f := by
    intro hfree t' hreads j u _ hj hon
    refine ⟨fun _ => free_of_latched hfree u (mem_of_getElem? hj) hon, fun hr => ?_⟩
    rw [hreads] at hr
    cases hr
  unfold World.take_latch at hstep
  split at hstep
  · split at hstep
    · cases hstep
    rename_i hfree
    cases hstep
    refine h.move hi rfl rfl rfl rfl rfl rfl rfl ?_ nofun nofun nofun nofun
    intro j u _ hj hon
    refine ⟨nofun, fun _ => ?_⟩
    exact writes_of_write_latched (Bool.eq_false_iff.mpr hfree) u (mem_of_getElem? hj) hon
  · split at hstep
    · cases hstep
    rename_i hfree
    have hfree := Bool.eq_false_iff.mpr hfree
    cases hstep
    refine h.move hi rfl rfl rfl rfl rfl rfl rfl (hgrants hfree _ rfl) (fun _ => ?_) nofun nofun
      nofun
    exact h.latest_of_free hfits.own hfits.loads.symm fun t ht hon =>
      (free_of_latched hfree t ht hon).1
  rename_i hread hmut
  split at hstep
  · cases hstep
  rename_i hfree
  cases hstep
  have hproper : (needs_load || a == .new_page) = true := by
    cases a <;> cases needs_load <;> simp_all
  exact h.move hi rfl rfl hproper rfl rfl rfl rfl
    (hgrants (Bool.eq_false_iff.mpr hfree) _ rfl) nofun nofun nofun nofun

/-! ## Loads -/

theorem Good.alone_of_loads (h : Good w) (hi : w.threads[i]? = some t)
    (ht : t.uses = some (p, f)) (hloads : t.loads = true) :
    ∀ j u, j ≠ i → w.threads[j]? = some u → u.on f = false := by
  intro j u hne hj
  refine Bool.eq_false_iff.mpr fun hon => ?_
  have := h.apart i j t u f hne.symm hi hj (on_of_uses ht) hon
  simp [Thread.clashes, hloads] at this

/-- Next to a thread with the write latch nobody relies on the bytes of the frame. -/
theorem Good.not_current_of_writes (h : Good w) (hi : w.threads[i]? = some t)
    (ht : t.uses = some (p, f)) (hwrites : t.writes = true) {j : Nat} {u : Thread α} (hne : j ≠ i)
    (hj : w.threads[j]? = some u) (hu : u.uses = some (p, f)) :
    u.current = false ∧ u.loads = false ∧ u.writes = false ∧ u.reads = false := by
  have h1 := h.apart i j t u f hne.symm hi hj (on_of_uses ht) (on_of_uses hu)
  have h2 := h.apart j i u t f hne hj hi (on_of_uses hu) (on_of_uses ht)
  simp only [Thread.clashes, hwrites, Bool.true_and, Bool.or_eq_false_iff] at h1 h2
  refine ⟨Bool.eq_false_iff.mpr fun hc => ?_, h2.2, h1.1.1.1, h1.1.1.2⟩
  rcases writes_or_loads_of_current (h.fits j u hj p f hu).proper hc with hw | hl
  · rw [h1.1.1.1] at hw
    cases hw
  rw [h2.2] at hl
  cases hl

/-- The bytes of a frame change under its write latch. Nobody else on the frame minds, unless
`delete_page` is writing it out. -/
theorem Good.fill {data : α} (h : Good w) (hi : w.threads[i]? = some t)
    (ht : t.uses = some (p, f)) (ht' : t'.uses = some (p, f)) (hproper : t'.proper = true)
    (hwrites : t.writes = true) (hloads : t'.loads = t.loads)
    (hflushes : t'.flushes = false)
    (hbuf : t'.buf? = none) (hwrote : t'.wrote = false) (hdeletes : t'.deletes = false)
    (htouched : t.touched = true → t'.touched = true)
    (hcurrent : t'.current = true → data = w.latest p)
    (hdone : t'.loads = true ∨ t'.writes = true ∧ t'.touched = true)
    (hnodelete : t'.touched = true → ∀ u ∈ w.threads, u.on f = true → u.deletes = false) :
    Good ({ w with pages := Function.update w.pages f data }.setThread i t') := by
  have hfits := h.fits i t hi p f ht
  have hon' := on_of_uses ht'
  have hmem : t' ∈ w.threads.set i t' := mem_set (lt_of_getElem? hi) t'
  apply h.update hi rfl (p := p) (f := f) _ hfits.own (.inr ht) (.inr ht')
  case hpins =>
    rw [on_of_uses ht, hon']
    rfl
  case hsettled => exact h.settled f
  case hheld => exact h.held_set hi ht (hflushes.trans (flushes_of_writes hwrites).symm)
  case hbusy => exact .inl hon'
  case hself =>
    intro _
    refine ⟨hproper, hfits.own, hloads.trans hfits.loads, ?_, fun hc => ?_, ?_, ?_, ?_⟩
    · rw [hloads]
      exact hfits.stored
    · exact (Function.update_self f data w.pages).trans (hcurrent hc)
    · rw [hbuf]
      exact nofun
    · rw [hwrote]
      exact nofun
    rw [hdeletes]
    exact nofun
  case hothers =>
    intro j u hne hj hu
    obtain ⟨hcur, hul, huw, hur⟩ := h.not_current_of_writes hi ht hwrites hne hj hu
    have hfu := h.fits j u hj p f hu
    have hunsaved : w.Unsaved f → World.Unsaved
        ({ w with pages := Function.update w.pages f data }.setThread i t') f :=
      World.Unsaved.set hi rfl id fun _ htt => .inr ⟨hon', htouched htt⟩
    refine ⟨⟨hfu.proper, hfu.own, hfu.loads, hfu.stored, ?_, fun b hb => ?_, fun hb => ?_, ?_⟩, ?_⟩
    · rw [hcur]
      exact nofun
    · exact ⟨(hfu.copied b hb).1, (hfu.copied b hb).2.imp_right fun hd => ⟨hd.1, hunsaved hd.2⟩⟩
    · exact (hfu.wrote hb).imp_right fun hd => ⟨hd.1, hunsaved hd.2⟩
    · intro hd
      refine (hfu.untouched hd).set hi rfl fun _ => Bool.eq_false_iff.mpr fun htt => ?_
      rw [hnodelete htt u (mem_of_getElem? hj) (on_of_uses hu)] at hd
      cases hd
    intro _
    have hne' : t.loads = false := by
      rw [hfits.loads, ← hfu.loads]
      exact hul
    simp [Thread.clashes, hloads, hne', hflushes, hul, huw, hur]
  case hkept =>
    refine kept_of_own hfits.own ?_ ?_
    · intro hloading hfree
      rcases hdone with hl | ⟨hw, -⟩
      · have : t.loads = false := hfits.loads.trans hloading
        rw [hloads, this] at hl
        cases hl
      have := hfree t' hmem hon'
      rw [hw] at this
      cases this
    intro hloading _ huntouched _
    rcases hdone with hl | ⟨-, htt⟩
    · have : t.loads = false := hfits.loads.trans hloading
      rw [hloads, this] at hl
      cases hl
    have := huntouched t' hmem hon'
    rw [htt] at this
    cases this
  case hhistory => exact h.history p
  · constructor <;> intros <;> simp_all

theorem good_load [Inhabited α] (h : Good w) (hi : w.threads[i]? = some (.load a p f needs_load))
    (hnodelete : a = .new_page → ∀ u ∈ w.threads, u.on f = true → u.deletes = false)
    (hstep : w.runThread i (.load a p f needs_load) = some w') : Good w' := by
  have hfits := h.fits i _ hi p f rfl
  have hproper : (needs_load || a == .new_page) = true := hfits.proper
  cases hstep
  refine h.fill hi rfl rfl hfits.proper rfl rfl rfl rfl rfl rfl nofun ?_ ?_ ?_
  · intro hc
    have ha : a ≠ .new_page := by simpa [Thread.current] using hc
    rw [if_neg ha]
    exact hfits.stored (by simpa [Thread.loads, ha] using hproper)
  · cases needs_load with
    | true => exact .inl rfl
    | false =>
      have ha : a = .new_page := by simpa using hproper
      rw [ha]
      exact .inr ⟨rfl, rfl⟩
  intro htt
  exact hnodelete (by simpa [Thread.touched] using htt)

theorem good_write {dirty fresh : Bool} (data : α) (h : Good w)
    (hi : w.threads[i]? = some (.write_guard p f dirty fresh))
    (hnodelete : ∀ u ∈ w.threads, u.on f = true → u.deletes = false) :
    Good ({ w with pages := Function.update w.pages f data }.setThread i
      (.write_guard p f true fresh)) :=
  h.fill hi rfl rfl rfl rfl rfl rfl rfl rfl rfl (fun _ => rfl) nofun (.inr ⟨rfl, rfl⟩)
    fun _ => hnodelete

section

variable (h : Good w)

include h

/-- The frame of a call is ready for it. A frame that was loaded was loaded for this thread
alone; one that was not is not in the loading state. -/
theorem good_finish_load (hi : w.threads[i]? = some (.loaded a p f needs_load)) :
    Good ((w.setMeta f { w.metadata f with loading := false }).setThread i
      (World.ready a p f)) := by
  have hfits := h.fits i _ hi p f rfl
  have hon : (Thread.loaded a p f needs_load : Thread α).on f = true := on_of_uses rfl
  have huses : (World.ready a p f : Thread α).uses = some (p, f) := by cases a <;> rfl
  have hloads : (World.ready a p f : Thread α).loads = false := by cases a <;> rfl
  have hlatch : (World.ready a p f : Thread α).writes = true →
      (Thread.loaded a p f needs_load : Thread α).writes = true := by
    cases a <;> simp [World.ready, Thread.writes]
  have hmem : World.ready a p f ∈ w.threads.set i (World.ready a p f) :=
    mem_set (lt_of_getElem? hi) _
  have hnew : a ≠ .new_page → needs_load = true := by
    have : (needs_load || a == .new_page) = true := hfits.proper
    intro ha
    simpa [ha] using this
  -- next to the thread the frame was not in the loading state
  have hother : ∀ j u, j ≠ i → w.threads[j]? = some u → u.uses = some (p, f) →
      (w.metadata f).loading = false := by
    intro j u hne hj hu
    rw [← hfits.loads]
    refine Bool.eq_false_iff.mpr fun hl => ?_
    have := h.alone_of_loads hi rfl hl j u hne hj
    rw [on_of_uses hu] at this
    cases this
  apply h.update hi rfl (p := p) (f := f) _ hfits.own (.inr rfl) (.inr huses)
  case hpins =>
    rw [hon, on_of_uses huses]
    simp
  case hsettled =>
    intro _
    simp
  case hheld => exact h.held_set hi rfl (by cases a <;> rfl)
  case hbusy => exact .inl (on_of_uses huses)
  case hself =>
    intro _
    refine ⟨by cases a <;> rfl, hfits.own, ?_, ?_, ?_, ?_, ?_, ?_⟩
    · rw [hloads]
      simp
    · rw [hloads]
      rintro ⟨⟩
    · intro hc
      refine hfits.current ?_
      cases a <;> simp [World.ready, Thread.current] at hc ⊢
    · cases a <;> rintro _ ⟨⟩
    · cases a <;> rintro ⟨⟩
    · cases a <;> rintro ⟨⟩
  case hothers =>
    intro j u hne hj hu
    have hl := hother j u hne hj hu
    have hfu := h.fits j u hj p f hu
    constructor
    · refine hfu.congr rfl ?_ rfl rfl rfl rfl ?_ ?_
      · simp [hl]
      · refine World.Unsaved.set hi rfl ?_ fun _ htt => ?_
        · simp
        right
        refine ⟨on_of_uses huses, ?_⟩
        cases a <;> simp [Thread.touched, World.ready] at htt ⊢
      intro hu'
      refine hu'.set hi rfl fun _ => ?_
      have := hu' _ (mem_of_getElem? hi) hon
      cases a <;> simp [Thread.touched, World.ready] at this ⊢
    intro _
    refine h.clashes_of_move hi rfl ?_ (by cases a <;> rfl) (h.grants hi rfl hlatch ?_) hne hj
      (on_of_uses hu)
    · rw [hloads, hfits.loads, hl]
    · cases a <;> rintro ⟨⟩
  case hkept =>
    refine kept_of_own hfits.own ?_ ?_
    · intro _ hfree
      have hfree := hfree _ hmem (on_of_uses huses)
      refine hfits.current ?_
      cases a <;> simp [World.ready, Thread.writes, Thread.current] at hfree ⊢
    intro _ _ huntouched _
    have ha : a ≠ .new_page := by
      rintro rfl
      cases huntouched _ hmem (on_of_uses huses)
    exact hfits.stored (hnew ha)
  case hhistory => exact h.history p
  · constructor <;> intros <;> simp_all

/-! ## Pins -/

/-- A thread comes to a frame that is not in the loading state. It holds no latch yet; if it is
to write the frame out, it is the only one to do so. -/
theorem Good.pin {r : ClockReplacer} {is_dirty : Bool} (hi : w.threads[i]? = some t)
    (hown : w.page_table p = some f) (hloading : (w.metadata f).loading = false)
    (ht : t.uses = none)
    (ht' : (∃ a, t' = .latch a p f false) ∨ ∃ after, t' = .copy_frame p f after)
    (hdeletes : t'.deletes = true → w.Untouched f)
    (hr : ∀ g, g ≠ f → r.evictable g = w.replacer.evictable g)
    (hrf : r.evictable f = true → w.replacer.evictable f = true ∧ t'.flushes = true)
    (hflushes : t'.flushes = true → ∀ u ∈ w.threads, u.on f = true → u.flushes = false)
    (hdirty : is_dirty = (w.metadata f).is_dirty ∨ t'.flushes = true) :
    Good ({ w.setMeta f { w.metadata f with pin_count := (w.metadata f).pin_count + 1
                                            is_dirty := is_dirty }
            with replacer := r }.setThread i t') := by
  have hmem : t' ∈ w.threads.set i t' := mem_set (lt_of_getElem? hi) t'
  obtain ⟨huses, hproper, hloads, hwrites, hreads, htouched, hcurrent, hbuf, hwrote⟩ :
      t'.uses = some (p, f) ∧ t'.proper = true ∧ t'.loads = false ∧ t'.writes = false ∧
        t'.reads = false ∧ t'.touched = false ∧ t'.current = false ∧ t'.buf? = none ∧
        t'.wrote = false := by
    rcases ht' with ⟨a, rfl⟩ | ⟨after, rfl⟩ <;>
      exact ⟨rfl, rfl, rfl, rfl, rfl, rfl, rfl, rfl, rfl⟩
  have hon' := on_of_uses huses
  have hoff := on_eq_false ht f
  apply h.update hi rfl (p := p) (f := f) _ hown (.inl ht) (.inr huses)
  case hpins =>
    rw [hoff, hon']
    simp
  case hsettled =>
    intro _
    simpa using hloading
  case hheld =>
    intro he u hu hon
    rcases mem_set_cases hi hu with rfl | ⟨j, -, hj⟩
    · exact (hrf he).2
    · exact h.held f (hrf he).1 u (mem_of_getElem? hj) hon
  case hbusy => exact .inl hon'
  case hself =>
    intro _
    refine ⟨hproper, hown, ?_, ?_, ?_, ?_, ?_, fun hd => ?_⟩
    · rw [hloads]
      simp [hloading]
    · rw [hloads]
      exact nofun
    · rw [hcurrent]
      exact nofun
    · rw [hbuf]
      exact nofun
    · rw [hwrote]
      exact nofun
    · exact (hdeletes hd).set hi rfl fun _ => htouched
  case hothers =>
    intro j u hne hj hu
    have hfu := h.fits j u hj p f hu
    have honu := on_of_uses hu
    have hul : u.loads = false := hfu.loads.trans hloading
    have huf := fun hf => hflushes hf u (mem_of_getElem? hj) honu
    constructor
    · rcases hdirty with hdirty | hf
      · refine hfu.congr rfl ?_ rfl rfl rfl rfl ?_ ?_
        · simp
        · refine World.Unsaved.set hi rfl ?_ fun hon => ?_
          · simp [hdirty]
          rw [hoff] at hon
          cases hon
        · exact fun hu' => hu'.set hi rfl fun _ => htouched
      -- a flush clears the flag; nobody else has a copy of the page then
      refine hfu.of_not_flushes rfl ?_ rfl rfl rfl (huf hf)
      simp
    intro _
    cases hf : t'.flushes with
    | false => simp [Thread.clashes, hloads, hwrites, hreads, hul, hf]
    | true => simp [Thread.clashes, hloads, hwrites, hreads, hul, huf hf]
  case hkept =>
    refine kept_of_own hown ?_ ?_
    · intro _ hfree
      exact h.latest_of_free hown hloading (forall_on_set_self hi hfree fun hon => by
        rw [hoff] at hon
        cases hon)
    intro _ hclean huntouched hquiet
    cases hf : t'.flushes with
    | true =>
      have := hquiet t' hmem hon'
      rw [hf] at this
      cases this
    | false =>
      have hsame := hdirty.resolve_right (by rw [hf]; exact nofun)
      refine (h.kept p).clean f hown hloading ?_ ?_ ?_
      · simpa [hsame] using hclean
      · exact forall_on_set_self hi huntouched fun hon => by
          rw [hoff] at hon
          cases hon
      exact forall_on_set_self hi hquiet fun hon => by
        rw [hoff] at hon
        cases hon
  case hhistory => exact h.history p
  · constructor <;> intros <;> simp_all

/-- A thread gives its pin back. A page that it has changed is marked dirty; a page that it has
written out carries the latest content, or is still unsaved. -/
theorem Good.unpin {is_dirty : Bool} (hi : w.threads[i]? = some t) (ht : t.uses = some (p, f))
    (ht' : t'.uses = none) (hloads : t.loads = false) (hwrites : t.writes = false)
    (htouched : t.touched = true → is_dirty = true)
    (hdirty : (w.metadata f).is_dirty = true → is_dirty = true ∨ t.deletes = true)
    (hflushes : t.flushes = true → t.wrote = true ∨ is_dirty = true) :
    Good ((w.unpin f is_dirty).setThread i t') := by
  have hfits := h.fits i t hi p f ht
  have hon := on_of_uses ht
  have hpin := h.pinned hi ht
  have hloading : (w.metadata f).loading = false := hfits.loads.symm.trans hloads
  have hdirty' : (((w.unpin f is_dirty).setThread i t').metadata f).is_dirty = is_dirty := by
    simp
  have hflight : t.deletes = true → t.flushes = true := by
    cases t <;> simp [Thread.deletes, Thread.flushes]
  apply h.update hi rfl (p := p) (f := f) _ hfits.own (.inr ht) (.inl ht')
  case hpins =>
    rw [hon, on_eq_false ht' f]
    simp only [World.setThread, World.unpin, World.setMeta, Function.update_self]
    simp only [if_true, Bool.false_eq_true, if_false]
    omega
  case hsettled =>
    intro _
    simpa using hloading
  case hheld =>
    intro he u hu hon'
    rcases mem_set_cases hi hu with rfl | ⟨j, hne, hj⟩
    · rw [on_eq_false ht' f] at hon'
      cases hon'
    have hcount := countP_set_add hi t' (Thread.on f)
    have hpos : 0 < (w.threads.set i t').countP (Thread.on f) := countP_pos_iff.mpr ⟨u, hu, hon'⟩
    have hpins := h.pins f
    rw [hon, on_eq_false ht' f, if_pos rfl, if_neg Bool.false_ne_true] at hcount
    refine h.held f ?_ u (mem_of_getElem? hj) hon'
    simpa [show (w.metadata f).pin_count - 1 ≠ 0 by omega] using he
  case hbusy =>
    right
    simpa using hloading
  case hself =>
    rw [ht']
    rintro ⟨⟩
  case hothers =>
    intro j u hne hj hu
    have hfu := h.fits j u hj p f hu
    have hclash := h.apart i j t u f hne.symm hi hj hon (on_of_uses hu)
    refine ⟨?_, fun hon' => ?_⟩
    · cases hd : t.deletes with
      | false =>
        refine hfu.congr rfl ?_ rfl rfl rfl rfl ?_ ?_
        · simp
        · refine World.Unsaved.set hi rfl ?_ ?_
          · rw [hdirty']
            intro hdt
            exact (hdirty hdt).resolve_right (by rw [hd]; rintro ⟨⟩)
          intro _ htt
          rw [hdirty']
          exact .inl (htouched htt)
        exact fun hu' => hu'.set hi rfl fun hon' => by
          rw [on_eq_false ht' f] at hon'
          cases hon'
      | true =>
        -- the flag is cleared after a write-out: nobody else has a copy of the page
        have huf : u.flushes = false := by
          simp only [Thread.clashes, hflight hd, Bool.true_and, Bool.or_eq_false_iff] at hclash
          exact hclash.1.2
        refine hfu.of_not_flushes rfl ?_ rfl rfl rfl huf
        simp
    rw [on_eq_false ht' f] at hon'
    cases hon'
  case hkept =>
    refine kept_of_own hfits.own ?_ ?_
    · intro _ hfree
      exact h.latest_of_free hfits.own hloading (forall_on_set_self hi hfree fun _ => hwrites)
    intro _ hclean huntouched hquiet
    rw [hdirty'] at hclean
    have huntouched' : w.Untouched f := forall_on_set_self hi huntouched fun _ =>
      Bool.eq_false_iff.mpr fun htt => by
        rw [hclean] at htouched
        cases htouched htt
    -- a flush that went well has saved the page, or it was unsaved again
    cases hf : t.flushes with
    | true =>
      have hw : t.wrote = true := (hflushes hf).resolve_right (by rw [hclean]; rintro ⟨⟩)
      rcases hfits.wrote hw with hdisk | ⟨hd, hunsaved⟩
      · exact hdisk
      rcases hunsaved with hdt | ⟨u, hu, honu, htu⟩
      · rcases hdirty hdt with he | he
        · rw [hclean] at he
          cases he
        rw [hd] at he
        cases he
      rw [huntouched' u hu honu] at htu
      cases htu
    | false =>
      refine (h.kept p).clean f hfits.own hloading ?_ huntouched' ?_
      · refine Bool.eq_false_iff.mpr fun hdt => ?_
        rcases hdirty hdt with he | he
        · rw [hclean] at he
          cases he
        rw [hflight he] at hf
        cases hf
      · exact forall_on_set_self hi hquiet fun _ => hf
  case hhistory => exact h.history p
  · constructor <;> intros <;> simp_all
    split <;> simp_all

/-! ## The disk and the latest content -/

/-- A copy reaches the disk. Nobody else writes the page out, and nobody is loading it. -/
theorem good_write_page {after : After} {buf : α}
    (hi : w.threads[i]? = some (.write_page p f after buf)) :
    Good ({ w with disk := Function.update w.disk p buf }.setThread i
      (.written p f after true)) := by
  have hfits := h.fits i _ hi p f rfl
  have hon : (write_page p f after buf : Thread α).on f = true := on_of_uses rfl
  have hon' : (Thread.written p f after true : Thread α).on f = true := on_of_uses rfl
  have hdeletes : (Thread.written p f after true : Thread α).deletes =
      (write_page p f after buf : Thread α).deletes := by
    cases after <;> rfl
  have hunsaved : w.Unsaved f → World.Unsaved
      ({ w with disk := Function.update w.disk p buf }.setThread i (.written p f after true)) f :=
    World.Unsaved.set hi rfl id fun _ htt => by cases htt
  have huntouched : w.Untouched f → World.Untouched
      ({ w with disk := Function.update w.disk p buf }.setThread i (.written p f after true)) f :=
    fun hu => hu.set hi rfl fun _ => rfl
  apply h.update hi rfl (p := p) (f := f) _ hfits.own (.inr rfl) (.inr rfl)
  case hpins =>
    rw [hon, hon']
    rfl
  case hsettled => exact h.settled f
  case hheld => exact h.held_set hi rfl rfl
  case hbusy => exact .inl hon'
  case hself =>
    intro _
    refine ⟨rfl, hfits.own, hfits.loads, nofun, nofun, nofun, fun _ => ?_, ?_⟩
    · rw [hdeletes]
      refine (hfits.copied buf rfl).2.imp (fun hb => ?_) fun hd => ⟨hd.1, hunsaved hd.2⟩
      exact (Function.update_self p buf w.disk).trans hb
    rw [hdeletes]
    exact fun hd => huntouched (hfits.untouched hd)
  case hothers =>
    intro j u hne hj hu
    have hfu := h.fits j u hj p f hu
    have hclash := h.apart i j _ u f hne.symm hi hj hon (on_of_uses hu)
    have huf : u.flushes = false := by simpa [Thread.clashes, Thread.flushes, Thread.writes,
      Thread.loads] using hclash
    obtain ⟨hbuf, hwrote, hdel⟩ := plain_of_not_flushes huf
    have hul : u.loads = false := hfu.loads.trans hfits.loads.symm
    refine ⟨⟨hfu.proper, hfu.own, hfu.loads, ?_, hfu.current, ?_, ?_, ?_⟩, fun _ => ?_⟩
    · rw [hul]
      rintro ⟨⟩
    · rw [hbuf]
      rintro _ ⟨⟩
    · rw [hwrote]
      rintro ⟨⟩
    · rw [hdel]
      rintro ⟨⟩
    exact h.clashes_of_move hi rfl rfl rfl (h.grants hi rfl Bool.noConfusion Bool.noConfusion)
      hne hj (on_of_uses hu)
  case hkept =>
    refine kept_of_own hfits.own ?_ ?_
    · intro hloading hfree
      exact h.latest_of_free hfits.own hloading (forall_on_set_self hi hfree fun _ => rfl)
    intro _ _ _ hquiet
    cases hquiet _ (mem_set (lt_of_getElem? hi) _) hon'
  case hhistory => exact h.history p
  · constructor <;> intros <;> simp_all

/-- A write guard is dropped: what it leaves in the frame is the latest content. The page is
unsaved then, unless the guard was not written through. -/
theorem good_drop_write_guard {dirty fresh : Bool}
    (hi : w.threads[i]? = some (.write_guard p f dirty fresh))
    (hfresh : fresh = true → dirty = true) :
    Good ({ w with
      latest := Function.update w.latest p (w.pages f)
      contents := Function.update w.contents p (w.pages f :: w.contents p) }.setThread i
        (.unpin_page p f dirty)) := by
  have hfits := h.fits i _ hi p f rfl
  have hon : (write_guard p f dirty fresh : Thread α).on f = true := on_of_uses rfl
  have hon' : (unpin_page p f dirty : Thread α).on f = true := on_of_uses rfl
  have hmem := mem_set (lt_of_getElem? hi) (.unpin_page p f dirty : Thread α)
  have hsame : dirty = false → w.pages f = w.latest p := by
    intro hd
    refine hfits.current ?_
    cases fresh with
    | true => rw [hfresh rfl] at hd; cases hd
    | false => rw [hd]; rfl
  apply h.update hi rfl (p := p) (f := f) _ hfits.own (.inr rfl) (.inr rfl)
  case hpins =>
    rw [hon, hon']
    rfl
  case hsettled => exact h.settled f
  case hheld => exact h.held_set hi rfl rfl
  case hbusy => exact .inl hon'
  case hself => exact fun _ => ⟨rfl, hfits.own, hfits.loads, nofun, nofun, nofun, nofun, nofun⟩
  case hothers =>
    intro j u hne hj hu
    obtain ⟨hcur, hul, huw, hur⟩ := h.not_current_of_writes hi rfl rfl hne hj hu
    have hfu := h.fits j u hj p f hu
    -- a copy of the old content is fine, since the page is unsaved now
    have hcopy : ∀ x, (x = w.latest p ∨ u.deletes = false ∧ w.Unsaved f) →
        x = w.pages f ∨ u.deletes = false ∧ World.Unsaved
          ({ w with latest := Function.update w.latest p (w.pages f)
                    contents := Function.update w.contents p (w.pages f :: w.contents p) }.setThread
            i (.unpin_page p f dirty)) f := by
      intro x hx
      by_cases hdirty : dirty = true
      · right
        refine ⟨Bool.eq_false_iff.mpr fun hd => ?_, .inr ⟨_, hmem, hon', hdirty⟩⟩
        have := hfu.untouched hd _ (mem_of_getElem? hi) hon
        simp [Thread.touched, hdirty] at this
      rw [hsame (Bool.eq_false_iff.mpr hdirty)]
      refine hx.imp_right fun hd => ⟨hd.1, ?_⟩
      refine World.Unsaved.set hi rfl id (fun _ htt => ?_) hd.2
      have hff : fresh = true := by simpa [Thread.touched, hdirty] using htt
      exact absurd (hfresh hff) hdirty
    refine ⟨⟨hfu.proper, hfu.own, hfu.loads, ?_, ?_, fun b hb => ?_, fun hb => ?_, fun hd => ?_⟩,
      fun _ => ?_⟩
    · rw [hul]
      exact nofun
    · rw [hcur]
      exact nofun
    · simp only [World.setThread, Function.update_self]
      exact ⟨mem_cons_of_mem _ (hfu.copied b hb).1, hcopy b (hfu.copied b hb).2⟩
    · simp only [World.setThread, Function.update_self]
      exact hcopy _ (hfu.wrote hb)
    · refine (hfu.untouched hd).set hi rfl fun _ => ?_
      have := hfu.untouched hd _ (mem_of_getElem? hi) hon
      simp only [Thread.touched, Bool.or_eq_false_iff] at this
      exact this.1
    have hgrants : w.Grants i (.unpin_page p f dirty) f := h.grants hi rfl nofun nofun
    refine h.clashes_of_move hi rfl ?_ ?_ hgrants hne hj (on_of_uses hu) <;> rfl
  case hkept =>
    refine kept_of_own hfits.own ?_ ?_
    · intro _ _
      simp
    intro hloading hclean huntouched hquiet
    have hdirty : dirty = false := huntouched _ hmem hon'
    have hff : fresh = false := Bool.eq_false_iff.mpr fun hff => by
      rw [hfresh hff] at hdirty
      cases hdirty
    have := (h.kept p).clean f hfits.own hloading hclean
      (forall_on_set_self hi huntouched fun _ => by rw [hdirty, hff]; rfl)
      (forall_on_set_self hi hquiet fun _ => rfl)
    simpa [hsame hdirty] using this
  case hhistory => simp
  · constructor <;> intros <;> simp_all

/-! ## Frames given away and given back -/

/-- A frame without a page and without threads is reserved for a page that has none. -/
theorem good_reserve (hi : w.threads[i]? = some t) (ht : t.uses = none) (hp : w.page_table p = none)
    (hf : (w.metadata f).page_id = none) (hfree : f ∉ w.free_list) :
    Good ((w.reserve p f).setThread i (.latch a p f true)) := by
  have hother : ∀ q g, w.page_table q = some g → q ≠ p ∧ g ≠ f := by
    rintro q g hq
    constructor
    · rintro rfl
      rw [hp] at hq
      cases hq
    rintro rfl
    rw [(h.table q g).mp hq] at hf
    cases hf
  have hon' : (Thread.latch a p f true : Thread α).on f = true := on_of_uses rfl
  have hw : Rehoused w ((w.reserve p f).setThread i (.latch a p f true)) i (.latch a p f true)
      p f := by
    constructor <;> intros <;> simp_all
    · -- a thread on the frame would have its page there
      next j u hj hu =>
      refine Bool.eq_false_iff.mpr fun hon => ?_
      obtain ⟨q, hq⟩ := on_iff.mp hon
      have := (h.table q f).mp (h.fits j u hu q f hq).own
      rw [hf] at this
      cases this
  apply h.rehouse hi hw
  · exact fun g _ => on_eq_false ht g
  · intro g hg
    simpa [Thread.on, Thread.uses] using hg.symm
  · exact .inr ⟨hp, hf⟩
  · intro q g hqg
    simp only [World.setThread, World.reserve, Function.update_apply]
    by_cases hq : q = p
    · by_cases hg : g = f
      · simp [hq, hg]
      simp only [hq, hg, if_true, if_false, Option.some.injEq]
      refine iff_of_false (Ne.symm hg) fun hgp => ?_
      exact (hother p g ((h.table p g).mpr hgp)).1 rfl
    have hg : g = f := hqg.resolve_left hq
    simp only [hq, hg, if_true, if_false, Option.some.injEq]
    exact iff_of_false (fun hqf => (hother q f hqf).2 rfl) (Ne.symm hq)
  · rw [hon']
    simp
  · exact fun g hg _ => hg
  · exact fun hmem => absurd hmem hfree
  · exact h.nodup
  · simp
  · simp
  · exact .inr hon'
  · rintro q hq
    cases hq
    refine ⟨rfl, ?_, ?_, fun _ => (h.kept p).absent hp, Bool.noConfusion,
      by rintro _ ⟨⟩, Bool.noConfusion, Bool.noConfusion⟩
    · simp
    · simp [Thread.loads]
  refine kept_of_own (f := f) (by simp) ?_ ?_
  · intro hl
    simp at hl
  intro hl
  simp at hl

/-- A page whose latest content is on disk leaves its frame. -/
theorem Good.vacate {fs : List Nat} {m : FrameMetadata} {r : ClockReplacer}
    (hi : w.threads[i]? = some t) (hown : w.page_table p = some f)
    (ht : ∀ g, g ≠ f → t.on g = false) (ht' : t'.uses = none)
    (halone : ∀ j u, j ≠ i → w.threads[j]? = some u → u.on f = false)
    (hdisk : w.disk p = w.latest p)
    (hm : m.page_id = none ∧ m.pin_count = 0 ∧ m.is_dirty = false)
    (hr : ∀ g, g ≠ f → r.evictable g = w.replacer.evictable g) (hrf : r.evictable f = false)
    (hfs : fs = w.free_list ∨ fs = f :: w.free_list) :
    Good ({ w with page_table := Function.update w.page_table p none
                   metadata := Function.update w.metadata f m
                   replacer := r, free_list := fs }.setThread i t') := by
  have hfree : f ∉ w.free_list := by
    intro hmem
    have := (h.free f hmem).1
    rw [(h.table p f).mp hown] at this
    cases this
  have hw : Rehoused w ({ w with page_table := Function.update w.page_table p none
                                 metadata := Function.update w.metadata f m
                                 replacer := r, free_list := fs }.setThread i t') i t' p f := by
    constructor <;> intros <;> simp_all
    · next j u hj hu => exact halone j u hj hu
  apply h.rehouse hi hw
  · exact ht
  · exact fun g _ => on_eq_false ht' g
  · exact .inl hown
  · intro q g hqg
    simp only [World.setThread, Function.update_apply]
    by_cases hq : q = p
    · by_cases hg : g = f
      · simp [hq, hg, hm.1]
      simp only [hq, hg, if_true, if_false]
      refine iff_of_false nofun fun hgp => hg ?_
      exact Option.some.inj (((h.table p g).mpr hgp).symm.trans hown)
    have hg : g = f := hqg.resolve_left hq
    simp only [hq, hg, if_true, if_false, hm.1]
    refine iff_of_false (fun hqf => hq ?_) nofun
    have := (h.table q f).mp hqf
    rw [(h.table p f).mp hown] at this
    exact (Option.some.inj this).symm
  · rw [on_eq_false ht' f]
    simp [hm.2.1]
  · intro g hg hgf
    rcases hfs with hfs | hfs
    · exact hfs ▸ hg
    simp only [World.setThread, hfs, mem_cons] at hg
    exact hg.resolve_left hgf
  · intro _
    simp [hm.1]
  · rcases hfs with hfs | hfs
    · exact hfs ▸ h.nodup
    simp only [World.setThread, hfs]
    exact nodup_cons.mpr ⟨hfree, h.nodup⟩
  · exact hrf
  · simp [hm.2.2]
  · left
    simp [hm.1]
  · intro q hq
    rw [ht'] at hq
    cases hq
  refine ⟨fun _ => hdisk, ?_, ?_⟩
  · intro g hg
    simp at hg
  intro g hg
  simp at hg

end

end FluxDB.Shard
