-- The laws of one shard of the buffer pool: a fetch returns the latest content of its page, a
-- write to the disk carries a content of its own page, a frame in use is not given away, and a
-- pin count never falls below zero. They hold in every run that is careful.
import FluxDB.FrameSteps

namespace FluxDB.Shard

open List Option Thread
open Function (update)

variable {α : Type} {w w' : World α} {i : Nat} {t : Thread α}

/-! ## Careful runs -/

/-- Nobody is in the write-out of `delete_page` on the frame. -/
def World.NotDeleting (w : World α) (f : Nat) : Prop :=
  ∀ t ∈ w.threads, t.on f = true → t.deletes = false

/-- Nobody writes the frame out. -/
def World.NotFlushing (w : World α) (f : Nat) : Prop :=
  ∀ t ∈ w.threads, t.on f = true → t.flushes = false

/-- What a step of a thread needs: a frame is given away, and a flush starts, when no other
write-out of the frame is in flight, and a page is not filled with zeros while `delete_page`
writes it out. -/
def Thread.Careful (w : World α) : Thread α → Prop
  | .acquire_frame _ p => w.page_table p = none → ∀ f ∈ w.find_victim_frame_id.1,
      w.dirty_page f = none → w.NotFlushing f
  | .flush_page p _ => ∀ f ∈ w.page_table p, (w.metadata f).is_dirty = true → w.NotFlushing f
  | .load .new_page _ f _ => w.NotDeleting f
  | _ => True

/-- A guard from `new_page` has been written through. -/
def Thread.wroteThrough : Thread α → Bool
  | .write_guard _ _ dirty fresh => dirty || !fresh
  | _ => true

/-- Nobody writes through a guard on a page that `delete_page` writes out, and a guard from
`new_page` is written through before it is dropped. -/
def Careful (w : World α) : Event α → Prop
  | .run i => ∀ t ∈ w.threads[i]?, t.Careful w
  | .write i _ => ∀ t ∈ w.threads[i]?, ∀ u ∈ t.uses, w.NotDeleting u.2
  | .drop_guard i => ∀ t ∈ w.threads[i]?, t.wroteThrough = true
  | _ => True

instance (w : World α) (f : Nat) : Decidable (w.NotDeleting f) :=
  inferInstanceAs (Decidable (∀ t ∈ w.threads, _ → _))

instance (w : World α) (f : Nat) : Decidable (w.NotFlushing f) :=
  inferInstanceAs (Decidable (∀ t ∈ w.threads, _ → _))

instance (w : World α) (t : Thread α) : Decidable (t.Careful w) := by
  unfold Thread.Careful
  split <;> infer_instance

instance (w : World α) (e : Event α) : Decidable (Careful w e) := by
  cases e <;> dsimp only [Careful] <;> infer_instance

/-! ## Every step keeps the invariant -/

theorem good_find_victim (h : Good w) : Good w.find_victim_frame_id.2 := by
  unfold World.find_victim_frame_id
  split
  · next f fs hfs => exact h.shrink (hfs ▸ sublist_cons_self f fs) fun _ hf => hf
  refine h.shrink (List.Sublist.refl _) fun f hf => ?_
  cases hv : w.replacer.victim.1 with
  | none => exact ClockReplacer.victim_none hv ▸ hf
  | some g =>
    rw [(ClockReplacer.victim_some hv).2, Function.update_apply] at hf
    split at hf
    · cases hf
    · exact hf

variable {f p : Nat} {a : Access}

/-- A frame that is found is on no list any more, and is not in the loading state if it has a
page. -/
theorem found_frame (h : Good w) (hf : w.find_victim_frame_id.1 = some f) :
    f ∉ w.find_victim_frame_id.2.free_list ∧ w.find_victim_frame_id.2.replacer.evictable f = false ∧
      ((w.metadata f).page_id ≠ none → (w.metadata f).loading = false) := by
  unfold World.find_victim_frame_id at hf ⊢
  split at hf
  · next g fs hfs =>
    cases hf
    have hmem : f ∈ w.free_list := hfs ▸ mem_cons_self
    have hnodup := h.nodup
    rw [hfs] at hnodup
    exact ⟨(nodup_cons.mp hnodup).1, (h.free f hmem).2, fun hp => absurd (h.free f hmem).1 hp⟩
  rename_i hnil
  have hv := ClockReplacer.victim_some hf
  refine ⟨?_, ?_, fun _ => h.settled f (.inl hv.1)⟩
  · rw [hnil]
    exact not_mem_nil
  · simp [hv.2]

/-- Only a write-out has a pin on a frame that is found. -/
theorem unpinned_of_found (h : Good w) (hf : w.find_victim_frame_id.1 = some f)
    (hquiet : w.NotFlushing f) : (w.metadata f).pin_count = 0 := by
  rw [h.pins f, countP_eq_zero]
  intro t ht hon
  unfold World.find_victim_frame_id at hf
  split at hf
  · next g fs hfs =>
    cases hf
    -- a thread on the frame would have its page there
    obtain ⟨q, hq⟩ := on_iff.mp hon
    obtain ⟨j, hj⟩ := mem_iff_getElem?.mp ht
    have hpage := (h.table q f).mp (h.fits j t hj q f hq).own
    rw [(h.free f (hfs ▸ mem_cons_self)).1] at hpage
    cases hpage
  · have hflushes := h.held f (ClockReplacer.victim_some hf).1 t ht hon
    rw [hquiet t ht hon] at hflushes
    cases hflushes

theorem good_evict_reserve (h : Good w) (hi : w.threads[i]? = some t) (ht : t.uses = none)
    (hp : w.page_table p = none) (hfree : f ∉ w.free_list)
    (hevictable : w.replacer.evictable f = false) (hclean : w.dirty_page f = none)
    (hpin : (w.metadata f).pin_count = 0)
    (hloading : (w.metadata f).page_id ≠ none → (w.metadata f).loading = false) :
    Good (((w.evict f).reserve p f).setThread i (.latch a p f true)) := by
  have hunused := h.unused hpin
  unfold World.evict
  cases hold : (w.metadata f).page_id with
  | none => exact good_reserve h hi ht hp hold hfree
  | some old =>
    have hown := (h.table old f).mpr hold
    have hdirty : (w.metadata f).is_dirty = false := by
      unfold World.dirty_page at hclean
      rw [hold] at hclean
      simpa using hclean
    have hdisk : w.disk old = w.latest old := by
      refine (h.kept old).clean f hown (hloading (by rw [hold]; exact nofun)) hdirty ?_ ?_
      · intro u hu hon
        rw [hunused u hu] at hon
        cases hon
      intro u hu hon
      rw [hunused u hu] at hon
      cases hon
    have hlt := Maps.lt_of_getElem? hi
    let m : FrameMetadata := { w.metadata f with page_id := none }
    have hvacant : Good ({ w with page_table := update w.page_table old none
                                  metadata := update w.metadata f m }.setThread i t) :=
      h.vacate hi hown (fun g _ => on_eq_false ht g) ht
        (fun j u _ hj => hunused u (mem_of_getElem? hj)) hdisk ⟨rfl, hpin, hdirty⟩
        (fun g _ => rfl)
        hevictable (.inl rfl)
    have hi' : (w.threads.set i t)[i]? = some t := by simp [hlt]
    have := good_reserve (a := a) (p := p) hvacant hi' ht ?_ ?_ hfree
    · simpa [set_set, m] using this
    · simp [Function.update_apply, hp]
    · simp [m]

theorem good_acquire_frame (h : Good w) (hi : w.threads[i]? = some (.acquire_frame a p))
    (hok : (acquire_frame a p).Careful w) (hstep : w.acquire_frame i a p = some w') :
    Good w' := by
  have hgood := good_find_victim h
  rcases acquire_frame_cases hstep with ⟨f, hp, hl, rfl⟩ | ⟨hp, fs, r, hv, hmiss⟩
  · refine h.pin hi hp hl rfl (.inl ⟨a, rfl⟩) nofun ?_ ?_ nofun (.inl rfl)
    · intro g hg
      simp [hg]
    · simp
  rw [hv] at hgood
  rcases hmiss with ⟨t, ht, rfl⟩ | ⟨f, hf, hd, rfl⟩
  · refine hgood.aside hi rfl ?_
    rcases ht with rfl | ⟨old, rfl⟩ <;> rfl
  obtain ⟨hfree, hevictable, hloading⟩ := found_frame h hf
  rw [hv] at hfree hevictable
  have hpin := unpinned_of_found h hf (hok hp f hf hd)
  exact good_evict_reserve hgood hi rfl hp hfree hevictable hd hpin hloading

theorem Caller.resume_uses (caller : Caller) : (caller.resume : Thread α).uses = none := by
  cases caller <;> rfl

theorem After.resume_uses (after : After) (p : Nat) : (after.resume p : Thread α).uses = none := by
  cases after with
  | flush caller => exact caller.resume_uses
  | delete_page => rfl

section

variable (h : Good w)

include h

theorem good_flush_page {caller : Caller} (hi : w.threads[i]? = some (.flush_page p caller))
    (hok : (flush_page p caller).Careful w) : Good (w.flush_page i p caller) := by
  unfold World.flush_page
  cases hp : w.page_table p with
  | none => exact h.aside hi rfl caller.resume_uses
  | some f =>
    simp only
    by_cases hd : (w.metadata f).is_dirty = true
    · have hdirty : w.dirty_page f = some p := by
        unfold World.dirty_page
        rw [if_pos hd]
        exact (h.table p f).mp hp
      simp only [hdirty]
      exact h.pin (r := w.replacer) hi hp (h.settled f (.inr hd)) rfl (.inr ⟨_, rfl⟩) nofun
        (fun _ _ => rfl) (fun he => ⟨he, rfl⟩) (fun _ => hok f hp hd) (.inr rfl)
    have hclean : w.dirty_page f = none := by
      unfold World.dirty_page
      rw [if_neg hd]
    simp only [hclean]
    exact h.aside hi rfl caller.resume_uses

theorem good_delete_page (hi : w.threads[i]? = some (.delete_page p)) :
    Good (w.delete_page i p) := by
  unfold World.delete_page
  cases hp : w.page_table p with
  | none => exact h.aside hi rfl rfl
  | some f =>
    simp only
    split
    · exact h.aside hi rfl rfl
    rename_i hpin
    have hunused := h.unused (Nat.eq_zero_of_not_pos hpin)
    split
    · next hd =>
      -- nobody is on the frame, so nobody has touched it
      have hpid : (w.metadata f).page_id.getD p = p := by
        rw [(h.table p f).mp hp]
        rfl
      rw [hpid]
      refine h.pin (r := w.replacer) hi hp (h.settled f (.inr hd)) rfl (.inr ⟨_, rfl⟩) ?_
        (fun _ _ => rfl) (fun he => ⟨he, rfl⟩) ?_ (.inl rfl)
      · intro _ u hu hon
        rw [hunused u hu] at hon
        cases hon
      intro _ u hu hon
      rw [hunused u hu] at hon
      cases hon
    rename_i hd
    have hloading : (w.metadata f).loading = false := Bool.eq_false_iff.mpr fun hl =>
      hpin (h.busy p f hp hl)
    have hdisk : w.disk p = w.latest p := by
      refine (h.kept p).clean f hp hloading (Bool.eq_false_iff.mpr hd) ?_ ?_
      · intro u hu hon
        rw [hunused u hu] at hon
        cases hon
      intro u hu hon
      rw [hunused u hu] at hon
      cases hon
    refine h.vacate hi hp (fun g _ => rfl) rfl
      (fun j u _ hj => hunused u (mem_of_getElem? hj)) hdisk ⟨rfl, rfl, rfl⟩ ?_ ?_
      (.inr rfl)
    · intro g hg
      simp [hg]
    · simp

/-- The frame of a load that failed is free again, and the page is on disk as it was. -/
theorem good_load_failed (hi : w.threads[i]? = some (.load_failed p f)) :
    Good ((w.free_frame p f false).setThread i .done) := by
  have hfits := h.fits i _ hi p f rfl
  refine h.vacate hi hfits.own ?_ rfl (h.alone_of_loads hi rfl rfl) (hfits.stored rfl)
    ⟨rfl, rfl, rfl⟩ ?_ ?_ (.inr rfl)
  · intro g hg
    simpa [Thread.on, Thread.uses] using hg.symm
  · intro g hg
    simp [hg]
  · simp

theorem good_unpin_page {dirty : Bool} (hi : w.threads[i]? = some (.unpin_page p f dirty)) :
    Good ((w.unpin_page p dirty).setThread i .done) := by
  have hfits := h.fits i _ hi p f rfl
  unfold World.unpin_page
  rw [hfits.own]
  simp only [h.pinned hi rfl, if_true]
  refine h.unpin hi rfl rfl rfl rfl ?_ ?_ nofun
  · intro hd
    exact Bool.or_eq_true_iff.mpr (.inr hd)
  intro hd
  exact .inl (Bool.or_eq_true_iff.mpr (.inl hd))

theorem good_end_write {after : After} {ok : Bool}
    (hi : w.threads[i]? = some (.written p f after ok)) : Good (w.end_write i p f after ok) := by
  unfold World.end_write
  cases ok with
  | false => exact h.unpin hi rfl rfl rfl rfl nofun (fun _ => .inl rfl) fun _ => .inr rfl
  | true =>
    refine h.unpin hi rfl (after.resume_uses p) rfl rfl nofun ?_ fun _ => .inl rfl
    intro hd
    cases after with
    | flush caller => exact .inl hd
    | delete_page => exact .inr rfl

theorem good_copy_frame {after : After} (hi : w.threads[i]? = some (.copy_frame p f after))
    (hfree : w.write_latched f = false) :
    Good (w.setThread i (.write_page p f after (w.pages f))) := by
  have hfits := h.fits i _ hi p f rfl
  have hlatest : w.pages f = w.latest p :=
    h.latest_of_free hfits.own hfits.loads.symm (writes_of_write_latched hfree)
  refine h.move hi rfl rfl rfl rfl rfl rfl ?_ (h.grants hi rfl nofun nofun) nofun ?_ nofun nofun
  · cases after <;> rfl
  intro b hb
  cases hb
  rw [hlatest]
  exact ⟨h.history p, .inl rfl⟩

theorem good_failThread (hi : w.threads[i]? = some t) (hstep : w.failThread i t = some w') :
    Good w' := by
  cases t with
  | load a p f needs_load =>
    have hfits := h.fits i _ hi p f rfl
    simp only [World.failThread] at hstep
    split at hstep
    · cases hstep
    rename_i ha
    cases hstep
    have hproper : (needs_load || a == .new_page) = true := hfits.proper
    have hload : needs_load = true := by simpa [ha] using hproper
    subst hload
    refine h.move hi rfl rfl rfl rfl rfl rfl rfl (h.grants hi rfl nofun nofun) nofun nofun nofun ?_
    intro _ _ hloading
    have := hfits.loads.trans hloading
    cases this
  | write_page p f after buf =>
    cases hstep
    refine h.move hi rfl rfl rfl rfl rfl rfl ?_ (h.grants hi rfl nofun nofun) nofun nofun
      nofun nofun
    cases after <;> rfl
  | written p f after ok =>
    cases after with
    | flush caller =>
      cases caller with
      | flush_page =>
        cases ok with
        | true =>
          cases hstep
          exact h.move hi rfl rfl rfl rfl rfl rfl rfl (h.grants hi rfl nofun nofun) nofun nofun
            nofun nofun
        | false => cases hstep
      | _ => cases hstep
    | delete_page => cases hstep
  | _ => cases hstep

theorem Good.guard_latest
    (hi : w.threads[i]? = some (.read_guard p f) ∨
      w.threads[i]? = some (.write_guard p f false false)) : w.pages f = w.latest p := by
  rcases hi with hi | hi
  swap
  · exact (h.fits i _ hi p f rfl).current rfl
  have hfits := h.fits i _ hi p f rfl
  refine h.latest_of_free hfits.own hfits.loads.symm fun u hu hon => ?_
  obtain ⟨j, hj⟩ := mem_iff_getElem?.mp hu
  by_cases hne : j = i
  · subst hne
    rw [hi] at hj
    cases hj
    rfl
  have := h.apart j i u _ f hne hj hi hon (on_of_uses rfl)
  simp only [Thread.clashes, Thread.reads, Bool.or_true, Bool.and_true,
    Bool.or_eq_false_iff] at this
  exact this.1.1

end

theorem page_id_update {g : Nat} {m : FrameMetadata}
    (hf : (update w.metadata g m f).page_id = some p)
    (hm : m.page_id = (w.metadata g).page_id ∨ m.page_id = none) :
    (w.metadata f).page_id = some p := by
  rw [Function.update_apply] at hf
  split at hf
  · next hfg =>
    rw [hfg]
    rcases hm with hm | hm
    · exact hm ▸ hf
    rw [hm] at hf
    cases hf
  · exact hf

theorem page_id_acquire_frame {q : Nat} (hstep : w.acquire_frame i a q = some w')
    (hnew : (w'.metadata f).page_id = some p) :
    (w.metadata f).page_id = some p ∨
      w.page_table q = none ∧ w.find_victim_frame_id.1 = some f ∧ w.dirty_page f = none := by
  rcases acquire_frame_cases hstep with
    ⟨g, -, -, rfl⟩ | ⟨hq, fs, r, -, ⟨t, -, rfl⟩ | ⟨g, hg, hd, rfl⟩⟩
  · exact .inl (page_id_update hnew (.inl rfl))
  · exact .inl hnew
  by_cases hfg : f = g
  · subst hfg
    exact .inr ⟨hq, hg, hd⟩
  left
  simp only [World.setThread, World.reserve, Function.update_of_ne hfg] at hnew
  unfold World.evict at hnew
  split at hnew
  · exact page_id_update hnew (.inr rfl)
  · exact hnew

variable [Inhabited α]

theorem good_runThread (h : Good w) (hi : w.threads[i]? = some t) (hok : t.Careful w)
    (hstep : w.runThread i t = some w') : Good w' := by
  cases t with
  | acquire_frame a p => exact good_acquire_frame h hi hok hstep
  | latch a p f needs_load => exact good_take_latch h hi hstep
  | load a p f needs_load =>
    refine good_load h hi (fun ha => ?_) hstep
    subst ha
    exact hok
  | loaded a p f needs_load =>
    cases hstep
    exact good_finish_load h hi
  | load_failed p f =>
    cases hstep
    exact good_load_failed h hi
  | unpin_page p f dirty =>
    cases hstep
    exact good_unpin_page h hi
  | flush_page p caller =>
    cases hstep
    exact good_flush_page h hi hok
  | flush_all_pages f =>
    simp only [World.runThread] at hstep
    split at hstep
    · split at hstep
      · cases hstep
        exact h.aside hi rfl rfl
      cases hstep
      exact h.aside hi rfl rfl
    cases hstep
    exact h.aside hi rfl rfl
  | delete_page p =>
    cases hstep
    exact good_delete_page h hi
  | copy_frame p f after =>
    simp only [World.runThread] at hstep
    split at hstep
    · cases hstep
    rename_i hfree
    cases hstep
    exact good_copy_frame h hi (Bool.eq_false_iff.mpr hfree)
  | write_page p f after buf =>
    cases hstep
    exact good_write_page h hi
  | written p f after ok =>
    cases hstep
    exact good_end_write h hi
  | read_guard p f | write_guard p f dirty fresh | done => cases hstep

theorem good_step (w : World α) (e : Event α) (w' : World α) (h : Good w) (hok : Careful w e)
    (hstep : w.step e = some w') : Good w' := by
  cases e with
  | run i =>
    obtain ⟨t, hi, hrun⟩ := bind_eq_some_iff.mp hstep
    exact good_runThread h hi (hok t hi) hrun
  | fail i =>
    obtain ⟨t, hi, hfail⟩ := bind_eq_some_iff.mp hstep
    exact good_failThread h hi hfail
  | write i data =>
    simp only [World.step] at hstep
    split at hstep
    · next p f dirty fresh hi =>
      cases hstep
      exact good_write data h hi (hok _ hi _ rfl)
    · cases hstep
  | drop_guard i =>
    simp only [World.step] at hstep
    split at hstep
    · next p f hi =>
      cases hstep
      exact h.move hi rfl rfl rfl rfl rfl rfl rfl (h.grants hi rfl nofun nofun) nofun nofun nofun
        nofun
    · next p f dirty fresh hi =>
      cases hstep
      refine good_drop_write_guard h hi fun hfresh => ?_
      have hthrough : (dirty || !fresh) = true := hok _ hi
      simpa [hfresh] using hthrough
    · cases hstep
  | _ =>
    cases hstep
    exact h.call rfl

/-! ## What a careful step does -/

/-- What a step of the shard may do: a fetch returns the latest content of its page; bytes are
copied from the frame of their own page, and are a content of the page when they are written;
no thread is on a frame that gets another page; and a pin that is given back is there. -/
structure Coherent (w : World α) (e : Event α) : Prop where
  fetch : ∀ i w' p f, e = .run i → w.step e = some w' →
    w'.threads[i]? = some (.read_guard p f) ∨ w'.threads[i]? = some (.write_guard p f false false) →
    w'.pages f = w'.latest p
  copy_frame : ∀ i p f after, e = .run i → w.threads[i]? = some (.copy_frame p f after) →
    (w.metadata f).page_id = some p
  write_page : ∀ i p f after buf, e = .run i → w.threads[i]? = some (.write_page p f after buf) →
    buf ∈ w.contents p
  hand_out : ∀ w' f p, w.step e = some w' → (w'.metadata f).page_id = some p →
    (w.metadata f).page_id ≠ some p → ∀ t ∈ w.threads, t.on f = false
  unpin : ∀ i p f after ok, e = .run i → w.threads[i]? = some (.written p f after ok) →
    0 < (w.metadata f).pin_count

/-- Only `acquire_frame` gives a frame a page it did not have. -/
theorem page_id_runThread (hstep : w.runThread i t = some w')
    (hnew : (w'.metadata f).page_id = some p) :
    (w.metadata f).page_id = some p ∨ ∃ a q, t = .acquire_frame a q ∧ w.page_table q = none ∧
      w.find_victim_frame_id.1 = some f ∧ w.dirty_page f = none := by
  cases t with
  | acquire_frame a q =>
    exact (page_id_acquire_frame hstep hnew).imp_right fun hfound => ⟨a, q, rfl, hfound⟩
  | latch a q g needs_load =>
    left
    simp only [World.runThread, World.take_latch] at hstep
    split at hstep <;> split at hstep <;> cases hstep <;> exact hnew
  | load a q g needs_load | write_page q g after buf =>
    cases hstep
    exact .inl hnew
  | loaded a q g needs_load =>
    cases hstep
    exact .inl (page_id_update hnew (.inl rfl))
  | load_failed q g =>
    cases hstep
    exact .inl (page_id_update hnew (.inr rfl))
  | unpin_page q g dirty =>
    left
    cases hstep
    simp only [World.setThread, World.unpin_page] at hnew
    split at hnew
    · split at hnew
      · exact page_id_update hnew (.inl rfl)
      · exact hnew
    · exact hnew
  | flush_page q caller =>
    left
    cases hstep
    simp only [World.flush_page] at hnew
    split at hnew
    · split at hnew
      · exact page_id_update hnew (.inl rfl)
      · exact hnew
    · exact hnew
  | flush_all_pages g =>
    left
    simp only [World.runThread] at hstep
    split at hstep
    · split at hstep <;> cases hstep <;> exact hnew
    cases hstep
    exact hnew
  | delete_page q =>
    left
    cases hstep
    simp only [World.delete_page] at hnew
    split at hnew
    · exact hnew
    split at hnew
    · exact hnew
    split at hnew
    · exact page_id_update hnew (.inl rfl)
    · exact page_id_update hnew (.inr rfl)
  | copy_frame q g after =>
    left
    simp only [World.runThread] at hstep
    split at hstep <;> cases hstep
    exact hnew
  | written q g after ok =>
    left
    cases hstep
    simp only [World.end_write] at hnew
    split at hnew <;> exact page_id_update hnew (.inl rfl)
  | read_guard q g | write_guard q g dirty fresh | done => cases hstep

theorem page_id_step {e : Event α} (hstep : w.step e = some w')
    (hnew : (w'.metadata f).page_id = some p) :
    (w.metadata f).page_id = some p ∨ ∃ i a q, e = .run i ∧
      w.threads[i]? = some (.acquire_frame a q) ∧ w.page_table q = none ∧
      w.find_victim_frame_id.1 = some f ∧ w.dirty_page f = none := by
  cases e with
  | run i =>
    obtain ⟨t, hi, hrun⟩ := bind_eq_some_iff.mp hstep
    refine (page_id_runThread hrun hnew).imp_right ?_
    rintro ⟨a, q, rfl, hfound⟩
    exact ⟨i, a, q, rfl, hi, hfound⟩
  | fail i =>
    left
    obtain ⟨t, hi, hfail⟩ := bind_eq_some_iff.mp hstep
    unfold World.failThread at hfail
    split at hfail
    · split at hfail <;> cases hfail
      exact hnew
    · cases hfail
      exact hnew
    · cases hfail
      exact hnew
    · cases hfail
  | write i data =>
    left
    simp only [World.step] at hstep
    split at hstep <;> cases hstep
    exact hnew
  | drop_guard i =>
    left
    simp only [World.step] at hstep
    split at hstep <;> cases hstep <;> exact hnew
  | _ =>
    cases hstep
    exact .inl hnew

theorem coherent_step (w : World α) (e : Event α) (h : Good w) (hok : Careful w e) :
    Coherent w e := by
  constructor
  · intro i w' p f _ hstep hi
    exact (good_step w e w' h hok hstep).guard_latest hi
  · intro i p f after _ hi
    exact (h.table p f).mp (h.fits i _ hi p f rfl).own
  · intro i p f after buf _ hi
    exact ((h.fits i _ hi p f rfl).copied buf rfl).1
  · intro w' f p hstep hnew hold
    obtain ⟨i, a, q, rfl, hi, hq, hfound, hclean⟩ := (page_id_step hstep hnew).resolve_left hold
    exact h.unused (unpinned_of_found h hfound (hok _ hi hq f hfound hclean))
  intro i p f after ok _ hi
  exact h.pinned hi rfl

/-- Thread `i` fetches page `p` for writing, writes `data` and drops the guard. -/
def writeTo (i p data : Nat) : List (Event Nat) :=
  [.fetch_page_mut p, .run i, .run i, .run i, .run i, .write i data, .drop_guard i]

/-- Page 1 is written and flushed, page 2 is written, and page 1 is fetched again. -/
def takeTurns : List (Event Nat) :=
  writeTo 0 1 10 ++ [.run 0, .flush_page 1, .run 1, .run 1, .run 1, .run 1] ++ writeTo 2 2 20 ++
    [.run 2, .fetch_page 1, .run 3, .run 3, .run 3, .run 3, .run 3, .run 3, .run 3, .run 3, .run 3,
      .run 3]

/-- Page 2 is written to the only frame while the flush of page 1 is in flight. -/
def evictInFlight : List (Event Nat) :=
  writeTo 0 1 10 ++ [.run 0, .flush_page 1, .run 1] ++ writeTo 2 2 20 ++
    [.run 1, .run 1, .run 1, .fetch_page 1, .run 3, .run 3, .run 3, .run 3, .run 3]

/-- A shard of any size, over any disk: in a careful run of any number of threads every step is
coherent. -/
theorem a_careful_shard_is_coherent (n_frames : Nat) (disk : Nat → α) (p : List (Event α))
    (hok : Runs.Meets World.step Careful (World.new n_frames disk) p) :
    Runs.Meets World.step Coherent (World.new n_frames disk) p :=
  Runs.meets_of_inv good_step coherent_step (good_new n_frames disk) hok

/-- Two pages share one frame; each is written, and the first is flushed before it is evicted. -/
theorem a_flushed_page_is_fetched_again :
    (Runs.run World.step (World.new 1 fun _ => 0) takeTurns).isSome = true ∧
      Runs.Meets World.step Careful (World.new 1 fun _ => 0) takeTurns ∧
      Runs.Meets World.step Coherent (World.new 1 fun _ => 0) takeTurns := by
  have hok : Runs.Meets World.step Careful (World.new 1 fun _ => 0) takeTurns := by decide +kernel
  exact ⟨by decide +kernel, hok, a_careful_shard_is_coherent 1 (fun _ => 0) takeTurns hok⟩

/-- The flush of page 1 has cleared the dirty flag and pinned the frame, but the clock still
offers it: page 2 moves in, and its bytes go to disk as those of page 1. -/
theorem a_flush_in_flight_writes_another_page :
    ∃ w, Runs.run World.step (World.new 1 fun _ => 0) evictInFlight = some w ∧
      w.threads[3]? = some (.read_guard 1 0) ∧ w.pages 0 = 20 ∧ w.latest 1 = 10 ∧
      20 ∉ w.contents 1 :=
  Runs.exists_run (by decide +kernel)

end FluxDB.Shard
