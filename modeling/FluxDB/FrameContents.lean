-- Where the contents of frames, of pages on disk and of copies come from: a frame is loaded from
-- the disk, filled with zeros or written by a guard, a copy is taken from a frame, and a page on
-- disk is such a copy. So what is true of the zeros, of the pages on disk and of everything that
-- guards write is true everywhere, whatever the threads of the shard do.
import FluxDB.PoolCoherence

namespace FluxDB.Shard

open List Function

variable {α : Type}

/-- What is true of all contents: of the frames, of the pages on disk and of the copies in
flight. -/
structure Filled (P : α → Prop) (w : World α) : Prop where
  pages : ∀ f, P (w.pages f)
  disk : ∀ p, P (w.disk p)
  bufs : ∀ (j : Nat) t, w.threads[j]? = some t → ∀ x, t.buf? = some x → P x

/-- The thread that an event is a step of. -/
def Event.thread : Event α → Option Nat
  | .run i | .fail i | .write i _ | .drop_guard i => some i
  | _ => none

/-- A step of thread `i` that moves no contents. -/
structure Bare (w w' : World α) (i : Nat) : Prop where
  pages : w'.pages = w.pages
  disk : w'.disk = w.disk
  threads : ∃ t : Thread α, t.buf? = none ∧ w'.threads = w.threads.set i t

variable {t : Thread α}

section Bare

variable {w w' : World α} {i : Nat}

theorem bare_set {metadata : Nat → FrameMetadata} {page_table : Nat → Option Nat}
    {free_list : List Nat} {replacer : ClockReplacer} {latest : Nat → α} {contents : Nat → List α}
    (ht : t.buf? = none) :
    Bare w { w with metadata, page_table, free_list, replacer, latest, contents
                    threads := w.threads.set i t } i :=
  ⟨rfl, rfl, t, ht, rfl⟩

theorem bare_acquire_frame {a : Access} {p : Nat} (hstep : w.acquire_frame i a p = some w') :
    Bare w w' i := by
  rcases acquire_frame_cases hstep with
    ⟨f, -, -, rfl⟩ | ⟨-, fs, r, -, ⟨t, ht, rfl⟩ | ⟨f, -, -, rfl⟩⟩
  · exact bare_set rfl
  · rcases ht with rfl | ⟨old, rfl⟩ <;> exact bare_set rfl
  unfold World.evict
  split <;> exact bare_set rfl

theorem bare_take_latch {a : Access} {p f : Nat} {needs_load : Bool}
    (hstep : w.take_latch i a p f needs_load = some w') : Bare w w' i := by
  have hgranted : ∀ {c : Bool} {t : Thread α}, t.buf? = none →
      (if c then none else some (w.setThread i t)) = some w' → Bare w w' i := by
    intro c t ht h
    split at h
    · cases h
    cases h
    exact bare_set ht
  unfold World.take_latch at hstep
  split at hstep
  · exact hgranted rfl hstep
  · exact hgranted rfl hstep
  · exact hgranted rfl hstep

theorem buf_resume (caller : Caller) : (caller.resume : Thread α).buf? = none := by
  cases caller <;> rfl

theorem buf_after_resume (after : After) (p : Nat) : (after.resume p : Thread α).buf? = none := by
  cases after with
  | flush caller => exact buf_resume caller
  | delete_page => rfl

theorem bare_flush_page (w : World α) (i p : Nat) (caller : Caller) :
    Bare w (w.flush_page i p caller) i := by
  unfold World.flush_page
  split
  · split
    · exact bare_set rfl
    · exact bare_set (buf_resume caller)
  · exact bare_set (buf_resume caller)

theorem bare_delete_page (w : World α) (i p : Nat) : Bare w (w.delete_page i p) i := by
  unfold World.delete_page
  split
  · exact bare_set rfl
  dsimp only
  split
  · exact bare_set rfl
  split
  · exact bare_set rfl
  · exact bare_set rfl

theorem bare_unpin_page (w : World α) (i p : Nat) (dirty : Bool) :
    Bare w ((w.unpin_page p dirty).setThread i .done) i := by
  unfold World.unpin_page
  split
  · split
    · exact bare_set rfl
    · exact bare_set rfl
  · exact bare_set rfl

theorem bare_end_write (w : World α) (i p f : Nat) (after : After) (ok : Bool) :
    Bare w (w.end_write i p f after ok) i := by
  unfold World.end_write
  split
  · exact bare_set (buf_after_resume after p)
  · exact bare_set rfl

theorem bare_failThread (hstep : w.failThread i t = some w') : Bare w w' i := by
  unfold World.failThread at hstep
  split at hstep
  · split at hstep
    · cases hstep
    cases hstep
    exact bare_set rfl
  · cases hstep
    exact bare_set rfl
  · cases hstep
    exact bare_set rfl
  · cases hstep

end Bare

/-! ## What a step does to the contents -/

section Filled

variable {P : α → Prop} {w w' : World α} {i : Nat}

theorem Filled.mono {Q : α → Prop} (h : Filled P w) (hPQ : ∀ x, P x → Q x) : Filled Q w :=
  ⟨fun f => hPQ _ (h.pages f), fun p => hPQ _ (h.disk p),
    fun j t hj x hx => hPQ x (h.bufs j t hj x hx)⟩

theorem Filled.set (h : Filled P w) (hpages : ∀ f, P (w'.pages f)) (hdisk : ∀ p, P (w'.disk p))
    (hthreads : w'.threads = w.threads.set i t) (ht : ∀ x, t.buf? = some x → P x) :
    Filled P w' := by
  refine ⟨hpages, hdisk, fun j u hj x hx => ?_⟩
  rw [hthreads, getElem?_set] at hj
  split at hj
  · split at hj
    · cases hj
      exact ht x hx
    · cases hj
  · exact h.bufs j u hj x hx

theorem Filled.bare (h : Filled P w) (hbare : Bare w w' i) : Filled P w' := by
  obtain ⟨hpages, hdisk, t, ht, hthreads⟩ := hbare
  refine h.set (fun f => hpages ▸ h.pages f) (fun p => hdisk ▸ h.disk p) hthreads ?_
  intro x hx
  rw [ht] at hx
  cases hx

theorem Filled.call (h : Filled P w) (ht : t.buf? = none) : Filled P (w.call t) := by
  refine ⟨h.pages, h.disk, fun j u hj x hx => ?_⟩
  change (w.threads ++ [t])[j]? = some u at hj
  rcases mem_append.mp (mem_of_getElem? hj) with hu | hu
  · obtain ⟨k, hk⟩ := mem_iff_getElem?.mp hu
    exact h.bufs k u hk x hx
  cases mem_singleton.mp hu
  rw [ht] at hx
  cases hx

theorem forall_update {g : Nat → α} (hg : ∀ k, P (g k)) {x : α} (hx : P x) (k : Nat) :
    ∀ m, P (update g k x m) := by
  intro m
  rw [update_apply]
  split
  · exact hx
  · exact hg m

variable [Inhabited α]

theorem filled_new {disk : Nat → α} (n_frames : Nat) (hdefault : P default)
    (hdisk : ∀ p, P (disk p)) : Filled P (.new n_frames disk) :=
  ⟨fun _ => hdefault, hdisk, nofun⟩

/-- The steps of a thread: a load, a copy of a frame, a write to the disk, and those that move no
contents. -/
inductive Moves (w : World α) (i : Nat) : Thread α → World α → Prop
  | bare (t : Thread α) (w' : World α) (hbare : Bare w w' i) : Moves w i t w'
  | load (a : Access) (p f : Nat) (needs_load : Bool) (data : α)
    (hdata : data = default ∨ data = w.disk p) :
    Moves w i (.load a p f needs_load)
      ({ w with pages := update w.pages f data }.setThread i (.loaded a p f needs_load))
  | copy (p f : Nat) (after : After) :
    Moves w i (.copy_frame p f after) (w.setThread i (.write_page p f after (w.pages f)))
  | write (p f : Nat) (after : After) (buf : α) :
    Moves w i (.write_page p f after buf)
      ({ w with disk := update w.disk p buf }.setThread i (.written p f after true))

theorem moves_of_run (hstep : w.runThread i t = some w') : Moves w i t w' := by
  cases t with
  | acquire_frame a p => exact .bare _ _ (bare_acquire_frame hstep)
  | latch a p f needs_load => exact .bare _ _ (bare_take_latch hstep)
  | load a p f needs_load =>
    cases hstep
    refine .load a p f needs_load _ ?_
    split
    · exact .inl rfl
    · exact .inr rfl
  | loaded a p f needs_load =>
    cases hstep
    refine .bare _ _ (bare_set ?_)
    cases a <;> rfl
  | load_failed p f =>
    cases hstep
    exact .bare _ _ (bare_set rfl)
  | unpin_page p f dirty =>
    cases hstep
    exact .bare _ _ (bare_unpin_page w i p dirty)
  | flush_page p caller =>
    cases hstep
    exact .bare _ _ (bare_flush_page w i p caller)
  | flush_all_pages f =>
    simp only [World.runThread] at hstep
    split at hstep
    · split at hstep
      · cases hstep
        exact .bare _ _ (bare_set rfl)
      cases hstep
      exact .bare _ _ (bare_set rfl)
    cases hstep
    exact .bare _ _ (bare_set rfl)
  | delete_page p =>
    cases hstep
    exact .bare _ _ (bare_delete_page w i p)
  | copy_frame p f after =>
    simp only [World.runThread] at hstep
    split at hstep
    · cases hstep
    cases hstep
    exact .copy p f after
  | write_page p f after buf =>
    cases hstep
    exact .write p f after buf
  | written p f after ok =>
    cases hstep
    exact .bare _ _ (bare_end_write w i p f after ok)
  | read_guard p f | write_guard p f dirty fresh | done => cases hstep

variable {e : Event α}

/-- The steps of the shard: a call, a step of a thread, and a write by a guard. -/
theorem step_cases (hstep : w.step e = some w') :
    (e.thread = none ∧ ∃ t : Thread α, t.buf? = none ∧ w' = w.call t) ∨
    (∃ i t, e = .run i ∧ w.threads[i]? = some t ∧ Moves w i t w') ∨
    (∃ i, (e = .fail i ∨ e = .drop_guard i) ∧ Bare w w' i) ∨
    ∃ i data p f dirty fresh, e = .write i data ∧
      w.threads[i]? = some (.write_guard p f dirty fresh) ∧
      w' = { w with pages := update w.pages f data }.setThread i
        (.write_guard p f true fresh) := by
  cases e with
  | fetch_page p | fetch_page_mut p | new_page p | flush_page p | flush_all_pages
  | delete_page p =>
    cases hstep
    exact .inl ⟨rfl, _, rfl, rfl⟩
  | run i =>
    obtain ⟨t, hi, hrun⟩ := Option.bind_eq_some_iff.mp hstep
    exact .inr (.inl ⟨i, t, rfl, hi, moves_of_run hrun⟩)
  | fail i =>
    obtain ⟨t, hi, hfail⟩ := Option.bind_eq_some_iff.mp hstep
    exact .inr (.inr (.inl ⟨i, .inl rfl, bare_failThread hfail⟩))
  | write i data =>
    simp only [World.step] at hstep
    split at hstep
    · next p f dirty fresh hi =>
      cases hstep
      exact .inr (.inr (.inr ⟨i, data, p, f, dirty, fresh, rfl, hi, rfl⟩))
    · cases hstep
  | drop_guard i =>
    simp only [World.step] at hstep
    split at hstep
    · cases hstep
      exact .inr (.inr (.inl ⟨i, .inr rfl, bare_set rfl⟩))
    · cases hstep
      exact .inr (.inr (.inl ⟨i, .inr rfl, bare_set rfl⟩))
    · cases hstep

/-- The contents after a step are contents from before it, zeros, or what a guard writes. -/
theorem filled_step (h : Filled P w) (hdefault : P default)
    (hwrite : ∀ i data, e = .write i data → P data) (hstep : w.step e = some w') : Filled P w' := by
  rcases step_cases hstep with ⟨-, t, ht, rfl⟩ | ⟨i, t, rfl, hi, hmoves⟩ | ⟨i, -, hbare⟩ |
    ⟨i, data, p, f, dirty, fresh, rfl, hi, rfl⟩
  · exact h.call ht
  · cases hmoves with
    | bare t w' hbare => exact h.bare hbare
    | load a p f needs_load data hdata =>
      refine h.set (forall_update h.pages ?_ f) h.disk rfl nofun
      rcases hdata with rfl | rfl
      · exact hdefault
      · exact h.disk p
    | copy p f after =>
      refine h.set h.pages h.disk rfl ?_
      rintro x ⟨⟩
      exact h.pages f
    | write p f after buf =>
      exact h.set h.pages (forall_update h.disk (h.bufs i _ hi buf rfl) p) rfl nofun
  · exact h.bare hbare
  · exact h.set (forall_update h.pages (hwrite i data rfl) f) h.disk rfl nofun

/-- Only a thread with a copy of the page writes to it. -/
theorem disk_step (hstep : w.step e = some w') (p : Nat) :
    w'.disk p = w.disk p ∨ ∃ i f after buf, e = .run i ∧
      w.threads[i]? = some (.write_page p f after buf) ∧ w'.disk p = buf := by
  rcases step_cases hstep with ⟨-, t, ht, rfl⟩ | ⟨i, t, rfl, hi, hmoves⟩ | ⟨i, -, hbare⟩ |
    ⟨i, data, q, f, dirty, fresh, rfl, hi, rfl⟩
  · exact .inl rfl
  · cases hmoves with
    | bare t w' hbare => exact .inl (congrFun hbare.disk p)
    | load a q f needs_load data hdata => exact .inl rfl
    | copy q f after => exact .inl rfl
    | write q f after buf =>
      by_cases hpq : p = q
      · subst hpq
        exact .inr ⟨i, f, after, buf, rfl, hi, update_self ..⟩
      · exact .inl (update_of_ne hpq ..)
  · exact .inl (congrFun hbare.disk p)
  · exact .inl rfl

theorem thread_kept {j : Nat} (hstep : w.step e = some w') (hj : w.threads[j]? = some t)
    (he : e.thread ≠ some j) : w'.threads[j]? = some t := by
  have hset : ∀ {i : Nat} {u : Thread α} {v : World α}, e.thread = some i →
      v.threads = w.threads.set i u → v.threads[j]? = some t := by
    intro i u v hi hv
    rw [hv, getElem?_set_ne]
    · exact hj
    rintro rfl
    exact he hi
  rcases step_cases hstep with ⟨-, u, -, rfl⟩ | ⟨i, u, rfl, hi, hmoves⟩ | ⟨i, hi, hbare⟩ |
    ⟨i, data, p, f, dirty, fresh, rfl, hi, rfl⟩
  · exact (getElem?_append_left (Maps.lt_of_getElem? hj)).trans hj
  · cases hmoves with
    | bare u w' hbare =>
      obtain ⟨-, -, u', -, hthreads⟩ := hbare
      exact hset rfl hthreads
    | load a p f needs_load data hdata | copy p f after | write p f after buf => exact hset rfl rfl
  · obtain ⟨-, -, u', -, hthreads⟩ := hbare
    rcases hi with rfl | rfl
    · exact hset rfl hthreads
    · exact hset rfl hthreads
  · exact hset rfl rfl

end Filled

end FluxDB.Shard
