-- Recovery LSNs. A shard keeps, for every frame, the LSN of the first change since the frame was
-- clean, and the least of them, which is where redo has to start. Changes are announced under
-- a frame's write latch, while flushes clear the flag, copy, write and end in separate steps.
import FluxDB.FrameContents
import FluxDB.CoherentFetches

namespace FluxDB.Shard

open List Option Maps Thread
open Function (update)

/-! ## The shard and its recovery LSNs -/

/-- A shard whose pages hold the LSNs of the changes on them, the last one in front. `announced`
are the changes of a page so far. -/
structure Tracker where
  shard : World (List Nat)
  rec_lsn : Nat → Option Nat
  min_rec_lsn : Option Nat
  last_checkpoint_redo_point : Nat
  last_lsn : Nat
  announced : Nat → List Nat

inductive TrackerEvent
  | shard (e : Event (List Nat))
  | mark_dirty (i lsn : Nat)
  | update_checkpoint_redo_point (redo_point : Nat)

/-- No page is made or deleted, and nobody writes without an announcement. -/
def Event.announced {α : Type} : Event α → Bool
  | .new_page _ | .delete_page _ | .write .. => false
  | _ => true

namespace Tracker

/-- `BufferPoolShard::mark_dirty`; whether a full page image is due comes with the shard. A frame
that the shard does not have is a panic of the source. -/
def mark_dirty (w : Tracker) (p lsn page_lsn_before : Nat) : Option (Bool × Tracker) :=
  match w.shard.page_table p with
  | some f =>
    if f < w.shard.n_frames then
      let m := w.shard.metadata f
      let shard := w.shard.setMeta f { m with is_dirty := true }
      if m.is_dirty then some (false, { w with shard := shard })
      else
        some (decide (page_lsn_before ≤ w.last_checkpoint_redo_point),
          { w with shard := shard
                   rec_lsn := update w.rec_lsn f (some lsn)
                   min_rec_lsn :=
                     if w.min_rec_lsn.all fun m => decide (lsn < m) then some lsn
                     else w.min_rec_lsn })
    else none
  | none => some (false, w)

/-- The change itself. A guard that has a record LSN is not unpinned as dirty, so it goes on
as one that is not. -/
def change (w : Tracker) (i p f lsn : Nat) : Tracker :=
  let data := lsn :: w.shard.pages f
  { w with
    last_lsn := lsn
    announced := update w.announced p (lsn :: w.announced p)
    shard := { w.shard with
      pages := update w.shard.pages f data
      latest := update w.shard.latest p data
      contents := update w.shard.contents p (data :: w.shard.contents p) }.setThread i
        (.write_guard p f false false) }

/-- The frame whose flush ends well with the event. -/
def flushed (w : Tracker) : Event (List Nat) → Option Nat
  | .run i =>
    match w.shard.threads[i]? with
    | some (.written _ f (.flush _) true) => some f
    | _ => none
  | _ => none

/-- The end of `flush_page_inner` after a write that went well. -/
def clear_rec_lsn (w : Tracker) (f : Nat) : Tracker :=
  let rec_lsn := update w.rec_lsn f none
  let dirty := (List.range w.shard.n_frames).filter fun g => (w.shard.metadata g).is_dirty
  { w with
    rec_lsn := rec_lsn
    min_rec_lsn :=
      if w.rec_lsn f = w.min_rec_lsn then (dirty.filterMap rec_lsn).min? else w.min_rec_lsn }

/-- The LSNs of the changes are increasing. -/
def step (w : Tracker) : TrackerEvent → Option Tracker
  | .shard e =>
    if e.announced then
      (w.shard.step e).map fun shard =>
        match w.flushed e with
        | some f => { w with shard := shard }.clear_rec_lsn f
        | none => { w with shard := shard }
    else none
  | .mark_dirty i lsn =>
    match w.shard.threads[i]? with
    | some (.write_guard p f _ _) =>
      if w.last_lsn < lsn then
        (w.mark_dirty p lsn ((w.shard.pages f).headD 0)).map fun r => r.2.change i p f lsn
      else none
    | _ => none
  | .update_checkpoint_redo_point redo_point =>
    some { w with last_checkpoint_redo_point := redo_point }

def new (n_frames : Nat) : Tracker where
  shard := World.new n_frames fun _ => []
  rec_lsn := fun _ => none
  min_rec_lsn := none
  last_checkpoint_redo_point := 0
  last_lsn := 0
  announced := fun _ => []

/-- The steps of the shard are careful, and when the flush of the frame with the least recovery
LSN ends, no other frame is flushed. No change is announced on a page while it is flushed. -/
def Spared (w : Tracker) : TrackerEvent → Prop
  | .shard e => Careful w.shard e ∧ ∀ f ∈ w.flushed e, w.rec_lsn f = w.min_rec_lsn →
      ∀ u ∈ w.shard.threads, u.flushes = true → u.on f = true
  | .mark_dirty i _ => ∀ t ∈ w.shard.threads[i]?, ∀ u ∈ t.uses, w.shard.NotFlushing u.2
  | .update_checkpoint_redo_point _ => True

instance (w : Tracker) (e : TrackerEvent) : Decidable (w.Spared e) := by
  cases e <;> dsimp only [Spared] <;> infer_instance

end Tracker

/-! ## The threads of such a shard -/

variable {α : Type}

def Caller.plain : Caller → Bool
  | acquire_frame a _ => a != .new_page
  | _ => true

/-- The thread fetches or flushes pages, and has no unannounced changes. -/
def Thread.plain : Thread α → Bool
  | acquire_frame a _ | latch a _ _ _ | load a _ _ _ | loaded a _ _ _ => a != .new_page
  | write_guard _ _ dirty fresh => !dirty && !fresh
  | unpin_page _ _ dirty => !dirty
  | flush_page _ caller | copy_frame _ _ (.flush caller) | write_page _ _ (.flush caller) _
  | written _ _ (.flush caller) _ => caller.plain
  | delete_page _ | copy_frame _ _ .delete_page | write_page _ _ .delete_page _
  | written _ _ .delete_page _ => false
  | _ => true

theorem untouched_of_plain {t : Thread α} (h : t.plain = true) : t.touched = false := by
  cases t <;> simp_all [plain, touched]

theorem Caller.plain_resume {caller : Caller} (h : caller.plain = true) :
    (caller.resume : Thread α).plain = true := by
  cases caller with
  | acquire_frame a p => exact h
  | _ => rfl

/-- The frame's changes are on their way to the disk, or still to be sent there. -/
def World.Pending (w : World α) (f : Nat) : Prop :=
  (w.metadata f).is_dirty = true ∨ ∃ t ∈ w.threads, t.on f = true ∧ t.flushes = true

/-- The threads are plain, and a frame is clean while it is flushed. -/
structure Tame (w : World α) : Prop where
  plain : ∀ t ∈ w.threads, t.plain = true
  clean : ∀ t ∈ w.threads, ∀ f, t.on f = true → t.flushes = true →
    (w.metadata f).is_dirty = false

/-- What a step does to a tame shard: the pending frames were pending before, with their pages. -/
structure Keeps (w w' : World α) : Prop where
  tame : Tame w'
  n_frames : w'.n_frames = w.n_frames
  latest : w'.latest = w.latest
  pending : ∀ f, w'.Pending f → w.Pending f ∧ (w'.metadata f).page_id = (w.metadata f).page_id

/-- What a step of thread `i` may do to a frame: only a flush that fails makes it dirty, and it
gets another page only if no other thread is on it. -/
def Stays (w : World α) (i : Nat) (t : Thread α) (m : FrameMetadata) (f : Nat) : Prop :=
  (m.is_dirty = true → (w.metadata f).is_dirty = true ∨ t.flushes = true ∧ t.on f = true) ∧
    (m.page_id = (w.metadata f).page_id ∨
      m.is_dirty = false ∧ ∀ j u, j ≠ i → w.threads[j]? = some u → u.on f = false)

section Keeps

variable {w w' : World α} {i : Nat} {t t' : Thread α} {p f : Nat}
  {metadata : Nat → FrameMetadata} {page_table : Nat → Option Nat} {free_list : List Nat}
  {replacer : ClockReplacer} {pages disk latest : Nat → α} {contents : Nat → List α}

/-- What a flush has copied is the latest content. -/
theorem Tame.not_unsaved (h : Tame w) (ht : t ∈ w.threads) (hon : t.on f = true)
    (hflushes : t.flushes = true) : ¬ w.Unsaved f := by
  rintro (hd | ⟨u, hu, -, htouched⟩)
  · rw [h.clean t ht f hon hflushes] at hd
    cases hd
  rw [untouched_of_plain (h.plain u hu)] at htouched
  cases htouched

theorem Good.flushes_alone {j : Nat} {u : Thread α} (h : Good w) (hi : w.threads[i]? = some t)
    (ht : t.on f = true) (hflushes : t.flushes = true) (hne : j ≠ i)
    (hj : w.threads[j]? = some u) (hu : u.on f = true) : u.flushes = false := by
  have := h.apart j i u t f hne hj hi hu ht
  simp only [Thread.clashes, hflushes, Bool.and_true, Bool.or_eq_false_iff] at this
  exact this.1.2

theorem Stays.update {m : FrameMetadata} (hm : Stays w i t m f) (g : Nat) :
    Stays w i t (update w.metadata f m g) g := by
  rw [Function.update_apply]
  split
  · next hg => rwa [hg]
  · exact ⟨.inl, .inl rfl⟩

/-- A step of thread `i`, by what it does to the frames and where it leaves the thread. -/
theorem Tame.set (h : Tame w) (hgood : Good w) (hi : w.threads[i]? = some t)
    (hplain : t'.plain = true) (hlatest : latest = w.latest)
    (hframe : ∀ g, Stays w i t (metadata g) g)
    (hself : t'.flushes = true → ∀ g, t'.on g = true → (metadata g).is_dirty = false ∧
      w.Pending g ∧ (metadata g).page_id = (w.metadata g).page_id) :
    Keeps w { w with metadata, page_table, free_list, replacer, pages, disk, latest, contents
                     threads := w.threads.set i t' } := by
  have hflushes : ∀ u ∈ w.threads.set i t', ∀ g, u.on g = true → u.flushes = true →
      (metadata g).is_dirty = false ∧ w.Pending g ∧
        (metadata g).page_id = (w.metadata g).page_id := by
    intro u hu g hon hf
    rcases mem_set_cases hi hu with rfl | ⟨j, hne, hj⟩
    · exact hself hf g hon
    have hmem := mem_of_getElem? hj
    refine ⟨Bool.eq_false_iff.mpr fun hd => ?_, .inr ⟨u, hmem, hon, hf⟩,
      (hframe g).2.resolve_right fun halone => ?_⟩
    · rcases (hframe g).1 hd with hd | ⟨htf, hton⟩
      · rw [h.clean u hmem g hon hf] at hd
        cases hd
      rw [hgood.flushes_alone hi hton htf hne hj hon] at hf
      cases hf
    rw [halone.2 j u hne hj] at hon
    cases hon
  refine ⟨⟨forall_mem_set h.plain hplain, fun u hu g hon hf => (hflushes u hu g hon hf).1⟩,
    rfl, hlatest, ?_⟩
  rintro g (hd | ⟨u, hu, hon, hf⟩)
  · refine ⟨((hframe g).1 hd).imp_right fun ht => ⟨t, mem_of_getElem? hi, ht.2, ht.1⟩,
      (hframe g).2.resolve_right fun halone => ?_⟩
    rw [halone.1] at hd
    cases hd
  · exact (hflushes u hu g hon hf).2

/-- A step that leaves the frames as they are, and starts no flush. -/
theorem Tame.move (h : Tame w) (hgood : Good w) (hi : w.threads[i]? = some t)
    (hplain : t'.plain = true) (hlatest : latest = w.latest)
    (hself : t'.flushes = true → t.flushes = true ∧ t'.uses = t.uses) :
    Keeps w { w with page_table, free_list, replacer, pages, disk, latest, contents
                     threads := w.threads.set i t' } := by
  refine h.set hgood hi hplain hlatest (fun _ => ⟨.inl, .inl rfl⟩) fun hf g hon => ?_
  obtain ⟨hf, huses⟩ := hself hf
  have hon : t.on g = true := by
    unfold Thread.on at hon ⊢
    rwa [← huses]
  have hmem := mem_of_getElem? hi
  exact ⟨h.clean t hmem g hon hf, .inr ⟨t, hmem, hon, hf⟩, rfl⟩

theorem Tame.call (h : Tame w) (ht : t.plain = true) (huses : t.uses = none) :
    Keeps w (w.call t) := by
  have hold : ∀ u ∈ w.threads ++ [t], ∀ g, u.on g = true → u ∈ w.threads := by
    refine forall_mem_concat (fun u hu _ _ => hu) fun g hon => ?_
    rw [on_eq_false huses] at hon
    cases hon
  refine ⟨⟨forall_mem_concat h.plain ht, fun u hu g hon => h.clean u (hold u hu g hon) g hon⟩,
    rfl, rfl, fun g hpending => ⟨hpending.imp_right ?_, rfl⟩⟩
  rintro ⟨u, hu, hon, hf⟩
  exact ⟨u, hold u hu g hon, hon, hf⟩

theorem Caller.flushes_resume (caller : Caller) : (caller.resume : Thread α).flushes = false := by
  cases caller <;> rfl

section

variable (h : Tame w) (hgood : Good w)

include h hgood

theorem keeps_acquire_frame {a : Access} (hi : w.threads[i]? = some (.acquire_frame a p))
    (hok : (acquire_frame a p).Careful w) (hstep : w.acquire_frame i a p = some w') :
    Keeps w w' := by
  have hplain : (acquire_frame a p : Thread α).plain = true := h.plain _ (mem_of_getElem? hi)
  rcases acquire_frame_cases hstep with
    ⟨f, -, -, rfl⟩ | ⟨hp, fs, r, -, ⟨t, ht, rfl⟩ | ⟨f, hf, hd, rfl⟩⟩
  · exact h.set hgood hi hplain rfl (Stays.update ⟨.inl, .inl rfl⟩) nofun
  · rcases ht with rfl | ⟨old, rfl⟩
    · exact h.move hgood hi rfl rfl nofun
    · exact h.move hgood hi hplain rfl nofun
  have hunused := hgood.unused (unpinned_of_found hgood hf (hok hp f hf hd))
  unfold World.evict
  split
  all_goals
    refine h.set hgood hi hplain rfl (fun g => ?_) nofun
    simp only [World.reserve, Function.update_idem]
    refine Stays.update ⟨?_, .inr ⟨rfl, fun j u _ hj => ?_⟩⟩ g
    · exact nofun
    · exact hunused u (mem_of_getElem? hj)

theorem keeps_flush_page {caller : Caller} (hi : w.threads[i]? = some (.flush_page p caller)) :
    Keeps w (w.flush_page i p caller) := by
  have hplain : (flush_page p caller : Thread α).plain = true :=
    h.plain _ (mem_of_getElem? hi)
  have hback : Keeps w (w.setThread i caller.resume) :=
    h.move hgood hi (Caller.plain_resume hplain) rfl (by simp [caller.flushes_resume])
  unfold World.flush_page
  split
  swap
  · exact hback
  rename_i f _
  split
  · next pid hpid =>
    unfold World.dirty_page at hpid
    refine h.set hgood hi hplain rfl (Stays.update ⟨nofun, .inl rfl⟩) fun _ g hon => ?_
    obtain rfl : f = g := by simpa [Thread.on, Thread.uses] using hon
    have hdirty := (ite_none_right_eq_some.mp hpid).1
    exact ⟨by simp, .inl hdirty, by simp⟩
  · exact hback

theorem keeps_end_write {after : After} {ok : Bool}
    (hi : w.threads[i]? = some (.written p f after ok)) : Keeps w (w.end_write i p f after ok) := by
  have hplain := h.plain _ (mem_of_getElem? hi)
  cases after with
  | delete_page => cases hplain
  | flush caller =>
    unfold World.end_write
    cases ok with
    | true =>
      exact h.set hgood hi (Caller.plain_resume hplain) rfl (Stays.update ⟨.inl, .inl rfl⟩)
        (by simp [After.resume, caller.flushes_resume])
    | false =>
      refine h.set hgood hi rfl rfl (Stays.update ⟨fun _ => .inr ⟨rfl, ?_⟩, .inl rfl⟩) nofun
      exact on_of_uses rfl

theorem keeps_failThread (hi : w.threads[i]? = some t) (hstep : w.failThread i t = some w') :
    Keeps w w' := by
  have hplain := h.plain t (mem_of_getElem? hi)
  unfold World.failThread at hstep
  split at hstep
  · obtain ⟨-, ⟨⟩⟩ := ite_none_left_eq_some.mp hstep
    exact h.move hgood hi rfl rfl nofun
  · next after _ =>
    cases hstep
    refine h.move hgood hi ?_ rfl fun _ => ⟨rfl, rfl⟩
    cases after <;> exact hplain
  · cases hstep
    exact h.move hgood hi rfl rfl fun _ => ⟨rfl, rfl⟩
  · cases hstep

end

variable [Inhabited α]

theorem keeps_runThread (h : Tame w) (hgood : Good w) (hi : w.threads[i]? = some t)
    (hok : t.Careful w) (hstep : w.runThread i t = some w') : Keeps w w' := by
  have hno {p : Prop} : false = true → p := Bool.noConfusion
  have hplain := h.plain t (mem_of_getElem? hi)
  cases t with
  | acquire_frame a p => exact keeps_acquire_frame h hgood hi hok hstep
  | latch a p f needs_load =>
    simp only [World.runThread, World.take_latch] at hstep
    split at hstep
    all_goals
      obtain ⟨-, ⟨⟩⟩ := ite_none_left_eq_some.mp hstep
      refine h.move hgood hi ?_ rfl hno
    · rfl
    · rfl
    · exact hplain
  | load a p f needs_load =>
    cases hstep
    exact h.move hgood hi hplain rfl hno
  | loaded a p f needs_load =>
    cases hstep
    cases a with
    | new_page => cases hplain
    | _ => exact h.set hgood hi rfl rfl (Stays.update ⟨.inl, .inl rfl⟩) hno
  | load_failed p f =>
    cases hstep
    have halone := hgood.alone_of_loads hi rfl rfl
    exact h.set hgood hi rfl rfl (Stays.update ⟨hno, .inr ⟨rfl, halone⟩⟩) hno
  | unpin_page p f dirty =>
    cases hstep
    cases dirty with
    | true => cases hplain
    | false =>
      unfold World.unpin_page
      split
      · split
        · exact h.set hgood hi rfl rfl (Stays.update ⟨fun hd => .inl (by simpa using hd), .inl rfl⟩)
            hno
        · exact h.move hgood hi rfl rfl hno
      · exact h.move hgood hi rfl rfl hno
  | flush_page p caller =>
    cases hstep
    exact keeps_flush_page h hgood hi
  | flush_all_pages f =>
    simp only [World.runThread] at hstep
    repeat' split at hstep
    all_goals
      cases hstep
      exact h.move hgood hi rfl rfl hno
  | delete_page p => cases hplain
  | copy_frame p f after =>
    obtain ⟨-, ⟨⟩⟩ := ite_none_left_eq_some.mp hstep
    refine h.move hgood hi ?_ rfl fun _ => ⟨rfl, rfl⟩
    cases after <;> exact hplain
  | write_page p f after buf =>
    cases hstep
    refine h.move hgood hi ?_ rfl fun _ => ⟨rfl, rfl⟩
    cases after <;> exact hplain
  | written p f after ok =>
    cases hstep
    exact keeps_end_write h hgood hi
  | read_guard p f | write_guard p f dirty fresh | done => cases hstep

theorem keeps_step {e : Event α} (h : Tame w) (hgood : Good w) (he : e.announced = true)
    (hok : Careful w e) (hstep : w.step e = some w') : Keeps w w' := by
  cases e with
  | run i =>
    obtain ⟨t, hi, hrun⟩ := bind_eq_some_iff.mp hstep
    exact keeps_runThread h hgood hi (hok t hi) hrun
  | fail i =>
    obtain ⟨t, hi, hfail⟩ := bind_eq_some_iff.mp hstep
    exact keeps_failThread h hgood hi hfail
  | drop_guard i =>
    simp only [World.step] at hstep
    split at hstep
    · next hi =>
      cases hstep
      exact h.move hgood hi rfl rfl Bool.noConfusion
    · next p f dirty fresh hi =>
      -- a plain guard has the latest content in its frame
      have hplain : (!dirty && !fresh) = true := h.plain _ (mem_of_getElem? hi)
      have hlatest := (hgood.fits i _ hi p f rfl).current hplain
      cases hstep
      refine h.move hgood hi (Bool.and_eq_true_iff.mp hplain).1 ?_ Bool.noConfusion
      rw [hlatest, Function.update_eq_self]
    · cases hstep
  | new_page p | delete_page p | write i data => cases he
  | _ =>
    cases hstep
    exact h.call rfl rfl

end Keeps

/-- A change is announced on a page that nobody writes out. -/
theorem good_announce {w : World α} {i p f : Nat} {dirty fresh : Bool} (data : α) (h : Good w)
    (hi : w.threads[i]? = some (.write_guard p f dirty fresh)) (hquiet : w.NotFlushing f) :
    Good ({ w.setMeta f { w.metadata f with is_dirty := true } with
      pages := update w.pages f data
      latest := update w.latest p data
      contents := update w.contents p (data :: w.contents p) }.setThread i
        (.write_guard p f false false)) := by
  have hfits := h.fits i _ hi p f rfl
  have hloading : (w.metadata f).loading = false := hfits.loads.symm
  have hon : (write_guard p f dirty fresh : Thread α).on f = true := on_of_uses rfl
  have hon' : (write_guard p f false false : Thread α).on f = true := on_of_uses rfl
  have hmem := mem_set (lt_of_getElem? hi) (.write_guard p f false false : Thread α)
  apply h.update hi rfl (p := p) (f := f) _ hfits.own (.inr rfl) (.inr rfl)
  case hpins => simp [hon, hon']
  case hsettled =>
    intro _
    simpa using hloading
  case hheld => exact h.held_set hi rfl rfl
  case hbusy => exact .inl hon'
  case hself =>
    intro _
    refine ⟨rfl, hfits.own, ?_, nofun, fun _ => ?_, nofun, nofun, nofun⟩
    · simpa [Thread.loads] using hloading.symm
    · simp
  case hothers =>
    intro j u hne hj hu
    obtain ⟨hcur, hul, -, -⟩ := h.not_current_of_writes hi rfl rfl hne hj hu
    have hfu := h.fits j u hj p f hu
    have hflushes := hquiet u (mem_of_getElem? hj) (on_of_uses hu)
    obtain ⟨hbuf, hwrote, hdeletes⟩ := plain_of_not_flushes hflushes
    refine ⟨⟨hfu.proper, hfu.own, ?_, ?_, ?_, ?_, ?_, ?_⟩, fun _ => ?_⟩
    · simpa using hfu.loads
    · rw [hul]
      rintro ⟨⟩
    · rw [hcur]
      rintro ⟨⟩
    · rw [hbuf]
      rintro _ ⟨⟩
    · rw [hwrote]
      rintro ⟨⟩
    · rw [hdeletes]
      rintro ⟨⟩
    exact h.clashes_of_move hi rfl rfl rfl (h.grants hi rfl (fun _ => rfl) Bool.noConfusion) hne hj
      (on_of_uses hu)
  case hkept =>
    refine kept_of_own hfits.own (fun _ hfree => ?_) fun _ hclean => ?_
    · cases hfree _ hmem hon'
    · simp at hclean
  case hhistory => simp
  · constructor <;> intros <;> simp_all

/-! ## The least recovery LSN -/

namespace Tracker

variable {w : Tracker} {i p f lsn : Nat}

/-- The shard's recovery LSN is not greater than that of the frame, and the changes of its page
before that are on disk. -/
def Covered (w : Tracker) (f : Nat) : Prop :=
  ∃ r m, f < w.shard.n_frames ∧ w.rec_lsn f = some r ∧ w.min_rec_lsn = some m ∧ m ≤ r ∧
    ∀ p, (w.shard.metadata f).page_id = some p → ∀ l ∈ w.announced p, l ∈ w.shard.disk p ∨ r ≤ l

structure Tracks (w : Tracker) : Prop where
  good : Good w.shard
  tame : Tame w.shard
  latest : w.shard.latest = w.announced
  recent : ∀ f, ∀ r ∈ w.rec_lsn f, r ≤ w.last_lsn
  covered : ∀ f, w.shard.Pending f → w.Covered f

section

variable (h : Tracks w)

include h

/-- A page whose latest content is not on disk sits in a frame that is pending. -/
theorem Tracks.lower_bound {l : Nat} (hl : l ∈ w.announced p) (hdisk : l ∉ w.shard.disk p) :
    ∃ m, w.min_rec_lsn = some m ∧ m ≤ l := by
  have hne : w.shard.disk p ≠ w.shard.latest p := by
    intro heq
    rw [heq, h.latest] at hdisk
    exact hdisk hl
  have hkept := h.good.kept p
  cases hp : w.shard.page_table p with
  | none => exact absurd (hkept.absent hp) hne
  | some f =>
    have hloading : (w.shard.metadata f).loading = false := by
      refine Bool.eq_false_iff.mpr fun hload => hne ?_
      have hpinned := h.good.busy p f hp hload
      rw [h.good.pins, countP_pos_iff] at hpinned
      obtain ⟨t, ht, hon⟩ := hpinned
      obtain ⟨q, hq⟩ := on_iff.mp hon
      obtain ⟨j, hj⟩ := mem_iff_getElem?.mp ht
      obtain rfl := h.good.same_page hj hq hp
      have hfits := h.good.fits j t hj q f hq
      exact hfits.stored (hfits.loads.trans hload)
    have hpending : w.shard.Pending f := by
      by_contra hno
      unfold World.Pending at hno
      push Not at hno
      refine hne (hkept.clean f hp hloading (by simpa using hno.1) ?_ ?_)
      · exact fun t ht _ => untouched_of_plain (h.tame.plain t ht)
      · exact fun t ht hon => by simpa using hno.2 t ht hon
    obtain ⟨r, m, -, -, hm, hle, hcover⟩ := h.covered f hpending
    have hr := (hcover p ((h.good.table p f).mp hp) l hl).resolve_left hdisk
    exact ⟨m, hm, hle.trans hr⟩

theorem tracks_shard {e : Event (List Nat)} {shard : World (List Nat)}
    (he : e.announced = true) (hok : Careful w.shard e) (hstep : w.shard.step e = some shard) :
    Tracks { w with shard } := by
  have hkeeps := keeps_step h.tame h.good he hok hstep
  refine ⟨good_step _ e shard h.good hok hstep, hkeeps.tame, hkeeps.latest.trans h.latest, h.recent,
    fun f hpending => ?_⟩
  obtain ⟨hpending, hpage⟩ := hkeeps.pending f hpending
  obtain ⟨r, m, hf, hr, hm, hle, hcover⟩ := h.covered f hpending
  refine ⟨r, m, hkeeps.n_frames ▸ hf, hr, hm, hle, fun p hp l hl => ?_⟩
  rw [hpage] at hp
  rcases disk_step hstep p with hdisk | ⟨i, g, after, buf, rfl, hi, hdisk⟩
  · rw [hdisk]
    exact hcover p hp l hl
  -- what is written is the latest content
  have hcopied := ((h.good.fits i _ hi p g rfl).copied buf rfl).2
  have hbuf := hcopied.resolve_right fun hc =>
    h.tame.not_unsaved (mem_of_getElem? hi) (on_of_uses rfl) rfl hc.2
  rw [hdisk, hbuf, h.latest]
  exact .inl hl

/-- The recovery LSN of a frame that is not pending is cleared. If it was the least one, then
the frames that are pending are dirty, and so they are among those that are looked at. -/
theorem Tracks.clear (hf : ¬ w.shard.Pending f)
    (hdirty : w.rec_lsn f = w.min_rec_lsn →
      ∀ g, w.shard.Pending g → (w.shard.metadata g).is_dirty = true) :
    Tracks (w.clear_rec_lsn f) := by
  refine ⟨h.good, h.tame, h.latest, fun g r hr => ?_, fun g hpending => ?_⟩
  · simp only [clear_rec_lsn, Function.update_apply] at hr
    split at hr
    · cases hr
    · exact h.recent g r hr
  obtain ⟨r, m, hg, hr, hm, hle, hcover⟩ := h.covered g hpending
  have hne : g ≠ f := by
    rintro rfl
    exact hf hpending
  have hr' : update w.rec_lsn f none g = some r := by
    rwa [Function.update_of_ne hne]
  by_cases hleast : w.rec_lsn f = w.min_rec_lsn
  · have hmem : r ∈ ((List.range w.shard.n_frames).filter fun g =>
        (w.shard.metadata g).is_dirty).filterMap (update w.rec_lsn f none) := by
      refine mem_filterMap.mpr ⟨g, mem_filter.mpr ⟨mem_range.mpr hg, ?_⟩, hr'⟩
      exact hdirty hleast g hpending
    obtain ⟨m', hm'⟩ := isSome_iff_exists.mp (isSome_min?_of_mem hmem)
    refine ⟨r, m', hg, hr', ?_, (min?_eq_some_iff.mp hm').2 r hmem, hcover⟩
    simp only [clear_rec_lsn, if_pos hleast]
    exact hm'
  refine ⟨r, m, hg, hr', ?_, hle, hcover⟩
  simp only [clear_rec_lsn, if_neg hleast]
  exact hm

/-- After the end of a flush that went well, nobody flushes its frame. -/
theorem flushes_after_flush {shard : World (List Nat)} {caller : Caller}
    (hi : w.shard.threads[i]? = some (.written p f (.flush caller) true))
    (hstep : w.shard.step (.run i) = some shard) (u : Thread (List Nat)) (hu : u ∈ shard.threads)
    (hflushes : u.flushes = true) : u.on f = false ∧ u ∈ w.shard.threads := by
  simp only [World.step, hi, bind_some, World.runThread, Option.some.injEq] at hstep
  subst hstep
  rcases mem_set_cases hi hu with rfl | ⟨j, hne, hj⟩
  · rw [After.resume, Caller.flushes_resume] at hflushes
    cases hflushes
  refine ⟨Bool.eq_false_iff.mpr fun hon => ?_, mem_of_getElem? hj⟩
  rw [h.good.flushes_alone hi (on_of_uses rfl) rfl hne hj hon] at hflushes
  cases hflushes

theorem tracks_flushed {shard : World (List Nat)} {caller : Caller}
    (hi : w.shard.threads[i]? = some (.written p f (.flush caller) true))
    (hok : w.Spared (.shard (.run i))) (hstep : w.shard.step (.run i) = some shard) :
    Tracks ({ w with shard }.clear_rec_lsn f) := by
  have hquiet := flushes_after_flush h hi hstep
  refine (tracks_shard h rfl hok.1 hstep).clear ?_ fun hleast g hpending => ?_
  · have hclean := h.tame.clean _ (mem_of_getElem? hi) f (on_of_uses rfl) rfl
    simp only [World.step, hi, bind_some, World.runThread, Option.some.injEq] at hstep
    rintro (hd | ⟨u, hu, hon, hf⟩)
    · subst hstep
      simp [World.end_write, hclean] at hd
    rw [(hquiet u hu hf).1] at hon
    cases hon
  rcases hpending with hd | ⟨u, hu, -, hf⟩
  · exact hd
  obtain ⟨hoff, hmem⟩ := hquiet u hu hf
  rw [hok.2 f (by simp [flushed, hi]) hleast u hmem hf] at hoff
  cases hoff

theorem Tracks.announce {dirty fresh : Bool} {rec_lsn : Nat → Option Nat} {min_rec_lsn : Option Nat}
    (hi : w.shard.threads[i]? = some (.write_guard p f dirty fresh))
    (hquiet : w.shard.NotFlushing f) (hlsn : w.last_lsn < lsn) (hf : f < w.shard.n_frames)
    (hrec : ∀ g, g ≠ f → rec_lsn g = w.rec_lsn g)
    (hmin : ∀ m ∈ w.min_rec_lsn, ∃ m' ∈ min_rec_lsn, m' ≤ m)
    (hself : ∃ r m, rec_lsn f = some r ∧ min_rec_lsn = some m ∧ m ≤ r ∧ r ≤ lsn ∧
      ∀ l ∈ w.announced p, l ∈ w.shard.disk p ∨ r ≤ l) :
    Tracks ({ w with
      shard := w.shard.setMeta f { w.shard.metadata f with is_dirty := true }
      rec_lsn, min_rec_lsn }.change i p f lsn) := by
  have hfits := h.good.fits i _ hi p f rfl
  have hpage := (h.good.table p f).mp hfits.own
  have hcurrent := hfits.current (h.tame.plain _ (mem_of_getElem? hi))
  have hmeta : ∀ g, g ≠ f → update w.shard.metadata f
      { w.shard.metadata f with is_dirty := true } g = w.shard.metadata g :=
    fun g hg => Function.update_of_ne hg _ _
  obtain ⟨r, m, hr, hm, hle, hrl, hcover⟩ := hself
  refine ⟨good_announce _ h.good hi hquiet, ⟨forall_mem_set h.tame.plain rfl, ?_⟩, ?_,
    fun g r' hr' => ?_, fun g hpending => ?_⟩
  · intro u hu g hon hflushes
    rcases mem_set_cases hi hu with rfl | ⟨j, -, hj⟩
    · cases hflushes
    have hmem := mem_of_getElem? hj
    have hg : g ≠ f := by
      rintro rfl
      rw [hquiet u hmem hon] at hflushes
      cases hflushes
    have hclean := h.tame.clean u hmem g hon hflushes
    exact (congrArg FrameMetadata.is_dirty (hmeta g hg)).trans hclean
  · simp only [change, World.setThread, World.setMeta]
    rw [hcurrent, h.latest]
  · by_cases hg : g = f
    · subst hg
      cases hr.symm.trans hr'
      exact hrl
    · exact (h.recent g r' (hrec g hg ▸ hr')).trans hlsn.le
  by_cases hg : g = f
  · subst hg
    refine ⟨r, m, hf, hr, hm, hle, fun q hq l hl => ?_⟩
    simp only [change, World.setThread, World.setMeta, Function.update_self, hpage,
      Option.some.injEq] at hq hl
    subst hq
    rw [Function.update_self] at hl
    rcases mem_cons.mp hl with rfl | hl
    · exact .inr hrl
    · exact hcover l hl
  have hold : w.shard.Pending g := by
    rcases hpending with hd | ⟨u, hu, hon, hflushes⟩
    · exact .inl ((congrArg FrameMetadata.is_dirty (hmeta g hg)).symm.trans hd)
    rcases mem_set_cases hi hu with rfl | ⟨j, -, hj⟩
    · cases hflushes
    · exact .inr ⟨u, mem_of_getElem? hj, hon, hflushes⟩
  obtain ⟨r', m', hg', hr', hm', hle', hcover'⟩ := h.covered g hold
  obtain ⟨m₁, hm₁, hle₁⟩ := hmin m' hm'
  refine ⟨r', m₁, hg', (hrec g hg).trans hr', hm₁, hle₁.trans hle', fun q hq l hl => ?_⟩
  have hpid := (congrArg FrameMetadata.page_id (hmeta g hg)).symm.trans hq
  have hne : q ≠ p := by
    rintro rfl
    have := (h.good.table q g).mpr hpid
    rw [hfits.own] at this
    exact hg (Option.some.inj this).symm
  simp only [change, Function.update_of_ne hne] at hl
  exact hcover' q hpid l hl

theorem tracks_mark_dirty {w' : Tracker} (hok : w.Spared (.mark_dirty i lsn))
    (hstep : w.step (.mark_dirty i lsn) = some w') : Tracks w' := by
  simp only [step] at hstep
  split at hstep
  swap
  · cases hstep
  rename_i p f dirty fresh hi
  obtain ⟨hlsn, hstep⟩ := ite_none_right_eq_some.mp hstep
  obtain ⟨⟨fpi, v⟩, hmark, rfl⟩ := map_eq_some_iff.mp hstep
  have hfits := h.good.fits i _ hi p f rfl
  have hquiet := hok _ hi _ rfl
  simp only [mark_dirty, hfits.own] at hmark
  obtain ⟨hf, hmark⟩ := ite_none_right_eq_some.mp hmark
  split at hmark
  · next hd =>
    cases hmark
    obtain ⟨r, m, -, hr, hm, hle, hcover⟩ := h.covered f (.inl hd)
    refine h.announce hi hquiet hlsn hf (fun _ _ => rfl) (fun m hm => ⟨m, hm, le_rfl⟩) ?_
    refine ⟨r, m, hr, hm, hle, (h.recent f r hr).trans hlsn.le, ?_⟩
    exact hcover p ((h.good.table p f).mp hfits.own)
  rename_i hd
  cases hmark
  -- the frame was clean, so the page is on disk with all its changes
  have hdisk : w.shard.disk p = w.announced p := by
    rw [← h.latest]
    refine (h.good.kept p).clean f hfits.own hfits.loads.symm (Bool.eq_false_iff.mpr hd) ?_ hquiet
    exact fun t ht _ => untouched_of_plain (h.tame.plain t ht)
  have hmin : ∃ m', (if w.min_rec_lsn.all fun m => decide (lsn < m) then some lsn
      else w.min_rec_lsn) = some m' ∧ m' ≤ lsn ∧ ∀ m ∈ w.min_rec_lsn, m' ≤ m := by
    cases hm : w.min_rec_lsn with
    | none => exact ⟨lsn, rfl, le_rfl, nofun⟩
    | some m =>
      by_cases hlt : lsn < m
      · exact ⟨lsn, by simp [hlt], le_rfl, by simpa using hlt.le⟩
      · exact ⟨m, by simp [hlt], Nat.le_of_not_lt hlt, by simp⟩
  obtain ⟨m', hm', hle, hleast⟩ := hmin
  refine h.announce hi hquiet hlsn hf (fun g hg => Function.update_of_ne hg _ _) ?_ ?_
  · exact fun m hm => ⟨m', hm', hleast m hm⟩
  refine ⟨lsn, m', Function.update_self .., hm', hle, le_rfl, fun l hl => .inl ?_⟩
  rwa [hdisk]

end

theorem tracks_step (w : Tracker) (e : TrackerEvent) (w' : Tracker) (h : Tracks w)
    (hok : w.Spared e) (hstep : w.step e = some w') : Tracks w' := by
  cases e with
  | shard e =>
    simp only [step] at hstep
    obtain ⟨he, hstep⟩ := ite_none_right_eq_some.mp hstep
    obtain ⟨shard, hshard, rfl⟩ := map_eq_some_iff.mp hstep
    split
    · next f hf =>
      unfold flushed at hf
      split at hf
      · split at hf
        · next hi =>
          cases hf
          exact tracks_flushed h hi hok hshard
        · cases hf
      · cases hf
    · exact tracks_shard h he hok.1 hshard
  | mark_dirty i lsn => exact tracks_mark_dirty h hok hstep
  | update_checkpoint_redo_point redo_point =>
    cases hstep
    exact { h with }

theorem tracks_new (n_frames : Nat) : Tracks (new n_frames) where
  good := good_new n_frames _
  tame := ⟨nofun, nofun⟩
  latest := rfl
  recent := nofun
  covered := fun f hpending => by
    simp [World.Pending, new, World.new, FrameMetadata.free] at hpending

/-- Thread `i` takes some steps. -/
def turns (i steps : Nat) : List TrackerEvent := List.replicate steps (.shard (.run i))

/-- Thread `i` fetches a page in that many steps, announces a change and gives the page back. -/
def changeOn (i p steps lsn : Nat) : List TrackerEvent :=
  .shard (.fetch_page_mut p) :: turns i steps ++
    [.mark_dirty i lsn, .shard (.drop_guard i), .shard (.run i)]

/-- In every run of a shard of any size in which no change is announced under a flush, no frame
is given away under one, and the flush of the least recovery LSN ends when no other is in flight,
an announced change that is not on disk is not before the shard's recovery LSN. -/
theorem min_rec_lsn_is_a_lower_bound (n_frames : Nat) {es : List TrackerEvent}
    (hok : Runs.Meets step Spared (new n_frames) es) {w : Tracker}
    (h : Runs.run step (new n_frames) es = some w) {p l : Nat} (hl : l ∈ w.announced p)
    (hdisk : l ∉ w.shard.disk p) : ∃ m, w.min_rec_lsn = some m ∧ m ≤ l :=
  (Runs.inv_run_meets tracks_step (tracks_new n_frames) hok h).lower_bound hl hdisk

theorem a_change_after_a_flush_is_bounded :
    ∃ w, Runs.run step (new 1)
        (changeOn 0 1 4 5 ++ .shard (.flush_page 1) :: turns 1 4 ++ changeOn 2 1 2 7) = some w ∧
      7 ∈ w.announced 1 ∧ 7 ∉ w.shard.disk 1 ∧ ∃ m, w.min_rec_lsn = some m ∧ m ≤ 7 := by
  obtain ⟨w, hrun, hl, hdisk⟩ : ∃ w, Runs.run step (new 1)
      (changeOn 0 1 4 5 ++ .shard (.flush_page 1) :: turns 1 4 ++ changeOn 2 1 2 7) = some w ∧
      7 ∈ w.announced 1 ∧ 7 ∉ w.shard.disk 1 := Runs.exists_run (by decide +kernel)
  exact ⟨w, hrun, hl, hdisk, min_rec_lsn_is_a_lower_bound 1 (by decide +kernel) hrun hl hdisk⟩

/-- A change of page 2 is announced behind the copy that a flush of it has taken. The end of that
flush clears its recovery LSN, and the end of the flush of page 1 looks for another one. -/
theorem a_change_under_a_flush_is_forgotten :
    ∃ w, Runs.run step (new 2)
        (changeOn 0 1 4 5 ++ changeOn 1 2 4 7 ++ .shard (.flush_page 2) :: turns 2 2 ++
          changeOn 3 2 2 9 ++ turns 2 2 ++ .shard (.flush_page 1) :: turns 4 4) = some w ∧
      9 ∈ w.announced 2 ∧ 9 ∉ w.shard.disk 2 ∧ w.min_rec_lsn = none :=
  Runs.exists_run (by decide +kernel)

end Tracker

end FluxDB.Shard
