-- What the pages of a shard hold. A frame carries the latest content of its page, and the
-- disk carries it when the page has no frame, or a clean one that nobody works on. The
-- invariant holds in every run that never gives a frame away that is being written out, never
-- writes a page out twice at a time, and lets nobody write to a page that `delete_page` writes out.
import FluxDB.ShardFrames

namespace FluxDB.Shard

open List Maps Thread

variable {α : Type}

/-! ## What a thread has done to its page -/

namespace Thread

/-- The thread has changed its frame, and the page is not marked dirty for it yet. -/
def touched : Thread α → Bool
  | loaded a _ _ _ => a == .new_page
  | write_guard _ _ dirty fresh => dirty || fresh
  | unpin_page _ _ dirty => dirty
  | _ => false

/-- The thread has its frame's write latch, or has just loaded it, and has not changed it. -/
def current : Thread α → Bool
  | loaded a _ _ _ => a != .new_page
  | write_guard _ _ dirty fresh => !dirty && !fresh
  | _ => false

/-- The copy that the thread is to write. -/
def buf? : Thread α → Option α
  | write_page _ _ _ buf => some buf
  | _ => none

/-- The thread has written its copy to the disk. -/
def wrote : Thread α → Bool
  | written _ _ _ ok => ok
  | _ => false

/-- A thread works on a frame that is not loaded, or on one it fills with zeros. -/
def proper : Thread α → Bool
  | load a _ _ needs_load | loaded a _ _ needs_load => needs_load || a == .new_page
  | _ => true

/-- The two threads cannot be on one frame. -/
def clashes (t u : Thread α) : Bool :=
  t.writes && (u.writes || u.reads) || t.flushes && u.flushes || t.loads

theorem on_iff {t : Thread α} {f : Nat} : t.on f = true ↔ ∃ p, t.uses = some (p, f) := by
  unfold on
  rcases h : t.uses with _ | ⟨p, g⟩
  · simp
  · simp

theorem writes_or_loads_of_current {t : Thread α} (hproper : t.proper = true)
    (h : t.current = true) : t.writes = true ∨ t.loads = true := by
  cases t with
  | loaded a p f needs_load => cases a <;> simp_all [proper, current, writes, loads]
  | write_guard p f dirty fresh => exact .inl rfl
  | _ => cases h

/-- Only a write-out has a copy of its page. -/
theorem plain_of_not_flushes {t : Thread α} (h : t.flushes = false) :
    t.buf? = none ∧ t.wrote = false ∧ t.deletes = false := by
  cases t <;> simp_all [flushes, buf?, wrote, deletes]

theorem flushes_of_writes {t : Thread α} (h : t.writes = true) : t.flushes = false := by
  cases t <;> simp_all [writes, flushes]

theorem on_of_uses {t : Thread α} {p f : Nat} (h : t.uses = some (p, f)) : t.on f = true :=
  on_iff.mpr ⟨p, h⟩

theorem on_eq_false {t : Thread α} (h : t.uses = none) (f : Nat) : t.on f = false := by
  unfold on
  rw [h]
  rfl

end Thread

/-! ## The invariant -/

/-- The frame's page is dirty, or it becomes so when a guard on it is unpinned. -/
def World.Unsaved (w : World α) (f : Nat) : Prop :=
  (w.metadata f).is_dirty = true ∨ ∃ t ∈ w.threads, t.on f = true ∧ t.touched = true

/-- Nobody has changed the frame without marking it dirty. -/
def World.Untouched (w : World α) (f : Nat) : Prop :=
  ∀ t ∈ w.threads, t.on f = true → t.touched = false

/-- What a thread on page `p` and frame `f` relies on. A copy is that of the latest content,
or else a flush of the page is still due; for `delete_page` it is the latest content. -/
structure Fits (w : World α) (t : Thread α) (p f : Nat) : Prop where
  proper : t.proper = true
  own : w.page_table p = some f
  loads : t.loads = (w.metadata f).loading
  stored : t.loads = true → w.disk p = w.latest p
  current : t.current = true → w.pages f = w.latest p
  copied : ∀ b, t.buf? = some b →
    b ∈ w.contents p ∧ (b = w.latest p ∨ t.deletes = false ∧ w.Unsaved f)
  wrote : t.wrote = true → w.disk p = w.latest p ∨ t.deletes = false ∧ w.Unsaved f
  untouched : t.deletes = true → w.Untouched f

/-- Where the latest content of a page is. -/
structure Kept (w : World α) (p : Nat) : Prop where
  absent : w.page_table p = none → w.disk p = w.latest p
  resident : ∀ f, w.page_table p = some f → (w.metadata f).loading = false →
    (∀ t ∈ w.threads, t.on f = true → t.writes = false) → w.pages f = w.latest p
  clean : ∀ f, w.page_table p = some f → (w.metadata f).loading = false →
    (w.metadata f).is_dirty = false → w.Untouched f →
    (∀ t ∈ w.threads, t.on f = true → t.flushes = false) → w.disk p = w.latest p

structure Good (w : World α) : Prop where
  table : ∀ p f, w.page_table p = some f ↔ (w.metadata f).page_id = some p
  pins : ∀ f, (w.metadata f).pin_count = w.threads.countP (Thread.on f)
  free : ∀ f ∈ w.free_list, (w.metadata f).page_id = none ∧ w.replacer.evictable f = false
  nodup : w.free_list.Nodup
  settled : ∀ f, w.replacer.evictable f = true ∨ (w.metadata f).is_dirty = true →
    (w.metadata f).loading = false
  held : ∀ f, w.replacer.evictable f = true → ∀ t ∈ w.threads, t.on f = true → t.flushes = true
  busy : ∀ p f, w.page_table p = some f → (w.metadata f).loading = true →
    0 < (w.metadata f).pin_count
  fits : ∀ (i : Nat) t, w.threads[i]? = some t → ∀ p f, t.uses = some (p, f) → Fits w t p f
  apart : ∀ (i j : Nat) t u f, i ≠ j → w.threads[i]? = some t → w.threads[j]? = some u →
    t.on f = true → u.on f = true → t.clashes u = false
  kept : ∀ p, Kept w p
  history : ∀ p, w.latest p ∈ w.contents p

theorem good_new [Inhabited α] (n_frames : Nat) (disk : Nat → α) :
    Good (World.new n_frames disk) where
  table := fun p f => by simp [World.new, FrameMetadata.free]
  pins := fun f => by simp [World.new, FrameMetadata.free]
  free := fun f _ => ⟨rfl, rfl⟩
  nodup := nodup_range
  settled := fun f _ => rfl
  held := nofun
  busy := nofun
  fits := fun i t h => by simp [World.new] at h
  apart := fun i j t u f _ h => by simp [World.new] at h
  kept := fun p => ⟨fun _ => rfl, nofun, nofun⟩
  history := fun p => mem_singleton.mpr rfl

namespace Good

variable {w : World α}

theorem unused (h : Good w) {f : Nat} (hpin : (w.metadata f).pin_count = 0) :
    ∀ t ∈ w.threads, t.on f = false := by
  rw [h.pins f, countP_eq_zero] at hpin
  intro t ht
  exact Bool.eq_false_iff.mpr (hpin t ht)

theorem pinned (h : Good w) {i : Nat} {t : Thread α} {p f : Nat} (hi : w.threads[i]? = some t)
    (ht : t.uses = some (p, f)) : 0 < (w.metadata f).pin_count := by
  rw [h.pins f, countP_pos_iff]
  exact ⟨t, mem_of_getElem? hi, on_of_uses ht⟩

theorem same_page (h : Good w) {i : Nat} {t : Thread α} {p q f : Nat} (hi : w.threads[i]? = some t)
    (ht : t.uses = some (q, f)) (hp : w.page_table p = some f) : q = p := by
  have hq := (h.table q f).mp (h.fits i t hi q f ht).own
  rw [(h.table p f).mp hp] at hq
  exact (Option.some.inj hq).symm

end Good

/-! ## A change at one frame -/

/-- The two worlds differ at page `p` and frame `f` only, and in the threads. -/
structure Local (w w' : World α) (p f : Nat) : Prop where
  table : w'.page_table = w.page_table
  free_list : w'.free_list = w.free_list
  page_id : (w'.metadata f).page_id = (w.metadata f).page_id
  metadata : ∀ g, g ≠ f → w'.metadata g = w.metadata g
  evictable : ∀ g, g ≠ f → w'.replacer.evictable g = w.replacer.evictable g
  pages : ∀ g, g ≠ f → w'.pages g = w.pages g
  disk : ∀ q, q ≠ p → w'.disk q = w.disk q
  latest : ∀ q, q ≠ p → w'.latest q = w.latest q
  contents : ∀ q, q ≠ p → w'.contents q = w.contents q

variable {l : List (Thread α)} {u : Thread α} {g : Nat}

section Local

variable {w w' : World α} {i : Nat} {t t' : Thread α} {p f : Nat}

section Same

variable (h : Fits w t p f) (htable : w'.page_table p = w.page_table p)
  (hloading : (w'.metadata f).loading = (w.metadata f).loading)
  (hpages : w'.pages f = w.pages f) (hdisk : w'.disk p = w.disk p)
  (hlatest : w'.latest p = w.latest p)

include h htable hloading hpages hdisk hlatest

/-- A thread relies on nothing but the part of the world at its own page and frame. -/
theorem Fits.congr (hcontents : w'.contents p = w.contents p)
    (hunsaved : w.Unsaved f → w'.Unsaved f) (huntouched : w.Untouched f → w'.Untouched f) :
    Fits w' t p f where
  proper := h.proper
  own := htable.trans h.own
  loads := h.loads.trans hloading.symm
  stored := fun ht => by rw [hdisk, hlatest]; exact h.stored ht
  current := fun ht => by rw [hpages, hlatest]; exact h.current ht
  copied := fun b hb => by
    rw [hcontents, hlatest]
    exact ⟨(h.copied b hb).1, (h.copied b hb).2.imp_right fun hd => ⟨hd.1, hunsaved hd.2⟩⟩
  wrote := fun ht => by
    rw [hdisk, hlatest]
    exact (h.wrote ht).imp_right fun hd => ⟨hd.1, hunsaved hd.2⟩
  untouched := fun ht => huntouched (h.untouched ht)

/-- A thread that does not write its frame out does not mind what is unsaved. -/
theorem Fits.of_not_flushes (ht : t.flushes = false) : Fits w' t p f := by
  obtain ⟨hbuf, hwrote, hdeletes⟩ := plain_of_not_flushes ht
  refine ⟨h.proper, htable.trans h.own, h.loads.trans hloading.symm, fun hl => ?_, fun hc => ?_,
    ?_, ?_, ?_⟩
  · rw [hdisk, hlatest]
    exact h.stored hl
  · rw [hpages, hlatest]
    exact h.current hc
  · rw [hbuf]
    exact nofun
  · rw [hwrote]
    exact nofun
  rw [hdeletes]
  exact nofun

end Same

theorem mem_set_cases (hi : l[i]? = some t) (hu : u ∈ l.set i t') :
    u = t' ∨ ∃ j, j ≠ i ∧ l[j]? = some u := by
  obtain ⟨j, hj⟩ := mem_iff_getElem?.mp hu
  rw [getElem?_set_eq_ite hi] at hj
  split at hj
  · exact .inl (Option.some.inj hj).symm
  · next hne => exact .inr ⟨j, hne, hj⟩

theorem mem_set_of_ne {j : Nat} (hi : l[i]? = some t) (hne : j ≠ i) (hj : l[j]? = some u) :
    u ∈ l.set i t' := by
  apply mem_of_getElem? (i := j)
  rw [getElem?_set_eq_ite hi, if_neg hne]
  exact hj

/-- What is true of the threads on a frame that the replaced thread is not on. -/
theorem forall_on_set {P : Thread α → Prop} (hi : l[i]? = some t) (ht : t.on g = false)
    (ht' : t'.on g = false) :
    (∀ u ∈ l.set i t', u.on g = true → P u) ↔ ∀ u ∈ l, u.on g = true → P u := by
  constructor
  · intro h u hu hon
    obtain ⟨j, hj⟩ := mem_iff_getElem?.mp hu
    have hne : j ≠ i := by
      rintro rfl
      rw [hi] at hj
      cases hj
      rw [ht] at hon
      cases hon
    exact h u (mem_set_of_ne hi hne hj) hon
  intro h u hu hon
  rcases mem_set_cases hi hu with rfl | ⟨j, -, hj⟩
  · rw [ht'] at hon
    cases hon
  · exact h u (mem_of_getElem? hj) hon

theorem unsaved_iff_of_ne (hi : w.threads[i]? = some t)
    (hthreads : w'.threads = w.threads.set i t') (ht : t.on g = false) (ht' : t'.on g = false)
    (hmeta : w'.metadata g = w.metadata g) : w'.Unsaved g ↔ w.Unsaved g := by
  unfold World.Unsaved
  rw [hmeta, hthreads]
  have := forall_on_set (P := fun u => ¬ u.touched = true) hi ht ht'
  refine or_congr Iff.rfl (not_iff_not.mp ?_)
  push Not
  simpa using this

/-- Everything but page `p`, frame `f` and thread `i` is as it was. -/
structure Changed (w w' : World α) (i : Nat) (t' : Thread α) (p f : Nat) : Prop where
  threads : w'.threads = w.threads.set i t'
  table : ∀ q, q ≠ p → w'.page_table q = w.page_table q
  metadata : ∀ g, g ≠ f → w'.metadata g = w.metadata g
  evictable : ∀ g, g ≠ f → w'.replacer.evictable g = w.replacer.evictable g
  pages : ∀ g, g ≠ f → w'.pages g = w.pages g
  disk : ∀ q, q ≠ p → w'.disk q = w.disk q
  latest : ∀ q, q ≠ p → w'.latest q = w.latest q
  contents : ∀ q, q ≠ p → w'.contents q = w.contents q

/-- A step that touches one page, one frame and one thread keeps the invariant if it keeps it
there. -/
theorem Good.change (h : Good w) (hi : w.threads[i]? = some t) (hw : Changed w w' i t' p f)
    (ht : ∀ g, g ≠ f → t.on g = false) (ht' : ∀ g, g ≠ f → t'.on g = false)
    (hfp : w.page_table p = some f ∨ w.page_table p = none ∧ (w.metadata f).page_id = none)
    (hnew : ∀ q g, (q = p ∨ g = f) → (w'.page_table q = some g ↔ (w'.metadata g).page_id = some q))
    (hpins : (w'.metadata f).pin_count + (if t.on f then 1 else 0) = (w.metadata f).pin_count +
      (if t'.on f then 1 else 0))
    (hfree : ∀ g ∈ w'.free_list, g ≠ f → g ∈ w.free_list)
    (hfree' : f ∈ w'.free_list → (w'.metadata f).page_id = none ∧ w'.replacer.evictable f = false)
    (hnodup : w'.free_list.Nodup)
    (hsettled : w'.replacer.evictable f = true ∨ (w'.metadata f).is_dirty = true →
      (w'.metadata f).loading = false)
    (hheld : w'.replacer.evictable f = true → ∀ u ∈ w'.threads, u.on f = true → u.flushes = true)
    (hbusy : (w'.metadata f).page_id ≠ none → (w'.metadata f).loading = true → t'.on f = true)
    (hself : ∀ q, t'.uses = some (q, f) → Fits w' t' q f)
    (hothers : ∀ j u q, j ≠ i → w.threads[j]? = some u → u.uses = some (q, f) → Fits w' u q f ∧
      (t'.on f = true → t'.clashes u = false ∧ u.clashes t' = false))
    (hkept : Kept w' p) (hhistory : w'.latest p ∈ w'.contents p) : Good w' := by
  have hget := fun j => getElem?_set_eq_ite hi t' j
  -- no page but `p` is in the frame, before or after
  have hother : ∀ q, q ≠ p → w.page_table q ≠ some f := by
    intro q hq hqf
    have hq' := (h.table q f).mp hqf
    rcases hfp with hp | ⟨-, hf⟩
    · rw [(h.table p f).mp hp] at hq'
      exact hq (Option.some.inj hq').symm
    rw [hf] at hq'
    cases hq'
  constructor
  case table =>
    intro q g
    by_cases hq : q = p
    · exact hnew q g (.inl hq)
    by_cases hg : g = f
    · exact hnew q g (.inr hg)
    rw [hw.table q hq, hw.metadata g hg]
    exact h.table q g
  case pins =>
    intro g
    have hcount := countP_set_add hi t' (Thread.on g)
    rw [hw.threads]
    by_cases hg : g = f
    · subst hg
      have := h.pins g
      omega
    rw [hw.metadata g hg, h.pins g]
    simp only [ht g hg, ht' g hg, Bool.false_eq_true, if_false] at hcount
    omega
  case free =>
    intro g hg
    by_cases hgf : g = f
    · subst hgf
      exact hfree' hg
    rw [hw.metadata g hgf, hw.evictable g hgf]
    exact h.free g (hfree g hg hgf)
  case nodup => exact hnodup
  case settled =>
    intro g hg
    by_cases hgf : g = f
    · subst hgf
      exact hsettled hg
    rw [hw.evictable g hgf, hw.metadata g hgf] at hg
    rw [hw.metadata g hgf]
    exact h.settled g hg
  case held =>
    intro g hg
    by_cases hgf : g = f
    · subst hgf
      exact hheld hg
    rw [hw.evictable g hgf] at hg
    rw [hw.threads, forall_on_set hi (ht g hgf) (ht' g hgf)]
    exact h.held g hg
  case busy =>
    intro q g hq hl
    by_cases hgf : g = f
    · subst hgf
      have hid := (hnew q g (.inr rfl)).mp hq
      have hon := hbusy (by rw [hid]; exact nofun) hl
      have hcount := countP_set_add hi t' (Thread.on g)
      have hpos : 0 < (w.threads.set i t').countP (Thread.on g) := countP_pos_iff.mpr
        ⟨t', mem_set (lt_of_getElem? hi) t', hon⟩
      have := h.pins g
      omega
    have hqg : w.page_table q = some g := by
      by_cases hqp : q = p
      · have hid := (hnew q g (.inl hqp)).mp hq
        rwa [hw.metadata g hgf, ← h.table q g] at hid
      · rwa [hw.table q hqp] at hq
    rw [hw.metadata g hgf] at hl ⊢
    exact h.busy q g hqg hl
  case fits =>
    intro j u hj q g hu
    rw [hw.threads, hget] at hj
    split at hj
    · cases hj
      by_cases hg : g = f
      · subst hg
        exact hself q hu
      have := on_of_uses hu
      rw [ht' g hg] at this
      cases this
    rename_i hne
    by_cases hg : g = f
    · subst hg
      exact (hothers j u q hne hj hu).1
    have hfits := h.fits j u hj q g hu
    have hq : q ≠ p := by
      rintro rfl
      rcases hfp with hp | ⟨hp, -⟩
      · exact hg (Option.some.inj (hfits.own.symm.trans hp))
      rw [hfits.own] at hp
      cases hp
    refine hfits.congr (hw.table q hq) (by rw [hw.metadata g hg]) (hw.pages g hg)
      (hw.disk q hq) (hw.latest q hq) (hw.contents q hq)
      (unsaved_iff_of_ne hi hw.threads (ht g hg) (ht' g hg) (hw.metadata g hg)).mpr ?_
    unfold World.Untouched
    rw [hw.threads]
    exact (forall_on_set hi (ht g hg) (ht' g hg)).mpr
  case apart =>
    intro j k u v g hne hj hk hu hv
    rw [hw.threads, hget] at hj hk
    -- a thread next to the one that moves is on its frame
    have hclash : ∀ k v, k ≠ i → w.threads[k]? = some v → t'.on g = true → v.on g = true →
        t'.clashes v = false ∧ v.clashes t' = false := by
      intro k v hk hv ht'g hvg
      have hg : g = f := by
        by_contra hg
        rw [ht' g hg] at ht'g
        cases ht'g
      subst hg
      obtain ⟨q, hq⟩ := on_iff.mp hvg
      exact (hothers k v q hk hv hq).2 ht'g
    split at hj <;> split at hk
    · next h1 h2 => exact absurd (h1.trans h2.symm) hne
    · next h1 h2 =>
      cases hj
      exact (hclash k v h2 hk hu hv).1
    · next h1 h2 =>
      cases hk
      exact (hclash j u h1 hj hv hu).2
    · exact h.apart j k u v g hne hj hk hu hv
  case kept =>
    intro q
    by_cases hq : q = p
    · subst hq
      exact hkept
    have hk := h.kept q
    have hne : ∀ g, w.page_table q = some g → g ≠ f := fun g hqg hg => hother q hq (hg ▸ hqg)
    constructor
    · rw [hw.table q hq, hw.disk q hq, hw.latest q hq]
      exact hk.absent
    · intro g hqg
      rw [hw.table q hq] at hqg
      have hg := hne g hqg
      rw [hw.metadata g hg, hw.pages g hg, hw.latest q hq, hw.threads,
        forall_on_set hi (ht g hg) (ht' g hg)]
      exact hk.resident g hqg
    intro g hqg
    rw [hw.table q hq] at hqg
    have hg := hne g hqg
    unfold World.Untouched
    rw [hw.metadata g hg, hw.disk q hq, hw.latest q hq, hw.threads,
      forall_on_set hi (ht g hg) (ht' g hg), forall_on_set hi (ht g hg) (ht' g hg)]
    exact hk.clean g hqg
  case history =>
    intro q
    by_cases hq : q = p
    · subst hq
      exact hhistory
    rw [hw.latest q hq, hw.contents q hq]
    exact h.history q

/-- The frame keeps its page. -/
theorem Good.update (h : Good w) (hi : w.threads[i]? = some t)
    (hthreads : w'.threads = w.threads.set i t') (hlocal : Local w w' p f)
    (hown : w.page_table p = some f) (ht : t.uses = none ∨ t.uses = some (p, f))
    (ht' : t'.uses = none ∨ t'.uses = some (p, f))
    (hpins : (w'.metadata f).pin_count + (if t.on f then 1 else 0) = (w.metadata f).pin_count +
      (if t'.on f then 1 else 0))
    (hsettled : w'.replacer.evictable f = true ∨ (w'.metadata f).is_dirty = true →
      (w'.metadata f).loading = false)
    (hheld : w'.replacer.evictable f = true → ∀ u ∈ w'.threads, u.on f = true → u.flushes = true)
    (hbusy : t'.on f = true ∨ (w'.metadata f).loading = false)
    (hself : t'.uses = some (p, f) → Fits w' t' p f)
    (hothers : ∀ j u, j ≠ i → w.threads[j]? = some u → u.uses = some (p, f) → Fits w' u p f ∧
      (t'.on f = true → t'.clashes u = false ∧ u.clashes t' = false))
    (hkept : Kept w' p) (hhistory : w'.latest p ∈ w'.contents p) : Good w' := by
  have hoff : ∀ {u : Thread α}, (u.uses = none ∨ u.uses = some (p, f)) → ∀ g, g ≠ f →
      u.on g = false := by
    intro u hu g hg
    rcases hu with hu | hu
    · exact on_eq_false hu g
    unfold Thread.on
    rw [hu]
    simpa using hg.symm
  have hpf : (w.metadata f).page_id = some p := (h.table p f).mp hown
  refine h.change hi { hlocal with
      threads := hthreads, table := fun q _ => congrFun hlocal.table q } (hoff ht) (hoff ht')
    (.inl hown) (fun q g _ => ?_) hpins ?_ (fun hf => ?_) ?_ hsettled hheld (fun _ hl => ?_)
    (fun q hu => ?_) (fun j u q hj hu huse => ?_) hkept hhistory
  · rw [hlocal.table, h.table q g]
    by_cases hg : g = f
    · rw [hg, hlocal.page_id]
    · rw [hlocal.metadata g hg]
  · rw [hlocal.free_list]
    exact fun g hg _ => hg
  · rw [hlocal.free_list] at hf
    rw [(h.free f hf).1] at hpf
    cases hpf
  · rw [hlocal.free_list]
    exact h.nodup
  · rcases hbusy with hon | hno
    · exact hon
    rw [hno] at hl
    cases hl
  · rcases ht' with ht' | ht'
    · rw [ht'] at hu
      cases hu
    cases hu.symm.trans ht'
    exact hself hu
  obtain rfl := h.same_page hu huse hown
  exact hothers j u hj hu huse

end Local

/-! ## A change away from the frames -/

/-- A change among the threads that are on no frame. -/
theorem Good.of_threads {w : World α} {threads : List (Thread α)} (h : Good w)
    (hsame : ∀ (j : Nat) u p f, u.uses = some (p, f) →
      (threads[j]? = some u ↔ w.threads[j]? = some u))
    (hcount : ∀ f, threads.countP (Thread.on f) = w.threads.countP (Thread.on f)) :
    Good { w with threads := threads } := by
  have hmem : ∀ u f, u.on f = true → (u ∈ threads ↔ u ∈ w.threads) := by
    intro u f hon
    obtain ⟨p, hu⟩ := on_iff.mp hon
    rw [mem_iff_getElem?, mem_iff_getElem?]
    exact exists_congr fun j => hsame j u p f hu
  have hall : ∀ {P : Thread α → Prop} {f}, (∀ u ∈ threads, u.on f = true → P u) ↔
      ∀ u ∈ w.threads, u.on f = true → P u := fun {P f} =>
    ⟨fun hP u hu hon => hP u ((hmem u f hon).mpr hu) hon,
      fun hP u hu hon => hP u ((hmem u f hon).mp hu) hon⟩
  constructor
  case table => exact h.table
  case pins => exact fun f => (h.pins f).trans (hcount f).symm
  case free => exact h.free
  case nodup => exact h.nodup
  case settled => exact h.settled
  case held => exact fun f hf => hall.mpr (h.held f hf)
  case busy => exact h.busy
  case fits =>
    intro j u hj p f hu
    refine (h.fits j u ((hsame j u p f hu).mp hj) p f hu).congr rfl rfl rfl rfl rfl rfl ?_ hall.mpr
    rintro (hd | ⟨v, hv, hon, ht⟩)
    · exact .inl hd
    · exact .inr ⟨v, (hmem v f hon).mpr hv, hon, ht⟩
  case apart =>
    intro j k u v f hne hj hk hu hv
    obtain ⟨p, hp⟩ := on_iff.mp hu
    obtain ⟨q, hq⟩ := on_iff.mp hv
    exact h.apart j k u v f hne ((hsame j u p f hp).mp hj) ((hsame k v q f hq).mp hk) hu hv
  case kept =>
    intro p
    exact ⟨(h.kept p).absent, fun f hf hl hw => (h.kept p).resident f hf hl (hall.mp hw),
      fun f hf hl hd hu hq => (h.kept p).clean f hf hl hd (hall.mp hu) (hall.mp hq)⟩
  case history => exact h.history

/-- A thread that is on no frame moves on to a place that is on none. -/
theorem Good.aside {w : World α} {i : Nat} {t t' : Thread α} (h : Good w)
    (hi : w.threads[i]? = some t) (ht : t.uses = none) (ht' : t'.uses = none) :
    Good (w.setThread i t') := by
  apply h.of_threads
  · intro j u p f hu
    rw [getElem?_set_eq_ite hi]
    split
    swap
    · exact .rfl
    rename_i hj
    subst hj
    rw [hi]
    constructor
    · intro he
      cases he
      rw [ht'] at hu
      cases hu
    intro he
    cases he
    rw [ht] at hu
    cases hu
  intro f
  have := countP_set_add hi t' (Thread.on f)
  simpa [on_eq_false ht f, on_eq_false ht' f] using this

theorem Good.call {w : World α} {t : Thread α} (h : Good w) (ht : t.uses = none) :
    Good (w.call t) := by
  apply h.of_threads
  · intro j u p f hu
    rw [getElem?_append]
    split
    · exact .rfl
    rename_i hj
    rw [getElem?_eq_none (Nat.le_of_not_lt hj)]
    refine iff_of_false ?_ nofun
    intro he
    obtain rfl := mem_singleton.mp (mem_of_getElem? he)
    rw [ht] at hu
    cases hu
  intro f
  simp [on_eq_false ht f]

/-- What one pass of `acquire_frame` can do: a hit, a pass that finds no frame or a dirty one, and
a frame that is reserved. -/
theorem acquire_frame_cases {w w' : World α} {i p : Nat} {a : Access}
    (hstep : w.acquire_frame i a p = some w') :
    (∃ f, w.page_table p = some f ∧ (w.metadata f).loading = false ∧
      w' = { w.setMeta f { w.metadata f with pin_count := (w.metadata f).pin_count + 1 } with
        replacer := w.replacer.pin f }.setThread i (.latch a p f false)) ∨
    w.page_table p = none ∧ ∃ fs r,
      w.find_victim_frame_id.2 = { w with free_list := fs, replacer := r } ∧
      ((∃ t, (t = .done ∨ ∃ old, t = .flush_page old (.acquire_frame a p)) ∧
        w' = { w with free_list := fs, replacer := r }.setThread i t) ∨
      ∃ f, w.find_victim_frame_id.1 = some f ∧ w.dirty_page f = none ∧
        w' = (({ w with free_list := fs, replacer := r }.evict f).reserve p f).setThread i
          (.latch a p f true)) := by
  have hvictim : ∃ fs r, w.find_victim_frame_id.2 = { w with free_list := fs, replacer := r } := by
    unfold World.find_victim_frame_id
    split <;> exact ⟨_, _, rfl⟩
  unfold World.acquire_frame at hstep
  split at hstep
  · next f hp =>
    obtain ⟨hl, ⟨⟩⟩ := Option.ite_none_left_eq_some.mp hstep
    exact .inl ⟨f, hp, Bool.eq_false_iff.mpr hl, rfl⟩
  rename_i hp
  obtain ⟨fs, r, hvictim⟩ := hvictim
  refine .inr ⟨hp, fs, r, hvictim, ?_⟩
  generalize w.find_victim_frame_id = found at *
  obtain ⟨o, v⟩ := found
  subst hvictim
  split at hstep
  · next heq =>
    cases heq
    cases hstep
    exact .inl ⟨_, .inl rfl, rfl⟩
  rename_i f _ heq
  cases heq
  split at hstep
  · cases hstep
    exact .inl ⟨_, .inr ⟨_, rfl⟩, rfl⟩
  rename_i hd
  cases hstep
  exact .inr ⟨f, rfl, hd, rfl⟩

/-- Frames leave the free list or the replacer. -/
theorem Good.shrink {w : World α} {fs : List Nat} {r : ClockReplacer} (h : Good w)
    (hfs : fs.Sublist w.free_list)
    (hr : ∀ f, r.evictable f = true → w.replacer.evictable f = true) :
    Good { w with free_list := fs, replacer := r } where
  __ := h
  free := fun f hf => by
    refine ⟨(h.free f (hfs.subset hf)).1, Bool.eq_false_iff.mpr fun he => ?_⟩
    have := hr f he
    rw [(h.free f (hfs.subset hf)).2] at this
    cases this
  nodup := h.nodup.sublist hfs
  settled := fun f hf => h.settled f (hf.imp_left (hr f))
  held := fun f hf => h.held f (hr f hf)
  fits := fun j u hj p f hu => (h.fits j u hj p f hu).congr rfl rfl rfl rfl rfl rfl id id
  kept := fun p => ⟨(h.kept p).absent, (h.kept p).resident, (h.kept p).clean⟩

theorem kept_of_own {w : World α} {p f : Nat} (hown : w.page_table p = some f)
    (hresident : (w.metadata f).loading = false →
      (∀ t ∈ w.threads, t.on f = true → t.writes = false) → w.pages f = w.latest p)
    (hclean : (w.metadata f).loading = false → (w.metadata f).is_dirty = false → w.Untouched f →
      (∀ t ∈ w.threads, t.on f = true → t.flushes = false) → w.disk p = w.latest p) :
    Kept w p := by
  constructor
  · intro habsent
    rw [hown] at habsent
    cases habsent
  · intro g hg
    obtain rfl : f = g := Option.some.inj (hown.symm.trans hg)
    exact hresident
  intro g hg
  obtain rfl : f = g := Option.some.inj (hown.symm.trans hg)
  exact hclean

/-! ## Frames change pages -/

section Pages

variable {w w' : World α} {i : Nat} {t t' : Thread α} {p f : Nat}

/-- A page and a frame come together or part: everything else stays as it is, and no thread
but `i` is on the frame. -/
structure Rehoused (w w' : World α) (i : Nat) (t' : Thread α) (p f : Nat) : Prop where
  threads : w'.threads = w.threads.set i t'
  table : ∀ q, q ≠ p → w'.page_table q = w.page_table q
  metadata : ∀ g, g ≠ f → w'.metadata g = w.metadata g
  evictable : ∀ g, g ≠ f → w'.replacer.evictable g = w.replacer.evictable g
  pages : w'.pages = w.pages
  disk : w'.disk = w.disk
  latest : w'.latest = w.latest
  contents : w'.contents = w.contents
  alone : ∀ j u, j ≠ i → w.threads[j]? = some u → u.on f = false

theorem Good.rehouse (h : Good w) (hi : w.threads[i]? = some t) (hw : Rehoused w w' i t' p f)
    (ht : ∀ g, g ≠ f → t.on g = false) (ht' : ∀ g, g ≠ f → t'.on g = false)
    (hfp : w.page_table p = some f ∨ w.page_table p = none ∧ (w.metadata f).page_id = none)
    (hnew : ∀ q g, (q = p ∨ g = f) → (w'.page_table q = some g ↔ (w'.metadata g).page_id = some q))
    (hpins : (w'.metadata f).pin_count = if t'.on f then 1 else 0)
    (hfree : ∀ g ∈ w'.free_list, g ≠ f → g ∈ w.free_list)
    (hfree' : f ∈ w'.free_list → (w'.metadata f).page_id = none)
    (hnodup : w'.free_list.Nodup) (hevictable : w'.replacer.evictable f = false)
    (hclean : (w'.metadata f).is_dirty = false)
    (hbusy : (w'.metadata f).page_id = none ∨ t'.on f = true)
    (hself : ∀ q, t'.uses = some (q, f) → Fits w' t' q f)
    (hkept : Kept w' p) : Good w' := by
  have hcount : w.threads.countP (Thread.on f) = if t.on f then 1 else 0 := by
    have hdone := countP_set_add hi (.done : Thread α) (Thread.on f)
    have hzero : (w.threads.set i (.done : Thread α)).countP (Thread.on f) = 0 := by
      rw [countP_eq_zero]
      intro u hu hon
      rcases mem_set_cases hi hu with rfl | ⟨j, hj, hu'⟩
      · cases hon
      rw [hw.alone j u hj hu'] at hon
      cases hon
    rw [hzero] at hdone
    simpa [Thread.on, Thread.uses] using hdone.symm
  refine h.change hi ⟨hw.threads, hw.table, hw.metadata, hw.evictable,
    fun g _ => congrFun hw.pages g, fun q _ => congrFun hw.disk q,
    fun q _ => congrFun hw.latest q, fun q _ => congrFun hw.contents q⟩ ht ht' hfp hnew ?_ hfree
    (fun hf => ⟨hfree' hf, hevictable⟩) hnodup (fun hor => ?_) (fun he => ?_)
    (fun hid _ => hbusy.resolve_left hid) hself (fun j u q hj hu huse => ?_) hkept ?_
  · rw [hpins, h.pins f, hcount, Nat.add_comm]
  · rw [hevictable, hclean] at hor
    simp at hor
  · rw [hevictable] at he
    cases he
  · have hon := on_of_uses huse
    rw [hw.alone j u hj hu] at hon
    cases hon
  rw [hw.latest, hw.contents]
  exact h.history p

end Pages

/-! ## A thread moves on -/

section Moves

variable {w : World α} {i : Nat} {t t' : Thread α} {p f : Nat}

theorem local_setThread : Local w (w.setThread i t') p f := by
  constructor <;> intros <;> rfl

/-- The latch of the frame, for the threads next to `t'`. -/
def World.Grants (w : World α) (i : Nat) (t' : Thread α) (f : Nat) : Prop :=
  ∀ j u, j ≠ i → w.threads[j]? = some u → u.on f = true →
    (t'.writes = true → u.writes = false ∧ u.reads = false) ∧
    (t'.reads = true → u.writes = false)

/-- A thread that keeps its latch, or drops it, needs no grant. -/
theorem Good.grants (h : Good w) (hi : w.threads[i]? = some t) (ht : t.uses = some (p, f))
    (hw : t'.writes = true → t.writes = true) (hr : t'.reads = true → t.writes = true) :
    w.Grants i t' f := by
  intro j u hne hj hon
  have hclash := h.apart i j t u f hne.symm hi hj (on_of_uses ht) hon
  have hkeep : t.writes = true → u.writes = false ∧ u.reads = false := by
    intro htw
    simp only [Thread.clashes, htw, Bool.true_and, Bool.or_eq_false_iff] at hclash
    exact hclash.1.1
  exact ⟨fun hw' => hkeep (hw hw'), fun hr' => (hkeep (hr hr')).1⟩

/-- Threads next to one another after one of them has moved on. -/
theorem Good.clashes_of_move (h : Good w) (hi : w.threads[i]? = some t)
    (ht : t.uses = some (p, f)) (hloads : t'.loads = t.loads) (hflushes : t'.flushes = t.flushes)
    (hgrants : w.Grants i t' f) {j : Nat} (hne : j ≠ i) (hj : w.threads[j]? = some u)
    (hon : u.on f = true) : t'.clashes u = false ∧ u.clashes t' = false := by
  have h1 := h.apart i j t u f hne.symm hi hj (on_of_uses ht) hon
  have h2 := h.apart j i u t f hne hj hi hon (on_of_uses ht)
  obtain ⟨hw, hr⟩ := hgrants j u hne hj hon
  simp only [Thread.clashes, hloads, hflushes, Bool.or_eq_false_iff, Bool.and_eq_false_iff] at *
  refine ⟨⟨⟨?_, h1.1.2⟩, h1.2⟩, ⟨⟨?_, h2.1.2⟩, h2.2⟩⟩
  · cases htw : t'.writes with
    | false => exact .inl rfl
    | true => exact .inr (hw htw)
  cases huw : u.writes with
  | false => exact .inl rfl
  | true =>
    right
    constructor
    · cases htw : t'.writes with
      | false => rfl
      | true =>
        rw [(hw htw).1] at huw
        cases huw
    cases htr : t'.reads with
    | false => rfl
    | true =>
      rw [hr htr] at huw
      cases huw

/-- What is true of the threads on the frame of a thread that moves on. -/
theorem forall_on_set_self {P : Thread α → Prop} (hi : l[i]? = some t)
    (h : ∀ u ∈ l.set i t', u.on g = true → P u) (ht : t.on g = true → P t) :
    ∀ u ∈ l, u.on g = true → P u := by
  intro u hu hon
  obtain ⟨j, hj⟩ := mem_iff_getElem?.mp hu
  by_cases hne : j = i
  · subst hne
    rw [hi] at hj
    cases hj
    exact ht hon
  · exact h u (mem_set_of_ne hi hne hj) hon

/-- A thread that moves on is as much in the way of an eviction as before. -/
theorem Good.held_set (h : Good w) (hi : w.threads[i]? = some t) (ht : t.uses = some (p, f))
    (hflushes : t'.flushes = t.flushes) (he : w.replacer.evictable f = true) :
    ∀ u ∈ w.threads.set i t', u.on f = true → u.flushes = true := by
  intro u hu hon
  rcases mem_set_cases hi hu with rfl | ⟨j, -, hj⟩
  · exact hflushes.trans (h.held f he t (mem_of_getElem? hi) (on_of_uses ht))
  · exact h.held f he u (mem_of_getElem? hj) hon

/-- The frame stays unsaved when the thread that moves on leaves its mark. -/
theorem World.Unsaved.set {w' : World α} (hi : w.threads[i]? = some t)
    (hthreads : w'.threads = w.threads.set i t')
    (hdirty : (w.metadata f).is_dirty = true → (w'.metadata f).is_dirty = true)
    (ht : t.on f = true → t.touched = true →
      (w'.metadata f).is_dirty = true ∨ t'.on f = true ∧ t'.touched = true)
    (h : w.Unsaved f) : w'.Unsaved f := by
  rcases h with h | ⟨u, hu, hon, htouched⟩
  · exact .inl (hdirty h)
  obtain ⟨j, hj⟩ := mem_iff_getElem?.mp hu
  by_cases hne : j = i
  · subst hne
    rw [hi] at hj
    cases hj
    refine (ht hon htouched).imp_right fun ht' => ⟨t', ?_, ht'⟩
    rw [hthreads]
    exact mem_set (lt_of_getElem? hi) t'
  right
  refine ⟨u, ?_, hon, htouched⟩
  rw [hthreads]
  exact mem_set_of_ne hi hne hj

theorem World.Untouched.set {w' : World α} (hi : w.threads[i]? = some t)
    (hthreads : w'.threads = w.threads.set i t') (ht' : t'.on f = true → t'.touched = false)
    (h : w.Untouched f) : w'.Untouched f := by
  intro u hu hon
  rw [hthreads] at hu
  rcases mem_set_cases hi hu with rfl | ⟨j, -, hj⟩
  · exact ht' hon
  · exact h u (mem_of_getElem? hj) hon

/-- A thread goes on with its frame, and nothing but its place changes. -/
theorem Good.move (h : Good w) (hi : w.threads[i]? = some t) (ht : t.uses = some (p, f))
    (ht' : t'.uses = some (p, f)) (hproper : t'.proper = true) (hloads : t'.loads = t.loads)
    (htouched : t'.touched = t.touched) (hflushes : t'.flushes = t.flushes)
    (hdeletes : t'.deletes = t.deletes) (hgrants : w.Grants i t' f)
    (hcurrent : t'.current = true → w.pages f = w.latest p)
    (hcopied : ∀ b, t'.buf? = some b →
      b ∈ w.contents p ∧ (b = w.latest p ∨ t'.deletes = false ∧ w.Unsaved f))
    (hwrote : t'.wrote = true → w.disk p = w.latest p ∨ t'.deletes = false ∧ w.Unsaved f)
    (hrelease : t.writes = true → t'.writes = false → (w.metadata f).loading = false →
      w.pages f = w.latest p) : Good (w.setThread i t') := by
  have hfits := h.fits i t hi p f ht
  have hunsaved : w.Unsaved f → (w.setThread i t').Unsaved f :=
    World.Unsaved.set hi rfl id fun _ hu => .inr ⟨on_of_uses ht', htouched.trans hu⟩
  have huntouched : w.Untouched f → (w.setThread i t').Untouched f := fun hu =>
    hu.set hi rfl fun _ => htouched.trans (hu t (mem_of_getElem? hi) (on_of_uses ht))
  apply h.update hi rfl local_setThread hfits.own (.inr ht) (.inr ht')
  case hpins =>
    rw [on_of_uses ht, on_of_uses ht']
    rfl
  case hsettled => exact h.settled f
  case hheld => exact h.held_set hi ht hflushes
  case hbusy => exact .inl (on_of_uses ht')
  case hself =>
    intro _
    refine ⟨hproper, hfits.own, hloads.trans hfits.loads, ?_, hcurrent, ?_, ?_, ?_⟩
    · rw [hloads]
      exact hfits.stored
    · intro b hb
      exact ⟨(hcopied b hb).1, (hcopied b hb).2.imp_right fun hd => ⟨hd.1, hunsaved hd.2⟩⟩
    · intro hw
      exact (hwrote hw).imp_right fun hd => ⟨hd.1, hunsaved hd.2⟩
    rw [hdeletes]
    exact fun hd => huntouched (hfits.untouched hd)
  case hothers =>
    intro j u hne hj hu
    exact ⟨(h.fits j u hj p f hu).congr rfl rfl rfl rfl rfl rfl hunsaved huntouched, fun _ =>
      h.clashes_of_move hi ht hloads hflushes hgrants hne hj (on_of_uses hu)⟩
  case hkept =>
    constructor
    · exact (h.kept p).absent
    · intro g hg hloading hwrites
      obtain rfl : g = f := Option.some.inj (hg.symm.trans hfits.own)
      cases htw : t.writes with
      | false =>
        exact (h.kept p).resident g hg hloading (forall_on_set_self hi hwrites fun _ => htw)
      | true =>
        apply hrelease htw _ hloading
        exact hwrites t' (mem_set (lt_of_getElem? hi) t') (on_of_uses ht')
    intro g hg hloading hdirty hclean hquiet
    have hmem := mem_set (lt_of_getElem? hi) t'
    obtain rfl : g = f := Option.some.inj (hg.symm.trans hfits.own)
    refine (h.kept p).clean g hg hloading hdirty ?_ ?_
    · exact forall_on_set_self hi hclean fun _ =>
        htouched.symm.trans (hclean t' hmem (on_of_uses ht'))
    exact forall_on_set_self hi hquiet fun _ =>
      hflushes.symm.trans (hquiet t' hmem (on_of_uses ht'))
  case hhistory => exact h.history p

end Moves

end FluxDB.Shard
