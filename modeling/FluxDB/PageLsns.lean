-- Page LSNs under concurrent sections. A record is stamped on some pages only after it was
-- appended and their latch was taken; as long as no other record for such a page comes in
-- between, the LSNs of every page go up and cover the records applied to it.
import FluxDB.Lib.Maps
import FluxDB.Lib.Runs
import FluxDB.LatchedSections

namespace FluxDB

open List Function Maps

namespace Pages

/-! ## The condition on the steps -/

/-- No record is appended for a page that another section has still to latch and stamp with
an earlier record, and no section fails while a page it has built is not stamped yet. -/
def StampsInOrder (w : Pages) : PagesEvent → Prop
  | .act i =>
    match w.todo i with
    | .log ps :: _ =>
      ∀ p ∈ ps, ∀ j < w.tasks.length, j ≠ i → p ∈ owed (w.todo j) → w.holder p = some j
    | _ => True
  | .fail i =>
    match w.tasks[i]? with
    | some task => task.wiped = []
    | none => True
  | _ => True

instance decidableStampsInOrder (w : Pages) (e : PagesEvent) : Decidable (w.StampsInOrder e) := by
  cases e <;> dsimp only [StampsInOrder]
  case act i | fail i => split <;> infer_instance
  all_goals infer_instance

/-! ## What holds in every state of such a run -/

/-- A task is in order: what it holds is what the latches say, every page it holds and has
not wiped has an LSN as high as every stamp it ever got, and no page that it still has to
stamp carries a later stamp. -/
structure TaskGood (w : Pages) (i : Nat) (t : Task) : Prop where
  fine : ∃ held, Fine held t.wiped t.pinned t.todo ∧ held ⊆ t.pinned ∧
    ∀ p, w.holder p = some i ↔ p ∈ held
  stamped : ∀ p, w.holder p = some i → p ∉ t.wiped → ∀ l ∈ w.stamped p, l ≤ w.lsn p
  lsn : t.lsn < w.next_lsn
  owed : ∀ p ∈ owed t.todo, ∀ l ∈ w.stamped p, l ≤ t.lsn
  wrote : t.wrote ⊆ t.pinned
  nodup : t.pinned.Nodup

/-- Of two tasks that have to stamp one page, the one with the earlier record holds it. -/
def PairGood (w : Pages) (i j : Nat) (t u : Task) : Prop :=
  ∀ p ∈ FluxDB.owed t.todo, p ∈ FluxDB.owed u.todo →
    (w.holder p = some i ∧ t.lsn < u.lsn) ∨ (w.holder p = some j ∧ u.lsn < t.lsn)

structure Good (w : Pages) : Prop where
  tasks : ∀ i t, w.tasks[i]? = some t → w.TaskGood i t
  pairs : ∀ i j t u, i ≠ j → w.tasks[i]? = some t → w.tasks[j]? = some u → w.PairGood i j t u
  below : ∀ p, ∀ l ∈ w.stamped p, l < w.next_lsn
  sorted : ∀ p, (w.stamped p).Pairwise (· ≥ ·)
  free : ∀ p, w.holder p = none → ∀ l ∈ w.stamped p, l ≤ w.lsn p
  holder : ∀ p i, w.holder p = some i → i < w.tasks.length
  pos : 0 < w.next_lsn

/-- What an action of task `i` leaves to the other tasks. -/
structure Frame (w w' : Pages) (i : Nat) (t : Task) : Prop where
  next : w.next_lsn ≤ w'.next_lsn
  holder : ∀ p j, j ≠ i → (w'.holder p = some j ↔ w.holder p = some j)
  kept : ∀ p j, j ≠ i → w.holder p = some j → w'.lsn p = w.lsn p
  stamped : ∀ p, ∀ l ∈ w'.stamped p,
    l ∈ w.stamped p ∨ (l = t.lsn ∧ w.holder p = some i ∧ p ∈ FluxDB.owed t.todo)

theorem PairGood.symm {w : Pages} {i j : Nat} {t u : Task} (h : w.PairGood i j t u) :
    w.PairGood j i u t := fun p hu ht => (h p ht hu).symm

theorem Frame.pairGood {w w' : Pages} {i j k : Nat} {t u v : Task} (hf : Frame w w' i t)
    (hj : j ≠ i) (hk : k ≠ i) (h : w.PairGood j k u v) : w'.PairGood j k u v := by
  intro p hu hv
  rw [hf.holder p j hj, hf.holder p k hk]
  exact h p hu hv

theorem Frame.taskGood {w w' : Pages} {i j : Nat} {t u : Task} (hf : Frame w w' i t)
    (hg : w.Good) (ht : w.tasks[i]? = some t) (hj : j ≠ i) (hu : w.tasks[j]? = some u) :
    w'.TaskGood j u := by
  have hold := hg.tasks j u hu
  refine ⟨?_, ?_, lt_of_lt_of_le hold.lsn hf.next, ?_, hold.wrote, hold.nodup⟩
  · obtain ⟨held, hfine, hsub, hheld⟩ := hold.fine
    exact ⟨held, hfine, hsub, fun p => (hf.holder p j hj).trans (hheld p)⟩
  · intro p hp hw l hl
    have hp' := (hf.holder p j hj).mp hp
    rw [hf.kept p j hj hp']
    rcases hf.stamped p l hl with hl | ⟨_, hi, _⟩
    · exact hold.stamped p hp' hw l hl
    · exact absurd (Option.some.inj (hp'.symm.trans hi)) hj
  intro p hp l hl
  rcases hf.stamped p l hl with hl | ⟨rfl, hi, howed⟩
  · exact hold.owed p hp l hl
  -- both tasks have to stamp `p`, and `i` holds it, so its record is the earlier one
  rcases hg.pairs i j t u (Ne.symm hj) ht hu p howed hp with h | h
  · omega
  · exact absurd (Option.some.inj (h.1.symm.trans hi)) hj

/-- An action keeps the invariant when it keeps it for its own task and for the pages. -/
theorem Frame.good {w w' : Pages} {i : Nat} {t t' : Task} (hf : Frame w w' i t) (hg : w.Good)
    (ht : w.tasks[i]? = some t) (htasks : w'.tasks = w.tasks.set i t') (hme : w'.TaskGood i t')
    (hpairs : ∀ j u, j ≠ i → w.tasks[j]? = some u → w'.PairGood i j t' u)
    (hbelow : ∀ p, ∀ l ∈ w'.stamped p, l < w'.next_lsn)
    (hsorted : ∀ p, (w'.stamped p).Pairwise (· ≥ ·))
    (hfree : ∀ p, w'.holder p = none → ∀ l ∈ w'.stamped p, l ≤ w'.lsn p) : w'.Good := by
  have hget (j : Nat) : w'.tasks[j]? = if j = i then some t' else w.tasks[j]? := by
    rw [htasks]
    exact getElem?_set_eq_ite ht t' j
  have hlen : w'.tasks.length = w.tasks.length := by rw [htasks, length_set]
  refine ⟨?_, ?_, hbelow, hsorted, hfree, ?_, lt_of_lt_of_le hg.pos hf.next⟩
  · intro j u hu
    rw [hget] at hu
    split at hu
    · subst_vars; cases hu; exact hme
    · exact hf.taskGood hg ht ‹_› hu
  · intro j k u v hjk hu hv
    rw [hget] at hu hv
    split at hu <;> split at hv
    · omega
    · subst_vars; cases hu; exact hpairs k v ‹_› hv
    · subst_vars; cases hv; exact (hpairs j u ‹_› hu).symm
    · exact hf.pairGood ‹_› ‹_› (hg.pairs j k u v hjk hu hv)
  intro p j hp
  rw [hlen]
  by_cases hj : j = i
  · subst hj; exact lt_of_getElem? ht
  · exact hg.holder p j ((hf.holder p j hj).mp hp)

/-- An action that neither appends nor stamps. -/
theorem Good.set {w : Pages} {i : Nat} {t t' : Task} {holder : Nat → Option Nat} {lsn : Nat → Nat}
    (hg : w.Good) (ht : w.tasks[i]? = some t)
    (hholder : ∀ p j, j ≠ i → (holder p = some j ↔ w.holder p = some j))
    (hkept : ∀ p j, j ≠ i → w.holder p = some j → lsn p = w.lsn p) (hlsn : t'.lsn = t.lsn)
    (howed : ∀ p ∈ FluxDB.owed t'.todo, p ∈ FluxDB.owed t.todo ∧
      (w.holder p = some i → holder p = some i))
    (hfine : ∃ held, Fine held t'.wiped t'.pinned t'.todo ∧ held ⊆ t'.pinned ∧
      ∀ p, holder p = some i ↔ p ∈ held)
    (hmine : ∀ p, holder p = some i → p ∉ t'.wiped → ∀ l ∈ w.stamped p, l ≤ lsn p)
    (hfree : ∀ p, holder p = none → ∀ l ∈ w.stamped p, l ≤ lsn p) (hwrote : t'.wrote ⊆ t'.pinned)
    (hnodup : t'.pinned.Nodup) : Good { w with holder, lsn, tasks := w.tasks.set i t' } := by
  have hold := hg.tasks i t ht
  refine Frame.good (w := w) (t := t) ⟨le_rfl, hholder, hkept, fun _ _ hl => .inl hl⟩ hg ht rfl
    ?_ ?_ hg.below hg.sorted hfree
  · refine ⟨hfine, hmine, by rw [hlsn]; exact hold.lsn, fun p hp => ?_, hwrote, hnodup⟩
    rw [hlsn]
    exact hold.owed p (howed p hp).1
  intro j u hj hu p hp hpu
  rw [hlsn]
  rcases hg.pairs i j t u (Ne.symm hj) ht hu p (howed p hp).1 hpu with h | h
  · exact .inl ⟨(howed p hp).2 h.1, h.2⟩
  · exact .inr ⟨(hholder p j hj).mpr h.1, h.2⟩

section Actions

variable {w w' : Pages} {i p : Nat} {t : Task} {rest : List Action}

theorem granted_iff_of_ne (hnone : w.holder p = none) (q : Nat) {j : Nat} (hj : j ≠ i) :
    update w.holder p (some i) q = some j ↔ w.holder q = some j := by
  by_cases hq : q = p
  · subst hq; simp [hnone, Ne.symm hj]
  · simp [update_of_ne hq]

/-- What a task holds and has to do after it was granted the latch of a free page. -/
theorem TaskGood.granted {wiped : List Nat} (hold : w.TaskGood i t) (rest : List Action)
    (hnone : w.holder p = none)
    (hrest : ∀ held, Fine held t.wiped t.pinned t.todo → p ∈ held ∨
      (p ∉ t.pinned ∧ Fine (p :: held) wiped (p :: t.pinned) rest)) :
    (∃ held, Fine held wiped (p :: t.pinned) rest ∧ held ⊆ p :: t.pinned ∧
      ∀ q, update w.holder p (some i) q = some i ↔ q ∈ held) ∧
    (p :: t.pinned).Nodup := by
  obtain ⟨held, hfine, hsub, hheld⟩ := hold.fine
  rcases hrest held hfine with hp | ⟨hp, hfine⟩
  · rw [(hheld p).mpr hp] at hnone; cases hnone
  refine ⟨⟨p :: held, hfine, cons_subset_cons _ hsub, fun q => ?_⟩, nodup_cons.mpr ⟨hp, hold.nodup⟩⟩
  by_cases hq : q = p
  · subst hq; simp
  · simp [hq, hheld q]

theorem owed_drops (w : Pages) (i : Nat) (t : Task) : owed (w.drops i t) = [] := by
  unfold drops
  induction t.pinned with
  | nil => rfl
  | cons p ps ih =>
    rw [flatMap_cons]
    split <;> simpa [dropGuard, owed] using ih

/-- Dropping the live guards one after the other is in order when no page is wiped. -/
theorem fine_drops (w : Pages) (i : Nat) {ps held : List Nat} (hnodup : ps.Nodup)
    (hsub : held ⊆ ps) (hheld : ∀ p ∈ ps, w.holder p = some i ↔ p ∈ held) :
    Fine held [] ps
      (ps.flatMap fun p => if w.holder p = some i then dropGuard p else [.unpin p]) := by
  induction ps generalizing held with
  | nil => simpa [Fine] using hsub
  | cons p ps ih =>
    obtain ⟨hp, hnodup⟩ := nodup_cons.mp hnodup
    have howed :
        owed (ps.flatMap fun p => if w.holder p = some i then dropGuard p else [.unpin p]) = [] :=
      owed_drops w i { todo := [], lsn := 0, wiped := [], wrote := [], pinned := ps }
    rw [flatMap_cons]
    by_cases hi : w.holder p = some i
    · have hguard : dropGuard p = [.unlatch p, .unpin p] := rfl
      rw [if_pos hi, hguard]
      simp only [cons_append, nil_append, Fine, owed, howed, filter_cons_of_notMem hp]
      refine ⟨(hheld p mem_cons_self).mp hi, by simp, by simp, by simp, by simp, ih hnodup ?_ ?_⟩
      · intro q hq
        rw [mem_filter] at hq
        exact (mem_cons.mp (hsub hq.1)).resolve_left (by simpa using hq.2)
      intro q hq
      have hqp : q ≠ p := by rintro rfl; exact hp hq
      simp [hqp, hheld q (mem_cons_of_mem _ hq)]
    have hnot : p ∉ held := fun h => hi ((hheld p mem_cons_self).mpr h)
    rw [if_neg hi]
    simp only [cons_append, nil_append, Fine, filter_cons_of_notMem hp]
    refine ⟨mem_cons_self, hnot, ih hnodup ?_ fun q hq => hheld q (mem_cons_of_mem _ hq)⟩
    intro q hq
    exact (mem_cons.mp (hsub hq)).resolve_left (by rintro rfl; exact hnot hq)

variable (hg : w.Good) (ht : w.tasks[i]? = some t)
include hg ht

theorem good_latch (htodo : t.todo = .latch p :: rest)
    (h : w.exec i { t with todo := rest } (.latch p) = some w') : w'.Good := by
  obtain ⟨hnone, ⟨⟩⟩ := Option.ite_none_right_eq_some.mp h
  have hold := hg.tasks i t ht
  obtain ⟨hfine, hnodup⟩ := hold.granted (p := p) rest hnone
    fun held hf => by rw [htodo] at hf; exact hf
  refine hg.set ht (fun q j hj => granted_iff_of_ne hnone q hj) (fun _ _ _ _ => rfl) rfl ?_ hfine
    ?_ ?_ (subset_cons_of_subset _ hold.wrote) hnodup
  · intro q hq
    refine ⟨by rw [htodo]; exact hq, fun hi => ?_⟩
    have hqp : q ≠ p := by rintro rfl; rw [hnone] at hi; cases hi
    simpa [update_of_ne hqp] using hi
  · intro q hq hw
    by_cases hqp : q = p
    · subst hqp; exact hg.free q hnone
    · exact hold.stamped q (by simpa [update_of_ne hqp] using hq) hw
  intro q hq
  by_cases hqp : q = p
  · subst hqp; simp at hq
  · exact hg.free q (by simpa [update_of_ne hqp] using hq)

theorem good_new (htodo : t.todo = .new p :: rest)
    (h : w.exec i { t with todo := rest } (.new p) = some w') : w'.Good := by
  obtain ⟨hnone, ⟨⟩⟩ := Option.ite_none_right_eq_some.mp h
  have hold := hg.tasks i t ht
  obtain ⟨hfine, hnodup⟩ := hold.granted (p := p) rest hnone
    fun held hf => by rw [htodo] at hf; exact hf
  have hne {q j : Nat} (hq : w.holder q = some j) : q ≠ p := by
    rintro rfl; rw [hnone] at hq; cases hq
  refine hg.set ht (fun q j hj => granted_iff_of_ne hnone q hj)
    (fun q j _ hq => update_of_ne (hne hq) _ _) rfl ?_ hfine ?_ ?_
    (subset_cons_of_subset _ hold.wrote) hnodup
  · intro q hq
    refine ⟨by rw [htodo]; exact hq, fun hi => ?_⟩
    simpa [update_of_ne (hne hi)] using hi
  · intro q hq hw
    rw [mem_cons, not_or] at hw
    simp only [update_of_ne hw.1] at hq ⊢
    exact hold.stamped q hq hw.2
  intro q hq
  by_cases hqp : q = p
  · subst hqp; simp at hq
  simp only [update_of_ne hqp] at hq ⊢
  exact hg.free q hq

theorem good_rebuild (htodo : t.todo = .rebuild p :: rest)
    (h : w.exec i { t with todo := rest } (.rebuild p) = some w') : w'.Good := by
  cases h
  have hold := hg.tasks i t ht
  obtain ⟨held, hfine, hsub, hheld⟩ := hold.fine
  rw [htodo] at hfine
  have hhold : w.holder p = some i := (hheld p).mpr hfine.1
  refine hg.set ht (fun _ _ _ => .rfl) ?_ rfl (fun q hq => ⟨by rw [htodo]; exact hq, id⟩)
    ⟨held, hfine.2, hsub, hheld⟩ ?_ ?_ (cons_subset.mpr ⟨hsub hfine.1, hold.wrote⟩) hold.nodup
  · intro q j hj hq
    have hqp : q ≠ p := by rintro rfl; exact hj (Option.some.inj (hq.symm.trans hhold))
    exact update_of_ne hqp _ _
  · intro q hq hw
    rw [mem_cons, not_or] at hw
    simp only [update_of_ne hw.1]
    exact hold.stamped q hq hw.2
  intro q hq
  have hqp : q ≠ p := by rintro rfl; rw [hhold] at hq; cases hq
  simp only [update_of_ne hqp]
  exact hg.free q hq

theorem good_touch (htodo : t.todo = .touch p :: rest)
    (h : w.exec i { t with todo := rest } (.touch p) = some w') : w'.Good := by
  cases h
  have hold := hg.tasks i t ht
  obtain ⟨held, hfine, hsub, hheld⟩ := hold.fine
  rw [htodo] at hfine
  exact hg.set ht (fun _ _ _ => .rfl) (fun _ _ _ _ => rfl) rfl
    (fun q hq => ⟨by rw [htodo]; exact hq, id⟩) ⟨held, hfine.2, hsub, hheld⟩ hold.stamped hg.free
    (cons_subset.mpr ⟨hsub hfine.1, hold.wrote⟩) hold.nodup

theorem good_unlatch (htodo : t.todo = .unlatch p :: rest)
    (h : w.exec i { t with todo := rest } (.unlatch p) = some w') : w'.Good := by
  cases h
  have hold := hg.tasks i t ht
  obtain ⟨held, hfine, hsub, hheld⟩ := hold.fine
  rw [htodo] at hfine
  obtain ⟨hp, hwiped, howed, hfine⟩ := hfine
  have hhold : w.holder p = some i := (hheld p).mpr hp
  refine hg.set ht ?_ (fun _ _ _ _ => rfl) rfl ?_
    ⟨held.filter (· ≠ p), hfine, fun q hq => hsub (mem_of_mem_filter hq), ?_⟩ ?_ ?_
    hold.wrote hold.nodup
  · intro q j hj
    by_cases hq : q = p
    · subst hq; simp [hhold, Ne.symm hj]
    · simp [update_of_ne hq]
  · intro q hq
    have hqp : q ≠ p := by rintro rfl; exact howed hq
    refine ⟨by rw [htodo]; exact hq, fun hi => ?_⟩
    simpa [update_of_ne hqp] using hi
  · intro q
    by_cases hq : q = p
    · subst hq; simp
    · simp [hq, hheld q]
  · intro q hq hw
    have hqp : q ≠ p := by rintro rfl; simp at hq
    exact hold.stamped q (by simpa [update_of_ne hqp] using hq) hw
  intro q hq
  by_cases hqp : q = p
  · subst hqp; exact hold.stamped q hhold hwiped
  · exact hg.free q (by simpa [update_of_ne hqp] using hq)

theorem good_unpin (htodo : t.todo = .unpin p :: rest)
    (h : w.exec i { t with todo := rest } (.unpin p) = some w') : w'.Good := by
  cases h
  have hold := hg.tasks i t ht
  obtain ⟨held, hfine, hsub, hheld⟩ := hold.fine
  rw [htodo] at hfine
  obtain ⟨_, hnot, hfine⟩ := hfine
  have hfilter {l : List Nat} (hl : l ⊆ t.pinned) (q : Nat) (hq : q ∈ l) (hqp : q ≠ p) :
      q ∈ t.pinned.filter (· ≠ p) := mem_filter.mpr ⟨hl hq, by simpa using hqp⟩
  refine hg.set ht (fun _ _ _ => .rfl) (fun _ _ _ _ => rfl) rfl
    (fun q hq => ⟨by rw [htodo]; exact hq, id⟩) ⟨held, hfine, ?_, hheld⟩ hold.stamped hg.free ?_
    (hold.nodup.filter _)
  · intro q hq
    exact hfilter hsub q hq (by rintro rfl; exact hnot hq)
  intro q hq
  rw [mem_filter] at hq
  exact hfilter hold.wrote q hq.1 (by simpa using hq.2)

theorem good_log {ps : List Nat} (htodo : t.todo = .log ps :: rest) (hok : w.StampsInOrder (.act i))
    (h : w.exec i { t with todo := rest } (.log ps) = some w') : w'.Good := by
  cases h
  have hold := hg.tasks i t ht
  obtain ⟨held, hfine, hsub, hheld⟩ := hold.fine
  rw [htodo] at hfine
  refine Frame.good (w := w) (t := t)
    ⟨Nat.le_succ _, fun _ _ _ => .rfl, fun _ _ _ _ => rfl, fun _ _ hl => .inl hl⟩
    hg ht rfl ?_ ?_ ?_ ?_ ?_
  · exact ⟨⟨held, hfine.2, hsub, hheld⟩, hold.stamped, Nat.lt_succ_self _,
      fun q _ l hl => (hg.below q l hl).le, hold.wrote, hold.nodup⟩
  · intro j u hj hu q hq hqu
    have htodoi : w.todo i = .log ps :: rest := by simp [todo, ht, htodo]
    have htodoj : w.todo j = u.todo := by simp [todo, hu]
    simp only [StampsInOrder, htodoi] at hok
    have hlt : j < w.tasks.length := lt_of_getElem? hu
    exact .inr ⟨hok q ((hfine.1 q).mpr hq) j hlt hj (by rw [htodoj]; exact hqu),
      (hg.tasks j u hu).lsn⟩
  · exact fun q l hl => Nat.lt_succ_of_lt (hg.below q l hl)
  · exact hg.sorted
  · exact hg.free

theorem good_stamp (htodo : t.todo = .stamp p :: rest)
    (h : w.exec i { t with todo := rest } (.stamp p) = some w') : w'.Good := by
  cases h
  have hold := hg.tasks i t ht
  obtain ⟨held, hfine, hsub, hheld⟩ := hold.fine
  rw [htodo] at hfine
  have hhold : w.holder p = some i := (hheld p).mpr hfine.1
  have howed : p ∈ owed t.todo := by simp [htodo, owed]
  have hle : ∀ l ∈ w.stamped p, l ≤ t.lsn := hold.owed p howed
  have hmem {q l : Nat} (hl : l ∈ update w.stamped p (t.lsn :: w.stamped p) q) :
      l ∈ w.stamped q ∨ (l = t.lsn ∧ q = p) := by
    by_cases hq : q = p
    · subst hq
      simp only [update_self, mem_cons] at hl
      exact hl.symm.imp id fun h => ⟨h, rfl⟩
    · exact .inl (by simpa [update_of_ne hq] using hl)
  have hne {q : Nat} (hq : w.holder q ≠ some i) : q ≠ p := by rintro rfl; exact hq hhold
  refine Frame.good (w := w) (t := t) ⟨le_rfl, fun _ _ _ => .rfl, ?_, ?_⟩ hg ht rfl
    ?_ ?_ ?_ ?_ ?_
  · intro q j hj hq
    exact update_of_ne (hne (by rw [hq]; simpa using hj)) _ _
  · intro q l hl
    exact (hmem hl).imp id fun ⟨hlsn, hqp⟩ => by subst hqp; exact ⟨hlsn, hhold, howed⟩
  · refine ⟨⟨held, hfine.2, hsub, hheld⟩, ?_, hold.lsn, ?_,
      cons_subset.mpr ⟨hsub hfine.1, hold.wrote⟩, hold.nodup⟩
    · intro q hq hw
      by_cases hqp : q = p
      · subst hqp
        simp only [update_self, mem_cons]
        rintro l (rfl | hl)
        · exact le_rfl
        · exact hle l hl
      simp only [update_of_ne hqp]
      exact hold.stamped q hq fun hmem => hw (mem_filter.mpr ⟨hmem, by simpa using hqp⟩)
    intro q hq l hl
    rcases hmem hl with hl | ⟨rfl, rfl⟩
    · exact hold.owed q (by rw [htodo]; exact mem_cons_of_mem _ hq) l hl
    · exact le_rfl
  · intro j u hj hu q hq hqu
    exact hg.pairs i j t u (Ne.symm hj) ht hu q (by rw [htodo]; exact mem_cons_of_mem _ hq) hqu
  · intro q l hl
    rcases hmem hl with hl | ⟨rfl, rfl⟩
    · exact hg.below q l hl
    · exact hold.lsn
  · intro q
    by_cases hq : q = p
    · subst hq
      simp only [update_self]
      exact pairwise_cons.mpr ⟨hle, hg.sorted q⟩
    · simpa [update_of_ne hq] using hg.sorted q
  intro q hq
  have hqp : q ≠ p := hne (by rw [hq]; simp)
  simpa [update_of_ne hqp] using hg.free q hq

theorem good_exec {a : Action} (htodo : t.todo = a :: rest) (hok : w.StampsInOrder (.act i))
    (h : w.exec i { t with todo := rest } a = some w') : w'.Good := by
  cases a with
  | latch p => exact good_latch hg ht htodo h
  | new p => exact good_new hg ht htodo h
  | rebuild p => exact good_rebuild hg ht htodo h
  | touch p => exact good_touch hg ht htodo h
  | log ps => exact good_log hg ht htodo hok h
  | stamp p => exact good_stamp hg ht htodo h
  | unlatch p => exact good_unlatch hg ht htodo h
  | unpin p => exact good_unpin hg ht htodo h

theorem good_fail (hok : t.wiped = []) :
    Good { w with tasks := w.tasks.set i { t with todo := w.drops i t } } := by
  have hold := hg.tasks i t ht
  obtain ⟨held, _, hsub, hheld⟩ := hold.fine
  refine hg.set ht (fun _ _ _ => .rfl) (fun _ _ _ _ => rfl) rfl ?_ ⟨held, ?_, hsub, hheld⟩
    hold.stamped hg.free hold.wrote hold.nodup
  · simp [owed_drops]
  simp only [hok]
  exact fine_drops w i hold.nodup hsub fun p _ => hheld p

end Actions

theorem good_start {w : Pages} (hg : w.Good) (s : Section) :
    Good { w with tasks := w.tasks ++ [Task.start s] } := by
  have hnoOwed (q : Nat) : q ∉ owed (Task.start s).todo :=
    eq_nil_iff_forall_not_mem.mp (owed_actions s) q
  refine ⟨?_, ?_, hg.below, hg.sorted, hg.free, ?_, hg.pos⟩
  · intro j u hu
    rcases getElem?_concat_cases hu with hu | ⟨rfl, rfl⟩
    · have hold := hg.tasks j u hu
      exact { hold with }
    have hnot (q : Nat) : w.holder q ≠ some w.tasks.length :=
      fun h => absurd (hg.holder q _ h) (lt_irrefl _)
    exact ⟨⟨[], fine_actions s, List.Subset.refl _, fun q => by simp [hnot q]⟩,
      fun q hq => absurd hq (hnot q), hg.pos, fun q hq => absurd hq (hnoOwed q),
      List.Subset.refl _, nodup_nil⟩
  · intro j k u v hjk hu hv q hqu hqv
    rcases getElem?_concat_cases hu with hu | ⟨_, rfl⟩
    · rcases getElem?_concat_cases hv with hv | ⟨_, rfl⟩
      · exact hg.pairs j k u v hjk hu hv q hqu hqv
      · exact absurd hqv (hnoOwed q)
    · exact absurd hqu (hnoOwed q)
  intro q j hq
  simp only [length_append, length_singleton]
  have := hg.holder q j hq
  omega

theorem good_log_other {w : Pages} (hg : w.Good) :
    Good { w with next_lsn := w.next_lsn + 1, log := (w.next_lsn, []) :: w.log } := by
  refine ⟨fun i t ht => ?_, hg.pairs, fun p l hl => Nat.lt_succ_of_lt (hg.below p l hl), hg.sorted,
    hg.free, hg.holder, Nat.succ_pos _⟩
  have hold := hg.tasks i t ht
  exact { hold with lsn := Nat.lt_succ_of_lt hold.lsn }

theorem good_init : Good new where
  tasks := by simp [new]
  pairs := by simp [new]
  below := by simp [new]
  sorted := by simp [new]
  free := by simp [new]
  holder := by simp [new]
  pos := by simp [new]

theorem step_act {w w' : Pages} {i : Nat} (h : w.step (.act i) = some w') :
    ∃ t a rest, w.tasks[i]? = some t ∧ t.todo = a :: rest ∧
      w.exec i { t with todo := rest } a = some w' := by
  simp only [step] at h
  split at h
  · rename_i t ht
    split at h
    · rename_i a rest htodo
      exact ⟨t, a, rest, ht, htodo, h⟩
    · cases h
  · cases h

theorem good_step {w w' : Pages} {e : PagesEvent} (hg : w.Good) (hok : w.StampsInOrder e)
    (h : w.step e = some w') : w'.Good := by
  cases e with
  | start s => cases h; exact good_start hg s
  | log_other => cases h; exact good_log_other hg
  | act i =>
    obtain ⟨t, a, rest, ht, htodo, hexec⟩ := step_act h
    exact good_exec hg ht htodo hok hexec
  | fail i =>
    simp only [step] at h
    split at h
    · rename_i t ht
      cases h
      simp only [StampsInOrder, ht] at hok
      exact good_fail hg ht hok
    · cases h

/-! ## Page LSNs -/

/-- A page that its latch holder has built and not stamped yet: its header is fresh, and
nobody else can read it. -/
def BeingBuilt (w : Pages) (p : Nat) : Prop :=
  ∃ i t, w.tasks[i]? = some t ∧ w.holder p = some i ∧ p ∈ t.wiped

theorem Good.stamped_le {w : Pages} (hg : w.Good) {p : Nat} (h : ¬ w.BeingBuilt p) :
    ∀ l ∈ w.stamped p, l ≤ w.lsn p := by
  cases hp : w.holder p with
  | none => exact hg.free p hp
  | some i =>
    obtain ⟨t, ht⟩ : ∃ t, w.tasks[i]? = some t := ⟨_, getElem?_eq_getElem (hg.holder p i hp)⟩
    exact (hg.tasks i t ht).stamped p hp fun hw => h ⟨i, t, ht, hp, hw⟩

/-- In every run where records on a page are appended only after the late stamps of earlier
ones, the LSNs stamped on a page never decrease, and a page's LSN is at least that of every
record stamped on it. -/
theorem page_lsns_never_go_back {e : List PagesEvent} {w : Pages}
    (hm : Runs.Meets step StampsInOrder new e) (hrun : Runs.run step new e = some w) (p : Nat) :
    (w.stamped p).Pairwise (· ≥ ·) ∧ (¬ w.BeingBuilt p → ∀ l ∈ w.stamped p, l ≤ w.lsn p) := by
  have hg : w.Good :=
    Runs.inv_run_meets (fun _ _ _ hg hok h => good_step hg hok h) good_init hm hrun
  exact ⟨hg.sorted p, hg.stamped_le⟩

/-- A leaf is split and a writer of the left half runs between the split and its downlink. -/
theorem a_split_and_its_downlink_keep_the_order :
    let e := [.start (.split_leaf_ly 1 [] 0 ⟨2, none⟩ none 1), .start (.write 1 [] 1),
      .start (.insert_downlink 5 1)] ++ List.replicate 12 (.act 0) ++ List.replicate 5 (.act 1) ++
      List.replicate 9 (.act 2)
    ∃ w, Runs.Meets step StampsInOrder new e ∧ Runs.run step new e = some w ∧
      w.stamped 1 = [4, 3, 2, 1] ∧ (w.stamped 1).Pairwise (· ≥ ·) ∧
      (¬ w.BeingBuilt 1 → ∀ l ∈ w.stamped 1, l ≤ w.lsn 1) := by
  intro e
  have hm : Runs.Meets step StampsInOrder new e := by decide +kernel
  exact ⟨_, hm, rfl, rfl, page_lsns_never_go_back hm rfl 1⟩

/-- After a split of page 1, a writer logs and stamps it between the record of the downlink
and the stamp of that record on page 1, the child. -/
theorem a_late_stamp_lowers_a_page_lsn :
    ∃ w, Runs.run step new ([.start (.split_leaf_ly 1 [] 0 ⟨2, none⟩ none 1),
          .start (.insert_downlink 5 1), .start (.write 1 [] 1)] ++ List.replicate 12 (.act 0) ++
        List.replicate 3 (.act 1) ++ List.replicate 5 (.act 2) ++ List.replicate 6 (.act 1)) =
      some w ∧ w.stamped 1 = [3, 4, 2, 1] ∧ ¬ (w.stamped 1).Pairwise (· ≥ ·) ∧ ¬ w.BeingBuilt 1 ∧
      4 ∈ w.stamped 1 ∧ w.lsn 1 < 4 := by
  refine ⟨_, rfl, rfl, by decide, ?_, by decide, by decide⟩
  rintro ⟨i, t, _, hh, _⟩
  cases hh

end Pages

end FluxDB
