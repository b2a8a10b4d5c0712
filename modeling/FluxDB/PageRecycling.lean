-- When an unlinked leaf may be used again. Vacuum parks the page with the horizon of that
-- moment, and a later sweep puts it into the free pool once its own horizon has passed the
-- stamp. The stamp is one number, and the snapshots in use have many.
import FluxDB.TransactionSystem

namespace FluxDB

open List

/-! ## The pages on their way to the free pool -/

/-- The number of page ids that the bitmap can track. -/
def FreeSpace.CAPACITY : Nat := (4096 - 32) * 8

/-- An unlinked leaf. `users` are the snapshots that were in use when it was unlinked; the
code does not store them. -/
structure UnlinkedPage where
  page_id : Nat
  users : List Holder
  deriving DecidableEq, Repr

/-- An entry of `pending_recycle`. -/
structure Parked where
  page : UnlinkedPage
  stamp : Nat
  deriving DecidableEq, Repr

/-- The sweep in progress, with the horizon it read first. `unlinked` has left the chain and
is not parked yet; `graduated` has left `pending_recycle` and is not in the free pool yet. -/
structure RecycleSweep where
  global_xmin : Nat
  unlinked : Option UnlinkedPage
  graduated : Option (List UnlinkedPage)
  deriving DecidableEq, Repr

structure Recycler where
  txns : Txns
  sweep : Option RecycleSweep
  pending_recycle : List Parked
  free_pool : List UnlinkedPage

inductive RecycleEvent
  | txn (e : TxnEvent)
  | sweep_start
  | unlink (page_id : Nat)
  | park
  | drain
  | extend_free_pool
  | sweep_end
  | new_page
  deriving DecidableEq, Repr

namespace Recycler

def new : Recycler where
  txns := .new
  sweep := none
  pending_recycle := []
  free_pool := []

/-- The snapshots in use. -/
def users (w : Recycler) : List Holder := w.txns.holders.filter fun h => decide (w.txns.Live h)

/-- The parked pages whose stamp the sweep's horizon has passed, without the ids that
`set_free` rejects. -/
def graduates (w : Recycler) (global_xmin : Nat) : List UnlinkedPage :=
  ((w.pending_recycle.filter fun p => decide (p.stamp < global_xmin)).map Parked.page).filter
    fun p => decide (p.page_id < FreeSpace.CAPACITY)

/-- One step. A sweep that stops early or fails ends where it is; one that has unlinked a
page and not parked it leaks the page, and so does one that has drained it. -/
def step (w : Recycler) : RecycleEvent → Option Recycler
  | .txn e => (w.txns.step e).map fun txns => { w with txns }
  | .sweep_start =>
    match w.sweep with
    | none => some { w with sweep := some { global_xmin := w.txns.tm.global_xmin,
                                            unlinked := none, graduated := none } }
    | some _ => none
  | .unlink page_id =>
    match w.sweep with
    | some ⟨g, none, none⟩ =>
      some { w with sweep := some ⟨g, some { page_id, users := w.users }, none⟩ }
    | _ => none
  -- the horizon is read again here, after the latches are dropped
  | .park =>
    match w.sweep with
    | some ⟨g, some page, none⟩ =>
      some { w with sweep := some ⟨g, none, none⟩
                    pending_recycle := w.pending_recycle ++
                      [{ page, stamp := w.txns.tm.global_xmin }] }
    | _ => none
  | .drain =>
    match w.sweep with
    | some ⟨g, none, none⟩ =>
      some { w with sweep := some ⟨g, none, some (w.graduates g)⟩
                    pending_recycle := w.pending_recycle.filter fun p => !decide (p.stamp < g) }
    | _ => none
  | .extend_free_pool =>
    match w.sweep with
    | some ⟨_, none, some pages⟩ =>
      some { w with sweep := none, free_pool := w.free_pool ++ pages }
    | _ => none
  | .sweep_end =>
    match w.sweep with
    | some _ => some { w with sweep := none }
    | none => none
  | .new_page =>
    match w.free_pool.getLast? with
    | some _ => some { w with free_pool := w.free_pool.dropLast }
    | none => none

/-! ## The condition and the invariant -/

/-- When a page is parked, the snapshots that were in use at its unlink and still are have
the oldest `xmin` of all. -/
def OldestOnly (w : Recycler) : RecycleEvent → Prop
  | .park =>
    match w.sweep with
    | some ⟨_, some page, none⟩ =>
      ∀ h ∈ page.users, w.txns.Live h → h.txn.snapshot.xmin ≤ w.txns.tm.global_xmin
    | _ => True
  | _ => True

instance (w : Recycler) (e : RecycleEvent) : Decidable (w.OldestOnly e) := by
  cases e <;> dsimp only [OldestOnly]
  case park => split <;> infer_instance
  all_goals infer_instance

/-- Nobody who was there when the page was unlinked still is. -/
def Drained (w : Recycler) (page : UnlinkedPage) : Prop := ∀ h ∈ page.users, ¬ w.txns.Live h

/-- The snapshots that the page waits for. -/
def Known (w : Recycler) (page : UnlinkedPage) : Prop := ∀ h ∈ page.users, h ∈ w.txns.holders

structure Good (w : Recycler) : Prop where
  txns : w.txns.Good
  horizon : ∀ s, w.sweep = some s → s.global_xmin ≤ w.txns.tm.global_xmin
  unlinked : ∀ s page, w.sweep = some s → s.unlinked = some page → w.Known page
  known : ∀ p ∈ w.pending_recycle, w.Known p.page
  stamp : ∀ p ∈ w.pending_recycle, ∀ h ∈ p.page.users, w.txns.Live h →
    h.txn.snapshot.xmin ≤ p.stamp
  graduated : ∀ s pages, w.sweep = some s → s.graduated = some pages → ∀ page ∈ pages,
    w.Known page ∧ w.Drained page
  free : ∀ page ∈ w.free_pool, w.Known page ∧ w.Drained page

theorem good_new : new.Good where
  txns := Txns.good_new
  horizon s h := by simp [new] at h
  unlinked s page h := by simp [new] at h
  known p h := by simp [new] at h
  stamp p h := by simp [new] at h
  graduated s pages h := by simp [new] at h
  free page h := by simp [new] at h

/-! ## Each step keeps the invariant -/

section Steps

variable {w : Recycler}

theorem mem_users {h : Holder} : h ∈ w.users ↔ h ∈ w.txns.holders ∧ w.txns.Live h := by
  simp [users]

/-- A step of the transactions takes users away from a page and adds none. -/
theorem good_txn {txns : Txns} {e : TxnEvent} (hg : w.Good) (h : w.txns.step e = some txns) :
    Good { w with txns } := by
  have hlater := Txns.later_step hg.txns h
  have hknown : ∀ {page}, w.Known page → Known { w with txns } page :=
    fun hk u hu => hlater.holders u (hk u hu)
  have hdrained : ∀ {page}, w.Known page ∧ w.Drained page → Known { w with txns } page ∧
      Drained { w with txns } page :=
    fun hp => ⟨hknown hp.1, fun u hu hl =>
      hp.2 u hu (Txns.live_of_live_step hg.txns h (hp.1 u hu) hl)⟩
  exact {
    txns := Txns.good_step hg.txns h
    horizon := fun s hs => (hg.horizon s hs).trans (Txns.global_xmin_le_step hg.txns h)
    unlinked := fun s page hs hp => hknown (hg.unlinked s page hs hp)
    known := fun p hp => hknown (hg.known p hp)
    stamp := fun p hp u hu hl => hg.stamp p hp u hu
      (Txns.live_of_live_step hg.txns h (hg.known p hp u hu) hl)
    graduated := fun s pages hs hp page hm => hdrained (hg.graduated s pages hs hp page hm)
    free := fun page hm => hdrained (hg.free page hm) }

/-- A page whose stamp lies behind the sweep's horizon has lost its users: each of them
would hold the horizon down. -/
theorem drained_of_stamp_lt {p : Parked} {g : Nat} (hg : w.Good)
    (hp : p ∈ w.pending_recycle) (hle : g ≤ w.txns.tm.global_xmin) (hlt : p.stamp < g) :
    w.Drained p.page := by
  intro h hu hl
  have hstamp := hg.stamp p hp h hu hl
  have hlive := Txns.global_xmin_le_of_live hg.txns (hg.known p hp h hu) hl
  omega

theorem good_drain {g : Nat} (hg : w.Good) (hs : w.sweep = some ⟨g, none, none⟩) :
    Good { w with sweep := some ⟨g, none, some (w.graduates g)⟩
                  pending_recycle := w.pending_recycle.filter fun p => !decide (p.stamp < g) } where
  __ := hg
  horizon s h := by cases h; exact (hg.horizon _ hs :)
  unlinked s page h hp := by cases h; simp at hp
  known p hp := hg.known p (mem_filter.mp hp).1
  stamp p hp := hg.stamp p (mem_filter.mp hp).1
  graduated s pages h hp page hm := by
    cases h
    cases hp
    obtain ⟨hm, _⟩ := mem_filter.mp hm
    obtain ⟨p, hp, rfl⟩ := mem_map.mp hm
    obtain ⟨hp, hlt⟩ := mem_filter.mp hp
    exact ⟨hg.known p hp,
      drained_of_stamp_lt (w := w) hg hp (hg.horizon _ hs) (of_decide_eq_true hlt)⟩

theorem good_park {g : Nat} {page : UnlinkedPage} (hg : w.Good)
    (hs : w.sweep = some ⟨g, some page, none⟩)
    (hok : ∀ h ∈ page.users, w.txns.Live h → h.txn.snapshot.xmin ≤ w.txns.tm.global_xmin) :
    Good { w with sweep := some ⟨g, none, none⟩
                  pending_recycle := w.pending_recycle ++
                    [{ page, stamp := w.txns.tm.global_xmin }] } where
  __ := hg
  horizon s h := by cases h; exact (hg.horizon _ hs :)
  unlinked s page h hp := by cases h; simp at hp
  known := Maps.forall_mem_concat hg.known (hg.unlinked _ page hs rfl)
  stamp := Maps.forall_mem_concat hg.stamp hok
  graduated s pages h hp := by cases h; simp at hp

theorem good_step {w' : Recycler} {e : RecycleEvent} (hg : w.Good) (hok : w.OldestOnly e)
    (h : w.step e = some w') : w'.Good := by
  cases e with
  | txn e =>
    obtain ⟨txns, ht, rfl⟩ := Option.map_eq_some_iff.mp h
    exact good_txn hg ht
  | sweep_start =>
    simp only [step] at h
    split at h
    · cases h
      exact ⟨hg.txns, fun s h => by cases h; exact le_rfl,
        fun s page h hp => by cases h; simp at hp,
        hg.known, hg.stamp, fun s pages h hp => by cases h; simp at hp, hg.free⟩
    · simp at h
  | unlink page_id =>
    simp only [step] at h
    split at h
    · next g hs =>
      cases h
      exact ⟨hg.txns, fun s h => by cases h; exact (hg.horizon _ hs :),
        fun s page h hp => by cases h; cases hp; exact fun u hu => (mem_users.mp hu).1,
        hg.known, hg.stamp, fun s pages h hp => by cases h; simp at hp, hg.free⟩
    · simp at h
  | park =>
    simp only [step] at h
    split at h
    · next g page hs =>
      cases h
      simp only [OldestOnly, hs] at hok
      exact good_park hg hs hok
    · simp at h
  | drain =>
    simp only [step] at h
    split at h
    · next g hs =>
      cases h
      exact good_drain hg hs
    · simp at h
  | extend_free_pool =>
    simp only [step] at h
    split at h
    · next g pages hs =>
      cases h
      refine ⟨hg.txns, fun s h => by simp at h, fun s page h => by simp at h, hg.known, hg.stamp,
        fun s pages h => by simp at h, ?_⟩
      exact forall_mem_append.mpr ⟨hg.free, hg.graduated _ pages hs rfl⟩
    · simp at h
  | sweep_end =>
    simp only [step] at h
    split at h
    · cases h
      exact ⟨hg.txns, fun s h => by simp at h, fun s page h => by simp at h, hg.known, hg.stamp,
        fun s pages h => by simp at h, hg.free⟩
    · simp at h
  | new_page =>
    simp only [step] at h
    split at h
    · cases h
      exact { hg with free := fun page hm => hg.free page (dropLast_subset _ hm) }
    · simp at h

end Steps

/-! ## Recycling waits for readers -/

/-- In every run whose parked pages have only users with the oldest `xmin`, a page in the
free pool has lost every transaction and every reader that was live when it was unlinked. -/
theorem a_recycled_page_has_lost_its_readers {w : Recycler} {p : List RecycleEvent}
    {u : UnlinkedPage} {h : Holder} (hrun : Runs.run step new p = some w)
    (hoks : Runs.Meets step OldestOnly new p) (hpage : u ∈ w.free_pool)
    (huser : h ∈ u.users) : ¬ w.txns.Live h := by
  have hg : w.Good :=
    Runs.inv_run_meets (fun _ _ _ hg hok hstep => good_step hg hok hstep) good_new hoks hrun
  exact (hg.free u hpage).2 h huser

/-- A reader is there when page 7 is unlinked, and it ends before the next sweep. -/
def unlinkBesideAReader : List RecycleEvent :=
  [.txn .begin, .txn (.begin_clog 1), .txn .read_snapshot, .sweep_start, .unlink 7, .park, .drain,
    .extend_free_pool, .txn (.end_read 0), .txn (.commit_clog 1), .txn (.commit_active 1),
    .sweep_start, .drain, .extend_free_pool]

theorem the_page_waits_for_the_reader :
    ∃ w h, Runs.run step new unlinkBesideAReader = some w ∧
      w.free_pool = [⟨7, [h, ⟨⟨1, ⟨1, 2, [1]⟩⟩, none⟩]⟩] ∧ ¬ w.txns.Live h := by
  refine ⟨_, ⟨⟨u64Max, ⟨1, 2, [1]⟩⟩, some 0⟩, rfl, rfl, ?_⟩
  exact a_recycled_page_has_lost_its_readers (p := unlinkBesideAReader)
    (u := ⟨7, [⟨⟨u64Max, ⟨1, 2, [1]⟩⟩, some 0⟩, ⟨⟨1, ⟨1, 2, [1]⟩⟩, none⟩]⟩) rfl (by decide)
    (by decide) (by decide)

/-- A reader with `xmin` 1 and a transaction with `xmin` 2 are there when page 7 is
unlinked. The reader ends, and the next sweep finds the stamp 1 below its horizon 2. -/
def unlinkBesideTwo : List RecycleEvent :=
  [.txn .begin, .txn (.begin_clog 1), .txn .read_snapshot, .txn (.commit_clog 1),
    .txn (.commit_active 1), .txn .begin, .txn (.begin_clog 2), .sweep_start, .unlink 7, .park,
    .drain, .extend_free_pool, .txn (.end_read 0), .sweep_start, .drain, .extend_free_pool]

/-- The transaction was there at the unlink, and it still is when the page is free. -/
theorem a_page_is_recycled_under_a_live_transaction :
    ∃ w page h, Runs.run step new unlinkBesideTwo = some w ∧ page ∈ w.free_pool ∧
      h ∈ page.users ∧ w.txns.Live h := by
  refine ⟨_, ⟨7, [⟨⟨2, ⟨2, 3, [2]⟩⟩, none⟩, ⟨⟨u64Max, ⟨1, 2, [1]⟩⟩, some 0⟩]⟩,
    ⟨⟨2, ⟨2, 3, [2]⟩⟩, none⟩, rfl, ?_, ?_, ?_⟩ <;> decide

end Recycler

end FluxDB
