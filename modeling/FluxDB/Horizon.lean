-- The horizon of the transaction manager. Every call is cut where it takes or drops a lock
-- and where it reads or writes shared state, so that the calls of any number of threads may
-- interleave; `global_xmin` never goes back, and no snapshot is older than a result of it.
import FluxDB.TransactionManager
import FluxDB.Lib.Runs

namespace FluxDB.Horizon

open Maps List AList

/-! ## Calls and locks -/

/-- Where a thread is in its call. -/
inductive Call
  | begin
  /-- has the write lock of `active_txns` -/
  | begin_locked
  | begin_id (txn_id : Nat)
  | begin_inserted (txn_id : Nat)
  /-- the lock is dropped, the CLOG entry is next -/
  | begin_clog (txn_id : Nat)
  | read_snapshot
  /-- has the read lock of `active_txns` -/
  | read_locked
  | read_taken (xmin : Nat)
  | read_token (xmin token : Nat)
  | read_published
  | end_read (token : Nat)
  | mark (txn_id : Nat) (status : TransactionStatus)
  /-- the CLOG entry is written, the active set is next -/
  | mark_active (txn_id : Nat)
  | global_xmin
  /-- has the read lock of `active_txns` -/
  | global_active
  /-- has the read locks of `active_txns` and of `readers` -/
  | global_both
  | global_returns
  | done
  deriving DecidableEq, Repr

namespace Call

/-- The call holds the write lock of `active_txns`. -/
def writesActive : Call → Bool
  | begin_locked | begin_id _ | begin_inserted _ => true
  | _ => false

/-- The call holds the read lock of `active_txns`. -/
def readsActive : Call → Bool
  | read_locked | read_taken _ | read_token .. | read_published | global_active | global_both
  | global_returns => true
  | _ => false

/-- The call holds the read lock of `readers`. -/
def readsReaders : Call → Bool
  | global_both | global_returns => true
  | _ => false

/-- The snapshot of a reader that is taken and not registered yet. -/
def taken? : Call → Option Nat
  | read_taken xmin | read_token xmin _ => some xmin
  | _ => none

end Call

/-- The manager with the calls of its threads. `results` are the results of `global_xmin`,
the last one first. -/
structure World where
  tm : TransactionManager
  calls : List Call
  results : List Nat

inductive Event
  | begin
  | read_snapshot
  | end_read (token : Nat)
  | mark_committed (txn_id : Nat)
  | mark_aborted (txn_id : Nat)
  | global_xmin
  | run (i : Nat)
  deriving DecidableEq, Repr

namespace World

def new : World where
  tm := .new
  calls := []
  results := []

def call (w : World) (c : Call) : World := { w with calls := w.calls ++ [c] }

def setCall (w : World) (i : Nat) (c : Call) : World := { w with calls := w.calls.set i c }

/-- Nobody holds the write lock of `active_txns`. -/
def can_read_active (w : World) : Bool := w.calls.all fun c => !c.writesActive

/-- Nobody holds a lock of `active_txns`. -/
def can_write_active (w : World) : Bool := w.calls.all fun c => !c.writesActive && !c.readsActive

/-- Nobody holds a lock of `readers`; it is held for writing only within one step. -/
def can_write_readers (w : World) : Bool := w.calls.all fun c => !c.readsReaders

/-- The next step of call `i`. -/
def runCall (w : World) (i : Nat) : Call → Option World
  | .begin => if w.can_write_active then some (w.setCall i .begin_locked) else none
  -- an id is issued only below the last 64-bit number
  | .begin_locked =>
    if w.tm.next_txn_id < u64Max then
      some ({ w with tm := { w.tm with next_txn_id := w.tm.next_txn_id + 1 } }.setCall i
        (.begin_id w.tm.next_txn_id))
    else none
  | .begin_id txn_id =>
    let xmin := minOr w.tm.active_txns.keys txn_id
    some ({ w with
      tm := { w.tm with active_txns := w.tm.active_txns.insert txn_id xmin } }.setCall i
        (.begin_inserted txn_id))
  | .begin_inserted txn_id => some (w.setCall i (.begin_clog txn_id))
  | .begin_clog txn_id => some ({ w with tm := w.tm.clog_insert txn_id .Active }.setCall i .done)
  | .read_snapshot => if w.can_read_active then some (w.setCall i .read_locked) else none
  | .read_locked =>
    some (w.setCall i (.read_taken (minOr w.tm.active_txns.keys w.tm.next_txn_id)))
  -- and so is a reader's token
  | .read_taken xmin =>
    if w.tm.next_reader_token < u64Max then
      some ({ w with tm := { w.tm with next_reader_token := w.tm.next_reader_token + 1 } }.setCall i
        (.read_token xmin w.tm.next_reader_token))
    else none
  | .read_token xmin token =>
    if w.can_write_readers then
      some ({ w with tm := { w.tm with readers := w.tm.readers.insert token xmin } }.setCall i
        .read_published)
    else none
  | .read_published => some (w.setCall i .done)
  | .end_read token =>
    if w.can_write_readers then some ({ w with tm := w.tm.end_read token }.setCall i .done)
    else none
  | .mark txn_id status =>
    some ({ w with tm := w.tm.clog_insert txn_id status }.setCall i (.mark_active txn_id))
  | .mark_active txn_id =>
    if w.can_write_active then some ({ w with tm := w.tm.active_remove txn_id }.setCall i .done)
    else none
  | .global_xmin => if w.can_read_active then some (w.setCall i .global_active) else none
  | .global_active => some (w.setCall i .global_both)
  | .global_both =>
    some ({ w with results := w.tm.global_xmin :: w.results }.setCall i .global_returns)
  | .global_returns => some (w.setCall i .done)
  | .done => none

def step (w : World) : Event → Option World
  | .begin => some (w.call .begin)
  | .read_snapshot => some (w.call .read_snapshot)
  | .end_read token => some (w.call (.end_read token))
  | .mark_committed txn_id => some (w.call (.mark txn_id .Committed))
  | .mark_aborted txn_id => some (w.call (.mark txn_id .Aborted))
  | .global_xmin => some (w.call .global_xmin)
  | .run i => (w.calls[i]?).bind (w.runCall i)

/-- The snapshots in use: those of the active transactions, of the registered readers, and of
readers that are about to register. -/
def live (w : World) : List Nat :=
  values w.tm.active_txns ++ values w.tm.readers ++ w.calls.filterMap Call.taken?

end World

/-! ## The invariant -/

/-- `x` is at or above the horizon that the active set gives. -/
def Covered (tm : TransactionManager) (x : Nat) : Prop :=
  (∃ i m, tm.active_txns.lookup i = some m ∧ m ≤ x) ∨ tm.next_txn_id ≤ x

structure Good (w : World) : Prop where
  /-- a snapshot is no newer than its holder's id -/
  own : ∀ i m, w.tm.active_txns.lookup i = some m → m ≤ i
  /-- no snapshot is newer than the next id -/
  next : ∀ x ∈ w.live, x ≤ w.tm.next_txn_id
  /-- the snapshot of a reader that is about to register follows from the active set -/
  covered : ∀ c ∈ w.calls, ∀ x ∈ c.taken?, Covered w.tm x
  ids : ∀ i ∈ w.tm.active_txns.keys, i < w.tm.next_txn_id
  /-- an id that is not in the active set yet is the last one -/
  issued : ∀ c ∈ w.calls, ∀ id, c = .begin_id id →
    id + 1 = w.tm.next_txn_id ∧ ∀ r ∈ w.results, r ≤ id
  locks : ∀ (i j : Nat) c d, i ≠ j → w.calls[i]? = some c → w.calls[j]? = some d →
    c.writesActive = true → d.writesActive = false ∧ d.readsActive = false
  results : ∀ r ∈ w.results, r ≤ w.tm.next_txn_id ∧ ∀ x ∈ w.live, r ≤ x
  sorted : w.results.Pairwise (· ≥ ·)

theorem mem_live {w : World} {x : Nat} : x ∈ w.live ↔
    (∃ i, w.tm.active_txns.lookup i = some x) ∨ (∃ t, w.tm.readers.lookup t = some x) ∨
      ∃ c ∈ w.calls, c.taken? = some x := by
  simp only [World.live, mem_append, mem_values, mem_filterMap, or_assoc]

theorem good_new : Good World.new where
  own := nofun
  next := nofun
  covered := nofun
  ids := nofun
  issued := nofun
  locks := nofun
  results := nofun
  sorted := List.Pairwise.nil

section Steps

variable {w w' : World} {i : Nat} {c c' : Call}

/-- A snapshot that may be in use when the next id is `next`. -/
def Bounded (w : World) (next x : Nat) : Prop := x ∈ w.live ∨ x ≤ next ∧ ∀ r ∈ w.results, r ≤ x

theorem Good.own_lt (h : Good w) (n : Nat) : ∀ i m, w.tm.active_txns.lookup i = some m →
    m ≤ i ∧ i < w.tm.next_txn_id ∧ Bounded w n m := fun i m hm =>
  ⟨h.own i m hm, h.ids i (mem_keys.mp (mem_of_lookup_eq_some hm)),
    .inl (mem_live.mpr (.inl ⟨i, hm⟩))⟩

theorem reader_live : ∀ t x, w.tm.readers.lookup t = some x → x ∈ w.live :=
  fun t _ ht => mem_live.mpr (.inr (.inl ⟨t, ht⟩))

section Move

variable {tm : TransactionManager} (h : Good w) (hi : w.calls[i]? = some c)
  (hwrite : c'.writesActive = true → c.writesActive = true ∨ w.can_write_active = true)
  (hread : c'.readsActive = true →
    c.writesActive = true ∨ c.readsActive = true ∨ w.can_read_active = true)

include h hi hwrite hread

/-- The locks after call `i` has moved on: it keeps what it has, or gets what is free. -/
theorem Good.locks_set :
    ∀ (j k : Nat) d e, j ≠ k → (w.calls.set i c')[j]? = some d → (w.calls.set i c')[k]? = some e →
      d.writesActive = true → e.writesActive = false ∧ e.readsActive = false := by
  intro j k d e hne hj hk hd
  rw [getElem?_set_eq_ite hi] at hj hk
  split at hj <;> split at hk
  · next h1 h2 => exact absurd (h1.trans h2.symm) hne
  · next h1 h2 =>
    cases hj
    rcases hwrite hd with hc | hfree
    · exact h.locks i k c e (Ne.symm h2) hi hk hc
    have := all_eq_true.mp hfree e (mem_of_getElem? hk)
    simpa using this
  · next h1 h2 =>
    cases hk
    have hold := h.locks j i d c h1 hj hi hd
    constructor
    · refine Bool.eq_false_iff.mpr fun he => ?_
      rcases hwrite he with hc | hfree
      · rw [hold.1] at hc
        cases hc
      have := all_eq_true.mp hfree d (mem_of_getElem? hj)
      simp [hd] at this
    refine Bool.eq_false_iff.mpr fun he => ?_
    rcases hread he with hc | hc | hfree
    · rw [hold.1] at hc
      cases hc
    · rw [hold.2] at hc
      cases hc
    have := all_eq_true.mp hfree d (mem_of_getElem? hj)
    simp [hd] at this
  · exact h.locks j k d e hne hj hk hd

/-- A call moves on. What has to be shown of the manager is that the snapshots in use and the
readers that are about to register stay within the bounds. -/
theorem Good.set (hnext : w.tm.next_txn_id ≤ tm.next_txn_id)
    (hown : ∀ i m, tm.active_txns.lookup i = some m →
      m ≤ i ∧ i < tm.next_txn_id ∧ Bounded w tm.next_txn_id m)
    (hreaders : ∀ t x, tm.readers.lookup t = some x → x ∈ w.live)
    (htaken : ∀ x ∈ c'.taken?, Bounded w tm.next_txn_id x)
    (hcovered : ∀ d ∈ w.calls.set i c', ∀ x ∈ d.taken?, Covered tm x)
    (hissued : ∀ d ∈ w.calls.set i c', ∀ id, d = .begin_id id →
      id + 1 = tm.next_txn_id ∧ ∀ r ∈ w.results, r ≤ id) :
    Good { w.setCall i c' with tm := tm } := by
  have hlive : ∀ x ∈ World.live { w.setCall i c' with tm := tm }, Bounded w tm.next_txn_id x := by
    intro x hx
    rcases mem_live.mp hx with ⟨j, hj⟩ | ⟨t, ht⟩ | ⟨d, hd, hdx⟩
    · exact (hown j x hj).2.2
    · exact .inl (hreaders t x ht)
    rcases mem_or_eq_of_mem_set hd with hd | rfl
    · exact .inl (mem_live.mpr (.inr (.inr ⟨d, hd, hdx⟩)))
    · exact htaken x hdx
  exact
    { own := fun i m hm => (hown i m hm).1
      next := fun x hx => (hlive x hx).elim (fun hx => le_trans (h.next x hx) hnext) And.left
      covered := hcovered
      ids := fun i hi => by
        obtain ⟨m, hm⟩ := exists_lookup_of_mem (mem_keys.mpr hi)
        exact (hown i m hm).2.1
      issued := hissued
      locks := h.locks_set hi hwrite hread
      results := fun r hr => ⟨le_trans (h.results r hr).1 hnext, fun x hx =>
        (hlive x hx).elim ((h.results r hr).2 x) fun hx => hx.2 r hr⟩
      sorted := h.sorted }

/-- A call moves on, and neither the active set nor the next id changes. -/
theorem Good.move (hid : ∀ id, c' ≠ .begin_id id) (hnext : tm.next_txn_id = w.tm.next_txn_id)
    (hactive : tm.active_txns = w.tm.active_txns)
    (hreaders : ∀ t x, tm.readers.lookup t = some x → x ∈ w.live)
    (htaken : ∀ x ∈ c'.taken?, c.taken? = some x) : Good { w.setCall i c' with tm := tm } := by
  have hc := mem_of_getElem? hi
  refine h.set hi hwrite hread hnext.ge ?_ hreaders (fun x hx => ?_) ?_ ?_
  · rw [hactive, hnext]
    exact h.own_lt _
  · exact .inl (mem_live.mpr (.inr (.inr ⟨c, hc, htaken x hx⟩)))
  · unfold Covered
    rw [hactive, hnext]
    exact forall_mem_set h.covered fun x hx => h.covered c hc x (htaken x hx)
  rw [hnext]
  exact forall_mem_set h.issued fun id hdid => absurd hdid (hid id)

end Move

section

variable (h : Good w)

include h

/-- While somebody holds the write lock, no reader is about to register. -/
theorem Good.not_taken (hi : w.calls[i]? = some c) (hc : c.writesActive = true) :
    ∀ d ∈ w.calls, d.taken? = none := by
  intro d hd
  obtain ⟨j, hj⟩ := mem_iff_getElem?.mp hd
  by_cases hne : j = i
  · subst hne
    rw [hi] at hj
    cases hj
    cases c <;> first | rfl | cases hc
  have := (h.locks i j c d (Ne.symm hne) hi hj hc).2
  cases d <;> first | rfl | cases this

/-- The results so far are no newer than an active id. -/
theorem Good.result_le_active {r j : Nat} (hr : r ∈ w.results) (hj : j ∈ w.tm.active_txns.keys) :
    r ≤ j := by
  obtain ⟨m, hm⟩ := exists_lookup_of_mem (mem_keys.mpr hj)
  exact le_trans ((h.results r hr).2 m (mem_live.mpr (.inl ⟨j, hm⟩))) (h.own j m hm)

theorem good_begin_id (hi : w.calls[i]? = some .begin_locked) :
    Good ({ w with tm := { w.tm with next_txn_id := w.tm.next_txn_id + 1 } }.setCall i
        (.begin_id w.tm.next_txn_id)) := by
  have hnone := h.not_taken hi rfl
  refine h.set hi (fun _ => .inl rfl) nofun (Nat.le_succ _) ?_ reader_live nofun ?_ ?_
  · intro j m hm
    obtain ⟨hle, hlt, hb⟩ := h.own_lt _ j m hm
    exact ⟨hle, Nat.lt_succ_of_lt hlt, hb⟩
  · exact forall_mem_set (fun d hd x hx => nomatch (hnone d hd).symm.trans hx) nofun
  refine forall_mem_set ?_ fun id hid => ?_
  · rintro d hd id rfl
    -- nobody else has the write lock
    obtain ⟨j, hj⟩ := mem_iff_getElem?.mp hd
    by_cases hne : i = j
    · subst hne
      cases hi.symm.trans hj
    have := (h.locks i j _ _ hne hi hj rfl).1
    cases this
  cases hid
  exact ⟨rfl, fun r hr => (h.results r hr).1⟩

theorem good_begin_insert {id : Nat} (hi : w.calls[i]? = some (.begin_id id)) :
    Good ({ w with tm := { w.tm with
      active_txns := w.tm.active_txns.insert id (minOr w.tm.active_txns.keys id) } }.setCall i
        (.begin_inserted id)) := by
  have hnone := h.not_taken hi rfl
  obtain ⟨hlast, hresults⟩ := h.issued _ (mem_of_getElem? hi) id rfl
  have hle : minOr w.tm.active_txns.keys id ≤ id := minOr_le_default fun j hj => by
    have := h.ids j hj
    omega
  refine h.set hi (fun _ => .inl rfl) nofun le_rfl ?_ (reader_live (w := w)) nofun ?_ ?_
  · intro j m hm
    rw [lookup_insert_eq_ite] at hm
    split at hm
    · next hj =>
      cases hm
      subst hj
      have hlt : j < w.tm.next_txn_id := by omega
      refine ⟨hle, hlt, .inr ⟨hle.trans hlt.le, fun r hr => ?_⟩⟩
      exact le_minOr (fun k hk => h.result_le_active hr hk) (hresults r hr)
    · exact h.own_lt _ j m hm
  · exact forall_mem_set (fun d hd x hx => nomatch (hnone d hd).symm.trans hx) nofun
  · exact forall_mem_set h.issued nofun

theorem good_read_taken (hi : w.calls[i]? = some .read_locked) :
    Good (w.setCall i (.read_taken (minOr w.tm.active_txns.keys w.tm.next_txn_id))) := by
  refine h.set hi nofun (fun _ => .inr (.inl rfl)) le_rfl (h.own_lt _) reader_live ?_ ?_
    (forall_mem_set h.issued nofun)
  · rintro x ⟨⟩
    refine .inr ⟨minOr_le_default fun j hj => (h.ids j hj).le, fun r hr => ?_⟩
    exact le_minOr (fun j hj => h.result_le_active hr hj) (h.results r hr).1
  refine forall_mem_set h.covered ?_
  rintro x ⟨⟩
  rcases minOr_cases w.tm.active_txns.keys w.tm.next_txn_id with ⟨-, he⟩ | ⟨hmem, -⟩
  · exact .inr he.ge
  obtain ⟨m, hm⟩ := exists_lookup_of_mem (mem_keys.mpr hmem)
  exact .inl ⟨_, m, hm, h.own _ m hm⟩

theorem good_mark_active {txn_id : Nat} (hi : w.calls[i]? = some (.mark_active txn_id))
    (hfree : w.can_write_active = true) :
    Good ({ w with tm := w.tm.active_remove txn_id }.setCall i .done) := by
  -- nobody reads the active set, so no reader is about to register
  have hnone : ∀ d ∈ w.calls, d.taken? = none := by
    intro d hd
    have := all_eq_true.mp hfree d hd
    cases d <;> first | rfl | cases this
  refine h.set hi nofun nofun le_rfl ?_ (reader_live (w := w)) nofun ?_
    (forall_mem_set h.issued nofun)
  · exact fun j m hm => h.own_lt _ j m (lookup_of_lookup_erase hm)
  · exact forall_mem_set (fun d hd x hx => nomatch (hnone d hd).symm.trans hx) nofun

/-- The horizon is below every snapshot in use, and no result was above it. -/
theorem Good.global_xmin_le :
    w.tm.global_xmin ≤ w.tm.next_txn_id ∧ (∀ x ∈ w.live, w.tm.global_xmin ≤ x) ∧
      ∀ r ∈ w.results, r ≤ w.tm.global_xmin := by
  unfold TransactionManager.global_xmin
  have hlive : ∀ x ∈ values w.tm.active_txns ++ values w.tm.readers, x ∈ w.live :=
    fun x hx => mem_append_left _ hx
  have hnext : minOr (values w.tm.active_txns ++ values w.tm.readers) w.tm.next_txn_id ≤
      w.tm.next_txn_id := minOr_le_default fun x hx => h.next x (hlive x hx)
  refine ⟨hnext, fun x hx => ?_, fun r hr => ?_⟩
  · rcases mem_append.mp hx with hx | hx
    · exact minOr_le_of_mem hx
    obtain ⟨c, hc, hcx⟩ := mem_filterMap.mp hx
    rcases h.covered c hc x hcx with ⟨j, m, hm, hmx⟩ | hle
    · exact le_trans (global_xmin_le_of_active hm) hmx
    · exact le_trans hnext hle
  · exact le_minOr (fun x hx => (h.results r hr).2 x (hlive x hx)) (h.results r hr).1

theorem good_global_xmin (hi : w.calls[i]? = some .global_both) :
    Good ({ w with results := w.tm.global_xmin :: w.results }.setCall i .global_returns) := by
  have hmove : Good (w.setCall i .global_returns) :=
    h.move hi nofun (fun _ => .inr (.inl rfl)) nofun rfl rfl reader_live nofun
  obtain ⟨hnext, hlive, hsorted⟩ := hmove.global_xmin_le
  refine { hmove with issued := ?_, results := ?_, sorted := ?_ }
  · intro d hd id hdid
    -- a call that has an id has the write lock, and this one has the read lock
    obtain ⟨j, hj⟩ := mem_iff_getElem?.mp hd
    have hj : (w.calls.set i .global_returns)[j]? = some d := hj
    rw [getElem?_set_eq_ite hi] at hj
    subst hdid
    split at hj
    · cases hj
    rename_i hne
    have := (h.locks j i _ _ hne hj hi rfl).2
    cases this
  · intro r hr
    rcases mem_cons.mp hr with rfl | hr
    · exact ⟨hnext, hlive⟩
    · exact hmove.results r hr
  · exact pairwise_cons.mpr ⟨fun r hr => hsorted r hr, h.sorted⟩

theorem good_runCall (hi : w.calls[i]? = some c) (hstep : w.runCall i c = some w') : Good w' := by
  -- the steps that only take or drop a lock
  have hmove : ∀ c', (c'.writesActive = true → c.writesActive = true ∨ w.can_write_active = true) →
      (c'.readsActive = true →
        c.writesActive = true ∨ c.readsActive = true ∨ w.can_read_active = true) →
      (∀ id, c' ≠ .begin_id id) → c'.taken? = none → Good (w.setCall i c') := by
    intro c' hwrite hread hid htaken
    refine h.move hi hwrite hread hid rfl rfl reader_live fun x hx => ?_
    rw [htaken] at hx
    cases hx
  cases c with
  | begin =>
    simp only [World.runCall] at hstep
    split at hstep <;> cases hstep
    next hfree => exact hmove .begin_locked (fun _ => .inr hfree) nofun nofun rfl
  | begin_locked =>
    simp only [World.runCall] at hstep
    split at hstep <;> cases hstep
    exact good_begin_id h hi
  | begin_id id =>
    cases hstep
    exact good_begin_insert h hi
  | begin_inserted id =>
    cases hstep
    exact hmove (.begin_clog id) nofun nofun nofun rfl
  | begin_clog id | mark txn_id status =>
    cases hstep
    exact h.move hi nofun nofun nofun rfl rfl reader_live nofun
  | read_snapshot =>
    simp only [World.runCall] at hstep
    split at hstep <;> cases hstep
    next hfree => exact hmove .read_locked nofun (fun _ => .inr (.inr hfree)) nofun rfl
  | read_locked =>
    cases hstep
    exact good_read_taken h hi
  | read_taken xmin =>
    simp only [World.runCall] at hstep
    split at hstep <;> cases hstep
    exact h.move hi nofun (fun _ => .inr (.inl rfl)) nofun rfl rfl reader_live fun x hx => hx
  | read_token xmin token =>
    simp only [World.runCall] at hstep
    split at hstep <;> cases hstep
    refine h.move hi nofun (fun _ => .inr (.inl rfl)) nofun rfl rfl ?_ nofun
    intro t x ht
    rw [lookup_insert_eq_ite] at ht
    split at ht
    · cases ht
      exact mem_live.mpr (.inr (.inr ⟨_, mem_of_getElem? hi, rfl⟩))
    · exact reader_live t x ht
  | read_published | global_returns =>
    cases hstep
    exact hmove .done nofun nofun nofun rfl
  | end_read token =>
    simp only [World.runCall] at hstep
    split at hstep <;> cases hstep
    exact h.move hi nofun nofun nofun rfl rfl
      (fun t x ht => reader_live t x (lookup_of_lookup_erase ht)) nofun
  | mark_active txn_id =>
    simp only [World.runCall] at hstep
    split at hstep <;> cases hstep
    next hfree => exact good_mark_active h hi hfree
  | global_xmin =>
    simp only [World.runCall] at hstep
    split at hstep <;> cases hstep
    next hfree => exact hmove .global_active nofun (fun _ => .inr (.inr hfree)) nofun rfl
  | global_active =>
    cases hstep
    exact hmove .global_both nofun (fun _ => .inr (.inl rfl)) nofun rfl
  | global_both =>
    cases hstep
    exact good_global_xmin h hi
  | done => cases hstep

theorem Good.call (hwrites : c.writesActive = false) (hreads : c.readsActive = false)
    (htaken : c.taken? = none) : Good (w.call c) := by
  have hlive : ∀ x ∈ (w.call c).live, x ∈ w.live := by
    intro x hx
    rw [mem_live] at hx ⊢
    refine hx.imp_right (Or.imp_right ?_)
    rintro ⟨d, hd, hdx⟩
    rcases mem_append.mp hd with hd | hd
    · exact ⟨d, hd, hdx⟩
    rw [mem_singleton.mp hd, htaken] at hdx
    cases hdx
  refine ⟨h.own, fun x hx => h.next x (hlive x hx), ?_, h.ids, ?_, ?_, ?_, h.sorted⟩
  · exact forall_mem_concat h.covered fun x hx => nomatch htaken.symm.trans hx
  · refine forall_mem_concat h.issued fun id hid => ?_
    rw [hid] at hwrites
    cases hwrites
  · intro j k d e hne hj hk hd
    -- the new call has no lock, so only the old ones can clash
    rcases getElem?_concat_cases hj with hj | ⟨-, rfl⟩
    · rcases getElem?_concat_cases hk with hk | ⟨-, rfl⟩
      · exact h.locks j k d e hne hj hk hd
      · exact ⟨hwrites, hreads⟩
    rw [hwrites] at hd
    cases hd
  · exact fun r hr => ⟨(h.results r hr).1, fun x hx => (h.results r hr).2 x (hlive x hx)⟩

end

theorem good_step (w : World) (e : Event) (w' : World) (h : Good w) (hstep : w.step e = some w') :
    Good w' := by
  cases e with
  | run i =>
    obtain ⟨c, hi, hrun⟩ := Option.bind_eq_some_iff.mp hstep
    exact good_runCall h hi hrun
  | _ =>
    cases hstep
    exact h.call rfl rfl rfl

end Steps

/-- The results of `global_xmin` never decrease, and none of them is above a snapshot that is
in use, be it one from before the result or one from after it. -/
theorem no_snapshot_is_older_than_the_horizon (p : List Event) (w : World)
    (hrun : Runs.run World.step World.new p = some w) :
    w.results.Pairwise (· ≥ ·) ∧ ∀ r ∈ w.results, ∀ x ∈ w.live, r ≤ x := by
  have h : Good w := Runs.inv_run good_step good_new hrun
  exact ⟨h.sorted, fun r hr => (h.results r hr).2⟩

/-- Transaction 1 begins, the horizon is read, 1 commits, 2 begins and the horizon is read. -/
def oneAfterAnother : List Event :=
  [.begin] ++ List.replicate 5 (.run 0) ++ [.global_xmin] ++ List.replicate 4 (.run 1) ++
    [.mark_committed 1, .run 2, .run 2, .begin] ++ List.replicate 5 (.run 3) ++ [.global_xmin] ++
    List.replicate 4 (.run 4)

theorem the_horizon_moves_when_a_transaction_ends :
    ∃ w, Runs.run World.step World.new oneAfterAnother = some w ∧
      (w.results = [2, 1] ∧ w.live = [2]) ∧
      w.results.Pairwise (· ≥ ·) ∧ ∀ r ∈ w.results, ∀ x ∈ w.live, r ≤ x := by
  have hex : ∃ w, Runs.run World.step World.new oneAfterAnother = some w ∧
      w.results = [2, 1] ∧ w.live = [2] := Runs.exists_run (by decide +kernel)
  obtain ⟨w, hrun, hseen⟩ := hex
  exact ⟨w, hrun, hseen, no_snapshot_is_older_than_the_horizon oneAfterAnother w hrun⟩

end FluxDB.Horizon
