-- Waiting for a transaction to settle. The calls that end a transaction, with the outcomes of
-- their log calls, and the callers of `wait_until_settled` are cut at every lock, so that any
-- number of them may interleave. A sleeper always has somebody who is to wake it.
import FluxDB.TransactionManager
import FluxDB.Lib.Runs

namespace FluxDB.Waiters

open Maps List Function

/-! ## Calls -/

/-- How a transaction ends: by `Engine::commit`, by `Engine::abort`, or by the drop of its
handle, which calls `abort` and drops its result. -/
inductive End
  | commit
  | abort
  | drop
  deriving DecidableEq, Repr

/-- Who calls `notify_waiters`: the end of the transaction, or a waiter that finds it
settled. -/
inductive Notifier
  | ended (how : End)
  | waiter
  deriving DecidableEq, Repr

/-- Where a thread is in its call about transaction `txn_id`. -/
inductive Call
  /-- at the start of `wait_until_settled` -/
  | wait (txn_id : Nat)
  /-- has found the transaction active, and gets its waiter entry next -/
  | install (txn_id : Nat)
  /-- has an entry, and checks the transaction once more -/
  | recheck (txn_id entry : Nat)
  /-- has found it active again, and locks the entry next -/
  | lock_entry (txn_id entry : Nat)
  | asleep (txn_id entry : Nat)
  /-- is to end a transaction that did, or did not, write -/
  | finish (how : End) (txn_id : Nat) (wrote_anything : Bool)
  /-- appends its `Commit` or `Abort` record next -/
  | log (how : End) (txn_id : Nat)
  | flush_up_to (txn_id : Nat)
  /-- `mark_committed` or `mark_aborted`, before the CLOG entry -/
  | mark (how : End) (txn_id : Nat) (committed : Bool)
  /-- before the removal from the active set -/
  | mark_active (how : End) (txn_id : Nat)
  /-- `notify_waiters`, before the removal of the entry from the map -/
  | notify_waiters (by_whom : Notifier) (txn_id : Nat)
  | set_flag (by_whom : Notifier) (txn_id entry : Nat)
  | notify_all (by_whom : Notifier) (txn_id entry : Nat)
  /-- the call that ended the transaction has returned -/
  | ended (how : End) (txn_id : Nat)
  | settled (txn_id : Nat)
  deriving DecidableEq, Repr

/-- The call ends, or has ended, the transaction. -/
def Call.ends (t : Nat) : Call → Bool
  | .finish _ t' _ | .log _ t' | .flush_up_to t' | .mark _ t' _ | .mark_active _ t'
  | .notify_waiters (.ended _) t' | .set_flag (.ended _) t' _ | .notify_all (.ended _) t' _
  | .ended _ t' => t' == t
  | _ => false

/-- The manager with its waiter map. The entries are numbered as they are made, and
`flags` says which of them are settled. -/
structure World where
  tm : TransactionManager
  waiters : Nat → Option Nat
  flags : Nat → Bool
  next_entry : Nat
  calls : List Call

/-- What can happen next. `run` is the next step of a call, and `fail` one that ends with an
error of the log; `spurious` wakes a sleeper for no reason. -/
inductive Event
  | begin
  | wait_until_settled (txn_id : Nat)
  | finish (how : End) (txn_id : Nat) (wrote_anything : Bool)
  | run (i : Nat)
  | fail (i : Nat)
  | spurious (i : Nat)
  deriving DecidableEq, Repr

namespace World

def new : World where
  tm := .new
  waiters := fun _ => none
  flags := fun _ => false
  next_entry := 0
  calls := []

def call (w : World) (c : Call) : World := { w with calls := w.calls ++ [c] }

def setCall (w : World) (i : Nat) (c : Call) : World := { w with calls := w.calls.set i c }

def is_active (w : World) (txn_id : Nat) : Bool := decide (txn_id ∈ w.tm.active_txns)

/-- The caller's entry in the waiter map, which is made if there is none. -/
def install (w : World) (i txn_id : Nat) : World :=
  match w.waiters txn_id with
  | some entry => w.setCall i (.recheck txn_id entry)
  | none =>
    { w with waiters := update w.waiters txn_id (some w.next_entry)
             flags := update w.flags w.next_entry false
             next_entry := w.next_entry + 1 }.setCall i (.recheck txn_id w.next_entry)

/-- The call that follows `notify_waiters`. -/
def notified (by_whom : Notifier) (txn_id : Nat) : Call :=
  match by_whom with
  | .ended how => .ended how txn_id
  | .waiter => .settled txn_id

/-- Everybody who sleeps on the entry locks it again. -/
def wake (entry : Nat) (c : Call) : Call :=
  match c with
  | .asleep t e => if e = entry then .lock_entry t e else c
  | _ => c

/-- The next step of call `i`. -/
def runCall (w : World) (i : Nat) : Call → Option World
  | .wait t => some (w.setCall i (if w.is_active t then .install t else .settled t))
  | .install t => some (w.install i t)
  | .recheck t e =>
    some (w.setCall i (if w.is_active t then .lock_entry t e else .notify_waiters .waiter t))
  -- the flag is tested and the sleep begins under the entry's mutex
  | .lock_entry t e => some (w.setCall i (if w.flags e then .settled t else .asleep t e))
  | .finish .commit t false => some (w.setCall i (.mark .commit t true))
  | .finish how t false => some (w.setCall i (.mark how t false))
  | .finish how t true => some (w.setCall i (.log how t))
  | .log .commit t => some (w.setCall i (.flush_up_to t))
  | .log how t => some (w.setCall i (.mark how t false))
  | .flush_up_to t => some (w.setCall i (.mark .commit t true))
  | .mark how t committed =>
    let status := if committed then .Committed else .Aborted
    some ({ w with tm := w.tm.clog_insert t status }.setCall i (.mark_active how t))
  | .mark_active how t =>
    some ({ w with tm := w.tm.active_remove t }.setCall i (.notify_waiters (.ended how) t))
  | .notify_waiters by_whom t =>
    let w' := { w with waiters := update w.waiters t none }
    match w.waiters t with
    | some e => some (w'.setCall i (.set_flag by_whom t e))
    | none => some (w'.setCall i (notified by_whom t))
  | .set_flag by_whom t e =>
    some ({ w with flags := update w.flags e true }.setCall i (.notify_all by_whom t e))
  | .notify_all by_whom t e =>
    some ({ w with calls := w.calls.map (wake e) }.setCall i (notified by_whom t))
  | .asleep .. | .ended .. | .settled _ => none

/-- A log call that fails: a commit is turned into an abort, and `abort` returns the error. -/
def failCall (w : World) (i : Nat) : Call → Option World
  | .log .commit t => some (w.setCall i (.mark .commit t false))
  | .log how t => some (w.setCall i (.ended how t))
  | .flush_up_to t => some (w.setCall i (.mark .commit t false))
  | _ => none

def step (w : World) : Event → Option World
  | .begin =>
    if w.tm.next_txn_id < u64Max then some { w with tm := w.tm.begin.2 } else none
  | .wait_until_settled t => some (w.call (.wait t))
  -- a transaction that has begun is handed to one of the calls that end it
  | .finish how t wrote_anything =>
    if t < w.tm.next_txn_id ∧ ∀ c ∈ w.calls, c.ends t = false then
      some (w.call (.finish how t wrote_anything))
    else none
  | .run i => (w.calls[i]?).bind (w.runCall i)
  | .fail i => (w.calls[i]?).bind (w.failCall i)
  | .spurious i =>
    match w.calls[i]? with
    | some (.asleep t e) => some (w.setCall i (.lock_entry t e))
    | _ => none

end World

/-! ## The invariant -/

/-- Somebody is to release those who wait for `t` on the entry: its flag is set, or about to
be set, or the entry is in the map and the end of the transaction is still to look there. -/
def World.Kept (w : World) (t e : Nat) : Prop :=
  w.flags e = true ∨ (∃ b, .set_flag b t e ∈ w.calls) ∨
    w.waiters t = some e ∧
      (t ∈ w.tm.active_txns ∨ ∃ how, .notify_waiters (.ended how) t ∈ w.calls)

/-- Somebody is to wake those who sleep on the entry when its flag is set. -/
def World.Woken (w : World) (e : Nat) : Prop :=
  w.flags e = true → ∃ b t, .notify_all b t e ∈ w.calls

/-- What a call relies on. -/
def Fits (w : World) : Call → Prop
  | .wait _ | .ended .. | .settled _ => True
  | .install t | .finish _ t _ | .log _ t | .flush_up_to t | .mark _ t _ | .mark_active _ t =>
    t < w.tm.next_txn_id
  | .recheck t e =>
    t < w.tm.next_txn_id ∧ e < w.next_entry ∧ (t ∈ w.tm.active_txns → w.waiters t = some e)
  | .lock_entry t e => t < w.tm.next_txn_id ∧ e < w.next_entry ∧ w.Kept t e
  | .asleep t e => t < w.tm.next_txn_id ∧ e < w.next_entry ∧ w.Kept t e ∧ w.Woken e
  | .notify_waiters _ t => t < w.tm.next_txn_id ∧ t ∉ w.tm.active_txns
  | .set_flag _ _ e | .notify_all _ _ e => e < w.next_entry

structure Good (w : World) : Prop where
  ids : ∀ t ∈ w.tm.active_txns, t < w.tm.next_txn_id
  entries : ∀ t e, w.waiters t = some e → e < w.next_entry
  fits : ∀ c ∈ w.calls, Fits w c

theorem good_new : Good World.new where
  ids := nofun
  entries := nofun
  fits := nofun

variable {e t : Nat}

section Steps

variable {w w' : World} {i : Nat} {c c' : Call}

/-- What a call relies on stays true when the releases that are due stay due. -/
theorem Fits.mono (h : Fits w c) (hnext : w.tm.next_txn_id ≤ w'.tm.next_txn_id)
    (hentry : w.next_entry ≤ w'.next_entry)
    (hactive : ∀ t, t < w.tm.next_txn_id → t ∈ w'.tm.active_txns → t ∈ w.tm.active_txns)
    (hmap : ∀ t e, t ∈ w.tm.active_txns → w.waiters t = some e → w'.waiters t = some e)
    (hkept : ∀ t e, t < w.tm.next_txn_id → e < w.next_entry → w.Kept t e → w'.Kept t e)
    (hwoken : ∀ t e, c = .asleep t e → e < w.next_entry → w.Woken e → w'.Woken e) :
    Fits w' c := by
  cases c with
  | wait t | ended how t | settled t => exact trivial
  | install t | finish how t wrote_anything | log how t | flush_up_to t | mark how t committed
  | mark_active how t => exact lt_of_lt_of_le h hnext
  | recheck t e =>
    obtain ⟨ht, he, hm⟩ := h
    refine ⟨lt_of_lt_of_le ht hnext, lt_of_lt_of_le he hentry, fun hon => ?_⟩
    exact hmap t e (hactive t ht hon) (hm (hactive t ht hon))
  | lock_entry t e =>
    obtain ⟨ht, he, hk⟩ := h
    exact ⟨lt_of_lt_of_le ht hnext, lt_of_lt_of_le he hentry, hkept t e ht he hk⟩
  | asleep t e =>
    obtain ⟨ht, he, hk, hw⟩ := h
    exact ⟨lt_of_lt_of_le ht hnext, lt_of_lt_of_le he hentry, hkept t e ht he hk,
      hwoken t e rfl he hw⟩
  | notify_waiters b t => exact ⟨lt_of_lt_of_le h.1 hnext, fun hon => h.2 (hactive t h.1 hon)⟩
  | set_flag b t e | notify_all b t e => exact lt_of_lt_of_le h hentry

/-- The call releases waiters. -/
def Call.releases : Call → Bool
  | .notify_waiters .. | .set_flag .. | .notify_all .. => true
  | _ => false

variable {d : Call} {b : Notifier}

theorem mem_set_of_ne {l : List Call} (hi : l[i]? = some c) (hd : d ∈ l) (hne : d ≠ c) :
    d ∈ l.set i c' := by
  obtain ⟨j, hj⟩ := mem_iff_getElem?.mp hd
  have hji : j ≠ i := by
    rintro rfl
    rw [hi] at hj
    exact hne (Option.some.inj hj).symm
  refine mem_of_getElem? (i := j) ?_
  rw [getElem?_set_eq_ite hi, if_neg hji]
  exact hj

/-- A call that releases nobody moves on, and nothing else changes. -/
theorem Good.move (h : Good w) (hi : w.calls[i]? = some c) (hc : c.releases = false)
    (hfits : Fits w c') : Good (w.setCall i c') := by
  have hkept : ∀ t e, w.Kept t e → (w.setCall i c').Kept t e := by
    intro t e hk
    refine hk.imp_right (Or.imp ?_ (And.imp_right (Or.imp_right ?_)))
    · rintro ⟨b, hb⟩
      refine ⟨b, mem_set_of_ne hi hb ?_⟩
      rintro rfl
      cases hc
    rintro ⟨how, hb⟩
    refine ⟨how, mem_set_of_ne hi hb ?_⟩
    rintro rfl
    cases hc
  have hwoken : ∀ e, w.Woken e → (w.setCall i c').Woken e := by
    intro e hw hf
    obtain ⟨b, t, hb⟩ := hw hf
    refine ⟨b, t, mem_set_of_ne hi hb ?_⟩
    rintro rfl
    cases hc
  refine ⟨h.ids, h.entries, fun d hd => ?_⟩
  have hfit : Fits w d := forall_mem_set h.fits hfits d hd
  exact hfit.mono le_rfl le_rfl (fun _ _ ht => ht) (fun _ _ _ he => he)
    (fun t e _ _ => hkept t e) fun _ e _ _ => hwoken e

theorem good_install (h : Good w) (hi : w.calls[i]? = some (.install t)) :
    Good (w.install i t) := by
  have ht : t < w.tm.next_txn_id := h.fits _ (mem_of_getElem? hi)
  unfold World.install
  cases hw : w.waiters t with
  | some e => exact h.move hi rfl ⟨ht, h.entries t e hw, fun _ => hw⟩
  | none =>
    have hmap : ∀ t' e, w.waiters t' = some e →
        update w.waiters t (some w.next_entry) t' = some e := by
      intro t' e he
      have hne : t' ≠ t := by
        rintro rfl
        rw [hw] at he
        cases he
      rw [update_of_ne hne]
      exact he
    have hflags : ∀ e, e < w.next_entry → update w.flags w.next_entry false e = w.flags e :=
      fun e he => update_of_ne (Nat.ne_of_lt he) _ _
    refine ⟨h.ids, fun t' e he => ?_, fun d hd => ?_⟩
    · simp only [World.setCall, update_apply] at he
      split at he
      · cases he
        exact Nat.lt_succ_self _
      · exact Nat.lt_succ_of_lt (h.entries t' e he)
    rcases mem_or_eq_of_mem_set hd with hd | rfl
    · refine (h.fits d hd).mono le_rfl (Nat.le_succ _) (fun _ _ hon => hon)
        (fun t' e _ => hmap t' e) (fun t' e _ he hk => ?_) (fun t' e _ he hwk hf => ?_)
      · unfold World.Kept at hk ⊢
        simp only [World.setCall, hflags e he]
        refine hk.imp_right (Or.imp ?_ (And.imp (hmap t' e) (Or.imp_right ?_)))
        · rintro ⟨b, hb⟩
          exact ⟨b, mem_set_of_ne hi hb nofun⟩
        rintro ⟨how, hb⟩
        exact ⟨how, mem_set_of_ne hi hb nofun⟩
      simp only [World.setCall, hflags e he] at hf
      obtain ⟨b, t'', hb⟩ := hwk hf
      exact ⟨b, t'', mem_set_of_ne hi hb nofun⟩
    refine ⟨ht, Nat.lt_succ_self _, fun _ => ?_⟩
    simp [World.setCall]

theorem mem_active_remove {tm : TransactionManager} {t' : Nat} :
    t' ∈ (tm.active_remove t).active_txns ↔ t' ≠ t ∧ t' ∈ tm.active_txns :=
  AList.mem_erase

theorem good_mark_active {how : End} (h : Good w) (hi : w.calls[i]? = some (.mark_active how t)) :
    Good ({ w with tm := w.tm.active_remove t }.setCall i (.notify_waiters (.ended how) t)) := by
  have ht : t < w.tm.next_txn_id := h.fits _ (mem_of_getElem? hi)
  have hnew := mem_set (lt_of_getElem? hi) (Call.notify_waiters (.ended how) t)
  refine ⟨fun t' hon => h.ids t' (mem_active_remove.mp hon).2, h.entries, fun d hd => ?_⟩
  rcases mem_or_eq_of_mem_set hd with hd | rfl
  swap
  · exact ⟨ht, fun hon => (mem_active_remove.mp hon).1 rfl⟩
  refine (h.fits d hd).mono le_rfl le_rfl (fun t' _ hon => (mem_active_remove.mp hon).2)
    (fun _ _ _ he => he) (fun t' e _ _ hk => ?_) fun _ e _ _ hwk hf => ?_
  · refine hk.imp_right (Or.imp ?_ (And.imp_right ?_))
    · rintro ⟨b, hb⟩
      exact ⟨b, mem_set_of_ne hi hb nofun⟩
    -- the transaction leaves the active set, and its end looks at the map next
    rintro (hon | ⟨how', hb⟩)
    · by_cases ht' : t' = t
      · exact .inr ⟨how, ht' ▸ hnew⟩
      · exact .inl (mem_active_remove.mpr ⟨ht', hon⟩)
    · exact .inr ⟨how', mem_set_of_ne hi hb nofun⟩
  obtain ⟨b, t'', hb⟩ := hwk hf
  exact ⟨b, t'', mem_set_of_ne hi hb nofun⟩

theorem fits_notified (b : Notifier) (t : Nat) : Fits w (World.notified b t) := by
  cases b <;> exact trivial

/-- The entry leaves the map, and the one who took it sets its flag next. -/
theorem good_notify_waiters (h : Good w) (hi : w.calls[i]? = some (.notify_waiters b t))
    (htook : ∀ e, w.waiters t = some e → c' = .set_flag b t e)
    (hnone : w.waiters t = none → c' = World.notified b t) :
    Good ({ w with waiters := update w.waiters t none }.setCall i c') := by
  obtain ⟨ht, hoff⟩ : t < w.tm.next_txn_id ∧ t ∉ w.tm.active_txns := h.fits _ (mem_of_getElem? hi)
  have hnew := mem_set (lt_of_getElem? hi) c'
  refine ⟨h.ids, fun t' e he => ?_, fun d hd => ?_⟩
  · simp only [World.setCall, update_apply] at he
    split at he
    · cases he
    · exact h.entries t' e he
  rcases mem_or_eq_of_mem_set hd with hd | rfl
  · refine (h.fits d hd).mono le_rfl le_rfl (fun _ _ hon => hon) (fun t' e hon he => ?_)
      (fun t' e _ _ hk => ?_) fun _ e _ _ hwk hf => ?_
    · have hne : t' ≠ t := by
        rintro rfl
        exact hoff hon
      simp only [World.setCall, update_of_ne hne]
      exact he
    · rcases hk with hf | ⟨b', hb⟩ | ⟨hm, hdue⟩
      · exact .inl hf
      · exact .inr (.inl ⟨b', mem_set_of_ne hi hb nofun⟩)
      by_cases htt : t' = t
      · subst htt
        exact .inr (.inl ⟨b, htook e hm ▸ hnew⟩)
      refine .inr (.inr ⟨?_, hdue.imp_right ?_⟩)
      · simp only [World.setCall, update_of_ne htt]
        exact hm
      rintro ⟨how, hb⟩
      refine ⟨how, mem_set_of_ne hi hb ?_⟩
      rintro he
      cases he
      exact htt rfl
    obtain ⟨b', t'', hb⟩ := hwk hf
    exact ⟨b', t'', mem_set_of_ne hi hb nofun⟩
  cases hw : w.waiters t with
  | some e =>
    rw [htook e hw]
    exact h.entries t e hw
  | none =>
    rw [hnone hw]
    exact fits_notified b t

theorem good_set_flag (h : Good w) (hi : w.calls[i]? = some (.set_flag b t e)) :
    Good ({ w with flags := update w.flags e true }.setCall i (.notify_all b t e)) := by
  have he : e < w.next_entry := h.fits _ (mem_of_getElem? hi)
  have hnew := mem_set (lt_of_getElem? hi) (Call.notify_all b t e)
  refine ⟨h.ids, h.entries, fun d hd => ?_⟩
  rcases mem_or_eq_of_mem_set hd with hd | rfl
  swap
  · exact he
  refine (h.fits d hd).mono le_rfl le_rfl (fun _ _ hon => hon) (fun _ _ _ he => he)
    (fun t' e' _ _ hk => ?_) fun _ e' _ _ hwk hf => ?_
  · unfold World.Kept
    simp only [World.setCall, update_apply]
    by_cases hee : e' = e
    · rw [if_pos hee]
      exact .inl rfl
    rw [if_neg hee]
    refine hk.imp_right (Or.imp ?_ (And.imp_right (Or.imp_right ?_)))
    · rintro ⟨b', hb⟩
      refine ⟨b', mem_set_of_ne hi hb ?_⟩
      rintro he
      cases he
      exact hee rfl
    rintro ⟨how, hb⟩
    exact ⟨how, mem_set_of_ne hi hb nofun⟩
  by_cases hee : e' = e
  · subst hee
    exact ⟨b, t, hnew⟩
  simp only [World.setCall, update_of_ne hee] at hf
  obtain ⟨b', t'', hb⟩ := hwk hf
  exact ⟨b', t'', mem_set_of_ne hi hb nofun⟩

theorem wake_eq : World.wake e d = d ∨ ∃ t, d = .asleep t e ∧ World.wake e d = .lock_entry t e := by
  unfold World.wake
  split
  · split
    · next t e' he =>
      subst he
      exact .inr ⟨t, rfl, rfl⟩
    · exact .inl rfl
  · exact .inl rfl

theorem wake_of_ne (h : ∀ t, d ≠ .asleep t e) : World.wake e d = d :=
  wake_eq.resolve_right fun ⟨t, ht, _⟩ => h t ht

theorem good_notify_all (h : Good w) (hi : w.calls[i]? = some (.notify_all b t e)) :
    Good ({ w with calls := w.calls.map (World.wake e) }.setCall i (World.notified b t)) := by
  have hi' : (w.calls.map (World.wake e))[i]? = some (.notify_all b t e) := by
    rw [getElem?_map, hi]
    rfl
  have hmem : ∀ d ∈ w.calls, (∀ t', d ≠ .asleep t' e) → d ≠ .notify_all b t e →
      d ∈ (w.calls.map (World.wake e)).set i (World.notified b t) := by
    intro d hd hawake hne
    refine mem_set_of_ne hi' ?_ hne
    have := mem_map_of_mem (f := World.wake e) hd
    rw [wake_of_ne hawake] at this
    exact this
  refine ⟨h.ids, h.entries, fun d hd => ?_⟩
  rcases mem_or_eq_of_mem_set hd with hd | rfl
  swap
  · exact fits_notified b t
  obtain ⟨d', hd', rfl⟩ := mem_map.mp hd
  have hkept : ∀ t' e', w.Kept t' e' → World.Kept
      ({ w with calls := w.calls.map (World.wake e) }.setCall i (World.notified b t)) t' e' := by
    intro t' e' hk
    refine hk.imp_right (Or.imp ?_ (And.imp_right (Or.imp_right ?_)))
    · rintro ⟨b', hb⟩
      exact ⟨b', hmem _ hb nofun nofun⟩
    rintro ⟨how, hb⟩
    exact ⟨how, hmem _ hb nofun nofun⟩
  rcases wake_eq (e := e) (d := d') with hsame | ⟨t', rfl, hwake⟩
  · rw [hsame]
    refine (h.fits d' hd').mono le_rfl le_rfl (fun _ _ hon => hon) (fun _ _ _ he => he)
      (fun t' e' _ _ => hkept t' e') ?_
    -- whoever still sleeps does so on another entry
    rintro t' e' rfl _ hwk hf
    have hee : e' ≠ e := by
      rintro rfl
      simp [World.wake] at hsame
    obtain ⟨b', t'', hb⟩ := hwk hf
    refine ⟨b', t'', hmem _ hb nofun ?_⟩
    rintro he
    cases he
    exact hee rfl
  rw [hwake]
  obtain ⟨ht', he', hk, -⟩ := h.fits _ hd'
  exact ⟨ht', he', hkept t' e hk⟩

theorem good_begin (h : Good w) : Good { w with tm := w.tm.begin.2 } := by
  have hactive : ∀ t, t ∈ w.tm.begin.2.active_txns ↔ t = w.tm.next_txn_id ∨ t ∈ w.tm.active_txns :=
    fun t => AList.mem_insert _
  refine ⟨fun t hon => ?_, h.entries, fun d hd => ?_⟩
  · rcases (hactive t).mp hon with rfl | hon
    · exact Nat.lt_succ_self _
    · exact Nat.lt_succ_of_lt (h.ids t hon)
  refine (h.fits d hd).mono (Nat.le_succ _) le_rfl (fun t ht hon => ?_) (fun _ _ _ he => he)
    (fun t e _ _ hk => ?_) fun _ _ _ _ hwk => hwk
  · exact ((hactive t).mp hon).resolve_left (Nat.ne_of_lt ht)
  exact hk.imp_right (Or.imp_right (And.imp_right (Or.imp_left fun hon =>
    (hactive t).mpr (.inr hon))))

theorem Good.call (h : Good w) (hfits : Fits w c) : Good (w.call c) := by
  refine ⟨h.ids, h.entries, fun d hd => ?_⟩
  have hfit : Fits w d := by
    rcases mem_append.mp hd with hd | hd
    · exact h.fits d hd
    · exact mem_singleton.mp hd ▸ hfits
  refine hfit.mono le_rfl le_rfl (fun _ _ hon => hon) (fun _ _ _ he => he) (fun t e _ _ hk => ?_)
    fun _ e _ _ hwk hf => ?_
  · refine hk.imp_right (Or.imp ?_ (And.imp_right (Or.imp_right ?_)))
    · rintro ⟨b, hb⟩
      exact ⟨b, mem_append_left _ hb⟩
    rintro ⟨how, hb⟩
    exact ⟨how, mem_append_left _ hb⟩
  obtain ⟨b, t, hb⟩ := hwk hf
  exact ⟨b, t, mem_append_left _ hb⟩

theorem good_runCall (h : Good w) (hi : w.calls[i]? = some c) (hstep : w.runCall i c = some w') :
    Good w' := by
  have hfit := h.fits c (mem_of_getElem? hi)
  cases c with
  | wait t =>
    cases hstep
    refine h.move hi rfl ?_
    split
    · next hon => exact h.ids t (of_decide_eq_true hon)
    · exact trivial
  | install t =>
    cases hstep
    exact good_install h hi
  | recheck t e =>
    cases hstep
    obtain ⟨ht, he, hm⟩ := hfit
    refine h.move hi rfl ?_
    split
    · next hon =>
      have hon := of_decide_eq_true hon
      exact ⟨ht, he, .inr (.inr ⟨hm hon, .inl hon⟩)⟩
    · next hoff => exact ⟨ht, of_decide_eq_false (Bool.eq_false_iff.mpr hoff)⟩
  | lock_entry t e =>
    cases hstep
    obtain ⟨ht, he, hk⟩ := hfit
    refine h.move hi rfl ?_
    split
    · exact trivial
    · next hf => exact ⟨ht, he, hk, fun hset => absurd hset hf⟩
  | finish how t wrote_anything =>
    cases wrote_anything <;> cases how <;> cases hstep <;> exact h.move hi rfl hfit
  | log how t => cases how <;> cases hstep <;> exact h.move hi rfl hfit
  | flush_up_to t =>
    cases hstep
    exact h.move hi rfl hfit
  | mark how t committed =>
    cases hstep
    have hmove : Good (w.setCall i (.mark_active how t)) := h.move hi rfl hfit
    refine ⟨hmove.ids, hmove.entries, fun d hd => ?_⟩
    exact (hmove.fits d hd).mono le_rfl le_rfl (fun _ _ hon => hon) (fun _ _ _ he => he)
      (fun _ _ _ _ hk => hk) fun _ _ _ _ hwk => hwk
  | mark_active how t =>
    cases hstep
    exact good_mark_active h hi
  | notify_waiters b t =>
    simp only [World.runCall] at hstep
    split at hstep
    · next e he =>
      cases hstep
      refine good_notify_waiters h hi (fun e' he' => ?_) fun hnone => ?_
      · rw [Option.some.inj (he.symm.trans he')]
      rw [he] at hnone
      cases hnone
    rename_i hnone
    cases hstep
    refine good_notify_waiters h hi (fun e he => ?_) fun _ => rfl
    rw [hnone] at he
    cases he
  | set_flag b t e =>
    cases hstep
    exact good_set_flag h hi
  | notify_all b t e =>
    cases hstep
    exact good_notify_all h hi
  | asleep t e | ended how t | settled t => cases hstep

theorem good_step (w : World) (e : Event) (w' : World) (h : Good w) (hstep : w.step e = some w') :
    Good w' := by
  cases e with
  | begin =>
    simp only [World.step] at hstep
    split at hstep <;> cases hstep
    exact good_begin h
  | wait_until_settled t =>
    cases hstep
    exact h.call trivial
  | finish how t wrote_anything =>
    simp only [World.step] at hstep
    split at hstep <;> cases hstep
    next ht => exact h.call ht.1
  | run i =>
    obtain ⟨c, hi, hrun⟩ := Option.bind_eq_some_iff.mp hstep
    exact good_runCall h hi hrun
  | fail i =>
    obtain ⟨c, hi, hfail⟩ := Option.bind_eq_some_iff.mp hstep
    have hfit := h.fits c (mem_of_getElem? hi)
    cases c with
    | log how t =>
      cases how with
      | commit =>
        cases hfail
        exact h.move hi rfl hfit
      | abort | drop =>
        cases hfail
        exact h.move hi rfl trivial
    | flush_up_to t =>
      cases hfail
      exact h.move hi rfl hfit
    | _ => cases hfail
  | spurious i =>
    simp only [World.step] at hstep
    split at hstep
    · next t e hi =>
      cases hstep
      obtain ⟨ht, he, hk, -⟩ := h.fits _ (mem_of_getElem? hi)
      exact h.move hi rfl ⟨ht, he, hk⟩
    · cases hstep

end Steps

/-! ## No lost wakeup -/

/-- The call marks the transaction as settled, or still notifies its waiters for that. -/
def Call.marks (t : Nat) : Call → Bool
  | .mark _ t' _ | .mark_active _ t' | .notify_waiters (.ended _) t' | .set_flag (.ended _) t' _
  | .notify_all (.ended _) t' _ => t' == t
  | _ => false

/-- A caller that sleeps on an entry with the flag down, after the transaction has left the
active set and its end has notified the waiters, is released by another waiter: that one has
taken the entry from the map and sets the flag next. -/
theorem a_sleeper_is_released (p : List Event) (w : World)
    (hrun : Runs.run World.step World.new p = some w) (t e : Nat)
    (hasleep : .asleep t e ∈ w.calls) (hflag : w.flags e = false) (hoff : t ∉ w.tm.active_txns)
    (hended : ∀ c ∈ w.calls, c.marks t = false) : .set_flag .waiter t e ∈ w.calls := by
  have h : Good w := Runs.inv_run good_step good_new hrun
  obtain ⟨-, -, hkept, -⟩ := h.fits _ hasleep
  rcases hkept with hf | ⟨b, hb⟩ | ⟨-, hon | ⟨how, hb⟩⟩
  · rw [hflag] at hf
    cases hf
  · cases b with
    | waiter => exact hb
    | ended how =>
      have := hended _ hb
      simp [Call.marks] at this
  · exact absurd hon hoff
  · have := hended _ hb
    simp [Call.marks] at this

/-- A caller that sleeps on an entry with the flag up is woken next. -/
theorem a_set_flag_is_announced {p : List Event} {w : World}
    (hrun : Runs.run World.step World.new p = some w) (hasleep : .asleep t e ∈ w.calls)
    (hflag : w.flags e = true) : ∃ b t', .notify_all b t' e ∈ w.calls := by
  have h : Good w := Runs.inv_run good_step good_new hrun
  obtain ⟨-, -, -, hwoken⟩ := h.fits _ hasleep
  exact hwoken hflag

/-- A caller sleeps until 1 is settled, and the commit of 1 has set its flag. -/
def flagRaised : List Event :=
  [.begin, .wait_until_settled 1, .run 0, .run 0, .run 0, .run 0, .finish .commit 1 false, .run 1,
    .run 1, .run 1, .run 1, .run 1]

theorem the_commit_wakes_the_sleeper :
    ∃ w, Runs.run World.step World.new flagRaised = some w ∧ .asleep 1 0 ∈ w.calls ∧
      ∃ b t, .notify_all b t 0 ∈ w.calls := by
  have hex : ∃ w, Runs.run World.step World.new flagRaised = some w ∧ .asleep 1 0 ∈ w.calls ∧
      w.flags 0 = true := Runs.exists_run (by decide +kernel)
  obtain ⟨w, hrun, hasleep, hflag⟩ := hex
  exact ⟨w, hrun, hasleep, a_set_flag_is_announced hrun hasleep hflag⟩

/-- Two callers wait for transaction 1 on one entry. The second finds 1 settled and takes the
entry from the map; the commit of 1 then finds nobody to notify and returns. -/
def helpedRelease : List Event :=
  [.begin, .wait_until_settled 1, .run 0, .run 0, .run 0, .run 0, .wait_until_settled 1, .run 1,
    .run 1, .finish .commit 1 false, .run 2, .run 2, .run 2, .run 1, .run 1, .run 2]

theorem a_sleeper_whose_flag_is_still_down :
    ∃ w, Runs.run World.step World.new helpedRelease = some w ∧ .asleep 1 0 ∈ w.calls ∧
      w.flags 0 = false ∧ 1 ∉ w.tm.active_txns ∧ .ended .commit 1 ∈ w.calls ∧
      ∀ c ∈ w.calls, c.marks 1 = false :=
  Runs.exists_run (by decide +kernel)

theorem the_second_waiter_releases_the_first :
    ∃ w, Runs.run World.step World.new helpedRelease = some w ∧
      .set_flag .waiter 1 0 ∈ w.calls := by
  have hex : ∃ w, Runs.run World.step World.new helpedRelease = some w ∧ .asleep 1 0 ∈ w.calls ∧
      w.flags 0 = false ∧ 1 ∉ w.tm.active_txns ∧ ∀ c ∈ w.calls, c.marks 1 = false :=
    Runs.exists_run (by decide +kernel)
  obtain ⟨w, hrun, hasleep, hflag, hoff, hended⟩ := hex
  exact ⟨w, hrun, a_sleeper_is_released helpedRelease w hrun 1 0 hasleep hflag hoff hended⟩

end FluxDB.Waiters
