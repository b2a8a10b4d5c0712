-- The end of a transaction settles it: whatever the log calls return, a commit, an abort or
-- the drop of a handle leaves the transaction settled in the CLOG, out of the active set and
-- without waiters. The one way out is an `abort` whose record cannot be appended.
import FluxDB.Waiters

namespace FluxDB.Waiters

open Maps List Option

/-- The CLOG has the final status of the transaction. -/
def World.Final (w : World) (t : Nat) : Prop :=
  w.tm.clog.lookup t = some .Committed ∨ w.tm.clog.lookup t = some .Aborted

/-- The transaction is settled for everybody: in the CLOG, in the active set, and for each
caller that waits for it. A waiter that found it settled may be the one that lets another go. -/
structure Settled (w : World) (t : Nat) : Prop where
  final : w.Final t
  out : t ∉ w.tm.active_txns
  released : ∀ e, .asleep t e ∈ w.calls → w.flags e = true ∨ .set_flag .waiter t e ∈ w.calls

/-- The call appends an `Abort` record next. -/
def Call.logsAbort : Call → Bool
  | .log how _ => how != .commit
  | _ => false

/-- The append of an `Abort` record does not fail. -/
def Careful (w : World) : Event → Prop
  | .fail i => ∀ c ∈ w.calls[i]?, c.logsAbort = false
  | _ => True

instance (w : World) (e : Event) : Decidable (Careful w e) := by
  cases e <;> dsimp only [Careful] <;> infer_instance

/-! ## How far an end has come -/

/-- The call has written the CLOG entry. -/
def Call.clogged (t : Nat) : Call → Bool
  | .mark_active _ t' | .notify_waiters (.ended _) t' | .set_flag (.ended _) t' _
  | .notify_all (.ended _) t' _ | .ended _ t' => t' == t
  | _ => false

/-- The call has taken the transaction out of the active set. -/
def Call.removed (t : Nat) : Call → Bool
  | .notify_waiters (.ended _) t' | .set_flag (.ended _) t' _ | .notify_all (.ended _) t' _
  | .ended _ t' => t' == t
  | _ => false

/-- What is true of a transaction while it ends. -/
structure Ending (w : World) : Prop where
  begun : ∀ c ∈ w.calls, ∀ t, c.ends t = true → t < w.tm.next_txn_id
  once : ∀ (i j : Nat) c d t, i ≠ j → w.calls[i]? = some c → w.calls[j]? = some d →
    c.ends t = true → d.ends t = false
  final : ∀ c ∈ w.calls, ∀ t, c.clogged t = true → w.Final t
  out : ∀ c ∈ w.calls, ∀ t, c.removed t = true → t ∉ w.tm.active_txns

theorem ending_new : Ending World.new where
  begun := nofun
  once := nofun
  final := nofun
  out := nofun

section Steps

variable {w w' : World} {i : Nat} {c c' : Call}

theorem Call.clogged_of_removed {t : Nat} (h : c.removed t = true) : c.clogged t = true := by
  cases c with
  | notify_waiters b t' | set_flag b t' e | notify_all b t' e => cases b <;> exact h
  | ended how t' => exact h
  | _ => cases h

theorem Call.ends_of_clogged {t : Nat} (h : c.clogged t = true) : c.ends t = true := by
  cases c with
  | notify_waiters b t' | set_flag b t' e | notify_all b t' e => cases b <;> exact h
  | mark_active how t' | ended how t' => exact h
  | _ => cases h

/-- A call moves on. Its transaction stays the same, and what it has done to the CLOG and to
the active set is there. -/
theorem Ending.set (h : Ending w) (hi : w.calls[i]? = some c)
    (hcalls : w'.calls = w.calls.set i c') (hends : ∀ t, c'.ends t = true → c.ends t = true)
    (hnext : w.tm.next_txn_id ≤ w'.tm.next_txn_id) (hfinal : ∀ t, w.Final t → w'.Final t)
    (hactive : ∀ t, t ∈ w'.tm.active_txns → t ∈ w.tm.active_txns)
    (hclogged : ∀ t, c'.clogged t = true → c.clogged t = true ∨ w'.Final t)
    (hremoved : ∀ t, c'.removed t = true → c.removed t = true ∨ t ∉ w'.tm.active_txns) :
    Ending w' := by
  have hmem : c ∈ w.calls := mem_of_getElem? hi
  constructor
  · intro d hd t hdt
    rw [hcalls] at hd
    rcases mem_or_eq_of_mem_set hd with hd | rfl
    · exact lt_of_lt_of_le (h.begun d hd t hdt) hnext
    · exact lt_of_lt_of_le (h.begun c hmem t (hends t hdt)) hnext
  · intro j k d e t hne hj hk hdt
    rw [hcalls, getElem?_set_eq_ite hi] at hj hk
    split at hj <;> split at hk
    · next h1 h2 => exact absurd (h1.trans h2.symm) hne
    · next h1 h2 =>
      cases hj
      exact h.once i k c e t (Ne.symm h2) hi hk (hends t hdt)
    · next h1 h2 =>
      cases hk
      refine Bool.eq_false_iff.mpr fun he => ?_
      have := h.once j i d c t h1 hj hi hdt
      rw [hends t he] at this
      cases this
    · exact h.once j k d e t hne hj hk hdt
  · intro d hd t hdt
    rw [hcalls] at hd
    rcases mem_or_eq_of_mem_set hd with hd | rfl
    · exact hfinal t (h.final d hd t hdt)
    · exact (hclogged t hdt).elim (fun hc => hfinal t (h.final c hmem t hc)) id
  intro d hd t hdt
  rw [hcalls] at hd
  rcases mem_or_eq_of_mem_set hd with hd | rfl
  · exact fun hon => h.out d hd t hdt (hactive t hon)
  · exact (hremoved t hdt).elim (fun hc hon => h.out c hmem t hc (hactive t hon)) id

/-- A call moves on, and the manager stays as it is. -/
theorem Ending.move (h : Ending w) (hi : w.calls[i]? = some c)
    (hcalls : w'.calls = w.calls.set i c') (htm : w'.tm = w.tm)
    (hends : ∀ t, c'.ends t = true → c.ends t = true)
    (hclogged : ∀ t, c'.clogged t = true → c.clogged t = true)
    (hremoved : ∀ t, c'.removed t = true → c.removed t = true) : Ending w' := by
  refine h.set hi hcalls hends (htm ▸ le_rfl) (fun t ht => ?_) (fun t ht => htm ▸ ht)
    (fun t ht => .inl (hclogged t ht)) fun t ht => .inl (hremoved t ht)
  unfold World.Final
  rw [htm]
  exact ht

theorem Ending.wake (h : Ending w) (e : Nat) :
    Ending { w with calls := w.calls.map (World.wake e) } := by
  have hsame : ∀ (d : Call) t, (World.wake e d).ends t = d.ends t ∧
      (World.wake e d).clogged t = d.clogged t ∧ (World.wake e d).removed t = d.removed t := by
    intro d t
    rcases wake_eq (e := e) (d := d) with hd | ⟨t', rfl, hd⟩
    · rw [hd]
      exact ⟨rfl, rfl, rfl⟩
    rw [hd]
    exact ⟨rfl, rfl, rfl⟩
  constructor
  · intro d hd t hdt
    obtain ⟨d, hmem, rfl⟩ := mem_map.mp hd
    exact h.begun d hmem t ((hsame d t).1 ▸ hdt)
  · intro j k d d' t hne hj hk hdt
    simp only [getElem?_map, map_eq_some_iff] at hj hk
    obtain ⟨d, hj, rfl⟩ := hj
    obtain ⟨d', hk, rfl⟩ := hk
    rw [(hsame d' t).1]
    exact h.once j k d d' t hne hj hk ((hsame d t).1 ▸ hdt)
  · intro d hd t hdt
    obtain ⟨d, hmem, rfl⟩ := mem_map.mp hd
    exact h.final d hmem t ((hsame d t).2.1 ▸ hdt)
  intro d hd t hdt
  obtain ⟨d, hmem, rfl⟩ := mem_map.mp hd
  exact h.out d hmem t ((hsame d t).2.2 ▸ hdt)

theorem final_mark {t t' : Nat} {committed : Bool} (h : t' = t ∨ w.Final t') :
    World.Final { w with tm := w.tm.clog_insert t (if committed then .Committed else .Aborted) }
      t' := by
  unfold World.Final TransactionManager.clog_insert
  rw [lookup_insert_eq_ite]
  by_cases ht : t' = t
  · rw [if_pos ht]
    cases committed with
    | true => exact .inl rfl
    | false => exact .inr rfl
  rw [if_neg ht]
  exact h.resolve_left ht

theorem ending_runCall (h : Ending w) (hi : w.calls[i]? = some c)
    (hstep : w.runCall i c = some w') : Ending w' := by
  cases c with
  | wait t | recheck t e | lock_entry t e =>
    cases hstep
    refine h.move hi rfl rfl ?_ ?_ ?_ <;> intro t' <;> split <;> exact nofun
  | install t =>
    cases hstep
    unfold World.install
    split <;> exact h.move hi rfl rfl nofun nofun nofun
  | finish how t wrote_anything =>
    cases wrote_anything <;> cases how <;> cases hstep <;>
      exact h.move hi rfl rfl (fun _ ht => ht) nofun nofun
  | log how t =>
    cases how <;> cases hstep <;> exact h.move hi rfl rfl (fun _ ht => ht) nofun nofun
  | flush_up_to t =>
    cases hstep
    exact h.move hi rfl rfl (fun _ ht => ht) nofun nofun
  | mark how t committed =>
    cases hstep
    refine h.set hi rfl (fun _ ht => ht) le_rfl (fun t' ht => final_mark (.inr ht))
      (fun _ hon => hon) (fun t' ht => .inr ?_) nofun
    exact final_mark (.inl (beq_iff_eq.mp ht).symm)
  | mark_active how t =>
    cases hstep
    refine h.set hi rfl (fun _ ht => ht) le_rfl (fun _ ht => ht)
      (fun t' hon => (mem_active_remove.mp hon).2) (fun t' ht => .inl ht) fun t' ht => .inr ?_
    exact fun hon => (mem_active_remove.mp hon).1 (beq_iff_eq.mp ht).symm
  | notify_waiters b t =>
    simp only [World.runCall] at hstep
    split at hstep <;> cases hstep <;> cases b <;>
      exact h.move hi rfl rfl (fun _ ht => ht) (fun _ ht => ht) fun _ ht => ht
  | set_flag b t e =>
    cases hstep
    cases b <;> exact h.move hi rfl rfl (fun _ ht => ht) (fun _ ht => ht) fun _ ht => ht
  | notify_all b t e =>
    cases hstep
    have hi' : (w.calls.map (World.wake e))[i]? = some (.notify_all b t e) := by
      rw [getElem?_map, hi]
      rfl
    cases b <;>
      exact (h.wake e).move hi' rfl rfl (fun _ ht => ht) (fun _ ht => ht) fun _ ht => ht
  | asleep t e | ended how t | settled t => cases hstep

theorem Ending.call (h : Ending w) (hbegun : ∀ t, c.ends t = true → t < w.tm.next_txn_id)
    (honce : ∀ t, c.ends t = true → ∀ d ∈ w.calls, d.ends t = false)
    (hclogged : ∀ t, c.clogged t = false) : Ending (w.call c) := by
  have hremoved : ∀ t, c.removed t = false := fun t => Bool.eq_false_iff.mpr fun hr => by
    have := Call.clogged_of_removed hr
    rw [hclogged t] at this
    cases this
  constructor
  · exact forall_mem_concat h.begun hbegun
  · intro j k d d' t hne hj hk hdt
    rcases getElem?_concat_cases hj with hj' | ⟨hlast, rfl⟩
    · rcases getElem?_concat_cases hk with hk' | ⟨-, rfl⟩
      · exact h.once j k d d' t hne hj' hk' hdt
      refine Bool.eq_false_iff.mpr fun hct => ?_
      rw [honce t hct d (mem_of_getElem? hj')] at hdt
      cases hdt
    rcases getElem?_concat_cases hk with hk' | ⟨hlast', -⟩
    · exact honce t hdt d' (mem_of_getElem? hk')
    · exact absurd (hlast.trans hlast'.symm) hne
  · refine forall_mem_concat h.final fun t hdt => ?_
    rw [hclogged t] at hdt
    cases hdt
  refine forall_mem_concat h.out fun t hdt => ?_
  rw [hremoved t] at hdt
  cases hdt

/-- A transaction that begins has an id that no end has seen. -/
theorem ending_begin (h : Ending w) : Ending { w with tm := w.tm.begin.2 } := by
  refine ⟨fun d hd t hdt => Nat.lt_succ_of_lt (h.begun d hd t hdt), h.once, fun d hd t hdt => ?_,
    fun d hd t hdt => ?_⟩
  · have hlt := h.begun d hd t (Call.ends_of_clogged hdt)
    have hsame : w.tm.begin.2.clog.lookup t = w.tm.clog.lookup t :=
      (lookup_insert_eq_ite _ _ _ _).trans (if_neg (Nat.ne_of_lt hlt))
    unfold World.Final
    simp only [hsame]
    exact h.final d hd t hdt
  have hlt := h.begun d hd t (Call.ends_of_clogged (Call.clogged_of_removed hdt))
  intro hon
  have hon : t = w.tm.next_txn_id ∨ t ∈ w.tm.active_txns := (AList.mem_insert _).mp hon
  exact h.out d hd t hdt (hon.resolve_left (Nat.ne_of_lt hlt))

theorem ending_step (w : World) (e : Event) (w' : World) (h : Ending w) (hok : Careful w e)
    (hstep : w.step e = some w') : Ending w' := by
  have hno {p : Nat → Prop} (t : Nat) : false = true → p t := Bool.noConfusion
  cases e with
  | begin =>
    simp only [World.step] at hstep
    split at hstep <;> cases hstep
    exact ending_begin h
  | wait_until_settled t =>
    cases hstep
    exact h.call hno hno fun _ => rfl
  | finish how t wrote_anything =>
    simp only [World.step] at hstep
    split at hstep <;> cases hstep
    next hguard =>
    refine h.call (fun t' ht => ?_) (fun t' ht => ?_) fun _ => rfl
    · rw [← beq_iff_eq.mp ht]
      exact hguard.1
    rw [← beq_iff_eq.mp ht]
    exact hguard.2
  | run i =>
    obtain ⟨c, hi, hrun⟩ := bind_eq_some_iff.mp hstep
    exact ending_runCall h hi hrun
  | fail i =>
    obtain ⟨c, hi, hfail⟩ := bind_eq_some_iff.mp hstep
    cases c with
    | log how t =>
      cases how with
      | commit =>
        cases hfail
        exact h.move hi rfl rfl (fun _ ht => ht) hno hno
      | abort => cases hok _ hi
      | drop => cases hok _ hi
    | flush_up_to t =>
      cases hfail
      exact h.move hi rfl rfl (fun _ ht => ht) hno hno
    | _ => cases hfail
  | spurious i =>
    simp only [World.step] at hstep
    split at hstep
    · next t e hi =>
      cases hstep
      exact h.move hi rfl rfl hno hno hno
    · cases hstep

end Steps

/-! ## Every end settles its transaction -/

/-- In a run in which no `Abort` record is refused by the log, every call that has ended a
transaction has settled it. -/
theorem an_ended_transaction_is_settled (p : List Event) (w : World)
    (hrun : Runs.run World.step World.new p = some w)
    (hok : Runs.Meets World.step Careful World.new p) (how : End) (t : Nat)
    (hended : .ended how t ∈ w.calls) : Settled w t := by
  have h : Ending w := Runs.inv_run_meets ending_step ending_new hok hrun
  have hgood : Good w := Runs.inv_run good_step good_new hrun
  have hout : t ∉ w.tm.active_txns := h.out _ hended t (beq_self_eq_true t)
  obtain ⟨i, hi⟩ := List.mem_iff_getElem?.mp hended
  -- the end has returned, so no other call ends the transaction
  have hother : ∀ d ∈ w.calls, d ≠ .ended how t → d.ends t = false := by
    intro d hd hne
    obtain ⟨j, hj⟩ := List.mem_iff_getElem?.mp hd
    refine h.once i j _ d t ?_ hi hj (beq_self_eq_true t)
    rintro rfl
    exact hne (Option.some.inj (hj.symm.trans hi))
  refine ⟨h.final _ hended t (beq_self_eq_true t), hout, fun e hasleep => ?_⟩
  obtain ⟨-, -, hkept, -⟩ := hgood.fits _ hasleep
  rcases hkept with hf | ⟨b, hb⟩ | ⟨-, hon | ⟨how', hb⟩⟩
  · exact Or.inl hf
  · cases b with
    | waiter => exact Or.inr hb
    | ended how' =>
      have := hother _ hb nofun
      simp [Call.ends] at this
  · exact absurd hon hout
  · have := hother _ hb nofun
    simp [Call.ends] at this

/-- Transaction 1 wrote and a caller waits for it. Its commit cannot be flushed. -/
def failedFlush : List Event :=
  [.begin, .wait_until_settled 1, .run 0, .run 0, .run 0, .run 0, .finish .commit 1 true, .run 1,
    .run 1, .fail 1, .run 1, .run 1, .run 1, .run 1, .run 1]

theorem a_failed_flush_settles_the_transaction :
    ∃ w, Runs.run World.step World.new failedFlush = some w ∧ Settled w 1 := by
  have hex : ∃ w, Runs.run World.step World.new failedFlush = some w ∧
      .ended .commit 1 ∈ w.calls := Runs.exists_run (by decide +kernel)
  obtain ⟨w, hrun, hended⟩ := hex
  have hok : Runs.Meets World.step Careful World.new failedFlush := by decide +kernel
  exact ⟨w, hrun, an_ended_transaction_is_settled failedFlush w hrun hok .commit 1 hended⟩

/-- Transaction 1 wrote and a caller waits for it. Its `Abort` record is refused, so `abort`
returns the error and leaves everything as it is. -/
theorem a_refused_abort_record_leaves_the_transaction_active :
    ∃ w, Runs.run World.step World.new
        [.begin, .wait_until_settled 1, .run 0, .run 0, .run 0, .run 0, .finish .drop 1 true,
          .run 1, .fail 1] = some w ∧
      .ended .drop 1 ∈ w.calls ∧ w.tm.clog.lookup 1 = some .Active ∧ 1 ∈ w.tm.active_txns ∧
      .asleep 1 0 ∈ w.calls ∧ w.flags 0 = false ∧ ∀ c ∈ w.calls, c.marks 1 = false :=
  Runs.exists_run (by decide +kernel)

end FluxDB.Waiters
