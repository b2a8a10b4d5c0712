-- Every call of the log can return. A call that holds a lock can run until it lets go of it, and
-- when nobody holds one, the leader, then those that have yet to notify, then all the others can
-- each be run alone until they have returned.
import FluxDB.FollowerWakeups

namespace FluxDB.WalThreads

open Maps List Option

/-! ## One call by itself -/

/-- How many steps a flush needs at most from the head of its loop. -/
def World.round (w : World) (target : Nat) : Nat :=
  if target ≤ w.flushed_lsn then 1
  else if w.flush_error.isSome then 3 else 16 + w.buffer.records.length

/-- How many steps a call needs at most while no other call flushes or holds a lock. -/
def World.remaining (w : World) : Call → Nat
  | .append stage =>
    match stage with
    | .start _ => 4
    | .lock _ => 3
    | .locked _ => 2
    | .push _ _ => 1
    | .ok _ | .err _ => 0
  | .flush_up_to target stage =>
    match stage with
    | .start => 17 + w.buffer.records.length
    | .fast => w.round target
    | .lock_state => if w.flush_error.isSome then 2 else 15 + w.buffer.records.length
    | .locked => if w.flush_error.isSome then 1 else 14 + w.buffer.records.length
    | .lock_gate => 4 + w.round target
    | .gated => 3 + w.round target
    | .gated_failed => 2 + w.round target
    | .gated_active => 1 + w.round target
    | .woken => 1 + w.round target
    | .elected => 13 + w.buffer.records.length
    | .active => 12 + w.buffer.records.length
    | .lock_writer _ records => 11 + records.length
    | .writing _ records => 10 + records.length
    | .written _ _ => 9
    | .publish _ _ => 8
    | .publish_active _ _ => 7
    | .publish_result _ _ => 6
    | .found_empty => 5
    | .empty_active => 4
    | .announce again => 2 + if again then w.round target else 1
    | .notify again => 1 + if again then w.round target else 1
    | .gated_wait | .parked | .ok | .err _ => 0

/-- The call is parked or about to be. -/
def Call.isAsleep (c : Call) : Bool := c.isWaiting || c.isParked

/-- No other call holds a lock or flushes. -/
def Alone (w : World) (i : Nat) : Prop :=
  ∀ (j : Nat) d, j ≠ i → w.calls[j]? = some d →
    d.holdsState = false ∧ d.holdsGate = false ∧ d.flushing = false

/-- The other calls are as they were, but for a wakeup. -/
def OthersKept (w w' : World) (i : Nat) : Prop :=
  ∀ j, j ≠ i → w'.calls[j]? = w.calls[j]? ∨ w'.calls[j]? = w.calls[j]?.map Call.wake

theorem Call.wake_wake (c : Call) : c.wake.wake = c.wake := by
  cases c with
  | append stage => rfl
  | flush_up_to target stage => cases stage <;> rfl

theorem OthersKept.refl (w : World) (i : Nat) : OthersKept w w i := fun _ _ => .inl rfl

theorem OthersKept.trans {a b c : World} {i : Nat} (h : OthersKept a b i) (h' : OthersKept b c i) :
    OthersKept a c i := by
  intro j hj
  rcases h j hj with hab | hab <;> rcases h' j hj with hbc | hbc <;> rw [hbc, hab]
  · exact .inl rfl
  · exact .inr rfl
  · exact .inr rfl
  right
  rw [Option.map_map]
  congr 1
  funext d
  exact d.wake_wake

/-- A test that does not see a wakeup is true of the same calls as before. -/
theorem OthersKept.apply {w w' : World} {i j : Nat} {d : Call} (h : OthersKept w w' i) (hji : j ≠ i)
    (hj : w'.calls[j]? = some d) : ∃ c, w.calls[j]? = some c ∧ ∀ q : Call → Bool,
      (∀ t, q (.flush_up_to t .woken) = q (.flush_up_to t .parked)) → q d = q c := by
  rcases h j hji with hsame | hwoken
  · exact ⟨d, hsame ▸ hj, fun q _ => rfl⟩
  rw [hwoken, map_eq_some_iff] at hj
  obtain ⟨c, hc, rfl⟩ := hj
  exact ⟨c, hc, fun q hq => Call.apply_wake hq c⟩

theorem Alone.kept {w w' : World} {i : Nat} (h : Alone w i) (hkept : OthersKept w w' i) :
    Alone w' i := by
  intro j d hji hj
  obtain ⟨c, hc, hq⟩ := hkept.apply hji hj
  obtain ⟨hstate, hgate, hflushing⟩ := h j c hji hc
  refine ⟨?_, ?_, ?_⟩
  · rw [hq Call.holdsState fun _ => rfl, hstate]
  · rw [hq Call.holdsGate fun _ => rfl, hgate]
  · rw [hq Call.flushing fun _ => rfl, hflushing]

section Alone

variable {w w' : World} {i : Nat} {c c' : Call}

theorem Alone.free (h : Alone w i) (hi : w.calls[i]? = some c) {q : Call → Bool} (hq : q c = false)
    (hle : ∀ d : Call, d.holdsState = false → d.holdsGate = false → d.flushing = false →
      q d = false) : (w.calls.all fun d => !q d) = true := by
  rw [List.all_eq_true]
  intro d hd
  obtain ⟨j, hj⟩ := mem_iff_getElem?.mp hd
  by_cases hji : j = i
  · cases hji
    cases hi.symm.trans hj
    rw [hq]
    rfl
  obtain ⟨hstate, hgate, hflushing⟩ := h j d hji hj
  rw [hle d hstate hgate hflushing]
  rfl

theorem Alone.stateFree (h : Alone w i) (hi : w.calls[i]? = some c) (hc : c.holdsState = false) :
    w.stateFree = true := h.free hi hc fun _ hstate _ _ => hstate

theorem Alone.gateFree (h : Alone w i) (hi : w.calls[i]? = some c) (hc : c.holdsGate = false) :
    w.gateFree = true := h.free hi hc fun _ _ hgate _ => hgate

theorem Alone.writerFree (h : Alone w i) (hi : w.calls[i]? = some c) (hc : c.holdsWriter = false) :
    w.writerFree = true := by
  refine h.free hi hc fun d _ _ hflushing => ?_
  cases d with
  | append stage => rfl
  | flush_up_to target stage => cases stage <;> first | rfl | cases hflushing

theorem Alone.not_is_flushing (h : Alone w i) (hlocks : Locks w.calls w.is_flushing)
    (hi : w.calls[i]? = some c) (hc : c.flushing = false) : w.is_flushing = false := by
  have hnone : (w.calls.all fun d => !d.leads) = true := by
    have hleads : ∀ d : Call, d.flushing = false → d.leads = false := by
      intro d hd
      rw [Bool.eq_false_iff] at hd ⊢
      exact fun hl => hd (Call.flushing_of_leads hl)
    exact h.free hi (hleads c hc) fun d _ _ hd => hleads d hd
  have hzero := countP_eq_zero_of_free hnone
  rw [hlocks.leads] at hzero
  cases hf : w.is_flushing
  · rfl
  rw [hf] at hzero
  cases hzero

theorem Call.flushing_of_keepsActive {c : Call} (h : c.keepsActive = true) : c.flushing = true := by
  cases c with
  | append stage => cases h
  | flush_up_to target stage => cases stage <;> first | rfl | cases h

theorem Alone.not_flush_active (h : Alone w i) (hwakes : Wakes w) (hi : w.calls[i]? = some c)
    (hc : c.flushing = false) : w.flush_active = false := by
  rw [Bool.eq_false_iff]
  intro hflag
  obtain ⟨d, hd, hkeeps⟩ := hwakes.active hflag
  have hflushing := Call.flushing_of_keepsActive hkeeps
  obtain ⟨j, hj⟩ := mem_iff_getElem?.mp hd
  by_cases hji : j = i
  · cases hji
    cases hi.symm.trans hj
    rw [hc] at hflushing
    cases hflushing
  rw [(h j d hji hj).2.2] at hflushing
  cases hflushing

/-- The call has taken a step towards its end, and the others are as they were. -/
structure Advances (w w' : World) (i : Nat) (c : Call) : Prop where
  others : OthersKept w w' i
  nearer : ∃ c', w'.calls[i]? = some c' ∧ c'.isAsleep = false ∧ w'.remaining c' < w.remaining c

theorem Advances.set (hi : w.calls[i]? = some c) (hcalls : w'.calls = w.calls.set i c')
    (hawake : c'.isAsleep = false) (hlt : w'.remaining c' < w.remaining c) :
    Advances w w' i c := by
  refine ⟨fun j hj => .inl ?_, c', ?_, hawake, hlt⟩
  · rw [hcalls, getElem?_set_eq_ite hi, if_neg hj]
  · rw [hcalls, getElem?_set_eq_ite hi, if_pos rfl]

/-- A step that leaves alone what the count of steps depends on. -/
theorem Advances.stay {next_lsn : Nat} {is_flushing flush_failed flush_active : Bool}
    {writer : SegmentWriter} {log : List Logged} (hi : w.calls[i]? = some c)
    (hawake : c'.isAsleep = false) (hlt : w.remaining c' < w.remaining c) :
    Advances w { w with next_lsn, is_flushing, flush_failed, flush_active, writer, log
                        calls := w.calls.set i c' } i c :=
  Advances.set hi rfl hawake hlt

theorem round_pos (w : World) (target : Nat) : 0 < w.round target := by
  unfold World.round
  split
  · exact Nat.one_pos
  · split <;> omega

theorem round_le (w : World) (target : Nat) : w.round target ≤ 16 + w.buffer.records.length := by
  unfold World.round
  split
  · omega
  · split <;> omega

variable {o : SegmentWriter} {base : Nat}

theorem advance_append {stage : AppendStage} (hgood : Good o base w) (halone : Alone w i)
    (hi : w.calls[i]? = some (.append stage)) (hunfinished : (Call.append stage).returned = false) :
    ∃ w', w.runAppend i stage = some w' ∧ Advances w w' i (.append stage) := by
  cases stage with
  | start entry | locked entry =>
    simp only [World.runAppend]
    repeat' split
    all_goals exact ⟨_, rfl, .stay hi rfl (by simp [World.remaining])⟩
  | lock entry =>
    simp only [World.runAppend, halone.stateFree hi rfl, if_true]
    exact ⟨_, rfl, .stay hi rfl (Nat.lt_succ_self 2)⟩
  | push lsn entry =>
    obtain ⟨buffer, hpushed, -⟩ := good_push hgood hi
    simp only [World.runAppend, hpushed]
    exact ⟨_, rfl, Advances.set hi rfl rfl Nat.one_pos⟩
  | ok lsn => cases hunfinished
  | err e => cases hunfinished

/-- A call of `flush_up_to` by itself that is not asleep. Whatever it finds, it does not park. -/
theorem advance_flush {target : Nat} {stage : FlushStage} (hgood : Good o base w)
    (hwakes : Wakes w) (halone : Alone w i) (hi : w.calls[i]? = some (.flush_up_to target stage))
    (hunfinished : (Call.flush_up_to target stage).returned = false)
    (hawake : (Call.flush_up_to target stage).isAsleep = false) :
    ∃ w', w.runFlush i target stage = some w' ∧ Advances w w' i (.flush_up_to target stage) := by
  have hpos := round_pos w target
  cases stage with
  | start =>
    refine ⟨_, rfl, ?_⟩
    have hround := round_le w (min target (w.next_lsn - 1))
    split
    all_goals
      refine .stay hi rfl ?_
      simp only [World.remaining]
      omega
  | fast =>
    refine ⟨_, rfl, ?_⟩
    split
    · exact .stay hi rfl hpos
    rename_i hge
    refine .stay hi rfl ?_
    simp only [World.remaining, World.round, if_neg hge]
    split <;> omega
  | lock_state =>
    simp only [World.runFlush, halone.stateFree hi rfl, if_true]
    refine ⟨_, rfl, .stay hi rfl ?_⟩
    simp only [World.remaining]
    split <;> omega
  | locked =>
    simp only [World.runFlush]
    split
    · next cause herr =>
      refine ⟨_, rfl, .stay hi rfl ?_⟩
      simp only [World.remaining, herr]
      exact Nat.one_pos
    rename_i herr
    rw [halone.not_is_flushing hgood.locks hi rfl]
    refine ⟨_, rfl, .stay hi rfl ?_⟩
    simp only [World.remaining, herr, isSome_none, Bool.false_eq_true, if_false]
    omega
  | lock_gate | woken | announce again =>
    simp only [World.runFlush, halone.gateFree hi rfl, if_true]
    refine ⟨_, rfl, .stay hi rfl ?_⟩
    simp only [World.remaining]
    omega
  | gated | gated_failed =>
    refine ⟨_, rfl, ?_⟩
    split
    all_goals
      refine .stay hi rfl ?_
      simp only [World.remaining]
      omega
  | gated_active =>
    refine ⟨_, rfl, ?_⟩
    rw [halone.not_flush_active hwakes hi rfl]
    refine .stay hi rfl ?_
    change w.round target < 1 + w.round target
    omega
  | gated_wait | parked => cases hawake
  | elected | found_empty | empty_active | publish batch flush_result
  | publish_active batch flush_result =>
    exact ⟨_, rfl, .stay hi rfl (by simp [World.remaining])⟩
  | active =>
    have hcopies : w.buffer.copy_records.length = w.buffer.records.length := by
      rw [hgood.buffer.copy_records, hgood.buffer.records, length_map, length_map]
    simp only [World.runFlush]
    split
    all_goals
      refine ⟨_, rfl, .stay hi rfl ?_⟩
      simp only [World.remaining]
      omega
  | lock_writer batch records =>
    simp only [World.runFlush, halone.writerFree hi rfl, if_true]
    refine ⟨_, rfl, .stay hi rfl ?_⟩
    simp only [World.remaining]
    omega
  | writing batch records =>
    cases records with
    | nil => exact ⟨_, rfl, .stay hi rfl (Nat.lt_succ_self 9)⟩
    | cons record rest =>
      obtain ⟨lsn, record⟩ := record
      simp only [World.runFlush, World.writeNext, SegmentWriter.write_record]
      by_cases hlarge : record.length > w.writer.segment_size
      all_goals
        simp only [hlarge, if_true, if_false]
        refine ⟨_, rfl, .stay hi rfl ?_⟩
        simp only [World.remaining, length_cons]
        omega
  | written batch flush_result =>
    simp only [World.runFlush, halone.stateFree hi rfl, if_true]
    exact ⟨_, rfl, .stay hi rfl (Nat.lt_succ_self 8)⟩
  | publish_result batch flush_result =>
    obtain ⟨-, hbatch, -⟩ := hgood.calls i _ hi
    cases flush_result with
    | ok _ =>
      -- the flush has covered the target of its own caller
      obtain ⟨buffer, hconsume, -⟩ := good_publish_ok hgood hi
      simp only [World.runFlush, hconsume]
      refine ⟨_, rfl, Advances.set hi rfl rfl ?_⟩
      have hround : ({ w with buffer, flushed_lsn := batch.durable_lsn }.setFlush i target
          (.announce true)).round target = 1 := if_pos hbatch.target_le
      unfold World.remaining
      dsimp only
      rw [hround]
      decide
    | error e =>
      refine ⟨_, rfl, Advances.set hi rfl rfl ?_⟩
      have hround : ({ w with flush_error := some e, flush_failed := true }.setFlush i target
          (.announce true)).round target ≤ 3 := by
        unfold World.round
        split
        · decide
        · exact le_of_eq (if_pos rfl)
      unfold World.remaining
      dsimp only
      rw [if_pos rfl]
      omega
  | notify again =>
    have hi' : (w.calls.map Call.wake)[i]? = some (.flush_up_to target (.notify again)) := by
      rw [getElem?_map, hi]
      rfl
    refine ⟨_, rfl, fun j hj => .inr ?_, .flush_up_to target (if again then .fast else .ok), ?_,
      ?_, ?_⟩
    · change ((w.calls.map Call.wake).set i _)[j]? = _
      rw [getElem?_set_eq_ite hi', if_neg hj, getElem?_map]
    · change ((w.calls.map Call.wake).set i _)[i]? = _
      rw [getElem?_set_eq_ite hi', if_pos rfl]
    · cases again <;> rfl
    cases again
    · exact Nat.lt_succ_of_lt Nat.one_pos
    change w.round target < 1 + w.round target
    omega
  | ok | err e => cases hunfinished

theorem step_run (hi : w.calls[i]? = some c) : step w (.run i) = w.runCall i c := by
  simp only [step, hi, bind_some]

theorem advance (hgood : Good o base w) (hwakes : Wakes w) (halone : Alone w i)
    (hi : w.calls[i]? = some c) (hunfinished : c.returned = false) (hawake : c.isAsleep = false) :
    ∃ w', step w (.run i) = some w' ∧ Advances w w' i c := by
  rw [step_run hi]
  cases c with
  | append stage => exact advance_append hgood halone hi hunfinished
  | flush_up_to target stage => exact advance_flush hgood hwakes halone hi hunfinished hawake

/-- A call that nobody is in the way of runs until it has returned. -/
theorem run_alone (hgood : Good o base w) (hwakes : Wakes w) (halone : Alone w i)
    (hi : w.calls[i]? = some c) (hawake : c.isAsleep = false) :
    ∃ p w', (∀ e ∈ p, e = .run i) ∧ Runs.run step w p = some w' ∧ OthersKept w w' i ∧
      ∃ c', w'.calls[i]? = some c' ∧ c'.returned = true := by
  induction hn : w.remaining c using Nat.strong_induction_on generalizing w c with
  | _ n ih =>
    by_cases hreturned : c.returned = true
    · exact ⟨[], w, nofun, rfl, OthersKept.refl w i, c, hi, hreturned⟩
    obtain ⟨w₁, hstep, hothers, c₁, hi₁, hawake₁, hlt⟩ :=
      advance hgood hwakes halone hi (Bool.eq_false_iff.mpr hreturned) hawake
    obtain ⟨p, w', hp, hrun, hkept, hend⟩ := ih _ (hn ▸ hlt) (good_step hgood hstep)
      (wakes_step hwakes hstep) (halone.kept hothers) hi₁ hawake₁ rfl
    refine ⟨.run i :: p, w', ?_, Runs.run_cons.mpr ⟨w₁, hstep, hrun⟩, hothers.trans hkept, hend⟩
    intro e he
    rcases mem_cons.mp he with rfl | he
    · rfl
    · exact hp e he

end Alone

/-! ## Letting go of the locks -/

/-- How many steps a call needs at most to let go of the lock that it holds. -/
def Call.holding : Call → Nat
  | append stage =>
    match stage with
    | .locked _ => 2
    | .push _ _ => 1
    | _ => 0
  | flush_up_to _ stage =>
    match stage with
    | .gated => 4
    | .gated_failed => 3
    | .gated_active => 2
    | .gated_wait => 1
    | .locked => 5
    | .elected => 4
    | .active => 3
    | .found_empty => 2
    | .empty_active => 1
    | .publish _ _ => 3
    | .publish_active _ _ => 2
    | .publish_result _ _ => 1
    | _ => 0

theorem Call.holds_nothing {c : Call} (h : c.holding = 0) :
    c.holdsState = false ∧ c.holdsGate = false := by
  cases c with
  | append stage | flush_up_to target stage => cases stage <;> first | exact ⟨rfl, rfl⟩ | cases h

section Release

variable {o : SegmentWriter} {base : Nat} {w : World} {i : Nat} {c : Call}

/-- A call that holds a lock can always go on, and it does not take another one. -/
theorem release_step (hgood : Good o base w) (hi : w.calls[i]? = some c) (hheld : 0 < c.holding) :
    ∃ w' c', step w (.run i) = some w' ∧ w'.calls = w.calls.set i c' ∧ c'.holding < c.holding := by
  rw [step_run hi]
  cases c with
  | append stage =>
    unfold World.runCall
    cases stage with
    | locked entry =>
      simp only [World.runAppend]
      repeat' split
      all_goals exact ⟨_, _, rfl, rfl, by simp [Call.holding]⟩
    | push lsn entry =>
      obtain ⟨buffer, hpushed, -⟩ := good_push hgood hi
      simp only [World.runAppend, hpushed]
      exact ⟨_, _, rfl, rfl, hheld⟩
    | _ => cases hheld
  | flush_up_to target stage =>
    unfold World.runCall
    cases stage with
    | gated | gated_failed | gated_active =>
      refine ⟨_, _, rfl, rfl, ?_⟩
      split <;> simp [Call.holding]
    | locked | active =>
      simp only [World.runFlush]
      repeat' split
      all_goals exact ⟨_, _, rfl, rfl, by simp [Call.holding]⟩
    | elected | found_empty | gated_wait | empty_active | publish batch flush_result
    | publish_active batch flush_result => exact ⟨_, _, rfl, rfl, Nat.lt_succ_self _⟩
    | publish_result batch flush_result =>
      cases flush_result with
      | ok _ =>
        obtain ⟨buffer, hconsume, -⟩ := good_publish_ok hgood hi
        simp only [World.runFlush, hconsume]
        exact ⟨_, _, rfl, rfl, hheld⟩
      | error e => exact ⟨_, _, rfl, rfl, hheld⟩
    | _ => cases hheld

/-- All that a run needs to be made of: steps of the calls that are there. -/
def OnlyRuns (p : List Event) : Prop := ∀ e ∈ p, ∃ i, e = .run i

/-- The steps of the calls that hold a lock lead to a state in which nobody holds one. -/
theorem release_all (hgood : Good o base w) (hwakes : Wakes w) :
    ∃ p w', OnlyRuns p ∧ Runs.run step w p = some w' ∧ Good o base w' ∧ Wakes w' ∧
      w'.calls.length = w.calls.length ∧ ∀ c ∈ w'.calls, c.holding = 0 := by
  induction hn : (w.calls.map Call.holding).sum using Nat.strong_induction_on generalizing w with
  | _ n ih =>
    by_cases hheld : ∃ c ∈ w.calls, 0 < c.holding
    · obtain ⟨c, hc, hpos⟩ := hheld
      obtain ⟨i, hi⟩ := mem_iff_getElem?.mp hc
      obtain ⟨w₁, c₁, hstep, hcalls, hlt⟩ := release_step hgood hi hpos
      have hsum : (w₁.calls.map Call.holding).sum < n := by
        rw [hcalls, ← hn]
        exact sum_map_set_lt hi hlt
      obtain ⟨p, w', hp, hrun, hgood', hwakes', hlen, hfree⟩ :=
        ih _ hsum (good_step hgood hstep) (wakes_step hwakes hstep) rfl
      refine ⟨.run i :: p, w', ?_, Runs.run_cons.mpr ⟨w₁, hstep, hrun⟩, hgood', hwakes', ?_, hfree⟩
      · intro e he
        rcases mem_cons.mp he with rfl | he
        · exact ⟨i, rfl⟩
        · exact hp e he
      · rw [hlen, hcalls, length_set]
    refine ⟨[], w, nofun, rfl, hgood, hwakes, rfl, fun c hc => ?_⟩
    by_contra hne
    exact hheld ⟨c, hc, Nat.pos_of_ne_zero hne⟩

end Release

/-! ## All calls -/

section All

variable {o : SegmentWriter} {base : Nat} {w w' : World} {i : Nat}

theorem Call.awake_of_answersParked {c : Call} (h : c.answersParked = true) :
    c.returned = false ∧ c.isAsleep = false := by
  cases c with
  | append stage => cases h
  | flush_up_to target stage => cases stage <;> first | exact ⟨rfl, rfl⟩ | cases h

theorem Call.awake_of_flushing {c : Call} (h : c.flushing = true) :
    c.returned = false ∧ c.isAsleep = false := by
  cases c with
  | append stage => cases h
  | flush_up_to target stage => cases stage <;> first | exact ⟨rfl, rfl⟩ | cases h

/-- Which call to run next when nobody holds a lock: the leader, or else one that has yet to
notify, or else any. Without the first two nobody is parked. -/
theorem exists_awake (hgood : Good o base w) (hwakes : Wakes w)
    (hfree : ∀ c ∈ w.calls, c.holding = 0) (hunfinished : ∃ c ∈ w.calls, c.returned = false) :
    ∃ i c, w.calls[i]? = some c ∧ c.returned = false ∧ c.isAsleep = false ∧ Alone w i := by
  by_cases hflush : ∃ c ∈ w.calls, c.flushing = true
  · obtain ⟨c, hc, hflushing⟩ := hflush
    obtain ⟨i, hi⟩ := mem_iff_getElem?.mp hc
    obtain ⟨hret, hawake⟩ := Call.awake_of_flushing hflushing
    refine ⟨i, c, hi, hret, hawake, fun j d hji hj => ?_⟩
    obtain ⟨hstate, hgate⟩ := Call.holds_nothing (hfree d (mem_of_getElem? hj))
    exact ⟨hstate, hgate, hgood.not_flushing hi hflushing hj hji⟩
  have halone : ∀ i, Alone w i := by
    intro i j d _ hj
    have hd := mem_of_getElem? hj
    obtain ⟨hstate, hgate⟩ := Call.holds_nothing (hfree d hd)
    exact ⟨hstate, hgate, Bool.eq_false_iff.mpr fun h => hflush ⟨d, hd, h⟩⟩
  by_cases hanswer : ∃ c ∈ w.calls, c.answersParked = true
  · obtain ⟨c, hc, hanswers⟩ := hanswer
    obtain ⟨i, hi⟩ := mem_iff_getElem?.mp hc
    obtain ⟨hret, hawake⟩ := Call.awake_of_answersParked hanswers
    exact ⟨i, c, hi, hret, hawake, halone i⟩
  obtain ⟨c, hc, hret⟩ := hunfinished
  obtain ⟨i, hi⟩ := mem_iff_getElem?.mp hc
  refine ⟨i, c, hi, hret, ?_, halone i⟩
  unfold Call.isAsleep
  rw [Bool.or_eq_false_iff, Bool.eq_false_iff, Bool.eq_false_iff]
  refine ⟨fun hwait => ?_, fun hpark => hanswer (hwakes.parked c hc hpark)⟩
  have hgate := (Call.holds_nothing (hfree c hc)).2
  rw [Call.holdsGate_of_isWaiting hwait] at hgate
  cases hgate

/-- A call that has run alone until it returned is the only one that has. -/
theorem map_returned {c : Call} (hkept : OthersKept w w' i) (hi : w.calls[i]? = some c)
    (hend : ∃ c', w'.calls[i]? = some c' ∧ c'.returned = true) :
    w'.calls.map Call.returned = (w.calls.map Call.returned).set i true := by
  have hmap : (w.calls.map Call.returned)[i]? = some c.returned := by
    rw [getElem?_map, hi]
    rfl
  apply ext_getElem?
  intro j
  rw [getElem?_set_eq_ite hmap, getElem?_map, getElem?_map]
  split
  · next hji =>
    obtain ⟨c', hc', hret⟩ := hend
    rw [hji, hc', map_some, hret]
  rename_i hji
  rcases hkept j hji with hsame | hwoken
  · rw [hsame]
  rw [hwoken, Option.map_map]
  congr 1
  funext d
  exact Call.apply_wake (fun _ => rfl) d

theorem holding_of_returned {c : Call} (h : c.returned = true) : c.holding = 0 := by
  cases c with
  | append stage | flush_up_to target stage => cases stage <;> first | rfl | cases h

/-- The calls can be run one after the other until all have returned. -/
theorem run_all (hgood : Good o base w) (hwakes : Wakes w) (hfree : ∀ c ∈ w.calls, c.holding = 0) :
    ∃ p w', OnlyRuns p ∧ Runs.run step w p = some w' ∧ w'.calls.length = w.calls.length ∧
      ∀ c ∈ w'.calls, c.returned = true := by
  induction hn : (w.calls.map Call.returned).countP (! ·) generalizing w with
  | zero =>
    refine ⟨[], w, nofun, rfl, rfl, fun c hc => ?_⟩
    have hnot := countP_eq_zero.mp hn c.returned (mem_map_of_mem hc)
    simpa using hnot
  | succ n ih =>
    have hunfinished : ∃ c ∈ w.calls, c.returned = false := by
      obtain ⟨b, hb, hnot⟩ := countP_pos_iff.mp (Nat.lt_of_lt_of_eq (Nat.succ_pos n) hn.symm)
      obtain ⟨c, hc, rfl⟩ := mem_map.mp hb
      exact ⟨c, hc, by simpa using hnot⟩
    obtain ⟨i, c, hi, hret, hawake, halone⟩ := exists_awake hgood hwakes hfree hunfinished
    obtain ⟨p, w₁, hp, hrun, hkept, hend⟩ := run_alone hgood hwakes halone hi hawake
    have hgood₁ := Runs.inv_run (fun _ _ _ h hs => good_step h hs) hgood hrun
    have hwakes₁ := Runs.inv_run (fun _ _ _ h hs => wakes_step h hs) hwakes hrun
    have hmap := map_returned hkept hi hend
    have hfree₁ : ∀ d ∈ w₁.calls, d.holding = 0 := by
      intro d hd
      obtain ⟨j, hj⟩ := mem_iff_getElem?.mp hd
      by_cases hji : j = i
      · obtain ⟨c', hc', hret'⟩ := hend
        rw [hji, hc'] at hj
        cases hj
        exact holding_of_returned hret'
      obtain ⟨e, he, hq⟩ := hkept.apply hji hj
      have hsame := hq (fun c => c.holding == 0) fun _ => rfl
      rw [hfree e (mem_of_getElem? he)] at hsame
      simpa using hsame
    have hcount : (w₁.calls.map Call.returned).countP (! ·) = n := by
      have hget : (w.calls.map Call.returned)[i]? = some false := by
        rw [getElem?_map, hi, map_some, hret]
      have hset := countP_set_add hget true (! ·)
      rw [← hmap, if_pos (by rfl), if_neg (by nofun)] at hset
      omega
    obtain ⟨q, w', hq, hrun', hlen, hall⟩ := ih hgood₁ hwakes₁ hfree₁ hcount
    refine ⟨p ++ q, w', ?_, Runs.run_append.mpr ⟨w₁, hrun, hrun'⟩, ?_, hall⟩
    · exact forall_mem_append.mpr ⟨fun e he => ⟨i, hp e he⟩, hq⟩
    have hlen₁ := congrArg List.length hmap
    rw [length_set, length_map, length_map] at hlen₁
    rw [hlen, hlen₁]

end All

theorem wakes_opened (buffer_capacity segment_size last_lsn : Nat) (segments : List Bytes) :
    Wakes (.opened buffer_capacity segment_size segments last_lsn) :=
  ⟨nofun, fun _ hc => absurd hc not_mem_nil, fun _ hc => absurd hc not_mem_nil⟩

/-- The calls that are there can be run until each of them has returned. -/
theorem run_to_end {o : SegmentWriter} {base : Nat} {w : World} (hgood : Good o base w)
    (hwakes : Wakes w) :
    ∃ q w', OnlyRuns q ∧ Runs.run step w q = some w' ∧ w'.calls.length = w.calls.length ∧
      ∀ c ∈ w'.calls, c.returned = true := by
  obtain ⟨p₁, w₁, hp₁, hrun₁, hgood₁, hwakes₁, hlen₁, hfree₁⟩ := release_all hgood hwakes
  obtain ⟨p₂, w₂, hp₂, hrun₂, hlen₂, hall⟩ := run_all hgood₁ hwakes₁ hfree₁
  exact ⟨p₁ ++ p₂, w₂, forall_mem_append.mpr ⟨hp₁, hp₂⟩,
    Runs.run_append.mpr ⟨w₁, hrun₁, hrun₂⟩, hlen₂.trans hlen₁, hall⟩

/-- In no reachable state is a follower parked while nobody leads and every past leader has
finished its `notify_all`, and from every reachable state the calls can be run until each of them
has returned. -/
theorem no_follower_is_stranded (buffer_capacity segment_size last_lsn : Nat)
    (segments : List Bytes) {p : List Event} {w : World}
    (hrun : Runs.run step (.opened buffer_capacity segment_size segments last_lsn) p = some w) :
    (w.is_flushing = false → (∀ c ∈ w.calls, c.winds_up = false) →
      ∀ c ∈ w.calls, c.isParked = false) ∧
    ∃ q w', OnlyRuns q ∧ Runs.run step w q = some w' ∧ w'.calls.length = w.calls.length ∧
      ∀ c ∈ w'.calls, c.returned = true := by
  have hgood := Runs.inv_run (fun _ _ _ h hs => good_step h hs)
    (good_opened buffer_capacity segment_size last_lsn segments) hrun
  have hwakes := Runs.inv_run (fun _ _ _ h hs => wakes_step h hs)
    (wakes_opened buffer_capacity segment_size last_lsn segments) hrun
  constructor
  · intro hidle hdone c hc
    rw [Bool.eq_false_iff]
    intro hpark
    obtain ⟨d, hd, hanswers⟩ := hwakes.parked c hc hpark
    obtain ⟨j, hj⟩ := List.mem_iff_getElem?.mp hd
    rcases Call.leads_or_winds_up hanswers with hleads | hwinds
    · have hset := hgood.locks.is_flushing hj hleads
      rw [hidle] at hset
      cases hset
    · rw [hdone d hd] at hwinds
      cases hwinds
  · exact run_to_end hgood hwakes

/-- A follower parks while the leader has a record to write, and both can return. -/
theorem a_parked_follower_can_return :
    ∃ w, Runs.run step (.opened 64 64 [] 0)
        ([.append (log_commit 5)] ++ List.replicate 4 (.run 0) ++ [.flush_up_to 1] ++
          List.replicate 7 (.run 1) ++ [.flush_up_to 1] ++ List.replicate 9 (.run 2)) = some w ∧
      w.is_flushing = true ∧ w.calls[2]? = some (.flush_up_to 1 .parked) ∧
      ∃ q w', OnlyRuns q ∧ Runs.run step w q = some w' ∧ w'.calls.length = w.calls.length ∧
        ∀ c ∈ w'.calls, c.returned = true := by
  have hex : ∃ w, Runs.run step (.opened 64 64 [] 0)
        ([.append (log_commit 5)] ++ List.replicate 4 (.run 0) ++ [.flush_up_to 1] ++
          List.replicate 7 (.run 1) ++ [.flush_up_to 1] ++ List.replicate 9 (.run 2)) = some w ∧
      w.is_flushing = true ∧ w.calls[2]? = some (.flush_up_to 1 .parked) :=
    Runs.exists_run (by decide +kernel)
  obtain ⟨w, hrun, hflag, hparked⟩ := hex
  exact ⟨w, hrun, hflag, hparked, (no_follower_is_stranded 64 64 0 [] hrun).2⟩

end FluxDB.WalThreads
