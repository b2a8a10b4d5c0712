-- No follower of a group flush is stranded. A follower parks only while it has seen a leader's
-- `flush_active` under the gate, and that leader takes the gate before it wakes everybody, so
-- whoever is parked has a leader that will still notify. From every reachable state the calls
-- can be run until all of them have returned.
import FluxDB.ConcurrentFlush

namespace FluxDB.WalThreads

open Maps List

/-! ## Who will wake a follower -/

namespace Call

/-- The call holds the gate and is about to park. -/
def isWaiting : Call → Bool
  | flush_up_to _ .gated_wait => true
  | _ => false

/-- The call has set `flush_active` and not taken it back. -/
def keepsActive : Call → Bool
  | flush_up_to _ stage =>
    match stage with
    | .active | .found_empty | .empty_active | .lock_writer _ _ | .writing _ _ | .written _ _
    | .publish _ _ | .publish_active _ _ => true
    | _ => false
  | _ => false

/-- The call has yet to pass the gate on its way to the notification. -/
def answersWaiting : Call → Bool
  | flush_up_to target stage =>
    match stage with
    | .publish_result _ _ | .announce _ => true
    | stage => keepsActive (flush_up_to target stage)
  | _ => false

/-- The call has yet to notify. -/
def answersParked : Call → Bool
  | flush_up_to target stage =>
    match stage with
    | .notify _ => true
    | stage => answersWaiting (flush_up_to target stage)
  | _ => false

variable {c : Call}

theorem answersWaiting_of_keepsActive (h : c.keepsActive = true) : c.answersWaiting = true := by
  cases c with
  | append stage => cases h
  | flush_up_to target stage => cases stage <;> first | rfl | cases h

theorem answersParked_of_answersWaiting (h : c.answersWaiting = true) : c.answersParked = true := by
  cases c with
  | append stage => cases h
  | flush_up_to target stage => cases stage <;> first | rfl | cases h

theorem isParked_wake (c : Call) : c.wake.isParked = false := by
  cases c with
  | append stage => rfl
  | flush_up_to target stage => cases stage <;> rfl

theorem leads_or_winds_up (h : c.answersParked = true) : c.leads = true ∨ c.winds_up = true := by
  cases c with
  | append stage => cases h
  | flush_up_to target stage => cases stage <;> first | exact .inl rfl | exact .inr rfl | cases h

theorem holdsGate_of_isWaiting (h : c.isWaiting = true) : c.holdsGate = true := by
  cases c with
  | append stage => cases h
  | flush_up_to target stage => cases stage <;> first | rfl | cases h

end Call

/-- Whoever has set `flush_active` is still there, and whoever waits has somebody that will wake
it. -/
structure Wakes (w : World) : Prop where
  active : w.flush_active = true → ∃ c ∈ w.calls, c.keepsActive = true
  waiting : ∀ c ∈ w.calls, c.isWaiting = true → ∃ d ∈ w.calls, d.answersWaiting = true
  parked : ∀ c ∈ w.calls, c.isParked = true → ∃ d ∈ w.calls, d.answersParked = true

section Steps

variable {w w' : World} {i : Nat} {c c' : Call}

/-- A step of one call keeps the others, and itself if it still meets the test. -/
theorem exists_set {calls : List Call} {q : Call → Bool} (hi : calls[i]? = some c)
    (h : ∃ d ∈ calls, q d = true) (hq : q c = true → q c' = true) :
    ∃ d ∈ calls.set i c', q d = true := by
  obtain ⟨d, hd, hqd⟩ := h
  obtain ⟨j, hj⟩ := mem_iff_getElem?.mp hd
  by_cases hji : j = i
  · cases hji
    cases hi.symm.trans hj
    have hlt := lt_of_getElem? hi
    exact ⟨c', mem_set hlt c', hq hqd⟩
  refine ⟨d, mem_of_getElem? (i := j) ?_, hqd⟩
  rw [getElem?_set_eq_ite hi, if_neg hji]
  exact hj

theorem not_isWaiting_of_gateFree (hfree : w.gateFree = true) (hc : c ∈ w.calls) :
    c.isWaiting = false := by
  rw [Bool.eq_false_iff]
  intro hwait
  have := all_eq_true.mp hfree c hc
  rw [Call.holdsGate_of_isWaiting hwait] at this
  cases this

section

variable (h : Wakes w) (hi : w.calls[i]? = some c) (hcalls : w'.calls = w.calls.set i c')

include h hi hcalls

/-- A step of one call. It parks only if it was about to, it is about to only if it has found the
flag set, and it passes the gate only when nobody else holds it. -/
theorem Wakes.set (hactive : w'.flush_active = true → w.flush_active = true ∨ c'.keepsActive = true)
    (hkeeps : w'.flush_active = true → c.keepsActive = true → c'.keepsActive = true)
    (hwaits : c'.isWaiting = true → w.flush_active = true ∧ c.answersWaiting = false)
    (hanswers : c.answersWaiting = true → c'.answersWaiting = true ∨ w.gateFree = true)
    (hparks : c'.isParked = true → c.isWaiting = true)
    (hparked : c.answersParked = true → c'.answersParked = true) : Wakes w' := by
  have hci : c ∈ w.calls := mem_of_getElem? hi
  constructor
  · intro hflag
    rw [hcalls]
    rcases hactive hflag with hold | hnew
    · exact exists_set hi (h.active hold) (hkeeps hflag)
    · exact ⟨c', mem_set (lt_of_getElem? hi) c', hnew⟩
  · intro d hd hwait
    rw [hcalls] at hd ⊢
    rcases mem_or_eq_of_mem_set hd with hd | rfl
    · refine exists_set hi (h.waiting d hd hwait) fun hc => ?_
      rcases hanswers hc with hc' | hfree
      · exact hc'
      rw [not_isWaiting_of_gateFree hfree hd] at hwait
      cases hwait
    obtain ⟨hflag, hnot⟩ := hwaits hwait
    obtain ⟨e, he, hkeep⟩ := h.active hflag
    refine exists_set hi ⟨e, he, Call.answersWaiting_of_keepsActive hkeep⟩ fun hc => ?_
    rw [hnot] at hc
    cases hc
  intro d hd hpark
  rw [hcalls] at hd ⊢
  rcases mem_or_eq_of_mem_set hd with hd | rfl
  · exact exists_set hi (h.parked d hd hpark) hparked
  obtain ⟨e, he, hanswer⟩ := h.waiting c hci (hparks hpark)
  exact exists_set hi ⟨e, he, Call.answersParked_of_answersWaiting hanswer⟩ hparked

/-- A step of a call that has nothing to do with the wakeups, before it or behind it. -/
theorem Wakes.pass (hflag : w'.flush_active = w.flush_active) (hwaits : c'.isWaiting = false)
    (hparks : c'.isParked = false) (hanswers : c.answersParked = false) : Wakes w' := by
  have hnone : ∀ {q : Call → Bool}, (q c = true → c.answersParked = true) → q c = false := by
    intro q hq
    rw [Bool.eq_false_iff]
    intro hc
    rw [hq hc] at hanswers
    cases hanswers
  have hwait := hnone (q := Call.answersWaiting) Call.answersParked_of_answersWaiting
  have hkeep := hnone (q := Call.keepsActive) fun hc =>
    Call.answersParked_of_answersWaiting (Call.answersWaiting_of_keepsActive hc)
  refine h.set hi hcalls (fun hf => .inl (hflag ▸ hf)) ?_ ?_ ?_ ?_ ?_
  · intro _ hc
    rw [hkeep] at hc
    cases hc
  · intro hc
    rw [hwaits] at hc
    cases hc
  · intro hc
    rw [hwait] at hc
    cases hc
  · intro hc
    rw [hparks] at hc
    cases hc
  intro hc
  rw [hanswers] at hc
  cases hc

/-- A step of the leader while it keeps `flush_active` set. -/
theorem Wakes.lead (hkeeps : c'.keepsActive = true) (hwaits : c'.isWaiting = false)
    (hparks : c'.isParked = false) : Wakes w' := by
  have hanswers := Call.answersWaiting_of_keepsActive hkeeps
  refine h.set hi hcalls (fun _ => .inr hkeeps) (fun _ _ => hkeeps) ?_ (fun _ => .inl hanswers) ?_
    fun _ => Call.answersParked_of_answersWaiting hanswers
  · intro hc
    rw [hwaits] at hc
    cases hc
  intro hc
  rw [hparks] at hc
  cases hc

end

variable {target : Nat}

/-- `notify_all` leaves nobody parked. -/
theorem Wakes.notify {again : Bool} (h : Wakes w)
    (hi : w.calls[i]? = some (.flush_up_to target (.notify again))) (s : FlushStage)
    (hs : s = .fast ∨ s = .ok) :
    Wakes ({ w with calls := w.calls.map Call.wake }.setFlush i target s) := by
  have hi' : (w.calls.map Call.wake)[i]? = some (.flush_up_to target (.notify again)) := by
    rw [getElem?_map, hi]
    rfl
  have hwoken : ∀ {q : Call → Bool}, (∀ t, q (.flush_up_to t .woken) = q (.flush_up_to t .parked)) →
      (q (.flush_up_to target (.notify again)) = false) → (∃ d ∈ w.calls, q d = true) →
      ∃ d ∈ (w.calls.map Call.wake).set i (.flush_up_to target s), q d = true := by
    rintro q hq hnot ⟨d, hd, hqd⟩
    refine exists_set hi' ⟨d.wake, mem_map_of_mem hd, ?_⟩ fun hc => ?_
    · rw [Call.apply_wake hq]
      exact hqd
    rw [hnot] at hc
    cases hc
  have hmem : ∀ {q : Call → Bool}, (∀ t, q (.flush_up_to t .woken) = q (.flush_up_to t .parked)) →
      q (.flush_up_to target s) = false →
      ∀ d ∈ (w.calls.map Call.wake).set i (.flush_up_to target s), q d = true →
        ∃ c ∈ w.calls, q c = true := by
    intro q hq hnot d hd hqd
    rcases mem_or_eq_of_mem_set hd with hd | rfl
    · obtain ⟨c, hc, rfl⟩ := mem_map.mp hd
      rw [Call.apply_wake hq] at hqd
      exact ⟨c, hc, hqd⟩
    rw [hnot] at hqd
    cases hqd
  refine ⟨fun hflag => hwoken (fun _ => rfl) rfl (h.active hflag), ?_, ?_⟩
  · intro d hd hwait
    obtain ⟨c, hc, hwait⟩ := hmem (fun _ => rfl) (by rcases hs with rfl | rfl <;> rfl) d hd hwait
    exact hwoken (fun _ => rfl) rfl (h.waiting c hc hwait)
  intro d hd hpark
  rcases mem_or_eq_of_mem_set hd with hd | rfl
  · obtain ⟨c, _, rfl⟩ := mem_map.mp hd
    rw [Call.isParked_wake] at hpark
    cases hpark
  · rcases hs with rfl | rfl <;> cases hpark

theorem wakes_runAppend {stage : AppendStage} (h : Wakes w)
    (hi : w.calls[i]? = some (.append stage)) (hstep : w.runAppend i stage = some w') :
    Wakes w' := by
  cases appends_of_run hstep <;> exact h.pass hi rfl rfl rfl rfl rfl

theorem wakes_writeNext {lsn : Nat} {batch : Batch} {record : Bytes}
    {rest : List (Nat × Bytes)} {fault : Option WriteFault} {s : FlushStage} (h : Wakes w)
    (hi : w.calls[i]? = some (.flush_up_to target s))
    (hstep : w.writeNext i target batch lsn record rest fault = some w') : Wakes w' := by
  unfold World.writeNext at hstep
  split at hstep
  all_goals cases hstep
  all_goals exact h.lead hi rfl rfl rfl rfl

theorem wakes_runFlush {stage : FlushStage} (h : Wakes w)
    (hi : w.calls[i]? = some (.flush_up_to target stage))
    (hstep : w.runFlush i target stage = some w') : Wakes w' := by
  have hno {p : Prop} : false = true → p := Bool.noConfusion
  cases stage with
  | start | fast | gated | gated_failed =>
    cases hstep
    split <;> exact h.pass hi rfl rfl rfl rfl rfl
  | lock_state | lock_gate | woken | locked =>
    simp only [World.runFlush] at hstep
    repeat' split at hstep
    all_goals cases hstep
    all_goals exact h.pass hi rfl rfl rfl rfl rfl
  | gated_active =>
    cases hstep
    split
    · next hflag =>
      exact h.set hi rfl .inl (fun _ => hno) (fun _ => ⟨hflag, rfl⟩) hno hno hno
    · exact h.pass hi rfl rfl rfl rfl rfl
  | gated_wait =>
    cases hstep
    exact h.set hi rfl .inl (fun _ => hno) hno hno (fun _ => rfl) hno
  | elected | found_empty | publish batch flush_result =>
    cases hstep
    exact h.lead hi rfl rfl rfl rfl
  | active | lock_writer batch records | written batch flush_result =>
    simp only [World.runFlush] at hstep
    split at hstep
    all_goals cases hstep
    all_goals exact h.lead hi rfl rfl rfl rfl
  | writing batch records =>
    cases records with
    | nil =>
      cases hstep
      exact h.lead hi rfl rfl rfl rfl
    | cons record rest => exact wakes_writeNext h hi hstep
  | empty_active | publish_active batch flush_result =>
    -- the flag is taken back, so nobody new will wait for this call
    cases hstep
    exact h.set hi rfl hno hno hno (fun _ => .inl rfl) hno fun _ => rfl
  | publish_result batch flush_result =>
    cases flush_result
    all_goals simp only [World.runFlush] at hstep
    all_goals try split at hstep
    all_goals cases hstep
    all_goals exact h.set hi rfl .inl (fun _ => hno) hno (fun _ => .inl rfl) hno fun _ => rfl
  | announce again =>
    obtain ⟨hfree, ⟨⟩⟩ := Option.ite_none_right_eq_some.mp hstep
    exact h.set hi rfl .inl (fun _ => hno) hno (fun _ => .inr hfree) hno fun _ => rfl
  | notify again =>
    cases hstep
    refine h.notify hi _ ?_
    cases again
    · exact .inr rfl
    · exact .inl rfl
  | parked | ok | err e => cases hstep

theorem wakes_call (h : Wakes w) (hwaits : c.isWaiting = false) (hparks : c.isParked = false) :
    Wakes { w with calls := w.calls ++ [c] } := by
  have hold : ∀ {q : Call → Bool}, (∃ d ∈ w.calls, q d = true) →
      ∃ d ∈ w.calls ++ [c], q d = true := by
    rintro q ⟨d, hd, hq⟩
    exact ⟨d, mem_append_left _ hd, hq⟩
  refine ⟨fun hflag => hold (h.active hflag), ?_, ?_⟩
  · refine forall_mem_concat (fun d hd hwait => hold (h.waiting d hd hwait)) fun hwait => ?_
    rw [hwaits] at hwait
    cases hwait
  refine forall_mem_concat (fun d hd hpark => hold (h.parked d hd hpark)) fun hpark => ?_
  rw [hparks] at hpark
  cases hpark

theorem wakes_step {e : Event} (h : Wakes w) (hstep : step w e = some w') : Wakes w' := by
  cases steps_of_step hstep with
  | append | flush_up_to => exact wakes_call h rfl rfl
  | runAppend hi hrun => exact wakes_runAppend h hi hrun
  | runFlush hi hrun => exact wakes_runFlush h hi hrun
  | write_fault hi hrun => exact wakes_writeNext h hi hrun
  | sync_fault hi => exact h.lead hi rfl rfl rfl rfl
  | spurious_wakeup hi => exact h.pass hi rfl rfl rfl rfl rfl

end Steps

end FluxDB.WalThreads
