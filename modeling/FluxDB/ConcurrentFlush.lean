-- The group flush over every interleaving of its callers. One leader at a time writes what the
-- buffer held when it was elected, takes exactly that out of the buffer, and only then moves
-- `flushed_lsn`, so a call that returns without an error leaves its records synced.
import FluxDB.Lib.Runs
import FluxDB.WalThreads
import FluxDB.WrittenFiles

namespace FluxDB.WalThreads

open Maps List Option

/-! ## Locks -/

variable {lsn target : Nat} {calls : List Call} {batch : Batch} {q : Call → Bool}

namespace Call

/-- The call leads, or it has led and still holds the state lock. -/
def flushing : Call → Bool
  | flush_up_to _ stage =>
    match stage with
    | .elected | .active | .found_empty | .empty_active | .lock_writer _ _ | .writing _ _
    | .written _ _ | .publish _ _ | .publish_active _ _ | .publish_result _ _ => true
    | _ => false
  | _ => false

/-- The call has an LSN for a record that is not yet in the buffer. -/
def isPush : Call → Bool
  | append (.push _ _) => true
  | _ => false

/-- A test that does not tell a call that was woken from one that is parked. -/
theorem apply_wake (hq : ∀ target, q (flush_up_to target .woken) = q (flush_up_to target .parked))
    (c : Call) : q c.wake = q c := by
  cases c with
  | append stage => rfl
  | flush_up_to target stage =>
    cases stage with
    | parked => exact hq target
    | _ => rfl

theorem flushing_of_leads {c : Call} (h : c.leads = true) : c.flushing = true := by
  cases c with
  | append stage => cases h
  | flush_up_to target stage => cases stage <;> first | rfl | cases h

theorem holdsState_of_isPush {c : Call} (h : c.isPush = true) : c.holdsState = true := by
  cases c with
  | append stage => cases stage <;> first | rfl | cases h
  | flush_up_to target stage => cases h

theorem leads_or_holdsState {c : Call} (h : c.flushing = true) :
    c.leads = true ∨ c.holdsState = true := by
  cases c with
  | append stage => cases h
  | flush_up_to target stage => cases stage <;> first | exact .inl rfl | exact .inr rfl | cases h

end Call

/-- Nobody shares a lock, and `is_flushing` is set while somebody leads. -/
structure Locks (calls : List Call) (is_flushing : Bool) : Prop where
  state : calls.countP Call.holdsState ≤ 1
  gate : calls.countP Call.holdsGate ≤ 1
  flushing : calls.countP Call.flushing ≤ 1
  leads : calls.countP Call.leads = is_flushing.toNat

theorem countP_eq_zero_of_free (h : (calls.all fun c => !q c) = true) : calls.countP q = 0 := by
  rw [countP_eq_zero]
  intro c hc hq
  have := all_eq_true.mp h c hc
  rw [hq] at this
  cases this

/-- A count of at most one stays so if the new call was counted before, or nobody was. -/
theorem countP_set_le_one {i : Nat} {c c' : Call} (hle : calls.countP q ≤ 1)
    (hi : calls[i]? = some c) (h : q c' = true → q c = true ∨ calls.countP q = 0) :
    (calls.set i c').countP q ≤ 1 := by
  have hset := countP_set_add hi c' q
  by_cases hc' : q c' = true
  · rw [if_pos hc'] at hset
    rcases h hc' with hc | hzero
    · rw [if_pos hc] at hset
      omega
    · split at hset <;> omega
  rw [if_neg hc'] at hset
  split at hset <;> omega

theorem Locks.set {is_flushing is_flushing' : Bool} {i : Nat} {c c' : Call}
    (h : Locks calls is_flushing) (hi : calls[i]? = some c)
    (hstate : c'.holdsState = true → c.holdsState = true ∨ calls.countP Call.holdsState = 0)
    (hgate : c'.holdsGate = true → c.holdsGate = true ∨ calls.countP Call.holdsGate = 0)
    (hflushing : c'.flushing = true → c.flushing = true ∨ calls.countP Call.flushing = 0)
    (hleads : c'.leads.toNat + is_flushing.toNat = c.leads.toNat + is_flushing'.toNat) :
    Locks (calls.set i c') is_flushing' := by
  refine ⟨countP_set_le_one h.state hi hstate, countP_set_le_one h.gate hi hgate,
    countP_set_le_one h.flushing hi hflushing, ?_⟩
  have hset := countP_set_add hi c' Call.leads
  have hcount := h.leads
  have hbool : ∀ b : Bool, (if b = true then 1 else 0) = b.toNat := by decide
  rw [hbool, hbool] at hset
  omega

/-- While one call has the state lock and nobody leads, no other call is flushing. -/
theorem Locks.flushing_eq_zero {i : Nat} {c : Call} (h : Locks calls false)
    (hi : calls[i]? = some c) (hstate : c.holdsState = true) (hc : c.flushing = false) :
    calls.countP Call.flushing = 0 := by
  rw [countP_eq_zero]
  intro d hd hflushing
  obtain ⟨j, hj⟩ := mem_iff_getElem?.mp hd
  rcases Call.leads_or_holdsState hflushing with hleads | hholds
  · exact absurd hleads (countP_eq_zero.mp h.leads d hd)
  cases eq_of_countP_le_one h.state hi hstate hj hholds
  cases hi.symm.trans hj
  rw [hc] at hflushing
  cases hflushing

theorem Locks.is_flushing {f : Bool} {i : Nat} {c : Call} (h : Locks calls f)
    (hi : calls[i]? = some c) (hc : c.leads = true) : f = true := by
  have hpos := countP_pos_iff.mpr ⟨c, mem_of_getElem? hi, hc⟩
  rw [h.leads] at hpos
  cases f
  · cases hpos
  · rfl

/-! ## What holds in every reachable state -/

/-- Copies of the records of the log from the place `n` to the place `d`. -/
def copies (log : List Logged) (n d : Nat) : List (Nat × Bytes) :=
  ((log.take d).drop n).map fun r => (r.lsn, r.bytes)

section Predicates

-- the files that the open found and the last LSN in them
variable (o : SegmentWriter) (base : Nat) (w : World)

/-- The records that a leader found: those behind the flushed ones, through `durable_lsn`. -/
structure Batch.Good (log : List Logged) (flushed_lsn target : Nat) (batch : Batch) : Prop where
  target_le : target ≤ batch.durable_lsn
  flushed_lt : flushed_lsn < batch.durable_lsn
  durable_le : batch.durable_lsn ≤ base + log.length
  consume : batch.bytes_to_consume =
    (bytesOf ((log.take (batch.durable_lsn - base)).drop (flushed_lsn - base))).length

/-- The files hold the records through this LSN, all of them synced. -/
def FlushedTo (lsn : Nat) : Prop :=
  Written o (w.log.take (lsn - base)) [] w.writer.closed w.writer.file ∧
    SyncedTo o w.log (lsn - base) w.writer

/-- What a flush has done by the time it is in a stage. -/
def StageGood (target : Nat) : FlushStage → Prop
  | .ok => target ≤ w.flushed_lsn
  | .announce again | .notify again => again = false → target ≤ w.flushed_lsn
  | .elected | .active => w.flush_error = none ∧ FlushedTo o base w w.flushed_lsn
  | .found_empty | .empty_active =>
    (w.flush_error = none ∧ FlushedTo o base w w.flushed_lsn) ∧ target ≤ w.flushed_lsn
  | .lock_writer batch records =>
    (w.flush_error = none ∧ FlushedTo o base w w.flushed_lsn) ∧
      batch.Good base w.log w.flushed_lsn target ∧
      records = copies w.log (w.flushed_lsn - base) (batch.durable_lsn - base)
  | .writing batch records =>
    w.flush_error = none ∧ batch.Good base w.log w.flushed_lsn target ∧
      ∃ n m, w.flushed_lsn ≤ base + m ∧ m ≤ n ∧ base + n ≤ batch.durable_lsn ∧
        records = copies w.log n (batch.durable_lsn - base) ∧
        Written o (w.log.take n) [] w.writer.closed w.writer.file ∧ SyncedTo o w.log m w.writer
  | .written batch flush_result | .publish batch flush_result | .publish_active batch flush_result
  | .publish_result batch flush_result =>
    batch.Good base w.log w.flushed_lsn target ∧
      (flush_result = .ok () → w.flush_error = none ∧ FlushedTo o base w batch.durable_lsn)
  | _ => True

def CallGood : Call → Prop
  | .append (.push lsn entry) => lsn + 1 = w.next_lsn ∧ entry.record_size ≤ w.buffer.free_space
  | .append (.ok lsn) => base < lsn ∧ lsn ≤ base + w.log.length
  | .append _ => True
  | .flush_up_to target stage =>
    (stage ≠ .start → target < w.next_lsn) ∧ StageGood o base w target stage

structure Good : Prop where
  locks : Locks w.calls w.is_flushing
  numbered : ∀ (k : Nat) r, w.log[k]? = some r → r.lsn = base + k + 1
  next : w.next_lsn = base + w.log.length + 1 + w.calls.countP Call.isPush
  flushed_ge : base ≤ w.flushed_lsn
  flushed_le : w.flushed_lsn ≤ base + w.log.length
  buffer : w.buffer.Represents (w.log.drop (w.flushed_lsn - base))
  synced : ∃ m, w.flushed_lsn ≤ base + m ∧ m ≤ w.log.length ∧ SyncedTo o w.log m w.writer
  traced : Traced o w.log w.writer
  quiet : w.calls.countP Call.flushing = 0 → w.flush_error = none →
    FlushedTo o base w w.flushed_lsn
  calls : ∀ (j : Nat) c, w.calls[j]? = some c → CallGood o base w c

end Predicates

section Frames

variable {o : SegmentWriter} {base : Nat} {w w' : World} {c : Call}

/-- A call that is not flushing asks only how far the log and its flushes are. -/
theorem CallGood.frame (h : CallGood o base w c) (hnext : w.next_lsn ≤ w'.next_lsn)
    (hflushed : w.flushed_lsn ≤ w'.flushed_lsn) (hlog : w'.log = w.log) (hc : c.flushing = false)
    (hpush : c.isPush = true → w'.next_lsn = w.next_lsn ∧ w'.buffer = w.buffer) :
    CallGood o base w' c := by
  cases c with
  | append stage =>
    cases stage with
    | push lsn entry =>
      obtain ⟨hsame, hbuffer⟩ := hpush rfl
      unfold CallGood at h ⊢
      rw [hsame, hbuffer]
      exact h
    | ok lsn =>
      unfold CallGood
      rw [hlog]
      exact h
    | _ => trivial
  | flush_up_to target stage =>
    obtain ⟨htarget, hstage⟩ := h
    refine ⟨fun hs => (htarget hs).trans_le hnext, ?_⟩
    cases stage with
    | ok => exact le_trans hstage hflushed
    | announce again | notify again => exact fun hagain => le_trans (hstage hagain) hflushed
    | _ => trivial

/-- A flush does not ask for the LSNs that are given out while it runs. -/
theorem CallGood.frame_next {next_lsn : Nat} (h : CallGood o base w c)
    (hnext : w.next_lsn ≤ next_lsn) (hpush : c.isPush = false) :
    CallGood o base { w with next_lsn } c := by
  cases c with
  | append stage =>
    cases stage with
    | push lsn entry => cases hpush
    | ok lsn => exact h
    | _ => trivial
  | flush_up_to target stage => exact ⟨fun hs => (h.1 hs).trans_le hnext, h.2⟩

variable {r : Logged} {buffer : WalBuffer}

theorem FlushedTo.grow (h : FlushedTo o base w lsn) (buffer : WalBuffer)
    (hle : lsn ≤ base + w.log.length) :
    FlushedTo o base { w with buffer, log := w.log ++ [r] } lsn := by
  have hlen : lsn - base ≤ w.log.length := by omega
  refine ⟨?_, h.2.grow hlen r⟩
  dsimp only
  rw [take_append_of_le_length hlen]
  exact h.1

theorem copies_grow {n d : Nat} (hd : d ≤ w.log.length) :
    copies (w.log ++ [r]) n d = copies w.log n d := by
  unfold copies
  rw [take_append_of_le_length hd]

theorem Batch.Good.grow (h : batch.Good base w.log w.flushed_lsn target) :
    batch.Good base (w.log ++ [r]) w.flushed_lsn target := by
  have hlen : batch.durable_lsn - base ≤ w.log.length := by
    have := h.durable_le
    omega
  refine ⟨h.target_le, h.flushed_lt, h.durable_le.trans (by simp), ?_⟩
  rw [take_append_of_le_length hlen]
  exact h.consume

/-- A record that is pushed comes behind everything a flush knows of. -/
theorem CallGood.grow (h : CallGood o base w c) (hflushed : w.flushed_lsn ≤ base + w.log.length)
    (hpush : c.isPush = false) :
    CallGood o base { w with buffer, log := w.log ++ [r] } c := by
  cases c with
  | append stage =>
    cases stage with
    | push lsn entry => cases hpush
    | ok lsn => exact ⟨h.1, h.2.trans (by simp)⟩
    | _ => trivial
  | flush_up_to target stage =>
    obtain ⟨htarget, hstage⟩ := h
    refine ⟨htarget, ?_⟩
    cases stage with
    | elected | active => exact ⟨hstage.1, hstage.2.grow buffer hflushed⟩
    | found_empty | empty_active =>
      exact ⟨⟨hstage.1.1, hstage.1.2.grow buffer hflushed⟩, hstage.2⟩
    | lock_writer batch records =>
      obtain ⟨⟨herr, hfiles⟩, hbatch, hrecords⟩ := hstage
      refine ⟨⟨herr, hfiles.grow buffer hflushed⟩, hbatch.grow, ?_⟩
      have := hbatch.durable_le
      rw [hrecords, copies_grow (by omega)]
    | writing batch records =>
      obtain ⟨herr, hbatch, n, m, hm, hmn, hn, hrecords, hwritten, hsynced⟩ := hstage
      have hle := hbatch.durable_le
      refine ⟨herr, hbatch.grow, n, m, hm, hmn, hn, ?_, ?_, hsynced.grow (by omega) r⟩
      · rw [hrecords, copies_grow (by omega)]
      dsimp only
      rw [take_append_of_le_length (by omega)]
      exact hwritten
    | written batch flush_result | publish batch flush_result | publish_active batch flush_result
    | publish_result batch flush_result =>
      obtain ⟨hbatch, hok⟩ := hstage
      exact ⟨hbatch.grow, fun hres => ⟨(hok hres).1, (hok hres).2.grow buffer hbatch.durable_le⟩⟩
    | announce again | notify again | ok => exact hstage
    | _ => trivial

end Frames

/-! ## Steps -/

section Steps

variable {o : SegmentWriter} {base : Nat} {w w' : World} {i : Nat} {c c' : Call}

theorem Good.not_flushing (h : Good o base w) (hi : w.calls[i]? = some c) (hc : c.flushing = true)
    {j : Nat} {d : Call} (hj : w.calls[j]? = some d) (hne : j ≠ i) : d.flushing = false := by
  rw [Bool.eq_false_iff]
  intro hd
  exact hne (eq_of_countP_le_one h.locks.flushing hj hd hi hc)

theorem Good.not_isPush (h : Good o base w) (hi : w.calls[i]? = some c) (hc : c.holdsState = true)
    {j : Nat} {d : Call} (hj : w.calls[j]? = some d) (hne : j ≠ i) : d.isPush = false := by
  rw [Bool.eq_false_iff]
  intro hd
  exact hne (eq_of_countP_le_one h.locks.state hj (Call.holdsState_of_isPush hd) hi hc)

theorem calls_set (hi : w.calls[i]? = some c) (hnew : CallGood o base w' c')
    (hold : ∀ (j : Nat) d, w.calls[j]? = some d → j ≠ i → CallGood o base w' d) (j : Nat) (d : Call)
    (hj : (w.calls.set i c')[j]? = some d) : CallGood o base w' d := by
  rw [getElem?_set_eq_ite hi] at hj
  split at hj
  · cases hj
    exact hnew
  · exact hold j d hj ‹_›

theorem quiet_set (h : Good o base w) (hi : w.calls[i]? = some c)
    (hquiet : c'.flushing = false → c.flushing = true → FlushedTo o base w w.flushed_lsn)
    (hzero : (w.calls.set i c').countP Call.flushing = 0) (herr : w.flush_error = none) :
    FlushedTo o base w w.flushed_lsn := by
  have hset := countP_set_add hi c' Call.flushing
  by_cases hc : c.flushing = true
  · refine hquiet ?_ hc
    rw [Bool.eq_false_iff]
    intro hc'
    rw [if_pos hc', if_pos hc] at hset
    have hpos := countP_pos_iff.mpr ⟨c, mem_of_getElem? hi, hc⟩
    omega
  rw [if_neg hc] at hset
  exact h.quiet (by omega) herr

theorem countP_isPush_set (hi : w.calls[i]? = some c) (hpush : c'.isPush = c.isPush) :
    (w.calls.set i c').countP Call.isPush = w.calls.countP Call.isPush := by
  have hset := countP_set_add hi c' Call.isPush
  rw [hpush] at hset
  omega

section

variable (h : Good o base w)

include h

/-- A step that changes nothing but the stage of one call and maybe a flag. -/
theorem Good.move (hi : w.calls[i]? = some c) {is_flushing flush_active flush_failed : Bool}
    (hlocks : Locks (w.calls.set i c') is_flushing) (hpush : c'.isPush = c.isPush)
    (hquiet : c'.flushing = false → c.flushing = true → FlushedTo o base w w.flushed_lsn)
    (hgood : CallGood o base w c') :
    Good o base { w with is_flushing, flush_active, flush_failed, calls := w.calls.set i c' } where
  __ := h
  locks := hlocks
  next := by
    dsimp only
    rw [countP_isPush_set hi hpush]
    exact h.next
  quiet hzero herr := by
    have hfiles := quiet_set h hi hquiet hzero herr
    exact hfiles
  calls := calls_set hi hgood fun j d hj _ => h.calls j d hj

/-- A step of a call that neither flushes nor has an LSN, and takes no lock. -/
theorem Good.pass (hi : w.calls[i]? = some c) (hstate : c'.holdsState = false)
    (hgate : c'.holdsGate = true → c.holdsGate = true ∨ w.gateFree = true)
    (hflushing : c.flushing = false) (hflushing' : c'.flushing = false) (hpush : c.isPush = false)
    (hpush' : c'.isPush = false) (hgood : CallGood o base w c') : Good o base (w.setCall i c') := by
  have hleads : ∀ {d : Call}, d.flushing = false → d.leads = false := by
    intro d hd
    rw [Bool.eq_false_iff] at hd ⊢
    exact fun hleads => hd (Call.flushing_of_leads hleads)
  refine h.move hi (h.locks.set hi ?_ ?_ ?_ ?_) (hpush'.trans hpush.symm) ?_ hgood
  · intro hs
    rw [hstate] at hs
    cases hs
  · exact fun hg => (hgate hg).imp_right countP_eq_zero_of_free
  · intro hf
    rw [hflushing'] at hf
    cases hf
  · rw [hleads hflushing, hleads hflushing']
  intro _ hf
  rw [hflushing] at hf
  cases hf

theorem good_alloc {entry : Entry} (hi : w.calls[i]? = some (.append (.locked entry)))
    (hroom : entry.record_size ≤ w.buffer.free_space) :
    Good o base ({ w with next_lsn := w.next_lsn + 1 }.setAppend i (.push w.next_lsn entry)) where
  __ := h
  locks := h.locks.set hi (fun _ => .inl rfl) nofun nofun rfl
  next := by
    have hset : (w.calls.set i (.append (.push w.next_lsn entry))).countP Call.isPush + 0 =
      w.calls.countP Call.isPush + 1 := countP_set_add hi _ _
    have hnext := h.next
    change w.next_lsn + 1 = base + w.log.length + 1 +
      (w.calls.set i (.append (.push w.next_lsn entry))).countP Call.isPush
    omega
  quiet hzero herr := by
    have hfiles := quiet_set h hi nofun hzero herr
    exact hfiles
  calls := calls_set hi ⟨rfl, hroom⟩ fun j d hj hne =>
    (h.calls j d hj).frame_next (Nat.le_succ _) (h.not_isPush hi rfl hj hne)

/-- The record goes behind all the others, with the LSN behind theirs. -/
theorem good_push {entry : Entry} (hi : w.calls[i]? = some (.append (.push lsn entry))) :
    ∃ buffer, w.buffer.push_record lsn (entry.bytes lsn) = .ok buffer ∧
      Good o base
        ({ w with buffer, log := w.log ++ [Logged.mk lsn entry] }.setAppend i (.ok lsn)) := by
  obtain ⟨hlsn, hroom⟩ := h.calls i _ hi
  have hlen : (Logged.mk lsn entry).bytes.length = entry.record_size := entry.length_bytes lsn
  obtain ⟨buffer, hpushed, _, hbuffer⟩ := h.buffer.push_record
    (Logged.bytes_length_pos _) (hlen.le.trans hroom)
  have hset : (w.calls.set i (.append (.ok lsn))).countP Call.isPush + 1 =
    w.calls.countP Call.isPush + 0 := countP_set_add hi _ _
  have hone : w.calls.countP Call.isPush ≤ 1 :=
    (countP_mono_left fun _ _ hc => Call.holdsState_of_isPush hc).trans h.locks.state
  have hnext := h.next
  have hle := h.flushed_le
  refine ⟨buffer, hpushed, h.locks.set hi nofun nofun nofun rfl, ?_, ?_, h.flushed_ge, ?_, ?_, ?_,
    h.traced.grow _, ?_, ?_⟩
  · intro k r hr
    rcases getElem?_concat_cases hr with hr | ⟨rfl, rfl⟩
    · exact h.numbered k r hr
    change lsn = base + w.log.length + 1
    omega
  · change w.next_lsn = base + (w.log ++ [_]).length + 1 +
      (w.calls.set i (.append (.ok lsn))).countP Call.isPush
    rw [length_append, length_singleton]
    omega
  · exact hle.trans (by simp [World.setAppend, World.setCall])
  · change buffer.Represents ((w.log ++ [_]).drop (w.flushed_lsn - base))
    rw [drop_append_of_le_length (by omega)]
    exact hbuffer
  · obtain ⟨m, hm, hm', hsynced⟩ := h.synced
    exact ⟨m, hm, hm'.trans (by simp [World.setAppend, World.setCall]), hsynced.grow hm' _⟩
  · intro hzero herr
    have hfiles := quiet_set h hi nofun hzero herr
    exact hfiles.grow buffer hle
  refine calls_set hi ⟨?_, ?_⟩ fun j d hj hne =>
    (h.calls j d hj).grow hle (h.not_isPush hi rfl hj hne)
  · omega
  change lsn ≤ base + (w.log ++ [_]).length
  rw [length_append, length_singleton]
  omega

/-- The leader finds the records behind the flushed ones, or it finds that all are flushed. -/
theorem good_active (hi : w.calls[i]? = some (.flush_up_to target .active))
    (hstep : w.runFlush i target .active = some w') : Good o base w' := by
  obtain ⟨htarget, herr, hfiles⟩ := h.calls i _ hi
  have htarget := htarget nofun
  have hnext := h.next
  have hge := h.flushed_ge
  have hnone : w.calls.countP Call.isPush = 0 := by
    rw [countP_eq_zero]
    intro d hd hpush
    obtain ⟨j, hj⟩ := mem_iff_getElem?.mp hd
    by_cases hji : j = i
    · cases hji
      cases hi.symm.trans hj
      cases hpush
    rw [h.not_isPush hi rfl hj hji] at hpush
    cases hpush
  simp only [World.runFlush, h.buffer.buffered_prefix_len, h.buffer.copy_records] at hstep
  cases hlast : (w.log.drop (w.flushed_lsn - base)).getLast? with
  | none =>
    rw [hlast] at hstep
    cases hstep
    have hall := drop_eq_nil_iff.mp (getLast?_eq_none_iff.mp hlast)
    have hdone : target ≤ w.flushed_lsn := by omega
    refine h.move hi (h.locks.set hi (fun _ => .inl rfl) nofun (fun _ => .inl rfl) rfl) rfl nofun
      ⟨fun _ => htarget, ⟨herr, hfiles⟩, hdone⟩
  | some last =>
    rw [hlast] at hstep
    cases hstep
    have hlt : w.flushed_lsn - base < w.log.length := by
      by_contra hge
      rw [drop_eq_nil_iff.mpr (by omega)] at hlast
      cases hlast
    have hlsn : last.lsn = base + w.log.length := by
      rw [getLast?_drop, if_neg (by omega), getLast?_eq_getElem?] at hlast
      have := h.numbered _ _ hlast
      omega
    have htake : w.log.take (last.lsn - base) = w.log := by
      rw [hlsn, Nat.add_sub_cancel_left, take_length]
    refine h.move hi (h.locks.set hi nofun nofun (fun _ => .inl rfl) rfl) rfl nofun
      ⟨fun _ => htarget, ⟨herr, hfiles⟩, ⟨?_, ?_, hlsn.le, ?_⟩, ?_⟩
    · dsimp only
      omega
    · dsimp only
      omega
    · dsimp only
      rw [htake, bytesOf]
    unfold copies
    dsimp only
    rw [htake]

/-- What the leader does to the files keeps the other calls as they are. -/
theorem Good.write {writer : SegmentWriter} (hi : w.calls[i]? = some c) (hc : c.flushing = true)
    (hpush : c.isPush = false) (hpush' : c'.isPush = false)
    (hlocks : Locks (w.calls.set i c') w.is_flushing) (hflushing : c'.flushing = true)
    (htraced : Traced o w.log writer)
    (hsynced : ∃ m, w.flushed_lsn ≤ base + m ∧ m ≤ w.log.length ∧ SyncedTo o w.log m writer)
    (hgood : CallGood o base { w with writer } c') :
    Good o base ({ w with writer }.setCall i c') where
  __ := h
  locks := hlocks
  next := by
    have hsame := countP_isPush_set hi (hpush'.trans hpush.symm)
    change w.next_lsn = base + w.log.length + 1 + (w.calls.set i c').countP Call.isPush
    rw [hsame]
    exact h.next
  synced := hsynced
  traced := htraced
  quiet hzero := by
    have hset := countP_set_add hi c' Call.flushing
    rw [if_pos hc, if_pos hflushing] at hset
    have hpos := countP_pos_iff.mpr ⟨c, mem_of_getElem? hi, hc⟩
    change (w.calls.set i c').countP Call.flushing = 0 at hzero
    omega
  calls := calls_set hi hgood fun j d hj hne =>
    (h.calls j d hj).frame le_rfl le_rfl rfl (h.not_flushing hi hc hj hne) fun _ => ⟨rfl, rfl⟩

end

theorem copies_cons {log : List Logged} {n d : Nat} {record : Bytes} {rest : List (Nat × Bytes)}
    (h : (lsn, record) :: rest = copies log n d) :
    ∃ r, log[n]? = some r ∧ n < d ∧ r.lsn = lsn ∧ r.bytes = record ∧
      rest = copies log (n + 1) d := by
  unfold copies at h
  obtain ⟨r, rs, hrs, hr, hrest⟩ := map_eq_cons_iff.mp h.symm
  have hhead := congrArg List.head? hrs
  rw [head?_cons, head?_drop, getElem?_take] at hhead
  have htail := congrArg List.tail hrs
  rw [tail_drop, tail_cons] at htail
  split at hhead
  · next hlt =>
    cases hr
    refine ⟨r, hhead, hlt, rfl, rfl, ?_⟩
    unfold copies
    rw [htail, hrest]
  · cases hhead

/-- The next record of the leader's goes behind those that it has written. -/
theorem good_writeNext {record : Bytes} {rest : List (Nat × Bytes)}
    {fault : Option WriteFault} (h : Good o base w)
    (hi : w.calls[i]? = some (.flush_up_to target (.writing batch ((lsn, record) :: rest))))
    (hstep : w.writeNext i target batch lsn record rest fault = some w') : Good o base w' := by
  obtain ⟨htarget, herr, hbatch, n, m, hm, hmn, hn, hrecords, hwritten, hsynced⟩ := h.calls i _ hi
  obtain ⟨r, hr, hlt, rfl, rfl, hrest⟩ := copies_cons hrecords
  have hlen := lt_of_getElem? hr
  have hdurable := hbatch.durable_le
  unfold World.writeNext at hstep
  split at hstep
  · next writer hwrite =>
    cases hstep
    obtain ⟨htraced, ⟨m', hm', hmn', hsynced'⟩, hnext⟩ :=
      write_record_spec hwritten hsynced hmn hr hwrite
    refine h.write hi rfl rfl rfl (h.locks.set hi nofun nofun (fun _ => .inl rfl) rfl) rfl htraced
      ⟨m', by omega, by omega, hsynced'⟩ ⟨fun _ => htarget nofun, herr, hbatch, ?_⟩
    exact ⟨n + 1, m', by dsimp only; omega, by omega, by omega, hrest, hnext rfl, hsynced'⟩
  · next writer hwrite =>
    cases hstep
    obtain ⟨htraced, ⟨m', hm', hmn', hsynced'⟩, -⟩ :=
      write_record_spec hwritten hsynced hmn hr hwrite
    exact h.write hi rfl rfl rfl (h.locks.set hi nofun nofun (fun _ => .inl rfl) rfl) rfl htraced
      ⟨m', by omega, by omega, hsynced'⟩ ⟨fun _ => htarget nofun, hbatch, nofun⟩
  · cases hstep

/-- A sync behind the last record makes the whole batch durable. -/
theorem good_sync (h : Good o base w)
    (hi : w.calls[i]? = some (.flush_up_to target (.writing batch []))) :
    Good o base
      ({ w with writer := w.writer.sync }.setFlush i target (.written batch (.ok ()))) := by
  obtain ⟨htarget, herr, hbatch, n, m, hm, hmn, hn, hrecords, hwritten, hsynced⟩ := h.calls i _ hi
  have hdurable := hbatch.durable_le
  have hall : n = batch.durable_lsn - base := by
    unfold copies at hrecords
    have hnil := drop_eq_nil_iff.mp (map_eq_nil_iff.mp hrecords.symm)
    rw [length_take] at hnil
    omega
  have hsync : SyncedTo o w.log n w.writer.sync := SyncedTo.sync hwritten
  have hlsn : w.flushed_lsn ≤ base + n := by omega
  have hlen : n ≤ w.log.length := by omega
  refine h.write hi rfl rfl rfl (h.locks.set hi nofun nofun (fun _ => .inl rfl) rfl) rfl
    (Written.traced hwritten hlen) ⟨n, hlsn, hlen, hsync⟩
    ⟨fun _ => htarget nofun, hbatch, fun _ => ?_⟩
  refine ⟨herr, ?_⟩
  unfold FlushedTo
  rw [← hall]
  exact ⟨hwritten, hsync⟩

/-- The records that the leader takes out of the buffer are the ones that it wrote. -/
theorem good_publish_ok (h : Good o base w)
    (hi : w.calls[i]? = some (.flush_up_to target (.publish_result batch (.ok ())))) :
    ∃ buffer, w.buffer.consume_prefix batch.bytes_to_consume = some buffer ∧
      Good o base ({ w with buffer, flushed_lsn := batch.durable_lsn }.setFlush i target
        (.announce true)) := by
  obtain ⟨htarget, hbatch, hok⟩ := h.calls i _ hi
  obtain ⟨herr, hfiles⟩ := hok rfl
  have hlt := hbatch.flushed_lt
  have hle := hbatch.durable_le
  have hge := h.flushed_ge
  have hsplit : w.log.drop (w.flushed_lsn - base) =
      (w.log.take (batch.durable_lsn - base)).drop (w.flushed_lsn - base) ++
        w.log.drop (batch.durable_lsn - base) := by
    nth_rewrite 1 [← take_append_drop (batch.durable_lsn - base) w.log]
    rw [drop_append_of_le_length]
    rw [length_take]
    omega
  have hbuffer := h.buffer
  rw [hsplit] at hbuffer
  obtain ⟨buffer, hconsume, _, hrest⟩ := hbuffer.consume_prefix
  rw [← bytesOf, ← hbatch.consume] at hconsume
  have hpush : (w.calls.set i (.flush_up_to target (.announce true))).countP Call.isPush =
    w.calls.countP Call.isPush := countP_isPush_set hi rfl
  refine ⟨buffer, hconsume, h.locks.set hi nofun nofun nofun rfl, h.numbered, ?_, ?_, hle, hrest,
    ⟨batch.durable_lsn - base, ?_, ?_, hfiles.2⟩, h.traced, fun _ _ => hfiles, ?_⟩
  · exact h.next.trans (by rw [← hpush]; rfl)
  · exact hge.trans hlt.le
  · change batch.durable_lsn ≤ base + (batch.durable_lsn - base)
    omega
  · change batch.durable_lsn - base ≤ w.log.length
    omega
  refine calls_set hi ⟨fun _ => htarget nofun, nofun⟩ fun j d hj hne' => ?_
  refine (h.calls j d hj).frame le_rfl hlt.le rfl (h.not_flushing hi rfl hj hne') fun hd => ?_
  rw [h.not_isPush hi rfl hj hne'] at hd
  cases hd

/-- Behind a flush that failed nobody is elected any more. -/
theorem good_publish_err {e : FlushError} (h : Good o base w)
    (hi : w.calls[i]? = some (.flush_up_to target (.publish_result batch (.error e)))) :
    Good o base ({ w with flush_error := some e, flush_failed := true }.setFlush i target
      (.announce true)) := by
  obtain ⟨htarget, -⟩ := h.calls i _ hi
  have hpush : (w.calls.set i (.flush_up_to target (.announce true))).countP Call.isPush =
    w.calls.countP Call.isPush := countP_isPush_set hi rfl
  refine { h with
      locks := h.locks.set hi nofun nofun nofun rfl, next := ?_, quiet := nofun, calls := ?_ }
  · exact h.next.trans (by rw [← hpush]; rfl)
  exact calls_set hi ⟨fun _ => htarget nofun, nofun⟩ fun j d hj hne =>
    (h.calls j d hj).frame le_rfl le_rfl rfl (h.not_flushing hi rfl hj hne) fun _ => ⟨rfl, rfl⟩

theorem countP_map_wake
    (hq : ∀ target, q (.flush_up_to target .woken) = q (.flush_up_to target .parked))
    (calls : List Call) : (calls.map Call.wake).countP q = calls.countP q := by
  rw [countP_map]
  congr 1
  funext c
  exact Call.apply_wake hq c

section

variable (h : Good o base w)

include h

theorem Good.wake : Good o base { w with calls := w.calls.map Call.wake } := by
  have hstate : (w.calls.map Call.wake).countP Call.holdsState = _ :=
    countP_map_wake (fun _ => rfl) _
  have hgate : (w.calls.map Call.wake).countP Call.holdsGate = _ := countP_map_wake (fun _ => rfl) _
  have hflushing : (w.calls.map Call.wake).countP Call.flushing = _ :=
    countP_map_wake (fun _ => rfl) _
  have hleads : (w.calls.map Call.wake).countP Call.leads = _ := countP_map_wake (fun _ => rfl) _
  have hpush : (w.calls.map Call.wake).countP Call.isPush = _ := countP_map_wake (fun _ => rfl) _
  refine { h with locks := ⟨?_, ?_, ?_, ?_⟩, next := ?_, quiet := ?_, calls := ?_ }
  · exact hstate.trans_le h.locks.state
  · exact hgate.trans_le h.locks.gate
  · exact hflushing.trans_le h.locks.flushing
  · exact hleads.trans h.locks.leads
  · exact h.next.trans (by rw [← hpush])
  · exact fun hzero => h.quiet (hflushing.symm.trans hzero)
  intro j d hj
  rw [getElem?_map, map_eq_some_iff] at hj
  obtain ⟨c, hj, rfl⟩ := hj
  have hgood := h.calls j c hj
  cases c with
  | append stage => exact hgood
  | flush_up_to target stage =>
    cases stage with
    | parked => exact ⟨fun _ => hgood.1 nofun, trivial⟩
    | _ => exact hgood

theorem good_runAppend {stage : AppendStage} (hi : w.calls[i]? = some (.append stage))
    (hstep : w.runAppend i stage = some w') : Good o base w' := by
  cases appends_of_run hstep with
  | tooLarge | size | refuse => exact h.pass hi rfl nofun rfl rfl rfl rfl trivial
  | lock entry hfree =>
    have hzero : w.calls.countP Call.holdsState = 0 := countP_eq_zero_of_free hfree
    exact h.move hi (h.locks.set hi (fun _ => .inr hzero) nofun nofun rfl) rfl nofun trivial
  | allocate entry hroom => exact good_alloc h hi hroom
  | push lsn entry buffer hpush =>
    obtain ⟨buffer', hpush', hgood⟩ := good_push h hi
    cases hpush.symm.trans hpush'
    exact hgood
  | overrun lsn entry e hpush =>
    obtain ⟨buffer', hpush', hgood⟩ := good_push h hi
    cases hpush.symm.trans hpush'

theorem good_runFlush {stage : FlushStage} (hi : w.calls[i]? = some (.flush_up_to target stage))
    (hstep : w.runFlush i target stage = some w') : Good o base w' := by
  have hgood := h.calls i _ hi
  cases stage with
  | start =>
    cases hstep
    have hnext := h.next
    split
    · next hzero =>
      exact h.pass hi rfl nofun rfl rfl rfl rfl ⟨fun _ => by omega, hzero.trans_le (Nat.zero_le _)⟩
    · exact h.pass hi rfl nofun rfl rfl rfl rfl ⟨fun _ => by omega, trivial⟩
  | fast =>
    cases hstep
    split
    · next hge => exact h.pass hi rfl nofun rfl rfl rfl rfl ⟨fun _ => hgood.1 nofun, hge⟩
    · exact h.pass hi rfl nofun rfl rfl rfl rfl ⟨fun _ => hgood.1 nofun, trivial⟩
  | lock_state | written batch flush_result =>
    -- the state lock is free, and the other locks are as they were
    obtain ⟨hfree, ⟨⟩⟩ := ite_none_right_eq_some.mp hstep
    have hzero : w.calls.countP Call.holdsState = 0 := countP_eq_zero_of_free hfree
    exact h.move hi (h.locks.set hi (fun _ => .inr hzero) nofun .inl rfl) rfl nofun
      ⟨fun _ => hgood.1 nofun, hgood.2⟩
  | locked =>
    simp only [World.runFlush] at hstep
    split at hstep
    · cases hstep
      exact h.pass hi rfl nofun rfl rfl rfl rfl ⟨fun _ => hgood.1 nofun, trivial⟩
    rename_i herr
    split at hstep
    · cases hstep
      exact h.pass hi rfl nofun rfl rfl rfl rfl ⟨fun _ => hgood.1 nofun, trivial⟩
    rename_i hidle
    cases hstep
    have hlocks := h.locks
    rw [Bool.eq_false_iff.mpr hidle] at hlocks
    have hzero := hlocks.flushing_eq_zero hi rfl rfl
    exact h.move hi (hlocks.set hi (fun _ => .inl rfl) nofun (fun _ => .inr hzero) rfl) rfl
      nofun ⟨fun _ => hgood.1 nofun, herr, h.quiet hzero herr⟩
  | lock_gate | woken | announce again =>
    obtain ⟨hfree, ⟨⟩⟩ := ite_none_right_eq_some.mp hstep
    exact h.pass hi rfl (fun _ => .inr hfree) rfl rfl rfl rfl ⟨fun _ => hgood.1 nofun, hgood.2⟩
  | gated | gated_failed | gated_active =>
    cases hstep
    split
    all_goals
      exact h.pass hi rfl (fun _ => .inl rfl) rfl rfl rfl rfl ⟨fun _ => hgood.1 nofun, trivial⟩
  | gated_wait =>
    cases hstep
    exact h.pass hi rfl nofun rfl rfl rfl rfl ⟨fun _ => hgood.1 nofun, trivial⟩
  | elected | publish_active batch flush_result =>
    cases hstep
    exact h.move hi (h.locks.set hi (fun _ => .inl rfl) nofun (fun _ => .inl rfl) rfl) rfl nofun
      ⟨fun _ => hgood.1 nofun, hgood.2⟩
  | active => exact good_active h hi hstep
  | found_empty | publish batch flush_result =>
    cases hstep
    have hlead : w.is_flushing = true := h.locks.is_flushing hi rfl
    refine h.move hi (h.locks.set hi (fun _ => .inl rfl) nofun (fun _ => .inl rfl) ?_) rfl nofun
      ⟨fun _ => hgood.1 nofun, hgood.2⟩
    rw [hlead]
    rfl
  | empty_active =>
    cases hstep
    exact h.move hi (h.locks.set hi nofun nofun nofun rfl) rfl (fun _ _ => hgood.2.1.2)
      ⟨fun _ => hgood.1 nofun, fun _ => hgood.2.2⟩
  | lock_writer batch records =>
    obtain ⟨-, ⟨⟩⟩ := ite_none_right_eq_some.mp hstep
    obtain ⟨htarget, ⟨herr, hfiles⟩, hbatch, hrecords⟩ := hgood
    have hge := h.flushed_ge
    have hlt := hbatch.flushed_lt
    exact h.move hi (h.locks.set hi nofun nofun (fun _ => .inl rfl) rfl) rfl nofun
      ⟨fun _ => htarget nofun, herr, hbatch, w.flushed_lsn - base, w.flushed_lsn - base, by omega,
        le_rfl, by omega, hrecords, hfiles⟩
  | writing batch records =>
    cases records with
    | nil =>
      cases hstep
      exact good_sync h hi
    | cons record rest => exact good_writeNext h hi hstep
  | publish_result batch flush_result =>
    cases flush_result with
    | ok _ =>
      obtain ⟨buffer, hconsume, hgood⟩ := good_publish_ok h hi
      simp only [World.runFlush, hconsume] at hstep
      cases hstep
      exact hgood
    | error e =>
      cases hstep
      exact good_publish_err h hi
  | notify again =>
    cases hstep
    have hi' : (w.calls.map Call.wake)[i]? = some (.flush_up_to target (.notify again)) := by
      rw [getElem?_map, hi]
      rfl
    split
    · exact h.wake.pass hi' rfl nofun rfl rfl rfl rfl ⟨fun _ => hgood.1 nofun, trivial⟩
    rename_i hagain
    exact h.wake.pass hi' rfl nofun rfl rfl rfl rfl
      ⟨fun _ => hgood.1 nofun, hgood.2 (Bool.eq_false_iff.mpr hagain)⟩
  | parked | ok | err e => cases hstep

theorem good_call (hstate : c.holdsState = false) (hgate : c.holdsGate = false)
    (hflushing : c.flushing = false) (hgood : CallGood o base w c) :
    Good o base { w with calls := w.calls ++ [c] } := by
  have hleads : c.leads = false := by
    rw [Bool.eq_false_iff] at hflushing ⊢
    exact fun hl => hflushing (Call.flushing_of_leads hl)
  have hpush : c.isPush = false := by
    rw [Bool.eq_false_iff] at hstate ⊢
    exact fun hp => hstate (Call.holdsState_of_isPush hp)
  have hcount : ∀ {q : Call → Bool}, q c = false →
      (w.calls ++ [c]).countP q = w.calls.countP q := by
    intro q hq
    rw [countP_append, countP_singleton, hq]
    rfl
  refine { h with locks := ⟨?_, ?_, ?_, ?_⟩, next := ?_, quiet := ?_, calls := ?_ }
  · exact (hcount hstate).trans_le h.locks.state
  · exact (hcount hgate).trans_le h.locks.gate
  · exact (hcount hflushing).trans_le h.locks.flushing
  · exact (hcount hleads).trans h.locks.leads
  · exact h.next.trans (by rw [← hcount hpush])
  · exact fun hzero => h.quiet ((hcount hflushing).symm.trans hzero)
  intro j d hj
  rcases mem_append.mp (mem_of_getElem? hj) with hd | hd
  · obtain ⟨k, hk⟩ := mem_iff_getElem?.mp hd
    exact h.calls k d hk
  cases mem_singleton.mp hd
  exact hgood

theorem good_step {e : Event} (hstep : step w e = some w') : Good o base w' := by
  cases steps_of_step hstep with
  | append entry => exact good_call h rfl rfl rfl trivial
  | flush_up_to lsn => exact good_call h rfl rfl rfl ⟨fun hs => absurd rfl hs, trivial⟩
  | runAppend hi hrun => exact good_runAppend h hi hrun
  | runFlush hi hrun => exact good_runFlush h hi hrun
  | write_fault hi hrun => exact good_writeNext h hi hrun
  | sync_fault hi =>
    obtain ⟨htarget, _, hbatch, _⟩ := h.calls _ _ hi
    exact h.move hi (h.locks.set hi nofun nofun (fun _ => .inl rfl) rfl) rfl nofun
      ⟨fun _ => htarget nofun, hbatch, nofun⟩
  | spurious_wakeup hi =>
    exact h.pass hi rfl nofun rfl rfl rfl rfl ⟨fun _ => (h.calls _ _ hi).1 nofun, trivial⟩

end

end Steps

theorem synced_open (segment_size : Nat) (segments : List Bytes) :
    (SegmentWriter.open segment_size segments).synced =
      (SegmentWriter.open segment_size segments).file.length := by
  unfold SegmentWriter.open
  split
  · rfl
  · split <;> rfl

theorem good_opened (buffer_capacity segment_size last_lsn : Nat) (segments : List Bytes) :
    Good (.open segment_size segments) last_lsn
      (.opened buffer_capacity segment_size segments last_lsn) := by
  have hsynced : SyncedTo (.open segment_size segments) [] 0 (.open segment_size segments) := by
    unfold SyncedTo
    rw [synced_open, take_length]
    exact ⟨le_rfl, Written.refl _⟩
  have hfiles : FlushedTo (.open segment_size segments) last_lsn
      (.opened buffer_capacity segment_size segments last_lsn) last_lsn := by
    unfold FlushedTo
    rw [Nat.sub_self]
    exact ⟨Written.refl _, hsynced⟩
  refine ⟨⟨Nat.zero_le _, Nat.zero_le _, Nat.zero_le _, rfl⟩, nofun, rfl, le_rfl, le_rfl,
    ?_, ?_, ?_, fun _ _ => hfiles, nofun⟩
  · change (WalBuffer.with_capacity buffer_capacity).Represents ([].drop (last_lsn - last_lsn))
    rw [drop_nil]
    exact WalBuffer.queued_with_capacity _
  · exact ⟨0, le_rfl, le_rfl, hsynced⟩
  · exact Written.traced (n := 0) (Written.refl _) le_rfl

end FluxDB.WalThreads
