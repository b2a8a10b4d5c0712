-- A log that is closed or lost and opened again. Whatever an open log has written, and wherever
-- behind its synced bytes the last segment is cut, `Wal::new` finds the records in front of the
-- cut and goes on with the next LSN.
import FluxDB.FlushedRecords

namespace FluxDB.WalThreads

open List Maps

/-! ## Numbers -/

/-- The records have the LSNs behind `base`, one after the other. -/
def NumberedFrom (base : Nat) (rs : List Logged) : Prop :=
  ∀ (i : Nat) r, rs[i]? = some r → r.lsn = base + i + 1

variable {rs : List Logged} {k : Nat}

theorem NumberedFrom.take {base : Nat} (h : NumberedFrom base rs) (n : Nat) :
    NumberedFrom base (rs.take n) := by
  intro i r hr
  rw [getElem?_take] at hr
  split at hr
  · exact h i r hr
  · cases hr

theorem NumberedFrom.append {base : Nat} {rs' : List Logged} (h : NumberedFrom base rs)
    (h' : NumberedFrom (base + rs.length) rs') : NumberedFrom base (rs ++ rs') := by
  intro i r hr
  rw [getElem?_append] at hr
  split at hr
  · exact h i r hr
  have := h' _ r hr
  omega

/-- The scan of records with consecutive LSNs ends at the last one. An empty log starts with
LSN 1. -/
theorem scan_numbered {base : Nat} (h : NumberedFrom base rs) (hbase : rs = [] → base = 0) :
    (rs.foldl (fun s r => s.see r.record) WalScan.start).next_lsn = base + rs.length + 1 ∧
    (rs.foldl (fun s r => s.see r.record) WalScan.start).flushed_lsn.getD 0 = base + rs.length := by
  have hscan : ∀ {rs : List Logged}, NumberedFrom base rs → rs ≠ [] →
      rs.foldl (fun s r => s.see r.record) WalScan.start =
        ⟨base + rs.length + 1, some (base + rs.length)⟩ := by
    intro rs h hne
    induction rs using List.reverseRecOn with
    | nil => exact absurd rfl hne
    | append_singleton rs r ih =>
      have hr : r.record.lsn = base + rs.length + 1 := h rs.length r getElem?_concat_length
      have hrs : NumberedFrom base rs := by
        have := h.take rs.length
        rwa [take_left] at this
      rw [foldl_append, foldl_cons, foldl_nil, length_append, length_singleton]
      by_cases hnil : rs = []
      · subst hnil
        unfold WalScan.see WalScan.start
        simp only [foldl_nil, hr, length_nil]
        simp
      rw [ih hrs hnil]
      unfold WalScan.see
      simp only [hr]
      simp
      omega
  by_cases hne : rs = []
  · subst hne
    rw [hbase rfl]
    exact ⟨rfl, rfl⟩
  rw [hscan h hne]
  exact ⟨rfl, rfl⟩

/-! ## Opening -/

/-- `Wal::new` on the segments that it finds. -/
def new_with_options (buffer_capacity segment_size : Nat) (segments : List Bytes) :
    Except OpenError World := do
  let (s, segments) ← scan_segments segments .start
  .ok {
    buffer_capacity
    next_lsn := s.next_lsn
    buffer := .with_capacity buffer_capacity
    is_flushing := false
    flush_error := none
    flushed_lsn := s.flushed_lsn.getD 0
    flush_failed := false
    flush_active := false
    writer := .open segment_size segments
    calls := []
    log := [] }

/-- Segments with whole records and a torn tail open as the log of the whole records. -/
theorem new_with_options_ok {base : Nat} (hnum : NumberedFrom base rs) (hbase : rs = [] → base = 0)
    (hfits : ∀ r ∈ rs, r.Fits) {closed : List Bytes} {file : Bytes}
    (hholds : Holds rs closed file) (buffer_capacity segment_size : Nat) :
    ∃ segments, new_with_options buffer_capacity segment_size (closed ++ [file]) =
        .ok (.opened buffer_capacity segment_size segments (base + rs.length)) ∧
      Whole rs (.open segment_size segments) := by
  obtain ⟨groups, last, torn, htorn, rfl, rfl, rfl⟩ := hholds
  have hscan := scan_segments_ok (fun r hr => hfits r (mem_append_left _ hr))
    (fun r hr => hfits r (mem_append_right _ hr)) htorn (s := .start)
  obtain ⟨hnext, hflushed⟩ := scan_numbered hnum hbase
  refine ⟨groups.map bytesOf ++ [bytesOf last], ?_, whole_open rfl segment_size⟩
  unfold new_with_options
  rw [hscan, Except.ok_bind]
  dsimp only
  rw [hnext, hflushed]
  rfl

/-! ## What an open log leaves behind -/

/-- The files of an open log hold the records that the open found and those written since. -/
theorem Written.holds {o : SegmentWriter} {found : List Logged} {piece : Bytes}
    {closed : List Bytes} {file : Bytes} (h : Written o rs piece closed file)
    (ho : Whole found o) : ∃ (groups : List (List Logged)) (last : List Logged),
      groups.flatten ++ last = found ++ rs ∧ closed = groups.map bytesOf ∧
        file = bytesOf last ++ piece := by
  obtain ⟨groups₀, last₀, rfl, hclosed₀, hfile₀⟩ := ho
  rcases h with ⟨hclosed, hfile⟩ | ⟨first, groups, last, rfl, hclosed, hfile⟩
  · refine ⟨groups₀, last₀ ++ rs, by simp, hclosed.trans hclosed₀, ?_⟩
    rw [hfile, hfile₀, bytesOf_append]
  refine ⟨groups₀ ++ [last₀ ++ first] ++ groups, last, by simp, ?_, hfile⟩
  rw [hclosed, hclosed₀, hfile₀]
  simp

/-- A file of whole records that is cut holds the first of them and a piece of the next one. -/
theorem take_bytesOf (last : List Logged) {torn : Bytes}
    (hk : k ≤ (bytesOf last ++ torn).length) :
    (∃ e r, last[e]? = some r ∧ ∃ n < r.bytes.length,
      (bytesOf last ++ torn).take k = bytesOf (last.take e) ++ r.bytes.take n) ∨
    ∃ n ≤ torn.length, (bytesOf last ++ torn).take k = bytesOf last ++ torn.take n := by
  induction last generalizing k with
  | nil =>
    rw [bytesOf_nil, nil_append] at hk ⊢
    exact .inr ⟨k, hk, rfl⟩
  | cons r last ih =>
    rw [bytesOf_cons, append_assoc] at hk ⊢
    by_cases hlt : k < r.bytes.length
    · left
      refine ⟨0, r, rfl, k, hlt, ?_⟩
      rw [take_append_of_le_length hlt.le, take_zero, bytesOf_nil, nil_append]
    rw [length_append] at hk
    have hcut : (r.bytes ++ (bytesOf last ++ torn)).take k =
        r.bytes ++ (bytesOf last ++ torn).take (k - r.bytes.length) := by
      rw [take_append, take_of_length_le (Nat.not_lt.mp hlt)]
    rw [hcut]
    rcases ih (k := k - r.bytes.length) (by omega) with ⟨e, x, hx, n, hn, heq⟩ | ⟨n, hn, heq⟩
    · left
      refine ⟨e + 1, x, hx, n, hn, ?_⟩
      rw [heq, take_succ_cons, bytesOf_cons, append_assoc]
    right
    exact ⟨n, hn, by rw [heq, append_assoc]⟩

theorem tornTail_take {torn : Bytes} (h : TornTail torn) (n : Nat) : TornTail (torn.take n) := by
  obtain ⟨r, hr, m, hm, rfl⟩ := h
  refine ⟨r, hr, min n m, by omega, ?_⟩
  rw [take_take]

/-- The files hold whole records and in front of the end of the next one a torn tail. -/
theorem Traced.torn {o w : SegmentWriter} {log : List Logged} (h : Traced o log w)
    (hfits : ∀ r ∈ log, r.Fits) :
    ∃ n piece, n ≤ log.length ∧ TornTail piece ∧
      (∀ r, log[n]? = some r → piece.length < r.bytes.length) ∧
      Written o (log.take n) piece w.closed w.file := by
  obtain ⟨n, piece, hn, hpiece, hwritten⟩ := h
  cases hr : log[n]? with
  | none =>
    rw [drop_of_length_le (getElem?_eq_none_iff.mp hr), take_nil, bytesOf_nil] at hpiece
    cases List.prefix_nil.mp hpiece
    exact ⟨n, [], hn, tornTail_nil, fun r hr' => absurd (hr.symm.trans hr') nofun, hwritten⟩
  | some r =>
    rw [next_of_getElem? hr] at hpiece
    by_cases hall : piece.length < r.bytes.length
    · refine ⟨n, piece, hn, ⟨r, hfits r (mem_of_getElem? hr), piece.length, hall, ?_⟩, ?_, hwritten⟩
      · exact List.prefix_iff_eq_take.mp hpiece
      intro r' hr'
      cases hr.symm.trans hr'
      exact hall
    -- the write that failed had reached the end of the record
    cases hpiece.eq_of_length_le (Nat.not_lt.mp hall)
    refine ⟨n + 1, [], (lt_of_getElem? hr), tornTail_nil, fun r' _ => r'.bytes_length_pos, ?_⟩
    rw [take_succ_of_getElem? hr]
    exact hwritten.complete

/-- A front of the records with no more bytes than another one and a piece of the record behind it
is no longer. -/
theorem le_of_length_bytesOf {m d t : Nat} (hm : m ≤ rs.length)
    (hlen : (bytesOf (rs.take m)).length ≤ (bytesOf (rs.take d)).length + t)
    (ht : ∀ r, rs[d]? = some r → t < r.bytes.length) : m ≤ d := by
  by_contra hlt
  have hd : d < rs.length := by omega
  have hr := getElem?_eq_getElem hd
  have hnext := ht _ hr
  have hsplit : rs.take m = rs.take (d + 1) ++ (rs.take m).drop (d + 1) := by
    nth_rewrite 1 [← take_append_drop (d + 1) (rs.take m)]
    rw [take_take, Nat.min_eq_left (by omega)]
  rw [hsplit, take_succ_of_getElem? hr, bytesOf_append, bytesOf_append] at hlen
  simp only [length_append, bytesOf_cons, bytesOf_nil, append_nil] at hlen
  omega

theorem length_flatten_map_bytesOf (groups : List (List Logged)) :
    (groups.map bytesOf).flatten.length = (bytesOf groups.flatten).length := by
  induction groups with
  | nil => rfl
  | cons g groups ih =>
    rw [map_cons, flatten_cons, flatten_cons, length_append, ih, bytesOf_append, length_append]

section Cut

variable {o : SegmentWriter} {base : Nat} {w : World} {found : List Logged}

/-- The records in front of a cut of the last segment, and what is left there of the next one. -/
theorem cut_records {log : List Logged} {groups : List (List Logged)} {last : List Logged}
    {piece : Bytes} {n : Nat} (hrs : groups.flatten ++ last = found ++ log.take n)
    (hn : n ≤ log.length) (hfits : ∀ r ∈ log, r.Fits) (hfound : ∀ r ∈ found, r.Fits)
    (htorn : TornTail piece) (hpiece : ∀ r, log[n]? = some r → piece.length < r.bytes.length)
    (hk : k ≤ (bytesOf last ++ piece).length) :
    ∃ d torn last', d ≤ found.length + n ∧ TornTail torn ∧
      (∀ r, (found ++ log)[d]? = some r → torn.length < r.bytes.length) ∧
      groups.flatten ++ last' = (found ++ log).take d ∧
      (bytesOf last ++ piece).take k = bytesOf last' ++ torn := by
  have hfront : (found ++ log).take (found.length + n) = groups.flatten ++ last := by
    rw [hrs, take_append, take_of_length_le (Nat.le_add_right _ _), Nat.add_sub_cancel_left]
  have hcount : groups.flatten.length + last.length = found.length + n := by
    have := congrArg List.length hfront
    rw [length_take, length_append, length_append] at this
    omega
  rcases take_bytesOf last hk with ⟨e, r, hr, j, hj, hcut⟩ | ⟨j, hj, hcut⟩
  · have he := lt_of_getElem? hr
    have hget : (found ++ log)[groups.flatten.length + e]? = some r := by
      rw [← getElem?_take_of_lt (by omega : _ < found.length + n), hfront,
        getElem?_append_right (Nat.le_add_right _ _), Nat.add_sub_cancel_left]
      exact hr
    have hmem : r.Fits := forall_mem_append.mpr ⟨hfound, hfits⟩ r (mem_of_getElem? hget)
    refine ⟨groups.flatten.length + e, r.bytes.take j, last.take e, by omega, ⟨r, hmem, j, hj, rfl⟩,
      ?_, ?_, hcut⟩
    · intro r' hr'
      cases hget.symm.trans hr'
      rw [length_take]
      omega
    rw [← Nat.min_eq_left (by omega : groups.flatten.length + e ≤ found.length + n),
      ← take_take, hfront, take_append, take_of_length_le (Nat.le_add_right _ _),
      Nat.add_sub_cancel_left]
  refine ⟨found.length + n, piece.take j, last, le_rfl, tornTail_take htorn j, ?_, hfront.symm,
    hcut⟩
  intro r hr
  rw [getElem?_append_right (Nat.le_add_right _ _), Nat.add_sub_cancel_left] at hr
  have := hpiece r hr
  rw [length_take]
  omega

/-- Cut anywhere behind its synced bytes, the last segment keeps the flushed records. -/
theorem Good.cut (h : Good o base w) (ho : Whole found o) (hfits : ∀ r ∈ w.log, r.Fits)
    (hfound : ∀ r ∈ found, r.Fits) (hk : w.writer.synced ≤ k) (hk' : k ≤ w.writer.file.length) :
    ∃ d, w.flushed_lsn ≤ base + d ∧ d ≤ w.log.length ∧
      Holds (found ++ w.log.take d) w.writer.closed (w.writer.file.take k) := by
  obtain ⟨n, piece, hn, htorn, hpiece, hwritten⟩ := h.traced.torn hfits
  obtain ⟨groups, last, hrs, hclosed, hfile⟩ := hwritten.holds ho
  obtain ⟨m, hm, hm', hsynced, hfront⟩ := h.synced
  obtain ⟨groups', last', hrs', hclosed', hfile'⟩ := hfront.holds ho
  have hbytes : (bytesOf (found ++ w.log.take m)).length = w.writer.closed.flatten.length +
      w.writer.synced := by
    rw [← hrs', hclosed', length_flatten_map_bytesOf, bytesOf_append, length_append,
      ← append_nil (bytesOf last'), ← hfile', length_take, Nat.min_eq_left hsynced]
  have htake : ∀ d, (found ++ w.log).take (found.length + d) = found ++ w.log.take d := by
    intro d
    rw [take_append, take_of_length_le (Nat.le_add_right _ _), Nat.add_sub_cancel_left]
  -- the records in front of the cut, and a piece of the next one
  obtain ⟨d, torn, last'', hd, htorn', hnext, hall, hcut⟩ := cut_records hrs hn hfits hfound htorn
    hpiece (hfile ▸ hk')
  rw [← hfile] at hcut
  have hlen : (bytesOf ((found ++ w.log).take d)).length + torn.length =
      w.writer.closed.flatten.length + k := by
    rw [← hall, hclosed, length_flatten_map_bytesOf, bytesOf_append, length_append,
      Nat.add_assoc, ← length_append, ← hcut, length_take, Nat.min_eq_left hk']
  have hle : found.length + m ≤ d := by
    refine le_of_length_bytesOf (t := torn.length) ?_ ?_ hnext
    · rw [length_append]
      omega
    rw [htake]
    omega
  have hd' : d = found.length + (d - found.length) := by omega
  rw [hd', htake] at hall
  exact ⟨d - found.length, by omega, by omega, groups, last'', torn, htorn', hall, hclosed, hcut⟩

end Cut

/-! ## Records that a reader can read back -/

/-- A record that is appended fits the fields of its header. -/
def Event.Fits : Event → Prop
  | .append entry => entry.Fits
  | _ => True

instance (e : Event) : Decidable e.Fits := by
  cases e <;> dsimp only [Event.Fits] <;> infer_instance

def Call.Fits : Call → Prop
  | append stage =>
    match stage with
    | .start entry | .lock entry | .locked entry => entry.Fits
    | .push lsn entry => entry.Fits ∧ lsn < 2 ^ 64
    | _ => True
  | flush_up_to _ _ => True

/-- Every record of the log and of the calls that are on their way can be read back. -/
structure Fitting (w : World) : Prop where
  log : ∀ r ∈ w.log, r.Fits
  calls : ∀ c ∈ w.calls, c.Fits

section Fitting

variable {w w' : World} {i : Nat}

theorem Fitting.set {c : Call} (h : Fitting w) (hlog : w'.log = w.log)
    (hcalls : w'.calls = w.calls.set i c) (hc : c.Fits) : Fitting w' := by
  refine ⟨hlog ▸ h.log, fun d hd => ?_⟩
  rw [hcalls] at hd
  exact forall_mem_set h.calls hc d hd

theorem fitting_runAppend {stage : AppendStage} (h : Fitting w)
    (hi : w.calls[i]? = some (.append stage)) (hlsn : w.next_lsn < 2 ^ 64)
    (hstep : w.runAppend i stage = some w') : Fitting w' := by
  have hfits := h.calls _ (mem_of_getElem? hi)
  cases appends_of_run hstep with
  | tooLarge | refuse | overrun => exact h.set rfl rfl trivial
  | size | lock => exact h.set rfl rfl hfits
  | allocate => exact h.set rfl rfl ⟨hfits, hlsn⟩
  | push lsn entry buffer hpush =>
    exact ⟨forall_mem_concat h.log ⟨hfits.1, hfits.2⟩, forall_mem_set h.calls trivial⟩

/-- What a step of a flush may do to the files. -/
inductive Touches (v : SegmentWriter) : SegmentWriter → Prop
  | kept : Touches v v
  | sync : Touches v v.sync
  | write {lsn : Nat} {record : Bytes} {fault : Option WriteFault}
    {result : Except FlushError Unit} {v' : SegmentWriter}
    (h : v.write_record lsn record fault = some (result, v')) : Touches v v'

theorem log_writeNext {target lsn : Nat} {batch : Batch} {record : Bytes}
    {rest : List (Nat × Bytes)} {fault : Option WriteFault}
    (hstep : w.writeNext i target batch lsn record rest fault = some w') :
    w'.log = w.log ∧ Touches w.writer w'.writer ∧ ∃ t s,
      w'.calls = w.calls.set i (.flush_up_to t s) ∨
        w'.calls = (w.calls.map Call.wake).set i (.flush_up_to t s) := by
  unfold World.writeNext at hstep
  split at hstep
  all_goals cases hstep
  all_goals exact ⟨rfl, .write ‹_›, _, _, .inl rfl⟩

theorem log_runFlush {target : Nat} {stage : FlushStage}
    (hstep : w.runFlush i target stage = some w') :
    w'.log = w.log ∧ Touches w.writer w'.writer ∧ ∃ t s,
      w'.calls = w.calls.set i (.flush_up_to t s) ∨
        w'.calls = (w.calls.map Call.wake).set i (.flush_up_to t s) := by
  cases stage with
  | writing batch records =>
    cases records with
    | nil =>
      cases hstep
      exact ⟨rfl, .sync, _, _, .inl rfl⟩
    | cons record rest => exact log_writeNext hstep
  | publish_result batch flush_result =>
    cases flush_result
    all_goals simp only [World.runFlush] at hstep
    all_goals try split at hstep
    all_goals cases hstep
    all_goals exact ⟨rfl, .kept, _, _, .inl rfl⟩
  | lock_state | locked | lock_gate | woken | active | lock_writer batch records
  | written batch flush_result | announce again =>
    simp only [World.runFlush] at hstep
    repeat' split at hstep
    all_goals cases hstep
    all_goals exact ⟨rfl, .kept, _, _, .inl rfl⟩
  | notify again =>
    cases hstep
    exact ⟨rfl, .kept, _, _, .inr rfl⟩
  | parked | ok | err e => cases hstep
  | _ =>
    cases hstep
    exact ⟨rfl, .kept, _, _, .inl rfl⟩

theorem Call.Fits.wake {c : Call} (h : c.Fits) : c.wake.Fits := by
  cases c with
  | append stage => exact h
  | flush_up_to target stage => cases stage <;> trivial

/-- A call is made, an appender takes a step, or a flush does, to which the records are nothing. -/
theorem step_cases {e : Event} (hstep : step w e = some w') :
    (∃ entry, e = .append entry ∧ w' = { w with calls := w.calls ++ [.append (.start entry)] }) ∨
    (∃ lsn, e = .flush_up_to lsn ∧ w' = { w with calls := w.calls ++ [.flush_up_to lsn .start] }) ∨
    (∃ i stage, w.calls[i]? = some (.append stage) ∧ w.runAppend i stage = some w') ∨
    ∃ i target stage, w.calls[i]? = some (.flush_up_to target stage) ∧ w'.log = w.log ∧
      Touches w.writer w'.writer ∧ ∃ t s, w'.calls = w.calls.set i (.flush_up_to t s) ∨
        w'.calls = (w.calls.map Call.wake).set i (.flush_up_to t s) := by
  cases steps_of_step hstep with
  | append entry => exact .inl ⟨entry, rfl, rfl⟩
  | flush_up_to lsn => exact .inr (.inl ⟨lsn, rfl, rfl⟩)
  | runAppend hi hrun => exact .inr (.inr (.inl ⟨_, _, hi, hrun⟩))
  | runFlush hi hrun => exact .inr (.inr (.inr ⟨_, _, _, hi, log_runFlush hrun⟩))
  | write_fault hi hrun => exact .inr (.inr (.inr ⟨_, _, _, hi, log_writeNext hrun⟩))
  | sync_fault hi | spurious_wakeup hi =>
    exact .inr (.inr (.inr ⟨_, _, _, hi, rfl, .kept, _, _, .inl rfl⟩))

theorem fitting_step {e : Event} (h : Fitting w) (he : e.Fits) (hlsn : w.next_lsn < 2 ^ 64)
    (hstep : step w e = some w') : Fitting w' := by
  have hcall : ∀ c : Call, c.Fits → Fitting { w with calls := w.calls ++ [c] } := by
    intro c hc
    exact ⟨h.log, forall_mem_concat h.calls hc⟩
  rcases step_cases hstep with ⟨entry, rfl, rfl⟩ | ⟨lsn, rfl, rfl⟩ | ⟨i, stage, hi, hrun⟩ |
    ⟨i, target, stage, hi, hlog, -, t, s, hcalls | hcalls⟩
  · exact hcall _ he
  · exact hcall _ trivial
  · exact fitting_runAppend h hi hlsn hrun
  · exact h.set hlog hcalls trivial
  have hwoken : Fitting { w with calls := w.calls.map Call.wake } := by
    refine ⟨h.log, fun d hd => ?_⟩
    obtain ⟨c, hc, rfl⟩ := mem_map.mp hd
    exact (h.calls c hc).wake
  exact hwoken.set hlog hcalls trivial

end Fitting

/-! ## A log that goes on -/

/-- The log has gone on behind the records that its open found, and every record can be read
back. -/
structure Resumes (found : List Logged) (w : World) : Prop where
  opened : ∃ o, Whole found o ∧ Good o found.length w
  fitting : Fitting w
  fits : ∀ r ∈ found, r.Fits
  numbered : NumberedFrom 0 found

namespace Resumes

variable {found : List Logged} {w w' : World}

theorem records (h : Resumes found w) :
    NumberedFrom 0 (found ++ w.log) ∧ ∀ r ∈ found ++ w.log, r.Fits := by
  obtain ⟨o, -, hgood⟩ := h.opened
  refine ⟨h.numbered.append ?_, forall_mem_append.mpr ⟨h.fits, h.fitting.log⟩⟩
  rw [Nat.zero_add]
  exact hgood.numbered

theorem step {e : Event} (h : Resumes found w) (he : e.Fits) (hlsn : w.next_lsn < 2 ^ 64)
    (hstep : step w e = some w') : Resumes found w' := by
  obtain ⟨o, ho, hgood⟩ := h.opened
  exact ⟨⟨o, ho, good_step hgood hstep⟩, fitting_step h.fitting he hlsn hstep, h.fits, h.numbered⟩

/-- The log is opened again on files that hold whole records and maybe a piece of one more. -/
theorem reopen {closed : List Bytes} {file : Bytes} (hnum : NumberedFrom 0 rs)
    (hfits : ∀ r ∈ rs, r.Fits) (hholds : Holds rs closed file)
    (buffer_capacity segment_size : Nat) :
    ∃ segments, new_with_options buffer_capacity segment_size (closed ++ [file]) =
      .ok (.opened buffer_capacity segment_size segments rs.length) ∧
      Whole rs (.open segment_size segments) ∧
      Resumes rs (.opened buffer_capacity segment_size segments rs.length) := by
  obtain ⟨segments, hopen, hwhole⟩ := new_with_options_ok hnum (fun _ => rfl) hfits hholds
    buffer_capacity segment_size
  rw [Nat.zero_add] at hopen
  exact ⟨segments, hopen, hwhole, ⟨_, hwhole, good_opened _ _ _ _⟩, ⟨nofun, nofun⟩, hfits, hnum⟩

end Resumes

end FluxDB.WalThreads
