-- The round trip of the records that `append` accepts. The header has one byte for the number of
-- blocks and two for the length of a payload, and `append` checks neither against them: a record
-- that has been flushed is read back as it was appended exactly if its numbers fit.
import FluxDB.LogSequence

namespace FluxDB

open Bytes List Except Maps

/-! ## What a reader can return -/

/-- The numbers of the record fit the fields of its header. -/
structure Entry.InFields (e : Entry) : Prop where
  count : e.blocks.length ≤ 255
  blocks : ∀ b ∈ e.blocks, dataLen b.data ≤ 65535
  main : dataLen e.main_data ≤ 65535

theorem dataLen_nonEmpty (data : Option Bytes) : dataLen (nonEmpty data) = dataLen data := by
  unfold nonEmpty
  split
  · next hnil =>
    unfold dataLen
    rw [hnil]
    rfl
  · rfl

namespace WalReader

variable {r r' : WalReader} {n : Nat}

theorem length_of_read_exact {bs : Bytes} (h : r.read_exact n = .ok (bs, r')) :
    bs.length = n := by
  unfold read_exact readExact at h
  split at h
  · next hread =>
    cases h
    split at hread
    · next hle =>
      cases hread
      exact length_take_of_le hle
    · cases hread
  · cases h

theorem leNat_of_read_exact {bs : Bytes} (h : r.read_exact n = .ok (bs, r')) :
    leNat bs < 256 ^ n := by
  have hlt := leNat_lt bs
  rwa [length_of_read_exact h] at hlt

theorem dataLen_of_read_if {present : Prop} [Decidable present] {data : Option Bytes}
    (h : r.read_if present n = .ok (data, r')) : dataLen data ≤ n := by
  unfold read_if at h
  split at h
  · obtain ⟨⟨bs, r₁⟩, hread, h⟩ := bind_eq_ok.mp h
    cases h
    exact (length_of_read_exact hread).le
  cases h
  exact Nat.zero_le n

theorem dataLen_of_read_block {b : Block} (h : r.read_block = .ok (b, r')) :
    dataLen b.data ≤ 65535 := by
  unfold read_block at h
  obtain ⟨⟨page_id, r₁⟩, _, h⟩ := bind_eq_ok.mp h
  obtain ⟨⟨blk_flags, r₂⟩, _, h⟩ := bind_eq_ok.mp h
  obtain ⟨⟨data_len, r₃⟩, hlen, h⟩ := bind_eq_ok.mp h
  obtain ⟨⟨fpi, r₄⟩, _, h⟩ := bind_eq_ok.mp h
  obtain ⟨⟨data, r₅⟩, hdata, h⟩ := bind_eq_ok.mp h
  cases h
  exact (dataLen_of_read_if hdata).trans (Nat.le_of_lt_succ (leNat_of_read_exact hlen))

theorem limits_of_read_blocks {bs : List Block} (h : r.read_blocks n = .ok (bs, r')) :
    bs.length = n ∧ ∀ b ∈ bs, dataLen b.data ≤ 65535 := by
  induction n generalizing r bs with
  | zero =>
    cases h
    exact ⟨rfl, nofun⟩
  | succ n ih =>
    unfold read_blocks at h
    obtain ⟨⟨b, r₁⟩, hblock, h⟩ := bind_eq_ok.mp h
    obtain ⟨⟨rest, r₂⟩, hrest, h⟩ := bind_eq_ok.mp h
    cases h
    obtain ⟨hlen, hall⟩ := ih hrest
    refine ⟨congrArg (· + 1) hlen, fun x hx => ?_⟩
    rcases mem_cons.mp hx with rfl | hx
    · exact dataLen_of_read_block hblock
    · exact hall x hx

/-- No record that is read exceeds the fields of its header. -/
theorem inFields_of_read_record {record : WalRecord} (h : r.read_record = .ok (record, r')) :
    record.toEntry.InFields := by
  unfold read_record at h
  obtain ⟨⟨lsn, r₁⟩, _, h⟩ := bind_eq_ok.mp h
  obtain ⟨⟨rec_len, r₂⟩, _, h⟩ := bind_eq_ok.mp h
  obtain ⟨⟨type_buf, r₃⟩, _, h⟩ := bind_eq_ok.mp h
  obtain ⟨entry_type, _, h⟩ := bind_eq_ok.mp h
  obtain ⟨⟨nblocks, r₄⟩, hcount, h⟩ := bind_eq_ok.mp h
  obtain ⟨⟨txn_id, r₅⟩, _, h⟩ := bind_eq_ok.mp h
  obtain ⟨⟨main_len, r₆⟩, hlen, h⟩ := bind_eq_ok.mp h
  obtain ⟨⟨blocks, r₇⟩, hblocks, h⟩ := bind_eq_ok.mp h
  obtain ⟨⟨main_data, r₈⟩, hmain, h⟩ := bind_eq_ok.mp h
  obtain ⟨r₉, _, h⟩ := bind_eq_ok.mp h
  cases h
  obtain ⟨hnum, hall⟩ := limits_of_read_blocks hblocks
  refine ⟨hnum.trans_le (Nat.le_of_lt_succ (leNat_of_read_exact hcount)), hall, ?_⟩
  exact (dataLen_of_read_if hmain).trans (Nat.le_of_lt_succ (leNat_of_read_exact hlen))

end WalReader

variable {segments : List Bytes}

theorem inFields_of_next_record {unread : List Bytes} {record : WalRecord}
    (h : next_record segments = some (.ok (record, unread))) : record.toEntry.InFields := by
  unfold next_record at h
  split at h
  · cases h
  obtain ⟨⟨record', r⟩, hread, h⟩ := bind_eq_ok.mp (Option.some.inj h)
  cases h
  exact WalReader.inFields_of_read_record hread

/-! ## The round trip -/

/-- The unread segments behind the next `n` records. -/
def readOn : Nat → List Bytes → Option (List Bytes)
  | 0, segments => some segments
  | n + 1, segments =>
    match next_record segments with
    | some (.ok (_, unread)) => readOn n unread
    | _ => none

/-- The record behind the first `n` ones comes back as it was appended. An empty payload comes
back as an absent one. -/
def ReadsBack (segments : List Bytes) (n lsn : Nat) (entry : Entry) : Prop :=
  ∃ unread record unread', readOn n segments = some unread ∧
    next_record unread = some (.ok (record, unread')) ∧
    record.lsn = lsn ∧ record.toEntry = (entry.record lsn).toEntry

/-- A page image is there exactly if the flag says so. -/
structure Block.Flagged (b : Block) : Prop where
  flag : b.blk_flags &&& 1 = 1 ↔ b.fpi.isSome
  image : ∀ f, b.fpi = some f → f.length = PAGE_SIZE

theorem Entry.InFields.fits {e : Entry} (h : e.InFields) (hflags : ∀ b ∈ e.blocks, b.Flagged) :
    e.Fits where
  count := Nat.lt_succ_of_le h.count
  blocks := fun b hb => ⟨(hflags b hb).flag, (hflags b hb).image, Nat.lt_succ_of_le (h.blocks b hb)⟩
  main := Nat.lt_succ_of_le h.main

/-- The reader gets through the records that fit. -/
theorem readOn_records {rs : List Logged} (hrs : ∀ r ∈ rs, r.Fits) {more : List Bytes}
    (hseg : Running.Segmented segments (rs.map Logged.bytes ++ more)) :
    ∃ unread, readOn rs.length segments = some unread ∧ Running.Segmented unread more := by
  induction rs generalizing segments with
  | nil => exact ⟨segments, rfl, hseg⟩
  | cons r rs ih =>
    have hr := hrs r mem_cons_self
    obtain ⟨rest, hnext, hrest⟩ := Running.next_record_cons hr.entry hr.lsn hseg
    obtain ⟨unread, hread, hunread⟩ := ih (fun r hr => hrs r (mem_cons_of_mem _ hr)) hrest
    refine ⟨unread, ?_, hunread⟩
    rw [length_cons, readOn, hnext]
    exact hread

/-- What comes back is within the limits, and it has the sizes of what was appended. -/
theorem ReadsBack.inFields {n lsn : Nat} {entry : Entry} (h : ReadsBack segments n lsn entry) :
    entry.InFields := by
  obtain ⟨unread, record, unread', -, hnext, -, hentry⟩ := h
  have hfields := inFields_of_next_record hnext
  rw [hentry] at hfields
  refine ⟨(length_map _).symm.trans_le hfields.count, fun b hb => ?_, ?_⟩
  · exact (dataLen_nonEmpty _).symm.trans_le (hfields.blocks _ (mem_map_of_mem hb))
  · exact (dataLen_nonEmpty _).symm.trans_le hfields.main

theorem readsBack_iff {rs : List Logged} (hrs : ∀ r ∈ rs, r.Fits) {entry : Entry} {lsn : Nat}
    (hflags : ∀ b ∈ entry.blocks, b.Flagged) (hlsn : lsn < 2 ^ 64) {more : List Bytes}
    (hseg : Running.Segmented segments (rs.map Logged.bytes ++ entry.bytes lsn :: more)) :
    ReadsBack segments rs.length lsn entry ↔ entry.InFields := by
  refine ⟨ReadsBack.inFields, fun hfields => ?_⟩
  obtain ⟨unread, hread, hunread⟩ := readOn_records hrs hseg
  obtain ⟨rest, hnext, -⟩ := Running.next_record_cons (hfields.fits hflags) hlsn hunread
  exact ⟨unread, entry.record lsn, rest, hread, hnext, rfl, rfl⟩

/-! ## Lists of ids -/

/-- Of a record without blocks, only the payload can be too long. -/
theorem Entry.inFields_iff {e : Entry} (hblocks : e.blocks = []) :
    e.InFields ↔ dataLen e.main_data ≤ 65535 := by
  refine ⟨fun h => h.main, fun h => ⟨?_, ?_, h⟩⟩
  · rw [hblocks]
    exact Nat.zero_le _
  rw [hblocks]
  exact nofun

theorem inFields_log_overflow_free (txn_id : UInt64) (page_ids : List UInt64) :
    (log_overflow_free txn_id page_ids).InFields ↔ page_ids.length ≤ 8191 := by
  have hlen : dataLen (log_overflow_free txn_id page_ids).main_data = 8 * page_ids.length :=
    Change.length_ids page_ids
  rw [Entry.inFields_iff rfl, hlen]
  omega

theorem inFields_log_checkpoint (redo_point next_txn_id : UInt64)
    (active_txns pinned_aborted : List UInt64) (vacuum_horizon root_pid next_page_id : UInt64) :
    (log_checkpoint redo_point next_txn_id active_txns pinned_aborted vacuum_horizon root_pid
      next_page_id).InFields ↔ active_txns.length + pinned_aborted.length ≤ 8185 := by
  have hlen : dataLen (log_checkpoint redo_point next_txn_id active_txns pinned_aborted
      vacuum_horizon root_pid next_page_id).main_data =
      48 + 8 * active_txns.length + 8 * pinned_aborted.length := by
    unfold log_checkpoint dataLen
    simp only [Option.getD_some, length_append, length_leBytes, Change.length_ids]
    omega
  rw [Entry.inFields_iff rfl, hlen]
  omega

/-! ## What becomes of an append -/

namespace WalThreads

/-- An appender still has this record in hand, or has put it into the log. -/
def AppendStage.Carries (entry : Entry) (log : List Logged) : AppendStage → Prop
  | .start entry' | .lock entry' | .locked entry' | .push _ entry' => entry' = entry
  | .ok lsn => ⟨lsn, entry⟩ ∈ log
  | .err _ => True

/-- Every appender goes on with the record that it was called for, and one that has returned stays
as it is. -/
structure Carried (w w' : World) : Prop where
  carries : ∀ (j : Nat) entry stage, w.calls[j]? = some (.append stage) →
    stage.Carries entry w.log →
    ∃ stage', w'.calls[j]? = some (.append stage') ∧ stage'.Carries entry w'.log
  returned : ∀ (j lsn : Nat), w.calls[j]? = some (.append (.ok lsn)) →
    w'.calls[j]? = some (.append (.ok lsn))

section Carried

variable {w w' : World} {i : Nat} {entry : Entry} {stage : AppendStage}

theorem AppendStage.Carries.grow {log log' : List Logged} (h : stage.Carries entry log)
    (hlog : log <+: log') : stage.Carries entry log' := by
  cases stage with
  | ok lsn => exact hlog.subset h
  | _ => exact h

theorem Carried.refl (w : World) : Carried w w :=
  ⟨fun _ _ stage hj h => ⟨stage, hj, h⟩, fun _ _ hj => hj⟩

theorem Carried.trans {a b c : World} (h : Carried a b) (h' : Carried b c) : Carried a c := by
  refine ⟨?_, fun j lsn hj => h'.returned j lsn (h.returned j lsn hj)⟩
  intro j entry stage hj hstage
  obtain ⟨stage', hj', hstage'⟩ := h.carries j entry stage hj hstage
  exact h'.carries j entry stage' hj' hstage'

/-- A step that leaves the appenders alone. -/
theorem Carried.of_same
    (hcalls : ∀ (j : Nat) stage, w.calls[j]? = some (.append stage) →
      w'.calls[j]? = some (.append stage))
    (hlog : w.log <+: w'.log) : Carried w w' :=
  ⟨fun j _ stage hj h => ⟨stage, hcalls j stage hj, h.grow hlog⟩, fun j _ hj => hcalls j _ hj⟩

theorem Carried.set {stage' : AppendStage} (hi : w.calls[i]? = some (.append stage))
    (hcalls : w'.calls = w.calls.set i (.append stage')) (hlog : w.log <+: w'.log)
    (hstage : ∀ entry, stage.Carries entry w.log → stage'.Carries entry w'.log)
    (hnot : ∀ lsn, stage ≠ .ok lsn) : Carried w w' := by
  refine ⟨fun j entry s hj hs => ?_, fun j lsn hj => ?_⟩
  · rw [hcalls, getElem?_set_eq_ite hi]
    split
    · next hji =>
      cases hji
      cases hi.symm.trans hj
      exact ⟨stage', rfl, hstage entry hs⟩
    · exact ⟨s, hj, hs.grow hlog⟩
  rw [hcalls, getElem?_set_eq_ite hi, if_neg]
  · exact hj
  rintro rfl
  cases hi.symm.trans hj
  exact hnot lsn rfl

theorem carried_runAppend (hi : w.calls[i]? = some (.append stage))
    (hstep : w.runAppend i stage = some w') : Carried w w' := by
  cases appends_of_run hstep with
  | tooLarge | refuse | overrun =>
    exact Carried.set hi rfl List.prefix_rfl (fun _ _ => trivial) nofun
  | size | lock | allocate => exact Carried.set hi rfl List.prefix_rfl (fun _ h => h) nofun
  | push lsn entry buffer hpush =>
    refine Carried.set hi rfl (List.prefix_append _ _) ?_ nofun
    rintro _ rfl
    exact mem_append_right _ (mem_singleton_self _)

theorem carried_step {e : Event} (hstep : step w e = some w') : Carried w w' := by
  have hcall : ∀ c, Carried w { w with calls := w.calls ++ [c] } := by
    intro c
    refine Carried.of_same (fun j stage hj => ?_) List.prefix_rfl
    exact (getElem?_append_left (lt_of_getElem? hj)).trans hj
  rcases step_cases hstep with ⟨entry, rfl, rfl⟩ | ⟨lsn, rfl, rfl⟩ | ⟨i, stage, hi, hrun⟩ |
    ⟨i, target, stage, hi, hlog, -, t, s, hcalls⟩
  · exact hcall _
  · exact hcall _
  · exact carried_runAppend hi hrun
  refine Carried.of_same (fun j stage' hj => ?_) (hlog ▸ List.prefix_rfl)
  have hne : j ≠ i := by
    rintro rfl
    cases hi.symm.trans hj
  rcases hcalls with hcalls | hcalls
  · rw [hcalls, getElem?_set_ne hne.symm]
    exact hj
  rw [hcalls, getElem?_set_ne hne.symm, getElem?_map, hj]
  rfl

theorem carried_run {p : List Event} (hrun : Runs.run step w p = some w') : Carried w w' :=
  Runs.rel_run (I := fun _ => True) (fun _ _ _ _ _ => trivial) Carried.refl
    (fun _ _ _ => Carried.trans) (fun _ _ _ _ hs => carried_step hs) trivial hrun

end Carried

/-! ## The law -/

section Law

variable {o : SegmentWriter} {base : Nat} {w w' : World} {found : List Logged}

/-- A flushed record stands in the files behind those found at the open and those appended before
it. -/
theorem Good.segmented (h : Good o base w) (ho : Whole found o) {k : Nat} {r : Logged}
    (hk : w.log[k]? = some r) (hflushed : r.lsn ≤ w.flushed_lsn) :
    ∃ more, Running.Segmented w.writer.segments
      ((found ++ w.log.take k).map Logged.bytes ++ r.bytes :: more) := by
  obtain ⟨m, hm, hm', hsynced, hfront⟩ := h.synced
  obtain ⟨groups, last, hrs, hclosed, hfile⟩ := hfront.holds ho
  have hlsn := h.numbered k r hk
  obtain ⟨rest, htake⟩ : ∃ rest, w.log.take m = w.log.take k ++ r :: rest := by
    refine ⟨(w.log.take m).drop (k + 1), ?_⟩
    nth_rewrite 1 [← take_append_drop (k + 1) (w.log.take m)]
    rw [take_take, Nat.min_eq_left (by omega), take_succ_of_getElem? hk, append_assoc,
      singleton_append]
  let behind := w.writer.file.drop w.writer.synced
  have hall : w.writer.file = bytesOf last ++ behind := by
    rw [← append_nil (bytesOf last), ← hfile, take_append_drop]
  refine ⟨rest.map Logged.bytes ++ [behind],
    groups.map (List.map Logged.bytes) ++ [last.map Logged.bytes ++ [behind]], ?_, ?_⟩
  · rw [flatten_append, flatten_singleton, ← map_flatten, ← append_assoc, ← map_append, hrs, htake]
    simp
  unfold SegmentWriter.segments
  rw [hall, hclosed, map_append, map_map]
  simp [bytesOf, flatMap_def, Function.comp_def]

/-- An accepted record that has been flushed is read back as it was appended if and only if its
numbers fit the fields of its header, provided that those of the records in front of it do. For
the lists of ids this is a bound on their lengths. -/
theorem an_accepted_record_reads_back_iff_it_fits (buffer_capacity segment_size last_lsn : Nat)
    {segments : List Bytes} (hfound : Whole found (.open segment_size segments))
    (hfound_fits : ∀ r ∈ found, r.Fits) {p q : List Event} {entry : Entry} {lsn : Nat}
    (hrun : Runs.run step (.opened buffer_capacity segment_size segments last_lsn) p = some w)
    (hrun' : Runs.run step w (.append entry :: q) = some w')
    (hok : w'.calls[w.calls.length]? = some (.append (.ok lsn)))
    (hflushed : lsn ≤ w'.flushed_lsn) (hlsn : lsn < 2 ^ 64)
    (hflags : ∀ b ∈ entry.blocks, b.Flagged)
    (hbefore : ∀ r ∈ w'.log, r.lsn < lsn → r.entry.Fits) :
    let readsBack := ReadsBack w'.writer.segments (found.length + (lsn - last_lsn - 1)) lsn entry
    (readsBack ↔ entry.InFields) ∧
    (∀ txn_id page_ids, entry = log_overflow_free txn_id page_ids →
      (readsBack ↔ page_ids.length ≤ 8191)) ∧
    ∀ redo_point next_txn_id active_txns pinned_aborted vacuum_horizon root_pid next_page_id,
      entry = log_checkpoint redo_point next_txn_id active_txns pinned_aborted vacuum_horizon
        root_pid next_page_id →
      (readsBack ↔ active_txns.length + pinned_aborted.length ≤ 8185) := by
  have hgood := Runs.inv_run (fun _ _ _ h hs => good_step h hs)
    (good_opened buffer_capacity segment_size last_lsn segments) hrun
  have hgood' := Runs.inv_run (fun _ _ _ h hs => good_step h hs) hgood hrun'
  have hmem : ⟨lsn, entry⟩ ∈ w'.log := by
    obtain ⟨w₁, hcall, hrest⟩ := Runs.run_cons.mp hrun'
    have hcarried := carried_run hrest
    cases hcall
    obtain ⟨stage, hstage, hcarries⟩ := hcarried.carries w.calls.length entry (.start entry)
      List.getElem?_concat_length rfl
    cases hstage.symm.trans hok
    exact hcarries
  obtain ⟨k, hk⟩ := List.mem_iff_getElem?.mp hmem
  have hnum : lsn = last_lsn + k + 1 := hgood'.numbered k _ hk
  obtain ⟨more, hseg⟩ := hgood'.segmented hfound hk hflushed
  have hfits : ∀ r ∈ found ++ w'.log.take k, r.Fits := by
    intro r hr
    rcases List.mem_append.mp hr with hr | hr
    · exact hfound_fits r hr
    · obtain ⟨j, hj, hget⟩ := List.mem_take_iff_getElem.mp hr
      have hget' : w'.log[j]? = some r := List.getElem?_eq_some_iff.mpr ⟨_, hget⟩
      have hlt : r.lsn < lsn := by
        have := hgood'.numbered j r hget'
        omega
      exact ⟨hbefore r (List.mem_of_mem_take hr) hlt, hlt.trans hlsn⟩
  have hcount : (found ++ w'.log.take k).length = found.length + (lsn - last_lsn - 1) := by
    have := Maps.lt_of_getElem? hk
    rw [List.length_append, List.length_take]
    omega
  have hiff := readsBack_iff hfits hflags hlsn hseg
  rw [hcount] at hiff
  refine ⟨hiff, ?_, ?_⟩
  · rintro txn_id page_ids rfl
    exact hiff.trans (inFields_log_overflow_free txn_id page_ids)
  · rintro redo_point next_txn_id active pinned_aborted vacuum_horizon root_pid next_page_id rfl
    exact hiff.trans (inFields_log_checkpoint _ _ _ _ _ _ _)

/-- A commit record is appended to an empty log and flushed. -/
theorem a_flushed_commit_reads_back :
    ∃ w w' q, Runs.run step (.opened 64 64 [] 0) [] = some w ∧
      Runs.run step w (.append (log_commit 5) :: q) = some w' ∧ w'.flushed_lsn = 1 ∧
      (log_commit 5).InFields ∧ ReadsBack w'.writer.segments 0 1 (log_commit 5) := by
  have hex : ∃ w', Runs.run step (.opened 64 64 [] 0) (.append (log_commit 5) ::
        (List.replicate 4 (.run 0) ++ .flush_up_to 1 :: List.replicate 16 (.run 1))) = some w' ∧
      w'.flushed_lsn = 1 ∧ w'.calls[0]? = some (.append (.ok 1)) ∧
      w'.log.length = 1 := Runs.exists_run (by decide +kernel)
  obtain ⟨w', hrun, hflushed, hcall, hlen⟩ := hex
  have hgood := Runs.inv_run (fun _ _ _ h hs => good_step h hs) (good_opened 64 64 0 []) hrun
  have hfirst : ∀ r ∈ w'.log, r.lsn < 1 → r.entry.Fits := by
    intro r hr hlt
    obtain ⟨k, hk⟩ := List.mem_iff_getElem?.mp hr
    have := hgood.numbered k r hk
    omega
  have hfields : (log_commit 5).InFields := ⟨by decide, nofun, by decide⟩
  have hempty : Whole [] (.open 64 []) := ⟨[], [], rfl, rfl, rfl⟩
  have hlaw := an_accepted_record_reads_back_iff_it_fits 64 64 0 hempty nofun (Runs.run_nil _) hrun
    hcall hflushed.ge (by decide) nofun hfirst
  exact ⟨_, w', _, Runs.run_nil _, hrun, hflushed, hfields, hlaw.1.mpr hfields⟩

/-! ## A record that does not come back -/

/-- A record that is small enough is accepted by a log that was just opened. -/
theorem append_opened (buffer_capacity segment_size last_lsn : Nat) (segments : List Bytes)
    {entry : Entry} (hsegment : entry.record_size ≤ segment_size)
    (hbuffer : entry.record_size ≤ buffer_capacity) :
    ∃ w, Runs.run step (.opened buffer_capacity segment_size segments last_lsn)
        (.append entry :: List.replicate 4 (.run 0)) = some w ∧
      w.calls = [.append (.ok (last_lsn + 1))] := by
  have hempty : (WalBuffer.with_capacity buffer_capacity).Represents [] :=
    WalBuffer.queued_with_capacity buffer_capacity
  have hfree : (WalBuffer.with_capacity buffer_capacity).free_space = buffer_capacity := by
    rw [hempty.free_space]
    exact length_replicate
  obtain ⟨buffer, hpush, -⟩ := hempty.push_record
    (r := ⟨last_lsn + 1, entry⟩) (Logged.bytes_length_pos _) (by
      rw [hfree]
      exact (entry.length_bytes _).trans_le hbuffer)
  have hsize : (SegmentWriter.open segment_size segments).segment_size = segment_size := by
    unfold SegmentWriter.open
    split
    · rfl
    · split <;> rfl
  let w₀ : World := .opened buffer_capacity segment_size segments last_lsn
  let w₁ : World := { w₀ with calls := [.append (.start entry)] }
  let w₂ : World := w₁.setAppend 0 (.lock entry)
  let w₃ : World := w₂.setAppend 0 (.locked entry)
  let w₄ : World := { w₃ with next_lsn := last_lsn + 2 }.setAppend 0 (.push (last_lsn + 1) entry)
  have hstart : w₁.runAppend 0 (.start entry) = some w₂ := by
    have hsegment' : ¬ entry.record_size > w₁.writer.segment_size := by
      rw [gt_iff_lt, Nat.not_lt]
      exact hsegment.trans hsize.ge
    have hbuffer' : ¬ entry.record_size > min w₁.writer.segment_size w₁.buffer_capacity :=
      Nat.not_lt.mpr (le_min (Nat.not_lt.mp hsegment') hbuffer)
    simp only [World.runAppend, if_neg hsegment', if_neg hbuffer']
    rfl
  have hlocked : w₃.runAppend 0 (.locked entry) = some w₄ := by
    have hroom : ¬ entry.record_size > w₃.buffer.free_space :=
      Nat.not_lt.mpr (hbuffer.trans hfree.ge)
    have herror : w₃.flush_error = none := rfl
    simp only [World.runAppend, herror, if_neg hroom]
    rfl
  have hpushed : ∃ w₅, w₄.runAppend 0 (.push (last_lsn + 1) entry) = some w₅ ∧
      w₅.calls = [.append (.ok (last_lsn + 1))] := by
    have hpush' : w₄.buffer.push_record (last_lsn + 1) (entry.bytes (last_lsn + 1)) = .ok buffer :=
      hpush
    simp only [World.runAppend, hpush']
    exact ⟨_, rfl, rfl⟩
  obtain ⟨w₅, hpushed, hcalls⟩ := hpushed
  refine ⟨w₅, ?_, hcalls⟩
  refine Runs.run_cons.mpr ⟨w₁, rfl, Runs.run_cons.mpr ⟨w₂, hstart, ?_⟩⟩
  refine Runs.run_cons.mpr ⟨w₃, rfl, Runs.run_cons.mpr ⟨w₄, hlocked, ?_⟩⟩
  exact Runs.run_cons.mpr ⟨w₅, hpushed, Runs.run_nil _⟩

/-- What holds of a log without faults along its run. -/
structure Sound (o : SegmentWriter) (base : Nat) (w : World) : Prop where
  good : Good o base w
  wakes : Wakes w
  calm : Calm w

theorem sound_run {p : List Event} (h : Sound o base w) (hp : ∀ e ∈ p, e.faultless = true)
    (hrun : Runs.run step w p = some w') : Sound o base w' := by
  have hfaultless : Runs.Meets step (fun _ e => e.faultless = true) w p :=
    Runs.meets_of_forall (fun e he _ => hp e he) w
  refine Runs.inv_run_meets (I := Sound o base) (fun _ _ _ h he hs => ?_) h hfaultless hrun
  exact ⟨good_step h.good hs, wakes_step h.wakes hs, calm_step h.calm h.good he hs⟩

theorem can_flush (h : Sound o base w) (lsn : Nat) :
    ∃ q w', Runs.run step w (.flush_up_to lsn :: q) = some w' ∧
      min lsn (w.next_lsn - 1) ≤ w'.flushed_lsn := by
  let w₁ : World := { w with calls := w.calls ++ [.flush_up_to lsn .start] }
  have hstep : step w (.flush_up_to lsn) = some w₁ := rfl
  have h₁ : Sound o base w₁ :=
    ⟨good_step h.good hstep, wakes_step h.wakes hstep, calm_step h.calm h.good rfl hstep⟩
  obtain ⟨q, w', hq, hrun, hlen, hall⟩ := run_to_end h₁.good h₁.wakes
  have h' : Sound o base w' := sound_run h₁ (fun e he => by obtain ⟨i, rfl⟩ := hq e he; rfl) hrun
  have hkept : Kept w₁ w' := Runs.rel_run (fun _ _ _ h hs => good_step h hs) Kept.refl
    (fun _ _ _ => .trans) (fun _ _ _ h hs => kept_step h hs) h₁.good hrun
  obtain ⟨target, stage, hj, htarget⟩ := hkept.targets w.calls.length lsn .start
    getElem?_concat_length
  refine ⟨q, w', Runs.run_cons.mpr ⟨w₁, hstep, hrun⟩, htarget.trans ?_⟩
  have hreturned := hall _ (mem_of_getElem? hj)
  have hend := h'.calm.calls _ (mem_of_getElem? hj)
  cases stage with
  | ok => exact (h'.good.calls _ _ hj).2
  | err e => exact hend.elim
  | _ => cases hreturned

theorem accepted_and_flushed (buffer_capacity segment_size last_lsn : Nat)
    (segments : List Bytes) {entry : Entry} (hsegment : entry.record_size ≤ segment_size)
    (hbuffer : entry.record_size ≤ buffer_capacity) :
    ∃ q w', Runs.run step (.opened buffer_capacity segment_size segments last_lsn)
        (.append entry :: q) = some w' ∧
      w'.calls[0]? = some (.append (.ok (last_lsn + 1))) ∧ last_lsn + 1 ≤ w'.flushed_lsn := by
  obtain ⟨w, hrun, hcalls⟩ := append_opened buffer_capacity segment_size last_lsn segments hsegment
    hbuffer
  have hstart : Sound (.open segment_size segments) last_lsn
      (.opened buffer_capacity segment_size segments last_lsn) :=
    ⟨good_opened _ _ _ _, wakes_opened _ _ _ _, rfl, nofun, nofun⟩
  have hsound := sound_run hstart (by simp [Event.faultless]) hrun
  obtain ⟨q, w', hrun', hflushed⟩ := can_flush hsound (last_lsn + 1)
  have hcall : w.calls[0]? = some (.append (.ok (last_lsn + 1))) := by
    rw [hcalls]
    rfl
  have hlog : last_lsn < last_lsn + 1 ∧ last_lsn + 1 ≤ last_lsn + w.log.length :=
    hsound.good.calls 0 _ hcall
  have hnext := hsound.good.next
  refine ⟨List.replicate 4 (.run 0) ++ .flush_up_to (last_lsn + 1) :: q, w', ?_, ?_, by omega⟩
  · exact Runs.run_append.mpr ⟨w, hrun, hrun'⟩
  · exact (carried_run hrun').returned 0 _ hcall

def WAL_BUFFER_CAPACITY : Nat := 16 * 1024 * 1024
def WAL_SEGMENT_SIZE : Nat := 16 * 1024 * 1024

theorem record_size_log_overflow_free (txn_id : UInt64) (page_ids : List UInt64) :
    (log_overflow_free txn_id page_ids).record_size = 28 + 8 * page_ids.length := by
  have hmain : dataLen (log_overflow_free txn_id page_ids).main_data = 8 * page_ids.length :=
    Change.length_ids page_ids
  have hblocks : (log_overflow_free txn_id page_ids).blocks = [] := rfl
  unfold Entry.record_size
  rw [hmain, hblocks, map_nil, sum_nil]
  omega

/-- Vacuum frees 8192 overflow pages at once. The record with their ids is accepted and flushed,
its two bytes for the length of the payload hold a zero, and it is not read back. -/
theorem a_list_of_freed_pages_does_not_come_back :
    ∃ (page_ids : List UInt64) (q : List Event) (w' : World), page_ids.length = 8192 ∧
      Runs.run step (.opened WAL_BUFFER_CAPACITY WAL_SEGMENT_SIZE [] 0)
        (.append (log_overflow_free SYSTEM_TXN_ID page_ids) :: q) = some w' ∧
      w'.calls[0]? = some (.append (.ok 1)) ∧ 1 ≤ w'.flushed_lsn ∧
      ¬ ReadsBack w'.writer.segments 0 1 (log_overflow_free SYSTEM_TXN_ID page_ids) := by
  obtain ⟨page_ids, hlen⟩ : ∃ ids : List UInt64, ids.length = 8192 :=
    ⟨List.replicate 8192 7, List.length_replicate⟩
  have hsize : (log_overflow_free SYSTEM_TXN_ID page_ids).record_size = 65564 := by
    rw [record_size_log_overflow_free, hlen]
  obtain ⟨q, w', hrun, hcall, hflushed⟩ := accepted_and_flushed WAL_BUFFER_CAPACITY
    WAL_SEGMENT_SIZE 0 [] (hsize.trans_le (by decide)) (hsize.trans_le (by decide))
  refine ⟨page_ids, q, w', hlen, hrun, hcall, hflushed, fun hreads => ?_⟩
  have hids := (inFields_log_overflow_free _ _).mp hreads.inFields
  omega

end Law

end WalThreads

end FluxDB
