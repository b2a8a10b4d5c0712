-- The log is on the disk before the pages. In every run in which the process is not restarted over
-- log bytes that were never synced, a page image with LSN L is written to the data file only when
-- the log is durable through L: over modifications, evictions, flushes, appends, group flushes
-- that fail or succeed, crashes and reopens.
import FluxDB.PageWrites

namespace FluxDB.PageWrites

open List Function Option

open WalThreads (Good Fitting NumberedFrom Kept)

/-- The first records of the log through this LSN are on the disk for good, each whole in one
segment. -/
def Store.DurableThrough (s : Store) (lsn : Nat) : Prop :=
  ∃ (m : Nat) (groups : List (List Logged)) (last : List Logged), lsn ≤ s.base + m ∧
    m ≤ (s.found ++ s.wal.log).length ∧ groups.flatten ++ last = (s.found ++ s.wal.log).take m ∧
    s.durable = groups.map bytesOf ++ [bytesOf last]

/-- Records fit the fields of their headers, and a process that is restarted finds its last segment
synced, or with a torn tail, which the open cuts off and syncs. -/
def Careful (s : Store) : Event → Prop
  | .wal e => e.Fits
  | .reopen _ _ _ => s.wal.writer.synced = s.wal.writer.file.length ∨
      truncates s.wal.writer.segments = true
  | _ => True

instance (s : Store) (e : Event) : Decidable (Careful s e) := by
  cases e <;> dsimp only [Careful] <;> infer_instance

/-- The files at the open held the records that it found. Frames, copies and pages on disk have
LSNs of the log, and those on disk are flushed. A thread that waits for the log waits for the LSN of
its copy. -/
structure Sound (s : Store) : Prop where
  log : ∃ o, Whole s.found o ∧ Good o (s.base + s.found.length) s.wal
  fitting : Fitting s.wal
  found : ∀ r ∈ s.found, r.Fits
  numbered : NumberedFrom s.base s.found
  base : s.found = [] → s.base = 0
  short : ∀ i, s.short i = none
  frames : ∀ k, Shard.Filled (fun x => x.page_lsn ≤ s.last_lsn) (s.shards k)
  disk : ∀ k p, ((s.shards k).disk p).page_lsn ≤ s.wal.flushed_lsn
  images : ∀ k p, ∀ x ∈ s.images k p, x.page_lsn ≤ s.wal.flushed_lsn
  waits : ∀ k i j, s.waits (k, i) = some j → ∃ p f after buf target stage,
    (s.shards k).threads[i]? = some (.write_page p f after buf) ∧
    s.wal.calls[j]? = some (.flush_up_to target stage) ∧ buf.page_lsn ≤ target

/-! ## What is durable -/

/-- Cuts that leave all segments but the last one whole. -/
theorem mapIdx_take {closed : List Bytes} {file : Bytes} {kept : Nat → Nat}
    (hkept : ∀ (i : Nat) segment, closed[i]? = some segment → segment.length ≤ kept i) :
    (closed ++ [file]).mapIdx (fun i segment => segment.take (kept i)) =
      closed ++ [file.take (kept closed.length)] := by
  rw [mapIdx_concat]
  congr 1
  apply ext_getElem?
  intro i
  rw [getElem?_mapIdx]
  cases hi : closed[i]? with
  | none => rfl
  | some segment => exact congrArg some (take_of_length_le (hkept i segment hi))

variable {i k p : Nat} {wal : WalThreads.World} {short : Nat → Option Nat}

namespace Sound

variable {s s' : Store}

theorem durable_len_closed (h : Sound s) {segment : Bytes}
    (hi : s.wal.writer.closed[i]? = some segment) : s.durable_len i = segment.length := by
  unfold Store.durable_len
  rw [h.short i]
  dsimp only
  rw [if_pos (Maps.lt_of_getElem? hi), getD_eq_getElem?_getD, hi]
  rfl

theorem durable_len_last (h : Sound s) :
    s.durable_len s.wal.writer.closed.length = s.wal.writer.synced := by
  unfold Store.durable_len
  rw [h.short]
  exact if_neg (Nat.lt_irrefl _)

theorem durable_eq (h : Sound s) : s.durable =
    s.wal.writer.closed ++ [s.wal.writer.file.take s.wal.writer.synced] := by
  unfold Store.durable SegmentWriter.segments
  rw [mapIdx_take fun i segment hi => (h.durable_len_closed hi).ge, h.durable_len_last]

theorem durableThrough (h : Sound s) {lsn : Nat} (hlsn : lsn ≤ s.wal.flushed_lsn) :
    s.DurableThrough lsn := by
  obtain ⟨o, ho, hgood⟩ := h.log
  obtain ⟨m, hm, hm', -, hfront⟩ := hgood.synced
  obtain ⟨groups, last, hrs, hclosed, hfile⟩ := hfront.holds ho
  refine ⟨s.found.length + m, groups, last, by omega, ?_, ?_, ?_⟩
  · rw [length_append]
    omega
  · rw [hrs, take_append, take_of_length_le (Nat.le_add_right _ _), Nat.add_sub_cancel_left]
  · rw [h.durable_eq, hfile, hclosed, append_nil]

theorem last_lsn_lt (h : Sound s) : s.last_lsn < s.wal.next_lsn := by
  obtain ⟨o, ho, hgood⟩ := h.log
  have hnext := hgood.next
  unfold Store.last_lsn
  omega

end Sound

/-! ## Steps of the log -/

variable {s s' : Store}

/-- What a step of the log keeps for the threads of the shards. -/
theorem sound_wal {e : WalThreads.Event} (h : Sound s) (he : e.Fits)
    (hlsn : s.wal.next_lsn < 2 ^ 64) (hstep : WalThreads.step s.wal e = some wal)
    (hshort : ∀ i, short i = none) : Sound { s with wal, short } := by
  obtain ⟨o, ho, hgood⟩ := h.log
  have hkept : Kept s.wal wal := WalThreads.kept_step hgood hstep
  have hlen := hkept.log.length_le
  have hlast : s.last_lsn ≤ ({ s with wal, short } : Store).last_lsn := by
    unfold Store.last_lsn
    dsimp only
    omega
  refine ⟨⟨o, ho, WalThreads.good_step hgood hstep⟩,
    WalThreads.fitting_step h.fitting he hlsn hstep,
    h.found, h.numbered, h.base, hshort, fun k => (h.frames k).mono fun x hx => hx.trans hlast,
    fun k p => (h.disk k p).trans hkept.flushed,
    fun k p x hx => (h.images k p x hx).trans hkept.flushed, ?_⟩
  intro k i j hj
  obtain ⟨p, f, after, buf, target, stage, hthread, hcall, hle⟩ := h.waits k i j hj
  obtain ⟨target', stage', hcall', hmin⟩ := hkept.targets j target stage hcall
  have hbuf : buf.page_lsn ≤ s.last_lsn := (h.frames k).bufs i _ hthread buf rfl
  have hnext := h.last_lsn_lt
  exact ⟨p, f, after, buf, target', stage', hthread, hcall', by omega⟩

/-! ## Steps of the shards -/

theorem Sound.stampable_le (h : Sound s) {lsn : Nat} (hlsn : s.stampable lsn = true) :
    lsn ≤ s.last_lsn := by
  obtain ⟨o, ho, hgood⟩ := h.log
  unfold Store.stampable at hlsn
  unfold Store.last_lsn
  rcases Bool.or_eq_true_iff.mp hlsn with hle | hcall
  · have := of_decide_eq_true hle
    omega
  obtain ⟨j, hj⟩ := mem_iff_getElem?.mp (contains_iff_mem.mp hcall)
  exact (hgood.calls j _ hj).2

/-- A thread that has the log flushed for its copy has it flushed up to the copy's LSN. -/
theorem Sound.flushed_of_flushed (h : Sound s) {f : Nat} {after : Shard.After} {buf : Image}
    (hthread : (s.shards k).threads[i]? = some (.write_page p f after buf))
    (hflushed : s.flushed k i = true) : buf.page_lsn ≤ s.wal.flushed_lsn := by
  obtain ⟨o, ho, hgood⟩ := h.log
  unfold Store.flushed Store.awaited at hflushed
  split at hflushed
  · next target hcall =>
    obtain ⟨j, hwaits, hj⟩ := bind_eq_some_iff.mp hcall
    obtain ⟨p', f', after', buf', target', stage', hthread', hcall', hle⟩ := h.waits k i j hwaits
    cases hthread.symm.trans hthread'
    cases hj.symm.trans hcall'
    exact hle.trans (hgood.calls j _ hj).2
  · cases hflushed

theorem mem_imagesAfter {k' : Nat} {e : Shard.Event Image} {x : Image}
    (hx : x ∈ s.imagesAfter k e k' p) : x ∈ s.images k' p ∨
      ∃ i f after, e = .run i ∧ (s.shards k).threads[i]? = some (.write_page p f after x) := by
  cases e with
  | run i =>
    cases hthread : (s.shards k).threads[i]? with
    | none =>
      simp only [Store.imagesAfter, hthread] at hx
      exact .inl hx
    | some t =>
      cases t with
      | write_page q f after buf =>
        simp only [Store.imagesAfter, hthread] at hx
        by_cases hk : k' = k
        · subst hk
          rw [update_self] at hx
          by_cases hp : p = q
          · subst hp
            rw [update_self] at hx
            rcases mem_cons.mp hx with rfl | hx
            · exact .inr ⟨i, f, after, rfl, hthread⟩
            · exact .inl hx
          rw [update_of_ne hp] at hx
          exact .inl hx
        rw [update_of_ne hk] at hx
        exact .inl hx
      | _ =>
        simp only [Store.imagesAfter, hthread] at hx
        exact .inl hx
  | _ => exact .inl hx

theorem sound_shard {e : Shard.Event Image} {shard : Shard.World Image} (h : Sound s)
    (hallows : s.allows k e = true) (hstep : (s.shards k).step e = some shard) :
    Sound { s with
      shards := update s.shards k shard
      waits := match e.thread with
        | some i => update s.waits (k, i) none
        | none => s.waits
      images := s.imagesAfter k e } := by
  -- what the step writes to the disk is flushed
  have hwritten : ∀ i p f after buf, e = .run i →
      (s.shards k).threads[i]? = some (.write_page p f after buf) →
      buf.page_lsn ≤ s.wal.flushed_lsn := by
    rintro i p f after buf rfl hthread
    refine h.flushed_of_flushed hthread ?_
    simpa only [Store.allows, hthread] using hallows
  have hfilled : Shard.Filled (fun x => x.page_lsn ≤ s.last_lsn) shard := by
    refine Shard.filled_step (h.frames k) (Nat.zero_le _) ?_ hstep
    rintro i data rfl
    exact h.stampable_le hallows
  have hdisk : ∀ p, (shard.disk p).page_lsn ≤ s.wal.flushed_lsn := by
    intro p
    rcases Shard.disk_step hstep p with hdisk | ⟨i, f, after, buf, he, hthread, hdisk⟩
    · rw [hdisk]
      exact h.disk k p
    rw [hdisk]
    exact hwritten i p f after buf he hthread
  have himages : ∀ k' p, ∀ x ∈ s.imagesAfter k e k' p, x.page_lsn ≤ s.wal.flushed_lsn := by
    intro k' p x hx
    rcases mem_imagesAfter hx with hx | ⟨i, f, after, he, hthread⟩
    · exact h.images k' p x hx
    · exact hwritten i p f after x he hthread
  refine ⟨h.log, h.fitting, h.found, h.numbered, h.base, h.short,
    Shard.forall_update h.frames hfilled k,
    Shard.forall_update (P := fun w : Shard.World Image => ∀ p, (w.disk p).page_lsn ≤ _) h.disk
      hdisk k,
    himages, ?_⟩
  intro k' i' j hj
  -- a thread that still waits has not made the step
  obtain ⟨hwaits, hother⟩ : s.waits (k', i') = some j ∧ (k' = k → e.thread ≠ some i') := by
    cases hi : e.thread with
    | none =>
      simp only [hi] at hj
      exact ⟨hj, nofun⟩
    | some i =>
      simp only [hi, update_apply] at hj
      split at hj
      · cases hj
      rename_i hne
      refine ⟨hj, fun hk hi' => hne ?_⟩
      cases hi'
      rw [hk]
  obtain ⟨p, f, after, buf, target, stage, hthread, hcall, hle⟩ := h.waits k' i' j hwaits
  refine ⟨p, f, after, buf, target, stage, ?_, hcall, hle⟩
  dsimp only
  rw [update_apply]
  split
  · next hk =>
    subst hk
    exact Shard.thread_kept hstep hthread (hother rfl)
  · exact hthread

theorem sound_flush_wal {f : Nat} {after : Shard.After} {buf : Image} (h : Sound s)
    (hlsn : s.wal.next_lsn < 2 ^ 64)
    (hthread : (s.shards k).threads[i]? = some (.write_page p f after buf))
    (hstep : WalThreads.step s.wal (.flush_up_to buf.page_lsn) = some wal) :
    Sound { s with wal, waits := update s.waits (k, i) (some s.wal.calls.length) } := by
  have hfits : (WalThreads.Event.flush_up_to buf.page_lsn).Fits := trivial
  have hwal : Sound { s with wal, short := s.short } := sound_wal h hfits hlsn hstep h.short
  refine ⟨hwal.log, hwal.fitting, h.found, h.numbered, h.base, h.short, hwal.frames, hwal.disk,
    hwal.images, ?_⟩
  intro k' i' j hj
  dsimp only at hj
  rw [update_apply] at hj
  split at hj
  · next hki =>
    cases hki
    cases hj
    cases hstep
    exact ⟨p, f, after, buf, buf.page_lsn, .start, hthread, getElem?_concat_length, le_rfl⟩
  · exact hwal.waits k' i' j hj

/-! ## Restarts -/

/-- A log that was just opened on whole records, over pages that it is flushed for. -/
theorem sound_new (buffer_capacity n_frames : Nat) {segment_size base : Nat}
    {segments : List Bytes} {found : List Logged} {disk : Nat → Nat → Image}
    {images : Nat → Nat → List Image} (hwhole : Whole found (.open segment_size segments))
    (hfits : ∀ r ∈ found, r.Fits) (hnum : NumberedFrom base found) (hbase : found = [] → base = 0)
    (hdisk : ∀ k p, (disk k p).page_lsn ≤ base + found.length)
    (himages : ∀ k p, ∀ x ∈ images k p, x.page_lsn ≤ base + found.length)
    (hshort : ∀ i, short i = none) :
    Sound {
      shards := fun k => .new n_frames (disk k)
      wal := .opened buffer_capacity segment_size segments (base + found.length)
      waits := fun _ => none
      images, base, found, short } where
  log := ⟨_, hwhole, WalThreads.good_opened _ _ _ _⟩
  fitting := ⟨nofun, nofun⟩
  found := hfits
  numbered := hnum
  base := hbase
  short := hshort
  frames k := Shard.filled_new n_frames (Nat.zero_le _) fun p => hdisk k p
  disk := hdisk
  images := himages
  waits := nofun

/-- However much of the last segment is left behind its synced bytes, the log that is opened there
is sound, with all that was flushed. -/
theorem sound_restart {kept buffer_capacity segment_size : Nat} (n_frames : Nat)
    {disk : Nat → Nat → Image} {images : Nat → Nat → List Image} (h : Sound s)
    (hkept : s.wal.writer.synced ≤ kept) (hkept' : kept ≤ s.wal.writer.file.length)
    (hopen : WalThreads.new_with_options buffer_capacity segment_size (s.wal.writer.closed ++
      [s.wal.writer.file.take kept]) = .ok wal)
    (hdisk : ∀ k p, (disk k p).page_lsn ≤ s.wal.flushed_lsn)
    (himages : ∀ k p, ∀ x ∈ images k p, x.page_lsn ≤ s.wal.flushed_lsn)
    (hshort : ∀ i, short i = none) : Sound (s.restart wal disk images short n_frames) := by
  obtain ⟨o, ho, hgood⟩ := h.log
  obtain ⟨d, hflushed, hd, hholds⟩ := hgood.cut ho h.fitting.log h.found hkept hkept'
  let rs := s.found ++ s.wal.log.take d
  have hlen : rs.length = s.found.length + d := by
    rw [length_append, length_take, Nat.min_eq_left hd]
  have hnum : NumberedFrom s.base rs := h.numbered.append (NumberedFrom.take hgood.numbered d)
  have hbase : rs = [] → s.base = 0 := fun hnil => h.base (append_eq_nil_iff.mp hnil).1
  have hfits : ∀ r ∈ rs, r.Fits := by
    intro r hr
    rcases mem_append.mp hr with hr | hr
    · exact h.found r hr
    · exact h.fitting.log r (mem_of_mem_take hr)
  obtain ⟨segments, hopened, hwhole⟩ :=
    WalThreads.new_with_options_ok hnum hbase hfits hholds buffer_capacity segment_size
  cases hopen.symm.trans hopened
  have hfound : (s.found ++ s.wal.log).take (s.base + rs.length - s.base) = rs := by
    rw [Nat.add_sub_cancel_left, hlen, take_append,
      take_of_length_le (Nat.le_add_right _ _), Nat.add_sub_cancel_left]
  have hlast : s.wal.flushed_lsn ≤ s.base + rs.length := by omega
  have hsound := sound_new buffer_capacity n_frames hwhole hfits hnum hbase
    (fun k p => (hdisk k p).trans hlast) (fun k p x hx => (himages k p x hx).trans hlast) hshort
  unfold Store.restart
  have hflushed' : (WalThreads.World.opened buffer_capacity segment_size segments
      (s.base + rs.length)).flushed_lsn = s.base + rs.length := rfl
  rw [hflushed', hfound]
  exact hsound

/-! ## The law -/

theorem sound_step {e : Event} (h : Sound s) (hok : Careful s e) (hstep : s.step e = some s') :
    Sound s' := by
  cases e with
  | wal e =>
    obtain ⟨hlsn, hstep⟩ := ite_none_right_eq_some.mp hstep
    obtain ⟨wal, hwal, rfl⟩ := map_eq_some_iff.mp hstep
    refine sound_wal h hok hlsn hwal fun i => ?_
    split
    · rw [update_apply]
      split
      · rfl
      · exact h.short i
    · exact h.short i
  | shard k e =>
    obtain ⟨hallows, hstep⟩ := ite_none_right_eq_some.mp hstep
    obtain ⟨shard, hshard, rfl⟩ := map_eq_some_iff.mp hstep
    exact sound_shard h hallows hshard
  | flush_wal k i =>
    simp only [Store.step] at hstep
    split at hstep
    · next p f after buf hthread hnone =>
      split at hstep
      · next hlsn =>
        obtain ⟨wal, hwal, rfl⟩ := map_eq_some_iff.mp hstep
        exact sound_flush_wal h hlsn hthread hwal
      · cases hstep
    · cases hstep
  | reopen buffer_capacity segment_size n_frames =>
    simp only [Store.step] at hstep
    split at hstep
    swap
    · cases hstep
    rename_i wal hopen
    cases hstep
    obtain ⟨o, ho, hgood⟩ := h.log
    obtain ⟨m, -, -, hsynced, -⟩ := hgood.synced
    have hall : WalThreads.new_with_options buffer_capacity segment_size (s.wal.writer.closed ++
        [s.wal.writer.file.take s.wal.writer.file.length]) = .ok wal := by
      rw [take_length]
      exact hopen
    refine sound_restart n_frames h hsynced le_rfl hall h.disk h.images fun i => ?_
    -- all of the last segment was synced before, or is now
    unfold Store.shortAfter
    rw [update_apply, h.durable_len_last]
    split
    · rw [if_neg]
      rintro ⟨hwhole, hlt⟩
      rcases hok with hsame | hcut
      · omega
      rw [hwhole] at hcut
      cases hcut
    · exact h.short i
  | crash kept pick buffer_capacity segment_size n_frames =>
    obtain ⟨hkept, hstep⟩ := ite_none_right_eq_some.mp hstep
    split at hstep
    swap
    · cases hstep
    rename_i wal hopen
    cases hstep
    obtain ⟨o, ho, hgood⟩ := h.log
    obtain ⟨m, -, -, hsynced, -⟩ := hgood.synced
    have hlast : s.wal.writer.synced ≤ kept s.wal.writer.closed.length := by
      rw [← h.durable_len_last]
      refine hkept _ ?_
      unfold SegmentWriter.segments
      rw [length_append, length_singleton]
      exact Nat.lt_succ_self _
    have hcut : s.wal.writer.segments.mapIdx (fun i segment => segment.take (kept i)) =
        s.wal.writer.closed ++ [s.wal.writer.file.take
          (min (kept s.wal.writer.closed.length) s.wal.writer.file.length)] := by
      unfold SegmentWriter.segments
      rw [mapIdx_take, ← take_eq_take_min]
      intro i segment hi
      rw [← h.durable_len_closed hi]
      refine hkept i ?_
      have := Maps.lt_of_getElem? hi
      unfold SegmentWriter.segments
      rw [length_append]
      omega
    rw [hcut] at hopen
    have hdisk : ∀ k p, (((s.images k p)[pick k p]?).getD ((s.shards k).disk p)).page_lsn ≤
        s.wal.flushed_lsn := by
      intro k p
      cases hp : (s.images k p)[pick k p]? with
      | none => exact h.disk k p
      | some x => exact h.images k p x (mem_of_getElem? hp)
    refine sound_restart n_frames h (le_min hlast hsynced) (Nat.min_le_right _ _) hopen hdisk ?_
      fun _ => rfl
    intro k p x hx
    rw [mem_singleton.mp hx]
    exact hdisk k p

/-- In every run that meets the condition, a thread that can write its copy of a page to the data
file finds the log durable through the LSN of the copy. The run starts with any log that is on the
disk, complete or a suffix of one, and with pages that have LSNs of it. -/
theorem no_page_is_written_before_its_log (buffer_capacity n_frames : Nat) {segment_size base : Nat}
    {segments : List Bytes} {found : List Logged} {disk : Nat → Nat → Image}
    (hwhole : Whole found (.open segment_size segments)) (hfits : ∀ r ∈ found, r.Fits)
    (hnum : NumberedFrom base found) (hbase : found = [] → base = 0)
    (hdisk : ∀ k p, (disk k p).page_lsn ≤ base + found.length) {es : List Event}
    (hok : Runs.Meets Store.step Careful
      (.opened buffer_capacity segment_size n_frames base segments found disk) es)
    (hrun : Runs.run Store.step
      (.opened buffer_capacity segment_size n_frames base segments found disk) es = some s)
    {k i p f : Nat} {after : Shard.After} {buf : Image}
    (hthread : (s.shards k).threads[i]? = some (.write_page p f after buf))
    (hwrite : (s.step (.shard k (.run i))).isSome) : s.DurableThrough buf.page_lsn := by
  have hstart : Sound (.opened buffer_capacity segment_size n_frames base segments found disk) := by
    refine sound_new buffer_capacity n_frames hwhole hfits hnum hbase hdisk ?_ fun _ => rfl
    intro k p x hx
    rw [List.mem_singleton.mp hx]
    exact hdisk k p
  have hsound : Sound s := Runs.inv_run_meets (fun _ _ _ h he hs => sound_step h he hs) hstart hok
    hrun
  refine hsound.durableThrough (hsound.flushed_of_flushed hthread ?_)
  have hallows : s.allows k (.run i) = true := by
    simp only [Store.step] at hwrite
    split at hwrite
    · next hallows => exact hallows
    · cases hwrite
  simpa only [Store.allows, hthread] using hallows

/-! ## A page that overtakes its log -/

/-- One thread appends a record, and another one is about to sync it. -/
def writeRecord : List Event :=
  .wal (.append (log_commit 5)) :: List.replicate 4 (.wal (.run 0)) ++
    .wal (.flush_up_to 1) :: List.replicate 8 (.wal (.run 1))

/-- Page 3 gets the LSN of the record and is about to be written. -/
def writePage : List Event :=
  [.fetch_page_mut 3, .run 0, .run 0, .run 0, .run 0, .write 0 ⟨1, [7]⟩, .drop_guard 0, .run 0,
    .flush_page 3, .run 1, .run 1].map (.shard 0) ++ [.flush_wal 0 1, .wal (.run 0), .wal (.run 0)]

/-- A log in a new directory under a data file of zeros. -/
def empty : Store := .opened 64 64 1 0 [] [] fun _ _ => default

/-- The record is synced, the machine crashes, and the page is written after the reopen. -/
theorem a_page_is_written_behind_its_log :
    ∃ s, Runs.run Store.step empty (writeRecord ++ List.replicate 8 (.wal (.run 1)) ++
        [.crash (fun _ => 64) (fun _ _ => 0) 64 64 1] ++ writePage) = some s ∧
      (s.step (.shard 0 (.run 1))).isSome ∧ s.DurableThrough 1 := by
  have hex : ∃ s, Runs.run Store.step empty (writeRecord ++ List.replicate 8 (.wal (.run 1)) ++
        [.crash (fun _ => 64) (fun _ _ => 0) 64 64 1] ++ writePage) = some s ∧
      (s.shards 0).threads[1]? = some (.write_page 3 0 (.flush .flush_page) ⟨1, [7]⟩) ∧
      (s.step (.shard 0 (.run 1))).isSome := Runs.exists_run (by decide +kernel)
  obtain ⟨s, hrun, hthread, hwrite⟩ := hex
  have hok : Runs.Meets Store.step Careful empty (writeRecord ++ List.replicate 8 (.wal (.run 1)) ++
      [.crash (fun _ => 64) (fun _ _ => 0) 64 64 1] ++ writePage) := by decide +kernel
  have hempty : Whole [] (.open 64 []) := ⟨[], [], rfl, rfl, rfl⟩
  exact ⟨s, hrun, hwrite, no_page_is_written_before_its_log 64 1 hempty nofun nofun (fun _ => rfl)
    (fun _ _ => le_rfl) hok hrun hthread hwrite⟩

/-- The sync of the record fails and the process is restarted. The open takes the record for
flushed, the page is written, and not a byte of the log is on the disk for good. -/
theorem a_page_is_written_before_its_log_is_synced :
    ∃ s, Runs.run Store.step empty (writeRecord ++ [.wal (.sync_fault 1)] ++ [.reopen 64 64 1] ++
        writePage) = some s ∧
      (s.shards 0).threads[1]? = some (.write_page 3 0 (.flush .flush_page) ⟨1, [7]⟩) ∧
      (s.step (.shard 0 (.run 1))).isSome ∧ s.durable = [[]] ∧ ¬ s.DurableThrough 1 := by
  have hex : ∃ s, Runs.run Store.step empty (writeRecord ++ [.wal (.sync_fault 1)] ++
        [.reopen 64 64 1] ++ writePage) = some s ∧
      (s.shards 0).threads[1]? = some (.write_page 3 0 (.flush .flush_page) ⟨1, [7]⟩) ∧
      (s.step (.shard 0 (.run 1))).isSome ∧ s.durable = [[]] ∧ s.base = 0 :=
    Runs.exists_run (by decide +kernel)
  obtain ⟨s, hrun, hthread, hwrite, hdurable, hbase⟩ := hex
  refine ⟨s, hrun, hthread, hwrite, hdurable, ?_⟩
  rintro ⟨m, groups, last, hle, hm, hrs, hbytes⟩
  rw [hdurable] at hbytes
  have hlen := congrArg List.length hrs
  have hgroups : groups = [] := by
    have := congrArg List.length hbytes
    simpa using this
  subst hgroups
  have hlast : (bytesOf last).length = 0 := congrArg List.length (List.cons.inj hbytes).1.symm
  have hcount := length_le_length_bytesOf last
  rw [List.flatten_nil, List.nil_append, List.length_take] at hlen
  omega

end FluxDB.PageWrites
