-- The recovery law: after a crash that keeps the log up to some LSN, recovery leaves every
-- page as the running index had it right after that LSN, but for checksums and the
-- INCOMPLETE_SPLIT bit.
import FluxDB.RunningIndex

namespace FluxDB

open Bytes List Function Except WalReader

namespace Running

variable {canon : Bytes → Bytes} {w : World}

/-! ## The durable log -/

/-- The bytes of the first `d` records, one list for each. -/
def records (w : World) (d : Nat) : List Bytes :=
  (w.log.take d).zipIdx.map fun x => x.1.entry.bytes (x.2 + 1)

/-- Segments that hold these records, cut at any place between two records. -/
def Segmented (segments : List Bytes) (recs : List Bytes) : Prop :=
  ∃ groups : List (List Bytes), groups.flatten = recs ∧
    segments = groups.map List.flatten

theorem bytes_ne_nil (e : Entry) (lsn : Nat) : e.bytes lsn ≠ [] := by
  intro h
  have hlen := congrArg List.length h
  simp [Entry.bytes] at hlen

theorem next_record_skip (segments : List Bytes) :
    next_record ([] :: segments) = next_record segments := by
  unfold next_record
  rfl

variable {s : RecoveryState} {c : Change} {d k : Nat} {done : List UInt64}
  {recs segments : List Bytes}

theorem next_record_nil (h : Segmented segments []) : next_record segments = none := by
  obtain ⟨groups, hflat, rfl⟩ := h
  induction groups with
  | nil => rfl
  | cons g groups ih =>
    rw [flatten_cons, append_eq_nil_iff] at hflat
    rw [map_cons, hflat.1, flatten_nil, next_record_skip]
    exact ih hflat.2

/-- The first record is read and the rest is again cut into segments. -/
theorem next_record_cons {e : Entry} {lsn : Nat} (he : e.Fits) (hlsn : lsn < 2 ^ 64)
    (h : Segmented segments (e.bytes lsn :: recs)) :
    ∃ rest, next_record segments = some (.ok (e.record lsn, rest)) ∧ Segmented rest recs := by
  obtain ⟨groups, hflat, rfl⟩ := h
  induction groups with
  | nil => cases hflat
  | cons g groups ih =>
    cases g with
    | nil =>
      obtain ⟨rest, hrest⟩ := ih hflat
      exact ⟨rest, by rw [map_cons, flatten_nil, next_record_skip]; exact hrest.1, hrest.2⟩
    | cons r g =>
      simp only [flatten_cons, cons_append, List.cons.injEq] at hflat
      obtain ⟨rfl, hflat⟩ := hflat
      refine ⟨g.flatten :: groups.map List.flatten, ?_, g :: groups, hflat, rfl⟩
      rw [map_cons, flatten_cons]
      exact next_record_bytes he hlsn _ _

theorem length_le_length_flatten (hne : ∀ r ∈ recs, r ≠ []) :
    recs.length ≤ recs.flatten.length := by
  induction recs with
  | nil => exact le_rfl
  | cons r recs ih =>
    have hpos := length_pos_iff.mpr (hne r mem_cons_self)
    have hrest := ih fun r hr => hne r (mem_cons_of_mem _ hr)
    rw [flatten_cons, length_cons, length_append]
    omega

theorem Segmented.length_le (h : Segmented segments recs) (hne : ∀ r ∈ recs, r ≠ []) :
    recs.length ≤ (segments.map List.length).sum := by
  obtain ⟨groups, rfl, rfl⟩ := h
  rw [← length_flatten, ← flatten_flatten]
  exact length_le_length_flatten hne

/-! ## Redo of one block -/

/-- The page as recovery has it. -/
def view (s : RecoveryState) (p : UInt64) : Page := (s.frames p).getD (s.disk p)

/-- Recovery has redone LSN `k` everywhere and LSN `k + 1` on the pages `done`. A page whose
image on disk was ahead of that is still as on disk. -/
structure Redone (w : World) (k : Nat) (done : List UInt64) (s : RecoveryState) : Prop where
  verified : ∀ p, (s.disk p).verify_checksum
  page : ∀ p, Same (view s p)
    (w.hist (max (if p ∈ done then k + 1 else k) (w.disk p).page_lsn) p)

theorem ensure_page_eq {p : UInt64} (h : (s.disk p).verify_checksum) :
    s.ensure_page p = .ok (view s p) := by
  unfold RecoveryState.ensure_page view
  cases s.frames p with
  | some b => rfl
  | none => exact if_pos h

theorem view_setFrame (s : RecoveryState) (p p' : UInt64) (b : Page) :
    view (s.setFrame p b) p' = if p' = p then b else view s p' := by
  unfold view RecoveryState.setFrame
  by_cases h : p' = p
  · subst h
    simp
  · simp [h]

section

variable (hw : Good canon w) (hc : w.log[k]? = some c)

include hw hc

/-- One block: skipped when the page already carries the record, redone otherwise. -/
theorem redo_block_ok (hs : Redone w k done s) {i : Nat} {block : Block}
    (hb : c.entry.blocks[i]? = some block) (hnew : block.page_id ∉ done) :
    ∃ s', s.redo_block canon (c.entry.record (k + 1)) (Change.readBack block, i) = .ok s' ∧
      Redone w k (block.page_id :: done) s' := by
  have hdid := hw.did k c hc
  have hk : k < w.log.length := Maps.lt_of_getElem? hc
  have hpage := hs.page block.page_id
  rw [if_neg hnew] at hpage
  -- Only the page of this block changes, so it is enough to say what it becomes.
  have hset : ∀ b, Same b (w.hist (max (k + 1) (w.disk block.page_id).page_lsn) block.page_id) →
      Redone w k (block.page_id :: done) (s.setFrame block.page_id b) := by
    intro b hsame
    refine ⟨hs.verified, fun p => ?_⟩
    rw [view_setFrame]
    by_cases hp : p = block.page_id
    · subst hp
      rw [if_pos rfl, if_pos mem_cons_self]
      exact hsame
    rw [if_neg hp]
    have := hs.page p
    simpa only [mem_cons, hp, false_or] using this
  have hens : s.ensure_page (Change.readBack block).page_id = .ok (view s block.page_id) :=
    ensure_page_eq (hs.verified _)
  have hrec : (c.entry.record (k + 1)).lsn = k + 1 := rfl
  unfold RecoveryState.redo_block
  simp only [hens, ok_bind, hrec]
  by_cases hskip : k + 1 ≤ (view s block.page_id).page_lsn
  · rw [if_pos hskip]
    refine ⟨_, rfl, hset _ ?_⟩
    -- The page carries the record already, so its image on disk was ahead of it.
    have hahead : k + 1 ≤ (w.disk block.page_id).page_lsn := by
      by_contra hcon
      rw [max_eq_left (by omega)] at hpage
      have := (hw.carried k block.page_id hk.le).1
      rw [← hpage.page_lsn] at this
      omega
    rwa [max_eq_right (by omega)] at hpage ⊢
  rw [if_neg hskip]
  -- The page does not carry the record, so its image on disk was not ahead of it either.
  have hbehind : (w.disk block.page_id).page_lsn ≤ k := by
    by_contra hcon
    rw [max_eq_right (by omega)] at hpage
    rw [hpage.page_lsn, ← (hw.durable block.page_id).2.2.page_lsn] at hskip
    omega
  rw [max_eq_left hbehind] at hpage
  obtain ⟨q', hq', hsame⟩ := hdid.redone hb hpage
  have hredo : redo_page canon (c.entry.record (k + 1)).entry_type (k + 1) i
      (Change.readBack block) (view s block.page_id) = .ok q' := hq'
  rw [hredo]
  refine ⟨_, rfl, hset _ ?_⟩
  rwa [max_eq_left (by omega)]

/-! ## Redo of one record -/

theorem redo_blocks_ok (bs pre : List Block) (hbs : c.entry.blocks = pre ++ bs)
    (hdone : ∀ p, p ∈ done ↔ p ∈ pre.map Block.page_id) (hs : Redone w k done s) :
    ∃ s', ((bs.map Change.readBack).zipIdx pre.length).foldlM
      (RecoveryState.redo_block canon (c.entry.record (k + 1))) s = .ok s' ∧ ∃ done',
      (∀ p, p ∈ done' ↔ p ∈ pages c) ∧ Redone w k done' s' := by
  induction bs generalizing pre done s with
  | nil =>
    rw [append_nil] at hbs
    refine ⟨s, rfl, done, fun p => ?_, hs⟩
    rw [hdone]
    unfold pages
    rw [hbs]
  | cons block bs ih =>
    have hb : c.entry.blocks[pre.length]? = some block := by
      rw [hbs, getElem?_append_right le_rfl, Nat.sub_self]
      rfl
    have hnew : block.page_id ∉ done := by
      rw [hdone]
      have hnodup := (hw.did k c hc).nodup
      unfold pages at hnodup
      rw [hbs, map_append, map_cons, nodup_append] at hnodup
      intro hin
      exact hnodup.2.2 _ hin _ mem_cons_self rfl
    obtain ⟨s1, hs1, hredone⟩ := redo_block_ok hw hc hs hb hnew
    have hdone' : ∀ p, p ∈ block.page_id :: done ↔ p ∈ (pre ++ [block]).map Block.page_id := by
      intro p
      rw [mem_cons, hdone]
      simp [or_comm]
    obtain ⟨s2, hs2, hrest⟩ := ih (pre ++ [block]) (by rw [hbs]; simp) hdone' hredone
    refine ⟨s2, ?_, hrest⟩
    rw [map_cons, zipIdx_cons, foldlM_cons, hs1, ok_bind]
    rwa [length_append, length_singleton] at hs2

/-- After a record every page has moved on: those it names were redone, the others are the
same under both LSNs. -/
theorem Redone.next (hdone : ∀ p, p ∈ done ↔ p ∈ pages c) (hs : Redone w k done s) :
    Redone w (k + 1) [] s := by
  refine ⟨hs.verified, fun p => ?_⟩
  have hpage := hs.page p
  rw [if_neg not_mem_nil]
  by_cases hp : p ∈ pages c
  · rwa [if_pos ((hdone p).mpr hp)] at hpage
  rw [if_neg fun h => hp ((hdone p).mp h)] at hpage
  by_cases hahead : k + 1 ≤ (w.disk p).page_lsn
  · rw [max_eq_right (by omega)] at hpage ⊢
    exact hpage
  rw [max_eq_left (by omega)] at hpage ⊢
  exact hpage.trans ((hw.did k c hc).untouched hp).symm

end

theorem Redone.of_same {s' : RecoveryState} (hs : Redone w k done s)
    (hframes : s'.frames = s.frames) (hdisk : s'.disk = s.disk) : Redone w k done s' := by
  refine ⟨fun p => hdisk ▸ hs.verified p, fun p => ?_⟩
  have hview : view s' p = view s p := by
    unfold view
    rw [hframes, hdisk]
  rw [hview]
  exact hs.page p

/-- Writing a frame out and giving it up leaves the page as it counts. -/
theorem Redone.delete_page (hs : Redone w k done s) (p : UInt64) :
    Redone w k done (s.delete_page p) := by
  unfold RecoveryState.delete_page
  cases hf : s.frames p with
  | none => exact hs
  | some b =>
    obtain ⟨hstamp, hverify⟩ := Same.stamp_checksum_verifies b
    refine ⟨fun p' => ?_, fun p' => ?_⟩
    · dsimp only
      by_cases hp : p' = p
      · subst hp
        rw [update_self]
        exact hverify
      rw [update_of_ne hp]
      exact hs.verified p'
    have hpage := hs.page p'
    unfold view at hpage ⊢
    dsimp only
    by_cases hp : p' = p
    · subst hp
      rw [hf] at hpage
      rw [update_self, update_self]
      exact hstamp.trans hpage
    rw [update_of_ne hp, update_of_ne hp]
    exact hpage

theorem Redone.delete_pages (ps : List UInt64) (hs : Redone w k done s) :
    Redone w k done (ps.foldl RecoveryState.delete_page s) :=
  foldlRecOn ps RecoveryState.delete_page hs fun _ h p _ => h.delete_page p

theorem redo_record_ok (hw : Good canon w) (hc : w.log[k]? = some c) (hs : Redone w k [] s) :
    ∃ s', s.redo_record canon (c.entry.record (k + 1)) = .ok s' ∧ Redone w (k + 1) [] s' := by
  obtain ⟨s', hs', done, hdone, hredone⟩ :=
    redo_blocks_ok hw hc c.entry.blocks [] rfl (fun p => by simp) hs
  exact ⟨s', hs', hredone.next hw hc hdone⟩

theorem redo_of_overflow_free {record : WalRecord} (h : record.entry_type = .OverflowFree) :
    s.redo canon 0 record = s.redo_overflow_free record := by
  unfold RecoveryState.redo
  rw [h]
  exact if_pos (Nat.zero_le _)

theorem redo_ok (hw : Good canon w) (hc : w.log[k]? = some c) (hs : Redone w k [] s) :
    ∃ s', s.redo canon 0 (c.entry.record (k + 1)) = .ok s' ∧ Redone w (k + 1) [] s' := by
  cases c with
  | commit txn | abort txn => exact ⟨_, rfl, (hs.next hw hc fun p => .rfl).of_same rfl rfl⟩
  | overflow_free first others =>
    generalize hd : (first :: others).flatMap (fun pid => leBytes 8 pid.toNat) = d
    have hlen : d.length % 8 = 0 := by
      rw [← hd, Change.length_ids, Nat.mul_mod_right]
    have hne : d ≠ [] := by
      rintro rfl
      have := congrArg List.length hd
      rw [Change.length_ids] at this
      simp at this
    have hmain : ((Change.overflow_free first others).entry.record (k + 1)).main_data =
        some d := by
      rw [← hd] at hne ⊢
      simp only [Entry.record, Change.entry, log_overflow_free, nonEmpty, Option.getD_some]
      exact if_neg hne
    refine ⟨(RecoveryState.chunkIds d).foldl RecoveryState.delete_page s, ?_,
      (hs.delete_pages _).next hw hc fun p => .rfl⟩
    rw [redo_of_overflow_free rfl]
    unfold RecoveryState.redo_overflow_free
    rw [hmain]
    simp only [hlen, ne_eq, not_true_eq_false, if_false]
  | _ => exact redo_record_ok hw hc hs

/-! ## The scan -/

theorem records_drop (hk : k < d) (hc : w.log[k]? = some c) :
    (records w d).drop k = c.entry.bytes (k + 1) :: (records w d).drop (k + 1) := by
  have hget : (records w d)[k]? = some (c.entry.bytes (k + 1)) := by
    unfold records
    rw [getElem?_map, getElem?_zipIdx, getElem?_take_of_lt hk, hc]
    simp
  obtain ⟨hlt, hval⟩ := List.getElem?_eq_some_iff.mp hget
  rw [drop_eq_getElem_cons hlt, hval]

/-- The scan passes over the records up to `d` and goes on with whatever follows them. -/
theorem replay_records (hw : Good canon w) (hd : d ≤ w.log.length) {tail : List Bytes}
    (n : Nat) {fuel : Nat} (hk : k + n = d) (hfuel : n ≤ fuel)
    (hseg : Segmented segments ((records w d).drop k ++ tail)) (hs : Redone w k [] s) :
    ∃ rest s', RecoveryState.replay canon 0 fuel segments s =
        RecoveryState.replay canon 0 (fuel - n) rest s' ∧
      Segmented rest tail ∧ Redone w d [] s' := by
  induction n generalizing k fuel segments s with
  | zero =>
    have hnil : (records w d).drop k = [] := by
      apply drop_eq_nil_of_le
      unfold records
      rw [length_map, length_zipIdx, length_take]
      omega
    rw [hnil] at hseg
    obtain rfl : k = d := hk
    exact ⟨segments, s, rfl, hseg, hs⟩
  | succ n ih =>
    obtain ⟨c, hc⟩ : ∃ c, w.log[k]? = some c := ⟨_, getElem?_eq_getElem (by omega)⟩
    have hdid := hw.did k c hc
    rw [records_drop (by omega) hc, cons_append] at hseg
    obtain ⟨rest, hnext, hrest⟩ := next_record_cons hdid.fits hdid.lsn_lt hseg
    have hnote : Redone w k [] (s.note (c.entry.record (k + 1))) := hs.of_same rfl rfl
    obtain ⟨s1, hs1, hredone⟩ := redo_ok hw hc hnote
    obtain ⟨fuel, rfl⟩ : ∃ f, fuel = f + 1 := ⟨fuel - 1, by omega⟩
    have hn : n ≤ fuel := by omega
    obtain ⟨rest', s', hreplay, hend⟩ := ih (by omega) hn hrest hredone
    refine ⟨rest', s', ?_, hend⟩
    rw [Nat.add_sub_add_right, ← hreplay]
    simp only [RecoveryState.replay, hnext, hs1, ok_bind]

theorem redone_start (hw : Good canon w) (tm : TransactionManager) :
    Redone w 0 [] (RecoveryState.start w.disk tm) := by
  refine ⟨fun p => (hw.durable p).2.1, fun p => ?_⟩
  rw [if_neg not_mem_nil, Nat.zero_max]
  exact (hw.durable p).2.2

/-- The pages that recovery writes out at its end. -/
theorem Redone.flushed (hw : Good canon w) (hd : w.flushed ≤ d) (hs : Redone w d [] s)
    (p : UInt64) : Same (s.flush_all_pages p) (w.hist d p) := by
  have hpage := hs.page p
  rw [if_neg not_mem_nil, max_eq_left ((hw.durable p).1.trans hd)] at hpage
  unfold view at hpage
  unfold RecoveryState.flush_all_pages
  cases hf : s.frames p with
  | none => rwa [hf] at hpage
  | some b =>
    rw [hf] at hpage
    exact (Same.stamp_checksum_verifies b).1.trans hpage

theorem length_records (hd : d ≤ w.log.length) : (records w d).length = d := by
  unfold records
  rw [length_map, length_zipIdx, length_take, min_eq_left hd]

theorem ne_nil_of_mem_records {r : Bytes} (h : r ∈ records w d) : r ≠ [] := by
  obtain ⟨x, _, rfl⟩ := mem_map.mp h
  exact bytes_ne_nil _ _

/-! ## The law -/

/-- In every run in which no free record overflows its length field, whatever was on disk and
however far past the flushed LSN the log reached, recovery of the log up to `d` leaves every
page as the index had it right after LSN `d`. -/
theorem recovery_restores_the_pages_of_the_last_durable_record {es : List Event}
    (hes : Runs.Meets (step canon) FreesFit create es)
    (hrun : Runs.run (step canon) create es = some w) {d : Nat} (hflushed : w.flushed ≤ d)
    (hd : d ≤ w.log.length) {segments : List Bytes}
    (hseg : Segmented segments (records w d)) (tm : TransactionManager) (next_page_id : Nat) :
    ∃ r, recover canon w.disk segments tm next_page_id = .ok r ∧
      ∀ p, Same (r.disk p) (w.hist d p) := by
  have hw : Good canon w :=
    Runs.inv_run_meets (fun _ _ _ h hok hstep => good_step h hok hstep) good_create hes hrun
  have hfuel : d ≤ (segments.map List.length).sum := by
    have := hseg.length_le fun r hr => ne_nil_of_mem_records hr
    rwa [length_records hd] at this
  have hseg' : Segmented segments ((records w d).drop 0 ++ []) := by
    rwa [List.drop_zero, List.append_nil]
  obtain ⟨rest, s, hreplay, hrest, hs⟩ := replay_records hw hd d (Nat.zero_add d)
    (hfuel.trans (Nat.le_succ _)) hseg' (redone_start hw tm)
  have hend : RecoveryState.replay canon 0 ((segments.map List.length).sum + 1 - d) rest s =
      .ok s := by
    rw [Nat.succ_sub hfuel, RecoveryState.replay, next_record_nil hrest]
  unfold recover
  rw [hreplay, hend, Except.ok_bind]
  exact ⟨_, rfl, fun p => hs.flushed hw hflushed p⟩

/-- A row is inserted, its page is written, the row is deleted, and the index crashes before
the deleting page is written again. -/
theorem a_deleted_row_survives_a_crash :
    let e : List Event := [.change (.insert 1 1 0 [7] [9] 0), .write_page 1,
      .change (.set_xmax 2 1 0), .clear_flag 1, .change (.commit 2)]
    ∃ w, Runs.Meets (step id) FreesFit create e ∧ Runs.run (step id) create e = some w ∧
      w.flushed ≤ 2 ∧ 2 ≤ w.log.length ∧
      ∃ r, recover id w.disk [(records w 2).flatten] TransactionManager.new 3 = .ok r ∧
        ∀ p, Same (r.disk p) (w.hist 2 p) := by
  intro e
  have hm : Runs.Meets (step id) FreesFit create e := by decide +kernel
  obtain ⟨w, hw, h1, h2⟩ : ∃ w, Runs.run (step id) create e = some w ∧
      (w.flushed ≤ 2 ∧ 2 ≤ w.log.length) := Runs.exists_run (by decide +kernel)
  have hseg : Segmented [(records w 2).flatten] (records w 2) := ⟨[records w 2], by simp, rfl⟩
  exact ⟨w, hm, hw, h1, h2,
    recovery_restores_the_pages_of_the_last_durable_record hm hw h1 h2 hseg _ _⟩

/-! ## A free record that is too long -/

/-- What is in front of the page ids of a free record. -/
def freeHeader (lsn size len : Nat) : Bytes :=
  leBytes 8 lsn ++ leBytes 4 size ++ [WalRecordType.OverflowFree.toByte] ++ [0] ++ leBytes 8 0 ++
    leBytes 2 len

/-- When the length of the ids is cut to zero, the first four bytes of the ids are taken for
the checksum. -/
theorem read_record_of_long_free {lsn size len : Nat} (hlen : len % 65536 = 0)
    {sum rest : Bytes} (hsum : sum.length = 4)
    (hcrc : (crc32 (freeHeader lsn size len)).toNat ≠ leNat sum) :
    ∃ e, read_record ⟨freeHeader lsn size len ++ (sum ++ rest), []⟩ = .error e := by
  have hzero : leNat (leBytes 2 len) = 0 := by
    rw [leNat_leBytes]
    exact hlen
  have hnone : leNat [(0 : UInt8)] = 0 := rfl
  refine ⟨.ChecksumMismatch (leNat (leBytes 8 lsn)) (leNat sum)
    (crc32 (freeHeader lsn size len)).toNat, ?_⟩
  unfold read_record
  nth_rewrite 1 [freeHeader]
  simp only [append_assoc]
  simp only [read_exact_leBytes, read_exact_byte, ok_bind,
    read_type_toByte, hzero, hnone, read_blocks, read_if,
    Nat.lt_irrefl, if_false]
  have hhashed : [] ++ leBytes 8 lsn ++ leBytes 4 size ++
      [WalRecordType.OverflowFree.toByte] ++ [0] ++ leBytes 8 0 ++ leBytes 2 len =
      freeHeader lsn size len := by
    rw [nil_append]
    rfl
  unfold read_checksum
  rw [hhashed, read_exact_append hsum]
  simp only [ok_bind]
  rw [if_pos hcrc]
  rfl

/-- A record that cannot be read stops the scan wherever it stands in its segment. -/
theorem next_record_error {r : Bytes} (hr : r ≠ []) (h : Segmented segments [r])
    {e : WalError} (he : read_record ⟨r, []⟩ = .error e) :
    next_record segments = some (.error e) := by
  obtain ⟨groups, hflat, rfl⟩ := h
  induction groups with
  | nil => cases hflat
  | cons g groups ih =>
    cases g with
    | nil =>
      rw [map_cons, flatten_nil, next_record_skip]
      exact ih hflat
    | cons r' g =>
      simp only [flatten_cons, cons_append, List.cons.injEq, append_eq_nil_iff] at hflat
      obtain ⟨rfl, rfl, _⟩ := hflat
      obtain ⟨b, bs, rfl⟩ := exists_cons_of_ne_nil hr
      unfold next_record
      simp [he, error_bind]

theorem step_change {mem : UInt64 → Page} (hlsn : w.log.length + 1 < 2 ^ 64)
    (hnodup : (pages c).Nodup)
    (hmem : applyEffects w.mem (c.effects canon (w.log.length + 1)) = .ok mem) :
    ∃ w', step canon w (.change c) = some w' ∧ w'.mem = mem ∧ w'.log = w.log ++ [c] ∧
      w'.disk = w.disk ∧ w'.flushed = w.flushed := by
  simp only [step, hmem, if_pos (And.intro hlsn hnodup)]
  exact ⟨_, rfl, rfl, rfl, rfl, rfl⟩

theorem step_change_page (canon : Bytes → Bytes) {p : UInt64}
    {f : Page → Except PageFault Page} {b : Page} (hlsn : w.log.length + 1 < 2 ^ 64)
    (hpages : pages c = [p]) (heffects : c.effects canon (w.log.length + 1) = [(p, f)])
    (hb : f (w.mem p) = .ok b) :
    ∃ w', step canon w (.change c) = some w' ∧ w'.mem = update w.mem p b ∧
      w'.log = w.log ++ [c] ∧ w'.disk = w.disk ∧ w'.flushed = w.flushed := by
  apply step_change hlsn
  · rw [hpages]
    exact nodup_singleton p
  rw [heffects]
  simp only [applyEffects, foldlM_cons, foldlM_nil, hb, ok_bind]
  rfl

theorem step_change_none (canon : Bytes → Bytes) (hlsn : w.log.length + 1 < 2 ^ 64)
    (hpages : pages c = []) (heffects : c.effects canon (w.log.length + 1) = []) :
    ∃ w', step canon w (.change c) = some w' ∧ w'.mem = w.mem ∧ w'.log = w.log ++ [c] ∧
      w'.disk = w.disk ∧ w'.flushed = w.flushed := by
  apply step_change hlsn
  · rw [hpages]
    exact nodup_nil
  rw [heffects]
  rfl

/-- A chain of overflow pages can always be written. -/
theorem run_overflow_writes (canon : Bytes → Bytes) (l : List (UInt64 × Page))
    (hlen : w.log.length + l.length < 2 ^ 64) :
    ∃ w', Runs.run (step canon) w (l.map fun x => .change (.overflow_write 1 x.1 x.2)) = some w' ∧
      w'.log.length = w.log.length + l.length ∧ (∀ p, p ∉ l.map Prod.fst → w'.mem p = w.mem p) ∧
      w'.disk = w.disk ∧ w'.flushed = w.flushed := by
  induction l generalizing w with
  | nil => exact ⟨w, rfl, rfl, fun p _ => rfl, rfl, rfl⟩
  | cons x l ih =>
    rw [length_cons] at hlen
    obtain ⟨w1, hstep, hmem, hlog, hdisk, hflushed⟩ :=
      step_change_page canon (c := .overflow_write 1 x.1 x.2) (p := x.1)
        (show w.log.length + 1 < 2 ^ 64 by omega) rfl rfl rfl
    have hlog1 : w1.log.length = w.log.length + 1 := by rw [hlog]; simp
    obtain ⟨w', hrun, hlog', hmem', hdisk', hflushed'⟩ := ih (w := w1) (by omega)
    refine ⟨w', Runs.run_cons.mpr ⟨w1, hstep, hrun⟩, ?_, fun p hp => ?_, by rw [hdisk', hdisk],
      by rw [hflushed', hflushed]⟩
    · rw [hlog', hlog1, length_cons]
      omega
    rw [map_cons, mem_cons, not_or] at hp
    rw [hmem' p hp.2, hmem]
    exact update_of_ne hp.1 ..

theorem records_succ {w' : World} (h : w'.log = w.log ++ [c]) :
    records w' w'.log.length = records w w.log.length ++ [c.entry.bytes (w.log.length + 1)] := by
  unfold records
  rw [h, take_length, take_length, zipIdx_append]
  simp

/-- If the record of a last change cannot be read back, recovery of the whole log fails. -/
theorem unreadable_record_stops_recovery {es : List Event}
    (hes : Runs.Meets (step canon) FreesFit create es)
    (hrun : Runs.run (step canon) create es = some w) (hlsn : w.log.length + 1 < 2 ^ 64)
    (hpages : pages c = []) (heffects : c.effects canon (w.log.length + 1) = []) {e : WalError}
    (he : read_record ⟨c.entry.bytes (w.log.length + 1), []⟩ = .error e)
    (tm : TransactionManager) (next_page_id : Nat) :
    ∃ w', Runs.run (step canon) create (es ++ [.change c]) = some w' ∧
      w'.flushed ≤ w'.log.length ∧ ∃ segments, Segmented segments (records w' w'.log.length) ∧
      ∀ r, recover canon w'.disk segments tm next_page_id ≠ .ok r := by
  have hw : Good canon w :=
    Runs.inv_run_meets (fun _ _ _ h hok hstep => good_step h hok hstep) good_create hes hrun
  obtain ⟨w', hstep, hmem, hlog, hdisk, hflushed⟩ := step_change_none canon hlsn hpages heffects
  have hseg : Segmented [(records w' w'.log.length).flatten] (records w' w'.log.length) :=
    ⟨[records w' w'.log.length], by simp, rfl⟩
  refine ⟨w', Runs.run_append.mpr ⟨w, hrun, Runs.run_cons.mpr ⟨w', hstep, rfl⟩⟩, ?_,
    [(records w' w'.log.length).flatten], hseg, ?_⟩
  · rw [hflushed, hlog, length_append]
    exact hw.flushed_le.trans (Nat.le_add_right _ _)
  generalize [(records w' w'.log.length).flatten] = segments at hseg
  have hfuel := hseg.length_le fun r hr => ne_nil_of_mem_records hr
  rw [length_records le_rfl, hlog, length_append, length_singleton] at hfuel
  rw [records_succ hlog] at hseg
  -- The records before are redone, and the scan stops at the last one.
  obtain ⟨rest, s, hreplay, hrest, _⟩ := replay_records hw le_rfl w.log.length
    (Nat.zero_add _) (show w.log.length ≤ (segments.map List.length).sum + 1 by omega)
    (by rwa [drop_zero]) (redone_start hw tm)
  have hstop : RecoveryState.replay canon 0
      ((segments.map List.length).sum + 1 - w.log.length) rest s = .error (.wal e) := by
    rw [Nat.succ_sub (by omega), RecoveryState.replay,
      next_record_error (bytes_ne_nil _ _) hrest he]
  intro r hr
  unfold recover at hr
  rw [hdisk, hreplay, hstop, error_bind] at hr
  cases hr

/-- The chain of a value of 8192 chunks of zeros, built back to front from page 3 on. -/
def longChain : List (UInt64 × Page) :=
  (List.range 8192).map fun i => (UInt64.ofNat (3 + i), Overflow.build (UInt64.ofNat (3 + i))
    (if i = 0 then none else some (UInt64.ofNat (2 + i))) (List.replicate 4048 0))

/-- A value is written to its chain, its row is inserted and committed, deleted and committed,
and a vacuum compacts the leaf. -/
def shortLife (chain : List (UInt64 × Page)) : List Event :=
  (chain.map fun x => .change (.overflow_write 1 x.1 x.2)) ++
    [.change (.insert 1 1 0 [1] (Overflow.descriptor 8194 33161216) 1), .change (.commit 1),
      .change (.set_xmax 2 1 0), .change (.commit 2),
      .change (.page_compact 1 ((Leaf.new 1).put OFF_LSN (leBytes 8 8195)))]

/-- The pages of the chain in chain order, from page 8194 down to page 3. -/
def longFree : Change :=
  .overflow_free 8194 ((List.range 8191).map fun i => UInt64.ofNat (8193 - i))

theorem length_longChain : longChain.length = 8192 := by
  rw [longChain, length_map, length_range]

theorem root_not_mem_longChain : (1 : UInt64) ∉ longChain.map Prod.fst := by
  intro h
  obtain ⟨x, hx, h1⟩ := mem_map.mp h
  obtain ⟨i, hi, rfl⟩ := mem_map.mp hx
  have hi' := mem_range.mp hi
  have h2 := congrArg UInt64.toNat h1
  have hsize : 3 + i < UInt64.size := by
    change 3 + i < 2 ^ 64
    omega
  rw [UInt64.toNat_ofNat_of_lt' hsize] at h2
  have h3 : (1 : UInt64).toNat = 1 := rfl
  omega

theorem run_shortLife {chain : List (UInt64 × Page)} (hlen : chain.length = 8192)
    (hroot : 1 ∉ chain.map Prod.fst) :
    ∃ w, Runs.run (step id) create (shortLife chain) = some w ∧ w.log.length = 8197 := by
  obtain ⟨w1, hrun, hlog1, hmem1, _, _⟩ := run_overflow_writes id (w := create) chain
    (by rw [hlen]; decide)
  have hpage : w1.mem 1 = Leaf.new 1 := hmem1 1 hroot
  rw [hlen] at hlog1
  replace hlog1 : w1.log.length = 8192 := hlog1
  -- The row goes into the empty root and is deleted again.
  obtain ⟨b2, hins, b4, hdel⟩ : ∃ b, Change.insertPage 1 0 [1]
      (Overflow.descriptor 8194 33161216) 1 8193 (Leaf.new 1) = .ok b ∧
      ∃ b', Change.setXmaxPage 2 0 8195 b = .ok b' := by
    have hok : (Change.insertPage 1 0 [1] (Overflow.descriptor 8194 33161216) 1 8193 (Leaf.new 1)
        >>= Change.setXmaxPage 2 0 8195).toOption.isSome := by decide +kernel
    cases hx : Change.insertPage 1 0 [1] (Overflow.descriptor 8194 33161216) 1 8193
        (Leaf.new 1) >>= Change.setXmaxPage 2 0 8195 with
    | error e =>
      rw [hx] at hok
      cases hok
    | ok b' =>
      obtain ⟨b, hb, hb'⟩ := bind_eq_ok.mp hx
      exact ⟨b, hb, b', hb'⟩
  obtain ⟨w2, hs2, hm2, hl2, _, hf2⟩ := step_change_page id
    (c := .insert 1 1 0 [1] (Overflow.descriptor 8194 33161216) 1) (p := 1) (b := b2)
    (show w1.log.length + 1 < 2 ^ 64 by omega) rfl rfl (by rw [hpage, hlog1]; exact hins)
  have hlog2 : w2.log.length = 8193 := by rw [hl2, length_append, hlog1]; rfl
  obtain ⟨w3, hs3, hm3, hl3, _, hf3⟩ := step_change_none id (c := .commit 1)
    (show w2.log.length + 1 < 2 ^ 64 by omega) rfl rfl
  have hlog3 : w3.log.length = 8194 := by rw [hl3, length_append, hlog2]; rfl
  obtain ⟨w4, hs4, hm4, hl4, _, hf4⟩ := step_change_page id (c := .set_xmax 2 1 0) (p := 1)
    (b := b4) (show w3.log.length + 1 < 2 ^ 64 by omega) rfl rfl
    (by rw [hm3, hm2, hlog3, update_self]; exact hdel)
  have hlog4 : w4.log.length = 8195 := by rw [hl4, length_append, hlog3]; rfl
  obtain ⟨w5, hs5, hm5, hl5, _, hf5⟩ := step_change_none id (c := .commit 2)
    (show w4.log.length + 1 < 2 ^ 64 by omega) rfl rfl
  have hlog5 : w5.log.length = 8196 := by rw [hl5, length_append, hlog4]; rfl
  obtain ⟨w6, hs6, hm6, hl6, _, hf6⟩ := step_change_page id
    (c := .page_compact 1 ((Leaf.new 1).put OFF_LSN (leBytes 8 8195))) (p := 1)
    (show w5.log.length + 1 < 2 ^ 64 by omega) rfl rfl rfl
  refine ⟨w6, Runs.run_append.mpr ⟨w1, hrun, ?_⟩, ?_⟩
  · simp only [Runs.run, hs2, hs3, hs4, hs5, hs6, Option.bind_some]
  rw [hl6, length_append, hlog5]
  rfl

theorem meets_shortLife (chain : List (UInt64 × Page)) :
    Runs.Meets (step id) FreesFit create (shortLife chain) := by
  apply Runs.meets_of_forall
  intro e he s
  rcases mem_append.mp he with he | he
  · obtain ⟨x, _, rfl⟩ := mem_map.mp he
    trivial
  simp only [mem_cons, not_mem_nil, or_false] at he
  rcases he with rfl | rfl | rfl | rfl | rfl <;> trivial

/-- The 65536 bytes of ids count as none, and the header does not hash to the first ids. -/
theorem read_record_longFree :
    ∃ e, read_record ⟨longFree.entry.bytes 8198, []⟩ = .error e := by
  unfold longFree
  generalize hids : (List.range 8191).map (fun i => UInt64.ofNat (8193 - i)) = others
  have hlen : others.length = 8191 := by rw [← hids, length_map, length_range]
  generalize he : (Change.overflow_free 8194 others).entry = e
  have hmain : dataLen e.main_data = 65536 := by
    rw [← he]
    simp only [dataLen, Change.entry, log_overflow_free, Option.getD_some, Change.length_ids,
      length_cons, hlen]
  have hblocks : e.blocks = [] := by
    rw [← he]
    rfl
  have hsize : e.record_size = 65564 := by
    rw [Entry.record_size, hmain, hblocks, map_nil, sum_nil]
    norm_num
  have hdata : e.main_data.getD [] =
      [2, 32, 0, 0] ++ ([0, 0, 0, 0] ++ others.flatMap fun pid => leBytes 8 pid.toNat) := by
    rw [← he]
    rfl
  have hbytes : e.bytes 8198 = freeHeader 8198 65564 65536 ++ ([2, 32, 0, 0] ++
      (([0, 0, 0, 0] ++ others.flatMap fun pid => leBytes 8 pid.toNat) ++
        leBytes 4 (crc32 (e.body 8198)).toNat)) := by
    have hbody : e.body 8198 = freeHeader 8198 65564 65536 ++ e.main_data.getD [] := by
      unfold Entry.body freeHeader
      rw [hmain, hsize, ← he]
      rfl
    unfold Entry.bytes
    nth_rewrite 1 [hbody]
    rw [hdata, append_assoc, append_assoc]
  rw [hbytes]
  exact read_record_of_long_free rfl rfl (by decide +kernel)

theorem longFree_stops_recovery {chain : List (UInt64 × Page)} (hlen : chain.length = 8192)
    (hroot : 1 ∉ chain.map Prod.fst) :
    ∃ w, Runs.run (step id) create (shortLife chain ++ [.change longFree]) = some w ∧
      w.flushed ≤ w.log.length ∧ ∃ segments, Segmented segments (records w w.log.length) ∧
      ∀ r, recover id w.disk segments TransactionManager.new 8195 ≠ .ok r := by
  obtain ⟨w, hrun, hlog⟩ := run_shortLife hlen hroot
  obtain ⟨e, he⟩ := read_record_longFree
  have hlsn : 8198 = w.log.length + 1 := by omega
  rw [hlsn] at he
  exact unreadable_record_stops_recovery (meets_shortLife chain) hrun (by omega) rfl rfl he _ _

/-- A row with a value of 8192 chunks is deleted and vacuumed. The record that frees its pages
cannot be read back, and recovery of the whole log fails. -/
theorem a_long_free_record_stops_recovery :
    ∃ w, Runs.run (step id) create (shortLife longChain ++ [.change longFree]) = some w ∧
      w.flushed ≤ w.log.length ∧ ∃ segments, Segmented segments (records w w.log.length) ∧
      ∀ r, recover id w.disk segments TransactionManager.new 8195 ≠ .ok r :=
  longFree_stops_recovery length_longChain root_not_mem_longChain

end Running

end FluxDB
