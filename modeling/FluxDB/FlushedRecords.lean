-- What a caller of the log may rely on, over every interleaving of the calls: a flush that
-- returns without an error has synced its records, every appended record is in the files at most
-- once and in the order of the LSNs, and `flushed_lsn` only grows and is never ahead of the disk.
import FluxDB.ConcurrentFlush

namespace FluxDB.WalThreads

open Maps List

/-! ## What a step keeps -/

/-- The log and its LSNs only grow, and a flush keeps its target but for the clamp. -/
structure Kept (w w' : World) : Prop where
  log : w.log <+: w'.log
  next : w.next_lsn ≤ w'.next_lsn
  flushed : w.flushed_lsn ≤ w'.flushed_lsn
  targets : ∀ (j t : Nat) s, w.calls[j]? = some (.flush_up_to t s) →
    ∃ t' s', w'.calls[j]? = some (.flush_up_to t' s') ∧ min t (w.next_lsn - 1) ≤ t'

namespace Kept

theorem refl (w : World) : Kept w w :=
  ⟨List.prefix_rfl, le_rfl, le_rfl, fun _ t s hj => ⟨t, s, hj, Nat.min_le_left _ _⟩⟩

theorem trans {a b c : World} (h : Kept a b) (h' : Kept b c) : Kept a c := by
  refine ⟨h.log.trans h'.log, h.next.trans h'.next, h.flushed.trans h'.flushed, ?_⟩
  intro j t s hj
  obtain ⟨t', s', hj', ht'⟩ := h.targets j t s hj
  obtain ⟨t'', s'', hj'', ht''⟩ := h'.targets j t' s' hj'
  have hnext := h.next
  exact ⟨t'', s'', hj'', by omega⟩

variable {w w' : World} {i t t' : Nat} {s s' : FlushStage}

theorem flush (hi : w.calls[i]? = some (.flush_up_to t s)) (hlog : w'.log = w.log)
    (hnext : w'.next_lsn = w.next_lsn) (hflushed : w.flushed_lsn ≤ w'.flushed_lsn)
    (ht : min t (w.next_lsn - 1) ≤ t') (hcalls : w'.calls = w.calls.set i (.flush_up_to t' s')) :
    Kept w w' := by
  refine ⟨hlog ▸ List.prefix_rfl, hnext.ge, hflushed, ?_⟩
  intro j u r hj
  rw [hcalls, getElem?_set_eq_ite hi]
  split
  · next hji =>
    cases hji
    cases hi.symm.trans hj
    exact ⟨t', s', rfl, ht⟩
  · exact ⟨u, r, hj, Nat.min_le_left _ _⟩

theorem append {stage stage' : AppendStage} (hi : w.calls[i]? = some (.append stage))
    (hlog : w.log <+: w'.log) (hnext : w.next_lsn ≤ w'.next_lsn)
    (hflushed : w.flushed_lsn = w'.flushed_lsn)
    (hcalls : w'.calls = w.calls.set i (.append stage')) : Kept w w' := by
  refine ⟨hlog, hnext, hflushed.le, ?_⟩
  intro j u r hj
  rw [hcalls, getElem?_set_eq_ite hi]
  split
  · next hji =>
    cases hji
    cases hi.symm.trans hj
  · exact ⟨u, r, hj, Nat.min_le_left _ _⟩

theorem call (w : World) (c : Call) : Kept w { w with calls := w.calls ++ [c] } := by
  refine ⟨List.prefix_rfl, le_rfl, le_rfl, ?_⟩
  intro j u r hj
  have hlt := lt_of_getElem? hj
  exact ⟨u, r, (getElem?_append_left hlt).trans hj, Nat.min_le_left _ _⟩

theorem wake (w : World) : Kept w { w with calls := w.calls.map Call.wake } := by
  refine ⟨List.prefix_rfl, le_rfl, le_rfl, ?_⟩
  intro j u r hj
  dsimp only
  rw [getElem?_map, hj]
  cases r with
  | parked => exact ⟨u, _, rfl, Nat.min_le_left _ _⟩
  | _ => exact ⟨u, _, rfl, Nat.min_le_left _ _⟩

end Kept

section Steps

variable {o : SegmentWriter} {base : Nat} {w w' : World} {i target : Nat}

theorem kept_writeNext {lsn : Nat} {batch : Batch} {record : Bytes}
    {rest : List (Nat × Bytes)} {fault : Option WriteFault} {s : FlushStage}
    (hi : w.calls[i]? = some (.flush_up_to target s))
    (hstep : w.writeNext i target batch lsn record rest fault = some w') : Kept w w' := by
  unfold World.writeNext at hstep
  split at hstep
  all_goals cases hstep
  all_goals exact .flush hi rfl rfl le_rfl (Nat.min_le_left _ _) rfl

theorem kept_runAppend {stage : AppendStage} (hi : w.calls[i]? = some (.append stage))
    (hstep : w.runAppend i stage = some w') : Kept w w' := by
  cases appends_of_run hstep with
  | tooLarge | size | lock | refuse | overrun => exact .append hi List.prefix_rfl le_rfl rfl rfl
  | allocate => exact .append hi List.prefix_rfl (Nat.le_succ _) rfl rfl
  | push => exact .append hi (List.prefix_append _ _) le_rfl rfl rfl

/-- Only the leader of a flush that has succeeded moves `flushed_lsn`, and it moves it up. -/
theorem kept_runFlush {stage : FlushStage} (h : Good o base w)
    (hi : w.calls[i]? = some (.flush_up_to target stage))
    (hstep : w.runFlush i target stage = some w') : Kept w w' := by
  have hle : min target (w.next_lsn - 1) ≤ target := Nat.min_le_left _ _
  cases stage with
  | start =>
    cases hstep
    exact .flush hi rfl rfl le_rfl le_rfl rfl
  | writing batch records =>
    cases records with
    | nil =>
      cases hstep
      exact .flush hi rfl rfl le_rfl hle rfl
    | cons record rest => exact kept_writeNext hi hstep
  | publish_result batch flush_result =>
    cases flush_result with
    | ok _ =>
      obtain ⟨_, hbatch, _⟩ := h.calls i _ hi
      simp only [World.runFlush] at hstep
      split at hstep <;> cases hstep
      exact .flush hi rfl rfl hbatch.flushed_lt.le hle rfl
    | error e =>
      cases hstep
      exact .flush hi rfl rfl le_rfl hle rfl
  | notify again =>
    cases hstep
    have hi' : (w.calls.map Call.wake)[i]? = some (.flush_up_to target (.notify again)) := by
      rw [getElem?_map, hi]
      rfl
    exact (Kept.wake w).trans (Kept.flush hi' rfl rfl le_rfl hle rfl)
  | lock_state | locked | lock_gate | woken | active | lock_writer batch records
  | written batch flush_result | announce again =>
    simp only [World.runFlush] at hstep
    repeat' split at hstep
    all_goals cases hstep
    all_goals exact .flush hi rfl rfl le_rfl hle rfl
  | parked | ok | err e => cases hstep
  | fast | gated | gated_failed | gated_active | gated_wait | elected | found_empty | empty_active
  | publish batch flush_result | publish_active batch flush_result =>
    cases hstep
    exact .flush hi rfl rfl le_rfl hle rfl

theorem kept_step {e : Event} (h : Good o base w) (hstep : step w e = some w') : Kept w w' := by
  cases steps_of_step hstep with
  | append | flush_up_to => exact .call w _
  | runAppend hi hrun => exact kept_runAppend hi hrun
  | runFlush hi hrun => exact kept_runFlush h hi hrun
  | write_fault hi hrun => exact kept_writeNext hi hrun
  | sync_fault hi | spurious_wakeup hi =>
    exact .flush hi rfl rfl le_rfl (Nat.min_le_left _ _) rfl

end Steps

/-! ## Runs -/

/-- The synced bytes of the files hold what the open found and every record of the log through
this LSN. -/
def SyncedThrough (o : SegmentWriter) (base : Nat) (w : World) (lsn : Nat) : Prop :=
  ∃ m, lsn ≤ base + m ∧ m ≤ w.log.length ∧ SyncedTo o w.log m w.writer

/-- Every LSN that an `append` has returned is that of a record of the log. -/
theorem Good.appended {o : SegmentWriter} {base : Nat} {w : World} (h : Good o base w) {lsn : Nat}
    (hlsn : Call.append (.ok lsn) ∈ w.calls) : ∃ r ∈ w.log, r.lsn = lsn := by
  obtain ⟨j, hj⟩ := mem_iff_getElem?.mp hlsn
  obtain ⟨hlt, hle⟩ := h.calls j _ hj
  have hk : lsn - base - 1 < w.log.length := by omega
  refine ⟨w.log[lsn - base - 1], getElem_mem hk, ?_⟩
  rw [h.numbered _ _ (getElem?_eq_getElem hk)]
  omega

/-- A flush that returns `Ok` has synced every record through its LSN that was appended before the
call. In every state the files hold, behind what the open found, the first records of the log,
each once and in the order of the LSNs; `flushed_lsn` only grows, and every record through it is
synced. -/
theorem an_ok_flush_has_synced_its_records (buffer_capacity segment_size last_lsn : Nat)
    (segments : List Bytes) {p p' : List Event} {w w' : World}
    (hrun : Runs.run step (.opened buffer_capacity segment_size segments last_lsn) p = some w)
    (hrun' : Runs.run step w p' = some w') :
    (∀ lsn q target, p' = .flush_up_to lsn :: q →
      w'.calls[w.calls.length]? = some (.flush_up_to target .ok) →
      SyncedThrough (.open segment_size segments) last_lsn w'
        (min lsn (last_lsn + w.log.length))) ∧
    (∀ lsn, .append (.ok lsn) ∈ w'.calls → ∃ r ∈ w'.log, r.lsn = lsn) ∧
    (∀ (k : Nat) r, w'.log[k]? = some r → r.lsn = last_lsn + k + 1) ∧
    w.log <+: w'.log ∧ Traced (.open segment_size segments) w'.log w'.writer ∧
    w.flushed_lsn ≤ w'.flushed_lsn ∧
    SyncedThrough (.open segment_size segments) last_lsn w' w'.flushed_lsn := by
  have hstart := good_opened buffer_capacity segment_size last_lsn segments
  have hgood := Runs.inv_run (fun _ _ _ h hs => good_step h hs) hstart hrun
  have hgood' := Runs.inv_run (fun _ _ _ h hs => good_step h hs) hgood hrun'
  have hkept : Kept w w' := Runs.rel_run (fun _ _ _ h hs => good_step h hs) Kept.refl
    (fun _ _ _ => Kept.trans) (fun _ _ _ h hs => kept_step h hs) hgood hrun'
  refine ⟨?_, fun lsn => hgood'.appended, hgood'.numbered, hkept.log, hgood'.traced, hkept.flushed,
    hgood'.synced⟩
  rintro lsn q target rfl hok
  obtain ⟨w₁, hcall, hrest⟩ := Runs.run_cons.mp hrun'
  have hgood₁ := good_step hgood hcall
  have hkept₁ : Kept w₁ w' := Runs.rel_run (fun _ _ _ h hs => good_step h hs) Kept.refl
    (fun _ _ _ => Kept.trans) (fun _ _ _ h hs => kept_step h hs) hgood₁ hrest
  cases hcall
  -- the call has kept its LSN but for the clamp, and it returned behind the flush of that
  obtain ⟨target', stage, hj, htarget⟩ := hkept₁.targets w.calls.length lsn .start
    (List.getElem?_concat_length)
  cases hj.symm.trans hok
  have hflushed : target ≤ w'.flushed_lsn := (hgood'.calls _ _ hok).2
  have hnext := hgood.next
  obtain ⟨m, hm, hm', hsynced⟩ := hgood'.synced
  refine ⟨m, ?_, hm', hsynced⟩
  dsimp only at htarget
  omega

/-- One thread appends a commit record, and another one is elected and flushes it. -/
theorem a_lone_leader_syncs_the_record :
    ∃ w w', Runs.run step (.opened 64 64 [] 0) (.append (log_commit 5) :: List.replicate 4 (.run 0))
        = some w ∧
      Runs.run step w (.flush_up_to 1 :: List.replicate 16 (.run 1)) = some w' ∧
      w'.calls = [.append (.ok 1), .flush_up_to 1 .ok] ∧
      SyncedThrough (.open 64 []) 0 w' (min 1 (0 + w.log.length)) := by
  have hex : ∃ w, Runs.run step (.opened 64 64 [] 0)
      (.append (log_commit 5) :: List.replicate 4 (.run 0)) = some w ∧
      (Runs.run step w (.flush_up_to 1 :: List.replicate 16 (.run 1))).any fun w' =>
        decide (w.calls.length = 1 ∧ w'.calls = [.append (.ok 1), .flush_up_to 1 .ok]) :=
    Runs.exists_run (by decide +kernel)
  obtain ⟨w, hrun, hany⟩ := hex
  obtain ⟨w', hrun', hlen, hcalls⟩ := Runs.exists_run hany
  have hlaw := an_ok_flush_has_synced_its_records 64 64 0 [] hrun hrun'
  refine ⟨w, w', hrun, hrun', hcalls, hlaw.1 1 _ 1 rfl ?_⟩
  rw [hlen, hcalls]
  rfl

end FluxDB.WalThreads
