-- The buffer of the log: a ring of bytes into which appended records are copied and from which
-- a group flush copies and then takes them. The records that were pushed and not yet taken are
-- the ones that a copy finds, byte for byte, wherever the ring has gone around its end.
import FluxDB.Lib.Ring
import FluxDB.SegmentFiles

namespace FluxDB

open List Option

theorem Entry.length_bytes (e : Entry) (lsn : Nat) : (e.bytes lsn).length = e.record_size := by
  unfold Entry.bytes Entry.body Entry.record_size dataLen
  simp only [length_append, Bytes.length_leBytes, length_singleton, length_flatMap]

/-- A record that waits in the ring. -/
structure BufferedRecord where
  lsn : Nat
  len : Nat
  deriving DecidableEq, Repr

structure WalBuffer where
  bytes : Bytes
  read_pos : Nat
  write_pos : Nat
  records : List BufferedRecord
  deriving DecidableEq, Repr

namespace WalBuffer

def with_capacity (capacity : Nat) : WalBuffer := ⟨List.replicate capacity 0, 0, 0, []⟩

variable (b : WalBuffer)

def capacity : Nat := b.bytes.length

def is_empty : Bool := b.records.isEmpty

def used_space : Nat :=
  if b.is_empty then 0
  else if b.write_pos = b.read_pos then b.capacity
  else if b.write_pos > b.read_pos then b.write_pos - b.read_pos
  else b.capacity - b.read_pos + b.write_pos

def free_space : Nat := b.capacity - b.used_space

def copy_into_ring (record : Bytes) : WalBuffer := { b with
  bytes := Ring.write b.bytes b.write_pos record
  write_pos := (b.write_pos + record.length) % b.capacity }

def push_record (lsn : Nat) (record : Bytes) : Except FlushError WalBuffer :=
  if record.length > b.capacity then .error (.RecordTooLarge lsn record.length b.capacity)
  else if record.length > b.free_space then .error (.BufferFull record.length b.free_space)
  else
    let b := b.copy_into_ring record
    .ok { b with records := b.records ++ [⟨lsn, record.length⟩] }

/-- The bytes of all records together and the LSN of the last one. -/
def buffered_prefix_len : Option (Nat × Nat) :=
  b.records.foldl (fun found record => some ((found.elim 0 Prod.fst) + record.len, record.lsn)) none

/-- The loop of `copy_records` behind the records in front. -/
def copy_from (bytes : Bytes) : Nat → List BufferedRecord → List (Nat × Bytes)
  | _, [] => []
  | cursor, record :: rest =>
    let (copied, cursor) := Ring.read bytes cursor record.len
    (record.lsn, copied) :: copy_from bytes cursor rest

def copy_records : List (Nat × Bytes) := copy_from b.bytes b.read_pos b.records

/-- Whole records are taken from the front until that many bytes are gone. Without a record to
take, or with a last one that is longer, the source panics. -/
def take_records : Nat → List BufferedRecord → Option (List BufferedRecord)
  | 0, records => some records
  | _ + 1, [] => none
  | remaining + 1, record :: records =>
    if record.len ≤ remaining + 1 then take_records (remaining + 1 - record.len) records else none

def consume_prefix (bytes_to_consume : Nat) : Option WalBuffer := do
  let records ← take_records bytes_to_consume b.records
  let read_pos := (b.read_pos + bytes_to_consume) % b.capacity
  if records.isEmpty then some { b with records, read_pos := 0, write_pos := 0 }
  else some { b with records, read_pos }

/-! ## The records in the ring -/

section Queued

variable {α : Type} (lsn : α → Nat) (bytes : α → Bytes)

/-- The entry of the queue for a record. -/
def entryOf (r : α) : BufferedRecord := ⟨lsn r, (bytes r).length⟩

/-- The records that wait in the ring, in the order in which they were pushed. -/
structure Queued (b : WalBuffer) (rs : List α) : Prop where
  records : b.records = rs.map (entryOf lsn bytes)
  filled : ∀ r ∈ rs, 0 < (bytes r).length
  holds : Ring.Holds b.bytes b.read_pos (rs.flatMap bytes)
  fits : (rs.flatMap bytes).length ≤ b.capacity
  read_lt : rs ≠ [] → b.read_pos < b.capacity
  empty : rs = [] → b.read_pos = 0
  write : b.write_pos = (b.read_pos + (rs.flatMap bytes).length) % b.capacity

variable {lsn bytes} {b} {rs rs' : List α}

theorem queued_with_capacity (capacity : Nat) : Queued lsn bytes (with_capacity capacity) [] where
  records := rfl
  filled := nofun
  holds := Ring.holds_nil
  fits := Nat.zero_le _
  read_lt := nofun
  empty _ := rfl
  write := (Nat.zero_mod _).symm

namespace Queued

section

variable (h : Queued lsn bytes b rs)

include h

theorem is_empty : b.is_empty = true ↔ rs = [] := by
  unfold WalBuffer.is_empty
  rw [h.records, List.isEmpty_iff, map_eq_nil_iff]

/-- The ring knows how full it is, although it is as full as empty when the two positions
meet. -/
theorem used_space : b.used_space = (rs.flatMap bytes).length := by
  unfold WalBuffer.used_space
  split
  · next hempty =>
    rw [h.is_empty.mp hempty]
    rfl
  rename_i hempty
  have hne : rs ≠ [] := fun hnil => hempty (h.is_empty.mpr hnil)
  have hpos : 0 < (rs.flatMap bytes).length := by
    obtain ⟨r, rs, rfl⟩ := exists_cons_of_ne_nil hne
    have hr := h.filled r mem_cons_self
    rw [flatMap_cons, length_append]
    omega
  have hread := h.read_lt hne
  have hfits := h.fits
  have hwrite : b.write_pos = if b.read_pos + (rs.flatMap bytes).length < b.capacity then
      b.read_pos + (rs.flatMap bytes).length
      else b.read_pos + (rs.flatMap bytes).length - b.capacity := by
    rw [h.write]
    split
    · next hlt => exact Nat.mod_eq_of_lt hlt
    · next hge => rw [Nat.mod_eq_sub_mod (by omega), Nat.mod_eq_of_lt (by omega)]
  split at hwrite
  · rw [if_neg (by omega), if_pos (by omega)]
    omega
  split
  · omega
  rw [if_neg (by omega)]
  omega

theorem free_space : b.free_space = b.capacity - (rs.flatMap bytes).length := by
  unfold WalBuffer.free_space
  rw [h.used_space]

/-- A record for which there is room is pushed behind the others. -/
theorem push_record {r : α} (hpos : 0 < (bytes r).length)
    (hroom : (bytes r).length ≤ b.free_space) :
    ∃ b', b.push_record (lsn r) (bytes r) = .ok b' ∧ b'.capacity = b.capacity ∧ Queued lsn bytes b'
      (rs ++ [r]) := by
  have hfree := h.free_space
  have hfits := h.fits
  have hread : b.read_pos < b.capacity := by
    by_cases hnil : rs = []
    · rw [h.empty hnil]
      omega
    · exact h.read_lt hnil
  have hwrite : b.write_pos < b.bytes.length := by
    rw [h.write]
    exact Nat.mod_lt _ (by omega)
  have hlen : (bytes r).length ≤ b.capacity := by omega
  have hcapacity : (Ring.write b.bytes b.write_pos (bytes r)).length = b.capacity :=
    Ring.length_write hwrite hlen
  have hbytes : (rs ++ [r]).flatMap bytes = rs.flatMap bytes ++ bytes r := by simp
  refine ⟨{ b.copy_into_ring (bytes r) with
    records := (b.copy_into_ring (bytes r)).records ++ [entryOf lsn bytes r] }, ?_, hcapacity, ?_⟩
  · unfold WalBuffer.push_record
    rw [if_neg (Nat.not_lt.mpr hlen), if_neg (Nat.not_lt.mpr hroom)]
    rfl
  constructor
  · rw [map_append, ← h.records]
    rfl
  · simpa [or_imp, forall_and] using ⟨h.filled, hpos⟩
  · rw [hbytes]
    have hroom : (rs.flatMap bytes).length + (bytes r).length ≤ b.bytes.length := by
      unfold capacity at *
      omega
    unfold copy_into_ring
    rw [h.write]
    exact h.holds.write hread hroom
  · rw [hbytes, length_append]
    change _ ≤ (Ring.write b.bytes b.write_pos (bytes r)).length
    omega
  · intro _
    change b.read_pos < (Ring.write b.bytes b.write_pos (bytes r)).length
    rwa [hcapacity]
  · intro hnil
    exact absurd hnil (by simp)
  change (b.write_pos + (bytes r).length) % b.capacity =
    (b.read_pos + ((rs ++ [r]).flatMap bytes).length) %
      (Ring.write b.bytes b.write_pos (bytes r)).length
  rw [hcapacity, h.write, hbytes, length_append, Nat.mod_add_mod, Nat.add_assoc]

theorem buffered_prefix_len :
    b.buffered_prefix_len = rs.getLast?.map fun r => ((rs.flatMap bytes).length, lsn r) := by
  unfold WalBuffer.buffered_prefix_len
  rw [h.records]
  clear h
  -- the loop has seen the records in front of the last one
  induction rs using List.reverseRecOn with
  | nil => rfl
  | append_singleton rs r ih =>
    rw [map_append, foldl_append, ih, getLast?_concat, flatMap_append, length_append]
    cases hlast : rs.getLast? with
    | none =>
      rw [getLast?_eq_none_iff.mp hlast]
      simp [entryOf]
    | some last => simp [entryOf]

end

theorem copy_from_eq {cells : Bytes} {cursor : Nat}
    (h : Ring.Holds cells cursor (rs.flatMap bytes))
    (hcursor : rs ≠ [] → cursor < cells.length) :
    copy_from cells cursor (rs.map (entryOf lsn bytes)) = rs.map fun r => (lsn r, bytes r) := by
  induction rs generalizing cursor with
  | nil => rfl
  | cons r rs ih =>
    rw [flatMap_cons, Ring.holds_append] at h
    have hlt := hcursor (cons_ne_nil _ _)
    have hread : Ring.read cells cursor (entryOf lsn bytes r).len = _ := Ring.read_eq h.1 hlt
    rw [map_cons, map_cons, copy_from, hread]
    dsimp only
    rw [ih h.2 fun _ => Nat.mod_lt _ (by omega)]
    rfl

/-- A copy has every record of the ring, with its bytes. -/
theorem copy_records (h : Queued lsn bytes b rs) :
    b.copy_records = rs.map fun r => (lsn r, bytes r) := by
  unfold WalBuffer.copy_records
  rw [h.records]
  exact copy_from_eq h.holds h.read_lt

theorem take_records_append (hfilled : ∀ r ∈ rs, 0 < (bytes r).length) (rs' : List α) :
    take_records (rs.flatMap bytes).length ((rs ++ rs').map (entryOf lsn bytes)) =
      some (rs'.map (entryOf lsn bytes)) := by
  induction rs with
  | nil => rw [flatMap_nil, length_nil, take_records, nil_append]
  | cons r rs ih =>
    obtain ⟨n, hn⟩ := Nat.exists_eq_succ_of_ne_zero (hfilled r mem_cons_self).ne'
    have hlen : ((r :: rs).flatMap bytes).length = n + (rs.flatMap bytes).length + 1 := by
      rw [flatMap_cons, length_append]
      omega
    rw [hlen, cons_append, map_cons, take_records]
    unfold entryOf
    dsimp only
    have hleft : n + (rs.flatMap bytes).length + 1 - (bytes r).length =
        (rs.flatMap bytes).length := by omega
    rw [if_pos (by omega), hleft]
    exact ih fun r' hr' => hfilled r' (mem_cons_of_mem _ hr')

/-- Taking the bytes of the records in front leaves the others. -/
theorem consume_prefix (h : Queued lsn bytes b (rs ++ rs')) :
    ∃ b', b.consume_prefix (rs.flatMap bytes).length = some b' ∧ b'.capacity = b.capacity ∧
      Queued lsn bytes b' rs' := by
  have hfilled := h.filled
  simp only [mem_append, or_imp, forall_and] at hfilled
  have hholds := h.holds
  have hfits := h.fits
  have hwrite := h.write
  rw [flatMap_append, Ring.holds_append] at hholds
  rw [flatMap_append, length_append] at hfits hwrite
  unfold WalBuffer.consume_prefix
  rw [h.records, take_records_append hfilled.1]
  by_cases hnil : rs' = []
  · subst hnil
    refine ⟨_, rfl, rfl, rfl, nofun, Ring.holds_nil, Nat.zero_le _, nofun, fun _ => rfl, ?_⟩
    exact (Nat.zero_mod _).symm
  have hmap : (rs'.map (entryOf lsn bytes)).isEmpty = false := by
    rw [Bool.eq_false_iff]
    intro hempty
    exact hnil (map_eq_nil_iff.mp (List.isEmpty_iff.mp hempty))
  refine ⟨{ b with
    records := rs'.map (entryOf lsn bytes)
    read_pos := (b.read_pos + (rs.flatMap bytes).length) % b.capacity }, ?_, rfl, rfl,
    hfilled.2, hholds.2, ?_, fun _ => ?_, fun hnil' => absurd hnil' hnil, ?_⟩
  · rw [bind_eq_bind, bind_some, hmap]
    rfl
  · change (rs'.flatMap bytes).length ≤ b.capacity
    omega
  · have hread := h.read_lt (append_ne_nil_of_right_ne_nil rs hnil)
    exact Nat.mod_lt _ (by omega)
  change b.write_pos =
    ((b.read_pos + (rs.flatMap bytes).length) % b.capacity + (rs'.flatMap bytes).length) %
      b.capacity
  rw [hwrite, Nat.mod_add_mod, Nat.add_assoc]

end Queued

end Queued

/-- The logged records that wait in the ring. -/
abbrev Represents (b : WalBuffer) (rs : List Logged) : Prop := Queued Logged.lsn Logged.bytes b rs

/-! ## The buffer as a queue -/

/-- A call on the buffer. -/
inductive BufferCall where
  | push_record (lsn : Nat) (record : Bytes)
  | copy_records
  | consume_prefix (bytes_to_consume : Nat)

/-- The buffer behind a call. A record that is refused changes nothing. -/
def step (b : WalBuffer) : BufferCall → Option WalBuffer
  | .push_record lsn record => some ((b.push_record lsn record).toOption.getD b)
  | .copy_records => some b
  | BufferCall.consume_prefix bytes_to_consume => b.consume_prefix bytes_to_consume

/-- What the buffer is for: a queue of records with `capacity` bytes in all. The calls that are
allowed push a record that has bytes and consume whole records. -/
def queueStep (capacity : Nat) (q : List (Nat × Bytes)) :
    BufferCall → Option (List (Nat × Bytes))
  | .push_record lsn record =>
    if record = [] then none
    else if (q.flatMap Prod.snd).length + record.length ≤ capacity then some (q ++ [(lsn, record)])
    else some q
  | .copy_records => some q
  | BufferCall.consume_prefix bytes_to_consume =>
    ((List.range (q.length + 1)).find? fun n =>
      ((q.take n).flatMap Prod.snd).length = bytes_to_consume).map q.drop

theorem push_record_fails (b : WalBuffer) (lsn : Nat) (record : Bytes) :
    (∃ e, b.push_record lsn record = .error e) ↔ b.free_space < record.length := by
  have hle : b.free_space ≤ b.capacity := Nat.sub_le _ _
  unfold push_record
  split
  · next hlarge => exact ⟨fun _ => hle.trans_lt hlarge, fun _ => ⟨_, rfl⟩⟩
  split
  · next hfull => exact ⟨fun _ => hfull, fun _ => ⟨_, rfl⟩⟩
  · next hroom => exact ⟨nofun, fun hfull => absurd hfull hroom⟩

/-- Every allowed call on the queue is a call on the buffer that holds it. -/
theorem step_of_queueStep (capacity : Nat) (b : WalBuffer) (q : List (Nat × Bytes))
    (call : BufferCall) (q' : List (Nat × Bytes))
    (h : Queued Prod.fst Prod.snd b q ∧ b.capacity = capacity)
    (hstep : queueStep capacity q call = some q') :
    ∃ b', b.step call = some b' ∧ Queued Prod.fst Prod.snd b' q' ∧ b'.capacity = capacity := by
  obtain ⟨h, rfl⟩ := h
  have hfree := h.free_space
  have hfits := h.fits
  cases call with
  | push_record lsn record =>
    simp only [queueStep] at hstep
    split at hstep
    · cases hstep
    rename_i hne
    split at hstep <;> cases hstep
    · next hroom =>
      obtain ⟨b', hpush, hcapacity, hqueued⟩ :=
        h.push_record (r := (lsn, record)) (length_pos_iff.mpr hne) (by dsimp only; omega)
      refine ⟨b', ?_, hqueued, hcapacity⟩
      unfold step
      dsimp only at hpush ⊢
      rw [hpush]
      rfl
    rename_i hfull
    obtain ⟨e, he⟩ := (b.push_record_fails lsn record).mpr (by omega)
    refine ⟨b, ?_, h, rfl⟩
    unfold step
    dsimp only
    rw [he]
    rfl
  | copy_records =>
    cases hstep
    exact ⟨b, rfl, h, rfl⟩
  | consume_prefix bytes_to_consume =>
    obtain ⟨n, hn, rfl⟩ := map_eq_some_iff.mp hstep
    have htotal := find?_some hn
    rw [decide_eq_true_eq] at htotal
    rw [← take_append_drop n q] at h
    obtain ⟨b', hconsume, hcapacity, hqueued⟩ := h.consume_prefix
    rw [htotal] at hconsume
    exact ⟨b', hconsume, hqueued, hcapacity⟩

/-- The ring is a queue: behind any allowed calls a copy finds what was pushed and not yet
consumed, the buffer knows how long that is and how much room is left, and it refuses exactly
the records that are longer. -/
theorem buffer_is_a_queue {capacity : Nat} {calls : List BufferCall} {q : List (Nat × Bytes)}
    (h : Runs.run (queueStep capacity) [] calls = some q) :
    ∃ b, Runs.run step (with_capacity capacity) calls = some b ∧ b.copy_records = q ∧
      b.buffered_prefix_len = q.getLast?.map (fun r => ((q.flatMap Prod.snd).length, r.1)) ∧
      b.free_space + (q.flatMap Prod.snd).length = capacity ∧
      ∀ lsn record, (∃ e, b.push_record lsn record = .error e) ↔ b.free_space < record.length := by
  obtain ⟨b, hrun, hb, rfl⟩ := Runs.simulates
    (R := fun b q => Queued Prod.fst Prod.snd b q ∧ b.capacity = capacity)
    (step_of_queueStep capacity) ⟨queued_with_capacity capacity, List.length_replicate⟩ h
  refine ⟨b, hrun, ?_, hb.buffered_prefix_len, ?_, b.push_record_fails⟩
  · rw [hb.copy_records]
    exact List.map_id _
  · rw [hb.free_space]
    exact Nat.sub_add_cancel hb.fits

/-- The third record does not fit, and the last one goes around the end of the ring. -/
theorem a_buffer_of_five_bytes_is_a_queue :
    ∃ b, Runs.run step (with_capacity 5) [.push_record 1 [1, 2, 3], .push_record 2 [4, 5],
        .push_record 3 [6], BufferCall.consume_prefix 3, .push_record 4 [7, 8]] = some b ∧
      b.copy_records = [(2, [4, 5]), (4, [7, 8])] := by
  have h : Runs.run (queueStep 5) [] [.push_record 1 [1, 2, 3], .push_record 2 [4, 5],
      .push_record 3 [6], BufferCall.consume_prefix 3, .push_record 4 [7, 8]] =
      some [(2, [4, 5]), (4, [7, 8])] := by decide
  obtain ⟨b, hrun, hcopy, -⟩ := buffer_is_a_queue h
  exact ⟨b, hrun, hcopy⟩

end WalBuffer

end FluxDB
