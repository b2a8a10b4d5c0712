-- The end of the log as a reopen finds it: a segment that was cut inside a record, how the
-- scan of `Wal::new` tells such a torn tail from corruption, and what it keeps. Cut anywhere
-- inside its last record, a log opens as the log of the records in front of the cut.
import FluxDB.CrashRecovery

namespace FluxDB

open Bytes List Except Option

/-! ## A read that is cut short -/

namespace WalReader

variable {α β : Type}

/-- Cut anywhere inside these bytes, the read runs into the end of the file. -/
def Torn (read : WalReader → Except WalError α) (bs hashed : Bytes) : Prop :=
  ∀ n < bs.length, read ⟨bs.take n, hashed⟩ = .error .UnexpectedEof

variable {bs hashed : Bytes}

theorem torn_nil {read : WalReader → Except WalError α} :
    Torn read [] hashed := fun _ hn => absurd hn (Nat.not_lt_zero _)

/-- Whatever is done with the result of a read, it does not help a torn one. -/
theorem Torn.bind {read : WalReader → Except WalError α}
    {next : WalReader → α → Except WalError β} (h : Torn read bs hashed) :
    Torn (fun r => read r >>= next r) bs hashed := by
  intro n hn
  dsimp only
  rw [h n hn]
  rfl

/-- The cut is inside the bytes of the first read, or inside those of the rest. -/
theorem Torn.andThen {read : WalReader → Except WalError (α × WalReader)}
    {next : α × WalReader → Except WalError β} {as h h' : Bytes} {a : α}
    (htorn : Torn read as h) (hread : ∀ rest, read ⟨as ++ rest, h⟩ = .ok (a, ⟨rest, h'⟩))
    (hnext : Torn (fun r => next (a, r)) bs h') : Torn (fun r => read r >>= next) (as ++ bs) h := by
  intro n hn
  by_cases hlt : n < as.length
  · rw [take_append_of_le_length hlt.le]
    dsimp only
    rw [htorn n hlt]
    rfl
  rw [length_append] at hn
  have htake : (as ++ bs).take n = as ++ bs.take (n - as.length) := by
    rw [take_append, take_of_length_le (by omega)]
  dsimp only
  rw [htake, hread]
  exact hnext _ (by omega)

theorem torn_read_exact {n : Nat} (h : bs.length = n) : Torn (read_exact · n) bs hashed := by
  intro k hk
  have hshort : readExact n (bs.take k) = none := by
    unfold readExact
    rw [if_neg]
    rw [length_take]
    omega
  unfold read_exact
  simp only [hshort]

theorem torn_read_then {n : Nat} {as : Bytes}
    {next : Bytes × WalReader → Except WalError β} (h : as.length = n)
    (hnext : Torn (fun r => next (as, r)) bs (hashed ++ as)) :
    Torn (fun r => read_exact r n >>= next) (as ++ bs) hashed :=
  (torn_read_exact h).andThen (fun _ => read_exact_append h) hnext

theorem torn_read_if_data {data : Option Bytes} {n : Nat} (h : n = dataLen data) :
    Torn (read_if · (0 < n) n) (data.getD []) hashed := by
  by_cases hpos : 0 < n
  · unfold read_if
    simp only [if_pos hpos]
    exact (torn_read_exact h.symm).bind
  have hnil : data.getD [] = [] := eq_nil_of_length_eq_zero (by unfold dataLen at h; omega)
  rw [hnil]
  exact torn_nil

theorem torn_read_if_image {b : Block} (hb : b.Fits) :
    Torn (read_if · (b.blk_flags &&& 1 = 1) PAGE_SIZE) (b.fpi.getD []) hashed := by
  cases hf : b.fpi with
  | none => exact torn_nil
  | some f =>
    have hflag : b.blk_flags &&& 1 = 1 := by
      rw [hb.flag, hf]
      rfl
    unfold read_if
    simp only [if_pos hflag, getD_some]
    exact (torn_read_exact (hb.image f hf)).bind

theorem torn_read_block {b : Block} (hb : b.Fits) : Torn read_block b.bytes hashed := by
  have hlen : leNat (leBytes 2 (dataLen b.data)) = dataLen b.data := leNat_leBytes_of_lt hb.data
  have hflags : UInt8.ofNat (leNat [b.blk_flags]) = b.blk_flags := by simp [leNat]
  unfold read_block Block.bytes
  simp only [append_assoc]
  refine torn_read_then (length_leBytes 8 _) ?_
  dsimp +instances only
  refine torn_read_then (length_singleton ..) ?_
  dsimp +instances only
  refine torn_read_then (length_leBytes 2 _) ?_
  simp only [hflags]
  dsimp +instances only
  refine (torn_read_if_image hb).andThen (fun _ => read_if_image hb) ?_
  dsimp only
  exact (torn_read_if_data hlen).bind

theorem torn_read_blocks {bs : List Block} (hbs : ∀ b ∈ bs, b.Fits) :
    Torn (read_blocks · bs.length) (bs.flatMap Block.bytes) hashed := by
  induction bs generalizing hashed with
  | nil => exact torn_nil
  | cons b bs ih =>
    simp only [length_cons, read_blocks, flatMap_cons]
    have hb := hbs b mem_cons_self
    refine (torn_read_block hb).andThen (fun _ => read_block_append hb) ?_
    dsimp only
    exact (ih fun b hb => hbs b (mem_cons_of_mem _ hb)).bind

theorem torn_read_checksum {lsn : Nat} (h : bs.length = 4) :
    Torn (read_checksum · lsn) bs hashed := by
  unfold read_checksum
  exact (torn_read_exact h).bind

/-- A record that is cut anywhere in front of its last byte reads as the end of the file. -/
theorem torn_read_record {e : Entry} (he : e.Fits) (lsn : Nat) :
    Torn read_record (e.bytes lsn) [] := by
  have hcount := he.leNat_count
  have hmain : leNat (leBytes 2 (dataLen e.main_data)) = dataLen e.main_data :=
    leNat_leBytes_of_lt he.main
  unfold read_record Entry.bytes Entry.body
  simp only [append_assoc]
  refine torn_read_then (length_leBytes 8 _) ?_
  dsimp +instances only
  refine torn_read_then (length_leBytes 4 _) ?_
  dsimp +instances only
  refine torn_read_then (length_singleton ..) ?_
  simp only [read_type_toByte, ok_bind]
  refine torn_read_then (length_singleton ..) ?_
  dsimp +instances only
  refine torn_read_then (length_leBytes 8 _) ?_
  dsimp +instances only
  refine torn_read_then (length_leBytes 2 _) ?_
  simp only [hcount]
  dsimp +instances only
  refine (torn_read_blocks he.blocks).andThen (fun _ => read_blocks_append he.blocks) ?_
  dsimp +instances only
  refine (torn_read_if_data hmain).andThen (fun _ => read_if_data hmain) ?_
  dsimp only
  exact (torn_read_checksum (length_leBytes 4 _)).bind

end WalReader

/-! ## Records of the log -/

instance (b : Block) : Decidable b.Fits :=
  decidable_of_iff ((b.blk_flags &&& 1 = 1 ↔ b.fpi.isSome) ∧
      (∀ f ∈ b.fpi, f.length = PAGE_SIZE) ∧ dataLen b.data < 65536)
    ⟨fun h => ⟨h.1, h.2.1, h.2.2⟩, fun h => ⟨h.flag, h.image, h.data⟩⟩

instance (e : Entry) : Decidable e.Fits :=
  decidable_of_iff (e.blocks.length < 256 ∧ (∀ b ∈ e.blocks, b.Fits) ∧ dataLen e.main_data < 65536)
    ⟨fun h => ⟨h.1, h.2.1, h.2.2⟩, fun h => ⟨h.count, h.blocks, h.main⟩⟩

/-- A record of the log: the LSN it was given and what was handed to `append`. -/
structure Logged where
  lsn : Nat
  entry : Entry
  deriving DecidableEq, Repr

namespace Logged

def bytes (r : Logged) : Bytes := r.entry.bytes r.lsn

/-- The record as the iterator returns it. -/
def record (r : Logged) : WalRecord := r.entry.record r.lsn

structure Fits (r : Logged) : Prop where
  entry : r.entry.Fits
  lsn : r.lsn < 2 ^ 64

theorem bytes_ne_nil (r : Logged) : r.bytes ≠ [] := Running.bytes_ne_nil _ _

theorem bytes_length_pos (r : Logged) : 0 < r.bytes.length := length_pos_iff.mpr r.bytes_ne_nil

end Logged

/-- The bytes of the records, one after the other. -/
def bytesOf (rs : List Logged) : Bytes := rs.flatMap Logged.bytes

@[simp] theorem bytesOf_nil : bytesOf [] = [] := rfl

@[simp] theorem bytesOf_cons (r : Logged) (rs : List Logged) :
    bytesOf (r :: rs) = r.bytes ++ bytesOf rs := rfl

@[simp] theorem bytesOf_append (rs rs' : List Logged) :
    bytesOf (rs ++ rs') = bytesOf rs ++ bytesOf rs' := flatMap_append

theorem length_le_length_bytesOf (rs : List Logged) : rs.length ≤ (bytesOf rs).length := by
  induction rs with
  | nil => exact le_rfl
  | cons r rs ih =>
    have := r.bytes_length_pos
    rw [bytesOf_cons, length_append, length_cons]
    omega

variable {rs : List Logged} {torn : Bytes}

/-- What is left of a record that was cut in front of its last byte, at the earliest in front
of its first. -/
def TornTail (torn : Bytes) : Prop :=
  ∃ r : Logged, r.Fits ∧ ∃ n < r.bytes.length, torn = r.bytes.take n

theorem fits_log_commit (t : UInt64) : (log_commit t).Fits where
  count := Nat.zero_lt_succ _
  blocks := fun _ h => absurd h not_mem_nil
  main := Nat.zero_lt_succ _

theorem fits_log_abort (t : UInt64) : (log_abort t).Fits where
  count := Nat.zero_lt_succ _
  blocks := fun _ h => absurd h not_mem_nil
  main := Nat.zero_lt_succ _

theorem tornTail_nil : TornTail [] :=
  ⟨⟨1, log_commit 0⟩, ⟨fits_log_commit 0, by decide⟩, 0, Logged.bytes_length_pos _, rfl⟩

theorem next_record_logged {r : Logged} (hr : r.Fits) (rest : Bytes) :
    next_record [r.bytes ++ rest] = some (.ok (r.record, [rest])) :=
  next_record_bytes hr.entry hr.lsn rest []

/-- A torn tail is the end of the log when nothing of the record is left, and a short read
otherwise. -/
theorem next_record_torn (h : TornTail torn) :
    next_record [torn] = if torn = [] then none else some (.error .UnexpectedEof) := by
  obtain ⟨r, hr, n, hn, rfl⟩ := h
  have hread := WalReader.torn_read_record hr.entry r.lsn n hn
  change WalReader.read_record ⟨r.bytes.take n, []⟩ = _ at hread
  unfold next_record
  cases ht : r.bytes.take n with
  | nil => rfl
  | cons b bs =>
    rw [ht] at hread
    rw [if_neg (cons_ne_nil b bs)]
    simp only [dropWhile_cons, isEmpty_cons, Bool.false_eq_true, if_false, hread]
    rfl

/-! ## Opening the log -/

inductive OpenError
  | wal (e : WalError)
  | outOfFuel
  deriving DecidableEq, Repr

/-- What the scan of the segments has found so far. -/
structure WalScan where
  next_lsn : Nat
  flushed_lsn : Option Nat
  deriving DecidableEq, Repr

namespace WalScan

def start : WalScan := ⟨1, none⟩

def see (s : WalScan) (record : WalRecord) : WalScan where
  next_lsn := if record.lsn ≥ s.next_lsn then record.lsn + 1 else s.next_lsn
  flushed_lsn := some record.lsn

end WalScan

/-- The reader behind the record at the front, its checksum read and not compared. -/
def WalReader.skip_record (r : WalReader) : Except WalError WalReader := do
  let (_, r) ← r.read_exact 8
  let (_, r) ← r.read_exact 4
  let (_, r) ← r.read_exact 1
  let (nblocks, r) ← r.read_exact 1
  let (_, r) ← r.read_exact 8
  let (main_len, r) ← r.read_exact 2
  let (_, r) ← r.read_blocks (leNat nblocks)
  let (_, r) ← r.read_if (0 < leNat main_len) (leNat main_len)
  let (_, r) ← r.read_exact 4
  .ok r

/-- How many of the unread bytes were read when `next_record` failed. An unknown type is found
right after its byte, a wrong checksum behind the record. -/
def err_pos (rest : Bytes) : WalError → Nat
  | .InvalidEntryType _ => 8 + 4 + 1
  | .ChecksumMismatch .. =>
    match (WalReader.mk rest []).skip_record with
    | .ok r => rest.length - r.rest.length
    | .error _ => rest.length
  | _ => rest.length

/-- The scan of one segment of `Wal::new`, which gives the bytes that it keeps. An error is a
torn tail if it is in the last segment and came with the end of the file. -/
def scan_segment (is_last : Bool) (segment : Bytes) :
    Nat → Bytes → WalScan → Except OpenError (WalScan × Bytes)
  | 0, _, _ => .error .outOfFuel
  | fuel + 1, rest, s =>
    match next_record [rest] with
    | none => .ok (s, segment)
    | some (.ok (record, unread)) => scan_segment is_last segment fuel unread.flatten (s.see record)
    | some (.error e) =>
      if is_last ∧ (e = .UnexpectedEof ∨ err_pos rest e = rest.length) then
        .ok (s, segment.take (segment.length - rest.length))
      else .error (.wal e)

/-- The scan over all segments. -/
def scan_segments : List Bytes → WalScan → Except OpenError (WalScan × List Bytes)
  | [], s => .ok (s, [])
  | segment :: rest, s => do
    let (s, kept) ← scan_segment rest.isEmpty segment (segment.length + 1) segment s
    let (s, segments) ← scan_segments rest s
    .ok (s, kept :: segments)

/-- The scan sees the whole records in front. -/
theorem scan_segment_append (is_last : Bool) (segment : Bytes) (hrs : ∀ r ∈ rs, r.Fits)
    (rest : Bytes) (fuel : Nat) (s : WalScan) :
    scan_segment is_last segment (rs.length + fuel) (bytesOf rs ++ rest) s =
      scan_segment is_last segment fuel rest (rs.foldl (fun s r => s.see r.record) s) := by
  induction rs generalizing s with
  | nil => rw [length_nil, Nat.zero_add, bytesOf_nil, nil_append, foldl_nil]
  | cons r rs ih =>
    rw [bytesOf_cons, append_assoc, length_cons, Nat.add_right_comm, scan_segment,
      next_record_logged (hrs r mem_cons_self)]
    simp only [flatten_singleton, foldl_cons]
    exact ih (fun r hr => hrs r (mem_cons_of_mem _ hr)) _

/-- The scan sees the whole records of a segment and cuts off what is torn behind them. -/
theorem scan_segment_ok (is_last : Bool) (segment : Bytes) (hrs : ∀ r ∈ rs, r.Fits)
    (htorn : TornTail torn) (hlast : torn = [] ∨ is_last = true) {fuel : Nat}
    (hfuel : rs.length < fuel) (s : WalScan) :
    scan_segment is_last segment fuel (bytesOf rs ++ torn) s =
      .ok (rs.foldl (fun s r => s.see r.record) s,
        segment.take (segment.length - torn.length)) := by
  obtain ⟨fuel, rfl⟩ : ∃ f, fuel = rs.length + (f + 1) := ⟨fuel - rs.length - 1, by omega⟩
  rw [scan_segment_append is_last segment hrs, scan_segment, next_record_torn htorn]
  by_cases hnil : torn = []
  · simp [hnil]
  · simp [hnil, hlast.resolve_left hnil]

/-- The scan goes through segments of whole records that are not the last one. -/
theorem scan_segments_append {groups : List (List Logged)}
    (hgroups : ∀ r ∈ groups.flatten, r.Fits) {segments : List Bytes} (hne : segments ≠ [])
    (s : WalScan) :
    scan_segments (groups.map bytesOf ++ segments) s =
      (scan_segments segments (groups.flatten.foldl (fun s r => s.see r.record) s)).map
        fun x => (x.1, groups.map bytesOf ++ x.2) := by
  induction groups generalizing s with
  | nil =>
    rw [map_nil, nil_append, flatten_nil, foldl_nil]
    cases scan_segments segments s <;> rfl
  | cons g groups ih =>
    have hg : ∀ r ∈ g, r.Fits := fun r hr => hgroups r (mem_append_left _ hr)
    have hrest : (groups.map bytesOf ++ segments).isEmpty = false := by simp [hne]
    have hscan : scan_segment false (bytesOf g) ((bytesOf g).length + 1) (bytesOf g) s =
        .ok (g.foldl (fun s r => s.see r.record) s, bytesOf g) := by
      have hall := scan_segment_ok false (bytesOf g) hg tornTail_nil (.inl rfl)
        (Nat.lt_succ_of_le (length_le_length_bytesOf g)) s
      rw [append_nil] at hall
      rw [hall, length_nil, Nat.sub_zero, take_length]
    simp only [map_cons, cons_append, scan_segments, hrest, hscan, ok_bind]
    rw [ih fun r hr => hgroups r (mem_append_right _ hr), flatten_cons, foldl_append]
    cases scan_segments segments _ <;> rfl

/-- A log that was cut inside its last record opens as the log of its whole records. -/
theorem scan_segments_ok {groups : List (List Logged)} {last : List Logged}
    (hgroups : ∀ r ∈ groups.flatten, r.Fits) (hlast : ∀ r ∈ last, r.Fits) (htorn : TornTail torn)
    {s : WalScan} :
    scan_segments (groups.map bytesOf ++ [bytesOf last ++ torn]) s =
      .ok ((groups.flatten ++ last).foldl (fun s r => s.see r.record) s,
        groups.map bytesOf ++ [bytesOf last]) := by
  have hlen : (bytesOf last ++ torn).length - torn.length = (bytesOf last).length := by simp
  have hfuel : last.length < (bytesOf last ++ torn).length + 1 := by
    have := length_le_length_bytesOf last
    rw [length_append]
    omega
  rw [scan_segments_append hgroups (cons_ne_nil _ _), foldl_append]
  simp only [scan_segments, isEmpty_nil, scan_segment_ok true _ hlast htorn (.inr rfl) hfuel,
    ok_bind, hlen, take_left]
  rfl

end FluxDB
