-- Damage inside the log. The reader believes the lengths that a record names before it compares
-- the checksum, so a damaged record takes as many bytes as its own fields say. `Wal::new` reports
-- the damage exactly if the record is in an earlier segment, if its type is unknown, or if its
-- fields end it in front of the end of the file; it cuts the log off there otherwise.
import FluxDB.ReopenedLog

namespace FluxDB

open Bytes List Except WalReader

/-! ## How far the fields of a record reach -/

/-- The number in the `n` bytes at the place `i`. -/
def field (bs : Bytes) (i n : Nat) : Nat := leNat ((bs.drop i).take n)

/-- The bytes that the block at the front takes by its flags and its length. -/
def blockExtent (bs : Bytes) : Nat :=
  8 + 1 + 2 + (if UInt8.ofNat (field bs 8 1) &&& 1 = 1 then PAGE_SIZE else 0) + field bs 9 2

def blocksExtent : Nat → Bytes → Nat
  | 0, _ => 0
  | n + 1, bs => blockExtent bs + blocksExtent n (bs.drop (blockExtent bs))

/-- The bytes that the record at the front takes by its own fields. -/
def extent (bs : Bytes) : Nat :=
  8 + 4 + 1 + 1 + 8 + 2 + blocksExtent (field bs 13 1) (bs.drop 24) + field bs 22 2 + 4

/-- The type of the record at the front, if it is a known one. -/
def typeAt (bs : Bytes) : Option WalRecordType :=
  WalRecordType.try_from (UInt8.ofNat (field bs 12 1))

variable {bs : Bytes} {e : WalError}

namespace WalReader

variable {α β : Type}

/-- The read takes `ext` bytes and gives `val`, or it runs into the end of the file. -/
def Spans (read : WalReader → Except WalError (α × WalReader)) (ext : Bytes → Nat)
    (val : Bytes → α) : Prop :=
  ∀ bs hashed, read ⟨bs, hashed⟩ =
    if ext bs ≤ bs.length then .ok (val bs, ⟨bs.drop (ext bs), hashed ++ bs.take (ext bs)⟩)
    else .error .UnexpectedEof

theorem read_exact_eq (bs hashed : Bytes) (n : Nat) : read_exact ⟨bs, hashed⟩ n =
    if n ≤ bs.length then .ok (bs.take n, ⟨bs.drop n, hashed ++ bs.take n⟩)
    else .error .UnexpectedEof := by
  unfold read_exact readExact
  dsimp only
  by_cases h : n ≤ bs.length
  · rw [if_pos h, if_pos h]
  · rw [if_neg h, if_neg h]

theorem spans_read_exact (n : Nat) : Spans (read_exact · n) (fun _ => n) (·.take n) :=
  fun bs hashed => read_exact_eq bs hashed n

theorem spans_pure (a : α) : Spans (fun r => .ok (a, r)) (fun _ => 0) (fun _ => a) := by
  intro bs hashed
  simp

variable {ext : Bytes → Nat} {read : WalReader → Except WalError (α × WalReader)}
  {val : Bytes → α} {ext' : α → Bytes → Nat}

/-- What the second read takes depends on what the first one has read. -/
theorem Spans.bind {next : α × WalReader → Except WalError (β × WalReader)}
    {val' : α → Bytes → β} (h : Spans read ext val)
    (hnext : ∀ a, Spans (fun r => next (a, r)) (ext' a) (val' a)) :
    Spans (fun r => read r >>= next) (fun bs => ext bs + ext' (val bs) (bs.drop (ext bs)))
      fun bs => val' (val bs) (bs.drop (ext bs)) := by
  intro bs hashed
  have hlen : (bs.drop (ext bs)).length = bs.length - ext bs := length_drop
  dsimp only
  rw [h bs hashed]
  by_cases hle : ext bs ≤ bs.length
  · rw [if_pos hle, ok_bind]
    refine (hnext (val bs) _ _).trans ?_
    by_cases hle' : ext' (val bs) (bs.drop (ext bs)) ≤ (bs.drop (ext bs)).length
    · rw [if_pos hle', if_pos (by omega), drop_drop, append_assoc, ← take_add]
    · rw [if_neg hle', if_neg (by omega)]
  rw [if_neg hle, if_neg (by omega)]
  rfl

/-- The same number of bytes, put in another way. -/
theorem of_extent_eq (P : (Bytes → Nat) → Prop) {ext' : Bytes → Nat} (h : P ext)
    (hext : ∀ bs, ext bs = ext' bs) : P ext' := by
  have heq : ext = ext' := funext hext
  rwa [← heq]

theorem spans_read_if (present : Prop) [Decidable present] (n : Nat) :
    Spans (read_if · present n) (fun _ => if present then n else 0)
      fun bs => if present then some (bs.take n) else none := by
  intro bs hashed
  unfold read_if
  by_cases h : present
  · simp only [if_pos h]
    refine ((spans_read_exact n).bind (fun a => spans_pure (some a)) bs hashed).trans ?_
    simp
  simp only [if_neg h]
  simp

theorem ite_pos_self (n : Nat) : (if 0 < n then n else 0) = n := by
  split <;> omega

theorem spans_read_block : ∃ val, Spans read_block blockExtent val := by
  refine ⟨_, of_extent_eq (Spans _ · _) ((spans_read_exact 8).bind fun page_id =>
    (spans_read_exact 1).bind fun blk_flags => (spans_read_exact 2).bind fun data_len =>
    (spans_read_if _ _).bind fun fpi => (spans_read_if _ _).bind fun data => spans_pure _) ?_⟩
  intro bs
  unfold blockExtent field
  simp only [drop_drop, Nat.reduceAdd, ite_pos_self]
  omega

theorem spans_read_blocks (n : Nat) : ∃ val, Spans (read_blocks · n) (blocksExtent n) val := by
  induction n with
  | zero => exact ⟨_, spans_pure []⟩
  | succ n ih =>
    obtain ⟨block, hblock⟩ := spans_read_block
    obtain ⟨blocks, hblocks⟩ := ih
    exact ⟨_, of_extent_eq (Spans _ · _)
      (hblock.bind fun b => hblocks.bind fun bs => spans_pure _) fun _ => rfl⟩

/-- The read takes `ext` bytes, and nothing but the checksum can fail if they are there. -/
structure Reaches (read : WalReader → Except WalError α) (ext : Bytes → Nat) : Prop where
  short : ∀ bs hashed, bs.length < ext bs → read ⟨bs, hashed⟩ = .error .UnexpectedEof
  long : ∀ bs hashed, ext bs ≤ bs.length → (∃ x, read ⟨bs, hashed⟩ = .ok x) ∨
    ∃ lsn expected actual, read ⟨bs, hashed⟩ = .error (.ChecksumMismatch lsn expected actual)

theorem Spans.reaches {next : α × WalReader → Except WalError β} (h : Spans read ext val)
    (hnext : ∀ a, Reaches (fun r => next (a, r)) (ext' a)) :
    Reaches (fun r => read r >>= next) fun bs => ext bs + ext' (val bs) (bs.drop (ext bs)) := by
  have hlen : ∀ bs : Bytes, (bs.drop (ext bs)).length = bs.length - ext bs :=
    fun _ => length_drop
  refine ⟨fun bs hashed hlt => ?_, fun bs hashed hle => ?_⟩
  · rw [h bs hashed]
    by_cases hle : ext bs ≤ bs.length
    · rw [if_pos hle, ok_bind]
      exact (hnext (val bs)).short _ _ (by rw [hlen]; omega)
    rw [if_neg hle]
    rfl
  rw [h bs hashed, if_pos (by omega), ok_bind]
  exact (hnext (val bs)).long _ _ (by rw [hlen]; omega)

theorem reaches_read_checksum (lsn : Nat) (f : WalReader → α) :
    Reaches (fun r => read_checksum r lsn >>= fun r => .ok (f r)) fun _ => 4 := by
  refine ⟨fun bs hashed hlt => ?_, fun bs hashed hle => ?_⟩
  · unfold read_checksum
    rw [read_exact_eq, if_neg (by omega)]
    rfl
  unfold read_checksum
  rw [read_exact_eq, if_pos hle, ok_bind]
  dsimp only
  split
  · exact .inr ⟨_, _, _, rfl⟩
  · exact .inl ⟨_, rfl⟩

/-- What is read behind the type byte. -/
def read_behind_type (lsn rec_len : Bytes) (entry_type : WalRecordType) (r : WalReader) :
    Except WalError (WalRecord × WalReader) := do
  let (nblocks, r) ← r.read_exact 1
  let (txn_id, r) ← r.read_exact 8
  let (main_len, r) ← r.read_exact 2
  let (blocks, r) ← r.read_blocks (leNat nblocks)
  let (main_data, r) ← r.read_if (0 < leNat main_len) (leNat main_len)
  let r ← r.read_checksum (leNat lsn)
  .ok (⟨⟨entry_type, UInt64.ofNat (leNat txn_id), blocks, main_data⟩, leNat lsn, leNat rec_len⟩, r)

theorem reaches_behind_type (lsn rec_len : Bytes) (entry_type : WalRecordType) :
    Reaches (read_behind_type lsn rec_len entry_type) fun bs =>
      1 + 8 + 2 + blocksExtent (field bs 0 1) (bs.drop 11) + field bs 9 2 + 4 := by
  refine of_extent_eq (Reaches _) ((spans_read_exact 1).reaches fun nblocks =>
    (spans_read_exact 8).reaches fun txn_id => (spans_read_exact 2).reaches fun main_len =>
    (spans_read_blocks _).choose_spec.reaches fun blocks => (spans_read_if _ _).reaches
    fun main_data => reaches_read_checksum _ _) ?_
  intro bs
  unfold field
  simp only [drop_drop, Nat.reduceAdd, ite_pos_self, drop_zero]
  omega

/-- Without the checksum the read goes as far as the fields say. -/
def Skips (read : WalReader → Except WalError WalReader) (ext : Bytes → Nat) : Prop :=
  ∀ bs hashed, ext bs ≤ bs.length → ∃ hashed', read ⟨bs, hashed⟩ = .ok ⟨bs.drop (ext bs), hashed'⟩

theorem Spans.skips {next : α × WalReader → Except WalError WalReader} (h : Spans read ext val)
    (hnext : ∀ a, Skips (fun r => next (a, r)) (ext' a)) :
    Skips (fun r => read r >>= next) fun bs => ext bs + ext' (val bs) (bs.drop (ext bs)) := by
  intro bs hashed hle
  have hlen : (bs.drop (ext bs)).length = bs.length - ext bs := length_drop
  dsimp only at hle ⊢
  rw [h bs hashed, if_pos (by omega), ok_bind, ← drop_drop]
  exact hnext (val bs) _ _ (by rw [hlen]; omega)

theorem skips_skip_record : Skips skip_record extent := by
  refine of_extent_eq (Skips _) ((spans_read_exact 8).skips fun lsn => (spans_read_exact 4).skips
    fun rec_len => (spans_read_exact 1).skips fun type_buf => (spans_read_exact 1).skips
    fun nblocks => (spans_read_exact 8).skips fun txn_id => (spans_read_exact 2).skips
    fun main_len => (spans_read_blocks _).choose_spec.skips fun blocks =>
    (spans_read_if _ _).skips fun main_data => (spans_read_exact 4).skips fun checksum =>
    show Skips _ (fun _ => 0) from fun bs hashed _ => ⟨hashed, rfl⟩) ?_
  intro bs
  unfold extent field
  simp only [drop_drop, Nat.reduceAdd, ite_pos_self]
  omega

theorem extent_eq (bs : Bytes) : extent bs =
    13 + (1 + 8 + 2 + blocksExtent (field (bs.drop 13) 0 1) ((bs.drop 13).drop 11) +
      field (bs.drop 13) 9 2 + 4) := by
  unfold extent field
  simp only [drop_drop, Nat.reduceAdd, Nat.add_zero]
  omega

/-- The reader gets to the type byte and looks it up. -/
theorem read_record_eq (hlen : 13 ≤ bs.length) : ∃ lsn rec_len hashed, read_record ⟨bs, []⟩ =
      match typeAt bs with
      | some entry_type => read_behind_type lsn rec_len entry_type ⟨bs.drop 13, hashed⟩
      | none => .error (.InvalidEntryType (UInt8.ofNat (field bs 12 1))) := by
  have h4 : 4 ≤ (bs.drop 8).length := by rw [length_drop]; omega
  have h1 : 1 ≤ ((bs.drop 8).drop 4).length := by rw [length_drop, length_drop]; omega
  refine ⟨bs.take 8, (bs.drop 8).take 4,
    [] ++ bs.take 8 ++ (bs.drop 8).take 4 ++ ((bs.drop 8).drop 4).take 1, ?_⟩
  unfold read_record
  rw [read_exact_eq, if_pos (by omega), ok_bind]
  dsimp only
  rw [read_exact_eq, if_pos h4, ok_bind]
  dsimp only
  rw [read_exact_eq, if_pos h1, ok_bind]
  dsimp only
  unfold read_type typeAt field
  rw [drop_drop, drop_drop]
  cases ht : WalRecordType.try_from (UInt8.ofNat (leNat ((bs.drop 12).take 1))) with
  | none => rfl
  | some entry_type => rfl

end WalReader

/-! ## What the scan makes of a damaged record -/

theorem read_record_of_next_record (h : next_record [bs] = some (.error e)) :
    (WalReader.mk bs []).read_record = .error e := by
  cases bs with
  | nil => cases h
  | cons b bs =>
    have hread : ((WalReader.mk (b :: bs) []).read_record >>= fun x =>
        Except.ok (x.1, [x.2.rest])) = .error e := Option.some.inj h
    cases hrec : (WalReader.mk (b :: bs) []).read_record with
    | ok x =>
      rw [hrec] at hread
      cases hread
    | error e' =>
      rw [hrec] at hread
      cases hread
      rfl

/-- The error comes with the end of the file exactly if the type is known and the fields reach
there. -/
theorem torn_iff (hlen : 13 < bs.length) (h : next_record [bs] = some (.error e)) :
    (e = .UnexpectedEof ∨ err_pos bs e = bs.length) ↔
      typeAt bs ≠ none ∧ bs.length ≤ extent bs := by
  have hread := read_record_of_next_record h
  obtain ⟨lsn, rec_len, hashed, hrecord⟩ := read_record_eq hlen.le
  have hext := extent_eq bs
  have hdrop : (bs.drop 13).length = bs.length - 13 := length_drop
  rw [hread] at hrecord
  cases htype : typeAt bs with
  | none =>
    rw [htype] at hrecord
    cases hrecord
    refine ⟨?_, fun hknown => absurd rfl hknown.1⟩
    rintro (hread | hpos)
    · cases hread
    · exact absurd (show 13 = bs.length from hpos) hlen.ne
  | some entry_type =>
    rw [htype] at hrecord
    have hreach := reaches_behind_type lsn rec_len entry_type
    by_cases hle : extent bs ≤ bs.length
    · -- everything is there, so it is the checksum, and the reader is behind the record
      rcases hreach.long (bs.drop 13) hashed (by omega) with ⟨x, hx⟩ | ⟨l, a, b, hx⟩
      · cases hrecord.trans hx
      cases hrecord.trans hx
      obtain ⟨hashed', hskip⟩ := skips_skip_record bs [] hle
      have hpos : err_pos bs (.ChecksumMismatch l a b) = extent bs := by
        unfold err_pos
        rw [hskip]
        dsimp only
        rw [length_drop]
        omega
      rw [hpos]
      refine ⟨?_, fun hknown => .inr (Nat.le_antisymm hle hknown.2)⟩
      rintro (hread | hpos)
      · cases hread
      · exact ⟨nofun, hpos.ge⟩
    have hx := hreach.short (bs.drop 13) hashed (by omega)
    cases hrecord.trans hx
    exact ⟨fun _ => ⟨nofun, by omega⟩, fun _ => .inl rfl⟩

theorem scan_segment_damaged (is_last : Bool) {front : List Logged} (hfront : ∀ x ∈ front, x.Fits)
    {rest : Bytes} (hnext : next_record [rest] = some (.error e)) (s : WalScan) :
    scan_segment is_last (bytesOf front ++ rest) ((bytesOf front ++ rest).length + 1)
        (bytesOf front ++ rest) s =
      if is_last ∧ (e = .UnexpectedEof ∨ err_pos rest e = rest.length) then
        .ok (front.foldl (fun s r => s.see r.record) s, bytesOf front)
      else .error (.wal e) := by
  have hle := length_le_length_bytesOf front
  obtain ⟨fuel, hfuel⟩ :
      ∃ fuel, (bytesOf front ++ rest).length + 1 = front.length + (fuel + 1) := by
    refine ⟨(bytesOf front ++ rest).length - front.length, ?_⟩
    rw [length_append]
    omega
  rw [hfuel, scan_segment_append is_last _ hfront, scan_segment, hnext]
  dsimp only
  rw [length_append, Nat.add_sub_cancel, take_left]

theorem typeAt_append {damaged : Bytes} (hlen : 13 ≤ damaged.length) (rest : Bytes) :
    typeAt (damaged ++ rest) = typeAt damaged := by
  unfold typeAt field
  rw [drop_append_of_le_length (by omega), take_append_of_le_length]
  rw [length_drop]
  omega

theorem length_bytes_ge (r : Logged) : 28 ≤ r.bytes.length := by
  have hsize : r.bytes.length = r.entry.record_size := r.entry.length_bytes r.lsn
  unfold Entry.record_size at hsize
  omega

namespace WalThreads

/-- A record of a valid log is damaged and no longer passes its checksum. `Wal::new` returns an
error if and only if the record is not in the last segment, or its type byte is no known type, or
its length fields end it in front of the end of the file. -/
theorem damage_is_reported_iff_it_stays_inside (buffer_capacity segment_size : Nat)
    {before after : List (List Logged)} {front back : List Logged} {r : Logged}
    {damaged : Bytes}
    (hfits : ∀ x ∈ before.flatten ++ (front ++ r :: back) ++ after.flatten, x.Fits)
    (hlen : damaged.length = r.bytes.length)
    (hbad : ∀ x, next_record [damaged ++ bytesOf back] ≠ some (.ok x)) :
    (∃ e, new_with_options buffer_capacity segment_size (before.map bytesOf ++
        (bytesOf front ++ (damaged ++ bytesOf back)) :: after.map bytesOf) = .error e) ↔
      after ≠ [] ∨ typeAt damaged = none ∨
        extent (damaged ++ bytesOf back) < (damaged ++ bytesOf back).length := by
  have hr := length_bytes_ge r
  have hlong : 13 < (damaged ++ bytesOf back).length := by
    rw [List.length_append]
    omega
  obtain ⟨e, hnext⟩ : ∃ e, next_record [damaged ++ bytesOf back] = some (.error e) := by
    cases hnext : next_record [damaged ++ bytesOf back] with
    | none =>
      cases hbytes : damaged ++ bytesOf back with
      | nil =>
        rw [hbytes] at hlong
        cases hlong
      | cons b bs =>
        rw [hbytes] at hnext
        cases hnext
    | some result =>
      cases result with
      | error e => exact ⟨e, rfl⟩
      | ok x => exact absurd hnext (hbad x)
  have hbefore : ∀ x ∈ before.flatten, x.Fits := fun x hx => hfits x (by simp [hx])
  have hfront : ∀ x ∈ front, x.Fits := fun x hx => hfits x (by simp [hx])
  have htorn := torn_iff hlong hnext
  rw [typeAt_append (by omega)] at htorn
  have hscan := fun s => scan_segment_damaged (after.map bytesOf).isEmpty hfront hnext s
  unfold new_with_options
  rw [scan_segments_append hbefore (List.cons_ne_nil _ _), scan_segments, hscan]
  by_cases hcut : (after.map bytesOf).isEmpty = true ∧
      (e = .UnexpectedEof ∨ err_pos (damaged ++ bytesOf back) e = (damaged ++ bytesOf back).length)
  · obtain ⟨hlast, hknown, hreach⟩ := And.imp_right htorn.mp hcut
    have hafter : after = [] := by simpa using hlast
    rw [if_pos hcut, hafter]
    refine ⟨?_, ?_⟩
    · rintro ⟨e', he'⟩
      cases he'
    · rintro (hne | hnone | hlt)
      · exact absurd rfl hne
      · exact absurd hnone hknown
      · omega
  · rw [if_neg hcut]
    refine ⟨fun _ => ?_, fun _ => ⟨.wal e, rfl⟩⟩
    by_cases hafter : after = []
    · have hlast : (after.map bytesOf).isEmpty = true := by simp [hafter]
      have hnot := fun h => hcut ⟨hlast, htorn.mpr h⟩
      by_cases hnone : typeAt damaged = none
      · exact Or.inr (Or.inl hnone)
      · exact Or.inr (Or.inr (Nat.not_le.mp fun hle => hnot ⟨hnone, hle⟩))
    · exact Or.inl hafter

/-- The type byte of the first of two records is overwritten, and the log does not open. -/
theorem an_unknown_type_is_reported :
    ∃ (damaged : Bytes) (e : OpenError),
      damaged = (Logged.mk 1 (log_commit 5)).bytes.set 12 14 ∧
      new_with_options 64 64 [damaged ++ bytesOf [⟨2, log_commit 6⟩]] = .error e := by
  obtain ⟨damaged, hdamaged⟩ : ∃ bs, bs = (Logged.mk 1 (log_commit 5)).bytes.set 12 14 := ⟨_, rfl⟩
  have hlen : damaged.length = (Logged.mk 1 (log_commit 5)).bytes.length := by
    rw [hdamaged, List.length_set]
  have hfits : ∀ x ∈ ([] : List (List Logged)).flatten ++
      ([] ++ Logged.mk 1 (log_commit 5) :: [⟨2, log_commit 6⟩]) ++
      ([] : List (List Logged)).flatten,
      x.Fits := by
    intro x hx
    rcases List.mem_pair.mp hx with rfl | rfl
    · exact ⟨fits_log_commit 5, by decide⟩
    · exact ⟨fits_log_commit 6, by decide⟩
  have hunread : next_record [damaged ++ bytesOf [⟨2, log_commit 6⟩]] =
      some (.error (.InvalidEntryType 14)) := by
    rw [hdamaged]
    decide +kernel
  have hbad : ∀ x, next_record [damaged ++ bytesOf [⟨2, log_commit 6⟩]] ≠ some (.ok x) := by
    intro x hx
    rw [hunread] at hx
    cases hx
  have htype : typeAt damaged = none := by
    rw [hdamaged]
    decide +kernel
  obtain ⟨e, he⟩ := (damage_is_reported_iff_it_stays_inside 64 64 hfits hlen hbad).mpr
    (Or.inr (Or.inl htype))
  exact ⟨damaged, e, hdamaged, he⟩

/-- The length of the payload of the first of two records is overwritten. The log opens as an empty
one, and the second record, which is whole, is gone. -/
theorem a_damaged_length_drops_the_record_behind_it :
    ∃ damaged : Bytes, damaged = ((Logged.mk 1 (log_commit 5)).bytes.set 22 255).set 23 255 ∧
      next_record [damaged ++ bytesOf [⟨2, log_commit 6⟩]] = some (.error .UnexpectedEof) ∧
      new_with_options 64 64 [damaged ++ bytesOf [⟨2, log_commit 6⟩]] =
        .ok (.opened 64 64 [[]] 0) := by
  refine ⟨_, rfl, ?_, ?_⟩
  · decide +kernel
  · decide +kernel

end WalThreads

end FluxDB
