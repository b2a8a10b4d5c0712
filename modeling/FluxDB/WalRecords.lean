-- The records of the write-ahead log: how `append` lays a record out in bytes, how the
-- iterator reads one back, and the records that the `log_*` calls build. A record whose
-- lengths fit their fields comes back as it was written.
import FluxDB.PageBytes

namespace FluxDB

open Bytes List Except

/-! ## Records -/

inductive WalRecordType
  | Insert
  | SetXMax
  | Commit
  | Abort
  | LeafSplit
  | InternalSPlit
  | InsertDownLink
  | NewRoot
  | PageCompact
  | MarkHalfDead
  | UnlinkPage
  | Checkpoint
  | OverflowWrite
  | OverflowFree
  deriving DecidableEq, Repr

namespace WalRecordType

def toByte : WalRecordType → UInt8
  | Insert => 0
  | SetXMax => 1
  | Commit => 2
  | Abort => 3
  | LeafSplit => 4
  | InternalSPlit => 5
  | InsertDownLink => 6
  | NewRoot => 7
  | PageCompact => 8
  | MarkHalfDead => 9
  | UnlinkPage => 10
  | Checkpoint => 11
  | OverflowWrite => 12
  | OverflowFree => 13

def try_from (value : UInt8) : Option WalRecordType :=
  [Insert, SetXMax, Commit, Abort, LeafSplit, InternalSPlit, InsertDownLink, NewRoot, PageCompact,
    MarkHalfDead, UnlinkPage, Checkpoint, OverflowWrite, OverflowFree][value.toNat]?

end WalRecordType

inductive WalError
  | UnexpectedEof
  | InvalidEntryType (value : UInt8)
  | ChecksumMismatch (lsn expected actual : Nat)
  | MissingMainData
  | MainDataLength (len : Nat)
  deriving DecidableEq, Repr

def BLK_HAS_FPI : UInt8 := 1
def BLK_HAS_DATA : UInt8 := 2

/-- A page that a record names, with a full-page image or a redo payload. -/
structure Block where
  page_id : UInt64
  blk_flags : UInt8
  fpi : Option Bytes
  data : Option Bytes
  deriving DecidableEq, Repr

/-- What a `log_*` call hands to `append`. -/
structure Entry where
  entry_type : WalRecordType
  txn_id : UInt64
  blocks : List Block
  main_data : Option Bytes
  deriving DecidableEq, Repr

/-- A record as the iterator returns it. -/
structure WalRecord extends Entry where
  lsn : Nat
  rec_len : Nat
  deriving DecidableEq, Repr

/-! ## Writing -/

/-- The length of an optional payload. -/
def dataLen (data : Option Bytes) : Nat := (data.getD []).length

namespace Block

def bytes (b : Block) : Bytes :=
  leBytes 8 b.page_id.toNat ++ [b.blk_flags] ++ leBytes 2 (dataLen b.data) ++
    b.fpi.getD [] ++ b.data.getD []

/-- A block that `next_record` can read back. -/
structure Fits (b : Block) : Prop where
  flag : b.blk_flags &&& 1 = 1 ↔ b.fpi.isSome
  image : ∀ f, b.fpi = some f → f.length = PAGE_SIZE
  data : dataLen b.data < 65536

end Block

namespace Entry

/-- The length of the record, the LSN and the checksum included. -/
def record_size (e : Entry) : Nat :=
  8 + 4 + 1 + 1 + 8 + 2 + (e.blocks.map fun b => b.bytes.length).sum + dataLen e.main_data + 4

/-- The bytes in front of the checksum. -/
def body (e : Entry) (lsn : Nat) : Bytes :=
  leBytes 8 lsn ++ leBytes 4 e.record_size ++ [e.entry_type.toByte] ++
    [UInt8.ofNat e.blocks.length] ++ leBytes 8 e.txn_id.toNat ++
    leBytes 2 (dataLen e.main_data) ++ e.blocks.flatMap Block.bytes ++ e.main_data.getD []

/-- The bytes that `append` buffers for the record. -/
def bytes (e : Entry) (lsn : Nat) : Bytes :=
  e.body lsn ++ leBytes 4 (crc32 (e.body lsn)).toNat

/-- A record that `next_record` can read back. -/
structure Fits (e : Entry) : Prop where
  count : e.blocks.length < 256
  blocks : ∀ b ∈ e.blocks, b.Fits
  main : dataLen e.main_data < 65536

theorem Fits.leNat_count {e : Entry} (h : e.Fits) :
    leNat [UInt8.ofNat e.blocks.length] = e.blocks.length := by
  simp only [leNat, UInt8.toNat_ofNat']
  have := Nat.mod_eq_of_lt h.count
  omega

end Entry

/-! ## The records of the index -/

/-- Sentinel transaction id of structural and maintenance records. -/
def SYSTEM_TXN_ID : UInt64 := 0

def UNLINK_ROLE_LEFT : UInt8 := 0
def UNLINK_ROLE_RIGHT : UInt8 := 1
def UNLINK_ROLE_PARENT : UInt8 := 2
def UNLINK_KEEP_LEFT : UInt8 := 0
def UNLINK_KEEP_RIGHT : UInt8 := 1

/-- The bytes of a page as they stand in a record. -/
def Page.image (b : Page) : Bytes := b.slice 0 PAGE_SIZE

namespace Block

def ofImage (page_id : UInt64) (image : Page) : Block :=
  ⟨page_id, BLK_HAS_FPI, some image.image, none⟩

def ofData (page_id : UInt64) (data : Bytes) : Block := ⟨page_id, BLK_HAS_DATA, none, some data⟩

/-- A block that only names its page. -/
def bare (page_id : UInt64) : Block := ⟨page_id, 0, none, none⟩

end Block

def log_commit (txn_id : UInt64) : Entry := ⟨.Commit, txn_id, [], none⟩

def log_abort (txn_id : UInt64) : Entry := ⟨.Abort, txn_id, [], none⟩

def log_mark_half_dead (txn_id page_id : UInt64) : Entry :=
  ⟨.MarkHalfDead, txn_id, [.bare page_id], none⟩

def log_insert (txn_id page_id : UInt64) (slot : Nat) (key value : Bytes) (rec_type : UInt8)
    (xmin : UInt64) : Entry :=
  ⟨.Insert, txn_id, [.ofData page_id (leBytes 2 slot ++ leBytes 2 key.length ++
    leBytes 2 value.length ++ [rec_type] ++ leBytes 8 xmin.toNat ++ key ++ value)], none⟩

def log_set_xmax (txn_id page_id : UInt64) (slot : Nat) (xmax : UInt64) : Entry :=
  ⟨.SetXMax, txn_id, [.ofData page_id (leBytes 2 slot ++ leBytes 8 xmax.toNat)], none⟩

def log_unlink_page (txn_id deleted_page_id : UInt64) (left_sibling right_sibling : Option UInt64)
    (parent_page : UInt64) (remove_index : Nat) (keep_right_child : Bool) : Entry :=
  ⟨.UnlinkPage, txn_id,
    (left_sibling.toList.map fun left => .ofData left
      ([UNLINK_ROLE_LEFT] ++ leBytes 8 (right_sibling.getD 0).toNat)) ++
    (right_sibling.toList.map fun right => .ofData right
      ([UNLINK_ROLE_RIGHT] ++ leBytes 8 (left_sibling.getD 0).toNat)) ++
    [.ofData parent_page ([UNLINK_ROLE_PARENT] ++ leBytes 2 remove_index ++
      [if keep_right_child then UNLINK_KEEP_RIGHT else UNLINK_KEEP_LEFT])],
    some (leBytes 8 deleted_page_id.toNat)⟩

def log_leaf_split (txn_id : UInt64) (left right : UInt64 × Page)
    (old_neighbour : Option (UInt64 × Page)) : Entry :=
  ⟨.LeafSplit, txn_id, [.ofImage left.1 left.2, .ofImage right.1 right.2] ++
    old_neighbour.toList.map (fun old => .ofImage old.1 old.2), none⟩

def log_internal_split (txn_id : UInt64) (left right : UInt64 × Page) : Entry :=
  ⟨.InternalSPlit, txn_id, [.ofImage left.1 left.2, .ofImage right.1 right.2], none⟩

def log_insert_downlink (txn_id parent_page : UInt64) (at_index : Nat) (sep_key : Bytes)
    (right_child left_child : UInt64) : Entry :=
  ⟨.InsertDownLink, txn_id, [.ofData parent_page (leBytes 2 at_index ++
    leBytes 2 sep_key.length ++ leBytes 8 right_child.toNat ++ sep_key), .bare left_child], none⟩

def log_new_root (txn_id : UInt64) (new_root : UInt64 × Page) (left_child : UInt64) : Entry :=
  ⟨.NewRoot, txn_id, [.ofImage new_root.1 new_root.2, .ofData 0 (leBytes 8 new_root.1.toNat),
    .bare left_child], none⟩

def log_page_compact (txn_id page_id : UInt64) (image : Page) : Entry :=
  ⟨.PageCompact, txn_id, [.ofImage page_id image], none⟩

def log_overflow_write (txn_id page_id : UInt64) (image : Page) : Entry :=
  ⟨.OverflowWrite, txn_id, [.ofImage page_id image], none⟩

def log_overflow_free (txn_id : UInt64) (page_ids : List UInt64) : Entry :=
  ⟨.OverflowFree, txn_id, [], some (page_ids.flatMap fun pid => leBytes 8 pid.toNat)⟩

def log_checkpoint (redo_point next_txn_id : UInt64) (active_txns pinned_aborted : List UInt64)
    (vacuum_horizon root_pid next_page_id : UInt64) : Entry :=
  ⟨.Checkpoint, SYSTEM_TXN_ID, [], some (
    leBytes 8 redo_point.toNat ++ leBytes 8 next_txn_id.toNat ++
    leBytes 8 vacuum_horizon.toNat ++ leBytes 8 root_pid.toNat ++ leBytes 8 next_page_id.toNat ++
    leBytes 4 active_txns.length ++ (active_txns.flatMap fun txn => leBytes 8 txn.toNat) ++
    leBytes 4 pinned_aborted.length ++ pinned_aborted.flatMap fun txn => leBytes 8 txn.toNat)⟩

/-! ## Reading -/

/-- The unread bytes of the current segment and the bytes hashed so far. -/
structure WalReader where
  rest : Bytes
  hashed : Bytes

namespace WalReader

/-- Read exactly `n` bytes and feed them to the hasher. -/
def read_exact (r : WalReader) (n : Nat) : Except WalError (Bytes × WalReader) :=
  match readExact n r.rest with
  | some (bs, rest) => .ok (bs, ⟨rest, r.hashed ++ bs⟩)
  | none => .error .UnexpectedEof

def read_if (r : WalReader) (present : Prop) [Decidable present] (n : Nat) :
    Except WalError (Option Bytes × WalReader) :=
  if present then do
    let (bs, r) ← r.read_exact n
    .ok (some bs, r)
  else .ok (none, r)

def read_block (r : WalReader) : Except WalError (Block × WalReader) := do
  let (page_id, r) ← r.read_exact 8
  let (blk_flags, r) ← r.read_exact 1
  let (data_len, r) ← r.read_exact 2
  let (fpi, r) ← r.read_if (UInt8.ofNat (leNat blk_flags) &&& 1 = 1) PAGE_SIZE
  let (data, r) ← r.read_if (0 < leNat data_len) (leNat data_len)
  .ok (⟨UInt64.ofNat (leNat page_id), UInt8.ofNat (leNat blk_flags), fpi, data⟩, r)

def read_blocks (r : WalReader) : Nat → Except WalError (List Block × WalReader)
  | 0 => .ok ([], r)
  | n + 1 => do
    let (b, r) ← r.read_block
    let (bs, r) ← r.read_blocks n
    .ok (b :: bs, r)

def read_type (value : Bytes) : Except WalError WalRecordType :=
  match WalRecordType.try_from (UInt8.ofNat (leNat value)) with
  | some t => .ok t
  | none => .error (.InvalidEntryType (UInt8.ofNat (leNat value)))

/-- The checksum at the end against the hash of everything read before it. -/
def read_checksum (r : WalReader) (lsn : Nat) : Except WalError WalReader := do
  let (checksum, r') ← r.read_exact 4
  if (crc32 r.hashed).toNat ≠ leNat checksum then
    .error (.ChecksumMismatch lsn (leNat checksum) (crc32 r.hashed).toNat)
  else .ok r'

def read_record (r : WalReader) : Except WalError (WalRecord × WalReader) := do
  let (lsn, r) ← r.read_exact 8
  let (rec_len, r) ← r.read_exact 4
  let (type_buf, r) ← r.read_exact 1
  let entry_type ← read_type type_buf
  let (nblocks, r) ← r.read_exact 1
  let (txn_id, r) ← r.read_exact 8
  let (main_len, r) ← r.read_exact 2
  let (blocks, r) ← r.read_blocks (leNat nblocks)
  let (main_data, r) ← r.read_if (0 < leNat main_len) (leNat main_len)
  let r ← r.read_checksum (leNat lsn)
  .ok (⟨⟨entry_type, UInt64.ofNat (leNat txn_id), blocks, main_data⟩, leNat lsn, leNat rec_len⟩, r)

end WalReader

/-- The next record of the unread segments. Segments that are read to their end are left
behind; inside a record the reader never moves on to the next segment. -/
def next_record (segments : List Bytes) :
    Option (Except WalError (WalRecord × List Bytes)) :=
  match segments.dropWhile List.isEmpty with
  | [] => none
  | segment :: rest => some do
    let (record, r) ← (WalReader.mk segment []).read_record
    .ok (record, r.rest :: rest)

/-! ## What comes back -/

/-- An empty payload comes back as an absent one. -/
def nonEmpty (data : Option Bytes) : Option Bytes :=
  if data.getD [] = [] then none else data

/-- The record that is read back. -/
def Entry.record (e : Entry) (lsn : Nat) : WalRecord where
  entry_type := e.entry_type
  txn_id := e.txn_id
  blocks := e.blocks.map fun b => { b with data := nonEmpty b.data }
  main_data := nonEmpty e.main_data
  lsn := lsn
  rec_len := e.record_size % 256 ^ 4

variable {lsn : Nat}

namespace WalReader

variable {hashed rest : Bytes}

theorem read_exact_append {as : Bytes} {n : Nat} (h : as.length = n) :
    read_exact ⟨as ++ rest, hashed⟩ n = .ok (as, ⟨rest, hashed ++ as⟩) := by
  unfold read_exact
  rw [readExact_append _ h]

theorem read_exact_leBytes {n v : Nat} : read_exact ⟨leBytes n v ++ rest, hashed⟩ n =
    .ok (leBytes n v, ⟨rest, hashed ++ leBytes n v⟩) :=
  read_exact_append (length_leBytes n v)

theorem read_exact_byte {b : UInt8} :
    read_exact ⟨[b] ++ rest, hashed⟩ 1 = .ok ([b], ⟨rest, hashed ++ [b]⟩) :=
  read_exact_append rfl

theorem read_if_data {data : Option Bytes} {n : Nat} (h : n = dataLen data) :
    read_if ⟨data.getD [] ++ rest, hashed⟩ (0 < n) n =
      .ok (nonEmpty data, ⟨rest, hashed ++ data.getD []⟩) := by
  unfold read_if nonEmpty
  by_cases hd : data.getD [] = []
  · have hn : n = 0 := by rw [h, dataLen, hd, length_nil]
    simp [hn, hd]
  have hpos : 0 < n := by rw [h]; exact length_pos_iff.mpr hd
  rw [if_pos hpos, if_neg hd, read_exact_append h.symm]
  cases data with
  | none => exact absurd rfl hd
  | some bs => rfl

theorem read_if_image {b : Block} (hb : b.Fits) :
    read_if ⟨b.fpi.getD [] ++ rest, hashed⟩ (b.blk_flags &&& 1 = 1) PAGE_SIZE =
      .ok (b.fpi, ⟨rest, hashed ++ b.fpi.getD []⟩) := by
  unfold read_if
  cases hf : b.fpi with
  | none =>
    have hflag : ¬ b.blk_flags &&& 1 = 1 := by
      rw [hb.flag, hf]
      exact Bool.false_ne_true
    simp [if_neg hflag]
  | some f =>
    have hflag : b.blk_flags &&& 1 = 1 := by
      rw [hb.flag, hf]
      rfl
    rw [if_pos hflag, Option.getD_some, read_exact_append (hb.image f hf)]
    rfl

theorem read_block_append {b : Block} (hb : b.Fits) : read_block ⟨b.bytes ++ rest, hashed⟩ =
      .ok ({ b with data := nonEmpty b.data }, ⟨rest, hashed ++ b.bytes⟩) := by
  have hlen : leNat (leBytes 2 (dataLen b.data)) = dataLen b.data := leNat_leBytes_of_lt hb.data
  have hflags : UInt8.ofNat (leNat [b.blk_flags]) = b.blk_flags := by simp [leNat]
  unfold read_block Block.bytes
  simp only [append_assoc]
  simp only [read_exact_leBytes, read_exact_byte, ok_bind, hflags]
  rw [read_if_image hb]
  simp only [ok_bind]
  rw [read_if_data hlen]
  simp [ok_bind]

theorem read_blocks_append {bs : List Block} (hbs : ∀ b ∈ bs, b.Fits) :
    read_blocks ⟨bs.flatMap Block.bytes ++ rest, hashed⟩ bs.length =
      .ok (bs.map fun b => { b with data := nonEmpty b.data },
        ⟨rest, hashed ++ bs.flatMap Block.bytes⟩) := by
  induction bs generalizing hashed with
  | nil => simp [read_blocks]
  | cons b bs ih =>
    simp only [length_cons, read_blocks, flatMap_cons, append_assoc]
    rw [read_block_append (hbs b mem_cons_self)]
    simp only [ok_bind]
    rw [ih fun b hb => hbs b (mem_cons_of_mem _ hb)]
    simp [ok_bind]

theorem read_type_toByte (t : WalRecordType) : read_type [t.toByte] = .ok t := by
  cases t <;> rfl

theorem read_checksum_append : read_checksum ⟨leBytes 4 (crc32 hashed).toNat ++ rest, hashed⟩ lsn =
      .ok ⟨rest, hashed ++ leBytes 4 (crc32 hashed).toNat⟩ := by
  have hcrc : leNat (leBytes 4 (crc32 hashed).toNat) = (crc32 hashed).toNat :=
    leNat_leBytes_of_lt (UInt32.toNat_lt _)
  unfold read_checksum
  rw [read_exact_leBytes]
  simp [ok_bind, hcrc]

theorem read_record_append {e : Entry} (he : e.Fits) (hlsn : lsn < 2 ^ 64) (rest : Bytes) :
    ∃ hashed, read_record ⟨e.bytes lsn ++ rest, []⟩ = .ok (e.record lsn, ⟨rest, hashed⟩) := by
  have hcount := he.leNat_count
  have hmain : leNat (leBytes 2 (dataLen e.main_data)) = dataLen e.main_data :=
    leNat_leBytes_of_lt he.main
  have hl : leNat (leBytes 8 lsn) = lsn := leNat_leBytes_of_lt (by omega)
  refine ⟨e.body lsn ++ leBytes 4 (crc32 (e.body lsn)).toNat, ?_⟩
  unfold read_record Entry.bytes
  nth_rewrite 1 [Entry.body]
  simp only [append_assoc]
  simp only [read_exact_leBytes, read_exact_byte, ok_bind, read_type_toByte, hcount]
  rw [read_blocks_append he.blocks]
  simp only [ok_bind]
  rw [read_if_data hmain]
  have hhashed : [] ++ leBytes 8 lsn ++ leBytes 4 e.record_size ++ [e.entry_type.toByte] ++
      [UInt8.ofNat e.blocks.length] ++ leBytes 8 e.txn_id.toNat ++
      leBytes 2 (dataLen e.main_data) ++ e.blocks.flatMap Block.bytes ++ e.main_data.getD [] =
      e.body lsn := by
    rw [nil_append]
    rfl
  rw [hhashed]
  simp only [ok_bind, read_checksum_append, hl, ofNat_leNat_leBytes, leNat_leBytes 4]
  rfl

end WalReader

/-- A record at the front of a segment is read back and leaves the rest of the segments. -/
theorem next_record_bytes {e : Entry} (he : e.Fits) (hlsn : lsn < 2 ^ 64) (rest : Bytes)
    (segments : List Bytes) :
    next_record ((e.bytes lsn ++ rest) :: segments) =
      some (.ok (e.record lsn, rest :: segments)) := by
  obtain ⟨hashed, hread⟩ := WalReader.read_record_append he hlsn rest
  have hcons : ∃ b bs, e.bytes lsn ++ rest = b :: bs := ⟨UInt8.ofNat lsn, _, rfl⟩
  unfold next_record
  obtain ⟨b, bs, hb⟩ := hcons
  rw [hb] at hread ⊢
  simp [hread, ok_bind]

end FluxDB
