-- Pages as bytes. A page is read and written at byte offsets, as the page modules of the
-- storage engine do; an access outside the page panics. The mutators here are those that
-- recovery shares with the running index.
import FluxDB.Lib.Alike
import FluxDB.Lib.Bytes
import Mathlib.Logic.Function.Basic

namespace FluxDB

open Bytes

/-! ## Bytes of a page -/

def PAGE_SIZE : Nat := 4096

/-- The bytes of a page; only the first `PAGE_SIZE` are ever read or written. -/
abbrev Page := Nat → UInt8

/-- How a key type compares encoded keys. -/
abbrev Compare := Bytes → Bytes → Ordering

/-- A failed page access: the error of the page layer, or a panic. -/
inductive PageFault
  | InsufficientSpace (needed available : Nat)
  | panic
  deriving DecidableEq, Repr

def LEAF : UInt8 := 1
def INTERNAL : UInt8 := 2
def META : UInt8 := 3
def OVERFLOW : UInt8 := 4
def FREE_SPACE : UInt8 := 5

def OFF_PAGE_TYPE : Nat := 0
def OFF_FLAGS : Nat := 1
def OFF_PAGE_ID : Nat := 8
def OFF_LSN : Nat := 16

def FLAG_INCOMPLETE_SPLIT : UInt8 := 1
def FLAG_HALF_DEAD : UInt8 := 2

namespace Page

def slice (b : Page) (off len : Nat) : Bytes := (List.range len).map fun i => b (off + i)

def read_bytes (b : Page) (off len : Nat) : Except PageFault Bytes :=
  if off + len ≤ PAGE_SIZE then .ok (b.slice off len) else .error .panic

/-- The page with a run of bytes replaced. -/
def put (b : Page) (off : Nat) (bs : Bytes) : Page :=
  fun i => if off ≤ i then (bs[i - off]?).getD (b i) else b i

def write_bytes (b : Page) (off : Nat) (bs : Bytes) : Except PageFault Page :=
  if off + bs.length ≤ PAGE_SIZE then .ok (b.put off bs) else .error .panic

def read_u8 (b : Page) (off : Nat) : Except PageFault UInt8 :=
  if off < PAGE_SIZE then .ok (b off) else .error .panic

def read_nat (n : Nat) (b : Page) (off : Nat) : Except PageFault Nat := do
  let bs ← b.read_bytes off n
  .ok (leNat bs)

def read_u16 (b : Page) (off : Nat) : Except PageFault Nat := read_nat 2 b off
def read_u32 (b : Page) (off : Nat) : Except PageFault Nat := read_nat 4 b off
def read_u64 (b : Page) (off : Nat) : Except PageFault Nat := read_nat 8 b off

def write_u8 (b : Page) (off : Nat) (v : UInt8) : Except PageFault Page := b.write_bytes off [v]
def write_u16 (b : Page) (off v : Nat) : Except PageFault Page := b.write_bytes off (leBytes 2 v)
def write_u32 (b : Page) (off v : Nat) : Except PageFault Page := b.write_bytes off (leBytes 4 v)
def write_u64 (b : Page) (off v : Nat) : Except PageFault Page := b.write_bytes off (leBytes 8 v)

/-- `copy_within` on the page. -/
def copy_within (b : Page) (src len dst : Nat) : Except PageFault Page := do
  let bs ← b.read_bytes src len
  b.write_bytes dst bs

/-! ## The shared header -/

def page_lsn (b : Page) : Nat := leNat (b.slice OFF_LSN 8)

def set_lsn (b : Page) (lsn : Nat) : Except PageFault Page := b.write_u64 OFF_LSN lsn

def set_half_dead (b : Page) : Except PageFault Page := do
  let f ← b.read_u8 OFF_FLAGS
  b.write_u8 OFF_FLAGS (f ||| FLAG_HALF_DEAD)

def clear_incomplete_split (b : Page) : Except PageFault Page := do
  let f ← b.read_u8 OFF_FLAGS
  b.write_u8 OFF_FLAGS (f &&& ~~~FLAG_INCOMPLETE_SPLIT)

/-- Where the checksum of a page type sits; a page that was never built has none. -/
def checksum_offset (page_type : UInt8) : Option Nat :=
  if page_type = LEAF then some 44
  else if page_type = INTERNAL then some 32
  else if page_type = META then some 56
  else if page_type = OVERFLOW then some 44
  else if page_type = FREE_SPACE then some 24
  else none

/-- The CRC over the page with its checksum field taken as zero. -/
def compute_checksum (b : Page) (off : Nat) : UInt32 :=
  crc32 (b.slice 0 off ++ [0, 0, 0, 0] ++ b.slice (off + 4) (PAGE_SIZE - (off + 4)))

/-- The offset of the checksum is a constant inside the page, so this write cannot panic. -/
def stamp_checksum (b : Page) : Page :=
  match checksum_offset (b OFF_PAGE_TYPE) with
  | some off => b.put off (leBytes 4 (b.compute_checksum off).toNat)
  | none => b

def verify_checksum (b : Page) : Bool :=
  match checksum_offset (b OFF_PAGE_TYPE) with
  | some off => leNat (b.slice off 4) == (b.compute_checksum off).toNat
  | none => true

end Page

/-! ## Leaf pages -/

/-- A page that was never written. -/
def Page.zero : Page := fun _ => 0

/-- Round up to an even number, `(n + 1) & !1`. -/
def align2 (n : Nat) : Nat := (n + 1) / 2 * 2

namespace Leaf

def OFF_LEAF_SLOT_COUNT : Nat := 2
def OFF_LEAF_FREE_START : Nat := 4
def OFF_LEAF_FREE_END : Nat := 6
def OFF_LEAF_PREV : Nat := 24
def OFF_LEAF_RIGHTLINK : Nat := 32
def OFF_LEAF_HIGH_KEY_LEN : Nat := 40
def LEAF_HEADER_SIZE : Nat := 48
def SLOT_SIZE : Nat := 4
def REC_OFF_KEY_LEN : Nat := 0
def REC_OFF_VAL_LEN : Nat := 2
def REC_OFF_REC_TYPE : Nat := 4
def REC_OFF_XMIN : Nat := 8
def REC_OFF_XMAX : Nat := 16
def REC_HEADER_SIZE : Nat := 24

def slot_base (high_key_len : Nat) : Nat := LEAF_HEADER_SIZE + align2 high_key_len

def slot_offset_at (high_key_len i : Nat) : Nat := slot_base high_key_len + i * SLOT_SIZE

def rec_total_size (key_len val_len : Nat) : Nat :=
  align2 (REC_HEADER_SIZE + align2 key_len + val_len)

/-- The page that `LeafPageBuilder::new` leaves: empty, rightmost, without links. -/
def new (page_id : UInt64) : Page :=
  (((Page.zero.put OFF_PAGE_TYPE [LEAF]).put OFF_PAGE_ID (leBytes 8 page_id.toNat)).put
    OFF_LEAF_FREE_START (leBytes 2 (slot_base 0))).put OFF_LEAF_FREE_END (leBytes 2 PAGE_SIZE)

/-- `LeafPageMutator::new` panics on a page of another type. -/
def mutator (b : Page) : Except PageFault Unit :=
  if b OFF_PAGE_TYPE = LEAF then .ok () else .error .panic

def set_prev_page (b : Page) (prev : Option UInt64) : Except PageFault Page :=
  b.write_u64 OFF_LEAF_PREV (prev.getD 0).toNat

def set_rightlink (b : Page) (right : Option UInt64) : Except PageFault Page :=
  b.write_u64 OFF_LEAF_RIGHTLINK (right.getD 0).toNat

def set_xmin (b : Page) (pos : Nat) (xmin : UInt64) : Except PageFault Page := do
  let hkl ← b.read_u16 OFF_LEAF_HIGH_KEY_LEN
  let rec_base ← b.read_u16 (slot_offset_at hkl pos)
  b.write_u64 (rec_base + REC_OFF_XMIN) xmin.toNat

def set_xmax (b : Page) (pos : Nat) (xmax : UInt64) : Except PageFault Page := do
  let hkl ← b.read_u16 OFF_LEAF_HIGH_KEY_LEN
  let rec_base ← b.read_u16 (slot_offset_at hkl pos)
  b.write_u64 (rec_base + REC_OFF_XMAX) xmax.toNat

/-- The record itself, just below the free space. -/
def write_record (b : Page) (rec_base : Nat) (key val : Bytes) (rec_type : UInt8) :
    Except PageFault Page := do
  let b ← b.write_u16 (rec_base + REC_OFF_KEY_LEN) key.length
  let b ← b.write_u16 (rec_base + REC_OFF_VAL_LEN) val.length
  let b ← b.write_u8 (rec_base + REC_OFF_REC_TYPE) rec_type
  let b ← b.write_u64 (rec_base + REC_OFF_XMIN) 0
  let b ← b.write_u64 (rec_base + REC_OFF_XMAX) 0
  let b ← b.write_bytes (rec_base + REC_HEADER_SIZE) key
  b.write_bytes (rec_base + REC_HEADER_SIZE + align2 key.length) val

/-- Shift the slots from `src` on by one slot. -/
def shift_slots (b : Page) (src len : Nat) : Except PageFault Page :=
  if 0 < len then b.copy_within src len (src + SLOT_SIZE) else .ok b

/-- Make room in the slot directory and write the new slot and the header. -/
def write_slot (b : Page) (pos rec_base rec_size free_start : Nat) : Except PageFault Page := do
  let hkl ← b.read_u16 OFF_LEAF_HIGH_KEY_LEN
  let n ← b.read_u16 OFF_LEAF_SLOT_COUNT
  if n < pos then .error .panic
  else do
    let b ← shift_slots b (slot_offset_at hkl pos) ((n - pos) * SLOT_SIZE)
    let b ← b.write_u16 (slot_offset_at hkl pos) rec_base
    let b ← b.write_u16 (slot_offset_at hkl pos + 2) rec_size
    let b ← b.write_u16 OFF_LEAF_SLOT_COUNT (n + 1)
    let b ← b.write_u16 OFF_LEAF_FREE_START (free_start + SLOT_SIZE)
    b.write_u16 OFF_LEAF_FREE_END rec_base

def insert_raw (b : Page) (pos : Nat) (key val : Bytes) (rec_type : UInt8) :
    Except PageFault Page := do
  let rec_size := rec_total_size key.length val.length
  let free_end ← b.read_u16 OFF_LEAF_FREE_END
  let free_start ← b.read_u16 OFF_LEAF_FREE_START
  if free_end < free_start then .error .panic
  else if free_end - free_start < SLOT_SIZE + rec_size then
    .error (.InsufficientSpace (SLOT_SIZE + rec_size) (free_end - free_start))
  else do
    let b ← write_record b (free_end - rec_size) key val rec_type
    write_slot b pos (free_end - rec_size) rec_size free_start

end Leaf

/-! ## Internal pages -/

/-- Which child stays when a separator is removed. -/
inductive ChildSide
  | Left
  | Right
  deriving DecidableEq, Repr

namespace Internal

def OFF_INT_NUM_KEYS : Nat := 2
def OFF_INT_HIGH_KEY_LEN : Nat := 4
def INT_HEADER_SIZE : Nat := 40

def int_child_offset (i : Nat) : Nat := INT_HEADER_SIZE + i * 8

def int_key_end_section (num_keys : Nat) : Nat := INT_HEADER_SIZE + (num_keys + 1) * 8

def int_key_end_offset (num_keys i : Nat) : Nat := int_key_end_section num_keys + i * 4

def int_key_data_base (num_keys : Nat) : Nat := int_key_end_section num_keys + num_keys * 4

/-- `InternalPageMutator::new` panics on a page of another type. -/
def mutator (b : Page) : Except PageFault Unit :=
  if b OFF_PAGE_TYPE = INTERNAL then .ok () else .error .panic

/-- Where the bytes of key `i` start, relative to the key data: the end of the key before. -/
def key_start (b : Page) (n i : Nat) : Except PageFault Nat :=
  if i = 0 then .ok 0 else b.read_u32 (int_key_end_offset n (i - 1))

def used_bytes (b : Page) : Except PageFault Nat := do
  let n ← b.read_u16 OFF_INT_NUM_KEYS
  let key_data_size ← key_start b n n
  .ok (INT_HEADER_SIZE + (n + 1) * 8 + n * 4 + key_data_size)

def free_bytes (b : Page) : Except PageFault Nat := do
  let used ← used_bytes b
  let hkl ← b.read_u16 OFF_INT_HIGH_KEY_LEN
  .ok (PAGE_SIZE - used - hkl)

def key_bytes (b : Page) (n i : Nat) : Except PageFault Bytes := do
  let start ← key_start b n i
  let stop ← b.read_u32 (int_key_end_offset n i)
  if stop < start then .error .panic
  else b.read_bytes (int_key_data_base n + start) (stop - start)

def can_fit (b : Page) (key_len : Nat) : Except PageFault Bool := do
  let free ← free_bytes b
  .ok (8 + 4 + key_len ≤ free)

/-- The children and the keys of the page. -/
def snapshot (b : Page) : Except PageFault (List Nat × List Bytes) := do
  let n ← b.read_u16 OFF_INT_NUM_KEYS
  let children ← (List.range (n + 1)).mapM fun i => b.read_u64 (int_child_offset i)
  let keys ← (List.range n).mapM fun i => key_bytes b n i
  .ok (children, keys)

/-- The end of each key, summed up from the lengths before it. -/
def key_ends (keys : List Bytes) : List Nat :=
  (List.range keys.length).map fun i => ((keys.take (i + 1)).map List.length).sum

def rewrite (b : Page) (children : List Nat) (keys : List Bytes) :
    Except PageFault Page := do
  let n := keys.length
  let b ← b.write_u16 OFF_INT_NUM_KEYS n
  let b ← (children.zipIdx).foldlM (fun b c => b.write_u64 (int_child_offset c.2) c.1) b
  let b ← ((key_ends keys).zipIdx).foldlM (fun b c => b.write_u32 (int_key_end_offset n c.2) c.1) b
  b.write_bytes (int_key_data_base n) keys.flatten

def insert_key_and_right_child (b : Page) (index : Nat) (key : Bytes) (right_child : UInt64) :
    Except PageFault Page := do
  let free ← free_bytes b
  if free < 8 + 4 + key.length then .error (.InsufficientSpace (8 + 4 + key.length) free)
  else do
    let (children, keys) ← snapshot b
    if children.length < index + 1 ∨ keys.length < index then .error .panic
    else rewrite b (children.insertIdx (index + 1) right_child.toNat) (keys.insertIdx index key)

def remove_key_at (b : Page) (index : Nat) (keep : ChildSide) : Except PageFault Page := do
  let (children, keys) ← snapshot b
  if keys.length ≤ index then .error .panic
  else
    match keep with
    | .Left => rewrite b (children.eraseIdx (index + 1)) (keys.eraseIdx index)
    | .Right => rewrite b (children.eraseIdx index) (keys.eraseIdx index)

end Internal

/-! ## Overflow pages -/

namespace Overflow

def OFF_OVERFLOW_NEXT_PAGE_ID : Nat := 24
def OFF_OVERFLOW_CHUNK_LEN : Nat := 32
def OVERFLOW_HEADER_SIZE : Nat := 48

/-- The page that the builder leaves for one chunk of a value. -/
def build (page_id : UInt64) (next_page : Option UInt64) (chunk : Bytes) : Page :=
  ((((Page.zero.put OFF_PAGE_TYPE [OVERFLOW]).put OFF_PAGE_ID (leBytes 8 page_id.toNat)).put
    OFF_OVERFLOW_NEXT_PAGE_ID (leBytes 8 (next_page.getD 0).toNat)).put
    OFF_OVERFLOW_CHUNK_LEN (leBytes 2 chunk.length)).put OVERFLOW_HEADER_SIZE chunk

/-- The bytes of an `OverflowDescriptor`. -/
def descriptor (first_page_id : UInt64) (total_size : Nat) : Bytes :=
  leBytes 8 first_page_id.toNat ++ leBytes 4 total_size

end Overflow

/-! ## The superblock and the bitmap -/

namespace Meta

def OFF_MAGIC : Nat := 4
def OFF_VERSION : Nat := 24
def OFF_ROOT : Nat := 32
def OFF_FREE_SPACE : Nat := 48

/-- The bytes `FLUX`. -/
def MAGIC : Bytes := [70, 76, 85, 88]

def FORMAT_VERSION : Nat := 1

def init (root_page_id : UInt64) : Page :=
  (((Page.zero.put OFF_PAGE_TYPE [META]).put OFF_MAGIC MAGIC).put OFF_VERSION
    (leBytes 4 FORMAT_VERSION)).put OFF_ROOT (leBytes 8 root_page_id.toNat)

def set_free_space (b : Page) (page_id : UInt64) : Page :=
  b.put OFF_FREE_SPACE (leBytes 8 page_id.toNat)

def set_root (b : Page) (root_page_id : UInt64) : Except PageFault Page :=
  b.write_u64 OFF_ROOT root_page_id.toNat

end Meta

namespace FreeSpace

/-- An empty bitmap. -/
def init (page_id : UInt64) : Page :=
  (Page.zero.put OFF_PAGE_TYPE [FREE_SPACE]).put OFF_PAGE_ID (leBytes 8 page_id.toNat)

end FreeSpace

end FluxDB
