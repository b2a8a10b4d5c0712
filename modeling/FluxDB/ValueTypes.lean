-- The types of keys and values and their encodings. An implementation of the `Value` trait is a
-- record of its functions, one for each base type and one for each of `Option`, arrays and vectors
-- over any other; `Key` adds the comparison of two encodings.
import FluxDB.Lib.Bytes
import FluxDB.Lib.Utf8
import FluxDB.Lib.Varint
import Mathlib.Data.Vector.Basic

namespace FluxDB.Types

open Bytes

/-! ## The traits -/

/-- `Value`. A panic of `from_bytes` is `none`; `as_bytes` panics where a length does not fit into
32 bits, and the error is that length. -/
structure ValueType (α : Type) where
  fixed_width : Option Nat
  from_bytes : Bytes → Option α
  as_bytes : α → Except Nat Bytes

/-- `Key`. A panic of `compare` is `none`. -/
structure KeyType (α : Type) extends ValueType α where
  compare : Bytes → Bytes → Option Ordering

/-- `data[start..stop]`, which panics out of bounds. -/
def slice (data : Bytes) (start stop : Nat) : Option Bytes :=
  if start ≤ stop ∧ stop ≤ data.length then some ((data.drop start).take (stop - start)) else none

/-! ## Base types -/

def unitValue : ValueType Unit where
  fixed_width := some 0
  from_bytes _ := some ()
  as_bytes _ := .ok []

def unitKey : KeyType Unit := { unitValue with compare := fun _ _ => some .eq }

/-- `Self::from_bytes(data1).cmp(&Self::from_bytes(data2))`. -/
def compareDecoded {α : Type} (V : ValueType α) (cmp : α → α → Ordering)
    (data1 data2 : Bytes) : Option Ordering := do
  let value1 ← V.from_bytes data1
  let value2 ← V.from_bytes data2
  some (cmp value1 value2)

def boolValue : ValueType Bool where
  fixed_width := some 1
  from_bytes data :=
    match data.head? with
    | some 0 => some false
    | some 1 => some true
    | _ => none
  as_bytes value := .ok (if value then [1] else [0])

def boolKey : KeyType Bool := { boolValue with compare := compareDecoded boolValue compare }

/-- `le_value!` for a number of this many bytes, which stands as its bits. -/
def leValue (size : Nat) : ValueType (BitVec (8 * size)) where
  fixed_width := some size
  from_bytes data :=
    if data.length = size then some (BitVec.ofNat (8 * size) (leNat data)) else none
  as_bytes value := .ok (leBytes size value.toNat)

/-- `le_key!` for unsigned integers. -/
def unsignedKey (size : Nat) : KeyType (BitVec (8 * size)) :=
  { leValue size with compare := compareDecoded (leValue size) (compareOn BitVec.toNat) }

/-- `le_key!` for signed integers. -/
def signedKey (size : Nat) : KeyType (BitVec (8 * size)) :=
  { leValue size with compare := compareDecoded (leValue size) (compareOn BitVec.toInt) }

/-- `char::from_u32`. -/
def from_u32 (v : Nat) : Option Char := if v.isValidChar then some (Char.ofNat v) else none

def charValue : ValueType Char where
  fixed_width := some 3
  from_bytes data :=
    match data[0]?, data[1]?, data[2]? with
    | some b0, some b1, some b2 => from_u32 (leNat [b0, b1, b2, 0])
    | _, _, _ => none
  as_bytes value := .ok ((leBytes 4 value.toNat).take 3)

def charKey : KeyType Char := { charValue with compare := compareDecoded charValue compare }

/-- `&str` and `String`. -/
def strValue : ValueType String where
  fixed_width := none
  from_bytes data :=
    if h : data.toByteArray.IsValidUTF8 then some (String.ofByteArray data.toByteArray h) else none
  as_bytes value := .ok (Utf8.bytes value)

/-- `data1.cmp(data2)` on bytes. -/
def compareBytes (data1 data2 : Bytes) : Option Ordering :=
  some (List.compareLex compare data1 data2)

def strKey : KeyType String := { strValue with compare := compareBytes }

/-- `&[u8]`. -/
def bytesValue : ValueType Bytes where
  fixed_width := none
  from_bytes data := some data
  as_bytes value := .ok value

def bytesKey : KeyType Bytes := { bytesValue with compare := compareBytes }

/-- `&[u8; N]`. -/
def byteArrayValue (n : Nat) : ValueType (List.Vector UInt8 n) where
  fixed_width := some n
  from_bytes data := if h : data.length = n then some ⟨data, h⟩ else none
  as_bytes value := .ok value.toList

def byteArrayKey (n : Nat) : KeyType (List.Vector UInt8 n) :=
  { byteArrayValue n with compare := compareBytes }

/-! ## `Option<T>` -/

section Containers

variable {α : Type}

def optionValue (T : ValueType α) : ValueType (Option α) where
  fixed_width := T.fixed_width.map (· + 1)
  from_bytes data :=
    match data.head? with
    | some 0 => some none
    | some 1 => (T.from_bytes (data.drop 1)).map some
    | _ => none
  as_bytes
    | some inner => do
      let bytes ← T.as_bytes inner
      .ok (1 :: bytes)
    | none =>
      match T.fixed_width with
      | some width => .ok (List.replicate (width + 1) 0)
      | none => .ok [0]

def optionKey (T : KeyType α) : KeyType (Option α) :=
  { optionValue T.toValueType with
    compare := fun data1 data2 =>
      match data1.head?, data2.head? with
      | some 0, some 0 => some .eq
      | some 0, some 1 => some .lt
      | some 1, some 0 => some .gt
      | some 1, some 1 => T.compare (data1.drop 1) (data2.drop 1)
      | _, _ => none }

/-! ## The loops over items -/

/-- `result.extend_from_slice` for one item after the other. -/
def extendAll (write : α → Except Nat Bytes) :
    List α → Bytes → Except Nat Bytes
  | [], result => .ok result
  | item :: items, result => do
    let bytes ← write item
    extendAll write items (result ++ bytes)

/-- So many items, each from the bytes that the cursor gives. -/
def readItems {γ : Type} (next : γ → Option (Bytes × γ)) (read : Bytes → Option α) :
    Nat → γ → Option (List α)
  | 0, _ => some []
  | count + 1, cursor => do
    let (bytes, cursor) ← next cursor
    let item ← read bytes
    let items ← readItems next read count cursor
    some (item :: items)

/-- So many pairs of items, up to the first that differ. -/
def compareItems {γ : Type} (next1 next2 : γ → Option (Bytes × γ))
    (cmp : Bytes → Bytes → Option Ordering) : Nat → γ → γ → Option Ordering
  | 0, _, _ => some .eq
  | count + 1, cursor1, cursor2 => do
    let (bytes1, cursor1) ← next1 cursor1
    let (bytes2, cursor2) ← next2 cursor2
    let comparison ← cmp bytes1 bytes2
    if comparison ≠ .eq then some comparison else compareItems next1 next2 cmp count cursor1 cursor2

/-! ## `[T; N]` -/

/-- `data[fixed * i..fixed * (i + 1)]`. -/
def itemAt (data : Bytes) (fixed : Nat) (i : Nat) : Option (Bytes × Nat) := do
  let bytes ← slice data (fixed * i) (fixed * (i + 1))
  some (bytes, i + 1)

/-- `data[start..end]` with the end that the table of offsets has for item `i`. -/
def itemByOffset (data : Bytes) : Nat × Nat → Option (Bytes × (Nat × Nat))
  | (i, start) => do
    let field ← slice data (4 * i) (4 * (i + 1))
    let bytes ← slice data start (leNat field)
    some (bytes, (i + 1, leNat field))

/-- The loop over items of variable width: each is appended and its end goes into the table. -/
def fillOffsets (write : α → Except Nat Bytes) :
    List α → Nat → Bytes → Except Nat Bytes
  | [], _, result => .ok result
  | item :: items, i, result => do
    let bytes ← write item
    let result := result ++ bytes
    if result.length < 2 ^ 32 then
      fillOffsets write items (i + 1)
        (result.take (4 * i) ++ leBytes 4 result.length ++ result.drop (4 * (i + 1)))
    else .error result.length

/-- The loop of `from_bytes`. -/
def arrayItems (T : ValueType α) (n : Nat) (data : Bytes) : Option (List α) :=
  match T.fixed_width with
  | some fixed => readItems (itemAt data fixed) T.from_bytes n 0
  | none => readItems (itemByOffset data) T.from_bytes n (0, 4 * n)

def arrayValue (T : ValueType α) (n : Nat) : ValueType (List.Vector α n) where
  fixed_width := T.fixed_width.map (· * n)
  from_bytes data := do
    let result ← arrayItems T n data
    if h : result.length = n then some ⟨result, h⟩ else none
  as_bytes value :=
    match T.fixed_width with
    | some _ => extendAll T.as_bytes value.toList []
    | none => fillOffsets T.as_bytes value.toList 0 (List.replicate (4 * n) 0)

def arrayKey (T : KeyType α) (n : Nat) : KeyType (List.Vector α n) :=
  { arrayValue T.toValueType n with
    compare := fun data1 data2 =>
      match T.fixed_width with
      | some fixed => compareItems (itemAt data1 fixed) (itemAt data2 fixed) T.compare n 0 0
      | none =>
        compareItems (itemByOffset data1) (itemByOffset data2) T.compare n (0, 4 * n) (0, 4 * n) }

/-! ## `Vec<T>` -/

/-- A vector: its length is a `usize`. -/
abbrev RVec (α : Type) : Type := { items : List α // items.length < 2 ^ 64 }

def encode_usize_varint (value : Nat) : Bytes := Varint.encode 10 value

/-- The number at the offset and the offset behind it. -/
def decode_usize_varint (data : Bytes) (offset : Nat) : Option (Nat × Nat) :=
  Varint.decode 64 data 10 offset 0 0

/-- `data[item_start..item_end]` with `item_start = offset + fixed * i`. -/
def itemAfter (data : Bytes) (offset fixed : Nat) (i : Nat) : Option (Bytes × Nat) := do
  let bytes ← slice data (offset + fixed * i) (offset + fixed * i + fixed)
  some (bytes, i + 1)

/-- `data[offset..offset + fixed]`. -/
def itemFrom (data : Bytes) (fixed : Nat) (offset : Nat) : Option (Bytes × Nat) := do
  let bytes ← slice data offset (offset + fixed)
  some (bytes, offset + fixed)

/-- `data[offset..offset + item_len]` behind a length. -/
def itemByLength (data : Bytes) (offset : Nat) : Option (Bytes × Nat) := do
  let (item_len, offset) ← decode_usize_varint data offset
  let bytes ← slice data offset (offset + item_len)
  some (bytes, offset + item_len)

/-- An item with its length in front. -/
def withLength (write : α → Except Nat Bytes) (item : α) : Except Nat Bytes := do
  let bytes ← write item
  .ok (encode_usize_varint bytes.length ++ bytes)

/-- The loop of `from_bytes`. -/
def vecItems (T : ValueType α) (data : Bytes) (count offset : Nat) : Option (List α) :=
  match T.fixed_width with
  | some fixed => readItems (itemAfter data offset fixed) T.from_bytes count 0
  | none => readItems (itemByLength data) T.from_bytes count offset

def vecValue (T : ValueType α) : ValueType (RVec α) where
  fixed_width := none
  from_bytes data := do
    let (count, offset) ← decode_usize_varint data 0
    let result ← vecItems T data count offset
    if h : result.length < 2 ^ 64 then some ⟨result, h⟩ else none
  as_bytes value :=
    match T.fixed_width with
    | some _ => extendAll T.as_bytes value.val (encode_usize_varint value.val.length)
    | none => extendAll (withLength T.as_bytes) value.val (encode_usize_varint value.val.length)

/-- The loop of `compare`. -/
def compareVecItems (T : KeyType α) (data1 data2 : Bytes) (common offset1 offset2 : Nat) :
    Option Ordering :=
  match T.fixed_width with
  | some fixed =>
    compareItems (itemFrom data1 fixed) (itemFrom data2 fixed) T.compare common offset1 offset2
  | none =>
    compareItems (itemByLength data1) (itemByLength data2) T.compare common offset1 offset2

def vecKey (T : KeyType α) : KeyType (RVec α) :=
  { vecValue T.toValueType with
    compare := fun data1 data2 => do
      let (count1, offset1) ← decode_usize_varint data1 0
      let (count2, offset2) ← decode_usize_varint data2 0
      let comparison ← compareVecItems T data1 data2 (min count1 count2) offset1 offset2
      if comparison ≠ .eq then some comparison else some (Ord.compare count1 count2) }

end Containers

/-! ## All types -/

/-- The sizes of integers, in bytes. -/
inductive IntSize
  | w8 | w16 | w32 | w64 | w128
  deriving DecidableEq, Repr

def IntSize.bytes : IntSize → Nat
  | w8 => 1
  | w16 => 2
  | w32 => 4
  | w64 => 8
  | w128 => 16

inductive FloatSize
  | f32 | f64
  deriving DecidableEq, Repr

def FloatSize.bytes : FloatSize → Nat
  | f32 => 4
  | f64 => 8

/-- The types that keys and values are built from. -/
inductive Ty
  | unit
  | bool
  | unsigned (size : IntSize)
  | signed (size : IntSize)
  | float (size : FloatSize)
  | char
  | str
  | string
  | byteSlice
  | byteArray (n : Nat)
  | option (t : Ty)
  | array (t : Ty) (n : Nat)
  | vec (t : Ty)
  deriving DecidableEq, Repr

namespace Ty

/-- The values of a type. Numbers and floats stand as their bits. -/
def Val : Ty → Type
  | unit => Unit
  | bool => Bool
  | unsigned size => BitVec (8 * size.bytes)
  | signed size => BitVec (8 * size.bytes)
  | float size => BitVec (8 * size.bytes)
  | char => Char
  | str => String
  | string => String
  | byteSlice => Bytes
  | byteArray n => List.Vector UInt8 n
  | option t => Option t.Val
  | array t n => List.Vector t.Val n
  | vec t => RVec t.Val

def value : (t : Ty) → ValueType t.Val
  | unit => unitValue
  | bool => boolValue
  | unsigned size => leValue size.bytes
  | signed size => leValue size.bytes
  | float size => leValue size.bytes
  | char => charValue
  | str => strValue
  | string => strValue
  | byteSlice => bytesValue
  | byteArray n => byteArrayValue n
  | option t => optionValue t.value
  | array t n => arrayValue t.value n
  | vec t => vecValue t.value

/-- The type has no floats, so its values can be keys. -/
def isKey : Ty → Bool
  | float _ => false
  | option t => t.isKey
  | array t _ => t.isKey
  | vec t => t.isKey
  | _ => true

def key : (t : Ty) → t.isKey = true → KeyType t.Val
  | unit, _ => unitKey
  | bool, _ => boolKey
  | unsigned size, _ => unsignedKey size.bytes
  | signed size, _ => signedKey size.bytes
  | float _, h => nomatch h
  | char, _ => charKey
  | str, _ => strKey
  | string, _ => strKey
  | byteSlice, _ => bytesKey
  | byteArray n, _ => byteArrayKey n
  | option t, h => optionKey (t.key h)
  | array t n, h => arrayKey (t.key h) n
  | vec t, h => vecKey (t.key h)

end Ty

end FluxDB.Types
