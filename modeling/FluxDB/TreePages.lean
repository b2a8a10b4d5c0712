-- The pages of the index as lists: a leaf is a list of versions with a high key and links, an
-- internal page is a list of separators and children. Sizes are those of the byte pages, and so
-- are the search in a page, the two splits and what a too long half does to its high key.
import FluxDB.InternalSplit
import FluxDB.VersionChecks

namespace FluxDB.Tree

open Leaf (slot_base rec_total_size SLOT_SIZE split_point run_length)
open Internal (int_key_data_base key_ends)

/-! ## Versions -/

def OVERFLOW_DESCRIPTOR_SIZE : Nat := 12

/-- A stored version. A long value stands with the ids of its overflow pages, first to last, in
place of the descriptor that leads to them. -/
structure Row where
  key : Bytes
  value : Bytes
  pages : List Nat
  xmin : Nat
  xmax : Nat
  deriving DecidableEq, Repr

def Row.stored_len (r : Row) : Nat :=
  if r.pages = [] then r.value.length else OVERFLOW_DESCRIPTOR_SIZE

/-- What a version takes of a page: its slot and its record. -/
def Row.size (r : Row) : Nat := SLOT_SIZE + rec_total_size r.key.length r.stored_len

/-! ## Leaves -/

/-- A leaf. An empty high key stands for none. -/
structure LeafNode where
  rows : List Row
  high_key : Bytes
  rightlink : Option Nat
  prev : Option Nat
  incomplete_split : Bool
  half_dead : Bool
  deriving DecidableEq, Repr

/-- What `LeafPageBuilder::new` leaves: an empty rightmost leaf. -/
def LeafNode.new : LeafNode := ⟨[], [], none, none, false, false⟩

namespace LeafNode

/-- The bytes in use: header, high key, slots and records. -/
def used (l : LeafNode) : Nat := slot_base l.high_key.length + (l.rows.map Row.size).sum

/-- `can_fit_direct`, which is also the test of `insert_raw`. -/
def CanFit (l : LeafNode) (r : Row) : Prop := r.size ≤ PAGE_SIZE - l.used

instance (l : LeafNode) (r : Row) : Decidable (l.CanFit r) := inferInstanceAs (Decidable (_ ≤ _))

def insert_raw (l : LeafNode) (slot : Nat) (r : Row) : LeafNode :=
  { l with rows := l.rows.insertIdx slot r }

def set_xmax (l : LeafNode) (slot xmax : Nat) : LeafNode :=
  { l with rows := l.rows.modify slot fun r => { r with xmax } }

end LeafNode

section Search

variable (cmp : Compare)

/-- How the key in a slot compares with the query. -/
def compareSlot (rows : List Row) (query : Bytes) (i : Nat) : Ordering :=
  match rows[i]? with
  | some r => cmp r.key query
  | none => .gt

def position (rows : List Row) (query : Bytes) : Nat × Bool :=
  Search.locate (compareSlot cmp rows query) rows.length 0 rows.length

/-- The first slot of the run of equal keys around a slot, and the slot behind the run. -/
def duplicate_slot_bounds (rows : List Row) (key : Bytes) (slot : Nat) : Nat × Nat :=
  (slot - run_length cmp key ((rows.take slot).reverse.map Row.key),
    slot + 1 + run_length cmp key ((rows.drop (slot + 1)).map Row.key))

/-- The rows of slots `first` to `past_end`. -/
def slots (rows : List Row) (bounds : Nat × Nat) : List Row :=
  (rows.drop bounds.1).take (bounds.2 - bounds.1)

def find_visible_slot (tm : TransactionManager) (txn : Transaction) (rows : List Row)
    (key : Bytes) : Option Nat :=
  match position cmp rows key with
  | (_, false) => none
  | (start, true) =>
    let bounds := duplicate_slot_bounds cmp rows key start
    ((slots rows bounds).findIdx? fun r => txn.is_visible r.xmin r.xmax tm).map (bounds.1 + ·)

/-- The conflict check of an insert on one page. -/
def check_page_conflict (tm : TransactionManager) (txn : Transaction) (rows : List Row)
    (key : Bytes) : Except IndexError Unit :=
  match position cmp rows key with
  | (_, false) => .ok ()
  | (start, true) =>
    check_insert_conflict tm txn
      ((slots rows (duplicate_slot_bounds cmp rows key start)).map fun r => (r.xmin, r.xmax))

end Search

/-- The rows that `compact` keeps, and those that it drops. -/
def live (tm : TransactionManager) (horizon : Nat) (rows : List Row) : List Row :=
  rows.filter fun r => !is_vacuumable r.xmin r.xmax horizon tm

def dead (tm : TransactionManager) (horizon : Nat) (rows : List Row) : List Row :=
  rows.filter fun r => is_vacuumable r.xmin r.xmax horizon tm

/-- The left half of a split: it keeps its page and gets a high key. -/
def LeafNode.left (l : LeafNode) (mid : Nat) (separator_key : Bytes) (right_pid : Nat) :
    LeafNode where
  rows := l.rows.take mid
  high_key := separator_key
  rightlink := some right_pid
  prev := l.prev
  incomplete_split := true
  half_dead := false

/-- The right half, on a page of its own. -/
def LeafNode.right (l : LeafNode) (mid leaf_pid : Nat) : LeafNode where
  rows := l.rows.drop mid
  high_key := l.high_key
  rightlink := l.rightlink
  prev := some leaf_pid
  incomplete_split := false
  half_dead := false

/-- The separator and the halves of a leaf. -/
def split_leaf (cmp : Compare) (l : LeafNode) (leaf_pid right_pid : Nat) :
    Option (Bytes × LeafNode × LeafNode) :=
  let mid := split_point cmp (l.rows.map Row.key)
  match l.rows[mid]? with
  | none => none
  | some r => some (r.key, l.left mid r.key right_pid, l.right mid leaf_pid)

/-! ## Internal pages -/

structure InternalNode where
  keys : List Bytes
  children : List Nat
  high_key : Bytes
  rightlink : Option Nat
  incomplete_split : Bool
  deriving DecidableEq, Repr

/-- The high key that is read back from a page with these children and separators: the part of it
that the key data runs over is gone. The key data must end inside the page. -/
def sealedHighKey (children : List Nat) (keys : List Bytes) (hk : Bytes) :
    Option Bytes :=
  let area := Page.row 8 children ++ Page.row 4 (key_ends keys) ++ keys.flatten
  let stop := int_key_data_base keys.length + keys.flatten.length
  if PAGE_SIZE < stop then none
  else some (area.drop (PAGE_SIZE - hk.length - Internal.INT_HEADER_SIZE) ++
    hk.drop (stop - (PAGE_SIZE - hk.length)))

namespace InternalNode

def used_bytes (n : InternalNode) : Nat := int_key_data_base n.keys.length + n.keys.flatten.length

def CanFit (n : InternalNode) (key_len : Nat) : Prop :=
  8 + 4 + key_len ≤ PAGE_SIZE - n.used_bytes - n.high_key.length

instance (n : InternalNode) (len : Nat) : Decidable (n.CanFit len) :=
  inferInstanceAs (Decidable (_ ≤ _))

variable (cmp : Compare)

/-- The index of the child to descend into. -/
def find_child (n : InternalNode) (search_key : Bytes) : Nat :=
  Search.bisect (fun i => n.keys[i]?.any fun k => cmp k search_key == .gt) n.keys.length

def insert_key_and_right_child (n : InternalNode) (index : Nat) (key : Bytes)
    (right_child : Nat) : InternalNode :=
  { n with keys := n.keys.insertIdx index key
           children := n.children.insertIdx (index + 1) right_child }

/-- The page without the child of this index and without one of its separators. -/
def remove_key_at (n : InternalNode) (index : Nat) : ChildSide → InternalNode
  | .Left => { n with keys := n.keys.eraseIdx index, children := n.children.eraseIdx (index + 1) }
  | .Right => { n with keys := n.keys.eraseIdx index, children := n.children.eraseIdx index }

/-- The halves of an internal page with a new separator, and the separator that goes up. -/
def split_internal (n : InternalNode) (right_pid : Nat) (sep_key : Bytes) (right_child : Nat) :
    Option (Bytes × InternalNode × InternalNode) :=
  let insert_idx := n.find_child cmp sep_key
  let keys := n.keys.insertIdx insert_idx sep_key
  let children := n.children.insertIdx (insert_idx + 1) right_child
  let mid := keys.length / 2
  match keys[mid]? with
  | none => none
  | some push_up_key =>
    match sealedHighKey (children.drop (mid + 1)) (keys.drop (mid + 1)) n.high_key,
      sealedHighKey (children.take (mid + 1)) (keys.take mid) push_up_key with
    | some right_hk, some left_hk => some (push_up_key,
        { keys := keys.take mid, children := children.take (mid + 1), high_key := left_hk,
          rightlink := some right_pid, incomplete_split := true },
        { keys := keys.drop (mid + 1), children := children.drop (mid + 1), high_key := right_hk,
          rightlink := n.rightlink, incomplete_split := false })
    | _, _ => none

end InternalNode

/-! ## Pages -/

/-- A page: a leaf, an internal page, or one of another type that is not part of the tree. -/
inductive Node
  | leaf (l : LeafNode)
  | internal (n : InternalNode)
  | other (page_type : UInt8)
  deriving DecidableEq, Repr

namespace Node

def is_incomplete_split : Node → Bool
  | leaf l => l.incomplete_split
  | internal n => n.incomplete_split
  | other _ => false

def clear_incomplete_split : Node → Node
  | leaf l => leaf { l with incomplete_split := false }
  | internal n => internal { n with incomplete_split := false }
  | other t => other t

def high_key : Node → Bytes
  | leaf l => l.high_key
  | internal n => n.high_key
  | other _ => []

def rightlink : Node → Option Nat
  | leaf l => l.rightlink
  | internal n => n.rightlink
  | other _ => none

end Node

end FluxDB.Tree
