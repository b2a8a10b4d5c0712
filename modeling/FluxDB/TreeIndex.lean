-- The index as one thread runs it. Every call of the buffer pool and of the log may fail, so a
-- call of the index returns, fails with the pages as they are then, or panics; its loops count
-- down a number of rounds. With one thread, a page that is latched again is the page that was
-- read before, so the re-check of a page LSN never fails and LSNs are left out.
import FluxDB.Lib.Outcome
import FluxDB.TransactionSystem
import FluxDB.TreePages

namespace FluxDB.Tree

/-! ## State -/

/-- What redo brings back: the pages, with the superblock and the bitmap of free pages, and the
transactions. `unlogged` are the pages whose split flag was cleared without a record. -/
structure Durable where
  pages : Nat → Node
  next_page_id : Nat
  meta_root : Nat
  bitmap : List Nat
  txns : Txns
  unlogged : List Nat

/-- The index in memory. `redo` has what redo brings back behind each record so far. The calls of
the running operation up to its first change of a version fail as `faults` says, those behind it as
`late_faults` says. -/
structure World extends Durable where
  root : Nat
  free_pool : List Nat
  pending_recycle : List (Nat × Nat)
  redo : List Durable
  faults : List Bool
  late_faults : List Bool
  written : Bool
  failed : Bool

abbrev Act (α : Type) := Prog IndexError World α

abbrev Durable.tm (d : Durable) : TransactionManager := d.txns.tm

def Durable.put (d : Durable) (pid : Nat) (node : Node) : Durable :=
  { d with pages := fun p => if p = pid then node else d.pages p }

/-- The handle was returned by `begin` and its transaction has not ended. -/
def Durable.Running (d : Durable) (txn : Transaction) : Prop :=
  { txn, token := none : Holder } ∈ d.txns.holders ∧ d.txns.phase txn.txn_id = .running

instance (d : Durable) (txn : Transaction) : Decidable (d.Running txn) :=
  inferInstanceAs (Decidable (_ ∧ _))

/-! ## Calls of the pool and the log -/

/-- One call that fails if the list of faults says so. -/
def call (e : IndexError) : Act Unit := fun w =>
  if w.written then
    if w.late_faults.headD false then
      .err e { w with late_faults := w.late_faults.tail, failed := true }
    else .ok () { w with late_faults := w.late_faults.tail }
  else
    if w.faults.headD false then .err e { w with faults := w.faults.tail, failed := true }
    else .ok () { w with faults := w.faults.tail }

/-- A change of pages that are latched. -/
def edit (f : Durable → Durable) : Act Unit :=
  Prog.modify fun w => { w with toDurable := f w.toDurable }

/-- A change of a version on a page that is latched. -/
def edit_version (f : Durable → Durable) : Act Unit :=
  Prog.modify fun w => { w with toDurable := f w.toDurable, written := true }

/-- A record whose redo also makes the change `f`. -/
def log_as (f : Durable → Durable) : Act Unit := do
  call .Wal
  Prog.modify fun w => { w with redo := w.redo ++ [f w.toDurable] }

def log : Act Unit := log_as id

def fetch_page (pid : Nat) : Act Node := do
  let w ← Prog.read
  if pid < w.next_page_id then do
    call .BufferPool
    pure (w.pages pid)
  else Prog.fail .BufferPool

/-- The accessor of a leaf panics on another page. -/
def as_leaf : Node → Act LeafNode
  | .leaf l => pure l
  | _ => Prog.panic

def as_internal : Node → Act InternalNode
  | .internal n => pure n
  | _ => Prog.panic

def fetch_leaf (pid : Nat) : Act LeafNode := do
  let node ← fetch_page pid
  as_leaf node

def fetch_internal (pid : Nat) : Act InternalNode := do
  let node ← fetch_page pid
  as_internal node

/-- The leaf that is latched. -/
def held (pid : Nat) : Act LeafNode := do
  let w ← Prog.read
  as_leaf (w.pages pid)

def unwrap : Option Nat → Act Nat
  | some p => pure p
  | none => Prog.panic

/-- The ids that the bitmap page can track. -/
def CAPACITY : Nat := (PAGE_SIZE - 32) * 8

def claim_recycled (pid : Nat) : Act Unit := do
  call .BufferPool
  edit fun d => { d with bitmap := d.bitmap.erase pid }
  log

/-- The frame of a new page, filled with zeros. -/
def acquire_frame (pid : Nat) : Act Nat := do
  call .BufferPool
  edit fun d => d.put pid (.other 0)
  pure pid

def new_page : Act Nat := do
  let w ← Prog.read
  match w.free_pool.getLast? with
  | some pid => do
    Prog.modify fun w => { w with free_pool := w.free_pool.dropLast }
    (claim_recycled pid).onError fun w => { w with free_pool := w.free_pool ++ [pid] }
    acquire_frame pid
  | none => do
    edit fun d => { d with next_page_id := d.next_page_id + 1 }
    acquire_frame w.next_page_id

/-- The flag is cleared on the page in memory; no record says so. -/
def clear_incomplete_split (pid : Nat) : Act Unit := do
  let node ← fetch_page pid
  edit fun d => { d.put pid node.clear_incomplete_split with unlogged := pid :: d.unlogged }

/-! ## Overflow chains -/

def OVERFLOW_PAYLOAD_SIZE : Nat := 4048

/-- The pages of a chain are built back to front. The value stays with the version. -/
def write_overflow_chain : Nat → List Nat → Act (List Nat)
  | 0, ids => pure ids
  | chunks + 1, ids => do
    let pid ← new_page
    edit fun d => d.put pid (.other OVERFLOW)
    log
    write_overflow_chain chunks (pid :: ids)

/-- The overflow pages of a value; none for a short one. -/
def materialize_value (value : Bytes) : Act (List Nat) :=
  if value.length ≤ OVERFLOW_THRESHOLD then pure []
  else write_overflow_chain
    ((value.length + OVERFLOW_PAYLOAD_SIZE - 1) / OVERFLOW_PAYLOAD_SIZE) []

/-- The accessor of an overflow page fails on another page. -/
def fetch_overflow (pid : Nat) : Act Unit := do
  let node ← fetch_page pid
  if node = .other OVERFLOW then pure () else Prog.fail .Page

/-- A walk along a chain. -/
def collect_overflow_page_ids : List Nat → Act Unit
  | [] => pure ()
  | pid :: rest => do
    fetch_overflow pid
    collect_overflow_page_ids rest

/-- The pages leave the pool; nothing else becomes of them. -/
def free_overflow_chain : List Nat → Act Unit
  | [] => pure ()
  | pid :: rest => do
    fetch_overflow pid
    call .BufferPool
    free_overflow_chain rest

/-- The chains of versions that a compaction has dropped. -/
def free_overflow_chains : List Row → Act Unit
  | [] => pure ()
  | r :: rest => do
    collect_overflow_page_ids r.pages
    log
    free_overflow_chain r.pages
    free_overflow_chains rest

def reify_value (r : Row) : Act Bytes := do
  collect_overflow_page_ids r.pages
  pure r.value

/-! ## Versions on a leaf -/

variable (cmp : Compare)

/-- The page with the version put in its place. -/
def withRow (pid : Nat) (r : Row) (l : LeafNode) (d : Durable) : Durable :=
  d.put pid (.leaf (l.insert_raw (position cmp l.rows r.key).1 r))

/-- The version is put on the page and then logged. -/
def place (pid : Nat) (r : Row) : Act Unit := do
  let l ← held pid
  if l.CanFit r then do
    edit_version (withRow cmp pid r l)
    log
  else Prog.fail .Page

/-- The version is logged and then put on the page. -/
def place_logged (pid : Nat) (r : Row) : Act Unit := do
  let l ← held pid
  log_as (withRow cmp pid r l)
  edit_version (withRow cmp pid r l)

/-- The stamp is logged and then written. -/
def set_xmax (pid slot xmax : Nat) : Act Unit := do
  let l ← held pid
  log_as fun d => d.put pid (.leaf (l.set_xmax slot xmax))
  edit_version fun d => d.put pid (.leaf (l.set_xmax slot xmax))

/-- The leaf without its vacuumable versions, logged as an image, and their chains freed. Says
whether there were any. -/
def compact (horizon pid : Nat) : Act Bool := do
  let l ← held pid
  let w ← Prog.read
  if dead w.tm horizon l.rows = [] then pure false
  else do
    edit fun d => d.put pid (.leaf { l with rows := live w.tm horizon l.rows })
    log
    free_overflow_chains ((dead w.tm horizon l.rows).filter fun r => r.pages ≠ [])
    pure true

/-! ## Moving in the tree -/

/-- The key lies behind the page: `key >= high_key`. -/
def Beyond (key hk : Bytes) : Prop := hk ≠ [] ∧ cmp key hk ≠ .lt

instance (key hk : Bytes) : Decidable (Beyond cmp key hk) :=
  inferInstanceAs (Decidable (_ ∧ _))

/-- The way down that `find_leaf`, `update` and `delete` take: the leaf, and the internal pages
passed, nearest first. -/
def descend : Nat → Bytes → Nat → List Nat → Act (Nat × List Nat)
  | 0, _, _, _ => Prog.stuck
  | fuel + 1, key, pid, stack => do
    let node ← fetch_page pid
    match node with
    | .internal n =>
      if Beyond cmp key n.high_key then do
        let right ← unwrap n.rightlink
        descend fuel key right stack
      else do
        let child ← unwrap n.children[n.find_child cmp key]?
        descend fuel key child (pid :: stack)
    | .leaf _ => pure (pid, stack)
    | .other t => Prog.fail (.UnexpectedPageType LEAF.toNat t.toNat)

/-- Rightlink correction on leaves. -/
def move_right : Nat → Bytes → Nat → Act (Nat × LeafNode)
  | 0, _, _ => Prog.stuck
  | fuel + 1, key, pid => do
    let l ← fetch_leaf pid
    if Beyond cmp key l.high_key then do
      let right ← unwrap l.rightlink
      move_right fuel key right
    else pure (pid, l)

/-- The correction of an insert, which starts over at a half-dead leaf. -/
def move_right_alive : Nat → Bytes → Nat → Act (Option (Nat × LeafNode))
  | 0, _, _ => Prog.stuck
  | fuel + 1, key, pid => do
    let l ← fetch_leaf pid
    if l.half_dead then pure none
    else if Beyond cmp key l.high_key then do
      let right ← unwrap l.rightlink
      move_right_alive fuel key right
    else pure (some (pid, l))

/-- Rightlink correction on the parent level. -/
def move_right_internal : Nat → Bytes → Nat → Act (Nat × InternalNode)
  | 0, _, _ => Prog.stuck
  | fuel + 1, key, pid => do
    let n ← fetch_internal pid
    if Beyond cmp key n.high_key then do
      let right ← unwrap n.rightlink
      move_right_internal fuel key right
    else pure (pid, n)

/-! ## Splits -/

/-- The back-link of the old right neighbour goes to the new page. -/
def fix_neighbour (right_pid : Nat) : Option Nat → Act Unit
  | none => pure ()
  | some old_right_pid => do
    let l ← fetch_leaf old_right_pid
    edit fun d => d.put old_right_pid (.leaf { l with prev := some right_pid })

/-- The separator and the new right page. -/
def split_leaf_ly (leaf_pid : Nat) : Act (Bytes × Nat) := do
  let l ← held leaf_pid
  if l.rows = [] then Prog.panic
  else do
    let right_pid ← new_page
    match split_leaf cmp l leaf_pid right_pid with
    | none => Prog.panic
    | some (separator_key, left, right) => do
      edit fun d => d.put right_pid (.leaf right)
      fix_neighbour right_pid l.rightlink
      edit fun d => d.put leaf_pid (.leaf left)
      log
      pure (separator_key, right_pid)

def split_internal_ly (internal_pid : Nat) (n : InternalNode) (sep_key : Bytes)
    (right_child : Nat) : Act (Bytes × Nat) := do
  let right_pid ← new_page
  match n.split_internal cmp right_pid sep_key right_child with
  | none => Prog.panic
  | some (push_up_key, left, right) => do
    edit fun d => (d.put right_pid (.internal right)).put internal_pid (.internal left)
    log
    pure (push_up_key, right_pid)

/-- The flag is cleared by the redo of a record. -/
def cleared (pid : Nat) (d : Durable) : Durable := d.put pid (d.pages pid).clear_incomplete_split

/-- The flag is cleared on the page that a record has already cleared. -/
def clear_logged (pid : Nat) : Act Unit := do
  let _ ← fetch_page pid
  edit (cleared pid)

/-- The page over the two halves of the old root. -/
def rootOver (sep_key : Bytes) (left_child right_pid : Nat) : InternalNode where
  keys := [sep_key]
  children := [left_child, right_pid]
  high_key := []
  rightlink := none
  incomplete_split := false

def new_root (sep_key : Bytes) (right_pid left_child : Nat) : Act Unit := do
  let new_root_pid ← new_page
  edit fun d => d.put new_root_pid (.internal (rootOver sep_key left_child right_pid))
  let _ ← fetch_page 0
  edit fun d => { d with meta_root := new_root_pid }
  log_as (cleared left_child)
  clear_logged left_child
  Prog.modify fun w => { w with root := new_root_pid }

/-- The downlink goes into the parent on the stack, and if the parent splits, the separator of its
halves goes one level up. -/
def insert_separator_via_stack (fuel : Nat) : List Nat → Bytes → Nat → Nat → Act Unit
  | [], sep_key, right_pid, left_child => do
    let w ← Prog.read
    if w.root ≠ left_child then clear_incomplete_split left_child
    else new_root sep_key right_pid left_child
  | parent :: rest, sep_key, right_pid, left_child => do
    let (parent_pid, n) ← move_right_internal cmp fuel sep_key parent
    if right_pid ∈ n.children then clear_incomplete_split left_child
    else if n.CanFit sep_key.length then do
      edit fun d => d.put parent_pid
        (.internal (n.insert_key_and_right_child (n.find_child cmp sep_key) sep_key right_pid))
      log_as (cleared left_child)
      clear_logged left_child
    else do
      let (push_up_key, new_pid) ← split_internal_ly cmp parent_pid n sep_key right_pid
      clear_incomplete_split left_child
      insert_separator_via_stack fuel rest push_up_key new_pid parent_pid

/-- A split that was left without its downlink gets it. A flag without a right sibling is only
cleared. -/
def finish_split (fuel : Nat) (child_pid : Nat) (stack : List Nat) : Act Unit := do
  let node ← fetch_page child_pid
  if node.is_incomplete_split then
    match node.high_key, node.rightlink with
    | k :: ks, some right_pid =>
      insert_separator_via_stack cmp fuel stack (k :: ks) right_pid child_pid
    | _, _ =>
      edit fun d => { d.put child_pid node.clear_incomplete_split with
        unlogged := child_pid :: d.unlogged }
  else pure ()

/-- The way down that `insert` takes: it finishes the splits it meets and starts over. -/
def descend_finishing : Nat → Bytes → Nat → List Nat → Act (Nat × List Nat)
  | 0, _, _, _ => Prog.stuck
  | fuel + 1, key, pid, stack => do
    let node ← fetch_page pid
    if node.is_incomplete_split then do
      finish_split cmp fuel pid stack
      let w ← Prog.read
      descend_finishing fuel key w.root []
    else
      match node with
      | .internal n =>
        if Beyond cmp key n.high_key then do
          let right ← unwrap n.rightlink
          descend_finishing fuel key right stack
        else do
          let child ← unwrap n.children[n.find_child cmp key]?
          descend_finishing fuel key child (pid :: stack)
      | .leaf _ => pure (pid, stack)
      | .other t => Prog.fail (.UnexpectedPageType LEAF.toNat t.toNat)

/-- The leaf is compacted; if the version still does not fit, the leaf is split, and again where
its right half is too full. -/
def split_and_insert : Nat → Nat → Row → List Nat → Act Unit
  | 0, _, _, _ => Prog.stuck
  | fuel + 1, leaf_pid, r, stack => do
    let w ← Prog.read
    let compacted ← compact w.tm.global_xmin leaf_pid
    let l ← held leaf_pid
    if compacted = true ∧ l.CanFit r then place cmp leaf_pid r
    else do
      let (separator_key, new_page_id) ← split_leaf_ly cmp leaf_pid
      if cmp r.key separator_key ≠ .lt then do
        insert_separator_via_stack cmp fuel stack separator_key new_page_id leaf_pid
        let (right_pid, right) ← move_right cmp fuel r.key new_page_id
        if right.CanFit r then place cmp right_pid r
        else split_and_insert fuel right_pid r stack
      else do
        place cmp leaf_pid r
        insert_separator_via_stack cmp fuel stack separator_key new_page_id leaf_pid

/-! ## Conflicts -/

/-- Wait-Die. A call that has to sleep for a transaction that is still active ends here as
`WaitFor`: with one thread nothing wakes it. -/
def wait_for_txn (blocking_txn my_txn_id : Nat) : Act Unit := do
  let w ← Prog.read
  if my_txn_id > blocking_txn then Prog.fail .WriteConflict
  else if blocking_txn ∈ w.tm.active_txns then Prog.fail (.WaitFor blocking_txn)
  else pure ()

/-- The conflict check on the leaves to the left that end in the same key. -/
def check_insert_conflict_left_chain :
    Nat → Bytes → Transaction → Option Nat → Act (Except IndexError Unit)
  | 0, _, _, _ => Prog.stuck
  | _ + 1, _, _, none => pure (.ok ())
  | fuel + 1, key, txn, some pid => do
    let l ← fetch_leaf pid
    if l.high_key ≠ [] ∧ cmp l.high_key key = .eq then do
      let w ← Prog.read
      match check_page_conflict cmp w.tm txn l.rows key with
      | .ok _ => check_insert_conflict_left_chain fuel key txn l.prev
      | .error e => pure (.error e)
    else pure (.ok ())

/-- The left leaves are searched if the landing page has the key or starts behind it; then the
landing page is latched again. -/
def check_left (fuel : Nat) (key : Bytes) (txn : Transaction) (pid : Nat) (l : LeafNode) :
    Act (Except IndexError Unit) :=
  let (slot, exact) := position cmp l.rows key
  if l.prev ≠ none ∧ (exact = true ∨ slot = 0) then do
    let verdict ← check_insert_conflict_left_chain cmp fuel key txn l.prev
    match verdict with
    | .ok _ => do
      let _ ← fetch_leaf pid
      pure (.ok ())
    | .error e => pure (.error e)
  else pure (.ok ())

/-- All conflict checks of an insert that has landed on a leaf. -/
def check_conflicts (fuel : Nat) (key : Bytes) (txn : Transaction) (pid : Nat) (l : LeafNode) :
    Act (Except IndexError Unit) := do
  let w ← Prog.read
  match check_page_conflict cmp w.tm txn l.rows key with
  | .ok _ => check_left cmp fuel key txn pid l
  | .error e => pure (.error e)

inductive ChainSearch
  | Found (pid slot : Nat) (r : Row)
  | NotFound
  | Restart
  deriving DecidableEq, Repr

/-- The search for a visible version, on the landing page and on the leaves to the left that end
in the same key. -/
def find_visible_chain : Nat → Bytes → Transaction → Nat → LeafNode → Act ChainSearch
  | 0, _, _, _, _ => Prog.stuck
  | fuel + 1, key, txn, pid, l => do
    let w ← Prog.read
    match (find_visible_slot cmp w.tm txn l.rows key).bind fun slot =>
        l.rows[slot]?.map fun r => (slot, r) with
    | some (slot, r) => pure (.Found pid slot r)
    | none =>
      if l.rows.head?.all fun r => cmp r.key key == .eq then
        match l.prev with
        | none => pure .NotFound
        | some prev_pid => do
          let left ← fetch_leaf prev_pid
          if left.high_key ≠ [] ∧ cmp left.high_key key = .eq then
            find_visible_chain fuel key txn prev_pid left
          else pure .Restart
      else pure .NotFound

/-! ## The operations -/

def get : Nat → Bytes → Transaction → Act (Option Bytes)
  | 0, _, _ => Prog.stuck
  | fuel + 1, key, txn => do
    let w ← Prog.read
    let (leaf_pid, _) ← descend cmp fuel key w.root []
    let (pid, l) ← move_right cmp fuel key leaf_pid
    let found ← find_visible_chain cmp fuel key txn pid l
    match found with
    | .Found _ _ r => do
      let value ← reify_value r
      pure (some value)
    | .NotFound => pure none
    | .Restart => get fuel key txn

/-- The version that an insert or update by the transaction stores. -/
def newRow (key value : Bytes) (pages : List Nat) (txn : Transaction) : Row :=
  { key, value, pages, xmin := txn.txn_id, xmax := 0 }

/-- The last part of an insert, with the landing page latched. -/
def insert_at (fuel : Nat) (key value : Bytes) (txn : Transaction) (pid : Nat)
    (stack : List Nat) : Act Unit := do
  let pages ← materialize_value value
  let l ← held pid
  if l.CanFit (newRow key value pages txn) then place cmp pid (newRow key value pages txn)
  else split_and_insert cmp fuel pid (newRow key value pages txn) stack

def insert_loop : Nat → Bytes → Bytes → Transaction → Act Unit
  | 0, _, _, _ => Prog.stuck
  | fuel + 1, key, value, txn => do
    let w ← Prog.read
    let (leaf_pid, stack) ← descend_finishing cmp fuel key w.root []
    let landed ← move_right_alive cmp fuel key leaf_pid
    match landed with
    | none => insert_loop fuel key value txn
    | some (pid, l) => do
      let verdict ← check_conflicts cmp fuel key txn pid l
      match verdict with
      | .ok _ => insert_at cmp fuel key value txn pid stack
      | .error (.WaitFor blocking_txn) => do
        wait_for_txn blocking_txn txn.txn_id
        insert_loop fuel key value txn
      | .error e => Prog.fail e

def insert (fuel : Nat) (key value : Bytes) (txn : Transaction) : Act Unit :=
  if key.length > MAX_KEY_SIZE then Prog.fail (.KeyTooLarge key.length MAX_KEY_SIZE)
  else insert_loop cmp fuel key value txn

/-- The version that a delete or an update may stamp: the landing page, and the page and slot of
the version. -/
def claim_visible : Nat → Bytes → Transaction → Nat → Act (Nat × Nat × Nat)
  | 0, _, _, _ => Prog.stuck
  | fuel + 1, key, txn, leaf_pid => do
    let (landing_pid, l) ← move_right cmp fuel key leaf_pid
    let found ← find_visible_chain cmp fuel key txn landing_pid l
    match found with
    | .NotFound => Prog.fail .KeyNotFound
    | .Restart => claim_visible fuel key txn leaf_pid
    | .Found vis_pid slot r => do
      let w ← Prog.read
      match check_write_conflict w.tm txn r.xmax with
      | .ok _ => pure (landing_pid, vis_pid, slot)
      | .error (.WaitFor blocking_txn) => do
        wait_for_txn blocking_txn txn.txn_id
        claim_visible fuel key txn leaf_pid
      | .error e => Prog.fail e

def delete (fuel : Nat) (key : Bytes) (txn : Transaction) : Act Unit := do
  let w ← Prog.read
  let (leaf_pid, _) ← descend cmp fuel key w.root []
  let (_, vis_pid, slot) ← claim_visible cmp fuel key txn leaf_pid
  set_xmax vis_pid slot txn.txn_id

/-- The page that takes the new version of an update: the page of the old one, or the landing page
latched again. -/
def insertion_page (fuel : Nat) (key : Bytes) (landing_pid vis_pid : Nat) : Act Nat :=
  if vis_pid ≠ landing_pid then do
    let (pid, _) ← move_right cmp fuel key landing_pid
    pure pid
  else pure vis_pid

/-- The new version of an update goes on the page, or into a half of it. -/
def insert_version (fuel : Nat) (r : Row) (pid : Nat) (stack : List Nat) : Act Unit := do
  let l ← held pid
  if l.CanFit r then place_logged cmp pid r else split_and_insert cmp fuel pid r stack

def update (fuel : Nat) (key value : Bytes) (txn : Transaction) : Act Unit :=
  if key.length > MAX_KEY_SIZE then Prog.fail (.KeyTooLarge key.length MAX_KEY_SIZE)
  else do
    let w ← Prog.read
    let (leaf_pid, stack) ← descend cmp fuel key w.root []
    let (landing_pid, vis_pid, slot) ← claim_visible cmp fuel key txn leaf_pid
    let pages ← materialize_value value
    set_xmax vis_pid slot txn.txn_id
    let pid ← insertion_page cmp fuel key landing_pid vis_pid
    insert_version cmp fuel (newRow key value pages txn) pid stack

end FluxDB.Tree
