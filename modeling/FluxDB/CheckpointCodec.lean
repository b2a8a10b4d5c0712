-- The payload of a Checkpoint record: five numbers and two lists of ids with their lengths in
-- front. What `log_checkpoint` writes is read back exactly, and `from_bytes` accepts nothing else.
import FluxDB.Lib.Bytes
import FluxDB.Lib.Outcome
import FluxDB.StatusScan

namespace FluxDB.Checkpoint

open Bytes List

/-! ## The payload -/

structure CheckpointData extends FluxDB.CheckpointData UInt64 where
  root_pid : UInt64
  deriving DecidableEq, Repr

def idBytes (id : UInt64) : Bytes := leBytes 8 id.toNat

/-- A list of ids with its length in front. The length is cut to 32 bits. -/
def listBytes (ids : List UInt64) : Bytes := leBytes 4 ids.length ++ ids.flatMap idBytes

/-- The five numbers in front of the lists. -/
def CheckpointData.head (d : CheckpointData) : Bytes :=
  idBytes d.redo_point ++ idBytes d.next_txn_id ++ idBytes d.vacuum_horizon ++ idBytes d.root_pid ++
    idBytes d.next_page_id

/-- The `main_data` of `log_checkpoint`. -/
def CheckpointData.payload (d : CheckpointData) : Bytes :=
  d.head ++ (listBytes d.active_txns ++ listBytes d.pinned_aborted)

/-! ## Reading it -/

inductive WalError
  | CorruptedLog (text : String)
  deriving DecidableEq, Repr

/-- What reads a payload. It may panic, and its state is the capacities reserved so far. -/
abbrev Reader := Prog WalError (List Nat)

/-- `data[pos..pos + len]`. -/
def slice (data : Bytes) (pos len : Nat) : Reader Bytes :=
  if pos + len ≤ data.length then pure ((data.drop pos).take len) else Prog.panic

def read_u64 (data : Bytes) (pos : Nat) : Reader UInt64 := do
  let bs ← slice data pos 8
  pure (UInt64.ofNat (leNat bs))

def read_u32 (data : Bytes) (pos : Nat) : Reader Nat := do
  let bs ← slice data pos 4
  pure (leNat bs)

/-- `Vec::with_capacity`. -/
def reserve (capacity : Nat) : Reader Unit := Prog.modify fun reserved => reserved ++ [capacity]

/-- The loop that reads so many ids. -/
def read_ids (data : Bytes) (truncated : String) :
    Nat → Nat → List UInt64 → Reader (List UInt64 × Nat)
  | 0, pos, ids => pure (ids, pos)
  | count + 1, pos, ids =>
    if pos + 8 > data.length then Prog.fail (.CorruptedLog truncated)
    else do
      let id ← read_u64 data pos
      read_ids data truncated count (pos + 8) (ids ++ [id])

/-- One of the two lists and the place behind it. Behind it `room` more bytes are needed. -/
def read_list (data : Bytes) (pos room : Nat) (missing exceeds truncated : String) :
    Reader (List UInt64 × Nat) :=
  if pos + 4 > data.length then Prog.fail (.CorruptedLog missing)
  else do
    let count ← read_u32 data pos
    if count > (data.length - (pos + 4 + room)) / 8 then Prog.fail (.CorruptedLog exceeds)
    else do
      reserve count
      read_ids data truncated count (pos + 4) []

/-- The part of `from_bytes` behind the five numbers. -/
def read_lists (data : Bytes) (numbers : CheckpointData) : Reader CheckpointData := do
  let (active_txns, pos) ← read_list data 40 4 "Missing active_txns count"
    "active_txns count exceeds remaining checkpoint payload" "Truncated active_txns array"
  let (pinned_aborted, pos) ← read_list data pos 0 "Missing pinned_aborted count"
    "pinned_aborted count exceeds remaining checkpoint payload" "Truncated pinned_aborted array"
  let expected := data.length
  if pos ≠ expected then
    Prog.fail (.CorruptedLog
      s!"Unparsed trailing bytes in checkpoint: expected {expected}, got {pos}")
  else pure { numbers with active_txns, pinned_aborted }

def from_bytes (data : Bytes) : Reader CheckpointData :=
  if data.length < 48 then
    Prog.fail (.CorruptedLog "Checkpoint data too short (need >= 48 bytes)")
  else do
    let redo_point ← read_u64 data 0
    let next_txn_id ← read_u64 data 8
    let vacuum_horizon ← read_u64 data 16
    let root_pid ← read_u64 data 24
    let next_page_id ← read_u64 data 32
    read_lists data { redo_point, next_txn_id, vacuum_horizon, root_pid, next_page_id,
                      active_txns := [], pinned_aborted := [] }

/-! ## Numbers and lists in a payload -/

variable {data front mid back : Bytes} {pos len n : Nat} {reserved : List Nat}

@[simp] theorem length_idBytes (id : UInt64) : (idBytes id).length = 8 := length_leBytes 8 _

@[simp] theorem length_ids (ids : List UInt64) : (ids.flatMap idBytes).length = 8 * ids.length := by
  induction ids with
  | nil => rfl
  | cons id ids ih =>
    rw [flatMap_cons, length_append, length_idBytes, ih, length_cons]
    omega

@[simp] theorem length_listBytes (ids : List UInt64) :
    (listBytes ids).length = 4 + 8 * ids.length := by
  unfold listBytes
  rw [length_append, length_leBytes, length_ids]

@[simp] theorem CheckpointData.length_head (d : CheckpointData) : d.head.length = 40 := by
  simp [CheckpointData.head]

theorem exists_idBytes (h : 8 ≤ data.length) : ∃ id rest, data = idBytes id ++ rest := by
  have htake : (data.take 8).length = 8 := length_take_of_le h
  have hlt : leNat (data.take 8) < 2 ^ 64 := by
    have hle := leNat_lt (data.take 8)
    rw [htake] at hle
    exact hle
  refine ⟨UInt64.ofNat (leNat (data.take 8)), data.drop 8, ?_⟩
  unfold idBytes
  rw [UInt64.toNat_ofNat_of_lt' hlt, leBytes_leNat htake, take_append_drop]

theorem exists_ids (h : 8 * n ≤ data.length) :
    ∃ (ids : List UInt64) (rest : Bytes), ids.length = n ∧ data = ids.flatMap idBytes ++ rest := by
  induction n generalizing data with
  | zero => exact ⟨[], data, rfl, rfl⟩
  | succ n ih =>
    obtain ⟨id, rest, rfl⟩ := exists_idBytes (by omega : 8 ≤ data.length)
    rw [length_append, length_idBytes] at h
    obtain ⟨ids, rest, rfl, rfl⟩ := ih (by omega : 8 * n ≤ rest.length)
    refine ⟨id :: ids, rest, rfl, ?_⟩
    rw [flatMap_cons, append_assoc]

theorem slice_mid (hdata : data = front ++ (mid ++ back)) (hpos : front.length = pos)
    (hlen : mid.length = len) : slice data pos len reserved = .ok mid reserved := by
  subst hdata hpos hlen
  unfold slice
  rw [if_pos (by simp), drop_left, take_left]
  rfl

theorem read_u64_mid {id : UInt64} (hdata : data = front ++ (idBytes id ++ back))
    (hpos : front.length = pos) : read_u64 data pos reserved = .ok id reserved := by
  unfold read_u64
  rw [Prog.bind_of_ok (slice_mid hdata hpos (length_idBytes id))]
  exact congrArg (Outcome.ok · reserved) (ofNat_leNat_leBytes id)

theorem read_u32_mid (hdata : data = front ++ (leBytes 4 n ++ back)) (hpos : front.length = pos)
    (hn : n < 2 ^ 32) : read_u32 data pos reserved = .ok n reserved := by
  unfold read_u32
  rw [Prog.bind_of_ok (slice_mid hdata hpos (length_leBytes 4 n))]
  exact congrArg (Outcome.ok · reserved) (leNat_leBytes_of_lt hn)

theorem read_ids_mid {truncated : String} {ids done : List UInt64}
    (hdata : data = front ++ (ids.flatMap idBytes ++ back)) (hpos : front.length = pos) :
    read_ids data truncated ids.length pos done reserved =
      .ok (done ++ ids, pos + 8 * ids.length) reserved := by
  induction ids generalizing front pos done with
  | nil =>
    rw [append_nil]
    rfl
  | cons id ids ih =>
    rw [flatMap_cons, append_assoc] at hdata
    have hlen : ¬ pos + 8 > data.length := by
      rw [hdata, length_append, length_append, length_idBytes, hpos]
      omega
    have hnext : data = (front ++ idBytes id) ++ (ids.flatMap idBytes ++ back) := by
      rw [hdata, append_assoc]
    have hplace : (front ++ idBytes id).length = pos + 8 := by
      rw [length_append, length_idBytes, hpos]
    rw [length_cons]
    unfold read_ids
    rw [if_neg hlen, Prog.bind_of_ok (read_u64_mid hdata hpos), ih hnext hplace]
    have hcount : pos + 8 + 8 * ids.length = pos + 8 * (ids.length + 1) := by omega
    rw [append_assoc, hcount]
    rfl

section Lists

/-- A list that stands in the data is read, and as much as it needs is reserved. -/
theorem read_list_mid {room : Nat} {missing exceeds truncated : String} {ids : List UInt64}
    (hdata : data = front ++ (listBytes ids ++ back))
    (hpos : front.length = pos) (hids : ids.length < 2 ^ 32) (hroom : room ≤ back.length) :
    read_list data pos room missing exceeds truncated reserved =
      .ok (ids, pos + (listBytes ids).length) (reserved ++ [ids.length]) := by
  have hlength : data.length = pos + (4 + 8 * ids.length + back.length) := by
    rw [hdata, length_append, length_append, length_listBytes, hpos]
  unfold listBytes at hdata
  rw [append_assoc] at hdata
  have hcount : ¬ ids.length > (data.length - (pos + 4 + room)) / 8 := by omega
  have hnext : data = (front ++ leBytes 4 ids.length) ++ (ids.flatMap idBytes ++ back) := by
    rw [hdata, append_assoc]
  have hplace : (front ++ leBytes 4 ids.length).length = pos + 4 := by
    rw [length_append, length_leBytes, hpos]
  unfold read_list
  rw [if_neg (by omega), Prog.bind_of_ok (read_u32_mid hdata hpos hids), if_neg hcount]
  rw [length_listBytes, ← Nat.add_assoc]
  exact read_ids_mid hnext hplace

/-- Either there is a list at this place, or reading it fails before anything is reserved. -/
theorem read_list_cases (room : Nat) (hdata : data = front ++ back) (hpos : front.length = pos)
    (hroom : 4 ≤ back.length → 4 + room ≤ back.length) :
    (∀ missing exceeds truncated reserved, ∃ e,
        read_list data pos room missing exceeds truncated reserved = .err e reserved) ∨
      ∃ ids rest, back = listBytes ids ++ rest ∧ ids.length < 2 ^ 32 ∧ room ≤ rest.length := by
  have hlength : data.length = pos + back.length := by
    rw [hdata, length_append, hpos]
  by_cases hshort : pos + 4 > data.length
  · left
    intro missing exceeds truncated reserved
    unfold read_list
    rw [if_pos hshort]
    exact ⟨_, rfl⟩
  have htake : (back.take 4).length = 4 := length_take_of_le (by omega)
  have hback : back = leBytes 4 (leNat (back.take 4)) ++ back.drop 4 := by
    rw [leBytes_leNat htake, take_append_drop]
  have hlt : leNat (back.take 4) < 2 ^ 32 := by
    have hle := leNat_lt (back.take 4)
    rw [htake] at hle
    exact hle
  have hread : ∀ reserved, read_u32 data pos reserved = .ok (leNat (back.take 4)) reserved :=
    fun _ => read_u32_mid (hdata.trans (congrArg (front ++ ·) hback)) hpos hlt
  by_cases hcount : leNat (back.take 4) > (data.length - (pos + 4 + room)) / 8
  · left
    intro missing exceeds truncated reserved
    unfold read_list
    rw [if_neg hshort, Prog.bind_of_ok (hread reserved), if_pos hcount]
    exact ⟨_, rfl⟩
  right
  have hlong : 8 * leNat (back.take 4) + room ≤ (back.drop 4).length := by
    rw [length_drop]
    omega
  have henough : 8 * leNat (back.take 4) ≤ (back.drop 4).length := by omega
  obtain ⟨ids, rest, hids, hrest⟩ := exists_ids henough
  refine ⟨ids, rest, ?_, hids ▸ hlt, ?_⟩
  · unfold listBytes
    rw [hids, append_assoc, ← hrest]
    exact hback
  rw [hrest, length_append, length_ids] at hlong
  omega

end Lists

/-! ## Whole payloads -/

theorem from_bytes_head {d : CheckpointData} {rest : Bytes} (hdata : data = d.head ++ rest)
    (hrest : 8 ≤ rest.length) : from_bytes data reserved =
      read_lists data { d with active_txns := [], pinned_aborted := [] } reserved := by
  have hlength : data.length = 40 + rest.length := by
    rw [hdata, length_append, CheckpointData.length_head]
  have hread : ∀ (front back : Bytes) (id : UInt64) (pos : Nat),
      front ++ (idBytes id ++ back) = d.head ++ rest → front.length = pos →
      read_u64 data pos reserved = .ok id reserved := fun front back id pos h hpos =>
    read_u64_mid (hdata.trans h.symm) hpos
  have h₀ := hread [] (idBytes d.next_txn_id ++ idBytes d.vacuum_horizon ++ idBytes d.root_pid ++
    idBytes d.next_page_id ++ rest) d.redo_point 0 (by simp [CheckpointData.head]) rfl
  have h₁ := hread (idBytes d.redo_point) (idBytes d.vacuum_horizon ++ idBytes d.root_pid ++
    idBytes d.next_page_id ++ rest) d.next_txn_id 8 (by simp [CheckpointData.head]) (by simp)
  have h₂ := hread (idBytes d.redo_point ++ idBytes d.next_txn_id) (idBytes d.root_pid ++
    idBytes d.next_page_id ++ rest) d.vacuum_horizon 16 (by simp [CheckpointData.head]) (by simp)
  have h₃ := hread (idBytes d.redo_point ++ idBytes d.next_txn_id ++ idBytes d.vacuum_horizon)
    (idBytes d.next_page_id ++ rest) d.root_pid 24 (by simp [CheckpointData.head]) (by simp)
  have h₄ := hread (idBytes d.redo_point ++ idBytes d.next_txn_id ++ idBytes d.vacuum_horizon ++
    idBytes d.root_pid) rest d.next_page_id 32 (by simp [CheckpointData.head]) (by simp)
  unfold from_bytes
  rw [if_neg (by omega), Prog.bind_of_ok h₀, Prog.bind_of_ok h₁, Prog.bind_of_ok h₂,
    Prog.bind_of_ok h₃, Prog.bind_of_ok h₄]

theorem exists_head (h : 48 ≤ data.length) :
    ∃ (d : CheckpointData) (rest : Bytes), data = d.head ++ rest ∧ 8 ≤ rest.length := by
  obtain ⟨ids, rest, hids, hrest⟩ := exists_ids (by omega : 8 * 5 ≤ data.length)
  match ids, hids with
  | [redo_point, next_txn_id, vacuum_horizon, root_pid, next_page_id], _ =>
    refine ⟨⟨⟨redo_point, next_txn_id, [], [], vacuum_horizon, next_page_id⟩, root_pid⟩, rest,
      ?_, ?_⟩
    · rw [hrest]
      simp [CheckpointData.head]
    rw [hrest, length_append, length_ids] at h
    simp only [length_cons, length_nil] at h
    omega

section Lists

variable {numbers : CheckpointData} {active pinned : List UInt64} {rest : Bytes}

/-- Two lists are read if nothing stands behind them. -/
theorem read_lists_mid
    (hdata : data = numbers.head ++ (listBytes active ++ (listBytes pinned ++ rest)))
    (hactive : active.length < 2 ^ 32) (hpinned : pinned.length < 2 ^ 32) :
    (rest = [] → read_lists data numbers reserved =
      .ok { numbers with active_txns := active, pinned_aborted := pinned }
        (reserved ++ [active.length] ++ [pinned.length])) ∧
    (rest ≠ [] → ∃ e, read_lists data numbers reserved =
      .err e (reserved ++ [active.length] ++ [pinned.length])) := by
  have hplace : (numbers.head ++ listBytes active).length = 40 + (listBytes active).length := by
    rw [length_append, CheckpointData.length_head]
  have hnext : data = (numbers.head ++ listBytes active) ++ (listBytes pinned ++ rest) := by
    rw [hdata, append_assoc]
  have hlength : data.length = 40 + (listBytes active).length + (listBytes pinned).length +
      rest.length := by
    rw [hnext, length_append, hplace, length_append]
    omega
  have hfour : 4 ≤ (listBytes pinned ++ rest).length := by
    rw [length_append, length_listBytes]
    omega
  unfold read_lists
  rw [Prog.bind_of_ok (read_list_mid hdata numbers.length_head hactive hfour)]
  dsimp only
  rw [Prog.bind_of_ok (read_list_mid hnext hplace hpinned (Nat.zero_le _))]
  dsimp only
  refine ⟨fun hrest => ?_, fun hrest => ?_⟩
  · rw [hrest, length_nil] at hlength
    rw [if_neg (by omega)]
    rfl
  have hpos := length_pos_iff.mpr hrest
  rw [if_pos (by omega)]
  exact ⟨_, rfl⟩

/-- Otherwise reading them fails, and no more is reserved than there are bytes for. -/
theorem read_lists_cases (reserved : List Nat) (hdata : data = numbers.head ++ rest)
    (hrest : 8 ≤ rest.length) :
    (∃ active pinned, rest = listBytes active ++ listBytes pinned ∧ active.length < 2 ^ 32 ∧
      pinned.length < 2 ^ 32) ∨
    ∃ e more, read_lists data numbers reserved = .err e (reserved ++ more) ∧
      8 * more.sum ≤ rest.length := by
  rcases read_list_cases 4 hdata numbers.length_head (fun _ => hrest) with
    hfails | ⟨active, back, rfl, hactive, hroom⟩
  · obtain ⟨e, he⟩ := hfails _ _ _ reserved
    right
    refine ⟨e, [], ?_, Nat.zero_le _⟩
    unfold read_lists
    rw [Prog.bind_of_err he, append_nil]
  have hplace : (numbers.head ++ listBytes active).length = 40 + (listBytes active).length := by
    rw [length_append, CheckpointData.length_head]
  have hnext : data = (numbers.head ++ listBytes active) ++ back := by
    rw [hdata, append_assoc]
  rcases read_list_cases 0 hnext hplace (fun h => h) with hfails | ⟨pinned, last, rfl, hpinned, -⟩
  · obtain ⟨e, he⟩ := hfails _ _ _ (reserved ++ [active.length])
    right
    refine ⟨e, [active.length], ?_, ?_⟩
    · unfold read_lists
      rw [Prog.bind_of_ok (read_list_mid hdata numbers.length_head hactive hroom)]
      dsimp only
      rw [Prog.bind_of_err he]
    rw [length_append, length_listBytes, sum_singleton]
    omega
  by_cases hlast : last = []
  · left
    subst hlast
    exact ⟨active, pinned, by rw [append_nil], hactive, hpinned⟩
  right
  obtain ⟨e, he⟩ := (read_lists_mid hdata hactive hpinned).2 hlast
  refine ⟨e, [active.length, pinned.length], ?_, ?_⟩
  · rw [he, append_assoc]
    rfl
  simp only [length_append, length_listBytes, sum_cons, sum_nil]
  omega

end Lists

/-- What `log_checkpoint` writes is read back. -/
theorem from_bytes_payload (d : CheckpointData) (hactive : d.active_txns.length < 2 ^ 32)
    (hpinned : d.pinned_aborted.length < 2 ^ 32) : from_bytes d.payload reserved =
      .ok d (reserved ++ [d.active_txns.length] ++ [d.pinned_aborted.length]) := by
  have hlength : 8 ≤ (listBytes d.active_txns ++ listBytes d.pinned_aborted).length := by
    rw [length_append, length_listBytes, length_listBytes]
    omega
  have hdata : d.payload = CheckpointData.head { d with active_txns := [], pinned_aborted := [] } ++
      (listBytes d.active_txns ++ (listBytes d.pinned_aborted ++ [])) := by
    rw [append_nil]
    rfl
  calc from_bytes d.payload reserved
      = read_lists d.payload { d with active_txns := [], pinned_aborted := [] } reserved :=
        from_bytes_head rfl hlength
    _ = _ := (read_lists_mid hdata hactive hpinned).1 rfl

/-- What `from_bytes` makes of a byte string: a checkpoint with this payload, or an error. It does
not panic, and it reserves no more than there are bytes for. -/
theorem from_bytes_cases (data : Bytes) :
    (∃ d : CheckpointData, d.payload = data ∧ from_bytes data [] =
      .ok d [d.active_txns.length, d.pinned_aborted.length]) ∨
    ∃ e reserved, from_bytes data [] = .err e reserved ∧ 8 * reserved.sum ≤ data.length := by
  by_cases hshort : data.length < 48
  · right
    refine ⟨.CorruptedLog "Checkpoint data too short (need >= 48 bytes)", [], ?_, Nat.zero_le _⟩
    unfold from_bytes
    rw [if_pos hshort]
    rfl
  obtain ⟨d, rest, hdata, hrest⟩ := exists_head (by omega : 48 ≤ data.length)
  have hnumbers : data =
      CheckpointData.head { d with active_txns := [], pinned_aborted := [] } ++ rest := hdata
  rcases read_lists_cases [] hnumbers hrest with
    ⟨active, pinned, rfl, hactive, hpinned⟩ | ⟨e, more, he, hmore⟩
  · left
    have hpayload : CheckpointData.payload
        { d with active_txns := active, pinned_aborted := pinned } = data := hdata.symm
    refine ⟨_, hpayload, ?_⟩
    rw [← hpayload]
    exact from_bytes_payload { d with active_txns := active, pinned_aborted := pinned }
      hactive hpinned
  right
  refine ⟨e, more, ?_, ?_⟩
  · rw [from_bytes_head hdata hrest]
    exact he
  rw [hdata, length_append]
  omega

/-- A checkpoint whose lists have less than 2^32 ids is read back as it was written. From any bytes
`from_bytes` returns without a panic, it reserves room for no more ids than the bytes could hold,
and if it accepts them, they are the payload of what it returns. -/
theorem checkpoint_payloads_are_read_back_and_nothing_else :
    (∀ d : CheckpointData, d.active_txns.length < 2 ^ 32 → d.pinned_aborted.length < 2 ^ 32 →
      ∃ reserved, from_bytes d.payload [] = .ok d reserved) ∧
    ∀ data : Bytes, ∃ reserved : List Nat, 8 * reserved.sum ≤ data.length ∧
      ((∃ d : CheckpointData, from_bytes data [] = .ok d reserved ∧ d.payload = data) ∨
        ∃ e, from_bytes data [] = .err e reserved) := by
  refine ⟨fun d hactive hpinned => ⟨_, from_bytes_payload d hactive hpinned⟩, fun data => ?_⟩
  rcases from_bytes_cases data with ⟨d, hpayload, hok⟩ | ⟨e, reserved, herr, hle⟩
  · refine ⟨_, ?_, Or.inl ⟨d, hok, hpayload⟩⟩
    rw [← hpayload]
    unfold CheckpointData.payload
    simp only [List.length_append, length_listBytes, List.sum_cons, List.sum_nil]
    omega
  · exact ⟨reserved, hle, Or.inr ⟨e, herr⟩⟩

example : from_bytes (CheckpointData.payload ⟨⟨1, 2, [6], [], 3, 5⟩, 4⟩) [] =
    .ok ⟨⟨1, 2, [6], [], 3, 5⟩, 4⟩ [1, 0] := by decide +kernel

end FluxDB.Checkpoint
