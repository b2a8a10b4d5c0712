-- Values come back from their encodings, for every type. The encodings of the items of a container
-- stand one behind the other; a cursor walks over them with the width, the table of offsets or the
-- lengths, and each item is read from exactly the bytes that were written for it.
import FluxDB.Lib.Alike
import FluxDB.ValueTypes

namespace FluxDB.Types

open Bytes List Except Option

/-- What a type's encoding promises. -/
structure Lawful {α : Type} (V : ValueType α) : Prop where
  round : ∀ v bytes, V.as_bytes v = .ok bytes → bytes.length < 2 ^ 32 → V.from_bytes bytes = some v
  width : ∀ w, V.fixed_width = some w → ∀ v, ∃ bytes, V.as_bytes v = .ok bytes ∧ bytes.length = w
  panics : ∀ v len, V.as_bytes v = .error len → 2 ^ 32 ≤ len

/-! ## Parts of a byte string -/

variable {α γ : Type} {data front mid back : Bytes} {start stop : Nat}

theorem slice_mid (hdata : data = front ++ (mid ++ back)) (hstart : front.length = start)
    (hstop : start + mid.length = stop) : slice data start stop = some mid := by
  subst hdata hstart hstop
  unfold slice
  rw [if_pos (by simp), drop_left, Nat.add_sub_cancel_left, take_left]

theorem decode_usize_varint_mid {n offset : Nat}
    (hdata : data = front ++ (encode_usize_varint n ++ back)) (hoffset : front.length = offset)
    (hn : n < 2 ^ 64) : decode_usize_varint data offset =
      some (n, offset + (encode_usize_varint n).length) := by
  unfold decode_usize_varint
  rw [Varint.decode_encode hdata hoffset (by omega) (by omega) (by omega) (by omega)]
  simp [encode_usize_varint]

/-! ## Writing items -/

/-- The encodings of the items. -/
def Writes (write : α → Except Nat Bytes) (items : List α) (encs : List Bytes) :
    Prop := List.Forall₂ (fun item bytes => write item = .ok bytes) items encs

section Write

variable {write : α → Except Nat Bytes} {items : List α} {encs : List Bytes}
  {result out : Bytes} {len : Nat}

theorem extendAll_ok (h : extendAll write items result = .ok out) :
    ∃ encs, Writes write items encs ∧ out = result ++ encs.flatten := by
  induction items generalizing result with
  | nil =>
    cases h
    exact ⟨[], .nil, by simp⟩
  | cons item items ih =>
    unfold extendAll at h
    obtain ⟨bytes, hitem, h⟩ := bind_eq_ok.mp h
    obtain ⟨encs, hencs, rfl⟩ := ih h
    exact ⟨bytes :: encs, .cons hitem hencs, by simp⟩

theorem extendAll_of_writes (h : Writes write items encs) :
    extendAll write items result = .ok (result ++ encs.flatten) := by
  induction h generalizing result with
  | nil => simp [extendAll]
  | cons hitem _ ih =>
    unfold extendAll
    rw [hitem]
    refine ih.trans ?_
    rw [flatten_cons, append_assoc]

theorem extendAll_error (h : extendAll write items result = .error len) :
    ∃ item, write item = .error len := by
  induction items generalizing result with
  | nil => cases h
  | cons item items ih =>
    unfold extendAll at h
    rcases bind_eq_error.mp h with hitem | ⟨bytes, -, h⟩
    · exact ⟨item, hitem⟩
    · exact ih h

/-- Where the items end, if the first begins here. -/
def ends : Nat → List Bytes → List Nat
  | _, [] => []
  | start, bytes :: encs => (start + bytes.length) :: ends (start + bytes.length) encs

/-- The table of offsets. -/
def table (start : Nat) (encs : List Bytes) : Bytes :=
  (ends start encs).flatMap (leBytes 4)

theorem table_cons (start : Nat) (bytes : Bytes) (encs : List Bytes) :
    table start (bytes :: encs) =
      leBytes 4 (start + bytes.length) ++ table (start + bytes.length) encs := flatMap_cons

theorem length_ends (start : Nat) (encs : List Bytes) :
    (ends start encs).length = encs.length := by
  induction encs generalizing start with
  | nil => rfl
  | cons bytes encs ih =>
    unfold ends
    rw [length_cons, length_cons, ih]

theorem length_table (start : Nat) (encs : List Bytes) :
    (table start encs).length = 4 * encs.length := by
  unfold table
  rw [← length_ends start encs]
  induction ends start encs with
  | nil => rfl
  | cons e es ih =>
    rw [flatMap_cons, length_append, length_leBytes, ih, length_cons]
    omega

variable {i : Nat}

/-- The end of an item takes the place of the first four zeros. -/
theorem fill_step {filled zeros rest field : Bytes} (hfilled : filled.length = 4 * i)
    (hzeros : 4 ≤ zeros.length) :
    (filled ++ zeros ++ rest).take (4 * i) ++ field ++ (filled ++ zeros ++ rest).drop
      (4 * (i + 1)) = (filled ++ field) ++ zeros.drop 4 ++ rest := by
  have hdata : filled ++ zeros ++ rest = (filled ++ zeros.take 4) ++ (zeros.drop 4 ++ rest) := by
    rw [append_assoc filled (zeros.take 4), ← append_assoc (zeros.take 4),
      take_append_drop, append_assoc]
  have hplace : (filled ++ zeros.take 4).length = 4 * (i + 1) := by
    rw [length_append, length_take_of_le hzeros]
    omega
  have hdrop : (filled ++ zeros ++ rest).drop (4 * (i + 1)) = zeros.drop 4 ++ rest := by
    rw [hdata, ← hplace, drop_left]
  rw [hdrop, ← hfilled, append_assoc filled zeros, take_left]
  simp only [append_assoc]

/-- The table is filled from the front while the items are appended at the back. -/
theorem fillOffsets_ok {filled zeros written : Bytes} (hfilled : filled.length = 4 * i)
    (hzeros : zeros.length = 4 * items.length)
    (h : fillOffsets write items i (filled ++ zeros ++ written) = .ok out) :
    ∃ encs, Writes write items encs ∧
      out = filled ++ table (filled ++ zeros ++ written).length encs ++ written ++ encs.flatten ∧
      ∀ e ∈ ends (filled ++ zeros ++ written).length encs, e < 2 ^ 32 := by
  induction items generalizing filled zeros written i with
  | nil =>
    obtain rfl := length_eq_zero_iff.mp hzeros
    cases h
    exact ⟨[], .nil, by simp [table, ends], nofun⟩
  | cons item items ih =>
    unfold fillOffsets at h
    obtain ⟨bytes, hitem, h⟩ := bind_eq_ok.mp h
    change (if (filled ++ zeros ++ written ++ bytes).length < 2 ^ 32 then _ else _) = _ at h
    have hstop : (filled ++ zeros ++ written ++ bytes).length =
        (filled ++ zeros ++ written).length + bytes.length := length_append
    rw [hstop, append_assoc (filled ++ zeros)] at h
    split at h
    case isFalse => cases h
    case isTrue hfits =>
    rw [length_cons] at hzeros
    rw [fill_step hfilled (by omega)] at h
    have hlength : ((filled ++ leBytes 4 ((filled ++ zeros ++ written).length + bytes.length)) ++
        zeros.drop 4 ++ (written ++ bytes)).length =
        (filled ++ zeros ++ written).length + bytes.length := by
      simp only [length_append, length_leBytes, length_drop]
      omega
    obtain ⟨encs, hencs, rfl, hends⟩ := ih
      (by rw [length_append, length_leBytes]; omega) (by rw [length_drop]; omega) h
    rw [hlength] at hends ⊢
    refine ⟨bytes :: encs, .cons hitem hencs, ?_, ?_⟩
    · rw [table_cons]
      simp only [append_assoc, flatten_cons]
    intro e he
    unfold ends at he
    rcases mem_cons.mp he with rfl | he
    · exact hfits
    · exact hends e he

theorem fillOffsets_error (h : fillOffsets write items i result = .error len) :
    2 ^ 32 ≤ len ∨ ∃ item, write item = .error len := by
  induction items generalizing result i with
  | nil => cases h
  | cons item items ih =>
    unfold fillOffsets at h
    rcases bind_eq_error.mp h with hitem | ⟨bytes, -, h⟩
    · exact .inr ⟨item, hitem⟩
    change (if (result ++ bytes).length < 2 ^ 32 then _ else _) = _ at h
    split at h
    · exact ih h
    rename_i hfits
    cases h
    exact .inl (Nat.le_of_not_lt hfits)

end Write

/-! ## Walking over items -/

/-- The cursor gives these byte strings, one after the other. -/
def Walks (next : γ → Option (Bytes × γ)) : γ → List Bytes → Prop
  | _, [] => True
  | cursor, bytes :: encs =>
    ∃ cursor', next cursor = some (bytes, cursor') ∧ Walks next cursor' encs

theorem readItems_walks {next : γ → Option (Bytes × γ)} {read : Bytes → Option α}
    {cursor : γ} {items : List α} {encs : List Bytes} (h : Walks next cursor encs)
    (hread : List.Forall₂ (fun item bytes => read bytes = some item) items encs) :
    readItems next read items.length cursor = some items := by
  induction hread generalizing cursor with
  | nil => rfl
  | cons hitem _ ih =>
    obtain ⟨cursor', hnext, hrest⟩ := h
    rw [length_cons]
    unfold readItems
    rw [hnext, bind_eq_bind, bind_some]
    dsimp only
    rw [hitem, bind_eq_bind, bind_some, ih hrest]
    rfl

section Layouts

variable {encs : List Bytes} {fixed i offset : Nat}

/-- Items of one width, from the places that the cursor stands for. -/
theorem walks_fixed {next : Nat → Option (Bytes × Nat)} (place : Nat → Nat) (step : Nat)
    (hnext : ∀ c, next c = (slice data (place c) (place c + fixed)).bind fun bytes => some (bytes,
        c + step))
    (hplace : ∀ c, place (c + step) = place c + fixed)
    (hdata : data = front ++ (encs.flatten ++ back)) (hi : front.length = place i)
    (hwidth : ∀ bytes ∈ encs, bytes.length = fixed) : Walks next i encs := by
  induction encs generalizing front i with
  | nil => trivial
  | cons bytes encs ih =>
    rw [forall_mem_cons] at hwidth
    rw [flatten_cons, append_assoc] at hdata
    have hrest : data = (front ++ bytes) ++ (encs.flatten ++ back) := by
      rw [hdata, append_assoc]
    refine ⟨i + step, ?_, ih hrest ?_ hwidth.2⟩
    · rw [hnext, slice_mid hdata hi (by rw [hwidth.1])]
      rfl
    · rw [length_append, hi, hwidth.1, hplace]

theorem walks_itemByLength
    (hdata : data = front ++ ((encs.map fun bytes => encode_usize_varint bytes.length ++
          bytes).flatten ++ back))
    (hoffset : front.length = offset) (hlen : ∀ bytes ∈ encs, bytes.length < 2 ^ 64) :
    Walks (itemByLength data) offset encs := by
  induction encs generalizing front offset with
  | nil => trivial
  | cons bytes encs ih =>
    rw [forall_mem_cons] at hlen
    rw [map_cons, flatten_cons, append_assoc, append_assoc] at hdata
    have hplace : (front ++ encode_usize_varint bytes.length).length =
        offset + (encode_usize_varint bytes.length).length := by
      rw [length_append, hoffset]
    have hbytes : data = (front ++ encode_usize_varint bytes.length) ++ (bytes ++
        ((encs.map fun bytes => encode_usize_varint bytes.length ++ bytes).flatten ++ back)) := by
      rw [hdata, append_assoc]
    have hnext : data = (front ++ encode_usize_varint bytes.length ++ bytes) ++
        ((encs.map fun bytes => encode_usize_varint bytes.length ++ bytes).flatten ++ back) := by
      rw [append_assoc _ bytes, ← hbytes]
    refine ⟨offset + (encode_usize_varint bytes.length).length + bytes.length, ?_,
      ih hnext ?_ hlen.2⟩
    · unfold itemByLength
      rw [decode_usize_varint_mid hdata hoffset hlen.1, bind_eq_bind, bind_some]
      dsimp only
      rw [slice_mid hbytes hplace rfl]
      rfl
    · rw [length_append, hplace]

/-- Between the table and the items that are left stand the items already passed. -/
theorem walks_itemByOffset {passed : Bytes}
    (hdata : data = front ++ (table start encs ++ (passed ++ (encs.flatten ++ back))))
    (hi : front.length = 4 * i)
    (hstart : front.length + (table start encs).length + passed.length = start)
    (hends : ∀ e ∈ ends start encs, e < 2 ^ 32) : Walks (itemByOffset data) (i, start) encs := by
  induction encs generalizing front i start passed with
  | nil => trivial
  | cons bytes encs ih =>
    unfold ends at hends
    rw [forall_mem_cons] at hends
    rw [table_cons, append_assoc, flatten_cons, append_assoc] at hdata
    rw [table_cons, length_append, length_leBytes] at hstart
    have hfield : slice data (4 * i) (4 * (i + 1)) = some (leBytes 4 (start + bytes.length)) :=
      slice_mid hdata hi (by rw [length_leBytes]; omega)
    have hlen : leNat (leBytes 4 (start + bytes.length)) = start + bytes.length :=
      leNat_leBytes_of_lt hends.1
    have hbytes : data = (front ++ leBytes 4 (start + bytes.length) ++
        table (start + bytes.length) encs ++ passed) ++ (bytes ++ (encs.flatten ++ back)) := by
      rw [hdata]
      simp only [append_assoc]
    have hplace : (front ++ leBytes 4 (start + bytes.length) ++
        table (start + bytes.length) encs ++ passed).length = start := by
      simp only [length_append, length_leBytes]
      omega
    have hnext : data = (front ++ leBytes 4 (start + bytes.length)) ++
        (table (start + bytes.length) encs ++ ((passed ++ bytes) ++ (encs.flatten ++ back))) := by
      rw [hdata]
      simp only [append_assoc]
    refine ⟨(i + 1, start + bytes.length), ?_, ih hnext ?_ ?_ hends.2⟩
    · unfold itemByOffset
      dsimp only
      rw [hfield, bind_eq_bind, bind_some, hlen, slice_mid hbytes hplace rfl]
      rfl
    · rw [length_append, length_leBytes]
      omega
    simp only [length_append, length_leBytes]
    omega

end Layouts

/-! ## The base types -/

theorem lawful_unit : Lawful unitValue where
  round _ _ _ _ := rfl
  width _ hw _ := ⟨[], rfl, Option.some.inj hw⟩
  panics := nofun

theorem lawful_bool : Lawful boolValue where
  round v bytes h _ := by
    cases h
    cases v <;> rfl
  width w hw v := by
    refine ⟨_, rfl, ?_⟩
    rw [← Option.some.inj hw]
    cases v <;> rfl
  panics := nofun

theorem lawful_le (size : Nat) : Lawful (leValue size) where
  round v bytes h _ := by
    cases h
    have hlt : v.toNat < 256 ^ size := by
      have h := v.isLt
      rwa [pow_mul] at h
    change (if (leBytes size v.toNat).length = size then _ else _) = _
    rw [if_pos (length_leBytes size _), leNat_leBytes_of_lt hlt, BitVec.ofNat_toNat,
      BitVec.setWidth_eq]
  width _ hw v := ⟨_, rfl, (length_leBytes size _).trans (Option.some.inj hw)⟩
  panics := nofun

theorem lawful_char : Lawful charValue where
  round v bytes h _ := by
    cases h
    have hlt : v.toNat < 256 ^ 3 := by
      rcases v.valid with hv | hv
      · exact hv.trans (by decide)
      · exact hv.2.trans (by decide)
    have hback : leNat [UInt8.ofNat v.toNat, UInt8.ofNat (v.toNat / 256),
        UInt8.ofNat (v.toNat / 256 / 256), 0] = v.toNat := by
      have h3 : leNat (leBytes 3 v.toNat) = v.toNat := leNat_leBytes_of_lt hlt
      exact h3
    change from_u32 (leNat [UInt8.ofNat v.toNat, UInt8.ofNat (v.toNat / 256),
      UInt8.ofNat (v.toNat / 256 / 256), 0]) = some v
    rw [hback]
    unfold from_u32
    have hvalid : v.toNat.isValidChar := v.valid
    rw [if_pos hvalid, Char.ofNat_toNat]
  width _ hw _ := ⟨_, rfl, Option.some.inj hw⟩
  panics := nofun

theorem toByteArray_bytes (s : String) : (Utf8.bytes s).toByteArray = s.toByteArray :=
  s.utf8Encode_toList

theorem lawful_str : Lawful strValue where
  round v bytes h _ := by
    cases h
    have hvalid : (Utf8.bytes v).toByteArray.IsValidUTF8 := by
      rw [toByteArray_bytes]
      exact v.isValidUTF8
    change (if h : _ then _ else _) = _
    rw [dif_pos hvalid]
    congr 1
    exact String.toByteArray_inj.mp (toByteArray_bytes v)
  width := nofun
  panics := nofun

theorem lawful_bytes : Lawful bytesValue where
  round v bytes h _ := by
    cases h
    rfl
  width := nofun
  panics := nofun

theorem lawful_byteArray (n : Nat) : Lawful (byteArrayValue n) where
  round v bytes h _ := by
    cases h
    exact dif_pos v.2
  width _ hw v := ⟨_, rfl, v.2.trans (Option.some.inj hw)⟩
  panics := nofun

/-! ## The containers -/

section Containers

variable {T : ValueType α} {items : List α} {encs : List Bytes} {fixed : Nat}

/-- Each item is read back from its encoding. -/
theorem Writes.reads (hT : Lawful T) (h : Writes T.as_bytes items encs)
    (hlen : ∀ bytes ∈ encs, bytes.length < 2 ^ 32) :
    List.Forall₂ (fun item bytes => T.from_bytes bytes = some item) items encs := by
  induction h with
  | nil => exact .nil
  | cons hitem _ ih =>
    rw [forall_mem_cons] at hlen
    exact .cons (hT.round _ _ hitem hlen.1) (ih hlen.2)

theorem Writes.length_eq {write : α → Except Nat Bytes} (h : Writes write items encs) :
    encs.length = items.length := (List.Forall₂.length_eq h).symm

theorem Writes.width (hT : Lawful T) (hfixed : T.fixed_width = some fixed)
    (h : Writes T.as_bytes items encs) : ∀ bytes ∈ encs, bytes.length = fixed := by
  induction h with
  | nil => exact nofun
  | @cons item bytes _ _ hitem _ ih =>
    obtain ⟨bytes', hbytes', hlen⟩ := hT.width fixed hfixed item
    rw [hitem] at hbytes'
    cases hbytes'
    exact forall_mem_cons.mpr ⟨hlen, ih⟩

theorem exists_writes (hT : Lawful T) (hfixed : T.fixed_width = some fixed) (items : List α) :
    ∃ encs, Writes T.as_bytes items encs := by
  induction items with
  | nil => exact ⟨[], .nil⟩
  | cons item items ih =>
    obtain ⟨bytes, hbytes, -⟩ := hT.width fixed hfixed item
    obtain ⟨encs, hencs⟩ := ih
    exact ⟨bytes :: encs, .cons hbytes hencs⟩

theorem length_flatten_fixed (h : ∀ bytes ∈ encs, bytes.length = fixed) :
    encs.flatten.length = fixed * encs.length := by
  induction encs with
  | nil => rfl
  | cons bytes encs ih =>
    rw [forall_mem_cons] at h
    rw [flatten_cons, length_append, h.1, ih h.2, length_cons, Nat.mul_succ, Nat.add_comm]

theorem length_lt_of_mem {n : Nat} (h : encs.flatten.length < n) :
    ∀ bytes ∈ encs, bytes.length < n := fun _ hbytes =>
  (sublist_flatten_of_mem hbytes).length_le.trans_lt h

theorem option_as_bytes_some (T : ValueType α) (inner : α) : (optionValue T).as_bytes (some inner) =
    T.as_bytes inner >>= fun bytes => Except.ok (1 :: bytes) := rfl

/-- None is a zero, and as many more as the width asks for. -/
theorem option_as_bytes_none (T : ValueType α) :
    (optionValue T).as_bytes none = .ok (0 :: List.replicate (T.fixed_width.getD 0) 0) := by
  unfold optionValue
  dsimp only
  cases T.fixed_width <;> rfl

theorem lawful_option (hT : Lawful T) : Lawful (optionValue T) where
  round v bytes h hlen := by
    cases v with
    | some inner =>
      rw [option_as_bytes_some] at h
      obtain ⟨bytes', hinner, ⟨⟩⟩ := bind_eq_ok.mp h
      rw [length_cons] at hlen
      change (T.from_bytes bytes').map some = _
      rw [hT.round inner bytes' hinner (by omega)]
      rfl
    | none =>
      rw [option_as_bytes_none] at h
      cases h
      rfl
  width w hw v := by
    obtain ⟨width, hwidth, rfl⟩ := map_eq_some_iff.mp hw
    cases v with
    | some inner =>
      obtain ⟨bytes, hbytes, hlen⟩ := hT.width width hwidth inner
      refine ⟨1 :: bytes, ?_, ?_⟩
      · rw [option_as_bytes_some, hbytes]
        rfl
      · rw [length_cons, hlen]
    | none =>
      refine ⟨_, option_as_bytes_none T, ?_⟩
      rw [hwidth, length_cons, length_replicate]
      rfl
  panics v len h := by
    cases v with
    | some inner =>
      rw [option_as_bytes_some] at h
      rcases bind_eq_error.mp h with hinner | ⟨_, _, ⟨⟩⟩
      exact hT.panics inner len hinner
    | none =>
      rw [option_as_bytes_none] at h
      cases h

variable {bytes : Bytes}

section Array

variable {n : Nat}

/-- Items of fixed width stand side by side. -/
theorem array_fixed (hT : Lawful T) (hfixed : T.fixed_width = some fixed) (v : List.Vector α n) :
    ∃ encs, Writes T.as_bytes v.toList encs ∧ (∀ bytes ∈ encs, bytes.length = fixed) ∧
      (arrayValue T n).as_bytes v = .ok encs.flatten := by
  obtain ⟨encs, hencs⟩ := exists_writes hT hfixed v.toList
  refine ⟨encs, hencs, hencs.width hT hfixed, ?_⟩
  unfold arrayValue
  dsimp only
  rw [hfixed]
  exact extendAll_of_writes hencs

variable {v : List.Vector α n}

/-- Items of variable width stand behind the table of their ends. -/
theorem array_variable (hfixed : T.fixed_width = none)
    (h : (arrayValue T n).as_bytes v = .ok bytes) :
    ∃ encs, Writes T.as_bytes v.toList encs ∧ encs.length = n ∧
      bytes = table (4 * n) encs ++ encs.flatten ∧ ∀ e ∈ ends (4 * n) encs, e < 2 ^ 32 := by
  unfold arrayValue at h
  dsimp only at h
  rw [hfixed] at h
  have hzeros : (List.replicate (4 * n) (0 : UInt8)).length = 4 * v.toList.length := by
    rw [length_replicate, v.toList_length]
  have hstart : fillOffsets T.as_bytes v.toList 0 ([] ++ List.replicate (4 * n) 0 ++ []) =
      .ok bytes := by
    rw [append_nil, nil_append]
    exact h
  obtain ⟨encs, hencs, hbytes, hends⟩ := fillOffsets_ok (i := 0) rfl hzeros hstart
  simp only [nil_append, append_nil, length_replicate] at hends hbytes
  exact ⟨encs, hencs, hencs.length_eq.trans v.toList_length, hbytes, hends⟩

theorem array_walks_fixed (hT : Lawful T) (hfixed : T.fixed_width = some fixed)
    (h : (arrayValue T n).as_bytes v = .ok bytes) (hlen : bytes.length < 2 ^ 32) :
    ∃ encs, Writes T.as_bytes v.toList encs ∧
      Walks (itemAt bytes fixed) 0 encs ∧ ∀ bytes ∈ encs, bytes.length < 2 ^ 32 := by
  obtain ⟨encs, hencs, hwidth, hok⟩ := array_fixed hT hfixed v
  rw [h] at hok
  cases hok
  have hdata : encs.flatten = [] ++ (encs.flatten ++ []) := by simp
  exact ⟨encs, hencs, walks_fixed (fixed * ·) 1 (fun _ => rfl) (fun _ => rfl) hdata rfl hwidth,
    length_lt_of_mem hlen⟩

theorem array_walks_variable (hfixed : T.fixed_width = none)
    (h : (arrayValue T n).as_bytes v = .ok bytes) (hlen : bytes.length < 2 ^ 32) :
    ∃ encs, Writes T.as_bytes v.toList encs ∧
      Walks (itemByOffset bytes) (0, 4 * n) encs ∧ ∀ bytes ∈ encs, bytes.length < 2 ^ 32 := by
  obtain ⟨encs, hencs, hcount, rfl, hends⟩ := array_variable hfixed h
  rw [length_append] at hlen
  have hdata : table (4 * n) encs ++ encs.flatten =
      [] ++ (table (4 * n) encs ++ ([] ++ (encs.flatten ++ []))) := by simp
  have hstart : ([] : Bytes).length + (table (4 * n) encs).length +
      ([] : Bytes).length = 4 * n := by
    rw [length_table, hcount]
    simp
  exact ⟨encs, hencs, walks_itemByOffset hdata rfl hstart hends, length_lt_of_mem (by omega)⟩

theorem array_from_bytes {data : Bytes} (h : arrayItems T n data = some v.toList) :
    (arrayValue T n).from_bytes data = some v := by
  unfold arrayValue
  dsimp only
  rw [h, bind_eq_bind, bind_some, dif_pos v.toList_length]
  rfl

theorem lawful_array (hT : Lawful T) (n : Nat) : Lawful (arrayValue T n) where
  round v bytes h hlen := by
    apply array_from_bytes
    unfold arrayItems
    cases hfixed : T.fixed_width with
    | some fixed =>
      obtain ⟨encs, hencs, hwalks, hsmall⟩ := array_walks_fixed hT hfixed h hlen
      have hread := readItems_walks hwalks (hencs.reads hT hsmall)
      rwa [v.toList_length] at hread
    | none =>
      obtain ⟨encs, hencs, hwalks, hsmall⟩ := array_walks_variable hfixed h hlen
      have hread := readItems_walks hwalks (hencs.reads hT hsmall)
      rwa [v.toList_length] at hread
  width w hw v := by
    obtain ⟨fixed, hfixed, rfl⟩ := map_eq_some_iff.mp hw
    obtain ⟨encs, hencs, hwidth, hok⟩ := array_fixed hT hfixed v
    refine ⟨_, hok, ?_⟩
    rw [length_flatten_fixed hwidth, hencs.length_eq, v.toList_length]
  panics v len h := by
    cases hfixed : T.fixed_width with
    | some fixed =>
      obtain ⟨encs, -, -, hok⟩ := array_fixed hT hfixed v
      rw [h] at hok
      cases hok
    | none =>
      unfold arrayValue at h
      dsimp only at h
      rw [hfixed] at h
      rcases fillOffsets_error h with hle | ⟨item, hitem⟩
      · exact hle
      · exact hT.panics item len hitem

end Array

section Vec

/-- The count, and items of fixed width side by side. -/
theorem vec_fixed (hT : Lawful T) (hfixed : T.fixed_width = some fixed) (v : RVec α) :
    ∃ encs, Writes T.as_bytes v.val encs ∧ (∀ bytes ∈ encs, bytes.length = fixed) ∧
      (vecValue T).as_bytes v = .ok (encode_usize_varint v.val.length ++ encs.flatten) := by
  obtain ⟨encs, hencs⟩ := exists_writes hT hfixed v.val
  refine ⟨encs, hencs, hencs.width hT hfixed, ?_⟩
  unfold vecValue
  dsimp only
  rw [hfixed]
  exact extendAll_of_writes hencs

theorem writes_withLength {items : List α} {encs : List Bytes}
    (h : Writes (withLength T.as_bytes) items encs) : ∃ inner, Writes T.as_bytes items inner ∧
      encs = inner.map fun bytes => encode_usize_varint bytes.length ++ bytes := by
  induction h with
  | nil => exact ⟨[], .nil, rfl⟩
  | @cons item bytes _ _ hitem _ ih =>
    obtain ⟨inner, hinner, rfl⟩ := ih
    unfold withLength at hitem
    obtain ⟨bytes', hbytes, ⟨⟩⟩ := bind_eq_ok.mp hitem
    exact ⟨bytes' :: inner, .cons hbytes hinner, rfl⟩

variable {v : RVec α}

/-- The count, and items of variable width with their lengths. -/
theorem vec_variable (hfixed : T.fixed_width = none) (h : (vecValue T).as_bytes v = .ok bytes) :
    ∃ encs, Writes T.as_bytes v.val encs ∧ bytes = encode_usize_varint v.val.length ++
        (encs.map fun bytes => encode_usize_varint bytes.length ++ bytes).flatten := by
  unfold vecValue at h
  dsimp only at h
  rw [hfixed] at h
  obtain ⟨encs, hencs, hbytes⟩ := extendAll_ok h
  obtain ⟨inner, hinner, rfl⟩ := writes_withLength hencs
  exact ⟨inner, hinner, hbytes⟩

theorem length_le_of_withLength {encs : List Bytes} : encs.flatten.length ≤
    (encs.map fun bytes => encode_usize_varint bytes.length ++ bytes).flatten.length := by
  induction encs with
  | nil => exact Nat.le_refl 0
  | cons bytes encs ih =>
    rw [map_cons, flatten_cons, flatten_cons, length_append, length_append, length_append]
    omega

theorem vec_count {rest : Bytes} (v : RVec α) :
    decode_usize_varint (encode_usize_varint v.val.length ++ rest) 0 =
      some (v.val.length, (encode_usize_varint v.val.length).length) := by
  have hdata : encode_usize_varint v.val.length ++ rest =
      [] ++ (encode_usize_varint v.val.length ++ rest) := rfl
  have hcount := decode_usize_varint_mid hdata rfl v.2
  rwa [length_nil, Nat.zero_add] at hcount

theorem vec_walks (hT : Lawful T) (h : (vecValue T).as_bytes v = .ok bytes)
    (hlen : bytes.length < 2 ^ 32) :
    ∃ offset, decode_usize_varint bytes 0 = some (v.val.length, offset) ∧
      (∀ fixed, T.fixed_width = some fixed → ∃ encs, Writes T.as_bytes v.val encs ∧
        (∀ bytes ∈ encs, bytes.length < 2 ^ 32) ∧ Walks (itemFrom bytes fixed) offset encs ∧
        Walks (itemAfter bytes offset fixed) 0 encs) ∧
      (T.fixed_width = none → ∃ encs, Writes T.as_bytes v.val encs ∧
        (∀ bytes ∈ encs, bytes.length < 2 ^ 32) ∧ Walks (itemByLength bytes) offset encs) := by
  refine ⟨(encode_usize_varint v.val.length).length, ?_, fun fixed hfixed => ?_, fun hfixed => ?_⟩
  · cases hfixed : T.fixed_width with
    | some fixed =>
      obtain ⟨encs, -, -, hok⟩ := vec_fixed hT hfixed v
      rw [h] at hok
      cases hok
      exact vec_count v
    | none =>
      obtain ⟨encs, -, rfl⟩ := vec_variable hfixed h
      exact vec_count v
  · obtain ⟨encs, hencs, hwidth, hok⟩ := vec_fixed hT hfixed v
    rw [h] at hok
    cases hok
    rw [length_append] at hlen
    have hdata : encode_usize_varint v.val.length ++ encs.flatten =
        encode_usize_varint v.val.length ++ (encs.flatten ++ []) := by simp
    exact ⟨encs, hencs, length_lt_of_mem (by omega),
      walks_fixed id fixed (fun _ => rfl) (fun _ => rfl) hdata rfl hwidth,
      walks_fixed _ 1 (fun _ => rfl) (fun _ => (Nat.add_assoc ..).symm) hdata
        (Nat.add_zero _).symm hwidth⟩
  obtain ⟨encs, hencs, rfl⟩ := vec_variable hfixed h
  rw [length_append] at hlen
  have hinner : encs.flatten.length < 2 ^ 32 :=
    Nat.lt_of_le_of_lt (length_le_of_withLength.trans (Nat.le_add_left _ _)) hlen
  have hsmall := length_lt_of_mem hinner
  have hdata : encode_usize_varint v.val.length ++
      (encs.map fun bytes => encode_usize_varint bytes.length ++ bytes).flatten =
      encode_usize_varint v.val.length ++
      ((encs.map fun bytes => encode_usize_varint bytes.length ++ bytes).flatten ++ []) := by simp
  exact ⟨encs, hencs, hsmall, walks_itemByLength hdata rfl fun bytes hbytes =>
    (hsmall bytes hbytes).trans (by decide)⟩

theorem vec_from_bytes {data : Bytes} {offset : Nat}
    (hcount : decode_usize_varint data 0 = some (v.val.length, offset))
    (h : vecItems T data v.val.length offset = some v.val) :
    (vecValue T).from_bytes data = some v := by
  unfold vecValue
  dsimp only
  rw [hcount, bind_eq_bind, bind_some]
  dsimp only
  rw [h, bind_eq_bind, bind_some, dif_pos v.2]

theorem lawful_vec (hT : Lawful T) : Lawful (vecValue T) where
  round v bytes h hlen := by
    obtain ⟨offset, hcount, hwalks⟩ := vec_walks hT h hlen
    refine vec_from_bytes hcount ?_
    unfold vecItems
    cases hfixed : T.fixed_width with
    | some fixed =>
      obtain ⟨encs, hencs, hsmall, -, hafter⟩ := hwalks.1 fixed hfixed
      exact readItems_walks hafter (hencs.reads hT hsmall)
    | none =>
      obtain ⟨encs, hencs, hsmall, hlength⟩ := hwalks.2 hfixed
      exact readItems_walks hlength (hencs.reads hT hsmall)
  width := nofun
  panics v len h := by
    cases hfixed : T.fixed_width with
    | some fixed =>
      obtain ⟨encs, -, -, hok⟩ := vec_fixed hT hfixed v
      rw [h] at hok
      cases hok
    | none =>
      unfold vecValue at h
      dsimp only at h
      rw [hfixed] at h
      obtain ⟨item, hitem⟩ := extendAll_error h
      unfold withLength at hitem
      rcases bind_eq_error.mp hitem with hbytes | ⟨_, _, ⟨⟩⟩
      exact hT.panics item len hbytes

end Vec

end Containers

/-! ## Every type -/

theorem Ty.lawful (t : Ty) : Lawful t.value := by
  induction t with
  | unit => exact lawful_unit
  | bool => exact lawful_bool
  | unsigned size | signed size | float size => exact lawful_le size.bytes
  | char => exact lawful_char
  | str | string => exact lawful_str
  | byteSlice => exact lawful_bytes
  | byteArray n => exact lawful_byteArray n
  | option t ih => exact lawful_option ih
  | array t n ih => exact lawful_array ih n
  | vec t ih => exact lawful_vec ih

/-- Every value of every type comes back from its encoding if that is shorter than 2^32 bytes, the
encoding panics only where a part of it has reached 2^32 bytes, and where the type says it has a
width, every encoding has it. -/
theorem values_come_back_from_their_encodings (t : Ty) :
    (∀ v bytes, t.value.as_bytes v = .ok bytes → bytes.length < 2 ^ 32 →
      t.value.from_bytes bytes = some v) ∧
    (∀ v len, t.value.as_bytes v = .error len → 2 ^ 32 ≤ len) ∧
    ∀ w, t.value.fixed_width = some w →
      ∀ v, ∃ bytes, t.value.as_bytes v = .ok bytes ∧ bytes.length = w :=
  ⟨t.lawful.round, t.lawful.panics, t.lawful.width⟩

example : (Ty.vec (.option (.unsigned .w16))).value.as_bytes
    ⟨[some (5#16 : BitVec 16), none], by decide⟩ = .ok [2, 1, 5, 0, 0, 0, 0] := by rfl

end FluxDB.Types
