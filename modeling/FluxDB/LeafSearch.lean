-- Search in one sorted leaf that may hold many versions of a key. The binary search stops at any of
-- them; two loops go from there to both ends of their run, and a third looks for a visible one.
import FluxDB.TreeRows

namespace FluxDB.Tree

open Comparator List

/-! ## The loops around a slot -/

/-- `while first > 0`: one slot back for each equal key. -/
def firstOf (same : Nat → Bool) : Nat → Nat
  | 0 => 0
  | first + 1 => if same first then firstOf same first else first + 1

/-- `while past_end < n`, with so many slots left: one slot on for each equal key. -/
def pastEndOf (same : Nat → Bool) : Nat → Nat → Nat
  | 0, past_end => past_end
  | left + 1, past_end => if same past_end then pastEndOf same left (past_end + 1) else past_end

/-- `while i < past_end`: the first slot that passes. -/
def firstVisible (visible : Nat → Bool) : Nat → Nat → Option Nat
  | 0, _ => none
  | left + 1, i => if visible i then some i else firstVisible visible left (i + 1)

section Loops

variable {cmp : Compare} {rows : List Row} {key : Bytes}

/-- The key in this slot is equal. -/
def sameKey (cmp : Compare) (rows : List Row) (key : Bytes)
    (i : Nat) : Bool := compareSlot cmp rows key i == .eq

theorem firstOf_eq (slot : Nat) (h : slot ≤ rows.length) : firstOf (sameKey cmp rows key) slot =
    slot - Leaf.run_length cmp key ((rows.take slot).reverse.map Row.key) := by
  induction slot with
  | zero => rfl
  | succ slot ih =>
    obtain ⟨r, hr⟩ : ∃ r, rows[slot]? = some r := ⟨_, getElem?_eq_getElem (by omega)⟩
    have htake : (rows.take (slot + 1)).reverse = r :: (rows.take slot).reverse := by
      rw [take_add_one, hr, reverse_append]
      rfl
    have hsame : sameKey cmp rows key slot = (cmp r.key key == .eq) := by
      unfold sameKey compareSlot
      rw [hr]
    have hle : Leaf.run_length cmp key ((rows.take slot).reverse.map Row.key) ≤ slot := by
      unfold Leaf.run_length
      refine (takeWhile_sublist _).length_le.trans ?_
      rw [length_map, length_reverse, length_take]
      omega
    unfold firstOf
    rw [hsame, htake, map_cons]
    unfold Leaf.run_length at ih hle ⊢
    rw [takeWhile_cons]
    split
    · rw [ih (by omega), length_cons]
      omega
    · rfl

theorem pastEndOf_eq (left i : Nat) (h : i + left = rows.length) :
    pastEndOf (sameKey cmp rows key) left i =
      i + Leaf.run_length cmp key ((rows.drop i).map Row.key) := by
  induction left generalizing i with
  | zero =>
    rw [drop_of_length_le (by omega)]
    rfl
  | succ left ih =>
    obtain ⟨r, hr⟩ : ∃ r, rows[i]? = some r := ⟨_, getElem?_eq_getElem (by omega)⟩
    have hdrop : rows.drop i = r :: rows.drop (i + 1) := by
      obtain ⟨hlt, hget⟩ := List.getElem?_eq_some_iff.mp hr
      rw [drop_eq_getElem_cons hlt, hget]
    have hsame : sameKey cmp rows key i = (cmp r.key key == .eq) := by
      unfold sameKey compareSlot
      rw [hr]
    unfold pastEndOf
    rw [hsame, hdrop, map_cons, ih (i + 1) (by omega)]
    unfold Leaf.run_length
    rw [takeWhile_cons]
    split
    · rw [length_cons]
      omega
    · rfl

/-- `duplicate_slot_bounds` is the two loops. -/
theorem duplicate_slot_bounds_loops {slot : Nat} (h : slot < rows.length) :
    duplicate_slot_bounds cmp rows key slot = (firstOf (sameKey cmp rows key) slot,
      pastEndOf (sameKey cmp rows key) (rows.length - (slot + 1)) (slot + 1)) := by
  unfold duplicate_slot_bounds
  rw [firstOf_eq slot (by omega), pastEndOf_eq _ (slot + 1) (by omega)]

theorem firstVisible_eq {p : Row → Bool} {visible : Nat → Bool}
    (hv : ∀ (i : Nat) r, rows[i]? = some r → visible i = p r) (left i : Nat)
    (h : i + left ≤ rows.length) : firstVisible visible left i =
      (((rows.drop i).take left).findIdx? p).map (i + ·) := by
  induction left generalizing i with
  | zero => rfl
  | succ left ih =>
    obtain ⟨r, hr⟩ : ∃ r, rows[i]? = some r := ⟨_, getElem?_eq_getElem (by omega)⟩
    have hdrop : rows.drop i = r :: rows.drop (i + 1) := by
      obtain ⟨hlt, hget⟩ := List.getElem?_eq_some_iff.mp hr
      rw [drop_eq_getElem_cons hlt, hget]
    unfold firstVisible
    rw [hv i r hr, hdrop, take_succ_cons, findIdx?_cons, ih (i + 1) (by omega)]
    split
    · rfl
    rw [Option.map_map]
    congr 1
    funext j
    simp only [Function.comp_apply]
    omega

end Loops

/-! ## What the searches find -/

section Sorted

variable {cmp : Compare} [Std.TransCmp cmp] {rows : List Row}
  {key : Bytes}

section

variable (hsorted : Sorted cmp rows)

include hsorted

theorem position_found_iff :
    (position cmp rows key).2 = true ↔ ∃ r ∈ rows, cmp r.key key = .eq := by
  rcases position_spec hsorted key with ⟨i, r, hr, heq, hpos⟩ | ⟨i, -, hpos, -⟩
  · rw [hpos]
    exact iff_of_true rfl ⟨r, mem_of_getElem? hr, heq⟩
  have hnone := versionsOf_eq_nil hsorted hpos
  rw [hpos]
  refine iff_of_false nofun ?_
  rintro ⟨r, hr, heq⟩
  exact ne_nil_of_mem (mem_versionsOf.mpr ⟨hr, heq⟩) hnone

/-- A key that does not occur is placed behind the smaller ones. -/
theorem position_absent (h : (position cmp rows key).2 = false) :
    (position cmp rows key).1 = rows.countP fun r => cmp r.key key == .lt := by
  rcases position_spec hsorted key with ⟨i, r, -, -, hpos⟩ | ⟨i, hi, hpos, hlt, hgt⟩
  · rw [hpos] at h
    cases h
  have hfront : ∀ r ∈ rows.take i, cmp r.key key = .lt := by
    intro r hr
    obtain ⟨j, hj, rfl⟩ := mem_take_iff_getElem.mp hr
    exact hlt j _ (by omega) (getElem?_eq_getElem _)
  have hback : ∀ r ∈ rows.drop i, cmp r.key key = .gt := by
    intro r hr
    obtain ⟨j, hj, rfl⟩ := mem_drop_iff_getElem.mp hr
    exact hgt _ _ (by omega) (getElem?_eq_getElem _)
  have hfull : (rows.take i).countP (fun r => cmp r.key key == .lt) = (rows.take i).length :=
    countP_eq_length.mpr fun r hr => beq_iff_eq.mpr (hfront r hr)
  have hempty : (rows.drop i).countP (fun r => cmp r.key key == .lt) = 0 := by
    refine countP_eq_zero.mpr fun r hr heq => ?_
    rw [beq_iff_eq, hback r hr] at heq
    cases heq
  rw [hpos, ← take_append_drop i rows, countP_append, hfull, hempty, length_take]
  omega

/-- The bounds enclose exactly the equal keys. -/
theorem duplicate_slot_bounds_exact {slot : Nat} {r : Row} (hr : rows[slot]? = some r)
    (heq : cmp r.key key = .eq) {first past_end : Nat}
    (h : duplicate_slot_bounds cmp rows key slot = (first, past_end)) :
    past_end ≤ rows.length ∧ ∀ (i : Nat) x, rows[i]? = some x →
      (cmp x.key key = .eq ↔ first ≤ i ∧ i < past_end) := by
  rw [duplicate_slot_bounds_eq hsorted hr heq] at h
  obtain ⟨hfirst, hpast⟩ := Prod.mk.inj h
  have hparts := three_parts hsorted key
  have hlength := congrArg List.length hparts
  rw [length_append, length_append] at hlength
  refine ⟨by omega, fun i x hx => ?_⟩
  have hat := hx
  rw [hparts] at hat
  by_cases hlow : i < first
  · rw [getElem?_append_left (by omega)] at hat
    have hlt := beq_iff_eq.mp (mem_filter.mp (mem_of_getElem? hat)).2
    refine iff_of_false ?_ (by omega)
    rw [hlt]
    exact nofun
  rw [getElem?_append_right (by omega)] at hat
  by_cases hhigh : i < past_end
  · rw [getElem?_append_left (by omega)] at hat
    exact iff_of_true (mem_versionsOf.mp (mem_of_getElem? hat)).2 ⟨by omega, hhigh⟩
  rw [getElem?_append_right (by omega)] at hat
  have hgt := beq_iff_eq.mp (mem_filter.mp (mem_of_getElem? hat)).2
  refine iff_of_false ?_ (by omega)
  rw [hgt]
  exact nofun

/-- `find_visible_slot` is the third loop, between the bounds. -/
theorem find_visible_slot_loops (tm : TransactionManager)
    (txn : Transaction) {visible : Nat → Bool}
    (hv : ∀ (i : Nat) r, rows[i]? = some r → visible i = txn.is_visible r.xmin r.xmax tm) :
    find_visible_slot cmp tm txn rows key = match position cmp rows key with
      | (_, false) => none
      | (start, true) =>
        let (first, past_end) := duplicate_slot_bounds cmp rows key start
        firstVisible visible (past_end - first) first := by
  unfold find_visible_slot
  rcases position_spec hsorted key with ⟨i, r, hr, heq, hpos⟩ | ⟨i, -, hpos, -⟩
  · rw [hpos]
    obtain ⟨⟨first, past_end⟩, hbounds⟩ : ∃ b, duplicate_slot_bounds cmp rows key i = b := ⟨_, rfl⟩
    have hle := (duplicate_slot_bounds_exact hsorted hr heq hbounds).1
    have hin := ((duplicate_slot_bounds_exact hsorted hr heq hbounds).2 i r hr).mp heq
    dsimp only
    rw [hbounds]
    exact (firstVisible_eq hv _ _ (by omega)).symm
  · rw [hpos]

end

/-- In every sorted leaf the binary search finds the key or the place behind the smaller keys, a new
version at that place leaves the leaf sorted, the bounds of a run enclose all equal keys and no
other, and a visible version is found if and only if there is one. -/
theorem searches_in_a_sorted_leaf_are_exact (hsorted : Sorted cmp rows) (key : Bytes)
    (tm : TransactionManager) (txn : Transaction) :
    ((∃ r ∈ rows, cmp r.key key = .eq) → (position cmp rows key).2 = true ∧
      ∃ r, rows[(position cmp rows key).1]? = some r ∧ cmp r.key key = .eq) ∧
    ((¬ ∃ r ∈ rows, cmp r.key key = .eq) →
      position cmp rows key = (rows.countP fun r => cmp r.key key == .lt, false)) ∧
    (∀ r : Row, r.key = key → Sorted cmp (rows.insertIdx (position cmp rows key).1 r)) ∧
    (∀ (slot : Nat) r first past_end, rows[slot]? = some r → cmp r.key key = .eq →
      duplicate_slot_bounds cmp rows key slot = (first, past_end) → past_end ≤ rows.length ∧
        ∀ (i : Nat) x, rows[i]? = some x → (cmp x.key key = .eq ↔ first ≤ i ∧ i < past_end)) ∧
    ((∃ slot, find_visible_slot cmp tm txn rows key = some slot) ↔
      ∃ r ∈ rows, cmp r.key key = .eq ∧ txn.is_visible r.xmin r.xmax tm = true) ∧
    ∀ slot, find_visible_slot cmp tm txn rows key = some slot → ∃ r, rows[slot]? = some r ∧
      cmp r.key key = .eq ∧ txn.is_visible r.xmin r.xmax tm = true := by
  refine ⟨fun hmem => ?_, fun hnone => ?_, ?_, ?_, ⟨?_, ?_⟩, ?_⟩
  · refine ⟨(position_found_iff hsorted).mpr hmem, ?_⟩
    rcases position_spec hsorted key with ⟨i, r, hr, heq, hpos⟩ | ⟨i, -, hpos, -⟩
    · rw [hpos]
      exact ⟨r, hr, heq⟩
    · have hfound := (position_found_iff hsorted).mpr hmem
      rw [hpos] at hfound
      cases hfound
  · have hnot : (position cmp rows key).2 = false :=
      Bool.eq_false_iff.mpr (mt (position_found_iff hsorted).mp hnone)
    exact Prod.ext (position_absent hsorted hnot) hnot
  · rintro r rfl
    exact sorted_insert hsorted r
  · intro slot r first past_end hr heq h
    exact duplicate_slot_bounds_exact hsorted hr heq h
  · rintro ⟨slot, hslot⟩
    obtain ⟨r, hr, heq, hvisible⟩ := find_visible_slot_some hsorted hslot
    exact ⟨r, List.mem_of_getElem? hr, heq, hvisible⟩
  · rintro ⟨r, hr, heq, hvisible⟩
    cases hslot : find_visible_slot cmp tm txn rows key with
    | some slot => exact ⟨slot, rfl⟩
    | none =>
      have hhidden := find_visible_slot_none hsorted hslot r hr heq
      rw [hvisible] at hhidden
      cases hhidden
  · intro slot hslot
    exact find_visible_slot_some hsorted hslot

end Sorted

/-- Two versions of a key, of which the second is visible. -/
theorem the_second_version_is_found :
    find_visible_slot (List.compareLex compare) .new ⟨1, ⟨1, 2, [1]⟩⟩
      [⟨[5], [], [], 3, 0⟩, ⟨[5], [], [], 1, 0⟩] [5] = some 1 ∧
    ∃ slot, find_visible_slot (List.compareLex compare) .new ⟨1, ⟨1, 2, [1]⟩⟩
      [⟨[5], [], [], 3, 0⟩, ⟨[5], [], [], 1, 0⟩] [5] = some slot := by
  refine ⟨by decide +kernel, ?_⟩
  have hsorted : Sorted (List.compareLex compare)
      [⟨[5], [], [], 3, 0⟩, ⟨[5], [], [], 1, 0⟩] := by
    unfold Sorted
    decide +kernel
  exact (searches_in_a_sorted_leaf_are_exact hsorted [5] .new ⟨1, ⟨1, 2, [1]⟩⟩).2.2.2.2.1.mpr
    ⟨⟨[5], [], [], 1, 0⟩, by decide, by decide +kernel, by decide +kernel⟩

end FluxDB.Tree
