-- What the search in a page finds, and what its split leaves. The slots of a leaf are sorted by
-- key, and a key may have many versions: a sorted page is what lies below the key, then its
-- versions, then what lies above it. Short separators leave room in both halves of every
-- internal page.
import FluxDB.TreePages

namespace FluxDB.Tree

open Comparator List Maps Internal

variable {cmp : Compare}

def Sorted (cmp : Compare) (rows : List Row) : Prop :=
  rows.Pairwise fun a b => Le cmp a.key b.key

/-- The versions of a key among the rows. -/
def versionsOf (cmp : Compare) (key : Bytes) (rows : List Row) :
    List Row := rows.filter fun r => cmp r.key key == .eq

theorem mem_versionsOf {key : Bytes} {rows : List Row} {r : Row} :
    r ∈ versionsOf cmp key rows ↔ r ∈ rows ∧ cmp r.key key = .eq := by
  unfold versionsOf
  rw [mem_filter, beq_iff_eq]

/-! ## Below, equal and above -/

section Parts

variable [Std.TransCmp cmp] {rows : List Row} {key : Bytes}

/-- A sorted page in three parts. -/
theorem three_parts (hsorted : Sorted cmp rows) (key : Bytes) :
    rows = rows.filter (fun r => cmp r.key key == .lt) ++
      (versionsOf cmp key rows ++ rows.filter fun r => cmp r.key key == .gt) := by
  unfold versionsOf
  induction rows with
  | nil => rfl
  | cons r rows ih =>
    obtain ⟨hhead, htail⟩ := pairwise_cons.mp hsorted
    have ih := ih htail
    cases hc : cmp r.key key with
    | lt =>
      simp only [filter_cons, hc, beq_self_eq_true, if_true]
      exact congrArg (r :: ·) ih
    | eq =>
      have hnone : rows.filter (fun r => cmp r.key key == .lt) = [] := by
        rw [filter_eq_nil_iff]
        intro a ha hlt
        rw [beq_iff_eq] at hlt
        have := lt_of_le_of_lt (hhead a ha) hlt
        rw [hc] at this
        cases this
      rw [hnone] at ih
      simp only [filter_cons, hc, beq_self_eq_true, if_true, hnone]
      exact congrArg (r :: ·) ih
    | gt =>
      have hgt : ∀ a ∈ rows, cmp a.key key = .gt := by
        intro a ha
        by_contra hle
        exact le_trans (hhead a ha) hle hc
      have hnone : ∀ o, o ≠ .gt → rows.filter (fun r => cmp r.key key == o) = [] := by
        intro o ho
        rw [filter_eq_nil_iff]
        intro a ha heq
        rw [beq_iff_eq, hgt a ha] at heq
        exact ho heq.symm
      have hall : rows.filter (fun r => cmp r.key key == .gt) = rows := by
        rw [filter_eq_self]
        intro a ha
        rw [hgt a ha]
        rfl
      simp only [filter_cons, hc, beq_self_eq_true, if_true, hnone .lt (by decide),
        hnone .eq (by decide), hall]
      rfl

/-- Where the search ends: at a version of the key, or between what is below and above. -/
theorem position_spec (hsorted : Sorted cmp rows) (key : Bytes) :
    (∃ (i : Nat) (r : Row), rows[i]? = some r ∧ cmp r.key key = .eq ∧
      position cmp rows key = (i, true)) ∨
    ∃ i, i ≤ rows.length ∧ position cmp rows key = (i, false) ∧
      (∀ (j : Nat) r, j < i → rows[j]? = some r → cmp r.key key = .lt) ∧
      ∀ (j : Nat) r, i ≤ j → rows[j]? = some r → cmp r.key key = .gt := by
  have hslot : ∀ {j : Nat} {r : Row}, rows[j]? = some r →
      compareSlot cmp rows key j = cmp r.key key := by
    intro j r hr
    unfold compareSlot
    rw [hr]
  have hget : ∀ {j : Nat}, j < rows.length → ∃ r, rows[j]? = some r := fun hj =>
    ⟨_, getElem?_eq_getElem hj⟩
  have hle : ∀ {i j : Nat} {a b : Row}, i ≤ j → rows[i]? = some a → rows[j]? = some b →
      Le cmp a.key b.key := by
    intro i j a b hij ha hb
    have hmap : (rows.map Row.key).Pairwise (Le cmp) := pairwise_map.mpr hsorted
    exact le_of_pairwise hmap hij (by rw [getElem?_map, ha]; rfl) (by rw [getElem?_map, hb]; rfl)
  have hspec := Search.locate_spec (c := compareSlot cmp rows key) (n := rows.length)
    (fun i j hij hj hlt => by
      obtain ⟨b, hb⟩ := hget hj
      obtain ⟨a, ha⟩ := hget (Nat.lt_of_le_of_lt hij hj)
      rw [hslot hb] at hlt
      rw [hslot ha]
      exact lt_of_le_of_lt (hle hij ha hb) hlt)
    (fun i j hij hj hgt => by
      obtain ⟨b, hb⟩ := hget hj
      obtain ⟨a, ha⟩ := hget (Nat.lt_of_le_of_lt hij hj)
      rw [hslot ha] at hgt
      rw [hslot hb]
      by_contra hb'
      exact le_trans (hle hij ha hb) hb' hgt)
    (Nat.zero_le _) (Nat.le_refl _) (Nat.le_refl _) (fun i hi => absurd hi (Nat.not_lt_zero i))
    (fun i hi hi' => absurd hi' (Nat.not_lt.mpr hi))
  rcases hspec with ⟨i, hi, heq, hpos⟩ | ⟨i, hi, hlt, hgt, hpos⟩
  · obtain ⟨r, hr⟩ := hget hi
    rw [hslot hr] at heq
    exact .inl ⟨i, r, hr, heq, hpos⟩
  refine .inr ⟨i, hi, hpos, fun j r hj hr => ?_, fun j r hj hr => ?_⟩
  · rw [← hslot hr]
    exact hlt j hj
  rw [← hslot hr]
  exact hgt j hj (lt_of_getElem? hr)

/-- If the search ends between slots, the key has no version. -/
theorem versionsOf_eq_nil (hsorted : Sorted cmp rows) {i : Nat}
    (h : position cmp rows key = (i, false)) : versionsOf cmp key rows = [] := by
  rcases position_spec hsorted key with ⟨j, r, -, -, hj⟩ | ⟨j, -, hj, hlt, hgt⟩
  · rw [h] at hj
    cases hj
  unfold versionsOf
  rw [filter_eq_nil_iff]
  intro r hr heq
  rw [beq_iff_eq] at heq
  obtain ⟨m, hm⟩ := mem_iff_getElem?.mp hr
  by_cases hlt' : m < j
  · have := hlt m r hlt' hm
    rw [heq] at this
    cases this
  have := hgt m r (by omega) hm
  rw [heq] at this
  cases this

/-! ## The run of duplicates -/

omit [Std.TransCmp cmp] in
theorem run_length_append {ks ks' : List Bytes} (h : ∀ k ∈ ks, cmp k key = .eq)
    (h' : ∀ k ∈ ks', cmp k key ≠ .eq) : Leaf.run_length cmp key (ks ++ ks') = ks.length := by
  have hnone : ks'.takeWhile (fun k => cmp k key == .eq) = [] := by
    cases ks' with
    | nil => rfl
    | cons k _ =>
      apply takeWhile_cons_of_neg
      rw [beq_iff_eq]
      exact h' k mem_cons_self
  unfold Leaf.run_length
  rw [takeWhile_append_of_pos, hnone, append_nil]
  intro k hk
  rw [beq_iff_eq]
  exact h k hk

section

variable (hsorted : Sorted cmp rows)

include hsorted

/-- The bounds of the run around any version of the key. -/
theorem duplicate_slot_bounds_eq {slot : Nat} {r : Row} (hr : rows[slot]? = some r)
    (heq : cmp r.key key = .eq) :
    duplicate_slot_bounds cmp rows key slot = ((rows.filter fun r => cmp r.key key == .lt).length,
        (rows.filter fun r => cmp r.key key == .lt).length + (versionsOf cmp key rows).length) := by
  obtain ⟨a, ha⟩ : ∃ a, a = rows.filter fun r => cmp r.key key == .lt := ⟨_, rfl⟩
  obtain ⟨b, hb⟩ : ∃ b, b = versionsOf cmp key rows := ⟨_, rfl⟩
  obtain ⟨c, hc⟩ : ∃ c, c = rows.filter fun r => cmp r.key key == .gt := ⟨_, rfl⟩
  have hparts := three_parts hsorted key
  rw [← ha, ← hb, ← hc] at hparts
  have hma : ∀ x ∈ a, cmp x.key key = .lt := fun x hx => by
    rw [ha, mem_filter, beq_iff_eq] at hx
    exact hx.2
  have hmb : ∀ x ∈ b, cmp x.key key = .eq := fun x hx => (mem_versionsOf.mp (hb ▸ hx)).2
  have hmc : ∀ x ∈ c, cmp x.key key = .gt := fun x hx => by
    rw [hc, mem_filter, beq_iff_eq] at hx
    exact hx.2
  -- the slot lies in the middle part
  obtain ⟨k, rfl⟩ : ∃ k, slot = a.length + k := by
    refine ⟨slot - a.length, ?_⟩
    by_contra hlt
    rw [hparts, getElem?_append_left (by omega)] at hr
    rw [hma r (mem_of_getElem? hr)] at heq
    cases heq
  have hk : k < b.length := by
    by_contra hge
    rw [hparts, getElem?_append_right (by omega), getElem?_append_right (by omega)] at hr
    rw [hmc r (mem_of_getElem? hr)] at heq
    cases heq
  have htake : rows.take (a.length + k) = a ++ b.take k := by
    rw [hparts, take_length_add_append, take_append_of_le_length (by omega)]
  have hdrop : rows.drop (a.length + k + 1) = b.drop (k + 1) ++ c := by
    rw [hparts, Nat.add_assoc, drop_length_add_append, drop_append_of_le_length (by omega)]
  unfold duplicate_slot_bounds
  rw [← ha, ← hb, htake, hdrop, reverse_append, map_append, map_append,
    run_length_append, run_length_append]
  · simp only [length_map, length_reverse, length_take, length_drop]
    refine Prod.ext ?_ ?_ <;> dsimp only <;> omega
  · intro x hx
    obtain ⟨y, hy, rfl⟩ := mem_map.mp hx
    exact hmb y (mem_of_mem_drop hy)
  · intro x hx
    obtain ⟨y, hy, rfl⟩ := mem_map.mp hx
    rw [hmc y hy]
    decide
  · intro x hx
    obtain ⟨y, hy, rfl⟩ := mem_map.mp hx
    exact hmb y (mem_of_mem_take (mem_reverse.mp hy))
  intro x hx
  obtain ⟨y, hy, rfl⟩ := mem_map.mp hx
  rw [hma y (mem_reverse.mp hy)]
  decide

/-- The slots of the run hold exactly the versions of the key. -/
theorem slots_eq_versionsOf :
    slots rows ((rows.filter fun r => cmp r.key key == .lt).length,
        (rows.filter fun r => cmp r.key key == .lt).length + (versionsOf cmp key rows).length) =
      versionsOf cmp key rows := by
  have hparts := three_parts hsorted key
  unfold slots
  dsimp only
  rw [Nat.add_sub_cancel_left]
  generalize rows.filter (fun r => cmp r.key key == .lt) = a at hparts ⊢
  generalize versionsOf cmp key rows = b at hparts ⊢
  rw [hparts, drop_left, take_left]

/-! ## Visible versions and conflicts -/

theorem find_visible_slot_some {tm : TransactionManager} {txn : Transaction} {slot : Nat}
    (h : find_visible_slot cmp tm txn rows key = some slot) :
    ∃ r, rows[slot]? = some r ∧ cmp r.key key = .eq ∧ txn.is_visible r.xmin r.xmax tm = true := by
  unfold find_visible_slot at h
  rcases position_spec hsorted key with ⟨i, r, hr, heq, hpos⟩ | ⟨i, -, hpos, -⟩
  · rw [hpos] at h
    dsimp only at h
    rw [duplicate_slot_bounds_eq hsorted hr heq, slots_eq_versionsOf hsorted,
      Option.map_eq_some_iff] at h
    obtain ⟨k, hk, rfl⟩ := h
    obtain ⟨hlt, hvis, -⟩ := findIdx?_eq_some_iff_getElem.mp hk
    refine ⟨(versionsOf cmp key rows)[k], ?_, ?_, hvis⟩
    · nth_rewrite 1 [three_parts hsorted key]
      rw [getElem?_append_right (by omega), Nat.add_sub_cancel_left,
        getElem?_append_left hlt, getElem?_eq_getElem hlt]
    · exact (mem_versionsOf.mp (getElem_mem hlt)).2
  rw [hpos] at h
  cases h

theorem find_visible_slot_none {tm : TransactionManager} {txn : Transaction}
    (h : find_visible_slot cmp tm txn rows key = none) :
    ∀ r ∈ rows, cmp r.key key = .eq → txn.is_visible r.xmin r.xmax tm = false := by
  intro r hr heq
  have hmem := mem_versionsOf.mpr ⟨hr, heq⟩
  unfold find_visible_slot at h
  rcases position_spec hsorted key with ⟨i, r', hr', heq', hpos⟩ | ⟨i, -, hpos, -⟩
  · rw [hpos] at h
    dsimp only at h
    rw [duplicate_slot_bounds_eq hsorted hr' heq', slots_eq_versionsOf hsorted,
      Option.map_eq_none_iff, findIdx?_eq_none_iff] at h
    exact h r hmem
  rw [versionsOf_eq_nil hsorted hpos] at hmem
  cases hmem

/-- The check of an insert on one page asks all versions of the key there. -/
theorem check_page_conflict_eq (tm : TransactionManager) (txn : Transaction) :
    check_page_conflict cmp tm txn rows key = check_insert_conflict tm txn
      ((versionsOf cmp key rows).map fun r => (r.xmin, r.xmax)) := by
  unfold check_page_conflict
  rcases position_spec hsorted key with ⟨i, r, hr, heq, hpos⟩ | ⟨i, -, hpos, -⟩
  · rw [hpos]
    dsimp only
    rw [duplicate_slot_bounds_eq hsorted hr heq, slots_eq_versionsOf hsorted]
  rw [hpos, versionsOf_eq_nil hsorted hpos]
  rfl

end

end Parts

/-! ## Rows that change -/

section Changes

variable {rows : List Row}

theorem insertIdx_eq (i : Nat) (hi : i ≤ rows.length) (r : Row) :
    rows.insertIdx i r = rows.take i ++ r :: rows.drop i := by
  induction rows generalizing i with
  | nil =>
    obtain rfl : i = 0 := Nat.le_zero.mp hi
    rfl
  | cons a rows ih =>
    cases i with
    | zero => rfl
    | succ i =>
      rw [insertIdx_succ_cons, ih i (Nat.le_of_succ_le_succ hi)]
      rfl

variable [Std.TransCmp cmp]

section

variable (hsorted : Sorted cmp rows)

include hsorted

/-- What the search says of a slot at which the key is then inserted. -/
theorem position_fits (key : Bytes) :
    (position cmp rows key).1 ≤ rows.length ∧
      (∀ r ∈ rows.take (position cmp rows key).1, Le cmp r.key key) ∧
      ∀ r ∈ rows.drop (position cmp rows key).1, Le cmp key r.key := by
  rcases position_spec hsorted key with ⟨i, r, hr, heq, hpos⟩ | ⟨i, hi, hpos, hlt, hgt⟩
  · rw [hpos]
    have hlt := lt_of_getElem? hr
    have hmap : (rows.map Row.key).Pairwise (Le cmp) := pairwise_map.mpr hsorted
    have hkey : (rows.map Row.key)[i]? = some r.key := by
      rw [getElem?_map, hr]
      rfl
    refine ⟨hlt.le, fun x hx => ?_, fun x hx => ?_⟩
    · obtain ⟨j, hj⟩ := mem_iff_getElem?.mp hx
      obtain ⟨hji, hj⟩ := getElem?_of_take hj
      refine le_trans (le_of_pairwise hmap hji.le ?_ hkey) (le_of_eq heq)
      rw [getElem?_map, hj]
      rfl
    obtain ⟨j, hj⟩ := mem_iff_getElem?.mp hx
    rw [getElem?_drop] at hj
    refine le_trans (le_of_eq (eq_symm heq)) (le_of_pairwise hmap (Nat.le_add_right i j) hkey ?_)
    rw [getElem?_map, hj]
    rfl
  rw [hpos]
  refine ⟨hi, fun x hx => ?_, fun x hx => ?_⟩
  · obtain ⟨j, hj⟩ := mem_iff_getElem?.mp hx
    obtain ⟨hji, hj⟩ := getElem?_of_take hj
    exact le_of_lt (hlt j x hji hj)
  obtain ⟨j, hj⟩ := mem_iff_getElem?.mp hx
  rw [getElem?_drop] at hj
  exact le_of_lt (Std.OrientedCmp.lt_of_gt (hgt _ x (Nat.le_add_right i j) hj))

theorem sorted_insert (r : Row) : Sorted cmp (rows.insertIdx (position cmp rows r.key).1 r) := by
  obtain ⟨hle, hbelow, habove⟩ := position_fits hsorted r.key
  have hcut := take_append_drop (position cmp rows r.key).1 rows
  unfold Sorted at hsorted ⊢
  rw [insertIdx_eq _ hle]
  rw [← hcut, pairwise_append] at hsorted
  obtain ⟨hfront, hback, hacross⟩ := hsorted
  rw [hcut] at *
  refine pairwise_append.mpr ⟨hfront, pairwise_cons.mpr ⟨habove, hback⟩, ?_⟩
  intro a ha b hb
  rcases mem_cons.mp hb with rfl | hb
  · exact hbelow a ha
  · exact hacross a ha b hb

theorem mem_insert {r x : Row} :
    x ∈ rows.insertIdx (position cmp rows r.key).1 r ↔ x = r ∨ x ∈ rows := by
  rw [mem_insertIdx (position_fits hsorted r.key).1]

/-- The first key stays, if the new one is not below it. -/
theorem head_insert {r first : Row} (hhead : rows.head? = some first)
    (hle : Le cmp first.key r.key) :
    ∃ a rest, rows.insertIdx (position cmp rows r.key).1 r = a :: rest ∧ cmp a.key first.key =
      .eq := by
  obtain ⟨-, -, habove⟩ := position_fits hsorted r.key
  cases rows with
  | nil => cases hhead
  | cons a rows =>
    cases hhead
    cases hpos : (position cmp (first :: rows) r.key).1 with
    | zero =>
      rw [hpos] at habove
      refine ⟨r, first :: rows, rfl, ?_⟩
      exact eq_of_le_of_le (habove first mem_cons_self) hle
    | succ i => exact ⟨first, rows.insertIdx i r, rfl, Std.ReflCmp.compare_self⟩

end

omit [Std.TransCmp cmp] in
theorem sorted_filter (hsorted : Sorted cmp rows) (p : Row → Bool) :
    Sorted cmp (rows.filter p) := List.Pairwise.filter p hsorted

omit [Std.TransCmp cmp] in
theorem sorted_congr {rows' : List Row} (hkeys : rows'.map Row.key = rows.map Row.key)
    (hsorted : Sorted cmp rows) : Sorted cmp rows' := by
  unfold Sorted at hsorted ⊢
  rw [← pairwise_map (f := Row.key) (R := Le cmp)] at hsorted ⊢
  rwa [hkeys]

end Changes

/-! ## The halves of a leaf -/

theorem split_point_pos (keys : List Bytes) (h : 2 ≤ keys.length) :
    0 < Leaf.split_point cmp keys := by
  unfold Leaf.split_point
  dsimp only
  split
  · split
    · omega
    · omega
  split
  · omega
  · omega

/-- The halves of a leaf with rows. -/
theorem split_leaf_eq (cmp : Compare) {l : LeafNode}
    (hne : l.rows ≠ []) (leaf_pid right_pid : Nat) :
    ∃ mid r, mid = Leaf.split_point cmp (l.rows.map Row.key) ∧ mid < l.rows.length ∧
      (2 ≤ l.rows.length → 0 < mid) ∧ l.rows[mid]? = some r ∧
      split_leaf cmp l leaf_pid right_pid =
        some (r.key, l.left mid r.key right_pid, l.right mid leaf_pid) := by
  have hlt : Leaf.split_point cmp (l.rows.map Row.key) < l.rows.length := by
    rw [← l.rows.length_map Row.key]
    exact Leaf.split_point_lt (by simpa using hne)
  obtain ⟨r, hr⟩ : ∃ r, l.rows[Leaf.split_point cmp (l.rows.map Row.key)]? = some r :=
    ⟨_, getElem?_eq_getElem hlt⟩
  refine ⟨_, r, rfl, hlt, fun htwo => split_point_pos _ (by rwa [length_map]), hr, ?_⟩
  unfold split_leaf
  dsimp only
  rw [hr]

/-! ## Internal pages -/

/-- A key that is not the empty string, which as a high key would stand for none, and so short
that both halves of every internal page have room. -/
def ShortKey (k : Bytes) : Prop := k ≠ [] ∧ k.length ≤ 200

instance (k : Bytes) : Decidable (ShortKey k) := inferInstanceAs (Decidable (_ ∧ _))

open Internal (HalvesFit int_key_data_base)

section Place

variable [Std.TransCmp cmp] {keys : List Bytes}

theorem find_child_eq {n : InternalNode} (hsorted : n.keys.Pairwise (Le cmp))
    (key : Bytes) : n.find_child cmp key = Internal.place cmp n.keys key := by
  refine Search.bisect_eq (fun i hi => ?_) (Search.front_le _ _)
  have hk : n.keys[i]? = some n.keys[i] := getElem?_eq_getElem hi
  rw [hk, Bool.eq_iff_iff, decide_eq_true_eq]
  exact Search.holds_iff_front_le (Search.stays_above hsorted key) hk

theorem le_of_lt_place (hsorted : keys.Pairwise (Le cmp)) {key k : Bytes} {i : Nat}
    (hk : keys[i]? = some k) (hi : i < Internal.place cmp keys key) : Le cmp k key := by
  intro hgt
  have hle := (Search.holds_iff_front_le (Search.stays_above hsorted key) hk).mp
    (beq_iff_eq.mpr hgt)
  unfold Internal.place at hi
  omega

end Place

theorem length_key_ends (keys : List Bytes) :
    (key_ends keys).length = keys.length := by
  unfold key_ends
  rw [length_map, length_range]

theorem int_key_data_base_eq (n : Nat) : int_key_data_base n = 48 + 12 * n := by
  unfold int_key_data_base int_key_end_section Internal.INT_HEADER_SIZE
  omega

/-- A high key with room is read back as it was written. -/
theorem sealedHighKey_eq {children : List Nat} {keys : List Bytes} {hk : Bytes}
    (hlen : children.length = keys.length + 1)
    (hroom : int_key_data_base keys.length + keys.flatten.length + hk.length ≤ PAGE_SIZE) :
    sealedHighKey children keys hk = some hk := by
  have harea : (Page.row 8 children ++ Page.row 4 (key_ends keys) ++
      keys.flatten).length ≤ PAGE_SIZE - hk.length - Internal.INT_HEADER_SIZE := by
    rw [length_append, length_append, Page.length_row, Page.length_row, length_key_ends, hlen]
    rw [int_key_data_base_eq] at hroom
    unfold Internal.INT_HEADER_SIZE
    omega
  have hstop : int_key_data_base keys.length + keys.flatten.length - (PAGE_SIZE - hk.length) = 0 :=
    Nat.sub_eq_zero_of_le (by omega)
  unfold sealedHighKey
  dsimp only
  rw [if_neg (by omega), hstop, drop_eq_nil_of_le harea, nil_append, drop_zero]

section Halves

variable {keys : List Bytes} {sep hk : Bytes}

theorem length_flatten_le (h : ∀ k ∈ keys, ShortKey k) :
    keys.flatten.length ≤ 200 * keys.length := by
  induction keys with
  | nil => exact Nat.le_refl 0
  | cons k keys ih =>
    have hk := (h k mem_cons_self).2
    have ih := ih fun x hx => h x (mem_cons_of_mem _ hx)
    rw [flatten_cons, length_append, length_cons]
    omega

theorem length_flatten_insertIdx {i : Nat} (hi : i ≤ keys.length) :
    (keys.insertIdx i sep).flatten.length = keys.flatten.length + sep.length := by
  rw [(perm_insertIdx sep keys hi).flatten.length_eq, flatten_cons, length_append, Nat.add_comm]

/-- Short separators are halved into pages with room. -/
theorem halvesFit (hkeys : ∀ k ∈ keys, ShortKey k) (hsep : ShortKey sep) (hhk : hk.length ≤ 200)
    (hroom : int_key_data_base keys.length + keys.flatten.length + hk.length ≤ PAGE_SIZE) :
    HalvesFit cmp hk keys sep := by
  have hle : Internal.place cmp keys sep ≤ keys.length := Search.front_le _ _
  unfold HalvesFit
  dsimp only
  have hlen : (keys.insertIdx (Internal.place cmp keys sep) sep).length = _ :=
    length_insertIdx_place keys sep
  have hsum : (keys.insertIdx (Internal.place cmp keys sep) sep).flatten.length = _ :=
    length_flatten_insertIdx hle
  have hall : ∀ k ∈ keys.insertIdx (Internal.place cmp keys sep) sep, ShortKey k := by
    intro k hk
    rcases eq_or_mem_of_mem_insertIdx hk with rfl | hk
    · exact hsep
    · exact hkeys k hk
  generalize keys.insertIdx (Internal.place cmp keys sep) sep = all at hlen hsum hall ⊢
  have htake : (all.take (all.length / 2 + 1)).flatten.length ≤ _ :=
    length_flatten_le fun k hk => hall k (mem_of_mem_take hk)
  have hdrop : (all.drop (all.length / 2 + 1)).flatten.length ≤ _ :=
    length_flatten_le fun k hk => hall k (mem_of_mem_drop hk)
  have hcut : (all.take (all.length / 2 + 1)).flatten.length +
      (all.drop (all.length / 2 + 1)).flatten.length = all.flatten.length := by
    rw [← length_append, ← flatten_append, take_append_drop]
  rw [length_take] at htake
  rw [length_drop] at hdrop
  rw [int_key_data_base_eq] at hroom ⊢
  rw [int_key_data_base_eq]
  unfold PAGE_SIZE at hroom ⊢
  have hsep' := hsep.2
  refine ⟨fun hmid => ?_, ?_, ?_⟩
  · exact (hall [] (mem_of_getElem? hmid)).1 rfl
  · omega
  · omega

/-- The halves of an internal page with a new separator. -/
theorem split_internal_eq [Std.TransCmp cmp] {n : InternalNode}
    (hsorted : n.keys.Pairwise (Le cmp)) (hlen : n.children.length = n.keys.length + 1)
    (hfit : HalvesFit cmp n.high_key n.keys sep) (right_pid right_child : Nat) :
    ∃ all cs mid push_up, all = n.keys.insertIdx (Internal.place cmp n.keys sep) sep ∧
      cs = n.children.insertIdx (Internal.place cmp n.keys sep + 1) right_child ∧
      mid = all.length / 2 ∧ all[mid]? = some push_up ∧
      n.split_internal cmp right_pid sep right_child = some (push_up,
        { keys := all.take mid, children := cs.take (mid + 1), high_key := push_up,
          rightlink := some right_pid, incomplete_split := true },
        { keys := all.drop (mid + 1), children := cs.drop (mid + 1), high_key := n.high_key,
          rightlink := n.rightlink, incomplete_split := false }) := by
  have hle : Internal.place cmp n.keys sep ≤ n.keys.length := Search.front_le _ _
  have hall : (n.keys.insertIdx (Internal.place cmp n.keys sep) sep).length = _ :=
    length_insertIdx_place n.keys sep
  have hcs : (n.children.insertIdx (Internal.place cmp n.keys sep + 1) right_child).length =
      n.keys.length + 2 := by
    rw [length_insertIdx_of_le_length (by omega), hlen]
  unfold HalvesFit at hfit
  dsimp only at hfit
  obtain ⟨-, hleft, hright⟩ := hfit
  unfold InternalNode.split_internal
  dsimp only
  rw [find_child_eq hsorted]
  generalize n.keys.insertIdx (Internal.place cmp n.keys sep) sep = all at *
  generalize n.children.insertIdx (Internal.place cmp n.keys sep + 1) right_child = cs at *
  have hmid : all.length / 2 < all.length := by omega
  obtain ⟨push_up, hpush⟩ : ∃ push_up, all[all.length / 2]? = some push_up :=
    ⟨_, getElem?_eq_getElem hmid⟩
  refine ⟨all, cs, all.length / 2, push_up, rfl, rfl, rfl, hpush, ?_⟩
  rw [hpush]
  dsimp only
  have htake : (all.take (all.length / 2 + 1)).flatten.length =
      (all.take (all.length / 2)).flatten.length + push_up.length := by
    rw [take_add_one, hpush, flatten_append, length_append]
    simp
  rw [sealedHighKey_eq (by rw [length_drop, length_drop]; omega)
      (by rw [length_drop]; exact hright),
    sealedHighKey_eq (by rw [length_take, length_take]; omega)
      (by rw [length_take, Nat.min_eq_left hmid.le]; omega)]

end Halves

end FluxDB.Tree
