-- The list pages of the index are views of the byte pages: a byte page that stores a list page
-- answers the tests for room as the list page does, and a split of the bytes stores the halves of
-- the lists. That holds of an internal half that is too long too: what is read back as its high
-- key is what the list model says.
import FluxDB.TreeRows

namespace FluxDB.Tree

open Bytes List Except
open Leaf (split_point)
open Internal (int_key_data_base key_ends)

/-! ## Leaves -/

/-- The descriptor of a long value: its first overflow page and its length. -/
def Row.descriptor (r : Row) : Bytes :=
  leBytes 8 (r.pages.headD 0) ++ leBytes 4 r.value.length

/-- The record that a version is stored as. -/
def Row.record (r : Row) : Leaf.Rec where
  key := r.key
  value := if r.pages = [] then r.value else r.descriptor
  rec_type := if r.pages = [] then 0 else 1
  xmin := r.xmin
  xmax := r.xmax

theorem Row.length_record_value (r : Row) : r.record.value.length = r.stored_len := by
  unfold record stored_len descriptor
  dsimp only
  split
  · rfl
  · rw [length_append, length_leBytes, length_leBytes]
    rfl

theorem Row.size_eq (r : Row) : r.size = Leaf.SLOT_SIZE + r.record.size := by
  unfold size Leaf.Rec.size
  rw [r.length_record_value]
  rfl

theorem map_key_record (rows : List Row) :
    (rows.map Row.record).map Leaf.Rec.key = rows.map Row.key := by
  rw [map_map]
  rfl

/-- The byte page stores the leaf. Its flags are left out. -/
structure LeafNode.Stored (l : LeafNode) (b : Page) : Prop where
  laid : ∃ write_end, Leaf.Laid b write_end l.high_key (l.rows.map Row.record)
  rightlink : Leaf.rightlink b = .ok (l.rightlink.map UInt64.ofNat)
  prev : Leaf.prev_page b = .ok (l.prev.map UInt64.ofNat)

/-- The free space counters of the page give the answer of the list page. -/
theorem LeafNode.Stored.can_fit_direct {l : LeafNode} {b : Page} (h : l.Stored b) (r : Row) :
    Leaf.can_fit_direct b r.key.length r.stored_len = .ok (decide (l.CanFit r)) := by
  obtain ⟨write_end, hlaid⟩ := h.laid
  have hsum : (l.rows.map Row.size).sum =
      ((l.rows.map Row.record).map fun r => Leaf.SLOT_SIZE + r.size).sum := by
    rw [map_map]
    exact congrArg sum (map_congr_left fun r _ => r.size_eq)
  have hused := hlaid.used
  have hfree : write_end - Leaf.slot_offset_at l.high_key.length (l.rows.map Row.record).length =
      PAGE_SIZE - l.used := by
    unfold used Leaf.slot_offset_at
    rw [hsum, Leaf.sum_slots]
    omega
  unfold Leaf.can_fit_direct
  rw [hlaid.free_space, ok_bind, hfree]
  rfl

theorem map_ofNat_toNat (p : UInt64) : (some p.toNat).map UInt64.ofNat = some p :=
  congrArg some p.ofNat_toNat

/-- The split of the bytes stores the halves of the list page, on both sides of the separator. -/
theorem split_leaf_stored {cmp : Compare}
    {canon : Bytes → Bytes} {mem : UInt64 → Page} {leaf_pid right_pid : UInt64}
    {l : LeafNode} (h : l.Stored (mem leaf_pid))
    (hleaf : Leaf.WellFormed cmp canon (mem leaf_pid) l.high_key (l.rows.map Row.record))
    (hne : l.rows ≠ []) (hleaf_pid : leaf_pid ≠ 0) (hright_pid : right_pid ≠ 0)
    (hneighbour : ∀ p, Leaf.rightlink (mem leaf_pid) = .ok (some p) → mem p OFF_PAGE_TYPE = LEAF)
    (lsn : Nat) : ∃ s left right,
      Leaf.split_leaf_ly cmp canon mem leaf_pid right_pid lsn = .ok s ∧
      split_leaf cmp l leaf_pid.toNat right_pid.toNat = some (s.separator_key, left, right) ∧
      left.Stored s.left ∧ right.Stored s.right := by
  obtain ⟨mid, hmid⟩ : ∃ mid, mid = split_point cmp (l.rows.map Row.key) := ⟨_, rfl⟩
  have hmid' : mid = split_point cmp ((l.rows.map Row.record).map Leaf.Rec.key) := by
    rw [map_key_record, hmid]
  obtain ⟨s, r, we, we', hs, hr, hsep, hlaid, hlaid', hrl, hll, hrp, hlp, -⟩ :=
    hleaf.split_ok (by simpa using hne) hleaf_pid hright_pid hneighbour lsn hmid'
  rw [getElem?_map] at hr
  obtain ⟨row, hrow, rfl⟩ := Option.map_eq_some_iff.mp hr
  refine ⟨s, l.left mid row.key right_pid.toNat, l.right mid leaf_pid.toNat, hs, ?_,
    ⟨⟨we, ?_⟩, ?_, ?_⟩, ⟨⟨we', ?_⟩, ?_, ?_⟩⟩
  · unfold split_leaf
    dsimp only
    rw [← hmid, hrow, hsep]
    rfl
  · rw [← map_take] at hlaid
    exact hlaid
  · exact hll.trans (congrArg Except.ok (map_ofNat_toNat right_pid).symm)
  · exact hlp.trans h.prev
  · rw [← map_drop] at hlaid'
    exact hlaid'
  · exact hrl.trans h.rightlink
  · exact hrp.trans (congrArg Except.ok (map_ofNat_toNat leaf_pid).symm)

/-! ## Internal pages -/

/-- The byte page stores the internal page. Its flag is left out. -/
structure InternalNode.Stored (n : InternalNode) (b : Page) : Prop where
  laid : Internal.Laid b n.children n.keys
  high_key : Internal.stored_high_key b = .ok n.high_key
  rightlink : Internal.rightlink b = .ok (n.rightlink.map UInt64.ofNat)

theorem high_key_len_of_stored {b : Page} {hk : Bytes}
    (h : Internal.stored_high_key b = .ok hk) :
    b.read_u16 Internal.OFF_INT_HIGH_KEY_LEN = .ok hk.length := by
  obtain ⟨len, hlen, h⟩ := bind_eq_ok.mp h
  unfold Page.read_bytes at h
  split at h
  · cases h
    unfold Page.slice
    rw [length_map, length_range]
    exact hlen
  · cases h

theorem InternalNode.Stored.can_fit {n : InternalNode} {b : Page} (h : n.Stored b) (len : Nat) :
    Internal.can_fit b len = .ok (decide (n.CanFit len)) := by
  have hnum : b.read_u16 Internal.OFF_INT_NUM_KEYS = .ok n.keys.length := h.laid.num_keys
  have hused : Internal.used_bytes b = .ok n.used_bytes := by
    unfold Internal.used_bytes
    rw [hnum, ok_bind, h.laid.key_start le_rfl, ok_bind, take_length]
    rfl
  unfold Internal.can_fit Internal.free_bytes
  rw [hused, ok_bind, high_key_len_of_stored h.high_key, ok_bind, ok_bind]
  rfl

section Sealed

variable {t : Internal.Builder} {hk : Bytes}

theorem shows_append {b : Page} {off : Nat} {xs ys : Bytes} (hx : b.Shows off xs)
    (hy : b.Shows (off + xs.length) ys) : b.Shows off (xs ++ ys) := by
  rw [Page.shows_iff] at hx hy ⊢
  intro i x hi
  by_cases hlt : i < xs.length
  · rw [getElem?_append_left hlt] at hi
    exact hx i x hi
  · rw [getElem?_append_right (by omega)] at hi
    have := hy _ x hi
    rwa [show off + xs.length + (i - xs.length) = off + i by omega] at this

/-- The page shows the children, the ends and the key data one behind the other. -/
theorem shows_area {b : Page} {children : List Nat} {keys : List Bytes}
    (h : Internal.Laid b children keys) : b.Shows Internal.INT_HEADER_SIZE
      (Page.row 8 children ++ Page.row 4 (key_ends keys) ++ keys.flatten) := by
  have h8 := Page.length_row 8 children
  have h4 := Page.length_row 4 (key_ends keys)
  rw [h.arity] at h8
  rw [Internal.length_key_ends] at h4
  refine shows_append (shows_append h.children ?_) ?_
  · rw [h8]
    exact h.ends
  · rw [length_append, h8, h4, ← Nat.add_assoc]
    exact h.data

/-- What a sealed page shows in the place of its high key. -/
theorem finish_sealed (h : Internal.Headed t.data hk)
    (harity : t.children.length = t.keys.length + 1) {hk' : Bytes}
    (hsealed : sealedHighKey t.children t.keys hk = some hk') :
    ∃ b, t.finish = .ok b ∧ Internal.Laid b t.children t.keys ∧ Internal.Headed b hk' ∧
      ∀ i, 6 ≤ i → i < 40 → b i = t.data i := by
  have hsize := h.size
  obtain ⟨stop, hstop⟩ :
    ∃ stop, stop = int_key_data_base t.keys.length + t.keys.flatten.length := ⟨_, rfl⟩
  obtain ⟨area, harea⟩ : ∃ area, area =
    Page.row 8 t.children ++ Page.row 4 (key_ends t.keys) ++ t.keys.flatten := ⟨_, rfl⟩
  have hlen : area.length + 40 = stop := by
    rw [harea, hstop, length_append, length_append, Page.length_row, Page.length_row,
      Internal.length_key_ends, harity]
    unfold int_key_data_base Internal.int_key_end_section Internal.INT_HEADER_SIZE
    omega
  unfold sealedHighKey at hsealed
  dsimp only at hsealed
  rw [← harea, ← hstop] at hsealed
  split at hsealed
  · cases hsealed
  rename_i hle
  cases hsealed
  obtain ⟨b, hb, hlaid, hkeep⟩ := Internal.Builder.finish_eq h harity (by omega)
  rw [← hstop] at hkeep
  have hshows := shows_area hlaid
  rw [← harea] at hshows
  have hkey := h.high_key
  have hlen' : (area.drop (PAGE_SIZE - hk.length - Internal.INT_HEADER_SIZE) ++
      hk.drop (stop - (PAGE_SIZE - hk.length))).length = hk.length := by
    rw [length_append, length_drop, length_drop]
    unfold Internal.INT_HEADER_SIZE
    omega
  refine ⟨b, hb, hlaid, ⟨hlaid.type, ?_, ?_, by omega⟩, fun i h1 h2 => hkeep i (by omega)⟩
  · rw [hlen']
    refine h.len.congr fun i h1 h2 => hkeep i ?_
    rw [length_leBytes] at h2
    unfold Internal.OFF_INT_HIGH_KEY_LEN at h1 h2
    omega
  · rw [hlen']
    unfold Internal.INT_HEADER_SIZE at hshows ⊢
    rw [Page.shows_iff] at hshows hkey ⊢
    intro i x hi
    by_cases hlt : i < (area.drop (PAGE_SIZE - hk.length - 40)).length
    · rw [getElem?_append_left hlt, getElem?_drop] at hi
      have := hshows _ x hi
      rwa [show 40 + (PAGE_SIZE - hk.length - 40 + i) = PAGE_SIZE - hk.length + i by omega] at this
    · rw [getElem?_append_right (by omega), getElem?_drop] at hi
      rw [length_drop] at hlt hi
      rw [hkeep _ (by omega)]
      have := hkey _ x hi
      rwa [show PAGE_SIZE - hk.length + (stop - (PAGE_SIZE - hk.length) +
        (i - (area.length - (PAGE_SIZE - hk.length - 40)))) = PAGE_SIZE - hk.length + i by omega]
        at this

theorem exists_sealed {keys : List Bytes} (hk : Bytes)
    (hroom : int_key_data_base keys.length + keys.flatten.length ≤ PAGE_SIZE)
    (children : List Nat) : ∃ hk', sealedHighKey children keys hk = some hk' := by
  unfold sealedHighKey
  dsimp only
  rw [if_neg (Nat.not_lt.mpr hroom)]
  exact ⟨_, rfl⟩

end Sealed

/-- The split of the bytes stores the halves of the list page, and it panics where that one has
none. -/
theorem split_internal_stored {cmp : Compare} [Std.TransCmp cmp]
    {canon : Bytes → Bytes} {n : InternalNode} {b : Page} (h : n.Stored b)
    (hpage : Internal.WellFormed cmp canon b n.high_key n.children n.keys) {sep_key : Bytes}
    (hsep : sep_key.length ≤ MAX_KEY_SIZE) (henc : canon sep_key = sep_key)
    (internal_pid right_child : UInt64) {right_pid : UInt64} (hright_pid : right_pid ≠ 0)
    (lsn : Nat) :
    (∀ up left right,
      n.split_internal cmp right_pid.toNat sep_key right_child.toNat = some (up, left, right) →
      ∃ s, Internal.split_internal_ly cmp canon b internal_pid right_pid sep_key right_child lsn =
          .ok s ∧ s.separator_key = up ∧ left.Stored s.left ∧ right.Stored s.right) ∧
    (n.split_internal cmp right_pid.toNat sep_key right_child.toNat = none →
      ∀ s, Internal.split_internal_ly cmp canon b internal_pid right_pid sep_key right_child lsn ≠
        .ok s) := by
  obtain ⟨all, hall⟩ : ∃ all,
    all = n.keys.insertIdx (Internal.place cmp n.keys sep_key) sep_key := ⟨_, rfl⟩
  obtain ⟨cs, hcs⟩ : ∃ cs, cs = n.children.insertIdx (Internal.place cmp n.keys sep_key + 1)
    right_child.toNat := ⟨_, rfl⟩
  obtain ⟨mid, hmid⟩ : ∃ mid, mid = all.length / 2 := ⟨_, rfl⟩
  obtain ⟨up, tl, tr, hup, hheadl, hkeysl, hchildl, hheadr, hkeysr, hchildr, hlinkl,
    ⟨old, hold, hzero, hlinkr⟩, hsplit⟩ :=
    hpage.split_eq hsep henc internal_pid right_pid right_child lsn hall hcs hmid
  have hlen : all.length = n.keys.length + 1 := by rw [hall, Internal.length_insertIdx_place]
  have hlenc : cs.length = n.keys.length + 2 := by
    have hplace : Internal.place cmp n.keys sep_key ≤ n.keys.length := Search.front_le _ _
    rw [hcs, length_insertIdx_of_le_length (by rw [h.laid.arity]; omega), h.laid.arity]
  have hlist : n.split_internal cmp right_pid.toNat sep_key right_child.toNat =
      (sealedHighKey tr.children tr.keys n.high_key).bind fun right_hk =>
        (sealedHighKey tl.children tl.keys up).map fun left_hk => (up,
          ⟨tl.keys, tl.children, left_hk, some right_pid.toNat, true⟩,
          ⟨tr.keys, tr.children, right_hk, n.rightlink, false⟩) := by
    unfold InternalNode.split_internal
    dsimp only
    rw [find_child_eq hpage.sorted, ← hall, ← hcs, ← hmid, hup, hkeysl, hchildl, hkeysr, hchildr]
    dsimp only
    cases sealedHighKey _ _ n.high_key
    · rfl
    · cases sealedHighKey _ _ up <;> rfl
  constructor
  · intro up' left right heq
    rw [hlist] at heq
    obtain ⟨right_hk, hright, heq⟩ := Option.bind_eq_some_iff.mp heq
    obtain ⟨left_hk, hleft, heq⟩ := Option.map_eq_some_iff.mp heq
    cases heq
    obtain ⟨l, hl, hlaidl, hhighl, hkeepl⟩ := finish_sealed hheadl
      (by rw [hkeysl, hchildl, length_take, length_take]; omega) hleft
    obtain ⟨r, hr, hlaidr, hhighr, hkeepr⟩ := finish_sealed hheadr
      (by rw [hkeysr, hchildr, length_drop, length_drop]; omega) hright
    obtain ⟨l₁, l₂, hl₁, hl₂, hstampl⟩ := Internal.stamp_left l lsn
    obtain ⟨r₁, hr₁, hstampr⟩ := Page.set_lsn_ok r lsn
    refine ⟨⟨up, l₂, r₁⟩, ?_, rfl, ⟨?_, ?_, ?_⟩, ⟨?_, ?_, ?_⟩⟩
    · rw [hsplit, hr, ok_bind, hl, ok_bind, hl₁, ok_bind, hl₂, ok_bind, hr₁, ok_bind]
    · exact hlaidl.congr fun i hi => hstampl i (by omega) (by omega)
    · have hsize := hhighl.size
      exact (hhighl.congr fun i hi => hstampl i (by omega) (by omega)).stored_high_key
    · have hlink := (hlinkl.congr fun i h1 h2 => hkeepl i (by omega) (by omega)).congr
        fun i h1 h2 => hstampl i (by omega) (by omega)
      refine (hlink.rightlink (by simpa using hright_pid)).trans ?_
      exact congrArg Except.ok (map_ofNat_toNat right_pid).symm
    · exact hlaidr.congr fun i hi => hstampr i (by omega)
    · have hsize := hhighr.size
      exact (hhighr.congr fun i hi => hstampr i (by omega)).stored_high_key
    · have hlink := (hlinkr.congr fun i h1 h2 => hkeepr i (by omega) (by omega)).congr
        fun i h1 h2 => hstampr i (by omega)
      exact (hlink.rightlink hzero).trans (hold.symm.trans h.rightlink)
  · intro hnone s hs
    obtain ⟨hrooml, hroomr⟩ := hpage.split_room hsep henc _ _ _ _ hall hcs hmid hs
    rw [← hkeysl] at hrooml
    rw [← hkeysr] at hroomr
    obtain ⟨right_hk, hright⟩ := exists_sealed n.high_key hroomr tr.children
    obtain ⟨left_hk, hleft⟩ := exists_sealed up hrooml tl.children
    rw [hlist, hright, hleft] at hnone
    cases hnone

end FluxDB.Tree
