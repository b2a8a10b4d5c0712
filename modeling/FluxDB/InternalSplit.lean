-- The split of an internal page. The separators are halved by number, whatever their sizes, and
-- the one in the middle goes up and stands a second time on the left page, as its high key. The
-- builder does not compare the key data with it, so a half that is too long is cut into.
import FluxDB.InternalPages
import FluxDB.LeafSplit

namespace FluxDB.Internal

open Bytes Comparator List Except Page

/-! ## The split -/

/-- What a split leaves: the separator that goes up, and both halves. -/
structure Split where
  separator_key : Bytes
  left : Page
  right : Page

/-- The test of the search for the place of the separator. -/
def above (cmp : Compare) (keys : List Bytes)
    (sep_key : Bytes) (i : Nat) : Except PageFault Bool :=
  match keys[i]? with
  | none => .error .panic
  | some key => .ok (cmp key sep_key == .gt)

def set_old_high_key (t : Builder) : Option Bytes → Except PageFault Builder
  | none => .ok t
  | some hk => t.set_high_key hk

def build_right (right_pid : UInt64) (first : Nat) (pairs : List (Bytes × Nat))
    (old_rightlink : Option UInt64) (old_high_key : Option Bytes) :
    Except PageFault Page := do
  let builder ← (Builder.new right_pid).push_first_child first
  let builder ← builder.push_all pairs
  let builder ← builder.set_rightlink old_rightlink
  let builder ← set_old_high_key builder old_high_key
  builder.finish

def build_left (internal_pid right_pid : UInt64) (push_up_key : Bytes) (first : Nat)
    (pairs : List (Bytes × Nat)) : Except PageFault Page := do
  let builder ← (Builder.new internal_pid).set_rightlink (some right_pid)
  let builder ← builder.set_high_key push_up_key
  let builder ← builder.push_first_child first
  let builder ← builder.push_all pairs
  builder.finish

/-- `split_internal_ly` on the page, with the page that `new_page` has returned and the LSN of the
record. A key is decoded when it is read and encoded again when it is written. -/
def split_internal_ly (cmp : Compare)
    (canon : Bytes → Bytes) (b : Page) (internal_pid right_pid : UInt64)
    (sep_key : Bytes) (right_child : UInt64) (lsn : Nat) : Except PageFault Split := do
  mutator b
  let old_rightlink ← rightlink b
  let old_high_key ← high_key_bytes b
  let (children, keys) ← snapshot b
  let keys := keys.map canon
  let insert_idx ← Search.bisectM (above cmp keys sep_key) keys.length 0 keys.length
  let keys := keys.insertIdx insert_idx sep_key
  let children := children.insertIdx (insert_idx + 1) right_child.toNat
  let mid := keys.length / 2
  match keys[mid]?, children[mid + 1]?, children[0]? with
  | some push_up_key, some right_first, some left_first => do
    let right ← build_right right_pid right_first
      (((keys.drop (mid + 1)).map canon).zip (children.drop (mid + 2))) old_rightlink old_high_key
    let left ← build_left internal_pid right_pid push_up_key left_first
      (((keys.take mid).map canon).zip ((children.drop 1).take mid))
    let left ← left.set_incomplete_split
    let left ← left.set_lsn lsn
    let right ← right.set_lsn lsn
    .ok ⟨push_up_key, left, right⟩
  | _, _, _ => .error .panic

/-! ## Well-formed internal pages -/

/-- The page is an internal page that reads as this high key, these children and these separators,
which are sorted and end in front of the high key. -/
structure WellFormed (cmp : Compare) (canon : Bytes → Bytes)
    (b : Page) (hk : Bytes) (children : List Nat) (keys : List Bytes) : Prop where
  type : b OFF_PAGE_TYPE = INTERNAL
  high_key : stored_high_key b = .ok hk
  snapshot : snapshot b = .ok (children, keys)
  encoded : ∀ k ∈ keys, canon k = k
  sorted : keys.Pairwise (Le cmp)
  sizes : ∀ k ∈ keys, k.length ≤ MAX_KEY_SIZE
  room : int_key_data_base keys.length + keys.flatten.length + hk.length ≤ PAGE_SIZE

theorem snapshot_inv {b : Page} {children : List Nat} {keys : List Bytes}
    (h : snapshot b = .ok (children, keys)) :
    num_keys b = .ok keys.length ∧ children.length = keys.length + 1 ∧
      (∀ (i : Nat) k, keys[i]? = some k → key_bytes b keys.length i = .ok k) ∧
      ∀ (i : Nat) c, children[i]? = some c → child_page_at b i = .ok c ∧ c < 2 ^ 64 := by
  unfold Internal.snapshot at h
  obtain ⟨n, hn, h⟩ := bind_eq_ok.mp h
  obtain ⟨cs, hcs, h⟩ := bind_eq_ok.mp h
  obtain ⟨ks, hks, h⟩ := bind_eq_ok.mp h
  cases h
  obtain ⟨hlen, hchild⟩ := of_mapM_range hcs
  obtain ⟨rfl, hkey⟩ := of_mapM_range hks
  exact ⟨hn, hlen, hkey, fun i c hc => ⟨hchild i c hc, read_nat_lt (hchild i c hc)⟩⟩

theorem Laid.keys_eq {b : Page} {children children' : List Nat} {keys keys' : List Bytes}
    (hlaid : Laid b children keys) (h : Internal.snapshot b = .ok (children', keys')) :
    keys' = keys := by
  obtain ⟨hcount, -, hkey, -⟩ := snapshot_inv h
  have hlen : keys'.length = keys.length := Except.ok.inj (hcount.symm.trans hlaid.num_keys)
  apply ext_getElem hlen
  intro i h1 h2
  have hread := hkey i _ (getElem?_eq_getElem h1)
  rw [hlen, hlaid.key_bytes (getElem?_eq_getElem h2)] at hread
  exact (Except.ok.inj hread).symm

/-! ## With the separator -/

section Split

variable {cmp : Compare} {canon : Bytes → Bytes} {b : Page}
  {hk : Bytes} {children : List Nat} {keys : List Bytes}

/-- The place of the separator: behind those that are not above it. -/
def place (cmp : Compare) (keys : List Bytes)
    (sep_key : Bytes) : Nat := Search.front (fun k => cmp k sep_key == .gt) keys

/-- Both halves fit with their high keys, if the separators are halved by number; and the one in
the middle is not the empty string, which as a high key stands for no high key. -/
def HalvesFit (cmp : Compare) (hk : Bytes)
    (keys : List Bytes) (sep_key : Bytes) : Prop :=
  let all := keys.insertIdx (place cmp keys sep_key) sep_key
  let mid := all.length / 2
  all[mid]? ≠ some [] ∧
  int_key_data_base mid + (all.take (mid + 1)).flatten.length ≤ PAGE_SIZE ∧
  int_key_data_base (all.length - (mid + 1)) + (all.drop (mid + 1)).flatten.length + hk.length ≤
    PAGE_SIZE

theorem length_insertIdx_place (keys : List Bytes) (sep_key : Bytes) :
    (keys.insertIdx (place cmp keys sep_key) sep_key).length = keys.length + 1 :=
  length_insertIdx_of_le_length (Search.front_le _ _) _

section Found

variable [Std.TransCmp cmp]

theorem bisectM_above_eq (hsorted : keys.Pairwise (Le cmp)) (sep_key : Bytes) :
    Search.bisectM (above cmp keys sep_key) keys.length 0 keys.length =
      .ok (place cmp keys sep_key) := by
  refine Search.bisectM_above hsorted sep_key fun i k hk => ?_
  unfold above
  rw [hk]

/-- The search of the descent finds the place of the split. -/
theorem find_child_eq (h : snapshot b = .ok (children, keys)) (hsorted : keys.Pairwise (Le cmp))
    (search_key : Bytes) :
    ∃ child, find_child cmp b search_key = .ok (place cmp keys search_key, child) ∧
      children[place cmp keys search_key]? = some child := by
  obtain ⟨hcount, harity, hkey, hchild⟩ := snapshot_inv h
  have hplace : place cmp keys search_key ≤ keys.length := Search.front_le _ _
  obtain ⟨child, hc⟩ : ∃ child, children[place cmp keys search_key]? = some child :=
    ⟨_, getElem?_eq_getElem (by omega)⟩
  refine ⟨child, ?_, hc⟩
  unfold Internal.find_child
  rw [hcount, ok_bind]
  have hfound : Search.bisectM (fun i => do
      let key ← Internal.key_bytes b keys.length i
      .ok (cmp key search_key == .gt)) keys.length 0 keys.length =
        .ok (place cmp keys search_key) := by
    refine Search.bisectM_above hsorted search_key fun i k hk => ?_
    rw [hkey i k hk, ok_bind]
  rw [hfound, ok_bind, (hchild _ _ hc).1, ok_bind]

theorem WellFormed.find_child (h : WellFormed cmp canon b hk children keys) (sep_key : Bytes) :
    ∃ child, find_child cmp b sep_key = .ok (place cmp keys sep_key, child) ∧
      children[place cmp keys sep_key]? = some child := find_child_eq h.snapshot h.sorted sep_key

end Found

/-! ## Both halves -/

theorem build_right_eq (hk : Bytes) (right_pid : UInt64) (first : Nat)
    (pairs : List (Bytes × Nat)) (old_rightlink : Option UInt64)
    (hsize : hk.length + 40 ≤ PAGE_SIZE) :
    ∃ t : Builder, build_right right_pid first pairs old_rightlink
        (if hk = [] then none else some hk) = t.finish ∧
      Headed t.data hk ∧ t.keys = pairs.map Prod.fst ∧
      t.children = first :: pairs.map Prod.snd ∧ Linked t.data old_rightlink := by
  obtain ⟨data, hlink, hheaded, hlinked⟩ := Builder.set_rightlink_ok
    (t := ⟨(Builder.new right_pid).data, pairs.map Prod.fst, first :: pairs.map Prod.snd⟩)
    (Builder.headed_new right_pid) old_rightlink
  have hpush : (Builder.new right_pid).push_first_child first =
      .ok ⟨(Builder.new right_pid).data, [], [first]⟩ := rfl
  unfold build_right
  rw [hpush, ok_bind, Builder.push_all_ok (by simp), ok_bind]
  dsimp only
  rw [nil_append, singleton_append, hlink, ok_bind]
  split
  · next hnil =>
    subst hnil
    exact ⟨_, rfl, hheaded, rfl, rfl, hlinked⟩
  obtain ⟨data', hhigh, hheaded', hkeep⟩ := Builder.set_high_key_ok
    (t := ⟨data, pairs.map Prod.fst, first :: pairs.map Prod.snd⟩) hheaded hsize
  unfold set_old_high_key
  dsimp only
  rw [hhigh, ok_bind]
  refine ⟨_, rfl, hheaded', rfl, rfl, hlinked.congr fun i h1 h2 => hkeep i ?_ ?_⟩ <;> omega

theorem build_left_eq (internal_pid right_pid : UInt64) (first : Nat)
    (pairs : List (Bytes × Nat)) (hsize : hk.length + 40 ≤ PAGE_SIZE) :
    ∃ t : Builder, build_left internal_pid right_pid hk first pairs = t.finish ∧
      Headed t.data hk ∧ t.keys = pairs.map Prod.fst ∧
      t.children = first :: pairs.map Prod.snd ∧ Linked t.data (some right_pid) := by
  obtain ⟨data, hlink, hheaded, hlinked⟩ := Builder.set_rightlink_ok
    (Builder.headed_new internal_pid) (some right_pid)
  obtain ⟨data', hhigh, hheaded', hkeep⟩ :=
    Builder.set_high_key_ok (t := ⟨data, [], []⟩) hheaded hsize
  have hpush : Builder.push_first_child ⟨data', [], []⟩ first = .ok ⟨data', [], [first]⟩ := rfl
  unfold build_left
  rw [hlink, ok_bind]
  unfold Builder.new
  dsimp only
  rw [hhigh, ok_bind, hpush, ok_bind, Builder.push_all_ok (by simp), ok_bind]
  refine ⟨_, rfl, hheaded', rfl, rfl, hlinked.congr fun i h1 h2 => hkeep i ?_ ?_⟩ <;> omega

/-- The flag and the LSN are neither part of the layout nor of the high key. -/
theorem stamp_left (l : Page) (lsn : Nat) : ∃ l₁ l₂, l.set_incomplete_split = .ok l₁ ∧
    l₁.set_lsn lsn = .ok l₂ ∧ ∀ i, i ≠ 1 → i < 16 ∨ 24 ≤ i → l₂ i = l i := by
  obtain ⟨l₁, h₁, hkeep₁⟩ := set_incomplete_split_ok l
  obtain ⟨l₂, h₂, hkeep₂⟩ := set_lsn_ok l₁ lsn
  exact ⟨l₁, l₂, h₁, h₂, fun i hi hi' => (hkeep₂ i hi').trans (hkeep₁ i hi)⟩

section Halves

variable [Std.TransCmp cmp] (h : WellFormed cmp canon b hk children keys) {sep_key : Bytes}
  (hsep : sep_key.length ≤ MAX_KEY_SIZE) (henc : canon sep_key = sep_key)
  (internal_pid right_pid right_child : UInt64) (lsn : Nat) {all : List Bytes}
  {all_children : List Nat} (hall : all = keys.insertIdx (place cmp keys sep_key) sep_key)
  (hchildren : all_children = children.insertIdx (place cmp keys sep_key + 1) right_child.toNat)
  {mid : Nat} (hmid : mid = all.length / 2)
include h hsep henc hall hchildren hmid

/-- The split comes down to sealing both halves. -/
theorem WellFormed.split_eq : ∃ (push_up : Bytes) (tl tr : Builder), all[mid]? = some push_up ∧
      Headed tl.data push_up ∧ tl.keys = all.take mid ∧ tl.children = all_children.take (mid + 1) ∧
      Headed tr.data hk ∧ tr.keys = all.drop (mid + 1) ∧
      tr.children = all_children.drop (mid + 1) ∧ Linked tl.data (some right_pid) ∧
      (∃ right, rightlink b = .ok right ∧ right ≠ some 0 ∧ Linked tr.data right) ∧
      split_internal_ly cmp canon b internal_pid right_pid sep_key right_child lsn = (do
        let right ← tr.finish
        let left ← tl.finish
        let left ← left.set_incomplete_split
        let left ← left.set_lsn lsn
        let right ← right.set_lsn lsn
        .ok ⟨push_up, left, right⟩) := by
  obtain ⟨hcount, harity, hkey, hchild⟩ := snapshot_inv h.snapshot
  have hroom := h.room
  have hbase := le_int_key_data_base keys.length
  have hplace : place cmp keys sep_key ≤ keys.length := Search.front_le _ _
  have hlen : all.length = keys.length + 1 := by rw [hall, length_insertIdx_place]
  have hlenc : all_children.length = keys.length + 2 := by
    rw [hchildren, length_insertIdx_of_le_length (by omega), harity]
  have hcanon : ∀ ks : List Bytes, ks.Sublist all → ks.map canon = ks := by
    intro ks hks
    refine (map_congr_left fun k hk' => ?_).trans (map_id ks)
    have hmem := hks.subset hk'
    rw [hall] at hmem
    rcases eq_or_mem_of_mem_insertIdx hmem with rfl | hmem
    · exact henc
    · exact h.encoded k hmem
  have hcanon' : keys.map canon = keys :=
    (map_congr_left fun k hk' => h.encoded k hk').trans (map_id keys)
  obtain ⟨push_up, hpush⟩ : ∃ push_up, all[mid]? = some push_up :=
    ⟨_, getElem?_eq_getElem (by omega)⟩
  obtain ⟨right_first, hright⟩ : ∃ c, all_children[mid + 1]? = some c :=
    ⟨_, getElem?_eq_getElem (by omega)⟩
  obtain ⟨left_first, hleft⟩ : ∃ c, all_children[0]? = some c := ⟨_, getElem?_eq_getElem (by omega)⟩
  have hsize : push_up.length + 40 ≤ PAGE_SIZE := by
    have hle : push_up.length ≤ MAX_KEY_SIZE := by
      have hmem := mem_of_getElem? hpush
      rw [hall] at hmem
      rcases eq_or_mem_of_mem_insertIdx hmem with rfl | hmem
      · exact hsep
      · exact h.sizes _ hmem
    unfold MAX_KEY_SIZE at hle
    unfold PAGE_SIZE
    omega
  obtain ⟨old_rightlink, hlink, hzero⟩ : ∃ p, rightlink b = .ok p ∧ p ≠ some 0 :=
    Leaf.exists_link b (by decide)
  have hhigh : high_key_bytes b = .ok (if hk = [] then none else some hk) := by
    unfold high_key_bytes
    rw [h.high_key, ok_bind]
  obtain ⟨tr, hbr, hheadr, hkeysr, hchildr, hlinkr⟩ := build_right_eq hk right_pid right_first
    ((all.drop (mid + 1)).zip (all_children.drop (mid + 2))) old_rightlink (by omega)
  obtain ⟨tl, hbl, hheadl, hkeysl, hchildl, hlinkl⟩ :=
    build_left_eq internal_pid right_pid left_first
    ((all.take mid).zip ((all_children.drop 1).take mid)) hsize
  refine ⟨push_up, tl, tr, hpush, hheadl, ?_, ?_, hheadr, ?_, ?_, hlinkl, ⟨_, hlink, hzero, hlinkr⟩,
    ?_⟩
  · rw [hkeysl, map_fst_zip (by simp only [length_take, length_drop]; omega)]
  · rw [hchildl, map_snd_zip (by simp only [length_take, length_drop]; omega)]
    cases all_children with
    | nil => cases hleft
    | cons c cs =>
      cases hleft
      rfl
  · rw [hkeysr, map_fst_zip (by rw [length_drop, length_drop]; omega)]
  · rw [hchildr, map_snd_zip (by rw [length_drop, length_drop]; omega)]
    obtain ⟨hlt, rfl⟩ := List.getElem?_eq_some_iff.mp hright
    exact (drop_eq_getElem_cons hlt).symm
  unfold split_internal_ly mutator
  rw [if_pos h.type, ok_bind, hlink, ok_bind, hhigh, ok_bind, h.snapshot, ok_bind]
  dsimp only
  rw [hcanon', bisectM_above_eq h.sorted, ok_bind, ← hall, ← hchildren, ← hmid, hpush, hright,
    hleft]
  dsimp only
  rw [hcanon _ (drop_sublist _ _), hcanon _ (take_sublist _ _), hbr, hbl]

/-- If the key data of both halves ends inside the pages, the split gives two pages that hold the
halves. Their high keys are there if the key data ends in front of them. -/
theorem WellFormed.split_ok
    (hleft : int_key_data_base (all.take mid).length + (all.take mid).flatten.length ≤ PAGE_SIZE)
    (hright : int_key_data_base (all.drop (mid + 1)).length +
      (all.drop (mid + 1)).flatten.length ≤ PAGE_SIZE) :
    ∃ s, split_internal_ly cmp canon b internal_pid right_pid sep_key right_child lsn = .ok s ∧
      all[mid]? = some s.separator_key ∧
      Laid s.left (all_children.take (mid + 1)) (all.take mid) ∧
      Laid s.right (all_children.drop (mid + 1)) (all.drop (mid + 1)) ∧
      (int_key_data_base (all.take mid).length + (all.take mid).flatten.length +
        s.separator_key.length ≤ PAGE_SIZE → Headed s.left s.separator_key) ∧
      (int_key_data_base (all.drop (mid + 1)).length + (all.drop (mid + 1)).flatten.length +
        hk.length ≤ PAGE_SIZE → Headed s.right hk) := by
  obtain ⟨push_up, tl, tr, hpush, hheadl, hkeysl, hchildl, hheadr, hkeysr, hchildr, -, -, hsplit⟩ :=
    h.split_eq hsep henc internal_pid right_pid right_child lsn hall hchildren hmid
  have hlen : all.length = keys.length + 1 := by rw [hall, length_insertIdx_place]
  have hlenc : all_children.length = keys.length + 2 := by
    have hplace : place cmp keys sep_key ≤ keys.length := Search.front_le _ _
    have harity := (snapshot_inv h.snapshot).2.1
    rw [hchildren, length_insertIdx_of_le_length (by omega), harity]
  obtain ⟨l, hl, hlaidl, hhighl⟩ := Builder.finish_ok hheadl
    (by rw [hkeysl, hchildl, length_take, length_take]; omega) (by rwa [hkeysl])
  obtain ⟨r, hr, hlaidr, hhighr⟩ := Builder.finish_ok hheadr
    (by rw [hkeysr, hchildr, length_drop, length_drop]; omega) (by rwa [hkeysr])
  rw [hkeysl, hchildl] at hlaidl
  rw [hkeysr, hchildr] at hlaidr
  rw [hkeysl] at hhighl
  rw [hkeysr] at hhighr
  obtain ⟨l₁, l₂, hl₁, hl₂, hkeepl⟩ := stamp_left l lsn
  obtain ⟨r₁, hr₁, hkeepr⟩ := set_lsn_ok r lsn
  refine ⟨⟨push_up, l₂, r₁⟩, ?_, hpush, ?_, ?_, ?_, ?_⟩
  · rw [hsplit, hr, ok_bind, hl, ok_bind, hl₁, ok_bind, hl₂, ok_bind, hr₁, ok_bind]
  · exact hlaidl.congr fun i hi => hkeepl i (by omega) (by omega)
  · exact hlaidr.congr fun i hi => hkeepr i (by omega)
  · intro hfit
    refine (hhighl hfit).congr fun i hi => ?_
    have hbase := le_int_key_data_base (all.take mid).length
    dsimp only at hfit hi
    exact hkeepl i (by omega) (by omega)
  intro hfit
  refine (hhighr hfit).congr fun i hi => ?_
  have hbase := le_int_key_data_base (all.drop (mid + 1)).length
  exact hkeepr i (by omega)

/-- The builder panics where the key data does not end inside the page. -/
theorem WellFormed.split_room {s : Split}
    (hs : split_internal_ly cmp canon b internal_pid right_pid sep_key right_child lsn = .ok s) :
    int_key_data_base (all.take mid).length + (all.take mid).flatten.length ≤ PAGE_SIZE ∧
      int_key_data_base (all.drop (mid + 1)).length + (all.drop (mid + 1)).flatten.length ≤
        PAGE_SIZE := by
  obtain ⟨push_up, tl, tr, -, -, hkeysl, -, -, hkeysr, -, -, -, hsplit⟩ :=
    h.split_eq hsep henc internal_pid right_pid right_child lsn hall hchildren hmid
  rw [hsplit] at hs
  obtain ⟨r, hr, hs⟩ := bind_eq_ok.mp hs
  obtain ⟨l, hl, -⟩ := bind_eq_ok.mp hs
  rw [← hkeysl, ← hkeysr]
  exact ⟨Builder.finish_room hl, Builder.finish_room hr⟩

omit hmid in
/-- A sealed half is well-formed if its high key is there. -/
theorem WellFormed.half {b' : Page} {hk' : Bytes} {cs : List Nat} {ks : List Bytes}
    (hlaid : Laid b' cs ks) (hheaded : Headed b' hk') (hcs : cs.Sublist all_children)
    (hks : ks.Sublist all)
    (hroom : int_key_data_base ks.length + ks.flatten.length + hk'.length ≤ PAGE_SIZE) :
    WellFormed cmp canon b' hk' cs ks := by
  have hmem : ∀ k ∈ ks, k = sep_key ∨ k ∈ keys := by
    intro k hk
    have hk := hks.subset hk
    rw [hall] at hk
    exact eq_or_mem_of_mem_insertIdx hk
  refine ⟨hlaid.type, hheaded.stored_high_key, hlaid.snapshot fun c hc => ?_, fun k hk => ?_, ?_,
    fun k hk => ?_, hroom⟩
  · have hc := hcs.subset hc
    rw [hchildren] at hc
    rcases eq_or_mem_of_mem_insertIdx hc with rfl | hc
    · exact right_child.toNat_lt
    obtain ⟨i, hi⟩ := mem_iff_getElem?.mp hc
    exact ((snapshot_inv h.snapshot).2.2.2 i c hi).2
  · rcases hmem k hk with rfl | hk
    · exact henc
    · exact h.encoded k hk
  · rw [hall] at hks
    exact (Search.sorted_insertIdx h.sorted sep_key).sublist hks
  rcases hmem k hk with rfl | hk
  · exact hsep
  · exact h.sizes k hk

end Halves

end Split

/-- An internal split is lossless exactly if both halves fit with their high keys: the pages are
well-formed, so their key data ends in front of the high key, and the separators and children are
the old ones with the new ones at the place that the descent finds. -/
theorem an_internal_split_is_lossless_iff_both_halves_fit
    {cmp : Compare} [Std.TransCmp cmp]
    {canon : Bytes → Bytes} {b : Page} {hk : Bytes} {children : List Nat}
    {keys : List Bytes} (hpage : WellFormed cmp canon b hk children keys)
    {sep_key : Bytes} (hsep : sep_key.length ≤ MAX_KEY_SIZE) (henc : canon sep_key = sep_key)
    (internal_pid right_pid right_child : UInt64) (lsn : Nat) :
    (∃ (s : Split) (idx child : Nat) (left_children right_children : List Nat)
        (lefts rights : List Bytes),
      split_internal_ly cmp canon b internal_pid right_pid sep_key right_child lsn = .ok s ∧
      find_child cmp b sep_key = .ok (idx, child) ∧
      WellFormed cmp canon s.left s.separator_key left_children lefts ∧
      WellFormed cmp canon s.right hk right_children rights ∧
      high_key_bytes s.left = .ok (some s.separator_key) ∧
      high_key_bytes s.right = high_key_bytes b ∧
      lefts ++ s.separator_key :: rights = keys.insertIdx idx sep_key ∧
      left_children ++ right_children = children.insertIdx (idx + 1) right_child.toNat) ↔
    HalvesFit cmp hk keys sep_key := by
  obtain ⟨all, hall⟩ : ∃ all, all = keys.insertIdx (place cmp keys sep_key) sep_key := ⟨_, rfl⟩
  obtain ⟨cs, hcs⟩ : ∃ cs, cs =
      children.insertIdx (place cmp keys sep_key + 1) right_child.toNat := ⟨_, rfl⟩
  obtain ⟨mid, hmid⟩ : ∃ mid, mid = all.length / 2 := ⟨_, rfl⟩
  have hlen : all.length = keys.length + 1 := by rw [hall, length_insertIdx_place]
  have hltake : (all.take mid).length = mid := by rw [List.length_take]; omega
  have hldrop : (all.drop (mid + 1)).length = all.length - (mid + 1) := List.length_drop
  have hbytes : ∀ p k, stored_high_key p = .ok k →
      high_key_bytes p = .ok (if k = [] then none else some k) := by
    intro p k hp
    unfold high_key_bytes
    rw [hp, Except.ok_bind]
  have hmiddle : ∀ k, all[mid]? = some k →
      (all.take (mid + 1)).flatten.length = (all.take mid).flatten.length + k.length := by
    intro k hk
    obtain ⟨hlt, rfl⟩ := List.getElem?_eq_some_iff.mp hk
    rw [List.take_succ_eq_append_getElem hlt, List.flatten_append, List.length_append,
      List.flatten_singleton]
  unfold HalvesFit
  dsimp only
  rw [← hall, ← hmid]
  constructor
  · rintro ⟨s, idx, child, left_children, right_children, lefts, rights, hs, -, hleft, hright,
      hhigh, -, -, -⟩
    obtain ⟨hrooml, hroomr⟩ := hpage.split_room hsep henc _ _ _ _ hall hcs hmid hs
    obtain ⟨s', hs', hup, hlaidl, hlaidr, -, -⟩ :=
      hpage.split_ok hsep henc internal_pid right_pid right_child lsn hall hcs hmid hrooml hroomr
    obtain rfl : s' = s := Except.ok.inj (hs'.symm.trans hs)
    obtain rfl := hlaidl.keys_eq hleft.snapshot
    obtain rfl := hlaidr.keys_eq hright.snapshot
    have h1 := hleft.room
    have h2 := hright.room
    rw [hltake] at h1
    rw [hldrop] at h2
    refine ⟨fun hnil => ?_, ?_, h2⟩
    · rw [hup] at hnil
      rw [hbytes _ _ hleft.high_key, if_pos (Option.some.inj hnil)] at hhigh
      cases hhigh
    · rw [hmiddle _ hup]
      omega
  · rintro ⟨hne, hfitl, hfitr⟩
    obtain ⟨k, hk'⟩ : ∃ k, all[mid]? = some k := ⟨_, List.getElem?_eq_getElem (by omega)⟩
    rw [hmiddle k hk'] at hfitl
    obtain ⟨s, hs, hup, hlaidl, hlaidr, hheadl, hheadr⟩ :=
      hpage.split_ok hsep henc internal_pid right_pid right_child lsn hall hcs hmid
        (by rw [hltake]; omega) (by rw [hldrop]; omega)
    obtain rfl : k = s.separator_key := Option.some.inj (hk'.symm.trans hup)
    rw [← hldrop] at hfitr
    have hfitl' : int_key_data_base (all.take mid).length + (all.take mid).flatten.length +
        s.separator_key.length ≤ PAGE_SIZE := by rw [hltake]; omega
    obtain ⟨child, hfind, -⟩ := hpage.find_child sep_key
    have hleft := hpage.half hsep henc right_child hall hcs hlaidl (hheadl hfitl')
      (List.take_sublist _ _) (List.take_sublist _ _) hfitl'
    have hright := hpage.half hsep henc right_child hall hcs hlaidr (hheadr hfitr)
      (List.drop_sublist _ _) (List.drop_sublist _ _) hfitr
    refine ⟨s, _, child, _, _, _, _, hs, hfind, hleft, hright, ?_, ?_, ?_, ?_⟩
    · rw [hbytes _ _ hleft.high_key, if_neg fun hnil => hne (hup.trans (congrArg some hnil))]
    · rw [hbytes _ _ hright.high_key, hbytes _ _ hpage.high_key]
    · rw [← hall]
      obtain ⟨hlt, heq⟩ := List.getElem?_eq_some_iff.mp hup
      rw [← heq, ← List.drop_eq_getElem_cons hlt, List.take_append_drop]
    · rw [← hcs, List.take_append_drop]

/-! ## A full page -/

/-- Every list of separators that fits stands on a page. -/
theorem exists_page (cmp : Compare) (children : List Nat)
    (keys : List Bytes) (harity : children.length = keys.length + 1)
    (hlt : ∀ c ∈ children, c < 2 ^ 64) (hsorted : keys.Pairwise (Le cmp))
    (hsizes : ∀ k ∈ keys, k.length ≤ MAX_KEY_SIZE)
    (hroom : int_key_data_base keys.length + keys.flatten.length ≤ PAGE_SIZE) :
    ∃ b, WellFormed cmp id b [] children keys ∧ ∀ len, can_fit b len = .ok (decide
      (8 + 4 + len ≤ PAGE_SIZE - (int_key_data_base keys.length + keys.flatten.length))) := by
  obtain ⟨b, -, hlaid, hheaded⟩ := Builder.finish_ok (t := ⟨(Builder.new 1).data, keys, children⟩)
    (Builder.headed_new 1) harity hroom
  have hheaded := hheaded hroom
  refine ⟨b, ⟨hlaid.type, hheaded.stored_high_key, hlaid.snapshot hlt, fun _ _ => rfl, hsorted,
    hsizes, hroom⟩, fun len => ?_⟩
  have hcount : b.read_u16 OFF_INT_NUM_KEYS = .ok keys.length := hlaid.num_keys
  have hlen : b.read_u16 OFF_INT_HIGH_KEY_LEN = .ok 0 :=
    hheaded.len.read_nat (by decide) (by decide)
  have hstart := hlaid.key_start le_rfl
  dsimp only at hstart
  unfold can_fit free_bytes used_bytes
  rw [hcount, ok_bind, hstart, ok_bind, ok_bind, hlen, ok_bind, ok_bind, take_length, Nat.sub_zero]
  rfl

/-- Eight separators of 480 bytes and seven of four bytes fill a page. -/
def fullKeys : List Bytes :=
  (List.range 8).map (fun i => List.replicate 480 (UInt8.ofNat (i + 1))) ++
    (List.range 7).map fun i => List.replicate 4 (UInt8.ofNat (i + 9))

def fullChildren : List Nat := (List.range 16).map (· + 20)

theorem exists_full_page : ∃ b, WellFormed (List.compareLex compare) id b [] fullChildren fullKeys ∧
    ∀ len, can_fit b len = .ok false := by
  obtain ⟨b, hpage, hfit⟩ := exists_page (List.compareLex compare) fullChildren fullKeys
    (by decide +kernel) (by decide +kernel) (by decide +kernel) (by decide +kernel)
    (by decide +kernel)
  have hfull : int_key_data_base fullKeys.length + fullKeys.flatten.length = PAGE_SIZE := by
    decide +kernel
  refine ⟨b, hpage, fun len => ?_⟩
  rw [hfit, hfull, Nat.sub_self, decide_eq_false (by omega)]

theorem a_small_separator_splits_a_full_page : ∃ b,
    WellFormed (List.compareLex compare) id b [] fullChildren fullKeys ∧
    can_fit b 300 = .ok false ∧
    ∃ (s : Split) (lefts rights : List Bytes),
      split_internal_ly (List.compareLex compare) id b 1 2 (List.replicate 300 77) 99 0 = .ok s ∧
      high_key_bytes s.left = .ok (some s.separator_key) ∧
      lefts ++ s.separator_key :: rights = fullKeys.insertIdx 15 (List.replicate 300 77) := by
  obtain ⟨b, hpage, hfit⟩ := exists_full_page
  have hsep : (List.replicate 300 (77 : UInt8)).length ≤ MAX_KEY_SIZE := by decide +kernel
  obtain ⟨s, idx, child, -, -, lefts, rights, hs, hfind, -, -, hhigh, -, hkeys, -⟩ :=
    (an_internal_split_is_lossless_iff_both_halves_fit hpage hsep rfl 1 2 99 0).mpr
      (by unfold HalvesFit; decide +kernel)
  obtain ⟨child', hfind', -⟩ := hpage.find_child (List.replicate 300 77)
  have hidx : place (List.compareLex compare) fullKeys (List.replicate 300 77) = 15 := by
    decide +kernel
  rw [hfind', hidx] at hfind
  cases hfind
  exact ⟨b, hpage, hfit 300, s, lefts, rights, hs, hhigh, hkeys⟩

/-- A separator of 512 bytes goes to the left half of a full page with all the long ones. The split
succeeds, and the key data of the left page runs over its high key. -/
theorem a_long_separator_overwrites_the_high_key : ∃ b,
    WellFormed (List.compareLex compare) id b [] fullChildren fullKeys ∧
    can_fit b 512 = .ok false ∧
    ∃ s, split_internal_ly (List.compareLex compare) id b 1 2 (List.replicate 512 3) 99 0 = .ok s ∧
      stored_high_key s.left ≠ .ok s.separator_key := by
  obtain ⟨b, hpage, hfit⟩ := exists_full_page
  have hsep : (List.replicate 512 (3 : UInt8)).length ≤ MAX_KEY_SIZE := by decide +kernel
  obtain ⟨all, hall⟩ : ∃ all, all = fullKeys.insertIdx
    (place (List.compareLex compare) fullKeys (List.replicate 512 3)) (List.replicate 512 3) :=
      ⟨_, rfl⟩
  obtain ⟨mid, hmid⟩ : ∃ mid, mid = all.length / 2 := ⟨_, rfl⟩
  obtain ⟨s, hs, hup, hlaid, -⟩ := hpage.split_ok hsep rfl 1 2 99 0 hall rfl hmid
    (by rw [hmid, hall]; decide +kernel) (by rw [hmid, hall]; decide +kernel)
  refine ⟨b, hpage, hfit 512, s, hs, fun hread => ?_⟩
  have hpushed : s.separator_key = List.replicate 480 8 := by
    have hget : all[mid]? = some (List.replicate 480 8) := by
      rw [hmid, hall]
      decide +kernel
    exact Option.some.inj (hup.symm.trans hget)
  -- the first byte of the high key is one of the seventh long separator
  have hdata : s.left 3616 = 7 := by
    have hbyte := Page.shows_iff.mp hlaid.data 3472 7 (by rw [hmid, hall]; decide +kernel)
    have hbase : int_key_data_base (all.take mid).length = 144 := by
      rw [hmid, hall]
      decide +kernel
    rwa [hbase] at hbyte
  have hshown : s.left.Shows 3616 s.separator_key := by
    unfold stored_high_key at hread
    obtain ⟨len, -, hread⟩ := Except.bind_eq_ok.mp hread
    unfold Page.read_bytes at hread
    split at hread
    · have hslice := Except.ok.inj hread
      have hlen : len = 480 := by
        have h := congrArg List.length hslice
        rwa [Page.length_slice, hpushed, List.length_replicate] at h
      subst hlen
      unfold Page.Shows
      rw [hpushed, List.length_replicate] at *
      exact hslice
    · cases hread
  rw [hpushed] at hshown
  have hbyte := Page.shows_iff.mp hshown 0 8 rfl
  rw [Nat.add_zero, hdata] at hbyte
  cases hbyte

end FluxDB.Internal
