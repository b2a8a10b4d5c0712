-- The split of a leaf. The split point is where the key changes behind the middle, or in front of
-- it, or the middle itself; the two halves are built afresh. No record is lost or changed, and
-- both halves fit: the left page takes the separator as its high key, but it has lost the record
-- that the separator comes from.
import FluxDB.Lib.Comparator
import FluxDB.LeafPages
import FluxDB.LoggedChanges

namespace FluxDB.Leaf

open Bytes Comparator List Except Page

/-! ## The split point -/

section SplitPoint

variable (cmp : Compare)

/-- How many keys at the front are the same as `key`. -/
def run_length (key : Bytes) (keys : List Bytes) : Nat :=
  (keys.takeWhile fun k => cmp k key == .eq).length

/-- Where the key changes: forward from the middle, or else backward from it, or else nowhere. -/
def split_point (keys : List Bytes) : Nat :=
  let target := keys.length / 2
  let target_key := keys[target]?.getD []
  let forward := target + run_length cmp target_key (keys.drop target)
  let split_at :=
    if forward ≥ keys.length then target - run_length cmp target_key (keys.take target).reverse
    else forward
  if split_at = 0 then target else split_at

end SplitPoint

/-! ## The split -/

/-- What a split leaves: the separator, both halves, and the old right neighbour. -/
structure Split where
  separator_key : Bytes
  left : Page
  right : Page
  neighbour : Option (UInt64 × Page)

/-- The back-link of the old right neighbour goes to the new page. -/
def fix_neighbour (mem : UInt64 → Page) (right_pid : UInt64) :
    Option UInt64 → Except PageFault (Option (UInt64 × Page))
  | none => .ok none
  | some old_right_pid => do
    mutator (mem old_right_pid)
    let b ← set_prev_page (mem old_right_pid) (some right_pid)
    .ok (some (old_right_pid, b))

def stamp_neighbour (lsn : Nat) :
    Option (UInt64 × Page) → Except PageFault (Option (UInt64 × Page))
  | none => .ok none
  | some (pid, b) => do
    let b ← b.set_lsn lsn
    .ok (some (pid, b))

/-- A record as it goes into a new page: its key is decoded and encoded again. -/
def Rec.carried (canon : Bytes → Bytes) (r : Rec) : Rec := { r with key := canon r.key }

/-- `split_leaf_ly` on the pages in the pool, with the page that `new_page` has returned and the
LSN of the record. -/
def split_leaf_ly (cmp : Compare) (canon : Bytes → Bytes)
    (mem : UInt64 → Page) (leaf_pid right_pid : UInt64) (lsn : Nat) : Except PageFault Split := do
  let recs ← records (mem leaf_pid)
  let recs := recs.map (Rec.carried canon)
  let mid := split_point cmp (recs.map Rec.key)
  match recs[mid]? with
  | none => .error .panic
  | some r => do
    let old_rightlink ← rightlink (mem leaf_pid)
    let old_high_key ← high_key_bytes (mem leaf_pid)
    let right ← build right_pid old_high_key old_rightlink (some leaf_pid) (recs.drop mid)
    let neighbour ← fix_neighbour mem right_pid old_rightlink
    let prev ← prev_page (mem leaf_pid)
    let left ← build leaf_pid (some r.key) (some right_pid) prev (recs.take mid)
    let left ← left.set_incomplete_split
    let left ← left.set_lsn lsn
    let right ← right.set_lsn lsn
    let neighbour ← stamp_neighbour lsn neighbour
    .ok ⟨r.key, left, right, neighbour⟩

/-! ## Where the key changes -/

section Order

variable {cmp : Compare} {keys : List Bytes}

theorem run_length_cons (key k : Bytes) (ks : List Bytes) :
    run_length cmp key (k :: ks) = if cmp k key = .eq then run_length cmp key ks + 1 else 0 := by
  unfold run_length
  rw [takeWhile_cons]
  by_cases h : cmp k key = .eq
  · rw [if_pos (beq_iff_eq.mpr h), if_pos h, length_cons]
  · rw [if_neg (fun hk => h (beq_iff_eq.mp hk)), if_neg h, length_nil]

theorem run_length_le (key : Bytes) (ks : List Bytes) :
    run_length cmp key ks ≤ ks.length := (takeWhile_sublist _).length_le

theorem eq_of_lt_run_length {key k : Bytes} (ks : List Bytes) {i : Nat}
    (hi : i < run_length cmp key ks) (hk : ks[i]? = some k) : cmp k key = .eq := by
  induction ks generalizing i with
  | nil => cases hk
  | cons k' ks ih =>
    rw [run_length_cons] at hi
    split at hi
    · next heq =>
      cases i with
      | zero =>
        cases hk
        exact heq
      | succ i => exact ih (by omega) hk
    · cases hi

theorem ne_of_run_length {key k : Bytes} (ks : List Bytes)
    (hk : ks[run_length cmp key ks]? = some k) : cmp k key ≠ .eq := by
  induction ks with
  | nil => cases hk
  | cons k' ks ih =>
    rw [run_length_cons] at hk
    split at hk
    · exact ih hk
    rename_i hne
    cases hk
    exact hne

theorem split_point_lt (hne : keys ≠ []) : split_point cmp keys < keys.length := by
  have hpos := length_pos_iff.mpr hne
  unfold split_point
  dsimp only
  split
  · split
    · omega
    · omega
  split
  · omega
  · omega

variable [Std.TransCmp cmp]

/-- Every key in front of the split point is below the one there, unless all keys are the same. -/
theorem lt_split_point (hsorted : keys.Pairwise (Le cmp)) {i : Nat} {k s : Bytes}
    (hi : i < split_point cmp keys) (hk : keys[i]? = some k)
    (hs : keys[split_point cmp keys]? = some s) :
    cmp k s = .lt ∨ ∀ a ∈ keys, ∀ b ∈ keys, cmp a b = .eq := by
  have hpos : 0 < keys.length := by
    have := Maps.lt_of_getElem? hk
    omega
  obtain ⟨t, ht⟩ : ∃ t, t = keys.length / 2 := ⟨_, rfl⟩
  have htlt : t < keys.length := by omega
  obtain ⟨tk, htk⟩ : ∃ tk, keys[t]? = some tk := ⟨_, getElem?_eq_getElem htlt⟩
  have hdrop : ∀ j, (keys.drop t)[j]? = keys[t + j]? := fun j => getElem?_drop
  have hfirst : 0 < run_length cmp tk (keys.drop t) := by
    have h0 : (keys.drop t)[0]? = some tk := (hdrop 0).trans htk
    by_contra hz
    rw [← Nat.eq_zero_of_not_pos hz] at h0
    exact ne_of_run_length _ h0 Std.ReflCmp.compare_self
  unfold split_point at hi hs
  dsimp only at hi hs
  rw [← ht, htk, Option.getD_some] at hi hs
  by_cases hforward : t + run_length cmp tk (keys.drop t) ≥ keys.length
  · rw [if_pos hforward] at hi hs
    obtain ⟨g, hg⟩ : ∃ g, g = run_length cmp tk (keys.take t).reverse := ⟨_, rfl⟩
    have hgt : g ≤ t := by
      have : run_length cmp tk (keys.take t).reverse ≤ _ := run_length_le _ _
      rw [length_reverse, length_take] at this
      omega
    have hback : ∀ j, j < t → (keys.take t).reverse[j]? = keys[t - 1 - j]? := by
      intro j hj
      rw [getElem?_reverse (by rw [length_take]; omega), length_take,
        getElem?_take_of_lt (by omega)]
      congr 1
      omega
    -- from `t - g` on, every key is the same as `tk`
    have hsame : ∀ j a, t - g ≤ j → keys[j]? = some a → cmp a tk = .eq := by
      intro j a hj ha
      by_cases hjt : t ≤ j
      · have hlt := Maps.lt_of_getElem? ha
        refine eq_of_lt_run_length (keys.drop t) (i := j - t) (by omega) ?_
        rw [hdrop, Nat.add_sub_cancel' hjt]
        exact ha
      refine eq_of_lt_run_length (keys.take t).reverse (i := t - 1 - j) (by omega) ?_
      rw [hback _ (by omega), show t - 1 - (t - 1 - j) = j by omega]
      exact ha
    rw [← hg] at hi hs
    by_cases hz : t - g = 0
    · right
      intro a ha b hb
      obtain ⟨ja, hja⟩ := mem_iff_getElem?.mp ha
      obtain ⟨jb, hjb⟩ := mem_iff_getElem?.mp hb
      exact eq_trans (hsame ja a (by omega) hja) (eq_symm (hsame jb b (by omega) hjb))
    left
    rw [if_neg hz] at hi hs
    have hprev : t - g - 1 < keys.length := by omega
    have hle := le_of_pairwise hsorted (show i ≤ t - g - 1 by omega) hk (getElem?_eq_getElem hprev)
    have hle' := le_of_pairwise hsorted (show t - g - 1 ≤ t by omega)
      (getElem?_eq_getElem hprev) htk
    have hne : cmp keys[t - g - 1] tk ≠ .eq := by
      apply ne_of_run_length (keys.take t).reverse
      rw [← hg, hback g (by omega), show t - 1 - g = t - g - 1 by omega]
      exact getElem?_eq_getElem hprev
    have hlt := (lt_or_eq_of_le hle').resolve_right hne
    exact lt_of_lt_of_le (lt_of_le_of_lt hle hlt) (le_of_eq (eq_symm (hsame (t - g) s le_rfl hs)))
  left
  rw [if_neg hforward] at hi hs
  rw [if_neg (by omega)] at hi hs
  rw [← hdrop] at hs
  have hne := ne_of_run_length _ hs
  rw [hdrop] at hs
  have hlt : cmp tk s = .lt := by
    have hle := le_of_pairwise hsorted (Nat.le_add_right t _) htk hs
    exact (lt_or_eq_of_le hle).resolve_right fun heq => hne (eq_symm heq)
  refine lt_of_le_of_lt ?_ hlt
  by_cases hit : i < t
  · exact le_of_pairwise hsorted hit.le hk htk
  apply Comparator.le_of_eq
  refine eq_of_lt_run_length (keys.drop t) (i := i - t) (by omega) ?_
  rw [hdrop, Nat.add_sub_cancel' (Nat.not_lt.mp hit)]
  exact hk

end Order

/-! ## Well-formed leaves -/

/-- The page is a leaf that reads as this high key and these records, which are sorted and fit. -/
structure WellFormed (cmp : Compare) (canon : Bytes → Bytes)
    (b : Page) (hk : Bytes) (rs : List Rec) : Prop where
  type : b OFF_PAGE_TYPE = LEAF
  high_key : stored_high_key b = .ok hk
  records : records b = .ok rs
  encoded : ∀ r ∈ rs, canon r.key = r.key
  sorted : (rs.map Rec.key).Pairwise (Le cmp)
  high_key_size : hk.length ≤ MAX_KEY_SIZE
  sizes : ∀ r ∈ rs, r.key.length ≤ MAX_KEY_SIZE ∧ r.value.length ≤ OVERFLOW_THRESHOLD
  room : slot_base hk.length + (rs.map fun r => SLOT_SIZE + r.size).sum ≤ PAGE_SIZE

/-- Stamps that were read from a page fit their field. -/
theorem stamps_of_records {b : Page} {rs : List Rec} (h : records b = .ok rs) :
    ∀ r ∈ rs, r.xmin < 2 ^ 64 ∧ r.xmax < 2 ^ 64 := by
  intro r hr
  unfold records at h
  obtain ⟨n, -, h⟩ := bind_eq_ok.mp h
  obtain ⟨i, hri⟩ := mem_iff_getElem?.mp hr
  have hi := (of_mapM_range h).2 i r hri
  unfold record_at at hi
  obtain ⟨hkl, -, hi⟩ := bind_eq_ok.mp hi
  obtain ⟨rec_base, -, hi⟩ := bind_eq_ok.mp hi
  obtain ⟨key_len, -, hi⟩ := bind_eq_ok.mp hi
  obtain ⟨val_len, -, hi⟩ := bind_eq_ok.mp hi
  obtain ⟨rec_type, -, hi⟩ := bind_eq_ok.mp hi
  obtain ⟨xmin, hxmin, hi⟩ := bind_eq_ok.mp hi
  obtain ⟨xmax, hxmax, hi⟩ := bind_eq_ok.mp hi
  obtain ⟨key, -, hi⟩ := bind_eq_ok.mp hi
  obtain ⟨value, -, hi⟩ := bind_eq_ok.mp hi
  cases hi
  exact ⟨read_nat_lt hxmin, read_nat_lt hxmax⟩

/-- A link that was read is a link to a page other than the superblock. -/
theorem exists_link (b : Page) {off : Nat} (hoff : off + 8 ≤ PAGE_SIZE) :
    ∃ p, (b.read_u64 off >>= fun v => Except.ok (Payload.link v)) = .ok p ∧ p ≠ some 0 := by
  have hread : b.read_u64 off = .ok (leNat (b.slice off 8)) := by
    unfold read_u64 read_nat read_bytes
    rw [if_pos hoff, ok_bind]
  refine ⟨_, by rw [hread, ok_bind], ?_⟩
  have hlt := leNat_lt (b.slice off 8)
  rw [length_slice] at hlt
  unfold Payload.link
  split
  · next hv =>
    intro h
    apply hv
    have hz := congrArg UInt64.toNat (Option.some.inj h)
    rw [UInt64.toNat_ofNat_of_lt' hlt] at hz
    exact hz
  · exact nofun

theorem links_congr {b b' : Page} (h : ∀ i, 24 ≤ i → i < 40 → b' i = b i) :
    rightlink b' = rightlink b ∧ prev_page b' = prev_page b := by
  have hread : ∀ off, 24 ≤ off → off + 8 ≤ 40 → b'.read_u64 off = b.read_u64 off := by
    intro off h1 h2
    unfold read_u64 read_nat read_bytes
    rw [slice_congr fun i hi1 hi2 => h i (by omega) (by omega)]
  unfold rightlink prev_page
  rw [hread OFF_LEAF_RIGHTLINK (by decide) (by decide), hread OFF_LEAF_PREV (by decide) (by decide)]
  exact ⟨rfl, rfl⟩

theorem fix_neighbour_ok (mem : UInt64 → Page) {right_pid : UInt64} (hright : right_pid ≠ 0)
    (old_right : Option UInt64) (hleaf : ∀ p, old_right = some p → mem p OFF_PAGE_TYPE = LEAF)
    (lsn : Nat) : ∃ n n', fix_neighbour mem right_pid old_right = .ok n ∧
      stamp_neighbour lsn n = .ok n' ∧
      ∀ p, old_right = some p → ∃ b, n' = some (p, b) ∧ prev_page b = .ok (some right_pid) := by
  cases old_right with
  | none => exact ⟨none, none, rfl, rfl, nofun⟩
  | some p =>
    obtain ⟨b, hb, hkeep⟩ := set_lsn_ok
      ((mem p).put OFF_LEAF_PREV (leBytes 8 ((some right_pid).getD 0).toNat)) lsn
    refine ⟨some (p, (mem p).put OFF_LEAF_PREV (leBytes 8 ((some right_pid).getD 0).toNat)),
      some (p, b), ?_, ?_, ?_⟩
    · simp only [fix_neighbour, mutator, set_prev_page, write_u64]
      rw [if_pos (hleaf p rfl), write_nat_ok (by decide)]
      rfl
    · unfold stamp_neighbour
      dsimp only
      rw [hb]
      rfl
    intro q hq
    cases hq
    refine ⟨b, rfl, ?_⟩
    rw [(links_congr fun i h1 _ => hkeep i (.inr h1)).2]
    exact read_link (shows_put _ _ _) (by decide) (by simpa using hright)

/-! ## Both halves -/

section Halves

variable {cmp : Compare} {canon : Bytes → Bytes} {b : Page}
  {hk : Bytes} {rs : List Rec}

theorem sum_slots (rs : List Rec) : (rs.map fun r => SLOT_SIZE + r.size).sum =
    rs.length * SLOT_SIZE + (rs.map Rec.size).sum := by
  induction rs with
  | nil => rfl
  | cons r rs ih =>
    simp only [map_cons, sum_cons, length_cons, ih, Nat.add_mul, Nat.one_mul]
    omega

theorem WellFormed.part (h : WellFormed cmp canon b hk rs) {b' : Page} {write_end : Nat}
    {hk' : Bytes} {rs' : List Rec} (hlaid : Laid b' write_end hk' rs')
    (hsub : rs'.Sublist rs) (hsize : hk'.length ≤ MAX_KEY_SIZE) :
    WellFormed cmp canon b' hk' rs' := by
  refine ⟨hlaid.type, hlaid.stored_high_key, ?_, fun r hr => h.encoded r (hsub.subset hr),
    h.sorted.sublist (hsub.map _), hsize, fun r hr => h.sizes r (hsub.subset hr), ?_⟩
  · exact hlaid.records fun r hr => stamps_of_records h.records r (hsub.subset hr)
  have hroom := hlaid.room
  have hused := hlaid.used
  have hsum := sum_slots rs'
  unfold slot_offset_at at hroom
  omega

theorem sum_take_add_drop (rs : List Rec) (f : Rec → Nat) (n : Nat) :
    ((rs.take n).map f).sum + ((rs.drop n).map f).sum = (rs.map f).sum := by
  rw [← sum_append, ← map_append, take_append_drop]

/-- The left half has room for the separator: it has lost the record with that key. -/
theorem WellFormed.left_fits (h : WellFormed cmp canon b hk rs) {mid : Nat} {r : Rec}
    (hr : rs[mid]? = some r) :
    slot_base r.key.length + ((rs.take mid).map fun r => SLOT_SIZE + r.size).sum ≤ PAGE_SIZE := by
  have hroom := h.room
  have hsize := r.le_size
  have hsum := sum_take_add_drop rs (fun r => SLOT_SIZE + r.size) mid
  obtain ⟨hmid, rfl⟩ := List.getElem?_eq_some_iff.mp hr
  rw [drop_eq_getElem_cons hmid, map_cons, sum_cons] at hsum
  unfold slot_base at hroom ⊢
  omega

theorem WellFormed.right_fits (h : WellFormed cmp canon b hk rs) (mid : Nat) :
    slot_base hk.length + ((rs.drop mid).map fun r => SLOT_SIZE + r.size).sum ≤ PAGE_SIZE := by
  have hroom := h.room
  have hsum := sum_take_add_drop rs (fun r => SLOT_SIZE + r.size) mid
  omega

/-- The split of a well-formed leaf. -/
theorem WellFormed.split_ok {mem : UInt64 → Page} {leaf_pid right_pid : UInt64}
    (hleaf : WellFormed cmp canon (mem leaf_pid) hk rs) (hne : rs ≠ []) (hleaf_pid : leaf_pid ≠ 0)
    (hright_pid : right_pid ≠ 0)
    (hneighbour : ∀ p, rightlink (mem leaf_pid) = .ok (some p) → mem p OFF_PAGE_TYPE = LEAF)
    (lsn : Nat) {mid : Nat} (hmid : mid = split_point cmp (rs.map Rec.key)) :
    ∃ (s : Split) (r : Rec) (we we' : Nat),
      split_leaf_ly cmp canon mem leaf_pid right_pid lsn = .ok s ∧ rs[mid]? = some r ∧
      s.separator_key = r.key ∧ Laid s.left we r.key (rs.take mid) ∧
      Laid s.right we' hk (rs.drop mid) ∧
      rightlink s.right = rightlink (mem leaf_pid) ∧ rightlink s.left = .ok (some right_pid) ∧
      prev_page s.right = .ok (some leaf_pid) ∧ prev_page s.left = prev_page (mem leaf_pid) ∧
      ∀ p, rightlink (mem leaf_pid) = .ok (some p) →
        ∃ b, s.neighbour = some (p, b) ∧ prev_page b = .ok (some right_pid) := by
  obtain ⟨right, hright, hright0⟩ : ∃ p, rightlink (mem leaf_pid) = .ok p ∧ p ≠ some 0 :=
    exists_link _ (by decide)
  obtain ⟨prev, hprev, hprev0⟩ : ∃ p, prev_page (mem leaf_pid) = .ok p ∧ p ≠ some 0 :=
    exists_link _ (by decide)
  have hcarried : rs.map (Rec.carried canon) = rs := by
    refine (List.map_congr_left fun r hr => ?_).trans (List.map_id rs)
    unfold Rec.carried
    rw [hleaf.encoded r hr]
    rfl
  have hlt : mid < rs.length := by
    have hkeys : rs.map Rec.key ≠ [] := by simpa using hne
    have hlt : split_point cmp (rs.map Rec.key) < _ := split_point_lt hkeys
    rwa [← hmid, List.length_map] at hlt
  obtain ⟨r, hr⟩ : ∃ r, rs[mid]? = some r := ⟨_, List.getElem?_eq_getElem hlt⟩
  have hhigh : high_key_bytes (mem leaf_pid) = .ok (if hk = [] then none else some hk) := by
    unfold high_key_bytes
    rw [hleaf.high_key, Except.ok_bind]
  have hget : (if hk = [] then none else some hk : Option Bytes).getD [] = hk := by
    split
    · next h => exact h.symm
    · rfl
  -- both halves are built
  obtain ⟨right₀, we, hbuild, hlaid, hrl, hrp⟩ := build_ok right_pid _ (rs.drop mid)
    hright0 (show some leaf_pid ≠ some 0 by simpa using hleaf_pid)
    (by rw [hget]; exact hleaf.right_fits mid)
  obtain ⟨left₀, we', hbuild', hlaid', hll, hlp⟩ := build_ok leaf_pid (some r.key)
    (rs.take mid) (show some right_pid ≠ some 0 by simpa using hright_pid) hprev0
    (hleaf.left_fits hr)
  rw [hget] at hlaid
  rw [Option.getD_some] at hlaid'
  obtain ⟨n, n', hfix, hstamp, hback⟩ := fix_neighbour_ok mem hright_pid right
    (fun p hp => hneighbour p (by rw [hright, hp])) lsn
  obtain ⟨left₁, hflag, hkeep₁⟩ := Page.set_incomplete_split_ok left₀
  obtain ⟨left₂, hlsn, hkeep₂⟩ := Page.set_lsn_ok left₁ lsn
  obtain ⟨right₁, hlsn', hkeep₃⟩ := Page.set_lsn_ok right₀ lsn
  have hleft : ∀ i, i ≠ 1 → i < 16 ∨ 24 ≤ i → left₂ i = left₀ i :=
    fun i h1 h2 => (hkeep₂ i h2).trans (hkeep₁ i h1)
  refine ⟨⟨r.key, left₂, right₁, n'⟩, r, we', we, ?_, hr, rfl, ?_, ?_, ?_, ?_, ?_, ?_, ?_⟩
  · unfold split_leaf_ly
    rw [hleaf.records, Except.ok_bind, hcarried]
    dsimp only
    rw [← hmid, hr]
    dsimp only
    rw [hright, Except.ok_bind, hhigh, Except.ok_bind, hbuild, Except.ok_bind, hfix,
      Except.ok_bind, hprev, Except.ok_bind, hbuild', Except.ok_bind, hflag, Except.ok_bind, hlsn,
      Except.ok_bind, hlsn', Except.ok_bind, hstamp, Except.ok_bind]
  · exact hlaid'.congr fun i hi => hleft i (by omega) (by omega)
  · exact hlaid.congr fun i hi => hkeep₃ i (by omega)
  · rw [(links_congr fun i h1 _ => hkeep₃ i (Or.inr h1)).1, hrl, hright]
  · rw [(links_congr fun i h1 _ => hleft i (by omega) (Or.inr h1)).1, hll]
  · rw [(links_congr fun i h1 _ => hkeep₃ i (Or.inr h1)).2, hrp]
  · rw [(links_congr fun i h1 _ => hleft i (by omega) (Or.inr h1)).2, hlp, hprev]
  · intro p hp
    rw [hright] at hp
    exact hback p (Except.ok.inj hp)

end Halves

/-- A well-formed leaf splits without a panic. No record is lost or changed, the right page keeps
the high key and the rightlink, the left page gets the first key on the right as its high key, the
links name the pages, and every left key is below the separator unless all keys are the same. -/
theorem a_leaf_split_is_lossless {cmp : Compare} [Std.TransCmp cmp]
    {canon : Bytes → Bytes} {mem : UInt64 → Page} {leaf_pid right_pid : UInt64}
    {hk : Bytes} {rs : List Rec} (hleaf : WellFormed cmp canon (mem leaf_pid) hk rs)
    (hne : rs ≠ []) (hleaf_pid : leaf_pid ≠ 0) (hright_pid : right_pid ≠ 0)
    (hneighbour : ∀ p, rightlink (mem leaf_pid) = .ok (some p) → mem p OFF_PAGE_TYPE = LEAF)
    (lsn : Nat) :
    ∃ (s : Split) (lefts rights : List Rec),
      split_leaf_ly cmp canon mem leaf_pid right_pid lsn = .ok s ∧
      WellFormed cmp canon s.left s.separator_key lefts ∧ WellFormed cmp canon s.right hk rights ∧
      lefts ++ rights = rs ∧ (rights.map Rec.key).head? = some s.separator_key ∧
      rightlink s.right = rightlink (mem leaf_pid) ∧ rightlink s.left = .ok (some right_pid) ∧
      prev_page s.right = .ok (some leaf_pid) ∧ prev_page s.left = prev_page (mem leaf_pid) ∧
      (∀ p, rightlink (mem leaf_pid) = .ok (some p) →
        ∃ b, s.neighbour = some (p, b) ∧ prev_page b = .ok (some right_pid)) ∧
      ((∀ r ∈ lefts, cmp r.key s.separator_key = .lt) ∨
        ∀ r ∈ rs, ∀ r' ∈ rs, cmp r.key r'.key = .eq) := by
  obtain ⟨mid, hmid⟩ : ∃ mid, mid = split_point cmp (rs.map Rec.key) := ⟨_, rfl⟩
  obtain ⟨s, r, we, we', hs, hr, hsep, hlaid, hlaid', hlinks⟩ :=
    hleaf.split_ok hne hleaf_pid hright_pid hneighbour lsn hmid
  obtain ⟨hrl, hll, hrp, hlp, hback⟩ := hlinks
  have hsize := (hleaf.sizes r (List.mem_of_getElem? hr)).1
  rw [← hsep] at hlaid hsize
  refine ⟨s, rs.take mid, rs.drop mid, hs, hleaf.part hlaid (List.take_sublist _ _) hsize,
    hleaf.part hlaid' (List.drop_sublist _ _) hleaf.high_key_size, List.take_append_drop _ _, ?_,
    hrl, hll, hrp, hlp, hback, ?_⟩
  · rw [List.head?_map, List.head?_drop, hr, hsep]
    rfl
  by_cases hall : ∀ r ∈ rs, ∀ r' ∈ rs, cmp r.key r'.key = .eq
  · exact Or.inr hall
  · left
    intro x hx
    obtain ⟨i, hi⟩ := List.mem_iff_getElem?.mp hx
    obtain ⟨hlt, hi⟩ := Maps.getElem?_of_take hi
    refine (lt_split_point hleaf.sorted (i := i) (by omega) ?_ ?_).resolve_right ?_
    · rw [List.getElem?_map, hi]
      rfl
    · rw [← hmid, List.getElem?_map, hr, hsep]
      rfl
    · intro heq
      apply hall
      intro a ha c hc
      exact heq _ (List.mem_map_of_mem ha) _ (List.mem_map_of_mem hc)

/-- Two records of different keys. -/
def twoRecords : List Rec := [⟨[1], [7], 0, 5, 0⟩, ⟨[2], [8], 0, 5, 0⟩]

theorem two_records_are_split : ∃ mem : UInt64 → Page,
    WellFormed (List.compareLex compare) id (mem 1) [] twoRecords ∧
    rightlink (mem 1) = .ok none ∧
    ∃ (s : Split) (lefts rights : List Rec),
      split_leaf_ly (List.compareLex compare) id mem 1 2 9 = .ok s ∧
      lefts ++ rights = twoRecords ∧ (rights.map Rec.key).head? = some s.separator_key ∧
      rightlink s.left = .ok (some 2) ∧
      ∀ r ∈ lefts, List.compareLex compare r.key s.separator_key = .lt := by
  obtain ⟨b, write_end, -, hlaid, hright, -⟩ := build_ok 1 none twoRecords
    (show (none : Option UInt64) ≠ some 0 by decide)
    (show (none : Option UInt64) ≠ some 0 by decide) (by decide)
  obtain ⟨mem, hmem⟩ : ∃ mem : UInt64 → Page, ∀ p, mem p = b := ⟨fun _ => b, fun _ => rfl⟩
  have hleaf : WellFormed (List.compareLex compare) id (mem 1) [] twoRecords := by
    rw [hmem]
    exact ⟨hlaid.type, hlaid.stored_high_key, hlaid.records (by decide), fun _ _ => rfl, by decide,
      by decide, by decide, by decide⟩
  refine ⟨mem, hleaf, by rw [hmem, hright], ?_⟩
  obtain ⟨s, lefts, rights, hs, -, -, happ, hhead, -, hlink, -, -, -, hlt⟩ :=
    a_leaf_split_is_lossless hleaf (by decide) (by decide) (show (2 : UInt64) ≠ 0 by decide)
      (fun p _ => by rw [hmem]; exact hlaid.type) 9
  exact ⟨s, lefts, rights, hs, happ, hhead, hlink, hlt.resolve_right (by decide)⟩

end FluxDB.Leaf
