-- How the tree grows. A page that splits keeps its place in the chain of its level and gets a new
-- page behind it; a downlink is put into the parent; a new root stands on a level of its own. All
-- of this keeps the shape, and no page that was there begins elsewhere afterwards.
import FluxDB.TreeShape

namespace FluxDB.Tree

open Comparator List Maps Chain
open Internal (HalvesFit int_key_data_base)

variable {cmp : Compare} {pages pages' : Nat → Node}
  {levels levels' : List (List Nat)}

/-! ## Pages stay where they are -/

/-- Every page is still in its level and begins where it began. -/
def Grows (pages : Nat → Node) (levels : List (List Nat)) (pages' : Nat → Node)
    (levels' : List (List Nat)) : Prop :=
  ∀ (i : Nat) level, levels[i]? = some level → ∃ level', levels'[i]? = some level' ∧
    ∀ p ∈ level, p ∈ level' ∧ low pages' level' p = low pages level p

theorem Grows.refl (pages : Nat → Node) (levels : List (List Nat)) :
    Grows pages levels pages levels := fun _ level hi => ⟨level, hi, fun _ hp => ⟨hp, rfl⟩⟩

theorem Grows.trans {pages'' : Nat → Node} {levels'' : List (List Nat)}
    (h : Grows pages levels pages' levels') (h' : Grows pages' levels' pages'' levels'') :
    Grows pages levels pages'' levels'' := by
  intro i level hi
  obtain ⟨level', hi', hsame⟩ := h i level hi
  obtain ⟨level'', hi'', hsame'⟩ := h' i level' hi'
  refine ⟨level'', hi'', fun p hp => ?_⟩
  obtain ⟨hp', hlow⟩ := hsame p hp
  obtain ⟨hp'', hlow'⟩ := hsame' p hp'
  exact ⟨hp'', hlow'.trans hlow⟩

theorem Grows.of_high (h : ∀ p, InTree levels p → (pages' p).high_key = (pages p).high_key) :
    Grows pages levels pages' levels := fun i level hi =>
  ⟨level, hi, fun p hp => ⟨hp, low_congr (fun q hq => h q ⟨i, level, hi, hq⟩) p⟩⟩

theorem Grows.append (extra : List Nat)
    (h : ∀ p, InTree levels p → (pages' p).high_key = (pages p).high_key) :
    Grows pages levels pages' (levels ++ [extra]) := by
  intro i level hi
  refine ⟨level, ?_, fun p hp => ⟨hp, low_congr (fun q hq => h q ⟨i, level, hi, hq⟩) p⟩⟩
  rw [getElem?_append_left (lt_of_getElem? hi)]
  exact hi

variable {i p q : Nat}

/-- A level with a new page behind one of its pages. -/
theorem Grows.insertAfter (hshape : Shape cmp pages levels) {level : List Nat}
    (hi : levels[i]? = some level) (hp : p ∈ level) (hq : ¬ InTree levels q)
    (hright : (pages' q).high_key = (pages p).high_key)
    (hsame : ∀ x, InTree levels x → x ≠ p → (pages' x).high_key = (pages x).high_key) :
    Grows pages levels pages' (levels.set i (Chain.insertAfter p q level)) := by
  have hq' : q ∉ level := fun h => hq ⟨i, level, hi, h⟩
  intro j lv hj
  rw [getElem?_set_eq_ite hi]
  by_cases hji : j = i
  · subst hji
    rw [hi] at hj
    cases hj
    refine ⟨_, if_pos rfl, fun x hx => ⟨(mem_insertAfter hp).mpr (.inr hx), ?_⟩⟩
    exact low_insertAfter (hshape.nodup j level hi) hp hq' hright
      (fun y hy hne => hsame y ⟨j, level, hi, hy⟩ hne) hx
  refine ⟨lv, (if_neg hji).trans hj, fun x hx => ⟨hx, ?_⟩⟩
  apply low_congr
  intro y hy
  apply hsame y ⟨j, lv, hj, hy⟩
  rintro rfl
  exact hji (hshape.apart j i lv level y hj hi hy hp)

theorem Shape.apart_insertAfter (hshape : Shape cmp pages levels) {level : List Nat}
    (hi : levels[i]? = some level) (hp : p ∈ level) (hq : ¬ InTree levels q) :
    (∀ (j : Nat) lv, (levels.set i (Chain.insertAfter p q level))[j]? = some lv → lv.Nodup) ∧
      ∀ (j k : Nat) a b x, (levels.set i (Chain.insertAfter p q level))[j]? = some a →
        (levels.set i (Chain.insertAfter p q level))[k]? = some b → x ∈ a → x ∈ b → j = k := by
  have hq' : q ∉ level := fun h => hq ⟨i, level, hi, h⟩
  -- a page of the new levels is the new page, or it was on that level before
  have hold : ∀ (j : Nat) a x, (levels.set i (Chain.insertAfter p q level))[j]? = some a → x ∈ a →
      x = q ∧ j = i ∨ ∃ lv, levels[j]? = some lv ∧ x ∈ lv := by
    intro j a x hj hx
    rw [getElem?_set_eq_ite hi] at hj
    split at hj
    · next hji =>
      cases hj
      rcases (mem_insertAfter hp).mp hx with rfl | hx
      · exact .inl ⟨rfl, hji⟩
      · exact .inr ⟨level, hji ▸ hi, hx⟩
    · exact .inr ⟨a, hj, hx⟩
  refine ⟨fun j lv hj => ?_, fun j k a b x hj hk hxa hxb => ?_⟩
  · rw [getElem?_set_eq_ite hi] at hj
    split at hj
    · cases hj
      exact nodup_insertAfter (hshape.nodup i level hi) hq'
    · exact hshape.nodup j lv hj
  rcases hold j a x hj hxa with ⟨rfl, rfl⟩ | ⟨lv, hlv, hx⟩
  · rcases hold k b x hk hxb with ⟨-, rfl⟩ | ⟨lv', hlv', hx'⟩
    · rfl
    · exact absurd ⟨k, lv', hlv', hx'⟩ hq
  rcases hold k b x hk hxb with ⟨rfl, -⟩ | ⟨lv', hlv', hx'⟩
  · exact absurd ⟨j, lv, hlv, hx⟩ hq
  · exact hshape.apart j k lv lv' x hlv hlv' hx hx'

/-! ## A leaf splits -/

theorem head?_take_of_pos {l : List Row} {n : Nat} (h : 0 < n) : (l.take n).head? = l.head? := by
  cases n with
  | zero => cases h
  | succ n => cases l <;> rfl

section SplitLeaf

variable [Std.TransCmp cmp] {l : LeafNode} {mid : Nat} {r : Row} {b : Option Bytes}
  {next prev : Option Nat}

omit [Std.TransCmp cmp] in
theorem LeafOk.left (h : LeafOk cmp b next prev l) (hr : l.rows[mid]? = some r) (hpos : 0 < mid)
    (q : Nat) : LeafOk cmp b (some q) prev (l.left mid r.key q) where
  rightlink := rfl
  back := h.back
  top := iff_of_false (h.slight r (mem_of_getElem? hr)).1.1 (by nofun)
  short := (h.slight r (mem_of_getElem? hr)).1.2
  sorted := List.Pairwise.sublist (take_sublist mid l.rows) h.sorted
  slight x hx := h.slight x (mem_of_mem_take hx)
  below _ x hx := by
    have hcut := h.sorted
    unfold Sorted at hcut
    rw [← take_append_drop mid l.rows, pairwise_append] at hcut
    apply hcut.2.2 x hx r
    apply mem_of_getElem? (i := 0)
    rw [getElem?_drop]
    exact hr
  first x hx := by
    obtain ⟨a, ha, heq⟩ := h.first x hx
    exact ⟨a, (head?_take_of_pos hpos).trans ha, heq⟩
  alive := rfl

theorem LeafOk.right (h : LeafOk cmp b next prev l) (hr : l.rows[mid]? = some r) (p : Nat) :
    LeafOk cmp (some r.key) next (some p) (l.right mid p) where
  __ := h
  back := rfl
  sorted := List.Pairwise.sublist (drop_sublist mid l.rows) h.sorted
  slight x hx := h.slight x (mem_of_mem_drop hx)
  below hne x hx := h.below hne x (mem_of_mem_drop hx)
  first x hx := by
    cases hx
    refine ⟨r, ?_, Std.ReflCmp.compare_self⟩
    change (l.rows.drop mid).head? = some r
    rw [head?_drop]
    exact hr
  alive := rfl

/-- The halves of a leaf in the chain: the new page stands behind the old one, and the old right
neighbour leads back to it. -/
theorem Shape.split_leaf (h : Shape cmp pages levels) {chain : List Nat}
    (hchain : levels[0]? = some chain) (hp : p ∈ chain) (hl : pages p = .leaf l)
    (hr : l.rows[mid]? = some r) (hpos : 0 < mid) (hq : ¬ InTree levels q)
    (hleft : pages' p = .leaf (l.left mid r.key q)) (hright : pages' q = .leaf (l.right mid p))
    (hneighbour : ∀ y ly, Chain.next chain p = some y → pages y = .leaf ly →
      pages' y = .leaf { ly with prev := some q })
    (hsame : ∀ x, InTree levels x → x ≠ p → Chain.next chain p ≠ some x → pages' x = pages x) :
    Shape cmp pages' (levels.set 0 (Chain.insertAfter p q chain)) ∧
      Grows pages levels pages' (levels.set 0 (Chain.insertAfter p q chain)) := by
  have hnodup := h.nodup 0 chain hchain
  have hq' : q ∉ chain := fun hmem => hq ⟨0, chain, hchain, hmem⟩
  have hhigh : ∀ x, InTree levels x → x ≠ p → (pages' x).high_key = (pages x).high_key := by
    intro x hx hne
    by_cases hnext : Chain.next chain p = some x
    · obtain ⟨lx, hlx, -⟩ := h.leaf chain hchain x (mem_of_next hnext).2
      rw [hneighbour x lx hnext hlx, hlx]
      rfl
    · rw [hsame x hx hne hnext]
  have hgrows : Grows pages levels pages' (levels.set 0 (Chain.insertAfter p q chain)) := by
    refine Grows.insertAfter h hchain hp hq ?_ hhigh
    rw [hright, hl]
    rfl
  obtain ⟨hnodups, hapart⟩ := h.apart_insertAfter hchain hp hq
  have hchain' : (levels.set 0 (Chain.insertAfter p q chain))[0]? =
      some (Chain.insertAfter p q chain) := by
    rw [getElem?_set_eq_ite hchain, if_pos rfl]
  have hlow : ∀ x ∈ chain, low pages' (Chain.insertAfter p q chain) x = low pages chain x := by
    intro x hx
    obtain ⟨chain', hc, hsame'⟩ := hgrows 0 chain hchain
    rw [hchain'] at hc
    cases hc
    exact (hsame' x hx).2
  refine ⟨⟨hnodups, hapart, fun c hc x hx => ?_, fun i upper lower hu hlo x hx => ?_⟩, hgrows⟩
  · rw [hchain'] at hc
    cases hc
    have hok := h.leafOk hchain hp hl
    rcases (mem_insertAfter hp).mp hx with rfl | hx
    · refine ⟨_, hright, ?_⟩
      rw [low_inserted hnodup hp hq', hleft, next_insertAfter_new hnodup hp hq',
        prev_insertAfter_new hnodup hp hq']
      exact hok.right hr p
    rw [hlow x hx]
    have hxq : x ≠ q := fun heq => hq' (heq ▸ hx)
    by_cases hxp : x = p
    · subst hxp
      refine ⟨_, hleft, ?_⟩
      rw [next_insertAfter_left hnodup hp hq',
        prev_insertAfter_other hnodup hp hq' hp (next_ne_self hnodup x)]
      exact hok.left hr hpos q
    obtain ⟨lx, hlx, hokx⟩ := h.leaf chain hchain x hx
    rw [next_insertAfter_other hnodup hp hq' hxp hxq]
    by_cases hnext : Chain.next chain p = some x
    · refine ⟨_, hneighbour x lx hnext hlx, ?_⟩
      rw [prev_insertAfter_right hnodup hp hq' hnext]
      exact { hokx with back := rfl }
    rw [hsame x ⟨0, chain, hchain, hx⟩ hxp hnext,
      prev_insertAfter_other hnodup hp hq' hx hnext]
    exact ⟨lx, hlx, hokx⟩
  rw [getElem?_set_eq_ite hchain, if_neg (Nat.succ_ne_zero i)] at hu
  have hkind : ∀ y ∈ upper, pages' y = pages y := by
    intro y hy
    refine hsame y ⟨i + 1, upper, hu, hy⟩ ?_ fun hnext => ?_
    · rintro rfl
      exact absurd (h.apart (i + 1) 0 upper chain y hu hchain hy hp) (Nat.succ_ne_zero i)
    exact absurd (h.apart (i + 1) 0 upper chain y hu hchain hy (mem_of_next hnext).2)
      (Nat.succ_ne_zero i)
  obtain ⟨lower₀, hlower₀⟩ : ∃ lower₀, levels[i]? = some lower₀ := by
    have hlt := lt_of_getElem? hu
    exact ⟨_, getElem?_eq_getElem (by omega)⟩
  obtain ⟨n, hn, hok⟩ := h.internal i upper lower₀ hu hlower₀ x hx
  rw [hkind x hx, low_congr fun y hy => by rw [hkind y hy]]
  refine ⟨n, hn, hok.congr fun c hc => ?_⟩
  obtain ⟨lower', hl', hsame'⟩ := hgrows i lower₀ hlower₀
  rw [hlo] at hl'
  cases hl'
  exact hsame' c hc

end SplitLeaf

/-! ## Separators and children -/

section Downlinks

variable {lower : List Nat} {b : Option Bytes} {keys : List Bytes}
  {children : List Nat}

theorem Downlinks.take (h : Downlinks cmp pages lower b keys children) {mid : Nat}
    (hmid : mid ≤ keys.length) :
    Downlinks cmp pages lower b (keys.take mid) (children.take (mid + 1)) where
  arity := by
    have := h.arity
    rw [length_take, length_take]
    omega
  sorted := h.sorted.sublist (take_sublist mid keys)
  short k hk := h.short k (mem_of_mem_take hk)
  above k hk := h.above k (mem_of_mem_take hk)
  child j c hc := by
    obtain ⟨hj, hc⟩ := getElem?_of_take hc
    have hstart : start b (keys.take mid) j = start b keys j := by
      cases j with
      | zero => rfl
      | succ j => exact getElem?_take_of_lt (by omega)
    rw [hstart]
    exact h.child j c hc

theorem Downlinks.drop [Std.TransCmp cmp] (h : Downlinks cmp pages lower b keys children)
    {mid : Nat} {k : Bytes} (hk : keys[mid]? = some k) :
    Downlinks cmp pages lower (some k) (keys.drop (mid + 1)) (children.drop (mid + 1)) where
  arity := by
    have := h.arity
    have := lt_of_getElem? hk
    rw [length_drop, length_drop]
    omega
  sorted := h.sorted.sublist (drop_sublist _ keys)
  short x hx := h.short x (mem_of_mem_drop hx)
  above x hx := by
    obtain ⟨j, hj⟩ := mem_iff_getElem?.mp hx
    rw [getElem?_drop] at hj
    exact le_of_pairwise h.sorted (by omega) hk hj
  child j c hc := by
    rw [getElem?_drop] at hc
    have hstart : start (some k) (keys.drop (mid + 1)) j = start b keys (mid + 1 + j) := by
      cases j with
      | zero => exact hk.symm
      | succ j => rw [start_succ, getElem?_drop, ← Nat.add_assoc, start_succ]
    rw [hstart]
    exact h.child _ c hc

variable [Std.TransCmp cmp] {sep : Bytes} {right_pid : Nat}

/-- A new separator with the child that begins there. -/
theorem Downlinks.insert (h : Downlinks cmp pages lower b keys children) (hsep : ShortKey sep)
    (hle : LowLe cmp b (some sep)) (hright : right_pid ∈ lower)
    (hlow : low pages lower right_pid = some sep) :
    Downlinks cmp pages lower b (keys.insertIdx (Internal.place cmp keys sep) sep)
      (children.insertIdx (Internal.place cmp keys sep + 1) right_pid) where
  arity := by
    have hplace : Internal.place cmp keys sep ≤ keys.length := Search.front_le _ _
    have := h.arity
    rw [Internal.length_insertIdx_place, length_insertIdx_of_le_length (by omega)]
    omega
  sorted := Search.sorted_insertIdx h.sorted sep
  short k hk := by
    rcases eq_or_mem_of_mem_insertIdx hk with rfl | hk
    · exact hsep
    · exact h.short k hk
  above k hk := by
    rcases eq_or_mem_of_mem_insertIdx hk with rfl | hk
    · exact hle
    · exact h.above k hk
  child j c hc := by
    have hplace : Internal.place cmp keys sep ≤ keys.length := Search.front_le _ _
    rw [getElem?_insertIdx] at hc
    split at hc
    · next hj =>
      have hstart :
          start b (keys.insertIdx (Internal.place cmp keys sep) sep) j = start b keys j := by
        cases j with
        | zero => rfl
        | succ j => rw [start_succ, getElem?_insertIdx, if_pos (by omega), start_succ]
      rw [hstart]
      exact h.child j c hc
    split at hc
    · next hj =>
      subst hj
      have hstart : start b (keys.insertIdx (Internal.place cmp keys sep) sep)
          (Internal.place cmp keys sep + 1) =
          some sep := by
        rw [start_succ, getElem?_insertIdx, if_neg (by omega), if_pos rfl, if_pos hplace]
      rw [hstart]
      have hcr : c = right_pid := by
        split at hc
        · exact (Option.some.inj hc).symm
        · cases hc
      subst hcr
      rw [hlow]
      exact ⟨hright, LowLe.refl _, LowLe.refl _⟩
    rename_i hlt hne
    obtain ⟨i, rfl⟩ : ∃ i, j = i + 2 := ⟨j - 2, by omega⟩
    have hstart : start b (keys.insertIdx (Internal.place cmp keys sep) sep) (i + 2) =
        start b keys (i + 1) := by
      rw [start_succ, getElem?_insertIdx, if_neg (by omega), if_neg (by omega), start_succ]
      rfl
    rw [hstart]
    exact h.child (i + 1) c hc

end Downlinks

/-! ## A downlink is put into the parent -/

section Parent

variable [Std.TransCmp cmp] {lower : List Nat} {b : Option Bytes} {next : Option Nat}
  {n : InternalNode} {sep : Bytes} {right_pid : Nat}

theorem InternalOk.insert (h : InternalOk cmp pages lower b next n) (hsep : ShortKey sep)
    (hle : LowLe cmp b (some sep)) (hlt : n.high_key ≠ [] → cmp sep n.high_key = .lt)
    (hfit : n.CanFit sep.length) (hright : right_pid ∈ lower)
    (hlow : low pages lower right_pid = some sep) : InternalOk cmp pages lower b next
      (n.insert_key_and_right_child (n.find_child cmp sep) sep right_pid) := by
  have hplace : Internal.place cmp n.keys sep ≤ n.keys.length := Search.front_le _ _
  rw [find_child_eq h.links.sorted]
  unfold InternalNode.insert_key_and_right_child
  refine ⟨h.links.insert hsep hle hright hlow, h.rightlink, h.top, h.short, fun hne k hk => ?_,
    h.wide, ?_⟩
  · rcases eq_or_mem_of_mem_insertIdx hk with rfl | hk
    · exact le_of_lt (hlt hne)
    · exact h.below hne k hk
  have hroom := h.room
  unfold InternalNode.CanFit at hfit
  unfold InternalNode.used_bytes at hroom hfit ⊢
  dsimp only
  rw [Internal.length_insertIdx_place, length_flatten_insertIdx hplace, int_key_data_base_eq]
  rw [int_key_data_base_eq] at hroom hfit
  omega

/-- The left half of a parent that splits. -/
theorem Downlinks.left {keys : List Bytes} {children : List Nat}
    (hlinks : Downlinks cmp pages lower b keys children) {mid : Nat} {push_up : Bytes}
    (hmid : keys[mid]? = some push_up)
    (hroom : int_key_data_base mid + (keys.take (mid + 1)).flatten.length ≤ PAGE_SIZE) (q : Nat) :
    InternalOk cmp pages lower b (some q)
      { keys := keys.take mid, children := children.take (mid + 1), high_key := push_up,
        rightlink := some q, incomplete_split := true } := by
  have hlt := lt_of_getElem? hmid
  have hshort := hlinks.short push_up (mem_of_getElem? hmid)
  refine ⟨hlinks.take hlt.le, rfl, iff_of_false hshort.1 (by nofun), hshort.2, fun _ k hk => ?_,
    fun _ => hlinks.above _ (mem_of_getElem? hmid), ?_⟩
  · obtain ⟨j, hj⟩ := mem_iff_getElem?.mp hk
    obtain ⟨hjm, hj⟩ := getElem?_of_take hj
    exact le_of_pairwise hlinks.sorted hjm.le hj hmid
  unfold InternalNode.used_bytes
  dsimp only
  rw [take_add_one, hmid, flatten_append, length_append] at hroom
  rw [length_take, Nat.min_eq_left hlt.le]
  simp only [Option.toList_some, flatten_cons, flatten_nil, append_nil] at hroom
  omega

theorem InternalOk.right (h : InternalOk cmp pages lower b next n) {keys : List Bytes}
    {children : List Nat} (hlinks : Downlinks cmp pages lower b keys children)
    (hbelow : n.high_key ≠ [] → ∀ k ∈ keys, Le cmp k n.high_key) {mid : Nat}
    {push_up : Bytes} (hmid : keys[mid]? = some push_up)
    (hroom : int_key_data_base (keys.length - (mid + 1)) + (keys.drop (mid + 1)).flatten.length +
      n.high_key.length ≤ PAGE_SIZE) :
    InternalOk cmp pages lower (some push_up) next
      { keys := keys.drop (mid + 1), children := children.drop (mid + 1), high_key := n.high_key,
        rightlink := n.rightlink, incomplete_split := false } := by
  refine ⟨hlinks.drop hmid, h.rightlink, h.top, h.short, fun hne k hk => ?_, fun hne => ?_, ?_⟩
  · exact hbelow hne k (mem_of_mem_drop hk)
  · exact hbelow hne push_up (mem_of_getElem? hmid)
  unfold InternalNode.used_bytes
  dsimp only
  rw [length_drop]
  exact hroom

/-- The halves of a parent that takes a new separator. -/
theorem InternalOk.halves (h : InternalOk cmp pages lower b next n) (hsep : ShortKey sep)
    (hle : LowLe cmp b (some sep)) (hlt : n.high_key ≠ [] → cmp sep n.high_key = .lt)
    (hright : right_pid ∈ lower) (hlow : low pages lower right_pid = some sep) (q : Nat) :
    ∃ push_up left right, n.split_internal cmp q sep right_pid = some (push_up, left, right) ∧
      ShortKey push_up ∧ LowLe cmp b (some push_up) ∧ left.high_key = push_up ∧
      right.high_key = n.high_key ∧ right.incomplete_split = false ∧
      InternalOk cmp pages lower b (some q) left ∧
      InternalOk cmp pages lower (some push_up) next right := by
  have hfit : HalvesFit cmp n.high_key n.keys sep := halvesFit h.links.short hsep h.short h.room
  have hlinks := h.links.insert hsep hle hright hlow
  have hbelow : n.high_key ≠ [] →
      ∀ k ∈ n.keys.insertIdx (Internal.place cmp n.keys sep) sep, Le cmp k n.high_key := by
    intro hne k hk
    rcases (mem_insertIdx (Search.front_le _ _)).mp hk with rfl | hk
    · exact le_of_lt (hlt hne)
    · exact h.below hne k hk
  obtain ⟨all, cs, mid, push_up, hall, hcs, hmid, hpush, heq⟩ :=
    split_internal_eq h.links.sorted h.links.arity hfit q right_pid
  obtain ⟨-, hroomLeft, hroomRight⟩ := hfit
  rw [← hall] at hlinks hbelow hroomLeft hroomRight
  rw [← hcs] at hlinks
  rw [← hmid] at hroomLeft hroomRight
  have hmem := mem_of_getElem? hpush
  exact ⟨push_up, _, _, heq, hlinks.short _ hmem, hlinks.above _ hmem, rfl, rfl, rfl,
    hlinks.left hpush hroomLeft q, h.right hlinks hbelow hpush hroomRight⟩

omit [Std.TransCmp cmp] in
/-- The halves of a parent in the chain of its level. -/
theorem Shape.split_internal (h : Shape cmp pages levels) {upper : List Nat}
    (hupper : levels[i + 1]? = some upper) (hlower : levels[i]? = some lower) (hp : p ∈ upper)
    (hn : pages p = .internal n) (hq : ¬ InTree levels q) {left right : InternalNode}
    (hleft : pages' p = .internal left) (hright : pages' q = .internal right)
    (hsame : ∀ x, InTree levels x → x ≠ p → pages' x = pages x)
    (hhigh : right.high_key = n.high_key)
    (hokl : InternalOk cmp pages lower (low pages upper p) (some q) left)
    (hokr : InternalOk cmp pages lower (some left.high_key) (Chain.next upper p) right) :
    Shape cmp pages' (levels.set (i + 1) (Chain.insertAfter p q upper)) ∧
      Grows pages levels pages' (levels.set (i + 1) (Chain.insertAfter p q upper)) := by
  have hnodup := h.nodup (i + 1) upper hupper
  have hq' : q ∉ upper := fun hmem => hq ⟨i + 1, upper, hupper, hmem⟩
  have hgrows : Grows pages levels pages' (levels.set (i + 1) (Chain.insertAfter p q upper)) := by
    refine Grows.insertAfter h hupper hp hq ?_ fun x hx hne => by rw [hsame x hx hne]
    rw [hright, hn]
    exact hhigh
  obtain ⟨hnodups, hapart⟩ := h.apart_insertAfter hupper hp hq
  have hother : ∀ (j : Nat) lv, j ≠ i + 1 → levels[j]? = some lv →
      ∀ x ∈ lv, pages' x = pages x := by
    intro j lv hj hlv x hx
    apply hsame x ⟨j, lv, hlv, hx⟩
    rintro rfl
    exact hj (h.apart j (i + 1) lv upper x hlv hupper hx hp)
  -- what the children of a page need of the level below, whatever level that is
  have hbelow : ∀ (j : Nat) lv lv', levels[j]? = some lv →
      (levels.set (i + 1) (Chain.insertAfter p q upper))[j]? = some lv' →
      ∀ c ∈ lv, c ∈ lv' ∧ low pages' lv' c = low pages lv c := by
    intro j lv lv' hlv hlv' c hc
    obtain ⟨lv'', hj, hsame'⟩ := hgrows j lv hlv
    rw [hlv'] at hj
    cases hj
    exact hsame' c hc
  refine ⟨⟨hnodups, hapart, fun chain hc x hx => ?_, fun j up lo hu hlo x hx => ?_⟩, hgrows⟩
  · rw [getElem?_set_eq_ite hupper, if_neg (Nat.succ_ne_zero i).symm] at hc
    rw [hother 0 chain (Nat.succ_ne_zero i).symm hc x hx,
      low_congr fun y hy => by rw [hother 0 chain (Nat.succ_ne_zero i).symm hc y hy]]
    exact h.leaf chain hc x hx
  by_cases hji : j = i
  · subst hji
    have hlow := hbelow (j + 1) upper up hupper hu
    have hlo' := hbelow j lower lo hlower hlo
    rw [getElem?_set_eq_ite hupper, if_pos rfl] at hu
    cases hu
    rcases (mem_insertAfter hp).mp hx with rfl | hx
    · refine ⟨right, hright, ?_⟩
      rw [low_inserted hnodup hp hq', hleft, next_insertAfter_new hnodup hp hq']
      exact hokr.congr hlo'
    rw [(hlow x hx).2]
    by_cases hxp : x = p
    · subst hxp
      refine ⟨left, hleft, ?_⟩
      rw [next_insertAfter_left hnodup hp hq']
      exact hokl.congr hlo'
    obtain ⟨m, hm, hok⟩ := h.internal j upper lower hupper hlower x hx
    rw [hsame x ⟨j + 1, upper, hupper, hx⟩ hxp,
      next_insertAfter_other hnodup hp hq' hxp fun heq => hq' (heq ▸ hx)]
    exact ⟨m, hm, hok.congr hlo'⟩
  have hne : j + 1 ≠ i + 1 := fun heq => hji (Nat.succ.inj heq)
  rw [getElem?_set_eq_ite hupper, if_neg hne] at hu
  obtain ⟨lo₀, hlo₀⟩ : ∃ lo₀, levels[j]? = some lo₀ := by
    have hlt := lt_of_getElem? hu
    exact ⟨_, getElem?_eq_getElem (by omega)⟩
  obtain ⟨m, hm, hok⟩ := h.internal j up lo₀ hu hlo₀ x hx
  rw [hother (j + 1) up hne hu x hx, low_congr fun y hy => by rw [hother (j + 1) up hne hu y hy]]
  exact ⟨m, hm, hok.congr (hbelow j lo₀ lo hlo₀ hlo)⟩

end Parent

/-! ## A new root -/

/-- A root over the first two pages of the top level. -/
theorem Shape.new_root [Std.TransCmp cmp] (h : Shape cmp pages levels) {top : List Nat}
    (htop : levels.getLast? = some top) {left right root : Nat} {sep : Bytes}
    (hhead : top.head? = some left) (hright : right ∈ top) (hlow : low pages top right = some sep)
    (hsep : ShortKey sep) (hroot : ¬ InTree levels root)
    (hpage : pages' root = .internal { keys := [sep], children := [left, right], high_key := [],
                                       rightlink := none, incomplete_split := false })
    (hsame : ∀ x, InTree levels x → pages' x = pages x) :
    Shape cmp pages' (levels ++ [[root]]) ∧ Grows pages levels pages' (levels ++ [[root]]) := by
  have hgrows : Grows pages levels pages' (levels ++ [[root]]) :=
    Grows.append [root] fun x hx => by rw [hsame x hx]
  have hne : levels ≠ [] := by
    rintro rfl
    cases htop
  have hlen := length_pos_iff.mpr hne
  have htop' : levels[levels.length - 1]? = some top := by
    rw [← getLast?_eq_getElem?]
    exact htop
  -- a level is an old one, or the new root alone
  have hold : ∀ (j : Nat) lv, (levels ++ [[root]])[j]? = some lv →
      levels[j]? = some lv ∨ j = levels.length ∧ lv = [root] := by
    intro j lv hj
    rcases Nat.lt_or_ge j levels.length with hlt | hge
    · rw [getElem?_append_left hlt] at hj
      exact .inl hj
    rw [getElem?_append_right hge] at hj
    have hzero : j - levels.length = 0 := by
      have := lt_of_getElem? hj
      rw [length_singleton] at this
      omega
    rw [hzero] at hj
    cases hj
    exact .inr ⟨by omega, rfl⟩
  have hsame' := h.congr hsame
  refine ⟨⟨fun j lv hj => ?_, fun j k a b x hj hk ha hb => ?_, fun chain hc x hx => ?_,
    fun j upper lower hu hl x hx => ?_⟩, hgrows⟩
  · rcases hold j lv hj with hj | ⟨-, rfl⟩
    · exact h.nodup j lv hj
    · exact nodup_singleton root
  · rcases hold j a hj with hj | ⟨rfl, rfl⟩
    · rcases hold k b hk with hk | ⟨rfl, rfl⟩
      · exact h.apart j k a b x hj hk ha hb
      rw [mem_singleton.mp hb] at ha
      exact absurd ⟨j, a, hj, ha⟩ hroot
    rcases hold k b hk with hk | ⟨rfl, rfl⟩
    · rw [mem_singleton.mp ha] at hb
      exact absurd ⟨k, b, hk, hb⟩ hroot
    · rfl
  · rcases hold 0 chain hc with hc | ⟨hzero, -⟩
    · exact hsame'.leaf chain hc x hx
    · omega
  rcases hold (j + 1) upper hu with hu | ⟨hj, rfl⟩
  · rcases hold j lower hl with hl | ⟨rfl, -⟩
    · exact hsame'.internal j upper lower hu hl x hx
    have := lt_of_getElem? hu
    omega
  obtain rfl : j = levels.length - 1 := by omega
  rw [getElem?_append_left (by omega), htop'] at hl
  cases hl
  obtain rfl := mem_singleton.mp hx
  have hlow' : ∀ y, low pages' top y = low pages top y := low_congr fun y hy => by
    rw [hsame y ⟨_, top, htop', hy⟩]
  refine ⟨_, hpage, ⟨⟨rfl, pairwise_singleton _ _, ?_, ?_, ?_⟩, rfl, iff_of_true rfl rfl,
    Nat.zero_le _, fun hh => absurd rfl hh, fun hh => absurd rfl hh, ?_⟩⟩
  · intro k hk
    rw [mem_singleton.mp hk]
    exact hsep
  · intro k _
    rw [low_head (nodup_singleton x) rfl]
    trivial
  · intro c y hy
    rw [hlow']
    match c with
    | 0 =>
      cases hy
      rw [low_head (h.nodup _ top htop') hhead, low_head (nodup_singleton x) rfl]
      exact ⟨mem_of_mem_head? hhead, trivial, trivial⟩
    | 1 =>
      cases hy
      rw [hlow]
      exact ⟨hright, LowLe.refl _, LowLe.refl _⟩
  have hshort := hsep.2
  unfold InternalNode.used_bytes
  rw [int_key_data_base_eq]
  simp only [length_singleton, flatten_cons, flatten_nil, append_nil, length_nil]
  unfold PAGE_SIZE
  omega

end FluxDB.Tree
