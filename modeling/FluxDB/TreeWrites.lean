-- Inserts, updates, deletes and lookups on an index in order. Each ends: with its one change made,
-- with an error and no change, or with the failure of a call of the pool or the log. A version for
-- which neither the leaf nor the chosen half of a split has room ends the call as well.
import FluxDB.TreeLeaves

namespace FluxDB.Tree

open Comparator List

variable {cmp : Compare} {w w' w'' : World}
  {levels levels' levels'' : List (List Nat)}

/-! ## Room on a leaf -/

/-- A leaf with this high key and these versions has room for a record with its slot. -/
def Fits (hk : Bytes) (rows : List Row) (size : Nat) : Prop :=
  size ≤ PAGE_SIZE - (Leaf.slot_base hk.length + (rows.map Row.size).sum)

instance (hk : Bytes) (rows : List Row) (size : Nat) : Decidable (Fits hk rows size) :=
  inferInstanceAs (Decidable (_ ≤ _))

/-- After at most this many splits there is room: on the leaf, on its left half if the version goes
there, or on its right half after further splits. -/
def Admits (cmp : Compare) (key : Bytes) (size : Nat)
    (hk : Bytes) : Nat → List Row → Prop
  | 0, rows => Fits hk rows size
  | splits + 1, rows => Fits hk rows size ∨
    match rows[Leaf.split_point cmp (rows.map Row.key)]? with
    | none => False
    | some s =>
      if cmp key s.key = .lt then
        Fits s.key (rows.take (Leaf.split_point cmp (rows.map Row.key))) size
      else Admits cmp key size hk splits (rows.drop (Leaf.split_point cmp (rows.map Row.key)))

instance Admits.decidable (key : Bytes) (size : Nat) (hk : Bytes) :
    ∀ (splits : Nat) (rows : List Row), Decidable (Admits cmp key size hk splits rows)
  | 0, rows => inferInstanceAs (Decidable (Fits hk rows size))
  | splits + 1, rows => by
    unfold Admits
    have := Admits.decidable key size hk splits
    cases rows[Leaf.split_point cmp (rows.map Row.key)]? <;> infer_instance

/-- A leaf with one small version or none has room for another. -/
theorem two_le_of_not_canFit {l : LeafNode} {r : Row} (hslight : Slight r)
    (hrows : ∀ x ∈ l.rows, Slight x) (hshort : l.high_key.length ≤ 200) (hfull : ¬ l.CanFit r) :
    2 ≤ l.rows.length := by
  by_contra hlen
  have hsum : (l.rows.map Row.size).sum ≤ HALF_LEAF := by
    cases hcase : l.rows with
    | nil => exact Nat.zero_le _
    | cons x rest =>
      rw [hcase, length_cons] at hlen
      have hrest : rest = [] := length_eq_zero_iff.mp (by omega)
      rw [hrest, map_singleton, sum_singleton]
      exact (hrows x (by rw [hcase]; exact mem_cons_self)).2
  apply hfull
  have hsize := hslight.2
  unfold HALF_LEAF at hsize hsum
  unfold LeafNode.CanFit LeafNode.used Leaf.slot_base align2 PAGE_SIZE Leaf.LEAF_HEADER_SIZE
  omega

/-! ## Splitting and inserting -/

/-- The call ends because the chosen half of a split has no room. -/
structure Overfull (cmp : Compare) (w : World) (levels : List (List Nat)) (r : Row)
    (hk : Bytes) (rows : List Row) (e : IndexError) (w' : World) : Prop where
  error : e = .Page
  room : ∀ splits, ¬ Admits cmp r.key r.size hk splits rows
  advances : ∃ levels', Advances cmp w levels w' levels' ∧
    Pruned w.tm (stored w levels) (stored w' levels')

section Room

variable {key : Bytes} {size : Nat} {hk : Bytes} {rows : List Row} {s : Row}

section

variable (hfull : ¬ Fits hk rows size)
  (hs : rows[Leaf.split_point cmp (rows.map Row.key)]? = some s)

include hfull hs

theorem not_admits_left (hlt : cmp key s.key = .lt)
    (hleft : ¬ Fits s.key (rows.take (Leaf.split_point cmp (rows.map Row.key))) size)
    (splits : Nat) : ¬ Admits cmp key size hk splits rows := by
  cases splits with
  | zero => exact hfull
  | succ splits =>
    unfold Admits
    rw [hs]
    dsimp only
    rw [if_pos hlt]
    exact not_or.mpr ⟨hfull, hleft⟩

theorem not_admits_right (hge : cmp key s.key ≠ .lt)
    (hright : ∀ splits, ¬ Admits cmp key size hk splits
      (rows.drop (Leaf.split_point cmp (rows.map Row.key))))
    (splits : Nat) : ¬ Admits cmp key size hk splits rows := by
  cases splits with
  | zero => exact hfull
  | succ splits =>
    unfold Admits
    rw [hs]
    dsimp only
    rw [if_neg hge]
    exact not_or.mpr ⟨hfull, hright splits⟩

end

end Room

theorem Onward.low_eq (h : Onward cmp w levels w' levels) {i : Nat} {level : List Nat}
    (hi : levels[i]? = some level) {p : Nat} (hp : p ∈ level) :
    low w'.pages level p = low w.pages level p := by
  obtain ⟨level', hi', hkeep⟩ := h.grows i level hi
  rw [hi] at hi'
  cases hi'
  exact (hkeep p hp).2

theorem Onward.intact (h : Onward cmp w levels w' levels') {r : Row}
    (hr : Intact w.toDurable r) : Intact w'.toDurable r := hr.mono h.txns h.next h.overflow

/-- A version is about to go on the leaf whose range holds its key. -/
structure Landing (cmp : Compare) (w : World) (levels : List (List Nat)) (leaves : List Nat)
    (r : Row) (p : Nat) (l : LeafNode) (stack : List Nat) : Prop where
  good : Good cmp w levels
  level : levels[0]? = some leaves
  lands : Lands cmp w.pages leaves r.key p l
  slight : Slight r
  intact : Intact w.toDurable r
  stack : StackOk cmp w.pages levels 1 stack (low w.pages leaves p)

section Landing

variable {leaves : List Nat} {r : Row} {p : Nat} {l : LeafNode} {stack : List Nat}

section

variable (h : Landing cmp w levels leaves r p l stack)

include h

theorem Landing.ok :
    LeafOk cmp (low w.pages leaves p) (Chain.next leaves p) (Chain.prev leaves p) l :=
  h.good.shape.leafOk h.level h.lands.mem h.lands.page

theorem Landing.below (hne : l.high_key ≠ []) : Le cmp r.key l.high_key :=
  le_of_lt (by_contra fun hlt => h.lands.inside ⟨hne, hlt⟩)

/-- A part of the call has changed nothing that the landing page depends on. -/
theorem Landing.later (honward : Onward cmp w levels w' levels) {l' : LeafNode}
    (hl' : w'.pages p = .leaf l') (hhigh : l'.high_key = l.high_key) :
    Landing cmp w' levels leaves r p l' stack where
  __ := h
  good := honward.good
  lands := by
    refine ⟨h.lands.mem, hl', ?_, ?_⟩
    · rw [honward.low_eq h.level h.lands.mem]
      exact h.lands.above
    rw [hhigh]
    exact h.lands.inside
  intact := honward.intact h.intact
  stack := by
    rw [honward.low_eq h.level h.lands.mem]
    exact h.stack.grows honward.grows

end

variable {sep : Bytes} {q : Nat}

/-- The separator is the key of a version on the leaf. -/
theorem LeafSplit.exists_row (h : LeafSplit cmp w levels p l sep q w' levels') :
    ∃ s ∈ l.rows, l.rows[Leaf.split_point cmp (l.rows.map Row.key)]? = some s ∧ s.key = sep := by
  obtain ⟨mid, s, rfl, -, hs, hkey, -⟩ := h.halves
  exact ⟨s, mem_of_getElem? hs, hs, hkey⟩

theorem live_eq_self {tm : TransactionManager} {rows : List Row}
    (h : ∀ x ∈ rows, ¬ Vacuumable tm x) : live tm tm.global_xmin rows = rows := by
  unfold live
  rw [filter_eq_self]
  intro x hx
  rw [Bool.not_eq_true', ← Bool.not_eq_true]
  exact h x hx

theorem keeps_of_live [Std.ReflCmp cmp] {tm : TransactionManager} {l : LeafNode}
    (h : ∀ x ∈ l.rows, ¬ Vacuumable tm x) (hne : l.rows ≠ []) : Keeps cmp tm l := by
  intro _
  obtain ⟨first, rest, hrows⟩ := exists_cons_of_ne_nil hne
  have hmem : first ∈ l.rows := by
    rw [hrows]
    exact mem_cons_self
  refine ⟨first, hmem, h first hmem, fun x hx => ?_⟩
  rw [hrows] at hx
  cases hx
  exact Std.ReflCmp.compare_self

/-- What the split of a leaf comes to. -/
abbrev SplitEnd (cmp : Compare) (x : Nat → Act Unit) (at_ : World)
    (w : World) (levels : List (List Nat)) (r : Row) (hk : Bytes) (rows : List Row) : Prop :=
  Ends x at_ (fun _ w' => ∃ levels', Stores cmp w levels r w' levels')
    (fun e w' => Failed cmp w levels e w' ∨ Overfull cmp w levels r hk rows e w')

/-- A part of the call in front of the split. -/
theorem SplitEnd.before {x : Nat → Act Unit} {at_ : World} {hk : Bytes} {rows : List Row}
    (h : SplitEnd cmp x at_ w' levels' r hk rows) (hadv : Advances cmp w levels w' levels')
    (hpruned : Pruned w.tm (stored w levels) (stored w' levels')) :
    SplitEnd cmp x at_ w levels r hk rows := by
  refine h.imp ?_ ?_
  · rintro _ w₁ ⟨levels₁, hstores⟩
    exact ⟨levels₁, Stores.after hadv.toOnward hpruned hstores⟩
  rintro e w₁ (hfailed | ⟨rfl, hroom, levels₁, hadv₁, hpruned₁⟩)
  · exact .inl (hfailed.trans hadv)
  rw [hadv.tm] at hpruned₁
  exact .inr ⟨rfl, hroom, levels₁, hadv.trans hadv₁, hpruned.trans hpruned₁⟩

variable [Std.TransCmp cmp]

/-- The separator of a leaf split goes up. -/
theorem LeafSplit.separator_ends {p q : Nat} {l : LeafNode} {sep : Bytes} {stack : List Nat}
    (h : LeafSplit cmp w levels p l sep q w' levels') {chain : List Nat} (hsep : ShortKey sep)
    (hlow : LowLe cmp (low w.pages chain p) (some sep))
    (hstack : StackOk cmp w.pages levels 1 stack (low w.pages chain p))
    (hafter : Onward cmp w' levels' w'' levels') :
    Ends (fun n => insert_separator_via_stack cmp n stack sep q p) w''
      (fun _ w₃ => ∃ levels₃, Finishes cmp w'' levels' p w₃ levels₃)
      (Broke cmp w'' levels') := by
  obtain ⟨leaves, hleaves, hpl, hql, hlowq⟩ := h.level
  refine insert_separator_via_stack_ends stack hafter.good hleaves hpl hql ?_ hsep ?_
  · rw [hafter.low_eq hleaves hql, hlowq]
  · exact StackOk.grows (h.grows.trans hafter.grows) (hstack.mono hlow)

section

variable (h : Landing cmp w levels leaves r p l stack)

include h

/-- The version goes on the left half, and then the separator goes up. -/
theorem left_half_ends (hsplit : LeafSplit cmp w levels p l sep q w' levels')
    (hlt : cmp r.key sep = .lt) (hfull : ¬ l.CanFit r) :
    Ends (fun n => (do
        place cmp p r
        insert_separator_via_stack cmp n stack sep q p : Act Unit)) w'
      (fun _ w'' => ∃ levels'', Stores cmp w levels r w'' levels'')
      (fun e w'' =>
        Failed cmp w levels e w'' ∨ Overfull cmp w levels r l.high_key l.rows e w'') := by
  obtain ⟨s, hs, hmid, rfl⟩ := hsplit.exists_row
  obtain ⟨mid, s', hmid', -, hs', hkey, hleft, -⟩ := hsplit.halves
  obtain ⟨leaves', hlevel', hp', -⟩ := hsplit.level
  have hsep : ShortKey s.key := (h.ok.slight s hs).1
  have hlow : low w'.pages leaves' p = low w.pages leaves p := by
    obtain ⟨lv, hlv, hkeep⟩ := hsplit.grows 0 leaves h.level
    rw [hlevel'] at hlv
    cases hlv
    exact (hkeep p h.lands.mem).2
  refine .seq (place_ends hsplit.good hlevel' hp' hleft h.slight (by rw [hlow]; exact h.lands.above)
    (fun _ => le_of_lt hlt) (hsplit.toOnward.intact h.intact)) ?_ ?_
  · rintro e w'' (hfailed | ⟨rfl, rfl, hno⟩)
    · exact .inl (hfailed.trans hsplit.advances)
    subst hmid'
    exact .inr ⟨rfl, not_admits_left hfull hmid hlt hno, levels', hsplit.advances,
      (Pruned.refl _ _).of_eq hsplit.stored⟩
  rintro _ w₁ ⟨-, hstores⟩
  have hdone := Stores.after hsplit.toOnward ((Pruned.refl _ _).of_eq hsplit.stored) hstores
  exact (hsplit.separator_ends hsep (h.ok.above hs) h.stack hstores.toOnward).imp
    (fun _ w₂ ⟨levels₂, hw₂⟩ => ⟨levels₂, hdone.then hw₂.toStructural⟩)
    fun _ _ hb => .inl (hdone.broke hb)

/-- The separator goes up, and then the version goes on the right half or into a half of that. -/
theorem right_half_ends (hlive : ∀ x ∈ l.rows, ¬ Vacuumable w.tm x)
    (hsplit : LeafSplit cmp w levels p l sep q w' levels') (hge : cmp r.key sep ≠ .lt)
    (hfull : ¬ l.CanFit r)
    (hagain : ∀ w₂ levels₂ leaves₂ q₂ l₂, Landing cmp w₂ levels₂ leaves₂ r q₂ l₂ stack →
      Keeps cmp w₂.tm l₂ → ¬ l₂.CanFit r → l₂.rows.length < l.rows.length →
      SplitEnd cmp (fun n => split_and_insert cmp n q₂ r stack) w₂ w₂ levels₂ r l₂.high_key
        (live w₂.tm w₂.tm.global_xmin l₂.rows)) :
    SplitEnd cmp (fun n => (do
        insert_separator_via_stack cmp n stack sep q p
        let (right_pid, right) ← move_right cmp n r.key q
        if right.CanFit r then place cmp right_pid r
        else split_and_insert cmp n right_pid r stack : Act Unit)) w' w levels r l.high_key
      l.rows := by
  obtain ⟨s, hs, hmid, rfl⟩ := hsplit.exists_row
  obtain ⟨mid, s', hmid', hpos, hs', hkey, -, hright⟩ := hsplit.halves
  obtain ⟨leaves', hlevel', -, hq, hlowq⟩ := hsplit.level
  have hsep : ShortKey s.key := (h.ok.slight s hs).1
  refine .seq (hsplit.separator_ends hsep (h.ok.above hs) h.stack
    (Structural.refl hsplit.good).toOnward) (fun _ _ hb => .inl
    ((hb.failed hsplit.good).trans hsplit.advances)) ?_
  rintro _ w₁ ⟨levels₁, hw₁⟩
  have hlevel₁ : levels₁[0]? = some leaves' := hw₁.chain.trans hlevel'
  have hadv₁ := hsplit.advances.trans (hw₁.toStructural.advances hsplit.good)
  obtain ⟨lr, hleaf, hrows, hhigh⟩ : ∃ lr : LeafNode, w₁.pages q = .leaf lr ∧
      lr.rows = l.rows.drop mid ∧ lr.high_key = l.high_key := by
    obtain ⟨b, hb⟩ := hw₁.leaf q _ hright
    exact ⟨_, hb, rfl, rfl⟩
  have hlow₁ : low w₁.pages leaves' q = some s.key := by
    obtain ⟨lv, hlv, hkeep⟩ := hw₁.grows 0 leaves' hlevel'
    rw [hlevel₁] at hlv
    cases hlv
    rw [(hkeep q hq).2, hlowq]
  have habove : LowLe cmp (low w₁.pages leaves' q) (some r.key) := by
    rw [hlow₁]
    exact le_iff_not_lt.mpr hge
  have hlands : Lands cmp w₁.pages leaves' r.key q lr :=
    ⟨hq, hleaf, habove, by rw [hhigh]; exact h.lands.inside⟩
  refine .seq (move_right_ends hw₁.good hlevel₁ hq habove w₁ (.refl hw₁.good))
    (fun _ _ hb => .inl ((hb.failed hw₁.good).trans hadv₁)) ?_
  rintro ⟨p', right⟩ w₂ ⟨hw₂, hlands', -⟩
  obtain rfl := hlands.unique hw₁.good hlevel₁ hlands'
  obtain rfl : lr = right := Node.leaf.inj (hleaf.symm.trans hlands'.page)
  have hpages : w₂.pages = w₁.pages := congrArg Durable.pages hw₂.same
  have hadv₂ := hadv₁.trans (hw₂.toStructural.advances hw₁.good)
  have hstored : stored w₂ levels₁ = stored w levels := (hw₂.toStructural.stored_eq hw₁.good).trans
      ((hw₁.toStructural.stored_eq hsplit.good).trans hsplit.stored)
  have hlanding : Landing cmp w₂ levels₁ leaves' r q lr stack := by
    have hlow₂ : low w₂.pages leaves' q = some s.key := by
      rw [hpages]
      exact hlow₁
    refine ⟨hw₂.good, hlevel₁, hpages ▸ hlands, h.slight, hadv₂.toOnward.intact h.intact, ?_⟩
    rw [hlow₂]
    exact StackOk.grows hadv₂.grows (h.stack.mono (h.ok.above hs))
  have hlive₂ : ∀ x ∈ lr.rows, ¬ Vacuumable w₂.tm x := by
    intro x hx
    rw [hrows] at hx
    rw [hadv₂.tm]
    exact hlive x (mem_of_mem_drop hx)
  have hlt : mid < l.rows.length := Maps.lt_of_getElem? hs'
  dsimp only
  refine .ite (fun hfit => ?_) fun hno => ?_
  · refine (place_ends hw₂.good hlevel₁ hq hlanding.lands.page h.slight hlanding.lands.above
      hlanding.below hlanding.intact).imp ?_ ?_
    · rintro _ w₃ ⟨-, hstores⟩
      exact ⟨levels₁, Stores.after hadv₂.toOnward ((Pruned.refl _ _).of_eq hstored) hstores⟩
    rintro e w₃ (hfailed | ⟨-, -, hno⟩)
    · exact .inl (hfailed.trans hadv₂)
    · exact absurd hfit hno
  have hshorter : lr.rows.length < l.rows.length := by
    rw [hrows, length_drop]
    omega
  have hnonempty : lr.rows ≠ [] := fun hnil => by
    rw [hrows, drop_eq_nil_iff] at hnil
    omega
  have hend := (hagain w₂ levels₁ leaves' q lr hlanding (keeps_of_live hlive₂ hnonempty) hno
    hshorter).before hadv₂ ((Pruned.refl _ _).of_eq hstored)
  refine hend.imp (fun _ _ h => h) ?_
  rintro e w₃ (hfailed | ⟨rfl, hroom, hadv₃⟩)
  · exact .inl hfailed
  refine .inr ⟨rfl, ?_, hadv₃⟩
  rw [live_eq_self hlive₂, hrows, hhigh] at hroom
  subst hmid'
  exact not_admits_right hfull hmid hge hroom

/-- The version is stored, possibly after splits, or some half has no room for it. -/
theorem split_and_insert_ends (hkeeps : Keeps cmp w.tm l) (hfull : ¬ l.CanFit r) :
    SplitEnd cmp (fun n => split_and_insert cmp n p r stack) w w levels r l.high_key
      (live w.tm w.tm.global_xmin l.rows) := by
  -- On the number of versions on the leaf: the right half has fewer.
  induction hn : l.rows.length using Nat.strong_induction_on generalizing w levels leaves p l with
  | _ n ih =>
  subst hn
  refine .succ rfl ?_
  unfold split_and_insert
  apply Ends.bind_read
  refine .seq (compact_ends h.good h.level h.lands.mem h.lands.page hkeeps) (fun _ _ hb => .inl hb)
    ?_
  rintro compacted w₁ ⟨hw₁, hsame⟩
  have hland₁ := h.later hw₁.toOnward hw₁.leaf rfl
  have hlive : ∀ x ∈ live w.tm w.tm.global_xmin l.rows, ¬ Vacuumable w₁.tm x := by
    intro x hx
    rw [hw₁.tm]
    exact (mem_live.mp hx).2
  have hfewer : (live w.tm w.tm.global_xmin l.rows).length ≤ l.rows.length := length_filter_le _ _
  apply bind_held hw₁.leaf
  refine .ite (fun hfit => ?_) fun hno => ?_
  · refine (place_ends hw₁.good h.level h.lands.mem hw₁.leaf h.slight hland₁.lands.above
      hland₁.below hland₁.intact).imp ?_ ?_
    · rintro _ w₂ ⟨-, hstores⟩
      exact ⟨levels, Stores.after hw₁.toOnward hw₁.dropped hstores⟩
    rintro e w₂ (hfailed | ⟨-, -, hno⟩)
    · exact .inl (hfailed.trans hw₁.toAdvances)
    · exact absurd hfit.2 hno
  -- The compaction did not make enough room, if it dropped anything at all.
  have hfull₁ : ¬ ({ l with rows := live w.tm w.tm.global_xmin l.rows } : LeafNode).CanFit r := by
    intro hfit
    cases compacted with
    | true => exact hno ⟨rfl, hfit⟩
    | false =>
      rw [hsame rfl] at hfit
      exact hfull hfit
  have htwo := two_le_of_not_canFit h.slight hland₁.ok.slight hland₁.ok.short hfull₁
  refine .seq (split_leaf_ly_ends hw₁.good h.level h.lands.mem hw₁.leaf htwo)
    (fun _ _ hb => .inl (hb.trans hw₁.toAdvances)) ?_
  rintro ⟨sep, q⟩ w₂ ⟨levels₂, hsplit⟩
  dsimp only
  refine .ite (fun hge => ?_) fun hlt => ?_
  · exact SplitEnd.before (right_half_ends hland₁ hlive hsplit hge hfull₁
      fun w₃ levels₃ leaves₃ q₃ l₃ hland₃ hkeeps₃ hfull₃ hlen =>
        ih _ (hlen.trans_le hfewer) hland₃ hkeeps₃ hfull₃ rfl) hw₁.toAdvances hw₁.dropped
  rw [not_not] at hlt
  exact SplitEnd.before (left_half_ends hland₁ hsplit hlt hfull₁) hw₁.toAdvances hw₁.dropped

end

end Landing

/-! ## Overflow chains of new values -/

theorem write_overflow_chain_ends (chunks : Nat) (ids : List Nat) (hg : Good cmp w levels)
    (hids : ∀ p ∈ ids, p < w.next_page_id ∧ w.pages p = .other OVERFLOW) :
    Ends (fun _ => write_overflow_chain chunks ids) w
      (fun a w' => Structural cmp w levels w' levels ∧ a.length = chunks + ids.length ∧
        ∀ p ∈ a, p < w'.next_page_id ∧ w'.pages p = .other OVERFLOW)
      (Broke cmp w levels) := by
  induction chunks generalizing w ids with
  | zero => exact .pure ⟨.refl hg, (Nat.zero_add _).symm, hids⟩
  | succ chunks ih =>
    unfold write_overflow_chain edit
    refine .bind (new_page_ends hg) fun pid w₁ hw₁ => ?_
    obtain ⟨hnot, hlt, hblank⟩ := hw₁.fresh hg
    have hput := Structural.put_fresh hw₁.good hnot hlt hblank (.other OVERFLOW) nofun
    have hs := hw₁.toStructural.trans hput
    apply Ends.bind_modify
    refine .seq (log_ends hput.good) (fun _ _ h => h.trans hs) fun _ w₂ hw₂ => ?_
    have hs₂ := hs.trans hw₂.toStructural
    refine (ih (pid :: ids) hw₂.good fun p hp => ?_).imp ?_ fun _ _ h => h.trans hs₂
    · rcases mem_cons.mp hp with rfl | hp
      · rw [hw₂.same]
        exact ⟨hlt, if_pos rfl⟩
      obtain ⟨hp, hpage⟩ := hids p hp
      exact ⟨hp.trans_le hs₂.next, hs₂.overflow p hp hpage⟩
    rintro a w₃ ⟨hw₃, hlen, ha⟩
    refine ⟨hs₂.trans hw₃, ?_, ha⟩
    rw [hlen, length_cons]
    omega

/-- A long value has overflow pages, a short one has none. -/
theorem materialize_value_ends (hg : Good cmp w levels) (value : Bytes) :
    Ends (fun _ => materialize_value value) w (fun a w' => Structural cmp w levels w' levels ∧
        (a = [] ↔ value.length ≤ OVERFLOW_THRESHOLD) ∧
        ∀ p ∈ a, p < w'.next_page_id ∧ w'.pages p = .other OVERFLOW)
      (Broke cmp w levels) := by
  unfold materialize_value
  refine .ite (fun hshort => ?_) fun hlong => ?_
  · exact .pure ⟨.refl hg, iff_of_true rfl hshort, nofun⟩
  refine (write_overflow_chain_ends _ [] hg nofun).imp ?_ fun _ _ h => h
  rintro a w' ⟨hw', hlen, ha⟩
  refine ⟨hw', iff_of_false (fun hnil => ?_) hlong, ha⟩
  rw [hnil, length_nil] at hlen
  unfold OVERFLOW_PAYLOAD_SIZE at hlen
  unfold OVERFLOW_THRESHOLD at hlong
  omega

end FluxDB.Tree
