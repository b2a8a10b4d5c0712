-- Splits above the leaves: a downlink goes into the parent, a full parent splits in turn, and a
-- root that splits gets a new one above it. None of this touches the versions on the leaves. Each
-- such call clears the flag of the page it is about and sets no flag for good, so a descent that
-- finishes the splits it meets comes to its end.
import FluxDB.TreeDescent
import Mathlib.Data.Finset.Card
import Mathlib.Data.Finset.Range

namespace FluxDB.Tree

open Comparator List Maps Chain

variable {cmp : Compare} {w w' w'' : World}
  {levels levels' levels'' : List (List Nat)}

/-- The page was split and its right half may lack a downlink. -/
def Flagged (w : World) (p : Nat) : Prop := (w.pages p).is_incomplete_split = true

/-- The flag of the page is cleared and no flag is new. -/
structure Finishes (cmp : Compare) (w : World) (levels : List (List Nat)) (left : Nat) (w' : World)
    (levels' : List (List Nat)) : Prop extends Structural cmp w levels w' levels' where
  flags : ∀ p, Flagged w' p → Flagged w p ∧ p ≠ left

variable {i left p pid right : Nat} {sep : Bytes} {level lower upper : List Nat}
  {n : InternalNode}

theorem flags_put_clear {w w' : World}
    (hpages : w'.pages = (w.toDurable.put pid (w.pages pid).clear_incomplete_split).pages)
    (h : Flagged w' p) : Flagged w p ∧ p ≠ pid := by
  unfold Flagged at h
  rw [hpages] at h
  change (if p = pid then _ else _ : Node).is_incomplete_split = true at h
  split at h
  · cases hpage : w.pages pid <;> rw [hpage] at h <;> cases h
  · next hne => exact ⟨h, hne⟩

/-- The flag of a page is cleared behind a call that only read. -/
theorem Finishes.clear (hs : Still cmp w levels w') (pid : Nat) (unlogged : List Nat) :
    Finishes cmp w levels pid { w' with toDurable :=
      { w'.toDurable.put pid (w.pages pid).clear_incomplete_split with unlogged } } levels := by
  have hpage : w.pages pid = w'.pages pid := by rw [hs.same]
  have hflags : SameButFlags w'.pages (w'.toDurable.put pid
      (w.pages pid).clear_incomplete_split).pages := by
    rw [hpage]
    exact SameButFlags.put_clear w'.toDurable pid
  have hstep := Structural.of_flags hs.good (d := { w'.toDurable.put pid
    (w.pages pid).clear_incomplete_split with unlogged }) hflags rfl rfl rfl rfl
  refine { hs.toStructural.trans hstep with flags := fun p hp => flags_put_clear ?_ hp }
  change (w'.toDurable.put pid _).pages = _
  rw [hs.same]

theorem clear_incomplete_split_ends (hg : Good cmp w levels) (hpid : InTree levels pid) :
    Ends (fun _ => clear_incomplete_split pid) w (fun _ w' => Finishes cmp w levels pid w' levels)
      (Broke cmp w levels) := by
  unfold clear_incomplete_split edit
  refine .bind (fetch_page_ends (.refl hg) (hg.sound.fresh pid hpid)) ?_
  rintro _ w₁ ⟨hw₁, rfl⟩
  exact .modify (Finishes.clear hw₁ pid _)

theorem clear_logged_ends (hg : Good cmp w levels) (hpid : InTree levels pid) :
    Ends (fun _ => clear_logged pid) w (fun _ w' => Finishes cmp w levels pid w' levels)
      (Broke cmp w levels) := by
  unfold clear_logged edit cleared
  refine .bind (fetch_page_ends (.refl hg) (hg.sound.fresh pid hpid)) ?_
  rintro _ w₁ ⟨hw₁, rfl⟩
  have hclear := Finishes.clear hw₁ pid w₁.unlogged
  have hpage : w.pages pid = w₁.pages pid := by rw [hw₁.same]
  rw [hpage] at hclear
  exact .modify hclear

/-- The redo of a record about a split clears the flag. -/
theorem log_cleared_ends (hg : Good cmp w levels) (pid : Nat) :
    Ends (fun _ => log_as (cleared pid)) w (fun _ => Still cmp w levels) (Broke cmp w levels) := by
  apply log_as_ends hg
  intro hfailed
  have hsound := hg.sound
  rw [← (hg.redo hfailed).1] at hsound
  exact ⟨levels, hsound.of_flags (SameButFlags.put_clear w.toDurable pid) rfl rfl rfl⟩

/-! ## A downlink goes into the parent, or splits it -/

/-- A page of a level above the leaves was split at the separator. -/
structure SplitAt (cmp : Compare) (w : World) (levels : List (List Nat)) (i p : Nat)
    (sep : Bytes) (q : Nat) (w' : World) (levels' : List (List Nat)) : Prop
    extends Structural cmp w levels w' levels' where
  level : ∃ level', levels'[i]? = some level' ∧ p ∈ level' ∧ q ∈ level' ∧
    low w'.pages level' q = some sep ∧ LowLe cmp (low w'.pages level' p) (some sep)
  short : ShortKey sep
  flags : ∀ x, Flagged w' x → Flagged w x ∨ x = p

section Parent

variable (hg : Good cmp w levels) (hupper : levels[i + 1]? = some upper)
  (hlower : levels[i]? = some lower)

include hg hupper hlower

/-- An internal page of the tree changes, but not its high key. -/
theorem Structural.put_internal (hp : p ∈ upper) {n' : InternalNode} (hn : w.pages p = .internal n)
    (hok : InternalOk cmp w.pages lower (low w.pages upper p) (Chain.next upper p) n')
    (hhigh : n'.high_key = n.high_key) :
    Structural cmp w levels { w with toDurable := w.toDurable.put p (.internal n') } levels := by
  have hsame : ∀ q, q ≠ p → (w.toDurable.put p (.internal n')).pages q = w.pages q := fun q hq =>
    if_neg hq
  have hother : ∀ q node, (∀ n, node ≠ .internal n) → w.pages q = node →
      (w.toDurable.put p (.internal n')).pages q = node := by
    intro q node hnode hq
    rw [hsame q, hq]
    rintro rfl
    exact hnode n (hq.symm.trans hn)
  have hshape := hg.shape.put_internal hupper hlower hp hn hhigh hok
  have hgood : Good cmp { w with toDurable := w.toDurable.put p (.internal n') } levels := by
    refine ⟨⟨hshape, hg.sound.root, hg.sound.fresh, fun q hq => ?_, fun q l hl r hr => ?_,
      hg.sound.bitmap, hg.sound.txns⟩, hg.pool, hg.pending, hg.redo⟩
    · exact hother q _ nofun (hg.sound.blank q hq)
    by_cases hq : q = p
    · subst hq
      cases (if_pos rfl).symm.trans hl
    refine (hg.sound.rows q l ((hsame q hq).symm.trans hl) r hr).mono rfl (Nat.le_refl _) ?_
    exact fun x _ hx => hother x _ nofun hx
  exact {
    good := hgood
    grows := Grows.of_high fun q _ => by
      by_cases hq : q = p
      · subst hq
        change (if q = q then Node.internal n' else _ : Node).high_key = _
        rw [if_pos rfl, hn]
        exact hhigh
      · exact congrArg Node.high_key (hsame q hq)
    txns := rfl
    next := Nat.le_refl _
    overflow := fun q _ hq => hother q _ nofun hq
    late := fun h => h
    failed := fun h => h
    chain := rfl
    leaf := fun q l hl => ⟨l.incomplete_split, hother q _ nofun hl⟩
    written := rfl }

/-- The parent has room for the separator and the downlink. -/
theorem link_ends [Std.TransCmp cmp] (hhold : Holds cmp w.pages upper sep p n)
    (hsep : ShortKey sep) (hfit : n.CanFit sep.length) (hleft : left ∈ lower)
    (hright : right ∈ lower) (hlow : low w.pages lower right = some sep) :
    Ends (fun _ => (do
        edit fun d => d.put p
          (.internal (n.insert_key_and_right_child (n.find_child cmp sep) sep right))
        log_as (cleared left)
        clear_logged left : Act Unit)) w
      (fun _ w' => Finishes cmp w levels left w' levels)
      (Broke cmp w levels) := by
  obtain ⟨n₀, hn₀, hok⟩ := hg.shape.internal i upper lower hupper hlower p hhold.mem
  cases hhold.page.symm.trans hn₀
  have hlt : n.high_key ≠ [] → cmp sep n.high_key = .lt := fun hne =>
    by_contra fun h => hhold.inside ⟨hne, h⟩
  have hput := Structural.put_internal hg hupper hlower hhold.mem hhold.page
    (hok.insert hsep hhold.above hlt hfit hright hlow) rfl
  have hflags : ∀ q, Flagged { w with toDurable := w.toDurable.put p (.internal
      (n.insert_key_and_right_child (n.find_child cmp sep) sep right)) } q → Flagged w q := by
    intro q hq
    unfold Flagged at hq ⊢
    change (if q = p then _ else _ : Node).is_incomplete_split = true at hq
    split at hq
    · next heq =>
      rw [heq, hhold.page]
      exact hq
    · exact hq
  unfold edit
  apply Ends.bind_modify
  refine .seq (log_cleared_ends hput.good left) (fun _ _ h => h.trans hput) fun _ w₁ hw₁ => ?_
  have hsofar := hput.trans hw₁.toStructural
  refine (clear_logged_ends hw₁.good ⟨i, lower, hlower, hleft⟩).imp (fun _ w₂ hw₂ => ?_)
    fun _ _ h => h.trans hsofar
  refine { hsofar.trans hw₂.toStructural with flags := fun q hq => ?_ }
  obtain ⟨hflag, hne⟩ := hw₂.flags q hq
  refine ⟨hflags q ?_, hne⟩
  unfold Flagged at hflag ⊢
  rwa [hw₁.same] at hflag

theorem Structural.put_halves {q : Nat} (hp : p ∈ upper) {left right : InternalNode}
    (hn : w.pages p = .internal n) (hq : ¬ InTree levels q) (hlt : q < w.next_page_id)
    (hblank : w.pages q = .other 0) (hhigh : right.high_key = n.high_key)
    (hokl : InternalOk cmp w.pages lower (low w.pages upper p) (some q) left)
    (hokr : InternalOk cmp w.pages lower (some left.high_key) (Chain.next upper p) right) :
    Structural cmp w levels
      { w with toDurable := (w.toDurable.put q (.internal right)).put p (.internal left) }
      (levels.set (i + 1) (Chain.insertAfter p q upper)) := by
  have hpq : q ≠ p := fun heq => hq (heq ▸ ⟨i + 1, upper, hupper, hp⟩)
  have hleft : ((w.toDurable.put q (.internal right)).put p (.internal left)).pages p =
      .internal left := if_pos rfl
  have hright : ((w.toDurable.put q (.internal right)).put p (.internal left)).pages q =
      .internal right := (if_neg hpq).trans (if_pos rfl)
  have hsame : ∀ x, x ≠ p → x ≠ q →
      ((w.toDurable.put q (.internal right)).put p (.internal left)).pages x = w.pages x :=
    fun x hxp hxq => (if_neg hxp).trans (if_neg hxq)
  generalize hd : (w.toDurable.put q (.internal right)).put p (.internal left) = d at *
  have hother : ∀ x node, (∀ n, node ≠ .internal n) → node ≠ .other 0 → w.pages x = node →
      d.pages x = node := by
    intro x node hnode hnode' hx
    rw [hsame x, hx]
    · rintro rfl
      exact hnode n (hx.symm.trans hn)
    rintro rfl
    exact hnode' (hx.symm.trans hblank)
  obtain ⟨hshape, hgrows⟩ := hg.shape.split_internal hupper hlower hp hn hq hleft hright
    (fun x hx hxp => hsame x hxp fun heq => hq (heq ▸ hx)) hhigh hokl hokr
  have hplt := hg.lt hupper hp
  have hsound : Sound cmp d w.root (levels.set (i + 1) (Chain.insertAfter p q upper)) := by
    refine hg.sound.split hupper hp hlt hshape (by rw [← hd]; rfl) (fun x hx => ?_)
      (fun x l hl r hr => ?_) (fun x hx => hother x _ nofun (by decide) hx) (by rw [← hd]; rfl)
      (by rw [← hd]; rfl)
    · exact hsame x (Nat.ne_of_gt (hplt.trans_le hx)) (Nat.ne_of_gt (hlt.trans_le hx))
    have hxp : x ≠ p := by
      rintro rfl
      cases hleft.symm.trans hl
    have hxq : x ≠ q := by
      rintro rfl
      cases hright.symm.trans hl
    exact ⟨x, l, (hsame x hxp hxq).symm.trans hl, hr⟩
  exact {
    good := ⟨hsound, hg.pool, hg.pending, fun hfailed => by
      obtain ⟨hroot, hredo⟩ := hg.redo hfailed
      refine ⟨?_, hredo⟩
      rw [← hroot, ← hd]
      rfl⟩
    grows := hgrows
    txns := by rw [← hd]; rfl
    next := Nat.le_of_eq (by rw [← hd]; rfl)
    overflow := fun x _ hx => hother x _ nofun (by decide) hx
    late := fun h => h
    failed := fun h => h
    chain := getElem?_set_ne (Nat.succ_ne_zero i)
    leaf := fun x l hl => ⟨l.incomplete_split, hother x _ nofun nofun hl⟩
    written := rfl }

theorem split_internal_ly_ends [Std.TransCmp cmp] (hhold : Holds cmp w.pages upper sep p n)
    (hsep : ShortKey sep) (hright : right ∈ lower) (hlow : low w.pages lower right = some sep) :
    Ends (fun _ => split_internal_ly cmp p n sep right) w
      (fun a w' => ∃ levels', SplitAt cmp w levels (i + 1) p a.1 a.2 w' levels')
      (Broke cmp w levels) := by
  obtain ⟨n₀, hn₀, hok⟩ := hg.shape.internal i upper lower hupper hlower p hhold.mem
  cases hhold.page.symm.trans hn₀
  have hlt : n.high_key ≠ [] → cmp sep n.high_key = .lt := fun hne =>
    by_contra fun h => hhold.inside ⟨hne, h⟩
  unfold split_internal_ly
  refine .bind (new_page_ends hg) fun q w₁ hw₁ => ?_
  obtain ⟨push_up, left, right', heq, hshort, hle, hlhk, hrhk, hflag, hokl, hokr⟩ :=
    hok.halves hsep hhold.above hlt hright hlow q
  rw [heq]
  dsimp only
  unfold edit
  apply Ends.bind_modify
  obtain ⟨hqnot, hqlt, hblank⟩ := hw₁.fresh hg
  rw [← hw₁.pages] at hokl hokr
  rw [← hlhk] at hokr
  have hput := Structural.put_halves hw₁.good hupper hlower hhold.mem
    (by rw [hw₁.pages]; exact hhold.page) hqnot hqlt hblank hrhk hokl hokr
  have hsofar := hw₁.toStructural.trans hput
  refine .seq (log_ends hput.good) (fun _ _ h => h.trans hsofar) fun _ w₂ hw₂ => .pure
    ⟨_, { hsofar.trans hw₂.toStructural with level := ?_, short := hshort, flags := fun x hx => ?_
    }⟩
  · have hnodup := hg.shape.nodup (i + 1) upper hupper
    have hqup : q ∉ upper := fun h => hqnot ⟨i + 1, upper, hupper, h⟩
    have hpages :
        w₂.pages = ((w₁.toDurable.put q (.internal right')).put p (.internal left)).pages :=
      congrArg Durable.pages hw₂.same
    refine ⟨Chain.insertAfter p q upper, ?_, ?_, ?_, ?_, ?_⟩
    · exact (getElem?_set_eq_ite hupper _ _).trans (if_pos rfl)
    · exact (mem_insertAfter hhold.mem).mpr (.inr hhold.mem)
    · exact (mem_insertAfter hhold.mem).mpr (.inl rfl)
    · rw [low_inserted hnodup hhold.mem hqup, hpages, ← hlhk]
      exact congrArg (fun node : Node => some node.high_key) (if_pos rfl)
    obtain ⟨level', hlevel', hkeep⟩ := (hsofar.trans hw₂.toStructural).grows (i + 1) upper hupper
    rw [getElem?_set_eq_ite hupper, if_pos rfl] at hlevel'
    cases hlevel'
    rw [(hkeep p hhold.mem).2]
    exact hle
  have hx' : (((w₁.toDurable.put q (.internal right')).put p (.internal left)).pages
      x).is_incomplete_split = true := by
    unfold Flagged at hx
    rwa [congrArg Durable.pages hw₂.same] at hx
  by_cases hxp : x = p
  · exact .inr hxp
  left
  change (if x = p then _ else if x = q then _ else w₁.pages x : Node).is_incomplete_split = true
    at hx'
  rw [if_neg hxp] at hx'
  split at hx'
  · rw [Node.is_incomplete_split, hflag] at hx'
    cases hx'
  · rwa [hw₁.pages] at hx'

end Parent

/-! ## A new root -/

/-- After a failure it no longer matters what redo would bring back. -/
theorem Structural.halted (h : Structural cmp w levels w' levels) {meta_root : Nat}
    {redo : List Durable} (hspent : Spent { w' with meta_root, redo, failed := true } w'') :
    Structural cmp w levels w'' levels := by
  obtain ⟨faults, late_faults, rfl, hlate⟩ := hspent
  refine { h with good := ⟨?_, h.good.pool, h.good.pending, nofun⟩
                  late := fun hl => hlate (h.late hl), failed := nofun }
  exact h.good.sound.of_flags (fun _ => rfl) rfl rfl rfl

/-- A root over the two pages at the top. -/
theorem Sound.new_root [Std.TransCmp cmp] {d : Durable} {root : Nat} (h : Sound cmp d root levels)
    {top : List Nat} (htop : levels.getLast? = some top) (hhead : top.head? = some left)
    (hright : right ∈ top) (hlow : low d.pages top right = some sep) (hsep : ShortKey sep)
    (hpid : ¬ InTree levels pid) (hlt : pid < d.next_page_id)
    (hpage : d.pages pid = .internal (rootOver sep left right)) :
    Sound cmp d pid (levels ++ [[pid]]) where
  __ := h
  shape := (h.shape.new_root htop hhead hright hlow hsep hpid hpage fun _ _ => rfl).1
  root := ⟨[pid], getLast?_concat .., rfl⟩
  fresh p hp := by
    obtain ⟨i, level, hi, hmem⟩ := hp
    rcases Nat.lt_or_ge i levels.length with hlen | hlen
    · rw [getElem?_append_left hlen] at hi
      exact h.fresh p ⟨i, level, hi, hmem⟩
    rw [getElem?_append_right hlen] at hi
    obtain rfl := mem_singleton.mp (mem_of_getElem? hi)
    rw [mem_singleton.mp hmem]
    exact hlt

/-- The superblock names the new root and a record says so. -/
def named (left pid : Nat) (w : World) : World :=
  { w with meta_root := pid
           redo := w.redo ++ [{ cleared left w.toDurable with meta_root := pid }] }

/-- The superblock names the new root, a record says so, and the flag below it is cleared. Until
then the root in memory is the old one, and a call that fails leaves it at that. -/
theorem adopt_root_ends (hs : Structural cmp w levels w' levels)
    (hsound : Sound cmp w'.toDurable pid levels') (hleft : left < w'.next_page_id) :
    Ends (fun _ => (do
        edit fun d => { d with meta_root := pid }
        log_as (cleared left)
        clear_logged left
        Prog.modify fun w => { w with root := pid } : Act Unit)) w'
      (fun _ w'' => Good cmp w'' levels' ∧
        Spent { named left pid w' with
          pages := (cleared left w'.toDurable).pages, root := pid } w'')
      (Broke cmp w levels) := by
  have hcleared : Sound cmp { cleared left w'.toDurable with meta_root := pid } pid levels' :=
    hsound.of_flags (SameButFlags.put_clear w'.toDurable left) rfl rfl rfl
  unfold edit log_as clear_logged fetch_page
  apply Ends.bind_modify
  refine .bind (R := fun _ w₁ => Spent (named left pid w') w₁) ?_ ?_
  · refine .seq (call_raw _ _) ?_ ?_
    · rintro _ _ ⟨rfl, hearly, hspent⟩
      refine ⟨.inr rfl, fun hlate => ?_, levels, hs.halted hspent⟩
      obtain ⟨_, _, rfl, -⟩ := hspent
      exact hearly (hs.late hlate)
    rintro _ _ ⟨faults, late_faults, rfl, hlate⟩
    exact .modify ⟨faults, late_faults, rfl, hlate⟩
  rintro _ w₁ hw₁
  refine .bind (R := fun _ w₂ =>
    Spent { named left pid w' with pages := (cleared left w'.toDurable).pages } w₂) ?_ ?_
  · refine .bind (R := fun _ w₂ => Spent (named left pid w') w₂) ?_ ?_
    · apply Ends.bind_read
      have hlt : left < w₁.next_page_id := by
        obtain ⟨_, _, rfl, -⟩ := hw₁
        exact hleft
      rw [if_pos hlt]
      refine .bind ((call_raw _ _).imp (fun _ _ h => hw₁.trans h) ?_) fun _ _ h => .pure h
      obtain ⟨faults, late_faults, rfl, hlate⟩ := hw₁
      rintro _ _ ⟨rfl, hearly, faults', late_faults', rfl, hlate'⟩
      refine ⟨.inl rfl, fun hl => hearly (hlate (hs.late hl)), levels, ?_⟩
      exact hs.halted ⟨faults', late_faults', rfl, fun hl => hlate' (hlate hl)⟩
    rintro _ _ ⟨faults, late_faults, rfl, hlate⟩
    exact .modify ⟨faults, late_faults, rfl, hlate⟩
  rintro _ _ ⟨faults, late_faults, rfl, hlate⟩
  refine .modify ⟨⟨hcleared, hs.good.pool, hs.good.pending, fun hfailed => ⟨rfl, ?_⟩⟩,
    faults, late_faults, rfl, hlate⟩
  exact forall_mem_concat (hs.good.redo hfailed).2 ⟨levels', hcleared⟩

variable [Std.TransCmp cmp]

theorem new_root_ends (hg : Good cmp w levels) {top : List Nat}
    (htop : levels.getLast? = some top) (hroot : w.root = left) (hright : right ∈ top)
    (hlow : low w.pages top right = some sep) (hsep : ShortKey sep) :
    Ends (fun _ => new_root sep right left) w
      (fun _ w' => ∃ levels', Finishes cmp w levels left w' levels')
      (Broke cmp w levels) := by
  have hhead : top.head? = some left := by
    obtain ⟨top', htop', hhead⟩ := hg.sound.root
    rw [htop] at htop'
    cases htop'
    rw [hhead, hroot]
  have hleft : InTree levels left := by
    refine ⟨levels.length - 1, top, ?_, mem_of_mem_head? hhead⟩
    rw [← getLast?_eq_getElem?]
    exact htop
  unfold new_root edit
  refine .bind (new_page_ends hg) fun pid w₁ hw₁ => ?_
  obtain ⟨hnot, hlt, hblank⟩ := hw₁.fresh hg
  apply Ends.bind_modify
  have hput := Structural.put_fresh hw₁.good hnot hlt hblank
    (.internal (rootOver sep left right)) nofun
  have hsofar := hw₁.toStructural.trans hput
  refine .bind ((fetch_page_ends (.refl hput.good) hput.good.zero_lt).imp
    (fun _ _ h => h.1) fun _ _ h => h.trans hsofar) fun _ w₂ hw₂ => ?_
  have hs₂ := hsofar.trans hw₂.toStructural
  have hpage : w₂.pages pid = .internal (rootOver sep left right) := by
    rw [hw₂.same]
    exact if_pos rfl
  have hpages : ∀ p, p ≠ pid → w₂.pages p = w.pages p := by
    intro p hp
    rw [hw₂.same, ← hw₁.pages]
    exact if_neg hp
  have hlow₂ : low w₂.pages top right = some sep := by
    refine (low_congr (fun q hq => ?_) right).trans hlow
    rw [hpages q]
    rintro rfl
    exact hnot ⟨_, top, (getLast?_eq_getElem? ▸ htop), hq⟩
  have hsound : Sound cmp w₂.toDurable pid (levels ++ [[pid]]) :=
    hw₂.good.sound.new_root htop hhead hright hlow₂ hsep hnot (by rw [hw₂.same]; exact hlt) hpage
  have hleftlt : left < w₂.next_page_id := hw₂.good.sound.fresh left hleft
  refine (adopt_root_ends hs₂ hsound hleftlt).imp ?_ fun _ _ h => h
  rintro _ _ ⟨hgood, faults, late_faults, rfl, hlate⟩
  have hflags : SameButFlags w₂.pages (cleared left w₂.toDurable).pages :=
    SameButFlags.put_clear w₂.toDurable left
  refine ⟨levels ++ [[pid]], ⟨⟨hgood, ?_, hs₂.txns, hs₂.next, fun p hp hpage => ?_,
    fun hl => hlate (hs₂.late hl), hs₂.failed⟩, ?_, fun p l hl => ?_, hs₂.written⟩, fun p hp => ?_⟩
  · apply Grows.append
    intro p hp
    rw [hflags.high_key, hpages p fun heq => hnot (heq ▸ hp)]
  · exact hflags.other (hs₂.overflow p hp hpage)
  · apply getElem?_append_left
    cases levels with
    | nil => cases htop
    | cons => exact Nat.succ_pos _
  · obtain ⟨b, hb⟩ := hs₂.leaf p l hl
    obtain ⟨b', hb'⟩ := hflags.leaf hb
    exact ⟨b', hb'⟩
  obtain ⟨hflag, hne⟩ := flags_put_clear (w := w₂) rfl hp
  refine ⟨?_, hne⟩
  unfold Flagged at hflag ⊢
  rwa [hpages p] at hflag
  rintro rfl
  rw [hpage] at hflag
  cases hflag

/-! ## The separator goes up -/

/-- The downlink of the right half is put in place along the stack. -/
theorem insert_separator_via_stack_ends (stack : List Nat) {w : World} {levels : List (List Nat)}
    (hg : Good cmp w levels) (hi : levels[i]? = some level) (hleft : left ∈ level)
    (hright : right ∈ level) (hlow : low w.pages level right = some sep) (hsep : ShortKey sep)
    (hstack : StackOk cmp w.pages levels (i + 1) stack (some sep)) :
    Ends (fun n => insert_separator_via_stack cmp n stack sep right left) w
      (fun _ w' => ∃ levels', Finishes cmp w levels left w' levels')
      (Broke cmp w levels) := by
  induction stack generalizing w levels i level left right sep with
  | nil =>
    unfold insert_separator_via_stack
    apply Ends.bind_read
    refine .ite (fun _ => ?_) fun hroot => ?_
    · exact (clear_incomplete_split_ends hg ⟨i, level, hi, hleft⟩).imp (fun _ _ h => ⟨levels, h⟩)
        fun _ _ h => h
    rw [not_not] at hroot
    obtain ⟨top, htop, hhead⟩ := hg.sound.root
    rw [hroot] at hhead
    -- The page is the first of the top level, so its level is the top level.
    have htop' := htop
    rw [getLast?_eq_getElem?] at htop'
    obtain rfl := hg.shape.apart _ i top level left htop' hi (mem_of_mem_head? hhead) hleft
    rw [hi] at htop'
    cases htop'
    exact new_root_ends hg htop hroot hright hlow hsep
  | cons parent rest ih =>
    obtain ⟨upper, hupper, hparent, hbelow, hrest⟩ := hstack
    unfold insert_separator_via_stack
    refine .bind (move_right_internal_ends hg hupper hi hparent hbelow w (.refl hg)) ?_
    rintro ⟨p, n⟩ w₁ ⟨hw₁, hhold, hle⟩
    have hbroke : ∀ e w', Broke cmp w₁ levels e w' → Broke cmp w levels e w' := fun _ _ h =>
      h.trans hw₁.toStructural
    have hpages : w₁.pages = w.pages := congrArg Durable.pages hw₁.same
    have hfinish : ∀ w' levels', Finishes cmp w₁ levels left w' levels' →
        Finishes cmp w levels left w' levels' := by
      intro w' levels' h
      refine { hw₁.toStructural.trans h.toStructural with flags := fun x hx => ?_ }
      have hflag := h.flags x hx
      unfold Flagged at hflag ⊢
      rwa [hpages] at hflag
    have hhold₁ : Holds cmp w₁.pages upper sep p n := by
      rw [hpages]
      exact hhold
    have hlow₁ : low w₁.pages level right = some sep := by
      rw [hpages]
      exact hlow
    dsimp only
    refine .ite (fun _ => ?_) fun _ => .ite (fun hfit => ?_) fun _ => ?_
    · exact (clear_incomplete_split_ends hw₁.good ⟨i, level, hi, hleft⟩).imp
        (fun _ _ h => ⟨levels, hfinish _ _ h⟩) hbroke
    · exact (link_ends hw₁.good hupper hi hhold₁ hsep hfit hleft hright hlow₁).imp
        (fun _ _ h => ⟨levels, hfinish _ _ h⟩) hbroke
    refine .seq (split_internal_ly_ends hw₁.good hupper hi hhold₁ hsep hright hlow₁) hbroke ?_
    rintro ⟨push_up, q⟩ w₂ ⟨levels₂, hw₂⟩
    have hs₂ := hw₁.toStructural.trans hw₂.toStructural
    obtain ⟨upper', hupper', hp', hq', hlowq, hlowp⟩ := hw₂.level
    have hleft₂ : InTree levels₂ left := by
      obtain ⟨level', hi', hkeep⟩ := hs₂.grows i level hi
      exact ⟨i, level', hi', (hkeep left hleft).1⟩
    refine .seq (clear_incomplete_split_ends hw₂.good hleft₂) (fun _ _ h => h.trans hs₂)
      fun _ w₃ hw₃ => ?_
    have hs₃ := hs₂.trans hw₃.toStructural
    have hlow₃ : low w₃.pages upper' q = some push_up := by
      obtain ⟨lv, hlv, hkeep⟩ := hw₃.grows (i + 1) upper' hupper'
      rw [hupper'] at hlv
      cases hlv
      rw [(hkeep q hq').2, hlowq]
    have hstack₃ : StackOk cmp w₃.pages levels₂ (i + 1 + 1) rest (some push_up) := by
      refine StackOk.grows hs₃.grows (hrest.mono (hle.trans ?_))
      obtain ⟨lv, hlv, hkeep⟩ := hs₂.grows (i + 1) upper hupper
      rw [hupper'] at hlv
      cases hlv
      rwa [(hkeep p hhold.mem).2] at hlowp
    refine (ih hw₃.good hupper' hp' hq' hlow₃ hw₂.short hstack₃).imp ?_ fun _ _ h => h.trans hs₃
    rintro _ w₄ ⟨levels₄, hw₄⟩
    refine ⟨levels₄, { hs₃.trans hw₄.toStructural with flags := fun x hx => ?_ }⟩
    obtain ⟨hflag, hxp⟩ := hw₄.flags x hx
    obtain ⟨hflag, hxleft⟩ := hw₃.flags x hflag
    refine ⟨?_, hxleft⟩
    have hflag := (hw₂.flags x hflag).resolve_right hxp
    unfold Flagged at hflag ⊢
    rwa [hpages] at hflag

/-! ## Splits that were left unfinished -/

theorem finish_split_ends (hg : Good cmp w levels) (hi : levels[i]? = some level) (hp : p ∈ level)
    (hflag : Flagged w p) {stack : List Nat}
    (hstack : StackOk cmp w.pages levels (i + 1) stack (low w.pages level p)) :
    Ends (fun n => finish_split cmp n p stack) w
      (fun _ w' => ∃ levels', Finishes cmp w levels p w' levels')
      (Broke cmp w levels) := by
  obtain ⟨hright, htop, hshort⟩ := hg.shape.links hi hp
  unfold finish_split
  refine .bind (fetch_page_ends (.refl hg) (hg.lt hi hp)) ?_
  rintro _ w₁ ⟨hw₁, rfl⟩
  refine .ite (fun _ => ?_) fun hno => absurd hflag hno
  cases hhk : (w.pages p).high_key with
  | nil => exact .modify ⟨levels, Finishes.clear hw₁ p _⟩
  | cons k ks =>
    obtain ⟨q, hq⟩ := Option.ne_none_iff_exists'.mp (mt htop.mpr (by rw [hhk]; exact nofun))
    rw [hright, hq]
    have hlow : low w.pages level q = _ := low_next (hg.shape.nodup i level hi) hq
    have hpages : w₁.pages = w.pages := congrArg Durable.pages hw₁.same
    have hsep : low w₁.pages level q = some (k :: ks) := by rw [hpages, hlow, hhk]
    have hend := insert_separator_via_stack_ends stack hw₁.good hi hp (mem_of_next hq).2
      hsep ⟨nofun, by rw [← hhk]; exact hshort⟩ (by
        rw [hpages]
        refine hstack.mono ?_
        rw [← hhk, ← hlow]
        exact hg.shape.low_le_next hi hq)
    refine hend.imp ?_ fun _ _ h => h.trans hw₁.toStructural
    rintro _ w₂ ⟨levels₂, hw₂⟩
    refine ⟨levels₂, { hw₁.toStructural.trans hw₂.toStructural with flags := fun x hx => ?_ }⟩
    have hflag' := hw₂.flags x hx
    unfold Flagged at hflag' ⊢
    rwa [hpages] at hflag'

/-- The pages whose flag is set. -/
def flagged (w : World) : Finset Nat :=
  (Finset.range w.next_page_id).filter fun p => (w.pages p).is_incomplete_split

omit [Std.TransCmp cmp] in
/-- Every split that is finished is one less. -/
theorem Finishes.card_lt (hg : Good cmp w levels) (hflag : Flagged w p)
    (h : Finishes cmp w levels p w' levels') : (flagged w').card < (flagged w).card := by
  have hlt : ∀ x, Flagged w x → x < w.next_page_id := by
    intro x hx
    by_contra hle
    unfold Flagged at hx
    rw [hg.sound.blank x (Nat.not_lt.mp hle)] at hx
    cases hx
  apply Finset.card_lt_card
  rw [Finset.ssubset_iff_of_subset]
  · refine ⟨p, ?_, fun hp => ?_⟩
    · exact Finset.mem_filter.mpr ⟨Finset.mem_range.mpr (hlt p hflag), hflag⟩
    · exact (h.flags p (Finset.mem_filter.mp hp).2).2 rfl
  intro x hx
  have hflag' := (h.flags x (Finset.mem_filter.mp hx).2).1
  exact Finset.mem_filter.mpr ⟨Finset.mem_range.mpr (hlt x hflag'), hflag'⟩

/-- The way down up to the first split that is unfinished. -/
theorem descend_finishing_walk (hg : Good cmp w levels) {key : Bytes}
    {Q : Nat × List Nat → World → Prop}
    (hdone : ∀ w' chain p stack, Still cmp w levels w' → levels[0]? = some chain → p ∈ chain →
      LowLe cmp (low w.pages chain p) (some key) →
      StackOk cmp w.pages levels 1 stack (low w.pages chain p) → Q (p, stack) w')
    (hagain : ∀ p w' levels', Flagged w p → Finishes cmp w levels p w' levels' →
      Ends (fun n => descend_finishing cmp n key w'.root []) w' Q (Broke cmp w levels))
    (hi : levels[i]? = some level) (hp : p ∈ level)
    (hlow : LowLe cmp (low w.pages level p) (some key)) (stack : List Nat)
    (hstack : StackOk cmp w.pages levels (i + 1) stack (low w.pages level p)) (w' : World)
    (hs : Still cmp w levels w') :
    Ends (fun n => descend_finishing cmp n key p stack) w' Q (Broke cmp w levels) := by
  have hfinish : ∀ {i : Nat} {level : List Nat}, levels[i]? = some level → ∀ {p : Nat}, p ∈ level →
      ∀ {stack : List Nat}, StackOk cmp w.pages levels (i + 1) stack (low w.pages level p) →
      ∀ {w' : World}, Still cmp w levels w' → (w.pages p).is_incomplete_split = true →
      Ends (fun n => (do
          finish_split cmp n p stack
          let w ← Prog.read
          descend_finishing cmp n key w.root [] : Act (Nat × List Nat))) w' Q
        (Broke cmp w levels) := by
    intro i level hi p hp stack hstack w' hs hflag
    have hpages : w'.pages = w.pages := congrArg Durable.pages hs.same
    refine .seq (finish_split_ends hs.good hi hp (by unfold Flagged; rwa [hpages])
      (by rwa [hpages])) (fun _ _ h => h.trans hs.toStructural) ?_
    rintro _ w₁ ⟨levels₁, hw₁⟩
    apply Ends.bind_read
    refine hagain p w₁ levels₁ hflag { hs.toStructural.trans hw₁.toStructural with
      flags := fun x hx => ?_ }
    have hflag' := hw₁.flags x hx
    unfold Flagged at hflag' ⊢
    rwa [hpages] at hflag'
  -- On the level, and on a level from right to left.
  induction i generalizing level p stack w' with
  | zero =>
    obtain ⟨l, hl, hok⟩ := hg.shape.leaf level hi p hp
    refine .succ rfl ?_
    unfold descend_finishing
    refine .bind (fetch_page_ends hs (hg.lt hi hp)) ?_
    rintro _ w₁ ⟨hw₁, rfl⟩
    refine .ite (fun hflag => hfinish hi hp hstack hw₁ hflag) fun _ => ?_
    rw [hl]
    exact .pure (hdone w₁ level p stack hw₁ hi hp hlow hstack)
  | succ i ihlevel =>
    obtain ⟨lower, hlower⟩ := exists_lower hi
    have hnodup := hg.shape.nodup (i + 1) level hi
    revert hlow hstack
    revert w'
    refine induct_right hnodup (fun p hp ih w' hs hlow hstack => ?_) hp
    obtain ⟨n, hn, hok⟩ := hg.shape.internal i level lower hi hlower p hp
    refine .succ rfl ?_
    unfold descend_finishing
    refine .bind (fetch_page_ends hs (hg.lt hi hp)) ?_
    rintro _ w₁ ⟨hw₁, rfl⟩
    refine .ite (fun hflag => hfinish hi hp hstack hw₁ hflag) fun _ => ?_
    rw [hn]
    refine .ite (fun hbeyond => ?_) fun _ => ?_
    · obtain ⟨q, hq⟩ := Option.ne_none_iff_exists'.mp (mt hok.top.mpr hbeyond.1)
      rw [hok.rightlink, hq]
      apply Ends.bind_pure
      refine ih q hq _ hw₁ (low_le_right hnodup hq (by rw [hn]; exact hbeyond)) ?_
      exact hstack.mono (hg.shape.low_le_next hi hq)
    obtain ⟨c, hc, hmem, hbelow, habove⟩ := hok.child hlow
    rw [hc]
    apply Ends.bind_pure
    exact ihlevel hlower hmem hbelow (p :: stack) ⟨level, hi, hp, habove, hstack⟩ _ hw₁

/-- The leaf at the end of the way down, with the pages passed. -/
structure Descended (cmp : Compare) (w : World) (levels : List (List Nat)) (key : Bytes)
    (p : Nat) (stack : List Nat) (w' : World) (levels' : List (List Nat)) (leaves : List Nat) : Prop
    extends Structural cmp w levels w' levels' where
  level : levels'[0]? = some leaves
  mem : p ∈ leaves
  above : LowLe cmp (low w'.pages leaves p) (some key)
  stack : StackOk cmp w'.pages levels' 1 stack (low w'.pages leaves p)

theorem descend_finishing_ends (hg : Good cmp w levels) (key : Bytes) :
    Ends (fun n => descend_finishing cmp n key w.root []) w
      (fun a w' => ∃ levels' chain, Descended cmp w levels key a.1 a.2 w' levels' chain)
      (Broke cmp w levels) := by
  induction hk : (flagged w).card using Nat.strong_induction_on generalizing w levels with
  | _ k ih =>
  subst hk
  obtain ⟨top, htop, hhead⟩ := hg.sound.root
  rw [getLast?_eq_getElem?] at htop
  have hlow : low w.pages top _ = none := low_head (hg.shape.nodup _ top htop) hhead
  refine descend_finishing_walk hg (fun w' chain p stack hs hchain hp hle hstack => ?_)
    (fun p w' levels' hflag h => ?_) htop (mem_of_mem_head? hhead) (by rw [hlow]; trivial) []
    trivial w (.refl hg)
  · have hpages : w'.pages = w.pages := congrArg Durable.pages hs.same
    exact ⟨levels, chain, { hs.toStructural with
      level := hchain, mem := hp, above := by rwa [hpages], stack := by rwa [hpages] }⟩
  refine (ih _ (h.card_lt hg hflag) h.good rfl).imp ?_ fun _ _ hb => hb.trans h.toStructural
  rintro a w'' ⟨levels'', chain, hd⟩
  exact ⟨levels'', chain, { h.toStructural.trans hd.toStructural with
    level := hd.level, mem := hd.mem, above := hd.above, stack := hd.stack }⟩

end FluxDB.Tree
