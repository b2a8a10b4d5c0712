-- What holds of an index between two calls, and what a call may do to it on the way. Most parts of
-- a call are structural: they leave the versions on the leaves alone. A call of the pool or the
-- log that fails leaves the index in order too, and if the operation has not changed a version
-- before, it has changed none.
import FluxDB.TreeGrowth
import FluxDB.TreeVacuum

namespace FluxDB.Tree

open List Maps

variable {cmp : Compare}

/-! ## An index in order -/

/-- The stamps of a stored version are ids of transactions that have begun, nobody but its creator
deletes it before the creator has ended, and its overflow pages are in place. -/
structure Intact (d : Durable) (r : Row) : Prop where
  creator : (d.txns.phase r.xmin).clog ≠ none
  deleter : r.xmax = 0 ∨ (d.txns.phase r.xmax).clog ≠ none
  ended : r.xmax = 0 ∨ r.xmax = r.xmin ∨ (d.txns.phase r.xmin).Final
  chain : ∀ p ∈ r.pages, p < d.next_page_id ∧ d.pages p = .other OVERFLOW

structure Sound (cmp : Compare) (d : Durable) (root : Nat) (levels : List (List Nat)) : Prop where
  shape : Shape cmp d.pages levels
  root : ∃ top, levels.getLast? = some top ∧ top.head? = some root
  fresh : ∀ p, InTree levels p → p < d.next_page_id
  blank : ∀ p, d.next_page_id ≤ p → d.pages p = .other 0
  rows : ∀ p l, d.pages p = .leaf l → ∀ r ∈ l.rows, Intact d r
  bitmap : d.bitmap = []
  txns : d.txns.Good

/-- The index in memory is in order, no page waits to be recycled, and up to the first failure so is
everything that redo would bring back. -/
structure Good (cmp : Compare) (w : World) (levels : List (List Nat)) : Prop where
  sound : Sound cmp w.toDurable w.root levels
  pool : w.free_pool = []
  pending : w.pending_recycle = []
  redo : w.failed = false → w.meta_root = w.root ∧
    ∀ d ∈ w.redo, ∃ levels, Sound cmp d d.meta_root levels

theorem Good.shape {w : World} {levels : List (List Nat)} (hg : Good cmp w levels) :
    Shape cmp w.pages levels := hg.sound.shape

/-! ## What a part of a call may do -/

/-- The index stays in order and only grows. -/
structure Onward (cmp : Compare) (w : World) (levels : List (List Nat)) (w' : World)
    (levels' : List (List Nat)) : Prop where
  good : Good cmp w' levels'
  grows : Grows w.pages levels w'.pages levels'
  txns : w'.txns = w.txns
  next : w.next_page_id ≤ w'.next_page_id
  overflow : ∀ p, p < w.next_page_id → w.pages p = .other OVERFLOW → w'.pages p = .other OVERFLOW
  late : w.late_faults = [] → w'.late_faults = []
  failed : w'.failed = false → w.failed = false

/-- And the leaves stay as they are, apart from their flags. -/
structure Structural (cmp : Compare) (w : World) (levels : List (List Nat)) (w' : World)
    (levels' : List (List Nat)) : Prop extends Onward cmp w levels w' levels' where
  chain : levels'[0]? = levels[0]?
  leaf : ∀ p l, w.pages p = .leaf l → ∃ b, w'.pages p = .leaf { l with incomplete_split := b }
  written : w'.written = w.written

/-- And all pages stay as they are. -/
structure Still (cmp : Compare) (w : World) (levels : List (List Nat)) (w' : World) : Prop extends
    Structural cmp w levels w' levels where
  same : w'.toDurable = w.toDurable
  root : w'.root = w.root

/-- The end of a call of the pool or the log that fails. -/
structure Broke (cmp : Compare) (w : World) (levels : List (List Nat)) (e : IndexError) (w' : World)
    : Prop where
  error : e = .BufferPool ∨ e = .Wal
  early : w.late_faults = [] → w'.written = false
  structural : ∃ levels', Structural cmp w levels w' levels'

variable {w w' w'' : World} {levels levels' levels'' : List (List Nat)}

theorem Onward.trans (h : Onward cmp w levels w' levels')
    (h' : Onward cmp w' levels' w'' levels'') : Onward cmp w levels w'' levels'' where
  good := h'.good
  grows := h.grows.trans h'.grows
  txns := h'.txns.trans h.txns
  next := h.next.trans h'.next
  overflow p hp hpage := h'.overflow p (hp.trans_le h.next) (h.overflow p hp hpage)
  late hlate := h'.late (h.late hlate)
  failed hfailed := h.failed (h'.failed hfailed)

theorem Onward.tm (h : Onward cmp w levels w' levels') : w'.tm = w.tm := congrArg Txns.tm h.txns

theorem Structural.refl (hg : Good cmp w levels) : Structural cmp w levels w levels where
  good := hg
  grows := Grows.refl _ _
  txns := rfl
  next := Nat.le_refl _
  overflow _ _ hpage := hpage
  late hlate := hlate
  failed hfailed := hfailed
  chain := rfl
  leaf _ l hl := ⟨l.incomplete_split, hl⟩
  written := rfl

theorem Structural.trans (h : Structural cmp w levels w' levels')
    (h' : Structural cmp w' levels' w'' levels'') : Structural cmp w levels w'' levels'' where
  toOnward := h.toOnward.trans h'.toOnward
  chain := h'.chain.trans h.chain
  leaf p l hl := by
    obtain ⟨b, hb⟩ := h.leaf p l hl
    obtain ⟨b', hb'⟩ := h'.leaf p _ hb
    exact ⟨b', hb'⟩
  written := h'.written.trans h.written

theorem Still.refl (hg : Good cmp w levels) : Still cmp w levels w :=
  { Structural.refl hg with same := rfl, root := rfl }

theorem Still.trans (h : Still cmp w levels w') (h' : Still cmp w' levels w'') :
    Still cmp w levels w'' :=
  { h.toStructural.trans h'.toStructural with
    same := h'.same.trans h.same, root := h'.root.trans h.root }

theorem Broke.trans {e : IndexError} (h : Structural cmp w levels w' levels')
    (h' : Broke cmp w' levels' e w'') : Broke cmp w levels e w'' := by
  obtain ⟨levels'', hs⟩ := h'.structural
  exact ⟨h'.error, fun hlate => h'.early (h.late hlate), levels'', h.trans hs⟩

/-- Faults are used up, and a failure is noted. -/
theorem Still.of_faults (hg : Good cmp w levels) (faults late_faults : List Bool) (failed : Bool)
    (hlate : w.late_faults = [] → late_faults = []) (hfailed : failed = false → w.failed = false) :
    Still cmp w levels { w with faults, late_faults, failed } where
  good := { hg with redo := fun h => hg.redo (hfailed h) }
  grows := Grows.refl _ _
  txns := rfl
  next := Nat.le_refl _
  overflow _ _ hpage := hpage
  late := hlate
  failed := hfailed
  chain := rfl
  leaf _ l hl := ⟨l.incomplete_split, hl⟩
  written := rfl
  same := rfl
  root := rfl

/-! ## Calls of the pool and the log -/

/-- Only faults are used up. -/
def Spent (w w' : World) : Prop :=
  ∃ faults late_faults, w' = { w with faults, late_faults } ∧
    (w.late_faults = [] → late_faults = [])

theorem Spent.trans (h : Spent w w') (h' : Spent w' w'') : Spent w w'' := by
  obtain ⟨faults, late_faults, rfl, hlate⟩ := h
  obtain ⟨faults', late_faults', rfl, hlate'⟩ := h'
  exact ⟨faults', late_faults', rfl, fun hl => hlate' (hlate hl)⟩

/-- What a call does to any state. -/
theorem call_raw (w : World) (e : IndexError) : Ends (fun _ => call e) w (fun _ w' => Spent w w')
      (fun e' w' => e' = e ∧ (w.late_faults = [] → w.written = false) ∧
        Spent { w with failed := true } w') := by
  have htail : w.late_faults = [] → w.late_faults.tail = [] := fun h => by rw [h]; rfl
  refine .of_eq (fun _ => rfl) ?_
  unfold call
  by_cases hwritten : w.written = true
  · rw [if_pos hwritten]
    split
    · next hfault =>
      refine ⟨rfl, fun hlate => ?_, w.faults, w.late_faults.tail, rfl, htail⟩
      rw [hlate] at hfault
      cases hfault
    · exact ⟨w.faults, w.late_faults.tail, rfl, htail⟩
  rw [if_neg hwritten]
  split
  · exact ⟨rfl, fun _ => Bool.eq_false_iff.mpr hwritten, w.faults.tail, w.late_faults, rfl,
      fun h => h⟩
  · exact ⟨w.faults.tail, w.late_faults, rfl, fun h => h⟩

theorem call_ends (hg : Good cmp w levels) {e : IndexError} (he : e = .BufferPool ∨ e = .Wal) :
    Ends (fun _ => call e) w (fun _ => Still cmp w levels)
      (fun e' w' => Broke cmp w levels e' w') := by
  refine (call_raw w e).imp ?_ ?_
  · rintro _ _ ⟨faults, late_faults, rfl, hlate⟩
    exact .of_faults hg faults late_faults w.failed hlate fun h => h
  rintro _ _ ⟨rfl, hearly, faults, late_faults, rfl, hlate⟩
  exact ⟨he, hearly, levels, (Still.of_faults hg faults late_faults true hlate nofun).toStructural⟩

variable {i pid root : Nat} {d d' : Durable} {level : List Nat}

section

variable (hs : Still cmp w levels w') (hpid : pid < w.next_page_id)

include hs hpid

/-- A walk only reads: between two calls the pages are those of its start. -/
theorem fetch_page_ends :
    Ends (fun _ => fetch_page pid) w' (fun node w'' => Still cmp w levels w'' ∧ node = w.pages pid)
      (Broke cmp w levels) := by
  unfold fetch_page
  apply Ends.bind_read
  rw [hs.same, if_pos hpid]
  have hcall := call_ends hs.good (e := .BufferPool) (.inl rfl)
  refine .seq hcall (fun _ _ h => h.trans hs.toStructural) ?_
  intro _ w'' hw''
  exact .pure ⟨hs.trans hw'', rfl⟩

theorem fetch_leaf_ends {l : LeafNode} (hl : w.pages pid = .leaf l) :
    Ends (fun _ => fetch_leaf pid) w' (fun l' w'' => Still cmp w levels w'' ∧ l' = l)
      (Broke cmp w levels) := by
  unfold fetch_leaf
  refine .bind (fetch_page_ends hs hpid) ?_
  rintro node w'' ⟨hw'', rfl⟩
  rw [hl]
  exact .pure ⟨hw'', rfl⟩

theorem fetch_internal_ends {n : InternalNode} (hn : w.pages pid = .internal n) :
    Ends (fun _ => fetch_internal pid) w' (fun n' w'' => Still cmp w levels w'' ∧ n' = n)
      (Broke cmp w levels) := by
  unfold fetch_internal
  refine .bind (fetch_page_ends hs hpid) ?_
  rintro node w'' ⟨hw'', rfl⟩
  rw [hn]
  exact .pure ⟨hw'', rfl⟩

end

/-- A record whose redo leaves an index in order. -/
theorem log_as_ends (hg : Good cmp w levels) {f : Durable → Durable}
    (hf : w.failed = false →
      ∃ levels', Sound cmp (f w.toDurable) (f w.toDurable).meta_root levels') :
    Ends (fun _ => log_as f) w (fun _ => Still cmp w levels) (Broke cmp w levels) := by
  unfold log_as
  refine .bind (call_ends hg (.inr rfl)) fun _ w₁ hw₁ => ?_
  apply Ends.modify
  have hgood : Good cmp { w₁ with redo := w₁.redo ++ [f w₁.toDurable] } levels := by
    refine ⟨hw₁.good.sound, hw₁.good.pool, hw₁.good.pending, fun hfailed => ?_⟩
    obtain ⟨hroot, hredo⟩ := hw₁.good.redo hfailed
    refine ⟨hroot, forall_mem_concat hredo ?_⟩
    rw [hw₁.same]
    exact hf (hw₁.failed hfailed)
  exact { hw₁ with good := hgood }

theorem log_ends (hg : Good cmp w levels) : Ends (fun _ => log) w (fun _ => Still cmp w levels)
      (Broke cmp w levels) := by
  apply log_as_ends hg
  intro hfailed
  rw [id, (hg.redo hfailed).1]
  exact ⟨levels, hg.sound⟩

/-! ## Pages outside the tree -/

theorem Intact.mono {r : Row} (h : Intact d r) (htxns : d'.txns = d.txns)
    (hnext : d.next_page_id ≤ d'.next_page_id)
    (hoverflow : ∀ p, p < d.next_page_id → d.pages p = .other OVERFLOW →
      d'.pages p = .other OVERFLOW) : Intact d' r := by
  obtain ⟨hcreator, hdeleter, hended, hchain⟩ := h
  rw [← htxns] at hcreator hdeleter hended
  refine ⟨hcreator, hdeleter, hended, fun p hp => ?_⟩
  obtain ⟨hlt, hpage⟩ := hchain p hp
  exact ⟨hlt.trans_le hnext, hoverflow p hlt hpage⟩

theorem Good.next_notMem (hg : Good cmp w levels) : ¬ InTree levels w.next_page_id := fun h =>
  absurd (hg.sound.fresh _ h) (Nat.lt_irrefl _)

theorem Good.zero_lt (hg : Good cmp w levels) : 0 < w.next_page_id := by
  obtain ⟨top, htop, hhead⟩ := hg.sound.root
  have hin : InTree levels w.root := by
    refine ⟨levels.length - 1, top, ?_, mem_of_mem_head? hhead⟩
    rw [← getLast?_eq_getElem?]
    exact htop
  exact Nat.zero_lt_of_lt (hg.sound.fresh _ hin)

/-- One page id more is in use. -/
theorem Structural.more_pages (hg : Good cmp w levels) :
    Structural cmp w levels { w with next_page_id := w.next_page_id + 1 } levels where
  good := by
    refine ⟨⟨hg.shape, hg.sound.root, fun p hp => ?_, fun p hp => ?_, fun p l hl r hr => ?_,
      hg.sound.bitmap, hg.sound.txns⟩, hg.pool, hg.pending, hg.redo⟩
    · exact Nat.lt_succ_of_lt (hg.sound.fresh p hp)
    · exact hg.sound.blank p (Nat.le_of_succ_le hp)
    · exact (hg.sound.rows p l hl r hr).mono rfl (Nat.le_succ _) fun _ _ h => h
  grows := Grows.refl _ _
  txns := rfl
  next := Nat.le_succ _
  overflow _ _ h := h
  late h := h
  failed h := h
  chain := rfl
  leaf _ l hl := ⟨l.incomplete_split, hl⟩
  written := rfl

/-- A page outside the tree is written. -/
theorem Structural.put_fresh (hg : Good cmp w levels) (hpid : ¬ InTree levels pid)
    (hlt : pid < w.next_page_id) (hblank : w.pages pid = .other 0) (node : Node)
    (hrows : ∀ l, node = .leaf l → ∀ r ∈ l.rows, Intact w.toDurable r) :
    Structural cmp w levels { w with toDurable := w.toDurable.put pid node } levels := by
  have hsame : ∀ p, p ≠ pid → (w.toDurable.put pid node).pages p = w.pages p := fun p hp =>
    if_neg hp
  have htree : ∀ p, InTree levels p → (w.toDurable.put pid node).pages p = w.pages p := fun p hp =>
    hsame p fun heq => hpid (heq ▸ hp)
  have hoverflow : ∀ p, p < w.next_page_id → w.pages p = .other OVERFLOW →
      (w.toDurable.put pid node).pages p = .other OVERFLOW := by
    intro p _ hp
    rw [hsame p, hp]
    rintro rfl
    rw [hblank] at hp
    cases hp
  have hgood : Good cmp { w with toDurable := w.toDurable.put pid node } levels := by
    refine ⟨⟨hg.shape.congr htree, hg.sound.root, hg.sound.fresh, fun p hp => ?_,
      fun p l hl r hr => ?_, hg.sound.bitmap, hg.sound.txns⟩, hg.pool, hg.pending, hg.redo⟩
    · exact (hsame p (Nat.ne_of_gt (Nat.lt_of_lt_of_le hlt hp))).trans (hg.sound.blank p hp)
    by_cases hp : p = pid
    · subst hp
      have hnode : node = .leaf l := (if_pos rfl).symm.trans hl
      exact (hrows l hnode r hr).mono rfl (Nat.le_refl _) hoverflow
    · exact (hg.sound.rows p l ((hsame p hp).symm.trans hl) r hr).mono rfl (Nat.le_refl _) hoverflow
  exact {
    good := hgood
    grows := Grows.of_high fun p hp => congrArg Node.high_key (htree p hp)
    txns := rfl
    next := Nat.le_refl _
    overflow := hoverflow
    late := fun h => h
    failed := fun h => h
    chain := rfl
    leaf := by
      intro p l hl
      refine ⟨l.incomplete_split, (hsame p ?_).trans hl⟩
      rintro rfl
      rw [hblank] at hl
      cases hl
    written := rfl }

/-- A new page is the next one, and it is blank. -/
structure Allocated (cmp : Compare) (w : World) (levels : List (List Nat)) (pid : Nat) (w' : World)
    : Prop extends Structural cmp w levels w' levels where
  pid : pid = w.next_page_id
  taken : w'.next_page_id = w.next_page_id + 1
  pages : w'.pages = w.pages
  meta_root : w'.meta_root = w.meta_root
  root : w'.root = w.root

theorem Allocated.fresh {pid : Nat} (hg : Good cmp w levels) (h : Allocated cmp w levels pid w') :
    ¬ InTree levels pid ∧ pid < w'.next_page_id ∧ w'.pages pid = .other 0 := by
  rw [h.taken, h.pages, h.pid]
  exact ⟨hg.next_notMem, Nat.lt_succ_self _, hg.sound.blank _ (Nat.le_refl _)⟩

theorem new_page_ends (hg : Good cmp w levels) : Ends (fun _ => new_page) w (Allocated cmp w levels)
      (Broke cmp w levels) := by
  unfold new_page
  apply Ends.bind_read
  rw [hg.pool]
  dsimp only [getLast?_nil]
  unfold edit acquire_frame
  apply Ends.bind_modify
  have hmore := Structural.more_pages hg
  have hcall := call_ends hmore.good (e := .BufferPool) (.inl rfl)
  refine .seq hcall (fun _ _ h => h.trans hmore) fun _ w₁ hw₁ => ?_
  unfold edit
  apply Ends.bind_modify
  apply Ends.pure
  have hpages : (w₁.toDurable.put w.next_page_id (.other 0)).pages = w.pages := by
    funext p
    change (if p = w.next_page_id then Node.other 0 else w₁.pages p) = w.pages p
    rw [hw₁.same]
    split
    · next heq => rw [heq, hg.sound.blank _ (Nat.le_refl _)]
    · rfl
  have hblank : w₁.pages w.next_page_id = .other 0 := by
    rw [hw₁.same]
    exact hg.sound.blank _ (Nat.le_refl _)
  have hput := Structural.put_fresh hw₁.good hg.next_notMem
    (by rw [hw₁.same]; exact Nat.lt_succ_self _) hblank (.other 0) nofun
  exact { hmore.trans (hw₁.toStructural.trans hput) with
    pid := rfl
    taken := by
      change w₁.next_page_id = _
      rw [hw₁.same]
    pages := hpages
    meta_root := by
      change w₁.meta_root = _
      rw [hw₁.same]
    root := hw₁.root }

/-! ## A page more in a level -/

theorem inTree_insertAfter (hi : levels[i]? = some level) {p q : Nat} (hp : p ∈ level) {x : Nat}
    (hx : InTree (levels.set i (Chain.insertAfter p q level)) x) : x = q ∨ InTree levels x := by
  obtain ⟨j, lv, hj, hmem⟩ := hx
  rw [getElem?_set_eq_ite hi] at hj
  split at hj
  · cases hj
    exact ((Chain.mem_insertAfter hp).mp hmem).imp id fun h => ⟨i, level, hi, h⟩
  · exact .inr ⟨j, lv, hj, hmem⟩

theorem root_set {level' : List Nat} (hi : levels[i]? = some level)
    (hhead : level'.head? = level.head?)
    (h : ∃ top, levels.getLast? = some top ∧ top.head? = some root) :
    ∃ top, (levels.set i level').getLast? = some top ∧ top.head? = some root := by
  obtain ⟨top, htop, hroot⟩ := h
  rw [getLast?_eq_getElem?] at htop
  rw [getLast?_eq_getElem?, length_set, getElem?_set_eq_ite hi]
  split
  · next heq =>
    rw [heq, hi] at htop
    cases htop
    exact ⟨level', rfl, hhead.trans hroot⟩
  · exact ⟨top, htop, hroot⟩

/-- A split of a page leaves the rest of the index in order. -/
theorem Sound.split (h : Sound cmp d root levels) (hi : levels[i]? = some level) {p q : Nat}
    (hp : p ∈ level) (hq : q < d.next_page_id)
    (hshape : Shape cmp d'.pages (levels.set i (Chain.insertAfter p q level)))
    (hnext : d'.next_page_id = d.next_page_id)
    (hblank : ∀ x, d.next_page_id ≤ x → d'.pages x = d.pages x)
    (hrows : ∀ x l, d'.pages x = .leaf l → ∀ r ∈ l.rows, ∃ y ly, d.pages y = .leaf ly ∧ r ∈ ly.rows)
    (hoverflow : ∀ x, d.pages x = .other OVERFLOW → d'.pages x = .other OVERFLOW)
    (hbitmap : d'.bitmap = d.bitmap) (htxns : d'.txns = d.txns) :
    Sound cmp d' root (levels.set i (Chain.insertAfter p q level)) where
  shape := hshape
  root := root_set hi Chain.head_insertAfter h.root
  fresh x hx := by
    rw [hnext]
    rcases inTree_insertAfter hi hp hx with rfl | hx
    · exact hq
    · exact h.fresh x hx
  blank x hx := by
    rw [hnext] at hx
    rw [hblank x hx]
    exact h.blank x hx
  rows x l hl r hr := by
    obtain ⟨y, ly, hly, hry⟩ := hrows x l hl r hr
    exact (h.rows y ly hly r hry).mono htxns (Nat.le_of_eq hnext.symm) fun x _ => hoverflow x
  bitmap := hbitmap.trans h.bitmap
  txns := htxns ▸ h.txns

/-! ## Flags -/

/-- The pages are the same apart from their flags. -/
def SameButFlags (pages pages' : Nat → Node) : Prop :=
  ∀ p, (pages' p).clear_incomplete_split = (pages p).clear_incomplete_split

section Flags

variable {pages pages' : Nat → Node} {p : Nat}

section

variable (h : SameButFlags pages pages')

include h

theorem SameButFlags.leaf {l : LeafNode} (hl : pages p = .leaf l) : ∃ b, pages' p = .leaf { l with
    incomplete_split := b } := by
  have hp := h p
  rw [hl] at hp
  cases hpage : pages' p with
  | leaf l' =>
    rw [hpage] at hp
    obtain ⟨rows, hk, right, prev, flag, dead⟩ := l'
    cases hp
    exact ⟨flag, rfl⟩
  | internal n | other t => rw [hpage] at hp; cases hp

theorem SameButFlags.internal {n : InternalNode} (hn : pages p = .internal n) : ∃ b, pages' p =
    .internal { n with incomplete_split := b } := by
  have hp := h p
  rw [hn] at hp
  cases hpage : pages' p with
  | leaf l | other t => rw [hpage] at hp; cases hp
  | internal n' =>
    rw [hpage] at hp
    obtain ⟨keys, children, hk, right, flag⟩ := n'
    cases hp
    exact ⟨flag, rfl⟩

theorem SameButFlags.other {t : UInt8} (ht : pages p = .other t) : pages' p = .other t := by
  have hp := h p
  rw [ht] at hp
  cases hpage : pages' p with
  | leaf l | internal n => rw [hpage] at hp; cases hp
  | other t' => rwa [hpage] at hp

theorem SameButFlags.symm : SameButFlags pages' pages :=
  fun p => (h p).symm

theorem SameButFlags.high_key (p : Nat) : (pages' p).high_key = (pages p).high_key := by
  cases hpage : pages p with
  | leaf l =>
    obtain ⟨b, hb⟩ := h.leaf hpage
    rw [hb]
    rfl
  | internal n =>
    obtain ⟨b, hb⟩ := h.internal hpage
    rw [hb]
    rfl
  | other t => rw [h.other hpage]

end

theorem SameButFlags.put_clear (d : Durable) (p : Nat) :
    SameButFlags d.pages (d.put p (d.pages p).clear_incomplete_split).pages := by
  intro q
  change (if q = p then _ else _ : Node).clear_incomplete_split = _
  split
  · next heq =>
    subst heq
    cases d.pages q <;> rfl
  · rfl

theorem Sound.of_flags (h : Sound cmp d root levels) (hpages : SameButFlags d.pages d'.pages)
    (hnext : d'.next_page_id = d.next_page_id) (hbitmap : d'.bitmap = d.bitmap)
    (htxns : d'.txns = d.txns) : Sound cmp d' root levels where
  shape := h.shape.flags fun _ _ => ⟨fun _ hl => hpages.leaf hl, fun _ hn => hpages.internal hn⟩
  root := h.root
  fresh p hp := by
    rw [hnext]
    exact h.fresh p hp
  blank p hp := by
    rw [hnext] at hp
    exact hpages.other (h.blank p hp)
  rows p l hl r hr := by
    obtain ⟨b, hb⟩ := hpages.symm.leaf hl
    exact (h.rows p _ hb r hr).mono htxns (Nat.le_of_eq hnext.symm) fun _ _ ho => hpages.other ho
  bitmap := hbitmap.trans h.bitmap
  txns := htxns ▸ h.txns

theorem Structural.of_flags (hg : Good cmp w levels) (hpages : SameButFlags w.pages d.pages)
    (hnext : d.next_page_id = w.next_page_id) (hroot : d.meta_root = w.meta_root)
    (hbitmap : d.bitmap = w.bitmap) (htxns : d.txns = w.txns) :
    Structural cmp w levels { w with toDurable := d } levels where
  good := ⟨hg.sound.of_flags hpages hnext hbitmap htxns, hg.pool, hg.pending,
    fun hfailed => ⟨hroot.trans (hg.redo hfailed).1, (hg.redo hfailed).2⟩⟩
  grows := Grows.of_high fun p _ => hpages.high_key p
  txns := htxns
  next := Nat.le_of_eq hnext.symm
  overflow _ _ h := hpages.other h
  late h := h
  failed h := h
  chain := rfl
  leaf _ _ hl := hpages.leaf hl
  written := rfl

end Flags

end FluxDB.Tree
