-- What is done to the versions on a leaf: one is put in or stamped, the vacuumable ones go, and the
-- leaf is cut in two. A part of a call may drop versions that no one can see any more; apart from
-- that the stored versions change only with the one change that the call is for.
import FluxDB.TreeSplits

namespace FluxDB.Tree

open Comparator List Chain

variable {cmp : Compare} {w w' w'' : World}
  {levels levels' levels'' : List (List Nat)}

/-! ## The stored versions -/

/-- All versions, leaf after leaf. -/
def stored (w : World) (levels : List (List Nat)) : List Row :=
  contents w.pages (levels[0]?.getD [])

/-- The version is of no use to anyone. -/
abbrev Vacuumable (tm : TransactionManager) (r : Row) : Prop :=
  is_vacuumable r.xmin r.xmax tm.global_xmin tm = true

/-- Some versions are gone, all of them vacuumable. -/
def Pruned (tm : TransactionManager) (rows rows' : List Row) : Prop :=
  ∃ gone, rows.Perm (gone ++ rows') ∧ ∀ r ∈ gone, Vacuumable tm r

theorem Pruned.refl (tm : TransactionManager) (rows : List Row) : Pruned tm rows rows :=
  ⟨[], List.Perm.refl _, nofun⟩

variable {tm : TransactionManager} {rows : List Row} {e : IndexError} {b : Option Bytes}
  {prev : Option Nat}

theorem Pruned.of_eq {rows' rows'' : List Row} (h : Pruned tm rows rows') (heq : rows'' = rows') :
    Pruned tm rows rows'' := heq ▸ h

theorem Pruned.trans {rows' rows'' : List Row} (h : Pruned tm rows rows')
    (h' : Pruned tm rows' rows'') : Pruned tm rows rows'' := by
  obtain ⟨gone, hperm, hgone⟩ := h
  obtain ⟨gone', hperm', hgone'⟩ := h'
  refine ⟨gone ++ gone', ?_, fun r hr => (mem_append.mp hr).elim (hgone r) (hgone' r)⟩
  rw [append_assoc]
  exact hperm.trans (hperm'.append_left gone)

theorem Pruned.live (tm : TransactionManager) (front rows back : List Row) :
    Pruned tm (front ++ rows ++ back) (front ++ Tree.live tm tm.global_xmin rows ++ back) := by
  refine ⟨dead tm tm.global_xmin rows, ?_, fun r hr => (mem_filter.mp hr).2⟩
  have hcut : rows.Perm (dead tm tm.global_xmin rows ++ Tree.live tm tm.global_xmin rows) :=
    (filter_append_perm _ _).symm
  calc (front ++ rows ++ back).Perm
        (front ++ (dead tm tm.global_xmin rows ++ Tree.live tm tm.global_xmin rows) ++ back) :=
        (hcut.append_left front).append_right back
    _ = (front ++ dead tm tm.global_xmin rows) ++ (Tree.live tm tm.global_xmin rows ++ back) := by
        simp only [append_assoc]
    _ |>.Perm ((dead tm tm.global_xmin rows ++ front) ++
          (Tree.live tm tm.global_xmin rows ++ back)) := perm_append_comm.append_right _
    _ = _ := by simp only [append_assoc]

theorem Structural.stored_eq (hg : Good cmp w levels) (h : Structural cmp w levels w' levels') :
    stored w' levels' = stored w levels := by
  unfold stored
  rw [h.chain]
  cases hchain : levels[0]? with
  | none => rfl
  | some chain =>
    apply contents_congr
    intro p hp
    obtain ⟨l, hl, -⟩ := hg.shape.leaf chain hchain p hp
    obtain ⟨b, hb⟩ := h.leaf p l hl
    rw [hl, hb]
    rfl

/-! ## Parts of a call that change leaves -/

/-- Up to the first change of a version, only vacuumable ones go. -/
structure Advances (cmp : Compare) (w : World) (levels : List (List Nat)) (w' : World)
    (levels' : List (List Nat)) : Prop extends Onward cmp w levels w' levels' where
  wrote : w.written = true → w'.written = true
  pruned : w'.written = false → Pruned w.tm (stored w levels) (stored w' levels')

theorem Advances.trans (h : Advances cmp w levels w' levels')
    (h' : Advances cmp w' levels' w'' levels'') : Advances cmp w levels w'' levels'' where
  toOnward := h.toOnward.trans h'.toOnward
  wrote hw := h'.wrote (h.wrote hw)
  pruned hw := by
    have hw' : w'.written = false := by
      cases hb : w'.written with
      | false => rfl
      | true => rw [h'.wrote hb] at hw; cases hw
    have hafter := h'.pruned hw
    rw [h.tm] at hafter
    exact (h.pruned hw').trans hafter

theorem Structural.advances (hg : Good cmp w levels) (h : Structural cmp w levels w' levels') :
    Advances cmp w levels w' levels' where
  toOnward := h.toOnward
  wrote hw := h.written.trans hw
  pruned _ := by
    rw [h.stored_eq hg]
    exact .refl _ _

/-- The end of a call of the pool or the log that fails. -/
structure Failed (cmp : Compare) (w : World) (levels : List (List Nat)) (e : IndexError)
    (w' : World) : Prop where
  error : e = .BufferPool ∨ e = .Wal
  early : w.late_faults = [] → w'.written = false
  advances : ∃ levels', Advances cmp w levels w' levels'

theorem Broke.failed (hg : Good cmp w levels) (h : Broke cmp w levels e w') :
    Failed cmp w levels e w' := by
  obtain ⟨levels', hs⟩ := h.structural
  exact ⟨h.error, h.early, levels', hs.advances hg⟩

theorem Failed.trans (h : Advances cmp w levels w' levels') (h' : Failed cmp w' levels' e w'') :
    Failed cmp w levels e w'' := by
  obtain ⟨levels'', hs⟩ := h'.advances
  exact ⟨h'.error, fun hlate => h'.early (h.late hlate), levels'', h.trans hs⟩

/-! ## One leaf changes -/

section Put

variable {chain : List Nat} {p : Nat} {l l' : LeafNode}

theorem put_other {d : Durable} (hl : d.pages p = .leaf l) (l' : LeafNode) {q : Nat} {t : UInt8}
    (hq : d.pages q = .other t) : (d.put p (.leaf l')).pages q = .other t := by
  refine (if_neg ?_).trans hq
  rintro rfl
  rw [hl] at hq
  cases hq

theorem Sound.put_leaf {d : Durable} {root : Nat} (h : Sound cmp d root levels)
    (hchain : levels[0]? = some chain) (hp : p ∈ chain) (hl : d.pages p = .leaf l)
    (hok : LeafOk cmp (low d.pages chain p) (Chain.next chain p) (Chain.prev chain p) l')
    (hhigh : l'.high_key = l.high_key) (hrows : ∀ r ∈ l'.rows, Intact d r) :
    Sound cmp (d.put p (.leaf l')) root levels where
  __ := h
  shape := h.shape.put_leaf hchain hp hl hhigh hok
  blank q hq := put_other hl l' (h.blank q hq)
  rows q lq hlq r hr := by
    have hintact : Intact d r := by
      by_cases hq : q = p
      · subst hq
        cases (if_pos rfl).symm.trans hlq
        exact hrows r hr
      · exact h.rows q lq ((if_neg hq).symm.trans hlq) r hr
    exact hintact.mono rfl (Nat.le_refl _) fun _ _ ho => put_other hl l' ho

theorem Onward.put_leaf (hg : Good cmp w levels) (hchain : levels[0]? = some chain) (hp : p ∈ chain)
    (hl : w.pages p = .leaf l)
    (hok : LeafOk cmp (low w.pages chain p) (Chain.next chain p) (Chain.prev chain p) l')
    (hhigh : l'.high_key = l.high_key) (hrows : ∀ r ∈ l'.rows, Intact w.toDurable r)
    (written : Bool) : Onward cmp w levels
      { w with toDurable := w.toDurable.put p (.leaf l'), written } levels where
  good := { hg with sound := hg.sound.put_leaf hchain hp hl hok hhigh hrows }
  grows := Grows.of_high fun q _ => by
    change (if q = p then Node.leaf l' else w.pages q).high_key = _
    split
    · next heq =>
      rw [heq, hl]
      exact hhigh
    · rfl
  txns := rfl
  next := Nat.le_refl _
  overflow _ _ ho := put_other hl l' ho
  late h := h
  failed h := h

/-- The leaf that is latched is read. -/
theorem bind_held {α : Type} {f : Nat → LeafNode → Act α} {Q : α → World → Prop}
    {E : IndexError → World → Prop} (hl : w.pages p = .leaf l) (h : Ends (fun n => f n l) w Q E) :
    Ends (fun n => held p >>= f n) w Q E := by
  unfold held
  refine .bind (R := fun a w' => a = l ∧ w' = w) ?_ ?_
  · apply Ends.bind_read
    rw [hl]
    exact .pure ⟨rfl, rfl⟩
  rintro _ _ ⟨rfl, rfl⟩
  exact h

/-- The versions around the leaf stay. -/
theorem stored_put (hg : Good cmp w levels) (hchain : levels[0]? = some chain) (hp : p ∈ chain)
    (hl : w.pages p = .leaf l) : ∃ front back, stored w levels = front ++ l.rows ++ back ∧
      ∀ w' l', w'.pages = (w.toDurable.put p (.leaf l')).pages →
        stored w' levels = front ++ l'.rows ++ back := by
  obtain ⟨front, back, hcut, hput⟩ :=
    contents_around (hg.shape.nodup 0 chain hchain) hp w.pages
  unfold stored
  rw [hchain]
  refine ⟨front, back, ?_, fun w' l' hpages => ?_⟩
  · rw [hl] at hcut
    exact hcut
  have hself : w'.pages p = .leaf l' := by
    rw [hpages]
    exact if_pos rfl
  refine (hput w'.pages fun q _ hq => ?_).trans ?_
  · rw [hpages]
    exact congrArg Node.rows (if_neg hq)
  rw [hself]
  rfl

end Put

/-! ## Overflow chains -/

section

variable (hs : Still cmp w levels w')

include hs

/-- The overflow pages of a stored version are in place. -/
theorem fetch_overflow_ends {pid : Nat}
    (hpid : pid < w.next_page_id ∧ w.pages pid = .other OVERFLOW) :
    Ends (fun _ => fetch_overflow pid) w' (fun _ => Still cmp w levels) (Broke cmp w levels) := by
  unfold fetch_overflow
  refine .bind (fetch_page_ends hs hpid.1) ?_
  rintro _ w₁ ⟨hw₁, rfl⟩
  rw [if_pos hpid.2]
  exact .pure hw₁

theorem collect_overflow_page_ids_ends {pages : List Nat}
    (hpages : ∀ p ∈ pages, p < w.next_page_id ∧ w.pages p = .other OVERFLOW) :
    Ends (fun _ => collect_overflow_page_ids pages) w' (fun _ => Still cmp w levels)
      (Broke cmp w levels) := by
  induction pages generalizing w' with
  | nil => exact .pure hs
  | cons p pages ih =>
    unfold collect_overflow_page_ids
    refine .bind (fetch_overflow_ends hs (hpages p mem_cons_self)) fun _ w₁ hw₁ => ?_
    exact ih hw₁ fun q hq => hpages q (mem_cons_of_mem _ hq)

theorem free_overflow_chain_ends {pages : List Nat}
    (hpages : ∀ p ∈ pages, p < w.next_page_id ∧ w.pages p = .other OVERFLOW) :
    Ends (fun _ => free_overflow_chain pages) w' (fun _ => Still cmp w levels)
      (Broke cmp w levels) := by
  induction pages generalizing w' with
  | nil => exact .pure hs
  | cons p pages ih =>
    unfold free_overflow_chain
    refine .bind (fetch_overflow_ends hs (hpages p mem_cons_self)) fun _ w₁ hw₁ => ?_
    have hcall := call_ends hw₁.good (e := .BufferPool) (.inl rfl)
    refine .bind (hcall.imp (fun _ _ h => hw₁.trans h) fun _ _ h => h.trans hw₁.toStructural)
      fun _ w₂ hw₂ => ?_
    exact ih hw₂ fun q hq => hpages q (mem_cons_of_mem _ hq)

theorem free_overflow_chains_ends (hrows : ∀ r ∈ rows, Intact w.toDurable r) :
    Ends (fun _ => free_overflow_chains rows) w' (fun _ => Still cmp w levels)
      (Broke cmp w levels) := by
  induction rows generalizing w' with
  | nil => exact .pure hs
  | cons r rows ih =>
    unfold free_overflow_chains
    have hchain := (hrows r mem_cons_self).chain
    refine .bind (collect_overflow_page_ids_ends hs hchain) fun _ w₁ hw₁ => ?_
    refine .bind ((log_ends hw₁.good).imp (fun _ _ h => hw₁.trans h) fun _ _ h =>
      h.trans hw₁.toStructural) fun _ w₂ hw₂ => ?_
    refine .bind (free_overflow_chain_ends hw₂ hchain) fun _ w₃ hw₃ => ?_
    exact ih hw₃ fun q hq => hrows q (mem_cons_of_mem _ hq)

end

/-! ## Compaction -/

/-- A leaf with a left neighbour keeps a version of its first key when it is compacted. -/
def Keeps (cmp : Compare) (tm : TransactionManager) (l : LeafNode) :
    Prop :=
  l.prev ≠ none → ∃ r ∈ l.rows, ¬ Vacuumable tm r ∧
    ∀ first ∈ l.rows.head?, cmp r.key first.key = .eq

instance (tm : TransactionManager) (l : LeafNode) : Decidable (Keeps cmp tm l) := by
  unfold Keeps
  infer_instance

theorem mem_live {r : Row} : r ∈ live tm tm.global_xmin rows ↔ r ∈ rows ∧ ¬ Vacuumable tm r := by
  unfold live
  rw [mem_filter, Bool.not_eq_true', Bool.not_eq_true]

theorem low_eq_none (pages : Nat → Node) {level : List Nat} {p : Nat}
    (h : Chain.prev level p = none) : low pages level p = none := by
  unfold low
  rw [h]
  rfl

section Compact

variable [Std.TransCmp cmp]

theorem LeafOk.live {next : Option Nat} {l : LeafNode} (h : LeafOk cmp b next prev l)
    (hb : prev = none → b = none) (hkeeps : Keeps cmp tm l) :
    LeafOk cmp b next prev { l with rows := Tree.live tm tm.global_xmin l.rows } where
  __ := h
  sorted := sorted_filter h.sorted _
  slight r hr := h.slight r (mem_live.mp hr).1
  below hne r hr := h.below hne r (mem_live.mp hr).1
  first bound hbound := by
    have hprev : l.prev ≠ none := by
      rw [h.back]
      intro hnone
      rw [hb hnone] at hbound
      cases hbound
    obtain ⟨first, hfirst, heq⟩ := h.first bound hbound
    obtain ⟨r, hr, hlive, hkey⟩ := hkeeps hprev
    have hmem := mem_live.mpr ⟨hr, hlive⟩
    obtain ⟨a, rest, hrows⟩ := exists_cons_of_ne_nil (ne_nil_of_mem hmem)
    refine ⟨a, by rw [hrows]; rfl, eq_trans ?_ heq⟩
    -- The new first key lies between the old first key and a kept version of it.
    have hsorted := sorted_filter h.sorted fun r => !is_vacuumable r.xmin r.xmax tm.global_xmin tm
    have hmema : a ∈ Tree.live tm tm.global_xmin l.rows := by
      rw [hrows]
      exact mem_cons_self
    have hle : Le cmp a.key r.key := by
      change Sorted cmp (Tree.live tm tm.global_xmin l.rows) at hsorted
      unfold Sorted at hsorted
      rw [hrows] at hsorted hmem
      rcases mem_cons.mp hmem with rfl | hmem
      · exact le_refl _
      · exact (pairwise_cons.mp hsorted).1 r hmem
    have hge := h.above (mem_live.mp hmema).1
    rw [hbound] at hge
    exact eq_of_le_of_le (le_trans hle (le_of_eq (hkey first hfirst))) (le_trans (le_of_eq heq) hge)

/-- What a compaction of a leaf leaves. -/
structure Compacted (cmp : Compare) (w : World) (levels : List (List Nat)) (p : Nat) (l : LeafNode)
    (w' : World) : Prop extends Advances cmp w levels w' levels where
  leaf : w'.pages p = .leaf { l with rows := live w.tm w.tm.global_xmin l.rows }
  same : ∀ q, q ≠ p → w'.pages q = w.pages q
  dropped : Pruned w.tm (stored w levels) (stored w' levels)
  written : w'.written = w.written
  root : w'.root = w.root

theorem compact_ends (hg : Good cmp w levels) {chain : List Nat} (hchain : levels[0]? = some chain)
    {p : Nat} (hp : p ∈ chain) {l : LeafNode} (hl : w.pages p = .leaf l)
    (hkeeps : Keeps cmp w.tm l) :
    Ends (fun _ => compact w.tm.global_xmin p) w (fun b w' => Compacted cmp w levels p l w' ∧
        (b = false → live w.tm w.tm.global_xmin l.rows = l.rows))
      (Failed cmp w levels) := by
  have hok := hg.shape.leafOk hchain hp hl
  have hrows := hg.sound.rows p l hl
  unfold compact edit
  apply bind_held hl
  apply Ends.bind_read
  refine .ite (fun hdead => ?_) fun _ => ?_
  · have hlive : live w.tm w.tm.global_xmin l.rows = l.rows := by
      unfold live
      unfold dead at hdead
      rw [filter_eq_nil_iff] at hdead
      rw [filter_eq_self]
      intro r hr
      rw [Bool.not_eq_true', ← Bool.not_eq_true]
      exact hdead r hr
    refine Ends.pure ⟨{ (Structural.refl hg).advances hg with
      leaf := ?_, same := fun _ _ => rfl, dropped := Pruned.refl _ _, written := rfl, root := rfl },
      fun _ => hlive⟩
    rw [hlive]
    exact hl
  obtain ⟨front, back, hcut, hput⟩ := stored_put hg hchain hp hl
  have honward := Onward.put_leaf hg hchain hp hl (hok.live (low_eq_none w.pages) hkeeps) rfl
    (fun r hr => hrows r (mem_live.mp hr).1) w.written
  have hpruned : Pruned w.tm (stored w levels)
      (front ++ live w.tm w.tm.global_xmin l.rows ++ back) := by
    rw [hcut]
    exact .live _ _ _ _
  have hput' := fun w' => hput w' { l with rows := live w.tm w.tm.global_xmin l.rows }
  have hadvances : Advances cmp w levels _ levels :=
    { honward with wrote := fun h => h, pruned := fun _ => hpruned.of_eq (hput' _ rfl) }
  apply Ends.bind_modify
  refine .seq (log_ends honward.good) (fun _ _ h => (h.failed honward.good).trans hadvances)
    fun _ w₁ hw₁ => ?_
  refine .seq (free_overflow_chains_ends hw₁ fun r hr => ?_)
    (fun _ _ h => (h.failed honward.good).trans hadvances) fun _ w₂ hw₂ => ?_
  · have hmem : r ∈ l.rows := mem_of_mem_filter (mem_of_mem_filter hr)
    exact (hrows r hmem).mono rfl (Nat.le_refl _) fun _ _ ho => put_other hl _ ho
  have hpages : w₂.pages = _ := congrArg Durable.pages hw₂.same
  refine .pure ⟨{ hadvances.trans (hw₂.toStructural.advances honward.good) with
    leaf := ?_, same := fun q hq => ?_, dropped := ?_, written := ?_, root := hw₂.root }, nofun⟩
  · rw [hpages]
    exact if_pos rfl
  · rw [hpages]
    exact if_neg hq
  · exact hpruned.of_eq ((hw₂.toStructural.stored_eq honward.good).trans (hput' _ rfl))
  · exact hw₂.written

end Compact

/-! ## A version is put on a leaf -/

/-- The version is stored, and otherwise only vacuumable ones are gone. -/
structure Stores (cmp : Compare) (w : World) (levels : List (List Nat)) (r : Row) (w' : World)
    (levels' : List (List Nat)) : Prop extends Onward cmp w levels w' levels' where
  written : w'.written = true
  rows : ∃ rest, Pruned w.tm (stored w levels) rest ∧ (stored w' levels').Perm (r :: rest)

theorem LeafOk.insert [Std.TransCmp cmp] {next : Option Nat} {l : LeafNode} {r : Row}
    (h : LeafOk cmp b next prev l) (hslight : Slight r) (habove : LowLe cmp b (some r.key))
    (hbelow : l.high_key ≠ [] → Le cmp r.key l.high_key) :
    LeafOk cmp b next prev (l.insert_raw (position cmp l.rows r.key).1 r) where
  __ := h
  sorted := sorted_insert h.sorted r
  slight x hx := by
    rcases (mem_insert h.sorted).mp hx with rfl | hx
    · exact hslight
    · exact h.slight x hx
  below hne x hx := by
    rcases (mem_insert h.sorted).mp hx with rfl | hx
    · exact hbelow hne
    · exact h.below hne x hx
  first bound hbound := by
    obtain ⟨first, hfirst, heq⟩ := h.first bound hbound
    rw [hbound] at habove
    obtain ⟨a, rest, hrows, hkey⟩ := head_insert h.sorted hfirst (le_trans (le_of_eq heq) habove)
    refine ⟨a, ?_, eq_trans hkey heq⟩
    change (l.rows.insertIdx _ r).head? = some a
    rw [hrows]
    rfl

section Place

variable {chain : List Nat} {p : Nat} {l : LeafNode} {r : Row}

theorem Stores.broke (h : Stores cmp w levels r w' levels') (hb : Broke cmp w' levels' e w'') :
    Failed cmp w levels e w'' := by
  obtain ⟨levels'', hs⟩ := hb.structural
  have hwritten : w''.written = true := hs.written.trans h.written
  refine ⟨hb.error, fun hlate => hb.early (h.late hlate), levels'',
    { h.toOnward.trans hs.toOnward with wrote := fun _ => hwritten, pruned := fun hw => ?_ }⟩
  rw [hwritten] at hw
  cases hw

theorem Stores.then (h : Stores cmp w levels r w' levels')
    (hs : Structural cmp w' levels' w'' levels'') : Stores cmp w levels r w'' levels'' := by
  refine { h.toOnward.trans hs.toOnward with written := hs.written.trans h.written, rows := ?_ }
  rw [hs.stored_eq h.good]
  exact h.rows

theorem Stores.after (h : Onward cmp w levels w' levels')
    (hpruned : Pruned w.tm (stored w levels) (stored w' levels'))
    (hs : Stores cmp w' levels' r w'' levels'') : Stores cmp w levels r w'' levels'' := by
  obtain ⟨rest, hrest, hperm⟩ := hs.rows
  rw [h.tm] at hrest
  exact { h.trans hs.toOnward with
    written := hs.written, rows := ⟨rest, hpruned.trans hrest, hperm⟩ }

variable [Std.TransCmp cmp]

theorem mem_withRow (hsorted : Sorted cmp l.rows) {d : Durable} (hr : Intact d r)
    (hrows : ∀ x ∈ l.rows, Intact d x) :
    ∀ x ∈ (l.insert_raw (position cmp l.rows r.key).1 r).rows, Intact d x := by
  intro x hx
  rcases (mem_insert hsorted).mp hx with rfl | hx
  · exact hr
  · exact hrows x hx

variable (hg : Good cmp w levels) (hchain : levels[0]? = some chain) (hp : p ∈ chain)
  (hl : w.pages p = .leaf l) (hslight : Slight r)
  (habove : LowLe cmp (low w.pages chain p) (some r.key))
  (hbelow : l.high_key ≠ [] → Le cmp r.key l.high_key) (hr : Intact w.toDurable r)

include hg hchain hp hl hslight habove hbelow hr

theorem Stores.put : Stores cmp w levels r
      { w with toDurable := withRow cmp p r l w.toDurable, written := true } levels := by
  have hok := hg.shape.leafOk hchain hp hl
  obtain ⟨front, back, hcut, hput⟩ := stored_put hg hchain hp hl
  have honward := Onward.put_leaf hg hchain hp hl (hok.insert hslight habove hbelow) rfl
    (mem_withRow hok.sorted hr (hg.sound.rows p l hl)) true
  refine { honward with written := rfl, rows := ⟨stored w levels, .refl _ _, ?_⟩ }
  have hafter := hput { w with toDurable := withRow cmp p r l w.toDurable, written := true } _ rfl
  have hins : (l.rows.insertIdx (position cmp l.rows r.key).1 r).Perm (r :: l.rows) :=
    perm_insertIdx r l.rows (position_fits hok.sorted r.key).1
  rw [hcut, hafter]
  calc (front ++ l.rows.insertIdx (position cmp l.rows r.key).1 r ++ back).Perm
        (front ++ (r :: l.rows) ++ back) := (hins.append_left front).append_right back
    _ = front ++ r :: (l.rows ++ back) := by simp
    _ |>.Perm (r :: (front ++ (l.rows ++ back))) := perm_middle
    _ = _ := by simp only [append_assoc]

theorem place_ends :
    Ends (fun _ => place cmp p r) w (fun _ w' => l.CanFit r ∧ Stores cmp w levels r w' levels)
      (fun e w' => Failed cmp w levels e w' ∨ e = .Page ∧ w' = w ∧ ¬ l.CanFit r) := by
  have hput := Stores.put hg hchain hp hl hslight habove hbelow hr
  unfold place edit_version
  apply bind_held hl
  refine .ite (fun hfit => ?_) fun hfit => .fail (.inr ⟨rfl, rfl, hfit⟩)
  apply Ends.bind_modify
  exact (log_ends hput.good).imp (fun _ _ h => ⟨hfit, hput.then h.toStructural⟩)
    fun _ _ h => .inl (hput.broke h)

theorem place_logged_ends :
    Ends (fun _ => place_logged cmp p r) w (fun _ w' => Stores cmp w levels r w' levels)
      (Failed cmp w levels) := by
  unfold place_logged edit_version
  apply bind_held hl
  refine .seq (log_as_ends hg fun hfailed => ?_) (fun _ _ h => h.failed hg) fun _ w₁ hw₁ => ?_
  · have hput := (Stores.put hg hchain hp hl hslight habove hbelow hr).good.sound
    refine ⟨levels, ?_⟩
    rw [← (hg.redo hfailed).1] at hput
    exact hput
  apply Ends.modify
  refine Stores.after hw₁.toOnward ((Pruned.refl _ _).of_eq (hw₁.toStructural.stored_eq hg)) ?_
  apply Stores.put hw₁.good hchain hp _ hslight _ hbelow
  all_goals rw [hw₁.same]
  · exact hr
  · exact hl
  · exact habove

end Place

/-! ## A version is stamped -/

section Stamp

variable {chain : List Nat} {p slot xmax : Nat} {l : LeafNode} {r : Row}

theorem set_xmax_rows (hr : l.rows[slot]? = some r) (xmax : Nat) :
    ∃ front back, l.rows = front ++ r :: back ∧
      (l.set_xmax slot xmax).rows = front ++ { r with xmax } :: back := by
  obtain ⟨hlt, rfl⟩ := List.getElem?_eq_some_iff.mp hr
  refine ⟨l.rows.take slot, l.rows.drop (slot + 1), ?_, ?_⟩
  · rw [getElem_cons_drop, take_append_drop]
  change l.rows.modify slot _ = _
  rw [modify_eq_take_cons_drop hlt]

/-- A stamp changes neither the order nor the sizes. -/
theorem LeafOk.stamp {next : Option Nat} (h : LeafOk cmp b next prev l)
    (hr : l.rows[slot]? = some r) (xmax : Nat) : LeafOk cmp b next prev (l.set_xmax slot xmax) := by
  obtain ⟨front, back, hrows, hrows'⟩ := set_xmax_rows hr xmax
  have hmem : ∀ x ∈ (l.set_xmax slot xmax).rows, ∃ y ∈ l.rows, x.key = y.key ∧ x.size = y.size := by
    intro x hx
    rw [hrows', mem_append, mem_cons] at hx
    rw [hrows]
    rcases hx with hx | rfl | hx
    · exact ⟨x, mem_append_left _ hx, rfl, rfl⟩
    · exact ⟨r, mem_append_right _ mem_cons_self, rfl, rfl⟩
    · exact ⟨x, mem_append_right _ (mem_cons_of_mem _ hx), rfl, rfl⟩
  refine ⟨h.rightlink, h.back, h.top, h.short, sorted_congr ?_ h.sorted, fun x hx => ?_,
    fun hne x hx => ?_, fun bound hbound => ?_, h.alive⟩
  · rw [hrows, hrows']
    simp
  · obtain ⟨y, hy, hkey, hsize⟩ := hmem x hx
    unfold Slight
    rw [hkey, hsize]
    exact h.slight y hy
  · obtain ⟨y, hy, hkey, -⟩ := hmem x hx
    rw [hkey]
    exact h.below hne y hy
  obtain ⟨first, hfirst, heq⟩ := h.first bound hbound
  rw [hrows'] 
  rw [hrows] at hfirst
  cases front with
  | nil =>
    cases hfirst
    exact ⟨_, rfl, heq⟩
  | cons a front => exact ⟨first, hfirst, heq⟩

/-- The version of a slot is stamped and nothing else changes. -/
structure Stamps (cmp : Compare) (w : World) (levels : List (List Nat)) (p slot xmax : Nat)
    (l : LeafNode) (r : Row) (w' : World) : Prop extends Onward cmp w levels w' levels where
  written : w'.written = true
  leaf : w'.pages p = .leaf (l.set_xmax slot xmax)
  same : ∀ q, q ≠ p → w'.pages q = w.pages q
  rows : ∃ front back, stored w levels = front ++ r :: back ∧
    stored w' levels = front ++ { r with xmax } :: back

section

variable (hg : Good cmp w levels) (hchain : levels[0]? = some chain) (hp : p ∈ chain)
  (hl : w.pages p = .leaf l) (hr : l.rows[slot]? = some r)
  (hstamp : Intact w.toDurable { r with xmax })

include hg hchain hp hl hr hstamp

theorem Stamps.put :
    Stamps cmp w levels p slot xmax l r { w with
      toDurable := w.toDurable.put p (.leaf (l.set_xmax slot xmax)), written := true } := by
  have hok := hg.shape.leafOk hchain hp hl
  obtain ⟨front, back, hcut, hput⟩ := stored_put hg hchain hp hl
  obtain ⟨before, behind, hrows, hrows'⟩ := set_xmax_rows hr xmax
  have hintact : ∀ x ∈ (l.set_xmax slot xmax).rows, Intact w.toDurable x := by
    intro x hx
    have hold := hg.sound.rows p l hl
    rw [hrows', mem_append, mem_cons] at hx
    rw [hrows] at hold
    rcases hx with hx | rfl | hx
    · exact hold x (mem_append_left _ hx)
    · exact hstamp
    · exact hold x (mem_append_right _ (mem_cons_of_mem _ hx))
  have honward := Onward.put_leaf hg hchain hp hl (hok.stamp hr xmax) rfl hintact true
  refine { honward with written := rfl, leaf := if_pos rfl, same := fun q hq => if_neg hq,
                        rows := ⟨front ++ before, behind ++ back, ?_, ?_⟩ }
  · rw [hcut, hrows]
    simp only [append_assoc, cons_append]
  rw [hput _ (l.set_xmax slot xmax) rfl, hrows']
  simp only [append_assoc, cons_append]

theorem set_xmax_ends :
    Ends (fun _ => set_xmax p slot xmax) w (fun _ w' => Stamps cmp w levels p slot xmax l r w')
      (Broke cmp w levels) := by
  unfold set_xmax edit_version
  apply bind_held hl
  refine .bind (log_as_ends hg fun hfailed => ?_) fun _ w₁ hw₁ => ?_
  · have hput := (Stamps.put hg hchain hp hl hr hstamp).good.sound
    rw [← (hg.redo hfailed).1] at hput
    exact ⟨levels, hput⟩
  apply Ends.modify
  have hput := Stamps.put hw₁.good hchain hp (by rw [hw₁.same]; exact hl) hr
    (by rw [hw₁.same]; exact hstamp)
  refine { hw₁.toOnward.trans hput.toOnward with
    written := rfl, leaf := hput.leaf, same := fun q hq => ?_, rows := ?_ }
  · rw [hput.same q hq, hw₁.same]
  rw [← hw₁.toStructural.stored_eq hg]
  exact hput.rows

end

end Stamp

/-! ## A leaf splits -/

section Split

variable {chain : List Nat} {p q : Nat} {l : LeafNode} {d : Durable} {next : Option Nat}

theorem setPrev_eq (next left : Option Nat) (d : Durable) :
    setPrev next left d = { d with pages := (setPrev next left d).pages } := by
  unfold setPrev
  split
  · rfl
  · split <;> rfl

theorem setPrev_next {y : Nat} {ly : LeafNode} (hy : d.pages y = .leaf ly) (left : Option Nat) :
    (setPrev (some y) left d).pages y = .leaf { ly with prev := left } := by
  unfold setPrev
  simp only [hy]
  exact if_pos rfl

theorem setPrev_other {x : Nat} (hx : next ≠ some x) (left : Option Nat) :
    (setPrev next left d).pages x = d.pages x := by
  unfold setPrev
  split
  · rfl
  rename_i y
  split
  · exact if_neg fun heq => hx (congrArg some heq.symm)
  · rfl

/-- A leaf was split at the separator. -/
structure LeafSplit (cmp : Compare) (w : World) (levels : List (List Nat)) (p : Nat) (l : LeafNode)
    (sep : Bytes) (q : Nat) (w' : World) (levels' : List (List Nat)) : Prop
    extends Onward cmp w levels w' levels' where
  written : w'.written = w.written
  stored : stored w' levels' = stored w levels
  level : ∃ leaves, levels'[0]? = some leaves ∧ p ∈ leaves ∧ q ∈ leaves ∧
    low w'.pages leaves q = some sep
  halves : ∃ mid r, mid = Leaf.split_point cmp (l.rows.map Row.key) ∧ 0 < mid ∧
    l.rows[mid]? = some r ∧ r.key = sep ∧ w'.pages p = .leaf (l.left mid sep q) ∧
    w'.pages q = .leaf (l.right mid p)

theorem LeafSplit.advances {sep : Bytes} (h : LeafSplit cmp w levels p l sep q w' levels') :
    Advances cmp w levels w' levels' :=
  { h.toOnward with
    wrote := fun hw => h.written.trans hw
    pruned := fun _ => (Pruned.refl _ _).of_eq h.stored }

/-- The old right neighbour is read and gets its new back-link. -/
theorem fix_neighbour_ends (hg : Good cmp w levels) (q : Nat)
    (hnext : ∀ y, next = some y → y < w.next_page_id ∧ ∃ ly, w.pages y = .leaf ly) :
    Ends (fun _ => fix_neighbour q next) w (fun _ w' => ∃ w₁, Still cmp w levels w₁ ∧
        w' = { w₁ with toDurable := setPrev next (some q) w₁.toDurable })
      (Broke cmp w levels) := by
  cases next with
  | none => exact .pure ⟨w, .refl hg, rfl⟩
  | some y =>
    obtain ⟨hlt, ly, hly⟩ := hnext y rfl
    unfold fix_neighbour edit
    refine .bind (fetch_leaf_ends (.refl hg) hlt hly) ?_
    rintro ly w₁ ⟨hw₁, rfl⟩
    refine .modify ⟨w₁, hw₁, ?_⟩
    have hly₁ : w₁.pages y = .leaf ly := by
      rw [hw₁.same]
      exact hly
    unfold setPrev
    simp only [hly₁]

variable [Std.TransCmp cmp]

section Halves

variable {mid : Nat} {r : Row} (hg : Good cmp w levels) (hchain : levels[0]? = some chain)
  (hp : p ∈ chain) (hl : w.pages p = .leaf l) (hq : ¬ InTree levels q) (hlt : q < w.next_page_id)
  (hmid : mid = Leaf.split_point cmp (l.rows.map Row.key)) (hpos : 0 < mid)
  (hr : l.rows[mid]? = some r)

include hg hchain hp hl hq hlt hmid hpos hr

/-- What holds of an index with the halves of a leaf on their pages. -/
theorem LeafSplit.of_pages (hblank : w.pages q ≠ .other OVERFLOW)
    (heq : d = { w.toDurable with pages := d.pages })
    (hleft : d.pages p = .leaf (l.left mid r.key q)) (hright : d.pages q = .leaf (l.right mid p))
    (hneighbour : ∀ y ly, Chain.next chain p = some y → w.pages y = .leaf ly →
      d.pages y = .leaf { ly with prev := some q })
    (hother : ∀ x, x ≠ p → x ≠ q → Chain.next chain p ≠ some x → d.pages x = w.pages x) :
    LeafSplit cmp w levels p l r.key q { w with toDurable := d }
      (levels.set 0 (Chain.insertAfter p q chain)) := by
  have hnodup := hg.shape.nodup 0 chain hchain
  have hqchain : q ∉ chain := fun h => hq ⟨0, chain, hchain, h⟩
  obtain ⟨hshape, hgrows⟩ := hg.shape.split_leaf hchain hp hl hr hpos hq hleft hright
    hneighbour fun x hx hxp hxn => hother x hxp (fun h => hq (h ▸ hx)) hxn
  -- Every page but the new one has the rows it had, or a part of them.
  have hleaf : ∀ x ∈ chain, ∃ lx, w.pages x = .leaf lx := fun x hx => by
    obtain ⟨lx, hlx, -⟩ := hg.shape.leaf chain hchain x hx
    exact ⟨lx, hlx⟩
  have hkind : ∀ x t, x ≠ q → w.pages x = .other t → d.pages x = .other t := by
    intro x t hxq hx
    refine (hother x (fun h => ?_) hxq fun h => ?_).trans hx
    · rw [h, hl] at hx
      cases hx
    obtain ⟨lx, hlx⟩ := hleaf x (mem_of_next h).2
    rw [hlx] at hx
    cases hx
  have hrows : ∀ x, x ≠ p → x ≠ q → (d.pages x).rows = (w.pages x).rows := by
    intro x hxp hxq
    by_cases hx : Chain.next chain p = some x
    · obtain ⟨lx, hlx⟩ := hleaf x (mem_of_next hx).2
      rw [hneighbour x lx hx hlx, hlx]
      rfl
    · rw [hother x hxp hxq hx]
  have hnext : d.next_page_id = w.next_page_id := by rw [heq]
  have hoverflow : ∀ x, w.pages x = .other OVERFLOW → d.pages x = .other OVERFLOW := by
    intro x hx
    refine hkind x _ ?_ hx
    rintro rfl
    exact hblank hx
  have hsound : Sound cmp d w.root (levels.set 0 (Chain.insertAfter p q chain)) := by
    refine hg.sound.split hchain hp hlt hshape hnext (fun x hx => ?_) (fun x lx hlx a ha => ?_)
      hoverflow (by rw [heq]) (by rw [heq])
    · rw [hkind x 0 (Nat.ne_of_gt (hlt.trans_le hx)) (hg.sound.blank x hx), hg.sound.blank x hx]
    by_cases hxp : x = p
    · rw [hxp, hleft] at hlx
      cases hlx
      exact ⟨p, l, hl, mem_of_mem_take ha⟩
    by_cases hxq : x = q
    · rw [hxq, hright] at hlx
      cases hlx
      exact ⟨p, l, hl, mem_of_mem_drop ha⟩
    have hsame := hrows x hxp hxq
    rw [hlx] at hsame
    change lx.rows = _ at hsame
    cases hpage : w.pages x with
    | leaf ly =>
      rw [hsame, hpage] at ha
      exact ⟨x, ly, hpage, ha⟩
    | internal n | other t =>
      rw [hpage] at hsame
      rw [hsame] at ha
      cases ha
  have hlevel : (levels.set 0 (Chain.insertAfter p q chain))[0]? =
      some (Chain.insertAfter p q chain) :=
    (Maps.getElem?_set_eq_ite hchain _ _).trans (if_pos rfl)
  exact {
    good := ⟨hsound, hg.pool, hg.pending, fun hfailed => by
      obtain ⟨hroot, hredo⟩ := hg.redo hfailed
      refine ⟨?_, hredo⟩
      rw [← hroot, heq]⟩
    grows := hgrows
    txns := by
      change d.txns = w.txns
      rw [heq]
    next := Nat.le_of_eq hnext.symm
    overflow := fun x _ hx => hoverflow x hx
    late := fun h => h
    failed := fun h => h
    written := rfl
    stored := by
      unfold Tree.stored
      rw [hlevel, hchain]
      apply flatMap_insertAfter hnodup hp hqchain
      · rw [hleft, hright, hl]
        exact take_append_drop mid l.rows
      · exact fun x hx hxp => hrows x hxp fun h => hqchain (h ▸ hx)
    level := ⟨_, hlevel, (mem_insertAfter hp).mpr (.inr hp),
      (mem_insertAfter hp).mpr (.inl rfl), by
        rw [low_inserted hnodup hp hqchain]
        change some (d.pages p).high_key = _
        rw [hleft]
        rfl⟩
    halves := ⟨mid, r, hmid, hpos, hr, rfl, hleft, hright⟩ }

theorem LeafSplit.put (hright : w.pages q = .leaf (l.right mid p)) :
    LeafSplit cmp w levels p l r.key q
      { w with toDurable :=
        (setPrev l.rightlink (some q) w.toDurable).put p (.leaf (l.left mid r.key q)) }
      (levels.set 0 (Chain.insertAfter p q chain)) := by
  have hnodup := hg.shape.nodup 0 chain hchain
  have hok := hg.shape.leafOk hchain hp hl
  have hqchain : q ∉ chain := fun h => hq ⟨0, chain, hchain, h⟩
  have hnext : ∀ y, Chain.next chain p = some y → y ≠ p ∧ y ≠ q := by
    intro y hy
    refine ⟨fun heq => next_ne_self hnodup p (heq ▸ hy), fun heq => hqchain ?_⟩
    exact heq ▸ (mem_of_next hy).2
  rw [hok.rightlink]
  refine LeafSplit.of_pages hg hchain hp hl hq hlt hmid hpos hr (by rw [hright]; exact nofun)
    ?_ (if_pos rfl) ?_ (fun y ly hy hly => ?_) fun x hxp _ hx => ?_
  · rw [setPrev_eq]
    rfl
  · have hqp : q ≠ p := fun heq => hqchain (heq ▸ hp)
    refine (if_neg hqp).trans ?_
    rw [setPrev_other fun h => (hnext q h).2 rfl]
    exact hright
  · refine (if_neg (hnext y hy).1).trans ?_
    rw [hy]
    exact setPrev_next hly _
  refine (if_neg hxp).trans ?_
  exact setPrev_other hx _

end Halves

theorem split_leaf_ly_ends (hg : Good cmp w levels) (hchain : levels[0]? = some chain)
    (hp : p ∈ chain) (hl : w.pages p = .leaf l) (htwo : 2 ≤ l.rows.length) :
    Ends (fun _ => split_leaf_ly cmp p) w
      (fun a w' => ∃ levels', LeafSplit cmp w levels p l a.1 a.2 w' levels')
      (Failed cmp w levels) := by
  have hne : l.rows ≠ [] := fun h => by
    rw [h] at htwo
    cases htwo
  have hok := hg.shape.leafOk hchain hp hl
  unfold split_leaf_ly
  apply bind_held hl
  rw [if_neg hne]
  refine .seq (new_page_ends hg) (fun _ _ h => h.failed hg) fun q w₁ hw₁ => ?_
  obtain ⟨mid, r, hmid, -, hpos, hr, heq⟩ := split_leaf_eq cmp hne p q
  rw [heq]
  dsimp only
  obtain ⟨hq, hlt, hblank⟩ := hw₁.fresh hg
  have hl₁ : w₁.pages p = .leaf l := by
    rw [hw₁.pages]
    exact hl
  have hfresh := Structural.put_fresh hw₁.good hq hlt hblank (.leaf (l.right mid p)) (by
    rintro _ ⟨⟩ x hx
    exact hw₁.good.sound.rows p l hl₁ x (mem_of_mem_drop hx))
  have hs₂ := hw₁.toStructural.trans hfresh
  have hpq : p ≠ q := fun heq => hq (heq ▸ ⟨0, chain, hchain, hp⟩)
  unfold edit
  apply Ends.bind_modify
  refine .seq (fix_neighbour_ends hfresh.good q fun y hy => ?_)
    (fun _ _ h => (h.trans hs₂).failed hg) ?_
  · rw [hok.rightlink] at hy
    have hmem := (mem_of_next hy).2
    obtain ⟨ly, hly, -⟩ := hfresh.good.shape.leaf chain hchain y hmem
    exact ⟨hfresh.good.lt hchain hmem, ly, hly⟩
  rintro _ _ ⟨w₃, hw₃, rfl⟩
  apply Ends.bind_modify
  have hs₃ := hs₂.trans hw₃.toStructural
  have hsplit := LeafSplit.put hw₃.good hchain hp (l := l) (r := r) (q := q)
    (by rw [hw₃.same]; exact (if_neg hpq).trans hl₁) hq (by rw [hw₃.same]; exact hlt) hmid
    (hpos htwo) hr (by rw [hw₃.same]; exact if_pos rfl)
  have hadvances := (hs₃.advances hg).trans hsplit.advances
  refine .seq (log_ends hsplit.good) (fun _ _ h => (h.failed hsplit.good).trans hadvances)
    fun _ w₅ hw₅ => Ends.pure ⟨levels.set 0 (Chain.insertAfter p q chain), ?_⟩
  have hpages : w₅.pages = _ := congrArg Durable.pages hw₅.same
  exact { hadvances.toOnward.trans hw₅.toOnward with
    written := hw₅.written.trans hs₃.written
    stored := (hw₅.toStructural.stored_eq hsplit.good).trans
      (hsplit.stored.trans (hs₃.stored_eq hg))
    level := by
      rw [hpages]
      exact hsplit.level
    halves := by
      rw [hpages]
      exact hsplit.halves }

end Split

end FluxDB.Tree
