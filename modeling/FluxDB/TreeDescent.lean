-- The ways through the tree that only read: down to a leaf, to the right while the key lies behind
-- a page, and to the left along the leaves that end in one key. With every page in order they end,
-- and the leaf they find is the one whose range holds the key.
import FluxDB.TreeContents
import FluxDB.TreeGood

namespace FluxDB.Tree

open Comparator List Option Chain

variable {cmp : Compare}

/-- The leaf whose range holds the key. -/
structure Lands (cmp : Compare) (pages : Nat → Node) (chain : List Nat) (key : Bytes) (p : Nat)
    (l : LeafNode) : Prop where
  mem : p ∈ chain
  page : pages p = .leaf l
  above : LowLe cmp (low pages chain p) (some key)
  inside : ¬ Beyond cmp key l.high_key

/-- The pages passed on the way down, from this level up: each begins at or below the bound, and at
or below the page passed after it. -/
def StackOk (cmp : Compare) (pages : Nat → Node)
    (levels : List (List Nat)) : Nat → List Nat → Option Bytes → Prop
  | _, [], _ => True
  | i, p :: stack, b => ∃ level, levels[i]? = some level ∧ p ∈ level ∧
      LowLe cmp (low pages level p) b ∧ StackOk cmp pages levels (i + 1) stack (low pages level p)

variable {w : World} {levels levels' : List (List Nat)} {chain : List Nat} {key : Bytes}
  {p : Nat}

variable {pages : Nat → Node} {l : LeafNode} {i q : Nat} {level lower : List Nat}

theorem Good.lt (hg : Good cmp w levels) (hi : levels[i]? = some level) (hp : p ∈ level) :
    p < w.next_page_id := hg.sound.fresh p ⟨i, level, hi, hp⟩

/-! ## To the right -/

section Right

variable [Std.TransCmp cmp]

/-- A page with a key behind it has a right neighbour, and that begins at or below the key. -/
theorem low_le_right (hnodup : level.Nodup) (hnext : Chain.next level p = some q)
    (hbeyond : Beyond cmp key (pages p).high_key) : LowLe cmp (low pages level q) (some key) := by
  rw [low_next hnodup hnext]
  exact le_iff_not_lt.mpr hbeyond.2

section

variable (hg : Good cmp w levels) (hchain : levels[0]? = some chain) (hp : p ∈ chain)
  (hlow : LowLe cmp (low w.pages chain p) (some key)) (w' : World) (hs : Still cmp w levels w')

include hg hchain hp hlow w' hs

theorem move_right_ends :
    Ends (fun n => move_right cmp n key p) w'
      (fun a w'' => Still cmp w levels w'' ∧ Lands cmp w.pages chain key a.1 a.2 ∧
        LowLe cmp (low w.pages chain p) (low w.pages chain a.1))
      (Broke cmp w levels) := by
  have hnodup := hg.shape.nodup 0 chain hchain
  revert hlow
  revert w'
  refine induct_right hnodup (fun p hp ih w' hs hlow => ?_) hp
  obtain ⟨l, hl, hok⟩ := hg.shape.leaf chain hchain p hp
  refine .succ rfl ?_
  unfold move_right
  refine .bind (fetch_leaf_ends hs (hg.lt hchain hp) hl) ?_
  rintro _ w₁ ⟨hw₁, rfl⟩
  refine .ite (fun hbeyond => ?_) fun hinside =>
    Ends.pure ⟨hw₁, ⟨hp, hl, hlow, hinside⟩, LowLe.refl _⟩
  obtain ⟨q, hq⟩ := ne_none_iff_exists'.mp (mt hok.top.mpr hbeyond.1)
  rw [hok.rightlink, hq]
  apply Ends.bind_pure
  refine (ih q hq _ hw₁ (low_le_right hnodup hq (by rw [hl]; exact hbeyond))).imp
    (fun a w'' h => ⟨h.1, h.2.1, ?_⟩) fun _ _ h => h
  exact (hg.shape.low_le_next hchain hq).trans h.2.2

/-- No leaf of the chain is half-dead, so the correction of an insert finds the same leaf. -/
theorem move_right_alive_ends :
    Ends (fun n => move_right_alive cmp n key p) w'
      (fun a w'' => ∃ q l, a = some (q, l) ∧ Still cmp w levels w'' ∧
        Lands cmp w.pages chain key q l ∧ LowLe cmp (low w.pages chain p) (low w.pages chain q))
      (Broke cmp w levels) := by
  have hnodup := hg.shape.nodup 0 chain hchain
  revert hlow
  revert w'
  refine induct_right hnodup (fun p hp ih w' hs hlow => ?_) hp
  obtain ⟨l, hl, hok⟩ := hg.shape.leaf chain hchain p hp
  refine .succ rfl ?_
  unfold move_right_alive
  refine .bind (fetch_leaf_ends hs (hg.lt hchain hp) hl) ?_
  rintro _ w₁ ⟨hw₁, rfl⟩
  refine .ite (fun hdead => absurd hdead (by rw [hok.alive]; exact nofun)) fun _ => ?_
  refine .ite (fun hbeyond => ?_) fun hinside =>
    Ends.pure ⟨p, _, rfl, hw₁, ⟨hp, hl, hlow, hinside⟩, LowLe.refl _⟩
  obtain ⟨q, hq⟩ := ne_none_iff_exists'.mp (mt hok.top.mpr hbeyond.1)
  rw [hok.rightlink, hq]
  apply Ends.bind_pure
  refine (ih q hq _ hw₁ (low_le_right hnodup hq (by rw [hl]; exact hbeyond))).imp ?_ fun _ _ h => h
  rintro a w'' ⟨y, ly, rfl, hw'', hland, hle⟩
  exact ⟨y, ly, rfl, hw'', hland, (hg.shape.low_le_next hchain hq).trans hle⟩

end

/-- The page of a level above the leaves whose range holds the key. -/
structure Holds (cmp : Compare) (pages : Nat → Node) (level : List Nat) (key : Bytes) (p : Nat)
    (n : InternalNode) : Prop where
  mem : p ∈ level
  page : pages p = .internal n
  above : LowLe cmp (low pages level p) (some key)
  inside : ¬ Beyond cmp key n.high_key

theorem move_right_internal_ends (hg : Good cmp w levels) {upper : List Nat}
    (hupper : levels[i + 1]? = some upper) (hlower : levels[i]? = some lower) (hp : p ∈ upper)
    (hlow : LowLe cmp (low w.pages upper p) (some key)) (w' : World) (hs : Still cmp w levels w') :
    Ends (fun n => move_right_internal cmp n key p) w'
      (fun a w'' => Still cmp w levels w'' ∧ Holds cmp w.pages upper key a.1 a.2 ∧
        LowLe cmp (low w.pages upper p) (low w.pages upper a.1))
      (Broke cmp w levels) := by
  have hnodup := hg.shape.nodup (i + 1) upper hupper
  revert hlow
  revert w'
  refine induct_right hnodup (fun p hp ih w' hs hlow => ?_) hp
  obtain ⟨n, hn, hok⟩ := hg.shape.internal i upper lower hupper hlower p hp
  refine .succ rfl ?_
  unfold move_right_internal
  refine .bind (fetch_internal_ends hs (hg.lt hupper hp) hn) ?_
  rintro _ w₁ ⟨hw₁, rfl⟩
  refine .ite (fun hbeyond => ?_) fun hinside =>
    Ends.pure ⟨hw₁, ⟨hp, hn, hlow, hinside⟩, LowLe.refl _⟩
  obtain ⟨q, hq⟩ := ne_none_iff_exists'.mp (mt hok.top.mpr hbeyond.1)
  rw [hok.rightlink, hq]
  apply Ends.bind_pure
  refine (ih q hq _ hw₁ (low_le_right hnodup hq (by rw [hn]; exact hbeyond))).imp
    (fun a w'' h => ⟨h.1, h.2.1, ?_⟩) fun _ _ h => h
  exact (hg.shape.low_le_next hupper hq).trans h.2.2

end Right

/-! ## Down -/

section Down

variable [Std.TransCmp cmp] {b : Option Bytes}

theorem StackOk.mono {stack : List Nat} {b' : Option Bytes}
    (h : StackOk cmp pages levels i stack b) (hle : LowLe cmp b b') :
    StackOk cmp pages levels i stack b' := by
  cases stack with
  | nil => trivial
  | cons p stack =>
    obtain ⟨level, hi, hp, hlow, hrest⟩ := h
    exact ⟨level, hi, hp, hlow.trans hle, hrest⟩

omit [Std.TransCmp cmp] in
theorem StackOk.grows {pages' : Nat → Node} (hgrows : Grows pages levels pages' levels')
    {stack : List Nat} (h : StackOk cmp pages levels i stack b) :
    StackOk cmp pages' levels' i stack b := by
  induction stack generalizing i b with
  | nil => trivial
  | cons p stack ih =>
    obtain ⟨level, hi, hp, hlow, hrest⟩ := h
    obtain ⟨level', hi', hsame⟩ := hgrows i level hi
    obtain ⟨hp', heq⟩ := hsame p hp
    refine ⟨level', hi', hp', ?_, ?_⟩
    · rw [heq]
      exact hlow
    rw [heq]
    exact ih hrest

theorem Downlinks.start_le {keys : List Bytes} {children : List Nat}
    (h : Downlinks cmp pages lower b keys children) (hlow : LowLe cmp b (some key)) :
    LowLe cmp (start b keys (Internal.place cmp keys key)) (some key) := by
  cases hplace : Internal.place cmp keys key with
  | zero => exact hlow
  | succ j =>
    rw [start_succ]
    cases hk : keys[j]? with
    | none => trivial
    | some k => exact le_of_lt_place h.sorted hk (by omega)

theorem Downlinks.le_start {keys : List Bytes} {children : List Nat}
    (h : Downlinks cmp pages lower b keys children) {j : Nat} (hj : j ≤ keys.length) :
    LowLe cmp b (start b keys j) := by
  cases j with
  | zero => exact LowLe.refl b
  | succ j =>
    rw [start_succ, getElem?_eq_getElem hj]
    exact h.above _ (getElem_mem hj)

theorem InternalOk.child {next : Option Nat} {n : InternalNode}
    (h : InternalOk cmp pages lower b next n) (hlow : LowLe cmp b (some key)) :
    ∃ c, n.children[n.find_child cmp key]? = some c ∧
      c ∈ lower ∧ LowLe cmp (low pages lower c) (some key) ∧ LowLe cmp b (low pages lower c) := by
  rw [find_child_eq h.links.sorted]
  have hle : Internal.place cmp n.keys key ≤ n.keys.length := Search.front_le _ _
  have hlt : Internal.place cmp n.keys key < n.children.length := by
    rw [h.links.arity]
    exact Nat.lt_succ_of_le hle
  obtain ⟨hmem, hbelow, habove⟩ := h.links.child _ _ (getElem?_eq_getElem hlt)
  exact ⟨_, getElem?_eq_getElem hlt, hmem, hbelow.trans (h.links.start_le hlow),
    (h.links.le_start hle).trans habove⟩

/-- The way down ends on a leaf that begins at or below the key, with the pages passed. -/
theorem descend_ends (hg : Good cmp w levels) (hi : levels[i]? = some level) (hp : p ∈ level)
    (hlow : LowLe cmp (low w.pages level p) (some key)) (stack : List Nat)
    (hstack : StackOk cmp w.pages levels (i + 1) stack (low w.pages level p)) (w' : World)
    (hs : Still cmp w levels w') :
    Ends (fun n => descend cmp n key p stack) w'
      (fun a w'' => Still cmp w levels w'' ∧ ∃ chain, levels[0]? = some chain ∧ a.1 ∈ chain ∧
        LowLe cmp (low w.pages chain a.1) (some key) ∧
        StackOk cmp w.pages levels 1 a.2 (low w.pages chain a.1))
      (Broke cmp w levels) := by
  -- On the level, and on a level from right to left.
  induction i generalizing level p stack w' with
  | zero =>
    obtain ⟨l, hl, hok⟩ := hg.shape.leaf level hi p hp
    refine .succ rfl ?_
    unfold descend
    refine .bind (fetch_page_ends hs (hg.lt hi hp)) ?_
    rintro _ w₁ ⟨hw₁, rfl⟩
    rw [hl]
    exact .pure ⟨hw₁, level, hi, hp, hlow, hstack⟩
  | succ i ihlevel =>
    obtain ⟨lower, hlower⟩ := exists_lower hi
    have hnodup := hg.shape.nodup (i + 1) level hi
    revert hlow hstack
    revert w'
    refine induct_right hnodup (fun p hp ih w' hs hlow hstack => ?_) hp
    obtain ⟨n, hn, hok⟩ := hg.shape.internal i level lower hi hlower p hp
    refine .succ rfl ?_
    unfold descend
    refine .bind (fetch_page_ends hs (hg.lt hi hp)) ?_
    rintro _ w₁ ⟨hw₁, rfl⟩
    rw [hn]
    refine .ite (fun hbeyond => ?_) fun _ => ?_
    · obtain ⟨q, hq⟩ := ne_none_iff_exists'.mp (mt hok.top.mpr hbeyond.1)
      rw [hok.rightlink, hq]
      apply Ends.bind_pure
      refine ih q hq _ hw₁ (low_le_right hnodup hq (by rw [hn]; exact hbeyond)) ?_
      exact hstack.mono (hg.shape.low_le_next hi hq)
    obtain ⟨c, hc, hmem, hbelow, habove⟩ := hok.child hlow
    rw [hc]
    apply Ends.bind_pure
    exact ihlevel hlower hmem hbelow (p :: stack) ⟨level, hi, hp, habove, hstack⟩ _ hw₁

end Down

/-! ## To the left -/

section Left

variable [Std.TransCmp cmp]

/-- The leaves in front of a page that begins at or below the key hold its versions as long as they
end in it. -/
theorem Shape.lt_of_high_ne (h : Shape cmp pages levels) (hchain : levels[0]? = some chain)
    {l₁ l₂ : List Nat} (heq : chain = l₁ ++ q :: l₂) (hne : l₂ ≠ [])
    (hle : Le cmp (pages q).high_key key) (hhigh : cmp (pages q).high_key key ≠ .eq) {r : Row}
    (hr : r ∈ contents pages (l₁ ++ [q])) : cmp r.key key = .lt := by
  have hlt := (lt_or_eq_of_le hle).resolve_right hhigh
  have hnodup := h.nodup 0 chain hchain
  obtain ⟨x, rest, rfl⟩ := exists_cons_of_ne_nil hne
  have hnext : Chain.next chain q = some x := next_around hnodup heq
  refine lt_of_le_of_lt ?_ hlt
  have hafter : chain = (l₁ ++ [q]) ++ x :: rest := by
    rw [heq]
    simp
  have hbound := h.le_low hchain hafter hr
  rwa [low_next hnodup hnext] at hbound

/-- What a conflict check may say of these versions. -/
def Verdict (cmp : Compare) (tm : TransactionManager)
    (txn : Transaction) (key : Bytes) (rows : List Row) : Except IndexError Unit → Prop
  | .ok _ => ∀ r ∈ rows, cmp r.key key = .eq →
      check_insert_conflict tm txn [(r.xmin, r.xmax)] = .ok ()
  | .error e => ∃ r ∈ rows, cmp r.key key = .eq ∧
      check_insert_conflict tm txn [(r.xmin, r.xmax)] = .error e

theorem Verdict.page {tm : TransactionManager} {txn : Transaction} {rows : List Row}
    (hsorted : Sorted cmp rows) :
    Verdict cmp tm txn key rows (check_page_conflict cmp tm txn rows key) := by
  rw [check_page_conflict_eq hsorted]
  cases hcheck : check_insert_conflict tm txn
      ((versionsOf cmp key rows).map fun r => (r.xmin, r.xmax)) with
  | ok _ =>
    intro r hr hkey
    apply check_insert_conflict_forall.mp hcheck
    exact mem_map_of_mem (mem_versionsOf.mpr ⟨hr, hkey⟩)
  | error e =>
    obtain ⟨s, hs, hone⟩ := check_insert_conflict_error hcheck
    obtain ⟨r, hr, rfl⟩ := mem_map.mp hs
    obtain ⟨hmem, hkey⟩ := mem_versionsOf.mp hr
    exact ⟨r, hmem, hkey, hone⟩

omit [Std.TransCmp cmp] in
theorem Verdict.append {tm : TransactionManager} {txn : Transaction} {rows rows' : List Row}
    {v : Except IndexError Unit} (h : Verdict cmp tm txn key rows v)
    (h' : Verdict cmp tm txn key rows' (.ok ())) : Verdict cmp tm txn key (rows ++ rows') v := by
  cases v with
  | ok _ => exact forall_mem_append.mpr ⟨h, h'⟩
  | error e =>
    obtain ⟨r, hr, hrest⟩ := h
    exact ⟨r, mem_append_left _ hr, hrest⟩

/-- No leaf to the left is asked if the landing page has a key below and the key itself not. -/
theorem Shape.lt_of_position (h : Shape cmp pages levels) (hchain : levels[0]? = some chain)
    {l₁ l₂ : List Nat} (heq : chain = l₁ ++ p :: l₂) (hl : pages p = .leaf l)
    (hpos : ¬ ((position cmp l.rows key).2 = true ∨ (position cmp l.rows key).1 = 0)) {r : Row}
    (hr : r ∈ contents pages l₁) : cmp r.key key = .lt := by
  have hmem : p ∈ chain := heq ▸ mem_append_cons_self
  have hok := h.leafOk hchain hmem hl
  have hbound := h.le_low hchain heq hr
  rcases position_spec hok.sorted key with ⟨i, _, -, -, hfound⟩ | ⟨i, hlen, hfound, hbelow, -⟩
  · rw [hfound] at hpos
    exact absurd (.inl rfl) hpos
  rw [hfound] at hpos
  have hi : 0 < i := Nat.pos_of_ne_zero fun h => hpos (.inr h)
  have hfirst := getElem?_eq_getElem (l := l.rows) (i := 0) (by omega)
  refine lt_of_le_of_lt ?_ (hbelow 0 _ hi hfirst)
  exact hbound.trans (hok.above (getElem_mem _))

/-- What the search for a visible version may say: it finds one, or there is none. -/
def Finds (cmp : Compare) (pages : Nat → Node) (chain : List Nat)
    (tm : TransactionManager) (txn : Transaction) (key : Bytes) : ChainSearch → Prop
  | .Found q slot r => q ∈ chain ∧ ∃ l, pages q = .leaf l ∧ l.rows[slot]? = some r ∧
      cmp r.key key = .eq ∧ txn.is_visible r.xmin r.xmax tm = true
  | .NotFound => ∀ r ∈ contents pages chain, cmp r.key key = .eq →
      txn.is_visible r.xmin r.xmax tm = false
  | .Restart => False

variable (hg : Good cmp w levels) (hchain : levels[0]? = some chain)

include hg hchain

theorem check_insert_conflict_left_chain_ends (txn : Transaction) (l₁ l₂ : List Nat)
    (heq : chain = l₁ ++ l₂) (hne : l₂ ≠ [])
    (hle : ∀ q, l₁.getLast? = some q → Le cmp (w.pages q).high_key key) (w' : World)
    (hs : Still cmp w levels w') :
    Ends (fun n => check_insert_conflict_left_chain cmp n key txn l₁.getLast?) w'
      (fun v w'' => Still cmp w levels w'' ∧ Verdict cmp w.tm txn key (contents w.pages l₁) v)
      (Broke cmp w levels) := by
  have hnodup := hg.shape.nodup 0 chain hchain
  -- Along the chain from the landing page to the left.
  induction l₁ using List.reverseRecOn generalizing l₂ w' with
  | nil =>
    refine .succ rfl (Ends.pure ⟨hs, fun r hr => ?_⟩)
    cases hr
  | append_singleton l₁ q ih =>
    have hsplit : chain = l₁ ++ q :: l₂ := by
      rw [heq]
      simp
    have hmem : q ∈ chain := hsplit ▸ mem_append_cons_self
    obtain ⟨l, hl, hok⟩ := hg.shape.leaf chain hchain q hmem
    have hqle := hle q (getLast?_concat ..)
    rw [getLast?_concat]
    refine .succ rfl ?_
    unfold check_insert_conflict_left_chain
    refine .bind (fetch_leaf_ends hs (hg.lt hchain hmem) hl) ?_
    rintro l w₁ ⟨hw₁, rfl⟩
    have hlast : contents w.pages [q] = l.rows := (contents_cons hl []).trans (append_nil _)
    obtain ⟨x, rest, rfl⟩ := exists_cons_of_ne_nil hne
    have hnext : Chain.next chain q = some x := next_around hnodup hsplit
    rw [hl] at hqle
    refine .ite (fun _ => ?_) fun hhigh => .pure ⟨hw₁, fun r hr hkey => ?_⟩
    · apply Ends.bind_read
      rw [hw₁.same, contents_append, hlast, hok.back, prev_around hnodup hsplit]
      have hpage : Verdict cmp w.tm txn key _ _ := Verdict.page hok.sorted
      cases hcheck : check_page_conflict cmp w.tm txn l.rows key with
      | ok _ =>
        rw [hcheck] at hpage
        refine (ih _ hsplit (cons_ne_nil _ _) (fun y hy => ?_) _ hw₁).imp
          (fun v w'' h => ⟨h.1, h.2.append hpage⟩) fun _ _ h => h
        have hprev : Chain.prev chain q = some y := (prev_around hnodup hsplit).trans hy
        have hstep := hg.shape.low_le_next hchain hnext
        rw [low_next hnodup hnext, low_next hnodup (next_of_prev hnodup hprev), hl] at hstep
        exact le_trans hstep hqle
      | error e =>
        rw [hcheck] at hpage
        obtain ⟨r, hr, hrest⟩ := hpage
        exact .pure ⟨hw₁, r, mem_append_right _ hr, hrest⟩
    have hlt := hg.shape.lt_of_high_ne hchain hsplit hne (by rw [hl]; exact hqle)
      (fun h => hhigh ⟨?_, by rwa [hl] at h⟩) hr
    · rw [hkey] at hlt
      cases hlt
    rw [hnext] at hok
    exact hok.high_ne_nil

/-- The leaf whose range holds the key, with the leaves on both sides. -/
theorem Lands.around (h : Lands cmp w.pages chain key p l) : ∃ l₁ l₂, chain = l₁ ++ p :: l₂ ∧
      contents w.pages chain = contents w.pages l₁ ++ (l.rows ++ contents w.pages l₂) ∧
      l.prev = l₁.getLast? ∧ (∀ q, l₁.getLast? = some q → Le cmp (w.pages q).high_key key) ∧
      ∀ r ∈ contents w.pages l₂, cmp r.key key ≠ .eq := by
  have hnodup := hg.shape.nodup 0 chain hchain
  have hok := hg.shape.leafOk hchain h.mem h.page
  obtain ⟨l₁, l₂, heq, -, -, -, hprev⟩ := exists_around hnodup h.mem
  refine ⟨l₁, l₂, heq, ?_, hok.back.trans hprev, fun q hq => ?_, fun r hr hkey => ?_⟩
  · rw [heq, contents_append, contents_cons h.page]
  · have habove := h.above
    unfold low at habove
    rwa [hprev, hq] at habove
  have hhigh := hg.shape.high_le hchain heq hr
  rw [h.page] at hhigh
  refine h.inside ⟨fun hnil => ?_, ?_⟩
  · have hnext := hok.top.mp hnil
    rw [next_around hnodup heq] at hnext
    rw [head?_eq_none_iff.mp hnext] at hr
    cases hr
  · exact le_iff_not_lt.mp (le_trans hhigh (le_of_eq hkey))

theorem Lands.unique {l' : LeafNode} (h : Lands cmp w.pages chain key p l)
    (h' : Lands cmp w.pages chain key q l') : p = q := by
  -- Of two such leaves, the left one would end at or below the key.
  have hbehind : ∀ {p q : Nat} {l l' : LeafNode} {l₁ l₂ : List Nat},
      Lands cmp w.pages chain key p l → Lands cmp w.pages chain key q l' →
      chain = l₁ ++ p :: l₂ → q ∉ l₂ := by
    intro p q l l' l₁ l₂ h h' heq hq
    have hle := (hg.shape.high_le_low hchain heq hq).trans h'.above
    rw [h.page] at hle
    have hok := hg.shape.leafOk hchain h.mem h.page
    refine h.inside ⟨fun hnil => ?_, le_iff_not_lt.mp hle⟩
    have hnext := hok.top.mp hnil
    rw [next_around (hg.shape.nodup 0 chain hchain) heq] at hnext
    rw [head?_eq_none_iff.mp hnext] at hq
    cases hq
  obtain ⟨l₁, l₂, heq⟩ := append_of_mem h.mem
  have hmem := h'.mem
  rw [heq, mem_append, mem_cons] at hmem
  rcases hmem with hmem | hmem | hmem
  · obtain ⟨m₁, m₂, rfl⟩ := append_of_mem hmem
    have hcut : chain = m₁ ++ q :: (m₂ ++ p :: l₂) := by rw [heq]; simp
    exact absurd mem_append_cons_self (hbehind h' h hcut)
  · exact hmem.symm
  · exact absurd hmem (hbehind h h' heq)

/-- The checks of an insert ask all versions of the key. -/
theorem check_conflicts_ends (hland : Lands cmp w.pages chain key p l) (txn : Transaction)
    (w' : World) (hs : Still cmp w levels w') :
    Ends (fun n => check_conflicts cmp n key txn p l) w'
      (fun v w'' => Still cmp w levels w'' ∧ Verdict cmp w.tm txn key (contents w.pages chain) v)
      (Broke cmp w levels) := by
  obtain ⟨l₁, l₂, heq, hcontents, hprev, hle, hright⟩ := hland.around hg hchain
  have hok := hg.shape.leafOk hchain hland.mem hland.page
  have hpage : Verdict cmp w.tm txn key _ _ := Verdict.page hok.sorted
  have hrest : Verdict cmp w.tm txn key (contents w.pages l₂) (.ok ()) := fun r hr hkey =>
    absurd hkey (hright r hr)
  unfold check_conflicts
  apply Ends.bind_read
  rw [hs.same, hcontents]
  cases hcheck : check_page_conflict cmp w.tm txn l.rows key with
  | error e =>
    rw [hcheck] at hpage
    obtain ⟨r, hr, hkey⟩ := hpage
    exact .pure ⟨hs, r, mem_append_right _ (mem_append_left _ hr), hkey⟩
  | ok _ =>
    rw [hcheck] at hpage
    have hhere := hpage.append hrest
    unfold check_left
    dsimp only
    refine .ite (fun _ => ?_) fun hnone => ?_
    · rw [hprev]
      refine .bind (check_insert_conflict_left_chain_ends hg hchain txn l₁ (p :: l₂) heq
        (cons_ne_nil _ _) hle _ hs) ?_
      rintro v w₁ ⟨hw₁, hv⟩
      cases v with
      | error e => exact .pure ⟨hw₁, hv.append hhere⟩
      | ok _ =>
        refine .bind (fetch_leaf_ends hw₁ (hg.lt hchain hland.mem) hland.page) ?_
        rintro _ w₂ ⟨hw₂, -⟩
        exact .pure ⟨hw₂, hv.append hhere⟩
    refine .pure ⟨hs, Verdict.append (fun r hr hkey => ?_) hhere⟩
    by_cases hfirst : l.prev = none
    · rw [hprev, getLast?_eq_none_iff] at hfirst
      rw [hfirst] at hr
      cases hr
    have hlt := hg.shape.lt_of_position hchain heq hland.page (fun h => hnone ⟨hfirst, h⟩) hr
    rw [hkey] at hlt
    cases hlt

/-- The walk from a leaf that begins at or below the key, if no leaf further right has a visible
version. -/
theorem find_visible_chain_walk (txn : Transaction) (l₁ l₂ : List Nat) (heq : chain = l₁ ++ p :: l₂)
    (hl : w.pages p = .leaf l) (hlow : LowLe cmp (low w.pages chain p) (some key))
    (hright : ∀ r ∈ contents w.pages l₂, cmp r.key key = .eq → txn.is_visible r.xmin r.xmax w.tm =
      false) (w' : World) (hs : Still cmp w levels w') :
    Ends (fun n => find_visible_chain cmp n key txn p l) w'
      (fun a w'' => Still cmp w levels w'' ∧ Finds cmp w.pages chain w.tm txn key a)
      (Broke cmp w levels) := by
  have hnodup := hg.shape.nodup 0 chain hchain
  -- Along the chain to the left; the left neighbour of a leaf that starts with the key ends in it.
  induction hn : l₁.length using Nat.strong_induction_on generalizing p l l₁ l₂ w' with
  | _ n ih =>
  subst hn
  have hmem : p ∈ chain := heq ▸ mem_append_cons_self
  have hok := hg.shape.leafOk hchain hmem hl
  have hcontents : contents w.pages chain =
      contents w.pages l₁ ++ (l.rows ++ contents w.pages l₂) := by
    rw [heq, contents_append, contents_cons hl]
  refine .succ rfl ?_
  unfold find_visible_chain
  apply Ends.bind_read
  rw [hs.same]
  cases hslot : find_visible_slot cmp w.tm txn l.rows key with
  | some slot =>
    obtain ⟨r, hr, hkey, hvisible⟩ := find_visible_slot_some hok.sorted hslot
    rw [bind_some, hr]
    exact .pure ⟨hs, hmem, l, hl, hr, hkey, hvisible⟩
  | none =>
    have hhere := find_visible_slot_none hok.sorted hslot
    have hfound : (∀ r ∈ contents w.pages l₁, cmp r.key key = .eq →
        txn.is_visible r.xmin r.xmax w.tm = false) →
        Finds cmp w.pages chain w.tm txn key .NotFound := by
      intro hleft r hr
      rw [hcontents, mem_append, mem_append] at hr
      rcases hr with hr | hr | hr
      · exact hleft r hr
      · exact hhere r hr
      · exact hright r hr
    rw [bind_none]
    refine .ite (fun hhead => ?_) fun hhead => .pure ⟨hs, hfound fun r hr hkey => ?_⟩
    · rcases eq_nil_or_concat' l₁ with rfl | ⟨m, q, rfl⟩
      · rw [hok.back, prev_around hnodup heq]
        refine .pure ⟨hs, hfound fun r hr => ?_⟩
        cases hr
      have hprev : Chain.prev chain p = some q := by
        rw [prev_around hnodup heq]
        exact getLast?_concat ..
      have hnext := next_of_prev hnodup hprev
      have hmemq := (mem_of_next hnext).1
      obtain ⟨lq, hlq, hokq⟩ := hg.shape.leaf chain hchain q hmemq
      have hfirst : low w.pages chain p = some lq.high_key := by
        rw [low_next hnodup hnext, hlq]
        rfl
      rw [hnext] at hokq
      obtain ⟨r, hr, hkeyr⟩ := hok.first _ hfirst
      rw [hr, all_some, beq_iff_eq] at hhead
      have hhigh : cmp lq.high_key key = .eq := eq_trans (eq_symm hkeyr) hhead
      rw [hok.back, hprev]
      refine .bind (fetch_leaf_ends hs (hg.lt hchain hmemq) hlq) ?_
      rintro lq w₁ ⟨hw₁, rfl⟩
      refine .ite (fun _ => ?_) fun hno => absurd ⟨hokq.high_ne_nil, hhigh⟩ hno
      have hsplit : chain = m ++ q :: (p :: l₂) := by
        rw [heq]
        simp
      refine ih m.length (by simp) m (p :: l₂) hsplit hlq ?_ (fun x hx => ?_) _ hw₁ rfl
      · have hle := hg.shape.low_le_next hchain hnext
        rw [hfirst] at hle
        exact hle.trans (le_of_eq hhigh)
      rw [contents_cons hl, mem_append] at hx
      rcases hx with hx | hx
      · exact hhere x hx
      · exact hright x hx
    -- The leaf starts below the key, so every leaf to the left ends below it.
    exfalso
    have hbound := hg.shape.le_low hchain heq hr
    cases hb : low w.pages chain p with
    | none =>
      rw [hb] at hbound
      exact hbound
    | some b =>
      rw [hb] at hbound hlow
      obtain ⟨first, hfirst, hkeyr⟩ := hok.first b hb
      rw [hfirst, all_some, beq_iff_eq] at hhead
      apply hhead
      refine eq_trans hkeyr (eq_of_le_of_le hlow ?_)
      exact le_trans (le_of_eq (eq_symm hkey)) hbound

/-- The search from the leaf whose range holds the key. It never starts over. -/
theorem find_visible_chain_ends (hland : Lands cmp w.pages chain key p l) (txn : Transaction)
    (w' : World) (hs : Still cmp w levels w') :
    Ends (fun n => find_visible_chain cmp n key txn p l) w'
      (fun a w'' => Still cmp w levels w'' ∧ Finds cmp w.pages chain w.tm txn key a)
      (Broke cmp w levels) := by
  obtain ⟨l₁, l₂, heq, -, -, -, hright⟩ := hland.around hg hchain
  exact find_visible_chain_walk hg hchain txn l₁ l₂ heq hland.page hland.above
    (fun r hr hkey => absurd hkey (hright r hr)) w' hs

end Left

end FluxDB.Tree
