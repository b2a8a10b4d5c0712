-- The calls of an index in order, as their callers see them. A lookup says which versions a
-- transaction sees. A write makes its one change and otherwise drops only versions of no use; if it
-- is refused, or a call of the pool or the log fails before the change, it changes nothing else.
import FluxDB.TreeWrites

namespace FluxDB.Tree

open Comparator List Option TransactionManager

variable {cmp : Compare} {w w' w'' : World}
  {levels levels' levels'' : List (List Nat)} {key value : Bytes} {txn : Transaction}

/-! ## New versions -/

/-- What a version with this key and value takes of a page. -/
def recordSize (key value : Bytes) : Nat :=
  Leaf.SLOT_SIZE + Leaf.rec_total_size key.length
    (if value.length ≤ OVERFLOW_THRESHOLD then value.length else OVERFLOW_DESCRIPTOR_SIZE)

/-- A short key, and a record of at most half a leaf. -/
def Modest (key value : Bytes) : Prop := ShortKey key ∧ recordSize key value ≤ HALF_LEAF

instance (key value : Bytes) : Decidable (Modest key value) :=
  inferInstanceAs (Decidable (_ ∧ _))

variable {e : IndexError} {pages stack : List Nat} {p : Nat}

theorem newRow_size (h : pages = [] ↔ value.length ≤ OVERFLOW_THRESHOLD) :
    (newRow key value pages txn).size = recordSize key value := by
  unfold Row.size recordSize Row.stored_len newRow
  by_cases hshort : value.length ≤ OVERFLOW_THRESHOLD
  · rw [if_pos hshort, if_pos (h.mpr hshort)]
  · rw [if_neg hshort, if_neg (mt h.mp hshort)]

theorem newRow_slight (h : pages = [] ↔ value.length ≤ OVERFLOW_THRESHOLD)
    (hmodest : Modest key value) : Slight (newRow key value pages txn) :=
  ⟨hmodest.1, (newRow_size h).trans_le hmodest.2⟩

theorem newRow_intact {d : Durable} (htxn : d.Running txn)
    (hpages : ∀ p ∈ pages, p < d.next_page_id ∧ d.pages p = .other OVERFLOW) :
    Intact d (newRow key value pages txn) where
  creator := by
    change (d.txns.phase txn.txn_id).clog ≠ none
    rw [htxn.2]
    exact nofun
  deleter := .inl rfl
  ended := .inl rfl
  chain := hpages

/-! ## Why a call is refused -/

/-- An open transaction has a version of the key in its hands. -/
structure Blocks (cmp : Compare) (w : World) (levels : List (List Nat)) (key : Bytes)
    (txn : Transaction) (t : Nat) : Prop where
  other : t ≠ txn.txn_id
  active : t ∈ w.tm.active_txns
  version : ∃ r ∈ stored w levels, cmp r.key key = .eq ∧ (r.xmin = t ∨ r.xmax = t)

/-- The call is refused and changes no version. -/
structure Refused (cmp : Compare) (w : World) (levels : List (List Nat)) (key : Bytes)
    (txn : Transaction) (e : IndexError) (w' : World) : Prop where
  structural : ∃ levels', Structural cmp w levels w' levels'
  reason : e = .KeyNotFound ∨ e = .DuplicateKey ∨ e = .WriteConflict ∨
    (∃ size max, e = .KeyTooLarge size max) ∨
    ∃ t, e = .WaitFor t ∧ txn.txn_id < t ∧ Blocks cmp w levels key txn t

theorem Refused.trans (hg : Good cmp w levels) (h : Structural cmp w levels w' levels')
    (h' : Refused cmp w' levels' key txn e w'') : Refused cmp w levels key txn e w'' := by
  obtain ⟨⟨levels'', hs⟩, hreason⟩ := h'
  refine ⟨⟨levels'', h.trans hs⟩, ?_⟩
  rcases hreason with hr | hr | hr | hr | ⟨t, rfl, hlt, hother, hactive, hversion⟩
  · exact .inl hr
  · exact .inr (.inl hr)
  · exact .inr (.inr (.inl hr))
  · exact .inr (.inr (.inr (.inl hr)))
  refine .inr (.inr (.inr (.inr ⟨t, rfl, hlt, hother, ?_, ?_⟩)))
  · rwa [h.tm] at hactive
  · rwa [h.stored_eq hg] at hversion

/-- What is in progress and has stamped a version is active. -/
theorem active_of_in_progress {w : Txns} (hg : w.Good) {s : Snapshot} {t : Nat}
    (hclog : (w.phase t).clog ≠ none) (h : s.is_in_progress t w.tm = true) :
    t ∈ w.tm.active_txns := by
  obtain ⟨h0, hcommitted, haborted, -⟩ := snapshot_is_in_progress_iff.mp h
  rw [Bool.eq_false_iff, Ne, hg.is_committed_iff h0] at hcommitted
  rw [Bool.eq_false_iff, Ne, hg.is_aborted_iff] at haborted
  have hrunning : w.phase t = .running := by
    cases hphase : w.phase t <;> simp_all
  rw [hg.active, hrunning]
  trivial

/-- The check of one version fails because the caller sees it or someone else works on it. -/
theorem check_one_error {tm : TransactionManager} {r : Row}
    (h : check_insert_conflict tm txn [(r.xmin, r.xmax)] = .error e) :
    e = .DuplicateKey ∨ ∃ t, e = .WaitFor t ∧ t ≠ txn.txn_id ∧
      txn.snapshot.is_in_progress t tm = true ∧ (r.xmin = t ∨ r.xmax = t) := by
  unfold check_insert_conflict at h
  split at h
  · next hmin =>
    cases h
    exact .inr ⟨_, rfl, hmin.1, hmin.2, .inl rfl⟩
  split at h
  · cases h
    exact .inl rfl
  split at h
  · next hmax =>
    cases h
    exact .inr ⟨_, rfl, hmax.2.1, hmax.2.2, .inr rfl⟩
  · cases h

theorem Good.intact (hg : Good cmp w levels) {r : Row} (hr : r ∈ stored w levels) :
    Intact w.toDurable r := by
  unfold stored at hr
  obtain ⟨p, -, hrow⟩ := mem_contents.mp hr
  cases hpage : w.pages p with
  | leaf l =>
    rw [hpage] at hrow
    exact hg.sound.rows p l hpage r hrow
  | internal n | other t =>
    rw [hpage] at hrow
    cases hrow

/-- The stamps of a stored version are those of transactions that have begun. -/
theorem Good.stamped (hg : Good cmp w levels) {r : Row} (hr : r ∈ stored w levels) {s : Snapshot}
    {t : Nat} (ht : r.xmin = t ∨ r.xmax = t) (hprogress : s.is_in_progress t w.tm = true) :
    t ∈ w.tm.active_txns := by
  refine active_of_in_progress hg.sound.txns ?_ hprogress
  rcases ht with rfl | rfl
  · exact (hg.intact hr).creator
  refine (hg.intact hr).deleter.resolve_left fun h0 => ?_
  exact (snapshot_is_in_progress_iff.mp hprogress).1 h0

/-! ## Insert -/

/-- Leaves keep their range and their versions along a structural part of a call. -/
theorem Structural.lands (hg : Good cmp w levels) (h : Structural cmp w levels w' levels')
    {leaves : List Nat} (hleaves : levels'[0]? = some leaves) {l' : LeafNode}
    (hland : Lands cmp w'.pages leaves key p l') : ∃ l, levels[0]? = some leaves ∧
      Lands cmp w.pages leaves key p l ∧ l'.rows = l.rows ∧ l'.high_key = l.high_key ∧
      l'.prev = l.prev := by
  have hchain : levels[0]? = some leaves := h.chain.symm.trans hleaves
  obtain ⟨l, hl, -⟩ := hg.shape.leaf leaves hchain p hland.mem
  obtain ⟨b, hb⟩ := h.leaf p l hl
  cases hland.page.symm.trans hb
  obtain ⟨lv, hlv, hkeep⟩ := h.grows 0 leaves hchain
  rw [hleaves] at hlv
  cases hlv
  refine ⟨l, hchain, ⟨hland.mem, hl, ?_, hland.inside⟩, rfl, rfl, rfl⟩
  rw [← (hkeep p hland.mem).2]
  exact hland.above

/-- The chosen half of a split of the leaf whose range holds the key has no room; before that the
call has left these versions. -/
structure NoRoom (cmp : Compare) (w : World) (levels : List (List Nat)) (key : Bytes)
    (size : Nat) (rows : List Row) (e : IndexError) (w' : World) : Prop where
  error : e = .Page
  room : ∃ leaves p l, levels[0]? = some leaves ∧ Lands cmp w.pages leaves key p l ∧
    ∀ splits, ¬ Admits cmp key size l.high_key splits (live w.tm w.tm.global_xmin l.rows)
  advances : ∃ levels', Advances cmp w levels w' levels' ∧ Pruned w.tm rows (stored w' levels')

/-- Every leaf whose range holds the key keeps its first key when it is compacted. -/
def KeepsFor (cmp : Compare) (w : World) (levels : List (List Nat))
    (key : Bytes) : Prop :=
  ∀ leaves p l, levels[0]? = some leaves → Lands cmp w.pages leaves key p l → Keeps cmp w.tm l

section Calls

variable [Std.TransCmp cmp]

/-- The last part of an insert stores the version. -/
theorem insert_at_ends (hg : Good cmp w levels) {leaves : List Nat}
    (hleaves : levels[0]? = some leaves) {l : LeafNode} (hland : Lands cmp w.pages leaves key p l)
    (hstack : StackOk cmp w.pages levels 1 stack (low w.pages leaves p)) (htxn : w.Running txn)
    (hmodest : Modest key value) (hkeeps : Keeps cmp w.tm l) :
    Ends (fun n => insert_at cmp n key value txn p stack) w
      (fun _ w' => ∃ levels' pages, Stores cmp w levels (newRow key value pages txn) w' levels')
      (fun e w' => Failed cmp w levels e w' ∨
        NoRoom cmp w levels key (recordSize key value) (stored w levels) e w') := by
  unfold insert_at
  refine .seq (materialize_value_ends hg value) (fun _ _ hb => .inl (hb.failed hg)) ?_
  rintro pages w₁ ⟨hw₁, hlong, hpages⟩
  obtain ⟨b, hl₁⟩ := hw₁.leaf p l hland.page
  have htxn₁ : w₁.Running txn := by
    unfold Durable.Running
    rw [hw₁.txns]
    exact htxn
  have hlow := hw₁.toOnward.low_eq hleaves hland.mem
  have hlanding : Landing cmp w₁ levels leaves (newRow key value pages txn) p
      { l with incomplete_split := b } stack := by
    refine ⟨hw₁.good, hleaves, ⟨hland.mem, hl₁, ?_, hland.inside⟩, newRow_slight hlong hmodest,
      newRow_intact htxn₁ hpages, ?_⟩
    · rw [hlow]
      exact hland.above
    rw [hlow]
    exact hstack.grows hw₁.grows
  have hpruned := (Pruned.refl w.tm _).of_eq (hw₁.stored_eq hg)
  have hadv := hw₁.advances hg
  apply bind_held hl₁
  refine .ite (fun hfit => ?_) fun hfull => ?_
  · refine (place_ends hw₁.good hleaves hland.mem hl₁ hlanding.slight hlanding.lands.above
      hlanding.below hlanding.intact).imp ?_ ?_
    · rintro _ w₂ ⟨-, hstores⟩
      exact ⟨levels, pages, Stores.after hw₁.toOnward hpruned hstores⟩
    rintro e w₂ (hfailed | ⟨-, -, hno⟩)
    · exact .inl (hfailed.trans hadv)
    · exact absurd hfit hno
  have hkeeps₁ : Keeps cmp w₁.tm { l with incomplete_split := b } := by
    rw [hw₁.tm]
    exact hkeeps
  refine ((split_and_insert_ends hlanding hkeeps₁ hfull).before hadv hpruned).imp ?_ ?_
  · rintro _ w₂ ⟨levels₂, hstores⟩
    exact ⟨levels₂, pages, hstores⟩
  rintro e w₂ (hfailed | hover)
  · exact .inl hfailed
  have hroom := hover.room
  rw [newRow_size hlong, hw₁.tm] at hroom
  exact .inr ⟨hover.error, ⟨leaves, p, l, hleaves, hland, hroom⟩, hover.advances⟩

omit [Std.TransCmp cmp] in
/-- Waiting for an open transaction that has a version of the key in its hands: the caller fails, or
it sleeps. -/
theorem wait_for_txn_ends (hg : Good cmp w levels) {t : Nat}
    (hblocks : Blocks cmp w levels key txn t) {α : Type} {x : Nat → Act α} {Q : α → World → Prop} :
    Ends (fun n => (do
        wait_for_txn t txn.txn_id
        x n : Act α)) w Q (fun e w' => Refused cmp w levels key txn e w') := by
  have hstill : ∃ levels', Structural cmp w levels w levels' := ⟨levels, .refl hg⟩
  refine .bind (R := fun _ _ => False) ?_ nofun
  unfold wait_for_txn
  apply Ends.bind_read
  refine .ite (fun _ => ?_) fun hle => ?_
  · exact .fail ⟨hstill, .inr (.inr (.inl rfl))⟩
  have hlt := Nat.lt_of_le_of_ne (Nat.not_lt.mp hle) hblocks.other.symm
  rw [if_pos hblocks.active]
  exact .fail ⟨hstill, .inr (.inr (.inr (.inr ⟨t, rfl, hlt, hblocks⟩)))⟩

theorem insert_loop_ends (hg : Good cmp w levels) (htxn : w.Running txn)
    (hmodest : Modest key value) (hkeeps : KeepsFor cmp w levels key) :
    Ends (fun n => insert_loop cmp n key value txn) w
      (fun _ w' => Verdict cmp w.tm txn key (stored w levels) (.ok ()) ∧
        ∃ levels' pages, Stores cmp w levels (newRow key value pages txn) w' levels')
      (fun e w' => Failed cmp w levels e w' ∨
        NoRoom cmp w levels key (recordSize key value) (stored w levels) e w' ∨
        Refused cmp w levels key txn e w') := by
  refine .succ rfl ?_
  unfold insert_loop
  apply Ends.bind_read
  refine .seq (descend_finishing_ends hg key) (fun _ _ hb => .inl (hb.failed hg)) ?_
  rintro ⟨leaf_pid, stack⟩ w₁ ⟨levels₁, leaves, hw₁⟩
  refine .seq (move_right_alive_ends hw₁.good hw₁.level hw₁.mem hw₁.above w₁ (.refl hw₁.good))
    (fun _ _ hb => .inl ((hb.trans hw₁.toStructural).failed hg)) ?_
  rintro _ w₂ ⟨p, l, rfl, hw₂, hland, hle⟩
  dsimp only
  refine .seq (check_conflicts_ends hw₁.good hw₁.level hland txn w₂ hw₂)
    (fun _ _ hb => .inl ((hb.trans hw₁.toStructural).failed hg)) ?_
  rintro v w₃ ⟨hw₃, hverdict⟩
  have hs₃ := hw₁.toStructural.trans hw₃.toStructural
  have hpages₃ : w₃.pages = w₁.pages := congrArg Durable.pages hw₃.same
  have hstored : stored w₃ levels₁ = contents w₁.pages leaves := by
    unfold stored
    rw [hpages₃, hw₁.level]
    rfl
  cases v with
  | ok _ =>
    have hland₃ : Lands cmp w₃.pages leaves key p l := by
      rw [hpages₃]
      exact hland
    obtain ⟨l₀, hchain₀, hland₀, hrows, -, hprev⟩ := hs₃.lands hg hw₁.level hland₃
    have hkeeps₃ : Keeps cmp w₃.tm l := by
      have hkept := hkeeps leaves p l₀ hchain₀ hland₀
      unfold Keeps at hkept ⊢
      rw [hs₃.tm, hrows, hprev]
      exact hkept
    have htxn₃ : w₃.Running txn := by
      unfold Durable.Running
      rw [hs₃.txns]
      exact htxn
    refine (insert_at_ends hw₃.good hw₁.level hland₃ (by
      rw [hpages₃]
      exact hw₁.stack.mono hle) htxn₃ hmodest hkeeps₃).imp ?_ ?_
    · rintro _ w₄ ⟨levels₄, pages, hstores⟩
      refine ⟨?_, levels₄, pages, Stores.after hs₃.toOnward
        ((Pruned.refl _ _).of_eq (hs₃.stored_eq hg)) hstores⟩
      rw [← hs₃.stored_eq hg, hstored, ← hw₁.tm]
      exact hverdict
    rintro e w₄ (hfailed | ⟨rfl, ⟨leaves', p', l', hleaves', hland', hroom⟩, levels₄, hadv,
      hpruned⟩)
    · exact .inl (hfailed.trans (hs₃.advances hg))
    obtain ⟨l'', hchain'', hland'', hrows', hhigh, -⟩ := hs₃.lands hg hleaves' hland'
    rw [hs₃.tm, hs₃.stored_eq hg] at hpruned
    rw [hs₃.tm, hrows', hhigh] at hroom
    exact .inr (.inl ⟨rfl, ⟨leaves', p', l'', hchain'', hland'', hroom⟩, levels₄,
      (hs₃.advances hg).trans hadv, hpruned⟩)
  | error e =>
    obtain ⟨r, hr, hkey, hcheck⟩ := hverdict
    rw [← hstored] at hr
    rw [← hw₃.tm] at hcheck
    rcases check_one_error hcheck with rfl | ⟨t, rfl, hother, hprogress, hstamp⟩
    · exact .fail (.inr (.inr ⟨⟨levels₁, hs₃⟩, .inr (.inl rfl)⟩))
    have hblocks : Blocks cmp w₃ levels₁ key txn t :=
      ⟨hother, hw₃.good.stamped hr hstamp hprogress, r, hr, hkey, hstamp⟩
    exact (wait_for_txn_ends hw₃.good hblocks).imp (fun _ _ h => h) fun _ _ href =>
      .inr (.inr (href.trans hg hs₃))

theorem insert_ends (hg : Good cmp w levels) (htxn : w.Running txn) (hmodest : Modest key value)
    (hkeeps : KeepsFor cmp w levels key) :
    Ends (fun n => insert cmp n key value txn) w
      (fun _ w' => Verdict cmp w.tm txn key (stored w levels) (.ok ()) ∧
        ∃ levels' pages, Stores cmp w levels (newRow key value pages txn) w' levels')
      (fun e w' => Failed cmp w levels e w' ∨
        NoRoom cmp w levels key (recordSize key value) (stored w levels) e w' ∨
        Refused cmp w levels key txn e w') := by
  unfold insert
  refine .ite (fun _ => ?_) fun _ => insert_loop_ends hg htxn hmodest hkeeps
  exact .fail (.inr (.inr ⟨⟨levels, .refl hg⟩,
    .inr (.inr (.inr (.inl ⟨_, _, rfl⟩)))⟩))

/-! ## The way to a leaf -/

/-- The way down from the root, as lookups, updates and deletes take it. -/
theorem descend_root_ends (hg : Good cmp w levels) (key : Bytes) :
    Ends (fun n => descend cmp n key w.root []) w
      (fun a w' => Still cmp w levels w' ∧ ∃ leaves, levels[0]? = some leaves ∧ a.1 ∈ leaves ∧
        LowLe cmp (low w.pages leaves a.1) (some key) ∧
        StackOk cmp w.pages levels 1 a.2 (low w.pages leaves a.1))
      (Broke cmp w levels) := by
  obtain ⟨top, htop, hhead⟩ := hg.sound.root
  rw [getLast?_eq_getElem?] at htop
  have hlow : low w.pages top _ = none := low_head (hg.shape.nodup _ top htop) hhead
  exact descend_ends hg htop (mem_of_mem_head? hhead) (by rw [hlow]; trivial) [] trivial w
    (.refl hg)

/-! ## Lookups -/

/-- What a lookup may return: the value of a visible version, or nothing if there is none. -/
def Answers (cmp : Compare) (rows : List Row) (tm : TransactionManager)
    (txn : Transaction) (key : Bytes) : Option Bytes → Prop
  | some v => ∃ r ∈ rows, cmp r.key key = .eq ∧ txn.is_visible r.xmin r.xmax tm = true ∧ r.value = v
  | none => ∀ r ∈ rows, cmp r.key key = .eq → txn.is_visible r.xmin r.xmax tm = false

theorem get_ends (hg : Good cmp w levels) (key : Bytes) (txn : Transaction) :
    Ends (fun n => get cmp n key txn) w
      (fun a w' => Still cmp w levels w' ∧ Answers cmp (stored w levels) w.tm txn key a)
      (Broke cmp w levels) := by
  refine .succ rfl ?_
  unfold get
  apply Ends.bind_read
  refine .bind (descend_root_ends hg key) ?_
  rintro ⟨leaf_pid, stack⟩ w₁ ⟨hw₁, leaves, hleaves, hmem, hlow, -⟩
  have hstored : stored w levels = contents w.pages leaves := by
    unfold stored
    rw [hleaves]
    rfl
  refine .bind (move_right_ends hg hleaves hmem hlow w₁ hw₁) ?_
  rintro ⟨p, l⟩ w₂ ⟨hw₂, hland, -⟩
  refine .bind (find_visible_chain_ends hg hleaves hland txn w₂ hw₂) ?_
  rintro found w₃ ⟨hw₃, hfound⟩
  rw [hstored]
  cases found with
  | Found q slot r =>
    obtain ⟨hq, lq, hlq, hr, hkey, hvisible⟩ := hfound
    have hrow := mem_of_getElem? hr
    unfold reify_value
    refine .bind (R := fun a w' => Still cmp w levels w' ∧ a = r.value) ?_ ?_
    · exact .bind (collect_overflow_page_ids_ends hw₃ (hg.sound.rows q lq hlq r hrow).chain)
        fun _ w₄ hw₄ => .pure ⟨hw₄, rfl⟩
    rintro _ w₄ ⟨hw₄, rfl⟩
    refine .pure ⟨hw₄, r, mem_contents.mpr ⟨q, hq, ?_⟩, hkey, hvisible, rfl⟩
    rw [hlq]
    exact hrow
  | NotFound => exact .pure ⟨hw₃, hfound⟩
  | Restart => exact hfound.elim

/-! ## Delete -/

/-- The leaf whose range holds the key, and a visible version that the caller may stamp. -/
structure Claimed (cmp : Compare) (d : Durable) (leaves : List Nat) (key : Bytes)
    (txn : Transaction) (landing vis slot : Nat) (ll l : LeafNode) (r : Row) : Prop where
  lands : Lands cmp d.pages leaves key landing ll
  mem : vis ∈ leaves
  page : d.pages vis = .leaf l
  row : l.rows[slot]? = some r
  key : cmp r.key key = .eq
  visible : txn.is_visible r.xmin r.xmax d.tm = true
  clear : check_write_conflict d.tm txn r.xmax = .ok ()

/-- The check of a visible version fails because someone else deletes or has deleted it. -/
theorem check_write_conflict_error {tm : TransactionManager} {t : Nat}
    (h : check_write_conflict tm txn t = .error e) :
    e = .WriteConflict ∨ e = .WaitFor t ∧ t ≠ txn.txn_id ∧
      txn.snapshot.is_in_progress t tm = true := by
  unfold check_write_conflict at h
  split_ifs at h with _ hself hprogress
  · cases h
    exact .inr ⟨rfl, hself, hprogress⟩
  cases h
  exact .inl rfl

theorem claim_visible_ends (hg : Good cmp w levels) {leaves : List Nat}
    (hleaves : levels[0]? = some leaves) (hp : p ∈ leaves)
    (hlow : LowLe cmp (low w.pages leaves p) (some key)) (txn : Transaction)
    (hs : Still cmp w levels w') :
    Ends (fun n => claim_visible cmp n key txn p) w'
      (fun a w'' => Still cmp w levels w'' ∧ LowLe cmp (low w.pages leaves p)
          (low w.pages leaves a.1) ∧
        ∃ ll l r, Claimed cmp w.toDurable leaves key txn a.1 a.2.1 a.2.2 ll l r)
      (fun e w'' => Broke cmp w levels e w'' ∨ Refused cmp w levels key txn e w'') := by
  refine .succ rfl ?_
  unfold claim_visible
  refine .seq (move_right_ends hg hleaves hp hlow w' hs) (fun _ _ h => .inl h) ?_
  rintro ⟨landing, ll⟩ w₁ ⟨hw₁, hland, hle⟩
  refine .seq (find_visible_chain_ends hg hleaves hland txn w₁ hw₁) (fun _ _ h => .inl h) ?_
  rintro found w₂ ⟨hw₂, hfound⟩
  cases found with
  | Restart => exact hfound.elim
  | NotFound => exact .fail (.inr ⟨⟨levels, hw₂.toStructural⟩, .inl rfl⟩)
  | Found q slot r =>
    obtain ⟨hq, l, hl, hr, hkey, hvisible⟩ := hfound
    dsimp only
    apply Ends.bind_read
    cases hcheck : check_write_conflict w₂.tm txn r.xmax with
    | ok _ =>
      rw [hw₂.tm] at hcheck
      exact .pure ⟨hw₂, hle, ll, l, r, hland, hq, hl, hr, hkey, hvisible, hcheck⟩
    | error e =>
      have hstored : r ∈ stored w₂ levels := by
        rw [hw₂.toStructural.stored_eq hg]
        unfold stored
        rw [hleaves]
        refine mem_contents.mpr ⟨q, hq, ?_⟩
        rw [hl]
        exact mem_of_getElem? hr
      rcases check_write_conflict_error hcheck with rfl | ⟨rfl, hother, hprogress⟩
      · exact .fail (.inr ⟨⟨levels, hw₂.toStructural⟩, .inr (.inr (.inl rfl))⟩)
      have hblocks : Blocks cmp w₂ levels key txn r.xmax :=
        ⟨hother, hw₂.good.stamped hstored (.inr rfl) hprogress, r, hstored, hkey, .inr rfl⟩
      exact (wait_for_txn_ends hw₂.good hblocks).imp (fun _ _ h => h) fun _ _ href =>
        .inr (href.trans hg hw₂.toStructural)

/-- Who sees a version may stamp it: its creator has ended or is the caller. -/
theorem Intact.stamp {d : Durable} {r : Row} (h : Intact d r) (hg : d.txns.Good)
    (htxn : d.Running txn) (hvisible : txn.is_visible r.xmin r.xmax d.tm = true) :
    Intact d { r with xmax := txn.txn_id } := by
  refine ⟨h.creator, .inr ?_, .inr ?_, h.chain⟩
  · rw [htxn.2]
    exact nofun
  obtain ⟨-, hown | hsees⟩ := transaction_is_visible_iff.mp hvisible
  · exact .inl hown.symm
  rcases (hg.sees_iff htxn.1 _).mp (is_visible_iff.mp hsees).1 with h0 | ⟨-, -, hphase⟩
  · exact absurd (by rw [h0, (hg.born 0).mpr (.inl rfl)]; rfl) h.creator
  · exact .inr (.inl (by rw [hphase]; rfl))

/-- A version of the key that the caller sees and may stamp stands here in the list. -/
structure Picked (cmp : Compare) (tm : TransactionManager) (key : Bytes) (txn : Transaction)
    (rows front : List Row) (r : Row) (back : List Row) : Prop where
  rows : rows = front ++ r :: back
  key : cmp r.key key = .eq
  visible : txn.is_visible r.xmin r.xmax tm = true
  clear : check_write_conflict tm txn r.xmax = .ok ()

/-- One visible version of the key is stamped, and nothing else changes. -/
structure Deletes (cmp : Compare) (w : World) (levels : List (List Nat)) (key : Bytes)
    (txn : Transaction) (w' : World) : Prop extends Onward cmp w levels w' levels where
  written : w'.written = true
  rows : ∃ front r back, Picked cmp w.tm key txn (stored w levels) front r back ∧
    stored w' levels = front ++ { r with xmax := txn.txn_id } :: back

theorem delete_ends (hg : Good cmp w levels) (htxn : w.Running txn) (key : Bytes) :
    Ends (fun n => delete cmp n key txn) w (fun _ w' => Deletes cmp w levels key txn w')
      (fun e w' => Broke cmp w levels e w' ∨ Refused cmp w levels key txn e w') := by
  unfold delete
  apply Ends.bind_read
  refine .seq (descend_root_ends hg key) (fun _ _ h => .inl h) ?_
  rintro ⟨leaf_pid, stack⟩ w₁ ⟨hw₁, leaves, hleaves, hmem, hlow, -⟩
  refine .bind (claim_visible_ends hg hleaves hmem hlow txn hw₁) ?_
  rintro ⟨landing, vis, slot⟩ w₂ ⟨hw₂, -, ll, l, r, hclaim⟩
  have hl₂ : w₂.pages vis = .leaf l := by
    rw [hw₂.same]
    exact hclaim.page
  have hstamp := (hg.sound.rows vis l hclaim.page r (mem_of_getElem? hclaim.row)).stamp
    hg.sound.txns htxn hclaim.visible
  rw [← hw₂.same] at hstamp
  refine (set_xmax_ends hw₂.good hleaves hclaim.mem hl₂ hclaim.row hstamp).imp ?_ fun _ _ h =>
    .inl (h.trans hw₂.toStructural)
  intro _ w₃ hw₃
  obtain ⟨front, back, hbefore, hafter⟩ := hw₃.rows
  rw [hw₂.toStructural.stored_eq hg] at hbefore
  exact { hw₂.toOnward.trans hw₃.toOnward with
    written := hw₃.written
    rows := ⟨front, r, back, ⟨hbefore, hclaim.key, hclaim.visible, hclaim.clear⟩, hafter⟩ }

end Calls

/-! ## Update -/

section Restamp

variable {tm : TransactionManager} {rows rows' : List Row} {r : Row} {t : Nat}

/-- The rows with a stamp on one of them, or as they are. -/
def Restamped (r : Row) (t : Nat) (rows rows' : List Row) : Prop :=
  rows' = rows ∨ ∃ front back, rows = front ++ r :: back ∧
    rows' = front ++ { r with xmax := t } :: back

theorem Restamped.live (h : Restamped r t rows rows') (hr : ¬ Vacuumable tm r)
    (ht : ¬ Vacuumable tm { r with xmax := t }) :
    Restamped r t (live tm tm.global_xmin rows) (live tm tm.global_xmin rows') := by
  rcases h with rfl | ⟨front, back, rfl, rfl⟩
  · exact .inl rfl
  refine .inr ⟨Tree.live tm tm.global_xmin front, Tree.live tm tm.global_xmin back, ?_, ?_⟩
  · unfold Tree.live
    rw [filter_append, filter_cons_of_pos]
    rw [Bool.not_eq_true', ← Bool.not_eq_true]
    exact hr
  unfold Tree.live
  rw [filter_append, filter_cons_of_pos]
  rw [Bool.not_eq_true', ← Bool.not_eq_true]
  exact ht

theorem Restamped.mem (h : Restamped r t rows rows') {x : Row} (hx : x ∈ rows) :
    x ∈ rows' ∨ x = r ∧ { r with xmax := t } ∈ rows' := by
  rcases h with rfl | ⟨front, back, rfl, rfl⟩
  · exact .inl hx
  rw [mem_append, mem_cons] at hx
  rcases hx with hx | hx | hx
  · exact .inl (mem_append_left _ hx)
  · exact .inr ⟨hx, mem_append_right _ mem_cons_self⟩
  · exact .inl (mem_append_right _ (mem_cons_of_mem _ hx))

theorem Restamped.map {α : Type} (f : Row → α) (hf : f { r with xmax := t } = f r)
    (h : Restamped r t rows rows') : rows'.map f = rows.map f := by
  rcases h with rfl | ⟨front, back, rfl, rfl⟩
  · rfl
  · simp only [map_append, map_cons, hf]

/-- A stamp on a version that stays of use does not cost the leaf its first key. -/
theorem Restamped.keeps {l l' : LeafNode} (h : Restamped r t l.rows l'.rows)
    (hprev : l'.prev = l.prev) (ht : ¬ Vacuumable tm { r with xmax := t })
    (hkeeps : Keeps cmp tm l) : Keeps cmp tm l' := by
  intro hne
  rw [hprev] at hne
  obtain ⟨x, hx, hlive, hkey⟩ := hkeeps hne
  have hheads := congrArg List.head? (h.map Row.key rfl)
  rw [head?_map, head?_map] at hheads
  have hfirst : ∀ first ∈ l'.rows.head?, cmp x.key first.key = .eq := by
    intro first hfirst
    rw [mem_def.mp hfirst, map_some] at hheads
    obtain ⟨first₀, hfirst₀, heq⟩ := map_eq_some_iff.mp hheads.symm
    rw [← heq]
    exact hkey first₀ hfirst₀
  rcases h.mem hx with hx' | ⟨rfl, hx'⟩
  · exact ⟨x, hx', hlive, hfirst⟩
  · exact ⟨_, hx', ht, hfirst⟩

theorem admits_congr {hk : Bytes} {size : Nat} (hkeys : rows'.map Row.key = rows.map Row.key)
    (hsizes : rows'.map Row.size = rows.map Row.size) (splits : Nat) :
    Admits cmp key size hk splits rows' ↔ Admits cmp key size hk splits rows := by
  have hfits : ∀ {hk : Bytes} {rows rows' : List Row},
      rows'.map Row.size = rows.map Row.size → (Fits hk rows' size ↔ Fits hk rows size) := by
    intro hk rows rows' h
    unfold Fits
    rw [h]
  induction splits generalizing rows rows' with
  | zero => exact hfits hsizes
  | succ splits ih =>
    unfold Admits
    rw [hkeys]
    have hat := congrArg (fun ks => ks[Leaf.split_point cmp (rows.map Row.key)]?) hkeys
    simp only [getElem?_map] at hat
    refine or_congr (hfits hsizes) ?_
    cases hs : rows[Leaf.split_point cmp (rows.map Row.key)]? with
    | none =>
      rw [hs] at hat
      rw [map_eq_none_iff.mp hat]
    | some s =>
      rw [hs] at hat
      obtain ⟨s', hs', hkey⟩ := map_eq_some_iff.mp hat
      rw [hs']
      dsimp only
      rw [hkey]
      split
      · exact hfits (by rw [map_take, map_take, hsizes])
      exact ih (by rw [map_drop, map_drop, hkeys]) (by rw [map_drop, map_drop, hsizes])

end Restamp

/-! ## Versions that stay of use -/

theorem not_vacuumable {tm : TransactionManager} {r : Row}
    (hmin : tm.settled_status r.xmin ≠ .Aborted)
    (hmax : r.xmax = 0 ∨ tm.settled_status r.xmax ≠ .Committed) : ¬ Vacuumable tm r := by
  unfold Vacuumable is_vacuumable
  rw [if_neg hmin, if_pos hmax]
  exact nofun

section Running

variable {d : Durable}

section

variable (hg : d.txns.Good) (htxn : d.Running txn)

include hg htxn

theorem Durable.Running.global_xmin_le : d.tm.global_xmin ≤ txn.snapshot.xmin := by
  apply Txns.global_xmin_le_of_live hg htxn.1
  change txn.txn_id ∈ d.txns.tm.active_txns
  rw [hg.active, htxn.2]
  trivial

theorem settled_status_running : d.tm.settled_status txn.txn_id = .Active := by
  have hmin := htxn.global_xmin_le hg
  obtain ⟨hholder, hphase⟩ := htxn
  have hreg := (hg.holder _ hholder).registered
  obtain ⟨hpos, -, hmem, -⟩ := hreg
  have hle := (hg.holder _ hholder).active_ge _ hmem
  have hcommitted : d.tm.is_committed txn.txn_id ≠ true := by
    rw [Ne, hg.is_committed_iff hpos.ne', hphase]
    simp
  have haborted : d.tm.is_aborted txn.txn_id ≠ true := by
    rw [Ne, hg.is_aborted_iff, hphase]
    simp
  unfold settled_status
  rw [if_neg hcommitted, if_neg haborted, if_neg (Nat.not_lt.mpr (hmin.trans hle))]

/-- The creator of a visible version was not rolled back. -/
theorem settled_status_of_visible {xmin xmax : Nat} (h : txn.is_visible xmin xmax d.tm = true) :
    d.tm.settled_status xmin ≠ .Aborted := by
  obtain ⟨-, rfl | hsees⟩ := transaction_is_visible_iff.mp h
  · rw [settled_status_running hg htxn]
    exact nofun
  intro hsettled
  have haborted : d.tm.is_aborted xmin = true := by
    unfold settled_status at hsettled
    split_ifs at hsettled with hc ha
    exact ha
  obtain ⟨hcommitted, -⟩ := is_visible_iff.mp hsees
  rw [snapshot_is_committed_iff] at hcommitted
  rcases hcommitted with rfl | ⟨-, -, hno⟩
  · have hzero := (hg.is_aborted_iff 0).mp haborted
    rw [(hg.born 0).mpr (.inl rfl)] at hzero
    simp at hzero
  rw [haborted] at hno
  cases hno

/-- A version that a running transaction may stamp is of use, and so is the stamped one. -/
theorem not_vacuumable_of_claimed {r : Row} (hvisible : txn.is_visible r.xmin r.xmax d.tm = true)
    (hclear : check_write_conflict d.tm txn r.xmax = .ok ()) :
    ¬ Vacuumable d.tm r ∧ ¬ Vacuumable d.tm { r with xmax := txn.txn_id } := by
  have hmin := settled_status_of_visible hg htxn hvisible
  refine ⟨not_vacuumable hmin ?_, not_vacuumable hmin (.inr ?_)⟩
  · rcases check_write_conflict_ok_iff.mp hclear with h0 | hself | ⟨-, haborted⟩
    · exact .inl h0
    · exact absurd hself (transaction_is_visible_iff.mp hvisible).1
    right
    have hphase := (hg.is_aborted_iff r.xmax).mp haborted
    have h0 : r.xmax ≠ 0 := by
      intro h0
      rw [h0, (hg.born 0).mpr (.inl rfl)] at hphase
      simp at hphase
    have hcommitted : d.tm.is_committed r.xmax ≠ true := by
      rw [Ne, hg.is_committed_iff h0]
      rcases hphase with hphase | hphase <;> rw [hphase] <;> simp
    unfold settled_status
    rw [if_neg hcommitted, if_pos haborted]
    exact nofun
  rw [settled_status_running hg htxn]
  exact nofun

end

end Running

/-! ## The whole update -/

/-- A visible version of the key is stamped and a new one is stored. -/
structure Updates (cmp : Compare) (w : World) (levels : List (List Nat)) (key value : Bytes)
    (txn : Transaction) (w' : World) (levels' : List (List Nat)) : Prop
    extends Onward cmp w levels w' levels' where
  written : w'.written = true
  rows : ∃ front r back pages rest, Picked cmp w.tm key txn (stored w levels) front r back ∧
    Pruned w.tm (front ++ { r with xmax := txn.txn_id } :: back) rest ∧
    (stored w' levels').Perm (newRow key value pages txn :: rest)

/-- The end of an update whose new version found no room: the old one is stamped. -/
def StampedOnly (cmp : Compare) (w : World) (levels : List (List Nat))
    (key value : Bytes) (txn : Transaction) (e : IndexError) (w' : World) : Prop :=
  ∃ front r back, Picked cmp w.tm key txn (stored w levels) front r back ∧
    NoRoom cmp w levels key (recordSize key value)
      (front ++ { r with xmax := txn.txn_id } :: back) e w'

section Update

variable {leaves : List Nat} {landing vis slot : Nat} {ll l : LeafNode} {r : Row}

/-- The landing page once the old version is stamped: it may be the page of that version. -/
theorem Stamps.landed {t : Nat} (hll : w.pages landing = .leaf ll) (hl : w.pages vis = .leaf l)
    (hrow : l.rows[slot]? = some r) (h : Stamps cmp w levels vis slot t l r w') :
    ∃ l', w'.pages landing = .leaf l' ∧ l'.high_key = ll.high_key ∧ l'.prev = ll.prev ∧
      Restamped r t ll.rows l'.rows := by
  by_cases heq : landing = vis
  · subst heq
    cases hll.symm.trans hl
    exact ⟨_, h.leaf, rfl, rfl, .inr (set_xmax_rows hrow t)⟩
  refine ⟨ll, ?_, rfl, rfl, .inl rfl⟩
  rw [h.same landing heq]
  exact hll

theorem Updates.after {levels' : List (List Nat)} (hg : Good cmp w levels)
    (hs : Still cmp w levels w') (h : Updates cmp w' levels key value txn w'' levels') :
    Updates cmp w levels key value txn w'' levels' := by
  obtain ⟨front, r, back, pages, rest, hpicked, hpruned, hperm⟩ := h.rows
  rw [hs.toStructural.stored_eq hg, hs.tm] at hpicked
  rw [hs.tm] at hpruned
  exact { hs.toOnward.trans h.toOnward with
    written := h.written
    rows := ⟨front, r, back, pages, rest, hpicked, hpruned, hperm⟩ }

theorem StampedOnly.after (hg : Good cmp w levels) (hs : Still cmp w levels w')
    (h : StampedOnly cmp w' levels key value txn e w'') :
    StampedOnly cmp w levels key value txn e w'' := by
  obtain ⟨front, r, back, hpicked, he, hroom, levels', hadv, hpruned⟩ := h
  rw [hs.toStructural.stored_eq hg, hs.tm] at hpicked
  rw [hs.tm] at hpruned
  rw [hs.same] at hroom
  exact ⟨front, r, back, hpicked, he, hroom, levels',
    (hs.toStructural.advances hg).trans hadv, hpruned⟩

variable [Std.TransCmp cmp]

/-- The new version goes on the landing page, also if the old one lies on another. -/
theorem insertion_page_ends (hg : Good cmp w levels) (hleaves : levels[0]? = some leaves)
    (hland : Lands cmp w.pages leaves key landing ll) (vis : Nat) :
    Ends (fun n => insertion_page cmp n key landing vis) w
      (fun a w' => Still cmp w levels w' ∧ a = landing)
      (Broke cmp w levels) := by
  unfold insertion_page
  refine .ite (fun _ => ?_) fun heq => .pure ⟨.refl hg, not_not.mp heq⟩
  refine .bind (move_right_ends hg hleaves hland.mem hland.above w (.refl hg)) ?_
  rintro ⟨p, l'⟩ w₁ ⟨hw₁, hland', -⟩
  exact .pure ⟨hw₁, (hland.unique hg hleaves hland').symm⟩

theorem insert_version_ends (h : Landing cmp w levels leaves r landing ll stack)
    (hkeeps : Keeps cmp w.tm ll) :
    SplitEnd cmp (fun n => insert_version cmp n r landing stack) w w levels r ll.high_key
      (live w.tm w.tm.global_xmin ll.rows) := by
  unfold insert_version
  apply bind_held h.lands.page
  refine .ite (fun _ => ?_) fun hfull => split_and_insert_ends h hkeeps hfull
  exact (place_logged_ends h.good h.level h.lands.mem h.lands.page h.slight h.lands.above h.below
    h.intact).imp (fun _ _ hs => ⟨levels, hs⟩) fun _ _ hf => .inl hf

/-- The part of an update behind the search. -/
theorem update_claimed_ends (hg : Good cmp w levels) (hleaves : levels[0]? = some leaves)
    (hclaim : Claimed cmp w.toDurable leaves key txn landing vis slot ll l r)
    (hstack : StackOk cmp w.pages levels 1 stack (low w.pages leaves landing))
    (htxn : w.Running txn) (hmodest : Modest key value) (hkeeps : Keeps cmp w.tm ll) :
    Ends (fun n => (do
        let pages ← materialize_value value
        set_xmax vis slot txn.txn_id
        let pid ← insertion_page cmp n key landing vis
        insert_version cmp n (newRow key value pages txn) pid stack : Act Unit)) w
      (fun _ w' => ∃ levels', Updates cmp w levels key value txn w' levels')
      (fun e w' => Failed cmp w levels e w' ∨ StampedOnly cmp w levels key value txn e w') := by
  obtain ⟨hlive, hlive'⟩ := not_vacuumable_of_claimed hg.sound.txns htxn hclaim.visible hclaim.clear
  refine .seq (materialize_value_ends hg value) (fun _ _ hb => .inl (hb.failed hg)) ?_
  rintro pages w₁ ⟨hw₁, hlong, hpages⟩
  obtain ⟨b, hl₁⟩ := hw₁.leaf vis l hclaim.page
  obtain ⟨b', hll₁⟩ := hw₁.leaf landing ll hclaim.lands.page
  have hstamp := hw₁.toOnward.intact ((hg.sound.rows vis l hclaim.page r
    (mem_of_getElem? hclaim.row)).stamp hg.sound.txns htxn hclaim.visible)
  refine .seq (set_xmax_ends hw₁.good hleaves hclaim.mem hl₁ hclaim.row hstamp)
    (fun _ _ hb => .inl ((hb.trans hw₁).failed hg)) fun _ w₂ hw₂ => ?_
  obtain ⟨front, back, hbefore, hafter⟩ := hw₂.rows
  rw [hw₁.stored_eq hg] at hbefore
  have hpicked : Picked cmp w.tm key txn (stored w levels) front r back :=
    ⟨hbefore, hclaim.key, hclaim.visible, hclaim.clear⟩
  have honward := hw₁.toOnward.trans hw₂.toOnward
  have hadv : Advances cmp w levels w₂ levels :=
    { honward with
      wrote := fun _ => hw₂.written
      pruned := fun hw => by rw [hw₂.written] at hw; cases hw }
  obtain ⟨l₂, hl₂, hhigh, hprev, hrestamp⟩ := hw₂.landed hll₁ hl₁ hclaim.row
  have htxn₂ : w₂.Running txn := by
    unfold Durable.Running
    rw [honward.txns]
    exact htxn
  have hlow := honward.low_eq hleaves hclaim.lands.mem
  have hland₂ : Lands cmp w₂.pages leaves key landing l₂ := by
    refine ⟨hclaim.lands.mem, hl₂, ?_, ?_⟩
    · rw [hlow]
      exact hclaim.lands.above
    rw [hhigh]
    exact hclaim.lands.inside
  refine .seq (insertion_page_ends hw₂.good hleaves hland₂ vis)
    (fun _ _ hb => .inl ((hb.failed hw₂.good).trans hadv)) ?_
  rintro pid w₃ ⟨hw₃, hpid⟩
  obtain rfl := hpid.symm
  have hadv₃ := hadv.trans (hw₃.toStructural.advances hw₂.good)
  have hstored₃ : stored w₃ levels = front ++ { r with xmax := txn.txn_id } :: back :=
    (hw₃.toStructural.stored_eq hw₂.good).trans hafter
  have hpages₃ : w₃.pages = w₂.pages := congrArg Durable.pages hw₃.same
  have honward₃ := hw₂.toOnward.trans hw₃.toOnward
  have hlanding : Landing cmp w₃ levels leaves (newRow key value pages txn) landing l₂ stack := by
    have htxn₃ : w₃.Running txn := by
      unfold Durable.Running
      rw [hadv₃.txns]
      exact htxn
    refine ⟨hw₃.good, hleaves, hpages₃ ▸ hland₂, newRow_slight hlong hmodest,
      newRow_intact htxn₃ fun p hp => ?_, ?_⟩
    · obtain ⟨hlt, hpage⟩ := hpages p hp
      exact ⟨hlt.trans_le honward₃.next, honward₃.overflow p hlt hpage⟩
    rw [hadv₃.toOnward.low_eq hleaves hclaim.lands.mem]
    exact hstack.grows hadv₃.grows
  have hkeeps₃ : Keeps cmp w₃.tm l₂ := by
    rw [hadv₃.tm]
    exact hrestamp.keeps hprev hlive' hkeeps
  refine (insert_version_ends hlanding hkeeps₃).imp ?_ ?_
  · rintro _ w₄ ⟨levels₄, hstores⟩
    obtain ⟨rest, hpruned, hperm⟩ := hstores.rows
    rw [hadv₃.tm, hstored₃] at hpruned
    exact ⟨levels₄, { hadv₃.toOnward.trans hstores.toOnward with
      written := hstores.written
      rows := ⟨front, r, back, pages, rest, hpicked, hpruned, hperm⟩ }⟩
  rintro e w₄ (hfailed | ⟨rfl, hroom, levels₄, hadv₄, hpruned⟩)
  · exact .inl (hfailed.trans hadv₃)
  rw [hadv₃.tm, hstored₃] at hpruned
  refine .inr ⟨front, r, back, hpicked, rfl,
    ⟨leaves, landing, ll, hleaves, hclaim.lands, fun splits => ?_⟩, levels₄,
    hadv₃.trans hadv₄, hpruned⟩
  have hno := hroom splits
  have hrows := hrestamp.live hlive hlive'
  rwa [newRow_size hlong, hadv₃.tm, hhigh,
    admits_congr (hrows.map Row.key rfl) (hrows.map Row.size rfl)] at hno

/-- What the search in front of it did does not matter. -/
theorem update_ends (hg : Good cmp w levels) (htxn : w.Running txn) (hmodest : Modest key value)
    (hkeeps : KeepsFor cmp w levels key) :
    Ends (fun n => update cmp n key value txn) w
      (fun _ w' => ∃ levels', Updates cmp w levels key value txn w' levels')
      (fun e w' => Failed cmp w levels e w' ∨ StampedOnly cmp w levels key value txn e w' ∨
        Refused cmp w levels key txn e w') := by
  unfold update
  refine .ite (fun _ => ?_) fun _ => ?_
  · exact .fail (.inr (.inr ⟨⟨levels, .refl hg⟩,
      .inr (.inr (.inr (.inl ⟨_, _, rfl⟩)))⟩))
  apply Ends.bind_read
  refine .seq (descend_root_ends hg key) (fun _ _ hb => .inl (hb.failed hg)) ?_
  rintro ⟨leaf_pid, stack⟩ w₁ ⟨hw₁, leaves, hleaves, hmem, hlow, hstack⟩
  refine .seq (claim_visible_ends hg hleaves hmem hlow txn hw₁)
    (fun _ _ h => h.imp (fun hb => hb.failed hg) .inr) ?_
  rintro ⟨landing, vis, slot⟩ w₂ ⟨hw₂, hle, ll, l, r, hclaim⟩
  have hkept := hkeeps leaves landing ll hleaves hclaim.lands
  refine (update_claimed_ends (w := w₂) hw₂.good hleaves
    (by rw [hw₂.same]; exact hclaim) (by rw [hw₂.same]; exact hstack.mono hle)
    (by rw [hw₂.same]; exact htxn) hmodest (by rw [hw₂.same]; exact hkept)).imp ?_ ?_
  · rintro _ w₃ ⟨levels₃, hupdates⟩
    exact ⟨levels₃, hupdates.after hg hw₂⟩
  rintro e w₃ (hfailed | hstamped)
  · exact .inl (hfailed.trans (hw₂.toStructural.advances hg))
  · exact .inr (.inl (hstamped.after hg hw₂))


end Update

end FluxDB.Tree
