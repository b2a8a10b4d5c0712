-- The laws of calls on an index that gentle steps have led to: they come to an end, a write finds
-- room, and a call that fails has changed no version. Beside each stands a run that breaks the law
-- after a step that is not gentle.
import FluxDB.TreeRuns

namespace FluxDB.Tree

/-! ## Some runs -/

abbrev byBytes : Compare := List.compareLex compare

/-- Many rounds, and no call fails. -/
def calm : Limits := ⟨40, [], []⟩

/-- A handle of the transaction with this id that begins while no other is open. -/
def alone (t : Nat) : Transaction := ⟨t, ⟨t, t + 1, [t]⟩⟩

def beginEvents (t : Nat) : List Event := [.txn .begin, .txn (.begin_clog t)]

/-- A version of the first transaction. -/
def longRow (key : UInt8) (xmax : Nat) : Row := ⟨[key], List.replicate 1800 0, [], 1, xmax⟩

/-- Three rows that take two leaves, some of them deleted again. -/
def threeRows (gone : List Bytes) : List Event :=
  beginEvents 1 ++
    [[1], [2], [3]].map (fun key => .insert (alone 1) key (List.replicate 1800 0) calm) ++
    gone.map (fun key => .delete (alone 1) key calm) ++
    [.txn (.commit_clog 1), .txn (.commit_active 1)]

/-! ## Calls that never end -/

section Stuck

variable {cmp : Compare} {w : World} {key value : Bytes} {txn : Transaction}
  {n : InternalNode} {p q : Nat} {l left : LeafNode}

/-- No call of the pool fails. -/
abbrev Quiet (w : World) : Prop := w.faults = [] ∧ w.written = false

/-- The page is this leaf. -/
abbrev IsLeaf (w : World) (p : Nat) (l : LeafNode) : Prop :=
  p < w.next_page_id ∧ w.pages p = .leaf l

/-- The root is this page, which leads to that one for the key. -/
abbrev RootLeads (cmp : Compare) (w : World) (key : Bytes) (n : InternalNode) (p : Nat) :
    Prop :=
  w.root < w.next_page_id ∧ w.pages w.root = .internal n ∧ ¬ Beyond cmp key n.high_key ∧
    n.children[n.find_child cmp key]? = some p

theorem fetch_page_quiet (h : Quiet w) (hp : p < w.next_page_id) :
    fetch_page p w = .ok (w.pages p) w := by
  have hcall : call .BufferPool w = .ok () w := by
    obtain ⟨d, root, pool, pending, redo, faults, late, written, failed⟩ := w
    obtain ⟨⟨⟩, ⟨⟩⟩ := h
    rfl
  change (if p < w.next_page_id then _ else _ : Act Node) w = _
  rw [if_pos hp]
  exact Prog.bind_of_ok hcall

theorem fetch_leaf_quiet (h : Quiet w) (hp : IsLeaf w p l) : fetch_leaf p w = .ok l w := by
  unfold fetch_leaf
  rw [Prog.bind_of_ok (fetch_page_quiet h hp.1), hp.2]
  rfl

variable (h : Quiet w) (hroot : RootLeads cmp w key n p) (hp : IsLeaf w p l)

include h hroot hp

theorem descend_quiet (k : Nat) :
    descend cmp k key w.root [] w = .stuck ∨
      descend cmp k key w.root [] w = .ok (p, [w.root]) w := by
  obtain ⟨hlt, hpage, hin, hchild⟩ := hroot
  cases k with
  | zero => exact .inl rfl
  | succ k =>
    unfold descend
    rw [Prog.bind_of_ok (fetch_page_quiet h hlt), hpage]
    dsimp only
    rw [if_neg hin, hchild]
    change descend cmp k key p [w.root] w = _ ∨ descend cmp k key p [w.root] w = _
    cases k with
    | zero => exact .inl rfl
    | succ k =>
      right
      unfold descend
      rw [Prog.bind_of_ok (fetch_page_quiet h hp.1), hp.2]
      rfl

/-- A leaf that begins in the key, shows nothing of it and has a left neighbour that ends in another
key sends a lookup back to the root, over and over. -/
theorem get_stuck (hin : ¬ Beyond cmp key l.high_key)
    (hnone : find_visible_slot cmp w.tm txn l.rows key = none)
    (hfirst : l.rows.head?.all fun r => cmp r.key key == .eq) (hprev : l.prev = some q)
    (hq : IsLeaf w q left) (hne : ¬ (left.high_key ≠ [] ∧ cmp left.high_key key = .eq)) (k : Nat) :
    get cmp k key txn w = .stuck := by
  induction k with
  | zero => rfl
  | succ k ih =>
    unfold get
    rw [Prog.bind_of_ok (x := Prog.read) rfl]
    rcases descend_quiet h hroot hp k with hd | hd
    · exact Prog.bind_of_stuck hd
    rw [Prog.bind_of_ok hd]
    cases k with
    | zero => rfl
    | succ k =>
      have hmove : move_right cmp (k + 1) key p w = .ok (p, l) w := by
        unfold move_right
        rw [Prog.bind_of_ok (fetch_leaf_quiet h hp), if_neg hin]
        rfl
      have hfind : find_visible_chain cmp (k + 1) key txn p l w = .ok .Restart w := by
        unfold find_visible_chain
        rw [Prog.bind_of_ok (x := Prog.read) rfl, hnone]
        dsimp only [Option.bind_none]
        rw [if_pos hfirst, hprev]
        dsimp only
        rw [Prog.bind_of_ok (fetch_leaf_quiet h hq), if_neg hne]
        rfl
      dsimp only
      rw [Prog.bind_of_ok hmove]
      dsimp only
      rw [Prog.bind_of_ok hfind]
      exact ih

section

variable (hn : (Node.internal n).is_incomplete_split = false)
  (hl : (Node.leaf l).is_incomplete_split = false)

include hn hl

theorem descend_finishing_quiet (k : Nat) :
    descend_finishing cmp k key w.root [] w = .stuck ∨ descend_finishing cmp k key w.root [] w = .ok
      (p, [w.root]) w := by
  obtain ⟨hlt, hpage, hin, hchild⟩ := hroot
  cases k with
  | zero => exact .inl rfl
  | succ k =>
    unfold descend_finishing
    rw [Prog.bind_of_ok (fetch_page_quiet h hlt), hpage, if_neg (Bool.eq_false_iff.mp hn)]
    dsimp only
    rw [if_neg hin, hchild]
    change descend_finishing cmp k key p [w.root] w = _ ∨
      descend_finishing cmp k key p [w.root] w = _
    cases k with
    | zero => exact .inl rfl
    | succ k =>
      right
      unfold descend_finishing
      rw [Prog.bind_of_ok (fetch_page_quiet h hp.1), hp.2, if_neg (Bool.eq_false_iff.mp hl)]
      rfl

/-- An insert that lands on a half-dead leaf starts over, and nothing else makes the leaf alive. -/
theorem insert_loop_stuck (hdead : l.half_dead = true) (k : Nat) :
    insert_loop cmp k key value txn w = .stuck := by
  induction k with
  | zero => rfl
  | succ k ih =>
    unfold insert_loop
    rw [Prog.bind_of_ok (x := Prog.read) rfl]
    rcases descend_finishing_quiet h hroot hp hn hl k with hd | hd
    · exact Prog.bind_of_stuck hd
    rw [Prog.bind_of_ok hd]
    cases k with
    | zero => rfl
    | succ k =>
      have hmove : move_right_alive cmp (k + 1) key p w = .ok none w := by
        unfold move_right_alive
        rw [Prog.bind_of_ok (fetch_leaf_quiet h hp), if_pos hdead]
        rfl
      dsimp only
      rw [Prog.bind_of_ok hmove]
      exact ih

end

end Stuck

/-! ## Calls that end -/

section Laws

variable {cmp : Compare} {w w' : World} {levels : List (List Nat)} {key value : Bytes}
  {txn : Transaction} {io : Limits} {e : IndexError}

/-- With enough rounds the call returns or fails; it does not sleep. -/
def Returns {α : Type} (x : Nat → Act α) (w : World) : Prop :=
  Ends x w (fun _ _ => True) fun e _ => ∀ t, e ≠ .WaitFor t

/-- No other open transaction has a version of the key in its hands. -/
def Unopposed (cmp : Compare) (w : World) (key : Bytes) (txn : Transaction) : Prop :=
  ∀ r ∈ w.versions, cmp r.key key = .eq →
    (r.xmin ∈ w.tm.active_txns → r.xmin = txn.txn_id) ∧
    (r.xmax ∈ w.tm.active_txns → r.xmax = txn.txn_id)

instance (w : World) : Decidable (Unopposed cmp w key txn) :=
  inferInstanceAs (Decidable (∀ _ ∈ _, _))

/-- The leaf has room for the record once it is compacted and split. -/
def Roomy (cmp : Compare) (w : World) (key value : Bytes) (l : LeafNode) : Prop :=
  Admits cmp key (recordSize key value) l.high_key l.rows.length (live w.tm w.tm.global_xmin l.rows)

instance : DecidablePred (Roomy cmp w key value) := fun _ => inferInstanceAs (Decidable (Admits ..))

/-- The two leaves have come back from a crash, and the transaction is running. -/
theorem twoLeaves_ends : ∃ w, Gently byBytes w ∧ w.Running (alone 2) ∧
    Unopposed byBytes w [4] (alone 2) ∧ Gentle byBytes w (.insert (alone 2) [4] [7] calm) ∧
    w.OnLeafOf byBytes [4] (Roomy byBytes w [4] [7]) ∧
    (delete byBytes 40 [4] (alone 2) (w.enter calm)).error = some .KeyNotFound := by
  have hend : ∃ w, Runs.run (World.step byBytes) .create
        (threeRows [] ++ .crash 9 [] :: beginEvents 2) = some w ∧
      w.Running (alone 2) ∧ Unopposed byBytes w [4] (alone 2) ∧
      Gentle byBytes w (.insert (alone 2) [4] [7] calm) ∧
      w.OnLeafOf byBytes [4] (Roomy byBytes w [4] [7]) ∧
      (delete byBytes 40 [4] (alone 2) (w.enter calm)).error = some .KeyNotFound :=
    Runs.exists_run (by decide +kernel)
  obtain ⟨w, hrun, h⟩ := hend
  exact ⟨w, ⟨_, by decide +kernel, hrun⟩, h⟩

theorem Refused.awake (hg : Good cmp w levels) (hfree : Unopposed cmp w key txn)
    (h : Refused cmp (w.enter io) levels key txn e w') (t : Nat) : e ≠ .WaitFor t := by
  rintro rfl
  rcases h.reason with h | h | h | ⟨_, _, h⟩ | ⟨_, ⟨⟩, -, hblocks⟩
  · cases h
  · cases h
  · cases h
  · cases h
  obtain ⟨r, hr, hkey, hstamp⟩ := hblocks.version
  obtain ⟨hmin, hmax⟩ := hfree r (hg.versions_eq ▸ hr) hkey
  rcases hstamp with rfl | rfl
  · exact hblocks.other (hmin hblocks.active)
  · exact hblocks.other (hmax hblocks.active)

theorem awake_of_io (h : e = .BufferPool ∨ e = .Wal ∨ e = .Page) (t : Nat) : e ≠ .WaitFor t := by
  rcases h with rfl | rfl | rfl <;> exact nofun

theorem NoRoom.absurd_roomy {rows : List Row} (hg : Good cmp w levels)
    (hroom : w.OnLeafOf cmp key (Roomy cmp w key value))
    (h : NoRoom cmp (w.enter io) levels key (recordSize key value) rows e w') : False := by
  obtain ⟨leaves, p, l, hleaves, hland, hno⟩ := h.room
  exact hno _ (hg.onLeafOf hroom hleaves hland)

theorem Failed.pruned (hg : Good cmp w levels) (hlate : io.late_faults = [])
    (h : Failed cmp (w.enter io) levels e w') : Pruned w.tm w.versions w'.versions := by
  obtain ⟨levels', ha⟩ := h.advances
  rw [hg.versions_eq, ha.good.versions_eq]
  exact ha.pruned (h.early hlate)

theorem Refused.pruned (hg : Good cmp w levels)
    (h : Refused cmp (w.enter io) levels key txn e w') : Pruned w.tm w.versions w'.versions := by
  obtain ⟨levels', hs⟩ := h.structural
  have hsame := hs.stored_eq (hg.enter io)
  rw [hg.versions_eq, hs.good.versions_eq]
  exact (Pruned.refl _ _).of_eq hsame

variable [Std.TransCmp cmp]

theorem insert_returns (hg : Good cmp w levels) (htxn : w.Running txn)
    (hok : Gentle cmp w (.insert txn key value io)) (hfree : Unopposed cmp w key txn) :
    Returns (fun n => insert cmp n key value txn) (w.enter io) := by
  refine (insert_ends (hg.enter io) htxn hok.1 (hg.keepsFor hok.2)).imp (fun _ _ _ => trivial) ?_
  rintro e w' (hf | hn | hr)
  · exact awake_of_io (hf.error.imp_right .inl)
  · exact awake_of_io (.inr (.inr hn.error))
  · exact hr.awake hg hfree

theorem update_returns (hg : Good cmp w levels) (htxn : w.Running txn)
    (hok : Gentle cmp w (.update txn key value io)) (hfree : Unopposed cmp w key txn) :
    Returns (fun n => update cmp n key value txn) (w.enter io) := by
  refine (update_ends (hg.enter io) htxn hok.1 (hg.keepsFor hok.2)).imp (fun _ _ _ => trivial) ?_
  rintro e w' (hf | ⟨_, _, _, -, hn⟩ | hr)
  · exact awake_of_io (hf.error.imp_right .inl)
  · exact awake_of_io (.inr (.inr hn.error))
  · exact hr.awake hg hfree

/-- After gentle steps, lookups, deletes and gentle updates come to an end. -/
theorem lookups_end_after_gentle_steps (h : Gently cmp w) (htxn : w.Running txn)
    (hfree : Unopposed cmp w key txn) (value : Bytes) (io : Limits) :
    Returns (fun n => get cmp n key txn) (w.enter io) ∧
      Returns (fun n => delete cmp n key txn) (w.enter io) ∧
      (Gentle cmp w (.update txn key value io) →
        Returns (fun n => update cmp n key value txn) (w.enter io)) := by
  obtain ⟨levels, hg⟩ := h.good
  refine ⟨?_, ?_, fun hgentle => update_returns hg htxn hgentle hfree⟩
  · exact (get_ends (hg.enter io) key txn).imp (fun _ _ _ => trivial) fun _ _ hb =>
      awake_of_io (hb.error.imp_right Or.inl)
  · refine (delete_ends (hg.enter io) htxn key).imp (fun _ _ _ => trivial) ?_
    rintro e w' (hb | hr)
    · exact awake_of_io (hb.error.imp_right Or.inl)
    · exact hr.awake hg hfree

theorem lookups_end_on_two_leaves : ∃ w, Gently byBytes w ∧
    Returns (fun n => get byBytes n [4] (alone 2)) (w.enter calm) := by
  obtain ⟨w, h, htxn, hfree, -⟩ := twoLeaves_ends
  exact ⟨w, h, (lookups_end_after_gentle_steps h htxn hfree [] calm).1⟩

/-- The vacuum takes the first version of the second leaf, and the next transaction deletes what is
then the first one. -/
def deletedBehindVacuum : List Event :=
  threeRows [[2]] ++ .vacuum calm :: beginEvents 2 ++ [.delete (alone 2) [3] calm]

/-- It looks for that version without end. -/
theorem a_lookup_behind_a_compacted_leaf_never_ends :
    ∃ w, Runs.run (World.step byBytes) .create deletedBehindVacuum = some w ∧
      w.Running (alone 2) ∧ Unopposed byBytes w [3] (alone 2) ∧
      ∀ n, get byBytes n [3] (alone 2) (w.enter calm) = .stuck := by
  have hend : ∃ w, Runs.run (World.step byBytes) .create deletedBehindVacuum = some w ∧
      w.Running (alone 2) ∧ Unopposed byBytes w [3] (alone 2) ∧
      RootLeads byBytes w [3] ⟨[[2]], [1, 3], [], none, false⟩ 3 ∧
      IsLeaf w 3 ⟨[longRow 3 2], [], none, some 1, false, false⟩ ∧
      find_visible_slot byBytes w.tm (alone 2) [longRow 3 2] [3] = none ∧
      IsLeaf w 1 ⟨[longRow 1 0], [2], some 3, none, false, false⟩ :=
    Runs.exists_run (by decide +kernel)
  obtain ⟨w, hrun, htxn, hfree, hroot, hp, hnone, hq⟩ := hend
  refine ⟨w, hrun, htxn, hfree, ?_⟩
  exact get_stuck ⟨rfl, rfl⟩ hroot hp (by decide) hnone rfl rfl hq (by decide)

/-- After gentle steps, crashes among them, gentle writes come to an end. -/
theorem writes_end_after_gentle_steps (h : Gently cmp w) (htxn : w.Running txn)
    (hgentle : Gentle cmp w (.insert txn key value io)) (hfree : Unopposed cmp w key txn) :
    Returns (fun n => insert cmp n key value txn) (w.enter io) ∧
      Returns (fun n => update cmp n key value txn) (w.enter io) := by
  obtain ⟨levels, hg⟩ := h.good
  exact ⟨insert_returns hg htxn hgentle hfree, update_returns hg htxn hgentle hfree⟩

theorem writes_end_on_two_leaves : ∃ w, Gently byBytes w ∧
    Returns (fun n => insert byBytes n [4] [7] (alone 2)) (w.enter calm) := by
  obtain ⟨w, h, htxn, hfree, hgentle, -⟩ := twoLeaves_ends
  exact ⟨w, h, (writes_end_after_gentle_steps h htxn hgentle hfree).1⟩

/-- A crash behind the record that marks the emptied first leaf as half-dead. -/
def crashBehindMark : List Event :=
  threeRows [[1]] ++ [.vacuum calm, .crash 12 []] ++ beginEvents 2

/-- An insert into the range of that leaf goes on without end. -/
theorem an_insert_into_a_half_dead_leaf_never_ends :
    ∃ w, Runs.run (World.step byBytes) .create crashBehindMark = some w ∧ w.Running (alone 2) ∧
      Unopposed byBytes w [1] (alone 2) ∧
      ∀ n, insert byBytes n [1] [] (alone 2) (w.enter calm) = .stuck := by
  have hend : ∃ w, Runs.run (World.step byBytes) .create crashBehindMark = some w ∧
      w.Running (alone 2) ∧ Unopposed byBytes w [1] (alone 2) ∧
      RootLeads byBytes w [1] ⟨[[2]], [1, 3], [], none, false⟩ 1 ∧
      IsLeaf w 1 ⟨[], [2], some 3, none, false, true⟩ := Runs.exists_run (by decide +kernel)
  obtain ⟨w, hrun, htxn, hfree, hroot, hp⟩ := hend
  exact ⟨w, hrun, htxn, hfree, insert_loop_stuck ⟨rfl, rfl⟩ hroot hp rfl rfl rfl⟩

theorem update_fails (hg : Good cmp w levels) (htxn : w.Running txn)
    (hgentle : Gentle cmp w (.update txn key value io)) {n : Nat}
    (h : update cmp n key value txn (w.enter io) = .err e w') :
    Failed cmp (w.enter io) levels e w' ∨ StampedOnly cmp (w.enter io) levels key value txn e w' ∨
      Refused cmp (w.enter io) levels key txn e w' := by
  have hends := (update_ends (hg.enter io) htxn hgentle.1 (hg.keepsFor hgentle.2)).meets (n := n)
  rw [h] at hends
  exact hends nofun

theorem update_errors (hg : Good cmp w levels) (htxn : w.Running txn)
    (hgentle : Gentle cmp w (.update txn key value io))
    (hroom : w.OnLeafOf cmp key (Roomy cmp w key value)) {n : Nat}
    (h : update cmp n key value txn (w.enter io) = .err e w') :
    Failed cmp (w.enter io) levels e w' ∨ Refused cmp (w.enter io) levels key txn e w' := by
  rcases update_fails hg htxn hgentle h with hf | ⟨_, _, _, -, hn⟩ | hr
  · exact .inl hf
  · exact (hn.absurd_roomy hg hroom).elim
  · exact .inr hr

theorem insert_errors (hg : Good cmp w levels) (htxn : w.Running txn)
    (hgentle : Gentle cmp w (.insert txn key value io)) {n : Nat}
    (h : insert cmp n key value txn (w.enter io) = .err e w') :
    Failed cmp (w.enter io) levels e w' ∨
      NoRoom cmp (w.enter io) levels key (recordSize key value) (stored w levels) e w' ∨
      Refused cmp (w.enter io) levels key txn e w' := by
  have hends := (insert_ends (hg.enter io) htxn hgentle.1 (hg.keepsFor hgentle.2)).meets (n := n)
  rw [h] at hends
  exact hends nofun

/-- After gentle steps, a call that fails has dropped versions of no use and changed no other, if
nothing fails behind its first change of a version and the new version of an update has room. -/
theorem failed_calls_change_no_version (h : Gently cmp w) (htxn : w.Running txn)
    (hlate : io.late_faults = []) (key value : Bytes) (n : Nat)
    (e : IndexError) (w' : World) :
    (delete cmp n key txn (w.enter io) = .err e w' → Pruned w.tm w.versions w'.versions) ∧
      (Gentle cmp w (.insert txn key value io) →
        insert cmp n key value txn (w.enter io) = .err e w' →
        Pruned w.tm w.versions w'.versions) ∧
      (Gentle cmp w (.update txn key value io) → w.OnLeafOf cmp key (Roomy cmp w key value) →
        update cmp n key value txn (w.enter io) = .err e w' →
        Pruned w.tm w.versions w'.versions) := by
  obtain ⟨levels, hg⟩ := h.good
  refine ⟨fun h => ?_, fun hgentle h => ?_, fun hgentle hroom h => ?_⟩
  · have hends := (delete_ends (hg.enter io) htxn key).meets (n := n)
    rw [h] at hends
    rcases hends nofun with hb | hr
    · exact (hb.failed (hg.enter io)).pruned hg hlate
    · exact hr.pruned hg
  · rcases insert_errors hg htxn hgentle h with hf | hn | hr
    · exact hf.pruned hg hlate
    · obtain ⟨levels', ha, hpruned⟩ := hn.advances
      rw [hg.versions_eq, ha.good.versions_eq]
      exact hpruned
    · exact hr.pruned hg
  · rcases update_errors hg htxn hgentle hroom h with hf | hr
    · exact hf.pruned hg hlate
    · exact hr.pruned hg

theorem a_failed_delete_changes_no_version : ∃ w w', Gently byBytes w ∧
    delete byBytes 40 [4] (alone 2) (w.enter calm) = .err .KeyNotFound w' ∧
    Pruned w.tm w.versions w'.versions := by
  obtain ⟨w, h, htxn, -, -, -, herror⟩ := twoLeaves_ends
  obtain ⟨w', hcall⟩ := Outcome.eq_err_of_error herror
  exact ⟨w, w', h, hcall,
    (failed_calls_change_no_version h htxn rfl [4] [] 40 .KeyNotFound w').1 hcall⟩

/-- The append of the insert's record fails, and the version stays. -/
theorem a_failed_insert_leaves_its_version :
    ∃ w, Runs.run (World.step byBytes) .create (beginEvents 1) = some w ∧ w.Running (alone 1) ∧
      w.versions = [] ∧ (insert byBytes 40 [1] [7] (alone 1) (w.enter ⟨40, [], [true]⟩)).error =
        some .Wal ∧
      (insert byBytes 40 [1] [7] (alone 1) (w.enter ⟨40, [], [true]⟩)).state.map World.versions =
        some [newRow [1] [7] [] (alone 1)] :=
  Runs.exists_run (by decide +kernel)

end Laws

end FluxDB.Tree
