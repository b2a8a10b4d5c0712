-- Who waits for whom. A call is told to sleep by `wait_for_txn` alone, and only for a younger
-- transaction; so whatever state the index is in, no transactions wait for one another in a circle.
import FluxDB.TreeLaws

namespace FluxDB.Tree

open Prog

/-! ## The errors of each part of a call -/

/-- If the transaction is told to sleep, then for a younger one. -/
def Patient (txn_id : Nat) (e : IndexError) : Prop := ∀ t, e = .WaitFor t → txn_id < t

variable {a : Nat} (cmp : Compare)

theorem raises_call (e : IndexError) (he : Patient a e) : Raises (Patient a) (call e) := by
  refine ⟨fun _ => trivial, fun {w w' e'} h => ?_⟩
  unfold call at h
  split_ifs at h <;> cases h
  all_goals exact he

theorem raises_log_as (f : Durable → Durable) : Raises (Patient a) (log_as f) :=
  (raises_call .Wal nofun).bind fun _ _ => .modify

theorem raises_fetch_page (pid : Nat) : Raises (Patient a) (fetch_page pid) :=
  .bind .read fun _ _ =>
    .ite ((raises_call .BufferPool nofun).bind fun _ _ => .pure trivial) (.fail nofun)

theorem raises_as_leaf (node : Node) : Raises (Patient a) (as_leaf node) := by
  cases node with
  | leaf l => exact .pure trivial
  | internal | other => exact .panic

theorem raises_fetch_leaf (pid : Nat) : Raises (Patient a) (fetch_leaf pid) :=
  (raises_fetch_page pid).bind fun node _ => raises_as_leaf node

theorem raises_fetch_internal (pid : Nat) : Raises (Patient a) (fetch_internal pid) := by
  apply (raises_fetch_page pid).bind
  rintro (l | n | t) -
  · exact .panic
  · exact .pure trivial
  · exact .panic

theorem raises_held (pid : Nat) : Raises (Patient a) (held pid) :=
  .bind .read fun w _ => raises_as_leaf (w.pages pid)

theorem raises_unwrap (o : Option Nat) : Raises (Patient a) (unwrap o) := by
  cases o with
  | none => exact .panic
  | some p => exact .pure trivial

theorem raises_acquire_frame (pid : Nat) : Raises (Patient a) (acquire_frame pid) :=
  (raises_call .BufferPool nofun).bind fun _ _ => .bind .modify fun _ _ => .pure trivial

theorem raises_new_page : Raises (Patient a) new_page := by
  apply Gives.bind .read
  intro w _
  have hclaim : ∀ pid, Raises (Patient a) (claim_recycled pid) := fun pid =>
    (raises_call .BufferPool nofun).bind fun _ _ => .bind .modify fun _ _ => raises_log_as id
  split
  · refine .bind .modify fun _ _ => ?_
    exact ((hclaim _).onError _).bind fun _ _ => raises_acquire_frame _
  · exact .bind .modify fun _ _ => raises_acquire_frame _

theorem raises_clear_incomplete_split (pid : Nat) :
    Raises (Patient a) (clear_incomplete_split pid) :=
  (raises_fetch_page pid).bind fun _ _ => .modify

theorem raises_materialize_value (value : Bytes) :
    Raises (Patient a) (materialize_value value) := by
  have hchain : ∀ chunks ids, Raises (Patient a) (write_overflow_chain chunks ids) := by
    intro chunks
    induction chunks with
    | zero => exact fun ids => .pure trivial
    | succ chunks ih =>
      intro ids
      refine raises_new_page.bind fun pid _ => .bind .modify fun _ _ => ?_
      exact (raises_log_as id).bind fun _ _ => ih _
  exact .ite (.pure trivial) (hchain _ _)

theorem raises_fetch_overflow (pid : Nat) : Raises (Patient a) (fetch_overflow pid) :=
  (raises_fetch_page pid).bind fun _ _ => .ite (.pure trivial) (.fail nofun)

theorem raises_free_overflow_chains (rows : List Row) :
    Raises (Patient a) (free_overflow_chains rows) := by
  have hcollect : ∀ ids, Raises (Patient a) (collect_overflow_page_ids ids) := by
    intro ids
    induction ids with
    | nil => exact .pure trivial
    | cons pid rest ih => exact (raises_fetch_overflow pid).bind fun _ _ => ih
  have hfree : ∀ ids, Raises (Patient a) (free_overflow_chain ids) := by
    intro ids
    induction ids with
    | nil => exact .pure trivial
    | cons pid rest ih =>
      exact (raises_fetch_overflow pid).bind fun _ _ =>
        (raises_call .BufferPool nofun).bind fun _ _ => ih
  induction rows with
  | nil => exact .pure trivial
  | cons r rest ih =>
    refine (hcollect _).bind fun _ _ => (raises_log_as id).bind fun _ _ => ?_
    exact (hfree _).bind fun _ _ => ih

theorem raises_place (pid : Nat) (r : Row) : Raises (Patient a) (place cmp pid r) :=
  (raises_held pid).bind fun _ _ =>
    .ite (.bind .modify fun _ _ => raises_log_as id) (.fail nofun)

theorem raises_place_logged (pid : Nat) (r : Row) : Raises (Patient a) (place_logged cmp pid r) :=
  (raises_held pid).bind fun _ _ => (raises_log_as _).bind fun _ _ => .modify

theorem raises_set_xmax (pid slot xmax : Nat) : Raises (Patient a) (set_xmax pid slot xmax) :=
  (raises_held pid).bind fun _ _ => (raises_log_as _).bind fun _ _ => .modify

theorem raises_compact (horizon pid : Nat) : Raises (Patient a) (compact horizon pid) := by
  refine (raises_held pid).bind fun l _ => .bind .read fun w _ => .ite (.pure trivial) ?_
  refine .bind .modify fun _ _ => (raises_log_as id).bind fun _ _ => ?_
  exact (raises_free_overflow_chains _).bind fun _ _ => .pure trivial

/-! ## The ways through the tree -/

theorem raises_descend (fuel : Nat) (key : Bytes) (pid : Nat) (stack : List Nat) :
    Raises (Patient a) (descend cmp fuel key pid stack) := by
  induction fuel generalizing pid stack with
  | zero => exact .stuck
  | succ fuel ih =>
    apply (raises_fetch_page pid).bind
    rintro (l | n | t) -
    · exact .pure trivial
    · exact .ite ((raises_unwrap _).bind fun _ _ => ih _ _)
        ((raises_unwrap _).bind fun _ _ => ih _ _)
    · exact .fail nofun

theorem raises_move_right (fuel : Nat) (key : Bytes) (pid : Nat) :
    Raises (Patient a) (move_right cmp fuel key pid) := by
  induction fuel generalizing pid with
  | zero => exact .stuck
  | succ fuel ih =>
    apply (raises_fetch_leaf pid).bind
    exact fun l _ => .ite ((raises_unwrap _).bind fun _ _ => ih _) (.pure trivial)

theorem raises_move_right_alive (fuel : Nat) (key : Bytes) (pid : Nat) :
    Raises (Patient a) (move_right_alive cmp fuel key pid) := by
  induction fuel generalizing pid with
  | zero => exact .stuck
  | succ fuel ih =>
    refine (raises_fetch_leaf pid).bind fun l _ => .ite (.pure trivial) ?_
    exact .ite ((raises_unwrap _).bind fun _ _ => ih _) (.pure trivial)

theorem raises_move_right_internal (fuel : Nat) (key : Bytes) (pid : Nat) :
    Raises (Patient a) (move_right_internal cmp fuel key pid) := by
  induction fuel generalizing pid with
  | zero => exact .stuck
  | succ fuel ih =>
    apply (raises_fetch_internal pid).bind
    exact fun n _ => .ite ((raises_unwrap _).bind fun _ _ => ih _) (.pure trivial)

theorem raises_split_leaf_ly (leaf_pid : Nat) :
    Raises (Patient a) (split_leaf_ly cmp leaf_pid) := by
  have hfix : ∀ right_pid o, Raises (Patient a) (fix_neighbour right_pid o) := by
    rintro right_pid (_ | old_right_pid)
    · exact .pure trivial
    · exact (raises_fetch_leaf old_right_pid).bind fun _ _ => .modify
  refine (raises_held leaf_pid).bind fun l _ =>
    .ite .panic (raises_new_page.bind fun right_pid _ => ?_)
  split
  · exact .panic
  · refine .bind .modify fun _ _ => (hfix _ _).bind fun _ _ => .bind .modify fun _ _ => ?_
    exact (raises_log_as id).bind fun _ _ => .pure trivial

theorem raises_split_internal_ly (internal_pid : Nat) (n : InternalNode) (sep_key : Bytes)
    (right_child : Nat) :
    Raises (Patient a) (split_internal_ly cmp internal_pid n sep_key right_child) := by
  apply raises_new_page.bind
  intro right_pid _
  split
  · exact .panic
  · exact .bind .modify fun _ _ => (raises_log_as id).bind fun _ _ => .pure trivial

theorem raises_insert_separator_via_stack (fuel : Nat) (stack : List Nat) (sep_key : Bytes)
    (right_pid left_child : Nat) :
    Raises (Patient a)
      (insert_separator_via_stack cmp fuel stack sep_key right_pid left_child) := by
  have hcleared : ∀ f pid, Raises (Patient a) (do log_as f; clear_logged pid) := fun f pid =>
    (raises_log_as f).bind fun _ _ => (raises_fetch_page pid).bind fun _ _ => .modify
  induction stack generalizing sep_key right_pid left_child with
  | nil =>
    refine .bind .read fun w _ => .ite (raises_clear_incomplete_split _) ?_
    refine raises_new_page.bind fun _ _ => .bind .modify fun _ _ => ?_
    refine (raises_fetch_page 0).bind fun _ _ => .bind .modify fun _ _ => ?_
    refine (raises_log_as _).bind fun _ _ => ?_
    exact ((raises_fetch_page _).bind fun _ _ => .modify).bind fun _ _ => .modify
  | cons parent rest ih =>
    refine (raises_move_right_internal cmp fuel sep_key parent).bind fun p _ => ?_
    refine .ite (raises_clear_incomplete_split _) (.ite ?_ ?_)
    · exact .bind .modify fun _ _ => hcleared _ _
    · refine (raises_split_internal_ly cmp _ _ _ _).bind fun q _ => ?_
      exact (raises_clear_incomplete_split _).bind fun _ _ => ih _ _ _

theorem raises_descend_finishing (fuel : Nat) (key : Bytes) (pid : Nat) (stack : List Nat) :
    Raises (Patient a) (descend_finishing cmp fuel key pid stack) := by
  have hfinish : ∀ fuel pid stack, Raises (Patient a) (finish_split cmp fuel pid stack) := by
    intro fuel pid stack
    refine (raises_fetch_page pid).bind fun node _ => .ite ?_ (.pure trivial)
    split
    · exact raises_insert_separator_via_stack cmp _ _ _ _ _
    · exact .modify
  induction fuel generalizing pid stack with
  | zero => exact .stuck
  | succ fuel ih =>
    refine (raises_fetch_page pid).bind fun node _ => .ite ?_ ?_
    · exact (hfinish _ _ _).bind fun _ _ => .bind .read fun _ _ => ih _ _
    cases node with
    | leaf l => exact .pure trivial
    | internal n =>
      exact .ite ((raises_unwrap _).bind fun _ _ => ih _ _)
        ((raises_unwrap _).bind fun _ _ => ih _ _)
    | other t => exact .fail nofun

theorem raises_split_and_insert (fuel leaf_pid : Nat) (r : Row) (stack : List Nat) :
    Raises (Patient a) (split_and_insert cmp fuel leaf_pid r stack) := by
  induction fuel generalizing leaf_pid with
  | zero => exact .stuck
  | succ fuel ih =>
    refine .bind .read fun w _ => (raises_compact _ _).bind fun compacted _ => ?_
    refine (raises_held leaf_pid).bind fun l _ => .ite (raises_place cmp _ _) ?_
    refine (raises_split_leaf_ly cmp leaf_pid).bind fun split _ => .ite ?_ ?_
    · refine (raises_insert_separator_via_stack cmp _ _ _ _ _).bind fun _ _ => ?_
      exact (raises_move_right cmp _ _ _).bind fun _ _ => .ite (raises_place cmp _ _) (ih _)
    · exact (raises_place cmp _ _).bind fun _ _ => raises_insert_separator_via_stack cmp _ _ _ _ _

/-! ## The checks, and the calls -/

/-- No verdict is to wait for this transaction. -/
def Foreign (txn_id : Nat) (verdict : Except IndexError Unit) : Prop :=
  ∀ t, verdict = .error (.WaitFor t) → t ≠ txn_id

variable (txn : Transaction)

theorem foreign_check_page_conflict (tm : TransactionManager) (rows : List Row)
    (key : Bytes) : Foreign txn.txn_id (check_page_conflict cmp tm txn rows key) := by
  intro t h
  unfold check_page_conflict at h
  split at h
  · cases h
  · exact check_insert_conflict_ne h

theorem gives_check_conflicts (fuel : Nat) (key : Bytes) (pid : Nat) (l : LeafNode) :
    Gives (Foreign txn.txn_id) (Patient txn.txn_id) (check_conflicts cmp fuel key txn pid l) := by
  have hchain : ∀ fuel prev, Gives (Foreign txn.txn_id) (Patient txn.txn_id)
      (check_insert_conflict_left_chain cmp fuel key txn prev) := by
    intro fuel
    induction fuel with
    | zero => exact fun prev => .stuck
    | succ fuel ih =>
      rintro (_ | pid)
      · exact .pure nofun
      refine (raises_fetch_leaf pid).bind fun l _ => .ite (.bind .read fun w _ => ?_) (.pure nofun)
      have hpage := foreign_check_page_conflict cmp txn w.tm l.rows key
      split
      · exact ih _
      · next h => exact .pure (h ▸ hpage)
  apply Gives.bind .read
  intro w _
  have hpage := foreign_check_page_conflict cmp txn w.tm l.rows key
  split
  · refine .ite ((hchain _ _).bind fun verdict hverdict => ?_) (.pure nofun)
    cases verdict with
    | ok _ => exact (raises_fetch_leaf pid).bind fun _ _ => .pure nofun
    | error e => exact .pure hverdict
  · next h => exact .pure (h ▸ hpage)

theorem raises_find_visible_chain (fuel : Nat) (key : Bytes) (pid : Nat) (l : LeafNode) :
    Raises (Patient a) (find_visible_chain cmp fuel key txn pid l) := by
  induction fuel generalizing pid l with
  | zero => exact .stuck
  | succ fuel ih =>
    apply Gives.bind .read
    intro w _
    split
    · exact .pure trivial
    refine .ite ?_ (.pure trivial)
    split
    · exact .pure trivial
    · exact (raises_fetch_leaf _).bind fun _ _ => .ite (ih _ _) (.pure trivial)

/-- Wait-Die: an older transaction sleeps, a younger one fails. -/
theorem raises_wait_for_txn {t : Nat} (ht : t ≠ a) : Raises (Patient a) (wait_for_txn t a) := by
  apply Gives.bind .read
  intro w _
  split
  · exact .fail nofun
  refine .ite (.fail ?_) (.pure trivial)
  rintro _ ⟨⟩
  omega

theorem raises_insert (fuel : Nat) (key value : Bytes) :
    Raises (Patient txn.txn_id) (insert cmp fuel key value txn) := by
  refine .ite (.fail nofun) ?_
  induction fuel with
  | zero => exact .stuck
  | succ fuel ih =>
    refine .bind .read fun w _ => (raises_descend_finishing cmp _ _ _ _).bind fun way _ => ?_
    refine (raises_move_right_alive cmp _ _ _).bind fun landed _ => ?_
    cases landed with
    | none => exact ih
    | some landed =>
      refine (gives_check_conflicts cmp txn _ _ _ _).bind fun verdict hverdict => ?_
      split
      · refine (raises_materialize_value _).bind fun _ _ => (raises_held _).bind fun _ _ => ?_
        exact .ite (raises_place cmp _ _) (raises_split_and_insert cmp _ _ _ _)
      · exact (raises_wait_for_txn (hverdict _ rfl)).bind fun _ _ => ih
      · next hother => exact .fail fun t he => (hother t (he ▸ rfl)).elim

theorem raises_claim_visible (fuel : Nat) (key : Bytes) (leaf_pid : Nat) :
    Raises (Patient txn.txn_id) (claim_visible cmp fuel key txn leaf_pid) := by
  induction fuel with
  | zero => exact .stuck
  | succ fuel ih =>
    refine (raises_move_right cmp _ _ _).bind fun landing _ => ?_
    refine (raises_find_visible_chain cmp txn _ _ _ _).bind fun found _ => ?_
    cases found with
    | NotFound => exact .fail nofun
    | Restart => exact ih
    | Found vis_pid slot r =>
      apply Gives.bind .read
      intro w _
      split
      · exact .pure trivial
      · next h => exact (raises_wait_for_txn (check_write_conflict_ne h)).bind fun _ _ => ih
      · next hother _ => exact .fail fun t he => (hother t (he ▸ rfl)).elim

theorem raises_delete (fuel : Nat) (key : Bytes) :
    Raises (Patient txn.txn_id) (delete cmp fuel key txn) := by
  refine .bind .read fun w _ => (raises_descend cmp _ _ _ _).bind fun way _ => ?_
  exact (raises_claim_visible cmp txn _ _ _).bind fun _ _ => raises_set_xmax _ _ _

theorem raises_update (fuel : Nat) (key value : Bytes) :
    Raises (Patient txn.txn_id) (update cmp fuel key value txn) := by
  refine .ite (.fail nofun) (.bind .read fun w _ => ?_)
  refine (raises_descend cmp _ _ _ _).bind fun way _ => ?_
  refine (raises_claim_visible cmp txn _ _ _).bind fun claimed _ => ?_
  refine (raises_materialize_value _).bind fun _ _ => (raises_set_xmax _ _ _).bind fun _ _ => ?_
  refine Gives.bind (Q := fun _ => True) ?_ fun pid _ => (raises_held pid).bind fun l _ => ?_
  · exact .ite ((raises_move_right cmp _ _ _).bind fun _ _ => .pure trivial) (.pure trivial)
  · exact .ite (raises_place_logged cmp _ _) (raises_split_and_insert cmp _ _ _ _)

/-- In some state that a run leads to, a call of the one transaction sleeps until the other one has
ended. -/
def WaitsFor (cmp : Compare) (a b : Nat) : Prop :=
  ∃ es w txn key value io w', Runs.run (World.step cmp) .create es = some w ∧ w.Running txn ∧
    txn.txn_id = a ∧ (insert cmp io.fuel key value txn (w.enter io) = .err (.WaitFor b) w' ∨
      update cmp io.fuel key value txn (w.enter io) = .err (.WaitFor b) w' ∨
      delete cmp io.fuel key txn (w.enter io) = .err (.WaitFor b) w')

variable {cmp}

theorem WaitsFor.lt {a b : Nat} (h : WaitsFor cmp a b) : a < b := by
  obtain ⟨es, w, txn, key, value, io, w', -, -, rfl, hcall | hcall | hcall⟩ := h
  · exact (raises_insert cmp txn _ _ _).err hcall b rfl
  · exact (raises_update cmp txn _ _ _).err hcall b rfl
  · exact (raises_delete cmp txn _ _).err hcall b rfl

/-- Whoever waits for whom, and whenever, nobody waits for itself in the end. -/
theorem transactions_wait_in_no_cycle (t : Nat) : ¬ Relation.TransGen (WaitsFor cmp) t t := by
  intro h
  have hlt : ∀ {b}, Relation.TransGen (WaitsFor cmp) t b → t < b := by
    intro b hb
    induction hb with
    | single hb => exact hb.lt
    | tail _ hb ih => exact ih.trans hb.lt
  exact Nat.lt_irrefl t (hlt h)

/-- The second transaction has a key in its hands that the first one wants. -/
theorem the_first_waits_for_the_second :
    WaitsFor byBytes 1 2 ∧ ¬ Relation.TransGen (WaitsFor byBytes) 1 1 := by
  have hend : ∃ w, Runs.run (World.step byBytes) .create (beginEvents 1 ++ beginEvents 2 ++
        [.insert ⟨2, ⟨1, 3, [2, 1]⟩⟩ [1] [7] calm]) = some w ∧ w.Running (alone 1) ∧
      (insert byBytes 40 [1] [8] (alone 1) (w.enter calm)).error = some (.WaitFor 2) :=
    Runs.exists_run (by decide +kernel)
  obtain ⟨w, hrun, htxn, herror⟩ := hend
  obtain ⟨w', hcall⟩ := Outcome.eq_err_of_error herror
  exact ⟨⟨_, w, alone 1, [1], [8], calm, w', hrun, htxn, rfl, .inl hcall⟩,
    transactions_wait_in_no_cycle 1⟩

end FluxDB.Tree
