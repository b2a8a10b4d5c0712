-- Latched sections and page LSNs. A section is what one thread does between taking its
-- first page latch and dropping its last guard: the pages it latches, the records it
-- appends and the pages it stamps with them, in the order of the source.
import Mathlib.Data.List.Basic
import Mathlib.Logic.Function.Basic

namespace FluxDB

open List
open Function (update)

/-! ## Actions and sections -/

/-- One action of a section on a page, or the append of a record that touches pages. -/
inductive Action
  | latch (page : Nat)
  | new (page : Nat)
  | rebuild (page : Nat)
  | touch (page : Nat)
  | log (pages : List Nat)
  | stamp (page : Nat)
  | unlatch (page : Nat)
  | unpin (page : Nat)
  deriving DecidableEq, Repr

/-- A page from `new_page`, and the bitmap page when the id was a recycled one. -/
structure Fresh where
  page : Nat
  bitmap : Option Nat
  deriving DecidableEq, Repr

/-- Drop the write guard of a page: the latch first, then the pin. -/
def dropGuard (page : Nat) : List Action := [.unlatch page, .unpin page]

/-- Records for one page, each stamped on the page, under the latch that is held. -/
def logged (page : Nat) : Nat → List Action
  | 0 => []
  | n + 1 => .log [page] :: .stamp page :: logged page n

/-- A page is latched for some records of its own. -/
def onePage (page records : Nat) : List Action :=
  .latch page :: logged page records ++ dropGuard page

/-- `new_page`: a recycled id is claimed in the bitmap page first. -/
def Fresh.take (f : Fresh) : List Action :=
  (match f.bitmap with
  | some b => onePage b 1
  | none => []) ++ [.new f.page]

/-- One page of `write_overflow_chain`. -/
def spill (f : Fresh) : List Action :=
  f.take ++ .log [f.page] :: .stamp f.page :: dropGuard f.page

/-- The latched sections of the index. -/
inductive Section
  /-- Insert, delete, update in place, compaction, the half-dead mark and its removal, and
  the bitmap drain: records on one page, after the overflow pages of a large value. -/
  | write (page : Nat) (spills : List Fresh) (records : Nat)
  /-- A leaf split with what is logged on the left page before and after it. -/
  | split_leaf_ly (left : Nat) (spills : List Fresh) (before : Nat) (right : Fresh)
      (neighbour : Option Nat) (after : Nat)
  | split_internal_ly (page : Nat) (right : Fresh)
  | insert_downlink (parent child : Nat)
  /-- The old root is neither the superblock page nor the new root. -/
  | new_root (root : Fresh) (old : Nat) (hold : old ≠ 0 ∧ old ≠ root.page)
  /-- The right sibling is a leaf, so it is not the parent. -/
  | unlink_page (left : Option Nat) (parent : Nat) (right : Option Nat)
      (hright : right ≠ some parent)
  /-- A latch without a record: a move right, or a flag cleared in memory. -/
  | visit (page : Nat) (wrote : Bool)
  deriving DecidableEq, Repr

def Section.actions : Section → List Action
  | write page spills records =>
    .latch page :: spills.flatMap spill ++ logged page records ++ dropGuard page
  | split_leaf_ly left spills before right neighbour after =>
    .latch left :: spills.flatMap spill ++ logged left before ++ right.take ++
      neighbour.toList.map .latch ++
      .rebuild left :: .log (left :: right.page :: neighbour.toList) ::
      .stamp left :: .stamp right.page :: neighbour.toList.map .stamp ++
      dropGuard right.page ++ neighbour.toList.flatMap dropGuard ++
      logged left after ++ dropGuard left
  | split_internal_ly page right =>
    .latch page :: right.take ++
      .rebuild page :: .log [page, right.page] :: .stamp page :: .stamp right.page ::
      dropGuard right.page ++ dropGuard page
  | insert_downlink parent child =>
    .latch parent :: .log [parent, child] :: .stamp parent ::
      .latch child :: .stamp child :: dropGuard child ++ dropGuard parent
  | new_root root old _ =>
    root.take ++ .latch 0 :: .log [root.page, 0, old] :: .stamp root.page :: .stamp 0 ::
      dropGuard root.page ++ dropGuard 0 ++ .latch old :: .stamp old :: dropGuard old
  | unlink_page left parent right _ =>
    left.toList.map .latch ++ .latch parent ::
      .log (parent :: left.toList ++ right.toList) :: .stamp parent :: dropGuard parent ++
      left.toList.map .stamp ++
      right.toList.flatMap (fun r => .latch r :: .stamp r :: dropGuard r) ++
      left.toList.flatMap dropGuard
  | visit page wrote => .latch page :: (if wrote then [.touch page] else []) ++ dropGuard page

/-! ## The steps of all threads -/

/-- A section in progress: what it still has to do, its last record, the pages it has
built, with a fresh header, and not stamped yet, the pages its live guards have written and
those they pin. -/
structure Task where
  todo : List Action
  lsn : Nat
  wiped : List Nat
  wrote : List Nat
  pinned : List Nat
  deriving DecidableEq, Repr

def Task.start (s : Section) : Task where
  todo := s.actions
  lsn := 0
  wiped := []
  wrote := []
  pinned := []

/-- The log, the latches and the pages. `stamped` holds every LSN ever stamped on a page,
newest first. -/
structure Pages where
  next_lsn : Nat
  log : List (Nat × List Nat)
  holder : Nat → Option Nat
  lsn : Nat → Nat
  stamped : Nat → List Nat
  tasks : List Task

inductive PagesEvent
  | start (s : Section)
  | act (i : Nat)
  | fail (i : Nat)
  | log_other
  deriving DecidableEq, Repr

namespace Pages

def new : Pages where
  next_lsn := 1
  log := []
  holder := fun _ => none
  lsn := fun _ => 0
  stamped := fun _ => []
  tasks := []

/-- The action of the task, with the task that is left. -/
def exec (w : Pages) (i : Nat) (task : Task) : Action → Option Pages
  | .latch p =>
    if w.holder p = none then
      some { w with holder := update w.holder p (some i)
                    tasks := w.tasks.set i { task with pinned := p :: task.pinned } }
    else none
  | .new p =>
    if w.holder p = none then
      some { w with holder := update w.holder p (some i)
                    lsn := update w.lsn p 0
                    tasks := w.tasks.set i { task with
                      wiped := p :: task.wiped
                      pinned := p :: task.pinned } }
    else none
  | .rebuild p =>
    some { w with lsn := update w.lsn p 0
                  tasks := w.tasks.set i { task with
                    wiped := p :: task.wiped
                    wrote := p :: task.wrote } }
  | .touch p => some { w with tasks := w.tasks.set i { task with wrote := p :: task.wrote } }
  | .log ps =>
    some { w with next_lsn := w.next_lsn + 1
                  log := (w.next_lsn, ps) :: w.log
                  tasks := w.tasks.set i { task with lsn := w.next_lsn } }
  | .stamp p =>
    some { w with lsn := update w.lsn p task.lsn
                  stamped := update w.stamped p (task.lsn :: w.stamped p)
                  tasks := w.tasks.set i { task with
                    wiped := task.wiped.filter (· ≠ p)
                    wrote := p :: task.wrote } }
  | .unlatch p => some { w with holder := update w.holder p none, tasks := w.tasks.set i task }
  | .unpin p =>
    some { w with tasks := w.tasks.set i { task with
                    wrote := task.wrote.filter (· ≠ p)
                    pinned := task.pinned.filter (· ≠ p) } }

/-- What is left of a section that fails: its live guards are dropped, the last one first. -/
def drops (w : Pages) (i : Nat) (task : Task) : List Action :=
  task.pinned.flatMap fun p => if w.holder p = some i then dropGuard p else [.unpin p]

/-- One step. A section can fail at any point, on a WAL or a buffer pool error. -/
def step (w : Pages) : PagesEvent → Option Pages
  | .start s => some { w with tasks := w.tasks ++ [Task.start s] }
  | .act i =>
    match w.tasks[i]? with
    | some task =>
      match task.todo with
      | a :: rest => w.exec i { task with todo := rest } a
      | [] => none
    | none => none
  | .fail i =>
    match w.tasks[i]? with
    | some task => some { w with tasks := w.tasks.set i { task with todo := w.drops i task } }
    | none => none
  | .log_other =>
    some { w with next_lsn := w.next_lsn + 1, log := (w.next_lsn, []) :: w.log }

/-- What a task still has to do. -/
def todo (w : Pages) (i : Nat) : List Action :=
  match w.tasks[i]? with
  | some task => task.todo
  | none => []

end Pages

/-! ## Sections that keep their latches -/

/-- The pages that are still to be stamped with the last record. -/
def owed : List Action → List Nat
  | [] | .log _ :: _ => []
  | .stamp p :: rest => p :: owed rest
  | _ :: rest => owed rest

/-- The rest of a section is in order, given the pages it holds, those of them whose header
is fresh, and the pages it pins: it stamps and drops only pages it holds, stamps every wiped
page before it drops it, stamps exactly the pages of a record before the next one, and drops
no page that its last record still has to be stamped on. A latch that the section itself
holds is never granted, so nothing is asked after it. -/
def Fine (held wiped pinned : List Nat) : List Action → Prop
  | [] => held = [] ∧ pinned = []
  | .latch p :: rest => p ∈ held ∨ (p ∉ pinned ∧ Fine (p :: held) wiped (p :: pinned) rest)
  | .new p :: rest => p ∈ held ∨ (p ∉ pinned ∧ Fine (p :: held) (p :: wiped) (p :: pinned) rest)
  | .rebuild p :: rest => p ∈ held ∧ Fine held (p :: wiped) pinned rest
  | .touch p :: rest => p ∈ held ∧ Fine held wiped pinned rest
  | .log ps :: rest => (∀ p, p ∈ ps ↔ p ∈ owed rest) ∧ Fine held wiped pinned rest
  | .stamp p :: rest => p ∈ held ∧ Fine held (wiped.filter (· ≠ p)) pinned rest
  | .unlatch p :: rest =>
    p ∈ held ∧ p ∉ wiped ∧ p ∉ owed rest ∧ Fine (held.filter (· ≠ p)) wiped pinned rest
  | .unpin p :: rest => p ∈ pinned ∧ p ∉ held ∧ Fine held wiped (pinned.filter (· ≠ p)) rest

attribute [simp] dropGuard Section.actions owed Fine

variable {rest : List Action} {held : List Nat} {p : Nat}

theorem filter_ne_of_notMem (h : p ∉ held) : held.filter (· ≠ p) = held := by
  apply filter_eq_self.mpr
  intro x hx
  simp only [ne_eq, decide_not, Bool.not_eq_eq_eq_not, Bool.not_true, decide_eq_false_iff_not]
  rintro rfl
  exact h hx

theorem filter_cons_of_notMem (h : p ∉ held) : (p :: held).filter (· ≠ p) = held := by
  rw [filter_cons_of_neg (by simp), filter_ne_of_notMem h]

theorem owed_logged (p n : Nat) (h : owed rest = []) : owed (logged p n ++ rest) = [] := by
  cases n with
  | zero => simpa [logged] using h
  | succ n => simp [logged]

theorem fine_logged {wiped pinned : List Nat} (n : Nat) (hp : p ∈ held) (hw : p ∉ wiped)
    (ho : owed rest = []) (h : Fine held wiped pinned rest) :
    Fine held wiped pinned (logged p n ++ rest) := by
  induction n with
  | zero => simpa [logged] using h
  | succ n ih =>
    simp only [logged, cons_append, Fine, filter_ne_of_notMem hw]
    refine ⟨?_, hp, ih⟩
    simp [owed_logged p n ho]

theorem owed_onePage (p n : Nat) (rest : List Action) (h : owed rest = []) :
    owed (onePage p n ++ rest) = [] := by
  simp only [onePage, cons_append, append_assoc, owed]
  exact owed_logged p n (by simpa using h)

/-- A page latched for records of its own leaves the section as it was. -/
theorem fine_onePage {wiped : List Nat} (p n : Nat) (hw : p ∉ wiped) (ho : owed rest = [])
    (h : Fine held wiped held rest) : Fine held wiped held (onePage p n ++ rest) := by
  simp only [onePage, cons_append, append_assoc, Fine]
  by_cases hp : p ∈ held
  · exact .inl hp
  refine .inr ⟨hp, fine_logged n mem_cons_self hw (by simpa using ho) ?_⟩
  simp only [dropGuard, cons_append, nil_append, Fine, filter_cons_of_notMem hp]
  refine ⟨mem_cons_self, hw, ?_, mem_cons_self, hp, h⟩
  simp [ho]

theorem owed_take (f : Fresh) (h : owed rest = []) : owed (f.take ++ rest) = [] := by
  unfold Fresh.take
  cases f.bitmap with
  | none => simpa using h
  | some b =>
    rw [append_assoc]
    exact owed_onePage b 1 _ (by simpa using h)

theorem fine_take (f : Fresh) (ho : owed rest = [])
    (h : f.page ∉ held → Fine (f.page :: held) [f.page] (f.page :: held) rest) :
    Fine held [] held (f.take ++ rest) := by
  have hnew : Fine held [] held (.new f.page :: rest) := by
    simp only [Fine]
    by_cases hp : f.page ∈ held
    · exact .inl hp
    · exact .inr ⟨hp, h hp⟩
  unfold Fresh.take
  cases f.bitmap with
  | none => simpa using hnew
  | some b =>
    rw [append_assoc]
    exact fine_onePage b 1 (by simp) (by simpa using ho) hnew

theorem owed_spills (fs : List Fresh) (h : owed rest = []) :
    owed (fs.flatMap spill ++ rest) = [] := by
  cases fs with
  | nil => simpa using h
  | cons f fs =>
    simp only [flatMap_cons, spill, append_assoc, cons_append]
    exact owed_take f rfl

theorem fine_spills (fs : List Fresh) (ho : owed rest = []) (h : Fine held [] held rest) :
    Fine held [] held (fs.flatMap spill ++ rest) := by
  induction fs with
  | nil => simpa using h
  | cons f fs ih =>
    simp only [flatMap_cons, spill, append_assoc, cons_append]
    apply fine_take f rfl
    intro hp
    have hrest := owed_spills fs ho
    simp only [Fine, dropGuard, cons_append, nil_append, owed, hrest, filter_cons_of_notMem hp]
    exact ⟨by simp, by simp, by simp, by simp, by simp, by simp, hp, by simpa using ih⟩

theorem owed_actions (s : Section) : owed s.actions = [] := by
  cases s with
  | write page spills records =>
    simp only [Section.actions, append_assoc, cons_append, owed]
    exact owed_spills spills (owed_logged page records (by simp))
  | split_leaf_ly left spills before right neighbour after =>
    simp only [Section.actions, append_assoc, cons_append, owed]
    apply owed_spills
    apply owed_logged
    apply owed_take
    cases neighbour <;> simp
  | split_internal_ly page right =>
    simp only [Section.actions, append_assoc, cons_append, owed]
    exact owed_take right (by simp)
  | insert_downlink parent child => simp
  | new_root root old hold =>
    simp only [Section.actions, append_assoc, cons_append]
    exact owed_take root (by simp)
  | unlink_page left parent right hright => cases left <;> simp
  | visit page wrote => cases wrote <;> simp

/-- Every section of the index is in order. -/
theorem fine_actions (s : Section) : Fine [] [] [] s.actions := by
  cases s with
  | write page spills records =>
    simp only [Section.actions, append_assoc, cons_append, Fine]
    refine .inr ⟨by simp, fine_spills spills (owed_logged page records (by simp)) ?_⟩
    refine fine_logged records mem_cons_self (by simp) (by simp) ?_
    simp
  | split_leaf_ly left spills before right neighbour after =>
    simp only [Section.actions, append_assoc, cons_append, Fine]
    have hlast : Fine [left] [] [left] (logged left after ++ dropGuard left) := by
      refine fine_logged after mem_cons_self (by simp) (by simp) ?_
      simp
    have hafter : owed (logged left after ++ dropGuard left) = [] :=
      owed_logged left after (by simp)
    generalize logged left after ++ dropGuard left = tail at hlast hafter ⊢
    have hmid : owed (neighbour.toList.map Action.latch ++ .rebuild left ::
        .log (left :: right.page :: neighbour.toList) :: .stamp left :: .stamp right.page ::
        (neighbour.toList.map Action.stamp ++ (dropGuard right.page ++
        (neighbour.toList.flatMap dropGuard ++ tail)))) = [] := by
      cases neighbour <;> simp
    refine .inr ⟨by simp, fine_spills spills (owed_logged left before (owed_take right hmid)) ?_⟩
    refine fine_logged before mem_cons_self (by simp) (owed_take right hmid) ?_
    refine fine_take right hmid fun hr => ?_
    have hne : right.page ≠ left := by simpa using hr
    cases neighbour with
    | none => simp [hafter, hlast, hne, Ne.symm hne]
    | some n =>
      by_cases hn : n = right.page ∨ n = left
      · simp [hn]
      rw [not_or] at hn
      simp [hafter, hlast, hne, Ne.symm hne, hn, Ne.symm hn.1, Ne.symm hn.2]
  | split_internal_ly page right =>
    simp only [Section.actions, append_assoc, cons_append, Fine]
    refine .inr ⟨by simp, fine_take right (by simp) fun hr => ?_⟩
    have hne : right.page ≠ page := by simpa using hr
    simp [hne, Ne.symm hne]
  | insert_downlink parent child =>
    by_cases h : child = parent
    · subst h; simp
    · simp [h, Ne.symm h]
  | new_root root old hold =>
    simp only [Section.actions, append_assoc, cons_append]
    refine fine_take root (by simp) fun _ => ?_
    by_cases h : 0 = root.page
    · simp [h]
    · simp [h, Ne.symm h, Ne.symm hold.1, Ne.symm hold.2]
  | unlink_page left parent right hright =>
    cases left with
    | none =>
      cases right with
      | none => simp
      | some r =>
        have h : parent ≠ r := by rintro rfl; exact hright rfl
        simp [h]
    | some l =>
      by_cases hlp : parent = l
      · simp [hlp]
      cases right with
      | none => simp [hlp, Ne.symm hlp]
      | some r =>
        have h : parent ≠ r := by rintro rfl; exact hright rfl
        by_cases hrl : r = l
        · simp [hlp, Ne.symm hlp, hrl]
        · simp [hlp, Ne.symm hlp, hrl, h, Ne.symm hrl]
  | visit page wrote => cases wrote <;> simp

end FluxDB
