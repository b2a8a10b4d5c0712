-- Linked chains. A chain is a list of distinct ids; each id has the one behind it and the one in
-- front of it. A new id can be put behind one of the chain, which changes three links.
import Mathlib.Data.List.Chain
import Mathlib.Data.List.Nodup

namespace Chain

open List

variable {α β : Type} [DecidableEq α]

/-- The id behind `x`. -/
def next : List α → α → Option α
  | a :: b :: l, x => if x = a then some b else next (b :: l) x
  | _, _ => none

/-- The id in front of `x`. -/
def prev (l : List α) (x : α) : Option α := next l.reverse x

/-- The chain with `q` behind `p`. -/
def insertAfter (p q : α) : List α → List α
  | [] => []
  | a :: l => if a = p then a :: q :: l else a :: insertAfter p q l

/-! ## Around an id -/

theorem next_cons_self (x : α) (l : List α) : next (x :: l) x = l.head? := by
  cases l with
  | nil => rfl
  | cons b l =>
    unfold next
    rw [if_pos rfl, head?_cons]

variable {l₁ l₂ : List α} {y : α}

theorem next_append_of_notMem (l₂ : List α) {x : α} (hx : x ∉ l₁) :
    next (l₁ ++ l₂) x = next l₂ x := by
  induction l₁ with
  | nil => rfl
  | cons a l₁ ih =>
    rw [mem_cons, not_or] at hx
    rw [cons_append]
    cases htail : l₁ ++ l₂ with
    | nil =>
      obtain ⟨-, rfl⟩ := append_eq_nil_iff.mp htail
      rfl
    | cons b t =>
      rw [next, if_neg hx.1, ← htail]
      exact ih hx.2

theorem next_append_cons {x : α} (hx : x ∉ l₁) : next (l₁ ++ x :: l₂) x = l₂.head? := by
  rw [next_append_of_notMem _ hx, next_cons_self]

theorem prev_append_cons {x : α} (hx : x ∉ l₂) : prev (l₁ ++ x :: l₂) x = l₁.getLast? := by
  unfold prev
  rw [reverse_append, reverse_cons, append_assoc, singleton_append,
    next_append_cons (by rwa [mem_reverse]), head?_reverse]

/-- An id of a chain with what is in front of it and behind it. -/
theorem exists_around {l : List α} (hl : l.Nodup) {x : α} (hx : x ∈ l) :
    ∃ l₁ l₂, l = l₁ ++ x :: l₂ ∧ x ∉ l₁ ∧ x ∉ l₂ ∧ next l x = l₂.head? ∧
      prev l x = l₁.getLast? := by
  obtain ⟨l₁, l₂, rfl⟩ := append_of_mem hx
  rw [nodup_append, nodup_cons] at hl
  have h₁ : x ∉ l₁ := fun h => hl.2.2 x h x mem_cons_self rfl
  exact ⟨l₁, l₂, rfl, h₁, hl.2.1.1, next_append_cons h₁, prev_append_cons hl.2.1.1⟩

theorem next_around {l : List α} (hl : l.Nodup) {x : α} (h : l = l₁ ++ x :: l₂) :
    next l x = l₂.head? := by
  subst h
  apply next_append_cons
  rw [nodup_append] at hl
  exact fun hx => hl.2.2 x hx x mem_cons_self rfl

theorem prev_around {l : List α} (hl : l.Nodup) {x : α} (h : l = l₁ ++ x :: l₂) :
    prev l x = l₁.getLast? := by
  subst h
  apply prev_append_cons
  rw [nodup_append, nodup_cons] at hl
  exact hl.2.1.1

theorem mem_of_next {l : List α} {x : α} (h : next l x = some y) : x ∈ l ∧ y ∈ l := by
  induction l with
  | nil => cases h
  | cons a l ih =>
    cases l with
    | nil => cases h
    | cons b l =>
      unfold next at h
      split at h
      · next heq =>
        cases h
        simp [heq]
      obtain ⟨h₁, h₂⟩ := ih h
      exact ⟨mem_cons_of_mem _ h₁, mem_cons_of_mem _ h₂⟩

theorem mem_of_prev {l : List α} {x : α} (h : prev l x = some y) : x ∈ l ∧ y ∈ l := by
  obtain ⟨h₁, h₂⟩ := mem_of_next h
  exact ⟨mem_reverse.mp h₁, mem_reverse.mp h₂⟩

/-- The two links between neighbours go together. -/
theorem prev_of_next {l : List α} (hl : l.Nodup) {x : α} (h : next l x = some y) :
    prev l y = some x := by
  obtain ⟨l₁, l₂, rfl, -, -, hnext, -⟩ := exists_around hl (mem_of_next h).1
  rw [h] at hnext
  cases l₂ with
  | nil => cases hnext
  | cons b l₂ =>
    cases hnext
    have hsplit : l₁ ++ x :: y :: l₂ = (l₁ ++ [x]) ++ y :: l₂ := by simp
    rw [hsplit] at hl ⊢
    rw [prev_append_cons, getLast?_concat]
    rw [nodup_append, nodup_cons] at hl
    exact hl.2.1.1

theorem next_of_prev {l : List α} (hl : l.Nodup) {x : α} (h : prev l y = some x) :
    next l x = some y := by
  have hrev := prev_of_next (nodup_reverse.mpr hl) h
  unfold prev at hrev
  rwa [reverse_reverse] at hrev

theorem next_ne_self {l : List α} (hl : l.Nodup) (x : α) : next l x ≠ some x := by
  intro h
  obtain ⟨l₁, l₂, rfl, -, hnot, hnext, -⟩ := exists_around hl (mem_of_next h).1
  rw [h] at hnext
  exact hnot (mem_of_mem_head? hnext.symm)

theorem head_of_prev {l : List α} (hl : l.Nodup) {x : α} (hx : x ∈ l) (h : prev l x = none) :
    l.head? = some x := by
  obtain ⟨l₁, l₂, rfl, -, -, -, hprev⟩ := exists_around hl hx
  rw [h] at hprev
  rw [getLast?_eq_none_iff.mp hprev.symm]
  rfl

theorem prev_head {l : List α} (hl : l.Nodup) {x : α} (h : l.head? = some x) :
    prev l x = none := by
  cases l with
  | nil => cases h
  | cons a l =>
    cases h
    have hprev : prev ([] ++ x :: l) x = ([] : List α).getLast? :=
      prev_append_cons (nodup_cons.mp hl).1
    exact hprev

/-! ## Walking -/

/-- What holds of an id if it holds of the one behind it holds of every id. -/
@[elab_as_elim]
theorem induct_right {l : List α} (hl : l.Nodup) {P : α → Prop}
    (h : ∀ x ∈ l, (∀ y, next l x = some y → P y) → P x) {x : α} (hx : x ∈ l) : P x := by
  obtain ⟨l₁, l₂, heq, -⟩ := exists_around hl hx
  induction l₂ generalizing l₁ x with
  | nil =>
    apply h x hx
    intro y hy
    subst heq
    obtain ⟨hnot, -⟩ := nodup_cons.mp (nodup_append.mp hl).2.1
    rw [next_append_cons] at hy
    · cases hy
    intro hmem
    exact (nodup_append.mp hl).2.2 x hmem x mem_cons_self rfl
  | cons b l₂ ih =>
    apply h x hx
    intro y hy
    have hb : next l x = some b := by
      subst heq
      rw [next_append_cons]
      · rfl
      intro hmem
      exact (nodup_append.mp hl).2.2 x hmem x mem_cons_self rfl
    cases hy.symm.trans hb
    exact ih (mem_of_next hb).2 (l₁ ++ [x]) (by simp [heq])

/-! ## One id more -/

theorem insertAfter_append_cons {p q : α} (hp : p ∉ l₁) :
    insertAfter p q (l₁ ++ p :: l₂) = l₁ ++ p :: q :: l₂ := by
  induction l₁ with
  | nil => rw [nil_append, insertAfter, if_pos rfl, nil_append]
  | cons a l₁ ih =>
    rw [mem_cons, not_or] at hp
    rw [cons_append, insertAfter, if_neg (Ne.symm hp.1), ih hp.2]
    rfl

section InsertAfter

variable {l : List α} {p q x : α}

theorem mem_insertAfter (hp : p ∈ l) : x ∈ insertAfter p q l ↔ x = q ∨ x ∈ l := by
  induction l with
  | nil => cases hp
  | cons a l ih =>
    unfold insertAfter
    split
    · simp only [mem_cons]
      tauto
    rename_i hne
    rw [mem_cons, mem_cons, ih ((mem_cons.mp hp).resolve_left (Ne.symm hne))]
    tauto

theorem nodup_insertAfter (hl : l.Nodup) (hq : q ∉ l) : (insertAfter p q l).Nodup := by
  by_cases hp : p ∈ l
  · obtain ⟨l₁, l₂, rfl, h₁, -⟩ := exists_around hl hp
    rw [insertAfter_append_cons h₁]
    have hperm : (l₁ ++ p :: q :: l₂).Perm (q :: (l₁ ++ p :: l₂)) := by
      have hmiddle : ((l₁ ++ [p]) ++ q :: l₂).Perm (q :: ((l₁ ++ [p]) ++ l₂)) := perm_middle
      simpa using hmiddle
    exact hperm.nodup_iff.mpr (nodup_cons.mpr ⟨hq, hl⟩)
  have hsame : insertAfter p q l = l := by
    clear hl hq
    induction l with
    | nil => rfl
    | cons a l ih =>
      rw [mem_cons, not_or] at hp
      rw [insertAfter, if_neg (Ne.symm hp.1), ih hp.2]
  rwa [hsame]

theorem head_insertAfter : (insertAfter p q l).head? = l.head? := by
  cases l with
  | nil => rfl
  | cons a l =>
    unfold insertAfter
    split <;> rfl

variable (hl : l.Nodup) (hp : p ∈ l) (hq : q ∉ l)
include hl hp hq

theorem next_insertAfter_left : next (insertAfter p q l) p = some q := by
  obtain ⟨l₁, l₂, rfl, h₁, -⟩ := exists_around hl hp
  rw [insertAfter_append_cons h₁, next_append_cons h₁, head?_cons]

theorem next_insertAfter_new : next (insertAfter p q l) q = next l p := by
  obtain ⟨l₁, l₂, rfl, h₁, -, hnext, -⟩ := exists_around hl hp
  rw [insertAfter_append_cons h₁, hnext]
  have hsplit : l₁ ++ p :: q :: l₂ = (l₁ ++ [p]) ++ q :: l₂ := by simp
  rw [hsplit, next_append_cons]
  simp only [mem_append, mem_cons] at hq ⊢
  tauto

theorem next_insertAfter_other (hxp : x ≠ p) (hxq : x ≠ q) :
    next (insertAfter p q l) x = next l x := by
  obtain ⟨l₁, l₂, rfl, h₁, h₂, -⟩ := exists_around hl hp
  rw [insertAfter_append_cons h₁]
  by_cases hx : x ∈ l₁
  · obtain ⟨m₁, m₂, rfl⟩ := append_of_mem hx
    have hm : x ∉ m₁ := by
      have hleft := (nodup_append.mp hl).1
      intro hmem
      exact (nodup_append.mp hleft).2.2 x hmem x mem_cons_self rfl
    rw [append_assoc, append_assoc, cons_append, cons_append,
      next_append_cons hm, next_append_cons hm, head?_append, head?_append]
    rfl
  rw [next_append_of_notMem _ hx, next_append_of_notMem _ hx]
  cases l₂ with
  | nil => simp [next, hxp]
  | cons b l₂ => simp [next, hxp, hxq]

theorem prev_insertAfter_new : prev (insertAfter p q l) q = some p :=
  prev_of_next (nodup_insertAfter hl hq) (next_insertAfter_left hl hp hq)

theorem prev_insertAfter_right (hy : next l p = some y) : prev (insertAfter p q l) y = some q := by
  apply prev_of_next (nodup_insertAfter hl hq)
  rw [next_insertAfter_new hl hp hq, hy]

theorem prev_insertAfter_other (hx : x ∈ l) (hnext : next l p ≠ some x) :
    prev (insertAfter p q l) x = prev l x := by
  have hnodup := nodup_insertAfter (p := p) hl hq
  have hxq : x ≠ q := fun h => hq (h ▸ hx)
  cases hprev : prev l x with
  | none =>
    apply prev_head hnodup
    rw [head_insertAfter, head_of_prev hl hx hprev]
  | some y =>
    have hy := next_of_prev hl hprev
    apply prev_of_next hnodup
    have hyp : y ≠ p := by
      rintro rfl
      exact hnext hy
    have hyq : y ≠ q := fun h => hq (h ▸ (mem_of_prev hprev).2)
    rw [next_insertAfter_other hl hp hq hyp hyq, hy]

/-- If the content of `p` is cut in two, the contents of the chain stay the same. -/
theorem flatMap_insertAfter {f g : α → List β} (hcut : g p ++ g q = f p)
    (hsame : ∀ x ∈ l, x ≠ p → g x = f x) : (insertAfter p q l).flatMap g = l.flatMap f := by
  obtain ⟨l₁, l₂, rfl, h₁, h₂, -⟩ := exists_around hl hp
  have hleft : l₁.flatMap g = l₁.flatMap f := by
    apply flatMap_congr
    intro x hx
    exact hsame x (by simp [hx]) fun h => h₁ (h ▸ hx)
  have hright : l₂.flatMap g = l₂.flatMap f := by
    apply flatMap_congr
    intro x hx
    exact hsame x (by simp [hx]) fun h => h₂ (h ▸ hx)
  rw [insertAfter_append_cons h₁]
  simp only [flatMap_append, flatMap_cons, hleft, hright, ← hcut, append_assoc]

end InsertAfter

end Chain
