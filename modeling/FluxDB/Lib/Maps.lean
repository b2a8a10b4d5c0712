-- Finite maps, lists with one element replaced, and minima with a default. The maps are
-- association lists without duplicate keys; what is added here is the list of a map's
-- values and what a lookup finds after an update.
import Mathlib.Algebra.GroupWithZero.Nat
import Mathlib.Data.List.AList
import Mathlib.Data.List.MinMax

namespace FluxDB.Maps

open List AList

/-! ## Values of a map -/

section Values

variable {α β : Type*} [DecidableEq α]

/-- A finite map with values of one type. -/
abbrev Map (α β : Type*) := AList fun _ : α => β

/-- The values of the map, in the order of its entries. -/
def values (m : Map α β) : List β := m.entries.map Sigma.snd

variable {m : Map α β}

theorem mem_values {b : β} : b ∈ values m ↔ ∃ a, m.lookup a = some b := by
  constructor
  · intro h
    obtain ⟨⟨a, b'⟩, hmem, rfl⟩ := mem_map.mp h
    exact ⟨a, mem_lookup_iff.mpr hmem⟩
  rintro ⟨a, h⟩
  exact mem_map.mpr ⟨⟨a, b⟩, mem_lookup_iff.mp h, rfl⟩

theorem lookup_insert_eq_ite (m : Map α β) (a a' : α) (b : β) :
    (m.insert a b).lookup a' = if a' = a then some b else m.lookup a' := by
  split
  · next h => subst h; exact lookup_insert m
  · next h => exact lookup_insert_ne h

theorem lookup_erase_eq_ite (m : Map α β) (a a' : α) :
    (m.erase a).lookup a' = if a' = a then none else m.lookup a' := by
  split
  · next h => subst h; exact lookup_erase a' m
  · next h => exact lookup_erase_ne h

theorem lookup_of_lookup_erase {m : Map α β} {a a' : α} {b : β}
    (h : (m.erase a).lookup a' = some b) : m.lookup a' = some b := by
  rw [lookup_erase_eq_ite] at h
  split at h
  · cases h
  · exact h

theorem mem_of_lookup_eq_some {a : α} {b : β} (h : m.lookup a = some b) : a ∈ m := by
  rw [← lookup_isSome, h]
  rfl

theorem exists_lookup_of_mem {a : α} (h : a ∈ m) : ∃ b, m.lookup a = some b := by
  rw [← lookup_isSome] at h
  exact Option.isSome_iff_exists.mp h

/-- The entries of the map that meet a test. -/
def retain (m : Map α β) (keep : α → β → Bool) : Map α β where
  entries := m.entries.filter fun e => keep e.1 e.2
  nodupKeys := m.nodupKeys.sublist List.filter_sublist

theorem lookup_retain (m : Map α β) (keep : α → β → Bool) (a : α) :
    (retain m keep).lookup a = (m.lookup a).filter (keep a) := by
  ext b
  rw [Option.filter_eq_some_iff]
  exact (mem_lookup_iff.trans mem_filter).trans (and_congr_left' mem_lookup_iff.symm)

end Values

/-! ## Lists with one element replaced -/

variable {d i : Nat} {l : List Nat}

theorem forall_mem_set {α : Type*} {l : List α} {a : α} {P : α → Prop} (h : ∀ b ∈ l, P b)
    (ha : P a) : ∀ b ∈ l.set i a, P b := by
  intro b hb
  rcases mem_or_eq_of_mem_set hb with hb | rfl
  · exact h b hb
  · exact ha

theorem forall_mem_concat {α : Type*} {l : List α} {a : α} {P : α → Prop} (h : ∀ b ∈ l, P b)
    (ha : P a) : ∀ b ∈ l ++ [a], P b :=
  forall_mem_append.mpr ⟨h, forall_mem_singleton.mpr ha⟩

theorem lt_of_getElem? {α : Type*} {l : List α} {a : α} (h : l[i]? = some a) : i < l.length :=
  (List.getElem?_eq_some_iff.mp h).1

theorem getElem?_of_take {α : Type*} {l : List α} {a : α} (h : (l.take n)[i]? = some a) :
    i < n ∧ l[i]? = some a := by
  rw [getElem?_take] at h
  exact Option.ite_none_right_eq_some.mp h

theorem getElem?_concat_cases {α : Type*} {l : List α} {a b : α} (h : (l ++ [a])[i]? = some b) :
    l[i]? = some b ∨ i = l.length ∧ b = a := by
  rcases Nat.lt_or_ge i l.length with hlt | hge
  · rw [getElem?_append_left hlt] at h
    exact .inl h
  have hlt := lt_of_getElem? h
  rw [length_append, length_singleton] at hlt
  obtain rfl : i = l.length := by omega
  rw [getElem?_concat_length] at h
  exact .inr ⟨rfl, (Option.some.inj h).symm⟩

theorem getElem?_set_eq_ite {α : Type*} {l : List α} {a : α} (h : l[i]? = some a) (b : α)
    (j : Nat) : (l.set i b)[j]? = if j = i then some b else l[j]? := by
  have hlt := lt_of_getElem? h
  by_cases hj : j = i
  · subst hj; simp [hlt]
  · rw [if_neg hj]; exact getElem?_set_ne (Ne.symm hj)

/-- Replacing an element moves a count by what the old and the new element add to it. -/
theorem countP_set_add {α : Type*} {l : List α} {a : α} (h : l[i]? = some a) (b : α)
    (q : α → Bool) :
    (l.set i b).countP q + (if q a then 1 else 0) = l.countP q + (if q b then 1 else 0) := by
  induction l generalizing i with
  | nil => simp at h
  | cons x l ih =>
    cases i with
    | zero =>
      simp only [getElem?_cons_zero, Option.some.injEq] at h
      subst h
      simp only [set_cons_zero, countP_cons]
      omega
    | succ i =>
      simp only [getElem?_cons_succ] at h
      have := ih h
      simp only [set_cons_succ, countP_cons]
      omega

/-- A sum falls with the summand of the element that is replaced. -/
theorem sum_map_set_lt {α : Type*} {l : List α} {a b : α} {f : α → Nat} (h : l[i]? = some a)
    (hlt : f b < f a) : ((l.set i b).map f).sum < (l.map f).sum := by
  induction l generalizing i with
  | nil => simp at h
  | cons x l ih =>
    cases i with
    | zero =>
      simp only [getElem?_cons_zero, Option.some.injEq] at h
      subst h
      simp only [set_cons_zero, map_cons, sum_cons]
      omega
    | succ i =>
      simp only [getElem?_cons_succ] at h
      have := ih h
      simp only [set_cons_succ, map_cons, sum_cons]
      omega

/-- At most one element of the list meets the test. -/
theorem eq_of_countP_le_one {α : Type*} {l : List α} {q : α → Bool} (h : l.countP q ≤ 1) {j : Nat}
    {a b : α} (hi : l[i]? = some a) (ha : q a = true) (hj : l[j]? = some b) (hb : q b = true) :
    i = j := by
  induction l generalizing i j with
  | nil => simp at hi
  | cons x l ih =>
    rw [countP_cons] at h
    have hnone : ∀ {k : Nat} {c : α}, q x = true → l[k]? = some c → q c = true → False := by
      intro k c hx hk hc
      have := countP_pos_iff.mpr ⟨c, mem_of_getElem? hk, hc⟩
      rw [if_pos hx] at h
      omega
    cases i with
    | zero =>
      cases j with
      | zero => rfl
      | succ j =>
        simp only [getElem?_cons_zero, getElem?_cons_succ, Option.some.injEq] at hi hj
        exact (hnone (hi ▸ ha) hj hb).elim
    | succ i =>
      cases j with
      | zero =>
        simp only [getElem?_cons_zero, getElem?_cons_succ, Option.some.injEq] at hi hj
        exact (hnone (hj ▸ hb) hi ha).elim
      | succ j =>
        simp only [getElem?_cons_succ] at hi hj
        rw [ih (by omega) hi hj]

/-! ## Minimum with a default -/

/-- The least number of the list, or `d` for the empty list. -/
def minOr (l : List Nat) (d : Nat) : Nat := l.min?.getD d

theorem minOr_cases (l : List Nat) (d : Nat) :
    (l = [] ∧ minOr l d = d) ∨ (minOr l d ∈ l ∧ ∀ x ∈ l, minOr l d ≤ x) := by
  unfold minOr
  cases h : l.min? with
  | none => exact .inl ⟨min?_eq_none_iff.mp h, rfl⟩
  | some m => exact .inr (min?_eq_some_iff.mp h)

theorem minOr_le_of_mem {x : Nat} (h : x ∈ l) : minOr l d ≤ x := by
  rcases minOr_cases l d with ⟨rfl, _⟩ | ⟨_, hle⟩
  · simp at h
  · exact hle x h

theorem le_minOr {m : Nat} (hl : ∀ x ∈ l, m ≤ x) (hd : m ≤ d) : m ≤ minOr l d := by
  rcases minOr_cases l d with ⟨_, he⟩ | ⟨hmem, _⟩
  · rw [he]; exact hd
  · exact hl _ hmem

theorem minOr_le_default (hl : ∀ x ∈ l, x ≤ d) : minOr l d ≤ d := by
  rcases minOr_cases l d with ⟨_, he⟩ | ⟨hmem, _⟩
  · exact he.le
  · exact hl _ hmem

end FluxDB.Maps
