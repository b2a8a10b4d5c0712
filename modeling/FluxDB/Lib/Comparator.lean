-- Keys that are ordered by a comparison function. The function need not tell all keys apart: it
-- is a total preorder, and keys that compare as equal are the same key to the program.
import Mathlib.Data.List.Pairwise
import Mathlib.Order.Compare

namespace Comparator

variable {α : Type*} {cmp : α → α → Ordering}

/-- `a` does not compare as greater than `b`. -/
def Le (cmp : α → α → Ordering) (a b : α) : Prop := cmp a b ≠ .gt

instance (a b : α) : Decidable (Le cmp a b) := inferInstanceAs (Decidable (cmp a b ≠ .gt))

theorem le_iff_isLE {a b : α} : Le cmp a b ↔ (cmp a b).isLE = true := by
  unfold Le
  cases cmp a b <;> decide

theorem le_of_lt {a b : α} (h : cmp a b = .lt) : Le cmp a b := by
  unfold Le
  rw [h]
  exact nofun

theorem le_of_eq {a b : α} (h : cmp a b = .eq) : Le cmp a b := by
  unfold Le
  rw [h]
  exact nofun

theorem lt_or_eq_of_le {a b : α} (h : Le cmp a b) : cmp a b = .lt ∨ cmp a b = .eq := by
  cases hc : cmp a b with
  | lt => exact .inl rfl
  | eq => exact .inr rfl
  | gt => exact absurd hc h

section Oriented

variable [Std.OrientedCmp cmp]

theorem lt_iff_not_le {a b : α} : cmp a b = .lt ↔ ¬ Le cmp b a := by
  unfold Le
  rw [not_not]
  exact Std.OrientedCmp.gt_iff_lt.symm

theorem le_iff_not_lt {a b : α} : Le cmp a b ↔ cmp b a ≠ .lt := by
  rw [Ne, lt_iff_not_le, not_not]

theorem le_refl (a : α) : Le cmp a a := by
  apply le_of_eq
  exact Std.ReflCmp.compare_self

theorem eq_symm {a b : α} (h : cmp a b = .eq) : cmp b a = .eq := Std.OrientedCmp.eq_comm.mp h

theorem eq_of_le_of_le {a b : α} (h : Le cmp a b) (h' : Le cmp b a) : cmp a b = .eq := by
  cases hc : cmp a b with
  | eq => rfl
  | lt => exact absurd h' (lt_iff_not_le.mp hc)
  | gt => exact absurd hc h

theorem le_of_pairwise {l : List α} (h : l.Pairwise (Le cmp)) {i j : Nat} {a b : α} (hij : i ≤ j)
    (hi : l[i]? = some a) (hj : l[j]? = some b) : Le cmp a b := by
  obtain ⟨hi', rfl⟩ := List.getElem?_eq_some_iff.mp hi
  obtain ⟨hj', rfl⟩ := List.getElem?_eq_some_iff.mp hj
  rcases Nat.lt_or_eq_of_le hij with hlt | rfl
  · exact List.pairwise_iff_getElem.mp h i j hi' hj' hlt
  · exact le_refl _

end Oriented

section Trans

variable [Std.TransCmp cmp] {a b c : α}

theorem le_trans (h : Le cmp a b) (h' : Le cmp b c) : Le cmp a c := by
  rw [le_iff_isLE] at h h' ⊢
  exact Std.TransCmp.isLE_trans h h'

theorem lt_of_lt_of_le (h : cmp a b = .lt) (h' : Le cmp b c) : cmp a c = .lt := by
  rw [lt_iff_not_le] at h ⊢
  exact fun hca => h (le_trans h' hca)

theorem lt_of_le_of_lt (h : Le cmp a b) (h' : cmp b c = .lt) : cmp a c = .lt := by
  rw [lt_iff_not_le] at h' ⊢
  exact fun hca => h' (le_trans hca h)

theorem eq_trans (h : cmp a b = .eq) (h' : cmp b c = .eq) : cmp a c = .eq :=
  eq_of_le_of_le (le_trans (le_of_eq h) (le_of_eq h'))
    (le_trans (le_of_eq (eq_symm h')) (le_of_eq (eq_symm h)))

end Trans

end Comparator
