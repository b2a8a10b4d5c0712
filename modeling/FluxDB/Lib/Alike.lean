-- Two fallible computations that go alike: both fail with the same error, or both return,
-- with related results. The rules follow the way such computations are put together.
import Mathlib.Data.List.Basic

universe u v w

namespace Except

variable {ε : Type u} {α β : Type v}

theorem ok_bind (a : α) (f : α → Except ε β) : (Except.ok a >>= f) = f a := rfl

theorem error_bind (e : ε) (f : α → Except ε β) : (Except.error e >>= f) = Except.error e := rfl

theorem bind_eq_ok {x : Except ε α} {f : α → Except ε β} {b : β} :
    (x >>= f) = Except.ok b ↔ ∃ a, x = Except.ok a ∧ f a = Except.ok b := by
  cases x with
  | ok a => simp [ok_bind]
  | error e => simp [error_bind]

theorem bind_eq_error {x : Except ε α} {f : α → Except ε β} {e : ε} :
    (x >>= f) = Except.error e ↔
      x = Except.error e ∨ ∃ a, x = Except.ok a ∧ f a = Except.error e := by
  cases x with
  | ok a => simp [ok_bind]
  | error e => simp [error_bind]

theorem length_of_mapM {f : α → Except ε β} {l : List α} {r : List β}
    (h : l.mapM f = Except.ok r) : r.length = l.length := by
  induction l generalizing r with
  | nil =>
    cases h
    rfl
  | cons a l ih =>
    rw [List.mapM_cons] at h
    obtain ⟨b, _, h⟩ := bind_eq_ok.mp h
    obtain ⟨bs, hbs, h⟩ := bind_eq_ok.mp h
    cases h
    rw [List.length_cons, List.length_cons, ih hbs]

end Except

/-- Both fail with the same error, or both return related values. -/
def Alike {ε : Type u} {α : Type v} {β : Type w} (R : α → β → Prop) :
    Except ε α → Except ε β → Prop
  | .ok a, .ok b => R a b
  | .error e, .error f => e = f
  | _, _ => False

namespace Alike

variable {ε : Type u} {α β γ δ : Type v} {R : α → β → Prop} {S : γ → δ → Prop}

theorem ok {a : α} {b : β} (h : R a b) :
    Alike R (Except.ok a : Except ε α) (Except.ok b : Except ε β) := h

theorem error (e : ε) : Alike R (Except.error e : Except ε α) (Except.error e : Except ε β) := rfl

theorem refl (x : Except ε α) : Alike Eq x x := by
  cases x <;> rfl

theorem of_eq {x y : Except ε α} (h : x = y) : Alike Eq x y := h ▸ refl x

/-- What follows two computations that go alike goes alike for all related results. -/
theorem bind {x : Except ε α} {y : Except ε β} {f : α → Except ε γ} {g : β → Except ε δ}
    (h : Alike R x y) (hfg : ∀ a b, R a b → Alike S (f a) (g b)) :
    Alike S (x >>= f) (y >>= g) := by
  cases x with
  | ok a =>
    cases y with
    | ok b => exact hfg a b h
    | error _ => exact h.elim
  | error e =>
    cases y with
    | ok _ => exact h.elim
    | error f =>
      cases h
      rfl

theorem ok_of_ok {x : Except ε α} {y : Except ε β} {b : β} (h : Alike R x y)
    (hy : y = Except.ok b) : ∃ a, x = Except.ok a ∧ R a b := by
  subst hy
  cases x with
  | ok a => exact ⟨a, rfl, h⟩
  | error _ => exact h.elim

theorem ite {c : Prop} [Decidable c] {x x' : Except ε α} {y y' : Except ε β}
    (ht : c → Alike R x y) (he : ¬ c → Alike R x' y') :
    Alike R (if c then x else x') (if c then y else y') := by
  by_cases hc : c
  · rw [if_pos hc, if_pos hc]; exact ht hc
  · rw [if_neg hc, if_neg hc]; exact he hc

/-- A check that fails on both sides, or on none. -/
theorem guard {c : Prop} [Decidable c] {e : ε} {x : Except ε α} {y : Except ε β}
    (h : ¬ c → Alike R x y) : Alike R (if c then .error e else x) (if c then .error e else y) :=
  ite (fun _ => error e) h

theorem foldlM {ι : Type w} {f : α → ι → Except ε α} {g : β → ι → Except ε β} {l : List ι}
    {a : α} {b : β} (h : R a b) (hfg : ∀ i ∈ l, ∀ a b, R a b → Alike R (f a i) (g b i)) :
    Alike R (l.foldlM f a) (l.foldlM g b) := by
  induction l generalizing a b with
  | nil => exact h
  | cons i l ih =>
    rw [List.foldlM_cons, List.foldlM_cons]
    apply bind (hfg i List.mem_cons_self a b h)
    intro a b hab
    exact ih hab fun j hj => hfg j (List.mem_cons_of_mem _ hj)

end Alike
