-- Programs that change a state and end in one of four ways: they return, they fail and keep the
-- state as it is then, they panic, or they run out of rounds. A loop counts down a number of
-- rounds. A program ends if one outcome comes out for every large enough number of rounds, and
-- nothing else but running out comes out for a smaller one.
import Mathlib.Order.Basic

/-- How a program ends. -/
inductive Outcome (ε σ α : Type)
  | ok (a : α) (s : σ)
  | err (e : ε) (s : σ)
  | panic
  | stuck
  deriving DecidableEq, Repr

/-- The state that is left when the program returns or fails. -/
def Outcome.state {ε σ α : Type} : Outcome ε σ α → Option σ
  | .ok _ s => some s
  | .err _ s => some s
  | .panic => none
  | .stuck => none

/-- How the program fails. -/
def Outcome.error {ε σ α : Type} : Outcome ε σ α → Option ε
  | .err e _ => some e
  | _ => none

theorem Outcome.eq_err_of_error {ε σ α : Type} {r : Outcome ε σ α} {e : ε}
    (h : r.error = some e) : ∃ s, r = .err e s := by
  cases r with
  | err e' s =>
    cases h
    exact ⟨s, rfl⟩
  | ok | panic | stuck => cases h

def Outcome.panics {ε σ α : Type} : Outcome ε σ α → Bool
  | .panic => true
  | _ => false

def Prog (ε σ α : Type) : Type := σ → Outcome ε σ α

namespace Prog

variable {ε σ α β : Type}

def bind (x : Prog ε σ α) (f : α → Prog ε σ β) : Prog ε σ β := fun s =>
  match x s with
  | .ok a s' => f a s'
  | .err e s' => .err e s'
  | .panic => .panic
  | .stuck => .stuck

instance : Monad (Prog ε σ) where
  pure a := fun s => .ok a s
  bind := bind

def read : Prog ε σ σ := fun s => .ok s s
def modify (f : σ → σ) : Prog ε σ Unit := fun s => .ok () (f s)
def fail (e : ε) : Prog ε σ α := fun s => .err e s
def panic : Prog ε σ α := fun _ => .panic
def stuck : Prog ε σ α := fun _ => .stuck

/-- What is done to the state when the program fails. -/
def onError (x : Prog ε σ α) (f : σ → σ) : Prog ε σ α := fun s =>
  match x s with
  | .err e s' => .err e (f s')
  | r => r

/-! ## One program after the other -/

variable {x : Prog ε σ α} {f : α → Prog ε σ β} {s s' : σ}

theorem bind_of_ok {a : α} (h : x s = .ok a s') : (x >>= f) s = f a s' := by
  change bind x f s = _
  unfold bind
  rw [h]

theorem bind_of_err {e : ε} (h : x s = .err e s') : (x >>= f) s = .err e s' := by
  change bind x f s = _
  unfold bind
  rw [h]

theorem bind_of_stuck (h : x s = .stuck) : (x >>= f) s = .stuck := by
  change bind x f s = _
  unfold bind
  rw [h]

/-- One outcome for every large enough number of rounds, and no other for a smaller one. -/
structure Settles (x : Nat → Prog ε σ α) (s : σ) (r : Outcome ε σ α) : Prop where
  enough : ∃ n, ∀ m, n ≤ m → x m s = r
  fewer : ∀ n, x n s = .stuck ∨ x n s = r

end Prog

/-- The program returns or fails, and then this holds. -/
def Outcome.Meets {ε σ α : Type} (Q : α → σ → Prop) (E : ε → σ → Prop) : Outcome ε σ α → Prop
  | .ok a s => Q a s
  | .err e s => E e s
  | .panic => False
  | .stuck => False

/-- With enough rounds the program returns or fails, and then this holds. -/
def Ends {ε σ α : Type} (x : Nat → Prog ε σ α) (s : σ) (Q : α → σ → Prop) (E : ε → σ → Prop) :
    Prop := ∃ r, Prog.Settles x s r ∧ r.Meets Q E

namespace Ends

open Prog

variable {ε σ α β : Type} {s : σ} {Q R : α → σ → Prop} {E F : ε → σ → Prop} {x : Nat → Prog ε σ α}

theorem of_eq {r : Outcome ε σ α} (h : ∀ n, x n s = r) (hr : r.Meets Q E) : Ends x s Q E :=
  ⟨r, ⟨⟨0, fun m _ => h m⟩, fun n => .inr (h n)⟩, hr⟩

theorem pure {a : α} (h : Q a s) : Ends (fun _ => (Pure.pure a : Prog ε σ α)) s Q E :=
  of_eq (fun _ => rfl) h

theorem fail {e : ε} (h : E e s) : Ends (fun _ => (Prog.fail e : Prog ε σ α)) s Q E :=
  of_eq (fun _ => rfl) h

theorem read {Q : σ → σ → Prop} (h : Q s s) : Ends (fun _ => (Prog.read : Prog ε σ σ)) s Q E :=
  of_eq (fun _ => rfl) h

theorem modify {Q : Unit → σ → Prop} {f : σ → σ} (h : Q () (f s)) :
    Ends (fun _ => (Prog.modify f : Prog ε σ Unit)) s Q E := of_eq (fun _ => rfl) h

/-- The rule for one program after the other. -/
theorem bind {f : Nat → α → Prog ε σ β} {Q : β → σ → Prop} (h : Ends x s R E)
    (hf : ∀ a s', R a s' → Ends (fun n => f n a) s' Q E) : Ends (fun n => x n >>= f n) s Q E := by
  obtain ⟨r, ⟨⟨n, hn⟩, hfewer⟩, hr⟩ := h
  cases r with
  | ok a s' =>
    obtain ⟨r', ⟨⟨n', hn'⟩, hfewer'⟩, hr'⟩ := hf a s' hr
    refine ⟨r', ⟨⟨max n n', fun m hm => ?_⟩, fun m => ?_⟩, hr'⟩
    · exact (bind_of_ok (hn m (by omega))).trans (hn' m (by omega))
    rcases hfewer m with hm | hm
    · exact .inl (bind_of_stuck hm)
    rw [bind_of_ok hm]
    exact hfewer' m
  | err e s' =>
    refine ⟨.err e s', ⟨⟨n, fun m hm => bind_of_err (hn m hm)⟩, fun m => ?_⟩, hr⟩
    exact (hfewer m).imp bind_of_stuck bind_of_err
  | panic => exact hr.elim
  | stuck => exact hr.elim

theorem bind_read {f : Nat → σ → Prog ε σ β} {Q : β → σ → Prop}
    (h : Ends (fun n => f n s) s Q E) : Ends (fun n => Prog.read >>= f n) s Q E := by
  refine bind (R := fun a s' => a = s ∧ s' = s) (read ⟨rfl, rfl⟩) ?_
  rintro a s' ⟨rfl, rfl⟩
  exact h

theorem bind_modify {g : σ → σ} {f : Nat → Unit → Prog ε σ β} {Q : β → σ → Prop}
    (h : Ends (fun n => f n ()) (g s) Q E) : Ends (fun n => Prog.modify g >>= f n) s Q E := by
  refine bind (R := fun _ s' => s' = g s) (modify rfl) ?_
  rintro a s' rfl
  exact h

theorem bind_pure {a : α} {f : Nat → α → Prog ε σ β} {Q : β → σ → Prop}
    (h : Ends (fun n => f n a) s Q E) : Ends (fun n => Pure.pure a >>= f n) s Q E := by
  refine bind (R := fun a' s' => a' = a ∧ s' = s) (pure ⟨rfl, rfl⟩) ?_
  rintro a' s' ⟨rfl, rfl⟩
  exact h

/-- The rule for a loop: one round more. -/
theorem succ (h₀ : x 0 s = .stuck) (h : Ends (fun n => x (n + 1)) s Q E) : Ends x s Q E := by
  obtain ⟨r, ⟨⟨n, hn⟩, hfewer⟩, hr⟩ := h
  refine ⟨r, ⟨⟨n + 1, fun m hm => ?_⟩, fun m => ?_⟩, hr⟩
  · obtain ⟨k, rfl⟩ : ∃ k, m = k + 1 := ⟨m - 1, by omega⟩
    exact hn k (by omega)
  cases m with
  | zero => exact .inl h₀
  | succ k => exact hfewer k

theorem imp (h : Ends x s R F) (hQ : ∀ a s', R a s' → Q a s') (hE : ∀ e s', F e s' → E e s') :
    Ends x s Q E := by
  obtain ⟨r, hx, hr⟩ := h
  refine ⟨r, hx, ?_⟩
  cases r with
  | ok a s' => exact hQ a s' hr
  | err e s' => exact hE e s' hr
  | panic => exact hr.elim
  | stuck => exact hr.elim

/-- The rule for one program after the other, where more may be true of its failures. -/
theorem seq {f : Nat → α → Prog ε σ β} {Q : β → σ → Prop} (h : Ends x s R F)
    (hE : ∀ e s', F e s' → E e s') (hf : ∀ a s', R a s' → Ends (fun n => f n a) s' Q E) :
    Ends (fun n => x n >>= f n) s Q E :=
  (h.imp (fun _ _ h => h) hE).bind hf

theorem ite {c : Prop} [Decidable c] {y : Nat → Prog ε σ α} (h : c → Ends x s Q E)
    (h' : ¬ c → Ends y s Q E) : Ends (fun n => if c then x n else y n) s Q E := by
  by_cases hc : c
  · simp only [if_pos hc]
    exact h hc
  simp only [if_neg hc]
  exact h' hc

/-- Whatever number of rounds the program has ended with, this holds. -/
theorem meets (h : Ends x s Q E) {n : Nat} (hx : x n s ≠ .stuck) : (x n s).Meets Q E := by
  obtain ⟨r, hsettles, hr⟩ := h
  rwa [(hsettles.fewer n).resolve_left hx]

theorem panics_eq_false (h : Ends x s Q E) (n : Nat) : (x n s).panics = false := by
  obtain ⟨r, hsettles, hr⟩ := h
  rcases hsettles.fewer n with hx | hx
  · rw [hx]
    rfl
  rw [hx]
  cases r with
  | panic => exact hr.elim
  | ok | err | stuck => rfl

end Ends

/-! ## Wherever a program starts -/

namespace Prog

variable {ε σ α β : Type} {Q : α → Prop} {E : ε → Prop} {x y : Prog ε σ α}

/-- Whatever the state, the program returns only such values and fails only with such errors. -/
structure Gives (Q : α → Prop) (E : ε → Prop) (x : Prog ε σ α) : Prop where
  ok : ∀ {s s' a}, x s = .ok a s' → Q a
  err : ∀ {s s' e}, x s = .err e s' → E e

/-- Whatever the state, the program fails only with such errors. -/
abbrev Raises (E : ε → Prop) (x : Prog ε σ α) : Prop := Gives (fun _ => True) E x

namespace Gives

theorem pure {a : α} (h : Q a) : Gives Q E (Pure.pure a : Prog ε σ α) :=
  ⟨fun hx => by cases hx; exact h, nofun⟩

theorem fail {e : ε} (h : E e) : Gives Q E (Prog.fail e : Prog ε σ α) :=
  ⟨nofun, fun hx => by cases hx; exact h⟩

theorem panic : Gives Q E (Prog.panic : Prog ε σ α) := ⟨nofun, nofun⟩

theorem stuck : Gives Q E (Prog.stuck : Prog ε σ α) := ⟨nofun, nofun⟩

theorem read : Raises E (Prog.read : Prog ε σ σ) := ⟨fun _ => trivial, nofun⟩

theorem modify {f : σ → σ} : Raises E (Prog.modify f : Prog ε σ Unit) := ⟨fun _ => trivial, nofun⟩

theorem onError (h : Gives Q E x) (f : σ → σ) : Gives Q E (x.onError f) := by
  refine ⟨fun {s s' a} hx => ?_, fun {s s' e} hx => ?_⟩
  all_goals
    unfold Prog.onError at hx
    split at hx
  · cases hx
  · exact h.ok hx
  · next hs =>
    cases hx
    exact h.err hs
  · exact h.err hx

theorem bind {f : α → Prog ε σ β} {R : β → Prop} (h : Gives Q E x)
    (hf : ∀ a, Q a → Gives R E (f a)) : Gives R E (x >>= f) := by
  refine ⟨fun {s s' b} hx => ?_, fun {s s' e} hx => ?_⟩
  all_goals
    change Prog.bind x f s = _ at hx
    unfold Prog.bind at hx
    split at hx
  · next a s₁ hs => exact (hf a (h.ok hs)).ok hx
  · cases hx
  · cases hx
  · cases hx
  · next a s₁ hs => exact (hf a (h.ok hs)).err hx
  · next hs =>
    cases hx
    exact h.err hs
  · cases hx
  · cases hx

theorem ite {c : Prop} [Decidable c] (h : Gives Q E x) (h' : Gives Q E y) :
    Gives Q E (if c then x else y) := by
  split
  · exact h
  · exact h'

end Gives

end Prog
