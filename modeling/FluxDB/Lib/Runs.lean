-- Runs of a step function. A system gives one partial step function, and a run
-- is a list of events that are all enabled. The rules below turn a fact about
-- one step into a fact about a whole run.
import Mathlib.Logic.Basic

namespace FluxDB.Runs

variable {σ ε : Type*} (step : σ → ε → Option σ)

/-- The state after the events of the list. It is `none` when an event of the list is
not enabled. -/
def run (s : σ) : List ε → Option σ
  | [] => some s
  | e :: es => (step s e).bind fun s' => run s' es

/-- Every step of the run meets `ok`, which reads the state before the step. -/
def Meets (ok : σ → ε → Prop) (s : σ) : List ε → Prop
  | [] => True
  | e :: es => ok s e ∧ ∀ s', step s e = some s' → Meets ok s' es

instance decidableMeets {ok : σ → ε → Prop} [∀ s e, Decidable (ok s e)] (s : σ) :
    (es : List ε) → Decidable (Meets step ok s es)
  | [] => isTrue trivial
  | e :: es =>
    match h : step s e with
    | none => decidable_of_iff (ok s e) (by simp [Meets, h])
    | some s' =>
      have : Decidable (Meets step ok s' es) := decidableMeets s' es
      decidable_of_iff (ok s e ∧ Meets step ok s' es) (by simp [Meets, h])

variable {step}

@[simp] theorem run_nil (s : σ) : run step s [] = some s := rfl

variable {es : List ε} {s s' : σ} {I : σ → Prop} {ok : σ → ε → Prop}

theorem run_cons {s'' : σ} {e : ε} :
    run step s (e :: es) = some s'' ↔ ∃ s', step s e = some s' ∧ run step s' es = some s'' := by
  simp [run, Option.bind_eq_some_iff]

theorem run_append {s'' : σ} {fs : List ε} : run step s (es ++ fs) = some s'' ↔
      ∃ s', run step s es = some s' ∧ run step s' fs = some s'' := by
  induction es generalizing s with
  | nil => simp
  | cons e es ih =>
    simp only [List.cons_append, run_cons, ih]
    constructor
    · rintro ⟨s1, h1, s2, h2, h3⟩
      exact ⟨s2, ⟨s1, h1, h2⟩, h3⟩
    rintro ⟨s2, ⟨s1, h1, h2⟩, h3⟩
    exact ⟨s1, h1, s2, h2, h3⟩

/-- A run that can be computed, with what is true at its end. -/
theorem exists_run {P : σ → Prop} [DecidablePred P]
    (h : (run step s es).any fun s' => decide (P s')) : ∃ s', run step s es = some s' ∧ P s' := by
  cases hrun : run step s es with
  | none =>
    rw [hrun] at h
    cases h
  | some s' =>
    rw [hrun] at h
    exact ⟨s', rfl, of_decide_eq_true h⟩

/-- A condition that the events meet in every state. -/
theorem meets_of_forall (h : ∀ e ∈ es, ∀ s, ok s e) (s : σ) : Meets step ok s es := by
  induction es generalizing s with
  | nil => trivial
  | cons e es ih =>
    exact ⟨h e List.mem_cons_self s, fun s' _ =>
      ih (fun e he => h e (List.mem_cons_of_mem _ he)) s'⟩

/-- An invariant of one step is an invariant of every run. -/
theorem inv_run (hstep : ∀ s e s', I s → step s e = some s' → I s') (hs : I s)
    (h : run step s es = some s') : I s' := by
  induction es generalizing s with
  | nil => simp at h; exact h ▸ hs
  | cons e es ih =>
    obtain ⟨s1, h1, h2⟩ := run_cons.mp h
    exact ih (hstep s e s1 hs h1) h2

/-- An invariant of the steps that meet `ok` is an invariant of every run whose steps
all meet `ok`. -/
theorem inv_run_meets (hstep : ∀ s e s', I s → ok s e → step s e = some s' → I s') (hs : I s)
    (hok : Meets step ok s es) (h : run step s es = some s') : I s' := by
  induction es generalizing s with
  | nil => simp at h; exact h ▸ hs
  | cons e es ih =>
    obtain ⟨s1, h1, h2⟩ := run_cons.mp h
    exact ih (hstep s e s1 hs hok.1 h1) (hok.2 s1 h1) h2

/-- What the invariant says of a step that meets `ok` is true of every step of a run whose
steps all meet `ok`. -/
theorem meets_of_inv {ok' : σ → ε → Prop}
    (hstep : ∀ s e s', I s → ok s e → step s e = some s' → I s')
    (hok : ∀ s e, I s → ok s e → ok' s e) (hs : I s) (h : Meets step ok s es) :
    Meets step ok' s es := by
  induction es generalizing s with
  | nil => trivial
  | cons e es ih =>
    refine ⟨hok s e hs h.1, fun s' hs' => ?_⟩
    exact ih (hstep s e s' hs h.1 hs') (h.2 s' hs')

/-- A reflexive and transitive relation that holds over one step, from a state with the
invariant, holds over every run. -/
theorem rel_run {R : σ → σ → Prop} (hinv : ∀ s e s', I s → step s e = some s' → I s')
    (hrefl : ∀ s, R s s) (htrans : ∀ a b c, R a b → R b c → R a c)
    (hstep : ∀ s e s', I s → step s e = some s' → R s s') (hs : I s) (h : run step s es = some s') :
    R s s' := by
  induction es generalizing s with
  | nil => simp at h; exact h ▸ hrefl s
  | cons e es ih =>
    obtain ⟨s1, h1, h2⟩ := run_cons.mp h
    exact htrans _ _ _ (hstep s e s1 hs h1) (ih (hinv s e s1 hs h1) h2)

/-- If every step of one system is matched by a step of another one, with related states before
and after, then so is every run. -/
theorem simulates {τ : Type*} {step' : τ → ε → Option τ} {R : σ → τ → Prop}
    (hstep : ∀ s t e t', R s t → step' t e = some t' → ∃ s', step s e = some s' ∧ R s' t')
    {t t' : τ} (hR : R s t) (h : run step' t es = some t') :
    ∃ s', run step s es = some s' ∧ R s' t' := by
  induction es generalizing s t with
  | nil =>
    cases h
    exact ⟨s, rfl, hR⟩
  | cons e es ih =>
    obtain ⟨t₁, h1, h2⟩ := run_cons.mp h
    obtain ⟨s₁, hs, hR₁⟩ := hstep s t e t₁ hR h1
    obtain ⟨s', hrun, hR'⟩ := ih hR₁ h2
    exact ⟨s', run_cons.mpr ⟨s₁, hs, hrun⟩, hR'⟩

end FluxDB.Runs
