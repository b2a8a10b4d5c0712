-- Binary search for the place where a test turns true. The loop halves an interval; if the test
-- is false in front of a place and true from there on, the loop ends at that place.
import FluxDB.Lib.Comparator
import Mathlib.Data.List.InsertIdx

namespace Search

open List

/-- The loop on `[lo, hi)`, with a test that may fail. -/
def bisectM {ε : Type} (above : Nat → Except ε Bool) : Nat → Nat → Nat → Except ε Nat
  | 0, lo, _ => .ok lo
  | fuel + 1, lo, hi =>
    if lo < hi then do
      let stop ← above (lo + (hi - lo) / 2)
      if stop then bisectM above fuel lo (lo + (hi - lo) / 2)
      else bisectM above fuel (lo + (hi - lo) / 2 + 1) hi
    else .ok lo

/-- The loop finds the place, if the fuel covers the interval. -/
theorem bisectM_eq {ε : Type} {above : Nat → Except ε Bool} {n k : Nat}
    (hp : ∀ i, i < n → above i = .ok (decide (k ≤ i))) {fuel lo hi : Nat} (hlo : lo ≤ k)
    (hk : k ≤ hi) (hhi : hi ≤ n) (hfuel : hi - lo ≤ fuel) : bisectM above fuel lo hi = .ok k := by
  induction fuel generalizing lo hi with
  | zero =>
    unfold bisectM
    congr 1
    omega
  | succ fuel ih =>
    unfold bisectM
    split
    · rw [hp _ (by omega)]
      change (if decide (k ≤ lo + (hi - lo) / 2) = true then _ else _) = _
      split
      · next hle =>
        rw [decide_eq_true_eq] at hle
        exact ih hlo hle (by omega) (by omega)
      rename_i hgt
      rw [decide_eq_true_eq] at hgt
      exact ih (by omega) hk hhi (by omega)
    congr 1
    omega

/-- The loop on `[0, n)` with a test that cannot fail. -/
def bisect (above : Nat → Bool) (n : Nat) : Nat :=
  match (bisectM (fun i => .ok (above i)) n 0 n : Except Empty Nat) with
  | .ok k => k

theorem bisect_eq {above : Nat → Bool} {n k : Nat}
    (hp : ∀ i, i < n → above i = decide (k ≤ i)) (hk : k ≤ n) : bisect above n = k := by
  have hloop : (bisectM (fun i => .ok (above i)) n 0 n : Except Empty Nat) = .ok k :=
    bisectM_eq (fun i hi => congrArg Except.ok (hp i hi)) (Nat.zero_le k) hk (Nat.le_refl n)
      (Nat.sub_le n 0)
  unfold bisect
  rw [hloop]

/-! ## Up to an equal element -/

/-- The loop that stops as soon as it meets an equal element. -/
def locate (c : Nat → Ordering) : Nat → Nat → Nat → Nat × Bool
  | 0, lo, _ => (lo, false)
  | fuel + 1, lo, hi =>
    if lo < hi then
      match c (lo + (hi - lo) / 2) with
      | .lt => locate c fuel (lo + (hi - lo) / 2 + 1) hi
      | .gt => locate c fuel lo (lo + (hi - lo) / 2)
      | .eq => (lo + (hi - lo) / 2, true)
    else (lo, false)

/-- Where elements below come first and elements above come last, the loop ends at an equal
element, or at the place between both. -/
theorem locate_spec {c : Nat → Ordering} {n : Nat}
    (hlt : ∀ i j, i ≤ j → j < n → c j = .lt → c i = .lt)
    (hgt : ∀ i j, i ≤ j → j < n → c i = .gt → c j = .gt) {fuel lo hi : Nat} (hle : lo ≤ hi)
    (hn : hi ≤ n) (hfuel : hi - lo ≤ fuel) (hlo : ∀ i, i < lo → c i = .lt)
    (hhi : ∀ i, hi ≤ i → i < n → c i = .gt) :
    (∃ i, i < n ∧ c i = .eq ∧ locate c fuel lo hi = (i, true)) ∨
      ∃ i, i ≤ n ∧ (∀ j, j < i → c j = .lt) ∧ (∀ j, i ≤ j → j < n → c j = .gt) ∧
        locate c fuel lo hi = (i, false) := by
  induction fuel generalizing lo hi with
  | zero =>
    obtain rfl : lo = hi := by omega
    exact .inr ⟨lo, hn, hlo, hhi, rfl⟩
  | succ fuel ih =>
    unfold locate
    split
    · have hmid : lo + (hi - lo) / 2 < n := by omega
      cases hc : c (lo + (hi - lo) / 2) with
      | lt =>
        refine ih (by omega) hn (by omega) (fun i hi' => ?_) hhi
        exact hlt i _ (by omega) hmid hc
      | gt =>
        refine ih (by omega) (by omega) (by omega) hlo fun i hi' hin => ?_
        exact hgt _ i hi' hin hc
      | eq => exact .inl ⟨_, hmid, hc, rfl⟩
    obtain rfl : lo = hi := by omega
    exact .inr ⟨lo, hn, hlo, hhi, rfl⟩

/-! ## In a list -/

section List

variable {α : Type} {p : α → Bool} {keys : List α}

/-- How many elements fail the test; in a list where the test stays true, the first place where
it holds. -/
def front (p : α → Bool) (keys : List α) : Nat := keys.countP fun k => !p k

theorem front_le (p : α → Bool) (keys : List α) : front p keys ≤ keys.length := countP_le_length

theorem front_cons (p : α → Bool) (k : α) (ks : List α) :
    front p (k :: ks) = front p ks + if p k then 0 else 1 := by
  unfold front
  rw [countP_cons]
  cases p k <;> rfl

/-- Once true, the test stays true along the list. -/
def Stays (p : α → Bool) (keys : List α) : Prop := keys.Pairwise fun a b => p a = true → p b = true

theorem front_eq_zero (hstays : Stays p keys) {k : α} (hk : keys.head? = some k)
    (hp : p k = true) : front p keys = 0 := by
  cases keys with
  | nil => rfl
  | cons k₀ ks =>
    cases hk
    obtain ⟨hhead, -⟩ := pairwise_cons.mp hstays
    unfold front
    rw [countP_eq_zero]
    intro a ha
    rcases mem_cons.mp ha with rfl | ha
    · rw [hp]
      decide
    rw [hhead a ha hp]
    decide

/-- The test holds exactly from that place on. -/
theorem holds_iff_front_le (hstays : Stays p keys) {k : α} {i : Nat} (hk : keys[i]? = some k) :
    p k = true ↔ front p keys ≤ i := by
  induction keys generalizing i with
  | nil => cases hk
  | cons k₀ ks ih =>
    obtain ⟨hhead, htail⟩ := pairwise_cons.mp hstays
    by_cases h₀ : p k₀ = true
    · rw [front_eq_zero hstays rfl h₀]
      refine iff_of_true ?_ (Nat.zero_le _)
      rcases mem_cons.mp (mem_of_getElem? hk) with rfl | hmem
      · exact h₀
      · exact hhead k hmem h₀
    rw [front_cons, if_neg h₀]
    cases i with
    | zero =>
      cases hk
      exact iff_of_false h₀ (by omega)
    | succ i =>
      rw [getElem?_cons_succ] at hk
      rw [ih htail hk]
      omega

end List

/-! ## In a sorted list -/

section Sorted

open Comparator

variable {α : Type} {cmp : α → α → Ordering} [Std.TransCmp cmp] {keys : List α}

section

variable (hsorted : keys.Pairwise (Le cmp)) (key : α)

include hsorted key

theorem stays_above : Stays (fun k => cmp k key == .gt) keys := by
  refine hsorted.imp fun {a b} hle ha => ?_
  rw [beq_iff_eq] at ha ⊢
  by_contra hb
  exact le_trans hle hb ha

/-- The loop that asks for a key above the given one finds the first one. -/
theorem bisectM_above {ε : Type} {above : Nat → Except ε Bool}
    (h : ∀ i k, keys[i]? = some k → above i = .ok (cmp k key == .gt)) :
    bisectM above keys.length 0 keys.length = .ok (front (fun k => cmp k key == .gt) keys) := by
  refine bisectM_eq (fun i hi => ?_) (Nat.zero_le _) (front_le _ _) (Nat.le_refl _) (Nat.le_refl _)
  have hk := getElem?_eq_getElem hi
  rw [h i _ hk]
  refine congrArg Except.ok ?_
  rw [Bool.eq_iff_iff, decide_eq_true_eq]
  exact holds_iff_front_le (stays_above hsorted key) hk

/-- The given key behind those that are not above it leaves the list sorted. -/
theorem sorted_insertIdx :
    (keys.insertIdx (front (fun k => cmp k key == .gt) keys) key).Pairwise (Le cmp) := by
  induction keys with
  | nil => simp [front]
  | cons k ks ih =>
    obtain ⟨hhead, htail⟩ := pairwise_cons.mp hsorted
    by_cases hk : cmp k key = .gt
    · rw [front_eq_zero (stays_above hsorted key) rfl (beq_iff_eq.mpr hk), insertIdx_zero,
        pairwise_cons]
      refine ⟨fun a ha => ?_, hsorted⟩
      have hlt : cmp key k = .lt := Std.OrientedCmp.lt_of_gt hk
      rcases mem_cons.mp ha with rfl | ha
      · exact le_of_lt hlt
      · exact le_trans (le_of_lt hlt) (hhead a ha)
    rw [front_cons, if_neg (by rwa [beq_iff_eq]), insertIdx_succ_cons, pairwise_cons]
    refine ⟨fun a ha => ?_, ih htail⟩
    rcases eq_or_mem_of_mem_insertIdx ha with rfl | ha
    · exact hk
    · exact hhead a ha

end

end Sorted

end Search
