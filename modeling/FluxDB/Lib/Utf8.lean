-- UTF-8 keeps the order of texts: the bytes of two texts compare as the texts do, character by
-- character.
import Mathlib.Data.List.Basic
import Mathlib.Order.Compare
import Mathlib.Data.UInt

namespace Utf8

open List

/-- The bytes of a text. -/
def bytes (s : String) : List UInt8 := s.toList.flatMap String.utf8EncodeChar

variable {c d : Char} {a b : Nat} {xs ys : List UInt8}

/-- The first byte decides, or else the rest. -/
theorem lt_cons (ha : a < 256) (hb : b < 256) (hle : a ≤ b)
    (h : a = b → List.compareLex compare xs ys = .lt) :
    List.compareLex compare (UInt8.ofNat a :: xs) (UInt8.ofNat b :: ys) = .lt := by
  rw [List.compareLex_cons_cons]
  rcases Nat.lt_or_eq_of_le hle with hlt | rfl
  · have hlt : UInt8.ofNat a < UInt8.ofNat b := by
      rw [UInt8.lt_iff_toNat_lt, UInt8.toNat_ofNat_of_lt' ha, UInt8.toNat_ofNat_of_lt' hb]
      exact hlt
    have hcmp : compare (UInt8.ofNat a) (UInt8.ofNat b) = .lt := compareOfLessAndEq_eq_lt.mpr hlt
    rw [hcmp]
    rfl
  have hcmp : compare (UInt8.ofNat a) (UInt8.ofNat a) = .eq := Std.ReflOrd.compare_self
  rw [hcmp]
  exact h rfl

theorem compare_append (front xs ys : List UInt8) :
    List.compareLex compare (front ++ xs) (front ++ ys) = List.compareLex compare xs ys := by
  induction front with
  | nil => rfl
  | cons b front ih =>
    have hcmp : compare b b = .eq := Std.ReflOrd.compare_self
    rw [cons_append, cons_append, List.compareLex_cons_cons, hcmp]
    exact ih

/-- The bytes of a smaller character are smaller, whatever comes behind. -/
theorem lt_of_char_lt (h : c.val.toNat < d.val.toNat) (xs ys : List UInt8) :
    List.compareLex compare (String.utf8EncodeChar c ++ xs) (String.utf8EncodeChar d ++ ys) =
      .lt := by
  have hd : d.val.toNat < 0x110000 := by
    rcases d.valid with hv | hv
    · exact hv.trans (by decide)
    · exact hv.2
  unfold String.utf8EncodeChar
  dsimp only
  generalize c.val.toNat = m, d.val.toNat = n at h hd
  -- More bytes start with a greater first byte; of as many bytes the first group that differs
  -- decides.
  by_cases hn₁ : n ≤ 127
  · rw [if_pos (by omega), if_pos hn₁]
    exact lt_cons (by omega) (by omega) (by omega) (by omega)
  by_cases hm₁ : m ≤ 127
  · rw [if_pos hm₁, if_neg hn₁]
    split_ifs <;> exact lt_cons (by omega) (by omega) (by omega) (by omega)
  rw [if_neg hm₁, if_neg hn₁]
  by_cases hn₂ : n ≤ 2047
  · rw [if_pos (by omega), if_pos hn₂]
    refine lt_cons (by omega) (by omega) (by omega) fun _ => ?_
    exact lt_cons (by omega) (by omega) (by omega) (by omega)
  by_cases hm₂ : m ≤ 2047
  · rw [if_pos hm₂, if_neg hn₂]
    split_ifs <;> exact lt_cons (by omega) (by omega) (by omega) (by omega)
  rw [if_neg hm₂, if_neg hn₂]
  by_cases hn₃ : n ≤ 65535
  · rw [if_pos (by omega), if_pos hn₃]
    refine lt_cons (by omega) (by omega) (by omega) fun _ => ?_
    refine lt_cons (by omega) (by omega) (by omega) fun _ => ?_
    exact lt_cons (by omega) (by omega) (by omega) (by omega)
  rw [if_neg hn₃]
  by_cases hm₃ : m ≤ 65535
  · rw [if_pos hm₃]
    exact lt_cons (by omega) (by omega) (by omega) (by omega)
  rw [if_neg hm₃]
  refine lt_cons (by omega) (by omega) (by omega) fun _ => ?_
  refine lt_cons (by omega) (by omega) (by omega) fun _ => ?_
  refine lt_cons (by omega) (by omega) (by omega) fun _ => ?_
  exact lt_cons (by omega) (by omega) (by omega) (by omega)

theorem char_lt_iff : compare c d = .lt ↔ c.val.toNat < d.val.toNat := compareOfLessAndEq_eq_lt

/-- A text that comes first has bytes that come first. -/
theorem compare_bytes (s t : String) :
    List.compareLex compare (bytes s) (bytes t) = List.compareLex compare s.toList t.toList := by
  unfold bytes
  generalize s.toList = cs, t.toList = ds
  induction cs generalizing ds with
  | nil =>
    cases ds with
    | nil => rfl
    | cons d ds =>
      have hne : String.utf8EncodeChar d ≠ [] := String.utf8EncodeChar_ne_nil
      obtain ⟨b, bs, hb⟩ := exists_cons_of_ne_nil hne
      rw [flatMap_cons, hb]
      rfl
  | cons c cs ih =>
    cases ds with
    | nil =>
      have hne : String.utf8EncodeChar c ≠ [] := String.utf8EncodeChar_ne_nil
      obtain ⟨b, bs, hb⟩ := exists_cons_of_ne_nil hne
      rw [flatMap_cons, hb]
      rfl
    | cons d ds =>
      rw [flatMap_cons, flatMap_cons, List.compareLex_cons_cons]
      cases hcmp : compare c d with
      | lt =>
        rw [lt_of_char_lt (char_lt_iff.mp hcmp)]
        rfl
      | gt =>
        have hgt := Std.OrientedCmp.lt_of_gt hcmp
        rw [Std.OrientedCmp.gt_of_lt (lt_of_char_lt (char_lt_iff.mp hgt) _ _)]
        rfl
      | eq =>
        cases Std.LawfulEqOrd.eq_of_compare hcmp
        rw [compare_append]
        exact ih ds

end Utf8
