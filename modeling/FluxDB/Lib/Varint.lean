-- Numbers in groups of seven bits, lowest first: every byte but the last has its top bit set. A
-- number of so many bits comes back from its groups, and the reader stops right behind them.
import Mathlib.Data.List.Basic
import Mathlib.Data.Nat.Bitwise
import Mathlib.Tactic.Ring

namespace Varint

/-- The groups of a number, at most so many. -/
def encode : Nat → Nat → List UInt8
  | 0, _ => []
  | rounds + 1, value =>
    let byte := UInt8.ofNat (value &&& 0x7f)
    if value >>> 7 = 0 then [byte] else (byte ||| 0x80) :: encode rounds (value >>> 7)

/-- Reads groups from an offset on into a number of so many bits, and returns the offset behind
them. It fails where the data ends and where a group has no place in the number. -/
def decode (bits : Nat) (data : List UInt8) : Nat → Nat → Nat → Nat → Option (Nat × Nat)
  | 0, _, _, _ => none
  | rounds + 1, offset, result, shift =>
    match data[offset]? with
    | none => none
    | some byte =>
      let result := result ||| ((byte &&& 0x7f).toNat <<< shift) % 2 ^ bits
      if byte &&& 0x80 = 0 then some (result, offset + 1)
      else if shift + 7 < bits then decode bits data rounds (offset + 1) result (shift + 7)
      else none

/-! ## One group -/

theorem and_low (v : Nat) : v &&& 0x7f = v % 128 := Nat.and_two_pow_sub_one_eq_mod v 7

theorem shift_group (v : Nat) : v >>> 7 = v / 128 := Nat.shiftRight_eq_div_pow v 7

theorem last_group : ∀ n : Fin 128, UInt8.ofNat n.val &&& 0x80 = 0 ∧
    (UInt8.ofNat n.val &&& 0x7f).toNat = n.val := by decide

theorem inner_group : ∀ n : Fin 128, (UInt8.ofNat n.val ||| 0x80) &&& 0x80 ≠ 0 ∧
    ((UInt8.ofNat n.val ||| 0x80) &&& 0x7f).toNat = n.val := by decide

/-- A group goes above what is there already. -/
theorem or_group {result n shift bits : Nat} (hresult : result < 2 ^ shift)
    (hn : n * 2 ^ shift < 2 ^ bits) :
    result ||| (n <<< shift) % 2 ^ bits = result + n * 2 ^ shift := by
  rw [Nat.shiftLeft_eq, Nat.mod_eq_of_lt hn, Nat.or_comm, Nat.mul_comm n,
    ← Nat.two_pow_add_eq_or_of_lt hresult, Nat.add_comm]

/-! ## All groups -/

variable {bits rounds value offset result shift : Nat} {data front back : List UInt8}

theorem decode_encode (hdata : data = front ++ (encode rounds value ++ back))
    (hoffset : front.length = offset) (hvalue : value < 2 ^ (7 * rounds))
    (hbits : value * 2 ^ shift < 2 ^ bits) (hresult : result < 2 ^ shift) (hpos : 0 < rounds) :
    decode bits data rounds offset result shift =
      some (result + value * 2 ^ shift, offset + (encode rounds value).length) := by
  induction rounds generalizing value offset result shift front with
  | zero => exact absurd hpos (Nat.lt_irrefl 0)
  | succ rounds ih =>
    have hpow : 2 ^ (shift + 7) = 128 * 2 ^ shift := by ring
    have hlow := Nat.mod_lt value (by decide : 0 < 128)
    unfold encode at hdata ⊢
    unfold decode
    dsimp only at hdata ⊢
    rw [and_low, shift_group] at hdata ⊢
    by_cases hlast : value / 128 = 0
    · rw [if_pos hlast] at hdata ⊢
      have hsmall : value % 128 = value := Nat.mod_eq_of_lt (by omega)
      rw [hsmall] at hdata hlow ⊢
      obtain ⟨htop, hbyte⟩ := last_group ⟨value, hlow⟩
      have hat : data[offset]? = some (UInt8.ofNat value) := by
        rw [hdata, ← hoffset]
        simp
      rw [hat]
      dsimp only at htop hbyte ⊢
      rw [if_pos htop, hbyte, or_group hresult hbits]
      rfl
    rw [if_neg hlast] at hdata ⊢
    obtain ⟨htop, hbyte⟩ := inner_group ⟨value % 128, hlow⟩
    have hat : data[offset]? = some (UInt8.ofNat (value % 128) ||| 0x80) := by
      rw [hdata, ← hoffset]
      simp
    have hle : value % 128 * 2 ^ shift ≤ value * 2 ^ shift :=
      Nat.mul_le_mul_right _ (Nat.mod_le _ _)
    have hsplit : value * 2 ^ shift = value % 128 * 2 ^ shift + value / 128 * 2 ^ (shift + 7) := by
      rw [hpow]
      calc value * 2 ^ shift = (value % 128 + 128 * (value / 128)) * 2 ^ shift := by
            rw [Nat.mod_add_div]
        _ = _ := by ring
    have hrest : value / 128 * 2 ^ (shift + 7) < 2 ^ bits := by omega
    have hroom : shift + 7 < bits := by
      by_contra hle'
      have hmono : 2 ^ bits ≤ 2 ^ (shift + 7) := Nat.pow_le_pow_right (by decide) (by omega)
      have hone : 1 * 2 ^ (shift + 7) ≤ value / 128 * 2 ^ (shift + 7) :=
        Nat.mul_le_mul_right _ (by omega)
      omega
    have hgroup : value % 128 * 2 ^ shift ≤ 127 * 2 ^ shift := Nat.mul_le_mul_right _ (by omega)
    have hrounds : value / 128 < 2 ^ (7 * rounds) := by
      rw [Nat.div_lt_iff_lt_mul (by decide)]
      calc value < 2 ^ (7 * (rounds + 1)) := hvalue
        _ = 2 ^ (7 * rounds) * 128 := by ring
    have hmore : 0 < rounds := by
      rcases Nat.eq_zero_or_pos rounds with rfl | hmore
      · rw [Nat.mul_zero, pow_zero] at hrounds
        omega
      · exact hmore
    have hnext : data = (front ++ [UInt8.ofNat (value % 128) ||| 0x80]) ++
        (encode rounds (value / 128) ++ back) := by
      rw [hdata]
      simp
    have hplace : (front ++ [UInt8.ofNat (value % 128) ||| 0x80]).length = offset + 1 := by
      rw [List.length_append, hoffset]
      rfl
    rw [hat]
    dsimp only at htop hbyte ⊢
    rw [if_neg htop, if_pos hroom, hbyte, or_group hresult (by omega),
      ih hnext hplace hrounds hrest (by omega) hmore, List.length_cons]
    congr 2 <;> omega

end Varint
