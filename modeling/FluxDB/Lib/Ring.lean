-- A list used as a ring: a piece is written in from a place on and goes around the end, and a
-- loop reads a piece back chunk by chunk. What is written behind the contents of the ring is
-- read back behind them.
import Mathlib.Data.List.Basic

namespace FluxDB.Ring

open List

variable {α : Type*}

/-- The list with the elements from `pos` on replaced. -/
def overwrite (cells : List α) (pos : Nat) (xs : List α) : List α :=
  cells.take pos ++ xs ++ cells.drop (pos + xs.length)

/-- The list with `xs` written from `pos` on, and what does not fit there at the front. -/
def write (cells : List α) (pos : Nat) (xs : List α) : List α :=
  let first := min xs.length (cells.length - pos)
  overwrite (overwrite cells pos (xs.take first)) 0 (xs.drop first)

/-- The loop that reads `left` elements from `cursor` on, and where it ends. Every round that
reads something takes one of the rounds that it has. -/
def readLoop (cells : List α) : Nat → Nat → Nat → List α × Nat
  | 0, cursor, _ => ([], cursor)
  | rounds + 1, cursor, left =>
    if left > 0 then
      let chunk := min left (cells.length - cursor)
      let (rest, after) := readLoop cells rounds ((cursor + chunk) % cells.length) (left - chunk)
      ((cells.drop cursor).take chunk ++ rest, after)
    else ([], cursor)

def read (cells : List α) (cursor left : Nat) : List α × Nat := readLoop cells left cursor left

/-- From `pos` on, around the end, the ring holds `xs`. -/
def Holds (cells : List α) (pos : Nat) (xs : List α) : Prop :=
  ∀ k < xs.length, cells[(pos + k) % cells.length]? = xs[k]?

/-! ## Writing -/

section Write

variable {cells xs : List α} {pos : Nat}

theorem length_overwrite (h : pos + xs.length ≤ cells.length) :
    (overwrite cells pos xs).length = cells.length := by
  unfold overwrite
  rw [length_append, length_append, length_take, length_drop]
  omega

theorem getElem?_overwrite (h : pos + xs.length ≤ cells.length) (i : Nat) :
    (overwrite cells pos xs)[i]? =
      if pos ≤ i ∧ i < pos + xs.length then xs[i - pos]? else cells[i]? := by
  have htake : (cells.take pos).length = pos := by
    rw [length_take]
    omega
  unfold overwrite
  by_cases hlt : i < pos
  · rw [if_neg (by omega), append_assoc, getElem?_append_left (by omega), getElem?_take_of_lt hlt]
  by_cases hin : i < pos + xs.length
  · rw [if_pos ⟨by omega, hin⟩, append_assoc, getElem?_append_right (by omega), htake,
      getElem?_append_left (by omega)]
  rw [if_neg (by omega), getElem?_append_right (by rw [length_append]; omega),
    getElem?_drop, length_append, htake]
  congr 1
  omega

variable (hpos : pos < cells.length) (hlen : xs.length ≤ cells.length)

include hpos hlen

theorem length_write : (write cells pos xs).length = cells.length := by
  have hfirst : (overwrite cells pos (xs.take (min xs.length (cells.length - pos)))).length =
      cells.length := by
    apply length_overwrite
    rw [length_take]
    omega
  unfold write
  dsimp only
  rw [length_overwrite, hfirst]
  rw [hfirst, length_drop]
  omega

/-- Counted from `pos` on, the first elements of the ring are the new ones and the others are
what they were. -/
theorem getElem?_write {k : Nat} (hk : k < cells.length) :
    (write cells pos xs)[(pos + k) % cells.length]? =
      if k < xs.length then xs[k]? else cells[(pos + k) % cells.length]? := by
  have hfirst : pos + (xs.take (min xs.length (cells.length - pos))).length ≤ cells.length := by
    rw [length_take]
    omega
  have hsecond : 0 + (xs.drop (min xs.length (cells.length - pos))).length ≤
      (overwrite cells pos (xs.take (min xs.length (cells.length - pos)))).length := by
    rw [length_overwrite hfirst, length_drop]
    omega
  unfold write
  dsimp only
  rw [getElem?_overwrite hsecond, getElem?_overwrite hfirst, length_drop, length_take,
    getElem?_drop]
  by_cases hwrap : pos + k < cells.length
  · -- in front of the end
    rw [Nat.mod_eq_of_lt hwrap, if_neg (by omega)]
    by_cases hnew : k < xs.length
    · rw [if_pos (by omega), if_pos hnew, Nat.add_sub_cancel_left, getElem?_take_of_lt (by omega)]
    · rw [if_neg (by omega), if_neg hnew]
  -- at the front, behind the end
  have hmod : (pos + k) % cells.length = pos + k - cells.length := by
    rw [Nat.mod_eq_sub_mod (by omega), Nat.mod_eq_of_lt (by omega)]
  rw [hmod]
  by_cases hnew : k < xs.length
  · rw [if_pos (by omega), if_pos hnew]
    congr 1
    omega
  · rw [if_neg (by omega), if_neg (by omega), if_neg hnew]

end Write

/-! ## What the ring holds -/

section Holding

variable {cells xs ys : List α} {pos : Nat}

theorem holds_nil : Holds cells pos [] := fun _ hk => absurd hk (Nat.not_lt_zero _)

theorem holds_append : Holds cells pos (xs ++ ys) ↔
    Holds cells pos xs ∧ Holds cells ((pos + xs.length) % cells.length) ys := by
  have hmod : ∀ k, ((pos + xs.length) % cells.length + k) % cells.length =
      (pos + (xs.length + k)) % cells.length := by
    intro k
    rw [Nat.mod_add_mod, Nat.add_assoc]
  constructor
  · intro h
    refine ⟨fun k hk => ?_, fun k hk => ?_⟩
    · rw [h k (by rw [length_append]; omega), getElem?_append_left hk]
    rw [hmod, h (xs.length + k) (by rw [length_append]; omega),
      getElem?_append_right (Nat.le_add_right _ _), Nat.add_sub_cancel_left]
  rintro ⟨hxs, hys⟩ k hk
  rw [length_append] at hk
  by_cases hlt : k < xs.length
  · rw [hxs k hlt, getElem?_append_left hlt]
  have hk' : xs.length + (k - xs.length) = k := by omega
  have hread := hys (k - xs.length) (by omega)
  rw [hmod, hk'] at hread
  rw [hread, getElem?_append_right (by omega)]

/-- What is written right behind the contents of the ring, and fits beside them, comes behind
them. -/
theorem Holds.write (h : Holds cells pos xs) (hpos : pos < cells.length)
    (hfits : xs.length + ys.length ≤ cells.length) :
    Holds (write cells ((pos + xs.length) % cells.length) ys) pos (xs ++ ys) := by
  have hat : (pos + xs.length) % cells.length < cells.length := Nat.mod_lt _ (by omega)
  have hys : ys.length ≤ cells.length := by omega
  rw [holds_append, length_write hat hys]
  refine ⟨fun k hk => ?_, fun k hk => ?_⟩
  swap
  · rw [length_write hat hys, getElem?_write hat hys (by omega), if_pos hk]
  rw [length_write hat hys, ← h k hk]
  -- counted from the place of the write the old contents come last
  have hplace : (pos + k) % cells.length =
      ((pos + xs.length) % cells.length + (cells.length - xs.length + k)) % cells.length := by
    rw [Nat.mod_add_mod]
    have hsum : pos + xs.length + (cells.length - xs.length + k) = pos + k + cells.length := by
      omega
    rw [hsum, Nat.add_mod_right]
  rw [hplace, getElem?_write hat hys (by omega), if_neg (by omega)]

/-! ## Reading -/

theorem take_drop_of_holds (h : Holds cells pos xs) {n : Nat}
    (hn : n ≤ xs.length) (hend : pos + n ≤ cells.length) :
    (cells.drop pos).take n = xs.take n := by
  apply ext_getElem?
  intro k
  by_cases hk : k < n
  · rw [getElem?_take_of_lt hk, getElem?_take_of_lt hk, getElem?_drop,
      ← h k (by omega), Nat.mod_eq_of_lt (by omega)]
  rw [getElem?_eq_none (by rw [length_take]; omega), getElem?_eq_none (by rw [length_take]; omega)]

theorem readLoop_eq {rounds : Nat} (h : Holds cells pos xs) (hpos : pos < cells.length)
    (hrounds : xs.length ≤ rounds) :
    readLoop cells rounds pos xs.length = (xs, (pos + xs.length) % cells.length) := by
  induction rounds generalizing pos xs with
  | zero =>
    cases eq_nil_of_length_eq_zero (Nat.le_zero.mp hrounds)
    rw [readLoop, length_nil, Nat.add_zero, Nat.mod_eq_of_lt hpos]
  | succ rounds ih =>
    rw [readLoop]
    split
    · next hleft =>
      have hn : min xs.length (cells.length - pos) ≤ xs.length := Nat.min_le_left _ _
      have hsplit := h
      rw [← take_append_drop (min xs.length (cells.length - pos)) xs, holds_append,
        length_take, Nat.min_eq_left hn] at hsplit
      have hrest := ih hsplit.2 (Nat.mod_lt _ (by omega)) (by rw [length_drop]; omega)
      rw [length_drop, Nat.mod_add_mod] at hrest
      dsimp only
      rw [hrest, take_drop_of_holds h hn (by omega), take_append_drop]
      dsimp only
      congr 2
      omega
    rename_i hleft
    cases eq_nil_of_length_eq_zero (Nat.le_zero.mp (Nat.not_lt.mp hleft))
    rw [length_nil, Nat.add_zero, Nat.mod_eq_of_lt hpos]

theorem read_eq (h : Holds cells pos xs) (hpos : pos < cells.length) :
    read cells pos xs.length = (xs, (pos + xs.length) % cells.length) :=
  readLoop_eq h hpos (Nat.le_refl _)

end Holding

end FluxDB.Ring
