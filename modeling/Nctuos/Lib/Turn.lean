import Mathlib.Data.Nat.Basic
import Mathlib.Tactic.SplitIfs

/-!
# Turns on a ring

A scan over the `n` places of a ring that starts behind place `s` looks at `s + 1`,
`s + 2`, …, `n - 1`, `0`, …, `s`.  `turn n s i` is the number of places it passes before
it comes to `i`; the smaller the turn, the earlier the place is looked at.

The order of two places depends on where the scan starts, but not much: moving the start
to a place looked at before both keeps their order (`turn_advance`), and so does a new
place behind the last one (`turn_grow`).  The first brings them nearer by the places passed
(`turn_from`), and the second puts them off by one turn at most (`turn_succ_le`).
-/

namespace Nctuos.Lib

/-- The places a scan that starts behind `s` passes before it comes to `i`. -/
def turn (n s i : Nat) : Nat := if s < i then i - s - 1 else i + n - s - 1

variable {n s i j r : Nat}

theorem turn_lt (hs : s < n) (hi : i < n) : turn n s i < n := by
  unfold turn
  split <;> omega

/-- The place the scan starts behind is its last. -/
theorem turn_self (hs : s < n) : turn n s s = n - 1 := by
  unfold turn
  split <;> omega

theorem turn_inj (hs : s < n) (hi : i < n) (hj : j < n) (h : turn n s i = turn n s j) :
    i = j := by
  unfold turn at h
  split at h <;> split at h <;> omega

/-- The scan comes to `i` in its turn. -/
theorem add_turn (hs : s < n) (hi : i < n) : (s + 1 + turn n s i) % n = i := by
  unfold turn
  split
  · rw [show s + 1 + (i - s - 1) = i by omega, Nat.mod_eq_of_lt hi]
  · rw [show s + 1 + (i + n - s - 1) = i + n by omega, Nat.add_mod_right, Nat.mod_eq_of_lt hi]

/-- And in no other one. -/
theorem turn_add {t : Nat} (hs : s < n) (ht : t < n) : turn n s ((s + 1 + t) % n) = t := by
  by_cases hlt : s + 1 + t < n
  · rw [Nat.mod_eq_of_lt hlt, turn, if_pos (by omega)]
    omega
  · have hmod : (s + 1 + t) % n = s + 1 + t - n := by
      rw [Nat.mod_eq_sub_mod (by omega), Nat.mod_eq_of_lt (by omega)]
    rw [hmod, turn, if_neg (by omega)]
    omega

/-- A scan that starts again behind a place it came to first. -/
theorem turn_advance (hs : s < n) (hr : r < n) (hi : i < n) (hj : j < n)
    (hri : turn n s r < turn n s i) (hij : turn n s i < turn n s j) :
    turn n r i < turn n r j := by
  unfold turn at *
  split_ifs at * <;> omega

/-- What is left of the way to `i`, from a place that is looked at before it. -/
theorem turn_from (hs : s < n) (hr : r < n) (hi : i < n) (h : turn n s r < turn n s i) :
    turn n r i + turn n s r + 1 = turn n s i := by
  unfold turn at *
  split_ifs at * <;> omega

/-- Every other place is looked at before the one the scan starts behind. -/
theorem turn_lt_last (hs : s < n) (hi : i < n) (hne : i ≠ s) : turn n s i + 1 < n := by
  unfold turn
  split_ifs <;> omega

/-- A new place at the end of the ring puts off the others by one turn at most. -/
theorem turn_succ_le (n s i : Nat) : turn (n + 1) s i ≤ turn n s i + 1 := by
  unfold turn
  split_ifs <;> omega

/-- A ring with one more place at its end. -/
theorem turn_grow (hj : j < n) (h : turn n s i < turn n s j) :
    turn (n + 1) s i < turn (n + 1) s j := by
  unfold turn at *
  split_ifs at * <;> omega

end Nctuos.Lib
