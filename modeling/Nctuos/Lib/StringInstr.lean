import Mathlib.Logic.Basic
import Mathlib.Data.Nat.Basic

/-!
# String instructions

The loops of `rep stos` and `rep movs`, an element of `w` bytes at a time, on a memory that keeps
the addresses it was used at.  An element is loaded whole before it is stored, so an element may
overlap with itself; what matters is which elements have been overwritten before they are loaded.
Going up, none has if the destination is not above the source, or behind all of it
(`repMovs_byte`); going down, none has if the destination is not below the source
(`repMovsDown_byte`).
-/

namespace Nctuos.Lib

/-- Bytes, and the addresses that were loaded from or stored to. -/
structure ByteRam where
  byte : Nat → BitVec 8
  used : List Nat

namespace ByteRam

/-- The addresses of `n` bytes. -/
def span (a n : Nat) : List Nat := (List.range n).map (a + ·)

theorem mem_span {a n x : Nat} : x ∈ span a n ↔ a ≤ x ∧ x < a + n := by
  simp only [span, List.mem_map, List.mem_range]
  constructor
  · rintro ⟨i, hi, rfl⟩
    omega
  · rintro ⟨hle, hlt⟩
    exact ⟨x - a, by omega, by omega⟩

/-- An element of `w` bytes is stored. -/
def stos (w value a : Nat) (m : ByteRam) : ByteRam where
  byte x := if a ≤ x ∧ x < a + w then BitVec.ofNat 8 (value >>> (8 * (x - a))) else m.byte x
  used := span a w ++ m.used

/-- `rep stos`, with the direction flag clear. -/
def repStos (w value : Nat) : Nat → Nat → ByteRam → ByteRam
  | 0, _, m => m
  | n + 1, a, m => repStos w value n (a + w) (m.stos w value a)

/-- An element of `w` bytes is moved. -/
def movs (w dst src : Nat) (m : ByteRam) : ByteRam where
  byte x := if dst ≤ x ∧ x < dst + w then m.byte (src + (x - dst)) else m.byte x
  used := span dst w ++ span src w ++ m.used

/-- `rep movs`, with the direction flag clear. -/
def repMovs (w : Nat) : Nat → Nat → Nat → ByteRam → ByteRam
  | 0, _, _, m => m
  | n + 1, dst, src, m => repMovs w n (dst + w) (src + w) (m.movs w dst src)

/-- `rep movs`, with the direction flag set. -/
def repMovsDown (w : Nat) : Nat → Nat → Nat → ByteRam → ByteRam
  | 0, _, _, m => m
  | n + 1, dst, src, m => repMovsDown w n (dst - w) (src - w) (m.movs w dst src)

variable {w value n a dst src x : Nat} {b : BitVec 8} {m : ByteRam}

theorem stos_byte :
    (m.stos w value a).byte x =
      if a ≤ x ∧ x < a + w then BitVec.ofNat 8 (value >>> (8 * (x - a))) else m.byte x := rfl

theorem movs_byte :
    (m.movs w dst src).byte x =
      if dst ≤ x ∧ x < dst + w then m.byte (src + (x - dst)) else m.byte x := rfl

/-- A fill with a value all of whose bytes are the same. -/
theorem repStos_byte (hvalue : ∀ j < w, BitVec.ofNat 8 (value >>> (8 * j)) = b) :
    (m.repStos w value n a).byte x = if a ≤ x ∧ x < a + w * n then b else m.byte x := by
  induction n generalizing a m with
  | zero =>
      rw [Nat.mul_zero, Nat.add_zero, if_neg (by omega)]
      rfl
  | succ n ih =>
      rw [repStos, ih, Nat.mul_succ]
      generalize w * n = k
      by_cases hhere : a ≤ x ∧ x < a + w
      · rw [if_neg (by omega), if_pos (by omega), stos_byte, if_pos hhere]
        exact hvalue _ (by omega)
      · rw [stos_byte, if_neg hhere]
        by_cases hlater : a + w ≤ x ∧ x < a + w + k
        · rw [if_pos hlater, if_pos (by omega)]
        · rw [if_neg hlater, if_neg (by omega)]

theorem repStos_used (h : x ∈ (m.repStos w value n a).used) :
    x ∈ m.used ∨ a ≤ x ∧ x < a + w * n := by
  induction n generalizing a m with
  | zero => exact Or.inl h
  | succ n ih =>
      rw [Nat.mul_succ]
      rcases ih h with hused | hlater
      · rcases List.mem_append.mp hused with hspan | hold
        · have := mem_span.mp hspan
          omega
        · exact Or.inl hold
      · omega

/-- Going up: every byte is loaded before it is overwritten. -/
theorem repMovs_byte (h : dst ≤ src ∨ src + w * n ≤ dst) :
    (m.repMovs w n dst src).byte x =
      if dst ≤ x ∧ x < dst + w * n then m.byte (src + (x - dst)) else m.byte x := by
  induction n generalizing dst src m with
  | zero =>
      rw [Nat.mul_zero, Nat.add_zero, if_neg (by omega)]
      rfl
  | succ n ih =>
      rw [Nat.mul_succ] at h
      rw [repMovs, ih (by omega), Nat.mul_succ]
      generalize w * n = k at h
      by_cases hhere : dst ≤ x ∧ x < dst + w
      · rw [if_neg (by omega), if_pos (by omega), movs_byte, if_pos hhere]
      · by_cases hlater : dst + w ≤ x ∧ x < dst + w + k
        · -- what is loaded is not among what has been stored
          rw [if_pos hlater, if_pos (by omega), movs_byte, if_neg (by omega)]
          congr 1
          omega
        · rw [if_neg hlater, if_neg (by omega), movs_byte, if_neg hhere]

/-- Going down, from the last element on. -/
theorem repMovsDown_byte (hle : src ≤ dst) :
    (m.repMovsDown w n (dst + w * n - w) (src + w * n - w)).byte x =
      if dst ≤ x ∧ x < dst + w * n then m.byte (src + (x - dst)) else m.byte x := by
  induction n generalizing m with
  | zero =>
      rw [Nat.mul_zero, Nat.add_zero, if_neg (by omega)]
      rfl
  | succ n ih =>
      rw [Nat.mul_succ, ← Nat.add_assoc, ← Nat.add_assoc, Nat.add_sub_cancel, Nat.add_sub_cancel,
        repMovsDown, ih]
      generalize w * n = k
      by_cases hhere : dst + k ≤ x ∧ x < dst + k + w
      · rw [if_neg (by omega), if_pos (by omega), movs_byte, if_pos hhere]
        congr 1
        omega
      · by_cases hlater : dst ≤ x ∧ x < dst + k
        · rw [if_pos hlater, if_pos (by omega), movs_byte, if_neg (by omega)]
        · rw [if_neg hlater, if_neg (by omega), movs_byte, if_neg hhere]

theorem repMovs_used (h : x ∈ (m.repMovs w n dst src).used) :
    x ∈ m.used ∨ dst ≤ x ∧ x < dst + w * n ∨ src ≤ x ∧ x < src + w * n := by
  induction n generalizing dst src m with
  | zero => exact Or.inl h
  | succ n ih =>
      rw [Nat.mul_succ]
      rcases ih h with hused | hlater
      · rcases List.mem_append.mp hused with hspan | hold
        · rcases List.mem_append.mp hspan with hspan | hspan
          · have := mem_span.mp hspan
            omega
          · have := mem_span.mp hspan
            omega
        · exact Or.inl hold
      · omega

end ByteRam

end Nctuos.Lib
