import Nctuos.Lib.StringInstr
import Mathlib.Data.Nat.Bitwise

/-!
# `memset` and `memmove`

The assembly variants of `lib/string.c`.  Both have a route by words, for pointers and sizes that
are multiples of four, and one by bytes; `memmove` goes down when the destination begins inside of
the source, and up otherwise.

`memset` takes an `int` and stores its lowest byte, in each byte of the word on the first route.
So it cannot fill with a 16-bit value (`memset_byte`).  `memmove` moves right on each of its routes
(`memmove_byte`).
-/

namespace Nctuos

open Lib

def memset (v c n : Nat) (m : ByteRam) : ByteRam :=
  if n = 0 then m
  else if v % 4 = 0 ∧ n % 4 = 0 then
    let c := c &&& 0xFF
    let c := (c <<< 24) ||| (c <<< 16) ||| (c <<< 8) ||| c
    m.repStos 4 c (n / 4) v
  else m.repStos 1 c n v

def memmove (dst src n : Nat) (m : ByteRam) : ByteRam :=
  if src < dst ∧ dst < src + n then
    let s := src + n
    let d := dst + n
    if s % 4 = 0 ∧ d % 4 = 0 ∧ n % 4 = 0 then m.repMovsDown 4 (n / 4) (d - 4) (s - 4)
    else m.repMovsDown 1 n (d - 1) (s - 1)
  else if src % 4 = 0 ∧ dst % 4 = 0 ∧ n % 4 = 0 then m.repMovs 4 (n / 4) dst src
  else m.repMovs 1 n dst src

def memcpy (dst src n : Nat) (m : ByteRam) : ByteRam := memmove dst src n m

variable {v c n dst src x : Nat} {m : ByteRam}

/-- The byte in each byte of a word. -/
theorem broadcast_byte (c : Nat) {j : Nat} (hj : j < 4) :
    BitVec.ofNat 8 ((((c &&& 0xFF) <<< 24) ||| ((c &&& 0xFF) <<< 16) ||| ((c &&& 0xFF) <<< 8) |||
      (c &&& 0xFF)) >>> (8 * j)) = BitVec.ofNat 8 c := by
  have hall : ∀ b : Fin 256, ∀ j : Fin 4,
      BitVec.ofNat 8 (((b.val <<< 24) ||| (b.val <<< 16) ||| (b.val <<< 8) ||| b.val) >>> (8 * j.val)) =
        BitVec.ofNat 8 b.val := by decide +kernel
  have hmod : c &&& 0xFF = c % 256 := Nat.and_two_pow_sub_one_eq_mod c 8
  rw [hmod]
  refine (hall ⟨c % 256, Nat.mod_lt _ (by decide)⟩ ⟨j, hj⟩).trans ?_
  exact BitVec.eq_of_toNat_eq (by simp)

/-- Whichever route is taken, each byte is the lowest byte of `c`. -/
theorem memset_byte :
    (memset v c n m).byte x = if v ≤ x ∧ x < v + n then BitVec.ofNat 8 c else m.byte x := by
  rw [memset]
  split
  · rename_i hn
    rw [if_neg (by omega)]
  · split
    · rename_i halign
      rw [ByteRam.repStos_byte fun j hj => broadcast_byte c hj, Nat.mul_div_cancel' (by omega)]
    · have hbyte : ∀ j < 1, BitVec.ofNat 8 (c >>> (8 * j)) = BitVec.ofNat 8 c := by
        intro j hj
        rw [Nat.lt_one_iff.mp hj]
        rfl
      rw [ByteRam.repStos_byte hbyte, Nat.one_mul]

theorem memset_used (h : x ∈ (memset v c n m).used) : x ∈ m.used ∨ v ≤ x ∧ x < v + n := by
  rw [memset] at h
  split at h
  · exact Or.inl h
  · split at h
    · rename_i halign
      have hused := ByteRam.repStos_used h
      rwa [Nat.mul_div_cancel' (by omega)] at hused
    · have hused := ByteRam.repStos_used h
      rwa [Nat.one_mul] at hused

/-- A move to a lower address goes up, by words or by bytes. -/
theorem memmove_lower (hle : dst ≤ src) :
    memmove dst src n m =
      if src % 4 = 0 ∧ dst % 4 = 0 ∧ n % 4 = 0 then m.repMovs 4 (n / 4) dst src
      else m.repMovs 1 n dst src := by
  rw [memmove, if_neg (by omega)]

/-- Whichever route is taken, each byte is the one that was in the source. -/
theorem memmove_byte :
    (memmove dst src n m).byte x =
      if dst ≤ x ∧ x < dst + n then m.byte (src + (x - dst)) else m.byte x := by
  rw [memmove]
  split
  · dsimp only
    split
    · rename_i halign
      have hn : 4 * (n / 4) = n := Nat.mul_div_cancel' (by omega)
      have hdown := @ByteRam.repMovsDown_byte 4 (n / 4) dst src x m (by omega)
      rw [hn] at hdown
      exact hdown
    · have hdown := @ByteRam.repMovsDown_byte 1 n dst src x m (by omega)
      rw [Nat.one_mul] at hdown
      exact hdown
  · split
    · rename_i halign
      have hn : 4 * (n / 4) = n := Nat.mul_div_cancel' (by omega)
      rw [ByteRam.repMovs_byte (by omega), hn]
    · rw [ByteRam.repMovs_byte (by omega), Nat.one_mul]

theorem memmove_lower_used (hle : dst ≤ src) (h : x ∈ (memmove dst src n m).used) :
    x ∈ m.used ∨ dst ≤ x ∧ x < dst + n ∨ src ≤ x ∧ x < src + n := by
  rw [memmove_lower hle] at h
  split at h
  · rename_i halign
    have hused := ByteRam.repMovs_used h
    rwa [Nat.mul_div_cancel' (by omega)] at hused
  · have hused := ByteRam.repMovs_used h
    rwa [Nat.one_mul] at hused

end Nctuos
