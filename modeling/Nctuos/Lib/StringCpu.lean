import Nctuos.Lib.StringInstr
import Mathlib.Algebra.Group.Nat.Defs

/-!
# String instructions on 32-bit registers

`movs` and `rep` of a processor: the addresses are in `edi` and `esi`, the number of turns that are
left is in `ecx`, and the direction flag says which way the addresses go after each element.
Addresses wrap around.

As long as no element that is moved wraps around, this is what `ByteRam.repMovs` and
`ByteRam.repMovsDown` do with addresses without a bound (`rep_movs_up`, `rep_movs_down`).  The
registers may wrap behind the last element; nothing is moved there.
-/

namespace Nctuos.Lib

/-- What the string instructions use of a processor, and the memory. -/
structure StringCpu where
  edi : BitVec 32
  esi : BitVec 32
  ecx : BitVec 32
  df : Bool
  mem : BitVec 32 → BitVec 8

namespace StringCpu

/-- The address of the next element. -/
def advance (df : Bool) (w : Nat) (p : BitVec 32) : BitVec 32 :=
  if df then p - BitVec.ofNat 32 w else p + BitVec.ofNat 32 w

/-- `movs`: an element of `w` bytes is loaded, and then stored. -/
def movs (w : Nat) (s : StringCpu) : StringCpu :=
  { s with
    edi := advance s.df w s.edi
    esi := advance s.df w s.esi
    mem := fun x => if (x - s.edi).toNat < w then s.mem (s.esi + (x - s.edi)) else s.mem x }

/-- `rep`: turn by turn, until `ecx` is 0. -/
def rep (instr : StringCpu → StringCpu) (s : StringCpu) : StringCpu :=
  if s.ecx = 0 then s else rep instr { instr s with ecx := s.ecx - 1 }
termination_by s.ecx.toNat
decreasing_by bv_omega

end StringCpu

/-- The memory of the processor has the bytes of `ram`. -/
def ByteRam.Mirrors (ram : ByteRam) (mem : BitVec 32 → BitVec 8) : Prop :=
  ∀ x, mem x = ram.byte x.toNat

namespace StringCpu

variable {ram : ByteRam} {s : StringCpu} {w n dst src : Nat}

theorem mirrors_movs (h : ram.Mirrors s.mem) (hdst : s.edi.toNat + w ≤ 2 ^ 32)
    (hsrc : s.esi.toNat + w ≤ 2 ^ 32) :
    (ram.movs w s.edi.toNat s.esi.toNat).Mirrors (s.movs w).mem := by
  intro x
  have hin : (x - s.edi).toNat < w ↔ s.edi.toNat ≤ x.toNat ∧ x.toNat < s.edi.toNat + w := by
    bv_omega
  rw [ByteRam.movs_byte, movs]
  dsimp only
  by_cases hx : (x - s.edi).toNat < w
  · have haddr : (s.esi + (x - s.edi)).toNat = s.esi.toNat + (x.toNat - s.edi.toNat) := by
      bv_omega
    rw [if_pos hx, if_pos (hin.mp hx), h, haddr]
  · rw [if_neg hx, if_neg fun hx' => hx (hin.mpr hx'), h]

/-- One turn of `rep`. -/
theorem rep_turn (instr : StringCpu → StringCpu) (hn : s.ecx.toNat = n + 1) :
    rep instr s = rep instr { instr s with ecx := s.ecx - 1 } ∧ (s.ecx - 1).toNat = n := by
  have hne : s.ecx ≠ 0 := by
    intro hzero
    rw [hzero] at hn
    cases hn
  refine ⟨?_, by bv_omega⟩
  rw [rep, if_neg hne]

theorem rep_done (instr : StringCpu → StringCpu) (hn : s.ecx.toNat = 0) : rep instr s = s := by
  rw [rep, if_pos (BitVec.eq_of_toNat_eq hn)]

theorem rep_movs_df (w : Nat) (s : StringCpu) : (rep (movs w) s).df = s.df := by
  generalize hn : s.ecx.toNat = n
  induction n generalizing s with
  | zero => rw [rep_done _ hn]
  | succ n ih =>
      obtain ⟨hturn, hrest⟩ := rep_turn (movs w) hn
      rw [hturn]
      exact ih _ hrest

/-- Going up.  The addresses count only while there is an element left. -/
theorem rep_movs_up (hw : 0 < w) (hdf : s.df = false) (hmem : ram.Mirrors s.mem)
    (hn : s.ecx.toNat = n) (hptr : n ≠ 0 → s.edi.toNat = dst ∧ s.esi.toNat = src)
    (hdst : dst + w * n ≤ 2 ^ 32) (hsrc : src + w * n ≤ 2 ^ 32) :
    (ram.repMovs w n dst src).Mirrors (rep (movs w) s).mem := by
  induction n generalizing s ram dst src with
  | zero =>
      rw [rep_done _ hn]
      exact hmem
  | succ n ih =>
      rw [Nat.mul_succ] at hdst hsrc
      obtain ⟨rfl, rfl⟩ := hptr n.succ_ne_zero
      obtain ⟨hturn, hrest⟩ := rep_turn (movs w) hn
      rw [hturn]
      refine ih hdf (mirrors_movs hmem (by omega) (by omega)) hrest (fun hmore => ?_) (by omega)
        (by omega)
      have hpos : 0 < w * n := Nat.mul_pos hw (Nat.pos_of_ne_zero hmore)
      dsimp only [movs, advance]
      rw [hdf]
      simp only [Bool.false_eq_true, if_false]
      constructor
      · bv_omega
      · bv_omega

/-- Going down, from an element with as many elements below it as are left. -/
theorem rep_movs_down (hw : 0 < w) (hdf : s.df = true) (hmem : ram.Mirrors s.mem)
    (hn : s.ecx.toNat = n) (hptr : n ≠ 0 → s.edi.toNat = dst ∧ s.esi.toNat = src)
    (hdst : dst + w ≤ 2 ^ 32 ∧ w * n ≤ dst + w) (hsrc : src + w ≤ 2 ^ 32 ∧ w * n ≤ src + w) :
    (ram.repMovsDown w n dst src).Mirrors (rep (movs w) s).mem := by
  induction n generalizing s ram dst src with
  | zero =>
      rw [rep_done _ hn]
      exact hmem
  | succ n ih =>
      rw [Nat.mul_succ] at hdst hsrc
      obtain ⟨rfl, rfl⟩ := hptr n.succ_ne_zero
      obtain ⟨hturn, hrest⟩ := rep_turn (movs w) hn
      rw [hturn]
      refine ih hdf (mirrors_movs hmem hdst.1 hsrc.1) hrest (fun hmore => ?_) ⟨by omega, by omega⟩
        ⟨by omega, by omega⟩
      have hpos : w ≤ w * n := Nat.le_mul_of_pos_right w (Nat.pos_of_ne_zero hmore)
      dsimp only [movs, advance]
      rw [hdf]
      simp only [if_true]
      constructor
      · bv_omega
      · bv_omega

end StringCpu

end Nctuos.Lib
