import Nctuos.LibString
import Nctuos.Lib.StringCpu

/-!
# `memmove` on the processor

The assembly variant of `memmove` in `lib/string.c`, with pointers of 32 bits, and with `std`, `cld`
and `rep movs` as instructions.  `LibString` has the same function with addresses that do not
wrap around.  The two agree when neither the source nor the destination wraps (`memmove_mirrors`):
the ends of the ranges may be the end of the address space, since only the pointer behind the
destination can be 0 when it is looked at, and a remainder by four does not see that.

With what `LibString` says about each route, every byte of the destination is the byte that was in
the source (`memmove_copies`).
-/

namespace Nctuos.Asm

open Lib StringCpu

/-! ## The model -/

/-- `(int)s%4 == 0 && (int)d%4 == 0 && n%4 == 0`. -/
def ByWords (s d n : BitVec 32) : Prop := s.srem 4 = 0 ∧ d.srem 4 = 0 ∧ n % 4 = 0

instance (s d n : BitVec 32) : Decidable (ByWords s d n) := inferInstanceAs (Decidable (_ ∧ _))

/-- The operands of an `asm` statement. -/
def load (edi esi ecx : BitVec 32) (cpu : StringCpu) : StringCpu :=
  { cpu with edi := edi, esi := esi, ecx := ecx }

def std (cpu : StringCpu) : StringCpu := { cpu with df := true }

def cld (cpu : StringCpu) : StringCpu := { cpu with df := false }

/-- `memmove`, with the pointer that it returns. -/
def memmove (dst src n : BitVec 32) (cpu : StringCpu) : BitVec 32 × StringCpu :=
  let s := src
  let d := dst
  if s < d ∧ d < s + n then
    let s := s + n
    let d := d + n
    let cpu :=
      if ByWords s d n then rep (movs 4) (std (load (d - 4) (s - 4) (n / 4) cpu))
      else rep (movs 1) (std (load (d - 1) (s - 1) n cpu))
    (dst, cld cpu)
  else if ByWords s d n then (dst, rep (movs 4) (cld (load d s (n / 4) cpu)))
  else (dst, rep (movs 1) (cld (load d s n cpu)))

def memcpy (dst src n : BitVec 32) (cpu : StringCpu) : BitVec 32 × StringCpu := memmove dst src n cpu

/-! ## The two models -/

variable {dst src n p : BitVec 32} {cpu : StringCpu} {ram : ByteRam}

theorem srem_four_iff : p.srem 4 = 0 ↔ p.toNat % 4 = 0 := by
  have hlt := p.isLt
  have hrem : (p.srem 4).toInt = p.toInt.tmod 4 := BitVec.toInt_srem p 4
  have hdvd : p.toInt.tmod 4 = 0 ↔ 4 ∣ p.toInt := (Int.dvd_iff_tmod_eq_zero ..).symm
  rw [← BitVec.toInt_inj, hrem, show (0 : BitVec 32).toInt = 0 from rfl, hdvd,
    BitVec.toInt_eq_toNat_cond]
  split
  · omega
  · omega

theorem byWords_iff {s d : BitVec 32} :
    ByWords s d n ↔ s.toNat % 4 = 0 ∧ d.toNat % 4 = 0 ∧ n.toNat % 4 = 0 := by
  have hn : n % 4 = 0 ↔ n.toNat % 4 = 0 := by
    rw [← BitVec.toNat_inj, BitVec.toNat_umod]
    rfl
  rw [ByWords, srem_four_iff, srem_four_iff, hn]

/-- The last element of a range, which may end with the address space. -/
theorem toNat_last {w : Nat} (h : p.toNat + n.toNat ≤ 2 ^ 32) (hw : 0 < w ∧ w ≤ n.toNat) :
    (p + n - BitVec.ofNat 32 w).toNat = p.toNat + n.toNat - w := by
  have hlt := n.isLt
  rw [BitVec.toNat_sub, BitVec.toNat_add, BitVec.toNat_ofNat]
  omega

/-- The processor's `memmove` is that of `LibString`. -/
theorem memmove_mirrors (hdst : dst.toNat + n.toNat ≤ 2 ^ 32) (hsrc : src.toNat + n.toNat ≤ 2 ^ 32)
    (hmem : ram.Mirrors cpu.mem) :
    (Nctuos.memmove dst.toNat src.toNat n.toNat ram).Mirrors (memmove dst src n cpu).2.mem := by
  have hdown : src < dst ∧ dst < src + n ↔
      src.toNat < dst.toNat ∧ dst.toNat < src.toNat + n.toNat := by
    bv_omega
  have hquarter : (n / 4).toNat = n.toNat / 4 := BitVec.toNat_udiv
  rw [Nctuos.memmove, memmove]
  dsimp only
  by_cases hd : src < dst ∧ dst < src + n
  · have hd' := hdown.mp hd
    have hwords : ByWords (src + n) (dst + n) n ↔ (src.toNat + n.toNat) % 4 = 0 ∧
        (dst.toNat + n.toNat) % 4 = 0 ∧ n.toNat % 4 = 0 := by
      rw [byWords_iff, BitVec.toNat_add, BitVec.toNat_add]
      omega
    rw [if_pos hd, if_pos hd']
    by_cases hw : ByWords (src + n) (dst + n) n
    · have hw' := hwords.mp hw
      rw [if_pos hw, if_pos hw']
      refine rep_movs_down (by decide) rfl hmem hquarter (fun _ => ?_) (by omega) (by omega)
      exact ⟨@toNat_last n dst 4 hdst (by omega), @toNat_last n src 4 hsrc (by omega)⟩
    · rw [if_neg hw, if_neg (mt hwords.mpr hw)]
      refine rep_movs_down (by decide) rfl hmem rfl (fun _ => ?_) (by omega) (by omega)
      exact ⟨@toNat_last n dst 1 hdst (by omega), @toNat_last n src 1 hsrc (by omega)⟩
  · rw [if_neg hd, if_neg (mt hdown.mpr hd)]
    by_cases hw : ByWords src dst n
    · have hw' := byWords_iff.mp hw
      rw [if_pos hw, if_pos hw']
      exact rep_movs_up (by decide) rfl hmem hquarter (fun _ => ⟨rfl, rfl⟩) (by omega) (by omega)
    · rw [if_neg hw, if_neg (mt byWords_iff.mpr hw)]
      exact rep_movs_up (by decide) rfl hmem rfl (fun _ => ⟨rfl, rfl⟩) (by omega) (by omega)

/-! ## What is moved -/

/-- Each byte of the destination is the one that was in the source, and the other bytes are as they
were. -/
structure Copied (dst src n : BitVec 32) (mem mem' : BitVec 32 → BitVec 8) : Prop where
  inside : ∀ k, k < n.toNat → mem' (dst + BitVec.ofNat 32 k) = mem (src + BitVec.ofNat 32 k)
  outside : ∀ x : BitVec 32, ¬ (dst.toNat ≤ x.toNat ∧ x.toNat < dst.toNat + n.toNat) →
    mem' x = mem x

/-- `memmove` returns its first argument, with the direction flag clear. -/
theorem memmove_returns (dst src n : BitVec 32) (cpu : StringCpu) :
    (memmove dst src n cpu).1 = dst ∧ (memmove dst src n cpu).2.df = false := by
  rw [memmove]
  dsimp only
  split
  · exact ⟨rfl, rfl⟩
  · split
    · exact ⟨rfl, rep_movs_df 4 _⟩
    · exact ⟨rfl, rep_movs_df 1 _⟩

theorem copied_memmove (hdst : dst.toNat + n.toNat ≤ 2 ^ 32)
    (hsrc : src.toNat + n.toNat ≤ 2 ^ 32) (cpu : StringCpu) :
    Copied dst src n cpu.mem (memmove dst src n cpu).2.mem := by
  have hmem : ByteRam.Mirrors ⟨fun x => cpu.mem (BitVec.ofNat 32 x), []⟩ cpu.mem := by
    intro x
    dsimp only
    rw [BitVec.ofNat_toNat, BitVec.setWidth_eq]
  have hmoved := memmove_mirrors hdst hsrc hmem
  constructor
  · intro k hk
    have haddr : (dst + BitVec.ofNat 32 k).toNat = dst.toNat + k := by
      rw [BitVec.toNat_add, BitVec.toNat_ofNat]
      omega
    rw [hmoved, memmove_byte, haddr, if_pos (by omega), Nat.add_sub_cancel_left]
    dsimp only
    rw [BitVec.ofNat_add, BitVec.ofNat_toNat, BitVec.setWidth_eq]
  · intro x hx
    rw [hmoved, memmove_byte, if_neg hx]
    exact (hmem x).symm

/-- **`memmove` copies right for every overlap.**  Whichever of the four routes is taken: if the
two ranges do not wrap around, then each byte of the destination is the byte that was in the source,
the other bytes are as they were, and the destination is returned.  So for `memcpy`. -/
theorem memmove_copies (hdst : dst.toNat + n.toNat ≤ 2 ^ 32)
    (hsrc : src.toNat + n.toNat ≤ 2 ^ 32) (cpu : StringCpu) :
    (Copied dst src n cpu.mem (memmove dst src n cpu).2.mem ∧ (memmove dst src n cpu).1 = dst ∧
        (memmove dst src n cpu).2.df = false) ∧
      memcpy dst src n cpu = memmove dst src n cpu :=
  ⟨⟨copied_memmove hdst hsrc cpu, memmove_returns dst src n cpu⟩, rfl⟩

/-- A memory whose bytes count up, and a direction flag that is set. -/
def counting : StringCpu := ⟨0, 0, 0, true, fun x => x.setWidth 8⟩

/-- The four routes: up by words and by bytes, and down by words and by bytes, where the ranges
overlap. -/
theorem memmove_copies_counting :
    (memmove 0x2000 0x1000 8 counting).2.mem 0x2005 = 5 ∧
      (memmove 0x0FFF 0x1000 7 counting).2.mem 0x1005 = 6 ∧
      (memmove 0x1004 0x1000 8 counting).2.mem 0x100A = 6 ∧
      (memmove 0x1001 0x1000 7 counting).2.mem 0x1006 = 5 ∧
      (memmove 0x1001 0x1000 7 counting).2.mem 0x1008 = 8 :=
  ⟨(memmove_copies (by decide) (by decide) counting).1.1.inside 5 (by decide),
    (memmove_copies (by decide) (by decide) counting).1.1.inside 6 (by decide),
    (memmove_copies (by decide) (by decide) counting).1.1.inside 6 (by decide),
    (memmove_copies (by decide) (by decide) counting).1.1.inside 5 (by decide),
    (memmove_copies (by decide) (by decide) counting).1.1.outside 0x1008 (by decide)⟩

end Nctuos.Asm
