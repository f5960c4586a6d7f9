import Nctuos.Mem

/-!
# The table of the processors

`kernel/mpconfig.c`: the BIOS leaves a floating pointer structure (`struct mp`) in one of three
places, and this leads to a configuration table (`struct mpconf`) with one entry per processor,
bus, I/O APIC and interrupt line.  `mp_init` takes from it the number of processors, which of them
is the boot CPU, and the physical address of the local APICs.

The tables are bytes in physical memory, which `mp_init` reads through the direct map of
`kern_pgdir`, and nothing is known about them: `Phys` is any assignment of bytes to addresses.
The structures are packed, and a field is read at its offset.  What is printed, and the mode of
the interrupt controller (`imcrp`), are left out.

There may be no table (`mpconfig` returns NULL), or one with an entry of a type that `mp_init`
does not know, and then `lapicaddr` is 0.  `FindsLapic` is what has to be in memory for `mp_init`
to set it.
-/

namespace Nctuos

open Lib

/-! ## Bytes -/

/-- What physical memory holds when `mp_init` is called. -/
abbrev Phys := Nat → BitVec 8

namespace Phys

variable (ph : Phys)

def u8 (a : Nat) : Nat := (ph a).toNat

def u16 (a : Nat) : Nat := ph.u8 a + 2 ^ 8 * ph.u8 (a + 1)

def u32 (a : Nat) : Nat := ph.u16 a + 2 ^ 16 * ph.u16 (a + 2)

/-- `sum`, which returns a `uint8_t`. -/
def sum (a len : Nat) : Nat := ((List.range len).map fun i => ph.u8 (a + i)).sum % 2 ^ 8

/-- `memcmp(p, text, 4) == 0`. -/
def memcmp4 (a : Nat) (text : List Nat) : Prop := (List.range 4).map (fun i => ph.u8 (a + i)) = text

instance (a : Nat) (text : List Nat) : Decidable (ph.memcmp4 a text) :=
  inferInstanceAs (Decidable (_ = _))

end Phys

/-! ## The search -/

def sizeofMp : Nat := 16

/-- The fields of `struct mp` that are used. -/
def mpPhysaddr (ph : Phys) (mp : Nat) : Nat := ph.u32 (mp + 4)

def mpType (ph : Phys) (mp : Nat) : Nat := ph.u8 (mp + 11)

/-- The fields of `struct mpconf` that are used. -/
def confLength (ph : Phys) (conf : Nat) : Nat := ph.u16 (conf + 4)

def confVersion (ph : Phys) (conf : Nat) : Nat := ph.u8 (conf + 6)

def confEntry (ph : Phys) (conf : Nat) : Nat := ph.u16 (conf + 34)

def confLapicaddr (ph : Phys) (conf : Nat) : Nat := ph.u32 (conf + 36)

def confXlength (ph : Phys) (conf : Nat) : Nat := ph.u16 (conf + 40)

def confXchecksum (ph : Phys) (conf : Nat) : Nat := ph.u8 (conf + 42)

def confEntries (conf : Nat) : Nat := conf + 44

/-- The letters `_MP_`. -/
def mpSignature : List Nat := [0x5F, 0x4D, 0x50, 0x5F]

/-- The letters `PCMP`. -/
def confSignature : List Nat := [0x50, 0x43, 0x4D, 0x50]

/-- The search of `len` bytes in steps of `sizeof(struct mp)`. -/
def mpsearch1 (c : Config) (ph : Phys) (a len : Nat) : Except Stop (Option Nat) := do
  let _ ← kaddr c a
  let _ ← kaddr c (add32 a len)
  .ok (((List.range ((len + sizeofMp - 1) / sizeofMp)).map fun i => a + i * sizeofMp).find?
    fun mp => decide (ph.memcmp4 mp mpSignature ∧ ph.sum mp sizeofMp = 0))

/-- The BIOS data area. -/
def bda : Nat := 0x40 <<< 4

/-- The place of the first search: the EBDA, or the last kilobyte of base memory if there is
none.  Base memory of no kilobytes would make `p - 1024` wrap around. -/
def mpFirst (ph : Phys) : Nat :=
  if ph.u16 (bda + 0x0E) ≠ 0 then ph.u16 (bda + 0x0E) <<< 4
  else (ph.u16 (bda + 0x13) * 1024 + 2 ^ 32 - 1024) % 2 ^ 32

def mpsearch (c : Config) (ph : Phys) : Except Stop (Option Nat) := do
  let _ ← kaddr c bda
  let mp ← mpsearch1 c ph (mpFirst ph) 1024
  match mp with
  | some mp => .ok (some mp)
  | none => mpsearch1 c ph 0xF0000 0x10000

/-- `mpconfig`; `none` is its NULL. -/
def mpconfig (c : Config) (ph : Phys) : Except Stop (Option Nat) := do
  let mp ← mpsearch c ph
  match mp with
  | none => .ok none
  | some mp =>
      -- default configurations are not implemented
      if mpPhysaddr ph mp = 0 ∨ mpType ph mp ≠ 0 then .ok none
      else do
        let _ ← kaddr c (mpPhysaddr ph mp)
        let conf := mpPhysaddr ph mp
        if ¬ ph.memcmp4 conf confSignature then .ok none
        else if ph.sum conf (confLength ph conf) ≠ 0 then .ok none
        else if confVersion ph conf ≠ 1 ∧ confVersion ph conf ≠ 4 then .ok none
        else if ph.sum (conf + confLength ph conf) (confXlength ph conf) ≠ confXchecksum ph conf then
          .ok none
        else .ok (some conf)

/-! ## `mp_init` -/

inductive CpuStatus
  | unused
  | started
  | halted
  deriving DecidableEq

/-- The fields of `struct CpuInfo` that `mp_init` sets. -/
structure MpCpu where
  cpuId : Nat
  cpuStatus : CpuStatus
  deriving DecidableEq

/-- The variables of `kernel/mpconfig.c`, with `lapicaddr`.  `bootcpu` is an index; `cpus` has
`NCPU` elements, and what is behind them is whatever else the kernel keeps there. -/
structure MpState where
  cpus : Nat → MpCpu
  bootcpu : Nat
  ismp : Bool
  ncpu : Nat
  lapicaddr : Nat

/-- Before `mp_init`, with `bootcpu = &cpus[0]`. -/
def MpState.zero : MpState := ⟨fun _ => ⟨0, .unused⟩, 0, false, 0, 0⟩

/-- The types of the entries. -/
inductive MpEntryType
  | proc
  | bus
  | ioapic
  | iointr
  | lintr
  deriving DecidableEq

def MpEntryType.ofByte : Nat → Option MpEntryType
  | 0x00 => some .proc
  | 0x01 => some .bus
  | 0x02 => some .ioapic
  | 0x03 => some .iointr
  | 0x04 => some .lintr
  | _ => none

/-- How far `p` moves on. -/
def MpEntryType.size : MpEntryType → Nat
  | .proc => 20
  | _ => 8

/-- The flag `MPPROC_BOOT` of the `struct mpproc` at `p`. -/
def mpprocBoot (ph : Phys) (p : Nat) : Prop := ph.u8 (p + 3) &&& 0x02 ≠ 0

instance (ph : Phys) (p : Nat) : Decidable (mpprocBoot ph p) := inferInstanceAs (Decidable (_ ≠ _))

/-- The case `MPPROC`.  `bootcpu` is set before `ncpu` is looked at. -/
def mpProc (ph : Phys) (p : Nat) (s : MpState) : MpState :=
  let s := if mpprocBoot ph p then { s with bootcpu := s.ncpu } else s
  if s.ncpu < ncpuMax then
    { s with
      cpus := Function.update s.cpus s.ncpu { s.cpus s.ncpu with cpuId := s.ncpu }
      ncpu := s.ncpu + 1 }
  else s

/-- The loop over the entries, with the number of those that are left. -/
def mpEntries (ph : Phys) : Nat → Nat → MpState → MpState
  | 0, _, s => s
  | n + 1, p, s =>
      match MpEntryType.ofByte (ph.u8 p) with
      | none => { s with ismp := false }
      | some .proc => mpEntries ph n (p + MpEntryType.proc.size) (mpProc ph p s)
      | some t => mpEntries ph n (p + t.size) s

/-- `bootcpu->cpu_status = CPU_STARTED`. -/
def MpState.startBoot (s : MpState) : MpState :=
  { s with
    cpus := Function.update s.cpus s.bootcpu { s.cpus s.bootcpu with cpuStatus := .started } }

def mpInit (c : Config) (ph : Phys) : Except Stop MpState := do
  let conf ← mpconfig c ph
  match conf with
  | none => .ok .zero
  | some conf =>
      let s := mpEntries ph (confEntry ph conf) (confEntries conf)
        { MpState.zero with ismp := true, lapicaddr := confLapicaddr ph conf }
      let s := s.startBoot
      -- with an unknown entry, fall back to no MP
      if s.ismp then .ok s else .ok { s with ncpu := 1, lapicaddr := 0 }

/-! ## When there is a local APIC -/

/-- The `n` entries from `p` on are of types that `mp_init` knows. -/
def KnownEntries (ph : Phys) : Nat → Nat → Prop
  | 0, _ => True
  | n + 1, p => ∃ t, MpEntryType.ofByte (ph.u8 p) = some t ∧ KnownEntries ph n (p + t.size)

/-- There is a table, it has the address of a local APIC, and all its entries are known. -/
def FindsLapic (c : Config) (ph : Phys) : Prop :=
  ∃ conf, mpconfig c ph = .ok (some conf) ∧ confLapicaddr ph conf ≠ 0 ∧
    KnownEntries ph (confEntry ph conf) (confEntries conf)

section Lapic

variable {c : Config} {ph : Phys} {n p : Nat} {s : MpState}

theorem mpProc_keeps :
    (mpProc ph p s).lapicaddr = s.lapicaddr ∧ (mpProc ph p s).ismp = s.ismp := by
  unfold mpProc
  dsimp only
  split <;> split <;> exact ⟨rfl, rfl⟩

/-- One entry more: what the loop does with it. -/
theorem mpEntries_succ {t : MpEntryType} (ht : MpEntryType.ofByte (ph.u8 p) = some t) :
    mpEntries ph (n + 1) p s =
      mpEntries ph n (p + t.size) (if t = .proc then mpProc ph p s else s) := by
  rw [mpEntries, ht]
  cases t <;> rfl

/-- The loop leaves `lapicaddr` alone, and `ismp` too unless it comes to an unknown entry. -/
theorem mpEntries_spec :
    (mpEntries ph n p s).lapicaddr = s.lapicaddr ∧
      ((mpEntries ph n p s).ismp = true ↔ s.ismp = true ∧ KnownEntries ph n p) := by
  induction n generalizing p s with
  | zero => exact ⟨rfl, (and_iff_left trivial).symm⟩
  | succ n ih =>
      rw [KnownEntries]
      cases ht : MpEntryType.ofByte (ph.u8 p) with
      | none =>
          rw [mpEntries, ht]
          simp
      | some t =>
          have hkeeps : (if t = .proc then mpProc ph p s else s).lapicaddr = s.lapicaddr ∧
              (if t = .proc then mpProc ph p s else s).ismp = s.ismp := by
            split
            · exact mpProc_keeps
            · exact ⟨rfl, rfl⟩
          rw [mpEntries_succ ht, ih.1, ih.2, hkeeps.1, hkeeps.2]
          simp

/-- `lapicaddr` is set if and only if there is a table to set it from. -/
theorem mpInit_lapicaddr (h : mpInit c ph = .ok s) : s.lapicaddr ≠ 0 ↔ FindsLapic c ph := by
  rw [mpInit] at h
  obtain ⟨conf, hconf, h⟩ := bind_ok_iff.mp h
  cases conf with
  | none =>
      cases h
      refine ⟨fun hne => absurd rfl hne, ?_⟩
      rintro ⟨conf, hconf', -⟩
      rw [hconf] at hconf'
      cases hconf'
  | some conf =>
      have hfinds : FindsLapic c ph ↔ confLapicaddr ph conf ≠ 0 ∧
          KnownEntries ph (confEntry ph conf) (confEntries conf) := by
        refine ⟨?_, fun hknown => ⟨conf, hconf, hknown⟩⟩
        rintro ⟨conf', hconf', hknown⟩
        obtain rfl : conf = conf' := Option.some.inj (Except.ok.inj (hconf.symm.trans hconf'))
        exact hknown
      rw [hfinds]
      simp only at h
      split at h
      · rename_i hismp
        cases h
        have haddr : (mpEntries ph (confEntry ph conf) (confEntries conf)
            { MpState.zero with
              ismp := true, lapicaddr := confLapicaddr ph conf }).startBoot.lapicaddr =
              confLapicaddr ph conf := mpEntries_spec.1
        rw [haddr, and_iff_left (mpEntries_spec.2.mp hismp).2]
      · rename_i hismp
        cases h
        exact ⟨fun hne => absurd rfl hne, fun hne => absurd (mpEntries_spec.2.mpr ⟨rfl, hne.2⟩) hismp⟩

/-- Where there is no underscore there is no floating pointer structure. -/
theorem mpsearch1_none {a len : Nat} (ha : kaddr c a = .ok (pgnum a))
    (hend : kaddr c (add32 a len) = .ok (pgnum (add32 a len))) (h : ∀ i, ph.u8 (a + i) ≠ 0x5F) :
    mpsearch1 c ph a len = .ok none := by
  rw [mpsearch1, ha, ok_bind, hend, ok_bind, Except.ok.injEq, List.find?_eq_none]
  intro mp hmp hfound
  obtain ⟨i, -, rfl⟩ := List.mem_map.mp hmp
  have hletters := (of_decide_eq_true hfound).1
  exact h (i * sizeofMp) (List.cons.inj hletters).1

end Lapic

end Nctuos
