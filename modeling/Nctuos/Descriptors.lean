import Nctuos.TrapTable
import Nctuos.Lib.X86

/-!
# The descriptor tables

The formats of `inc/mmu.h`, the `gdt` of `kernel/task.c`, and what `task_init_percpu` does to make
interrupts of user programs work: the TSS of its CPU with the stack for the kernel, the descriptor of
that TSS, and `ltr`.  The processor that reads them is `Nctuos.Lib.X86`.

The CPUs share the memory and the table, and each has its own registers (`initOn`).  When they are
set up one after the other, each finds its own stack (`setUp_of_boot`): the base of a TSS goes through
the three fields of its descriptor and comes out as it was, and nobody overwrites the TSS of another.

The TSS holds more than a stack.  `task_init_percpu` fills it with zeros, and so the offset of the bit
map of I/O ports is 0: the map is the TSS itself, where most bits are 0, and a 0 gives a port away.
`user_ports` says which ports a user program may use.  Those of the interrupt controllers, of the
timer, of the keyboard and of the disk are among them.
-/

namespace Nctuos

open Lib

/-! ## Segment descriptors -/

/-- `struct Segdesc`.  The first field is the lowest. -/
structure Segdesc where
  sdLim15to0 : BitVec 16
  sdBase15to0 : BitVec 16
  sdBase23to16 : BitVec 8
  sdType : BitVec 4
  sdS : BitVec 1
  sdDpl : BitVec 2
  sdP : BitVec 1
  sdLim19to16 : BitVec 4
  sdAvl : BitVec 1
  sdRsv1 : BitVec 1
  sdDb : BitVec 1
  sdG : BitVec 1
  sdBase31to24 : BitVec 8

/-- Its eight bytes. -/
def Segdesc.pack (d : Segdesc) : Desc :=
  d.sdBase31to24 ++ d.sdG ++ d.sdDb ++ d.sdRsv1 ++ d.sdAvl ++ d.sdLim19to16 ++ d.sdP ++ d.sdDpl ++
    d.sdS ++ d.sdType ++ d.sdBase23to16 ++ d.sdBase15to0 ++ d.sdLim15to0

/-- `SEG`. -/
def seg (type : BitVec 4) (base lim : BitVec 32) (dpl : BitVec 2) : Segdesc :=
  ⟨lim.extractLsb' 12 16, base.extractLsb' 0 16, base.extractLsb' 16 8, type, 1, dpl, 1,
    lim.extractLsb' 28 4, 0, 0, 1, 1, base.extractLsb' 24 8⟩

/-- `SEG16`. -/
def seg16 (type : BitVec 4) (base lim : BitVec 32) (dpl : BitVec 2) : Segdesc :=
  ⟨lim.extractLsb' 0 16, base.extractLsb' 0 16, base.extractLsb' 16 8, type, 1, dpl, 1,
    lim.extractLsb' 16 4, 0, 0, 1, 0, base.extractLsb' 24 8⟩

def staX : BitVec 4 := 0x8
def staW : BitVec 4 := 0x2
def staR : BitVec 4 := 0x2
def stsT32A : BitVec 4 := 0x9
def stsIg32 : BitVec 4 := 0xE
def stsTg32 : BitVec 4 := 0xF

def gdKt : BitVec 16 := 0x08
def gdKd : BitVec 16 := 0x10
def gdTss0 : BitVec 16 := 0x28

/-- `gdt`, as it is compiled. -/
def gdt : Nat → Desc
  | 1 => (seg (staX ||| staR) 0 0xffffffff 0).pack
  | 2 => (seg staW 0 0xffffffff 0).pack
  | 3 => (seg (staX ||| staR) 0 0xffffffff 3).pack
  | 4 => (seg staW 0 0xffffffff 3).pack
  | _ => 0

theorem gdt_of_le {i : Nat} (hi : 5 ≤ i) : gdt i = 0 := by
  unfold gdt
  split <;> first | omega | rfl

/-- `sizeof (gdt) / sizeof (gdt[0])`. -/
def gdtSize : Nat := ncpuMax + 5

/-! ## Gates -/

/-- What `SETGATE` makes of a gate, when the code of the stubs is at `entry`. -/
def Gatedesc.pack (entry : Stub → BitVec 32) (g : Gatedesc) : Desc :=
  (entry g.entry).extractLsb' 16 16 ++ 1#1 ++ BitVec.ofNat 2 g.dpl ++ 0#1 ++
    (if g.isTrap then stsTg32 else stsIg32) ++ 0#3 ++ 0#5 ++ gdKt ++ (entry g.entry).extractLsb' 0 16

/-! ## What the processor reads -/

section Packed

variable (d : Segdesc) (type : BitVec 4) (base lim : BitVec 32) (dpl : BitVec 2)

/-- Where the processor looks for the fields. -/
theorem Segdesc.pack_fields :
    d.pack.extractLsb' 0 16 = d.sdLim15to0 ∧ d.pack.extractLsb' 16 16 = d.sdBase15to0 ∧
      d.pack.extractLsb' 32 8 = d.sdBase23to16 ∧ d.pack.extractLsb' 40 4 = d.sdType ∧
      d.pack.extractLsb' 44 1 = d.sdS ∧ d.pack.extractLsb' 47 1 = d.sdP ∧
      d.pack.extractLsb' 48 4 = d.sdLim19to16 ∧ d.pack.extractLsb' 55 1 = d.sdG ∧
      d.pack.extractLsb' 56 8 = d.sdBase31to24 := by
  simp (disch := decide) only [Segdesc.pack, BitVec.extractLsb'_append_eq_of_le,
    BitVec.extractLsb'_append_eq_of_add_le]
  simp only [Nat.reduceSub, BitVec.extractLsb'_eq_self, and_self]

theorem Segdesc.pack_type : d.pack.type = d.sdType := by
  simp only [Desc.type, Segdesc.pack_fields]

theorem Segdesc.pack_app : d.pack.app = decide (d.sdS = 1) := by
  simp only [Desc.app, Segdesc.pack_fields]

theorem Segdesc.pack_present : d.pack.present = decide (d.sdP = 1) := by
  simp only [Desc.present, Segdesc.pack_fields]

theorem Segdesc.pack_base :
    d.pack.base = d.sdBase31to24 ++ (d.sdBase23to16 ++ d.sdBase15to0) := by
  simp only [Desc.base, Segdesc.pack_fields]

theorem Segdesc.pack_limit (hg : d.sdG = 0) :
    d.pack.limit = (d.sdLim19to16 ++ d.sdLim15to0).toNat := by
  simp only [Desc.limit, Segdesc.pack_fields, hg]
  rfl

/-- A base goes through a descriptor unchanged. -/
theorem seg16_pack_base : (seg16 type base lim dpl).pack.base = base := by
  rw [Segdesc.pack_base, seg16]
  dsimp only
  rw [BitVec.extractLsb'_append_extractLsb'_eq_extractLsb' (by rfl),
    BitVec.extractLsb'_append_extractLsb'_eq_extractLsb' (by rfl)]
  exact BitVec.extractLsb'_eq_self

variable (entry : Stub → BitVec 32) (g : Gatedesc)

/-- The same for a gate. -/
theorem Gatedesc.pack_fields :
    (g.pack entry).extractLsb' 0 16 = (entry g.entry).extractLsb' 0 16 ∧
      (g.pack entry).extractLsb' 16 16 = gdKt ∧
      (g.pack entry).extractLsb' 40 4 = (if g.isTrap then stsTg32 else stsIg32) ∧
      (g.pack entry).extractLsb' 44 1 = 0#1 ∧
      (g.pack entry).extractLsb' 45 2 = BitVec.ofNat 2 g.dpl ∧
      (g.pack entry).extractLsb' 47 1 = 1#1 ∧
      (g.pack entry).extractLsb' 48 16 = (entry g.entry).extractLsb' 16 16 := by
  simp (disch := decide) only [Gatedesc.pack, BitVec.extractLsb'_append_eq_of_le,
    BitVec.extractLsb'_append_eq_of_add_le]
  simp only [Nat.reduceSub, BitVec.extractLsb'_eq_self, and_self]

theorem Gatedesc.pack_type :
    (g.pack entry).type = if g.isTrap then stsTg32 else stsIg32 := by
  simp only [Desc.type, Gatedesc.pack_fields]

theorem Gatedesc.pack_app : (g.pack entry).app = false := by
  simp only [Desc.app, Gatedesc.pack_fields]
  rfl

theorem Gatedesc.pack_present : (g.pack entry).present = true := by
  simp only [Desc.present, Gatedesc.pack_fields]
  rfl

theorem Gatedesc.pack_dpl : (g.pack entry).dpl = BitVec.ofNat 2 g.dpl := by
  simp only [Desc.dpl, Gatedesc.pack_fields]

theorem Gatedesc.pack_selector : (g.pack entry).selector = gdKt := by
  simp only [Desc.selector, Gatedesc.pack_fields]

theorem Gatedesc.pack_offset : (g.pack entry).offset = entry g.entry := by
  simp only [Desc.offset, Gatedesc.pack_fields]
  rw [BitVec.extractLsb'_append_extractLsb'_eq_extractLsb' (by rfl)]
  exact BitVec.extractLsb'_eq_self

theorem Gatedesc.pack_intrGate : (g.pack entry).intrGate = !g.isTrap := by
  rw [Desc.intrGate, Gatedesc.pack_app, Gatedesc.pack_type]
  cases g.isTrap <;> rfl

theorem Gatedesc.pack_trapGate : (g.pack entry).trapGate = g.isTrap := by
  rw [Desc.trapGate, Gatedesc.pack_app, Gatedesc.pack_type]
  cases g.isTrap <;> rfl

end Packed

/-! ## `task_init_percpu` -/

/-- Where the linker has put the tables and the code. -/
structure KernelAddrs where
  cpus : BitVec 32
  percpuKstacks : BitVec 32
  entry : Stub → BitVec 32

/-- `sizeof (struct CpuInfo)`, and the offset of `cpu_tss` in it. -/
def sizeofCpuInfo : Nat := 252
def cpuTssOffset : Nat := 148

/-- `sizeof (struct tss_struct)`. -/
def sizeofTss : Nat := 104

namespace KernelAddrs

/-- Tables at some addresses, and stubs 16 bytes apart. -/
def small : KernelAddrs :=
  ⟨0xF0120000, 0xF0130000, fun e => BitVec.ofNat 32 (0xF0100000 + 16 * e.num)⟩

/-- `&cpus[c].cpu_tss`. -/
def cpuTss (a : KernelAddrs) (c : Nat) : BitVec 32 :=
  a.cpus + BitVec.ofNat 32 (sizeofCpuInfo * c + cpuTssOffset)

/-- `(uint32_t) percpu_kstacks[c] + KSTKSIZE`. -/
def kstackTop (a : KernelAddrs) (c : Nat) : BitVec 32 :=
  a.percpuKstacks + BitVec.ofNat 32 (c * kstksize + kstksize)

end KernelAddrs

/-- `memset (p, 0, n)`. -/
def zeroed (m : Ram) (p : BitVec 32) (n : Nat) : Ram := fun x => if (x - p).toNat < n then 0 else m x

/-- The TSS of CPU `c`: zeros, `ts_esp0`, `ts_ss0`, `ts_fs` and `ts_gs`. -/
def initTss (a : KernelAddrs) (c : Nat) (m : Ram) : Ram :=
  let p := a.cpuTss c
  let m := zeroed m p sizeofTss
  let m := m.store 4 (p + 4#32) (a.kstackTop c)
  let m := m.store 2 (p + 8#32) (gdKd.setWidth 32)
  let m := m.store 2 (p + 88#32) ((gdUd ||| 0x03).setWidth 32)
  m.store 2 (p + 92#32) ((gdUd ||| 0x03).setWidth 32)

/-- The descriptor of the TSS of CPU `c`. -/
def tssDesc (a : KernelAddrs) (c : Nat) : Segdesc :=
  { seg16 stsT32A (a.cpuTss c) (BitVec.ofNat 32 sizeofTss) 0 with sdS := 0 }

/-- What `task_init_percpu` does for the interrupts of CPU `c`, on that CPU.  Its tasks and its run
queue are `taskInitPercpu`. -/
def initInterrupts (a : KernelAddrs) (c : Nat) (s : X86) : Except Fault X86 :=
  let i := (gdTss0 >>> 3).toNat + c
  X86.ltr
    { s with
      mem := initTss a c s.mem, gdt := Function.update s.gdt i (tssDesc a c).pack, gdtLen := gdtSize }
    (BitVec.ofNat 16 i <<< 3)

/-- It on CPU `c` of several, which share the memory and the table. -/
def initOn (a : KernelAddrs) (cpus : Nat → X86) (c : Nat) : Except Fault (Nat → X86) := do
  let s ← initInterrupts a c (cpus c)
  .ok fun j => if j = c then s else { cpus j with mem := s.mem, gdt := s.gdt }

section Tss

variable {a : KernelAddrs} {c c' : Nat} {m m' : Ram} {x : BitVec 32}

/-- The TSS is written as a whole, and nothing else is. -/
theorem initTss_of_le (hx : sizeofTss ≤ (x - a.cpuTss c).toNat) : initTss a c m x = m x := by
  rw [sizeofTss] at hx
  simp only [initTss]
  rw [Ram.store_of_le (by bv_omega), Ram.store_of_le (by bv_omega), Ram.store_of_le (by bv_omega),
    Ram.store_of_le (by bv_omega), zeroed, sizeofTss, if_neg (by omega)]

/-- The TSS of another CPU is somewhere else. -/
theorem cpuTss_apart (hc : c < ncpuMax) (hc' : c' < ncpuMax) (hne : c ≠ c')
    (hx : (x - a.cpuTss c).toNat < sizeofTss) : sizeofTss ≤ (x - a.cpuTss c').toNat := by
  simp only [ncpuMax, sizeofTss] at *
  -- one of the two is at most seven records behind the other
  have hafter : ∀ {i j : Nat}, i < j → a.cpuTss j = a.cpuTss i + BitVec.ofNat 32 (252 * (j - i)) := by
    intro i j hij
    rw [KernelAddrs.cpuTss, KernelAddrs.cpuTss, BitVec.add_assoc, ← BitVec.ofNat_add]
    congr 2
    simp only [sizeofCpuInfo, cpuTssOffset]
    omega
  rcases Nat.lt_or_gt_of_ne hne with hlt | hlt
  · rw [hafter hlt]
    generalize a.cpuTss c = p at *
    have hd : 252 * (c' - c) < 2000 ∧ 252 ≤ 252 * (c' - c) := by omega
    generalize 252 * (c' - c) = d at *
    bv_omega
  · rw [hafter hlt] at hx
    generalize a.cpuTss c' = p at *
    have hd : 252 * (c - c') < 2000 ∧ 252 ≤ 252 * (c - c') := by omega
    generalize 252 * (c - c') = d at *
    bv_omega

theorem read32_initTss_esp0 : (initTss a c m).read32 (a.cpuTss c + 4#32) = a.kstackTop c := by
  have hkept : ∀ i < 4, initTss a c m (a.cpuTss c + 4#32 + BitVec.ofNat 32 i) =
      (zeroed m (a.cpuTss c) sizeofTss).store 4 (a.cpuTss c + 4#32) (a.kstackTop c)
        (a.cpuTss c + 4#32 + BitVec.ofNat 32 i) := by
    intro i hi
    simp only [initTss]
    rw [Ram.store_of_le (by bv_omega), Ram.store_of_le (by bv_omega), Ram.store_of_le (by bv_omega)]
  rw [Ram.read32_congr hkept, Ram.read32_store]

/-- The bytes of the TSS. -/
def tssByte (esp0 : BitVec 32) (i : Nat) : BitVec 8 :=
  if 4 ≤ i ∧ i < 8 then (esp0 >>> (8 * (i - 4))).setWidth 8
  else if i = 8 then 0x10
  else if i = 88 ∨ i = 92 then 0x23
  else 0

theorem initTss_byte {i : Nat} (hi : i < sizeofTss) :
    initTss a c m (a.cpuTss c + BitVec.ofNat 32 i) = tssByte (a.kstackTop c) i := by
  rw [sizeofTss] at hi
  have hzero : (a.cpuTss c + BitVec.ofNat 32 i - a.cpuTss c).toNat < sizeofTss := by
    rw [sizeofTss]
    bv_omega
  have hbytes := fun k v m => @Ram.store_offset m (a.cpuTss c) v 2 k i (by omega)
  have hword := fun v m => @Ram.store_offset m (a.cpuTss c) v 4 4 i (by omega) (by omega) (by omega)
  rw [initTss, hbytes 92 _ _ (by omega) (by omega), hbytes 88 _ _ (by omega) (by omega),
    hbytes 8 _ _ (by omega) (by omega), hword, zeroed, if_pos hzero, tssByte]
  have hcases : i = 92 ∨ i = 93 ∨ i = 88 ∨ i = 89 ∨ i = 8 ∨ i = 9 ∨
      ¬ (i = 92 ∨ i = 93 ∨ i = 88 ∨ i = 89 ∨ i = 8 ∨ i = 9) := by omega
  rcases hcases with rfl | rfl | rfl | rfl | rfl | rfl | hrest
  iterate 6 simp [gdKd, gdUd]
  · rw [if_neg (by omega), if_neg (by omega), if_neg (by omega)]
    by_cases hesp : 4 ≤ i ∧ i < 8
    · rw [if_pos (by omega), if_pos hesp]
    · rw [if_neg (by omega), if_neg hesp, if_neg (by omega), if_neg (by omega)]

end Tss

/-! ## CPUs that are set up -/

/-- CPU `c` finds its own TSS, and behind the segments of the kernel and of user programs there are
only system descriptors in the table. -/
structure SetUp (a : KernelAddrs) (c : Nat) (s : X86) : Prop where
  len : s.gdtLen = gdtSize
  segs : ∀ i < 5, s.gdt i = gdt i
  system : ∀ i, 5 ≤ i → (s.gdt i).app = false
  base : s.trBase = a.cpuTss c
  limit : s.trLimit = sizeofTss
  tss : ∀ i < sizeofTss, s.mem (a.cpuTss c + BitVec.ofNat 32 i) = tssByte (a.kstackTop c) i

section Boot

variable {a : KernelAddrs} {c : Nat} {l : List Nat} {s : X86} {cpus cpus' : Nat → X86}

/-- Nothing in it can fault. -/
theorem initInterrupts_eq (hc : c < ncpuMax) :
    initInterrupts a c s = .ok { s with
      mem := initTss a c s.mem
      gdt := Function.update s.gdt ((gdTss0 >>> 3).toNat + c) (tssDesc a c).pack.busy
      gdtLen := gdtSize, trBase := a.cpuTss c, trLimit := sizeofTss } := by
  have hsel : ∀ c < ncpuMax, Selector.isNull (BitVec.ofNat 16 ((gdTss0 >>> 3).toNat + c) <<< 3) =
      false ∧ (BitVec.ofNat 16 ((gdTss0 >>> 3).toNat + c) <<< 3).getLsbD 2 = false ∧
      (BitVec.ofNat 16 ((gdTss0 >>> 3).toNat + c) <<< 3 >>> 3).toNat = (gdTss0 >>> 3).toNat + c ∧
      (gdTss0 >>> 3).toNat + c < gdtSize := by decide
  obtain ⟨hnull, hti, hindex, hlt⟩ := hsel c hc
  have htss : (tssDesc a c).pack.availableTss = true := by
    rw [Desc.availableTss, Segdesc.pack_app, Segdesc.pack_type]
    rfl
  have hpresent : (tssDesc a c).pack.present = true := by
    rw [Segdesc.pack_present]
    rfl
  have hbase : (tssDesc a c).pack.base = a.cpuTss c := by
    rw [Segdesc.pack_base, ← seg16_pack_base stsT32A (a.cpuTss c) (BitVec.ofNat 32 sizeofTss) 0,
      Segdesc.pack_base]
    rfl
  have hlimit : (tssDesc a c).pack.limit = sizeofTss := by
    rw [Segdesc.pack_limit _ rfl]
    dsimp only [tssDesc, seg16]
    decide
  rw [initInterrupts, X86.ltr, X86.descriptor]
  simp only [hnull, hti, hindex, hlt, Bool.false_eq_true, or_self, if_false, if_true,
    Function.update_self, htss, hpresent, not_true_eq_false, hbase, hlimit, Function.update_idem]

/-- What the CPUs share, and which of them are set up. -/
structure Booting (a : KernelAddrs) (done : List Nat) (cpus : Nat → X86) : Prop where
  mem : ∀ i j, (cpus i).mem = (cpus j).mem
  gdt : ∀ i j, (cpus i).gdt = (cpus j).gdt
  segs : ∀ j, ∀ i < 5, (cpus j).gdt i = Nctuos.gdt i
  system : ∀ j i, 5 ≤ i → ((cpus j).gdt i).app = false
  setUp : ∀ c ∈ done, SetUp a c (cpus c)

/-- One CPU more. -/
theorem Booting.initOn {done : List Nat} (h : Booting a done cpus) (hc : c < ncpuMax)
    (hdone : ∀ c ∈ done, c < ncpuMax) (hinit : Nctuos.initOn a cpus c = .ok cpus') :
    Booting a (done ++ [c]) cpus' := by
  rw [Nctuos.initOn, initInterrupts_eq hc, ok_bind, Except.ok.injEq] at hinit
  have htss0 : (gdTss0 >>> 3).toNat = 5 := by decide
  rw [htss0] at hinit
  have hmem : ∀ j, (cpus' j).mem = initTss a c (cpus c).mem := by
    intro j
    rw [← hinit]
    dsimp only
    split <;> rfl
  have hgdt : ∀ j, (cpus' j).gdt =
      Function.update (cpus c).gdt (5 + c) (tssDesc a c).pack.busy := by
    intro j
    rw [← hinit]
    dsimp only
    split <;> rfl
  have hsegs : ∀ j, ∀ i < 5, (cpus' j).gdt i = Nctuos.gdt i := by
    intro j i hi
    rw [hgdt, Function.update_of_ne (by omega), h.segs c i hi]
  have hsystem : ∀ j i, 5 ≤ i → ((cpus' j).gdt i).app = false := by
    intro j i hi
    rw [hgdt]
    by_cases hic : i = 5 + c
    · rw [hic, Function.update_self, Desc.busy_app, Segdesc.pack_app]
      rfl
    · rw [Function.update_of_ne hic]
      exact h.system c i hi
  refine ⟨fun i j => by rw [hmem, hmem], fun i j => by rw [hgdt, hgdt], hsegs, hsystem, ?_⟩
  intro c' hc'
  by_cases hcc : c' = c
  · subst hcc
    have hcpu : cpus' c' = { cpus c' with
        mem := initTss a c' (cpus c').mem
        gdt := Function.update (cpus c').gdt (5 + c') (tssDesc a c').pack.busy
        gdtLen := gdtSize, trBase := a.cpuTss c', trLimit := sizeofTss } := by
      rw [← hinit]
      exact if_pos rfl
    refine ⟨by rw [hcpu], hsegs c', hsystem c', by rw [hcpu], by rw [hcpu], fun i hi => ?_⟩
    rw [hmem]
    exact initTss_byte hi
  · have hold : c' ∈ done := (List.mem_append.mp hc').resolve_right (by simpa using hcc)
    have hset := h.setUp c' hold
    have hcpu : cpus' c' = { cpus c' with
        mem := (cpus' c').mem, gdt := (cpus' c').gdt } := by
      rw [hmem, hgdt, ← hinit]
      exact if_neg hcc
    refine ⟨by rw [hcpu]; exact hset.len, hsegs c', hsystem c', by rw [hcpu]; exact hset.base,
      by rw [hcpu]; exact hset.limit, fun i hi => ?_⟩
    rw [hmem, initTss_of_le, h.mem c c']
    · exact hset.tss i hi
    · refine cpuTss_apart (hdone c' hold) hc hcc ?_
      rw [sizeofTss] at hi ⊢
      bv_omega

/-- Setting up does not fault. -/
theorem boot_ok (a : KernelAddrs) (cpus : Nat → X86) (hl : ∀ c ∈ l, c < ncpuMax) :
    ∃ cpus', l.foldlM (initOn a) cpus = .ok cpus' := by
  induction l generalizing cpus with
  | nil => exact ⟨cpus, rfl⟩
  | cons c l ih =>
      obtain ⟨hc, hl⟩ := List.forall_mem_cons.mp hl
      rw [List.foldlM_cons, initOn, initInterrupts_eq hc]
      exact ih _ hl

/-- After the CPUs have been set up one after the other, each of them is. -/
theorem setUp_of_boot (hmem : ∀ i j, (cpus i).mem = (cpus j).mem) (hgdt : ∀ j, (cpus j).gdt = gdt)
    (hl : ∀ c ∈ l, c < ncpuMax) (hboot : l.foldlM (initOn a) cpus = .ok cpus') (hc : c ∈ l) :
    SetUp a c (cpus' c) := by
  have hstart : Booting a [] cpus := by
    refine ⟨hmem, fun i j => by rw [hgdt, hgdt], fun j i _ => by rw [hgdt], fun j i hi => ?_,
      fun c hc => by cases hc⟩
    rw [hgdt, gdt_of_le hi]
    rfl
  have hbooting : (∀ c ∈ l, c < ncpuMax) → Booting a l cpus' := by
    refine foldlM_ok_induction (P := fun done cpus => (∀ c ∈ done, c < ncpuMax) →
      Booting a done cpus) (fun _ => hstart) (fun done cpus i cpus' h hinit hlt => ?_) hboot
    have hdone : ∀ c ∈ done, c < ncpuMax := fun c hc => hlt c (List.mem_append_left _ hc)
    exact (h hdone).initOn (hlt i (by simp)) hdone hinit
  exact (hbooting hl).setUp c hc

end Boot

/-- A later state of CPU `c`: nobody has changed what was set up. -/
structure Unchanged (a : KernelAddrs) (c : Nat) (s u : X86) : Prop where
  tables : u.tables = s.tables
  tss : ∀ i < sizeofTss,
    u.mem (a.cpuTss c + BitVec.ofNat 32 i) = s.mem (a.cpuTss c + BitVec.ofNat 32 i)

theorem SetUp.unchanged {a : KernelAddrs} {c : Nat} {s u : X86} (h : SetUp a c s)
    (hu : Unchanged a c s u) : SetUp a c u := by
  have htables := hu.tables
  simp only [X86.tables, Prod.mk.injEq] at htables
  obtain ⟨hgdt, hlen, hbase, hlimit⟩ := htables
  exact ⟨hlen.trans h.len, fun i hi => by rw [hgdt, h.segs i hi],
    fun i hi => by rw [hgdt, h.system i hi], hbase.trans h.base, hlimit.trans h.limit,
    fun i hi => by rw [hu.tss i hi, h.tss i hi]⟩

/-! ## Ports -/

/-- A port whose bit in the TSS is 0, when the stack for the kernel ends at `esp0`.  The ports of the
words of the TSS that are not 0 are named: those of `ts_ss0`, of `ts_fs` and of `ts_gs`. -/
def OpenPort (esp0 : BitVec 32) (port : Nat) : Prop :=
  port < 8 * sizeofTss ∧ port ∉ [68, 704, 705, 709, 736, 737, 741] ∧
    ∀ i < 32, port = 32 + i → esp0.getLsbD i = false

theorem openPort_iff {esp0 : BitVec 32} {port : Nat} (hport : port < 8 * sizeofTss) :
    OpenPort esp0 port ↔ (tssByte esp0 (port / 8)).getLsbD (port % 8) = false := by
  have hlt : port % 8 < 8 := Nat.mod_lt _ (by omega)
  rw [OpenPort, and_iff_right hport, tssByte]
  by_cases hesp : 4 ≤ port / 8 ∧ port / 8 < 8
  · rw [if_pos hesp]
    have hnot : port ∉ [68, 704, 705, 709, 736, 737, 741] := by
      simp only [List.mem_cons, List.not_mem_nil, or_false]
      omega
    have hbit : ((esp0 >>> (8 * (port / 8 - 4))).setWidth 8).getLsbD (port % 8) =
        esp0.getLsbD (port - 32) := by
      rw [BitVec.getLsbD_setWidth, BitVec.getLsbD_ushiftRight, decide_eq_true hlt, Bool.true_and]
      congr 1
      omega
    rw [hbit, and_iff_right hnot]
    constructor
    · intro h
      exact h _ (by omega) (by omega)
    · intro h i hi heq
      rwa [heq, Nat.add_sub_cancel_left] at h
  · rw [if_neg hesp]
    have hnone : ∀ i < 32, port = 32 + i → esp0.getLsbD i = false := fun i hi heq => by omega
    rw [and_iff_left hnone]
    by_cases hss0 : port / 8 = 8
    · have hbits : ∀ r < 8, 64 + r ∉ [68, 704, 705, 709, 736, 737, 741] ↔
          (0x10 : BitVec 8).getLsbD r = false := by decide
      rw [if_pos hss0, ← hbits _ hlt]
      have heq : port = 64 + port % 8 := by omega
      rw [← heq]
    · rw [if_neg hss0]
      by_cases hsegs : port / 8 = 88 ∨ port / 8 = 92
      · have hbits : ∀ r < 8, (704 + r ∉ [68, 704, 705, 709, 736, 737, 741] ↔
            (0x23 : BitVec 8).getLsbD r = false) ∧
            (736 + r ∉ [68, 704, 705, 709, 736, 737, 741] ↔
              (0x23 : BitVec 8).getLsbD r = false) := by decide
        rw [if_pos hsegs]
        rcases hsegs with hfs | hgs
        · have heq : port = 704 + port % 8 := by omega
          rw [← (hbits _ hlt).1, ← heq]
        · have heq : port = 736 + port % 8 := by omega
          rw [← (hbits _ hlt).2, ← heq]
      · rw [if_neg hsegs]
        refine iff_of_true ?_ (by simp)
        simp only [List.mem_cons, List.not_mem_nil, or_false]
        omega

/-- The byte behind the TSS of CPU `c`: the `cpu_id` of the next CPU, if there is one. -/
def byteBehindTss (a : KernelAddrs) (c : Nat) (u : X86) : BitVec 8 :=
  u.mem (a.cpuTss c + BitVec.ofNat 32 sizeofTss)

section Ports

variable {a : KernelAddrs} {c n : Nat} {u : X86} {port : BitVec 16}

section IoMap

variable (h : SetUp a c u) (hring : u.iopl < u.cpl)

include h hring

/-- The bit map is the TSS, and the byte behind it, which is within the limit. -/
theorem SetUp.ioPermitted_iff (hn : n ≤ 4) (hport : port.toNat < 8 * sizeofTss) :
    u.ioPermitted port n = true ↔ ∀ k < n,
      if port.toNat + k < 8 * sizeofTss then OpenPort (a.kstackTop c) (port.toNat + k)
      else (byteBehindTss a c u).getLsbD (port.toNat + k - 8 * sizeofTss) = false := by
  have hoff : (u.mem.read16 (u.trBase + 102#32)).toNat = 0 := by
    have hlow : u.mem (a.cpuTss c + 102#32) = 0 := (h.tss 102 (by decide)).trans rfl
    have hhigh : u.mem (a.cpuTss c + 102#32 + 1#32) = 0 := by
      rw [BitVec.add_assoc]
      exact (h.tss 103 (by decide)).trans rfl
    rw [Ram.read16, h.base, hlow, hhigh]
    rfl
  have hbit : ∀ k < n, (u.mem.read16 (u.trBase + BitVec.ofNat 32 (port.toNat / 8))).getLsbD
      (port.toNat % 8 + k) = false ↔
        if port.toNat + k < 8 * sizeofTss then OpenPort (a.kstackTop c) (port.toNat + k)
        else (byteBehindTss a c u).getLsbD (port.toNat + k - 8 * sizeofTss) = false := by
    intro k hk
    have hsize : sizeofTss = 104 := rfl
    rw [Ram.getLsbD_read16, h.base]
    split
    · have hlt : port.toNat + k < 8 * sizeofTss := by omega
      rw [if_pos hlt, openPort_iff hlt, h.tss _ (by omega),
        show (port.toNat + k) / 8 = port.toNat / 8 by omega,
        show (port.toNat + k) % 8 = port.toNat % 8 + k by omega]
    · rw [BitVec.add_assoc, ← BitVec.ofNat_add]
      by_cases hlt : port.toNat + k < 8 * sizeofTss
      · rw [if_pos hlt, openPort_iff hlt, h.tss _ (by omega),
          show (port.toNat + k) / 8 = port.toNat / 8 + 1 by omega,
          show (port.toNat + k) % 8 = port.toNat % 8 + k - 8 by omega]
      · rw [if_neg hlt, byteBehindTss, show sizeofTss = port.toNat / 8 + 1 by omega,
          show port.toNat + k - 8 * (port.toNat / 8 + 1) = port.toNat % 8 + k - 8 by omega]
  have hlimit : port.toNat / 8 + 1 ≤ u.trLimit := by
    rw [h.limit]
    rw [sizeofTss] at hport ⊢
    omega
  have hmin : 103 ≤ u.trLimit := by
    rw [h.limit]
    decide
  have hout : ¬ u.cpl ≤ u.iopl := by simpa using hring
  simp only [X86.ioPermitted, hoff, Nat.zero_add, Bool.or_eq_true, decide_eq_true_eq, hout,
    false_or, Bool.and_eq_true, hmin, hlimit, true_and, List.all_eq_true, List.mem_range,
    Bool.not_eq_true']
  exact forall₂_congr hbit

/-- Ports of the TSS only. -/
theorem SetUp.ioPermitted_below (hpos : 0 < n) (hn : n ≤ 4) (hport : port.toNat + n ≤ 8 * sizeofTss) :
    u.ioPermitted port n = true ↔ ∀ k < n, OpenPort (a.kstackTop c) (port.toNat + k) := by
  rw [h.ioPermitted_iff hring hn (by omega)]
  exact forall₂_congr fun k hk => by rw [if_pos (by omega)]

/-- Ports on both sides: the last ones of the TSS are open. -/
theorem SetUp.ioPermitted_across (hn : n ≤ 4) (hport : port.toNat < 8 * sizeofTss)
    (hend : 8 * sizeofTss < port.toNat + n) :
    u.ioPermitted port n = true ↔ ∀ k < n, 8 * sizeofTss ≤ port.toNat + k →
      (byteBehindTss a c u).getLsbD (port.toNat + k - 8 * sizeofTss) = false := by
  have hlast : ∀ k, port.toNat + k < 8 * sizeofTss → OpenPort (a.kstackTop c) (port.toNat + k) := by
    intro k hk
    refine ⟨hk, ?_, fun i hi heq => ?_⟩
    · rw [sizeofTss] at hk hend
      simp only [List.mem_cons, List.not_mem_nil, or_false]
      omega
    · rw [sizeofTss] at hend
      omega
  rw [h.ioPermitted_iff hring hn hport]
  refine forall₂_congr fun k _ => ?_
  split
  · rename_i hlt
    exact iff_of_true (hlast k hlt) fun hge => absurd hlt (Nat.not_lt.mpr hge)
  · rename_i hge
    rw [forall_prop_of_true (Nat.not_lt.mp hge)]

theorem SetUp.ioPermitted_above (hport : 8 * sizeofTss ≤ port.toNat) :
    u.ioPermitted port n = false := by
  have hlimit : ¬ (u.mem.read16 (u.trBase + 102#32)).toNat + port.toNat / 8 + 1 ≤ u.trLimit := by
    rw [h.limit]
    rw [sizeofTss] at hport ⊢
    omega
  have hout : ¬ u.cpl ≤ u.iopl := by simpa using hring
  simp [X86.ioPermitted, hout, hlimit]

end IoMap

end Ports

/-- Ports of the two interrupt controllers, the timer, the keyboard, the clock and the disk. -/
def devicePorts : List Nat :=
  [0x20, 0x21, 0xA0, 0xA1, 0x40, 0x43, 0x60, 0x64, 0x70, 0x71] ++ (List.range 8).map (0x1F0 + ·)

/-- `percpu_kstacks` is aligned to a page, and so the bits of `ts_esp0` at the ports of the first
controller are 0. -/
theorem devicePorts_open {a : KernelAddrs} (halign : a.percpuKstacks.toNat % pgSize = 0) (c : Nat) :
    ∀ port ∈ devicePorts, OpenPort (a.kstackTop c) port := by
  have hzero : ∀ i < 12, (a.kstackTop c).getLsbD i = false := by
    intro i hi
    have hmod : (a.kstackTop c).toNat % 2 ^ 12 = 0 := by
      have hstack : kstksize = 32768 := by decide
      have hpage : pgSize = 4096 := by decide
      rw [hpage] at halign
      rw [KernelAddrs.kstackTop, BitVec.toNat_add, BitVec.toNat_ofNat, hstack]
      omega
    rw [BitVec.getLsbD, ← Nat.mod_add_div (a.kstackTop c).toNat (2 ^ 12), hmod, Nat.zero_add,
      Nat.testBit_two_pow_mul]
    simp only [Bool.and_eq_false_imp, decide_eq_true_eq]
    omega
  have hlist : ∀ port ∈ devicePorts, port < 8 * sizeofTss ∧
      port ∉ [68, 704, 705, 709, 736, 737, 741] ∧ ¬ (44 ≤ port ∧ port < 64) := by decide
  intro port hport
  obtain ⟨hlt, hnot, hrange⟩ := hlist port hport
  exact ⟨hlt, hnot, fun i hi heq => hzero i (by omega)⟩

/-- What a user program on CPU `c` may do with ports. -/
structure UserPorts (a : KernelAddrs) (c : Nat) (u : X86) : Prop where
  /-- Below 832, the ports whose bits in the TSS are 0, -/
  below : ∀ (port : BitVec 16) (n : Nat), 0 < n → n ≤ 4 → port.toNat + n ≤ 8 * sizeofTss →
    (u.ioPermitted port n = true ↔ ∀ k < n, OpenPort (a.kstackTop c) (port.toNat + k))
  /-- and none above, -/
  above : ∀ (port : BitVec 16) (n : Nat), 8 * sizeofTss ≤ port.toNat → u.ioPermitted port n = false
  /-- except in one access with ports below, if the bits of the byte behind the TSS are 0. -/
  across : ∀ (port : BitVec 16) (n : Nat), n ≤ 4 → port.toNat < 8 * sizeofTss →
    8 * sizeofTss < port.toNat + n →
    (u.ioPermitted port n = true ↔ ∀ k < n, 8 * sizeofTss ≤ port.toNat + k →
      (byteBehindTss a c u).getLsbD (port.toNat + k - 8 * sizeofTss) = false)
  devices : ∀ port : BitVec 16, port.toNat ∈ devicePorts → u.ioPermitted port 1 = true

/-- **User programs may use the ports of the devices.**  On every CPU, whatever the addresses of the
tables are. -/
theorem user_ports {a : KernelAddrs} (halign : a.percpuKstacks.toNat % pgSize = 0) {l : List Nat}
    (hl : ∀ c ∈ l, c < ncpuMax) {cpus cpus' : Nat → X86}
    (hmem : ∀ i j, (cpus i).mem = (cpus j).mem) (hgdt : ∀ j, (cpus j).gdt = gdt)
    (hboot : l.foldlM (initOn a) cpus = .ok cpus') {c : Nat} (hc : c ∈ l) {u : X86}
    (hu : Unchanged a c (cpus' c) u) (hring : u.iopl < u.cpl) : UserPorts a c u := by
  have hset := (setUp_of_boot hmem hgdt hl hboot hc).unchanged hu
  refine ⟨fun port n hpos hn hport => hset.ioPermitted_below hring hpos hn hport,
    fun port n hport => hset.ioPermitted_above hring hport,
    fun port n hn hport hend => hset.ioPermitted_across hring hn hport hend, fun port hport => ?_⟩
  have hopen := devicePorts_open halign c port.toNat hport
  have hlt := hopen.1
  refine (hset.ioPermitted_below hring (by omega) (by omega) (by omega)).mpr fun k hk => ?_
  obtain rfl : k = 0 := by omega
  exact hopen

/-- On the second of two CPUs: the mask of the first interrupt controller, which a program may set,
and the index of the video controller, which it may not. -/
theorem user_ports_two :
    ∃ (cpus' : Nat → X86) (u : X86),
      [0, 1].foldlM (initOn .small) (fun _ => { (default : X86) with gdt := gdt }) = .ok cpus' ∧
      Unchanged .small 1 (cpus' 1) u ∧ u.iopl < u.cpl ∧ UserPorts .small 1 u ∧
      u.ioPermitted 0x21 1 = true ∧ u.ioPermitted 0x3D4 1 = false := by
  have hl : ∀ c ∈ [0, 1], c < ncpuMax := by decide
  obtain ⟨cpus', hboot⟩ := boot_ok .small (fun _ => { (default : X86) with gdt := gdt }) hl
  let u : X86 := { cpus' 1 with cs := gdUt ||| 3, eflags := 0x202 }
  have hsame : Unchanged .small 1 (cpus' 1) u := ⟨rfl, fun _ _ => rfl⟩
  have hring : u.iopl < u.cpl := by
    change BitVec.extractLsb' 12 2 0x202#32 < Selector.rpl (gdUt ||| 3)
    decide
  have hports := user_ports (by decide) hl (fun _ _ => rfl) (fun _ => rfl) hboot (by decide) hsame
    hring
  exact ⟨cpus', u, hboot, hsame, hring, hports, hports.devices _ (by decide),
    hports.above _ _ (by decide)⟩

end Nctuos
