import Nctuos.Descriptors

/-!
# Saving and restoring a trap frame

The instructions of `kernel/trap_entry.S` and of `env_pop_tf` in `kernel/trap.c`, on the processor of
`Nctuos.Lib.X86`.  So far a trap frame was what `trap_dispatch` gets and what a task is resumed with;
here it is 68 bytes of memory, which the processor, a stub and `_alltraps` push word by word, and
which `env_pop_tf` pops in the opposite order with `popal`, `popl` and `iret`.  That `struct
Trapframe` has its fields in this order is what the theorem is about.

`frame_restored`: an interrupt of a user program on CPU `c` puts the frame at the end of the kernel
stack of that CPU, whatever the program has in its registers, and `env_pop_tf` of that frame, or of a
copy of it anywhere, on any CPU, gives the program its registers back, except for `fs` and `gs`.
These two are not in the frame.  They hold the selector of the kernel's data when `iret` goes back to
user mode, and the processor clears them.

A user program has one gate only: another `int` is a general protection fault (`arrival`).

The stub of a fault that has an error code is to leave it where it is, and that of every other vector
pushes a 0 in its place (`StubFits`).  The kernel has stubs of the first kind for three faults only.
At the other four faults that have an error code (`Mismatched`), `Default_ISR` pushes its 0 below it.
Then the frame is a word further down than the fields of `struct Trapframe` say: the error code is in
the place of `eip`, and there is nothing in the frame that could be restored (`Skewed`).
-/

namespace Nctuos

open Lib

/-! ## The code -/

/-- A stub, up to its jump to `_alltraps`. -/
def Stub.code (e : Stub) : List X86.Insn :=
  (if e.noec then [.pushImm 0] else []) ++ [.pushImm (BitVec.ofNat 32 e.num)]

/-- `_alltraps`, up to the call of `default_trap_handler`, which returns to `ret`. -/
def alltrapsCode (ret : BitVec 32) : List X86.Insn :=
  [.pushSeg .ds, .pushSeg .es, .pushal, .movAx gdKd, .movSeg .ds, .movSeg .es, .movSeg .fs,
    .movSeg .gs, .pushEsp, .call ret]

/-- `env_pop_tf`. -/
def envPopTfCode (tf : BitVec 32) : List X86.Insn :=
  [.movEsp tf, .popal, .popSeg .es, .popSeg .ds, .addEsp 8, .iret]

/-- The stubs of the kernel. -/
def Stub.all : List Stub :=
  [.defaultIsr, .kbdInput, .timIsr, .gpflt, .stackIsr, .pgflt, .syscall]

/-- The stub at an address. -/
def KernelAddrs.stubAt (a : KernelAddrs) (eip : BitVec 32) : Option Stub :=
  Stub.all.find? fun e => a.entry e = eip

/-- `idt`, after all that the kernel registers. -/
def kernelIdt (a : KernelAddrs) (v : BitVec 8) : Desc :=
  ((registered .pageFaultHandler kernelRegistrations .zero).idt v.toNat).elim 0
    (Gatedesc.pack a.entry)

/-- An interrupt, the stub it leads to, and `_alltraps`. -/
def enterKernel (a : KernelAddrs) (ret : BitVec 32) (u : X86) (e : Event) : Except Fault X86 := do
  let s ← u.take e
  match a.stubAt s.eip with
  | none => .error .unmodelled
  | some stub => s.execAll (stub.code ++ alltrapsCode ret)

def envPopTf (k : X86) (tf : BitVec 32) : Except Fault X86 := k.execAll (envPopTfCode tf)

/-! ## The frame in memory -/

/-- `struct Trapframe` at an address. -/
def trapframeAt (m : Ram) (p : BitVec 32) : Trapframe where
  regEdi := m.read32 p
  regEsi := m.read32 (p + 4#32)
  regEbp := m.read32 (p + 8#32)
  regOesp := m.read32 (p + 12#32)
  regEbx := m.read32 (p + 16#32)
  regEdx := m.read32 (p + 20#32)
  regEcx := m.read32 (p + 24#32)
  regEax := m.read32 (p + 28#32)
  tfEs := m.read16 (p + 32#32)
  tfDs := m.read16 (p + 36#32)
  tfTrapno := m.read32 (p + 40#32)
  tfErr := m.read32 (p + 44#32)
  tfEip := m.read32 (p + 48#32)
  tfCs := m.read16 (p + 52#32)
  tfEflags := m.read32 (p + 56#32)
  tfEsp := m.read32 (p + 60#32)
  tfSs := m.read16 (p + 64#32)

/-- The frame that an event makes of the registers of a program, when the kernel stack ends at
`top`. -/
def savedFrame (u : X86) (e : Event) (stub : Stub) (top : BitVec 32) : Trapframe where
  regEdi := u.edi
  regEsi := u.esi
  regEbp := u.ebp
  regOesp := top - 36
  regEbx := u.ebx
  regEdx := u.edx
  regEcx := u.ecx
  regEax := u.eax
  tfEs := u.es
  tfDs := u.ds
  tfTrapno := BitVec.ofNat 32 stub.num
  tfErr := e.err.getD 0
  tfEip := u.eip
  tfCs := u.cs
  tfEflags := e.flags u.eflags
  tfEsp := u.esp
  tfSs := u.ss

/-! ## The gates -/

/-- What the kernel has put into the gate of a vector. -/
def kernelGate (v : Nat) : Gatedesc :=
  if v = irqOffset + irqKbd then ⟨.kbdInput, false, 0⟩
  else if v = irqOffset + irqTimer then ⟨.timIsr, false, 0⟩
  else if v = tSyscall then ⟨.syscall, true, 3⟩
  else if v = tPgflt then ⟨.pgflt, true, 0⟩
  else ⟨initStub v, true, 0⟩

theorem kernelIdt_eq (a : KernelAddrs) (v : BitVec 8) :
    kernelIdt a v = (kernelGate v.toNat).pack a.entry := by
  have hgates : ∀ n < 256, lastGate n (lastSetting KernelHandler.pageFaultHandler
      kernelRegistrations n) = some (kernelGate n) := by decide +kernel
  rw [kernelIdt, (registered_holds KernelHandler.pageFaultHandler .zero kernelRegistrations
    v.isLt).gate, hgates v.toNat v.isLt]
  rfl

theorem gpflt_noec : (kernelGate 13).entry.noec = false := by decide

theorem kernelGate_entry : ∀ n < 256, (kernelGate n).entry ∈ Stub.all := by decide +kernel

/-- The one gate for user programs. -/
theorem kernelGate_dpl (n : Nat) : (kernelGate n).dpl = if n = tSyscall then 3 else 0 := by
  have hkbd : tSyscall ≠ irqOffset + irqKbd := by decide
  have htimer : tSyscall ≠ irqOffset + irqTimer := by decide
  unfold kernelGate
  split_ifs with h1 h2 h3 h4 <;> simp_all

/-- Where an event of a user program arrives: an `int` that is not a system call is a general
protection fault. -/
def arrival (e : Event) : Event :=
  if e.soft ∧ e.vector.toNat ≠ tSyscall then .fault 13 (some e.gateErr) else e

/-- The stub pushes a 0 if and only if the processor has pushed no error code. -/
def StubFits (e : Event) : Prop := (kernelGate e.vector.toNat).entry.noec = e.err.isNone

instance (e : Event) : Decidable (StubFits e) := inferInstanceAs (Decidable (_ = _))

/-- The faults with an error code that lead to `Default_ISR`, which pushes a 0 all the same. -/
def Mismatched (e : Event) : Prop :=
  match e with
  | .fault v _ => v.toNat ∈ [8, 10, 11, 17]
  | _ => False

/-- These are all events of a processor for which the stub does not fit. -/
theorem stubFits_arrival_iff {e : Event} (h : e.Genuine) : StubFits (arrival e) ↔ ¬ Mismatched e := by
  have hdevice : ∀ n < 256, 32 ≤ n → (kernelGate n).entry.noec = true := by decide +kernel
  have hfault : ∀ n < 32, ((kernelGate n).entry.noec = !(n ∈ Event.errVectors : Bool)) ↔
      n ∉ [8, 10, 11, 17] := by decide +kernel
  cases e with
  | int v =>
      refine iff_of_true ?_ (fun h => h)
      by_cases hv : v.toNat = tSyscall
      · rw [arrival, if_neg fun hint => hint.2 hv, StubFits]
        exact hdevice v.toNat v.isLt (by rw [hv]; decide)
      · rw [arrival, if_pos ⟨rfl, hv⟩]
        exact gpflt_noec
  | irq v =>
      refine iff_of_true ?_ (fun h => h)
      rw [arrival, if_neg fun hint => Bool.false_ne_true hint.1, StubFits]
      exact hdevice v.toNat v.isLt h
  | fault v err =>
      have herr : err.isNone = !(decide (v.toNat ∈ Event.errVectors)) := by
        have hiff : err.isSome = true ↔ v.toNat ∈ Event.errVectors := h.2
        cases err <;> simp [← hiff]
      rw [arrival, if_neg fun hint => Bool.false_ne_true hint.1, StubFits]
      change (kernelGate v.toNat).entry.noec = err.isNone ↔ _
      rw [herr]
      exact hfault v.toNat h.1

theorem Mismatched.stub {e : Event} (h : Mismatched e) (he : e.Genuine) :
    ∃ err, e.err = some err ∧ (kernelGate e.vector.toNat).entry.noec = true ∧ arrival e = e := by
  have hnoec : ∀ n < 32, n ∈ [8, 10, 11, 17] →
      n ∈ Event.errVectors ∧ (kernelGate n).entry.noec = true := by decide +kernel
  cases e with
  | int v => exact h.elim
  | irq v => exact h.elim
  | fault v err =>
      obtain ⟨hmem, hstub⟩ := hnoec v.toNat he.1 h
      obtain ⟨code, rfl⟩ := Option.isSome_iff_exists.mp (he.2.mpr hmem)
      exact ⟨code, rfl, hstub, if_neg fun hint => Bool.false_ne_true hint.1⟩

/-! ## User programs -/

/-- The selectors that a user program can have in a data segment register: those of no segment, and
those of its two segments. -/
def userSels : List (BitVec 16) :=
  [0, 1, 2, 3, gdUt, gdUt ||| 1, gdUt ||| 2, gdUt ||| 3, gdUd, gdUd ||| 1, gdUd ||| 2, gdUd ||| 3]

/-- A user program. -/
structure UserProgram (a : KernelAddrs) (u : X86) : Prop where
  idt : u.idt = kernelIdt a
  cs : u.cs = gdUt ||| 3
  ss : u.ss = gdUd ||| 3
  ds : u.loadable u.ds = .ok ()
  es : u.loadable u.es = .ok ()
  /-- It is not in virtual-8086 mode. -/
  vm : u.eflags.getLsbD 17 = false

section Selectors

variable {a : KernelAddrs} {c : Nat} {s : X86} {sel : BitVec 16}

theorem gdt_kernelCode : (gdt 1).code = true ∧ (gdt 1).dpl = 0 ∧ (gdt 1).present = true ∧
    (gdt 1).flat = true := by decide +kernel

theorem gdt_kernelRing : (gdt 1).conforming = false ∧ (gdt 1).dpl = 0 := by decide +kernel

theorem gdt_kernelData : (gdt 2).readable = true ∧ (gdt 2).dpl = 0 ∧ (gdt 2).writable = true ∧
    (gdt 2).present = true ∧ (gdt 2).flat = true := by decide +kernel

theorem SetUp.descriptor (h : SetUp a c s) {i : Nat} (hi : i < 5) (hnull : Selector.isNull sel = false)
    (hti : sel.getLsbD 2 = false) (hindex : (sel >>> 3).toNat = i) :
    s.descriptor sel = some (gdt i) := by
  have hlt : (sel >>> 3).toNat < s.gdtLen := by
    rw [h.len, hindex, gdtSize, ncpuMax]
    omega
  have hhere : ¬ (Selector.isNull sel = true ∨ sel.getLsbD 2 = true) := by
    rw [hnull, hti]
    decide
  rw [X86.descriptor, if_neg hhere, if_pos hlt, hindex, h.segs i hi]

/-- They are no segment, or one for user programs. -/
theorem SetUp.userSel (h : SetUp a c s) (hsel : sel ∈ userSels) :
    Selector.isNull sel = true ∨ (Selector.isNull sel = false ∧
      ∃ d, s.descriptor sel = some d ∧ d.readable = true ∧ d.dpl = 3 ∧ d.present = true) := by
  have hsels : (userSels.all fun sel => Selector.isNull sel = true ∨ (Selector.isNull sel = false ∧
      sel.getLsbD 2 = false ∧ ((sel >>> 3).toNat = 3 ∨ (sel >>> 3).toNat = 4))) = true := by
    decide +kernel
  have hcases := of_decide_eq_true (List.all_eq_true.mp hsels sel hsel)
  rcases hcases with hnull | ⟨hnull, hti, h3 | h4⟩
  · exact Or.inl hnull
  · exact Or.inr ⟨hnull, _, h.descriptor (by omega) hnull hti h3, by decide +kernel,
      by decide +kernel, by decide +kernel⟩
  · exact Or.inr ⟨hnull, _, h.descriptor (by omega) hnull hti h4, by decide +kernel,
      by decide +kernel, by decide +kernel⟩

theorem SetUp.loadable_of_userSel (h : SetUp a c s) (hsel : sel ∈ userSels) :
    s.loadable sel = .ok () := by
  have htop : ∀ x : BitVec 2, x ≤ 3#2 := by decide
  rcases h.userSel hsel with hnull | ⟨hnull, d, hd, hreadable, hdpl, hpresent⟩
  · exact if_pos hnull
  · simp [X86.loadable, hnull, hd, hreadable, hdpl, hpresent, htop]

/-- `iret` leaves them alone. -/
theorem SetUp.outward_of_userSel (h : SetUp a c s) (hsel : sel ∈ userSels) (ring : BitVec 2) :
    s.outward ring sel = sel := by
  have htop : ∀ x : BitVec 2, x ≤ 3#2 := by decide
  rcases h.userSel hsel with hnull | ⟨hnull, d, hd, -, hdpl, -⟩
  · simp [X86.outward, X86.descriptor, hnull]
  · have hout : ¬ (d.dpl < ring ∧ ¬ d.conforming = true) := by
      rintro ⟨hlt, -⟩
      rw [hdpl] at hlt
      exact BitVec.not_lt.mpr (htop ring) hlt
    rw [X86.outward, hd]
    exact if_neg hout

/-- A user program cannot load any others. -/
theorem SetUp.userSel_of_loadable (h : SetUp a c s) (hcpl : s.cpl = 3)
    (hload : s.loadable sel = .ok ()) : sel ∈ userSels := by
  have hsels : ∀ t < 36, t < 4 ∨ 24 ≤ t ∧ t < 28 ∨ 32 ≤ t → BitVec.ofNat 16 t ∈ userSels := by
    decide +kernel
  suffices hrange : sel.toNat < 4 ∨ 24 ≤ sel.toNat ∧ sel.toNat < 28 ∨
      32 ≤ sel.toNat ∧ sel.toNat < 36 by
    have hsel := hsels sel.toNat (by omega) (by omega)
    rwa [BitVec.ofNat_toNat, BitVec.setWidth_eq] at hsel
  have hlt := sel.isLt
  rw [X86.loadable] at hload
  split at hload
  · rename_i hnull
    have hzero : (sel.extractLsb' 2 14).toNat = 0 := by
      rw [of_decide_eq_true hnull]
      rfl
    rw [BitVec.extractLsb'_toNat, Nat.shiftRight_eq_div_pow] at hzero
    omega
  · rename_i hnull
    -- a descriptor of the table, by its place
    cases hd : s.descriptor sel with
    | none =>
        rw [hd] at hload
        cases hload
    | some d =>
        rw [hd] at hload
        rw [X86.descriptor] at hd
        split at hd
        · cases hd
        · rename_i hplace
          split at hd
          · rename_i hindex
            have hti : sel.getLsbD 2 = false := Bool.eq_false_iff.mpr fun hti => hplace (Or.inr hti)
            rw [BitVec.getLsbD, Nat.testBit_eq_decide_div_mod_eq, decide_eq_false_iff_not] at hti
            have hplace : (sel >>> 3).toNat = sel.toNat / 8 := by
              rw [BitVec.toNat_ushiftRight, Nat.shiftRight_eq_div_pow]
            rw [hplace, Option.some.injEq] at hd
            have hok : ¬ (¬ d.readable = true ∨ (¬ d.conforming = true ∧
                (d.dpl < Selector.rpl sel ∨ d.dpl < s.cpl))) := by
              intro hno
              dsimp only at hload
              rw [if_pos hno] at hload
              cases hload
            rw [hcpl] at hok
            have hread : d.readable = true := not_not.mp fun hno => hok (Or.inl hno)
            by_cases h5 : sel.toNat / 8 < 5
            · have hsegs : ∀ i < 5, (gdt i).readable = true → (gdt i).conforming = false ∧
                  ((gdt i).dpl < 3 ∨ i = 3 ∨ i = 4) := by decide +kernel
              rw [h.segs _ h5] at hd
              rw [← hd] at hread hok
              obtain ⟨hconf, hdpl | hplace⟩ := hsegs _ h5 hread
              · exact absurd (Or.inr ⟨by simp [hconf], Or.inr hdpl⟩) hok
              · omega
            · have happ := h.system (sel.toNat / 8) (by omega)
              rw [hd] at happ
              rw [Desc.readable, happ] at hread
              cases hread
          · cases hd

end Selectors

/-! ## The way in -/

/-- The words that a stub pushes. -/
def Stub.words (e : Stub) : List (BitVec 32) :=
  (if e.noec then [0] else []) ++ [BitVec.ofNat 32 e.num]

section Entry

variable {a : KernelAddrs} {c : Nat} {u s : X86} {e : Event} {ret : BitVec 32}

theorem execAll_save (s : X86) :
    s.execAll [.pushSeg .ds, .pushSeg .es, .pushal] = .ok (s.pushes [s.selWord s.ds, s.selWord s.es,
      s.eax, s.ecx, s.edx, s.ebx, s.esp - 8, s.ebp, s.esi, s.edi]) := by
  have hesp : s.esp - BitVec.ofNat 32 (4 * 1) - BitVec.ofNat 32 (4 * 1) = s.esp - 8 := by bv_omega
  have hpushes : ((s.pushes [s.selWord s.ds]).pushes [s.selWord s.es]).pushes
      [s.eax, s.ecx, s.edx, s.ebx, s.esp - 8, s.ebp, s.esi, s.edi] =
      s.pushes [s.selWord s.ds, s.selWord s.es, s.eax, s.ecx, s.edx, s.ebx, s.esp - 8, s.ebp, s.esi,
        s.edi] := by
    rw [X86.pushes_pushes, X86.pushes_pushes]
    rfl
  rw [← hpushes, ← hesp]
  rfl

/-- A selector in `ax` and in the data segments. -/
def withData (s : X86) (eax : BitVec 32) (sel : BitVec 16) : X86 :=
  { s with eax := eax, ds := sel, es := sel, fs := sel, gs := sel }

@[simp] theorem withData_tables (s : X86) (eax : BitVec 32) (sel : BitVec 16) :
    (withData s eax sel).tables = s.tables := rfl

@[simp] theorem withData_cs (s : X86) (eax : BitVec 32) (sel : BitVec 16) :
    (withData s eax sel).cs = s.cs := rfl

@[simp] theorem withData_eflags (s : X86) (eax : BitVec 32) (sel : BitVec 16) :
    (withData s eax sel).eflags = s.eflags := rfl

/-- The data segments of the kernel. -/
def kernelSegs (s : X86) : X86 := withData s (s.eax.extractLsb' 16 16 ++ gdKd) gdKd

theorem execAll_segs (hload : s.loadable gdKd = .ok ()) :
    s.execAll [.movAx gdKd, .movSeg .ds, .movSeg .es, .movSeg .fs, .movSeg .gs] =
      .ok (kernelSegs s) := by
  have hax : (s.eax.extractLsb' 16 16 ++ gdKd).setWidth 16 = gdKd := by
    rw [BitVec.setWidth_eq_extractLsb' (by omega)]
    exact BitVec.extractLsb'_append_eq_right
  have hseg : ∀ (t : X86) (r : X86.DataSeg), t.loadable gdKd = s.loadable gdKd →
      t.eax = s.eax.extractLsb' 16 16 ++ gdKd →
      t.exec (.movSeg r) = .ok (t.setDataSeg r gdKd) := by
    intro t r ht heax
    have hsel : t.eax.setWidth 16 = gdKd := by rw [heax, hax]
    rw [X86.exec_movSeg r (by rw [hsel, ht, hload]), hsel]
  rw [X86.execAll_cons, X86.exec, ok_bind, X86.execAll_cons, hseg, ok_bind, X86.execAll_cons, hseg,
    ok_bind, X86.execAll_cons, hseg, ok_bind, X86.execAll_cons, hseg, ok_bind]
  all_goals rfl

/-- The state in which `default_trap_handler` starts. -/
def handlerState (s : X86) (stub : Stub) (ret : BitVec 32) : X86 :=
  let esp := s.esp - BitVec.ofNat 32 (4 * stub.words.length)
  kernelSegs (s.pushes (stub.words ++ [s.selWord s.ds, s.selWord s.es, s.eax, s.ecx, s.edx, s.ebx,
    esp - 8, s.ebp, s.esi, s.edi, esp - 40, ret]))

theorem execAll_code (stub : Stub) (hload : s.loadable gdKd = .ok ()) :
    s.execAll (stub.code ++ alltrapsCode ret) = .ok (handlerState s stub ret) := by
  have hstub : s.execAll stub.code = .ok (s.pushes stub.words) := by
    rw [Stub.code, Stub.words]
    cases stub.noec with
    | false => rfl
    | true => exact congrArg Except.ok (X86.pushes_pushes s [0] [BitVec.ofNat 32 stub.num])
  have hcode : alltrapsCode ret = [.pushSeg .ds, .pushSeg .es, .pushal] ++
      ([.movAx gdKd, .movSeg .ds, .movSeg .es, .movSeg .fs, .movSeg .gs] ++ [.pushEsp, .call ret]) :=
    rfl
  rw [hcode, X86.execAll_append, hstub, ok_bind, X86.execAll_append, execAll_save, ok_bind,
    X86.execAll_append, execAll_segs, ok_bind]
  · have hcall : ∀ t : X86, (kernelSegs t).execAll [.pushEsp, .call ret] =
        .ok (kernelSegs ((t.pushes [t.esp]).pushes [ret])) := fun _ => rfl
    rw [hcall, handlerState, X86.pushes_pushes, X86.pushes_pushes, X86.pushes_pushes]
    rfl
  · exact hload

theorem SetUp.gateCode_eq (h : SetUp a c u) (g : Gatedesc) :
    u.gateCode (g.pack a.entry) = .ok (gdt 1) := by
  have hd : u.descriptor gdKt = some (gdt 1) :=
    h.descriptor (by omega) (by decide) (by decide) (by decide)
  obtain ⟨hcode, hdpl, hpresent, hflat⟩ := gdt_kernelCode
  rw [X86.gateCode, Gatedesc.pack_selector, hd]
  simp [hcode, hdpl, hpresent, hflat]

/-- The stack of CPU `c`, from its TSS. -/
theorem SetUp.innerStack_eq (h : SetUp a c u) : u.innerStack 0 = .ok (gdKd, a.kstackTop c) := by
  have hlimit : ¬ u.trLimit < 8 * (0 : BitVec 2).toNat + 9 := by
    rw [h.limit]
    decide
  have hd : u.descriptor gdKd = some (gdt 2) :=
    h.descriptor (by omega) (by decide) (by decide) (by decide)
  obtain ⟨-, hdpl, hwritable, hpresent, hflat⟩ := gdt_kernelData
  have hss : u.mem.read16 (a.cpuTss c + 4#32 + 4) = gdKd := by
    have hlow : u.mem (a.cpuTss c + 8#32) = 0x10 := (h.tss 8 (by decide)).trans rfl
    have hhigh : u.mem (a.cpuTss c + 8#32 + 1#32) = 0 := by
      rw [BitVec.add_assoc]
      exact (h.tss 9 (by decide)).trans rfl
    rw [BitVec.add_assoc]
    change u.mem (a.cpuTss c + 8#32 + 1#32) ++ u.mem (a.cpuTss c + 8#32) = gdKd
    rw [hlow, hhigh]
    rfl
  have hesp : u.mem.read32 (a.cpuTss c + 4#32) = a.kstackTop c := by
    rw [← read32_initTss_esp0 (m := fun _ => 0)]
    refine Ram.read32_congr fun i hi => ?_
    rw [BitVec.add_assoc, ← BitVec.ofNat_add, h.tss _ (by rw [sizeofTss]; omega),
      initTss_byte (by rw [sizeofTss]; omega)]
  have hat : u.trBase + BitVec.ofNat 32 (8 * (0 : BitVec 2).toNat + 4) = a.cpuTss c + 4#32 := by
    rw [h.base]
    rfl
  have hok : ¬ (Selector.rpl gdKd ≠ 0 ∨ (gdt 2).dpl ≠ 0 ∨ ¬ (gdt 2).writable = true) := by
    rw [hdpl, hwritable]
    decide
  rw [X86.innerStack, if_neg hlimit]
  simp only [hat, hss, hd, hesp, if_neg hok, hpresent, hflat, not_true_eq_false, if_false]

theorem SetUp.loadable_gdKd (h : SetUp a c s) (hcpl : s.cpl = 0) : s.loadable gdKd = .ok () := by
  have hd : s.descriptor gdKd = some (gdt 2) :=
    h.descriptor (by omega) (by decide) (by decide) (by decide)
  have hrpl : Selector.isNull gdKd = false ∧ Selector.rpl gdKd = 0 := by decide
  obtain ⟨hreadable, hdpl, -, hpresent, -⟩ := gdt_kernelData
  simp [X86.loadable, hd, hreadable, hdpl, hpresent, hrpl, hcpl]

/-- The state behind a gate of the kernel. -/
def behindGate (a : KernelAddrs) (c : Nat) (u : X86) (e : Event) : X86 :=
  X86.through ((u.switchStack gdKd (a.kstackTop c)).pushes ([u.selWord u.ss, u.esp] ++
    ([e.flags u.eflags, u.selWord u.cs, u.eip] ++ e.err.toList)))
    ((kernelGate e.vector.toNat).pack a.entry) (gdt 1)

theorem UserProgram.cpl (hu : UserProgram a u) : u.cpl = 3 := by
  rw [X86.cpl, hu.cs]
  decide

theorem SetUp.interrupt_eq (h : SetUp a c u) (hu : UserProgram a u)
    (hsoft : e.soft = true → e.vector.toNat = tSyscall) :
    u.interrupt e = .ok (behindGate a c u e) := by
  have hidt : u.idt e.vector = (kernelGate e.vector.toNat).pack a.entry := by
    rw [hu.idt, kernelIdt_eq]
  have hkernel : (gdt 1).conforming = false ∧ (gdt 1).dpl = 0 := gdt_kernelRing
  have hgate : (u.idt e.vector).intrGate ∨ (u.idt e.vector).trapGate := by
    rw [hidt, Gatedesc.pack_intrGate, Gatedesc.pack_trapGate]
    cases (kernelGate e.vector.toNat).isTrap <;> simp
  have hdpl : e.soft = true → ¬ (u.idt e.vector).dpl < u.cpl := by
    intro he
    rw [hidt, Gatedesc.pack_dpl, kernelGate_dpl, if_pos (hsoft he), hu.cpl]
    decide
  have hpresent : (u.idt e.vector).present = true := by rw [hidt, Gatedesc.pack_present]
  have hcode : u.gateCode (u.idt e.vector) = .ok (gdt 1) := by rw [hidt, h.gateCode_eq]
  have hring : (gdt 1).dpl ≠ u.cpl := by
    rw [hkernel.2, hu.cpl]
    decide
  have hstack : u.innerStack (gdt 1).dpl = .ok (gdKd, a.kstackTop c) := by
    rw [hkernel.2, h.innerStack_eq]
  rw [X86.interrupt_inner hgate hdpl hpresent hcode hkernel.1 hring hstack, behindGate, hidt]

/-- Any other `int` is a general protection fault. -/
theorem SetUp.take_eq (h : SetUp a c u) (hu : UserProgram a u) (e : Event) :
    u.take e = .ok (behindGate a c u (arrival e)) := by
  rw [X86.take]
  by_cases hint : e.soft = true ∧ e.vector.toNat ≠ tSyscall
  · have hdpl : (u.idt e.vector).dpl < u.cpl := by
      rw [hu.idt, kernelIdt_eq, Gatedesc.pack_dpl, kernelGate_dpl, if_neg hint.2, hu.cpl]
      decide
    rw [X86.interrupt_refused hint.1 hdpl, arrival, if_pos hint]
    exact h.interrupt_eq hu fun hsoft => by cases hsoft
  · rw [arrival, if_neg hint, h.interrupt_eq hu fun hsoft => not_not.mp fun hne => hint ⟨hsoft, hne⟩]

/-- The words of a frame, and the argument and the return address of `default_trap_handler`: the five
that the processor pushes, an error code and a number, and those of `_alltraps`. -/
def frameWords (ss esp eflags cs eip err num : BitVec 32) (u : X86) (top ret : BitVec 32) :
    List (BitVec 32) :=
  [ss, esp, eflags, cs, eip, err, num, u.selWord u.ds, u.selWord u.es, u.eax, u.ecx, u.edx, u.ebx,
    top - 36, u.ebp, u.esi, u.edi, top - 68, ret]

/-- The state in which `default_trap_handler` starts after an interrupt of `u`. -/
def handlerOf (a : KernelAddrs) (c : Nat) (u : X86) (e : Event) (ret : BitVec 32) : X86 :=
  handlerState (behindGate a c u e) (kernelGate e.vector.toNat).entry ret

theorem behindGate_eip (a : KernelAddrs) (c : Nat) (u : X86) (e : Event) :
    (behindGate a c u e).eip = a.entry (kernelGate e.vector.toNat).entry :=
  Gatedesc.pack_offset _ _

theorem behindGate_cs (a : KernelAddrs) (c : Nat) (u : X86) (e : Event) :
    (behindGate a c u e).cs = gdKt := by
  have hring : (gdt 1).conforming = false ∧ (gdt 1).dpl = 0 := gdt_kernelRing
  rw [behindGate, X86.through, X86.jump]
  dsimp only
  rw [Gatedesc.pack_selector, hring.1, hring.2, if_neg Bool.false_ne_true]
  decide

theorem behindGate_tables (a : KernelAddrs) (c : Nat) (u : X86) (e : Event) :
    (behindGate a c u e).tables = u.tables := by
  rw [behindGate, X86.through, X86.jump_tables, X86.pushes, X86.setStack_tables,
    X86.switchStack_tables]

theorem enterKernel_eq (hentry : ∀ e ∈ Stub.all, ∀ e' ∈ Stub.all, a.entry e = a.entry e' → e = e')
    (h : SetUp a c u) (hu : UserProgram a u) (e : Event) (ret : BitVec 32) :
    enterKernel a ret u e = .ok (handlerOf a c u (arrival e) ret) := by
  have hmem := kernelGate_entry (arrival e).vector.toNat (arrival e).vector.isLt
  have hstub : a.stubAt (behindGate a c u (arrival e)).eip =
      some (kernelGate (arrival e).vector.toNat).entry := by
    rw [behindGate_eip, KernelAddrs.stubAt]
    cases hfind : Stub.all.find? fun e' => a.entry e' =
        a.entry (kernelGate (arrival e).vector.toNat).entry with
    | none => simpa using List.find?_eq_none.mp hfind _ hmem
    | some stub =>
        have haddr := List.find?_some hfind
        rw [hentry stub (List.mem_of_find?_eq_some hfind) _ hmem (of_decide_eq_true haddr)]
  have hload : (behindGate a c u (arrival e)).loadable gdKd = .ok () := by
    have hring : SetUp a c { u with cs := gdKt } := ⟨h.len, h.segs, h.system, h.base, h.limit, h.tss⟩
    have hsame := X86.loadable_congr (s := { u with cs := gdKt })
      (behindGate_tables a c u (arrival e)) (behindGate_cs a c u (arrival e)) gdKd
    have hcpl : X86.cpl { u with cs := gdKt } = 0 := by
      change Selector.rpl gdKt = 0
      decide
    exact hsame.trans (hring.loadable_gdKd hcpl)
  rw [enterKernel, h.take_eq hu, ok_bind, hstub]
  exact execAll_code _ hload

/-- What the processor, the stub and `_alltraps` have pushed: `front` are the words of the first
two. -/
theorem handlerOf_pushed (a : KernelAddrs) (c : Nat) (u : X86) (e : Event) (ret : BitVec 32)
    {front : List (BitVec 32)} (hfront : front = [u.selWord u.ss, u.esp] ++
      ([e.flags u.eflags, u.selWord u.cs, u.eip] ++ e.err.toList) ++
        (kernelGate e.vector.toNat).entry.words) {top : BitVec 32}
    (htop : top - 28 = a.kstackTop c - BitVec.ofNat 32 (4 * front.length)) :
    (handlerOf a c u e ret).mem = u.mem.pushAll (a.kstackTop c) (front ++ [u.selWord u.ds,
        u.selWord u.es, u.eax, u.ecx, u.edx, u.ebx, top - 36, u.ebp, u.esi, u.edi, top - 68, ret]) ∧
      (handlerOf a c u e ret).esp = top - 76 := by
  generalize hstub : (kernelGate e.vector.toNat).entry = stub at hfront
  generalize hback : [u.selWord u.ss, u.esp] ++ ([e.flags u.eflags, u.selWord u.cs, u.eip] ++
    e.err.toList) = back at hfront
  subst hfront
  rw [List.length_append] at htop
  have hesp : a.kstackTop c - BitVec.ofNat 32 (4 * back.length) -
      BitVec.ofNat 32 (4 * stub.words.length) = top - 28 := by
    bv_omega
  have h36 : top - 28 - 8 = top - 36 := by bv_omega
  have h68 : top - 28 - 40 = top - 68 := by bv_omega
  simp only [handlerOf, hstub, handlerState, kernelSegs, withData, X86.pushes, X86.setStack,
    behindGate, X86.through, X86.jump, X86.switchStack, hback, hesp, h36, h68]
  constructor
  · rw [← Ram.pushAll_append, ← List.append_assoc]
    simp only [X86.selWord]
  · rw [List.length_append]
    simp only [List.length_cons, List.length_nil]
    bv_omega

/-- What was pushed is a `struct Trapframe`, field by field. -/
theorem trapframeAt_pushed (ss esp eflags cs eip err num : BitVec 32) (u : X86) (top ret : BitVec 32)
    (m : Ram) :
    trapframeAt (m.pushAll top (frameWords ss esp eflags cs eip err num u top ret)) (top - 68) =
      { regEdi := u.edi, regEsi := u.esi, regEbp := u.ebp, regOesp := top - 36, regEbx := u.ebx
        regEdx := u.edx, regEcx := u.ecx, regEax := u.eax, tfEs := u.es, tfDs := u.ds
        tfTrapno := num, tfErr := err, tfEip := eip, tfCs := cs.setWidth 16, tfEflags := eflags
        tfEsp := esp, tfSs := ss.setWidth 16 } := by
  generalize hwords : frameWords ss esp eflags cs eip err num u top ret = words
  have hlen : words.length = 19 := by rw [← hwords]; rfl
  have hread : ∀ k < 17, (m.pushAll top words).read32 (top - 68 + BitVec.ofNat 32 (4 * k)) =
      words.getD (16 - k) 0 := by
    intro k hk
    have haddr : top - 68 + BitVec.ofNat 32 (4 * k) = top - BitVec.ofNat 32 (4 * (16 - k + 1)) := by
      bv_omega
    rw [haddr, Ram.read32_pushAll (by omega) (by omega), List.getD_eq_getElem]
  have hread16 : ∀ k < 17, (m.pushAll top words).read16 (top - 68 + BitVec.ofNat 32 (4 * k)) =
      (words.getD (16 - k) 0).setWidth 16 := by
    intro k hk
    rw [Ram.read16_eq, hread k hk]
  have hfirst := hread 0 (by omega)
  rw [Nat.mul_zero, BitVec.add_zero] at hfirst
  subst hwords
  simp only [trapframeAt, Trapframe.mk.injEq]
  exact ⟨hfirst, hread 1 (by omega), hread 2 (by omega), hread 3 (by omega), hread 4 (by omega),
    hread 5 (by omega), hread 6 (by omega), hread 7 (by omega),
    (hread16 8 (by omega)).trans (u.setWidth_selWord u.es),
    (hread16 9 (by omega)).trans (u.setWidth_selWord u.ds), hread 10 (by omega), hread 11 (by omega), hread 12 (by omega), hread16 13 (by omega),
    hread 14 (by omega), hread 15 (by omega), hread16 16 (by omega)⟩

end Entry

/-! ## The way back -/

/-- A processor that leaves the kernel with the registers of a frame. -/
def popped (k : X86) (f : Trapframe) : X86 :=
  { k with
    edi := f.regEdi, esi := f.regEsi, ebp := f.regEbp, ebx := f.regEbx, edx := f.regEdx
    ecx := f.regEcx, eax := f.regEax, esp := f.tfEsp, eip := f.tfEip, eflags := f.tfEflags
    cs := f.tfCs, ss := f.tfSs, ds := f.tfDs, es := f.tfEs, fs := 0, gs := 0 }

/-- A processor in the kernel, as `_alltraps` leaves it: in ring 0, out of any nested task, and with
the selector of the kernel's data in `fs` and `gs`. -/
structure KernelCode (k : X86) : Prop where
  cpl : k.cpl = 0
  nt : k.eflags.getLsbD 14 = false
  fs : k.fs = gdKd
  gs : k.gs = gdKd

/-- A frame of a user program. -/
structure UserFrame (f : Trapframe) : Prop where
  cs : f.tfCs = gdUt ||| 3
  ss : f.tfSs = gdUd ||| 3
  ds : f.tfDs ∈ userSels
  es : f.tfEs ∈ userSels
  vm : f.tfEflags.getLsbD 17 = false

section Exit

variable {a : KernelAddrs} {c : Nat} {k : X86} {f : Trapframe} {p : BitVec 32}

/-- The registers that `popal` pops. -/
def withRegs (k : X86) (f : Trapframe) : X86 :=
  { k with
    edi := f.regEdi, esi := f.regEsi, ebp := f.regEbp, ebx := f.regEbx, edx := f.regEdx
    ecx := f.regEcx, eax := f.regEax }

theorem exec_popal (hf : trapframeAt k.mem p = f) :
    X86.exec { k with esp := p } .popal = .ok { withRegs k f with esp := p + 32 } := by
  rw [← hf, X86.exec]
  simp only [X86.stackAt, trapframeAt, withRegs, Nat.mul_zero, BitVec.add_zero]

theorem SetUp.iretCode_eq (h : SetUp a c k) (hcpl : k.cpl = 0) :
    k.iretCode (gdUt ||| 3) = .ok () := by
  have hd : k.descriptor (gdUt ||| 3) = some (gdt 3) :=
    h.descriptor (by omega) (by decide) (by decide) (by decide)
  have hcode : (gdt 3).code = true ∧ (gdt 3).conforming = false ∧ (gdt 3).dpl = 3 ∧
      (gdt 3).present = true ∧ (gdt 3).flat = true := by decide +kernel
  have hrpl : Selector.rpl (gdUt ||| 3) = 3 := by decide
  obtain ⟨hcode, hconf, hdpl, hpresent, hflat⟩ := hcode
  rw [X86.iretCode, hd, hrpl, hcpl]
  simp [hcode, hconf, hdpl, hpresent, hflat]

theorem SetUp.iretStack_eq (h : SetUp a c k) : k.iretStack 3 (gdUd ||| 3) = .ok () := by
  have hd : k.descriptor (gdUd ||| 3) = some (gdt 4) :=
    h.descriptor (by omega) (by decide) (by decide) (by decide)
  have hdata : (gdt 4).writable = true ∧ (gdt 4).dpl = 3 ∧ (gdt 4).present = true ∧
      (gdt 4).flat = true := by decide +kernel
  have hrpl : Selector.rpl (gdUd ||| 3) = 3 := by decide
  obtain ⟨hwritable, hdpl, hpresent, hflat⟩ := hdata
  rw [X86.iretStack, hd, hrpl]
  simp [hwritable, hdpl, hpresent, hflat]

/-- The selector of the kernel's data does not leave the kernel. -/
theorem SetUp.outward_gdKd (h : SetUp a c k) : k.outward 3 gdKd = 0 := by
  have hd : k.descriptor gdKd = some (gdt 2) :=
    h.descriptor (by omega) (by decide) (by decide) (by decide)
  have hdata : (gdt 2).dpl = 0 ∧ (gdt 2).conforming = false := by decide +kernel
  simp [X86.outward, hd, hdata.1, hdata.2]

/-- What `env_pop_tf` has popped before `iret`. -/
def withSegs (k : X86) (f : Trapframe) : X86 := { withRegs k f with ds := f.tfDs, es := f.tfEs }

theorem execAll_pops (h : SetUp a c k) (hf : trapframeAt k.mem p = f) (hes : f.tfEs ∈ userSels)
    (hds : f.tfDs ∈ userSels) :
    k.execAll [.movEsp p, .popal, .popSeg .es, .popSeg .ds, .addEsp 8] =
      .ok { withSegs k f with esp := p + 48 } := by
  have hes' : k.mem.read16 (p + 32) = f.tfEs := congrArg Trapframe.tfEs hf
  have hds' : k.mem.read16 (p + 36) = f.tfDs := congrArg Trapframe.tfDs hf
  have hpopEs : X86.exec { withRegs k f with esp := p + 32 } (.popSeg .es) =
      .ok { withRegs k f with es := f.tfEs, esp := p + 36 } := by
    have hset : SetUp a c { withRegs k f with esp := p + 32 } :=
      ⟨h.len, h.segs, h.system, h.base, h.limit, h.tss⟩
    have hadd : p + 32 + 4 = p + 36 := by bv_omega
    rw [X86.exec_popSeg (s := { withRegs k f with esp := p + 32 }) .es hes'
      (hset.loadable_of_userSel hes), hadd]
    rfl
  have hpopDs : X86.exec { withRegs k f with es := f.tfEs, esp := p + 36 } (.popSeg .ds) =
      .ok { withSegs k f with esp := p + 40 } := by
    have hset : SetUp a c { withRegs k f with es := f.tfEs, esp := p + 36 } :=
      ⟨h.len, h.segs, h.system, h.base, h.limit, h.tss⟩
    have hadd : p + 36 + 4 = p + 40 := by bv_omega
    rw [X86.exec_popSeg (s := { withRegs k f with es := f.tfEs, esp := p + 36 }) .ds hds'
      (hset.loadable_of_userSel hds), hadd]
    rfl
  have hadd : p + 40 + 8 = p + 48 := by bv_omega
  rw [X86.execAll_cons, X86.exec, ok_bind, X86.execAll_cons, exec_popal hf, ok_bind,
    X86.execAll_cons, hpopEs, ok_bind, X86.execAll_cons, hpopDs, ok_bind, X86.execAll_cons,
    X86.exec, ok_bind, X86.execAll_nil, hadd]

/-- **`env_pop_tf` gives a program its registers.** -/
theorem envPopTf_eq (h : SetUp a c k) (hk : KernelCode k) (hf : trapframeAt k.mem p = f)
    (huser : UserFrame f) : envPopTf k p = .ok (popped k f) := by
  have hcode : envPopTfCode p =
      [.movEsp p, .popal, .popSeg .es, .popSeg .ds, .addEsp 8] ++ [.iret] := rfl
  rw [envPopTf, hcode, X86.execAll_append, execAll_pops h hf huser.es huser.ds, ok_bind,
    X86.execAll_cons, X86.exec]
  have hset : SetUp a c { withSegs k f with esp := p + 48 } :=
    ⟨h.len, h.segs, h.system, h.base, h.limit, h.tss⟩
  generalize ht : ({ withSegs k f with esp := p + 48 } : X86) = t at *
  have hword : ∀ i, t.stackAt i = k.mem.read32 (p + 48 + BitVec.ofNat 32 (4 * i)) := by
    intro i
    rw [← ht]
    rfl
  have haddr : ∀ i, p + 48 + BitVec.ofNat 32 (4 * i) = p + BitVec.ofNat 32 (48 + 4 * i) := by
    intro i
    bv_omega
  have heip : t.stackAt 0 = f.tfEip := by
    rw [hword, haddr, ← hf]
    rfl
  have hcs : (t.stackAt 1).setWidth 16 = gdUt ||| 3 := by
    rw [hword, haddr, ← Ram.read16_eq, ← huser.cs, ← hf]
    rfl
  have hflags : t.stackAt 2 = f.tfEflags := by
    rw [hword, haddr, ← hf]
    rfl
  have hesp : t.stackAt 3 = f.tfEsp := by
    rw [hword, haddr, ← hf]
    rfl
  have hss : (t.stackAt 4).setWidth 16 = gdUd ||| 3 := by
    rw [hword, haddr, ← Ram.read16_eq, ← huser.ss, ← hf]
    rfl
  have hcpl : t.cpl = 0 := by
    rw [← ht]
    exact hk.cpl
  have hring : Selector.rpl (gdUt ||| 3) = 3 := by decide
  have hiret := X86.iret_outer hcpl (by rw [← ht]; exact hk.nt) (by rw [hflags]; exact huser.vm) hcs
    (hset.iretCode_eq hcpl) (by rw [hring, hcpl]; decide) hss
    (by rw [hring]; exact hset.iretStack_eq)
  have hds : t.outward 3 t.ds = f.tfDs := by
    rw [show t.ds = f.tfDs by rw [← ht]; rfl]
    exact hset.outward_of_userSel huser.ds 3
  have hes : t.outward 3 t.es = f.tfEs := by
    rw [show t.es = f.tfEs by rw [← ht]; rfl]
    exact hset.outward_of_userSel huser.es 3
  have hfs : t.outward 3 t.fs = 0 := by
    rw [show t.fs = gdKd by rw [← ht]; exact hk.fs]
    exact hset.outward_gdKd
  have hgs : t.outward 3 t.gs = 0 := by
    rw [show t.gs = gdKd by rw [← ht]; exact hk.gs]
    exact hset.outward_gdKd
  rw [hiret, ok_bind, X86.execAll_nil, hring, heip, hflags, hesp, hds, hes, hfs, hgs, ← huser.cs,
    ← huser.ss, ← ht]
  rfl

end Exit

/-! ## There and back -/

/-- The kernel has the frame of the program `u` at the end of the stack of CPU `c`, and nothing else
has changed. -/
structure Saved (a : KernelAddrs) (c : Nat) (u : X86) (e : Event) (s : X86) : Prop where
  /-- The argument of `default_trap_handler`. -/
  tf : s.mem.read32 (s.esp + 4) = a.kstackTop c - 68
  frame : trapframeAt s.mem (a.kstackTop c - 68) =
    savedFrame u e (kernelGate e.vector.toNat).entry (a.kstackTop c)
  rest : ∀ x, 76 ≤ (a.kstackTop c - 1 - x).toNat → s.mem x = u.mem x
  tables : s.tables = u.tables
  kernel : KernelCode s
  /-- Interrupts are on if they were, behind a trap gate. -/
  ints : s.eflags.getLsbD 9 = (u.eflags.getLsbD 9 && (kernelGate e.vector.toNat).isTrap)

/-- The frame of a fault whose stub has pushed a 0 below the error code `err`, when the kernel stack
ends at `top`: every word is taken for the field next to its own. -/
def skewedFrame (u : X86) (e : Event) (err : BitVec 32) (stub : Stub) (top : BitVec 32) :
    Trapframe :=
  { savedFrame u e stub (top - 4) with
    tfErr := 0, tfEip := err, tfCs := u.eip.setWidth 16, tfEflags := u.selWord u.cs
    tfEsp := e.flags u.eflags, tfSs := u.esp.setWidth 16 }

/-- The kernel has such a frame at the end of the stack of CPU `c`. -/
structure Skewed (a : KernelAddrs) (c : Nat) (u : X86) (e : Event) (err : BitVec 32) (s : X86) :
    Prop where
  tf : s.mem.read32 (s.esp + 4) = a.kstackTop c - 72
  frame : trapframeAt s.mem (a.kstackTop c - 72) =
    skewedFrame u e err (kernelGate e.vector.toNat).entry (a.kstackTop c)
  rest : ∀ x, 80 ≤ (a.kstackTop c - 1 - x).toNat → s.mem x = u.mem x
  tables : s.tables = u.tables
  kernel : KernelCode s

section Saved

variable {a : KernelAddrs} {c : Nat} {u : X86} {e : Event}

section Handler

variable (a : KernelAddrs) (c : Nat) (u : X86) (e : Event) (ret : BitVec 32)

theorem handlerOf_eflags :
    (handlerOf a c u e ret).eflags = u.eflags &&&
      if (kernelGate e.vector.toNat).isTrap then 0xFFFCBEFF else 0xFFFCBCFF := by
  have hflags : (handlerOf a c u e ret).eflags =
      X86.gateFlags ((kernelGate e.vector.toNat).pack a.entry) u.eflags := by
    rw [handlerOf, handlerState, kernelSegs, withData_eflags, X86.pushes, X86.setStack_eflags,
      behindGate, X86.through, X86.jump_eflags, X86.pushes, X86.setStack_eflags,
      X86.switchStack_eflags]
  rw [hflags, X86.gateFlags, Gatedesc.pack_intrGate]
  cases (kernelGate e.vector.toNat).isTrap <;> rfl

theorem handlerOf_tables : (handlerOf a c u e ret).tables = u.tables := by
  rw [handlerOf, handlerState, kernelSegs, withData_tables, X86.pushes, X86.setStack_tables,
    behindGate_tables]

theorem kernelCode_handlerOf : KernelCode (handlerOf a c u e ret) := by
  refine ⟨?_, ?_, ?_, ?_⟩
  · have hcs : (handlerOf a c u e ret).cs = gdKt := by
      rw [handlerOf, handlerState, kernelSegs, withData_cs, X86.pushes, X86.setStack_cs,
        behindGate_cs]
    rw [X86.cpl, hcs]
    decide
  · rw [handlerOf_eflags, BitVec.getLsbD_and]
    cases (kernelGate e.vector.toNat).isTrap <;> simp
  · simp only [handlerOf, handlerState, kernelSegs, withData]
  · simp only [handlerOf, handlerState, kernelSegs, withData]

end Handler

/-- Where the frame is, for a handler that was called with the words of a frame below `top`. -/
theorem read_frameWords {s : X86} {m : Ram} {top ss esp eflags cs eip err num ret : BitVec 32}
    (hmem : s.mem = m.pushAll top (frameWords ss esp eflags cs eip err num u top ret))
    (hesp : s.esp = top - 76) :
    s.mem.read32 (s.esp + 4) = top - 68 ∧ ∀ x, 76 ≤ (top - 1 - x).toNat → s.mem x = m x := by
  have hlen : (frameWords ss esp eflags cs eip err num u top ret).length = 19 := rfl
  constructor
  · have haddr : top - 76 + 4 = top - BitVec.ofNat 32 (4 * (17 + 1)) := by bv_omega
    rw [hmem, hesp, haddr, Ram.read32_pushAll (by omega) (by omega)]
    rfl
  · intro x hx
    rw [hmem, Ram.pushAll_of_le (by omega) (by omega)]

theorem saved_handlerOf (hfits : StubFits e) (ret : BitVec 32) :
    Saved a c u e (handlerOf a c u e ret) := by
  have hfront : [u.selWord u.ss, u.esp, e.flags u.eflags, u.selWord u.cs, u.eip, e.err.getD 0,
      BitVec.ofNat 32 (kernelGate e.vector.toNat).entry.num] = [u.selWord u.ss, u.esp] ++
        ([e.flags u.eflags, u.selWord u.cs, u.eip] ++ e.err.toList) ++
          (kernelGate e.vector.toNat).entry.words := by
    have hnoec : (kernelGate e.vector.toNat).entry.noec = e.err.isNone := hfits
    rw [Stub.words, hnoec]
    cases e.err with
    | none => rfl
    | some err => rfl
  have htop : a.kstackTop c - 28 = a.kstackTop c - BitVec.ofNat 32 (4 * 7) := rfl
  obtain ⟨hmem, hesp⟩ := handlerOf_pushed a c u e ret hfront htop
  obtain ⟨htf, hrest⟩ := read_frameWords hmem hesp
  refine ⟨htf, ?_, hrest, handlerOf_tables a c u e ret, kernelCode_handlerOf a c u e ret, ?_⟩
  · have hframe := trapframeAt_pushed (u.selWord u.ss) u.esp (e.flags u.eflags) (u.selWord u.cs)
      u.eip (e.err.getD 0) (BitVec.ofNat 32 (kernelGate e.vector.toNat).entry.num) u (a.kstackTop c)
      ret u.mem
    rw [X86.setWidth_selWord, X86.setWidth_selWord] at hframe
    rw [hmem]
    exact hframe
  · rw [handlerOf_eflags, BitVec.getLsbD_and]
    cases (kernelGate e.vector.toNat).isTrap <;> simp

/-- With a 0 below the error code, the same words are below another end of the stack. -/
theorem skewed_handlerOf {err : BitVec 32} (herr : e.err = some err)
    (hnoec : (kernelGate e.vector.toNat).entry.noec = true) (ret : BitVec 32) :
    Skewed a c u e err (handlerOf a c u e ret) := by
  have hfront : [u.selWord u.ss, u.esp, e.flags u.eflags, u.selWord u.cs, u.eip, err, 0,
      BitVec.ofNat 32 (kernelGate e.vector.toNat).entry.num] = [u.selWord u.ss, u.esp] ++
        ([e.flags u.eflags, u.selWord u.cs, u.eip] ++ e.err.toList) ++
          (kernelGate e.vector.toNat).entry.words := by
    rw [Stub.words, hnoec, herr]
    rfl
  have htop : a.kstackTop c - 4 - 28 = a.kstackTop c - BitVec.ofNat 32 (4 * 8) := by bv_omega
  obtain ⟨hpushed, hesp⟩ := handlerOf_pushed a c u e ret hfront htop
  have hmem : (handlerOf a c u e ret).mem = (u.mem.pushAll (a.kstackTop c) [u.selWord u.ss]).pushAll
      (a.kstackTop c - 4) (frameWords u.esp (e.flags u.eflags) (u.selWord u.cs) u.eip err 0
        (BitVec.ofNat 32 (kernelGate e.vector.toNat).entry.num) u (a.kstackTop c - 4) ret) :=
    hpushed.trans (Ram.pushAll_append u.mem _ [u.selWord u.ss] _)
  have h72 : a.kstackTop c - 4 - 68 = a.kstackTop c - 72 := by bv_omega
  obtain ⟨htf, hrest⟩ := read_frameWords hmem hesp
  refine ⟨htf.trans h72, ?_, fun x hx => ?_, handlerOf_tables a c u e ret,
    kernelCode_handlerOf a c u e ret⟩
  · rw [← h72, hmem]
    exact trapframeAt_pushed _ _ _ _ _ _ _ _ _ _ _
  · rw [hrest x (by bv_omega), Ram.pushAll_of_le (by simp) (Nat.le_trans (by simp) hx)]

theorem flags_vm (e : Event) {eflags : BitVec 32} (h : eflags.getLsbD 17 = false) :
    (e.flags eflags).getLsbD 17 = false := by
  cases e with
  | int v => exact h
  | irq v => exact h
  | fault v err => simpa [Event.flags] using h

/-- A frame of a user program, with any result of a system call. -/
theorem userFrame_saved (h : SetUp a c u) (hu : UserProgram a u) (e : Event) (stub : Stub)
    (top r : BitVec 32) : UserFrame { savedFrame u e stub top with regEax := r } where
  cs := hu.cs
  ss := hu.ss
  ds := h.userSel_of_loadable hu.cpl hu.ds
  es := h.userSel_of_loadable hu.cpl hu.es
  vm := flags_vm e hu.vm

end Saved

/-- **What is saved is restored.**  For every CPU, all registers of the program, every event but four
faults, and a copy of the frame at any address and with any result in `eax`, popped on any CPU.  At the
four faults the frame is a word off. -/
theorem frame_restored {a : KernelAddrs}
    (hentry : ∀ e ∈ Stub.all, ∀ e' ∈ Stub.all, a.entry e = a.entry e' → e = e') {l : List Nat}
    (hl : ∀ c ∈ l, c < ncpuMax) {cpus cpus' : Nat → X86}
    (hmem : ∀ i j, (cpus i).mem = (cpus j).mem) (hgdt : ∀ j, (cpus j).gdt = gdt)
    (hboot : l.foldlM (initOn a) cpus = .ok cpus') {c : Nat} (hc : c ∈ l) {u : X86}
    (hsame : Unchanged a c (cpus' c) u) (hu : UserProgram a u) {e : Event} (he : e.Genuine)
    (ret : BitVec 32) :
    ∃ s, enterKernel a ret u e = .ok s ∧
      (¬ Mismatched e → Saved a c u (arrival e) s ∧
        ∀ c' ∈ l, ∀ (k : X86) (p r : BitVec 32), Unchanged a c' (cpus' c') k → KernelCode k →
          trapframeAt k.mem p = { trapframeAt s.mem (a.kstackTop c - 68) with regEax := r } →
          envPopTf k p = .ok { k with
            edi := u.edi, esi := u.esi, ebp := u.ebp, ebx := u.ebx, edx := u.edx, ecx := u.ecx
            eax := r, esp := u.esp, eip := u.eip, eflags := (arrival e).flags u.eflags, cs := u.cs
            ss := u.ss, ds := u.ds, es := u.es, fs := 0, gs := 0 }) ∧
      (Mismatched e → ∃ err, e.err = some err ∧ Skewed a c u e err s) := by
  have hset := (setUp_of_boot hmem hgdt hl hboot hc).unchanged hsame
  refine ⟨_, enterKernel_eq hentry hset hu e ret, fun hfine => ?_, fun hbad => ?_⟩
  · have hsaved : Saved a c u (arrival e) (handlerOf a c u (arrival e) ret) :=
      saved_handlerOf ((stubFits_arrival_iff he).mpr hfine) ret
    refine ⟨hsaved, fun c' hc' k p r hsame' hk hframe => ?_⟩
    have hset' := (setUp_of_boot hmem hgdt hl hboot hc').unchanged hsame'
    rw [hsaved.frame] at hframe
    rw [envPopTf_eq hset' hk hframe (userFrame_saved hset hu _ _ _ r)]
    rfl
  · obtain ⟨err, herr, hnoec, harrival⟩ := hbad.stub he
    rw [harrival]
    exact ⟨err, herr, skewed_handlerOf herr hnoec ret⟩

/-- A system call on the second of two CPUs, and `env_pop_tf` of the frame where it is. -/
theorem frame_restored_syscall :
    ∃ (cpus' : Nat → X86) (u s : X86),
      [0, 1].foldlM (initOn .small) (fun _ => { (default : X86) with gdt := gdt }) = .ok cpus' ∧
      Unchanged .small 1 (cpus' 1) u ∧ UserProgram .small u ∧
      enterKernel .small 0 u (.int 48) = .ok s ∧
      (∃ t, envPopTf s (KernelAddrs.small.kstackTop 1 - 68) = .ok t ∧
        t.eip = u.eip ∧ t.esp = u.esp ∧ t.eflags = u.eflags ∧ t.ds = u.ds ∧ t.gs = 0) := by
  have hl : ∀ c ∈ [0, 1], c < ncpuMax := by decide
  obtain ⟨cpus', hboot⟩ := boot_ok .small (fun _ => { (default : X86) with gdt := gdt }) hl
  let u : X86 :=
    { cpus' 1 with
      idt := kernelIdt .small, cs := gdUt ||| 3, ss := gdUd ||| 3, ds := gdUd ||| 3
      es := gdUd ||| 3, eflags := 0x202 }
  have hsame : Unchanged .small 1 (cpus' 1) u := ⟨rfl, fun _ _ => rfl⟩
  have hset : SetUp .small 1 u :=
    (setUp_of_boot (fun _ _ => rfl) (fun _ => rfl) hl hboot (by decide)).unchanged hsame
  have hload : u.loadable (gdUd ||| 3) = .ok () := hset.loadable_of_userSel (by simp [userSels])
  have hu : UserProgram .small u := ⟨rfl, rfl, rfl, hload, hload, by
    change (0x202#32).getLsbD 17 = false
    decide⟩
  have hentry : ∀ e ∈ Stub.all, ∀ e' ∈ Stub.all,
      KernelAddrs.small.entry e = KernelAddrs.small.entry e' → e = e' := by decide +kernel
  obtain ⟨s, hs, hfine, -⟩ := frame_restored hentry hl (fun _ _ => rfl) (fun _ => rfl) hboot
    (by decide) hsame hu (e := .int 48) trivial 0
  obtain ⟨hsaved, hrestored⟩ := hfine id
  -- the TSS is not on the stack
  have htss : ∀ i < sizeofTss, s.mem (KernelAddrs.small.cpuTss 1 + BitVec.ofNat 32 i) =
      u.mem (KernelAddrs.small.cpuTss 1 + BitVec.ofNat 32 i) := by
    intro i hi
    refine hsaved.rest _ ?_
    have htop : KernelAddrs.small.kstackTop 1 = 0xF0140000 := by decide +kernel
    have hbase : KernelAddrs.small.cpuTss 1 = 0xF0120190 := by decide +kernel
    rw [sizeofTss] at hi
    rw [htop, hbase]
    bv_omega
  have hpop := hrestored 1 (by decide) s _ _ ⟨hsaved.tables, htss⟩ hsaved.kernel rfl
  exact ⟨cpus', u, s, hboot, hsame, hu, hs, _, hpop, rfl, rfl, rfl, rfl, rfl⟩

end Nctuos
