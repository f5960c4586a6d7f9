import Nctuos.Lib.Pic
import Nctuos.Lib.Lapic
import Nctuos.Lib.Run
import Nctuos.Boot
import Nctuos.TrapTable

/-!
# Interrupts on their way to the kernel

`kernel/picirq.c`, `kernel/lapic.c` and what `kbd_init`, `timer_init` and the handlers do to the
interrupt controllers: a pair of 8259As, of which only the boot CPU hears, and a local APIC on each
CPU.

An interrupt that is not ended keeps back others.  The kernel ends interrupts in one place only:
`timer_handler` calls `lapic_eoi`, whether it was called for the timer of the local APIC or for the
one behind the 8259A.  `kbd_intr` ends nothing, and nobody ever tells an 8259A.  That this is
enough rests on three things.  The master is in the mode in which it ends its interrupts itself; of
the slave, which is not, no line is let through; and an interrupt of the 8259As is not in service in
the local APIC, so that there `lapic_eoi` finds nothing to end.

So once `pic_init`, `kbd_init`, `timer_init` and `lapic_init` are done, and whatever the firmware had
left in the 8259As, all of it is a set of latches: two on the boot CPU, for the timer and the
keyboard, and one for the timer of each local APIC (`interrupts_get_through`).
-/

namespace Nctuos

open Lib

/-! ## `kernel/picirq.c` -/

def ioPic1 : Nat := 0x20
def ioPic2 : Nat := 0xA0

theorem irqSlave_lt : 2 < 8 := by decide

/-- `IRQ_SLAVE`, the line of the master that the slave is on. -/
def irqSlave : Fin 8 := ⟨2, irqSlave_lt⟩

/-- The variables of `picirq.c` and the two controllers. -/
structure PicState where
  irqMask8259A : BitVec 16
  didinit : Bool
  pics : Pics
  deriving DecidableEq

namespace PicState

/-- Before `pic_init`, with the controllers as the firmware left them. -/
def boot (p : Pics) : PicState where
  irqMask8259A := 0xFFFF &&& ~~~BitVec.twoPow 16 irqSlave
  didinit := false
  pics := p

/-- `outb` to the ports of the controllers. -/
def outb (port : Nat) (v : BitVec 8) (s : PicState) : PicState :=
  if port = ioPic1 then { s with pics := { s.pics with master := s.pics.master.command v } }
  else if port = ioPic1 + 1 then { s with pics := { s.pics with master := s.pics.master.data v } }
  else if port = ioPic2 then { s with pics := { s.pics with slave := s.pics.slave.command v } }
  else if port = ioPic2 + 1 then { s with pics := { s.pics with slave := s.pics.slave.data v } }
  else s

/-- `irq_setmask_8259A`. -/
def irqSetmask8259A (mask : BitVec 16) (s : PicState) : PicState :=
  let s := { s with irqMask8259A := mask }
  if s.didinit then
    (s.outb (ioPic1 + 1) (mask.setWidth 8)).outb (ioPic2 + 1) ((mask >>> 8).setWidth 8)
  else s

/-- What `pic_init` writes, in its order. -/
def picInitWrites : List (Nat × BitVec 8) :=
  -- mask all interrupts
  [(ioPic1 + 1, 0xFF), (ioPic2 + 1, 0xFF),
  -- the four words of the master, with automatic end of interrupt
    (ioPic1, 0x11), (ioPic1 + 1, BitVec.ofNat 8 irqOffset), (ioPic1 + 1, BitVec.twoPow 8 irqSlave),
    (ioPic1 + 1, 0x3),
  -- and of the slave, without
    (ioPic2, 0x11), (ioPic2 + 1, BitVec.ofNat 8 (irqOffset + 8)), (ioPic2 + 1, BitVec.ofNat 8 irqSlave),
    (ioPic2 + 1, 0x01),
    (ioPic1, 0x68), (ioPic1, 0x0a), (ioPic2, 0x68), (ioPic2, 0x0a)]

/-- `pic_init`. -/
def picInit (s : PicState) : PicState :=
  let s := picInitWrites.foldl (fun s w => s.outb w.1 w.2) { s with didinit := true }
  if s.irqMask8259A ≠ 0xFFFF then s.irqSetmask8259A s.irqMask8259A else s

/-- The call that `kbd_init` and `timer_init` make for their lines. -/
def letThrough (irq : Nat) (s : PicState) : PicState :=
  s.irqSetmask8259A (s.irqMask8259A &&& ~~~BitVec.twoPow 16 irq)

/-- `pic_init`, `kbd_init` and `timer_init`, as `kernel_main` calls them. -/
def initAll (p : Pics) : PicState := (((boot p).picInit).letThrough irqKbd).letThrough irqTimer

end PicState

/-- The master when everything is set up and `irr` are its requests. -/
def masterUp (irr : BitVec 8) : Pic where
  stage := .ready
  single := false
  needIcw4 := true
  base := 32
  cascade := 4
  autoEoi := true
  imr := 0xF8
  irr := irr
  isr := 0
  specialMask := true

/-- And the slave. -/
def slaveUp (irr : BitVec 8) : Pic where
  stage := .ready
  single := false
  needIcw4 := true
  base := 40
  cascade := 2
  autoEoi := false
  imr := 0xFF
  irr := irr
  isr := 0
  specialMask := true

/-- Whatever the firmware left there: the first initialization word makes the controllers begin
anew, and what they had understood the masks before it to be does not matter. -/
theorem foldl_picInitWrites (s : PicState) :
    PicState.picInitWrites.foldl (fun s w => s.outb w.1 w.2) s =
      { s with pics := ⟨{ masterUp 0 with imr := 0 }, { slaveUp 0 with imr := 0 }⟩ } := by
  simp only [PicState.picInitWrites, List.foldl, PicState.outb, ioPic1, ioPic2, Nat.reduceAdd,
    Nat.reduceEqDiff, if_true, if_false]
  rw [Pic.data_command, Pic.data_command]
  rfl

theorem initAll_pics (p : Pics) : (PicState.initAll p).pics = ⟨masterUp 0, slaveUp 0⟩ := by
  have hmask : (PicState.boot p).irqMask8259A = 0xFFFB := by
    change (0xFFFF &&& ~~~BitVec.twoPow 16 irqSlave : BitVec 16) = 0xFFFB
    decide
  rw [PicState.initAll, PicState.picInit, foldl_picInitWrites, hmask]
  dsimp only
  decide

/-- Of the two controllers only the requests of the timer and of the keyboard matter. -/
def PicsUp (pit kbd : Bool) (p : Pics) : Prop :=
  ∃ irr irr', p = ⟨masterUp irr, slaveUp irr'⟩ ∧ irr.getLsbD 0 = pit ∧ irr.getLsbD 1 = kbd

theorem PicsUp.raise {pit kbd : Bool} {p : Pics} (h : PicsUp pit kbd p) (i : Fin 16) :
    PicsUp (pit || i.val = 0) (kbd || i.val = 1) (p.raise i) := by
  obtain ⟨irr, irr', rfl, rfl, rfl⟩ := h
  unfold Pics.raise
  split
  · rename_i hlt
    have hline (j : Fin 8) : (irr ||| Pic.bit ⟨i, hlt⟩).getLsbD j =
        (irr.getLsbD j || decide (i.val = j.val)) := by
      rw [BitVec.getLsbD_or, Pic.getLsbD_bit]
      congr 1
      exact decide_eq_decide.mpr Fin.ext_iff
    exact ⟨irr ||| Pic.bit ⟨i, hlt⟩, irr', rfl, hline 0, hline 1⟩
  · rename_i hge
    refine ⟨irr, irr' ||| Pic.bit ⟨i - 8, by omega⟩, rfl, ?_, ?_⟩
    · rw [decide_eq_false (by omega), Bool.or_false]
    · rw [decide_eq_false (by omega), Bool.or_false]

/-- The slave keeps quiet, and the lines above 2 are masked. -/
theorem winner_view (irr irr' : BitVec 8) :
    (Pics.view irqSlave ⟨masterUp irr, slaveUp irr'⟩).winner =
      if irr.getLsbD 0 then some 0 else if irr.getLsbD 1 then some 1 else none := by
  have hslave : (slaveUp irr').winner = none := Pic.winner_masked rfl
  have hview : Pics.view irqSlave ⟨masterUp irr, slaveUp irr'⟩ =
      masterUp (irr &&& ~~~Pic.bit irqSlave) := by
    simp only [Pics.view, hslave, Option.isSome_none, Bool.false_eq_true, if_false]
    rfl
  have hlines : List.finRange 8 = [0, 1, 2, 3, 4, 5, 6, 7] := by decide
  rw [hview, Pic.winner_idle rfl rfl, hlines]
  simp [masterUp, irqSlave, Pic.bit, List.find?_cons]
  cases irr[0] <;> cases irr[1] <;> rfl

/-- The master answers for its own lines, and as it ends its interrupts itself, the request is gone
then and nothing is in service. -/
theorem inta_line {irr irr' : BitVec 8} {i : Fin 8}
    (hwin : (Pics.view irqSlave ⟨masterUp irr, slaveUp irr'⟩).winner = some i)
    (hi : i ≠ irqSlave) :
    Pics.inta irqSlave ⟨masterUp irr, slaveUp irr'⟩ =
      some (32 + BitVec.ofNat 8 i, ⟨masterUp (irr &&& ~~~Pic.bit i), slaveUp irr'⟩) := by
  have hown : ∀ i : Fin 8, i ≠ irqSlave → (4 : BitVec 8).getLsbD i = false := by decide
  have hvec : ∀ i : Fin 8, (32 ||| BitVec.ofNat 8 i : BitVec 8) = 32 + BitVec.ofNat 8 i := by decide
  have hcascade : ¬ (masterUp irr).cascade.getLsbD i = true := by
    rw [Bool.not_eq_true]
    exact hown i hi
  simp only [Pics.inta, hwin]
  rw [if_neg hcascade, ← hvec]
  rfl

/-- The acknowledgement is answered with 32 if the timer asks, and with 33 if only the keyboard
does. -/
theorem PicsUp.inta {pit kbd : Bool} {p : Pics} (h : PicsUp pit kbd p) :
    if pit then ∃ p', p.inta irqSlave = some (32, p') ∧ PicsUp false kbd p'
    else if kbd then ∃ p', p.inta irqSlave = some (33, p') ∧ PicsUp pit false p'
    else p.inta irqSlave = none := by
  obtain ⟨irr, irr', rfl, rfl, rfl⟩ := h
  have hwin := winner_view irr irr'
  have hgone (i j : Fin 8) : (irr &&& ~~~Pic.bit i).getLsbD j =
      (irr.getLsbD j && !decide (i = j)) := by
    rw [BitVec.getLsbD_and, BitVec.getLsbD_not, Pic.getLsbD_bit, decide_eq_true j.isLt,
      Bool.true_and]
  split
  · rename_i h0
    rw [if_pos h0] at hwin
    refine ⟨_, inta_line hwin (by decide), irr &&& ~~~Pic.bit 0, irr', rfl, ?_, ?_⟩
    · simpa using hgone 0 0
    · simpa using hgone 0 1
  · rename_i h0
    rw [if_neg h0] at hwin
    split
    · rename_i h1
      rw [if_pos h1] at hwin
      refine ⟨_, inta_line hwin (by decide), irr &&& ~~~Pic.bit 1, irr', rfl, ?_, ?_⟩
      · simpa using hgone 1 0
      · simpa using hgone 1 1
    · rename_i h1
      rw [if_neg h1] at hwin
      simp only [Pics.inta, hwin]

/-! ## `kernel/lapic.c` -/

/-- What `lapic_init` writes to the registers of a unit with the version register `version`. -/
def lapicInitWrites (boot : Bool) (version : BitVec 32) : List (Nat × BitVec 32) :=
  -- `ENABLE | (IRQ_OFFSET + IRQ_SPURIOUS)`
  [(Lapic.svr, 0x100 ||| BitVec.ofNat 32 (irqOffset + irqSpurious)),
  -- `TDCR`, `PERIODIC | (IRQ_OFFSET + IRQ_TIMER)`, `TICR`
    (0x3E0 / 4, 0xB), (Lapic.lvtTimer, 0x20000 ||| BitVec.ofNat 32 (irqOffset + irqTimer)),
    (0x380 / 4, 10000000)] ++
  (if boot then [] else [(Lapic.lvtLint0, 0x10000)]) ++
  -- `LINT1`
  [(0x360 / 4, 0x10000)] ++
  -- `PCINT`
  (if 4 ≤ ((version >>> 16) &&& 0xFF).toNat then [(0x340 / 4, 0x10000)] else []) ++
  -- `ERROR`, `ESR`, `EOI`, `ICRHI`, `ICRLO` and `TPR`
  [(0x370 / 4, BitVec.ofNat 32 (irqOffset + 19)), (0x280 / 4, 0), (0x280 / 4, 0), (Lapic.eoi, 0),
    (0x310 / 4, 0), (0x300 / 4, 0x80000 ||| 0x500 ||| 0x8000), (Lapic.tpr, 0)]

/-- `lapic_init` behind the mapping.  That the last message has been delivered is not waited for. -/
def lapicInitRegs (boot : Bool) (l : Lapic) : Lapic :=
  (lapicInitWrites boot (l.regs (0x30 / 4))).foldl (fun l w => l.write w.1 w.2) l

/-- `lapic_eoi`. -/
def lapicEoi (lapic : Nat) (l : Lapic) : Lapic := if lapic ≠ 0 then l.write Lapic.eoi 0 else l

/-- A local APIC that is set up: its timer has asked for its interrupt or it has not. -/
structure LapicUp (boot timer : Bool) (l : Lapic) : Prop where
  svr : l.regs Lapic.svr = 0x127
  lvtTimer : l.regs Lapic.lvtTimer = 0x20020
  tpr : l.regs Lapic.tpr = 0
  extInt : l.takesExtInt = boot
  irr : l.irr = if timer then {32} else ∅
  isr : l.isr = ∅

namespace LapicUp

variable {boot timer : Bool} {l : Lapic}

/-- The firmware has left at most one interrupt in service, which `lapic_init` ends. -/
theorem of_init (hext : boot → l.takesExtInt) (hirr : l.irr = ∅)
    (hisr : (l.isr : Set (Fin 256)).Subsingleton) :
    LapicUp boot false (lapicInitRegs boot l) := by
  have hlint : ((lapicInitWrites boot (l.regs (0x30 / 4))).reverse.find? fun w =>
      w.1 = Lapic.lvtLint0) = if boot then none else some (Lapic.lvtLint0, 0x10000) := by
    unfold lapicInitWrites
    cases boot <;> split_ifs <;> rfl
  constructor
  iterate 3
    · rw [lapicInitRegs, Lapic.foldl_write_regs _ (by decide), lapicInitWrites]
      cases boot <;> split_ifs <;> rfl
  · rw [Lapic.takesExtInt, Lapic.masked, lapicInitRegs, Lapic.foldl_write_regs _ (by decide), hlint]
    cases boot with
    | true => exact hext rfl
    | false =>
        change (!(0x10000 : BitVec 32).getLsbD 16 && _) = false
        rw [show (0x10000 : BitVec 32).getLsbD 16 = true by decide, Bool.not_true, Bool.false_and]
  · rw [lapicInitRegs, Lapic.foldl_write_irr, hirr]
    rfl
  · refine Lapic.foldl_write_isr _ hisr ?_
    unfold lapicInitWrites
    cases boot <;> split_ifs <;> simp

theorem enabled (h : LapicUp boot timer l) : l.enabled = true := by
  rw [Lapic.enabled, h.svr]
  rfl

theorem expire (h : LapicUp boot timer l) : LapicUp boot true l.expire := by
  have hmask : l.masked Lapic.lvtTimer = false := by
    rw [Lapic.masked, h.lvtTimer]
    rfl
  have hvec : l.vector Lapic.lvtTimer = 32 := by
    rw [Lapic.vector, h.lvtTimer]
    rfl
  have hexp : l.expire = { l with irr := insert 32 l.irr } := by
    rw [Lapic.expire, h.enabled, hmask, hvec]
    rfl
  rw [hexp]
  refine { h with irr := ?_ }
  rw [h.irr]
  cases timer <;> simp

/-- Nothing ever keeps the timer back. -/
theorem ready_iff (h : LapicUp boot timer l) {v : Fin 256} :
    l.Ready v ↔ timer = true ∧ v = 32 := by
  cases timer with
  | false => simp [Lapic.Ready, h.irr]
  | true =>
      have hprio : (l.regs Lapic.tpr).toNat % 256 / 16 < Lapic.priority 32 := by
        rw [h.tpr]
        decide
      simp only [Lapic.Ready, h.enabled, h.irr, h.isr, if_true, Finset.mem_singleton, true_and]
      constructor
      · exact fun hr => hr.1
      · rintro rfl
        exact ⟨rfl, fun u hu => hu.le, fun u hu => absurd hu (Finset.notMem_empty u), hprio⟩

theorem taken (h : LapicUp boot true l) : LapicUp boot false ((l.accept 32).write Lapic.eoi 0) := by
  have hend : (l.accept 32).write Lapic.eoi 0 = { l with irr := l.irr.erase 32 } := by
    rw [Lapic.write, if_pos rfl, Lapic.endOfInterrupt_accept h.isr]
  rw [hend]
  refine { h with irr := ?_ }
  rw [h.irr]
  rfl

/-- An end of interrupt that nothing was in service for. -/
theorem eoi_idle (h : LapicUp boot timer l) : l.write Lapic.eoi 0 = l := by
  rw [Lapic.write, if_pos rfl, Lapic.endOfInterrupt_idle h.isr]

end LapicUp

/-! ## The way of an interrupt -/

/-- The controllers of a machine with `n` CPUs. -/
structure Controllers (n : Nat) where
  pics : Pics
  lapics : Fin n → Lapic

inductive Signal (n : Nat)
  /-- A device raises one of the sixteen lines. -/
  | line (i : Fin 16)
  /-- The timer of a local APIC has counted down. -/
  | expire (c : Fin n)
  /-- A CPU takes an interrupt of the 8259As, and its handler runs. -/
  | ext (c : Fin n) (v : BitVec 8)
  /-- A CPU takes an interrupt of its local APIC, and its handler runs. -/
  | own (c : Fin n) (v : Fin 256)

/-- The handler that `trap_dispatch` finds for a vector. -/
def kernelHandler (v : Nat) : Option KernelHandler :=
  lastHandler .pageFaultHandler kernelRegistrations v

/-- What the handler of a vector does to the local APIC: `timer_handler` calls `lapic_eoi` before it
may switch to another task, and the others do nothing.  The gates switch interrupts off, so that
nothing is taken before. -/
def endInterrupt (lapic v : Nat) (l : Lapic) : Lapic :=
  if kernelHandler v = some .timerHandler then lapicEoi lapic l else l

theorem kernelHandler_timer : kernelHandler 32 = some .timerHandler := by decide

theorem kernelHandler_kbd : kernelHandler 33 = some .kbdIntr := by decide

namespace Controllers

variable {n : Nat}

def modLapic (s : Controllers n) (c : Fin n) (f : Lapic → Lapic) : Controllers n :=
  { s with lapics := Function.update s.lapics c (f (s.lapics c)) }

/-- Who is to take an interrupt first, of the 8259As or of the local APIC, is left open. -/
def step (lapic : Nat) (s : Controllers n) : Signal n → Option (Controllers n)
  | .line i => some { s with pics := s.pics.raise i }
  | .expire c => some (s.modLapic c Lapic.expire)
  | .ext c v =>
      if (s.lapics c).takesExtInt then
        match s.pics.inta irqSlave with
        | some (v', pics) =>
            if v' = v then some ({ s with pics := pics }.modLapic c (endInterrupt lapic v.toNat))
            else none
        | none => none
      else none
  | .own c v =>
      if (s.lapics c).Ready v then
        some (s.modLapic c fun l => endInterrupt lapic v (l.accept v))
      else none

def Steps (lapic : Nat) (s : Controllers n) (x : Signal n) (t : Controllers n) : Prop :=
  s.step lapic x = some t

/-- `pic_init`, `kbd_init` and `timer_init` on the boot CPU, and `lapic_init` on every CPU. -/
def init (b : Boot) (s : Controllers b.ncpu) : Controllers b.ncpu where
  pics := (PicState.initAll s.pics).pics
  lapics c := lapicInitRegs (c.val = b.bootcpu) (s.lapics c)

/-- How the firmware hands the local APICs over: the pin of the boot CPU is connected to the 8259As,
there is no request, and at most one interrupt that was not ended.  Nothing is said about the
8259As. -/
structure HandedOver (b : Boot) (s : Controllers b.ncpu) : Prop where
  wired : ∀ c, c.val = b.bootcpu → (s.lapics c).takesExtInt = true
  quiet : ∀ c, (s.lapics c).irr = ∅
  served : ∀ c, ((s.lapics c).isr : Set (Fin 256)).Subsingleton

end Controllers

/-- Latches: the timer and the keyboard behind the 8259As, and a timer on each CPU. -/
structure Latches (n : Nat) where
  pit : Bool
  kbd : Bool
  timer : Fin n → Bool

namespace Latches

variable {n : Nat}

def clear : Latches n := ⟨false, false, fun _ => false⟩

/-- A latch is set, and it is taken when it is set.  The boot CPU takes the timer before the
keyboard. -/
def step (b : Boot) (l : Latches b.ncpu) : Signal b.ncpu → Option (Latches b.ncpu)
  | .line i => some { l with pit := l.pit || i.val = 0, kbd := l.kbd || i.val = 1 }
  | .expire c => some { l with timer := Function.update l.timer c true }
  | .ext c v =>
      if c.val = b.bootcpu then
        if l.pit then if v = 32 then some { l with pit := false } else none
        else if l.kbd then if v = 33 then some { l with kbd := false } else none
        else none
      else none
  | .own c v =>
      if l.timer c then
        if v.val = 32 then some { l with timer := Function.update l.timer c false } else none
      else none

def Steps (b : Boot) (l : Latches b.ncpu) (x : Signal b.ncpu) (l' : Latches b.ncpu) : Prop :=
  l.step b x = some l'

end Latches

/-- The controllers are the latches `l`. -/
structure IsLatched (b : Boot) (s : Controllers b.ncpu) (l : Latches b.ncpu) : Prop where
  pics : PicsUp l.pit l.kbd s.pics
  lapics : ∀ c, LapicUp (c.val = b.bootcpu) (l.timer c) (s.lapics c)

namespace IsLatched

variable {b : Boot} {lapic : Nat} {s : Controllers b.ncpu} {l : Latches b.ncpu}

theorem of_init (h : s.HandedOver b) : IsLatched b (s.init b) .clear where
  pics := ⟨0, 0, initAll_pics s.pics, rfl, rfl⟩
  lapics c := .of_init (fun hc => h.wired c (of_decide_eq_true hc)) (h.quiet c) (h.served c)

/-- One local APIC changes, and its latch with it. -/
theorem modLapic (h : IsLatched b s l) {c : Fin b.ncpu} {f : Lapic → Lapic} {t : Bool}
    (hc : LapicUp (c.val = b.bootcpu) t (f (s.lapics c))) :
    IsLatched b (s.modLapic c f) { l with timer := Function.update l.timer c t } where
  pics := h.pics
  lapics d := by
    by_cases hd : d = c
    · subst hd
      simpa only [Controllers.modLapic, Function.update_self] using hc
    · simpa only [Controllers.modLapic, Function.update_of_ne hd] using h.lapics d

/-- An end of interrupt for the 8259As finds nothing to end in the local APIC. -/
theorem modLapic_eoi (h : IsLatched b s l) (c : Fin b.ncpu) (v : Nat) :
    s.modLapic c (endInterrupt lapic v) = s := by
  have hsame : endInterrupt lapic v (s.lapics c) = s.lapics c := by
    unfold endInterrupt lapicEoi
    split_ifs
    · exact (h.lapics c).eoi_idle
    · rfl
    · rfl
  rw [Controllers.modLapic, hsame, Function.update_eq_self]

/-- One step: what one side can do, the other can, and they stay together. -/
theorem step (hlapic : lapic ≠ 0) (h : IsLatched b s l) (x : Signal b.ncpu) :
    Option.Rel (IsLatched b) (s.step lapic x) (l.step b x) := by
  -- the interrupt of an 8259A, which is taken with the vector `v'` and leaves `p` and `l'`
  have htaken {v v' : BitVec 8} {p : Pics} {l' : Latches b.ncpu} (c : Fin b.ncpu)
      (h' : IsLatched b { s with pics := p } l') : Option.Rel (IsLatched b)
        (if v' = v then some ({ s with pics := p }.modLapic c (endInterrupt lapic v.toNat)) else none)
        (if v = v' then some l' else none) := by
    rw [h'.modLapic_eoi]
    by_cases hv : v = v'
    · rw [if_pos hv.symm, if_pos hv]
      exact .some h'
    · rw [if_neg (Ne.symm hv), if_neg hv]
      exact .none
  cases x with
  | line i => exact .some { h with pics := h.pics.raise i }
  | expire c => exact .some (h.modLapic (h.lapics c).expire)
  | ext c v =>
      have hinta := h.pics.inta
      simp only [Controllers.step, Latches.step, (h.lapics c).extInt, decide_eq_true_eq]
      split
      · cases hpit : l.pit with
        | true =>
            rw [hpit, if_pos rfl] at hinta
            obtain ⟨p, hp, hup⟩ := hinta
            simp only [hp, if_true]
            exact htaken c { h with pics := hup }
        | false =>
            rw [hpit, if_neg Bool.false_ne_true] at hinta
            cases hkbd : l.kbd with
            | true =>
                rw [hkbd, if_pos rfl] at hinta
                obtain ⟨p, hp, hup⟩ := hinta
                simp only [hp, if_true, Bool.false_eq_true, if_false]
                exact htaken c ⟨hup, h.lapics⟩
            | false =>
                rw [hkbd, if_neg Bool.false_ne_true] at hinta
                simp only [hinta, Bool.false_eq_true, if_false]
                exact .none
      · exact .none
  | own c v =>
      have hready := (h.lapics c).ready_iff (v := v)
      simp only [Controllers.step, Latches.step]
      by_cases ht : l.timer c = true
      · by_cases hval : v.val = 32
        · have hv : v = 32 := Fin.ext hval
          have hend : endInterrupt lapic v ((s.lapics c).accept v) =
              ((s.lapics c).accept 32).write Lapic.eoi 0 := by
            rw [hv, endInterrupt, lapicEoi, if_pos hlapic]
            exact if_pos kernelHandler_timer
          have hup := (h.lapics c)
          rw [ht] at hup
          rw [if_pos (hready.mpr ⟨ht, hv⟩), if_pos ht, if_pos hval]
          exact .some (h.modLapic (hend ▸ hup.taken))
        · rw [if_neg fun hr => hval (congrArg Fin.val (hready.mp hr).2), if_pos ht, if_neg hval]
          exact .none
      · rw [if_neg fun hr => ht (hready.mp hr).1, if_neg ht]
        exact .none

theorem forth (hlapic : lapic ≠ 0) (h : IsLatched b s l) {x : Signal b.ncpu}
    {t : Controllers b.ncpu} (hx : s.Steps lapic x t) : ∃ l', l.Steps b x l' ∧ IsLatched b t l' := by
  have hrel := h.step hlapic x
  rw [show s.step lapic x = some t from hx] at hrel
  generalize hl : l.step b x = l' at hrel
  cases hrel with
  | some h' => exact ⟨_, hl, h'⟩

theorem back (hlapic : lapic ≠ 0) (h : IsLatched b s l) {x : Signal b.ncpu} {l' : Latches b.ncpu}
    (hx : l.Steps b x l') : ∃ t, s.Steps lapic x t ∧ IsLatched b t l' := by
  have hrel := h.step hlapic x
  rw [show l.step b x = some l' from hx] at hrel
  generalize hs : s.step lapic x = t at hrel
  cases hrel with
  | some h' => exact ⟨_, hs, h'⟩

end IsLatched

/-! ## Runs -/

namespace Latches

variable {b : Boot} {l l' : Latches b.ncpu} {xs : List (Signal b.ncpu)}

/-- A latch stays set until it is taken. -/
theorem kept {latch : Latches b.ncpu → Bool} {takes : Signal b.ncpu → Prop}
    (hstep : ∀ l x l', l.Steps b x l' → ¬ takes x → latch l = true → latch l' = true)
    (r : Run (Latches.Steps b) l xs l') (hnot : ∀ x ∈ xs, ¬ takes x) (hset : latch l = true) :
    latch l' = true := by
  induction r with
  | nil l => exact hset
  | cons hx _ ih =>
      rw [List.forall_mem_cons] at hnot
      exact ih hnot.2 (hstep _ _ _ hx hnot.1 hset)

/-- What a step is. -/
theorem step_cases {x : Signal b.ncpu} (hx : l.Steps b x l') :
    (∃ i, x = .line i ∧ l' = { l with pit := l.pit || i.val = 0, kbd := l.kbd || i.val = 1 }) ∨
    (∃ c, x = .expire c ∧ l' = { l with timer := Function.update l.timer c true }) ∨
    (∃ c, x = .ext c 32 ∧ c.val = b.bootcpu ∧ l.pit = true ∧ l' = { l with pit := false }) ∨
    (∃ c, x = .ext c 33 ∧ c.val = b.bootcpu ∧ l.pit = false ∧ l.kbd = true ∧
      l' = { l with kbd := false }) ∨
    ∃ c, x = .own c 32 ∧ l.timer c = true ∧
      l' = { l with timer := Function.update l.timer c false } := by
  cases x with
  | line i =>
      cases hx
      exact .inl ⟨i, rfl, rfl⟩
  | expire c =>
      cases hx
      exact .inr (.inl ⟨c, rfl, rfl⟩)
  | ext c v =>
      simp only [Latches.Steps, Latches.step] at hx
      split_ifs at hx with hc hpit hv hkbd hv
      · cases hx
        exact .inr (.inr (.inl ⟨c, by rw [hv], hc, hpit, rfl⟩))
      · cases hx
        have hpit' := Bool.eq_false_of_not_eq_true hpit
        exact .inr (.inr (.inr (.inl ⟨c, by rw [hv], hc, hpit', hkbd, rfl⟩)))
  | own c v =>
      simp only [Latches.Steps, Latches.step] at hx
      split_ifs at hx with ht hv
      cases hx
      have hv' : v = 32 := Fin.ext hv
      exact .inr (.inr (.inr (.inr ⟨c, by rw [hv'], ht, rfl⟩)))

/-- What can be taken, and from whom. -/
theorem step_vector {x : Signal b.ncpu} (hx : l.Steps b x l') :
    (∀ c v, x = .ext c v → c.val = b.bootcpu ∧ (v = 32 ∨ v = 33)) ∧
      ∀ c v, x = .own c v → v = 32 := by
  obtain ⟨i, rfl, -⟩ | ⟨d, rfl, -⟩ | ⟨d, rfl, hd, -⟩ | ⟨d, rfl, hd, -⟩ | ⟨d, rfl, -⟩ :=
    step_cases hx <;> constructor <;> rintro c v ⟨⟩
  · exact ⟨hd, .inl rfl⟩
  · exact ⟨hd, .inr rfl⟩
  · rfl

theorem take_pit {c : Fin b.ncpu} (hc : c.val = b.bootcpu) (hset : l.pit = true) :
    l.Steps b (.ext c 32) { l with pit := false } := by
  rw [Latches.Steps, Latches.step, if_pos hc, if_pos hset, if_pos rfl]

theorem take_kbd {c : Fin b.ncpu} (hc : c.val = b.bootcpu) (hpit : l.pit = false)
    (hset : l.kbd = true) : l.Steps b (.ext c 33) { l with kbd := false } := by
  rw [Latches.Steps, Latches.step, if_pos hc, hpit, if_neg Bool.false_ne_true, if_pos hset,
    if_pos rfl]

theorem take_timer {c : Fin b.ncpu} (hset : l.timer c = true) :
    l.Steps b (.own c 32) { l with timer := Function.update l.timer c false } := by
  rw [Latches.Steps, Latches.step, if_pos hset]
  exact if_pos rfl

theorem step_pit {x : Signal b.ncpu} (hx : l.Steps b x l') (hnot : ¬ ∃ c, x = .ext c 32)
    (hset : l.pit = true) : l'.pit = true := by
  obtain ⟨i, rfl, rfl⟩ | ⟨d, rfl, rfl⟩ | ⟨d, rfl, -, -, rfl⟩ | ⟨d, rfl, -, -, -, rfl⟩ |
    ⟨d, rfl, -, rfl⟩ := step_cases hx
  · exact Bool.or_eq_true_iff.mpr (.inl hset)
  · exact hset
  · exact absurd ⟨d, rfl⟩ hnot
  · exact hset
  · exact hset

theorem step_kbd {x : Signal b.ncpu} (hx : l.Steps b x l') (hnot : ¬ ∃ c, x = .ext c 33)
    (hset : l.kbd = true) : l'.kbd = true := by
  obtain ⟨i, rfl, rfl⟩ | ⟨d, rfl, rfl⟩ | ⟨d, rfl, -, -, rfl⟩ | ⟨d, rfl, -, -, -, rfl⟩ |
    ⟨d, rfl, -, rfl⟩ := step_cases hx
  · exact Bool.or_eq_true_iff.mpr (.inl hset)
  · exact hset
  · exact hset
  · exact absurd ⟨d, rfl⟩ hnot
  · exact hset

theorem step_timer (c : Fin b.ncpu) {x : Signal b.ncpu} (hx : l.Steps b x l')
    (hnot : ¬ ∃ v, x = .own c v) (hset : l.timer c = true) : l'.timer c = true := by
  obtain ⟨i, rfl, rfl⟩ | ⟨d, rfl, rfl⟩ | ⟨d, rfl, -, -, rfl⟩ | ⟨d, rfl, -, -, -, rfl⟩ |
    ⟨d, rfl, -, rfl⟩ := step_cases hx
  · exact hset
  · by_cases hd : c = d
    · subst hd
      exact Function.update_self c true l.timer
    · exact (Function.update_of_ne hd true l.timer).trans hset
  · exact hset
  · exact hset
  · have hd : c ≠ d := by
      rintro rfl
      exact hnot ⟨32, rfl⟩
    exact (Function.update_of_ne hd false l.timer).trans hset

end Latches

/-- What comes of the interrupts when the controllers start in `s`. -/
structure Delivers (b : Boot) (lapic : Nat) (s : Controllers b.ncpu) : Prop where
  /-- The controllers can do what the latches can, and nothing else. -/
  latches : ∀ xs, (∃ t, Run (Controllers.Steps lapic) s xs t) ↔
    ∃ l, Run (Latches.Steps b) .clear xs l
  /-- The 8259As interrupt the boot CPU only, and whatever is taken has a handler of its own. -/
  ext_vectors : ∀ xs t c v, Run (Controllers.Steps lapic) s xs t → .ext c v ∈ xs →
    c.val = b.bootcpu ∧ (kernelHandler v.toNat = some .timerHandler ∨
      kernelHandler v.toNat = some .kbdIntr)
  own_vectors : ∀ xs t c (v : Fin 256), Run (Controllers.Steps lapic) s xs t → .own c v ∈ xs →
    kernelHandler v = some .timerHandler
  /-- A CPU whose timer has counted down can take that, at any time until it does. -/
  tick : ∀ xs ys t c, Run (Controllers.Steps lapic) s (xs ++ .expire c :: ys) t →
    (∀ v, .own c v ∉ ys) → ∃ u, t.Steps lapic (.own c 32) u
  /-- So can the boot CPU with the timer behind the 8259As. -/
  pit : ∀ xs ys t c, Run (Controllers.Steps lapic) s (xs ++ .line 0 :: ys) t → c.val = b.bootcpu →
    (∀ d, .ext d 32 ∉ ys) → ∃ u, t.Steps lapic (.ext c 32) u
  /-- And with a key, if need be after one interrupt of that timer. -/
  key : ∀ xs ys t c, Run (Controllers.Steps lapic) s (xs ++ .line 1 :: ys) t → c.val = b.bootcpu →
    (∀ d, .ext d 33 ∉ ys) → (∃ u, t.Steps lapic (.ext c 33) u) ∨
      ∃ u w, t.Steps lapic (.ext c 32) u ∧ u.Steps lapic (.ext c 33) w

/-- The state of the latches behind a signal that sets one, and after a run that does not take it. -/
theorem Latches.set_of_run {b : Boot} {l : Latches b.ncpu} {xs ys : List (Signal b.ncpu)}
    {x : Signal b.ncpu} (latch : Latches b.ncpu → Bool) (takes : Signal b.ncpu → Prop)
    (hkept : ∀ l y l', Latches.Steps b l y l' → ¬ takes y → latch l = true → latch l' = true)
    (hsets : ∀ l l', Latches.Steps b l x l' → latch l' = true) (hnot : ∀ y ∈ ys, ¬ takes y)
    (r : Run (Latches.Steps b) .clear (xs ++ x :: ys) l) : latch l = true := by
  obtain ⟨l₁, -, r₁⟩ := r.of_append
  obtain ⟨l₂, hx, r₂⟩ := Run.cons_iff.mp r₁
  exact Latches.kept hkept r₂ hnot (hsets l₁ l₂ hx)

/-- **Interrupts get through.**  After `pic_init`, `kbd_init`, `timer_init` and `lapic_init` the two
8259As and the local APICs are latches, although only `timer_handler` ever ends an interrupt. -/
theorem interrupts_get_through (b : Boot) {lapic : Nat} (hlapic : lapic ≠ 0)
    (s : Controllers b.ncpu) (hs : s.HandedOver b) : Delivers b lapic (s.init b) := by
  have hinit := IsLatched.of_init hs
  have hforth {xs : List (Signal b.ncpu)} {t : Controllers b.ncpu}
      (r : Run (Controllers.Steps lapic) (s.init b) xs t) :
      ∃ l, Run (Latches.Steps b) .clear xs l ∧ IsLatched b t l :=
    r.simulate (fun _ _ _ _ h hx => h.forth hlapic hx) hinit
  have hback {xs : List (Signal b.ncpu)} {l : Latches b.ncpu}
      (r : Run (Latches.Steps b) .clear xs l) :
      ∃ t, Run (Controllers.Steps lapic) (s.init b) xs t ∧ IsLatched b t l := by
    refine Run.simulate (R := fun l s => IsLatched b s l) ?_ r hinit
    intro l s x l' h hx
    exact h.back hlapic hx
  have hvec {xs : List (Signal b.ncpu)} {t : Controllers b.ncpu} {x : Signal b.ncpu}
      (r : Run (Controllers.Steps lapic) (s.init b) xs t) (hx : x ∈ xs) :
      ∃ l l' : Latches b.ncpu, l.Steps b x l' := by
    obtain ⟨l, rl, -⟩ := hforth r
    obtain ⟨ys, zs, rfl⟩ := List.append_of_mem hx
    obtain ⟨l₁, -, r₁⟩ := rl.of_append
    obtain ⟨l₂, hstep, -⟩ := Run.cons_iff.mp r₁
    exact ⟨l₁, l₂, hstep⟩
  constructor
  · intro xs
    constructor
    · rintro ⟨t, r⟩
      obtain ⟨l, rl, -⟩ := hforth r
      exact ⟨l, rl⟩
    · rintro ⟨l, r⟩
      obtain ⟨t, rt, -⟩ := hback r
      exact ⟨t, rt⟩
  · intro xs t c v r hx
    obtain ⟨l, l', hstep⟩ := hvec r hx
    obtain ⟨hc, rfl | rfl⟩ := (Latches.step_vector hstep).1 c v rfl
    · exact ⟨hc, .inl kernelHandler_timer⟩
    · exact ⟨hc, .inr kernelHandler_kbd⟩
  · intro xs t c v r hx
    obtain ⟨l, l', hstep⟩ := hvec r hx
    obtain rfl := (Latches.step_vector hstep).2 c v rfl
    exact kernelHandler_timer
  · intro xs ys t c r hnot
    obtain ⟨l, rl, hl⟩ := hforth r
    have hset : l.timer c = true := by
      refine Latches.set_of_run (fun l => l.timer c) (fun x => ∃ v, x = .own c v)
        (fun _ _ _ hy => Latches.step_timer c hy) ?_ ?_ rl
      · intro l₁ l₂ hx
        cases hx
        exact Function.update_self c true l₁.timer
      · rintro _ hy ⟨v, rfl⟩
        exact hnot v hy
    obtain ⟨u, hu, -⟩ := hl.back hlapic (Latches.take_timer hset)
    exact ⟨u, hu⟩
  · intro xs ys t c r hc hnot
    obtain ⟨l, rl, hl⟩ := hforth r
    have hset : l.pit = true := by
      refine Latches.set_of_run Latches.pit (fun x => ∃ d, x = .ext d 32)
        (fun _ _ _ hy => Latches.step_pit hy) ?_ ?_ rl
      · intro l₁ l₂ hx
        cases hx
        simp
      · rintro _ hy ⟨d, rfl⟩
        exact hnot d hy
    obtain ⟨u, hu, -⟩ := hl.back hlapic (Latches.take_pit hc hset)
    exact ⟨u, hu⟩
  · intro xs ys t c r hc hnot
    obtain ⟨l, rl, hl⟩ := hforth r
    have hset : l.kbd = true := by
      refine Latches.set_of_run Latches.kbd (fun x => ∃ d, x = .ext d 33)
        (fun _ _ _ hy => Latches.step_kbd hy) ?_ ?_ rl
      · intro l₁ l₂ hx
        cases hx
        simp
      · rintro _ hy ⟨d, rfl⟩
        exact hnot d hy
    cases hpit : l.pit with
    | false =>
        obtain ⟨u, hu, -⟩ := hl.back hlapic (Latches.take_kbd hc hpit hset)
        exact .inl ⟨u, hu⟩
    | true =>
        obtain ⟨u, hu, hl'⟩ := hl.back hlapic (Latches.take_pit hc hpit)
        obtain ⟨w, hw, -⟩ := hl'.back hlapic (Latches.take_kbd hc rfl hset)
        exact .inr ⟨u, w, hu, hw⟩

/-- Two CPUs; the firmware of the first has left an interrupt in service. -/
def Controllers.small : Controllers (Boot.small true).ncpu where
  pics := ⟨masterUp 0xFF, slaveUp 0xFF⟩
  lapics c := ⟨fun _ => 0x700, ∅, Finset.univ.filter fun v => c.val = 0 ∧ v.val = 8⟩

theorem interrupts_get_through_two :
    Delivers (.small true) 1 (Controllers.small.init (.small true)) := by
  refine interrupts_get_through (.small true) Nat.one_ne_zero .small ⟨?_, ?_, ?_⟩
  · intro c hc
    change (!(0x700 : BitVec 32).getLsbD 16 && (0x700 : BitVec 32).extractLsb' 8 3 == 7) = true
    decide
  · exact fun c => rfl
  · intro c u hu v hv
    have hu' := (Finset.mem_filter.mp hu).2.2
    have hv' := (Finset.mem_filter.mp hv).2.2
    exact Fin.ext (hu'.trans hv'.symm)

end Nctuos
