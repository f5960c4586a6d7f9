import Mathlib.Data.List.FinRange

/-!
# A pair of 8259A interrupt controllers

A controller has eight request lines.  A device that wants something raises its line, which is
latched in `irr`; `imr` masks lines, and `isr` are the lines whose interrupts are in service.  The
lower the number of a line, the higher its priority, and a line in service keeps back all lines
that are not above it until the processor says that it is done.  In the mode `autoEoi` the
processor need not say so.

A controller is programmed through two ports.  A write to the first with bit 4 set begins the
initialization, and what a write to the second means depends on how far that has got (`PicStage`).

The second controller of a pair asks for its interrupts through a line of the first, `wire`.  The
first tells the processor of a request, and answers the acknowledgement with a vector, or leaves the
answer to the second (`Pics.inta`).

Rotating priorities and polling are left out.
-/

namespace Nctuos.Lib

/-- What the next write to the data port is. -/
inductive PicStage
  | icw2
  | icw3
  | icw4
  | ready
  deriving DecidableEq, Repr

structure Pic where
  stage : PicStage
  /-- There is no other controller, and no ICW3. -/
  single : Bool
  /-- There is an ICW4. -/
  needIcw4 : Bool
  /-- ICW2, the vector of line 0. -/
  base : BitVec 8
  /-- ICW3: the lines with another controller, or the number of the line it is on. -/
  cascade : BitVec 8
  autoEoi : Bool
  imr : BitVec 8
  irr : BitVec 8
  isr : BitVec 8
  specialMask : Bool
  deriving DecidableEq, Repr

namespace Pic

/-- The bit of a line. -/
def bit (i : Fin 8) : BitVec 8 := BitVec.twoPow 8 i

/-- The lines in service that keep others back. -/
def serving (p : Pic) : BitVec 8 := if p.specialMask then p.isr &&& ~~~p.imr else p.isr

/-- Line `i` has a request that is not masked, and nothing keeps it back. -/
def asks (p : Pic) (i : Fin 8) : Bool :=
  p.irr.getLsbD i && !p.imr.getLsbD i && (List.finRange 8).all fun j => i < j || !p.serving.getLsbD j

/-- The line for which the controller asks for an interrupt. -/
def winner (p : Pic) : Option (Fin 8) :=
  if p.stage = .ready then (List.finRange 8).find? p.asks else none

/-- A device raises line `i`. -/
def raise (p : Pic) (i : Fin 8) : Pic := { p with irr := p.irr ||| bit i }

/-- The interrupt of line `i` is taken. -/
def accept (p : Pic) (i : Fin 8) : Pic :=
  { p with
    irr := p.irr &&& ~~~bit i
    isr := if p.autoEoi then p.isr else p.isr ||| bit i }

/-- The end of the interrupt in service with the highest priority. -/
def endOfInterrupt (p : Pic) : Pic :=
  match (List.finRange 8).find? fun i : Fin 8 => p.isr.getLsbD i with
  | none => p
  | some i => { p with isr := p.isr &&& ~~~bit i }

/-- A write to the first port. -/
def command (p : Pic) (v : BitVec 8) : Pic :=
  if v.getLsbD 4 then
    { p with
      stage := .icw2
      single := v.getLsbD 1
      needIcw4 := v.getLsbD 0
      autoEoi := false
      imr := 0
      irr := 0
      isr := 0
      specialMask := false }
  else if v.getLsbD 3 then
    { p with specialMask := if v.getLsbD 6 then v.getLsbD 5 else p.specialMask }
  else if v.getLsbD 5 then
    if v.getLsbD 6 then { p with isr := p.isr &&& ~~~BitVec.twoPow 8 (v.extractLsb' 0 3).toNat }
    else p.endOfInterrupt
  else p

/-- A write to the second port. -/
def data (p : Pic) (v : BitVec 8) : Pic :=
  match p.stage with
  | .icw2 =>
      { p with
        base := v &&& 0xF8
        stage := if p.single then if p.needIcw4 then .icw4 else .ready else .icw3 }
  | .icw3 => { p with cascade := v, stage := if p.needIcw4 then .icw4 else .ready }
  | .icw4 => { p with autoEoi := v.getLsbD 1, stage := .ready }
  | .ready => { p with imr := v }

/-- The vector of line `i`. -/
def vector (p : Pic) (i : Fin 8) : BitVec 8 := p.base ||| BitVec.ofNat 8 i

variable {p : Pic} {i j : Fin 8}

theorem getLsbD_bit : (bit i).getLsbD j = decide (i = j) := by
  rw [bit, BitVec.getLsbD_twoPow]
  simp [Fin.ext_iff]

/-- The four words of the initialization set everything. -/
theorem data_command (p : Pic) (icw2 icw3 icw4 : BitVec 8) :
    (((p.command 0x11).data icw2).data icw3).data icw4 =
      { stage := .ready
        single := false
        needIcw4 := true
        base := icw2 &&& 0xF8
        cascade := icw3
        autoEoi := icw4.getLsbD 1
        imr := 0
        irr := 0
        isr := 0
        specialMask := false } :=
  rfl

/-- With all lines masked it never asks. -/
theorem winner_masked (h : p.imr = BitVec.allOnes 8) : p.winner = none := by
  have hasks : ∀ i, p.asks i = false := by
    intro i
    rw [asks, h, BitVec.getLsbD_allOnes, decide_eq_true i.isLt, Bool.not_true, Bool.and_false,
      Bool.false_and]
  unfold winner
  split
  · simp [hasks]
  · rfl

/-- With nothing in service, the line with the lowest number asks. -/
theorem winner_idle (hready : p.stage = .ready) (hisr : p.isr = 0) :
    p.winner = (List.finRange 8).find? fun i : Fin 8 => p.irr.getLsbD i && !p.imr.getLsbD i := by
  have hasks : p.asks = fun i : Fin 8 => p.irr.getLsbD i && !p.imr.getLsbD i := by
    funext i
    simp [asks, serving, hisr]
  rw [winner, if_pos hready, hasks]

end Pic

/-- Two controllers, the second of which is wired to a line of the first. -/
structure Pics where
  master : Pic
  slave : Pic
  deriving DecidableEq, Repr

namespace Pics

/-- A device raises one of the sixteen lines. -/
def raise (p : Pics) (line : Fin 16) : Pics :=
  if h : line.val < 8 then { p with master := p.master.raise ⟨line, h⟩ }
  else { p with slave := p.slave.raise ⟨line - 8, by omega⟩ }

/-- The first controller with the request of the second on its line. -/
def view (wire : Fin 8) (p : Pics) : Pic :=
  { p.master with
    irr :=
      if p.slave.winner.isSome then p.master.irr ||| Pic.bit wire
      else p.master.irr &&& ~~~Pic.bit wire }

/-- The processor acknowledges an interrupt, and gets its vector.  A controller that has no request
any more answers with its line 7; where nobody answers, the bus reads as ones. -/
def inta (wire : Fin 8) (p : Pics) : Option (BitVec 8 × Pics) :=
  match (p.view wire).winner with
  | none => none
  | some i =>
      if p.master.cascade.getLsbD i then
        if p.slave.cascade.extractLsb' 0 3 = BitVec.ofNat 3 i then
          match p.slave.winner with
          | some j => some (p.slave.vector j, ⟨p.master.accept i, p.slave.accept j⟩)
          | none => some (p.slave.vector 7, { p with master := p.master.accept i })
        else some (BitVec.allOnes 8, { p with master := p.master.accept i })
      else some (p.master.vector i, { p with master := p.master.accept i })

end Pics

end Nctuos.Lib
