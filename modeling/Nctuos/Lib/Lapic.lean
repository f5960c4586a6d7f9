import Mathlib.Data.Finset.Max
import Mathlib.Data.Fintype.Basic
import Mathlib.Data.List.Induction

/-!
# A local APIC

The interrupt controller of one processor.  It has a page of registers, written a word at a time,
and for each vector a request and a mark that its interrupt is in service.  An interrupt is taken
when its priority, which is the vector divided by 16, is above that of everything in service and
above the task priority.  The processor ends the interrupt in service with the highest priority by a
write to the register `eoi`.

The entries of the local vector table say what the sources on the processor itself do: the timer
asks for the vector of its entry, and the pin `lint0` hands the request of an outside controller
through, if its entry says so (`takesExtInt`).  Such an interrupt gets its vector from that
controller and is never in service here.
-/

namespace Nctuos.Lib

/-- The registers by their word index. -/
structure Lapic where
  regs : Nat → BitVec 32
  irr : Finset (Fin 256)
  isr : Finset (Fin 256)

namespace Lapic

def tpr : Nat := 0x80 / 4
def eoi : Nat := 0xB0 / 4
def svr : Nat := 0xF0 / 4
def lvtTimer : Nat := 0x320 / 4
def lvtLint0 : Nat := 0x350 / 4

/-- The unit is switched on. -/
def enabled (l : Lapic) : Bool := (l.regs svr).getLsbD 8

/-- An entry of the local vector table is masked. -/
def masked (l : Lapic) (lvt : Nat) : Bool := (l.regs lvt).getLsbD 16

/-- The vector of an entry. -/
def vector (l : Lapic) (lvt : Nat) : Fin 256 := ((l.regs lvt).extractLsb' 0 8).toFin

/-- The end of the interrupt in service with the highest priority. -/
def endOfInterrupt (l : Lapic) : Lapic := { l with isr := l.isr.filter fun v => ∃ u ∈ l.isr, v < u }

/-- A write to a register. -/
def write (l : Lapic) (index : Nat) (v : BitVec 32) : Lapic :=
  if index = eoi then l.endOfInterrupt else { l with regs := Function.update l.regs index v }

/-- The timer has counted down. -/
def expire (l : Lapic) : Lapic :=
  if l.enabled && !l.masked lvtTimer then { l with irr := insert (l.vector lvtTimer) l.irr } else l

/-- The outside controller's requests get through. -/
def takesExtInt (l : Lapic) : Bool := !l.masked lvtLint0 && (l.regs lvtLint0).extractLsb' 8 3 == 7

/-- The priority of a vector. -/
def priority (v : Fin 256) : Nat := v.val / 16

/-- The vector `v` can be taken: it is requested, and nothing keeps it back. -/
def Ready (l : Lapic) (v : Fin 256) : Prop :=
  l.enabled ∧ v ∈ l.irr ∧ (∀ u ∈ l.irr, u ≤ v) ∧ (∀ u ∈ l.isr, priority u < priority v) ∧
    (l.regs tpr).toNat % 256 / 16 < priority v

instance (l : Lapic) (v : Fin 256) : Decidable (l.Ready v) := inferInstanceAs (Decidable (_ ∧ _))

/-- The interrupt with vector `v` is taken. -/
def accept (l : Lapic) (v : Fin 256) : Lapic :=
  { l with irr := l.irr.erase v, isr := insert v l.isr }

variable {l : Lapic}

theorem write_regs {index i : Nat} (v : BitVec 32) (hi : i ≠ eoi) :
    (l.write index v).regs i = if index = i then v else l.regs i := by
  unfold write
  split
  · rename_i heoi
    have hne : index ≠ i := by
      rintro rfl
      exact hi heoi
    rw [if_neg hne]
    rfl
  · exact (Function.update_apply l.regs index v i).trans (if_congr eq_comm rfl rfl)

theorem write_irr (index : Nat) (v : BitVec 32) : (l.write index v).irr = l.irr := by
  unfold write
  split <;> rfl

/-- After several writes a register holds what was written to it last. -/
theorem foldl_write_regs (ws : List (Nat × BitVec 32)) {i : Nat} (hi : i ≠ eoi) :
    (ws.foldl (fun l w => l.write w.1 w.2) l).regs i =
      ((ws.reverse.find? fun w => w.1 = i).map Prod.snd).getD (l.regs i) := by
  induction ws using List.reverseRecOn with
  | nil => rfl
  | append_singleton ws w ih =>
      rw [List.foldl_append, List.foldl_cons, List.foldl_nil, write_regs _ hi, ih,
        List.reverse_append, List.reverse_singleton, List.singleton_append, List.find?_cons]
      by_cases hw : w.1 = i <;> simp [hw]

theorem foldl_write_irr (ws : List (Nat × BitVec 32)) :
    (ws.foldl (fun l w => l.write w.1 w.2) l).irr = l.irr := by
  induction ws generalizing l with
  | nil => rfl
  | cons w ws ih => rw [List.foldl_cons, ih, write_irr]

/-- The end of the only interrupt in service, if there was one. -/
theorem endOfInterrupt_isr (hone : (l.isr : Set (Fin 256)).Subsingleton) :
    l.endOfInterrupt.isr = ∅ := by
  refine Finset.filter_eq_empty_iff.mpr fun v hv => ?_
  rintro ⟨u, hu, hlt⟩
  rw [hone hu hv] at hlt
  exact lt_irrefl v hlt

theorem foldl_write_isr_subset (ws : List (Nat × BitVec 32)) :
    (ws.foldl (fun l w => l.write w.1 w.2) l).isr ⊆ l.isr := by
  induction ws generalizing l with
  | nil => exact Finset.Subset.refl _
  | cons w ws ih =>
      refine ih.trans ?_
      change (l.write w.1 w.2).isr ⊆ l.isr
      unfold write
      split
      · exact Finset.filter_subset _ _
      · exact Finset.Subset.refl _

/-- If at most one interrupt was in service, a write to `eoi` has ended it. -/
theorem foldl_write_isr (ws : List (Nat × BitVec 32))
    (hone : (l.isr : Set (Fin 256)).Subsingleton) (heoi : eoi ∈ ws.map Prod.fst) :
    (ws.foldl (fun l w => l.write w.1 w.2) l).isr = ∅ := by
  induction ws generalizing l with
  | nil => exact absurd heoi List.not_mem_nil
  | cons w ws ih =>
      rw [List.foldl_cons]
      by_cases hw : w.1 = eoi
      · rw [write, if_pos hw]
        have hsub := foldl_write_isr_subset (l := l.endOfInterrupt) ws
        rwa [endOfInterrupt_isr hone, Finset.subset_empty] at hsub
      · rw [write, if_neg hw]
        refine ih hone ?_
        rw [List.map_cons, List.mem_cons] at heoi
        exact heoi.resolve_left (Ne.symm hw)

/-- With nothing in service there is nothing to end. -/
theorem endOfInterrupt_idle (h : l.isr = ∅) : l.endOfInterrupt = l := by
  rw [endOfInterrupt, h, Finset.filter_empty, ← h]

/-- The interrupt with vector `v`, taken and ended. -/
theorem endOfInterrupt_accept (h : l.isr = ∅) (v : Fin 256) :
    (l.accept v).endOfInterrupt = { l with irr := l.irr.erase v } := by
  have hisr : (l.accept v).endOfInterrupt.isr = l.isr := by
    rw [endOfInterrupt_isr, h]
    rw [accept, h, insert_empty_eq, Finset.coe_singleton]
    exact Set.subsingleton_singleton
  exact congrArg (fun s => ({ l with irr := l.irr.erase v, isr := s } : Lapic)) hisr

end Lapic

end Nctuos.Lib
