import Nctuos.Lib.Except

/-!
# Computations that return

`Yields x P` is total correctness in `Except`: `x` returns, and what it returns satisfies `P`.  A
long straight-line computation is gone through with `Yields.bind`, one step at a time, where the
postcondition of a step is what the rest knows of its result.
-/

namespace Nctuos.Lib

universe u v

variable {ε : Type u} {α β : Type v}

/-- The computation returns, with a result that satisfies `P`. -/
def Yields (x : Except ε α) (P : α → Prop) : Prop := ∃ a, x = .ok a ∧ P a

namespace Yields

variable {x : Except ε α} {f : α → Except ε β} {P Q : α → Prop} {R : β → Prop} {a : α}

theorem ok (h : P a) : Yields (.ok a : Except ε α) P := ⟨a, rfl, h⟩

theorem of_eq (hx : x = .ok a) (h : P a) : Yields x P := ⟨a, hx, h⟩

theorem bind (hx : Yields x P) (hf : ∀ a, P a → Yields (f a) R) : Yields (x >>= f) R := by
  obtain ⟨a, rfl, ha⟩ := hx
  exact hf a ha

theorem mono (hx : Yields x P) (h : ∀ a, P a → Q a) : Yields x Q := by
  obtain ⟨a, hx, ha⟩ := hx
  exact ⟨a, hx, h a ha⟩

end Yields

end Nctuos.Lib
