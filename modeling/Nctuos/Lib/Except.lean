import Mathlib.Logic.Basic

/-!
# Peeling computations that may stop

A kernel routine that can panic or fault is a computation in `Except`.  A
successful computation is taken apart one bind at a time: `bind_ok_iff` turns
`x >>= f = .ok b` into the intermediate result and the rest.  One that stops has stopped
at a first place (`bind_error_iff`).  A loop over a list is a `foldlM`, and
`foldlM_ok_induction` is its invariant rule.
-/

namespace Nctuos.Lib

universe u v w

variable {ε : Type u} {α β : Type v}

@[simp] theorem bind_ok_iff {x : Except ε α} {f : α → Except ε β} {b : β} :
    (x >>= f) = .ok b ↔ ∃ a, x = .ok a ∧ f a = .ok b := by
  cases x with
  | error e => simp [bind, Except.bind]
  | ok a => simp [bind, Except.bind]

theorem bind_error_iff {x : Except ε α} {f : α → Except ε β} {e : ε} :
    (x >>= f) = .error e ↔ x = .error e ∨ ∃ a, x = .ok a ∧ f a = .error e := by
  cases x with
  | error e' => simp [bind, Except.bind]
  | ok a => simp [bind, Except.bind]

theorem ok_ne_error (a : α) (e : ε) : (.ok a : Except ε α) ≠ .error e := by
  intro h
  cases h

/-- A computation with one way to stop returns unless it stops. -/
theorem ne_error_iff {x : Except ε α} {e : ε} (h : (∃ a, x = .ok a) ∨ x = .error e) :
    x ≠ .error e ↔ ∃ a, x = .ok a := by
  refine ⟨h.resolve_right, ?_⟩
  rintro ⟨a, rfl⟩
  exact ok_ne_error a e

@[simp] theorem ok_bind (a : α) (f : α → Except ε β) : (Except.ok a >>= f) = f a := rfl

@[simp] theorem error_bind (e : ε) (f : α → Except ε β) :
    ((Except.error e : Except ε α) >>= f) = .error e := rfl

/-- The invariant rule for a loop that may stop.  It may speak of the turns made so far. -/
theorem foldlM_ok_induction {ι : Type w} {f : α → ι → Except ε α} {P : List ι → α → Prop}
    {l : List ι} {a r : α} (hinit : P [] a)
    (hstep : ∀ done a i a', P done a → f a i = .ok a' → P (done ++ [i]) a')
    (h : l.foldlM f a = .ok r) : P l r := by
  suffices hrest : ∀ done a, P done a → l.foldlM f a = .ok r → P (done ++ l) r from
    hrest [] a hinit h
  clear h hinit
  induction l with
  | nil =>
      intro done a hP h
      cases h
      rwa [List.append_nil]
  | cons i l ih =>
      intro done a hP h
      rw [List.foldlM_cons, bind_ok_iff] at h
      obtain ⟨a', hturn, h⟩ := h
      rw [List.append_cons]
      exact ih _ a' (hstep done a i a' hP hturn) h

end Nctuos.Lib
