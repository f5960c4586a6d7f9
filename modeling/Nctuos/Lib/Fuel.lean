import Mathlib.Logic.Basic

/-!
# Enough fuel

A loop that nobody has bounded is modelled as a function of the turns it may take.  `Settles g r`
says that it needs only so many: with that fuel, or any more, the result is `r`.  A turn that costs
one unit is passed over by `Settles.step`, and one that makes a call by `Settles.call`.
-/

namespace Nctuos.Lib

universe u v

variable {ε : Type u} {α β : Type v}

/-- From some fuel on the result is `r`. -/
def Settles (g : Nat → α) (r : α) : Prop := ∃ n, ∀ m, n ≤ m → g m = r

namespace Settles

variable {g g' : Nat → α} {r : α}

/-- The last turn. -/
theorem last (hlast : ∀ n, g (n + 1) = r) : Settles g r := by
  refine ⟨1, fun m hm => ?_⟩
  obtain ⟨n, rfl⟩ := Nat.exists_eq_succ_of_ne_zero (Nat.one_le_iff_ne_zero.mp hm)
  exact hlast n

/-- One turn, and then the rest. -/
theorem step (h : Settles g' r) (hstep : ∀ n, g (n + 1) = g' n) : Settles g r := by
  obtain ⟨n, hn⟩ := h
  refine ⟨n + 1, fun m hm => ?_⟩
  obtain ⟨k, rfl⟩ := Nat.exists_eq_succ_of_ne_zero (Nat.ne_of_gt (Nat.lt_of_lt_of_le n.succ_pos hm))
  exact (hstep k).trans (hn k (Nat.le_of_succ_le_succ hm))

/-- A call, whose result the rest goes on with. -/
theorem bind {callee : Nat → Except ε α} {rest : α → Nat → Except ε β} {a : α} {r : Except ε β}
    (hcall : Settles callee (.ok a)) (hrest : Settles (rest a) r) :
    Settles (fun n => callee n >>= fun b => rest b n) r := by
  obtain ⟨n, hn⟩ := hcall
  obtain ⟨n', hn'⟩ := hrest
  refine ⟨max n n', fun m hm => ?_⟩
  dsimp only
  rw [hn m (Nat.le_trans (Nat.le_max_left n n') hm)]
  exact hn' m (Nat.le_trans (Nat.le_max_right n n') hm)

/-- What comes after a call must settle as well. -/
theorem of_bind {callee : Nat → Except ε α} {rest : α → Nat → Except ε β} {a : α} {r : Except ε β}
    (hcall : Settles callee (.ok a)) (h : Settles (fun n => callee n >>= fun b => rest b n) r) :
    Settles (rest a) r := by
  obtain ⟨n, hn⟩ := hcall
  obtain ⟨n', hn'⟩ := h
  refine ⟨max n n', fun m hm => ?_⟩
  have hm' := hn' m (Nat.le_trans (Nat.le_max_right n n') hm)
  dsimp only at hm'
  rw [hn m (Nat.le_trans (Nat.le_max_left n n') hm)] at hm'
  exact hm'

/-- One turn with a call in it. -/
theorem call {g : Nat → Except ε β} {callee : Nat → Except ε α} {rest : α → Nat → Except ε β} {a : α}
    {r : Except ε β} (hcall : Settles callee (.ok a)) (hrest : Settles (rest a) r)
    (hstep : ∀ n, g (n + 1) = callee n >>= fun b => rest b n) : Settles g r :=
  step (bind hcall hrest) hstep

/-- One turn with a call in it, behind which nothing is left to run. -/
theorem callLast {g : Nat → Except ε β} {callee : Nat → Except ε α} {rest : α → Except ε β} {a : α}
    {r : Except ε β} (hcall : Settles callee (.ok a)) (hstep : ∀ n, g (n + 1) = callee n >>= rest)
    (hrest : rest a = r) : Settles g r :=
  @call ε α β g callee (fun b _ => rest b) a r hcall ⟨0, fun _ _ => hrest⟩ hstep

/-- The turns behind the first one. -/
theorem of_step (h : Settles g r) (hstep : ∀ n, g (n + 1) = g' n) : Settles g' r := by
  obtain ⟨n, hn⟩ := h
  exact ⟨n, fun m hm => (hstep m).symm.trans (hn (m + 1) (Nat.le_succ_of_le hm))⟩

theorem unique {r' : α} (h : Settles g r) (h' : Settles g r') : r = r' := by
  obtain ⟨n, hn⟩ := h
  obtain ⟨n', hn'⟩ := h'
  exact (hn _ (Nat.le_max_left n n')).symm.trans (hn' _ (Nat.le_max_right n n'))

end Settles

end Nctuos.Lib
