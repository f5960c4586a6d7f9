import Mathlib.Data.List.Nodup
import Mathlib.Data.List.Range
import Mathlib.Logic.Function.Basic

/-!
# Loops that rewrite one array cell a turn

A loop `for i in l { f[g i] = h (f[g i]) }` whose cells `g i` are pairwise distinct
rewrites each of them once and leaves every other cell alone.
-/

namespace Nctuos.Lib

universe u v w

variable {ι : Type u} {κ : Type v} {α : Type w} [DecidableEq κ]

/-- The loop, at one cell. -/
theorem foldl_update_apply (g : ι → κ) (h : α → α) (l : List ι) (f : κ → α) (p : κ)
    (nodup : (l.map g).Nodup) :
    l.foldl (fun f i => Function.update f (g i) (h (f (g i)))) f p =
      if p ∈ l.map g then h (f p) else f p := by
  induction l generalizing f with
  | nil => simp
  | cons i l ih =>
      rw [List.map_cons, List.nodup_cons] at nodup
      rw [List.foldl_cons, ih _ nodup.2, List.map_cons]
      by_cases hp : p = g i
      · subst hp
        simp [nodup.1]
      · simp [hp]

omit [DecidableEq κ] in
/-- The first `n` cells of an array that is injective there, as a list. -/
theorem nodup_map_range {a : Nat → κ} {n : Nat}
    (inj : ∀ i j, i < n → j < n → a i = a j → i = j) :
    ((List.range n).map a).Nodup := by
  refine List.Nodup.map_on (fun i hi j hj hij => ?_) List.nodup_range
  exact inj i j (List.mem_range.mp hi) (List.mem_range.mp hj) hij

end Nctuos.Lib
