import Mathlib.Data.Set.Insert
import Mathlib.Logic.Function.Basic
import Mathlib.Data.List.Nodup
import Mathlib.Data.List.Range

/-!
# Array prefixes that list a set

`Lists a n s` says that the first `n` cells of the array `a` hold each element of `s`
once and nothing else.  An append and a swap-removal keep such a list, and writes
beyond the prefix do not matter.
-/

namespace Nctuos.Lib

universe u

variable {α : Type u} {a a' : Nat → α} {n i : Nat} {s t : Set α} {x : α}

/-- The first `n` cells of `a` list the set `s` without repetition. -/
structure Lists (a : Nat → α) (n : Nat) (s : Set α) : Prop where
  inj : ∀ i j, i < n → j < n → a i = a j → i = j
  mem_iff : ∀ x, x ∈ s ↔ ∃ i, i < n ∧ a i = x

namespace Lists

theorem congr_set (h : Lists a n s) (hst : ∀ x, x ∈ t ↔ x ∈ s) : Lists a n t :=
  ⟨h.inj, fun x => (hst x).trans (h.mem_iff x)⟩

theorem congr_below (h : Lists a n s) (ha : ∀ i, i < n → a' i = a i) : Lists a' n s where
  inj i j hi hj heq := h.inj i j hi hj (by rwa [ha i hi, ha j hj] at heq)
  mem_iff x := by
    rw [h.mem_iff]
    constructor
    · rintro ⟨i, hi, rfl⟩
      exact ⟨i, hi, ha i hi⟩
    · rintro ⟨i, hi, rfl⟩
      exact ⟨i, hi, (ha i hi).symm⟩

/-- One more cell, holding a new element. -/
theorem push (h : Lists a n s) (hn : a n = x) (hx : x ∉ s) : Lists a (n + 1) (insert x s) where
  inj i j hi hj heq := by
    have hout : ∀ k, k < n → a k ≠ x := fun k hk hkx => hx ((h.mem_iff x).mpr ⟨k, hk, hkx⟩)
    rcases Nat.lt_succ_iff_lt_or_eq.mp hi with hi | rfl <;>
      rcases Nat.lt_succ_iff_lt_or_eq.mp hj with hj | rfl
    · exact h.inj i j hi hj heq
    · exact absurd (heq.trans hn) (hout i hi)
    · exact absurd (heq.symm.trans hn) (hout j hj)
    · rfl
  mem_iff y := by
    rw [Set.mem_insert_iff, h.mem_iff]
    constructor
    · rintro (rfl | ⟨i, hi, rfl⟩)
      · exact ⟨n, Nat.lt_succ_self n, hn⟩
      · exact ⟨i, Nat.lt_succ_of_lt hi, rfl⟩
    · rintro ⟨i, hi, rfl⟩
      rcases Nat.lt_succ_iff_lt_or_eq.mp hi with hi | rfl
      · exact Or.inr ⟨i, hi, rfl⟩
      · exact Or.inl hn

/-- The last cell moved to the place of cell `i`, and the prefix one cell shorter. -/
theorem swapRemove (h : Lists a (n + 1) s) (hi : i < n + 1) :
    Lists (Function.update a i (a n)) n (s \ {a i}) where
  inj j k hj hk heq := by
    by_cases hji : j = i <;> by_cases hki : k = i
    · rw [hji, hki]
    · subst hji
      rw [Function.update_self, Function.update_of_ne hki] at heq
      have := h.inj n k (Nat.lt_succ_self n) (Nat.lt_succ_of_lt hk) heq
      omega
    · subst hki
      rw [Function.update_self, Function.update_of_ne hji] at heq
      have := h.inj j n (Nat.lt_succ_of_lt hj) (Nat.lt_succ_self n) heq
      omega
    · rw [Function.update_of_ne hji, Function.update_of_ne hki] at heq
      exact h.inj j k (Nat.lt_succ_of_lt hj) (Nat.lt_succ_of_lt hk) heq
  mem_iff y := by
    rw [Set.mem_sdiff, Set.mem_singleton_iff, h.mem_iff]
    constructor
    · rintro ⟨⟨j, hj, rfl⟩, hne⟩
      have hji : j ≠ i := fun hji => hne (by rw [hji])
      -- the last cell is found in its new place, every other one where it was
      by_cases hlast : j = n
      · subst hlast
        exact ⟨i, by omega, Function.update_self i _ _⟩
      · exact ⟨j, by omega, Function.update_of_ne hji _ _⟩
    · rintro ⟨j, hj, rfl⟩
      by_cases hji : j = i
      · subst hji
        rw [Function.update_self]
        refine ⟨⟨n, Nat.lt_succ_self n, rfl⟩, fun heq => ?_⟩
        have := h.inj n j (Nat.lt_succ_self n) hi heq
        omega
      · rw [Function.update_of_ne hji]
        refine ⟨⟨j, Nat.lt_succ_of_lt hj, rfl⟩, fun heq => hji ?_⟩
        exact h.inj j i (Nat.lt_succ_of_lt hj) hi heq

/-- How often an element stands in the prefix. -/
theorem count_eq [DecidableEq α] [DecidablePred (· ∈ s)] (h : Lists a n s) (x : α) :
    ((List.range n).map a).count x = if x ∈ s then 1 else 0 := by
  have hnodup : ((List.range n).map a).Nodup :=
    List.Nodup.map_on (fun i hi j hj => h.inj i j (List.mem_range.mp hi) (List.mem_range.mp hj))
      List.nodup_range
  have hmem : x ∈ (List.range n).map a ↔ x ∈ s := by
    rw [h.mem_iff]
    simp
  split
  · rename_i hx
    exact List.count_eq_one_of_mem hnodup (hmem.mpr hx)
  · rename_i hx
    exact List.count_eq_zero.mpr fun hx' => hx (hmem.mp hx')

end Lists

end Nctuos.Lib
