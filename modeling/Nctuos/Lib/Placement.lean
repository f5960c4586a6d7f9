import Mathlib.Data.Nat.Basic

/-!
# Placing pieces one behind the other

What a linker does with the contributions to an output section: each piece is put at the
next address its alignment allows.  `place loc ps` is the address behind the last of the
pieces `ps` placed from `loc` on, and `Covers loc ps a` says that address `a` belongs to one
of them (and not to the padding between two).

No piece reaches out of the addresses between the two ends (`Covers.bounds`).
-/

namespace Nctuos.Lib

/-- A contribution to a section. -/
structure Piece where
  size : Nat
  align : Nat
  deriving DecidableEq

/-- The first address from `a` on that is a multiple of `n`. -/
def alignUp (a n : Nat) : Nat := a + (n - a % n) % n

/-- The address behind the pieces. -/
def place : Nat → List Piece → Nat
  | loc, [] => loc
  | loc, p :: ps => place (alignUp loc p.align + p.size) ps

/-- Address `a` is in one of the pieces. -/
def Covers : Nat → List Piece → Nat → Prop
  | _, [], _ => False
  | loc, p :: ps, a =>
      (alignUp loc p.align ≤ a ∧ a < alignUp loc p.align + p.size) ∨
        Covers (alignUp loc p.align + p.size) ps a

instance decidableCovers : (loc : Nat) → (ps : List Piece) → (a : Nat) → Decidable (Covers loc ps a)
  | _, [], _ => inferInstanceAs (Decidable False)
  | loc, p :: ps, a =>
      have := decidableCovers (alignUp loc p.align + p.size) ps a
      inferInstanceAs (Decidable (_ ∨ _))

/-- The alignment of a section: the strictest among its pieces. -/
def maxAlign (ps : List Piece) : Nat := ps.foldr (fun p n => max p.align n) 1

section Align

variable {a n : Nat}

theorem le_alignUp (a n : Nat) : a ≤ alignUp a n := Nat.le_add_right _ _

theorem alignUp_of_dvd (h : n ∣ a) : alignUp a n = a := by
  rw [alignUp, Nat.mod_eq_zero_of_dvd h, Nat.sub_zero, Nat.mod_self, Nat.add_zero]

end Align

section Place

variable {ps qs : List Piece} {loc a : Nat}

theorem le_place (ps : List Piece) (loc : Nat) : loc ≤ place loc ps := by
  induction ps generalizing loc with
  | nil => exact le_rfl
  | cons p ps ih =>
      calc loc ≤ alignUp loc p.align := le_alignUp _ _
        _ ≤ alignUp loc p.align + p.size := Nat.le_add_right _ _
        _ ≤ place loc (p :: ps) := ih _

theorem Covers.bounds (h : Covers loc ps a) : loc ≤ a ∧ a < place loc ps := by
  induction ps generalizing loc with
  | nil => exact h.elim
  | cons p ps ih =>
      have hle := le_alignUp loc p.align
      rcases h with ⟨hge, hlt⟩ | h
      · exact ⟨Nat.le_trans hle hge, Nat.lt_of_lt_of_le hlt (le_place ps _)⟩
      · obtain ⟨hge, hlt⟩ := ih h
        exact ⟨by omega, hlt⟩

/-- Only pieces without a byte cover nothing. -/
theorem exists_covers_iff : (∃ a, Covers loc ps a) ↔ ∃ p ∈ ps, p.size ≠ 0 := by
  induction ps generalizing loc with
  | nil => simp [Covers]
  | cons p ps ih =>
      constructor
      · rintro ⟨a, ⟨hge, hlt⟩ | h⟩
        · exact ⟨p, List.mem_cons_self, by omega⟩
        · obtain ⟨q, hq, hsize⟩ := ih.mp ⟨a, h⟩
          exact ⟨q, List.mem_cons_of_mem p hq, hsize⟩
      · rintro ⟨q, hq, hsize⟩
        rcases List.mem_cons.mp hq with rfl | hq
        · exact ⟨alignUp loc q.align, Or.inl ⟨le_rfl, by omega⟩⟩
        · obtain ⟨a, h⟩ := ih.mpr ⟨q, hq, hsize⟩
          exact ⟨a, Or.inr h⟩

/-- A multiple of all alignments is one of the strictest, as that is one of them. -/
theorem maxAlign_dvd {n : Nat} (h : ∀ p ∈ ps, p.align ∣ n) : maxAlign ps ∣ n := by
  induction ps with
  | nil => exact Nat.one_dvd n
  | cons p ps ih =>
      have hrest := ih fun q hq => h q (List.mem_cons_of_mem p hq)
      change max p.align (maxAlign ps) ∣ n
      rcases Nat.le_total p.align (maxAlign ps) with hle | hle
      · rw [Nat.max_eq_right hle]
        exact hrest
      · rw [Nat.max_eq_left hle]
        exact h p List.mem_cons_self

end Place

end Nctuos.Lib
