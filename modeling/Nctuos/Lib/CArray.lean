import Mathlib.Logic.Function.Basic
import Mathlib.Data.List.OfFn
import Mathlib.Data.List.TakeWhile

/-!
# Arrays with bounds

An array of `n` elements, with loads and stores that are defined inside of it only.  What an array
holds is said with lists: `At a p l` is that the elements from index `p` on begin with `l`.  A store
at another place leaves such a list alone (`At.congr`), and a list that is at index 0 and ends with an
element that is not in it otherwise is the array up to that element (`upTo_eq`).
-/

namespace Nctuos.Lib

universe u

structure CArray (α : Type u) (n : Nat) where
  cell : Fin n → α

namespace CArray

variable {α : Type u} {n p i j : Nat} {a a' : CArray α n} {x y : α} {l l' : List α}

def fill (n : Nat) (x : α) : CArray α n := ⟨fun _ => x⟩

def get? (a : CArray α n) (i : Nat) : Option α := if h : i < n then some (a.cell ⟨i, h⟩) else none

def set? (a : CArray α n) (i : Nat) (x : α) : Option (CArray α n) :=
  if h : i < n then some ⟨Function.update a.cell ⟨i, h⟩ x⟩ else none

theorem get?_of_lt (h : i < n) : a.get? i = some (a.cell ⟨i, h⟩) := dif_pos h

theorem lt_of_get? (h : a.get? i = some x) : i < n := by
  by_contra hge
  rw [get?, dif_neg hge] at h
  cases h

/-- A store inside of the array, and what is loaded afterwards. -/
theorem exists_set (a : CArray α n) (x : α) (h : i < n) :
    ∃ a', a.set? i x = some a' ∧ ∀ j, a'.get? j = if j = i then some x else a.get? j := by
  refine ⟨_, dif_pos h, fun j => ?_⟩
  split
  · rename_i heq
    subst heq
    rw [get?_of_lt h]
    exact congrArg some (Function.update_self ..)
  · rename_i hne
    rw [get?, get?]
    split
    · rename_i hj
      have hne' : (⟨j, hj⟩ : Fin n) ≠ ⟨i, h⟩ := fun heq => hne (congrArg Fin.val heq)
      exact congrArg some (Function.update_of_ne hne' ..)
    · rfl

/-! ## Lists in arrays -/

/-- The elements from index `p` on begin with the list. -/
def At (a : CArray α n) : Nat → List α → Prop
  | _, [] => True
  | p, x :: l => a.get? p = some x ∧ At a (p + 1) l

theorem at_append : At a p (l ++ l') ↔ At a p l ∧ At a (p + l.length) l' := by
  induction l generalizing p with
  | nil => exact (and_iff_right trivial).symm
  | cons x l ih =>
      rw [List.cons_append, At, ih, At, and_assoc, List.length_cons, Nat.add_assoc, Nat.add_comm 1]

theorem at_concat : At a p (l ++ [x]) ↔ At a p l ∧ a.get? (p + l.length) = some x := by
  rw [at_append, At, At, and_iff_left trivial]

theorem at_iff : At a p l ↔ ∀ i (h : i < l.length), a.get? (p + i) = some l[i] := by
  induction l generalizing p with
  | nil => exact iff_of_true trivial fun i hi => absurd hi (Nat.not_lt_zero i)
  | cons x l ih =>
      rw [At, ih]
      constructor
      · rintro ⟨hx, hl⟩ i hi
        cases i with
        | zero => exact hx
        | succ i =>
            have := hl i (Nat.lt_of_succ_lt_succ hi)
            rw [Nat.add_assoc, Nat.add_comm 1] at this
            exact this
      · intro h
        refine ⟨h 0 (Nat.succ_pos _), fun i hi => ?_⟩
        have := h (i + 1) (Nat.succ_lt_succ hi)
        rw [Nat.add_assoc, Nat.add_comm 1]
        exact this

theorem At.lt (h : At a p (l ++ [x])) : p + l.length < n := lt_of_get? (at_concat.mp h).2

theorem At.exists_cell (h : At a p (l ++ [x])) : ∃ k : Fin n, a.cell k = x := by
  have hx := (at_concat.mp h).2
  rw [get?_of_lt h.lt] at hx
  exact ⟨_, Option.some.inj hx⟩

/-- What is loaded in the range of the list decides. -/
theorem At.congr (h : At a p l) (hget : ∀ j, p ≤ j → j < p + l.length → a'.get? j = a.get? j) :
    At a' p l := by
  induction l generalizing p with
  | nil => trivial
  | cons x l ih =>
      rw [List.length_cons] at hget
      exact ⟨(hget p le_rfl (by omega)).trans h.1,
        ih h.2 fun j hj hj' => hget j (by omega) (by omega)⟩

/-! ## From the beginning -/

theorem getElem?_ofFn (a : CArray α n) (i : Nat) : (List.ofFn a.cell)[i]? = a.get? i := by
  rw [List.getElem?_ofFn]
  rfl

theorem at_zero_iff : At a 0 l ↔ l <+: List.ofFn a.cell := by
  rw [List.prefix_iff_getElem?, at_iff]
  simp only [Nat.zero_add, getElem?_ofFn]

/-- The first elements. -/
theorem At.take_ofFn (h : At a 0 l) : (List.ofFn a.cell).take l.length = l :=
  (List.prefix_iff_eq_take.mp (at_zero_iff.mp h)).symm

/-- The elements in front of the first `z`. -/
def upTo [DecidableEq α] (z : α) (a : CArray α n) : List α := (List.ofFn a.cell).takeWhile (· ≠ z)

theorem upTo_eq [DecidableEq α] {z : α} (h : At a 0 (l ++ [z])) (hl : z ∉ l) : a.upTo z = l := by
  obtain ⟨rest, hrest⟩ := at_zero_iff.mp h
  rw [upTo, ← hrest, List.append_assoc, List.takeWhile_append_of_pos]
  · rw [List.singleton_append, List.takeWhile_cons_of_neg (by simp), List.append_nil]
  · intro x hx
    simpa using fun heq : x = z => hl (heq ▸ hx)

/-- If there is a `z`, then the elements in front of it are followed by it. -/
theorem at_upTo [DecidableEq α] {z : α} {k : Fin n} (h : a.cell k = z) :
    At a 0 (a.upTo z ++ [z]) ∧ z ∉ a.upTo z := by
  have hnot : z ∉ a.upTo z := fun hz => by simpa using List.mem_takeWhile_imp hz
  refine ⟨at_concat.mpr ⟨at_zero_iff.mpr (List.takeWhile_prefix _), ?_⟩, hnot⟩
  -- what `takeWhile` leaves begins with `z`
  have hsplit : a.upTo z ++ (List.ofFn a.cell).dropWhile (· ≠ z) = List.ofFn a.cell :=
    List.takeWhile_append_dropWhile
  cases hdrop : (List.ofFn a.cell).dropWhile (· ≠ z) with
  | nil =>
      rw [hdrop, List.append_nil] at hsplit
      exact absurd (hsplit ▸ List.mem_ofFn.mpr ⟨k, h⟩) hnot
  | cons x rest =>
      have hx : x = z := by
        have hne : (List.ofFn a.cell).dropWhile (· ≠ z) ≠ [] := by
          rw [hdrop]
          exact List.cons_ne_nil x rest
        have hhead := List.head_dropWhile_not (· ≠ z) hne
        simp only [hdrop, List.head_cons] at hhead
        simpa using hhead
      rw [Nat.zero_add, ← getElem?_ofFn, ← hsplit, hdrop, List.getElem?_append_right le_rfl,
        Nat.sub_self, hx]
      rfl

end CArray

end Nctuos.Lib
