import Mathlib.Data.List.Induction

/-!
# Layers over a memory

A memory over which layers are put one after the other.  Each layer covers some of the cells and
gives them values of its own.  In the end a cell has the value of the last layer that covers it
(`overlay_of_last`), and its old one if there is none (`overlay_apply`).
-/

namespace Nctuos.Lib

universe u v w

variable {L : Type u} {A : Type v} {V : Type w}
  (covers : L → A → Prop) [∀ l a, Decidable (covers l a)] (value : L → A → V)

def lay (m : A → V) (l : L) : A → V := fun a => if covers l a then value l a else m a

def overlay (m : A → V) (ls : List L) : A → V := ls.foldl (lay covers value) m

/-- The last of the layers that covers the cell. -/
def lastCover (ls : List L) (a : A) : Option L := ls.reverse.find? fun l => covers l a

variable {covers value} {m : A → V} {ls : List L} {l : L} {a : A}

theorem overlay_apply :
    overlay covers value m ls a = ((lastCover covers ls a).map (value · a)).getD (m a) := by
  induction ls using List.reverseRecOn with
  | nil => rfl
  | append_singleton ls l ih =>
      rw [overlay, List.foldl_append, List.foldl_cons, List.foldl_nil, lay, lastCover,
        List.reverse_append, List.reverse_singleton, List.singleton_append, List.find?_cons]
      by_cases hl : covers l a
      · rw [if_pos hl, decide_eq_true hl]
        rfl
      · rw [if_neg hl, decide_eq_false hl]
        exact ih

/-- A cell that one of the layers covers has a last one. -/
theorem exists_lastCover (hl : l ∈ ls) (hcovers : covers l a) :
    ∃ l', lastCover covers ls a = some l' := by
  refine Option.isSome_iff_exists.mp (List.find?_isSome.mpr ⟨l, List.mem_reverse.mpr hl, ?_⟩)
  exact decide_eq_true hcovers

/-- A layer that covers the cell is the last one to do so, or is in front of it. -/
theorem eq_or_mem_before {l' : L} (hl : l ∈ ls) (hcovers : covers l a)
    (h : lastCover covers ls a = some l') :
    covers l' a ∧ ∃ before after, ls = before ++ l' :: after ∧ (l = l' ∨ l ∈ before) := by
  obtain ⟨hl', as, bs, hsplit, hnone⟩ := List.find?_eq_some_iff_append.mp h
  have hls : ls = bs.reverse ++ l' :: as.reverse := by
    rw [← List.reverse_reverse ls, hsplit, List.reverse_append, List.reverse_cons, List.append_assoc,
      List.singleton_append]
  refine ⟨of_decide_eq_true hl', bs.reverse, as.reverse, hls, ?_⟩
  rw [hls, List.mem_append, List.mem_cons] at hl
  rcases hl with hl | rfl | hl
  · exact Or.inr hl
  · exact Or.inl rfl
  · -- none of the layers behind the last one covers the cell
    have hnot := hnone l (List.mem_reverse.mp hl)
    simp [hcovers] at hnot

theorem overlay_of_last (h : lastCover covers ls a = some l) :
    overlay covers value m ls a = value l a := by
  rw [overlay_apply, h]
  rfl

end Nctuos.Lib
