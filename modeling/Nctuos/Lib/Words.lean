import Mathlib.Data.List.Basic

/-!
# The words of a text

The maximal runs of elements that are no separators: the pieces between separators, without the
empty ones.  A text is read from its beginning, a separator at a time (`words_sep`) or a run at a
time (`words_run`).
-/

namespace Nctuos.Lib

universe u

variable {α : Type u} {sep : α → Bool} {c : α} {s w rest : List α}

def words (sep : α → Bool) (s : List α) : List (List α) := (s.splitOnP sep).filter (!·.isEmpty)

theorem words_nil : words sep [] = [] := rfl

theorem words_sep (hc : sep c) : words sep (c :: s) = words sep s := by
  rw [words, List.splitOnP_cons_eq_if_modifyHead, if_pos hc]
  rfl

/-- A run that goes up to a separator, or to the end. -/
theorem words_run (hne : w ≠ []) (hw : ∀ c ∈ w, sep c = false)
    (hrest : ∀ c more, rest = c :: more → sep c) : words sep (w ++ rest) = w :: words sep rest := by
  have hkept (l : List (List α)) : (w :: l).filter (!·.isEmpty) = w :: l.filter (!·.isEmpty) := by
    refine List.filter_cons_of_pos ?_
    rw [Bool.not_eq_true', List.isEmpty_eq_false_iff]
    exact hne
  cases rest with
  | nil =>
      rw [List.append_nil, words, List.splitOnP_eq_singleton hw, hkept]
      rfl
  | cons c more =>
      have hc := hrest c more rfl
      rw [words, List.splitOnP_append_cons_of_forall_mem hw c hc, hkept, words_sep hc]
      rfl

theorem mem_of_mem_splitOnP (hw : w ∈ s.splitOnP sep) (hc : c ∈ w) : c ∈ s := by
  induction s generalizing w with
  | nil =>
      rw [List.splitOnP_nil, List.mem_singleton] at hw
      rw [← hw]
      exact hc
  | cons x s ih =>
      rw [List.splitOnP_cons_eq_if_modifyHead] at hw
      split at hw
      · rcases List.mem_cons.mp hw with rfl | hw
        · cases hc
        · exact List.mem_cons_of_mem x (ih hw hc)
      · cases hpieces : s.splitOnP sep with
        | nil =>
            rw [hpieces] at hw
            cases hw
        | cons piece pieces =>
            rw [hpieces, List.modifyHead_cons, List.mem_cons] at hw
            rcases hw with rfl | hw
            · rcases List.mem_cons.mp hc with rfl | hc
              · exact List.mem_cons_self
              · exact List.mem_cons_of_mem x (ih (hpieces ▸ List.mem_cons_self) hc)
            · exact List.mem_cons_of_mem x (ih (hpieces ▸ List.mem_cons_of_mem piece hw) hc)

/-- The words are made of what is in the text. -/
theorem mem_of_mem_words (hw : w ∈ words sep s) (hc : c ∈ w) : c ∈ s :=
  mem_of_mem_splitOnP (List.mem_of_mem_filter hw) hc

end Nctuos.Lib
