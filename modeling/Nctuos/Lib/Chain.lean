import Mathlib.Data.List.Nodup
import Mathlib.Logic.Function.Basic

/-!
# Intrusive singly linked lists

A list threaded through its own elements: `next x` is the element behind `x`, or `none`
at the end.  `Chain next head l` says that following `next` from `head` visits exactly
the elements of `l`, in that order, and then stops.

A chain is determined by its head (`Chain.unique`), and a chain that stops visits no
element twice (`Chain.nodup`): from a repeated element on, both visits would go on in the
same way for ever.  So the two edits a stack makes of it need no more than that the new
element is not on the chain: `Chain.push` and `Chain.pop`.

Where an element may be pushed that is already there, the links need not come to an end.
`Path next head l stop` is a stretch of the way from `head`, up to `stop`; a chain is one
that ends in nothing.  Pushing the last element of a chain once more ties its two ends
together (`Chain.tie`), and then nothing is a chain any more (`Path.not_chain`).
-/

namespace Nctuos.Lib

universe u

variable {α : Type u}

/-- `l` is what is visited from `head` along `next`. -/
inductive Chain (next : α → Option α) : Option α → List α → Prop
  | nil : Chain next none []
  | cons {x : α} {l : List α} (tail : Chain next (next x) l) : Chain next (some x) (x :: l)

namespace Chain

variable {next next' : α → Option α} {head : Option α} {l l' : List α} {x : α}

theorem none_iff : Chain next none l ↔ l = [] := by
  constructor
  · intro h
    cases h
    rfl
  · rintro rfl
    exact .nil

theorem some_iff : Chain next (some x) l ↔ ∃ l', l = x :: l' ∧ Chain next (next x) l' := by
  constructor
  · intro h
    cases h with
    | cons tail => exact ⟨_, rfl, tail⟩
  · rintro ⟨l', rfl, tail⟩
    exact .cons tail

theorem head_eq (h : Chain next head l) : head = l.head? := by
  induction h with
  | nil => rfl
  | cons tail _ => rfl

/-- The elements behind the head of a chain. -/
theorem tail (h : Chain next head (x :: l)) : Chain next (next x) l := by
  cases h with
  | cons tail => exact tail

/-- The head determines the chain. -/
theorem unique (h : Chain next head l) (h' : Chain next head l') : l = l' := by
  induction h generalizing l' with
  | nil => exact (none_iff.mp h').symm
  | cons _ ih =>
      obtain ⟨l'', rfl, tail'⟩ := some_iff.mp h'
      rw [ih tail']

/-- A chain visited from one of its elements on. -/
theorem from_mid {l₁ l₂ : List α} (h : Chain next head (l₁ ++ x :: l₂)) :
    Chain next (some x) (x :: l₂) := by
  induction l₁ generalizing head with
  | nil =>
      rw [List.nil_append] at h
      exact .cons h.tail
  | cons y l₁ ih => exact ih h.tail

theorem nodup (h : Chain next head l) : l.Nodup := by
  induction h with
  | nil => exact List.nodup_nil
  | @cons x l tail ih =>
      refine List.nodup_cons.mpr ⟨fun hx => ?_, ih⟩
      -- a second visit of `x` would be followed by the same elements, `x` among them
      obtain ⟨l₁, l₂, hl⟩ := List.append_of_mem hx
      have hmid : Chain next (some x) (x :: l₂) := from_mid (hl ▸ tail)
      have hlen := congrArg List.length (List.cons.inj (hmid.unique (.cons tail))).2
      rw [hl, List.length_append, List.length_cons] at hlen
      omega

/-- Only the links of the elements on the chain matter. -/
theorem congr (h : Chain next head l) (heq : ∀ y ∈ l, next' y = next y) :
    Chain next' head l := by
  induction h with
  | nil => exact .nil
  | @cons y l _ ih =>
      refine .cons ?_
      rw [heq y List.mem_cons_self]
      exact ih fun z hz => heq z (List.mem_cons_of_mem y hz)

theorem push [DecidableEq α] (h : Chain next head l) (hx : x ∉ l) :
    Chain (Function.update next x head) (some x) (x :: l) := by
  refine .cons ?_
  rw [Function.update_self]
  refine h.congr fun y hy => Function.update_of_ne ?_ _ _
  rintro rfl
  exact hx hy

/-- The head taken off, whatever its link is set to. -/
theorem pop [DecidableEq α] (h : Chain next head (x :: l)) (v : Option α) :
    Chain (Function.update next x v) (next x) l := by
  refine h.tail.congr fun y hy => Function.update_of_ne ?_ _ _
  rintro rfl
  exact (List.nodup_cons.mp h.nodup).1 hy

end Chain

/-! ## Ways that need not end -/

/-- `l` is what is visited from `head` along `next` in front of `stop`. -/
inductive Path (next : α → Option α) : Option α → List α → Option α → Prop
  | nil (stop : Option α) : Path next stop [] stop
  | cons {x : α} {l : List α} {stop : Option α} (tail : Path next (next x) l stop) :
      Path next (some x) (x :: l) stop

namespace Path

variable {next next' : α → Option α} {head stop : Option α} {l k : List α} {x : α}

/-- A way up to the first element of a chain is a chain with it. -/
theorem chain (h : Path next head l stop) (hk : Chain next stop k) :
    Chain next head (l ++ k) := by
  induction h with
  | nil _ => exact hk
  | cons _ ih => exact .cons (ih hk)

theorem of_chain (h : Chain next head (l ++ x :: k)) : Path next head l (some x) := by
  induction l generalizing head with
  | nil =>
      rw [h.head_eq]
      exact .nil _
  | cons y l ih =>
      rw [h.head_eq]
      exact .cons (ih h.tail)

theorem congr (h : Path next head l stop) (heq : ∀ y ∈ l, next' y = next y) :
    Path next' head l stop := by
  induction h with
  | nil _ => exact .nil _
  | @cons y l _ _ ih =>
      refine .cons ?_
      rw [heq y List.mem_cons_self]
      exact ih fun z hz => heq z (List.mem_cons_of_mem y hz)

/-- An element on the way is the last one exactly if its link is empty. -/
theorem next_eq_none_iff (h : Path next head l (some x)) :
    next x = none ↔ ∃ k, Chain next head (k ++ [x]) := by
  constructor
  · intro hnone
    refine ⟨l, h.chain (.cons ?_)⟩
    rw [hnone]
    exact .nil
  · rintro ⟨k, hk⟩
    exact hk.from_mid.tail.head_eq

/-- From a place to which the way comes back it never ends. -/
theorem not_chain (h : Path next head l head) (hl : l ≠ []) : ¬ Chain next head k := by
  intro hk
  have hlen := congrArg List.length (hk.unique (h.chain hk))
  rw [List.length_append] at hlen
  have hpos := List.length_pos_of_ne_nil hl
  omega

end Path

/-- The last element of a chain pushed once more. -/
theorem Chain.tie [DecidableEq α] {next : α → Option α} {head : Option α} {l : List α} {x : α}
    (h : Chain next head (l ++ [x])) :
    Path (Function.update next x head) (some x) (x :: l) (some x) := by
  refine .cons ?_
  rw [Function.update_self]
  refine (Path.of_chain h).congr fun y hy => Function.update_of_ne ?_ _ _
  rintro rfl
  exact List.disjoint_of_nodup_append h.nodup hy List.mem_cons_self

end Nctuos.Lib
