import Nctuos.Lib.Chain

/-!
# Lists built at their tail

Code that builds a linked list in order keeps a pointer to the place where the next element
is to be hung: at first the variable that will hold the head, later the link of the element
hung last.  `Place ν α` is such a place, and a state is what all places hold.

`Seg s p l q` says that from place `p` the elements `l` are threaded and that `q` is the place
behind the last of them, whatever it holds.  Hanging an element at `q` makes the list longer by
one (`Seg.snoc`); writing what is to follow there finishes it (`Seg.close`); and a write
anywhere else does not concern it (`Seg.frame`), so that several lists may be built at once.
-/

namespace Nctuos.Lib

universe u v

/-- Where a pointer to an element is kept: in a variable or in the link of an element. -/
inductive Place (ν : Type v) (α : Type u)
  | var (x : ν)
  | link (a : α)
  deriving DecidableEq

variable {ν : Type v} {α : Type u}

/-- From place `p` the elements `l` are threaded, and `q` is the place behind the last. -/
inductive Seg (s : Place ν α → Option α) : Place ν α → List α → Place ν α → Prop
  | nil (p : Place ν α) : Seg s p [] p
  | cons {p q : Place ν α} {a : α} {l : List α} (head : s p = some a)
      (tail : Seg s (.link a) l q) : Seg s p (a :: l) q

/-- The places of a list that starts at `p`, that behind its last element included. -/
def places (p : Place ν α) (l : List α) : List (Place ν α) := p :: l.map .link

section Places

variable {p : Place ν α} {l : List α} {a : α}

theorem places_cons (p : Place ν α) (a : α) (l : List α) :
    places p (a :: l) = p :: places (.link a) l := rfl

theorem link_mem_places {x : ν} : .link a ∈ places (.var x) l ↔ a ∈ l := by
  simp [places]

theorem nodup_places {x : ν} (h : l.Nodup) : (places (.var x : Place ν α) l).Nodup := by
  refine List.nodup_cons.mpr ⟨by simp, h.map fun a b hab => ?_⟩
  cases hab
  rfl

end Places

namespace Seg

variable {s : Place ν α → Option α} {p q : Place ν α} {l : List α} {a : α}

theorem tail_mem (h : Seg s p l q) : q ∈ places p l := by
  induction h with
  | nil p => exact List.mem_cons_self
  | cons _ _ ih => exact List.mem_cons_of_mem _ ih

/-- The place in front of an element is not the one behind the last. -/
theorem ne_tail (h : Seg s (.link a) l q) (hnodup : (places p (a :: l)).Nodup) : p ≠ q := by
  rintro rfl
  exact (List.nodup_cons.mp hnodup).1 h.tail_mem

variable [DecidableEq ν] [DecidableEq α]

theorem frame {r : Place ν α} (h : Seg s p l q) (hr : r ∉ places p l) (v : Option α) :
    Seg (Function.update s r v) p l q := by
  induction h with
  | nil p => exact .nil p
  | @cons p q a l head _ ih =>
      rw [places_cons, List.mem_cons, not_or] at hr
      refine .cons ?_ (ih hr.2)
      rw [Function.update_of_ne (Ne.symm hr.1)]
      exact head

/-- An element is hung behind the last. -/
theorem snoc (h : Seg s p l q) (hnodup : (places p l).Nodup) (a : α) :
    Seg (Function.update s q (some a)) p (l ++ [a]) (.link a) := by
  induction h with
  | nil p => exact .cons (Function.update_self _ _ _) (.nil _)
  | cons head tail ih =>
      refine .cons ?_ (ih (List.nodup_cons.mp hnodup).2)
      rw [Function.update_of_ne (tail.ne_tail hnodup)]
      exact head

/-- What follows the list is written behind the last element. -/
theorem close (h : Seg s p l q) (hnodup : (places p l).Nodup) (v : Option α) :
    Path (fun a => Function.update s q v (.link a)) (Function.update s q v p) l v := by
  induction h with
  | nil p =>
      rw [Function.update_self]
      exact .nil v
  | cons head tail ih =>
      rw [Function.update_of_ne (tail.ne_tail hnodup), head]
      exact .cons (ih (List.nodup_cons.mp hnodup).2)

end Seg

end Nctuos.Lib
