import Mathlib.Data.List.Nodup
import Mathlib.Data.List.Perm.Basic
import Mathlib.Logic.Function.Basic

/-!
# Items at places

Items are handed from place to place and are never in two.  `held a` lists the items at place `a`,
and `whose` says where an item is, if it is anywhere.  That no item is at two places is then the
uniqueness of `whose`, and handing an item over changes `whose` in one point (`Holdings.move`).
-/

namespace Nctuos.Lib

universe u v

variable {A : Type u} {P : Type v}

/-- `held` and `whose` say the same. -/
structure Holdings (held : A → List P) (whose : P → Option A) : Prop where
  nodup : ∀ a, (held a).Nodup
  mem : ∀ a p, p ∈ held a ↔ whose p = some a

namespace Holdings

variable {held held' : A → List P} {whose : P → Option A} {a b : A} {p : P}

/-- An item is at one place. -/
theorem unique (h : Holdings held whose) (ha : p ∈ held a) (hb : p ∈ held b) : a = b :=
  Option.some.inj (((h.mem a p).mp ha).symm.trans ((h.mem b p).mp hb))

/-- The order at a place does not matter. -/
theorem perm (h : Holdings held whose) (hperm : ∀ a, (held' a).Perm (held a)) :
    Holdings held' whose :=
  ⟨fun a => (hperm a).nodup_iff.mpr (h.nodup a), fun a p => (hperm a).mem_iff.trans (h.mem a p)⟩

/-- An item is handed over. -/
theorem move [DecidableEq P] (h : Holdings held whose) (hab : a ≠ b)
    (hfrom : (held a).Perm (p :: held' a)) (hto : (held' b).Perm (p :: held b))
    (hothers : ∀ x, x ≠ a → x ≠ b → held' x = held x) :
    Holdings held' (Function.update whose p (some b)) := by
  have hpa : p ∈ held a := hfrom.mem_iff.mpr List.mem_cons_self
  have hnodup := List.nodup_cons.mp (hfrom.nodup_iff.mp (h.nodup a))
  have hpb : p ∉ held b := fun hpb => hab (h.unique hpa hpb)
  refine ⟨fun x => ?_, fun x q => ?_⟩
  · by_cases hxa : x = a
    · rw [hxa]
      exact hnodup.2
    · by_cases hxb : x = b
      · rw [hxb]
        exact hto.nodup_iff.mpr (List.nodup_cons.mpr ⟨hpb, h.nodup b⟩)
      · rw [hothers x hxa hxb]
        exact h.nodup x
  · by_cases hq : q = p
    · subst hq
      rw [Function.update_self, Option.some.injEq]
      by_cases hxb : x = b
      · rw [hxb]
        exact iff_of_true (hto.mem_iff.mpr List.mem_cons_self) rfl
      · refine iff_of_false (fun hx => ?_) (fun hbx => hxb hbx.symm)
        by_cases hxa : x = a
        · exact hnodup.1 (hxa ▸ hx)
        · rw [hothers x hxa hxb] at hx
          exact hxa (h.unique hx hpa)
    · rw [Function.update_of_ne hq, ← h.mem x q]
      by_cases hxb : x = b
      · rw [hxb, hto.mem_iff, List.mem_cons, or_iff_right hq]
      · by_cases hxa : x = a
        · rw [hxa, hfrom.mem_iff, List.mem_cons, or_iff_right hq]
        · rw [hothers x hxa hxb]

end Holdings

end Nctuos.Lib
