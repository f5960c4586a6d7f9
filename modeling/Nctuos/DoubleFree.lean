import Nctuos.PageMap
import Nctuos.Lib.Run

/-!
# Freeing a page twice

`page_free` is to be called for a page that is in use.  It notices a page that is on
`page_free_list` already by its `pp_link`, which it expects to be NULL; but the last page of
the list has nothing behind it and so a NULL `pp_link` of its own.  Freed once more, it is
linked to the head of the list and becomes the head, and the list has no end any more.

The states are those that any calls of `page_alloc` and `page_free` lead to from what
`page_init` leaves, whatever pages they are made with, so the list may already be without an
end.  A page is on the list if the links lead to it (`Listed`), and it is the last page if the
list ends with it (`EndsAt`).  Neither function touches `pp_ref`: along such runs it is zero
everywhere, and the test of `pp_link` is all that is left (`double_free_caught_iff`).
-/

namespace Nctuos

open Lib

/-! ## The calls -/

inductive AllocOp
  | alloc (zero : Bool)
  | free (pp : Nat)

namespace AllocOp

variable (c : Config)

/-- The call carried out. -/
def run : AllocOp → Mem → Except Stop Mem
  | alloc zero, m => do
      let r ← pageAlloc c zero m
      .ok r.2
  | free pp, m => pageFree pp m

/-- A call that returns; the argument of `page_free` is one of `pages`. -/
def Step (m : Mem) (op : AllocOp) (m' : Mem) : Prop :=
  (∀ pp, op = free pp → pp < c.npages) ∧ op.run c m = .ok m'

end AllocOp

/-! ## Positions on the list -/

/-- Following `pp_link` from `page_free_list` leads to page `q`. -/
def Listed (m : Mem) (q : Nat) : Prop := ∃ l, Path m.link m.pageFreeList l (some q)

/-- The list ends, and `q` is its last page. -/
def EndsAt (m : Mem) (q : Nat) : Prop := ∃ l, Chain m.link m.pageFreeList (l ++ [q])

theorem Listed.link_eq_none_iff {m : Mem} {q : Nat} (h : Listed m q) :
    m.link q = none ↔ EndsAt m q := by
  obtain ⟨l, hpath⟩ := h
  exact hpath.next_eq_none_iff

/-! ## Nothing is referenced -/

section Runs

variable {c : Config} {m m' : Mem} {ram : Nat → Idx → Nat} {op : AllocOp} {ops : List AllocOp}
  {q : Nat}

theorem pageAlloc_ref {zero : Bool} {r : Option Nat × Mem} (h : pageAlloc c zero m = .ok r)
    (p : Nat) : (r.2.pages p).ppRef = (m.pages p).ppRef := by
  cases hhead : m.pageFreeList with
  | none =>
      rw [pageAlloc_none hhead] at h
      obtain rfl := Except.ok.inj h
      rfl
  | some pp =>
      have hpages : r.2.pages = Function.update m.pages pp ⟨none, (m.pages pp).ppRef⟩ := by
        cases zero with
        | false =>
            simp only [pageAlloc, hhead] at h
            obtain rfl := Except.ok.inj h
            rfl
        | true =>
            simp only [pageAlloc, hhead, if_true, bind_ok_iff] at h
            obtain ⟨kva, -, m₁, hm₁, hr⟩ := h
            obtain rfl := Except.ok.inj hm₁
            obtain rfl := Except.ok.inj hr
            rfl
      rw [hpages]
      by_cases hp : p = pp
      · subst hp
        rw [Function.update_self]
      · rw [Function.update_of_ne hp]

/-- `page_free` returns exactly for a page without references and without a link. -/
theorem pageFree_ok_iff {pp : Nat} :
    pageFree pp m = .ok m' ↔ (m.pages pp).ppRef = 0 ∧ m.link pp = none ∧ m' = m.give pp := by
  constructor
  · intro h
    by_cases href : (m.pages pp).ppRef = 0
    · by_cases hlink : m.link pp = none
      · rw [pageFree_eq href hlink] at h
        exact ⟨href, hlink, (Except.ok.inj h).symm⟩
      · rw [Mem.link] at hlink
        simp [pageFree, href, hlink] at h
    · simp [pageFree, href] at h
  · rintro ⟨href, hlink, rfl⟩
    exact pageFree_eq href hlink

theorem AllocOp.Step.ref (h : op.Step c m m') (p : Nat) :
    (m'.pages p).ppRef = (m.pages p).ppRef := by
  obtain ⟨-, hrun⟩ := h
  cases op with
  | alloc zero =>
      rw [AllocOp.run, bind_ok_iff] at hrun
      obtain ⟨r, halloc, hr⟩ := hrun
      obtain rfl := Except.ok.inj hr
      exact pageAlloc_ref halloc p
  | free pp =>
      obtain ⟨-, -, rfl⟩ := pageFree_ok_iff.mp hrun
      exact Mem.give_ref m pp p

theorem ref_eq_zero_of_run (hrun : Run (AllocOp.Step c) (pageInit c (Mem.cleared c ram)) ops m)
    (p : Nat) : (m.pages p).ppRef = 0 := by
  refine hrun.invariant (I := fun m => (m.pages p).ppRef = 0) (fun m op m' hzero hstep => ?_)
    ((pageInit_initList c ram).ref p)
  rw [hstep.ref p]
  exact hzero

/-! ## What is noticed -/

/-- **Double frees.**  Whatever calls were made before, `page_free` notices that a page is on
the list already exactly when it is not the last page of it.  The two tests come before any
store, so a panic leaves the list and its length as they were. -/
theorem double_free_caught_iff
    (hrun : Run (AllocOp.Step c) (pageInit c (Mem.cleared c ram)) ops m) (hq : Listed m q) :
    (∃ text, pageFree q m = .error (.panic text)) ↔ ¬ EndsAt m q := by
  have href := ref_eq_zero_of_run hrun q
  rw [← hq.link_eq_none_iff]
  by_cases hlink : m.link q = none
  · rw [pageFree_eq href hlink]
    simp [hlink]
  · refine iff_of_true ⟨"page_free: pp_link is not NULL", ?_⟩ hlink
    rw [Mem.link] at hlink
    simp [pageFree, href, hlink]

end Runs

/-- After `page_init` the list ends with page 1, the first that was freed. -/
theorem initList_last (c : Config) : ∃ l, initList c = l ++ [2, 1] := by
  have hlow : (List.range' 1 (pgnum mpentryPaddr - 1)).reverse = [6, 5, 4, 3] ++ [2, 1] := by decide
  rw [initList, initListFrom, hlow]
  exact ⟨_, by rw [← List.append_assoc, ← List.append_assoc]⟩

theorem endsAt_pageInit_iff (c : Config) (ram : Nat → Idx → Nat) {q : Nat} :
    EndsAt (pageInit c (Mem.cleared c ram)) q ↔ q = 1 := by
  have hchain := (freeList_pageInit c ram).chain
  obtain ⟨l, hl⟩ := initList_last c
  rw [hl] at hchain
  constructor
  · rintro ⟨k, hk⟩
    have hlast := congrArg List.getLast? (hk.unique hchain)
    simpa using hlast
  · rintro rfl
    exact ⟨l ++ [2], by simpa using hchain⟩

/-- The last page but one, freed at once after `page_init`. -/
theorem double_free_of_page_two_caught :
    Listed .small 2 ∧ ∃ text, pageFree 2 .small = .error (.panic text) := by
  have hchain := (freeList_pageInit .small fun _ _ => 0).chain
  obtain ⟨l, hl⟩ := initList_last .small
  rw [hl] at hchain
  have hlisted : Listed .small 2 := ⟨l, Path.of_chain hchain⟩
  refine ⟨hlisted, (double_free_caught_iff (.nil _) hlisted).mpr ?_⟩
  exact fun hend => absurd ((endsAt_pageInit_iff .small fun _ _ => 0).mp hend) (by decide)

/-! ## What is not -/

/-- Freed once more, the last page makes the list one without an end. -/
theorem pageFree_last {m : Mem} {q : Nat} (href : (m.pages q).ppRef = 0) (h : EndsAt m q) :
    pageFree q m = .ok (m.give q) ∧
      ∀ l, ¬ Chain (m.give q).link (m.give q).pageFreeList l := by
  obtain ⟨l, hchain⟩ := h
  have hlink : m.link q = none := (Path.of_chain hchain).next_eq_none_iff.mpr ⟨l, hchain⟩
  refine ⟨pageFree_eq href hlink, fun k => ?_⟩
  rw [Mem.give_link]
  exact hchain.tie.not_chain (List.cons_ne_nil q l)

/-- On the machine with four megabytes, page 1 is freed again at once after `page_init`. -/
theorem double_free_of_page_one_missed :
    Listed .small 1 ∧ pageFree 1 .small = .ok (Mem.small.give 1) ∧
      (∀ text, pageFree 1 .small ≠ .error (.panic text)) ∧
      (Mem.small.give 1).numFreePages = Mem.small.numFreePages + 1 ∧
      ∀ l, ¬ Chain (Mem.small.give 1).link (Mem.small.give 1).pageFreeList l := by
  have hend : EndsAt .small 1 := (endsAt_pageInit_iff .small fun _ _ => 0).mpr rfl
  have hinit : InitList _ Mem.small (initList .small) := pageInit_initList .small fun _ _ => 0
  obtain ⟨hfree, hcycle⟩ := pageFree_last (hinit.ref 1) hend
  obtain ⟨l, hchain⟩ := hend
  have hnum : Mem.small.numFreePages = 795 := hinit.num.trans length_initList_small
  refine ⟨⟨l, Path.of_chain hchain⟩, hfree, fun text => ?_, ?_, hcycle⟩
  · rw [hfree]
    exact ok_ne_error _ _
  · simp only [Mem.give, hnum, add32]
    decide

end Nctuos
