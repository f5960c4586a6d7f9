import Nctuos.KernPgdir
import Nctuos.SelfTest

/-!
# The self-tests are neutral

The views that `check_page_alloc` and `check_page` go through, from one named part of the tests to
the next, and what is left at the end (`self_tests_neutral`).

In the first test the three pages are freed onto an empty list and so come back in the other order;
freed in that order onto the rest of the list they make up the list that was there at first.  In the
second, page tables are taken back by hand, so the list ends as `pp2`, `pp1`, `pp0` and the rest, and
`pp2` is what `mmio_map_region` finds.

`counts`, `pdes` and `ptes` name the little that varies: the reference counts of the three pages, the
first two entries of the directory, and those of the page table.
-/

namespace Nctuos

open Lib

/-! ## Small functions -/

/-- The reference counts of three pages, and of the others. -/
def counts (ref : Nat → Nat) (a b d x y z : Nat) : Nat → Nat := fun p =>
  if p = a then x else if p = b then y else if p = d then z else ref p

/-- The first two entries of a directory, and the others. -/
def pdes (dir : Idx → Nat) (x y : Nat) : Idx → Nat := fun i =>
  if i.val = 0 then x else if i.val = 1 then y else dir i

/-- A page table of two entries. -/
def ptes (x y : Nat) : Idx → Nat := pdes (fun _ => 0) x y

/-- A page table with words of a region in it. -/
def setEntries (ws : List (Slot × Nat)) (tab : Idx → Nat) : Idx → Nat :=
  ws.foldl (fun tab w => Function.update tab w.1.2 w.2) tab

theorem setEntries_append (ws ws' : List (Slot × Nat)) (tab : Idx → Nat) :
    setEntries (ws ++ ws') tab = setEntries ws' (setEntries ws tab) := List.foldl_append

section Small

variable {ref : Nat → Nat} {dir : Idx → Nat} {a b d x y z w : Nat}

theorem counts_eq : counts ref a b d x y z =
    Function.update (Function.update (Function.update ref d z) b y) a x := by
  funext p
  simp only [counts, Function.update_apply]

theorem counts_self : counts ref a b d (ref a) (ref b) (ref d) = ref := by
  rw [counts_eq, Function.update_eq_self, Function.update_eq_self, Function.update_eq_self]

theorem counts_fst : counts ref a b d x y z a = x := if_pos rfl

theorem counts_snd (hab : a ≠ b) : counts ref a b d x y z b = y := by
  rw [counts, if_neg hab.symm, if_pos rfl]

theorem counts_thd (had : a ≠ d) (hbd : b ≠ d) : counts ref a b d x y z d = z := by
  rw [counts, if_neg had.symm, if_neg hbd.symm, if_pos rfl]

theorem update_counts_fst : Function.update (counts ref a b d x y z) a w = counts ref a b d w y z := by
  rw [counts_eq, counts_eq, Function.update_idem]

theorem update_counts_snd (hab : a ≠ b) :
    Function.update (counts ref a b d x y z) b w = counts ref a b d x w z := by
  rw [counts_eq, counts_eq, Function.update_comm hab, Function.update_idem]

theorem update_counts_thd (had : a ≠ d) (hbd : b ≠ d) :
    Function.update (counts ref a b d x y z) d w = counts ref a b d x y w := by
  rw [counts_eq, counts_eq, Function.update_comm had, Function.update_comm hbd,
    Function.update_idem]

theorem pdes_eq : pdes dir x y = Function.update (Function.update dir 1 y) 0 x := by
  funext i
  simp only [pdes, Function.update_apply, Fin.ext_iff]
  rfl

theorem pdes_self : pdes dir (dir 0) (dir 1) = dir := by
  rw [pdes_eq, Function.update_eq_self, Function.update_eq_self]

theorem pdes_of_le {i : Idx} (hi : 2 ≤ i.val) : pdes dir x y i = dir i := by
  rw [pdes, if_neg (by omega), if_neg (by omega)]

theorem pdes_of_lt {i : Idx} (hi : i.val < 2) : pdes dir 0 0 i = 0 := by
  by_cases h₀ : i.val = 0
  · rw [pdes, if_pos h₀]
  · rw [pdes, if_neg h₀, if_pos (by omega)]

theorem update_pdes_zero : Function.update (pdes dir x y) 0 w = pdes dir w y := by
  rw [pdes_eq, pdes_eq, Function.update_idem]

theorem update_pdes_one : Function.update (pdes dir x y) 1 w = pdes dir x w := by
  rw [pdes_eq, pdes_eq, Function.update_comm (by decide), Function.update_idem]

theorem ptes_zero : ptes 0 0 = fun _ => 0 := pdes_self

theorem update_ptes_zero : Function.update (ptes x y) 0 w = ptes w y := update_pdes_zero

theorem update_ptes_one : Function.update (ptes x y) 1 w = ptes x w := update_pdes_one

end Small

/-! ## The addresses of the tests -/

theorem pdx_zero : pdx 0 = 0 := by decide

theorem ptx_zero : ptx 0 = 0 := by decide

theorem ptx_pgSize : ptx pgSize = 1 := by decide

/-! ## The list -/

theorem listLength_eq {m : Mem} {head : Option Nat} {l : List Nat} {fuel : Nat}
    (h : Chain m.link head l) (hfuel : l.length ≤ fuel) : listLength m fuel head = .ok l.length := by
  induction h generalizing fuel with
  | nil =>
      rw [listLength]
      rfl
  | @cons p l _ ih =>
      obtain ⟨fuel, rfl⟩ : ∃ k, fuel = k + 1 := ⟨fuel - 1, by rw [List.length_cons] at hfuel; omega⟩
      rw [listLength, ih (by rw [List.length_cons] at hfuel; omega)]
      rfl

/-- Three pages and the rest of a list without repetition. -/
theorem distinct_three {a b d : Nat} {rest : List Nat} (h : (a :: b :: d :: rest).Nodup) :
    (a ≠ b ∧ a ≠ d ∧ b ≠ d) ∧ a ∉ rest ∧ b ∉ rest ∧ d ∉ rest := by
  simp only [List.nodup_cons, List.mem_cons, not_or] at h
  obtain ⟨⟨hab, had, harest⟩, ⟨hbd, hbrest⟩, hdrest, -⟩ := h
  exact ⟨⟨hab, had, hbd⟩, harest, hbrest, hdrest⟩

/-- Three pages freed in their order. -/
theorem perm_freed (a b d : Nat) (rest : List Nat) :
    (d :: b :: a :: rest).Perm (a :: b :: d :: rest) :=
  (List.reverse_perm [a, b, d]).append_right rest

theorem assert_yields {p : Prop} [Decidable p] (text : String) (h : p) :
    Yields (assert p text) fun _ => True := by
  rw [assert, if_pos h]
  exact Yields.ok trivial

/-- An assertion that holds is passed over. -/
theorem assert_then {α : Type} {p : Prop} [Decidable p] {text : String} {rest : Except Stop α}
    {P : α → Prop} (h : p) (hrest : Yields rest P) :
    Yields (assert p text >>= fun _ => rest) P :=
  (assert_yields text h).bind fun _ _ => hrest

namespace Seen

variable {c : Config} {m₀ m : Mem} {mine free stash rest : List Nat} {t p a b d fuel : Nat}
  {v : TestView} {ref : Nat → Nat} {dir tab : Idx → Nat}

/-- The memory before the tests. -/
theorem ofFreeList {l : List Nat} (h : FreeList c m l) (hmine : ∀ p ∈ mine, p ∈ l) (ht : t ∈ mine) :
    Seen c m mine t ⟨l, [], fun p => (m.pages p).ppRef, m.ram c.kernPgdir, m.ram t⟩ m := by
  refine ⟨fun p hp => h.alloc p (hmine p hp), ht, h.chain, Chain.nil, ?_, ?_, ?_, ?_, fun p => rfl, rfl,
    rfl, fun p _ _ => rfl, rfl⟩
  all_goals
    dsimp only
    rw [List.append_nil]
  · exact h.chain.nodup
  · exact h.alloc
  · exact h.num
  · exact h.used

theorem freeList (h : Seen c m₀ mine t ⟨free, [], ref, dir, tab⟩ m) (href : ∀ p ∈ free, ref p = 0) :
    FreeList c m free := by
  have halloc := h.alloc
  have hnum := h.num
  have hused := h.used
  dsimp only at halloc hnum hused
  rw [List.append_nil] at halloc hnum hused
  exact ⟨h.free, hnum, halloc, fun p hp => (h.ref p).trans (href p hp), hused⟩

theorem takePage (h : Seen c m₀ mine t ⟨p :: free, stash, ref, dir, tab⟩ m) (text : String) :
    Yields (takePage c false text m) fun r =>
      r.1 = p ∧ Seen c m₀ mine t ⟨free, stash, ref, dir, tab⟩ r.2 := by
  obtain ⟨halloc, htaken⟩ := h.take
  rw [Nctuos.takePage, halloc]
  exact Yields.ok ⟨rfl, htaken⟩

theorem takeNone (h : Seen c m₀ mine t ⟨[], stash, ref, dir, tab⟩ m) :
    Yields (takeNone c m) (Seen c m₀ mine t ⟨[], stash, ref, dir, tab⟩) := by
  rw [Nctuos.takeNone, h.alloc_none false, ok_bind]
  exact assert_then rfl (Yields.ok h)

theorem takeThree (h : Seen c m₀ mine t ⟨a :: b :: d :: free, stash, ref, dir, tab⟩ m) :
    Yields (takeThree c m) fun r =>
      r.1 = (a, b, d) ∧ Seen c m₀ mine t ⟨free, stash, ref, dir, tab⟩ r.2 := by
  obtain ⟨⟨hab, had, hbd⟩, -⟩ := distinct_three h.nodup
  refine Yields.bind (h.takePage _) ?_
  rintro ⟨_, m₁⟩ ⟨rfl, h₁⟩
  refine Yields.bind (h₁.takePage _) ?_
  rintro ⟨_, m₂⟩ ⟨rfl, h₂⟩
  refine Yields.bind (h₂.takePage _) ?_
  rintro ⟨_, m₃⟩ ⟨rfl, h₃⟩
  refine assert_then hab.symm (assert_then ⟨hbd.symm, had.symm⟩ ?_)
  exact Yields.ok ⟨rfl, h₃⟩

theorem freeThree (h : Seen c m₀ mine t ⟨free, stash, ref, dir, tab⟩ m)
    (hnew : (d :: b :: a :: (free ++ stash)).Nodup)
    (hmine : ∀ p ∈ [a, b, d], c.Allocatable p ∧ ref p = 0) :
    Yields (freeThree a b d m) (Seen c m₀ mine t ⟨d :: b :: a :: free, stash, ref, dir, tab⟩) := by
  simp only [List.nodup_cons] at hnew
  have ha := hmine a (by simp)
  have hb := hmine b (by simp)
  have hd := hmine d (by simp)
  obtain ⟨hfree₁, h₁⟩ := h.give ha.1 hnew.2.2.1 ha.2
  obtain ⟨hfree₂, h₂⟩ := h₁.give hb.1 hnew.2.1 hb.2
  obtain ⟨hfree₃, h₃⟩ := h₂.give hd.1 hnew.1 hd.2
  rw [Nctuos.freeThree, hfree₁, ok_bind, hfree₂, ok_bind]
  exact Yields.of_eq hfree₃ h₃

/-! ## `check_page_alloc` -/

theorem page2pa_lt (hp : c.Allocatable p) : page2pa p < c.npages * pgSize := by
  have hlt := hp.lt
  rw [page2pa_eq, pgSize]
  omega

theorem checkPageAlloc (h : Seen c m₀ [a, b, d] d ⟨a :: b :: d :: rest, [], ref, dir, tab⟩ m)
    (href : ref a = 0 ∧ ref b = 0 ∧ ref d = 0) (hfuel : (a :: b :: d :: rest).length ≤ fuel) :
    Yields (checkPageAlloc c fuel m)
      (Seen c m₀ [a, b, d] d ⟨a :: b :: d :: rest, [], ref, dir, fun _ => 0⟩) := by
  have halloc := h.mineAlloc
  have ha := halloc a (by simp)
  have hb := halloc b (by simp)
  have hd := halloc d (by simp)
  have hpages : c.pagesVa ≠ 0 := by
    rw [Config.pagesVa, c.bootPages_eq, pgSize]
    omega
  have hnodup : (a :: b :: d :: rest).Nodup := by
    have := h.nodup
    rwa [List.append_nil] at this
  have hmine : ∀ p ∈ [a, b, d], c.Allocatable p ∧ ref p = 0 := by
    simp only [List.mem_cons, List.not_mem_nil, or_false]
    rintro p (rfl | rfl | rfl)
    · exact ⟨ha, href.1⟩
    · exact ⟨hb, href.2.1⟩
    · exact ⟨hd, href.2.2⟩
  have hfreed : (d :: b :: a :: ([] ++ rest)).Nodup := (perm_freed a b d rest).nodup_iff.mpr hnodup
  rw [Nctuos.checkPageAlloc, if_neg hpages, ok_bind, listLength_eq h.free hfuel, ok_bind]
  refine Yields.bind h.takeThree ?_
  rintro ⟨_, m₁⟩ ⟨rfl, h₁⟩
  refine assert_then (page2pa_lt ha) (assert_then (page2pa_lt hb) (assert_then (page2pa_lt hd) ?_))
  obtain ⟨hfl, h₂⟩ := h₁.steal
  refine Yields.bind h₂.takeNone fun m₂ h₂ => ?_
  refine Yields.bind (h₂.freeThree hfreed hmine) fun m₃ h₃ => ?_
  refine Yields.bind h₃.takeThree ?_
  rintro ⟨_, m₄⟩ ⟨rfl, h₄⟩
  refine Yields.bind h₄.takeNone fun m₅ h₅ => ?_
  -- `pp0` is now the page that was taken last
  have hdrest : d ∉ [] ++ rest := fun hmem => (List.nodup_cons.mp hfreed).1 (by simp_all)
  rw [page2kva_of_lt hd.lt, ok_bind]
  obtain ⟨hfree, h₆⟩ := (h₅.fill 0x01010101).give hd hdrest href.2.2
  rw [hfree, ok_bind]
  obtain ⟨hzero, h₇⟩ := h₆.takeZero
  have htake : Yields (Nctuos.takePage c true "(pp = page_alloc(ALLOC_ZERO))"
      ((m₅.fillPage d 0x01010101).give d)) fun r =>
      r.1 = d ∧ Seen c m₀ [a, b, d] d ⟨[], rest, ref, dir, fun _ => 0⟩ r.2 := by
    rw [Nctuos.takePage, hzero]
    exact Yields.ok ⟨rfl, h₇⟩
  refine Yields.bind htake ?_
  rintro ⟨_, m₈⟩ ⟨rfl, h₈⟩
  refine assert_then rfl ?_
  rw [page2kva_of_lt hd.lt, ok_bind]
  refine assert_then (fun i => congrFun h₈.tab i) ?_
  have hlist : m₁.pageFreeList = rest.head? := hfl
  rw [hlist]
  refine Yields.bind (h₈.restore.freeThree ?_ fun p hp => hmine p ?_) fun m₉ h₉ => ?_
  · rw [List.append_nil]
    exact hnodup
  · simp only [List.mem_cons, List.not_mem_nil, or_false] at hp ⊢
    tauto
  · rw [listLength_eq h₉.free hfuel, ok_bind]
    exact assert_then (Int.sub_self _) (Yields.ok h₉)

/-! ## The assertions of `check_page` -/

section Assertions

variable {α : Type} {next : Except Stop α} {P : α → Prop} {text : String} {va pp perm u : Nat}
  {local₀ : PtePtr}

section Mapped

variable (h : Seen c m₀ mine t v m) (hva : pdx va ≠ pdx uvpt) (hdir : v.dir (pdx va) = pdeWord t)

include h hva hdir

theorem va2pa_then {pa : Nat}
    (hpa : (Nctuos.pageAt c m c.kernPgdir va).elim (2 ^ 32 - 1) page2pa = pa)
    (hrest : Yields next P) : Yields (va2paIs c va pa text m >>= fun _ => next) P := by
  rw [va2paIs, h.checkVa2pa hva hdir, ok_bind]
  exact assert_then hpa hrest

/-- The page mapped at `va` is the expected one. -/
theorem maps_then (hp : p ∈ mine) (hperm : perm < 4096)
    (htab : v.tab (ptx va) = pteWord (page2pa p) perm) (hrest : Yields next P) :
    Yields (va2paIs c va (page2pa p) text m >>= fun _ => next) P := by
  refine h.va2pa_then hva hdir ?_ hrest
  rw [h.pageAt_word hva hdir hp hperm htab]
  rfl

/-- No page is mapped at `va`. -/
theorem unmapped_then (htab : present (v.tab (ptx va)) = false) (hrest : Yields next P) :
    Yields (va2paIs c va (2 ^ 32 - 1) text m >>= fun _ => next) P := by
  refine h.va2pa_then hva hdir ?_ hrest
  rw [h.pageAt_none hva hdir htab]
  rfl

theorem pte_then {p : Nat → Prop} [DecidablePred p] (hp : p (v.tab (ptx va)))
    (hrest : Yields next P) : Yields (pteIs c va p text m >>= fun _ => next) P := by
  rw [pteIs, pteOf, h.walk hva hdir false, ok_bind, ok_bind]
  refine assert_then ?_ hrest
  rw [Mem.load, h.tab]
  exact hp

end Mapped

theorem ref_then {n : Nat} (h : Seen c m₀ mine t v m) (href : v.ref p = n)
    (hrest : Yields next P) :
    Yields (assert ((m.pages p).ppRef = n) text >>= fun _ => next) P :=
  assert_then ((h.ref p).trans href) hrest

theorem insertOk_yields {Q : Mem → Prop}
    (h : Yields (pageInsert c (some local₀) c.kernPgdir pp va perm m) fun r => r.1 = 0 ∧ Q r.2) :
    Yields (insertOk c local₀ pp va perm text m) Q :=
  h.bind fun _ hr => assert_then hr.1 (Yields.ok hr.2)

theorem insertFails_yields (h : Seen c m₀ mine t ⟨[], stash, ref, dir, tab⟩ m)
    (hva : pdx va ≠ pdx uvpt) (hdir : present (dir (pdx va)) = false) :
    Yields (insertFails c local₀ pp va perm text m)
      (Seen c m₀ mine t ⟨[], stash, ref, dir, tab⟩) := by
  rw [insertFails, h.insert_full local₀ hva hdir, ok_bind]
  exact assert_then (by decide : -eNoMem < 0) (Yields.ok h)

theorem lookup_none (h : Seen c m₀ mine t v m) (hva : pdx va ≠ pdx uvpt)
    (hdir : present (v.dir (pdx va)) = false) (pteStore : Option PtePtr) :
    pageLookup c c.kernPgdir va pteStore m = .ok (none, pteStore) := by
  have htable := h.tableOf_none hva hdir
  refine pageLookup_none (not_selfMap hva) (fun t' ht' => ?_) (pageAt_of_none htable) pteStore
  rw [htable] at ht'
  cases ht'

theorem pteAddr_pdeWord (h : Seen c m₀ mine t v m) : pteAddr (pdeWord t) = page2pa t := by
  rw [pteAddr_eq_page2pa, ptePage_pdeWord h.table_lt]

theorem kaddr_pdeWord (h : Seen c m₀ mine t v m) : kaddr c (pteAddr (pdeWord t)) = .ok t := by
  rw [h.pteAddr_pdeWord]
  exact page2kva_of_lt h.table_lt

/-- The permissions of an entry. -/
theorem pteWord_and (hperm : perm < 4096) (hu : u < 4096) :
    pteWord (page2pa p) perm &&& u = (perm ||| pteP) &&& u := by
  rw [← pteWord_mod hperm]
  apply Nat.eq_of_testBit_eq
  intro i
  rw [Nat.testBit_and, Nat.testBit_and, show (4096 : Nat) = 2 ^ 12 by decide, Nat.testBit_mod_two_pow]
  by_cases hi : i < 12
  · rw [decide_eq_true hi, Bool.true_and]
  · rw [Nat.testBit_lt_two_pow (lt_of_lt_of_le hu (Nat.pow_le_pow_right (by decide : 0 < 2)
      (by omega : 12 ≤ i))), Bool.and_false, Bool.and_false]

theorem pteWord_kernel (p : Nat) : pteWord (page2pa p) pteW &&& pteU = 0 := by
  rw [pteWord_and (by decide) (by decide)]
  decide

end Assertions

/-! ## `check_page`, part by part -/

theorem zero_ne_uvpt : pdx 0 ≠ pdx uvpt := by decide

theorem pgSize_ne_uvpt : pdx pgSize ≠ pdx uvpt := by decide

section CheckPage

variable {x y : Nat} {local₀ : PtePtr}

/-- `pp1` at 0 and `pp2` at `PGSIZE`. -/
theorem checkPageInsert
    (h : Seen c m₀ [a, b, d] a ⟨[], rest, counts ref a b d 0 0 0, pdes dir x y, tab⟩ m)
    (hnodup : (a :: b :: d :: rest).Nodup) (hx : present x = false) :
    Yields (checkPageInsert c local₀ a b d m)
      (Seen c m₀ [a, b, d] a ⟨[], rest, counts ref a b d 1 1 1, pdes dir (pdeWord a) y,
        ptes (pteWord (page2pa b) pteW) (pteWord (page2pa d) pteW)⟩) := by
  obtain ⟨⟨hab, had, hbd⟩, harest, -⟩ := distinct_three hnodup
  refine Yields.bind h.takeNone fun m₁ h₁ => ?_
  rw [h₁.lookup_none zero_ne_uvpt hx, ok_bind]
  refine assert_then rfl (Yields.bind (h₁.insertFails_yields zero_ne_uvpt hx) fun m₂ h₂ => ?_)
  obtain ⟨hfree, h₃⟩ := h₂.give (h.mineAlloc a (by simp)) harest counts_fst
  rw [hfree, ok_bind]
  refine Yields.bind (insertOk_yields (h₃.insert_first local₀ zero_ne_uvpt hx counts_fst
    (Ne.symm hab) (counts_snd hab) (by decide))) fun m₄ h₄ => ?_
  -- `pp0` is the page table, with `pp1` in its first entry
  rw [update_counts_fst, update_counts_snd hab, pdx_zero, update_pdes_zero, ← ptes_zero, ptx_zero,
    update_ptes_zero] at h₄
  refine assert_then ?_ ?_
  · rw [h₄.dir]
    exact h₄.pteAddr_pdeWord
  refine h₄.maps_then zero_ne_uvpt rfl (by simp) (by decide) rfl ?_
  refine h₄.ref_then (counts_snd hab) (h₄.ref_then counts_fst ?_)
  refine Yields.bind (insertOk_yields (h₄.insert_fresh local₀ pgSize_ne_uvpt rfl present_zero
    (counts_thd had hbd) (by decide))) fun m₅ h₅ => ?_
  dsimp only at h₅
  rw [update_counts_thd had hbd, ptx_pgSize, update_ptes_one] at h₅
  refine h₅.maps_then pgSize_ne_uvpt rfl (by simp) (by decide) rfl ?_
  exact h₅.ref_then (counts_thd had hbd) h₅.takeNone

section Both

variable
  (h : Seen c m₀ [a, b, d] a ⟨[], rest, counts ref a b d 1 1 1, pdes dir (pdeWord a) y,
    ptes (pteWord (page2pa b) pteW) (pteWord (page2pa d) pteW)⟩ m)
  (hnodup : (a :: b :: d :: rest).Nodup)

include h hnodup

/-- `pp2` again, where it is. -/
theorem checkPageAgain :
    Yields (checkPageAgain c local₀ d m)
      (Seen c m₀ [a, b, d] a ⟨[], rest, counts ref a b d 1 1 1, pdes dir (pdeWord a) y,
        ptes (pteWord (page2pa b) pteW) (pteWord (page2pa d) pteW)⟩) := by
  obtain ⟨⟨-, had, hbd⟩, -⟩ := distinct_three hnodup
  have hd : d ∈ [a, b, d] := by simp
  have hcount : counts ref a b d 1 1 1 d = 1 := counts_thd had hbd
  refine Yields.bind (insertOk_yields (h.insert_same local₀ pgSize_ne_uvpt rfl hd
    (by decide : pteW < 4096) rfl)) fun m₁ h₁ => ?_
  dsimp only at h₁
  rw [ptx_pgSize, update_ptes_one] at h₁
  refine h₁.maps_then pgSize_ne_uvpt rfl hd (by decide) rfl (h₁.ref_then hcount ?_)
  refine Yields.bind h₁.takeNone fun m₂ h₂ => ?_
  have hkaddr : kaddr c (pteAddr (m₂.ram c.kernPgdir (pdx pgSize))) = .ok a := by
    rw [h₂.dir]
    exact h₂.kaddr_pdeWord
  rw [hkaddr, ok_bind, h₂.walk pgSize_ne_uvpt rfl false, ok_bind]
  refine assert_then rfl ?_
  -- more permissions
  refine Yields.bind (insertOk_yields (h₂.insert_same local₀ pgSize_ne_uvpt rfl hd
    (by decide : pteW < 4096) rfl)) fun m₃ h₃ => ?_
  dsimp only at h₃
  rw [ptx_pgSize, update_ptes_one] at h₃
  refine h₃.maps_then pgSize_ne_uvpt rfl hd (by decide) rfl (h₃.ref_then hcount ?_)
  refine h₃.pte_then pgSize_ne_uvpt rfl ?_ (assert_then ?_ ?_)
  · change pteWord (page2pa d) (pteW ||| pteU) &&& pteU ≠ 0
    rw [pteWord_and (by decide) (by decide)]
    decide
  · rw [h₃.dir]
    change pdeWord a &&& pteU ≠ 0
    rw [pdeWord_eq, pteWord_and (by decide) (by decide)]
    decide
  -- fewer permissions
  refine Yields.bind (insertOk_yields (h₃.insert_same local₀ pgSize_ne_uvpt rfl hd
    (by decide : pteW ||| pteU < 4096) rfl)) fun m₄ h₄ => ?_
  dsimp only at h₄
  rw [ptx_pgSize, update_ptes_one] at h₄
  refine h₄.pte_then pgSize_ne_uvpt rfl ?_ (h₄.pte_then pgSize_ne_uvpt rfl ?_ (Yields.ok h₄))
  · change pteWord (page2pa d) pteW &&& pteW ≠ 0
    rw [pteWord_and (by decide) (by decide)]
    decide
  · exact pteWord_kernel d

/-- `pp1` at both addresses, and `pp2` free for a moment. -/
theorem checkPageReplace (hy : present y = false) :
    Yields (checkPageReplace c local₀ a b d m)
      (Seen c m₀ [a, b, d] a ⟨[], rest, counts ref a b d 1 2 0, pdes dir (pdeWord a) y,
        ptes (pteWord (page2pa b) pteW) (pteWord (page2pa b) pteW)⟩) := by
  obtain ⟨⟨hab, had, hbd⟩, -, -, hdrest⟩ := distinct_three hnodup
  have hb : b ∈ [a, b, d] := by simp
  refine Yields.bind (h.insertFails_yields (by decide) hy) fun m₁ h₁ => ?_
  refine Yields.bind (insertOk_yields (h₁.insert_replace local₀ pgSize_ne_uvpt rfl
    (by simp : d ∈ [a, b, d]) (by decide : pteW < 4096) rfl (counts_thd had hbd) hdrest (Ne.symm hbd)
    (counts_snd hab) (by decide))) fun m₂ h₂ => ?_
  rw [update_counts_thd had hbd, update_counts_snd hab, ptx_pgSize, update_ptes_one] at h₂
  refine h₂.pte_then pgSize_ne_uvpt rfl (pteWord_kernel b) ?_
  refine h₂.maps_then zero_ne_uvpt rfl hb (by decide) rfl ?_
  refine h₂.maps_then pgSize_ne_uvpt rfl hb (by decide) rfl ?_
  refine h₂.ref_then (counts_snd hab) (h₂.ref_then (counts_thd had hbd) ?_)
  refine Yields.bind (h₂.takePage _) ?_
  rintro ⟨_, m₃⟩ ⟨rfl, h₃⟩
  exact assert_then rfl (Yields.ok h₃)

end Both

/-- `pp1` is unmapped twice, and free the second time. -/
theorem checkPageRemove
    (h : Seen c m₀ [a, b, d] a ⟨[], rest, counts ref a b d 1 2 0, pdes dir (pdeWord a) y,
      ptes (pteWord (page2pa b) pteW) (pteWord (page2pa b) pteW)⟩ m)
    (hnodup : (a :: b :: d :: rest).Nodup) :
    Yields (checkPageRemove c local₀ b d m)
      (Seen c m₀ [a, b, d] a ⟨[], rest, counts ref a b d 1 0 0, pdes dir (pdeWord a) y, ptes 0 0⟩) := by
  obtain ⟨⟨hab, had, hbd⟩, -, hbrest, -⟩ := distinct_three hnodup
  have hb : b ∈ [a, b, d] := by simp
  refine Yields.bind (h.remove local₀ zero_ne_uvpt rfl hb (by decide : pteW < 4096) rfl
    (counts_snd hab) (by decide)) fun m₁ h₁ => ?_
  dsimp only at h₁
  rw [update_counts_snd hab, ptx_zero, update_ptes_zero] at h₁
  refine h₁.unmapped_then zero_ne_uvpt rfl present_zero ?_
  refine h₁.maps_then pgSize_ne_uvpt rfl hb (by decide) rfl ?_
  refine h₁.ref_then (counts_snd hab) (h₁.ref_then (counts_thd had hbd) ?_)
  refine Yields.bind (insertOk_yields (h₁.insert_same local₀ pgSize_ne_uvpt rfl hb
    (by decide : pteW < 4096) rfl)) fun m₂ h₂ => ?_
  dsimp only at h₂
  rw [ptx_pgSize, update_ptes_one] at h₂
  have hcount : counts ref a b d 1 1 0 b = 1 := counts_snd hab
  refine assert_then ?_ (assert_then (h₂.used b (h.mineAlloc b hb) hbrest) ?_)
  · rw [h₂.ref b]
    exact ne_of_eq_of_ne hcount (by decide)
  refine Yields.bind (h₂.remove_last local₀ pgSize_ne_uvpt rfl hb (by decide : 0 < 4096) rfl hcount
    hbrest) fun m₃ h₃ => ?_
  rw [update_counts_snd hab, ptx_pgSize, update_ptes_one] at h₃
  refine h₃.unmapped_then zero_ne_uvpt rfl present_zero ?_
  refine h₃.unmapped_then pgSize_ne_uvpt rfl present_zero ?_
  refine h₃.ref_then (counts_snd hab) (h₃.ref_then (counts_thd had hbd) ?_)
  refine Yields.bind (h₃.takePage _) ?_
  rintro ⟨_, m₄⟩ ⟨rfl, h₄⟩
  exact assert_then rfl h₄.takeNone

theorem clearPde (h : Seen c m₀ mine t v m) (i : Idx) :
    Seen c m₀ mine t { v with dir := Function.update v.dir i 0 } (clearPde c i m) := h.storeDir i 0

theorem clearRef (h : Seen c m₀ mine t v m) (p : Nat) :
    Seen c m₀ mine t { v with ref := Function.update v.ref p 0 } (clearRef p m) := h.setRef p 0

/-- `page_free`, as a step of a test. -/
theorem free_yields (h : Seen c m₀ mine t ⟨free, stash, ref, dir, tab⟩ m) (hp : c.Allocatable p)
    (hnew : p ∉ free ++ stash) (href : ref p = 0) :
    Yields (pageFree p m) (Seen c m₀ mine t ⟨p :: free, stash, ref, dir, tab⟩) :=
  Yields.of_eq (h.give hp hnew href).1 (h.give hp hnew href).2

/-- `pgdir_walk` that makes a page table, as a step of a test. -/
theorem grow_yields {va : Nat} (h : Seen c m₀ mine t ⟨t :: free, stash, ref, dir, tab⟩ m)
    (hva : pdx va ≠ pdx uvpt) (hdir : present (dir (pdx va)) = false) (href : ref t = 0) :
    Yields (pgdirWalk c c.kernPgdir va true m) fun r => r.1 = some ⟨t, ptx va⟩ ∧
      Seen c m₀ mine t ⟨free, stash, Function.update ref t 1,
        Function.update dir (pdx va) (pdeWord t), fun _ => 0⟩ r.2 :=
  Yields.of_eq (h.walk_grow hva hdir href).1 ⟨rfl, (h.walk_grow hva hdir href).2⟩

/-- The page table is taken back by hand, three times. -/
theorem checkPageWalk
    (h : Seen c m₀ [a, b, d] a ⟨[], rest, counts ref a b d 1 0 0, pdes dir (pdeWord a) y, tab⟩ m)
    (harest : a ∉ rest) (hy : present y = false) :
    Yields (checkPageWalk c a m) (Seen c m₀ [a, b, d] a ⟨[], rest, counts ref a b d 0 0 0,
      pdes dir 0 0, fun _ => 0⟩) := by
  have ha := h.mineAlloc a h.table
  have hkva : page2kva c a = .ok a := page2kva_of_lt ha.lt
  refine assert_then ?_ ?_
  · rw [h.dir]
    exact h.pteAddr_pdeWord
  have h₁ := h.clearPde 0
  dsimp only at h₁
  rw [update_pdes_zero] at h₁
  refine h₁.ref_then counts_fst ?_
  have h₂ := h₁.clearRef a
  dsimp only at h₂
  rw [update_counts_fst] at h₂
  refine Yields.bind (h₂.free_yields ha harest counts_fst) fun m₃ h₃ => ?_
  -- the page table of `va`
  have hva : pdx (pgSize * npdentries + pgSize) = 1 := by decide
  refine Yields.bind (h₃.grow_yields (by decide : pdx (pgSize * npdentries + pgSize) ≠ pdx uvpt) hy
    counts_fst) ?_
  rintro ⟨_, m₄⟩ ⟨rfl, h₄⟩
  rw [update_counts_fst, hva, update_pdes_one] at h₄
  dsimp only
  have hkaddr : kaddr c (pteAddr (m₄.ram c.kernPgdir (pdx (pgSize * npdentries + pgSize)))) =
      .ok a := by
    rw [h₄.dir, hva]
    exact h₄.kaddr_pdeWord
  rw [hkaddr, ok_bind]
  refine assert_then rfl ?_
  have h₅ := (h₄.clearPde 1).clearRef a
  dsimp only at h₅
  rw [update_counts_fst, update_pdes_one] at h₅
  rw [hva, hkva, ok_bind]
  -- filled, and the page table of 0
  refine Yields.bind ((h₅.fill _).free_yields ha harest counts_fst) fun m₆ h₆ => ?_
  refine Yields.bind (h₆.grow_yields zero_ne_uvpt present_zero counts_fst) ?_
  rintro ⟨_, m₇⟩ ⟨rfl, h₇⟩
  rw [update_counts_fst, pdx_zero, update_pdes_zero] at h₇
  rw [ok_bind]
  refine assert_then (fun i => ?_) ?_
  · rw [h₇.tab]
    exact present_zero
  have h₈ := (h₇.clearPde 0).clearRef a
  dsimp only at h₈
  rw [update_counts_fst, update_pdes_zero] at h₈
  exact Yields.ok h₈

end CheckPage

/-! ## The two regions of the MMIO window -/

section Mmio

variable {perm n va pa size : Nat} {i : Idx}

/-- The static of `mmio_map_region` is not a part of the view. -/
theorem setMmio (h : Seen c m₀ mine t v m) (base : Nat) :
    Seen c { m₀ with mmioNext := base } mine t v { m with mmioNext := base } :=
  ⟨h.mineAlloc, h.table, h.free, h.stash, h.nodup, h.alloc, h.num, h.used, h.ref, h.dir, h.tab, h.other,
    rfl⟩

/-- `boot_map_region`, where page `t` is the table of every address. -/
theorem bootMapLoop (h : Seen c m₀ mine t v m) (hi : i ≠ pdx uvpt) (hdir : v.dir i = pdeWord t)
    (hidx : ∀ w ∈ regionWords perm n va pa, w.1.1 = i) :
    Yields (bootMapLoop c c.kernPgdir perm n va pa m) (Seen c m₀ mine t
      { v with tab := setEntries (regionWords perm n va pa) v.tab }) := by
  induction n generalizing va pa v m with
  | zero => exact Yields.ok h
  | succ n ih =>
      rw [regionWords] at hidx ⊢
      have hva : pdx va = i := hidx _ List.mem_cons_self
      have hne : pdx va ≠ pdx uvpt := by rwa [hva]
      have htable : v.dir (pdx va) = pdeWord t := by rwa [hva]
      rw [Nctuos.bootMapLoop, h.walk hne htable true, ok_bind]
      exact ih (h.storeTab (ptx va) (pteWord pa perm)) hdir
        fun w hw => hidx w (List.mem_cons_of_mem _ hw)

/-- The table may as well be there before the first turn. -/
theorem bootMapLoop_grow (h : Seen c m₀ mine t ⟨t :: free, stash, ref, dir, tab⟩ m)
    (hva : pdx va ≠ pdx uvpt) (hdir : present (dir (pdx va)) = false) (href : ref t = 0) :
    Nctuos.bootMapLoop c c.kernPgdir perm (n + 1) va pa m =
      Nctuos.bootMapLoop c c.kernPgdir perm (n + 1) va pa (m.grow c.kernPgdir (pdx va) t) := by
  obtain ⟨hwalk, hgrown⟩ := h.walk_grow hva hdir href
  rw [Nctuos.bootMapLoop, hwalk, Nctuos.bootMapLoop, hgrown.walk hva (Function.update_self _ _ _)]

theorem mmioMapRegion {base : Nat} (h : Seen c m₀ mine t v m) (hbase : m₀.mmioNext = base)
    (hfits : add32 base size ≤ mmiolim) (hi : i ≠ pdx uvpt) (hdir : v.dir i = pdeWord t)
    (hidx : ∀ w ∈ mmioWords base (roundup size pgSize) pa, w.1.1 = i) :
    Yields (mmioMapRegion c pa size m) fun r => r.1 = base ∧
      Seen c { m₀ with mmioNext := add32 base (roundup size pgSize) } mine t
        { v with tab := setEntries (mmioWords base (roundup size pgSize) pa) v.tab } r.2 := by
  rw [Nctuos.mmioMapRegion, h.mmio, hbase, if_neg (Nat.not_lt.mpr hfits)]
  exact Yields.bind (h.bootMapLoop hi hdir hidx) fun m₁ h₁ => Yields.ok ⟨rfl, h₁.setMmio _⟩

theorem clearPte (h : Seen c m₀ mine t v m) (hva : pdx va ≠ pdx uvpt)
    (hdir : v.dir (pdx va) = pdeWord t) :
    Yields (clearPte c c.kernPgdir va m)
      (Seen c m₀ mine t { v with tab := Function.update v.tab (ptx va) 0 }) := by
  rw [Nctuos.clearPte, pteOf, h.walk hva hdir false, ok_bind, ok_bind]
  exact Yields.ok (h.storeTab (ptx va) 0)

theorem mmioMapRegion_grow {base : Nat} (h : Seen c m₀ mine t ⟨t :: free, stash, ref, dir, tab⟩ m)
    (hbase : m₀.mmioNext = base) (hva : pdx base ≠ pdx uvpt)
    (hdir : present (dir (pdx base)) = false) (href : ref t = 0)
    (hsize : roundup size pgSize / pgSize = n + 1) (pa : Nat) :
    Nctuos.mmioMapRegion c pa size m =
      Nctuos.mmioMapRegion c pa size (m.grow c.kernPgdir (pdx base) t) := by
  have hmmio : (m.grow c.kernPgdir (pdx base) t).mmioNext = base :=
    (h.walk_grow hva hdir href).2.mmio.trans hbase
  unfold Nctuos.mmioMapRegion bootMapRegion
  simp only [hmmio, h.mmio.trans hbase, hsize, h.bootMapLoop_grow hva hdir href]

/-- When the three pages are unmapped again the table is empty. -/
theorem testWords_entries_cleared :
    Function.update (Function.update (Function.update (setEntries KernDir.testWords fun _ => 0)
      (ptx mmiobase) 0) (ptx (add32 mmiobase pgSize)) 0) (ptx (mmiobase + 2 * pgSize)) 0 =
      fun _ => 0 := by
  have hwords : KernDir.testWords = [((pdx mmiobase, 0), pteWord 0 mmioPerm),
      ((pdx mmiobase, 1), pteWord pgSize mmioPerm), ((pdx mmiobase, 2), pteWord 0 mmioPerm)] := by
    decide
  have h₀ : ptx mmiobase = 0 := by decide
  have h₁ : ptx (add32 mmiobase pgSize) = 1 := by decide
  have h₂ : ptx (mmiobase + 2 * pgSize) = 2 := by decide
  rw [hwords, h₀, h₁, h₂]
  funext i
  simp only [setEntries, List.foldl_cons, List.foldl_nil, Function.update_apply]
  split
  · rfl
  · split
    · rfl
    · split
      · rfl
      · rfl

/-- What `check_page` asserts of the two regions. -/
theorem checkMmio (h : Seen c m₀ mine t v m) (hdir : v.dir (pdx mmiobase) = pdeWord t)
    (htab : v.tab = setEntries KernDir.testWords fun _ => 0) :
    Nctuos.checkMmio c mmiobase (mmiobase + 2 * pgSize) m = .ok () := by
  have hne : pdx mmiobase ≠ pdx uvpt := by decide
  have hva2pa : ∀ va, pdx va = pdx mmiobase → Nctuos.checkVa2pa c c.kernPgdir va m =
      .ok ((targetOf (setEntries KernDir.testWords (fun _ => 0) (ptx va))).elim (2 ^ 32 - 1)
        page2pa) := by
    intro va hva
    have hva' : pdx va ≠ pdx uvpt := by rwa [hva]
    have hdir' : v.dir (pdx va) = pdeWord t := by rwa [hva]
    rw [h.checkVa2pa hva' hdir', h.pageAt hva' hdir', htab]
    rfl
  have hload : m.load ⟨t, ptx mmiobase⟩ = pteWord 0 mmioPerm := by
    rw [Mem.load, h.tab, htab]
    exact (by decide : setEntries KernDir.testWords (fun _ => 0) (ptx mmiobase) = pteWord 0 mmioPerm)
  have h₁ : add32 mmiobase pgSize = mmiobase + pgSize := by decide
  have h₂ : add32 (mmiobase + 2 * pgSize) pgSize = mmiobase + 3 * pgSize := by decide
  simp only [Nctuos.checkMmio, h₁, h₂, hva2pa mmiobase rfl, hva2pa (mmiobase + pgSize) (by decide),
    hva2pa (mmiobase + 2 * pgSize) (by decide), hva2pa (mmiobase + 3 * pgSize) (by decide), pteOf,
    h.walk hne hdir, ok_bind, hload]
  decide

/-- The first page of the free list has become the page table of the window, and is empty. -/
theorem checkPageMmio (h : Seen c m₀ mine t ⟨t :: free, stash, ref, dir, tab⟩ m)
    (hbase : m₀.mmioNext = mmiobase) (hdir : present (dir (pdx mmiobase)) = false)
    (href : ref t = 0) :
    Yields (checkPageMmio c m) (Seen c { m₀ with mmioNext := mmiobase + 3 * pgSize } mine t
      ⟨free, stash, Function.update ref t 1, Function.update dir (pdx mmiobase) (pdeWord t),
        fun _ => 0⟩) := by
  have hne : pdx mmiobase ≠ pdx uvpt := by decide
  have hround₁ : roundup 4097 pgSize = 2 * pgSize := by decide
  have hround₂ : roundup 4096 pgSize = pgSize := by decide
  have hadd₁ : add32 mmiobase (2 * pgSize) = mmiobase + 2 * pgSize := by decide
  have hadd₂ : add32 (mmiobase + 2 * pgSize) pgSize = mmiobase + 3 * pgSize := by decide
  have htable : Function.update dir (pdx mmiobase) (pdeWord t) (pdx mmiobase) = pdeWord t :=
    Function.update_self _ _ _
  have hgrow := h.mmioMapRegion_grow hbase hne hdir href
    (by decide : roundup 4097 pgSize / pgSize = 1 + 1) 0
  rw [Nctuos.checkPageMmio, hgrow]
  obtain ⟨-, hgrown⟩ := h.walk_grow hne hdir href
  refine Yields.bind (hgrown.mmioMapRegion hbase (by decide) hne htable (by decide)) ?_
  rintro ⟨_, m₁⟩ ⟨rfl, h₁⟩
  rw [hround₁, hadd₁] at h₁
  have hbase₂ : ({ m₀ with mmioNext := mmiobase + 2 * pgSize } : Mem).mmioNext =
    mmiobase + 2 * pgSize := rfl
  refine Yields.bind (h₁.mmioMapRegion hbase₂ (by decide) hne htable (by decide)) ?_
  rintro ⟨_, m₂⟩ ⟨rfl, h₂⟩
  rw [hround₂, hadd₂] at h₂
  dsimp only at h₂ ⊢
  rw [← setEntries_append, ← KernDir.testWords] at h₂
  rw [h₂.checkMmio htable rfl, ok_bind]
  -- the three pages are unmapped
  refine Yields.bind (h₂.clearPte hne htable) fun m₃ h₃ => ?_
  refine Yields.bind (h₃.clearPte (by decide) htable) fun m₄ h₄ => ?_
  refine (h₄.clearPte (by decide) htable).mono fun m₅ h₅ => ?_
  dsimp only at h₅
  rw [testWords_entries_cleared] at h₅
  exact h₅

end Mmio

/-! ## `check_page` -/

theorem checkPage (h : Seen c m₀ [a, b, d] a ⟨a :: b :: d :: rest, [], ref, dir, tab⟩ m)
    (href : ref a = 0 ∧ ref b = 0 ∧ ref d = 0) (hbase : m₀.mmioNext = mmiobase)
    (hnone : ∀ i : Idx, i.val < (pdx mmiolim).val → i ≠ pdx uvpt → present (dir i) = false)
    (local₀ : PtePtr) :
    Yields (checkPage c local₀ m) (Seen c { m₀ with mmioNext := mmiobase + 3 * pgSize } [a, b, d] d
      ⟨b :: a :: rest, [], Function.update ref d 1,
        Function.update (pdes dir 0 0) (pdx mmiobase) (pdeWord d), fun _ => 0⟩) := by
  have hnodup : (a :: b :: d :: rest).Nodup := by
    have := h.nodup
    rwa [List.append_nil] at this
  have hcounts : counts ref a b d 0 0 0 = ref := by
    have hself := @counts_self ref a b d
    rwa [href.1, href.2.1, href.2.2] at hself
  rw [← hcounts, ← @pdes_self dir] at h
  refine Yields.bind h.takeThree ?_
  rintro ⟨_, m₁⟩ ⟨rfl, h₁⟩
  obtain ⟨hfl, h₂⟩ := h₁.steal
  refine Yields.bind (h₂.checkPageInsert hnodup (hnone 0 (by decide) (by decide))) fun m₃ h₃ => ?_
  refine Yields.bind (h₃.checkPageAgain hnodup) fun m₄ h₄ => ?_
  refine Yields.bind (h₄.checkPageReplace hnodup (hnone 1 (by decide) (by decide))) fun m₅ h₅ => ?_
  refine Yields.bind (h₅.checkPageRemove hnodup) fun m₆ h₆ => ?_
  refine Yields.bind (h₆.checkPageWalk (distinct_three hnodup).2.1
    (hnone 1 (by decide) (by decide))) fun m₇ h₇ => ?_
  -- the free list is given back
  have hlist : m₁.pageFreeList = rest.head? := hfl
  rw [hcounts] at h₇
  rw [hlist]
  refine Yields.bind (h₇.restore.freeThree ?_ fun p hp => ⟨h.mineAlloc p hp, ?_⟩) fun m₈ h₈ => ?_
  · rw [List.append_nil]
    exact (perm_freed a b d rest).nodup_iff.mpr hnodup
  · simp only [List.mem_cons, List.not_mem_nil, or_false] at hp
    rcases hp with rfl | rfl | rfl
    · exact href.1
    · exact href.2.1
    · exact href.2.2
  have hmmio : present (pdes dir 0 0 (pdx mmiobase)) = false :=
    hnone (pdx mmiobase) (by decide) (by decide)
  exact (h₈.look (by simp : d ∈ [a, b, d])).checkPageMmio hbase hmmio href.2.2

end Seen

/-! ## Both tests -/

/-- `check_page_alloc` and then `check_page` pass all their assertions.  Afterwards the free list is as
consistent as it was, and short of one page `t`, which is the page table of the MMIO window and
empty.  `kern_pgdir` has no other new entry; the first two are cleared by hand, which makes a
difference only if they were not 0 before.  The pages that were not free are as before. -/
theorem self_tests_neutral {c : Config} {m : Mem} {l : List Nat} {fuel : Nat} (local₀ : PtePtr)
    (hfuel : l.length ≤ fuel) (hfree : FreeList c m l) (hlen : 4 ≤ l.length)
    (hbase : m.mmioNext = mmiobase)
    (hnone : ∀ i : Idx, i.val < (pdx mmiolim).val → i ≠ pdx uvpt →
      present (m.ram c.kernPgdir i) = false) :
    ∃ m' l' t, (checkPageAlloc c fuel m >>= checkPage c local₀) = .ok m' ∧
      FreeList c m' l' ∧ (t :: l').Perm l ∧
      m'.ram c.kernPgdir (pdx mmiobase) = pdeWord t ∧ (∀ i, m'.ram t i = 0) ∧
      (∀ i, i ≠ pdx mmiobase → 2 ≤ i.val ∨ m.ram c.kernPgdir i = 0 →
        m'.ram c.kernPgdir i = m.ram c.kernPgdir i) ∧
      (∀ i : Idx, i.val < 2 → m'.ram c.kernPgdir i = 0) ∧
      ∀ p, p ∉ l → p ≠ c.kernPgdir → m'.ram p = m.ram p := by
  obtain ⟨a, b, d, rest, rfl⟩ : ∃ a b d rest, l = a :: b :: d :: rest := by
    match l, hlen with
    | a :: b :: d :: rest, _ => exact ⟨a, b, d, rest, rfl⟩
  have href : (m.pages a).ppRef = 0 ∧ (m.pages b).ppRef = 0 ∧ (m.pages d).ppRef = 0 :=
    ⟨hfree.ref a (by simp), hfree.ref b (by simp), hfree.ref d (by simp)⟩
  have hmine : ∀ p ∈ [a, b, d], p ∈ a :: b :: d :: rest := fun p hp => by
    simp only [List.mem_cons, List.not_mem_nil, or_false] at hp ⊢
    tauto
  have hseen : Seen c m [a, b, d] d _ m := Seen.ofFreeList hfree hmine (by simp)
  obtain ⟨m', hrun, h⟩ := Yields.bind (hseen.checkPageAlloc href hfuel) fun m₁ h₁ =>
    (h₁.look (by simp : a ∈ [a, b, d])).checkPage href hbase hnone local₀
  have hperm : (d :: b :: a :: rest).Perm (a :: b :: d :: rest) := perm_freed a b d rest
  have hnodup := hperm.nodup_iff.mpr hfree.chain.nodup
  refine ⟨m', b :: a :: rest, d, hrun, h.freeList fun p hp => ?_, hperm, ?_, fun i => ?_,
    fun i hi hsame => ?_, fun i hi => ?_, fun p hp hkern => ?_⟩
  · have hpd : p ≠ d := by
      rintro rfl
      exact (List.nodup_cons.mp hnodup).1 hp
    rw [Function.update_of_ne hpd]
    exact hfree.ref p (hperm.mem_iff.mp (List.mem_cons_of_mem d hp))
  · rw [h.dir]
    dsimp only
    rw [Function.update_self]
  · rw [h.tab]
  · rw [h.dir]
    dsimp only
    rw [Function.update_of_ne hi]
    by_cases hlt : i.val < 2
    · rw [pdes_of_lt hlt]
      rcases hsame with hge | hzero
      · omega
      · exact hzero.symm
    · exact pdes_of_le (Nat.not_lt.mp hlt)
  · have hne : i ≠ pdx mmiobase := by
      rintro rfl
      exact absurd hi (by decide)
    rw [h.dir]
    dsimp only
    rw [Function.update_of_ne hne, pdes_of_lt hi]
  · exact h.other p (fun hmem => hp (hmine p hmem)) hkern

/-- As they are run at boot, right after `page_init`. -/
theorem self_tests_neutral_boot :
    ∃ m' l' t, (checkPageAlloc .small 795 .small >>= checkPage .small ⟨0, 0⟩) = .ok m' ∧
      FreeList .small m' l' ∧ (t :: l').Perm (initList .small) ∧
      m'.ram Config.small.kernPgdir (pdx mmiobase) = pdeWord t := by
  have hlen := length_initList_small
  have hfree : FreeList .small .small (initList .small) := freeList_pageInit .small fun _ _ => 0
  have hnone : ∀ i : Idx, i.val < (pdx mmiolim).val → i ≠ pdx uvpt →
      present (Mem.small.ram Config.small.kernPgdir i) = false := fun i _ hi =>
    (tableOf_eq_none fun hself => hi hself.2).mp (tableOf_pageInit .small (fun _ _ => 0) i)
  obtain ⟨m', l', t, hrun, hfree', hperm, hpde, -⟩ := self_tests_neutral ⟨0, 0⟩ (le_of_eq hlen) hfree
    (by rw [hlen]; decide) (pageInit_initList .small fun _ _ => 0).mmio hnone
  exact ⟨m', l', t, hrun, hfree', hperm, hpde⟩

end Nctuos
