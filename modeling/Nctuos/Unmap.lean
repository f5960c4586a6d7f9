import Nctuos.PageOps

/-!
# Unmapping a page, and what was on the stack

`page_lookup` has an optional result: the comment says that the address of the entry is stored
if `pte_store` is not zero.  The code tests `*pte_store` instead.  So a NULL `pte_store` is
dereferenced, and a variable that holds NULL keeps it.  `page_remove` passes the address of a
local that it never sets, so whether the entry is cleared depends on what an earlier call left
on the stack: if that is NULL, the page is given back and then a store through NULL follows.

`pageLookupPtr` is `page_lookup` with the pointer itself for an argument;
`pageLookup`, in which the pointer is never NULL, is the case that `page_remove` uses.
`Removes` says what `page_remove` is for, in terms of single words and single pages.  The
directory has to be well-formed at the address only (`WellFormedAt`), which it is at every
address in any state that the page operations lead to (`wellFormedAt_of_run`).
-/

namespace Nctuos

open Lib

/-! ## `page_lookup` with any pointer -/

/-- `page_lookup`, with `none` for a NULL `pte_store` and otherwise with what it points to,
before and after. -/
def pageLookupPtr (c : Config) (pgdir va : Nat) (pteStore : Option (Option PtePtr)) (m : Mem) :
    Except Stop (Option Nat × Option (Option PtePtr)) := do
  let r ← pgdirWalk c pgdir va false m
  match r.1 with
  | none => .ok (none, pteStore)
  | some pte =>
      if ¬ present (m.load pte) then .ok (none, pteStore)
      else
        match pteStore with
        | none => .error .fault
        | some held => do
            let pp ← pa2page c (pteAddr (m.load pte))
            .ok (some pp, some (if held.isSome then some pte else held))

theorem pageLookupPtr_some (c : Config) (pgdir va : Nat) (held : Option PtePtr) (m : Mem) :
    pageLookupPtr c pgdir va (some held) m =
      (pageLookup c pgdir va held m).map fun r => (r.1, some r.2) := by
  rw [pageLookupPtr, pageLookup]
  cases pgdirWalk c pgdir va false m with
  | error e => rfl
  | ok r =>
      rw [ok_bind, ok_bind]
      cases r.1 with
      | none => rfl
      | some pte =>
          by_cases hpresent : present (m.load pte) = true
          · simp only [hpresent, not_true_eq_false, if_false]
            cases pa2page c (pteAddr (m.load pte)) with
            | error e => rfl
            | ok pp => rfl
          · simp [hpresent, Except.map]

/-! ## What is mapped where -/

/-- The place of the entry of `va`, if there is a page table for it. -/
def pteAt (m : Mem) (d va : Nat) : Option PtePtr :=
  if present (m.ram d (pdx va)) then some ⟨ptePage (m.ram d (pdx va)), ptx va⟩ else none

/-- The entry that maps `va` and the page it maps. -/
def mappedAt (m : Mem) (d va : Nat) : Option (PtePtr × Nat) :=
  (pteAt m d va).bind fun a => if present (m.load a) then some (a, ptePage (m.load a)) else none

/-- The page table of `va` is a page of memory, and the page mapped there is one in use whose
references are counted. -/
structure WellFormedAt (c : Config) (m : Mem) (d va : Nat) : Prop where
  table : ∀ a, pteAt m d va = some a → a.page < c.npages
  page : ∀ a p, mappedAt m d va = some (a, p) →
    p < c.npages ∧ m.link p = none ∧ 0 < (m.pages p).ppRef ∧ (m.pages p).ppRef < 2 ^ 16

/-- The entry `a` of `va` is cleared, page `p` loses a reference, and nothing else happens. -/
structure Unmaps (m m' : Mem) (a : PtePtr) (p va : Nat) : Prop where
  entry : m'.load a = 0
  ram : ∀ b, b ≠ a → m'.load b = m.load b
  ref : (m'.pages p).ppRef + 1 = (m.pages p).ppRef
  pages : ∀ q, q ≠ p → m'.pages q = m.pages q
  freed : (m.pages p).ppRef = 1 → m'.pageFreeList = some p ∧ m'.link p = m.pageFreeList ∧
    m'.numFreePages = add32 m.numFreePages 1
  kept : (m.pages p).ppRef ≠ 1 → m'.pageFreeList = m.pageFreeList ∧ m'.link p = m.link p ∧
    m'.numFreePages = m.numFreePages
  mmio : m'.mmioNext = m.mmioNext
  flushed : m'.flushed = va :: m.flushed

/-- What `page_remove` is for. -/
def Removes (m : Mem) (d va : Nat) (m' : Mem) : Prop :=
  match mappedAt m d va with
  | none => m' = m
  | some (a, p) => Unmaps m m' a p va

section Lookup

variable {c : Config} {m : Mem} {d va p : Nat} {a : PtePtr} {held local₀ : Option PtePtr}

theorem pgdirWalk_pteAt (h : WellFormedAt c m d va) :
    pgdirWalk c d va false m = .ok (pteAt m d va, m) := by
  have htable := h.table
  rw [pteAt] at htable ⊢
  by_cases hpresent : present (m.ram d (pdx va)) = true
  · rw [if_pos hpresent] at htable ⊢
    have hlt := htable _ rfl
    have hkaddr : kaddr c (pteAddr (m.ram d (pdx va))) = .ok (ptePage (m.ram d (pdx va))) := by
      rw [pteAddr_eq_page2pa]
      exact page2kva_of_lt hlt
    simp [pgdirWalk, Mem.load, hpresent, hkaddr]
  · rw [if_neg hpresent]
    simp [pgdirWalk, Mem.load, hpresent]

theorem mappedAt_eq_some : mappedAt m d va = some (a, p) ↔
    pteAt m d va = some a ∧ present (m.load a) = true ∧ ptePage (m.load a) = p := by
  rw [mappedAt, Option.bind_eq_some_iff]
  constructor
  · rintro ⟨b, hb, hmapped⟩
    split at hmapped
    · rename_i hpresent
      cases hmapped
      exact ⟨hb, hpresent, rfl⟩
    · cases hmapped
  · rintro ⟨ha, hpresent, rfl⟩
    exact ⟨a, ha, if_pos hpresent⟩

/-- With nothing mapped `page_lookup` does not look at `pte_store`. -/
theorem pageLookupPtr_unmapped (h : WellFormedAt c m d va) (hnone : mappedAt m d va = none)
    (pteStore : Option (Option PtePtr)) :
    pageLookupPtr c d va pteStore m = .ok (none, pteStore) := by
  rw [pageLookupPtr, pgdirWalk_pteAt h, ok_bind]
  cases hpte : pteAt m d va with
  | none => rfl
  | some a =>
      have habsent : ¬ present (m.load a) = true := by
        intro hpresent
        rw [mappedAt_eq_some.mpr ⟨hpte, hpresent, rfl⟩] at hnone
        cases hnone
      simp [habsent]

theorem pageLookupPtr_null (h : WellFormedAt c m d va) (hmapped : mappedAt m d va = some (a, p)) :
    pageLookupPtr c d va none m = .error .fault := by
  obtain ⟨hpte, hpresent, -⟩ := mappedAt_eq_some.mp hmapped
  rw [pageLookupPtr, pgdirWalk_pteAt h, ok_bind, hpte]
  simp [hpresent]

theorem pageLookup_mapped (h : WellFormedAt c m d va) (hmapped : mappedAt m d va = some (a, p))
    (held : Option PtePtr) : pageLookup c d va held m =
      .ok (some p, if held.isSome then some a else held) := by
  obtain ⟨hpte, hpresent, hpage⟩ := mappedAt_eq_some.mp hmapped
  have hpa : pa2page c (pteAddr (m.load a)) = .ok p := by
    rw [pteAddr_eq_page2pa, hpage]
    exact pa2page_page2pa (h.page a p hmapped).1
  rw [pageLookup, pgdirWalk_pteAt h, ok_bind, hpte]
  simp [hpresent, hpa]

theorem pageLookup_unmapped (h : WellFormedAt c m d va) (hnone : mappedAt m d va = none)
    (held : Option PtePtr) : pageLookup c d va held m = .ok (none, held) := by
  have hptr := pageLookupPtr_some c d va held m
  rw [pageLookupPtr_unmapped h hnone] at hptr
  cases hlookup : pageLookup c d va held m with
  | error e =>
      rw [hlookup] at hptr
      cases hptr
  | ok r =>
      rw [hlookup] at hptr
      obtain ⟨hpage, hheld⟩ := Prod.mk.inj (Except.ok.inj hptr)
      exact congrArg Except.ok (Prod.ext hpage.symm (Option.some.inj hheld).symm)

/-! ## `page_remove` -/

theorem Mem.load_store_same (m : Mem) (a : PtePtr) (w : Nat) : (m.store a w).load a = w := by
  simp [Mem.load, Mem.store]

theorem Mem.load_store_other (m : Mem) {a b : PtePtr} (w : Nat) (h : b ≠ a) :
    (m.store a w).load b = m.load b := by
  by_cases hpage : b.page = a.page
  · have hidx : b.idx ≠ a.idx := by
      intro hidx
      obtain ⟨p, i⟩ := a
      obtain ⟨q, j⟩ := b
      exact h (by rw [show q = p from hpage, show j = i from hidx])
    simp [Mem.load, Mem.store, hpage, hidx]
  · simp [Mem.load, Mem.store, hpage]

/-- The memory after `page_decref` of a page in use. -/
def Mem.decref (m : Mem) (p : Nat) : Mem :=
  if (m.pages p).ppRef = 1 then (m.drop p).give p else m.drop p

theorem pageDecref_eq (hlink : m.link p = none) (hpos : 0 < (m.pages p).ppRef)
    (hlt : (m.pages p).ppRef < 2 ^ 16) : pageDecref p m = .ok (m.decref p) := by
  rw [Mem.decref]
  split
  · rename_i hone
    exact pageDecref_last hone hlink
  · rename_i hne
    exact pageDecref_more (by omega) hlt

theorem unmaps_decref (a : PtePtr) (va : Nat) (hpos : 0 < (m.pages p).ppRef)
    (hlt : (m.pages p).ppRef < 2 ^ 16) :
    Unmaps m (((m.decref p).store a 0).tlbInvalidate va) a p va := by
  have hram : (m.decref p).ram = m.ram := by
    rw [Mem.decref]
    split <;> rfl
  have href := Mem.drop_ref_same hpos hlt
  have hpages : ∀ q, q ≠ p → (m.decref p).pages q = m.pages q := by
    intro q hq
    have hdrop : (m.drop p).pages q = m.pages q := by rw [Mem.drop_pages, if_neg hq]
    rw [Mem.decref]
    split
    · exact (Function.update_of_ne hq _ _).trans hdrop
    · exact hdrop
  refine ⟨?_, fun b hb => ?_, ?_, hpages, fun hone => ?_, fun hne => ?_, ?_, ?_⟩
  · exact Mem.load_store_same _ a 0
  · refine (Mem.load_store_other _ 0 hb).trans ?_
    rw [Mem.load, Mem.load, hram]
  · change ((m.decref p).pages p).ppRef + 1 = _
    rw [Mem.decref]
    split
    · rw [Mem.give_ref]
      exact href
    · exact href
  · change (m.decref p).pageFreeList = _ ∧ (m.decref p).link p = _ ∧ (m.decref p).numFreePages = _
    rw [Mem.decref, if_pos hone, Mem.give_link, Function.update_self]
    exact ⟨rfl, rfl, rfl⟩
  · change (m.decref p).pageFreeList = _ ∧ (m.decref p).link p = _ ∧ (m.decref p).numFreePages = _
    rw [Mem.decref, if_neg hne, Mem.drop_link]
    exact ⟨rfl, rfl, rfl⟩
  · change (m.decref p).mmioNext = m.mmioNext
    rw [Mem.decref]
    split <;> rfl
  · change va :: (m.decref p).flushed = va :: m.flushed
    rw [Mem.decref]
    split <;> rfl

section Remove

variable (h : WellFormedAt c m d va)

include h

/-- With a pointer on the stack, whichever. -/
theorem pageRemove_set (hmapped : mappedAt m d va = some (a, p)) (hlocal : local₀ ≠ none) :
    pageRemove c local₀ d va m = .ok (((m.decref p).store a 0).tlbInvalidate va) := by
  obtain ⟨-, hlink, hpos, hlt⟩ := h.page a p hmapped
  rw [pageRemove, pageLookup_mapped h hmapped, ok_bind]
  simp only [pageDecref_eq hlink hpos hlt, ok_bind, Option.isSome_iff_ne_none.mpr hlocal, if_true]

/-- With NULL on the stack the page is given back before the fault. -/
theorem pageRemove_unset (hmapped : mappedAt m d va = some (a, p)) :
    pageRemove c none d va m = .error .fault := by
  obtain ⟨-, hlink, hpos, hlt⟩ := h.page a p hmapped
  rw [pageRemove, pageLookup_mapped h hmapped, ok_bind]
  simp only [pageDecref_eq hlink hpos hlt, ok_bind, Option.isSome_none, Bool.false_eq_true,
    if_false]

theorem pageRemove_nothing (hnone : mappedAt m d va = none) (local₀ : Option PtePtr) :
    pageRemove c local₀ d va m = .ok m := by
  rw [pageRemove, pageLookup_unmapped h hnone, ok_bind]

theorem removes_iff :
    (∃ m', pageRemove c local₀ d va m = .ok m' ∧ Removes m d va m') ↔
      mappedAt m d va = none ∨ local₀ ≠ none := by
  cases hmapped : mappedAt m d va with
  | none =>
      refine iff_of_true ⟨m, pageRemove_nothing h hmapped local₀, ?_⟩ (Or.inl rfl)
      rw [Removes, hmapped]
  | some ap =>
      obtain ⟨a, p⟩ := ap
      obtain ⟨-, -, hpos, hlt⟩ := h.page a p hmapped
      constructor
      · rintro ⟨m', hok, -⟩
        refine Or.inr ?_
        rintro rfl
        rw [pageRemove_unset h hmapped] at hok
        cases hok
      · rintro (hnone | hlocal)
        · cases hnone
        · refine ⟨_, pageRemove_set h hmapped hlocal, ?_⟩
          rw [Removes, hmapped]
          exact unmaps_decref a va hpos hlt

theorem same_for_all_locals_iff :
    (∀ local₁ local₂, pageRemove c local₁ d va m = pageRemove c local₂ d va m) ↔
      mappedAt m d va = none := by
  cases hmapped : mappedAt m d va with
  | none =>
      refine iff_of_true (fun local₁ local₂ => ?_) rfl
      rw [pageRemove_nothing h hmapped, pageRemove_nothing h hmapped]
  | some ap =>
      obtain ⟨a, p⟩ := ap
      refine iff_of_false (fun hsame => ?_) (Option.some_ne_none _)
      have hdiffer := hsame none (some a)
      rw [pageRemove_unset h hmapped, pageRemove_set h hmapped (Option.some_ne_none a)] at hdiffer
      cases hdiffer

/-- What the comment of `page_lookup` says of a variable that `pte_store` points to. -/
theorem stores_iff :
    pageLookupPtr c d va (some held) m =
        .ok ((mappedAt m d va).map Prod.snd, some ((mappedAt m d va).elim held fun ap => some ap.1)) ↔
      mappedAt m d va = none ∨ held ≠ none := by
  rw [pageLookupPtr_some]
  cases hmapped : mappedAt m d va with
  | none =>
      refine iff_of_true ?_ (Or.inl rfl)
      rw [pageLookup_unmapped h hmapped]
      rfl
  | some ap =>
      obtain ⟨a, p⟩ := ap
      rw [pageLookup_mapped h hmapped]
      cases held with
      | none => simp [Except.map]
      | some b => simp [Except.map]

theorem returns_for_null_iff :
    pageLookupPtr c d va none m = .ok ((mappedAt m d va).map Prod.snd, none) ↔
      mappedAt m d va = none := by
  cases hmapped : mappedAt m d va with
  | none =>
      refine iff_of_true ?_ rfl
      rw [pageLookupPtr_unmapped h hmapped]
      rfl
  | some ap =>
      obtain ⟨a, p⟩ := ap
      rw [pageLookupPtr_null h hmapped]
      simp

end Remove

/-- **Uninitialised memory.**  `page_remove` does what it is for exactly if nothing is mapped at
`va` or its local does not happen to hold NULL, so it is the same for all values of the local
only where nothing is mapped.  `page_lookup` stores the address of the entry exactly if the
variable it is to store it in does not hold NULL, and with a NULL pointer it returns only if
there is nothing to return. -/
theorem page_remove_stack_dependence (h : WellFormedAt c m d va) :
    ((∃ m', pageRemove c local₀ d va m = .ok m' ∧ Removes m d va m') ↔
      mappedAt m d va = none ∨ local₀ ≠ none) ∧
    ((∀ local₁ local₂, pageRemove c local₁ d va m = pageRemove c local₂ d va m) ↔
      mappedAt m d va = none) ∧
    (pageLookupPtr c d va none m = .ok ((mappedAt m d va).map Prod.snd, none) ↔
      mappedAt m d va = none) ∧
    ∀ held, pageLookupPtr c d va (some held) m =
        .ok ((mappedAt m d va).map Prod.snd, some ((mappedAt m d va).elim held fun ap => some ap.1)) ↔
      mappedAt m d va = none ∨ held ≠ none :=
  ⟨removes_iff h, same_for_all_locals_iff h, returns_for_null_iff h, fun _ => stores_iff h⟩

end Lookup

/-! ## Where directories are well-formed -/

theorem pteAt_eq_tableOf {c : Config} {m : Mem} {d va : Nat} (hself : ¬ SelfMap c d (pdx va)) :
    pteAt m d va = (tableOf c m d (pdx va)).map fun t => ⟨t, ptx va⟩ := by
  rw [pteAt, tableOf, if_neg hself]
  split <;> rfl

/-- The page operations leave every directory well-formed at every address that it does not
map to itself. -/
theorem wellFormedAt_of_run {c : Config} {local₀ : Option PtePtr} {ram : Nat → Idx → Nat}
    {ops : List Op} {s : Paging} {d va : Nat} (hlocal : local₀.isSome)
    (hrun : Run (Op.Step c local₀) (Paging.boot c ram) ops s) (hd : d ∈ s.dirs)
    (hself : ¬ SelfMap c d (pdx va)) : WellFormedAt c s.mem d va := by
  obtain ⟨l, -, h⟩ := pagingInv_of_run hlocal hrun
  have htable : ∀ a, pteAt s.mem d va = some a →
      tableOf c s.mem d (pdx va) = some a.page ∧ a.idx = ptx va := by
    intro a ha
    rw [pteAt_eq_tableOf hself, Option.map_eq_some_iff] at ha
    obtain ⟨t, ht, rfl⟩ := ha
    exact ⟨ht, rfl⟩
  refine ⟨fun a ha => h.trees.table_lt d hd _ _ (htable a ha).1, fun a p hmapped => ?_⟩
  obtain ⟨hpte, hpresent, hpage⟩ := mappedAt_eq_some.mp hmapped
  obtain ⟨ht, hidx⟩ := htable a hpte
  have hat : pageAt c s.mem d va = some p := by
    rw [pageAt_of_table ht, ← hidx]
    exact (if_pos hpresent).trans (congrArg some hpage)
  obtain ⟨halloc, -, -, hlink, hpos⟩ := h.mapped hd trivial hat
  exact ⟨halloc.lt, hlink, hpos, h.ref_lt p⟩

/-! ## One page mapped -/

/-- Page 4 is mapped at address 0 of directory 2, through table 3. -/
def Mem.oneMapped : Mem :=
  { Mem.zeroed fun p i =>
      if p = 2 ∧ i = 0 then pdeWord 3 else if p = 3 ∧ i = 0 then pteWord (page2pa 4) pteW else 0 with
    pages := fun p => if p = 3 ∨ p = 4 then ⟨none, 1⟩ else ⟨none, 0⟩ }

theorem oneMapped_mappedAt : mappedAt .oneMapped 2 0 = some (⟨3, 0⟩, 4) := by decide

theorem oneMapped_wellFormedAt : WellFormedAt .small .oneMapped 2 0 := by
  refine ⟨fun a ha => ?_, fun a p hmapped => ?_⟩
  · have hpte : pteAt .oneMapped 2 0 = some ⟨3, 0⟩ := by decide
    rw [hpte] at ha
    cases ha
    decide
  · rw [oneMapped_mappedAt] at hmapped
    cases hmapped
    exact ⟨by decide, by decide, by decide, by decide⟩

/-- With something other than NULL on the stack the page is unmapped. -/
theorem page_remove_set_on_stack :
    ∃ m', pageRemove .small (some ⟨0, 0⟩) 2 0 .oneMapped = .ok m' ∧ Removes .oneMapped 2 0 m' :=
  (page_remove_stack_dependence oneMapped_wellFormedAt).1.mpr (Or.inr (Option.some_ne_none _))

/-- With NULL on the stack `page_remove` stores through it, and the same page is found mapped, and
its entry is not reported, or the pointer to report it to is dereferenced although it is NULL. -/
theorem page_remove_null_on_stack :
    mappedAt .oneMapped 2 0 = some (⟨3, 0⟩, 4) ∧ WellFormedAt .small .oneMapped 2 0 ∧
      pageRemove .small none 2 0 .oneMapped = .error .fault ∧
      pageLookupPtr .small 2 0 (some none) .oneMapped = .ok (some 4, some none) ∧
      pageLookupPtr .small 2 0 none .oneMapped = .error .fault := by
  have hwf := oneMapped_wellFormedAt
  refine ⟨oneMapped_mappedAt, hwf, pageRemove_unset hwf oneMapped_mappedAt, ?_,
    pageLookupPtr_null hwf oneMapped_mappedAt⟩
  rw [pageLookupPtr_some, pageLookup_mapped hwf oneMapped_mappedAt]
  rfl

end Nctuos
