import Nctuos.PageOps

/-!
# Sixteen bits of references

`pp_ref` is a `uint16_t`.  `page_insert` adds one to it and `page_decref` takes one away, and
neither looks at what comes out; a 32-bit address space has room for 2^20 mappings of one page,
and there can be several.  As long as a page is mapped at most 65535 times its count is right
and it is given back with its last mapping (`freed_only_when_unmapped`).  Mapped 65537 times, it
has a count of 1 again, and the first `page_remove` frees it.

The calls are those about one page `pp` that is in use for data.  The failing run is too long to
be carried out; it is built by induction on the number of mappings, `Inserted n` being the state
after `n` of them.  The invariants of `PagesOk` do not hold any more when the count has wrapped
around, so `Inserted` goes without them.
-/

namespace Nctuos

open Lib

/-! ## The calls about one page -/

inductive MapOp
  | insert (pgdir va perm : Nat)
  | remove (pgdir va : Nat)

namespace Paging

/-- `pp` is in use, and neither as a page directory nor as a page table. -/
def DataPage (c : Config) (s : Paging) (pp : Nat) : Prop :=
  s.Allocated c pp ∧ pp ∉ s.dirs ∧ s.pdes c pp = ∅

end Paging

namespace MapOp

variable (c : Config) (local₀ : Option PtePtr) (pp : Nat)

/-- A call that succeeds: `pp` is mapped somewhere, or unmapped where it was mapped. -/
def Step (s : Paging) : MapOp → Paging → Prop
  | insert pgdir va perm, s' => pgdir ∈ s.dirs ∧ ¬ SelfMap c pgdir (pdx va) ∧ perm < 4096 ∧
      s.DataPage c pp ∧ pageInsert c local₀ pgdir pp va perm s.mem = .ok (0, s'.mem) ∧
      s'.dirs = s.dirs
  | remove pgdir va, s' => pgdir ∈ s.dirs ∧ ¬ SelfMap c pgdir (pdx va) ∧
      pageAt c s.mem pgdir va = some pp ∧ pageRemove c local₀ pgdir va s.mem = .ok s'.mem ∧
      s'.dirs = s.dirs

/-- With the mapping to be made, `pp` is mapped at most 65535 times. -/
def Counted (s : Paging) : MapOp → Prop
  | insert pgdir va _ => (Insert.insert (pgdir, slotOf va) (s.ptes c pp)).ncard ≤ 65535
  | remove _ _ => True

end MapOp

/-! ## Whatever is on the stack

A call of `page_remove` that comes to its end has cleared the entry, so it does the same with any
entry in its local variable.
-/

section Local

variable {c : Config} {local₀ : Option PtePtr} {d va pp perm : Nat} {m m' : Mem}

theorem pageLookup_of_ok {r : Option Nat × Option PtePtr}
    (h : pageLookup c d va local₀ m = .ok r) (a : PtePtr) :
    (r.1 = none ∧ pageLookup c d va (some a) m = .ok (none, some a)) ∨
      ∃ p pte, r = (some p, if local₀.isSome then some pte else local₀) ∧
        pageLookup c d va (some a) m = .ok (some p, some pte) := by
  rw [pageLookup] at h
  obtain ⟨⟨w, m₁⟩, hwalk, h⟩ := bind_ok_iff.mp h
  rw [pageLookup, hwalk, ok_bind]
  cases w with
  | none =>
      cases h
      exact .inl ⟨rfl, rfl⟩
  | some pte =>
      by_cases habsent : ¬ present (m.load pte)
      · simp only [if_pos habsent] at h ⊢
        cases h
        exact .inl ⟨rfl, trivial⟩
      · simp only [if_neg habsent] at h ⊢
        obtain ⟨p, hpage, h⟩ := bind_ok_iff.mp h
        cases h
        exact .inr ⟨p, pte, rfl, by rw [hpage, ok_bind]; rfl⟩

theorem pageRemove_of_ok (h : pageRemove c local₀ d va m = .ok m') (a : PtePtr) :
    pageRemove c (some a) d va m = .ok m' := by
  rw [pageRemove] at h
  obtain ⟨r, hlookup, h⟩ := bind_ok_iff.mp h
  rcases pageLookup_of_ok hlookup a with ⟨hnone, hany⟩ | ⟨p, pte, rfl, hany⟩
  · rw [hnone] at h
    rw [pageRemove, hany, ok_bind]
    exact h
  · obtain ⟨m₁, hdecref, h⟩ := bind_ok_iff.mp h
    rw [pageRemove, hany, ok_bind]
    refine bind_ok_iff.mpr ⟨m₁, hdecref, ?_⟩
    cases local₀ with
    | none => cases h
    | some b => exact h

theorem pageInsert_of_ok {r : Int × Mem} (h : pageInsert c local₀ d pp va perm m = .ok r)
    (a : PtePtr) : pageInsert c (some a) d pp va perm m = .ok r := by
  rw [pageInsert] at h ⊢
  obtain ⟨w, hwalk, h⟩ := bind_ok_iff.mp h
  refine bind_ok_iff.mpr ⟨w, hwalk, ?_⟩
  cases hpte : w.1 with
  | none =>
      rw [hpte] at h
      exact h
  | some pte =>
      rw [hpte] at h
      by_cases hsame : present (w.2.load pte) ∧ pteAddr (w.2.load pte) = page2pa pp
      · simp only [if_pos hsame] at h ⊢
        exact h
      · simp only [if_neg hsame] at h ⊢
        by_cases hpresent : present (w.2.load pte)
        · rw [if_pos hpresent] at h ⊢
          obtain ⟨m₁, hremove, h⟩ := bind_ok_iff.mp h
          exact bind_ok_iff.mpr ⟨m₁, pageRemove_of_ok hremove a, h⟩
        · rw [if_neg hpresent] at h ⊢
          exact h

theorem Op.Step.of_local {s s' : Paging} {op : Op} (h : Op.Step c local₀ s op s') (a : PtePtr) :
    Op.Step c (some a) s op s' := by
  obtain ⟨hallowed, hrun⟩ := h
  refine ⟨hallowed, ?_⟩
  cases op with
  | insert pgdir pp va perm =>
      obtain ⟨r, hinsert, hok⟩ := bind_ok_iff.mp hrun
      exact bind_ok_iff.mpr ⟨r, pageInsert_of_ok hinsert a, hok⟩
  | remove pgdir va =>
      obtain ⟨r, hremove, hok⟩ := bind_ok_iff.mp hrun
      exact bind_ok_iff.mpr ⟨r, pageRemove_of_ok hremove a, hok⟩
  | alloc zero => exact hrun
  | adopt p => exact hrun
  | free p => exact hrun
  | walk pgdir va => exact hrun

end Local

/-! ## As long as it is counted -/

section Counted

variable {c : Config} {local₀ : Option PtePtr} {pp : Nat} {ram : Nat → Idx → Nat}
  {ops₀ : List Op} {ops : List MapOp} {s₀ s s' : Paging} {l : List Nat} {op : MapOp}

/-- A counted call is one of the page operations. -/
theorem MapOp.Step.opStep (h : MapOp.Step c local₀ pp s op s') (hcount : op.Counted c pp s) :
    ∃ op', Op.Step c local₀ s op' s' := by
  cases op with
  | insert pgdir va perm =>
      obtain ⟨hd, hself, hperm, ⟨halloc, hdir, hpde⟩, hok, hdirs⟩ := h
      refine ⟨.insert pgdir pp va perm, ⟨hd, hself, halloc, hdir, hpde, hperm, hcount⟩, ?_⟩
      rw [Op.run, hok, ok_bind, ← hdirs]
  | remove pgdir va =>
      obtain ⟨hd, hself, -, hok, hdirs⟩ := h
      refine ⟨.remove pgdir va, ⟨hd, hself⟩, ?_⟩
      rw [Op.run, hok, ok_bind, ← hdirs]

theorem pagingInv_of_steps (hstart : Run (Op.Step c local₀) (Paging.boot c ram) ops₀ s₀) :
    ∃ l, PagingInv c s₀ l :=
  pagingInv_of_run rfl (hstart.mono fun _ _ _ h => h.of_local ⟨0, 0⟩)

theorem pagingInv_of_mapOps (hstart : Run (Op.Step c local₀) (Paging.boot c ram) ops₀ s₀)
    (hrun : Run (fun s op s' => MapOp.Step c local₀ pp s op s' ∧ op.Counted c pp s) s₀ ops s) :
    ∃ l, PagingInv c s l := by
  refine hrun.invariant (I := fun s => ∃ l, PagingInv c s l) (fun s op s' hinv hstep => ?_)
    (pagingInv_of_steps hstart)
  obtain ⟨l, h⟩ := hinv
  obtain ⟨op', hop⟩ := hstep.1.opStep hstep.2
  obtain ⟨hallowed, hok⟩ := hop.of_local ⟨0, 0⟩
  obtain ⟨s'', l', hok', h'⟩ := h.run (Option.isSome_some : (some _).isSome) hallowed
  obtain rfl := Except.ok.inj (hok.symm.trans hok')
  exact ⟨l', h'⟩

/-- **A mapped page is not freed**, as long as each call finds or leaves it mapped at most 65535
times: when it is on the free list no entry maps it, and while it is not its count is the number
of entries that name it. -/
theorem freed_only_when_unmapped
    (hstart : Run (Op.Step c local₀) (Paging.boot c ram) ops₀ s₀)
    (hrun : Run (fun s op s' => MapOp.Step c local₀ pp s op s' ∧ op.Counted c pp s) s₀ ops s) :
    ∃ l, Chain s.mem.link s.mem.pageFreeList l ∧
      (pp ∈ l → ∀ d ∈ s.dirs, ∀ va, pageAt c s.mem d va ≠ some pp) ∧
      (c.Allocatable pp → pp ∉ l →
        (s.mem.pages pp).ppRef = (s.ptes c pp).ncard + (s.pdes c pp).ncard) := by
  obtain ⟨l, h⟩ := pagingInv_of_mapOps hstart hrun
  refine ⟨l, h.2.free.chain, fun hmem d hd va hat => ?_, h.2.refs pp⟩
  exact (h.2.mapped hd trivial hat).2.1 hmem

end Counted

/-! ## Mapped too often -/

/-- The directory entries of the first `n` pages of the address space. -/
def firstEntries (n : Nat) : Finset Idx := (Finset.range n).image fun i => pdx (i * pgSize)

/-- Page `pp` has been mapped at the first `n` pages of the address space of `kern_pgdir`, and
there are free pages for the tables that the first `total` pages still need. -/
structure Inserted (c : Config) (pp perm total n : Nat) (m : Mem) (l : List Nat) : Prop where
  trees : Trees c {c.kernPgdir} m l
  room : (missing c m c.kernPgdir (firstEntries total)).card ≤ l.length
  alloc : c.Allocatable pp
  unused : pp ∉ l
  not_table : ∀ i, tableOf c m c.kernPgdir i ≠ some pp
  link : m.link pp = none
  ref : (m.pages pp).ppRef = n % 2 ^ 16
  mapped : ∀ i < n, entryOf c m c.kernPgdir (slotOf (i * pgSize)) = pteWord (page2pa pp) perm
  unmapped : ∀ i, n ≤ i → i < total → entryOf c m c.kernPgdir (slotOf (i * pgSize)) = 0

section Inserts

variable {c : Config} {local₀ : Option PtePtr} {pp perm total n : Nat} {m : Mem} {l : List Nat}

/-- An address below `UVPT`. -/
theorem not_selfMap_low {i : Nat} (h : i < 2 ^ 19) : ¬ SelfMap c c.kernPgdir (pdx (i * pgSize)) := by
  rintro ⟨-, hidx⟩
  simp only [Fin.ext_iff, pdx_val, pgSize, uvpt_eq] at hidx
  omega

theorem slotOf_low_inj {i j : Nat} (hi : i < 2 ^ 20) (hj : j < 2 ^ 20)
    (h : slotOf (i * pgSize) = slotOf (j * pgSize)) : i = j := by
  refine @slotOf_range_inj 0 i j hi hj ?_
  rw [Nat.zero_add, Nat.zero_add]
  exact h

theorem Inserted.dataPage (h : Inserted c pp perm total n m l) :
    Paging.DataPage c ⟨{c.kernPgdir}, m⟩ pp := by
  refine ⟨⟨h.alloc, fun l' hl' => ?_⟩, fun hmem => ?_, ?_⟩
  · rw [← h.trees.chain.unique hl']
    exact h.unused
  · rw [Finset.mem_singleton] at hmem
    exact c.not_allocatable_kernPgdir (hmem ▸ h.alloc)
  · refine Set.eq_empty_iff_forall_notMem.mpr fun di hmem => ?_
    have hd : di.1 = c.kernPgdir := Finset.mem_singleton.mp hmem.1
    exact h.not_table di.2 (hd ▸ hmem.2)

/-- There is a table for the next page, or a page to make one. -/
theorem Inserted.walk (h : Inserted c pp perm total n m l) (hn : n < total) (htotal : total ≤ 2 ^ 19) :
    ∃ t m₁ l₁ new, pgdirWalk c c.kernPgdir (n * pgSize) true m =
        .ok (some ⟨t, ptx (n * pgSize)⟩, m₁) ∧
      tableOf c m₁ c.kernPgdir (pdx (n * pgSize)) = some t ∧
      Edits c {c.kernPgdir} c.kernPgdir {pdx (n * pgSize)} id m l m₁ l₁ new := by
  rcases pgdirWalk_edits h.trees (Finset.mem_singleton_self _)
    (not_selfMap_low (Nat.lt_of_lt_of_le hn htotal)) with ⟨hnone, rfl, -⟩ | hwalk
  · have hroom := h.room
    rw [List.length_nil, Nat.le_zero, Finset.card_eq_zero] at hroom
    have hmem : pdx (n * pgSize) ∈ missing c m c.kernPgdir (firstEntries total) :=
      Finset.mem_filter.mpr ⟨Finset.mem_image_of_mem _ (Finset.mem_range.mpr hn), hnone⟩
    rw [hroom] at hmem
    exact absurd hmem (Finset.notMem_empty _)
  · exact hwalk

/-- The state after one mapping more, in terms of what has changed since the walk. -/
theorem Inserted.next {t : Nat} {m₁ m' : Mem} {l₁ new : List Nat}
    (h : Inserted c pp perm total n m l) (hn : n < total) (htotal : total ≤ 2 ^ 19)
    (htable : tableOf c m₁ c.kernPgdir (pdx (n * pgSize)) = some t)
    (hedits : Edits c {c.kernPgdir} c.kernPgdir {pdx (n * pgSize)} id m l m₁ l₁ new)
    (hram : m'.ram = (m₁.store ⟨t, ptx (n * pgSize)⟩ (pteWord (page2pa pp) perm)).ram)
    (hpages : m'.pages = (incref pp m₁).pages) (hfree : m'.pageFreeList = m₁.pageFreeList) :
    Inserted c pp perm total (n + 1) m' l₁ := by
  have hd := Finset.mem_singleton_self c.kernPgdir
  have hnew : pp ∉ new := fun hmem => h.unused (hedits.free ▸ List.mem_append_left l₁ hmem)
  have hlink : m'.link = m₁.link := by
    funext q
    rw [Mem.link, Mem.link, hpages, MemInv.incref_pages]
    split <;> rfl
  obtain ⟨htables, hentry, -⟩ := hedits.read_store hd htable hram
  have hcount := hedits.card_missing h.trees hd
    (Finset.singleton_subset_iff.mpr (Finset.mem_image_of_mem _ (Finset.mem_range.mpr hn)) :
      {pdx (n * pgSize)} ⊆ firstEntries total)
  have hlen := congrArg List.length hedits.free
  rw [List.length_append] at hlen
  refine
    { trees := hedits.trees.of_tables hlink hfree htables,
      room := ?_,
      alloc := h.alloc,
      unused := fun hmem => h.unused (hedits.free ▸ List.mem_append_right new hmem),
      not_table := fun i hi => ?_,
      link := ?_,
      ref := ?_,
      mapped := fun i hi => ?_,
      unmapped := fun i hle hi => ?_ }
  · have hroom := h.room
    rw [missing, htables _ hd, ← missing]
    omega
  · rw [htables _ hd] at hi
    rcases hedits.table_new i pp hi with hold | ⟨-, hmem⟩
    · exact h.not_table i hold
    · exact hnew hmem
  · rw [hlink, Mem.link, hedits.pages pp hnew]
    exact h.link
  · rw [hpages, MemInv.incref_pages, if_pos rfl, hedits.pages pp hnew, h.ref]
    simp only
    omega
  · rw [hentry]
    by_cases hin : i = n
    · rw [hin, Function.update_self]
    · rw [Function.update_of_ne fun heq => hin (slotOf_low_inj (by omega) (by omega) heq)]
      exact h.mapped i (by omega)
  · rw [hentry, Function.update_of_ne fun heq => ?_]
    · exact h.unmapped i (by omega) hi
    · exact absurd (slotOf_low_inj (by omega) (by omega) heq) (by omega)

/-- One mapping more. -/
theorem Inserted.step (h : Inserted c pp perm total n m l) (local₀ : Option PtePtr)
    (hperm : perm < 4096) (hn : n < total) (htotal : total ≤ 2 ^ 19) :
    ∃ m' l', MapOp.Step c local₀ pp ⟨{c.kernPgdir}, m⟩ (.insert c.kernPgdir (n * pgSize) perm)
        ⟨{c.kernPgdir}, m'⟩ ∧ Inserted c pp perm total (n + 1) m' l' := by
  obtain ⟨t, m₁, l₁, new, hwalk, htable, hedits⟩ := h.walk hn htotal
  have hat : pageAt c m₁ c.kernPgdir (n * pgSize) = none := by
    rw [pageAt, mapOf_vpnOf, hedits.entry, id, h.unmapped n (Nat.le_refl n) hn, decode_zero,
      Option.map_none]
  exact ⟨_, l₁, ⟨Finset.mem_singleton_self _, not_selfMap_low (Nat.lt_of_lt_of_le hn htotal), hperm,
    h.dataPage, pageInsert_fresh hwalk htable hat, rfl⟩, h.next hn htotal htable hedits rfl rfl rfl⟩

/-- Any number of mappings, one after the other. -/
theorem Inserted.run (h : Inserted c pp perm total 0 m l) (hperm : perm < 4096)
    (htotal : total ≤ 2 ^ 19) (n : Nat) (hn : n ≤ total) :
    ∃ m' l', Run (MapOp.Step c local₀ pp) ⟨{c.kernPgdir}, m⟩
        ((List.range n).map fun i => .insert c.kernPgdir (i * pgSize) perm) ⟨{c.kernPgdir}, m'⟩ ∧
      Inserted c pp perm total n m' l' := by
  induction n with
  | zero => exact ⟨m, l, .nil _, h⟩
  | succ n ih =>
      obtain ⟨m₁, l₁, hrun, h₁⟩ := ih (Nat.le_of_succ_le hn)
      obtain ⟨m₂, l₂, hstep, h₂⟩ := h₁.step local₀ hperm hn htotal
      refine ⟨m₂, l₂, ?_, h₂⟩
      rw [List.range_succ, List.map_append]
      exact hrun.concat hstep

theorem Inserted.pageAt_eq (h : Inserted c pp perm total n m l) (hperm : perm < 4096) {i : Nat}
    (hi : i < n) : pageAt c m c.kernPgdir (i * pgSize) = some pp := by
  have hlt := h.alloc.lt
  have hnp := c.npages_lt
  rw [pageAt, mapOf_vpnOf, h.mapped i hi, decode_pteWord (by omega) hperm, Option.map_some]

theorem Inserted.exists_table (h : Inserted c pp perm total n m l) (hperm : perm < 4096) {i : Nat}
    (hi : i < n) :
    ∃ t, tableOf c m c.kernPgdir (pdx (i * pgSize)) = some t ∧ t < c.npages := by
  cases htable : tableOf c m c.kernPgdir (pdx (i * pgSize)) with
  | none =>
      have hat := h.pageAt_eq hperm hi
      rw [pageAt_of_none htable] at hat
      cases hat
  | some t => exact ⟨t, rfl, h.trees.table_lt _ (Finset.mem_singleton_self _) _ t htable⟩

/-- The latest mapping is taken back, and it was not the only one. -/
theorem Inserted.undo (h : Inserted c pp perm total (n + 1) m l) (hmore : 1 < (n + 1) % 2 ^ 16)
    (hperm : perm < 4096) (hn : n < total) (htotal : total ≤ 2 ^ 19) (hlocal : local₀.isSome) :
    ∃ m', MapOp.Step c local₀ pp ⟨{c.kernPgdir}, m⟩ (.remove c.kernPgdir (n * pgSize))
        ⟨{c.kernPgdir}, m'⟩ ∧ Inserted c pp perm total n m' l := by
  have hd := Finset.mem_singleton_self c.kernPgdir
  have hat := h.pageAt_eq hperm n.lt_succ_self
  have hcount := h.ref
  obtain ⟨t, htable, hlt⟩ := h.exists_table hperm n.lt_succ_self
  have hdecref := pageDecref_more (m := m) (p := pp) (by omega) (by omega)
  have hremove := pageRemove_mapped htable hlt hat h.alloc.lt hlocal hdecref
  have hram : (((m.drop pp).store ⟨t, ptx (n * pgSize)⟩ 0).tlbInvalidate (n * pgSize)).ram =
      (m.store ⟨t, ptx (n * pgSize)⟩ 0).ram := rfl
  have hlink : (((m.drop pp).store ⟨t, ptx (n * pgSize)⟩ 0).tlbInvalidate (n * pgSize)).link =
      m.link := Mem.drop_link m pp
  have href : ((((m.drop pp).store ⟨t, ptx (n * pgSize)⟩ 0).tlbInvalidate (n * pgSize)).pages
      pp).ppRef = n % 2 ^ 16 := by
    have hsame : ((m.drop pp).pages pp).ppRef + 1 = (m.pages pp).ppRef :=
      Mem.drop_ref_same (by omega) (by omega)
    change ((m.drop pp).pages pp).ppRef = n % 2 ^ 16
    omega
  have hfree : (((m.drop pp).store ⟨t, ptx (n * pgSize)⟩ 0).tlbInvalidate
      (n * pgSize)).pageFreeList = m.pageFreeList := rfl
  generalize ((m.drop pp).store ⟨t, ptx (n * pgSize)⟩ 0).tlbInvalidate (n * pgSize) = m'
    at hremove hram hlink href hfree
  obtain ⟨htables, hentry, -⟩ := (Edits.refl h.trees).read_store hd htable hram
  refine ⟨m', ⟨hd, not_selfMap_low (Nat.lt_of_lt_of_le hn htotal), hat, hremove, rfl⟩, ?_⟩
  refine
    { trees := h.trees.of_tables hlink hfree htables,
      room := ?_,
      alloc := h.alloc,
      unused := h.unused,
      not_table := fun i hi => ?_,
      link := hlink ▸ h.link,
      ref := href,
      mapped := fun i hi => ?_,
      unmapped := fun i hle hi => ?_ }
  · rw [missing, htables _ hd, ← missing]
    exact h.room
  · rw [htables _ hd] at hi
    exact h.not_table i hi
  · rw [hentry, Function.update_of_ne fun heq => ?_]
    · exact h.mapped i (by omega)
    · exact absurd (slotOf_low_inj (by omega) (by omega) heq) (by omega)
  · rw [hentry]
    by_cases hin : i = n
    · rw [hin]
      exact Function.update_self _ _ _
    · rw [Function.update_of_ne fun heq => hin (slotOf_low_inj (by omega) (by omega) heq)]
      exact h.unmapped i (by omega) hi

/-- With a count of 1, unmapping the first of the mappings frees the page; the others stay. -/
theorem Inserted.remove (h : Inserted c pp perm total n m l) (hone : n % 2 ^ 16 = 1)
    (hperm : perm < 4096) (hn : n ≤ total) (htotal : total ≤ 2 ^ 19) (hlocal : local₀.isSome) :
    ∃ m', MapOp.Step c local₀ pp ⟨{c.kernPgdir}, m⟩ (.remove c.kernPgdir (0 * pgSize))
        ⟨{c.kernPgdir}, m'⟩ ∧
      m'.pageFreeList = some pp ∧
      ∀ i, 0 < i → i < n → pageAt c m' c.kernPgdir (i * pgSize) = some pp := by
  have hd := Finset.mem_singleton_self c.kernPgdir
  have hzero := h.pageAt_eq hperm (show 0 < n by omega)
  obtain ⟨t, htable, hlt⟩ := h.exists_table hperm (show 0 < n by omega)
  have hdecref := pageDecref_last (h.ref.trans hone) h.link
  have hremove := pageRemove_mapped htable hlt hzero h.alloc.lt hlocal hdecref
  have hram : ((((m.drop pp).give pp).store ⟨t, ptx (0 * pgSize)⟩ 0).tlbInvalidate
      (0 * pgSize)).ram = (m.store ⟨t, ptx (0 * pgSize)⟩ 0).ram := rfl
  have hfree : ((((m.drop pp).give pp).store ⟨t, ptx (0 * pgSize)⟩ 0).tlbInvalidate
      (0 * pgSize)).pageFreeList = some pp := rfl
  generalize (((m.drop pp).give pp).store ⟨t, ptx (0 * pgSize)⟩ 0).tlbInvalidate (0 * pgSize) = m'
    at hremove hram hfree
  refine ⟨m', ⟨hd, not_selfMap_low (by decide), hzero, hremove, rfl⟩, hfree, fun i hpos hi => ?_⟩
  obtain ⟨-, hentry, -⟩ := (Edits.refl h.trees).read_store hd htable hram
  rw [pageAt, mapOf_vpnOf, hentry, Function.update_of_ne fun heq => ?_, ← mapOf_vpnOf, ← pageAt]
  · exact h.pageAt_eq hperm hi
  · exact absurd (slotOf_low_inj (by omega) (by omega) heq) (by omega)

end Inserts

/-! ## From the start -/

section Start

variable {c : Config} {ram : Nat → Idx → Nat} {local₀ : Option PtePtr} {pp perm total : Nat}
  {l : List Nat}

/-- The first page on the list is allocated. -/
theorem inserted_init (hl : initList c = pp :: l) (hroom : (firstEntries total).card ≤ l.length) :
    Run (Op.Step c local₀) (Paging.boot c ram) [.alloc true]
        ⟨{c.kernPgdir}, (Paging.boot c ram).mem.take true pp⟩ ∧
      Inserted c pp perm total 0 ((Paging.boot c ram).mem.take true pp) l := by
  obtain ⟨halloc, hpl, hstep, hinv, href⟩ := @boot_take c local₀ ram pp l hl
  have hkern := halloc.ne_kernPgdir.symm
  have htable : ∀ i, tableOf c ((Paging.boot c ram).mem.take true pp) c.kernPgdir i = none := by
    intro i
    rw [tableOf_congr (Mem.take_ram_other _ true hkern)]
    exact tableOf_pageInit c ram i
  refine ⟨.cons ⟨trivial, hstep⟩ (.nil _), ?_⟩
  refine
    { trees := hinv.2.trees,
      room := (Finset.card_filter_le _ _).trans hroom,
      alloc := halloc,
      unused := hpl,
      not_table := fun i hi => ?_,
      link := hinv.2.free.used pp halloc hpl,
      ref := href,
      mapped := fun i hi => absurd hi (Nat.not_lt_zero i),
      unmapped := fun i _ _ => entryOf_none (htable _) }
  rw [htable] at hi
  cases hi

/-- Nothing maps a page that has just been allocated. -/
theorem Inserted.ptes_eq_empty {ops : List Op} {m : Mem} (h : Inserted c pp perm total 0 m l)
    (hstart : Run (Op.Step c local₀) (Paging.boot c ram) ops ⟨{c.kernPgdir}, m⟩) :
    (Paging.mk {c.kernPgdir} m).ptes c pp = ∅ := by
  obtain ⟨l', hinv⟩ := pagingInv_of_steps hstart
  obtain rfl := h.trees.chain.unique hinv.2.free.chain
  exact (hinv.2.unreferenced h.alloc h.unused h.ref).1

theorem card_firstEntries : (firstEntries 65537).card ≤ 65 := by
  have hsub : firstEntries 65537 ⊆ Finset.univ.filter fun i : Idx => i.val ≤ 64 := by
    intro i hi
    obtain ⟨k, hk, rfl⟩ := Finset.mem_image.mp hi
    rw [Finset.mem_range] at hk
    refine Finset.mem_filter.mpr ⟨Finset.mem_univ _, ?_⟩
    rw [pdx_val, pgSize]
    omega
  have hcard : (Finset.univ.filter fun i : Idx => i.val ≤ 64).card = 65 := by decide +kernel
  exact hcard ▸ Finset.card_le_card hsub

/-- On the machine with four megabytes. -/
theorem inserted_small (perm : Nat) :
    ∃ m l, Run (Op.Step .small (some ⟨0, 0⟩)) (Paging.boot .small fun _ _ => 0) [.alloc true]
        ⟨{Config.small.kernPgdir}, m⟩ ∧ Inserted .small 1023 perm 65537 0 m l := by
  have hl : initList .small = 1023 :: (initList .small).tail := by decide +kernel
  have hroom : (firstEntries 65537).card ≤ (initList .small).tail.length := by
    refine card_firstEntries.trans ?_
    rw [List.length_tail, length_initList_small]
    decide
  exact ⟨_, _, inserted_init hl hroom⟩

end Start

/-- A page is allocated, mapped twice and unmapped twice.  It has a count of 2 in between, and is on
the free list in the end. -/
theorem freed_only_when_unmapped_twice :
    ∃ s₀ s₂ s, Run (Op.Step .small (some ⟨0, 0⟩)) (Paging.boot .small fun _ _ => 0) [.alloc true] s₀ ∧
      Run (fun s op s' => MapOp.Step .small (some ⟨0, 0⟩) 1023 s op s' ∧ op.Counted .small 1023 s) s₀
        [.insert Config.small.kernPgdir (0 * pgSize) pteW,
          .insert Config.small.kernPgdir (1 * pgSize) pteW] s₂ ∧
      (s₂.mem.pages 1023).ppRef = 2 ∧
      (s₂.ptes .small 1023).ncard + (s₂.pdes .small 1023).ncard = 2 ∧
      Run (fun s op s' => MapOp.Step .small (some ⟨0, 0⟩) 1023 s op s' ∧ op.Counted .small 1023 s) s₂
        [.remove Config.small.kernPgdir (1 * pgSize), .remove Config.small.kernPgdir (0 * pgSize)] s ∧
      s.mem.pageFreeList = some 1023 ∧ ∀ d ∈ s.dirs, ∀ va, pageAt .small s.mem d va ≠ some 1023 := by
  have hlocal : (some (⟨0, 0⟩ : PtePtr)).isSome = true := rfl
  obtain ⟨m, l, hstart, h⟩ := inserted_small pteW
  obtain ⟨m₁, l₁, hstep₁, h₁⟩ := h.step (some ⟨0, 0⟩) (by decide) (by decide) (by decide)
  obtain ⟨m₂, l₂, hstep₂, h₂⟩ := h₁.step (some ⟨0, 0⟩) (by decide) (by decide) (by decide)
  obtain ⟨m₃, hstep₃, h₃⟩ := h₂.undo (by decide) (by decide) (by decide) (by decide) hlocal
  obtain ⟨m₄, hstep₄, hhead, -⟩ := h₃.remove (by decide) (by decide) (by decide) (by decide) hlocal
  have hcount₁ : MapOp.Counted .small 1023 ⟨{Config.small.kernPgdir}, m⟩
      (.insert Config.small.kernPgdir (0 * pgSize) pteW) := by
    rw [MapOp.Counted, h.ptes_eq_empty hstart, insert_empty_eq, Set.ncard_singleton]
    decide
  have hcount₂ : MapOp.Counted .small 1023 ⟨{Config.small.kernPgdir}, m₁⟩
      (.insert Config.small.kernPgdir (1 * pgSize) pteW) := by
    obtain ⟨l, hinv⟩ := pagingInv_of_mapOps hstart (.cons ⟨hstep₁, hcount₁⟩ (.nil _))
    obtain rfl := h₁.trees.chain.unique hinv.2.free.chain
    have href : (m₁.pages 1023).ppRef =
        ((Paging.mk {Config.small.kernPgdir} m₁).ptes .small 1023).ncard +
          ((Paging.mk {Config.small.kernPgdir} m₁).pdes .small 1023).ncard :=
      hinv.2.refs 1023 h₁.alloc h₁.unused
    have hone := h₁.ref
    have hinsert := Set.ncard_insert_le (Config.small.kernPgdir, slotOf (1 * pgSize))
      ((Paging.mk {Config.small.kernPgdir} m₁).ptes .small 1023)
    rw [MapOp.Counted]
    omega
  have hinserts : Run (fun s op s' => MapOp.Step .small (some ⟨0, 0⟩) 1023 s op s' ∧
      op.Counted .small 1023 s) ⟨{Config.small.kernPgdir}, m⟩
      [.insert Config.small.kernPgdir (0 * pgSize) pteW,
        .insert Config.small.kernPgdir (1 * pgSize) pteW] ⟨{Config.small.kernPgdir}, m₂⟩ :=
    .cons ⟨hstep₁, hcount₁⟩ (.cons ⟨hstep₂, hcount₂⟩ (.nil _))
  have hremoves : Run (fun s op s' => MapOp.Step .small (some ⟨0, 0⟩) 1023 s op s' ∧
      op.Counted .small 1023 s) ⟨{Config.small.kernPgdir}, m₂⟩
      [.remove Config.small.kernPgdir (1 * pgSize), .remove Config.small.kernPgdir (0 * pgSize)]
      ⟨{Config.small.kernPgdir}, m₄⟩ :=
    .cons ⟨hstep₃, trivial⟩ (.cons ⟨hstep₄, trivial⟩ (.nil _))
  obtain ⟨l, hlist, -, hcount⟩ := freed_only_when_unmapped hstart hinserts
  obtain rfl := h₂.trees.chain.unique hlist
  obtain ⟨l', hlist', hfreed, -⟩ := freed_only_when_unmapped hstart (hinserts.append hremoves)
  refine ⟨_, _, _, hstart, hinserts, h₂.ref, (hcount h₂.alloc h₂.unused).symm.trans h₂.ref, hremoves,
    hhead, hfreed ?_⟩
  obtain ⟨l₃, rfl, -⟩ := Chain.some_iff.mp (hhead ▸ hlist')
  exact List.mem_cons_self

/-- It is mapped 65537 times and unmapped once: then it is on the free list, and still mapped at
65536 addresses. -/
theorem mapped_page_freed :
    ∃ s₀ ops s, Run (Op.Step .small (some ⟨0, 0⟩)) (Paging.boot .small fun _ _ => 0) [.alloc true] s₀ ∧
      Run (MapOp.Step .small (some ⟨0, 0⟩) 1023) s₀ ops s ∧ s.mem.pageFreeList = some 1023 ∧
      ∀ i, 0 < i → i < 65537 →
        pageAt .small s.mem Config.small.kernPgdir (i * pgSize) = some 1023 := by
  obtain ⟨m, l, hstart, h⟩ := inserted_small pteW
  obtain ⟨m₁, l₁, hrun, h₁⟩ := h.run (by decide) (by decide) 65537 (Nat.le_refl _)
  obtain ⟨m₂, hstep, hfree, hmapped⟩ :=
    h₁.remove (by decide) (by decide) (Nat.le_refl _) (by decide) (Option.isSome_some : (some _).isSome)
  exact ⟨_, _, _, hstart, hrun.concat hstep, hfree, hmapped⟩

end Nctuos
