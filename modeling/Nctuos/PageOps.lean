import Nctuos.PageRefs
import Nctuos.Lib.Run

/-!
# The page operations keep the counts

`pgdir_walk`, `page_insert` and `page_remove` under `MemInv`: each succeeds, or fails for
want of memory and changes nothing, and keeps the invariant.  The three are brought down to
the five changes of memory for which `MemInv` is already known to be kept; where
`page_remove` gives a page back before it clears the entry, the two commute.

The operations are then run in any order.  A state of such a run has, besides the memory,
the set of directories: a page is used as a directory from the time the caller decides so
(`Op.adopt`), which the memory does not record.
-/

namespace Nctuos

open Lib

/-! ## `page_decref` -/

/-- `pp->pp_ref--`. -/
def Mem.drop (m : Mem) (p : Nat) : Mem :=
  m.modPage p fun info => { info with ppRef := (info.ppRef + (2 ^ 16 - 1)) % 2 ^ 16 }

section Decref

variable {m : Mem} {p q : Nat}

theorem Mem.drop_pages (m : Mem) (p q : Nat) : (m.drop p).pages q =
    if q = p then ⟨(m.pages q).ppLink, ((m.pages q).ppRef + (2 ^ 16 - 1)) % 2 ^ 16⟩ else m.pages q := by
  by_cases hq : q = p
  · subst hq
    simp [Mem.drop, Mem.modPage]
  · simp [Mem.drop, Mem.modPage, hq]

theorem Mem.drop_link (m : Mem) (p : Nat) : (m.drop p).link = m.link := by
  funext q
  rw [Mem.link, Mem.drop_pages]
  split <;> rfl

theorem Mem.drop_ref_same (hpos : 0 < (m.pages p).ppRef) (hlt : (m.pages p).ppRef < 2 ^ 16) :
    ((m.drop p).pages p).ppRef + 1 = (m.pages p).ppRef := by
  rw [Mem.drop_pages, if_pos rfl]
  simp only
  omega

theorem Mem.drop_ref_other (h : q ≠ p) : ((m.drop p).pages q).ppRef = (m.pages q).ppRef := by
  rw [Mem.drop_pages, if_neg h]

theorem pageDecref_last (href : (m.pages p).ppRef = 1) (hlink : m.link p = none) :
    pageDecref p m = .ok ((m.drop p).give p) := by
  have hsame := Mem.drop_ref_same (m := m) (p := p) (by omega) (by omega)
  have hzero : ((m.drop p).pages p).ppRef = 0 := by omega
  have hlink' : (m.drop p).link p = none := by rw [Mem.drop_link, hlink]
  have hfree := pageFree_eq hzero hlink'
  rw [pageDecref]
  exact (if_pos hzero).trans hfree

theorem pageDecref_more (href : 1 < (m.pages p).ppRef) (hlt : (m.pages p).ppRef < 2 ^ 16) :
    pageDecref p m = .ok (m.drop p) := by
  have hsame := Mem.drop_ref_same (by omega) hlt
  rw [pageDecref]
  exact if_neg (show ¬ ((m.drop p).pages p).ppRef = 0 by omega)

end Decref

/-! ## `page_remove` and `page_insert` -/

namespace MemInv

variable {c : Config} {counted : Nat → Slot → Prop} {dirs : Finset Nat} {extra : Nat → Nat}
  {m m' : Mem} {l l' new : List Nat} {d p pp va perm t : Nat} {local₀ : Option PtePtr}

/-- A page that a counted slot names is an allocated one that can be given back. -/
theorem mapped (h : MemInv c counted dirs extra m l) (hd : d ∈ dirs)
    (hs : counted d (slotOf va)) (hpage : pageAt c m d va = some p) :
    c.Allocatable p ∧ p ∉ l ∧ p ∉ dirs ∧ m.link p = none ∧ 0 < (m.pages p).ppRef := by
  rw [pageAt_eq_targetOf] at hpage
  obtain ⟨halloc, hpl, hdir, -⟩ := h.data d hd (slotOf va) p hs hpage
  have hmem : (d, slotOf va) ∈ pteRefs c counted dirs m p := ⟨hd, hs, hpage⟩
  have hpos := (Set.ncard_pos pteRefs_finite).mpr ⟨_, hmem⟩
  have hrefs := h.refs p halloc hpl
  exact ⟨halloc, hpl, hdir, h.free.used p halloc hpl, by omega⟩

theorem pageRemove (h : MemInv c counted dirs extra m l) (hd : d ∈ dirs)
    (hs : counted d (slotOf va)) (hlocal : local₀.isSome)
    (htable : tableOf c m d (pdx va) = some t) (hpage : pageAt c m d va = some p) :
    ∃ m', pageRemove c local₀ d va m = .ok m' ∧
      MemInv c counted dirs extra m' (if (m.pages p).ppRef = 1 then p :: l else l) ∧
      m'.ram = (m.store ⟨t, ptx va⟩ 0).ram ∧ ∀ q, q ≠ p → m'.pages q = m.pages q := by
  obtain ⟨halloc, hpl, hdir, hlink, hpos⟩ := h.mapped hd hs hpage
  have hlt := h.ref_lt p
  have hsame := Mem.drop_ref_same hpos hlt
  -- the entry is cleared and the count lowered, whether or not the page is given back
  have hcleared : MemInv c counted dirs extra
      (((m.drop p).store ⟨t, ptx va⟩ 0).tlbInvalidate va) l := by
    refine h.remap (s := slotOf va) (w := 0) hd hs htable rfl (Mem.drop_link m p) rfl rfl
      (fun q hq => by cases hq) (fun q => ?_) (fun q => ?_)
    · change ((m.drop p).pages q).ppRef < 2 ^ 16
      by_cases hq : q = p
      · subst hq
        omega
      · rw [Mem.drop_ref_other hq]
        exact h.ref_lt q
    · change ((m.drop p).pages q).ppRef + _ = _
      rw [← pageAt_eq_targetOf, hpage, targetOf_zero, if_neg (nofun : ¬ none = some q)]
      by_cases hq : q = p
      · subst hq
        rw [if_pos rfl, hsame, Nat.add_zero]
      · rw [if_neg fun heq => hq (Option.some.inj heq).symm, Mem.drop_ref_other hq]
  have htlt := h.trees.table_lt d hd _ t htable
  by_cases href : (m.pages p).ppRef = 1
  · refine ⟨_, pageRemove_mapped htable htlt hpage halloc.lt hlocal (pageDecref_last href hlink), ?_,
      rfl, fun q hq => ?_⟩
    · rw [if_pos href]
      exact hcleared.give halloc hpl hdir (show ((m.drop p).pages p).ppRef = 0 by omega)
    · change ((m.drop p).give p).pages q = _
      rw [Mem.give, Mem.drop]
      simp [Mem.modPage, hq]
  · refine ⟨_, pageRemove_mapped htable htlt hpage halloc.lt hlocal
      (pageDecref_more (by omega) hlt), ?_, rfl, fun q hq => ?_⟩
    · rw [if_neg href]
      exact hcleared
    · change (m.drop p).pages q = _
      rw [Mem.drop_pages, if_neg hq]

theorem incref_pages (m : Mem) (p q : Nat) : (incref p m).pages q =
    if q = p then ⟨(m.pages q).ppLink, ((m.pages q).ppRef + 1) % 2 ^ 16⟩ else m.pages q := by
  by_cases hq : q = p
  · subst hq
    simp [incref, Mem.modPage]
  · simp [incref, Mem.modPage, hq]

/-- An allocated page is mapped at an address where none is mapped. -/
theorem insertAt (h : MemInv c counted dirs extra m l) (hd : d ∈ dirs)
    (hs : counted d (slotOf va)) (htable : tableOf c m d (pdx va) = some t)
    (hpage : pageAt c m d va = none) (hpp : c.Allocatable pp) (hpl : pp ∉ l) (hdir : pp ∉ dirs)
    (hnot : ∀ d' ∈ dirs, ∀ i, tableOf c m d' i ≠ some pp) (hperm : perm < 4096)
    (hroom : (m.pages pp).ppRef + 1 < 2 ^ 16) :
    MemInv c counted dirs extra (((incref pp m).tlbInvalidate va).store ⟨t, ptx va⟩
      (pteWord (page2pa pp) perm)) l := by
  have htarget := targetOf_pteWord hpp.lt hperm
  have href : ∀ q, ((incref pp m).pages q).ppRef =
      (m.pages q).ppRef + if some pp = some q then 1 else 0 := by
    intro q
    rw [incref_pages]
    by_cases hq : q = pp
    · subst hq
      rw [if_pos rfl, if_pos rfl]
      exact Nat.mod_eq_of_lt hroom
    · rw [if_neg hq, if_neg fun heq => hq (Option.some.inj heq).symm, Nat.add_zero]
  refine h.remap (s := slotOf va) (w := pteWord (page2pa pp) perm) hd hs htable rfl ?_ rfl rfl
    (fun q hq => ?_) (fun q => ?_) (fun q => ?_)
  · funext q
    change ((incref pp m).pages q).ppLink = _
    rw [incref_pages]
    split <;> rfl
  · rw [htarget] at hq
    obtain rfl := Option.some.inj hq
    exact ⟨hpp, hpl, hdir, hnot⟩
  · change ((incref pp m).pages q).ppRef < 2 ^ 16
    rw [incref_pages]
    split
    · exact Nat.mod_lt _ (by decide)
    · exact h.ref_lt q
  · change ((incref pp m).pages q).ppRef + _ = _
    rw [← pageAt_eq_targetOf, hpage, htarget, href, if_neg (nofun : ¬ none = some q), Nat.add_zero]

/-- **`page_insert`** of an allocated page that is neither a table nor a directory. -/
theorem pageInsert (h : MemInv c counted dirs extra m l) (hd : d ∈ dirs)
    (hself : ¬ SelfMap c d (pdx va)) (hs : counted d (slotOf va))
    (hlocal : pageAt c m d va ≠ none → local₀.isSome) (hpp : c.Allocatable pp) (hpl : pp ∉ l)
    (hdir : pp ∉ dirs) (hnot : ∀ d' ∈ dirs, ∀ i, tableOf c m d' i ≠ some pp) (hperm : perm < 4096)
    (hroom : pageAt c m d va ≠ some pp → (m.pages pp).ppRef + 1 < 2 ^ 16) :
    (tableOf c m d (pdx va) = none ∧ l = [] ∧
      pageInsert c local₀ d pp va perm m = .ok (-eNoMem, m)) ∨
    ∃ t m₁ l₁ new m' l', Edits c dirs d {pdx va} id m l m₁ l₁ new ∧
      tableOf c m₁ d (pdx va) = some t ∧ pageInsert c local₀ d pp va perm m = .ok (0, m') ∧
      MemInv c counted dirs extra m' l' ∧
      m'.ram = (m₁.store ⟨t, ptx va⟩ (pteWord (page2pa pp) perm)).ram ∧
      (l' = l₁ ∨ ∃ p, pageAt c m d va = some p ∧ l' = p :: l₁) := by
  rcases pgdirWalk_edits h.trees hd hself with
    ⟨hnone, rfl, hwalk⟩ | ⟨t, m₁, l₁, new, hwalk, htable, hedits⟩
  · refine Or.inl ⟨hnone, rfl, ?_⟩
    rw [Nctuos.pageInsert, hwalk, ok_bind]
  refine Or.inr ⟨t, m₁, l₁, new, ?_⟩
  have h₁ := h.edits hd hedits fun _ _ => rfl
  have hat : pageAt c m₁ d va = pageAt c m d va := by
    rw [pageAt_eq_targetOf, pageAt_eq_targetOf, hedits.entry]
    rfl
  -- the walk took its table from the free list, so `pp` is what it was
  have hnew : pp ∉ new := fun hmem => hpl (hedits.free ▸ List.mem_append_left l₁ hmem)
  have hpl₁ : pp ∉ l₁ := fun hmem => hpl (hedits.free ▸ List.mem_append_right new hmem)
  have hnot₁ : ∀ d' ∈ dirs, ∀ i, tableOf c m₁ d' i ≠ some pp := by
    intro d' hd' i ht
    by_cases hdd : d' = d
    · subst hdd
      rcases hedits.table_new i pp ht with hold | ⟨-, hmem⟩
      · exact hnot d' hd' i hold
      · exact hnew hmem
    · rw [hedits.table_other d' hd' hdd] at ht
      exact hnot d' hd' i ht
  rw [← hedits.pages pp hnew] at hroom
  cases hpage : pageAt c m d va with
  | none =>
      rw [hpage] at hat hroom
      exact ⟨_, l₁, hedits, htable, pageInsert_fresh hwalk htable hat,
        h₁.insertAt hd hs htable hat hpp hpl₁ hdir hnot₁ hperm (hroom (Option.some_ne_none pp).symm),
        rfl, Or.inl rfl⟩
  | some p =>
      rw [hpage] at hat hroom
      by_cases hne : p = pp
      · subst hne
        refine ⟨_, l₁, hedits, htable, pageInsert_same hwalk htable hat, ?_, rfl, Or.inl rfl⟩
        refine h₁.remap (s := slotOf va) hd hs htable rfl rfl rfl rfl (fun q hq => ?_) h₁.ref_lt
          fun q => ?_
        · rw [targetOf_pteWord hpp.lt hperm] at hq
          obtain rfl := Option.some.inj hq
          exact ⟨hpp, hpl₁, hdir, hnot₁⟩
        · rw [← pageAt_eq_targetOf, hat, targetOf_pteWord hpp.lt hperm]
          rfl
      · have hsome := hlocal (by rw [hpage]; exact Option.some_ne_none p)
        obtain ⟨m₂, hremove, h₂, hram, hpages⟩ := h₁.pageRemove hd hs hsome htable hat
        obtain ⟨htables, hhere, -⟩ := (Edits.refl h₁.trees).read_store hd htable hram
        have hcleared : pageAt c m₂ d va = none := by
          rw [pageAt_eq_targetOf, hhere, Function.update_self, targetOf_zero]
        refine ⟨_, _, hedits, htable, pageInsert_replace hwalk htable hat hne hremove,
          h₂.insertAt hd hs (htables d hd ▸ htable) hcleared hpp ?_ hdir
            (fun d' hd' i ht => hnot₁ d' hd' i (htables d' hd' ▸ ht)) hperm ?_, ?_, ?_⟩
        · split
          · rw [List.mem_cons, not_or]
            exact ⟨Ne.symm hne, hpl₁⟩
          · exact hpl₁
        · rw [hpages pp (Ne.symm hne)]
          exact hroom fun heq => hne (Option.some.inj heq)
        · exact (store_ram_congr (m := m₁.store ⟨t, ptx va⟩ 0) hram _ _).trans
            (store_store_ram _ _ _ _)
        · split
          · exact Or.inr ⟨p, rfl, rfl⟩
          · exact Or.inl rfl

end MemInv

/-! ## Any sequence of operations -/

/-- The memory, and the pages in use as page directories. -/
structure Paging where
  dirs : Finset Nat
  mem : Mem

/-- What `page_init` leaves. -/
def Paging.boot (c : Config) (ram : Nat → Idx → Nat) : Paging :=
  ⟨{c.kernPgdir}, pageInit c (Mem.cleared c ram)⟩

inductive Op
  | alloc (zero : Bool)
  /-- An allocated page is from now on used as a directory. -/
  | adopt (p : Nat)
  | free (p : Nat)
  | walk (pgdir va : Nat)
  | insert (pgdir pp va perm : Nat)
  | remove (pgdir va : Nat)

/-- Every slot is counted: nothing is mapped by `boot_map_region` here. -/
def everySlot : Nat → Slot → Prop := fun _ _ => True

namespace Paging

variable (c : Config) (s : Paging)

/-- `p` came from `page_alloc` and has not been given back. -/
def Allocated (p : Nat) : Prop :=
  c.Allocatable p ∧ ∀ l, Chain s.mem.link s.mem.pageFreeList l → p ∉ l

/-- The present page-table entries that name `p`, with the slots they are at. -/
def ptes (p : Nat) : Set (Nat × Slot) := pteRefs c everySlot s.dirs s.mem p

/-- The present directory entries that name `p`. -/
def pdes (p : Nat) : Set (Nat × Idx) := pdeRefs c s.dirs s.mem p

end Paging

namespace Op

variable (c : Config) (local₀ : Option PtePtr)

/-- What the caller of an operation owes. -/
def Allowed (s : Paging) : Op → Prop
  | alloc _ => True
  | adopt p => s.Allocated c p ∧ p ∉ s.dirs ∧ s.ptes c p = ∅ ∧ s.pdes c p = ∅ ∧
      s.mem.ram p = fun _ => 0
  | free p => s.Allocated c p ∧ s.ptes c p = ∅ ∧ s.pdes c p = ∅ ∧
      (p ∈ s.dirs → ∀ i, tableOf c s.mem p i = none)
  | walk pgdir _ => pgdir ∈ s.dirs
  | insert pgdir pp va perm => pgdir ∈ s.dirs ∧ ¬ SelfMap c pgdir (pdx va) ∧
      s.Allocated c pp ∧ pp ∉ s.dirs ∧ s.pdes c pp = ∅ ∧ perm < 4096 ∧
      -- the addresses `pp` is mapped at, once it is mapped at `va`
      (Insert.insert (pgdir, slotOf va) (s.ptes c pp)).ncard ≤ 65535
  | remove pgdir va => pgdir ∈ s.dirs ∧ ¬ SelfMap c pgdir (pdx va)

/-- The operation carried out. -/
def run (s : Paging) : Op → Except Stop Paging
  | alloc zero => do
      let r ← pageAlloc c zero s.mem
      .ok { s with mem := r.2 }
  | adopt p => .ok { s with dirs := Insert.insert p s.dirs }
  | free p => do
      let m ← pageFree p s.mem
      .ok ⟨s.dirs.erase p, m⟩
  | walk pgdir va => do
      let r ← pgdirWalk c pgdir va true s.mem
      .ok { s with mem := r.2 }
  | insert pgdir pp va perm => do
      let r ← pageInsert c local₀ pgdir pp va perm s.mem
      .ok { s with mem := r.2 }
  | remove pgdir va => do
      let m ← pageRemove c local₀ pgdir va s.mem
      .ok { s with mem := m }

def Step (s : Paging) (op : Op) (s' : Paging) : Prop :=
  op.Allowed c s ∧ op.run c local₀ s = .ok s'

end Op

/-- The invariant of such runs. -/
def PagingInv (c : Config) (s : Paging) (l : List Nat) : Prop :=
  c.kernPgdir ∈ s.dirs ∧ MemInv c everySlot s.dirs (fun _ => 0) s.mem l

namespace PagingInv

variable {c : Config} {s : Paging} {l : List Nat} {local₀ : Option PtePtr} {p : Nat}

theorem boot (c : Config) (ram : Nat → Idx → Nat) :
    PagingInv c (Paging.boot c ram) (initList c) :=
  ⟨Finset.mem_singleton_self _, memInv_pageInit c ram everySlot⟩

/-- The free list of the model is the list `l`. -/
theorem allocated_iff (h : PagingInv c s l) : s.Allocated c p ↔ c.Allocatable p ∧ p ∉ l := by
  constructor
  · rintro ⟨halloc, hfree⟩
    exact ⟨halloc, hfree l h.2.free.chain⟩
  · rintro ⟨halloc, hpl⟩
    refine ⟨halloc, fun l' hchain => ?_⟩
    rw [← h.2.free.chain.unique hchain]
    exact hpl

theorem ref_eq_zero (h : PagingInv c s l) (hp : c.Allocatable p) (hpl : p ∉ l)
    (hpte : s.ptes c p = ∅) (hpde : s.pdes c p = ∅) : (s.mem.pages p).ppRef = 0 := by
  have hrefs := h.2.refs p hp hpl
  rw [Paging.ptes] at hpte
  rw [Paging.pdes] at hpde
  rw [hrefs, hpte, hpde, Set.ncard_empty, Set.ncard_empty]

theorem alloc (h : PagingInv c s l) (zero : Bool) :
    ∃ s' l', (Op.alloc zero).run c local₀ s = .ok s' ∧ PagingInv c s' l' := by
  have hhead := h.2.free.chain.head_eq
  cases l with
  | nil =>
      refine ⟨s, [], ?_, h⟩
      rw [Op.run, pageAlloc_none hhead, ok_bind]
  | cons p l =>
      have hlt := (h.2.free.alloc p List.mem_cons_self).lt
      refine ⟨⟨s.dirs, s.mem.take zero p⟩, l, ?_, h.1, h.2.take zero⟩
      rw [Op.run, pageAlloc_some hhead hlt, ok_bind]

theorem adopt (h : PagingInv c s l) (hallowed : (Op.adopt p).Allowed c s) :
    ∃ s' l', (Op.adopt p).run c local₀ s = .ok s' ∧ PagingInv c s' l' := by
  obtain ⟨hallocated, hdir, hpte, hpde, hzero⟩ := hallowed
  obtain ⟨halloc, hpl⟩ := h.allocated_iff.mp hallocated
  exact ⟨⟨insert p s.dirs, s.mem⟩, l, rfl, Finset.mem_insert_of_mem h.1,
    h.2.addDir halloc hpl hdir (h.ref_eq_zero halloc hpl hpte hpde) hzero⟩

theorem free (h : PagingInv c s l) (hallowed : (Op.free p).Allowed c s) :
    ∃ s' l', (Op.free p).run c local₀ s = .ok s' ∧ PagingInv c s' l' := by
  obtain ⟨hallocated, hpte, hpde, hclear⟩ := hallowed
  obtain ⟨halloc, hpl⟩ := h.allocated_iff.mp hallocated
  have href := h.ref_eq_zero halloc hpl hpte hpde
  have hkern : c.kernPgdir ∈ s.dirs.erase p := by
    refine Finset.mem_erase.mpr ⟨?_, h.1⟩
    rintro rfl
    exact c.not_allocatable_kernPgdir halloc
  -- a directory that is given back has no tables, so nothing is owed
  have hrest : MemInv c everySlot (s.dirs.erase p) (fun _ => 0) s.mem l := by
    by_cases hdir : p ∈ s.dirs
    · have hnone := hclear hdir
      have hdrop := h.2.dropDir hdir fun slot _ => by rw [entryOf_none (hnone slot.1), targetOf_zero]
      have howing : owing c s.mem p (List.finRange 1024) = fun _ => 0 := by
        funext q
        refine if_neg ?_
        rintro ⟨i, -, hi⟩
        rw [hnone] at hi
        cases hi
      rw [howing] at hdrop
      exact hdrop
    · rw [Finset.erase_eq_of_notMem hdir]
      exact h.2
  refine ⟨⟨s.dirs.erase p, s.mem.give p⟩, p :: l, ?_, hkern,
    hrest.give halloc hpl (Finset.notMem_erase p _) href⟩
  rw [Op.run, pageFree_eq href (h.2.free.used p halloc hpl), ok_bind]

theorem walk {pgdir va : Nat} (h : PagingInv c s l) (hallowed : (Op.walk pgdir va).Allowed c s) :
    ∃ s' l', (Op.walk pgdir va).run c local₀ s = .ok s' ∧ PagingInv c s' l' := by
  by_cases hself : SelfMap c pgdir (pdx va)
  · -- through the self-map the walk ends in `kern_pgdir` itself
    have htarget := h.2.self h.1
    have hkern : c.kernPgdir < c.npages := Nat.lt_of_lt_of_le c.kernPgdir_bounds.2 c.first_le
    rw [targetOf] at htarget
    split at htarget
    · rename_i hpresent
      have hpage := Option.some.inj htarget
      refine ⟨s, l, ?_, h⟩
      have hkaddr : kaddr c (pteAddr (s.mem.ram c.kernPgdir (pdx uvpt))) = .ok c.kernPgdir := by
        rw [pteAddr_eq_page2pa, hpage]
        exact page2kva_of_lt hkern
      simp [Op.run, pgdirWalk, Mem.load, hself.1, hself.2, hpresent, hkaddr]
    · cases htarget
  · rcases pgdirWalk_edits h.2.trees hallowed hself with
      ⟨-, -, hwalk⟩ | ⟨t, m', l', new, hwalk, -, hedits⟩
    · refine ⟨s, l, ?_, h⟩
      rw [Op.run, hwalk, ok_bind]
    · refine ⟨⟨s.dirs, m'⟩, l', ?_, h.1, h.2.edits hallowed hedits fun _ _ => rfl⟩
      rw [Op.run, hwalk, ok_bind]

theorem insert {pgdir pp va perm : Nat} (h : PagingInv c s l) (hlocal : local₀.isSome)
    (hallowed : (Op.insert pgdir pp va perm).Allowed c s) :
    ∃ s' l', (Op.insert pgdir pp va perm).run c local₀ s = .ok s' ∧ PagingInv c s' l' := by
  obtain ⟨hd, hself, hallocated, hdir, hpde, hperm, hbound⟩ := hallowed
  obtain ⟨halloc, hpl⟩ := h.allocated_iff.mp hallocated
  rw [Paging.pdes] at hpde
  have hnot : ∀ d' ∈ s.dirs, ∀ i, tableOf c s.mem d' i ≠ some pp := fun d' hd' i ht =>
    Set.eq_empty_iff_forall_notMem.mp hpde (d', i) ⟨hd', ht⟩
  have hroom : pageAt c s.mem pgdir va ≠ some pp → (s.mem.pages pp).ppRef + 1 < 2 ^ 16 := by
    intro hne
    have hnew : (pgdir, slotOf va) ∉ s.ptes c pp := fun hmem =>
      hne (pageAt_eq_targetOf.trans hmem.2.2)
    rw [Set.ncard_insert_of_notMem hnew pteRefs_finite, Paging.ptes] at hbound
    have hrefs := h.2.refs pp halloc hpl
    rw [hpde, Set.ncard_empty] at hrefs
    omega
  rcases h.2.pageInsert hd hself trivial (fun _ => hlocal) halloc hpl hdir hnot hperm hroom with
    ⟨-, -, hfail⟩ | ⟨t, m₁, l₁, new, m', l', -, -, hok, hinv, -, -⟩
  · refine ⟨s, l, ?_, h⟩
    rw [Op.run, hfail, ok_bind]
  · refine ⟨⟨s.dirs, m'⟩, l', ?_, h.1, hinv⟩
    rw [Op.run, hok, ok_bind]

theorem remove {pgdir va : Nat} (h : PagingInv c s l) (hlocal : local₀.isSome)
    (hallowed : (Op.remove pgdir va).Allowed c s) :
    ∃ s' l', (Op.remove pgdir va).run c local₀ s = .ok s' ∧ PagingInv c s' l' := by
  obtain ⟨hd, hself⟩ := hallowed
  cases hpage : pageAt c s.mem pgdir va with
  | none =>
      refine ⟨s, l, ?_, h⟩
      rw [Op.run, pageRemove_unmapped hself (h.2.trees.table_lt pgdir hd _) hpage, ok_bind]
  | some p =>
      cases htable : tableOf c s.mem pgdir (pdx va) with
      | none =>
          rw [pageAt_of_none htable] at hpage
          cases hpage
      | some t =>
          obtain ⟨m', hok, hinv, -⟩ := h.2.pageRemove hd trivial hlocal htable hpage
          refine ⟨⟨s.dirs, m'⟩, _, ?_, h.1, hinv⟩
          rw [Op.run, hok, ok_bind]

/-- An operation that its caller may make returns, and keeps the invariant. -/
theorem run (h : PagingInv c s l) (hlocal : local₀.isSome) {op : Op} (hallowed : op.Allowed c s) :
    ∃ s' l', op.run c local₀ s = .ok s' ∧ PagingInv c s' l' := by
  cases op with
  | alloc zero => exact h.alloc zero
  | adopt p => exact h.adopt hallowed
  | free p => exact h.free hallowed
  | walk pgdir va => exact h.walk hallowed
  | insert pgdir pp va perm => exact h.insert hlocal hallowed
  | remove pgdir va => exact h.remove hlocal hallowed

end PagingInv

/-! ## The allocator and the counts in every reachable state -/

/-- A present entry of directory `d`, or of a page table that one of them names, names
page `p`. -/
def NamedBy (m : Mem) (d p : Nat) : Prop :=
  (∃ i, targetOf (m.ram d i) = some p) ∨
    ∃ i j t, targetOf (m.ram d i) = some t ∧ targetOf (m.ram t j) = some p

/-- What the allocator and the counts promise; `l` is the free list. -/
structure PagesOk (c : Config) (s : Paging) (l : List Nat) : Prop where
  list : Chain s.mem.link s.mem.pageFreeList l
  nodup : l.Nodup
  num : s.mem.numFreePages = l.length
  free_ref : ∀ p ∈ l, (s.mem.pages p).ppRef = 0
  /-- Not page 0, nor the page of the AP entry code, nor in the I/O hole, nor the kernel
  image or handed out by `boot_alloc`. -/
  free_outside : ∀ p ∈ l, p < c.npages ∧ p ≠ 0 ∧ p ≠ pgnum mpentryPaddr ∧
    ¬ (iophysmem / pgSize ≤ p ∧ p < extphysmem / pgSize) ∧
    ¬ (extphysmem / pgSize ≤ p ∧ p < c.first)
  free_unnamed : ∀ p ∈ l, ∀ d ∈ s.dirs, ¬ NamedBy s.mem d p
  used_link : ∀ p, c.Allocatable p → p ∉ l → (s.mem.pages p).ppLink = none
  used_ref : ∀ p, c.Allocatable p → p ∉ l →
    (s.mem.pages p).ppRef = (s.ptes c p).ncard + (s.pdes c p).ncard

namespace PagingInv

variable {c : Config} {s : Paging} {l : List Nat} {p : Nat}

theorem pde_of_free (h : PagingInv c s l) {d : Nat} (hd : d ∈ s.dirs) (hp : p ∈ l) (i : Idx) :
    targetOf (s.mem.ram d i) ≠ some p := by
  intro htarget
  by_cases hself : SelfMap c d i
  · obtain ⟨rfl, rfl⟩ := hself
    rw [h.2.self h.1] at htarget
    exact c.not_allocatable_kernPgdir (Option.some.inj htarget ▸ h.2.free.alloc p hp)
  · refine h.2.trees.table_used d hd i p ?_ hp
    rw [tableOf, if_neg hself]
    exact htarget

theorem not_namedBy (h : PagingInv c s l) {d : Nat} (hd : d ∈ s.dirs) (hp : p ∈ l) :
    ¬ NamedBy s.mem d p := by
  rintro (⟨i, hi⟩ | ⟨i, j, t, hi, hj⟩)
  · exact h.pde_of_free hd hp i hi
  · by_cases hself : SelfMap c d i
    · -- the words behind the self-map are the directory entries again
      obtain ⟨rfl, rfl⟩ := hself
      rw [h.2.self h.1] at hi
      obtain rfl := Option.some.inj hi
      exact h.pde_of_free h.1 hp j hj
    · have htable : tableOf c s.mem d i = some t := by
        rw [tableOf, if_neg hself]
        exact hi
      have hentry : entryOf c s.mem d (i, j) = s.mem.ram t j := entryOf_some htable
      exact (h.2.data d hd (i, j) p trivial (hentry ▸ hj)).2.1 hp

theorem pagesOk (h : PagingInv c s l) : PagesOk c s l where
  list := h.2.free.chain
  nodup := h.2.free.chain.nodup
  num := h.2.free.num
  free_ref := h.2.free.ref
  free_outside p hp := ⟨(h.2.free.alloc p hp).lt, (h.2.free.alloc p hp).outside⟩
  free_unnamed _ hp _ hd := h.not_namedBy hd hp
  used_link := h.2.free.used
  used_ref := h.2.refs

end PagingInv

section Runs

variable {c : Config} {local₀ : Option PtePtr} {ram : Nat → Idx → Nat} {ops : List Op} {s : Paging}

theorem pagingInv_of_run (hlocal : local₀.isSome)
    (hrun : Run (Op.Step c local₀) (Paging.boot c ram) ops s) : ∃ l, PagingInv c s l := by
  refine hrun.invariant (I := fun s => ∃ l, PagingInv c s l) (fun s op s' hinv hstep => ?_)
    ⟨_, PagingInv.boot c ram⟩
  obtain ⟨l, h⟩ := hinv
  obtain ⟨s'', l', hok, h'⟩ := h.run hlocal hstep.1
  obtain rfl := Except.ok.inj (hstep.2.symm.trans hok)
  exact ⟨l', h'⟩

/-- **The free list and the reference counts.**  After any sequence of allocations,
deallocations, walks, insertions and removals, `page_free_list` is a list of
`num_free_pages` different unused pages, and `pp_ref` of every other page counts the
entries that name it; and no operation that its caller may make panics. -/
theorem pages_ok_of_run (hlocal : local₀.isSome)
    (hrun : Run (Op.Step c local₀) (Paging.boot c ram) ops s) :
    (∃ l, PagesOk c s l) ∧ ∀ op, Op.Allowed c s op → ∃ s', op.run c local₀ s = .ok s' := by
  obtain ⟨l, h⟩ := pagingInv_of_run hlocal hrun
  refine ⟨⟨l, h.pagesOk⟩, fun op hallowed => ?_⟩
  obtain ⟨s', -, hok, -⟩ := h.run hlocal hallowed
  exact ⟨s', hok⟩

/-- The first page on the list is allocated. -/
theorem boot_take {p : Nat} {l : List Nat} (hl : initList c = p :: l) :
    c.Allocatable p ∧ p ∉ l ∧
      (Op.alloc true).run c local₀ (Paging.boot c ram) =
        .ok ⟨{c.kernPgdir}, (Paging.boot c ram).mem.take true p⟩ ∧
      PagingInv c ⟨{c.kernPgdir}, (Paging.boot c ram).mem.take true p⟩ l ∧
      (((Paging.boot c ram).mem.take true p).pages p).ppRef = 0 := by
  have hboot := PagingInv.boot c ram
  rw [hl] at hboot
  have halloc := hboot.2.free.alloc p List.mem_cons_self
  refine ⟨halloc, (List.nodup_cons.mp hboot.2.free.chain.nodup).1, ?_, ⟨hboot.1, hboot.2.take true⟩, ?_⟩
  · rw [Op.run, pageAlloc_some hboot.2.free.chain.head_eq halloc.lt, ok_bind]
    rfl
  · rw [Mem.take_ref]
    exact hboot.2.free.ref p List.mem_cons_self

/-- The first page is allocated and mapped in `kern_pgdir`. -/
theorem run_alloc_insert {p va : Nat} {l : List Nat} (hl : initList c = p :: l)
    (hself : ¬ SelfMap c c.kernPgdir (pdx va)) (hlocal : local₀.isSome) :
    ∃ s, Run (Op.Step c local₀) (Paging.boot c ram)
      [.alloc true, .insert c.kernPgdir p va pteW] s := by
  obtain ⟨halloc, hpl, hstep, htaken, href⟩ := @boot_take c local₀ ram p l hl
  obtain ⟨hpte, hpde, -⟩ := htaken.2.unreferenced halloc hpl href
  have hkern := halloc.ne_kernPgdir
  have hallowed : (Op.insert c.kernPgdir p va pteW).Allowed c
      ⟨{c.kernPgdir}, (Paging.boot c ram).mem.take true p⟩ := by
    refine ⟨Finset.mem_singleton_self _, hself, htaken.allocated_iff.mpr ⟨halloc, hpl⟩,
      fun hmem => hkern (Finset.mem_singleton.mp hmem), hpde, by decide, ?_⟩
    rw [Paging.ptes, hpte, insert_empty_eq, Set.ncard_singleton]
    decide
  obtain ⟨s, -, hinsert, -⟩ := htaken.insert hlocal hallowed
  exact ⟨s, .cons ⟨trivial, hstep⟩ (.cons ⟨hallowed, hinsert⟩ (.nil s))⟩

/-- On the machine with four megabytes. -/
theorem pages_ok_after_insert :
    ∃ s, Run (Op.Step .small (some ⟨0, 0⟩)) (Paging.boot .small fun _ _ => 0)
        [.alloc true, .insert Config.small.kernPgdir 1023 0x800000 pteW] s ∧
      ∃ l, PagesOk .small s l := by
  have hl : initList .small = 1023 :: (initList .small).tail := by decide +kernel
  have hself : ¬ SelfMap .small Config.small.kernPgdir (pdx 0x800000) :=
    fun h => absurd h.2 (by decide)
  have hlocal : (some (⟨0, 0⟩ : PtePtr)).isSome = true := rfl
  obtain ⟨s, hrun⟩ := run_alloc_insert hl hself hlocal
  exact ⟨s, hrun, (pages_ok_of_run hlocal hrun).1⟩

end Runs

end Nctuos
