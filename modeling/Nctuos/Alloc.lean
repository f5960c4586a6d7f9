import Nctuos.Mem
import Nctuos.Lib.Chain
import Mathlib.Data.Finset.Card
import Mathlib.Data.Finset.Range
import Mathlib.Data.List.Range

/-!
# The page allocator

`FreeList c m l` says that `page_free_list` is the list `l`: threaded through `pp_link`,
counted by `num_free_pages`, made of allocatable pages that nobody refers to, and that the
allocatable pages outside it have `pp_link` NULL, which is what `page_free` relies on to
notice a double free.

`page_alloc` and `page_free` are given by what they return and by the memory they leave,
`Mem.take` and `Mem.give`, each under the least it needs; that the list goes on being one
is a separate fact about those two memories.  `page_init` builds exactly the list of the
allocatable pages (`freeList_pageInit`); this is an instance of what it does for any bounds of
its loops (`page_init_frees_exactly`).
-/

namespace Nctuos

open Lib

/-! ## Which pages may be allocated -/

theorem roundup_pgSize : roundup pgSize pgSize = pgSize := by decide

namespace Config

variable (c : Config)

theorem npages_lt : c.npages < 2 ^ 15 := by
  have h := c.npages_le
  simp only [extphysmem, pgSize] at h
  omega

theorem npages_pos : 0 < c.npages := by
  have h₁ := c.kernelEnd_ge
  have h₂ := c.kernelEnd_le
  simp only [extphysmem, pgSize] at h₁ h₂
  omega

theorem kernelEnd_lt : c.kernelEnd + pgSize ≤ 2 ^ 32 := by
  have h₁ := c.kernelEnd_le
  have h₂ := c.npages_lt
  simp only [kernbase, pgSize] at h₁ ⊢
  omega

/-- The three calls of `boot_alloc`, one behind the other. -/
theorem bootAlloc_pgdir :
    bootAlloc c.kernelEnd 0 pgSize =
      (roundup c.kernelEnd pgSize, roundup c.kernelEnd pgSize + pgSize) := by
  have h₁ := c.kernelEnd_le
  have h₂ := c.npages_lt
  have h₃ := roundup_lt c.kernelEnd_lt
  have hlt : roundup c.kernelEnd pgSize + pgSize < 2 ^ 32 := by
    simp only [kernbase, pgSize] at h₁ h₃ ⊢
    omega
  rw [bootAlloc, if_pos rfl, if_neg (by decide), roundup_pgSize, add32, Nat.mod_eq_of_lt hlt]

theorem bootAlloc_next {nextfree n : Nat} (hnext : nextfree ≠ 0) (hn : n ≠ 0)
    (hlt : nextfree + roundup n pgSize < 2 ^ 32) :
    bootAlloc c.kernelEnd nextfree n = (nextfree, nextfree + roundup n pgSize) := by
  rw [bootAlloc, if_neg hnext, if_neg hn, add32, Nat.mod_eq_of_lt hlt]

theorem bootAlloc_zero {nextfree : Nat} (hnext : nextfree ≠ 0) :
    bootAlloc c.kernelEnd nextfree 0 = (nextfree, nextfree) := by
  rw [bootAlloc, if_neg hnext, if_pos rfl]

theorem bootKernPgdir_eq : bootKernPgdir c.kernelEnd = roundup c.kernelEnd pgSize := by
  rw [bootKernPgdir, bootAlloc_pgdir]

/-- The kernel's own pages: `kern_pgdir`, behind it `pages`, and behind that the rest. -/
theorem bootNext_eq : bootNext c.kernelEnd c.npages =
    roundup c.kernelEnd pgSize + pgSize + roundup (sizeofPageInfo * c.npages) pgSize := by
  have hpos := c.npages_pos
  have hnp := c.npages_lt
  have hend := c.kernelEnd_le
  have h₁ := roundup_lt c.kernelEnd_lt
  have h₂ : roundup (sizeofPageInfo * c.npages) pgSize < sizeofPageInfo * c.npages + pgSize :=
    roundup_lt (by simp only [sizeofPageInfo, pgSize]; omega)
  have hlt : roundup c.kernelEnd pgSize + pgSize + roundup (sizeofPageInfo * c.npages) pgSize <
      2 ^ 32 := by
    simp only [kernbase, pgSize, sizeofPageInfo] at hend h₁ h₂ ⊢
    omega
  have hne : roundup c.kernelEnd pgSize + pgSize ≠ 0 := by simp [pgSize]
  have hsize : sizeofPageInfo * c.npages ≠ 0 := by
    simp only [sizeofPageInfo]
    omega
  rw [bootNext, bootAlloc_pgdir, bootAlloc_next c hne hsize hlt,
    bootAlloc_zero c (Nat.ne_of_gt (Nat.add_pos_left (Nat.pos_of_ne_zero hne) _))]

theorem bootPages_eq : bootPages c.kernelEnd c.npages = roundup c.kernelEnd pgSize + pgSize := by
  have hne : roundup c.kernelEnd pgSize + pgSize ≠ 0 := by simp [pgSize]
  rw [bootPages, bootAlloc_pgdir, bootAlloc, if_neg hne]
  split <;> rfl

theorem first_le : c.first ≤ c.npages := by
  have h := c.next_le
  simp only [first, pgSize] at h ⊢
  omega

/-- `kern_pgdir` is behind the kernel image and in front of the free pages. -/
theorem kernPgdir_bounds : extphysmem / pgSize ≤ c.kernPgdir ∧ c.kernPgdir < c.first := by
  have hge := c.kernelEnd_ge
  have h₁ := le_roundup c.kernelEnd_lt
  have hmod := roundup_mod c.kernelEnd
  rw [kernPgdir, first, pgnum_eq, c.bootKernPgdir_eq, c.bootNext_eq]
  generalize roundup c.kernelEnd pgSize = r at h₁ hmod ⊢
  simp only [kernbase, extphysmem, pgSize] at *
  omega

/-- The pages `page_init` puts on the free list. -/
def Allocatable (p : Nat) : Prop :=
  (1 ≤ p ∧ p < c.npagesBasemem ∧ p ≠ pgnum mpentryPaddr) ∨ (c.first ≤ p ∧ p < c.npages)

variable {c} {p : Nat}

theorem Allocatable.lt (h : c.Allocatable p) : p < c.npages := by
  have h₁ := c.basemem_le
  have h₂ := c.kernPgdir_bounds
  have h₃ := c.first_le
  simp only [iophysmem, extphysmem, pgSize] at h₁ h₂
  rcases h with h | h <;> omega

/-- Page 0, the page of the AP entry code, the I/O hole, the kernel image and what
`boot_alloc` handed out are not allocatable. -/
theorem Allocatable.outside (h : c.Allocatable p) :
    p ≠ 0 ∧ p ≠ pgnum mpentryPaddr ∧
      ¬ (iophysmem / pgSize ≤ p ∧ p < extphysmem / pgSize) ∧
      ¬ (extphysmem / pgSize ≤ p ∧ p < c.first) := by
  have h₁ := c.basemem_le
  have h₂ := c.kernPgdir_bounds
  have hmp : pgnum mpentryPaddr = 7 := by decide
  simp only [iophysmem, extphysmem, pgSize, Allocatable, hmp] at *
  rcases h with h | h <;> refine ⟨?_, ?_, ?_, ?_⟩ <;> omega

theorem not_allocatable_kernPgdir (c : Config) : ¬ c.Allocatable c.kernPgdir :=
  fun h => h.outside.2.2.2 c.kernPgdir_bounds

theorem Allocatable.ne_kernPgdir {c : Config} {p : Nat} (h : c.Allocatable p) : p ≠ c.kernPgdir :=
  fun heq => c.not_allocatable_kernPgdir (heq ▸ h)

end Config

/-! ## The free list -/

/-- `pages[p].pp_link`. -/
def Mem.link (m : Mem) (p : Nat) : Option Nat := (m.pages p).ppLink

/-- `page_free_list` is the list `l`. -/
structure FreeList (c : Config) (m : Mem) (l : List Nat) : Prop where
  chain : Chain m.link m.pageFreeList l
  num : m.numFreePages = l.length
  alloc : ∀ p ∈ l, c.Allocatable p
  ref : ∀ p ∈ l, (m.pages p).ppRef = 0
  used : ∀ p, c.Allocatable p → p ∉ l → m.link p = none

/-- There are fewer than `2 ^ 15` pages. -/
theorem Config.length_lt (c : Config) {l : List Nat} (hnodup : l.Nodup)
    (hlt : ∀ p ∈ l, p < c.npages) : l.length < 2 ^ 15 := by
  have hsub : l.toFinset ⊆ Finset.range c.npages := by
    intro p hp
    exact Finset.mem_range.mpr (hlt p (List.mem_toFinset.mp hp))
  have hcard := Finset.card_le_card hsub
  rw [List.toFinset_card_of_nodup hnodup, Finset.card_range] at hcard
  exact Nat.lt_of_le_of_lt hcard c.npages_lt

theorem FreeList.length_lt {c : Config} {m : Mem} {l : List Nat} (h : FreeList c m l) :
    l.length < 2 ^ 15 :=
  c.length_lt h.chain.nodup fun p hp => (h.alloc p hp).lt

/-! ## Addresses of pages -/

section Addresses

variable {c : Config} {p : Nat}

theorem pgnum_page2pa (p : Nat) : pgnum (page2pa p) = p := by
  rw [pgnum_eq, page2pa_eq]
  omega

theorem page2kva_of_lt (h : p < c.npages) : page2kva c p = .ok p := by
  rw [page2kva, kaddr, pgnum_page2pa, if_neg (by omega)]

theorem pa2page_page2pa (h : p < c.npages) : pa2page c (page2pa p) = .ok p := by
  rw [pa2page, pgnum_page2pa, if_neg (by omega)]

end Addresses

/-! ## `page_alloc` -/

/-- The memory `page_alloc` leaves when it hands out page `p`. -/
def Mem.take (m : Mem) (zero : Bool) (p : Nat) : Mem :=
  { m with
    pageFreeList := m.link p
    pages := Function.update m.pages p { m.pages p with ppLink := none }
    numFreePages := add32 m.numFreePages (2 ^ 32 - 1)
    ram := if zero then Function.update m.ram p fun _ => 0 else m.ram }

section Alloc

variable {c : Config} {m : Mem} {l : List Nat} {p : Nat} {zero : Bool}

theorem pageAlloc_none (h : m.pageFreeList = none) : pageAlloc c zero m = .ok (none, m) := by
  simp only [pageAlloc, h]

theorem pageAlloc_some (h : m.pageFreeList = some p) (hp : p < c.npages) :
    pageAlloc c zero m = .ok (some p, m.take zero p) := by
  cases zero with
  | false => simp [pageAlloc, h, Mem.take, Mem.modPage, Mem.link]
  | true =>
      simp [pageAlloc, h, Mem.take, Mem.modPage, Mem.link, page2kva_of_lt hp, Mem.zeroPage]

theorem Mem.take_link (m : Mem) (zero : Bool) (p : Nat) :
    (m.take zero p).link = Function.update m.link p none := by
  funext q
  by_cases hq : q = p
  · subst hq
    simp [Mem.take, Mem.link]
  · simp [Mem.take, Mem.link, hq]

theorem Mem.take_ref (m : Mem) (zero : Bool) (p q : Nat) :
    ((m.take zero p).pages q).ppRef = (m.pages q).ppRef := by
  by_cases hq : q = p
  · subst hq
    simp [Mem.take]
  · simp [Mem.take, hq]

theorem Mem.take_ram_other (m : Mem) (zero : Bool) {p q : Nat} (h : q ≠ p) :
    (m.take zero p).ram q = m.ram q := by
  cases zero with
  | false => rfl
  | true => exact Function.update_of_ne h _ _

theorem Mem.take_ram_same (m : Mem) (p : Nat) : (m.take true p).ram p = fun _ => 0 :=
  Function.update_self _ _ _

/-- The rest of the list is the list of the memory left behind. -/
theorem FreeList.take (h : FreeList c m (p :: l)) (zero : Bool) : FreeList c (m.take zero p) l where
  chain := by
    rw [Mem.take_link]
    exact h.chain.pop none
  num := by
    have hnum := h.num
    have hlen := h.length_lt
    rw [List.length_cons] at hnum hlen
    simp only [Mem.take, hnum, add32]
    omega
  alloc q hq := h.alloc q (List.mem_cons_of_mem p hq)
  ref q hq := by
    rw [Mem.take_ref]
    exact h.ref q (List.mem_cons_of_mem p hq)
  used q hq hql := by
    rw [Mem.take_link]
    by_cases hqp : q = p
    · rw [hqp, Function.update_self]
    · rw [Function.update_of_ne hqp]
      exact h.used q hq (by simp [hqp, hql])

end Alloc

/-! ## `page_free` -/

/-- The memory `page_free` leaves when it takes page `p` back. -/
def Mem.give (m : Mem) (p : Nat) : Mem :=
  { m with
    pageFreeList := some p
    pages := Function.update m.pages p { m.pages p with ppLink := m.pageFreeList }
    numFreePages := add32 m.numFreePages 1 }

section Free

variable {c : Config} {m : Mem} {l : List Nat} {p : Nat}

theorem pageFree_eq (href : (m.pages p).ppRef = 0) (hlink : m.link p = none) :
    pageFree p m = .ok (m.give p) := by
  rw [Mem.link] at hlink
  simp [pageFree, href, hlink, Mem.give, Mem.modPage]

theorem Mem.give_link (m : Mem) (p : Nat) :
    (m.give p).link = Function.update m.link p m.pageFreeList := by
  funext q
  by_cases hq : q = p
  · subst hq
    simp [Mem.give, Mem.link]
  · simp [Mem.give, Mem.link, hq]

theorem Mem.give_ref (m : Mem) (p q : Nat) :
    ((m.give p).pages q).ppRef = (m.pages q).ppRef := by
  by_cases hq : q = p
  · subst hq
    simp [Mem.give]
  · simp [Mem.give, hq]

theorem FreeList.give (h : FreeList c m l) (hp : c.Allocatable p) (hpl : p ∉ l)
    (href : (m.pages p).ppRef = 0) : FreeList c (m.give p) (p :: l) where
  chain := by
    rw [Mem.give_link]
    exact h.chain.push hpl
  num := by
    have hlen := h.length_lt
    simp only [Mem.give, h.num, add32, List.length_cons]
    omega
  alloc q hq := by
    rcases List.mem_cons.mp hq with rfl | hq
    · exact hp
    · exact h.alloc q hq
  ref q hq := by
    rw [Mem.give_ref]
    rcases List.mem_cons.mp hq with rfl | hq
    · exact href
    · exact h.ref q hq
  used q hq hql := by
    rw [List.mem_cons, not_or] at hql
    rw [Mem.give_link, Function.update_of_ne hql.1]
    exact h.used q hq hql.2

end Free

/-! ## `page_init` -/

/-- The state of `page_init` between two turns: the pages freed so far are `l`, the contents
of memory are `ram`, and nothing has been mapped in the MMIO window. -/
structure InitList (ram : Nat → Idx → Nat) (m : Mem) (l : List Nat) : Prop where
  chain : Chain m.link m.pageFreeList l
  num : m.numFreePages = l.length
  ref : ∀ p, (m.pages p).ppRef = 0
  used : ∀ p, p ∉ l → m.link p = none
  ram : m.ram = ram
  mmio : m.mmioNext = mmiobase

namespace InitList

variable {ram : Nat → Idx → Nat} {m : Mem} {l : List Nat} {i : Nat} {is : List Nat}

theorem freeInit (h : InitList ram m l) (hi : i ∉ l) (hlen : l.length + 1 < 2 ^ 32) :
    InitList ram (freeInit m i) (i :: l) := by
  have hlink : (Nctuos.freeInit m i).link = Function.update m.link i m.pageFreeList := by
    funext q
    by_cases hq : q = i
    · subst hq
      simp [Nctuos.freeInit, Mem.link]
    · simp [Nctuos.freeInit, Mem.link, hq]
  refine ⟨?_, ?_, fun p => ?_, fun p hp => ?_, h.ram, h.mmio⟩
  · rw [hlink]
    exact h.chain.push hi
  · simp only [Nctuos.freeInit, h.num, add32, List.length_cons]
    omega
  · by_cases hp : p = i
    · subst hp
      simp [Nctuos.freeInit]
    · simp [Nctuos.freeInit, hp, h.ref p]
  · rw [List.mem_cons, not_or] at hp
    rw [hlink, Function.update_of_ne hp.1]
    exact h.used p hp.2

theorem keepInit (h : InitList ram m l) (hi : i ∉ l) : InitList ram (keepInit m i) l := by
  have hlink : (Nctuos.keepInit m i).link = m.link := by
    funext q
    by_cases hq : q = i
    · subst hq
      simpa [Nctuos.keepInit, Mem.modPage, Mem.link] using (h.used q hi).symm
    · simp [Nctuos.keepInit, Mem.modPage, Mem.link, hq]
  refine ⟨?_, h.num, fun p => ?_, fun p hp => ?_, h.ram, h.mmio⟩
  · rw [hlink]
    exact h.chain
  · by_cases hp : p = i
    · subst hp
      simpa [Nctuos.keepInit, Mem.modPage] using h.ref p
    · simpa [Nctuos.keepInit, Mem.modPage, hp] using h.ref p
  · rw [hlink]
    exact h.used p hp

theorem freeInit_loop (h : InitList ram m l) (hnodup : is.Nodup) (hnew : ∀ i ∈ is, i ∉ l)
    (hlen : l.length + is.length < 2 ^ 32) :
    InitList ram (is.foldl Nctuos.freeInit m) (is.reverse ++ l) := by
  induction is generalizing m l with
  | nil => exact h
  | cons i is ih =>
      rw [List.nodup_cons] at hnodup
      rw [List.length_cons] at hlen
      have hstep := h.freeInit (hnew i List.mem_cons_self) (by omega)
      rw [List.foldl_cons, List.reverse_cons, List.append_assoc, List.singleton_append]
      refine ih hstep hnodup.2 (fun j hj hmem => ?_) (by rw [List.length_cons]; omega)
      rcases List.mem_cons.mp hmem with rfl | hmem
      · exact hnodup.1 hj
      · exact hnew j (List.mem_cons_of_mem i hj) hmem

theorem keepInit_loop (h : InitList ram m l) (hnew : ∀ i ∈ is, i ∉ l) :
    InitList ram (is.foldl Nctuos.keepInit m) l := by
  induction is generalizing m with
  | nil => exact h
  | cons i is ih =>
      rw [List.foldl_cons]
      exact ih (h.keepInit (hnew i List.mem_cons_self)) fun j hj =>
        hnew j (List.mem_cons_of_mem i hj)

end InitList

/-- The free list that `page_init` builds, with the same bounds. -/
def initListFrom (npagesBasemem first npages : Nat) : List Nat :=
  (List.range' first (npages - first)).reverse ++
    ((List.range' (pgnum mpentryPaddr + 1) (npagesBasemem - (pgnum mpentryPaddr + 1))).reverse ++
    (List.range' 1 (pgnum mpentryPaddr - 1)).reverse)

/-- The memory when `page_init` is called: `pages` is cleared and the list is empty. -/
def Mem.zeroed (ram : Nat → Idx → Nat) : Mem where
  pages _ := ⟨none, 0⟩
  pageFreeList := none
  numFreePages := 0
  ram := ram
  mmioNext := mmiobase
  flushed := []

/-- The pages from `start` on, when none of them is in `l`. -/
theorem notMem_of_range {start : Nat} {l : List Nat} (n : Nat) (h : ∀ i, start ≤ i → i ∉ l) :
    ∀ i ∈ List.range' start n, i ∉ l :=
  fun i hi => h i (List.mem_range'_1.mp hi).1

section Bounds

variable {npagesBasemem first npages : Nat}

theorem mem_initListFrom (hbase : pgnum mpentryPaddr < npagesBasemem) (hle : first ≤ npages)
    {p : Nat} : p ∈ initListFrom npagesBasemem first npages ↔
      (1 ≤ p ∧ p < npagesBasemem ∧ p ≠ pgnum mpentryPaddr) ∨ (first ≤ p ∧ p < npages) := by
  have hmp : pgnum mpentryPaddr = 7 := by decide
  simp only [initListFrom, List.mem_append, List.mem_reverse, List.mem_range'_1, hmp] at *
  omega

/-- The six stretches of memory, from page 0 up, put their pages on the list or leave them
off it. -/
theorem initList_pageInitFrom (ram : Nat → Idx → Nat) (hbase : pgnum mpentryPaddr < npagesBasemem)
    (hio : npagesBasemem ≤ iophysmem / pgSize) (hfirst : extphysmem / pgSize ≤ first)
    (hle : first ≤ npages) (hlt : npages < 2 ^ 32) :
    InitList ram (pageInitFrom npagesBasemem first npages (.zeroed ram))
      (initListFrom npagesBasemem first npages) := by
  have hmp : pgnum mpentryPaddr = 7 := by decide
  have hext₀ : extphysmem / pgSize = 256 := by decide
  have hio₀ : iophysmem / pgSize = 160 := by decide
  rw [hmp] at hbase
  rw [hio₀] at hio
  rw [hext₀] at hfirst
  have hstart : InitList ram (.zeroed ram) [] :=
    ⟨.nil, rfl, fun _ => rfl, fun _ _ => rfl, rfl, rfl⟩
  have hlow := (hstart.keepInit (List.not_mem_nil (a := 0))).freeInit_loop
    (List.nodup_range' (s := 1) (n := 7 - 1)) (fun _ _ => List.not_mem_nil) (by simp)
  rw [List.append_nil] at hlow
  have hmpentry := hlow.keepInit (i := 7) (by simp)
  have hbasemem := hmpentry.freeInit_loop
    (List.nodup_range' (s := 7 + 1) (n := npagesBasemem - (7 + 1)))
    (fun i hi hmem => by
      simp only [List.mem_reverse, List.mem_range'_1] at hi hmem
      omega)
    (by simp only [List.length_reverse, List.length_range']; omega)
  have hkept : ∀ i, npagesBasemem ≤ i → i ∉ (List.range' (7 + 1)
      (npagesBasemem - (7 + 1))).reverse ++ (List.range' 1 (7 - 1)).reverse := by
    intro i hi hmem
    simp only [List.mem_append, List.mem_reverse, List.mem_range'_1] at hmem
    omega
  have hhole := hbasemem.keepInit_loop (notMem_of_range (256 - npagesBasemem) hkept)
  have himage := hhole.keepInit_loop
    (notMem_of_range (first - 256) fun i (hi : 256 ≤ i) => hkept i (by omega))
  have hextmem := himage.freeInit_loop
    (List.nodup_range' (s := first) (n := npages - first))
    (notMem_of_range _ fun i hi => hkept i (by omega))
    (by simp only [List.length_append, List.length_reverse, List.length_range']; omega)
  simpa only [pageInitFrom, initListFrom, hmp, hext₀] using hextmem

/-- **What `page_init` frees.**  For all bounds, the list has each page of base memory but page 0
and the page of the AP entry code, and each page behind the kernel's own, once and without
references; `num_free_pages` counts them, and every other page has a NULL `pp_link`. -/
theorem page_init_frees_exactly (ram : Nat → Idx → Nat)
    (hbase : pgnum mpentryPaddr < npagesBasemem) (hio : npagesBasemem ≤ iophysmem / pgSize)
    (hfirst : extphysmem / pgSize ≤ first) (hle : first ≤ npages) (hlt : npages < 2 ^ 32) :
    ∃ l, Chain (pageInitFrom npagesBasemem first npages (.zeroed ram)).link
        (pageInitFrom npagesBasemem first npages (.zeroed ram)).pageFreeList l ∧
      l.Nodup ∧
      (∀ i, i ∈ l ↔ (1 ≤ i ∧ i < npagesBasemem ∧ i ≠ pgnum mpentryPaddr) ∨
        (first ≤ i ∧ i < npages)) ∧
      (∀ i ∈ l, ((pageInitFrom npagesBasemem first npages (.zeroed ram)).pages i).ppRef = 0) ∧
      (pageInitFrom npagesBasemem first npages (.zeroed ram)).numFreePages = l.length ∧
      ∀ i, i ∉ l →
        ((pageInitFrom npagesBasemem first npages (.zeroed ram)).pages i).ppLink = none := by
  have h := initList_pageInitFrom ram hbase hio hfirst hle hlt
  exact ⟨_, h.chain, h.chain.nodup, fun i => mem_initListFrom hbase hle, fun i _ => h.ref i, h.num,
    h.used⟩

/-- A machine with two megabytes, whose kernel ends in the second. -/
theorem page_init_frees_base_memory :
    ∃ l, Chain (pageInitFrom 160 300 512 (.zeroed fun _ _ => 0)).link
        (pageInitFrom 160 300 512 (.zeroed fun _ _ => 0)).pageFreeList l ∧
      (∀ i, i ∈ l ↔ (1 ≤ i ∧ i < 160 ∧ i ≠ 7) ∨ (300 ≤ i ∧ i < 512)) ∧
      (pageInitFrom 160 300 512 (.zeroed fun _ _ => 0)).numFreePages = l.length := by
  have hmp : pgnum mpentryPaddr = 7 := by decide
  obtain ⟨l, hchain, -, hmem, -, hnum, -⟩ := @page_init_frees_exactly 160 300 512 (fun _ _ => 0)
    (by decide) (by decide) (by decide) (by decide) (by decide)
  rw [hmp] at hmem
  exact ⟨l, hchain, hmem, hnum⟩

end Bounds

def initList (c : Config) : List Nat := initListFrom c.npagesBasemem c.first c.npages

theorem mem_initList {c : Config} {p : Nat} : p ∈ initList c ↔ c.Allocatable p :=
  mem_initListFrom c.basemem_gt c.first_le

theorem pageInit_initList (c : Config) (ram : Nat → Idx → Nat) :
    InitList (Mem.cleared c ram).ram (pageInit c (Mem.cleared c ram)) (initList c) :=
  initList_pageInitFrom (Mem.cleared c ram).ram c.basemem_gt c.basemem_le
    (Nat.le_of_lt (Nat.lt_of_le_of_lt c.kernPgdir_bounds.1 c.kernPgdir_bounds.2)) c.first_le
    (Nat.lt_trans c.npages_lt (by decide))

/-- `page_init` leaves a free list of exactly the allocatable pages. -/
theorem freeList_pageInit (c : Config) (ram : Nat → Idx → Nat) :
    FreeList c (pageInit c (Mem.cleared c ram)) (initList c) where
  chain := (pageInit_initList c ram).chain
  num := (pageInit_initList c ram).num
  alloc _ hp := mem_initList.mp hp
  ref p _ := (pageInit_initList c ram).ref p
  used p _ hp := (pageInit_initList c ram).used p hp

end Nctuos
