import Nctuos.PageOps
import Nctuos.Lib.Yields

/-!
# The self-tests of `mem_init`

`check_page_alloc` and `check_page`, whole.  They run on the kernel's own memory: the free list is
put aside in a local, pages are freed and allocated again by three routes, two directory entries and
three reference counts are written by hand.  What is left of all that when they are over is the
subject of `SelfTestRun`; here are the tests and the state they go through.

That state is small.  `TestView` is as much of the memory as the tests depend on: the free list, the
list put aside, the reference counts, the entries of `kern_pgdir` and those of one page that is, or
may become, a page table.  `Seen` ties it to the memory, together with what does not change, and each
function of `kernel/mem.c` that the tests call is one step from view to view.

An asserted pointer is a page from then on, so the later `assert(pp0)` and the like are left out.
The loops over the bytes and entries of a page are one assertion about all of them.
-/

namespace Nctuos

open Lib

/-! ## The tests -/

/-- `memset(page, b, PGSIZE)`, for the word that has `b` in each byte. -/
def Mem.fillPage (m : Mem) (pp w : Nat) : Mem :=
  { m with ram := Function.update m.ram pp fun _ => w }

/-- The turns of `for (pp = page_free_list; pp; pp = pp->pp_link)`. -/
def listLength (m : Mem) : Nat → Option Nat → Except Stop Nat
  | _, none => .ok 0
  | 0, some _ => .error .hang
  | fuel + 1, some pp => do
      let n ← listLength m fuel (m.link pp)
      .ok (n + 1)

/-- `assert((pp = page_alloc(flags)))`. -/
def takePage (c : Config) (zero : Bool) (text : String) (m : Mem) : Except Stop (Nat × Mem) := do
  let r ← pageAlloc c zero m
  match r.1 with
  | none => .error (.panic ("assertion failed: " ++ text))
  | some pp => .ok (pp, r.2)

/-- `assert(!page_alloc(0))`. -/
def takeNone (c : Config) (m : Mem) : Except Stop Mem := do
  let r ← pageAlloc c false m
  assert (r.1 = none) "!page_alloc(0)"
  .ok r.2

/-- The beginning of both tests: three pages, which are not the same. -/
def takeThree (c : Config) (m : Mem) : Except Stop ((Nat × Nat × Nat) × Mem) := do
  let (pp0, m) ← takePage c false "(pp0 = page_alloc(0))" m
  let (pp1, m) ← takePage c false "(pp1 = page_alloc(0))" m
  let (pp2, m) ← takePage c false "(pp2 = page_alloc(0))" m
  assert (pp1 ≠ pp0) "pp1 && pp1 != pp0"
  assert (pp2 ≠ pp1 ∧ pp2 ≠ pp0) "pp2 && pp2 != pp1 && pp2 != pp0"
  .ok ((pp0, pp1, pp2), m)

/-- Three pages are given back. -/
def freeThree (pp0 pp1 pp2 : Nat) (m : Mem) : Except Stop Mem := do
  let m ← pageFree pp0 m
  let m ← pageFree pp1 m
  pageFree pp2 m

/-- `check_page_alloc`; a free list that does not end within `fuel` pages is not counted. -/
def checkPageAlloc (c : Config) (fuel : Nat) (m : Mem) : Except Stop Mem := do
  if c.pagesVa = 0 then .error (.panic "'pages' is a null pointer!") else .ok ()
  let nfree ← listLength m fuel m.pageFreeList
  let ((pp0, pp1, pp2), m) ← takeThree c m
  assert (page2pa pp0 < c.npages * pgSize) "page2pa(pp0) < npages*PGSIZE"
  assert (page2pa pp1 < c.npages * pgSize) "page2pa(pp1) < npages*PGSIZE"
  assert (page2pa pp2 < c.npages * pgSize) "page2pa(pp2) < npages*PGSIZE"
  -- temporarily steal the rest of the free pages
  let fl := m.pageFreeList
  let m ← takeNone c { m with pageFreeList := none }
  -- free and re-allocate?
  let m ← freeThree pp0 pp1 pp2 m
  let ((pp0, pp1, pp2), m) ← takeThree c m
  let m ← takeNone c m
  -- test flags
  let kva ← page2kva c pp0
  let m ← pageFree pp0 (m.fillPage kva 0x01010101)
  let (pp, m) ← takePage c true "(pp = page_alloc(ALLOC_ZERO))" m
  assert (pp0 = pp) "pp && pp0 == pp"
  let kva ← page2kva c pp
  assert (∀ i, m.ram kva i = 0) "c[i] == 0"
  -- give free list back
  let m ← freeThree pp0 pp1 pp2 { m with pageFreeList := fl }
  let left ← listLength m fuel m.pageFreeList
  assert ((nfree : Int) - left = 0) "nfree == 0"
  .ok m

theorem zero_lt_npdentries : 0 < npdentries := by decide

/-- The index of `kern_pgdir[0]`. -/
def pde0 : Idx := ⟨0, zero_lt_npdentries⟩

section Insert

variable (c : Config) (local₀ : PtePtr)

/-- `assert(page_insert(kern_pgdir, pp, va, perm) == 0)`.  The local of `page_remove` is not NULL. -/
def insertOk (pp va perm : Nat) (text : String) (m : Mem) : Except Stop Mem := do
  let r ← pageInsert c (some local₀) c.kernPgdir pp va perm m
  assert (r.1 = 0) text
  .ok r.2

/-- `assert(page_insert(kern_pgdir, pp, va, perm) < 0)`. -/
def insertFails (pp va perm : Nat) (text : String) (m : Mem) : Except Stop Mem := do
  let r ← pageInsert c (some local₀) c.kernPgdir pp va perm m
  assert (r.1 < 0) text
  .ok r.2

/-- `assert(check_va2pa(kern_pgdir, va) == pa)`. -/
def va2paIs (va pa : Nat) (text : String) (m : Mem) : Except Stop Unit := do
  let found ← checkVa2pa c c.kernPgdir va m
  assert (found = pa) text

/-- An assertion about `*pgdir_walk(kern_pgdir, va, 0)`. -/
def pteIs (va : Nat) (p : Nat → Prop) [DecidablePred p] (text : String) (m : Mem) :
    Except Stop Unit := do
  let pte ← pteOf c c.kernPgdir va m
  assert (p (m.load pte)) text

/-- `check_page` as far as `pp1` at 0 and `pp2` at `PGSIZE`, with no page left. -/
def checkPageInsert (pp0 pp1 pp2 : Nat) (m : Mem) : Except Stop Mem := do
  let m ← takeNone c m
  -- there is no page allocated at address 0
  let r ← pageLookup c c.kernPgdir 0 (some local₀) m
  assert (r.1 = none) "page_lookup(kern_pgdir, (void *) 0x0, &ptep) == NULL"
  -- there is no free memory, so we can't allocate a page table
  let m ← insertFails c local₀ pp1 0 pteW "page_insert(kern_pgdir, pp1, 0x0, PTE_W) < 0" m
  -- free pp0 and try again: pp0 should be used for page table
  let m ← pageFree pp0 m
  let m ← insertOk c local₀ pp1 0 pteW "page_insert(kern_pgdir, pp1, 0x0, PTE_W) == 0" m
  assert (pteAddr (m.ram c.kernPgdir pde0) = page2pa pp0) "PTE_ADDR(kern_pgdir[0]) == page2pa(pp0)"
  va2paIs c 0 (page2pa pp1) "check_va2pa(kern_pgdir, 0x0) == page2pa(pp1)" m
  assert ((m.pages pp1).ppRef = 1) "pp1->pp_ref == 1"
  assert ((m.pages pp0).ppRef = 1) "pp0->pp_ref == 1"
  let m ← insertOk c local₀ pp2 pgSize pteW
    "page_insert(kern_pgdir, pp2, (void*) PGSIZE, PTE_W) == 0" m
  va2paIs c pgSize (page2pa pp2) "check_va2pa(kern_pgdir, PGSIZE) == page2pa(pp2)" m
  assert ((m.pages pp2).ppRef = 1) "pp2->pp_ref == 1"
  takeNone c m

/-- `pp2` mapped once more where it is, with the same, more and fewer permissions. -/
def checkPageAgain (pp2 : Nat) (m : Mem) : Except Stop Mem := do
  let m ← insertOk c local₀ pp2 pgSize pteW
    "page_insert(kern_pgdir, pp2, (void*) PGSIZE, PTE_W) == 0" m
  va2paIs c pgSize (page2pa pp2) "check_va2pa(kern_pgdir, PGSIZE) == page2pa(pp2)" m
  assert ((m.pages pp2).ppRef = 1) "pp2->pp_ref == 1"
  let m ← takeNone c m
  -- check that pgdir_walk returns a pointer to the pte
  let ptep ← kaddr c (pteAddr (m.ram c.kernPgdir (pdx pgSize)))
  let r ← pgdirWalk c c.kernPgdir pgSize false m
  assert (r.1 = some ⟨ptep, ptx pgSize⟩)
    "pgdir_walk(kern_pgdir, (void*)PGSIZE, 0) == ptep+PTX(PGSIZE)"
  -- should be able to change permissions too.
  let m ← insertOk c local₀ pp2 pgSize (pteW ||| pteU)
    "page_insert(kern_pgdir, pp2, (void*) PGSIZE, PTE_W|PTE_U) == 0" m
  va2paIs c pgSize (page2pa pp2) "check_va2pa(kern_pgdir, PGSIZE) == page2pa(pp2)" m
  assert ((m.pages pp2).ppRef = 1) "pp2->pp_ref == 1"
  pteIs c pgSize (· &&& pteU ≠ 0) "*pgdir_walk(kern_pgdir, (void*) PGSIZE, 0) & PTE_U" m
  assert (m.ram c.kernPgdir pde0 &&& pteU ≠ 0) "kern_pgdir[0] & PTE_U"
  -- should be able to remap with fewer permissions
  let m ← insertOk c local₀ pp2 pgSize pteW
    "page_insert(kern_pgdir, pp2, (void*) PGSIZE, PTE_W) == 0" m
  pteIs c pgSize (· &&& pteW ≠ 0) "*pgdir_walk(kern_pgdir, (void*) PGSIZE, 0) & PTE_W" m
  pteIs c pgSize (· &&& pteU = 0) "!(*pgdir_walk(kern_pgdir, (void*) PGSIZE, 0) & PTE_U)" m
  .ok m

/-- `pp1` mapped twice, in the place of `pp2`, which comes back. -/
def checkPageReplace (pp0 pp1 pp2 : Nat) (m : Mem) : Except Stop Mem := do
  -- should not be able to map at PTSIZE because need free page for page table
  let m ← insertFails c local₀ pp0 ptSize pteW
    "page_insert(kern_pgdir, pp0, (void*) PTSIZE, PTE_W) < 0" m
  -- insert pp1 at PGSIZE (replacing pp2)
  let m ← insertOk c local₀ pp1 pgSize pteW
    "page_insert(kern_pgdir, pp1, (void*) PGSIZE, PTE_W) == 0" m
  pteIs c pgSize (· &&& pteU = 0) "!(*pgdir_walk(kern_pgdir, (void*) PGSIZE, 0) & PTE_U)" m
  va2paIs c 0 (page2pa pp1) "check_va2pa(kern_pgdir, 0) == page2pa(pp1)" m
  va2paIs c pgSize (page2pa pp1) "check_va2pa(kern_pgdir, PGSIZE) == page2pa(pp1)" m
  assert ((m.pages pp1).ppRef = 2) "pp1->pp_ref == 2"
  assert ((m.pages pp2).ppRef = 0) "pp2->pp_ref == 0"
  -- pp2 should be returned by page_alloc
  let (pp, m) ← takePage c false "(pp = page_alloc(0)) && pp == pp2" m
  assert (pp = pp2) "(pp = page_alloc(0)) && pp == pp2"
  .ok m

/-- `pp1` unmapped at 0 and then at `PGSIZE`, when it comes back. -/
def checkPageRemove (pp1 pp2 : Nat) (m : Mem) : Except Stop Mem := do
  -- unmapping pp1 at 0 should keep pp1 at PGSIZE
  let m ← pageRemove c (some local₀) c.kernPgdir 0 m
  va2paIs c 0 (2 ^ 32 - 1) "check_va2pa(kern_pgdir, 0x0) == ~0" m
  va2paIs c pgSize (page2pa pp1) "check_va2pa(kern_pgdir, PGSIZE) == page2pa(pp1)" m
  assert ((m.pages pp1).ppRef = 1) "pp1->pp_ref == 1"
  assert ((m.pages pp2).ppRef = 0) "pp2->pp_ref == 0"
  -- test re-inserting pp1 at PGSIZE
  let m ← insertOk c local₀ pp1 pgSize 0 "page_insert(kern_pgdir, pp1, (void*) PGSIZE, 0) == 0" m
  assert ((m.pages pp1).ppRef ≠ 0) "pp1->pp_ref"
  assert ((m.pages pp1).ppLink = none) "pp1->pp_link == NULL"
  -- unmapping pp1 at PGSIZE should free it
  let m ← pageRemove c (some local₀) c.kernPgdir pgSize m
  va2paIs c 0 (2 ^ 32 - 1) "check_va2pa(kern_pgdir, 0x0) == ~0" m
  va2paIs c pgSize (2 ^ 32 - 1) "check_va2pa(kern_pgdir, PGSIZE) == ~0" m
  assert ((m.pages pp1).ppRef = 0) "pp1->pp_ref == 0"
  assert ((m.pages pp2).ppRef = 0) "pp2->pp_ref == 0"
  -- so it should be returned by page_alloc
  let (pp, m) ← takePage c false "(pp = page_alloc(0)) && pp == pp1" m
  assert (pp = pp1) "(pp = page_alloc(0)) && pp == pp1"
  -- should be no free memory
  takeNone c m

end Insert

/-- `kern_pgdir[i] = 0`. -/
def clearPde (c : Config) (i : Idx) (m : Mem) : Mem := m.store ⟨c.kernPgdir, i⟩ 0

/-- `pp->pp_ref = 0`. -/
def clearRef (pp : Nat) (m : Mem) : Mem := m.modPage pp fun info => { info with ppRef := 0 }

/-- `pp0` taken back, and as the page table of two more addresses. -/
def checkPageWalk (c : Config) (pp0 : Nat) (m : Mem) : Except Stop Mem := do
  -- forcibly take pp0 back
  assert (pteAddr (m.ram c.kernPgdir pde0) = page2pa pp0) "PTE_ADDR(kern_pgdir[0]) == page2pa(pp0)"
  let m := clearPde c pde0 m
  assert ((m.pages pp0).ppRef = 1) "pp0->pp_ref == 1"
  let m := clearRef pp0 m
  -- check pointer arithmetic in pgdir_walk
  let m ← pageFree pp0 m
  let va := pgSize * npdentries + pgSize
  let (ptep, m) ← pgdirWalk c c.kernPgdir va true m
  let ptep1 ← kaddr c (pteAddr (m.ram c.kernPgdir (pdx va)))
  assert (ptep = some ⟨ptep1, ptx va⟩) "ptep == ptep1 + PTX(va)"
  let m := clearRef pp0 (clearPde c (pdx va) m)
  -- check that new page tables get cleared
  let kva ← page2kva c pp0
  let m ← pageFree pp0 (m.fillPage kva 0xFFFFFFFF)
  let (_, m) ← pgdirWalk c c.kernPgdir 0 true m
  let ptep ← page2kva c pp0
  assert (∀ i, present (m.ram ptep i) = false) "(ptep[i] & PTE_P) == 0"
  .ok (clearRef pp0 (clearPde c pde0 m))

def checkPage (c : Config) (local₀ : PtePtr) (m : Mem) : Except Stop Mem := do
  let ((pp0, pp1, pp2), m) ← takeThree c m
  -- temporarily steal the rest of the free pages
  let fl := m.pageFreeList
  let m ← checkPageInsert c local₀ pp0 pp1 pp2 { m with pageFreeList := none }
  let m ← checkPageAgain c local₀ pp2 m
  let m ← checkPageReplace c local₀ pp0 pp1 pp2 m
  let m ← checkPageRemove c local₀ pp1 pp2 m
  let m ← checkPageWalk c pp0 m
  -- give free list back, and free the pages we took
  let m ← freeThree pp0 pp1 pp2 { m with pageFreeList := fl }
  checkPageMmio c m

/-! ## What the tests see -/

/-- As much of the memory as the tests depend on. -/
structure TestView where
  /-- `page_free_list`, and the list that was put aside. -/
  free : List Nat
  stash : List Nat
  ref : Nat → Nat
  /-- The entries of `kern_pgdir`, and those of the page `t` of `Seen`. -/
  dir : Idx → Nat
  tab : Idx → Nat

/-- The memory `m` is seen as `v`.  Of the pages outside of `mine` no contents have changed since
`m₀`, apart from `kern_pgdir`. -/
structure Seen (c : Config) (m₀ : Mem) (mine : List Nat) (t : Nat) (v : TestView) (m : Mem) :
    Prop where
  mineAlloc : ∀ p ∈ mine, c.Allocatable p
  table : t ∈ mine
  free : Chain m.link m.pageFreeList v.free
  stash : Chain m.link v.stash.head? v.stash
  nodup : (v.free ++ v.stash).Nodup
  alloc : ∀ p ∈ v.free ++ v.stash, c.Allocatable p
  num : m.numFreePages = (v.free ++ v.stash).length
  used : ∀ p, c.Allocatable p → p ∉ v.free ++ v.stash → m.link p = none
  ref : ∀ p, (m.pages p).ppRef = v.ref p
  dir : m.ram c.kernPgdir = v.dir
  tab : m.ram t = v.tab
  other : ∀ p, p ∉ mine → p ≠ c.kernPgdir → m.ram p = m₀.ram p
  mmio : m.mmioNext = m₀.mmioNext

namespace Seen

variable {c : Config} {m₀ m m' : Mem} {mine free stash : List Nat} {t p q : Nat} {v : TestView}
  {ref : Nat → Nat} {dir tab : Idx → Nat}

theorem length_lt (h : Seen c m₀ mine t v m) : (v.free ++ v.stash).length < 2 ^ 15 :=
  c.length_lt h.nodup fun p hp => (h.alloc p hp).lt

theorem table_lt (h : Seen c m₀ mine t v m) : t < c.npages := (h.mineAlloc t h.table).lt

theorem ne_kernPgdir (h : Seen c m₀ mine t v m) (hp : p ∈ mine) : p ≠ c.kernPgdir := by
  rintro rfl
  exact c.not_allocatable_kernPgdir (h.mineAlloc c.kernPgdir hp)

/-- Another page may be the one whose entries are seen. -/
theorem look (h : Seen c m₀ mine t v m) {t' : Nat} (ht' : t' ∈ mine) :
    Seen c m₀ mine t' { v with tab := m.ram t' } m :=
  ⟨h.mineAlloc, ht', h.free, h.stash, h.nodup, h.alloc, h.num, h.used, h.ref, h.dir, rfl, h.other,
    h.mmio⟩

/-! ### The contents of memory -/

section View

variable (h : Seen c m₀ mine t v m)

include h

theorem tlb (va : Nat) : Seen c m₀ mine t v (m.tlbInvalidate va) :=
  ⟨h.mineAlloc, h.table, h.free, h.stash, h.nodup, h.alloc, h.num, h.used, h.ref, h.dir, h.tab, h.other,
    h.mmio⟩

/-- The contents of page `t` are replaced. -/
theorem write (tab : Idx → Nat) :
    Seen c m₀ mine t { v with tab := tab } { m with ram := Function.update m.ram t tab } := by
  refine ⟨h.mineAlloc, h.table, h.free, h.stash, h.nodup, h.alloc, h.num, h.used, h.ref, ?_,
    Function.update_self _ _ _, fun p hp hkern => ?_, h.mmio⟩
  · exact (Function.update_of_ne (h.ne_kernPgdir h.table).symm _ _).trans h.dir
  · have hpt : p ≠ t := by
      rintro rfl
      exact hp h.table
    exact (Function.update_of_ne hpt _ _).trans (h.other p hp hkern)

theorem fill (w : Nat) : Seen c m₀ mine t { v with tab := fun _ => w } (m.fillPage t w) := h.write _

theorem storeTab (i : Idx) (w : Nat) :
    Seen c m₀ mine t { v with tab := Function.update v.tab i w } (m.store ⟨t, i⟩ w) := by
  rw [← h.tab]
  exact h.write _

theorem storeDir (i : Idx) (w : Nat) :
    Seen c m₀ mine t { v with dir := Function.update v.dir i w } (m.store ⟨c.kernPgdir, i⟩ w) := by
  refine ⟨h.mineAlloc, h.table, h.free, h.stash, h.nodup, h.alloc, h.num, h.used, h.ref, ?_, ?_,
    fun p hp hkern => ?_, h.mmio⟩
  · rw [← h.dir]
    exact Function.update_self _ _ _
  · exact (Function.update_of_ne (h.ne_kernPgdir h.table) _ _).trans h.tab
  · exact (Function.update_of_ne hkern _ _).trans (h.other p hp hkern)

end View

/-! ### Reference counts -/

theorem setRef (h : Seen c m₀ mine t v m) (p n : Nat) :
    Seen c m₀ mine t { v with ref := Function.update v.ref p n }
      (m.modPage p fun info => { info with ppRef := n }) := by
  have hlink : (m.modPage p fun info => { info with ppRef := n }).link = m.link := by
    funext q
    by_cases hq : q = p
    · subst hq
      simp [Mem.link, Mem.modPage]
    · simp [Mem.link, Mem.modPage, hq]
  refine ⟨h.mineAlloc, h.table, ?_, ?_, h.nodup, h.alloc, h.num, ?_, fun q => ?_, h.dir, h.tab, h.other,
    h.mmio⟩
  · rw [hlink]
    exact h.free
  · rw [hlink]
    exact h.stash
  · rw [hlink]
    exact h.used
  · by_cases hq : q = p
    · subst hq
      simp [Mem.modPage]
    · simp [Mem.modPage, hq, h.ref q]

theorem incref {n : Nat} (h : Seen c m₀ mine t v m) (href : v.ref p = n) (hlt : n + 1 < 2 ^ 16) :
    Seen c m₀ mine t { v with ref := Function.update v.ref p (n + 1) } (incref p m) := by
  have hset := h.setRef p (n + 1)
  rw [Nctuos.incref, Mem.modPage, h.ref p, href, Nat.mod_eq_of_lt hlt]
  exact hset

theorem drop {n : Nat} (h : Seen c m₀ mine t v m) (href : v.ref p = n + 1) (hlt : n + 1 < 2 ^ 16) :
    Seen c m₀ mine t { v with ref := Function.update v.ref p n } (m.drop p) := by
  have hset := h.setRef p n
  have hmod : (n + 1 + (2 ^ 16 - 1)) % 2 ^ 16 = n := by omega
  rw [Mem.drop, Mem.modPage, h.ref p, href, hmod]
  exact hset

/-! ### The free list -/

theorem take (h : Seen c m₀ mine t ⟨p :: free, stash, ref, dir, tab⟩ m) :
    pageAlloc c false m = .ok (some p, m.take false p) ∧
      Seen c m₀ mine t ⟨free, stash, ref, dir, tab⟩ (m.take false p) := by
  have hlist : m.pageFreeList = some p := h.free.head_eq
  have hnodup := List.nodup_cons.mp h.nodup
  refine ⟨pageAlloc_some hlist (h.alloc p List.mem_cons_self).lt, ?_⟩
  refine ⟨h.mineAlloc, h.table, ?_, ?_, hnodup.2, fun q hq => h.alloc q (List.mem_cons_of_mem p hq), ?_,
    ?_, ?_, h.dir, h.tab, h.other, h.mmio⟩
  · rw [Mem.take_link]
    exact h.free.pop none
  · rw [Mem.take_link]
    refine h.stash.congr fun q hq => Function.update_of_ne ?_ _ _
    rintro rfl
    exact hnodup.1 (List.mem_append_right free hq)
  · have hlen := h.length_lt
    have hnum := h.num
    simp only [List.cons_append, List.length_cons] at hlen hnum
    simp only [Mem.take, hnum, add32]
    omega
  · intro q halloc hq
    rw [Mem.take_link]
    by_cases hqp : q = p
    · rw [hqp, Function.update_self]
    · rw [Function.update_of_ne hqp]
      exact h.used q halloc (fun hmem => (List.mem_cons.mp hmem).elim hqp hq)
  · intro q
    rw [Mem.take_ref]
    exact h.ref q

/-- `page_alloc(ALLOC_ZERO)`, of the page whose entries are seen. -/
theorem takeZero (h : Seen c m₀ mine t ⟨t :: free, stash, ref, dir, tab⟩ m) :
    pageAlloc c true m = .ok (some t, m.take true t) ∧
      Seen c m₀ mine t ⟨free, stash, ref, dir, fun _ => 0⟩ (m.take true t) :=
  ⟨pageAlloc_some h.free.head_eq h.table_lt, h.take.2.write fun _ => 0⟩

theorem alloc_none (h : Seen c m₀ mine t ⟨[], stash, ref, dir, tab⟩ m) (zero : Bool) :
    pageAlloc c zero m = .ok (none, m) := pageAlloc_none h.free.head_eq

theorem give (h : Seen c m₀ mine t ⟨free, stash, ref, dir, tab⟩ m) (hp : c.Allocatable p)
    (hnew : p ∉ free ++ stash) (href : ref p = 0) :
    pageFree p m = .ok (m.give p) ∧
      Seen c m₀ mine t ⟨p :: free, stash, ref, dir, tab⟩ (m.give p) := by
  refine ⟨pageFree_eq ((h.ref p).trans href) (h.used p hp hnew), ?_⟩
  refine ⟨h.mineAlloc, h.table, ?_, ?_, List.nodup_cons.mpr ⟨hnew, h.nodup⟩, fun q hq => ?_, ?_, ?_, ?_,
    h.dir, h.tab, h.other, h.mmio⟩
  · rw [Mem.give_link]
    exact h.free.push fun hmem => hnew (List.mem_append_left stash hmem)
  · rw [Mem.give_link]
    refine h.stash.congr fun q hq => Function.update_of_ne ?_ _ _
    rintro rfl
    exact hnew (List.mem_append_right free hq)
  · rcases List.mem_cons.mp hq with rfl | hq
    · exact hp
    · exact h.alloc q hq
  · have hlen := h.length_lt
    have hnum := h.num
    dsimp only at hlen hnum
    simp only [Mem.give, hnum, add32, List.cons_append, List.length_cons]
    omega
  · intro q halloc hq
    have hqp : q ≠ p := by
      rintro rfl
      exact hq List.mem_cons_self
    rw [Mem.give_link, Function.update_of_ne hqp]
    exact h.used q halloc fun hmem => hq (List.mem_cons_of_mem p hmem)
  · intro q
    rw [Mem.give_ref]
    exact h.ref q

/-- The free list is put aside. -/
theorem steal (h : Seen c m₀ mine t ⟨free, [], ref, dir, tab⟩ m) :
    m.pageFreeList = free.head? ∧
      Seen c m₀ mine t ⟨[], free, ref, dir, tab⟩ { m with pageFreeList := none } := by
  have hnodup := h.nodup
  have halloc := h.alloc
  have hnum := h.num
  have hused := h.used
  have hlist := h.free.head_eq
  dsimp only at hnodup halloc hnum hused hlist
  rw [List.append_nil] at hnodup halloc hnum hused
  refine ⟨hlist, h.mineAlloc, h.table, Chain.nil, ?_, hnodup, halloc, hnum, hused, h.ref, h.dir, h.tab,
    h.other, h.mmio⟩
  rw [← hlist]
  exact h.free

/-- And given back. -/
theorem restore (h : Seen c m₀ mine t ⟨[], stash, ref, dir, tab⟩ m) :
    Seen c m₀ mine t ⟨stash, [], ref, dir, tab⟩ { m with pageFreeList := stash.head? } := by
  refine ⟨h.mineAlloc, h.table, h.stash, Chain.nil, ?_, ?_, ?_, ?_, h.ref, h.dir, h.tab, h.other,
    h.mmio⟩
  all_goals
    dsimp only
    rw [List.append_nil]
  · exact h.nodup
  · exact h.alloc
  · exact h.num
  · exact h.used

/-! ### Page tables -/

section Tables

variable {va pp perm n : Nat} (local₀ : PtePtr)

theorem not_selfMap (hva : pdx va ≠ pdx uvpt) : ¬ SelfMap c c.kernPgdir (pdx va) :=
  fun hself => hva hself.2

section Table

variable (h : Seen c m₀ mine t v m) (hva : pdx va ≠ pdx uvpt)

include h hva

/-- The page is the table of the addresses around `va`. -/
theorem tableOf (hdir : v.dir (pdx va) = pdeWord t) :
    tableOf c m c.kernPgdir (pdx va) = some t := by
  rw [tableOf_eq_some, h.dir, hdir]
  exact ⟨not_selfMap hva, present_pdeWord t, ptePage_pdeWord h.table_lt⟩

theorem tableOf_none (hdir : present (v.dir (pdx va)) = false) :
    Nctuos.tableOf c m c.kernPgdir (pdx va) = none := by
  rw [tableOf_eq_none (not_selfMap hva), h.dir]
  exact hdir

theorem walk (hdir : v.dir (pdx va) = pdeWord t) (create : Bool) :
    pgdirWalk c c.kernPgdir va create m = .ok (some ⟨t, ptx va⟩, m) :=
  pgdirWalk_table (h.tableOf hva hdir) h.table_lt create

end Table

theorem walk_grow (h : Seen c m₀ mine t ⟨t :: free, stash, ref, dir, tab⟩ m)
    (hva : pdx va ≠ pdx uvpt) (hdir : present (dir (pdx va)) = false) (href : ref t = 0) :
    pgdirWalk c c.kernPgdir va true m =
        .ok (some ⟨t, ptx va⟩, m.grow c.kernPgdir (pdx va) t) ∧
      Seen c m₀ mine t ⟨free, stash, Function.update ref t 1,
        Function.update dir (pdx va) (pdeWord t), fun _ => 0⟩ (m.grow c.kernPgdir (pdx va) t) :=
  ⟨pgdirWalk_grow (not_selfMap hva) (h.tableOf_none hva hdir) h.free.head_eq h.table_lt,
    (h.takeZero.2.incref href (by decide)).storeDir (pdx va) (pdeWord t)⟩

section Mapped

variable (h : Seen c m₀ mine t v m) (hva : pdx va ≠ pdx uvpt) (hdir : v.dir (pdx va) = pdeWord t)

include h hva hdir

/-- What is mapped at `va`. -/
theorem pageAt :
    pageAt c m c.kernPgdir va =
      if present (v.tab (ptx va)) then some (ptePage (v.tab (ptx va))) else none := by
  rw [pageAt_of_table (h.tableOf hva hdir), h.tab]

theorem pageAt_word (hp : p ∈ mine) (hperm : perm < 4096)
    (htab : v.tab (ptx va) = pteWord (page2pa p) perm) :
    Nctuos.pageAt c m c.kernPgdir va = some p := by
  have hlt := (h.mineAlloc p hp).lt
  have hpages := c.npages_lt
  rw [h.pageAt hva hdir, htab, if_pos (present_pteWord _ _), ptePage_pteWord (by omega) hperm]

theorem pageAt_none (htab : present (v.tab (ptx va)) = false) :
    Nctuos.pageAt c m c.kernPgdir va = none := by
  rw [h.pageAt hva hdir, htab]
  rfl

theorem checkVa2pa :
    checkVa2pa c c.kernPgdir va m =
      .ok ((Nctuos.pageAt c m c.kernPgdir va).elim (2 ^ 32 - 1) page2pa) := by
  refine checkVa2pa_eq (not_selfMap hva) fun t' ht' => ?_
  rw [h.tableOf hva hdir] at ht'
  cases ht'
  exact h.table_lt

end Mapped

/-! ### `page_insert` and `page_remove` -/

/-- No page for a table. -/
theorem insert_full (h : Seen c m₀ mine t ⟨[], stash, ref, dir, tab⟩ m) (hva : pdx va ≠ pdx uvpt)
    (hdir : present (dir (pdx va)) = false) :
    pageInsert c (some local₀) c.kernPgdir pp va perm m = .ok (-eNoMem, m) := by
  rw [pageInsert, pgdirWalk_full (not_selfMap hva) (h.tableOf_none hva hdir) h.free.head_eq]
  rfl

/-- A page where none is mapped. -/
theorem insert_fresh (h : Seen c m₀ mine t v m) (hva : pdx va ≠ pdx uvpt)
    (hdir : v.dir (pdx va) = pdeWord t) (htab : present (v.tab (ptx va)) = false)
    (href : v.ref pp = n) (hlt : n + 1 < 2 ^ 16) :
    Yields (pageInsert c (some local₀) c.kernPgdir pp va perm m) fun r => r.1 = 0 ∧
      Seen c m₀ mine t { v with
        ref := Function.update v.ref pp (n + 1)
        tab := Function.update v.tab (ptx va) (pteWord (page2pa pp) perm) } r.2 :=
  Yields.of_eq
    (pageInsert_fresh (h.walk hva hdir true) (h.tableOf hva hdir) (h.pageAt_none hva hdir htab))
    ⟨rfl, ((h.incref href hlt).tlb va).storeTab (ptx va) _⟩

/-- The same page once more. -/
theorem insert_same {perm' : Nat} (h : Seen c m₀ mine t v m) (hva : pdx va ≠ pdx uvpt)
    (hdir : v.dir (pdx va) = pdeWord t) (hpp : pp ∈ mine) (hperm : perm' < 4096)
    (htab : v.tab (ptx va) = pteWord (page2pa pp) perm') :
    Yields (pageInsert c (some local₀) c.kernPgdir pp va perm m) fun r => r.1 = 0 ∧
      Seen c m₀ mine t { v with
        tab := Function.update v.tab (ptx va) (pteWord (page2pa pp) perm) } r.2 :=
  Yields.of_eq
    (pageInsert_same (h.walk hva hdir true) (h.tableOf hva hdir)
      (h.pageAt_word hva hdir hpp hperm htab))
    ⟨rfl, h.storeTab (ptx va) _⟩

/-- A page, and a table for it. -/
theorem insert_first (h : Seen c m₀ mine t ⟨t :: free, stash, ref, dir, tab⟩ m)
    (hva : pdx va ≠ pdx uvpt) (hdir : present (dir (pdx va)) = false) (href : ref t = 0)
    (hne : pp ≠ t) (href' : ref pp = n) (hlt : n + 1 < 2 ^ 16) :
    Yields (pageInsert c (some local₀) c.kernPgdir pp va perm m) fun r => r.1 = 0 ∧
      Seen c m₀ mine t ⟨free, stash, Function.update (Function.update ref t 1) pp (n + 1),
        Function.update dir (pdx va) (pdeWord t),
        Function.update (fun _ => 0) (ptx va) (pteWord (page2pa pp) perm)⟩ r.2 := by
  obtain ⟨hwalk, hgrown⟩ := h.walk_grow hva hdir href
  have hdir' : Function.update dir (pdx va) (pdeWord t) (pdx va) = pdeWord t :=
    Function.update_self _ _ _
  have hcount : Function.update ref t 1 pp = n := (Function.update_of_ne hne _ _).trans href'
  have hnone := hgrown.pageAt_none hva hdir' present_zero
  exact Yields.of_eq (pageInsert_fresh hwalk (hgrown.tableOf hva hdir') hnone)
    ⟨rfl, ((hgrown.incref hcount hlt).tlb va).storeTab (ptx va) _⟩

/-- A mapping of a page with more of them is removed. -/
theorem remove (h : Seen c m₀ mine t v m) (hva : pdx va ≠ pdx uvpt)
    (hdir : v.dir (pdx va) = pdeWord t) (hp : p ∈ mine) (hperm : perm < 4096)
    (htab : v.tab (ptx va) = pteWord (page2pa p) perm) (href : v.ref p = n + 2)
    (hlt : n + 2 < 2 ^ 16) :
    Yields (pageRemove c (some local₀) c.kernPgdir va m) (Seen c m₀ mine t { v with
      ref := Function.update v.ref p (n + 1)
      tab := Function.update v.tab (ptx va) 0 }) := by
  have hcount := h.ref p
  exact Yields.of_eq
    (pageRemove_mapped (h.tableOf hva hdir) h.table_lt (h.pageAt_word hva hdir hp hperm htab)
      (h.mineAlloc p hp).lt rfl (pageDecref_more (by omega) (by omega)))
    (((h.drop href hlt).storeTab (ptx va) 0).tlb va)

/-- The only mapping of a page is removed, and the page is free. -/
theorem remove_last (h : Seen c m₀ mine t ⟨free, stash, ref, dir, tab⟩ m) (hva : pdx va ≠ pdx uvpt)
    (hdir : dir (pdx va) = pdeWord t) (hp : p ∈ mine) (hperm : perm < 4096)
    (htab : tab (ptx va) = pteWord (page2pa p) perm) (href : ref p = 1)
    (hnew : p ∉ free ++ stash) :
    Yields (pageRemove c (some local₀) c.kernPgdir va m) (Seen c m₀ mine t ⟨p :: free, stash,
      Function.update ref p 0, dir, Function.update tab (ptx va) 0⟩) := by
  have halloc := h.mineAlloc p hp
  have hdecref := pageDecref_last ((h.ref p).trans href) (h.used p halloc hnew)
  have hgiven := ((h.drop href (by decide)).give halloc hnew (Function.update_self _ _ _)).2
  exact Yields.of_eq
    (pageRemove_mapped (h.tableOf hva hdir) h.table_lt (h.pageAt_word hva hdir hp hperm htab) halloc.lt
      rfl hdecref)
    ((hgiven.storeTab (ptx va) 0).tlb va)

/-- A page in the place of another, whose only mapping that was. -/
theorem insert_replace (h : Seen c m₀ mine t ⟨free, stash, ref, dir, tab⟩ m)
    (hva : pdx va ≠ pdx uvpt) (hdir : dir (pdx va) = pdeWord t) (hp : p ∈ mine) {perm' : Nat}
    (hperm : perm' < 4096) (htab : tab (ptx va) = pteWord (page2pa p) perm') (href : ref p = 1)
    (hnew : p ∉ free ++ stash) (hne : p ≠ pp) (href' : ref pp = n) (hlt : n + 1 < 2 ^ 16) :
    Yields (pageInsert c (some local₀) c.kernPgdir pp va perm m) fun r => r.1 = 0 ∧
      Seen c m₀ mine t ⟨p :: free, stash, Function.update (Function.update ref p 0) pp (n + 1), dir,
        Function.update tab (ptx va) (pteWord (page2pa pp) perm)⟩ r.2 := by
  obtain ⟨m', hremove, hremoved⟩ := h.remove_last local₀ hva hdir hp hperm htab href hnew
  have hcount : Function.update ref p 0 pp = n := (Function.update_of_ne hne.symm _ _).trans href'
  have hstored := ((hremoved.incref hcount hlt).tlb va).storeTab (ptx va) (pteWord (page2pa pp) perm)
  dsimp only at hstored
  rw [Function.update_idem] at hstored
  exact Yields.of_eq
    (pageInsert_replace (h.walk hva hdir true) (h.tableOf hva hdir)
      (h.pageAt_word hva hdir hp hperm htab) hne hremove)
    ⟨rfl, hstored⟩

end Tables

end Seen

end Nctuos
