import Nctuos.Task

/-!
# Physical memory and page tables: `kernel/mem.c`

The state of `kernel/mem.c` and its functions, under their own names.

* A physical page is its number, the index of its `struct PageInfo` in `pages`; a
  `struct PageInfo *` is such a number and NULL is `none`.  `pp_ref` is a `uint16_t` and
  `num_free_pages` a `size_t`, with the wrap-around written out.
* `ram` is the contents of physical memory, a thousand and twenty-four words a page.  A
  page directory or page table is a page of `ram`; the kernel address of a page is again
  its number, since all of physical memory is mapped at `KERNBASE`, and the checks of
  `KADDR`, `PADDR` and `pa2page` are kept.
* A store through NULL is `Stop.fault`.  `boot_map_region` makes one when `pgdir_walk`
  is out of memory.
* `page_remove` has a local `pte` that nobody sets before `page_lookup` reads it.  Its
  value is the argument `pte` of `pageRemove` and `pageInsert`: `none` if the stack
  happened to hold NULL there.

Of the self-tests of `mem_init` there is `check_va2pa`, which `setupvm` calls, and the end of
`check_page`, which moves the base of `mmio_map_region` for good and so decides where the
local APIC is mapped.  The others give back what they take (`SelfTest`): they leave the free
list in another order and the free pages with other contents, neither of which `page_init`
and `Mem.cleared` promise anything about.
-/

namespace Nctuos

open Lib

/-! ## What the boot finds -/

/-- `sizeof (struct PageInfo)`. -/
def sizeofPageInfo : Nat := 8

/-- `boot_alloc(n)`: the address it returns and the new `nextfree`. -/
def bootAlloc (kernelEnd nextfree n : Nat) : Nat × Nat :=
  let nextfree := if nextfree = 0 then roundup kernelEnd pgSize else nextfree
  if n = 0 then (nextfree, nextfree) else (nextfree, add32 nextfree (roundup n pgSize))

/-- The addresses `mem_init` gets for `kern_pgdir` and `pages`, and `boot_alloc(0)`. -/
def bootKernPgdir (kernelEnd : Nat) : Nat := (bootAlloc kernelEnd 0 pgSize).1

def bootPages (kernelEnd npages : Nat) : Nat :=
  (bootAlloc kernelEnd (bootAlloc kernelEnd 0 pgSize).2 (sizeofPageInfo * npages)).1

def bootNext (kernelEnd npages : Nat) : Nat :=
  (bootAlloc kernelEnd
    (bootAlloc kernelEnd (bootAlloc kernelEnd 0 pgSize).2 (sizeofPageInfo * npages)).2 0).1

/-- The two linker symbols around one section of the user program. -/
structure Section where
  start : Nat
  stop : Nat
  start_ge : kernbase ≤ start
  le : start ≤ stop
  lt : stop < 2 ^ 32

/-- The size `task_init` computes from the symbols. -/
def Section.size (s : Section) : Nat := s.stop - s.start

/-- What is known once the memory and the CPUs have been detected: the memory sizes of
`i386_detect_memory`, the symbols of the linker, and the local APIC. -/
structure Config where
  npages : Nat
  npagesBasemem : Nat
  /-- The symbol `end`. -/
  kernelEnd : Nat
  /-- The address of `percpu_kstacks`. -/
  percpuKstacks : Nat
  /-- `lapic`, NULL if there is no local APIC, and its physical address. -/
  lapic : Nat
  lapicaddr : Nat
  utext : Section
  udata : Section
  ubss : Section
  urodata : Section
  /-- The page of the AP entry code is in base memory, which ends below the I/O hole. -/
  basemem_gt : pgnum mpentryPaddr < npagesBasemem
  basemem_le : npagesBasemem ≤ iophysmem / pgSize
  /-- The CMOS reports at most `2 ^ 16 - 1` kilobytes of extended memory. -/
  npages_le : npages ≤ extphysmem / pgSize + (2 ^ 16 - 1) * 1024 / pgSize
  /-- The kernel is loaded at `EXTPHYSMEM`, in memory that is there, and there is room
  for what `mem_init` allocates behind it. -/
  kernelEnd_ge : kernbase + extphysmem ≤ kernelEnd
  kernelEnd_le : kernelEnd ≤ kernbase + npages * pgSize
  next_le : bootNext kernelEnd npages ≤ kernbase + npages * pgSize
  percpuKstacks_ge : kernbase + extphysmem ≤ percpuKstacks
  percpuKstacks_le : percpuKstacks + ncpuMax * kstksize ≤ kernelEnd
  /-- It is declared `aligned(PGSIZE)`. -/
  percpuKstacks_aligned : percpuKstacks % pgSize = 0
  /-- `lapic` comes from `mmio_map_region`, or was never set. -/
  lapic_window : lapic = 0 ∨ mmiobase ≤ lapic ∧ lapic < mmiolim

namespace Config

/-- The page of `kern_pgdir`. -/
def kernPgdir (c : Config) : Nat := pgnum (bootKernPgdir c.kernelEnd - kernbase)

/-- `pages`. -/
def pagesVa (c : Config) : Nat := bootPages c.kernelEnd c.npages

/-- `PADDR(boot_alloc(0)) / PGSIZE`, the first page behind the kernel's own. -/
def first (c : Config) : Nat := (bootNext c.kernelEnd c.npages - kernbase) / pgSize

end Config

/-! ## The state -/

structure PageInfo where
  ppLink : Option Nat
  /-- A `uint16_t`. -/
  ppRef : Nat
  deriving DecidableEq

/-- A `pte_t *`: an entry of a page. -/
structure PtePtr where
  page : Nat
  idx : Idx
  deriving DecidableEq

structure Mem where
  pages : Nat → PageInfo
  pageFreeList : Option Nat
  numFreePages : Nat
  ram : Nat → Idx → Nat
  /-- The static `base` of `mmio_map_region`. -/
  mmioNext : Nat
  /-- The addresses given to `invlpg`, the latest first. -/
  flushed : List Nat

namespace Mem

/-- Rewrite the `struct PageInfo` of one page. -/
def modPage (m : Mem) (pp : Nat) (f : PageInfo → PageInfo) : Mem :=
  { m with pages := Function.update m.pages pp (f (m.pages pp)) }

def load (m : Mem) (a : PtePtr) : Nat := m.ram a.page a.idx

def store (m : Mem) (a : PtePtr) (w : Nat) : Mem :=
  { m with ram := Function.update m.ram a.page (Function.update (m.ram a.page) a.idx w) }

/-- `memset(page, 0, PGSIZE)`. -/
def zeroPage (m : Mem) (pp : Nat) : Mem :=
  { m with ram := Function.update m.ram pp fun _ => 0 }

/-- `memcpy(dst, src, PGSIZE)`. -/
def copyPage (m : Mem) (dst src : Nat) : Mem :=
  { m with ram := Function.update m.ram dst (m.ram src) }

/-- `tlb_invalidate`. -/
def tlbInvalidate (m : Mem) (va : Nat) : Mem := { m with flushed := va :: m.flushed }

end Mem

/-! ## Addresses -/

/-- `KADDR(pa)`, as the page it is in. -/
def kaddr (c : Config) (pa : Nat) : Except Stop Nat :=
  if c.npages ≤ pgnum pa then .error (.panic "KADDR called with invalid pa %08lx")
  else .ok (pgnum pa)

def paddr (kva : Nat) : Except Stop Nat :=
  if kva < kernbase then .error (.panic "PADDR called with invalid kva %08lx")
  else .ok (kva - kernbase)

def pa2page (c : Config) (pa : Nat) : Except Stop Nat :=
  if c.npages ≤ pgnum pa then .error (.panic "pa2page called with invalid pa")
  else .ok (pgnum pa)

def page2kva (c : Config) (pp : Nat) : Except Stop Nat := kaddr c (page2pa pp)

/-! ## The page allocator -/

/-- One turn of the loops of `page_init` that free a page. -/
def freeInit (m : Mem) (i : Nat) : Mem :=
  { m with
    pages := Function.update m.pages i ⟨m.pageFreeList, 0⟩
    pageFreeList := some i
    numFreePages := add32 m.numFreePages 1 }

/-- One turn of the loops of `page_init` that keep a page in use. -/
def keepInit (m : Mem) (i : Nat) : Mem := m.modPage i fun info => { info with ppLink := none }

/-- `page_init` with the bounds of its loops, `npages_basemem`, the page of `boot_alloc(0)` and
`npages`, as arguments. -/
def pageInitFrom (npagesBasemem first npages : Nat) (m : Mem) : Mem :=
  let mp := pgnum mpentryPaddr
  let ext := extphysmem / pgSize
  let m := keepInit m 0
  let m := (List.range' 1 (mp - 1)).foldl freeInit m
  let m := keepInit m mp
  let m := (List.range' (mp + 1) (npagesBasemem - (mp + 1))).foldl freeInit m
  let m := (List.range' npagesBasemem (ext - npagesBasemem)).foldl keepInit m
  let m := (List.range' ext (first - ext)).foldl keepInit m
  (List.range' first (npages - first)).foldl freeInit m

def pageInit (c : Config) (m : Mem) : Mem := pageInitFrom c.npagesBasemem c.first c.npages m

/-- `page_alloc`; `zero` is whether `ALLOC_ZERO` is among the flags. -/
def pageAlloc (c : Config) (zero : Bool) (m : Mem) : Except Stop (Option Nat × Mem) :=
  match m.pageFreeList with
  | none => .ok (none, m)
  | some pp => do
      let m := { m with pageFreeList := (m.pages pp).ppLink }
      let m := m.modPage pp fun info => { info with ppLink := none }
      let m ← if zero then do
          let kva ← page2kva c pp
          .ok (m.zeroPage kva)
        else .ok m
      .ok (some pp, { m with numFreePages := add32 m.numFreePages (2 ^ 32 - 1) })

def pageFree (pp : Nat) (m : Mem) : Except Stop Mem :=
  if (m.pages pp).ppRef ≠ 0 then .error (.panic "page_free: pp_ref is nonzero")
  else if (m.pages pp).ppLink ≠ none then .error (.panic "page_free: pp_link is not NULL")
  else
    let m := m.modPage pp fun info => { info with ppLink := m.pageFreeList }
    .ok { m with pageFreeList := some pp, numFreePages := add32 m.numFreePages 1 }

/-- `pp->pp_ref++`. -/
def incref (pp : Nat) (m : Mem) : Mem :=
  m.modPage pp fun info => { info with ppRef := (info.ppRef + 1) % 2 ^ 16 }

def pageDecref (pp : Nat) (m : Mem) : Except Stop Mem :=
  let m := m.modPage pp fun info => { info with ppRef := (info.ppRef + (2 ^ 16 - 1)) % 2 ^ 16 }
  if (m.pages pp).ppRef = 0 then pageFree pp m else .ok m

/-! ## Page tables -/

def pgdirWalk (c : Config) (pgdir va : Nat) (create : Bool) (m : Mem) :
    Except Stop (Option PtePtr × Mem) :=
  let pde : PtePtr := ⟨pgdir, pdx va⟩
  if present (m.load pde) then do
    let pt ← kaddr c (pteAddr (m.load pde))
    .ok (some ⟨pt, ptx va⟩, m)
  else if ¬ create then .ok (none, m)
  else do
    let r ← pageAlloc c true m
    match r.1 with
    | none => .ok (none, r.2)
    | some pp =>
        let m := incref pp r.2
        let m := m.store pde (page2pa pp ||| pteP ||| pteU ||| pteW)
        let pt ← page2kva c pp
        .ok (some ⟨pt, ptx va⟩, m)

/-- The loop of `boot_map_region`, `n` turns of it. -/
def bootMapLoop (c : Config) (pgdir perm : Nat) : Nat → Nat → Nat → Mem → Except Stop Mem
  | 0, _, _, m => .ok m
  | n + 1, va, pa, m => do
      let r ← pgdirWalk c pgdir va true m
      match r.1 with
      | none => .error .fault
      | some pte =>
          bootMapLoop c pgdir perm n (add32 va pgSize) (add32 pa pgSize)
            (r.2.store pte (pteWord pa perm))

/-- `boot_map_region`: `while (size >= PGSIZE)` takes `size / PGSIZE` turns. -/
def bootMapRegion (c : Config) (pgdir va size pa perm : Nat) (m : Mem) : Except Stop Mem :=
  bootMapLoop c pgdir perm (size / pgSize) va pa m

/-- `page_lookup`: the page, and what `*pte_store` holds afterwards.  `pteStore` is what
it held before, `none` for NULL. -/
def pageLookup (c : Config) (pgdir va : Nat) (pteStore : Option PtePtr) (m : Mem) :
    Except Stop (Option Nat × Option PtePtr) := do
  let r ← pgdirWalk c pgdir va false m
  match r.1 with
  | none => .ok (none, pteStore)
  | some pte =>
      if ¬ present (m.load pte) then .ok (none, pteStore)
      else do
        let pp ← pa2page c (pteAddr (m.load pte))
        .ok (some pp, if pteStore.isSome then some pte else pteStore)

/-- `page_remove`, with the value its local `pte` starts with. -/
def pageRemove (c : Config) (pte : Option PtePtr) (pgdir va : Nat) (m : Mem) :
    Except Stop Mem := do
  let r ← pageLookup c pgdir va pte m
  match r.1 with
  | none => .ok m
  | some pp =>
      let m ← pageDecref pp m
      match r.2 with
      | none => .error .fault
      | some pte => .ok ((m.store pte 0).tlbInvalidate va)

/-- `E_NO_MEM`. -/
def eNoMem : Int := 4

/-- `page_insert`, with the value the local `pte` of its `page_remove` starts with. -/
def pageInsert (c : Config) (local₀ : Option PtePtr) (pgdir pp va perm : Nat) (m : Mem) :
    Except Stop (Int × Mem) := do
  let r ← pgdirWalk c pgdir va true m
  match r.1 with
  | none => .ok (-eNoMem, r.2)
  | some pte =>
      let m := r.2
      if present (m.load pte) ∧ pteAddr (m.load pte) = page2pa pp then
        .ok (0, m.store pte (pteWord (page2pa pp) perm))
      else do
        let m ← if present (m.load pte) then pageRemove c local₀ pgdir va m else .ok m
        let m := (incref pp m).tlbInvalidate va
        .ok (0, m.store pte (pteWord (page2pa pp) perm))

/-- `check_va2pa`; the result of an unmapped address is `~0`. -/
def checkVa2pa (c : Config) (pgdir va : Nat) (m : Mem) : Except Stop Nat :=
  if ¬ present (m.ram pgdir (pdx va)) then .ok (2 ^ 32 - 1)
  else do
    let p ← kaddr c (pteAddr (m.ram pgdir (pdx va)))
    if ¬ present (m.ram p (ptx va)) then .ok (2 ^ 32 - 1)
    else .ok (pteAddr (m.ram p (ptx va)))

/-- One turn of `ptable_remove`. -/
def ptableRemoveAt (c : Config) (pgdir : Nat) (m : Mem) (i : Idx) : Except Stop Mem :=
  if present (m.ram pgdir i) then do
    let pp ← pa2page c (pteAddr (m.ram pgdir i))
    pageDecref pp m
  else .ok m

def ptableRemove (c : Config) (pgdir : Nat) (m : Mem) : Except Stop Mem :=
  (List.finRange 1024).foldlM (ptableRemoveAt c pgdir) m

def pgdirRemove (c : Config) (pgdir : Nat) (m : Mem) : Except Stop Mem := do
  let pp ← pa2page c (page2pa pgdir)
  pageFree pp m

/-! ## The kernel's mappings -/

/-- The C expression `(2^32)-KERNBASE`, where `^` is exclusive or. -/
def kernSize : Nat := ((2 ^^^ 32) + 2 ^ 32 - kernbase) % 2 ^ 32

/-- `KSTACKTOP - i * (KSTKSIZE + KSTKGAP) - KSTKSIZE`. -/
def kstackVa (i : Nat) : Nat := kstacktop - i * (kstksize + kstkgap) - kstksize

/-- The arguments of a call of `boot_map_region`. -/
structure Region where
  va : Nat
  size : Nat
  pa : Nat
  perm : Nat

def mapRegions (c : Config) (pgdir : Nat) (rs : List Region) (m : Mem) : Except Stop Mem :=
  rs.foldlM (fun m r => bootMapRegion c pgdir r.va r.size r.pa r.perm m) m

/-- The per-CPU kernel stacks, mapped alike by `mem_init_mp` and `setupkvm`. -/
def kstackRegions (c : Config) : List Region :=
  (List.range ncpuMax).map fun i =>
    ⟨kstackVa i, kstksize, c.percpuKstacks + i * kstksize - kernbase, pteW⟩

/-- The calls `setupkvm` makes, in their order.  `PADDR` is applied to kernel addresses
only. -/
def kvmRegions (c : Config) : List Region :=
  [⟨upages, roundup (sizeofPageInfo * c.npages) pgSize, c.pagesVa - kernbase, pteU⟩,
    ⟨kernbase, kernSize, 0, pteW⟩,
    ⟨iophysmem, roundup (extphysmem - iophysmem) pgSize, iophysmem, pteW⟩] ++
  kstackRegions c ++
  [⟨c.lapic, roundup 4096 pgSize, c.lapicaddr, pteW ||| ptePcd ||| ptePwt⟩]

/-- `setupkvm`; `none` is its NULL. -/
def setupkvm (c : Config) (m : Mem) : Except Stop (Option Nat × Mem) := do
  let r ← pageAlloc c true m
  match r.1 with
  | none => .ok (none, r.2)
  | some pp =>
      let pgdir ← page2kva c pp
      let m ← mapRegions c pgdir (kvmRegions c) r.2
      .ok (some pgdir, m)

def setupvm (c : Config) (pgdir start size : Nat) (m : Mem) : Except Stop Mem := do
  let pa ← paddr start
  let m ← bootMapRegion c pgdir start (roundup size pgSize) pa (pteW ||| pteU) m
  let found ← checkVa2pa c pgdir start m
  if found = pa then .ok m
  else .error (.panic "assertion failed: check_va2pa(pgdir, start) == PADDR((void*)start)")

/-! ## Boot -/

/-- The memory when `mem_init` calls `page_init`: `pages` cleared, an empty directory
mapped in itself at `UVPT`, and anything in the rest of memory. -/
def Mem.cleared (c : Config) (ram : Nat → Idx → Nat) : Mem where
  pages _ := ⟨none, 0⟩
  pageFreeList := none
  numFreePages := 0
  ram := Function.update ram c.kernPgdir (Function.update (fun _ => 0) (pdx uvpt)
    (page2pa c.kernPgdir ||| pteU ||| pteP))
  mmioNext := mmiobase
  flushed := []

/-- The calls `mem_init` and `mem_init_mp` make on `kern_pgdir`. -/
def kernRegions (c : Config) : List Region :=
  [⟨upages, roundup (sizeofPageInfo * c.npages) pgSize, c.pagesVa - kernbase, pteU ||| pteP⟩,
    ⟨kernbase, kernSize, 0, pteW⟩,
    ⟨iophysmem, roundup (extphysmem - iophysmem) pgSize, iophysmem, pteW ||| pteP⟩] ++
  kstackRegions c

def mmioMapRegion (c : Config) (pa size : Nat) (m : Mem) : Except Stop (Nat × Mem) :=
  if add32 m.mmioNext size > mmiolim then
    .error (.panic "mmio_map_region(): reservation overflow MMIOLIM")
  else do
    let base := m.mmioNext
    let m ← bootMapRegion c c.kernPgdir base (roundup size pgSize) pa
      (pteW ||| ptePcd ||| ptePwt) m
    .ok (base, { m with mmioNext := add32 base (roundup size pgSize) })

/-- `assert(p)`. -/
def assert (p : Prop) [Decidable p] (text : String) : Except Stop Unit :=
  if p then .ok () else .error (.panic ("assertion failed: " ++ text))

/-- `*pgdir_walk(pgdir, va, 0)`, as the place it is. -/
def pteOf (c : Config) (pgdir va : Nat) (m : Mem) : Except Stop PtePtr := do
  let r ← pgdirWalk c pgdir va false m
  match r.1 with
  | none => .error .fault
  | some pte => .ok pte

/-- `*pgdir_walk(pgdir, va, 0) = 0`. -/
def clearPte (c : Config) (pgdir va : Nat) (m : Mem) : Except Stop Mem := do
  let pte ← pteOf c pgdir va m
  .ok (m.store pte 0)

/-- What `check_page` asserts of the two regions it has got from `mmio_map_region`. -/
def checkMmio (c : Config) (mm1 mm2 : Nat) (m : Mem) : Except Stop Unit := do
  assert (mmiobase ≤ mm1 ∧ add32 mm1 8192 < mmiolim) "mm1 >= MMIOBASE && mm1 + 8192 < MMIOLIM"
  assert (mmiobase ≤ mm2 ∧ add32 mm2 4096 < mmiolim) "mm2 >= MMIOBASE && mm2 + 4096 < MMIOLIM"
  assert (mm1 % pgSize = 0 ∧ mm2 % pgSize = 0) "mm1 % PGSIZE == 0 && mm2 % PGSIZE == 0"
  assert (add32 mm1 8192 ≤ mm2) "mm1 + 8192 <= mm2"
  let pa ← checkVa2pa c c.kernPgdir mm1 m
  assert (pa = 0) "check_va2pa(kern_pgdir, mm1) == 0"
  let pa ← checkVa2pa c c.kernPgdir (add32 mm1 pgSize) m
  assert (pa = pgSize) "check_va2pa(kern_pgdir, mm1+PGSIZE) == PGSIZE"
  let pa ← checkVa2pa c c.kernPgdir mm2 m
  assert (pa = 0) "check_va2pa(kern_pgdir, mm2) == 0"
  let pa ← checkVa2pa c c.kernPgdir (add32 mm2 pgSize) m
  assert (pa = 2 ^ 32 - 1) "check_va2pa(kern_pgdir, mm2+PGSIZE) == ~0"
  let pte ← pteOf c c.kernPgdir mm1 m
  assert (m.load pte &&& (pteW ||| ptePwt ||| ptePcd) ≠ 0)
    "*pgdir_walk(kern_pgdir, (void*) mm1, 0) & (PTE_W|PTE_PWT|PTE_PCD)"
  assert (m.load pte &&& pteU = 0) "!(*pgdir_walk(kern_pgdir, (void*) mm1, 0) & PTE_U)"

/-- The end of `check_page`: two regions are mapped, looked at and unmapped again.  The
addresses are not given back. -/
def checkPageMmio (c : Config) (m : Mem) : Except Stop Mem := do
  let r₁ ← mmioMapRegion c 0 4097 m
  let r₂ ← mmioMapRegion c 0 4096 r₁.2
  checkMmio c r₁.1 r₂.1 r₂.2
  let m ← clearPte c c.kernPgdir r₁.1 r₂.2
  let m ← clearPte c c.kernPgdir (add32 r₁.1 pgSize) m
  clearPte c c.kernPgdir r₂.1 m

/-- `mem_init`, from `page_init` on. -/
def memInit (c : Config) (ram : Nat → Idx → Nat) : Except Stop Mem := do
  let m ← checkPageMmio c (pageInit c (Mem.cleared c ram))
  mapRegions c c.kernPgdir (kernRegions c) m

/-- What `lapic_init` does to the memory, and the `lapic` it sets, on the boot CPU. -/
def lapicInit (c : Config) (m : Mem) : Except Stop (Nat × Mem) :=
  if c.lapicaddr = 0 then .ok (0, m) else mmioMapRegion c c.lapicaddr 4096 m

/-! ## The operations behind `kernel/task.c` -/

/-- One turn of the stack loop of `task_create`.  `page_insert` does not return `-1`. -/
def stackPage (c : Config) (local₀ : Option PtePtr) (pgdir va : Nat) (m : Mem) :
    Except Stop (Bool × Mem) := do
  let r ← pageAlloc c true m
  match r.1 with
  | none => .ok (false, r.2)
  | some pp =>
      let s ← pageInsert c local₀ pgdir pp va (pteW ||| pteU) r.2
      .ok (s.1 ≠ -1, s.2)

/-- One turn of the stack copy of `sys_fork`. -/
def copyStackPage (c : Config) (parent child va : Nat) (m : Mem) : Except Stop Mem := do
  let r ← pgdirWalk c parent va false m
  let s ← pgdirWalk c child va false m
  match r.1, s.1 with
  | some pteParent, some pteChild =>
      let dst ← kaddr c (pteAddr (m.load pteChild))
      let src ← kaddr c (pteAddr (m.load pteParent))
      .ok (m.copyPage dst src)
  | _, _ => .error .fault

/-- The sections of the user program, in the order they are mapped. -/
def userSections (c : Config) : List Section := [c.utext, c.udata, c.ubss, c.urodata]

def mapUser (c : Config) (pgdir : Nat) (m : Mem) : Except Stop Mem :=
  (userSections c).foldlM (fun m s => setupvm c pgdir s.start s.size m) m

/-- Whether the processor finds a page at `va`.  The kernel reads with the rights of the
supervisor, so nothing else in the two entries matters. -/
def mapped (pgdir : Nat) (va : BitVec 32) (m : Mem) : Bool :=
  let pde := m.ram pgdir (pdx va.toNat)
  present pde && present (m.ram (ptePage pde) (ptx va.toNat))

/-- `kernel/mem.c` as `kernel/task.c` sees it.  `local₀` is what the local of
`page_remove` starts with. -/
def memVm (c : Config) (local₀ : Option PtePtr) : Vm Mem Nat where
  setupkvm := setupkvm c
  stackPage := stackPage c local₀
  copyPage := copyStackPage c
  mapUser := mapUser c
  pageRemove := pageRemove c local₀
  ptableRemove := ptableRemove c
  pgdirRemove := pgdirRemove c
  sysGetNumFreePage m := BitVec.ofNat 32 m.numFreePages
  sysGetNumUsedPage m := BitVec.ofNat 32 c.npages - BitVec.ofNat 32 m.numFreePages
  mapped := mapped

end Nctuos
