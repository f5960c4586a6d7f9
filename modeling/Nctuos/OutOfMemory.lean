import Nctuos.PageOwners

/-!
# Running out of pages

What `kernel/mem.c` and `task_create` do when `page_alloc` returns NULL, for every state of the
allocator.

`boot_map_region` does not look at the pointer it gets from `pgdir_walk`.  It needs a page for
each directory entry that its range crosses and that has no page table yet (`tablesNeeded`); with
one page less it writes through NULL, and so do its callers (`maps_iff_enough_tables`).

`task_create` reports failure where it can, in the stack loop, but it does not undo what it has
done.  The pages it took by then are `kvmTables` for the kernel's mapping, the directory, and all
the pages that were left: the loop gives up only on an empty free list
(`create_atomic_iff`).
-/

namespace Nctuos

open Lib

/-! ## The tables a range needs -/

/-- The directory entries that `size` bytes from `va` on cross. -/
def crossed (va size : Nat) : Finset Idx :=
  (Finset.range (size / pgSize)).image fun i => pdx (va + i * pgSize)

/-- Those of them under which directory `d` has no page table. -/
def tablesNeeded (c : Config) (m : Mem) (d va size : Nat) : Finset Idx :=
  missing c m d (crossed va size)

/-- The number of page tables `setupkvm` makes. -/
def kvmTables (c : Config) : Nat := (indices (kvmWords c)).card

theorem indices_regionWords (perm va size pa : Nat) :
    indices (regionWords perm (size / pgSize) va pa) = crossed va size := by
  ext i
  rw [mem_indices, crossed, Finset.mem_image]
  constructor
  · rintro ⟨w, hw, rfl⟩
    obtain ⟨k, hk, hslot, -⟩ := mem_regionWords hw
    exact ⟨k, Finset.mem_range.mpr hk, by rw [hslot, slotOf]⟩
  · rintro ⟨k, hk, rfl⟩
    obtain ⟨w, hw, hslot⟩ := exists_mem_regionWords (Finset.mem_range.mp hk) perm va pa
    exact ⟨w, hw, by rw [hslot, slotOf]⟩

theorem pagesPerTask_eq (c : Config) : pagesPerTask c = kvmTables c + 12 := by
  have htables : (taskTables c).card = kvmTables c + 1 :=
    Finset.card_insert_of_notMem (stackIdx_notMem c)
  have hstack : usrStackSize / pgSize = 10 := by decide
  rw [pagesPerTask, htables, hstack]
  omega

/-- With a local APIC, these are tables for page 0, for `UPAGES`, for the MMIO window, for the
kernel stacks, and for the sixty-four entries from `KERNBASE` on. -/
theorem kvmTables_eq {c : Config} (hlapic : c.lapic ≠ 0) : kvmTables c = 68 := by
  suffices htables : indices (kvmWords c) = kernelTables by
    rw [kvmTables, htables, card_kernelTables]
  -- the first word of a region is enough to bring in its entry
  have hfirst : ∀ va size pa perm, ⟨va, size, pa, perm⟩ ∈ kvmRegions c → 0 < size / pgSize →
      pdx va ∈ indices (kvmWords c) := by
    intro va size pa perm hr hsize
    obtain ⟨w, hw, hslot⟩ := exists_mem_regionWords hsize perm va pa
    refine mem_indices.mpr ⟨w, List.mem_flatMap.mpr ⟨_, hr, hw⟩, ?_⟩
    rw [hslot, slotOf, Nat.zero_mul, Nat.add_zero]
  ext i
  constructor
  · intro hi
    obtain ⟨w, hw, rfl⟩ := mem_indices.mp hi
    exact Finset.mem_filter.mpr ⟨Finset.mem_univ _, kvmWords_idx hw⟩
  · intro hi
    rcases (Finset.mem_filter.mp hi).2 with (hi | hi | hi | hi) | hi
    · obtain rfl : pdx iophysmem = i := Fin.ext (by rw [hi]; decide)
      exact hfirst _ (roundup (extphysmem - iophysmem) pgSize) iophysmem pteW (by simp [kvmRegions])
        (by decide)
    · obtain rfl : pdx upages = i := Fin.ext (by rw [hi]; decide)
      have hpos := c.npages_pos
      have hlt := c.npages_lt
      have hle : sizeofPageInfo * c.npages ≤ roundup (sizeofPageInfo * c.npages) pgSize :=
        le_roundup (by simp only [sizeofPageInfo, pgSize]; omega)
      have hmod := roundup_mod (sizeofPageInfo * c.npages)
      refine hfirst _ (roundup (sizeofPageInfo * c.npages) pgSize) (c.pagesVa - kernbase) pteU
        (by simp [kvmRegions]) ?_
      simp only [sizeofPageInfo, pgSize] at hle hmod ⊢
      omega
    · have hwin := c.lapic_window.resolve_left hlapic
      obtain rfl : pdx c.lapic = i := by
        rw [mmiobase_eq, mmiolim_eq] at hwin
        refine Fin.ext ?_
        rw [hi, pdx_val]
        omega
      exact hfirst _ (roundup 4096 pgSize) c.lapicaddr (pteW ||| ptePcd ||| ptePwt)
        (by simp [kvmRegions]) (by decide)
    · obtain rfl : pdx (kstackVa 0) = i := Fin.ext (by rw [hi]; decide)
      refine hfirst _ kstksize (c.percpuKstacks + 0 * kstksize - kernbase) pteW ?_ (by decide)
      refine List.mem_append_left _ (List.mem_append_right _ (List.mem_map.mpr ⟨0, ?_, rfl⟩))
      decide
    · exact kernbase_indices hi

/-! ## `boot_map_region` -/

section BootMap

variable {c : Config} {dirs : Finset Nat} {m m' : Mem} {l l' new : List Nat} {d perm : Nat}

/-- What was mapped was mapped with pages that were there. -/
theorem Edits.card_missing_le {I : Finset Idx} {f : (Slot → Nat) → Slot → Nat}
    (ht : Trees c dirs m l) (hd : d ∈ dirs) (h : Edits c dirs d I f m l m' l' new) :
    (missing c m d I).card ≤ l.length := by
  have hlen := congrArg List.length h.free
  rw [List.length_append, h.length_new ht hd] at hlen
  omega

/-- In a directory whose tables are in order there is no other way to stop. -/
theorem bootMapLoop_cases {n va pa : Nat} (h : Trees c dirs m l) (hd : d ∈ dirs)
    (hself : ∀ i ∈ indices (regionWords perm n va pa), ¬ SelfMap c d i) :
    (∃ m', bootMapLoop c d perm n va pa m = .ok m') ∨
      bootMapLoop c d perm n va pa m = .error .fault := by
  induction n generalizing va pa m l with
  | zero => exact Or.inl ⟨m, rfl⟩
  | succ n ih =>
      rw [regionWords, indices_cons] at hself
      have hself₀ := hself (pdx va) (Finset.mem_union_left _ (Finset.mem_singleton_self _))
      rw [bootMapLoop]
      rcases pgdirWalk_edits h hd hself₀ with ⟨-, -, hwalk⟩ | ⟨t, m₁, l₁, new₁, hwalk, htable, hedits⟩
      · rw [hwalk, ok_bind]
        exact Or.inr rfl
      · rw [hwalk, ok_bind]
        exact ih (hedits.trees.store (s := slotOf va) hd htable (pteWord pa perm))
          fun i hi => hself i (Finset.mem_union_right _ hi)

theorem bootMapRegion_ne_fault_iff {va size : Nat} (h : Trees c dirs m l) (hd : d ∈ dirs)
    (hself : ∀ i ∈ crossed va size, ¬ SelfMap c d i) (pa perm : Nat) :
    bootMapRegion c d va size pa perm m ≠ .error .fault ↔
      (tablesNeeded c m d va size).card ≤ l.length := by
  rw [← indices_regionWords perm va size pa] at hself
  rw [tablesNeeded, ← indices_regionWords perm va size pa, bootMapRegion,
    ne_error_iff (bootMapLoop_cases h hd hself)]
  constructor
  · rintro ⟨m', hok⟩
    obtain ⟨l', new, hedits⟩ := bootMapLoop_edits h hd hself hok
    exact hedits.card_missing_le h hd
  · exact bootMapLoop_total h hd hself

theorem mapRegions_cases {rs : List Region} (h : Trees c dirs m l) (hd : d ∈ dirs)
    (hself : ∀ i ∈ indices (rs.flatMap Region.words), ¬ SelfMap c d i) :
    (∃ m', mapRegions c d rs m = .ok m') ∨ mapRegions c d rs m = .error .fault := by
  -- each call starts from the directory the calls before it have left
  induction rs generalizing m l with
  | nil => exact Or.inl ⟨m, rfl⟩
  | cons r rs ih =>
      rw [List.flatMap_cons, indices_append] at hself
      have hself₁ := fun i hi => hself i (Finset.mem_union_left _ hi)
      rw [mapRegions, List.foldlM_cons, bootMapRegion]
      rcases bootMapLoop_cases h hd hself₁ with ⟨m₁, hfirst⟩ | hfirst
      · obtain ⟨l₁, new₁, h₁⟩ := bootMapLoop_edits h hd hself₁ hfirst
        rw [hfirst, ok_bind]
        exact ih h₁.trees fun i hi => hself i (Finset.mem_union_right _ hi)
      · rw [hfirst]
        exact Or.inr rfl

theorem mapRegions_ne_fault_iff {rs : List Region} (h : Trees c dirs m l) (hd : d ∈ dirs)
    (hself : ∀ i ∈ indices (rs.flatMap Region.words), ¬ SelfMap c d i) :
    mapRegions c d rs m ≠ .error .fault ↔
      (missing c m d (indices (rs.flatMap Region.words))).card ≤ l.length := by
  rw [ne_error_iff (mapRegions_cases h hd hself)]
  constructor
  · rintro ⟨m', hok⟩
    obtain ⟨l', new, hedits⟩ := mapRegions_edits h hd hself hok
    exact hedits.card_missing_le h hd
  · exact mapRegions_total h hd hself

end BootMap

/-! ## The callers -/

section Callers

variable {c : Config} {dirs : Finset Nat} {m : Mem} {l : List Nat} {d : Nat}

/-- Behind the call of `boot_map_region` nothing else can fault. -/
theorem setupvm_ne_fault_iff {start size : Nat} (h : Trees c dirs m l) (hd : d ∈ dirs)
    (hself : ∀ i ∈ crossed start (roundup size pgSize), ¬ SelfMap c d i) :
    setupvm c d start size m ≠ .error .fault ↔
      start < kernbase ∨ (tablesNeeded c m d start (roundup size pgSize)).card ≤ l.length := by
  rw [setupvm, paddr]
  by_cases hstart : start < kernbase
  · rw [if_pos hstart, error_bind]
    exact ⟨fun _ => Or.inl hstart, fun _ => by simp⟩
  · rw [if_neg hstart, ok_bind, or_iff_right hstart,
      ← bootMapRegion_ne_fault_iff h hd hself (start - kernbase) (pteW ||| pteU), ne_eq, ne_eq,
      not_iff_not, bind_error_iff]
    refine or_iff_left ?_
    rintro ⟨m', -, hcheck⟩
    rw [bind_error_iff] at hcheck
    rcases hcheck with hread | ⟨found, -, htest⟩
    · simp only [checkVa2pa] at hread
      split at hread
      · cases hread
      · rw [bind_error_iff] at hread
        rcases hread with hpage | ⟨p, -, hentry⟩
        · rw [kaddr] at hpage
          split at hpage <;> cases hpage
        · split at hentry <;> cases hentry
    · split at htest <;> cases htest

theorem mmioMapRegion_ne_fault_iff {pa size : Nat} (h : Trees c dirs m l) (hd : c.kernPgdir ∈ dirs)
    (hself : ∀ i ∈ crossed m.mmioNext (roundup size pgSize), ¬ SelfMap c c.kernPgdir i) :
    mmioMapRegion c pa size m ≠ .error .fault ↔
      mmiolim < add32 m.mmioNext size ∨
        (tablesNeeded c m c.kernPgdir m.mmioNext (roundup size pgSize)).card ≤ l.length := by
  rw [mmioMapRegion]
  by_cases hover : add32 m.mmioNext size > mmiolim
  · rw [if_pos hover]
    exact ⟨fun _ => Or.inl hover, fun _ => by simp⟩
  · rw [if_neg hover, or_iff_right hover,
      ← bootMapRegion_ne_fault_iff h hd hself pa (pteW ||| ptePcd ||| ptePwt), ne_eq, ne_eq,
      not_iff_not, bind_error_iff]
    exact or_iff_left (by simp)

end Callers

/-! ## From an allocator state to the invariant -/

/-- A well-formed free list is all the invariant of `TaskImage` asks for, as long as there is no
directory yet.  Whatever `pp_ref` says of the pages in use is somebody else's business. -/
theorem FreeList.stackInv {c : Config} {m : Mem} {l : List Nat} (h : FreeList c m l)
    (href : ∀ p, (m.pages p).ppRef < 2 ^ 16) :
    StackInv c ∅ (fun p => (m.pages p).ppRef) m l := by
  have hpte : ∀ p, pteRefs c stackSlot ∅ m p = ∅ := fun p =>
    Set.eq_empty_iff_forall_notMem.mpr fun x hx => Finset.notMem_empty _ hx.1
  have hpde : ∀ p, pdeRefs c ∅ m p = ∅ := fun p =>
    Set.eq_empty_iff_forall_notMem.mpr fun x hx => Finset.notMem_empty _ hx.1
  refine ⟨⟨h, ⟨h.chain, fun p hp => (h.alloc p hp).lt, nofun, nofun, nofun, nofun, nofun⟩, nofun,
    nofun, nofun, nofun, h.ref, href, fun p _ _ => ?_⟩, fun p => ?_⟩
  · rw [hpte, hpde, Set.ncard_empty, Set.ncard_empty, Nat.zero_add]
  · rw [hpte]
    exact Set.subsingleton_empty

/-! ## `task_create` -/

namespace StackInv

variable {c : Config} {dirs : Finset Nat} {extra : Nat → Nat} {m m' : Mem} {l : List Nat} {d : Nat}
  {ws : List (Slot × Nat)} {T : Finset Idx} {S : Finset Slot} {local₀ : Option PtePtr}

/-- A new directory has no tables, so `setupkvm` needs `kvmTables` pages besides the one for the
directory.  Without even that one it returns NULL. -/
theorem setupkvm_ne_fault_iff (h : StackInv c dirs extra m l) :
    Nctuos.setupkvm c m ≠ .error .fault ↔ l = [] ∨ kvmTables c < l.length := by
  cases l with
  | nil =>
      rw [Nctuos.setupkvm, pageAlloc_none h.inv.free.chain.head_eq, ok_bind]
      exact ⟨fun _ => Or.inl rfl, fun _ => ok_ne_error _ _⟩
  | cons d l =>
      obtain ⟨hadd, -, halloc, hnone, -⟩ := h.newDir
      have hkern := halloc.ne_kernPgdir
      have hall : missing c (m.take true d) d (indices (kvmWords c)) = indices (kvmWords c) :=
        Finset.filter_true_of_mem fun i _ => hnone i
      have hmap : mapRegions c d (kvmRegions c) (m.take true d) ≠ .error .fault ↔
          (missing c (m.take true d) d (indices (kvmWords c))).card ≤ l.length :=
        mapRegions_ne_fault_iff hadd.inv.trees (Finset.mem_insert_self d dirs)
          fun i _ hself => hkern hself.1
      rw [h.setupkvm_eq, ne_eq, bind_error_iff, or_iff_left (by simp), ← ne_eq, hmap, hall,
        ← kvmTables, List.length_cons, Nat.lt_succ_iff]
      exact ⟨Or.inr, fun hroom => hroom.resolve_left (List.cons_ne_nil d l)⟩

/-- The stack loop always returns. -/
theorem exists_setupStack {vas : List Nat} (h : StackInv c dirs extra m l) (hd : d ∈ dirs)
    (hkern : d ≠ c.kernPgdir) (himg : Image c m d ws T S) (hvas : ∀ va ∈ vas, va ∈ stackVas)
    (hnodup : (vas.map slotOf).Nodup) (hnew : ∀ va ∈ vas, slotOf va ∉ S) (local₀ : Option PtePtr) :
    ∃ r m', Nctuos.setupStack (memVm c local₀) d vas m = .ok (r, m') := by
  induction vas generalizing m l T S with
  | nil => exact ⟨true, m, rfl⟩
  | cons va vas ih =>
      rw [List.map_cons, List.nodup_cons] at hnodup
      rw [Nctuos.setupStack]
      change ∃ r m', (Nctuos.stackPage c local₀ d va m >>= _) = _
      cases l with
      | nil =>
          rw [stackPage_starved h.inv.free.chain.head_eq, ok_bind]
          exact ⟨false, m, rfl⟩
      | cons pp l =>
          rcases h.stackPage hd hkern himg (hvas va List.mem_cons_self) (hnew va List.mem_cons_self)
            local₀ with ⟨-, rfl, hok⟩ | ⟨m₁, l₁, hok, h₁, himg₁, -⟩
          · obtain ⟨htake, hsame⟩ := h.take true
            rw [hok, ok_bind, if_pos rfl]
            exact ih htake (himg.congr (hsame d hd))
              (fun va' hva' => hvas va' (List.mem_cons_of_mem va hva')) hnodup.2
              fun va' hva' => hnew va' (List.mem_cons_of_mem va hva')
          · rw [hok, ok_bind, if_pos rfl]
            refine ih h₁ himg₁ (fun va' hva' => hvas va' (List.mem_cons_of_mem va hva')) hnodup.2
              fun va' hva' => ?_
            rw [Finset.mem_insert, not_or]
            exact ⟨fun heq => hnodup.1 (heq ▸ List.mem_map_of_mem hva'),
              hnew va' (List.mem_cons_of_mem va hva')⟩

/-- **The stack loop runs to its end** exactly if there were `pagesPerTask` pages to begin with. -/
theorem exists_create {m₁ : Mem} (h : StackInv c dirs extra m l)
    (hkvm : Nctuos.setupkvm c m = .ok (some d, m₁)) (local₀ : Option PtePtr) :
    ∃ m₂, Nctuos.setupStack (memVm c local₀) d stackVas m₁ =
      .ok (decide (pagesPerTask c ≤ l.length), m₂) := by
  obtain ⟨l₁, h₁, -, halloc, himg₁, -⟩ := h.setupkvm hkvm
  have hkern := halloc.ne_kernPgdir
  obtain ⟨r, m₂, hstack⟩ := h₁.exists_setupStack (Finset.mem_insert_self d dirs) hkern himg₁
    (fun _ hva => hva) stackSlots_nodup (fun _ _ => Finset.notMem_empty _) local₀
  refine ⟨m₂, ?_⟩
  cases r with
  | true =>
      -- what the task has now, and what is free now, was free before
      obtain ⟨l', h₂, -, -, -, -, hdone, -⟩ := h.create hkvm hstack
      obtain ⟨himg₂, hpool, -⟩ := hdone rfl
      have hcount := h₂.ncard_pool_task (Finset.mem_insert_self d dirs) himg₂
      rw [hpool, ncard_list h.inv.free.chain.nodup] at hcount
      rw [hstack, decide_eq_true (show pagesPerTask c ≤ l.length by omega)]
  | false =>
      rw [hstack, decide_eq_false]
      intro hroom
      obtain ⟨d', m₁', m₂', hkvm', hstack'⟩ := h.create_total local₀ hroom
      cases hkvm.symm.trans hkvm'
      exact absurd (hstack.symm.trans hstack') nofun

end StackInv

section Create

variable {c : Config} {dirs : Finset Nat} {extra : Nat → Nat} {k k' : Kernel Mem Nat} {l : List Nat}
  {local₀ : Option PtePtr} {cpu pid : Nat}

/-- Only `setupkvm` makes `task_create` fault. -/
theorem taskCreate_ne_fault_iff (h : StackInv c dirs extra k.mem l) :
    taskCreate (memVm c local₀) k cpu ≠ .error .fault ↔
      findFree k.tasks = none ∨ l = [] ∨ kvmTables c < l.length := by
  cases hfree : findFree k.tasks with
  | none =>
      rw [taskCreate, hfree]
      exact ⟨fun _ => Or.inl rfl, fun _ => ok_ne_error _ _⟩
  | some pid =>
      rw [or_iff_right (Option.some_ne_none pid), ← h.setupkvm_ne_fault_iff]
      simp only [taskCreate, hfree, ne_eq, bind_error_iff]
      refine not_congr (or_iff_left ?_)
      rintro ⟨⟨r, m₁⟩, hkvm, hrest⟩
      cases r with
      | none => cases hrest
      | some d =>
          obtain ⟨m₂, hstack⟩ := h.exists_create hkvm local₀
          simp only [hstack, ok_bind] at hrest
          split at hrest <;> cases hrest

/-- What `task_create` returns when it finds a slot and `setupkvm` gets all its pages.  A failure
leaves no page on the free list. -/
theorem taskCreate_of_kvm (h : StackInv c dirs extra k.mem l) (hfree : findFree k.tasks = some pid)
    (hkvm : kvmTables c < l.length) (local₀ : Option PtePtr) (cpu : Nat) :
    ∃ k', taskCreate (memVm c local₀) k cpu =
        .ok (if pagesPerTask c ≤ l.length then some pid else none, k') ∧
      (¬ pagesPerTask c ≤ l.length → k'.mem.numFreePages = 0) := by
  obtain ⟨d, m₁, hrun⟩ := h.exists_setupkvm hkvm
  obtain ⟨m₂, hstack⟩ := h.exists_create hrun local₀
  have hrun' : (memVm c local₀).setupkvm k.mem = .ok (some d, m₁) := hrun
  obtain ⟨l', h₂, -, -, -, -, -, hgave⟩ := h.create hrun hstack
  simp only [taskCreate, hfree, hrun', ok_bind, hstack]
  by_cases hroom : pagesPerTask c ≤ l.length
  · rw [if_pos hroom, if_pos (decide_eq_true hroom)]
    exact ⟨_, rfl, fun hn => absurd hroom hn⟩
  · rw [if_neg hroom, if_neg (by simpa using hroom)]
    refine ⟨_, rfl, fun _ => ?_⟩
    rw [Kernel.setMem_mem, h₂.inv.free.num, hgave (decide_eq_false hroom), List.length_nil]

/-- What `task_create` has made when it returns a task, from any free list. -/
theorem FreeList.taskCreate (h : FreeList c k.mem l) (href : ∀ p, (k.mem.pages p).ppRef < 2 ^ 16)
    (hrun : taskCreate (memVm c local₀) k cpu = .ok (some pid, k')) :
    ∃ d l', (k'.tasks pid).pgdir = some d ∧ d ≠ c.kernPgdir ∧
      StackInv c {d} (fun p => (k.mem.pages p).ppRef) k'.mem l' ∧
      Image c k'.mem d (kvmWords c) (taskTables c) stackSlots ∧
      pool c k'.mem d l' = {q | q ∈ l} ∧ Blank c k'.mem d stackSlots := by
  rcases taskCreate_sched hrun with ⟨hnone, -⟩ | ⟨pid', hpid, hfree, -⟩
  · cases hnone
  · cases hpid
    obtain ⟨d, m₁, done, hkvm, hstack, hdone, hd, -⟩ := taskCreate_mem hrun hfree
    cases done with
    | false => cases hdone
    | true =>
        obtain ⟨l', h', -, halloc, -, -, hwhole, -⟩ := (h.stackInv href).create hkvm hstack
        obtain ⟨himg, hpool, hblank⟩ := hwhole rfl
        exact ⟨d, l', hd, halloc.ne_kernPgdir, h', himg, hpool,
          hblank⟩

end Create

/-! ## Never a store through NULL -/

/-- **Running out of page tables is a store through NULL.**  `boot_map_region` does not make one,
in whichever directory, exactly if there is a page for every table its range needs; and its
callers do not, exactly if they do not get that far or there are as many pages as the calls
need. -/
theorem maps_iff_enough_tables {c : Config} {dirs : Finset Nat} {k : Kernel Mem Nat} {l : List Nat}
    (hfree : FreeList c k.mem l) (href : ∀ p, (k.mem.pages p).ppRef < 2 ^ 16)
    (h : Trees c dirs k.mem l) :
    (∀ d ∈ dirs, ∀ va size pa perm, (∀ i ∈ crossed va size, ¬ SelfMap c d i) →
      (bootMapRegion c d va size pa perm k.mem ≠ .error .fault ↔
        (tablesNeeded c k.mem d va size).card ≤ l.length)) ∧
    (setupkvm c k.mem ≠ .error .fault ↔ l = [] ∨ kvmTables c < l.length) ∧
    (∀ d ∈ dirs, ∀ start size, (∀ i ∈ crossed start (roundup size pgSize), ¬ SelfMap c d i) →
      (setupvm c d start size k.mem ≠ .error .fault ↔ start < kernbase ∨
        (tablesNeeded c k.mem d start (roundup size pgSize)).card ≤ l.length)) ∧
    (c.kernPgdir ∈ dirs → ∀ pa size,
      (∀ i ∈ crossed k.mem.mmioNext (roundup size pgSize), ¬ SelfMap c c.kernPgdir i) →
      (mmioMapRegion c pa size k.mem ≠ .error .fault ↔ mmiolim < add32 k.mem.mmioNext size ∨
        (tablesNeeded c k.mem c.kernPgdir k.mem.mmioNext (roundup size pgSize)).card ≤
          l.length)) ∧
    ∀ local₀ cpu, taskCreate (memVm c local₀) k cpu ≠ .error .fault ↔
      findFree k.tasks = none ∨ l = [] ∨ kvmTables c < l.length :=
  ⟨fun _ hd _ _ pa perm hself => bootMapRegion_ne_fault_iff h hd hself pa perm,
    (hfree.stackInv href).setupkvm_ne_fault_iff,
    fun _ hd _ _ hself => setupvm_ne_fault_iff h hd hself,
    fun hd _ _ hself => mmioMapRegion_ne_fault_iff h hd hself,
    fun _ _ => taskCreate_ne_fault_iff (hfree.stackInv href)⟩

/-- A memory of zeros, with at most one free page. -/
def Mem.bare (head : Option Nat) : Mem where
  pages _ := ⟨none, 0⟩
  pageFreeList := head
  numFreePages := head.toList.length
  ram _ _ := 0
  mmioNext := mmiobase
  flushed := []

theorem tableOf_bare (c : Config) (head : Option Nat) (d : Nat) (i : Idx) :
    tableOf c (.bare head) d i = none := by
  rw [tableOf]
  split
  · rfl
  · exact if_neg (by simp [Mem.bare, present_zero])

theorem trees_bare (c : Config) (d : Nat) : Trees c {d} (.bare none) [] := by
  have hnone : ∀ d' ∈ ({d} : Finset Nat), ∀ i t, tableOf c (.bare none) d' i ≠ some t := by
    intro d' _ i t
    rw [tableOf_bare]
    exact nofun
  exact ⟨.nil, nofun, fun _ _ => List.not_mem_nil, fun d' hd' i t ht => absurd ht (hnone d' hd' i t),
    fun d' hd' i t ht => absurd ht (hnone d' hd' i t),
    fun d' hd' i t ht => absurd ht (hnone d' hd' i t),
    fun d' hd' _ _ i _ t ht => absurd ht (hnone d' hd' i t)⟩

set_option maxRecDepth 20000 in
/-- With no free page `boot_map_region` stores the first entry through NULL, and with one free
page, which becomes the directory, `task_create` does. -/
theorem null_store_without_pages :
    FreeList .small (.bare none) [] ∧ Trees .small {Config.small.kernPgdir} (.bare none) [] ∧
    bootMapRegion .small Config.small.kernPgdir 0x800000 pgSize 0 pteW (.bare none) =
      .error .fault ∧
    setupvm .small Config.small.kernPgdir 0xF0100000 pgSize (.bare none) = .error .fault ∧
    mmioMapRegion .small 0xFEE00000 pgSize (.bare none) = .error .fault ∧
    FreeList .small (.bare (some 1)) [1] ∧
    setupkvm .small (.bare (some 1)) = .error .fault ∧
    taskCreate (memVm .small none) (.init (.bare (some 1))) 0 = .error .fault := by
  refine ⟨⟨.nil, rfl, nofun, nofun, fun _ _ _ => rfl⟩, trees_bare _ _, rfl, rfl, rfl,
    ⟨.cons .nil, rfl, fun p hp => ?_, fun _ _ => rfl, fun _ _ _ => rfl⟩, rfl, rfl⟩
  rw [List.mem_singleton.mp hp]
  exact Or.inl (by decide)

/-- After `page_init` there are pages enough for a call in `kern_pgdir`, and for a task. -/
theorem maps_iff_enough_tables_small :
    bootMapRegion .small Config.small.kernPgdir 0x800000 pgSize 0 pteW .small ≠ .error .fault ∧
      taskCreate (memVm .small none) (.init .small) 0 ≠ .error .fault := by
  have hlen := length_initList_small
  have hmem : ∀ m : Mem, (Kernel.init m : Kernel Mem Nat).mem = m := fun _ => rfl
  have hfree : FreeList .small .small (initList .small) := freeList_pageInit .small fun _ _ => 0
  have href : ∀ p, (Mem.small.pages p).ppRef < 2 ^ 16 := fun p => by
    rw [Mem.small, (pageInit_initList .small fun _ _ => 0).ref p]
    decide
  have htrees : Trees .small {Config.small.kernPgdir} .small (initList .small) :=
    trees_pageInit .small fun _ _ => 0
  rw [← hmem .small] at hfree href htrees
  obtain ⟨hboot, -, -, -, hcreate⟩ := maps_iff_enough_tables hfree href htrees
  rw [hmem] at hboot
  have hcrossed : crossed 0x800000 pgSize = {2} := by decide
  refine ⟨(hboot _ (Finset.mem_singleton_self _) 0x800000 pgSize 0 pteW ?_).mpr ?_,
    (hcreate none 0).mpr (Or.inr (Or.inr ?_))⟩
  · rw [hcrossed]
    intro i hi hself
    rw [Finset.mem_singleton.mp hi] at hself
    exact absurd hself.2 (by decide)
  · refine (Finset.card_filter_le _ _).trans ?_
    rw [hcrossed, hlen]
    decide
  · rw [kvmTables_eq (by decide), hlen]
    decide

/-! ## Failure of `task_create` -/

/-- The allocator and the task table are as they were. -/
structure Intact (k k' : Kernel Mem Nat) : Prop where
  free : ∀ q, OnFreeList k'.mem q ↔ OnFreeList k.mem q
  num : k'.mem.numFreePages = k.mem.numFreePages
  ref : ∀ p, (k'.mem.pages p).ppRef = (k.mem.pages p).ppRef
  tasks : k'.tasks = k.tasks

section Atomic

variable {c : Config} {k k' : Kernel Mem Nat} {l : List Nat} {local₀ : Option PtePtr} {cpu : Nat}

/-- Between a free slot and `-1` there is the loss of every page. -/
theorem taskCreate_short {pid : Nat} (h : FreeList c k.mem l)
    (href : ∀ p, (k.mem.pages p).ppRef < 2 ^ 16) (hfree : findFree k.tasks = some pid)
    (hkvm : kvmTables c < l.length) (hlt : l.length < pagesPerTask c) (local₀ : Option PtePtr)
    (cpu : Nat) :
    ∃ k', taskCreate (memVm c local₀) k cpu = .ok (none, k') ∧ k'.mem.numFreePages = 0 ∧
      k.mem.numFreePages = l.length := by
  obtain ⟨k', hrun, hempty⟩ := taskCreate_of_kvm (h.stackInv href) hfree hkvm local₀ cpu
  rw [if_neg (Nat.not_le.mpr hlt)] at hrun
  exact ⟨k', hrun, hempty (Nat.not_le.mpr hlt), h.num⟩

/-- There is no other way to `-1` if there is a free slot. -/
theorem short_of_taskCreate {pid : Nat} (h : FreeList c k.mem l)
    (href : ∀ p, (k.mem.pages p).ppRef < 2 ^ 16) (hfree : findFree k.tasks = some pid)
    (hrun : taskCreate (memVm c local₀) k cpu = .ok (none, k')) :
    kvmTables c < l.length ∧ l.length < pagesPerTask c := by
  have hinv := h.stackInv href
  obtain ⟨d, m₁, done, hkvm, hstack, hdone, -⟩ := taskCreate_mem hrun hfree
  have hroom : kvmTables c < l.length := by
    refine (hinv.setupkvm_ne_fault_iff.mp ?_).resolve_left ?_
    · rw [show Nctuos.setupkvm c k.mem = _ from hkvm]
      exact ok_ne_error _ _
    · rintro rfl
      have hnull : Nctuos.setupkvm c k.mem = .ok (none, k.mem) := by
        rw [setupkvm, pageAlloc_none h.chain.head_eq, ok_bind]
      cases hnull.symm.trans hkvm
  refine ⟨hroom, Nat.not_le.mp fun hle => ?_⟩
  obtain ⟨k₁, hrun₁, -⟩ := taskCreate_of_kvm hinv hfree hroom local₀ cpu
  rw [if_pos hle, hrun] at hrun₁
  cases hrun₁

/-- **`task_create` is atomic on failure** unless there is a free slot, and there are pages for
the kernel's mapping but not for the whole stack. -/
theorem create_atomic_iff (h : FreeList c k.mem l) (href : ∀ p, (k.mem.pages p).ppRef < 2 ^ 16)
    (local₀ : Option PtePtr) (cpu : Nat) :
    (∀ k', taskCreate (memVm c local₀) k cpu = .ok (none, k') → Intact k k') ↔
      findFree k.tasks = none ∨ ¬ (kvmTables c < l.length ∧ l.length < pagesPerTask c) := by
  cases hfree : findFree k.tasks with
  | none =>
      refine ⟨fun _ => Or.inl rfl, fun _ k' hrun => ?_⟩
      obtain ⟨-, rfl⟩ := taskCreate_full hrun hfree
      exact ⟨fun _ => Iff.rfl, rfl, fun _ => rfl, rfl⟩
  | some pid =>
      rw [or_iff_right (Option.some_ne_none pid)]
      constructor
      · rintro hatomic ⟨hkvm, hlt⟩
        obtain ⟨k', hrun, hempty, hnum⟩ := taskCreate_short h href hfree hkvm hlt local₀ cpu
        have hsame := (hatomic k' hrun).num
        omega
      · exact fun hroom k' hrun => absurd (short_of_taskCreate h href hfree hrun) hroom

end Atomic

/-- There are allocator states with any number of free pages, up to all of them. -/
theorem exists_freeList {c : Config} {m : Mem} {l : List Nat} {n : Nat} (h : FreeList c m l)
    (href : ∀ p, (m.pages p).ppRef < 2 ^ 16) (hn : n ≤ l.length) :
    ∃ m' l', FreeList c m' l' ∧ l'.length = n ∧ ∀ p, (m'.pages p).ppRef < 2 ^ 16 := by
  induction l generalizing m with
  | nil => exact ⟨m, [], h, (Nat.le_zero.mp hn).symm, href⟩
  | cons p l ih =>
      by_cases hall : n = (p :: l).length
      · exact ⟨m, p :: l, h, hall.symm, href⟩
      · rw [List.length_cons] at hn hall
        refine ih (h.take true) (fun q => ?_) (by omega)
        rw [Mem.take_ref]
        exact href q

theorem exists_freeList_small {n : Nat} (hn : n ≤ 795) :
    ∃ m l, FreeList .small m l ∧ l.length = n ∧ ∀ p, (m.pages p).ppRef < 2 ^ 16 := by
  refine exists_freeList (freeList_pageInit .small fun _ _ => 0) (fun p => ?_)
    (length_initList_small ▸ hn)
  rw [(pageInit_initList .small fun _ _ => 0).ref p]
  decide

/-- With seventy-nine free pages and an empty task table `task_create` returns `-1`, and then
there is no free page left. -/
theorem create_leaks_small :
    ∃ m l k', FreeList .small m l ∧ m.numFreePages = 79 ∧
      taskCreate (memVm .small none) (.init m) 0 = .ok (none, k') ∧ k'.mem.numFreePages = 0 ∧
      ¬ Intact (.init m) k' := by
  obtain ⟨m, l, h, hlen, href⟩ := exists_freeList_small (show 79 ≤ 795 by decide)
  have htables : kvmTables .small = 68 := kvmTables_eq (by decide)
  have hslot : findFree (Kernel.init m : Kernel Mem Nat).tasks = some 0 := rfl
  obtain ⟨k', hrun, hempty, hnum⟩ := taskCreate_short h href hslot (by omega)
    (by rw [pagesPerTask_eq]; omega) none 0
  refine ⟨m, l, k', h, h.num.trans hlen, hrun, hempty, fun hsame => ?_⟩
  have hsame := hsame.num
  omega

/-- A kernel with all slots of its task table in use. -/
def Kernel.crowded (m : Mem) : Kernel Mem Nat :=
  { (Kernel.init m : Kernel Mem Nat) with
    tasks := fun _ => { Task.zero Nat with state := .runnable } }

/-- With the same seventy-nine pages and no free slot it returns `-1` as well, and nothing has
changed. -/
theorem create_atomic_crowded :
    ∃ m l, FreeList .small m l ∧ m.numFreePages = 79 ∧
      taskCreate (memVm .small none) (.crowded m) 0 = .ok (none, .crowded m) ∧
      ∀ k', taskCreate (memVm .small none) (.crowded m) 0 = .ok (none, k') →
        Intact (.crowded m) k' := by
  obtain ⟨m, l, h, hlen, href⟩ := exists_freeList_small (show 79 ≤ 795 by decide)
  have hfull : findFree (Kernel.crowded m).tasks = none := rfl
  refine ⟨m, l, h, h.num.trans hlen, ?_,
    (create_atomic_iff (k := .crowded m) h href none 0).mpr (Or.inl hfull)⟩
  rw [taskCreate, hfull]

end Nctuos
