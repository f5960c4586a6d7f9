import Nctuos.DirsAgree
import Nctuos.OutOfMemory
import Nctuos.MpConfig

/-!
# The null page

Nothing should be mapped at address 0, so that a NULL pointer faults.  What `setupkvm` maps at the
bottom of the address space begins at `IOPHYSMEM`; but it also maps the local APIC, at the address
in `lapic`, and does not ask whether there is one.  `lapic_init`, `cpunum` and `lapic_eoi` do: when
`mp_init` has found no table, or one that it does not like, `lapicaddr` is 0 and `lapic` stays
NULL.  Then every task has physical page 0 at address 0, and the kernel can write to it.

`null_page_unmapped_iff` says that this is the only way: for whatever bytes `mp_init` reads
(`FindsLapic`), whatever the allocator looks like when a task is created, and also later.
-/

namespace Nctuos

open Lib

/-- No page below `IOPHYSMEM` is present. -/
def NullSafe (c : Config) (m : Mem) (d : Nat) : Prop := ∀ va < iophysmem, pageAt c m d va = none

/-! ## The lowest entries -/

section Low

variable {c : Config} {m : Mem} {d va : Nat}

theorem low_idx (h : va < iophysmem) : (slotOf va).1.val = 0 := by
  rw [slotOf, pdx_val]
  simp only [iophysmem] at h
  omega

/-- With a local APIC the lowest entries are empty, as they are in `kern_pgdir`. -/
theorem kvmWords_low (hlapic : c.lapic = lapicVa c) (hne : c.lapicaddr ≠ 0) (hva : va < iophysmem) :
    targetOf (overlay (kvmWords c) (fun _ => 0) (slotOf va)) = none := by
  have hnot : ∀ w ∈ kernWords c, w.1 ≠ slotOf va := by
    intro w hw heq
    rw [kernWords, if_neg hne, List.mem_append] at hw
    rcases hw with hw | hw
    · exact kernRegions_low hva hw heq
    · have hidx := low_idx hva
      rw [← heq, mem_lapicRegion hw, hlapic, lapicVa, if_neg hne] at hidx
      exact absurd hidx (by decide)
  rw [← kernWords_target hlapic fun hzero => absurd hzero hne, overlay_of_notMem hnot, targetOf_zero]

/-- Without one, page 0 is mapped at address 0. -/
theorem kvmWords_zero (hlapic : c.lapic = lapicVa c) (hzero : c.lapicaddr = 0) :
    targetOf (overlay (kvmWords c) (fun _ => 0) (slotOf 0)) = some 0 := by
  have hsize : roundup 4096 pgSize / pgSize = 1 := by decide
  have hwords : (lapicRegion c).words = [(slotOf 0, pteWord 0 mmioPerm)] := by
    rw [Region.words, lapicRegion, hsize, hlapic, lapicVa, if_pos hzero, hzero]
    rfl
  rw [kvmWords_eq, overlay_append, Function.comp_apply, hwords, overlay, List.foldl_cons,
    List.foldl_nil, Function.update_self]
  exact targetOf_pteWord_perm (by decide)

/-- A directory that reads there as `setupkvm` made it. -/
theorem nullSafe_iff (hlapic : c.lapic = lapicVa c)
    (hat : ∀ va < iophysmem,
      pageAt c m d va = targetOf (overlay (kvmWords c) (fun _ => 0) (slotOf va))) :
    NullSafe c m d ↔ c.lapicaddr ≠ 0 := by
  constructor
  · intro hsafe hzero
    have hnone := hsafe 0 (by decide)
    rw [hat 0 (by decide), kvmWords_zero hlapic hzero] at hnone
    cases hnone
  · intro hne va hva
    rw [hat va hva, kvmWords_low hlapic hne hva]

theorem low_kernelIdx (hva : va < iophysmem) : KernelIdx (slotOf va).1.val :=
  Or.inl (Or.inl (low_idx hva))

/-- The words of the user program are all above. -/
theorem taskWords_low (hva : va < iophysmem) :
    overlay (taskWords c) (fun _ => 0) (slotOf va) = overlay (kvmWords c) (fun _ => 0) (slotOf va) := by
  rw [taskWords, overlay_append, Function.comp_apply, overlay_of_notMem]
  intro w hw heq
  have hidx := userWords_idx hw
  rw [heq, low_idx hva] at hidx
  exact absurd hidx (by decide)

variable {T : Finset Idx} {S : Finset Slot}

theorem Image.nullSafe_kvm (himg : Image c m d (kvmWords c) T S) (hlapic : c.lapic = lapicVa c) :
    NullSafe c m d ↔ c.lapicaddr ≠ 0 :=
  nullSafe_iff hlapic fun _ hva =>
    pageAt_of_entry (himg.entry _ (not_stack_of_kernelIdx (low_kernelIdx hva)))

theorem Image.nullSafe_task (himg : Image c m d (taskWords c) T S) (hlapic : c.lapic = lapicVa c) :
    NullSafe c m d ↔ c.lapicaddr ≠ 0 := by
  refine nullSafe_iff hlapic fun va hva => ?_
  rw [pageAt_of_entry (himg.entry _ (not_stack_of_kernelIdx (low_kernelIdx hva))), taskWords_low hva]

end Low

/-! ## The directories of the tasks -/

/-- **The null page is mapped in no task, or in all of them.**  It is not if `mp_init` finds a
table with the address of a local APIC and no unknown entry; this holds for a directory that
`setupkvm` has just made, for that of a task just created, before and after its program is mapped,
and for every task that is alive in a run of the kernel. -/
theorem null_page_unmapped_iff {c : Config} {ram : Nat → Idx → Nat} {m₀ m : Mem} {ph : Phys}
    {s : MpState} (hmem : memInit c ram = .ok m₀) (hmp : mpInit c ph = .ok s)
    (haddr : c.lapicaddr = s.lapicaddr) (hlapic : lapicInit c m₀ = .ok (c.lapic, m)) :
    (∀ m₁ l d m', FreeList c m₁ l → (∀ p, (m₁.pages p).ppRef < 2 ^ 16) →
      setupkvm c m₁ = .ok (some d, m') → (NullSafe c m' d ↔ FindsLapic c ph)) ∧
    (∀ (k k' : Kernel Mem Nat) l local₀ cpu pid, FreeList c k.mem l →
      (∀ p, (k.mem.pages p).ppRef < 2 ^ 16) →
      taskCreate (memVm c local₀) k cpu = .ok (some pid, k') →
      ∃ d, (k'.tasks pid).pgdir = some d ∧ (NullSafe c k'.mem d ↔ FindsLapic c ph) ∧
        ∀ m', mapUser c d k'.mem = .ok m' → (NullSafe c m' d ↔ FindsLapic c ph)) ∧
    ∀ local₀ b k₀ es k pid d, bootAll (memVm c local₀) b m = .ok k₀ →
      Run (Step (memVm c local₀) b) k₀ es k → Alive k pid → (k.tasks pid).pgdir = some d →
      (NullSafe c k.mem d ↔ FindsLapic c ph) := by
  obtain ⟨l₀, h₀, -⟩ := memInit_inv hmem
  obtain ⟨hva, -⟩ := lapicInit_inv h₀ hlapic
  rw [← mpInit_lapicaddr hmp, ← haddr]
  refine ⟨fun m₁ l d m' hfree href hrun => ?_, fun k k' l local₀ cpu pid hfree href hrun => ?_,
    fun local₀ b k₀ es k pid d hboot hrun hlive hd => ?_⟩
  · obtain ⟨l', -, -, -, himg, -⟩ := (hfree.stackInv href).setupkvm hrun
    exact himg.nullSafe_kvm hva
  · obtain ⟨d, l', hd, hkern, h', himg, -⟩ := hfree.taskCreate href hrun
    refine ⟨d, hd, himg.nullSafe_kvm hva, fun m' hmap => ?_⟩
    obtain ⟨-, himg', -⟩ := h'.mapUser (Finset.mem_singleton_self d) hkern himg
      (Finset.Subset.refl _) (userWords_indices.trans (Finset.subset_insert _ _)) hmap
    exact himg'.nullSafe_task hva
  · obtain ⟨-, dirs, l, hp⟩ := pagesInv_of_run ⟨ram, m₀, m, hmem, hlapic, hboot⟩ hrun
    obtain ⟨d', hd', -, -, himg⟩ := hp.task pid hlive
    obtain rfl : d' = d := Option.some.inj (hd'.symm.trans hd)
    exact himg.nullSafe_task hva

/-! ## Two machines -/

/-- A machine with enough memory comes as far as its first task. -/
theorem exists_first_task {c : Config} (local₀ : Option PtePtr)
    (halign : ∀ s ∈ userSections c, s.start % pgSize = 0) (hlapic : c.lapic = lapicVa c)
    (hroom : 148 ≤ (initList c).length) :
    ∃ m₀ m l k d m', memInit c (fun _ _ => 0) = .ok m₀ ∧ lapicInit c m₀ = .ok (c.lapic, m) ∧
      FreeList c m l ∧ (∀ p, (m.pages p).ppRef < 2 ^ 16) ∧
      taskCreate (memVm c local₀) (.init m) 0 = .ok (some 0, k) ∧
      (k.tasks 0).pgdir = some d ∧ mapUser c d k.mem = .ok m' ∧
      Image c m' d (taskWords c) (taskTables c) stackSlots := by
  have hpages := pagesPerTask_le c
  obtain ⟨m₀, hmem⟩ := memInit_total (fun _ _ => 0) (show 68 ≤ (initList c).length by omega)
  obtain ⟨l₀, h₀, hroom₀⟩ := memInit_inv hmem
  have hleft := hroom₀ 80 (by omega)
  obtain ⟨m, hlapicInit⟩ := lapicInit_total h₀ hlapic hleft
  obtain ⟨-, l, base, h, hroom₁⟩ := lapicInit_inv h₀ hlapicInit
  have hlen := hroom₁ 80 hleft
  unfold Room at hlen
  obtain ⟨k, d, l', hcreate, hd, hinv, -, hkern, himg, -⟩ :=
    (TaskPages.init h.inv).taskCreate_total local₀ (rfl : findFree (Kernel.init m).tasks = some 0)
      (by omega) 0
  have hmem' := Finset.mem_insert_self d {c.kernPgdir}
  obtain ⟨m', hmap⟩ := hinv.mapUser_total hmem' hkern himg halign
  obtain ⟨-, himg', -⟩ := hinv.mapUser hmem' hkern himg (Finset.Subset.refl _)
    (userWords_indices.trans (Finset.subset_insert _ _)) hmap
  exact ⟨m₀, m, l, k, d, m', hmem, hlapicInit, h.inv.inv.free, h.inv.inv.ref_lt, hcreate, hd, hmap,
    himg'⟩

theorem exists_mpInit {c : Config} {ph : Phys} {a : Nat}
    (h : (mpInit c ph).toOption.map MpState.lapicaddr = some a) :
    ∃ s, mpInit c ph = .ok s ∧ a = s.lapicaddr := by
  cases hrun : mpInit c ph with
  | error e =>
      rw [hrun] at h
      cases h
  | ok s =>
      rw [hrun] at h
      exact ⟨s, rfl, (Option.some.inj h).symm⟩

/-- A floating pointer structure and, behind it, a table with one processor, at the start of the
EBDA at `0x9FC00`. -/
def mpTable : List (BitVec 8) :=
  [0x5F, 0x4D, 0x50, 0x5F, 0x10, 0xFC, 0x09, 0x00, 1, 4, 0x8B, 0, 0, 0, 0, 0] ++
  [0x50, 0x43, 0x4D, 0x50, 64, 0, 4, 0x96] ++ List.replicate 26 0 ++
  [1, 0, 0x00, 0x00, 0xE0, 0xFE, 0, 0, 0, 0] ++
  [0x00, 0, 0x14, 0x03] ++ List.replicate 16 0

/-- Memory with that table. -/
def Phys.oneCpu : Phys := fun a =>
  if a = 0x40E then 0xC0 else if a = 0x40F then 0x9F
  else if 0x9FC00 ≤ a then mpTable.getD (a - 0x9FC00) 0 else 0

/-- Memory without a table, on a machine with 640 kilobytes of base memory. -/
def Phys.noTable : Phys := fun a => if a = 0x413 then 0x80 else if a = 0x414 then 0x02 else 0

theorem mpInit_noTable {c : Config} (hnpages : 256 < c.npages) : mpInit c .noTable = .ok .zero := by
  have hfirst : mpFirst .noTable = 0x9FC00 := by decide
  have hbytes : ∀ a, 0x414 < a → Phys.noTable.u8 a ≠ 0x5F := by
    intro a ha
    rw [Phys.u8, Phys.noTable, if_neg (by omega), if_neg (by omega)]
    decide
  have hkaddr : ∀ a, pgnum a ≤ 256 → kaddr c a = .ok (pgnum a) := fun a ha =>
    if_neg (by omega)
  have hsearch : mpsearch c .noTable = .ok none := by
    rw [mpsearch, hkaddr bda (by decide), ok_bind, hfirst,
      mpsearch1_none (hkaddr _ (by decide)) (hkaddr _ (by decide)) fun i => hbytes _ (by omega),
      ok_bind]
    exact mpsearch1_none (hkaddr _ (by decide)) (hkaddr _ (by decide)) fun i => hbytes _ (by omega)
  rw [mpInit, mpconfig, hsearch, ok_bind, ok_bind]

/-- The machine with four megabytes when `mp_init` has found no local APIC. -/
def Config.noLapic : Config := { Config.small with lapic := 0, lapicaddr := 0, lapic_window := .inl rfl }

/-- With the table, the first task is safe. -/
theorem null_page_unmapped_one_cpu :
    ∃ m₀ s m k d m', memInit .small (fun _ _ => 0) = .ok m₀ ∧ mpInit .small .oneCpu = .ok s ∧
      lapicInit .small m₀ = .ok (Config.small.lapic, m) ∧
      taskCreate (memVm .small none) (.init m) 0 = .ok (some 0, k) ∧
      (k.tasks 0).pgdir = some d ∧ mapUser .small d k.mem = .ok m' ∧ NullSafe .small m' d := by
  obtain ⟨m₀, m, l, k, d, m', hmem, hlapic, hfree, href, hcreate, hd, hmap, -⟩ :=
    exists_first_task none aligned_small (by decide) (by rw [length_initList_small]; decide)
  obtain ⟨s, hmp, haddr⟩ := exists_mpInit
    (by decide +kernel : (mpInit .small .oneCpu).toOption.map MpState.lapicaddr = some 0xFEE00000)
  have hfinds : FindsLapic .small .oneCpu := (mpInit_lapicaddr hmp).mp (haddr ▸ by decide)
  obtain ⟨d', hd', -, hsafe⟩ := (null_page_unmapped_iff hmem hmp haddr hlapic).2.1 (.init m) k l none 0
    0 hfree href hcreate
  obtain rfl : d' = d := Option.some.inj (hd'.symm.trans hd)
  exact ⟨m₀, s, m, k, d', m', hmem, hmp, hlapic, hcreate, hd, hmap, (hsafe m' hmap).mpr hfinds⟩

/-- Without it, page 0 is mapped at address 0. -/
theorem null_page_mapped_without_table :
    ∃ m₀ s m k d m', memInit .noLapic (fun _ _ => 0) = .ok m₀ ∧ mpInit .noLapic .noTable = .ok s ∧
      Config.noLapic.lapicaddr = s.lapicaddr ∧
      lapicInit .noLapic m₀ = .ok (Config.noLapic.lapic, m) ∧
      taskCreate (memVm .noLapic none) (.init m) 0 = .ok (some 0, k) ∧
      (k.tasks 0).pgdir = some d ∧ mapUser .noLapic d k.mem = .ok m' ∧
      pageAt .noLapic m' d 0 = some 0 := by
  have hinit : initList .noLapic = initList .small := rfl
  obtain ⟨m₀, m, l, k, d, m', hmem, hlapic, -, -, hcreate, hd, hmap, himg⟩ :=
    exists_first_task (c := .noLapic) none aligned_small (by decide)
      (by rw [hinit, length_initList_small]; decide)
  refine ⟨m₀, .zero, m, k, d, m', hmem, mpInit_noTable (by decide), rfl, hlapic, hcreate, hd, hmap, ?_⟩
  rw [pageAt_of_entry (himg.entry _ (not_stack_of_kernelIdx (low_kernelIdx (by decide)))),
    taskWords_low (by decide), kvmWords_zero (by decide) (by decide)]

end Nctuos
