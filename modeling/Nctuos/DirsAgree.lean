import Nctuos.PageOwners

/-!
# `kern_pgdir` and the directories of the tasks

`kern_pgdir` and the directory of a task are filled by different code: `mem_init`,
`mem_init_mp` and `lapic_init` on one side, `setupkvm` and `setupvm` on the other.  While a CPU
changes from one to the other it must find its code, its data and its stack in the same
places.

The two make calls of `boot_map_region` with the same addresses, in the same order, and with
different permissions, so the entries of one lead to the same pages as those of the other
(`kernWords_target`).  There is one exception: without a local APIC `setupkvm` maps
address 0, and `lapic_init` does not.  The calls of `setupvm` change permissions only
(`taskWords_target`).

`directories_agree` says so for every directory of every task that ever lives: neither
`kern_pgdir` nor the directory of a task is changed after it has been made.

The last section is about the kernel stacks.  Both sides map them below `KSTACKTOP`, with guard
pages in between, but no CPU uses them there (`no_kstack_guarded`).
-/

namespace Nctuos

open Lib

/-! ## Words that lead to the same pages -/

/-- The same slots in the same order, with words that lead to the same pages. -/
def SameTargets : List (Slot × Nat) → List (Slot × Nat) → Prop :=
  List.Forall₂ fun w w' => w.1 = w'.1 ∧ targetOf w.2 = targetOf w'.2

theorem SameTargets.overlay {ws ws' : List (Slot × Nat)} (h : SameTargets ws ws')
    {e e' : Slot → Nat} (he : ∀ s, targetOf (e s) = targetOf (e' s)) (s : Slot) :
    targetOf (overlay ws e s) = targetOf (overlay ws' e' s) := by
  induction h generalizing e e' with
  | nil => exact he s
  | @cons w w' ws ws' hw _ ih =>
      refine ih fun s' => ?_
      change targetOf (Function.update e w.1 w.2 s') = targetOf (Function.update e' w'.1 w'.2 s')
      rw [← hw.1]
      by_cases hs : s' = w.1
      · rw [hs, Function.update_self, Function.update_self, hw.2]
      · rw [Function.update_of_ne hs, Function.update_of_ne hs, he s']

/-- Permissions are no part of the address. -/
theorem targetOf_pteWord_perm {pa perm : Nat} (h : perm < 4096) :
    targetOf (pteWord pa perm) = some (pa / 4096 % 1048576) := by
  have hhigh : pteWord pa perm >>> 12 = pa >>> 12 := by
    have hperm : perm >>> 12 = 0 := by
      rw [Nat.shiftRight_eq_div_pow]
      omega
    have hp : pteP >>> 12 = 0 := by decide
    rw [pteWord, Nat.shiftRight_or_distrib, Nat.shiftRight_or_distrib, hperm, hp, Nat.or_zero,
      Nat.or_zero]
  rw [Nat.shiftRight_eq_div_pow, Nat.shiftRight_eq_div_pow] at hhigh
  rw [targetOf, if_pos (present_pteWord _ _), ptePage_eq, show (4096 : Nat) = 2 ^ 12 from rfl, hhigh]

theorem sameTargets_regionWords {perm perm' : Nat} (h : perm < 4096) (h' : perm' < 4096)
    (n va pa : Nat) : SameTargets (regionWords perm n va pa) (regionWords perm' n va pa) := by
  induction n generalizing va pa with
  | zero => exact .nil
  | succ n ih =>
      refine .cons ⟨rfl, ?_⟩ (ih _ _)
      rw [targetOf_pteWord_perm h, targetOf_pteWord_perm h']

/-- Two calls of `boot_map_region` that differ in their permissions. -/
def Region.SameRange (r r' : Region) : Prop :=
  r.va = r'.va ∧ r.size = r'.size ∧ r.pa = r'.pa ∧ r.perm < 4096 ∧ r'.perm < 4096

theorem Region.SameRange.words {r r' : Region} (h : r.SameRange r') :
    SameTargets r.words r'.words := by
  obtain ⟨hva, hsize, hpa, hperm, hperm'⟩ := h
  rw [Region.words, Region.words, hva, hsize, hpa]
  exact sameTargets_regionWords hperm hperm' _ _ _

theorem sameTargets_regions {rs rs' : List Region} (h : List.Forall₂ Region.SameRange rs rs') :
    SameTargets (rs.flatMap Region.words) (rs'.flatMap Region.words) := by
  induction h with
  | nil => exact .nil
  | cons hr _ ih =>
      rw [List.flatMap_cons, List.flatMap_cons]
      exact List.rel_append hr.words ih

/-! ## The two sets of calls -/

section Words

variable {c : Config} {s : Slot}

theorem kvmWords_eq (c : Config) :
    kvmWords c = (kvmBase c).flatMap Region.words ++ (lapicRegion c).words := by
  rw [kvmWords, kvmRegions, List.flatMap_append, List.flatMap_singleton]
  rfl

theorem kvmBase_sameRange (c : Config) : List.Forall₂ Region.SameRange (kernRegions c) (kvmBase c) := by
  have hstacks : List.Forall₂ Region.SameRange (kstackRegions c) (kstackRegions c) := by
    refine List.forall₂_same.mpr fun r hr => ?_
    obtain ⟨i, -, rfl⟩ := List.mem_map.mp hr
    exact ⟨rfl, rfl, rfl, (by decide : pteW < 4096), (by decide : pteW < 4096)⟩
  refine List.rel_append (.cons ?_ (.cons ?_ (.cons ?_ .nil))) hstacks
  · exact ⟨rfl, rfl, rfl, (by decide : pteU ||| pteP < 4096), (by decide : pteU < 4096)⟩
  · exact ⟨rfl, rfl, rfl, (by decide : pteW < 4096), (by decide : pteW < 4096)⟩
  · exact ⟨rfl, rfl, rfl, (by decide : pteW ||| pteP < 4096), (by decide : pteW < 4096)⟩

theorem mem_lapicRegion {w : Slot × Nat} (h : w ∈ (lapicRegion c).words) : w.1 = slotOf c.lapic := by
  have hsize : roundup 4096 pgSize / pgSize = 1 := by decide
  rw [Region.words, lapicRegion, hsize] at h
  rw [List.mem_singleton.mp h]

/-- The entries of `kern_pgdir` lead to the same pages as those `setupkvm` makes; only without
a local APIC there is one entry more. -/
theorem kernWords_target (hlapic : c.lapic = lapicVa c) (hs : c.lapicaddr = 0 → s ≠ slotOf 0) :
    targetOf (overlay (kernWords c) (fun _ => 0) s) =
      targetOf (overlay (kvmWords c) (fun _ => 0) s) := by
  have hbase := sameTargets_regions (kvmBase_sameRange c)
  rw [kernWords, kvmWords_eq]
  by_cases hzero : c.lapicaddr = 0
  · have hnot : ∀ w ∈ (lapicRegion c).words, w.1 ≠ s := by
      intro w hw heq
      rw [mem_lapicRegion hw, hlapic, lapicVa, if_pos hzero] at heq
      exact hs hzero heq.symm
    rw [if_pos hzero, List.append_nil, overlay_append _ (lapicRegion c).words, Function.comp_apply,
      overlay_of_notMem hnot]
    exact hbase.overlay (fun _ => rfl) s
  · rw [if_neg hzero]
    refine SameTargets.overlay (List.rel_append hbase ?_) (fun _ => rfl) s
    exact Region.SameRange.words ⟨rfl, rfl, rfl, (by decide : mmioPerm < 4096),
      (by decide : mmioPerm < 4096)⟩

/-- Below `IOPHYSMEM` nothing is mapped by the calls they share. -/
theorem kernRegions_low {w : Slot × Nat} {va : Nat} (hva : va < iophysmem)
    (h : w ∈ (kernRegions c).flatMap Region.words) : w.1 ≠ slotOf va := by
  obtain ⟨a, hslot, ha⟩ := kernRegions_addr h
  intro heq
  rw [hslot] at heq
  rw [slotOf_eq_iff] at heq
  simp only [iophysmem] at hva
  rcases ha with (hpages | hio | ⟨i, hi, hstack⟩) | hhigh
  · rw [upages_eq, uvpt_eq] at hpages
    omega
  · simp only [iophysmem, extphysmem] at hio
    omega
  · simp only [kstackVa, kstacktop, kernbase, kstksize, kstkgap, pgSize, ncpuMax] at hi hstack
    omega
  · simp only [kernbase] at hhigh
    omega

/-- The calls of `setupvm` change no page. -/
theorem taskWords_target (halign : ∀ s ∈ userSections c, s.start % pgSize = 0) (s : Slot) :
    targetOf (overlay (taskWords c) (fun _ => 0) s) =
      targetOf (overlay (kvmWords c) (fun _ => 0) s) := by
  rw [taskWords, overlay_append, Function.comp_apply]
  by_cases huser : ∃ w ∈ userWords c, w.1 = s
  · obtain ⟨w, hw, rfl, hval⟩ := overlay_mem huser (overlay (kvmWords c) fun _ => 0)
    obtain ⟨r, hr, hword⟩ := List.mem_flatMap.mp hw
    obtain ⟨sec, hsec, rfl⟩ := List.mem_map.mp hr
    obtain ⟨hidx, htarget, -⟩ := (Section.isDirect (halign sec hsec)).word hword
    rw [hval, htarget, direct_kvmWords c _ _ hidx]
  · rw [overlay_of_notMem fun w hw heq => huser ⟨w, hw, heq⟩]

/-- Address `va` is below the kernel stack of CPU `i`, where nothing is to be mapped. -/
def InGuard (i va : Nat) : Prop :=
  kstacktop - (i + 1) * (kstksize + kstkgap) ≤ va ∧
    va < kstacktop - i * (kstksize + kstkgap) - kstksize

theorem kvmWords_guard {i va : Nat} (hi : i < ncpuMax) (hva : InGuard i va) :
    ∀ w ∈ kvmWords c, w.1 ≠ slotOf va := by
  intro w hmem heq
  obtain ⟨r, hr, hw⟩ := List.mem_flatMap.mp hmem
  obtain ⟨a, hslot, ha⟩ := kvmRegions_addr hr hw
  have hguard : va / 4194304 = 959 := by
    simp only [InGuard, kstacktop, kernbase, kstksize, kstkgap, pgSize, ncpuMax] at hi hva
    omega
  rw [hslot] at heq
  rw [slotOf_eq_iff] at heq
  rcases ha with (hpages | hio | ⟨j, hj, hstack⟩) | rfl | ⟨hhigh, -⟩
  · rw [upages_eq, uvpt_eq] at hpages
    omega
  · simp only [iophysmem, extphysmem] at hio
    omega
  · -- the stack of CPU `j` is above its own guard and below that of the CPU before it
    simp only [InGuard, kstackVa, kstacktop, kernbase, kstksize, kstkgap, pgSize, ncpuMax] at *
    omega
  · have hwin := c.lapic_window
    rw [mmiobase_eq, mmiolim_eq] at hwin
    omega
  · simp only [kernbase] at hhigh
    omega

end Words

/-! ## In every state -/

/-- A directory with the words `ws`, read at `va`. -/
theorem pageAt_of_entry {c : Config} {m : Mem} {d va : Nat} {ws : List (Slot × Nat)}
    (h : entryOf c m d (slotOf va) = overlay ws (fun _ => 0) (slotOf va)) :
    pageAt c m d va = targetOf (overlay ws (fun _ => 0) (slotOf va)) := by
  rw [pageAt_eq_targetOf, h]

/-- What `kern_pgdir` maps is under the kernel's entries. -/
theorem kernelIdx_of_kern {c : Config} {va q : Nat} (hlapic : c.lapic = lapicVa c)
    (h : targetOf (overlay (kernWords c) (fun _ => 0) (slotOf va)) = some q) :
    KernelIdx (slotOf va).1.val ∧ (c.lapicaddr = 0 → slotOf va ≠ slotOf 0) := by
  have hmem : ∃ w ∈ kernWords c, w.1 = slotOf va := by
    by_contra hnot
    rw [overlay_of_notMem fun w hw heq => hnot ⟨w, hw, heq⟩, targetOf_zero] at h
    cases h
  obtain ⟨w, hw, hslot⟩ := hmem
  rw [kernWords, List.mem_append] at hw
  rcases hw with hw | hw
  · exact ⟨hslot ▸ kernelOnly_kernRegions c w hw, fun _ => hslot ▸ kernRegions_low (by decide) hw⟩
  · split at hw
    · cases hw
    · rename_i hzero
      refine ⟨?_, fun heq => absurd heq hzero⟩
      rw [← hslot, mem_lapicRegion hw, hlapic, lapicVa, if_neg hzero]
      decide

section Frame

variable {c : Config} {local₀ : Option PtePtr} {b : Boot} {k k₀ k' : Kernel Mem Nat}
  {dirs dirs' : Finset Nat} {l l' : List Nat} {es : List Entry}

/-- No directory that stays is changed. -/
theorem Change.kern_same (h : TaskPages c k dirs l) (hc : Change c k k' dirs l dirs' l') :
    SameDir c k.mem k'.mem c.kernPgdir := by
  cases hc with
  | same mem alive =>
      rw [mem.mem]
      exact .refl c _ _
  | created slot lt alive child other inv new alloc image frame pages => exact frame _ h.kern
  | @killed pid d l' slot alive child other inv frame pages =>
      obtain ⟨d₀, hd₀, -, hkern, -⟩ := h.task pid slot
      obtain rfl : d₀ = d := Option.some.inj (hd₀.symm.trans child)
      exact frame _ (Finset.mem_erase.mpr ⟨hkern.symm, h.kern⟩)

theorem TaskPages.kern_boot {cpus : List Nat} (h : TaskPages c k dirs l)
    (hrun : cpus.foldlM (fun k cpu => taskInitPercpu (memVm c local₀) b k cpu) k = .ok k') :
    SameDir c k.mem k'.mem c.kernPgdir := by
  suffices hloop : (∃ dirs l, TaskPages c k' dirs l) ∧ SameDir c k.mem k'.mem c.kernPgdir from hloop.2
  refine foldlM_ok_induction
    (P := fun _ k' => (∃ dirs l, TaskPages c k' dirs l) ∧ SameDir c k.mem k'.mem c.kernPgdir)
    ⟨⟨dirs, l, h⟩, .refl c _ _⟩ ?_ hrun
  rintro _ k₁ cpu k₂ ⟨⟨dirs₁, l₁, h₁⟩, hsame⟩ hturn
  obtain ⟨dirs', l', hchange⟩ := h₁.starts hturn
  exact ⟨⟨dirs', l', h₁.change hchange⟩, hsame.trans (hchange.kern_same h₁)⟩

/-- `kern_pgdir` is never changed. -/
theorem kern_same_of_run (h : PagesInv c b k₀) (hrun : Run (Step (memVm c local₀) b) k₀ es k) :
    PagesInv c b k ∧ SameDir c k₀.mem k.mem c.kernPgdir := by
  refine hrun.invariant (I := fun k => PagesInv c b k ∧ SameDir c k₀.mem k.mem c.kernPgdir) ?_
    ⟨h, .refl c _ _⟩
  rintro k e k' ⟨hk, hsame⟩ hs
  refine ⟨hk.step hs, hsame.trans ?_⟩
  obtain ⟨hq, dirs, l, hp⟩ := hk
  obtain ⟨dirs', l', hchange | ⟨-, hleak⟩⟩ := hp.step hq hs
  · exact hchange.kern_same hp
  · exact hleak.frame _ hp.kern

end Frame

/-- The directories of a reachable state: `kern_pgdir` as `lapic_init` left it, and those of
the tasks. -/
structure DirsInv (c : Config) (b : Boot) (k : Kernel Mem Nat) : Prop where
  pages : PagesInv c b k
  lapic : c.lapic = lapicVa c
  aligned : ∀ s ∈ userSections c, s.start % pgSize = 0
  kern : entryOf c k.mem c.kernPgdir = overlay (kernWords c) fun _ => 0

/-- The directories a CPU can run on. -/
def IsDir (c : Config) (k : Kernel Mem Nat) (d : Nat) : Prop :=
  d = c.kernPgdir ∨ ∃ pid, Alive k pid ∧ (k.tasks pid).pgdir = some d

section Reach

variable {c : Config} {local₀ : Option PtePtr} {b : Boot} {ram : Nat → Idx → Nat} {m₀ m : Mem}
  {k k₀ : Kernel Mem Nat} {es : List Entry} {d va : Nat}

theorem dirsInv_of_run (hmem : memInit c ram = .ok m₀) (hlapic : lapicInit c m₀ = .ok (c.lapic, m))
    (hboot : bootAll (memVm c local₀) b m = .ok k₀)
    (hrun : Run (Step (memVm c local₀) b) k₀ es k) :
    DirsInv c b k ∧ mapOf c m c.kernPgdir = mapOf c k.mem c.kernPgdir := by
  obtain ⟨l₀, h₀, -⟩ := memInit_inv hmem
  obtain ⟨hva, l, base, h, -⟩ := lapicInit_inv h₀ hlapic
  have hbooted : Booted c local₀ b k₀ := ⟨ram, m₀, m, hmem, hlapic, hboot⟩
  obtain ⟨hpages, hsame⟩ := kern_same_of_run hbooted.pagesInv hrun
  have hkern : entryOf c k.mem c.kernPgdir = entryOf c m c.kernPgdir :=
    (((TaskPages.init h.inv).kern_boot hboot).trans hsame).2
  refine ⟨⟨hpages, hva, hbooted.aligned, hkern.trans h.entry⟩, ?_⟩
  funext v
  rw [mapOf, mapOf, hkern]

namespace DirsInv

/-- Where the kernel has its mappings, all directories read the same. -/
theorem pageAt (h : DirsInv c b k) (hd : IsDir c k d) (hidx : KernelIdx (slotOf va).1.val)
    (hzero : c.lapicaddr = 0 → slotOf va ≠ slotOf 0) :
    Nctuos.pageAt c k.mem d va = targetOf (overlay (kvmWords c) (fun _ => 0) (slotOf va)) := by
  rcases hd with rfl | ⟨pid, hlive, hd⟩
  · rw [pageAt_of_entry (by rw [h.kern]), kernWords_target h.lapic hzero]
  · obtain ⟨-, dirs, l, hp⟩ := h.pages
    obtain ⟨d', hd', -, -, himg⟩ := hp.task pid hlive
    obtain rfl : d' = d := Option.some.inj (hd'.symm.trans hd)
    rw [pageAt_of_entry (himg.entry _ (not_stack_of_kernelIdx hidx)), taskWords_target h.aligned]

theorem direct (h : DirsInv c b k) (hd : IsDir c k d) (hge : kernbase ≤ va) (hlt : va < 2 ^ 32) :
    Nctuos.pageAt c k.mem d va = some (pgnum (va - kernbase)) := by
  have hidx := mem_kernbase hge hlt
  rw [h.pageAt hd (Or.inr hidx) fun _ heq => ?_, direct_kvmWords c (fun _ => 0) (slotOf va) hidx,
    frameOf_slotOf hge hlt]
  have hpdx : pdx va = pdx 0 := congrArg Prod.fst heq
  rw [hpdx] at hidx
  exact absurd hidx (by decide)

theorem guard (h : DirsInv c b k) (hd : IsDir c k d) {i : Nat} (hi : i < ncpuMax)
    (hva : InGuard i va) : Nctuos.pageAt c k.mem d va = none := by
  have hidx : (slotOf va).1.val = 959 := by
    rw [slotOf, pdx_val]
    simp only [InGuard, kstacktop, kernbase, kstksize, kstkgap, pgSize, ncpuMax] at hi hva
    omega
  rw [h.pageAt hd (Or.inl (Or.inr (Or.inr (Or.inr hidx)))) fun _ heq => ?_,
    overlay_of_notMem (kvmWords_guard hi hva), targetOf_zero]
  rw [heq] at hidx
  exact absurd hidx (by decide)

end DirsInv

/-- **Kernel and task directories agree.**  Let `m` be the memory after `lapic_init`, and let
the CPUs come up and the kernel run from there in any way.  In the directory of whatever task
is alive then, every page of `kern_pgdir` outside of `UVPT` is mapped to where `kern_pgdir` maps
it; both are a direct map from `KERNBASE` on; and neither maps a guard page of any CPU. -/
theorem directories_agree {pid : Nat} (hmem : memInit c ram = .ok m₀)
    (hlapic : lapicInit c m₀ = .ok (c.lapic, m)) (hboot : bootAll (memVm c local₀) b m = .ok k₀)
    (hrun : Run (Step (memVm c local₀) b) k₀ es k) (hlive : Alive k pid)
    (hd : (k.tasks pid).pgdir = some d) :
    (∀ va q, va < 2 ^ 32 → ¬ (uvpt ≤ va ∧ va < uvpt + ptSize) →
      pageAt c m c.kernPgdir va = some q → pageAt c k.mem d va = some q) ∧
    (∀ va, kernbase ≤ va → va < 2 ^ 32 →
      pageAt c m c.kernPgdir va = some (pgnum (va - kernbase)) ∧
        pageAt c k.mem d va = some (pgnum (va - kernbase))) ∧
    ∀ i < ncpuMax, ∀ va, InGuard i va →
      pageAt c m c.kernPgdir va = none ∧ pageAt c k.mem d va = none := by
  obtain ⟨h, hmap⟩ := dirsInv_of_run hmem hlapic hboot hrun
  have hkern : IsDir c k c.kernPgdir := Or.inl rfl
  have htask : IsDir c k d := Or.inr ⟨pid, hlive, hd⟩
  have hsame : ∀ va, pageAt c m c.kernPgdir va = pageAt c k.mem c.kernPgdir va := fun va => by
    rw [pageAt, pageAt, hmap]
  simp only [hsame]
  refine ⟨fun va q _ _ hq => ?_, fun va hge hlt => ⟨h.direct hkern hge hlt, h.direct htask hge hlt⟩,
    fun i hi va hva => ⟨h.guard hkern hi hva, h.guard htask hi hva⟩⟩
  have htarget : targetOf (overlay (kernWords c) (fun _ => 0) (slotOf va)) = some q := by
    rw [← hq, pageAt_of_entry (by rw [h.kern])]
  obtain ⟨hidx, hzero⟩ := kernelIdx_of_kern h.lapic htarget
  rw [h.pageAt htask hidx hzero, ← kernWords_target h.lapic hzero, htarget]

/-- One CPU with four megabytes, whose first task has forked: the directory of the child. -/
theorem directories_agree_after_fork :
    ∃ m k₀ e k d, bootAll (memVm .small (some ⟨0, 0⟩)) (.small false) m = .ok k₀ ∧
      Step (memVm .small (some ⟨0, 0⟩)) (.small false) k₀ e k ∧ (k.tasks 1).pgdir = some d ∧
      ∀ va q, va < 2 ^ 32 → ¬ (uvpt ≤ va ∧ va < uvpt + ptSize) →
        pageAt .small m Config.small.kernPgdir va = some q → pageAt .small k.mem d va = some q := by
  obtain ⟨k₀, e, k, hbooted, hstep, -, halive⟩ := exists_fork_small
  obtain ⟨-, dirs, l, h⟩ := pagesInv_of_run hbooted (.cons hstep (.nil k))
  obtain ⟨d, hd, -⟩ := h.task 1 halive
  obtain ⟨ram, m₀, m, hmem, hlapic, hboot⟩ := hbooted
  exact ⟨m, k₀, e, k, d, hboot, hstep, hd,
    (directories_agree hmem hlapic hboot (.cons hstep (.nil k)) halive hd).1⟩

end Reach

/-! ## The stacks the CPUs use -/

/-- `percpu_kstacks[i]`. -/
def percpuKstack (c : Config) (i : Nat) : Nat := c.percpuKstacks + i * kstksize

/-- `cpu_tss.ts_esp0`, as `task_init_percpu` sets it on CPU `i`. -/
def tsEsp0 (c : Config) (i : Nat) : Nat := percpuKstack c i + kstksize

/-- `mpentry_kstack`, as `boot_aps` sets it to start CPU `i`. -/
def mpentryKstack (c : Config) (i : Nat) : Nat := percpuKstack c i + kstksize

/-- The end of the stack of CPU `i` where `mem_init_mp` and `setupkvm` have mapped it. -/
def kstacktopOf (i : Nat) : Nat := kstacktop - i * (kstksize + kstkgap)

/-- In directory `d`, nothing is mapped in the `KSTKGAP` bytes below the stack that ends at
`top`. -/
def Guarded (c : Config) (m : Mem) (d top : Nat) : Prop :=
  ∀ va, top - kstksize - kstkgap ≤ va → va < top - kstksize → pageAt c m d va = none

section Stacks

variable {c : Config} {local₀ : Option PtePtr} {b : Boot} {k₀ k : Kernel Mem Nat} {es : List Entry}
  {i d : Nat}

section Guard

variable (h : DirsInv c b k) (hd : IsDir c k d) (hi : i < ncpuMax)

include h hd hi

/-- Below a stack in the direct map there is a page like any other. -/
theorem DirsInv.below_percpuKstack :
    Nctuos.pageAt c k.mem d (percpuKstack c i - pgSize) =
      some (pgnum (percpuKstack c i - pgSize - kernbase)) := by
  have hge := c.percpuKstacks_ge
  have hle := c.percpuKstacks_le
  have hend := c.kernelEnd_lt
  refine h.direct hd ?_ ?_
  · simp only [percpuKstack, kernbase, extphysmem, pgSize] at *
    omega
  · simp only [percpuKstack, kstksize, ncpuMax, pgSize] at *
    omega

theorem DirsInv.not_guarded : ¬ Guarded c k.mem d (percpuKstack c i + kstksize) := by
  intro hguarded
  have hge := c.percpuKstacks_ge
  have hnone := hguarded (percpuKstack c i - pgSize)
    (by simp only [kstksize, kstkgap, pgSize]; omega)
    (by simp only [percpuKstack, kernbase, extphysmem, kstksize, pgSize] at *; omega)
  rw [h.below_percpuKstack hd hi] at hnone
  cases hnone

theorem DirsInv.guarded_kstacktop : Guarded c k.mem d (kstacktopOf i) := by
  intro va hge hlt
  refine h.guard hd hi ⟨?_, hlt⟩
  simp only [kstacktopOf, kstacktop, kernbase, kstksize, kstkgap, pgSize, ncpuMax] at *
  omega

end Guard

/-- **No CPU has a guard below its stack**, whatever directory it runs on: neither below the one
it takes its traps on, nor below the one it starts on.  The guard is below the mapping that ends
at `KSTACKTOP - i * (KSTKSIZE + KSTKGAP)`, which is not used. -/
theorem no_kstack_guarded (hboot : Booted c local₀ b k₀)
    (hrun : Run (Step (memVm c local₀) b) k₀ es k) (hi : i < b.ncpu) (hd : IsDir c k d) :
    ¬ Guarded c k.mem d (tsEsp0 c i) ∧ ¬ Guarded c k.mem d (mpentryKstack c i) ∧
      Guarded c k.mem d (kstacktopOf i) := by
  obtain ⟨ram, m₀, m, hmem, hlapic, hall⟩ := hboot
  obtain ⟨h, -⟩ := dirsInv_of_run hmem hlapic hall hrun
  have hcpu : i < ncpuMax := hi.trans_le b.ncpu_le
  exact ⟨h.not_guarded hd hcpu, h.not_guarded hd hcpu, h.guarded_kstacktop hd hcpu⟩

end Stacks

/-- The first CPU after boot, on `kern_pgdir`. -/
theorem no_kstack_guarded_after_boot :
    ∃ k₀, Booted .small (some ⟨0, 0⟩) (.small false) k₀ ∧
      ¬ Guarded .small k₀.mem Config.small.kernPgdir (tsEsp0 .small 0) ∧
      ¬ Guarded .small k₀.mem Config.small.kernPgdir (mpentryKstack .small 0) := by
  obtain ⟨k₀, e, k, hboot, -⟩ := exists_fork_small
  obtain ⟨htrap, hstart, -⟩ := no_kstack_guarded hboot (.nil k₀) (show 0 < 1 by decide) (Or.inl rfl)
  exact ⟨k₀, hboot, htrap, hstart⟩

/-- The first CPU after a fork, on `kern_pgdir` and on the directory of the child: the page below
its stack is mapped to the page of memory in front of `percpu_kstacks`. -/
theorem kstack_unguarded :
    ∃ k₀ e k d, Booted .small (some ⟨0, 0⟩) (.small false) k₀ ∧
      Step (memVm .small (some ⟨0, 0⟩)) (.small false) k₀ e k ∧ Alive k 1 ∧
      (k.tasks 1).pgdir = some d ∧
      ¬ Guarded .small k.mem Config.small.kernPgdir (tsEsp0 .small 0) ∧
      ¬ Guarded .small k.mem Config.small.kernPgdir (mpentryKstack .small 0) ∧
      ¬ Guarded .small k.mem d (tsEsp0 .small 0) ∧
      pageAt .small k.mem d (tsEsp0 .small 0 - kstksize - pgSize) =
        some (pgnum (Config.small.percpuKstacks - kernbase) - 1) := by
  obtain ⟨k₀, e, k, hboot, hstep, -, halive⟩ := exists_fork_small
  have hbooted := hboot
  obtain ⟨ram, m₀, m, hmem, hlapic, hall⟩ := hboot
  obtain ⟨h, -⟩ := dirsInv_of_run hmem hlapic hall (.cons hstep (.nil k))
  obtain ⟨-, dirs, l, hp⟩ := h.pages
  obtain ⟨d, hd, -⟩ := hp.task 1 halive
  have htask : IsDir .small k d := Or.inr ⟨1, halive, hd⟩
  have hnot : ∀ d', IsDir .small k d' → ¬ Guarded .small k.mem d' (percpuKstack .small 0 + kstksize) :=
    fun d' hd' => h.not_guarded hd' (by decide)
  refine ⟨k₀, e, k, d, hbooted, hstep, halive, hd, hnot _ (Or.inl rfl), hnot _ (Or.inl rfl),
    hnot d htask, ?_⟩
  exact (h.below_percpuKstack htask (show 0 < ncpuMax by decide)).trans (by decide)

end Nctuos
