import Nctuos.TaskPages
import Nctuos.KernPgdir

/-!
# From `mem_init` to the first tasks

Once `mem_init` and `lapic_init` are done with `kern_pgdir`, each CPU gets its first task, and
the invariant of `TaskPages` holds from there on (`Booted.taskPages`).

The second half is about enough memory.  Nothing that `task_create`, `task_init_percpu` and
`sys_fork` do can fail but for want of a page, and `pagesPerTask` pages are enough for a task
(`StackInv.create_total`, `TaskPages.sysFork_total`).  For `kern_pgdir` a page for each of
`kernelTables` is enough (`Room`).
-/

namespace Nctuos

open Lib

/-! ## All CPUs up -/

/-- The kernel when every CPU has run `task_init_percpu`, from `mem_init` on. -/
def Booted (c : Config) (local₀ : Option PtePtr) (b : Boot) (k₀ : Kernel Mem Nat) : Prop :=
  ∃ ram m₀ m, memInit c ram = .ok m₀ ∧ lapicInit c m₀ = .ok (c.lapic, m) ∧
    bootAll (memVm c local₀) b m = .ok k₀

section Boot

variable {c : Config} {local₀ : Option PtePtr} {b : Boot} {k k' : Kernel Mem Nat}
  {dirs : Finset Nat} {l : List Nat}

theorem TaskPages.boot {cpus : List Nat} (h : TaskPages c k dirs l)
    (hrun : cpus.foldlM (fun k cpu => taskInitPercpu (memVm c local₀) b k cpu) k = .ok k') :
    ∃ dirs' l', TaskPages c k' dirs' l' := by
  refine foldlM_ok_induction (P := fun _ k => ∃ dirs l, TaskPages c k dirs l) ⟨dirs, l, h⟩ ?_ hrun
  rintro _ k cpu k' ⟨dirs, l, h⟩ hfirst
  obtain ⟨dirs', l', hchange⟩ := h.starts hfirst
  exact ⟨dirs', l', h.change hchange⟩

theorem Booted.taskPages (h : Booted c local₀ b k) :
    ∃ dirs l, TaskPages c k dirs l := by
  obtain ⟨ram, m₀, m, hmem, hlapic, hboot⟩ := h
  obtain ⟨l₀, h₀, -⟩ := memInit_inv hmem
  obtain ⟨-, l, base, h, -⟩ := lapicInit_inv h₀ hlapic
  exact (TaskPages.init h.inv).boot hboot

/-- A boot with sections that do not start on page boundaries stops in `setupvm`. -/
theorem Booted.aligned (h : Booted c local₀ b k) : ∀ s ∈ userSections c, s.start % pgSize = 0 := by
  obtain ⟨ram, m₀, m, -, -, hboot⟩ := h
  rw [bootAll] at hboot
  cases horder : b.order with
  | nil =>
      have hmem := b.mem_order.mpr b.bootcpu_lt
      rw [horder] at hmem
      cases hmem
  | cons cpu cpus =>
      rw [horder, List.foldlM_cons, bind_ok_iff] at hboot
      obtain ⟨k₁, hfirst, -⟩ := hboot
      obtain ⟨pid, d, m₁, m₂, -, -, -, hmap, -⟩ := taskInitPercpu_mem hfirst
      exact mapUser_aligned hmap

theorem Booted.queueInv (h : Booted c local₀ b k) : QueueInv b k := by
  obtain ⟨ram, m₀, m, -, -, hboot⟩ := h
  exact boot_queueInv hboot

end Boot

/-! ## Enough memory for a task -/

theorem stackIdx_notMem (c : Config) : stackIdx ∉ indices (kvmWords c) := by
  intro hmem
  obtain ⟨w, hw, hidx⟩ := mem_indices.mp hmem
  have hkernel := kvmWords_idx hw
  rw [hidx] at hkernel
  revert hkernel
  decide

namespace StackInv

variable {c : Config} {dirs : Finset Nat} {extra : Nat → Nat} {m : Mem} {l : List Nat} {d : Nat}
  {ws : List (Slot × Nat)} {T : Finset Idx} {S : Finset Slot} {local₀ : Option PtePtr}

/-- The stack loop gets to its end if there is a page for each turn, and one for the table. -/
theorem setupStack_total {vas : List Nat} (h : StackInv c dirs extra m l) (hd : d ∈ dirs)
    (hkern : d ≠ c.kernPgdir) (himg : Image c m d ws T S) (hS : S ⊆ stackSlots)
    (hvas : ∀ va ∈ vas, va ∈ stackVas) (hnodup : (vas.map slotOf).Nodup)
    (hnew : ∀ va ∈ vas, slotOf va ∉ S) (local₀ : Option PtePtr)
    (hroom : vas.length + (insert stackIdx T).card ≤ l.length + T.card) :
    ∃ m', Nctuos.setupStack (memVm c local₀) d vas m = .ok (true, m') := by
  induction vas generalizing m l T S with
  | nil => exact ⟨m, rfl⟩
  | cons va vas ih =>
      have hva := hvas va List.mem_cons_self
      have hs := slotOf_mem hva
      rw [List.map_cons, List.nodup_cons] at hnodup
      rw [List.length_cons] at hroom
      have hT := Finset.card_le_card (Finset.subset_insert stackIdx T)
      cases l with
      | nil =>
          rw [List.length_nil] at hroom
          omega
      | cons pp l =>
          rw [List.length_cons] at hroom
          rcases h.stackPage hd hkern himg hva (hnew va List.mem_cons_self) local₀ with
            ⟨hnone, rfl, -⟩ | ⟨m₁, l₁, hok, h₁, himg₁, -, hpool, -⟩
          · have hnot : stackIdx ∉ T := fun hmem => (himg.table stackIdx).mpr hmem hnone
            rw [Finset.card_insert_of_notMem hnot, List.length_nil] at hroom
            omega
          · have hS₁ : insert (slotOf va) S ⊆ stackSlots := Finset.insert_subset hs hS
            have hcount := h₁.ncard_pool hd himg₁ hS₁
            rw [hpool, h.ncard_pool hd himg hS, List.length_cons,
              Finset.card_insert_of_notMem (hnew va List.mem_cons_self)] at hcount
            obtain ⟨m', hrest⟩ := ih h₁ himg₁ hS₁
              (fun va' hva' => hvas va' (List.mem_cons_of_mem va hva')) hnodup.2
              (fun va' hva' => by
                rw [Finset.mem_insert, not_or]
                refine ⟨fun heq => hnodup.1 (heq ▸ List.mem_map_of_mem hva'), ?_⟩
                exact hnew va' (List.mem_cons_of_mem va hva'))
              (by rw [Finset.insert_idem]; omega)
            refine ⟨m', ?_⟩
            have hpage : (memVm c local₀).stackPage d va m = .ok (true, m₁) := hok
            rw [Nctuos.setupStack, hpage, ok_bind, if_pos rfl]
            exact hrest

/-- `setupkvm` gets to its end with a page for the directory and one for each of its tables. -/
theorem exists_setupkvm (h : StackInv c dirs extra m l)
    (hroom : (indices (kvmWords c)).card < l.length) :
    ∃ d m₁, Nctuos.setupkvm c m = .ok (some d, m₁) := by
  cases l with
  | nil => exact absurd hroom (Nat.not_lt_zero _)
  | cons d l =>
      obtain ⟨hadd, -, halloc, -⟩ := h.newDir
      have hkern := halloc.ne_kernPgdir
      obtain ⟨m₁, hmap⟩ := Nctuos.mapRegions_total hadd.inv.trees (Finset.mem_insert_self d dirs)
        (fun i _ hself => hkern hself.1)
        ((Finset.card_filter_le _ _).trans (Nat.lt_succ_iff.mp hroom))
      exact ⟨d, m₁, by rw [h.setupkvm_eq, hmap, ok_bind]⟩

/-- `pagesPerTask` pages are enough for `task_create`. -/
theorem create_total (h : StackInv c dirs extra m l) (local₀ : Option PtePtr)
    (hroom : pagesPerTask c ≤ l.length) :
    ∃ d m₁ m₂, Nctuos.setupkvm c m = .ok (some d, m₁) ∧
      Nctuos.setupStack (memVm c local₀) d stackVas m₁ = .ok (true, m₂) := by
  have htables : (taskTables c).card = (indices (kvmWords c)).card + 1 :=
    Finset.card_insert_of_notMem (stackIdx_notMem c)
  have hstack : usrStackSize / pgSize = 10 := by decide
  rw [pagesPerTask, htables, hstack] at hroom
  obtain ⟨d, m₁, hkvm⟩ := h.exists_setupkvm (by omega)
  obtain ⟨l₁, h₁, -, halloc, himg₁, -, hpool₁, -⟩ := h.setupkvm hkvm
  have hkern := halloc.ne_kernPgdir
  have hd := Finset.mem_insert_self d dirs
  have hcount := h₁.ncard_pool hd himg₁ (Finset.empty_subset _)
  rw [hpool₁, ncard_list h.inv.free.chain.nodup, Finset.card_empty] at hcount
  have hlen : stackVas.length = 10 := by decide
  obtain ⟨m₂, hstacked⟩ := h₁.setupStack_total hd hkern himg₁ (Finset.empty_subset _)
    (fun _ hva => hva) stackSlots_nodup (fun _ _ => Finset.notMem_empty _) local₀ (by
      rw [Finset.card_insert_of_notMem (stackIdx_notMem c), hlen]
      omega)
  exact ⟨d, m₁, m₂, hkvm, hstacked⟩

/-- The user program can be mapped over the kernel, if its sections start on page boundaries. -/
theorem mapUser_total (h : StackInv c dirs extra m l) (hd : d ∈ dirs) (hkern : d ≠ c.kernPgdir)
    (himg : Image c m d (kvmWords c) (taskTables c) S)
    (halign : ∀ s ∈ userSections c, s.start % pgSize = 0) :
    ∃ m', Nctuos.mapUser c d m = .ok m' := by
  refine Nctuos.mapUser_total ⟨h.inv.trees, fun i hi => ?_, fun s hs => ?_⟩ hd hkern halign
  · exact (himg.table i).mpr (Finset.mem_insert_of_mem (kernbase_indices hi))
  · rw [himg.entry s (not_stack_of_kernelIdx (Or.inr hs))]
    exact direct_kvmWords c _ s hs

end StackInv

namespace TaskPages

variable {c : Config} {local₀ : Option PtePtr} {b : Boot} {k k' : Kernel Mem Nat}
  {dirs : Finset Nat} {l : List Nat} {pid p : Nat}

theorem taskCreate_total (h : TaskPages c k dirs l) (local₀ : Option PtePtr)
    (hfree : findFree k.tasks = some pid) (hroom : pagesPerTask c ≤ l.length) (cpu : Nat) :
    ∃ k' d l', taskCreate (memVm c local₀) k cpu = .ok (some pid, k') ∧
      (k'.tasks pid).pgdir = some d ∧ TaskInv c (insert d dirs) k'.mem l' ∧
      d ∉ dirs ∧ d ≠ c.kernPgdir ∧ Image c k'.mem d (kvmWords c) (taskTables c) stackSlots ∧
      (∀ d' ∈ dirs, SameDir c k.mem k'.mem d') ∧
      ∀ q, q ≠ pid → (k'.tasks q).pgdir = (k.tasks q).pgdir := by
  obtain ⟨d, m₁, m₂, hkvm, hstack⟩ := h.inv.create_total local₀ hroom
  have hkvm' : (memVm c local₀).setupkvm k.mem = .ok (some d, m₁) := hkvm
  obtain ⟨k', hcreate⟩ : ∃ k', taskCreate (memVm c local₀) k cpu = .ok (some pid, k') := by
    simp only [taskCreate, hfree, hkvm', ok_bind, hstack, if_pos]
    exact ⟨_, rfl⟩
  obtain ⟨d', m₁', done, hkvm'', hstack', -, hd, hother⟩ := taskCreate_mem hcreate hfree
  cases hkvm'.symm.trans hkvm''
  cases hstack.symm.trans hstack'
  obtain ⟨l', hinv, hnew, halloc, hsame, -, hdone, -⟩ := h.inv.create hkvm hstack'
  exact ⟨k', d, l', hcreate, hd, hinv, hnew,
    halloc.ne_kernPgdir, (hdone rfl).1, hsame, hother⟩

/-- `pagesPerTask` pages are enough to bring up a CPU. -/
theorem taskInitPercpu_total (h : TaskPages c k dirs l) (local₀ : Option PtePtr)
    (halign : ∀ s ∈ userSections c, s.start % pgSize = 0) (hfree : findFree k.tasks = some pid)
    (hroom : pagesPerTask c ≤ l.length) (b : Boot) (cpu : Nat) :
    ∃ k' dirs' l', taskInitPercpu (memVm c local₀) b k cpu = .ok k' ∧ TaskPages c k' dirs' l' ∧
      l'.length + pagesPerTask c = l.length := by
  obtain ⟨k₁, d, l₁, hcreate, hd, hinv, -, hkern, himg, -⟩ :=
    h.taskCreate_total local₀ hfree hroom cpu
  obtain ⟨m₂, hmap⟩ := hinv.mapUser_total (Finset.mem_insert_self d dirs) hkern himg halign
  have hmap' : (memVm c local₀).mapUser d k₁.mem = .ok m₂ := hmap
  obtain ⟨k', hrun⟩ : ∃ k', taskInitPercpu (memVm c local₀) b k cpu = .ok k' := by
    simp only [taskInitPercpu, hcreate, ok_bind, Kernel.modCpu_tasks, hd, Kernel.modCpu_mem, hmap']
    exact ⟨_, rfl⟩
  obtain ⟨dirs', l', hchange⟩ := h.starts hrun
  refine ⟨k', dirs', l', hrun, h.change hchange, ?_⟩
  have hcount := hchange.count h
  rw [inUse_create (taskInitPercpu_alive hrun hfree) (fun hpid => hpid (findFree_some hfree).2)
    (findFree_some hfree).1, Nat.mul_succ] at hcount
  omega

/-- The loop over the CPUs still to come. -/
theorem boot_total {done cpus : List Nat} (h : TaskPages c k dirs l) (hb : BootInv done k)
    (local₀ : Option PtePtr) (halign : ∀ s ∈ userSections c, s.start % pgSize = 0)
    (hnodup : (done ++ cpus).Nodup) (hlen : (done ++ cpus).length ≤ nrTasks)
    (hroom : pagesPerTask c * cpus.length ≤ l.length) :
    ∃ k' dirs' l', cpus.foldlM (fun k cpu => taskInitPercpu (memVm c local₀) b k cpu) k = .ok k' ∧
      TaskPages c k' dirs' l' ∧ l'.length + pagesPerTask c * cpus.length = l.length := by
  induction cpus generalizing k dirs l done with
  | nil => exact ⟨k, dirs, l, rfl, h, rfl⟩
  | cons cpu cpus ih =>
      have hlt : done.length < nrTasks := by
        rw [List.length_append, List.length_cons] at hlen
        omega
      rw [List.length_cons, Nat.mul_succ] at hroom
      obtain ⟨k₁, dirs₁, l₁, hfirst, h₁, hlen₁⟩ := h.taskInitPercpu_total local₀ halign
        (hb.findFree_eq hlt) (by omega) b cpu
      have hnew : cpu ∉ done := by
        intro hmem
        exact (List.nodup_append.mp hnodup).2.2 cpu hmem cpu List.mem_cons_self rfl
      have hb₁ := hb.next hnew hlt hfirst
      rw [List.append_cons] at hnodup hlen
      obtain ⟨k', dirs', l', hrest, h', hlen'⟩ := ih h₁ hb₁ hnodup hlen (by omega)
      refine ⟨k', dirs', l', ?_, h', ?_⟩
      · rw [List.foldlM_cons, hfirst, ok_bind]
        exact hrest
      · rw [List.length_cons, Nat.mul_succ]
        omega

/-- **`pagesPerTask` pages are enough for a fork**, if there is a free slot. -/
theorem sysFork_total (h : TaskPages c k dirs l) (local₀ : Option PtePtr)
    (halign : ∀ s ∈ userSections c, s.start % pgSize = 0) {cpu : Nat}
    (hp : (k.cpus cpu).cpuTask = some p) (hlive : Alive k p) (hfree : findFree k.tasks = some pid)
    (hroom : pagesPerTask c ≤ l.length) :
    ∃ k', sysFork (memVm c local₀) b k cpu = .ok (some pid, k') := by
  obtain ⟨k₁, d, l₁, hcreate, hd, hinv, hnew, hkern, himg, hsame, hother⟩ :=
    h.taskCreate_total local₀ hfree hroom cpu
  obtain ⟨parent, hparent, hmem, -, himgp⟩ := h.task p hlive
  have hne : p ≠ pid := fun heq => hlive (heq ▸ (findFree_some hfree).2)
  obtain ⟨m₂, hcopy, h₂, hsame₂, -⟩ := hinv.copyStack (Finset.mem_insert_of_mem hmem)
    (Finset.mem_insert_self d dirs) (fun heq => hnew (heq ▸ hmem))
    (himgp.congr (hsame parent hmem)) himg (fun _ hva => hva) stackSlots_nodup
  obtain ⟨m₃, hmap⟩ := h₂.mapUser_total (Finset.mem_insert_self d dirs) hkern
    (himg.congr (hsame₂ d (Finset.mem_insert_self d dirs))) halign
  have hcur : (k₁.cpus cpu).cpuTask = some p := by
    rcases taskCreate_sched hcreate with ⟨hnone, -⟩ | ⟨_, -, -, hs⟩
    · cases hnone
    · rw [← hs.cpus]
      exact hp
  have hcopy' : stackVas.foldlM (fun m va => (memVm c local₀).copyPage parent d va m) k₁.mem =
      .ok m₂ := hcopy
  have hmap' : (memVm c local₀).mapUser d m₂ = .ok m₃ := hmap
  have hparent₁ : ∀ tf, ((k₁.modTask pid fun t => { t with tf := tf }).tasks p).pgdir =
      some parent := fun tf => by
    rw [Kernel.modTask_other _ _ hne, hother p hne, hparent]
  simp only [sysFork, hcreate, ok_bind, copyCurrent, hcur, copyParent, hparent₁,
    Kernel.modTask_same, hd, Kernel.modTask_mem, hcopy', hmap']
  exact ⟨_, rfl⟩

/-- The system call itself, on CPU `cpu` with task `p` running. -/
theorem exists_fork (h : TaskPages c k dirs l) (local₀ : Option PtePtr)
    (halign : ∀ s ∈ userSections c, s.start % pgSize = 0) {cpu : Nat} (hcpu : cpu < b.ncpu)
    (hp : (k.cpus cpu).cpuTask = some p) (hlive : Alive k p) (hfree : findFree k.tasks = some pid)
    (hroom : pagesPerTask c ≤ l.length) :
    ∃ e k', Step (memVm c local₀) b k e k' ∧ e.cpu = cpu ∧ callOf e.tf = .fork ∧
      e.resumed.tf.regEax ≠ -1 ∧ Alive k' pid := by
  have hsched := saveFrame_sched k p (syscallFrame 4 0)
  have hsave := saveFrame_mem k p (syscallFrame 4 0)
  obtain ⟨k₁, hfork⟩ := (h.change (.same hsave hsched.alive)).sysFork_total (b := b) local₀ halign
    (show ((k.modTask p fun t => { t with tf := syscallFrame 4 0 }).cpus cpu).cpuTask = some p
      from hp) ((hsched.alive p).mpr hlive) (hsched.findFree_congr.symm.trans hfree) hroom
  have hlt := (findFree_some hfree).1
  obtain ⟨k', hk'⟩ : ∃ k', k' = k₁.modTask p fun t =>
      { t with tf := { t.tf with regEax := BitVec.ofNat 32 pid } } := ⟨_, rfl⟩
  have hcall : callOf (syscallFrame 4 0) = .fork := by decide
  refine ⟨⟨cpu, syscallFrame 4 0, 0, resume k' p⟩, k', ⟨hcpu, ?_⟩, rfl, hcall, ?_, ?_⟩
  · have hno : Syscall.ofNo (syscallFrame 4 0).regEax = some .fork := by decide
    have htrap : (syscallFrame 4 0).tfTrapno.toNat = tSyscall := by decide
    simp only [trapDispatch, hp, htrap, if_pos, syscallHandler, Kernel.modTask_same, doSyscall,
      Kernel.modTask_cpus, hno, hfork, ok_bind, hk']
  · rw [hk', resume, Kernel.modTask_same]
    exact (ofNat_pid hlt).1
  · have hdone : SameSched k₁ k' :=
      hk' ▸ SameSched.modTask k₁ p _ (fun _ => rfl) (fun _ => rfl) fun _ => rfl
    rw [hdone.alive, sysFork_alive hfork]
    exact Or.inr rfl

section Kill

variable (h : TaskPages c k dirs l) (hq : QueueInv b k) {local₀ : Option PtePtr}
  (hlocal : local₀.isSome) {cpu : Nat} (hcpu : cpu < b.ncpu) (hp : (k.cpus cpu).cpuTask = some p)

include h hq hlocal hcpu hp

/-- The current task can kill itself. -/
theorem sysKill_total :
    ∃ r k', sysKill (memVm c local₀) k cpu p = .ok (r, k') := by
  unfold sysKill
  split
  · obtain ⟨m', hfree⟩ := h.exists_taskFree (hq.current_live hcpu hp).2 hlocal
    have hcur : ((reap k cpu p m').cpus cpu).cpuTask = some p := by
      simpa [reap] using hp
    simp only [hfree, ok_bind, hcur]
    split
    · exact ⟨_, _, rfl⟩
    · exact ⟨_, _, rfl⟩
  · exact ⟨_, _, rfl⟩

theorem exists_kill :
    ∃ e k', Step (memVm c local₀) b k e k' ∧ e.cpu = cpu ∧ callOf e.tf = .kill := by
  have hsched := saveFrame_sched k p (syscallFrame 5 0)
  have hsave := saveFrame_mem k p (syscallFrame 5 0)
  have hp' : ((k.modTask p fun t => { t with tf := syscallFrame 5 0 }).cpus cpu).cpuTask = some p := hp
  obtain ⟨r, k₁, hkill⟩ := (h.change (.same hsave hsched.alive)).sysKill_total (hq.congr hsched)
    hlocal hcpu hp'
  have hno : Syscall.ofNo (syscallFrame 5 0).regEax = some .kill := by decide
  have htrap : (syscallFrame 5 0).tfTrapno.toNat = tSyscall := by decide
  have hok : ∃ resumed k', trapDispatch (memVm c local₀) b k cpu (syscallFrame 5 0) 0 =
      .ok (resumed, k') := by
    simp only [trapDispatch, hp, htrap, if_pos, syscallHandler, Kernel.modTask_same, doSyscall, hp',
      hno, hq.current_taskId hcpu hp, hkill, ok_bind]
    cases r with
    | none => exact ⟨_, _, rfl⟩
    | some q => exact ⟨_, _, rfl⟩
  obtain ⟨resumed, k', hok⟩ := hok
  have hcall : callOf (syscallFrame 5 0) = .kill := by decide
  exact ⟨⟨cpu, syscallFrame 5 0, 0, resumed⟩, k', ⟨hcpu, hok⟩, rfl, hcall⟩

end Kill

end TaskPages

/-- The current task can go to sleep for a tick, whatever the memory. -/
theorem exists_sleep {M D : Type} (vm : Vm M D) {b : Boot} {k : Kernel M D} {cpu p : Nat}
    (hcpu : cpu < b.ncpu) (hp : (k.cpus cpu).cpuTask = some p) :
    ∃ e k', Step vm b k e k' ∧ e.cpu = cpu ∧ callOf e.tf = .sleep 1 := by
  have hno : Syscall.ofNo (syscallFrame 6 1).regEax = some .sleep := by decide
  have htrap : (syscallFrame 6 1).tfTrapno.toNat = tSyscall := by decide
  have hok : ∃ resumed k', trapDispatch vm b k cpu (syscallFrame 6 1) 0 = .ok (resumed, k') := by
    simp only [trapDispatch, hp, htrap, if_pos, syscallHandler, Kernel.modTask_same, doSyscall,
      Kernel.modTask_cpus, hno, ok_bind]
    split
    · exact ⟨_, _, rfl⟩
    · exact ⟨_, _, rfl⟩
  obtain ⟨resumed, k', hok⟩ := hok
  have hcall : callOf (syscallFrame 6 1) = .sleep 1 := by decide
  exact ⟨⟨cpu, syscallFrame 6 1, 0, resumed⟩, k', ⟨hcpu, hok⟩, rfl, hcall⟩

/-- A machine with enough memory boots, and has `n` pages left. -/
theorem exists_booted {c : Config} {b : Boot} {n : Nat} (local₀ : Option PtePtr)
    (halign : ∀ s ∈ userSections c, s.start % pgSize = 0)
    (hlapic : c.lapic = lapicVa c)
    (hroom : 68 + (pagesPerTask c * b.order.length + n) ≤ (initList c).length) :
    ∃ k dirs l, Booted c local₀ b k ∧ TaskPages c k dirs l ∧ BootInv b.order k ∧ n ≤ l.length := by
  obtain ⟨m₀, hmem⟩ := memInit_total (fun _ _ => 0) (show 68 ≤ (initList c).length by omega)
  obtain ⟨l₀, h₀, hroom₀⟩ := memInit_inv hmem
  obtain ⟨m, hlapicInit⟩ := lapicInit_total h₀ hlapic (hroom₀ _ hroom)
  obtain ⟨-, l₁, base, h₁, hroom₁⟩ := lapicInit_inv h₀ hlapicInit
  have hlen := hroom₁ _ (hroom₀ _ hroom)
  unfold Room at hlen
  have hnodup : ([] ++ b.order).Nodup := b.nodup_order
  obtain ⟨k, dirs, l, hboot, hpages, hleft⟩ := (TaskPages.init h₁.inv).boot_total (b := b)
    (BootInv.init m) local₀ halign hnodup b.length_order_le (by omega)
  exact ⟨k, dirs, l, ⟨_, m₀, m, hmem, hlapicInit, hboot⟩, hpages, bootInv_of_bootAll hboot, by omega⟩

/-- A task has at most eighty pages. -/
theorem pagesPerTask_le (c : Config) : pagesPerTask c ≤ 80 := by
  have hsub : taskTables c ⊆ insert stackIdx kernelTables := by
    refine Finset.insert_subset_insert _ fun i hi => ?_
    obtain ⟨w, hw, rfl⟩ := mem_indices.mp hi
    exact Finset.mem_filter.mpr ⟨Finset.mem_univ _, kvmWords_idx hw⟩
  have hcard := (Finset.card_le_card hsub).trans (Finset.card_insert_le _ _)
  have hstack : usrStackSize / pgSize = 10 := by decide
  rw [card_kernelTables] at hcard
  rw [pagesPerTask, hstack]
  omega

theorem aligned_small : ∀ s ∈ userSections .small, s.start % pgSize = 0 := by
  simp only [userSections, Config.small, List.mem_cons, List.not_mem_nil, or_false]
  rintro s (rfl | rfl | rfl | rfl) <;> rfl

/-- One CPU with memory for two tasks boots, and the first task forks. -/
theorem exists_sysFork {c : Config} (halign : ∀ s ∈ userSections c, s.start % pgSize = 0)
    (hlapic : c.lapic = lapicVa c) (hroom : 228 ≤ (initList c).length) :
    ∃ k₀ e k, Booted c (some ⟨0, 0⟩) (.small false) k₀ ∧
      Step (memVm c (some ⟨0, 0⟩)) (.small false) k₀ e k ∧
      (k₀.cpus e.cpu).cpuTask = some 0 ∧ callOf e.tf = .fork ∧ e.resumed.tf.regEax ≠ -1 ∧
      Alive k 1 := by
  have hpages := pagesPerTask_le c
  have horder : (Boot.small false).order = [0] := by decide
  obtain ⟨k₀, dirs, l, hbooted, htask, hboot, hleft⟩ := exists_booted (b := .small false) (n := 80)
    (some ⟨0, 0⟩) halign hlapic (by
      rw [horder, List.length_singleton]
      omega)
  have hcpu := hboot.cpu 0 (by rw [horder]; exact List.mem_singleton_self 0)
  have hfree := hboot.findFree_eq (by rw [horder]; decide)
  have hlive := (hboot.onCpu 0 (by rw [horder]; decide)).1.running
  rw [horder] at hcpu hfree
  obtain ⟨e, k, hstep, he, hcall, hret, halive⟩ := htask.exists_fork (b := .small false)
    (some ⟨0, 0⟩) halign (by decide) hcpu.1 (show Alive k₀ 0 by rw [Alive, hlive]; decide) hfree
    (by omega)
  have hcur : (k₀.cpus e.cpu).cpuTask = some 0 := by
    rw [he]
    exact hcpu.1
  exact ⟨k₀, e, k, hbooted, hstep, hcur, hcall, hret, halive⟩

theorem exists_sysFork_small :
    ∃ k₀ e k, Booted .small (some ⟨0, 0⟩) (.small false) k₀ ∧
      Step (memVm .small (some ⟨0, 0⟩)) (.small false) k₀ e k ∧
      (k₀.cpus e.cpu).cpuTask = some 0 ∧ callOf e.tf = .fork ∧ e.resumed.tf.regEax ≠ -1 ∧
      Alive k 1 :=
  exists_sysFork aligned_small (by decide) (by rw [length_initList_small]; decide)

theorem exists_fork_small :
    ∃ k₀ e k, Booted .small (some ⟨0, 0⟩) (.small false) k₀ ∧
      Step (memVm .small (some ⟨0, 0⟩)) (.small false) k₀ e k ∧ ¬ Starved k₀ e ∧ Alive k 1 := by
  obtain ⟨k₀, e, k, hbooted, hstep, -, -, hret, halive⟩ := exists_sysFork_small
  exact ⟨k₀, e, k, hbooted, hstep, fun hstarved => hret hstarved.2.1, halive⟩

end Nctuos
