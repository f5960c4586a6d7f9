import Nctuos.PageOwners
import Nctuos.Exit

/-!
# The kernel goes on

Whatever the user programs ask for, a system call, a timer interrupt or a key ends in user mode
again, but for one.  Three things can keep it from that.  One is a CPU whose `cpu_task` is NULL, which
`sys_kill` leaves behind when nobody else can run; `KillStep` excludes it.  Another is memory:
`task_create` stores through a NULL pointer, or panics, when pages run out in the wrong place.

On a machine that has `pagesPerTask` pages for each of the `NR_TASKS` slots this does not happen.  A
fork needs a free slot; then some slot's pages are not in use, and as none is ever lost
(`Ample.step`), they are on the free list.  And `task_free` finds in a directory just what
`task_create` put there, so it does not panic either.

The third is `SYS_puts`.  `do_puts` reads where the program says, and a page fault in the kernel ends
in the endless loop of `page_fault_handler`.  All tasks have the same addresses mapped
(`TaskMapped`), so what a string must be in is known beforehand, and a string that is not stops the
CPU (`PutsOutside`).
-/

namespace Nctuos

open Lib

/-- The traps that user programs cause without an error: system calls, the timer, the keyboard. -/
def Request (tf : Trapframe) : Prop :=
  tf.tfTrapno.toNat = tSyscall ∨ tf.tfTrapno.toNat = irqOffset + irqTimer ∨
    tf.tfTrapno.toNat = irqOffset + irqKbd

/-! ## Strings -/

/-- The addresses that are mapped in every task: those of `setupkvm` and of the four calls of
`setupvm`, and the stack. -/
def TaskMapped (c : Config) (va : BitVec 32) : Prop :=
  slotOf va.toNat ∈ stackSlots ∨ ∃ w ∈ taskWords c, w.1 = slotOf va.toNat

/-- A `SYS_puts` of a string that is not wholly at such addresses. -/
def PutsOutside (c : Config) (tf : Trapframe) : Prop :=
  tf.tfTrapno.toNat = tSyscall ∧ Syscall.ofNo tf.regEax = some .puts ∧
    ∃ i < tf.regEcx.toNat, ¬ TaskMapped c (tf.regEdx + BitVec.ofNat 32 i)

theorem not_putsOutside {tf : Trapframe} (h : callOf tf ≠ .other) (c : Config) :
    ¬ PutsOutside c tf := by
  rintro ⟨hsys, hno, -⟩
  rw [callOf, if_pos hsys, callOfNo, hno] at h
  exact h rfl

section Strings

variable {M D : Type} {vm : Vm M D} {pgdir : D} {m : M} {n : Nat} {str : BitVec 32}

theorem str_succ (str : BitVec 32) (i : Nat) :
    str + 1 + BitVec.ofNat 32 i = str + BitVec.ofNat 32 (i + 1) := by
  rw [BitVec.add_assoc, Nat.add_comm i 1, BitVec.ofNat_add]
  rfl

theorem putsFrom_ok (h : ∀ i < n, vm.mapped pgdir (str + BitVec.ofNat 32 i) m = true) :
    putsFrom vm pgdir m n str = .ok () := by
  induction n generalizing str with
  | zero => rfl
  | succ n ih =>
      have hfirst := h 0 n.succ_pos
      rw [BitVec.add_zero] at hfirst
      rw [putsFrom, if_pos hfirst]
      refine ih fun i hi => ?_
      rw [str_succ]
      exact h (i + 1) (Nat.succ_lt_succ hi)

end Strings

/-- The processor reads the entry of a directory other than `kern_pgdir` that the kernel wrote. -/
theorem mapped_eq {c : Config} {d : Nat} (hd : d ≠ c.kernPgdir) (va : BitVec 32) (m : Mem) :
    mapped d va m = present (entryOf c m d (slotOf va.toNat)) := by
  have hself : ¬ SelfMap c d (pdx va.toNat) := fun h => hd h.1
  cases hpde : present (m.ram d (pdx va.toNat)) with
  | false =>
      have htable : tableOf c m d (slotOf va.toNat).1 = none := by
        simp [tableOf, slotOf, hself, hpde]
      rw [mapped, entryOf_none htable, hpde]
      rfl
  | true =>
      have htable := tableOf_eq_some.mpr ⟨hself, hpde, rfl⟩
      rw [mapped, entryOf_some (s := slotOf va.toNat) htable, hpde]
      rfl

theorem present_taskWords {c : Config} {w : Slot × Nat} (h : w ∈ taskWords c) :
    present w.2 = true := by
  have hregion : ∃ r : Region, w ∈ r.words := by
    rcases List.mem_append.mp h with h | h
    · obtain ⟨r, -, hr⟩ := List.mem_flatMap.mp h
      exact ⟨r, hr⟩
    · obtain ⟨r, -, hr⟩ := List.mem_flatMap.mp h
      exact ⟨r, hr⟩
  obtain ⟨r, hr⟩ := hregion
  obtain ⟨-, -, -, -, pa, hword, -⟩ := Region.mem_words hr
  rw [hword, present_pteWord]

theorem Image.mapped_iff {c : Config} {m : Mem} {d : Nat} {T : Finset Idx} {va : BitVec 32}
    (h : Image c m d (taskWords c) T stackSlots) (hd : d ≠ c.kernPgdir) :
    mapped d va m = true ↔ TaskMapped c va := by
  rw [mapped_eq hd, TaskMapped]
  by_cases hstack : slotOf va.toNat ∈ stackSlots
  · obtain ⟨q, -, hword⟩ := h.stack _ hstack
    rw [hword, present_pteWord]
    exact iff_of_true rfl (Or.inl hstack)
  · rw [h.entry _ hstack]
    by_cases hword : ∃ w ∈ taskWords c, w.1 = slotOf va.toNat
    · obtain ⟨w, hw, -, hval⟩ := overlay_mem hword fun _ => 0
      rw [hval, present_taskWords hw]
      exact iff_of_true rfl (Or.inr hword)
    · have hnone : ∀ w ∈ taskWords c, w.1 ≠ slotOf va.toNat :=
        fun w hw heq => hword ⟨w, hw, heq⟩
      rw [overlay_of_notMem hnone, present_zero]
      exact iff_of_false Bool.false_ne_true (not_or.mpr ⟨hstack, hword⟩)

/-! ## One entry -/

namespace TaskPages

variable {c : Config} {local₀ : Option PtePtr} {b : Boot} {k k' : Kernel Mem Nat}
  {dirs : Finset Nat} {l : List Nat} {pid p cpu : Nat}

/-- The current task can fork, and gets a child if there is a slot. -/
theorem sysFork_returns (h : TaskPages c k dirs l) (local₀ : Option PtePtr)
    (halign : ∀ s ∈ userSections c, s.start % pgSize = 0)
    (hp : (k.cpus cpu).cpuTask = some p) (hlive : Alive k p)
    (hroom : findFree k.tasks ≠ none → pagesPerTask c ≤ l.length) :
    ∃ k', sysFork (memVm c local₀) b k cpu = .ok (findFree k.tasks, k') := by
  cases hfree : findFree k.tasks with
  | none => exact ⟨k, by simp [sysFork, taskCreate, hfree, ok_bind]⟩
  | some pid => exact h.sysFork_total local₀ halign hp hlive hfree (hroom (by simp [hfree]))

/-- A string of a task is read to its end, or not, by where it is. -/
theorem putsLoads_mapped (h : TaskPages c k dirs l) (hlive : Alive k p) {str len : BitVec 32}
    (hin : ∀ i < len.toNat, TaskMapped c (str + BitVec.ofNat 32 i)) :
    putsLoads (memVm c local₀) k p str len = .ok () := by
  obtain ⟨d, hd, -, hkern, himage⟩ := h.task p hlive
  rw [putsLoads, hd]
  exact putsFrom_ok fun i hi => (himage.mapped_iff hkern).mpr (hin i hi)

/-- `do_syscall` ends, for every number. -/
theorem doSyscall_total (h : TaskPages c k dirs l) (hq : QueueInv b k) (hlocal : local₀.isSome)
    (halign : ∀ s ∈ userSections c, s.start % pgSize = 0) (hcpu : cpu < b.ncpu)
    (hp : (k.cpus cpu).cpuTask = some p)
    (hroom : findFree k.tasks ≠ none → pagesPerTask c ≤ l.length) {no a1 a2 : BitVec 32}
    (hputs : Syscall.ofNo no = some .puts →
      ∀ i < a2.toNat, TaskMapped c (a1 + BitVec.ofNat 32 i)) (key : BitVec 32) :
    ∃ r k', doSyscall (memVm c local₀) b k cpu no a1 a2 key = .ok (r, k') ∧
      (Syscall.ofNo no = some .fork → ∀ pid, findFree k.tasks = some pid →
        r = .returned (BitVec.ofNat 32 pid)) := by
  unfold doSyscall
  simp only [hp]
  cases hno : Syscall.ofNo no with
  | none => exact ⟨_, _, rfl, by simp⟩
  | some call =>
      cases call with
      | fork =>
          obtain ⟨k', hfork⟩ :=
            h.sysFork_returns (b := b) local₀ halign hp (hq.current_live hcpu hp).2 hroom
          simp only [hfork, ok_bind]
          refine ⟨_, _, rfl, fun _ pid hpid => ?_⟩
          rw [hpid]
      | kill =>
          obtain ⟨r, k', hkill⟩ := h.sysKill_total hq hlocal hcpu hp
          rw [hq.current_taskId hcpu hp]
          simp only [hkill, ok_bind]
          exact ⟨_, _, rfl, by simp⟩
      | puts =>
          simp only [h.putsLoads_mapped (hq.current_live hcpu hp).2 (hputs hno), ok_bind]
          exact ⟨_, _, rfl, by simp⟩
      | getc | getpid | getcid | sleep | getNumUsedPage | getNumFreePage | getTicks
      | settextcolor | cls => exact ⟨_, _, rfl, by simp⟩

/-- **Every other request is answered**: the entry ends in user mode, and a fork that has a slot
does not fail. -/
theorem exists_step (h : TaskPages c k dirs l) (hq : QueueInv b k) (hlocal : local₀.isSome)
    (halign : ∀ s ∈ userSections c, s.start % pgSize = 0) (hcpu : cpu < b.ncpu)
    (hp : (k.cpus cpu).cpuTask = some p)
    (hroom : findFree k.tasks ≠ none → pagesPerTask c ≤ l.length) {tf : Trapframe}
    (htf : Request tf) (hin : ¬ PutsOutside c tf) (key : BitVec 32) :
    ∃ resumed k', Step (memVm c local₀) b k ⟨cpu, tf, key, resumed⟩ k' ∧
      (callOf tf = .fork → findFree k.tasks ≠ none → resumed.tf.regEax ≠ -1) := by
  have hsched := saveFrame_sched k p tf
  have hp' : ((k.modTask p fun t => { t with tf := tf }).cpus cpu).cpuTask = some p := hp
  by_cases hsys : tf.tfTrapno.toNat = tSyscall
  · have hsaved := h.change (.same (saveFrame_mem k p tf) hsched.alive)
    have hputs : Syscall.ofNo tf.regEax = some .puts →
        ∀ i < tf.regEcx.toNat, TaskMapped c (tf.regEdx + BitVec.ofNat 32 i) :=
      fun hno i hi => by_contra fun hun => hin ⟨hsys, hno, i, hi, hun⟩
    obtain ⟨r, k', hcall, hfork⟩ := hsaved.doSyscall_total (hq.congr hsched) hlocal halign hcpu hp'
      (fun hslot => hroom (hsched.findFree_congr ▸ hslot)) hputs key
    have hdispatch : ∃ resumed k'', trapDispatch (memVm c local₀) b k cpu tf key =
        .ok (resumed, k'') ∧ ∀ v, r = .returned v → resumed.tf.regEax = v := by
      simp only [trapDispatch, hp, hsys, if_pos, syscallHandler, Kernel.modTask_same, hcall,
        ok_bind]
      cases r with
      | switched q => exact ⟨_, _, rfl, by simp⟩
      | returned v => exact ⟨_, _, rfl, by simp [resume]⟩
    obtain ⟨resumed, k'', hok, heax⟩ := hdispatch
    refine ⟨resumed, k'', ⟨hcpu, hok⟩, fun hfk hslot => ?_⟩
    obtain ⟨pid, hpid⟩ := Option.ne_none_iff_exists'.mp hslot
    rw [heax _ (hfork (callOf_fork hfk).2 pid (hsched.findFree_congr.symm.trans hpid))]
    exact (ofNat_pid (findFree_some hpid).1).1
  · have hcall : callOf tf ≠ .fork := fun hfk => hsys (callOf_fork hfk).1
    have hok : ∃ resumed k', trapDispatch (memVm c local₀) b k cpu tf key = .ok (resumed, k') := by
      rcases htf with htf | htf | htf
      · exact absurd htf hsys
      · simp only [trapDispatch, hp, if_neg hsys, if_pos htf]
        exact ⟨_, _, rfl⟩
      · have htimer : tf.tfTrapno.toNat ≠ irqOffset + irqTimer := by
          rw [htf]
          decide
        simp only [trapDispatch, hp, if_neg hsys, if_neg htimer, if_pos htf]
        exact ⟨_, _, rfl⟩
    obtain ⟨resumed, k', hok⟩ := hok
    exact ⟨resumed, k', ⟨hcpu, hok⟩, fun hfk => absurd hfk hcall⟩

end TaskPages

/-! ## Memory for all tasks -/

/-- The free pages and those in use are enough for a task in each slot. -/
def Ample (c : Config) (b : Boot) (k : Kernel Mem Nat) : Prop :=
  PagesInv c b k ∧ pagesPerTask c * nrTasks ≤ account c k

namespace Ample

variable {c : Config} {local₀ : Option PtePtr} {b : Boot} {k k' k₀ : Kernel Mem Nat} {e : Entry}
  {es : List Entry} {cpu p : Nat}

theorem inUse_lt {pid : Nat} (hfree : findFree k.tasks = some pid) : inUse k < nrTasks := by
  obtain ⟨hlt, hstate⟩ := findFree_some hfree
  have hsub : (Finset.range nrTasks).filter (Alive k) ⊂ Finset.range nrTasks := by
    refine Finset.filter_ssubset.mpr ⟨pid, Finset.mem_range.mpr hlt, ?_⟩
    exact fun hlive => hlive hstate
  simpa [inUse] using Finset.card_lt_card hsub

/-- Where there is a free slot, there are the pages for it. -/
theorem room {dirs : Finset Nat} {l : List Nat} (h : Ample c b k) (hp : TaskPages c k dirs l)
    (hslot : findFree k.tasks ≠ none) : pagesPerTask c ≤ l.length := by
  obtain ⟨pid, hpid⟩ := Option.ne_none_iff_exists'.mp hslot
  have hlt := inUse_lt hpid
  have hmul := Nat.mul_le_mul_left (pagesPerTask c) hlt
  have hacc := h.2
  rw [account, hp.inv.inv.free.num] at hacc
  rw [Nat.mul_succ] at hmul
  omega

section Fed

variable (h : Ample c b k) (hlocal : local₀.isSome)
  (halign : ∀ s ∈ userSections c, s.start % pgSize = 0)

include h hlocal halign

theorem exists_step (hcpu : cpu < b.ncpu) (hp : (k.cpus cpu).cpuTask = some p) {tf : Trapframe}
    (htf : Request tf) (hin : ¬ PutsOutside c tf) (key : BitVec 32) :
    ∃ resumed k', Step (memVm c local₀) b k ⟨cpu, tf, key, resumed⟩ k' ∧
      (callOf tf = .fork → findFree k.tasks ≠ none → resumed.tf.regEax ≠ -1) := by
  obtain ⟨hq, dirs, l, hpages⟩ := id h.1
  exact hpages.exists_step hq hlocal halign hcpu hp (h.room hpages) htf hin key

/-- So no fork is starved. -/
theorem fed (hs : Step (memVm c local₀) b k e k') : FedStep c local₀ b k e k' := by
  refine ⟨hs, fun ⟨hcall, heax, hslot⟩ => ?_⟩
  obtain ⟨hcpu, p, hp, -⟩ := step_effect hs
  have hin : ¬ PutsOutside c e.tf := not_putsOutside (by simp [hcall]) c
  obtain ⟨resumed, k'', ⟨-, hok⟩, hne⟩ := h.exists_step hlocal halign hcpu hp
    (Or.inl (callOf_fork hcall).1) hin e.key
  have heq := hs.2.symm.trans hok
  rw [Except.ok.injEq, Prod.mk.injEq] at heq
  have hres : e.resumed = resumed := heq.1
  exact hne hcall hslot (hres ▸ heax)

/-- Nothing is ever lost. -/
theorem step (hs : Step (memVm c local₀) b k e k') : Ample c b k' :=
  ⟨h.1.step hs, (account_fedStep h.1 (h.fed hlocal halign hs)).symm ▸ h.2⟩

end Fed

/-- What the machine needs for it: the tables of `kern_pgdir` and the pages of `NR_TASKS` tasks. -/
theorem of_booted (hboot : Booted c local₀ b k₀)
    (hroom : 68 + pagesPerTask c * nrTasks ≤ (initList c).length) : Ample c b k₀ := by
  have halign := hboot.aligned
  have hinv := hboot.pagesInv
  obtain ⟨ram, m₀, m, hmem, hlapic, hall⟩ := hboot
  obtain ⟨l₀, h₀, hroom₀⟩ := memInit_inv hmem
  obtain ⟨-, l₁, base, h₁, hroom₁⟩ := lapicInit_inv h₀ hlapic
  have hlen := hroom₁ _ (hroom₀ _ hroom)
  unfold Room at hlen
  have horder := b.length_order_le
  have hmul := Nat.mul_le_mul_left (pagesPerTask c) horder
  have hnodup : ([] ++ b.order).Nodup := b.nodup_order
  obtain ⟨k, dirs, l, hboot', hpages, hleft⟩ := (TaskPages.init h₁.inv).boot_total (b := b)
    (BootInv.init m) local₀ halign hnodup horder (by omega)
  obtain rfl : k = k₀ := Except.ok.inj (hboot'.symm.trans hall)
  refine ⟨hinv, ?_⟩
  have huse : inUse k = b.order.length := by
    have hb := bootInv_of_bootAll hall
    have hset : (Finset.range nrTasks).filter (Alive k) = Finset.range b.order.length := by
      ext s
      simp only [Finset.mem_filter, Finset.mem_range, Alive]
      constructor
      · rintro ⟨-, hlive⟩
        exact Nat.lt_of_not_le fun hle => hlive (hb.free s hle)
      · intro hs
        refine ⟨Nat.lt_of_lt_of_le hs horder, ?_⟩
        rw [(hb.onCpu s hs).1.running]
        decide
    rw [inUse, hset, Finset.card_range]
  rw [account, hpages.inv.inv.free.num, huse]
  omega

end Ample

/-! ## Whole runs -/

/-- The machine of `Config.small` with sixteen megabytes. -/
def Config.sixteen : Config :=
  { Config.small with
    npages := 4096
    npages_le := by decide
    kernelEnd_le := by decide
    next_le := by decide }

theorem length_initList_sixteen : (initList .sixteen).length = 3861 := by
  simp only [initList, initListFrom, List.length_append, List.length_reverse, List.length_range']
  decide

theorem room_sixteen : 68 + pagesPerTask .sixteen * nrTasks ≤ (initList .sixteen).length := by
  have hpages := pagesPerTask_le .sixteen
  have hslots : nrTasks = 32 := rfl
  rw [length_initList_sixteen, hslots]
  omega

theorem exists_booted_sixteen (two : Bool) :
    ∃ k₀, Booted .sixteen (some ⟨0, 0⟩) (.small two) k₀ := by
  have hpages := pagesPerTask_le .sixteen
  have horder : (Boot.small two).order.length ≤ 2 := by cases two <;> decide
  have hmul := Nat.mul_le_mul hpages horder
  obtain ⟨k₀, -, -, hboot, -⟩ := exists_booted (b := .small two) (n := 0) (some ⟨0, 0⟩)
    (c := .sixteen) aligned_small (by decide) (by
      rw [length_initList_sixteen]
      omega)
  exact ⟨k₀, hboot⟩

end Nctuos
