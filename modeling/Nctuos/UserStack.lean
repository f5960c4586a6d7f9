import Nctuos.OutOfMemory
import Nctuos.Frames
import Nctuos.Balance

/-!
# The user stack

The one part of a task's memory that is its own.  `TaskImage` and `TaskPages` say page by page
what `task_create` and `sys_fork` do to it; here this is read from the outside, address by
address, through the page directory.

* `task_create` returns a task with its whole stack or no task (`whole_stack_of_create`).  Its test
  of `page_insert` against `-1` never fires, but a page that could not be inserted leaves the free
  list empty, and with nine more pages to come `page_alloc` fails in the next turn.
* A child has the frame and the stack of its parent, byte for byte, and no page in common with
  it; nothing else that belongs to a task has changed (`fork_copies_caller`).
-/

namespace Nctuos

open Lib

/-! ## Addresses -/

/-- An address of the user stack. -/
def InStack (va : Nat) : Prop := ustacktop - usrStackSize ≤ va ∧ va < ustacktop

/-- The word of a page that an address is in. -/
def wordIdx (va : Nat) : Idx :=
  ⟨va % pgSize / 4, Nat.div_lt_of_lt_mul (Nat.mod_lt va (by decide))⟩

/-- The byte at `va`, read through directory `d`. -/
def byteAt (c : Config) (m : Mem) (d va : Nat) : Option Nat :=
  (pageAt c m d va).map fun q => m.ram q (wordIdx va) / 2 ^ (8 * (va % 4)) % 2 ^ 8

section Addresses

variable {c : Config} {m m' : Mem} {d d' va va' : Nat}

theorem mem_stackVas : va ∈ stackVas ↔ InStack va ∧ va % pgSize = 0 := by
  simp only [stackVas, List.mem_map, List.mem_range, InStack, usrStackSize, ustacktop_eq, pgSize]
  constructor
  · rintro ⟨k, hk, rfl⟩
    omega
  · intro h
    exact ⟨(0xEEBFE000 - 4096 - va) / 4096, by omega, by omega⟩

/-- The page of an address of the stack is one that the loops of `kernel/task.c` go through. -/
theorem InStack.exists_mem (h : InStack va) : ∃ va₀ ∈ stackVas, slotOf va₀ = slotOf va := by
  refine ⟨va / 4096 * 4096, mem_stackVas.mpr ⟨?_, ?_⟩, ?_⟩
  · simp only [InStack, usrStackSize, ustacktop_eq] at h ⊢
    omega
  · simp only [pgSize]
    omega
  · rw [slotOf_eq_iff]
    omega

theorem InStack.mem_slots (h : InStack va) : slotOf va ∈ stackSlots := by
  obtain ⟨va₀, hva₀, hslot⟩ := h.exists_mem
  exact mem_stackSlots.mpr ⟨va₀, hva₀, hslot⟩

theorem pageAt_congr_slot (h : slotOf va = slotOf va') : pageAt c m d va = pageAt c m d va' := by
  rw [pageAt_eq_targetOf, pageAt_eq_targetOf, h]

theorem slotOf_eq_iff_pgnum (hva : va < 2 ^ 32) (hva' : va' < 2 ^ 32) :
    slotOf va = slotOf va' ↔ pgnum va = pgnum va' :=
  Prod.ext_iff.trans (pdx_ptx_inj hva hva')

theorem InStack.lt (h : InStack va) : va < 2 ^ 32 :=
  Nat.lt_trans h.2 (by decide)

/-- The rest of the addresses between the page below the stack and `UTOP` is under the same
directory entry, and not among the slots of the stack. -/
theorem not_inStack (hge : ustacktop - usrStackSize - pgSize ≤ va) (hlt : va < utop)
    (hout : ¬ InStack va) : (slotOf va).1 = stackIdx ∧ slotOf va ∉ stackSlots := by
  have hutop : utop = 0xEEC00000 := by decide
  constructor
  · have hidx : (stackIdx : Nat) = 954 := by decide
    refine Fin.ext ?_
    rw [hidx, slotOf, pdx_val]
    simp only [usrStackSize, pgSize, ustacktop_eq, hutop] at hge hlt
    omega
  · intro hmem
    obtain ⟨va₀, hva₀, hslot⟩ := mem_stackSlots.mp hmem
    have hin := (mem_stackVas.mp hva₀).1
    have hpage := (slotOf_eq_iff_pgnum hin.lt (Nat.lt_trans hlt (by decide))).mp hslot
    have halign := (mem_stackVas.mp hva₀).2
    rw [pgnum_eq, pgnum_eq] at hpage
    refine hout ?_
    simp only [InStack, usrStackSize, ustacktop_eq, pgSize] at hin halign ⊢
    omega

/-- A byte is read from the page it is mapped to. -/
theorem byteAt_congr (hpage : pageAt c m' d' va = pageAt c m d va)
    (hram : ∀ q, pageAt c m d va = some q → m'.ram q = m.ram q) :
    byteAt c m' d' va = byteAt c m d va := by
  rw [byteAt, byteAt, hpage]
  cases hat : pageAt c m d va with
  | none => rfl
  | some q => rw [Option.map_some, Option.map_some, hram q hat]

end Addresses

/-! ## `task_create` -/

/-- The stack that a new task should have, in directory `d`. -/
structure WholeStack (c : Config) (m : Mem) (d : Nat) : Prop where
  mapped : ∀ va, InStack va → ∃ q, mapOf c m d (vpnOf va) = some (q, pteW ||| pteU ||| pteP) ∧
    (m.pages q).ppRef = 1 ∧ m.ram q = fun _ => 0
  distinct : ∀ va va', InStack va → InStack va' → pageAt c m d va = pageAt c m d va' →
    pgnum va = pgnum va'
  unmapped : ∀ va, ustacktop - usrStackSize - pgSize ≤ va → va < utop → ¬ InStack va →
    mapOf c m d (vpnOf va) = none

namespace StackInv

variable {c : Config} {dirs : Finset Nat} {extra : Nat → Nat} {m : Mem} {l l' : List Nat} {d : Nat}

theorem wholeStack (h : StackInv c dirs extra m l') (hd : d ∈ dirs)
    (himg : Image c m d (kvmWords c) (taskTables c) stackSlots) (hblank : Blank c m d stackSlots)
    (hpool : pool c m d l' = {q | q ∈ l}) (hextra : ∀ q ∈ l, extra q = 0) : WholeStack c m d where
  mapped va hva := by
    obtain ⟨va₀, hva₀, hslot⟩ := hva.exists_mem
    have hs := hva.mem_slots
    obtain ⟨-, q, -, -, hat, -, -, -, -, -, href⟩ := h.stack_target hd himg hva₀ (hslot ▸ hs)
    rw [pageAt_congr_slot hslot, pageAt_eq_targetOf] at hat
    obtain ⟨q', hlt, hentry⟩ := himg.stack _ hs
    have htarget : targetOf (entryOf c m d (slotOf va)) = some q' := by
      rw [hentry]
      exact targetOf_pteWord hlt (by decide)
    obtain rfl : q = q' := Option.some.inj (hat.symm.trans htarget)
    have hnp := c.npages_lt
    refine ⟨q, ?_, ?_, hblank _ hs q hat⟩
    · rw [mapOf_vpnOf, hentry, decode_pteWord (by omega) (by decide)]
    · -- the page was free, so nobody had a reference to it
      have hq : q ∈ pool c m d l' := Or.inr (Or.inr (Or.inr ⟨_, hs, hat⟩))
      rw [hpool] at hq
      rw [href, hextra q hq]
  distinct va va' hva hva' heq := by
    obtain ⟨va₀, hva₀, hslot⟩ := hva.exists_mem
    obtain ⟨va₁, hva₁, hslot'⟩ := hva'.exists_mem
    obtain ⟨-, q, -, -, hat, -⟩ := h.stack_target hd himg hva₀ (hslot ▸ hva.mem_slots)
    have hat' : pageAt c m d va₁ = some q := by
      rw [pageAt_congr_slot hslot', ← heq, ← pageAt_congr_slot hslot]
      exact hat
    have hslots := (h.stack_inj hd hd hva₀ hva₁ hat hat').2
    rw [hslot, hslot'] at hslots
    exact (slotOf_eq_iff_pgnum hva.lt hva'.lt).mp hslots
  unmapped va hge hlt hout := by
    obtain ⟨hidx, hnot⟩ := not_inStack hge hlt hout
    rw [mapOf_vpnOf, himg.entry _ hnot, overlay_of_notMem, decode_zero]
    rintro w hw heq
    have hmem := mem_indices.mpr ⟨w, hw, rfl⟩
    rw [heq, hidx] at hmem
    exact stackIdx_notMem c hmem

end StackInv

/-- **A created task has its whole stack**, from whatever allocator state and task table. -/
theorem whole_stack_of_create {c : Config} {k k' : Kernel Mem Nat} {l : List Nat}
    {local₀ : Option PtePtr} {cpu pid : Nat} (h : FreeList c k.mem l)
    (href : ∀ p, (k.mem.pages p).ppRef < 2 ^ 16)
    (hrun : taskCreate (memVm c local₀) k cpu = .ok (some pid, k')) :
    ∃ d, (k'.tasks pid).pgdir = some d ∧ WholeStack c k'.mem d := by
  obtain ⟨d, l', hd, -, h', himg, hpool, hblank⟩ := h.taskCreate href hrun
  exact ⟨d, hd, h'.wholeStack (Finset.mem_singleton_self d) himg hblank hpool h.ref⟩

/-- The first task of a machine with four megabytes. -/
theorem whole_stack_small :
    ∃ m l k' d, FreeList .small m l ∧
      taskCreate (memVm .small none) (.init m) 0 = .ok (some 0, k') ∧
      (k'.tasks 0).pgdir = some d ∧ WholeStack .small k'.mem d := by
  obtain ⟨m, l, h, hlen, href⟩ := exists_freeList_small (show 80 ≤ 795 by decide)
  have htables : kvmTables .small = 68 := kvmTables_eq (by decide)
  have hpages := pagesPerTask_eq .small
  have hslot : findFree (Kernel.init m : Kernel Mem Nat).tasks = some 0 := rfl
  obtain ⟨k', hrun, -⟩ := taskCreate_of_kvm (h.stackInv href) hslot (by omega) none 0
  rw [if_pos (by omega)] at hrun
  obtain ⟨d, hd, hwhole⟩ := whole_stack_of_create h href hrun
  exact ⟨m, l, k', d, h, hrun, hd, hwhole⟩

/-! ## `sys_fork` -/

/-- Task `p` has forked, from state `k` with the registers `tf` into state `k'`, and `pid` is its
child.  Of the address spaces only what no task can reach has changed: `ram` at pages that were
free. -/
structure ForkCopies (c : Config) (k k' : Kernel Mem Nat) (tf : Trapframe) (p pid : Nat) : Prop where
  childFrame : (k'.tasks pid).tf = { tf with regEax := 0 }
  parentFrame : (k'.tasks p).tf = { tf with regEax := BitVec.ofNat 32 pid }
  parentId : (k'.tasks pid).parentId = (k.tasks p).taskId
  /-- The two stacks hold the same bytes, in different pages. -/
  stack : ∃ parent child, (k'.tasks p).pgdir = some parent ∧ (k'.tasks pid).pgdir = some child ∧
    (∀ va, InStack va →
      ∃ x, byteAt c k'.mem child va = some x ∧ byteAt c k'.mem parent va = some x) ∧
    ∀ va va', InStack va → InStack va' → ∀ q, pageAt c k'.mem child va = some q →
      pageAt c k'.mem parent va' ≠ some q
  otherFrames : ∀ q, Alive k q → q ≠ p → (k'.tasks q).tf = (k.tasks q).tf
  /-- Whoever was alive, the parent included, has the directory it had, with the same mapping,
  the same stack, and the same bytes wherever the page was in use.  The kernel's own variables are
  not in `ram`, so this says nothing about the bytes of `pages`, which the tasks see at `UPAGES` and
  which a fork does change. -/
  spaces : ∀ q, Alive k q → ∃ d, (k.tasks q).pgdir = some d ∧ (k'.tasks q).pgdir = some d ∧
    mapOf c k'.mem d = mapOf c k.mem d ∧
    (∀ va, InStack va → byteAt c k'.mem d va = byteAt c k.mem d va) ∧
    ∀ va, (∀ x, pageAt c k.mem d va = some x → ¬ OnFreeList k.mem x) →
      byteAt c k'.mem d va = byteAt c k.mem d va

section Fork

variable {c : Config} {local₀ : Option PtePtr} {b : Boot} {k₀ k k' : Kernel Mem Nat}
  {dirs : Finset Nat} {l l' : List Nat} {es : List Entry} {e : Entry} {p pid parent d va : Nat}

theorem pageAt_of_sameDir (h : SameDir c k.mem k'.mem d) :
    pageAt c k'.mem d va = pageAt c k.mem d va := by
  rw [pageAt_eq_targetOf, pageAt_eq_targetOf, h.2]

/-- The stack of the child is that of its parent. -/
theorem Forked.stack (h : Forked c k k' dirs l l' parent d) (hva : InStack va) :
    ∃ x, byteAt c k'.mem d va = some x ∧ byteAt c k'.mem parent va = some x := by
  obtain ⟨va₀, hva₀, hslot⟩ := hva.exists_mem
  obtain ⟨q, q', hq, hq', hbytes⟩ := h.copied va₀ hva₀
  rw [pageAt_congr_slot hslot] at hq hq'
  refine ⟨_, by rw [byteAt, hq, Option.map_some], ?_⟩
  rw [byteAt, hq', Option.map_some, hbytes]

theorem Forked.disjoint {va' q : Nat} (h : Forked c k k' dirs l l' parent d) (hparent : parent ∈ dirs)
    (hva : InStack va) (hva' : InStack va') (hq : pageAt c k'.mem d va = some q) :
    pageAt c k'.mem parent va' ≠ some q := by
  intro hq'
  obtain ⟨va₀, hva₀, hslot⟩ := hva.exists_mem
  obtain ⟨va₁, hva₁, hslot'⟩ := hva'.exists_mem
  rw [← pageAt_congr_slot hslot] at hq
  rw [← pageAt_congr_slot hslot'] at hq'
  have hsame := (h.inv.stack_inj (Finset.mem_insert_self d dirs)
    (Finset.mem_insert_of_mem hparent) hva₀ hva₁ hq hq').1
  exact h.new (hsame ▸ hparent)

/-- A page that was in use is not written to. -/
theorem Forked.byteAt_eq {d' : Nat} (h : Forked c k k' dirs l l' parent d) (hd' : d' ∈ dirs)
    (hused : ∀ x, pageAt c k.mem d' va = some x → x ∉ l) :
    byteAt c k'.mem d' va = byteAt c k.mem d' va :=
  byteAt_congr (pageAt_of_sameDir (h.frame d' hd')) fun x hx => h.kept x (hused x hx)

/-- The fork of a kernel entry, from any state with the invariant. -/
theorem TaskPages.fork_copies (h : TaskPages c k dirs l) (hq : QueueInv b k)
    (hs : Step (memVm c local₀) b k e k') (hfork : ForkSucceeds e)
    (hp : (k.cpus e.cpu).cpuTask = some p) :
    ∃ pid, e.resumed = ⟨p, { e.tf with regEax := BitVec.ofNat 32 pid }⟩ ∧ pid < nrTasks ∧
      ¬ Alive k pid ∧ Alive k' pid ∧ ForkCopies c k k' e.tf p pid := by
  have hlive : Alive k p := (hq.current_live hs.1 hp).2
  obtain ⟨pid, k₁, hrun, hk', hresumed, hframes⟩ := step_forkFrames hs hfork.1 hfork.2 hp hlive
  have hsave := saveFrame_mem k p e.tf
  have hsched := saveFrame_sched k p e.tf
  have hafter : SameMem k₁ k' := hk' ▸ SameMem.modTask k₁ p _ fun _ => rfl
  obtain ⟨parent, d, hf⟩ := sysFork_mem hrun hp ((hsched.alive p).mpr hlive)
  have hf' := hf.congr hsave hsched.findFree_congr hafter
  obtain ⟨hlt, hfree⟩ := findFree_some hframes.slot
  obtain ⟨hparent, l', hforked⟩ := h.forked hlive hf'
  have hdead : ¬ Alive k pid := fun halive => halive hfree
  have hne : ∀ q, Alive k q → q ≠ pid := fun q hq' heq => hdead (heq ▸ hq')
  have hpid := (hne p hlive).symm
  refine ⟨pid, ?_, hlt, hdead, ?_, ⟨hframes.child, hframes.parent, hframes.parentId, ?_,
    fun q hq' hqp => hframes.other q hqp (hne q hq'), fun q hq' => ?_⟩⟩
  · rw [hresumed, resume, hframes.parent]
  · rw [Alive, hk', Kernel.modTask_other _ _ hpid]
    exact (sysFork_alive hrun pid).mpr (Or.inr rfl)
  · exact ⟨parent, d, (hf'.other p hpid.symm).trans hf'.from_parent, hf'.child,
      fun va hva => hforked.stack hva,
      fun va va' hva hva' q hat => hforked.disjoint hparent hva hva' hat⟩
  · obtain ⟨d', hd', hmem, -, himg⟩ := h.task q hq'
    refine ⟨d', hd', (hf'.other q (hne q hq')).trans hd', ?_, fun va hva => ?_,
      fun va hused => ?_⟩
    · funext v
      rw [mapOf, mapOf, (hforked.frame d' hmem).2]
    · refine hforked.byteAt_eq hmem fun x hx => ?_
      rw [pageAt_eq_targetOf] at hx
      exact (h.inv.inv.data d' hmem _ x hva.mem_slots hx).2.1
    · exact hforked.byteAt_eq hmem fun x hx hxl => hused x hx ((h.onFreeList_iff x).mpr hxl)

/-- **`fork` copies the caller**, in every reachable state. -/
theorem fork_copies_caller (hboot : Booted c local₀ b k₀)
    (hrun : Run (Step (memVm c local₀) b) k₀ es k) (hs : Step (memVm c local₀) b k e k')
    (hfork : ForkSucceeds e) (hp : (k.cpus e.cpu).cpuTask = some p) :
    ∃ pid, e.resumed = ⟨p, { e.tf with regEax := BitVec.ofNat 32 pid }⟩ ∧ pid < nrTasks ∧
      ¬ Alive k pid ∧ Alive k' pid ∧ ForkCopies c k k' e.tf p pid := by
  obtain ⟨hq, dirs, l, h⟩ := pagesInv_of_run hboot hrun
  exact h.fork_copies hq hs hfork hp

end Fork

/-- The first fork of a machine with one CPU. -/
theorem fork_copies_first_task :
    ∃ k₀ e k pid, Booted .small (some ⟨0, 0⟩) (.small false) k₀ ∧
      Step (memVm .small (some ⟨0, 0⟩)) (.small false) k₀ e k ∧ ForkSucceeds e ∧
      ¬ Alive k₀ pid ∧ Alive k pid ∧ ForkCopies .small k₀ k e.tf 0 pid := by
  obtain ⟨k₀, e, k, hboot, hstep, hp, hcall, hret, -⟩ := exists_sysFork_small
  obtain ⟨pid, -, -, hdead, halive, hcopies⟩ :=
    fork_copies_caller hboot (.nil k₀) hstep ⟨hcall, hret⟩ hp
  exact ⟨k₀, e, k, pid, hboot, hstep, ⟨hcall, hret⟩, hdead, halive, hcopies⟩

end Nctuos
