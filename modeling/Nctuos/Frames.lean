import Nctuos.RunQueue

/-!
# What the kernel does to saved trap frames

`SameSched` forgets the trap frames; this module is about nothing else.  `sched_yield`,
`timer_handler` and `sys_kill` do not touch any saved frame.  `sys_fork` writes the
frame of the child it creates, a copy of its parent's with `eax` zero, and the `eax` of
the parent.  `syscall_handler` writes the `eax` of the caller.  So a kernel entry leaves
the frame of every other live task alone (`doSyscall_frames`).

At the end there is all that a fork writes into the task table besides: the `parent_id` of
the child (`sysFork_parentId`), and, from the system call on, the value returned
(`step_forkFrames`).
-/

namespace Nctuos

open Lib

variable {M D : Type} {vm : Vm M D} {b : Boot} {k k' : Kernel M D} {c p q : Nat}

/-! ## The scheduler -/

theorem modTask_tf (k : Kernel M D) (p : Nat) (f : Task D → Task D)
    (hf : ∀ t, (f t).tf = t.tf) (q : Nat) : ((k.modTask p f).tasks q).tf = (k.tasks q).tf := by
  by_cases hq : q = p
  · subst hq
    rw [Kernel.modTask_same, hf]
  · rw [Kernel.modTask_other _ _ hq]

theorem schedYield_tf (k : Kernel M D) (c q : Nat) :
    ((schedYield k c).2.tasks q).tf = (k.tasks q).tf := by
  unfold schedYield
  split
  · rfl
  · simp only [Kernel.modCpu_tasks]
    rw [modTask_tf]
    exact fun _ => rfl

theorem tickSleeper_tf (t : Task D) : (tickSleeper t).tf = t.tf := by
  unfold tickSleeper
  split <;> rfl

theorem tickAll_tf (k : Kernel M D) (c p q : Nat) :
    ((tickAll k c p).tasks q).tf = (k.tasks q).tf := by
  unfold tickAll
  rw [modTask_tf]
  · exact QueueInv.tickSleepers_rel (P := fun t t' => t'.tf = t.tf) (fun _ => rfl)
      (fun t t' h => (tickSleeper_tf t').trans h) k.tasks _ q
  · exact fun _ => rfl

theorem timerHandler_tf (k : Kernel M D) (c q : Nat) :
    ((timerHandler k c).2.tasks q).tf = (k.tasks q).tf := by
  unfold timerHandler
  simp only
  split
  · rfl
  · rename_i p hp
    have htick := tickAll_tf { k with jiffies := k.jiffies + 1 } c p q
    split
    · rw [schedYield_tf, modTask_tf]
      · exact htick
      · exact fun _ => rfl
    · exact htick

/-! ## `sys_kill` -/

theorem sysKill_tf {pid : Nat} {r : Option Nat} (h : sysKill vm k c pid = .ok (r, k')) (q : Nat) :
    (k'.tasks q).tf = (k.tasks q).tf := by
  unfold sysKill at h
  split at h
  · simp only [bind_ok_iff] at h
    obtain ⟨m, -, h⟩ := h
    have hreap : ((reap k c pid m).tasks q).tf = (k.tasks q).tf := by
      rw [reap, Kernel.setMem_tasks, modTask_tf]
      · rfl
      · exact fun _ => rfl
    split at h
    · cases h
    · split at h
      · rw [Except.ok.injEq] at h
        have hyield := schedYield_tf
          ((reap k c pid m).modCpu c fun cpu => { cpu with cpuTask := none }) c q
        rw [h] at hyield
        exact hyield.trans hreap
      · cases h
        exact hreap
  · cases h
    rfl

/-! ## `sys_fork` -/

/-- `task_create` writes no frame but that of the task it creates. -/
theorem taskCreate_tf {r : Option Nat} (h : taskCreate vm k c = .ok (r, k'))
    (hq : r ≠ some q) : (k'.tasks q).tf = (k.tasks q).tf := by
  unfold taskCreate at h
  split at h
  · cases h
    rfl
  · rename_i pid hfree
    simp only [bind_ok_iff] at h
    obtain ⟨⟨d, m⟩, -, h⟩ := h
    cases d with
    | none => cases h
    | some d =>
        simp only [bind_ok_iff] at h
        obtain ⟨⟨ok, m'⟩, -, h⟩ := h
        have hdir := modTask_tf k pid (fun t => { t with pgdir := some d }) (fun _ => rfl) q
        cases ok with
        | false =>
            cases h
            exact hdir
        | true =>
            cases h
            have hne : q ≠ pid := by
              rintro rfl
              exact hq rfl
            rw [Kernel.modTask_other _ _ hne]
            exact hdir

/-- The copy writes the child's frame and the parent's `eax`. -/
theorem copyParent_tf {pid : Nat} (h : copyParent vm k p pid = .ok k') (hne : p ≠ pid) :
    (∀ q, q ≠ p → q ≠ pid → (k'.tasks q).tf = (k.tasks q).tf) ∧
      (k'.tasks p).tf = { (k.tasks p).tf with regEax := BitVec.ofNat 32 pid } ∧
      (k'.tasks pid).tf = { (k.tasks p).tf with regEax := 0 } := by
  obtain ⟨parent, child, m, m', -, -, -, -, rfl⟩ := copyParent_ok h
  refine ⟨fun q hqp hqpid => ?_, ?_, ?_⟩
  · simp [Kernel.modTask_other _ _ hqp, Kernel.modTask_other _ _ hqpid]
  · simp [Kernel.modTask_other _ _ hne]
  · simp [Kernel.modTask_other _ _ hne.symm]

/-- `sys_fork`, in terms of the frames before it.  The child `pid` was a free slot. -/
theorem sysFork_tf {r : Option Nat} (h : sysFork vm b k c = .ok (r, k'))
    (hp : (k.cpus c).cpuTask = some p) (hlive : (k.tasks p).state ≠ .free) :
    (∀ q, q ≠ p → r ≠ some q → (k'.tasks q).tf = (k.tasks q).tf) ∧
      (∀ v, { (k'.tasks p).tf with regEax := v } = { (k.tasks p).tf with regEax := v }) ∧
      (∀ pid, r = some pid → findFree k.tasks = some pid ∧
        (k'.tasks pid).tf = { (k.tasks p).tf with regEax := 0 }) := by
  simp only [sysFork, bind_ok_iff] at h
  obtain ⟨⟨r₁, k₁⟩, hcreate, h⟩ := h
  rcases taskCreate_sched hcreate with ⟨rfl, -⟩ | ⟨pid, rfl, hfree, hs⟩
  · cases h
    refine ⟨fun q _ _ => taskCreate_tf hcreate nofun, fun v => ?_, nofun⟩
    rw [taskCreate_tf (q := p) hcreate nofun]
  · simp only [bind_ok_iff] at h
    obtain ⟨k₂, hcopy, h⟩ := h
    cases h
    have hne : p ≠ pid := by
      rintro rfl
      exact hlive (findFree_some hfree).2
    have hcur : (k₁.cpus c).cpuTask = some p := by
      rw [← hs.cpus]
      exact hp
    simp only [copyCurrent, hcur] at hcopy
    have hsome : ∀ {q}, q ≠ pid → some pid ≠ some q := fun hq heq => hq (Option.some.inj heq).symm
    have hparent := taskCreate_tf hcreate (hsome hne)
    obtain ⟨hother, hpar, hchild⟩ := copyParent_tf hcopy hne
    refine ⟨fun q hqp hqpid => ?_, fun v => ?_, fun pid' hpid' => ?_⟩
    · have hq : q ≠ pid := fun heq => hqpid (heq ▸ rfl)
      show (k₂.tasks q).tf = _
      rw [hother q hqp hq, taskCreate_tf hcreate (hsome hq)]
    · show ({ (k₂.tasks p).tf with regEax := v } : Trapframe) = _
      rw [hpar, hparent]
    · cases hpid'
      refine ⟨hfree, ?_⟩
      show (k₂.tasks pid).tf = _
      rw [hchild, hparent]

/-! ## `task_init_percpu` -/

/-- The first task of a CPU gets its entry point: the shell on the boot CPU, `idle_entry` on the
others. -/
theorem taskInitPercpu_tf {pid : Nat} (h : taskInitPercpu vm b k c = .ok k')
    (hfree : findFree k.tasks = some pid) :
    (k'.tasks pid).tf.tfEip = (if c = b.bootcpu then b.userEntry else b.idleEntry) ∧
      ∀ q, q ≠ pid → (k'.tasks q).tf = (k.tasks q).tf := by
  simp only [taskInitPercpu, bind_ok_iff] at h
  obtain ⟨⟨r, k₁⟩, hcreate, h⟩ := h
  rcases taskCreate_sched hcreate with ⟨rfl, -⟩ | ⟨pid', rfl, hfree', -⟩
  · cases h
  · obtain rfl := Option.some.inj (hfree'.symm.trans hfree)
    simp only at h
    split at h
    · cases h
    · rw [bind_ok_iff] at h
      obtain ⟨m, -, h⟩ := h
      cases h
      refine ⟨?_, fun q hq => ?_⟩
      · rw [Kernel.modCpu_tasks, Kernel.modTask_same]
      · rw [Kernel.modCpu_tasks, Kernel.modTask_other _ _ hq, Kernel.setMem_tasks,
          Kernel.modCpu_tasks]
        exact taskCreate_tf hcreate fun heq => hq (Option.some.inj heq).symm

/-! ## `do_syscall` -/

/-- What a system call of task `p` does to the saved frames. -/
structure CallFrames (k k' : Kernel M D) (p : Nat) (no : BitVec 32) (o : Outcome) : Prop where
  /-- Other live tasks keep theirs. -/
  other : ∀ q, q ≠ p → (k.tasks q).state ≠ .free → (k'.tasks q).tf = (k.tasks q).tf
  /-- The caller's changes in `eax` at most, -/
  eax : ∀ v, { (k'.tasks p).tf with regEax := v } = { (k.tasks p).tf with regEax := v }
  /-- and not at all when the call switches away. -/
  switched : ∀ r, o = .switched r → (k'.tasks p).tf = (k.tasks p).tf
  /-- A slot filled by a fork holds the caller's frame with `eax` zero. -/
  child : ∀ q, Syscall.ofNo no = some .fork → findFree k.tasks = some q →
    (k'.tasks q).state ≠ .free →
    o = .returned (BitVec.ofNat 32 q) ∧ (k'.tasks q).tf = { (k.tasks p).tf with regEax := 0 }
  /-- A fork that returns a pid returns that of the slot it filled. -/
  result : ∀ v, Syscall.ofNo no = some .fork → o = .returned v → v ≠ -1 →
    ∃ q, findFree k.tasks = some q ∧ v = BitVec.ofNat 32 q

/-- A call that is not `SYS_fork` and writes no frame. -/
theorem CallFrames.of_tf {no : BitVec 32} {o : Outcome}
    (htf : ∀ q, (k'.tasks q).tf = (k.tasks q).tf) (hno : Syscall.ofNo no ≠ some .fork) :
    CallFrames k k' p no o where
  other q _ _ := htf q
  eax v := by rw [htf]
  switched _ _ := htf p
  child _ h := absurd h hno
  result _ h := absurd h hno

theorem doSyscall_frames {no a1 a2 key : BitVec 32} {o : Outcome}
    (h : doSyscall vm b k c no a1 a2 key = .ok (o, k')) (hp : (k.cpus c).cpuTask = some p)
    (hlive : (k.tasks p).state ≠ .free) : CallFrames k k' p no o := by
  simp only [doSyscall, hp] at h
  cases hno : Syscall.ofNo no with
  | none =>
      simp only [hno] at h
      cases h
      exact .of_tf (fun _ => rfl) (by simp [hno])
  | some call =>
      simp only [hno] at h
      cases call with
      | fork =>
          simp only [bind_ok_iff] at h
          obtain ⟨⟨r, k₁⟩, hfork, h⟩ := h
          cases h
          obtain ⟨hother, heax, hchild⟩ := sysFork_tf hfork hp hlive
          refine ⟨fun q hq hq' => hother q hq ?_, heax, fun q hq => ?_, fun q _ hfree hnew => ?_,
            fun v _ hv hne => ?_⟩
          · intro hr
            exact hq' (findFree_some (hchild q hr).1).2
          · cases hq
          · rcases sysFork_sched hfork with ⟨rfl, hs⟩ | ⟨pid, rfl, hpid, -⟩
            · exact absurd ((hs.state q).symm.trans (findFree_some hfree).2) hnew
            · rw [hpid, Option.some.injEq] at hfree
              subst hfree
              exact ⟨rfl, (hchild pid rfl).2⟩
          · cases r with
            | none => exact absurd (Outcome.returned.inj hv).symm hne
            | some pid => exact ⟨pid, (hchild pid rfl).1, (Outcome.returned.inj hv).symm⟩
      | sleep =>
          rw [Except.ok.injEq, Prod.mk.injEq] at h
          obtain ⟨-, rfl⟩ := h
          refine .of_tf (fun q => ?_) (by simp [hno])
          rw [schedYield_tf, modTask_tf]
          exact fun _ => rfl
      | kill =>
          simp only [bind_ok_iff] at h
          obtain ⟨⟨r, k₁⟩, hkill, h⟩ := h
          cases h
          exact .of_tf (sysKill_tf hkill) (by simp [hno])
      | puts =>
          obtain ⟨-, -, h⟩ := bind_ok_iff.mp h
          cases h
          exact .of_tf (fun _ => rfl) (by simp [hno])
      | _ =>
          cases h
          exact .of_tf (fun _ => rfl) (by simp [hno])

/-! ## A fork, from the trap on -/

/-- `task_create` enters the caller as the parent. -/
theorem taskCreate_parentId {pid : Nat} (h : taskCreate vm k c = .ok (some pid, k'))
    (hp : (k.cpus c).cpuTask = some p) : (k'.tasks pid).parentId = (k.tasks p).taskId := by
  unfold taskCreate at h
  split at h
  · cases h
  · rename_i pid' hfree
    simp only [bind_ok_iff] at h
    obtain ⟨⟨d, m⟩, -, h⟩ := h
    cases d with
    | none => cases h
    | some d =>
        simp only [bind_ok_iff] at h
        obtain ⟨⟨done, m'⟩, -, h⟩ := h
        cases done with
        | false => cases h
        | true =>
            cases h
            simp only [Kernel.setMem_cpus, Kernel.modTask_cpus, hp, Kernel.modTask_same,
              Kernel.setMem_tasks]
            by_cases hq : p = pid
            · rw [hq, Kernel.modTask_same]
            · rw [Kernel.modTask_other _ _ hq]

theorem copyParent_parentId {pid : Nat} (h : copyParent vm k p pid = .ok k') (q : Nat) :
    (k'.tasks q).parentId = (k.tasks q).parentId := by
  have htf : ∀ (k : Kernel M D) (s : Nat) (f : Trapframe → Trapframe),
      ((k.modTask s fun t => { t with tf := f t.tf }).tasks q).parentId =
        (k.tasks q).parentId := by
    intro k s f
    by_cases hq : q = s
    · subst hq
      rw [Kernel.modTask_same]
    · rw [Kernel.modTask_other _ _ hq]
  obtain ⟨parent, child, m, m', -, -, -, -, rfl⟩ := copyParent_ok h
  exact ((htf _ pid fun tf => { tf with regEax := 0 }).trans
    (htf _ p fun tf => { tf with regEax := BitVec.ofNat 32 pid })).trans
    (htf k pid fun _ => (k.tasks p).tf)

theorem sysFork_parentId {pid : Nat} (h : sysFork vm b k c = .ok (some pid, k'))
    (hp : (k.cpus c).cpuTask = some p) : (k'.tasks pid).parentId = (k.tasks p).taskId := by
  simp only [sysFork, bind_ok_iff] at h
  obtain ⟨⟨r, k₁⟩, hcreate, h⟩ := h
  rcases taskCreate_sched hcreate with ⟨rfl, -⟩ | ⟨pid', rfl, -, hs⟩
  · cases h
  · simp only [bind_ok_iff] at h
    obtain ⟨k₂, hcopy, h⟩ := h
    cases h
    have hcur : (k₁.cpus c).cpuTask = some p := by
      rw [← hs.cpus]
      exact hp
    simp only [copyCurrent, hcur] at hcopy
    exact (copyParent_parentId hcopy pid).trans (taskCreate_parentId hcreate hp)

/-- The entry of a task that asks for a fork: its frame is saved, `sys_fork` runs, and the
result goes into its `eax`. -/
theorem step_sysFork {e : Entry} (h : Step vm b k e k') (hcall : callOf e.tf = .fork)
    (hp : (k.cpus e.cpu).cpuTask = some p) :
    ∃ r k₁, sysFork vm b (k.modTask p fun t => { t with tf := e.tf }) e.cpu = .ok (r, k₁) ∧
      (k' = k₁.modTask p fun t =>
        { t with tf := { t.tf with regEax := r.elim (-1) (BitVec.ofNat 32) } }) ∧
      e.resumed = resume k' p := by
  obtain ⟨-, h⟩ := h
  obtain ⟨hsys, hno⟩ := callOf_fork hcall
  have hcur : ((k.modTask p fun t => { t with tf := e.tf }).cpus e.cpu).cpuTask = some p := hp
  simp only [trapDispatch, hp, if_pos hsys, syscallHandler, Kernel.modTask_same, doSyscall, hcur, hno,
    bind_ok_iff] at h
  obtain ⟨⟨o, k₁⟩, ⟨⟨r, k₂⟩, hfork, ho⟩, h⟩ := h
  cases ho
  rw [Except.ok.injEq, Prod.mk.injEq] at h
  obtain ⟨hresumed, rfl⟩ := h
  refine ⟨r, _, hfork, ?_, hresumed.symm⟩
  cases r <;> rfl

/-- Task `p`, which trapped with the registers `tf`, has the child `pid`: what the task table
says of the two, and of the others. -/
structure ForkFrames (k k' : Kernel M D) (tf : Trapframe) (p pid : Nat) : Prop where
  slot : findFree k.tasks = some pid
  parent : (k'.tasks p).tf = { tf with regEax := BitVec.ofNat 32 pid }
  child : (k'.tasks pid).tf = { tf with regEax := 0 }
  parentId : (k'.tasks pid).parentId = (k.tasks p).taskId
  other : ∀ q, q ≠ p → q ≠ pid → (k'.tasks q).tf = (k.tasks q).tf

theorem step_forkFrames {e : Entry} (h : Step vm b k e k') (hcall : callOf e.tf = .fork)
    (hret : e.resumed.tf.regEax ≠ -1) (hp : (k.cpus e.cpu).cpuTask = some p)
    (hlive : (k.tasks p).state ≠ .free) :
    ∃ pid k₁, sysFork vm b (k.modTask p fun t => { t with tf := e.tf }) e.cpu = .ok (some pid, k₁) ∧
      (k' = k₁.modTask p fun t => { t with tf := { t.tf with regEax := BitVec.ofNat 32 pid } }) ∧
      e.resumed = resume k' p ∧ ForkFrames k k' e.tf p pid := by
  obtain ⟨r, k₁, hrun, hk', hresumed⟩ := step_sysFork h hcall hp
  have hsave := saveFrame_sched k p e.tf
  rw [hsave.state] at hlive
  obtain ⟨hother, hcaller, hchild⟩ := sysFork_tf hrun hp hlive
  have hself : (k'.tasks p).tf = { e.tf with regEax := r.elim (-1) (BitVec.ofNat 32) } := by
    rw [hk', Kernel.modTask_same, hcaller, Kernel.modTask_same]
  cases r with
  | none =>
      refine absurd ?_ hret
      rw [hresumed, resume, hself]
      rfl
  | some pid =>
      obtain ⟨hfree, hframe⟩ := hchild pid rfl
      have hpid : pid ≠ p := by
        rintro rfl
        exact hlive (findFree_some hfree).2
      have hkeep : ∀ q, q ≠ p → k'.tasks q = k₁.tasks q := by
        intro q hq
        rw [hk', Kernel.modTask_other _ _ hq]
      refine ⟨pid, k₁, hrun, hk', hresumed, hsave.findFree_congr.trans hfree, hself, ?_, ?_,
        fun q hqp hqpid => ?_⟩
      · rw [hkeep pid hpid, hframe, Kernel.modTask_same]
      · rw [hkeep pid hpid, sysFork_parentId hrun hp, Kernel.modTask_same]
      · rw [hkeep q hqp, hother q hqp fun heq => hqpid (Option.some.inj heq).symm,
          Kernel.modTask_other _ _ hqp]

end Nctuos
