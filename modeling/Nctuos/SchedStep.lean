import Nctuos.Sched
import Nctuos.Lib.FoldUpdate

/-!
# What one kernel entry does to the scheduler

Most of what `trap_dispatch` touches (trap frames, page directories, physical memory,
the tick counter) the scheduler never reads.  `SameSched` identifies two kernel states
that differ only there.  Up to `SameSched`, one kernel entry on CPU `c` has one of
five effects, listed once in `Effect`; `step_effect` is the inversion lemma, and no
later proof about the scheduler unfolds `trapDispatch` again.

The lemmas `*_congr` say that the scheduling operations respect `SameSched`, which is
what lets `Effect` be stated on the state *before* the trap frame is copied.
-/

namespace Nctuos

open Lib

variable {M D : Type}

/-! ## States the scheduler cannot tell apart -/

/-- Two kernel states with the same CPU records and the same scheduling fields in
every task. -/
structure SameSched (k k' : Kernel M D) : Prop where
  state : ∀ p, (k.tasks p).state = (k'.tasks p).state
  ticks : ∀ p, (k.tasks p).remindTicks = (k'.tasks p).remindTicks
  taskId : ∀ p, (k.tasks p).taskId = (k'.tasks p).taskId
  cpus : k.cpus = k'.cpus

namespace SameSched

variable {k k' k'' : Kernel M D}

@[refl] theorem refl (k : Kernel M D) : SameSched k k :=
  ⟨fun _ => rfl, fun _ => rfl, fun _ => rfl, rfl⟩

@[symm] theorem symm (h : SameSched k k') : SameSched k' k :=
  ⟨fun p => (h.state p).symm, fun p => (h.ticks p).symm, fun p => (h.taskId p).symm,
    h.cpus.symm⟩

@[trans] theorem trans (h : SameSched k k') (h' : SameSched k' k'') : SameSched k k'' :=
  ⟨fun p => (h.state p).trans (h'.state p), fun p => (h.ticks p).trans (h'.ticks p),
    fun p => (h.taskId p).trans (h'.taskId p), h.cpus.trans h'.cpus⟩

/-- Rewriting the frame or the page directory of a task is invisible. -/
theorem modTask (k : Kernel M D) (p : Nat) (f : Task D → Task D)
    (hs : ∀ t, (f t).state = t.state) (ht : ∀ t, (f t).remindTicks = t.remindTicks)
    (hid : ∀ t, (f t).taskId = t.taskId) : SameSched k (k.modTask p f) := by
  have key : ∀ q, ((k.modTask p f).tasks q).state = (k.tasks q).state ∧
      ((k.modTask p f).tasks q).remindTicks = (k.tasks q).remindTicks ∧
      ((k.modTask p f).tasks q).taskId = (k.tasks q).taskId := by
    intro q
    by_cases hq : q = p
    · subst hq
      simp [hs, ht, hid]
    · simp [k.modTask_other f hq]
  exact ⟨fun q => (key q).1.symm, fun q => (key q).2.1.symm, fun q => (key q).2.2.symm, rfl⟩

theorem setMem (k : Kernel M D) (m : M) : SameSched k (k.setMem m) :=
  ⟨fun _ => rfl, fun _ => rfl, fun _ => rfl, rfl⟩

/-- Applying one rewrite of a task record to two states the scheduler cannot tell
apart.  `f` and `g` may differ in what the scheduler does not read. -/
theorem modTask_congr (h : SameSched k k') (p : Nat) {f g : Task D → Task D}
    (hs : ∀ t t', t.state = t'.state → t.remindTicks = t'.remindTicks →
      t.taskId = t'.taskId → (f t).state = (g t').state ∧
        (f t).remindTicks = (g t').remindTicks ∧ (f t).taskId = (g t').taskId) :
    SameSched (k.modTask p f) (k'.modTask p g) := by
  have key : ∀ q, ((k.modTask p f).tasks q).state = ((k'.modTask p g).tasks q).state ∧
      ((k.modTask p f).tasks q).remindTicks = ((k'.modTask p g).tasks q).remindTicks ∧
      ((k.modTask p f).tasks q).taskId = ((k'.modTask p g).tasks q).taskId := by
    intro q
    by_cases hq : q = p
    · subst hq
      simpa using hs _ _ (h.state q) (h.ticks q) (h.taskId q)
    · rw [k.modTask_other f hq, k'.modTask_other g hq]
      exact ⟨h.state q, h.ticks q, h.taskId q⟩
  exact ⟨fun q => (key q).1, fun q => (key q).2.1, fun q => (key q).2.2, h.cpus⟩

theorem modCpu_congr (h : SameSched k k') (c : Nat) (f : CpuInfo → CpuInfo) :
    SameSched (k.modCpu c f) (k'.modCpu c f) :=
  ⟨h.state, h.ticks, h.taskId, by simp [Kernel.modCpu, h.cpus]⟩

/-! ### The scheduling operations respect `SameSched` -/

theorem schedYield_congr (h : SameSched k k') (c : Nat) :
    (schedYield k c).1 = (schedYield k' c).1 ∧
      SameSched (schedYield k c).2 (schedYield k' c).2 := by
  have hpick : pick (fun p => (k.tasks p).state) (k.cpus c) =
      pick (fun p => (k'.tasks p).state) (k'.cpus c) := by
    rw [funext h.state, h.cpus]
  unfold schedYield
  rw [hpick]
  cases pick (fun p => (k'.tasks p).state) (k'.cpus c) with
  | none => exact ⟨rfl, h⟩
  | some rqIdx =>
      refine ⟨by simp [h.cpus], ?_⟩
      simp only [h.cpus]
      refine modCpu_congr (modTask_congr h _ fun t t' _ _ hid => ?_) c _
      exact ⟨rfl, rfl, hid⟩

/-- The sleeper loop, task by task, reads and writes scheduling fields only. -/
theorem tickSleepers_congr (h : SameSched k k') (rq : Runqueue) :
    SameSched { k with tasks := tickSleepers k.tasks rq }
      { k' with tasks := tickSleepers k'.tasks rq } := by
  unfold tickSleepers
  -- the loop visits the same indices in both states, so the induction is on them
  induction List.range rq.total generalizing k k' with
  | nil => exact ⟨h.state, h.ticks, h.taskId, h.cpus⟩
  | cons i l ih =>
      rw [List.foldl_cons, List.foldl_cons]
      have step : SameSched (k.modTask (rq.runQueue i) tickSleeper)
          (k'.modTask (rq.runQueue i) tickSleeper) := by
        refine modTask_congr h _ fun t t' hs ht hid => ?_
        by_cases hsl : t'.state = .sleep
        · simp [tickSleeper, hs, hsl, ht, hid]
        · simp [tickSleeper, hs, hsl, ht, hid]
      exact ih step

theorem tickAll_congr (h : SameSched k k') (c p : Nat) :
    SameSched (tickAll k c p) (tickAll k' c p) := by
  have hrq : (k.cpus c).cpuRq = (k'.cpus c).cpuRq := by rw [h.cpus]
  rw [tickAll, tickAll, hrq]
  refine modTask_congr (tickSleepers_congr h _) p fun t t' hs ht hid => ?_
  exact ⟨hs, congrArg (fun x => wrap32 (x - 1)) ht, hid⟩

theorem setJiffies (k : Kernel M D) (n : Nat) : SameSched k { k with jiffies := n } :=
  ⟨fun _ => rfl, fun _ => rfl, fun _ => rfl, rfl⟩

theorem timerHandler_congr (h : SameSched k k') (c : Nat) :
    (timerHandler k c).1 = (timerHandler k' c).1 ∧
      SameSched (timerHandler k c).2 (timerHandler k' c).2 := by
  have h₀ : SameSched { k with jiffies := k.jiffies + 1 }
      { k' with jiffies := k'.jiffies + 1 } :=
    (setJiffies k _).symm.trans (h.trans (setJiffies k' _))
  have hc : (k.cpus c).cpuTask = (k'.cpus c).cpuTask := by rw [h.cpus]
  simp only [timerHandler, hc]
  cases (k'.cpus c).cpuTask with
  | none => exact ⟨rfl, h₀⟩
  | some p =>
      have h₁ := tickAll_congr h₀ c p
      simp only [h₁.ticks p]
      split
      · refine schedYield_congr (modTask_congr h₁ p fun t t' _ ht hid => ?_) c
        exact ⟨rfl, ht, hid⟩
      · exact ⟨rfl, h₁⟩

theorem findFree_congr (h : SameSched k k') : findFree k.tasks = findFree k'.tasks := by
  unfold findFree
  congr 1
  funext pid
  rw [h.state pid]

end SameSched

/-- The frame is saved, and nothing else has happened yet. -/
theorem saveFrame_sched (k : Kernel M D) (p : Nat) (tf : Trapframe) :
    SameSched k (k.modTask p fun t => { t with tf := tf }) :=
  SameSched.modTask k p _ (fun _ => rfl) (fun _ => rfl) fun _ => rfl

/-! ## The effect of one entry -/

/-- What a kernel entry asks the scheduler for. -/
inductive Call
  | fork
  | sleep (n : BitVec 32)
  | kill
  | timer
  | other
  deriving DecidableEq, Repr

/-- The request a system-call number and its first argument make. -/
def callOfNo (no a1 : BitVec 32) : Call :=
  match Syscall.ofNo no with
  | some .fork => .fork
  | some .sleep => .sleep a1
  | some .kill => .kill
  | _ => .other

/-- The request a trap frame carries: the trap number, and for a system call the
number in `eax` and the first argument in `edx`. -/
def callOf (tf : Trapframe) : Call :=
  if tf.tfTrapno.toNat = tSyscall then callOfNo tf.regEax tf.regEdx
  else if tf.tfTrapno.toNat = irqOffset + irqTimer then .timer
  else .other

theorem callOf_fork {tf : Trapframe} (h : callOf tf = .fork) :
    tf.tfTrapno.toNat = tSyscall ∧ Syscall.ofNo tf.regEax = some .fork := by
  unfold callOf at h
  split at h
  · rename_i hsys
    refine ⟨hsys, ?_⟩
    unfold callOfNo at h
    split at h
    · assumption
    · cases h
    · cases h
    · cases h
  · split at h <;> cases h

/-- Task `p` put to sleep for `n` ticks. -/
def asleep (k : Kernel M D) (p : Nat) (n : BitVec 32) : Kernel M D :=
  k.modTask p fun t => { t with remindTicks := n.toInt, state := .sleep }

/-- Task `pid` gone from CPU `c`: out of its queue, its slot free, `cpu_task` NULL. -/
def killed (k : Kernel M D) (c pid : Nat) : Kernel M D :=
  (k.modTask pid fun t => { t with state := .free }).modCpu c fun cpu =>
    { cpu with cpuRq := cpu.cpuRq.remove pid, cpuTask := none }

/-- Slot `pid` taken by a runnable task and dispatched to the least loaded CPU. -/
def forked (b : Boot) (k : Kernel M D) (pid : Nat) : Kernel M D :=
  (k.modTask pid fun t =>
    { t with taskId := pid, remindTicks := timeQuant, state := .runnable }).modCpu
      (leastLoaded b k.cpus) fun cpu => { cpu with cpuRq := cpu.cpuRq.append pid }

section Fields

variable {c c' pid q : Nat}

@[simp] theorem killed_cpus_same (k : Kernel M D) (c pid : Nat) :
    (killed k c pid).cpus c =
      { k.cpus c with cpuRq := (k.cpus c).cpuRq.remove pid, cpuTask := none } := by
  rw [killed, Kernel.modCpu_same, Kernel.modTask_cpus]

theorem killed_cpus_other (k : Kernel M D) (pid : Nat) (hne : c' ≠ c) :
    (killed k c pid).cpus c' = k.cpus c' := by
  rw [killed, Kernel.modCpu_other _ _ hne, Kernel.modTask_cpus]

@[simp] theorem killed_tasks_same (k : Kernel M D) (c pid : Nat) :
    (killed k c pid).tasks pid = { k.tasks pid with state := .free } := by
  rw [killed, Kernel.modCpu_tasks, Kernel.modTask_same]

theorem killed_tasks_other (k : Kernel M D) (c : Nat) (hne : q ≠ pid) :
    (killed k c pid).tasks q = k.tasks q := by
  rw [killed, Kernel.modCpu_tasks, Kernel.modTask_other _ _ hne]

theorem forked_cpus_same (b : Boot) (k : Kernel M D) (pid : Nat) :
    (forked b k pid).cpus (leastLoaded b k.cpus) =
      { k.cpus (leastLoaded b k.cpus) with
        cpuRq := (k.cpus (leastLoaded b k.cpus)).cpuRq.append pid } := by
  rw [forked, Kernel.modCpu_same, Kernel.modTask_cpus]

theorem forked_cpus_other (b : Boot) (k : Kernel M D) (pid : Nat)
    (hne : c ≠ leastLoaded b k.cpus) : (forked b k pid).cpus c = k.cpus c := by
  rw [forked, Kernel.modCpu_other _ _ hne, Kernel.modTask_cpus]

@[simp] theorem forked_tasks_same (b : Boot) (k : Kernel M D) (pid : Nat) :
    (forked b k pid).tasks pid =
      { k.tasks pid with taskId := pid, remindTicks := timeQuant, state := .runnable } := by
  rw [forked, Kernel.modCpu_tasks, Kernel.modTask_same]

theorem forked_tasks_other (b : Boot) (k : Kernel M D) (hne : q ≠ pid) :
    (forked b k pid).tasks q = k.tasks q := by
  rw [forked, Kernel.modCpu_tasks, Kernel.modTask_other _ _ hne]

end Fields

/-- `sys_kill` on CPU `c` really kills `pid`. -/
def KillActs (k : Kernel M D) (c pid : Nat) : Prop :=
  0 < pid ∧ pid < nrTasks ∧ 1 < (k.cpus c).cpuRq.total

instance (k : Kernel M D) (c pid : Nat) : Decidable (KillActs k c pid) :=
  inferInstanceAs (Decidable (_ ∧ _))

/-- **The effect of one entry** on CPU `c` whose current task is `p`: the task `q` the
CPU resumes and the state `k'`, up to what the scheduler does not read. -/
def Effect (b : Boot) (k : Kernel M D) (c p : Nat) (q : Nat) (k' : Kernel M D) :
    Call → Prop
  | .fork => q = p ∧ (SameSched k k' ∨
      ∃ pid, findFree k.tasks = some pid ∧ SameSched (forked b k pid) k')
  | .sleep n => q = (schedYield (asleep k p n) c).1.getD p ∧
      SameSched (schedYield (asleep k p n) c).2 k'
  | .kill => (KillActs k c (k.tasks p).taskId ∧
        q = (schedYield (killed k c (k.tasks p).taskId) c).1.getD p ∧
        SameSched (schedYield (killed k c (k.tasks p).taskId) c).2 k') ∨
      (¬ KillActs k c (k.tasks p).taskId ∧ q = p ∧ SameSched k k')
  | .timer => q = (timerHandler k c).1.getD p ∧ SameSched (timerHandler k c).2 k'
  | .other => q = p ∧ SameSched k k'

namespace SameSched

variable {k k' : Kernel M D}

theorem asleep_congr (h : SameSched k k') (p : Nat) (n : BitVec 32) :
    SameSched (asleep k p n) (asleep k' p n) := by
  refine modTask_congr h p fun t t' _ _ hid => ?_
  exact ⟨rfl, rfl, hid⟩

theorem killed_congr (h : SameSched k k') (c pid : Nat) :
    SameSched (killed k c pid) (killed k' c pid) := by
  refine modCpu_congr (modTask_congr h pid fun t t' _ ht hid => ?_) c _
  exact ⟨rfl, ht, hid⟩

theorem forked_congr (h : SameSched k k') (b : Boot) (pid : Nat) :
    SameSched (forked b k pid) (forked b k' pid) := by
  rw [forked, forked, h.cpus]
  refine modCpu_congr (modTask_congr h pid fun t t' _ _ _ => ?_) _ _
  exact ⟨rfl, rfl, rfl⟩

end SameSched

namespace Effect

variable {b : Boot} {k k₀ k' k'' : Kernel M D} {c p q : Nat} {call : Call}

theorem trans_same (h : Effect b k c p q k' call) (h' : SameSched k' k'') :
    Effect b k c p q k'' call := by
  cases call with
  | fork =>
      refine ⟨h.1, h.2.imp (fun hs => hs.trans h') ?_⟩
      rintro ⟨pid, hfree, hs⟩
      exact ⟨pid, hfree, hs.trans h'⟩
  | sleep n => exact ⟨h.1, h.2.trans h'⟩
  | kill =>
      refine Or.imp ?_ ?_ h
      · exact fun hk => ⟨hk.1, hk.2.1, hk.2.2.trans h'⟩
      · exact fun hk => ⟨hk.1, hk.2.1, hk.2.2.trans h'⟩
  | timer => exact ⟨h.1, h.2.trans h'⟩
  | other => exact ⟨h.1, h.2.trans h'⟩

/-- The effect does not depend on what the scheduler does not read. -/
theorem of_same (hk : SameSched k k₀) (h : Effect b k₀ c p q k' call) :
    Effect b k c p q k' call := by
  cases call with
  | fork =>
      refine ⟨h.1, h.2.imp (fun hs => hk.trans hs) ?_⟩
      rintro ⟨pid, hfree, hs⟩
      exact ⟨pid, hk.findFree_congr.trans hfree, (hk.forked_congr b pid).trans hs⟩
  | sleep n =>
      have hy := (hk.asleep_congr p n).schedYield_congr c
      exact ⟨h.1.trans (by rw [hy.1]), hy.2.trans h.2⟩
  | kill =>
      have hacts : KillActs k₀ c (k₀.tasks p).taskId ↔ KillActs k c (k.tasks p).taskId := by
        rw [KillActs, KillActs, hk.cpus, hk.taskId p]
      rcases h with ⟨ha, hq, hs⟩ | ⟨ha, hq, hs⟩
      · have hkill : SameSched (killed k c (k.tasks p).taskId)
            (killed k₀ c (k₀.tasks p).taskId) := by
          rw [hk.taskId p]
          exact hk.killed_congr c _
        have hy := hkill.schedYield_congr c
        exact Or.inl ⟨hacts.mp ha, hq.trans (by rw [hy.1]), hy.2.trans hs⟩
      · exact Or.inr ⟨fun h => ha (hacts.mpr h), hq, hk.trans hs⟩
  | timer =>
      have ht := hk.timerHandler_congr c
      exact ⟨h.1.trans (by rw [ht.1]), ht.2.trans h.2⟩
  | other => exact ⟨h.1, hk.trans h.2⟩

end Effect

/-! ## Inversion, function by function -/

theorem taskCreate_sched {vm : Vm M D} {k k' : Kernel M D} {c : Nat} {r : Option Nat}
    (h : taskCreate vm k c = .ok (r, k')) :
    (r = none ∧ SameSched k k') ∨
      ∃ pid, r = some pid ∧ findFree k.tasks = some pid ∧
        SameSched (k.modTask pid fun t =>
          { t with taskId := pid, remindTicks := timeQuant, state := .runnable }) k' := by
  unfold taskCreate at h
  cases hfree : findFree k.tasks with
  | none =>
      rw [hfree] at h
      cases h
      exact Or.inl ⟨rfl, .refl k⟩
  | some pid =>
      simp only [hfree, bind_ok_iff] at h
      obtain ⟨⟨d, m⟩, -, h⟩ := h
      cases d with
      | none => cases h
      | some d =>
          simp only [bind_ok_iff] at h
          obtain ⟨⟨ok, m'⟩, -, h⟩ := h
          -- the page directory is stored whether or not the stack could be built
          have hdir : SameSched k
              ((k.modTask pid fun t => { t with pgdir := some d }).setMem m') := by
            refine SameSched.trans ?_ (SameSched.setMem _ m')
            exact SameSched.modTask k pid _ (fun _ => rfl) (fun _ => rfl) fun _ => rfl
          cases ok with
          | false =>
              cases h
              exact Or.inl ⟨rfl, hdir⟩
          | true =>
              cases h
              refine Or.inr ⟨pid, rfl, rfl, ?_⟩
              refine SameSched.modTask_congr hdir pid fun t t' _ _ _ => ?_
              exact ⟨rfl, rfl, rfl⟩

/-- All there is to a copy that returns: two operations on the memory, and three frames. -/
theorem copyParent_ok {vm : Vm M D} {k k' : Kernel M D} {p pid : Nat}
    (h : copyParent vm k p pid = .ok k') :
    ∃ parent child m₁ m₂, (k.tasks p).pgdir = some parent ∧ (k.tasks pid).pgdir = some child ∧
      stackVas.foldlM (fun m va => vm.copyPage parent child va m) k.mem = .ok m₁ ∧
      vm.mapUser child m₁ = .ok m₂ ∧
      k' = (((k.modTask pid fun t => { t with tf := (k.tasks p).tf }).setMem m₂).modTask p fun t =>
        { t with tf := { t.tf with regEax := BitVec.ofNat 32 pid } }).modTask pid fun t =>
          { t with tf := { t.tf with regEax := 0 } } := by
  have hpgdir : ∀ q, ((k.modTask pid fun t => { t with tf := (k.tasks p).tf }).tasks q).pgdir =
      (k.tasks q).pgdir := by
    intro q
    by_cases hq : q = pid
    · subst hq
      rw [Kernel.modTask_same]
    · rw [Kernel.modTask_other _ _ hq]
  unfold copyParent at h
  simp only [hpgdir] at h
  split at h
  · rename_i parent child hparent hchild
    simp only [bind_ok_iff] at h
    obtain ⟨m₁, hcopy, m₂, hmap, h⟩ := h
    cases h
    exact ⟨parent, child, m₁, m₂, hparent, hchild, hcopy, hmap, rfl⟩
  · cases h

theorem copyParent_sched {vm : Vm M D} {k k' : Kernel M D} {p pid : Nat}
    (h : copyParent vm k p pid = .ok k') : SameSched k k' := by
  have htf : ∀ (k : Kernel M D) (q : Nat) (f : Trapframe → Trapframe),
      SameSched k (k.modTask q fun t => { t with tf := f t.tf }) := fun k q f =>
    SameSched.modTask k q _ (fun _ => rfl) (fun _ => rfl) fun _ => rfl
  obtain ⟨parent, child, m, m', -, -, -, -, rfl⟩ := copyParent_ok h
  refine (htf k pid fun _ => (k.tasks p).tf).trans ?_
  refine (SameSched.setMem _ m').trans ?_
  exact (htf _ p fun tf => { tf with regEax := BitVec.ofNat 32 pid }).trans
    (htf _ pid fun tf => { tf with regEax := 0 })

theorem sysFork_sched {vm : Vm M D} {b : Boot} {k k' : Kernel M D} {c : Nat}
    {r : Option Nat} (h : sysFork vm b k c = .ok (r, k')) :
    (r = none ∧ SameSched k k') ∨
      ∃ pid, r = some pid ∧ findFree k.tasks = some pid ∧ SameSched (forked b k pid) k' := by
  simp only [sysFork, bind_ok_iff] at h
  obtain ⟨⟨r₁, k₁⟩, hcreate, h⟩ := h
  rcases taskCreate_sched hcreate with ⟨rfl, hsame⟩ | ⟨pid, rfl, hfree, hsame⟩
  · cases h
    exact Or.inl ⟨rfl, hsame⟩
  · simp only [bind_ok_iff] at h
    obtain ⟨k₂, hcopy, h⟩ := h
    cases h
    have hcopied : SameSched k₁ k₂ := by
      unfold copyCurrent at hcopy
      split at hcopy
      · cases hcopy
        exact .refl _
      · exact copyParent_sched hcopy
    refine Or.inr ⟨pid, rfl, hfree, ?_⟩
    have hk₂ := hsame.trans hcopied
    have hcpus : k.cpus = k₂.cpus := hk₂.cpus
    rw [forked, hcpus]
    exact SameSched.modCpu_congr hk₂ _ _

theorem reap_cpuTask (k : Kernel M D) (c pid : Nat) (m : M) :
    ((reap k c pid m).cpus c).cpuTask = (k.cpus c).cpuTask := by
  simp [reap]

theorem reap_taskId (k : Kernel M D) (c pid q : Nat) (m : M) :
    ((reap k c pid m).tasks q).taskId = (k.tasks q).taskId := by
  by_cases hq : q = pid
  · subst hq
    simp [reap]
  · simp [reap, Kernel.modTask_other _ _ hq]

/-- Clearing `cpu_task` after the removal gives the killed state. -/
theorem killed_sameSched_reap (k : Kernel M D) (c pid : Nat) (m : M) :
    SameSched (killed k c pid)
      ((reap k c pid m).modCpu c fun cpu => { cpu with cpuTask := none }) := by
  refine ⟨fun _ => rfl, fun _ => rfl, fun _ => rfl, ?_⟩
  simp [killed, reap, Kernel.modCpu, Kernel.modTask, Kernel.setMem]

/-- `sys_kill` of the calling task: `pid` is the `task_id` of `cpu_task`. -/
theorem sysKill_sched {vm : Vm M D} {k k' : Kernel M D} {c p : Nat} {r : Option Nat}
    (hp : (k.cpus c).cpuTask = some p)
    (h : sysKill vm k c (k.tasks p).taskId = .ok (r, k')) :
    (KillActs k c (k.tasks p).taskId ∧
        r = (schedYield (killed k c (k.tasks p).taskId) c).1 ∧
        SameSched (schedYield (killed k c (k.tasks p).taskId) c).2 k') ∨
      (¬ KillActs k c (k.tasks p).taskId ∧ r = none ∧ SameSched k k') := by
  generalize hpid : (k.tasks p).taskId = pid at h ⊢
  unfold sysKill at h
  by_cases hacts : 0 < pid ∧ pid < nrTasks ∧ 1 < (k.cpus c).cpuRq.total
  · rw [if_pos hacts, bind_ok_iff] at h
    obtain ⟨m, -, h⟩ := h
    simp only [reap_cpuTask, hp, reap_taskId, hpid, if_true, Except.ok.injEq] at h
    have hyield := SameSched.schedYield_congr (killed_sameSched_reap k c pid m) c
    rw [h] at hyield
    exact Or.inl ⟨hacts, hyield.1.symm, hyield.2⟩
  · rw [if_neg hacts] at h
    cases h
    exact Or.inr ⟨hacts, rfl, .refl k⟩

/-- The task that runs after `do_syscall` when the caller was `p`. -/
def Outcome.resumed (p : Nat) : Outcome → Nat
  | .returned _ => p
  | .switched q => q

theorem Outcome.resumed_ofYield (p : Nat) (r : Option Nat) :
    (Outcome.ofYield r).resumed p = r.getD p := by
  cases r <;> rfl

theorem doSyscall_effect {vm : Vm M D} {b : Boot} {k k' : Kernel M D} {c p : Nat}
    {no a1 a2 key : BitVec 32} {o : Outcome} (hp : (k.cpus c).cpuTask = some p)
    (h : doSyscall vm b k c no a1 a2 key = .ok (o, k')) :
    Effect b k c p (o.resumed p) k' (callOfNo no a1) := by
  have quiet : ∀ retVal, (Except.ok (Outcome.returned retVal, k) : Except Stop _) =
      .ok (o, k') → Effect b k c p (o.resumed p) k' .other := by
    intro retVal h
    cases h
    exact ⟨rfl, .refl k⟩
  unfold doSyscall at h
  unfold callOfNo
  simp only [hp] at h
  cases hno : Syscall.ofNo no with
  | none => exact quiet _ (by simpa [hno] using h)
  | some call =>
      rw [hno] at h
      cases call with
      | fork =>
          rw [bind_ok_iff] at h
          obtain ⟨⟨r, k₁⟩, hfork, h⟩ := h
          cases h
          refine ⟨rfl, ?_⟩
          rcases sysFork_sched hfork with ⟨-, hs⟩ | ⟨pid, -, hfree, hs⟩
          · exact Or.inl hs
          · exact Or.inr ⟨pid, hfree, hs⟩
      | sleep =>
          cases h
          exact ⟨Outcome.resumed_ofYield p _, .refl _⟩
      | kill =>
          rw [bind_ok_iff] at h
          obtain ⟨⟨r, k₁⟩, hkill, h⟩ := h
          cases h
          rw [Effect, Outcome.resumed_ofYield]
          rcases sysKill_sched hp hkill with ⟨ha, hr, hs⟩ | ⟨ha, hr, hs⟩
          · exact Or.inl ⟨ha, by rw [hr], hs⟩
          · exact Or.inr ⟨ha, by rw [hr]; rfl, hs⟩
      | puts =>
          obtain ⟨-, -, h⟩ := bind_ok_iff.mp h
          exact quiet _ h
      | _ => exact quiet _ h

theorem syscallHandler_effect {vm : Vm M D} {b : Boot} {k k' : Kernel M D} {c p : Nat}
    {key : BitVec 32} {r : Resume} (hp : (k.cpus c).cpuTask = some p)
    (h : syscallHandler vm b k c p key = .ok (r, k')) :
    Effect b k c p r.pid k'
      (callOfNo (k.tasks p).tf.regEax (k.tasks p).tf.regEdx) := by
  simp only [syscallHandler, bind_ok_iff] at h
  obtain ⟨⟨o, k₁⟩, hcall, h⟩ := h
  have heff := doSyscall_effect hp hcall
  cases o with
  | switched q =>
      cases h
      exact heff
  | returned retVal =>
      cases h
      exact heff.trans_same
        (SameSched.modTask _ _ _ (fun _ => rfl) (fun _ => rfl) fun _ => rfl)

/-- **The inversion lemma.**  A kernel entry happens on a CPU whose `cpu_task` is not
NULL, and its effect on the scheduler is the one its trap frame asks for. -/
theorem step_effect {vm : Vm M D} {b : Boot} {k k' : Kernel M D} {e : Entry}
    (h : Step vm b k e k') :
    e.cpu < b.ncpu ∧ ∃ p, (k.cpus e.cpu).cpuTask = some p ∧
      Effect b k e.cpu p e.resumed.pid k' (callOf e.tf) := by
  obtain ⟨cpu, tf, key, resumed⟩ := e
  obtain ⟨hcpu, h⟩ := h
  refine ⟨hcpu, ?_⟩
  simp only [trapDispatch] at h ⊢
  cases hp : (k.cpus cpu).cpuTask with
  | none =>
      rw [hp] at h
      cases h
  | some p =>
      refine ⟨p, rfl, ?_⟩
      simp only [hp] at h
      refine Effect.of_same (saveFrame_sched k p tf) ?_
      unfold callOf
      split at h
      · rename_i hsys
        have heff := syscallHandler_effect (p := p) (by simpa using hp) h
        simp only [Kernel.modTask_same] at heff
        rw [if_pos hsys]
        exact heff
      · rename_i hsys
        rw [if_neg hsys]
        split at h
        · rename_i htimer
          rw [if_pos htimer]
          cases h
          exact ⟨rfl, .refl _⟩
        · rename_i htimer
          rw [if_neg htimer]
          split at h
          · cases h
            exact ⟨rfl, .refl _⟩
          · split at h <;> cases h

end Nctuos
