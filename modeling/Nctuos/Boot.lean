import Nctuos.CurrentTask
import Mathlib.Data.List.Nodup

/-!
# From boot on

`bootAll` runs `task_init_percpu` on every CPU, the boot CPU first.  `BootInv l` is
the shape of the kernel when the CPUs of the list `l` are up: the `j`-th of them runs
task `j`, alone in its queue, and every other task slot is free.  Once all CPUs are up
this gives every invariant of the scheduler at once (`boot_*`), and the runs that
start there keep them.

The last section assembles the result about the run queues.  The one assumption on
the tasks is that the task a CPU starts with never sleeps and never kills itself; it
is what anchors each queue (`Anchored`).
-/

namespace Nctuos

open Lib

variable {M D : Type}

/-! ## `task_init_percpu`, up to what the scheduler reads -/

/-- CPU `c` started on the new task `pid`. -/
def started (k : Kernel M D) (c pid : Nat) : Kernel M D :=
  (k.modTask pid fun t =>
    { t with taskId := pid, remindTicks := timeQuant, state := .running }).modCpu c fun cpu =>
      { cpu with
        cpuTask := some pid
        cpuRq := { total := 1, currentIndex := 0,
                   runQueue := Function.update Runqueue.zero.runQueue 0 pid } }

theorem taskInitPercpu_sched {vm : Vm M D} {b : Boot} {k k' : Kernel M D} {c : Nat}
    (h : taskInitPercpu vm b k c = .ok k') :
    ∃ pid, findFree k.tasks = some pid ∧ SameSched (started k c pid) k' := by
  simp only [taskInitPercpu, bind_ok_iff] at h
  obtain ⟨⟨r, k₁⟩, hcreate, h⟩ := h
  rcases taskCreate_sched hcreate with ⟨rfl, -⟩ | ⟨pid, rfl, hfree, hs⟩
  · cases h
  · refine ⟨pid, hfree, ?_⟩
    simp only at h
    split at h
    · cases h
    · simp only [bind_ok_iff] at h
      obtain ⟨m, -, h⟩ := h
      cases h
      refine ⟨fun q => ?_, fun q => ?_, fun q => ?_, ?_⟩
      · by_cases hq : q = pid
        · subst hq
          simp [started]
        · simpa [started, Kernel.modTask_other _ _ hq] using hs.state q
      · have := hs.ticks q
        by_cases hq : q = pid
        · subst hq
          simpa [started] using this
        · simpa [started, Kernel.modTask_other _ _ hq] using this
      · have := hs.taskId q
        by_cases hq : q = pid
        · subst hq
          simpa [started] using this
        · simpa [started, Kernel.modTask_other _ _ hq] using this
      · have hcpus : k.cpus = k₁.cpus := hs.cpus
        funext c'
        by_cases hc : c' = c
        · subst hc
          simp [started, hcpus]
        · simp [started, Kernel.modCpu_other _ _ hc, hcpus]

/-! ## The CPUs come up one after the other -/

/-- The kernel when exactly the CPUs of `l` have run `task_init_percpu`, in order. -/
structure BootInv (l : List Nat) (k : Kernel M D) : Prop where
  onCpu : ∀ p, p < l.length → OnCpu (k.tasks p) ∧ (k.tasks p).taskId = p
  free : ∀ p, l.length ≤ p → (k.tasks p).state = .free
  cpu : ∀ c ∈ l, (k.cpus c).cpuTask = some (l.idxOf c) ∧ (k.cpus c).cpuRq.total = 1 ∧
    (k.cpus c).cpuRq.currentIndex = 0 ∧ (k.cpus c).cpuRq.runQueue 0 = l.idxOf c

namespace BootInv

variable {l : List Nat} {k k' : Kernel M D} {c : Nat}

theorem init (m : M) : BootInv [] (Kernel.init m : Kernel M D) where
  onCpu p hp := absurd hp (Nat.not_lt_zero p)
  free _ _ := rfl
  cpu _ hc := absurd hc List.not_mem_nil

theorem congr (h : BootInv l k) (hs : SameSched k k') : BootInv l k' where
  onCpu p hp :=
    ⟨(h.onCpu p hp).1.congr (hs.state p).symm (hs.ticks p).symm,
      (hs.taskId p).symm.trans (h.onCpu p hp).2⟩
  free p hp := (hs.state p).symm.trans (h.free p hp)
  cpu c hc := by
    rw [← hs.cpus]
    exact h.cpu c hc

/-- The next free slot is the next number. -/
theorem findFree_eq (h : BootInv l k) (hlt : l.length < nrTasks) :
    findFree k.tasks = some l.length := by
  rw [findFree, List.find?_range_eq_some]
  refine ⟨by simp [h.free l.length le_rfl], List.mem_range.mpr hlt, fun j hj => ?_⟩
  simp [(h.onCpu j hj).1.running]

theorem started (h : BootInv l k) (hc : c ∉ l) : BootInv (l ++ [c]) (started k c l.length) where
  onCpu p hp := by
    by_cases hlast : p = l.length
    · subst hlast
      refine ⟨⟨?_, ?_, ?_⟩, ?_⟩ <;> simp [Nctuos.started, timeQuant]
    · have hp' : p < l.length := by
        rw [List.length_append, List.length_singleton] at hp
        omega
      simpa [Nctuos.started, Kernel.modTask_other _ _ hlast] using h.onCpu p hp'
  free p hp := by
    rw [List.length_append, List.length_singleton] at hp
    have hne : p ≠ l.length := by omega
    simpa [Nctuos.started, Kernel.modTask_other _ _ hne] using h.free p (by omega)
  cpu c' hc' := by
    by_cases hcc : c' = c
    · subst hcc
      rw [List.idxOf_append_of_notMem hc]
      simp [Nctuos.started]
    · have hmem : c' ∈ l := by simpa [hcc] using hc'
      rw [List.idxOf_append_of_mem hmem]
      simpa [Nctuos.started, Kernel.modCpu_other _ _ hcc] using h.cpu c' hmem

/-- One more CPU. -/
theorem next {vm : Vm M D} {b : Boot} (h : BootInv l k) (hc : c ∉ l) (hlt : l.length < nrTasks)
    (hrun : taskInitPercpu vm b k c = .ok k') : BootInv (l ++ [c]) k' := by
  obtain ⟨pid, hfree, hs⟩ := taskInitPercpu_sched hrun
  rw [h.findFree_eq hlt, Option.some.injEq] at hfree
  subst hfree
  exact (h.started hc).congr hs

end BootInv

namespace Boot

variable (b : Boot)

theorem mem_order {c : Nat} : c ∈ b.order ↔ c < b.ncpu := by
  have hboot := b.bootcpu_lt
  by_cases hc : c = b.bootcpu
  · simp [Boot.order, hc, hboot]
  · simp [Boot.order, hc]

theorem nodup_order : b.order.Nodup := by
  refine List.nodup_cons.mpr ⟨by simp, ?_⟩
  exact List.nodup_range.filter _

theorem length_order_le : b.order.length ≤ nrTasks := by
  have hsub : b.order ⊆ List.range b.ncpu := fun c hc =>
    List.mem_range.mpr (b.mem_order.mp hc)
  have hle := (List.subperm_of_subset b.nodup_order hsub).length_le
  rw [List.length_range] at hle
  exact hle.trans (b.ncpu_le.trans (by decide))

end Boot

section AfterBoot

variable {vm : Vm M D} {b : Boot} {m : M} {k₀ : Kernel M D}

/-- What every `task_init_percpu` keeps holds after the loop over the CPUs. -/
theorem bootAll_induction {P : List Nat → Kernel M D → Prop} (hinit : P [] (Kernel.init m))
    (hstep : ∀ l k c k', BootInv l k → P l k → c ∉ l → l.length < nrTasks →
      taskInitPercpu vm b k c = .ok k' → P (l ++ [c]) k')
    (h : bootAll vm b m = .ok k₀) : BootInv b.order k₀ ∧ P b.order k₀ := by
  refine foldlM_ok_induction (P := fun l k => l.Nodup → l.length ≤ nrTasks → BootInv l k ∧ P l k)
    (fun _ _ => ⟨BootInv.init m, hinit⟩) ?_ h b.nodup_order b.length_order_le
  intro l k c k' ih hc hnodup hlen
  obtain ⟨hl, -, hdisj⟩ := List.nodup_append.mp hnodup
  have hnew : c ∉ l := fun hmem => hdisj c hmem c (List.mem_singleton_self c) rfl
  rw [List.length_append, List.length_singleton] at hlen
  obtain ⟨hinv, hP⟩ := ih hl (by omega)
  exact ⟨hinv.next hnew hlen hc, hstep l k c k' hinv hP hnew hlen hc⟩

theorem bootInv_of_bootAll (h : bootAll vm b m = .ok k₀) : BootInv b.order k₀ :=
  (bootAll_induction (P := fun _ _ => True) trivial (fun _ _ _ _ _ _ _ _ _ => trivial) h).1

/-- The queues after boot hold one task each. -/
theorem boot_queueInv (h : bootAll vm b m = .ok k₀) : QueueInv b k₀ := by
  have hb := bootInv_of_bootAll h
  have hcpu : ∀ c, c < b.ncpu → _ := fun c hc => hb.cpu c (b.mem_order.mpr hc)
  have hidx : ∀ c, c < b.ncpu → b.order.idxOf c < b.order.length :=
    fun c hc => List.idxOf_lt_length_iff.mpr (b.mem_order.mpr hc)
  have hentry : ∀ c i, c < b.ncpu → i < (k₀.cpus c).cpuRq.total →
      i = 0 ∧ (k₀.cpus c).cpuRq.runQueue i = b.order.idxOf c := by
    intro c i hc hi
    obtain ⟨-, htotal, -, hrq⟩ := hcpu c hc
    obtain rfl : i = 0 := by omega
    exact ⟨rfl, hrq⟩
  refine
    { total_pos := ?_, pid_lt := ?_, inj := ?_, live := ?_, taskId := ?_, current := ?_,
      running := ?_ }
  · intro c hc
    rw [(hcpu c hc).2.1]
    exact Nat.one_pos
  · intro c i hc hi
    rw [(hentry c i hc hi).2]
    exact Nat.lt_of_lt_of_le (hidx c hc) b.length_order_le
  · intro c c' i j hc hc' hi hj heq
    obtain ⟨rfl, hi⟩ := hentry c i hc hi
    obtain ⟨rfl, hj⟩ := hentry c' j hc' hj
    rw [hi, hj] at heq
    exact ⟨(List.idxOf_inj (b.mem_order.mpr hc)).mp heq, rfl⟩
  · intro p hp
    constructor
    · intro hs
      have hlt : p < b.order.length := by
        by_contra hge
        exact hs (hb.free p (Nat.le_of_not_lt hge))
      -- the CPU brought up `p`-th is the one that runs task `p`
      have hc : b.order[p] < b.ncpu := b.mem_order.mp (List.getElem_mem hlt)
      obtain ⟨-, htotal, -, hrq⟩ := hcpu _ hc
      refine ⟨b.order[p], 0, hc, by omega, ?_⟩
      rw [hrq, b.nodup_order.idxOf_getElem p hlt]
    · rintro ⟨c, i, hc, hi, rfl⟩
      rw [(hentry c i hc hi).2, (hb.onCpu _ (hidx c hc)).1.running]
      decide
  · intro p hp hs
    have hlt : p < b.order.length := by
      by_contra hge
      exact hs (hb.free p (Nat.le_of_not_lt hge))
    exact (hb.onCpu p hlt).2
  · intro c p hc hp
    obtain ⟨htask, htotal, hcur, hrq⟩ := hcpu c hc
    rw [hp, Option.some.injEq] at htask
    rw [hcur, htotal, hrq, htask]
    exact ⟨Nat.one_pos, rfl⟩
  · intro c i hc hi _
    rw [(hentry c i hc hi).2]
    exact (hcpu c hc).1

theorem boot_running (h : bootAll vm b m = .ok k₀) : Running b k₀ := by
  intro c p hc hp
  have hb := bootInv_of_bootAll h
  have hmem := b.mem_order.mpr hc
  rw [(hb.cpu c hmem).1, Option.some.injEq] at hp
  rw [← hp]
  exact (hb.onCpu _ (List.idxOf_lt_length_iff.mpr hmem)).1

theorem boot_manned (h : bootAll vm b m = .ok k₀) : Manned b k₀ := fun c hc =>
  ⟨_, ((bootInv_of_bootAll h).cpu c (b.mem_order.mpr hc)).1⟩

/-- The task CPU `c` starts with. -/
def initialTask (k₀ : Kernel M D) (c : Nat) : Nat := ((k₀.cpus c).cpuTask).getD 0

theorem boot_anchored (h : bootAll vm b m = .ok k₀) : Anchored b (initialTask k₀) k₀ := by
  intro c hc
  obtain ⟨p, hp⟩ := boot_manned h c hc
  have hinit : initialTask k₀ c = p := by rw [initialTask, hp, Option.getD_some]
  rw [hinit]
  exact ⟨(boot_queueInv h).current_queued hc hp, Or.inl (boot_running h c p hc hp).running⟩

end AfterBoot

/-! ## Room in the queues -/

section Room

variable {b : Boot} {k : Kernel M D} {c : Nat}

/-- A queue has no more entries than there are pids it may hold. -/
theorem QueueInv.total_le_card (h : QueueInv b k) (hc : c < b.ncpu) (s : Finset Nat)
    (hs : ∀ q, Queued k c q → q ∈ s) : (k.cpus c).cpuRq.total ≤ s.card := by
  rw [← Finset.card_range (k.cpus c).cpuRq.total]
  refine Finset.card_le_card_of_injOn (k.cpus c).cpuRq.runQueue (fun i hi => ?_) ?_
  · exact Finset.mem_coe.mpr (hs _ ⟨i, Finset.mem_range.mp hi, rfl⟩)
  · intro i hi j hj heq
    exact (h.inj c c i j hc hc (Finset.mem_range.mp hi) (Finset.mem_range.mp hj) heq).2

theorem QueueInv.total_le (h : QueueInv b k) (hc : c < b.ncpu) :
    (k.cpus c).cpuRq.total ≤ nrTasks := by
  have hle := h.total_le_card hc (Finset.range nrTasks) fun q hq =>
    Finset.mem_range.mpr (h.queued_live hc hq).1
  rwa [Finset.card_range] at hle

/-- While a slot is free, no queue is full. -/
theorem QueueInv.total_lt (h : QueueInv b k) (hc : c < b.ncpu) {pid : Nat}
    (hpid : findFree k.tasks = some pid) : (k.cpus c).cpuRq.total < nrTasks := by
  obtain ⟨hlt, hfree⟩ := findFree_some hpid
  have hle := h.total_le_card hc ((Finset.range nrTasks).erase pid) fun q hq => by
    obtain ⟨hq_lt, hq_live⟩ := h.queued_live hc hq
    refine Finset.mem_erase.mpr ⟨?_, Finset.mem_range.mpr hq_lt⟩
    rintro rfl
    exact hq_live hfree
  rw [Finset.card_erase_of_mem (Finset.mem_range.mpr hlt), Finset.card_range] at hle
  omega

end Room

/-- The index `sys_fork` appends its child at, when it gets as far as the append. -/
def forkIndex (vm : Vm M D) (b : Boot) (k : Kernel M D) (c : Nat) :
    Except Stop (Option Nat) := do
  let r ← taskCreate vm k c
  match r.1 with
  | none => .ok none
  | some pid =>
      let k ← copyCurrent vm r.2 c pid
      .ok (some (k.cpus (leastLoaded b k.cpus)).cpuRq.total)

theorem forkIndex_lt {vm : Vm M D} {b : Boot} {k : Kernel M D} {c i : Nat}
    (h : QueueInv b k) (hi : forkIndex vm b k c = .ok (some i)) : i < nrTasks := by
  simp only [forkIndex, bind_ok_iff] at hi
  obtain ⟨⟨r, k₁⟩, hcreate, hi⟩ := hi
  rcases taskCreate_sched hcreate with ⟨rfl, -⟩ | ⟨pid, rfl, hfree, hs⟩
  · cases hi
  · simp only [bind_ok_iff] at hi
    obtain ⟨k₂, hcopy, hi⟩ := hi
    cases hi
    -- neither `task_create` nor the copy touches a CPU record
    have hcpus : k₂.cpus = k.cpus := by
      refine Eq.trans (Eq.symm ?_) hs.cpus.symm
      unfold copyCurrent at hcopy
      split at hcopy
      · cases hcopy
        rfl
      · exact (copyParent_sched hcopy).cpus
    rw [hcpus]
    exact h.total_lt (leastLoaded_lt b k.cpus) hfree

/-! ## The run queues in every reachable state -/

/-- The run queues as the scheduler's code takes them to be. -/
structure RunQueuesOk (b : Boot) (k : Kernel M D) : Prop where
  /-- The entries of all queues are pairwise distinct pids. -/
  distinct : ∀ c c' i j, c < b.ncpu → c' < b.ncpu → i < (k.cpus c).cpuRq.total →
    j < (k.cpus c').cpuRq.total →
    (k.cpus c).cpuRq.runQueue i = (k.cpus c').cpuRq.runQueue j → c = c' ∧ i = j
  entry_lt : ∀ c i, c < b.ncpu → i < (k.cpus c).cpuRq.total →
    (k.cpus c).cpuRq.runQueue i < nrTasks
  /-- Together they are the tasks that are not free. -/
  live : ∀ p, p < nrTasks → ((k.tasks p).state ≠ .free ↔ ∃ c, c < b.ncpu ∧ Queued k c p)
  total : ∀ c, c < b.ncpu → 1 ≤ (k.cpus c).cpuRq.total ∧ (k.cpus c).cpuRq.total ≤ nrTasks
  current_lt : ∀ c, c < b.ncpu → (k.cpus c).cpuRq.currentIndex < (k.cpus c).cpuRq.total
  cpuTask : ∀ c, c < b.ncpu →
    (k.cpus c).cpuTask = some ((k.cpus c).cpuRq.runQueue (k.cpus c).cpuRq.currentIndex)
  /-- The current task is the running one of its queue. -/
  running : ∀ c i, c < b.ncpu → i < (k.cpus c).cpuRq.total →
    ((k.tasks ((k.cpus c).cpuRq.runQueue i)).state = .running ↔
      i = (k.cpus c).cpuRq.currentIndex)
  ticks : ∀ c p, c < b.ncpu → (k.cpus c).cpuTask = some p →
    1 ≤ (k.tasks p).remindTicks ∧ (k.tasks p).remindTicks ≤ timeQuant

theorem RunQueuesOk.of_invariants {b : Boot} {k : Kernel M D} (h : QueueInv b k)
    (hr : Running b k) (hm : Manned b k) : RunQueuesOk b k where
  distinct := h.inj
  entry_lt := h.pid_lt
  live p hp := by
    rw [h.live p hp]
    constructor
    · rintro ⟨c, i, hc, hi, heq⟩
      exact ⟨c, hc, i, hi, heq⟩
    · rintro ⟨c, hc, i, hi, heq⟩
      exact ⟨c, i, hc, hi, heq⟩
  total c hc := ⟨h.total_pos c hc, h.total_le hc⟩
  current_lt c hc := by
    obtain ⟨p, hp⟩ := hm c hc
    exact (h.current c p hc hp).1
  cpuTask c hc := by
    obtain ⟨p, hp⟩ := hm c hc
    rw [(h.current c p hc hp).2, hp]
  running c i hc hi := by
    obtain ⟨p, hp⟩ := hm c hc
    obtain ⟨hcur, hval⟩ := h.current c p hc hp
    constructor
    · intro hs
      have hi' := h.running c i hc hi hs
      rw [hp, Option.some.injEq] at hi'
      exact (h.inj c c i _ hc hc hi hcur (hi'.symm.trans hval.symm)).2
    · rintro rfl
      rw [hval]
      exact (hr c p hc hp).running
  ticks c p hc hp := ⟨(hr c p hc hp).ticks_pos, (hr c p hc hp).ticks_le⟩

/-- The caller sleeps or kills itself. -/
def Call.GivesUp : Call → Prop
  | .sleep _ => True
  | .kill => True
  | .fork => False
  | .timer => False
  | .other => False

instance (call : Call) : Decidable call.GivesUp := by
  cases call <;> unfold Call.GivesUp <;> infer_instance

/-- In this entry the task its CPU started with neither sleeps nor kills itself. -/
def InitialTaskStays (k₀ k : Kernel M D) (e : Entry) : Prop :=
  (k.cpus e.cpu).cpuTask = some (initialTask k₀ e.cpu) → ¬ (callOf e.tf).GivesUp

instance (k₀ k : Kernel M D) (e : Entry) : Decidable (InitialTaskStays k₀ k e) :=
  inferInstanceAs (Decidable (_ → _))

/-- What the runs below carry. -/
structure SchedInv (b : Boot) (home : Nat → Nat) (k : Kernel M D) : Prop where
  queues : QueueInv b k
  running : Running b k
  manned : Manned b k
  anchored : Anchored b home k

theorem SchedInv.step {vm : Vm M D} {b : Boot} {k₀ k k' : Kernel M D} {e : Entry}
    (h : SchedInv b (initialTask k₀) k) (hs : Step vm b k e k')
    (hstays : InitialTaskStays k₀ k e) : SchedInv b (initialTask k₀) k' := by
  obtain ⟨hc, p, hp, he⟩ := step_effect hs
  have hne : ∀ call, callOf e.tf = call → call.GivesUp → p ≠ initialTask k₀ e.cpu := by
    rintro call rfl hgive rfl
    exact hstays hp hgive
  have hother : ∀ call, callOf e.tf = call → call.GivesUp → OtherRunnable k e.cpu p :=
    fun call hcall hgive => h.anchored.otherRunnable h.queues hc hp (hne call hcall hgive)
  exact
    { queues := h.queues.effect hc hp he
      running := h.running.effect h.queues hc hp he fun n hn => hother _ hn trivial
      manned := h.manned.effect h.queues hc hp he fun hk _ => hother _ hk trivial
      anchored := h.anchored.effect h.queues hc hp he (fun n hn => hne _ hn trivial)
        fun hk => hne _ hk trivial }

/-- **The run-queue invariant.**  In every state reachable from boot by kernel entries
on any CPUs, in any order, in which no CPU's first task sleeps or kills itself, the run
queues are as the scheduler takes them to be; and a `sys_fork` entered there, with
whatever trap frame, appends below `NR_TASKS`. -/
theorem run_queues_ok_of_run {vm : Vm M D} {b : Boot} {m : M} {k₀ k : Kernel M D}
    {es : List Entry} (hboot : bootAll vm b m = .ok k₀)
    (hrun : Run (fun k e k' => Step vm b k e k' ∧ InitialTaskStays k₀ k e) k₀ es k) :
    RunQueuesOk b k ∧
      ∀ c p tf i, c < b.ncpu → (k.cpus c).cpuTask = some p →
        forkIndex vm b (k.modTask p fun t => { t with tf := tf }) c = .ok (some i) →
        i < nrTasks := by
  have hinv : SchedInv b (initialTask k₀) k := by
    refine hrun.invariant (I := SchedInv b (initialTask k₀)) ?_ ?_
    · exact fun k e k' h hs => h.step hs.1 hs.2
    · exact ⟨boot_queueInv hboot, boot_running hboot, boot_manned hboot, boot_anchored hboot⟩
  refine ⟨.of_invariants hinv.queues hinv.running hinv.manned, fun c p tf i _ _ hi => ?_⟩
  exact forkIndex_lt (hinv.queues.congr (saveFrame_sched k p tf)) hi

/-! ## Playing a script of traps -/

/-- Play a script of traps from a kernel state, as long as `allowed` admits them. -/
def play (vm : Vm M D) (b : Boot) (allowed : Kernel M D → Entry → Bool) :
    List (Nat × Trapframe) → Kernel M D → Except Stop (List Entry × Kernel M D)
  | [], k => .ok ([], k)
  | (c, tf) :: script, k => do
      let r ← trapDispatch vm b k c tf 0
      if c < b.ncpu ∧ allowed k ⟨c, tf, 0, r.1⟩ then
        let s ← play vm b allowed script r.2
        .ok (⟨c, tf, 0, r.1⟩ :: s.1, s.2)
      else .error .fault

theorem run_of_play {vm : Vm M D} {b : Boot} {allowed : Kernel M D → Entry → Bool}
    {script : List (Nat × Trapframe)} {k k' : Kernel M D} {es : List Entry}
    (h : play vm b allowed script k = .ok (es, k')) :
    Run (fun k e k' => Step vm b k e k' ∧ allowed k e = true) k es k' := by
  induction script generalizing k es with
  | nil =>
      cases h
      exact .nil _
  | cons trap script ih =>
      obtain ⟨c, tf⟩ := trap
      simp only [play, bind_ok_iff] at h
      obtain ⟨⟨resumed, k₁⟩, hstep, h⟩ := h
      split at h
      · rename_i hok
        simp only [bind_ok_iff] at h
        obtain ⟨⟨es', k₂⟩, hrest, h⟩ := h
        cases h
        exact .cons ⟨⟨hok.1, hstep⟩, hok.2⟩ (ih hrest)
      · cases h

/-- Boot, play the script, and check what came out of it. -/
def plays (vm : Vm M D) (b : Boot) (m : M) (allowed : Kernel M D → Kernel M D → Entry → Bool)
    (script : List (Nat × Trapframe))
    (check : Kernel M D → List Entry → Kernel M D → Bool) : Bool :=
  match bootAll vm b m with
  | .error _ => false
  | .ok k₀ =>
      match play vm b (allowed k₀) script k₀ with
      | .error _ => false
      | .ok (es, k) => check k₀ es k

/-- A script that passes its check is a run from boot. -/
theorem exists_run_of_plays {vm : Vm M D} {b : Boot} {m : M}
    {allowed : Kernel M D → Kernel M D → Entry → Bool} {script : List (Nat × Trapframe)}
    {check : Kernel M D → List Entry → Kernel M D → Bool}
    (h : plays vm b m allowed script check = true) :
    ∃ k₀ es k, bootAll vm b m = .ok k₀ ∧
      Run (fun k e k' => Step vm b k e k' ∧ allowed k₀ k e = true) k₀ es k ∧
      check k₀ es k = true := by
  unfold plays at h
  split at h
  · cases h
  · rename_i k₀ hboot
    split at h
    · cases h
    · rename_i es k hplay
      exact ⟨k₀, es, k, hboot, run_of_play hplay, h⟩

/-- A memory that never runs out and keeps no record. -/
def Vm.unlimited : Vm Unit Unit where
  setupkvm _ := .ok (some (), ())
  stackPage _ _ _ := .ok (true, ())
  copyPage _ _ _ _ := .ok ()
  mapUser _ _ := .ok ()
  pageRemove _ _ _ := .ok ()
  ptableRemove _ _ := .ok ()
  pgdirRemove _ _ := .ok ()
  sysGetNumFreePage _ := 0
  sysGetNumUsedPage _ := 0
  mapped _ _ _ := true

/-- A machine with one or two CPUs, booting on the first. -/
def Boot.small (two : Bool) : Boot where
  ncpu := if two then 2 else 1
  bootcpu := 0
  userEntry := 0
  idleEntry := 0
  ncpu_le := by cases two <;> decide
  bootcpu_lt := by cases two <;> decide

/-- The frame of a system call, and of a timer interrupt. -/
def syscallFrame (no a1 : BitVec 32) : Trapframe :=
  { tfTrapno := 48, regEax := no, regEdx := a1 }

def timerFrame : Trapframe := { tfTrapno := 32 }

/-- Two CPUs; the shell forks, and then both CPUs take a timer interrupt. -/
theorem run_queues_ok_after_fork :
    ∃ (k₀ k : Kernel Unit Unit) (es : List Entry), es.length = 3 ∧
      bootAll .unlimited (.small true) () = .ok k₀ ∧
      Run (fun k e k' => Step .unlimited (.small true) k e k' ∧ InitialTaskStays k₀ k e) k₀ es k ∧
      RunQueuesOk (.small true) k ∧ (k.cpus 0).cpuRq.total = 2 := by
  obtain ⟨k₀, es, k, hboot, hrun, hcheck⟩ := exists_run_of_plays
    (show plays .unlimited (.small true) ()
      (fun k₀ k e => decide (InitialTaskStays k₀ k e))
      [(0, syscallFrame 4 0), (1, timerFrame), (0, timerFrame)]
      (fun _ es k => decide (es.length = 3 ∧ (k.cpus 0).cpuRq.total = 2)) = true by
        decide +kernel)
  obtain ⟨hlen, htotal⟩ := of_decide_eq_true hcheck
  have hrun' : Run (fun k e k' => Step .unlimited (.small true) k e k' ∧
      InitialTaskStays k₀ k e) k₀ es k :=
    hrun.mono fun k e k' h => ⟨h.1, of_decide_eq_true h.2⟩
  exact ⟨k₀, k, es, hlen, hboot, hrun', (run_queues_ok_of_run hboot hrun').1, htotal⟩

end Nctuos
