import Nctuos.RunQueue

/-!
# The task a CPU runs

`QueueInv` leaves open what `cpu_task` is doing.  Three further properties close the
gap, each with the exact condition under which a step keeps it:

* `Running` — a CPU's `cpu_task`, if it has one, is running with a live quantum.  Only
  `SYS_sleep` can break it, when its `sched_yield` finds nobody to switch to; and even then a
  `cpu_task` in state running has a live quantum (`RunningUnless True`);
* `Manned` — every CPU has a `cpu_task`.  Only a `sys_kill` that acts can break it,
  again when its `sched_yield` finds nobody;
* `Anchored home` — the task `home c` stays ready in CPU `c`'s queue, as long as it
  neither sleeps nor kills itself.  With an anchored queue `sched_yield` always finds
  somebody (`Anchored.otherRunnable`), so the other two follow.

All three are proved CPU by CPU.  `Untouched` says what a step on one CPU leaves alone
on another (its `cpu_task` and all its tasks; its queue can only grow, by a fork's
dispatch), so each proof looks at the stepping CPU only.
-/

namespace Nctuos

open Lib

variable {M D : Type}

/-! ## Being in a queue -/

/-- Task `q` stands in the live part of CPU `c`'s run queue. -/
def Queued (k : Kernel M D) (c q : Nat) : Prop :=
  ∃ i, i < (k.cpus c).cpuRq.total ∧ (k.cpus c).cpuRq.runQueue i = q

/-- Some task of CPU `c` other than `p` is ready to run. -/
def OtherRunnable (k : Kernel M D) (c p : Nat) : Prop :=
  ∃ q, Queued k c q ∧ q ≠ p ∧ (k.tasks q).state = .runnable

/-- Running, with between one tick and a full quantum left. -/
structure OnCpu (t : Task D) : Prop where
  running : t.state = .running
  ticks_pos : 1 ≤ t.remindTicks
  ticks_le : t.remindTicks ≤ timeQuant

namespace QueueInv

variable {b : Boot} {k : Kernel M D} {c c' p q : Nat}

section Queue

variable (h : QueueInv b k) (hc : c < b.ncpu)

include h hc

theorem queued_unique (hc' : c' < b.ncpu) (hq : Queued k c q) (hq' : Queued k c' q) : c = c' := by
  obtain ⟨i, hi, rfl⟩ := hq
  obtain ⟨j, hj, hval⟩ := hq'
  exact (h.inj c c' i j hc hc' hi hj hval.symm).1

theorem current_queued (hp : (k.cpus c).cpuTask = some p) : Queued k c p :=
  ⟨_, h.current c p hc hp⟩

theorem queued_live (hq : Queued k c q) : q < nrTasks ∧ (k.tasks q).state ≠ .free := by
  obtain ⟨i, hi, rfl⟩ := hq
  have hlt := h.pid_lt c i hc hi
  exact ⟨hlt, (h.live _ hlt).mpr ⟨c, i, hc, hi, rfl⟩⟩

theorem running_current (hq : Queued k c q) (hs : (k.tasks q).state = .running) :
    (k.cpus c).cpuTask = some q := by
  obtain ⟨i, hi, rfl⟩ := hq
  exact h.running c i hc hi hs

end Queue

end QueueInv

/-! ## `sched_yield`, specified -/

/-- CPU `c` switched to task `q`. -/
structure SwitchedTo (k k' : Kernel M D) (c q : Nat) : Prop where
  queued : Queued k c q
  runnable : (k.tasks q).state = .runnable
  cpuTask : (k'.cpus c).cpuTask = some q
  state : (k'.tasks q).state = .running
  ticks : (k'.tasks q).remindTicks = timeQuant
  other : ∀ r, r ≠ q → k'.tasks r = k.tasks r
  queue : ∀ r, Queued k' c r ↔ Queued k c r
  elsewhere : ∀ c', c' ≠ c → k'.cpus c' = k.cpus c'

namespace SwitchedTo

variable {k k' : Kernel M D} {c q : Nat}

theorem onCpu (h : SwitchedTo k k' c q) : OnCpu (k'.tasks q) where
  running := h.state
  ticks_pos := by
    rw [h.ticks]
    decide
  ticks_le := by rw [h.ticks]

end SwitchedTo

/-- Either `sched_yield` switches to a runnable task of the queue, or it returns with
the state as it was because there is none. -/
theorem schedYield_spec {k : Kernel M D} {c : Nat} (hpos : 0 < (k.cpus c).cpuRq.total) :
    (schedYield k c = (none, k) ∧ ∀ q, Queued k c q → (k.tasks q).state ≠ .runnable) ∨
      ∃ q, (schedYield k c).1 = some q ∧ SwitchedTo k (schedYield k c).2 c q := by
  unfold schedYield
  cases hpick : pick (fun p => (k.tasks p).state) (k.cpus c) with
  | none =>
      refine Or.inl ⟨rfl, ?_⟩
      rintro q ⟨i, hi, rfl⟩
      exact pick_none hpick i hi
  | some idx =>
      obtain ⟨hidx, hrunnable⟩ := pick_some hpos hpick
      refine Or.inr ⟨(k.cpus c).cpuRq.runQueue idx, rfl, ?_⟩
      refine
        { queued := ⟨idx, hidx, rfl⟩, runnable := hrunnable, cpuTask := by simp,
          state := by simp, ticks := by simp, other := ?_, queue := ?_, elsewhere := ?_ }
      · intro r hr
        simp [Kernel.modTask_other _ _ hr]
      · intro r
        simp [Queued]
      · intro c' hne
        rw [Kernel.modCpu_other _ _ hne, Kernel.modTask_cpus]

/-- With a runnable task in the queue, `sched_yield` does not return. -/
theorem schedYield_switches {k : Kernel M D} {c q : Nat} (hq : Queued k c q)
    (hs : (k.tasks q).state = .runnable) :
    ∃ r, (schedYield k c).1 = some r ∧ SwitchedTo k (schedYield k c).2 c r := by
  have hpos : 0 < (k.cpus c).cpuRq.total := by
    obtain ⟨i, hi, -⟩ := hq
    omega
  rcases schedYield_spec hpos with ⟨-, hnone⟩ | hsome
  · exact absurd hs (hnone q hq)
  · exact hsome

/-- A task that is not runnable is not touched by `sched_yield`. -/
theorem schedYield_skips {k : Kernel M D} {c q : Nat} (hpos : 0 < (k.cpus c).cpuRq.total)
    (hs : (k.tasks q).state ≠ .runnable) :
    (schedYield k c).2.tasks q = k.tasks q ∧
      (Queued (schedYield k c).2 c q ↔ Queued k c q) := by
  rcases schedYield_spec hpos with ⟨heq, -⟩ | ⟨r, -, hsw⟩
  · rw [heq]
    exact ⟨rfl, Iff.rfl⟩
  · have hne : q ≠ r := by
      rintro rfl
      exact hs hsw.runnable
    exact ⟨hsw.other q hne, hsw.queue q⟩

/-! ## The timer's bookkeeping, task by task -/

namespace QueueInv

variable {b : Boot} {k : Kernel M D} {c p q : Nat}

/-- The sleeper loop visits each task of the queue once and no other task. -/
theorem tickSleepers_apply (h : QueueInv b k) (hc : c < b.ncpu) (q : Nat) :
    tickSleepers k.tasks (k.cpus c).cpuRq q =
      if q ∈ (List.range (k.cpus c).cpuRq.total).map (k.cpus c).cpuRq.runQueue then
        tickSleeper (k.tasks q)
      else k.tasks q :=
  foldl_update_apply _ tickSleeper _ _ q <|
    nodup_map_range fun i j hi hj hij => (h.inj c c i j hc hc hi hj hij).2

theorem mem_queue_iff : q ∈ (List.range (k.cpus c).cpuRq.total).map (k.cpus c).cpuRq.runQueue ↔
    Queued k c q := by
  simp [Queued]

theorem tickAll_queued (h : QueueInv b k) (hc : c < b.ncpu) (hq : Queued k c q) (hne : q ≠ p) :
    (Nctuos.tickAll k c p).tasks q = tickSleeper (k.tasks q) := by
  rw [Nctuos.tickAll, Kernel.modTask_other _ _ hne]
  show tickSleepers k.tasks (k.cpus c).cpuRq q = _
  rw [h.tickSleepers_apply hc, if_pos (mem_queue_iff.mpr hq)]

theorem tickAll_unqueued (h : QueueInv b k) (hc : c < b.ncpu) (hq : ¬ Queued k c q)
    (hp : Queued k c p) : (Nctuos.tickAll k c p).tasks q = k.tasks q := by
  have hne : q ≠ p := by
    rintro rfl
    exact hq hp
  rw [Nctuos.tickAll, Kernel.modTask_other _ _ hne]
  show tickSleepers k.tasks (k.cpus c).cpuRq q = _
  rw [h.tickSleepers_apply hc, if_neg fun hmem => hq (mem_queue_iff.mp hmem)]

/-- The current task loses one tick, two if it is asleep. -/
theorem tickAll_current (h : QueueInv b k) (hc : c < b.ncpu) (hp : Queued k c p) :
    (Nctuos.tickAll k c p).tasks p =
      { tickSleeper (k.tasks p) with
        remindTicks := wrap32 ((tickSleeper (k.tasks p)).remindTicks - 1) } := by
  have hloop : tickSleepers k.tasks (k.cpus c).cpuRq p = tickSleeper (k.tasks p) := by
    rw [h.tickSleepers_apply hc, if_pos (mem_queue_iff.mpr hp)]
  rw [Nctuos.tickAll, Kernel.modTask_same, ← hloop]

end QueueInv

theorem tickSleeper_of_awake {t : Task D} (h : t.state ≠ .sleep) : tickSleeper t = t := by
  rw [tickSleeper, if_neg h]

/-! ## What a step leaves alone on another CPU -/

/-- Nothing CPU `c` can see has changed, except that its queue may have grown. -/
structure Untouched (k k' : Kernel M D) (c : Nat) : Prop where
  cpuTask : (k'.cpus c).cpuTask = (k.cpus c).cpuTask
  queued : ∀ q, Queued k c q → Queued k' c q
  state : ∀ q, Queued k c q → (k'.tasks q).state = (k.tasks q).state
  ticks : ∀ q, Queued k c q → (k'.tasks q).remindTicks = (k.tasks q).remindTicks

namespace Untouched

variable {b : Boot} {k k' k'' : Kernel M D} {c c' p q : Nat}

theorem refl (k : Kernel M D) (c : Nat) : Untouched k k c :=
  ⟨rfl, fun _ h => h, fun _ _ => rfl, fun _ _ => rfl⟩

theorem trans (h : Untouched k k' c) (h' : Untouched k' k'' c) : Untouched k k'' c where
  cpuTask := h'.cpuTask.trans h.cpuTask
  queued q hq := h'.queued q (h.queued q hq)
  state q hq := (h'.state q (h.queued q hq)).trans (h.state q hq)
  ticks q hq := (h'.ticks q (h.queued q hq)).trans (h.ticks q hq)

theorem of_sameSched (h : SameSched k k') (c : Nat) : Untouched k k' c where
  cpuTask := by rw [h.cpus]
  queued q hq := by
    rw [Queued, ← h.cpus]
    exact hq
  state q _ := (h.state q).symm
  ticks q _ := (h.ticks q).symm

/-- Rewriting a task that is not in the queue. -/
theorem modTask (f : Task D → Task D) (hp : ¬ Queued k c p) :
    Untouched k (k.modTask p f) c := by
  have hne : ∀ q, Queued k c q → q ≠ p := by
    rintro q hq rfl
    exact hp hq
  refine ⟨rfl, fun _ h => h, fun q hq => ?_, fun q hq => ?_⟩
  · rw [Kernel.modTask_other _ _ (hne q hq)]
  · rw [Kernel.modTask_other _ _ (hne q hq)]

/-- Rewriting another CPU's record. -/
theorem modCpu (f : CpuInfo → CpuInfo) (hne : c ≠ c') : Untouched k (k.modCpu c' f) c := by
  have hcpu := Kernel.modCpu_other k f hne
  refine ⟨by rw [hcpu], fun q hq => ?_, fun _ _ => rfl, fun _ _ => rfl⟩
  rw [Queued, hcpu]
  exact hq

/-- Another CPU's `sched_yield`. -/
theorem schedYield (hpos : 0 < (k.cpus c').cpuRq.total)
    (hdisj : ∀ q, Queued k c' q → ¬ Queued k c q) (hne : c ≠ c') :
    Untouched k (schedYield k c').2 c := by
  rcases schedYield_spec hpos with ⟨heq, -⟩ | ⟨q, -, hsw⟩
  · rw [heq]
    exact refl k c
  · have hother : ∀ r, Queued k c r → r ≠ q := by
      rintro r hr rfl
      exact hdisj r hsw.queued hr
    refine ⟨by rw [hsw.elsewhere c hne], fun r hr => ?_, fun r hr => ?_, fun r hr => ?_⟩
    · rw [Queued, hsw.elsewhere c hne]
      exact hr
    · rw [hsw.other r (hother r hr)]
    · rw [hsw.other r (hother r hr)]

/-- An append to any queue. -/
theorem append (k : Kernel M D) (c d pid : Nat) :
    Untouched k (k.modCpu d fun cpu => { cpu with cpuRq := cpu.cpuRq.append pid }) c := by
  by_cases hne : c = d
  · subst hne
    refine ⟨by simp, ?_, fun _ _ => rfl, fun _ _ => rfl⟩
    rintro q ⟨i, hi, rfl⟩
    refine ⟨i, ?_, ?_⟩
    · simp only [Kernel.modCpu_same, Runqueue.append]
      omega
    · simp only [Kernel.modCpu_same, Runqueue.append]
      exact Function.update_of_ne (Nat.ne_of_lt hi) _ _
  · exact modCpu _ hne

/-- A fork's dispatch, on every CPU. -/
theorem forked (h : QueueInv b k) {pid : Nat} (hpid : findFree k.tasks = some pid)
    (hc : c < b.ncpu) : Untouched k (forked b k pid) c := by
  obtain ⟨-, hfree⟩ := findFree_some hpid
  have hnew : ¬ Queued k c pid := fun hq => (h.queued_live hc hq).2 hfree
  exact (modTask _ hnew).trans (append _ c _ pid)

/-- **Locality.**  A kernel entry on one CPU leaves every other CPU untouched. -/
theorem effect {call : Call} (h : QueueInv b k) (hc' : c' < b.ncpu)
    (hp : (k.cpus c').cpuTask = some p) (he : Effect b k c' p q k' call) (hc : c < b.ncpu)
    (hne : c ≠ c') : Untouched k k' c := by
  have hdisj : ∀ r, Queued k c' r → ¬ Queued k c r :=
    fun r hr hr' => hne (h.queued_unique hc hc' hr' hr)
  have hp_mine : ¬ Queued k c p := hdisj p (h.current_queued hc' hp)
  have hpos := h.total_pos c' hc'
  cases call with
  | fork =>
      rcases he.2 with hs | ⟨pid, hfree, hs⟩
      · exact of_sameSched hs c
      · exact (forked h hfree hc).trans (of_sameSched hs c)
  | sleep n =>
      refine Untouched.trans ?_ (of_sameSched he.2 c)
      exact (modTask _ hp_mine).trans (schedYield hpos hdisj hne)
  | kill =>
      rcases he with ⟨hacts, -, hs⟩ | ⟨-, -, hs⟩
      · rw [h.current_taskId hc' hp] at hs hacts
        have hk := h.killed hc' hp hacts.2.2
        refine Untouched.trans ?_ (of_sameSched hs c)
        have hkill : Untouched k (killed k c' p) c :=
          (modTask _ hp_mine).trans (modCpu _ hne)
        refine hkill.trans ?_
        refine schedYield (hk.total_pos c' hc') (fun r hr hr' => ?_) hne
        exact hne (hk.queued_unique hc hc' hr' hr)
      · exact of_sameSched hs c
  | timer =>
      refine Untouched.trans ?_ (of_sameSched he.2 c)
      have h₀ := h.setJiffies
      have htick : Untouched k (tickAll { k with jiffies := k.jiffies + 1 } c' p) c := by
        have heq : ∀ r, Queued k c r →
            (tickAll { k with jiffies := k.jiffies + 1 } c' p).tasks r = k.tasks r := by
          intro r hr
          exact h₀.tickAll_unqueued hc' (fun hr' => hdisj r hr' hr) (h.current_queued hc' hp)
        refine ⟨rfl, fun _ hr => hr, fun r hr => ?_, fun r hr => ?_⟩
        · rw [heq r hr]
        · rw [heq r hr]
      simp only [timerHandler, hp]
      split
      · exact htick.trans (Untouched.trans (modTask _ hp_mine) (schedYield hpos hdisj hne))
      · exact htick
  | other => exact of_sameSched he.2 c

end Untouched

/-- **What a step does on one CPU.**  The CPU is untouched, or it took the entry itself and the
entry is a `SYS_sleep`, a `SYS_kill` that acts or a tick. -/
theorem effect_cases {b : Boot} {k k' : Kernel M D} {c c' p q : Nat} {call : Call}
    (h : QueueInv b k) (hc : c < b.ncpu) (hc' : c' < b.ncpu)
    (hp : (k.cpus c').cpuTask = some p) (he : Effect b k c' p q k' call) :
    ¬ (c' = c ∧ call = .timer) ∧ Untouched k k' c ∨
      c' = c ∧ ∃ k₁, QueueInv b k₁ ∧ Untouched k₁ k' c ∧
        ((∃ n, call = .sleep n ∧ k₁ = (schedYield (asleep k p n) c).2) ∨
          call = .kill ∧ KillActs k c p ∧ k₁ = (schedYield (killed k c p) c).2 ∨
          call = .timer ∧ k₁ = (timerHandler k c).2) := by
  by_cases hcc : c = c'
  · subst hcc
    cases call with
    | fork =>
        rcases he.2 with hs | ⟨pid, hfree, hs⟩
        · exact Or.inl ⟨by simp, .of_sameSched hs c⟩
        · exact Or.inl ⟨by simp, (Untouched.forked h hfree hc).trans (.of_sameSched hs c)⟩
    | sleep n =>
        exact Or.inr ⟨rfl, _, h.sleep hc hp n, .of_sameSched he.2 c, Or.inl ⟨n, rfl, rfl⟩⟩
    | kill =>
        rcases he with ⟨hacts, -, hs⟩ | ⟨-, -, hs⟩
        · rw [h.current_taskId hc hp] at hs hacts
          exact Or.inr ⟨rfl, _, h.kill hc hp hacts.2.2, .of_sameSched hs c,
            Or.inr (Or.inl ⟨rfl, hacts, rfl⟩)⟩
        · exact Or.inl ⟨by simp, .of_sameSched hs c⟩
    | timer =>
        exact Or.inr ⟨rfl, _, h.timer hc hp, .of_sameSched he.2 c, Or.inr (Or.inr ⟨rfl, rfl⟩)⟩
    | other => exact Or.inl ⟨by simp, .of_sameSched he.2 c⟩
  · exact Or.inl ⟨fun htick => hcc htick.1.symm, Untouched.effect h hc' hp he hc hcc⟩

/-! ## What a step does on its own CPU -/

section Local

variable {b : Boot} {k k' : Kernel M D} {c p q : Nat}

/-- `SYS_sleep` with somebody to switch to. -/
theorem sleep_switches (n : BitVec 32) (ho : OtherRunnable k c p) :
    ∃ r, r ≠ p ∧ (schedYield (asleep k p n) c).1 = some r ∧
      SwitchedTo (asleep k p n) (schedYield (asleep k p n) c).2 c r := by
  obtain ⟨o, hqueued, hne, hs⟩ := ho
  have hs' : ((asleep k p n).tasks o).state = .runnable := by
    rw [asleep, Kernel.modTask_other _ _ hne, hs]
  obtain ⟨r, hr, hsw⟩ := schedYield_switches (k := asleep k p n) hqueued hs'
  refine ⟨r, ?_, hr, hsw⟩
  rintro rfl
  have hsleep : ((asleep k r n).tasks r).state = .sleep := by simp [asleep]
  rw [hsw.runnable] at hsleep
  cases hsleep

section Leave

variable (h : QueueInv b k) (hc : c < b.ncpu) (hp : (k.cpus c).cpuTask = some p)

include h hc hp

/-- `sys_kill` takes the current task out of its queue, and no other. -/
theorem queued_killed_iff (q : Nat) : Queued (killed k c p) c q ↔ Queued k c q ∧ q ≠ p := by
  obtain ⟨old, hw⟩ := h.without_killed hc hp hc
  constructor
  · rintro ⟨j, hj, rfl⟩
    exact ⟨⟨old j, hw.lt hj, (hw.entry hj).symm⟩, hw.ne hj⟩
  · rintro ⟨⟨j, hj, rfl⟩, hne⟩
    obtain ⟨j', hj', rfl⟩ := hw.onto hj hne
    exact ⟨j', hj', hw.entry hj'⟩

/-- `sys_kill` with somebody to switch to. -/
theorem kill_switches (ho : OtherRunnable k c p) :
    ∃ r, r ≠ p ∧ (schedYield (killed k c p) c).1 = some r ∧
      SwitchedTo (killed k c p) (schedYield (killed k c p) c).2 c r := by
  obtain ⟨o, hqueued, hne, hs⟩ := ho
  have hs' : ((killed k c p).tasks o).state = .runnable := by
    rw [killed_tasks_other k c hne, hs]
  have hq' := (queued_killed_iff h hc hp o).mpr ⟨hqueued, hne⟩
  obtain ⟨r, hr, hsw⟩ := schedYield_switches hq' hs'
  exact ⟨r, ((queued_killed_iff h hc hp r).mp hsw.queued).2, hr, hsw⟩

/-- The timer either only counts, while the current task has ticks left, or switches;
its `sched_yield` never returns, because the current task itself is runnable by then. -/
theorem timer_cases : ∃ k₁, k₁ = tickAll { k with jiffies := k.jiffies + 1 } c p ∧
      ((0 < (k₁.tasks p).remindTicks ∧ timerHandler k c = (none, k₁)) ∨
        ((k₁.tasks p).remindTicks ≤ 0 ∧ ∃ r, (timerHandler k c).1 = some r ∧
          SwitchedTo (k₁.modTask p fun t => { t with state := .runnable })
            (timerHandler k c).2 c r)) := by
  refine ⟨_, rfl, ?_⟩
  simp only [timerHandler, hp]
  split
  · rename_i hticks
    refine Or.inr ⟨hticks, ?_⟩
    refine schedYield_switches (q := p) ?_ (by simp)
    exact h.current_queued hc hp
  · rename_i hticks
    exact Or.inl ⟨by omega, rfl⟩

end Leave

end Local

/-! ## `Running` -/

/-- The current task of CPU `c`, if it has one, is running. -/
def RunningOn (k : Kernel M D) (c : Nat) : Prop :=
  ∀ p, (k.cpus c).cpuTask = some p → OnCpu (k.tasks p)

/-- The current task of every CPU that has one is running. -/
def Running (b : Boot) (k : Kernel M D) : Prop :=
  ∀ c p, c < b.ncpu → (k.cpus c).cpuTask = some p → OnCpu (k.tasks p)

theorem OnCpu.congr {t t' : Task D} (h : OnCpu t) (hs : t'.state = t.state)
    (ht : t'.remindTicks = t.remindTicks) : OnCpu t' where
  running := hs.trans h.running
  ticks_pos := ht ▸ h.ticks_pos
  ticks_le := ht ▸ h.ticks_le

/-- The current task of CPU `c`, if it has one, is running, or `idle` and it does not say so. -/
def RunningUnless (idle : Prop) (k : Kernel M D) (c : Nat) : Prop :=
  ∀ p, (k.cpus c).cpuTask = some p → OnCpu (k.tasks p) ∨ idle ∧ (k.tasks p).state ≠ .running

theorem tickSleeper_not_running {t : Task D} (h : t.state ≠ .running) :
    (tickSleeper t).state ≠ .running := by
  rw [tickSleeper]
  split
  · dsimp only
    split <;> decide
  · exact h

namespace RunningUnless

variable {idle : Prop} {b : Boot} {k k' : Kernel M D} {c c' p q : Nat} {call : Call}

theorem false_iff : RunningUnless False k c ↔ RunningOn k c := by
  simp [RunningUnless, RunningOn]

/-- An untouched CPU keeps its running task. -/
theorem untouched (h : QueueInv b k) (hr : RunningUnless idle k c) (hc : c < b.ncpu)
    (hu : Untouched k k' c) : RunningUnless idle k' c := by
  intro p hp
  rw [hu.cpuTask] at hp
  have hq := h.current_queued hc hp
  rcases hr p hp with hon | ⟨hidle, hnot⟩
  · exact Or.inl (hon.congr (hu.state p hq) (hu.ticks p hq))
  · exact Or.inr ⟨hidle, by rwa [hu.state p hq]⟩

/-- A CPU that switched. -/
theorem switched (hsw : SwitchedTo k k' c q) : RunningUnless idle k' c := by
  intro p hp
  rw [hsw.cpuTask, Option.some.injEq] at hp
  exact Or.inl (hp ▸ hsw.onCpu)

/-- The timer on the stepping CPU. -/
theorem timer (h : QueueInv b k) (hc : c < b.ncpu) (hp : (k.cpus c).cpuTask = some p)
    (hr : OnCpu (k.tasks p) ∨ idle ∧ (k.tasks p).state ≠ .running) :
    RunningUnless idle (timerHandler k c).2 c := by
  have h₀ := h.setJiffies
  obtain ⟨k₁, hk₁, ⟨hticks, heq⟩ | ⟨-, r, -, hsw⟩⟩ := timer_cases h hc hp
  · have htask := h₀.tickAll_current hc (h.current_queued hc hp)
    rw [← hk₁] at htask
    have hcpu : (k₁.cpus c).cpuTask = some p := by
      rw [hk₁]
      exact hp
    intro q hq
    rw [heq] at hq ⊢
    rw [hcpu] at hq
    cases hq
    rcases hr with hon | ⟨hidle, hnot⟩
    · have hawake : (k.tasks p).state ≠ .sleep := by
        rw [hon.running]
        decide
      have hrange : (k.tasks p).remindTicks ≤ 100 := hon.ticks_le
      have hpos := hon.ticks_pos
      have hwrap : wrap32 ((k.tasks p).remindTicks - 1) = (k.tasks p).remindTicks - 1 :=
        wrap32_of_mem (by omega) (by omega)
      rw [tickSleeper_of_awake hawake] at htask
      rw [htask] at hticks ⊢
      simp only [hwrap] at hticks ⊢
      refine Or.inl ⟨hon.running, ?_, ?_⟩
      · show 1 ≤ (k.tasks p).remindTicks - 1
        omega
      · show (k.tasks p).remindTicks - 1 ≤ 100
        omega
    · -- the tick may wake it, but only `sched_yield` makes it run
      rw [htask]
      exact Or.inr ⟨hidle, tickSleeper_not_running hnot⟩
  · exact switched hsw

/-- A task goes to sleep: another one runs, or nobody does. -/
theorem sleep (h : QueueInv b k) (hc : c < b.ncpu) (hp : (k.cpus c).cpuTask = some p)
    (n : BitVec 32) (hidle : idle ∨ OtherRunnable k c p) :
    RunningUnless idle (schedYield (asleep k p n) c).2 c := by
  rcases hidle with hidle | hother
  · rcases schedYield_spec (k := asleep k p n) (h.total_pos c hc) with ⟨heq, -⟩ | ⟨r, -, hsw⟩
    · intro q hq
      rw [heq] at hq ⊢
      obtain rfl : p = q := Option.some.inj (hp.symm.trans hq)
      refine Or.inr ⟨hidle, ?_⟩
      simp [asleep]
    · exact switched hsw
  · obtain ⟨r, -, -, hsw⟩ := sleep_switches n hother
    exact switched hsw

/-- A step on any CPU keeps it, provided a task that goes to sleep on this one leaves another one
to run, or `idle`. -/
theorem effect (h : QueueInv b k) (hr : RunningUnless idle k c) (hc : c < b.ncpu)
    (hc' : c' < b.ncpu) (hp : (k.cpus c').cpuTask = some p) (he : Effect b k c' p q k' call)
    (hsleep : c' = c → ∀ n, call = .sleep n → idle ∨ OtherRunnable k c p) :
    RunningUnless idle k' c := by
  rcases effect_cases h hc hc' hp he with ⟨-, hu⟩ | ⟨rfl, k₁, h₁, hu, hk₁⟩
  · exact hr.untouched h hc hu
  refine untouched h₁ ?_ hc hu
  rcases hk₁ with ⟨n, hn, rfl⟩ | ⟨-, hacts, rfl⟩ | ⟨-, rfl⟩
  · exact sleep h hc hp n (hsleep rfl n hn)
  · have hk := h.killed hc hp hacts.2.2
    rcases schedYield_spec (hk.total_pos _ hc) with ⟨heq, -⟩ | ⟨r, -, hsw⟩
    · intro q hq
      rw [heq] at hq
      simp at hq
    · exact switched hsw
  · exact timer h hc hp (hr p hp)

end RunningUnless

namespace RunningOn

variable {b : Boot} {k k' : Kernel M D} {c c' p q : Nat} {call : Call}

theorem timer (h : QueueInv b k) (hc : c < b.ncpu) (hp : (k.cpus c).cpuTask = some p)
    (hr : OnCpu (k.tasks p)) : RunningOn (timerHandler k c).2 c :=
  RunningUnless.false_iff.mp (.timer h hc hp (Or.inl hr))

/-- A step on any CPU keeps it, provided a task that goes to sleep on this one leaves
another one to run. -/
theorem effect (h : QueueInv b k) (hr : RunningOn k c) (hc : c < b.ncpu) (hc' : c' < b.ncpu)
    (hp : (k.cpus c').cpuTask = some p) (he : Effect b k c' p q k' call)
    (hsleep : c' = c → ∀ n, call = .sleep n → OtherRunnable k c p) : RunningOn k' c :=
  RunningUnless.false_iff.mp ((RunningUnless.false_iff.mpr hr).effect h hc hc' hp he
    fun hcc n hcall => Or.inr (hsleep hcc n hcall))

end RunningOn

/-- A step keeps `Running`, provided a task that goes to sleep leaves another one to
run. -/
theorem Running.effect {b : Boot} {k k' : Kernel M D} {c p q : Nat} {call : Call}
    (h : QueueInv b k) (hr : Running b k) (hc : c < b.ncpu)
    (hp : (k.cpus c).cpuTask = some p) (he : Effect b k c p q k' call)
    (hsleep : ∀ n, call = .sleep n → OtherRunnable k c p) : Running b k' := by
  intro c' p' hc'
  refine RunningOn.effect h (fun p => hr c' p hc') hc' hc hp he ?_ p'
  rintro rfl
  exact hsleep

/-! ## `Manned` -/

/-- Every CPU has a current task. -/
def Manned (b : Boot) (k : Kernel M D) : Prop :=
  ∀ c, c < b.ncpu → ∃ p, (k.cpus c).cpuTask = some p

/-- What a CPU resumes was in its queue, and is its `cpu_task`, provided a task that kills itself
leaves another one to run. -/
theorem effect_resumed {b : Boot} {k k' : Kernel M D} {c p q : Nat} {call : Call}
    (h : QueueInv b k) (hc : c < b.ncpu) (hp : (k.cpus c).cpuTask = some p)
    (he : Effect b k c p q k' call) :
    Queued k c q ∧ ((call = .kill → KillActs k c p → OtherRunnable k c p) →
      (k'.cpus c).cpuTask = some q) := by
  have hself := h.current_queued hc hp
  cases call with
  | fork =>
      obtain ⟨rfl, hs | ⟨pid, hfree, hs⟩⟩ := he
      · exact ⟨hself, fun _ => by rw [← hs.cpus, hp]⟩
      · exact ⟨hself, fun _ => by rw [← hs.cpus, (Untouched.forked h hfree hc).cpuTask, hp]⟩
  | sleep n =>
      obtain ⟨rfl, hs⟩ := he
      rw [← hs.cpus]
      rcases schedYield_spec (k := asleep k p n) (h.total_pos c hc) with ⟨heq, -⟩ | ⟨r, hr, hsw⟩
      · rw [heq]
        exact ⟨hself, fun _ => hp⟩
      · rw [hr]
        exact ⟨hsw.queued, fun _ => hsw.cpuTask⟩
  | kill =>
      rcases he with ⟨hacts, rfl, hs⟩ | ⟨-, rfl, hs⟩
      · rw [h.current_taskId hc hp] at hs hacts ⊢
        rw [← hs.cpus]
        rcases schedYield_spec ((h.killed hc hp hacts.2.2).total_pos c hc) with
          ⟨heq, -⟩ | ⟨r, hr, hsw⟩
        · refine ⟨heq ▸ hself, fun hkill => ?_⟩
          obtain ⟨r, -, hr, -⟩ := kill_switches h hc hp (hkill rfl hacts)
          rw [heq] at hr
          cases hr
        · rw [hr]
          exact ⟨((queued_killed_iff h hc hp r).mp hsw.queued).1, fun _ => hsw.cpuTask⟩
      · exact ⟨hself, fun _ => by rw [← hs.cpus, hp]⟩
  | timer =>
      obtain ⟨rfl, hs⟩ := he
      rw [← hs.cpus]
      obtain ⟨k₁, rfl, ⟨-, heq⟩ | ⟨-, r, hr, hsw⟩⟩ := timer_cases h hc hp
      · rw [heq]
        exact ⟨hself, fun _ => hp⟩
      · rw [hr]
        exact ⟨hsw.queued, fun _ => hsw.cpuTask⟩
  | other =>
      obtain ⟨rfl, hs⟩ := he
      exact ⟨hself, fun _ => by rw [← hs.cpus, hp]⟩

namespace Manned

variable {b : Boot} {k k' : Kernel M D} {c p q : Nat} {call : Call}

/-- A step keeps every CPU manned, under the same proviso. -/
theorem effect (h : QueueInv b k) (hm : Manned b k) (hc : c < b.ncpu)
    (hp : (k.cpus c).cpuTask = some p) (he : Effect b k c p q k' call)
    (hkill : call = .kill → KillActs k c p → OtherRunnable k c p) : Manned b k' := by
  intro c' hc'
  by_cases hcc : c' = c
  · subst hcc
    exact ⟨q, (effect_resumed h hc hp he).2 hkill⟩
  · rw [(Untouched.effect h hc hp he hc' hcc).cpuTask]
    exact hm c' hc'

end Manned

/-! ## `Anchored` -/

/-- Running or waiting to run. -/
def Ready (t : Task D) : Prop := t.state = .running ∨ t.state = .runnable

theorem Ready.congr {t t' : Task D} (h : Ready t) (hs : t'.state = t.state) : Ready t' := by
  rw [Ready, hs]
  exact h

theorem Ready.awake {t : Task D} (h : Ready t) : t.state ≠ .sleep := by
  rcases h with h | h <;> rw [h] <;> decide

/-- Being switched to, or not, keeps a task ready. -/
theorem SwitchedTo.ready {k k' : Kernel M D} {c q r : Nat} (hsw : SwitchedTo k k' c q)
    (h : Ready (k.tasks r)) : Ready (k'.tasks r) := by
  by_cases hr : r = q
  · rw [hr]
    exact Or.inl hsw.state
  · rw [hsw.other r hr]
    exact h

/-- Task `home` is ready in the queue of CPU `c`. -/
def AnchoredOn (home : Nat) (k : Kernel M D) (c : Nat) : Prop :=
  Queued k c home ∧ Ready (k.tasks home)

/-- The task `home c` is ready in the queue of each CPU `c`. -/
def Anchored (b : Boot) (home : Nat → Nat) (k : Kernel M D) : Prop :=
  ∀ c, c < b.ncpu → Queued k c (home c) ∧ Ready (k.tasks (home c))

namespace AnchoredOn

variable {b : Boot} {home : Nat} {k k' : Kernel M D} {c c' p q : Nat} {call : Call}

/-- Any task but the anchor leaves somebody to run when it gives up its CPU. -/
theorem otherRunnable (h : QueueInv b k) (ha : AnchoredOn home k c) (hc : c < b.ncpu)
    (hp : (k.cpus c).cpuTask = some p) (hne : p ≠ home) : OtherRunnable k c p := by
  obtain ⟨hq, hready⟩ := ha
  refine ⟨home, hq, hne.symm, ?_⟩
  rcases hready with hrun | hrun
  · have hcur := h.running_current hc hq hrun
    rw [hp, Option.some.injEq] at hcur
    exact absurd hcur hne
  · exact hrun

theorem untouched (hu : Untouched k k' c) (ha : AnchoredOn home k c) : AnchoredOn home k' c :=
  ⟨hu.queued _ ha.1, ha.2.congr (hu.state _ ha.1)⟩

/-- `sched_yield` keeps the anchor where it is. -/
theorem schedYield (hpos : 0 < (k.cpus c).cpuRq.total) (ha : AnchoredOn home k c) :
    AnchoredOn home (schedYield k c).2 c := by
  rcases schedYield_spec hpos with ⟨heq, -⟩ | ⟨r, -, hsw⟩
  · rw [heq]
    exact ha
  · exact ⟨(hsw.queue _).mpr ha.1, hsw.ready ha.2⟩

/-- The timer keeps the anchor where it is: it is not asleep, so only its ticks can
change. -/
theorem timer (h : QueueInv b k) (hc : c < b.ncpu) (hp : (k.cpus c).cpuTask = some p)
    (ha : AnchoredOn home k c) : AnchoredOn home (timerHandler k c).2 c := by
  have hstate := (QueueInv.tickAll_task { k with jiffies := k.jiffies + 1 } c p home).2
  obtain ⟨k₁, hk₁, ⟨-, heq⟩ | ⟨-, r, -, hsw⟩⟩ := timer_cases h hc hp
  · have hready : Ready (k₁.tasks home) := by
      rcases hstate with hs | ⟨hs, -⟩
      · exact ha.2.congr (hk₁ ▸ hs)
      · exact absurd hs ha.2.awake
    rw [heq]
    refine ⟨?_, hready⟩
    rw [hk₁]
    exact ha.1
  · refine ⟨(hsw.queue _).mpr (by rw [hk₁]; exact ha.1), hsw.ready ?_⟩
    by_cases hhome : home = p
    · rw [hhome]
      exact Or.inr (by simp)
    · rw [Kernel.modTask_other _ _ hhome, hk₁]
      rcases hstate with hs | ⟨hs, -⟩
      · exact ha.2.congr hs
      · exact absurd hs ha.2.awake

/-- A step on any CPU keeps the anchor of this one, as long as it does not sleep or kill
itself here. -/
theorem effect (h : QueueInv b k) (ha : AnchoredOn home k c) (hc : c < b.ncpu)
    (hc' : c' < b.ncpu) (hp : (k.cpus c').cpuTask = some p) (he : Effect b k c' p q k' call)
    (hsleep : c' = c → ∀ n, call = .sleep n → p ≠ home)
    (hkill : c' = c → call = .kill → p ≠ home) : AnchoredOn home k' c := by
  rcases effect_cases h hc hc' hp he with ⟨-, hu⟩ | ⟨rfl, k₁, -, hu, hk₁⟩
  · exact ha.untouched hu
  refine untouched hu ?_
  rcases hk₁ with ⟨n, hn, rfl⟩ | ⟨hcall, hacts, rfl⟩ | ⟨-, rfl⟩
  · refine schedYield (h.total_pos _ hc) ⟨ha.1, ?_⟩
    rw [asleep, Kernel.modTask_other _ _ (hsleep rfl n hn).symm]
    exact ha.2
  · have hne := (hkill rfl hcall).symm
    refine schedYield ((h.killed hc hp hacts.2.2).total_pos _ hc) ?_
    refine ⟨(queued_killed_iff h hc hp _).mpr ⟨ha.1, hne⟩, ?_⟩
    rw [killed_tasks_other k _ hne]
    exact ha.2
  · exact timer h hc hp ha

end AnchoredOn

namespace Anchored

variable {b : Boot} {home : Nat → Nat} {k k' : Kernel M D} {c p q : Nat} {call : Call}

theorem otherRunnable (h : QueueInv b k) (ha : Anchored b home k) (hc : c < b.ncpu)
    (hp : (k.cpus c).cpuTask = some p) (hne : p ≠ home c) : OtherRunnable k c p :=
  AnchoredOn.otherRunnable h (ha c hc) hc hp hne

/-- A step keeps the anchors, as long as no anchor sleeps or kills itself. -/
theorem effect (h : QueueInv b k) (ha : Anchored b home k) (hc : c < b.ncpu)
    (hp : (k.cpus c).cpuTask = some p) (he : Effect b k c p q k' call)
    (hsleep : ∀ n, call = .sleep n → p ≠ home c) (hkill : call = .kill → p ≠ home c) :
    Anchored b home k' := by
  intro c' hc'
  refine AnchoredOn.effect h (ha c' hc') hc' hc hp he ?_ ?_
  · rintro rfl
    exact hsleep
  · rintro rfl
    exact hkill

end Anchored

end Nctuos
