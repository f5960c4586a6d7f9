import Nctuos.RoundRobin
import Nctuos.Progress

/-!
# How long a task waits for its turn

A runnable task in the queue of a CPU stays there, runnable, until `sched_yield` selects it
(`Waiter.step`).  How long that takes is a matter of patience: the scan passes `n` entries
before it comes to the task, each of them may use up a whole quantum, and the current one has
`r` ticks left.  Every timer interrupt takes one away.  A fork may put a new entry in front of
the task, but there is one free slot less then, and so `patience` counts the free slots as if
they were all in front.

The exception is `sys_kill` again.  The scan that follows it starts behind entry `0`, wherever
the task was, and the patience is what it was in the beginning.  So a task waits no longer
than `(NR_TASKS - 1) * TIME_QUANT` ticks for each task that exits on its CPU meanwhile, and
once more (`BoundedWaiting`).

That is all there is to promise.  With one CPU and the shell in entry `0`, a task that forks and
exits hands the CPU to its child, again and again, and the shell never runs (`Relay`).
-/

namespace Nctuos

open Lib

variable {M D : Type}

/-- The calls of `SYS_kill` on CPU `c` in a history. -/
def killsOn (c : Nat) (es : List Entry) : Nat :=
  es.countP fun e => e.cpu = c ∧ callOf e.tf = .kill

theorem killsOn_concat (c : Nat) (es : List Entry) (e : Entry) :
    killsOn c (es ++ [e]) =
      killsOn c es + if e.cpu = c ∧ callOf e.tf = .kill then 1 else 0 := by
  simp [killsOn, List.countP_append, List.countP_singleton]

/-- CPU `c` has a current task, and it is running, with some of its quantum left. -/
def Busy (k : Kernel M D) (c : Nat) : Prop :=
  ∃ p, (k.cpus c).cpuTask = some p ∧ OnCpu (k.tasks p)

/-- **Waiting is bounded** in the runs of `step` from `k₀`: a task `q` that waits on a CPU `c` whose
current task is running is selected at some point of every run `es'`, or it still waits and fewer
timer interrupts have been handled on the CPU than all other tasks could use up, times the tasks
that have exited and one. -/
def BoundedWaiting (step : Kernel M D → Entry → Kernel M D → Prop) (b : Boot)
    (k₀ : Kernel M D) : Prop :=
  ∀ es k es' k' c p q, Run step k₀ es k → c < b.ncpu → (k.cpus c).cpuTask = some p →
    (k.tasks p).state = .running → Waits k c q → Run step k es' k' →
    (∃ es₁ k₁ e k₂ es₂, es' = es₁ ++ e :: es₂ ∧ Run step k es₁ k₁ ∧ step k₁ e k₂ ∧
        Run step k₂ es₂ k' ∧ Selects k₁ e c q) ∨
      (Busy k' c ∧ Waits k' c q ∧
        ticksOn c es' < (killsOn c es' + 1) * ((nrTasks - 1) * timeQuant.toNat))

/-- Task `q` is ready to run on CPU `c`: the scan passes `n` entries before it comes to `q`, and
the current task has `r` ticks left. -/
structure Waiter (k : Kernel M D) (c q n r : Nat) : Prop where
  runnable : (k.tasks q).state = .runnable
  current : ∃ p, (k.cpus c).cpuTask = some p ∧ OnCpu (k.tasks p) ∧ (k.tasks p).remindTicks = r
  place : ∃ i, i < (k.cpus c).cpuRq.total ∧ (k.cpus c).cpuRq.runQueue i = q ∧
    turn (k.cpus c).cpuRq.total (k.cpus c).cpuRq.currentIndex i = n

/-- The ticks such a task may have to wait for. -/
def patience (k : Kernel M D) (c n r : Nat) : Nat :=
  (nrTasks - (k.cpus c).cpuRq.total + n) * timeQuant.toNat + r

/-! ## What a step does to the patience -/

/-- A tick takes one from the quantum of a running task. -/
theorem tickAll_onCpu {b : Boot} {k : Kernel M D} {c p : Nat} (h : QueueInv b k) (hc : c < b.ncpu)
    (hp : (k.cpus c).cpuTask = some p) (hon : OnCpu (k.tasks p)) :
    (tickAll { k with jiffies := k.jiffies + 1 } c p).tasks p =
      { k.tasks p with remindTicks := (k.tasks p).remindTicks - 1 } := by
  have h₀ := h.setJiffies
  have hpos := hon.ticks_pos
  have hle : (k.tasks p).remindTicks ≤ 100 := hon.ticks_le
  rw [h₀.tickAll_current hc (h.current_queued hc hp),
    tickSleeper_of_awake (by rw [hon.running]; decide)]
  simp only [wrap32_of_mem (x := (k.tasks p).remindTicks - 1) (by omega) (by omega)]

/-- And nothing from a task that is awake. -/
theorem tickAll_awake {b : Boot} {k : Kernel M D} {c p q : Nat} (h : QueueInv b k)
    (hc : c < b.ncpu) (hq : Queued k c q) (hne : q ≠ p) (hawake : (k.tasks q).state ≠ .sleep) :
    (tickAll { k with jiffies := k.jiffies + 1 } c p).tasks q = k.tasks q := by
  have h₀ := h.setJiffies
  rw [h₀.tickAll_queued hc hq hne, tickSleeper_of_awake hawake]

namespace Waiter

variable {vm : Vm M D} {b : Boot} {k k' y : Kernel M D} {e : Entry} {c p q n r : Nat}

theorem of_waits (hbusy : Busy k c) (hw : Waits k c q) :
    ∃ n r, Waiter k c q n r := by
  obtain ⟨p, hp, hon⟩ := hbusy
  obtain ⟨⟨i, hi, hq⟩, hrun⟩ := hw
  refine ⟨_, (k.tasks p).remindTicks.toNat, hrun, ⟨p, hp, hon, ?_⟩, i, hi, hq, rfl⟩
  have := hon.ticks_pos
  omega

section Place

variable (h : Waiter k c q n r)

include h

theorem busy : Busy k c := by
  obtain ⟨p, hp, hon, -⟩ := h.current
  exact ⟨p, hp, hon⟩

theorem waits : Waits k c q := by
  obtain ⟨i, hi, hq, -⟩ := h.place
  exact ⟨⟨i, hi, hq⟩, h.runnable⟩

theorem ne_current (hp : (k.cpus c).cpuTask = some p) : q ≠ p := by
  obtain ⟨p', hp', hon, -⟩ := h.current
  rintro rfl
  obtain rfl : p' = q := Option.some.inj (hp'.symm.trans hp)
  have := hon.running.symm.trans h.runnable
  cases this

theorem ticks : 1 ≤ r ∧ r ≤ timeQuant.toNat := by
  obtain ⟨p, -, hon, hr⟩ := h.current
  have hpos := hon.ticks_pos
  have hle := hon.ticks_le
  rw [hr] at hpos hle
  exact ⟨by omega, by omega⟩

/-- The current entry comes last in the scan, so the others are at most `NR_TASKS - 2` before
`q`. -/
theorem patience_le (hinv : QueueInv b k) (hc : c < b.ncpu) :
    patience k c n r ≤ (nrTasks - 1) * timeQuant.toNat := by
  obtain ⟨p, hp, -⟩ := h.current
  obtain ⟨i, hi, hq, hn⟩ := h.place
  obtain ⟨hcur, hval⟩ := hinv.current c p hc hp
  have hne : i ≠ (k.cpus c).cpuRq.currentIndex := by
    rintro rfl
    exact h.ne_current hp (hq.symm.trans hval)
  have hlast := turn_lt_last hcur hi hne
  have htotal := hinv.total_le hc
  have hr := h.ticks.2
  rw [hn] at hlast
  have hslots : nrTasks - (k.cpus c).cpuRq.total + n + 1 ≤ nrTasks - 1 := by omega
  calc patience k c n r
      ≤ (nrTasks - (k.cpus c).cpuRq.total + n) * timeQuant.toNat + timeQuant.toNat := by
        rw [patience]
        omega
    _ = (nrTasks - (k.cpus c).cpuRq.total + n + 1) * timeQuant.toNat := by
        rw [Nat.succ_mul]
    _ ≤ (nrTasks - 1) * timeQuant.toNat := Nat.mul_le_mul_right _ hslots

/-- A step that does not concern the CPU, except for a new entry at the end of its queue. -/
theorem untouched (hinv : QueueInv b k) (hinv' : QueueInv b k') (hc : c < b.ncpu)
    (hu : Untouched k k' c)
    (hcpu : k'.cpus c = k.cpus c ∨
      ∃ pid, k'.cpus c = { k.cpus c with cpuRq := (k.cpus c).cpuRq.append pid }) :
    ∃ n', Waiter k' c q n' r ∧ patience k' c n' r ≤ patience k c n r := by
  obtain ⟨p, hp, hon, hr⟩ := h.current
  obtain ⟨i, hi, hq, hn⟩ := h.place
  have hqueued := hinv.current_queued hc hp
  have hrunnable : (k'.tasks q).state = .runnable := (hu.state q ⟨i, hi, hq⟩).trans h.runnable
  have hcurrent : ∃ p, (k'.cpus c).cpuTask = some p ∧ OnCpu (k'.tasks p) ∧
      (k'.tasks p).remindTicks = r :=
    ⟨p, hu.cpuTask.trans hp, hon.congr (hu.state p hqueued) (hu.ticks p hqueued),
      (hu.ticks p hqueued).trans hr⟩
  rcases hcpu with hcpu | ⟨pid, hcpu⟩
  · refine ⟨n, ⟨hrunnable, hcurrent, i, ?_⟩, ?_⟩
    · rw [hcpu]
      exact ⟨hi, hq, hn⟩
    · rw [patience, patience, hcpu]
  · refine ⟨_, ⟨hrunnable, hcurrent, i, ?_, ?_, rfl⟩, ?_⟩
    · rw [hcpu]
      exact Nat.lt_succ_of_lt hi
    · rw [hcpu]
      exact (Function.update_of_ne (Nat.ne_of_lt hi) _ _).trans hq
    · have htotal := hinv'.total_le hc
      rw [patience, patience, hcpu]
      rw [hcpu] at htotal
      have hgrow := turn_succ_le (k.cpus c).cpuRq.total (k.cpus c).cpuRq.currentIndex i
      simp only [Runqueue.append] at htotal ⊢
      rw [hn] at hgrow
      have hslots : nrTasks - ((k.cpus c).cpuRq.total + 1) +
          turn ((k.cpus c).cpuRq.total + 1) (k.cpus c).cpuRq.currentIndex i ≤
            nrTasks - (k.cpus c).cpuRq.total + n := by omega
      exact Nat.add_le_add_right (Nat.mul_le_mul_right _ hslots) r

end Place

/-- `sched_yield` selects another task: that one stands before `q`, and `q` is nearer by it. -/
theorem schedYield (hinv : QueueInv b y) (hc : c < b.ncpu) (hrun : (y.tasks q).state = .runnable)
    {i : Nat} (hi : i < (y.cpus c).cpuRq.total) (hq : (y.cpus c).cpuRq.runQueue i = q)
    (hnot : (schedYield y c).1 ≠ some q) :
    ∃ n', Waiter (schedYield y c).2 c q n' timeQuant.toNat ∧
      n' < turn (y.cpus c).cpuRq.total (yieldStart (y.cpus c)) i ∧
      ((schedYield y c).2.cpus c).cpuRq.total = (y.cpus c).cpuRq.total := by
  subst hq
  have hstart := hinv.yieldStart_lt hc
  unfold Nctuos.schedYield at hnot ⊢
  cases hpick : pick (fun p => (y.tasks p).state) (y.cpus c) with
  | none => exact absurd hrun (pick_none hpick i hi)
  | some j =>
      obtain ⟨hj, -, hmin⟩ := (pick_eq_some_iff hstart).mp hpick
      rw [hpick] at hnot
      have hne : j ≠ i := by
        rintro rfl
        exact hnot rfl
      have hlt : turn (y.cpus c).cpuRq.total (yieldStart (y.cpus c)) j <
          turn (y.cpus c).cpuRq.total (yieldStart (y.cpus c)) i :=
        Nat.lt_of_le_of_ne (hmin i hi hrun) fun heq => hne (turn_inj hstart hj hi heq)
      have hother : (y.cpus c).cpuRq.runQueue i ≠ (y.cpus c).cpuRq.runQueue j := by
        intro heq
        exact hne (hinv.inj c c i j hc hc hi hj heq).2.symm
      refine ⟨turn (y.cpus c).cpuRq.total j i,
        ⟨?_, ⟨(y.cpus c).cpuRq.runQueue j, ?_, ⟨?_, ?_, ?_⟩, ?_⟩, i, ?_⟩, ?_, ?_⟩
      · simp only [Kernel.modCpu_tasks, Kernel.modTask_other _ _ hother]
        exact hrun
      · simp
      · simp
      · simp [timeQuant]
      · simp
      · simp [timeQuant]
      · simp [hi]
      · have := turn_from hstart hj hi hlt
        omega
      · simp

theorem congr (h : Waiter k c q n r) (hs : SameSched k k') : Waiter k' c q n r := by
  obtain ⟨p, hp, hon, hr⟩ := h.current
  refine ⟨(hs.state q).symm.trans h.runnable, ⟨p, ?_, hon.congr (hs.state p).symm
    (hs.ticks p).symm, (hs.ticks p).symm.trans hr⟩, ?_⟩
  · rw [← hs.cpus]
    exact hp
  · rw [← hs.cpus]
    exact h.place

/-- A tick of the timer that leaves the current task some of its quantum. -/
theorem tick (h : Waiter k c q n r) (hinv : QueueInv b k) (hc : c < b.ncpu)
    (hp : (k.cpus c).cpuTask = some p)
    (hleft : 0 < ((tickAll { k with jiffies := k.jiffies + 1 } c p).tasks p).remindTicks) :
    Waiter (tickAll { k with jiffies := k.jiffies + 1 } c p) c q n (r - 1) ∧ 1 < r := by
  obtain ⟨p', hp', hon, hr⟩ := h.current
  obtain rfl : p' = p := Option.some.inj (hp'.symm.trans hp)
  have htask := tickAll_onCpu hinv hc hp hon
  have hawake : (k.tasks q).state ≠ .sleep := by
    rw [h.runnable]
    decide
  have hticks : ((tickAll { k with jiffies := k.jiffies + 1 } c p').tasks p').remindTicks =
      (r : Int) - 1 := by
    rw [htask, hr]
  rw [hticks] at hleft
  refine ⟨⟨?_, ⟨p', hp, ⟨?_, ?_, ?_⟩, ?_⟩, h.place⟩, by omega⟩
  · rw [tickAll_awake hinv hc h.waits.1 (h.ne_current hp) hawake]
    exact h.runnable
  · rw [htask]
    exact hon.running
  · rw [hticks]
    omega
  · have hle := hon.ticks_le
    rw [hr] at hle
    rw [hticks]
    omega
  · rw [hticks]
    omega

end Waiter

section Step

variable {vm : Vm M D} {b : Boot} {k k' y : Kernel M D} {e : Entry} {c p q n r : Nat}

/-- The record of a CPU on which `sched_yield` is not called. -/
theorem step_record (hinv : QueueInv b k) (hstep : Step vm b k e k')
    (hnot : e.cpu ≠ c ∨ yieldState k e = none) :
    k'.cpus c = k.cpus c ∨
      ∃ pid, k'.cpus c = { k.cpus c with cpuRq := (k.cpus c).cpuRq.append pid } := by
  obtain ⟨hc, p, hp, -⟩ := step_effect hstep
  rcases step_yield hstep hp with ⟨y, hy, -, hsame⟩ | ⟨-, -, hcpus | ⟨-, pid, -, hsame⟩⟩
  · rw [hy] at hnot
    have hne : c ≠ e.cpu := fun heq => hnot.elim (fun h => h heq.symm) (by simp)
    obtain ⟨hinvy, -, hcpus⟩ := yieldState_cases hinv hc hp hy
    have hyk : y.cpus c = k.cpus c := by
      rcases hcpus with hcpus | ⟨-, -, rfl⟩
      · rw [hcpus]
      · exact killed_cpus_other k _ hne
    rw [← hsame.cpus]
    rcases schedYield_spec (hinvy.total_pos _ hc) with ⟨heq, -⟩ | ⟨r, -, hsw⟩
    · exact Or.inl (by rw [heq, hyk])
    · exact Or.inl ((hsw.elsewhere c hne).trans hyk)
  · exact Or.inl (by rw [hcpus])
  · rw [← hsame.cpus]
    by_cases hcc : c = leastLoaded b k.cpus
    · exact Or.inr ⟨pid, by rw [hcc, forked_cpus_same]⟩
    · exact Or.inl (forked_cpus_other b k pid hcc)

/-- An entry that neither calls `sched_yield` nor is a tick. -/
theorem untouched_of_no_yield (hinv : QueueInv b k) (hstep : Step vm b k e k')
    (hy : yieldState k e = none) (htimer : callOf e.tf ≠ .timer) : Untouched k k' e.cpu := by
  obtain ⟨hc, p, hp, he⟩ := step_effect hstep
  rcases effect_cases hinv hc hc hp he with ⟨-, hu⟩ | ⟨-, k₁, -, -, hk₁⟩
  · exact hu
  rcases hk₁ with ⟨n, hcall, -⟩ | ⟨hcall, hacts, -⟩ | ⟨hcall, -⟩
  · simp [yieldState, hp, hcall] at hy
  · simp [yieldState, hp, hcall, hinv.current_taskId hc hp, hacts] at hy
  · exact absurd hcall htimer

/-- Another task is selected, on the CPU where `q` waits. -/
theorem Waiter.yields (h : Waiter k e.cpu q n r) (hinv : QueueInv b k) (hc : e.cpu < b.ncpu)
    (hp : (k.cpus e.cpu).cpuTask = some p) (hy : yieldState k e = some y)
    (hsame : SameSched (Nctuos.schedYield y e.cpu).2 k') (hinv' : QueueInv b k')
    (hnot : ¬ Selects k e e.cpu q) :
    ∃ n' r', Waiter k' e.cpu q n' r' ∧
      patience k' e.cpu n' r' + (if callOf e.tf = .timer then 1 else 0) ≤
        patience k e.cpu n r +
          if callOf e.tf = .kill then (nrTasks - 1) * timeQuant.toNat else 0 := by
  obtain ⟨hinvy, hkeep, hcpus⟩ := yieldState_cases hinv hc hp hy
  have hrun : (y.tasks q).state = .runnable := hkeep q (h.ne_current hp) h.runnable
  have hsel : (Nctuos.schedYield y e.cpu).1 ≠ some q := by
    intro hs
    exact hnot ⟨rfl, by rw [selected_of_yieldState hy, hs]⟩
  rcases hcpus with hcpus | ⟨hcall, hacts, rfl⟩
  · obtain ⟨i, hi, hq, hn⟩ := h.place
    obtain ⟨n', hw, hlt, htotal⟩ := Waiter.schedYield hinvy hc hrun (i := i)
      (by rw [hcpus]; exact hi) (by rw [hcpus]; exact hq) hsel
    have hstart : yieldStart (k.cpus e.cpu) = (k.cpus e.cpu).cpuRq.currentIndex := by
      rw [yieldStart, hp, Option.isSome_some, if_pos rfl]
    rw [hcpus, hstart, hn] at hlt
    refine ⟨n', _, hw.congr hsame, ?_⟩
    have hslots : nrTasks - (k.cpus e.cpu).cpuRq.total + n' + 1 ≤
        nrTasks - (k.cpus e.cpu).cpuRq.total + n := by omega
    have hmul := Nat.mul_le_mul_right timeQuant.toNat hslots
    have hr := h.ticks.1
    rw [Nat.succ_mul] at hmul
    rw [patience, patience, ← hsame.cpus, htotal, hcpus]
    split_ifs <;> omega
  · obtain ⟨i, hi, hq⟩ := (queued_killed_iff hinv hc hp q).mpr ⟨h.waits.1, h.ne_current hp⟩
    obtain ⟨n', hw, -, -⟩ := Waiter.schedYield hinvy hc hrun hi hq hsel
    refine ⟨n', _, hw.congr hsame, ?_⟩
    have hle := (hw.congr hsame).patience_le hinv' hc
    simp only [hcall, reduceCtorEq, if_true, if_false]
    omega

/-- **One step of waiting.**  As long as `q` is not selected it goes on to wait, a tick costs it
some of its patience, and only a kill on its CPU can give it more. -/
theorem Waiter.step (h : Waiter k c q n r) (hinv : QueueInv b k) (hc : c < b.ncpu)
    (hstep : Step vm b k e k') (hnot : ¬ Selects k e c q) :
    ∃ n' r', Waiter k' c q n' r' ∧
      patience k' c n' r' + (if e.cpu = c ∧ callOf e.tf = .timer then 1 else 0) ≤
        patience k c n r +
          if e.cpu = c ∧ callOf e.tf = .kill then (nrTasks - 1) * timeQuant.toNat else 0 := by
  obtain ⟨hce, p, hp, he⟩ := step_effect hstep
  have hinv' := hinv.step hstep
  by_cases hcc : e.cpu = c
  · subst hcc
    simp only [true_and]
    rcases step_yield hstep hp with ⟨y, hy, -, hsame⟩ | ⟨hy, -, -⟩
    · exact h.yields hinv hc hp hy hsame hinv' hnot
    · by_cases htimer : callOf e.tf = .timer
      · rw [htimer] at he
        have hleft :
            0 < ((tickAll { k with jiffies := k.jiffies + 1 } e.cpu p).tasks p).remindTicks := by
          simpa [yieldState, hp, htimer] using hy
        obtain ⟨hw, hr⟩ := h.tick hinv hc hp hleft
        have hsame : SameSched (tickAll { k with jiffies := k.jiffies + 1 } e.cpu p) k' := by
          have := he.2
          simp only [timerHandler, hp, if_neg (Int.not_le.mpr hleft)] at this
          exact this
        refine ⟨n, r - 1, hw.congr hsame, ?_⟩
        have hcpus : k'.cpus = k.cpus := hsame.cpus.symm
        simp only [patience, hcpus, htimer, reduceCtorEq, if_true, if_false]
        omega
      · obtain ⟨n', hw, hle⟩ := h.untouched hinv hinv' hc
          (untouched_of_no_yield hinv hstep hy htimer) (step_record hinv hstep (Or.inr hy))
        refine ⟨n', r, hw, ?_⟩
        rw [if_neg htimer]
        omega
  · obtain ⟨n', hw, hle⟩ := h.untouched hinv hinv' hc
      (Untouched.effect hinv hce hp he hc fun heq => hcc heq.symm)
      (step_record hinv hstep (Or.inl hcc))
    refine ⟨n', r, hw, ?_⟩
    simp only [hcc, false_and, if_false]
    exact hle

end Step

/-! ## Whole runs -/

/-- After boot a current task in state running has ticks left, on every CPU. -/
theorem busy_of_running {vm : Vm M D} {b : Boot} {m : M} {k₀ k : Kernel M D} {es : List Entry}
    {c p : Nat} (hboot : bootAll vm b m = .ok k₀) (hrun : Run (Step vm b) k₀ es k) (hc : c < b.ncpu)
    (hp : (k.cpus c).cpuTask = some p) (hrunning : (k.tasks p).state = .running) : Busy k c := by
  obtain ⟨-, hunless⟩ := hrun.invariant (I := fun k => QueueInv b k ∧ RunningUnless True k c)
    (fun k e k' ⟨hinv, hunless⟩ hstep => by
      obtain ⟨hc', p, hp, he⟩ := step_effect hstep
      exact ⟨hinv.step hstep, hunless.effect hinv hc hc' hp he fun _ _ _ => Or.inl trivial⟩)
    ⟨boot_queueInv hboot, fun p hp => Or.inl (boot_running hboot c p hc hp)⟩
  rcases hunless p hp with hon | ⟨-, hnot⟩
  · exact ⟨p, hp, hon⟩
  · exact absurd hrunning hnot

/-- **Waiting is bounded** in every run from boot. -/
theorem waiting_is_bounded {vm : Vm M D} {b : Boot} {m : M} {k₀ : Kernel M D}
    (hboot : bootAll vm b m = .ok k₀) : BoundedWaiting (Step vm b) b k₀ := by
  intro es k es' k' c p q hrun hc hp hrunning hwaits hrun'
  have hbusy := busy_of_running hboot hrun hc hp hrunning
  have hinv : QueueInv b k :=
    hrun.invariant (fun _ _ _ h hs => h.step hs) (boot_queueInv hboot)
  rcases hrun'.exists_or_mono fun k e => Selects k e c q with hsel | hnone
  · exact Or.inl hsel
  · refine Or.inr ?_
    obtain ⟨n, r, hw⟩ := Waiter.of_waits hbusy hwaits
    -- the ticks so far and the patience left are paid for by the first patience and the kills
    obtain ⟨-, n', r', hw', hle⟩ := hnone.history_invariant
      (I := fun es' k' => QueueInv b k' ∧ ∃ n' r', Waiter k' c q n' r' ∧
        patience k' c n' r' + ticksOn c es' ≤
          (killsOn c es' + 1) * ((nrTasks - 1) * timeQuant.toNat))
      ⟨hinv, n, r, hw, by simpa [ticksOn, killsOn] using hw.patience_le hinv hc⟩
      (fun es' k₁ e k₂ _ ⟨hinv₁, n₁, r₁, hw₁, hle₁⟩ ⟨hstep, hnot⟩ => by
        obtain ⟨n₂, r₂, hw₂, hle₂⟩ := hw₁.step hinv₁ hc hstep hnot
        refine ⟨hinv₁.step hstep, n₂, r₂, hw₂, ?_⟩
        rw [ticksOn_concat, killsOn_concat]
        split_ifs at hle₂ ⊢ <;> simp only [Nat.add_mul] at * <;> omega)
    have hpos := hw'.ticks.1
    refine ⟨hw'.busy, hw'.waits, ?_⟩
    rw [patience] at hle
    omega

/-- One CPU: the shell forks, and its child waits. -/
theorem waiting_is_bounded_one_cpu :
    ∃ (k₀ k : Kernel Unit Unit) (es : List Entry),
      bootAll .unlimited (.small false) () = .ok k₀ ∧
      Run (Step .unlimited (.small false)) k₀ es k ∧ Busy k 0 ∧ Waits k 0 1 ∧
      BoundedWaiting (Step .unlimited (.small false)) (.small false) k₀ := by
  obtain ⟨k₀, es, k, hboot, hrun, hcheck⟩ := exists_run_of_plays
    (show plays .unlimited (.small false) () (fun _ _ _ => true) [(0, syscallFrame 4 0)]
      (fun _ _ k => decide ((k.cpus 0).cpuTask = some 0 ∧ (k.tasks 0).state = .running ∧
        (k.tasks 0).remindTicks = 100 ∧ Waits k 0 1)) = true by decide +kernel)
  obtain ⟨hcur, hstate, hticks, hwaits⟩ := of_decide_eq_true hcheck
  refine ⟨k₀, k, es, hboot, hrun.mono fun _ _ _ h => h.1, ⟨0, hcur, hstate, ?_, ?_⟩, hwaits,
    waiting_is_bounded hboot⟩
  · rw [hticks]
    decide
  · rw [hticks]
    decide

/-! ## The shell starves -/

section Relay

variable {c : Config} {local₀ : Option PtePtr} {b : Boot} {k k' : Kernel Mem Nat} {t t' p : Nat}

/-- `sched_yield` moves nobody. -/
theorem schedYield_entries (k : Kernel M D) (c : Nat) :
    ((schedYield k c).2.cpus c).cpuRq.total = (k.cpus c).cpuRq.total ∧
      ((schedYield k c).2.cpus c).cpuRq.runQueue = (k.cpus c).cpuRq.runQueue := by
  unfold schedYield
  cases pick (fun p => (k.tasks p).state) (k.cpus c) with
  | none => exact ⟨rfl, rfl⟩
  | some i => simp

theorem leastLoaded_one (hone : b.ncpu = 1) (cpus : Nat → CpuInfo) : leastLoaded b cpus = 0 := by
  have := leastLoaded_lt b cpus
  omega

/-- The queue of CPU 0 holds the shell and task `t`, in this order. -/
structure Pair (c : Config) (b : Boot) (k : Kernel Mem Nat) (t : Nat) : Prop where
  ample : Ample c b k
  total : (k.cpus 0).cpuRq.total = 2
  first : (k.cpus 0).cpuRq.runQueue 0 = 0
  second : (k.cpus 0).cpuRq.runQueue 1 = t

/-- The shell waits, and the other task runs. -/
structure Relay (c : Config) (b : Boot) (k : Kernel Mem Nat) (t : Nat) : Prop extends
    Pair c b k t where
  cpuTask : (k.cpus 0).cpuTask = some t
  shell : (k.tasks 0).state = .runnable
  onCpu : OnCpu (k.tasks t)
  /-- It can run for a tick. -/
  left : 1 < (k.tasks t).remindTicks

/-- The same with a child of `t` in entry `2`. -/
structure Handover (c : Config) (b : Boot) (k : Kernel Mem Nat) (t t' : Nat) : Prop where
  ample : Ample c b k
  total : (k.cpus 0).cpuRq.total = 3
  first : (k.cpus 0).cpuRq.runQueue 0 = 0
  second : (k.cpus 0).cpuRq.runQueue 1 = t
  third : (k.cpus 0).cpuRq.runQueue 2 = t'
  cpuTask : (k.cpus 0).cpuTask = some t
  shell : (k.tasks 0).state = .runnable
  onCpu : OnCpu (k.tasks t)
  child : (k.tasks t').state = .runnable

theorem ne_of_onCpu {p q : Nat} (hp : OnCpu (k.tasks p)) (hq : (k.tasks q).state = .runnable) :
    q ≠ p := by
  rintro rfl
  exact absurd (hp.running.symm.trans hq) (by decide)

/-- Two entries leave a slot free. -/
theorem exists_slot (hinv : QueueInv b k) (hone : b.ncpu = 1)
    (htotal : (k.cpus 0).cpuRq.total ≤ 2) : findFree k.tasks ≠ none := by
  intro hnone
  have hentry : ∀ p, p < nrTasks → ∃ i, i < 2 ∧ (k.cpus 0).cpuRq.runQueue i = p := by
    intro p hp
    have hs : (k.tasks p).state ≠ .free := by
      simpa using List.find?_eq_none.mp hnone p (List.mem_range.mpr hp)
    obtain ⟨c', i, hc', hi, hval⟩ := (hinv.live p hp).mp hs
    obtain rfl : c' = 0 := by omega
    exact ⟨i, by omega, hval⟩
  obtain ⟨i, hi, h0⟩ := hentry 0 (by decide)
  obtain ⟨j, hj, h1⟩ := hentry 1 (by decide)
  obtain ⟨l, hl, h2⟩ := hentry 2 (by decide)
  have hij : i ≠ j := fun heq => absurd (h0.symm.trans (heq ▸ h1)) (by decide)
  have hil : i ≠ l := fun heq => absurd (h0.symm.trans (heq ▸ h2)) (by decide)
  have hjl : j ≠ l := fun heq => absurd (h1.symm.trans (heq ▸ h2)) (by decide)
  omega

/-- The queue without `t`: the last entry has taken its place, and it is the first that
`sched_yield` looks at. -/
theorem Handover.killed (h : Handover c b k t t') (hcpu : 0 < b.ncpu) :
    KillActs k 0 t ∧ ((killed k 0 t).cpus 0).cpuRq.total = 2 ∧
      ((killed k 0 t).cpus 0).cpuRq.runQueue 0 = 0 ∧
      ((killed k 0 t).cpus 0).cpuRq.runQueue 1 = t' ∧
      (schedYield (killed k 0 t) 0).1 = some t' := by
  have hinv := h.ample.1.1
  have hne₀ := ne_of_onCpu h.onCpu h.shell
  have hne := ne_of_onCpu h.onCpu h.child
  have hindex : findIndex (k.cpus 0).cpuRq t = some 1 := by
    simp [findIndex, h.total, List.range_succ, h.first, h.second, hne₀]
  obtain ⟨htotal, -, hentry⟩ := remove_eq hindex
  have hrec := killed_cpus_same k 0 t
  have hlen : ((Nctuos.killed k 0 t).cpus 0).cpuRq.total = 2 := by
    rw [hrec, htotal, h.total]
  have hlast : ((Nctuos.killed k 0 t).cpus 0).cpuRq.runQueue 1 = t' := by
    rw [hrec, hentry, h.total]
    exact h.third
  refine ⟨⟨Nat.pos_of_ne_zero hne₀.symm, (hinv.current_live hcpu h.cpuTask).1, ?_⟩, hlen, ?_,
    hlast, ?_⟩
  · rw [h.total]
    decide
  · rw [hrec, hentry, h.total]
    exact h.first
  · have hstart : yieldStart ((Nctuos.killed k 0 t).cpus 0) = 0 := by
      rw [hrec]
      rfl
    have hpick : pick (fun q => ((Nctuos.killed k 0 t).tasks q).state)
        ((Nctuos.killed k 0 t).cpus 0) = some 1 := by
      rw [pick_eq_some_iff (by rw [hlen, hstart]; decide), hlen, hlast, hstart]
      refine ⟨by decide, ?_, fun j _ _ => ?_⟩
      · rw [killed_tasks_other k 0 hne, h.child]
      · rw [show turn 2 0 1 = 0 by decide]
        exact Nat.zero_le _
    simp only [schedYield, hpick, hlast]

theorem Pair.ne (h : Pair c b k t) (hcpu : 0 < b.ncpu) : 0 ≠ t := by
  rintro rfl
  have := (h.ample.1.1.inj 0 0 0 1 hcpu hcpu (by rw [h.total]; decide) (by rw [h.total]; decide)
    (h.first.trans h.second.symm)).2
  omega

/-- An entry in which the shell waits and is passed over. -/
def StarveStep (c : Config) (local₀ : Option PtePtr) (b : Boot) (k : Kernel Mem Nat) (e : Entry)
    (k' : Kernel Mem Nat) : Prop :=
  Step (memVm c local₀) b k e k' ∧ Waits k 0 0 ∧ ¬ Selects k e 0 0

theorem Relay.waits (h : Relay c b k t) : Waits k 0 0 :=
  ⟨⟨0, by rw [h.total]; decide, h.first⟩, h.shell⟩

theorem Handover.waits (h : Handover c b k t t') : Waits k 0 0 :=
  ⟨⟨0, by rw [h.total]; decide, h.first⟩, h.shell⟩

section Moves

variable (hlocal : local₀.isSome) (halign : ∀ s ∈ userSections c, s.start % pgSize = 0)

include hlocal halign

/-- A request of the current task of CPU 0, with what the scheduler makes of it. -/
theorem Ample.request (h : Ample c b k) (hcpu : 0 < b.ncpu) (hp : (k.cpus 0).cpuTask = some p)
    (tf : Trapframe) (htf : Request tf) (hin : ¬ PutsOutside c tf) :
    ∃ e k', Step (memVm c local₀) b k e k' ∧ e.cpu = 0 ∧ e.tf = tf ∧ Ample c b k' ∧
      Effect b k 0 p e.resumed.pid k' (callOf tf) := by
  obtain ⟨resumed, k', hstep, -⟩ := h.exists_step hlocal halign hcpu hp htf hin 0
  obtain ⟨-, p', hp', heff⟩ := step_effect hstep
  obtain rfl : p' = p := Option.some.inj (hp'.symm.trans hp)
  exact ⟨_, k', hstep, rfl, rfl, h.step hlocal halign hstep, heff⟩

/-- A fork on the only CPU, which has a slot to give. -/
theorem Ample.forks (h : Ample c b k) (hone : b.ncpu = 1) (hp : (k.cpus 0).cpuTask = some p)
    (hslot : findFree k.tasks ≠ none) :
    ∃ e k' t', Step (memVm c local₀) b k e k' ∧ callOf e.tf = .fork ∧ Ample c b k' ∧
      (k.tasks t').state = .free ∧ SameSched (forked b k t') k' ∧
      k'.cpus 0 = { k.cpus 0 with cpuRq := (k.cpus 0).cpuRq.append t' } := by
  obtain ⟨hq, dirs, l, hpages⟩ := id h.1
  have hcpu : 0 < b.ncpu := by omega
  obtain ⟨t', ht'⟩ := Option.ne_none_iff_exists'.mp hslot
  have hfree := (findFree_some ht').2
  obtain ⟨e, k', hstep, -, hcall, -, halive⟩ := hpages.exists_fork (b := b) local₀ halign hcpu hp
    (hq.current_live hcpu hp).2 ht' (h.room hpages hslot)
  obtain ⟨-, p', hp', heff⟩ := step_effect hstep
  rw [hcall] at heff
  have hsame : SameSched (forked b k t') k' := by
    rcases heff.2 with hs | ⟨pid, hpid, hs⟩
    · exact absurd hfree ((hs.alive t').mp halive)
    · rw [ht', Option.some.injEq] at hpid
      exact hpid ▸ hs
  refine ⟨e, k', t', hstep, hcall, h.step hlocal halign hstep, hfree, hsame, ?_⟩
  rw [← hsame.cpus]
  have hrec := forked_cpus_same b k t'
  rwa [leastLoaded_one hone] at hrec

/-- The running task forks. -/
theorem Relay.forks (h : Relay c b k t) (hone : b.ncpu = 1) :
    ∃ e k' t', Step (memVm c local₀) b k e k' ∧ callOf e.tf = .fork ∧ Handover c b k' t t' ∧
      1 < (k'.tasks t).remindTicks := by
  have hinv := h.ample.1.1
  obtain ⟨e, k', t', hstep, hcall, hample, hfree, hsame, hrec⟩ := h.ample.forks hlocal halign hone
    h.cpuTask (exists_slot hinv hone (Nat.le_of_eq h.total))
  have htask : ∀ s, (k.tasks s).state ≠ .free → (k'.tasks s).state = (k.tasks s).state ∧
      (k'.tasks s).remindTicks = (k.tasks s).remindTicks := by
    intro s hs
    have hne : s ≠ t' := fun heq => hs (heq ▸ hfree)
    rw [← hsame.state, ← hsame.ticks, forked_tasks_other b k hne]
    exact ⟨rfl, rfl⟩
  have hshell := htask 0 (by rw [h.shell]; decide)
  have hcaller := htask t (by rw [h.onCpu.running]; decide)
  refine ⟨e, k', t', hstep, hcall, ⟨hample, ?_, ?_, ?_, ?_, ?_, hshell.1.trans h.shell,
    h.onCpu.congr hcaller.1 hcaller.2, ?_⟩, ?_⟩
  · rw [hrec, Runqueue.append, h.total]
  · simpa [hrec, Runqueue.append, h.total] using h.first
  · simpa [hrec, Runqueue.append, h.total] using h.second
  · simp [hrec, Runqueue.append, h.total]
  · rw [hrec]
    exact h.cpuTask
  · rw [← hsame.state, forked_tasks_same]
  · rw [hcaller.2]
    exact h.left

/-- It runs for a tick. -/
theorem Handover.ticks (h : Handover c b k t t') (hleft : 1 < (k.tasks t).remindTicks)
    (hcpu : 0 < b.ncpu) :
    ∃ e k', Step (memVm c local₀) b k e k' ∧ e.cpu = 0 ∧ callOf e.tf = .timer ∧
      yieldState k e = none ∧ Handover c b k' t t' := by
  have hinv := h.ample.1.1
  obtain ⟨e, k', hstep, he, htf, hample, heff⟩ := h.ample.request hlocal halign hcpu h.cpuTask
    timerFrame (Or.inr (Or.inl (by decide))) (not_putsOutside (by decide) c)
  have hcall : callOf timerFrame = .timer := by decide
  rw [hcall] at heff
  have htask := tickAll_onCpu hinv hcpu h.cpuTask h.onCpu
  have hmore : ¬ ((tickAll { k with jiffies := k.jiffies + 1 } 0 t).tasks t).remindTicks ≤ 0 := by
    rw [htask]
    show ¬ (k.tasks t).remindTicks - 1 ≤ 0
    omega
  have hsame : SameSched (tickAll { k with jiffies := k.jiffies + 1 } 0 t) k' := by
    have hs := heff.2
    simp only [timerHandler, h.cpuTask, if_neg hmore] at hs
    exact hs
  have hawake : ∀ i q, i < 3 → (k.cpus 0).cpuRq.runQueue i = q →
      (k.tasks q).state = .runnable → (k'.tasks q).state = .runnable := by
    intro i q hi hq hrun
    rw [← hsame.state q, tickAll_awake hinv hcpu ⟨i, by rw [h.total]; exact hi, hq⟩
      (ne_of_onCpu h.onCpu hrun) (by rw [hrun]; decide)]
    exact hrun
  have hcpus : k'.cpus = k.cpus := hsame.cpus.symm
  refine ⟨e, k', hstep, he, htf ▸ hcall, ?_, ⟨hample, ?_, ?_, ?_, ?_, ?_,
    hawake 0 0 (by decide) h.first h.shell, ⟨?_, ?_, ?_⟩, hawake 2 t' (by decide) h.third h.child⟩⟩
  · simp only [yieldState, he, h.cpuTask, htf, hcall]
    exact if_neg hmore
  · rw [hcpus, h.total]
  · rw [hcpus, h.first]
  · rw [hcpus, h.second]
  · rw [hcpus, h.third]
  · rw [hcpus, h.cpuTask]
  · rw [← hsame.state t, htask]
    exact h.onCpu.running
  · rw [← hsame.ticks t, htask]
    show 1 ≤ (k.tasks t).remindTicks - 1
    omega
  · rw [← hsame.ticks t, htask]
    have hle := h.onCpu.ticks_le
    show (k.tasks t).remindTicks - 1 ≤ timeQuant
    omega

/-- It kills itself, and hands the CPU over. -/
theorem Handover.kills (h : Handover c b k t t') (hcpu : 0 < b.ncpu) :
    ∃ e k', Step (memVm c local₀) b k e k' ∧ callOf e.tf = .kill ∧ selected k e = some t' ∧
      Relay c b k' t' := by
  have hinv := h.ample.1.1
  obtain ⟨e, k', hstep, he, htf, hample, heff⟩ := h.ample.request hlocal halign hcpu h.cpuTask
    (syscallFrame 5 0) (Or.inl (by decide)) (not_putsOutside (by decide) c)
  have hcall : callOf (syscallFrame 5 0) = .kill := by decide
  have hid := hinv.current_taskId hcpu h.cpuTask
  obtain ⟨hacts, hlen, hfirst, hlast, hsel⟩ := h.killed hcpu
  have hinvk := hinv.killed hcpu h.cpuTask hacts.2.2
  rw [hcall] at heff
  have hsame : SameSched (schedYield (Nctuos.killed k 0 t) 0).2 k' := by
    rcases heff with ⟨-, -, hs⟩ | ⟨hnot, -, -⟩
    · rwa [hid] at hs
    · rw [hid] at hnot
      exact absurd hacts hnot
  obtain ⟨q, hq, hsw⟩ : ∃ q, (schedYield (Nctuos.killed k 0 t) 0).1 = some q ∧
      SwitchedTo (Nctuos.killed k 0 t) (schedYield (Nctuos.killed k 0 t) 0).2 0 q := by
    rcases schedYield_spec (hinvk.total_pos 0 hcpu) with ⟨heq, -⟩ | hsw
    · rw [heq] at hsel
      cases hsel
    · exact hsw
  obtain rfl : q = t' := Option.some.inj (hq.symm.trans hsel)
  obtain ⟨htotal, hentries⟩ := schedYield_entries (Nctuos.killed k 0 t) 0
  have hchild : (k'.tasks q).remindTicks = timeQuant := (hsame.ticks q).symm.trans hsw.ticks
  have hne : 0 ≠ q := by
    rintro rfl
    have := (hinvk.inj 0 0 0 1 hcpu hcpu (by rw [hlen]; decide) (by rw [hlen]; decide)
      (hfirst.trans hlast.symm)).2
    omega
  refine ⟨e, k', hstep, htf ▸ hcall, ?_, ⟨⟨hample, ?_, ?_, ?_⟩, ?_, ?_, ?_, ?_⟩⟩
  · have hy : yieldState k e = some (Nctuos.killed k 0 t) := by
      simp only [yieldState, he, h.cpuTask, htf, hcall, hid, if_pos hacts]
    rw [selected_of_yieldState hy, he, hsel]
  · rw [← hsame.cpus, htotal, hlen]
  · rw [← hsame.cpus, hentries, hfirst]
  · rw [← hsame.cpus, hentries, hlast]
  · rw [← hsame.cpus]
    exact hsw.cpuTask
  · rw [← hsame.state, hsw.other 0 hne, killed_tasks_other k 0 (ne_of_onCpu h.onCpu h.shell)]
    exact h.shell
  · exact hsw.onCpu.congr (hsame.state q).symm (hsame.ticks q).symm
  · rw [hchild]
    decide

/-- The shell goes to sleep for a tick, and there is only the child to run. -/
theorem Pair.sleeps (h : Pair c b k t) (hcur : (k.cpus 0).cpuTask = some 0)
    (hchild : (k.tasks t).state = .runnable) (hcpu : 0 < b.ncpu) :
    ∃ e k', Step (memVm c local₀) b k e k' ∧ Pair c b k' t ∧ (k'.cpus 0).cpuTask = some t ∧
      OnCpu (k'.tasks t) ∧ (k'.tasks t).remindTicks = timeQuant ∧
      (k'.tasks 0).state = .sleep ∧ (k'.tasks 0).remindTicks = 1 := by
  have hne := h.ne hcpu
  obtain ⟨e, k', hstep, -, -, hample, heff⟩ := h.ample.request hlocal halign hcpu hcur
    (syscallFrame 6 1) (Or.inl (by decide)) (not_putsOutside (by decide) c)
  rw [show callOf (syscallFrame 6 1) = .sleep 1 by decide] at heff
  have hsame := heff.2
  obtain ⟨r, hr, -, hsw⟩ := sleep_switches 1 (k := k) (c := 0) (p := 0)
    ⟨t, ⟨1, by rw [h.total]; decide, h.second⟩, hne.symm, hchild⟩
  obtain ⟨htotal, hentries⟩ := schedYield_entries (asleep k 0 1) 0
  obtain rfl : r = t := by
    obtain ⟨i, hi, hval⟩ := hsw.queued
    rw [asleep, Kernel.modTask_cpus] at hi hval
    rw [h.total] at hi
    obtain rfl | rfl : i = 0 ∨ i = 1 := by omega
    · exact absurd (hval.symm.trans h.first) hr
    · exact hval.symm.trans h.second
  refine ⟨e, k', hstep, ⟨hample, ?_, ?_, ?_⟩, ?_, hsw.onCpu.congr (hsame.state r).symm
    (hsame.ticks r).symm, (hsame.ticks r).symm.trans hsw.ticks, ?_⟩
  · rw [← hsame.cpus, htotal]
    exact h.total
  · rw [← hsame.cpus, hentries]
    exact h.first
  · rw [← hsame.cpus, hentries]
    exact h.second
  · rw [← hsame.cpus]
    exact hsw.cpuTask
  · rw [← hsame.state, ← hsame.ticks, hsw.other 0 hne, asleep, Kernel.modTask_same]
    exact ⟨rfl, rfl⟩

/-- The tick wakes the shell. -/
theorem Pair.wakes (h : Pair c b k t) (hcur : (k.cpus 0).cpuTask = some t) (hon : OnCpu (k.tasks t))
    (hticks : (k.tasks t).remindTicks = timeQuant) (hshell : (k.tasks 0).state = .sleep)
    (hone : (k.tasks 0).remindTicks = 1) (hcpu : 0 < b.ncpu) :
    ∃ e k', Step (memVm c local₀) b k e k' ∧ Relay c b k' t := by
  have hinv := h.ample.1.1
  obtain ⟨e, k', hstep, -, -, hample, heff⟩ := h.ample.request hlocal halign hcpu hcur
    timerFrame (Or.inr (Or.inl (by decide))) (not_putsOutside (by decide) c)
  rw [show callOf timerFrame = .timer by decide] at heff
  have htask := tickAll_onCpu hinv hcpu hcur hon
  rw [hticks] at htask
  have hsame : SameSched (tickAll { k with jiffies := k.jiffies + 1 } 0 t) k' := by
    have hs := heff.2
    simp only [timerHandler, hcur, htask] at hs
    exact hs
  have hleft : (k'.tasks t).remindTicks = 99 := by
    rw [← hsame.ticks, htask]
    rfl
  have hinv' := hinv.setJiffies
  have hcpus : k'.cpus = k.cpus := hsame.cpus.symm
  refine ⟨e, k', hstep, ⟨⟨hample, ?_, ?_, ?_⟩, ?_, ?_, ⟨?_, ?_, ?_⟩, ?_⟩⟩
  · rw [hcpus, h.total]
  · rw [hcpus, h.first]
  · rw [hcpus, h.second]
  · rw [hcpus, hcur]
  · rw [← hsame.state,
      hinv'.tickAll_queued hcpu ⟨0, by rw [h.total]; decide, h.first⟩ (h.ne hcpu)]
    simp only [tickSleeper, hshell, hone, if_true]
    decide
  · rw [← hsame.state, htask]
    exact hon.running
  · rw [hleft]
    decide
  · rw [hleft]
    decide
  · rw [hleft]
    decide

/-- One round: fork, run for a tick, exit. -/
theorem Relay.round (h : Relay c b k t) (hone : b.ncpu = 1) :
    ∃ es k' t', Run (StarveStep c local₀ b) k es k' ∧ Relay c b k' t' ∧ ticksOn 0 es = 1 := by
  have hcpu : 0 < b.ncpu := by omega
  obtain ⟨e₁, k₁, t', hstep₁, hcall₁, h₁, hleft⟩ := h.forks hlocal halign hone
  obtain ⟨e₂, k₂, hstep₂, hcpu₂, hcall₂, hy₂, h₂⟩ := h₁.ticks hlocal halign hleft hcpu
  obtain ⟨e₃, k₃, hstep₃, hcall₃, hsel₃, h₃⟩ := h₂.kills hlocal halign hcpu
  refine ⟨[e₁, e₂, e₃], k₃, t', .cons ⟨hstep₁, h.waits, ?_⟩ (.cons ⟨hstep₂, h₁.waits, ?_⟩
    (.cons ⟨hstep₃, h₂.waits, ?_⟩ (.nil k₃))), h₃, ?_⟩
  · rintro ⟨-, hsel⟩
    obtain ⟨-, p, hp, -⟩ := step_effect hstep₁
    rw [selected_of_none (by simp [yieldState, hp, hcall₁])] at hsel
    cases hsel
  · rintro ⟨-, hsel⟩
    rw [selected_of_none hy₂] at hsel
    cases hsel
  · rintro ⟨-, hsel⟩
    rw [hsel₃, Option.some.injEq] at hsel
    subst hsel
    exact ne_of_onCpu h₃.onCpu h₃.shell rfl
  · simp [ticksOn, hcall₁, hcall₂, hcall₃, hcpu₂]

end Moves

/-- After boot the shell forks. -/
theorem exists_pair {k₀ : Kernel Mem Nat} (hlocal : local₀.isSome) (hboot : Booted c local₀ b k₀)
    (hroom : 68 + pagesPerTask c * nrTasks ≤ (initList c).length) (hone : b.ncpu = 1) :
    ∃ e k t, Step (memVm c local₀) b k₀ e k ∧ Pair c b k t ∧ (k.cpus 0).cpuTask = some 0 ∧
      (k.tasks t).state = .runnable := by
  have hample := Ample.of_booted hboot hroom
  have halign := hboot.aligned
  obtain ⟨ram, m₀, m, -, -, hall⟩ := hboot
  have hinit := bootInv_of_bootAll hall
  have horder : b.order = [0] := by
    have := b.bootcpu_lt
    have hzero : b.bootcpu = 0 := by omega
    simp [Boot.order, hone, hzero, List.range_succ]
  rw [horder] at hinit
  obtain ⟨hcur, htotal, -, hentry⟩ := hinit.cpu 0 (List.mem_singleton_self 0)
  obtain ⟨e, k, t, hstep, -, hample', -, hsame, hrec⟩ := hample.forks hlocal halign hone hcur
    (exists_slot hample.1.1 hone (by omega))
  refine ⟨e, k, t, hstep, ⟨hample', ?_, ?_, ?_⟩, ?_, ?_⟩
  · rw [hrec, Runqueue.append, htotal]
  · simpa [hrec, Runqueue.append, htotal] using hentry
  · simp [hrec, Runqueue.append, htotal]
  · rw [hrec]
    exact hcur
  · rw [← hsame.state, forked_tasks_same]

theorem exists_relay {k₀ : Kernel Mem Nat} (hlocal : local₀.isSome) (hboot : Booted c local₀ b k₀)
    (hroom : 68 + pagesPerTask c * nrTasks ≤ (initList c).length) (hone : b.ncpu = 1) :
    ∃ es k t, Run (Step (memVm c local₀) b) k₀ es k ∧ Relay c b k t := by
  have halign := hboot.aligned
  have hcpu : 0 < b.ncpu := by omega
  obtain ⟨e₁, k₁, t, hstep₁, h₁, hcur₁, hchild⟩ := exists_pair hlocal hboot hroom hone
  obtain ⟨e₂, k₂, hstep₂, h₂, hcur₂, hon, hticks, hshell, hshell'⟩ :=
    h₁.sleeps hlocal halign hcur₁ hchild hcpu
  obtain ⟨e₃, k₃, hstep₃, h₃⟩ := h₂.wakes hlocal halign hcur₂ hon hticks hshell hshell' hcpu
  exact ⟨[e₁, e₂, e₃], k₃, t, .cons hstep₁ (.cons hstep₂ (.cons hstep₃ (.nil k₃))), h₃⟩

end Relay

/-- **The shell can wait forever.**  On a machine with one CPU and memory for `NR_TASKS` tasks, for
every number `n` there is a run from boot after which the shell waits, and from there one of `n`
ticks in which it is ready to run all the time and never selected. -/
theorem shell_starves {c : Config} {local₀ : Option PtePtr} {b : Boot} {k₀ : Kernel Mem Nat}
    (hlocal : local₀.isSome) (hboot : Booted c local₀ b k₀)
    (hroom : 68 + pagesPerTask c * nrTasks ≤ (initList c).length) (hone : b.ncpu = 1) (n : Nat) :
    ∃ es k es' k', Run (Step (memVm c local₀) b) k₀ es k ∧ Busy k 0 ∧
      Run (StarveStep c local₀ b) k es' k' ∧ Waits k' 0 0 ∧ ticksOn 0 es' = n := by
  obtain ⟨es, k, t, hrun, hrelay⟩ := exists_relay hlocal hboot hroom hone
  have hrounds : ∀ n, ∃ es' k' t', Run (StarveStep c local₀ b) k es' k' ∧ Relay c b k' t' ∧
      ticksOn 0 es' = n := by
    intro n
    induction n with
    | zero => exact ⟨[], k, t, .nil k, hrelay, rfl⟩
    | succ n ih =>
        obtain ⟨es₁, k₁, t₁, hrun₁, h₁, hticks₁⟩ := ih
        obtain ⟨es₂, k₂, t₂, hrun₂, h₂, hticks₂⟩ := h₁.round hlocal hboot.aligned hone
        refine ⟨es₁ ++ es₂, k₂, t₂, hrun₁.append hrun₂, h₂, ?_⟩
        rw [ticksOn, List.countP_append]
        exact congrArg₂ _ hticks₁ hticks₂
  obtain ⟨es', k', t', hrun', h', hticks⟩ := hrounds n
  exact ⟨es, k, es', k', hrun, ⟨t, hrelay.cpuTask, hrelay.onCpu⟩, hrun', h'.waits, hticks⟩

/-- Sixteen megabytes, and ten thousand ticks. -/
theorem shell_starves_sixteen :
    ∃ k₀, Booted .sixteen (some ⟨0, 0⟩) (.small false) k₀ ∧
      ∃ es k es' k', Run (Step (memVm .sixteen (some ⟨0, 0⟩)) (.small false)) k₀ es k ∧ Busy k 0 ∧
        Run (StarveStep .sixteen (some ⟨0, 0⟩) (.small false)) k es' k' ∧ Waits k' 0 0 ∧
        ticksOn 0 es' = 10000 := by
  obtain ⟨k₀, hboot⟩ := exists_booted_sixteen false
  exact ⟨k₀, hboot, shell_starves rfl hboot room_sixteen rfl 10000⟩

end Nctuos
