import Nctuos.Selection

/-!
# Sleeping

What `SYS_sleep(n)` promises: the caller is not resumed before `n` timer interrupts
have been handled on its CPU, and no CPU runs a task that is asleep (`SleepersRest`).

The kernel keeps the promise only when two things hold at every `SYS_sleep`
(`SleepYields`): some other task of the same queue is runnable, since otherwise
`sched_yield` returns and the caller goes on in state `TASK_SLEEP`; and `n` fits in the
`int32_t` it is stored in, since otherwise `remind_ticks` is negative and the first
tick wakes the sleeper.  No condition is needed on `sys_kill`: a CPU whose `sys_kill`
finds nobody to switch to never completes another kernel entry.

The invariant behind the theorem counts down: `t` ticks after the call, the sleeper's
`remind_ticks` is `n - t`, as long as that is positive.  On a CPU whose first task neither
sleeps nor kills itself there is always somebody to switch to, and the count is exact: the
sleeper wakes up in the `n`-th tick, and in no other (`SleepsExactly`).
-/

namespace Nctuos

open Lib

variable {M D : Type}

/-- The timer interrupts handled on CPU `c` in a history. -/
def ticksOn (c : Nat) (es : List Entry) : Nat :=
  es.countP fun e => e.cpu = c ∧ callOf e.tf = .timer

theorem ticksOn_concat (c : Nat) (es : List Entry) (e : Entry) :
    ticksOn c (es ++ [e]) =
      ticksOn c es + if e.cpu = c ∧ callOf e.tf = .timer then 1 else 0 := by
  simp [ticksOn, List.countP_append, List.countP_singleton]

/-- No sleeper is resumed too early, and none is ever executing, in the runs of `step`
from `k₀`. -/
structure SleepersRest (step : Kernel M D → Entry → Kernel M D → Prop) (b : Boot)
    (k₀ : Kernel M D) : Prop where
  /-- Task `p` sleeps for `n` in entry `e`; `e` does not resume it, unless `n` is zero,
  and a later entry `e'` does only when `n` ticks have passed on `p`'s CPU. -/
  rest : ∀ es k e k₁ p n, Run step k₀ es k → step k e k₁ →
    (k.cpus e.cpu).cpuTask = some p → callOf e.tf = .sleep n →
    (e.resumed.pid = p → n.toNat = 0) ∧
      ∀ es' k₂ e' k₃, Run step k₁ es' k₂ → step k₂ e' k₃ → e'.resumed.pid = p →
        n.toNat ≤ ticksOn e.cpu (es' ++ [e'])
  /-- What an entry resumes is not asleep. -/
  resumed : ∀ es k e k', Run step k₀ es k → step k e k' →
    (k'.tasks e.resumed.pid).state ≠ .sleep
  /-- And no CPU's current task ever is. -/
  awake : ∀ es k c p, Run step k₀ es k → c < b.ncpu → (k.cpus c).cpuTask = some p →
    (k.tasks p).state ≠ .sleep

/-- In this entry a task that goes to sleep asks for less than `2^31` ticks and leaves
another task to run. -/
def SleepYields (k : Kernel M D) (e : Entry) : Prop :=
  ∀ n p, callOf e.tf = .sleep n → (k.cpus e.cpu).cpuTask = some p →
    n.toNat < 2 ^ 31 ∧ OtherRunnable k e.cpu p

/-! ## One step -/

section Step

variable {b : Boot} {k k' : Kernel M D} {c p q : Nat} {call : Call}

/-- What a CPU resumes is running, or was just killed. -/
theorem effect_resumed_awake (h : QueueInv b k) (hr : Running b k) (hc : c < b.ncpu)
    (hp : (k.cpus c).cpuTask = some p) (he : Effect b k c p q k' call)
    (hsleep : ∀ n, call = .sleep n → OtherRunnable k c p) :
    (k'.tasks q).state ≠ .sleep := by
  by_cases hother : call = .kill → KillActs k c p → OtherRunnable k c p
  · rw [(Running.effect h hr hc hp he hsleep c q hc ((effect_resumed h hc hp he).2 hother)).running]
    decide
  · -- nobody is left to run, and the killed task is resumed
    obtain ⟨rfl, -⟩ := Classical.not_imp.mp hother
    rcases he with ⟨hacts, rfl, hs⟩ | ⟨hnot, -, -⟩
    · rw [h.current_taskId hc hp] at hs hacts ⊢
      have hk := h.killed hc hp hacts.2.2
      rw [← hs.state]
      rcases schedYield_spec (hk.total_pos c hc) with ⟨heq, -⟩ | ⟨r, hr', hsw⟩
      · simp [heq]
      · rw [hr', Option.getD_some, hsw.state]
        decide
    · rw [h.current_taskId hc hp] at hnot
      exact absurd (fun _ hacts => absurd hacts hnot) hother

/-- `SYS_sleep` leaves the caller asleep in its queue, with its ticks set. -/
theorem effect_sleep (h : QueueInv b k) (hc : c < b.ncpu) (hp : (k.cpus c).cpuTask = some p)
    {n : BitVec 32} (he : Effect b k c p q k' (.sleep n)) (ho : OtherRunnable k c p) :
    q ≠ p ∧ Queued k' c p ∧ (k'.tasks p).state = .sleep ∧
      (k'.tasks p).remindTicks = n.toInt := by
  obtain ⟨rfl, hs⟩ := he
  obtain ⟨r, hne, hr, hsw⟩ := sleep_switches n ho
  have htask : (schedYield (asleep k p n) c).2.tasks p = (asleep k p n).tasks p :=
    hsw.other p hne.symm
  refine ⟨?_, ?_, ?_, ?_⟩
  · rw [hr]
    exact hne
  · have hq : Queued (schedYield (asleep k p n) c).2 c p :=
      (hsw.queue p).mpr (h.current_queued hc hp)
    rw [Queued, ← hs.cpus]
    exact hq
  · rw [← hs.state p, htask]
    simp [asleep]
  · rw [← hs.ticks p, htask]
    simp [asleep]

/-- Asleep in the queue of CPU `c`, with `x` ticks to go. -/
structure Sleeper (k : Kernel M D) (c s : Nat) (x : Int) : Prop where
  queued : Queued k c s
  state : (k.tasks s).state = .sleep
  ticks : (k.tasks s).remindTicks = x

section Sleeper

variable {s : Nat} {x : Int} (h : Sleeper k c s x)

include h

/-- The current task of a CPU is not asleep. -/
theorem Sleeper.ne_current (hr : RunningOn k c) (hp : (k.cpus c).cpuTask = some p) : s ≠ p := by
  rintro rfl
  have hrun := (hr s hp).running
  rw [h.state] at hrun
  cases hrun

theorem Sleeper.untouched (hu : Untouched k k' c) : Sleeper k' c s x :=
  ⟨hu.queued s h.queued, (hu.state s h.queued).trans h.state,
    (hu.ticks s h.queued).trans h.ticks⟩

theorem Sleeper.schedYield (hpos : 0 < (k.cpus c).cpuRq.total) :
    Sleeper (schedYield k c).2 c s x := by
  obtain ⟨htask, hqueue⟩ := schedYield_skips (q := s) hpos (by rw [h.state]; decide)
  exact ⟨hqueue.mpr h.queued, by rw [htask, h.state], by rw [htask, h.ticks]⟩

/-- Rewriting another task. -/
theorem Sleeper.modTask (f : Task D → Task D) (hne : s ≠ p) : Sleeper (k.modTask p f) c s x :=
  ⟨h.queued, by rw [Kernel.modTask_other _ _ hne, h.state],
    by rw [Kernel.modTask_other _ _ hne, h.ticks]⟩

end Sleeper

/-- The timer takes one tick off a sleeper; with the last one it wakes. -/
theorem Sleeper.tickAll {s : Nat} {x : Int} (h : QueueInv b k) (hc : c < b.ncpu)
    (hsl : Sleeper k c s x) (hne : s ≠ p) (hx : 1 < x) (hlt : x < 2 ^ 31) :
    Sleeper (tickAll k c p) c s (x - 1) := by
  have hwrap : wrap32 ((k.tasks s).remindTicks - 1) = x - 1 := by
    rw [hsl.ticks]
    exact wrap32_of_mem (by omega) (by omega)
  have htask := h.tickAll_queued hc hsl.queued hne
  have hmore : ¬ x - 1 ≤ 0 := by omega
  rw [tickSleeper, if_pos hsl.state, hwrap] at htask
  simp only [if_neg hmore] at htask
  exact ⟨hsl.queued, by rw [htask], by rw [htask]⟩

/-- **One step of a sleeper.**  Only a tick on its own CPU counts, and it stays asleep
until the last one. -/
theorem Sleeper.effect {c' s : Nat} {x : Int} (h : QueueInv b k) (hr : RunningOn k c)
    (hc' : c' < b.ncpu) (hp : (k.cpus c').cpuTask = some p) (he : Effect b k c' p q k' call)
    (hc : c < b.ncpu) (hsl : Sleeper k c s x) (hlt : x < 2 ^ 31) :
    if c' = c ∧ call = .timer then 1 < x → Sleeper k' c s (x - 1) else Sleeper k' c s x := by
  rcases effect_cases h hc hc' hp he with ⟨htick, hu⟩ | ⟨rfl, k₁, -, hu, hk₁⟩
  · rw [if_neg htick]
    exact hsl.untouched hu
  have hne := hsl.ne_current hr hp
  rcases hk₁ with ⟨n, rfl, rfl⟩ | ⟨rfl, hacts, rfl⟩ | ⟨rfl, rfl⟩
  · rw [if_neg (by simp)]
    exact ((hsl.modTask _ hne).schedYield (h.total_pos _ hc)).untouched hu
  · rw [if_neg (by simp)]
    refine Sleeper.untouched ?_ hu
    refine Sleeper.schedYield ⟨?_, ?_, ?_⟩ ((h.killed hc hp hacts.2.2).total_pos _ hc)
    · exact (queued_killed_iff h hc hp s).mpr ⟨hsl.queued, hne⟩
    · rw [killed_tasks_other k _ hne, hsl.state]
    · rw [killed_tasks_other k _ hne, hsl.ticks]
  · rw [if_pos ⟨rfl, rfl⟩]
    intro hx
    refine Sleeper.untouched ?_ hu
    have hsl₀ : Sleeper { k with jiffies := k.jiffies + 1 } _ s x :=
      ⟨hsl.queued, hsl.state, hsl.ticks⟩
    have htick := hsl₀.tickAll h.setJiffies hc hne hx hlt
    simp only [timerHandler, hp]
    split
    · exact (htick.modTask _ hne).schedYield (h.total_pos _ hc)
    · exact htick

end Step

/-! ## Whole runs -/

section Runs

variable {vm : Vm M D} {b : Boot} {m : M} {k₀ k k' : Kernel M D} {e : Entry} {es : List Entry}

/-- The step relation of the runs below. -/
def SleepStep (vm : Vm M D) (b : Boot) (k : Kernel M D) (e : Entry) (k' : Kernel M D) : Prop :=
  Step vm b k e k' ∧ SleepYields k e

/-- What the runs below keep. -/
def AwakeInv (b : Boot) (k : Kernel M D) : Prop := QueueInv b k ∧ Running b k

theorem AwakeInv.step (h : AwakeInv b k) (hs : SleepStep vm b k e k') : AwakeInv b k' := by
  obtain ⟨hc, p, hp, he⟩ := step_effect hs.1
  refine ⟨h.1.effect hc hp he, h.2.effect h.1 hc hp he fun n hn => ?_⟩
  exact (hs.2 n p hn hp).2

theorem AwakeInv.of_run (hboot : bootAll vm b m = .ok k₀) (hrun : Run (SleepStep vm b) k₀ es k) :
    AwakeInv b k :=
  hrun.invariant (fun _ _ _ h hs => h.step hs) ⟨boot_queueInv hboot, boot_running hboot⟩

theorem AwakeInv.resumed (h : AwakeInv b k) (hs : SleepStep vm b k e k') :
    (k'.tasks e.resumed.pid).state ≠ .sleep := by
  obtain ⟨hc, p, hp, he⟩ := step_effect hs.1
  exact effect_resumed_awake h.1 h.2 hc hp he fun n hn => (hs.2 n p hn hp).2

/-- The countdown: as long as the ticks since the call fall short of `n`, the caller is
asleep with the rest of them to go.  What the runs keep is up to them, as long as it says that
no current task of CPU `c` is asleep. -/
theorem countdown {step : Kernel M D → Entry → Kernel M D → Prop} {I : Kernel M D → Prop}
    {c p n : Nat} (hstep : ∀ k e k', step k e k' → Step vm b k e k')
    (hkeep : ∀ k e k', I k → step k e k' → I k')
    (hI : ∀ k, I k → QueueInv b k ∧ RunningOn k c) (h : I k) (hc : c < b.ncpu)
    (hn : n < 2 ^ 31) (hsl : Sleeper k c p n) (hrun : Run step k es k') :
    n ≤ ticksOn c es ∨ Sleeper k' c p (n - ticksOn c es) := by
  refine Run.history_invariant
    (I := fun es k' => n ≤ ticksOn c es ∨ Sleeper k' c p (n - ticksOn c es)) ?_ ?_ hrun
  · exact Or.inr (by simpa [ticksOn] using hsl)
  · intro es' k₁ e k₂ hrun' hcount hs
    obtain ⟨hinv, hr⟩ := hI k₁ (hrun'.invariant hkeep h)
    rw [ticksOn_concat]
    rcases hcount with hle | hsl₁
    · exact Or.inl (by omega)
    · obtain ⟨hc', p', hp', he⟩ := step_effect (hstep _ _ _ hs)
      have hnext := hsl₁.effect hinv hr hc' hp' he hc (by omega)
      by_cases htick : e.cpu = c ∧ callOf e.tf = .timer
      · rw [if_pos htick] at hnext ⊢
        by_cases hlast : n ≤ ticksOn c es' + 1
        · exact Or.inl hlast
        · refine Or.inr ?_
          have heq : (n : Int) - ((ticksOn c es' + 1 : Nat) : Int) = n - ticksOn c es' - 1 := by
            omega
          rw [heq]
          exact hnext (by omega)
      · rw [if_neg htick] at hnext ⊢
        exact Or.inr (by simpa using hnext)

/-- **Sleepers rest**, in every run in which each `SYS_sleep` asks for less than `2^31`
ticks and leaves another runnable task in its queue. -/
theorem sleepers_rest_of_yields (hboot : bootAll vm b m = .ok k₀) :
    SleepersRest (SleepStep vm b) b k₀ where
  rest es k e k₁ p n hrun hstep hp hcall := by
    have hinv := AwakeInv.of_run hboot hrun
    obtain ⟨hn, hother⟩ := hstep.2 n p hcall hp
    obtain ⟨hc, p', hp', he⟩ := step_effect hstep.1
    obtain rfl : p' = p := by
      rw [hp'] at hp
      exact Option.some.inj hp
    rw [hcall] at he
    obtain ⟨hne, hqueued, hstate, hticks⟩ := effect_sleep hinv.1 hc hp' he hother
    refine ⟨fun heq => absurd heq hne, fun es' k₂ e' k₃ hrun' hstep' hres => ?_⟩
    have hint : n.toInt = (n.toNat : Int) := by
      rw [BitVec.toInt_eq_toNat_of_lt (by omega)]
    -- the caller is awake when it is resumed, so its countdown is over
    have hcount := countdown (fun _ _ _ h => h.1) (fun _ _ _ h hs => AwakeInv.step h hs)
      (fun k h => ⟨h.1, fun q => h.2 _ q hc⟩) (hinv.step hstep) hc hn
      ⟨hqueued, hstate, hticks.trans hint⟩ (hrun'.concat hstep')
    rcases hcount with hle | hsl
    · exact hle
    · have hinv₂ : AwakeInv b k₂ :=
        hrun'.invariant (fun _ _ _ h hs => h.step hs) (hinv.step hstep)
      have hawake := hinv₂.resumed hstep'
      rw [hres] at hawake
      exact absurd hsl.state hawake
  resumed es k e k' hrun hstep := (AwakeInv.of_run hboot hrun).resumed hstep
  awake es k c p hrun hc hp := by
    rw [((AwakeInv.of_run hboot hrun).2 c p hc hp).running]
    decide

end Runs

/-! ## How long a sleeper sleeps

On a CPU whose first task stays, a sleeper's ticks are counted exactly: whatever happens on the
other CPUs, and wherever the exits of other tasks move its entry. -/

section Exact

variable {vm : Vm M D} {b : Boot} {m : M} {k₀ k k' : Kernel M D} {e : Entry} {es : List Entry}
  {c p : Nat}

/-- In the runs of `step` from `k₀`, a task that sleeps for `n` ticks on CPU `c` is asleep until
`n` timer interrupts have been handled there, and the `n`-th makes it runnable. -/
def SleepsExactly (step : Kernel M D → Entry → Kernel M D → Prop) (k₀ : Kernel M D) (c : Nat) :
    Prop :=
  ∀ es k e k₁ p n es' k₂, Run step k₀ es k → step k e k₁ → e.cpu = c →
    (k.cpus c).cpuTask = some p → callOf e.tf = .sleep n → 1 ≤ n.toNat → n.toNat < 2 ^ 31 →
    Run step k₁ es' k₂ →
    (ticksOn c es' < n.toNat → (k₂.tasks p).state = .sleep) ∧
      ∀ e' k₃, step k₂ e' k₃ → e'.cpu = c → callOf e'.tf = .timer →
        ticksOn c es' + 1 = n.toNat →
        (tickSleepers k₂.tasks (k₂.cpus c).cpuRq p).state = .runnable ∧
          ((k₃.tasks p).state = .runnable ∨
            selected k₂ e' = some p ∧ (k₃.tasks p).state = .running)

/-- The step relation of these runs: the first task of CPU `c` neither sleeps nor kills
itself. -/
def StaysStep (vm : Vm M D) (b : Boot) (k₀ : Kernel M D) (c : Nat) (k : Kernel M D) (e : Entry)
    (k' : Kernel M D) : Prop :=
  Step vm b k e k' ∧ (e.cpu = c → InitialTaskStays k₀ k e)

/-- What they keep. -/
structure StaysInv (b : Boot) (home c : Nat) (k : Kernel M D) : Prop where
  queues : QueueInv b k
  running : RunningOn k c
  anchored : AnchoredOn home k c

theorem StaysStep.ne_home (hs : StaysStep vm b k₀ c k e k') (hc : e.cpu = c)
    (hp : (k.cpus e.cpu).cpuTask = some p) (hgive : (callOf e.tf).GivesUp) :
    p ≠ initialTask k₀ c := by
  rintro rfl
  exact hs.2 hc (hc ▸ hp) hgive

theorem StaysInv.otherRunnable (h : StaysInv b (initialTask k₀ c) c k)
    (hs : StaysStep vm b k₀ c k e k') (hc : e.cpu = c) (hp : (k.cpus e.cpu).cpuTask = some p)
    (hgive : (callOf e.tf).GivesUp) : OtherRunnable k c p := by
  subst hc
  exact h.anchored.otherRunnable h.queues hs.1.1 hp (hs.ne_home rfl hp hgive)

theorem StaysInv.step (hc : c < b.ncpu) (h : StaysInv b (initialTask k₀ c) c k)
    (hs : StaysStep vm b k₀ c k e k') : StaysInv b (initialTask k₀ c) c k' := by
  obtain ⟨hc', p, hp, he⟩ := step_effect hs.1
  have hgives : ∀ {call : Call}, callOf e.tf = call → call.GivesUp → (callOf e.tf).GivesUp :=
    fun heq hgive => heq ▸ hgive
  exact
    { queues := h.queues.effect hc' hp he
      running := h.running.effect h.queues hc hc' hp he fun hcc n hn =>
        h.otherRunnable hs hcc hp (hgives hn trivial)
      anchored := h.anchored.effect h.queues hc hc' hp he
        (fun hcc n hn => hs.ne_home hcc hp (hgives hn trivial))
        fun hcc hk => hs.ne_home hcc hp (hgives hk trivial) }

theorem StaysInv.of_run (hboot : bootAll vm b m = .ok k₀) (hc : c < b.ncpu)
    (hrun : Run (StaysStep vm b k₀ c) k₀ es k) : StaysInv b (initialTask k₀ c) c k :=
  hrun.invariant (fun _ _ _ h hs => h.step hc hs)
    ⟨boot_queueInv hboot, fun p hp => boot_running hboot c p hc hp, boot_anchored hboot c hc⟩

/-- The last tick of a sleeper. -/
theorem Sleeper.wakes {s : Nat} (h : QueueInv b k) (hr : RunningOn k c) (hc : c < b.ncpu)
    (hsl : Sleeper k c s 1) (hs : Step vm b k e k') (hcpu : e.cpu = c)
    (hcall : callOf e.tf = .timer) :
    (tickSleepers k.tasks (k.cpus c).cpuRq s).state = .runnable ∧
      ((k'.tasks s).state = .runnable ∨ selected k e = some s ∧ (k'.tasks s).state = .running) := by
  subst hcpu
  obtain ⟨-, p, hp, he⟩ := step_effect hs
  rw [hcall] at he
  have hne := hsl.ne_current hr hp
  have hwake : (tickSleeper (k.tasks s)).state = .runnable := by
    rw [tickSleeper, if_pos hsl.state, hsl.ticks]
    rfl
  refine ⟨?_, ?_⟩
  · rw [h.tickSleepers_apply hc, if_pos (QueueInv.mem_queue_iff.mpr hsl.queued)]
    exact hwake
  · have h₀ := h.setJiffies
    obtain ⟨-, hsame⟩ := he
    obtain ⟨k₁, hk₁, hcases⟩ := timer_cases h hc hp
    have hk₁s : (k₁.tasks s).state = .runnable := by
      rw [hk₁, h₀.tickAll_queued hc hsl.queued hne]
      exact hwake
    rcases hcases with ⟨-, heq⟩ | ⟨hticks, r, hr', hsw⟩
    · rw [heq] at hsame
      exact Or.inl ((hsame.state s).symm.trans hk₁s)
    · by_cases hrs : s = r
      · subst hrs
        refine Or.inr ⟨?_, (hsame.state s).symm.trans hsw.state⟩
        have hy : yieldState k e =
            some (k₁.modTask p fun t => { t with state := .runnable }) := by
          unfold yieldState
          simp only [hp, hcall]
          rw [hk₁] at hticks ⊢
          exact if_pos hticks
        rw [selected_of_yieldState hy, ← hr']
        simp only [timerHandler, hp]
        rw [hk₁] at hticks ⊢
        rw [if_pos hticks]
      · refine Or.inl ((hsame.state s).symm.trans ?_)
        rw [hsw.other s hrs, Kernel.modTask_other _ _ hne, hk₁s]

/-- **Sleep is exact** on every CPU whose first task neither sleeps nor kills itself. -/
theorem sleeps_exactly_of_stays (hboot : bootAll vm b m = .ok k₀) (c : Nat) :
    SleepsExactly (StaysStep vm b k₀ c) k₀ c := by
  intro es k e k₁ p n es' k₂ hrun hstep hcpu hp hcall hpos hn hrun'
  obtain ⟨hc, p', hp', he⟩ := step_effect hstep.1
  rw [hcpu] at hc hp' he
  obtain rfl : p' = p := Option.some.inj (hp'.symm.trans hp)
  have hinv := StaysInv.of_run hboot hc hrun
  have hinv₁ := hinv.step hc hstep
  rw [hcall] at he
  have hother := hinv.otherRunnable hstep hcpu (hcpu ▸ hp) (by rw [hcall]; trivial)
  obtain ⟨-, hqueued, hstate, hticks⟩ := effect_sleep hinv.queues hc hp he hother
  have hint : n.toInt = (n.toNat : Int) := by
    rw [BitVec.toInt_eq_toNat_of_lt (by omega)]
  have hcount := countdown (fun _ _ _ h => h.1) (fun _ _ _ h hs => StaysInv.step hc h hs)
    (fun k h => ⟨h.queues, h.running⟩) hinv₁ hc hn ⟨hqueued, hstate, hticks.trans hint⟩ hrun'
  refine ⟨fun hlt => ?_, fun e' k₃ hstep' hcpu' hcall' hlast => ?_⟩
  · rcases hcount with hle | hsl
    · omega
    · exact hsl.state
  · rcases hcount with hle | hsl
    · omega
    · have hinv₂ : StaysInv b (initialTask k₀ c) c k₂ :=
        hrun'.invariant (fun _ _ _ h hs => StaysInv.step hc h hs) hinv₁
      have hone : (n.toNat : Int) - ticksOn c es' = 1 := by omega
      rw [hone] at hsl
      exact hsl.wakes hinv₂.queues hinv₂.running hc hstep'.1 hcpu' hcall'

/-- One CPU.  The shell forks and keeps its CPU for a quantum, the child sleeps for two ticks,
and the second wakes it. -/
theorem sleeps_exactly_one_cpu :
    ∃ (k₀ k : Kernel Unit Unit) (es : List Entry),
      bootAll .unlimited (.small false) () = .ok k₀ ∧
      Run (StaysStep .unlimited (.small false) k₀ 0) k₀ es k ∧ ticksOn 0 es = 102 ∧
      (k.tasks 1).state = .runnable ∧
      SleepsExactly (StaysStep .unlimited (.small false) k₀ 0) k₀ 0 := by
  obtain ⟨k₀, es, k, hboot, hrun, hcheck⟩ := exists_run_of_plays
    (show plays .unlimited (.small false) () (fun k₀ k e => decide (InitialTaskStays k₀ k e))
      ((0, syscallFrame 4 0) :: List.replicate 100 (0, timerFrame) ++
        [(0, syscallFrame 6 2), (0, timerFrame), (0, timerFrame)])
      (fun _ es k => decide (ticksOn 0 es = 102 ∧ (k.tasks 1).state = .runnable)) = true by
        decide +kernel)
  obtain ⟨hticks, hstate⟩ := of_decide_eq_true hcheck
  refine ⟨k₀, k, es, hboot, ?_, hticks, hstate, sleeps_exactly_of_stays hboot 0⟩
  exact hrun.mono fun k e k' h => ⟨h.1, fun _ => of_decide_eq_true h.2⟩

end Exact

/-! ## Where the promise is broken -/

instance (k : Kernel M D) (c p : Nat) : Decidable (OtherRunnable k c p) :=
  decidable_of_iff (∃ i, i < (k.cpus c).cpuRq.total ∧ (k.cpus c).cpuRq.runQueue i ≠ p ∧
      (k.tasks ((k.cpus c).cpuRq.runQueue i)).state = .runnable) <| by
    constructor
    · rintro ⟨i, hi, hne, hs⟩
      exact ⟨_, ⟨i, hi, rfl⟩, hne, hs⟩
    · rintro ⟨_, ⟨i, hi, rfl⟩, hne, hs⟩
      exact ⟨i, hi, hne, hs⟩

/-- `SleepYields`, computed. -/
def sleepYields (k : Kernel M D) (e : Entry) : Bool :=
  match callOf e.tf, (k.cpus e.cpu).cpuTask with
  | .sleep n, some p => decide (n.toNat < 2 ^ 31 ∧ OtherRunnable k e.cpu p)
  | _, _ => true

theorem sleepYields_sound {k : Kernel M D} {e : Entry} (h : sleepYields k e = true) :
    SleepYields k e := by
  intro n p hcall hp
  simpa [sleepYields, hcall, hp] using h

/-- The requests of a history, with what each entry resumed. -/
def summary (es : List Entry) : List (Call × Nat) :=
  es.map fun e => (callOf e.tf, e.resumed.pid)

/-- On a machine with one CPU: the shell forks, sleeps for one tick while the child
runs, is woken by the timer, and resumes when the child kills itself. -/
theorem sleepers_rest_one_cpu :
    ∃ (k₀ k : Kernel Unit Unit) (es : List Entry),
      bootAll .unlimited (.small false) () = .ok k₀ ∧
      Run (SleepStep .unlimited (.small false)) k₀ es k ∧
      summary es = [(.fork, 0), (.sleep 1, 1), (.timer, 1), (.kill, 0)] ∧
      SleepersRest (SleepStep .unlimited (.small false)) (.small false) k₀ := by
  obtain ⟨k₀, es, k, hboot, hrun, hcheck⟩ := exists_run_of_plays
    (show plays .unlimited (.small false) () (fun _ => sleepYields)
      [(0, syscallFrame 4 0), (0, syscallFrame 6 1), (0, timerFrame), (0, syscallFrame 5 0)]
      (fun _ es _ => decide (summary es =
        [(.fork, 0), (.sleep 1, 1), (.timer, 1), (.kill, 0)])) = true by decide +kernel)
  refine ⟨k₀, k, es, hboot, ?_, of_decide_eq_true hcheck, sleepers_rest_of_yields hboot⟩
  exact hrun.mono fun k e k' h => ⟨h.1, sleepYields_sound h.2⟩

/-- On a machine with one CPU and only the shell, `SYS_sleep(5)` resumes the shell at
once, in state `TASK_SLEEP`.  With a child to switch to, `SYS_sleep(2^31 + 1)` is
resumed after a single tick. -/
theorem sleepers_do_not_rest :
    (∃ (k₀ k : Kernel Unit Unit) (es : List Entry),
      bootAll .unlimited (.small false) () = .ok k₀ ∧
      Run (Step .unlimited (.small false)) k₀ es k ∧ summary es = [(.sleep 5, 0)] ∧
      (k.cpus 0).cpuTask = some 0 ∧ (k.tasks 0).state = .sleep ∧
      ¬ SleepersRest (Step .unlimited (.small false)) (.small false) k₀) ∧
    (∃ (k₀ k : Kernel Unit Unit) (es : List Entry),
      bootAll .unlimited (.small false) () = .ok k₀ ∧
      Run (Step .unlimited (.small false)) k₀ es k ∧
      summary es = [(.fork, 0), (.sleep 0x80000001, 1), (.timer, 1), (.sleep 1, 0)]) := by
  constructor
  · obtain ⟨k₀, es, k, hboot, hrun, hcheck⟩ := exists_run_of_plays
      (show plays .unlimited (.small false) () (fun _ _ _ => true) [(0, syscallFrame 6 5)]
        (fun _ es k => decide (summary es = [(.sleep 5, 0)] ∧ (k.cpus 0).cpuTask = some 0 ∧
          (k.tasks 0).state = .sleep)) = true by decide +kernel)
    obtain ⟨hsummary, htask, hstate⟩ := of_decide_eq_true hcheck
    have hrun' : Run (Step .unlimited (.small false)) k₀ es k := hrun.mono fun _ _ _ h => h.1
    refine ⟨k₀, k, es, hboot, hrun', hsummary, htask, hstate, fun hrest => ?_⟩
    exact hrest.awake es k 0 0 hrun' (by decide) htask hstate
  · obtain ⟨k₀, es, k, hboot, hrun, hcheck⟩ := exists_run_of_plays
      (show plays .unlimited (.small false) () (fun _ _ _ => true)
        [(0, syscallFrame 4 0), (0, syscallFrame 6 0x80000001), (0, timerFrame),
          (0, syscallFrame 6 1)]
        (fun _ es _ => decide (summary es =
          [(.fork, 0), (.sleep 0x80000001, 1), (.timer, 1), (.sleep 1, 0)])) = true by
          decide +kernel)
    exact ⟨k₀, k, es, hboot, hrun.mono fun _ _ _ h => h.1, of_decide_eq_true hcheck⟩

end Nctuos
