import Nctuos.Sleep

/-!
# Dying

What `SYS_kill` promises: the caller's frame is not resumed again before its slot has
been taken over by `task_create`, and every CPU that returns to user mode has a
`cpu_task` that is neither NULL nor free (`KilledStayDead`).

`sys_kill` relies on its `sched_yield` never returning.  When nothing else in the queue
is runnable it does return, with `cpu_task` NULL, and `trap_dispatch` resumes the frame
of the task just freed.  `KillYields` is the condition that excludes this, and the only
one needed: a `SYS_sleep` that finds nobody to switch to leaves `cpu_task` in place.
-/

namespace Nctuos

open Lib

variable {M D : Type}

/-- Task `p` was created anew by a fork in the middle of this history. -/
def Recreated (step : Kernel M D → Entry → Kernel M D → Prop) (k : Kernel M D)
    (es : List Entry) (p : Nat) : Prop :=
  ∃ pre e post k₁ k₂, es = pre ++ e :: post ∧ Run step k pre k₁ ∧ step k₁ e k₂ ∧
    callOf e.tf = .fork ∧ findFree k₁.tasks = some p ∧ (k₂.tasks p).state = .runnable

/-- No freed task runs, in the runs of `step` from `k₀`. -/
structure KilledStayDead (step : Kernel M D → Entry → Kernel M D → Prop) (b : Boot)
    (k₀ : Kernel M D) : Prop where
  /-- Task `p` is freed by `SYS_kill` in entry `e`.  It is not resumed by `e`, and by a
  later entry `e'` only after a fork has reused its slot. -/
  dead : ∀ es k e k₁ p, Run step k₀ es k → step k e k₁ → (k.cpus e.cpu).cpuTask = some p →
    callOf e.tf = .kill → (k₁.tasks p).state = .free →
    e.resumed.pid ≠ p ∧ ∀ es' k₂ e' k₃, Run step k₁ es' k₂ → step k₂ e' k₃ →
      e'.resumed.pid = p → Recreated step k₁ es' p
  /-- What an entry resumes is the `cpu_task` of its CPU, and not a free slot. -/
  resumed : ∀ es k e k', Run step k₀ es k → step k e k' →
    (k'.cpus e.cpu).cpuTask = some e.resumed.pid ∧ (k'.tasks e.resumed.pid).state ≠ .free
  /-- Whenever a trap is taken, `cpu_task` is there to save the frame in. -/
  current : ∀ es k c, Run step k₀ es k → c < b.ncpu →
    ∃ p, (k.cpus c).cpuTask = some p ∧ (k.tasks p).state ≠ .free

/-- In this entry a task that kills itself leaves another task to run. -/
def KillYields (k : Kernel M D) (e : Entry) : Prop :=
  ∀ p, callOf e.tf = .kill → (k.cpus e.cpu).cpuTask = some p → KillActs k e.cpu p →
    OtherRunnable k e.cpu p

/-! ## One step -/

section Step

variable {b : Boot} {k k' : Kernel M D} {c p q s : Nat} {call : Call}

/-- Slot `s` of the task table is in use. -/
def Alive (k : Kernel M D) (s : Nat) : Prop := (k.tasks s).state ≠ .free

instance (k : Kernel M D) (s : Nat) : Decidable (Alive k s) := inferInstanceAs (Decidable (_ ≠ _))

theorem SameSched.alive (h : SameSched k k') (s : Nat) : Alive k' s ↔ Alive k s := by
  rw [Alive, Alive, h.state s]

theorem schedYield_alive (hpos : 0 < (k.cpus c).cpuRq.total) (s : Nat) :
    Alive (schedYield k c).2 s ↔ Alive k s := by
  unfold schedYield
  cases hpick : pick (fun p => (k.tasks p).state) (k.cpus c) with
  | none => rfl
  | some i =>
      have hrun := (pick_some hpos hpick).2
      simp only [Alive, Kernel.modCpu_tasks]
      by_cases hs : s = (k.cpus c).cpuRq.runQueue i
      · rw [hs, Kernel.modTask_same]
        exact ⟨fun _ => by rw [hrun]; decide, fun _ => nofun⟩
      · rw [Kernel.modTask_other _ _ hs]

theorem tickAll_alive (k : Kernel M D) (c p s : Nat) : Alive (tickAll k c p) s ↔ Alive k s := by
  rw [Alive, Alive]
  rcases (QueueInv.tickAll_task k c p s).2 with heq | ⟨hsleep, hrun⟩
  · rw [heq]
  · rw [hsleep, hrun]
    decide

/-- An entry that is not a fork frees the slot of a task that kills itself, and no other
slot; and it takes none. -/
theorem effect_alive (h : QueueInv b k) (hc : c < b.ncpu)
    (hp : (k.cpus c).cpuTask = some p) (he : Effect b k c p q k' call) (hcall : call ≠ .fork)
    (s : Nat) : Alive k' s ↔ Alive k s ∧ ¬ (call = .kill ∧ KillActs k c p ∧ s = p) := by
  have hpos := h.total_pos c hc
  have hlive : Alive k p := (h.current_live hc hp).2
  cases call with
  | fork => exact absurd rfl hcall
  | sleep n =>
      have hyield : Alive (schedYield (asleep k p n) c).2 s ↔ Alive (asleep k p n) s :=
        schedYield_alive (k := asleep k p n) hpos s
      rw [he.2.alive, hyield]
      by_cases hs : s = p
      · subst hs
        simpa [Alive, asleep] using hlive
      · simp [Alive, asleep, Kernel.modTask_other _ _ hs]
  | kill =>
      rcases he with ⟨hacts, -, hk⟩ | ⟨hacts, -, hk⟩
      · rw [h.current_taskId hc hp] at hk hacts
        rw [hk.alive, schedYield_alive ((h.killed hc hp hacts.2.2).total_pos c hc)]
        by_cases hs : s = p
        · subst hs
          simp [Alive, hacts]
        · simp [Alive, killed_tasks_other k c hs, hs]
      · rw [h.current_taskId hc hp] at hacts
        rw [hk.alive]
        simp [hacts]
  | timer =>
      rw [he.2.alive]
      have htick := tickAll_alive { k with jiffies := k.jiffies + 1 } c p
      have hnot : Alive (timerHandler k c).2 s ↔ Alive k s := by
        simp only [timerHandler, hp]
        split
        · refine Iff.trans (schedYield_alive ?_ s) ?_
          · exact hpos
          by_cases hs : s = p
          · subst hs
            simp only [Alive, Kernel.modTask_same]
            exact ⟨fun _ => hlive, fun _ => by decide⟩
          · rw [Alive, Kernel.modTask_other _ _ hs]
            exact htick s
        · exact htick s
      rw [hnot]
      simp
  | other =>
      rw [he.2.alive]
      simp

theorem not_alive_iff : ¬ Alive k s ↔ (k.tasks s).state = .free := by
  rw [Alive, not_not]

/-- `sys_kill` that acts leaves the slot of its caller free. -/
theorem effect_kill_free (h : QueueInv b k) (hc : c < b.ncpu) (hp : (k.cpus c).cpuTask = some p)
    (he : Effect b k c p q k' .kill) (hacts : KillActs k c p) : (k'.tasks p).state = .free := by
  rw [← not_alive_iff, effect_alive h hc hp he nofun]
  exact fun hlive => hlive.2 ⟨rfl, hacts, rfl⟩

/-- The only way out of a free slot is `task_create`. -/
theorem effect_free (h : QueueInv b k) (hc : c < b.ncpu) (hp : (k.cpus c).cpuTask = some p)
    (he : Effect b k c p q k' call) (hs : (k.tasks s).state = .free) :
    (k'.tasks s).state = .free ∨
      call = .fork ∧ findFree k.tasks = some s ∧ (k'.tasks s).state = .runnable := by
  by_cases hcall : call = .fork
  · subst hcall
    rcases he.2 with hk | ⟨pid, hfree, hk⟩
    · exact Or.inl ((hk.state s).symm.trans hs)
    · rw [← hk.state s]
      by_cases hpid : s = pid
      · subst hpid
        exact Or.inr ⟨rfl, hfree, by simp⟩
      · left
        rw [forked_tasks_other b k hpid, hs]
  · left
    rw [← not_alive_iff, effect_alive h hc hp he hcall]
    exact fun hlive => hlive.1 hs

end Step

/-! ## Whole runs -/

section Runs

variable {vm : Vm M D} {b : Boot} {m : M} {k₀ k k' : Kernel M D} {e : Entry} {es : List Entry}

/-- The step relation of the runs below. -/
def KillStep (vm : Vm M D) (b : Boot) (k : Kernel M D) (e : Entry) (k' : Kernel M D) : Prop :=
  Step vm b k e k' ∧ KillYields k e

/-- What the runs below keep. -/
def MannedInv (b : Boot) (k : Kernel M D) : Prop := QueueInv b k ∧ Manned b k

theorem MannedInv.step (h : MannedInv b k) (hs : KillStep vm b k e k') : MannedInv b k' := by
  obtain ⟨hc, p, hp, he⟩ := step_effect hs.1
  exact ⟨h.1.effect hc hp he, h.2.effect h.1 hc hp he fun hk => hs.2 p hk hp⟩

theorem MannedInv.of_run (hboot : bootAll vm b m = .ok k₀) (hrun : Run (KillStep vm b) k₀ es k) :
    MannedInv b k :=
  hrun.invariant (fun _ _ _ h hs => h.step hs) ⟨boot_queueInv hboot, boot_manned hboot⟩

theorem MannedInv.resumed (h : MannedInv b k) (hs : KillStep vm b k e k') :
    (k'.cpus e.cpu).cpuTask = some e.resumed.pid ∧ (k'.tasks e.resumed.pid).state ≠ .free := by
  obtain ⟨hc, p, hp, he⟩ := step_effect hs.1
  have hcur := (effect_resumed h.1 hc hp he).2 fun hk => hs.2 p hk hp
  exact ⟨hcur, ((h.step hs).1.current_live hc hcur).2⟩

/-- From a state in which slot `p` is free, it stays free until a fork takes it. -/
theorem free_until_recreated {p : Nat} (h : MannedInv b k) (hfree : (k.tasks p).state = .free)
    (hrun : Run (KillStep vm b) k es k') :
    Recreated (KillStep vm b) k es p ∨ (k'.tasks p).state = .free := by
  refine Run.history_invariant
    (I := fun es k' => Recreated (KillStep vm b) k es p ∨ (k'.tasks p).state = .free)
    (Or.inr hfree) ?_ hrun
  intro es' k₁ e k₂ hrun' hI hstep
  rcases hI with ⟨pre, f, post, kf, kf', rfl, hpre, hf, hfork, hslot, hnew⟩ | hfree₁
  · exact Or.inl ⟨pre, f, post ++ [e], kf, kf', by simp, hpre, hf, hfork, hslot, hnew⟩
  · have hinv : MannedInv b k₁ := hrun'.invariant (fun _ _ _ h hs => h.step hs) h
    obtain ⟨hc, q, hq, he⟩ := step_effect hstep.1
    rcases effect_free hinv.1 hc hq he hfree₁ with hfree₂ | ⟨hfork, hslot, hnew⟩
    · exact Or.inr hfree₂
    · exact Or.inl ⟨es', e, [], k₁, k₂, rfl, hrun', hstep, hfork, hslot, hnew⟩

/-- **Killed tasks stay dead**, in every run in which each `SYS_kill` that acts leaves
another runnable task in its queue. -/
theorem killed_stay_dead_of_yields (hboot : bootAll vm b m = .ok k₀) :
    KilledStayDead (KillStep vm b) b k₀ where
  dead es k e k₁ p hrun hstep hp hcall hfree := by
    have hinv := MannedInv.of_run hboot hrun
    constructor
    · intro hres
      have hlive := (hinv.resumed hstep).2
      rw [hres] at hlive
      exact hlive hfree
    · intro es' k₂ e' k₃ hrun' hstep' hres
      have hinv₁ := hinv.step hstep
      have hinv₂ : MannedInv b k₂ := hrun'.invariant (fun _ _ _ h hs => h.step hs) hinv₁
      rcases free_until_recreated hinv₁ hfree hrun' with hrec | hfree₂
      · exact hrec
      · -- resumed straight out of a free slot: the entry is a fork, but a fork resumes
        -- its caller, which is not free
        exfalso
        have hlive := (hinv₂.resumed hstep').2
        rw [hres] at hlive
        obtain ⟨hc, q, hq, he⟩ := step_effect hstep'.1
        rcases effect_free hinv₂.1 hc hq he hfree₂ with hfree₃ | ⟨hfork, -, -⟩
        · exact hlive hfree₃
        · rw [hfork] at he
          have hqp : p = q := hres.symm.trans he.1
          subst hqp
          exact (hinv₂.1.current_live hc hq).2 hfree₂
  resumed es k e k' hrun hstep := (MannedInv.of_run hboot hrun).resumed hstep
  current es k c hrun hc := by
    have hinv := MannedInv.of_run hboot hrun
    obtain ⟨p, hp⟩ := hinv.2 c hc
    exact ⟨p, hp, (hinv.1.current_live hc hp).2⟩

end Runs

/-! ## Where the promise is broken -/

/-- `KillYields`, computed. -/
def killYields (k : Kernel M D) (e : Entry) : Bool :=
  match callOf e.tf, (k.cpus e.cpu).cpuTask with
  | .kill, some p => decide (KillActs k e.cpu p → OtherRunnable k e.cpu p)
  | _, _ => true

theorem killYields_sound {k : Kernel M D} {e : Entry} (h : killYields k e = true) :
    KillYields k e := by
  intro p hcall hp hacts
  rw [killYields, hcall, hp] at h
  exact of_decide_eq_true h hacts

/-- On a machine with one CPU: the shell forks and sleeps for one tick, the child runs
until the timer has woken the shell, kills itself, and the next fork reuses its slot. -/
theorem killed_stay_dead_one_cpu :
    ∃ (k₀ k : Kernel Unit Unit) (es : List Entry),
      bootAll .unlimited (.small false) () = .ok k₀ ∧
      Run (KillStep .unlimited (.small false)) k₀ es k ∧
      summary es = [(.fork, 0), (.sleep 1, 1), (.timer, 1), (.kill, 0), (.fork, 0)] ∧
      (k.tasks 1).state = .runnable ∧
      KilledStayDead (KillStep .unlimited (.small false)) (.small false) k₀ := by
  obtain ⟨k₀, es, k, hboot, hrun, hcheck⟩ := exists_run_of_plays
    (show plays .unlimited (.small false) () (fun _ => killYields)
      [(0, syscallFrame 4 0), (0, syscallFrame 6 1), (0, timerFrame), (0, syscallFrame 5 0),
        (0, syscallFrame 4 0)]
      (fun _ es k => decide (summary es =
          [(.fork, 0), (.sleep 1, 1), (.timer, 1), (.kill, 0), (.fork, 0)] ∧
        (k.tasks 1).state = .runnable)) = true by decide +kernel)
  obtain ⟨hsummary, hstate⟩ := of_decide_eq_true hcheck
  refine ⟨k₀, k, es, hboot, ?_, hsummary, hstate, killed_stay_dead_of_yields hboot⟩
  exact hrun.mono fun k e k' h => ⟨h.1, killYields_sound h.2⟩

/-- On a machine with one CPU: the shell forks and sleeps, and the child kills itself.
The CPU returns to user mode in the frame of the freed child with `cpu_task` NULL, and
its next timer interrupt stores the frame through that NULL. -/
theorem killed_child_is_resumed :
    ∃ (k₀ k : Kernel Unit Unit) (es : List Entry),
      bootAll .unlimited (.small false) () = .ok k₀ ∧
      Run (Step .unlimited (.small false)) k₀ es k ∧
      summary es = [(.fork, 0), (.sleep 5, 1), (.kill, 1)] ∧
      (k.tasks 1).state = .free ∧ (k.cpus 0).cpuTask = none ∧
      trapDispatch .unlimited (.small false) k 0 timerFrame 0 = .error .fault ∧
      ¬ KilledStayDead (Step .unlimited (.small false)) (.small false) k₀ := by
  obtain ⟨k₀, es, k, hboot, hrun, hcheck⟩ := exists_run_of_plays
    (show plays .unlimited (.small false) () (fun _ _ _ => true)
      [(0, syscallFrame 4 0), (0, syscallFrame 6 5), (0, syscallFrame 5 0)]
      (fun _ es k => decide (summary es = [(.fork, 0), (.sleep 5, 1), (.kill, 1)] ∧
        (k.tasks 1).state = .free ∧ (k.cpus 0).cpuTask = none)) = true by decide +kernel)
  obtain ⟨hsummary, hfree, hnull⟩ := of_decide_eq_true hcheck
  have hrun' : Run (Step .unlimited (.small false)) k₀ es k := hrun.mono fun _ _ _ h => h.1
  refine ⟨k₀, k, es, hboot, hrun', hsummary, hfree, hnull, ?_, fun hdead => ?_⟩
  · simp [trapDispatch, hnull]
  · obtain ⟨p, hp, -⟩ := hdead.current es k 0 hrun' (by decide)
    rw [hnull] at hp
    cases hp

end Nctuos
