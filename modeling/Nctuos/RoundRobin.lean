import Nctuos.Selection
import Nctuos.Sleep
import Nctuos.Frames

/-!
# Round robin

Between two selections of one task, every task that was runnable all the time should get
its turn (`SkipsNobody`).  The invariant is an order: a task `q` that has been waiting since
`s` was last selected stands `Before` `s` in the scan.  Right after the selection everybody
stands before `s`, since the scan comes to the current entry last.  A fork appends behind the
last entry, which changes no order.  And `sched_yield` selects the first runnable task, so
either that is `q`, or it stands before both and the scan that starts behind it meets `q` and
`s` in the same order.

The one thing that breaks the order is `sys_kill`.  It moves the last entry of the queue to
the place of the caller, and as `cpu_task` is NULL then the scan does not go on from there but
starts behind entry `0`.  `KillKeepsOrder` is the condition that this does not put a task
before a runnable one that was waiting in front of it.

The last section is about the task a CPU that is not the boot CPU starts with.  It is meant
to run only when nothing else can, but the scan gives it its turn like any other.
-/

namespace Nctuos

open Lib

variable {M D : Type}

/-- This entry is one on CPU `c` in which `sched_yield` selects task `s`. -/
def Selects (k : Kernel M D) (e : Entry) (c s : Nat) : Prop :=
  e.cpu = c ∧ selected k e = some s

/-- Task `q` is in the queue of CPU `c`, ready to run. -/
def Waits (k : Kernel M D) (c q : Nat) : Prop := Queued k c q ∧ (k.tasks q).state = .runnable

/-- **Round robin skips nobody** in the runs of `step` from `k₀`: when CPU `c` selects task
`s` in entry `e` and again in entry `e'`, and `s` lives all the while, then every other task
`q` that waits in the queue at every moment in between is selected in between. -/
def SkipsNobody (step : Kernel M D → Entry → Kernel M D → Prop) (k₀ : Kernel M D) : Prop :=
  ∀ es k e k₁ es' k₂ e' k₃ c s q,
    Run step k₀ es k → step k e k₁ → Selects k e c s →
    Run (fun k e k' => step k e k' ∧ Waits k c q ∧ Queued k c s) k₁ es' k₂ →
    Waits k₂ c q → step k₂ e' k₃ → Selects k₂ e' c s → q ≠ s →
    ∃ es₁ k₄ e₁ k₅ es₂, es' = es₁ ++ e₁ :: es₂ ∧ Run step k₁ es₁ k₄ ∧ step k₄ e₁ k₅ ∧
      Run step k₅ es₂ k₂ ∧ Selects k₄ e₁ c q

/-- A task that kills itself in this entry leaves the others in their order: who is runnable
and stands before another one still does when the caller is out of the queue. -/
def KillKeepsOrder (k : Kernel M D) (e : Entry) : Prop :=
  ∀ p, callOf e.tf = .kill → (k.cpus e.cpu).cpuTask = some p → KillActs k e.cpu p →
    ∀ q s, (k.tasks q).state = .runnable → s ≠ p → Before (k.cpus e.cpu) q s →
      Before ((killed k e.cpu p).cpus e.cpu) q s

/-! ## The order, step by step -/

section Order

variable {vm : Vm M D} {b : Boot} {k k' y : Kernel M D} {e : Entry} {c p q s : Nat}

/-- The current task comes last. -/
theorem Before.ne_current (h : QueueInv b k) (hc : c < b.ncpu)
    (hp : (k.cpus c).cpuTask = some p) (hb : Before (k.cpus c) q s) : q ≠ p := by
  obtain ⟨i, j, hi, hj, rfl, -, hlt⟩ := hb
  obtain ⟨hcur, hval⟩ := h.current c p hc hp
  have hstart : yieldStart (k.cpus c) = (k.cpus c).cpuRq.currentIndex := by
    rw [yieldStart, hp, Option.isSome_some, if_pos rfl]
  have hj' := turn_lt (h.yieldStart_lt hc) hj
  rintro heq
  obtain ⟨-, rfl⟩ := h.inj c c i _ hc hc hi hcur (heq.trans hval.symm)
  rw [hstart, turn_self hcur] at hlt
  rw [hstart] at hj'
  omega

/-- Everybody stands before the current task. -/
theorem before_current (h : QueueInv b k) (hc : c < b.ncpu)
    (hs : (k.cpus c).cpuTask = some s) (hq : Queued k c q) (hne : q ≠ s) :
    Before (k.cpus c) q s := by
  obtain ⟨i, hi, rfl⟩ := hq
  obtain ⟨hcur, hval⟩ := h.current c s hc hs
  have hstart : yieldStart (k.cpus c) = (k.cpus c).cpuRq.currentIndex := by
    rw [yieldStart, hs, Option.isSome_some, if_pos rfl]
  refine ⟨i, _, hi, hcur, rfl, hval, ?_⟩
  rw [hstart, turn_self hcur]
  have hlt := turn_lt hcur hi
  -- only the current entry itself has the last turn
  have hlast : turn (k.cpus c).cpuRq.total (k.cpus c).cpuRq.currentIndex i ≠
      (k.cpus c).cpuRq.total - 1 := by
    intro heq
    have := turn_inj hcur hi hcur (heq.trans (turn_self hcur).symm)
    exact hne (this ▸ hval)
  omega

/-- A new entry at the end of the queue. -/
theorem Before.append {cpu : CpuInfo} (hb : Before cpu q s) (pid : Nat) :
    Before { cpu with cpuRq := cpu.cpuRq.append pid } q s := by
  obtain ⟨i, j, hi, hj, hq, hs, hlt⟩ := hb
  refine ⟨i, j, Nat.lt_succ_of_lt hi, Nat.lt_succ_of_lt hj, ?_, ?_, turn_grow hj hlt⟩
  · exact (Function.update_of_ne (Nat.ne_of_lt hi) _ _).trans hq
  · exact (Function.update_of_ne (Nat.ne_of_lt hj) _ _).trans hs

/-- `sched_yield` passes over `q` only for a task that stands before it. -/
theorem Before.schedYield (h : QueueInv b k) (hc : c < b.ncpu) (hb : Before (k.cpus c) q s)
    (hq : (k.tasks q).state = .runnable) (hnot : (schedYield k c).1 ≠ some q) :
    Before ((schedYield k c).2.cpus c) q s := by
  obtain ⟨i, j, hi, hj, rfl, rfl, hlt⟩ := hb
  have hstart := h.yieldStart_lt hc
  unfold Nctuos.schedYield at hnot ⊢
  cases hpick : pick (fun p => (k.tasks p).state) (k.cpus c) with
  | none => exact absurd hq (pick_none hpick i hi)
  | some r =>
      obtain ⟨hr, -, hmin⟩ := (pick_eq_some_iff hstart).mp hpick
      rw [hpick] at hnot
      have hne : r ≠ i := by
        rintro rfl
        exact hnot rfl
      have hri : turn (k.cpus c).cpuRq.total (yieldStart (k.cpus c)) r <
          turn (k.cpus c).cpuRq.total (yieldStart (k.cpus c)) i :=
        Nat.lt_of_le_of_ne (hmin i hi hq) fun heq => hne (turn_inj hstart hr hi heq)
      refine ⟨i, j, ?_⟩
      simp only [Kernel.modCpu_same, Kernel.modTask_cpus, yieldStart, Option.isSome_some, if_true]
      exact ⟨hi, hj, trivial, trivial, turn_advance hstart hr hi hj hri hlt⟩

/-- What is in the queue when `sched_yield` is called was in it before. -/
theorem queued_of_yieldState (h : QueueInv b k) (hc : e.cpu < b.ncpu)
    (hp : (k.cpus e.cpu).cpuTask = some p) (hy : yieldState k e = some y)
    (hq : Queued y e.cpu q) : Queued k e.cpu q := by
  obtain ⟨-, -, hcpus | ⟨-, -, rfl⟩⟩ := yieldState_cases h hc hp hy
  · rwa [Queued, hcpus] at hq
  · exact ((queued_killed_iff h hc hp q).mp hq).1

/-- The order when `sched_yield` is called. -/
theorem Before.yieldState (h : QueueInv b k) (hc : e.cpu < b.ncpu)
    (hp : (k.cpus e.cpu).cpuTask = some p) (hkeeps : KillKeepsOrder k e)
    (hy : yieldState k e = some y) (hq : (k.tasks q).state = .runnable)
    (hs : Queued y e.cpu s) (hb : Before (k.cpus e.cpu) q s) :
    Before (y.cpus e.cpu) q s ∧ (y.tasks q).state = .runnable := by
  obtain ⟨-, hrun, hcpus⟩ := yieldState_cases h hc hp hy
  refine ⟨?_, hrun q (hb.ne_current h hc hp) hq⟩
  rcases hcpus with hcpus | ⟨hcall, hacts, rfl⟩
  · rwa [hcpus]
  · exact hkeeps p hcall hp hacts q s hq ((queued_killed_iff h hc hp s).mp hs).2 hb

/-- **One step keeps the order** of a runnable task and one behind it, as long as both stay
in the queue and the first is not selected. -/
theorem Before.step (h : QueueInv b k) (hstep : Step vm b k e k')
    (hkeeps : KillKeepsOrder k e) (hq : (k.tasks q).state = .runnable)
    (hs : Queued k' c s) (hb : Before (k.cpus c) q s) (hnot : ¬ Selects k e c q) :
    Before (k'.cpus c) q s := by
  obtain ⟨hc, p, hp, -⟩ := step_effect hstep
  rcases step_yield hstep hp with ⟨y, hy, -, hsame⟩ | ⟨-, -, hcpus | ⟨-, pid, -, hsame⟩⟩
  · obtain ⟨hinv, -, hcpus⟩ := yieldState_cases h hc hp hy
    rw [← hsame.cpus]
    by_cases hcc : e.cpu = c
    · subst hcc
      have hqueued : Queued y e.cpu s := by
        rw [Queued, ← hsame.cpus] at hs
        rcases schedYield_spec (hinv.total_pos _ hc) with ⟨heq, -⟩ | ⟨r, -, hsw⟩
        · rwa [heq] at hs
        · exact (hsw.queue s).mp hs
      obtain ⟨hb', hq'⟩ := hb.yieldState h hc hp hkeeps hy hq hqueued
      refine hb'.schedYield hinv hc hq' fun hsel => hnot ⟨rfl, ?_⟩
      rw [selected_of_yieldState hy, hsel]
    · have hother : (Nctuos.schedYield y e.cpu).2.cpus c = k.cpus c := by
        have hyk : y.cpus c = k.cpus c := by
          rcases hcpus with hcpus | ⟨-, -, rfl⟩
          · rw [hcpus]
          · exact killed_cpus_other k _ fun heq => hcc heq.symm
        rcases schedYield_spec (hinv.total_pos _ hc) with ⟨heq, -⟩ | ⟨r, -, hsw⟩
        · rw [heq, hyk]
        · rw [hsw.elsewhere c fun heq => hcc heq.symm, hyk]
      rwa [hother]
  · rwa [hcpus]
  · rw [← hsame.cpus]
    by_cases hcc : c = leastLoaded b k.cpus
    · rw [hcc, forked_cpus_same, ← hcc]
      exact hb.append pid
    · rwa [forked_cpus_other b k pid hcc]

/-- And `sched_yield` does not select a task behind a runnable one. -/
theorem Before.not_selects (h : QueueInv b k) (hstep : Step vm b k e k')
    (hkeeps : KillKeepsOrder k e) (hq : (k.tasks q).state = .runnable)
    (hb : Queued k c s → Before (k.cpus c) q s) : ¬ Selects k e c s := by
  rintro ⟨rfl, hsel⟩
  obtain ⟨hc, p, hp, -⟩ := step_effect hstep
  cases hy : Nctuos.yieldState k e with
  | none =>
      rw [selected_of_none hy] at hsel
      cases hsel
  | some y =>
      rw [selected_of_yieldState hy] at hsel
      have hinv := (yieldState_cases h hc hp hy).1
      obtain ⟨hqueued, -, hfirst⟩ := (schedYield_eq_some_iff hinv hc).mp hsel
      have hb' := hb (queued_of_yieldState h hc hp hy hqueued)
      obtain ⟨hbefore, hrun⟩ := hb'.yieldState h hc hp hkeeps hy hq hqueued
      exact hfirst q hrun hbefore

/-- The task selected is the current one when the entry is over. -/
theorem Selects.current (h : QueueInv b k) (hstep : Step vm b k e k') (hsel : Selects k e c s) :
    c < b.ncpu ∧ (k'.cpus c).cpuTask = some s := by
  obtain ⟨rfl, hsel⟩ := hsel
  obtain ⟨hc, p, hp, -⟩ := step_effect hstep
  refine ⟨hc, ?_⟩
  rcases step_yield hstep hp with ⟨y, hy, -, hsame⟩ | ⟨hy, -⟩
  · rw [selected_of_yieldState hy] at hsel
    have hinv := (yieldState_cases h hc hp hy).1
    rcases schedYield_spec (hinv.total_pos _ hc) with ⟨heq, -⟩ | ⟨r, hr, hsw⟩
    · rw [heq] at hsel
      cases hsel
    · rw [hr, Option.some.injEq] at hsel
      rw [← hsame.cpus, hsw.cpuTask, hsel]
  · rw [selected_of_none hy] at hsel
    cases hsel

end Order

/-! ## Whole runs -/

section Runs

variable {vm : Vm M D} {b : Boot} {m : M} {k₀ : Kernel M D}

/-- The step relation of the runs below. -/
def OrderStep (vm : Vm M D) (b : Boot) (k : Kernel M D) (e : Entry) (k' : Kernel M D) : Prop :=
  Step vm b k e k' ∧ KillKeepsOrder k e

/-- **Round robin skips nobody**, in every run in which each task that kills itself leaves the
others in their order. -/
theorem skips_nobody_of_order (hboot : bootAll vm b m = .ok k₀) :
    SkipsNobody (OrderStep vm b) k₀ := by
  intro es k e k₁ es' k₂ e' k₃ c s q hrun hstep hsel hbetween hwaits hstep' hsel' hne
  have hinv : QueueInv b k :=
    hrun.invariant (fun _ _ _ h hs => h.step hs.1) (boot_queueInv hboot)
  have hinv₁ : QueueInv b k₁ := hinv.step hstep.1
  obtain ⟨hc, hcur⟩ := hsel.current hinv hstep.1
  rcases hbetween.exists_or_mono fun k e => Selects k e c q with
    ⟨es₁, k₄, e₁, k₅, es₂, hes, r₁, h₁, r₂, hq⟩ | hnone
  · exact ⟨es₁, k₄, e₁, k₅, es₂, hes, r₁.mono fun _ _ _ h => h.1, h₁.1,
      r₂.mono fun _ _ _ h => h.1, hq⟩
  · -- otherwise `q` stands before `s` all the way, and `s` cannot be selected
    exfalso
    have hwaits₁ : Queued k₁ c q := by
      cases hnone with
      | nil => exact hwaits.1
      | cons hd _ => exact hd.1.2.1.1
    obtain ⟨hinv₂, hbefore⟩ := hnone.invariant
      (I := fun k => QueueInv b k ∧ (Queued k c s → Before (k.cpus c) q s))
      (fun k e k' ⟨h, hb⟩ ⟨⟨⟨hstep, hkeeps⟩, hw, hs⟩, hnot⟩ =>
        ⟨h.step hstep, fun hs' => (hb hs).step h hstep hkeeps hw.2 hs' hnot⟩)
      ⟨hinv₁, fun _ => before_current hinv₁ hc hcur hwaits₁ hne⟩
    exact Before.not_selects hinv₂ hstep'.1 hstep'.2 hwaits.2 hbefore hsel'

end Runs

/-! ## Where a kill breaks the order -/

instance (k : Kernel M D) (c q : Nat) : Decidable (Queued k c q) :=
  inferInstanceAs (Decidable (∃ i, i < _ ∧ _))

instance (k : Kernel M D) (c q : Nat) : Decidable (Waits k c q) :=
  inferInstanceAs (Decidable (_ ∧ _))

instance (k : Kernel M D) (e : Entry) (c s : Nat) : Decidable (Selects k e c s) :=
  inferInstanceAs (Decidable (_ ∧ _))

instance (cpu : CpuInfo) (q s : Nat) : Decidable (Before cpu q s) :=
  decidable_of_iff (∃ i, i < cpu.cpuRq.total ∧ ∃ j, j < cpu.cpuRq.total ∧
      cpu.cpuRq.runQueue i = q ∧ cpu.cpuRq.runQueue j = s ∧
      turn cpu.cpuRq.total (yieldStart cpu) i < turn cpu.cpuRq.total (yieldStart cpu) j) <| by
    constructor
    · rintro ⟨i, hi, j, hj, h⟩
      exact ⟨i, j, hi, hj, h⟩
    · rintro ⟨i, j, hi, hj, h⟩
      exact ⟨i, hi, j, hj, h⟩

/-- `KillKeepsOrder`, computed. -/
def killKeepsOrder (k : Kernel M D) (e : Entry) : Bool :=
  match callOf e.tf, (k.cpus e.cpu).cpuTask with
  | .kill, some p =>
      let cpu := k.cpus e.cpu
      decide (KillActs k e.cpu p → ∀ i, i < cpu.cpuRq.total → ∀ j, j < cpu.cpuRq.total →
        (k.tasks (cpu.cpuRq.runQueue i)).state = .runnable → cpu.cpuRq.runQueue j ≠ p →
        Before cpu (cpu.cpuRq.runQueue i) (cpu.cpuRq.runQueue j) →
        Before ((killed k e.cpu p).cpus e.cpu) (cpu.cpuRq.runQueue i) (cpu.cpuRq.runQueue j))
  | _, _ => true

theorem killKeepsOrder_sound {k : Kernel M D} {e : Entry} (h : killKeepsOrder k e = true) :
    KillKeepsOrder k e := by
  intro p hcall hp hacts q s hq hs hb
  obtain ⟨i, j, hi, hj, rfl, rfl, hlt⟩ := id hb
  simp only [killKeepsOrder, hcall, hp, decide_eq_true_eq] at h
  exact h hacts i hi j hj hq hs hb

theorem Step.unique {vm : Vm M D} {b : Boot} (k : Kernel M D) (e : Entry) (k' k'' : Kernel M D)
    (h : Step vm b k e k') (h' : Step vm b k e k'') : k' = k'' := by
  have heq := h.2.symm.trans h'.2
  rw [Except.ok.injEq, Prod.mk.injEq] at heq
  exact heq.2

/-- CPU `c` passes over task `q` from state `k` on, computed: the trap `first` and after the
traps `between` the trap `last` select `s`, and `q` waits all the while. -/
def passesOver (vm : Vm M D) (b : Boot) (c q s : Nat) (first : Nat × Trapframe)
    (between : List (Nat × Trapframe)) (last : Nat × Trapframe) (k : Kernel M D) : Bool :=
  match trapDispatch vm b k first.1 first.2 0 with
  | .error _ => false
  | .ok (r, k₁) =>
      match play vm b (fun k e => decide (Waits k c q ∧ Queued k c s ∧ ¬ Selects k e c q))
        between k₁ with
      | .error _ => false
      | .ok (_, k₂) =>
          match trapDispatch vm b k₂ last.1 last.2 0 with
          | .error _ => false
          | .ok (r', _) =>
              decide ((first.1 < b.ncpu ∧ Selects k ⟨first.1, first.2, 0, r⟩ c s) ∧
                (last.1 < b.ncpu ∧ Selects k₂ ⟨last.1, last.2, 0, r'⟩ c s) ∧
                Waits k₂ c q ∧ q ≠ s)

theorem not_skipsNobody_of_passesOver {vm : Vm M D} {b : Boot} {k₀ k : Kernel M D}
    {es : List Entry} {c q s : Nat} {first last : Nat × Trapframe}
    {between : List (Nat × Trapframe)} (hrun : Run (Step vm b) k₀ es k)
    (h : passesOver vm b c q s first between last k = true) : ¬ SkipsNobody (Step vm b) k₀ := by
  intro hskips
  unfold passesOver at h
  split at h
  · cases h
  rename_i r k₁ hfirst
  split at h
  · cases h
  rename_i es' k₂ hplay
  split at h
  · cases h
  rename_i r' k₃ hlast
  obtain ⟨⟨hcpu, hsel⟩, ⟨hcpu', hsel'⟩, hwaits, hne⟩ := of_decide_eq_true h
  have hbetween : Run (fun k e k' => Step vm b k e k' ∧ Waits k c q ∧ Queued k c s ∧
      ¬ Selects k e c q) k₁ es' k₂ :=
    (run_of_play hplay).mono fun _ _ _ h => ⟨h.1, of_decide_eq_true h.2⟩
  obtain ⟨es₁, k₄, e₁, k₅, es₂, rfl, hrun₁, -, -, hq⟩ := hskips es k _ k₁ es' k₂ _ k₃ c s q hrun
    ⟨hcpu, hfirst⟩ hsel (hbetween.mono fun _ _ _ h => ⟨h.1, h.2.1, h.2.2.1⟩) hwaits
    ⟨hcpu', hlast⟩ hsel' hne
  -- the entry that is said to select `q` is one of those that do not
  obtain ⟨k₆, hrun₆, hrest⟩ := hbetween.of_append
  obtain ⟨_, hstep₆, -⟩ := Run.cons_iff.mp hrest
  have heq := hrun₁.unique Step.unique (hrun₆.mono fun _ _ _ h => h.1)
  exact hstep₆.2.2.2 (heq ▸ hq)

/-- One CPU, the shell and two children.  The shell sleeps, the first child kills itself and
the second, whose entry has moved, has its turn; then it sleeps and the shell, by now awake,
has its own. -/
theorem skips_nobody_one_cpu :
    ∃ (k₀ k : Kernel Unit Unit) (es : List Entry),
      bootAll .unlimited (.small false) () = .ok k₀ ∧
      Run (OrderStep .unlimited (.small false)) k₀ es k ∧
      summary es = [(.fork, 0), (.fork, 0), (.sleep 1, 1), (.timer, 1), (.kill, 2),
        (.sleep 1, 0)] ∧
      SkipsNobody (OrderStep .unlimited (.small false)) k₀ := by
  obtain ⟨k₀, es, k, hboot, hrun, hcheck⟩ := exists_run_of_plays
    (show plays .unlimited (.small false) () (fun _ => killKeepsOrder)
      [(0, syscallFrame 4 0), (0, syscallFrame 4 0), (0, syscallFrame 6 1), (0, timerFrame),
        (0, syscallFrame 5 0), (0, syscallFrame 6 1)]
      (fun _ es _ => decide (summary es = [(.fork, 0), (.fork, 0), (.sleep 1, 1), (.timer, 1),
        (.kill, 2), (.sleep 1, 0)])) = true by decide +kernel)
  refine ⟨k₀, k, es, hboot, ?_, of_decide_eq_true hcheck, skips_nobody_of_order hboot⟩
  exact hrun.mono fun k e k' h => ⟨h.1, killKeepsOrder_sound h.2⟩

/-- One CPU, the shell (task 0) and three children, each of which sleeps for one tick when it
has its turn, except the last, which kills itself.  Task 2 is selected in the sixth entry and
again in the last; the shell is awake from the fifth entry on and waits, but the scan that
follows the kill starts behind it. -/
theorem shell_is_passed_over :
    ∃ (k₀ k : Kernel Unit Unit) (es : List Entry),
      bootAll .unlimited (.small false) () = .ok k₀ ∧
      Run (Step .unlimited (.small false)) k₀ es k ∧
      summary es = [(.fork, 0), (.fork, 0), (.fork, 0), (.sleep 1, 1), (.timer, 1),
        (.sleep 1, 2), (.timer, 2), (.sleep 1, 3), (.timer, 3), (.kill, 1), (.sleep 1, 2)] ∧
      ¬ SkipsNobody (Step .unlimited (.small false)) k₀ := by
  obtain ⟨k₀, es, k, hboot, hrun, hcheck⟩ := exists_run_of_plays
    (show plays .unlimited (.small false) () (fun _ _ _ => true)
      [(0, syscallFrame 4 0), (0, syscallFrame 4 0), (0, syscallFrame 4 0),
        (0, syscallFrame 6 1), (0, timerFrame), (0, syscallFrame 6 1), (0, timerFrame),
        (0, syscallFrame 6 1), (0, timerFrame), (0, syscallFrame 5 0), (0, syscallFrame 6 1)]
      (fun _ es _ => decide (summary es = [(.fork, 0), (.fork, 0), (.fork, 0), (.sleep 1, 1),
        (.timer, 1), (.sleep 1, 2), (.timer, 2), (.sleep 1, 3), (.timer, 3), (.kill, 1),
        (.sleep 1, 2)])) = true by decide +kernel)
  obtain ⟨k₀', es', k', hboot', hrun', hcheck'⟩ := exists_run_of_plays
    (show plays .unlimited (.small false) () (fun _ _ _ => true)
      [(0, syscallFrame 4 0), (0, syscallFrame 4 0), (0, syscallFrame 4 0),
        (0, syscallFrame 6 1), (0, timerFrame)]
      (fun _ _ k => passesOver .unlimited (.small false) 0 0 2 (0, syscallFrame 6 1)
        [(0, timerFrame), (0, syscallFrame 6 1), (0, timerFrame), (0, syscallFrame 5 0)]
        (0, syscallFrame 6 1) k) = true by decide +kernel)
  obtain rfl : k₀ = k₀' := Except.ok.inj (hboot.symm.trans hboot')
  exact ⟨k₀, k, es, hboot, hrun.mono fun _ _ _ h => h.1, of_decide_eq_true hcheck,
    not_skipsNobody_of_passesOver (hrun'.mono fun _ _ _ h => h.1) hcheck'⟩

/-! ## The idle task -/

/-- The CPUs of `l` have got their entry points. -/
def Entered (b : Boot) (l : List Nat) (k : Kernel M D) : Prop :=
  ∀ c ∈ l, (k.tasks (l.idxOf c)).tf.tfEip = if c = b.bootcpu then b.userEntry else b.idleEntry

theorem Entered.next {vm : Vm M D} {b : Boot} {l : List Nat} {k k' : Kernel M D} {c : Nat}
    (he : Entered b l k) (h : BootInv l k) (hc : c ∉ l) (hlt : l.length < nrTasks)
    (hrun : taskInitPercpu vm b k c = .ok k') : Entered b (l ++ [c]) k' := by
  obtain ⟨hnew, hold⟩ := taskInitPercpu_tf hrun (h.findFree_eq hlt)
  intro c' hc'
  by_cases hmem : c' ∈ l
  · rw [List.idxOf_append_of_mem hmem, hold _ (List.idxOf_lt_length_iff.mpr hmem).ne]
    exact he c' hmem
  · obtain rfl : c' = c := by simpa [hmem] using hc'
    rw [List.idxOf_append_of_notMem hc, List.idxOf_cons_self, Nat.add_zero]
    exact hnew

/-- The first task of a CPU that is not the boot CPU is the idle task. -/
theorem initialTask_eip {vm : Vm M D} {b : Boot} {m : M} {k₀ : Kernel M D} {c : Nat}
    (hboot : bootAll vm b m = .ok k₀) (hc : c < b.ncpu) :
    (k₀.tasks (initialTask k₀ c)).tf.tfEip =
      if c = b.bootcpu then b.userEntry else b.idleEntry := by
  have hmem := b.mem_order.mpr hc
  obtain ⟨hinv, hentered⟩ := bootAll_induction (P := Entered b)
    (fun c hc => absurd hc List.not_mem_nil)
    (fun l k c k' h he hc hlt hrun => he.next h hc hlt hrun) hboot
  rw [initialTask, (hinv.cpu c hmem).1, Option.getD_some]
  exact hentered c hmem

/-- `sched_yield`, called on CPU `c` in state `k`, leaves task `idle` alone as long as another
task of the queue can run. -/
def IdleLast (k : Kernel M D) (c idle : Nat) : Prop :=
  (schedYield k c).1 = some idle → ¬ OtherRunnable k c idle

instance (k : Kernel M D) (c idle : Nat) : Decidable (IdleLast k c idle) :=
  inferInstanceAs (Decidable (_ → ¬ _))

/-- **The first task of a CPU is left alone exactly if a runnable task stands before it**
whenever it and another one can run.  On a CPU that is not the boot CPU that task is the idle
task (`initialTask_eip`); `y` is the state in which a kernel entry calls `sched_yield`. -/
theorem idle_last_iff {vm : Vm M D} {b : Boot} {m : M} {k₀ k y : Kernel M D} {es : List Entry}
    {e : Entry} (hboot : bootAll vm b m = .ok k₀) (hrun : Run (Step vm b) k₀ es k)
    (hc : e.cpu < b.ncpu) (hy : yieldState k e = some y) :
    IdleLast y e.cpu (initialTask k₀ e.cpu) ↔
      (Waits y e.cpu (initialTask k₀ e.cpu) → OtherRunnable y e.cpu (initialTask k₀ e.cpu) →
        ∃ q, (y.tasks q).state = .runnable ∧
          Before (y.cpus e.cpu) q (initialTask k₀ e.cpu)) := by
  generalize initialTask k₀ e.cpu = idle
  have hinv : QueueInv b y := by
    have h := hrun.invariant (fun _ _ _ h hs => QueueInv.step h hs) (boot_queueInv hboot)
    cases hp : (k.cpus e.cpu).cpuTask with
    | none =>
        rw [yieldState, hp] at hy
        cases hy
    | some p => exact (yieldState_cases h hc hp hy).1
  rw [IdleLast, schedYield_eq_some_iff hinv hc]
  constructor
  · intro h hwaits hother
    by_contra hnone
    push Not at hnone
    exact h ⟨hwaits.1, hwaits.2, hnone⟩ hother
  · rintro h ⟨hqueued, hs, hfirst⟩ hother
    obtain ⟨q, hq, hb⟩ := h ⟨hqueued, hs⟩ hother
    exact hfirst q hq hb

/-- The timer interrupt CPU 1 takes next in the two runs below. -/
def timerOn1 : Entry := ⟨1, timerFrame, 0, ⟨0, {}⟩⟩

/-- A check of the state in which `sched_yield` is called, at the end of a script. -/
theorem exists_yieldState_of_plays {vm : Vm M D} {b : Boot} {m : M} {e : Entry}
    {script : List (Nat × Trapframe)} {check : Kernel M D → Kernel M D → Bool}
    (h : plays vm b m (fun _ _ _ => true) script
      (fun k₀ _ k => (yieldState k e).any (check k₀)) = true) :
    ∃ k₀ es k y, bootAll vm b m = .ok k₀ ∧ Run (Step vm b) k₀ es k ∧
      yieldState k e = some y ∧ check k₀ y = true := by
  obtain ⟨k₀, es, k, hboot, hrun, hcheck⟩ := exists_run_of_plays h
  cases hy : yieldState k e with
  | none =>
      rw [hy] at hcheck
      cases hcheck
  | some y =>
      rw [hy] at hcheck
      exact ⟨k₀, es, k, y, hboot, hrun.mono fun _ _ _ h => h.1, hy, hcheck⟩

/-- Two CPUs.  The shell forks twice and the second child is dispatched to CPU 1.  When the
quantum of the idle task there is used up, the child stands before it. -/
theorem idle_last_first_quantum :
    ∃ (k₀ k y : Kernel Unit Unit) (es : List Entry),
      bootAll .unlimited (.small true) () = .ok k₀ ∧
      Run (Step .unlimited (.small true)) k₀ es k ∧ yieldState k timerOn1 = some y ∧
      Waits y 1 (initialTask k₀ 1) ∧ OtherRunnable y 1 (initialTask k₀ 1) ∧
      IdleLast y 1 (initialTask k₀ 1) := by
  obtain ⟨k₀, es, k, y, hboot, hrun, hy, hcheck⟩ := exists_yieldState_of_plays
    (show plays .unlimited (.small true) () (fun _ _ _ => true)
      ([(0, syscallFrame 4 0), (0, syscallFrame 4 0)] ++ List.replicate 99 (1, timerFrame))
      (fun k₀ _ k => (yieldState k timerOn1).any fun y =>
        decide (Waits y 1 (initialTask k₀ 1) ∧ OtherRunnable y 1 (initialTask k₀ 1) ∧
          (y.tasks 3).state = .runnable ∧ Before (y.cpus 1) 3 (initialTask k₀ 1))) = true by
        decide +kernel)
  obtain ⟨hwaits, hother, hstate, hbefore⟩ := of_decide_eq_true hcheck
  refine ⟨k₀, k, y, es, hboot, hrun, hy, hwaits, hother, ?_⟩
  exact (idle_last_iff hboot hrun (by decide) hy).mpr fun _ _ => ⟨3, hstate, hbefore⟩

/-- A hundred ticks later the quantum of the child is used up.  It is runnable, but the scan
comes to the idle task first and selects it. -/
theorem idle_selected_before_child :
    ∃ (k₀ k y : Kernel Unit Unit) (es : List Entry),
      bootAll .unlimited (.small true) () = .ok k₀ ∧ (Boot.small true).bootcpu ≠ 1 ∧
      Run (Step .unlimited (.small true)) k₀ es k ∧ yieldState k timerOn1 = some y ∧
      (schedYield y 1).1 = some (initialTask k₀ 1) ∧ Waits y 1 3 ∧
      ¬ IdleLast y 1 (initialTask k₀ 1) := by
  obtain ⟨k₀, es, k, y, hboot, hrun, hy, hcheck⟩ := exists_yieldState_of_plays
    (show plays .unlimited (.small true) () (fun _ _ _ => true)
      ([(0, syscallFrame 4 0), (0, syscallFrame 4 0)] ++ List.replicate 199 (1, timerFrame))
      (fun k₀ _ k => (yieldState k timerOn1).any fun y =>
        decide ((schedYield y 1).1 = some (initialTask k₀ 1) ∧ Waits y 1 3 ∧
          ¬ IdleLast y 1 (initialTask k₀ 1))) = true by decide +kernel)
  exact ⟨k₀, k, y, es, hboot, by decide, hrun, hy, of_decide_eq_true hcheck⟩

end Nctuos
