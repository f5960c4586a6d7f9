import Nctuos.Boot
import Nctuos.Lib.Turn

/-!
# Which task `sched_yield` selects

`sched_yield` is called from three places: `SYS_sleep` once the caller is asleep,
`sys_kill` once the caller is out of the queue and `cpu_task` is NULL, and the timer once
the current task has used up its quantum.  `yieldState` is the state it is called in, and
`selected` the task it switches to; `step_yield` says that a kernel entry is one call of
`sched_yield` in that state, or leaves every queue as it is, except for the entry a fork
appends.

Its loop looks at the entries of the queue in the order of their turns behind
`current_index`.  `pick_eq_some_iff` says it takes the first runnable one, and `Before`
is that order as a relation between tasks.
-/

namespace Nctuos

open Lib

variable {M D : Type}

/-! ## The order of the loop -/

/-- The loop stops at the first runnable entry it comes to. -/
theorem scan_first {state : Nat → TaskState} {rq : Runqueue} {n idx i : Nat}
    (h : scan state rq n idx = some i) :
    ∃ t, t < n ∧ (idx + 1 + t) % rq.total = i ∧
      ∀ j, j < t → state (rq.runQueue ((idx + 1 + j) % rq.total)) ≠ .runnable := by
  induction n generalizing idx with
  | zero => cases h
  | succ n ih =>
      simp only [scan] at h
      split at h
      · cases h
        exact ⟨0, Nat.succ_pos n, rfl, fun j hj => absurd hj (Nat.not_lt_zero j)⟩
      · rename_i hrun
        obtain ⟨t, ht, hi, hfirst⟩ := ih h
        have hmod : ∀ j, ((idx + 1) % rq.total + 1 + j) % rq.total =
            (idx + 1 + (j + 1)) % rq.total := fun j => by
          rw [Nat.add_assoc, Nat.mod_add_mod, Nat.add_comm 1 j]
        refine ⟨t + 1, by omega, (hmod t).symm.trans hi, fun j hj => ?_⟩
        cases j with
        | zero => exact hrun
        | succ j =>
            rw [← hmod]
            exact hfirst j (by omega)

/-- **What `sched_yield` picks** is the runnable entry with the earliest turn. -/
theorem pick_eq_some_iff {state : Nat → TaskState} {cpu : CpuInfo} {i : Nat}
    (hstart : yieldStart cpu < cpu.cpuRq.total) :
    pick state cpu = some i ↔
      i < cpu.cpuRq.total ∧ state (cpu.cpuRq.runQueue i) = .runnable ∧
        ∀ j, j < cpu.cpuRq.total → state (cpu.cpuRq.runQueue j) = .runnable →
          turn cpu.cpuRq.total (yieldStart cpu) i ≤ turn cpu.cpuRq.total (yieldStart cpu) j := by
  have hfirst : ∀ {i}, pick state cpu = some i →
      i < cpu.cpuRq.total ∧ state (cpu.cpuRq.runQueue i) = .runnable ∧
        ∀ j, j < cpu.cpuRq.total → state (cpu.cpuRq.runQueue j) = .runnable →
          turn cpu.cpuRq.total (yieldStart cpu) i ≤
            turn cpu.cpuRq.total (yieldStart cpu) j := by
    intro i h
    obtain ⟨hi, hrun⟩ := pick_some (Nat.zero_lt_of_lt hstart) h
    refine ⟨hi, hrun, fun j hj hrun' => ?_⟩
    obtain ⟨t, ht, rfl, hearlier⟩ := scan_first h
    rw [turn_add hstart ht]
    refine Nat.le_of_not_lt fun hlt => hearlier _ hlt ?_
    rwa [add_turn hstart hj]
  refine ⟨hfirst, ?_⟩
  rintro ⟨hi, hrun, hmin⟩
  cases h : pick state cpu with
  | none => exact absurd hrun (pick_none h i hi)
  | some i' =>
      obtain ⟨hi', hrun', hmin'⟩ := hfirst h
      rw [turn_inj hstart hi' hi (Nat.le_antisymm (hmin' i hi hrun) (hmin i' hi' hrun'))]

/-- Task `q` stands before task `s` in the order in which `sched_yield` would look at the
queue of this CPU. -/
def Before (cpu : CpuInfo) (q s : Nat) : Prop :=
  ∃ i j, i < cpu.cpuRq.total ∧ j < cpu.cpuRq.total ∧ cpu.cpuRq.runQueue i = q ∧
    cpu.cpuRq.runQueue j = s ∧
    turn cpu.cpuRq.total (yieldStart cpu) i < turn cpu.cpuRq.total (yieldStart cpu) j

/-! ## The calls of `sched_yield` -/

/-- The state in which this kernel entry calls `sched_yield`, if it does; up to what the
scheduler does not read. -/
def yieldState (k : Kernel M D) (e : Entry) : Option (Kernel M D) :=
  match (k.cpus e.cpu).cpuTask with
  | none => none
  | some p =>
      match callOf e.tf with
      | .sleep n => some (asleep k p n)
      | .kill =>
          if KillActs k e.cpu (k.tasks p).taskId then
            some (killed k e.cpu (k.tasks p).taskId)
          else none
      | .timer =>
          let k := tickAll { k with jiffies := k.jiffies + 1 } e.cpu p
          if (k.tasks p).remindTicks ≤ 0 then
            some (k.modTask p fun t => { t with state := .runnable })
          else none
      | .fork => none
      | .other => none

/-- The task `sched_yield` selects in this kernel entry. -/
def selected (k : Kernel M D) (e : Entry) : Option Nat :=
  (yieldState k e).bind fun y => (schedYield y e.cpu).1

section Yield

variable {vm : Vm M D} {b : Boot} {k k' y : Kernel M D} {e : Entry} {c p q : Nat}

theorem selected_of_yieldState (hy : yieldState k e = some y) :
    selected k e = (schedYield y e.cpu).1 := by
  rw [selected, hy, Option.bind_some]

theorem selected_of_none (hy : yieldState k e = none) : selected k e = none := by
  rw [selected, hy, Option.bind_none]

/-- **A kernel entry calls `sched_yield` in `yieldState`**, or it resumes its caller and
changes no queue but the one its fork appends to. -/
theorem step_yield (h : Step vm b k e k') (hp : (k.cpus e.cpu).cpuTask = some p) :
    (∃ y, yieldState k e = some y ∧ e.resumed.pid = (schedYield y e.cpu).1.getD p ∧
        SameSched (schedYield y e.cpu).2 k') ∨
      (yieldState k e = none ∧ e.resumed.pid = p ∧
        (k'.cpus = k.cpus ∨ callOf e.tf = .fork ∧
          ∃ pid, findFree k.tasks = some pid ∧ SameSched (forked b k pid) k')) := by
  obtain ⟨-, p', hp', he⟩ := step_effect h
  obtain rfl : p' = p := Option.some.inj (hp'.symm.trans hp)
  unfold yieldState
  simp only [hp]
  cases hcall : callOf e.tf with
  | fork =>
      rw [hcall] at he
      refine Or.inr ⟨rfl, he.1, ?_⟩
      rcases he.2 with hs | hs
      · exact Or.inl hs.cpus.symm
      · exact Or.inr ⟨rfl, hs⟩
  | sleep n =>
      rw [hcall] at he
      exact Or.inl ⟨_, rfl, he⟩
  | kill =>
      rw [hcall] at he
      rcases he with ⟨hacts, hq, hs⟩ | ⟨hacts, hq, hs⟩
      · exact Or.inl ⟨_, if_pos hacts, hq, hs⟩
      · exact Or.inr ⟨if_neg hacts, hq, Or.inl hs.cpus.symm⟩
  | timer =>
      rw [hcall] at he
      obtain ⟨hq, hs⟩ := he
      simp only [timerHandler, hp] at hq hs
      split at hs
      · rename_i hticks
        rw [if_pos hticks] at hq
        exact Or.inl ⟨_, if_pos hticks, hq, hs⟩
      · rename_i hticks
        rw [if_neg hticks] at hq
        exact Or.inr ⟨if_neg hticks, hq, Or.inl hs.cpus.symm⟩
  | other =>
      rw [hcall] at he
      exact Or.inr ⟨rfl, he.1, Or.inl he.2.cpus.symm⟩

/-- What the kernel does before it calls `sched_yield`: only a kill changes the queue, and
no task but the caller stops being runnable. -/
theorem yieldState_cases (h : QueueInv b k) (hc : e.cpu < b.ncpu)
    (hp : (k.cpus e.cpu).cpuTask = some p) (hy : yieldState k e = some y) :
    QueueInv b y ∧
      (∀ q, q ≠ p → (k.tasks q).state = .runnable → (y.tasks q).state = .runnable) ∧
      (y.cpus = k.cpus ∨
        callOf e.tf = .kill ∧ KillActs k e.cpu p ∧ y = killed k e.cpu p) := by
  unfold yieldState at hy
  simp only [hp] at hy
  cases hcall : callOf e.tf with
  | fork =>
      rw [hcall] at hy
      cases hy
  | sleep n =>
      rw [hcall] at hy
      cases hy
      refine ⟨h.asleep hc hp n, fun q hne hs => ?_, Or.inl rfl⟩
      rw [asleep, Kernel.modTask_other _ _ hne, hs]
  | kill =>
      simp only [hcall, h.current_taskId hc hp] at hy
      split at hy
      · rename_i hacts
        cases hy
        refine ⟨h.killed hc hp hacts.2.2, fun q hne hs => ?_, Or.inr ⟨rfl, hacts, rfl⟩⟩
        rw [killed_tasks_other k e.cpu hne, hs]
      · cases hy
  | timer =>
      rw [hcall] at hy
      simp only at hy
      split at hy
      · cases hy
        have h₀ := h.setJiffies
        refine ⟨(h₀.tickAll e.cpu p).preempted hc hp, fun q hne hs => ?_, Or.inl rfl⟩
        rw [Kernel.modTask_other _ _ hne]
        rcases (QueueInv.tickAll_task { k with jiffies := k.jiffies + 1 } e.cpu p q).2 with
          hs' | ⟨-, hs'⟩
        · exact hs'.trans hs
        · exact hs'
      · cases hy
  | other =>
      rw [hcall] at hy
      cases hy

/-- The scan starts inside the queue. -/
theorem QueueInv.yieldStart_lt (h : QueueInv b k) (hc : c < b.ncpu) :
    yieldStart (k.cpus c) < (k.cpus c).cpuRq.total := by
  unfold yieldStart
  cases hp : (k.cpus c).cpuTask with
  | none => exact h.total_pos c hc
  | some p => exact (h.current c p hc hp).1

/-- `sched_yield` selects the runnable task no other runnable task stands before. -/
theorem schedYield_eq_some_iff (h : QueueInv b k) (hc : c < b.ncpu) :
    (schedYield k c).1 = some q ↔ Queued k c q ∧ (k.tasks q).state = .runnable ∧
      ∀ r, (k.tasks r).state = .runnable → ¬ Before (k.cpus c) r q := by
  have hstart := h.yieldStart_lt hc
  have hyield : (schedYield k c).1 =
      (pick (fun p => (k.tasks p).state) (k.cpus c)).map (k.cpus c).cpuRq.runQueue := by
    unfold schedYield
    cases pick (fun p => (k.tasks p).state) (k.cpus c) <;> rfl
  rw [hyield, Option.map_eq_some_iff]
  constructor
  · rintro ⟨i, hpick, rfl⟩
    obtain ⟨hi, hrun, hmin⟩ := (pick_eq_some_iff hstart).mp hpick
    refine ⟨⟨i, hi, rfl⟩, hrun, ?_⟩
    rintro _ hr ⟨j, i', hj, hi', rfl, heq, hlt⟩
    obtain ⟨-, rfl⟩ := h.inj c c i' i hc hc hi' hi heq
    exact Nat.not_lt.mpr (hmin j hj hr) hlt
  · rintro ⟨⟨i, hi, rfl⟩, hrun, hfirst⟩
    refine ⟨i, (pick_eq_some_iff hstart).mpr ⟨hi, hrun, fun j hj hr => ?_⟩, rfl⟩
    exact Nat.le_of_not_lt fun hlt => hfirst _ hr ⟨j, i, hj, hi, rfl, rfl, hlt⟩

end Yield

end Nctuos
