import Nctuos.SchedStep
import Nctuos.Lib.Run
import Mathlib.Data.Finset.Card
import Mathlib.Data.Finset.Range

/-!
# The run-queue invariant

`QueueInv` is what holds of the run queues in every state the kernel can reach, with
no assumption on what the tasks do: the live entries of all queues are pairwise
distinct, they are exactly the pids that are not free, a CPU's `cpu_task` (when it is
not NULL) is the entry at `current_index`, and nothing else in the queue is running.

It deliberately does *not* say that `cpu_task` is running, or even that it is there:
when `sched_yield` finds nothing to run, `SYS_sleep` goes on in a sleeping task and
`sys_kill` leaves `cpu_task` NULL.  `Running`, `Manned` and `Anchored` (in
`Nctuos.CurrentTask`) add that part, each under the condition it needs.

What carries the induction: `current_index` is never adjusted when an entry is
removed, but the only task ever removed is the current one, so the index is stale only
until the `sched_yield` of the same step overwrites it.
-/

namespace Nctuos

open Lib

variable {M D : Type}

/-! ## The scheduler's loop -/

theorem scan_some {state : Nat → TaskState} {rq : Runqueue} {n idx i : Nat}
    (hpos : 0 < rq.total) (h : scan state rq n idx = some i) :
    i < rq.total ∧ state (rq.runQueue i) = .runnable := by
  induction n generalizing idx with
  | zero => cases h
  | succ n ih =>
      simp only [scan] at h
      split at h
      · rename_i hrun
        cases h
        exact ⟨Nat.mod_lt _ hpos, hrun⟩
      · exact ih h

/-- A scan that finds nothing has looked at every index it passed. -/
theorem scan_none {state : Nat → TaskState} {rq : Runqueue} {n idx : Nat}
    (h : scan state rq n idx = none) :
    ∀ j, j < n → state (rq.runQueue ((idx + 1 + j) % rq.total)) ≠ .runnable := by
  induction n generalizing idx with
  | zero => exact fun j hj => absurd hj (Nat.not_lt_zero j)
  | succ n ih =>
      intro j hj
      simp only [scan] at h
      split at h
      · cases h
      · rename_i hrun
        cases j with
        | zero => exact hrun
        | succ j =>
            have hlater := ih h j (by omega)
            have hmod : ((idx + 1) % rq.total + 1 + j) % rq.total =
                (idx + 1 + (j + 1)) % rq.total := by
              rw [Nat.add_assoc, Nat.mod_add_mod, Nat.add_comm 1 j]
            rwa [hmod] at hlater

/-- `total` turns from anywhere visit every index. -/
theorem exists_turn {total : Nat} (idx i : Nat) (hi : i < total) :
    ∃ j, j < total ∧ (idx + 1 + j) % total = i := by
  have hpos : 0 < total := Nat.lt_of_le_of_lt (Nat.zero_le i) hi
  have hr : (idx + 1) % total < total := Nat.mod_lt _ hpos
  by_cases hle : (idx + 1) % total ≤ i
  · refine ⟨i - (idx + 1) % total, by omega, ?_⟩
    rw [← Nat.mod_add_mod, Nat.add_sub_of_le hle, Nat.mod_eq_of_lt hi]
  · refine ⟨i + total - (idx + 1) % total, by omega, ?_⟩
    have hsum : (idx + 1) % total + (i + total - (idx + 1) % total) = i + total := by omega
    rw [← Nat.mod_add_mod, hsum, Nat.add_mod_right, Nat.mod_eq_of_lt hi]

/-- What `sched_yield` picks is runnable; when it picks nothing, nothing is. -/
theorem pick_some {state : Nat → TaskState} {cpu : CpuInfo} {i : Nat}
    (hpos : 0 < cpu.cpuRq.total) (h : pick state cpu = some i) :
    i < cpu.cpuRq.total ∧ state (cpu.cpuRq.runQueue i) = .runnable :=
  scan_some hpos h

theorem pick_none {state : Nat → TaskState} {cpu : CpuInfo} (h : pick state cpu = none) :
    ∀ i, i < cpu.cpuRq.total → state (cpu.cpuRq.runQueue i) ≠ .runnable := by
  intro i hi
  obtain ⟨j, hj, hturn⟩ := exists_turn (yieldStart cpu) i hi
  have := scan_none h j hj
  rwa [hturn] at this

/-! ## Queue edits -/

theorem findIndex_some {rq : Runqueue} {pid i : Nat} (h : findIndex rq pid = some i) :
    i < rq.total ∧ rq.runQueue i = pid := by
  have hmem := List.mem_of_find?_eq_some h
  have hval := List.find?_some h
  exact ⟨List.mem_range.mp hmem, by simpa using hval⟩

theorem exists_findIndex {rq : Runqueue} {pid i : Nat} (hi : i < rq.total)
    (hval : rq.runQueue i = pid) : ∃ j, findIndex rq pid = some j := by
  cases h : findIndex rq pid with
  | some j => exact ⟨j, rfl⟩
  | none =>
      have := List.find?_eq_none.mp h i (List.mem_range.mpr hi)
      simp [hval] at this

/-- Swap-removal at index `i` moves the last entry: index `j` of the shorter queue
holds what index `moved` held. -/
def moved (total i j : Nat) : Nat := if j = i then total - 1 else j

theorem remove_eq {rq : Runqueue} {pid i : Nat} (h : findIndex rq pid = some i) :
    (rq.remove pid).total = rq.total - 1 ∧
      (rq.remove pid).currentIndex = rq.currentIndex ∧
      ∀ j, (rq.remove pid).runQueue j = rq.runQueue (moved rq.total i j) := by
  simp only [Runqueue.remove, h]
  refine ⟨trivial, trivial, fun j => ?_⟩
  by_cases hj : j = i
  · simp [moved, hj]
  · simp [moved, hj]

/-- The entries that survive a swap-removal, with where they went. -/
theorem exists_moved {total i j : Nat} (hi : i < total) (hj : j < total) (hne : j ≠ i) :
    ∃ j', j' < total - 1 ∧ moved total i j' = j := by
  by_cases hlast : j = total - 1
  · refine ⟨i, by omega, ?_⟩
    simp [moved, hlast]
  · refine ⟨j, by omega, ?_⟩
    simp [moved, hne]

theorem moved_lt {total i j : Nat} (hj : j < total - 1) : moved total i j < total := by
  unfold moved
  split <;> omega

theorem moved_ne {total i j : Nat} (hj : j < total - 1) : moved total i j ≠ i := by
  unfold moved
  split <;> omega

theorem moved_inj {total i j j' : Nat} (hj : j < total - 1) (hj' : j' < total - 1)
    (h : moved total i j = moved total i j') : j = j' := by
  unfold moved at h
  split at h <;> split at h <;> omega

/-- `rq'` is `rq` without `pid`: what is at index `j` was at index `old j`. -/
structure Runqueue.Without (rq rq' : Runqueue) (pid : Nat) (old : Nat → Nat) : Prop where
  lt : ∀ {j}, j < rq'.total → old j < rq.total
  entry : ∀ {j}, j < rq'.total → rq'.runQueue j = rq.runQueue (old j)
  ne : ∀ {j}, j < rq'.total → rq'.runQueue j ≠ pid
  inj : ∀ {j j'}, j < rq'.total → j' < rq'.total → old j = old j' → j = j'
  onto : ∀ {j}, j < rq.total → rq.runQueue j ≠ pid → ∃ j' < rq'.total, old j' = j

theorem Runqueue.Without.self {rq : Runqueue} {pid : Nat}
    (h : ∀ j, j < rq.total → rq.runQueue j ≠ pid) : rq.Without rq pid id where
  lt hj := hj
  entry _ := rfl
  ne {j} hj := h j hj
  inj _ _ heq := heq
  onto {j} hj _ := ⟨j, hj, rfl⟩

theorem Runqueue.without_remove {rq : Runqueue} {pid i : Nat} (hi : findIndex rq pid = some i)
    (honce : ∀ j, j < rq.total → rq.runQueue j = pid → j = i) :
    rq.Without (rq.remove pid) pid (moved rq.total i) := by
  obtain ⟨hi_lt, hi_val⟩ := findIndex_some hi
  obtain ⟨htotal, -, hrq⟩ := remove_eq hi
  refine ⟨fun hj => ?_, fun _ => hrq _, fun hj heq => ?_, fun hj hj' heq => ?_, fun hj hne => ?_⟩
  · exact moved_lt (htotal ▸ hj)
  · rw [hrq] at heq
    exact moved_ne (htotal ▸ hj) (honce _ (moved_lt (htotal ▸ hj)) heq)
  · exact moved_inj (htotal ▸ hj) (htotal ▸ hj') heq
  · rw [htotal]
    refine exists_moved hi_lt hj ?_
    rintro rfl
    exact hne hi_val

/-! ## Dispatch -/

/-- The fold of `sys_fork`'s search keeps an index below the bound. -/
theorem leastLoaded_lt (b : Boot) (cpus : Nat → CpuInfo) : leastLoaded b cpus < b.ncpu := by
  have key : ∀ (l : List Nat) (acc : Nat × Nat), acc.2 < b.ncpu →
      (∀ i ∈ l, i < b.ncpu) →
      (l.foldl (fun acc i => if (cpus i).cpuRq.total < acc.1 then ((cpus i).cpuRq.total, i)
        else acc) acc).2 < b.ncpu := by
    intro l
    induction l with
    | nil => exact fun acc hacc _ => hacc
    | cons i l ih =>
        intro acc hacc hl
        rw [List.foldl_cons]
        refine ih _ ?_ fun j hj => hl j (List.mem_cons_of_mem i hj)
        split
        · exact hl i List.mem_cons_self
        · exact hacc
  exact key _ _ (Nat.lt_of_le_of_lt (Nat.zero_le _) b.bootcpu_lt) fun i hi => List.mem_range.mp hi

theorem findFree_some {tasks : Nat → Task D} {pid : Nat} (h : findFree tasks = some pid) :
    pid < nrTasks ∧ (tasks pid).state = .free := by
  have hmem := List.mem_of_find?_eq_some h
  have hval := List.find?_some h
  exact ⟨List.mem_range.mp hmem, by simpa using hval⟩

/-- A pid as a system call's result. -/
theorem ofNat_pid {q : Nat} (h : q < nrTasks) :
    BitVec.ofNat 32 q ≠ -1 ∧ (BitVec.ofNat 32 q).toNat = q := by
  have hlt : q < 32 := h
  refine ⟨fun heq => ?_, ?_⟩
  · have := congrArg BitVec.toNat heq
    simp at this
    omega
  · simp
    omega

/-! ## The invariant -/

/-- What holds of the run queues in every reachable state. -/
structure QueueInv (b : Boot) (k : Kernel M D) : Prop where
  total_pos : ∀ c, c < b.ncpu → 0 < (k.cpus c).cpuRq.total
  pid_lt : ∀ c i, c < b.ncpu → i < (k.cpus c).cpuRq.total →
    (k.cpus c).cpuRq.runQueue i < nrTasks
  /-- No pid stands twice, in one queue or in two. -/
  inj : ∀ c c' i j, c < b.ncpu → c' < b.ncpu → i < (k.cpus c).cpuRq.total →
    j < (k.cpus c').cpuRq.total →
    (k.cpus c).cpuRq.runQueue i = (k.cpus c').cpuRq.runQueue j → c = c' ∧ i = j
  /-- The queues hold exactly the pids that are not free. -/
  live : ∀ p, p < nrTasks → ((k.tasks p).state ≠ .free ↔
    ∃ c i, c < b.ncpu ∧ i < (k.cpus c).cpuRq.total ∧ (k.cpus c).cpuRq.runQueue i = p)
  taskId : ∀ p, p < nrTasks → (k.tasks p).state ≠ .free → (k.tasks p).taskId = p
  /-- `cpu_task` is the entry at `current_index`. -/
  current : ∀ c p, c < b.ncpu → (k.cpus c).cpuTask = some p →
    (k.cpus c).cpuRq.currentIndex < (k.cpus c).cpuRq.total ∧
      (k.cpus c).cpuRq.runQueue (k.cpus c).cpuRq.currentIndex = p
  /-- Nothing but `cpu_task` is running. -/
  running : ∀ c i, c < b.ncpu → i < (k.cpus c).cpuRq.total →
    (k.tasks ((k.cpus c).cpuRq.runQueue i)).state = .running →
    (k.cpus c).cpuTask = some ((k.cpus c).cpuRq.runQueue i)

namespace QueueInv

variable {b : Boot} {k k' : Kernel M D} {c p : Nat}

/-- The current task of a CPU is a live pid. -/
theorem current_live (h : QueueInv b k) (hc : c < b.ncpu)
    (hp : (k.cpus c).cpuTask = some p) : p < nrTasks ∧ (k.tasks p).state ≠ .free := by
  obtain ⟨hlt, hval⟩ := h.current c p hc hp
  have hp_lt : p < nrTasks := hval ▸ h.pid_lt c _ hc hlt
  exact ⟨hp_lt, (h.live p hp_lt).mpr ⟨c, _, hc, hlt, hval⟩⟩

theorem current_taskId (h : QueueInv b k) (hc : c < b.ncpu)
    (hp : (k.cpus c).cpuTask = some p) : (k.tasks p).taskId = p :=
  have hlive := h.current_live hc hp
  h.taskId p hlive.1 hlive.2

/-- The invariant speaks about the queues themselves only through `total` and
`runQueue`; a step that leaves these alone has two clauses to check. -/
theorem sameQueues (h : QueueInv b k)
    (htotal : ∀ c, (k'.cpus c).cpuRq.total = (k.cpus c).cpuRq.total)
    (hrq : ∀ c, (k'.cpus c).cpuRq.runQueue = (k.cpus c).cpuRq.runQueue)
    (hfree : ∀ p, (k'.tasks p).state = .free ↔ (k.tasks p).state = .free)
    (hid : ∀ p, (k'.tasks p).taskId = (k.tasks p).taskId)
    (hcur : ∀ c p, c < b.ncpu → (k'.cpus c).cpuTask = some p →
      (k'.cpus c).cpuRq.currentIndex < (k.cpus c).cpuRq.total ∧
        (k.cpus c).cpuRq.runQueue (k'.cpus c).cpuRq.currentIndex = p)
    (hrun : ∀ c i, c < b.ncpu → i < (k.cpus c).cpuRq.total →
      (k'.tasks ((k.cpus c).cpuRq.runQueue i)).state = .running →
      (k'.cpus c).cpuTask = some ((k.cpus c).cpuRq.runQueue i)) : QueueInv b k' where
  total_pos c hc := by
    rw [htotal]
    exact h.total_pos c hc
  pid_lt c i hc hi := by
    rw [hrq]
    exact h.pid_lt c i hc (htotal c ▸ hi)
  inj c c' i j hc hc' hi hj he := by
    rw [hrq, hrq] at he
    exact h.inj c c' i j hc hc' (htotal c ▸ hi) (htotal c' ▸ hj) he
  live p hp := by
    rw [ne_eq, hfree, ← ne_eq, h.live p hp]
    simp only [htotal, hrq]
  taskId p hp hs := by
    rw [hid]
    exact h.taskId p hp fun hf => hs ((hfree p).mpr hf)
  current c p hc hp := by
    rw [htotal, hrq]
    exact hcur c p hc hp
  running c i hc hi hs := by
    rw [hrq] at hs ⊢
    exact hrun c i hc (htotal c ▸ hi) hs

/-- Rewriting task records without freeing, creating or starting a task. -/
theorem retask (h : QueueInv b k) (hcpus : k'.cpus = k.cpus)
    (hfree : ∀ p, (k'.tasks p).state = .free ↔ (k.tasks p).state = .free)
    (hid : ∀ p, (k'.tasks p).taskId = (k.tasks p).taskId)
    (hrun : ∀ p, (k'.tasks p).state = .running → (k.tasks p).state = .running) :
    QueueInv b k' := by
  refine h.sameQueues (fun c => by rw [hcpus]) (fun c => by rw [hcpus]) hfree hid ?_ ?_
  · intro c p hc hp
    rw [hcpus] at hp ⊢
    exact h.current c p hc hp
  · intro c i hc hi hs
    rw [hcpus]
    exact h.running c i hc hi (hrun _ hs)

theorem congr (h : QueueInv b k) (hs : SameSched k k') : QueueInv b k' := by
  refine h.retask hs.cpus.symm (fun p => ?_) (fun p => (hs.taskId p).symm) fun p hp => ?_
  · rw [hs.state p]
  · rwa [hs.state p]

theorem setJiffies (h : QueueInv b k) : QueueInv b { k with jiffies := k.jiffies + 1 } :=
  h.congr (SameSched.setJiffies k _)

/-! ### `sched_yield` -/

/-- `sched_yield` on a CPU none of whose tasks is running. -/
theorem schedYield (h : QueueInv b k) (hc : c < b.ncpu)
    (hidle : ∀ i, i < (k.cpus c).cpuRq.total →
      (k.tasks ((k.cpus c).cpuRq.runQueue i)).state ≠ .running) :
    QueueInv b (schedYield k c).2 := by
  unfold Nctuos.schedYield
  cases hpick : pick (fun p => (k.tasks p).state) (k.cpus c) with
  | none => exact h
  | some idx =>
      obtain ⟨hidx, hrunnable⟩ := pick_some (h.total_pos c hc) hpick
      simp only
      have hcpu : ∀ c', c' ≠ c → ∀ f, ((k.modTask ((k.cpus c).cpuRq.runQueue idx)
          fun t => { t with state := .running, remindTicks := timeQuant }).modCpu c f).cpus c'
            = k.cpus c' := fun c' hne f => Kernel.modCpu_other _ f hne
      refine h.sameQueues (fun c' => ?_) (fun c' => ?_) (fun q => ?_) (fun q => ?_) ?_ ?_
      · by_cases hcc : c' = c
        · subst hcc; simp
        · rw [hcpu c' hcc]
      · by_cases hcc : c' = c
        · subst hcc; simp
        · rw [hcpu c' hcc]
      · by_cases hq : q = (k.cpus c).cpuRq.runQueue idx
        · subst hq
          simp [hrunnable]
        · simp [Kernel.modTask_other _ _ hq]
      · by_cases hq : q = (k.cpus c).cpuRq.runQueue idx
        · subst hq; simp
        · simp [Kernel.modTask_other _ _ hq]
      · intro c' q hc' hq
        by_cases hcc : c' = c
        · subst hcc
          simp only [Kernel.modCpu_same, Option.some.injEq] at hq ⊢
          exact ⟨hidx, hq⟩
        · rw [hcpu c' hcc] at hq ⊢
          exact h.current c' q hc' hq
      · intro c' i hc' hi hs
        by_cases hq : (k.cpus c').cpuRq.runQueue i = (k.cpus c).cpuRq.runQueue idx
        · obtain ⟨rfl, rfl⟩ := h.inj c' c i idx hc' hc hi hidx hq
          simp
        · rw [Kernel.modCpu_tasks, Kernel.modTask_other _ _ hq] at hs
          -- a running task elsewhere was running before, so it is another CPU's
          by_cases hcc : c' = c
          · subst hcc
            exact absurd hs (hidle i hi)
          · rw [hcpu c' hcc]
            exact h.running c' i hc' hi hs

/-! ### `SYS_sleep` -/

section Retire

variable (h : QueueInv b k) (hc : c < b.ncpu) (hp : (k.cpus c).cpuTask = some p)
  {f : Task D → Task D} {s : TaskState}

include h hc hp

/-- The current task gives up its CPU, -/
theorem retire (hid : ∀ t, (f t).taskId = t.taskId) (hstate : ∀ t, (f t).state = s)
    (hs : s ≠ .free ∧ s ≠ .running) : QueueInv b (k.modTask p f) := by
  have hlive := (h.current_live hc hp).2
  refine h.retask rfl (fun q => ?_) (fun q => ?_) fun q hq => ?_ <;> by_cases hqp : q = p
  · simp [hqp, hstate, hs.1, hlive]
  · rw [Kernel.modTask_other _ _ hqp]
  · rw [hqp, Kernel.modTask_same, hid]
  · rw [Kernel.modTask_other _ _ hqp]
  · rw [hqp, Kernel.modTask_same, hstate] at hq
    exact absurd hq hs.2
  · rwa [Kernel.modTask_other _ _ hqp] at hq

/-- where nothing is running then. -/
theorem idle_of_retire (hstate : ∀ t, (f t).state = s) (hs : s ≠ .running) :
    ∀ i, i < (k.cpus c).cpuRq.total →
      ((k.modTask p f).tasks ((k.cpus c).cpuRq.runQueue i)).state ≠ .running := by
  intro i hi hrun
  by_cases hq : (k.cpus c).cpuRq.runQueue i = p
  · rw [hq, Kernel.modTask_same, hstate] at hrun
    exact hs hrun
  · rw [Kernel.modTask_other _ _ hq] at hrun
    have := h.running c i hc hi hrun
    rw [hp, Option.some.injEq] at this
    exact hq this.symm

theorem asleep (n : BitVec 32) : QueueInv b (asleep k p n) :=
  h.retire hc hp (fun _ => rfl) (fun _ => rfl) (by decide)

theorem sleep (n : BitVec 32) : QueueInv b (Nctuos.schedYield (Nctuos.asleep k p n) c).2 :=
  (h.asleep hc hp n).schedYield hc (h.idle_of_retire hc hp (fun _ => rfl) (by decide))

theorem preempted : QueueInv b (k.modTask p fun t => { t with state := .runnable }) :=
  h.retire hc hp (fun _ => rfl) (fun _ => rfl) (by decide)

end Retire

/-! ### The timer -/

/-- The sleeper loop relates every task to its old self by any relation that one turn
extends. -/
theorem tickSleepers_rel {P : Task D → Task D → Prop} (refl : ∀ t, P t t)
    (step : ∀ t t', P t t' → P t (tickSleeper t')) (tasks : Nat → Task D) (rq : Runqueue) :
    ∀ q, P (tasks q) (tickSleepers tasks rq q) := by
  have key : ∀ (l : List Nat) (ts : Nat → Task D), (∀ q, P (tasks q) (ts q)) → ∀ q,
      P (tasks q) (l.foldl (fun ts i =>
        Function.update ts (rq.runQueue i) (tickSleeper (ts (rq.runQueue i)))) ts q) := by
    intro l
    induction l with
    | nil => exact fun ts hts => hts
    | cons i l ih =>
        intro ts hts
        refine ih _ fun q => ?_
        by_cases hq : q = rq.runQueue i
        · subst hq
          simpa using step _ _ (hts _)
        · simpa [hq] using hts q
  exact key _ tasks fun q => refl _

/-- The timer's bookkeeping changes a state only from sleeping to runnable. -/
theorem tickAll_task (k : Kernel M D) (c p q : Nat) :
    ((tickAll k c p).tasks q).taskId = (k.tasks q).taskId ∧
      (((tickAll k c p).tasks q).state = (k.tasks q).state ∨
        (k.tasks q).state = .sleep ∧ ((tickAll k c p).tasks q).state = .runnable) := by
  have hrel := tickSleepers_rel
    (P := fun t t' => t'.taskId = t.taskId ∧
      (t'.state = t.state ∨ t.state = .sleep ∧ t'.state = .runnable))
    (fun t => ⟨rfl, Or.inl rfl⟩) ?_ k.tasks (k.cpus c).cpuRq q
  · by_cases hq : q = p
    · subst hq
      simpa [tickAll] using hrel
    · simpa [tickAll, Kernel.modTask_other _ _ hq] using hrel
  · rintro t t' ⟨hid, hs⟩
    unfold tickSleeper
    split
    · rename_i hsleep
      rcases hs with hs | ⟨-, hs⟩
      · refine ⟨hid, ?_⟩
        simp only
        split
        · exact Or.inr ⟨hs ▸ hsleep, rfl⟩
        · exact Or.inl (hs ▸ hsleep).symm
      · rw [hs] at hsleep
        cases hsleep
    · exact ⟨hid, hs⟩

theorem tickAll (h : QueueInv b k) (c p : Nat) : QueueInv b (tickAll k c p) := by
  refine h.retask rfl (fun q => ?_) (fun q => (tickAll_task k c p q).1) fun q hq => ?_
  · rcases (tickAll_task k c p q).2 with hs | ⟨hs, hs'⟩
    · rw [hs]
    · simp [hs, hs']
  · rcases (tickAll_task k c p q).2 with hs | ⟨-, hs'⟩
    · rwa [← hs]
    · rw [hq] at hs'
      cases hs'

theorem timer (h : QueueInv b k) (hc : c < b.ncpu) (hp : (k.cpus c).cpuTask = some p) :
    QueueInv b (timerHandler k c).2 := by
  simp only [timerHandler, hp]
  have h₁ := h.setJiffies.tickAll c p
  split
  · exact (h₁.preempted hc hp).schedYield hc (h₁.idle_of_retire hc hp (fun _ => rfl) (by decide))
  · exact h₁

/-! ### `sys_kill` -/

/-- Whatever a task is removed from, nothing is in two places afterwards. -/
theorem inj_of_without (h : QueueInv b k)
    (hw : ∀ c, c < b.ncpu → ∃ old, (k.cpus c).cpuRq.Without (k'.cpus c).cpuRq p old)
    {c₁ c₂ j₁ j₂ : Nat} (hc₁ : c₁ < b.ncpu) (hc₂ : c₂ < b.ncpu)
    (hj₁ : j₁ < (k'.cpus c₁).cpuRq.total) (hj₂ : j₂ < (k'.cpus c₂).cpuRq.total)
    (heq : (k'.cpus c₁).cpuRq.runQueue j₁ = (k'.cpus c₂).cpuRq.runQueue j₂) :
    c₁ = c₂ ∧ j₁ = j₂ := by
  obtain ⟨old₁, hw₁⟩ := hw c₁ hc₁
  have hcc : c₁ = c₂ := by
    obtain ⟨old₂, hw₂⟩ := hw c₂ hc₂
    rw [hw₁.entry hj₁, hw₂.entry hj₂] at heq
    exact (h.inj c₁ c₂ _ _ hc₁ hc₂ (hw₁.lt hj₁) (hw₂.lt hj₂) heq).1
  subst hcc
  rw [hw₁.entry hj₁, hw₁.entry hj₂] at heq
  exact ⟨rfl, hw₁.inj hj₁ hj₂ (h.inj c₁ c₁ _ _ hc₁ hc₁ (hw₁.lt hj₁) (hw₁.lt hj₂) heq).2⟩

section Killed

variable (h : QueueInv b k) (hc : c < b.ncpu) (hp : (k.cpus c).cpuTask = some p)

include h hc hp

/-- Every queue is the old one without the killed task, which is in the queue of its CPU only. -/
theorem without_killed {c' : Nat} (hc' : c' < b.ncpu) :
    ∃ old, (k.cpus c').cpuRq.Without ((killed k c p).cpus c').cpuRq p old := by
  obtain ⟨hcur, hval⟩ := h.current c p hc hp
  by_cases hcc : c' = c
  · subst hcc
    obtain ⟨i, hi⟩ := exists_findIndex hcur hval
    obtain ⟨hi_lt, hi_val⟩ := findIndex_some hi
    rw [killed_cpus_same]
    refine ⟨_, Runqueue.without_remove hi fun j hj hjp => ?_⟩
    exact (h.inj c' c' j i hc hc hj hi_lt (hjp.trans hi_val.symm)).2
  · rw [killed_cpus_other k p hcc]
    refine ⟨_, .self fun j hj hjp => hcc ?_⟩
    exact (h.inj c' c j _ hc' hc hj hcur (hjp.trans hval.symm)).1

theorem killed_total_pos (htotal : 1 < (k.cpus c).cpuRq.total) {c' : Nat} (hc' : c' < b.ncpu) :
    0 < ((Nctuos.killed k c p).cpus c').cpuRq.total := by
  by_cases hcc : c' = c
  · subst hcc
    obtain ⟨hcur, hval⟩ := h.current c' p hc hp
    obtain ⟨i, hi⟩ := exists_findIndex hcur hval
    rw [killed_cpus_same, (remove_eq hi).1]
    omega
  · rw [killed_cpus_other k p hcc]
    exact h.total_pos c' hc'

theorem killed_live {q : Nat} (hq : q < nrTasks) : ((Nctuos.killed k c p).tasks q).state ≠ .free ↔
      ∃ c' j, c' < b.ncpu ∧ j < ((Nctuos.killed k c p).cpus c').cpuRq.total ∧
        ((Nctuos.killed k c p).cpus c').cpuRq.runQueue j = q := by
  by_cases hqp : q = p
  · subst hqp
    rw [killed_tasks_same]
    refine iff_of_false (fun hne => hne rfl) ?_
    rintro ⟨c', j, hc', hj, hjq⟩
    obtain ⟨old, hw⟩ := h.without_killed hc hp hc'
    exact hw.ne hj hjq
  · rw [killed_tasks_other k c hqp, h.live q hq]
    constructor
    · rintro ⟨c', j, hc', hj, hjq⟩
      obtain ⟨old, hw⟩ := h.without_killed hc hp hc'
      obtain ⟨j', hj', rfl⟩ := hw.onto hj (hjq ▸ hqp)
      exact ⟨c', j', hc', hj', (hw.entry hj').trans hjq⟩
    · rintro ⟨c', j, hc', hj, hjq⟩
      obtain ⟨old, hw⟩ := h.without_killed hc hp hc'
      exact ⟨c', old j, hc', hw.lt hj, (hw.entry hj).symm.trans hjq⟩

theorem killed_running {c' j : Nat} (hc' : c' < b.ncpu) (hj : j < ((Nctuos.killed k c p).cpus c').cpuRq.total)
    (hs : ((Nctuos.killed k c p).tasks
      (((Nctuos.killed k c p).cpus c').cpuRq.runQueue j)).state = .running) :
    ((Nctuos.killed k c p).cpus c').cpuTask =
      some (((Nctuos.killed k c p).cpus c').cpuRq.runQueue j) := by
  obtain ⟨old, hw⟩ := h.without_killed hc hp hc'
  have hne := hw.ne hj
  rw [killed_tasks_other k c hne, hw.entry hj] at hs
  have hrun := h.running c' (old j) hc' (hw.lt hj) hs
  rw [← hw.entry hj] at hrun
  by_cases hcc : c' = c
  · subst hcc
    rw [hp, Option.some.injEq] at hrun
    exact absurd hrun.symm hne
  · rw [killed_cpus_other k p hcc] at hrun ⊢
    exact hrun

/-- Removing the current task from its CPU.  The stale `current_index` does no harm:
`cpu_task` is NULL until the next `sched_yield`. -/
theorem killed (htotal : 1 < (k.cpus c).cpuRq.total) : QueueInv b (killed k c p) where
  total_pos _ hc' := h.killed_total_pos hc hp htotal hc'
  pid_lt c' j hc' hj := by
    obtain ⟨old, hw⟩ := h.without_killed hc hp hc'
    rw [hw.entry hj]
    exact h.pid_lt c' _ hc' (hw.lt hj)
  inj _ _ _ _ hc₁ hc₂ hj₁ hj₂ heq :=
    h.inj_of_without (fun _ hc' => h.without_killed hc hp hc') hc₁ hc₂ hj₁ hj₂ heq
  live _ hq := h.killed_live hc hp hq
  taskId q hq hs := by
    have hqp : q ≠ p := by
      rintro rfl
      rw [killed_tasks_same] at hs
      exact hs rfl
    rw [killed_tasks_other k c hqp] at hs ⊢
    exact h.taskId q hq hs
  current c' q hc' hq := by
    by_cases hcc : c' = c
    · subst hcc
      rw [killed_cpus_same] at hq
      cases hq
    · rw [killed_cpus_other k p hcc] at hq ⊢
      exact h.current c' q hc' hq
  running _ _ hc' hj hs := h.killed_running hc hp hc' hj hs

/-- After the removal the old queue's running task is gone, so `sched_yield` may pick. -/
theorem kill (htotal : 1 < (k.cpus c).cpuRq.total) :
    QueueInv b (Nctuos.schedYield (Nctuos.killed k c p) c).2 := by
  have hk := h.killed hc hp htotal
  refine hk.schedYield hc fun i hi hs => ?_
  have hcur := hk.running c i hc hi hs
  simp at hcur

end Killed

/-! ### `sys_fork` -/

section Forked

variable {pid : Nat}

theorem forked_total (b : Boot) (k : Kernel M D) (pid c : Nat) :
    (k.cpus c).cpuRq.total ≤ ((Nctuos.forked b k pid).cpus c).cpuRq.total := by
  by_cases hcc : c = leastLoaded b k.cpus
  · simp [hcc, forked_cpus_same, Runqueue.append]
  · rw [forked_cpus_other b k pid hcc]

/-- No old entry is overwritten. -/
theorem forked_runQueue (b : Boot) (pid : Nat) {i : Nat} (hi : i < (k.cpus c).cpuRq.total) :
    ((Nctuos.forked b k pid).cpus c).cpuRq.runQueue i = (k.cpus c).cpuRq.runQueue i := by
  by_cases hcc : c = leastLoaded b k.cpus
  · subst hcc
    simp [forked_cpus_same, Runqueue.append, Function.update_of_ne (Nat.ne_of_lt hi)]
  · rw [forked_cpus_other b k pid hcc]

/-- And the only new one holds the new pid. -/
theorem forked_entry {i : Nat} (hi : i < ((Nctuos.forked b k pid).cpus c).cpuRq.total) :
    i < (k.cpus c).cpuRq.total ∨ c = leastLoaded b k.cpus ∧ i = (k.cpus c).cpuRq.total ∧
      ((Nctuos.forked b k pid).cpus c).cpuRq.runQueue i = pid := by
  by_cases hcc : c = leastLoaded b k.cpus
  · by_cases hlast : i = (k.cpus c).cpuRq.total
    · subst hcc
      exact Or.inr ⟨rfl, hlast, by simp [forked_cpus_same, Runqueue.append, hlast]⟩
    · rw [hcc, forked_cpus_same, ← hcc] at hi
      simp only [Runqueue.append] at hi
      exact Or.inl (by omega)
  · rw [forked_cpus_other b k pid hcc] at hi
    exact Or.inl hi

theorem forked_current (b : Boot) (k : Kernel M D) (pid c : Nat) :
    ((Nctuos.forked b k pid).cpus c).cpuTask = (k.cpus c).cpuTask ∧
      ((Nctuos.forked b k pid).cpus c).cpuRq.currentIndex = (k.cpus c).cpuRq.currentIndex := by
  by_cases hcc : c = leastLoaded b k.cpus
  · simp [hcc, forked_cpus_same, Runqueue.append]
  · rw [forked_cpus_other b k pid hcc]
    exact ⟨rfl, rfl⟩

/-- A free pid is in no queue. -/
theorem ne_of_findFree (h : QueueInv b k) (hpid : findFree k.tasks = some pid) {i : Nat}
    (hc : c < b.ncpu) (hi : i < (k.cpus c).cpuRq.total) : (k.cpus c).cpuRq.runQueue i ≠ pid := by
  obtain ⟨hlt, hfree⟩ := findFree_some hpid
  exact fun heq => (h.live pid hlt).mpr ⟨c, i, hc, hi, heq⟩ hfree

theorem forked_inj (h : QueueInv b k) (hpid : findFree k.tasks = some pid) {c₁ c₂ j₁ j₂ : Nat}
    (hc₁ : c₁ < b.ncpu) (hc₂ : c₂ < b.ncpu)
    (hj₁ : j₁ < ((Nctuos.forked b k pid).cpus c₁).cpuRq.total)
    (hj₂ : j₂ < ((Nctuos.forked b k pid).cpus c₂).cpuRq.total)
    (heq : ((Nctuos.forked b k pid).cpus c₁).cpuRq.runQueue j₁ =
      ((Nctuos.forked b k pid).cpus c₂).cpuRq.runQueue j₂) : c₁ = c₂ ∧ j₁ = j₂ := by
  rcases forked_entry hj₁ with hj₁ | ⟨rfl, hlast₁, heq₁⟩ <;>
    rcases forked_entry hj₂ with hj₂ | ⟨rfl, hlast₂, heq₂⟩
  · rw [forked_runQueue b pid hj₁, forked_runQueue b pid hj₂] at heq
    exact h.inj c₁ c₂ j₁ j₂ hc₁ hc₂ hj₁ hj₂ heq
  · rw [forked_runQueue b pid hj₁, heq₂] at heq
    exact absurd heq (h.ne_of_findFree hpid hc₁ hj₁)
  · rw [forked_runQueue b pid hj₂, heq₁] at heq
    exact absurd heq.symm (h.ne_of_findFree hpid hc₂ hj₂)
  · exact ⟨rfl, hlast₁.trans hlast₂.symm⟩

theorem forked_live (h : QueueInv b k) (pid : Nat) {q : Nat} (hq : q < nrTasks) :
    ((Nctuos.forked b k pid).tasks q).state ≠ .free ↔
      ∃ c j, c < b.ncpu ∧ j < ((Nctuos.forked b k pid).cpus c).cpuRq.total ∧
        ((Nctuos.forked b k pid).cpus c).cpuRq.runQueue j = q := by
  by_cases hqp : q = pid
  · subst hqp
    refine iff_of_true (by simp) ?_
    refine ⟨leastLoaded b k.cpus, (k.cpus (leastLoaded b k.cpus)).cpuRq.total,
      leastLoaded_lt b k.cpus, ?_, ?_⟩
    · simp [forked_cpus_same, Runqueue.append]
    · simp [forked_cpus_same, Runqueue.append]
  · rw [forked_tasks_other b k hqp, h.live q hq]
    constructor
    · rintro ⟨c, j, hc, hj, hjq⟩
      exact ⟨c, j, hc, Nat.lt_of_lt_of_le hj (forked_total b k pid c),
        (forked_runQueue b pid hj).trans hjq⟩
    · rintro ⟨c, j, hc, hj, hjq⟩
      rcases forked_entry hj with hj | ⟨-, -, heq⟩
      · exact ⟨c, j, hc, hj, (forked_runQueue b pid hj).symm.trans hjq⟩
      · exact absurd (hjq.symm.trans heq) hqp

theorem forked_running (h : QueueInv b k) (hpid : findFree k.tasks = some pid) {i : Nat}
    (hc : c < b.ncpu) (hi : i < ((Nctuos.forked b k pid).cpus c).cpuRq.total)
    (hs : ((Nctuos.forked b k pid).tasks
      (((Nctuos.forked b k pid).cpus c).cpuRq.runQueue i)).state = .running) :
    ((Nctuos.forked b k pid).cpus c).cpuTask =
      some (((Nctuos.forked b k pid).cpus c).cpuRq.runQueue i) := by
  rcases forked_entry hi with hi | ⟨-, -, heq⟩
  · rw [forked_runQueue b pid hi] at hs ⊢
    rw [forked_tasks_other b k (h.ne_of_findFree hpid hc hi)] at hs
    rw [(forked_current b k pid c).1]
    exact h.running c i hc hi hs
  · rw [heq, forked_tasks_same] at hs
    cases hs

/-- Dispatching a new pid appends it to one queue. -/
theorem forked (h : QueueInv b k) (hpid : findFree k.tasks = some pid) :
    QueueInv b (forked b k pid) where
  total_pos c hc := Nat.lt_of_lt_of_le (h.total_pos c hc) (forked_total b k pid c)
  pid_lt c i hc hi := by
    rcases forked_entry hi with hi | ⟨-, -, heq⟩
    · rw [forked_runQueue b pid hi]
      exact h.pid_lt c i hc hi
    · rw [heq]
      exact (findFree_some hpid).1
  inj _ _ _ _ hc₁ hc₂ hj₁ hj₂ heq := h.forked_inj hpid hc₁ hc₂ hj₁ hj₂ heq
  live _ hq := h.forked_live pid hq
  taskId q hq hs := by
    by_cases hqp : q = pid
    · subst hqp
      simp
    · rw [forked_tasks_other b k hqp] at hs ⊢
      exact h.taskId q hq hs
  current c q hc hq := by
    obtain ⟨hcur, hidx⟩ := forked_current b k pid c
    rw [hcur] at hq
    obtain ⟨hlt, hval⟩ := h.current c q hc hq
    rw [hidx]
    exact ⟨Nat.lt_of_lt_of_le hlt (forked_total b k pid c), (forked_runQueue b pid hlt).trans hval⟩
  running _ _ hc hi hs := h.forked_running hpid hc hi hs

end Forked

/-! ### Steps -/

/-- One kernel entry keeps the invariant, whatever the entry. -/
theorem effect {q : Nat} {call : Call} (h : QueueInv b k) (hc : c < b.ncpu)
    (hp : (k.cpus c).cpuTask = some p) (he : Effect b k c p q k' call) : QueueInv b k' := by
  cases call with
  | fork =>
      rcases he.2 with hs | ⟨pid, hfree, hs⟩
      · exact h.congr hs
      · exact (h.forked hfree).congr hs
  | sleep n => exact (h.sleep hc hp n).congr he.2
  | kill =>
      rcases he with ⟨hacts, -, hs⟩ | ⟨-, -, hs⟩
      · rw [h.current_taskId hc hp] at hs hacts
        exact (h.kill hc hp hacts.2.2).congr hs
      · exact h.congr hs
  | timer => exact (h.timer hc hp).congr he.2
  | other => exact h.congr he.2

theorem step {vm : Vm M D} {e : Entry} (h : QueueInv b k) (hs : Step vm b k e k') :
    QueueInv b k' := by
  obtain ⟨hc, p, hp, he⟩ := step_effect hs
  exact h.effect hc hp he

end QueueInv

end Nctuos
