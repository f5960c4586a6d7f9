import Nctuos.MemStep
import Nctuos.Selection
import Mathlib.Algebra.BigOperators.Group.Finset.Sigma
import Mathlib.Algebra.BigOperators.Group.Finset.Piecewise

/-!
# Load balance

`sys_fork` appends its child to the shortest run queue.  The search starts from the sentinel
`NR_TASKS` and falls back to CPU 0 when no queue is shorter than that; while there is a free
slot for the child, some queue is (`QueueInv.total_lt`), so the CPU found really has the least
load (`leastLoaded_le`).

As long as nobody is killed, nothing else changes the length of a queue.  From one entry per
CPU at boot on, two queues therefore never differ by more than one entry (`Balanced`), and
their lengths add up to the number of CPUs and of forks that returned a pid.
-/

namespace Nctuos

open Lib

variable {M D : Type}

/-! ## The shortest queue -/

/-- The search of `sys_fork`: what it ends with is no more than any queue it has seen, and is
the length of a queue unless it is what it started with. -/
theorem foldl_least (total : Nat → Nat) (l : List Nat) (acc : Nat × Nat) :
    let r := l.foldl (fun acc i => if total i < acc.1 then (total i, i) else acc) acc
    r.1 ≤ acc.1 ∧ (∀ i ∈ l, r.1 ≤ total i) ∧ (r = acc ∨ total r.2 = r.1) := by
  induction l generalizing acc with
  | nil => exact ⟨Nat.le_refl _, nofun, Or.inl rfl⟩
  | cons i l ih =>
      simp only [List.foldl_cons, List.forall_mem_cons]
      split
      · rename_i hlt
        obtain ⟨hle, hl, hr⟩ := ih (total i, i)
        refine ⟨Nat.le_trans hle (Nat.le_of_lt hlt), ⟨hle, hl⟩, Or.inr ?_⟩
        rcases hr with hr | hr
        · rw [hr]
        · exact hr
      · rename_i hlt
        obtain ⟨hle, hl, hr⟩ := ih acc
        exact ⟨hle, ⟨Nat.le_trans hle (Nat.le_of_not_lt hlt), hl⟩, hr⟩

/-- The CPU `sys_fork` dispatches to has the least load, if any queue is shorter than
`NR_TASKS`. -/
theorem leastLoaded_le {b : Boot} {cpus : Nat → CpuInfo} {c₀ : Nat} (hc₀ : c₀ < b.ncpu)
    (hroom : (cpus c₀).cpuRq.total < nrTasks) :
    ∀ c, c < b.ncpu → (cpus (leastLoaded b cpus)).cpuRq.total ≤ (cpus c).cpuRq.total := by
  obtain ⟨-, hmin, heq⟩ :=
    foldl_least (fun i => (cpus i).cpuRq.total) (List.range b.ncpu) (nrTasks, 0)
  rcases heq with heq | heq
  · -- the sentinel is left only if no queue is shorter
    have hle := hmin c₀ (List.mem_range.mpr hc₀)
    rw [heq] at hle
    exact absurd hroom (Nat.not_lt.mpr hle)
  · intro c hc
    exact Nat.le_trans (Nat.le_of_eq heq) (hmin c (List.mem_range.mpr hc))

/-! ## The lengths of the queues, step by step -/

/-- The number of entries in the queue of CPU `c`. -/
def load (k : Kernel M D) (c : Nat) : Nat := (k.cpus c).cpuRq.total

/-- This entry is a fork that returned a pid. -/
def ForkSucceeds (e : Entry) : Prop := callOf e.tf = .fork ∧ e.resumed.tf.regEax ≠ -1

instance (e : Entry) : Decidable (ForkSucceeds e) := inferInstanceAs (Decidable (_ ∧ _))

section Step

variable {vm : Vm M D} {b : Boot} {k k' : Kernel M D} {e : Entry} {c pid : Nat}

/-- A fork that returns a pid dispatches the slot of that number; one that returns `-1` leaves
the queues alone. -/
theorem step_fork (h : Step vm b k e k') (hcall : callOf e.tf = .fork) :
    (e.resumed.tf.regEax = -1 ∧ k'.cpus = k.cpus) ∨
      ∃ pid, findFree k.tasks = some pid ∧ e.resumed.tf.regEax = BitVec.ofNat 32 pid ∧
        SameSched (forked b k pid) k' := by
  obtain ⟨-, p, hp, -⟩ := step_effect h
  have hmem := step_mem h hp
  rw [hcall] at hmem
  obtain ⟨r, k₁, hfork, -, hafter, hret⟩ := hmem
  have hsave := saveFrame_sched k p e.tf
  rcases sysFork_sched hfork with ⟨rfl, hs⟩ | ⟨pid, rfl, hfree, hs⟩
  · exact Or.inl ⟨hret, ((hsave.trans hs).trans hafter).cpus.symm⟩
  · refine Or.inr ⟨pid, hsave.findFree_congr.trans hfree, hret, ?_⟩
    exact ((hsave.forked_congr b pid).trans hs).trans hafter

theorem schedYield_load (k : Kernel M D) (c c' : Nat) :
    load (schedYield k c).2 c' = load k c' := by
  unfold schedYield
  split
  · rfl
  · by_cases hcc : c' = c
    · subst hcc
      simp [load]
    · simp [load, Kernel.modCpu_other _ _ hcc]

/-- **Where the load comes from.**  An entry in which nobody is killed leaves the load of every
CPU alone, unless it is a fork that returns a pid. -/
theorem step_load (h : QueueInv b k) (hs : Step vm b k e k') (hkill : callOf e.tf ≠ .kill)
    (hfork : ¬ ForkSucceeds e) : ∀ c, load k' c = load k c := by
  intro c
  obtain ⟨hc, p, hp, -⟩ := step_effect hs
  rcases step_yield hs hp with ⟨y, hy, -, hsame⟩ | ⟨-, -, hcpus | ⟨hcall, -⟩⟩
  · obtain ⟨-, -, hcpus | ⟨hcall, -⟩⟩ := yieldState_cases h hc hp hy
    · rw [load, ← hsame.cpus, ← load, schedYield_load, load, hcpus, load]
    · exact absurd hcall hkill
  · rw [load, hcpus, load]
  · rcases step_fork hs hcall with ⟨-, hcpus⟩ | ⟨pid, hfree, hret, -⟩
    · rw [load, hcpus, load]
    · refine absurd ⟨hcall, ?_⟩ hfork
      rw [hret]
      exact (ofNat_pid (findFree_some hfree).1).1

/-- The new task `pid` stands at the end of the queue of a CPU with the least load, and no other
queue has changed. -/
def Dispatched (b : Boot) (k k' : Kernel M D) (pid : Nat) : Prop :=
  ∃ d, d < b.ncpu ∧ (∀ c, c < b.ncpu → load k d ≤ load k c) ∧
    (k'.cpus d).cpuRq = (k.cpus d).cpuRq.append pid ∧
    ∀ c, c ≠ d → (k'.cpus c).cpuRq = (k.cpus c).cpuRq

/-- **Every fork dispatches to the least loaded CPU**, from any state with the invariant. -/
theorem step_dispatched (h : QueueInv b k) (hs : Step vm b k e k') (hfork : ForkSucceeds e) :
    ∃ pid, e.resumed.tf.regEax = BitVec.ofNat 32 pid ∧ (k.tasks pid).state = .free ∧
      Dispatched b k k' pid := by
  rcases step_fork hs hfork.1 with ⟨hret, -⟩ | ⟨pid, hfree, hret, hsame⟩
  · exact absurd hret hfork.2
  · have hlt := leastLoaded_lt b k.cpus
    have hmin := leastLoaded_le hlt (h.total_lt hlt hfree)
    refine ⟨pid, hret, (findFree_some hfree).2, leastLoaded b k.cpus, hlt, hmin, ?_, fun c hc => ?_⟩
    · rw [← hsame.cpus, forked_cpus_same]
    · rw [← hsame.cpus, forked_cpus_other b k pid hc]

end Step

/-! ## Whole runs -/

/-- No two CPUs differ by more than one in their load. -/
def Balanced (b : Boot) (k : Kernel M D) : Prop :=
  ∀ c c', c < b.ncpu → c' < b.ncpu → load k c ≤ load k c' + 1

/-- The number of forks in a history that returned a pid. -/
def forkCount (es : List Entry) : Nat := es.countP fun e => ForkSucceeds e

theorem forkCount_concat (es : List Entry) (e : Entry) :
    forkCount (es ++ [e]) = forkCount es + if ForkSucceeds e then 1 else 0 := by
  simp [forkCount, List.countP_append, List.countP_singleton]

/-- The load of all CPUs together. -/
def totalLoad (b : Boot) (k : Kernel M D) : Nat := ∑ c ∈ Finset.range b.ncpu, load k c

section Runs

variable {vm : Vm M D} {b : Boot} {m : M} {k₀ k k' : Kernel M D} {e : Entry} {es : List Entry}
  {pid : Nat}

namespace Dispatched

theorem load_eq (h : Dispatched b k k' pid) :
    ∃ d, d < b.ncpu ∧ (∀ c, c < b.ncpu → load k d ≤ load k c) ∧
      ∀ c, load k' c = load k c + if c = d then 1 else 0 := by
  obtain ⟨d, hd, hmin, hself, hother⟩ := h
  refine ⟨d, hd, hmin, fun c => ?_⟩
  by_cases hcd : c = d
  · subst hcd
    rw [if_pos rfl, load, hself]
    rfl
  · rw [if_neg hcd, load, hother c hcd]
    rfl

/-- One more entry in a shortest queue. -/
theorem balanced (h : Dispatched b k k' pid) (hb : Balanced b k) : Balanced b k' := by
  obtain ⟨d, hd, hmin, hload⟩ := h.load_eq
  intro c c' hc hc'
  have hle := hb c c' hc hc'
  have hleast := hmin c' hc'
  rw [hload c, hload c']
  by_cases hcd : c = d
  · rw [hcd, if_pos rfl]
    omega
  · rw [if_neg hcd]
    omega

theorem totalLoad (h : Dispatched b k k' pid) : totalLoad b k' = totalLoad b k + 1 := by
  obtain ⟨d, hd, -, hload⟩ := h.load_eq
  unfold Nctuos.totalLoad
  rw [Finset.sum_congr rfl fun c _ => hload c, Finset.sum_add_distrib, Finset.sum_ite_eq',
    if_pos (Finset.mem_range.mpr hd)]

end Dispatched

/-- All queues together hold no more entries than there are pids. -/
theorem QueueInv.totalLoad_le (h : QueueInv b k) : totalLoad b k ≤ nrTasks := by
  have hcard : totalLoad b k =
      ((Finset.range b.ncpu).sigma fun c => Finset.range (load k c)).card := by
    simp [totalLoad, Finset.card_sigma]
  rw [hcard, ← Finset.card_range nrTasks]
  refine Finset.card_le_card_of_injOn (fun x => (k.cpus x.1).cpuRq.runQueue x.2) ?_ ?_
  · rintro ⟨c, i⟩ hx
    simp only [Finset.coe_sigma, Set.mem_sigma_iff, Finset.mem_coe, Finset.mem_range] at hx
    exact Finset.mem_coe.mpr (Finset.mem_range.mpr (h.pid_lt c i hx.1 hx.2))
  · rintro ⟨c, i⟩ hx ⟨c', i'⟩ hx' heq
    simp only [Finset.coe_sigma, Set.mem_sigma_iff, Finset.mem_coe, Finset.mem_range] at hx hx'
    obtain ⟨rfl, rfl⟩ := h.inj c c' i i' hx.1 hx'.1 hx.2 hx'.2 heq
    rfl

/-- At boot every CPU holds its first task. -/
theorem boot_load (hboot : bootAll vm b m = .ok k₀) {c : Nat} (hc : c < b.ncpu) :
    load k₀ c = 1 :=
  ((bootInv_of_bootAll hboot).cpu c (b.mem_order.mpr hc)).2.1

/-- The step relation of the runs below: nobody is killed. -/
def NoKillStep (vm : Vm M D) (b : Boot) (k : Kernel M D) (e : Entry) (k' : Kernel M D) : Prop :=
  Step vm b k e k' ∧ callOf e.tf ≠ .kill

/-- What they keep: the load is even, and it is what the forks have made it. -/
structure LoadInv (b : Boot) (es : List Entry) (k : Kernel M D) : Prop where
  queues : QueueInv b k
  balanced : Balanced b k
  total : totalLoad b k = b.ncpu + forkCount es

theorem LoadInv.boot (hboot : bootAll vm b m = .ok k₀) : LoadInv b [] k₀ where
  queues := boot_queueInv hboot
  balanced c c' hc hc' := by
    rw [boot_load hboot hc, boot_load hboot hc']
    omega
  total := by
    unfold totalLoad
    rw [Finset.sum_congr rfl fun c hc => boot_load hboot (Finset.mem_range.mp hc)]
    simp [forkCount]

theorem LoadInv.step (h : LoadInv b es k) (hs : NoKillStep vm b k e k') :
    LoadInv b (es ++ [e]) k' := by
  by_cases hfork : ForkSucceeds e
  · obtain ⟨pid, -, -, hd⟩ := step_dispatched h.queues hs.1 hfork
    refine ⟨h.queues.step hs.1, hd.balanced h.balanced, ?_⟩
    rw [forkCount_concat, if_pos hfork, hd.totalLoad, h.total]
    omega
  · have hload := step_load h.queues hs.1 hs.2 hfork
    refine ⟨h.queues.step hs.1, fun c c' hc hc' => ?_, ?_⟩
    · rw [hload c, hload c']
      exact h.balanced c c' hc hc'
    · rw [forkCount_concat, if_neg hfork, Nat.add_zero, ← h.total]
      exact Finset.sum_congr rfl fun c _ => hload c

/-- **Load balance.**  In every state reachable from boot without a kill, two CPUs differ by at
most one in their load; the load adds up to one for each CPU and one for each fork that returned
a pid, and is at most `NR_TASKS`; and a fork that returns a pid there dispatches it to a CPU with
the least load. -/
theorem load_balanced_of_run (hboot : bootAll vm b m = .ok k₀)
    (hrun : Run (NoKillStep vm b) k₀ es k) :
    Balanced b k ∧ totalLoad b k = b.ncpu + forkCount es ∧ totalLoad b k ≤ nrTasks ∧
      ∀ e k', Step vm b k e k' → ForkSucceeds e →
        ∃ pid, e.resumed.tf.regEax = BitVec.ofNat 32 pid ∧ (k.tasks pid).state = .free ∧
          Dispatched b k k' pid := by
  have h : LoadInv b es k := hrun.history_invariant (LoadInv.boot hboot)
    fun _ _ _ _ _ h hs => h.step hs
  exact ⟨h.balanced, h.total, h.queues.totalLoad_le,
    fun e k' hs hfork => step_dispatched h.queues hs hfork⟩

end Runs

/-- Two CPUs and three forks by the shell: the children go to CPU 0, CPU 1 and CPU 0. -/
theorem load_balanced_three_forks :
    ∃ (k₀ k : Kernel Unit Unit) (es : List Entry),
      bootAll .unlimited (.small true) () = .ok k₀ ∧
      Run (NoKillStep .unlimited (.small true)) k₀ es k ∧ forkCount es = 3 ∧
      load k 0 = 3 ∧ load k 1 = 2 ∧ Balanced (.small true) k ∧ totalLoad (.small true) k = 2 + 3 := by
  obtain ⟨k₀, es, k, hboot, hrun, hcheck⟩ := exists_run_of_plays
    (show plays .unlimited (.small true) () (fun _ _ e => decide (callOf e.tf ≠ .kill))
      [(0, syscallFrame 4 0), (0, syscallFrame 4 0), (0, syscallFrame 4 0)]
      (fun _ es k => decide (forkCount es = 3 ∧ load k 0 = 3 ∧ load k 1 = 2)) = true by
        decide +kernel)
  obtain ⟨hforks, h₀, h₁⟩ := of_decide_eq_true hcheck
  have hrun' : Run (NoKillStep .unlimited (.small true)) k₀ es k :=
    hrun.mono fun k e k' h => ⟨h.1, of_decide_eq_true h.2⟩
  obtain ⟨hbalanced, htotal, -⟩ := load_balanced_of_run hboot hrun'
  exact ⟨k₀, k, es, hboot, hrun', hforks, h₀, h₁, hbalanced, hforks ▸ htotal⟩

end Nctuos
