import Nctuos.Boot
import Nctuos.Lib.ArraySet

/-!
# Two CPUs on one run queue

`sys_fork` on a CPU `A` appends to the run queue of the CPU `B` it has chosen, under
`cpus_lock`.  Meanwhile `B` removes an entry (`sys_kill`), looks for the next task
(`sched_yield`) or counts down its sleepers (`timer_handler`), and takes no lock around
its accesses to that queue: `sys_kill` takes `tasks_lock` for the release of the task
only.  Here both are sequences of single loads and stores.

* `forkStep` is `A`, from `spin_lock(&cpus_lock)` to `spin_unlock(&cpus_lock)`; the two
  stores of `runQueue[total++] = pid` come in either order.
* `cpuStep` is `B`, one access to its `cpu_rq` per step.

`NoLostUpdate` says what the interleavings should preserve.  They do not
(`queue_update_lost`).  They do when the accesses that conflict are kept apart
(`Separate`): `A` makes no access for its append while `B` is between the load of
`total` and the last store of its swap-removal, `B` does not begin a removal while `A` is
between its load and its last store, and `B` stays out between `A`'s two stores when
`total` is stored first.

The proof keeps one picture of the queue, `view`: what the queue holds once the access
sequence in progress, if any, is seen as not yet begun.
-/

namespace Nctuos

open Lib

variable {D : Type}

/-! ## The two programs -/

/-- Where `A` stands in the dispatch of `sys_fork`. -/
inductive ForkPc
  /-- Before `spin_lock(&cpus_lock)`. -/
  | lock
  /-- Before the loads of `total` by which `B` is found to have the fewest tasks. -/
  | scan
  /-- Before the load of `total` for the append. -/
  | load
  /-- `total` was `t`; both stores are to come. -/
  | loaded (t : Nat)
  /-- The entry is stored, `total` is not. -/
  | storedEntry (t : Nat)
  /-- `total` is stored, the entry is not. -/
  | storedTotal (t : Nat)
  | unlock
  | done
  deriving DecidableEq, Repr

/-- Where `B` stands in `sys_kill`, `sched_yield` or `timer_handler`. -/
inductive CpuPc
  /-- Before the load of `total` for the check `total > 1`. -/
  | killCheck (p : Nat)
  /-- Before the load of `total` in the loop condition, at index `i`. -/
  | killLoop (p i : Nat)
  /-- Before the load of `runQueue[i]`. -/
  | killEntry (p i : Nat)
  /-- Found at `i`; before the load of `total` by `--total`. -/
  | removeLoad (p i : Nat)
  /-- Before the store of `total`, which was `t`. -/
  | removeStore (p i t : Nat)
  /-- Before the load of the last entry. -/
  | removeRead (p i t : Nat)
  /-- Before the store of that entry at `i`. -/
  | removeWrite (p i v : Nat)
  /-- Before `spin_lock(&tasks_lock)`. -/
  | killLock (p : Nat)
  /-- Before the release of the task. -/
  | killFree (p : Nat)
  | killUnlock (p : Nat)
  /-- `sched_yield`: before the load of `total` in the loop condition, in turn `i`. -/
  | yieldLoop (idx i : Nat)
  /-- Before the load of `total` as the modulus. -/
  | yieldMod (idx i : Nat)
  /-- Before the load of `runQueue[idx]`. -/
  | yieldRead (idx i : Nat)
  /-- `timer_handler`: before the load of `total` in the loop condition. -/
  | tickLoop (i : Nat)
  /-- Before the load of `runQueue[i]`. -/
  | tickRead (i : Nat)
  /-- The sleepers are done; the current task's quantum is next. -/
  | tickEnd
  /-- Out of the kernel code modelled here, with the task `sched_yield` selected. -/
  | done (selected : Option Nat)
  deriving DecidableEq, Repr

/-- The memory the two CPUs share, and where each stands. -/
structure Race (D : Type) where
  /-- `B`'s `cpu_rq`. -/
  rq : Runqueue
  tasks : Nat → Task D
  /-- `B`'s `cpu_task`. -/
  cpuTask : Option Nat
  cpusLock : Bool
  tasksLock : Bool
  fork : ForkPc
  cpu : CpuPc

namespace Race

/-- Store to `total`. -/
def setTotal (s : Race D) (t : Nat) : Race D := { s with rq := { s.rq with total := t } }

/-- Store to `runQueue[i]`. -/
def setEntry (s : Race D) (i q : Nat) : Race D :=
  { s with rq := { s.rq with runQueue := Function.update s.rq.runQueue i q } }

/-- Rewrite one task. -/
def modTask (s : Race D) (q : Nat) (f : Task D → Task D) : Race D :=
  { s with tasks := Function.update s.tasks q (f (s.tasks q)) }

/-- One step of `A` dispatching `pid`; `entryFirst` settles the order of its stores.
`none` is a CPU that spins or has finished. -/
def forkStep (pid : Nat) (entryFirst : Bool) (s : Race D) : Option (Race D) :=
  match s.fork with
  | .lock => if s.cpusLock then none else some { s with cpusLock := true, fork := .scan }
  | .scan => some { s with fork := .load }
  | .load => some { s with fork := .loaded s.rq.total }
  | .loaded t =>
      if entryFirst then some { s.setEntry t pid with fork := .storedEntry t }
      else some { s.setTotal (t + 1) with fork := .storedTotal t }
  | .storedEntry t => some { s.setTotal (t + 1) with fork := .unlock }
  | .storedTotal t => some { s.setEntry t pid with fork := .unlock }
  | .unlock => some { s with cpusLock := false, fork := .done }
  | .done => none

/-- One step of `B`.  `none` is a CPU that spins, faults or has finished. -/
def cpuStep (s : Race D) : Option (Race D) :=
  match s.cpu with
  | .killCheck p =>
      if 0 < p ∧ p < nrTasks ∧ 1 < s.rq.total then some { s with cpu := .killLoop p 0 }
      else some { s with cpu := .done none }
  | .killLoop p i =>
      if i < s.rq.total then some { s with cpu := .killEntry p i }
      else some { s with cpu := .killLock p }
  | .killEntry p i =>
      if s.rq.runQueue i = p then some { s with cpu := .removeLoad p i }
      else some { s with cpu := .killLoop p (i + 1) }
  | .removeLoad p i => some { s with cpu := .removeStore p i s.rq.total }
  | .removeStore p i t => some { s.setTotal (t - 1) with cpu := .removeRead p i t }
  | .removeRead p i t => some { s with cpu := .removeWrite p i (s.rq.runQueue (t - 1)) }
  | .removeWrite p i v => some { s.setEntry i v with cpu := .killLock p }
  | .killLock p => if s.tasksLock then none else some { s with tasksLock := true, cpu := .killFree p }
  | .killFree p =>
      some { s.modTask p (fun t => { t with state := .free }) with cpu := .killUnlock p }
  | .killUnlock p =>
      match s.cpuTask with
      | none => none
      | some q =>
          if (s.tasks q).taskId = p then
            some { s with tasksLock := false, cpuTask := none, cpu := .yieldLoop 0 0 }
          else some { s with tasksLock := false, cpu := .done none }
  | .yieldLoop idx i =>
      if i < s.rq.total then some { s with cpu := .yieldMod idx i }
      else some { s with cpu := .done none }
  | .yieldMod idx i =>
      if s.rq.total = 0 then none
      else some { s with cpu := .yieldRead ((idx + 1) % s.rq.total) i }
  | .yieldRead idx i =>
      let q := s.rq.runQueue idx
      if (s.tasks q).state = .runnable then
        some { s.modTask q (fun t => { t with state := .running, remindTicks := timeQuant }) with
          rq := { s.rq with currentIndex := idx }
          cpuTask := some q
          cpu := .done (some q) }
      else some { s with cpu := .yieldLoop idx (i + 1) }
  | .tickLoop i =>
      if i < s.rq.total then some { s with cpu := .tickRead i }
      else some { s with cpu := .tickEnd }
  | .tickRead i => some { s.modTask (s.rq.runQueue i) tickSleeper with cpu := .tickLoop (i + 1) }
  | .tickEnd =>
      match s.cpuTask with
      | none => some { s with cpu := .done none }
      | some p =>
          let s' := s.modTask p fun t => { t with remindTicks := wrap32 (t.remindTicks - 1) }
          if (s'.tasks p).remindTicks ≤ 0 then
            some { s'.modTask p (fun t => { t with state := .runnable }) with
              cpu := .yieldLoop s.rq.currentIndex 0 }
          else some { s' with cpu := .done none }
  | .done _ => none

/-- Whose turn it is. -/
inductive Turn
  | fork (entryFirst : Bool)
  | cpu
  deriving DecidableEq, Repr

/-- One access by one of the two CPUs. -/
def step (pid : Nat) (s : Race D) : Turn → Option (Race D)
  | .fork entryFirst => s.forkStep pid entryFirst
  | .cpu => s.cpuStep

/-- The step relation of the interleavings. -/
def Steps (pid : Nat) (s : Race D) (turn : Turn) (s' : Race D) : Prop := s.step pid turn = some s'

/-! ## What is to be preserved -/

/-- How often a pid stands in the live part of a queue. -/
def count (rq : Runqueue) (q : Nat) : Nat := ((List.range rq.total).map rq.runQueue).count q

/-- A pid stands in the live part of a queue. -/
def Holds (rq : Runqueue) (q : Nat) : Prop := ∃ i, i < rq.total ∧ rq.runQueue i = q

instance (rq : Runqueue) (q : Nat) : Decidable (Holds rq q) :=
  inferInstanceAs (Decidable (∃ i, i < rq.total ∧ rq.runQueue i = q))

/-- Both CPUs before their first access: `A` is about to dispatch `pid`, and `B` enters
`sys_kill` on its current task, `sched_yield`, or `timer_handler`'s loop. -/
structure Start (pid : Nat) (s : Race D) : Prop where
  fork : s.fork = .lock
  cpu : (∃ p, s.cpu = .killCheck p ∧ s.cpuTask = some p) ∨
    s.cpu = .yieldLoop s.rq.currentIndex 0 ∨ s.cpu = .tickLoop 0
  current : ∀ p, s.cpuTask = some p → Holds s.rq p
  inj : ∀ i j, i < s.rq.total → j < s.rq.total → s.rq.runQueue i = s.rq.runQueue j → i = j
  live : ∀ q, Holds s.rq q → (s.tasks q).state ≠ .free
  fresh : ¬ Holds s.rq pid
  created : (s.tasks pid).state ≠ .free

/-- The queue `B` ends up with, and the task it selects on the way. -/
structure NoLostUpdate (steps : Race D → Turn → Race D → Prop) (pid : Nat) (s₀ : Race D) :
    Prop where
  /-- After both have finished: the forked pid once, the killed pid (the one whose state
  `sys_kill` has set to `TASK_FREE`) not at all, every other pid once. -/
  queue : ∀ turns s sel, Run steps s₀ turns s → s.fork = .done → s.cpu = .done sel →
    count s.rq pid = 1 ∧
      ∀ q, q ≠ pid → count s.rq q =
        if Holds s₀.rq q ∧ (s.tasks q).state ≠ .free then 1 else 0
  /-- At any point: what `B` selects was in its queue from the start, or is the forked
  pid once it has been stored. -/
  selected : ∀ turns s q, Run steps s₀ turns s → s.cpu = .done (some q) →
    Holds s₀.rq q ∨ q = pid ∧ (s.fork = .unlock ∨ s.fork = .done)

/-! ## Keeping the conflicting accesses apart -/

end Race

/-- `A` has loaded `total` and not yet made both stores. -/
def ForkPc.Appending : ForkPc → Prop
  | .loaded _ => True
  | .storedEntry _ => True
  | .storedTotal _ => True
  | _ => False

/-- The next step of `A` is a load or store of its append. -/
def ForkPc.Accesses : ForkPc → Prop
  | .load => True
  | .loaded _ => True
  | .storedEntry _ => True
  | .storedTotal _ => True
  | _ => False

/-- `A` has made both stores. -/
def ForkPc.Appended : ForkPc → Prop
  | .unlock => True
  | .done => True
  | _ => False

/-- `B` has loaded `total` for its swap-removal and not yet made the last store. -/
def CpuPc.Removing : CpuPc → Prop
  | .removeStore _ _ _ => True
  | .removeRead _ _ _ => True
  | .removeWrite _ _ _ => True
  | _ => False

/-- `B` has stored the smaller `total` and not yet the moved entry. -/
def CpuPc.shrunk : CpuPc → Bool
  | .removeRead _ _ _ => true
  | .removeWrite _ _ _ => true
  | _ => false

/-- The next step of `B` is a load or store of its `cpu_rq`. -/
def CpuPc.Accesses : CpuPc → Prop
  | .killLock _ => False
  | .killFree _ => False
  | .killUnlock _ => False
  | .tickEnd => False
  | .done _ => False
  | _ => True

/-- The task taken out of the queue and not yet marked free. -/
def CpuPc.reaping : CpuPc → Option Nat
  | .killLock p => some p
  | .killFree p => some p
  | .killUnlock p => some p
  | _ => none

theorem CpuPc.not_shrunk {pc : CpuPc} (h : ¬ pc.Removing) : pc.shrunk = false := by
  cases pc <;> first | rfl | exact absurd trivial h

namespace Race

/-- This turn keeps out of the other CPU's way. -/
def Separate (s : Race D) : Turn → Prop
  | .fork _ => s.fork.Accesses → ¬ s.cpu.Removing
  | .cpu => (s.fork.Appending → ∀ p i, s.cpu ≠ .removeLoad p i) ∧
      ((∃ t, s.fork = .storedTotal t) → ¬ s.cpu.Accesses)

/-- The step relation of the interleavings in which every turn does. -/
def SeparateSteps (pid : Nat) (s : Race D) (turn : Turn) (s' : Race D) : Prop :=
  Steps pid s turn s' ∧ Separate s turn

/-! ## The invariant -/

/-- How many entries the queue has, the access sequence in progress not counted. -/
def viewTotal (s : Race D) : Nat :=
  if s.cpu.shrunk then s.rq.total + 1
  else match s.fork with
    | .storedTotal t => t
    | _ => s.rq.total

/-- What the queue holds: the pids it started with, except one that is being or has been
killed, and the forked one once it is stored. -/
def Content (pid : Nat) (s₀ s : Race D) (q : Nat) : Prop :=
  (Holds s₀.rq q ∧ s.cpu.reaping ≠ some q ∧ (s.tasks q).state ≠ .free) ∨
    (s.fork.Appended ∧ q = pid)

/-- What `A` knows about the queue at each point. -/
def ForkOk (pid : Nat) (s : Race D) : ForkPc → Prop
  | .loaded t => t = s.rq.total
  | .storedEntry t => t = s.rq.total ∧ s.rq.runQueue t = pid
  | .storedTotal t => s.rq.total = t + 1
  | _ => True

/-- What `B` knows about the queue at each point. -/
def CpuOk (pid : Nat) (s₀ s : Race D) : CpuPc → Prop
  | .killCheck p => Holds s₀.rq p ∧ ∃ j, j < s.viewTotal ∧ s.rq.runQueue j = p
  | .killLoop p i => Holds s₀.rq p ∧ ∃ j, i ≤ j ∧ j < s.viewTotal ∧ s.rq.runQueue j = p
  | .killEntry p i => Holds s₀.rq p ∧ ∃ j, i ≤ j ∧ j < s.viewTotal ∧ s.rq.runQueue j = p
  | .removeLoad p i => Holds s₀.rq p ∧ i < s.viewTotal ∧ s.rq.runQueue i = p
  | .removeStore p i t => Holds s₀.rq p ∧ t = s.rq.total ∧ i < t ∧ s.rq.runQueue i = p
  | .removeRead p i t => Holds s₀.rq p ∧ t = s.rq.total + 1 ∧ i < t ∧ s.rq.runQueue i = p
  | .removeWrite p i v => Holds s₀.rq p ∧ i < s.rq.total + 1 ∧ s.rq.runQueue i = p ∧
      v = s.rq.runQueue s.rq.total
  | .killLock p => Holds s₀.rq p
  | .killFree p => Holds s₀.rq p
  | .killUnlock p => (s.tasks p).state = .free
  | .yieldRead idx _ => idx < s.viewTotal
  | .tickLoop _ => ∀ p, s.cpuTask = some p → (s.tasks p).state ≠ .free
  | .tickRead _ => ∀ p, s.cpuTask = some p → (s.tasks p).state ≠ .free
  | .tickEnd => ∀ p, s.cpuTask = some p → (s.tasks p).state ≠ .free
  | .done (some q) => Holds s₀.rq q ∨ s.fork.Appended ∧ q = pid
  | _ => True

/-- What holds after every separate interleaving. -/
structure RaceInv (pid : Nat) (s₀ s : Race D) : Prop where
  lists : Lists s.rq.runQueue s.viewTotal {q | Content pid s₀ s q}
  forkOk : ForkOk pid s s.fork
  cpuOk : CpuOk pid s₀ s s.cpu
  apart : s.fork.Appending → ¬ s.cpu.Removing
  created : (s.tasks pid).state ≠ .free

section Invariant

variable {pid : Nat} {s₀ s s' : Race D}

theorem RaceInv.start (h : Start pid s) : RaceInv pid s s where
  lists := by
    have hview : s.viewTotal = s.rq.total := by
      rw [viewTotal, h.fork]
      rcases h.cpu with ⟨p, hp, -⟩ | hp | hp <;> rw [hp] <;> rfl
    have hreap : s.cpu.reaping = none := by
      rcases h.cpu with ⟨p, hp, -⟩ | hp | hp <;> rw [hp] <;> rfl
    rw [hview]
    refine ⟨h.inj, fun q => ?_⟩
    show Content pid s s q ↔ Holds s.rq q
    constructor
    · rintro (⟨hq, -, -⟩ | ⟨happ, -⟩)
      · exact hq
      · rw [h.fork] at happ
        cases happ
    · intro hq
      refine Or.inl ⟨hq, ?_, h.live q hq⟩
      rw [hreap]
      exact nofun
  forkOk := by
    rw [h.fork]
    trivial
  cpuOk := by
    have hview : ∀ pc, s.cpu = pc → pc.shrunk = false → s.viewTotal = s.rq.total := by
      rintro pc rfl hshrunk
      rw [viewTotal, hshrunk, h.fork]
      rfl
    rcases h.cpu with ⟨p, hp, hcur⟩ | hp | hp
    · rw [hp]
      obtain ⟨j, hj, hjp⟩ := h.current p hcur
      exact ⟨⟨j, hj, hjp⟩, j, by rwa [hview _ hp rfl], hjp⟩
    · rw [hp]
      trivial
    · rw [hp]
      exact fun p hcur => h.live p (h.current p hcur)
  apart happ := by
    rw [h.fork] at happ
    cases happ
  created := h.created

/-- What `B` knows survives writes beyond the queue and its growth, and what it knows in its removal
a step that leaves the queue alone. -/
theorem CpuOk.mono {pc : CpuPc} (h : CpuOk pid s₀ s pc) (hpc : pc.Removing → s'.rq = s.rq)
    (hview : s.viewTotal ≤ s'.viewTotal)
    (hentry : ∀ j, j < s.viewTotal → s'.rq.runQueue j = s.rq.runQueue j)
    (htasks : s'.tasks = s.tasks) (hcur : s'.cpuTask = s.cpuTask)
    (happ : s.fork.Appended → s'.fork.Appended) : CpuOk pid s₀ s' pc := by
  cases pc with
  | killCheck p =>
      obtain ⟨hp, j, hj, hjp⟩ := h
      exact ⟨hp, j, by omega, (hentry j hj).trans hjp⟩
  | killLoop p i | killEntry p i =>
      obtain ⟨hp, j, hij, hj, hjp⟩ := h
      exact ⟨hp, j, hij, by omega, (hentry j hj).trans hjp⟩
  | removeLoad p i =>
      obtain ⟨hp, hi, hip⟩ := h
      exact ⟨hp, by omega, (hentry i hi).trans hip⟩
  | removeStore | removeRead | removeWrite =>
      rw [CpuOk, hpc trivial]
      exact h
  | killLock | killFree => exact h
  | killUnlock p =>
      show (s'.tasks p).state = .free
      rw [htasks]
      exact h
  | yieldLoop | yieldMod => trivial
  | yieldRead idx i => exact Nat.lt_of_lt_of_le h hview
  | tickLoop | tickRead | tickEnd =>
      rw [CpuOk, hcur, htasks]
      exact h
  | done sel =>
      cases sel with
      | none => trivial
      | some q => exact h.imp id fun hq => ⟨happ hq.1, hq.2⟩

/-! ### Steps of `A` -/

theorem viewTotal_of_fork (hcpu : s.cpu.shrunk = false) (hfork : ∀ t, s.fork ≠ .storedTotal t) :
    s.viewTotal = s.rq.total := by
  rw [viewTotal, hcpu]
  cases hpc : s.fork with
  | storedTotal t => exact absurd hpc (hfork t)
  | _ => rfl

theorem viewTotal_of_storedTotal {t : Nat} (hcpu : s.cpu.shrunk = false)
    (hfork : s.fork = .storedTotal t) : s.viewTotal = t := by
  rw [viewTotal, hcpu, hfork]
  rfl

/-- A step of `A` between two points outside of its two stores, which leaves the queue alone. -/
theorem viewTotal_advance (locked : Bool) {pc : ForkPc} (hfrom : ∀ t, s.fork ≠ .storedTotal t)
    (hto : ∀ t, pc ≠ .storedTotal t) :
    ({ s with cpusLock := locked, fork := pc } : Race D).viewTotal = s.viewTotal := by
  cases hshrunk : s.cpu.shrunk with
  | false =>
      rw [viewTotal_of_fork hshrunk hfrom]
      exact viewTotal_of_fork hshrunk hto
  | true => simp [viewTotal, hshrunk]

/-- A step of `A` that writes nothing the queue already holds. -/
theorem RaceInv.forkMove (h : RaceInv pid s₀ s) (hsep : s.cpu.Removing → s'.rq = s.rq)
    (hapart : s'.fork.Appending → ¬ s.cpu.Removing)
    (htasks : s'.tasks = s.tasks) (hcur : s'.cpuTask = s.cpuTask) (hcpu : s'.cpu = s.cpu)
    (hview : s.viewTotal ≤ s'.viewTotal)
    (hentry : ∀ j, j < s.viewTotal → s'.rq.runQueue j = s.rq.runQueue j)
    (happ : s.fork.Appended → s'.fork.Appended)
    (hlists : Lists s'.rq.runQueue s'.viewTotal {q | Content pid s₀ s' q})
    (hfork : ForkOk pid s' s'.fork) : RaceInv pid s₀ s' where
  lists := hlists
  forkOk := hfork
  cpuOk := by
    rw [hcpu]
    exact h.cpuOk.mono hsep hview hentry htasks hcur happ
  apart := by rwa [hcpu]
  created := by
    rw [htasks]
    exact h.created

/-- A step of `A` that leaves the queue as it is seen. -/
theorem RaceInv.forkQuiet (h : RaceInv pid s₀ s) (hsep : s.cpu.Removing → s'.rq = s.rq)
    (hapart : s'.fork.Appending → ¬ s.cpu.Removing)
    (htasks : s'.tasks = s.tasks) (hcur : s'.cpuTask = s.cpuTask) (hcpu : s'.cpu = s.cpu)
    (hview : s'.viewTotal = s.viewTotal)
    (hentry : ∀ j, j < s.viewTotal → s'.rq.runQueue j = s.rq.runQueue j)
    (happ : s'.fork.Appended ↔ s.fork.Appended) (hfork : ForkOk pid s' s'.fork) :
    RaceInv pid s₀ s' := by
  refine h.forkMove hsep hapart htasks hcur hcpu (le_of_eq hview.symm) hentry happ.mpr ?_ hfork
  rw [hview]
  refine (h.lists.congr_below hentry).congr_set fun q => ?_
  show Content pid s₀ s' q ↔ Content pid s₀ s q
  rw [Content, Content, hcpu, htasks, happ]

/-- `A`'s last store: the forked pid joins the queue. -/
theorem RaceInv.forkPush (h₀ : Start pid s₀) (h : RaceInv pid s₀ s) (hsep : ¬ s.cpu.Removing)
    (htasks : s'.tasks = s.tasks) (hcur : s'.cpuTask = s.cpuTask) (hcpu : s'.cpu = s.cpu)
    (hview : s'.viewTotal = s.viewTotal + 1)
    (hentry : ∀ j, j < s.viewTotal → s'.rq.runQueue j = s.rq.runQueue j)
    (hnew : s'.rq.runQueue s.viewTotal = pid) (hbefore : ¬ s.fork.Appended)
    (hafter : s'.fork.Appended) (hfork : ForkOk pid s' s'.fork) : RaceInv pid s₀ s' := by
  refine h.forkMove (fun hrem => absurd hrem hsep) (fun _ => hsep) htasks hcur hcpu (by omega)
    hentry (fun happ => absurd happ hbefore) ?_ hfork
  have hfresh : pid ∉ {q | Content pid s₀ s q} := by
    rintro (⟨hq, -, -⟩ | ⟨happ, -⟩)
    · exact h₀.fresh hq
    · exact hbefore happ
  rw [hview]
  refine ((h.lists.congr_below hentry).push hnew hfresh).congr_set fun q => ?_
  show Content pid s₀ s' q ↔ q = pid ∨ Content pid s₀ s q
  rw [Content, Content, hcpu, htasks]
  constructor
  · rintro (hq | ⟨-, hq⟩)
    · exact Or.inr (Or.inl hq)
    · exact Or.inl hq
  · rintro (hq | hq | ⟨happ, -⟩)
    · exact Or.inr ⟨hafter, hq⟩
    · exact Or.inl hq
    · exact absurd happ hbefore

/-- A step of `A` that only moves on. -/
theorem RaceInv.forkAdvance (h : RaceInv pid s₀ s) {pc₀ : ForkPc} (hpc : s.fork = pc₀)
    (locked : Bool) (pc : ForkPc) (hapart : pc.Appending → ¬ s.cpu.Removing)
    (hfrom : ∀ t, pc₀ ≠ .storedTotal t) (hto : ∀ t, pc ≠ .storedTotal t)
    (happ : pc.Appended ↔ pc₀.Appended) (hok : ForkOk pid s pc) :
    RaceInv pid s₀ { s with cpusLock := locked, fork := pc } := by
  subst hpc
  refine h.forkQuiet (fun _ => rfl) hapart rfl rfl rfl (viewTotal_advance locked hfrom hto)
    (fun _ _ => rfl) happ ?_
  cases pc <;> exact hok

theorem RaceInv.forkStep (h₀ : Start pid s₀) (h : RaceInv pid s₀ s) {entryFirst : Bool}
    (hsep : Separate s (.fork entryFirst)) (hs : s.forkStep pid entryFirst = some s') :
    RaceInv pid s₀ s' := by
  have hok := h.forkOk
  -- only in the append does `A` need the queue for itself
  have hrem : ∀ pc, s.fork = pc → pc.Accesses → ¬ s.cpu.Removing := fun pc hpc hacc => by
    subst hpc
    exact hsep hacc
  have hshrunk : ∀ pc, s.fork = pc → pc.Accesses → s.cpu.shrunk = false :=
    fun pc hpc hacc => CpuPc.not_shrunk (hrem pc hpc hacc)
  unfold Race.forkStep at hs
  cases hpc : s.fork with
  | lock =>
      simp only [hpc] at hs
      split at hs
      · cases hs
      · cases hs
        exact h.forkAdvance hpc true .scan nofun nofun nofun Iff.rfl trivial
  | scan =>
      simp only [hpc] at hs
      cases hs
      exact h.forkAdvance hpc s.cpusLock .load nofun nofun nofun Iff.rfl trivial
  | load =>
      simp only [hpc] at hs
      cases hs
      exact h.forkAdvance hpc s.cpusLock (.loaded s.rq.total) (fun _ => hrem _ hpc trivial) nofun
        nofun Iff.rfl rfl
  | loaded t =>
      rw [hpc] at hok
      have hrem := hrem _ hpc trivial
      have hshrunk := hshrunk _ hpc trivial
      have hview := viewTotal_of_fork hshrunk (by simp [hpc])
      obtain rfl : t = s.rq.total := hok
      simp only [hpc] at hs
      split at hs
      · cases hs
        refine h.forkQuiet (fun h => absurd h hrem) (fun _ => hrem) rfl rfl rfl ?_ (fun j hj => ?_)
          ?_ ⟨rfl, ?_⟩
        · rw [hview]
          exact viewTotal_of_fork hshrunk nofun
        · exact Function.update_of_ne (by omega) _ _
        · rw [hpc]
          exact Iff.rfl
        · exact Function.update_self _ _ _
      · cases hs
        refine h.forkQuiet (fun h => absurd h hrem) (fun _ => hrem) rfl rfl rfl ?_
          (fun _ _ => rfl) ?_ rfl
        · rw [hview]
          exact viewTotal_of_storedTotal hshrunk rfl
        · rw [hpc]
          exact Iff.rfl
  | storedEntry t =>
      rw [hpc] at hok
      have hshrunk := hshrunk _ hpc trivial
      have hview := viewTotal_of_fork hshrunk (by simp [hpc])
      obtain ⟨rfl, hentry⟩ := hok
      simp only [hpc] at hs
      cases hs
      refine h.forkPush h₀ (hrem _ hpc trivial) rfl rfl rfl ?_ (fun _ _ => rfl) ?_ ?_ trivial trivial
      · rw [hview]
        exact viewTotal_of_fork hshrunk nofun
      · rw [hview]
        exact hentry
      · rw [hpc]
        exact id
  | storedTotal t =>
      rw [hpc] at hok
      have hshrunk := hshrunk _ hpc trivial
      have hview := viewTotal_of_storedTotal hshrunk hpc
      simp only [hpc] at hs
      cases hs
      refine h.forkPush h₀ (hrem _ hpc trivial) rfl rfl rfl ?_ (fun j hj => ?_) ?_ ?_ trivial trivial
      · have htotal : s.rq.total = t + 1 := hok
        rw [hview, ← htotal]
        exact viewTotal_of_fork hshrunk nofun
      · exact Function.update_of_ne (by omega) _ _
      · rw [hview]
        exact Function.update_self _ _ _
      · rw [hpc]
        exact id
  | unlock =>
      simp only [hpc] at hs
      cases hs
      exact h.forkAdvance hpc false .done nofun nofun nofun Iff.rfl trivial
  | done =>
      simp only [hpc] at hs
      cases hs

/-! ### Steps of `B` -/

/-- A step of `B` that leaves the queue alone. -/
theorem RaceInv.cpuMove (h : RaceInv pid s₀ s) (hfork : s'.fork = s.fork)
    (htotal : s'.rq.total = s.rq.total) (hrq : s'.rq.runQueue = s.rq.runQueue)
    (hshrunk : s'.cpu.shrunk = s.cpu.shrunk)
    (hcontent : ∀ q, Content pid s₀ s' q ↔ Content pid s₀ s q)
    (hok : s'.viewTotal = s.viewTotal → CpuOk pid s₀ s' s'.cpu)
    (hapart : s.fork.Appending → ¬ s'.cpu.Removing)
    (hcreated : (s'.tasks pid).state ≠ .free) : RaceInv pid s₀ s' := by
  have hview : s'.viewTotal = s.viewTotal := by
    rw [viewTotal, viewTotal, hfork, htotal, hshrunk]
  refine
    { lists := ?_, forkOk := ?_, cpuOk := hok hview, apart := ?_, created := hcreated }
  · rw [hview, hrq]
    exact h.lists.congr_set hcontent
  · rw [hfork]
    have hforkOk := h.forkOk
    cases hpc : s.fork <;> rw [hpc] at hforkOk <;>
      first | trivial | (simp only [ForkOk, htotal, hrq]; exact hforkOk)
  · rw [hfork]
    exact hapart

/-- A step of `B` that at most rewrites tasks, without freeing one. -/
theorem RaceInv.cpuQuiet (h : RaceInv pid s₀ s) {pc : CpuPc} (hpc : s.cpu = pc)
    (hfork : s'.fork = s.fork) (htotal : s'.rq.total = s.rq.total)
    (hrq : s'.rq.runQueue = s.rq.runQueue) (hshrunk : s'.cpu.shrunk = pc.shrunk)
    (hreap : s'.cpu.reaping = pc.reaping)
    (hfree : ∀ q, (s'.tasks q).state = .free ↔ (s.tasks q).state = .free)
    (hok : s'.viewTotal = s.viewTotal → CpuOk pid s₀ s' s'.cpu)
    (hapart : s.fork.Appending → ¬ s'.cpu.Removing) : RaceInv pid s₀ s' := by
  subst hpc
  refine h.cpuMove hfork htotal hrq hshrunk (fun q => ?_) hok hapart ?_
  · rw [Content, Content, hfork, hreap, ne_eq (s'.tasks q).state, hfree q]
  · rw [ne_eq, hfree]
    exact h.created

/-- A step of `B` that only moves on. -/
theorem RaceInv.cpuAdvance (h : RaceInv pid s₀ s) {pc₀ : CpuPc} (hpc : s.cpu = pc₀) (pc : CpuPc)
    (hshrunk : pc.shrunk = pc₀.shrunk) (hreap : pc.reaping = pc₀.reaping)
    (hok : ({ s with cpu := pc } : Race D).viewTotal = s.viewTotal →
      CpuOk pid s₀ { s with cpu := pc } pc)
    (hapart : s.fork.Appending → ¬ pc.Removing) : RaceInv pid s₀ { s with cpu := pc } :=
  h.cpuQuiet hpc rfl rfl rfl hshrunk hreap (fun _ => Iff.rfl) hok hapart

/-- Rewriting a task so that it is free exactly if it was. -/
theorem modTask_free_iff (s : Race D) (r : Nat) (f : Task D → Task D)
    (hf : (f (s.tasks r)).state = .free ↔ (s.tasks r).state = .free) (q : Nat) :
    ((s.modTask r f).tasks q).state = .free ↔ (s.tasks q).state = .free := by
  by_cases hq : q = r
  · subst hq
    simpa [modTask] using hf
  · simp [modTask, hq]

theorem tickSleeper_free_iff (t : Task D) : (tickSleeper t).state = .free ↔ t.state = .free := by
  unfold tickSleeper
  split
  · rename_i hs
    simp only [hs, reduceCtorEq, iff_false]
    split <;> exact nofun
  · exact Iff.rfl

/-- A task of the queue as `B` sees it was dispatched to `B`. -/
theorem RaceInv.dispatched (h : RaceInv pid s₀ s) {i : Nat} (hi : i < s.viewTotal) :
    Holds s₀.rq (s.rq.runQueue i) ∨ s.fork.Appended ∧ s.rq.runQueue i = pid := by
  have hmem : Content pid s₀ s (s.rq.runQueue i) := (h.lists.mem_iff _).mpr ⟨i, hi, rfl⟩
  exact hmem.imp (fun hq => hq.1) id

theorem forkOk_of_not_appending {pc : ForkPc} (h : ¬ pc.Appending) : ForkOk pid s pc := by
  cases pc <;> first | trivial | exact absurd trivial h

/-- While `B` is in its removal `A` is not in its append. -/
theorem RaceInv.not_appending (h : RaceInv pid s₀ s) {pc : CpuPc} (hpc : s.cpu = pc)
    (hrem : pc.Removing) : ¬ s.fork.Appending := fun happ => h.apart happ (hpc ▸ hrem)

/-- The first store of the swap-removal.  The entry is still to move, so the smaller `total` is
seen as not begun. -/
theorem RaceInv.removeStore (h : RaceInv pid s₀ s) {p i t : Nat} (hpc : s.cpu = .removeStore p i t)
    (hview : s.viewTotal = s.rq.total) :
    RaceInv pid s₀ { s.setTotal (t - 1) with cpu := .removeRead p i t } := by
  have hok := h.cpuOk
  rw [hpc] at hok
  obtain ⟨hp, rfl, hi, hip⟩ := hok
  have happ := h.not_appending hpc trivial
  have hview' : ({ s.setTotal (s.rq.total - 1) with
      cpu := .removeRead p i s.rq.total } : Race D).viewTotal = s.viewTotal := by
    rw [hview]
    show s.rq.total - 1 + 1 = s.rq.total
    omega
  refine
    { lists := ?_, forkOk := forkOk_of_not_appending happ, cpuOk := ?_,
      apart := fun happ' => absurd happ' happ, created := h.created }
  · rw [hview']
    refine h.lists.congr_set fun q => ?_
    show Content pid s₀ _ q ↔ Content pid s₀ s q
    rw [Content, Content, hpc]
    exact Iff.rfl
  · refine ⟨hp, ?_, hi, hip⟩
    show s.rq.total = s.rq.total - 1 + 1
    omega

/-- The last store of the swap-removal. -/
theorem RaceInv.removeWrite (h₀ : Start pid s₀) (h : RaceInv pid s₀ s) {p i v : Nat}
    (hpc : s.cpu = .removeWrite p i v) :
    RaceInv pid s₀ { s.setEntry i v with cpu := .killLock p } := by
  have hok := h.cpuOk
  rw [hpc] at hok
  obtain ⟨hp, hi, hip, rfl⟩ := hok
  have hview : s.viewTotal = s.rq.total + 1 := by
    rw [viewTotal, hpc]
    rfl
  have happ := h.not_appending hpc trivial
  have hview' : ({ s.setEntry i (s.rq.runQueue s.rq.total) with cpu := .killLock p } :
      Race D).viewTotal = s.rq.total := by
    refine viewTotal_of_fork rfl fun t ht => happ ?_
    have ht' : s.fork = .storedTotal t := ht
    rw [ht']
    trivial
  have hlists := h.lists
  rw [hview] at hlists
  refine
    { lists := ?_, forkOk := forkOk_of_not_appending happ, cpuOk := hp, apart := fun _ => id,
      created := h.created }
  · rw [hview']
    refine (hlists.swapRemove hi).congr_set fun q => ?_
    show Content pid s₀ _ q ↔ Content pid s₀ s q ∧ q ≠ s.rq.runQueue i
    have hpid : p ≠ pid := by
      rintro rfl
      exact h₀.fresh hp
    rw [Content, Content, hpc, hip]
    constructor
    · rintro (⟨hq, hreap, hlive⟩ | ⟨hdone, rfl⟩)
      · exact ⟨Or.inl ⟨hq, nofun, hlive⟩, fun hqp => hreap (by rw [hqp]; rfl)⟩
      · exact ⟨Or.inr ⟨hdone, rfl⟩, hpid.symm⟩
    · rintro ⟨⟨hq, -, hlive⟩ | ⟨hdone, rfl⟩, hne⟩
      · exact Or.inl ⟨hq, fun hreap => hne (Option.some.inj hreap).symm, hlive⟩
      · exact Or.inr ⟨hdone, rfl⟩

/-- The task taken out of the queue is marked free. -/
theorem RaceInv.killFree (h₀ : Start pid s₀) (h : RaceInv pid s₀ s) {p : Nat}
    (hpc : s.cpu = .killFree p) (hcpu : s'.cpu = .killUnlock p) (hfork : s'.fork = s.fork)
    (hrq : s'.rq = s.rq) (hself : (s'.tasks p).state = .free)
    (hother : ∀ q, q ≠ p → s'.tasks q = s.tasks q) : RaceInv pid s₀ s' := by
  have hok := h.cpuOk
  rw [hpc] at hok
  refine h.cpuMove hfork (by rw [hrq]) (by rw [hrq]) (by rw [hpc, hcpu]; rfl) (fun q => ?_)
    (fun _ => ?_) (fun _ => ?_) ?_
  · rw [Content, Content, hpc, hcpu, hfork]
    by_cases hq : q = p
    · -- out of the queue already, so being marked changes nothing
      subst hq
      simp [CpuPc.reaping]
    · rw [hother q hq]
      exact Iff.rfl
  · rw [hcpu]
    exact hself
  · rw [hcpu]
    exact id
  · rw [hother pid fun hpid => h₀.fresh (hpid ▸ hok)]
    exact h.created

/-- The lock released, the task is out of the queue because it is free. -/
theorem RaceInv.killUnlock (h : RaceInv pid s₀ s) {p : Nat} (hpc : s.cpu = .killUnlock p)
    (hfork : s'.fork = s.fork) (hrq : s'.rq = s.rq) (htasks : s'.tasks = s.tasks)
    (hshrunk : s'.cpu.shrunk = false) (hreap : s'.cpu.reaping = none)
    (hok : CpuOk pid s₀ s' s'.cpu) (hrem : ¬ s'.cpu.Removing) : RaceInv pid s₀ s' := by
  have hfree := h.cpuOk
  rw [hpc] at hfree
  refine h.cpuMove hfork (by rw [hrq]) (by rw [hrq]) (by rw [hpc, hshrunk]; rfl) (fun q => ?_)
    (fun _ => hok) (fun _ => hrem) ?_
  · rw [Content, Content, hpc, hreap, hfork, htasks]
    refine or_congr_left (and_congr_right fun _ => ?_)
    constructor
    · rintro ⟨-, hlive⟩
      refine ⟨fun hq => hlive ?_, hlive⟩
      rw [← Option.some.inj hq]
      exact hfree
    · rintro ⟨-, hlive⟩
      exact ⟨nofun, hlive⟩
  · rw [htasks]
    exact h.created

/-- The end of `timer_handler`: the current task, which is not free, stays so. -/
theorem RaceInv.tickEnd (h : RaceInv pid s₀ s) (hpc : s.cpu = .tickEnd)
    (hs : s.cpuStep = some s') : RaceInv pid s₀ s' := by
  have hok := h.cpuOk
  rw [hpc] at hok
  simp only [Race.cpuStep, hpc] at hs
  split at hs
  · cases hs
    exact h.cpuAdvance hpc _ rfl rfl (fun _ => trivial) fun _ => id
  · rename_i p hp
    have hlive := hok p hp
    have hfree := modTask_free_iff s p
      (fun t => { t with remindTicks := wrap32 (t.remindTicks - 1) }) Iff.rfl
    split at hs
    · cases hs
      refine h.cpuQuiet hpc rfl rfl rfl rfl rfl (fun q => ?_)
        (fun _ => trivial) fun _ => id
      refine Iff.trans (modTask_free_iff _ p (fun t => { t with state := .runnable }) ?_ q)
        (hfree q)
      rw [hfree]
      simp [hlive]
    · cases hs
      exact h.cpuQuiet hpc rfl rfl rfl rfl rfl hfree
        (fun _ => trivial) fun _ => id

theorem RaceInv.cpuStep (h₀ : Start pid s₀) (h : RaceInv pid s₀ s) (hsep : Separate s .cpu)
    (hs : s.cpuStep = some s') : RaceInv pid s₀ s' := by
  have hok := h.cpuOk
  -- outside its removal `B` sees `total` itself, except between `A`'s two stores
  have hsame : s.cpu.shrunk = false → s.cpu.Accesses → s.viewTotal = s.rq.total := by
    intro hshrunk hacc
    exact viewTotal_of_fork hshrunk fun t ht => hsep.2 ⟨t, ht⟩ hacc
  have hstep := hs
  unfold Race.cpuStep at hs
  generalize hpc : s.cpu = pc at hok hsame hs
  cases pc with
  | killCheck p =>
      obtain ⟨hp, j, hj, hjp⟩ := hok
      dsimp only at hs
      split at hs
      · cases hs
        refine h.cpuAdvance hpc _ rfl rfl (fun hview => ?_) fun _ => id
        exact ⟨hp, j, Nat.zero_le j, by rwa [hview], hjp⟩
      · cases hs
        exact h.cpuAdvance hpc _ rfl rfl (fun _ => trivial) fun _ => id
  | killLoop p i =>
      obtain ⟨hp, j, hij, hj, hjp⟩ := hok
      dsimp only at hs
      split at hs
      · cases hs
        refine h.cpuAdvance hpc _ rfl rfl (fun hview => ?_) fun _ => id
        exact ⟨hp, j, hij, by rwa [hview], hjp⟩
      · -- the loop cannot miss an entry that is there
        rename_i hout
        have hview := hsame rfl trivial
        omega
  | killEntry p i =>
      obtain ⟨hp, j, hij, hj, hjp⟩ := hok
      dsimp only at hs
      split at hs
      · rename_i hfound
        cases hs
        refine h.cpuAdvance hpc _ rfl rfl (fun hview => ?_) fun _ => id
        exact ⟨hp, by rw [hview]; omega, hfound⟩
      · rename_i hfound
        cases hs
        refine h.cpuAdvance hpc _ rfl rfl (fun hview => ?_) fun _ => id
        have hne : i ≠ j := by
          rintro rfl
          exact hfound hjp
        exact ⟨hp, j, by omega, by rwa [hview], hjp⟩
  | removeLoad p i =>
      obtain ⟨hp, hi, hip⟩ := hok
      have hview := hsame rfl trivial
      dsimp only at hs
      cases hs
      refine h.cpuAdvance hpc _ rfl rfl (fun _ => ?_) fun happ => ?_
      · exact ⟨hp, rfl, by omega, hip⟩
      · exact absurd hpc (hsep.1 happ p i)
  | removeStore p i t =>
      dsimp only at hs
      cases hs
      exact h.removeStore hpc (hsame rfl trivial)
  | removeRead p i t =>
      obtain ⟨hp, rfl, hi, hip⟩ := hok
      dsimp only at hs
      cases hs
      refine h.cpuAdvance hpc _ rfl rfl (fun _ => ?_) fun happ => ?_
      · exact ⟨hp, hi, hip, rfl⟩
      · exact absurd happ (h.not_appending hpc trivial)
  | removeWrite p i v =>
      dsimp only at hs
      cases hs
      exact h.removeWrite h₀ hpc
  | killLock p =>
      dsimp only at hs
      split at hs
      · cases hs
      · cases hs
        exact h.cpuQuiet hpc rfl rfl rfl rfl rfl (fun _ => Iff.rfl)
          (fun _ => hok) fun _ => id
  | killFree p =>
      dsimp only at hs
      cases hs
      refine h.killFree h₀ hpc rfl rfl rfl ?_ fun q hq => ?_
      · simp [modTask]
      · simp [modTask, hq]
  | killUnlock p =>
      dsimp only at hs
      split at hs
      · cases hs
      · split at hs
        · cases hs
          exact h.killUnlock hpc rfl rfl rfl rfl rfl trivial id
        · cases hs
          exact h.killUnlock hpc rfl rfl rfl rfl rfl trivial id
  | yieldLoop idx i =>
      dsimp only at hs
      split at hs
      · cases hs
        exact h.cpuAdvance hpc _ rfl rfl (fun _ => trivial) fun _ => id
      · cases hs
        exact h.cpuAdvance hpc _ rfl rfl (fun _ => trivial) fun _ => id
  | yieldMod idx i =>
      have hview := hsame rfl trivial
      dsimp only at hs
      split at hs
      · cases hs
      · cases hs
        refine h.cpuAdvance hpc _ rfl rfl (fun hview' => ?_) fun _ => id
        show (idx + 1) % s.rq.total < _
        rw [hview', hview]
        exact Nat.mod_lt _ (by omega)
  | yieldRead idx i =>
      dsimp only at hs
      split at hs
      · rename_i hrun
        cases hs
        refine h.cpuQuiet hpc rfl rfl rfl rfl rfl (fun q => ?_)
          (fun _ => h.dispatched hok) fun _ => id
        exact modTask_free_iff s (s.rq.runQueue idx)
          (fun t => { t with state := .running, remindTicks := timeQuant }) (by simp [hrun]) q
      · cases hs
        exact h.cpuAdvance hpc _ rfl rfl (fun _ => trivial) fun _ => id
  | tickLoop i =>
      dsimp only at hs
      split at hs
      · cases hs
        exact h.cpuAdvance hpc _ rfl rfl (fun _ => hok) fun _ => id
      · cases hs
        exact h.cpuAdvance hpc _ rfl rfl (fun _ => hok) fun _ => id
  | tickRead i =>
      dsimp only at hs
      cases hs
      have hfree := modTask_free_iff s (s.rq.runQueue i) tickSleeper (tickSleeper_free_iff _)
      refine h.cpuQuiet hpc rfl rfl rfl rfl rfl hfree (fun _ => ?_)
        fun _ => id
      exact fun p hp hp' => hok p hp ((hfree p).mp hp')
  | tickEnd => exact h.tickEnd hpc hstep
  | done sel =>
      dsimp only at hs
      cases hs

theorem RaceInv.run (h₀ : Start pid s₀) {turns : List Turn}
    (hrun : Run (SeparateSteps pid) s₀ turns s) : RaceInv pid s₀ s := by
  refine hrun.invariant (I := RaceInv pid s₀) ?_ (.start h₀)
  intro s turn s' h hs
  cases turn with
  | fork entryFirst => exact h.forkStep h₀ hs.2 hs.1
  | cpu => exact h.cpuStep h₀ hs.2 hs.1

/-- **No update is lost** when the conflicting accesses are kept apart. -/
theorem no_lost_update_of_separate (h₀ : Start pid s₀) :
    NoLostUpdate (SeparateSteps pid) pid s₀ where
  queue turns s sel hrun hfork hcpu := by
    have h := RaceInv.run h₀ hrun
    have hview : s.viewTotal = s.rq.total :=
      viewTotal_of_fork (by rw [hcpu]; rfl) (by simp [hfork])
    have hcontent : ∀ q, Content pid s₀ s q ↔
        (Holds s₀.rq q ∧ (s.tasks q).state ≠ .free) ∨ q = pid := by
      intro q
      simp [Content, hfork, hcpu, CpuPc.reaping, ForkPc.Appended]
    have hlists : Lists s.rq.runQueue s.rq.total
        {q | (Holds s₀.rq q ∧ (s.tasks q).state ≠ .free) ∨ q = pid} := by
      have hl := h.lists
      rw [hview] at hl
      exact hl.congr_set fun q => (hcontent q).symm
    have : DecidablePred (· ∈ {q | (Holds s₀.rq q ∧ (s.tasks q).state ≠ .free) ∨ q = pid}) :=
      fun q => inferInstanceAs (Decidable (_ ∨ _))
    constructor
    · rw [count, hlists.count_eq]
      exact if_pos (Or.inr rfl)
    · intro q hq
      rw [count, hlists.count_eq]
      refine if_congr ?_ rfl rfl
      show _ ∨ q = pid ↔ _
      simp [hq]
  selected turns s q hrun hcpu := by
    have hok := (RaceInv.run h₀ hrun).cpuOk
    rw [hcpu] at hok
    refine hok.imp id fun hq => ⟨hq.2, ?_⟩
    have happ := hq.1
    cases hf : s.fork with
    | unlock => exact Or.inl rfl
    | done => exact Or.inr rfl
    | _ =>
        rw [hf] at happ
        cases happ

end Invariant

/-! ## The kernel enters the race -/

section Kernel

variable {M : Type} {b : Boot} {k : Kernel M D} {c pid : Nat}

/-- The two CPUs when `sys_fork` has created `pid` and chosen CPU `c`, which is itself
entering the kernel at `pc`. -/
def ofKernel (k : Kernel M D) (c pid : Nat) (pc : CpuPc) : Race D where
  rq := (k.cpus c).cpuRq
  tasks := (k.modTask pid fun t =>
    { t with taskId := pid, remindTicks := timeQuant, state := .runnable }).tasks
  cpuTask := (k.cpus c).cpuTask
  cpusLock := false
  tasksLock := false
  fork := .lock
  cpu := pc

/-- Every reachable kernel state starts the race as it should be started. -/
theorem start_ofKernel (h : QueueInv b k) (hc : c < b.ncpu) (hpid : findFree k.tasks = some pid)
    {pc : CpuPc} (hpc : (∃ p, pc = .killCheck p ∧ (k.cpus c).cpuTask = some p) ∨
      pc = .yieldLoop (k.cpus c).cpuRq.currentIndex 0 ∨ pc = .tickLoop 0) :
    Start pid (ofKernel k c pid pc) where
  fork := rfl
  cpu := hpc
  current p hp := h.current_queued hc hp
  inj i j hi hj heq := (h.inj c c i j hc hc hi hj heq).2
  live q hq := by
    obtain ⟨-, hlive⟩ := h.queued_live hc hq
    have hne : q ≠ pid := by
      rintro rfl
      exact hlive (findFree_some hpid).2
    simpa [ofKernel, Kernel.modTask_other _ _ hne] using hlive
  fresh hq := (h.queued_live hc hq).2 (findFree_some hpid).2
  created := by simp [ofKernel]

/-- Undisturbed, `A`'s accesses are the append, in either order of the stores. -/
theorem forkStep_append (s : Race D) (pid : Nat) (e : Bool) (hpc : s.fork = .load) :
    (s.forkStep pid e).bind (fun s => (s.forkStep pid e).bind (forkStep pid e)) =
      some { s with rq := s.rq.append pid, fork := .unlock } := by
  cases e <;> simp [forkStep, hpc, setTotal, setEntry, Runqueue.append]

/-- Undisturbed, `B`'s accesses are the swap-removal. -/
theorem cpuStep_remove (s : Race D) {p i : Nat} (hpc : s.cpu = .removeLoad p i)
    (hi : findIndex s.rq p = some i) :
    (s.cpuStep).bind (fun s => s.cpuStep.bind fun s => s.cpuStep.bind cpuStep) =
      some { s with rq := s.rq.remove p, cpu := .killLock p } := by
  simp [cpuStep, hpc, setTotal, setEntry, Runqueue.remove, hi]

end Kernel

/-! ## Interleavings that lose an update -/

/-- Run a schedule, as long as `allowed` admits its turns. -/
def exec (pid : Nat) (allowed : Race D → Turn → Bool) : List Turn → Race D → Option (Race D)
  | [], s => some s
  | turn :: turns, s =>
      if allowed s turn then (s.step pid turn).bind (exec pid allowed turns) else none

theorem run_of_exec {pid : Nat} {allowed : Race D → Turn → Bool} {turns : List Turn}
    {s s' : Race D} (h : exec pid allowed turns s = some s') :
    Run (fun s turn s' => Steps pid s turn s' ∧ allowed s turn = true) s turns s' := by
  induction turns generalizing s with
  | nil =>
      cases h
      exact .nil _
  | cons turn turns ih =>
      rw [exec] at h
      split at h
      · rename_i hallowed
        obtain ⟨s₁, hs, h⟩ := Option.bind_eq_some_iff.mp h
        exact .cons ⟨hs, hallowed⟩ (ih h)
      · cases h

/-- `Separate`, computed. -/
def separate (s : Race D) : Turn → Bool
  | .fork _ =>
      match s.fork, s.cpu with
      | .lock, _ => true
      | .scan, _ => true
      | .unlock, _ => true
      | _, .removeStore _ _ _ => false
      | _, .removeRead _ _ _ => false
      | _, .removeWrite _ _ _ => false
      | _, _ => true
  | .cpu =>
      match s.fork, s.cpu with
      | .storedTotal _, _ => false
      | .loaded _, .removeLoad _ _ => false
      | .storedEntry _, .removeLoad _ _ => false
      | _, _ => true

theorem separate_sound {s : Race D} {turn : Turn} (h : separate s turn = true) :
    Separate s turn := by
  cases turn with
  | fork entryFirst =>
      intro hacc hrem
      cases hf : s.fork <;> cases hpc : s.cpu <;>
        simp_all [separate, ForkPc.Accesses, CpuPc.Removing]
  | cpu =>
      constructor
      · rintro happ p i hpc
        cases hf : s.fork <;> simp_all [separate, ForkPc.Appending]
      · rintro ⟨t, ht⟩
        simp [separate, ht] at h

/-- A CPU with `total` tasks `0, 1, …` in its queue, the cell after them holding `stale`;
task `p` is current and every other task is runnable. -/
def sample (total stale p : Nat) (state : TaskState) (pc : CpuPc) : Race Unit where
  rq := ⟨total, p, fun i => if i < total then i else stale⟩
  tasks q := { Task.zero Unit with taskId := q, state := if q = p then state else .runnable }
  cpuTask := some p
  cpusLock := false
  tasksLock := false
  fork := .lock
  cpu := pc

theorem sample_start {total stale p pid : Nat} {state : TaskState} {pc : CpuPc}
    (hp : p < total) (hpid : total ≤ pid) (hstate : state ≠ .free)
    (hpc : pc = .killCheck p ∨ pc = .yieldLoop p 0 ∨ pc = .tickLoop 0) :
    Start pid (sample total stale p state pc) where
  fork := rfl
  cpu := by
    rcases hpc with rfl | rfl | rfl
    · exact Or.inl ⟨p, rfl, rfl⟩
    · exact Or.inr (Or.inl rfl)
    · exact Or.inr (Or.inr rfl)
  current q hq := by
    cases hq
    exact ⟨p, hp, if_pos hp⟩
  inj i j hi hj heq := by
    have hi' : i < total := hi
    have hj' : j < total := hj
    simpa [sample, hi', hj'] using heq
  live q _ := by
    show (if q = p then state else .runnable) ≠ .free
    split
    · exact hstate
    · exact nofun
  fresh := by
    rintro ⟨i, hi, hval⟩
    have hi' : i < total := hi
    simp only [sample, if_pos hi'] at hval
    omega
  created := by
    show (if pid = p then state else .runnable) ≠ .free
    split
    · exact hstate
    · exact nofun

/-- Two CPUs race on a queue of two tasks and a fork.  If `A` completes its append
between `B`'s load and store of `total`, the forked task is lost.  If `B` completes its
removal between `A`'s load and stores, the killed task comes back.  If `A` has stored
`total` and not the entry, `B` selects whatever the cell held before. -/
theorem queue_update_lost :
    (∃ turns s sel, Run (Steps 2) (sample 2 7 1 .running (.killCheck 1)) turns s ∧
      s.fork = .done ∧ s.cpu = .done sel ∧ count s.rq 2 = 0) ∧
    (∃ turns s sel, Run (Steps 2) (sample 2 7 1 .running (.killCheck 1)) turns s ∧
      s.fork = .done ∧ s.cpu = .done sel ∧ (s.tasks 1).state = .free ∧ count s.rq 1 = 1) ∧
    (∃ turns s, Run (Steps 2) (sample 1 7 0 .sleep (.yieldLoop 0 0)) turns s ∧
      s.cpu = .done (some 7) ∧ ¬ Holds (sample 1 7 0 .sleep (.yieldLoop 0 0)).rq 7) ∧
    ¬ ∀ s₀ : Race Unit, Start 2 s₀ → NoLostUpdate (Steps 2) 2 s₀ := by
  have hlost : ∃ s sel, exec 2 (fun _ _ => true)
      (List.replicate 6 .cpu ++ List.replicate 6 (.fork true) ++ List.replicate 9 .cpu)
        (sample 2 7 1 .running (.killCheck 1)) = some s ∧
      s.fork = .done ∧ s.cpu = .done sel ∧ count s.rq 2 = 0 :=
    ⟨_, some 0, rfl, rfl, rfl, rfl⟩
  have hback : ∃ s sel, exec 2 (fun _ _ => true)
      (List.replicate 3 (.fork true) ++ List.replicate 15 .cpu ++ List.replicate 3 (.fork true))
        (sample 2 7 1 .running (.killCheck 1)) = some s ∧
      s.fork = .done ∧ s.cpu = .done sel ∧ (s.tasks 1).state = .free ∧ count s.rq 1 = 1 :=
    ⟨_, some 0, rfl, rfl, rfl, rfl, rfl⟩
  have hstale : ∃ s, exec 2 (fun _ _ => true)
      (List.replicate 4 (.fork false) ++ List.replicate 3 .cpu)
        (sample 1 7 0 .sleep (.yieldLoop 0 0)) = some s ∧ s.cpu = .done (some 7) :=
    ⟨_, rfl, rfl⟩
  obtain ⟨s₁, sel₁, hexec₁, hfork₁, hcpu₁, hcount₁⟩ := hlost
  obtain ⟨s₂, sel₂, hexec₂, hfork₂, hcpu₂, hfree₂, hcount₂⟩ := hback
  obtain ⟨s₃, hexec₃, hcpu₃⟩ := hstale
  have hrun : ∀ {s₀ s : Race Unit} {turns : List Turn},
      exec 2 (fun _ _ => true) turns s₀ = some s → Run (Steps 2) s₀ turns s :=
    fun hexec => (run_of_exec hexec).mono fun _ _ _ h => h.1
  refine ⟨⟨_, s₁, sel₁, hrun hexec₁, hfork₁, hcpu₁, hcount₁⟩,
    ⟨_, s₂, sel₂, hrun hexec₂, hfork₂, hcpu₂, hfree₂, hcount₂⟩,
    ⟨_, s₃, hrun hexec₃, hcpu₃, by decide⟩, fun hall => ?_⟩
  have hstart : Start 2 (sample 2 7 1 .running (.killCheck 1)) :=
    sample_start (by decide) (by decide) nofun (Or.inl rfl)
  have hone := ((hall _ hstart).queue _ s₁ sel₁ (hrun hexec₁) hfork₁ hcpu₁).1
  rw [hcount₁] at hone
  cases hone

/-- The same two tasks and fork: `A` takes its lock while `B` is in its removal and appends behind
it, so the queue ends up with tasks `0` and `2`. -/
theorem no_lost_update_two_tasks :
    NoLostUpdate (SeparateSteps 2) 2 (sample 2 7 1 .running (.killCheck 1)) ∧
    ∃ turns s, Run (SeparateSteps 2) (sample 2 7 1 .running (.killCheck 1)) turns s ∧
      s.fork = .done ∧ s.cpu = .done (some 2) ∧
      (List.range s.rq.total).map s.rq.runQueue = [0, 2] := by
  have hstart : Start 2 (sample 2 7 1 .running (.killCheck 1)) :=
    sample_start (by decide) (by decide) nofun (Or.inl rfl)
  obtain ⟨s, hexec, hfork, hcpu, hqueue⟩ : ∃ s, exec 2 separate
      (List.replicate 7 .cpu ++ List.replicate 2 (.fork true) ++ List.replicate 2 .cpu ++
        List.replicate 4 (.fork true) ++ List.replicate 6 .cpu)
        (sample 2 7 1 .running (.killCheck 1)) = some s ∧
      s.fork = .done ∧ s.cpu = .done (some 2) ∧
      (List.range s.rq.total).map s.rq.runQueue = [0, 2] :=
    ⟨_, rfl, rfl, rfl, rfl⟩
  have hrun : Run (SeparateSteps 2) _ _ s :=
    (run_of_exec hexec).mono fun _ _ _ h => ⟨h.1, separate_sound h.2⟩
  exact ⟨no_lost_update_of_separate hstart, _, s, hrun, hfork, hcpu, hqueue⟩

end Race

end Nctuos
