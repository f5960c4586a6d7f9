import Nctuos.Boot

/-!
# The scheduler for one CPU

`kernel/sched.c` of `lab5`, with the entry points that call it: `SYS_sleep` and `SYS_kill` of
`kernel/syscall.c`, `sys_kill` and `sys_fork` of `kernel/task.c` and `timer_handler` of
`kernel/timer.c`, behind `trap_dispatch` of `kernel/trap.c`.  There are ten tasks and no run
queues.  Tasks, trap frames and what the kernel needs of the memory are those of `Task`.

`sched_yield` never returns.  It looks at the other tasks one after the other, and if none of them
is runnable then it goes on with the current one, whatever its state is.  The timer makes the
current task runnable first; a task that sleeps or is killed is not.  So the scheduler goes on with
a task that sleeps, or with the page directory of one that has been freed, exactly when these calls
are made with no other task runnable (`resumes_runnable_iff`).
-/

namespace Nctuos.Lab5

open Lib

variable {M D : Type}

/-! ## The model -/

/-- `NR_TASKS`. -/
def nrTasks : Nat := 10

/-- The kernel; `curTask` is the index of `cur_task`, or `none` for NULL. -/
structure Kernel (M D : Type) where
  tasks : Nat → Task D
  curTask : Option Nat
  jiffies : Nat
  mem : M

namespace Kernel

def modTask (k : Kernel M D) (p : Nat) (f : Task D → Task D) : Kernel M D :=
  { k with tasks := Function.update k.tasks p (f (k.tasks p)) }

def setMem (k : Kernel M D) (m : M) : Kernel M D := { k with mem := m }

/-- The end of `sched_yield`: the task `p` is the current one and has a new quantum. -/
def switchTo (k : Kernel M D) (p : Nat) : Kernel M D :=
  { k.modTask p fun t => { t with state := .running, remindTicks := timeQuant } with
    curTask := some p }

@[simp] theorem modTask_same (k : Kernel M D) (p : Nat) (f : Task D → Task D) :
    (k.modTask p f).tasks p = f (k.tasks p) := Function.update_self ..

theorem modTask_other (k : Kernel M D) {p q : Nat} (f : Task D → Task D) (h : q ≠ p) :
    (k.modTask p f).tasks q = k.tasks q := Function.update_of_ne h ..

@[simp] theorem switchTo_same (k : Kernel M D) (p : Nat) : (k.switchTo p).tasks p =
    { k.tasks p with state := .running, remindTicks := timeQuant } := Function.update_self ..

theorem switchTo_other (k : Kernel M D) {p q : Nat} (h : q ≠ p) :
    (k.switchTo p).tasks q = k.tasks q := Function.update_of_ne h ..

end Kernel

/-- The loop of `sched_yield` from `i` on, for a current task with this id. -/
def scan (state : Nat → TaskState) (id : Nat) : Nat → Nat → Except Stop (Option Nat)
  | 0, _ => .error .hang
  | n + 1, i =>
      if i = id then .ok none
      else if state i = .runnable then .ok (some i)
      else scan state id n (if i = nrTasks - 1 then 0 else i + 1)

/-- The state in which `sched_yield` was entered, and the task that it switched to. -/
structure Switch (M D : Type) where
  entered : Kernel M D
  task : Nat

/-- `sched_yield`.  A NULL page directory makes `PADDR` panic. -/
def schedYield (k : Kernel M D) : Except Stop (Switch M D × Kernel M D) :=
  match k.curTask with
  | none => .error .fault
  | some c => do
      let id := (k.tasks c).taskId
      let found ← scan (fun p => (k.tasks p).state) id nrTasks ((id + 1) % nrTasks)
      let nextPid := found.getD id
      match (k.tasks nextPid).pgdir with
      | none => .error (.panic "PADDR called with invalid kva 00000000")
      | some _ => .ok (⟨k, nextPid⟩, k.switchTo nextPid)

/-- The first free slot. -/
def findFree (tasks : Nat → Task D) : Option Nat :=
  (List.range nrTasks).find? fun pid => (tasks pid).state = .free

/-- `task_create`; `none` is `-1`. -/
def taskCreate (vm : Vm M D) (k : Kernel M D) : Except Stop (Option Nat × Kernel M D) :=
  match findFree k.tasks with
  | none => .ok (none, k)
  | some pid => do
      let (pgdir, m) ← vm.setupkvm k.mem
      match pgdir with
      | none => .error (.panic "Not enough memory for per process page directory!\n")
      | some pgdir => do
          let (done, m) ← setupStack vm pgdir stackVas m
          let k := (k.modTask pid fun t => { t with pgdir := some pgdir }).setMem m
          if done then
            let parentId := match k.curTask with
              | some p => (k.tasks p).taskId
              | none => 0
            .ok (some pid, k.modTask pid fun t =>
              { t with
                tf := .fresh
                taskId := pid
                parentId := parentId
                remindTicks := timeQuant
                state := .runnable })
          else .ok (none, k)

/-- `sys_kill(pid)`: the switch, if it makes one. -/
def sysKill (vm : Vm M D) (k : Kernel M D) (pid : Nat) :
    Except Stop (Option (Switch M D) × Kernel M D) :=
  if 0 < pid ∧ pid < nrTasks then do
    let m ← taskFree vm (k.tasks pid).pgdir k.mem
    let (sw, k) ← schedYield ((k.modTask pid fun t => { t with state := .free }).setMem m)
    .ok (some sw, k)
  else .ok (none, k)

/-- Steps 2 to 5 of `sys_fork`, for the current task `p`. -/
def copyParent (vm : Vm M D) (k : Kernel M D) (p pid : Nat) : Except Stop (Kernel M D) :=
  let k := k.modTask pid fun t => { t with tf := (k.tasks p).tf }
  match (k.tasks p).pgdir, (k.tasks pid).pgdir with
  | some parent, some child => do
      let m ← stackVas.foldlM (fun m va => vm.copyPage parent child va m) k.mem
      let m ← vm.mapUser child m
      let k := k.setMem m
      let k := k.modTask p fun t => { t with tf := { t.tf with regEax := BitVec.ofNat 32 pid } }
      .ok (k.modTask pid fun t => { t with tf := { t.tf with regEax := 0 } })
  | _, _ => .error .fault

/-- `sys_fork`; `none` is `-1`. -/
def sysFork (vm : Vm M D) (k : Kernel M D) : Except Stop (Option Nat × Kernel M D) := do
  let (pid, k) ← taskCreate vm k
  match pid, k.curTask with
  | none, _ => .ok (none, k)
  | some pid, none => .ok (some pid, k)
  | some pid, some p => do
      let k ← copyParent vm k p pid
      .ok (some pid, k)

/-- The sleeper loop of `timer_handler`. -/
def tickSleepers (k : Kernel M D) : Kernel M D :=
  { k with tasks := fun p => if p < nrTasks then tickSleeper (k.tasks p) else k.tasks p }

/-- `timer_handler`: the switch, if it makes one. -/
def timerHandler (k : Kernel M D) : Except Stop (Option (Switch M D) × Kernel M D) :=
  let k := { k with jiffies := k.jiffies + 1 }
  match k.curTask with
  | none => .ok (none, k)
  | some c =>
      let k := tickSleepers k
      let k := k.modTask c fun t => { t with remindTicks := wrap32 (t.remindTicks - 1) }
      if (k.tasks c).remindTicks ≤ 0 then do
        let (sw, k) ← schedYield (k.modTask c fun t => { t with state := .runnable })
        .ok (some sw, k)
      else .ok (none, k)

/-- `task_init`: the first task is running the user program. -/
def taskInit (vm : Vm M D) (userEntry : BitVec 32) (m : M) : Except Stop (Kernel M D) := do
  let (pid, k) ← taskCreate vm ⟨fun _ => Task.zero D, none, 0, m⟩
  match pid with
  | none => .error .fault
  | some i =>
      let k := { k with curTask := some i }
      match (k.tasks i).pgdir with
      | none => .error .fault
      | some pgdir => do
          let m ← vm.mapUser pgdir k.mem
          .ok ((k.setMem m).modTask i fun t =>
            { t with tf := { t.tf with tfEip := userEntry }, state := .running })

/-- What the kernel is entered for. -/
inductive Entry where
  | fork
  | sleep
  | kill
  | timer
  deriving DecidableEq, Repr

/-- The processor was in user mode. -/
def fromUser (tf : Trapframe) : Prop := tf.tfCs &&& 3 = 3

instance (tf : Trapframe) : Decidable (fromUser tf) := inferInstanceAs (Decidable (_ = _))

/-- `cur_task->tf = *tf` in `trap_dispatch`.  A frame from kernel mode stays on the stack. -/
def saveFrame (k : Kernel M D) (c : Nat) (tf : Trapframe) : Kernel M D :=
  if fromUser tf then k.modTask c fun t => { t with tf := tf } else k

/-- `tf->tf_regs.reg_eax = …` in `syscall_handler`, after a call that has returned. -/
def setEax (k : Kernel M D) (c : Nat) (tf : Trapframe) (retVal : BitVec 32) : Kernel M D :=
  if fromUser tf then k.modTask c fun t => { t with tf := { t.tf with regEax := retVal } } else k

/-- `trap_dispatch` with the frame `tf`, as far as the three system calls and the timer. -/
def trapDispatch (vm : Vm M D) (k : Kernel M D) (tf : Trapframe) (entry : Entry) :
    Except Stop (Option (Switch M D) × Kernel M D) :=
  match k.curTask with
  | none => .error .fault
  | some c =>
      let k := saveFrame k c tf
      match entry with
      | .fork => do
          let (pid, k) ← sysFork vm k
          let retVal := match pid with
            | some pid => BitVec.ofNat 32 pid
            | none => -1
          .ok (none, setEax k c tf retVal)
      | .sleep => do
          -- `a1` is in `edx`
          let (sw, k) ← schedYield (k.modTask c fun t =>
            { t with remindTicks := tf.regEdx.toInt, state := .sleep })
          .ok (some sw, k)
      | .kill => do
          let (sw, k) ← sysKill vm k (k.tasks c).taskId
          match sw with
          | some sw => .ok (some sw, k)
          | none => .ok (none, setEax k c tf 0)
      | .timer => timerHandler k

/-- One entry, with the switch that was made in it. -/
structure Event (M D : Type) where
  tf : Trapframe
  entry : Entry
  switch : Option (Switch M D)

def Step (vm : Vm M D) (k : Kernel M D) (ev : Event M D) (k' : Kernel M D) : Prop :=
  trapDispatch vm k ev.tf ev.entry = .ok (ev.switch, k')

/-! ## The task table -/

/-- The current task and every task that is not free know their index and have a page directory. -/
def Named (k : Kernel M D) : Prop :=
  ∀ p, p < nrTasks → k.curTask = some p ∨ (k.tasks p).state ≠ .free →
    (k.tasks p).taskId = p ∧ (k.tasks p).pgdir.isSome

/-- The kernel while the task `c` is the current one. -/
structure Sane (k : Kernel M D) (c : Nat) : Prop where
  current : k.curTask = some c
  lt : c < nrTasks
  named : Named k

variable {vm : Vm M D} {k k' : Kernel M D} {c p : Nat} {f : Task D → Task D}

theorem Named.modTask (h : Named k)
    (hf : p < nrTasks → k.curTask = some p ∨ (f (k.tasks p)).state ≠ .free →
      (f (k.tasks p)).taskId = p ∧ (f (k.tasks p)).pgdir.isSome) :
    Named (k.modTask p f) := by
  intro q hq hcur
  by_cases hqp : q = p
  · subst hqp
    rw [Kernel.modTask_same] at hcur ⊢
    exact hf hq hcur
  · rw [Kernel.modTask_other _ _ hqp] at hcur ⊢
    exact h q hq hcur

/-- A change that keeps the index and the page directory, and does not bring a free task back. -/
theorem Named.keep (h : Named k) (hid : ∀ t, (f t).taskId = t.taskId)
    (hdir : ∀ t, (f t).pgdir = t.pgdir)
    (hstate : k.curTask = some p ∨ ∀ t, (f t).state ≠ .free → t.state ≠ .free) :
    Named (k.modTask p f) := by
  refine h.modTask fun hp hcur => ?_
  rw [hid, hdir]
  refine h p hp ?_
  rcases hstate with hc | hstate
  · exact Or.inl hc
  · exact hcur.imp_right (hstate _)

theorem Named.setTf (h : Named k) (p : Nat) (g : Trapframe → Trapframe) :
    Named (k.modTask p fun t => { t with tf := g t.tf }) :=
  h.keep (fun _ => rfl) (fun _ => rfl) (Or.inr fun _ ht => ht)

theorem Named.setMem (h : Named k) (m : M) : Named (k.setMem m) := h

theorem Named.switchTo (h : Named k) (hp : k.curTask = some p ∨ (k.tasks p).state ≠ .free) :
    Named (k.switchTo p) := by
  intro q hq hcur
  by_cases hqp : q = p
  · subst hqp
    rw [Kernel.switchTo_same]
    exact h q hq hp
  · rw [Kernel.switchTo_other k hqp] at hcur ⊢
    refine h q hq (Or.inr ?_)
    rcases hcur with hcur | hcur
    · exact absurd (Option.some.inj hcur).symm hqp
    · exact hcur

/-! ## What `sched_yield` does -/

/-- Some other task is runnable. -/
def OtherRunnable (k : Kernel M D) (c : Nat) : Prop :=
  ∃ q, q < nrTasks ∧ q ≠ c ∧ (k.tasks q).state = .runnable

/-- The `n` turns from the `j`-th task after the current one on. -/
theorem scan_from {state : Nat → TaskState} {id : Nat} (hid : id < nrTasks) {n j : Nat}
    (hj : j < nrTasks) (hn : n + j = nrTasks) :
    (∃ p, scan state id n ((id + 1 + j) % nrTasks) = .ok (some p) ∧ p < nrTasks ∧ p ≠ id ∧
        state p = .runnable) ∨
      scan state id n ((id + 1 + j) % nrTasks) = .ok none ∧
        ∀ o, j ≤ o → o < nrTasks - 1 → state ((id + 1 + o) % nrTasks) ≠ .runnable := by
  induction n generalizing j with
  | zero => omega
  | succ n ih =>
      rw [scan]
      by_cases hlast : (id + 1 + j) % nrTasks = id
      · -- the loop is through: the current task is the last of the ten
        rw [if_pos hlast]
        refine Or.inr ⟨rfl, fun o ho ho' => ?_⟩
        unfold nrTasks at *
        omega
      · rw [if_neg hlast]
        by_cases hrun : state ((id + 1 + j) % nrTasks) = .runnable
        · rw [if_pos hrun]
          exact Or.inl ⟨_, rfl, Nat.mod_lt _ (by decide), hlast, hrun⟩
        · have hnext : (if (id + 1 + j) % nrTasks = nrTasks - 1 then 0
              else (id + 1 + j) % nrTasks + 1) = (id + 1 + (j + 1)) % nrTasks := by
            unfold nrTasks at *
            split <;> omega
          have hj' : j + 1 < nrTasks := by
            unfold nrTasks at *
            omega
          rw [if_neg hrun, hnext]
          refine (ih hj' (by omega)).imp_right fun ⟨hnone, hrest⟩ => ⟨hnone, fun o ho ho' => ?_⟩
          rcases Nat.eq_or_lt_of_le ho with rfl | hlt
          · exact hrun
          · exact hrest o hlt ho'

/-- The loop ends: with a task that is runnable, or after it has seen all the others. -/
theorem scan_ok (state : Nat → TaskState) {id : Nat} (hid : id < nrTasks) :
    (∃ p, scan state id nrTasks ((id + 1) % nrTasks) = .ok (some p) ∧ p < nrTasks ∧ p ≠ id ∧
        state p = .runnable) ∨
      scan state id nrTasks ((id + 1) % nrTasks) = .ok none ∧
        ∀ p, p < nrTasks → p ≠ id → state p ≠ .runnable := by
  refine (scan_from hid (show 0 < nrTasks by decide) rfl).imp_right fun ⟨hnone, hrest⟩ => ?_
  refine ⟨hnone, fun p hp hne => ?_⟩
  -- `p` is so many tasks after `id`
  have hp' : (id + 1 + (p + nrTasks - (id + 1)) % nrTasks) % nrTasks = p := by
    unfold nrTasks at *
    omega
  rw [← hp']
  refine hrest _ (Nat.zero_le _) ?_
  unfold nrTasks at *
  omega

/-- `sched_yield` always switches to a task, and this one is runnable only if there was one. -/
theorem Sane.schedYield_ok (h : Sane k c) :
    ∃ p, schedYield k = .ok (⟨k, p⟩, k.switchTo p) ∧ Sane (k.switchTo p) p ∧
      ((k.tasks p).state = .runnable ↔ (k.tasks c).state = .runnable ∨ OtherRunnable k c) := by
  obtain ⟨hid, hdir⟩ := h.named c h.lt (Or.inl h.current)
  rcases scan_ok (fun p => (k.tasks p).state) h.lt with ⟨p, hscan, hp, hne, hrun⟩ | ⟨hscan, hrest⟩
  · have hfree : (k.tasks p).state ≠ .free := by
      rw [show (k.tasks p).state = .runnable from hrun]
      decide
    obtain ⟨d, hd⟩ := Option.isSome_iff_exists.mp (h.named p hp (Or.inr hfree)).2
    refine ⟨p, ?_, ⟨rfl, hp, h.named.switchTo (Or.inr hfree)⟩, ?_⟩
    · simp only [schedYield, h.current, hid, hscan, ok_bind, Option.getD_some, hd]
    · exact iff_of_true hrun (Or.inr ⟨p, hp, hne, hrun⟩)
  · obtain ⟨d, hd⟩ := Option.isSome_iff_exists.mp hdir
    refine ⟨c, ?_, ⟨rfl, h.lt, h.named.switchTo (Or.inl h.current)⟩, ?_⟩
    · simp only [schedYield, h.current, hid, hscan, ok_bind, Option.getD_none, hd]
    · refine (or_iff_left ?_).symm
      rintro ⟨q, hq, hne, hrun⟩
      exact hrest q hq hne hrun

theorem Sane.of_schedYield {sw : Switch M D} (h : Sane k c) (hy : schedYield k = .ok (sw, k')) :
    Sane k' sw.task ∧ ((sw.entered.tasks sw.task).state = .runnable ↔
      (k.tasks c).state = .runnable ∨ OtherRunnable k c) := by
  obtain ⟨p, hp, hsane, hiff⟩ := h.schedYield_ok
  rw [hp] at hy
  cases hy
  exact ⟨hsane, hiff⟩

/-! ## What the entries do -/

/-- `task_create` keeps the table, and a task that it has made is runnable. -/
theorem Named.taskCreate {r : Option Nat} (h : Named k) (hc : taskCreate vm k = .ok (r, k')) :
    Named k' ∧ k'.curTask = k.curTask ∧
      ∀ pid, r = some pid → pid < nrTasks ∧ (k'.tasks pid).state = .runnable := by
  unfold Lab5.taskCreate at hc
  cases hfree : findFree k.tasks with
  | none =>
      rw [hfree] at hc
      cases hc
      exact ⟨h, rfl, by rintro _ ⟨⟩⟩
  | some pid =>
      simp only [hfree, bind_ok_iff] at hc
      obtain ⟨⟨d, m⟩, -, hc⟩ := hc
      cases d with
      | none => cases hc
      | some d =>
          simp only [bind_ok_iff] at hc
          obtain ⟨⟨done, m'⟩, -, hc⟩ := hc
          -- a slot whose stack could not be built is free still, but has a page directory
          have hdir : Named (k.modTask pid fun t => { t with pgdir := some d }) :=
            h.modTask fun hp hcur => ⟨(h pid hp hcur).1, rfl⟩
          cases done with
          | false =>
              cases hc
              exact ⟨hdir.setMem m', rfl, by rintro _ ⟨⟩⟩
          | true =>
              cases hc
              refine ⟨(hdir.setMem m').modTask fun _ _ => ⟨rfl, ?_⟩, rfl, ?_⟩
              · simp [Kernel.setMem]
              · rintro _ ⟨⟩
                refine ⟨List.mem_range.mp (List.mem_of_find?_eq_some hfree), ?_⟩
                rw [Kernel.modTask_same]

theorem Named.copyParent {pid : Nat} (h : Named k) (hc : copyParent vm k p pid = .ok k') :
    Named k' ∧ k'.curTask = k.curTask := by
  unfold Lab5.copyParent at hc
  have htf : Named (k.modTask pid fun t => { t with tf := (k.tasks p).tf }) :=
    h.setTf pid fun _ => (k.tasks p).tf
  dsimp only at hc
  split at hc
  · simp only [bind_ok_iff] at hc
    obtain ⟨m, -, m', -, hc⟩ := hc
    cases hc
    have hparent := (htf.setMem m').setTf p fun tf => { tf with regEax := BitVec.ofNat 32 pid }
    exact ⟨hparent.setTf pid fun tf => { tf with regEax := 0 }, rfl⟩
  · cases hc

theorem Sane.sysFork {r : Option Nat} (h : Sane k c) (hf : sysFork vm k = .ok (r, k')) :
    Sane k' c := by
  simp only [Lab5.sysFork, bind_ok_iff] at hf
  obtain ⟨⟨pid, k₁⟩, hcreate, hf⟩ := hf
  obtain ⟨hnamed, hcur, -⟩ := h.named.taskCreate hcreate
  rw [h.current] at hcur
  cases pid with
  | none =>
      cases hf
      exact ⟨hcur, h.lt, hnamed⟩
  | some pid =>
      simp only [hcur, bind_ok_iff] at hf
      obtain ⟨k₂, hcopy, hf⟩ := hf
      cases hf
      obtain ⟨hnamed', hcur'⟩ := hnamed.copyParent hcopy
      exact ⟨hcur'.trans hcur, h.lt, hnamed'⟩

/-- A change of the current task that keeps its index and its page directory. -/
theorem Sane.modCurrent (h : Sane k c) (hid : ∀ t, (f t).taskId = t.taskId)
    (hdir : ∀ t, (f t).pgdir = t.pgdir) : Sane (k.modTask c f) c :=
  ⟨h.current, h.lt, h.named.keep hid hdir (Or.inl h.current)⟩

theorem Sane.saveFrame (h : Sane k c) (tf : Trapframe) : Sane (saveFrame k c tf) c := by
  unfold Lab5.saveFrame
  split
  · exact h.modCurrent (fun _ => rfl) fun _ => rfl
  · exact h

theorem saveFrame_state (k : Kernel M D) (c : Nat) (tf : Trapframe) (q : Nat) :
    ((saveFrame k c tf).tasks q).state = (k.tasks q).state := by
  unfold saveFrame
  split
  · by_cases hq : q = c
    · subst hq
      rw [Kernel.modTask_same]
    · rw [Kernel.modTask_other _ _ hq]
  · rfl

theorem Sane.setEax (h : Sane k c) (tf : Trapframe) (retVal : BitVec 32) :
    Sane (setEax k c tf retVal) c := by
  unfold Lab5.setEax
  split
  · exact h.modCurrent (fun _ => rfl) fun _ => rfl
  · exact h

theorem Sane.tickSleepers (h : Sane k c) : Sane (tickSleepers k) c := by
  have htick : ∀ t : Task D, (tickSleeper t).taskId = t.taskId ∧ (tickSleeper t).pgdir = t.pgdir ∧
      ((tickSleeper t).state ≠ .free → t.state ≠ .free) := by
    intro t
    unfold tickSleeper
    split
    · rename_i hsleep
      refine ⟨rfl, rfl, fun _ => ?_⟩
      rw [hsleep]
      decide
    · exact ⟨rfl, rfl, id⟩
  refine ⟨h.current, h.lt, fun p hp hcur => ?_⟩
  have htask : (Lab5.tickSleepers k).tasks p = tickSleeper (k.tasks p) := if_pos hp
  obtain ⟨hid, hdir, hstate⟩ := htick (k.tasks p)
  rw [htask] at hcur ⊢
  rw [hid, hdir]
  exact h.named p hp (hcur.imp_right hstate)

/-- The entry takes the processor from the task `c` and leaves it asleep or free. -/
def Leaves (entry : Entry) (c : Nat) : Prop := entry = .sleep ∨ entry = .kill ∧ c ≠ 0

/-- `k₁` is a state in which `sched_yield` can be entered, on an entry in the state `k`. -/
structure YieldsIn (k k₁ : Kernel M D) (entry : Entry) (c : Nat) : Prop where
  sane : Sane k₁ c
  runnable_iff : (k₁.tasks c).state = .runnable ↔ ¬ Leaves entry c
  others : Leaves entry c → ∀ q, q ≠ c → (k₁.tasks q).state = (k.tasks q).state

/-- The current task gets a state in which it is not runnable, and the others keep theirs. -/
theorem YieldsIn.of_modCurrent {k₀ : Kernel M D} {entry : Entry} (h : Sane k c)
    (hsame : ∀ q, (k.tasks q).state = (k₀.tasks q).state) (hid : ∀ t, (f t).taskId = t.taskId)
    (hdir : ∀ t, (f t).pgdir = t.pgdir) (hstate : ∀ t, (f t).state ≠ .runnable)
    (hleaves : Leaves entry c) : YieldsIn k₀ (k.modTask c f) entry c where
  sane := h.modCurrent hid hdir
  runnable_iff := by
    rw [Kernel.modTask_same]
    exact iff_of_false (hstate _) (not_not_intro hleaves)
  others _ q hq := by
    rw [Kernel.modTask_other _ _ hq]
    exact hsame q

theorem YieldsIn.setMem {k₁ : Kernel M D} {entry : Entry} (h : YieldsIn k k₁ entry c) (m : M) :
    YieldsIn k (k₁.setMem m) entry c :=
  ⟨⟨h.sane.current, h.sane.lt, h.sane.named⟩, h.runnable_iff, h.others⟩

theorem Sane.timerHandler {k₀ : Kernel M D} {out : Option (Switch M D)} (h : Sane k c)
    (ht : timerHandler k = .ok (out, k')) :
    (out = none ∧ Sane k' c) ∨
      ∃ k₁ sw, out = some sw ∧ schedYield k₁ = .ok (sw, k') ∧ YieldsIn k₀ k₁ .timer c := by
  have hleaves : ¬ Leaves .timer c := by simp [Leaves]
  have htick : Sane (Lab5.tickSleepers { k with jiffies := k.jiffies + 1 }) c :=
    Sane.tickSleepers ⟨h.current, h.lt, h.named⟩
  have hquant : Sane ((Lab5.tickSleepers { k with jiffies := k.jiffies + 1 }).modTask c fun t =>
      { t with remindTicks := wrap32 (t.remindTicks - 1) }) c :=
    htick.modCurrent (fun _ => rfl) fun _ => rfl
  unfold Lab5.timerHandler at ht
  dsimp only at ht
  split at ht
  · rename_i hnone
    cases h.current.symm.trans hnone
  · rename_i c' hc'
    cases h.current.symm.trans hc'
    split at ht
    · simp only [bind_ok_iff] at ht
      obtain ⟨⟨sw, k₂⟩, hy, ht⟩ := ht
      cases ht
      refine Or.inr ⟨_, sw, rfl, hy, ?_, ?_, fun hl => absurd hl hleaves⟩
      · exact hquant.modCurrent (fun _ => rfl) fun _ => rfl
      · rw [Kernel.modTask_same]
        exact iff_of_true rfl hleaves
    · cases ht
      exact Or.inl ⟨rfl, hquant⟩

/-- An entry either goes back to the current task, which has not left the processor, or enters
`sched_yield`. -/
theorem Sane.trapDispatch {tf : Trapframe} {entry : Entry} {out : Option (Switch M D)}
    (h : Sane k c) (hd : trapDispatch vm k tf entry = .ok (out, k')) :
    (out = none ∧ Sane k' c ∧ ¬ Leaves entry c) ∨
      ∃ k₁ sw, out = some sw ∧ schedYield k₁ = .ok (sw, k') ∧ YieldsIn k k₁ entry c := by
  have hsaved := h.saveFrame tf
  have hstate := saveFrame_state k c tf
  simp only [Lab5.trapDispatch, h.current] at hd
  cases entry with
  | fork =>
      simp only [bind_ok_iff] at hd
      obtain ⟨⟨pid, k₁⟩, hfork, hd⟩ := hd
      cases hd
      exact Or.inl ⟨rfl, (hsaved.sysFork hfork).setEax tf _, by simp [Leaves]⟩
  | sleep =>
      simp only [bind_ok_iff] at hd
      obtain ⟨⟨sw, k₁⟩, hy, hd⟩ := hd
      cases hd
      refine Or.inr ⟨_, sw, rfl, hy, ?_⟩
      exact .of_modCurrent hsaved hstate (fun _ => rfl) (fun _ => rfl) (fun _ => by simp)
        (Or.inl rfl)
  | kill =>
      rw [(hsaved.named c h.lt (Or.inl hsaved.current)).1] at hd
      simp only [bind_ok_iff] at hd
      obtain ⟨⟨sw, k₁⟩, hkill, hd⟩ := hd
      unfold sysKill at hkill
      by_cases hc : c = 0
      · -- the first task is not killed
        rw [if_neg fun hpid => hpid.1.ne' hc] at hkill
        cases hkill
        cases hd
        exact Or.inl ⟨rfl, hsaved.setEax tf 0, by simp [Leaves, hc]⟩
      · rw [if_pos ⟨Nat.pos_of_ne_zero hc, h.lt⟩] at hkill
        simp only [bind_ok_iff] at hkill
        obtain ⟨m, -, ⟨sw', k₂⟩, hy, hkill⟩ := hkill
        cases hkill
        cases hd
        refine Or.inr ⟨_, sw', rfl, hy, ?_⟩
        refine YieldsIn.setMem ?_ m
        exact .of_modCurrent hsaved hstate (fun _ => rfl) (fun _ => rfl) (fun _ => by simp)
          (Or.inr ⟨rfl, hc⟩)
  | timer =>
      rcases hsaved.timerHandler hd with ⟨hout, hsane⟩ | hyields
      · exact Or.inl ⟨hout, hsane, by simp [Leaves]⟩
      · exact Or.inr hyields

theorem sane_of_taskInit {userEntry : BitVec 32} {m : M} (h : taskInit vm userEntry m = .ok k) :
    ∃ c, Sane k c := by
  -- before the first task there is none that the table would have to name
  have hempty : Named (⟨fun _ => Task.zero D, none, 0, m⟩ : Kernel M D) := by
    rintro p - (hcur | hstate)
    · cases hcur
    · exact absurd rfl hstate
  simp only [taskInit, bind_ok_iff] at h
  obtain ⟨⟨pid, k₁⟩, hcreate, h⟩ := h
  obtain ⟨hnamed, -, hmade⟩ := hempty.taskCreate hcreate
  cases pid with
  | none => cases h
  | some i =>
      obtain ⟨hlt, hrun⟩ := hmade i rfl
      have hcurrent : Sane { k₁ with curTask := some i } i := by
        refine ⟨rfl, hlt, fun p hp hcur => hnamed p hp (Or.inr ?_)⟩
        rcases hcur with hcur | hstate
        · cases hcur
          rw [hrun]
          decide
        · exact hstate
      dsimp only at h
      split at h
      · cases h
      · simp only [bind_ok_iff] at h
        obtain ⟨m', -, h⟩ := h
        cases h
        have hmem : Sane (({ k₁ with curTask := some i } : Kernel M D).setMem m') i :=
          ⟨rfl, hlt, hcurrent.named.setMem m'⟩
        exact ⟨i, hmem.modCurrent (fun _ => rfl) fun _ => rfl⟩

/-! ## Runs -/

/-- A task that the entry switches to was runnable when `sched_yield` was entered. -/
def Event.ResumesRunnable (ev : Event M D) : Prop :=
  ∀ sw ∈ ev.switch, (sw.entered.tasks sw.task).state = .runnable

/-- If the entry leaves the current task asleep or free, then another one is runnable. -/
def Relieved (k : Kernel M D) (entry : Entry) : Prop :=
  ∀ c, k.curTask = some c → Leaves entry c → OtherRunnable k c

/-- One entry keeps the table, and resumes a runnable task exactly if the current one is
relieved. -/
theorem Sane.step {ev : Event M D} (h : Sane k c) (hs : Step vm k ev k') :
    (∃ c', Sane k' c') ∧ (ev.ResumesRunnable ↔ Relieved k ev.entry) := by
  obtain ⟨tf, entry, out⟩ := ev
  have hrelieved : Relieved k entry ↔ (Leaves entry c → OtherRunnable k c) := by
    refine ⟨fun hr => hr c h.current, fun hr c' hc' => ?_⟩
    cases h.current.symm.trans hc'
    exact hr
  rw [hrelieved]
  rcases h.trapDispatch hs with ⟨hout, hsane, hstays⟩ | ⟨k₁, sw, hout, hy, hyields⟩
  · dsimp only at hout
    subst hout
    exact ⟨⟨c, hsane⟩, iff_of_true (fun _ hsw => absurd hsw (Option.not_mem_none _))
      fun hl => absurd hl hstays⟩
  · dsimp only at hout
    subst hout
    obtain ⟨hsane, hiff⟩ := hyields.sane.of_schedYield hy
    refine ⟨⟨sw.task, hsane⟩, ?_⟩
    have hswitch : Event.ResumesRunnable ⟨tf, entry, some sw⟩ ↔
        (sw.entered.tasks sw.task).state = .runnable :=
      ⟨fun hr => hr sw rfl, fun hr sw' hsw' => Option.some.inj hsw' ▸ hr⟩
    rw [hswitch, hiff, hyields.runnable_iff]
    by_cases hl : Leaves entry c
    · -- the others have not changed since the entry
      have hothers : OtherRunnable k₁ c ↔ OtherRunnable k c := by
        refine exists_congr fun q => and_congr_right fun _ => and_congr_right fun hq => ?_
        rw [hyields.others hl q hq]
      rw [hothers, or_iff_right (not_not_intro hl), imp_iff_right hl]
    · exact iff_of_true (Or.inl hl) fun hl' => absurd hl' hl

theorem Sane.run {evs : List (Event M D)} (h : Sane k c) (hrun : Run (Step vm) k evs k') :
    (∀ ev ∈ evs, ev.ResumesRunnable) ↔
      Run (fun k ev k' => Step vm k ev k' ∧ Relieved k ev.entry) k evs k' := by
  induction hrun generalizing c with
  | nil k => exact iff_of_true (fun _ hev => absurd hev List.not_mem_nil) (.nil k)
  | cons hd tl ih =>
      obtain ⟨⟨c', h'⟩, hiff⟩ := h.step hd
      rw [List.forall_mem_cons, hiff, ih h']
      constructor
      · rintro ⟨hr, htl⟩
        exact .cons ⟨hd, hr⟩ htl
      · intro hrun
        obtain ⟨t, ⟨hd', hr⟩, htl⟩ := Run.cons_iff.mp hrun
        -- an entry with its switch has one state that it leads to
        cases Except.ok.inj (hd.symm.trans hd')
        exact ⟨hr, htl⟩

/-- **The scheduler resumes runnable tasks only, as long as somebody can take over.**  In a run from
`task_init`, every task that `sched_yield` switches to was runnable when it was entered, if and
only if another task was runnable whenever the current one went to sleep or, not being the first,
killed itself. -/
theorem resumes_runnable_iff {userEntry : BitVec 32} {m : M} {k₀ : Kernel M D}
    {evs : List (Event M D)} (hinit : taskInit vm userEntry m = .ok k₀)
    (hrun : Run (Step vm) k₀ evs k) :
    (∀ ev ∈ evs, ev.ResumesRunnable) ↔
      Run (fun k ev k' => Step vm k ev k' ∧ Relieved k ev.entry) k₀ evs k := by
  obtain ⟨c, hsane⟩ := sane_of_taskInit hinit
  exact hsane.run hrun

/-! ## Two runs -/

/-- The entries of a script, one after the other. -/
def play (vm : Vm M D) : List (Entry × Trapframe) → Kernel M D →
    Except Stop (List (Event M D) × Kernel M D)
  | [], k => .ok ([], k)
  | (entry, tf) :: script, k => do
      let (sw, k) ← trapDispatch vm k tf entry
      let (evs, k) ← play vm script k
      .ok (⟨tf, entry, sw⟩ :: evs, k)

theorem run_of_play {script : List (Entry × Trapframe)} {evs : List (Event M D)}
    (h : play vm script k = .ok (evs, k')) : Run (Step vm) k evs k' := by
  induction script generalizing k evs with
  | nil =>
      cases h
      exact .nil _
  | cons trap script ih =>
      simp only [play, bind_ok_iff] at h
      obtain ⟨⟨sw, k₁⟩, hstep, ⟨evs', k₂⟩, hrest, h⟩ := h
      cases h
      exact .cons hstep (ih hrest)

/-- The entry, with the task that was resumed and its state before. -/
def Event.report (ev : Event M D) : Entry × Option (Nat × TaskState) :=
  (ev.entry, ev.switch.map fun sw => (sw.task, (sw.entered.tasks sw.task).state))

theorem resumesRunnable_iff_report {evs : List (Event M D)} :
    (∀ ev ∈ evs, ev.ResumesRunnable) ↔
      ∀ r ∈ evs.map Event.report, ∀ x ∈ r.2, x.2 = TaskState.runnable := by
  rw [List.forall_mem_map]
  refine forall₂_congr fun ev _ => ⟨?_, fun h sw hsw => h _ (Option.mem_map_of_mem _ hsw)⟩
  intro h x hx
  obtain ⟨sw, hsw, rfl⟩ := Option.mem_map.mp hx
  exact h sw hsw

/-- The script, from `task_init` on, is reported so. -/
def reports (vm : Vm M D) (m : M) (script : List (Entry × Trapframe))
    (expected : List (Entry × Option (Nat × TaskState))) : Bool :=
  match taskInit vm 0 m >>= play vm script with
  | .error _ => false
  | .ok (evs, _) => decide (evs.map Event.report = expected)

theorem exists_run_of_reports {m : M} {script : List (Entry × Trapframe)}
    {expected : List (Entry × Option (Nat × TaskState))}
    (h : reports vm m script expected = true) :
    ∃ k₀ evs k, taskInit vm 0 m = .ok k₀ ∧ Run (Step vm) k₀ evs k ∧
      evs.map Event.report = expected := by
  unfold reports at h
  split at h
  · cases h
  · rename_i evs k hplay
    obtain ⟨k₀, hinit, hplay⟩ := bind_ok_iff.mp hplay
    exact ⟨k₀, evs, k, hinit, run_of_play hplay, of_decide_eq_true h⟩

/-- The frame of a system call with the argument `a1`. -/
def callFrame (a1 : BitVec 32) : Trapframe := { Trapframe.fresh with regEdx := a1 }

/-- The first task forks and sleeps for one tick while the child runs; the child kills itself after
the tick, and the first task is resumed. -/
theorem resumes_runnable_iff_child :
    ∃ (k₀ k : Kernel Unit Unit) (evs : List (Event Unit Unit)),
      taskInit .unlimited 0 () = .ok k₀ ∧
      evs.map Event.report = [(.fork, none), (.sleep, some (1, .runnable)), (.timer, none),
        (.kill, some (0, .runnable))] ∧
      Run (fun k ev k' => Step .unlimited k ev k' ∧ Relieved k ev.entry) k₀ evs k := by
  obtain ⟨k₀, evs, k, hinit, hrun, hreport⟩ := exists_run_of_reports
    (show reports .unlimited () [(.fork, callFrame 0), (.sleep, callFrame 1),
      (.timer, callFrame 0), (.kill, callFrame 0)] [(.fork, none), (.sleep, some (1, .runnable)),
        (.timer, none), (.kill, some (0, .runnable))] = true by decide +kernel)
  refine ⟨k₀, k, evs, hinit, hreport, (resumes_runnable_iff hinit hrun).mp ?_⟩
  rw [resumesRunnable_iff_report, hreport]
  decide

/-- The first task alone: `SYS_sleep(5)` resumes it at once, asleep.  With a child that kills itself
while the first task sleeps, the child is resumed, though it is free and its page directory has
been given back. -/
theorem resumes_sleeping_and_free :
    (∃ (k₀ k : Kernel Unit Unit) (evs : List (Event Unit Unit)),
      taskInit .unlimited 0 () = .ok k₀ ∧ Run (Step .unlimited) k₀ evs k ∧
      evs.map Event.report = [(.sleep, some (0, .sleep))] ∧
      ¬ ∀ ev ∈ evs, ev.ResumesRunnable) ∧
    ∃ (k₀ k : Kernel Unit Unit) (evs : List (Event Unit Unit)),
      taskInit .unlimited 0 () = .ok k₀ ∧ Run (Step .unlimited) k₀ evs k ∧
      evs.map Event.report =
        [(.fork, none), (.sleep, some (1, .runnable)), (.kill, some (1, .free))] ∧
      ¬ ∀ ev ∈ evs, ev.ResumesRunnable := by
  constructor
  · obtain ⟨k₀, evs, k, hinit, hrun, hreport⟩ := exists_run_of_reports
      (show reports .unlimited () [(.sleep, callFrame 5)] [(.sleep, some (0, .sleep))] = true by
        decide +kernel)
    refine ⟨k₀, k, evs, hinit, hrun, hreport, ?_⟩
    rw [resumesRunnable_iff_report, hreport]
    decide
  · obtain ⟨k₀, evs, k, hinit, hrun, hreport⟩ := exists_run_of_reports
      (show reports .unlimited () [(.fork, callFrame 0), (.sleep, callFrame 5),
        (.kill, callFrame 0)] [(.fork, none), (.sleep, some (1, .runnable)),
          (.kill, some (1, .free))] = true by decide +kernel)
    refine ⟨k₀, k, evs, hinit, hrun, hreport, ?_⟩
    rw [resumesRunnable_iff_report, hreport]
    decide

end Nctuos.Lab5
