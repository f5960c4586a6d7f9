import Nctuos.Task

/-!
# The scheduler and its system calls

`kernel/sched.c`, `kernel/timer.c`, the scheduling half of `kernel/task.c`, the
dispatch of `kernel/syscall.c` and `trap_dispatch` of `kernel/trap.c`, each as one
atomic function on the kernel state of the CPU `c` it runs on.

`sched_yield` leaves its caller for good when it finds a runnable task (the context
switch ends in `iret`) and returns when it finds none.  `schedYield` therefore answers
with the task switched to, or `none` when it returned; every caller passes that
answer on, and `trapDispatch` turns it into what the CPU resumes: the frame of the
task switched to, or, after a handler that returned, the frame the trap was taken
from.
-/

namespace Nctuos

open Lib

variable {M D : Type}

/-! ## `kernel/sched.c` -/

/-- The loop of `sched_yield`, `n` turns from index `rqIdx`: the index of the first
runnable entry, if there is one. -/
def scan (state : Nat → TaskState) (rq : Runqueue) : Nat → Nat → Option Nat
  | 0, _ => none
  | n + 1, rqIdx =>
      let rqIdx := (rqIdx + 1) % rq.total
      if state (rq.runQueue rqIdx) = .runnable then some rqIdx
      else scan state rq n rqIdx

/-- Where `sched_yield` starts looking: after the current entry, or after entry `0`
once `cpu_task` is NULL. -/
def yieldStart (cpu : CpuInfo) : Nat :=
  if cpu.cpuTask.isSome then cpu.cpuRq.currentIndex else 0

/-- The run-queue index `sched_yield` picks on a CPU. -/
def pick (state : Nat → TaskState) (cpu : CpuInfo) : Option Nat :=
  scan state cpu.cpuRq cpu.cpuRq.total (yieldStart cpu)

/-- `sched_yield`: the task switched to, or `none` if it returned. -/
def schedYield (k : Kernel M D) (c : Nat) : Option Nat × Kernel M D :=
  match pick (fun p => (k.tasks p).state) (k.cpus c) with
  | none => (none, k)
  | some rqIdx =>
      let nextPid := (k.cpus c).cpuRq.runQueue rqIdx
      (some nextPid,
        (k.modTask nextPid fun t =>
            { t with state := .running, remindTicks := timeQuant }).modCpu c fun cpu =>
          { cpu with
            cpuTask := some nextPid
            cpuRq := { cpu.cpuRq with currentIndex := rqIdx } })

/-! ## `kernel/timer.c` -/

/-- One turn of the sleeper loop of `timer_handler`. -/
def tickSleeper (t : Task D) : Task D :=
  if t.state = .sleep then
    let r := wrap32 (t.remindTicks - 1)
    { t with remindTicks := r, state := if r ≤ 0 then .runnable else .sleep }
  else t

/-- The sleeper loop of `timer_handler`, over the entries of the run queue. -/
def tickSleepers (tasks : Nat → Task D) (rq : Runqueue) : Nat → Task D :=
  (List.range rq.total).foldl
    (fun ts i => Function.update ts (rq.runQueue i) (tickSleeper (ts (rq.runQueue i)))) tasks

/-- The bookkeeping of `timer_handler` for the current task `p`: the sleepers of the
queue, then the quantum of `p`. -/
def tickAll (k : Kernel M D) (c p : Nat) : Kernel M D :=
  Kernel.modTask { k with tasks := tickSleepers k.tasks (k.cpus c).cpuRq } p fun t =>
    { t with remindTicks := wrap32 (t.remindTicks - 1) }

/-- `timer_handler`. -/
def timerHandler (k : Kernel M D) (c : Nat) : Option Nat × Kernel M D :=
  let k := { k with jiffies := k.jiffies + 1 }
  match (k.cpus c).cpuTask with
  | none => (none, k)
  | some p =>
      let k := tickAll k c p
      if (k.tasks p).remindTicks ≤ 0 then
        schedYield (k.modTask p fun t => { t with state := .runnable }) c
      else (none, k)

/-! ## `kernel/task.c` -/

/-- The stack loop of `task_create`. -/
def setupStack (vm : Vm M D) (pgdir : D) : List Nat → M → Except Stop (Bool × M)
  | [], m => .ok (true, m)
  | va :: vas, m => do
      let r ← vm.stackPage pgdir va m
      if r.1 then setupStack vm pgdir vas r.2 else .ok (false, r.2)

/-- The first free slot of the task table. -/
def findFree (tasks : Nat → Task D) : Option Nat :=
  (List.range nrTasks).find? fun pid => (tasks pid).state = .free

/-- `task_create`; `none` is `-1`. -/
def taskCreate (vm : Vm M D) (k : Kernel M D) (c : Nat) :
    Except Stop (Option Nat × Kernel M D) :=
  match findFree k.tasks with
  | none => .ok (none, k)
  | some pid => do
      let r ← vm.setupkvm k.mem
      match r.1 with
      | none => .error (.panic "Not enough memory for per process page directory!\n")
      | some pgdir =>
          let s ← setupStack vm pgdir stackVas r.2
          let k := (k.modTask pid fun t => { t with pgdir := some pgdir }).setMem s.2
          if s.1 then
            let parentId := match (k.cpus c).cpuTask with
              | some p => (k.tasks p).taskId
              | none => 0
            .ok (some pid, k.modTask pid fun t =>
              { t with
                tf := .fresh
                taskId := pid
                parentId := parentId
                remindTicks := timeQuant
                state := .runnable })
          else .ok (none, k)

/-- `task_free`: unmap the user stack, then give back the page tables and the page
directory. -/
def taskFree (vm : Vm M D) (pgdir : Option D) (m : M) : Except Stop M :=
  match pgdir with
  | none => .error .fault
  | some pgdir => do
      let m ← stackVas.foldlM (fun m va => vm.pageRemove pgdir va m) m
      let m ← vm.ptableRemove pgdir m
      vm.pgdirRemove pgdir m

/-- The index of `pid` in the live part of a run queue. -/
def findIndex (rq : Runqueue) (pid : Nat) : Option Nat :=
  (List.range rq.total).find? fun i => rq.runQueue i = pid

/-- The queue removal of `sys_kill`: the last entry takes the place of `pid`. -/
def Runqueue.remove (rq : Runqueue) (pid : Nat) : Runqueue :=
  match findIndex rq pid with
  | none => rq
  | some i =>
      { rq with
        total := rq.total - 1
        runQueue := Function.update rq.runQueue i (rq.runQueue (rq.total - 1)) }

/-- Task `pid` taken off CPU `c`'s queue and its slot freed, with the memory `m` that
`task_free` leaves. -/
def reap (k : Kernel M D) (c pid : Nat) (m : M) : Kernel M D :=
  ((k.modCpu c fun cpu => { cpu with cpuRq := cpu.cpuRq.remove pid }).modTask pid
    fun t => { t with state := .free }).setMem m

/-- `sys_kill(pid)`: the task switched to, or `none` if it returned. -/
def sysKill (vm : Vm M D) (k : Kernel M D) (c pid : Nat) :
    Except Stop (Option Nat × Kernel M D) :=
  if 0 < pid ∧ pid < nrTasks ∧ 1 < (k.cpus c).cpuRq.total then do
    let m ← taskFree vm (k.tasks pid).pgdir k.mem
    let k := reap k c pid m
    match (k.cpus c).cpuTask with
    | none => .error .fault
    | some p =>
        if (k.tasks p).taskId = pid then
          .ok (schedYield (k.modCpu c fun cpu => { cpu with cpuTask := none }) c)
        else .ok (none, k)
  else .ok (none, k)

/-- The CPU `sys_fork` dispatches to: the first one with the least `total`, looked
for below `NR_TASKS`. -/
def leastLoaded (b : Boot) (cpus : Nat → CpuInfo) : Nat :=
  ((List.range b.ncpu).foldl
    (fun acc i => if (cpus i).cpuRq.total < acc.1 then ((cpus i).cpuRq.total, i) else acc)
    (nrTasks, 0)).2

/-- `runQueue[total++] = pid`. -/
def Runqueue.append (rq : Runqueue) (pid : Nat) : Runqueue :=
  { rq with
    total := rq.total + 1
    runQueue := Function.update rq.runQueue rq.total pid }

/-- Steps 2 to 5 of `sys_fork`: the child `pid` becomes a copy of its parent `p`. -/
def copyParent (vm : Vm M D) (k : Kernel M D) (p pid : Nat) :
    Except Stop (Kernel M D) :=
  let k := k.modTask pid fun t => { t with tf := (k.tasks p).tf }
  match (k.tasks p).pgdir, (k.tasks pid).pgdir with
  | some parent, some child => do
      let m ← stackVas.foldlM (fun m va => vm.copyPage parent child va m) k.mem
      let m ← vm.mapUser child m
      let k := k.setMem m
      let k := k.modTask p fun t => { t with tf := { t.tf with regEax := BitVec.ofNat 32 pid } }
      .ok (k.modTask pid fun t => { t with tf := { t.tf with regEax := 0 } })
  | _, _ => .error .fault

/-- The copy `sys_fork` makes when the CPU has a current task. -/
def copyCurrent (vm : Vm M D) (k : Kernel M D) (c pid : Nat) : Except Stop (Kernel M D) :=
  match (k.cpus c).cpuTask with
  | none => .ok k
  | some p => copyParent vm k p pid

/-- `sys_fork`; `none` is `-1`. -/
def sysFork (vm : Vm M D) (b : Boot) (k : Kernel M D) (c : Nat) :
    Except Stop (Option Nat × Kernel M D) := do
  let r ← taskCreate vm k c
  match r.1 with
  | none => .ok (none, r.2)
  | some pid =>
      let k ← copyCurrent vm r.2 c pid
      .ok (some pid, k.modCpu (leastLoaded b k.cpus) fun cpu =>
        { cpu with cpuRq := cpu.cpuRq.append pid })

/-! ## Bringing the CPUs up -/

/-- `task_init_percpu`.  The index `-1` that a failed `task_create` would make of
`tasks[i]` is a fault. -/
def taskInitPercpu (vm : Vm M D) (b : Boot) (k : Kernel M D) (c : Nat) :
    Except Stop (Kernel M D) := do
  let r ← taskCreate vm k c
  match r.1 with
  | none => .error .fault
  | some i =>
      let k := r.2.modCpu c fun cpu => { cpu with cpuTask := some i }
      match (k.tasks i).pgdir with
      | none => .error .fault
      | some pgdir =>
          let m ← vm.mapUser pgdir k.mem
          let k := k.setMem m
          let k := k.modTask i fun t =>
            { t with
              tf := { t.tf with tfEip := if c = b.bootcpu then b.userEntry else b.idleEntry }
              state := .running }
          .ok (k.modCpu c fun cpu =>
            { cpu with
              cpuRq := { total := 1, currentIndex := 0,
                         runQueue := Function.update Runqueue.zero.runQueue 0 i } })

/-- The order in which the CPUs run `task_init_percpu`: the boot CPU from
`task_init`, then the others as `boot_aps` starts them. -/
def Boot.order (b : Boot) : List Nat :=
  b.bootcpu :: (List.range b.ncpu).filter fun c => c ≠ b.bootcpu

/-- The kernel before the first `task_init_percpu`: every task slot free, every CPU
record as `mp_init` left it. -/
def Kernel.init (m : M) : Kernel M D where
  tasks := fun _ => Task.zero D
  cpus := fun c => ⟨c, none, .zero⟩
  jiffies := 0
  mem := m

/-- The kernel after every CPU has run `task_init_percpu`. -/
def bootAll (vm : Vm M D) (b : Boot) (m : M) : Except Stop (Kernel M D) :=
  b.order.foldlM (fun k c => taskInitPercpu vm b k c) (Kernel.init m)

/-! ## System calls and traps -/

/-- The system calls of `inc/syscall.h`, in the order of their numbers. -/
inductive Syscall
  | puts
  | getc
  | getpid
  | getcid
  | fork
  | kill
  | sleep
  | getNumUsedPage
  | getNumFreePage
  | getTicks
  | settextcolor
  | cls
  deriving DecidableEq, Repr

def Syscall.all : List Syscall :=
  [.puts, .getc, .getpid, .getcid, .fork, .kill, .sleep, .getNumUsedPage, .getNumFreePage,
    .getTicks, .settextcolor, .cls]

/-- The call a number in `eax` asks for. -/
def Syscall.ofNo (no : BitVec 32) : Option Syscall := Syscall.all[no.toNat]?

/-- How `do_syscall` ends: it returns a value, or `sched_yield` left for another
task and nothing returns. -/
inductive Outcome
  | returned (retVal : BitVec 32)
  | switched (pid : Nat)
  deriving DecidableEq, Repr

def Outcome.ofYield : Option Nat → Outcome
  | some pid => .switched pid
  | none => .returned 0

/-- The loads of `do_puts`, `n` turns from `str` on; what it prints is not part of this
state.  Without a page at `str[i]` there is a page fault, and `page_fault_handler` never
returns. -/
def putsFrom (vm : Vm M D) (pgdir : D) (m : M) : Nat → BitVec 32 → Except Stop Unit
  | 0, _ => .ok ()
  | n + 1, str =>
      if vm.mapped pgdir str m then putsFrom vm pgdir m n (str + 1) else .error .hang

/-- `do_puts` called by task `p`, whose directory is in `cr3`. -/
def putsLoads (vm : Vm M D) (k : Kernel M D) (p : Nat) (str len : BitVec 32) : Except Stop Unit :=
  match (k.tasks p).pgdir with
  | none => .error .fault
  | some pgdir => putsFrom vm pgdir k.mem len.toNat str

/-- `do_syscall`.  `key` is what the console hands to `SYS_getc`; the calls that only
write to the screen leave this state alone. -/
def doSyscall (vm : Vm M D) (b : Boot) (k : Kernel M D) (c : Nat)
    (no a1 a2 key : BitVec 32) : Except Stop (Outcome × Kernel M D) :=
  match (k.cpus c).cpuTask with
  | none => .error .fault
  | some p =>
      match Syscall.ofNo no with
      | some .fork => do
          let r ← sysFork vm b k c
          .ok (.returned (match r.1 with
            | some pid => BitVec.ofNat 32 pid
            | none => -1), r.2)
      | some .getc => .ok (.returned key, k)
      | some .puts => do
          putsLoads vm k p a1 a2
          .ok (.returned 0, k)
      | some .getpid => .ok (.returned (BitVec.ofNat 32 (k.tasks p).taskId), k)
      | some .getcid => .ok (.returned (BitVec.ofNat 32 (k.cpus c).cpuId), k)
      | some .sleep =>
          let r := schedYield (k.modTask p fun t =>
            { t with remindTicks := a1.toInt, state := .sleep }) c
          .ok (.ofYield r.1, r.2)
      | some .kill => do
          let r ← sysKill vm k c (k.tasks p).taskId
          .ok (.ofYield r.1, r.2)
      | some .getNumFreePage => .ok (.returned (vm.sysGetNumFreePage k.mem), k)
      | some .getNumUsedPage => .ok (.returned (vm.sysGetNumUsedPage k.mem), k)
      | some .getTicks => .ok (.returned (BitVec.ofNat 32 k.jiffies), k)
      | some .settextcolor => .ok (.returned 0, k)
      | some .cls => .ok (.returned 0, k)
      | none => .ok (.returned (-1), k)

/-- What a CPU resumes in user mode when it leaves the kernel. -/
structure Resume where
  pid : Nat
  tf : Trapframe
  deriving DecidableEq, Repr

/-- The frame `env_pop_tf` is called with, in the kernel state it leaves behind. -/
def resume (k : Kernel M D) (pid : Nat) : Resume := ⟨pid, (k.tasks pid).tf⟩

/-- `syscall_handler` on the saved frame of task `p`. -/
def syscallHandler (vm : Vm M D) (b : Boot) (k : Kernel M D) (c p : Nat)
    (key : BitVec 32) : Except Stop (Resume × Kernel M D) := do
  let tf := (k.tasks p).tf
  let r ← doSyscall vm b k c tf.regEax tf.regEdx tf.regEcx key
  match r.1 with
  | .switched q => .ok (resume r.2 q, r.2)
  | .returned retVal =>
      let k := r.2.modTask p fun t => { t with tf := { t.tf with regEax := retVal } }
      .ok (resume k p, k)

/-- `trap_dispatch` for a trap from user mode on CPU `c` with frame `tf`: the frame
is copied to `cpu_task->tf`, which faults when `cpu_task` is NULL, and the registered
handler runs on the copy. -/
def trapDispatch (vm : Vm M D) (b : Boot) (k : Kernel M D) (c : Nat) (tf : Trapframe)
    (key : BitVec 32) : Except Stop (Resume × Kernel M D) :=
  match (k.cpus c).cpuTask with
  | none => .error .fault
  | some p =>
      let k := k.modTask p fun t => { t with tf := tf }
      if tf.tfTrapno.toNat = tSyscall then syscallHandler vm b k c p key
      else if tf.tfTrapno.toNat = irqOffset + irqTimer then
        let r := timerHandler k c
        .ok (resume r.2 (r.1.getD p), r.2)
      else if tf.tfTrapno.toNat = irqOffset + irqKbd then .ok (resume k p, k)
      else if tf.tfTrapno.toNat = tPgflt then .error .hang
      else .error (.panic "Unexpected trap!")

/-- One kernel entry: the CPU, the frame the hardware and `_alltraps` pushed, the key
the console would deliver, and what the CPU resumed at the end. -/
structure Entry where
  cpu : Nat
  tf : Trapframe
  key : BitVec 32
  resumed : Resume

/-- A kernel entry as one atomic step. -/
def Step (vm : Vm M D) (b : Boot) (k : Kernel M D) (e : Entry) (k' : Kernel M D) : Prop :=
  e.cpu < b.ncpu ∧ trapDispatch vm b k e.cpu e.tf e.key = .ok (e.resumed, k')

end Nctuos
