import Nctuos.Layout
import Nctuos.Lib.Except
import Mathlib.Logic.Function.Basic

/-!
# Tasks, run queues and CPUs

The data of `kernel/task.h`, `kernel/cpu.h` and `inc/trap.h`: trap frames, the
task table `tasks[NR_TASKS]`, the per-CPU run queues and the CPU records.  Arrays
are functions on indices, so that a store at a wrong index, or a read of a stale
entry beyond `total`, means in the model what it means in C.

The kernel is generic in the memory subsystem: `Vm M D` lists the operations of
`kernel/mem.c` that `kernel/task.c` calls, over a memory state `M` and a type `D`
of page directories.  Each may stop the machine (`Stop`): `panic` is `_panic`,
`fault` a load or store through a NULL or unmapped pointer, `hang` the endless
loop of `page_fault_handler`.
-/

namespace Nctuos

/-- How a kernel routine stops instead of returning. -/
inductive Stop
  | panic (msg : String)
  | fault
  | hang
  deriving DecidableEq, Repr

/-! ## Trap frames -/

/-- `struct Trapframe`, with the registers of `struct PushRegs` in line and the
padding left out. -/
structure Trapframe where
  regEdi : BitVec 32 := 0
  regEsi : BitVec 32 := 0
  regEbp : BitVec 32 := 0
  regOesp : BitVec 32 := 0
  regEbx : BitVec 32 := 0
  regEdx : BitVec 32 := 0
  regEcx : BitVec 32 := 0
  regEax : BitVec 32 := 0
  tfEs : BitVec 16 := 0
  tfDs : BitVec 16 := 0
  tfTrapno : BitVec 32 := 0
  tfErr : BitVec 32 := 0
  tfEip : BitVec 32 := 0
  tfCs : BitVec 16 := 0
  tfEflags : BitVec 32 := 0
  tfEsp : BitVec 32 := 0
  tfSs : BitVec 16 := 0
  deriving DecidableEq, Repr

def tPgflt : Nat := 14
def tSyscall : Nat := 48
def irqOffset : Nat := 32
def irqTimer : Nat := 0
def irqKbd : Nat := 1

def gdUt : BitVec 16 := 0x18
def gdUd : BitVec 16 := 0x20

/-- The frame `task_create` gives a new task: zeroed, user segments, and the
stack pointer one page below the top of the user stack. -/
def Trapframe.fresh : Trapframe where
  tfCs := gdUt ||| 0x03
  tfDs := gdUd ||| 0x03
  tfEs := gdUd ||| 0x03
  tfSs := gdUd ||| 0x03
  tfEsp := BitVec.ofNat 32 (ustacktop - pgSize)

/-! ## Tasks and CPUs -/

inductive TaskState
  | free
  | runnable
  | running
  | sleep
  | stop
  deriving DecidableEq, Repr

/-- The `Task` structure; `pgdir` is `none` for the NULL pointer. -/
structure Task (D : Type) where
  taskId : Nat
  parentId : Nat
  tf : Trapframe
  /-- An `int32_t`: kept in range by `wrap32`. -/
  remindTicks : Int
  state : TaskState
  pgdir : Option D

/-- A task slot after `task_init`'s `memset`. -/
def Task.zero (D : Type) : Task D where
  taskId := 0
  parentId := 0
  tf := {}
  remindTicks := 0
  state := .free
  pgdir := none

/-- The per-CPU `Runqueue`. -/
structure Runqueue where
  total : Nat
  currentIndex : Nat
  runQueue : Nat → Nat

/-- `memset(&cpu_rq, 0, sizeof cpu_rq)`. -/
def Runqueue.zero : Runqueue := ⟨0, 0, fun _ => 0⟩

/-- The part of `struct CpuInfo` the scheduler uses.  `cpuTask` is an index into
`tasks`, or `none` for NULL. -/
structure CpuInfo where
  cpuId : Nat
  cpuTask : Option Nat
  cpuRq : Runqueue

/-- What `mp_init` finds out about the machine before the scheduler starts, with
the two user entry points the linker provides. -/
structure Boot where
  ncpu : Nat
  /-- The index of `bootcpu` in `cpus`. -/
  bootcpu : Nat
  userEntry : BitVec 32
  idleEntry : BitVec 32
  ncpu_le : ncpu ≤ ncpuMax
  bootcpu_lt : bootcpu < ncpu

/-! ## The memory subsystem, as `kernel/task.c` sees it -/

/-- The operations of `kernel/mem.c` behind `task_create`, `sys_fork`,
`task_free` and the two page-count system calls, and what the processor makes of a
directory. -/
structure Vm (M D : Type) where
  /-- `setupkvm()`; `none` is its NULL. -/
  setupkvm : M → Except Stop (Option D × M)
  /-- One turn of `task_create`'s stack loop: `page_alloc` and `page_insert` at
  the given address.  `false` is the `return -1` inside the loop. -/
  stackPage : D → Nat → M → Except Stop (Bool × M)
  /-- One turn of `sys_fork`'s stack copy, parent directory first. -/
  copyPage : D → D → Nat → M → Except Stop M
  /-- The four `setupvm` calls for the user program. -/
  mapUser : D → M → Except Stop M
  /-- `page_remove(pgdir, va)`. -/
  pageRemove : D → Nat → M → Except Stop M
  ptableRemove : D → M → Except Stop M
  pgdirRemove : D → M → Except Stop M
  sysGetNumFreePage : M → BitVec 32
  sysGetNumUsedPage : M → BitVec 32
  /-- Whether the processor finds a page at this address, with the directory in `cr3`. -/
  mapped : D → BitVec 32 → M → Bool

/-- The state the kernel's entry points act on. -/
structure Kernel (M D : Type) where
  tasks : Nat → Task D
  cpus : Nat → CpuInfo
  jiffies : Nat
  mem : M

/-! ## Small updates -/

/-- Conversion to `int32_t`. -/
def wrap32 (x : Int) : Int := (x + 2 ^ 31) % 2 ^ 32 - 2 ^ 31

theorem wrap32_of_mem {x : Int} (h₁ : -2 ^ 31 ≤ x) (h₂ : x < 2 ^ 31) : wrap32 x = x := by
  simp only [wrap32]
  omega

namespace Kernel

variable {M D : Type}

/-- Rewrite the record of one task. -/
def modTask (k : Kernel M D) (p : Nat) (f : Task D → Task D) : Kernel M D :=
  { k with tasks := Function.update k.tasks p (f (k.tasks p)) }

/-- Rewrite the record of one CPU. -/
def modCpu (k : Kernel M D) (c : Nat) (f : CpuInfo → CpuInfo) : Kernel M D :=
  { k with cpus := Function.update k.cpus c (f (k.cpus c)) }

def setMem (k : Kernel M D) (m : M) : Kernel M D := { k with mem := m }

@[simp] theorem setMem_tasks (k : Kernel M D) (m : M) : (k.setMem m).tasks = k.tasks := rfl

@[simp] theorem setMem_cpus (k : Kernel M D) (m : M) : (k.setMem m).cpus = k.cpus := rfl

@[simp] theorem setMem_mem (k : Kernel M D) (m : M) : (k.setMem m).mem = m := rfl

@[simp] theorem modTask_cpus (k : Kernel M D) (p : Nat) (f : Task D → Task D) :
    (k.modTask p f).cpus = k.cpus := rfl

@[simp] theorem modTask_mem (k : Kernel M D) (p : Nat) (f : Task D → Task D) :
    (k.modTask p f).mem = k.mem := rfl

@[simp] theorem modCpu_tasks (k : Kernel M D) (c : Nat) (f : CpuInfo → CpuInfo) :
    (k.modCpu c f).tasks = k.tasks := rfl

@[simp] theorem modCpu_mem (k : Kernel M D) (c : Nat) (f : CpuInfo → CpuInfo) :
    (k.modCpu c f).mem = k.mem := rfl

@[simp] theorem modTask_same (k : Kernel M D) (p : Nat) (f : Task D → Task D) :
    (k.modTask p f).tasks p = f (k.tasks p) := by
  simp [modTask]

theorem modTask_other (k : Kernel M D) {p q : Nat} (f : Task D → Task D) (h : q ≠ p) :
    (k.modTask p f).tasks q = k.tasks q := by
  simp [modTask, h]

@[simp] theorem modCpu_same (k : Kernel M D) (c : Nat) (f : CpuInfo → CpuInfo) :
    (k.modCpu c f).cpus c = f (k.cpus c) := by
  simp [modCpu]

theorem modCpu_other (k : Kernel M D) {c d : Nat} (f : CpuInfo → CpuInfo) (h : d ≠ c) :
    (k.modCpu c f).cpus d = k.cpus d := by
  simp [modCpu, h]

end Kernel

end Nctuos
