import Nctuos.Exit
import Nctuos.Frames

/-!
# Entering and leaving the kernel

Up to here a kernel entry was one atomic step.  Here a CPU enters through a gate first
and saves its trap frame later.  A trap gate leaves interrupts on, so between the entry
of a system call and the `cli` of `trap_dispatch` a timer interrupt may be taken in
kernel mode; the frame of the system call is then still on the kernel stack and nowhere
else.  If that interrupt ends the task's quantum, `timer_handler` calls `sched_yield`,
which leaves the stack for good and resumes whatever `cpu_task->tf` held *before*.

`Machine` carries, for each task, the registers it has to be resumed with: those of its
latest entry into the kernel, with `eax` replaced by the result once there is one.
`ResumesWhereTrapped` compares every resumption with that.  It fails
(`quantum_ends_before_cli`), and it holds when no tick in the window ends a quantum
(`QuantumLeft`) and no killed task goes on for want of another one (`KillLeavesOther`,
the condition of `Nctuos.Exit`).  One call never delivers its result: a `SYS_sleep` that
switches away leaves its number in `eax`, so the literal property also needs that no
`SYS_sleep` does (`SleepStays`); what is resumed otherwise is the saved frame with `eax`
as it was.
-/

namespace Nctuos

open Lib

variable {M D : Type}

/-! ## Gates -/

inductive Gate
  | trap
  | interrupt
  deriving DecidableEq, Repr

/-- The gates of the IDT: `timer_init` and `kbd_init` register interrupt gates,
everything else (`syscall_init`, `trap_init`) is a trap gate. -/
def gateOf (trapno : BitVec 32) : Gate :=
  if trapno.toNat = irqOffset + irqTimer ∨ trapno.toNat = irqOffset + irqKbd then .interrupt
  else .trap

/-- A hardware interrupt, taken only while interrupts are enabled. -/
def IsIrq (trapno : BitVec 32) : Prop := irqOffset ≤ trapno.toNat ∧ trapno.toNat < irqOffset + 16

instance (trapno : BitVec 32) : Decidable (IsIrq trapno) :=
  inferInstanceAs (Decidable (_ ∧ _))

/-- `FL_IF` in `eflags`. -/
def Trapframe.intEnabled (tf : Trapframe) : Bool := tf.tfEflags.getLsbD 9

/-! ## The machine -/

/-- Where a CPU is: in user mode in a task, with its registers; or in the kernel before
`cli`, with the pushed frame and whether interrupts are still on. -/
inductive Mode
  | user (pid : Nat) (regs : Trapframe)
  | entry (pid : Nat) (tf : Trapframe) (ints : Bool)
  deriving DecidableEq

def Mode.pid : Mode → Nat
  | .user pid _ => pid
  | .entry pid _ _ => pid

structure Machine (M D : Type) where
  k : Kernel M D
  mode : Nat → Mode
  /-- The registers each task has to be resumed with. -/
  latest : Nat → Trapframe

/-- What a CPU does next. -/
inductive Move
  /-- User instructions. -/
  | user (c : Nat) (regs : Trapframe)
  /-- A trap or interrupt in user mode. -/
  | enter (c : Nat) (trapno err : BitVec 32)
  /-- A timer interrupt in kernel mode, before `cli`. -/
  | tick (c : Nat)
  /-- `cli`, the copy of the frame, the handler and `env_pop_tf`. -/
  | dispatch (c : Nat) (key : BitVec 32)

def Move.cpu : Move → Nat
  | .user c _ => c
  | .enter c _ _ => c
  | .tick c => c
  | .dispatch c _ => c

/-- What a system call that has switched away is owed in `eax`: its result, or `none` to
leave `eax` alone. -/
def owed (sw : Option (BitVec 32)) (tf : Trapframe) : Trapframe :=
  match sw with
  | some v => { tf with regEax := v }
  | none => tf

/-- The registers to resume with, after the handler of the trap `tf` of task `p`: a
system call's caller gets the result, the child of a fork a copy with `eax` zero. -/
def settle (vm : Vm M D) (b : Boot) (sw : Option (BitVec 32)) (k : Kernel M D) (c p : Nat)
    (tf : Trapframe) (key : BitVec 32) (latest : Nat → Trapframe) : Nat → Trapframe :=
  if tf.tfTrapno.toNat = tSyscall then
    match doSyscall vm b (k.modTask p fun t => { t with tf := tf }) c tf.regEax tf.regEdx tf.regEcx
      key with
    | .ok (.returned v, _) =>
        let latest := Function.update latest p { tf with regEax := v }
        if Syscall.ofNo tf.regEax = some .fork ∧ v ≠ -1 then
          Function.update latest v.toNat { tf with regEax := 0 }
        else latest
    | .ok (.switched _, _) => Function.update latest p (owed sw tf)
    | .error _ => latest
  else Function.update latest p tf

/-- One step of the machine; `none` when the move is not possible or the kernel stops. -/
def Machine.step (vm : Vm M D) (b : Boot) (sw : Option (BitVec 32)) (m : Machine M D) :
    Move → Option (Machine M D)
  | .user c regs =>
      match m.mode c with
      | .user p _ => some { m with mode := Function.update m.mode c (.user p regs) }
      | .entry _ _ _ => none
  | .enter c trapno err =>
      match m.mode c with
      | .user p regs =>
          if IsIrq trapno ∧ ¬ regs.intEnabled then none
          else
            let tf := { regs with tfTrapno := trapno, tfErr := err }
            let ints := regs.intEnabled && gateOf trapno = .trap
            some { m with
              mode := Function.update m.mode c (.entry p tf ints)
              latest := Function.update m.latest p tf }
      | .entry _ _ _ => none
  | .tick c =>
      match m.mode c with
      | .entry _ _ true =>
          let r := timerHandler m.k c
          match r.1 with
          | none => some { m with k := r.2 }
          | some q =>
              some { m with
                k := r.2
                mode := Function.update m.mode c (.user q (r.2.tasks q).tf) }
      | _ => none
  | .dispatch c key =>
      match m.mode c with
      | .entry p tf _ =>
          match trapDispatch vm b m.k c tf key with
          | .ok (resumed, k') =>
              some
                { k := k'
                  mode := Function.update m.mode c (.user resumed.pid resumed.tf)
                  latest := settle vm b sw m.k c p tf key m.latest }
          | .error _ => none
      | .user _ _ => none

/-- The step relation of the machine. -/
def Machine.Steps (vm : Vm M D) (b : Boot) (sw : Option (BitVec 32)) (m : Machine M D) (l : Move)
    (m' : Machine M D) : Prop := l.cpu < b.ncpu ∧ m.step vm b sw l = some m'

/-- After boot: each CPU in user mode in its first task, with any registers. -/
def Machine.boot (k₀ : Kernel M D) (regs : Nat → Trapframe) : Machine M D where
  k := k₀
  mode c := .user (initialTask k₀ c) (regs c)
  latest p := (k₀.tasks p).tf

/-- Every task is resumed where it trapped, and every system call is executed. -/
structure ResumesWhereTrapped (steps : Machine M D → Move → Machine M D → Prop)
    (m₀ : Machine M D) : Prop where
  /-- A CPU that leaves the kernel has the registers the task has to be resumed with. -/
  frame : ∀ ls m l m' c p tf ints q regs, Run steps m₀ ls m → steps m l m' →
    m.mode c = .entry p tf ints → m'.mode c = .user q regs → regs = m'.latest q
  /-- It leaves the kernel through the handler of the trap it entered with, only. -/
  executed : ∀ ls m l m' c p tf ints, Run steps m₀ ls m → steps m l m' →
    m.mode c = .entry p tf ints → m'.mode c = .entry p tf ints ∨ ∃ key, l = .dispatch c key

/-- A tick in the window leaves the current task's quantum unfinished. -/
def QuantumLeft (m : Machine M D) (l : Move) : Prop :=
  ∀ c p, l = .tick c → (m.k.cpus c).cpuTask = some p →
    0 < ((tickAll m.k c p).tasks p).remindTicks

/-- A `SYS_sleep` is not made while another task of the queue is ready to run. -/
def SleepStays (m : Machine M D) (l : Move) : Prop :=
  ∀ c key p tf ints n, l = .dispatch c key → m.mode c = .entry p tf ints →
    callOf tf = .sleep n → ¬ OtherRunnable m.k c p

/-- A `SYS_kill` that acts is made only while another task of the queue is ready to run:
the condition of `killed_stay_dead_of_yields`, without which the freed task goes on. -/
def KillLeavesOther (m : Machine M D) (l : Move) : Prop :=
  ∀ c key p tf ints, l = .dispatch c key → m.mode c = .entry p tf ints →
    callOf tf = .kill → KillActs m.k c p → OtherRunnable m.k c p

/-! ## The handler and the frames it leaves -/

section Handler

variable {vm : Vm M D} {b : Boot} {k k' : Kernel M D} {c p q : Nat} {tf : Trapframe}
  {key : BitVec 32} {res : Resume} {sw : Option (BitVec 32)} {latest : Nat → Trapframe}

/-- A system call that switches away is a `SYS_sleep` with another task to run, or a
`SYS_kill` that has freed its caller. -/
theorem doSyscall_switched {no a1 a2 : BitVec 32} {r : Nat} (hk : QueueInv b k) (hc : c < b.ncpu)
    (hp : (k.cpus c).cpuTask = some p)
    (h : doSyscall vm b k c no a1 a2 key = .ok (.switched r, k')) :
    r ≠ p ∧ ((∃ n, callOfNo no a1 = .sleep n) ∧ OtherRunnable k c p ∨
      (k'.tasks p).state = .free) := by
  have hid := hk.current_taskId hc hp
  simp only [doSyscall, hp] at h
  cases hno : Syscall.ofNo no with
  | none =>
      simp only [hno] at h
      cases h
  | some call =>
      simp only [hno] at h
      cases call with
      | fork =>
          simp only [bind_ok_iff] at h
          obtain ⟨_, -, h⟩ := h
          cases h
      | sleep =>
          rw [Except.ok.injEq, Prod.mk.injEq] at h
          rcases schedYield_spec (k := asleep k p a1) (hk.total_pos c hc) with
            ⟨heq, -⟩ | ⟨r', hr', hsw⟩
          · have hnone := h.1
            rw [show schedYield (k.modTask p fun t =>
              { t with remindTicks := a1.toInt, state := .sleep }) c = _ from heq] at hnone
            cases hnone
          · have hsome := h.1
            rw [show (schedYield (k.modTask p fun t =>
              { t with remindTicks := a1.toInt, state := .sleep }) c).1 = _ from hr'] at hsome
            cases hsome
            have hne : r ≠ p := by
              rintro rfl
              have hrun := hsw.runnable
              simp [asleep] at hrun
            refine ⟨hne, Or.inl ⟨⟨a1, by rw [callOfNo, hno]⟩, r, hsw.queued, hne, ?_⟩⟩
            have hrun := hsw.runnable
            rwa [asleep, Kernel.modTask_other _ _ hne] at hrun
      | kill =>
          simp only [bind_ok_iff] at h
          obtain ⟨⟨o, k₁⟩, hkill, h⟩ := h
          rcases sysKill_sched hp hkill with ⟨hacts, ho, hs⟩ | ⟨-, rfl, -⟩
          · rw [hid] at ho hs hacts
            rcases schedYield_spec ((hk.killed hc hp hacts.2.2).total_pos c hc) with
              ⟨heq, -⟩ | ⟨r', hr', hsw⟩
            · rw [ho, heq] at h
              cases h
            · rw [ho, hr'] at h
              cases h
              have hne := ((queued_killed_iff hk hc hp r).mp hsw.queued).2
              refine ⟨hne, Or.inr ?_⟩
              rw [← hs.state p, hsw.other p hne.symm, killed_tasks_same]
          · cases h
      | puts =>
          obtain ⟨-, -, h⟩ := bind_ok_iff.mp h
          cases h
      | _ => cases h

theorem OtherRunnable.congr (h : OtherRunnable k c p) (hs : SameSched k k') :
    OtherRunnable k' c p := by
  obtain ⟨q, ⟨i, hi, rfl⟩, hne, hrun⟩ := h
  rw [hs.cpus] at hi hne hrun
  exact ⟨_, ⟨i, hi, rfl⟩, hne, (hs.state _).symm.trans hrun⟩

/-- What the handler leaves, frame by frame, against the registers asked for.  The
caller's are in order, unless the call has switched away with a result owed. -/
structure HandlerFrames (k k' : Kernel M D) (c p : Nat) (tf : Trapframe) (res : Resume)
    (sw : Option (BitVec 32)) (latest latest' : Nat → Trapframe) : Prop where
  resumed : res.tf = (k'.tasks res.pid).tf
  other : ∀ q, q ≠ p → (k.tasks q).state ≠ .free →
    (k'.tasks q).tf = (k.tasks q).tf ∧ latest' q = latest q
  child : ∀ q, q < nrTasks → (k.tasks q).state = .free → (k'.tasks q).state ≠ .free →
    (k'.tasks q).tf = latest' q
  caller : (k'.tasks p).tf = latest' p ∨ sw ≠ none ∧ res.pid ≠ p ∧
    ((∃ n, callOf tf = .sleep n) ∧ OtherRunnable k c p ∨ (k'.tasks p).state = .free)

/-- A handler that writes no frame. -/
theorem HandlerFrames.of_quiet {k₁ : Kernel M D}
    (hk₁ : k₁ = k.modTask p fun t => { t with tf := tf })
    (htf : ∀ q, (k'.tasks q).tf = (k₁.tasks q).tf) (hres : res.tf = (k'.tasks res.pid).tf)
    (hfree : ∀ q, (k.tasks q).state = .free → (k'.tasks q).state = .free) :
    HandlerFrames k k' c p tf res sw latest (Function.update latest p tf) where
  resumed := hres
  other q hq _ := by
    rw [htf, hk₁, Kernel.modTask_other _ _ hq, Function.update_of_ne hq]
    exact ⟨rfl, rfl⟩
  child q _ hq hq' := absurd (hfree q hq) hq'
  caller := by
    left
    rw [htf, hk₁, Kernel.modTask_same, Function.update_self]

theorem trapDispatch_frames (hk : QueueInv b k) (hc : c < b.ncpu)
    (hp : (k.cpus c).cpuTask = some p) (h : trapDispatch vm b k c tf key = .ok (res, k')) :
    HandlerFrames k k' c p tf res sw latest (settle vm b sw k c p tf key latest) := by
  obtain ⟨-, p', hp', he⟩ := step_effect (e := ⟨c, tf, key, res⟩) ⟨hc, h⟩
  obtain rfl : p' = p := Option.some.inj (hp'.symm.trans hp)
  have hsave := saveFrame_sched k p' tf
  have hlive := (hk.current_live hc hp).2
  generalize hk₁ : (k.modTask p' fun t => { t with tf := tf }) = k₁ at hsave
  have hp₁ : (k₁.cpus c).cpuTask = some p' := by rw [← hsave.cpus, hp]
  have hself : (k₁.tasks p').tf = tf := by rw [← hk₁, Kernel.modTask_same]
  have hother : ∀ q, q ≠ p' → (k₁.tasks q).tf = (k.tasks q).tf := by
    intro q hq
    rw [← hk₁, Kernel.modTask_other _ _ hq]
  simp only [trapDispatch, hp, hk₁] at h
  split at h
  · rename_i hsys
    simp only [syscallHandler, bind_ok_iff, hself] at h
    obtain ⟨⟨o, k₂⟩, hcall, h⟩ := h
    have hframes := doSyscall_frames hcall hp₁ (by rwa [← hsave.state p'])
    have hkeep : ∀ q, q ≠ p' → (k.tasks q).state ≠ .free → (k₂.tasks q).tf = (k.tasks q).tf :=
      fun q hq hq' => (hframes.other q hq (by rwa [← hsave.state q])).trans (hother q hq)
    cases o with
    | returned v =>
        simp only at h
        cases h
        simp only [settle, if_pos hsys, hk₁, hcall]
        -- the child's slot is free before the call, so it is not one of the old tasks
        have hslot : Syscall.ofNo tf.regEax = some .fork ∧ v ≠ -1 →
            ∀ q, (k.tasks q).state ≠ .free → q ≠ v.toNat := by
          rintro ⟨hno, hv⟩ q hq rfl
          obtain ⟨pid, hpid, rfl⟩ := hframes.result v hno rfl hv
          rw [← hsave.findFree_congr] at hpid
          obtain ⟨hlt, hfree⟩ := findFree_some hpid
          rw [(ofNat_pid hlt).2] at hq
          exact hq hfree
        have hsettled : ∀ q, (k.tasks q).state ≠ .free →
            (if Syscall.ofNo tf.regEax = some .fork ∧ v ≠ -1 then
              Function.update (Function.update latest p' { tf with regEax := v }) v.toNat
                { tf with regEax := 0 }
            else Function.update latest p' { tf with regEax := v }) q =
              Function.update latest p' { tf with regEax := v } q := by
          intro q hq
          split
          · rename_i hfork
            rw [Function.update_of_ne (hslot hfork q hq)]
          · rfl
        refine ⟨rfl, fun q hq hq' => ?_, fun q hlt hq hq' => ?_, Or.inl ?_⟩
        · rw [hsettled q hq', Function.update_of_ne hq, Kernel.modTask_other _ _ hq]
          exact ⟨hkeep q hq hq', rfl⟩
        · rcases effect_free hk hc hp he hq with hfree | ⟨hfork, hpid, -⟩
          · exact absurd hfree hq'
          · have hqp : q ≠ p' := by
              rintro rfl
              exact hlive hq
            rw [hsave.findFree_congr] at hpid
            rw [Kernel.modTask_other _ _ hqp] at hq' ⊢
            have hno := (callOf_fork hfork).2
            obtain ⟨hv, hchild⟩ := hframes.child q hno hpid hq'
            cases hv
            rw [if_pos ⟨hno, (ofNat_pid hlt).1⟩, (ofNat_pid hlt).2, Function.update_self, hchild,
              hself]
        · rw [hsettled p' hlive, Function.update_self, Kernel.modTask_same]
          show ({ (k₂.tasks p').tf with regEax := v } : Trapframe) = _
          rw [hframes.eax v, hself]
    | switched r =>
        simp only at h
        cases h
        simp only [settle, if_pos hsys, hk₁, hcall]
        refine ⟨rfl, fun q hq hq' => ?_, fun q hlt hq hq' => ?_, ?_⟩
        · rw [Function.update_of_ne hq]
          exact ⟨hkeep q hq hq', rfl⟩
        · rcases effect_free hk hc hp he hq with hfree | ⟨hfork, hpid, -⟩
          · exact absurd hfree hq'
          · rw [hsave.findFree_congr] at hpid
            cases (hframes.child q (callOf_fork hfork).2 hpid hq').1
        · rw [Function.update_self, hframes.switched r rfl, hself]
          cases sw with
          | none => exact Or.inl rfl
          | some v =>
              obtain ⟨hne, hwhy⟩ := doSyscall_switched (hk.congr hsave) hc hp₁ hcall
              refine Or.inr ⟨Option.some_ne_none v, hne, hwhy.imp (fun hsl => ⟨?_, ?_⟩) id⟩
              · rw [callOf, if_pos hsys]
                exact hsl.1
              · exact hsl.2.congr hsave.symm
  · rename_i hsys
    simp only [settle, if_neg hsys]
    have hfree : ∀ q, (k.tasks q).state = .free → (k'.tasks q).state = .free := by
      intro q hq
      rcases effect_free hk hc hp he hq with hq' | ⟨hfork, -⟩
      · exact hq'
      · exact absurd (callOf_fork hfork).1 hsys
    split at h
    · cases h
      exact .of_quiet hk₁.symm (timerHandler_tf k₁ c) rfl hfree
    · split at h
      · cases h
        exact .of_quiet hk₁.symm (fun _ => rfl) rfl hfree
      · split at h <;> cases h

end Handler

/-! ## The invariant of the machine -/

/-- The frame of every task that is not on a CPU is the one it has to be resumed with. -/
structure MachineInv (b : Boot) (m : Machine M D) : Prop where
  queues : QueueInv b m.k
  manned : Manned b m.k
  mode : ∀ c p, c < b.ncpu → (m.k.cpus c).cpuTask = some p → (m.mode c).pid = p
  saved : ∀ q, q < nrTasks → (m.k.tasks q).state ≠ .free →
    (∀ c, c < b.ncpu → (m.k.cpus c).cpuTask ≠ some q) → (m.k.tasks q).tf = m.latest q

namespace MachineInv

variable {vm : Vm M D} {b : Boot} {sw : Option (BitVec 32)} {m : Machine M D} {c p : Nat}
  {tf : Trapframe} {key : BitVec 32}

theorem boot {mem : M} {k₀ : Kernel M D} (h : bootAll vm b mem = .ok k₀)
    (regs : Nat → Trapframe) : MachineInv b (Machine.boot k₀ regs) where
  queues := boot_queueInv h
  manned := boot_manned h
  mode c p _ hp := by
    show initialTask k₀ c = p
    rw [initialTask, show (k₀.cpus c).cpuTask = some p from hp]
    rfl
  saved _ _ _ _ := rfl

section Resumed

variable (h : MachineInv b m) (hc : c < b.ncpu)

include h hc

/-- The task a CPU is in is its `cpu_task`. -/
theorem current : (m.k.cpus c).cpuTask = some (m.mode c).pid := by
  obtain ⟨p, hp⟩ := h.manned c hc
  rw [h.mode c p hc hp, hp]

/-- A step that changes only the mode of a CPU, in the same task, and the registers that
task is owed. -/
theorem setMode {mode : Mode} (hmode : mode.pid = (m.mode c).pid) {latest : Nat → Trapframe}
    (hlatest : ∀ q, q ≠ (m.mode c).pid → latest q = m.latest q) :
    MachineInv b { m with mode := Function.update m.mode c mode, latest := latest } where
  queues := h.queues
  manned := h.manned
  mode c' p' hc' hp' := by
    by_cases hcc : c' = c
    · subst hcc
      simp only [Function.update_self]
      exact hmode.trans (h.mode c' p' hc' hp')
    · simp only [Function.update_of_ne hcc]
      exact h.mode c' p' hc' hp'
  saved q hlt hq hidle := by
    refine (h.saved q hlt hq hidle).trans (hlatest q ?_).symm
    rintro rfl
    exact hidle c hc (h.current hc)

/-- A tick that leaves the quantum unfinished only counts. -/
theorem tick_eq (hleft : QuantumLeft m (.tick c)) :
    timerHandler m.k c =
      (none, tickAll { m.k with jiffies := m.k.jiffies + 1 } c (m.mode c).pid) := by
  obtain ⟨k₁, rfl, ⟨-, heq⟩ | ⟨hend, -⟩⟩ := timer_cases h.queues hc (h.current hc)
  · exact heq
  · have hticks := hleft c _ rfl (h.current hc)
    exact absurd hend (not_le.mpr hticks)

theorem tick (hleft : QuantumLeft m (.tick c)) :
    MachineInv b { m with k := (timerHandler m.k c).2 } := by
  have htick := h.tick_eq hc hleft
  have hqueues := h.queues.timer hc (h.current hc)
  have htf := timerHandler_tf m.k c
  have hcpus : (timerHandler m.k c).2.cpus = m.k.cpus := by rw [htick]; rfl
  refine ⟨hqueues, fun c' hc' => ?_, fun c' p' hc' hp' => ?_, fun q hlt hq hidle => ?_⟩
  · rw [hcpus]
    exact h.manned c' hc'
  · rw [hcpus] at hp'
    exact h.mode c' p' hc' hp'
  · rw [hcpus] at hidle
    rw [htf]
    refine h.saved q hlt (fun hfree => hq ?_) hidle
    -- a tick frees nobody and fills no slot
    have he : Effect b m.k c (m.mode c).pid _ (timerHandler m.k c).2 .timer := ⟨rfl, .refl _⟩
    rcases effect_free h.queues hc (h.current hc) he hfree with hfree' | ⟨hfork, -⟩
    · exact hfree'
    · cases hfork

/-- What is resumed in the place of the caller was on no CPU. -/
theorem resumed_idle {q : Nat} (hq : Queued m.k c q) (hne : q ≠ (m.mode c).pid) :
    ∀ c', c' < b.ncpu → (m.k.cpus c').cpuTask ≠ some q := by
  intro c' hc' hcur
  obtain rfl := h.queues.queued_unique hc' hc (h.queues.current_queued hc' hcur) hq
  exact hne (Option.some.inj (hcur.symm.trans (h.current hc)))

end Resumed

theorem dispatch {ints : Bool} {res : Resume} {k' : Kernel M D} (h : MachineInv b m)
    (hc : c < b.ncpu) (hmode : m.mode c = .entry p tf ints)
    (hd : trapDispatch vm b m.k c tf key = .ok (res, k'))
    (hkill : KillLeavesOther m (.dispatch c key))
    (hsleep : sw ≠ none → SleepStays m (.dispatch c key)) :
    res.tf = settle vm b sw m.k c p tf key m.latest res.pid ∧
    MachineInv b
      { k := k'
        mode := Function.update m.mode c (.user res.pid res.tf)
        latest := settle vm b sw m.k c p tf key m.latest } := by
  have hcur : (m.k.cpus c).cpuTask = some p := by rw [h.current hc, hmode]; rfl
  obtain ⟨-, p', hp', he⟩ := step_effect (e := ⟨c, tf, key, res⟩) ⟨hc, hd⟩
  obtain rfl : p' = p := Option.some.inj (hp'.symm.trans hcur)
  have hframes : HandlerFrames _ _ _ _ _ _ sw m.latest _ := trapDispatch_frames h.queues hc hcur hd
  have hkill' := hkill c key p' tf ints rfl hmode
  obtain ⟨hqueued, hnow⟩ := (effect_resumed h.queues hc hcur he).imp_right fun hnow => hnow hkill'
  constructor
  · rw [hframes.resumed]
    by_cases hne : res.pid = p'
    · rcases hframes.caller with hcaller | ⟨-, haway, -⟩
      · rw [hne, hcaller]
      · exact absurd hne haway
    · obtain ⟨hlt, hlive⟩ := h.queues.queued_live hc hqueued
      obtain ⟨htf, hlatest⟩ := hframes.other _ hne hlive
      rw [htf, hlatest]
      exact h.saved _ hlt hlive (h.resumed_idle hc hqueued (by rwa [hmode]))
  · refine ⟨h.queues.effect hc hcur he, h.manned.effect h.queues hc hcur he hkill',
      fun c' q hc' hq => ?_, fun q hlt hq hidle => ?_⟩
    · by_cases hcc : c' = c
      · subst hcc
        simp only [Function.update_self]
        exact Option.some.inj (hnow.symm.trans hq)
      · simp only [Function.update_of_ne hcc]
        rw [show (k'.cpus c').cpuTask = _ from
          (Untouched.effect h.queues hc hcur he hc' hcc).cpuTask] at hq
        exact h.mode c' q hc' hq
    · show (k'.tasks q).tf = settle vm b sw m.k c p' tf key m.latest q
      by_cases hfree : (m.k.tasks q).state = .free
      · exact hframes.child q hlt hfree hq
      · by_cases hqp : q = p'
        · subst hqp
          rcases hframes.caller with hcaller | ⟨hsw, -, ⟨⟨n, hn⟩, hother⟩ | hgone⟩
          · exact hcaller
          · exact absurd hother (hsleep hsw c key q tf ints n rfl hmode hn)
          · exact absurd hgone hq
        · obtain ⟨htf, hlatest⟩ := hframes.other q hqp hfree
          rw [htf, hlatest]
          refine h.saved q hlt hfree fun c' hc' hcur' => ?_
          by_cases hcc : c' = c
          · subst hcc
            exact hqp (Option.some.inj (hcur'.symm.trans hcur))
          · exact hidle c' hc'
              ((Untouched.effect h.queues hc hcur he hc' hcc).cpuTask.trans hcur')

end MachineInv

/-! ## Runs -/

section Runs

variable {vm : Vm M D} {b : Boot} {sw : Option (BitVec 32)} {m m' : Machine M D} {l : Move}

/-- The steps of the runs below: no tick before `cli` ends a quantum, no `SYS_kill` is
left with nobody to switch to and, if a `SYS_sleep` is owed a result, none switches away. -/
def CalmStep (vm : Vm M D) (b : Boot) (sw : Option (BitVec 32)) (m : Machine M D) (l : Move)
    (m' : Machine M D) : Prop :=
  m.Steps vm b sw l m' ∧ QuantumLeft m l ∧ KillLeavesOther m l ∧ (sw ≠ none → SleepStays m l)

/-- What a step of such a run does to the CPU it is on, and that it does nothing to the
modes of the others. -/
theorem MachineInv.calmStep (h : MachineInv b m) (hs : CalmStep vm b sw m l m') :
    MachineInv b m' ∧ (∀ c, c ≠ l.cpu → m'.mode c = m.mode c) ∧
      ∀ p tf ints, m.mode l.cpu = .entry p tf ints →
        m'.mode l.cpu = .entry p tf ints ∨
        ∃ key q, l = .dispatch l.cpu key ∧ m'.mode l.cpu = .user q (m'.latest q) := by
  obtain ⟨⟨hc, hs⟩, hleft, hkill, hsleep⟩ := hs
  cases l with
  | user c regs =>
      simp only [Move.cpu] at hc ⊢
      simp only [Machine.step] at hs
      split at hs
      · rename_i p r hmode
        cases hs
        refine ⟨h.setMode hc (by rw [hmode]; rfl) fun _ _ => rfl,
          fun c' hcc => Function.update_of_ne hcc _ _, fun p' tf ints hentry => ?_⟩
        rw [hmode] at hentry
        cases hentry
      · cases hs
  | enter c trapno err =>
      simp only [Move.cpu] at hc ⊢
      simp only [Machine.step] at hs
      split at hs
      · rename_i p r hmode
        split at hs
        · cases hs
        · cases hs
          refine ⟨h.setMode hc (by rw [hmode]; rfl) fun q hq => ?_,
            fun c' hcc => Function.update_of_ne hcc _ _, fun p' tf ints hentry => ?_⟩
          · rw [hmode] at hq
            exact Function.update_of_ne hq _ _
          · rw [hmode] at hentry
            cases hentry
      · cases hs
  | tick c =>
      simp only [Move.cpu] at hc ⊢
      have htick := h.tick_eq hc hleft
      have hinv := h.tick hc hleft
      simp only [Machine.step] at hs
      split at hs
      · rw [htick] at hs hinv
        cases hs
        exact ⟨hinv, fun _ _ => rfl, fun _ _ _ hentry => Or.inl hentry⟩
      · cases hs
  | dispatch c key =>
      simp only [Move.cpu] at hc ⊢
      simp only [Machine.step] at hs
      split at hs
      · rename_i p tf ints hmode
        split at hs
        · rename_i res k' hd
          cases hs
          obtain ⟨hres, hinv⟩ := h.dispatch hc hmode hd hkill hsleep
          refine ⟨hinv, fun c' hcc => Function.update_of_ne hcc _ _,
            fun _ _ _ _ => Or.inr ⟨key, res.pid, rfl, ?_⟩⟩
          simp only [Function.update_self, ← hres]
        · cases hs
      · cases hs

/-- **Tasks resume where they trapped, and every system call is executed.**  With
`sw = some 0` every call has its result in `eax`, and no `SYS_sleep` may switch away;
with `sw = none` they may, and leave `eax` alone. -/
theorem resumes_where_trapped_of_calm {mem : M} {k₀ : Kernel M D}
    (hboot : bootAll vm b mem = .ok k₀) (regs : Nat → Trapframe) (sw : Option (BitVec 32)) :
    ResumesWhereTrapped (CalmStep vm b sw) (Machine.boot k₀ regs) := by
  have hinv : ∀ ls m, Run (CalmStep vm b sw) (Machine.boot k₀ regs) ls m → MachineInv b m :=
    fun ls m hrun => hrun.invariant (fun _ _ _ h hs => (h.calmStep hs).1) (.boot hboot regs)
  constructor
  · intro ls m l m' c p tf ints q r hrun hs hentry huser
    obtain ⟨-, helse, hself⟩ := (hinv ls m hrun).calmStep hs
    by_cases hcc : c = l.cpu
    · subst hcc
      rcases hself p tf ints hentry with hstay | ⟨key, q', -, hleave⟩
      · rw [hstay] at huser
        cases huser
      · rw [hleave] at huser
        cases huser
        rfl
    · rw [helse c hcc, hentry] at huser
      cases huser
  · intro ls m l m' c p tf ints hrun hs hentry
    obtain ⟨-, helse, hself⟩ := (hinv ls m hrun).calmStep hs
    by_cases hcc : c = l.cpu
    · subst hcc
      rcases hself p tf ints hentry with hstay | ⟨key, q', hl, -⟩
      · exact Or.inl hstay
      · exact Or.inr ⟨key, hl⟩
    · exact Or.inl ((helse c hcc).trans hentry)

end Runs

/-! ## Scripts -/

/-- Play a list of moves, as long as `allowed` admits them. -/
def Machine.play (vm : Vm M D) (b : Boot) (sw : Option (BitVec 32))
    (allowed : Machine M D → Move → Bool) : List Move → Machine M D → Option (Machine M D)
  | [], m => some m
  | l :: ls, m =>
      if l.cpu < b.ncpu ∧ allowed m l then (m.step vm b sw l).bind (Machine.play vm b sw allowed ls)
      else none

theorem Machine.run_of_play {vm : Vm M D} {b : Boot} {sw : Option (BitVec 32)}
    {allowed : Machine M D → Move → Bool} {ls : List Move} {m m' : Machine M D}
    (h : m.play vm b sw allowed ls = some m') :
    Run (fun m l m' => m.Steps vm b sw l m' ∧ allowed m l = true) m ls m' := by
  induction ls generalizing m with
  | nil =>
      cases h
      exact .nil _
  | cons l ls ih =>
      rw [Machine.play] at h
      split at h
      · rename_i hok
        obtain ⟨m₁, hstep, hrest⟩ := Option.bind_eq_some_iff.mp h
        exact .cons ⟨⟨hok.1, hstep⟩, hok.2⟩ (ih hrest)
      · cases h

/-- Boot with one CPU, play the moves, and check what came out of it. -/
def Machine.plays (sw : Option (BitVec 32)) (regs : Nat → Trapframe)
    (allowed : Machine Unit Unit → Move → Bool) (ls : List Move)
    (check : Machine Unit Unit → Bool) : Bool :=
  match bootAll Vm.unlimited (.small false) () with
  | .error _ => false
  | .ok k₀ => ((Machine.boot k₀ regs).play .unlimited (.small false) sw allowed ls).any check

theorem Machine.exists_run_of_plays {sw : Option (BitVec 32)} {regs : Nat → Trapframe}
    {allowed : Machine Unit Unit → Move → Bool} {ls : List Move}
    {check : Machine Unit Unit → Bool} (h : Machine.plays sw regs allowed ls check = true) :
    ∃ k₀ m, bootAll Vm.unlimited (.small false) () = .ok k₀ ∧
      Run (fun m l m' => m.Steps .unlimited (.small false) sw l m' ∧ allowed m l = true)
        (Machine.boot k₀ regs) ls m ∧ check m = true := by
  unfold Machine.plays at h
  split at h
  · cases h
  · rename_i k₀ hboot
    obtain ⟨m, hplay, hcheck⟩ := Option.any_eq_true _ _ |>.mp h
    exact ⟨k₀, m, hboot, Machine.run_of_play hplay, hcheck⟩

/-- The conditions of `CalmStep`, computed. -/
def Machine.calm (m : Machine M D) : Move → Bool
  | .tick c =>
      match (m.k.cpus c).cpuTask with
      | some p => decide (0 < ((tickAll m.k c p).tasks p).remindTicks)
      | none => true
  | .dispatch c _ =>
      match m.mode c with
      | .entry p tf _ =>
          match callOf tf with
          | .sleep _ => decide (¬ OtherRunnable m.k c p)
          | .kill => decide (KillActs m.k c p → OtherRunnable m.k c p)
          | _ => true
      | .user _ _ => true
  | _ => true

theorem Machine.calm_sound {m : Machine M D} {l : Move} (h : m.calm l = true) :
    QuantumLeft m l ∧ KillLeavesOther m l ∧ SleepStays m l := by
  refine ⟨?_, ?_, ?_⟩
  · rintro c p rfl hp
    simp only [Machine.calm, hp] at h
    exact of_decide_eq_true h
  · rintro c key p tf ints rfl hmode hcall hacts
    simp only [Machine.calm, hmode, hcall] at h
    exact of_decide_eq_true h hacts
  · rintro c key p tf ints n rfl hmode hcall
    simp only [Machine.calm, hmode, hcall] at h
    exact of_decide_eq_true h

/-- Registers of a user program with interrupts on, and the same some instructions
later, about to call `SYS_fork`. -/
def userRegs : Trapframe := { tfEflags := 0x200, tfEip := 0x800000 }

def forkRegs : Trapframe := { userRegs with tfEip := 0x800020, regEax := 4 }

/-- Timer interrupts in user mode, one after the other. -/
def userTicks (n : Nat) : List Move :=
  (List.replicate n [Move.enter 0 32 0, Move.dispatch 0 0]).flatten

/-- A tick in user mode, and then a fork with a tick before `cli`: the call goes on and
its caller resumes behind the `int` with the pid of the child. -/
theorem resumes_where_trapped_one_cpu :
    ∃ (k₀ : Kernel Unit Unit) (m : Machine Unit Unit),
      bootAll .unlimited (.small false) () = .ok k₀ ∧
      Run (CalmStep .unlimited (.small false) (some 0)) (Machine.boot k₀ fun _ => userRegs)
        (userTicks 1 ++ [.user 0 forkRegs, .enter 0 48 0, .tick 0, .dispatch 0 0]) m ∧
      m.mode 0 = .user 0 { forkRegs with tfTrapno := 48, regEax := 1 } ∧
      ResumesWhereTrapped (CalmStep .unlimited (.small false) (some 0))
        (Machine.boot k₀ fun _ => userRegs) := by
  obtain ⟨k₀, m, hboot, hrun, hcheck⟩ := Machine.exists_run_of_plays
    (show Machine.plays (some 0) (fun _ => userRegs) Machine.calm
      (userTicks 1 ++ [.user 0 forkRegs, .enter 0 48 0, .tick 0, .dispatch 0 0])
      (fun m => decide (m.mode 0 = .user 0 { forkRegs with tfTrapno := 48, regEax := 1 })) = true
      by decide +kernel)
  refine ⟨k₀, m, hboot, hrun.mono fun m l m' h => ?_, of_decide_eq_true hcheck,
    resumes_where_trapped_of_calm hboot _ _⟩
  obtain ⟨hleft, hkill, hsleep⟩ := Machine.calm_sound h.2
  exact ⟨h.1, hleft, hkill, fun _ => hsleep⟩

/-- The hundredth tick of the shell's quantum comes between its `int` and `cli`.  The CPU
leaves the kernel with the registers of the ninety-ninth: the fork is not executed, and
the instructions before it are executed again. -/
theorem quantum_ends_before_cli :
    ∃ (k₀ : Kernel Unit Unit) (m m' : Machine Unit Unit),
      bootAll .unlimited (.small false) () = .ok k₀ ∧
      Run (Machine.Steps .unlimited (.small false) (some 0)) (Machine.boot k₀ fun _ => userRegs)
        (userTicks 99 ++ [.user 0 forkRegs, .enter 0 48 0]) m ∧
      m.mode 0 = .entry 0 { forkRegs with tfTrapno := 48 } true ∧
      m.Steps .unlimited (.small false) (some 0) (.tick 0) m' ∧
      m'.mode 0 = .user 0 { userRegs with tfTrapno := 32 } ∧
      m'.latest 0 = { forkRegs with tfTrapno := 48 } ∧
      ¬ ResumesWhereTrapped (Machine.Steps .unlimited (.small false) (some 0))
        (Machine.boot k₀ fun _ => userRegs) := by
  obtain ⟨k₀, m, hboot, hrun, hcheck⟩ := Machine.exists_run_of_plays
    (show Machine.plays (some 0) (fun _ => userRegs) (fun _ _ => true)
      (userTicks 99 ++ [.user 0 forkRegs, .enter 0 48 0])
      (fun m => decide (m.mode 0 = .entry 0 { forkRegs with tfTrapno := 48 } true) &&
        (m.step .unlimited (.small false) (some 0) (.tick 0)).any fun m' =>
          decide (m'.mode 0 = .user 0 { userRegs with tfTrapno := 32 } ∧
            m'.latest 0 = { forkRegs with tfTrapno := 48 })) = true
      by decide +kernel)
  obtain ⟨hmode, htick⟩ := Bool.and_eq_true_iff.mp hcheck
  obtain ⟨m', hstep, hm'⟩ := Option.any_eq_true _ _ |>.mp htick
  obtain ⟨huser, hlatest⟩ := of_decide_eq_true hm'
  have hrun' := hrun.mono fun _ _ _ h => h.1
  have hstep' : m.Steps .unlimited (.small false) (some 0) (.tick 0) m' := ⟨by decide, hstep⟩
  refine ⟨k₀, m, m', hboot, hrun', of_decide_eq_true hmode, hstep', huser, hlatest, fun h => ?_⟩
  have hregs := h.frame _ m _ m' 0 _ _ _ _ _ hrun' hstep' (of_decide_eq_true hmode) huser
  rw [hlatest] at hregs
  exact absurd hregs (by decide)

end Nctuos
