import Nctuos.Boot
import Nctuos.MpConfig

/-!
# Starting the other CPUs

`boot_aps` and `lapic_startap` on the boot CPU, the entry code `mpentry.S` and `mp_main` on the
others, and the interprocessor interrupts between them.  The accesses to `mpentry_kstack`, to
`cpu_status` and to the local APIC are steps of their own, in any order that the code allows; a
`task_init_percpu` is one step, and so is an entry into the kernel.  An interrupt is on its way until
it is delivered.  INIT resets a CPU, whatever it is doing; STARTUP is ignored unless the CPU waits for
one, and so is, each time, the second one that `lapic_startap` sends.  A CPU that is up has timer
interrupts while the next ones come up.

All CPUs get their stack through the one variable `mpentry_kstack`, and `task_init_percpu` is not
made for two CPUs at a time.  Both are as they should be because `boot_aps` waits for each CPU
(`boot_is_serial`): every CPU runs on its own stack, no two of them are in the entry code at a time,
and the kernel is, when all of them are up, what it would be if `task_init_percpu` had been made for
all CPUs one after the other (`bootAll`) and all the ticks had come afterwards.  The last is what the
results about the scheduler start from.

That a tick may be moved behind a later `task_init_percpu` is `taskInitPercpu_before_ticks`.  The
CPU of the tick has one task, which the tick is about, and the new task is another one.
-/

namespace Nctuos

open Lib

variable {M D : Type}

/-! ## Ticks while the CPUs come up -/

/-- Task `p` is the only one of CPU `c`, and current. -/
structure Alone (k : Kernel M D) (c p : Nat) : Prop where
  task : (k.cpus c).cpuTask = some p
  total : (k.cpus c).cpuRq.total = 1
  index : (k.cpus c).cpuRq.currentIndex = 0
  queue : (k.cpus c).cpuRq.runQueue 0 = p

/-- What a tick leaves of the ticks of such a task: a full quantum when its last one is over. -/
def ticksAfter (n : Int) : Int := if n ≤ 1 then timeQuant else n - 1

/-- The kernel after a tick on the CPU of such a task. -/
def Kernel.tick (k : Kernel M D) (p : Nat) (tf : Trapframe) : Kernel M D :=
  { k with jiffies := k.jiffies + 1 }.modTask p fun t =>
    { t with tf := tf, remindTicks := ticksAfter t.remindTicks }

section Ticks

variable {vm : Vm M D} {b : Boot} {l : List Nat} {k k' : Kernel M D} {c p : Nat} {tf : Trapframe}

namespace Alone

theorem of_cpus (h : Alone k c p) (k₁ : Kernel M D) (hcpus : k₁.cpus = k.cpus) : Alone k₁ c p :=
  ⟨by rw [hcpus]; exact h.task, by rw [hcpus]; exact h.total, by rw [hcpus]; exact h.index,
    by rw [hcpus]; exact h.queue⟩

/-- It is chosen again, which leaves the CPU as it was. -/
theorem schedYield_eq (h : Alone k c p) (hstate : (k.tasks p).state = .runnable) :
    schedYield k c = (some p, k.modTask p fun t =>
      { t with state := .running, remindTicks := timeQuant }) := by
  have hpick : pick (fun q => (k.tasks q).state) (k.cpus c) = some 0 := by
    simp [pick, yieldStart, h.task, h.total, h.index, scan, h.queue, hstate]
  have hcpu : { k.cpus c with
      cpuTask := some p, cpuRq := { (k.cpus c).cpuRq with currentIndex := 0 } } = k.cpus c := by
    rw [← h.task, ← h.index]
  rw [schedYield, hpick]
  dsimp only
  rw [h.queue, Kernel.modCpu, Kernel.modTask_cpus, hcpu, Function.update_eq_self]
  rfl

theorem timerHandler_eq (h : Alone k c p) (hon : OnCpu (k.tasks p)) :
    timerHandler k c = (if (k.tasks p).remindTicks ≤ 1 then some p else none,
      { k with jiffies := k.jiffies + 1 }.modTask p fun t =>
        { t with remindTicks := ticksAfter t.remindTicks }) := by
  have hwrap : wrap32 ((k.tasks p).remindTicks - 1) = (k.tasks p).remindTicks - 1 := by
    have hpos := hon.ticks_pos
    have hle := hon.ticks_le
    rw [timeQuant] at hle
    exact wrap32_of_mem (by omega) (by omega)
  -- nobody sleeps, so the loop over the queue changes nothing
  have htick : tickAll { k with jiffies := k.jiffies + 1 } c p =
      { k with jiffies := k.jiffies + 1 }.modTask p fun t =>
        { t with remindTicks := t.remindTicks - 1 } := by
    simp [tickAll, tickSleepers, h.total, h.queue, tickSleeper, Kernel.modTask, hon.running, hwrap]
  rw [timerHandler]
  dsimp only
  rw [h.task]
  dsimp only
  rw [htick, Kernel.modTask_same]
  dsimp only
  by_cases hlast : (k.tasks p).remindTicks ≤ 1
  · rw [if_pos (by omega), if_pos hlast]
    refine (schedYield_eq (h.of_cpus _ ?_) ?_).trans ?_
    · rfl
    · rw [Kernel.modTask_same]
    · simp [Kernel.modTask, ticksAfter, hlast, hon.running]
  · rw [if_neg (by omega), if_neg hlast]
    simp [Kernel.modTask, ticksAfter, hlast]

end Alone

/-- While a CPU has one task only, a tick is about that task and nothing else. -/
theorem trapDispatch_tick (h : Alone k c p) (hon : OnCpu (k.tasks p))
    (htf : tf.tfTrapno.toNat = irqOffset + irqTimer) (key : BitVec 32) :
    trapDispatch vm b k c tf key = .ok (⟨p, tf⟩, k.tick p tf) := by
  have hsys : ¬ irqOffset + irqTimer = tSyscall := by decide
  have hframe := (h.of_cpus (k.modTask p fun t => { t with tf := tf }) rfl).timerHandler_eq
    (by rw [Kernel.modTask_same]; exact ⟨hon.running, hon.ticks_pos, hon.ticks_le⟩)
  have htick : (timerHandler (k.modTask p fun t => { t with tf := tf }) c).2 = k.tick p tf := by
    rw [hframe]
    simp [Kernel.tick, Kernel.modTask]
  have hnext : (timerHandler (k.modTask p fun t => { t with tf := tf }) c).1.getD p = p := by
    rw [hframe]
    dsimp only
    split <;> rfl
  have hresume : resume (k.tick p tf) p = ⟨p, tf⟩ := by simp [resume, Kernel.tick]
  rw [trapDispatch, h.task]
  dsimp only
  rw [if_neg (htf ▸ hsys), if_pos htf, hnext, htick, hresume]

theorem Kernel.tick_other (k : Kernel M D) {q : Nat} (tf : Trapframe) (h : q ≠ p) :
    (k.tick p tf).tasks q = k.tasks q := Kernel.modTask_other _ _ h

section Tick

variable (k : Kernel M D) (p : Nat) (tf : Trapframe)

theorem Kernel.tick_state (q : Nat) : ((k.tick p tf).tasks q).state = (k.tasks q).state := by
  by_cases hq : q = p
  · rw [hq, Kernel.tick, Kernel.modTask_same]
  · rw [k.tick_other tf hq]

theorem Kernel.tick_cpus : (k.tick p tf).cpus = k.cpus := rfl

theorem Kernel.tick_mem : (k.tick p tf).mem = k.mem := rfl

theorem Kernel.tick_setMem (m : M) : (k.tick p tf).setMem m = (k.setMem m).tick p tf := rfl

theorem Kernel.tick_modCpu (f : CpuInfo → CpuInfo) :
    (k.tick p tf).modCpu c f = (k.modCpu c f).tick p tf := rfl

end Tick

/-- A tick and a change of another task. -/
theorem Kernel.tick_modTask (k : Kernel M D) {q : Nat} (tf : Trapframe) (f : Task D → Task D)
    (h : q ≠ p) : (k.tick p tf).modTask q f = (k.modTask q f).tick p tf := by
  simp only [Kernel.tick, Kernel.modTask, Function.update_of_ne h, Function.update_of_ne h.symm]
  rw [Function.update_comm h]

/-- A tick on one CPU may be made after `task_init_percpu` of another instead of before it. -/
theorem taskInitPercpu_tick (hp : (k.tasks p).state ≠ .free) (hc : (k.cpus c).cpuTask = none) :
    taskInitPercpu vm b (k.tick p tf) c =
      (taskInitPercpu vm b k c).map fun k => k.tick p tf := by
  have hfind : findFree (k.tick p tf).tasks = findFree k.tasks := by
    simp only [findFree, Kernel.tick_state]
  simp only [taskInitPercpu, taskCreate, hfind]
  cases hfree : findFree k.tasks with
  | none => rfl
  | some pid =>
      have hpid : pid ≠ p := by
        rintro rfl
        exact hp (findFree_some hfree).2
      dsimp only
      rw [Kernel.tick_mem]
      cases vm.setupkvm k.mem with
      | error e => rfl
      | ok r =>
          obtain ⟨_ | pgdir, m₁⟩ := r
          · rfl
          · simp only [ok_bind]
            cases setupStack vm pgdir stackVas m₁ with
            | error e => rfl
            | ok r =>
                obtain ⟨_ | _, m₂⟩ := r
                · rfl
                · simp only [ok_bind, if_true, Kernel.setMem_cpus, Kernel.modTask_cpus,
                    Kernel.tick_cpus, hc, Kernel.tick_modTask _ _ _ hpid, Kernel.tick_setMem,
                    Kernel.tick_modCpu, Kernel.tick_other _ _ hpid, Kernel.modCpu_tasks,
                    Kernel.modTask_same, Kernel.setMem_tasks, Kernel.tick_mem, Kernel.modCpu_mem,
                    Kernel.modTask_mem, Kernel.setMem_mem]
                  cases vm.mapUser pgdir m₂ with
                  | error e => rfl
                  | ok m₃ => rfl

/-- The kernel when the CPUs of `l` are up, each with its own task, and the others have none. -/
structure CpusUp (l : List Nat) (k : Kernel M D) : Prop where
  up : BootInv l k
  down : ∀ c, c ∉ l → (k.cpus c).cpuTask = none

namespace CpusUp

theorem alone (h : CpusUp l k) (hc : c ∈ l) : Alone k c (l.idxOf c) := by
  obtain ⟨htask, htotal, hindex, hqueue⟩ := h.up.cpu c hc
  exact ⟨htask, htotal, hindex, hqueue⟩

theorem onCpu (h : CpusUp l k) (hc : c ∈ l) : OnCpu (k.tasks (l.idxOf c)) :=
  (h.up.onCpu _ (List.idxOf_lt_length_iff.mpr hc)).1

theorem init (m : M) : CpusUp [] (Kernel.init m : Kernel M D) := ⟨.init m, fun _ _ => rfl⟩

theorem next (h : CpusUp l k) (hc : c ∉ l) (hlt : l.length < nrTasks)
    (hrun : taskInitPercpu vm b k c = .ok k') : CpusUp (l ++ [c]) k' := by
  refine ⟨h.up.next hc hlt hrun, fun d hd => ?_⟩
  obtain ⟨pid, -, hs⟩ := taskInitPercpu_sched hrun
  rw [List.mem_append, List.mem_singleton, not_or] at hd
  rw [← hs.cpus, started, Kernel.modCpu_other _ _ hd.2]
  exact h.down d hd.1

/-- The CPUs of a list, one after the other. -/
theorem of_foldlM {m : M} (hnodup : l.Nodup) (hlen : l.length ≤ nrTasks)
    (h : l.foldlM (taskInitPercpu vm b) (Kernel.init m) = .ok k) : CpusUp l k := by
  refine foldlM_ok_induction (P := fun l k => l.Nodup → l.length ≤ nrTasks → CpusUp l k)
    (fun _ _ => .init m) ?_ h hnodup hlen
  intro done k c k' ih hc hnodup hlen
  obtain ⟨hdone, -, hdisjoint⟩ := List.nodup_append.mp hnodup
  rw [List.length_append, List.length_singleton] at hlen
  refine (ih hdone (by omega)).next (fun hmem => ?_) (by omega) hc
  exact hdisjoint c hmem c (List.mem_singleton_self c) rfl

theorem tick (h : CpusUp l k) (hp : p < l.length) (tf : Trapframe) : CpusUp l (k.tick p tf) := by
  refine ⟨⟨fun q hq => ?_, fun q hq => ?_, h.up.cpu⟩, h.down⟩
  · obtain ⟨hon, hid⟩ := h.up.onCpu q hq
    by_cases hqp : q = p
    · subst hqp
      have hpos := hon.ticks_pos
      have hle := hon.ticks_le
      rw [Kernel.tick, Kernel.modTask_same]
      refine ⟨⟨hon.running, ?_, ?_⟩, hid⟩
      all_goals
        dsimp only
        rw [ticksAfter]
        split
      all_goals simp only [timeQuant] at *; omega
    · rw [k.tick_other tf hqp]
      exact ⟨hon, hid⟩
  · rw [k.tick_state]
    exact h.up.free q hq

/-- A tick as a kernel entry. -/
theorem step_iff (h : CpusUp l k) {e : Entry} (hcpu : e.cpu ∈ l)
    (htick : e.tf.tfTrapno.toNat = irqOffset + irqTimer) :
    Step vm b k e k' ↔ e.cpu < b.ncpu ∧ e.resumed = ⟨l.idxOf e.cpu, e.tf⟩ ∧
      k' = k.tick (l.idxOf e.cpu) e.tf := by
  rw [Step, trapDispatch_tick (h.alone hcpu) (h.onCpu hcpu) htick]
  constructor
  · rintro ⟨hlt, heq⟩
    rw [Except.ok.injEq, Prod.mk.injEq] at heq
    exact ⟨hlt, heq.1.symm, heq.2.symm⟩
  · rintro ⟨hlt, hres, rfl⟩
    exact ⟨hlt, by rw [hres]⟩

end CpusUp

/-- A tick on one of the CPUs of `l`. -/
def TickOn (vm : Vm M D) (b : Boot) (l : List Nat) (k : Kernel M D) (e : Entry) (k' : Kernel M D) :
    Prop :=
  Step vm b k e k' ∧ e.cpu ∈ l ∧ e.tf.tfTrapno.toNat = irqOffset + irqTimer

/-- `task_init_percpu` after any number of ticks on the CPUs that are up might as well have been
before them. -/
theorem taskInitPercpu_before_ticks {es : List Entry} (h : CpusUp l k) (hc : c ∉ l)
    (hlt : l.length < nrTasks) {k₁ k₂ : Kernel M D} (hrun : Run (TickOn vm b l) k es k₁)
    (hinit : taskInitPercpu vm b k₁ c = .ok k₂) :
    ∃ k', taskInitPercpu vm b k c = .ok k' ∧ Run (TickOn vm b l) k' es k₂ := by
  refine Run.commute (R := fun k k' => taskInitPercpu vm b k c = .ok k') (I := CpusUp l)
    (fun k e k' hk hstep => ?_) (fun k e k₁ k₂ hk hstep hinit => ?_) hrun h hinit
  · obtain ⟨hstep, hcpu, htick⟩ := hstep
    obtain ⟨-, -, rfl⟩ := (hk.step_iff hcpu htick).mp hstep
    exact hk.tick (List.idxOf_lt_length_iff.mpr hcpu) e.tf
  · obtain ⟨hstep, hcpu, htick⟩ := hstep
    obtain ⟨hncpu, hres, rfl⟩ := (hk.step_iff hcpu htick).mp hstep
    have hlive : (k.tasks (l.idxOf e.cpu)).state ≠ .free := by
      rw [(hk.onCpu hcpu).running]
      decide
    rw [taskInitPercpu_tick hlive (hk.down c hc)] at hinit
    cases hk' : taskInitPercpu vm b k c with
    | error why =>
        rw [hk'] at hinit
        cases hinit
    | ok k' =>
        rw [hk'] at hinit
        cases hinit
        have hnext := hk.next hc hlt hk'
        have hcpu' : e.cpu ∈ l ++ [c] := List.mem_append_left _ hcpu
        refine ⟨k', rfl, (hnext.step_iff hcpu' htick).mpr ⟨hncpu, ?_, ?_⟩, hcpu, htick⟩
        · rw [hres, List.idxOf_append_of_mem hcpu]
        · rw [List.idxOf_append_of_mem hcpu]

end Ticks

/-! ## The CPUs and the interrupts -/

/-- The interprocessor interrupts of `lapic_startap`: INIT, its de-assertion, and STARTUP. -/
inductive Ipi
  | init
  | deassert
  | startup

/-- `lapic_startap`, in the order in which it sends them. -/
def startIpis : List Ipi := [.init, .deassert, .startup, .startup]

/-- Where a CPU other than the boot CPU is. -/
inductive ApPc
  /-- Not yet reset. -/
  | off
  /-- After an INIT. -/
  | waitSipi
  /-- `mpentry.S`, before it loads `mpentry_kstack`. -/
  | entry
  /-- `mp_main`, before `task_init_percpu`, on the stack at `esp`. -/
  | main (esp : Nat)
  /-- Before it sets its `cpu_status`. -/
  | ready (esp : Nat)
  /-- With interrupts. -/
  | up (esp : Nat)
  | stopped (why : Stop)

namespace ApPc

/-- What an interrupt does to a CPU. -/
def receive : Ipi → ApPc → ApPc
  | .init, _ => .waitSipi
  | .deassert, pc => pc
  | .startup, .waitSipi => .entry
  | .startup, pc => pc

def isUp : ApPc → Bool
  | .up _ => true
  | _ => false

/-- `task_init_percpu` is over. -/
def inited : ApPc → Bool
  | .ready _ => true
  | .up _ => true
  | _ => false

/-- Between its reset and its `cpu_status`. -/
def starting : ApPc → Bool
  | .off => false
  | .up _ => false
  | _ => true

/-- The stack it runs on. -/
def esp? : ApPc → Option Nat
  | .main esp => some esp
  | .ready esp => some esp
  | .up esp => some esp
  | _ => none

end ApPc

/-- Where `boot_aps` is. -/
inductive BspPc
  /-- The head of the loop. -/
  | next (i : Nat)
  /-- Before `mpentry_kstack` is set. -/
  | kstack (i : Nat)
  /-- `lapic_startap`, with so many interrupts sent. -/
  | send (i sent : Nat)
  /-- `while (cpus[i].cpu_status != CPU_STARTED)`. -/
  | wait (i : Nat)
  | done
  deriving DecidableEq

structure ApBoot (M D : Type) where
  bsp : BspPc
  mpentryKstack : Nat
  status : Nat → CpuStatus
  /-- The interrupts on their way to each CPU. -/
  ipis : Nat → List Ipi
  ap : Nat → ApPc
  kernel : Kernel M D

/-- `percpu_kstacks[i] + KSTKSIZE`. -/
def kstackTop (percpuKstacks i : Nat) : Nat := percpuKstacks + i * kstksize + kstksize

namespace ApBoot

/-- Whose turn it is. -/
inductive Turn
  | bsp
  /-- The next interrupt for CPU `i` is delivered. -/
  | deliver (i : Nat)
  | ap (i : Nat)
  /-- A kernel entry. -/
  | entry (e : Entry)

def stepBsp (b : Boot) (percpuKstacks : Nat) (s : ApBoot M D) : Option (ApBoot M D) :=
  match s.bsp with
  | .next i =>
      if i < b.ncpu then
        if i = b.bootcpu then some { s with bsp := .next (i + 1) }
        else some { s with bsp := .kstack i }
      else some { s with bsp := .done }
  | .kstack i => some { s with bsp := .send i 0, mpentryKstack := kstackTop percpuKstacks i }
  | .send i sent =>
      match startIpis[sent]? with
      | some ipi =>
          some { s with
            bsp := .send i (sent + 1), ipis := Function.update s.ipis i (s.ipis i ++ [ipi]) }
      | none => some { s with bsp := .wait i }
  | .wait i =>
      if s.status i = .started then some { s with bsp := .next (i + 1) } else some s
  | .done => none

def deliver (s : ApBoot M D) (i : Nat) : Option (ApBoot M D) :=
  match s.ipis i with
  | [] => none
  | ipi :: rest =>
      some { s with
        ipis := Function.update s.ipis i rest
        ap := Function.update s.ap i ((s.ap i).receive ipi) }

def stepAp (vm : Vm M D) (b : Boot) (s : ApBoot M D) (i : Nat) : Option (ApBoot M D) :=
  match s.ap i with
  | .entry => some { s with ap := Function.update s.ap i (.main s.mpentryKstack) }
  | .main esp =>
      match taskInitPercpu vm b s.kernel i with
      | .ok k => some { s with ap := Function.update s.ap i (.ready esp), kernel := k }
      | .error why => some { s with ap := Function.update s.ap i (.stopped why) }
  | .ready esp =>
      some { s with
        ap := Function.update s.ap i (.up esp)
        status := Function.update s.status i .started }
  | _ => none

/-- Who may enter the kernel: the CPUs that are up; the boot CPU has its interrupts off until
`boot_aps` is over.  Until then there are only the idle tasks, which make no system call, and the
8259A interrupts the boot CPU only, so that an entry is a tick. -/
def mayEnter (b : Boot) (s : ApBoot M D) (e : Entry) : Bool :=
  match s.bsp with
  | .done => e.cpu = b.bootcpu || (s.ap e.cpu).isUp
  | _ => e.cpu ≠ b.bootcpu && (s.ap e.cpu).isUp && e.tf.tfTrapno.toNat = irqOffset + irqTimer

def stepEntry (vm : Vm M D) (b : Boot) (s : ApBoot M D) (e : Entry) : Option (ApBoot M D) :=
  if s.mayEnter b e && e.cpu < b.ncpu then
    match trapDispatch vm b s.kernel e.cpu e.tf e.key with
    | .ok r => if r.1 = e.resumed then some { s with kernel := r.2 } else none
    | .error _ => none
  else none

def step (vm : Vm M D) (b : Boot) (percpuKstacks : Nat) (s : ApBoot M D) :
    Turn → Option (ApBoot M D)
  | .bsp => s.stepBsp b percpuKstacks
  | .deliver i => s.deliver i
  | .ap i => s.stepAp vm b i
  | .entry e => s.stepEntry vm b e

def Steps (vm : Vm M D) (b : Boot) (percpuKstacks : Nat) (s : ApBoot M D) (t : Turn)
    (s' : ApBoot M D) : Prop :=
  s.step vm b percpuKstacks t = some s'

/-- When `boot_aps` is called: the boot CPU has made its own `task_init_percpu`. -/
def start (b : Boot) (mpentryKstack : Nat) (k : Kernel M D) : ApBoot M D where
  bsp := .next 0
  mpentryKstack := mpentryKstack
  status i := if i = b.bootcpu then .started else .unused
  ipis _ := []
  ap _ := .off
  kernel := k

section Frame

variable {b : Boot} {percpuKstacks i : Nat} {s s' : ApBoot M D}

theorem stepBsp_frame (h : s.stepBsp b percpuKstacks = some s') :
    s'.kernel = s.kernel ∧ s'.ap = s.ap ∧ s.bsp ≠ .done := by
  rw [stepBsp] at h
  generalize s.bsp = pc at h ⊢
  cases pc with
  | next i =>
      dsimp only at h
      split at h
      · split at h <;> cases h <;> exact ⟨rfl, rfl, by simp⟩
      · cases h
        exact ⟨rfl, rfl, by simp⟩
  | kstack i =>
      cases h
      exact ⟨rfl, rfl, by simp⟩
  | send | wait =>
      dsimp only at h
      split at h <;> cases h <;> exact ⟨rfl, rfl, by simp⟩
  | done => cases h

theorem deliver_frame (h : s.deliver i = some s') : s'.kernel = s.kernel ∧ s'.bsp = s.bsp := by
  rw [deliver] at h
  split at h
  · cases h
  · cases h
    exact ⟨rfl, rfl⟩

end Frame

def Turn.entry? : Turn → Option Entry
  | .entry e => some e
  | _ => none

/-- The kernel entries among the turns. -/
def entries (ts : List Turn) : List Entry := ts.filterMap Turn.entry?

end ApBoot

/-! ## One CPU at a time -/

/-- The CPUs below it are up. -/
def BspPc.index (b : Boot) : BspPc → Nat
  | .next i => i
  | .kstack i => i
  | .send i _ => i
  | .wait i => i
  | .done => b.ncpu

/-- How many interrupts CPU `j` has been sent. -/
def BspPc.sent (b : Boot) (j : Nat) : BspPc → Nat
  | .next i => if j < i then 4 else 0
  | .kstack i => if j < i then 4 else 0
  | .send i n => if j < i then 4 else if j = i then n else 0
  | .wait i => if j < i + 1 then 4 else 0
  | .done => if j < b.ncpu then 4 else 0

/-- The CPU that is being started, once `mpentry_kstack` is set for it. -/
def BspPc.current? : BspPc → Option Nat
  | .send i _ => some i
  | .wait i => some i
  | _ => none

def BspPc.Ok (b : Boot) : BspPc → Prop
  | .next i => i ≤ b.ncpu
  | .kstack i => i ≠ b.bootcpu ∧ i < b.ncpu
  | .send i n => (i ≠ b.bootcpu ∧ i < b.ncpu) ∧ n ≤ 4
  | .wait i => i ≠ b.bootcpu ∧ i < b.ncpu
  | .done => True

/-- Where a CPU can be when `d` of its interrupts have been delivered. -/
def ApPc.After (top d : Nat) : ApPc → Prop
  | .off => d = 0
  | .waitSipi => d = 1 ∨ d = 2
  | .entry => 3 ≤ d
  | .main esp => 3 ≤ d ∧ esp = top
  | .ready esp => 3 ≤ d ∧ esp = top
  | .up esp => 3 ≤ d ∧ esp = top
  | .stopped _ => 3 ≤ d

/-- What a CPU has been sent, what of it is on its way, and where it is. -/
def ApBoot.Coming (s : ApBoot M D) (top sent j : Nat) : Prop :=
  ∃ d, d ≤ sent ∧ s.ipis j = (startIpis.take sent).drop d ∧ (s.ap j).After top d

structure ApInv (b : Boot) (percpuKstacks : Nat) (s : ApBoot M D) : Prop where
  bsp : s.bsp.Ok b
  kstack : ∀ i, s.bsp.current? = some i → s.mpentryKstack = kstackTop percpuKstacks i
  aps : ∀ j, j ≠ b.bootcpu → s.Coming (kstackTop percpuKstacks j) (s.bsp.sent b j) j
  up : ∀ j, j ≠ b.bootcpu → j < s.bsp.index b → (s.ap j).isUp = true
  status : ∀ j, j ≠ b.bootcpu → (s.status j = .started ↔ (s.ap j).isUp = true)
  boot : s.ipis b.bootcpu = [] ∧ s.ap b.bootcpu = .off

namespace BspPc

variable {b : Boot} {pc : BspPc} {i j : Nat}

theorem Ok.current (h : pc.Ok b) (hi : pc.current? = some i) : i ≠ b.bootcpu ∧ i < b.ncpu := by
  cases pc with
  | send i' n =>
      cases hi
      exact h.1
  | wait i' =>
      cases hi
      exact h
  | _ => cases hi

/-- CPUs behind the one that is being started have been sent nothing. -/
theorem sent_of_gt (hi : pc.current? = some i) (hlt : i < j) : pc.sent b j = 0 := by
  cases pc with
  | send i' n =>
      cases hi
      simp [sent, Nat.lt_asymm hlt, Nat.ne_of_gt hlt]
  | wait i' =>
      cases hi
      exact if_neg (by omega)
  | _ => cases hi

/-- Only the CPU that is being started, and those before it, have been sent something. -/
theorem current_of_sent (h : 0 < pc.sent b i) : pc.current? = some i ∨ i < pc.index b := by
  cases pc <;>
    simp only [sent, current?, index, Option.some.injEq, reduceCtorEq, false_or] at h ⊢ <;>
    split_ifs at h <;> omega

end BspPc

namespace ApPc

variable {pc : ApPc} {top d esp : Nat}

theorem inited_of_isUp (h : pc.isUp = true) : pc.inited = true := by
  cases pc with
  | up esp => rfl
  | _ => cases h

theorem After.not_inited (h : pc.After top 0) : pc.inited = false := by
  cases pc with
  | ready | up => exact absurd h.1 (by omega)
  | _ => rfl

theorem After.esp_eq (h : pc.After top d) (hesp : pc.esp? = some esp) : esp = top := by
  cases pc with
  | main | ready | up =>
      cases hesp
      exact h.2
  | _ => cases hesp

theorem After.pos (h : pc.After top d) (hpc : pc.starting = true) : 0 < d := by
  cases pc with
  | off | up => cases hpc
  | _ =>
      simp only [After] at h
      omega

theorem not_isUp_of_starting (h : pc.starting = true) : ¬ pc.isUp = true := by
  cases pc with
  | up esp => cases h
  | _ => exact nofun

end ApPc

/-- One interrupt more. -/
theorem drop_take_succ {n d : Nat} {ipi : Ipi} (hd : d ≤ n) (hipi : startIpis[n]? = some ipi) :
    (startIpis.take (n + 1)).drop d = (startIpis.take n).drop d ++ [ipi] := by
  obtain ⟨hn, rfl⟩ := List.getElem?_eq_some_iff.mp hipi
  rw [List.take_succ_eq_append_getElem hn, List.drop_append_of_le_length]
  rw [List.length_take]
  omega

/-- The next one that is delivered. -/
theorem receive_after {top d sent : Nat} {ipi : Ipi} {rest : List Ipi} {pc : ApPc}
    (hipis : (startIpis.take sent).drop d = ipi :: rest) (hpc : pc.After top d) :
    d < sent ∧ rest = (startIpis.take sent).drop (d + 1) ∧ (pc.receive ipi).After top (d + 1) ∧
      (pc.receive ipi).isUp = pc.isUp ∧ (pc.receive ipi).inited = pc.inited := by
  have hlt : d < (startIpis.take sent).length := by
    by_contra hge
    rw [List.drop_eq_nil_of_le (Nat.le_of_not_lt hge)] at hipis
    cases hipis
  have hcons := List.drop_eq_getElem_cons hlt
  rw [hipis, List.cons.injEq, List.getElem_take] at hcons
  obtain ⟨hipi, hrest⟩ := hcons
  rw [List.length_take, lt_min_iff] at hlt
  refine ⟨hlt.1, hrest, ?_⟩
  have hd : d < 4 := hlt.2
  have hcases : d = 0 ∨ d = 1 ∨ d = 2 ∨ d = 3 := by omega
  rcases hcases with rfl | rfl | rfl | rfl <;> subst hipi
  all_goals
    cases pc <;> simp_all [ApPc.After, ApPc.receive, startIpis, ApPc.isUp, ApPc.inited]

namespace ApInv

variable {vm : Vm M D} {b : Boot} {percpuKstacks i : Nat} {s s' : ApBoot M D}

theorem start (b : Boot) (percpuKstacks x : Nat) (k : Kernel M D) :
    ApInv b percpuKstacks (ApBoot.start b x k) where
  bsp := Nat.zero_le _
  kstack i hi := by cases hi
  aps j _ := ⟨0, le_rfl, by simp [ApBoot.start, BspPc.sent], rfl⟩
  up j _ hj := absurd hj (Nat.not_lt_zero j)
  status j hj := by simp [ApBoot.start, hj, ApPc.isUp]
  boot := ⟨rfl, rfl⟩

section Turns

variable (h : ApInv b percpuKstacks s)

include h

/-- A step of `boot_aps` that sends nothing. -/
theorem bsp_step {bsp : BspPc} {x : Nat} (hok : bsp.Ok b)
    (hkstack : ∀ i, bsp.current? = some i → x = kstackTop percpuKstacks i)
    (hsent : ∀ j, j ≠ b.bootcpu → bsp.sent b j = s.bsp.sent b j)
    (hup : ∀ j, j ≠ b.bootcpu → j < bsp.index b → (s.ap j).isUp = true) :
    ApInv b percpuKstacks { s with bsp := bsp, mpentryKstack := x } where
  bsp := hok
  kstack := hkstack
  aps j hj := by
    rw [hsent j hj]
    exact h.aps j hj
  up := hup
  status := h.status
  boot := h.boot

theorem stepBsp (hstep : s.stepBsp b percpuKstacks = some s') : ApInv b percpuKstacks s' := by
  have hok := h.bsp
  have hup := h.up
  have hkstack := h.kstack
  have hstatus := h.status
  rw [ApBoot.stepBsp] at hstep
  generalize hbsp : s.bsp = pc at hstep hok hup hkstack
  cases pc with
  | next i =>
      dsimp only at hstep
      split at hstep
      · rename_i hi
        split at hstep
        · rename_i hboot
          cases hstep
          refine h.bsp_step (x := s.mpentryKstack) (Nat.succ_le_of_lt hi) (fun j hj => by cases hj)
            (fun j hj => ?_) fun j hj hlt => hup j hj ?_
          · have hiff : j < i + 1 ↔ j < i := by omega
            simp only [hbsp, BspPc.sent, hiff]
          · have hlt' : j < i + 1 := hlt
            exact (by omega : j < i)
        · rename_i hboot
          cases hstep
          refine h.bsp_step (x := s.mpentryKstack) ⟨hboot, hi⟩ (fun j hj => by cases hj)
            (fun j hj => ?_) hup
          rw [hbsp]
          rfl
      · rename_i hi
        cases hstep
        have hlast : i = b.ncpu := Nat.le_antisymm hok (Nat.le_of_not_lt hi)
        refine h.bsp_step (x := s.mpentryKstack) trivial (fun j hj => by cases hj)
          (fun j hj => ?_) (by rw [hlast] at hup; exact hup)
        rw [hbsp, hlast]
        rfl
  | kstack i =>
      cases hstep
      refine h.bsp_step ⟨hok, Nat.zero_le _⟩ (fun j hj => ?_) (fun j hj => ?_) hup
      · cases hj
        rfl
      · rw [hbsp]
        simp only [BspPc.sent, ite_self]
  | send i n =>
      dsimp only at hstep
      split at hstep
      · rename_i ipi hipi
        cases hstep
        have hn : n < 4 := (List.getElem?_eq_some_iff.mp hipi).1
        refine ⟨⟨hok.1, hn⟩, fun j hj => hkstack j hj, fun j hj => ?_, hup, hstatus, ?_⟩
        · obtain ⟨d, hd, hipis, hpc⟩ := h.aps j hj
          rw [hbsp] at hd hipis
          by_cases hji : j = i
          · subst hji
            have hsent : BspPc.sent b j (.send j n) = n := by simp [BspPc.sent]
            have hsent' : BspPc.sent b j (.send j (n + 1)) = n + 1 := by simp [BspPc.sent]
            rw [hsent] at hd hipis
            refine ⟨d, ?_, ?_, hpc⟩
            · change d ≤ BspPc.sent b j (.send j (n + 1))
              omega
            · dsimp only
              rw [Function.update_self, hsent', drop_take_succ hd hipi, hipis]
          · have hsent : BspPc.sent b j (.send i (n + 1)) = BspPc.sent b j (.send i n) := by
              simp only [BspPc.sent, if_neg hji]
            refine ⟨d, hsent ▸ hd, ?_, hpc⟩
            dsimp only
            rw [Function.update_of_ne hji, hsent, hipis]
        · dsimp only
          rw [Function.update_of_ne (Ne.symm hok.1.1)]
          exact h.boot
      · rename_i hnone
        cases hstep
        have hn : n = 4 := Nat.le_antisymm hok.2 (List.getElem?_eq_none_iff.mp hnone)
        refine h.bsp_step (x := s.mpentryKstack) hok.1 (fun j hj => hkstack j hj) (fun j hj => ?_) hup
        rw [hbsp, hn]
        rcases Nat.lt_trichotomy j i with hlt | rfl | hgt
        · simp [BspPc.sent, hlt, Nat.lt_succ_of_lt hlt]
        · simp [BspPc.sent]
        · simp [BspPc.sent, Nat.not_lt.mpr (Nat.succ_le_of_lt hgt), Nat.lt_asymm hgt,
            Nat.ne_of_gt hgt]
  | wait i =>
      dsimp only at hstep
      split at hstep
      · rename_i hstarted
        cases hstep
        refine h.bsp_step (x := s.mpentryKstack) (Nat.succ_le_of_lt hok.2) (fun j hj => by cases hj)
          (fun j hj => ?_) fun j hj hlt => ?_
        · rw [hbsp]
          rfl
        · have hlt' : j < i + 1 := hlt
          by_cases hji : j = i
          · rw [hji]
            exact (hstatus i hok.1).mp hstarted
          · exact hup j hj (show j < i by omega)
      · cases hstep
        exact h
  | done => cases hstep

/-- A step of CPU `i` that is not the boot CPU. -/
theorem ap_step (hi : i ≠ b.bootcpu) (pc : ApPc) (k : Kernel M D) (status : CpuStatus)
    {ipis : List Ipi} {d : Nat} (hd : d ≤ s.bsp.sent b i)
    (hipis : ipis = (startIpis.take (s.bsp.sent b i)).drop d)
    (hpc : pc.After (kstackTop percpuKstacks i) d) (hup : (s.ap i).isUp = true → pc.isUp = true)
    (hstatus : status = .started ↔ pc.isUp = true) :
    ApInv b percpuKstacks { s with
      ap := Function.update s.ap i pc, ipis := Function.update s.ipis i ipis
      status := Function.update s.status i status, kernel := k } := by
  refine ⟨h.bsp, h.kstack, fun j hj => ?_, fun j hj hlt => ?_, fun j hj => ?_, ?_⟩
  · by_cases hji : j = i
    · subst hji
      exact ⟨d, hd, by rw [← hipis]; exact Function.update_self _ _ _, by
        dsimp only
        rw [Function.update_self]
        exact hpc⟩
    · obtain ⟨d', hd', hipis', hpc'⟩ := h.aps j hj
      refine ⟨d', hd', ?_, ?_⟩
      · dsimp only
        rw [Function.update_of_ne hji]
        exact hipis'
      · dsimp only
        rw [Function.update_of_ne hji]
        exact hpc'
  · dsimp only
    by_cases hji : j = i
    · subst hji
      rw [Function.update_self]
      exact hup (h.up j hj hlt)
    · rw [Function.update_of_ne hji]
      exact h.up j hj hlt
  · dsimp only
    by_cases hji : j = i
    · subst hji
      rw [Function.update_self, Function.update_self]
      exact hstatus
    · rw [Function.update_of_ne hji, Function.update_of_ne hji]
      exact h.status j hj
  · dsimp only
    rw [Function.update_of_ne (Ne.symm hi), Function.update_of_ne (Ne.symm hi)]
    exact h.boot

theorem deliver (hstep : s.deliver i = some s') :
    ApInv b percpuKstacks s' ∧ ∀ j, (s'.ap j).inited = (s.ap j).inited := by
  rw [ApBoot.deliver] at hstep
  split at hstep
  · cases hstep
  · rename_i ipi rest hipis
    cases hstep
    have hi : i ≠ b.bootcpu := by
      rintro rfl
      rw [h.boot.1] at hipis
      cases hipis
    obtain ⟨d, -, hipis', hpc⟩ := h.aps i hi
    rw [hipis'] at hipis
    obtain ⟨hlt, hrest, hafter, hup, hinited⟩ := receive_after hipis hpc
    constructor
    · have hstatus : Function.update s.status i (s.status i) = s.status :=
        Function.update_eq_self _ _
      have hnew := h.ap_step hi _ s.kernel (s.status i) hlt hrest hafter
        (by rw [hup]; exact id) (by rw [hup]; exact h.status i hi)
      rw [hstatus] at hnew
      exact hnew
    · intro j
      dsimp only
      by_cases hji : j = i
      · subst hji
        rw [Function.update_self]
        exact hinited
      · rw [Function.update_of_ne hji]

/-- Only the CPU that is being started, or one that is up, has had a STARTUP. -/
theorem current_of_after (hi : i ≠ b.bootcpu) {d : Nat} (hd : 0 < d) (hsent : d ≤ s.bsp.sent b i) :
    s.bsp.current? = some i ∨ (s.ap i).isUp = true :=
  (BspPc.current_of_sent (by omega)).imp_right (h.up i hi)

end Turns

/-- What a CPU does on its way up: nothing to the kernel, or its `task_init_percpu`. -/
inductive ApEffect (vm : Vm M D) (b : Boot) (s s' : ApBoot M D) (i : Nat) : Prop
  | quiet (kernel : s'.kernel = s.kernel) (inited : ∀ j, (s'.ap j).inited = (s.ap j).inited)
  | inits (current : s.bsp.current? = some i) (before : (s.ap i).inited = false)
      (after : ∀ j, (s'.ap j).inited = if j = i then true else (s.ap j).inited)
      (kernel : taskInitPercpu vm b s.kernel i = .ok s'.kernel)

/-- A change of where CPU `i` is. -/
theorem inited_update {ap : Nat → ApPc} {pc : ApPc} (hpc : pc.inited = (ap i).inited) (j : Nat) :
    (Function.update ap i pc j).inited = (ap j).inited := by
  by_cases hji : j = i
  · rw [hji, Function.update_self, hpc]
  · rw [Function.update_of_ne hji]

theorem stepAp (h : ApInv b percpuKstacks s) (hstep : s.stepAp vm b i = some s') :
    ApInv b percpuKstacks s' ∧ s'.bsp = s.bsp ∧ ApEffect vm b s s' i := by
  have hi : i ≠ b.bootcpu := by
    rintro rfl
    rw [ApBoot.stepAp, h.boot.2] at hstep
    cases hstep
  obtain ⟨d, hd, hipis, hpc⟩ := h.aps i hi
  have hstatus := h.status i hi
  have hsame : Function.update s.ipis i (s.ipis i) = s.ipis := Function.update_eq_self _ _
  have hsame' : Function.update s.status i (s.status i) = s.status := Function.update_eq_self _ _
  rw [ApBoot.stepAp] at hstep
  cases hap : s.ap i with
  | entry =>
      rw [hap] at hstep hpc hstatus
      cases hstep
      have hd3 : 3 ≤ d := hpc
      have hcurrent := (h.current_of_after hi (by omega) hd).resolve_right
        (by rw [hap]; simp [ApPc.isUp])
      have hnew := h.ap_step hi (.main s.mpentryKstack) s.kernel (s.status i)
        hd hipis ⟨hd3, h.kstack i hcurrent⟩ (by rw [hap]; exact id) hstatus
      rw [hsame, hsame'] at hnew
      exact ⟨hnew, rfl, .quiet rfl (inited_update (by rw [hap]; rfl))⟩
  | main esp =>
      rw [hap] at hstep hpc hstatus
      dsimp only at hstep
      obtain ⟨hd3, hesp⟩ := hpc
      have hcurrent := (h.current_of_after hi (by omega) hd).resolve_right
        (by rw [hap]; simp [ApPc.isUp])
      split at hstep
      · rename_i k hk
        cases hstep
        have hnew := h.ap_step hi (.ready esp) k (s.status i) hd hipis
          ⟨hd3, hesp⟩ (by rw [hap]; exact id) hstatus
        rw [hsame, hsame'] at hnew
        refine ⟨hnew, rfl, .inits hcurrent (by rw [hap]; rfl) (fun j => ?_) hk⟩
        dsimp only
        by_cases hji : j = i
        · rw [hji, Function.update_self, if_pos rfl]
          rfl
        · rw [Function.update_of_ne hji, if_neg hji]
      · rename_i why _
        cases hstep
        have hnew := h.ap_step hi (.stopped why) s.kernel (s.status i) hd
          hipis hd3 (by rw [hap]; exact id) hstatus
        rw [hsame, hsame'] at hnew
        exact ⟨hnew, rfl, .quiet rfl (inited_update (by rw [hap]; rfl))⟩
  | ready esp =>
      rw [hap] at hstep hpc
      cases hstep
      have hnew := h.ap_step hi (.up esp) s.kernel .started hd hipis hpc
        (fun _ => rfl) (iff_of_true rfl rfl)
      rw [hsame] at hnew
      exact ⟨hnew, rfl, .quiet rfl (inited_update (by rw [hap]; rfl))⟩
  | _ =>
      rw [hap] at hstep
      cases hstep

end ApInv

/-! ## The kernel -/

/-- The CPUs that have made `task_init_percpu`, in the order in which they did. -/
def ApBoot.initedCpus (b : Boot) (s : ApBoot M D) : List Nat :=
  b.bootcpu :: (List.range b.ncpu).filter fun c => c ≠ b.bootcpu && (s.ap c).inited

section Inited

variable {vm : Vm M D} {b : Boot} {percpuKstacks i : Nat} {s s' : ApBoot M D}

theorem initedCpus_nodup (b : Boot) (s : ApBoot M D) : (s.initedCpus b).Nodup :=
  List.nodup_cons.mpr ⟨by simp, List.nodup_range.filter _⟩

theorem initedCpus_length (b : Boot) (s : ApBoot M D) : (s.initedCpus b).length ≤ nrTasks := by
  refine le_trans ?_ b.length_order_le
  rw [ApBoot.initedCpus, Boot.order, List.length_cons, List.length_cons]
  refine Nat.succ_le_succ ((List.monotone_filter_right _ fun c hc => ?_).length_le)
  simp only [Bool.and_eq_true, decide_eq_true_eq] at hc
  simpa using hc.1

theorem initedCpus_congr (h : ∀ j, (s'.ap j).inited = (s.ap j).inited) :
    s'.initedCpus b = s.initedCpus b := by
  simp only [ApBoot.initedCpus, h]

theorem mem_initedCpus (hi : i < b.ncpu) :
    i ∈ s.initedCpus b ↔ i = b.bootcpu ∨ (s.ap i).inited = true := by
  by_cases hboot : i = b.bootcpu
  · simp [ApBoot.initedCpus, hboot]
  · simp [ApBoot.initedCpus, hboot, hi]

/-- All of them, when all are up. -/
theorem initedCpus_done (h : ApInv b percpuKstacks s) (hdone : s.bsp = .done) :
    s.initedCpus b = b.order := by
  rw [ApBoot.initedCpus, Boot.order]
  refine congrArg _ (List.filter_congr fun c hc => ?_)
  by_cases hboot : c = b.bootcpu
  · simp [hboot]
  · have hup := h.up c hboot (by rw [hdone]; exact List.mem_range.mp hc)
    simp [hboot, ApPc.inited_of_isUp hup]

/-- CPUs behind the one that is being started have done nothing. -/
theorem not_inited_of_gt (h : ApInv b percpuKstacks s) (hcurrent : s.bsp.current? = some i) {j : Nat}
    (hj : j ≠ b.bootcpu) (hlt : i < j) : (s.ap j).inited = false := by
  obtain ⟨d, hd, -, hpc⟩ := h.aps j hj
  have hsent := BspPc.sent_of_gt (b := b) hcurrent hlt
  obtain rfl : d = 0 := by omega
  exact hpc.not_inited

/-- The next one is the next in the list. -/
theorem initedCpus_concat (h : ApInv b percpuKstacks s) (hcurrent : s.bsp.current? = some i)
    (hbefore : (s.ap i).inited = false)
    (hafter : ∀ j, (s'.ap j).inited = if j = i then true else (s.ap j).inited) :
    s'.initedCpus b = s.initedCpus b ++ [i] := by
  have hok := h.bsp.current hcurrent
  obtain ⟨rest, hrest⟩ := Nat.exists_eq_add_of_le (Nat.succ_le_of_lt hok.2)
  have htail : ∀ ap : Nat → ApPc, (∀ j, i < j → j ≠ b.bootcpu → (ap j).inited = false) →
      (((List.range rest).map (i.succ + ·)).filter fun c => c ≠ b.bootcpu && (ap c).inited) = [] := by
    intro ap hap
    rw [List.filter_eq_nil_iff]
    intro c hc
    obtain ⟨n, -, rfl⟩ := List.mem_map.mp hc
    by_cases hboot : i.succ + n = b.bootcpu
    · simp [hboot]
    · simp [hap _ (by omega) hboot]
  have hfront : ((List.range i).filter fun c => c ≠ b.bootcpu && (s'.ap c).inited) =
      (List.range i).filter fun c => c ≠ b.bootcpu && (s.ap c).inited := by
    refine List.filter_congr fun c hc => ?_
    rw [hafter c, if_neg (Nat.ne_of_lt (List.mem_range.mp hc))]
  have hgt : ∀ j, i < j → j ≠ b.bootcpu → (s.ap j).inited = false :=
    fun j hj hboot => not_inited_of_gt h hcurrent hboot hj
  have hgt' : ∀ j, i < j → j ≠ b.bootcpu → (s'.ap j).inited = false := by
    intro j hj hboot
    rw [hafter j, if_neg (Nat.ne_of_gt hj)]
    exact hgt j hj hboot
  rw [ApBoot.initedCpus, ApBoot.initedCpus, hrest, List.range_add, List.range_succ,
    List.filter_append, List.filter_append, List.filter_append, List.filter_append, htail _ hgt,
    htail _ hgt', hfront, List.filter_cons_of_pos (by simp [hok.1, hafter i]),
    List.filter_cons_of_neg (by simp [hbefore])]
  simp

end Inited

/-- The kernel is as if the CPUs had come up one after the other before the first entry.  Until
`boot_aps` is over, the entries are ticks. -/
structure SerialSoFar (vm : Vm M D) (b : Boot) (m : M) (es : List Entry) (s : ApBoot M D)
    (k₀ : Kernel M D) : Prop where
  boot : (s.initedCpus b).foldlM (taskInitPercpu vm b) (Kernel.init m) = .ok k₀
  run : Run (Step vm b) k₀ es s.kernel
  ticks : s.bsp ≠ .done → Run (TickOn vm b (s.initedCpus b)) k₀ es s.kernel

namespace SerialSoFar

variable {vm : Vm M D} {b : Boot} {m : M} {es : List Entry} {percpuKstacks i : Nat}
  {s s' : ApBoot M D} {k₀ : Kernel M D}

/-- Only ticks so far. -/
theorem of_ticks (hboot : (s.initedCpus b).foldlM (taskInitPercpu vm b) (Kernel.init m) = .ok k₀)
    (hrun : Run (TickOn vm b (s.initedCpus b)) k₀ es s.kernel) : SerialSoFar vm b m es s k₀ :=
  ⟨hboot, hrun.mono fun _ _ _ h => h.1, fun _ => hrun⟩

/-- A step that leaves the kernel alone. -/
theorem quiet (h : SerialSoFar vm b m es s k₀) (hkernel : s'.kernel = s.kernel)
    (hinited : ∀ j, (s'.ap j).inited = (s.ap j).inited) (hbsp : s.bsp = .done → s'.bsp = .done) :
    SerialSoFar vm b m es s' k₀ := by
  refine ⟨?_, ?_, fun hdone => ?_⟩
  · rw [initedCpus_congr hinited]
    exact h.boot
  · rw [hkernel]
    exact h.run
  · rw [initedCpus_congr hinited, hkernel]
    exact h.ticks fun heq => hdone (hbsp heq)

/-- `task_init_percpu` of the next CPU, moved in front of the ticks. -/
theorem inits (h : SerialSoFar vm b m es s k₀) (hinv : ApInv b percpuKstacks s)
    (hcurrent : s.bsp.current? = some i) (hbefore : (s.ap i).inited = false)
    (hafter : ∀ j, (s'.ap j).inited = if j = i then true else (s.ap j).inited)
    (hkernel : taskInitPercpu vm b s.kernel i = .ok s'.kernel) :
    ∃ k₁, SerialSoFar vm b m es s' k₁ := by
  have hlist := initedCpus_concat hinv hcurrent hbefore hafter
  have hnodup := initedCpus_nodup b s'
  have hlength := initedCpus_length b s'
  rw [hlist] at hnodup hlength
  rw [List.length_append, List.length_singleton] at hlength
  have hnew : i ∉ s.initedCpus b := fun hmem =>
    (List.nodup_append.mp hnodup).2.2 i hmem i (List.mem_singleton_self i) rfl
  have hcpusUp := CpusUp.of_foldlM (initedCpus_nodup b s) (initedCpus_length b s) h.boot
  have hticks := h.ticks (by
    intro hdone
    rw [hdone] at hcurrent
    cases hcurrent)
  obtain ⟨k₁, hinit, hrun⟩ := taskInitPercpu_before_ticks hcpusUp hnew hlength hticks hkernel
  refine ⟨k₁, of_ticks ?_ ?_⟩
  · rw [hlist, List.foldlM_append, h.boot]
    simp [hinit]
  · rw [hlist]
    exact hrun.mono fun _ _ _ htick => ⟨htick.1, List.mem_append_left _ htick.2.1, htick.2.2⟩

/-- A kernel entry. -/
theorem entry (h : SerialSoFar vm b m es s k₀) {e : Entry} (hstep : s.stepEntry vm b e = some s') :
    SerialSoFar vm b m (es ++ [e]) s' k₀ ∧ s' = { s with kernel := s'.kernel } := by
  rw [ApBoot.stepEntry] at hstep
  split at hstep
  · rename_i hmay
    rw [Bool.and_eq_true, decide_eq_true_eq] at hmay
    split at hstep
    · rename_i r hr
      split at hstep
      · rename_i hres
        cases hstep
        have hentry : Step vm b s.kernel e r.2 := ⟨hmay.2, by rw [hr, ← hres]⟩
        refine ⟨⟨h.boot, h.run.concat hentry, fun hdone => (h.ticks hdone).concat ?_⟩, rfl⟩
        have hmay' := hmay.1
        rw [ApBoot.mayEnter] at hmay'
        split at hmay'
        · rename_i heq
          exact absurd heq hdone
        · simp only [Bool.and_eq_true, decide_eq_true_eq] at hmay'
          exact ⟨hentry, (mem_initedCpus hmay.2).mpr (Or.inr (ApPc.inited_of_isUp hmay'.1.2)),
            hmay'.2⟩
      · cases hstep
    · cases hstep
  · cases hstep

end SerialSoFar

/-! ## Booting is serial -/

/-- What the results about the scheduler take for granted. -/
structure SerialBoot (vm : Vm M D) (b : Boot) (m : M) (percpuKstacks : Nat)
    (ts : List ApBoot.Turn) (s : ApBoot M D) : Prop where
  /-- Every CPU runs on its own stack. -/
  stack : ∀ i esp, (s.ap i).esp? = some esp → esp = kstackTop percpuKstacks i
  /-- No two of them are being started at a time. -/
  one : ∀ i j, (s.ap i).starting = true → (s.ap j).starting = true → i = j
  /-- After `boot_aps`, all CPUs might have come up before the first entry. -/
  serial : s.bsp = .done → ∃ k₀, bootAll vm b m = .ok k₀ ∧
    Run (Step vm b) k₀ (ApBoot.entries ts) s.kernel

/-- A CPU that is being started is the one that `boot_aps` is about. -/
theorem ApInv.current_of_starting {b : Boot} {percpuKstacks i : Nat} {s : ApBoot M D}
    (h : ApInv b percpuKstacks s) (hi : (s.ap i).starting = true) : s.bsp.current? = some i := by
  have hboot : i ≠ b.bootcpu := by
    rintro rfl
    rw [h.boot.2] at hi
    cases hi
  obtain ⟨d, hd, -, hpc⟩ := h.aps i hboot
  exact (h.current_of_after hboot (hpc.pos hi) hd).resolve_right (ApPc.not_isUp_of_starting hi)

/-- **Booting is serial.**  In every order of the steps of the boot CPU, of the others, of the
deliveries and of the ticks. -/
theorem boot_is_serial {vm : Vm M D} {b : Boot} {m : M} {k : Kernel M D}
    (hboot : taskInitPercpu vm b (Kernel.init m) b.bootcpu = .ok k) (percpuKstacks x : Nat)
    {ts : List ApBoot.Turn} {s : ApBoot M D}
    (hrun : Run (ApBoot.Steps vm b percpuKstacks) (ApBoot.start b x k) ts s) :
    SerialBoot vm b m percpuKstacks ts s := by
  obtain ⟨hinv, k₀, hserial⟩ : ApInv b percpuKstacks s ∧
      ∃ k₀, SerialSoFar vm b m (ApBoot.entries ts) s k₀ := by
    refine Run.history_invariant (I := fun ts s => ApInv b percpuKstacks s ∧
      ∃ k₀, SerialSoFar vm b m (ApBoot.entries ts) s k₀) ?_ ?_ hrun
    · refine ⟨.start b percpuKstacks x k, k, .of_ticks ?_ (.nil _)⟩
      have hlist : (ApBoot.start b x k).initedCpus b = [b.bootcpu] := by
        simp [ApBoot.initedCpus, ApBoot.start, ApPc.inited]
      rw [hlist, List.foldlM_cons, hboot]
      rfl
    · intro ts s t s' _ hstate hstep
      obtain ⟨hinv, k₀, hserial⟩ := hstate
      rw [ApBoot.entries, List.filterMap_append]
      cases t with
      | bsp =>
          obtain ⟨hkernel, hap, hbsp⟩ := ApBoot.stepBsp_frame hstep
          refine ⟨hinv.stepBsp hstep, k₀, ?_⟩
          rw [List.filterMap_cons_none rfl, List.filterMap_nil, List.append_nil]
          exact hserial.quiet hkernel (fun j => by rw [hap]) fun hdone => absurd hdone hbsp
      | deliver i =>
          obtain ⟨hinv', hinited⟩ := hinv.deliver hstep
          obtain ⟨hkernel, hbsp⟩ := ApBoot.deliver_frame hstep
          refine ⟨hinv', k₀, ?_⟩
          rw [List.filterMap_cons_none rfl, List.filterMap_nil, List.append_nil]
          exact hserial.quiet hkernel hinited fun hdone => hbsp.trans hdone
      | ap i =>
          obtain ⟨hinv', hbsp, heffect⟩ := hinv.stepAp hstep
          refine ⟨hinv', ?_⟩
          rw [List.filterMap_cons_none rfl, List.filterMap_nil, List.append_nil]
          cases heffect with
          | quiet kernel inited =>
              exact ⟨k₀, hserial.quiet kernel inited fun hdone => hbsp.trans hdone⟩
          | inits current before after kernel =>
              exact hserial.inits hinv current before after kernel
      | entry e =>
          obtain ⟨hserial', hs'⟩ := hserial.entry hstep
          refine ⟨?_, k₀, hserial'⟩
          rw [hs']
          exact ⟨hinv.bsp, hinv.kstack, hinv.aps, hinv.up, hinv.status, hinv.boot⟩
  refine ⟨fun i esp hesp => ?_, fun i j hi hj => ?_, fun hdone => ⟨k₀, ?_, hserial.run⟩⟩
  · have hi : i ≠ b.bootcpu := by
      rintro rfl
      rw [hinv.boot.2] at hesp
      cases hesp
    obtain ⟨d, -, -, hpc⟩ := hinv.aps i hi
    exact hpc.esp_eq hesp
  · exact Option.some.inj ((hinv.current_of_starting hi).symm.trans (hinv.current_of_starting hj))
  · have hall := hserial.boot
    rw [initedCpus_done hinv hdone] at hall
    exact hall

/-- Two CPUs.  The second has a tick before the first one sees that it is up, and its second STARTUP
comes later still. -/
theorem boot_is_serial_two :
    ∃ (k : Kernel Unit Unit) (ts : List ApBoot.Turn) (s : ApBoot Unit Unit),
      taskInitPercpu .unlimited (.small true) (Kernel.init ()) 0 = .ok k ∧
      Run (ApBoot.Steps .unlimited (.small true) 0xF0140000) (ApBoot.start (.small true) 0 k) ts s ∧
      SerialBoot .unlimited (.small true) () 0xF0140000 ts s ∧ (ApBoot.entries ts).length = 2 ∧
      ∃ k₀, bootAll .unlimited (.small true) () = .ok k₀ ∧
        Run (Step .unlimited (.small true)) k₀ (ApBoot.entries ts) s.kernel := by
  let tick (c : Nat) : ApBoot.Turn := .entry ⟨c, timerFrame, 0, ⟨c, timerFrame⟩⟩
  let ts : List ApBoot.Turn := List.replicate 8 .bsp ++ List.replicate 3 (.deliver 1) ++
    List.replicate 3 (.ap 1) ++ [tick 1, .deliver 1, .bsp, .bsp, tick 0]
  have hlast : ((taskInitPercpu .unlimited (.small true) (Kernel.init ()) 0).toOption.bind fun k =>
      (ts.foldlM (ApBoot.step .unlimited (.small true) 0xF0140000)
        (ApBoot.start (.small true) 0 k)).map ApBoot.bsp) = some .done := by
    decide +kernel
  cases hk : taskInitPercpu .unlimited (.small true) (Kernel.init ()) 0 with
  | error why =>
      rw [hk] at hlast
      cases hlast
  | ok k =>
      rw [hk] at hlast
      obtain ⟨s, hturns, hdone⟩ := Option.map_eq_some_iff.mp hlast
      have hrun := Run.of_foldlM hturns
      have hserial := boot_is_serial hk 0xF0140000 0 hrun
      exact ⟨k, ts, s, rfl, hrun, hserial, rfl, hserial.serial hdone⟩

end Nctuos
