import Nctuos.Exit
import Nctuos.Boot

/-!
# What a kernel entry does to the memory

`SameSched` forgets the memory and the page directories; this module is about nothing
else.  Only two entries reach them.  `sys_fork` runs the operations of `kernel/mem.c` one
after the other, on the directory that it then stores in the slot of the child
(`sysFork_mem`); `sys_kill` runs `task_free` (`sysKill_mem`).  Every other entry leaves
both alone (`step_mem`), and no entry but those two changes which slots of the task table
are in use (`effect_alive`).
-/

namespace Nctuos

open Lib

variable {M D : Type} {vm : Vm M D} {b : Boot} {k k' k'' : Kernel M D} {c p q : Nat}

/-! ## Entries that leave the memory alone -/

/-- The same memory, and the same directories in all the slots. -/
structure SameMem (k k' : Kernel M D) : Prop where
  mem : k'.mem = k.mem
  pgdir : ∀ q, (k'.tasks q).pgdir = (k.tasks q).pgdir

namespace SameMem

theorem refl (k : Kernel M D) : SameMem k k := ⟨rfl, fun _ => rfl⟩

theorem trans (h : SameMem k k') (h' : SameMem k' k'') : SameMem k k'' :=
  ⟨h'.mem.trans h.mem, fun q => (h'.pgdir q).trans (h.pgdir q)⟩

theorem modTask (k : Kernel M D) (p : Nat) (f : Task D → Task D)
    (hf : ∀ t, (f t).pgdir = t.pgdir) : SameMem k (k.modTask p f) := by
  refine ⟨rfl, fun q => ?_⟩
  by_cases hq : q = p
  · subst hq
    rw [Kernel.modTask_same, hf]
  · rw [Kernel.modTask_other _ _ hq]

theorem modCpu (k : Kernel M D) (c : Nat) (f : CpuInfo → CpuInfo) : SameMem k (k.modCpu c f) :=
  ⟨rfl, fun _ => rfl⟩

theorem schedYield (k : Kernel M D) (c : Nat) : SameMem k (schedYield k c).2 := by
  unfold Nctuos.schedYield
  split
  · exact .refl k
  · simp only
    refine (modTask k _ _ ?_).trans (modCpu _ c _)
    exact fun _ => rfl

theorem tickAll (k : Kernel M D) (c p : Nat) : SameMem k (tickAll k c p) := by
  have hsleepers : ∀ q, (tickSleepers k.tasks (k.cpus c).cpuRq q).pgdir = (k.tasks q).pgdir := by
    refine QueueInv.tickSleepers_rel (P := fun t t' => t'.pgdir = t.pgdir) (fun _ => rfl)
      (fun t t' h => ?_) k.tasks _
    refine Eq.trans ?_ h
    unfold tickSleeper
    split <;> rfl
  have hloop : SameMem k { k with tasks := tickSleepers k.tasks (k.cpus c).cpuRq } :=
    ⟨rfl, hsleepers⟩
  exact hloop.trans (modTask _ p _ fun _ => rfl)

theorem timerHandler (k : Kernel M D) (c : Nat) : SameMem k (timerHandler k c).2 := by
  have hjiffies : SameMem k { k with jiffies := k.jiffies + 1 } := ⟨rfl, fun _ => rfl⟩
  unfold Nctuos.timerHandler
  simp only
  split
  · exact hjiffies
  · rename_i p _
    have htick := hjiffies.trans (tickAll _ c p)
    split
    · refine (htick.trans (modTask _ p _ ?_)).trans (schedYield _ c)
      exact fun _ => rfl
    · exact htick

end SameMem

theorem saveFrame_mem (k : Kernel M D) (p : Nat) (tf : Trapframe) :
    SameMem k (k.modTask p fun t => { t with tf := tf }) :=
  SameMem.modTask k p _ fun _ => rfl

/-! ## `sys_kill` -/

theorem sysKill_mem {pid : Nat} {r : Option Nat} (h : sysKill vm k c pid = .ok (r, k')) :
    (∀ q, (k'.tasks q).pgdir = (k.tasks q).pgdir) ∧
      (KillActs k c pid → taskFree vm (k.tasks pid).pgdir k.mem = .ok k'.mem) ∧
      (¬ KillActs k c pid → k'.mem = k.mem) := by
  unfold sysKill at h
  split at h
  · rename_i hacts
    simp only [bind_ok_iff] at h
    obtain ⟨m, hfree, h⟩ := h
    have hreap : SameMem (k.setMem m) (reap k c pid m) := by
      refine ⟨rfl, fun q => ?_⟩
      exact (SameMem.modTask (k.modCpu c _) pid (fun t => { t with state := .free })
        fun _ => rfl).pgdir q
    have hend : SameMem (k.setMem m) k' := by
      split at h
      · cases h
      · split at h
        · rw [Except.ok.injEq] at h
          have hyield := SameMem.schedYield
            ((reap k c pid m).modCpu c fun cpu => { cpu with cpuTask := none }) c
          rw [h] at hyield
          exact (hreap.trans (SameMem.modCpu _ c _)).trans hyield
        · cases h
          exact hreap
    refine ⟨hend.pgdir, fun _ => ?_, fun hn => absurd hacts hn⟩
    rw [hend.mem]
    exact hfree
  · rename_i hacts
    cases h
    exact ⟨fun _ => rfl, fun hn => absurd hn hacts, fun _ => rfl⟩

/-! ## `sys_fork` -/

/-- What `task_create` does with the memory once it has found a slot.  It stores the new
directory there even if the stack loop gives up. -/
theorem taskCreate_mem {r : Option Nat} {pid : Nat} (h : taskCreate vm k c = .ok (r, k'))
    (hfree : findFree k.tasks = some pid) :
    ∃ d m₁ done, vm.setupkvm k.mem = .ok (some d, m₁) ∧
      setupStack vm d stackVas m₁ = .ok (done, k'.mem) ∧ r = (if done then some pid else none) ∧
      (k'.tasks pid).pgdir = some d ∧ ∀ q, q ≠ pid → (k'.tasks q).pgdir = (k.tasks q).pgdir := by
  simp only [taskCreate, hfree, bind_ok_iff] at h
  obtain ⟨⟨d, m₁⟩, hkvm, h⟩ := h
  cases d with
  | none => cases h
  | some d =>
      simp only [bind_ok_iff] at h
      obtain ⟨⟨done, m₂⟩, hstack, h⟩ := h
      refine ⟨d, m₁, done, hkvm, ?_⟩
      cases done with
      | false | true =>
          cases h
          exact ⟨hstack, rfl, by simp, fun q hq => by simp [Kernel.modTask_other _ _ hq]⟩

/-- A `task_create` that found no free slot did nothing. -/
theorem taskCreate_full {r : Option Nat} (h : taskCreate vm k c = .ok (r, k'))
    (hfull : findFree k.tasks = none) : r = none ∧ k' = k := by
  rw [taskCreate, hfull] at h
  cases h
  exact ⟨rfl, rfl⟩

theorem copyParent_mem {pid : Nat} (h : copyParent vm k p pid = .ok k') :
    ∃ parent child m₁, (k.tasks p).pgdir = some parent ∧ (k.tasks pid).pgdir = some child ∧
      stackVas.foldlM (fun m va => vm.copyPage parent child va m) k.mem = .ok m₁ ∧
      vm.mapUser child m₁ = .ok k'.mem ∧ ∀ q, (k'.tasks q).pgdir = (k.tasks q).pgdir := by
  have htf : ∀ (k : Kernel M D) (q : Nat) (f : Trapframe → Trapframe),
      SameMem k (k.modTask q fun t => { t with tf := f t.tf }) := fun k q f =>
    SameMem.modTask k q _ fun _ => rfl
  obtain ⟨parent, child, m₁, m₂, hparent, hchild, hcopy, hmap, rfl⟩ := copyParent_ok h
  refine ⟨parent, child, m₁, hparent, hchild, hcopy, hmap, fun q => ?_⟩
  exact (((htf _ p fun tf => { tf with regEax := BitVec.ofNat 32 pid }).trans
    (htf _ pid fun tf => { tf with regEax := 0 })).pgdir q).trans
    ((htf k pid fun _ => (k.tasks p).tf).pgdir q)

/-- The operations of `sys_fork` on the memory, in their order, when it returns a pid. -/
structure Forks (vm : Vm M D) (k k' : Kernel M D) (p pid : Nat) (parent d : D) : Prop where
  slot : findFree k.tasks = some pid
  from_parent : (k.tasks p).pgdir = some parent
  child : (k'.tasks pid).pgdir = some d
  other : ∀ q, q ≠ pid → (k'.tasks q).pgdir = (k.tasks q).pgdir
  ops : ∃ m₁ m₂ m₃, vm.setupkvm k.mem = .ok (some d, m₁) ∧
    setupStack vm d stackVas m₁ = .ok (true, m₂) ∧
    stackVas.foldlM (fun m va => vm.copyPage parent d va m) m₂ = .ok m₃ ∧
    vm.mapUser d m₃ = .ok k'.mem

/-- The same operations, seen from before the frame of the caller is saved to after the result
is stored. -/
theorem Forks.congr {k₁ k₂ : Kernel M D} {pid : Nat} {parent d : D}
    (h : Forks vm k₁ k₂ p pid parent d) (hbefore : SameMem k k₁)
    (hslot : findFree k.tasks = findFree k₁.tasks) (hafter : SameMem k₂ k') :
    Forks vm k k' p pid parent d where
  slot := hslot.trans h.slot
  from_parent := (hbefore.pgdir p).symm.trans h.from_parent
  child := (hafter.pgdir pid).trans h.child
  other q hq := ((hafter.pgdir q).trans (h.other q hq)).trans (hbefore.pgdir q)
  ops := by
    rw [hafter.mem, ← hbefore.mem]
    exact h.ops

theorem sysFork_mem {pid : Nat} (h : sysFork vm b k c = .ok (some pid, k'))
    (hp : (k.cpus c).cpuTask = some p) (hlive : (k.tasks p).state ≠ .free) :
    ∃ parent d, Forks vm k k' p pid parent d := by
  obtain ⟨hfree, hcur⟩ : findFree k.tasks = some pid ∧
      ∀ r k₁, taskCreate vm k c = .ok (r, k₁) → (k₁.cpus c).cpuTask = some p := by
    rcases sysFork_sched h with ⟨hnone, -⟩ | ⟨pid', hpid, hfree, -⟩
    · cases hnone
    · cases hpid
      refine ⟨hfree, fun r k₁ hcreate => ?_⟩
      rcases taskCreate_sched hcreate with ⟨-, hs⟩ | ⟨_, -, -, hs⟩
      · rw [← hs.cpus]
        exact hp
      · rw [← hs.cpus]
        exact hp
  have hne : p ≠ pid := by
    rintro rfl
    exact hlive (findFree_some hfree).2
  simp only [sysFork, bind_ok_iff] at h
  obtain ⟨⟨r₁, k₁⟩, hcreate, h⟩ := h
  obtain ⟨d, m₁, done, hkvm, hstack, hr, hd, hother⟩ := taskCreate_mem hcreate hfree
  cases done with
  | false =>
      cases hr
      cases h
  | true =>
      cases hr
      simp only [if_pos, bind_ok_iff] at h
      obtain ⟨k₂, hcopy, h⟩ := h
      cases h
      simp only [copyCurrent, hcur _ _ hcreate] at hcopy
      obtain ⟨parent, child, m₃, hparent, hchild, hstacks, hmap, hsame⟩ := copyParent_mem hcopy
      rw [hd, Option.some.injEq] at hchild
      subst hchild
      rw [hother p hne] at hparent
      exact ⟨parent, d, hfree, hparent, (hsame pid).trans hd,
        fun q hq => (hsame q).trans (hother q hq), m₁, k₁.mem, m₃, hkvm, hstack, hstacks, hmap⟩

/-- A fork that returns `-1` although it found a slot: the stack loop gave up. -/
theorem sysFork_starved {pid : Nat} (h : sysFork vm b k c = .ok (none, k'))
    (hfree : findFree k.tasks = some pid) :
    ∃ d m₁, vm.setupkvm k.mem = .ok (some d, m₁) ∧
      setupStack vm d stackVas m₁ = .ok (false, k'.mem) ∧
      ∀ q, q ≠ pid → (k'.tasks q).pgdir = (k.tasks q).pgdir := by
  simp only [sysFork, bind_ok_iff] at h
  obtain ⟨⟨r₁, k₁⟩, hcreate, h⟩ := h
  obtain ⟨d, m₁, done, hkvm, hstack, hr, -, hother⟩ := taskCreate_mem hcreate hfree
  cases done with
  | false =>
      cases hr
      cases h
      exact ⟨d, m₁, hkvm, hstack, hother⟩
  | true =>
      cases hr
      simp only [if_pos, bind_ok_iff] at h
      obtain ⟨k₂, -, h⟩ := h
      cases h

/-- The operations of `task_init_percpu`. -/
theorem taskInitPercpu_mem (h : taskInitPercpu vm b k c = .ok k') :
    ∃ pid d m₁ m₂, findFree k.tasks = some pid ∧ vm.setupkvm k.mem = .ok (some d, m₁) ∧
      setupStack vm d stackVas m₁ = .ok (true, m₂) ∧ vm.mapUser d m₂ = .ok k'.mem ∧
      (k'.tasks pid).pgdir = some d ∧ ∀ q, q ≠ pid → (k'.tasks q).pgdir = (k.tasks q).pgdir := by
  obtain ⟨pid, hfree, -⟩ := taskInitPercpu_sched h
  simp only [taskInitPercpu, bind_ok_iff] at h
  obtain ⟨⟨r, k₁⟩, hcreate, h⟩ := h
  obtain ⟨d, m₁, done, hkvm, hstack, hr, hd, hother⟩ := taskCreate_mem hcreate hfree
  cases done with
  | false =>
      cases hr
      cases h
  | true =>
      cases hr
      simp only [if_pos, Kernel.modCpu_tasks, hd, bind_ok_iff] at h
      obtain ⟨m₂, hmap, h⟩ := h
      cases h
      refine ⟨pid, d, m₁, k₁.mem, hfree, hkvm, hstack, hmap, ?_, fun q hq => ?_⟩
      · simpa using hd
      · simpa [Kernel.modTask_other _ _ hq] using hother q hq

/-! ## The inversion lemma -/

/-- The effect of one entry on the memory, when task `p` was running. -/
def MemEffect (vm : Vm M D) (b : Boot) (k k' : Kernel M D) (e : Entry) (p : Nat) : Call → Prop
  | .fork => ∃ r k₁, sysFork vm b (k.modTask p fun t => { t with tf := e.tf }) e.cpu = .ok (r, k₁) ∧
      SameMem k₁ k' ∧ SameSched k₁ k' ∧ e.resumed.tf.regEax = r.elim (-1) (BitVec.ofNat 32)
  | .kill => ∃ r k₁, sysKill vm (k.modTask p fun t => { t with tf := e.tf }) e.cpu
      (k.tasks p).taskId = .ok (r, k₁) ∧ SameMem k₁ k'
  | _ => SameMem k k'

theorem step_mem {e : Entry} (h : Step vm b k e k') (hp : (k.cpus e.cpu).cpuTask = some p) :
    MemEffect vm b k k' e p (callOf e.tf) := by
  obtain ⟨cpu, tf, key, resumed⟩ := e
  obtain ⟨-, h⟩ := h
  simp only at hp
  simp only [trapDispatch, hp] at h
  have hsave := saveFrame_mem k p tf
  unfold callOf
  split at h
  · rename_i hsys
    rw [if_pos hsys]
    simp only [syscallHandler, Kernel.modTask_same, bind_ok_iff] at h
    obtain ⟨⟨o, k₁⟩, hcall, h⟩ := h
    -- whatever the outcome, storing the result in `eax` is all that follows
    have hafter : SameMem k₁ k' ∧ SameSched k₁ k' ∧
        ∀ v, o = .returned v → resumed.tf.regEax = v := by
      cases o with
      | switched q =>
          cases h
          refine ⟨.refl _, .refl _, fun v hv => ?_⟩
          cases hv
      | returned v =>
          cases h
          refine ⟨SameMem.modTask _ p _ fun _ => rfl,
            SameSched.modTask _ p _ (fun _ => rfl) (fun _ => rfl) fun _ => rfl, fun v' hv' => ?_⟩
          rw [resume, Kernel.modTask_same]
          exact Outcome.returned.inj hv'
    have hcur : ((k.modTask p fun t => { t with tf := tf }).cpus cpu).cpuTask = some p := hp
    simp only [doSyscall, hcur] at hcall
    unfold callOfNo
    cases hno : Syscall.ofNo tf.regEax with
    | none =>
        rw [hno] at hcall
        cases hcall
        exact hsave.trans hafter.1
    | some call =>
        rw [hno] at hcall
        cases call with
        | fork =>
            rw [bind_ok_iff] at hcall
            obtain ⟨⟨r, k₂⟩, hfork, hcall⟩ := hcall
            cases hcall
            refine ⟨r, _, hfork, hafter.1, hafter.2.1, ?_⟩
            rw [hafter.2.2 _ rfl]
            cases r <;> rfl
        | kill =>
            rw [bind_ok_iff] at hcall
            obtain ⟨⟨r, k₂⟩, hkill, hcall⟩ := hcall
            cases hcall
            refine ⟨r, _, ?_, hafter.1⟩
            simpa using hkill
        | sleep =>
            cases hcall
            refine ((hsave.trans (SameMem.modTask _ p _ ?_)).trans
              (SameMem.schedYield _ cpu)).trans hafter.1
            exact fun _ => rfl
        | puts =>
            obtain ⟨-, -, hcall⟩ := bind_ok_iff.mp hcall
            cases hcall
            exact hsave.trans hafter.1
        | _ =>
            cases hcall
            exact hsave.trans hafter.1
  · rename_i hsys
    rw [if_neg hsys]
    split at h
    · rename_i htimer
      rw [if_pos htimer]
      cases h
      exact hsave.trans (SameMem.timerHandler _ cpu)
    · rename_i htimer
      rw [if_neg htimer]
      split at h
      · cases h
        exact hsave
      · split at h <;> cases h

/-! ## Slots in use -/

/-- A fork that returns a pid takes its slot, and no other. -/
theorem sysFork_alive {pid : Nat} (h : sysFork vm b k c = .ok (some pid, k')) (s : Nat) :
    Alive k' s ↔ Alive k s ∨ s = pid := by
  rcases sysFork_sched h with ⟨hnone, -⟩ | ⟨pid', hpid, hfree, hs⟩
  · cases hnone
  · cases hpid
    rw [hs.alive]
    by_cases heq : s = pid
    · subst heq
      simp [Alive]
    · simp [Alive, forked_tasks_other b k heq, heq]

theorem taskInitPercpu_alive {pid : Nat} (h : taskInitPercpu vm b k c = .ok k')
    (hfree : findFree k.tasks = some pid) (s : Nat) : Alive k' s ↔ Alive k s ∨ s = pid := by
  obtain ⟨pid', hfree', hs⟩ := taskInitPercpu_sched h
  obtain rfl := Option.some.inj (hfree.symm.trans hfree')
  rw [hs.alive]
  by_cases heq : s = pid
  · subst heq
    simp [Alive, started]
  · simp [Alive, started, Kernel.modTask_other _ _ heq, heq]

end Nctuos
