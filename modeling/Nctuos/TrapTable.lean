import Nctuos.Sched
import Mathlib.Data.List.Induction

/-!
# The table of the trap handlers

`kernel/trap.c` and `kernel/trap_entry.S`.  A trap with vector `v` goes through `idt[v]` to an entry
stub, the stub pushes a number, and `trap_dispatch` takes that number for the index of the handler
in `trap_hnd`.  `register_handler` sets both tables; nothing but the choice of the stub ties the
number that is pushed to the vector that was taken.

`trap_init` first gives every vector the stub `Default_ISR`, and this pushes `T_DEFAULT`, which is
500, where `trap_hnd` has 256 elements.  So a vector for which nobody has registered a handler is
not found to be unregistered: the kernel reads the word 976 bytes behind the table, and calls what
it finds there unless it is 0.  The same happens to a spurious interrupt, since its stub too is
`Default_ISR`: the test for `IRQ_OFFSET + IRQ_SPURIOUS` compares with a number that no stub of the
kernel pushes.

`served_iff` says for which vectors all goes well, after any sequence of registrations.
`trapDispatch_eq_table` connects this with `trapDispatch`, where the four handlers that the kernel
registers are already looked up.

`trap_hnd` is a function on all indices, of which 256 are the table and the others stand for the
memory behind it.  What is printed is left out.
-/

namespace Nctuos

variable {H : Type}

/-! ## Stubs and gates -/

def tStack : Nat := 12
def tGpflt : Nat := 13
def tDefault : Nat := 500
def irqSpurious : Nat := 7

/-- An entry stub: the number it pushes, and whether it is one of `TRAPHANDLER_NOEC`, which pushes a
0 where the CPU has pushed no error code. -/
structure Stub where
  num : Nat
  noec : Bool
  deriving DecidableEq

namespace Stub

def defaultIsr : Stub := ⟨tDefault, true⟩
def kbdInput : Stub := ⟨irqOffset + irqKbd, true⟩
def timIsr : Stub := ⟨irqOffset + irqTimer, true⟩
def gpflt : Stub := ⟨tGpflt, false⟩
def stackIsr : Stub := ⟨tStack, false⟩
def pgflt : Stub := ⟨tPgflt, false⟩
def syscall : Stub := ⟨tSyscall, true⟩

end Stub

/-- What `SETGATE` puts into a `struct Gatedesc`; the selector is always `GD_KT`. -/
structure Gatedesc where
  entry : Stub
  isTrap : Bool
  dpl : Nat
  deriving DecidableEq

/-- `idt` and `trap_hnd`, over the handlers `H`.  A gate that was never set is `none`, and so is a
handler that is NULL. -/
structure TrapState (H : Type) where
  idt : Nat → Option Gatedesc
  trapHnd : Nat → Option H

/-- The arguments of a call of `register_handler`; NULL is `none`. -/
structure Registration (H : Type) where
  trapno : Int
  hnd : Option H
  trapEntry : Option Stub
  isTrap : Bool
  dpl : Nat

def TrapState.setgate (s : TrapState H) (v : Nat) (g : Gatedesc) : TrapState H :=
  { s with idt := Function.update s.idt v (some g) }

def TrapState.setHnd (s : TrapState H) (v : Nat) (hnd : Option H) : TrapState H :=
  { s with trapHnd := Function.update s.trapHnd v hnd }

def registerHandler (s : TrapState H) (r : Registration H) : TrapState H :=
  match r.trapEntry with
  | none => s
  | some entry =>
      if 0 ≤ r.trapno ∧ r.trapno < 256 then
        (s.setHnd r.trapno.toNat r.hnd).setgate r.trapno.toNat ⟨entry, r.isTrap, r.dpl⟩
      else s

/-- The loop of `trap_init`, as far as `n`. -/
def trapInitLoop (n : Nat) (s : TrapState H) : TrapState H :=
  (List.range n).foldl (fun s i => (s.setgate i ⟨.defaultIsr, true, 0⟩).setHnd i none) s

/-- The registration that `trap_init` makes itself. -/
def pgfltRegistration (pageFaultHandler : H) : Registration H :=
  ⟨tPgflt, some pageFaultHandler, some .pgflt, true, 0⟩

def trapInit (pageFaultHandler : H) (s : TrapState H) : TrapState H :=
  let s := trapInitLoop 256 s
  let s := s.setgate tGpflt ⟨.gpflt, true, 0⟩
  let s := s.setgate tStack ⟨.stackIsr, true, 0⟩
  registerHandler s (pgfltRegistration pageFaultHandler)

/-- `trap_init` and then any calls of `register_handler`. -/
def registered (pageFaultHandler : H) (rs : List (Registration H)) (s : TrapState H) : TrapState H :=
  rs.foldl registerHandler (trapInit pageFaultHandler s)

/-! ## A trap -/

/-- The words on the kernel stack, from the top. -/
abbrev KStack := Nat → BitVec 32

def KStack.push (st : KStack) (w : BitVec 32) : KStack
  | 0 => w
  | i + 1 => st i

/-- What a stub pushes on what the CPU has pushed. -/
def Stub.enter (e : Stub) (st : KStack) : KStack :=
  (if e.noec then st.push 0 else st).push (BitVec.ofNat 32 e.num)

/-- The frame `_alltraps` completes; `regs` are the registers that it pushes itself. -/
def alltraps (regs : Trapframe) (st : KStack) : Trapframe :=
  { regs with
    tfTrapno := st 0
    tfErr := st 1
    tfEip := st 2
    tfCs := (st 3).setWidth 16
    tfEflags := st 4
    tfEsp := st 5
    tfSs := (st 6).setWidth 16 }

inductive TrapOutcome (H : Type)
  /-- A return to the stub. -/
  | ignored
  /-- The handler is called, with `saved` if the frame was copied to `cpu_task->tf` before. -/
  | called (hnd : H) (tf : Trapframe) (saved : Bool)
  | stopped (why : Stop)

/-- What `trap_dispatch` does: the elements of `trap_hnd` that it reads, and how it ends. -/
structure TrapResult (H : Type) where
  reads : List Nat
  outcome : TrapOutcome H

/-- `trap_dispatch`.  The handler is read once for the test and once for the call.  A trap from user
mode is taken to have a current task; without one `trapDispatch` faults. -/
def dispatch (s : TrapState H) (tf : Trapframe) : TrapResult H :=
  if tf.tfTrapno.toNat = irqOffset + irqSpurious then ⟨[], .ignored⟩
  else
    match s.trapHnd tf.tfTrapno.toNat with
    | some hnd =>
        ⟨[tf.tfTrapno.toNat, tf.tfTrapno.toNat], .called hnd tf (decide (tf.tfCs &&& 3 = 3))⟩
    | none => ⟨[tf.tfTrapno.toNat], .stopped (.panic "Unexpected trap!")⟩

/-- The CPU takes vector `v`, if there is a gate. -/
def takeTrap (s : TrapState H) (v : Nat) (regs : Trapframe) (st : KStack) : Option (TrapResult H) :=
  (s.idt v).map fun g => dispatch s (alltraps regs (g.entry.enter st))

/-! ## What should happen -/

/-- The call sets the gate and the handler of vector `v`. -/
def Registration.Sets (r : Registration H) (v : Nat) : Prop := r.trapno = v ∧ r.trapEntry.isSome

instance (r : Registration H) (v : Nat) : Decidable (r.Sets v) := inferInstanceAs (Decidable (_ ∧ _))

/-- The entry stub pushes its own vector number. -/
def Registration.OwnStub (r : Registration H) : Prop :=
  ∀ entry, r.trapEntry = some entry → (entry.num : Int) = r.trapno

/-- The last call that sets vector `v`, that of `trap_init` included. -/
def lastSetting (pageFaultHandler : H) (rs : List (Registration H)) (v : Nat) :
    Option (Registration H) :=
  (pgfltRegistration pageFaultHandler :: rs).reverse.find? fun r => decide (r.Sets v)

/-- The handler last registered for `v`. -/
def lastHandler (pageFaultHandler : H) (rs : List (Registration H)) (v : Nat) : Option H :=
  (lastSetting pageFaultHandler rs v).bind Registration.hnd

/-- A trap with vector `v` reads `trap_hnd` only inside the table and reaches the handler registered
for `v`; if there is none, a spurious interrupt is ignored and anything else is an unexpected
trap. -/
def Served (pageFaultHandler : H) (rs : List (Registration H)) (s : TrapState H) (v : Nat)
    (regs : Trapframe) (st : KStack) : Prop :=
  ∃ d, takeTrap (registered pageFaultHandler rs s) v regs st = some d ∧
    (∀ i ∈ d.reads, i < 256) ∧
    match lastHandler pageFaultHandler rs v with
    | some hnd => ∃ tf saved, d.outcome = .called hnd tf saved
    | none =>
        d.outcome =
          if v = irqOffset + irqSpurious then .ignored else .stopped (.panic "Unexpected trap!")

/-! ## The tables after a sequence of registrations -/

/-- The stub that `trap_init` gives a vector before it registers anything. -/
def initStub (v : Nat) : Stub :=
  if v = tStack then .stackIsr else if v = tGpflt then .gpflt else .defaultIsr

/-- The gate of a vector when `last` is the last call that set it. -/
def lastGate (v : Nat) : Option (Registration H) → Option Gatedesc
  | some r => r.trapEntry.map fun entry => ⟨entry, r.isTrap, r.dpl⟩
  | none => some ⟨initStub v, true, 0⟩

/-- What the tables hold for it then. -/
structure TrapState.Holds (s : TrapState H) (v : Nat) (last : Option (Registration H)) : Prop where
  hnd : s.trapHnd v = last.bind Registration.hnd
  gate : s.idt v = lastGate v last

section Tables

variable {s : TrapState H} {r : Registration H} {rs : List (Registration H)} {v n : Nat}

theorem registerHandler_sets (h : r.Sets v) (hv : v < 256) :
    (registerHandler s r).Holds v (some r) := by
  obtain ⟨htrapno, hentry⟩ := h
  obtain ⟨entry, hsome⟩ := Option.isSome_iff_exists.mp hentry
  have hrange : 0 ≤ r.trapno ∧ r.trapno < 256 := by omega
  have htoNat : r.trapno.toNat = v := by omega
  have hset : registerHandler s r = (s.setHnd v r.hnd).setgate v ⟨entry, r.isTrap, r.dpl⟩ := by
    simp only [registerHandler, hsome, if_pos hrange, htoNat]
  refine ⟨?_, ?_⟩
  · simp [hset, TrapState.setHnd, TrapState.setgate]
  · simp [hset, hsome, TrapState.setgate, lastGate]

theorem registerHandler_other (h : ¬ r.Sets v) :
    (registerHandler s r).trapHnd v = s.trapHnd v ∧ (registerHandler s r).idt v = s.idt v := by
  cases hentry : r.trapEntry with
  | none => simp [registerHandler, hentry]
  | some entry =>
      have htrapno : r.trapno ≠ v := fun heq => h ⟨heq, by simp [hentry]⟩
      by_cases hrange : 0 ≤ r.trapno ∧ r.trapno < 256
      · have hne : v ≠ r.trapno.toNat := by omega
        simp [registerHandler, hentry, hrange, TrapState.setHnd, TrapState.setgate, hne]
      · simp [registerHandler, hentry, if_neg hrange]

/-- One registration more. -/
theorem TrapState.Holds.register {last : Option (Registration H)} (h : s.Holds v last)
    (hv : v < 256) (r : Registration H) :
    (registerHandler s r).Holds v (if r.Sets v then some r else last) := by
  by_cases hsets : r.Sets v
  · rw [if_pos hsets]
    exact registerHandler_sets hsets hv
  · obtain ⟨hhnd, hgate⟩ := @registerHandler_other H s r v hsets
    rw [if_neg hsets]
    exact ⟨hhnd.trans h.hnd, hgate.trans h.gate⟩

theorem trapInitLoop_apply (hv : v < n) :
    (trapInitLoop n s).trapHnd v = none ∧
      (trapInitLoop n s).idt v = some ⟨.defaultIsr, true, 0⟩ := by
  induction n with
  | zero => omega
  | succ n ih =>
      have hturn : trapInitLoop (n + 1) s =
          ((trapInitLoop n s).setgate n ⟨.defaultIsr, true, 0⟩).setHnd n none := by
        rw [trapInitLoop, List.range_succ, List.foldl_append]
        rfl
      simp only [hturn, TrapState.setHnd, TrapState.setgate]
      by_cases heq : v = n
      · subst heq
        simp
      · simp only [Function.update_of_ne heq]
        exact ih (by omega)

/-- Before `trap_init` registers the handler of page faults. -/
theorem trapInit_holds (hv : v < 256) :
    (((trapInitLoop 256 s).setgate tGpflt ⟨.gpflt, true, 0⟩).setgate tStack
      ⟨.stackIsr, true, 0⟩).Holds v none := by
  obtain ⟨hhnd, hidt⟩ := @trapInitLoop_apply H s v 256 hv
  refine ⟨hhnd, ?_⟩
  simp only [TrapState.setgate, lastGate, initStub]
  by_cases hstack : v = tStack
  · simp [hstack]
  · rw [Function.update_of_ne hstack, if_neg hstack]
    by_cases hgpflt : v = tGpflt
    · simp [hgpflt]
    · rw [Function.update_of_ne hgpflt, if_neg hgpflt, hidt]

variable (pageFaultHandler : H)

theorem lastSetting_nil :
    lastSetting pageFaultHandler [] v =
      if (pgfltRegistration pageFaultHandler).Sets v then some (pgfltRegistration pageFaultHandler)
      else none := by
  rw [lastSetting, List.reverse_singleton, List.find?_cons]
  split <;> simp_all

theorem lastSetting_concat :
    lastSetting pageFaultHandler (rs ++ [r]) v =
      if r.Sets v then some r else lastSetting pageFaultHandler rs v := by
  rw [lastSetting, ← List.cons_append, List.reverse_append, List.reverse_singleton,
    List.singleton_append, List.find?_cons, ← lastSetting]
  split <;> simp_all

/-- Both tables hold, for each vector, what the last call that set it has put there. -/
theorem registered_holds (s : TrapState H) (rs : List (Registration H)) (hv : v < 256) :
    (registered pageFaultHandler rs s).Holds v (lastSetting pageFaultHandler rs v) := by
  induction rs using List.reverseRecOn with
  | nil =>
      have hinit : (trapInit pageFaultHandler s).Holds v _ :=
        (trapInit_holds hv).register hv (pgfltRegistration pageFaultHandler)
      rwa [lastSetting_nil]
  | append_singleton rs r ih =>
      rw [registered, List.foldl_append, lastSetting_concat]
      exact ih.register hv r

/-- The call found last is one of the list, and sets the vector. -/
theorem lastSetting_spec (h : lastSetting pageFaultHandler rs v = some r) :
    r ∈ pgfltRegistration pageFaultHandler :: rs ∧ r.Sets v := by
  rw [lastSetting] at h
  have hfound := List.find?_some h
  exact ⟨List.mem_reverse.mp (List.mem_of_find?_eq_some h), of_decide_eq_true hfound⟩

/-- The vectors with a stub of their own: those that were ever set, and the two for which
`trap_init` sets a gate and no handler. -/
def HasStub (rs : List (Registration H)) (v : Nat) : Prop :=
  (lastSetting pageFaultHandler rs v).isSome ∨ v = tStack ∨ v = tGpflt

instance : Decidable (HasStub pageFaultHandler rs v) := inferInstanceAs (Decidable (_ ∨ _))

/-- The number that the stub of a vector pushes. -/
theorem registered_gate (s : TrapState H) (hown : ∀ r ∈ rs, r.OwnStub) (hv : v < 256) :
    ∃ g, (registered pageFaultHandler rs s).idt v = some g ∧
      g.entry.num = if HasStub pageFaultHandler rs v then v else tDefault := by
  have hgate := (registered_holds pageFaultHandler s rs hv).gate
  cases hlast : lastSetting pageFaultHandler rs v with
  | none =>
      have hstub : HasStub pageFaultHandler rs v ↔ v = tStack ∨ v = tGpflt := by
        simp [HasStub, hlast]
      refine ⟨⟨initStub v, true, 0⟩, by rw [hgate, hlast, lastGate], ?_⟩
      simp only [hstub, initStub]
      by_cases hstack : v = tStack
      · simp [hstack, Stub.stackIsr]
      · by_cases hgpflt : v = tGpflt
        · simp [hgpflt, tGpflt, tStack, Stub.gpflt]
        · simp [hstack, hgpflt, Stub.defaultIsr]
  | some r =>
      have hstub : HasStub pageFaultHandler rs v := Or.inl (by rw [hlast, Option.isSome_some])
      obtain ⟨hmem, htrapno, hentry⟩ := lastSetting_spec pageFaultHandler hlast
      obtain ⟨entry, hsome⟩ := Option.isSome_iff_exists.mp hentry
      have hnum : (entry.num : Int) = r.trapno := by
        rcases List.mem_cons.mp hmem with rfl | hmem
        · obtain rfl := Option.some.inj hsome
          rfl
        · exact hown r hmem entry hsome
      refine ⟨⟨entry, r.isTrap, r.dpl⟩, by rw [hgate, hlast, lastGate, hsome, Option.map_some], ?_⟩
      rw [if_pos hstub]
      change entry.num = v
      omega

theorem registered_trapHnd (s : TrapState H) (rs : List (Registration H)) (hv : v < 256) :
    (registered pageFaultHandler rs s).trapHnd v = lastHandler pageFaultHandler rs v :=
  (registered_holds pageFaultHandler s rs hv).hnd

end Tables

/-! ## Which vectors are served -/

section Served

variable {pageFaultHandler : H} {s : TrapState H} {rs : List (Registration H)} {v : Nat}
  {regs : Trapframe} {st : KStack}

/-- What happens to a vector, by the number that its stub pushes. -/
theorem takeTrap_spec (hown : ∀ r ∈ rs, r.OwnStub) (hv : v < 256) :
    ∃ tf, takeTrap (registered pageFaultHandler rs s) v regs st =
        some (dispatch (registered pageFaultHandler rs s) tf) ∧
      tf.tfTrapno.toNat = if HasStub pageFaultHandler rs v then v else tDefault := by
  obtain ⟨g, hgate, hnum⟩ := registered_gate pageFaultHandler s hown hv
  refine ⟨alltraps regs (g.entry.enter st), by rw [takeTrap, hgate, Option.map_some], ?_⟩
  change (BitVec.ofNat 32 g.entry.num).toNat = _
  rw [BitVec.toNat_ofNat, hnum, Nat.mod_eq_of_lt]
  split
  · omega
  · decide

/-- Without a stub of its own a vector makes the kernel read behind the table. -/
theorem takeTrap_default (hown : ∀ r ∈ rs, r.OwnStub) (hv : v < 256)
    (hstub : ¬ HasStub pageFaultHandler rs v) :
    ∃ d, takeTrap (registered pageFaultHandler rs s) v regs st = some d ∧ tDefault ∈ d.reads := by
  obtain ⟨tf, htake, hno⟩ := @takeTrap_spec H pageFaultHandler s rs v regs st hown hv
  rw [if_neg hstub] at hno
  have hspur : tDefault ≠ irqOffset + irqSpurious := by decide
  refine ⟨_, htake, ?_⟩
  simp only [dispatch, hno, if_neg hspur]
  split <;> simp

/-- So it is not served. -/
theorem default_not_served (hown : ∀ r ∈ rs, r.OwnStub) (hv : v < 256)
    (hstub : ¬ HasStub pageFaultHandler rs v) :
    (∃ d, takeTrap (registered pageFaultHandler rs s) v regs st = some d ∧ tDefault ∈ d.reads) ∧
      ¬ Served pageFaultHandler rs s v regs st := by
  obtain ⟨d, hd, hmem⟩ := @takeTrap_default H pageFaultHandler s rs v regs st hown hv hstub
  refine ⟨⟨d, hd, hmem⟩, ?_⟩
  rintro ⟨d', hd', hreads, -⟩
  obtain rfl := Option.some.inj (hd.symm.trans hd')
  exact absurd (hreads _ hmem) (by decide)

/-- **A vector is served if and only if it has a stub of its own**, and, should it be that of the
spurious interrupt, nobody has registered a handler for it: that handler would never be called.
Whatever lies behind `trap_hnd`, whatever is on the stack and wherever the CPU comes from. -/
theorem served_iff (hown : ∀ r ∈ rs, r.OwnStub) (hv : v < 256) :
    Served pageFaultHandler rs s v regs st ↔
      HasStub pageFaultHandler rs v ∧
        (v = irqOffset + irqSpurious → lastHandler pageFaultHandler rs v = none) := by
  by_cases hstub : HasStub pageFaultHandler rs v
  · -- the stub pushes `v`, and the element read is that of `v`
    obtain ⟨tf, htake, hno⟩ := @takeTrap_spec H pageFaultHandler s rs v regs st hown hv
    have hhnd := registered_trapHnd pageFaultHandler s rs hv
    rw [if_pos hstub] at hno
    simp only [Served, htake, Option.some.injEq, exists_eq_left', dispatch, hno, hhnd, hstub,
      true_and]
    by_cases hspur : v = irqOffset + irqSpurious
    · cases hlast : lastHandler pageFaultHandler rs v <;> simp [hspur]
    · cases hlast : lastHandler pageFaultHandler rs v <;> simp [hspur, hv]
  · exact iff_of_false (default_not_served hown hv hstub).2 fun h => hstub h.1

end Served

/-! ## The kernel's own table -/

/-- The handlers that the kernel registers. -/
inductive KernelHandler
  | pageFaultHandler
  | kbdIntr
  | timerHandler
  | syscallHandler
  deriving DecidableEq

/-- The calls of `kbd_init`, `timer_init` and `syscall_init`. -/
def kernelRegistrations : List (Registration KernelHandler) :=
  [⟨irqOffset + irqKbd, some .kbdIntr, some .kbdInput, false, 0⟩,
    ⟨irqOffset + irqTimer, some .timerHandler, some .timIsr, false, 0⟩,
    ⟨tSyscall, some .syscallHandler, some .syscall, true, 3⟩]

theorem kernelRegistrations_ownStub : ∀ r ∈ kernelRegistrations, r.OwnStub := by
  intro r hr entry hentry
  simp only [kernelRegistrations, List.mem_cons, List.not_mem_nil, or_false] at hr
  rcases hr with rfl | rfl | rfl <;> obtain rfl := Option.some.inj hentry <;> rfl

/-- The memory of the two tables before `trap_init`. -/
def TrapState.zero : TrapState KernelHandler := ⟨fun _ => none, fun _ => none⟩

/-- A system call is served. -/
theorem syscall_served :
    Served .pageFaultHandler kernelRegistrations .zero tSyscall {} (fun _ => 0) :=
  (served_iff kernelRegistrations_ownStub (by decide)).mpr ⟨by decide, fun h => absurd h (by decide)⟩

/-- With what the kernel registers, neither a divide error nor a spurious interrupt is: the element
500 of `trap_hnd` is read. -/
theorem unregistered_reads_beyond_table :
    ((∃ d, takeTrap (registered .pageFaultHandler kernelRegistrations .zero) 0 {} (fun _ => 0) =
        some d ∧ 500 ∈ d.reads) ∧
      ¬ Served .pageFaultHandler kernelRegistrations .zero 0 {} (fun _ => 0)) ∧
    (∃ d, takeTrap (registered .pageFaultHandler kernelRegistrations .zero)
        (irqOffset + irqSpurious) {} (fun _ => 0) = some d ∧ 500 ∈ d.reads) ∧
      ¬ Served .pageFaultHandler kernelRegistrations .zero (irqOffset + irqSpurious) {}
        (fun _ => 0) :=
  ⟨default_not_served kernelRegistrations_ownStub (by decide) (by decide),
    default_not_served kernelRegistrations_ownStub (by decide) (by decide)⟩

section Kernel

variable {M D : Type}

/-- What a handler does to a trap from user mode of task `p`, whose frame has been saved. -/
def KernelHandler.run (vm : Vm M D) (b : Boot) (k : Kernel M D) (c p : Nat) (key : BitVec 32) :
    KernelHandler → Except Stop (Resume × Kernel M D)
  | .pageFaultHandler => .error .hang
  | .kbdIntr => .ok (resume k p, k)
  | .timerHandler =>
      let r := Nctuos.timerHandler k c
      .ok (resume r.2 (r.1.getD p), r.2)
  | .syscallHandler => Nctuos.syscallHandler vm b k c p key

/-- The handlers behind `trap_hnd` once the kernel is up. -/
theorem lastHandler_kernel (v : Nat) :
    lastHandler .pageFaultHandler kernelRegistrations v =
      if v = tSyscall then some .syscallHandler
      else if v = irqOffset + irqTimer then some .timerHandler
      else if v = irqOffset + irqKbd then some .kbdIntr
      else if v = tPgflt then some .pageFaultHandler
      else none := by
  have hsets : ∀ (no : Nat) (hnd : Option KernelHandler) (entry : Stub) (isTrap : Bool) (dpl : Nat),
      (⟨no, hnd, some entry, isTrap, dpl⟩ : Registration KernelHandler).Sets v ↔ v = no := by
    intro no hnd entry isTrap dpl
    simp only [Registration.Sets, Option.isSome_some, and_true]
    omega
  rw [lastHandler, kernelRegistrations, ← List.nil_append (_ :: _), List.append_cons,
    List.append_cons, List.append_cons, List.append_nil, lastSetting_concat, lastSetting_concat,
    lastSetting_concat, lastSetting_nil]
  simp only [pgfltRegistration, ← Nat.cast_add, hsets]
  split_ifs <;> rfl

/-- `trapDispatch`, which the scheduler is modelled with, goes through the table. -/
theorem trapDispatch_eq_table {vm : Vm M D} {b : Boot} {k : Kernel M D} {c p : Nat} {tf : Trapframe}
    {key : BitVec 32} (s : TrapState KernelHandler) (hp : (k.cpus c).cpuTask = some p)
    (hno : tf.tfTrapno.toNat < 256) (hspur : tf.tfTrapno.toNat ≠ irqOffset + irqSpurious) :
    trapDispatch vm b k c tf key =
      match (dispatch (registered .pageFaultHandler kernelRegistrations s) tf).outcome with
      | .ignored => .ok (resume k p, k)
      | .called hnd tf _ => hnd.run vm b (k.modTask p fun t => { t with tf := tf }) c p key
      | .stopped why => .error why := by
  have hhnd := registered_trapHnd .pageFaultHandler s kernelRegistrations hno
  simp only [trapDispatch, hp, dispatch, if_neg hspur, hhnd, lastHandler_kernel]
  split_ifs <;> rfl

end Kernel

end Nctuos
