import Nctuos.Task
import Nctuos.Lib.Critical

/-!
# Spin locks

`kernel/spinlock.c`, with the checks of `DEBUG_SPINLOCK`, one access to the lock a step.  Any number
of CPUs call `spin_lock` and `spin_unlock`, in any order and also when they should not.  The
exchange of `locked` is atomic; the loads of `holding`, and the stores that record who has the lock,
are not protected by anything.

The lock excludes, and the checks are exact all the same (`spinlock_excludes`): a CPU is stopped in
`spin_lock` only if it has the lock already, in `spin_unlock` only if it has not, and it is not let
through then either.  The reason is the order of the stores.  `cpu` names a CPU only while that CPU
has the lock, because it is set after the exchange that takes the lock and cleared before the one
that gives it back; so what another CPU may read there, at whatever time, is not its own name.

`held` is what the caller knows: that its last call to return was `spin_lock`.
-/

namespace Nctuos

open Lib

/-! ## The lock -/

/-- `struct spinlock`; `cpu` is an index into `cpus`, or `none` for NULL. -/
structure Spinlock where
  locked : BitVec 32
  cpu : Option Nat
  pcs : Nat → BitVec 32

/-- `__spin_initlock`, on anything. -/
def spinInitlock (lk : Spinlock) : Spinlock := { lk with locked := 0, cpu := none }

/-- `get_caller_pcs`, from the `n`-th entry to the last: what it stores when the frame pointer is
`ebp` and the stack holds `mem`. -/
def getCallerPcs (mem : BitVec 32 → BitVec 32) : Nat → BitVec 32 → List (BitVec 32)
  | 0, _ => []
  | n + 1, ebp =>
      if ebp = 0 ∨ ebp < BitVec.ofNat 32 ulim then List.replicate (n + 1) 0
      else mem (ebp + 4) :: getCallerPcs mem n (mem ebp)

theorem getCallerPcs_length (mem : BitVec 32 → BitVec 32) (n : Nat) (ebp : BitVec 32) :
    (getCallerPcs mem n ebp).length = n := by
  induction n generalizing ebp with
  | zero => rfl
  | succ n ih =>
      rw [getCallerPcs]
      split
      · exact List.length_replicate
      · rw [List.length_cons, ih]

/-! ## The callers -/

inductive LockCall
  | lock
  | unlock
  deriving DecidableEq

/-- Where a CPU stands. -/
inductive LockPc
  /-- In neither function. -/
  | out (held : Bool)
  /-- `holding`: before the load of `locked`. -/
  | loadLocked (call : LockCall) (held : Bool)
  /-- Before the load of `cpu`, `locked` not being 0. -/
  | loadCpu (call : LockCall) (held : Bool)
  /-- `spin_lock`: before `xchg(&lk->locked, 1)`. -/
  | exchange (held : Bool)
  /-- Before `lk->cpu = thiscpu`. -/
  | record
  /-- `get_caller_pcs`: before the store of `pcs[i]`, with what is to be stored from there on. -/
  | trace (i : Nat) (pcs : List (BitVec 32))
  /-- `spin_unlock`: before `lk->pcs[0] = 0`. -/
  | untrace (held : Bool)
  /-- Before `lk->cpu = 0`. -/
  | clear (held : Bool)
  /-- Before `xchg(&lk->locked, 0)`. -/
  | release (held : Bool)
  /-- `spin_unlock` by a CPU without the lock: before `lk->cpu->cpu_id` is printed. -/
  | report (held : Bool)
  /-- For good. -/
  | stopped (call : LockCall) (held : Bool) (why : Stop)

/-- Where `holding` returns to. -/
def LockPc.afterHolding (held : Bool) : LockCall → Bool → LockPc
  | .lock, true => .stopped .lock held (.panic "CPU %d cannot acquire %s: already holding")
  | .lock, false => .exchange held
  | .unlock, true => .untrace held
  | .unlock, false => .report held

/-- A lock and the CPUs around it. -/
structure LockSys where
  lk : Spinlock
  pc : Nat → LockPc

namespace LockSys

/-- CPU `i` goes on at `pc`. -/
def goto (s : LockSys) (i : Nat) (pc : LockPc) : LockSys :=
  { s with pc := Function.update s.pc i pc }

@[simp] theorem goto_pc (s : LockSys) (i : Nat) (pc : LockPc) : (s.goto i pc).pc i = pc :=
  Function.update_self _ _ _

theorem goto_pc_of_ne (s : LockSys) {i j : Nat} (pc : LockPc) (h : j ≠ i) :
    (s.goto i pc).pc j = s.pc j :=
  Function.update_of_ne h _ _

/-- CPU `i` calls one of the two functions. -/
def call (s : LockSys) (i : Nat) (f : LockCall) : Option LockSys :=
  match s.pc i with
  | .out held => some (s.goto i (.loadLocked f held))
  | _ => none

/-- The next access of CPU `i`.  `mem` and `ebp` are its stack, for `get_caller_pcs`. -/
def go (s : LockSys) (i : Nat) (mem : BitVec 32 → BitVec 32) (ebp : BitVec 32) : Option LockSys :=
  match s.pc i with
  | .out _ => none
  | .loadLocked f held =>
      if s.lk.locked ≠ 0 then some (s.goto i (.loadCpu f held))
      else some (s.goto i (.afterHolding held f false))
  | .loadCpu f held => some (s.goto i (.afterHolding held f (s.lk.cpu = some i)))
  | .exchange held =>
      -- the value that was there decides whether the loop goes on
      let s' := { s with lk := { s.lk with locked := 1 } }
      if s.lk.locked ≠ 0 then some (s'.goto i (.exchange held)) else some (s'.goto i .record)
  | .record =>
      some ({ s with lk := { s.lk with cpu := some i } }.goto i (.trace 0 (getCallerPcs mem 10 ebp)))
  | .trace _ [] => some (s.goto i (.out true))
  | .trace n (x :: pcs) =>
      some ({ s with lk := { s.lk with pcs := Function.update s.lk.pcs n x } }.goto i
        (.trace (n + 1) pcs))
  | .untrace held =>
      some ({ s with lk := { s.lk with pcs := Function.update s.lk.pcs 0 0 } }.goto i (.clear held))
  | .clear held => some ({ s with lk := { s.lk with cpu := none } }.goto i (.release held))
  | .release _ => some ({ s with lk := { s.lk with locked := 0 } }.goto i (.out false))
  | .report held =>
      match s.lk.cpu with
      | none => some (s.goto i (.stopped .unlock held .fault))
      | some _ => some (s.goto i (.stopped .unlock held (.panic "spin_unlock")))
  | .stopped _ _ _ => none

/-- Whose turn it is, and what it does. -/
inductive Turn
  | call (i : Nat) (f : LockCall)
  | go (i : Nat) (mem : BitVec 32 → BitVec 32) (ebp : BitVec 32)

def step (s : LockSys) : Turn → Option LockSys
  | .call i f => s.call i f
  | .go i mem ebp => s.go i mem ebp

def Steps (s : LockSys) (t : Turn) (s' : LockSys) : Prop := s.step t = some s'

variable {s s' : LockSys} {i j : Nat}

/-- The other CPUs stay where they are. -/
theorem call_pc_of_ne {f : LockCall} (h : s.call i f = some s') (hj : j ≠ i) :
    s'.pc j = s.pc j := by
  rw [call] at h
  split at h
  · cases h
    exact s.goto_pc_of_ne _ hj
  · cases h

theorem go_pc_of_ne {mem : BitVec 32 → BitVec 32} {ebp : BitVec 32} (h : s.go i mem ebp = some s')
    (hj : j ≠ i) : s'.pc j = s.pc j := by
  rw [go] at h
  -- every access ends in a `goto`
  split at h
  all_goals first
    | cases h
    | (split at h <;> cases h)
  all_goals exact goto_pc_of_ne _ _ hj

/-- After `spin_initlock`, with nobody near the lock. -/
def init (lk : Spinlock) : LockSys := ⟨spinInitlock lk, fun _ => .out false⟩

end LockSys

/-! ## Who has the lock -/

/-- From the exchange that takes the lock to the one that gives it back. -/
def LockPc.owns : LockPc → Bool
  | .out held => held
  | .loadLocked _ held => held
  | .loadCpu _ held => held
  | .exchange held => held
  | .record => true
  | .trace _ _ => true
  | .untrace held => held
  | .clear held => held
  | .release held => held
  | .report held => held
  | .stopped _ held _ => held

/-- From the store to `cpu` to the one that clears it. -/
def LockPc.recorded : LockPc → Bool
  | .record => false
  | .release _ => false
  | pc => pc.owns

/-- The checks let only those through that may go on, and stop the others. -/
def LockPc.Checked : LockPc → Prop
  | .exchange held => held = false
  | .untrace held => held = true
  | .clear held => held = true
  | .release held => held = true
  | .report held => held = false
  | .stopped .lock held _ => held = true
  | .stopped .unlock held _ => held = false
  | _ => True

/-- The lock and the CPUs agree on who has it. -/
structure LockInv (s : LockSys) (owner : Option Nat) : Prop where
  owns : ∀ i, (s.pc i).owns = true ↔ owner = some i
  locked : s.lk.locked = 0 ↔ owner = none
  cpu : ∀ i, s.lk.cpu = some i ↔ (s.pc i).recorded = true
  checked : ∀ i, (s.pc i).Checked

/-- What a CPU is about, as far as its caller can tell. -/
inductive LockPhase
  | idle
  | acquiring
  | inside
  | leaving
  | misused
  deriving DecidableEq

def LockPc.phase : LockPc → LockPhase
  | .out false => .idle
  | .out true => .inside
  | .loadLocked .lock false => .acquiring
  | .loadCpu .lock false => .acquiring
  | .exchange false => .acquiring
  | .record => .inside
  | .trace _ _ => .inside
  | .loadLocked .unlock true => .leaving
  | .loadCpu .unlock true => .leaving
  | .untrace true => .leaving
  | .clear true => .leaving
  | .release true => .leaving
  | _ => .misused

namespace LockInv

variable {s s' : LockSys} {owner : Option Nat} {i : Nat} {lk : Spinlock} {pc : LockPc}

theorem init (lk : Spinlock) : LockInv (.init lk) none where
  owns _ := by simp [LockSys.init, LockPc.owns]
  locked := by simp [LockSys.init, spinInitlock]
  cpu _ := by simp [LockSys.init, spinInitlock, LockPc.recorded, LockPc.owns]
  checked _ := trivial

/-- A step of CPU `i`: what is to be seen of it, and that it leaves the others alone. -/
theorem update {owner' : Option Nat} (h : LockInv s owner)
    (hothers : ∀ j, j ≠ i → (owner' = some j ↔ owner = some j))
    (howns : pc.owns = true ↔ owner' = some i) (hlocked : lk.locked = 0 ↔ owner' = none)
    (hcpus : ∀ j, j ≠ i → (lk.cpu = some j ↔ s.lk.cpu = some j))
    (hcpu : lk.cpu = some i ↔ pc.recorded = true) (hpc : pc.Checked) :
    LockInv ⟨lk, Function.update s.pc i pc⟩ owner' := by
  refine ⟨fun j => ?_, hlocked, fun j => ?_, fun j => ?_⟩
  all_goals
    dsimp only
    by_cases hj : j = i
  · rw [hj, Function.update_self]
    exact howns
  · rw [Function.update_of_ne hj, hothers j hj]
    exact h.owns j
  · rw [hj, Function.update_self]
    exact hcpu
  · rw [Function.update_of_ne hj, hcpus j hj]
    exact h.cpu j
  · rw [hj, Function.update_self]
    exact hpc
  · rw [Function.update_of_ne hj]
    exact h.checked j

/-- A step that concerns neither who has the lock nor what is recorded of it. -/
theorem move (h : LockInv s owner) (hlocked : lk.locked = 0 ↔ s.lk.locked = 0)
    (hcpu : lk.cpu = s.lk.cpu) (howns : pc.owns = (s.pc i).owns)
    (hrec : pc.recorded = (s.pc i).recorded) (hpc : pc.Checked) :
    LockInv ⟨lk, Function.update s.pc i pc⟩ owner := by
  refine h.update (fun _ _ => Iff.rfl) ?_ ?_ (fun _ _ => by rw [hcpu]) ?_ hpc
  · rw [howns]
    exact h.owns i
  · rw [hlocked]
    exact h.locked
  · rw [hcpu, hrec]
    exact h.cpu i

/-- Only the owner is recorded. -/
theorem ne_of_owner (h : LockInv s (some i)) {j : Nat} (hj : j ≠ i) : s.lk.cpu ≠ some j := by
  intro hcpu
  have hrec := (h.cpu j).mp hcpu
  have howns : (s.pc j).owns = true := by
    cases hpc : s.pc j with
    | record => rfl
    | release held =>
        have := h.checked j
        rw [hpc] at this
        exact this
    | _ =>
        rw [hpc] at hrec
        exact hrec
  exact hj (Option.some.inj ((h.owns j).mp howns)).symm

/-- The exchange that finds the lock free. -/
theorem take (h : LockInv s none) (hpc : s.pc i = .exchange false) :
    LockInv ⟨{ s.lk with locked := 1 }, Function.update s.pc i .record⟩ (some i) := by
  refine h.update (fun j hj => ?_) (iff_of_true rfl rfl) ?_ (fun _ _ => Iff.rfl) ?_ trivial
  · simp [Ne.symm hj]
  · simp
  · refine (h.cpu i).trans ?_
    rw [hpc]
    rfl

theorem record (h : LockInv s owner) (hpc : s.pc i = .record) (pcs : List (BitVec 32)) :
    LockInv ⟨{ s.lk with cpu := some i }, Function.update s.pc i (.trace 0 pcs)⟩ owner := by
  obtain rfl : owner = some i := (h.owns i).mp (by rw [hpc]; rfl)
  refine h.update (fun _ _ => Iff.rfl) (iff_of_true rfl rfl) h.locked (fun j hj => ?_)
    (iff_of_true rfl rfl) trivial
  exact iff_of_false (by simpa using Ne.symm hj) (h.ne_of_owner hj)

theorem clear (h : LockInv s owner) (hpc : s.pc i = .clear true) :
    LockInv ⟨{ s.lk with cpu := none }, Function.update s.pc i (.release true)⟩ owner := by
  obtain rfl : owner = some i := (h.owns i).mp (by rw [hpc]; rfl)
  refine h.update (fun _ _ => Iff.rfl) (iff_of_true rfl rfl) h.locked (fun j hj => ?_) ?_ rfl
  · exact iff_of_false (by simp) (h.ne_of_owner hj)
  · simp [LockPc.recorded]

/-- The exchange that gives the lock back. -/
theorem release (h : LockInv s owner) (hpc : s.pc i = .release true) :
    LockInv ⟨{ s.lk with locked := 0 }, Function.update s.pc i (.out false)⟩ none := by
  obtain rfl : owner = some i := (h.owns i).mp (by rw [hpc]; rfl)
  refine h.update (fun j hj => ?_) (iff_of_false (by simp [LockPc.owns]) (by simp))
    (iff_of_true rfl rfl) (fun _ _ => Iff.rfl) ?_ trivial
  · simp [Ne.symm hj]
  · refine (h.cpu i).trans ?_
    rw [hpc]
    rfl

theorem goto (h : LockInv s owner) (howns : pc.owns = (s.pc i).owns)
    (hrec : pc.recorded = (s.pc i).recorded) (hpc : pc.Checked) : LockInv (s.goto i pc) owner :=
  h.move Iff.rfl rfl howns hrec hpc

/-- `holding` is right about the CPU that calls it. -/
theorem holding (h : LockInv s owner) {f : LockCall} {held : Bool}
    (hpc : s.pc i = .loadCpu f held) : decide (s.lk.cpu = some i) = held := by
  have hcpu := h.cpu i
  rw [hpc] at hcpu
  exact Bool.eq_iff_iff.mpr (decide_eq_true_iff.trans hcpu)

end LockInv

/-! ## One access -/

/-- What an access of CPU `i` is, seen from outside: it takes the lock, it gives it back, or it is
neither. -/
inductive LockEffect (s s' : LockSys) (i : Nat) : Option Nat → Option Nat → Prop
  | quiet {owner : Option Nat} (phase : (s'.pc i).phase = (s.pc i).phase) :
      LockEffect s s' i owner owner
  | takes (before : (s.pc i).phase = .acquiring) (after : (s'.pc i).phase = .inside) :
      LockEffect s s' i none (some i)
  | gives (before : (s.pc i).phase = .leaving) (after : (s'.pc i).phase = .idle) :
      LockEffect s s' i (some i) none

namespace LockInv

variable {s s' : LockSys} {owner : Option Nat} {i : Nat}

/-- An access that changes only where the CPU stands. -/
theorem quiet_goto {pc pc' : LockPc} (h : LockInv s owner) (hpc : s.pc i = pc)
    (howns : pc'.owns = pc.owns) (hrec : pc'.recorded = pc.recorded) (hchecked : pc'.Checked)
    (hphase : pc'.phase = pc.phase) :
    ∃ owner', LockInv (s.goto i pc') owner' ∧ LockEffect s (s.goto i pc') i owner owner' := by
  subst hpc
  refine ⟨owner, h.goto howns hrec hchecked, .quiet ?_⟩
  rw [LockSys.goto_pc]
  exact hphase

theorem after_holding (h : LockInv s owner) {f : LockCall} {held : Bool} {pc : LockPc}
    (hpc : s.pc i = pc) (hpc' : pc = .loadLocked f held ∨ pc = .loadCpu f held) :
    ∃ owner', LockInv (s.goto i (.afterHolding held f held)) owner' ∧
      LockEffect s (s.goto i (.afterHolding held f held)) i owner owner' := by
  rcases hpc' with rfl | rfl
  all_goals
    cases f <;> cases held <;> exact h.quiet_goto hpc rfl rfl (by trivial) rfl

/-- Every access of CPU `i`. -/
theorem go {mem : BitVec 32 → BitVec 32} {ebp : BitVec 32} (h : LockInv s owner)
    (hgo : s.go i mem ebp = some s') :
    ∃ owner', LockInv s' owner' ∧ LockEffect s s' i owner owner' := by
  have hchecked := h.checked i
  have howns := h.owns i
  rw [LockSys.go] at hgo
  cases hpc : s.pc i with
  | out held => simp [hpc] at hgo
  | loadLocked f held =>
      rw [hpc] at hgo howns
      dsimp only at hgo
      split at hgo
      · cases hgo
        cases f <;> cases held <;> exact h.quiet_goto hpc rfl rfl (by trivial) rfl
      · rename_i hfree
        -- nobody has the lock, this CPU among them
        obtain rfl : held = false := by
          have hnone := h.locked.mp (not_not.mp hfree)
          rw [hnone] at howns
          exact Bool.eq_false_iff.mpr fun hheld => by simpa using howns.mp hheld
        cases hgo
        exact h.after_holding hpc (Or.inl rfl)
  | loadCpu f held =>
      rw [hpc] at hgo
      dsimp only at hgo
      rw [h.holding hpc] at hgo
      cases hgo
      exact h.after_holding hpc (Or.inr rfl)
  | exchange held =>
      rw [hpc] at hgo hchecked
      obtain rfl : held = false := hchecked
      dsimp only at hgo
      split at hgo
      · rename_i htaken
        cases hgo
        refine ⟨owner, h.move ?_ rfl (by rw [hpc]) (by rw [hpc]) rfl, .quiet ?_⟩
        · exact iff_of_false (by simp) htaken
        · rw [hpc, LockSys.goto_pc]
      · rename_i hfree
        obtain rfl := h.locked.mp (not_not.mp hfree)
        cases hgo
        refine ⟨some i, h.take hpc, .takes (by rw [hpc]; rfl) ?_⟩
        rw [LockSys.goto_pc]
        rfl
  | record =>
      rw [hpc] at hgo
      cases hgo
      refine ⟨owner, h.record hpc _, .quiet ?_⟩
      rw [hpc, LockSys.goto_pc]
      rfl
  | trace n pcs =>
      rw [hpc] at hgo
      cases pcs with
      | nil =>
          cases hgo
          exact h.quiet_goto hpc rfl rfl trivial rfl
      | cons x pcs =>
          cases hgo
          refine ⟨owner, h.move Iff.rfl rfl (by rw [hpc]; rfl) (by rw [hpc]; rfl) trivial, .quiet ?_⟩
          rw [hpc, LockSys.goto_pc]
          rfl
  | untrace held =>
      rw [hpc] at hgo hchecked
      obtain rfl : held = true := hchecked
      cases hgo
      refine ⟨owner, h.move Iff.rfl rfl (by rw [hpc]; rfl) (by rw [hpc]; rfl) rfl, .quiet ?_⟩
      rw [hpc, LockSys.goto_pc]
      rfl
  | clear held =>
      rw [hpc] at hgo hchecked
      obtain rfl : held = true := hchecked
      cases hgo
      refine ⟨owner, h.clear hpc, .quiet ?_⟩
      rw [hpc, LockSys.goto_pc]
      rfl
  | release held =>
      rw [hpc] at hgo hchecked howns
      obtain rfl : held = true := hchecked
      obtain rfl : owner = some i := howns.mp rfl
      cases hgo
      refine ⟨none, h.release hpc, .gives (by rw [hpc]; rfl) ?_⟩
      rw [LockSys.goto_pc]
      rfl
  | report held =>
      rw [hpc] at hgo hchecked
      obtain rfl : held = false := hchecked
      dsimp only at hgo
      split at hgo
      · cases hgo
        exact h.quiet_goto hpc rfl rfl rfl rfl
      · cases hgo
        exact h.quiet_goto hpc rfl rfl rfl rfl
  | stopped f held why => simp [hpc] at hgo

theorem call {f : LockCall} (h : LockInv s owner) (hcall : s.call i f = some s') :
    LockInv s' owner := by
  rw [LockSys.call] at hcall
  cases hpc : s.pc i with
  | out held =>
      rw [hpc] at hcall
      cases hcall
      exact h.goto (by rw [hpc]; rfl) (by rw [hpc]; rfl) trivial
  | _ => simp [hpc] at hcall

/-- Whatever the callers do, the lock and the CPUs agree. -/
theorem of_run {lk : Spinlock} {ts : List LockSys.Turn}
    (hrun : Run LockSys.Steps (LockSys.init lk) ts s) : ∃ owner, LockInv s owner := by
  refine Run.invariant (I := fun s => ∃ owner, LockInv s owner) (fun s t s' hinv hstep => ?_) hrun
    ⟨none, .init lk⟩
  obtain ⟨owner, hinv⟩ := hinv
  cases t with
  | call i f => exact ⟨owner, hinv.call hstep⟩
  | go i mem ebp =>
      obtain ⟨owner', hinv', -⟩ := hinv.go hstep
      exact ⟨owner', hinv'⟩

end LockInv

/-! ## Exclusion -/

/-- What a lock is for, and what its checks are for. -/
structure Excludes (s : LockSys) : Prop where
  /-- Two CPUs never have the lock. -/
  one : ∀ i j, (s.pc i).owns = true → (s.pc j).owns = true → i = j
  /-- `locked` is 0 when nobody has it. -/
  locked : s.lk.locked = 0 ↔ ∀ i, (s.pc i).owns = false
  /-- A CPU is stopped in `spin_lock` if it has the lock and in `spin_unlock` if it has not, and is
  let through otherwise. -/
  checked : ∀ i, (s.pc i).Checked
  /-- The exchange of a CPU that waits takes the lock if nobody has it. -/
  free : ∀ i mem ebp, s.pc i = .exchange false → (∀ j, (s.pc j).owns = false) →
    ∃ s', s.go i mem ebp = some s' ∧ s'.pc i = .record

/-- **A spin lock excludes.**  For every number of CPUs, every order of their accesses and every use
they make of the two functions. -/
theorem spinlock_excludes (lk : Spinlock) {ts : List LockSys.Turn} {s : LockSys}
    (hrun : Run LockSys.Steps (LockSys.init lk) ts s) : Excludes s := by
  obtain ⟨owner, h⟩ := LockInv.of_run hrun
  have hlocked : s.lk.locked = 0 ↔ ∀ i, (s.pc i).owns = false := by
    rw [h.locked]
    constructor
    · rintro rfl i
      exact Bool.eq_false_iff.mpr fun howns => by simpa using (h.owns i).mp howns
    · intro hnone
      cases owner with
      | none => rfl
      | some i => exact absurd ((h.owns i).mpr rfl) (by simp [hnone i])
  refine ⟨fun i j hi hj => ?_, hlocked, h.checked, fun i mem ebp hpc hnone => ?_⟩
  · exact Option.some.inj (((h.owns i).mp hi).symm.trans ((h.owns j).mp hj))
  · refine ⟨_, ?_, LockSys.goto_pc { s with lk := { s.lk with locked := 1 } } i .record⟩
    rw [LockSys.go, hpc]
    exact if_neg (not_not.mpr (hlocked.mpr hnone))

/-- CPU 0 has the lock before it has put its name there; CPU 1 is let through by its check and
waits; CPU 2, which gives back what it does not have, is about to be stopped. -/
theorem spinlock_excludes_contended :
    ∃ ts s, Run LockSys.Steps (LockSys.init ⟨7, some 3, fun _ => 0⟩) ts s ∧ Excludes s ∧
      s.pc 0 = .record ∧ s.pc 1 = .exchange false ∧ s.pc 2 = .report false := by
  have hrun : ∃ s, Run LockSys.Steps (LockSys.init ⟨7, some 3, fun _ => 0⟩)
      [.call 0 .lock, .call 2 .unlock, .go 0 (fun _ => 0) 0, .go 0 (fun _ => 0) 0, .call 1 .lock,
        .go 2 (fun _ => 0) 0, .go 1 (fun _ => 0) 0, .go 2 (fun _ => 0) 0, .go 1 (fun _ => 0) 0,
        .go 1 (fun _ => 0) 0] s ∧
      s.pc 0 = .record ∧ s.pc 1 = .exchange false ∧ s.pc 2 = .report false :=
    ⟨_, .cons rfl (.cons rfl (.cons rfl (.cons rfl (.cons rfl (.cons rfl (.cons rfl (.cons rfl
      (.cons rfl (.cons rfl (.nil _)))))))))), rfl, rfl, rfl⟩
  obtain ⟨s, hrun, h0, h1, h2⟩ := hrun
  exact ⟨_, s, hrun, spinlock_excludes _ hrun, h0, h1, h2⟩

end Nctuos
