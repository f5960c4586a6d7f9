import Nctuos.Spinlock

/-!
# Programs around a lock

CPUs run programs that share a state and one spin lock.  A program is given by what it does next:
an access to the shared state, a call of `spin_lock`, a call of `spin_unlock`.  A turn is one such
thing of one CPU, or one access of `kernel/spinlock.c`.

A program is `WellLocked` if it knows from its own position whether it has the lock.  Then no check of
the lock ever fails, and what a turn can be is `Smp.Effect`: while `owner` has the lock, no other CPU
makes an access from inside.

A program may be no more than a list of jobs, each of which is a section of accesses with the lock
held (`sections`).  Then the jobs are atomic: the programs simulate `Critical`, where a section is
entered at the exchange that takes the lock, so that there is one order of all the jobs in which each
CPU has its own in theirs (`sections_serial`).
-/

namespace Nctuos

open Lib

universe u v

variable {σ : Type u} {τ : Type v}

/-! ## Turns -/

/-- What a program does next; `next` is where it goes on. -/
inductive Instr (σ : Type u) (τ : Type v)
  | access (shared : σ) (next : τ)
  | lock (next : τ)
  | unlock (next : τ)
  | halt

/-- The lock, the shared state, and where each CPU stands in its program.  A call of the lock has
its CPU stand behind it already, while `sys` says how far the call is. -/
structure Smp (σ : Type u) (τ : Type v) where
  sys : LockSys
  shared : σ
  code : Nat → τ

/-- The program of every CPU. -/
abbrev Program (σ : Type u) (τ : Type v) := Nat → σ → τ → Instr σ τ

namespace Smp

/-- CPU `i` goes on at `t`. -/
def goto (s : Smp σ τ) (i : Nat) (t : τ) : Smp σ τ :=
  { s with code := Function.update s.code i t }

inductive Turn
  | program (i : Nat)
  | spinlock (i : Nat) (mem : BitVec 32 → BitVec 32) (ebp : BitVec 32)

def step (prog : Program σ τ) (s : Smp σ τ) : Turn → Option (Smp σ τ)
  | .program i =>
      match s.sys.pc i with
      | .out _ =>
          match prog i s.shared (s.code i) with
          | .access x t => some ({ s with shared := x }.goto i t)
          | .lock t => (s.sys.call i .lock).map fun sys => { s with sys := sys }.goto i t
          | .unlock t => (s.sys.call i .unlock).map fun sys => { s with sys := sys }.goto i t
          | .halt => none
      | _ => none
  | .spinlock i mem ebp => (s.sys.go i mem ebp).map fun sys => { s with sys := sys }

def Steps (prog : Program σ τ) (s : Smp σ τ) (t : Turn) (s' : Smp σ τ) : Prop :=
  s.step prog t = some s'

end Smp

/-! ## Programs that know what they have -/

/-- `inside` says at which positions the program has the lock. -/
structure WellLocked (prog : Program σ τ) (inside : τ → Bool) : Prop where
  access : ∀ i x t x' t', prog i x t = .access x' t' → inside t' = inside t
  lock : ∀ i x t t', prog i x t = .lock t' → inside t = false ∧ inside t' = true
  unlock : ∀ i x t t', prog i x t = .unlock t' → inside t = true ∧ inside t' = false

/-- How far a CPU is with the lock, and whether its program is inside. -/
def LockPhase.Fits : LockPhase → Bool → Prop
  | .idle, b => b = false
  | .acquiring, b => b = true
  | .inside, b => b = true
  | .leaving, b => b = false
  | .misused, _ => False

/-- A CPU has the lock when it is inside or about to leave. -/
theorem LockPc.owns_iff {pc : LockPc} {b : Bool} (h : pc.phase.Fits b) :
    pc.owns = true ↔ pc.phase = .inside ∨ pc.phase = .leaving := by
  cases pc with
  | out held => cases held <;> simp [LockPc.phase, LockPc.owns]
  | loadLocked f held | loadCpu f held =>
      cases f <;> cases held <;> simp_all [LockPc.phase, LockPc.owns, LockPhase.Fits]
  | record | trace => simp [LockPc.phase, LockPc.owns]
  | stopped f held why => exact h.elim
  | _ held => cases held <;> simp_all [LockPc.phase, LockPc.owns, LockPhase.Fits]

namespace Smp

/-- The lock and the CPUs agree, and so do the CPUs and their programs. -/
structure Inv (inside : τ → Bool) (s : Smp σ τ) (owner : Option Nat) : Prop where
  lock : LockInv s.sys owner
  phase : ∀ i, (s.sys.pc i).phase.Fits (inside (s.code i))

/-- What a turn of CPU `i` is.  A CPU takes the lock when it is behind the call in its program, and
gives it back likewise. -/
inductive Effect (prog : Program σ τ) (s s' : Smp σ τ) (i : Nat) : Option Nat → Option Nat → Prop
  | waits {owner : Option Nat} (phase : (s'.sys.pc i).phase = (s.sys.pc i).phase)
      (shared : s'.shared = s.shared) (code : s'.code = s.code) : Effect prog s s' i owner owner
  | takes (before : (s.sys.pc i).phase = .acquiring) (after : (s'.sys.pc i).phase = .inside)
      (shared : s'.shared = s.shared) (code : s'.code = s.code) : Effect prog s s' i none (some i)
  | gives (before : (s.sys.pc i).phase = .leaving) (after : (s'.sys.pc i).phase = .idle)
      (shared : s'.shared = s.shared) (code : s'.code = s.code) : Effect prog s s' i (some i) none
  | access {owner : Option Nat} {x : σ} {t : τ}
      (next : prog i s.shared (s.code i) = .access x t) (sys : s'.sys = s.sys)
      (phase : (s.sys.pc i).phase = .idle ∨ (s.sys.pc i).phase = .inside)
      (shared : s'.shared = x) (code : s'.code = Function.update s.code i t) :
      Effect prog s s' i owner owner
  | locks {owner : Option Nat} {t : τ} (next : prog i s.shared (s.code i) = .lock t)
      (before : (s.sys.pc i).phase = .idle) (after : (s'.sys.pc i).phase = .acquiring)
      (shared : s'.shared = s.shared) (code : s'.code = Function.update s.code i t) :
      Effect prog s s' i owner owner
  | unlocks {t : τ} (next : prog i s.shared (s.code i) = .unlock t)
      (before : (s.sys.pc i).phase = .inside) (after : (s'.sys.pc i).phase = .leaving)
      (shared : s'.shared = s.shared) (code : s'.code = Function.update s.code i t) :
      Effect prog s s' i (some i) (some i)

def Turn.cpu : Turn → Nat
  | .program i => i
  | .spinlock i _ _ => i

namespace Inv

variable {prog : Program σ τ} {inside : τ → Bool} {s s' : Smp σ τ} {owner : Option Nat} {i j : Nat}

/-- Which phases are the owner's. -/
theorem owner_iff (h : Inv inside s owner) :
    owner = some i ↔ (s.sys.pc i).phase = .inside ∨ (s.sys.pc i).phase = .leaving :=
  (h.lock.owns i).symm.trans (LockPc.owns_iff (h.phase i))

theorem owner_of_inside (h : Inv inside s owner) (hi : (s.sys.pc i).phase = .inside) :
    owner = some i := h.owner_iff.mpr (Or.inl hi)

/-- After a turn of CPU `i` the others are where they were. -/
theorem of_turn {owner' : Option Nat} (h : Inv inside s owner) (hlock : LockInv s'.sys owner')
    (hpc : ∀ j, j ≠ i → s'.sys.pc j = s.sys.pc j) (hcode : ∀ j, j ≠ i → s'.code j = s.code j)
    (hphase : (s'.sys.pc i).phase.Fits (inside (s'.code i))) : Inv inside s' owner' := by
  refine ⟨hlock, fun j => ?_⟩
  by_cases hj : j = i
  · rw [hj]
    exact hphase
  · rw [hpc j hj, hcode j hj]
    exact h.phase j

/-- A call of the lock, from a place where it is allowed. -/
theorem call {f : LockCall} {sys : LockSys} (t : τ) (h : Inv inside s owner)
    {before : LockPhase} (after : LockPhase) (hcall : s.sys.call i f = some sys)
    (hbefore : (s.sys.pc i).phase = before)
    (hafter : ∀ held, (LockPc.out held).phase = before → (LockPc.loadLocked f held).phase = after)
    (hfits : after.Fits (inside t)) :
    Inv inside ({ s with sys := sys }.goto i t) owner ∧ (sys.pc i).phase = after := by
  have hpc : (sys.pc i).phase = after := by
    rw [LockSys.call] at hcall
    split at hcall
    · rename_i held hout
      cases hcall
      rw [LockSys.goto_pc]
      exact hafter held (by rw [← hout]; exact hbefore)
    · cases hcall
  refine ⟨h.of_turn (i := i) (h.lock.call hcall) (fun j hj => LockSys.call_pc_of_ne hcall hj)
    (fun j hj => Function.update_of_ne hj _ _) ?_, hpc⟩
  change (sys.pc i).phase.Fits (inside (Function.update s.code i t i))
  rw [hpc, Function.update_self]
  exact hfits

/-- A turn inside `kernel/spinlock.c`. -/
theorem spinlock {mem : BitVec 32 → BitVec 32} {ebp : BitVec 32} {sys : LockSys}
    (h : Inv inside s owner) (hgo : s.sys.go i mem ebp = some sys) :
    ∃ owner', Inv inside { s with sys := sys } owner' ∧
      Effect prog s { s with sys := sys } i owner owner' := by
  obtain ⟨owner', hlock, heffect⟩ := h.lock.go hgo
  have hphase := h.phase i
  have hpc : ∀ j, j ≠ i → sys.pc j = s.sys.pc j := fun j hj => LockSys.go_pc_of_ne hgo hj
  refine ⟨owner', h.of_turn (i := i) hlock hpc (fun _ _ => rfl) ?_, ?_⟩
  · cases heffect with
    | quiet phase =>
        change (sys.pc i).phase.Fits _
        rw [phase]
        exact hphase
    | takes before after | gives before after =>
        rw [before] at hphase
        change (sys.pc i).phase.Fits _
        rw [after]
        exact hphase
  · cases heffect with
    | quiet phase => exact .waits phase rfl rfl
    | takes before after => exact .takes before after rfl rfl
    | gives before after => exact .gives before after rfl rfl

/-- Every turn, of programs that are well locked. -/
theorem step (h : Inv inside s owner) (hprog : WellLocked prog inside) {t : Turn}
    (hstep : s.step prog t = some s') :
    (∀ j, j ≠ t.cpu → s'.sys.pc j = s.sys.pc j) ∧
      ∃ owner', Inv inside s' owner' ∧ Effect prog s s' t.cpu owner owner' := by
  cases t with
  | spinlock i mem ebp =>
      obtain ⟨sys, hgo, rfl⟩ := Option.map_eq_some_iff.mp hstep
      exact ⟨fun j hj => LockSys.go_pc_of_ne hgo hj, h.spinlock hgo⟩
  | program i =>
      have hphase := h.phase i
      rw [Smp.step] at hstep
      split at hstep
      case h_2 => cases hstep
      rename_i held hout
      -- outside of the lock's functions the phase says whether the CPU has the lock
      have hheld : (s.sys.pc i).phase = if inside (s.code i) then .inside else .idle := by
        rw [hout] at hphase ⊢
        cases held with
        | false => rw [show inside (s.code i) = false from hphase]; rfl
        | true => rw [show inside (s.code i) = true from hphase]; rfl
      split at hstep
      · rename_i x t hnext
        have hplace : (s.sys.pc i).phase = .idle ∨ (s.sys.pc i).phase = .inside := by
          rw [hheld]
          split
          · exact Or.inr rfl
          · exact Or.inl rfl
        cases hstep
        refine ⟨fun _ _ => rfl, owner, h.of_turn (i := i) h.lock (fun _ _ => rfl)
          (fun j hj => Function.update_of_ne hj _ _) ?_, .access hnext rfl hplace rfl rfl⟩
        change (s.sys.pc i).phase.Fits (inside (Function.update s.code i t i))
        rw [Function.update_self, hprog.access i _ _ _ _ hnext]
        exact hphase
      · rename_i t hnext
        obtain ⟨hout', hin⟩ := hprog.lock i _ _ _ hnext
        obtain ⟨sys, hcall, rfl⟩ := Option.map_eq_some_iff.mp hstep
        have hidle : (s.sys.pc i).phase = .idle := by rw [hheld, hout']; rfl
        obtain ⟨hinv, hafter⟩ := h.call t .acquiring hcall hidle
          (fun held => by cases held <;> simp [LockPc.phase]) hin
        exact ⟨fun j hj => LockSys.call_pc_of_ne hcall hj, owner, hinv,
          .locks hnext hidle hafter rfl rfl⟩
      · rename_i t hnext
        obtain ⟨hin, hout'⟩ := hprog.unlock i _ _ _ hnext
        obtain ⟨sys, hcall, rfl⟩ := Option.map_eq_some_iff.mp hstep
        have hinside : (s.sys.pc i).phase = .inside := by rw [hheld, hin]; rfl
        obtain ⟨hinv, hafter⟩ := h.call t .leaving hcall hinside
          (fun held => by cases held <;> simp [LockPc.phase]) hout'
        obtain rfl := h.owner_of_inside hinside
        exact ⟨fun j hj => LockSys.call_pc_of_ne hcall hj, some i, hinv,
          .unlocks hnext hinside hafter rfl rfl⟩
      · cases hstep

end Inv

end Smp

/-! ## Sections -/

universe w

variable {α : Type w}

/-- What a CPU has left of the section it is in, and its jobs to come. -/
structure Sections (σ : Type u) (α : Type w) where
  work : Option (List (σ → σ))
  todo : List α

/-- The program that runs each of its jobs as a section; `cut` says which accesses a job is. -/
def sections (cut : Nat → α → List (σ → σ)) : Program σ (Sections σ α)
  | _, _, ⟨none, []⟩ => .halt
  | i, _, ⟨none, a :: todo⟩ => .lock ⟨some (cut i a), todo⟩
  | _, x, ⟨some (f :: fs), todo⟩ => .access (f x) ⟨some fs, todo⟩
  | _, _, ⟨some [], todo⟩ => .unlock ⟨none, todo⟩

namespace Sections

def inside (t : Sections σ α) : Bool := t.work.isSome

variable {cut : Nat → α → List (σ → σ)} {i : Nat} {x x' : σ} {t t' : Sections σ α}

theorem next_access (h : sections cut i x t = .access x' t') :
    ∃ f fs, t.work = some (f :: fs) ∧ t' = ⟨some fs, t.todo⟩ ∧ x' = f x := by
  obtain ⟨_ | _ | ⟨f, fs⟩, _ | ⟨a, todo⟩⟩ := t <;> cases h
  all_goals exact ⟨f, fs, rfl, rfl, rfl⟩

theorem next_lock (h : sections cut i x t = .lock t') :
    ∃ a todo, t = ⟨none, a :: todo⟩ ∧ t' = ⟨some (cut i a), todo⟩ := by
  obtain ⟨_ | _ | ⟨f, fs⟩, _ | ⟨a, todo⟩⟩ := t <;> cases h
  exact ⟨a, todo, rfl, rfl⟩

theorem next_unlock (h : sections cut i x t = .unlock t') :
    t.work = some [] ∧ t' = ⟨none, t.todo⟩ := by
  obtain ⟨_ | _ | ⟨f, fs⟩, _ | ⟨a, todo⟩⟩ := t <;> cases h
  all_goals exact ⟨rfl, rfl⟩

theorem wellLocked (cut : Nat → α → List (σ → σ)) : WellLocked (sections cut) inside where
  access i x t x' t' h := by
    obtain ⟨f, fs, hwork, rfl, -⟩ := next_access h
    rw [inside, inside, hwork]
    rfl
  lock i x t t' h := by
    obtain ⟨a, todo, rfl, rfl⟩ := next_lock h
    exact ⟨rfl, rfl⟩
  unlock i x t t' h := by
    obtain ⟨hwork, rfl⟩ := next_unlock h
    rw [inside, hwork]
    exact ⟨rfl, rfl⟩

/-- Where the jobs are when nobody has begun. -/
def start (lk : Spinlock) (x : σ) (jobs : Nat → List α) : Smp σ (Sections σ α) :=
  ⟨LockSys.init lk, x, fun i => ⟨none, jobs i⟩⟩

/-! ## Sections are atomic -/

/-- The section a CPU is about to enter: the one it waits for the lock with. -/
def pending (s : Smp σ (Sections σ α)) (i : Nat) : List (List (σ → σ)) :=
  if (s.sys.pc i).phase = .acquiring then [(s.code i).work.getD []] else []

/-- The critical sections that the programs are in. -/
structure Sim (cut : Nat → α → List (σ → σ)) (s : Smp σ (Sections σ α)) (c : Critical Nat σ)
    (owner : Option Nat) : Prop where
  inv : Smp.Inv inside s owner
  shared : c.shared = s.shared
  inside : c.inside = owner.map fun i => (i, (s.code i).work.getD [])
  todo : ∀ i, c.todo i = pending s i ++ (s.code i).todo.map (cut i)

namespace Sim

variable {s s' : Smp σ (Sections σ α)} {c c' : Critical Nat σ} {owner owner' : Option Nat}

/-- What is to come of the CPUs that do not have the turn. -/
theorem todo_of_ne (h : Sim cut s c owner) (hpc : ∀ j, j ≠ i → s'.sys.pc j = s.sys.pc j)
    (hcode : ∀ j, j ≠ i → s'.code j = s.code j)
    (hi : c.todo i = pending s' i ++ (s'.code i).todo.map (cut i)) (j : Nat) :
    c.todo j = pending s' j ++ (s'.code j).todo.map (cut j) := by
  by_cases hj : j = i
  · rw [hj]
    exact hi
  · rw [h.todo j, pending, pending, hpc j hj, hcode j hj]

/-- A turn in which a section is neither entered nor left, nor anything is done in one. -/
theorem quiet (h : Sim cut s c owner) (hinv : Smp.Inv Sections.inside s' owner)
    (hpc : ∀ j, j ≠ i → s'.sys.pc j = s.sys.pc j) (hcode : ∀ j, j ≠ i → s'.code j = s.code j)
    (hshared : s'.shared = s.shared)
    (hwork : owner = some i → (s'.code i).work.getD [] = (s.code i).work.getD [])
    (hi : c.todo i = pending s' i ++ (s'.code i).todo.map (cut i)) : Sim cut s' c owner := by
  refine ⟨hinv, h.shared.trans hshared.symm, ?_, h.todo_of_ne hpc hcode hi⟩
  rw [h.inside]
  cases owner with
  | none => rfl
  | some j =>
      by_cases hj : j = i
      · subst hj
        rw [Option.map_some, Option.map_some, hwork rfl]
      · rw [Option.map_some, Option.map_some, hcode j hj]

/-- A turn is at most one step of the critical sections. -/
theorem step (h : Sim cut s c owner) {t : Smp.Turn} (hstep : s.step (sections cut) t = some s') :
    ∃ owner' c', Sim cut s' c' owner' ∧ (c' = c ∨ ∃ a, Critical.Step c a c') := by
  obtain ⟨hpc, owner', hinv, heffect⟩ := h.inv.step (wellLocked cut) hstep
  generalize t.cpu = i at hpc heffect
  have htodo := h.todo i
  have hcodes : ∀ {t : Sections σ α}, s'.code = Function.update s.code i t →
      ∀ j, j ≠ i → s'.code j = s.code j := by
    intro t hcode j hj
    rw [hcode, Function.update_of_ne hj]
  cases heffect with
  | waits phase shared code =>
      refine ⟨owner, c, h.quiet hinv hpc (fun j _ => by rw [code]) shared (fun _ => by rw [code])
        ?_, Or.inl rfl⟩
      rw [htodo, pending, pending, phase, code]
  | takes before after shared code =>
      -- the section that was pending is entered
      rw [pending, if_pos before] at htodo
      refine ⟨some i, _, ⟨hinv, ?_, ?_, fun j => ?_⟩,
        Or.inr ⟨_, Critical.Step.enter h.inside htodo⟩⟩
      · exact h.shared.trans shared.symm
      · rw [code]
        rfl
      · dsimp only
        by_cases hj : j = i
        · rw [hj, Function.update_self, pending, after, code]
          rfl
        · rw [Function.update_of_ne hj, h.todo j, pending, pending, hpc j hj, code]
  | gives before after shared code =>
      have hwork : (s.code i).work = none := by
        have hfits := h.inv.phase i
        rw [before] at hfits
        exact Option.isSome_eq_false_iff.mp hfits |> Option.isNone_iff_eq_none.mp
      have hinside := h.inside
      rw [Option.map_some, hwork] at hinside
      refine ⟨none, _, ⟨hinv, ?_, rfl, ?_⟩, Or.inr ⟨_, Critical.Step.leave hinside⟩⟩
      · exact h.shared.trans shared.symm
      · refine h.todo_of_ne hpc (fun j _ => by rw [code]) ?_
        rw [htodo, pending, pending, before, after, code]
        rfl
  | access next sys phase shared code =>
      obtain ⟨f, fs, hwork, rfl, rfl⟩ := next_access next
      obtain rfl : owner = some i := by
        refine h.inv.owner_of_inside (phase.resolve_left fun hidle => ?_)
        have hfits := h.inv.phase i
        rw [hidle] at hfits
        simp [LockPhase.Fits, Sections.inside, hwork] at hfits
      have hinside := h.inside
      rw [Option.map_some, hwork] at hinside
      refine ⟨some i, _, ⟨hinv, ?_, ?_, ?_⟩, Or.inr ⟨_, Critical.Step.work hinside⟩⟩
      · rw [shared, ← h.shared]
      · rw [code, Option.map_some, Function.update_self]
        rfl
      · refine h.todo_of_ne hpc (hcodes code) ?_
        rw [htodo, pending, pending, sys, code, Function.update_self, hwork]
        have hne : (s.sys.pc i).phase ≠ .acquiring := by
          rcases phase with hphase | hphase <;> simp [hphase]
        rw [if_neg hne, if_neg hne]
  | locks next before after shared code =>
      obtain ⟨a, todo, hhere, rfl⟩ := next_lock next
      have howner : owner ≠ some i := by
        rw [Ne, h.inv.owner_iff, before]
        simp
      refine ⟨owner, c, h.quiet hinv hpc (hcodes code) shared (fun hi => absurd hi howner) ?_,
        Or.inl rfl⟩
      rw [htodo, pending, pending, before, after, code, Function.update_self, hhere]
      rfl
  | unlocks next before after shared code =>
      obtain ⟨hwork, rfl⟩ := next_unlock next
      refine ⟨some i, c, h.quiet hinv hpc (hcodes code) shared (fun _ => ?_) ?_, Or.inl rfl⟩
      · rw [code, Function.update_self, hwork]
        rfl
      · rw [htodo, pending, pending, before, after, code, Function.update_self]
        rfl

/-- Jobs are taken from the front. -/
theorem todo_suffix (h : Sim cut s c owner) {t : Smp.Turn}
    (hstep : s.step (sections cut) t = some s') (j : Nat) :
    (s'.code j).todo <:+ (s.code j).todo := by
  obtain ⟨-, owner', -, heffect⟩ := h.inv.step (wellLocked cut) hstep
  generalize t.cpu = i at heffect
  have hupdate : ∀ {t : Sections σ α}, s'.code = Function.update s.code i t →
      t.todo <:+ (s.code i).todo → (s'.code j).todo <:+ (s.code j).todo := by
    intro t hcode ht
    by_cases hj : j = i
    · subst hj
      simpa [hcode] using ht
    · simp [hcode, hj]
  have hsame : s'.code = s.code → (s'.code j).todo <:+ (s.code j).todo := by
    intro hcode
    simp [hcode]
  cases heffect with
  | waits phase shared code => exact hsame code
  | takes before after shared code => exact hsame code
  | gives before after shared code => exact hsame code
  | access next sys phase shared code =>
      obtain ⟨f, fs, -, rfl, -⟩ := next_access next
      exact hupdate code List.suffix_rfl
  | locks next before after shared code =>
      obtain ⟨a, todo, hhere, rfl⟩ := next_lock next
      refine hupdate code ?_
      rw [hhere]
      exact List.suffix_cons a todo
  | unlocks next before after shared code =>
      obtain ⟨-, rfl⟩ := next_unlock next
      exact hupdate code List.suffix_rfl

end Sim

theorem Sim.start (lk : Spinlock) (x : σ) (jobs : Nat → List α) :
    Sim cut (start lk x jobs) ⟨x, none, fun i => (jobs i).map (cut i)⟩ none :=
  ⟨⟨LockInv.init lk, fun _ => rfl⟩, rfl, rfl, fun _ => rfl⟩

/-- A run of the programs is one of critical sections. -/
theorem sim_of_run {lk : Spinlock} {jobs : Nat → List α} {ts : List Smp.Turn}
    {s : Smp σ (Sections σ α)} (hrun : Run (Smp.Steps (sections cut)) (start lk x jobs) ts s) :
    ∃ as c owner, Run Critical.Step ⟨x, none, fun i => (jobs i).map (cut i)⟩ as c ∧
      Sim cut s c owner ∧ ∀ i, (s.code i).todo <:+ jobs i := by
  refine Run.invariant (I := fun s => ∃ as c owner,
    Run Critical.Step ⟨x, none, fun i => (jobs i).map (cut i)⟩ as c ∧ Sim cut s c owner ∧
      ∀ i, (s.code i).todo <:+ jobs i) ?_ hrun
    ⟨[], _, none, .nil _, Sim.start lk x jobs, fun _ => List.suffix_rfl⟩
  intro s t s' hsim hstep
  obtain ⟨as, c, owner, hrun, hsim, hsuffix⟩ := hsim
  have hsuffix' : ∀ i, (s'.code i).todo <:+ jobs i :=
    fun i => (hsim.todo_suffix hstep i).trans (hsuffix i)
  obtain ⟨owner', c', hsim', rfl | ⟨a, ha⟩⟩ := hsim.step hstep
  · exact ⟨as, _, owner', hrun, hsim', hsuffix'⟩
  · exact ⟨as ++ [a], c', owner', hrun.concat ha, hsim', hsuffix'⟩

/-- Sections are atomic: the jobs that were done, of all the CPUs, in the order in which they took
the lock.  A CPU that is not in a section has done all but its jobs to come.  While the lock is free,
the shared state is what these jobs make of it; and no check of the lock has failed. -/
theorem sections_serial {lk : Spinlock} {jobs : Nat → List α} {ts : List Smp.Turn}
    {s : Smp σ (Sections σ α)} (hrun : Run (Smp.Steps (sections cut)) (start lk x jobs) ts s) :
    ∃ (done : List (Nat × α)) (rest : Nat → List α),
      (∀ i, jobs i = (done.filter fun p => p.1 = i).map Prod.snd ++ rest i) ∧
      (∀ i, (s.sys.pc i).phase = .idle → rest i = (s.code i).todo) ∧
      (s.sys.lk.locked = 0 →
        s.shared = done.foldl (fun x p => runSection (cut p.1 p.2) x) x) ∧
      ∀ i f held why, s.sys.pc i ≠ .stopped f held why := by
  obtain ⟨as, c, owner, hcritical, hsim, hsuffix⟩ := sim_of_run hrun
  obtain ⟨hfinish, htodo⟩ := Critical.serial_of_run hcritical rfl
  obtain ⟨done, rest, hshared, hrest⟩ := Critical.serial_jobs
    (c := ⟨x, none, fun i => (jobs i).map (cut i)⟩) (fun _ => rfl) (Critical.entered as)
  refine ⟨done, rest, fun i => (hrest i).2, fun i hidle => ?_, fun hfree => ?_,
    fun i f held why hstopped => ?_⟩
  · -- both are the end of the jobs, and of one length
    have hmap : (rest i).map (cut i) = (s.code i).todo.map (cut i) := by
      rw [← (hrest i).1, ← htodo, hsim.todo i, pending, hidle]
      rfl
    have hlength : (rest i).length = (s.code i).todo.length := by
      simpa using congrArg List.length hmap
    obtain ⟨front, hfront⟩ := hsuffix i
    exact (List.append_inj' ((hrest i).2.symm.trans hfront.symm) hlength).2
  · obtain rfl : owner = none := hsim.inv.lock.locked.mp hfree
    rw [← hshared, ← hfinish, Critical.finish, hsim.inside, ← hsim.shared]
    rfl
  · have hfits := hsim.inv.phase i
    rw [hstopped] at hfits
    exact hfits

end Sections

end Nctuos
