import Nctuos.TaskFree
import Nctuos.MemStep

/-!
# Who owns which page

Over the whole kernel: every slot of the task table that is in use has a page directory of
its own, complete with kernel, user program and stack, and apart from those there is
`kern_pgdir` (`TaskPages`).  One kernel entry changes this in one of three ways, listed in
`Change`: not at all, or a directory is added whose pages all came from the free list, or
one is taken away whose pages all go back there.  There is a fourth, `Leaks`: a fork that
runs out of memory in its stack loop returns `-1` and leaves its directory behind.
`TaskPages.step` is the inversion lemma for entries, `TaskPages.starts` the one for
`task_init_percpu`.

`Change.count` draws the balance: a task keeps `pagesPerTask` pages from the free list, the
same number for every task.
-/

namespace Nctuos

open Lib

/-! ## A finished task -/

/-- The words in a task's directory, below the stack. -/
def taskWords (c : Config) : List (Slot × Nat) := kvmWords c ++ userWords c

/-- The directory entries that have a page table. -/
def taskTables (c : Config) : Finset Idx := insert stackIdx (indices (kvmWords c))

theorem userWords_tables (c : Config) : indices (userWords c) ⊆ taskTables c :=
  userWords_indices.trans (Finset.subset_insert _ _)

namespace StackInv

variable {c : Config} {dirs : Finset Nat} {extra : Nat → Nat} {m m₁ m₂ m₃ m₄ : Mem} {l : List Nat}
  {d : Nat} {local₀ : Option PtePtr}

/-- The memory work of `task_create`, whether or not the stack loop gets to its end.  Only pages
from the free list are written to. -/
theorem create {done : Bool} (h : StackInv c dirs extra m l)
    (hkvm : Nctuos.setupkvm c m = .ok (some d, m₁))
    (hstack : Nctuos.setupStack (memVm c local₀) d stackVas m₁ = .ok (done, m₂)) :
    ∃ l', StackInv c (insert d dirs) extra m₂ l' ∧ d ∉ dirs ∧ c.Allocatable d ∧
      (∀ d' ∈ dirs, SameDir c m m₂ d') ∧ (∀ q, q ∉ l → m₂.ram q = m.ram q) ∧
      (done = true → Image c m₂ d (kvmWords c) (taskTables c) stackSlots ∧
        pool c m₂ d l' = {q | q ∈ l} ∧ Blank c m₂ d stackSlots) ∧ (done = false → l' = []) := by
  obtain ⟨l₁, h₁, hnew, halloc, himg₁, hsame₁, hpool₁, hram₁⟩ := h.setupkvm hkvm
  have hkern := halloc.ne_kernPgdir
  obtain ⟨l₂, h₂, hframe₂, hram₂, hdone, hgave⟩ := h₁.setupStack (Finset.mem_insert_self d dirs)
    hkern himg₁ (fun _ hva => hva) stackSlots_nodup (fun _ _ => Finset.notMem_empty _)
    (fun _ => by decide) hstack
  rw [if_neg (by decide), Finset.empty_union] at hdone
  refine ⟨l₂, h₂, hnew, halloc, fun d' hd' => (hsame₁ d' hd').trans ?_, fun q hq => ?_, fun hr => ?_,
    hgave⟩
  · exact hframe₂ d' (Finset.mem_insert_of_mem hd') fun heq => hnew (heq ▸ hd')
  · exact (hram₂ q (hpool₁ ▸ hq)).trans (hram₁ q hq)
  · obtain ⟨hpool₂, himg₂, hblank⟩ := hdone hr
    exact ⟨himg₂, hpool₂.trans hpool₁, hblank (Finset.empty_subset _) nofun⟩

/-- The user program is mapped in a directory that was just created. -/
theorem finish {l' : List Nat} (h : StackInv c (insert d dirs) extra m₃ l') (hnew : d ∉ dirs)
    (halloc : c.Allocatable d) (himg : Image c m₃ d (kvmWords c) (taskTables c) stackSlots)
    (hmap : Nctuos.mapUser c d m₃ = .ok m₄) :
    StackInv c (insert d dirs) extra m₄ l' ∧ Image c m₄ d (taskWords c) (taskTables c) stackSlots ∧
      (∀ d' ∈ dirs, SameDir c m₃ m₄ d') ∧ pool c m₄ d l' = pool c m₃ d l' ∧
      (∀ s ∈ stackSlots, entryOf c m₄ d s = entryOf c m₃ d s) ∧
      ∀ q, q ≠ d → (∀ i, tableOf c m₃ d i ≠ some q) → m₄.ram q = m₃.ram q := by
  have hkern := halloc.ne_kernPgdir
  obtain ⟨h₄, himg₄, hframe₄, howned, hstack, hram⟩ := h.mapUser (Finset.mem_insert_self d dirs)
    hkern himg (Finset.Subset.refl _) (userWords_tables c) hmap
  refine ⟨h₄, himg₄, fun d' hd' => ?_, by rw [pool, pool, howned], hstack, hram⟩
  exact hframe₄ d' (Finset.mem_insert_of_mem hd') fun heq => hnew (heq ▸ hd')

end StackInv

/-! ## All tasks -/

/-- Among the directories are `kern_pgdir` and, one each, those of the slots in use; `l` is
the free list. -/
structure TaskPages (c : Config) (k : Kernel Mem Nat) (dirs : Finset Nat) (l : List Nat) :
    Prop where
  inv : TaskInv c dirs k.mem l
  kern : c.kernPgdir ∈ dirs
  task : ∀ p, Alive k p → ∃ d, (k.tasks p).pgdir = some d ∧ d ∈ dirs ∧ d ≠ c.kernPgdir ∧
    Image c k.mem d (taskWords c) (taskTables c) stackSlots
  inj : ∀ p q, Alive k p → Alive k q → (k.tasks p).pgdir = (k.tasks q).pgdir → p = q
  bound : ∀ p, Alive k p → p < nrTasks

/-- What a kernel entry can do to the tasks and the pages. -/
inductive Change (c : Config) (k k' : Kernel Mem Nat) (dirs : Finset Nat) (l : List Nat) :
    Finset Nat → List Nat → Prop
  | same (mem : SameMem k k') (alive : ∀ s, Alive k' s ↔ Alive k s) : Change c k k' dirs l dirs l
  | created {pid d : Nat} {l' : List Nat} (slot : ¬ Alive k pid) (lt : pid < nrTasks)
      (alive : ∀ s, Alive k' s ↔ Alive k s ∨ s = pid)
      (child : (k'.tasks pid).pgdir = some d)
      (other : ∀ s, s ≠ pid → (k'.tasks s).pgdir = (k.tasks s).pgdir)
      (inv : TaskInv c (insert d dirs) k'.mem l') (new : d ∉ dirs) (alloc : c.Allocatable d)
      (image : Image c k'.mem d (taskWords c) (taskTables c) stackSlots)
      (frame : ∀ d' ∈ dirs, SameDir c k.mem k'.mem d')
      (pages : pool c k'.mem d l' = {q | q ∈ l}) : Change c k k' dirs l (insert d dirs) l'
  | killed {pid d : Nat} {l' : List Nat} (slot : Alive k pid)
      (alive : ∀ s, Alive k' s ↔ Alive k s ∧ s ≠ pid) (child : (k.tasks pid).pgdir = some d)
      (other : ∀ s, (k'.tasks s).pgdir = (k.tasks s).pgdir)
      (inv : TaskInv c (dirs.erase d) k'.mem l')
      (frame : ∀ d' ∈ dirs.erase d, SameDir c k.mem k'.mem d')
      (pages : {q | q ∈ l'} = pool c k.mem d l) : Change c k k' dirs l (dirs.erase d) l'

/-- A fork that got a slot and a directory, but not its stack: the tasks stay as they are,
and the directory stays with nobody to free it. -/
structure Leaks (c : Config) (k k' : Kernel Mem Nat) (dirs dirs' : Finset Nat) (l' : List Nat) :
    Prop where
  alive : ∀ s, Alive k' s ↔ Alive k s
  pgdir : ∀ s, Alive k s → (k'.tasks s).pgdir = (k.tasks s).pgdir
  sub : dirs ⊆ dirs'
  inv : TaskInv c dirs' k'.mem l'
  frame : ∀ d ∈ dirs, SameDir c k.mem k'.mem d
  /-- No page is left. -/
  empty : l' = []

/-- What a fork makes of the memory: the directory `d` of a child, which is complete, and whose
stack has the contents of that of `parent`.  Nothing is written to but pages that were free. -/
structure Forked (c : Config) (k k' : Kernel Mem Nat) (dirs : Finset Nat) (l l' : List Nat)
    (parent d : Nat) : Prop where
  inv : TaskInv c (insert d dirs) k'.mem l'
  new : d ∉ dirs
  alloc : c.Allocatable d
  image : Image c k'.mem d (taskWords c) (taskTables c) stackSlots
  frame : ∀ d' ∈ dirs, SameDir c k.mem k'.mem d'
  pages : pool c k'.mem d l' = {q | q ∈ l}
  kept : ∀ q, q ∉ l → k'.mem.ram q = k.mem.ram q
  copied : ∀ va ∈ stackVas, ∃ q q', pageAt c k'.mem d va = some q ∧
    pageAt c k'.mem parent va = some q' ∧ k'.mem.ram q = k'.mem.ram q'

/-- This entry is a fork that returned `-1` although there was a free slot.  In the loop of
`task_create` that happens when `page_alloc` returns NULL. -/
def Starved (k : Kernel Mem Nat) (e : Entry) : Prop :=
  callOf e.tf = .fork ∧ e.resumed.tf.regEax = -1 ∧ findFree k.tasks ≠ none

namespace TaskPages

variable {c : Config} {k k' : Kernel Mem Nat} {dirs dirs' : Finset Nat} {l l' : List Nat}
  {local₀ : Option PtePtr} {b : Boot}

/-- Each of the changes leads to a state of the same kind. -/
theorem change (h : TaskPages c k dirs l) (hc : Change c k k' dirs l dirs' l') :
    TaskPages c k' dirs' l' := by
  cases hc with
  | same mem alive =>
      refine ⟨mem.mem ▸ h.inv, h.kern, fun p hp => ?_, fun p q hp hq heq => ?_,
        fun p hp => h.bound p ((alive p).mp hp)⟩
      · rw [mem.mem, mem.pgdir]
        exact h.task p ((alive p).mp hp)
      · rw [mem.pgdir, mem.pgdir] at heq
        exact h.inj p q ((alive p).mp hp) ((alive q).mp hq) heq
  | @created pid d l' slot lt alive child other inv new alloc image frame pages =>
      have hne : ∀ p, Alive k p → p ≠ pid := fun p hp heq => slot (heq ▸ hp)
      -- the new directory belongs to nobody else
      have hfresh : ∀ p, Alive k p → (k.tasks p).pgdir ≠ some d := by
        intro p hp hpd
        obtain ⟨d', hd', hmem, -⟩ := h.task p hp
        rw [hd', Option.some.injEq] at hpd
        exact new (hpd ▸ hmem)
      refine ⟨inv, Finset.mem_insert_of_mem h.kern, fun p hp => ?_, fun p q hp hq heq => ?_,
        fun p hp => ?_⟩
      · rcases (alive p).mp hp with hp | rfl
        · obtain ⟨d', hd', hmem, hkern, himg⟩ := h.task p hp
          exact ⟨d', (other p (hne p hp)).trans hd', Finset.mem_insert_of_mem hmem, hkern,
            himg.congr (frame d' hmem)⟩
        · exact ⟨d, child, Finset.mem_insert_self d dirs,
            alloc.ne_kernPgdir, image⟩
      · rcases (alive p).mp hp with hp | rfl
        · rw [other p (hne p hp)] at heq
          rcases (alive q).mp hq with hq | rfl
          · rw [other q (hne q hq)] at heq
            exact h.inj p q hp hq heq
          · exact absurd (heq.trans child) (hfresh p hp)
        · rcases (alive q).mp hq with hq | rfl
          · rw [other q (hne q hq)] at heq
            exact absurd (heq.symm.trans child) (hfresh q hq)
          · rfl
      · rcases (alive p).mp hp with hp | rfl
        · exact h.bound p hp
        · exact lt
  | @killed pid d l' slot alive child other inv frame pages =>
      obtain ⟨d₀, hd₀, -, hkern, -⟩ := h.task pid slot
      rw [child, Option.some.injEq] at hd₀
      subst hd₀
      refine ⟨inv, Finset.mem_erase.mpr ⟨Ne.symm hkern, h.kern⟩, fun p hp => ?_,
        fun p q hp hq heq => ?_, fun p hp => h.bound p ((alive p).mp hp).1⟩
      · obtain ⟨hp, hne⟩ := (alive p).mp hp
        obtain ⟨d', hd', hmem, hkern', himg⟩ := h.task p hp
        have hdd : d' ≠ d := by
          rintro rfl
          exact hne (h.inj p pid hp slot (hd'.trans child.symm))
        have hmem' := Finset.mem_erase.mpr ⟨hdd, hmem⟩
        exact ⟨d', (other p).trans hd', hmem', hkern', himg.congr (frame d' hmem')⟩
      · rw [other, other] at heq
        exact h.inj p q ((alive p).mp hp).1 ((alive q).mp hq).1 heq

theorem leaks (h : TaskPages c k dirs l) (hl : Leaks c k k' dirs dirs' l') :
    TaskPages c k' dirs' l' where
  inv := hl.inv
  kern := hl.sub h.kern
  task p hp := by
    have hp := (hl.alive p).mp hp
    obtain ⟨d, hd, hmem, hkern, himg⟩ := h.task p hp
    exact ⟨d, (hl.pgdir p hp).trans hd, hl.sub hmem, hkern, himg.congr (hl.frame d hmem)⟩
  inj p q hp hq heq := by
    have hp := (hl.alive p).mp hp
    have hq := (hl.alive q).mp hq
    rw [hl.pgdir p hp, hl.pgdir q hq] at heq
    exact h.inj p q hp hq heq
  bound p hp := h.bound p ((hl.alive p).mp hp)

theorem forked {p pid parent d : Nat} (h : TaskPages c k dirs l) (hp : Alive k p)
    (hf : Forks (memVm c local₀) k k' p pid parent d) :
    parent ∈ dirs ∧ ∃ l', Forked c k k' dirs l l' parent d := by
  obtain ⟨m₁, m₂, m₃, hkvm, hstack, hcopy, hmap⟩ := hf.ops
  simp only [memVm] at hkvm hcopy hmap
  obtain ⟨l', h₂, hnew, halloc, hsame₂, hram₂, hdone, -⟩ := h.inv.create hkvm hstack
  obtain ⟨himg₂, hpool₂, -⟩ := hdone rfl
  obtain ⟨parent', hparent, hmem, -, himg⟩ := h.task p hp
  rw [hf.from_parent, Option.some.injEq] at hparent
  subst hparent
  have hd := Finset.mem_insert_self d dirs
  have hmem' : parent ∈ insert d dirs := Finset.mem_insert_of_mem hmem
  have hne : parent ≠ d := fun heq => hnew (heq ▸ hmem)
  obtain ⟨m₃', hcopy', h₃, hsame₃, hcopied, hram₃⟩ := h₂.copyStack hmem' hd hne
    (himg.congr (hsame₂ parent hmem)) himg₂ (fun _ hva => hva) stackSlots_nodup
  obtain rfl := Except.ok.inj (hcopy'.symm.trans hcopy)
  obtain ⟨h₄, himg₄, hsame₄, hpool₄, hstack₄, hram₄⟩ :=
    h₃.finish hnew halloc (himg₂.congr (hsame₃ d hd)) hmap
  have hparentDir := (hsame₃ parent hmem').trans (hsame₄ parent hmem)
  have howned : owned c m₃' d ⊆ {q | q ∈ l} := by
    rw [owned_congr (hsame₃ d hd), ← hpool₂]
    exact Set.subset_union_right
  refine ⟨hmem, l', h₄, hnew, halloc, himg₄, fun d' hd' => ?_, ?_, fun q hq => ?_,
    fun va hva => ?_⟩
  · exact ((hsame₂ d' hd').trans (hsame₃ d' (Finset.mem_insert_of_mem hd'))).trans (hsame₄ d' hd')
  · rw [hpool₄, pool, owned_congr (hsame₃ d hd)]
    exact hpool₂
  · -- all that is written to belongs to the child, and was free
    have hout : q ∉ owned c m₃' d := fun ho => hq (howned ho)
    rw [hram₄ q (fun heq => hout (Or.inl heq)) fun i hi => hout (Or.inr (Or.inl ⟨i, hi⟩)),
      hram₃ q fun va hva hat => ?_, hram₂ q hq]
    rw [pageAt_eq_targetOf, ← (hsame₃ d hd).2] at hat
    exact hout (Or.inr (Or.inr ⟨_, slotOf_mem hva, hat⟩))
  · have hs := slotOf_mem hva
    obtain ⟨q, q', hq, hq', hbytes⟩ := hcopied va hva
    -- mapping the program leaves the pages of both stacks alone
    have hkept : ∀ d' ∈ insert d dirs, ∀ x, pageAt c m₂ d' va = some x →
        k'.mem.ram x = m₃'.ram x := by
      intro d' hd' x hx
      rw [pageAt_eq_targetOf, ← (hsame₃ d' hd').2] at hx
      obtain ⟨-, -, hxd, hxt⟩ := h₃.inv.data d' hd' _ x hs hx
      exact hram₄ x (fun heq => hxd (heq ▸ hd)) (hxt d hd)
    refine ⟨q, q', ?_, ?_, ?_⟩
    · rw [pageAt_eq_targetOf, hstack₄ _ hs, (hsame₃ d hd).2, ← pageAt_eq_targetOf]
      exact hq
    · rw [pageAt_eq_targetOf, hparentDir.2, ← pageAt_eq_targetOf]
      exact hq'
    · rw [hkept d hd q hq, hkept parent hmem' q' hq', hbytes, hram₃ q' fun va' hva' hat => ?_]
      exact hne (h₂.stack_inj hmem' hd hva hva' hq' hat).1

theorem forks {p pid parent d : Nat} (h : TaskPages c k dirs l) (hp : Alive k p)
    (hf : Forks (memVm c local₀) k k' p pid parent d)
    (halive : ∀ s, Alive k' s ↔ Alive k s ∨ s = pid) : ∃ dirs' l', Change c k k' dirs l dirs' l' := by
  obtain ⟨-, l', hd⟩ := h.forked hp hf
  exact ⟨_, _, .created (fun hpid => hpid (findFree_some hf.slot).2) (findFree_some hf.slot).1 halive
    hf.child hf.other hd.inv hd.new hd.alloc hd.image hd.frame hd.pages⟩

theorem kills {p : Nat} (h : TaskPages c k dirs l) (hp : Alive k p)
    (hfree : Nctuos.taskFree (memVm c local₀) (k.tasks p).pgdir k.mem = .ok k'.mem)
    (hother : ∀ s, (k'.tasks s).pgdir = (k.tasks s).pgdir)
    (halive : ∀ s, Alive k' s ↔ Alive k s ∧ s ≠ p) : ∃ dirs' l', Change c k k' dirs l dirs' l' := by
  obtain ⟨d, hd, hmem, hkern, himg⟩ := h.task p hp
  rw [hd] at hfree
  obtain ⟨m', l', hok, hinv, hsame, hpool⟩ := h.inv.taskFree hmem hkern himg
    (h.inv.taskFree_local hmem himg hfree)
  rw [hok] at hfree
  obtain rfl := Except.ok.inj hfree
  exact ⟨_, _, .killed hp halive hd hother hinv hsame hpool⟩

/-- No live task's memory makes `task_free` panic. -/
theorem exists_taskFree {p : Nat} (h : TaskPages c k dirs l) (hp : Alive k p)
    (hlocal : local₀.isSome) :
    ∃ m', Nctuos.taskFree (memVm c local₀) (k.tasks p).pgdir k.mem = .ok m' := by
  obtain ⟨d, hd, hmem, hkern, himg⟩ := h.task p hp
  obtain ⟨m', -, hok, -⟩ := h.inv.taskFree hmem hkern himg hlocal
  exact ⟨m', hd ▸ hok⟩

/-- **The inversion lemma.** -/
theorem step {e : Entry} (h : TaskPages c k dirs l) (hq : QueueInv b k)
    (hs : Step (memVm c local₀) b k e k') :
    ∃ dirs' l', Change c k k' dirs l dirs' l' ∨ Starved k e ∧ Leaks c k k' dirs dirs' l' := by
  obtain ⟨hcpu, p, hp, heff⟩ := step_effect hs
  have hmem := step_mem hs hp
  have hlive : Alive k p := (hq.current_live hcpu hp).2
  have hsave := saveFrame_mem k p e.tf
  have hsched := saveFrame_sched k p e.tf
  -- only a fork or a kill that acts is more than `Change.same`
  have hquiet : callOf e.tf ≠ .fork → ¬ (callOf e.tf = .kill ∧ KillActs k e.cpu p) →
      SameMem k k' → ∃ dirs' l', Change c k k' dirs l dirs' l' ∨
        Starved k e ∧ Leaks c k k' dirs dirs' l' := by
    intro hf hk hsame
    refine ⟨dirs, l, Or.inl (.same hsame fun s => ?_)⟩
    rw [effect_alive hq hcpu hp heff hf s]
    exact and_iff_left fun hkill => hk ⟨hkill.1, hkill.2.1⟩
  cases hcall : callOf e.tf with
  | fork =>
      rw [hcall] at hmem heff
      obtain ⟨r, k₁, hfork', hsame₁, hsched₁, heax⟩ := hmem
      cases r with
      | none =>
          have halive : ∀ s, Alive k' s ↔ Alive k s := by
            rcases sysFork_sched hfork' with ⟨-, hs'⟩ | ⟨pid, hpid, -⟩
            · exact ((hsched.trans hs').trans hsched₁).alive
            · cases hpid
          cases hfree : findFree k.tasks with
          | none =>
              have hfull := hsched.findFree_congr.symm.trans hfree
              simp only [sysFork, bind_ok_iff] at hfork'
              obtain ⟨⟨r₂, k₂⟩, hcreate, hrest⟩ := hfork'
              obtain ⟨rfl, rfl⟩ := taskCreate_full hcreate hfull
              cases hrest
              exact ⟨dirs, l, Or.inl (.same (hsave.trans hsame₁) halive)⟩
          | some pid =>
              obtain ⟨d, m₁, hkvm, hstack, hother⟩ := sysFork_starved hfork'
                (hsched.findFree_congr.symm.trans hfree)
              obtain ⟨l', hinv, -, -, hframe, -, -, hgave⟩ := h.inv.create hkvm hstack
              rw [← hsame₁.mem] at hinv hframe
              refine ⟨insert d dirs, l', Or.inr ⟨⟨hcall, heax, by rw [hfree]; exact nofun⟩, halive,
                fun s hs' => ?_, Finset.subset_insert d dirs, hinv, hframe, hgave rfl⟩⟩
              have hne : s ≠ pid := fun heq => hs' (heq ▸ (findFree_some hfree).2)
              exact ((hsame₁.pgdir s).trans (hother s hne)).trans (hsave.pgdir s)
      | some pid =>
          obtain ⟨parent, d, hf⟩ := sysFork_mem hfork' hp ((hsched.alive p).mpr hlive)
          have hf' := hf.congr hsave hsched.findFree_congr hsame₁
          obtain ⟨dirs', l', hc⟩ := h.forks hlive hf' fun s => by
            rw [hsched₁.alive, sysFork_alive hfork', hsched.alive]
          exact ⟨dirs', l', Or.inl hc⟩
  | kill =>
      rw [hcall] at hmem
      obtain ⟨r, k₁, hkill, hsame₁⟩ := hmem
      rw [hq.current_taskId hcpu hp] at hkill
      obtain ⟨hpgdir, hacts, hidle⟩ := sysKill_mem hkill
      have hpgdir' : ∀ s, (k'.tasks s).pgdir = (k.tasks s).pgdir := fun s =>
        ((hsame₁.pgdir s).trans (hpgdir s)).trans (hsave.pgdir s)
      by_cases hka : KillActs k e.cpu p
      · have hfree := hacts hka
        rw [hsave.pgdir, ← hsame₁.mem] at hfree
        obtain ⟨dirs', l', hc⟩ := h.kills hlive hfree hpgdir' fun s => by
          rw [effect_alive hq hcpu hp heff (by rw [hcall]; nofun) s]
          simp [hcall, hka]
        exact ⟨dirs', l', Or.inl hc⟩
      · refine hquiet (by rw [hcall]; nofun) (fun hk => hka hk.2) ⟨?_, hpgdir'⟩
        exact hsame₁.mem.trans (hidle hka)
  | sleep _ | timer | other =>
      rw [hcall] at hmem
      exact hquiet (by simp [hcall]) (by simp [hcall]) hmem

end TaskPages

/-! ## Boot -/

namespace TaskPages

variable {c : Config} {k k' : Kernel Mem Nat} {dirs : Finset Nat} {l : List Nat}
  {local₀ : Option PtePtr} {b : Boot} {m : Mem}

theorem init (h : TaskInv c {c.kernPgdir} m l) :
    TaskPages c (Kernel.init m) {c.kernPgdir} l :=
  ⟨h, Finset.mem_singleton_self _, fun _ hp => absurd rfl hp, fun _ _ hp => absurd rfl hp,
    fun _ hp => absurd rfl hp⟩

theorem starts {cpu : Nat} (h : TaskPages c k dirs l)
    (hrun : taskInitPercpu (memVm c local₀) b k cpu = .ok k') :
    ∃ dirs' l', Change c k k' dirs l dirs' l' := by
  obtain ⟨pid, d, m₁, m₂, hfree, hkvm, hstack, hmap, hchild, hother⟩ := taskInitPercpu_mem hrun
  simp only [memVm] at hkvm hmap
  obtain ⟨l', h₂, hnew, halloc, hsame₂, -, hdone, -⟩ := h.inv.create hkvm hstack
  obtain ⟨himg₂, hpool₂, -⟩ := hdone rfl
  obtain ⟨h₃, himg₃, hsame₃, hpool₃, -⟩ := h₂.finish hnew halloc himg₂ hmap
  exact ⟨_, _, .created (fun hpid => hpid (findFree_some hfree).2) (findFree_some hfree).1
    (taskInitPercpu_alive hrun hfree) hchild hother h₃ hnew halloc himg₃
    (fun d' hd' => (hsame₂ d' hd').trans (hsame₃ d' hd')) (hpool₃.trans hpool₂)⟩

end TaskPages

/-! ## How many pages a task has -/

/-- The page directory, the page tables and the stack. -/
def pagesPerTask (c : Config) : Nat := 1 + (taskTables c).card + usrStackSize / pgSize

/-- The number of slots in use. -/
def inUse (k : Kernel Mem Nat) : Nat := ((Finset.range nrTasks).filter (Alive k)).card

section InUse

variable {k k' : Kernel Mem Nat} {pid : Nat}

theorem inUse_congr {P : Nat → Prop} [DecidablePred P] (h : ∀ s, Alive k' s ↔ P s) :
    inUse k' = ((Finset.range nrTasks).filter P).card :=
  congrArg Finset.card (Finset.filter_congr fun s _ => h s)

theorem inUse_create (h : ∀ s, Alive k' s ↔ Alive k s ∨ s = pid) (hslot : ¬ Alive k pid)
    (hlt : pid < nrTasks) : inUse k' = inUse k + 1 := by
  have hslots : (Finset.range nrTasks).filter (fun s => Alive k s ∨ s = pid) =
      insert pid ((Finset.range nrTasks).filter (Alive k)) := by
    ext s
    simp only [Finset.mem_filter, Finset.mem_insert, Finset.mem_range]
    constructor
    · rintro ⟨hs, hlive | rfl⟩
      · exact Or.inr ⟨hs, hlive⟩
      · exact Or.inl rfl
    · rintro (rfl | ⟨hs, hlive⟩)
      · exact ⟨hlt, Or.inr rfl⟩
      · exact ⟨hs, Or.inl hlive⟩
  rw [inUse_congr h, hslots, inUse,
    Finset.card_insert_of_notMem fun hmem => hslot (Finset.mem_filter.mp hmem).2]

theorem inUse_kill (h : ∀ s, Alive k' s ↔ Alive k s ∧ s ≠ pid) (hslot : Alive k pid)
    (hlt : pid < nrTasks) : inUse k' + 1 = inUse k := by
  have hslots : (Finset.range nrTasks).filter (fun s => Alive k s ∧ s ≠ pid) =
      ((Finset.range nrTasks).filter (Alive k)).erase pid := by
    ext s
    simp only [Finset.mem_filter, Finset.mem_erase, Finset.mem_range]
    constructor
    · rintro ⟨hs, hlive, hne⟩
      exact ⟨hne, hs, hlive⟩
    · rintro ⟨hne, hs, hlive⟩
      exact ⟨hs, hlive, hne⟩
  rw [inUse_congr h, hslots, inUse,
    Finset.card_erase_add_one (Finset.mem_filter.mpr ⟨Finset.mem_range.mpr hlt, hslot⟩)]

end InUse

theorem ncard_list {l : List Nat} (h : l.Nodup) : Set.ncard {q | q ∈ l} = l.length := by
  have hset : {q | q ∈ l} = (l.toFinset : Set Nat) := by
    ext q
    simp
  rw [hset, Set.ncard_coe_finset, List.toFinset_card_of_nodup h]

namespace StackInv

variable {c : Config} {dirs : Finset Nat} {extra : Nat → Nat} {m : Mem} {l : List Nat} {d : Nat}
  {ws : List (Slot × Nat)} {T : Finset Idx} {S : Finset Slot}

section Owned

variable (h : StackInv c dirs extra m l) (hd : d ∈ dirs)

include h hd

/-- What a directory owns is not free. -/
theorem owned_notMem {q : Nat} (hq : q ∈ owned c m d) : q ∉ l := by
  rcases hq with rfl | ⟨i, hi⟩ | ⟨s, hs, hq⟩
  · exact h.inv.trees.dir_used q hd
  · exact h.inv.trees.table_used d hd i q hi
  · exact (h.inv.data d hd s q hs hq).2.1

/-- The directory, its tables and the pages of its stack are all different. -/
theorem ncard_owned (himg : Image c m d ws T S) (hS : S ⊆ stackSlots) :
    (owned c m d).ncard = 1 + T.card + S.card := by
  have htable : ∀ i ∈ T, tableOf c m d i = some ((tableOf c m d i).getD 0) := by
    intro i hi
    obtain ⟨t, ht⟩ := Option.ne_none_iff_exists'.mp ((himg.table i).mpr hi)
    rw [ht, Option.getD_some]
  have hstack : ∀ s ∈ S, targetOf (entryOf c m d s) = some (ptePage (entryOf c m d s)) := by
    intro s hs
    obtain ⟨q, hq, hentry⟩ := himg.stack s hs
    rw [hentry, targetOf, if_pos (present_pteWord _ _)]
  have hset : owned c m d = ((insert d (T.image (fun i => (tableOf c m d i).getD 0) ∪
      S.image fun s => ptePage (entryOf c m d s)) : Finset Nat) : Set Nat) := by
    ext q
    simp only [owned, Finset.coe_insert, Finset.coe_union, Finset.coe_image, Set.mem_insert_iff,
      Set.mem_union, Set.mem_image, Finset.mem_coe, Set.mem_ofPred_eq]
    refine or_congr Iff.rfl (or_congr ⟨?_, ?_⟩ ⟨?_, ?_⟩)
    · rintro ⟨i, hi⟩
      refine ⟨i, (himg.table i).mp (hi ▸ Option.some_ne_none q), by rw [hi, Option.getD_some]⟩
    · rintro ⟨i, hi, rfl⟩
      exact ⟨i, htable i hi⟩
    · rintro ⟨s, hs, hq⟩
      by_cases hmem : s ∈ S
      · exact ⟨s, hmem, Option.some.inj ((hstack s hmem).symm.trans hq)⟩
      · rw [himg.clear s hs hmem, targetOf_zero] at hq
        cases hq
    · rintro ⟨s, hs, rfl⟩
      exact ⟨s, hS hs, hstack s hs⟩
  have hdata := fun s hs => h.inv.data d hd s _ (hS hs) (hstack s hs)
  have hdisj : Disjoint (T.image fun i => (tableOf c m d i).getD 0)
      (S.image fun s => ptePage (entryOf c m d s)) := by
    refine Finset.disjoint_left.mpr fun q hqT hqS => ?_
    obtain ⟨i, hi, rfl⟩ := Finset.mem_image.mp hqT
    obtain ⟨s, hs, heq⟩ := Finset.mem_image.mp hqS
    exact (hdata s hs).2.2.2 d hd i (heq ▸ htable i hi)
  have hnot : d ∉ T.image (fun i => (tableOf c m d i).getD 0) ∪
      S.image fun s => ptePage (entryOf c m d s) := by
    rw [Finset.mem_union, not_or]
    constructor
    · intro hmem
      obtain ⟨i, hi, heq⟩ := Finset.mem_image.mp hmem
      have hi' := htable i hi
      rw [heq] at hi'
      exact h.inv.trees.table_dir d hd i d hi' hd
    · intro hmem
      obtain ⟨s, hs, heq⟩ := Finset.mem_image.mp hmem
      have hs' := (hdata s hs).2.2.1
      rw [heq] at hs'
      exact hs' hd
  have hinjT : Set.InjOn (fun i => (tableOf c m d i).getD 0) (T : Set Idx) := by
    intro i hi j hj heq
    have hj' := htable j hj
    simp only at heq
    rw [← heq] at hj'
    exact (h.inv.trees.table_inj d hd d hd i j _ (htable i hi) hj').2
  have hinjS : Set.InjOn (fun s => ptePage (entryOf c m d s)) (S : Set Slot) := by
    intro s hs s' hs' heq
    have hs'' := hstack s' hs'
    simp only at heq
    rw [← heq] at hs''
    exact (Prod.ext_iff.mp (h.sole _ (show (d, s) ∈ _ from ⟨hd, hS hs, hstack s hs⟩)
      (show (d, s') ∈ _ from ⟨hd, hS hs', hs''⟩))).2
  rw [hset, Set.ncard_coe_finset, Finset.card_insert_of_notMem hnot,
    Finset.card_union_of_disjoint hdisj, Finset.card_image_of_injOn hinjT,
    Finset.card_image_of_injOn hinjS]
  omega

theorem ncard_pool (himg : Image c m d ws T S) (hS : S ⊆ stackSlots) :
    (pool c m d l).ncard = l.length + (1 + T.card + S.card) := by
  have hfinite : (owned c m d).Finite := by
    refine Set.finite_of_ncard_pos ?_
    rw [h.ncard_owned hd himg hS]
    omega
  have hdisj : Disjoint {q | q ∈ l} (owned c m d) :=
    Set.disjoint_left.mpr fun q hq ho => h.owned_notMem hd ho hq
  rw [pool, Set.ncard_union_eq hdisj (List.finite_toSet l) hfinite,
    ncard_list h.inv.free.chain.nodup, h.ncard_owned hd himg hS]

/-- The pages of a finished task. -/
theorem ncard_pool_task (himg : Image c m d ws (taskTables c) stackSlots) :
    (pool c m d l).ncard = l.length + pagesPerTask c :=
  h.ncard_pool hd himg (Finset.Subset.refl _)

end Owned

end StackInv

/-- **The balance.**  What a task costs when it is created comes back when it is killed. -/
theorem Change.count {c : Config} {k k' : Kernel Mem Nat} {dirs dirs' : Finset Nat}
    {l l' : List Nat} (h : TaskPages c k dirs l) (hc : Change c k k' dirs l dirs' l') :
    l'.length + pagesPerTask c * inUse k' = l.length + pagesPerTask c * inUse k := by
  cases hc with
  | same mem alive => rw [inUse_congr alive, inUse]
  | @created pid d l' slot lt alive child other inv new alloc image frame pages =>
      have hpool := inv.ncard_pool_task (Finset.mem_insert_self d dirs) image
      rw [pages, ncard_list h.inv.inv.free.chain.nodup] at hpool
      rw [inUse_create alive slot lt, hpool, Nat.mul_succ]
      omega
  | @killed pid d l' slot alive child other inv frame pages =>
      obtain ⟨d₀, hd₀, hmem, -, himg⟩ := h.task pid slot
      rw [child, Option.some.injEq] at hd₀
      subst hd₀
      have hpool := h.inv.ncard_pool_task hmem himg
      rw [← pages, ncard_list inv.inv.free.chain.nodup] at hpool
      rw [← inUse_kill alive slot (h.bound pid slot), hpool, Nat.mul_succ]
      omega

end Nctuos
