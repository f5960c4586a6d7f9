import Nctuos.BootMem

/-!
# The pages over the lifetimes of the tasks

What the invariant of `TaskPages` means for the physical pages, in every state the kernel can
reach.

* A page plays at most one role, and at most once (`pages_have_one_role`): it is free, or the
  directory of a task, or a page table, or a page of a stack.  It is this that lets
  `task_free` give back what it finds in a directory without a panic.
* The number of free pages and the number of tasks determine each other (`pages_conserved`),
  as long as `page_alloc` does not return NULL: the pages a fork takes from the free list are
  those that come back when the child is killed.
-/

namespace Nctuos

open Lib

/-! ## The reachable states -/

/-- What every reachable state has. -/
def PagesInv (c : Config) (b : Boot) (k : Kernel Mem Nat) : Prop :=
  QueueInv b k ∧ ∃ dirs l, TaskPages c k dirs l

section Reach

variable {c : Config} {local₀ : Option PtePtr} {b : Boot} {k k₀ k' : Kernel Mem Nat} {e : Entry}
  {es : List Entry}

theorem Booted.pagesInv (h : Booted c local₀ b k₀) : PagesInv c b k₀ :=
  ⟨h.queueInv, h.taskPages⟩

theorem PagesInv.step (h : PagesInv c b k)
    (hs : Step (memVm c local₀) b k e k') : PagesInv c b k' := by
  obtain ⟨hq, dirs, l, hp⟩ := h
  obtain ⟨hcpu, p, hcur, heff⟩ := step_effect hs
  refine ⟨hq.effect hcpu hcur heff, ?_⟩
  obtain ⟨dirs', l', hchange | ⟨-, hleak⟩⟩ := hp.step hq hs
  · exact ⟨dirs', l', hp.change hchange⟩
  · exact ⟨dirs', l', hp.leaks hleak⟩

theorem pagesInv_of_run (hboot : Booted c local₀ b k₀)
    (hrun : Run (Step (memVm c local₀) b) k₀ es k) : PagesInv c b k :=
  hrun.invariant (fun _ _ _ h hs => h.step hs) hboot.pagesInv

end Reach

/-! ## One role for a page -/

/-- What a page can be in use for. -/
inductive Role
  /-- The `i`-th element of the free list. -/
  | free (i : Nat)
  /-- The page directory of a task. -/
  | directory (pid : Nat)
  /-- The page table under entry `i` of a directory. -/
  | table (pgdir : Nat) (i : Idx)
  /-- The page at `va` of the user stack of a task. -/
  | stack (pid va : Nat)
  deriving DecidableEq

/-- Page `q` plays the role `r`.  Only tasks that are not free have directories and stacks, and
only theirs and `kern_pgdir` have page tables; the entry `UVPT` of `kern_pgdir` names
`kern_pgdir` itself. -/
def Plays (c : Config) (k : Kernel Mem Nat) (q : Nat) : Role → Prop
  | .free i => ∃ l, Chain k.mem.link k.mem.pageFreeList l ∧ l[i]? = some q
  | .directory pid => Alive k pid ∧ (k.tasks pid).pgdir = some q
  | .table d i => (d = c.kernPgdir ∨ ∃ pid, Alive k pid ∧ (k.tasks pid).pgdir = some d) ∧
      targetOf (k.mem.ram d i) = some q
  | .stack pid va => va ∈ stackVas ∧ Alive k pid ∧
      ∃ d, (k.tasks pid).pgdir = some d ∧ pageAt c k.mem d va = some q

/-- The order in which the roles are excluded from each other. -/
def Role.kind : Role → Nat
  | .free _ => 0
  | .directory _ => 1
  | .table _ _ => 2
  | .stack _ _ => 3

namespace TaskPages

variable {c : Config} {k : Kernel Mem Nat} {dirs : Finset Nat} {l : List Nat} {q : Nat}

section Roles

variable (h : TaskPages c k dirs l)

include h

theorem plays_free {i : Nat} (hq : Plays c k q (.free i)) : l[i]? = some q := by
  obtain ⟨l', hchain, hi⟩ := hq
  rwa [hchain.unique h.inv.inv.free.chain] at hi

theorem plays_directory {pid : Nat} (hq : Plays c k q (.directory pid)) :
    q ∈ dirs ∧ q ≠ c.kernPgdir := by
  obtain ⟨d, hd, hmem, hkern, -⟩ := h.task pid hq.1
  obtain rfl : d = q := Option.some.inj (hd.symm.trans hq.2)
  exact ⟨hmem, hkern⟩

theorem dir_mem {d : Nat} (hd : d = c.kernPgdir ∨ ∃ pid, Alive k pid ∧ (k.tasks pid).pgdir = some d) :
    d ∈ dirs := by
  rcases hd with rfl | ⟨pid, hpid, hd⟩
  · exact h.kern
  · exact (h.plays_directory ⟨hpid, hd⟩).1

/-- A page table, or the directory that maps itself. -/
theorem plays_table {d : Nat} {i : Idx} (hq : Plays c k q (.table d i)) :
    d ∈ dirs ∧ (tableOf c k.mem d i = some q ∨ SelfMap c d i ∧ q = c.kernPgdir) := by
  obtain ⟨hd, htarget⟩ := hq
  refine ⟨h.dir_mem hd, ?_⟩
  by_cases hself : SelfMap c d i
  · obtain ⟨rfl, rfl⟩ := hself
    rw [h.inv.inv.self h.kern] at htarget
    exact Or.inr ⟨⟨rfl, rfl⟩, (Option.some.inj htarget).symm⟩
  · left
    rw [tableOf, if_neg hself]
    exact htarget

theorem plays_stack {pid va : Nat} (hq : Plays c k q (.stack pid va)) :
    ∃ d, (k.tasks pid).pgdir = some d ∧ (d, slotOf va) ∈ pteRefs c stackSlot dirs k.mem q := by
  obtain ⟨hva, hpid, d, hd, hpage⟩ := hq
  rw [pageAt_eq_targetOf] at hpage
  exact ⟨d, hd, h.dir_mem (Or.inr ⟨pid, hpid, hd⟩), slotOf_mem hva, hpage⟩

/-- A page that plays two roles plays them of the same kind: six pairs are excluded. -/
theorem kind_le {r r' : Role} (hr : Plays c k q r) (hr' : Plays c k q r') : r'.kind ≤ r.kind := by
  have hinv := h.inv.inv
  have hkern : c.kernPgdir ∉ l := hinv.trees.dir_used _ h.kern
  cases r with
  | free i =>
      have hq : q ∈ l := List.mem_of_getElem? (h.plays_free hr)
      cases r' with
      | free j => exact le_rfl
      | directory pid => exact absurd hq (hinv.trees.dir_used q (h.plays_directory hr').1)
      | table d j =>
          obtain ⟨hd, htable | ⟨-, rfl⟩⟩ := h.plays_table hr'
          · exact absurd hq (hinv.trees.table_used d hd j q htable)
          · exact absurd hq hkern
      | stack pid va =>
          obtain ⟨d, -, hd, hs, htarget⟩ := h.plays_stack hr'
          exact absurd hq (hinv.data d hd _ q hs htarget).2.1
  | directory pid =>
      obtain ⟨hq, hne⟩ := h.plays_directory hr
      cases r' with
      | free j => exact Nat.zero_le _
      | directory pid' => exact le_rfl
      | table d j =>
          obtain ⟨hd, htable | ⟨-, rfl⟩⟩ := h.plays_table hr'
          · exact absurd hq (hinv.trees.table_dir d hd j q htable)
          · exact absurd rfl hne
      | stack pid' va =>
          obtain ⟨d, -, hd, hs, htarget⟩ := h.plays_stack hr'
          exact absurd hq (hinv.data d hd _ q hs htarget).2.2.1
  | table d i =>
      cases r' with
      | free j => exact Nat.zero_le _
      | directory pid => exact Nat.le_succ _
      | table d' j => exact le_rfl
      | stack pid va =>
          obtain ⟨d', -, hd', hs, htarget⟩ := h.plays_stack hr'
          have hdata := (hinv.data d' hd' _ q hs htarget).2.2
          obtain ⟨hd, htable | ⟨-, rfl⟩⟩ := h.plays_table hr
          · exact absurd htable (hdata.2 d hd i)
          · exact absurd h.kern hdata.1
  | stack pid va => cases r' <;> simp [Role.kind]

/-- **At most one role, and at most once.** -/
theorem role_unique {r r' : Role} (hr : Plays c k q r) (hr' : Plays c k q r') : r = r' := by
  have hkind := le_antisymm (h.kind_le hr' hr) (h.kind_le hr hr')
  have hinv := h.inv.inv
  cases r with
  | free i =>
      cases r' with
      | free j =>
          have hi := h.plays_free hr
          have hj := h.plays_free hr'
          obtain ⟨hlt, -⟩ := List.getElem?_eq_some_iff.mp hi
          rw [(List.getElem?_inj hlt hinv.free.chain.nodup).mp (hi.trans hj.symm)]
      | _ => cases hkind
  | directory pid =>
      cases r' with
      | directory pid' => rw [h.inj pid pid' hr.1 hr'.1 (hr.2.trans hr'.2.symm)]
      | _ => cases hkind
  | table d i =>
      cases r' with
      | table d' j =>
          obtain ⟨hd, htable⟩ := h.plays_table hr
          obtain ⟨hd', htable'⟩ := h.plays_table hr'
          rcases htable with htable | ⟨⟨rfl, rfl⟩, rfl⟩
          · rcases htable' with htable' | ⟨-, rfl⟩
            · obtain ⟨rfl, rfl⟩ := hinv.trees.table_inj d hd d' hd' i j q htable htable'
              rfl
            · exact absurd h.kern (hinv.trees.table_dir d hd i _ htable)
          · rcases htable' with htable' | ⟨⟨rfl, rfl⟩, -⟩
            · exact absurd h.kern (hinv.trees.table_dir d' hd' j _ htable')
            · rfl
      | _ => cases hkind
  | stack pid va =>
      cases r' with
      | stack pid' va' =>
          obtain ⟨d, hd, href⟩ := h.plays_stack hr
          obtain ⟨d', hd', href'⟩ := h.plays_stack hr'
          obtain ⟨rfl, hslot⟩ := Prod.ext_iff.mp (h.inv.sole q href href')
          obtain rfl := h.inj pid pid' hr.2.1 hr'.2.1 (hd.trans hd'.symm)
          rw [List.inj_on_of_nodup_map stackSlots_nodup hr.1 hr'.1 hslot]
      | _ => cases hkind

end Roles

end TaskPages

/-- **Exclusive ownership.**  In every state reachable from boot, through whatever kernel
entries on whatever CPUs, a page plays at most one role; and `task_free`, of whichever task, does
not panic. -/
theorem pages_have_one_role {c : Config} {local₀ : Option PtePtr} {b : Boot}
    {k₀ k : Kernel Mem Nat} {es : List Entry} (hlocal : local₀.isSome)
    (hboot : Booted c local₀ b k₀) (hrun : Run (Step (memVm c local₀) b) k₀ es k) :
    (∀ q r r', Plays c k q r → Plays c k q r' → r = r') ∧
      (∃ l, Chain k.mem.link k.mem.pageFreeList l) ∧
      ∀ pid, Alive k pid →
        ∃ m, taskFree (memVm c local₀) (k.tasks pid).pgdir k.mem = .ok m := by
  obtain ⟨-, dirs, l, h⟩ := pagesInv_of_run hboot hrun
  exact ⟨fun q r r' hr hr' => h.role_unique hr hr', ⟨l, h.inv.inv.free.chain⟩,
    fun pid hpid => h.exists_taskFree hpid hlocal⟩

/-- One CPU; the first task has forked, and parent and child have their pages for themselves. -/
theorem pages_have_one_role_after_fork :
    ∃ k₀ e k, Booted .small (some ⟨0, 0⟩) (.small false) k₀ ∧
      Step (memVm .small (some ⟨0, 0⟩)) (.small false) k₀ e k ∧ Alive k 1 ∧
      (∀ q r r', Plays .small k q r → Plays .small k q r' → r = r') ∧
      ∃ m, taskFree (memVm .small (some ⟨0, 0⟩)) (k.tasks 1).pgdir k.mem = .ok m := by
  obtain ⟨k₀, e, k, hboot, hstep, -, halive⟩ := exists_fork_small
  obtain ⟨hone, -, hfree⟩ := pages_have_one_role rfl hboot (.cons hstep (.nil k))
  exact ⟨k₀, e, k, hboot, hstep, halive, hone, hfree 1 halive⟩

/-! ## The life of a task -/

/-- Page `q` is on the free list. -/
def OnFreeList (m : Mem) (q : Nat) : Prop := ∃ l, Chain m.link m.pageFreeList l ∧ q ∈ l

/-- The pages of a task: its directory, the page tables, and the stack. -/
def pagesOf (c : Config) (k : Kernel Mem Nat) (pid : Nat) : Set Nat :=
  {q | ∃ d, (k.tasks pid).pgdir = some d ∧ q ∈ owned c k.mem d}

theorem pagesOf_eq {c : Config} {k : Kernel Mem Nat} {pid d : Nat}
    (h : (k.tasks pid).pgdir = some d) : pagesOf c k pid = owned c k.mem d := by
  ext q
  simp [pagesOf, h]

theorem TaskPages.onFreeList_iff {c : Config} {k : Kernel Mem Nat} {dirs : Finset Nat}
    {l : List Nat} (h : TaskPages c k dirs l) (q : Nat) : OnFreeList k.mem q ↔ q ∈ l := by
  constructor
  · rintro ⟨l', hchain, hq⟩
    rwa [hchain.unique h.inv.inv.free.chain] at hq
  · exact fun hq => ⟨l, h.inv.inv.free.chain, hq⟩

namespace Change

variable {c : Config} {k k' : Kernel Mem Nat} {dirs dirs' : Finset Nat} {l l' : List Nat}
  {pid q : Nat}

/-- Birth: the pages of the task are those that left the free list. -/
theorem born (hc : Change c k k' dirs l dirs' l') (hnew : ¬ Alive k pid) (hlive : Alive k' pid) :
    q ∈ pagesOf c k' pid ↔ q ∈ l ∧ q ∉ l' := by
  cases hc with
  | same mem alive => exact absurd ((alive pid).mp hlive) hnew
  | @created p d l' slot lt alive child other inv new alloc image frame pages =>
      obtain rfl : pid = p := ((alive pid).mp hlive).resolve_left hnew
      rw [pagesOf_eq child, ← Set.mem_ofPred_eq (p := fun q => q ∈ l), ← pages, mem_pool]
      constructor
      · intro hq
        exact ⟨Or.inr hq, inv.owned_notMem (Finset.mem_insert_self d dirs) hq⟩
      · rintro ⟨hq | hq, hnot⟩
        · exact absurd hq hnot
        · exact hq
  | killed slot alive child other inv frame pages => exact absurd ((alive pid).mp hlive).1 hnew

/-- Life: whatever else happens, the task keeps its pages. -/
theorem lives (h : TaskPages c k dirs l) (hc : Change c k k' dirs l dirs' l') (hlive : Alive k pid)
    (hlive' : Alive k' pid) : pagesOf c k' pid = pagesOf c k pid := by
  obtain ⟨d₀, hd₀, hmem, -⟩ := h.task pid hlive
  cases hc with
  | same mem alive => rw [pagesOf_eq hd₀, pagesOf_eq ((mem.pgdir pid).trans hd₀), mem.mem]
  | @created p d l' slot lt alive child other inv new alloc image frame pages =>
      have hne : pid ≠ p := fun heq => slot (heq ▸ hlive)
      rw [pagesOf_eq hd₀, pagesOf_eq ((other pid hne).trans hd₀), owned_congr (frame d₀ hmem)]
  | @killed p d l' slot alive child other inv frame pages =>
      have hdd : d₀ ≠ d := by
        rintro rfl
        exact ((alive pid).mp hlive').2 (h.inj pid p hlive slot (hd₀.trans child.symm))
      rw [pagesOf_eq hd₀, pagesOf_eq ((other pid).trans hd₀),
        owned_congr (frame d₀ (Finset.mem_erase.mpr ⟨hdd, hmem⟩))]

/-- Death: the pages of the task join the free list, and no others. -/
theorem dies (h : TaskPages c k dirs l) (hc : Change c k k' dirs l dirs' l') (hlive : Alive k pid)
    (hdead : ¬ Alive k' pid) :
    l'.length = l.length + pagesPerTask c ∧ ∀ q, q ∈ l' ↔ q ∈ l ∨ q ∈ pagesOf c k pid := by
  have hcount := hc.count h
  cases hc with
  | same mem alive => exact absurd ((alive pid).mpr hlive) hdead
  | created slot lt alive child other inv new alloc image frame pages =>
      exact absurd ((alive pid).mpr (Or.inl hlive)) hdead
  | @killed p d l' slot alive child other inv frame pages =>
      obtain rfl : pid = p := by
        by_contra hne
        exact hdead ((alive pid).mpr ⟨hlive, hne⟩)
      rw [← inUse_kill alive slot (h.bound pid slot), Nat.mul_succ] at hcount
      refine ⟨by omega, fun q => ?_⟩
      rw [pagesOf_eq child, ← mem_pool, ← pages, Set.mem_ofPred_eq]

end Change

/-! ## The balance over a run -/

/-- A kernel entry in which `page_alloc` does not return NULL. -/
def FedStep (c : Config) (local₀ : Option PtePtr) (b : Boot) (k : Kernel Mem Nat) (e : Entry)
    (k' : Kernel Mem Nat) : Prop :=
  Step (memVm c local₀) b k e k' ∧ ¬ Starved k e

section Balance

variable {c : Config} {local₀ : Option PtePtr} {b : Boot} {k k₀ k' : Kernel Mem Nat} {e : Entry}
  {es : List Entry} {dirs : Finset Nat} {l : List Nat}

theorem TaskPages.fedStep (h : TaskPages c k dirs l) (hq : QueueInv b k)
    (hs : FedStep c local₀ b k e k') :
    ∃ dirs' l', Change c k k' dirs l dirs' l' ∧ TaskPages c k' dirs' l' := by
  obtain ⟨dirs', l', hchange | ⟨hstarved, -⟩⟩ := h.step hq hs.1
  · exact ⟨dirs', l', hchange, h.change hchange⟩
  · exact absurd hstarved hs.2

/-- The number of free pages, with those the tasks have. -/
def account (c : Config) (k : Kernel Mem Nat) : Nat :=
  k.mem.numFreePages + pagesPerTask c * inUse k

theorem account_fedStep (h : PagesInv c b k)
    (hs : FedStep c local₀ b k e k') : account c k' = account c k := by
  obtain ⟨hq, dirs, l, hp⟩ := h
  obtain ⟨dirs', l', hchange, hp'⟩ := hp.fedStep hq hs
  rw [account, account, hp'.inv.inv.free.num, hp.inv.inv.free.num]
  exact hchange.count hp

theorem account_of_run (h : PagesInv c b k₀)
    (hrun : Run (FedStep c local₀ b) k₀ es k) : account c k = account c k₀ := by
  have hinv : PagesInv c b k ∧ account c k = account c k₀ := by
    refine hrun.invariant (I := fun k => PagesInv c b k ∧ account c k = account c k₀) ?_ ⟨h, rfl⟩
    rintro k e k' ⟨hk, hacc⟩ hs
    exact ⟨hk.step hs.1, (account_fedStep hk hs).trans hacc⟩
  exact hinv.2

/-- A task keeps its pages over a run it lives through. -/
theorem pagesOf_of_run {pid : Nat} (h : PagesInv c b k₀)
    (hlive : Alive k₀ pid)
    (hrun : Run (fun k e k' => FedStep c local₀ b k e k' ∧ Alive k' pid) k₀ es k) :
    PagesInv c b k ∧ Alive k pid ∧ pagesOf c k pid = pagesOf c k₀ pid := by
  refine hrun.invariant (I := fun k => PagesInv c b k ∧ Alive k pid ∧
    pagesOf c k pid = pagesOf c k₀ pid) ?_ ⟨h, hlive, rfl⟩
  rintro k e k' ⟨hk, hp, hsame⟩ ⟨hs, hp'⟩
  refine ⟨hk.step hs.1, hp', ?_⟩
  obtain ⟨hq, dirs, l, hpages⟩ := hk
  obtain ⟨dirs', l', hchange, -⟩ := hpages.fedStep hq hs
  exact (hchange.lives hpages hp hp').trans hsame

end Balance

/-- **No page is lost.**  In every state reachable from boot by kernel entries in which
`page_alloc` does not return NULL, the number of free pages and `pagesPerTask` for every task add
up to the same number.  When a task is killed, in whichever state its life leads to, exactly
those pages join the free list that left it when the task was created. -/
theorem pages_conserved {c : Config} {local₀ : Option PtePtr} {b : Boot} {k₀ k : Kernel Mem Nat}
    {es : List Entry} (hboot : Booted c local₀ b k₀) (hrun : Run (FedStep c local₀ b) k₀ es k) :
    k.mem.numFreePages + pagesPerTask c * inUse k =
        k₀.mem.numFreePages + pagesPerTask c * inUse k₀ ∧
      ∀ e₁ k₁ es' k₂ e₂ k₃ pid, FedStep c local₀ b k e₁ k₁ → ¬ Alive k pid → Alive k₁ pid →
        Run (fun k e k' => FedStep c local₀ b k e k' ∧ Alive k' pid) k₁ es' k₂ →
        FedStep c local₀ b k₂ e₂ k₃ → ¬ Alive k₃ pid →
        k₃.mem.numFreePages = k₂.mem.numFreePages + pagesPerTask c ∧
          ∀ q, OnFreeList k₃.mem q ↔
            OnFreeList k₂.mem q ∨ OnFreeList k.mem q ∧ ¬ OnFreeList k₁.mem q := by
  have hk := pagesInv_of_run hboot (hrun.mono fun _ _ _ hs => hs.1)
  refine ⟨account_of_run hboot.pagesInv hrun, ?_⟩
  intro e₁ k₁ es' k₂ e₂ k₃ pid hfork hnew hlive hlife hkill hdead
  obtain ⟨hk₂, hlive₂, hsame⟩ := pagesOf_of_run (hk.step hfork.1) hlive hlife
  obtain ⟨hq, dirs, l, hp⟩ := hk
  obtain ⟨dirs₁, l₁, hborn, hp₁⟩ := hp.fedStep hq hfork
  obtain ⟨hq₂, dirs₂, l₂, hp₂⟩ := hk₂
  obtain ⟨dirs₃, l₃, hdies, hp₃⟩ := hp₂.fedStep hq₂ hkill
  obtain ⟨hlen, hpages⟩ := hdies.dies hp₂ hlive₂ hdead
  refine ⟨?_, fun q => ?_⟩
  · rw [hp₃.inv.inv.free.num, hp₂.inv.inv.free.num, hlen]
  · rw [hp₃.onFreeList_iff, hp₂.onFreeList_iff, hp.onFreeList_iff, hp₁.onFreeList_iff, hpages,
      hsame, hborn.born hnew hlive]

/-- The child of the first task of the only CPU, behind it in the queue. -/
theorem forked_queue {k₀ k : Kernel Mem Nat} (hboot : Booted .small (some ⟨0, 0⟩) (.small false) k₀)
    {e : Entry} (hs : Step (memVm .small (some ⟨0, 0⟩)) (.small false) k₀ e k)
    (hcall : callOf e.tf = .fork) (hlive : Alive k 1) :
    ¬ Alive k₀ 1 ∧ (k.cpus 0).cpuTask = some 0 ∧ (k.cpus 0).cpuRq.total = 2 ∧
      (k.cpus 0).cpuRq.runQueue 0 = 0 ∧ (k.cpus 0).cpuRq.runQueue 1 = 1 ∧
      (k.tasks 1).state = .runnable := by
  obtain ⟨ram, m₀, m, -, -, hall⟩ := hboot
  have hinit := bootInv_of_bootAll hall
  rw [show (Boot.small false).order = [0] by decide] at hinit
  obtain ⟨hcur, htotal, -, hentry⟩ := hinit.cpu 0 (List.mem_singleton_self 0)
  have hdead : ¬ Alive k₀ 1 := fun hlive₀ => hlive₀ (hinit.free 1 le_rfl)
  obtain ⟨-, p, -, heff⟩ := step_effect hs
  rw [hcall] at heff
  obtain hs | ⟨pid, hpid, hs⟩ := heff.2
  · exact absurd ((hs.alive 1).mp hlive) hdead
  · obtain rfl : 1 = pid := Option.some.inj ((hinit.findFree_eq (by decide)).symm.trans hpid)
    have hleast : leastLoaded (.small false) k₀.cpus = 0 :=
      Nat.lt_one_iff.mp (leastLoaded_lt (.small false) k₀.cpus)
    have hrec := forked_cpus_same (.small false) k₀ 1
    rw [hleast, hs.cpus] at hrec
    refine ⟨hdead, ?_, ?_, ?_, ?_, ?_⟩
    · rw [hrec]
      exact hcur
    · rw [hrec, Runqueue.append, htotal]
    · simpa [hrec, Runqueue.append, htotal] using hentry
    · simp [hrec, Runqueue.append, htotal]
    · rw [← hs.state, forked_tasks_same]

/-- One CPU: the first task forks and goes to sleep, and its child kills itself.  What the fork took
from the free list is back on it. -/
theorem pages_conserved_fork_kill :
    ∃ k₀ e₁ k₁ e₂ k₂ e₃ k₃, Booted .small (some ⟨0, 0⟩) (.small false) k₀ ∧
      FedStep .small (some ⟨0, 0⟩) (.small false) k₀ e₁ k₁ ∧ callOf e₁.tf = .fork ∧
      FedStep .small (some ⟨0, 0⟩) (.small false) k₁ e₂ k₂ ∧ Alive k₂ 1 ∧
      FedStep .small (some ⟨0, 0⟩) (.small false) k₂ e₃ k₃ ∧ callOf e₃.tf = .kill ∧ ¬ Alive k₃ 1 ∧
      k₃.mem.numFreePages = k₂.mem.numFreePages + pagesPerTask .small ∧
      ∀ q, OnFreeList k₃.mem q ↔
        OnFreeList k₂.mem q ∨ OnFreeList k₀.mem q ∧ ¬ OnFreeList k₁.mem q := by
  obtain ⟨k₀, e₁, k₁, hboot, hstep₁, -, hfork, hret, hlive₁⟩ := exists_sysFork_small
  obtain ⟨hdead₀, hcur₁, htotal₁, hfirst₁, hsecond₁, hready₁⟩ := forked_queue hboot hstep₁ hfork hlive₁
  have hinv₁ := hboot.pagesInv.step hstep₁
  -- the child is the only one that the sleeping parent can hand the CPU to
  obtain ⟨e₂, k₂, hstep₂, he₂, hsleep⟩ := exists_sleep (memVm .small (some ⟨0, 0⟩))
    (b := .small false) (by decide) hcur₁
  obtain ⟨-, p, hp, heff₂⟩ := step_effect hstep₂
  rw [he₂] at hp heff₂
  obtain rfl : 0 = p := Option.some.inj (hcur₁.symm.trans hp)
  rw [hsleep] at heff₂
  obtain ⟨r, hr, -, hsw⟩ := sleep_switches 1 (k := k₁) (c := 0) (p := 0)
    ⟨1, ⟨1, by rw [htotal₁]; decide, hsecond₁⟩, by decide, hready₁⟩
  obtain rfl : r = 1 := by
    obtain ⟨i, hi, hval⟩ := hsw.queued
    rw [asleep, Kernel.modTask_cpus] at hi hval
    rw [htotal₁] at hi
    obtain rfl | rfl : i = 0 ∨ i = 1 := by omega
    · exact absurd (hval.symm.trans hfirst₁) hr
    · exact hval.symm.trans hsecond₁
  have hcur₂ : (k₂.cpus 0).cpuTask = some 1 := by
    rw [← heff₂.2.cpus]
    exact hsw.cpuTask
  have hinv₂ := hinv₁.step hstep₂
  have hlive₂ : Alive k₂ 1 := (hinv₂.1.current_live (by decide) hcur₂).2
  obtain ⟨hq₂, dirs, l, hpages₂⟩ := id hinv₂
  have hlocal : (some (⟨0, 0⟩ : PtePtr)).isSome = true := rfl
  obtain ⟨e₃, k₃, hstep₃, he₃, hkill⟩ := hpages₂.exists_kill hq₂ hlocal (by decide) hcur₂
  have hdead₃ : ¬ Alive k₃ 1 := by
    obtain ⟨-, p, hp, heff₃⟩ := step_effect hstep₃
    rw [he₃] at hp heff₃
    obtain rfl : 1 = p := Option.some.inj (hcur₂.symm.trans hp)
    rw [hkill] at heff₃
    have htotal₂ : 1 < (k₂.cpus 0).cpuRq.total := by
      have hqueue : ∀ q, Queued k₁ 0 q → Queued k₂ 0 q := fun q hq => by
        rw [Queued, ← heff₂.2.cpus]
        exact (hsw.queue q).mpr hq
      obtain ⟨i, hi, hi₀⟩ := hqueue 0 ⟨0, by rw [htotal₁]; decide, hfirst₁⟩
      obtain ⟨j, hj, hj₁⟩ := hqueue 1 ⟨1, by rw [htotal₁]; decide, hsecond₁⟩
      have hne : i ≠ j := by
        rintro rfl
        cases hi₀.symm.trans hj₁
      omega
    exact fun hlive => hlive (effect_kill_free hq₂ (by decide) hcur₂ heff₃
      ⟨by decide, by decide, htotal₂⟩)
  have hfed₁ : FedStep .small (some ⟨0, 0⟩) (.small false) k₀ e₁ k₁ :=
    ⟨hstep₁, fun hstarved => hret hstarved.2.1⟩
  have hfed₂ : FedStep .small (some ⟨0, 0⟩) (.small false) k₁ e₂ k₂ :=
    ⟨hstep₂, fun hstarved => by cases hsleep.symm.trans hstarved.1⟩
  have hfed₃ : FedStep .small (some ⟨0, 0⟩) (.small false) k₂ e₃ k₃ :=
    ⟨hstep₃, fun hstarved => by cases hkill.symm.trans hstarved.1⟩
  obtain ⟨hnum, hlist⟩ := (pages_conserved hboot (.nil k₀)).2 e₁ k₁ [e₂] k₂ e₃ k₃ 1 hfed₁ hdead₀
    hlive₁ (.cons ⟨hfed₂, hlive₂⟩ (.nil k₂)) hfed₃ hdead₃
  exact ⟨k₀, e₁, k₁, e₂, k₂, e₃, k₃, hboot, hfed₁, hfork, hfed₂, hlive₂, hfed₃, hkill, hdead₃, hnum,
    hlist⟩

end Nctuos
