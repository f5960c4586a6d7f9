import Nctuos.PageOps
import Nctuos.Sched

/-!
# The page directory of a task

`task_create` and `sys_fork` build the directory of a task in three stages: `setupkvm`
maps the kernel, the stack loop maps ten fresh pages, and `setupvm` maps the user program
over the kernel's mapping.  `Image c m d ws S` is what the directory `d` looks like on the
way: the words `ws` have been stored by `boot_map_region`, the stack slots `S` are mapped,
and there is a page table exactly where one of them needs it.

The two kinds of mapping differ in `pp_ref`.  `boot_map_region` does not count, so the
pages it maps may be anything; the pages of the stack are counted, and each is named once
(`TaskInv.sole`).  `stackSlot` is therefore the choice of counted slots.

`owned c m d` is the pages that directory `d` keeps from the free list: the directory,
its tables and the pages of its stack.  Each stage says how the free list shrinks, or, in
`task_free`, grows, by exactly those pages.
-/

namespace Nctuos

open Lib

/-! ## Slots and words -/

/-- The slots of the user stack. -/
def stackSlots : Finset Slot := (stackVas.map slotOf).toFinset

/-- The directory entry all of them are under. -/
def stackIdx : Idx := pdx (ustacktop - pgSize)

theorem stackVas_pdx : ∀ va ∈ stackVas, pdx va = stackIdx := by decide

theorem mem_stackSlots {s : Slot} : s ∈ stackSlots ↔ ∃ va ∈ stackVas, slotOf va = s := by
  simp [stackSlots]

theorem slotOf_mem {va : Nat} (h : va ∈ stackVas) : slotOf va ∈ stackSlots :=
  mem_stackSlots.mpr ⟨va, h, rfl⟩

theorem stackSlots_fst {s : Slot} (h : s ∈ stackSlots) : s.1 = stackIdx := by
  obtain ⟨va, hva, rfl⟩ := mem_stackSlots.mp h
  exact stackVas_pdx va hva

theorem stackSlots_nodup : (stackVas.map slotOf).Nodup := by decide

/-- The slots that are counted. -/
def stackSlot : Nat → Slot → Prop := fun _ s => s ∈ stackSlots

section Words

variable {c : Config} {w : Slot × Nat}

/-- A word of `boot_map_region`.  The physical address is known up to the wrap-around. -/
theorem mem_regionWords {perm n va pa : Nat} (h : w ∈ regionWords perm n va pa) :
    ∃ k < n, w.1 = slotOf (va + k * pgSize) ∧
      ∃ pa', w.2 = pteWord pa' perm ∧ pa' % 2 ^ 32 = (pa + k * pgSize) % 2 ^ 32 := by
  induction n generalizing va pa with
  | zero => cases h
  | succ n ih =>
      rcases List.mem_cons.mp h with rfl | h
      · refine ⟨0, Nat.succ_pos n, ?_, pa, rfl, ?_⟩ <;> rw [Nat.zero_mul, Nat.add_zero]
      · obtain ⟨k, hk, hw, pa', hword, hpa⟩ := ih h
        refine ⟨k + 1, Nat.succ_lt_succ hk, hw.trans ?_, pa', hword, hpa.trans ?_⟩
        · exact slotOf_add32 va k
        · simp only [add32, pgSize]
          omega

theorem exists_mem_regionWords {n k : Nat} (hk : k < n) (perm va pa : Nat) :
    ∃ w ∈ regionWords perm n va pa, w.1 = slotOf (va + k * pgSize) := by
  induction n generalizing va pa k with
  | zero => exact absurd hk (Nat.not_lt_zero k)
  | succ n ih =>
      cases k with
      | zero => exact ⟨_, List.mem_cons_self, by rw [Nat.zero_mul, Nat.add_zero]⟩
      | succ k =>
          obtain ⟨w, hmem, hw⟩ := ih (Nat.lt_of_succ_lt_succ hk) (add32 va pgSize) (add32 pa pgSize)
          exact ⟨w, List.mem_cons_of_mem _ hmem, hw.trans (slotOf_add32 va k)⟩

/-- A word of a region is at an address of the region. -/
theorem Region.mem_words {r : Region} (h : w ∈ r.words) :
    ∃ a, r.va ≤ a ∧ a + pgSize ≤ r.va + r.size ∧ w.1 = slotOf a ∧
      ∃ pa, w.2 = pteWord pa r.perm ∧ pa % 2 ^ 32 = (r.pa + (a - r.va)) % 2 ^ 32 ∧
        (a - r.va) % pgSize = 0 := by
  obtain ⟨k, hk, hw, pa, hword, hpa⟩ := mem_regionWords h
  refine ⟨r.va + k * pgSize, Nat.le_add_right _ _, ?_, hw, pa, hword, ?_, ?_⟩
  · simp only [pgSize] at *
    omega
  · rw [hpa, Nat.add_sub_cancel_left]
  · rw [Nat.add_sub_cancel_left, Nat.mul_mod_left]

/-- The call of `boot_map_region` in `setupvm`. -/
def Section.region (s : Section) : Region :=
  ⟨s.start, roundup s.size pgSize, s.start - kernbase, pteW ||| pteU⟩

/-- The words `setupkvm` stores. -/
def kvmWords (c : Config) : List (Slot × Nat) := (kvmRegions c).flatMap Region.words

/-- The words the four calls of `setupvm` store. -/
def userWords (c : Config) : List (Slot × Nat) :=
  ((userSections c).map Section.region).flatMap Region.words

theorem mem_kernbase {a : Nat} (hge : kernbase ≤ a) (hlt : a < 2 ^ 32) : 960 ≤ (pdx a).val := by
  rw [pdx_val]
  simp only [kernbase] at hge
  omega

/-- `(2^32)-KERNBASE` is 34 bytes more than the address space from `KERNBASE` on. -/
theorem kernSize_eq : kernSize = 0x10000022 := by decide

/-- The entries below `KERNBASE` that the kernel uses: those of page 0, `UPAGES`, the MMIO
window and the kernel stacks. -/
def LowIdx (i : Nat) : Prop := i = 0 ∨ i = 956 ∨ i = 958 ∨ i = 959

/-- All the entries the kernel uses. -/
def KernelIdx (i : Nat) : Prop := LowIdx i ∨ 960 ≤ i

/-- `setupkvm` without the local APIC. -/
def kvmBase (c : Config) : List Region :=
  [⟨upages, roundup (sizeofPageInfo * c.npages) pgSize, c.pagesVa - kernbase, pteU⟩,
    ⟨kernbase, kernSize, 0, pteW⟩,
    ⟨iophysmem, roundup (extphysmem - iophysmem) pgSize, iophysmem, pteW⟩] ++ kstackRegions c

/-- The addresses below `KERNBASE` that these calls map: `UPAGES`, the I/O hole and the kernel
stacks. -/
def LowAddr (a : Nat) : Prop :=
  (upages ≤ a ∧ a < uvpt) ∨ (iophysmem ≤ a ∧ a < extphysmem) ∨
    ∃ i < ncpuMax, kstackVa i ≤ a ∧ a < kstackVa i + kstksize

/-- Where they map something; only one of them reaches `KERNBASE`.  `mem_init` maps the same
addresses, so the lemma is about those alone. -/
theorem base_addr {r r' : Region} (hr : r ∈ kvmBase c) (hva : r'.va = r.va) (hsz : r'.size = r.size)
    (hw : w ∈ r'.words) :
    ∃ a, w.1 = slotOf a ∧
      (LowAddr a ∨ (kernbase ≤ a ∧ a < 2 ^ 32) ∧ r = ⟨kernbase, kernSize, 0, pteW⟩) := by
  have hnp := c.npages_lt
  obtain ⟨a, hge, hle, hslot, -⟩ := Region.mem_words hw
  rw [hva, hsz] at hle
  rw [hva] at hge
  refine ⟨a, hslot, ?_⟩
  unfold LowAddr
  simp only [kvmBase, List.mem_append, List.mem_cons, List.not_mem_nil, or_false, kstackRegions,
    List.mem_map, List.mem_range] at hr
  rcases hr with (rfl | rfl | rfl) | ⟨i, hi, rfl⟩
  · have hsize : roundup (sizeofPageInfo * c.npages) pgSize < sizeofPageInfo * c.npages + pgSize :=
      roundup_lt (by simp only [sizeofPageInfo, pgSize]; omega)
    refine Or.inl (Or.inl ⟨hge, ?_⟩)
    simp only [upages_eq, uvpt_eq, pgSize, sizeofPageInfo] at hle hsize ⊢
    omega
  · refine Or.inr ⟨⟨hge, ?_⟩, rfl⟩
    simp only [kernSize_eq, kernbase, pgSize] at hle
    omega
  · have hsize : roundup (extphysmem - iophysmem) pgSize = 0x60000 := by decide
    refine Or.inl (Or.inr (Or.inl ⟨hge, ?_⟩))
    simp only [hsize] at hle
    simp only [iophysmem, extphysmem, pgSize] at hle ⊢
    omega
  · refine Or.inl (Or.inr (Or.inr ⟨i, hi, hge, ?_⟩))
    simp only [pgSize] at hle
    omega

theorem LowAddr.idx {a : Nat} (h : LowAddr a) : LowIdx (slotOf a).1.val := by
  rw [slotOf, pdx_val]
  unfold LowIdx
  rcases h with h | h | ⟨i, hi, h⟩
  · rw [upages_eq, uvpt_eq] at h
    omega
  · simp only [iophysmem, extphysmem] at h
    omega
  · simp only [kstackVa, kstacktop, kernbase, kstksize, kstkgap, pgSize, ncpuMax] at h hi
    omega

theorem lapic_idx (c : Config) : LowIdx (slotOf c.lapic).1.val := by
  have hwin := c.lapic_window
  rw [slotOf, pdx_val]
  unfold LowIdx
  rw [mmiobase_eq, mmiolim_eq] at hwin
  omega

/-- The last call of `setupkvm` is for one page. -/
theorem kvmRegions_addr {r : Region} (hr : r ∈ kvmRegions c) (hw : w ∈ r.words) :
    ∃ a, w.1 = slotOf a ∧ (LowAddr a ∨ a = c.lapic ∨
      (kernbase ≤ a ∧ a < 2 ^ 32) ∧ r = ⟨kernbase, kernSize, 0, pteW⟩) := by
  rcases List.mem_append.mp (show r ∈ kvmBase c ++ _ from hr) with hr | hr
  · obtain ⟨a, hslot, ha⟩ := base_addr hr rfl rfl hw
    exact ⟨a, hslot, ha.imp_right Or.inr⟩
  · obtain ⟨a, hge, hle, hslot, -⟩ := Region.mem_words hw
    have hsize : roundup 4096 pgSize = pgSize := by decide
    rw [List.mem_singleton.mp hr] at hge hle
    simp only [hsize] at hge hle
    exact ⟨a, hslot, Or.inr (Or.inl (by omega))⟩

theorem kvmRegions_idx {r : Region} (hr : r ∈ kvmRegions c) (hw : w ∈ r.words) :
    LowIdx w.1.1.val ∨ 960 ≤ w.1.1.val ∧ r = ⟨kernbase, kernSize, 0, pteW⟩ := by
  obtain ⟨a, hslot, ha⟩ := kvmRegions_addr hr hw
  rw [hslot]
  rcases ha with hlow | rfl | ⟨⟨hge, hlt⟩, rfl⟩
  · exact Or.inl hlow.idx
  · exact Or.inl (lapic_idx c)
  · exact Or.inr ⟨mem_kernbase hge hlt, rfl⟩

theorem kvmWords_idx (h : w ∈ kvmWords c) : KernelIdx w.1.1.val := by
  obtain ⟨r, hr, hw⟩ := List.mem_flatMap.mp h
  exact (kvmRegions_idx hr hw).imp_right And.left

/-- The stack is under none of them. -/
theorem not_stack_of_kernelIdx {s : Slot} (h : KernelIdx s.1.val) : s ∉ stackSlots := by
  intro hs
  rw [stackSlots_fst hs] at h
  revert h
  unfold KernelIdx LowIdx
  decide

/-- From `KERNBASE` on everything is mapped. -/
theorem exists_kvmWord {s : Slot} (hs : 960 ≤ s.1.val) : ∃ w ∈ kvmWords c, w.1 = s := by
  have h₁ := s.1.isLt
  have h₂ := s.2.isLt
  have hk : (s.1.val - 960) * 1024 + s.2.val < kernSize / pgSize := by
    simp only [kernSize_eq, pgSize]
    omega
  obtain ⟨w, hmem, hw⟩ := exists_mem_regionWords hk pteW kernbase 0
  refine ⟨w, List.mem_flatMap.mpr ⟨⟨kernbase, kernSize, 0, pteW⟩, by simp [kvmRegions], hmem⟩, ?_⟩
  rw [hw]
  simp only [slotOf, Prod.ext_iff, Fin.ext_iff, pdx_val, ptx_val, kernbase, pgSize]
  omega

theorem kernbase_indices {i : Idx} (hi : 960 ≤ i.val) : i ∈ indices (kvmWords c) := by
  have hslot : 960 ≤ ((i, 0) : Slot).1.val := hi
  obtain ⟨w, hmem, hw⟩ := exists_kvmWord hslot
  exact mem_indices.mpr ⟨w, hmem, by rw [hw]⟩

theorem userWords_idx (h : w ∈ userWords c) : 960 ≤ w.1.1.val := by
  obtain ⟨r, hr, hw⟩ := List.mem_flatMap.mp h
  obtain ⟨s, -, rfl⟩ := List.mem_map.mp hr
  obtain ⟨a, hge, hle, hslot, -⟩ := Region.mem_words hw
  have hstart := s.start_ge
  have horder := s.le
  have hend := s.lt
  have hsize : roundup s.size pgSize < s.size + pgSize :=
    roundup_lt (by simp only [Section.size, pgSize, kernbase] at *; omega)
  rw [hslot]
  refine mem_kernbase ?_ ?_
  · exact Nat.le_trans hstart hge
  · simp only [Section.region, Section.size, pgSize] at *
    omega

theorem userWords_indices : indices (userWords c) ⊆ indices (kvmWords c) := by
  intro i hi
  obtain ⟨w, hw, rfl⟩ := mem_indices.mp hi
  exact kernbase_indices (userWords_idx hw)

theorem kvmWords_not_stack (h : w ∈ kvmWords c) : w.1 ∉ stackSlots :=
  not_stack_of_kernelIdx (kvmWords_idx h)

theorem userWords_not_stack (h : w ∈ userWords c) : w.1 ∉ stackSlots :=
  not_stack_of_kernelIdx (Or.inr (userWords_idx h))

theorem overlay_of_notMem {ws : List (Slot × Nat)} {s : Slot} (h : ∀ w ∈ ws, w.1 ≠ s)
    (e : Slot → Nat) : overlay ws e s = e s := by
  induction ws generalizing e with
  | nil => rfl
  | cons w ws ih =>
      have hrest := ih (fun w' hw' => h w' (List.mem_cons_of_mem w hw')) (Function.update e w.1 w.2)
      refine hrest.trans (Function.update_of_ne ?_ _ _)
      exact (h w List.mem_cons_self).symm

/-- A word laid over one place hides what was there; elsewhere it shows. -/
theorem overlay_congr {e e' : Slot → Nat} {s : Slot} (h : e s = e' s) (ws : List (Slot × Nat)) :
    overlay ws e s = overlay ws e' s := by
  induction ws generalizing e e' with
  | nil => exact h
  | cons w ws ih =>
      refine ih ?_
      change Function.update e w.1 w.2 s = Function.update e' w.1 w.2 s
      by_cases hs : s = w.1
      · rw [hs, Function.update_self, Function.update_self]
      · rw [Function.update_of_ne hs, Function.update_of_ne hs, h]

end Words

/-! ## The image of a directory -/

/-- Directory `d` reads the same in both memories. -/
def SameDir (c : Config) (m m' : Mem) (d : Nat) : Prop :=
  tableOf c m' d = tableOf c m d ∧ entryOf c m' d = entryOf c m d

theorem SameDir.refl (c : Config) (m : Mem) (d : Nat) : SameDir c m m d := ⟨rfl, rfl⟩

theorem SameDir.trans {c : Config} {m m' m'' : Mem} {d : Nat} (h : SameDir c m m' d)
    (h' : SameDir c m' m'' d) : SameDir c m m'' d :=
  ⟨h'.1.trans h.1, h'.2.trans h.2⟩

/-- Directory `d` with the page tables `T`, where `boot_map_region` has stored the words
`ws` and the slots `S` of the stack are mapped. -/
structure Image (c : Config) (m : Mem) (d : Nat) (ws : List (Slot × Nat)) (T : Finset Idx)
    (S : Finset Slot) : Prop where
  table : ∀ i, tableOf c m d i ≠ none ↔ i ∈ T
  entry : ∀ s, s ∉ stackSlots → entryOf c m d s = overlay ws (fun _ => 0) s
  stack : ∀ s ∈ S, ∃ q, q < c.npages ∧ entryOf c m d s = pteWord (page2pa q) (pteW ||| pteU)
  clear : ∀ s ∈ stackSlots, s ∉ S → entryOf c m d s = 0

theorem Image.congr {c : Config} {m m' : Mem} {d : Nat} {ws : List (Slot × Nat)} {T : Finset Idx}
    {S : Finset Slot} (h : Image c m d ws T S) (hs : SameDir c m m' d) : Image c m' d ws T S where
  table i := by
    rw [hs.1]
    exact h.table i
  entry s hs' := by
    rw [hs.2]
    exact h.entry s hs'
  stack s hs' := by
    rw [hs.2]
    exact h.stack s hs'
  clear s hs' hS := by
    rw [hs.2]
    exact h.clear s hs' hS

/-- The pages that directory `d` keeps from the free list. -/
def owned (c : Config) (m : Mem) (d : Nat) : Set Nat :=
  {q | q = d ∨ (∃ i, tableOf c m d i = some q) ∨
    ∃ s ∈ stackSlots, targetOf (entryOf c m d s) = some q}

theorem owned_congr {c : Config} {m m' : Mem} {d : Nat} (hs : SameDir c m m' d) :
    owned c m' d = owned c m d := by
  rw [owned, owned, hs.1, hs.2]

/-- What directory `d` owns, and what it can get. -/
def pool (c : Config) (m : Mem) (d : Nat) (l : List Nat) : Set Nat := {q | q ∈ l} ∪ owned c m d

theorem mem_pool {c : Config} {m : Mem} {d q : Nat} {l : List Nat} :
    q ∈ pool c m d l ↔ q ∈ l ∨ q ∈ owned c m d := Iff.rfl

/-- The counts are right, up to the `extra` references somebody else holds, and every page of
a stack is named once. -/
structure StackInv (c : Config) (dirs : Finset Nat) (extra : Nat → Nat) (m : Mem) (l : List Nat) :
    Prop where
  inv : MemInv c stackSlot dirs extra m l
  sole : ∀ q, (pteRefs c stackSlot dirs m q).Subsingleton

/-- Nobody but the directories `dirs` holds references. -/
abbrev TaskInv (c : Config) (dirs : Finset Nat) (m : Mem) (l : List Nat) : Prop :=
  StackInv c dirs (fun _ => 0) m l

namespace StackInv

variable {c : Config} {dirs : Finset Nat} {extra : Nat → Nat} {m m' : Mem} {l l' : List Nat}
  {d : Nat}

theorem sole_congr (h : StackInv c dirs extra m l) (hsame : ∀ d ∈ dirs, SameDir c m m' d) (q : Nat) :
    (pteRefs c stackSlot dirs m' q).Subsingleton := by
  rw [pteRefs_congr fun d hd s _ => congrArg targetOf (congrFun (hsame d hd).2 s)]
  exact h.sole q

theorem take {p : Nat} (h : StackInv c dirs extra m (p :: l)) (zero : Bool) :
    StackInv c dirs extra (m.take zero p) l ∧ ∀ d ∈ dirs, SameDir c m (m.take zero p) d := by
  have hdir : ∀ d ∈ dirs, (m.take zero p).ram d = m.ram d := fun d hd =>
    Mem.take_ram_other m zero fun heq => h.inv.trees.dir_used d hd (heq ▸ List.mem_cons_self)
  have hsame : ∀ d ∈ dirs, SameDir c m (m.take zero p) d := fun d hd =>
    ⟨tableOf_congr (hdir d hd), entryOf_congr (hdir d hd) fun i t ht =>
      Mem.take_ram_other m zero fun heq =>
        h.inv.trees.table_used d hd i t ht (heq ▸ List.mem_cons_self)⟩
  exact ⟨⟨h.inv.take zero, h.sole_congr hsame⟩, hsame⟩

/-! ## `setupkvm` -/

/-- The words of `boot_map_region` are stored in a directory, with tables for all of them. -/
theorem edits {I : Finset Idx} {ws : List (Slot × Nat)} {new : List Nat}
    (h : StackInv c dirs extra m l) (hd : d ∈ dirs) (he : Edits c dirs d I (overlay ws) m l m' l' new)
    (hws : ∀ w ∈ ws, w.1 ∉ stackSlots) :
    StackInv c dirs extra m' l' ∧ (∀ d' ∈ dirs, d' ≠ d → SameDir c m m' d') ∧
      ∀ s ∈ stackSlots, entryOf c m' d s = entryOf c m d s := by
  have hstack : ∀ s ∈ stackSlots, entryOf c m' d s = entryOf c m d s := by
    intro s hs
    rw [he.entry, overlay_of_notMem]
    rintro w hw rfl
    exact hws w hw hs
  have hother : ∀ d' ∈ dirs, d' ≠ d → SameDir c m m' d' := fun d' hd' hne =>
    ⟨he.table_other d' hd' hne, he.entry_other d' hd' hne⟩
  refine ⟨⟨h.inv.edits hd he fun s hs => ?_, fun q => ?_⟩, hother, hstack⟩
  · rw [← he.entry, hstack s hs]
  · rw [pteRefs_congr fun d' hd' s hs => congrArg targetOf ?_]
    · exact h.sole q
    · by_cases hdd : d' = d
      · rw [hdd]
        exact hstack s hs
      · rw [(hother d' hd' hdd).2]

/-- The page at the head of the free list becomes an empty directory. -/
theorem newDir (h : StackInv c dirs extra m (d :: l)) :
    StackInv c (insert d dirs) extra (m.take true d) l ∧ d ∉ dirs ∧ c.Allocatable d ∧
      (∀ i, tableOf c (m.take true d) d i = none) ∧
      (entryOf c (m.take true d) d = fun _ => 0) ∧ ∀ d' ∈ dirs, SameDir c m (m.take true d) d' := by
  have halloc := h.inv.free.alloc d List.mem_cons_self
  have hdl := (List.nodup_cons.mp h.inv.free.chain.nodup).1
  obtain ⟨htake, hsame⟩ := h.take true
  have hdir : d ∉ dirs := fun hmem => h.inv.trees.dir_used d hmem List.mem_cons_self
  have hzero := Mem.take_ram_same m d
  have href : ((m.take true d).pages d).ppRef = 0 := by
    rw [Mem.take_ref]
    exact h.inv.free.ref d List.mem_cons_self
  have hnone : ∀ i, tableOf c (m.take true d) d i = none := fun i => by
    rw [tableOf_eq_none fun hself => halloc.ne_kernPgdir hself.1, hzero,
      present_zero]
  have hentry : entryOf c (m.take true d) d = fun _ => 0 := funext fun s =>
    entryOf_none (hnone s.1)
  refine ⟨⟨htake.inv.addDir halloc hdl hdir href hzero, fun q => ?_⟩, hdir, halloc, hnone, hentry,
    hsame⟩
  rw [pteRefs_insert fun s _ => by rw [hentry, targetOf_zero]]
  exact htake.sole q

/-- `setupkvm` is a `page_alloc` and the calls of `boot_map_region`. -/
theorem setupkvm_eq (h : StackInv c dirs extra m (d :: l)) :
    Nctuos.setupkvm c m =
      (mapRegions c d (kvmRegions c) (m.take true d) >>= fun m' => .ok (some d, m')) := by
  have hlt := (h.inv.free.alloc d List.mem_cons_self).lt
  rw [Nctuos.setupkvm, pageAlloc_some h.inv.free.chain.head_eq hlt, ok_bind]
  simp only [page2kva_of_lt hlt, ok_bind]

theorem setupkvm (h : StackInv c dirs extra m l) (hrun : setupkvm c m = .ok (some d, m')) :
    ∃ l', StackInv c (insert d dirs) extra m' l' ∧ d ∉ dirs ∧ c.Allocatable d ∧
      Image c m' d (kvmWords c) (indices (kvmWords c)) ∅ ∧ (∀ d' ∈ dirs, SameDir c m m' d') ∧
      pool c m' d l' = {q | q ∈ l} ∧ ∀ q, q ∉ l → m'.ram q = m.ram q := by
  cases l with
  | nil =>
      rw [Nctuos.setupkvm, pageAlloc_none h.inv.free.chain.head_eq, ok_bind] at hrun
      cases hrun
  | cons p l =>
      rw [h.setupkvm_eq, bind_ok_iff] at hrun
      obtain ⟨m₂, hmap, hresult⟩ := hrun
      cases hresult
      obtain ⟨hadd, hdir, halloc, hnone, hentry, hsame⟩ := h.newDir
      have hkern := halloc.ne_kernPgdir
      have hd : d ∈ insert d dirs := Finset.mem_insert_self d dirs
      obtain ⟨l', new, he⟩ := mapRegions_edits hadd.inv.trees hd (fun i _ hself => hkern hself.1) hmap
      obtain ⟨hinv, hother, hstack⟩ := hadd.edits hd he fun w => kvmWords_not_stack
      have htable : ∀ i t, tableOf c m' d i = some t → i ∈ indices (kvmWords c) ∧ t ∈ new := by
        intro i t ht
        rcases he.table_new i t ht with hold | hnew
        · rw [hnone] at hold
          cases hold
        · exact hnew
      refine ⟨l', hinv, hdir, halloc, ⟨fun i => ?_, fun s _ => ?_, nofun, fun s hs _ => ?_⟩,
        fun d' hd' => ?_, ?_, fun q hq => ?_⟩
      · constructor
        · intro hi
          obtain ⟨t, ht⟩ := Option.ne_none_iff_exists'.mp hi
          exact (htable i t ht).1
        · intro hi
          obtain ⟨t, ht⟩ := he.covered i hi
          rw [ht]
          exact nofun
      · rw [he.entry, hentry]
        rfl
      · rw [hstack s hs, hentry]
      · have hne : d' ≠ d := fun heq => hdir (heq ▸ hd')
        exact (hsame d' hd').trans (hother d' (Finset.mem_insert_of_mem hd') hne)
      · -- the directory came from the head of the list, the tables from behind it
        ext q
        rw [mem_pool, Set.mem_ofPred_eq, List.mem_cons, he.free, List.mem_append]
        constructor
        · rintro (hq | rfl | ⟨i, hi⟩ | ⟨s, hs, hq⟩)
          · exact Or.inr (Or.inr hq)
          · exact Or.inl rfl
          · exact Or.inr (Or.inl (htable i q hi).2)
          · rw [hstack s hs, hentry, targetOf_zero] at hq
            cases hq
        · rintro (rfl | hq | hq)
          · exact Or.inr (Or.inl rfl)
          · exact Or.inr (Or.inr (Or.inl (he.new_table q hq)))
          · exact Or.inl hq
      · rw [List.mem_cons, not_or, he.free, List.mem_append, not_or] at hq
        have htables : ∀ i, tableOf c (m.take true d) d i ≠ some q := fun i => by
          rw [hnone]
          exact nofun
        rw [he.ram q hq.1 hq.2.1 htables, Mem.take_ram_other m true hq.1]

end StackInv

/-! ## The stack -/

section Stack

variable {c : Config} {dirs : Finset Nat} {m m' : Mem} {d pp : Nat} {s : Slot} {new : List Nat}
  {ws : List (Slot × Nat)} {T : Finset Idx} {S : Finset Slot}

/-- Slot `s` of directory `d` is mapped to the page `pp`.  Its table is the one that was
there or is among the pages `new`. -/
structure Mapped (c : Config) (dirs : Finset Nat) (m m' : Mem) (d : Nat) (s : Slot) (pp : Nat)
    (new : List Nat) : Prop where
  table : ∀ i t, tableOf c m' d i = some t ↔ tableOf c m d i = some t ∨ i = s.1 ∧ t ∈ new
  here : tableOf c m' d s.1 ≠ none
  entry : entryOf c m' d =
    Function.update (entryOf c m d) s (pteWord (page2pa pp) (pteW ||| pteU))
  frame : ∀ d' ∈ dirs, d' ≠ d → SameDir c m m' d'

theorem Mapped.image (h : Mapped c dirs m m' d s pp new) (himg : Image c m d ws T S)
    (hs : s ∈ stackSlots) (hnew : s ∉ S) (hlt : pp < c.npages) :
    Image c m' d ws (insert s.1 T) (insert s S) where
  table i := by
    rw [Finset.mem_insert, ← himg.table i]
    constructor
    · intro hi
      obtain ⟨t, ht⟩ := Option.ne_none_iff_exists'.mp hi
      rcases (h.table i t).mp ht with hold | ⟨rfl, -⟩
      · rw [hold]
        exact Or.inr nofun
      · exact Or.inl rfl
    · rintro (rfl | hi)
      · exact h.here
      · obtain ⟨t, ht⟩ := Option.ne_none_iff_exists'.mp hi
        rw [(h.table i t).mpr (Or.inl ht)]
        exact nofun
  entry s' hs' := by
    have hne : s' ≠ s := fun heq => hs' (heq ▸ hs)
    rw [h.entry, Function.update_of_ne hne]
    exact himg.entry s' hs'
  stack s' hs' := by
    rw [h.entry]
    rcases Finset.mem_insert.mp hs' with rfl | hs'
    · exact ⟨pp, hlt, Function.update_self _ _ _⟩
    · have hne : s' ≠ s := fun heq => hnew (heq ▸ hs')
      rw [Function.update_of_ne hne]
      exact himg.stack s' hs'
  clear s' hs' hS := by
    rw [Finset.mem_insert, not_or] at hS
    rw [h.entry, Function.update_of_ne hS.1]
    exact himg.clear s' hs' hS.2

/-- The directory now owns the page and the new table as well. -/
theorem Mapped.mem_owned (h : Mapped c dirs m m' d s pp new) (hs : s ∈ stackSlots)
    (hclear : entryOf c m d s = 0) (hlt : pp < c.npages) (q : Nat) :
    q ∈ owned c m' d ↔ q ∈ owned c m d ∨ q = pp ∨ q ∈ new := by
  have htarget : targetOf (pteWord (page2pa pp) (pteW ||| pteU)) = some pp :=
    targetOf_pteWord hlt (by decide)
  constructor
  · rintro (rfl | ⟨i, hi⟩ | ⟨s', hs', hq⟩)
    · exact Or.inl (Or.inl rfl)
    · rcases (h.table i q).mp hi with hold | ⟨-, hmem⟩
      · exact Or.inl (Or.inr (Or.inl ⟨i, hold⟩))
      · exact Or.inr (Or.inr hmem)
    · rw [h.entry] at hq
      by_cases hss : s' = s
      · rw [hss, Function.update_self, htarget] at hq
        exact Or.inr (Or.inl (Option.some.inj hq).symm)
      · rw [Function.update_of_ne hss] at hq
        exact Or.inl (Or.inr (Or.inr ⟨s', hs', hq⟩))
  · rintro ((rfl | ⟨i, hi⟩ | ⟨s', hs', hq⟩) | rfl | hq)
    · exact Or.inl rfl
    · exact Or.inr (Or.inl ⟨i, (h.table i q).mpr (Or.inl hi)⟩)
    · have hss : s' ≠ s := by
        rintro rfl
        rw [hclear, targetOf_zero] at hq
        cases hq
      refine Or.inr (Or.inr ⟨s', hs', ?_⟩)
      rw [h.entry, Function.update_of_ne hss]
      exact hq
    · refine Or.inr (Or.inr ⟨s, hs, ?_⟩)
      rw [h.entry, Function.update_self, htarget]
    · exact Or.inr (Or.inl ⟨s.1, (h.table s.1 q).mpr (Or.inr ⟨rfl, hq⟩)⟩)

/-- A page that was named by nothing is named once, the others keep their one slot. -/
theorem Mapped.sole (h : Mapped c dirs m m' d s pp new)
    (hsole : ∀ q, (pteRefs c stackSlot dirs m q).Subsingleton)
    (hpp : pteRefs c stackSlot dirs m pp = ∅) (hlt : pp < c.npages) (q : Nat) :
    (pteRefs c stackSlot dirs m' q).Subsingleton := by
  have hold : ∀ x ∈ pteRefs c stackSlot dirs m' q, x = (d, s) ∧ q = pp ∨
      x ∈ pteRefs c stackSlot dirs m q := by
    rintro ⟨d', s'⟩ ⟨hd', hslot, hq⟩
    by_cases hdd : d' = d
    · subst hdd
      by_cases hss : s' = s
      · subst hss
        have hq' : targetOf (entryOf c m' d' s') = some q := hq
        rw [h.entry, Function.update_self, targetOf_pteWord hlt (by decide)] at hq'
        exact Or.inl ⟨rfl, (Option.some.inj hq').symm⟩
      · rw [h.entry, Function.update_of_ne hss] at hq
        exact Or.inr ⟨hd', hslot, hq⟩
    · rw [(h.frame d' hd' hdd).2] at hq
      exact Or.inr ⟨hd', hslot, hq⟩
  have hnot := Set.eq_empty_iff_forall_notMem.mp hpp
  intro x hx y hy
  rcases hold x hx with ⟨hx, rfl⟩ | hx
  · rcases hold y hy with ⟨hy, -⟩ | hy
    · rw [hx, hy]
    · exact absurd hy (hnot y)
  · rcases hold y hy with ⟨-, rfl⟩ | hy
    · exact absurd hx (hnot x)
    · exact hsole q hx hy

/-- The pages mapped at the slots `S` are full of zeros. -/
def Blank (c : Config) (m : Mem) (d : Nat) (S : Finset Slot) : Prop :=
  ∀ s ∈ S, ∀ q, targetOf (entryOf c m d s) = some q → m.ram q = fun _ => 0

/-- A page of zeros is added to a stack of such pages, and theirs are not written to. -/
theorem Mapped.blank (h : Mapped c dirs m m' d s pp new) (hlt : pp < c.npages)
    (hzero : m'.ram pp = fun _ => 0)
    (hram : ∀ s' ∈ S, ∀ q, targetOf (entryOf c m d s') = some q → m'.ram q = m.ram q)
    (hblank : Blank c m d S) : Blank c m' d (insert s S) := by
  intro s' hs' q hq
  rw [h.entry] at hq
  by_cases hss : s' = s
  · rw [hss, Function.update_self, targetOf_pteWord hlt (by decide), Option.some.injEq] at hq
    rw [← hq, hzero]
  · rw [Function.update_of_ne hss] at hq
    have hS := (Finset.mem_insert.mp hs').resolve_left hss
    rw [hram s' hS q hq, hblank s' hS q hq]

/-- What `page_insert` did, if it was given a table. -/
theorem Edits.mapped {m₁ : Mem} {l l₁ : List Nat} {va t : Nat} (ht : Trees c dirs m l)
    (hd : d ∈ dirs) (he : Edits c dirs d {pdx va} id m l m₁ l₁ new)
    (htable : tableOf c m₁ d (pdx va) = some t)
    (hram : m'.ram = (m₁.store ⟨t, ptx va⟩ (pteWord (page2pa pp) (pteW ||| pteU))).ram) :
    Mapped c dirs m m' d (slotOf va) pp new := by
  obtain ⟨htables, hentry, hother⟩ := he.read_store hd htable hram
  refine ⟨fun i q => ?_, ?_, hentry, fun d' hd' hne => ?_⟩
  · rw [htables d hd]
    constructor
    · refine fun hq => (he.table_new i q hq).imp_right fun hn => ⟨?_, hn.2⟩
      exact Finset.mem_singleton.mp hn.1
    · rintro (hq | ⟨rfl, hq⟩)
      · exact he.table_mono i q hq
      · -- a new table is under the one entry that may have got one
        obtain ⟨j, hj⟩ := he.new_table q hq
        rcases he.table_new j q hj with hold | ⟨hI, -⟩
        · exact absurd (he.free ▸ List.mem_append_left l₁ hq) (ht.table_used d hd j q hold)
        · rw [Finset.mem_singleton.mp hI] at hj
          exact hj
  · rw [htables d hd]
    intro hnone
    exact absurd (htable.symm.trans hnone) nofun
  · exact ⟨(htables d' hd').trans (he.table_other d' hd' hne), hother d' hd' hne⟩

/-- The contents of memory it changed: a new table, the directory, and the table of the entry. -/
theorem Edits.ram_insert {m₁ : Mem} {l l₁ : List Nat} {va t w q : Nat}
    (he : Edits c dirs d {pdx va} id m l m₁ l₁ new) (htable : tableOf c m₁ d (pdx va) = some t)
    (hram : m'.ram = (m₁.store ⟨t, ptx va⟩ w).ram) (hqd : q ≠ d) (hqnew : q ∉ new)
    (hq : ∀ i, tableOf c m d i ≠ some q) : m'.ram q = m.ram q := by
  have hqt : q ≠ t := by
    rintro rfl
    rcases he.table_new _ q htable with hold | ⟨-, hmem⟩
    · exact hq _ hold
    · exact hqnew hmem
  rw [hram, Mem.store_ram_other m₁ ⟨t, ptx va⟩ w hqt, he.ram q hqd hqnew hq]

theorem Mapped.of_congr {m₀ : Mem} (h : Mapped c dirs m m' d s pp new) (hd : d ∈ dirs)
    (hsame : ∀ d' ∈ dirs, SameDir c m₀ m d') : Mapped c dirs m₀ m' d s pp new where
  table i t := by
    rw [← (hsame d hd).1]
    exact h.table i t
  here := h.here
  entry := by
    rw [← (hsame d hd).2]
    exact h.entry
  frame d' hd' hne := (hsame d' hd').trans (h.frame d' hd' hne)

end Stack

namespace StackInv

variable {c : Config} {dirs : Finset Nat} {extra : Nat → Nat} {m m' : Mem} {l l' : List Nat}
  {d : Nat} {ws : List (Slot × Nat)} {T : Finset Idx} {S : Finset Slot} {pp va : Nat}
  {local₀ : Option PtePtr}

/-- One turn of the stack loop.  If `page_insert` finds no page for a table, its failure goes
unnoticed, but then there is no page for the next turn either. -/
theorem stackPage (h : StackInv c dirs extra m (pp :: l)) (hd : d ∈ dirs) (hkern : d ≠ c.kernPgdir)
    (himg : Image c m d ws T S) (hva : va ∈ stackVas) (hnew : slotOf va ∉ S)
    (local₀ : Option PtePtr) :
    (tableOf c m d stackIdx = none ∧ l = [] ∧
      stackPage c local₀ d va m = .ok (true, m.take true pp)) ∨
    ∃ m' l', stackPage c local₀ d va m = .ok (true, m') ∧ StackInv c dirs extra m' l' ∧
      Image c m' d ws (insert stackIdx T) (insert (slotOf va) S) ∧
      (∀ d' ∈ dirs, d' ≠ d → SameDir c m m' d') ∧ pool c m' d l' = pool c m d (pp :: l) ∧
      (∀ q, q ∉ pool c m d (pp :: l) → m'.ram q = m.ram q) ∧
      (S ⊆ stackSlots → Blank c m d S → Blank c m' d (insert (slotOf va) S)) := by
  have halloc := h.inv.free.alloc pp List.mem_cons_self
  have hpl := (List.nodup_cons.mp h.inv.free.chain.nodup).1
  have hidx := stackVas_pdx va hva
  have hs := slotOf_mem hva
  obtain ⟨htake, hsame⟩ := h.take true
  have hdir : pp ∉ dirs := fun hmem => h.inv.trees.dir_used pp hmem List.mem_cons_self
  have hnot : ∀ d' ∈ dirs, ∀ i, tableOf c (m.take true pp) d' i ≠ some pp := by
    intro d' hd' i ht
    rw [(hsame d' hd').1] at ht
    exact h.inv.trees.table_used d' hd' i pp ht List.mem_cons_self
  have href : ((m.take true pp).pages pp).ppRef = 0 := by
    rw [Mem.take_ref]
    exact h.inv.free.ref pp List.mem_cons_self
  have hclear : entryOf c m d (slotOf va) = 0 := himg.clear _ hs hnew
  have hpage : pageAt c (m.take true pp) d va = none := by
    rw [pageAt_eq_targetOf, (hsame d hd).2, hclear, targetOf_zero]
  have hrun : Nctuos.stackPage c local₀ d va m =
      (Nctuos.pageInsert c local₀ d pp va (pteW ||| pteU) (m.take true pp) >>=
        fun s => .ok (decide (s.1 ≠ -1), s.2)) := by
    rw [Nctuos.stackPage, pageAlloc_some h.inv.free.chain.head_eq halloc.lt, ok_bind]
  have hperm : pteW ||| pteU < 4096 := by decide
  -- nothing is mapped there, so there is no `page_remove`
  have hlocal : pageAt c (m.take true pp) d va ≠ none → local₀.isSome := fun hne => absurd hpage hne
  rcases htake.inv.pageInsert hd (fun hself => hkern hself.1) hs hlocal halloc hpl hdir hnot hperm
    (fun _ => by rw [href]; decide) with
    ⟨hnone, rfl, hfail⟩ | ⟨t, m₁, l₁, new, m', l', hedits, htable, hok, hinv, hram, hlist⟩
  · rw [hidx, (hsame d hd).1] at hnone
    refine Or.inl ⟨hnone, rfl, ?_⟩
    rw [hrun, hfail]
    rfl
  · obtain rfl : l' = l₁ := by
      rcases hlist with hl | ⟨p, hp, -⟩
      · exact hl
      · rw [hpage] at hp
        cases hp
    have hmapped := hedits.mapped htake.inv.trees hd htable hram
    have hmapped' := hmapped.of_congr hd hsame
    have hempty := (htake.inv.unreferenced halloc hpl href).1
    have himg' := hmapped'.image himg hs hnew halloc.lt
    rw [show (slotOf va).1 = stackIdx from hidx] at himg'
    have hbytes : ∀ q, q ≠ d → q ∉ new → (∀ i, tableOf c m d i ≠ some q) →
        m'.ram q = (m.take true pp).ram q := fun q hqd hqnew hq =>
      hedits.ram_insert htable hram hqd hqnew (by rw [(hsame d hd).1]; exact hq)
    have hnewl : ∀ q ∈ new, q ∈ l := fun q hq => hedits.free ▸ List.mem_append_left l' hq
    have hzero : m'.ram pp = fun _ => 0 := by
      rw [hbytes pp (fun heq => hdir (heq ▸ hd)) (fun hq => hpl (hnewl pp hq)) fun i => ?_,
        Mem.take_ram_same]
      rw [← (hsame d hd).1]
      exact hnot d hd i
    refine Or.inr ⟨m', l', ?_, ⟨hinv, hmapped.sole htake.sole hempty halloc.lt⟩, himg',
      hmapped'.frame, ?_, fun q hq => ?_, fun hS => hmapped'.blank halloc.lt hzero fun s hs q hq => ?_⟩
    · rw [hrun, hok]
      rfl
    · ext q
      rw [mem_pool, mem_pool, hmapped'.mem_owned hs hclear halloc.lt, List.mem_cons, hedits.free,
        List.mem_append]
      constructor
      · rintro (hq | hq | rfl | hq)
        · exact Or.inl (Or.inr (Or.inr hq))
        · exact Or.inr hq
        · exact Or.inl (Or.inl rfl)
        · exact Or.inl (Or.inr (Or.inl hq))
      · rintro ((rfl | hq | hq) | hq)
        · exact Or.inr (Or.inr (Or.inl rfl))
        · exact Or.inr (Or.inr (Or.inr hq))
        · exact Or.inl hq
        · exact Or.inr (Or.inl hq)
    · rw [mem_pool, not_or, List.mem_cons, not_or] at hq
      rw [hbytes q (fun heq => hq.2 (Or.inl heq)) (fun hmem => hq.1.2 (hnewl q hmem))
        fun i hi => hq.2 (Or.inr (Or.inl ⟨i, hi⟩)), Mem.take_ram_other m true hq.1.1]
    · -- a page of the stack is none of those that change
      obtain ⟨-, hql, hqd, hqt⟩ := h.inv.data d hd s q (hS hs) hq
      rw [List.mem_cons, not_or] at hql
      rw [hbytes q (fun heq => hqd (heq ▸ hd)) (fun hmem => hql.2 (hnewl q hmem)) (hqt d hd),
        Mem.take_ram_other m true hql.1]

/-- Without a free page the loop gives up. -/
theorem stackPage_starved (hfree : m.pageFreeList = none) :
    Nctuos.stackPage c local₀ d va m = .ok (false, m) := by
  rw [Nctuos.stackPage, pageAlloc_none hfree, ok_bind]

/-- **The stack loop.**  It keeps the invariant however it ends, and gives up only when there
is no free page left.  The induction is on the addresses still to be mapped; from the first
turn on there is a table for them. -/
theorem setupStack {vas : List Nat} {r : Bool} (h : StackInv c dirs extra m l) (hd : d ∈ dirs)
    (hkern : d ≠ c.kernPgdir) (himg : Image c m d ws T S) (hvas : ∀ va ∈ vas, va ∈ stackVas)
    (hnodup : (vas.map slotOf).Nodup) (hnew : ∀ va ∈ vas, slotOf va ∉ S)
    (htable : tableOf c m d stackIdx = none → 2 ≤ vas.length)
    (hrun : setupStack (memVm c local₀) d vas m = .ok (r, m')) :
    ∃ l', StackInv c dirs extra m' l' ∧ (∀ d' ∈ dirs, d' ≠ d → SameDir c m m' d') ∧
      (∀ q, q ∉ pool c m d l → m'.ram q = m.ram q) ∧
      (r = true → pool c m' d l' = pool c m d l ∧ Image c m' d ws
          (if vas = [] then T else insert stackIdx T) (S ∪ (vas.map slotOf).toFinset) ∧
        (S ⊆ stackSlots → Blank c m d S → Blank c m' d (S ∪ (vas.map slotOf).toFinset))) ∧
      (r = false → l' = []) := by
  induction vas generalizing m l T S with
  | nil =>
      cases hrun
      exact ⟨l, h, fun d' _ _ => .refl c _ d', fun _ _ => rfl,
        fun _ => ⟨rfl, by simpa using himg, fun _ => by simp⟩, nofun⟩
  | cons va vas ih =>
      rw [Nctuos.setupStack, bind_ok_iff] at hrun
      obtain ⟨⟨r₁, m₁⟩, hpage, hrest⟩ := hrun
      change Nctuos.stackPage c local₀ d va m = .ok (r₁, m₁) at hpage
      cases l with
      | nil =>
          rw [stackPage_starved h.inv.free.chain.head_eq] at hpage
          cases hpage
          cases hrest
          exact ⟨[], h, fun d' _ _ => .refl c _ d', fun _ _ => rfl, nofun, fun _ => rfl⟩
      | cons pp l =>
          rcases h.stackPage hd hkern himg (hvas va List.mem_cons_self) (hnew va List.mem_cons_self)
            local₀ with ⟨hnone, rfl, hok⟩ | ⟨m₂, l₂, hok, h₂, himg₂, hframe₂, hpool₂, hram₂, hblank₂⟩
          · cases hok.symm.trans hpage
            obtain ⟨htake, hsame⟩ := h.take true
            -- the unnoticed failure is followed by one that is noticed
            cases vas with
            | nil => exact absurd (htable hnone) (by simp)
            | cons va' vas =>
                rw [if_pos rfl, Nctuos.setupStack, bind_ok_iff] at hrest
                obtain ⟨⟨r₂, m₃⟩, hpage', hrest⟩ := hrest
                change Nctuos.stackPage c local₀ d va' _ = .ok (r₂, m₃) at hpage'
                rw [stackPage_starved htake.inv.free.chain.head_eq] at hpage'
                cases hpage'
                cases hrest
                refine ⟨[], htake, fun d' hd' _ => hsame d' hd', fun q hq => ?_, nofun, fun _ => rfl⟩
                exact Mem.take_ram_other m true fun heq => hq (Or.inl (heq ▸ List.mem_cons_self))
          · cases hok.symm.trans hpage
            rw [List.map_cons, List.nodup_cons] at hnodup
            have htable₂ : tableOf c m₁ d stackIdx ≠ none :=
              (himg₂.table stackIdx).mpr (Finset.mem_insert_self _ _)
            obtain ⟨l', h', hframe', hram', hdone, hgave⟩ := ih h₂ himg₂
              (fun va' hva' => hvas va' (List.mem_cons_of_mem va hva')) hnodup.2
              (fun va' hva' => by
                rw [Finset.mem_insert, not_or]
                refine ⟨fun heq => hnodup.1 (heq ▸ List.mem_map_of_mem hva'), ?_⟩
                exact hnew va' (List.mem_cons_of_mem va hva'))
              (fun hnone => absurd hnone htable₂) hrest
            refine ⟨l', h', fun d' hd' hne => (hframe₂ d' hd' hne).trans (hframe' d' hd' hne),
              fun q hq => (hram' q (hpool₂ ▸ hq)).trans (hram₂ q hq),
              fun hr => ⟨(hdone hr).1.trans hpool₂, ?_⟩, hgave⟩
            have hslots : insert (slotOf va) S ∪ (vas.map slotOf).toFinset =
                S ∪ ((va :: vas).map slotOf).toFinset := by
              ext s
              simp only [List.map_cons, List.toFinset_cons, Finset.mem_union, Finset.mem_insert]
              rw [or_assoc, or_left_comm]
            obtain ⟨-, himg', hblank'⟩ := hdone hr
            rw [hslots, Finset.insert_idem, ite_self] at himg'
            rw [hslots] at hblank'
            rw [if_neg (List.cons_ne_nil va vas)]
            refine ⟨himg', fun hS hblank => hblank' (Finset.insert_subset ?_ hS) (hblank₂ hS hblank)⟩
            exact slotOf_mem (hvas va List.mem_cons_self)

/-! ## The copy of the parent's stack -/

/-- The page behind a mapped slot of the stack. -/
theorem stack_target (h : StackInv c dirs extra m l) (hd : d ∈ dirs) (himg : Image c m d ws T S)
    (hva : va ∈ stackVas) (hS : slotOf va ∈ S) :
    ∃ t q, tableOf c m d (pdx va) = some t ∧ t < c.npages ∧ pageAt c m d va = some q ∧
      kaddr c (pteAddr (m.load ⟨t, ptx va⟩)) = .ok q ∧ c.Allocatable q ∧ q ∉ l ∧ q ∉ dirs ∧
      (∀ d' ∈ dirs, ∀ i, tableOf c m d' i ≠ some q) ∧ (m.pages q).ppRef = 1 + extra q := by
  have hs := slotOf_mem hva
  obtain ⟨q, hq, hentry⟩ := himg.stack _ hS
  have htarget : targetOf (entryOf c m d (slotOf va)) = some q := by
    rw [hentry]
    exact targetOf_pteWord hq (by decide)
  have hpage : pageAt c m d va = some q := pageAt_eq_targetOf.trans htarget
  cases htable : tableOf c m d (pdx va) with
  | none =>
      rw [pageAt_of_none htable] at hpage
      cases hpage
  | some t =>
      obtain ⟨halloc, hql, hqd, hqt⟩ := h.inv.data d hd _ q hs htarget
      have hload : pteAddr (m.load ⟨t, ptx va⟩) = page2pa q := ((pageAt_eq_some_iff htable).mpr hpage).2
      refine ⟨t, q, rfl, h.inv.trees.table_lt d hd _ t htable, hpage, ?_, halloc, hql, hqd, hqt, ?_⟩
      · rw [hload]
        exact page2kva_of_lt hq
      · -- one counted slot names it, and no directory entry does
        have hmem : (d, slotOf va) ∈ pteRefs c stackSlot dirs m q := ⟨hd, hs, htarget⟩
        have hone : pteRefs c stackSlot dirs m q = {(d, slotOf va)} :=
          (h.sole q).eq_singleton_of_mem hmem
        have hnone : pdeRefs c dirs m q = ∅ :=
          Set.eq_empty_iff_forall_notMem.mpr fun x hx => hqt x.1 hx.1 x.2 hx.2
        have hrefs := h.inv.refs q halloc hql
        rw [hone, hnone, Set.ncard_singleton, Set.ncard_empty] at hrefs
        exact hrefs

/-- A page of a stack is mapped at one address of one stack. -/
theorem stack_inj {d' va' q : Nat} (h : StackInv c dirs extra m l) (hd : d ∈ dirs) (hd' : d' ∈ dirs)
    (hva : va ∈ stackVas) (hva' : va' ∈ stackVas) (hq : pageAt c m d va = some q)
    (hq' : pageAt c m d' va' = some q) : d = d' ∧ slotOf va = slotOf va' := by
  rw [pageAt_eq_targetOf] at hq hq'
  have heq := h.sole q
    (show (d, slotOf va) ∈ _ from ⟨hd, slotOf_mem hva, hq⟩)
    (show (d', slotOf va') ∈ _ from ⟨hd', slotOf_mem hva', hq'⟩)
  exact Prod.ext_iff.mp heq

theorem copyStackPage {parent : Nat} {ws' : List (Slot × Nat)} {T' : Finset Idx} {S' : Finset Slot}
    (h : StackInv c dirs extra m l) (hparent : parent ∈ dirs) (hd : d ∈ dirs)
    (himg' : Image c m parent ws' T' S') (himg : Image c m d ws T S) (hva : va ∈ stackVas)
    (hS' : slotOf va ∈ S') (hS : slotOf va ∈ S) :
    ∃ q q', copyStackPage c parent d va m = .ok (m.copyPage q q') ∧ pageAt c m d va = some q ∧
      pageAt c m parent va = some q' ∧ StackInv c dirs extra (m.copyPage q q') l ∧
      ∀ d' ∈ dirs, SameDir c m (m.copyPage q q') d' := by
  obtain ⟨t', q', htable', hlt', hpage', hsrc, -⟩ := h.stack_target hparent himg' hva hS'
  obtain ⟨t, q, htable, hlt, hpage, hdst, halloc, hql, hqd, hqt, -⟩ := h.stack_target hd himg hva hS
  have hdir : ∀ d' ∈ dirs, (m.copyPage q q').ram d' = m.ram d' := by
    intro d' hd'
    have hne : d' ≠ q := fun heq => hqd (heq ▸ hd')
    exact Function.update_of_ne hne _ _
  have htables : ∀ d' ∈ dirs, ∀ i u, tableOf c m d' i = some u →
      (m.copyPage q q').ram u = m.ram u := by
    intro d' hd' i u hu
    have hne : u ≠ q := fun heq => hqt d' hd' i (heq ▸ hu)
    exact Function.update_of_ne hne _ _
  have hsame : ∀ d' ∈ dirs, SameDir c m (m.copyPage q q') d' := fun d' hd' =>
    ⟨tableOf_congr (hdir d' hd'), entryOf_congr (hdir d' hd') (htables d' hd')⟩
  have hfree : FreeList c (m.copyPage q q') l :=
    ⟨h.inv.free.chain, h.inv.free.num, h.inv.free.alloc, h.inv.free.ref, h.inv.free.used⟩
  refine ⟨q, q', ?_, hpage, hpage', ⟨h.inv.refree hfree hdir htables
    (fun x hx hxl => absurd hx hxl) fun _ => rfl, h.sole_congr hsame⟩, hsame⟩
  simp only [Nctuos.copyStackPage, pgdirWalk_table htable' hlt', pgdirWalk_table htable hlt, ok_bind,
    hdst, hsrc]

/-- **The stack copy of `sys_fork`.**  Every page of the child gets the contents of its
counterpart, and no other page is written to.  A turn does not disturb the turns before and
behind it, since the pages of the two stacks are all different. -/
theorem copyStack {parent : Nat} {ws' : List (Slot × Nat)} {T' : Finset Idx} {vas : List Nat}
    (h : StackInv c dirs extra m l) (hparent : parent ∈ dirs) (hd : d ∈ dirs) (hne : parent ≠ d)
    (himg' : Image c m parent ws' T' stackSlots) (himg : Image c m d ws T stackSlots)
    (hvas : ∀ va ∈ vas, va ∈ stackVas) (hnodup : (vas.map slotOf).Nodup) :
    ∃ m', vas.foldlM (fun m va => Nctuos.copyStackPage c parent d va m) m = .ok m' ∧
      StackInv c dirs extra m' l ∧ (∀ d' ∈ dirs, SameDir c m m' d') ∧
      (∀ va ∈ vas, ∃ q q', pageAt c m d va = some q ∧ pageAt c m parent va = some q' ∧
        m'.ram q = m.ram q') ∧
      ∀ q, (∀ va ∈ vas, pageAt c m d va ≠ some q) → m'.ram q = m.ram q := by
  induction vas generalizing m with
  | nil => exact ⟨m, rfl, h, fun d' _ => .refl c m d', nofun, fun _ _ => rfl⟩
  | cons va vas ih =>
      have hva := hvas va List.mem_cons_self
      have hS := slotOf_mem hva
      rw [List.map_cons, List.nodup_cons] at hnodup
      obtain ⟨q₀, q₀', hok, hq₀, hq₀', h₁, hsame₁⟩ :=
        h.copyStackPage hparent hd himg' himg hva hS hS
      have hat : ∀ d' ∈ dirs, ∀ va', pageAt c (m.copyPage q₀ q₀') d' va' = pageAt c m d' va' :=
        fun d' hd' va' => by rw [pageAt_eq_targetOf, pageAt_eq_targetOf, (hsame₁ d' hd').2]
      have hother : ∀ q, q ≠ q₀ → (m.copyPage q₀ q₀').ram q = m.ram q := fun q hq =>
        Function.update_of_ne hq _ _
      obtain ⟨m', hrest, h', hsame', hcopied, hkept⟩ := ih h₁ (himg'.congr (hsame₁ parent hparent))
        (himg.congr (hsame₁ d hd)) (fun va' hva' => hvas va' (List.mem_cons_of_mem va hva')) hnodup.2
      simp only [hat d hd, hat parent hparent] at hcopied hkept
      refine ⟨m', ?_, h', fun d' hd' => (hsame₁ d' hd').trans (hsame' d' hd'), fun va' hva' => ?_,
        fun q hq => ?_⟩
      · rw [List.foldlM_cons, hok, ok_bind]
        exact hrest
      · rcases List.mem_cons.mp hva' with rfl | hmem
        · refine ⟨q₀, q₀', hq₀, hq₀', ?_⟩
          have hhere : (m.copyPage q₀ q₀').ram q₀ = m.ram q₀' := Function.update_self _ _ _
          rw [hkept q₀ fun va₁ hva₁ hq₁ => ?_, hhere]
          have hslot := (h.stack_inj hd hd hva (hvas va₁ (List.mem_cons_of_mem _ hva₁)) hq₀ hq₁).2
          exact hnodup.1 (hslot ▸ List.mem_map_of_mem hva₁)
        · obtain ⟨q, q', hq, hq', hbytes⟩ := hcopied va' hmem
          refine ⟨q, q', hq, hq', hbytes.trans (hother q' ?_)⟩
          rintro rfl
          exact hne (h.stack_inj hparent hd (hvas va' hva') hva hq' hq₀).1
      · rw [hkept q fun va' hva' => hq va' (List.mem_cons_of_mem va hva')]
        refine hother q ?_
        rintro rfl
        exact hq va List.mem_cons_self hq₀

end StackInv

/-! ## The user program -/

theorem setupvm_region {c : Config} {d : Nat} {m m' : Mem} {s : Section}
    (h : setupvm c d s.start s.size m = .ok m') :
    bootMapRegion c d s.start (roundup s.size pgSize) (s.start - kernbase) (pteW ||| pteU) m =
      .ok m' := by
  have hpaddr : paddr s.start = .ok (s.start - kernbase) :=
    if_neg (Nat.not_lt.mpr s.start_ge)
  rw [setupvm, hpaddr, ok_bind, bind_ok_iff] at h
  obtain ⟨m₁, hmap, h⟩ := h
  rw [bind_ok_iff] at h
  obtain ⟨found, -, h⟩ := h
  split at h
  · cases h
    exact hmap
  · cases h

/-- Where the assertions of `setupvm` hold, the four calls are four of `boot_map_region`. -/
theorem mapUser_regions {c : Config} {d : Nat} {m m' : Mem} (h : mapUser c d m = .ok m') :
    mapRegions c d ((userSections c).map Section.region) m = .ok m' := by
  rw [mapUser] at h
  generalize userSections c = ss at h ⊢
  induction ss generalizing m with
  | nil => exact h
  | cons s ss ih =>
      rw [List.foldlM_cons, bind_ok_iff] at h
      obtain ⟨m₁, hfirst, hrest⟩ := h
      have hregion := setupvm_region hfirst
      rw [List.map_cons, mapRegions, List.foldlM_cons]
      exact bind_ok_iff.mpr ⟨m₁, hregion, ih hrest⟩

/-- Where every entry has its table, no page is taken. -/
theorem Edits.new_eq_nil {c : Config} {dirs : Finset Nat} {d : Nat} {I : Finset Idx}
    {f : (Slot → Nat) → Slot → Nat} {m m' : Mem} {l l' new : List Nat} (ht : Trees c dirs m l)
    (hd : d ∈ dirs) (h : Edits c dirs d I f m l m' l' new) (hI : ∀ i ∈ I, tableOf c m d i ≠ none) :
    new = [] := by
  have hempty : missing c m d I = ∅ :=
    Finset.filter_eq_empty_iff.mpr fun i hi => hI i hi
  refine List.length_eq_zero_iff.mp ?_
  rw [h.length_new ht hd, hempty, Finset.card_empty]

namespace StackInv

variable {c : Config} {dirs : Finset Nat} {extra : Nat → Nat} {m m' : Mem} {l l' : List Nat}
  {d : Nat} {ws : List (Slot × Nat)} {T : Finset Idx} {S : Finset Slot}

/-- **The user program is mapped** over the kernel, without a new table. -/
theorem mapUser (h : StackInv c dirs extra m l) (hd : d ∈ dirs) (hkern : d ≠ c.kernPgdir)
    (himg : Image c m d ws T S) (hS : S ⊆ stackSlots) (hT : indices (userWords c) ⊆ T)
    (hrun : mapUser c d m = .ok m') :
    StackInv c dirs extra m' l ∧ Image c m' d (ws ++ userWords c) T S ∧
      (∀ d' ∈ dirs, d' ≠ d → SameDir c m m' d') ∧ owned c m' d = owned c m d ∧
      (∀ s ∈ stackSlots, entryOf c m' d s = entryOf c m d s) ∧
      ∀ q, q ≠ d → (∀ i, tableOf c m d i ≠ some q) → m'.ram q = m.ram q := by
  obtain ⟨l', new, he⟩ := mapRegions_edits h.inv.trees hd (fun i _ hself => hkern hself.1)
    (mapUser_regions hrun)
  obtain rfl := he.new_eq_nil h.inv.trees hd fun i hi => (himg.table i).mpr (hT hi)
  obtain rfl : l = l' := he.free
  obtain ⟨hinv, hframe, hstack⟩ := h.edits hd he fun w => userWords_not_stack
  have htable : tableOf c m' d = tableOf c m d := by
    funext i
    cases hold : tableOf c m d i with
    | some t => exact he.table_mono i t hold
    | none =>
        cases hnew : tableOf c m' d i with
        | none => rfl
        | some t =>
            rcases he.table_new i t hnew with hsame | ⟨-, hmem⟩
            · exact absurd (hold.symm.trans hsame) nofun
            · exact absurd hmem List.not_mem_nil
  refine ⟨hinv, ⟨fun i => ?_, fun s hs => ?_, fun s hs => ?_, fun s hs hns => ?_⟩, hframe, ?_, hstack,
    fun q hqd hq => he.ram q hqd List.not_mem_nil hq⟩
  · rw [htable]
    exact himg.table i
  · rw [he.entry, overlay_append]
    -- the words of the program hide what is below them, and show the rest
    exact overlay_congr (himg.entry s hs) _
  · rw [hstack s (hS hs)]
    exact himg.stack s hs
  · rw [hstack s hs]
    exact himg.clear s hs hns
  · ext q
    refine or_congr Iff.rfl (or_congr (by rw [htable]) ?_)
    refine exists_congr fun s => and_congr_right fun hs => ?_
    rw [hstack s hs]

end StackInv

end Nctuos
