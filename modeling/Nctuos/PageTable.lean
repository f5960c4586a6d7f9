import Nctuos.Alloc
import Mathlib.Data.Fintype.Basic
import Mathlib.Data.Fintype.Prod

/-!
# Two-level page tables

A directory is read through two functions.  `tableOf c m d i` is the page table that entry
`i` of directory `d` names; `entryOf c m d s` is the word at slot `s` of the tree, zero
where there is no table.  Zero is not an arbitrary choice: a table that `pgdir_walk` has
just made is filled with it, so making one changes no `entryOf`.

`Trees c dirs m l` is what keeps the directories `dirs` apart from each other and from the
free list `l`: every table has one entry of one directory that names it, and is neither
a directory nor free.  Under it each primitive store has an exact effect: `Mem.grow` (a
new table) changes one `tableOf` and no `entryOf`, a store into a table changes one
`entryOf` and no `tableOf`.

`Edits` is the relation between the memories before and after any number of those stores
in one directory.  It says all that later invariants need to know about `pgdir_walk` and
`boot_map_region` (`pgdirWalk_edits`, `bootMapLoop_edits`), so that those are unfolded
here and nowhere else.

The entry of `kern_pgdir` that names `kern_pgdir` itself (`SelfMap`) is not a page table:
the words behind it are the directory entries.
-/

namespace Nctuos

open Lib

/-! ## Reading a directory -/

/-- The entry `UVPT` of `kern_pgdir`. -/
def SelfMap (c : Config) (d : Nat) (i : Idx) : Prop := d = c.kernPgdir ∧ i = pdx uvpt

instance (c : Config) (d : Nat) (i : Idx) : Decidable (SelfMap c d i) :=
  inferInstanceAs (Decidable (_ ∧ _))

/-- The place of a page in a tree: its entry in the directory and in the table. -/
abbrev Slot := Idx × Idx

/-- The slot an address is translated through. -/
def slotOf (va : Nat) : Slot := (pdx va, ptx va)

theorem slotOf_eq_iff {a b : Nat} :
    slotOf a = slotOf b ↔ a / 4096 % 2 ^ 20 = b / 4096 % 2 ^ 20 := by
  simp only [slotOf, Prod.ext_iff, Fin.ext_iff, pdx_val, ptx_val]
  omega

theorem slotOf_add32 (va k : Nat) :
    slotOf (add32 va pgSize + k * pgSize) = slotOf (va + (k + 1) * pgSize) := by
  rw [slotOf_eq_iff, add32, pgSize]
  omega

def tableOf (c : Config) (m : Mem) (d : Nat) (i : Idx) : Option Nat :=
  if SelfMap c d i then none
  else if present (m.ram d i) then some (ptePage (m.ram d i))
  else none

def entryOf (c : Config) (m : Mem) (d : Nat) (s : Slot) : Nat :=
  match tableOf c m d s.1 with
  | some t => m.ram t s.2
  | none => 0

section Read

variable {c : Config} {m m' : Mem} {d t : Nat} {i : Idx} {s : Slot}

theorem tableOf_eq_some : tableOf c m d i = some t ↔
    ¬ SelfMap c d i ∧ present (m.ram d i) = true ∧ ptePage (m.ram d i) = t := by
  unfold tableOf
  split
  · rename_i hself
    simp [hself]
  · rename_i hself
    split
    · rename_i hpresent
      simp [hself, hpresent]
    · rename_i hpresent
      simp [hpresent]

theorem tableOf_eq_none (hself : ¬ SelfMap c d i) :
    tableOf c m d i = none ↔ present (m.ram d i) = false := by
  unfold tableOf
  rw [if_neg hself]
  split
  · rename_i hpresent
    simp [hpresent]
  · rename_i hpresent
    simp [hpresent]

theorem entryOf_some (h : tableOf c m d s.1 = some t) : entryOf c m d s = m.ram t s.2 := by
  rw [entryOf, h]

theorem entryOf_none (h : tableOf c m d s.1 = none) : entryOf c m d s = 0 := by
  rw [entryOf, h]

/-- Only the words of the directory matter for its tables. -/
theorem tableOf_congr (h : m'.ram d = m.ram d) : tableOf c m' d = tableOf c m d := by
  funext i
  rw [tableOf, tableOf, h]

/-- Only the words of the directory and of its tables matter for its entries. -/
theorem entryOf_congr (h : m'.ram d = m.ram d)
    (ht : ∀ i t, tableOf c m d i = some t → m'.ram t = m.ram t) :
    entryOf c m' d = entryOf c m d := by
  funext s
  rw [entryOf, entryOf, tableOf_congr h]
  cases htable : tableOf c m d s.1 with
  | none => rfl
  | some t => exact congrFun (ht s.1 t htable) s.2

end Read

/-! ## Separation -/

/-- The directories `dirs` and their tables are apart from each other and from the free
list `l`. -/
structure Trees (c : Config) (dirs : Finset Nat) (m : Mem) (l : List Nat) : Prop where
  chain : Chain m.link m.pageFreeList l
  free_lt : ∀ p ∈ l, p < c.npages
  dir_used : ∀ d ∈ dirs, d ∉ l
  table_lt : ∀ d ∈ dirs, ∀ i t, tableOf c m d i = some t → t < c.npages
  table_used : ∀ d ∈ dirs, ∀ i t, tableOf c m d i = some t → t ∉ l
  table_dir : ∀ d ∈ dirs, ∀ i t, tableOf c m d i = some t → t ∉ dirs
  table_inj : ∀ d ∈ dirs, ∀ d' ∈ dirs, ∀ i i' t, tableOf c m d i = some t →
    tableOf c m d' i' = some t → d = d' ∧ i = i'

/-! ## A new table -/

/-- The directory entry `pgdir_walk` makes for a new table. -/
def pdeWord (t : Nat) : Nat := page2pa t ||| pteP ||| pteU ||| pteW

theorem pdeWord_eq (t : Nat) : pdeWord t = pteWord (page2pa t) (pteU ||| pteW) := by
  rw [pdeWord, pteWord, Nat.or_assoc, Nat.or_assoc, Nat.or_assoc]
  congr 1

theorem present_pdeWord (t : Nat) : present (pdeWord t) = true := by
  rw [pdeWord_eq]
  exact present_pteWord _ _

theorem ptePage_pdeWord {c : Config} {t : Nat} (h : t < c.npages) : ptePage (pdeWord t) = t := by
  have hlt := c.npages_lt
  rw [pdeWord_eq]
  exact ptePage_pteWord (by omega) (by decide)

/-- The memory `pgdir_walk` leaves when it makes page `t` the table of entry `i`. -/
def Mem.grow (m : Mem) (d : Nat) (i : Idx) (t : Nat) : Mem :=
  (incref t (m.take true t)).store ⟨d, i⟩ (pdeWord t)

section Grow

variable {c : Config} {dirs : Finset Nat} {m : Mem} {l : List Nat} {d t : Nat} {i : Idx}

theorem Mem.grow_pages (m : Mem) (d : Nat) (i : Idx) (t p : Nat) :
    (m.grow d i t).pages p =
      if p = t then ⟨none, ((m.pages p).ppRef + 1) % 2 ^ 16⟩ else m.pages p := by
  by_cases hp : p = t
  · subst hp
    simp [Mem.grow, Mem.store, incref, Mem.modPage, Mem.take]
  · simp [Mem.grow, Mem.store, incref, Mem.modPage, Mem.take, hp]

theorem Mem.grow_link (m : Mem) (d : Nat) (i : Idx) (t : Nat) :
    (m.grow d i t).link = Function.update m.link t none := by
  funext p
  rw [Mem.link, Mem.grow_pages]
  by_cases hp : p = t
  · subst hp
    simp
  · simp [hp, Mem.link]

theorem Mem.grow_ram_dir (m : Mem) (i : Idx) (h : d ≠ t) :
    (m.grow d i t).ram d = Function.update (m.ram d) i (pdeWord t) := by
  have hother := Mem.take_ram_other m true h
  simp only [Mem.grow, Mem.store, incref, Mem.modPage, Function.update_self]
  rw [hother]

theorem Mem.grow_ram_table (m : Mem) (i : Idx) (h : d ≠ t) : (m.grow d i t).ram t = fun _ => 0 := by
  have hsame := Mem.take_ram_same m t
  simp only [Mem.grow, Mem.store, incref, Mem.modPage]
  rw [Function.update_of_ne h.symm, hsame]

theorem Mem.grow_ram_other (m : Mem) (i : Idx) {p : Nat} (hd : p ≠ d) (ht : p ≠ t) :
    (m.grow d i t).ram p = m.ram p := by
  have hother := Mem.take_ram_other m true ht
  simp only [Mem.grow, Mem.store, incref, Mem.modPage]
  rw [Function.update_of_ne hd, hother]

section Taken

variable (h : Trees c dirs m (t :: l))

include h

/-- A new table is the table of its entry, and of no other. -/
theorem tableOf_grow_same (hd : d ∈ dirs) (hself : ¬ SelfMap c d i) (i' : Idx) :
    tableOf c (m.grow d i t) d i' = if i' = i then some t else tableOf c m d i' := by
  have hdt : d ≠ t := fun heq => h.dir_used d hd (heq ▸ List.mem_cons_self)
  have hlt := h.free_lt t List.mem_cons_self
  by_cases hi : i' = i
  · subst hi
    rw [if_pos rfl, tableOf, if_neg hself, Mem.grow_ram_dir m _ hdt, Function.update_self,
      if_pos (present_pdeWord t), ptePage_pdeWord hlt]
  · rw [if_neg hi, tableOf, tableOf, Mem.grow_ram_dir m _ hdt, Function.update_of_ne hi]

theorem tableOf_grow_other {d' : Nat} (hd' : d' ∈ dirs) (hne : d' ≠ d) (i : Idx) :
    tableOf c (m.grow d i t) d' = tableOf c m d' := by
  have hdt : d' ≠ t := fun heq => h.dir_used d' hd' (heq ▸ List.mem_cons_self)
  exact tableOf_congr (Mem.grow_ram_other m i hne hdt)

/-- Making a table changes no entry: what it holds is zero. -/
theorem entryOf_grow (hd : d ∈ dirs) (hnone : tableOf c m d i = none) (hself : ¬ SelfMap c d i)
    {d' : Nat} (hd' : d' ∈ dirs) : entryOf c (m.grow d i t) d' = entryOf c m d' := by
  have hdt : d ≠ t := fun heq => h.dir_used d hd (heq ▸ List.mem_cons_self)
  -- an old table is neither the new one nor a directory
  have hold : ∀ d'' ∈ dirs, ∀ i' t', tableOf c m d'' i' = some t' →
      (m.grow d i t).ram t' = m.ram t' := by
    intro d'' hd'' i' t' htable
    refine Mem.grow_ram_other m i ?_ ?_
    · rintro rfl
      exact h.table_dir d'' hd'' i' t' htable hd
    · rintro rfl
      exact h.table_used d'' hd'' i' t' htable List.mem_cons_self
  by_cases hdd : d' = d
  · subst hdd
    funext s
    by_cases hs : s.1 = i
    · have hnew : tableOf c (m.grow d' i t) d' s.1 = some t := by
        rw [tableOf_grow_same h hd hself, if_pos hs]
      rw [entryOf_some hnew, Mem.grow_ram_table m i hdt, entryOf_none (hs ▸ hnone)]
    · have hsame : tableOf c (m.grow d' i t) d' s.1 = tableOf c m d' s.1 := by
        rw [tableOf_grow_same h hd hself, if_neg hs]
      rw [entryOf, entryOf, hsame]
      cases htable : tableOf c m d' s.1 with
      | none => rfl
      | some t' => exact congrFun (hold d' hd' s.1 t' htable) s.2
  · have hd't : d' ≠ t := fun heq => h.dir_used d' hd' (heq ▸ List.mem_cons_self)
    exact entryOf_congr (Mem.grow_ram_other m i hdd hd't) (hold d' hd')

/-- The tables after making one, whichever directory they are read from. -/
theorem tableOf_grow (hd : d ∈ dirs) (hself : ¬ SelfMap c d i) {d' : Nat} (hd' : d' ∈ dirs)
    {i' : Idx} {t' : Nat} (htable : tableOf c (m.grow d i t) d' i' = some t') :
    (d' = d ∧ i' = i ∧ t' = t) ∨ tableOf c m d' i' = some t' := by
  by_cases hdd : d' = d
  · subst hdd
    rw [tableOf_grow_same h hd hself] at htable
    split at htable
    · rename_i hi
      exact Or.inl ⟨rfl, hi, (Option.some.inj htable).symm⟩
    · exact Or.inr htable
  · rw [tableOf_grow_other h hd' hdd] at htable
    exact Or.inr htable

theorem Trees.grow (hd : d ∈ dirs) (hself : ¬ SelfMap c d i) : Trees c dirs (m.grow d i t) l := by
  have hdir : t ∉ dirs := fun hmem => h.dir_used t hmem List.mem_cons_self
  have htl := (List.nodup_cons.mp h.chain.nodup).1
  refine ⟨?_, fun p hp => h.free_lt p (List.mem_cons_of_mem t hp),
    fun d' hd' hmem => h.dir_used d' hd' (List.mem_cons_of_mem t hmem), ?_, ?_, ?_, ?_⟩
  · rw [Mem.grow_link]
    exact h.chain.pop none
  · intro d' hd' i' t' htable
    rcases tableOf_grow h hd hself hd' htable with ⟨-, -, rfl⟩ | hold
    · exact h.free_lt t' List.mem_cons_self
    · exact h.table_lt d' hd' i' t' hold
  · intro d' hd' i' t' htable
    rcases tableOf_grow h hd hself hd' htable with ⟨-, -, rfl⟩ | hold
    · exact htl
    · exact fun hmem => h.table_used d' hd' i' t' hold (List.mem_cons_of_mem t hmem)
  · intro d' hd' i' t' htable
    rcases tableOf_grow h hd hself hd' htable with ⟨-, -, rfl⟩ | hold
    · exact hdir
    · exact h.table_dir d' hd' i' t' hold
  · intro d₁ hd₁ d₂ hd₂ i₁ i₂ t' htable₁ htable₂
    rcases tableOf_grow h hd hself hd₁ htable₁ with ⟨rfl, rfl, rfl⟩ | hold₁
    · rcases tableOf_grow h hd hself hd₂ htable₂ with ⟨rfl, rfl, -⟩ | hold₂
      · exact ⟨rfl, rfl⟩
      · exact absurd List.mem_cons_self (h.table_used d₂ hd₂ i₂ t' hold₂)
    · rcases tableOf_grow h hd hself hd₂ htable₂ with ⟨-, -, rfl⟩ | hold₂
      · exact absurd List.mem_cons_self (h.table_used d₁ hd₁ i₁ t' hold₁)
      · exact h.table_inj d₁ hd₁ d₂ hd₂ i₁ i₂ t' hold₁ hold₂

end Taken

end Grow

/-! ## A store into a table -/

section Store

variable {c : Config} {dirs : Finset Nat} {m : Mem} {l : List Nat} {d t : Nat} {s : Slot}

theorem Mem.store_ram_other (m : Mem) (a : PtePtr) (w : Nat) {p : Nat} (h : p ≠ a.page) :
    (m.store a w).ram p = m.ram p :=
  Function.update_of_ne h _ _

section Entry

variable (h : Trees c dirs m l) (hd : d ∈ dirs) (htable : tableOf c m d s.1 = some t) (w : Nat)

include h hd htable

theorem tableOf_store {d' : Nat} (hd' : d' ∈ dirs) :
    tableOf c (m.store ⟨t, s.2⟩ w) d' = tableOf c m d' := by
  refine tableOf_congr (Mem.store_ram_other m _ w ?_)
  rintro rfl
  exact h.table_dir d hd s.1 _ htable hd'

theorem entryOf_store_same :
    entryOf c (m.store ⟨t, s.2⟩ w) d = Function.update (entryOf c m d) s w := by
  funext s'
  have hsame := congrFun (tableOf_store h hd htable w hd) s'.1
  rw [entryOf, hsame]
  by_cases hs : s' = s
  · subst hs
    rw [htable, Function.update_self]
    simp [Mem.store]
  · rw [Function.update_of_ne hs, entryOf]
    cases htable' : tableOf c m d s'.1 with
    | none => rfl
    | some t' =>
        by_cases ht : t' = t
        · subst ht
          obtain ⟨-, hi⟩ := h.table_inj d hd d hd _ _ t' htable' htable
          have hj : s'.2 ≠ s.2 := fun hj => hs (Prod.ext hi hj)
          simp [Mem.store, hj]
        · exact congrFun (Mem.store_ram_other m ⟨t, s.2⟩ w ht) s'.2

theorem entryOf_store_other {d' : Nat} (hd' : d' ∈ dirs) (hne : d' ≠ d) :
    entryOf c (m.store ⟨t, s.2⟩ w) d' = entryOf c m d' := by
  refine entryOf_congr (Mem.store_ram_other m _ w ?_) fun i t' htable' =>
    Mem.store_ram_other m _ w ?_
  · rintro rfl
    exact h.table_dir d hd s.1 _ htable hd'
  · rintro rfl
    exact hne (h.table_inj d' hd' d hd _ _ _ htable' htable).1

end Entry

/-- Separation is about the words of the directories only. -/
theorem Trees.of_tables {m' : Mem} (h : Trees c dirs m l) (hlink : m'.link = m.link)
    (hfree : m'.pageFreeList = m.pageFreeList)
    (htable : ∀ d ∈ dirs, tableOf c m' d = tableOf c m d) : Trees c dirs m' l where
  chain := by
    rw [hlink, hfree]
    exact h.chain
  free_lt := h.free_lt
  dir_used := h.dir_used
  table_lt d hd i t ht := h.table_lt d hd i t (htable d hd ▸ ht)
  table_used d hd i t ht := h.table_used d hd i t (htable d hd ▸ ht)
  table_dir d hd i t ht := h.table_dir d hd i t (htable d hd ▸ ht)
  table_inj d hd d' hd' i i' t ht ht' :=
    h.table_inj d hd d' hd' i i' t (htable d hd ▸ ht) (htable d' hd' ▸ ht')

theorem Trees.store (h : Trees c dirs m l) (hd : d ∈ dirs) (htable : tableOf c m d s.1 = some t)
    (w : Nat) : Trees c dirs (m.store ⟨t, s.2⟩ w) l :=
  h.of_tables rfl rfl fun _ hd' => tableOf_store h hd htable w hd'

end Store

/-! ## Any number of both -/

/-- From the memory `m` with free list `l` to `m'` with `l'`, by making the pages `new`
tables of directory `d`, under entries among `I` (all of which have a table then), and by
storing words into its tables so that its entries become `f` of what they were. -/
structure Edits (c : Config) (dirs : Finset Nat) (d : Nat) (I : Finset Idx)
    (f : (Slot → Nat) → Slot → Nat) (m : Mem) (l : List Nat) (m' : Mem) (l' new : List Nat) :
    Prop where
  trees : Trees c dirs m' l'
  free : l = new ++ l'
  num : new.length ≤ m.numFreePages → m.numFreePages < 2 ^ 32 →
    m'.numFreePages + new.length = m.numFreePages
  pages : ∀ p, p ∉ new → m'.pages p = m.pages p
  pages_new : ∀ p ∈ new, m'.pages p = ⟨none, ((m.pages p).ppRef + 1) % 2 ^ 16⟩
  table_other : ∀ d' ∈ dirs, d' ≠ d → tableOf c m' d' = tableOf c m d'
  entry_other : ∀ d' ∈ dirs, d' ≠ d → entryOf c m' d' = entryOf c m d'
  table_mono : ∀ i t, tableOf c m d i = some t → tableOf c m' d i = some t
  table_new : ∀ i t, tableOf c m' d i = some t → tableOf c m d i = some t ∨ i ∈ I ∧ t ∈ new
  new_table : ∀ t ∈ new, ∃ i, tableOf c m' d i = some t
  covered : ∀ i ∈ I, ∃ t, tableOf c m' d i = some t
  entry : entryOf c m' d = f (entryOf c m d)
  ram : ∀ p, p ≠ d → p ∉ new → (∀ i, tableOf c m d i ≠ some p) → m'.ram p = m.ram p
  self : c.kernPgdir ∈ dirs →
    m'.ram c.kernPgdir (pdx uvpt) = m.ram c.kernPgdir (pdx uvpt)
  mmio : m'.mmioNext = m.mmioNext

namespace Edits

variable {c : Config} {dirs : Finset Nat} {d : Nat} {I J : Finset Idx}
  {f g : (Slot → Nat) → Slot → Nat} {m m' m'' : Mem} {l l' l'' new new' : List Nat}

theorem refl (h : Trees c dirs m l) : Edits c dirs d ∅ id m l m l [] where
  trees := h
  free := rfl
  num _ _ := rfl
  pages _ _ := rfl
  pages_new := nofun
  table_other _ _ _ := rfl
  entry_other _ _ _ := rfl
  table_mono _ _ ht := ht
  table_new _ _ ht := Or.inl ht
  new_table := nofun
  covered := nofun
  entry := rfl
  ram _ _ _ _ := rfl
  self _ := rfl
  mmio := rfl

/-- A page that has become a table was free, and is not on the list any more. -/
theorem new_notMem (h : Edits c dirs d I f m l m' l' new) (hl : l.Nodup) {p : Nat}
    (hp : p ∈ new) : p ∉ l' := by
  rw [h.free] at hl
  exact List.disjoint_of_nodup_append hl hp

theorem trans (ht : Trees c dirs m l) (h : Edits c dirs d I f m l m' l' new)
    (h' : Edits c dirs d J g m' l' m'' l'' new') :
    Edits c dirs d (I ∪ J) (g ∘ f) m l m'' l'' (new ++ new') where
  trees := h'.trees
  free := by rw [h.free, h'.free, List.append_assoc]
  num hlen hlt := by
    rw [List.length_append] at hlen ⊢
    have h₁ := h.num (by omega) hlt
    have h₂ := h'.num (by omega) (by omega)
    omega
  pages p hp := by
    rw [List.mem_append, not_or] at hp
    rw [h'.pages p hp.2, h.pages p hp.1]
  pages_new p hp := by
    rcases List.mem_append.mp hp with hp | hp
    · have hnot : p ∉ new' := fun hmem =>
        h.new_notMem ht.chain.nodup hp (h'.free ▸ List.mem_append_left l'' hmem)
      rw [h'.pages p hnot, h.pages_new p hp]
    · have hnot : p ∉ new := fun hmem =>
        h.new_notMem ht.chain.nodup hmem (h'.free ▸ List.mem_append_left l'' hp)
      rw [h'.pages_new p hp, h.pages p hnot]
  table_other d' hd' hne := (h'.table_other d' hd' hne).trans (h.table_other d' hd' hne)
  entry_other d' hd' hne := (h'.entry_other d' hd' hne).trans (h.entry_other d' hd' hne)
  table_mono i t hi := h'.table_mono i t (h.table_mono i t hi)
  table_new i t hi := by
    rcases h'.table_new i t hi with hi' | ⟨hJ, hnew⟩
    · rcases h.table_new i t hi' with hi'' | ⟨hI, hnew⟩
      · exact Or.inl hi''
      · exact Or.inr ⟨Finset.mem_union_left J hI, List.mem_append_left new' hnew⟩
    · exact Or.inr ⟨Finset.mem_union_right I hJ, List.mem_append_right new hnew⟩
  new_table t hmem := by
    rcases List.mem_append.mp hmem with hmem | hmem
    · obtain ⟨i, hi⟩ := h.new_table t hmem
      exact ⟨i, h'.table_mono i t hi⟩
    · exact h'.new_table t hmem
  covered i hi := by
    rcases Finset.mem_union.mp hi with hi | hi
    · obtain ⟨t, hti⟩ := h.covered i hi
      exact ⟨t, h'.table_mono i t hti⟩
    · exact h'.covered i hi
  entry := by rw [h'.entry, h.entry]; rfl
  ram p hpd hnew htable := by
    rw [List.mem_append, not_or] at hnew
    rw [h'.ram p hpd hnew.2 fun i hi => ?_, h.ram p hpd hnew.1 htable]
    rcases h.table_new i p hi with hold | ⟨-, hmem⟩
    · exact htable i hold
    · exact hnew.1 hmem
  self hkern := (h'.self hkern).trans (h.self hkern)
  mmio := h'.mmio.trans h.mmio

/-- More entries can be named, if they have a table in the end. -/
theorem widen (h : Edits c dirs d I f m l m' l' new) (hIJ : I ⊆ J)
    (hJ : ∀ i ∈ J, ∃ t, tableOf c m' d i = some t) : Edits c dirs d J f m l m' l' new :=
  { h with
    table_new := fun i t hi => (h.table_new i t hi).imp_right fun hnew => ⟨hIJ hnew.1, hnew.2⟩
    covered := hJ }

theorem grow {i : Idx} {t : Nat} (h : Trees c dirs m (t :: l)) (hd : d ∈ dirs)
    (hnone : tableOf c m d i = none) (hself : ¬ SelfMap c d i) :
    Edits c dirs d {i} id m (t :: l) (m.grow d i t) l [t] where
  trees := h.grow hd hself
  free := rfl
  num hlen hlt := by
    simp only [Mem.grow, Mem.store, incref, Mem.modPage, Mem.take, add32,
      List.length_singleton] at hlen ⊢
    omega
  pages p hp := by
    rw [Mem.grow_pages, if_neg (by simpa using hp)]
  pages_new p hp := by
    rw [Mem.grow_pages, if_pos (by simpa using hp)]
  table_other d' hd' hne := tableOf_grow_other h hd' hne i
  entry_other d' hd' _ := entryOf_grow h hd hnone hself hd'
  table_mono i' t' hi := by
    rw [tableOf_grow_same h hd hself]
    split
    · rename_i heq
      rw [heq, hnone] at hi
      cases hi
    · exact hi
  table_new i' t' hi := by
    rcases tableOf_grow h hd hself hd hi with ⟨-, rfl, rfl⟩ | hold
    · exact Or.inr ⟨Finset.mem_singleton_self _, List.mem_singleton_self _⟩
    · exact Or.inl hold
  new_table t' hmem := by
    obtain rfl := List.mem_singleton.mp hmem
    exact ⟨i, by rw [tableOf_grow_same h hd hself, if_pos rfl]⟩
  covered i' hi := by
    obtain rfl := Finset.mem_singleton.mp hi
    exact ⟨t, by rw [tableOf_grow_same h hd hself, if_pos rfl]⟩
  entry := entryOf_grow h hd hnone hself hd
  ram p hpd hnew _ := Mem.grow_ram_other m i hpd (by simpa using hnew)
  self hkern := by
    have hkt : c.kernPgdir ≠ t := fun heq => h.dir_used _ hkern (heq ▸ List.mem_cons_self)
    by_cases hkd : d = c.kernPgdir
    · subst hkd
      rw [Mem.grow_ram_dir m i hkt, Function.update_of_ne fun hi => hself ⟨rfl, hi.symm⟩]
    · rw [Mem.grow_ram_other m i (Ne.symm hkd) hkt]
  mmio := rfl

theorem store {s : Slot} {t : Nat} (h : Trees c dirs m l) (hd : d ∈ dirs)
    (htable : tableOf c m d s.1 = some t) (w : Nat) :
    Edits c dirs d ∅ (fun e => Function.update e s w) m l (m.store ⟨t, s.2⟩ w) l [] where
  trees := h.store hd htable w
  free := rfl
  num _ _ := rfl
  pages _ _ := rfl
  pages_new := nofun
  table_other d' hd' _ := tableOf_store h hd htable w hd'
  entry_other d' hd' hne := entryOf_store_other h hd htable w hd' hne
  table_mono i t' hi := by rw [tableOf_store h hd htable w hd, hi]
  table_new i t' hi := Or.inl (by rw [tableOf_store h hd htable w hd] at hi; exact hi)
  new_table := nofun
  covered := nofun
  entry := entryOf_store_same h hd htable w
  ram p _ _ hp := Mem.store_ram_other m _ w fun heq => hp s.1 (heq ▸ htable)
  self hkern := by
    have hkt : c.kernPgdir ≠ t := fun heq => h.table_dir d hd s.1 t htable (heq ▸ hkern)
    rw [Mem.store_ram_other m ⟨t, s.2⟩ w hkt]
  mmio := rfl

end Edits

/-! ## `pgdir_walk` -/

section Walk

variable {c : Config} {dirs : Finset Nat} {m : Mem} {l : List Nat} {d va t : Nat}

theorem pgdirWalk_table (htable : tableOf c m d (pdx va) = some t) (hlt : t < c.npages)
    (create : Bool) : pgdirWalk c d va create m = .ok (some ⟨t, ptx va⟩, m) := by
  obtain ⟨-, hpresent, rfl⟩ := tableOf_eq_some.mp htable
  have hkaddr : kaddr c (pteAddr (m.ram d (pdx va))) = .ok (ptePage (m.ram d (pdx va))) := by
    rw [kaddr, if_neg (by rw [← ptePage]; omega)]
    rfl
  simp only [pgdirWalk, Mem.load, hpresent, if_true, hkaddr, ok_bind]

section Absent

variable (hself : ¬ SelfMap c d (pdx va)) (hnone : tableOf c m d (pdx va) = none)

include hself hnone

theorem pgdirWalk_absent : pgdirWalk c d va false m = .ok (none, m) := by
  rw [tableOf_eq_none hself] at hnone
  simp [pgdirWalk, Mem.load, hnone]

theorem pgdirWalk_full (hfree : m.pageFreeList = none) :
    pgdirWalk c d va true m = .ok (none, m) := by
  rw [tableOf_eq_none hself] at hnone
  simp [pgdirWalk, Mem.load, hnone, pageAlloc_none hfree]

theorem pgdirWalk_grow (hfree : m.pageFreeList = some t) (hlt : t < c.npages) :
    pgdirWalk c d va true m = .ok (some ⟨t, ptx va⟩, m.grow d (pdx va) t) := by
  rw [tableOf_eq_none hself] at hnone
  simp [pgdirWalk, Mem.load, hnone, pageAlloc_some hfree hlt, page2kva_of_lt hlt, Mem.grow, pdeWord]

end Absent

/-- **`pgdir_walk(pgdir, va, 1)`** fails only for want of memory; otherwise it leads to the
entry of `va` in a table that is there already or is new. -/
theorem pgdirWalk_edits (h : Trees c dirs m l) (hd : d ∈ dirs) (hself : ¬ SelfMap c d (pdx va)) :
    (tableOf c m d (pdx va) = none ∧ l = [] ∧ pgdirWalk c d va true m = .ok (none, m)) ∨
    ∃ t m' l' new, pgdirWalk c d va true m = .ok (some ⟨t, ptx va⟩, m') ∧
      tableOf c m' d (pdx va) = some t ∧ Edits c dirs d {pdx va} id m l m' l' new := by
  cases htable : tableOf c m d (pdx va) with
  | some t =>
      refine Or.inr ⟨t, m, l, [], pgdirWalk_table htable (h.table_lt d hd _ t htable) true, htable,
        (Edits.refl h).widen (Finset.empty_subset _) fun i hi => ⟨t, ?_⟩⟩
      rw [Finset.mem_singleton.mp hi, htable]
  | none =>
      cases l with
      | nil =>
          exact Or.inl ⟨rfl, rfl, pgdirWalk_full hself htable h.chain.head_eq⟩
      | cons t l =>
          have hedits := Edits.grow h hd htable hself
          refine Or.inr ⟨t, _, l, [t], pgdirWalk_grow hself htable h.chain.head_eq
            (h.free_lt t List.mem_cons_self), ?_, hedits⟩
          rw [tableOf_grow_same h hd hself, if_pos rfl]

end Walk

/-! ## `boot_map_region` -/

/-- The words `boot_map_region` stores, with their slots, in `n` turns. -/
def regionWords (perm : Nat) : Nat → Nat → Nat → List (Slot × Nat)
  | 0, _, _ => []
  | n + 1, va, pa =>
      (slotOf va, pteWord pa perm) :: regionWords perm n (add32 va pgSize) (add32 pa pgSize)

/-- Words stored one after the other. -/
def overlay (ws : List (Slot × Nat)) (e : Slot → Nat) : Slot → Nat :=
  ws.foldl (fun e w => Function.update e w.1 w.2) e

/-- The directory entries under which words are stored. -/
def indices (ws : List (Slot × Nat)) : Finset Idx := (ws.map fun w => w.1.1).toFinset

theorem mem_indices {ws : List (Slot × Nat)} {i : Idx} : i ∈ indices ws ↔ ∃ w ∈ ws, w.1.1 = i := by
  simp [indices]

theorem indices_cons (w : Slot × Nat) (ws : List (Slot × Nat)) :
    indices (w :: ws) = {w.1.1} ∪ indices ws := by
  ext i
  simp [indices]

theorem indices_append (ws ws' : List (Slot × Nat)) :
    indices (ws ++ ws') = indices ws ∪ indices ws' := by
  ext i
  simp [indices]

theorem overlay_append (ws ws' : List (Slot × Nat)) :
    overlay (ws ++ ws') = overlay ws' ∘ overlay ws := by
  funext e
  exact List.foldl_append

/-- The entries among `I` that have no table yet. -/
def missing (c : Config) (m : Mem) (d : Nat) (I : Finset Idx) : Finset Idx :=
  I.filter fun i => tableOf c m d i = none

/-- The entries that have got a table. -/
def gained (c : Config) (m m' : Mem) (d : Nat) : Finset Idx :=
  Finset.univ.filter fun i => tableOf c m d i = none ∧ tableOf c m' d i ≠ none

section Count

variable {c : Config} {dirs : Finset Nat} {d : Nat} {I J : Finset Idx}
  {f : (Slot → Nat) → Slot → Nat} {m m' : Mem} {l l' new : List Nat}

section Gained

variable (ht : Trees c dirs m l) (hd : d ∈ dirs) (h : Edits c dirs d I f m l m' l' new)

include ht hd h

/-- One page was taken for each. -/
theorem Edits.card_gained : (gained c m m' d).card = new.length := by
  have hnodup : new.Nodup := by
    have hl := ht.chain.nodup
    rw [h.free] at hl
    exact (List.nodup_append.mp hl).1
  rw [← List.toFinset_card_of_nodup hnodup]
  refine Finset.card_bij (fun i _ => (tableOf c m' d i).getD 0) ?_ ?_ ?_
  · intro i hi
    obtain ⟨-, hnone, hsome⟩ := Finset.mem_filter.mp hi
    obtain ⟨t, hti⟩ := Option.ne_none_iff_exists'.mp hsome
    rcases h.table_new i t hti with hold | ⟨-, hnew⟩
    · rw [hnone] at hold
      cases hold
    · simpa [hti] using hnew
  · intro i hi j hj hij
    obtain ⟨t, hti⟩ := Option.ne_none_iff_exists'.mp (Finset.mem_filter.mp hi).2.2
    obtain ⟨u, huj⟩ := Option.ne_none_iff_exists'.mp (Finset.mem_filter.mp hj).2.2
    simp only [hti, huj, Option.getD_some] at hij
    subst hij
    exact (h.trees.table_inj d hd d hd i j t hti huj).2
  · intro t hnew
    rw [List.mem_toFinset] at hnew
    obtain ⟨i, hti⟩ := h.new_table t hnew
    refine ⟨i, Finset.mem_filter.mpr ⟨Finset.mem_univ i, ?_, by simp [hti]⟩, by simp [hti]⟩
    -- an old table would not have been on the free list
    cases hold : tableOf c m d i with
    | none => rfl
    | some t' =>
        have hsame := (h.table_mono i t' hold).symm.trans hti
        cases hsame
        exact absurd (h.free ▸ List.mem_append_left l' hnew) (ht.table_used d hd i t hold)

theorem Edits.card_missing (hIJ : I ⊆ J) :
    (missing c m d J).card = (missing c m' d J).card + new.length := by
  have hsplit : missing c m d J = missing c m' d J ∪ gained c m m' d := by
    ext i
    simp only [missing, gained, Finset.mem_union, Finset.mem_filter, Finset.mem_univ, true_and]
    constructor
    · rintro ⟨hi, hnone⟩
      by_cases hafter : tableOf c m' d i = none
      · exact Or.inl ⟨hi, hafter⟩
      · exact Or.inr ⟨hnone, hafter⟩
    · rintro (⟨hi, hafter⟩ | ⟨hnone, hafter⟩)
      · refine ⟨hi, ?_⟩
        cases hold : tableOf c m d i with
        | none => rfl
        | some t =>
            rw [h.table_mono i t hold] at hafter
            cases hafter
      · obtain ⟨t, hti⟩ := Option.ne_none_iff_exists'.mp hafter
        rcases h.table_new i t hti with hold | ⟨hI, -⟩
        · rw [hnone] at hold
          cases hold
        · exact ⟨hIJ hI, hnone⟩
  have hdisj : Disjoint (missing c m' d J) (gained c m m' d) := by
    refine Finset.disjoint_left.mpr fun i hi hg => ?_
    exact (Finset.mem_filter.mp hg).2.2 (Finset.mem_filter.mp hi).2
  rw [hsplit, Finset.card_union_of_disjoint hdisj, h.card_gained ht hd]

/-- Behind them nothing of `I` is missing any more, so this is how many pages were taken. -/
theorem Edits.length_new : new.length = (missing c m d I).card := by
  have hcount := h.card_missing ht hd (Finset.Subset.refl I)
  have hnone : missing c m' d I = ∅ := by
    refine Finset.filter_eq_empty_iff.mpr fun i hi => ?_
    obtain ⟨t, hti⟩ := h.covered i hi
    rw [hti]
    exact Option.some_ne_none t
  rw [hcount, hnone, Finset.card_empty, Nat.zero_add]

end Gained

end Count

section BootMap

variable {c : Config} {dirs : Finset Nat} {m m' : Mem} {l : List Nat} {d perm : Nat}

theorem bootMapLoop_edits {n va pa : Nat} (h : Trees c dirs m l) (hd : d ∈ dirs)
    (hself : ∀ i ∈ indices (regionWords perm n va pa), ¬ SelfMap c d i)
    (hrun : bootMapLoop c d perm n va pa m = .ok m') :
    ∃ l' new, Edits c dirs d (indices (regionWords perm n va pa))
      (overlay (regionWords perm n va pa)) m l m' l' new := by
  induction n generalizing va pa m l with
  | zero =>
      cases hrun
      exact ⟨l, [], Edits.refl h⟩
  | succ n ih =>
      rw [regionWords, indices_cons] at hself
      have hself₀ := hself (pdx va) (Finset.mem_union_left _ (Finset.mem_singleton_self _))
      rw [bootMapLoop] at hrun
      rcases pgdirWalk_edits h hd hself₀ with ⟨-, -, hwalk⟩ | ⟨t, m₁, l₁, new₁, hwalk, htable, hedits⟩
      · rw [hwalk] at hrun
        cases hrun
      · rw [hwalk, ok_bind] at hrun
        have hstore := Edits.store (s := slotOf va) hedits.trees hd htable (pteWord pa perm)
        obtain ⟨l', new, hrest⟩ := ih hstore.trees
          (fun i hi => hself i (Finset.mem_union_right _ hi)) hrun
        refine ⟨l', new₁ ++ ([] ++ new), ?_⟩
        have hall := hedits.trans h (hstore.trans hedits.trees hrest)
        rw [Finset.empty_union] at hall
        rw [regionWords, indices_cons]
        exact hall

/-- With a page for every missing table, `boot_map_region` runs to its end. -/
theorem bootMapLoop_total {n va pa : Nat} (h : Trees c dirs m l) (hd : d ∈ dirs)
    (hself : ∀ i ∈ indices (regionWords perm n va pa), ¬ SelfMap c d i)
    (hroom : (missing c m d (indices (regionWords perm n va pa))).card ≤ l.length) :
    ∃ m', bootMapLoop c d perm n va pa m = .ok m' := by
  induction n generalizing va pa m l with
  | zero => exact ⟨m, rfl⟩
  | succ n ih =>
      rw [regionWords, indices_cons] at hself hroom
      have hself₀ := hself (pdx va) (Finset.mem_union_left _ (Finset.mem_singleton_self _))
      rcases pgdirWalk_edits h hd hself₀ with ⟨hnone, rfl, -⟩ | ⟨t, m₁, l₁, new₁, hwalk, htable, hedits⟩
      · rw [List.length_nil, Nat.le_zero, Finset.card_eq_zero] at hroom
        have hmem : pdx va ∈ missing c m d ({pdx va} ∪ indices
            (regionWords perm n (add32 va pgSize) (add32 pa pgSize))) :=
          Finset.mem_filter.mpr ⟨Finset.mem_union_left _ (Finset.mem_singleton_self _), hnone⟩
        exact absurd (hroom ▸ hmem) (Finset.notMem_empty _)
      · have hstore := Edits.store (s := slotOf va) hedits.trees hd htable (pteWord pa perm)
        rw [bootMapLoop, hwalk, ok_bind]
        refine ih hstore.trees (fun i hi => hself i (Finset.mem_union_right _ hi)) ?_
        change (missing c (m₁.store ⟨t, (slotOf va).2⟩ (pteWord pa perm)) d _).card ≤ l₁.length
        generalize indices (regionWords perm n (add32 va pgSize) (add32 pa pgSize)) = J at hroom ⊢
        have hcount := hedits.card_missing h hd
          (Finset.subset_union_left : {pdx va} ⊆ {pdx va} ∪ J)
        have hsame := hstore.card_missing hedits.trees hd (Finset.empty_subset J)
        have hmono : (missing c m₁ d J).card ≤ (missing c m₁ d ({pdx va} ∪ J)).card :=
          Finset.card_le_card (Finset.filter_subset_filter _ Finset.subset_union_right)
        have hlen := congrArg List.length hedits.free
        rw [List.length_append] at hlen
        rw [List.length_nil] at hsame
        change (missing c m d ({pdx va} ∪ J)).card ≤ l.length at hroom
        omega

/-- The words of a list of regions. -/
def Region.words (r : Region) : List (Slot × Nat) :=
  regionWords r.perm (r.size / pgSize) r.va r.pa

theorem mapRegions_edits {rs : List Region} (h : Trees c dirs m l) (hd : d ∈ dirs)
    (hself : ∀ i ∈ indices (rs.flatMap Region.words), ¬ SelfMap c d i)
    (hrun : mapRegions c d rs m = .ok m') :
    ∃ l' new, Edits c dirs d (indices (rs.flatMap Region.words))
      (overlay (rs.flatMap Region.words)) m l m' l' new := by
  induction rs generalizing m l with
  | nil =>
      cases hrun
      exact ⟨l, [], Edits.refl h⟩
  | cons r rs ih =>
      rw [List.flatMap_cons, indices_append] at hself
      rw [mapRegions, List.foldlM_cons, bind_ok_iff] at hrun
      obtain ⟨m₁, hfirst, hrest⟩ := hrun
      obtain ⟨l₁, new₁, h₁⟩ := bootMapLoop_edits h hd
        (fun i hi => hself i (Finset.mem_union_left _ hi)) hfirst
      obtain ⟨l₂, new₂, h₂⟩ := ih h₁.trees (fun i hi => hself i (Finset.mem_union_right _ hi)) hrest
      refine ⟨l₂, new₁ ++ new₂, ?_⟩
      rw [List.flatMap_cons, indices_append, overlay_append]
      exact h₁.trans h h₂

theorem mapRegions_total {rs : List Region} (h : Trees c dirs m l) (hd : d ∈ dirs)
    (hself : ∀ i ∈ indices (rs.flatMap Region.words), ¬ SelfMap c d i)
    (hroom : (missing c m d (indices (rs.flatMap Region.words))).card ≤ l.length) :
    ∃ m', mapRegions c d rs m = .ok m' := by
  induction rs generalizing m l with
  | nil => exact ⟨m, rfl⟩
  | cons r rs ih =>
      rw [List.flatMap_cons, indices_append] at hself hroom
      have hself₁ := fun i hi => hself i (Finset.mem_union_left _ hi)
      have hroom₁ : (missing c m d (indices r.words)).card ≤ l.length :=
        (Finset.card_le_card (Finset.filter_subset_filter _ Finset.subset_union_left)).trans hroom
      obtain ⟨m₁, hfirst⟩ := bootMapLoop_total h hd hself₁ hroom₁
      obtain ⟨l₁, new₁, h₁⟩ := bootMapLoop_edits h hd hself₁ hfirst
      have hroom₂ : (missing c m₁ d (indices (rs.flatMap Region.words))).card ≤ l₁.length := by
        generalize indices (rs.flatMap Region.words) = J at hroom ⊢
        have hcount := h₁.card_missing h hd (Finset.subset_union_left : _ ⊆ indices r.words ∪ J)
        have hmono : (missing c m₁ d J).card ≤ (missing c m₁ d (indices r.words ∪ J)).card :=
          Finset.card_le_card (Finset.filter_subset_filter _ Finset.subset_union_right)
        have hlen := congrArg List.length h₁.free
        rw [List.length_append] at hlen
        omega
      obtain ⟨m₂, hrest⟩ := ih h₁.trees (fun i hi => hself i (Finset.mem_union_right _ hi)) hroom₂
      refine ⟨m₂, ?_⟩
      rw [mapRegions, List.foldlM_cons, bootMapRegion, hfirst, ok_bind]
      exact hrest

end BootMap

/-! ## The first directory -/

theorem pageInit_ram (c : Config) (ram : Nat → Idx → Nat) :
    (pageInit c (Mem.cleared c ram)).ram = (Mem.cleared c ram).ram :=
  (pageInit_initList c ram).ram

/-- `kern_pgdir` starts without tables: its one entry leads back to it. -/
theorem tableOf_pageInit (c : Config) (ram : Nat → Idx → Nat) (i : Idx) :
    tableOf c (pageInit c (Mem.cleared c ram)) c.kernPgdir i = none := by
  by_cases hi : i = pdx uvpt
  · rw [tableOf, if_pos ⟨rfl, hi⟩]
  · rw [tableOf_eq_none (fun hself => hi hself.2), pageInit_ram]
    simp [Mem.cleared, hi]

theorem trees_pageInit (c : Config) (ram : Nat → Idx → Nat) :
    Trees c {c.kernPgdir} (pageInit c (Mem.cleared c ram)) (initList c) := by
  have hnone : ∀ d ∈ ({c.kernPgdir} : Finset Nat), ∀ i t,
      tableOf c (pageInit c (Mem.cleared c ram)) d i ≠ some t := by
    intro d hd i t
    rw [Finset.mem_singleton.mp hd, tableOf_pageInit]
    exact nofun
  have hfree := freeList_pageInit c ram
  refine ⟨hfree.chain, fun p hp => (hfree.alloc p hp).lt, fun d hd hmem => ?_, ?_, ?_, ?_, ?_⟩
  · rw [Finset.mem_singleton.mp hd] at hmem
    exact c.not_allocatable_kernPgdir (hfree.alloc _ hmem)
  · exact fun d hd i t ht => absurd ht (hnone d hd i t)
  · exact fun d hd i t ht => absurd ht (hnone d hd i t)
  · exact fun d hd i t ht => absurd ht (hnone d hd i t)
  · exact fun d hd _ _ i _ t ht => absurd ht (hnone d hd i t)

end Nctuos
