import Nctuos.TaskImage

/-!
# Taking a task's memory apart

`task_free` goes the way of `task_create` backwards: the pages of the stack, the page
tables, the directory.  It relies on counts that were set far away: the pages of the stack
and the tables have `pp_ref` one, so that `page_decref` gives them back, and the directory
has zero, which `page_free` demands.

Between `ptable_remove` and `pgdir_remove` the directory is still full of entries, which
name pages on the free list.  So it is not counted as a directory from the start of
`ptable_remove` on (`MemInv.dropDir`), and its entries are debts that the loop pays one by
one (`MemInv.release`).
-/

namespace Nctuos

open Lib

/-! ## `ptable_remove` and `pgdir_remove` -/

namespace MemInv

variable {c : Config} {counted : Nat → Slot → Prop} {dirs : Finset Nat} {extra : Nat → Nat}
  {m m' : Mem} {l l' : List Nat} {d p : Nat}

/-- The last reference to a page is one that no entry accounts for: it is given back. -/
theorem release (h : MemInv c counted dirs extra m l) (hp : c.Allocatable p) (hpl : p ∉ l)
    (hdir : p ∉ dirs) (href : (m.pages p).ppRef = 1) (hextra : extra p = 1) :
    pageDecref p m = .ok ((m.drop p).give p) ∧
      MemInv c counted dirs (Function.update extra p 0) ((m.drop p).give p) (p :: l) := by
  have hlink := h.free.used p hp hpl
  have hsame := Mem.drop_ref_same (m := m) (p := p) (by omega) (by omega)
  refine ⟨pageDecref_last href hlink, ?_⟩
  have hother : ∀ q ∈ l, q ≠ p := fun q hq heq => hpl (heq ▸ hq)
  have hfree : FreeList c (m.drop p) l := by
    refine ⟨?_, h.free.num, h.free.alloc, fun q hq => ?_, fun q hq hql => ?_⟩
    · rw [Mem.drop_link]
      exact h.free.chain
    · rw [Mem.drop_ref_other (hother q hq)]
      exact h.free.ref q hq
    · rw [Mem.drop_link]
      exact h.free.used q hq hql
  have hdrop : MemInv c counted dirs (Function.update extra p 0) (m.drop p) l := by
    refine ⟨hfree, h.trees.of_tables (Mem.drop_link m p) rfl fun _ _ => rfl, h.dir, h.self, h.table,
      h.data, fun q hq => ?_, fun q => ?_, fun q hq hql => ?_⟩
    · rw [Function.update_of_ne (hother q hq)]
      exact h.extra_free q hq
    · by_cases hqp : q = p
      · subst hqp
        omega
      · rw [Mem.drop_ref_other hqp]
        exact h.ref_lt q
    · have hrefs := h.refs q hq hql
      change _ = (pteRefs c counted dirs m q).ncard + (pdeRefs c dirs m q).ncard + _
      by_cases hqp : q = p
      · subst hqp
        rw [Function.update_self]
        omega
      · rw [Mem.drop_ref_other hqp, Function.update_of_ne hqp]
        exact hrefs
  exact hdrop.give hp hpl hdir (by omega)

/-- **`ptable_remove`** on a directory that is not counted any more. -/
theorem ptableRemove_loop {is : List Idx} (hnodup : is.Nodup)
    (h : MemInv c counted dirs (owing c m d is) m l) (hkern : d ≠ c.kernPgdir)
    (hinj : ∀ i i' t, tableOf c m d i = some t → tableOf c m d i' = some t → i = i')
    (htable : ∀ i ∈ is, ∀ t, tableOf c m d i = some t →
      c.Allocatable t ∧ t ∉ l ∧ t ∉ dirs ∧ (m.pages t).ppRef = 1) :
    ∃ m' l', is.foldlM (ptableRemoveAt c d) m = .ok m' ∧
      MemInv c counted dirs (fun _ => 0) m' l' ∧ m'.ram = m.ram ∧
      (∀ q, q ∈ l' ↔ q ∈ l ∨ ∃ i ∈ is, tableOf c m d i = some q) ∧
      ∀ q, (∀ i ∈ is, tableOf c m d i ≠ some q) → m'.pages q = m.pages q := by
  induction is generalizing m l with
  | nil =>
      have hzero : owing c m d [] = fun _ => 0 := by
        funext q
        simp [owing]
      rw [hzero] at h
      exact ⟨m, l, rfl, h, rfl, fun q => by simp, fun _ _ => rfl⟩
  | cons i is ih =>
      rw [List.nodup_cons] at hnodup
      have hself : ¬ SelfMap c d i := fun hself => hkern hself.1
      cases hi : tableOf c m d i with
      | none =>
          have hpresent := (tableOf_eq_none hself).mp hi
          have hrest : owing c m d (i :: is) = owing c m d is := by
            funext q
            simp [owing, hi]
          rw [hrest] at h
          obtain ⟨m', l', hok, hinv, hram, hlist, hpages⟩ := ih hnodup.2 h hinj fun j hj =>
            htable j (List.mem_cons_of_mem i hj)
          refine ⟨m', l', ?_, hinv, hram, fun q => ?_, fun q hq => ?_⟩
          · rw [List.foldlM_cons, ptableRemoveAt, hpresent]
            exact hok
          · rw [hlist q]
            simp [hi]
          · exact hpages q fun j hj => hq j (List.mem_cons_of_mem i hj)
      | some t =>
          obtain ⟨halloc, htl, htd, href⟩ := htable i List.mem_cons_self t hi
          have howing : owing c m d (i :: is) t = 1 := if_pos ⟨i, List.mem_cons_self, hi⟩
          obtain ⟨hdecref, hinv₁⟩ := h.release halloc htl htd href howing
          have hturn : ptableRemoveAt c d m i = .ok ((m.drop t).give t) := by
            obtain ⟨-, hpresent, hpage⟩ := tableOf_eq_some.mp hi
            rw [ptableRemoveAt, if_pos hpresent, pteAddr_eq_page2pa, hpage,
              pa2page_page2pa halloc.lt, ok_bind, hdecref]
          -- what is owed from here on is what the rest of the entries name
          have hsame : tableOf c ((m.drop t).give t) d = tableOf c m d :=
            congrFun (tableOf_of_ram rfl) d
          have hother : ∀ j ∈ is, tableOf c m d j ≠ some t := by
            intro j hj hjt
            exact hnodup.1 (hinj i j t hi hjt ▸ hj)
          have hrest : Function.update (owing c m d (i :: is)) t 0 =
              owing c ((m.drop t).give t) d is := by
            funext q
            by_cases hqt : q = t
            · subst hqt
              rw [Function.update_self, owing, hsame, if_neg]
              rintro ⟨j, hj, hjq⟩
              exact hother j hj hjq
            · have hne : t ≠ q := fun heq => hqt heq.symm
              rw [Function.update_of_ne hqt, owing, owing, hsame]
              simp [hi, hne]
          have hpages₁ : ∀ q, q ≠ t → ((m.drop t).give t).pages q = m.pages q := by
            intro q hq
            simp [Mem.give, Mem.drop, Mem.modPage, hq]
          rw [hrest] at hinv₁
          obtain ⟨m', l', hok, hinv, hram, hlist, hpages⟩ := ih hnodup.2 hinv₁
            (by rw [hsame]; exact hinj) fun j hj u hu => by
              rw [hsame] at hu
              have hut : u ≠ t := fun heq => hother j hj (heq ▸ hu)
              obtain ⟨ha, hul, hud, huref⟩ := htable j (List.mem_cons_of_mem i hj) u hu
              refine ⟨ha, ?_, hud, ?_⟩
              · rw [List.mem_cons, not_or]
                exact ⟨hut, hul⟩
              · rw [hpages₁ u hut]
                exact huref
          rw [hsame] at hlist hpages
          refine ⟨m', l', ?_, hinv, hram, fun q => ?_, fun q hq => ?_⟩
          · rw [List.foldlM_cons, hturn, ok_bind]
            exact hok
          · rw [hlist q]
            simp only [List.mem_cons, exists_eq_or_imp, hi, Option.some.injEq, eq_comm (a := t)]
            rw [or_assoc, or_left_comm]
          · have hqt : q ≠ t := fun heq => hq i List.mem_cons_self (heq ▸ hi)
            rw [hpages q fun j hj => hq j (List.mem_cons_of_mem i hj), hpages₁ q hqt]

end MemInv

/-! ## `task_free` -/

theorem taskFree_memVm (c : Config) (local₀ : Option PtePtr) (d : Nat) (m : Mem) :
    taskFree (memVm c local₀) (some d) m =
      (stackVas.foldlM (fun m va => pageRemove c local₀ d va m) m >>= fun m =>
        ptableRemove c d m >>= pgdirRemove c d) := by
  simp only [taskFree, memVm]

namespace TaskInv

variable {c : Config} {dirs : Finset Nat} {m m' : Mem} {l l' : List Nat} {d va : Nat}
  {ws : List (Slot × Nat)} {T : Finset Idx} {S : Finset Slot} {local₀ : Option PtePtr}

/-- One page of the stack is unmapped, which gives it back. -/
theorem pageRemove (h : TaskInv c dirs m l) (hd : d ∈ dirs) (himg : Image c m d ws T S)
    (hva : va ∈ stackVas) (hS : slotOf va ∈ S) (hlocal : local₀.isSome) :
    ∃ m' q, pageRemove c local₀ d va m = .ok m' ∧ TaskInv c dirs m' (q :: l) ∧
      Image c m' d ws T (S.erase (slotOf va)) ∧ (∀ d' ∈ dirs, d' ≠ d → SameDir c m m' d') ∧
      pool c m' d (q :: l) = pool c m d l := by
  have hs := slotOf_mem hva
  obtain ⟨t, q, htable, -, hpage, -, -, -, -, -, href⟩ := h.stack_target hd himg hva hS
  obtain ⟨m', hok, hinv, hram, -⟩ := h.inv.pageRemove hd hs hlocal htable hpage
  rw [if_pos href] at hinv
  obtain ⟨htables, hhere, hother⟩ := (Edits.refl h.inv.trees).read_store hd htable hram
  rw [pageAt_eq_targetOf] at hpage
  -- an entry that is left is one that was there
  have hleft : ∀ s p, targetOf (entryOf c m' d s) = some p →
      s ≠ slotOf va ∧ targetOf (entryOf c m d s) = some p := by
    intro s p hp
    rw [hhere] at hp
    by_cases hss : s = slotOf va
    · rw [hss, Function.update_self, targetOf_zero] at hp
      cases hp
    · rw [Function.update_of_ne hss] at hp
      exact ⟨hss, hp⟩
  refine ⟨m', q, hok, ⟨hinv, fun p => (h.sole p).anti ?_⟩, ⟨fun i => ?_, fun s hns => ?_,
    fun s hsS => ?_, fun s hst hsS => ?_⟩, fun d' hd' hne => ⟨htables d' hd', hother d' hd' hne⟩, ?_⟩
  · rintro ⟨d', s⟩ ⟨hd', hslot, hp⟩
    by_cases hdd : d' = d
    · subst hdd
      exact ⟨hd', hslot, (hleft s p hp).2⟩
    · rw [hother d' hd' hdd] at hp
      exact ⟨hd', hslot, hp⟩
  · rw [htables d hd]
    exact himg.table i
  · have hne : s ≠ slotOf va := fun heq => hns (heq ▸ hs)
    rw [hhere, Function.update_of_ne hne]
    exact himg.entry s hns
  · obtain ⟨hne, hsS⟩ := Finset.mem_erase.mp hsS
    rw [hhere, Function.update_of_ne hne]
    exact himg.stack s hsS
  · rw [hhere]
    by_cases hss : s = slotOf va
    · rw [hss, Function.update_self]
    · rw [Function.update_of_ne hss]
      exact himg.clear s hst fun hmem => hsS (Finset.mem_erase.mpr ⟨hss, hmem⟩)
  · ext p
    rw [mem_pool, mem_pool, List.mem_cons, owned, owned, htables d hd]
    constructor
    · rintro ((rfl | hp) | rfl | hp | ⟨s, hst, hp⟩)
      · exact Or.inr (Or.inr (Or.inr ⟨slotOf va, hs, hpage⟩))
      · exact Or.inl hp
      · exact Or.inr (Or.inl rfl)
      · exact Or.inr (Or.inr (Or.inl hp))
      · exact Or.inr (Or.inr (Or.inr ⟨s, hst, (hleft s p hp).2⟩))
    · rintro (hp | rfl | hp | ⟨s, hst, hp⟩)
      · exact Or.inl (Or.inr hp)
      · exact Or.inr (Or.inl rfl)
      · exact Or.inr (Or.inr (Or.inl hp))
      · by_cases hss : s = slotOf va
        · rw [hss, hpage] at hp
          exact Or.inl (Or.inl (Option.some.inj hp).symm)
        · refine Or.inr (Or.inr (Or.inr ⟨s, hst, ?_⟩))
          rw [hhere, Function.update_of_ne hss]
          exact hp

theorem removeStack {vas : List Nat} (h : TaskInv c dirs m l) (hd : d ∈ dirs)
    (himg : Image c m d ws T S) (hvas : ∀ va ∈ vas, va ∈ stackVas) (hnodup : (vas.map slotOf).Nodup)
    (hS : ∀ va ∈ vas, slotOf va ∈ S) (hlocal : local₀.isSome) :
    ∃ m' l', vas.foldlM (fun m va => Nctuos.pageRemove c local₀ d va m) m = .ok m' ∧
      TaskInv c dirs m' l' ∧ Image c m' d ws T (S \ (vas.map slotOf).toFinset) ∧
      (∀ d' ∈ dirs, d' ≠ d → SameDir c m m' d') ∧ pool c m' d l' = pool c m d l := by
  induction vas generalizing m l S with
  | nil => exact ⟨m, l, rfl, h, by simpa using himg, fun d' _ _ => .refl c m d', rfl⟩
  | cons va vas ih =>
      rw [List.map_cons, List.nodup_cons] at hnodup
      obtain ⟨m₁, q, hok, h₁, himg₁, hframe₁, hpool₁⟩ := h.pageRemove hd himg
        (hvas va List.mem_cons_self) (hS va List.mem_cons_self) hlocal
      obtain ⟨m', l', hrest, h', himg', hframe', hpool'⟩ := ih h₁ himg₁
        (fun va' hva' => hvas va' (List.mem_cons_of_mem va hva')) hnodup.2 fun va' hva' => by
          refine Finset.mem_erase.mpr ⟨fun heq => hnodup.1 ?_, hS va' (List.mem_cons_of_mem va hva')⟩
          exact heq ▸ List.mem_map_of_mem hva'
      have hslots : S.erase (slotOf va) \ (vas.map slotOf).toFinset =
          S \ ((va :: vas).map slotOf).toFinset := by
        ext s
        simp only [List.map_cons, List.toFinset_cons, Finset.mem_sdiff, Finset.mem_erase,
          Finset.mem_insert, not_or]
        rw [and_assoc, and_left_comm]
      rw [hslots] at himg'
      refine ⟨m', l', ?_, h', himg', fun d' hd' hne => (hframe₁ d' hd' hne).trans (hframe' d' hd' hne),
        hpool'.trans hpool₁⟩
      rw [List.foldlM_cons, hok, ok_bind]
      exact hrest

/-- **`ptable_remove` and `pgdir_remove`** on a directory whose stack is unmapped. -/
theorem dismantle (h : TaskInv c dirs m l) (hd : d ∈ dirs) (hkern : d ≠ c.kernPgdir)
    (himg : Image c m d ws T ∅) :
    ∃ m' l', (ptableRemove c d m >>= pgdirRemove c d) = .ok m' ∧
      TaskInv c (dirs.erase d) m' l' ∧ (∀ d' ∈ dirs.erase d, SameDir c m m' d') ∧
      {q | q ∈ l'} = pool c m d l := by
  have hclear : ∀ s, stackSlot d s → targetOf (entryOf c m d s) = none := fun s hs => by
    rw [himg.clear s hs (Finset.notMem_empty s), targetOf_zero]
  have hdrop := h.inv.dropDir hd hclear
  simp only [Nat.zero_add] at hdrop
  have hdl := h.inv.trees.dir_used d hd
  have halloc : c.Allocatable d := (h.inv.dir d hd).resolve_left hkern
  -- a directory is named by nothing
  have href : (m.pages d).ppRef = 0 := by
    have hpte : pteRefs c stackSlot dirs m d = ∅ :=
      Set.eq_empty_iff_forall_notMem.mpr fun x hx =>
        (h.inv.data x.1 hx.1 x.2 d hx.2.1 hx.2.2).2.2.1 hd
    have hpde : pdeRefs c dirs m d = ∅ :=
      Set.eq_empty_iff_forall_notMem.mpr fun x hx => h.inv.trees.table_dir x.1 hx.1 x.2 d hx.2 hd
    rw [h.inv.refs d halloc hdl, hpte, hpde, Set.ncard_empty, Set.ncard_empty]
  have htable : ∀ i ∈ List.finRange 1024, ∀ t, tableOf c m d i = some t →
      c.Allocatable t ∧ t ∉ l ∧ t ∉ dirs.erase d ∧ (m.pages t).ppRef = 1 := by
    intro i _ t ht
    have hta := h.inv.table d hd i t ht
    have htl := h.inv.trees.table_used d hd i t ht
    have htd := h.inv.trees.table_dir d hd i t ht
    have hpte : pteRefs c stackSlot dirs m t = ∅ :=
      Set.eq_empty_iff_forall_notMem.mpr fun x hx =>
        (h.inv.data x.1 hx.1 x.2 t hx.2.1 hx.2.2).2.2.2 d hd i ht
    refine ⟨hta, htl, fun hmem => htd (Finset.mem_of_mem_erase hmem), ?_⟩
    rw [h.inv.refs t hta htl, hpte, MemInv.pdeRefs_of_table h.inv.trees hd ht, Set.ncard_empty,
      Set.ncard_singleton]
  obtain ⟨m₁, l₁, hok, hinv₁, hram, hlist, hpages⟩ := hdrop.ptableRemove_loop (List.nodup_finRange _)
    hkern (fun i i' t ht ht' => (h.inv.trees.table_inj d hd d hd i i' t ht ht').2) htable
  have hnot : ∀ i ∈ List.finRange 1024, tableOf c m d i ≠ some d := fun i _ ht =>
    h.inv.trees.table_dir d hd i d ht hd
  have hdl₁ : d ∉ l₁ := by
    rw [hlist d, not_or]
    refine ⟨hdl, ?_⟩
    rintro ⟨i, hi, ht⟩
    exact hnot i hi ht
  have href₁ : (m₁.pages d).ppRef = 0 := by rw [hpages d hnot, href]
  have hgive : (m₁.give d).ram = m.ram := hram
  have hsame : ∀ d', SameDir c m (m₁.give d) d' := fun d' =>
    ⟨congrFun (tableOf_of_ram hgive) d', congrFun (entryOf_of_ram hgive) d'⟩
  refine ⟨m₁.give d, d :: l₁, ?_, ⟨hinv₁.give halloc hdl₁ (Finset.notMem_erase d dirs) href₁,
    fun q => ?_⟩, fun d' _ => hsame d', ?_⟩
  · rw [ptableRemove, hok, ok_bind, pgdirRemove, pa2page_page2pa halloc.lt, ok_bind]
    exact pageFree_eq href₁ (hinv₁.free.used d halloc hdl₁)
  · refine ((h.sole q).anti ?_)
    rintro ⟨d', s⟩ ⟨hd', hs, hq⟩
    rw [(hsame d').2] at hq
    exact ⟨Finset.mem_of_mem_erase hd', hs, hq⟩
  · ext q
    rw [mem_pool, Set.mem_ofPred_eq, List.mem_cons, hlist q]
    constructor
    · rintro (rfl | hq | ⟨i, -, hi⟩)
      · exact Or.inr (Or.inl rfl)
      · exact Or.inl hq
      · exact Or.inr (Or.inr (Or.inl ⟨i, hi⟩))
    · rintro (hq | rfl | ⟨i, hi⟩ | ⟨s, hs, hq⟩)
      · exact Or.inr (Or.inl hq)
      · exact Or.inl rfl
      · exact Or.inr (Or.inr ⟨i, List.mem_finRange i, hi⟩)
      · rw [hclear s hs] at hq
        cases hq

/-- **`task_free`** of a task with a complete stack: it never panics, and the free list
gains what the task owned. -/
theorem taskFree (h : TaskInv c dirs m l) (hd : d ∈ dirs) (hkern : d ≠ c.kernPgdir)
    (himg : Image c m d ws T stackSlots) (hlocal : local₀.isSome) :
    ∃ m' l', taskFree (memVm c local₀) (some d) m = .ok m' ∧ TaskInv c (dirs.erase d) m' l' ∧
      (∀ d' ∈ dirs.erase d, SameDir c m m' d') ∧ {q | q ∈ l'} = pool c m d l := by
  obtain ⟨m₁, l₁, hstack, h₁, himg₁, hframe₁, hpool₁⟩ := h.removeStack hd himg (fun _ hva => hva)
    stackSlots_nodup (fun _ => slotOf_mem) hlocal
  have hnone : stackSlots \ (stackVas.map slotOf).toFinset = ∅ := Finset.sdiff_self _
  rw [hnone] at himg₁
  obtain ⟨m', l', hrest, h', hsame, hpool⟩ := h₁.dismantle hd hkern himg₁
  refine ⟨m', l', ?_, h', fun d' hd' => ?_, hpool.trans hpool₁⟩
  · rw [taskFree_memVm, hstack, ok_bind, hrest]
  · obtain ⟨hne, hmem⟩ := Finset.mem_erase.mp hd'
    exact (hframe₁ d' hmem hne).trans (hsame d' hd')

/-- Where `task_free` returns, the local of `page_remove` does not hold NULL: the first page of
the stack is mapped. -/
theorem taskFree_local (h : TaskInv c dirs m l) (hd : d ∈ dirs)
    (himg : Image c m d ws T stackSlots)
    (hrun : Nctuos.taskFree (memVm c local₀) (some d) m = .ok m') : local₀.isSome := by
  cases local₀ with
  | some pte => rfl
  | none =>
      have hva : ustacktop - pgSize ∈ stackVas := by decide
      obtain ⟨t, q, htable, hlt, hpage, -, halloc, -⟩ := h.stack_target hd himg hva
        (slotOf_mem hva)
      have hvas : stackVas = (ustacktop - pgSize) :: stackVas.tail := by decide
      rw [taskFree_memVm, hvas, List.foldlM_cons, bind_ok_iff] at hrun
      obtain ⟨m₁, hstack, -⟩ := hrun
      rw [bind_ok_iff] at hstack
      obtain ⟨m₂, hremove, -⟩ := hstack
      exact absurd hremove (pageRemove_null htable hlt hpage halloc.lt)

end TaskInv

end Nctuos
