import Nctuos.DirectMap

/-!
# `kern_pgdir`, up to `lapic_init`

`kern_pgdir` is filled in three stages: the self-test at the end of `check_page`, `mem_init`
with its calls of `boot_map_region`, and `lapic_init`.  `KernDir c m l base e` is the state in
between: `e` is what the entries hold and `base` where `mmio_map_region` goes on.

The self-test leaves no mapping behind, but it moves `base` by three pages
(`KernDir.checkPageMmio`).  What is mapped in the end is `kernWords` (`lapicInit_inv`), the
words of calls with the same addresses as those of `setupkvm`; the entries in use are among
`kernelTables`, and a free page for each of them is enough to get there (`Room`).
-/

namespace Nctuos

open Lib

/-! ## The entries of the kernel -/

instance (i : Nat) : Decidable (KernelIdx i) := by
  unfold KernelIdx LowIdx
  infer_instance

/-- The entries of `kern_pgdir` that get a table. -/
def kernelTables : Finset Idx := Finset.univ.filter fun i => KernelIdx i.val

theorem card_kernelTables : kernelTables.card = 68 := by decide +kernel

section Kern

variable {c : Config} {dirs : Finset Nat} {m m' : Mem} {l : List Nat} {d : Nat} {rs : List Region}

theorem not_selfMap_of_kernelIdx {i : Idx} (h : KernelIdx i.val) : ¬ SelfMap c d i := by
  rintro ⟨-, rfl⟩
  revert h
  decide

/-- Calls of `boot_map_region` within the kernel's entries. -/
def KernelOnly (rs : List Region) : Prop := ∀ w ∈ rs.flatMap Region.words, KernelIdx w.1.1.val

/-- `mem_init` and `setupkvm` map the same ranges, the local APIC apart. -/
theorem kernRegions_addr {w : Slot × Nat} (h : w ∈ (kernRegions c).flatMap Region.words) :
    ∃ a, w.1 = slotOf a ∧ (LowAddr a ∨ kernbase ≤ a ∧ a < 2 ^ 32) := by
  obtain ⟨r, hr, hw⟩ := List.mem_flatMap.mp h
  obtain ⟨r', hr', hva, hsize⟩ : ∃ r' ∈ kvmBase c, r.va = r'.va ∧ r.size = r'.size := by
    simp only [kernRegions, List.mem_append, List.mem_cons, List.not_mem_nil, or_false] at hr
    rcases hr with (rfl | rfl | rfl) | hr
    · exact ⟨⟨upages, _, c.pagesVa - kernbase, pteU⟩, by simp [kvmBase], rfl, rfl⟩
    · exact ⟨⟨kernbase, kernSize, 0, pteW⟩, by simp [kvmBase], rfl, rfl⟩
    · exact ⟨⟨iophysmem, _, iophysmem, pteW⟩, by simp [kvmBase], rfl, rfl⟩
    · exact ⟨r, by simp [kvmBase, hr], rfl, rfl⟩
  obtain ⟨a, hslot, ha⟩ := base_addr hr' hva hsize hw
  exact ⟨a, hslot, ha.imp_right And.left⟩

theorem kernelOnly_kernRegions (c : Config) : KernelOnly (kernRegions c) := by
  intro w hw
  obtain ⟨a, hslot, ha⟩ := kernRegions_addr hw
  rw [hslot]
  exact ha.imp LowAddr.idx fun hhigh => mem_kernbase hhigh.1 hhigh.2

/-- A region in the MMIO window. -/
theorem kernelOnly_mmio {base n : Nat} (pa perm : Nat) (hge : mmiobase ≤ base)
    (hle : base + n ≤ mmiolim) : KernelOnly [⟨base, n, pa, perm⟩] := by
  intro w hmem
  obtain ⟨r, hr, hw⟩ := List.mem_flatMap.mp hmem
  obtain rfl := List.mem_singleton.mp hr
  obtain ⟨a, hga, hla, hslot, -⟩ := Region.mem_words hw
  have hidx : w.1.1.val = a / 4194304 % 1024 := by rw [hslot, slotOf, pdx_val]
  simp only [mmiobase_eq, mmiolim_eq, pgSize] at *
  unfold KernelIdx LowIdx
  omega

theorem KernelOnly.indices_subset (h : KernelOnly rs) :
    indices (rs.flatMap Region.words) ⊆ kernelTables := by
  intro i hi
  obtain ⟨w, hw, rfl⟩ := mem_indices.mp hi
  exact Finset.mem_filter.mpr ⟨Finset.mem_univ _, h w hw⟩

theorem KernelOnly.not_selfMap (h : KernelOnly rs) {i : Idx}
    (hi : i ∈ indices (rs.flatMap Region.words)) : ¬ SelfMap c d i :=
  not_selfMap_of_kernelIdx (Finset.mem_filter.mp (h.indices_subset hi)).2

/-- There are free pages for the tables directory `d` may still want, and `n` more. -/
def Room (c : Config) (m : Mem) (d : Nat) (l : List Nat) (n : Nat) : Prop :=
  (missing c m d kernelTables).card + n ≤ l.length

/-- Where only tables among `kernelTables` are made, there is as much room as before. -/
theorem Edits.room {I : Finset Idx} {f : (Slot → Nat) → Slot → Nat} {l' new : List Nat} {n : Nat}
    (he : Edits c dirs d I f m l m' l' new) (ht : Trees c dirs m l) (hd : d ∈ dirs)
    (hI : I ⊆ kernelTables) (h : Room c m d l n) : Room c m' d l' n := by
  have hcount := he.card_missing ht hd hI
  have hlen := congrArg List.length he.free
  rw [List.length_append] at hlen
  unfold Room at *
  omega

end Kern

/-! ## `kern_pgdir` while it is filled -/

/-- The entries of `kern_pgdir` are `e`, and `mmio_map_region` goes on at `base`. -/
structure KernDir (c : Config) (m : Mem) (l : List Nat) (base : Nat) (e : Slot → Nat) : Prop where
  inv : TaskInv c {c.kernPgdir} m l
  mmio : m.mmioNext = base
  entry : entryOf c m c.kernPgdir = e

/-- The permissions of device memory. -/
def mmioPerm : Nat := pteW ||| ptePcd ||| ptePwt

/-- The words of a region of it. -/
def mmioWords (base n pa : Nat) : List (Slot × Nat) := Region.words ⟨base, n, pa, mmioPerm⟩

/-- What there is to a call of `mmio_map_region` that returns. -/
theorem mmioMapRegion_ok {c : Config} {pa size base : Nat} {m m' : Mem}
    (h : mmioMapRegion c pa size m = .ok (base, m')) :
    add32 m.mmioNext size ≤ mmiolim ∧ base = m.mmioNext ∧
      ∃ m₁, bootMapRegion c c.kernPgdir m.mmioNext (roundup size pgSize) pa mmioPerm m = .ok m₁ ∧
        m' = { m₁ with mmioNext := add32 m.mmioNext (roundup size pgSize) } := by
  unfold mmioMapRegion at h
  split at h
  · cases h
  · rename_i hlim
    obtain ⟨m₁, hmap, hresult⟩ := bind_ok_iff.mp h
    rw [Except.ok.injEq, Prod.mk.injEq] at hresult
    exact ⟨Nat.not_lt.mp hlim, hresult.1.symm, m₁, hmap, hresult.2.symm⟩

namespace KernDir

variable {c : Config} {m m' : Mem} {l : List Nat} {base n : Nat} {e : Slot → Nat} {rs : List Region}

theorem mapRegions (h : KernDir c m l base e) (hrs : KernelOnly rs)
    (hrun : Nctuos.mapRegions c c.kernPgdir rs m = .ok m') :
    ∃ l', KernDir c m' l' base (overlay (rs.flatMap Region.words) e) ∧
      ∀ n, Room c m c.kernPgdir l n → Room c m' c.kernPgdir l' n := by
  have hd := Finset.mem_singleton_self c.kernPgdir
  obtain ⟨l', new, he⟩ := mapRegions_edits h.inv.inv.trees hd (fun i hi => hrs.not_selfMap hi) hrun
  refine ⟨l', ⟨?_, he.mmio.trans h.mmio, by rw [he.entry, h.entry]⟩,
    fun n => he.room h.inv.inv.trees hd hrs.indices_subset⟩
  exact (h.inv.edits hd he fun w hw => not_stack_of_kernelIdx (hrs w hw)).1

theorem mapRegions_total (h : KernDir c m l base e) (hrs : KernelOnly rs)
    (hroom : Room c m c.kernPgdir l n) : ∃ m', Nctuos.mapRegions c c.kernPgdir rs m = .ok m' := by
  refine Nctuos.mapRegions_total h.inv.inv.trees (Finset.mem_singleton_self _)
    (fun i hi => hrs.not_selfMap hi) ?_
  have hle : (missing c m c.kernPgdir (indices (rs.flatMap Region.words))).card ≤
      (missing c m c.kernPgdir kernelTables).card :=
    Finset.card_le_card (Finset.filter_subset_filter _ hrs.indices_subset)
  unfold Room at hroom
  omega

/-- The static `base` of `mmio_map_region` is nothing the page tables depend on. -/
theorem setMmio (h : KernDir c m l base e) (base' : Nat) :
    KernDir c { m with mmioNext := base' } l base' e ∧
      ∀ n, Room c m c.kernPgdir l n → Room c { m with mmioNext := base' } c.kernPgdir l n := by
  have hfree : FreeList c { m with mmioNext := base' } l :=
    ⟨h.inv.inv.free.chain, h.inv.inv.free.num, h.inv.inv.free.alloc, h.inv.inv.free.ref,
      h.inv.inv.free.used⟩
  have htable : tableOf c { m with mmioNext := base' } = tableOf c m := tableOf_of_ram rfl
  have hentry : entryOf c { m with mmioNext := base' } = entryOf c m := entryOf_of_ram rfl
  refine ⟨⟨⟨h.inv.inv.refree hfree (fun _ _ => rfl) (fun _ _ _ _ _ => rfl)
    (fun q hq hql => absurd hq hql) fun _ => rfl, h.inv.sole_congr fun d _ => ?_⟩, rfl, ?_⟩,
    fun n hn => ?_⟩
  · exact ⟨congrFun htable d, congrFun hentry d⟩
  · rw [hentry, h.entry]
  · rw [Room, missing, htable]
    exact hn

/-! ## `mmio_map_region` -/

theorem mmioMapRegion {pa size r : Nat} (h : KernDir c m l base e) (hge : mmiobase ≤ base)
    (hle : base + roundup size pgSize ≤ mmiolim)
    (hrun : Nctuos.mmioMapRegion c pa size m = .ok (r, m')) :
    r = base ∧ ∃ l', KernDir c m' l' (base + roundup size pgSize)
      (overlay (mmioWords base (roundup size pgSize) pa) e) ∧
      ∀ n, Room c m c.kernPgdir l n → Room c m' c.kernPgdir l' n := by
  obtain ⟨-, hr, m₁, hmap, rfl⟩ := mmioMapRegion_ok hrun
  have hregion : Nctuos.mapRegions c c.kernPgdir [⟨base, roundup size pgSize, pa, mmioPerm⟩] m =
      .ok m₁ := by
    rw [h.mmio] at hmap
    rw [Nctuos.mapRegions, List.foldlM_cons]
    exact bind_ok_iff.mpr ⟨m₁, hmap, rfl⟩
  obtain ⟨l', h', hroom⟩ := h.mapRegions (kernelOnly_mmio pa mmioPerm hge hle) hregion
  have hadd : add32 m.mmioNext (roundup size pgSize) = base + roundup size pgSize := by
    rw [h.mmio, add32]
    refine Nat.mod_eq_of_lt (lt_of_le_of_lt hle ?_)
    decide
  rw [List.flatMap_singleton] at h'
  rw [hadd]
  obtain ⟨h'', hroom'⟩ := h'.setMmio (base + roundup size pgSize)
  exact ⟨hr.trans h.mmio, l', h'', fun n hn => hroom' n (hroom n hn)⟩

theorem mmioMapRegion_total (h : KernDir c m l base e) (pa size : Nat) (hge : mmiobase ≤ base)
    (hle : base + roundup size pgSize ≤ mmiolim) (hsize : base + size ≤ mmiolim)
    (hroom : Room c m c.kernPgdir l n) :
    ∃ m', Nctuos.mmioMapRegion c pa size m = .ok (base, m') := by
  obtain ⟨m₁, hmap⟩ := h.mapRegions_total (kernelOnly_mmio pa mmioPerm hge hle) hroom
  rw [Nctuos.mapRegions, List.foldlM_cons, bind_ok_iff] at hmap
  obtain ⟨m₂, hfirst, -⟩ := hmap
  have hfits : ¬ add32 m.mmioNext size > mmiolim := by
    rw [h.mmio, add32]
    exact Nat.not_lt.mpr ((Nat.mod_le _ _).trans hsize)
  have hfirst' : bootMapRegion c c.kernPgdir base (roundup size pgSize) pa
      (pteW ||| ptePcd ||| ptePwt) m = .ok m₂ := hfirst
  rw [Nctuos.mmioMapRegion, if_neg hfits]
  simp only [h.mmio, hfirst', ok_bind]
  exact ⟨_, rfl⟩

/-! ## The end of `check_page` -/

theorem clearPte {va : Nat} (h : KernDir c m l base e) (hidx : KernelIdx (pdx va).val)
    (hrun : Nctuos.clearPte c c.kernPgdir va m = .ok m') :
    KernDir c m' l base (Function.update e (slotOf va) 0) ∧
      ∀ n, Room c m c.kernPgdir l n → Room c m' c.kernPgdir l n := by
  have hd := Finset.mem_singleton_self c.kernPgdir
  have hself : ¬ SelfMap c c.kernPgdir (pdx va) := not_selfMap_of_kernelIdx hidx
  cases htable : tableOf c m c.kernPgdir (pdx va) with
  | none =>
      simp only [Nctuos.clearPte, pteOf, pgdirWalk_absent hself htable, ok_bind, error_bind] at hrun
      cases hrun
  | some t =>
      have hlt := h.inv.inv.trees.table_lt _ hd _ t htable
      simp only [Nctuos.clearPte, pteOf, pgdirWalk_table htable hlt, ok_bind] at hrun
      obtain rfl := Except.ok.inj hrun
      have he : Edits c {c.kernPgdir} c.kernPgdir ∅ (overlay [(slotOf va, 0)]) m l
          (m.store ⟨t, ptx va⟩ 0) l [] := Edits.store h.inv.inv.trees hd htable 0
      refine ⟨⟨(h.inv.edits hd he fun w hw => ?_).1, he.mmio.trans h.mmio, ?_⟩,
        fun n => he.room h.inv.inv.trees hd (Finset.empty_subset _)⟩
      · rw [List.mem_singleton.mp hw]
        exact not_stack_of_kernelIdx hidx
      · rw [he.entry, h.entry]
        rfl

theorem clearPte_total (h : KernDir c m l base e) (va : Nat) (hentry : e (slotOf va) ≠ 0) :
    ∃ m', Nctuos.clearPte c c.kernPgdir va m = .ok m' := by
  cases htable : tableOf c m c.kernPgdir (pdx va) with
  | none =>
      rw [← h.entry] at hentry
      exact absurd (entryOf_none htable) hentry
  | some t =>
      have hlt := h.inv.inv.trees.table_lt _ (Finset.mem_singleton_self _) _ t htable
      simp only [Nctuos.clearPte, pteOf, pgdirWalk_table htable hlt, ok_bind]
      exact ⟨_, rfl⟩

/-- The words of the two regions `check_page` maps, at the start of the window. -/
def testWords : List (Slot × Nat) :=
  mmioWords mmiobase (2 * pgSize) 0 ++ mmioWords (mmiobase + 2 * pgSize) pgSize 0

/-- When the three pages are unmapped again, nothing is mapped. -/
theorem testWords_cleared :
    Function.update (Function.update (Function.update (overlay testWords fun _ => 0)
      (slotOf mmiobase) 0) (slotOf (mmiobase + pgSize)) 0) (slotOf (mmiobase + 2 * pgSize)) 0 =
      fun _ => 0 := by
  have hslots : testWords.map Prod.fst =
      [slotOf mmiobase, slotOf (mmiobase + pgSize), slotOf (mmiobase + 2 * pgSize)] := by decide
  funext s
  by_cases h₃ : s = slotOf (mmiobase + 2 * pgSize)
  · rw [h₃, Function.update_self]
  · rw [Function.update_of_ne h₃]
    by_cases h₂ : s = slotOf (mmiobase + pgSize)
    · rw [h₂, Function.update_self]
    · rw [Function.update_of_ne h₂]
      by_cases h₁ : s = slotOf mmiobase
      · rw [h₁, Function.update_self]
      · rw [Function.update_of_ne h₁, overlay_of_notMem]
        rintro w hw rfl
        have hmem := List.mem_map_of_mem (f := Prod.fst) hw
        rw [hslots] at hmem
        simp [h₁, h₂, h₃] at hmem

theorem checkPageMmio (h : KernDir c m l mmiobase fun _ => 0)
    (hrun : Nctuos.checkPageMmio c m = .ok m') :
    ∃ l', KernDir c m' l' (mmiobase + 3 * pgSize) (fun _ => 0) ∧
      ∀ n, Room c m c.kernPgdir l n → Room c m' c.kernPgdir l' n := by
  simp only [Nctuos.checkPageMmio, bind_ok_iff] at hrun
  obtain ⟨⟨r₁, m₁⟩, hmap₁, ⟨r₂, m₂⟩, hmap₂, -, -, m₃, hclear₁, m₄, hclear₂, hclear₃⟩ := hrun
  have hround₁ : roundup 4097 pgSize = 2 * pgSize := by decide
  have hround₂ : roundup 4096 pgSize = pgSize := by decide
  obtain ⟨rfl, l₁, h₁, hroom₁⟩ := h.mmioMapRegion le_rfl (by decide) hmap₁
  rw [hround₁] at h₁
  obtain ⟨rfl, l₂, h₂, hroom₂⟩ := h₁.mmioMapRegion (by decide) (by decide) hmap₂
  rw [hround₂] at h₂
  have hadd : add32 mmiobase pgSize = mmiobase + pgSize := by decide
  simp only [hadd] at hclear₁ hclear₂ hclear₃
  obtain ⟨h₃, hroom₃⟩ := h₂.clearPte (by decide) hclear₁
  obtain ⟨h₄, hroom₄⟩ := h₃.clearPte (by decide) hclear₂
  obtain ⟨h₅, hroom₅⟩ := h₄.clearPte (by decide) hclear₃
  refine ⟨l₂, ⟨h₅.inv, h₅.mmio, h₅.entry.trans (Eq.trans ?_ testWords_cleared)⟩, fun n hn =>
    hroom₅ n (hroom₄ n (hroom₃ n (hroom₂ n (hroom₁ n hn))))⟩
  rw [testWords, overlay_append]
  rfl

/-- The assertions of the test hold. -/
theorem checkMmio_total (h : KernDir c m l (mmiobase + 3 * pgSize) (overlay testWords fun _ => 0)) :
    Nctuos.checkMmio c mmiobase (mmiobase + 2 * pgSize) m = .ok () := by
  have hd := Finset.mem_singleton_self c.kernPgdir
  have hself : ∀ va, KernelIdx (pdx va).val → ¬ SelfMap c c.kernPgdir (pdx va) :=
    fun va hidx => not_selfMap_of_kernelIdx hidx
  have hva2pa : ∀ va, KernelIdx (pdx va).val → checkVa2pa c c.kernPgdir va m =
      .ok ((targetOf (overlay testWords (fun _ => 0) (slotOf va))).elim (2 ^ 32 - 1) page2pa) := by
    intro va hidx
    rw [checkVa2pa_eq (hself va hidx) (h.inv.inv.trees.table_lt _ hd _), pageAt_eq_targetOf, h.entry]
  have hword : entryOf c m c.kernPgdir (slotOf mmiobase) = pteWord 0 mmioPerm := by
    rw [h.entry]
    decide
  cases htable : tableOf c m c.kernPgdir (pdx mmiobase) with
  | none =>
      have hzero : entryOf c m c.kernPgdir (slotOf mmiobase) = 0 := entryOf_none htable
      rw [hword] at hzero
      exact absurd hzero (by decide)
  | some t =>
      have hlt := h.inv.inv.trees.table_lt _ hd _ t htable
      have hload : m.load ⟨t, ptx mmiobase⟩ = pteWord 0 mmioPerm :=
        (entryOf_some htable).symm.trans hword
      have h₁ : add32 mmiobase pgSize = mmiobase + pgSize := by decide
      have h₂ : add32 (mmiobase + 2 * pgSize) pgSize = mmiobase + 3 * pgSize := by decide
      simp only [Nctuos.checkMmio, h₁, h₂, hva2pa mmiobase (by decide),
        hva2pa (mmiobase + pgSize) (by decide), hva2pa (mmiobase + 2 * pgSize) (by decide),
        hva2pa (mmiobase + 3 * pgSize) (by decide), pteOf, pgdirWalk_table htable hlt, ok_bind, hload]
      decide

theorem checkPageMmio_total (h : KernDir c m l mmiobase fun _ => 0)
    (hroom : Room c m c.kernPgdir l n) : ∃ m', Nctuos.checkPageMmio c m = .ok m' := by
  have hround₁ : roundup 4097 pgSize = 2 * pgSize := by decide
  have hround₂ : roundup 4096 pgSize = pgSize := by decide
  obtain ⟨m₁, hmap₁⟩ := h.mmioMapRegion_total 0 4097 le_rfl (by decide) (by decide) hroom
  obtain ⟨-, l₁, h₁, hroom₁⟩ := h.mmioMapRegion le_rfl (by decide) hmap₁
  rw [hround₁] at h₁
  obtain ⟨m₂, hmap₂⟩ := h₁.mmioMapRegion_total 0 4096 (by decide) (by decide) (by decide)
    (hroom₁ n hroom)
  obtain ⟨-, l₂, h₂, hroom₂⟩ := h₁.mmioMapRegion (by decide) (by decide) hmap₂
  rw [hround₂] at h₂
  have htest : KernDir c m₂ l₂ (mmiobase + 3 * pgSize) (overlay testWords fun _ => 0) := by
    refine ⟨h₂.inv, h₂.mmio, h₂.entry.trans ?_⟩
    rw [testWords, overlay_append]
    rfl
  obtain ⟨m₃, hclear₁⟩ := htest.clearPte_total mmiobase (by decide)
  obtain ⟨h₃, -⟩ := htest.clearPte (by decide) hclear₁
  obtain ⟨m₄, hclear₂⟩ := h₃.clearPte_total (mmiobase + pgSize) (by decide)
  obtain ⟨h₄, -⟩ := h₃.clearPte (by decide) hclear₂
  obtain ⟨m₅, hclear₃⟩ := h₄.clearPte_total (mmiobase + 2 * pgSize) (by decide)
  have hadd : add32 mmiobase pgSize = mmiobase + pgSize := by decide
  refine ⟨m₅, ?_⟩
  simp only [Nctuos.checkPageMmio, hmap₁, ok_bind, hmap₂, htest.checkMmio_total, hclear₁, hadd,
    hclear₂, hclear₃]

/-! ## `mem_init` and `lapic_init` -/

theorem init (c : Config) (ram : Nat → Idx → Nat) :
    KernDir c (pageInit c (Mem.cleared c ram)) (initList c) mmiobase fun _ => 0 := by
  have hentry : entryOf c (pageInit c (Mem.cleared c ram)) c.kernPgdir = fun _ => 0 :=
    funext fun s => entryOf_none (tableOf_pageInit c ram s.1)
  refine ⟨⟨memInv_pageInit c ram stackSlot, fun q x hx => ?_⟩, (pageInit_initList c ram).mmio, hentry⟩
  have htarget := hx.2.2
  rw [Finset.mem_singleton.mp hx.1, hentry, targetOf_zero] at htarget
  cases htarget

end KernDir

/-- The call of `boot_map_region` for the registers of the local APIC. -/
def lapicRegion (c : Config) : Region := ⟨c.lapic, roundup 4096 pgSize, c.lapicaddr, mmioPerm⟩

/-- The words in `kern_pgdir` after `lapic_init`. -/
def kernWords (c : Config) : List (Slot × Nat) :=
  (kernRegions c).flatMap Region.words ++ if c.lapicaddr = 0 then [] else (lapicRegion c).words

section Init

variable {c : Config} {m m' : Mem} {l : List Nat} {ram : Nat → Idx → Nat} {n : Nat}

theorem room_init (c : Config) (ram : Nat → Idx → Nat) (h : 68 + n ≤ (initList c).length) :
    Room c (pageInit c (Mem.cleared c ram)) c.kernPgdir (initList c) n := by
  have hle : (missing c (pageInit c (Mem.cleared c ram)) c.kernPgdir kernelTables).card ≤ 68 :=
    card_kernelTables ▸ Finset.card_filter_le _ _
  unfold Room
  omega

/-- `kern_pgdir` as `mem_init` leaves it. -/
def KernDir.AfterMemInit (c : Config) (m : Mem) (l : List Nat) : Prop :=
  KernDir c m l (mmiobase + 3 * pgSize) (overlay ((kernRegions c).flatMap Region.words) fun _ => 0)

theorem memInit_inv (h : memInit c ram = .ok m) :
    ∃ l, KernDir.AfterMemInit c m l ∧
      ∀ n, 68 + n ≤ (initList c).length → Room c m c.kernPgdir l n := by
  rw [memInit, bind_ok_iff] at h
  obtain ⟨m₁, hcheck, hmap⟩ := h
  obtain ⟨l₁, h₁, hroom₁⟩ := (KernDir.init c ram).checkPageMmio hcheck
  obtain ⟨l, h, hroom⟩ := h₁.mapRegions (kernelOnly_kernRegions c) hmap
  exact ⟨l, h, fun n hn => hroom n (hroom₁ n (room_init c ram hn))⟩

theorem memInit_total (ram : Nat → Idx → Nat) (h : 68 ≤ (initList c).length) :
    ∃ m, memInit c ram = .ok m := by
  have hroom := room_init c ram (show 68 + 0 ≤ (initList c).length from h)
  obtain ⟨m₁, hcheck⟩ := (KernDir.init c ram).checkPageMmio_total hroom
  obtain ⟨l₁, h₁, hroom₁⟩ := (KernDir.init c ram).checkPageMmio hcheck
  obtain ⟨m, hmap⟩ := h₁.mapRegions_total (kernelOnly_kernRegions c) (hroom₁ 0 hroom)
  refine ⟨m, ?_⟩
  rw [memInit, hcheck, ok_bind]
  exact hmap

/-- Where `lapic_init` maps the local APIC, if there is one. -/
def lapicVa (c : Config) : Nat := if c.lapicaddr = 0 then 0 else mmiobase + 3 * pgSize

theorem lapicInit_inv (h : KernDir.AfterMemInit c m l) (hrun : lapicInit c m = .ok (c.lapic, m')) :
    c.lapic = lapicVa c ∧
      ∃ l' base, KernDir c m' l' base (overlay (kernWords c) fun _ => 0) ∧
        ∀ n, Room c m c.kernPgdir l n → Room c m' c.kernPgdir l' n := by
  unfold lapicInit at hrun
  by_cases hzero : c.lapicaddr = 0
  · rw [if_pos hzero, Except.ok.injEq, Prod.mk.injEq] at hrun
    obtain ⟨hlapic, rfl⟩ := hrun
    refine ⟨by rw [lapicVa, if_pos hzero, hlapic], l, mmiobase + 3 * pgSize, ?_, fun _ hn => hn⟩
    rw [kernWords, if_pos hzero, List.append_nil]
    exact h
  · rw [if_neg hzero] at hrun
    have hround : roundup 4096 pgSize = pgSize := by decide
    obtain ⟨hlapic, l', h', hroom⟩ := h.mmioMapRegion (by decide) (by decide) hrun
    refine ⟨by rw [lapicVa, if_neg hzero, hlapic], l', _, ⟨h'.inv, h'.mmio, h'.entry.trans ?_⟩, hroom⟩
    rw [kernWords, if_neg hzero, overlay_append, lapicRegion, hlapic]
    rfl

theorem lapicInit_total (h : KernDir.AfterMemInit c m l) (hlapic : c.lapic = lapicVa c)
    (hroom : Room c m c.kernPgdir l n) : ∃ m', lapicInit c m = .ok (c.lapic, m') := by
  unfold lapicVa at hlapic
  by_cases hzero : c.lapicaddr = 0
  · rw [if_pos hzero] at hlapic
    rw [lapicInit, if_pos hzero, hlapic]
    exact ⟨m, rfl⟩
  · rw [if_neg hzero] at hlapic
    rw [lapicInit, if_neg hzero, hlapic]
    exact h.mmioMapRegion_total _ _ (by decide) (by decide) (by decide) hroom

end Init

end Nctuos
