import Nctuos.OutOfMemory

/-!
# Mapping a range of pages: `boot_map_region` and `mmio_map_region`

`boot_map_region` stores `size / PGSIZE` words, at addresses and with physical addresses that
both wrap around; a size that is not a multiple of `PGSIZE` loses its last part.  There are
fewer than `2 ^ 20` of them, so no slot is written twice and the words can be read off one by
one (`overlay_regionWords`).  Together with the tables made on the way this is all the call does
(`boot_map_region_exact`).

`mmio_map_region` reserves addresses in the MMIO window one behind the other and maps them in
`kern_pgdir`.  It tests whether the reservation would go beyond `MMIOLIM`, but the sum it tests
is a 32-bit one: a size that takes it past `2 ^ 32` passes.  As long as none is given, every
region is in the window and apart from the others (`mmio_reserved_of_run`).

The directory must not be mapped in itself under the entries of the range; `kern_pgdir` is, at
`UVPT`, where a store would be one into the directory.
-/

namespace Nctuos

open Lib

/-! ## The words of a range -/

theorem slotOf_mod (va : Nat) : slotOf (va % 2 ^ 32) = slotOf va := by
  rw [slotOf_eq_iff]
  omega

section Words

variable {perm n va pa : Nat} {e : Slot → Nat}

theorem overlay_regionWords_other {s : Slot} (h : ∀ k < n, s ≠ slotOf (va + k * pgSize)) :
    overlay (regionWords perm n va pa) e s = e s := by
  refine overlay_of_notMem (fun w hw heq => ?_) e
  obtain ⟨k, hk, hslot, -⟩ := mem_regionWords hw
  exact h k hk (heq.symm.trans hslot)

/-- The word of page `k` of a range. -/
theorem overlay_regionWords {k : Nat} (hpa : pa < 2 ^ 32) (hn : n ≤ 2 ^ 20) (hk : k < n) :
    overlay (regionWords perm n va pa) e (slotOf (va + k * pgSize)) =
      pteWord ((pa + k * pgSize) % 2 ^ 32) perm := by
  induction n generalizing va pa e k with
  | zero => exact absurd hk (Nat.not_lt_zero k)
  | succ n ih =>
      rw [regionWords, overlay, List.foldl_cons, ← overlay]
      cases k with
      | zero =>
          rw [overlay_regionWords_other fun j hj heq => ?_]
          · rw [Nat.zero_mul, Nat.add_zero, Nat.add_zero, Function.update_self, Nat.mod_eq_of_lt hpa]
          · rw [slotOf_add32] at heq
            exact absurd (slotOf_range_inj (by omega) (by omega) heq) (by omega)
      | succ k =>
          have hword : (add32 pa pgSize + k * pgSize) % 2 ^ 32 =
              (pa + (k + 1) * pgSize) % 2 ^ 32 := by
            simp only [add32, pgSize]
            omega
          have hlt : add32 pa pgSize < 2 ^ 32 := Nat.mod_lt _ (by decide)
          rw [← slotOf_add32, ih hlt (by omega) (by omega), hword]

end Words

/-! ## `boot_map_region` -/

/-- Exactly the pages of the range are mapped anew in directory `d`, one page is taken from the
free list for each directory entry of the range without a table, and that is all. -/
structure MapsExactly (c : Config) (dirs : Finset Nat) (d va size pa perm : Nat) (m : Mem)
    (l : List Nat) (m' : Mem) (l' new : List Nat) : Prop where
  page : ∀ k < size / pgSize, entryOf c m' d (slotOf ((va + k * pgSize) % 2 ^ 32)) =
    (pa + k * pgSize) % 2 ^ 32 ||| perm ||| pteP
  other : ∀ s, (∀ k < size / pgSize, s ≠ slotOf ((va + k * pgSize) % 2 ^ 32)) →
    entryOf c m' d s = entryOf c m d s
  other_dirs : ∀ d' ∈ dirs, d' ≠ d → entryOf c m' d' = entryOf c m d'
  list : Chain m'.link m'.pageFreeList l'
  taken : l = new ++ l'
  taken_num : new.length = (tablesNeeded c m d va size).card
  taken_for : ∀ i ∈ tablesNeeded c m d va size, ∃ t ∈ new, tableOf c m' d i = some t
  taken_ref : ∀ p ∈ new, (m'.pages p).ppRef = 1
  kept : ∀ p, p ∉ new → m'.pages p = m.pages p
  num : m'.numFreePages = l'.length
  trees : Trees c dirs m' l'

section BootMapRegion

variable {c : Config} {dirs : Finset Nat} {m : Mem} {l : List Nat} {d va size pa perm : Nat}

/-- A run of `boot_map_region`, in terms of the words it stores. -/
theorem bootMapRegion_edits {m' : Mem} (h : Trees c dirs m l) (hd : d ∈ dirs)
    (hself : ∀ i ∈ crossed va size, ¬ SelfMap c d i)
    (hrun : bootMapRegion c d va size pa perm m = .ok m') :
    ∃ l' new, Edits c dirs d (crossed va size)
      (overlay (regionWords perm (size / pgSize) va pa)) m l m' l' new := by
  rw [← indices_regionWords perm va size pa] at hself ⊢
  exact bootMapLoop_edits h hd hself hrun

theorem bootMapRegion_total (h : Trees c dirs m l) (hd : d ∈ dirs)
    (hself : ∀ i ∈ crossed va size, ¬ SelfMap c d i)
    (hroom : (tablesNeeded c m d va size).card ≤ l.length) (pa perm : Nat) :
    ∃ m', bootMapRegion c d va size pa perm m = .ok m' := by
  rw [tablesNeeded] at hroom
  rw [← indices_regionWords perm va size pa] at hself hroom
  exact bootMapLoop_total h hd hself hroom

/-- **`boot_map_region` maps exactly the range it is given.** -/
theorem boot_map_region_exact (h : Trees c dirs m l) (hd : d ∈ dirs)
    (hnum : m.numFreePages = l.length) (href : ∀ p ∈ l, (m.pages p).ppRef = 0)
    (hself : ∀ i ∈ crossed va size, ¬ SelfMap c d i)
    (hroom : (tablesNeeded c m d va size).card ≤ l.length)
    (hsize : size < 2 ^ 32) (hpa : pa < 2 ^ 32) :
    ∃ m' l' new, bootMapRegion c d va size pa perm m = .ok m' ∧
      MapsExactly c dirs d va size pa perm m l m' l' new := by
  obtain ⟨m', hrun⟩ := bootMapRegion_total h hd hself hroom pa perm
  obtain ⟨l', new, hedits⟩ := bootMapRegion_edits h hd hself hrun
  have hn : size / pgSize ≤ 2 ^ 20 := by
    simp only [pgSize]
    omega
  have hlen := congrArg List.length hedits.free
  rw [List.length_append] at hlen
  refine ⟨m', l', new, hrun, ?_⟩
  refine
    { page := fun k hk => ?_,
      other := fun s hs => ?_,
      other_dirs := hedits.entry_other,
      list := hedits.trees.chain,
      taken := hedits.free,
      taken_num := hedits.length_new h hd,
      taken_for := fun i hi => ?_,
      taken_ref := fun p hp => ?_,
      kept := hedits.pages,
      num := ?_,
      trees := hedits.trees }
  · rw [slotOf_mod, hedits.entry]
    exact overlay_regionWords hpa hn hk
  · rw [hedits.entry]
    refine overlay_regionWords_other fun k hk => ?_
    rw [← slotOf_mod]
    exact hs k hk
  · obtain ⟨hcrossed, hnone⟩ := Finset.mem_filter.mp hi
    obtain ⟨t, ht⟩ := hedits.covered i hcrossed
    rcases hedits.table_new i t ht with hold | ⟨-, hnew⟩
    · rw [hnone] at hold
      cases hold
    · exact ⟨t, hnew, ht⟩
  · rw [hedits.pages_new p hp, href p (hedits.free ▸ List.mem_append_left l' hp)]
    rfl
  · have hlt := c.length_lt h.chain.nodup h.free_lt
    have hleft := hedits.num (by omega) (by omega)
    omega

end BootMapRegion

/-- Two pages at the end of the address space and at its beginning, and 34 bytes that are lost. -/
theorem boot_map_region_exact_wrapping :
    ∃ m' l' new, bootMapRegion .small Config.small.kernPgdir 0xFFFFF000 0x2022 0 pteW .small =
        .ok m' ∧
      MapsExactly .small {Config.small.kernPgdir} Config.small.kernPgdir 0xFFFFF000 0x2022 0 pteW
        .small (initList .small) m' l' new := by
  have hfree : FreeList .small .small (initList .small) := freeList_pageInit .small fun _ _ => 0
  have hcrossed : crossed 0xFFFFF000 0x2022 = {1023, 0} := by decide
  have hself : ∀ i ∈ crossed 0xFFFFF000 0x2022, ¬ SelfMap .small Config.small.kernPgdir i := by
    intro i hi hself
    rw [hcrossed, hself.2] at hi
    exact absurd hi (by decide)
  have hroom : (tablesNeeded .small .small Config.small.kernPgdir 0xFFFFF000 0x2022).card ≤
      (initList .small).length := by
    refine (Finset.card_filter_le _ _).trans ?_
    rw [hcrossed, length_initList_small]
    decide
  exact boot_map_region_exact (trees_pageInit .small fun _ _ => 0) (Finset.mem_singleton_self _)
    hfree.num hfree.ref hself hroom (by decide) (by decide)

/-! ## `mmio_map_region` -/

/-- A region that `mmio_map_region` returned, for `size` bytes of device memory from `pa` on. -/
structure MmioRegion where
  base : Nat
  size : Nat
  pa : Nat

/-- The memory, and the regions returned so far. -/
structure Mmio where
  mem : Mem
  regions : List MmioRegion

/-- The arguments of a call. -/
structure MmioCall where
  pa : Nat
  size : Nat
  pa_lt : pa < 2 ^ 32
  pa_aligned : pa % pgSize = 0
  size_lt : size < 2 ^ 32

/-- The sum that is tested does not wrap around. -/
def MmioCall.NoWrap (call : MmioCall) (s : Mmio) : Prop := s.mem.mmioNext + call.size < 2 ^ 32

def MmioRegion.Apart (r r' : MmioRegion) : Prop :=
  r.base + r.size ≤ r'.base ∨ r'.base + r'.size ≤ r.base

/-- A call that returns. -/
def Mmio.Step (c : Config) (s : Mmio) (call : MmioCall) (s' : Mmio) : Prop :=
  ∃ base m', mmioMapRegion c call.pa call.size s.mem = .ok (base, m') ∧
    s' = ⟨m', ⟨base, call.size, call.pa⟩ :: s.regions⟩

/-- The pages of a region are mapped to those of the device, not cached and not for the user. -/
def MmioRegion.Mapped (c : Config) (m : Mem) (r : MmioRegion) : Prop :=
  ∀ k, k * pgSize < r.size →
    entryOf c m c.kernPgdir (slotOf (r.base + k * pgSize)) =
      pteWord ((r.pa + k * pgSize) % 2 ^ 32) mmioPerm ∧
    entryOf c m c.kernPgdir (slotOf (r.base + k * pgSize)) &&& pteU = 0

/-- What a call is to do: `r` is the region it returns and `m'` the memory it leaves. -/
structure Mmio.Reserved (c : Config) (dirs : Finset Nat) (s : Mmio) (r : MmioRegion) (m' : Mem) :
    Prop where
  aligned : r.base % pgSize = 0
  window : mmiobase ≤ r.base ∧ r.base + r.size ≤ mmiolim
  apart : ∀ r' ∈ s.regions, r.Apart r'
  mapped : r.Mapped c m'
  outside : ∀ va < 2 ^ 32, va < mmiobase ∨ mmiolim ≤ va →
    entryOf c m' c.kernPgdir (slotOf va) = entryOf c s.mem c.kernPgdir (slotOf va)
  other_dirs : ∀ d ∈ dirs, d ≠ c.kernPgdir → entryOf c m' d = entryOf c s.mem d

/-- The regions are one behind the other in the window, up to `base`. -/
structure MmioInv (c : Config) (dirs : Finset Nat) (s : Mmio) (l : List Nat) : Prop where
  trees : Trees c dirs s.mem l
  kern : c.kernPgdir ∈ dirs
  aligned : s.mem.mmioNext % pgSize = 0
  window : mmiobase ≤ s.mem.mmioNext ∧ s.mem.mmioNext ≤ mmiolim
  below : ∀ r ∈ s.regions, r.base + r.size ≤ s.mem.mmioNext

section MmioMapRegion

variable {c : Config} {dirs : Finset Nat} {s : Mmio} {l : List Nat} {call : MmioCall}

/-- The static `base` of `mmio_map_region` is nothing the page tables depend on. -/
theorem Trees.setMmio {m : Mem} (h : Trees c dirs m l) (base : Nat) :
    Trees c dirs { m with mmioNext := base } l :=
  h.of_tables rfl rfl fun _ _ => rfl

theorem entryOf_setMmio (m : Mem) (base : Nat) :
    entryOf c { m with mmioNext := base } = entryOf c m :=
  entryOf_of_ram rfl

/-- In the window everything is under one directory entry. -/
theorem crossed_window {base n : Nat} (hge : mmiobase ≤ base) (hle : base + n ≤ mmiolim) :
    crossed base n ⊆ {pdx mmiobase} := by
  intro i hi
  obtain ⟨k, hk, rfl⟩ := Finset.mem_image.mp hi
  rw [Finset.mem_range] at hk
  refine Finset.mem_singleton.mpr (Fin.ext ?_)
  simp only [pdx_val, mmiobase_eq, mmiolim_eq, pgSize] at *
  omega

/-- What fits in the window fits in it rounded up to pages, without any wrap-around. -/
theorem window_roundup {base size : Nat} (hmod : base % pgSize = 0) (hge : mmiobase ≤ base)
    (hle : base + size ≤ mmiolim) :
    size ≤ roundup size pgSize ∧ base + roundup size pgSize ≤ mmiolim ∧
      ∀ k, k * pgSize < size ↔ k < roundup size pgSize / pgSize := by
  simp only [roundup, rounddown, pgSize, mmiolim_eq, mmiobase_eq] at *
  refine ⟨by omega, by omega, fun k => by omega⟩

theorem mmioPerm_not_user {pa : Nat} (hmod : pa % pgSize = 0) : pteWord pa mmioPerm &&& pteU = 0 := by
  obtain ⟨q, rfl⟩ : ∃ q, pa = 2 ^ 12 * q := Nat.dvd_of_mod_eq_zero hmod
  have hbit : (pteWord (2 ^ 12 * q) mmioPerm).testBit 2 = false := by
    rw [pteWord, Nat.testBit_or, Nat.testBit_or, Nat.testBit_two_pow_mul]
    rfl
  rw [show pteU = 2 ^ 2 from rfl, Nat.and_two_pow, hbit]
  rfl

/-- The pages of a region in the window, after its words have been stored. -/
theorem mapped_of_edits {m m' : Mem} {l' new : List Nat} {base : Nat} {call : MmioCall}
    (hfits : base + roundup call.size pgSize ≤ mmiolim)
    (hpages : ∀ k, k * pgSize < call.size ↔ k < roundup call.size pgSize / pgSize)
    (hedits : Edits c dirs c.kernPgdir (crossed base (roundup call.size pgSize))
      (overlay (regionWords mmioPerm (roundup call.size pgSize / pgSize) base call.pa)) m l m' l' new) :
    MmioRegion.Mapped c m' ⟨base, call.size, call.pa⟩ := by
  intro k hk
  have hn : roundup call.size pgSize / pgSize ≤ 2 ^ 20 := by
    have hlim : mmiolim < 2 ^ 32 := by decide
    simp only [pgSize] at hfits ⊢
    omega
  have hword : entryOf c m' c.kernPgdir (slotOf (base + k * pgSize)) =
      pteWord ((call.pa + k * pgSize) % 2 ^ 32) mmioPerm := by
    rw [hedits.entry]
    exact overlay_regionWords call.pa_lt hn ((hpages k).mp hk)
  refine ⟨hword, ?_⟩
  rw [hword]
  refine mmioPerm_not_user ?_
  have hpa := call.pa_aligned
  simp only [pgSize] at hpa ⊢
  omega

theorem outside_of_edits {m m' : Mem} {l' new : List Nat} {base n pa va : Nat}
    (hge : mmiobase ≤ base) (hfits : base + n ≤ mmiolim)
    (hedits : Edits c dirs c.kernPgdir (crossed base n)
      (overlay (regionWords mmioPerm (n / pgSize) base pa)) m l m' l' new) (hva : va < 2 ^ 32)
    (hout : va < mmiobase ∨ mmiolim ≤ va) :
    entryOf c m' c.kernPgdir (slotOf va) = entryOf c m c.kernPgdir (slotOf va) := by
  rw [hedits.entry]
  refine overlay_regionWords_other fun k hk heq => ?_
  simp only [slotOf_eq_iff, pgSize, mmiolim_eq, mmiobase_eq] at *
  omega

/-- The call with its test out of the way. -/
theorem mmioMapRegion_eq {m : Mem} {pa size : Nat} (h : ¬ add32 m.mmioNext size > mmiolim) :
    mmioMapRegion c pa size m =
      (bootMapRegion c c.kernPgdir m.mmioNext (roundup size pgSize) pa mmioPerm m).map fun m' =>
        (m.mmioNext, { m' with mmioNext := add32 m.mmioNext (roundup size pgSize) }) := by
  rw [mmioMapRegion, if_neg h]
  cases hmap : bootMapRegion c c.kernPgdir m.mmioNext (roundup size pgSize) pa mmioPerm m with
  | error e => exact congrArg (· >>= _) hmap
  | ok m' => exact congrArg (· >>= _) hmap

namespace MmioInv

theorem not_selfMap (h : MmioInv c dirs s l) {n : Nat} (hle : s.mem.mmioNext + n ≤ mmiolim)
    {i : Idx} (hi : i ∈ crossed s.mem.mmioNext n) : ¬ SelfMap c c.kernPgdir i := by
  rw [Finset.mem_singleton.mp (crossed_window h.window.1 hle hi)]
  exact fun hself => absurd hself.2 (by decide)

/-- A page is enough for the one table that may be missing. -/
theorem tables_le (h : MmioInv c dirs s l) {n : Nat} (hle : s.mem.mmioNext + n ≤ mmiolim)
    (hroom : tableOf c s.mem c.kernPgdir (pdx mmiobase) = none → s.mem.pageFreeList ≠ none) :
    (tablesNeeded c s.mem c.kernPgdir s.mem.mmioNext n).card ≤ l.length := by
  have hsub : tablesNeeded c s.mem c.kernPgdir s.mem.mmioNext n ⊆
      missing c s.mem c.kernPgdir {pdx mmiobase} :=
    Finset.filter_subset_filter _ (crossed_window h.window.1 hle)
  refine (Finset.card_le_card hsub).trans ?_
  cases htable : tableOf c s.mem c.kernPgdir (pdx mmiobase) with
  | some t => simp [missing, Finset.filter_singleton, htable]
  | none =>
      have hhead := h.trees.chain.head_eq
      have hpos : 0 < l.length := by
        refine List.length_pos_of_ne_nil ?_
        rintro rfl
        exact hroom htable hhead
      refine (Finset.card_filter_le _ _).trans ?_
      rw [Finset.card_singleton]
      exact hpos

/-- A call that meets the condition and returns does what it is to do. -/
theorem step {base : Nat} {m' : Mem} (h : MmioInv c dirs s l) (hwrap : call.NoWrap s)
    (hok : mmioMapRegion c call.pa call.size s.mem = .ok (base, m')) :
    s.Reserved c dirs ⟨base, call.size, call.pa⟩ m' ∧
      ∃ l', MmioInv c dirs ⟨m', ⟨base, call.size, call.pa⟩ :: s.regions⟩ l' := by
  obtain ⟨hlim, rfl, m₁, hmap, rfl⟩ := mmioMapRegion_ok hok
  rw [show add32 s.mem.mmioNext call.size = s.mem.mmioNext + call.size from
    Nat.mod_eq_of_lt hwrap] at hlim
  obtain ⟨hle, hfits, hpages⟩ := window_roundup h.aligned h.window.1 hlim
  obtain ⟨l', new, hedits⟩ :=
    bootMapRegion_edits h.trees h.kern (fun i hi => h.not_selfMap hfits hi) hmap
  have hnext : add32 s.mem.mmioNext (roundup call.size pgSize) =
      s.mem.mmioNext + roundup call.size pgSize :=
    Nat.mod_eq_of_lt (Nat.lt_of_le_of_lt hfits (by decide))
  rw [hnext]
  refine ⟨?_, l', ?_⟩
  · refine
      { aligned := h.aligned,
        window := ⟨h.window.1, hlim⟩,
        apart := fun r hr => Or.inr (h.below r hr),
        mapped := ?_,
        outside := fun va hva hout => ?_,
        other_dirs := fun d hd hne => ?_ }
    · rw [MmioRegion.Mapped, entryOf_setMmio]
      exact mapped_of_edits hfits hpages hedits
    · rw [entryOf_setMmio]
      exact outside_of_edits h.window.1 hfits hedits hva hout
    · rw [entryOf_setMmio]
      exact hedits.entry_other d hd hne
  · refine ⟨hedits.trees.setMmio _, h.kern, ?_,
      ⟨Nat.le_trans h.window.1 (Nat.le_add_right _ _), hfits⟩, fun r hr => ?_⟩
    · have hmod := roundup_mod call.size
      have haligned := h.aligned
      simp only [pgSize] at hmod haligned ⊢
      omega
    · rcases List.mem_cons.mp hr with rfl | hr
      · exact Nat.add_le_add_left hle _
      · exact Nat.le_trans (h.below r hr) (Nat.le_add_right _ _)

/-- With a page for the table a call returns if there is room in the window. -/
theorem returns (h : MmioInv c dirs s l) (call : MmioCall)
    (hle : s.mem.mmioNext + call.size ≤ mmiolim)
    (hroom : tableOf c s.mem c.kernPgdir (pdx mmiobase) = none → s.mem.pageFreeList ≠ none) :
    ∃ m', mmioMapRegion c call.pa call.size s.mem = .ok (s.mem.mmioNext, m') := by
  have hsum : add32 s.mem.mmioNext call.size = s.mem.mmioNext + call.size :=
    Nat.mod_eq_of_lt (Nat.lt_of_le_of_lt hle (by decide))
  have hlim : ¬ add32 s.mem.mmioNext call.size > mmiolim := by
    rw [hsum]
    exact Nat.not_lt.mpr hle
  obtain ⟨-, hfits, -⟩ := window_roundup h.aligned h.window.1 hle
  obtain ⟨m₁, hmap⟩ := bootMapRegion_total h.trees h.kern (fun i hi => h.not_selfMap hfits hi)
    (h.tables_le hfits hroom) call.pa mmioPerm
  rw [mmioMapRegion_eq hlim, hmap]
  exact ⟨_, rfl⟩

/-- A call that meets the condition panics or returns. -/
theorem total (h : MmioInv c dirs s l) (hwrap : call.NoWrap s)
    (hroom : tableOf c s.mem c.kernPgdir (pdx mmiobase) = none → s.mem.pageFreeList ≠ none) :
    (∃ text, mmioMapRegion c call.pa call.size s.mem = .error (.panic text)) ∨
      ∃ base m', mmioMapRegion c call.pa call.size s.mem = .ok (base, m') := by
  by_cases hlim : add32 s.mem.mmioNext call.size > mmiolim
  · refine Or.inl ⟨"mmio_map_region(): reservation overflow MMIOLIM", ?_⟩
    rw [mmioMapRegion, if_pos hlim]
  · rw [show add32 s.mem.mmioNext call.size = s.mem.mmioNext + call.size from
      Nat.mod_eq_of_lt hwrap, gt_iff_lt, Nat.not_lt] at hlim
    exact Or.inr ⟨_, h.returns call hlim hroom⟩

end MmioInv

theorem mmioInv_of_run {m : Mem} {calls : List MmioCall} (h : Trees c dirs m l)
    (hkern : c.kernPgdir ∈ dirs) (hbase : m.mmioNext = mmiobase)
    (hrun : Run (fun s call s' => s.Step c call s' ∧ call.NoWrap s) ⟨m, []⟩ calls s) :
    ∃ l, MmioInv c dirs s l := by
  have hinit : MmioInv c dirs ⟨m, []⟩ l := by
    refine ⟨h, hkern, ?_, ?_, List.forall_mem_nil _⟩
    · rw [hbase]
      decide
    · rw [hbase]
      decide
  refine hrun.invariant (I := fun s => ∃ l, MmioInv c dirs s l) (fun s call s' hinv hstep => ?_)
    ⟨l, hinit⟩
  obtain ⟨l, hinv⟩ := hinv
  obtain ⟨⟨base, m', hok, rfl⟩, hwrap⟩ := hstep
  exact (hinv.step hwrap hok).2

/-- **MMIO reservations.**  In every run in which no sum wraps around, a further call for which
it does not either panics or does what it is to do; one for which it does wrap around may return,
but never what it is to return. -/
theorem mmio_reserved_of_run {m : Mem} {calls : List MmioCall} (call : MmioCall)
    (h : Trees c dirs m l) (hkern : c.kernPgdir ∈ dirs) (hbase : m.mmioNext = mmiobase)
    (hrun : Run (fun s call s' => s.Step c call s' ∧ call.NoWrap s) ⟨m, []⟩ calls s)
    (hroom : tableOf c s.mem c.kernPgdir (pdx mmiobase) = none → s.mem.pageFreeList ≠ none) :
    (call.NoWrap s →
      (∃ text, mmioMapRegion c call.pa call.size s.mem = .error (.panic text)) ∨
      ∃ base m', mmioMapRegion c call.pa call.size s.mem = .ok (base, m') ∧
        s.Reserved c dirs ⟨base, call.size, call.pa⟩ m') ∧
    (¬ call.NoWrap s → ∀ base m', mmioMapRegion c call.pa call.size s.mem = .ok (base, m') →
      ¬ s.Reserved c dirs ⟨base, call.size, call.pa⟩ m') := by
  obtain ⟨l', hinv⟩ := mmioInv_of_run h hkern hbase hrun
  constructor
  · intro hwrap
    refine (hinv.total hwrap hroom).imp_right ?_
    rintro ⟨base, m', hok⟩
    exact ⟨base, m', hok, (hinv.step hwrap hok).1⟩
  · intro hwrap base m' hok hres
    obtain ⟨-, hnext, -⟩ := mmioMapRegion_ok hok
    refine hwrap ?_
    have hle := hres.window.2
    rw [hnext] at hle
    exact Nat.lt_of_le_of_lt hle (by decide)

end MmioMapRegion

/-- The call of `lapic_init`. -/
def MmioCall.lapic : MmioCall where
  pa := 0xFEE00000
  size := 4096
  pa_lt := by decide
  pa_aligned := by decide
  size_lt := by decide

theorem mmioNext_small : Mem.small.mmioNext = mmiobase :=
  (pageInit_initList .small fun _ _ => 0).mmio

/-- A call of `check_page`. -/
def MmioCall.test : MmioCall where
  pa := 0
  size := 4097
  pa_lt := by decide
  pa_aligned := by decide
  size_lt := by decide

/-- The local APIC behind a region that takes two pages. -/
theorem mmio_reserved_lapic :
    ∃ m₁ m₂, mmioMapRegion .small 0 4097 .small = .ok (mmiobase, m₁) ∧
      mmioMapRegion .small 0xFEE00000 4096 m₁ = .ok (mmiobase + 2 * pgSize, m₂) ∧
      (Mmio.mk m₁ [⟨mmiobase, 4097, 0⟩]).Reserved .small {Config.small.kernPgdir}
        ⟨mmiobase + 2 * pgSize, 4096, 0xFEE00000⟩ m₂ := by
  have htrees : Trees .small {Config.small.kernPgdir} .small (initList .small) :=
    trees_pageInit .small fun _ _ => 0
  have hl : initList .small = 1023 :: (initList .small).tail := by decide +kernel
  have hhead : Mem.small.pageFreeList = some 1023 := by
    rw [htrees.chain.head_eq, hl, List.head?_cons]
  have hmmio := mmioNext_small
  generalize Mem.small = m at htrees hhead hmmio ⊢
  have hroom : m.pageFreeList ≠ none := by
    rw [hhead]
    exact Option.some_ne_none _
  have hkern := Finset.mem_singleton_self Config.small.kernPgdir
  obtain ⟨l, hinv⟩ := mmioInv_of_run htrees hkern hmmio (.nil _)
  have hwrap : MmioCall.test.NoWrap ⟨m, []⟩ := by
    rw [MmioCall.NoWrap, hmmio]
    decide
  obtain ⟨m₁, hfirst⟩ := hinv.returns .test (by rw [hmmio]; decide) fun _ => hroom
  obtain ⟨hres₁, l₁, hinv₁⟩ := hinv.step hwrap hfirst
  have hrun : Run (fun s call s' => Mmio.Step .small s call s' ∧ call.NoWrap s) ⟨m, []⟩ [.test]
      ⟨m₁, [⟨m.mmioNext, 4097, 0⟩]⟩ :=
    .cons ⟨⟨_, m₁, hfirst, rfl⟩, hwrap⟩ (.nil _)
  have hnext : m₁.mmioNext = mmiobase + 2 * pgSize := by
    obtain ⟨-, -, m', -, rfl⟩ := mmioMapRegion_ok hfirst
    change add32 m.mmioNext (roundup 4097 pgSize) = _
    rw [hmmio]
    decide
  -- the table that the first call needed is there for the second
  have htable : tableOf .small m₁ Config.small.kernPgdir (pdx mmiobase) ≠ none := by
    intro hnone
    have hword := (hres₁.mapped 0 (show 0 * pgSize < 4097 by decide)).1
    rw [Nat.zero_mul, Nat.add_zero, hmmio, entryOf_none (s := slotOf mmiobase) hnone] at hword
    have hpresent := present_pteWord ((MmioCall.test.pa + 0) % 2 ^ 32) mmioPerm
    rw [← hword] at hpresent
    cases hpresent
  obtain ⟨m₂, hsecond⟩ := hinv₁.returns .lapic (by rw [hnext]; decide)
    fun hnone => absurd hnone htable
  have hwrap₁ : MmioCall.lapic.NoWrap ⟨m₁, [⟨m.mmioNext, 4097, 0⟩]⟩ := by
    rw [MmioCall.NoWrap, hnext]
    decide
  rcases (mmio_reserved_of_run .lapic htrees hkern hmmio hrun fun hnone => absurd hnone htable).1
    hwrap₁ with ⟨text, hpanic⟩ | ⟨base, m', hok, hres₂⟩
  · cases hpanic.symm.trans hsecond
  · obtain ⟨rfl, rfl⟩ := Prod.mk.inj (Except.ok.inj (hok.symm.trans hsecond))
    have hbase : (Mmio.mk m₁ [⟨m.mmioNext, 4097, 0⟩]).mem.mmioNext = mmiobase + 2 * pgSize := hnext
    rw [hbase] at hsecond hres₂
    rw [hmmio] at hfirst hres₂
    exact ⟨m₁, m', hfirst, hsecond, hres₂⟩

/-- Rounded up, `2 ^ 32 - 1` bytes are none. -/
theorem mmioMapRegion_huge (c : Config) {m : Mem} (pa : Nat) (h : m.mmioNext = mmiobase) :
    mmioMapRegion c pa 0xFFFFFFFF m = .ok (mmiobase, m) := by
  have hlim : ¬ add32 m.mmioNext 0xFFFFFFFF > mmiolim := by
    rw [h]
    decide
  have hzero : roundup 0xFFFFFFFF pgSize = 0 := by decide
  have hsame : add32 m.mmioNext 0 = m.mmioNext := by
    rw [h]
    decide
  have hnothing : bootMapRegion c c.kernPgdir m.mmioNext 0 pa mmioPerm m = .ok m := rfl
  rw [mmioMapRegion_eq hlim, hzero, hsame, hnothing]
  exact congrArg (fun base => Except.ok (base, m)) h

/-- A region of `2 ^ 32 - 1` bytes is granted; nothing is mapped, and the next call gets the same
addresses. -/
theorem mmio_huge_region_granted :
    mmioMapRegion .small 0 0xFFFFFFFF .small = .ok (mmiobase, .small) ∧
      ¬ mmiobase + 0xFFFFFFFF ≤ mmiolim ∧
      entryOf .small .small Config.small.kernPgdir (slotOf mmiobase) = 0 ∧
      ∃ m, mmioMapRegion .small 0xFEE00000 4096 .small = .ok (mmiobase, m) := by
  obtain ⟨m, -, hmap, -⟩ := mmioMapRegion_small
  exact ⟨mmioMapRegion_huge .small 0 mmioNext_small, by decide,
    entryOf_none (tableOf_pageInit _ _ _), m, hmap⟩

end Nctuos
