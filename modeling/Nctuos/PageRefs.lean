import Nctuos.PageMap
import Mathlib.Data.Set.Card

/-!
# Reference counts

`pp_ref` of a page is the number of entries that name it.  Which entries are meant is a
choice: `boot_map_region` writes entries without counting them.  So the invariant takes
the slots that count as a parameter (`counted`), and for those the pages they name must be
allocated pages that are neither tables nor directories.

`MemInv c counted dirs extra m l` ties together the free list `l`, the trees of the
directories `dirs` and the counts.  `extra p` is the number of references to `p` that no
entry accounts for; it is zero except while a directory is being taken apart.

The operations of `kernel/mem.c` keep it, and under it none of them panics.  All of them
come down to five changes of memory: tables are made and uncounted words stored
(`MemInv.edits`), a counted slot is redirected (`MemInv.redirect`), a page leaves the free
list (`MemInv.take`) or joins it (`MemInv.give`), and a page becomes a directory or stops
being one (`MemInv.addDir`, `MemInv.dropDir`).
-/

namespace Nctuos

open Lib

/-! ## Entries that name a page -/

/-- The page an entry names. -/
def targetOf (w : Nat) : Option Nat := if present w then some (ptePage w) else none

theorem targetOf_zero : targetOf 0 = none := rfl

theorem targetOf_pteWord {c : Config} {pp perm : Nat} (hpp : pp < c.npages) (hperm : perm < 4096) :
    targetOf (pteWord (page2pa pp) perm) = some pp := by
  have hlt := c.npages_lt
  rw [targetOf, if_pos (present_pteWord _ _), ptePage_pteWord (by omega) hperm]

theorem pageAt_eq_targetOf {c : Config} {m : Mem} {d va : Nat} :
    pageAt c m d va = targetOf (entryOf c m d (slotOf va)) := by
  rw [pageAt, mapOf_vpnOf, decode, targetOf]
  split <;> rfl

/-- The counted slots that name page `p`. -/
def pteRefs (c : Config) (counted : Nat → Slot → Prop) (dirs : Finset Nat) (m : Mem) (p : Nat) :
    Set (Nat × Slot) :=
  {x | x.1 ∈ dirs ∧ counted x.1 x.2 ∧ targetOf (entryOf c m x.1 x.2) = some p}

/-- The directory entries that name page `p`. -/
def pdeRefs (c : Config) (dirs : Finset Nat) (m : Mem) (p : Nat) : Set (Nat × Idx) :=
  {x | x.1 ∈ dirs ∧ tableOf c m x.1 x.2 = some p}

section Refs

variable {c : Config} {counted : Nat → Slot → Prop} {dirs : Finset Nat} {m m' : Mem} {p : Nat}

theorem pteRefs_finite : (pteRefs c counted dirs m p).Finite := by
  refine ((dirs ×ˢ (Finset.univ : Finset Slot)).finite_toSet).subset fun x hx => ?_
  simpa using hx.1

theorem pdeRefs_finite : (pdeRefs c dirs m p).Finite := by
  refine ((dirs ×ˢ (Finset.univ : Finset Idx)).finite_toSet).subset fun x hx => ?_
  simpa using hx.1

theorem pteRefs_congr (h : ∀ d ∈ dirs, ∀ s, counted d s →
      targetOf (entryOf c m' d s) = targetOf (entryOf c m d s)) (p : Nat) :
    pteRefs c counted dirs m' p = pteRefs c counted dirs m p := by
  ext ⟨d, s⟩
  constructor
  · rintro ⟨hd, hs, htarget⟩
    exact ⟨hd, hs, (h d hd s hs).symm.trans htarget⟩
  · rintro ⟨hd, hs, htarget⟩
    exact ⟨hd, hs, (h d hd s hs).trans htarget⟩

theorem pdeRefs_congr (h : ∀ d ∈ dirs, tableOf c m' d = tableOf c m d) (p : Nat) :
    pdeRefs c dirs m' p = pdeRefs c dirs m p := by
  ext ⟨d, i⟩
  constructor
  · rintro ⟨hd, htable⟩
    exact ⟨hd, h d hd ▸ htable⟩
  · rintro ⟨hd, htable⟩
    exact ⟨hd, (h d hd).symm ▸ htable⟩

/-- A directory in which no counted slot is mapped adds nothing. -/
theorem pteRefs_insert {d : Nat} (h : ∀ s, counted d s → targetOf (entryOf c m d s) = none)
    (p : Nat) : pteRefs c counted (insert d dirs) m p = pteRefs c counted dirs m p := by
  ext ⟨d', s⟩
  constructor
  · rintro ⟨hd', hs, htarget⟩
    rcases Finset.mem_insert.mp hd' with rfl | hd'
    · rw [h s hs] at htarget
      cases htarget
    · exact ⟨hd', hs, htarget⟩
  · rintro ⟨hd', hs, htarget⟩
    exact ⟨Finset.mem_insert_of_mem hd', hs, htarget⟩

end Refs

/-- Two sets that differ in at most one point. -/
theorem ncard_off_point {α : Type} {s s' : Set α} {x : α} (hs : s.Finite) (hs' : s'.Finite)
    (h : ∀ y, y ≠ x → (y ∈ s' ↔ y ∈ s)) [Decidable (x ∈ s)] [Decidable (x ∈ s')] :
    s'.ncard + (if x ∈ s then 1 else 0) = s.ncard + (if x ∈ s' then 1 else 0) := by
  have hoff : s' \ {x} = s \ {x} := by
    ext y
    by_cases hy : y = x
    · simp [hy]
    · simp [hy, h y hy]
  have hcount : ∀ t : Set α, t.Finite → ∀ [Decidable (x ∈ t)],
      t.ncard = (t \ {x}).ncard + (if x ∈ t then 1 else 0) := by
    intro t ht _
    split
    · rename_i hmem
      exact (Set.ncard_sdiff_singleton_add_one hmem ht).symm
    · rename_i hmem
      rw [Set.sdiff_singleton_eq_self hmem, Nat.add_zero]
  have h₁ := hcount s hs
  have h₂ := hcount s' hs'
  rw [hoff] at h₂
  omega

/-! ## The invariant -/

structure MemInv (c : Config) (counted : Nat → Slot → Prop) (dirs : Finset Nat)
    (extra : Nat → Nat) (m : Mem) (l : List Nat) : Prop where
  free : FreeList c m l
  trees : Trees c dirs m l
  dir : ∀ d ∈ dirs, d = c.kernPgdir ∨ c.Allocatable d
  /-- The self-map of `kern_pgdir` is in place. -/
  self : c.kernPgdir ∈ dirs → targetOf (m.ram c.kernPgdir (pdx uvpt)) = some c.kernPgdir
  table : ∀ d ∈ dirs, ∀ i t, tableOf c m d i = some t → c.Allocatable t
  /-- A counted slot names an allocated page that is no directory and no table. -/
  data : ∀ d ∈ dirs, ∀ s p, counted d s → targetOf (entryOf c m d s) = some p →
    c.Allocatable p ∧ p ∉ l ∧ p ∉ dirs ∧ ∀ d' ∈ dirs, ∀ i, tableOf c m d' i ≠ some p
  extra_free : ∀ p ∈ l, extra p = 0
  /-- `pp_ref` is a `uint16_t`. -/
  ref_lt : ∀ p, (m.pages p).ppRef < 2 ^ 16
  refs : ∀ p, c.Allocatable p → p ∉ l → (m.pages p).ppRef =
    (pteRefs c counted dirs m p).ncard + (pdeRefs c dirs m p).ncard + extra p

namespace MemInv

variable {c : Config} {counted : Nat → Slot → Prop} {dirs : Finset Nat} {extra : Nat → Nat}
  {m m' : Mem} {l l' new : List Nat} {d p : Nat}

/-- A free page is named by no entry. -/
theorem pteRefs_of_free (h : MemInv c counted dirs extra m l) (hp : p ∈ l) :
    pteRefs c counted dirs m p = ∅ := by
  refine Set.eq_empty_iff_forall_notMem.mpr fun x hx => ?_
  exact (h.data x.1 hx.1 x.2 p hx.2.1 hx.2.2).2.1 hp

theorem pdeRefs_of_free (h : MemInv c counted dirs extra m l) (hp : p ∈ l) :
    pdeRefs c dirs m p = ∅ := by
  refine Set.eq_empty_iff_forall_notMem.mpr fun x hx => ?_
  exact h.trees.table_used x.1 hx.1 x.2 p hx.2 hp

/-- Only one directory entry names a table. -/
theorem pdeRefs_of_table (h : Trees c dirs m l) (hd : d ∈ dirs) {i : Idx}
    (htable : tableOf c m d i = some p) : pdeRefs c dirs m p = {(d, i)} := by
  ext ⟨d', i'⟩
  constructor
  · rintro ⟨hd', htable'⟩
    obtain ⟨rfl, rfl⟩ := h.table_inj d' hd' d hd i' i p htable' htable
    rfl
  · rintro ⟨⟩
    exact ⟨hd, htable⟩

/-- **Tables are made and uncounted words stored.** -/
theorem edits {I : Finset Idx} {f : (Slot → Nat) → Slot → Nat}
    (h : MemInv c counted dirs extra m l) (hd : d ∈ dirs)
    (he : Edits c dirs d I f m l m' l' new)
    (hf : ∀ s, counted d s → targetOf (f (entryOf c m d) s) = targetOf (entryOf c m d s)) :
    MemInv c counted dirs extra m' l' := by
  have hmem : ∀ q, q ∈ l ↔ q ∈ new ∨ q ∈ l' := fun q => by rw [he.free, List.mem_append]
  have htable : ∀ d' ∈ dirs, ∀ i t, tableOf c m' d' i = some t →
      tableOf c m d' i = some t ∨ t ∈ new := by
    intro d' hd' i t ht
    by_cases hdd : d' = d
    · subst hdd
      exact (he.table_new i t ht).imp_right And.right
    · rw [he.table_other d' hd' hdd] at ht
      exact Or.inl ht
  have htarget : ∀ d' ∈ dirs, ∀ s, counted d' s →
      targetOf (entryOf c m' d' s) = targetOf (entryOf c m d' s) := by
    intro d' hd' s hs
    by_cases hdd : d' = d
    · subst hdd
      rw [he.entry]
      exact hf s hs
    · rw [he.entry_other d' hd' hdd]
  have hnum := h.free.num
  have hlen := h.free.length_lt
  have hsplit := congrArg List.length he.free
  rw [List.length_append] at hsplit
  refine ⟨⟨he.trees.chain, ?_, ?_, ?_, ?_⟩, he.trees, h.dir, ?_, ?_, ?_, ?_, ?_, ?_⟩
  · have hnew := he.num (by omega) (by omega)
    omega
  · exact fun q hq => h.free.alloc q ((hmem q).mpr (Or.inr hq))
  · intro q hq
    have hnot : q ∉ new := fun hn => he.new_notMem h.trees.chain.nodup hn hq
    rw [he.pages q hnot]
    exact h.free.ref q ((hmem q).mpr (Or.inr hq))
  · intro q hq hql
    by_cases hn : q ∈ new
    · rw [Mem.link, he.pages_new q hn]
    · rw [Mem.link, he.pages q hn]
      exact h.free.used q hq fun hmemq => hql (((hmem q).mp hmemq).resolve_left hn)
  · intro hkern
    rw [he.self hkern]
    exact h.self hkern
  · intro d' hd' i t ht
    rcases htable d' hd' i t ht with hold | hn
    · exact h.table d' hd' i t hold
    · exact h.free.alloc t ((hmem t).mpr (Or.inl hn))
  · intro d' hd' s q hs hq
    obtain ⟨halloc, hql, hqd, hqt⟩ := h.data d' hd' s q hs ((htarget d' hd' s hs).symm.trans hq)
    refine ⟨halloc, fun hmemq => hql ((hmem q).mpr (Or.inr hmemq)), hqd, fun d'' hd'' i ht => ?_⟩
    rcases htable d'' hd'' i q ht with hold | hn
    · exact hqt d'' hd'' i hold
    · exact hql ((hmem q).mpr (Or.inl hn))
  · exact fun q hq => h.extra_free q ((hmem q).mpr (Or.inr hq))
  · intro q
    by_cases hn : q ∈ new
    · rw [he.pages_new q hn]
      exact Nat.mod_lt _ (by decide)
    · rw [he.pages q hn]
      exact h.ref_lt q
  · intro q hq hql
    rw [pteRefs_congr htarget]
    by_cases hn : q ∈ new
    · -- a new table: it was free, and one entry names it now
      have hfree : q ∈ l := (hmem q).mpr (Or.inl hn)
      obtain ⟨i, hti⟩ := he.new_table q hn
      rw [he.pages_new q hn, h.free.ref q hfree, h.pteRefs_of_free hfree,
        pdeRefs_of_table he.trees hd hti, h.extra_free q hfree, Set.ncard_empty,
        Set.ncard_singleton]
      rfl
    · have hpde : pdeRefs c dirs m' q = pdeRefs c dirs m q := by
        ext ⟨d', i⟩
        constructor
        · rintro ⟨hd', ht⟩
          exact ⟨hd', (htable d' hd' i q ht).resolve_right hn⟩
        · rintro ⟨hd', ht⟩
          refine ⟨hd', ?_⟩
          by_cases hdd : d' = d
          · subst hdd
            exact he.table_mono i q ht
          · exact (he.table_other d' hd' hdd).symm ▸ ht
      rw [he.pages q hn, hpde]
      exact h.refs q hq fun hmemq => hql (((hmem q).mp hmemq).resolve_left hn)

/-- An allocated page with a `pp_ref` of zero is named by nothing. -/
theorem unreferenced (h : MemInv c counted dirs extra m l) (hp : c.Allocatable p) (hpl : p ∉ l)
    (href : (m.pages p).ppRef = 0) :
    pteRefs c counted dirs m p = ∅ ∧ pdeRefs c dirs m p = ∅ ∧ extra p = 0 := by
  have hsum := h.refs p hp hpl
  rw [href] at hsum
  refine ⟨?_, ?_, by omega⟩
  · exact (Set.ncard_eq_zero pteRefs_finite).mp (by omega)
  · exact (Set.ncard_eq_zero pdeRefs_finite).mp (by omega)

/-- **Pages leave or join the free list**, and the directories say what they said. -/
theorem refree (h : MemInv c counted dirs extra m l) (hfree : FreeList c m' l')
    (hdir : ∀ d ∈ dirs, m'.ram d = m.ram d)
    (htable : ∀ d ∈ dirs, ∀ i t, tableOf c m d i = some t → m'.ram t = m.ram t)
    (hjoin : ∀ q ∈ l', q ∉ l → q ∉ dirs ∧ (m.pages q).ppRef = 0)
    (href : ∀ q, (m'.pages q).ppRef = (m.pages q).ppRef) :
    MemInv c counted dirs extra m' l' := by
  have htables : ∀ d ∈ dirs, tableOf c m' d = tableOf c m d := fun d hd => tableOf_congr (hdir d hd)
  have hentries : ∀ d ∈ dirs, entryOf c m' d = entryOf c m d := fun d hd =>
    entryOf_congr (hdir d hd) (htable d hd)
  -- what joins the list is named by nothing
  have hnone : ∀ q ∈ l', q ∉ l → pteRefs c counted dirs m q = ∅ ∧ pdeRefs c dirs m q = ∅ ∧
      extra q = 0 := fun q hq hql =>
    h.unreferenced (hfree.alloc q hq) hql (hjoin q hq hql).2
  have htable_used : ∀ d ∈ dirs, ∀ i t, tableOf c m d i = some t → t ∉ l' := by
    intro d hd i t ht hmem
    by_cases htl : t ∈ l
    · exact h.trees.table_used d hd i t ht htl
    · exact Set.eq_empty_iff_forall_notMem.mp (hnone t hmem htl).2.1 (d, i) ⟨hd, ht⟩
  refine ⟨hfree, ⟨hfree.chain, fun q hq => (hfree.alloc q hq).lt, ?_, ?_, ?_, ?_, ?_⟩, h.dir, ?_, ?_,
    ?_, ?_, ?_, ?_⟩
  · intro d hd hmem
    by_cases hdl : d ∈ l
    · exact h.trees.dir_used d hd hdl
    · exact (hjoin d hmem hdl).1 hd
  · exact fun d hd i t ht => h.trees.table_lt d hd i t (htables d hd ▸ ht)
  · exact fun d hd i t ht => htable_used d hd i t (htables d hd ▸ ht)
  · exact fun d hd i t ht => h.trees.table_dir d hd i t (htables d hd ▸ ht)
  · exact fun d hd d' hd' i i' t ht ht' =>
      h.trees.table_inj d hd d' hd' i i' t (htables d hd ▸ ht) (htables d' hd' ▸ ht')
  · intro hkern
    rw [hdir _ hkern]
    exact h.self hkern
  · exact fun d hd i t ht => h.table d hd i t (htables d hd ▸ ht)
  · intro d hd s q hs hq
    rw [hentries d hd] at hq
    obtain ⟨halloc, hql, hqd, hqt⟩ := h.data d hd s q hs hq
    refine ⟨halloc, fun hmem => ?_, hqd, fun d' hd' i ht => hqt d' hd' i (htables d' hd' ▸ ht)⟩
    exact Set.eq_empty_iff_forall_notMem.mp (hnone q hmem hql).1 (d, s) ⟨hd, hs, hq⟩
  · intro q hq
    by_cases hql : q ∈ l
    · exact h.extra_free q hql
    · exact (hnone q hq hql).2.2
  · intro q
    rw [href]
    exact h.ref_lt q
  · intro q hq _
    have hpte : pteRefs c counted dirs m' q = pteRefs c counted dirs m q :=
      pteRefs_congr (fun d hd s _ => congrArg targetOf (congrFun (hentries d hd) s)) q
    rw [href, hpte, pdeRefs_congr htables]
    by_cases hql : q ∈ l
    · rw [h.free.ref q hql, h.pteRefs_of_free hql, h.pdeRefs_of_free hql, h.extra_free q hql,
        Set.ncard_empty, Set.ncard_empty]
    · exact h.refs q hq hql

theorem take (h : MemInv c counted dirs extra m (p :: l)) (zero : Bool) :
    MemInv c counted dirs extra (m.take zero p) l := by
  refine h.refree (h.free.take zero) (fun d hd => Mem.take_ram_other m zero ?_)
    (fun d hd i t ht => Mem.take_ram_other m zero ?_)
    (fun q hq hql => absurd (List.mem_cons_of_mem p hq) hql) (Mem.take_ref m zero p)
  · rintro rfl
    exact h.trees.dir_used d hd List.mem_cons_self
  · rintro rfl
    exact h.trees.table_used d hd i t ht List.mem_cons_self

theorem give (h : MemInv c counted dirs extra m l) (hp : c.Allocatable p) (hpl : p ∉ l)
    (hdir : p ∉ dirs) (href : (m.pages p).ppRef = 0) :
    MemInv c counted dirs extra (m.give p) (p :: l) := by
  refine h.refree (h.free.give hp hpl href) (fun _ _ => rfl) (fun _ _ _ _ _ => rfl)
    (fun q hq hql => ?_) (Mem.give_ref m p)
  obtain rfl := (List.mem_cons.mp hq).resolve_right hql
  exact ⟨hdir, href⟩

/-- **A counted slot is redirected**, and the counts are adjusted. -/
theorem remap {s : Slot} {t w : Nat} (h : MemInv c counted dirs extra m l) (hd : d ∈ dirs)
    (hs : counted d s) (htable : tableOf c m d s.1 = some t)
    (hram : m'.ram = (m.store ⟨t, s.2⟩ w).ram) (hlink : m'.link = m.link)
    (hhead : m'.pageFreeList = m.pageFreeList) (hnum : m'.numFreePages = m.numFreePages)
    (hdata : ∀ q, targetOf w = some q →
      c.Allocatable q ∧ q ∉ l ∧ q ∉ dirs ∧ ∀ d' ∈ dirs, ∀ i, tableOf c m d' i ≠ some q)
    (hlt : ∀ q, (m'.pages q).ppRef < 2 ^ 16)
    (href : ∀ q, (m'.pages q).ppRef + (if targetOf (entryOf c m d s) = some q then 1 else 0) =
      (m.pages q).ppRef + if targetOf w = some q then 1 else 0) :
    MemInv c counted dirs extra m' l := by
  have htables : ∀ d' ∈ dirs, tableOf c m' d' = tableOf c m d' := by
    intro d' hd'
    rw [tableOf_of_ram hram]
    exact tableOf_store h.trees hd htable w hd'
  have hentry : ∀ d' ∈ dirs, ∀ s', (d', s') ≠ (d, s) → entryOf c m' d' s' = entryOf c m d' s' := by
    intro d' hd' s' hne
    rw [entryOf_of_ram hram]
    by_cases hdd : d' = d
    · subst hdd
      have hss : s' ≠ s := fun heq => hne (heq ▸ rfl)
      rw [entryOf_store_same h.trees hd htable, Function.update_of_ne hss]
    · rw [entryOf_store_other h.trees hd htable w hd' hdd]
  have hhere : entryOf c m' d s = w := by
    rw [entryOf_of_ram hram, entryOf_store_same h.trees hd htable, Function.update_self]
  have hfree : FreeList c m' l := by
    refine ⟨hlink ▸ hhead ▸ h.free.chain, hnum ▸ h.free.num, h.free.alloc, fun q hq => ?_,
      fun q hq hql => hlink ▸ h.free.used q hq hql⟩
    have hold : targetOf (entryOf c m d s) ≠ some q := fun heq => (h.data d hd s q hs heq).2.1 hq
    have hnew : targetOf w ≠ some q := fun heq => (hdata q heq).2.1 hq
    have hsame := href q
    rw [if_neg hold, if_neg hnew] at hsame
    have hzero := h.free.ref q hq
    omega
  refine ⟨hfree, h.trees.of_tables hlink hhead htables, h.dir, ?_, ?_, ?_, h.extra_free, hlt, ?_⟩
  · intro hkern
    have hkt : c.kernPgdir ≠ t := fun heq => h.trees.table_dir d hd s.1 t htable (heq ▸ hkern)
    rw [hram, Mem.store_ram_other m ⟨t, s.2⟩ w hkt]
    exact h.self hkern
  · exact fun d' hd' i t' ht => h.table d' hd' i t' (htables d' hd' ▸ ht)
  · intro d' hd' s' q hs' hq
    have hq' : c.Allocatable q ∧ q ∉ l ∧ q ∉ dirs ∧ ∀ d'' ∈ dirs, ∀ i,
        tableOf c m d'' i ≠ some q := by
      by_cases hx : (d', s') = (d, s)
      · cases hx
        rw [hhere] at hq
        exact hdata q hq
      · rw [hentry d' hd' s' hx] at hq
        exact h.data d' hd' s' q hs' hq
    exact ⟨hq'.1, hq'.2.1, hq'.2.2.1, fun d'' hd'' i ht => hq'.2.2.2 d'' hd'' i (htables d'' hd'' ▸ ht)⟩
  · intro q hq hql
    classical
    have hoff : ∀ y, y ≠ (d, s) →
        (y ∈ pteRefs c counted dirs m' q ↔ y ∈ pteRefs c counted dirs m q) := by
      intro y hy
      constructor
      · rintro ⟨hyd, hys, hyt⟩
        exact ⟨hyd, hys, hentry y.1 hyd y.2 hy ▸ hyt⟩
      · rintro ⟨hyd, hys, hyt⟩
        exact ⟨hyd, hys, (hentry y.1 hyd y.2 hy).symm ▸ hyt⟩
    have hcount := ncard_off_point pteRefs_finite pteRefs_finite hoff
    have hin : (d, s) ∈ pteRefs c counted dirs m q ↔ targetOf (entryOf c m d s) = some q :=
      ⟨fun hx => hx.2.2, fun hx => ⟨hd, hs, hx⟩⟩
    have hin' : (d, s) ∈ pteRefs c counted dirs m' q ↔ targetOf w = some q :=
      ⟨fun hx => hhere ▸ hx.2.2, fun hx => ⟨hd, hs, hhere.symm ▸ hx⟩⟩
    simp only [hin, hin'] at hcount
    have hold := h.refs q hq hql
    have hq' := href q
    rw [pdeRefs_congr htables]
    omega

/-- **A clear page becomes a directory.** -/
theorem addDir (h : MemInv c counted dirs extra m l) (hp : c.Allocatable p) (hpl : p ∉ l)
    (hdir : p ∉ dirs) (href : (m.pages p).ppRef = 0) (hzero : m.ram p = fun _ => 0) :
    MemInv c counted (insert p dirs) extra m l := by
  obtain ⟨hpte, hpde, -⟩ := h.unreferenced hp hpl href
  rw [Set.eq_empty_iff_forall_notMem] at hpte hpde
  have hkern := hp.ne_kernPgdir
  have hnone : ∀ i, tableOf c m p i = none := fun i => by
    rw [tableOf_eq_none fun hself => hkern hself.1, hzero, present_zero]
  have hentry : ∀ s, targetOf (entryOf c m p s) = none := fun s => by
    rw [entryOf_none (hnone s.1), targetOf_zero]
  -- so a table, or a page that is mapped, belongs to one of the others
  have htable : ∀ d ∈ insert p dirs, ∀ i t, tableOf c m d i = some t → d ∈ dirs := by
    intro d hd i t ht
    rcases Finset.mem_insert.mp hd with rfl | hd
    · rw [hnone] at ht
      cases ht
    · exact hd
  have hmapped : ∀ d ∈ insert p dirs, ∀ s q, targetOf (entryOf c m d s) = some q → d ∈ dirs := by
    intro d hd s q hq
    rcases Finset.mem_insert.mp hd with rfl | hd
    · rw [hentry] at hq
      cases hq
    · exact hd
  refine ⟨h.free, ⟨h.free.chain, h.trees.free_lt, ?_, ?_, ?_, ?_, ?_⟩, ?_, ?_, ?_, ?_, h.extra_free,
    h.ref_lt, ?_⟩
  · intro d hd
    rcases Finset.mem_insert.mp hd with rfl | hd
    · exact hpl
    · exact h.trees.dir_used d hd
  · exact fun d hd i t ht => h.trees.table_lt d (htable d hd i t ht) i t ht
  · exact fun d hd i t ht => h.trees.table_used d (htable d hd i t ht) i t ht
  · intro d hd i t ht hmem
    have hd' := htable d hd i t ht
    rcases Finset.mem_insert.mp hmem with rfl | hmem
    · exact hpde (d, i) ⟨hd', ht⟩
    · exact h.trees.table_dir d hd' i t ht hmem
  · exact fun d hd d' hd' i i' t ht ht' =>
      h.trees.table_inj d (htable d hd i t ht) d' (htable d' hd' i' t ht') i i' t ht ht'
  · intro d hd
    rcases Finset.mem_insert.mp hd with rfl | hd
    · exact Or.inr hp
    · exact h.dir d hd
  · exact fun hmem => h.self ((Finset.mem_insert.mp hmem).resolve_left (Ne.symm hkern))
  · exact fun d hd i t ht => h.table d (htable d hd i t ht) i t ht
  · intro d hd s q hs hq
    have hd' := hmapped d hd s q hq
    obtain ⟨halloc, hql, hqd, hqt⟩ := h.data d hd' s q hs hq
    refine ⟨halloc, hql, fun hmem => ?_, fun d' hd' i ht => hqt d' (htable d' hd' i q ht) i ht⟩
    rcases Finset.mem_insert.mp hmem with rfl | hmem
    · exact hpte (d, s) ⟨hd', hs, hq⟩
    · exact hqd hmem
  · intro q hq hql
    have hpdeq : pdeRefs c (insert p dirs) m q = pdeRefs c dirs m q := by
      ext x
      exact ⟨fun hx => ⟨htable x.1 hx.1 x.2 q hx.2, hx.2⟩,
        fun hx => ⟨Finset.mem_insert_of_mem hx.1, hx.2⟩⟩
    rw [pteRefs_insert fun s _ => hentry s, hpdeq]
    exact h.refs q hq hql

end MemInv

/-- The references of the entries `is` of a directory that is not counted any more. -/
def owing (c : Config) (m : Mem) (d : Nat) (is : List Idx) (p : Nat) : Nat :=
  if ∃ i ∈ is, tableOf c m d i = some p then 1 else 0

namespace MemInv

variable {c : Config} {counted : Nat → Slot → Prop} {dirs : Finset Nat} {extra : Nat → Nat}
  {m m' : Mem} {l l' new : List Nat} {d p : Nat}

/-- **A directory in which no counted slot is mapped stops being one.** -/
theorem dropDir (h : MemInv c counted dirs extra m l) (hd : d ∈ dirs)
    (hclear : ∀ s, counted d s → targetOf (entryOf c m d s) = none) :
    MemInv c counted (dirs.erase d) (fun p => extra p + owing c m d (List.finRange 1024) p) m l := by
  have hsub : ∀ d' ∈ dirs.erase d, d' ∈ dirs := fun d' => Finset.mem_of_mem_erase
  refine ⟨h.free, ⟨h.free.chain, h.trees.free_lt, ?_, ?_, ?_, ?_, ?_⟩, ?_, ?_, ?_, ?_, ?_, h.ref_lt,
    ?_⟩
  · exact fun d' hd' => h.trees.dir_used d' (hsub d' hd')
  · exact fun d' hd' => h.trees.table_lt d' (hsub d' hd')
  · exact fun d' hd' => h.trees.table_used d' (hsub d' hd')
  · exact fun d' hd' i t ht hmem => h.trees.table_dir d' (hsub d' hd') i t ht (hsub t hmem)
  · exact fun d₁ hd₁ d₂ hd₂ => h.trees.table_inj d₁ (hsub d₁ hd₁) d₂ (hsub d₂ hd₂)
  · exact fun d' hd' => h.dir d' (hsub d' hd')
  · exact fun hkern => h.self (hsub _ hkern)
  · exact fun d' hd' => h.table d' (hsub d' hd')
  · intro d' hd' s q hs hq
    obtain ⟨halloc, hql, hqd, hqt⟩ := h.data d' (hsub d' hd') s q hs hq
    exact ⟨halloc, hql, fun hmem => hqd (hsub q hmem), fun d'' hd'' => hqt d'' (hsub d'' hd'')⟩
  · intro q hq
    have hnot : ¬ ∃ i ∈ List.finRange 1024, tableOf c m d i = some q := by
      rintro ⟨i, -, hi⟩
      exact h.trees.table_used d hd i q hi hq
    rw [owing, if_neg hnot, h.extra_free q hq]
  · intro q hq hql
    have hpte : pteRefs c counted dirs m q = pteRefs c counted (dirs.erase d) m q := by
      rw [← Finset.insert_erase hd, pteRefs_insert hclear, Finset.erase_insert_eq_erase,
        Finset.erase_idem]
    have hpde : (pdeRefs c dirs m q).ncard =
        (pdeRefs c (dirs.erase d) m q).ncard + owing c m d (List.finRange 1024) q := by
      rw [owing]
      split
      · rename_i hex
        obtain ⟨i, -, hi⟩ := hex
        have hempty : pdeRefs c (dirs.erase d) m q = ∅ := by
          refine Set.eq_empty_iff_forall_notMem.mpr fun x hx => ?_
          obtain ⟨hxd, hmem⟩ := Finset.mem_erase.mp hx.1
          exact hxd (h.trees.table_inj x.1 hmem d hd x.2 i q hx.2 hi).1
        rw [pdeRefs_of_table h.trees hd hi, hempty, Set.ncard_singleton, Set.ncard_empty]
      · rename_i hnot
        have hsame : pdeRefs c dirs m q = pdeRefs c (dirs.erase d) m q := by
          ext ⟨d', i⟩
          constructor
          · rintro ⟨hd', hi⟩
            refine ⟨Finset.mem_erase.mpr ⟨?_, hd'⟩, hi⟩
            rintro rfl
            exact hnot ⟨i, List.mem_finRange i, hi⟩
          · exact fun hx => ⟨hsub d' hx.1, hx.2⟩
        rw [hsame, Nat.add_zero]
    have hrefs := h.refs q hq hql
    rw [hpte] at hrefs
    omega

end MemInv

/-- It holds when `page_init` is done, whichever slots count. -/
theorem memInv_pageInit (c : Config) (ram : Nat → Idx → Nat) (counted : Nat → Slot → Prop) :
    MemInv c counted {c.kernPgdir} (fun _ => 0) (pageInit c (Mem.cleared c ram)) (initList c) := by
  have hfree := freeList_pageInit c ram
  have htrees := trees_pageInit c ram
  have hnone := tableOf_pageInit c ram
  have href := (pageInit_initList c ram).ref
  have hkern : c.kernPgdir < c.npages := Nat.lt_of_lt_of_le c.kernPgdir_bounds.2 c.first_le
  have hself : (pageInit c (Mem.cleared c ram)).ram c.kernPgdir (pdx uvpt) =
      pteWord (page2pa c.kernPgdir) pteU := by
    rw [pageInit_ram, Mem.cleared]
    simp only [Function.update_self]
    rw [pteWord]
  generalize pageInit c (Mem.cleared c ram) = m at *
  have htable : ∀ d ∈ ({c.kernPgdir} : Finset Nat), ∀ i, tableOf c m d i = none := by
    intro d hd i
    rw [Finset.mem_singleton.mp hd, hnone]
  refine ⟨hfree, htrees, fun d hd => Or.inl (Finset.mem_singleton.mp hd), fun _ => ?_,
    fun d hd i t ht => ?_, fun d hd s q _ hq => ?_, fun _ _ => rfl, fun q => ?_, fun q hq hql => ?_⟩
  · rw [hself]
    exact targetOf_pteWord hkern (by decide)
  · rw [htable d hd] at ht
    cases ht
  · rw [entryOf_none (htable d hd s.1), targetOf_zero] at hq
    cases hq
  · rw [href q]
    decide
  · exact absurd (mem_initList.mpr hq) hql

end Nctuos
