import Nctuos.PageTable

/-!
# Page tables as a finite map

What a page directory is for: a map from virtual page numbers to a physical page and its
permission bits.  `mapOf c m d` is the map that the tree of directory `d` stands for, and
`page_insert` and `page_remove` are an update of it at one page number
(`page_tables_refine_map`).

The update is made only if the page that was mapped there before can be given back
(`GivesBack`): `page_remove` finds it with `pa2page`, which panics for a page beyond
`npages`, and if this was the last reference, hands it to `page_free`, which panics if it
has a `pp_link`.  Otherwise the two functions panic (`pageRemove_not_givesBack`).
Directories that map device memory exist (`lapic_init` makes one), so this is not an idle
condition (`insert_over_device_panics`).

`check_va2pa` and `page_lookup` are two readers of the same map.  They differ on pages
beyond `npages`, which only the first can report.
-/

namespace Nctuos

open Lib

/-! ## The map -/

/-- A virtual page number. -/
abbrev Vpn := Fin (2 ^ 20)

def vpnOf (va : Nat) : Vpn := ⟨pgnum va % 2 ^ 20, Nat.mod_lt _ (by decide)⟩

/-- A virtual page number to a physical page and its permission bits. -/
abbrev PageMap := Vpn → Option (Nat × Nat)

/-- What an entry maps. -/
def decode (w : Nat) : Option (Nat × Nat) :=
  if present w then some (ptePage w, w % pgSize) else none

def mapOf (c : Config) (m : Mem) (d : Nat) : PageMap := fun v =>
  decode (entryOf c m d (slotOf (v * pgSize)))

section Map

variable {c : Config} {m m' : Mem} {d va : Nat} {w : Nat}

theorem decode_pteWord {pp perm : Nat} (hpp : pp < 2 ^ 20) (hperm : perm < 4096) :
    decode (pteWord (page2pa pp) perm) = some (pp, perm ||| pteP) := by
  rw [decode, if_pos (present_pteWord _ _), ptePage_pteWord hpp hperm, pgSize, pteWord_mod hperm]

theorem decode_zero : decode 0 = none := rfl

theorem slotOf_inj (va : Nat) (v : Vpn) : slotOf (v * pgSize) = slotOf va ↔ v = vpnOf va := by
  have hv := v.isLt
  simp only [slotOf_eq_iff, Fin.ext_iff, vpnOf, pgnum_eq, pgSize]
  omega

/-- Two pages of a range that does not go round the address space have different slots. -/
theorem slotOf_range_inj {va j k : Nat} (hj : j < 2 ^ 20) (hk : k < 2 ^ 20)
    (h : slotOf (va + j * pgSize) = slotOf (va + k * pgSize)) : j = k := by
  simp only [slotOf_eq_iff, pgSize] at h
  omega

theorem mapOf_vpnOf (va : Nat) : mapOf c m d (vpnOf va) = decode (entryOf c m d (slotOf va)) := by
  rw [mapOf, (slotOf_inj va (vpnOf va)).mpr rfl]

/-- A word stored at the slot of `va` is an update of the map at its page number. -/
theorem mapOf_update (h : entryOf c m' d = Function.update (entryOf c m d) (slotOf va) w) :
    mapOf c m' d = Function.update (mapOf c m d) (vpnOf va) (decode w) := by
  funext v
  by_cases hv : v = vpnOf va
  · rw [hv, Function.update_self, mapOf_vpnOf, h, Function.update_self]
  · rw [Function.update_of_ne hv, mapOf, mapOf, h,
      Function.update_of_ne (fun heq => hv ((slotOf_inj va v).mp heq))]

theorem vpnOf_ne {va' : Nat} (hva : va < 2 ^ 32) (hva' : va' < 2 ^ 32)
    (h : pgnum va' ≠ pgnum va) : vpnOf va' ≠ vpnOf va := by
  simp only [vpnOf, pgnum_eq, ne_eq, Fin.ext_iff] at h ⊢
  omega

end Map

/-! ## The two readers -/

section Readers

variable {c : Config} {m : Mem} {d va t : Nat}

/-- The page mapped at `va`. -/
def pageAt (c : Config) (m : Mem) (d va : Nat) : Option Nat :=
  (mapOf c m d (vpnOf va)).map Prod.fst

theorem pageAt_of_table (htable : tableOf c m d (pdx va) = some t) :
    pageAt c m d va =
      if present (m.ram t (ptx va)) then some (ptePage (m.ram t (ptx va))) else none := by
  have hentry : entryOf c m d (slotOf va) = m.ram t (ptx va) := entryOf_some htable
  rw [pageAt, mapOf_vpnOf, hentry, decode]
  split <;> rfl

theorem pageAt_of_none (htable : tableOf c m d (pdx va) = none) : pageAt c m d va = none := by
  have hentry : entryOf c m d (slotOf va) = 0 := entryOf_none htable
  rw [pageAt, mapOf_vpnOf, hentry, decode_zero, Option.map_none]

theorem checkVa2pa_eq (hself : ¬ SelfMap c d (pdx va))
    (hlt : ∀ t, tableOf c m d (pdx va) = some t → t < c.npages) :
    checkVa2pa c d va m = .ok ((pageAt c m d va).elim (2 ^ 32 - 1) page2pa) := by
  cases htable : tableOf c m d (pdx va) with
  | none =>
      have habsent := (tableOf_eq_none hself).mp htable
      rw [pageAt_of_none htable, checkVa2pa, if_pos (by simp [habsent])]
      rfl
  | some t =>
      have hpage := hlt t htable
      rw [pageAt_of_table htable]
      obtain ⟨-, hpresent, rfl⟩ := tableOf_eq_some.mp htable
      have hkaddr : kaddr c (pteAddr (m.ram d (pdx va))) = .ok (ptePage (m.ram d (pdx va))) := by
        rw [kaddr, if_neg (by rw [← ptePage]; omega)]
        rfl
      rw [checkVa2pa, if_neg (by simp [hpresent]), hkaddr, ok_bind]
      cases hentry : present (m.ram (ptePage (m.ram d (pdx va))) (ptx va)) with
      | false => simp
      | true => simp [pteAddr_eq_page2pa]

theorem pageLookup_eq (hself : ¬ SelfMap c d (pdx va))
    (hlt : ∀ t, tableOf c m d (pdx va) = some t → t < c.npages) (pteStore : Option PtePtr) :
    (pageLookup c d va pteStore m).map Prod.fst =
      (pageAt c m d va).elim (.ok none) fun p => (pa2page c (page2pa p)).map some := by
  cases htable : tableOf c m d (pdx va) with
  | none =>
      rw [pageLookup, pgdirWalk_absent hself htable, pageAt_of_none htable, ok_bind]
      rfl
  | some t =>
      rw [pageLookup, pgdirWalk_table htable (hlt t htable) false, pageAt_of_table htable, ok_bind]
      cases hentry : present (m.ram t (ptx va)) with
      | false => simp [Mem.load, hentry, Except.map]
      | true =>
          simp only [Mem.load, hentry, not_true_eq_false, if_false, if_true, Option.elim_some,
            ← pteAddr_eq_page2pa]
          cases pa2page c (pteAddr (m.ram t (ptx va))) with
          | error e => rfl
          | ok p => rfl

/-- `page_lookup` of a page that is mapped. -/
theorem pageLookup_page {p : Nat} (htable : tableOf c m d (pdx va) = some t)
    (hlt : t < c.npages) (hpage : pageAt c m d va = some p) (hp : p < c.npages)
    (pteStore : Option PtePtr) :
    pageLookup c d va pteStore m =
      .ok (some p, if pteStore.isSome then some ⟨t, ptx va⟩ else pteStore) := by
  rw [pageAt_of_table htable] at hpage
  split at hpage
  · rename_i hpresent
    have hpa : pa2page c (pteAddr (m.ram t (ptx va))) = .ok p := by
      rw [pteAddr_eq_page2pa, Option.some.inj hpage, pa2page_page2pa hp]
    simp [pageLookup, pgdirWalk_table htable hlt false, Mem.load, hpresent, hpa]
  · cases hpage

/-- What `page_lookup` leaves in a `pte_store` that held a pointer. -/
theorem pageLookup_some {p : Nat} (htable : tableOf c m d (pdx va) = some t)
    (hlt : t < c.npages) (hpage : pageAt c m d va = some p) (hp : p < c.npages)
    {pteStore : Option PtePtr} (hstore : pteStore.isSome) :
    pageLookup c d va pteStore m = .ok (some p, some ⟨t, ptx va⟩) := by
  rw [pageLookup_page htable hlt hpage hp, if_pos hstore]

theorem pageLookup_none (hself : ¬ SelfMap c d (pdx va))
    (hlt : ∀ t, tableOf c m d (pdx va) = some t → t < c.npages)
    (hpage : pageAt c m d va = none) (pteStore : Option PtePtr) :
    pageLookup c d va pteStore m = .ok (none, pteStore) := by
  cases htable : tableOf c m d (pdx va) with
  | none => simp [pageLookup, pgdirWalk_absent hself htable]
  | some t =>
      rw [pageAt_of_table htable] at hpage
      split at hpage
      · cases hpage
      · rename_i hpresent
        simp [pageLookup, pgdirWalk_table htable (hlt t htable) false, Mem.load, hpresent]

end Readers

/-! ## `page_decref`, `page_remove`, `page_insert` -/

section Ops

variable {c : Config} {m m₁ m₂ : Mem} {d va t p pp perm : Nat} {local₀ : Option PtePtr}

theorem tableOf_of_ram {m' : Mem} (h : m'.ram = m.ram) : tableOf c m' = tableOf c m := by
  funext d
  exact tableOf_congr (congrFun h d)

theorem entryOf_of_ram {m' : Mem} (h : m'.ram = m.ram) : entryOf c m' = entryOf c m := by
  funext d
  exact entryOf_congr (congrFun h d) fun _ t _ => congrFun h t

theorem store_ram_congr {m' : Mem} (h : m'.ram = m.ram) (a : PtePtr) (w : Nat) :
    (m'.store a w).ram = (m.store a w).ram := by
  simp only [Mem.store, h]

theorem store_store_ram (m : Mem) (a : PtePtr) (w w' : Nat) :
    ((m.store a w).store a w').ram = (m.store a w').ram := by
  simp [Mem.store]

/-- `page_decref` reaches `page_free` with the last reference. -/
theorem decref_eq_zero_iff :
    ((m.pages p).ppRef + (2 ^ 16 - 1)) % 2 ^ 16 = 0 ↔ (m.pages p).ppRef % 2 ^ 16 = 1 := by
  omega

/-- The contents of memory stay. -/
theorem pageDecref_ram (hlink : (m.pages p).ppRef % 2 ^ 16 = 1 → m.link p = none) :
    ∃ m', pageDecref p m = .ok m' ∧ m'.ram = m.ram := by
  rw [pageDecref]
  split
  · rename_i hzero
    have hlast : (m.pages p).ppRef % 2 ^ 16 = 1 :=
      decref_eq_zero_iff.mp (by simpa [Mem.modPage] using hzero)
    refine ⟨_, pageFree_eq hzero ?_, rfl⟩
    simpa [Mem.link, Mem.modPage] using hlink hlast
  · exact ⟨_, rfl, rfl⟩

theorem pageDecref_panics (hlast : (m.pages p).ppRef % 2 ^ 16 = 1) (hlink : m.link p ≠ none) :
    pageDecref p m = .error (.panic "page_free: pp_link is not NULL") := by
  have hzero := decref_eq_zero_iff.mpr hlast
  rw [pageDecref]
  simp only [Mem.modPage, Function.update_self, hzero, if_true, pageFree, ne_eq, not_true_eq_false,
    if_false]
  exact if_pos hlink

theorem pageRemove_mapped (htable : tableOf c m d (pdx va) = some t) (hlt : t < c.npages)
    (hpage : pageAt c m d va = some p) (hp : p < c.npages) (hlocal : local₀.isSome)
    (hdecref : pageDecref p m = .ok m₁) :
    pageRemove c local₀ d va m = .ok ((m₁.store ⟨t, ptx va⟩ 0).tlbInvalidate va) := by
  rw [pageRemove, pageLookup_some htable hlt hpage hp hlocal, ok_bind]
  simp only [hdecref, ok_bind]

/-- If the local of `page_remove` happens to hold NULL, it is still NULL when the entry is to be
cleared. -/
theorem pageRemove_null {m' : Mem} (htable : tableOf c m d (pdx va) = some t) (hlt : t < c.npages)
    (hpage : pageAt c m d va = some p) (hp : p < c.npages) :
    pageRemove c none d va m ≠ .ok m' := by
  have hlookup : pageLookup c d va none m = .ok (some p, none) :=
    pageLookup_page htable hlt hpage hp none
  rw [pageRemove, hlookup, ok_bind]
  intro h
  rw [bind_ok_iff] at h
  obtain ⟨m₁, -, h⟩ := h
  cases h

theorem pageRemove_unmapped (hself : ¬ SelfMap c d (pdx va))
    (hlt : ∀ t, tableOf c m d (pdx va) = some t → t < c.npages)
    (hpage : pageAt c m d va = none) : pageRemove c local₀ d va m = .ok m := by
  rw [pageRemove, pageLookup_none hself hlt hpage, ok_bind]

/-- The test `PTE_ADDR(*pte) == page2pa(pp)` of `page_insert`. -/
theorem pageAt_eq_some_iff (htable : tableOf c m d (pdx va) = some t) :
    (present (m.load ⟨t, ptx va⟩) = true ∧ pteAddr (m.load ⟨t, ptx va⟩) = page2pa pp) ↔
      pageAt c m d va = some pp := by
  rw [pageAt_of_table htable, Mem.load, pteAddr_eq_page2pa, page2pa_eq, page2pa_eq]
  cases hpresent : present (m.ram t (ptx va)) with
  | false => simp
  | true => simp

section Insert

variable (hwalk : pgdirWalk c d va true m = .ok (some ⟨t, ptx va⟩, m₁))
  (htable : tableOf c m₁ d (pdx va) = some t)

include hwalk htable

theorem pageInsert_same (hpage : pageAt c m₁ d va = some pp) :
    pageInsert c local₀ d pp va perm m =
      .ok (0, m₁.store ⟨t, ptx va⟩ (pteWord (page2pa pp) perm)) := by
  rw [pageInsert, hwalk, ok_bind]
  exact if_pos ((pageAt_eq_some_iff htable).mpr hpage)

theorem pageInsert_fresh (hpage : pageAt c m₁ d va = none) :
    pageInsert c local₀ d pp va perm m =
      .ok (0, ((incref pp m₁).tlbInvalidate va).store ⟨t, ptx va⟩
        (pteWord (page2pa pp) perm)) := by
  have hsame : ¬ (present (m₁.load ⟨t, ptx va⟩) = true ∧
      pteAddr (m₁.load ⟨t, ptx va⟩) = page2pa pp) := by
    rw [pageAt_eq_some_iff htable, hpage]
    exact nofun
  have habsent : ¬ present (m₁.load ⟨t, ptx va⟩) = true := by
    rw [pageAt_of_table htable] at hpage
    intro (hpresent : present (m₁.ram t (ptx va)) = true)
    rw [if_pos hpresent] at hpage
    cases hpage
  rw [pageInsert, hwalk, ok_bind]
  simp only [if_neg hsame, if_neg habsent, ok_bind]

theorem pageInsert_replace (hpage : pageAt c m₁ d va = some p) (hne : p ≠ pp)
    (hremove : pageRemove c local₀ d va m₁ = .ok m₂) :
    pageInsert c local₀ d pp va perm m =
      .ok (0, ((incref pp m₂).tlbInvalidate va).store ⟨t, ptx va⟩
        (pteWord (page2pa pp) perm)) := by
  have hsame : ¬ (present (m₁.load ⟨t, ptx va⟩) = true ∧
      pteAddr (m₁.load ⟨t, ptx va⟩) = page2pa pp) := by
    rw [pageAt_eq_some_iff htable, hpage]
    exact fun heq => hne (Option.some.inj heq)
  have hpresent : present (m₁.load ⟨t, ptx va⟩) = true :=
    ((pageAt_eq_some_iff htable).mpr hpage).1
  rw [pageInsert, hwalk, ok_bind]
  simp only [if_neg hsame, if_pos hpresent, hremove, ok_bind]

end Insert

/-- Where the old page cannot be removed, there is no new one. -/
theorem pageInsert_error {why : Stop} (htable : tableOf c m d (pdx va) = some t)
    (hlt : t < c.npages) (hpage : pageAt c m d va = some p) (hne : p ≠ pp)
    (hremove : pageRemove c local₀ d va m = .error why) :
    pageInsert c local₀ d pp va perm m = .error why := by
  have hsame : ¬ (present (m.load ⟨t, ptx va⟩) = true ∧
      pteAddr (m.load ⟨t, ptx va⟩) = page2pa pp) := by
    rw [pageAt_eq_some_iff htable, hpage]
    exact fun heq => hne (Option.some.inj heq)
  have hpresent : present (m.load ⟨t, ptx va⟩) = true :=
    ((pageAt_eq_some_iff htable).mpr hpage).1
  rw [pageInsert, pgdirWalk_table htable hlt true, ok_bind]
  simp only [if_neg hsame, if_pos hpresent, hremove, error_bind]

/-- A page beyond `npages` cannot be named. -/
theorem pageLookup_device (local₀ : Option PtePtr) (htable : tableOf c m d (pdx va) = some t)
    (hlt : t < c.npages) (hpage : pageAt c m d va = some p) (hp : c.npages ≤ p) :
    pageLookup c d va local₀ m = .error (.panic "pa2page called with invalid pa") := by
  have hpresent : present (m.load ⟨t, ptx va⟩) = true ∧ pteAddr (m.load ⟨t, ptx va⟩) = page2pa p :=
    (pageAt_eq_some_iff htable).mpr hpage
  have hpanic : pa2page c (page2pa p) = .error (.panic "pa2page called with invalid pa") := by
    rw [pa2page, pgnum_page2pa, if_pos hp]
  rw [pageLookup, pgdirWalk_table htable hlt false, ok_bind]
  simp only [hpresent.1, not_true_eq_false, if_false, hpresent.2, hpanic, error_bind]

end Ops

/-! ## Giving a page back -/

/-- A mapped page can be given back: `pa2page` finds it, and if this is the last reference to it,
`page_free` finds no `pp_link`. -/
def GivesBack (c : Config) (m : Mem) (p : Nat) : Prop :=
  p < c.npages ∧ ((m.pages p).ppRef % 2 ^ 16 = 1 → m.link p = none)

/-- Any other page makes `page_remove` panic. -/
theorem pageRemove_not_givesBack {c : Config} {m : Mem} {d va t p : Nat} (local₀ : Option PtePtr)
    (htable : tableOf c m d (pdx va) = some t) (hlt : t < c.npages)
    (hpage : pageAt c m d va = some p) (hnot : ¬ GivesBack c m p) :
    ∃ msg, pageRemove c local₀ d va m = .error (.panic msg) := by
  by_cases hp : p < c.npages
  · have hlast : (m.pages p).ppRef % 2 ^ 16 = 1 ∧ m.link p ≠ none := by
      rw [← Classical.not_imp]
      exact fun hlink => hnot ⟨hp, hlink⟩
    refine ⟨"page_free: pp_link is not NULL", ?_⟩
    rw [pageRemove, pageLookup_page htable hlt hpage hp local₀, ok_bind]
    simp only [pageDecref_panics hlast.1 hlast.2, error_bind]
  · refine ⟨"pa2page called with invalid pa", ?_⟩
    rw [pageRemove, pageLookup_device local₀ htable hlt hpage (Nat.le_of_not_lt hp), error_bind]

/-! ## Refinement -/

/-- The map of directory `d` is updated at the page of `va`, and nothing else is seen to
change: not by `check_va2pa`, nor by `page_lookup`, which agree where they both answer. -/
structure Refines (c : Config) (dirs : Finset Nat) (d va : Nat) (entry : Option (Nat × Nat))
    (m m' : Mem) : Prop where
  here : mapOf c m' d = Function.update (mapOf c m d) (vpnOf va) entry
  elsewhere : ∀ d' ∈ dirs, d' ≠ d → mapOf c m' d' = mapOf c m d'
  va2pa : ∀ d' ∈ dirs, ∀ va' < 2 ^ 32, ¬ SelfMap c d' (pdx va') →
    d' ≠ d ∨ pgnum va' ≠ pgnum va → checkVa2pa c d' va' m' = checkVa2pa c d' va' m
  lookup : ∀ d' ∈ dirs, ∀ va' < 2 ^ 32, ¬ SelfMap c d' (pdx va') →
    d' ≠ d ∨ pgnum va' ≠ pgnum va → ∀ pteStore,
      (pageLookup c d' va' pteStore m').map Prod.fst =
        (pageLookup c d' va' pteStore m).map Prod.fst
  agree : ∀ d' ∈ dirs, ∀ va' < 2 ^ 32, ¬ SelfMap c d' (pdx va') →
    (∀ p, pageAt c m' d' va' = some p → p < c.npages) → ∀ pteStore, ∃ r,
      (pageLookup c d' va' pteStore m').map Prod.fst = .ok r ∧
        checkVa2pa c d' va' m' = .ok (r.elim (2 ^ 32 - 1) page2pa)

section Refine

variable {c : Config} {dirs : Finset Nat} {m m' : Mem} {l : List Nat} {d va : Nat}

/-- The readers see the maps only, so an update of the maps is all there is to show. -/
theorem Refines.of_maps {entry : Option (Nat × Nat)} (hva : va < 2 ^ 32)
    (hlt : ∀ d' ∈ dirs, ∀ i t, tableOf c m d' i = some t → t < c.npages)
    (hlt' : ∀ d' ∈ dirs, ∀ i t, tableOf c m' d' i = some t → t < c.npages)
    (here : mapOf c m' d = Function.update (mapOf c m d) (vpnOf va) entry)
    (elsewhere : ∀ d' ∈ dirs, d' ≠ d → mapOf c m' d' = mapOf c m d') :
    Refines c dirs d va entry m m' := by
  have hpage : ∀ d' ∈ dirs, ∀ va' < 2 ^ 32, d' ≠ d ∨ pgnum va' ≠ pgnum va →
      pageAt c m' d' va' = pageAt c m d' va' := by
    intro d' hd' va' hva' hne
    rw [pageAt, pageAt]
    by_cases hdd : d' = d
    · subst hdd
      rw [here, Function.update_of_ne
        (vpnOf_ne hva hva' (hne.resolve_left (fun hn => hn rfl)))]
    · rw [elsewhere d' hd' hdd]
  refine ⟨here, elsewhere, ?_, ?_, ?_⟩
  · intro d' hd' va' hva' hself hne
    rw [checkVa2pa_eq hself (hlt' d' hd' _), checkVa2pa_eq hself (hlt d' hd' _),
      hpage d' hd' va' hva' hne]
  · intro d' hd' va' hva' hself hne pteStore
    rw [pageLookup_eq hself (hlt' d' hd' _), pageLookup_eq hself (hlt d' hd' _),
      hpage d' hd' va' hva' hne]
  · intro d' hd' va' _ hself hmapped pteStore
    rw [pageLookup_eq hself (hlt' d' hd' _), checkVa2pa_eq hself (hlt' d' hd' _)]
    cases hat : pageAt c m' d' va' with
    | none => exact ⟨none, rfl, rfl⟩
    | some p =>
        refine ⟨some p, ?_, rfl⟩
        rw [Option.elim_some, pa2page_page2pa (hmapped p hat)]
        rfl

/-- A store at the slot of `va`, behind whatever else was done to make room for it: the
tables are those of the memory between, and one entry is new. -/
theorem Edits.read_store {m₁ : Mem} {l₁ new : List Nat} {I : Finset Idx} {t w : Nat} (hd : d ∈ dirs)
    (hedits : Edits c dirs d I id m l m₁ l₁ new) (htable : tableOf c m₁ d (pdx va) = some t)
    (hram : m'.ram = (m₁.store ⟨t, ptx va⟩ w).ram) :
    (∀ d' ∈ dirs, tableOf c m' d' = tableOf c m₁ d') ∧
      entryOf c m' d = Function.update (entryOf c m d) (slotOf va) w ∧
      ∀ d' ∈ dirs, d' ≠ d → entryOf c m' d' = entryOf c m d' := by
  have htable' : tableOf c m₁ d (slotOf va).1 = some t := htable
  refine ⟨fun d' hd' => ?_, ?_, fun d' hd' hne => ?_⟩
  · rw [tableOf_of_ram hram]
    exact tableOf_store hedits.trees hd htable' w hd'
  · rw [entryOf_of_ram hram]
    exact (entryOf_store_same hedits.trees hd htable' w).trans (by rw [hedits.entry]; rfl)
  · rw [entryOf_of_ram hram]
    exact (entryOf_store_other hedits.trees hd htable' w hd' hne).trans
      (hedits.entry_other d' hd' hne)

theorem Refines.of_store {m₁ : Mem} {l₁ new : List Nat} {I : Finset Idx} {t w : Nat}
    (hva : va < 2 ^ 32) (h : Trees c dirs m l) (hd : d ∈ dirs)
    (hedits : Edits c dirs d I id m l m₁ l₁ new) (htable : tableOf c m₁ d (pdx va) = some t)
    (hram : m'.ram = (m₁.store ⟨t, ptx va⟩ w).ram) :
    Refines c dirs d va (decode w) m m' := by
  obtain ⟨htables, hhere, hother⟩ := hedits.read_store hd htable hram
  refine .of_maps hva h.table_lt (fun d' hd' i t' ht' => ?_) (mapOf_update hhere)
    fun d' hd' hne => ?_
  · rw [htables d' hd'] at ht'
    exact hedits.trees.table_lt d' hd' i t' ht'
  · funext v
    rw [mapOf, mapOf, hother d' hd' hne]

theorem Refines.refl (hva : va < 2 ^ 32) (h : Trees c dirs m l)
    (hnone : mapOf c m d (vpnOf va) = none) : Refines c dirs d va none m m := by
  refine .of_maps hva h.table_lt h.table_lt ?_ fun _ _ _ => rfl
  rw [← hnone, Function.update_eq_self]

variable {local₀ : Option PtePtr}

theorem pageRemove_refines (h : Trees c dirs m l) (hd : d ∈ dirs) (hva : va < 2 ^ 32)
    (hself : ¬ SelfMap c d (pdx va)) (hlocal : local₀.isSome)
    (hold : ∀ p, pageAt c m d va = some p → GivesBack c m p) :
    ∃ m', pageRemove c local₀ d va m = .ok m' ∧ Refines c dirs d va none m m' := by
  have hlt := h.table_lt d hd (pdx va)
  cases hat : pageAt c m d va with
  | none =>
      exact ⟨m, pageRemove_unmapped hself hlt hat, .refl hva h (Option.map_eq_none_iff.mp hat)⟩
  | some p =>
      obtain ⟨hp, hlink⟩ := hold p hat
      cases htable : tableOf c m d (pdx va) with
      | none =>
          rw [pageAt_of_none htable] at hat
          cases hat
      | some t =>
          obtain ⟨m₁, hdecref, hram⟩ := pageDecref_ram hlink
          refine ⟨_, pageRemove_mapped htable (hlt t htable) hat hp hlocal hdecref, ?_⟩
          exact .of_store hva h hd (Edits.refl h) htable (w := 0) (store_ram_congr hram _ _)

theorem pageInsert_refines (pp perm : Nat) (h : Trees c dirs m l) (hd : d ∈ dirs)
    (hva : va < 2 ^ 32) (hself : ¬ SelfMap c d (pdx va)) (hlocal : local₀.isSome)
    (hold : ∀ p, pageAt c m d va = some p → p ≠ pp → GivesBack c m p)
    (hroom : ¬ (tableOf c m d (pdx va) = none ∧ m.pageFreeList = none)) :
    ∃ m', pageInsert c local₀ d pp va perm m = .ok (0, m') ∧
      entryOf c m' d (slotOf va) = pteWord (page2pa pp) perm ∧
      Refines c dirs d va (decode (pteWord (page2pa pp) perm)) m m' := by
  rcases pgdirWalk_edits h hd hself with ⟨hnone, rfl, -⟩ | ⟨t, m₁, l₁, new, hwalk, htable, hedits⟩
  · exact absurd ⟨hnone, h.chain.head_eq⟩ hroom
  · -- whatever happens to the old page, the contents of memory change at this slot only
    suffices hram : ∃ m', pageInsert c local₀ d pp va perm m = .ok (0, m') ∧
        m'.ram = (m₁.store ⟨t, ptx va⟩ (pteWord (page2pa pp) perm)).ram by
      obtain ⟨m', hinsert, hram⟩ := hram
      refine ⟨m', hinsert, ?_, .of_store hva h hd hedits htable hram⟩
      rw [(hedits.read_store hd htable hram).2.1, Function.update_self]
    have hlt₁ := hedits.trees.table_lt d hd (pdx va) t htable
    have hat₁ : pageAt c m₁ d va = pageAt c m d va := by
      rw [pageAt, pageAt, mapOf, mapOf, hedits.entry]
      rfl
    cases hat : pageAt c m d va with
    | none =>
        exact ⟨_, pageInsert_fresh hwalk htable (hat₁.trans hat), rfl⟩
    | some p =>
        by_cases hpp : p = pp
        · subst hpp
          exact ⟨_, pageInsert_same hwalk htable (hat₁.trans hat), rfl⟩
        · obtain ⟨hp, hlink⟩ := hold p hat hpp
          have hlink₁ : (m₁.pages p).ppRef % 2 ^ 16 = 1 → m₁.link p = none := by
            by_cases hnew : p ∈ new
            · rw [Mem.link, hedits.pages_new p hnew]
              exact fun _ => rfl
            · rw [Mem.link, hedits.pages p hnew]
              exact hlink
          obtain ⟨m₂, hdecref, hram⟩ := pageDecref_ram hlink₁
          have hremove := pageRemove_mapped htable hlt₁ (hat₁.trans hat) hp hlocal hdecref
          refine ⟨_, pageInsert_replace hwalk htable (hat₁.trans hat) hpp hremove, ?_⟩
          refine (store_ram_congr (m := m₁.store ⟨t, ptx va⟩ 0) ?_ _ _).trans
            (store_store_ram _ _ _ _)
          exact store_ram_congr hram _ _

/-- **The page tables refine a finite map.**  `page_insert` is an update at the page of
`va` and `page_remove` an erasure, when another page that is mapped there can be given
back; `page_insert` fails exactly when it would need a page for a table and there is none,
and then it leaves the memory as it was.  A page that cannot be given back makes both of
them panic. -/
theorem page_tables_refine_map (h : Trees c dirs m l) (hd : d ∈ dirs) (hva : va < 2 ^ 32)
    (hself : ¬ SelfMap c d (pdx va)) (hlocal : local₀.isSome) :
    (∀ pp perm, pp < c.npages → perm < 4096 →
      (tableOf c m d (pdx va) = none ∧ m.pageFreeList = none ∧
        pageInsert c local₀ d pp va perm m = .ok (-eNoMem, m)) ∨
      (¬ (tableOf c m d (pdx va) = none ∧ m.pageFreeList = none) ∧
        ((∀ p, pageAt c m d va = some p → p ≠ pp → GivesBack c m p) →
          ∃ m', pageInsert c local₀ d pp va perm m = .ok (0, m') ∧
            entryOf c m' d (slotOf va) = pteWord (page2pa pp) perm ∧
            Refines c dirs d va (some (pp, perm ||| pteP)) m m'))) ∧
    ((∀ p, pageAt c m d va = some p → GivesBack c m p) →
      ∃ m', pageRemove c local₀ d va m = .ok m' ∧ Refines c dirs d va none m m') ∧
    ∀ p, pageAt c m d va = some p → ¬ GivesBack c m p →
      ∃ msg, pageRemove c local₀ d va m = .error (.panic msg) ∧
        ∀ pp perm, pp ≠ p → pageInsert c local₀ d pp va perm m = .error (.panic msg) := by
  refine ⟨fun pp perm hpp hperm => ?_, pageRemove_refines h hd hva hself hlocal,
    fun p hat hnot => ?_⟩
  · by_cases hroom : tableOf c m d (pdx va) = none ∧ m.pageFreeList = none
    · refine Or.inl ⟨hroom.1, hroom.2, ?_⟩
      rw [pageInsert, pgdirWalk_full hself hroom.1 hroom.2, ok_bind]
    · have hlt := c.npages_lt
      refine Or.inr ⟨hroom, fun hold => ?_⟩
      obtain ⟨m', hinsert, hentry, hrefines⟩ :=
        pageInsert_refines pp perm h hd hva hself hlocal hold hroom
      rw [decode_pteWord (by omega) hperm] at hrefines
      exact ⟨m', hinsert, hentry, hrefines⟩
  · cases htable : tableOf c m d (pdx va) with
    | none =>
        rw [pageAt_of_none htable] at hat
        cases hat
    | some t =>
        have hlt := h.table_lt d hd (pdx va) t htable
        obtain ⟨msg, hpanic⟩ := pageRemove_not_givesBack local₀ htable hlt hat hnot
        exact ⟨msg, hpanic, fun pp perm hne =>
          pageInsert_error htable hlt hat (Ne.symm hne) hpanic⟩

end Refine

/-! ## Where the page cannot be given back -/

/-- A page beyond `npages`: `page_insert` cannot replace it, `page_lookup` cannot name it,
and `check_va2pa` reports it all the same. -/
theorem pageInsert_over_device {c : Config} {m : Mem} {d va t p pp perm : Nat}
    {local₀ : Option PtePtr} (hself : ¬ SelfMap c d (pdx va))
    (htable : tableOf c m d (pdx va) = some t) (hlt : t < c.npages)
    (hpage : pageAt c m d va = some p) (hp : c.npages ≤ p) (hpp : p ≠ pp) :
    pageInsert c local₀ d pp va perm m = .error (.panic "pa2page called with invalid pa") ∧
      pageLookup c d va local₀ m = .error (.panic "pa2page called with invalid pa") ∧
      checkVa2pa c d va m = .ok (page2pa p) := by
  have hlookup := pageLookup_device local₀ htable hlt hpage hp
  have hremove : pageRemove c local₀ d va m = .error (.panic "pa2page called with invalid pa") := by
    rw [pageRemove, hlookup, error_bind]
  refine ⟨pageInsert_error htable hlt hpage hpp hremove, hlookup, ?_⟩
  · rw [checkVa2pa_eq hself fun t' ht' => ?_, hpage]
    · rfl
    · rw [htable] at ht'
      exact Option.some.inj ht' ▸ hlt

/-- A machine with four megabytes of memory and a local APIC. -/
def Config.small : Config where
  npages := 1024
  npagesBasemem := 160
  kernelEnd := 0xF0180000
  percpuKstacks := 0xF0140000
  lapic := mmiobase + 3 * pgSize
  lapicaddr := 0xFEE00000
  utext := ⟨0xF0100000, 0xF0103000, by decide, by decide, by decide⟩
  udata := ⟨0xF0120000, 0xF0121000, by decide, by decide, by decide⟩
  ubss := ⟨0xF0130000, 0xF0180000, by decide, by decide, by decide⟩
  urodata := ⟨0xF0110000, 0xF0111000, by decide, by decide, by decide⟩
  basemem_gt := by decide
  basemem_le := by decide
  npages_le := by decide
  kernelEnd_ge := by decide
  kernelEnd_le := by decide
  next_le := by decide
  percpuKstacks_ge := by decide
  percpuKstacks_le := by decide
  percpuKstacks_aligned := by decide
  lapic_window := by decide

/-- The memory `page_init` leaves on that machine. -/
def Mem.small : Mem := pageInit .small (Mem.cleared .small fun _ _ => 0)

theorem length_initList_small : (initList .small).length = 795 := by decide +kernel

theorem small_unmapped (va : Nat) : pageAt .small .small Config.small.kernPgdir va = none :=
  pageAt_of_none (tableOf_pageInit _ _ _)

/-- After `page_init`, a page is mapped in `kern_pgdir` and unmapped again. -/
theorem page_tables_refine_map_small :
    (∃ m', pageInsert .small (some ⟨0, 0⟩) Config.small.kernPgdir 1 0x800000 pteW .small =
        .ok (0, m') ∧
      Refines .small {Config.small.kernPgdir} Config.small.kernPgdir 0x800000
        (some (1, pteW ||| pteP)) .small m') ∧
    ∃ m', pageRemove .small (some ⟨0, 0⟩) Config.small.kernPgdir 0x800000 .small = .ok m' ∧
      Refines .small {Config.small.kernPgdir} Config.small.kernPgdir 0x800000 none .small m' := by
  obtain ⟨hinsert, hremove, -⟩ := page_tables_refine_map
    (trees_pageInit .small fun _ _ => 0) (Finset.mem_singleton_self _)
    (by decide : (0x800000 : Nat) < 2 ^ 32) (fun h => absurd h.2 (by decide))
    (rfl : (some (⟨0, 0⟩ : PtePtr)).isSome = true)
  refine ⟨?_, hremove fun p hp => absurd (hp.symm.trans (small_unmapped 0x800000)) nofun⟩
  rcases hinsert 1 pteW (by decide) (by decide) with ⟨-, hempty, -⟩ | ⟨-, hinsert⟩
  · have hhead := (freeList_pageInit .small fun _ _ => 0).chain.head_eq
    rw [hempty] at hhead
    exact absurd hhead.symm (by decide +kernel)
  · obtain ⟨m', hok, -, hrefines⟩ := hinsert fun p hp _ =>
      absurd (hp.symm.trans (small_unmapped 0x800000)) nofun
    exact ⟨m', hok, hrefines⟩

/-- `lapic_init` maps the local APIC at the start of the MMIO window. -/
theorem mmioMapRegion_small :
    ∃ m l, mmioMapRegion .small 0xFEE00000 4096 .small = .ok (mmiobase, m) ∧
      Trees .small {Config.small.kernPgdir} m l ∧
      entryOf .small m Config.small.kernPgdir (slotOf mmiobase) =
        pteWord 0xFEE00000 (pteW ||| ptePcd ||| ptePwt) := by
  have htrees := trees_pageInit .small fun _ _ => 0
  have hd := Finset.mem_singleton_self Config.small.kernPgdir
  have hindices : indices (regionWords (pteW ||| ptePcd ||| ptePwt) 1 mmiobase 0xFEE00000) =
      {pdx mmiobase} := by decide
  have hself : ∀ i ∈ indices (regionWords (pteW ||| ptePcd ||| ptePwt) 1 mmiobase 0xFEE00000),
      ¬ SelfMap .small Config.small.kernPgdir i := by
    rw [hindices]
    intro i hi hmap
    rw [Finset.mem_singleton.mp hi] at hmap
    exact absurd hmap.2 (by decide)
  have hroom : (missing .small .small Config.small.kernPgdir (indices
      (regionWords (pteW ||| ptePcd ||| ptePwt) 1 mmiobase 0xFEE00000))).card ≤
        (initList .small).length := by
    refine (Finset.card_filter_le _ _).trans ?_
    rw [hindices, Finset.card_singleton, length_initList_small]
    decide
  obtain ⟨m, hmap⟩ := bootMapLoop_total htrees hd hself hroom
  obtain ⟨l, new, hedits⟩ := bootMapLoop_edits htrees hd hself hmap
  -- the call also moves `base`, which no reader looks at
  refine ⟨{ m with mmioNext := add32 mmiobase (roundup 4096 pgSize) }, l, ?_,
    hedits.trees.of_tables rfl rfl fun _ _ => rfl, ?_⟩
  · have hbase : Mem.small.mmioNext = mmiobase := by decide +kernel
    have hregion : bootMapRegion .small Config.small.kernPgdir mmiobase (roundup 4096 pgSize)
        0xFEE00000 (pteW ||| ptePcd ||| ptePwt) .small = .ok m := hmap
    rw [mmioMapRegion, hbase, if_neg (by decide)]
    change (bootMapRegion .small Config.small.kernPgdir mmiobase (roundup 4096 pgSize)
      0xFEE00000 (pteW ||| ptePcd ||| ptePwt) .small >>= _) = _
    rw [hregion, ok_bind]
  · have hsame : entryOf .small { m with mmioNext := add32 mmiobase (roundup 4096 pgSize) } =
        entryOf .small m := entryOf_of_ram rfl
    rw [hsame, hedits.entry, regionWords, regionWords, overlay, List.foldl_cons, List.foldl_nil,
      Function.update_self]

/-- A page cannot be inserted there, and the two readers disagree about it. -/
theorem insert_over_device_panics :
    ∃ m l, mmioMapRegion .small 0xFEE00000 4096 .small = .ok (mmiobase, m) ∧
      Trees .small {Config.small.kernPgdir} m l ∧
      ¬ SelfMap .small Config.small.kernPgdir (pdx mmiobase) ∧
      pageInsert .small (some ⟨0, 0⟩) Config.small.kernPgdir 1 mmiobase pteW m =
        .error (.panic "pa2page called with invalid pa") ∧
      pageLookup .small Config.small.kernPgdir mmiobase (some ⟨0, 0⟩) m =
        .error (.panic "pa2page called with invalid pa") ∧
      checkVa2pa .small Config.small.kernPgdir mmiobase m = .ok 0xFEE00000 := by
  obtain ⟨m, l, hmap, htrees, hentry⟩ := mmioMapRegion_small
  have hself : ¬ SelfMap .small Config.small.kernPgdir (pdx mmiobase) :=
    fun h => absurd h.2 (by decide)
  have hpage : pageAt .small m Config.small.kernPgdir mmiobase = some 0xFEE00 := by
    rw [pageAt, mapOf_vpnOf, hentry]
    decide
  have hbeyond : Config.small.npages ≤ 0xFEE00 := by norm_num [Config.small]
  cases htable : tableOf .small m Config.small.kernPgdir (pdx mmiobase) with
  | none =>
      rw [pageAt_of_none htable] at hpage
      cases hpage
  | some t =>
      have hlt := htrees.table_lt _ (Finset.mem_singleton_self _) _ t htable
      obtain ⟨hinsert, hlookup, hva2pa⟩ := pageInsert_over_device hself htable hlt hpage hbeyond
        (by norm_num : (0xFEE00 : Nat) ≠ 1)
      exact ⟨m, l, hmap, htrees, hself, hinsert, hlookup, hva2pa⟩

end Nctuos
