import Nctuos.TaskImage

/-!
# The direct map

From `KERNBASE` on, address `va` is mapped to physical address `va - KERNBASE`.  `setupkvm`
establishes this (`direct_kvmWords`), and `setupvm` keeps it: the user program is mapped over
the kernel with other permissions, but to the pages where the linker has put it.

So the assertion at the end of `setupvm` says no more than that the section starts on a page
boundary.  A boot with sections that do not gets no further (`mapUser_aligned`), one with
sections that do never stops there (`mapUser_total`).
-/

namespace Nctuos

open Lib

/-! ## Words of the direct map -/

/-- The page the direct map has in a slot. -/
def frameOf (s : Slot) : Nat := (s.1.val - 960) * 1024 + s.2.val

/-- From `KERNBASE` on, the entries `e` are those of the direct map. -/
def Direct (e : Slot → Nat) : Prop :=
  ∀ s : Slot, 960 ≤ s.1.val → targetOf (e s) = some (frameOf s)

theorem frameOf_slotOf {a : Nat} (hge : kernbase ≤ a) (hlt : a < 2 ^ 32) :
    frameOf (slotOf a) = pgnum (a - kernbase) := by
  simp only [frameOf, slotOf, pdx_val, ptx_val, pgnum_eq, kernbase] at *
  omega

theorem page2pa_pgnum {pa : Nat} (h : pa % pgSize = 0) : page2pa (pgnum pa) = pa := by
  simp only [page2pa_eq, pgnum_eq, pgSize] at *
  omega

/-- The two halves of a word whose address is on a page boundary. -/
theorem pteWord_aligned {pa perm : Nat} (hpa : pa % pgSize = 0) (hperm : perm < 4096) :
    ptePage (pteWord pa perm) = pa / 4096 % 2 ^ 20 ∧ pteWord pa perm % 4096 = perm ||| pteP := by
  have hpage : pa = page2pa (pa / 4096) := by
    simp only [page2pa_eq, pgSize] at *
    omega
  have hlow := perm_lor_lt hperm
  rw [hpage, ptePage_eq, pteWord_mod hperm, pteWord_eq _ hperm, ← hpage]
  constructor
  · omega
  · rfl

/-- A call of `boot_map_region` that maps addresses from `KERNBASE` on to where they are. -/
structure Region.IsDirect (r : Region) : Prop where
  ge : kernbase ≤ r.va
  pa : r.pa = r.va - kernbase
  aligned : r.va % pgSize = 0
  stop : r.va + r.size < 2 ^ 32 + pgSize
  perm : r.perm < 4096

theorem Region.IsDirect.word {r : Region} {w : Slot × Nat} (h : r.IsDirect) (hw : w ∈ r.words) :
    960 ≤ w.1.1.val ∧ targetOf w.2 = some (frameOf w.1) ∧ w.2 % 4096 = r.perm ||| pteP := by
  obtain ⟨a, hge, hle, hslot, pa, hword, hpa, halign⟩ := Region.mem_words hw
  have hk := h.ge
  have hva := h.aligned
  have hstop := h.stop
  rw [h.pa] at hpa
  have hlt : a < 2 ^ 32 := by
    simp only [pgSize] at *
    omega
  obtain ⟨hpage, hflags⟩ := pteWord_aligned
    (show pa % pgSize = 0 by simp only [kernbase, pgSize] at *; omega) h.perm
  rw [hslot, hword, frameOf_slotOf (hk.trans hge) hlt]
  refine ⟨mem_kernbase (hk.trans hge) hlt, ?_, hflags⟩
  rw [targetOf, if_pos (present_pteWord _ _), hpage, Option.some.injEq, pgnum_eq]
  simp only [kernbase, pgSize] at *
  omega

theorem isDirect_kernbase : (⟨kernbase, kernSize, 0, pteW⟩ : Region).IsDirect where
  ge := le_rfl
  pa := by decide
  aligned := by decide
  stop := by decide
  perm := by decide

theorem Section.isDirect {s : Section} (h : s.start % pgSize = 0) : s.region.IsDirect where
  ge := s.start_ge
  pa := rfl
  aligned := h
  stop := by
    have hge := s.start_ge
    have hle := s.le
    have hlt := s.lt
    have hsize : roundup s.size pgSize < s.size + pgSize :=
      roundup_lt (by simp only [Section.size, pgSize, kernbase] at *; omega)
    simp only [Section.region, Section.size, pgSize] at *
    omega
  perm := (by decide : pteW ||| pteU < 4096)

/-! ## Words laid over each other -/

/-- Where words have been stored, the last of them is seen. -/
theorem overlay_mem {ws : List (Slot × Nat)} {s : Slot} (h : ∃ w ∈ ws, w.1 = s) (e : Slot → Nat) :
    ∃ w ∈ ws, w.1 = s ∧ overlay ws e s = w.2 := by
  induction ws generalizing e with
  | nil =>
      obtain ⟨w, hw, -⟩ := h
      cases hw
  | cons w ws ih =>
      by_cases hrest : ∃ w' ∈ ws, w'.1 = s
      · obtain ⟨w', hmem, hslot, hval⟩ := ih hrest (Function.update e w.1 w.2)
        exact ⟨w', List.mem_cons_of_mem w hmem, hslot, hval⟩
      · have hnot : ∀ w' ∈ ws, w'.1 ≠ s := fun w' hw' heq => hrest ⟨w', hw', heq⟩
        obtain ⟨w', hmem, hslot⟩ := h
        obtain rfl : w' = w := by
          rcases List.mem_cons.mp hmem with heq | hmem
          · exact heq
          · exact absurd hslot (hnot w' hmem)
        refine ⟨w', List.mem_cons_self, hslot, ?_⟩
        refine (overlay_of_notMem hnot (Function.update e w'.1 w'.2)).trans ?_
        rw [hslot, Function.update_self]

theorem Direct.overlay {e : Slot → Nat} {ws : List (Slot × Nat)} (h : Direct e)
    (hws : ∀ w ∈ ws, 960 ≤ w.1.1.val → targetOf w.2 = some (frameOf w.1)) :
    Direct (overlay ws e) := by
  intro s hs
  by_cases hmem : ∃ w ∈ ws, w.1 = s
  · obtain ⟨w, hw, rfl, hval⟩ := overlay_mem hmem e
    rw [hval]
    exact hws w hw hs
  · rw [overlay_of_notMem fun w hw heq => hmem ⟨w, hw, heq⟩]
    exact h s hs

/-- `setupkvm` makes a direct map of whatever was there. -/
theorem direct_kvmWords (c : Config) (e : Slot → Nat) : Direct (overlay (kvmWords c) e) := by
  intro s hs
  obtain ⟨w, hw, rfl, hval⟩ := overlay_mem (exists_kvmWord hs) e
  rw [hval]
  obtain ⟨r, hr, hword⟩ := List.mem_flatMap.mp hw
  rcases kvmRegions_idx hr hword with hlow | ⟨-, rfl⟩
  · unfold LowIdx at hlow
    omega
  · exact (isDirect_kernbase.word hword).2.1

/-! ## The assertion of `setupvm` -/

section Setupvm

variable {c : Config} {dirs : Finset Nat} {m m' : Mem} {l : List Nat} {d : Nat} {s : Section}

/-- Where `setupvm` comes back, its section starts on a page boundary. -/
theorem setupvm_aligned (h : setupvm c d s.start s.size m = .ok m') : s.start % pgSize = 0 := by
  have hge := s.start_ge
  have hle := s.le
  have hlt := s.lt
  have hpaddr : paddr s.start = .ok (s.start - kernbase) := if_neg (Nat.not_lt.mpr s.start_ge)
  have hfound : ∀ m₁ found, checkVa2pa c d s.start m₁ = .ok found →
      found = 2 ^ 32 - 1 ∨ found % pgSize = 0 := by
    intro m₁ found hcheck
    unfold checkVa2pa at hcheck
    split at hcheck
    · cases hcheck
      exact Or.inl rfl
    · rw [bind_ok_iff] at hcheck
      obtain ⟨p, -, hcheck⟩ := hcheck
      split at hcheck
      · cases hcheck
        exact Or.inl rfl
      · cases hcheck
        refine Or.inr ?_
        rw [pteAddr_eq, pgSize, Nat.mul_mod_left]
  rw [setupvm, hpaddr, ok_bind, bind_ok_iff] at h
  obtain ⟨m₁, -, h⟩ := h
  rw [bind_ok_iff] at h
  obtain ⟨found, hcheck, h⟩ := h
  split at h
  · rename_i heq
    have := hfound m₁ found hcheck
    simp only [kernbase, pgSize] at *
    omega
  · cases h

theorem mapUser_aligned (h : mapUser c d m = .ok m') :
    ∀ s ∈ userSections c, s.start % pgSize = 0 := by
  rw [mapUser] at h
  refine foldlM_ok_induction (P := fun ss _ => ∀ s ∈ ss, s.start % pgSize = 0)
    (List.forall_mem_nil _) ?_ h
  intro ss m₁ s m₂ ih hturn s' hs'
  rcases List.mem_append.mp hs' with hs' | hs'
  · exact ih s' hs'
  · rw [List.mem_singleton.mp hs']
    exact setupvm_aligned hturn

/-- What `setupvm` needs and leaves: the tables from `KERNBASE` on, and the direct map. -/
structure DirectDir (c : Config) (dirs : Finset Nat) (d : Nat) (m : Mem) (l : List Nat) : Prop where
  trees : Trees c dirs m l
  table : ∀ i : Idx, 960 ≤ i.val → tableOf c m d i ≠ none
  direct : Direct (entryOf c m d)

theorem setupvm_total (h : DirectDir c dirs d m l) (hd : d ∈ dirs) (hkern : d ≠ c.kernPgdir)
    (halign : s.start % pgSize = 0) :
    ∃ m', setupvm c d s.start s.size m = .ok m' ∧ DirectDir c dirs d m' l := by
  have hge := s.start_ge
  have hlt : s.start < 2 ^ 32 := Nat.lt_of_le_of_lt s.le s.lt
  have hword := fun w (hw : w ∈ s.region.words) => (Section.isDirect halign).word hw
  have hself : ∀ i, ¬ SelfMap c d i := fun i hself => hkern hself.1
  have htables : ∀ i ∈ indices s.region.words, tableOf c m d i ≠ none := by
    intro i hi
    obtain ⟨w, hw, rfl⟩ := mem_indices.mp hi
    exact h.table _ (hword w hw).1
  have hmissing : missing c m d (indices s.region.words) = ∅ :=
    Finset.filter_eq_empty_iff.mpr htables
  obtain ⟨m₁, hmap⟩ := bootMapLoop_total h.trees hd (fun i _ => hself i) (by
    change (missing c m d (indices s.region.words)).card ≤ l.length
    rw [hmissing, Finset.card_empty]
    exact Nat.zero_le _)
  obtain ⟨l', new, he⟩ := bootMapLoop_edits h.trees hd (fun i _ => hself i) hmap
  obtain rfl := he.new_eq_nil h.trees hd htables
  obtain rfl : l = l' := he.free
  have hdirect : Direct (entryOf c m₁ d) := by
    rw [he.entry]
    exact h.direct.overlay fun w hw _ => (hword w hw).2.1
  refine ⟨m₁, ?_, he.trees, fun i hi => ?_, hdirect⟩
  · -- the start of the section is mapped to where it is
    have hpage : pageAt c m₁ d s.start = some (pgnum (s.start - kernbase)) := by
      rw [pageAt_eq_targetOf, hdirect _ (mem_kernbase hge hlt), frameOf_slotOf hge hlt]
    have hpaddr : paddr s.start = .ok (s.start - kernbase) := if_neg (Nat.not_lt.mpr hge)
    have hregion : bootMapRegion c d s.start (roundup s.size pgSize) (s.start - kernbase)
        (pteW ||| pteU) m = .ok m₁ := hmap
    have hcheck : checkVa2pa c d s.start m₁ = .ok (s.start - kernbase) := by
      rw [checkVa2pa_eq (hself _) (he.trees.table_lt d hd (pdx s.start)), hpage, Option.elim_some,
        page2pa_pgnum]
      simp only [kernbase, pgSize] at halign hge ⊢
      omega
    rw [setupvm, hpaddr, ok_bind, hregion, ok_bind, hcheck, ok_bind, if_pos rfl]
  · obtain ⟨t, ht⟩ := Option.ne_none_iff_exists'.mp (h.table i hi)
    rw [he.table_mono i t ht]
    exact Option.some_ne_none t

theorem mapUser_total (h : DirectDir c dirs d m l) (hd : d ∈ dirs) (hkern : d ≠ c.kernPgdir)
    (halign : ∀ s ∈ userSections c, s.start % pgSize = 0) : ∃ m', mapUser c d m = .ok m' := by
  rw [mapUser]
  generalize userSections c = ss at halign
  induction ss generalizing m with
  | nil => exact ⟨m, rfl⟩
  | cons s ss ih =>
      obtain ⟨m₁, hfirst, h₁⟩ := setupvm_total h hd hkern (halign s List.mem_cons_self)
      obtain ⟨m', hrest⟩ := ih h₁ fun s' hs' => halign s' (List.mem_cons_of_mem s hs')
      refine ⟨m', ?_⟩
      rw [List.foldlM_cons, hfirst, ok_bind]
      exact hrest

end Setupvm

end Nctuos
