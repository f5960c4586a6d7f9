import Nctuos.Unmap
import Nctuos.Lib.Tlb

/-!
# The translation look-aside buffer

The processor caches page-table entries and is told with `invlpg` when to forget one.  The
comment of `page_insert` asks for that whenever a page was present at the address, and
`page_remove` and `page_insert` have four ways through them: nothing mapped before, another
page, the same page, and removal.  On the one that finds the same page the entry is rewritten
and nothing is invalidated.  With the same permissions that is harmless; with fewer, as
`check_page` has it, the processor may go on using the old ones.

The memory model records which addresses were invalidated but not when.  So the two functions
are written once more as they were, with a trace (`pageRemoveTrace`, `pageInsertTrace`; they
return what `pageRemove` and `pageInsert` do): the memory each time an entry may have changed,
and each `invlpg`.  The trace is run against a cache that takes over whatever is present,
whenever it likes.
-/

namespace Nctuos

open Lib

/-! ## The two functions with a trace -/

/-- What the processor can notice of a call. -/
inductive TlbEvent
  /-- The memory in which it looks up entries is now this. -/
  | memory (m : Mem)
  | invlpg (va : Nat)

def pageRemoveTrace (c : Config) (pte : Option PtePtr) (pgdir va : Nat) (m : Mem) :
    Except Stop (List TlbEvent × Mem) := do
  let r ← pageLookup c pgdir va pte m
  match r.1 with
  | none => .ok ([], m)
  | some pp =>
      let m ← pageDecref pp m
      match r.2 with
      | none => .error .fault
      | some pte => .ok ([.memory (m.store pte 0), .invlpg va], (m.store pte 0).tlbInvalidate va)

def pageInsertTrace (c : Config) (local₀ : Option PtePtr) (pgdir pp va perm : Nat) (m : Mem) :
    Except Stop (List TlbEvent × Int × Mem) := do
  let r ← pgdirWalk c pgdir va true m
  match r.1 with
  | none => .ok ([.memory r.2], -eNoMem, r.2)
  | some pte =>
      let m := r.2
      if present (m.load pte) ∧ pteAddr (m.load pte) = page2pa pp then
        let m' := m.store pte (pteWord (page2pa pp) perm)
        .ok ([.memory m, .memory m'], 0, m')
      else do
        let q ← if present (m.load pte) then pageRemoveTrace c local₀ pgdir va m else .ok ([], m)
        let m' := ((incref pp q.2).tlbInvalidate va).store pte (pteWord (page2pa pp) perm)
        .ok (.memory m :: (q.1 ++ [.invlpg va, .memory m']), 0, m')

section Erase

variable (c : Config) (local₀ : Option PtePtr) (pgdir pp va perm : Nat) (m : Mem)

theorem pageRemoveTrace_erase :
    (pageRemoveTrace c local₀ pgdir va m).map Prod.snd = pageRemove c local₀ pgdir va m := by
  rw [pageRemoveTrace, pageRemove]
  cases pageLookup c pgdir va local₀ m with
  | error e => rfl
  | ok r =>
      rw [ok_bind, ok_bind]
      cases r.1 with
      | none => rfl
      | some pp =>
          simp only
          cases pageDecref pp m with
          | error e => rfl
          | ok m =>
              cases r.2 with
              | none => rfl
              | some pte => rfl

theorem pageInsertTrace_erase :
    (pageInsertTrace c local₀ pgdir pp va perm m).map Prod.snd =
      pageInsert c local₀ pgdir pp va perm m := by
  rw [pageInsertTrace, pageInsert]
  cases pgdirWalk c pgdir va true m with
  | error e => rfl
  | ok r =>
      rw [ok_bind, ok_bind]
      cases r.1 with
      | none => rfl
      | some pte =>
          simp only
          split
          · rfl
          · split
            · rw [← pageRemoveTrace_erase]
              cases pageRemoveTrace c local₀ pgdir va r.2 with
              | error e => rfl
              | ok q => rfl
            · rfl

end Erase

/-! ## The processor's view -/

/-- The entries a processor finds that walks directory `d`. -/
def tlbView (c : Config) (m : Mem) (d : Nat) : Vpn → Option Nat := fun v =>
  if present (entryOf c m d (slotOf (v * pgSize))) then some (entryOf c m d (slotOf (v * pgSize)))
  else none

def TlbEvent.toCache (c : Config) (d : Nat) : TlbEvent → CacheEvent Vpn Nat
  | memory m => .become (tlbView c m d)
  | invlpg va => .flush (vpnOf va)

/-- A call that made trace `tr` and led from `m` to `m'` has left nothing stale at `va`. -/
structure NotStale (c : Config) (d va : Nat) (m m' : Mem) (tr : List TlbEvent) : Prop where
  /-- If a page was present and its entry is another now, `invlpg` was executed. -/
  invalidated : present (entryOf c m d (slotOf va)) = true →
    entryOf c m' d (slotOf va) ≠ entryOf c m d (slotOf va) → .invlpg va ∈ tr
  /-- A cache that agreed with the entry agrees with it afterwards. -/
  coherent : ∀ cache s, Cached.Exec (tr.map (TlbEvent.toCache c d)) ⟨tlbView c m d, cache⟩ s →
    Cached.Coherent ⟨tlbView c m d, cache⟩ (vpnOf va) →
    Cached.Coherent ⟨tlbView c m' d, s.cache⟩ (vpnOf va)

section View

variable {c : Config} {m m' : Mem} {d va : Nat}

theorem tlbView_vpnOf (va : Nat) : tlbView c m d (vpnOf va) =
    if present (entryOf c m d (slotOf va)) then some (entryOf c m d (slotOf va)) else none := by
  rw [tlbView, (slotOf_inj va (vpnOf va)).mpr rfl]

theorem tlbView_congr (h : entryOf c m' d = entryOf c m d) : tlbView c m' d = tlbView c m d := by
  funext v
  rw [tlbView, tlbView, h]

theorem tlbView_eq_none (h : entryOf c m d (slotOf va) = 0) : tlbView c m d (vpnOf va) = none := by
  rw [tlbView_vpnOf, h]
  rfl

/-- The rule for a trace: read coherence off it. -/
theorem NotStale.of_keeps {tr : List TlbEvent}
    (hinv : present (entryOf c m d (slotOf va)) = true →
      entryOf c m' d (slotOf va) ≠ entryOf c m d (slotOf va) → .invlpg va ∈ tr)
    (htable : Cached.tableAfter (tlbView c m d) (tr.map (TlbEvent.toCache c d)) = tlbView c m' d)
    (hkeeps : Cached.Keeps (vpnOf va) True (tlbView c m d) (tr.map (TlbEvent.toCache c d))) :
    NotStale c d va m m' tr := by
  refine ⟨hinv, fun cache s hexec hcoh x hx => ?_⟩
  have hs := hexec.coherent (fun _ => hcoh) hkeeps x hx
  rw [hexec.table_eq, htable] at hs
  exact hs

end View

/-! ## What the calls do -/

section Calls

variable {c : Config} {dirs : Finset Nat} {m m' : Mem} {l : List Nat} {d va pp perm : Nat}
  {local₀ : Option PtePtr} {tr : List TlbEvent} {r : Int}

theorem ram_of_pageDecref {p : Nat} (h : pageDecref p m = .ok m') : m'.ram = m.ram := by
  rw [pageDecref] at h
  split at h
  · rw [pageFree] at h
    split at h
    · cases h
    · split at h
      · cases h
      · cases h
        rfl
  · cases h
    rfl

/-- `page_remove` does nothing, or clears the entry and then invalidates it. -/
theorem pageRemoveTrace_cases (h : Trees c dirs m l) (hd : d ∈ dirs)
    (hself : ¬ SelfMap c d (pdx va)) (hok : pageRemoveTrace c local₀ d va m = .ok (tr, m')) :
    (pageAt c m d va = none ∧ tr = [] ∧ m' = m) ∨
    ∃ t m₁, tableOf c m d (pdx va) = some t ∧ m₁.ram = (m.store ⟨t, ptx va⟩ 0).ram ∧
      tr = [.memory m₁, .invlpg va] ∧ m' = m₁.tlbInvalidate va := by
  cases htable : tableOf c m d (pdx va) with
  | none =>
      rw [pageRemoveTrace, pageLookup_none hself (h.table_lt d hd _) (pageAt_of_none htable)] at hok
      cases hok
      exact Or.inl ⟨pageAt_of_none htable, rfl, rfl⟩
  | some t =>
      rw [pageRemoveTrace, pageLookup, pgdirWalk_table htable (h.table_lt d hd _ t htable)] at hok
      simp only [ok_bind, bind_ok_iff] at hok
      obtain ⟨q, hlookup, hok⟩ := hok
      split at hlookup
      · rename_i habsent
        cases hlookup
        cases hok
        exact Or.inl ⟨(pageAt_of_table htable).trans (if_neg habsent), rfl, rfl⟩
      · rw [bind_ok_iff] at hlookup
        obtain ⟨p, -, hq⟩ := hlookup
        obtain rfl := Except.ok.inj hq
        simp only [bind_ok_iff] at hok
        obtain ⟨m₀, hdecref, hok⟩ := hok
        cases local₀ with
        | none => cases hok
        | some a =>
            cases hok
            exact Or.inr ⟨t, _, rfl, store_ram_congr (ram_of_pageDecref hdecref) _ _, rfl, rfl⟩

/-- The four ways through `page_insert`, and the one where there is no memory. -/
theorem pageInsertTrace_cases (h : Trees c dirs m l) (hd : d ∈ dirs)
    (hself : ¬ SelfMap c d (pdx va))
    (hok : pageInsertTrace c local₀ d pp va perm m = .ok (tr, r, m')) :
    (pageAt c m d va = none ∧ tr = [.memory m] ∧ m' = m) ∨
    ∃ m₁, entryOf c m₁ d = entryOf c m d ∧
      entryOf c m' d = Function.update (entryOf c m d) (slotOf va) (pteWord (page2pa pp) perm) ∧
      ((pageAt c m d va = some pp ∧ tr = [.memory m₁, .memory m']) ∨
        (pageAt c m d va = none ∧ tr = [.memory m₁, .invlpg va, .memory m']) ∨
        (pageAt c m d va ≠ some pp ∧ ∃ m₂, entryOf c m₂ d (slotOf va) = 0 ∧
          tr = [.memory m₁, .memory m₂, .invlpg va, .invlpg va, .memory m'])) := by
  rw [pageInsertTrace, bind_ok_iff] at hok
  obtain ⟨q, hq, hok⟩ := hok
  rcases pgdirWalk_edits h hd hself with
    ⟨hnone, -, hwalk⟩ | ⟨t, m₁, l₁, new, hwalk, htable, hedits⟩
  · rw [hwalk] at hq
    cases hq
    cases hok
    exact Or.inl ⟨pageAt_of_none hnone, rfl, rfl⟩
  rw [hwalk] at hq
  obtain rfl := Except.ok.inj hq
  refine Or.inr ⟨m₁, hedits.entry, ?_⟩
  have hat : pageAt c m₁ d va = pageAt c m d va := by
    rw [pageAt, pageAt, mapOf, mapOf, hedits.entry]
    rfl
  have hstore : ∀ {m' : Mem} {w : Nat}, m'.ram = (m₁.store ⟨t, ptx va⟩ w).ram →
      entryOf c m' d = Function.update (entryOf c m d) (slotOf va) w := fun hram =>
    (hedits.read_store hd htable hram).2.1
  simp only [pageAt_eq_some_iff htable, hat] at hok
  split at hok
  · rename_i hsame
    cases hok
    exact ⟨hstore rfl, Or.inl ⟨hsame, rfl⟩⟩
  · rename_i hother
    split at hok
    · rename_i hpresent
      rw [bind_ok_iff] at hok
      obtain ⟨⟨tr', m₂⟩, hremove, hok⟩ := hok
      rcases pageRemoveTrace_cases hedits.trees hd hself hremove with
        ⟨hnone, -, -⟩ | ⟨t', m₃, htable', hram, rfl, rfl⟩
      · rw [pageAt_of_table htable] at hnone
        exact absurd ((if_pos hpresent).symm.trans hnone) (Option.some_ne_none _)
      · rw [htable] at htable'
        obtain rfl := Option.some.inj htable'
        cases hok
        refine ⟨hstore ?_, Or.inr (Or.inr ⟨hother, m₃, ?_, rfl⟩)⟩
        · exact (store_ram_congr (m := m₁.store ⟨t, ptx va⟩ 0) hram _ _).trans
            (store_store_ram _ _ _ _)
        · rw [hstore hram, Function.update_self]
    · rename_i habsent
      cases hok
      refine ⟨hstore rfl, Or.inr (Or.inl ⟨?_, rfl⟩)⟩
      rw [← hat, pageAt_of_table htable]
      exact if_neg habsent

/-! ## What is stale -/

theorem pageAt_eq_none_iff :
    pageAt c m d va = none ↔ ¬ present (entryOf c m d (slotOf va)) = true := by
  rw [pageAt, mapOf_vpnOf, decode]
  split
  · rename_i hpresent
    simp [hpresent]
  · rename_i habsent
    simp [habsent]

theorem tlbView_of_none (h : pageAt c m d va = none) : tlbView c m d (vpnOf va) = none := by
  rw [tlbView_vpnOf, if_neg (pageAt_eq_none_iff.mp h)]

theorem pageRemoveTrace_notStale (h : Trees c dirs m l) (hd : d ∈ dirs)
    (hself : ¬ SelfMap c d (pdx va)) (hok : pageRemoveTrace c local₀ d va m = .ok (tr, m')) :
    NotStale c d va m m' tr := by
  rcases pageRemoveTrace_cases h hd hself hok with
    ⟨-, rfl, rfl⟩ | ⟨t, m₁, -, -, rfl, rfl⟩
  · exact .of_keeps (fun _ hne => absurd rfl hne) rfl trivial
  · exact .of_keeps (fun _ _ => by simp) (tlbView_congr (entryOf_of_ram rfl ▸ rfl)) (Or.inr rfl)

theorem pageInsertTrace_notStale_iff (h : Trees c dirs m l) (hd : d ∈ dirs)
    (hself : ¬ SelfMap c d (pdx va))
    (hok : pageInsertTrace c local₀ d pp va perm m = .ok (tr, r, m')) :
    NotStale c d va m m' tr ↔
      ¬ (pageAt c m d va = some pp ∧ entryOf c m d (slotOf va) ≠ pteWord (page2pa pp) perm) := by
  rcases pageInsertTrace_cases h hd hself hok with
    ⟨hnone, rfl, rfl⟩ | ⟨m₁, hsame, hentry, ⟨hat, rfl⟩ | ⟨hat, rfl⟩ | ⟨hat, m₂, hzero, rfl⟩⟩
  · refine iff_of_true (.of_keeps (fun _ hne => absurd rfl hne) rfl ⟨trivial, Or.inr rfl⟩) ?_
    rw [hnone]
    exact fun hmapped => Option.some_ne_none pp hmapped.1.symm
  · -- the same page: nothing is invalidated, so the entry must be the same
    have hhere : entryOf c m' d (slotOf va) = pteWord (page2pa pp) perm := by
      rw [hentry, Function.update_self]
    constructor
    · rintro hstale ⟨-, hne⟩
      have hpresent : present (entryOf c m d (slotOf va)) = true := by
        by_contra habsent
        rw [pageAt_eq_none_iff.mpr habsent] at hat
        cases hat
      have hmem := hstale.invalidated hpresent (by rw [hhere]; exact Ne.symm hne)
      simp at hmem
    · intro hcond
      have hword : entryOf c m d (slotOf va) = pteWord (page2pa pp) perm :=
        not_not.mp fun hne => hcond ⟨hat, hne⟩
      have hall : entryOf c m' d = entryOf c m d := by
        rw [hentry, ← hword, Function.update_eq_self]
      refine .of_keeps (fun _ hne => absurd (congrFun hall _) hne) rfl ⟨⟨trivial, Or.inr ?_⟩, Or.inr ?_⟩
      · exact congrFun (tlbView_congr hsame) _
      · exact congrFun (tlbView_congr (hall.trans hsame.symm)) _
  · have habsent : tlbView c m₁ d (vpnOf va) = none := by
      rw [tlbView_congr hsame]
      exact tlbView_of_none hat
    refine iff_of_true (.of_keeps (fun _ _ => by simp) rfl ⟨Or.inr rfl, Or.inl habsent⟩) ?_
    rw [hat]
    exact fun hmapped => Option.some_ne_none pp hmapped.1.symm
  · exact iff_of_true (.of_keeps (fun _ _ => by simp) rfl
      ⟨Or.inr rfl, Or.inl (tlbView_eq_none hzero)⟩) fun hmapped => hat hmapped.1

/-- **Stale entries.**  A `page_remove` that returns leaves nothing stale.  A `page_insert` that
returns leaves nothing stale either, exactly unless the page is already mapped at the address with
other permissions. -/
theorem tlb_not_stale_iff (local₀ : Option PtePtr) (h : Trees c dirs m l) (hd : d ∈ dirs)
    (hself : ¬ SelfMap c d (pdx va)) :
    (∀ pp perm tr r m', pageInsertTrace c local₀ d pp va perm m = .ok (tr, r, m') →
      (NotStale c d va m m' tr ↔
        ¬ (pageAt c m d va = some pp ∧
          entryOf c m d (slotOf va) ≠ pteWord (page2pa pp) perm))) ∧
    ∀ tr m', pageRemoveTrace c local₀ d va m = .ok (tr, m') → NotStale c d va m m' tr :=
  ⟨fun _ _ _ _ _ hok => pageInsertTrace_notStale_iff h hd hself hok,
    fun _ _ hok => pageRemoveTrace_notStale h hd hself hok⟩

end Calls

/-! ## Fewer permissions -/

theorem trees_oneMapped : Trees .small {2} .oneMapped [] := by
  have htable : ∀ d ∈ ({2} : Finset Nat), ∀ i t, tableOf .small .oneMapped d i = some t →
      d = 2 ∧ i = 0 ∧ t = 3 := by
    intro d hd i t ht
    obtain rfl := Finset.mem_singleton.mp hd
    obtain ⟨-, hpresent, rfl⟩ := tableOf_eq_some.mp ht
    by_cases hi : i = 0
    · subst hi
      exact ⟨rfl, rfl, by decide⟩
    · simp [Mem.oneMapped, Mem.zeroed, hi] at hpresent
  refine ⟨.nil, List.forall_mem_nil _, fun _ _ => List.not_mem_nil, fun d hd i t ht => ?_,
    fun _ _ _ _ _ => List.not_mem_nil, fun d hd i t ht => ?_,
    fun d hd d' hd' i i' t ht ht' => ?_⟩
  · obtain ⟨-, -, rfl⟩ := htable d hd i t ht
    decide
  · obtain ⟨-, -, rfl⟩ := htable d hd i t ht
    decide
  · obtain ⟨rfl, rfl, -⟩ := htable d hd i t ht
    obtain ⟨rfl, rfl, -⟩ := htable d' hd' i' t ht'
    exact ⟨rfl, rfl⟩

theorem oneMapped_not_selfMap : ¬ SelfMap .small 2 (pdx 0) := by decide

/-- Page 4 is unmapped, and it is mapped once more as it was: nothing is stale. -/
theorem tlb_not_stale_one_mapped :
    (∃ tr m', pageRemoveTrace .small (some ⟨0, 0⟩) 2 0 .oneMapped = .ok (tr, m') ∧
      NotStale .small 2 0 .oneMapped m' tr) ∧
    ∃ tr m', pageInsertTrace .small (some ⟨0, 0⟩) 2 4 0 pteW .oneMapped = .ok (tr, 0, m') ∧
      NotStale .small 2 0 .oneMapped m' tr := by
  obtain ⟨hinsert, hremove⟩ := tlb_not_stale_iff (some ⟨0, 0⟩) trees_oneMapped
    (Finset.mem_singleton_self 2) oneMapped_not_selfMap
  refine ⟨⟨_, _, rfl, hremove _ _ rfl⟩, ⟨_, _, rfl, (hinsert 4 pteW _ _ _ rfl).mpr ?_⟩⟩
  rintro ⟨-, hne⟩
  exact hne (by decide)

/-- It is mapped once more without `PTE_W`: a processor that had taken over the old entry keeps
it, and may go on writing to the page. -/
theorem same_page_reinserted_stale :
    ∃ tr m' s, pageInsertTrace .small (some ⟨0, 0⟩) 2 4 0 0 .oneMapped = .ok (tr, 0, m') ∧
      entryOf .small .oneMapped 2 (slotOf 0) = 0x4003 ∧ entryOf .small m' 2 (slotOf 0) = 0x4001 ∧
      Cached.Exec (tr.map (TlbEvent.toCache .small 2))
        ⟨tlbView .small .oneMapped 2, {(vpnOf 0, 0x4003)}⟩ s ∧
      (vpnOf 0, 0x4003) ∈ s.cache ∧ tlbView .small m' 2 (vpnOf 0) = some 0x4001 ∧
      ¬ NotStale .small 2 0 .oneMapped m' tr := by
  have hfill : ∀ s : Cached Vpn Nat, s.Fills s := Cached.Fills.refl
  refine ⟨_, _, _, rfl, by decide, by decide, .cons (hfill _) (.cons (hfill _) (.nil (hfill _))),
    rfl, by decide, fun hnot => ?_⟩
  have hmem := hnot.invalidated (by decide) (by decide)
  simp at hmem

end Nctuos
