import Nctuos.Alloc

/-!
# Memory before there is a page allocator: `boot_alloc`

`boot_alloc(n)` hands out the pages behind the kernel image by moving `nextfree` up.  Its
comment says that it panics when it is out of memory, and the code has no such test: neither
against `npages` nor against the end of the address space.  Both `ROUNDUP` and the addition
are done in 32 bits, and a `nextfree` that has come round to 0 is taken for one that has not
been set yet, so that the next call starts again behind the kernel image.

The exact position is `next`, a number that does not wrap, and `Cursor` says what the code
makes of it: the same address as long as it is below `2 ^ 32`, the first address again when it
gets there.  So what a sequence of calls returns is real and disjoint memory exactly if the
requests, each rounded up to whole pages, fit one behind the other between the kernel image and
the end of memory (`boot_alloc_real_iff`); `mem_init` makes two calls that do
(`bootAllocOk_memInit`).
-/

namespace Nctuos

/-! ## The calls and what they promise -/

/-- The regions that calls of `boot_alloc` return, as address and size. -/
def bootRegions (kernelEnd : Nat) : Nat → List Nat → List (Nat × Nat)
  | _, [] => []
  | nextfree, n :: ns =>
      ((bootAlloc kernelEnd nextfree n).1, n) ::
        bootRegions kernelEnd (bootAlloc kernelEnd nextfree n).2 ns

/-- A region of whole addresses behind the kernel image and in front of the end of memory. -/
def RealRegion (kernelEnd npages : Nat) (r : Nat × Nat) : Prop :=
  r.1 % pgSize = 0 ∧ kernelEnd ≤ r.1 ∧ r.1 + r.2 ≤ kernbase + npages * pgSize ∧ r.1 + r.2 ≤ 2 ^ 32

instance (kernelEnd npages : Nat) (r : Nat × Nat) : Decidable (RealRegion kernelEnd npages r) :=
  inferInstanceAs (Decidable (_ ∧ _))

def Apart (r r' : Nat × Nat) : Prop := r.1 + r.2 ≤ r'.1 ∨ r'.1 + r'.2 ≤ r.1

instance (r r' : Nat × Nat) : Decidable (Apart r r') := inferInstanceAs (Decidable (_ ∨ _))

/-- Every one of the calls returns real memory that no other has got. -/
def BootAllocOk (kernelEnd npages : Nat) (ns : List Nat) : Prop :=
  (∀ r ∈ bootRegions kernelEnd 0 ns, RealRegion kernelEnd npages r) ∧
    (bootRegions kernelEnd 0 ns).Pairwise Apart

instance (kernelEnd npages : Nat) (ns : List Nat) : Decidable (BootAllocOk kernelEnd npages ns) :=
  inferInstanceAs (Decidable (_ ∧ _))

/-! ## Exact positions -/

/-- The first page boundary at or behind `n`. -/
def pageCeil (n : Nat) : Nat := (n + (pgSize - 1)) / pgSize * pgSize

/-- The requests, rounded up to pages, fit one behind the other between `next` and `limit`. -/
def Fits (limit : Nat) : Nat → List Nat → Prop
  | _, [] => True
  | next, n :: ns => next + pageCeil n ≤ limit ∧ Fits limit (next + pageCeil n) ns

theorem pageCeil_mod (n : Nat) : pageCeil n % pgSize = 0 := Nat.mul_mod_left _ _

theorem le_pageCeil (n : Nat) : n ≤ pageCeil n := by
  simp only [pageCeil, pgSize]
  omega

/-- A page boundary behind `n` is behind the pages of `n`. -/
theorem pageCeil_le {n b : Nat} (hb : b % pgSize = 0) (h : n ≤ b) : pageCeil n ≤ b := by
  simp only [pageCeil, pgSize] at *
  omega

theorem roundup_eq_pageCeil {n : Nat} (h : n < 2 ^ 32) : roundup n pgSize = pageCeil n % 2 ^ 32 := by
  simp only [roundup, rounddown, pageCeil, pgSize]
  omega

/-- What `boot_alloc` makes of the exact position `next`. -/
structure Cursor (kernelEnd next nextfree : Nat) : Prop where
  le : next ≤ 2 ^ 32
  aligned : next % pgSize = 0
  ge : pageCeil kernelEnd ≤ next
  addr : ∀ n, (bootAlloc kernelEnd nextfree n).1 =
    if next < 2 ^ 32 then next else roundup kernelEnd pgSize

section Calls

variable {kernelEnd npages next nextfree n : Nat} {ns : List Nat} {prev : List (Nat × Nat)}

theorem bootAlloc_fst (kernelEnd nextfree n : Nat) : (bootAlloc kernelEnd nextfree n).1 =
    if nextfree = 0 then roundup kernelEnd pgSize else nextfree := by
  rw [bootAlloc]
  split <;> rfl

theorem Cursor.start (hend : kernelEnd < 2 ^ 32) : Cursor kernelEnd (pageCeil kernelEnd) 0 := by
  have hle : pageCeil kernelEnd ≤ 2 ^ 32 := pageCeil_le (by decide) (Nat.le_of_lt hend)
  refine ⟨hle, pageCeil_mod _, Nat.le_refl _, fun n => ?_⟩
  rw [bootAlloc_fst, if_pos rfl]
  split
  · rename_i hlt
    rw [roundup_eq_pageCeil hend, Nat.mod_eq_of_lt hlt]
  · rfl

/-- A call whose request fits moves the exact position on. -/
theorem Cursor.step (h : Cursor kernelEnd next nextfree) (hn : 0 < n) (hn' : n < 2 ^ 32)
    (hfits : next + pageCeil n ≤ 2 ^ 32) :
    Cursor kernelEnd (next + pageCeil n) (bootAlloc kernelEnd nextfree n).2 := by
  have hceil := le_pageCeil n
  have haddr := h.addr n
  rw [if_pos (by omega)] at haddr
  have hnext : (bootAlloc kernelEnd nextfree n).2 = (next + pageCeil n) % 2 ^ 32 := by
    rw [bootAlloc_fst] at haddr
    simp only [bootAlloc, haddr, if_neg (Nat.ne_of_gt hn)]
    rw [add32, roundup_eq_pageCeil hn', Nat.add_mod_mod]
  refine ⟨hfits, ?_, Nat.le_trans h.ge (Nat.le_add_right _ _), fun n' => ?_⟩
  · rw [Nat.add_mod, h.aligned, pageCeil_mod]
    rfl
  · rw [bootAlloc_fst, hnext]
    split
    · rename_i hzero
      rw [if_neg (by omega)]
    · rename_i hzero
      rw [if_pos (by omega), Nat.mod_eq_of_lt (by omega)]

/-! ## What fits is real -/

theorem bootRegions_of_fits (h : Cursor kernelEnd next nextfree)
    (hns : ∀ n ∈ ns, 0 < n ∧ n < 2 ^ 32)
    (hfits : Fits (min (kernbase + npages * pgSize) (2 ^ 32)) next ns) :
    (∀ r ∈ bootRegions kernelEnd nextfree ns, next ≤ r.1 ∧ RealRegion kernelEnd npages r) ∧
      (bootRegions kernelEnd nextfree ns).Pairwise Apart := by
  induction ns generalizing next nextfree with
  | nil => exact ⟨List.forall_mem_nil _, .nil⟩
  | cons n ns ih =>
      obtain ⟨hn, hn'⟩ := hns n List.mem_cons_self
      obtain ⟨hlimit, hrest⟩ := hfits
      rw [Nat.le_min] at hlimit
      have hceil := le_pageCeil n
      have haddr := h.addr n
      rw [if_pos (by omega)] at haddr
      obtain ⟨hreal, hapart⟩ := ih (h.step hn hn' hlimit.2)
        (fun n' hn' => hns n' (List.mem_cons_of_mem n hn')) hrest
      rw [bootRegions, haddr]
      refine ⟨fun r hr => ?_, List.pairwise_cons.mpr ⟨fun r hr => Or.inl ?_, hapart⟩⟩
      · rcases List.mem_cons.mp hr with rfl | hr
        · have hge := h.ge
          have hend := le_pageCeil kernelEnd
          exact ⟨Nat.le_refl _, h.aligned, by simp only; omega, by simp only; omega,
            by simp only; omega⟩
        · obtain ⟨hge, hreal⟩ := hreal r hr
          exact ⟨by omega, hreal⟩
      · have hge := (hreal r hr).1
        simp only
        omega

/-! ## What is real fits -/

/-- The first address has been handed out, unless nothing has. -/
def FirstGiven (kernelEnd next : Nat) (prev : List (Nat × Nat)) : Prop :=
  next = pageCeil kernelEnd ∨ ∃ n, 0 < n ∧ (roundup kernelEnd pgSize, n) ∈ prev

/-- At the end of the address space a call returns the first address, which is either taken or
in front of the end of the kernel image. -/
theorem not_real_of_wrapped (h : Cursor kernelEnd (2 ^ 32) nextfree) (hend : kernelEnd < 2 ^ 32)
    (hn : 0 < n) (hfirst : FirstGiven kernelEnd (2 ^ 32) prev)
    (hreal : RealRegion kernelEnd npages ((bootAlloc kernelEnd nextfree n).1, n))
    (hprev : ∀ r ∈ prev, Apart r ((bootAlloc kernelEnd nextfree n).1, n)) : False := by
  have haddr := h.addr n
  rw [if_neg (Nat.lt_irrefl _)] at haddr
  rw [haddr] at hreal hprev
  rcases hfirst with hceil | ⟨n₀, hn₀, hmem⟩
  · obtain ⟨-, hge, -⟩ := hreal
    rw [roundup_eq_pageCeil hend, ← hceil] at hge
    have hzero : kernelEnd = 0 := by
      simp only [Nat.mod_self] at hge
      omega
    rw [hzero] at hceil
    exact absurd hceil (by decide)
  · rcases hprev _ hmem with hle | hle <;> simp only at hle <;> omega

theorem fits_of_bootRegions (h : Cursor kernelEnd next nextfree) (hend : kernelEnd < 2 ^ 32)
    (hns : ∀ n ∈ ns, 0 < n ∧ n < 2 ^ 32) (hfirst : FirstGiven kernelEnd next prev)
    (hreal : ∀ r ∈ bootRegions kernelEnd nextfree ns, RealRegion kernelEnd npages r)
    (hapart : (bootRegions kernelEnd nextfree ns).Pairwise Apart)
    (hprev : ∀ r ∈ prev, ∀ r' ∈ bootRegions kernelEnd nextfree ns, Apart r r') :
    Fits (min (kernbase + npages * pgSize) (2 ^ 32)) next ns := by
  induction ns generalizing next nextfree prev with
  | nil => trivial
  | cons n ns ih =>
      obtain ⟨hn, hn'⟩ := hns n List.mem_cons_self
      rw [bootRegions] at hreal hapart hprev
      have hhere := hreal _ List.mem_cons_self
      by_cases hlt : next < 2 ^ 32
      · have haddr := h.addr n
        rw [if_pos hlt] at haddr
        have hlimit : next + pageCeil n ≤ min (kernbase + npages * pgSize) (2 ^ 32) := by
          obtain ⟨-, -, hmem, hspace⟩ := hhere
          rw [haddr] at hmem hspace
          -- the limit is a page boundary, so the whole last page is in front of it
          have haligned := h.aligned
          simp only [pageCeil, pgSize, kernbase] at hmem hspace haligned ⊢
          omega
        have hgiven : FirstGiven kernelEnd (next + pageCeil n) ((next, n) :: prev) := by
          refine Or.inr ?_
          rcases hfirst with rfl | ⟨n₀, hn₀, hmem⟩
          · refine ⟨n, hn, ?_⟩
            rw [roundup_eq_pageCeil hend, Nat.mod_eq_of_lt hlt]
            exact List.mem_cons_self
          · exact ⟨n₀, hn₀, List.mem_cons_of_mem _ hmem⟩
        obtain ⟨hhead, htail⟩ := List.pairwise_cons.mp hapart
        refine ⟨hlimit, ih (h.step hn hn' (Nat.le_min.mp hlimit).2)
          (fun n' hn' => hns n' (List.mem_cons_of_mem n hn')) hgiven
          (fun r hr => hreal r (List.mem_cons_of_mem _ hr)) htail (fun r hr r' hr' => ?_)⟩
        rcases List.mem_cons.mp hr with rfl | hr
        · rw [← haddr]
          exact hhead r' hr'
        · exact hprev r hr r' (List.mem_cons_of_mem _ hr')
      · obtain rfl : next = 2 ^ 32 := by
          have hle := h.le
          omega
        exact (not_real_of_wrapped h hend hn hfirst hhere fun r hr =>
          hprev r hr _ List.mem_cons_self).elim

/-- **`boot_alloc` in any sequence of calls.**  The calls return real memory, and each other
memory than those before, exactly if the requests rounded up to whole pages fit one behind the
other in front of the end of memory.  None of them panics in any case. -/
theorem boot_alloc_real_iff (npages : Nat) (hend : kernelEnd < 2 ^ 32)
    (hns : ∀ n ∈ ns, 0 < n ∧ n < 2 ^ 32) :
    BootAllocOk kernelEnd npages ns ↔
      Fits (min (kernbase + npages * pgSize) (2 ^ 32)) (pageCeil kernelEnd) ns := by
  constructor
  · rintro ⟨hreal, hapart⟩
    have hfirst : FirstGiven kernelEnd (pageCeil kernelEnd) [] := Or.inl rfl
    exact fits_of_bootRegions (.start hend) hend hns hfirst hreal hapart (List.forall_mem_nil _)
  · intro hfits
    obtain ⟨hreal, hapart⟩ := bootRegions_of_fits (.start hend) hns hfits
    exact ⟨fun r hr => (hreal r hr).2, hapart⟩

end Calls

/-- A page and two pages behind a kernel that ends 1.5 megabytes into memory. -/
theorem boot_alloc_real_small : BootAllocOk 0xF0180000 1024 [4096, 8192] :=
  (boot_alloc_real_iff 1024 (by decide) (by decide)).mpr ⟨by decide, by decide, trivial⟩

/-- On the same machine, three megabytes are handed out although two and a half are left, and so
are `2 ^ 32 - 1` bytes, after which the next call returns the same address. -/
theorem boot_alloc_hands_out_too_much :
    (bootRegions 0xF0180000 0 [0x300000] = [(0xF0180000, 0x300000)] ∧
      ¬ BootAllocOk 0xF0180000 1024 [0x300000]) ∧
    bootRegions 0xF0180000 0 [0xFFFFFFFF, 4096] =
        [(0xF0180000, 0xFFFFFFFF), (0xF0180000, 4096)] ∧
      ¬ BootAllocOk 0xF0180000 1024 [0xFFFFFFFF, 4096] := by
  refine ⟨⟨by decide, by decide⟩, by decide, by decide⟩

/-- What `mem_init` asks for, `kern_pgdir` and `pages`, it gets. -/
theorem bootAllocOk_memInit (c : Config) :
    BootAllocOk c.kernelEnd c.npages [pgSize, sizeofPageInfo * c.npages] := by
  have hnp := c.npages_lt
  have hpos := c.npages_pos
  have hend := c.kernelEnd_lt
  have hnext := c.next_le
  have hsize : sizeofPageInfo * c.npages + pgSize ≤ 2 ^ 32 := by
    simp only [sizeofPageInfo, pgSize]
    omega
  have hroundup : ∀ {n : Nat}, n + pgSize ≤ 2 ^ 32 → roundup n pgSize = pageCeil n := by
    intro n hn
    have hceil : pageCeil n < 2 ^ 32 := by
      simp only [pageCeil, pgSize] at hn ⊢
      omega
    have hlt : n < 2 ^ 32 := Nat.lt_of_lt_of_le (Nat.lt_add_of_pos_right (by decide)) hn
    rw [roundup_eq_pageCeil hlt, Nat.mod_eq_of_lt hceil]
  rw [c.bootNext_eq, hroundup hend, hroundup hsize] at hnext
  have hpage : pageCeil pgSize = pgSize := by decide
  have hspace : kernbase + c.npages * pgSize ≤ 2 ^ 32 := by
    simp only [kernbase, pgSize]
    omega
  have hns : ∀ n ∈ [pgSize, sizeofPageInfo * c.npages], 0 < n ∧ n < 2 ^ 32 := by
    simp only [List.mem_cons, List.not_mem_nil, or_false, forall_eq_or_imp, forall_eq,
      sizeofPageInfo, pgSize]
    omega
  have hfits : Fits (min (kernbase + c.npages * pgSize) (2 ^ 32)) (pageCeil c.kernelEnd)
      [pgSize, sizeofPageInfo * c.npages] := by
    rw [Nat.min_eq_left hspace]
    refine ⟨?_, ?_, trivial⟩
    · rw [hpage]
      omega
    · rw [hpage]
      exact hnext
  obtain ⟨hreal, hapart⟩ := bootRegions_of_fits
    (.start (Nat.lt_of_lt_of_le (Nat.lt_add_of_pos_right (by decide)) hend)) hns hfits
  exact ⟨fun r hr => (hreal r hr).2, hapart⟩

end Nctuos
