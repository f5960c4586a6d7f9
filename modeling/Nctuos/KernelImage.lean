import Nctuos.Lib.Placement
import Nctuos.PageOwners

/-!
# The kernel in the address space of a task

The user program is linked into the kernel image: `kernel/kern.ld` puts its sections in
front of those of the kernel, and `setupvm` maps them into every task, readable and writable.
Here the two are put together, to see which bytes of the kernel a task can write.

`Objects` is the input of the linker, in the terms of `Lib.Placement`: for every output
section the contributions of the user program and behind them those of the kernel, each with
a size and an alignment.  The addresses of the script's symbols are functions of it, and
`Linked o c` says that `c` was made from such an image.

A page of the image is writable for a task exactly if it is in one of the four ranges that
`setupvm` maps (`userWritable_iff`).  These are whole pages, so they take in what shares the
last page of the user program; and the range of `.bss` ends at `UBSS_end`, which the script
defines behind the *whole* section.  So a kernel that keeps anything at all in `.bss`, as
this one keeps `tasks`, `cpus` and `percpu_kstacks`, is writable for every task
(`kernel_safe_iff_separated`).
-/

namespace Nctuos

open Lib

/-! ## `kernel/kern.ld` -/

/-- The contributions to an output section, those of the user program first. -/
structure Inputs where
  user : List Piece
  kernel : List Piece

def Inputs.pieces (i : Inputs) : List Piece := i.user ++ i.kernel

/-- What is linked.  Nothing asks for more than a page of alignment. -/
structure Objects where
  text : Inputs
  rodata : Inputs
  stab : List Piece
  stabstr : List Piece
  data : Inputs
  bss : Inputs
  text_align : ∀ p ∈ text.pieces, p.align ∣ pgSize
  rodata_align : ∀ p ∈ rodata.pieces, p.align ∣ pgSize
  data_align : ∀ p ∈ data.pieces, p.align ∣ pgSize

/-- `kernel_load_addr`. -/
def kernelLoadAddr : Nat := 0xF0100000

/-- `UTEXT_start`, the one symbol that is the same in every image. -/
def utextStart : Nat := alignUp kernelLoadAddr 0x1000

namespace Objects

variable (o : Objects)

/-- Where an output section starts, if the location counter is at `loc`. -/
def outputStart (loc : Nat) (ps : List Piece) : Nat := alignUp loc (maxAlign ps)

def text₀ : Nat := outputStart utextStart o.text.pieces
def utextEnd : Nat := place o.text₀ o.text.user
def etext : Nat := place o.utextEnd o.text.kernel

def urodataStart : Nat := alignUp o.etext 0x1000
def rodata₀ : Nat := outputStart o.urodataStart o.rodata.pieces
def urodataEnd : Nat := place o.rodata₀ o.rodata.user
def rdataEnd : Nat := place o.urodataEnd o.rodata.kernel

/-- The end of `.stab`, and of `.stabstr`; both have a `BYTE(0)` behind their contributions. -/
def stabEnd : Nat := place (outputStart o.rdataEnd o.stab) o.stab + 1
def stabstrEnd : Nat := place (outputStart o.stabEnd o.stabstr) o.stabstr + 1

def dataStart : Nat := alignUp o.stabstrEnd 0x1000
def udataStart : Nat := outputStart o.dataStart o.data.pieces
def udataEnd : Nat := place o.udataStart o.data.user
def edata : Nat := place o.udataEnd o.data.kernel

def ubssStart : Nat := outputStart o.edata o.bss.pieces
/-- Where the kernel's part of `.bss` begins.  The script has no symbol for it. -/
def bssMid : Nat := place o.ubssStart o.bss.user
/-- `UBSS_end`, which is also `end`. -/
def ubssEnd : Nat := place o.bssMid o.bss.kernel

end Objects

/-- A byte of a contribution of the kernel. -/
def KernelByte (o : Objects) (a : Nat) : Prop :=
  Covers o.utextEnd o.text.kernel a ∨ Covers o.urodataEnd o.rodata.kernel a ∨
    Covers o.udataEnd o.data.kernel a ∨ Covers o.bssMid o.bss.kernel a

instance (o : Objects) (a : Nat) : Decidable (KernelByte o a) :=
  inferInstanceAs (Decidable (_ ∨ _ ∨ _ ∨ _))

/-- The symbols of the configuration come from the image, and `percpu_kstacks` from the kernel. -/
structure Linked (o : Objects) (c : Config) : Prop where
  utext : c.utext.start = utextStart ∧ c.utext.stop = o.utextEnd
  urodata : c.urodata.start = o.urodataStart ∧ c.urodata.stop = o.urodataEnd
  udata : c.udata.start = o.udataStart ∧ c.udata.stop = o.udataEnd
  ubss : c.ubss.start = o.ubssStart ∧ c.ubss.stop = o.ubssEnd
  kernelEnd : c.kernelEnd = o.ubssEnd
  kstacks : ∀ a, c.percpuKstacks ≤ a → a < c.percpuKstacks + ncpuMax * kstksize → KernelByte o a

/-- The kernel keeps nothing in `.bss`, and in the other sections nothing in the page in which
the user program ends. -/
def Separated (o : Objects) : Prop :=
  (∀ a, Covers o.utextEnd o.text.kernel a → alignUp o.utextEnd 0x1000 ≤ a) ∧
  (∀ a, Covers o.urodataEnd o.rodata.kernel a → alignUp o.urodataEnd 0x1000 ≤ a) ∧
  (∀ a, Covers o.udataEnd o.data.kernel a → alignUp o.udataEnd 0x1000 ≤ a) ∧
  ∀ p ∈ o.bss.kernel, p.size = 0

/-! ## The order of the sections -/

theorem alignUp_page (a : Nat) : alignUp a 0x1000 % pgSize = 0 ∧ a ≤ alignUp a 0x1000 ∧
    alignUp a 0x1000 < a + pgSize := by
  simp only [alignUp, pgSize]
  omega

/-- Between two page boundaries, what is not beyond the first is not beyond the second. -/
theorem alignUp_page_le {a n : Nat} (h : a ≤ n) (hn : n % pgSize = 0) : alignUp a 0x1000 ≤ n := by
  simp only [alignUp, pgSize] at *
  omega

namespace Objects

variable (o : Objects)

theorem outputStart_eq {loc : Nat} {ps : List Piece} (hps : ∀ p ∈ ps, p.align ∣ pgSize)
    (hloc : loc % pgSize = 0) : outputStart loc ps = loc :=
  alignUp_of_dvd ((maxAlign_dvd hps).trans (Nat.dvd_of_mod_eq_zero hloc))

theorem le_outputStart (loc : Nat) (ps : List Piece) : loc ≤ outputStart loc ps := le_alignUp _ _

/-- With pieces that a page is aligned enough for, a section starts where the script says. -/
theorem text₀_eq : o.text₀ = utextStart := outputStart_eq o.text_align (alignUp_page _).1

theorem rodata₀_eq : o.rodata₀ = o.urodataStart := outputStart_eq o.rodata_align (alignUp_page _).1

theorem udataStart_eq : o.udataStart = o.dataStart := outputStart_eq o.data_align (alignUp_page _).1

/-- The symbols in the order of the script. -/
theorem order :
    utextStart ≤ o.utextEnd ∧ o.utextEnd ≤ o.etext ∧ o.etext ≤ o.urodataStart ∧
      o.urodataStart ≤ o.urodataEnd ∧ o.urodataEnd ≤ o.rdataEnd ∧ o.rdataEnd ≤ o.udataStart ∧
      o.udataStart ≤ o.udataEnd ∧ o.udataEnd ≤ o.edata ∧ o.edata ≤ o.ubssStart ∧
      o.ubssStart ≤ o.bssMid ∧ o.bssMid ≤ o.ubssEnd := by
  refine ⟨?_, le_place _ _, le_alignUp _ _, ?_, le_place _ _, ?_, le_place _ _, le_place _ _,
    le_alignUp _ _, le_place _ _, le_place _ _⟩
  · exact (le_outputStart _ _).trans (le_place _ _)
  · exact (le_outputStart _ _).trans (le_place _ _)
  · calc o.rdataEnd ≤ outputStart o.rdataEnd o.stab := le_outputStart _ _
      _ ≤ o.stabEnd := (le_place _ _).trans (Nat.le_succ _)
      _ ≤ outputStart o.stabEnd o.stabstr := le_outputStart _ _
      _ ≤ o.stabstrEnd := (le_place _ _).trans (Nat.le_succ _)
      _ ≤ o.dataStart := le_alignUp _ _
      _ ≤ o.udataStart := le_outputStart _ _

end Objects

/-- The kernel's bytes are in the image. -/
theorem KernelByte.bounds {o : Objects} {a : Nat} (h : KernelByte o a) :
    kernelLoadAddr ≤ a ∧ a < o.ubssEnd := by
  have hload : kernelLoadAddr ≤ utextStart := le_alignUp _ _
  have horder := o.order
  rcases h with h | h | h | h
  · obtain ⟨hge, hlt⟩ := h.bounds
    rw [← Objects.etext] at hlt
    omega
  · obtain ⟨hge, hlt⟩ := h.bounds
    rw [← Objects.rdataEnd] at hlt
    omega
  · obtain ⟨hge, hlt⟩ := h.bounds
    rw [← Objects.edata] at hlt
    omega
  · obtain ⟨hge, hlt⟩ := h.bounds
    rw [← Objects.ubssEnd] at hlt
    omega

/-! ## What a task can write -/

/-- Directory `d` maps page `q` somewhere, writable for the user. -/
def UserWritable (c : Config) (m : Mem) (d q : Nat) : Prop :=
  ∃ s, targetOf (entryOf c m d s) = some q ∧ entryOf c m d s &&& pteU ≠ 0 ∧
    entryOf c m d s &&& pteW ≠ 0

/-- The permission bits of an entry are in its lower half. -/
theorem and_mod_page {w f : Nat} (hf : f < 4096) : w &&& f = w % 4096 &&& f := by
  have hlt : w &&& f < 2 ^ 12 := Nat.and_lt_two_pow w hf
  have h : (w &&& f) % 2 ^ 12 = w % 2 ^ 12 &&& f % 2 ^ 12 := Nat.and_mod_two_pow
  rwa [Nat.mod_eq_of_lt hlt, Nat.mod_eq_of_lt (show f < 2 ^ 12 from hf)] at h

/-- Permissions with which the user cannot write. -/
def Protected (perm : Nat) : Prop :=
  perm < 4096 ∧ ((perm ||| pteP) &&& pteU = 0 ∨ (perm ||| pteP) &&& pteW = 0)

instance (perm : Nat) : Decidable (Protected perm) := inferInstanceAs (Decidable (_ ∧ _))

/-- The addresses `setupvm` maps for a section. -/
def Section.Maps (s : Section) (a : Nat) : Prop :=
  s.start ≤ a ∧ a < s.start + roundup s.size pgSize

section Writable

variable {c : Config} {dirs : Finset Nat} {m : Mem} {l : List Nat} {d a : Nat}

/-- `setupkvm` gives the user no page to write. -/
theorem kvmWords_flags {w : Slot × Nat} (hlapic : c.lapicaddr % pgSize = 0) (hw : w ∈ kvmWords c) :
    ¬ (w.2 &&& pteU ≠ 0 ∧ w.2 &&& pteW ≠ 0) := by
  obtain ⟨r, hr, hword⟩ := List.mem_flatMap.mp hw
  have hregion : r.pa % pgSize = 0 ∧ Protected r.perm := by
    simp only [kvmRegions, List.mem_append, List.mem_cons, List.not_mem_nil, or_false, kstackRegions,
      List.mem_map, List.mem_range] at hr
    rcases hr with ((rfl | rfl | rfl) | ⟨i, hi, rfl⟩) | rfl
    · have hpages : c.pagesVa = roundup c.kernelEnd pgSize + pgSize := c.bootPages_eq
      have hge := c.kernelEnd_ge.trans (le_roundup c.kernelEnd_lt)
      have hmod := roundup_mod c.kernelEnd
      refine ⟨?_, (by decide : Protected pteU)⟩
      simp only [hpages, kernbase, pgSize] at *
      omega
    · decide
    · decide
    · have hge := c.percpuKstacks_ge
      have hmod := c.percpuKstacks_aligned
      refine ⟨?_, (by decide : Protected pteW)⟩
      simp only [kstksize, kernbase, pgSize] at *
      omega
    · exact ⟨hlapic, (by decide : Protected (pteW ||| ptePcd ||| ptePwt))⟩
  obtain ⟨hpa, hperm, hflags⟩ := hregion
  obtain ⟨b, -, -, -, pa, hval, hpa', hstep⟩ := Region.mem_words hword
  have haligned : pa % pgSize = 0 := by
    simp only [pgSize] at *
    omega
  rw [and_mod_page (by decide : pteU < 4096), and_mod_page (by decide : pteW < 4096), hval,
    (pteWord_aligned haligned hperm).2]
  rintro ⟨hu, hw⟩
  exact hflags.elim hu hw

/-- A page of the kernel image, seen from a task. -/
theorem userWritable_iff (h : TaskInv c dirs m l) (hd : d ∈ dirs)
    (himg : Image c m d (taskWords c) (taskTables c) stackSlots)
    (halign : ∀ s ∈ userSections c, s.start % pgSize = 0) (hlapic : c.lapicaddr % pgSize = 0)
    (hge : kernbase + extphysmem ≤ a) (hlt : a < c.kernelEnd) :
    UserWritable c m d (pgnum (a - kernbase)) ↔ ∃ s ∈ userSections c, s.Maps a := by
  have hend := c.kernelEnd_lt
  have ha : a < 2 ^ 32 := by omega
  have hkern : kernbase ≤ a := by omega
  constructor
  · rintro ⟨slot, htarget, hflags⟩
    by_cases hstack : slot ∈ stackSlots
    · -- a page of the stack came from the free list, where the image has none
      obtain ⟨halloc, -⟩ := h.inv.data d hd slot _ hstack htarget
      refine absurd ⟨?_, ?_⟩ halloc.outside.2.2.2
      · rw [pgnum_eq]
        simp only [kernbase, extphysmem, pgSize] at *
        omega
      · have hpgdir := c.kernPgdir_bounds.2
        have hround := le_roundup c.kernelEnd_lt
        rw [Config.kernPgdir, c.bootKernPgdir_eq, pgnum_eq] at hpgdir
        rw [pgnum_eq]
        refine lt_of_le_of_lt (Nat.div_le_div_right ?_) hpgdir
        omega
    · rw [himg.entry slot hstack, taskWords, overlay_append] at htarget hflags
      by_cases huser : ∃ w ∈ userWords c, w.1 = slot
      · obtain ⟨w, hw, rfl, hval⟩ := overlay_mem huser (overlay (kvmWords c) fun _ => 0)
        obtain ⟨r, hr, hword⟩ := List.mem_flatMap.mp hw
        obtain ⟨s, hs, rfl⟩ := List.mem_map.mp hr
        have hdirect := (Section.isDirect (halign s hs)).word hword
        rw [Function.comp_apply, hval, hdirect.2.1, Option.some.injEq] at htarget
        obtain ⟨b, hb, hbstop, hslot, -, -, -, hstep⟩ := Region.mem_words hword
        have hstop := (Section.isDirect (halign s hs)).stop
        have hbk : kernbase ≤ b := s.start_ge.trans hb
        have hb32 : b < 2 ^ 32 := by
          simp only [pgSize] at *
          omega
        rw [hslot, frameOf_slotOf hbk hb32, pgnum_eq, pgnum_eq] at htarget
        refine ⟨s, hs, ?_⟩
        have hstart := halign s hs
        have hsize := roundup_mod s.size
        simp only [Section.Maps, Section.region, kernbase, pgSize] at *
        omega
      · rw [Function.comp_apply, overlay_of_notMem fun w hw heq => huser ⟨w, hw, heq⟩] at htarget hflags
        by_cases hkvm : ∃ w ∈ kvmWords c, w.1 = slot
        · obtain ⟨w, hw, -, hval⟩ := overlay_mem hkvm fun _ => 0
          rw [hval] at hflags
          exact absurd hflags (kvmWords_flags hlapic hw)
        · rw [overlay_of_notMem fun w hw heq => hkvm ⟨w, hw, heq⟩, targetOf_zero] at htarget
          cases htarget
  · rintro ⟨s, hs, hstart, hstop⟩
    have hidx : 960 ≤ (slotOf a).1.val := mem_kernbase hkern ha
    have hsize := roundup_mod s.size
    have hmod := halign s hs
    obtain ⟨w, hw, hslot⟩ := exists_mem_regionWords (n := roundup s.size pgSize / pgSize)
      (k := (a - s.start) / pgSize) (by simp only [pgSize] at *; omega) (pteW ||| pteU) s.start
      (s.start - kernbase)
    have hword : ∃ w ∈ userWords c, w.1 = slotOf a := by
      refine ⟨w, List.mem_flatMap.mpr ⟨s.region, List.mem_map_of_mem hs, hw⟩, hslot.trans ?_⟩
      simp only [slotOf_eq_iff, pgSize] at *
      omega
    obtain ⟨w', hw', hslot', hval⟩ := overlay_mem hword (overlay (kvmWords c) fun _ => 0)
    have hentry : entryOf c m d (slotOf a) = w'.2 := by
      rw [himg.entry _ (not_stack_of_kernelIdx (Or.inr hidx)), taskWords, overlay_append]
      exact hval
    obtain ⟨r, hr, hword'⟩ := List.mem_flatMap.mp hw'
    obtain ⟨s', hs', rfl⟩ := List.mem_map.mp hr
    obtain ⟨-, htarget, hflags⟩ := (Section.isDirect (halign s' hs')).word hword'
    have hperm : s'.region.perm = pteW ||| pteU := rfl
    refine ⟨slotOf a, ?_, ?_, ?_⟩
    · rw [hentry, htarget, hslot', frameOf_slotOf hkern ha]
    · rw [hentry, and_mod_page (by decide : pteU < 4096), hflags, hperm]
      decide
    · rw [hentry, and_mod_page (by decide : pteW < 4096), hflags, hperm]
      decide

end Writable

/-! ## Which kernels are safe -/

/-- A section is mapped up to the end of its last page. -/
theorem Section.maps_iff {s : Section} {a : Nat} (h : s.start % pgSize = 0) :
    s.Maps a ↔ s.start ≤ a ∧ a < alignUp s.stop 0x1000 := by
  have hge := s.start_ge
  have hle := s.le
  have hlt := s.lt
  have hsize : s.size + pgSize ≤ 2 ^ 32 := by
    simp only [Section.size, kernbase, pgSize] at *
    omega
  have h₁ := le_roundup hsize
  have h₂ := roundup_lt hsize
  have h₃ := roundup_mod s.size
  simp only [Section.Maps, Section.size, alignUp, pgSize] at *
  omega

/-- The arithmetic of `kernel_safe_iff_separated`: the image alone decides whether a range of
`setupvm` takes in a byte of the kernel. -/
theorem separated_iff {o : Objects} {c : Config} (h : Linked o c)
    (halign : ∀ s ∈ userSections c, s.start % pgSize = 0) :
    (∀ a, KernelByte o a → ∀ s ∈ userSections c, ¬ s.Maps a) ↔ Separated o := by
  have horder := o.order
  have hro := (alignUp_page o.etext).1
  have hda : o.udataStart % pgSize = 0 := o.udataStart_eq ▸ (alignUp_page o.stabstrEnd).1
  rw [← Objects.urodataStart] at hro
  -- the user's part of a section is not rounded up into the next section but one
  have htext : alignUp o.utextEnd 0x1000 ≤ o.urodataStart := alignUp_page_le (by omega) hro
  have hrodata : alignUp o.urodataEnd 0x1000 ≤ o.udataStart := alignUp_page_le (by omega) hda
  have hmaps : ∀ s ∈ userSections c, ∀ a, s.Maps a ↔ s.start ≤ a ∧ a < alignUp s.stop 0x1000 :=
    fun s hs a => Section.maps_iff (halign s hs)
  simp only [userSections, List.forall_mem_cons, List.not_mem_nil, false_imp_iff, implies_true,
    and_true] at hmaps ⊢
  obtain ⟨hmt, hmd, hmb, hmr⟩ := hmaps
  simp only [hmt, hmd, hmb, hmr, h.utext, h.udata, h.ubss, h.urodata]
  constructor
  · intro hsafe
    refine ⟨fun a ha => ?_, fun a ha => ?_, fun a ha => ?_, fun p hp => ?_⟩
    · have hbounds := ha.bounds
      have := (hsafe a (Or.inl ha)).1
      omega
    · have hbounds := ha.bounds
      have := (hsafe a (Or.inr (Or.inl ha))).2.2.2
      omega
    · have hbounds := ha.bounds
      have := (hsafe a (Or.inr (Or.inr (Or.inl ha)))).2.1
      omega
    · by_contra hsize
      obtain ⟨a, ha⟩ : ∃ a, Covers o.bssMid o.bss.kernel a := exists_covers_iff.mpr ⟨p, hp, hsize⟩
      have hbounds := ha.bounds
      have hend := (alignUp_page o.ubssEnd).2.1
      have := (hsafe a (Or.inr (Or.inr (Or.inr ha)))).2.2.1
      rw [← Objects.ubssEnd] at hbounds
      omega
  · rintro ⟨hst, hsr, hsd, hsb⟩ a ha
    rcases ha with ha | ha | ha | ha
    · have hbounds := ha.bounds
      have hpage := hst a ha
      rw [← Objects.etext] at hbounds
      refine ⟨?_, ?_, ?_, ?_⟩ <;> omega
    · have hbounds := ha.bounds
      have hpage := hsr a ha
      rw [← Objects.rdataEnd] at hbounds
      refine ⟨?_, ?_, ?_, ?_⟩ <;> omega
    · have hbounds := ha.bounds
      have hpage := hsd a ha
      rw [← Objects.edata] at hbounds
      refine ⟨?_, ?_, ?_, ?_⟩ <;> omega
    · obtain ⟨p, hp, hsize⟩ := exists_covers_iff.mp ⟨a, ha⟩
      exact absurd (hsb p hp) hsize

/-- **The kernel is out of reach of the tasks exactly if it is `Separated` from the user
program** in the image: in any reachable state, and whichever task's directory is looked at. -/
theorem kernel_safe_iff_separated {o : Objects} {c : Config} {local₀ : Option PtePtr} {b : Boot}
    {k₀ k : Kernel Mem Nat} {es : List Entry} {pid d : Nat} (hlinked : Linked o c)
    (hlapic : c.lapicaddr % pgSize = 0) (hboot : Booted c local₀ b k₀)
    (hrun : Run (Step (memVm c local₀) b) k₀ es k) (hlive : Alive k pid)
    (hd : (k.tasks pid).pgdir = some d) :
    (∀ a, KernelByte o a → ¬ UserWritable c k.mem d (pgnum (a - kernbase))) ↔ Separated o := by
  obtain ⟨-, dirs, l, h⟩ := pagesInv_of_run hboot hrun
  obtain ⟨d', hd', hmem, -, himg⟩ := h.task pid hlive
  obtain rfl : d' = d := Option.some.inj (hd'.symm.trans hd)
  have halign := hboot.aligned
  rw [← separated_iff hlinked halign]
  refine forall_congr' fun a => forall_congr' fun ha => ?_
  have hbounds := ha.bounds
  rw [userWritable_iff h.inv hmem himg halign hlapic hbounds.1 (hlinked.kernelEnd ▸ hbounds.2)]
  push Not
  rfl

/-- An image with the symbols of `Config.small`: `percpu_kstacks` is the last contribution to
`.bss`. -/
def Objects.small : Objects where
  text := ⟨[⟨0x3000, 16⟩], [⟨0xD000, 16⟩]⟩
  rodata := ⟨[⟨0x1000, 32⟩], [⟨0xE000, 32⟩]⟩
  stab := []
  stabstr := []
  data := ⟨[⟨0x1000, 32⟩], [⟨0xF000, 32⟩]⟩
  bss := ⟨[⟨0x10000, 32⟩], [⟨0x40000, 4096⟩]⟩
  text_align := by decide
  rodata_align := by decide
  data_align := by decide

/-- The same kernel with `percpu_kstacks` at the end of `.data`, so that all of `.bss` belongs to the
user program. -/
def Objects.noBss : Objects where
  text := ⟨[⟨0x3000, 16⟩], [⟨0xD000, 16⟩]⟩
  rodata := ⟨[⟨0x1000, 32⟩], [⟨0xE000, 32⟩]⟩
  stab := []
  stabstr := []
  data := ⟨[⟨0x1000, 32⟩], [⟨0xF000, 32⟩, ⟨0x40000, 4096⟩]⟩
  bss := ⟨[⟨0x10000, 4096⟩], []⟩
  text_align := by decide
  rodata_align := by decide
  data_align := by decide

/-- The machine of `Config.small` with that kernel. -/
def Config.noBss : Config :=
  { Config.small with
    percpuKstacks := 0xF0130000
    ubss := ⟨0xF0170000, 0xF0180000, by decide, by decide, Config.small.ubss.lt⟩
    percpuKstacks_ge := by decide
    percpuKstacks_le := by decide
    percpuKstacks_aligned := by decide }

theorem linked_small : Linked .small .small where
  utext := by decide
  urodata := by decide
  udata := by decide
  ubss := by decide
  kernelEnd := by decide
  kstacks a hge hlt := by
    have hmid : Objects.small.bssMid = 0xF0140000 := by decide
    refine Or.inr (Or.inr (Or.inr (Or.inl ⟨?_, ?_⟩)))
    · rw [hmid]
      exact hge
    · rw [hmid]
      exact hlt

theorem linked_noBss : Linked .noBss .noBss where
  utext := by decide
  urodata := by decide
  udata := by decide
  ubss := by decide
  kernelEnd := by decide
  kstacks a hge hlt := by
    have hend : Objects.noBss.udataEnd = 0xF0121000 := by decide
    refine Or.inr (Or.inr (Or.inl (Or.inr (Or.inl ⟨?_, ?_⟩))))
    · rw [hend]
      exact hge
    · rw [hend]
      exact hlt

theorem separated_noBss : Separated .noBss := by
  refine ⟨fun a ha => ?_, fun a ha => ?_, fun a ha => ?_, nofun⟩
  · exact Nat.le_trans (by decide) ha.bounds.1
  · exact Nat.le_trans (by decide) ha.bounds.1
  · exact Nat.le_trans (by decide) ha.bounds.1

theorem aligned_noBss : ∀ s ∈ userSections .noBss, s.start % pgSize = 0 := by
  simp only [userSections, Config.noBss, Config.small, List.mem_cons, List.not_mem_nil, or_false]
  rintro s (rfl | rfl | rfl | rfl) <;> rfl

/-- A kernel without `.bss`, in the state after the first fork: the child cannot write it, nor the
kernel stacks. -/
theorem kernel_safe_without_bss :
    ∃ k₀ e k d, Booted .noBss (some ⟨0, 0⟩) (.small false) k₀ ∧
      Step (memVm .noBss (some ⟨0, 0⟩)) (.small false) k₀ e k ∧ (k.tasks 1).pgdir = some d ∧
      (∀ a, KernelByte .noBss a → ¬ UserWritable .noBss k.mem d (pgnum (a - kernbase))) ∧
      KernelByte .noBss Config.noBss.percpuKstacks := by
  have hinit : initList .noBss = initList .small := rfl
  obtain ⟨k₀, e, k, hboot, hstep, -, -, -, halive⟩ := exists_sysFork aligned_noBss (by decide)
    (by rw [hinit, length_initList_small]; decide)
  have hrun : Run (Step (memVm .noBss (some ⟨0, 0⟩)) (.small false)) k₀ [e] k :=
    .cons hstep (.nil k)
  obtain ⟨-, dirs, l, h⟩ := pagesInv_of_run hboot hrun
  obtain ⟨d, hd, -⟩ := h.task 1 halive
  exact ⟨k₀, e, k, d, hboot, hstep, hd,
    (kernel_safe_iff_separated linked_noBss (by decide) hboot hrun halive hd).mpr separated_noBss,
    linked_noBss.kstacks _ le_rfl (by decide)⟩

/-- As it is linked, a task can write the kernel stacks of all CPUs. -/
theorem task_writes_kstacks :
    ∃ k₀ e k d, Booted .small (some ⟨0, 0⟩) (.small false) k₀ ∧
      Step (memVm .small (some ⟨0, 0⟩)) (.small false) k₀ e k ∧ Alive k 1 ∧
      (k.tasks 1).pgdir = some d ∧ Linked .small .small ∧
      KernelByte .small Config.small.percpuKstacks ∧
      UserWritable .small k.mem d (pgnum (Config.small.percpuKstacks - kernbase)) := by
  obtain ⟨k₀, e, k, hboot, hstep, -, halive⟩ := exists_fork_small
  obtain ⟨-, dirs, l, h⟩ := pagesInv_of_run hboot (.cons hstep (.nil k))
  obtain ⟨d, hd, hmem, -, himg⟩ := h.task 1 halive
  refine ⟨k₀, e, k, d, hboot, hstep, halive, hd, linked_small, by decide, ?_⟩
  rw [userWritable_iff h.inv hmem himg hboot.aligned (by decide) (by decide) (by decide)]
  refine ⟨Config.small.ubss, by simp [userSections], ?_⟩
  unfold Section.Maps
  decide

end Nctuos
