import Nctuos.Task
import Nctuos.Lib.Except
import Nctuos.Lib.Fuel
import Nctuos.Lib.Overlay

/-!
# The boot loader

`boot/main.c`.  The disk is a sequence of bytes, with the kernel image from the second sector on, and
a sector is read into memory as a whole.  That the disk becomes ready is left to the disk, and so is
`waitdisk`.

`readseg` rounds the address down to a sector and reads sectors until it is behind the end.  It
writes in front of the segment and behind it whatever is there in the image.  What a segment leaves
behind its end is overwritten by the segments that follow, but what it writes in front of its
beginning may belong to a segment that has been loaded before.

The loader itself is not in the memory.  It runs from the sector at `0x7C00`, with its stack below,
and nothing stops a segment from being read over them: what is said of an image is said of the
machine if the image keeps clear of both (`ClearOfLoader`), and then they are left alone.
-/

namespace Nctuos

open Lib

/-! ## The model -/

abbrev PhysMem : Type := BitVec 32 → BitVec 8

/-- What `readsect` writes to the ports `0x1F2` to `0x1F6`. -/
structure IdeCommand where
  count : BitVec 8
  lba0 : BitVec 8
  lba1 : BitVec 8
  lba2 : BitVec 8
  device : BitVec 8
  deriving DecidableEq, Repr

/-- The number of the sector: 28 bits, of which the last four share a register with the drive. -/
def IdeCommand.sector (cmd : IdeCommand) : Nat :=
  cmd.lba0.toNat + 2 ^ 8 * cmd.lba1.toNat + 2 ^ 16 * cmd.lba2.toNat +
    2 ^ 24 * (cmd.device.toNat % 16)

/-- The bit that selects the second drive. -/
def IdeCommand.second (cmd : IdeCommand) : Bool := cmd.device.getLsbD 4

def readCommand (offset : BitVec 32) : IdeCommand where
  count := 1
  lba0 := offset.setWidth 8
  lba1 := (offset >>> 8).setWidth 8
  lba2 := (offset >>> 16).setWidth 8
  device := ((offset >>> 24) ||| 0xE0).setWidth 8

/-- The first disk has the bytes `disk`; there is no second one. -/
def readsect (disk : Nat → BitVec 8) (mem : PhysMem) (dst offset : BitVec 32) :
    Except Stop PhysMem :=
  let cmd := readCommand offset
  if cmd.second then .error .hang
  else .ok fun a =>
    if (a - dst).toNat < 512 then disk (512 * cmd.sector + (a - dst).toNat) else mem a

def readsegLoop (disk : Nat → BitVec 8) (endPa : BitVec 32) :
    Nat → PhysMem → BitVec 32 → BitVec 32 → Except Stop PhysMem
  | 0, _, _, _ => .error .hang
  | fuel + 1, mem, pa, offset =>
      if pa < endPa then do
        let mem ← readsect disk mem pa offset
        readsegLoop disk endPa fuel mem (pa + 512) (offset + 1)
      else .ok mem

def readseg (disk : Nat → BitVec 8) (fuel : Nat) (mem : PhysMem) (pa count offset : BitVec 32) :
    Except Stop PhysMem :=
  readsegLoop disk (pa + count) fuel mem (pa &&& ~~~(512 - 1)) (offset / 512 + 1)

def load16 (mem : PhysMem) (a : BitVec 32) : BitVec 16 := mem (a + 1) ++ mem a

def load32 (mem : PhysMem) (a : BitVec 32) : BitVec 32 :=
  mem (a + 3) ++ mem (a + 2) ++ mem (a + 1) ++ mem a

/-- `ELFHDR`. -/
def elfhdr : BitVec 32 := 0x10000

def elfMagic : BitVec 32 := 0x464C457F

/-- `for (; ph < eph; ph++)`. -/
def loadSegments (disk : Nat → BitVec 8) (eph : BitVec 32) :
    Nat → PhysMem → BitVec 32 → Except Stop PhysMem
  | 0, _, _ => .error .hang
  | fuel + 1, mem, ph =>
      if ph < eph then do
        -- `p_pa`, `p_filesz` and `p_offset`
        let mem ← readseg disk fuel mem (load32 mem (ph + 12)) (load32 mem (ph + 16))
          (load32 mem (ph + 4))
        loadSegments disk eph fuel mem (ph + 32)
      else .ok mem

/-- `bootmain` from `// is this a valid ELF?` on: the memory, and the entry point that is called. -/
def loadKernel (disk : Nat → BitVec 8) (fuel : Nat) (mem : PhysMem) :
    Except Stop (PhysMem × BitVec 32) :=
  if load32 mem elfhdr = elfMagic then do
    -- `e_phoff` and `e_phnum`
    let ph := elfhdr + load32 mem (elfhdr + 28)
    let eph := ph + 32 * (load16 mem (elfhdr + 44)).setWidth 32
    let mem ← loadSegments disk eph fuel mem ph
    .ok (mem, load32 mem (elfhdr + 24))
  else .error .hang

def bootmain (disk : Nat → BitVec 8) (fuel : Nat) (mem : PhysMem) :
    Except Stop (PhysMem × BitVec 32) := do
  let mem ← readseg disk fuel mem elfhdr (512 * 8) 0
  loadKernel disk fuel mem

/-! ## Images -/

/-- A byte of the kernel image, which begins in the second sector. -/
def imageByte (disk : Nat → BitVec 8) (n : Nat) : BitVec 8 := disk (512 + n)

section Image

variable (disk : Nat → BitVec 8)

def image16 (n : Nat) : BitVec 16 := imageByte disk (n + 1) ++ imageByte disk n

def image32 (n : Nat) : BitVec 32 :=
  imageByte disk (n + 3) ++ imageByte disk (n + 2) ++ imageByte disk (n + 1) ++ imageByte disk n

end Image

/-- A program header, as far as the loader reads it. -/
structure Segment where
  pa : BitVec 32
  filesz : BitVec 32
  offset : BitVec 32
  deriving DecidableEq, Repr

namespace Segment

/-- The first address behind the segment. -/
def fin (s : Segment) : Nat := s.pa.toNat + s.filesz.toNat

/-- The sector of the address is one of those that are read for the segment. -/
def Spans (s : Segment) (a : BitVec 32) : Prop :=
  s.pa.toNat / 512 ≤ a.toNat / 512 ∧ a.toNat / 512 * 512 < s.fin

instance (s : Segment) (a : BitVec 32) : Decidable (s.Spans a) :=
  inferInstanceAs (Decidable (_ ∧ _))

/-- What is read to the address, if it is in one of the sectors. -/
def byteAt (disk : Nat → BitVec 8) (s : Segment) (a : BitVec 32) : BitVec 8 :=
  imageByte disk (s.offset.toNat / 512 * 512 + (a.toNat - s.pa.toNat / 512 * 512))

end Segment

/-- The program header at an offset of the image. -/
def segmentAt (disk : Nat → BitVec 8) (n : Nat) : Segment :=
  ⟨image32 disk (n + 12), image32 disk (n + 16), image32 disk (n + 4)⟩

def phoff (disk : Nat → BitVec 8) : Nat := (image32 disk 28).toNat

def phnum (disk : Nat → BitVec 8) : Nat := (image16 disk 44).toNat

def segments (disk : Nat → BitVec 8) : List Segment :=
  (List.range (phnum disk)).map fun k => segmentAt disk (phoff disk + 32 * k)

/-- The images that the loader is made for. -/
structure ElfImage (disk : Nat → BitVec 8) : Prop where
  magic : image32 disk 0 = elfMagic
  headers : phoff disk + 32 * phnum disk ≤ 4096
  aligned : ∀ s ∈ segments disk, s.pa.toNat % 512 = s.offset.toNat % 512
  ordered : (segments disk).Pairwise fun s t => s.pa.toNat ≤ t.pa.toNat
  disjoint : (segments disk).Pairwise fun s t =>
    ∀ x, ¬ (s.pa.toNat ≤ x ∧ x < s.fin ∧ t.pa.toNat ≤ x ∧ x < t.fin)
  noWrap : ∀ s ∈ segments disk, s.fin < 2 ^ 32
  scratch : ∀ s ∈ segments disk, s.fin ≤ 0x10000 ∨ 0x11000 ≤ s.pa.toNat

/-- No segment begins in the loader's sector or below it, where its stack is. -/
def ClearOfLoader (disk : Nat → BitVec 8) : Prop := ∀ s ∈ segments disk, 0x7E00 ≤ s.pa.toNat

/-! ## Reading sectors -/

section Sectors

variable {disk : Nat → BitVec 8} {mem : PhysMem} {dst offset pa endPa : BitVec 32}

theorem readCommand_sector (h : offset.toNat < 2 ^ 28) :
    (readCommand offset).sector = offset.toNat := by
  have hdevice : (readCommand offset).device.toNat % 16 = offset.toNat / 2 ^ 24 % 16 := by
    change (((offset >>> 24) ||| 0xE0).setWidth 8).toNat % 2 ^ 4 = _
    rw [BitVec.toNat_setWidth, Nat.mod_mod_of_dvd _ (by decide), BitVec.toNat_or,
      Nat.or_mod_two_pow, BitVec.toNat_ushiftRight, Nat.shiftRight_eq_div_pow]
    exact Nat.or_zero _
  rw [IdeCommand.sector, hdevice]
  change (offset.setWidth 8).toNat + 2 ^ 8 * ((offset >>> 8).setWidth 8).toNat +
    2 ^ 16 * ((offset >>> 16).setWidth 8).toNat + _ = _
  rw [BitVec.toNat_setWidth, BitVec.toNat_setWidth, BitVec.toNat_setWidth,
    BitVec.toNat_ushiftRight, BitVec.toNat_ushiftRight, Nat.shiftRight_eq_div_pow,
    Nat.shiftRight_eq_div_pow]
  omega

theorem readCommand_first (h : offset.toNat < 2 ^ 28) : (readCommand offset).second = false := by
  have hbit : offset.getLsbD (24 + 4) = false := by
    rw [← BitVec.testBit_toNat]
    exact Nat.testBit_lt_two_pow h
  change (((offset >>> 24) ||| 0xE0).setWidth 8).getLsbD 4 = false
  rw [BitVec.getLsbD_setWidth, BitVec.getLsbD_or, BitVec.getLsbD_ushiftRight, hbit]
  rfl

/-- A sector is read to the addresses that have the number of the sector of `dst`. -/
theorem readsect_ok (h : offset.toNat < 2 ^ 28) (hdst : dst.toNat % 512 = 0) :
    readsect disk mem dst offset = .ok fun a =>
      if a.toNat / 512 = dst.toNat / 512 then disk (512 * offset.toNat + a.toNat % 512)
      else mem a := by
  rw [readsect, readCommand_first h, if_neg Bool.false_ne_true, readCommand_sector h]
  congr 1
  funext a
  have hsub : (a - dst).toNat = (2 ^ 32 - dst.toNat + a.toNat) % 2 ^ 32 := BitVec.toNat_sub ..
  have hlt := dst.isLt
  have hlt' := a.isLt
  by_cases hsame : a.toNat / 512 = dst.toNat / 512
  · rw [if_pos hsame, if_pos (by omega), show (a - dst).toNat = a.toNat % 512 by omega]
  · rw [if_neg hsame, if_neg (by omega)]

theorem toNat_roundDown (pa : BitVec 32) :
    (pa &&& ~~~(512 - 1) : BitVec 32).toNat = pa.toNat / 512 * 512 := by
  have hshift : (pa &&& ~~~(512 - 1) : BitVec 32) = (pa >>> 9) <<< 9 := by
    refine BitVec.eq_of_getLsbD_eq fun i hi => ?_
    have hmask : ∀ i < 32, (~~~(512 - 1 : BitVec 32)).getLsbD i = !decide (i < 9) := by decide
    rw [BitVec.getLsbD_and, hmask i hi, BitVec.getLsbD_shiftLeft, BitVec.getLsbD_ushiftRight]
    by_cases hlow : i < 9
    · simp [hlow]
    · simp [hlow, hi, Nat.add_sub_cancel' (Nat.le_of_not_lt hlow)]
  have hlt := pa.isLt
  rw [hshift, BitVec.toNat_shiftLeft, BitVec.toNat_ushiftRight, Nat.shiftRight_eq_div_pow,
    Nat.shiftLeft_eq]
  omega

/-- The sectors from `pa` up to the end. -/
theorem readsegLoop_settles (hend : endPa.toNat ≤ 2 ^ 32 - 512) (n : Nat)
    (hpa : pa.toNat % 512 = 0) (hn : (endPa.toNat - pa.toNat + 511) / 512 = n)
    (hoffset : offset.toNat + n < 2 ^ 28) :
    Settles (fun fuel => readsegLoop disk endPa fuel mem pa offset) (.ok fun a =>
      if pa.toNat ≤ a.toNat ∧ a.toNat / 512 * 512 < endPa.toNat then
        disk (512 * (offset.toNat + (a.toNat / 512 - pa.toNat / 512)) + a.toNat % 512)
      else mem a) := by
  induction n generalizing mem pa offset with
  | zero =>
      have hle : ¬ pa < endPa := by
        rw [BitVec.lt_def]
        omega
      have hmem : (fun a : BitVec 32 =>
          if pa.toNat ≤ a.toNat ∧ a.toNat / 512 * 512 < endPa.toNat then
            disk (512 * (offset.toNat + (a.toNat / 512 - pa.toNat / 512)) + a.toNat % 512)
          else mem a) = mem := by
        funext a
        rw [if_neg (by omega)]
      rw [hmem]
      refine Settles.last fun fuel => ?_
      rw [readsegLoop, if_neg hle]
  | succ n ih =>
      have hlt : pa.toNat < endPa.toNat := by omega
      have hpa' : (pa + 512).toNat = pa.toNat + 512 := by
        rw [BitVec.toNat_add]
        change (pa.toNat + 512) % 2 ^ 32 = _
        omega
      have hoffset' : (offset + 1).toNat = offset.toNat + 1 := by
        rw [BitVec.toNat_add]
        change (offset.toNat + 1) % 2 ^ 32 = _
        omega
      have hrest := @ih (fun a => if a.toNat / 512 = pa.toNat / 512 then
          disk (512 * offset.toNat + a.toNat % 512) else mem a) (offset + 1) (pa + 512)
        (by omega) (by omega) (by omega)
      have hmem : (fun a : BitVec 32 =>
          if (pa + 512).toNat ≤ a.toNat ∧ a.toNat / 512 * 512 < endPa.toNat then
            disk (512 * ((offset + 1).toNat + (a.toNat / 512 - (pa + 512).toNat / 512)) +
              a.toNat % 512)
          else if a.toNat / 512 = pa.toNat / 512 then disk (512 * offset.toNat + a.toNat % 512)
          else mem a) = fun a : BitVec 32 =>
          if pa.toNat ≤ a.toNat ∧ a.toNat / 512 * 512 < endPa.toNat then
            disk (512 * (offset.toNat + (a.toNat / 512 - pa.toNat / 512)) + a.toNat % 512)
          else mem a := by
        funext a
        rw [hpa', hoffset']
        by_cases hfirst : a.toNat / 512 = pa.toNat / 512
        · rw [if_neg (by omega), if_pos hfirst, if_pos (by omega), hfirst, Nat.sub_self,
            Nat.add_zero]
        · rw [if_neg hfirst]
          by_cases hspan : pa.toNat ≤ a.toNat ∧ a.toNat / 512 * 512 < endPa.toNat
          · have hsector : offset.toNat + 1 + (a.toNat / 512 - (pa.toNat + 512) / 512) =
                offset.toNat + (a.toNat / 512 - pa.toNat / 512) := by omega
            rw [if_pos (by omega), if_pos hspan, hsector]
          · rw [if_neg (by omega), if_neg hspan]
      rw [hmem] at hrest
      refine hrest.step fun fuel => ?_
      rw [readsegLoop, if_pos (BitVec.lt_def.mpr hlt), readsect_ok (by omega) hpa, ok_bind]

/-- Where the end is in the last sector, the address wraps before it gets there. -/
theorem readsegLoop_not_ok (hend : 2 ^ 32 - 512 < endPa.toNat) (fuel : Nat)
    (hpa : pa.toNat % 512 = 0) (mem' : PhysMem) :
    readsegLoop disk endPa fuel mem pa offset ≠ .ok mem' := by
  induction fuel generalizing mem pa offset with
  | zero => exact fun h => by cases h
  | succ fuel ih =>
      intro h
      have hlt := pa.isLt
      rw [readsegLoop, if_pos (by rw [BitVec.lt_def]; omega)] at h
      obtain ⟨mem₁, -, hrest⟩ := bind_ok_iff.mp h
      refine ih ?_ hrest
      rw [BitVec.toNat_add]
      change (pa.toNat + 512) % 2 ^ 32 % 512 = 0
      omega

end Sectors

/-! ## Reading segments -/

section Segments

variable {disk : Nat → BitVec 8} {mem : PhysMem} {s : Segment}

theorem Segment.toNat_end (hwrap : s.fin < 2 ^ 32) : (s.pa + s.filesz).toNat = s.fin := by
  rw [BitVec.toNat_add]
  exact Nat.mod_eq_of_lt hwrap

/-- The first sector of the segment in the image, as `readseg` numbers it. -/
theorem Segment.toNat_sector (s : Segment) :
    (s.offset / 512 + 1).toNat = s.offset.toNat / 512 + 1 := by
  have hlt := s.offset.isLt
  rw [BitVec.toNat_add, BitVec.toNat_udiv]
  change (s.offset.toNat / 512 + 1) % 2 ^ 32 = _
  omega

/-- A segment is laid over the memory, with the rest of its sectors. -/
theorem readseg_settles (hfin : s.fin ≤ 2 ^ 32 - 512) (mem : PhysMem) :
    Settles (fun fuel => readseg disk fuel mem s.pa s.filesz s.offset)
      (.ok (lay Segment.Spans (Segment.byteAt disk) mem s)) := by
  have hend := Segment.toNat_end (by omega : s.fin < 2 ^ 32)
  have hpa := toNat_roundDown s.pa
  have hsector := s.toNat_sector
  have hlt := s.offset.isLt
  have hle : s.pa.toNat ≤ s.fin := Nat.le_add_right _ _
  have hmem : (fun a : BitVec 32 =>
      if (s.pa &&& ~~~(512 - 1) : BitVec 32).toNat ≤ a.toNat ∧
          a.toNat / 512 * 512 < (s.pa + s.filesz).toNat then
        disk (512 * ((s.offset / 512 + 1).toNat +
          (a.toNat / 512 - (s.pa &&& ~~~(512 - 1) : BitVec 32).toNat / 512)) + a.toNat % 512)
      else mem a) = lay Segment.Spans (Segment.byteAt disk) mem s := by
    funext a
    rw [hpa, hend, hsector, lay]
    by_cases hspan : s.Spans a
    · have hspan' := hspan
      rw [Segment.Spans] at hspan'
      have hplace : 512 * (s.offset.toNat / 512 + 1 +
          (a.toNat / 512 - s.pa.toNat / 512 * 512 / 512)) + a.toNat % 512 =
          512 + (s.offset.toNat / 512 * 512 + (a.toNat - s.pa.toNat / 512 * 512)) := by omega
      rw [if_pos (by omega), if_pos hspan, hplace]
      rfl
    · have hspan' := hspan
      rw [Segment.Spans] at hspan'
      rw [if_neg (by omega), if_neg hspan]
  rw [← hmem]
  exact readsegLoop_settles (by omega) _ (by omega) rfl (by omega)

theorem readseg_not_ok (hwrap : s.fin < 2 ^ 32) (hfin : 2 ^ 32 - 512 < s.fin) (fuel : Nat)
    (mem' : PhysMem) : readseg disk fuel mem s.pa s.filesz s.offset ≠ .ok mem' := by
  have hend := Segment.toNat_end hwrap
  have hpa := toNat_roundDown s.pa
  exact readsegLoop_not_ok (by omega) fuel (by omega) mem'

end Segments

/-! ## The header -/

/-- The scratch space holds the first page of the image. -/
def HeaderIn (disk : Nat → BitVec 8) (mem : PhysMem) : Prop :=
  ∀ (a : BitVec 32) (n : Nat), a.toNat = 0x10000 + n → n < 4096 → mem a = imageByte disk n

section Header

variable {disk : Nat → BitVec 8} {mem : PhysMem}

theorem HeaderIn.load16_eq (h : HeaderIn disk mem) {a : BitVec 32} {n : Nat}
    (ha : a.toNat = 0x10000 + n) (hn : n + 1 < 4096) : load16 mem a = image16 disk n := by
  have hnext : (a + 1).toNat = 0x10000 + (n + 1) := by
    rw [BitVec.toNat_add, ha]
    change (0x10000 + n + 1) % 2 ^ 32 = _
    omega
  rw [load16, image16, h a n ha (by omega), h (a + 1) (n + 1) hnext hn]

theorem HeaderIn.load32_eq (h : HeaderIn disk mem) {a : BitVec 32} {n : Nat}
    (ha : a.toNat = 0x10000 + n) (hn : n + 3 < 4096) : load32 mem a = image32 disk n := by
  have hnext : ∀ j, j < 4 → (a + BitVec.ofNat 32 j).toNat = 0x10000 + (n + j) := by
    intro j hj
    rw [BitVec.toNat_add, BitVec.toNat_ofNat, ha]
    omega
  rw [load32, image32, h a n ha (by omega), h (a + 1) (n + 1) (hnext 1 (by omega)) (by omega),
    h (a + 2) (n + 2) (hnext 2 (by omega)) (by omega), h (a + 3) (n + 3) (hnext 3 (by omega)) hn]

/-- The segment that the header is read as. -/
def headerSegment : Segment := ⟨elfhdr, 512 * 8, 0⟩

theorem headerIn_lay (mem : PhysMem) :
    HeaderIn disk (lay Segment.Spans (Segment.byteAt disk) mem headerSegment) := by
  intro a n ha hn
  have hpa : headerSegment.pa.toNat = 0x10000 := rfl
  have hfin : headerSegment.fin = 0x11000 := rfl
  have hoffset : headerSegment.offset.toNat = 0 := rfl
  have hspan : headerSegment.Spans a := by
    rw [Segment.Spans]
    omega
  have hplace : 0 / 512 * 512 + (0x10000 + n - 0x10000 / 512 * 512) = n := by omega
  rw [lay, if_pos hspan, Segment.byteAt, hpa, hoffset, ha, hplace]

/-- A segment that is clear of the scratch space leaves the header there. -/
theorem HeaderIn.lay (h : HeaderIn disk mem) {s : Segment}
    (hscratch : s.fin ≤ 0x10000 ∨ 0x11000 ≤ s.pa.toNat) :
    HeaderIn disk (lay Segment.Spans (Segment.byteAt disk) mem s) := by
  intro a n ha hn
  have hspan : ¬ s.Spans a := by
    rw [Segment.Spans]
    omega
  rw [Lib.lay, if_neg hspan]
  exact h a n ha hn

theorem HeaderIn.overlay (h : HeaderIn disk mem) {ss : List Segment}
    (hscratch : ∀ s ∈ ss, s.fin ≤ 0x10000 ∨ 0x11000 ≤ s.pa.toNat) :
    HeaderIn disk (overlay Segment.Spans (Segment.byteAt disk) mem ss) := by
  induction ss generalizing mem with
  | nil => exact h
  | cons s ss ih =>
      exact ih (h.lay (hscratch s List.mem_cons_self)) fun s' hs' =>
        hscratch s' (List.mem_cons_of_mem s hs')

end Header

/-! ## The loop -/

/-- The program headers from number `k` on. -/
def segmentsFrom (disk : Nat → BitVec 8) (k m : Nat) : List Segment :=
  (List.range' k m).map fun k => segmentAt disk (phoff disk + 32 * k)

theorem segments_eq (disk : Nat → BitVec 8) : segments disk = segmentsFrom disk 0 (phnum disk) := by
  rw [segments, segmentsFrom, List.range_eq_range']

section Loop

variable {disk : Nat → BitVec 8} {mem : PhysMem} {eph ph : BitVec 32} {k m : Nat}

/-- One turn: the header in the scratch space is the header in the image. -/
theorem loadSegments_turn (hmem : HeaderIn disk mem)
    (hph : ph.toNat = 0x10000 + (phoff disk + 32 * k))
    (hheaders : phoff disk + 32 * (k + 1) ≤ 4096) (hlt : ph < eph) (fuel : Nat) :
    loadSegments disk eph (fuel + 1) mem ph =
      readseg disk fuel mem (segmentAt disk (phoff disk + 32 * k)).pa
        (segmentAt disk (phoff disk + 32 * k)).filesz
        (segmentAt disk (phoff disk + 32 * k)).offset >>= fun mem =>
      loadSegments disk eph fuel mem (ph + 32) := by
  have hfield : ∀ j, j < 32 → (ph + BitVec.ofNat 32 j).toNat =
      0x10000 + (phoff disk + 32 * k + j) := by
    intro j hj
    rw [BitVec.toNat_add, BitVec.toNat_ofNat, hph]
    omega
  have hpa : load32 mem (ph + 12) = image32 disk (phoff disk + 32 * k + 12) :=
    hmem.load32_eq (hfield 12 (by omega)) (by omega)
  have hfilesz : load32 mem (ph + 16) = image32 disk (phoff disk + 32 * k + 16) :=
    hmem.load32_eq (hfield 16 (by omega)) (by omega)
  have hoffset : load32 mem (ph + 4) = image32 disk (phoff disk + 32 * k + 4) :=
    hmem.load32_eq (hfield 4 (by omega)) (by omega)
  rw [loadSegments, if_pos hlt, hpa, hfilesz, hoffset]
  rfl

theorem toNat_nextHeader (hph : ph.toNat = 0x10000 + (phoff disk + 32 * k))
    (hheaders : phoff disk + 32 * (k + 1) ≤ 4096) :
    (ph + 32).toNat = 0x10000 + (phoff disk + 32 * (k + 1)) := by
  rw [BitVec.toNat_add, hph]
  change (_ + 32) % 2 ^ 32 = _
  omega

theorem segmentsFrom_succ (disk : Nat → BitVec 8) (k m : Nat) :
    segmentsFrom disk k (m + 1) =
      segmentAt disk (phoff disk + 32 * k) :: segmentsFrom disk (k + 1) m := by
  rw [segmentsFrom, List.range'_succ, List.map_cons]
  rfl

/-- If every segment ends in front of the last sector, then all of them are laid over the memory, in
their order. -/
theorem loadSegments_settles (hmem : HeaderIn disk mem)
    (hph : ph.toNat = 0x10000 + (phoff disk + 32 * k))
    (heph : eph.toNat = 0x10000 + (phoff disk + 32 * (k + m)))
    (hheaders : phoff disk + 32 * (k + m) ≤ 4096)
    (hscratch : ∀ s ∈ segmentsFrom disk k m, s.fin ≤ 0x10000 ∨ 0x11000 ≤ s.pa.toNat)
    (hfits : ∀ s ∈ segmentsFrom disk k m, s.fin ≤ 2 ^ 32 - 512) :
    Settles (fun fuel => loadSegments disk eph fuel mem ph)
      (.ok (overlay Segment.Spans (Segment.byteAt disk) mem (segmentsFrom disk k m))) := by
  induction m generalizing mem ph k with
  | zero =>
      have hlt : ¬ ph < eph := by
        rw [BitVec.lt_def]
        omega
      refine Settles.last fun fuel => ?_
      rw [loadSegments, if_neg hlt]
      rfl
  | succ m ih =>
      have hlt : ph < eph := by
        rw [BitVec.lt_def]
        omega
      rw [segmentsFrom_succ] at hscratch hfits ⊢
      have hhead := hfits _ List.mem_cons_self
      have hrest := ih (hmem.lay (hscratch _ List.mem_cons_self))
        (toNat_nextHeader hph (by omega)) (by omega) (by omega)
        (fun s hs => hscratch s (List.mem_cons_of_mem _ hs))
        (fun s hs => hfits s (List.mem_cons_of_mem _ hs))
      exact Settles.call (readseg_settles hhead mem) hrest
        (loadSegments_turn hmem hph (by omega) hlt)

/-- If the loop ends, then every segment ends in front of the last sector. -/
theorem fits_of_loadSegments {mem' : PhysMem} (hmem : HeaderIn disk mem)
    (hph : ph.toNat = 0x10000 + (phoff disk + 32 * k))
    (heph : eph.toNat = 0x10000 + (phoff disk + 32 * (k + m)))
    (hheaders : phoff disk + 32 * (k + m) ≤ 4096)
    (hscratch : ∀ s ∈ segmentsFrom disk k m, s.fin ≤ 0x10000 ∨ 0x11000 ≤ s.pa.toNat)
    (hwrap : ∀ s ∈ segmentsFrom disk k m, s.fin < 2 ^ 32)
    (h : Settles (fun fuel => loadSegments disk eph fuel mem ph) (.ok mem')) :
    ∀ s ∈ segmentsFrom disk k m, s.fin ≤ 2 ^ 32 - 512 := by
  induction m generalizing mem ph k with
  | zero => exact fun s hs => absurd hs List.not_mem_nil
  | succ m ih =>
      have hlt : ph < eph := by
        rw [BitVec.lt_def]
        omega
      rw [segmentsFrom_succ] at hscratch hwrap ⊢
      have hturn := h.of_step (loadSegments_turn hmem hph (by omega) hlt)
      have hhead : (segmentAt disk (phoff disk + 32 * k)).fin ≤ 2 ^ 32 - 512 := by
        by_contra hlast
        obtain ⟨n, hn⟩ := hturn
        obtain ⟨mem₁, hmem₁, -⟩ := bind_ok_iff.mp (hn n le_rfl)
        exact readseg_not_ok (hwrap _ List.mem_cons_self) (by omega) n mem₁ hmem₁
      have hrest := Settles.of_bind (readseg_settles hhead mem) hturn
      intro s hs
      rcases List.mem_cons.mp hs with rfl | hs
      · exact hhead
      · exact ih (hmem.lay (hscratch _ List.mem_cons_self)) (toNat_nextHeader hph (by omega))
          (by omega) (by omega) (fun s hs => hscratch s (List.mem_cons_of_mem _ hs))
          (fun s hs => hwrap s (List.mem_cons_of_mem _ hs)) hrest s hs

end Loop

/-! ## Booting -/

section Boot

variable {disk : Nat → BitVec 8} (h : ElfImage disk)

include h

/-- Where the program headers are in the scratch space. -/
theorem ElfImage.toNat_ph :
    (elfhdr + image32 disk 28).toNat = 0x10000 + (phoff disk + 32 * 0) := by
  have hheaders := h.headers
  rw [BitVec.toNat_add]
  change (0x10000 + phoff disk) % 2 ^ 32 = _
  omega

theorem ElfImage.toNat_eph :
    (elfhdr + image32 disk 28 + 32 * (image16 disk 44).setWidth 32).toNat =
      0x10000 + (phoff disk + 32 * (0 + phnum disk)) := by
  have hheaders := h.headers
  have hnum : ((image16 disk 44).setWidth 32 : BitVec 32).toNat = phnum disk := by
    rw [BitVec.toNat_setWidth]
    change phnum disk % 2 ^ 32 = _
    omega
  rw [BitVec.toNat_add, h.toNat_ph, BitVec.toNat_mul, hnum]
  change (0x10000 + (phoff disk + 32 * 0) + 32 * phnum disk % 2 ^ 32) % 2 ^ 32 = _
  omega

/-- The header in the scratch space is read as it is in the image. -/
theorem ElfImage.loadKernel_eq {mem : PhysMem} (hmem : HeaderIn disk mem) (fuel : Nat) :
    loadKernel disk fuel mem =
      loadSegments disk (elfhdr + image32 disk 28 + 32 * (image16 disk 44).setWidth 32) fuel mem
        (elfhdr + image32 disk 28) >>= fun mem => .ok (mem, load32 mem (elfhdr + 24)) := by
  have hmagic : load32 mem elfhdr = image32 disk 0 := hmem.load32_eq rfl (by omega)
  have hphoff : load32 mem (elfhdr + 28) = image32 disk 28 := hmem.load32_eq rfl (by omega)
  have hphnum : load16 mem (elfhdr + 44) = image16 disk 44 := hmem.load16_eq rfl (by omega)
  rw [loadKernel, hmagic, if_pos h.magic, hphoff, hphnum]

/-- The memory after the loop. -/
theorem ElfImage.bootmain_settles (hfits : ∀ s ∈ segments disk, s.fin ≤ 2 ^ 32 - 512)
    (mem : PhysMem) :
    Settles (fun fuel => bootmain disk fuel mem)
      (.ok (overlay Segment.Spans (Segment.byteAt disk)
        (lay Segment.Spans (Segment.byteAt disk) mem headerSegment) (segments disk),
        image32 disk 24)) := by
  have hscratch := h.scratch
  have hmem := @headerIn_lay disk mem
  have hentry : load32 _ (elfhdr + 24) = image32 disk 24 :=
    (hmem.overlay hscratch).load32_eq rfl (by omega)
  rw [← hentry]
  rw [segments_eq] at hfits hscratch ⊢
  have hheader : Settles (fun fuel => readseg disk fuel mem elfhdr (512 * 8) 0) _ :=
    readseg_settles (by decide : headerSegment.fin ≤ 2 ^ 32 - 512) mem
  refine hheader.bind ?_
  have hloop := loadSegments_settles hmem h.toNat_ph h.toNat_eph
    (by rw [Nat.zero_add]; exact h.headers) hscratch hfits
  obtain ⟨n, hn⟩ := hloop
  refine ⟨n, fun fuel hfuel => ?_⟩
  have hload : loadSegments disk _ fuel _ _ = .ok _ := hn fuel hfuel
  dsimp only
  rw [h.loadKernel_eq hmem, hload, ok_bind]

/-- A segment that ends in the last sector is never read to its end. -/
theorem ElfImage.fits_of_bootmain {mem : PhysMem} {r : PhysMem × BitVec 32}
    (hboot : Settles (fun fuel => bootmain disk fuel mem) (.ok r)) :
    ∀ s ∈ segments disk, s.fin ≤ 2 ^ 32 - 512 := by
  have hscratch := h.scratch
  have hwrap := h.noWrap
  rw [segments_eq] at hscratch hwrap ⊢
  have hmem := @headerIn_lay disk mem
  have hheader : Settles (fun fuel => readseg disk fuel mem elfhdr (512 * 8) 0) _ :=
    readseg_settles (by decide : headerSegment.fin ≤ 2 ^ 32 - 512) mem
  obtain ⟨n, hn⟩ := Settles.of_bind hheader hboot
  have hloop : Settles (fun fuel => loadSegments disk
      (elfhdr + image32 disk 28 + 32 * (image16 disk 44).setWidth 32) fuel
      (lay Segment.Spans (Segment.byteAt disk) mem headerSegment) (elfhdr + image32 disk 28))
      (.ok r.1) := by
    refine ⟨n, fun fuel hfuel => ?_⟩
    have hkernel : loadKernel disk fuel _ = .ok r := hn fuel hfuel
    rw [h.loadKernel_eq hmem] at hkernel
    obtain ⟨mem', hmem', hr⟩ := bind_ok_iff.mp hkernel
    dsimp only
    rw [hmem', ← Except.ok.inj hr]
  exact fits_of_loadSegments hmem h.toNat_ph h.toNat_eph
    (by rw [Nat.zero_add]; exact h.headers) hscratch hwrap hloop

end Boot

/-! ## What is in memory -/

/-- The segments end in front of the last sector of the address space, and the last segment that
reads over a byte of a segment reads that byte. -/
structure Loadable (disk : Nat → BitVec 8) : Prop where
  fits : ∀ s ∈ segments disk, s.fin ≤ 2 ^ 32 - 512
  agree : ∀ s ∈ segments disk, ∀ k, k < s.filesz.toNat → ∀ t,
    lastCover Segment.Spans (segments disk) (s.pa + BitVec.ofNat 32 k) = some t →
    t.byteAt disk (s.pa + BitVec.ofNat 32 k) = imageByte disk (s.offset.toNat + k)

section Loaded

variable {disk : Nat → BitVec 8} {s : Segment} {k : Nat}

theorem Segment.toNat_byte (hwrap : s.fin < 2 ^ 32) (hk : k < s.filesz.toNat) :
    (s.pa + BitVec.ofNat 32 k).toNat = s.pa.toNat + k := by
  rw [Segment.fin] at hwrap
  rw [BitVec.toNat_add, BitVec.toNat_ofNat]
  omega

theorem Segment.spans_byte (hwrap : s.fin < 2 ^ 32) (hk : k < s.filesz.toNat) :
    s.Spans (s.pa + BitVec.ofNat 32 k) := by
  rw [Segment.Spans, Segment.toNat_byte hwrap hk, Segment.fin]
  omega

/-- A segment puts its own bytes where they belong. -/
theorem Segment.byteAt_byte (hwrap : s.fin < 2 ^ 32) (hk : k < s.filesz.toNat)
    (haligned : s.pa.toNat % 512 = s.offset.toNat % 512) :
    s.byteAt disk (s.pa + BitVec.ofNat 32 k) = imageByte disk (s.offset.toNat + k) := by
  have hplace : s.offset.toNat / 512 * 512 + (s.pa.toNat + k - s.pa.toNat / 512 * 512) =
      s.offset.toNat + k := by omega
  rw [Segment.byteAt, Segment.toNat_byte hwrap hk, hplace]

/-- Segments that begin with a sector can be loaded: no sector is read for two of them. -/
theorem ElfImage.loadable_of_sectors (h : ElfImage disk)
    (hfits : ∀ s ∈ segments disk, s.fin ≤ 2 ^ 32 - 512)
    (hsectors : ∀ s ∈ segments disk, s.pa.toNat % 512 = 0) : Loadable disk := by
  refine ⟨hfits, fun s hs k hk t ht => ?_⟩
  have hwrap := h.noWrap s hs
  obtain ⟨hspans, before, after, hsplit, heq | hbefore⟩ :=
    eq_or_mem_before hs (Segment.spans_byte hwrap hk) ht
  · rw [← heq]
    exact Segment.byteAt_byte hwrap hk (h.aligned s hs)
  · -- a later segment in whose sectors the byte is begins in front of it, but not before `s`
    have hordered := h.ordered
    have hdisjoint := h.disjoint
    rw [hsplit, List.pairwise_append] at hordered hdisjoint
    have hle := hordered.2.2 s hbefore t List.mem_cons_self
    have hnone := hdisjoint.2.2 s hbefore t List.mem_cons_self t.pa.toNat
    have hsector := hsectors t (hsplit ▸ List.mem_append_right _ List.mem_cons_self)
    rw [Segment.Spans, Segment.toNat_byte hwrap hk] at hspans
    have hfin : s.fin = s.pa.toNat + s.filesz.toNat := rfl
    omega

/-- The memory that the loader leaves. -/
theorem ElfImage.bootmain_memory (h : ElfImage disk) {mem mem' : PhysMem} {entry : BitVec 32}
    (hboot : Settles (fun fuel => bootmain disk fuel mem) (.ok (mem', entry))) :
    mem' = overlay Segment.Spans (Segment.byteAt disk)
      (lay Segment.Spans (Segment.byteAt disk) mem headerSegment) (segments disk) := by
  have hsettles := h.bootmain_settles (h.fits_of_bootmain hboot) mem
  exact congrArg Prod.fst (Except.ok.inj (hboot.unique hsettles))

/-- Nothing is read over the loader or its stack. -/
theorem ElfImage.loader_kept (h : ElfImage disk) (hclear : ClearOfLoader disk)
    {mem mem' : PhysMem} {entry : BitVec 32}
    (hboot : Settles (fun fuel => bootmain disk fuel mem) (.ok (mem', entry))) {a : BitVec 32}
    (ha : a.toNat < 0x7E00) : mem' a = mem a := by
  have hbelow : ∀ t : Segment, 0x7E00 ≤ t.pa.toNat → ¬ t.Spans a := by
    intro t ht hspans
    rw [Segment.Spans] at hspans
    omega
  have hnone : lastCover Segment.Spans (segments disk) a = none := by
    refine List.find?_eq_none.mpr fun t ht => ?_
    exact fun hspans => hbelow t (hclear t (List.mem_reverse.mp ht)) (of_decide_eq_true hspans)
  rw [h.bootmain_memory hboot, overlay_apply, hnone]
  exact if_neg (hbelow headerSegment (by decide))

end Loaded

/-- The loader gets every segment into memory intact exactly if the image is `Loadable`, and leaves
itself and its stack alone if the image keeps clear of them. -/
theorem bootmain_loads_iff (disk : Nat → BitVec 8) (h : ElfImage disk) (mem : PhysMem) :
    ((∃ mem' entry, Settles (fun fuel => bootmain disk fuel mem) (.ok (mem', entry)) ∧
      ∀ s ∈ segments disk, ∀ k, k < s.filesz.toNat →
        mem' (s.pa + BitVec.ofNat 32 k) = imageByte disk (s.offset.toNat + k)) ↔
      Loadable disk) ∧
    (ClearOfLoader disk → ∀ mem' entry,
      Settles (fun fuel => bootmain disk fuel mem) (.ok (mem', entry)) →
      ∀ a : BitVec 32, a.toNat < 0x7E00 → mem' a = mem a) := by
  refine ⟨⟨?_, ?_⟩, fun hclear _ _ hboot _ => h.loader_kept hclear hboot⟩
  · rintro ⟨mem', entry, hboot, hbytes⟩
    refine ⟨h.fits_of_bootmain hboot, fun s hs k hk t ht => ?_⟩
    rw [← hbytes s hs k hk, h.bootmain_memory hboot, overlay_of_last ht]
  · intro hload
    refine ⟨_, _, h.bootmain_settles hload.fits mem, fun s hs k hk => ?_⟩
    obtain ⟨t, ht⟩ := exists_lastCover hs (Segment.spans_byte (h.noWrap s hs) hk)
    rw [overlay_of_last ht]
    exact hload.agree s hs k hk t ht

/-! ### Two segments -/

/-- A disk with an image of these words. -/
def wordsDisk (words : List (BitVec 32)) (n : Nat) : BitVec 8 :=
  (words.getD ((n - 512) / 4) 0 >>> (8 * (n % 4))).setWidth 8

/-- An image with two segments, and with a 1 at offset `0x200`. -/
def twoSegments (a b : Segment) : Nat → BitVec 8 :=
  wordsDisk ([0x464C457F, 0, 0, 0, 0, 0, 0x100000, 52, 0, 0, 0, 2, 0,
    1, a.offset, a.pa, a.pa, a.filesz, a.filesz, 7, 512,
    1, b.offset, b.pa, b.pa, b.filesz, b.filesz, 7, 512] ++ List.replicate 99 0 ++ [1])

/-- The second segment is in the next sector. -/
def tidyDisk : Nat → BitVec 8 := twoSegments ⟨0x100000, 1, 0x200⟩ ⟨0x100200, 1, 0x400⟩

/-- The second segment is the next byte, but comes from elsewhere in the image. -/
def tornDisk : Nat → BitVec 8 := twoSegments ⟨0x100000, 1, 0x200⟩ ⟨0x100001, 1, 0x401⟩

theorem segments_tidyDisk :
    segments tidyDisk = [⟨0x100000, 1, 0x200⟩, ⟨0x100200, 1, 0x400⟩] := by decide

theorem segments_tornDisk :
    segments tornDisk = [⟨0x100000, 1, 0x200⟩, ⟨0x100001, 1, 0x401⟩] := by decide

/-- An image of two segments, the first of which ends before the second begins. -/
theorem ElfImage.of_pair {disk : Nat → BitVec 8} {a b : Segment} (hsegs : segments disk = [a, b])
    (hmagic : image32 disk 0 = elfMagic) (hheaders : phoff disk + 32 * phnum disk ≤ 4096)
    (haligned : ∀ s ∈ [a, b], s.pa.toNat % 512 = s.offset.toNat % 512)
    (hscratch : ∀ s ∈ [a, b], 0x11000 ≤ s.pa.toNat) (hab : a.fin ≤ b.pa.toNat)
    (hwrap : b.fin < 2 ^ 32) : ElfImage disk := by
  have hfin : ∀ s : Segment, s.pa.toNat ≤ s.fin := fun s => Nat.le_add_right _ _
  refine ⟨hmagic, hheaders, ?_, ?_, ?_, ?_, ?_⟩
  all_goals rw [hsegs]
  · exact haligned
  · exact List.pairwise_pair.mpr ((hfin a).trans hab)
  · exact List.pairwise_pair.mpr fun x hx => by omega
  · exact List.forall_mem_cons.mpr ⟨(hab.trans (hfin b)).trans_lt hwrap,
      List.forall_mem_singleton.mpr hwrap⟩
  · exact fun s hs => .inr (hscratch s hs)

theorem elfImage_tidyDisk : ElfImage tidyDisk :=
  .of_pair segments_tidyDisk (by decide) (by decide) (by decide) (by decide) (by decide)
    (by decide)

/-- The loader gets both segments of the first image into memory, and is still there itself. -/
theorem bootmain_loads_iff_tidy :
    ∃ mem' entry, Settles (fun fuel => bootmain tidyDisk fuel fun _ => 0) (.ok (mem', entry)) ∧
      (∀ s ∈ segments tidyDisk, ∀ k, k < s.filesz.toNat →
        mem' (s.pa + BitVec.ofNat 32 k) = imageByte tidyDisk (s.offset.toNat + k)) ∧
      ∀ a : BitVec 32, a.toNat < 0x7E00 → mem' a = 0 := by
  have hload : Loadable tidyDisk := by
    refine elfImage_tidyDisk.loadable_of_sectors ?_ ?_
    all_goals
      rw [segments_tidyDisk]
      decide
  have hclear : ClearOfLoader tidyDisk := by
    rw [ClearOfLoader, segments_tidyDisk]
    decide
  obtain ⟨hiff, hkept⟩ := bootmain_loads_iff tidyDisk elfImage_tidyDisk fun _ => 0
  obtain ⟨mem', entry, hboot, hbytes⟩ := hiff.mpr hload
  exact ⟨mem', entry, hboot, hbytes, hkept hclear mem' entry hboot⟩

theorem elfImage_tornDisk : ElfImage tornDisk :=
  .of_pair segments_tornDisk (by decide) (by decide) (by decide) (by decide) (by decide)
    (by decide)

/-- The second segment of the second image takes the byte of the first one away. -/
theorem bootmain_tears :
    ElfImage tornDisk ∧ segments tornDisk = [⟨0x100000, 1, 0x200⟩, ⟨0x100001, 1, 0x401⟩] ∧
      imageByte tornDisk 0x200 = 1 ∧
      ∃ mem' entry, Settles (fun fuel => bootmain tornDisk fuel fun _ => 0) (.ok (mem', entry)) ∧
        mem' 0x100000 = 0 := by
  have hfits : ∀ s ∈ segments tornDisk, s.fin ≤ 2 ^ 32 - 512 := by
    rw [segments_tornDisk]
    decide
  refine ⟨elfImage_tornDisk, segments_tornDisk, by decide, _, _,
    elfImage_tornDisk.bootmain_settles hfits _, ?_⟩
  have hlast : lastCover Segment.Spans (segments tornDisk) 0x100000 =
      some ⟨0x100001, 1, 0x401⟩ := by
    rw [segments_tornDisk]
    decide
  rw [overlay_of_last hlast]
  decide

end Nctuos
