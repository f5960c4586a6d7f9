import Nctuos.LibString
import Mathlib.Logic.Function.Basic

/-!
# The text screen

`kernel/screen.c` writes to the text buffer of the VGA card, 25 rows of 80 cells, each a character
and an attribute byte, with a cursor that it keeps itself.  Here is what each call does to the bytes
of the buffer.

The cursor is an `int` and the index of a cell is computed from it, so it has to stay on the screen
for the writes to.  This it does after every call (`screen_bounds`): the two tests at the end of
`k_putch` restore what the branches for the characters have broken, and a row is at most one too
far when `scroll` is entered.

The cells that `sys_cls` and `scroll` clear are to have the current colour, as the comments say, and
a `blank` is computed for it.  But `memset` takes a byte of it, the lower one, which is 0.  The
cleared cells are 0, colour and all, whatever the colour is (`blank_cells_iff`).

The lock is left out; each call is made with the lock held from beginning to end.  The hardware
cursor is the position last sent to the card.
-/

namespace Nctuos

open Lib

/-! ## The screen -/

def textmemptr : Nat := 0xB8000

/-- The variables of `kernel/screen.c`, the memory and the hardware cursor. -/
structure Screen where
  ram : ByteRam
  attrib : Nat
  csrX : Int
  csrY : Int
  hwCursor : Nat

/-- The address `textmemptr + idx`, of a pointer to 16-bit cells. -/
def textAddr (idx : Int) : Nat := ((textmemptr + 2 * idx) % 2 ^ 32).toNat

namespace Screen

/-- `0x0 | (attrib << 8)`, as an `unsigned short`. -/
def blank (s : Screen) : Nat := (s.attrib <<< 8) % 2 ^ 16

/-- A 16-bit store to the cell with index `idx`. -/
def put (s : Screen) (idx : Int) (w : Nat) : Screen :=
  { s with ram := s.ram.stos 2 w (textAddr idx) }

def scroll (s : Screen) : Screen :=
  if 25 ≤ s.csrY then
    -- an `unsigned short`
    let temp : Int := (s.csrY - 25 + 1) % 2 ^ 16
    let ram := memcpy (textAddr 0) (textAddr (temp * 80)) (((25 - temp) * 80 * 2) % 2 ^ 32).toNat
      s.ram
    let ram := memset (textAddr ((25 - temp) * 80)) s.blank (80 * 2) ram
    { s with ram := ram, csrY := 25 - 1 }
  else s

def moveCsr (s : Screen) : Screen :=
  { s with hwCursor := ((s.csrY * 80 + s.csrX) % 2 ^ 16).toNat }

/-- The loop of `sys_cls`, as far as row `n`. -/
def clearRows (s : Screen) (n : Nat) : Screen :=
  { s with
    ram := (List.range n).foldl (fun ram (i : Nat) => memset (textAddr (i * 80)) s.blank (80 * 2) ram)
      s.ram }

def sysCls (s : Screen) : Screen := { s.clearRows 25 with csrX := 0, csrY := 0 }.moveCsr

/-- The branches of `k_putch` for the kinds of characters. -/
def edit (s : Screen) (c : BitVec 8) : Screen :=
  let att := (s.attrib <<< 8) % 2 ^ 16
  if c = 0x08 then
    if s.csrX ≠ 0 then
      { s.put (s.csrY * 80 + s.csrX - 1) (0x0 ||| att) with csrX := s.csrX - 1 }
    else s
  -- `& ~(8 - 1)` takes off what is left of a division by 8, also from a negative number
  else if c = 0x09 then { s with csrX := s.csrX + 8 - (s.csrX + 8) % 8 }
  else if c = 0x0D then { s with csrX := 0 }
  else if c = 0x0A then { s with csrX := 0, csrY := s.csrY + 1 }
  else if 0x20 ≤ c then
    { s.put (s.csrY * 80 + s.csrX) (c.toNat ||| att) with csrX := s.csrX + 1 }
  else s

/-- The test of `k_putch` behind the branches: a row that is full is left. -/
def wrap (s : Screen) : Screen :=
  if 80 ≤ s.csrX then { s with csrX := 0, csrY := s.csrY + 1 } else s

/-- `k_putch` up to the call of `scroll`. -/
def putchar (s : Screen) (c : BitVec 8) : Screen := (s.edit c).wrap

def kPutch (s : Screen) (c : BitVec 8) : Screen := (s.putchar c).scroll.moveCsr

def sysSettextcolor (s : Screen) (forecolor backcolor : BitVec 8) : Screen :=
  { s with attrib := (backcolor.toNat <<< 4) ||| (forecolor.toNat &&& 0x0F) }

/-- The variables before `init_video`, with anything in memory. -/
def boot (bytes : Nat → BitVec 8) : Screen := ⟨⟨bytes, []⟩, 0x0F, 0, 0, 0⟩

def initVideo (s : Screen) : Screen := s.sysCls

/-- The two bytes of a cell, as a number. -/
def cell (s : Screen) (i : Nat) : Nat :=
  (s.ram.byte (textmemptr + 2 * i)).toNat + 2 ^ 8 * (s.ram.byte (textmemptr + 2 * i + 1)).toNat

end Screen

/-! ## What is written -/

namespace Screen

variable {s : Screen} {c : BitVec 8} {x i n : Nat}

theorem textAddr_eq {idx : Int} (h : 0 ≤ idx) (hlt : idx ≤ 2 ^ 16) :
    textAddr idx = textmemptr + 2 * idx.toNat := by
  rw [textAddr, textmemptr]
  omega

/-- The lower byte of a blank is 0. -/
theorem blank_byte (s : Screen) : BitVec.ofNat 8 s.blank = 0 := by
  apply BitVec.eq_of_toNat_eq
  rw [blank, BitVec.toNat_ofNat, Nat.shiftLeft_eq]
  exact (by omega : s.attrib * 2 ^ 8 % 2 ^ 16 % 2 ^ 8 = 0)

theorem clearRows_succ :
    (s.clearRows (n + 1)).ram =
      memset (textAddr (n * 80)) s.blank (80 * 2) (s.clearRows n).ram := by
  rw [clearRows, List.range_succ, List.foldl_append]
  rfl

theorem clearRows_byte (hn : n ≤ 25) :
    (s.clearRows n).ram.byte x =
      if textmemptr ≤ x ∧ x < textmemptr + n * 160 then 0 else s.ram.byte x := by
  induction n with
  | zero =>
      rw [if_neg (by omega)]
      rfl
  | succ n ih =>
      rw [clearRows_succ, memset_byte, ih (by omega), blank_byte, textAddr_eq (by omega) (by omega)]
      by_cases hrow : textmemptr + 2 * ((n : Int) * 80).toNat ≤ x ∧
          x < textmemptr + 2 * ((n : Int) * 80).toNat + 80 * 2
      · rw [if_pos hrow, if_pos (by omega)]
      · rw [if_neg hrow]
        by_cases hold : textmemptr ≤ x ∧ x < textmemptr + n * 160
        · rw [if_pos hold, if_pos (by omega)]
        · rw [if_neg hold, if_neg (by omega)]

/-- `sys_cls` makes all of the screen 0. -/
theorem sysCls_byte (hx : textmemptr ≤ x ∧ x < textmemptr + 4000) : s.sysCls.ram.byte x = 0 :=
  (clearRows_byte le_rfl).trans (if_pos hx)

/-- A store to a cell of the screen. -/
theorem put_byte {idx : Int} {w : Nat} (h : 0 ≤ idx) (hlt : idx < 2000) :
    (s.put idx w).ram.byte x =
      if x = textmemptr + 2 * idx.toNat then BitVec.ofNat 8 w
      else if x = textmemptr + 2 * idx.toNat + 1 then BitVec.ofNat 8 (w / 2 ^ 8)
      else s.ram.byte x := by
  change (s.ram.stos 2 w (textAddr idx)).byte x = _
  rw [ByteRam.stos_byte, textAddr_eq h (by omega)]
  by_cases hlow : x = textmemptr + 2 * idx.toNat
  · rw [if_pos (by omega), if_pos hlow, hlow, Nat.sub_self]
    rfl
  · rw [if_neg hlow]
    by_cases hhigh : x = textmemptr + 2 * idx.toNat + 1
    · rw [if_pos (by omega), if_pos hhigh, hhigh, Nat.add_sub_cancel_left, Nat.mul_one,
        Nat.shiftRight_eq_div_pow]
    · rw [if_neg (by omega), if_neg hhigh]

/-- `scroll`, when the cursor is in the row behind the last. -/
theorem scroll_eq (h : s.csrY = 25) :
    s.scroll = { s with
      ram := memset (textmemptr + 3840) s.blank 160 (memcpy textmemptr (textmemptr + 160) 3840 s.ram)
      csrY := 24 } := by
  have htemp : (s.csrY - 25 + 1) % 2 ^ 16 = 1 := by omega
  have hfirst : textAddr 0 = textmemptr := by decide
  have hsecond : textAddr (1 * 80) = textmemptr + 160 := by decide
  have hlast : textAddr ((25 - 1) * 80) = textmemptr + 3840 := by decide
  have hsize : (((25 - 1) * 80 * 2 : Int) % 2 ^ 32).toNat = 3840 := by decide
  rw [scroll, if_pos (by omega)]
  simp only [htemp, hfirst, hsecond, hlast, hsize]
  rfl

theorem scroll_of_lt (h : s.csrY < 25) : s.scroll = s := if_neg (by omega)

/-- The rows move up by one, and the last one is 0. -/
theorem scroll_byte (h : s.csrY = 25) (hx : textmemptr ≤ x ∧ x < textmemptr + 4000) :
    s.scroll.ram.byte x = if x < textmemptr + 3840 then s.ram.byte (x + 160) else 0 := by
  rw [scroll_eq h, memset_byte, blank_byte, memcpy, memmove_byte]
  generalize textmemptr = base at *
  by_cases hlt : x < base + 3840
  · have hsrc : base + 160 + (x - base) = x + 160 := by omega
    rw [if_neg (by omega), if_pos (by omega), if_pos hlt, hsrc]
  · rw [if_pos (by omega), if_neg hlt]

/-! ## The cursor -/

/-- Every byte that was ever stored, or moved, is one of the text buffer. -/
def InBuffer (m : ByteRam) : Prop :=
  ∀ a ∈ m.used, textmemptr ≤ a ∧ a < textmemptr + 25 * 80 * 2

/-- The cursor is on the screen, and nothing else has been touched. -/
structure OnScreen (s : Screen) : Prop where
  csrX : 0 ≤ s.csrX ∧ s.csrX < 80
  csrY : 0 ≤ s.csrY ∧ s.csrY < 25
  used : InBuffer s.ram

/-- The cursor behind the branches of `k_putch`: it is one too far to the right, or down, or on the
screen. -/
structure Edited (s : Screen) : Prop where
  csrX : 0 ≤ s.csrX ∧ s.csrX ≤ 80
  csrY : 0 ≤ s.csrY ∧ s.csrY ≤ 25
  one : s.csrX < 80 ∨ s.csrY < 25
  used : InBuffer s.ram

/-- The cursor when `scroll` is entered. -/
structure AtScroll (s : Screen) : Prop where
  csrX : 0 ≤ s.csrX ∧ s.csrX < 80
  csrY : 0 ≤ s.csrY ∧ s.csrY ≤ 25
  used : InBuffer s.ram

theorem InBuffer.put {idx : Int} {w : Nat} (h : InBuffer s.ram) (hle : 0 ≤ idx)
    (hlt : idx < 2000) : InBuffer (s.put idx w).ram := by
  intro a ha
  rcases List.mem_append.mp ha with hnew | hold
  · have hspan := ByteRam.mem_span.mp hnew
    rw [textAddr_eq hle (by omega)] at hspan
    omega
  · exact h a hold

theorem InBuffer.memset {m : ByteRam} {v w k : Nat} (h : InBuffer m) (hle : textmemptr ≤ v)
    (hlt : v + k ≤ textmemptr + 4000) : InBuffer (memset v w k m) := by
  intro a ha
  rcases memset_used ha with hold | hnew
  · exact h a hold
  · omega

/-- One character, as far as the test for a full row. -/
theorem OnScreen.edit (h : OnScreen s) (c : BitVec 8) : Edited (s.edit c) := by
  obtain ⟨hx, hy, hused⟩ := h
  have hhere : Edited s := ⟨by omega, by omega, by omega, hused⟩
  rw [Screen.edit]
  dsimp only
  split
  · split
    · rename_i hne
      exact ⟨by dsimp only; omega, by dsimp only [Screen.put]; omega, Or.inr hy.2,
        hused.put (by omega) (by omega)⟩
    · exact hhere
  · split
    · exact ⟨by dsimp only; omega, by dsimp only; omega, Or.inr hy.2, hused⟩
    · split
      · exact ⟨by dsimp only; omega, by dsimp only; omega, Or.inr hy.2, hused⟩
      · split
        · exact ⟨by dsimp only; omega, by dsimp only; omega, Or.inl (by dsimp only; omega), hused⟩
        · split
          · exact ⟨by dsimp only; omega, by dsimp only [Screen.put]; omega, Or.inr hy.2,
              hused.put (by omega) (by omega)⟩
          · exact hhere

theorem Edited.wrap (h : Edited s) : AtScroll s.wrap := by
  obtain ⟨hx, hy, hone, hused⟩ := h
  rw [Screen.wrap]
  split
  · exact ⟨by dsimp only; omega, by dsimp only; omega, hused⟩
  · exact ⟨by omega, by omega, hused⟩

theorem AtScroll.scroll (h : AtScroll s) : OnScreen s.scroll := by
  obtain ⟨hx, hy, hused⟩ := h
  by_cases hlt : s.csrY < 25
  · rw [scroll_of_lt hlt]
    exact ⟨hx, ⟨hy.1, hlt⟩, hused⟩
  · rw [scroll_eq (by omega)]
    refine ⟨hx, by dsimp only; omega, InBuffer.memset ?_ (by omega) (by omega)⟩
    intro a ha
    rcases memmove_lower_used (by omega) ha with hold | hnew
    · exact hused a hold
    · omega

/-- A row behind the last is met by `scroll` only, and never two. -/
theorem OnScreen.putchar (h : OnScreen s) (c : BitVec 8) : AtScroll (s.putchar c) :=
  (h.edit c).wrap

theorem OnScreen.kPutch (h : OnScreen s) (c : BitVec 8) : OnScreen (s.kPutch c) := by
  obtain ⟨hx, hy, hused⟩ := (h.putchar c).scroll
  exact ⟨hx, hy, hused⟩

theorem InBuffer.clearRows (h : InBuffer s.ram) (hn : n ≤ 25) : InBuffer (s.clearRows n).ram := by
  induction n with
  | zero => exact h
  | succ n ih =>
      rw [clearRows_succ, textAddr_eq (by omega) (by omega)]
      exact (ih (by omega)).memset (by omega) (by omega)

theorem OnScreen.sysCls (h : InBuffer s.ram) : OnScreen s.sysCls :=
  ⟨⟨Int.le_refl 0, Int.ofNat_lt.mpr (by decide : 0 < 80)⟩,
    ⟨Int.le_refl 0, Int.ofNat_lt.mpr (by decide : 0 < 25)⟩, h.clearRows le_rfl⟩

end Screen

/-! ## Runs -/

/-- The calls that change the screen. -/
inductive ScreenCall where
  | putch (c : BitVec 8)
  | cls
  | settextcolor (forecolor backcolor : BitVec 8)

def ScreenCall.apply (s : Screen) : ScreenCall → Screen
  | putch c => s.kPutch c
  | cls => s.sysCls
  | settextcolor forecolor backcolor => s.sysSettextcolor forecolor backcolor

namespace Screen

variable {s : Screen} {c : BitVec 8} {x i n : Nat}

theorem OnScreen.apply (h : OnScreen s) (call : ScreenCall) : OnScreen (call.apply s) := by
  cases call with
  | putch c => exact h.kPutch c
  | cls => exact OnScreen.sysCls h.used
  | settextcolor forecolor backcolor => exact ⟨h.csrX, h.csrY, h.used⟩

theorem OnScreen.calls (h : OnScreen s) (calls : List ScreenCall) :
    OnScreen (calls.foldl ScreenCall.apply s) := by
  induction calls generalizing s with
  | nil => exact h
  | cons call calls ih => exact ih (h.apply call)

theorem OnScreen.initVideo (bytes : Nat → BitVec 8) : OnScreen (boot bytes).initVideo :=
  OnScreen.sysCls fun _ hmem => absurd hmem List.not_mem_nil

/-- The cursor, and all that is stored or moved, stay on the screen, and `scroll` has one row to
scroll at most. -/
theorem screen_bounds (bytes : Nat → BitVec 8) (calls : List ScreenCall) :
    OnScreen (calls.foldl ScreenCall.apply (boot bytes).initVideo) ∧
    ∀ c, ((calls.foldl ScreenCall.apply (boot bytes).initVideo).putchar c).csrY ≤ 25 := by
  have hcalls := (OnScreen.initVideo bytes).calls calls
  exact ⟨hcalls, fun c => (hcalls.putchar c).csrY.2⟩

/-! ## Blanks -/

theorem blank_eq (s : Screen) : s.blank = s.attrib % 2 ^ 8 * 2 ^ 8 := by
  rw [blank, Nat.shiftLeft_eq]
  omega

/-- The colour that is set, as far as a cell holds it. -/
theorem sysSettextcolor_attrib (s : Screen) (forecolor backcolor : BitVec 8) :
    (s.sysSettextcolor forecolor backcolor).attrib % 2 ^ 8 =
      forecolor.toNat % 16 + 16 * (backcolor.toNat % 16) := by
  have hfore : forecolor.toNat &&& 0x0F = forecolor.toNat % 2 ^ 4 :=
    Nat.and_two_pow_sub_one_eq_mod forecolor.toNat 4
  rw [sysSettextcolor, hfore,
    ← Nat.shiftLeft_add_eq_or_of_lt (Nat.mod_lt forecolor.toNat (by decide : 0 < 2 ^ 4)),
    Nat.shiftLeft_eq]
  dsimp only
  omega

theorem sysCls_cell (s : Screen) (hi : i < 2000) : s.sysCls.cell i = 0 := by
  rw [cell, sysCls_byte (by omega), sysCls_byte (by omega)]
  rfl

theorem scroll_cell (h : s.csrY = 25) (hi : i < 2000) :
    s.scroll.cell i = if i < 1920 then s.cell (i + 80) else 0 := by
  rw [cell, scroll_byte h (by omega), scroll_byte h (by omega)]
  by_cases hlt : i < 1920
  · rw [if_pos (by omega), if_pos (by omega), if_pos hlt, cell]
    have hlow : textmemptr + 2 * (i + 80) = textmemptr + 2 * i + 160 := by omega
    rw [hlow, Nat.add_right_comm _ 1 160]
  · rw [if_neg (by omega), if_neg (by omega), if_neg hlt]
    rfl

/-- What the comments promise: `sys_cls`, and a character that makes the screen scroll, leave cells
in the current colour, and the rows that move up keep theirs. -/
def BlankCells (s : Screen) : Prop :=
  (∀ i < 25 * 80, s.sysCls.cell i = s.blank) ∧
  ∀ c, 25 ≤ (s.putchar c).csrY →
    (∀ i < 80, (s.kPutch c).cell (24 * 80 + i) = s.blank) ∧
    ∀ i < 24 * 80, (s.kPutch c).cell i = (s.putchar c).cell (i + 80)

theorem blankCells_iff (h : OnScreen s) : BlankCells s ↔ s.blank = 0 := by
  constructor
  · rintro ⟨hcls, -⟩
    rw [← hcls 0 (by decide), sysCls_cell s (by decide)]
  · intro hblank
    refine ⟨fun i hi => (sysCls_cell s hi).trans hblank.symm, ?_⟩
    intro c hscroll
    have hrow : (s.putchar c).csrY = 25 := by
      have := (h.putchar c).csrY.2
      omega
    constructor
    · intro i hi
      exact (scroll_cell hrow (by omega)).trans ((if_neg (by omega)).trans hblank.symm)
    · intro i hi
      exact (scroll_cell hrow (by omega)).trans (if_pos (by omega))

/-- A blank has the colour only if there is none: `memset` fills with the lower byte. -/
theorem blank_cells_iff (h : OnScreen s) (forecolor backcolor : BitVec 8) :
    BlankCells (s.sysSettextcolor forecolor backcolor) ↔
      forecolor.toNat % 16 = 0 ∧ backcolor.toNat % 16 = 0 := by
  have hset : OnScreen (s.sysSettextcolor forecolor backcolor) := h.apply (.settextcolor _ _)
  rw [blankCells_iff hset, blank_eq, sysSettextcolor_attrib]
  omega

theorem blank_cells_black :
    BlankCells ((boot fun _ => 0x41).initVideo.sysSettextcolor 0 0) :=
  (blank_cells_iff (OnScreen.initVideo _) 0 0).mpr (by decide)

/-- White on blue: the screen is cleared to black on black, and so is the row that comes up. -/
theorem cleared_cells_lose_colour :
    let s := (boot fun _ => 0x41).initVideo.sysSettextcolor 0x0F 0x01
    s.blank = 0x1F00 ∧ s.sysCls.cell 0 = 0 ∧
    ((List.replicate 25 (0x0A : BitVec 8)).foldl kPutch s).cell (24 * 80) = 0 := by
  decide +kernel

end Screen

end Nctuos
