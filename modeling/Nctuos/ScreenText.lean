import Nctuos.Screen
import Mathlib.Data.List.GetD
import Mathlib.Data.List.Induction

/-!
# What the screen shows

The rows of a text are a matter of the text alone: a row ends at a newline, or when it has eighty
cells, and a tab fills it up to the next multiple of eight.  `k_putch` never sees the text.  It has
the cursor and the cells of the last 25 rows, and moves them when a row is added.

That the screen is the end of the text (`screen_shows_end`) is an invariant of the characters put.
It is about a text with the rows `front ++ [last]`, of which `k` have been scrolled away, `last`
being the row of the cursor.  A character is added to `last`, which is then perhaps full, and one row
more is perhaps scrolled away; a row that has just been begun has no cells yet, so nothing is lost
with what `scroll` clears.
-/

namespace Nctuos

open Lib

/-! ## Rows -/

/-- A row with one character more, which is not a newline. -/
def extendRow (row : List (BitVec 8)) (c : BitVec 8) : List (BitVec 8) :=
  row ++ if c = 0x09 then List.replicate (8 - row.length % 8) 0 else [c]

/-- The rows of a text, the first of which has begun with `row`. -/
def rowsFrom (row : List (BitVec 8)) : List (BitVec 8) → List (List (BitVec 8))
  | [] => [row]
  | c :: text =>
      if c = 0x0A then row :: rowsFrom [] text
      else if (extendRow row c).length < 80 then rowsFrom (extendRow row c) text
      else extendRow row c :: rowsFrom [] text

def textRows (text : List (BitVec 8)) : List (List (BitVec 8)) := rowsFrom [] text

/-- The last 25 rows, or all of them. -/
def lastRows (text : List (BitVec 8)) : List (List (BitVec 8)) :=
  (textRows text).drop ((textRows text).length - 25)

/-- The cell in row `y` and column `x`, where what is not written is 0. -/
def cellOf (rows : List (List (BitVec 8))) (y x : Nat) : BitVec 8 := (rows.getD y []).getD x 0

example : textRows [0x41, 0x09, 0x42, 0x0A, 0x43] =
    [[0x41, 0, 0, 0, 0, 0, 0, 0, 0x42], [0x43]] := by decide

section Rows

variable {front rows : List (List (BitVec 8))} {last : List (BitVec 8)} {c : BitVec 8} {y x n : Nat}

theorem cellOf_left (h : y < front.length) : cellOf (front ++ rows) y x = cellOf front y x := by
  rw [cellOf, List.getD_append _ _ _ _ h, cellOf]

theorem cellOf_right (h : front.length ≤ y) :
    cellOf (front ++ rows) y x = cellOf rows (y - front.length) x := by
  rw [cellOf, List.getD_append_right _ _ _ _ h, cellOf]

theorem cellOf_last : cellOf (front ++ [last]) front.length x = last.getD x 0 := by
  rw [cellOf_right le_rfl, Nat.sub_self]
  rfl

theorem cellOf_beyond (h : rows.length ≤ y) : cellOf rows y x = 0 := by
  rw [cellOf, List.getD_eq_default _ _ h]
  rfl

theorem cellOf_drop : cellOf (rows.drop n) y x = cellOf rows (n + y) x := by
  simp only [cellOf, List.getD_eq_getElem?_getD, List.getElem?_drop]

theorem cellOf_behind (h : front.length < y) : cellOf (front ++ [last]) y x = 0 :=
  cellOf_beyond (by rw [List.length_append]; exact h)

/-- A change of the last row is seen in that row only. -/
theorem cellOf_replace {last' : List (BitVec 8)}
    (h : y = front.length → last'.getD x 0 = last.getD x 0) :
    cellOf (front ++ [last']) y x = cellOf (front ++ [last]) y x := by
  rcases lt_trichotomy y front.length with hlt | rfl | hgt
  · rw [cellOf_left hlt, cellOf_left hlt]
  · rw [cellOf_last, cellOf_last, h rfl]
  · rw [cellOf_behind hgt, cellOf_behind hgt]

/-- A row that has just been begun is blank. -/
theorem cellOf_begun : cellOf (rows ++ [[]]) y x = cellOf rows y x := by
  rcases lt_trichotomy y rows.length with hlt | rfl | hgt
  · rw [cellOf_left hlt]
  · rw [cellOf_last, cellOf_beyond le_rfl]
    rfl
  · rw [cellOf_behind hgt, cellOf_beyond hgt.le]

theorem getD_tab : (last ++ List.replicate n 0).getD x (0 : BitVec 8) = last.getD x 0 := by
  rcases Nat.lt_or_ge x last.length with hlt | hge
  · rw [List.getD_append _ _ _ _ hlt]
  · rw [List.getD_append_right _ _ _ _ hge, List.getD_eq_default _ _ hge,
      List.getD_eq_getElem?_getD, List.getElem?_getD_replicate_default_eq]

theorem getD_concat :
    (last ++ [c]).getD x 0 = if x = last.length then c else last.getD x 0 := by
  rcases lt_trichotomy x last.length with hlt | rfl | hgt
  · rw [List.getD_append _ _ _ _ hlt, if_neg hlt.ne]
  · rw [List.getD_append_right _ _ _ _ le_rfl, Nat.sub_self, if_pos rfl]
    rfl
  · rw [List.getD_eq_default _ _ (by rw [List.length_append]; exact hgt),
      List.getD_eq_default _ _ hgt.le,
      if_neg hgt.ne']

end Rows

/-! ## The invariant -/

/-- The character byte in row `y` and column `x`. -/
def Screen.charAt (s : Screen) (y x : Nat) : BitVec 8 :=
  s.ram.byte (textmemptr + 2 * (y * 80 + x))

/-- The screen shows the rows `front ++ [last]` from row `k` on, with the cursor behind them. -/
structure Shows (front : List (List (BitVec 8))) (last : List (BitVec 8)) (k : Nat) (s : Screen) :
    Prop where
  cells : ∀ y < 25, ∀ x < 80, s.charAt y x = cellOf (front ++ [last]) (k + y) x
  csrY : s.csrY + k = front.length
  csrX : s.csrX = last.length

namespace Shows

variable {front : List (List (BitVec 8))} {last : List (BitVec 8)} {k : Nat} {s : Screen}
  {c : BitVec 8}

theorem moveCsr (h : Shows front last k s) : Shows front last k s.moveCsr := ⟨h.cells, h.csrY, h.csrX⟩

theorem sysCls (s : Screen) : Shows [] [] 0 s.sysCls := by
  refine ⟨fun y hy x hx => ?_, rfl, rfl⟩
  rw [Screen.charAt, Screen.sysCls_byte (by omega), List.nil_append, ← List.nil_append [[]],
    cellOf_begun, cellOf_beyond (Nat.zero_le _)]

section Shown

variable (h : Shows front last k s)

include h

/-- The row is ended. -/
theorem begin : Shows (front ++ [last]) [] k { s with csrX := 0, csrY := s.csrY + 1 } := by
  refine ⟨fun y hy x hx => ?_, ?_, rfl⟩
  · rw [cellOf_begun]
    exact h.cells y hy x hx
  · rw [List.length_append, List.length_singleton]
    have := h.csrY
    push_cast
    omega

theorem tab :
    Shows front (extendRow last 0x09) k { s with csrX := s.csrX + 8 - (s.csrX + 8) % 8 } := by
  refine ⟨fun y hy x hx => ?_, h.csrY, ?_⟩
  · rw [extendRow, if_pos rfl, cellOf_replace fun _ => getD_tab]
    exact h.cells y hy x hx
  · have := h.csrX
    rw [extendRow, if_pos rfl, List.length_append, List.length_replicate]
    dsimp only
    omega

theorem print (hrow : front.length < k + 25) (hlast : last.length < 80) (hk : k ≤ front.length)
    (hc : c ≠ 0x09) {w : Nat} (hw : BitVec.ofNat 8 w = c) :
    Shows front (extendRow last c) k
      { s.put (s.csrY * 80 + s.csrX) w with csrX := s.csrX + 1 } := by
  have hcsrX := h.csrX
  have hcsrY := h.csrY
  rw [extendRow, if_neg hc]
  refine ⟨fun y hy x hx => ?_, h.csrY, ?_⟩
  · change (s.put (s.csrY * 80 + s.csrX) w).ram.byte _ = _
    rw [Screen.put_byte (by omega) (by omega)]
    by_cases hcell : y * 80 + x = (s.csrY * 80 + s.csrX).toNat
    · -- the cell of the cursor
      have hrow' : k + y = front.length := by omega
      rw [if_pos (by omega), hw, hrow', cellOf_last, getD_concat, if_pos (by omega)]
    · rw [if_neg (by omega), if_neg (by omega)]
      refine (h.cells y hy x hx).trans (cellOf_replace fun hrow' => ?_).symm
      rw [getD_concat, if_neg (by omega)]
  · rw [List.length_append, List.length_singleton]
    dsimp only
    omega

/-- The test for a full row. -/
theorem wrap :
    s.wrap = if last.length < 80 then s else { s with csrX := 0, csrY := s.csrY + 1 } := by
  have hcsrX := h.csrX
  rw [Screen.wrap]
  by_cases hfull : last.length < 80
  · rw [if_pos hfull, if_neg (by omega)]
  · rw [if_neg hfull, if_pos (by omega)]

/-- A character that is not a newline extends the row of the cursor. -/
theorem extend (hrow : front.length < k + 25) (hlast : last.length < 80) (hk : k ≤ front.length)
    (hc : 0x20 ≤ c ∨ c = 0x09) : Shows front (extendRow last c) k (s.edit c) := by
  rcases hc with hc | rfl
  · have hne : c ≠ 0x08 ∧ c ≠ 0x09 ∧ c ≠ 0x0D ∧ c ≠ 0x0A := by
      refine ⟨?_, ?_, ?_, ?_⟩
      all_goals
        rintro rfl
        exact absurd hc (by decide)
    have hbyte : BitVec.ofNat 8 (c.toNat ||| (s.attrib <<< 8) % 2 ^ 16) = c := by
      rw [BitVec.ofNat_or, BitVec.ofNat_toNat, BitVec.setWidth_eq]
      exact (congrArg (c ||| ·) s.blank_byte).trans BitVec.or_zero
    rw [Screen.edit, if_neg hne.1, if_neg hne.2.1, if_neg hne.2.2.1, if_neg hne.2.2.2, if_pos hc]
    exact h.print hrow hlast hk hne.2.1 hbyte
  · exact h.tab

/-- One character, as far as `scroll`: the rows are those of the longer text, and at most one of
them, without any cells, is behind the end of the screen. -/
theorem putchar (hrow : front.length < k + 25) (hlast : last.length < 80) (hk : k ≤ front.length)
    (hc : 0x20 ≤ c ∨ c = 0x0A ∨ c = 0x09) :
    ∃ front' last', (∀ text, front ++ rowsFrom last (c :: text) = front' ++ rowsFrom last' text) ∧
      last'.length < 80 ∧
      (front' = front ∨ front'.length = front.length + 1 ∧ last' = []) ∧
      Shows front' last' k (s.putchar c) := by
  by_cases hnl : c = 0x0A
  · subst hnl
    refine ⟨front ++ [last], [], fun text => ?_, by decide, Or.inr ⟨?_, rfl⟩, h.begin⟩
    · rw [rowsFrom, if_pos rfl, List.append_assoc]
      rfl
    · exact List.length_append
  · have hext := h.extend hrow hlast hk (hc.imp_right fun hc => hc.resolve_left hnl)
    rw [Screen.putchar, hext.wrap]
    by_cases hfull : (extendRow last c).length < 80
    · rw [if_pos hfull]
      refine ⟨front, extendRow last c, fun text => ?_, hfull, Or.inl rfl, hext⟩
      rw [rowsFrom, if_neg hnl, if_pos hfull]
    · rw [if_neg hfull]
      refine ⟨front ++ [extendRow last c], [], fun text => ?_, by decide, Or.inr ⟨?_, rfl⟩,
        hext.begin⟩
      · rw [rowsFrom, if_neg hnl, if_neg hfull, List.append_assoc]
        rfl
      · exact List.length_append

end Shown

/-- `scroll` shows the rows from one further down. -/
theorem scroll (h : Shows front [] k s) (hrow : front.length = k + 25) :
    Shows front [] (k + 1) s.scroll := by
  have hcsrY := h.csrY
  have hlast : s.csrY = 25 := by omega
  refine ⟨fun y hy x hx => ?_, ?_, ?_⟩
  · rw [Screen.charAt, Screen.scroll_byte hlast (by omega)]
    by_cases hup : y < 24
    · rw [if_pos (by omega)]
      have hsrc : textmemptr + 2 * (y * 80 + x) + 160 = textmemptr + 2 * ((y + 1) * 80 + x) := by
        omega
      rw [hsrc, Nat.add_assoc, Nat.add_comm 1 y]
      exact h.cells (y + 1) (by omega) x hx
    · rw [if_neg (by omega), cellOf_begun, cellOf_beyond (by omega)]
  · rw [Screen.scroll_eq hlast, hrow]
    dsimp only
    omega
  · rw [Screen.scroll_eq hlast]
    exact h.csrX

end Shows

/-! ## Texts -/

/-- The characters of a text that only goes forward. -/
def PlainText (text : List (BitVec 8)) : Prop := ∀ c ∈ text, 0x20 ≤ c ∨ c = 0x0A ∨ c = 0x09

/-- One character. -/
theorem Shows.kPutch {front : List (List (BitVec 8))} {last : List (BitVec 8)} {s : Screen}
    {c : BitVec 8} (h : Shows front last (front.length - 24) s) (hlast : last.length < 80)
    (hc : 0x20 ≤ c ∨ c = 0x0A ∨ c = 0x09) :
    ∃ front' last', (∀ text, front ++ rowsFrom last (c :: text) = front' ++ rowsFrom last' text) ∧
      last'.length < 80 ∧ Shows front' last' (front'.length - 24) (s.kPutch c) := by
  obtain ⟨front', last', hrows, hlast', hnew, hshows⟩ :=
    h.putchar (by omega) hlast (by omega) hc
  refine ⟨front', last', hrows, hlast', Shows.moveCsr ?_⟩
  have hcsrY := hshows.csrY
  by_cases hscroll : front'.length = front.length - 24 + 25
  · obtain rfl : last' = [] := by
      rcases hnew with rfl | ⟨-, hnil⟩
      · omega
      · exact hnil
    have hk : front'.length - 24 = front.length - 24 + 1 := by omega
    rw [hk]
    exact hshows.scroll hscroll
  · have hlength : front'.length = front.length ∨ front'.length = front.length + 1 :=
      hnew.imp (congrArg List.length) And.left
    have hk : front'.length - 24 = front.length - 24 := by omega
    rw [hk, Screen.scroll_of_lt (by omega)]
    exact hshows

/-- After every text the screen shows its rows, from the one that leaves 25. -/
theorem shows_text (s : Screen) {text : List (BitVec 8)} (h : PlainText text) :
    ∃ front last, (∀ more, textRows (text ++ more) = front ++ rowsFrom last more) ∧
      last.length < 80 ∧ Shows front last (front.length - 24) (text.foldl Screen.kPutch s.sysCls) := by
  induction text using List.reverseRecOn with
  | nil => exact ⟨[], [], fun more => rfl, by decide, Shows.sysCls s⟩
  | append_singleton text c ih =>
      obtain ⟨front, last, hrows, hlast, hshows⟩ :=
        ih fun d hd => h d (List.mem_append_left _ hd)
      obtain ⟨front', last', hrows', hlast', hshows'⟩ :=
        hshows.kPutch hlast (h c (List.mem_append_right _ (List.mem_singleton_self c)))
      refine ⟨front', last', fun more => ?_, hlast', ?_⟩
      · rw [List.append_assoc, hrows, ← hrows']
        rfl
      · rw [List.foldl_append]
        exact hshows'

/-- The screen shows the end of the text, and the cursor is where it ends. -/
theorem screen_shows_end (s : Screen) (text : List (BitVec 8)) (h : PlainText text) :
    (∀ y < 25, ∀ x < 80,
      (text.foldl Screen.kPutch s.sysCls).charAt y x = cellOf (lastRows text) y x) ∧
    (text.foldl Screen.kPutch s.sysCls).csrY + 1 = (lastRows text).length ∧
    ∃ row, (lastRows text).getLast? = some row ∧
      (text.foldl Screen.kPutch s.sysCls).csrX = row.length := by
  obtain ⟨front, last, hrows, -, hshows⟩ := shows_text s h
  have htext : textRows text = front ++ [last] := by
    rw [← List.append_nil text, hrows]
    rfl
  have hlength : (textRows text).length - 25 = front.length - 24 := by
    rw [htext, List.length_append, List.length_singleton]
    omega
  have hcsrY := hshows.csrY
  refine ⟨fun y hy x hx => ?_, ?_, last, ?_, hshows.csrX⟩
  · rw [lastRows, cellOf_drop, hlength, htext]
    exact hshows.cells y hy x hx
  · rw [lastRows, List.length_drop, hlength, htext, List.length_append, List.length_singleton]
    omega
  · rw [lastRows, hlength, htext, List.drop_append_of_le_length (by omega), List.getLast?_concat]

/-- Twenty-six lines, of which the first is gone. -/
theorem screen_shows_end_scrolled :
    let text : List (BitVec 8) := 0x41 :: List.replicate 25 0x0A ++ [0x42]
    let s := text.foldl Screen.kPutch (Screen.boot fun _ => 0x58).sysCls
    lastRows text = List.replicate 24 [] ++ [[0x42]] ∧
    s.charAt 0 0 = 0 ∧ s.charAt 24 0 = 0x42 ∧ s.csrY + 1 = 25 := by
  have hplain : PlainText (0x41 :: List.replicate 25 0x0A ++ [0x42]) := by
    simp only [PlainText, List.mem_append, List.mem_cons, List.mem_replicate]
    decide
  obtain ⟨hcells, hcsrY, -⟩ := screen_shows_end (Screen.boot fun _ => 0x58) _ hplain
  exact ⟨by decide, hcells 0 (by decide) 0 (by decide), hcells 24 (by decide) 0 (by decide), hcsrY⟩

end Nctuos
