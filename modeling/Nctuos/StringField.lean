import Nctuos.PrintField

/-!
# Fields of strings

`%W.Ps` and `%-W.Ps`, against the first `P` characters of a string padded to `W`.

Behind the `.` the same `switch` reads the precision that has read the flags, so a precision that
begins with a `0`, and that is only the precision 0, is no precision but the flag to pad with zeros,
which also takes the place of a flag to pad on the right.  The other precisions are read as they are
written, as far as they fit into an `int`.

The width is counted down in three loops.  The first leaves at most 0 of it and the second goes on
from there, one for each character, so a string of more than 2^30 characters can bring the width
below the least `int` and around to a positive one, for the third loop to pad with.
-/

namespace Nctuos

open Lib

/-! ## What is printed of a string -/

/-- The number of characters that a precision leaves of a string; a negative one leaves all. -/
def shown (precision : Int) (len : Nat) : Nat := if precision < 0 then len else min precision.toNat len

section Loops

variable {s : List (BitVec 8)} {d : FmtSpec}

theorem strnlen_eq (hs : 0 ∉ s) (size : Nat) : strnlen s size = min s.length size := by
  induction s generalizing size with
  | nil => exact (Nat.zero_min size).symm
  | cons c s ih =>
      rw [List.mem_cons, not_or] at hs
      cases size with
      | zero => exact (Nat.min_zero _).symm
      | succ size =>
          rw [strnlen, if_neg (Ne.symm hs.1), ih hs.2, List.length_cons, Nat.add_min_add_right]

theorem shown_le (precision : Int) (len : Nat) : shown precision len ≤ len := by
  rw [shown]
  split <;> omega

/-- Without a precision, all of the string. -/
theorem shown_none (len : Nat) : shown (-1) len = len := rfl

theorem shown_cons (precision : Int) (len : Nat) :
    shown precision (len + 1) =
      if precision < 0 ∨ 0 ≤ precision - 1 then
        shown (if precision < 0 then precision else precision - 1) len + 1
      else 0 := by
  rw [shown, shown]
  by_cases hneg : precision < 0
  · simp only [hneg, true_or, if_true]
  · simp only [hneg, false_or, if_false]
    split
    · rw [if_neg (by omega)]
      omega
    · omega

/-- The middle loop: the characters, and the width less their number. -/
theorem stringLoop_eq (hs : 0 ∉ s) (precision : Int) {width : Int} (hwidth : wrap32 width = width) :
    stringLoop false s precision width =
      ((s.take (shown precision s.length)).map BitVec.toInt,
        wrap32 (width - shown precision s.length)) := by
  induction s generalizing precision width with
  | nil =>
      have hnone : shown precision 0 = 0 := Nat.le_zero.mp (shown_le precision 0)
      rw [stringLoop, List.length_nil, hnone, Int.natCast_zero, Int.sub_zero, hwidth]
      rfl
  | cons c s ih =>
      rw [List.mem_cons, not_or] at hs
      rw [stringLoop, List.length_cons, shown_cons]
      by_cases hmore : precision < 0 ∨ 0 ≤ precision - 1
      · rw [if_pos ⟨Ne.symm hs.1, hmore⟩, if_pos hmore, ih hs.2 _ (wrap32_idem (width - 1)),
          List.take_succ_cons, wrap32_pred_sub]
        rfl
      · rw [if_neg fun h => hmore h.2, if_neg hmore, Int.natCast_zero, Int.sub_zero, hwidth]
        rfl

/-- No padding on the left: all of the width is for the end. -/
theorem stringOut_right (hs : 0 ∉ s) {padc : Char} {width precision lflag : Int}
    (hwidth : wrap32 width = width) (hright : width ≤ 0 ∨ padc = '-') :
    stringOut ⟨padc, width, precision, lflag, false⟩ s =
      (s.take (shown precision s.length)).map BitVec.toInt ++
        List.replicate (wrap32 (width - shown precision s.length)).toNat (charInt ' ') := by
  have hleft : ¬ (0 < width ∧ padc ≠ '-') := by
    rintro ⟨hpos, hpadc⟩
    rcases hright with hle | hdash
    · omega
    · exact hpadc hdash
  rw [stringOut, if_neg hleft, stringLoop_eq hs _ hwidth]

/-- Padding on the left. -/
theorem stringOut_left (hs : 0 ∉ s) (hlen : s.length < 2 ^ 31) {padc : Char}
    {width precision lflag : Int} (hwidth : 0 < width ∧ width < 2 ^ 31)
    (hprecision : -2 ^ 31 ≤ precision ∧ precision < 2 ^ 31) (hpadc : padc ≠ '-') :
    stringOut ⟨padc, width, precision, lflag, false⟩ s =
      List.replicate (width - shown precision s.length).toNat (charInt padc) ++
        (s.take (shown precision s.length)).map BitVec.toInt ++
        List.replicate (wrap32 (min (width - shown precision s.length) 0 -
          shown precision s.length)).toNat (charInt ' ') := by
  have hstrnlen : strnlen s (precision % 2 ^ 32).toNat = shown precision s.length := by
    rw [strnlen_eq hs, shown]
    split <;> omega
  have hle := shown_le precision s.length
  generalize hk : shown precision s.length = k at *
  have hless : wrap32 (width - wrap32 k) = width - k := by
    rw [@wrap32_of_mem k (by omega) (by omega)]
    exact wrap32_of_mem (by omega) (by omega)
  have hmin : wrap32 (min (width - k) 0) = min (width - k) 0 := wrap32_of_mem (by omega) (by omega)
  rw [stringOut, if_pos ⟨hwidth.1, hpadc⟩]
  dsimp only
  rw [hstrnlen, hless, stringLoop_eq hs _ hmin, hk]

end Loops

/-! ## String fields -/

/-- `%W.Ps` and `%-W.Ps`, or without the precision. -/
def stringDirective (minus : Bool) (W : Nat) (P : Option Nat) : List (BitVec 8) :=
  ascii '%' :: ((if minus then [ascii '-'] else []) ++
    (numeral W ++ P.elim [] fun P => ascii '.' :: numeral P) ++ [ascii 's'])

example : stringDirective true 12 (some 3) = bytesOf "%-12.3s" := by decide

/-- The field that a directive is for. -/
def stringField (minus : Bool) (W : Nat) (P : Option Nat) (s : List (BitVec 8)) : List (BitVec 8) :=
  let text := s.take (P.elim s.length (min · s.length))
  let padding := List.replicate (W - text.length) (ascii ' ')
  if minus then text ++ padding else padding ++ text

/-- The flags, the width and the precision that are read. -/
def stringSpec (minus : Bool) (W : Nat) : Option Nat → FmtSpec
  | none => ⟨if minus then '-' else ' ', wrap32 W, -1, 0, false⟩
  | some 0 => ⟨'0', max (wrap32 W) 0, -1, 0, false⟩
  | some P => ⟨if minus then '-' else ' ', max (wrap32 W) 0, wrap32 P, 0, false⟩

section Strings

variable {W : Nat} {minus : Bool}

theorem isModifier_stringDirective (P : Option Nat) :
    ∀ m ∈ (if minus then [ascii '-'] else []) ++
      (numeral W ++ P.elim [] fun P => ascii '.' :: numeral P), isModifier m := by
  intro m hm
  rw [List.mem_append, List.mem_append] at hm
  rcases hm with hm | hm | hm
  · cases minus with
    | false => cases hm
    | true =>
        rw [List.mem_singleton.mp hm]
        decide
  · exact isModifier_of_mem_numeral hm
  · cases P with
    | none => cases hm
    | some P =>
        rcases List.mem_cons.mp hm with rfl | hm
        · decide
        · exact isModifier_of_mem_numeral hm

theorem readBody_string (minus : Bool) (hW : 0 < W) (P : Option Nat) (ap : List Arg) :
    readBody false .init ((if minus then [ascii '-'] else []) ++
      (numeral W ++ P.elim [] fun P => ascii '.' :: numeral P)) ap =
        .ok (stringSpec minus W P, ap) := by
  have hflag (rest : List (BitVec 8)) :
      readBody false .init ((if minus then [ascii '-'] else []) ++ rest) ap =
        readBody false { FmtSpec.init with padc := if minus then '-' else ' ' } rest ap := by
    cases minus with
    | false => exact readBody_flag .space rest ap
    | true => exact readBody_flag .minus rest ap
  -- the `.` behind the width
  have hdot (rest : List (BitVec 8)) :
      readBody true ⟨if minus then '-' else ' ', -1, wrap32 W, 0, false⟩ (ascii '.' :: rest) ap =
        readBody false ⟨if minus then '-' else ' ', max (wrap32 W) 0, -1, 0, false⟩ rest ap := by
    change readBody false (if wrap32 W < 0 then _ else _) rest ap = _
    split
    · rw [Int.max_eq_right (by omega)]
      rfl
    · rw [Int.max_eq_left (by omega)]
      rfl
  -- the end of a precision
  have hend (d : FmtSpec) (hd : 0 ≤ d.width) : readBody true d [] ap = .ok (d, ap) := by
    rw [readBody, FmtSpec.endNumber, if_pos rfl, FmtSpec.processPrecision, if_neg (by omega)]
  rw [hflag, readBody_numeral hW]
  cases P with
  | none => rfl
  | some P =>
      refine (hdot (numeral P)).trans ?_
      cases P with
      | zero => rfl
      | succ P =>
          rw [← List.append_nil (numeral (P + 1)), readBody_numeral P.succ_pos]
          exact hend _ (Int.le_max_right _ _)

/-- What the directive puts. -/
theorem emits_stringDirective (minus : Bool) (hW : 0 < W) (P : Option Nat) (s : List (BitVec 8)) :
    Emits (stringDirective minus W P) [.str (some s)] (stringOut (stringSpec minus W P) s) :=
  emits_directive (isModifier_stringDirective P) (by decide : fmtCase (ascii 's') = .conv .string)
    (readBody_string minus hW P _) rfl

end Strings

/-! ## Blanks -/

/-- A list of spaces. -/
def AllSpaces (s : List (BitVec 8)) : Prop := ∀ c ∈ s, c = ascii ' '

section Blanks

variable {s t : List (BitVec 8)} {a b c m : Nat}

theorem allSpaces_iff : AllSpaces s ↔ s = List.replicate s.length (ascii ' ') := by
  rw [List.eq_replicate_iff, and_iff_right rfl]
  rfl

/-- What is behind some spaces and stands at their beginning consists of spaces. -/
theorem allSpaces_of_shift (hm : 0 < m) (h : t <+: List.replicate m (ascii ' ') ++ t) :
    AllSpaces t := by
  obtain ⟨m, rfl⟩ := Nat.exists_eq_succ_of_ne_zero (Nat.ne_of_gt hm)
  induction t with
  | nil => exact fun c hc => absurd hc List.not_mem_nil
  | cons c t ih =>
      rw [List.replicate_succ, List.cons_append, List.cons_prefix_cons] at h
      obtain ⟨rfl, h⟩ := h
      have hrest : t <+: List.replicate (m + 1) (ascii ' ') ++ t := by
        rw [List.replicate_succ', List.append_assoc]
        exact h
      intro x hx
      rcases List.mem_cons.mp hx with rfl | hx
      · rfl
      · exact ih hrest x hx

theorem replicate_append_comm (ht : AllSpaces t) :
    List.replicate m (ascii ' ') ++ t = t ++ List.replicate m (ascii ' ') := by
  rw [allSpaces_iff.mp ht, List.replicate_append_replicate, List.replicate_append_replicate,
    Nat.add_comm]

/-- Spaces behind a text are as good as spaces in front of it if there are none of them, or if all is
spaces. -/
theorem padded_eq_iff :
    List.replicate a (ascii ' ') ++ t ++ List.replicate b (ascii ' ') =
        List.replicate c (ascii ' ') ++ t ↔
      a + b = c ∧ (b = 0 ∨ AllSpaces t) := by
  constructor
  · intro h
    have hlen := congrArg List.length h
    simp only [List.length_append, List.length_replicate] at hlen
    obtain rfl : a + b = c := by omega
    refine ⟨rfl, ?_⟩
    rcases Nat.eq_zero_or_pos b with hb | hb
    · exact Or.inl hb
    · rw [List.append_assoc, ← List.replicate_append_replicate, List.append_assoc,
        List.append_cancel_left_eq] at h
      exact Or.inr (allSpaces_of_shift hb ⟨_, h⟩)
  · rintro ⟨rfl, rfl | hspaces⟩
    · rw [List.replicate_zero, List.append_nil, Nat.add_zero]
    · rw [List.append_assoc, ← replicate_append_comm hspaces, ← List.append_assoc,
        List.replicate_append_replicate]

/-- A text that is cut short, with more spaces in front of it. -/
theorem cut_left_iff (hm : 0 < m) (hle : m ≤ s.length) :
    List.replicate (c + m) (ascii ' ') ++ s.take (s.length - m) =
        List.replicate c (ascii ' ') ++ s ↔ AllSpaces s := by
  rw [← List.replicate_append_replicate, List.append_assoc, List.append_cancel_left_eq]
  constructor
  · intro h
    refine allSpaces_of_shift hm ?_
    nth_rewrite 1 [← h]
    exact (List.prefix_append_right_inj _).mpr (List.take_prefix _ s)
  · intro h
    rw [allSpaces_iff.mp h, List.length_replicate, List.take_replicate,
      List.replicate_append_replicate]
    congr 1
    omega

/-- And with more spaces behind it. -/
theorem cut_right_iff :
    s.take m ++ List.replicate (s.length - m + c) (ascii ' ') = s ++ List.replicate c (ascii ' ') ↔
      AllSpaces (s.drop m) := by
  rw [← List.replicate_append_replicate, ← List.append_assoc, List.append_cancel_right_eq,
    allSpaces_iff, List.length_drop]
  nth_rewrite 3 [← List.take_append_drop m s]
  rw [List.append_cancel_left_eq]
  exact eq_comm

/-- Spaces with something else in front of them are no spaces. -/
theorem zeros_append_iff :
    List.replicate a (ascii '0') ++ s ++ List.replicate b (ascii ' ') =
        List.replicate c (ascii ' ') ↔
      a = 0 ∧ s.length + b = c ∧ AllSpaces s := by
  rw [List.eq_replicate_iff]
  simp only [List.length_append, List.length_replicate, List.mem_append, List.mem_replicate]
  constructor
  · rintro ⟨hlen, hmem⟩
    have ha : a = 0 := by
      by_contra hne
      exact absurd (hmem (ascii '0') (Or.inl (Or.inl ⟨hne, rfl⟩))) (by decide)
    exact ⟨ha, by omega, fun x hx => hmem x (Or.inl (Or.inr hx))⟩
  · rintro ⟨rfl, hlen, hspaces⟩
    refine ⟨by omega, fun x hx => ?_⟩
    rcases hx with (⟨hne, -⟩ | hx) | ⟨-, hx⟩
    · exact absurd rfl hne
    · exact hspaces x hx
    · exact hx

theorem map_toInt_inj {s t : List (BitVec 8)} : s.map BitVec.toInt = t.map BitVec.toInt ↔ s = t :=
  (List.map_injective_iff.mpr fun _ _ => BitVec.eq_of_toInt_eq).eq_iff

theorem replicate_space (n : Nat) :
    List.replicate n (charInt ' ') = (List.replicate n (ascii ' ')).map BitVec.toInt := by
  rw [List.map_replicate]
  rfl

theorem replicate_zero_char (n : Nat) :
    List.replicate n (charInt '0') = (List.replicate n (ascii '0')).map BitVec.toInt := by
  rw [List.map_replicate]
  rfl

end Blanks

/-! ## When the fields are right -/

/-- When a string field comes out as it should.  A precision of 0 is none.  The rest is a matter of
`int`s: of the width, of the precision, and of the width as it is counted down. -/
def StringFieldFits (minus : Bool) (W : Nat) (s : List (BitVec 8)) : Option Nat → Prop
  | none =>
      if minus then W < 2 ^ 31 + s.length
      else W < 2 ^ 31 ∧ 2 * s.length ≤ 2 ^ 31 + W ∨
        2 ^ 31 ≤ W ∧ W < 2 ^ 31 + s.length ∧ AllSpaces s
  | some 0 => s = List.replicate W (ascii ' ')
  | some P =>
      W < 2 ^ 31 ∧ (minus ∨ 2 * min P s.length ≤ 2 ^ 31 + W) ∧
        (min P s.length ≤ P % 2 ^ 32 ∨ 2 ^ 31 ≤ P % 2 ^ 32 ∨
          s.length ≤ W ∧ AllSpaces (if minus then s.drop (P % 2 ^ 32) else s))

section Fields

variable {s : List (BitVec 8)} {W : Nat} {minus : Bool}

/-- The spaces of a width that is not positive are all behind the string. -/
theorem stringOut_plain_right (hs : 0 ∉ s) {padc : Char} (hright : wrap32 W ≤ 0 ∨ padc = '-') :
    stringOut ⟨padc, wrap32 W, -1, 0, false⟩ s =
      (s ++ List.replicate (wrap32 (W - s.length)).toNat (ascii ' ')).map BitVec.toInt := by
  rw [stringOut_right hs (wrap32_idem W) hright, shown_none,
    List.take_length, Int.sub_eq_add_neg, wrap32_wrap32_add, ← Int.sub_eq_add_neg, replicate_space,
    List.map_append]

/-- Without a precision. -/
theorem stringOut_plain_iff (minus : Bool) (hs : 0 ∉ s) (hlen : s.length < 2 ^ 31) (hW : 0 < W) :
    stringOut (stringSpec minus W none) s = (stringField minus W none s).map BitVec.toInt ↔
      StringFieldFits minus W s none := by
  have hfield : stringField minus W none s =
      if minus then s ++ List.replicate (W - s.length) (ascii ' ')
      else List.replicate (W - s.length) (ascii ' ') ++ s := by
    rw [stringField, Option.elim_none, List.take_length]
  rw [hfield, StringFieldFits]
  cases minus with
  | true =>
      change stringOut ⟨'-', wrap32 W, -1, 0, false⟩ s = _ ↔ _
      rw [stringOut_plain_right hs (Or.inr rfl), map_toInt_inj, if_pos rfl, if_pos rfl,
        List.append_cancel_left_eq, List.replicate_inj, and_iff_left (Or.inr rfl), wrap32]
      omega
  | false =>
      change stringOut ⟨' ', wrap32 W, -1, 0, false⟩ s = _ ↔ _
      rw [if_neg Bool.false_ne_true, if_neg Bool.false_ne_true]
      by_cases hpos : 0 < wrap32 W
      · rw [stringOut_left hs hlen ⟨hpos, (wrap32_range W).2⟩ (by decide) (by decide),
          shown_none, List.take_length, replicate_space,
          replicate_space, ← List.map_append, ← List.map_append, map_toInt_inj, padded_eq_iff]
        by_cases hspaces : AllSpaces s
        · simp only [hspaces, or_true, and_true]
          rw [wrap32] at hpos ⊢
          rw [wrap32]
          omega
        · simp only [hspaces, or_false, and_false]
          rw [wrap32] at hpos ⊢
          rw [wrap32]
          omega
      · have hpadded := @padded_eq_iff s 0 (wrap32 (W - s.length)).toNat (W - s.length)
        rw [List.replicate_zero, List.nil_append, Nat.zero_add] at hpadded
        rw [stringOut_plain_right hs (Or.inl (Int.not_lt.mp hpos)), map_toInt_inj, hpadded]
        by_cases hspaces : AllSpaces s
        · simp only [hspaces, or_true, and_true]
          rw [wrap32] at hpos ⊢
          omega
        · simp only [hspaces, or_false, and_false]
          rw [wrap32] at hpos ⊢
          omega

/-- With the precision 0: the string is not cut, and the padding is of zeros. -/
theorem stringOut_zero_iff (minus : Bool) (hs : 0 ∉ s) (hlen : s.length < 2 ^ 31) (hW : 0 < W) :
    stringOut (stringSpec minus W (some 0)) s =
        (stringField minus W (some 0) s).map BitVec.toInt ↔
      StringFieldFits minus W s (some 0) := by
  have hfield : stringField minus W (some 0) s = List.replicate W (ascii ' ') := by
    rw [stringField, Option.elim_some, Nat.zero_min, List.take_zero]
    cases minus with
    | true => rfl
    | false => exact List.append_nil _
  have hrange := wrap32_range W
  rw [hfield]
  change stringOut ⟨'0', max (wrap32 W) 0, -1, 0, false⟩ s = _ ↔ s = List.replicate W (ascii ' ')
  by_cases hpos : 0 < wrap32 W
  · rw [Int.max_eq_left (by omega), stringOut_left hs hlen ⟨hpos, hrange.2⟩ (by decide) (by decide),
      shown_none, List.take_length, replicate_space]
    rw [replicate_zero_char, ← List.map_append, ← List.map_append, map_toInt_inj, zeros_append_iff,
      List.eq_replicate_iff]
    by_cases hspaces : AllSpaces s
    · rw [and_iff_left hspaces, and_iff_left (show ∀ c ∈ s, c = ascii ' ' from hspaces)]
      rw [wrap32] at hpos ⊢
      rw [wrap32]
      omega
    · exact ⟨fun h => absurd h.2.2 hspaces, fun h => absurd h.2 hspaces⟩
  · have hnone : (wrap32 (0 - s.length)).toNat = 0 := by
      rw [wrap32]
      omega
    rw [Int.max_eq_right (by omega), stringOut_right hs rfl (Or.inl le_rfl),
      shown_none, List.take_length, hnone, List.replicate_zero,
      List.append_nil, map_toInt_inj]

/-- What the `int` keeps of a precision shows as much, or fewer characters. -/
theorem shown_wrap32 (P : Nat) (hlen : s.length < 2 ^ 31) :
    (min P s.length ≤ P % 2 ^ 32 ∨ 2 ^ 31 ≤ P % 2 ^ 32) ∧
        shown (wrap32 P) s.length = min P s.length ∨
      P % 2 ^ 32 < s.length ∧ ¬ (2 ^ 31 ≤ P % 2 ^ 32) ∧ min P s.length = s.length ∧
        shown (wrap32 P) s.length = P % 2 ^ 32 := by
  rw [shown, wrap32]
  split <;> omega

/-- A text that is cut short in a field of the same width. -/
theorem cut_field_right_iff {q : Nat} (hq : q < s.length) :
    s.take q ++ List.replicate (W - q) (ascii ' ') =
        s ++ List.replicate (W - s.length) (ascii ' ') ↔
      s.length ≤ W ∧ AllSpaces (s.drop q) := by
  by_cases hfits : s.length ≤ W
  · rw [and_iff_right hfits, ← cut_right_iff, show W - q = s.length - q + (W - s.length) by omega]
  · constructor
    · intro h
      have := congrArg List.length h
      simp only [List.length_append, List.length_take, List.length_replicate] at this
      omega
    · exact fun h => absurd h.1 hfits

theorem cut_field_left_iff {q : Nat} (hq : q < s.length) (hlen : s.length < 2 ^ 31)
    (hW : W < 2 ^ 31) :
    List.replicate ((W : Int) - q).toNat (ascii ' ') ++ s.take q ++
          List.replicate (wrap32 (min ((W : Int) - q) 0 - q)).toNat (ascii ' ') =
        List.replicate (W - s.length) (ascii ' ') ++ s ↔
      s.length ≤ W ∧ AllSpaces s := by
  by_cases hfits : s.length ≤ W
  · have hbehind : (wrap32 (min ((W : Int) - q) 0 - q)).toNat = 0 := by
      rw [wrap32]
      omega
    have hcut := @cut_left_iff s (W - s.length) (s.length - q) (by omega) (by omega)
    rw [show s.length - (s.length - q) = q by omega] at hcut
    rw [and_iff_right hfits, hbehind, List.replicate_zero, List.append_nil, ← hcut,
      show ((W : Int) - q).toNat = W - s.length + (s.length - q) by omega]
  · constructor
    · intro h
      have := congrArg List.length h
      simp only [List.length_append, List.length_take, List.length_replicate] at this
      rw [wrap32] at this
      omega
    · exact fun h => absurd h.1 hfits

/-- With another precision, padded on the right. -/
theorem stringOut_minus_iff (hs : 0 ∉ s) (hlen : s.length < 2 ^ 31) (hW : W < 2 ^ 31) (P : Nat) :
    stringOut ⟨'-', W, wrap32 P, 0, false⟩ s =
        (s.take (min P s.length) ++ List.replicate (W - min P s.length) (ascii ' ')).map
          BitVec.toInt ↔
      min P s.length ≤ P % 2 ^ 32 ∨ 2 ^ 31 ≤ P % 2 ^ 32 ∨
        s.length ≤ W ∧ AllSpaces (s.drop (P % 2 ^ 32)) := by
  have hspaces (k : Nat) (hk : k < 2 ^ 31) : (wrap32 (W - k)).toNat = W - k := by
    rw [wrap32]
    omega
  rw [stringOut_right hs (wrap32_of_mem (by omega) (by omega)) (Or.inr rfl), replicate_space,
    ← List.map_append, map_toInt_inj]
  rcases shown_wrap32 P hlen with ⟨hkeeps, hshown⟩ | ⟨hq, hless, hall, hshown⟩
  · rw [hshown, hspaces _ (by omega), ← or_assoc]
    exact iff_of_true rfl (Or.inl hkeeps)
  · rw [hshown, hspaces _ (by omega), hall, List.take_length, cut_field_right_iff hq,
      or_iff_right (by omega), or_iff_right hless]

/-- And on the left. -/
theorem stringOut_space_iff (hs : 0 ∉ s) (hlen : s.length < 2 ^ 31) (hW : 0 < W ∧ W < 2 ^ 31)
    (P : Nat) :
    stringOut ⟨' ', W, wrap32 P, 0, false⟩ s =
        (List.replicate (W - min P s.length) (ascii ' ') ++ s.take (min P s.length)).map
          BitVec.toInt ↔
      2 * min P s.length ≤ 2 ^ 31 + W ∧ (min P s.length ≤ P % 2 ^ 32 ∨ 2 ^ 31 ≤ P % 2 ^ 32 ∨
        s.length ≤ W ∧ AllSpaces s) := by
  rw [stringOut_left hs hlen (by omega) (wrap32_range P) (by decide), replicate_space,
    replicate_space, ← List.map_append, ← List.map_append, map_toInt_inj]
  rcases shown_wrap32 P hlen with ⟨hkeeps, hshown⟩ | ⟨hq, hless, hall, hshown⟩
  · rw [hshown, padded_eq_iff, ← or_assoc, and_iff_left (Or.inl hkeeps)]
    have hk : min P s.length ≤ s.length := Nat.min_le_right _ _
    generalize min P s.length = k at hk
    constructor
    · rintro ⟨hsum, -⟩
      rw [wrap32] at hsum
      omega
    · intro hle
      rw [wrap32]
      omega
  · rw [hshown, hall, List.take_length, cut_field_left_iff hq hlen hW.2, or_iff_right (by omega),
      or_iff_right hless]
    refine ⟨fun h => ⟨?_, h⟩, And.right⟩
    have := h.1
    omega

/-- A width that is no `int` never comes back to itself. -/
theorem stringOut_wide_ne (hs : 0 ∉ s) (hlen : s.length < 2 ^ 31) (hW : 2 ^ 31 ≤ W) {padc : Char}
    {precision : Int} (hprecision : -2 ^ 31 ≤ precision ∧ precision < 2 ^ 31) {out : List Int}
    (hout : out.length = W) :
    stringOut ⟨padc, max (wrap32 W) 0, precision, 0, false⟩ s ≠ out := by
  have hle := shown_le precision s.length
  obtain ⟨w, hw⟩ : ∃ w, w = max (wrap32 W) 0 := ⟨_, rfl⟩
  rw [← hw]
  rw [wrap32] at hw
  rintro rfl
  by_cases hleft : 0 < w ∧ padc ≠ '-'
  · rw [stringOut_left hs hlen ⟨hleft.1, by omega⟩ hprecision hleft.2] at hout
    simp only [List.length_append, List.length_replicate, List.length_map, List.length_take] at hout
    rw [wrap32] at hout
    omega
  · have hright : w ≤ 0 ∨ padc = '-' := by
      rw [not_and_or, not_lt, not_not] at hleft
      exact hleft
    rw [stringOut_right hs (wrap32_of_mem (by omega) (by omega)) hright] at hout
    simp only [List.length_append, List.length_replicate, List.length_map, List.length_take] at hout
    rw [wrap32] at hout
    omega

theorem stringField_length (minus : Bool) (W P : Nat) (s : List (BitVec 8)) :
    (stringField minus W (some P) s).length = max W (min P s.length) := by
  rw [stringField]
  split <;> simp only [Option.elim_some, List.length_append, List.length_replicate,
    List.length_take] <;> omega

/-- With another precision. -/
theorem stringOut_precision_iff (minus : Bool) (hs : 0 ∉ s) (hlen : s.length < 2 ^ 31) (hW : 0 < W)
    (P : Nat) :
    stringOut (stringSpec minus W (some (P + 1))) s =
        (stringField minus W (some (P + 1)) s).map BitVec.toInt ↔
      StringFieldFits minus W s (some (P + 1)) := by
  have hspec : stringSpec minus W (some (P + 1)) =
      ⟨if minus then '-' else ' ', max (wrap32 W) 0, wrap32 (P + 1 : Nat), 0, false⟩ := rfl
  by_cases hfits : W < 2 ^ 31
  · have hwidth : max (wrap32 W) 0 = W := by
      rw [wrap32]
      omega
    have htake : (s.take (min (P + 1) s.length)).length = min (P + 1) s.length := by
      rw [List.length_take]
      omega
    rw [hspec, hwidth, stringField, Option.elim_some, htake]
    cases minus with
    | true =>
        refine (stringOut_minus_iff hs hlen hfits (P + 1)).trans ?_
        exact ⟨fun h => ⟨hfits, Or.inl rfl, h⟩, fun h => h.2.2⟩
    | false =>
        refine (stringOut_space_iff hs hlen ⟨hW, hfits⟩ (P + 1)).trans ?_
        exact ⟨fun h => ⟨hfits, Or.inr h.1, h.2⟩,
          fun h => ⟨h.2.1.resolve_left Bool.false_ne_true, h.2.2⟩⟩
  · have hout : ((stringField minus W (some (P + 1)) s).map BitVec.toInt).length = W := by
      rw [List.length_map, stringField_length]
      omega
    rw [hspec]
    exact iff_of_false (stringOut_wide_ne hs hlen (by omega) (wrap32_range _) hout)
      fun h => hfits h.1

end Fields

/-- The directives print their fields exactly when the precision is not 0, apart from a string that
consists of just the spaces, and the numbers fit into their `int`s. -/
theorem stringDirective_field_iff (minus : Bool) (W : Nat) (hW : 1 ≤ W) (P : Option Nat)
    (s : List (BitVec 8)) (hs : 0 ∉ s) (hlen : s.length < 2 ^ 31) :
    Emits (stringDirective minus W P) [.str (some s)]
        ((stringField minus W P s).map BitVec.toInt) ↔
      StringFieldFits minus W s P := by
  have hout := emits_stringDirective minus hW P s
  have hiff : Emits (stringDirective minus W P) [.str (some s)]
        ((stringField minus W P s).map BitVec.toInt) ↔
      stringOut (stringSpec minus W P) s = (stringField minus W P s).map BitVec.toInt :=
    ⟨fun h => hout.unique h, fun h => h ▸ hout⟩
  rw [hiff]
  match P with
  | none => exact stringOut_plain_iff minus hs hlen hW
  | some 0 => exact stringOut_zero_iff minus hs hlen hW
  | some (P + 1) => exact stringOut_precision_iff minus hs hlen hW P

/-- Two fields that are right, with a precision and without, and one whose precision is 0 that is
right by chance. -/
theorem stringDirective_field_iff_right :
    Emits (bytesOf "%6.3s") [.str (some (bytesOf "abcde"))] (echo (bytesOf "   abc")) ∧
      Emits (bytesOf "%-4s") [.str (some (bytesOf "ab"))] (echo (bytesOf "ab  ")) ∧
      Emits (bytesOf "%2.0s") [.str (some (bytesOf "  "))] (echo (bytesOf "  ")) := by
  refine ⟨(stringDirective_field_iff false 6 (by decide) (some 3) (bytesOf "abcde") (by decide)
      (by decide)).mpr ?_, (stringDirective_field_iff true 4 (by decide) none (bytesOf "ab")
      (by decide) (by decide)).mpr ?_, (stringDirective_field_iff false 2 (by decide) (some 0)
      (bytesOf "  ") (by decide) (by decide)).mpr ?_⟩
  · exact ⟨by decide, Or.inr (by decide), Or.inl (by decide)⟩
  · exact (by decide : 4 < 2 ^ 31 + (bytesOf "ab").length)
  · exact (by decide : bytesOf "  " = List.replicate 2 (ascii ' '))

/-- The precision 0 is taken for the flag: the whole string is put, with zeros in front of it, also
where the field should be padded on the right. -/
theorem stringField_not_emitted :
    Emits (bytesOf "%5.0s") [.str (some (bytesOf "abc"))] (echo (bytesOf "00abc")) ∧
      stringField false 5 (some 0) (bytesOf "abc") = bytesOf "     " ∧
      ¬ Emits (bytesOf "%5.0s") [.str (some (bytesOf "abc"))]
        ((stringField false 5 (some 0) (bytesOf "abc")).map BitVec.toInt) ∧
    Emits (bytesOf "%-5.0s") [.str (some (bytesOf "abc"))] (echo (bytesOf "00abc")) ∧
      ¬ Emits (bytesOf "%-5.0s") [.str (some (bytesOf "abc"))]
        ((stringField true 5 (some 0) (bytesOf "abc")).map BitVec.toInt) := by
  have hleft := @emits_stringDirective 5 false (by decide) (some 0) (bytesOf "abc")
  have hright := @emits_stringDirective 5 true (by decide) (some 0) (bytesOf "abc")
  refine ⟨hleft, by decide, fun h => ?_, hright, fun h => ?_⟩
  · exact absurd (hleft.unique h) (by decide)
  · exact absurd (hright.unique h) (by decide)

end Nctuos
