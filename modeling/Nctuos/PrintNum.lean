import Nctuos.PrintField
import Nctuos.Lib.Numeral

/-!
# Printing a number

`printnum` of `lib/printfmt.c` once more, with the types that it has: `num` is an
`unsigned long long`, `base` an `unsigned`, and `width` an `int` that is counted down, once in every
call and then in the loop that pads.  `printnum` of `PrintFmt` has numbers without bound and
the padding in one piece; it is what this one puts (`printnumAt_printnum`).

The call for the first digit is the innermost one.  It has the width that the other digits have left,
and pads with that before it puts its own digit.  So the padding is in front, as long as the width
does not run below the least `int` on the way (`printnum_prints`).
-/

namespace Nctuos

open Lib

/-- `while (--width > 0)`. -/
def padLoop (padc : Int) : Nat → BitVec 32 → Except Stop (List Int)
  | 0, _ => .error .hang
  | fuel + 1, width =>
      let width := width - 1
      if 0 < width.toInt then do
        let out ← padLoop padc fuel width
        .ok (padc :: out)
      else .ok []

/-- `"0123456789abcdef"[i]`, which has a NUL behind the digits. -/
def loadDigit (i : BitVec 64) : Except Stop Int :=
  match (digits.map charInt ++ [0])[i.toNat]? with
  | some ch => .ok ch
  | none => .error .fault

/-- `printnum`, with what it puts. -/
def printnumAt (base : BitVec 32) (padc : Int) : Nat → BitVec 64 → BitVec 32 →
    Except Stop (List Int)
  | 0, _, _ => .error .hang
  | fuel + 1, num, width => do
      -- the division by a base of 0 faults
      let front ←
        if base.setWidth 64 ≤ num then
          if base = 0 then .error .fault
          else printnumAt base padc fuel (num / base.setWidth 64) (width - 1)
        else padLoop padc fuel width
      let ch ← loadDigit (num % base.setWidth 64)
      .ok (front ++ [ch])

/-! ## The padding -/

section Printing

variable {base width : BitVec 32} {num : BitVec 64} {padc : Int} {b n : Nat} {ds : List Nat}

theorem wrap32_toInt_sub (width : BitVec 32) (l : Nat) :
    wrap32 (width.toInt - l) = (width - BitVec.ofNat 32 l).toInt := by
  have hlt := width.isLt
  rw [wrap32, BitVec.toInt_eq_toNat_cond, BitVec.toInt_eq_toNat_cond, BitVec.toNat_sub,
    BitVec.toNat_ofNat]
  split
  · split
    · omega
    · omega
  · split
    · omega
    · omega

/-- A width that is counted down without an overflow. -/
theorem toInt_sub_ofNat {l : Nat} (h : -2 ^ 31 ≤ width.toInt - l) :
    (width - BitVec.ofNat 32 l).toInt = width.toInt - l := by
  have hlt : width.toInt < 2 ^ 31 := width.toInt_lt
  rw [← wrap32_toInt_sub, wrap32_of_mem h (by omega)]

theorem padLoop_more (padc : Int) (h : 0 < (width - 1).toInt) (fuel : Nat) :
    padLoop padc (fuel + 1) width = padLoop padc fuel (width - 1) >>= fun out => .ok (padc :: out) :=
  if_pos h

theorem padLoop_settles (padc : Int) (width : BitVec 32) :
    Settles (fun fuel => padLoop padc fuel width)
      (.ok (List.replicate (width - 1).toInt.toNat padc)) := by
  generalize hn : (width - 1).toInt.toNat = n
  induction n generalizing width with
  | zero =>
      refine Settles.last fun fuel => ?_
      rw [padLoop, if_neg (by omega)]
      rfl
  | succ n ih =>
      have hpos : 0 < (width - 1).toInt := by omega
      have hpred : (width - 1 - 1).toInt = (width - 1).toInt - 1 :=
        @toInt_sub_ofNat (width - 1) 1 (by omega)
      have hrest := ih (width - 1) (by omega)
      exact hrest.callLast (padLoop_more padc hpos) rfl

/-! ## The digits -/

/-- The character of a digit. -/
def digitChar (d : Nat) : Int := charInt (digits.getD d '0')

/-- The digit of a character. -/
def digitValue (ch : Int) : Nat := (digits.map charInt).idxOf ch

theorem loadDigit_ok {i : BitVec 64} (h : i.toNat < 16) : loadDigit i = .ok (digitChar i.toNat) := by
  have hload : ∀ n < 16, (digits.map charInt ++ [0])[n]? = some (digitChar n) := by decide
  rw [loadDigit, hload _ h]

theorem digitValue_digitChar : ∀ d < 16, digitValue (digitChar d) = d := by decide

/-- A call for a digit that is not the first. -/
theorem printnumAt_more (padc : Int) (hle : base.setWidth 64 ≤ num) (hbase : base ≠ 0) (fuel : Nat) :
    printnumAt base padc (fuel + 1) num width =
      printnumAt base padc fuel (num / base.setWidth 64) (width - 1) >>= fun front =>
        loadDigit (num % base.setWidth 64) >>= fun ch => .ok (front ++ [ch]) := by
  rw [printnumAt, if_pos hle, if_neg hbase]

/-- The call for the first digit. -/
theorem printnumAt_first (padc : Int) (hlt : ¬ base.setWidth 64 ≤ num) (fuel : Nat) :
    printnumAt base padc (fuel + 1) num width =
      padLoop padc fuel width >>= fun front =>
        loadDigit (num % base.setWidth 64) >>= fun ch => .ok (front ++ [ch]) := by
  rw [printnumAt, if_neg hlt]

/-- `printnum` returns.  It has put the digits, and in front of them as much padding as is left of
the width. -/
theorem printnumAt_settles (hlo : 2 ≤ base.toNat) (hhi : base.toNat ≤ 16) (num : BitVec 64)
    (width : BitVec 32) (padc : Int) :
    ∃ ds, Numeral base.toNat num.toNat ds ∧
      Settles (fun fuel => printnumAt base padc fuel num width)
        (.ok (List.replicate (width - BitVec.ofNat 32 ds.length).toInt.toNat padc ++
          ds.map digitChar)) := by
  have hbase : (base.setWidth 64).toNat = base.toNat := by
    rw [BitVec.toNat_setWidth]
    omega
  have hne : base ≠ 0 := by
    rintro rfl
    exact absurd hlo (by decide)
  generalize hn : num.toNat = n
  induction n using Nat.strong_induction_on generalizing num width with
  | _ n ih =>
      subst hn
      have hlt : num.toNat % base.toNat < base.toNat := Nat.mod_lt _ (by omega)
      have hmod : (num % base.setWidth 64).toNat = num.toNat % base.toNat := by
        rw [BitVec.toNat_umod, hbase]
      have hload : loadDigit (num % base.setWidth 64) = .ok (digitChar (num.toNat % base.toNat)) := by
        rw [loadDigit_ok (by omega), hmod]
      have hle_iff : base.setWidth 64 ≤ num ↔ base.toNat ≤ num.toNat := by
        rw [BitVec.le_def, hbase]
      by_cases hle : base.setWidth 64 ≤ num
      · -- the digits in front are put by the call, which has one less to pad
        have hnum := hle_iff.mp hle
        have hdiv : (num / base.setWidth 64).toNat = num.toNat / base.toNat := by
          rw [BitVec.toNat_udiv, hbase]
        obtain ⟨ds, hds, hfront⟩ := ih (num.toNat / base.toNat)
          (Nat.div_lt_self (by omega) (by omega)) (num / base.setWidth 64) (width - 1) hdiv
        have hwidth : width - 1 - BitVec.ofNat 32 ds.length =
            width - BitVec.ofNat 32 (ds ++ [num.toNat % base.toNat]).length := by
          rw [List.length_append, List.length_singleton, BitVec.ofNat_add]
          bv_omega
        refine ⟨_, hds.concat (by omega) hnum, hfront.callLast (printnumAt_more padc hle hne) ?_⟩
        rw [hload, ok_bind, hwidth, List.append_assoc, List.map_append]
        rfl
      · have hnum : num.toNat < base.toNat := by
          rw [hle_iff] at hle
          omega
        refine ⟨_, .single hnum,
          (padLoop_settles padc width).callLast (printnumAt_first padc hle) ?_⟩
        rw [hload, ok_bind, Nat.mod_eq_of_lt hnum]
        rfl

/-- The characters, read as digits, are the digits. -/
theorem map_digitValue (hds : ∀ d ∈ ds, d < 16) : (ds.map digitChar).map digitValue = ds := by
  rw [List.map_map]
  conv_rhs => rw [← List.map_id ds]
  exact List.map_congr_left fun d hd => digitValue_digitChar d (hds d hd)

/-- **`printnum` prints the number.**  It returns for every number in base 10 and 16, with a width
above `-2^31 + 20`, which 20 digits cannot bring to an overflow.  It has put the padding that the
digits leave of the width, and then the digits, from which the number can be read again. -/
theorem printnum_prints (num : BitVec 64) (hbase : base = 10 ∨ base = 16)
    (hwidth : -2 ^ 31 + 20 < width.toInt) (padc : Int) :
    ∃ ds, Numeral base.toNat num.toNat ds ∧ (∀ ds', Numeral base.toNat num.toNat ds' → ds' = ds) ∧
      Settles (fun fuel => printnumAt base padc fuel num width)
        (.ok (List.replicate (width.toInt - ds.length).toNat padc ++ ds.map digitChar)) ∧
      readDigits base.toNat ((ds.map digitChar).map digitValue) = num.toNat := by
  have hrange : 10 ≤ base.toNat ∧ base.toNat ≤ 16 := by
    rcases hbase with rfl | rfl
    · decide
    · decide
  obtain ⟨ds, hds, hsettles⟩ := printnumAt_settles (by omega) hrange.2 num width padc
  have hlength : ds.length ≤ 20 := by
    refine hds.length_le (by omega) (by decide) ?_
    calc num.toNat < 2 ^ 64 := num.isLt
      _ ≤ 10 ^ 20 := by decide
      _ ≤ base.toNat ^ 20 := Nat.pow_le_pow_left hrange.1 20
  rw [toInt_sub_ofNat (by omega)] at hsettles
  refine ⟨ds, hds, fun ds' hds' => hds'.unique hds (by omega), hsettles, ?_⟩
  rw [map_digitValue fun d hd => (hds.lt d hd).trans_le hrange.2, hds.value]

/-- 255 in base 16, to the right in a field of six, and with a width below 0. -/
theorem printnum_prints_ff :
    Settles (fun fuel => printnumAt 16 (charInt ' ') fuel 255 6)
        (.ok ("    ff".toList.map charInt)) ∧
      Settles (fun fuel => printnumAt 16 (charInt ' ') fuel 255 (-1))
        (.ok ("ff".toList.map charInt)) := by
  have hff : Numeral (16 : BitVec 32).toNat (255 : BitVec 64).toNat [15, 15] :=
    ⟨by decide, by decide, (fun _ hrest => by cases hrest), by decide⟩
  constructor
  · obtain ⟨ds, -, hunique, hsettles, -⟩ :=
      @printnum_prints 16 6 255 (Or.inr rfl) (by decide) (charInt ' ')
    rw [← hunique _ hff] at hsettles
    exact hsettles
  · obtain ⟨ds, -, hunique, hsettles, -⟩ :=
      @printnum_prints 16 (-1) 255 (Or.inr rfl) (by decide) (charInt ' ')
    rw [← hunique _ hff] at hsettles
    exact hsettles

/-! ## The two models -/

theorem exists_numeral (hb : 1 < b) (n : Nat) :
    ∃ ds, Numeral b n ds ∧ Nat.toDigits b n = ds.map Nat.digitChar := by
  induction n using Nat.strong_induction_on with
  | _ n ih =>
      by_cases hlt : n < b
      · exact ⟨[n], .single hlt, Nat.toDigits_of_lt_base hlt⟩
      · obtain ⟨ds, hds, hmap⟩ := ih (n / b) (Nat.div_lt_self (by omega) hb)
        refine ⟨ds ++ [n % b], hds.concat (by omega) (by omega), ?_⟩
        rw [Nat.toDigits_of_base_le hb (by omega), hmap, List.map_append]
        rfl

/-- What this one puts is what `printnum` of `PrintFmt` puts. -/
theorem printnumAt_printnum (hlo : 2 ≤ base.toNat) (hhi : base.toNat ≤ 16) (num : BitVec 64)
    (width : BitVec 32) (padc : Char) :
    Settles (fun fuel => printnumAt base (charInt padc) fuel num width)
      (.ok (printnum num.toNat base.toNat hlo width.toInt padc)) := by
  obtain ⟨ds, hds, hsettles⟩ := printnumAt_settles hlo hhi num width (charInt padc)
  obtain ⟨ds', hds', hmap⟩ := exists_numeral hlo num.toNat
  obtain rfl := hds.unique hds' hlo
  have hchars : ds.map digitChar = (Nat.toDigits base.toNat num.toNat).map charInt := by
    rw [hmap, List.map_map]
    refine List.map_congr_left fun d hd => ?_
    exact congrArg charInt (digits_getD d ((hds.lt d hd).trans_le hhi))
  rw [printnum_eq hlo hhi, wrap32_toInt_sub, ← hchars, hmap, List.length_map]
  exact hsettles

end Printing

end Nctuos
