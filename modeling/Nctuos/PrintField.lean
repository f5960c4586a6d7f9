import Nctuos.PrintPieces

/-!
# Fields of numbers

A directive with a width, `%Nd` with the flags `0` and `-`, against the field that it is to print.

The digits of `N` go through `precision`, an `int`, and from there into `width`
(`readBody_numeral`).  `printnum` counts the width down with every digit, so the padding is what is
left of it in front of the first one (`printnum_eq`).  The sign is no digit: it has been put before,
and the width does not know of it.  Nor does `printnum` know of a flag that pads on the right; it
pads with whatever character it is given.
-/

namespace Nctuos

open Lib

/-! ## Numerals -/

/-- A number, as it is written in a format. -/
def numeral (n : Nat) : List (BitVec 8) := (Nat.toDigits 10 n).map ascii

/-- `vprintfmt` returns, and has put `out`. -/
def Emits (f : List (BitVec 8)) (ap : List Arg) (out : List Int) : Prop :=
  Settles (fun fuel => vprintfmt fuel f ap) (.ok out)

section Numerals

variable {n : Nat} {c : Char} {cs : List Char} {f body rest : List (BitVec 8)} {ch : BitVec 8}
  {d d' : FmtSpec} {ap ap' ap'' : List Arg} {out out' : List Int}

theorem Emits.unique (h : Emits f ap out) (h' : Emits f ap out') : out = out' :=
  Except.ok.inj (Settles.unique h h')

/-- A text, and a directive behind it. -/
theorem emits_text_directive {k : FmtConv} (text : List (BitVec 8))
    (htext : ∀ m ∈ text, m ≠ ascii '%' ∧ m ≠ 0) (hbody : ∀ m ∈ body, isModifier m)
    (hch : fmtCase ch = .conv k) (hread : readBody false .init body ap = .ok (d, ap'))
    (hconv : conversion d ap' k = .ok (out, ap'')) :
    Emits (text ++ ascii '%' :: (body ++ [ch])) ap (echo text ++ out) := by
  have hend : isModifier ch = false := by
    rw [isModifier, hch]
    rfl
  have hnul : ch ≠ 0 := by
    rintro rfl
    cases hch
  have hput : (FmtPiece.directive body ch).output ap = .ok (out, ap'') := by
    refine bind_ok_iff.mpr ⟨_, hread, ?_⟩
    dsimp only
    rw [hch]
    exact hconv
  have h₀ : ((text ++ ascii '%' :: (body ++ [ch])) ++ [0]).drop 0 =
      text ++ ascii '%' :: (body ++ ch :: [0]) := by
    rw [List.drop_zero, List.append_assoc, List.cons_append, List.append_assoc]
    rfl
  have h₁ := drop_of_drop h₀
  have h₂ := drop_of_drop_cons (drop_of_drop (drop_of_drop_cons h₁))
  rw [Nat.add_assoc _ body.length] at h₂
  exact Prints.literals h₀ htext (Prints.directive h₁ hbody hend hnul hput (Prints.nul h₂))

/-- One directive alone. -/
theorem emits_directive {k : FmtConv} (hbody : ∀ m ∈ body, isModifier m)
    (hch : fmtCase ch = .conv k) (hread : readBody false .init body ap = .ok (d, ap'))
    (hconv : conversion d ap' k = .ok (out, ap'')) :
    Emits (ascii '%' :: (body ++ [ch])) ap out :=
  emits_text_directive [] (fun _ hm => absurd hm List.not_mem_nil) hbody hch hread hconv

theorem digit_range (hc : c.isDigit) : 48 ≤ c.toNat ∧ c.toNat ≤ 57 := by
  simpa [Char.isDigit, UInt32.le_iff_toNat_le] using hc

theorem ascii_toNat (hc : c.isDigit) : (ascii c).toNat = c.toNat := by
  have := digit_range hc
  rw [ascii, BitVec.toNat_ofNat]
  omega

theorem isDigit_ascii (hc : c.isDigit) : IsDigit (ascii c) := by
  have hrange := digit_range hc
  have hnat := ascii_toNat hc
  have hint : (ascii c).toInt = c.toNat := by
    rw [BitVec.toInt_eq_toNat_of_lt (by omega), hnat]
  rw [IsDigit, hint]
  change (48 : Int) ≤ c.toNat ∧ (c.toNat : Int) ≤ 57
  omega

theorem isDigit_of_mem_numeral (h : c ∈ Nat.toDigits 10 n) : c.isDigit :=
  Nat.isDigit_of_mem_toDigits (by decide) (by decide) h

theorem isModifier_of_mem_numeral (h : ch ∈ numeral n) : isModifier ch := by
  obtain ⟨c, hc, rfl⟩ := List.mem_map.mp h
  exact isModifier_of_isDigit (isDigit_ascii (isDigit_of_mem_numeral hc))

theorem digitChar_ne_zero : ∀ n < 10, 0 < n → n.digitChar ≠ '0' := by decide

/-- A number other than 0 does not begin with a 0, which would be a flag. -/
theorem toDigits_head (hn : 0 < n) : ∃ c cs, Nat.toDigits 10 n = c :: cs ∧ c ≠ '0' := by
  induction n using Nat.strong_induction_on with
  | _ n ih =>
      by_cases hlt : n < 10
      · exact ⟨n.digitChar, [], Nat.toDigits_of_lt_base hlt, digitChar_ne_zero n hlt hn⟩
      · obtain ⟨c, cs, hcs, hc⟩ := ih (n / 10) (by omega) (by omega)
        refine ⟨c, cs ++ [(n % 10).digitChar], ?_, hc⟩
        rw [Nat.toDigits_of_base_le (by decide) (by omega), hcs]
        rfl

theorem wrap32_range (x : Int) : -2 ^ 31 ≤ wrap32 x ∧ wrap32 x < 2 ^ 31 := by
  rw [wrap32]
  omega

theorem wrap32_idem (x : Int) : wrap32 (wrap32 x) = wrap32 x := by
  rw [wrap32, wrap32]
  omega

theorem wrap32_add_mul (x k : Int) : wrap32 (x + 2 ^ 32 * k) = wrap32 x := by
  rw [wrap32, wrap32]
  omega

theorem wrap32_mul_add (x y z : Int) : wrap32 (wrap32 x * y + z) = wrap32 (x * y + z) := by
  have hx : wrap32 x = x + 2 ^ 32 * -((x + 2 ^ 31) / 2 ^ 32) := by
    rw [wrap32]
    omega
  rw [hx, Int.add_mul, Int.mul_assoc, Int.add_right_comm, wrap32_add_mul]

/-- The value so far is kept in `precision`, which is an `int`. -/
theorem addDigit_eq {precision : Int} (hc : c.isDigit) (hp : precision = wrap32 n) :
    d.addDigit precision (ascii c) =
      { d with precision := wrap32 (10 * n + (c.toNat - '0'.toNat) : Nat) } := by
  have hrange := digit_range hc
  have hval : wrap32 (precision * 10 + (ascii c).toNat - charInt '0') =
      wrap32 (10 * n + (c.toNat - '0'.toNat) : Nat) := by
    rw [hp, ascii_toNat hc, Int.add_sub_assoc, wrap32_mul_add]
    congr 1
    change (n : Int) * 10 + ((c.toNat : Int) - 48) = ((10 * n + (c.toNat - 48) : Nat) : Int)
    omega
  rw [FmtSpec.addDigit, hval]

/-- The digits of a number, behind the first. -/
theorem readBody_digits (hcs : ∀ c ∈ cs, c.isDigit) :
    readBody true { d with precision := wrap32 n } (cs.map ascii ++ rest) ap =
      readBody true { d with precision := wrap32 (Nat.ofDigitChars 10 cs n) } rest ap := by
  induction cs generalizing n with
  | nil => rw [List.map_nil, List.nil_append, Nat.ofDigitChars_nil]
  | cons c cs ih =>
      have hc := hcs c List.mem_cons_self
      rw [List.map_cons, List.cons_append, readBody, if_pos ⟨rfl, isDigit_ascii hc⟩,
        addDigit_eq hc rfl, Nat.ofDigitChars_cons]
      exact ih fun c' hc' => hcs c' (List.mem_cons_of_mem c hc')

/-- A number is read into `precision`. -/
theorem readBody_numeral (hn : 0 < n) :
    readBody false d (numeral n ++ rest) ap =
      readBody true { d with precision := wrap32 n } rest ap := by
  obtain ⟨c, cs, hcs, hc⟩ := toDigits_head hn
  have hdigits : ∀ c' ∈ c :: cs, c'.isDigit := by
    intro c' hc'
    rw [← hcs] at hc'
    exact isDigit_of_mem_numeral hc'
  have hdigit := hdigits c List.mem_cons_self
  have hval : Nat.ofDigitChars 10 cs (10 * 0 + (c.toNat - '0'.toNat)) = n := by
    rw [← Nat.ofDigitChars_cons, ← hcs]
    exact Nat.ofDigitChars_ten_toDigits
  have hne : ascii c ≠ ascii '0' := by
    intro h
    have hnat := congrArg BitVec.toNat h
    rw [ascii_toNat hdigit] at hnat
    exact hc (Char.toNat_inj.mp hnat)
  have hfirst : readModifier d (ascii c) ap = .ok (true, d.addDigit 0 (ascii c), ap) := by
    rw [readModifier, fmtCase_digit (isDigit_ascii hdigit) hne]
  have hzero : (0 : Int) = wrap32 (0 : Nat) := by decide
  rw [addDigit_eq hdigit hzero] at hfirst
  rw [numeral, hcs, List.map_cons, List.cons_append, readBody, if_neg (by simp)]
  change readModifier d (ascii c) ap >>= _ = _
  rw [hfirst, ok_bind]
  dsimp only
  rw [readBody_digits fun c' hc' => hdigits c' (List.mem_cons_of_mem c hc'), hval]

end Numerals

/-! ## The digits -/

theorem digits_getD : ∀ i < 16, digits.getD i '0' = i.digitChar := by decide

/-- A width that is counted down. -/
theorem wrap32_pred_sub (width : Int) (l : Nat) :
    wrap32 (wrap32 (width - 1) - l) = wrap32 (width - (l + 1 : Nat)) := by
  rw [Int.sub_eq_add_neg, wrap32_wrap32_add]
  congr 1
  omega

/-- What is left of the width in front of the first digit is the padding. -/
theorem printnum_eq {base : Nat} (hbase : 2 ≤ base) (hle : base ≤ 16) (num : Nat) (width : Int)
    (padc : Char) :
    printnum num base hbase width padc =
      List.replicate (wrap32 (width - (Nat.toDigits base num).length)).toNat (charInt padc) ++
        (Nat.toDigits base num).map charInt := by
  induction num using Nat.strong_induction_on generalizing width with
  | _ num ih =>
      have hdigit := digits_getD (num % base) (by have := Nat.mod_lt num (by omega : 0 < base); omega)
      rw [printnum, hdigit]
      by_cases hnum : base ≤ num
      · rw [dif_pos hnum, ih _ (Nat.div_lt_self (by omega) (by omega)),
          Nat.toDigits_of_base_le (by omega) hnum, wrap32_pred_sub, List.length_append,
          List.map_append, List.append_assoc]
        rfl
      · rw [dif_neg hnum, Nat.toDigits_of_lt_base (by omega), Nat.mod_eq_of_lt (by omega)]
        rfl

/-! ## Signed fields -/

/-- The arguments of `%d` and of `%lld`. -/
inductive SignedArg where
  | int (v : BitVec 32)
  | longlong (v : BitVec 64)
  deriving DecidableEq, Repr

namespace SignedArg

def arg : SignedArg → Arg
  | int v => .int v
  | longlong v => .longlong v

def value : SignedArg → Int
  | int v => v.toInt
  | longlong v => v.toInt

/-- What tells the directive of the type. -/
def modifier : SignedArg → List (BitVec 8)
  | int _ => []
  | longlong _ => [ascii 'l', ascii 'l']

end SignedArg

inductive FieldFlag where
  | space
  | zero
  | minus
  deriving DecidableEq, Repr

namespace FieldFlag

def text : FieldFlag → List (BitVec 8)
  | space => []
  | zero => [ascii '0']
  | minus => [ascii '-']

def padc : FieldFlag → Char
  | space => ' '
  | zero => '0'
  | minus => '-'

end FieldFlag

/-- `%Nd`, `%0Nd` and `%-Nd`, or `%Nlld` and so on. -/
def signedDirective (flag : FieldFlag) (N : Nat) (a : SignedArg) : List (BitVec 8) :=
  ascii '%' :: (flag.text ++ (numeral N ++ a.modifier) ++ [ascii 'd'])

example : signedDirective .zero 12 (.longlong 7) = bytesOf "%012lld" := by decide

def signOf (v : Int) : List Int := if v < 0 then [charInt '-'] else []

def digitsOf (v : Int) : List Int := (Nat.toDigits 10 v.natAbs).map charInt

/-- The field that a directive is for. -/
def signedField (flag : FieldFlag) (N : Nat) (v : Int) : List Int :=
  let padding := N - (signOf v ++ digitsOf v).length
  match flag with
  | .space => List.replicate padding (charInt ' ') ++ (signOf v ++ digitsOf v)
  | .zero => signOf v ++ List.replicate padding (charInt '0') ++ digitsOf v
  | .minus => signOf v ++ digitsOf v ++ List.replicate padding (charInt ' ')

section Signed

variable {N : Nat} {v : Int} {flag : FieldFlag} {a : SignedArg}

theorem SignedArg.value_bounds (a : SignedArg) : -2 ^ 63 ≤ a.value ∧ a.value < 2 ^ 63 := by
  cases a with
  | int v =>
      have h₁ := BitVec.le_toInt v
      have h₂ := @BitVec.toInt_lt 32 v
      change -2 ^ 63 ≤ v.toInt ∧ v.toInt < 2 ^ 63
      omega
  | longlong v => exact ⟨BitVec.le_toInt v, BitVec.toInt_lt⟩

theorem digitsOf_length_le (a : SignedArg) : (digitsOf a.value).length ≤ 20 := by
  have h := a.value_bounds
  rw [digitsOf, List.length_map, Nat.length_toDigits_le_iff (by decide) (by decide)]
  omega

theorem FieldFlag.isModifier_text : ∀ (flag : FieldFlag), ∀ m ∈ flag.text, isModifier m
  | .space => by decide
  | .zero => by decide
  | .minus => by decide

theorem SignedArg.isModifier_modifier (a : SignedArg) : ∀ m ∈ a.modifier, isModifier m := by
  cases a with
  | int v => exact (by decide : ∀ m ∈ ([] : List (BitVec 8)), isModifier m)
  | longlong v => exact (by decide : ∀ m ∈ [ascii 'l', ascii 'l'], isModifier m)

theorem readBody_flag (flag : FieldFlag) (rest : List (BitVec 8)) (ap : List Arg) :
    readBody false .init (flag.text ++ rest) ap =
      readBody false { FmtSpec.init with padc := flag.padc } rest ap := by
  cases flag with
  | space => rfl
  | zero => rfl
  | minus => rfl

theorem readBody_signed (flag : FieldFlag) (hN : 0 < N) (a : SignedArg) (ap : List Arg) :
    ∃ d, readBody false .init (flag.text ++ (numeral N ++ a.modifier)) ap = .ok (d, ap) ∧
      d.padc = flag.padc ∧ d.width = wrap32 N ∧ numberKind d.lflag = a.arg.kind := by
  rw [readBody_flag, readBody_numeral hN]
  cases a with
  | int v => exact ⟨_, rfl, rfl, rfl, rfl⟩
  | longlong v => exact ⟨_, rfl, rfl, rfl, rfl⟩

theorem decimalOut_eq (d : FmtSpec) (hv : -2 ^ 63 ≤ v) :
    decimalOut d v =
      signOf v ++ List.replicate (wrap32 (d.width - (digitsOf v).length)).toNat (charInt d.padc) ++
        digitsOf v := by
  rw [decimalOut, signOf, digitsOf, List.length_map]
  split
  · rename_i hneg
    have habs : ((-v) % 2 ^ 64).toNat = v.natAbs := by omega
    rw [habs, printnum_eq _ (by decide)]
    rfl
  · rename_i hneg
    have habs : v.toNat = v.natAbs := by omega
    rw [habs, printnum_eq _ (by decide)]
    rfl

/-- What the directive puts: the sign, then the padding, then the digits, whatever the flag. -/
theorem emits_text_signed (text : List (BitVec 8)) (htext : ∀ m ∈ text, m ≠ ascii '%' ∧ m ≠ 0)
    (flag : FieldFlag) (hN : 0 < N) (a : SignedArg) :
    Emits (text ++ signedDirective flag N a) [a.arg]
      (echo text ++ (signOf a.value ++ List.replicate (wrap32 (N - (digitsOf a.value).length)).toNat
        (charInt flag.padc) ++ digitsOf a.value)) := by
  obtain ⟨d, hread, hpadc, hwidth, hkind⟩ := readBody_signed flag hN a [a.arg]
  have hmods : ∀ m ∈ flag.text ++ (numeral N ++ a.modifier), isModifier m := by
    intro m hm
    rw [List.mem_append, List.mem_append] at hm
    rcases hm with hm | hm | hm
    · exact flag.isModifier_text m hm
    · exact isModifier_of_mem_numeral hm
    · exact a.isModifier_modifier m hm
  have hsigned : a.arg.signed = a.value := by
    cases a with
    | int v => rfl
    | longlong v => rfl
  have hconv : conversion d [a.arg] .decimal = .ok (decimalOut d a.value, []) := by
    have hint : getint [a.arg] d.lflag = .ok (a.value, []) :=
      bind_ok_iff.mpr ⟨_, vaArg_cons [] hkind.symm, congrArg (fun v => Except.ok (v, [])) hsigned⟩
    exact bind_ok_iff.mpr ⟨_, hint, rfl⟩
  have hout := emits_text_directive text htext hmods (by decide : fmtCase (ascii 'd') = .conv .decimal)
    hread hconv
  rw [decimalOut_eq d a.value_bounds.1, hpadc, hwidth, Int.sub_eq_add_neg, wrap32_wrap32_add,
    ← Int.sub_eq_add_neg] at hout
  exact hout

theorem emits_signedDirective (flag : FieldFlag) (hN : 0 < N) (a : SignedArg) :
    Emits (signedDirective flag N a) [a.arg]
      (signOf a.value ++ List.replicate (wrap32 (N - (digitsOf a.value).length)).toNat
        (charInt flag.padc) ++ digitsOf a.value) :=
  emits_text_signed [] (fun _ hm => absurd hm List.not_mem_nil) flag hN a

theorem charInt_inj {c c' : Char} : charInt c = charInt c' ↔ c = c' := by
  rw [charInt, charInt, Int.natCast_inj, Char.toNat_inj]

/-- The first digit is neither a space nor a sign. -/
theorem digitsOf_head (v : Int) :
    ∃ x xs, digitsOf v = x :: xs ∧ x ≠ charInt ' ' ∧ x ≠ charInt '-' := by
  cases hds : Nat.toDigits 10 v.natAbs with
  | nil => exact absurd hds Nat.toDigits_ne_nil
  | cons c cs =>
      have hc : c.isDigit := isDigit_of_mem_numeral (hds ▸ List.mem_cons_self)
      refine ⟨charInt c, cs.map charInt, by rw [digitsOf, hds]; rfl, ?_, ?_⟩
      · rw [Ne, charInt_inj]
        rintro rfl
        exact absurd hc (by decide)
      · rw [Ne, charInt_inj]
        rintro rfl
        exact absurd hc (by decide)

theorem replicate_append_inj {n m : Nat} {x : Int} {xs : List Int} :
    List.replicate n x ++ xs = List.replicate m x ++ xs ↔ n = m := by
  rw [List.append_cancel_right_eq]
  exact List.replicate_inj.trans ⟨And.left, fun h => ⟨h, Or.inr rfl⟩⟩

theorem append_replicate_self {n : Nat} {x : Int} {xs : List Int} :
    xs = xs ++ List.replicate n x ↔ n = 0 := by
  rw [List.self_eq_append_right, List.replicate_eq_nil_iff]

/-- Digits with the padding on the wrong side are the field only if there is no padding. -/
theorem dashes_append_eq_iff {n m : Nat} :
    List.replicate n (charInt '-') ++ digitsOf v = digitsOf v ++ List.replicate m (charInt ' ') ↔
      n = 0 ∧ m = 0 := by
  cases n with
  | zero => rw [List.replicate_zero, List.nil_append, append_replicate_self, and_iff_right rfl]
  | succ n =>
      obtain ⟨x, xs, hds, -, hdash⟩ := digitsOf_head v
      rw [hds, List.replicate_succ, List.cons_append, List.cons_append, List.cons.injEq]
      constructor
      · rintro ⟨hhead, -⟩
        exact absurd hhead.symm hdash
      · rintro ⟨hn, -⟩
        cases hn

/-- A sign in front of the padding. -/
theorem sign_append_eq_iff {n m : Nat} :
    charInt '-' :: (List.replicate n (charInt ' ') ++ digitsOf v) =
        List.replicate m (charInt ' ') ++ charInt '-' :: digitsOf v ↔
      n = 0 ∧ m = 0 := by
  cases m with
  | zero =>
      rw [List.replicate_zero, List.nil_append, List.cons.injEq, and_iff_right rfl,
        List.append_left_eq_self, List.replicate_eq_nil_iff, and_iff_left rfl]
  | succ m =>
      rw [List.replicate_succ, List.cons_append, List.cons.injEq]
      constructor
      · rintro ⟨hhead, -⟩
        exact absurd hhead (by decide)
      · rintro ⟨-, hm⟩
        cases hm

end Signed

/-- The directives print their fields exactly when there is nothing to pad, or when the number is not
negative and the padding is on the left; and the width, less the digits, must be an `int`. -/
theorem signedDirective_field_iff (flag : FieldFlag) (N : Nat) (hN : 1 ≤ N) (a : SignedArg) :
    Emits (signedDirective flag N a) [a.arg] (signedField flag N a.value) ↔
      N ≤ (digitsOf a.value).length ∨
        flag ≠ .minus ∧ 0 ≤ a.value ∧ N < 2 ^ 31 + (digitsOf a.value).length := by
  have hout := emits_signedDirective flag hN a
  have hd := digitsOf_length_le a
  have hiff : Emits (signedDirective flag N a) [a.arg] (signedField flag N a.value) ↔
      signOf a.value ++ List.replicate (wrap32 (N - (digitsOf a.value).length)).toNat
        (charInt flag.padc) ++ digitsOf a.value = signedField flag N a.value :=
    ⟨fun h => hout.unique h, fun h => h ▸ hout⟩
  rw [hiff]
  generalize a.value = v at *
  obtain ⟨pad, hpad⟩ : ∃ pad, pad = (wrap32 (N - (digitsOf v).length)).toNat := ⟨_, rfl⟩
  rw [← hpad]
  rw [wrap32] at hpad
  by_cases hv : v < 0
  · have hsign : signOf v = [charInt '-'] := if_pos hv
    cases flag with
    | space =>
        simp only [signedField, hsign, FieldFlag.padc, List.cons_append, List.nil_append,
          List.length_cons, sign_append_eq_iff]
        omega
    | zero =>
        simp only [signedField, hsign, FieldFlag.padc, List.cons_append, List.nil_append,
          List.length_cons, List.cons.injEq, true_and, replicate_append_inj]
        omega
    | minus =>
        simp only [signedField, hsign, FieldFlag.padc, List.cons_append, List.nil_append,
          List.length_cons, List.cons.injEq, true_and, dashes_append_eq_iff]
        omega
  · have hsign : signOf v = [] := if_neg hv
    cases flag with
    | space | zero =>
        simp only [signedField, hsign, FieldFlag.padc, List.nil_append, replicate_append_inj,
          ne_eq, reduceCtorEq, not_false_eq_true, true_and]
        omega
    | minus =>
        simp only [signedField, hsign, FieldFlag.padc, List.nil_append, dashes_append_eq_iff,
          ne_eq, not_true_eq_false, false_and, or_false]
        omega

/-- `%05d` of 42, and `%3lld` of a negative number that needs no padding. -/
theorem signedDirective_field_iff_42 :
    Emits (bytesOf "%05d") [.int 42] (echo (bytesOf "00042")) ∧
      Emits (bytesOf "%3lld") [.longlong (-5000)] (echo (bytesOf "-5000")) :=
  ⟨(signedDirective_field_iff .zero 5 (by decide) (.int 42)).mpr (by decide),
    (signedDirective_field_iff .space 3 (by decide) (.longlong (-5000))).mpr (by decide)⟩

/-- A negative number gets a character too many, with the sign in front of the spaces; and the flag
that is to pad on the right pads on the left, with itself. -/
theorem signedField_not_emitted :
    Emits (bytesOf "%5d") [.int (-42)] (echo (bytesOf "-   42")) ∧
      signedField .space 5 (-42) = echo (bytesOf "  -42") ∧
      ¬ Emits (bytesOf "%5d") [.int (-42)] (signedField .space 5 (-42)) ∧
    Emits (bytesOf "%05d") [.int (-42)] (echo (bytesOf "-00042")) ∧
      signedField .zero 5 (-42) = echo (bytesOf "-0042") ∧
      ¬ Emits (bytesOf "%05d") [.int (-42)] (signedField .zero 5 (-42)) ∧
    Emits (bytesOf "%-5d") [.int 42] (echo (bytesOf "---42")) ∧
      signedField .minus 5 42 = echo (bytesOf "42   ") ∧
      ¬ Emits (bytesOf "%-5d") [.int 42] (signedField .minus 5 42) := by
  have hspace := @emits_signedDirective 5 .space (by decide) (.int (-42))
  have hzero := @emits_signedDirective 5 .zero (by decide) (.int (-42))
  have hminus := @emits_signedDirective 5 .minus (by decide) (.int 42)
  refine ⟨hspace, by decide, fun h => ?_, hzero, by decide, fun h => ?_, hminus, by decide,
    fun h => ?_⟩
  · exact absurd (hspace.unique h) (by decide)
  · exact absurd (hzero.unique h) (by decide)
  · exact absurd (hminus.unique h) (by decide)

end Nctuos
