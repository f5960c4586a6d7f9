import Nctuos.PrintFmt
import Mathlib.Data.List.Infix
import Mathlib.Data.List.TakeWhile

/-!
# Formats, piece by piece

A format is a sequence of pieces that spell it: literal bytes, directives, and perhaps a directive
that the format ends in the middle of.  Each piece has an output of its own, given the arguments that
the pieces before it have left, and `vprintfmt` prints one output after the other
(`vprintfmt_settles`).  What it does not know it prints as it is spelled (`vprintfmt_echoes`).

A directive with an unknown end is read twice, the second time as literal bytes.  So the position in
the format is no measure of what is left to do, but the unread bytes behind the directive are: the
second reading is over with when they are reached, and it cannot find another directive before, as
no `%` is among the flags and digits.
-/

namespace Nctuos

open Lib

/-! ## Pieces -/

/-- The characters that may stand between the `%` and the end of a directive. -/
def FmtCase.isModifier : FmtCase → Bool
  | .minus | .zero | .digit | .star | .dot | .sharp | .ell => true
  | .conv _ | .error | .default => false

def isModifier (ch : BitVec 8) : Bool := (fmtCase ch).isModifier

inductive FmtPiece where
  | literal (ch : BitVec 8)
  | directive (body : List (BitVec 8)) (ch : BitVec 8)
  /-- A directive in which the format ends. -/
  | ended (body : List (BitVec 8))
  deriving DecidableEq, Repr

def FmtPiece.spell : FmtPiece → List (BitVec 8)
  | literal ch => [ch]
  | directive body ch => ascii '%' :: body ++ [ch]
  | ended body => ascii '%' :: body

/-- The pieces of a format, perhaps from the middle of a directive on, of which `body` was read. -/
def piecesFrom : Option (List (BitVec 8)) → List (BitVec 8) → List FmtPiece
  | none, [] => []
  | some body, [] => [.ended body]
  | none, ch :: f =>
      if ch = ascii '%' then piecesFrom (some []) f else .literal ch :: piecesFrom none f
  | some body, ch :: f =>
      if isModifier ch then piecesFrom (some (body ++ [ch])) f
      else .directive body ch :: piecesFrom none f

def pieces (f : List (BitVec 8)) : List FmtPiece := piecesFrom none f

example : pieces (bytesOf "a%5zb%") =
    [.literal (ascii 'a'), .directive [ascii '5'] (ascii 'z'), .literal (ascii 'b'), .ended []] := by
  decide

/-- The pieces whose end, or whose whole, means nothing to `vprintfmt`. -/
def FmtPiece.Echoed : FmtPiece → Prop
  | literal _ => True
  | directive _ ch => fmtCase ch = .default
  | ended _ => True

/-- Bytes as `putch` gets them from the format. -/
def echo (text : List (BitVec 8)) : List Int := text.map fun ch => (ch.toNat : Int)

section Pieces

variable {body acc f : List (BitVec 8)} {ch : BitVec 8}

theorem piecesFrom_modifiers (hbody : ∀ ch ∈ body, isModifier ch) :
    piecesFrom (some acc) (body ++ f) = piecesFrom (some (acc ++ body)) f := by
  induction body generalizing acc with
  | nil => rw [List.nil_append, List.append_nil]
  | cons m body ih =>
      rw [List.cons_append, piecesFrom, if_pos (hbody m List.mem_cons_self),
        ih fun m' hm' => hbody m' (List.mem_cons_of_mem m hm'), List.append_assoc]
      rfl

theorem pieces_literal (hch : ch ≠ ascii '%') : pieces (ch :: f) = .literal ch :: pieces f :=
  if_neg hch

theorem pieces_directive (hbody : ∀ ch ∈ body, isModifier ch) (hch : isModifier ch = false) :
    pieces (ascii '%' :: (body ++ ch :: f)) = .directive body ch :: pieces f := by
  rw [pieces, piecesFrom, if_pos rfl, piecesFrom_modifiers hbody, piecesFrom,
    if_neg (by rw [hch]; decide)]
  rfl

theorem pieces_ended (hbody : ∀ ch ∈ body, isModifier ch) :
    pieces (ascii '%' :: body) = [.ended body] := by
  have hfrom : piecesFrom (some []) (body ++ []) = piecesFrom (some ([] ++ body)) [] :=
    piecesFrom_modifiers hbody
  rw [List.append_nil] at hfrom
  rw [pieces, piecesFrom, if_pos rfl, hfrom]
  rfl

/-- The pieces spell the format. -/
theorem spell_piecesFrom (acc : Option (List (BitVec 8))) (f : List (BitVec 8)) :
    (piecesFrom acc f).flatMap FmtPiece.spell = acc.elim [] (ascii '%' :: ·) ++ f := by
  induction f generalizing acc with
  | nil =>
      cases acc with
      | none => rfl
      | some body =>
          rw [piecesFrom, List.flatMap_cons]
          rfl
  | cons ch f ih =>
      cases acc with
      | none =>
          rw [piecesFrom]
          split
          · rename_i hch
            rw [ih, hch]
            rfl
          · rw [List.flatMap_cons, ih]
            rfl
      | some body =>
          rw [piecesFrom]
          split
          · rw [ih]
            simp
          · rw [List.flatMap_cons, ih]
            simp [FmtPiece.spell]

end Pieces

/-! ## The output of a piece -/

/-- A number in the body of a directive is over. -/
def FmtSpec.endNumber (d : FmtSpec) (inNumber : Bool) : FmtSpec :=
  if inNumber then d.processPrecision else d

/-- One character of the body, outside of a number: whether it begins one, and what the flags and the
arguments are then. -/
def readModifier (d : FmtSpec) (ch : BitVec 8) (ap : List Arg) :
    Except Stop (Bool × FmtSpec × List Arg) :=
  match fmtCase ch with
  | .minus => .ok (false, { d with padc := '-' }, ap)
  | .zero => .ok (false, { d with padc := '0' }, ap)
  | .digit => .ok (true, d.addDigit 0 ch, ap)
  | .star => do
      let (a, ap) ← vaArg .int ap
      .ok (false, { d with precision := a.signed }.processPrecision, ap)
  | .dot => .ok (false, if d.width < 0 then { d with width := 0 } else d, ap)
  | .sharp => .ok (false, { d with altflag := true }, ap)
  | .ell => .ok (false, { d with lflag := wrap32 (d.lflag + 1) }, ap)
  | .conv _ | .error | .default => .ok (false, d, ap)

/-- The body of a directive, perhaps from the middle of a number on. -/
def readBody : Bool → FmtSpec → List (BitVec 8) → List Arg → Except Stop (FmtSpec × List Arg)
  | inNumber, d, [], ap => .ok (d.endNumber inNumber, ap)
  | inNumber, d, ch :: body, ap =>
      if inNumber ∧ IsDigit ch then readBody true (d.addDigit d.precision ch) body ap
      else do
        let (inNumber, d, ap) ← readModifier (d.endNumber inNumber) ch ap
        readBody inNumber d body ap

/-- What `%e` prints. -/
def errorOut (v : Int) : Except Stop (List Int) := do
  let p ← errorString (errorCode v)
  match p with
  | none => .ok (echo (bytesOf "error ") ++ decimalOut .init (errorCode v))
  | some p => .ok (stringOut .init (bytesOf p))

/-- The output of a piece, and the arguments that it leaves. -/
def FmtPiece.output (ap : List Arg) : FmtPiece → Except Stop (List Int × List Arg)
  | literal ch => .ok (echo [ch], ap)
  | directive body ch => do
      let (d, ap) ← readBody false .init body ap
      match fmtCase ch with
      | .conv k => conversion d ap k
      | .error => do
          let (a, ap) ← vaArg .int ap
          let out ← errorOut a.signed
          .ok (out, ap)
      | _ => .ok (echo (ascii '%' :: body ++ [ch]), ap)
  | ended body => do
      let (_, ap) ← readBody false .init body ap
      .ok (echo (ascii '%' :: body), ap)

/-- The outputs of the pieces, one by one. -/
def outputs : List FmtPiece → List Arg → Except Stop (List (List Int))
  | [], _ => .ok []
  | p :: ps, ap => do
      let (out, ap) ← p.output ap
      let outs ← outputs ps ap
      .ok (out :: outs)

theorem outputs_cons_iff {p : FmtPiece} {ps : List FmtPiece} {ap : List Arg}
    {outs : List (List Int)} :
    outputs (p :: ps) ap = .ok outs ↔
      ∃ out ap' outs', p.output ap = .ok (out, ap') ∧ outputs ps ap' = .ok outs' ∧
        outs = out :: outs' := by
  rw [outputs, bind_ok_iff]
  constructor
  · rintro ⟨⟨out, ap'⟩, hout, h⟩
    obtain ⟨outs', houts, h⟩ := bind_ok_iff.mp h
    cases h
    exact ⟨out, ap', outs', hout, houts, rfl⟩
  · rintro ⟨out, ap', outs', hout, houts, rfl⟩
    exact ⟨(out, ap'), hout, bind_ok_iff.mpr ⟨outs', houts, rfl⟩⟩

/-- What is not known is put as it is spelled. -/
theorem FmtPiece.output_echoed {p : FmtPiece} {ap ap' : List Arg} {out : List Int} (hp : p.Echoed)
    (h : p.output ap = .ok (out, ap')) : out = echo p.spell := by
  cases p with
  | literal ch =>
      cases h
      rfl
  | directive body ch =>
      obtain ⟨⟨d, ap₁⟩, -, h⟩ := bind_ok_iff.mp h
      change fmtCase ch = .default at hp
      rw [hp] at h
      cases h
      rfl
  | ended body =>
      obtain ⟨⟨d, ap₁⟩, -, h⟩ := bind_ok_iff.mp h
      cases h
      rfl

theorem outputs_echoed {ps : List FmtPiece} {ap : List Arg} {outs : List (List Int)}
    (h : outputs ps ap = .ok outs) :
    List.Forall₂ (fun p out => p.Echoed → out = echo p.spell) ps outs := by
  induction ps generalizing ap outs with
  | nil =>
      cases h
      exact List.Forall₂.nil
  | cons p ps ih =>
      obtain ⟨out, ap', outs', hout, houts, rfl⟩ := outputs_cons_iff.mp h
      exact List.Forall₂.cons (fun hp => FmtPiece.output_echoed hp hout) (ih houts)

/-! ## Arguments -/

/-- What a conversion takes. -/
def FmtConv.kinds (lflag : Int) : FmtConv → List ArgKind
  | .char => [.int]
  | .string => [.str]
  | .decimal | .unsigned | .hex => [numberKind lflag]
  | .pointer => [.ptr]
  | .octal | .percent => []

/-- What the end of a directive takes. -/
def FmtCase.kinds (lflag : Int) : FmtCase → List ArgKind
  | .conv k => k.kinds lflag
  | .error => [.int]
  | _ => []

/-- The arguments that a piece takes: an `int` for each `*`, and what the end of the directive asks
for. -/
def FmtPiece.kinds : FmtPiece → List ArgKind
  | literal _ => []
  | directive body ch =>
      List.replicate (body.count (ascii '*')) .int ++
        (fmtCase ch).kinds (wrap32 (body.count (ascii 'l')))
  | ended body => List.replicate (body.count (ascii '*')) .int

/-- The arguments match the format; there may be more than it takes. -/
def Matching (f : List (BitVec 8)) (ap : List Arg) : Prop :=
  (pieces f).flatMap FmtPiece.kinds <+: ap.map Arg.kind

instance (f : List (BitVec 8)) (ap : List Arg) : Decidable (Matching f ap) :=
  inferInstanceAs (Decidable (_ <+: _))

section Arguments

variable {d : FmtSpec} {taken : List Arg} (ap : List Arg) {a : Arg} {k : ArgKind} {ch : BitVec 8}
  {body : List (BitVec 8)}

theorem vaArg_cons (h : a.kind = k) : vaArg k (a :: ap) = .ok (a, ap) := if_pos h

theorem vaArg_single (h : taken.map Arg.kind = [k]) :
    ∃ a, a.kind = k ∧ vaArg k (taken ++ ap) = .ok (a, ap) := by
  obtain ⟨a, rfl, ha⟩ := List.map_eq_singleton_iff.mp h
  exact ⟨a, ha, vaArg_cons ap ha⟩

variable {ap} in
theorem vaArg_kind {ap' : List Arg} (h : vaArg k ap = .ok (a, ap')) : a.kind = k := by
  cases ap with
  | nil => cases h
  | cons b ap =>
      rw [vaArg] at h
      split at h
      · cases h
        assumption
      · cases h

theorem Arg.signed_int (h : a.kind = .int) : -2 ^ 31 ≤ a.signed ∧ a.signed < 2 ^ 31 := by
  cases a with
  | int v => exact ⟨BitVec.le_toInt v, BitVec.toInt_lt⟩
  | long v => cases h
  | longlong v => cases h
  | ptr v => cases h
  | str s => cases h

/-- A code is not negative, unless it is the one that cannot be negated. -/
theorem errorCode_mem {v : Int} (h : -2 ^ 31 ≤ v ∧ v < 2 ^ 31) :
    0 ≤ errorCode v ∧ errorCode v < 2 ^ 31 ∨ errorCode v = -2 ^ 31 := by
  rw [errorCode, wrap32]
  split
  · omega
  · omega

/-- There is a text, or none, for every code. -/
theorem errorString_ok {err : Int} (h : 0 ≤ err ∨ err = -2 ^ 31) :
    ∃ p, errorString err = .ok p := by
  rw [errorString]
  split
  · exact ⟨none, rfl⟩
  · have hindex : (4 * err % 2 ^ 32).toNat / 4 < errorTable.length := by
      change _ < 9
      omega
    rw [List.getElem?_eq_getElem hindex]
    exact ⟨_, rfl⟩

theorem errorOut_ok {v : Int} (h : -2 ^ 31 ≤ v ∧ v < 2 ^ 31) : ∃ out, errorOut v = .ok out := by
  obtain ⟨p, hp⟩ := errorString_ok ((errorCode_mem h).imp_left And.left)
  rw [errorOut, hp, ok_bind]
  cases p with
  | none => exact ⟨_, rfl⟩
  | some p => exact ⟨_, rfl⟩

theorem conversion_ok (k : FmtConv) (h : taken.map Arg.kind = k.kinds d.lflag) :
    ∃ out, conversion d (taken ++ ap) k = .ok (out, ap) := by
  cases k with
  | char | string | pointer =>
      obtain ⟨a, -, ha⟩ := vaArg_single ap h
      exact ⟨_, bind_ok_iff.mpr ⟨_, ha, rfl⟩⟩
  | decimal | unsigned =>
      obtain ⟨a, -, ha⟩ := vaArg_single ap h
      exact ⟨_, bind_ok_iff.mpr ⟨_, bind_ok_iff.mpr ⟨_, ha, rfl⟩, rfl⟩⟩
  | octal =>
      obtain rfl := List.map_eq_nil_iff.mp h
      exact ⟨_, rfl⟩
  | hex =>
      obtain ⟨a, -, ha⟩ := vaArg_single ap h
      exact ⟨_, bind_ok_iff.mpr ⟨_, bind_ok_iff.mpr ⟨_, ha, rfl⟩, rfl⟩⟩
  | percent =>
      obtain rfl := List.map_eq_nil_iff.mp h
      exact ⟨_, rfl⟩

theorem processPrecision_lflag (d : FmtSpec) : d.processPrecision.lflag = d.lflag := by
  rw [FmtSpec.processPrecision]
  split
  · rfl
  · rfl

theorem endNumber_lflag (d : FmtSpec) (inNumber : Bool) : (d.endNumber inNumber).lflag = d.lflag := by
  cases inNumber with
  | false => rfl
  | true => exact processPrecision_lflag d

theorem FmtCase.ite_ne {p : Prop} [Decidable p] {x y z : FmtCase} (hx : x ≠ z) (hy : y ≠ z) :
    (if p then x else y) ≠ z := by
  split
  · exact hx
  · exact hy

theorem fmtCase_ne_star (hne : ch ≠ ascii '*') : fmtCase ch ≠ .star := by
  rw [fmtCase, if_neg hne]
  repeat' apply FmtCase.ite_ne
  all_goals decide

theorem fmtCase_ne_ell (hne : ch ≠ ascii 'l') : fmtCase ch ≠ .ell := by
  rw [fmtCase, if_neg hne]
  repeat' apply FmtCase.ite_ne
  all_goals decide

/-- The other characters take nothing and are not counted. -/
theorem readModifier_other (hstar : fmtCase ch ≠ .star) (hell : fmtCase ch ≠ .ell) :
    ∃ inNumber d', readModifier d ch ap = .ok (inNumber, d', ap) ∧ d'.lflag = d.lflag := by
  rw [readModifier]
  cases hcase : fmtCase ch with
  | minus => exact ⟨_, _, rfl, rfl⟩
  | zero => exact ⟨_, _, rfl, rfl⟩
  | digit => exact ⟨_, _, rfl, rfl⟩
  | star => exact absurd hcase hstar
  | dot =>
      refine ⟨_, _, rfl, ?_⟩
      split
      · rfl
      · rfl
  | sharp => exact ⟨_, _, rfl, rfl⟩
  | ell => exact absurd hcase hell
  | conv k => exact ⟨_, _, rfl, rfl⟩
  | error => exact ⟨_, _, rfl, rfl⟩
  | default => exact ⟨_, _, rfl, rfl⟩

theorem wrap32_wrap32_add (n m : Int) : wrap32 (wrap32 n + m) = wrap32 (n + m) := by
  rw [wrap32, wrap32, wrap32]
  omega

/-- One character of a body: `*` takes an `int`, and `l` is counted. -/
theorem readModifier_ok {n : Int} (hd : d.lflag = wrap32 n)
    (h : taken.map Arg.kind = List.replicate ([ch].count (ascii '*')) .int) :
    ∃ inNumber d', readModifier d ch (taken ++ ap) = .ok (inNumber, d', ap) ∧
      d'.lflag = wrap32 (n + [ch].count (ascii 'l')) := by
  by_cases hstar : ch = ascii '*'
  · subst hstar
    obtain ⟨a, -, ha⟩ := vaArg_single ap h
    refine ⟨_, _, bind_ok_iff.mpr ⟨_, ha, rfl⟩, ?_⟩
    rw [processPrecision_lflag, show [ascii '*'].count (ascii 'l') = 0 by decide]
    exact hd.trans (congrArg wrap32 (Int.add_zero n).symm)
  · rw [List.count_singleton, if_neg (by simpa using hstar), List.replicate_zero,
      List.map_eq_nil_iff] at h
    subst h
    by_cases hell : ch = ascii 'l'
    · subst hell
      refine ⟨_, _, rfl, ?_⟩
      change wrap32 (d.lflag + 1) = _
      rw [hd, wrap32_wrap32_add]
      rfl
    · obtain ⟨inNumber, d', hread, hlflag⟩ := readModifier_other (d := d) ap
        (fmtCase_ne_star hstar) (fmtCase_ne_ell hell)
      refine ⟨inNumber, d', hread, ?_⟩
      rw [hlflag, hd, List.count_singleton, if_neg (by simpa using hell)]
      exact congrArg wrap32 (Int.add_zero n).symm

theorem IsDigit.ne (h : IsDigit ch) : ch ≠ ascii '*' ∧ ch ≠ ascii 'l' := by
  constructor
  · rintro rfl
    exact absurd h (by decide)
  · rintro rfl
    exact absurd h (by decide)

theorem count_head (c : BitVec 8) : (ch :: body).count c = [ch].count c + body.count c := by
  rw [← List.count_append]
  rfl

/-- The arguments of a body are its stars. -/
theorem readBody_ok {n : Int} (inNumber : Bool) (hd : d.lflag = wrap32 n)
    (h : taken.map Arg.kind = List.replicate (body.count (ascii '*')) .int) :
    ∃ d', readBody inNumber d body (taken ++ ap) = .ok (d', ap) ∧
      d'.lflag = wrap32 (n + body.count (ascii 'l')) := by
  induction body generalizing inNumber d n taken with
  | nil =>
      obtain rfl := List.map_eq_nil_iff.mp h
      refine ⟨_, rfl, ?_⟩
      rw [endNumber_lflag, hd]
      exact congrArg wrap32 (Int.add_zero n).symm
  | cons ch body ih =>
      rw [readBody]
      split
      · rename_i hdigit
        have hne := hdigit.2.ne
        rw [List.count_cons_of_ne hne.1] at h
        rw [List.count_cons_of_ne hne.2]
        exact ih true hd h
      · rw [count_head, List.replicate_add, List.map_eq_append_iff] at h
        obtain ⟨first, rest, rfl, hfirst, hrest⟩ := h
        have hd' : (d.endNumber inNumber).lflag = wrap32 n := (endNumber_lflag d inNumber).trans hd
        obtain ⟨inNumber', d₁, hread, hlflag⟩ := readModifier_ok (rest ++ ap) hd' hfirst
        obtain ⟨d', hbody, hlflag'⟩ := ih inNumber' hlflag hrest
        refine ⟨d', ?_, ?_⟩
        · rw [List.append_assoc, hread]
          exact hbody
        · rw [hlflag', Int.add_assoc, ← Int.natCast_add, ← count_head]

theorem FmtPiece.output_ok (p : FmtPiece) (h : taken.map Arg.kind = p.kinds) :
    ∃ out, p.output (taken ++ ap) = .ok (out, ap) := by
  cases p with
  | literal ch =>
      obtain rfl := List.map_eq_nil_iff.mp h
      exact ⟨_, rfl⟩
  | directive body ch =>
      obtain ⟨stars, rest, rfl, hstars, hrest⟩ := List.map_eq_append_iff.mp h
      obtain ⟨d, hbody, hlflag⟩ := readBody_ok (d := .init) (n := 0) (rest ++ ap) false rfl hstars
      rw [Int.zero_add] at hlflag
      rw [FmtPiece.output, List.append_assoc, hbody, ok_bind]
      cases hcase : fmtCase ch
      case conv k =>
        rw [hcase, ← hlflag] at hrest
        exact conversion_ok ap k hrest
      case error =>
        rw [hcase] at hrest
        obtain ⟨a, hint, ha⟩ := vaArg_single ap hrest
        obtain ⟨out, hout⟩ := errorOut_ok (Arg.signed_int hint)
        exact ⟨out, bind_ok_iff.mpr ⟨_, ha, bind_ok_iff.mpr ⟨out, hout, rfl⟩⟩⟩
      all_goals
        rw [hcase] at hrest
        obtain rfl := List.map_eq_nil_iff.mp hrest
        exact ⟨_, rfl⟩
  | ended body =>
      obtain ⟨d, hbody, -⟩ := readBody_ok (d := .init) (n := 0) ap false rfl h
      exact ⟨_, bind_ok_iff.mpr ⟨_, hbody, rfl⟩⟩

/-- Matching arguments are enough for all of the pieces. -/
theorem outputs_ok {ps : List FmtPiece} (h : ps.flatMap FmtPiece.kinds <+: ap.map Arg.kind) :
    ∃ outs, outputs ps ap = .ok outs := by
  induction ps generalizing ap with
  | nil => exact ⟨[], rfl⟩
  | cons p ps ih =>
      obtain ⟨more, hmore⟩ := h
      rw [List.flatMap_cons, List.append_assoc] at hmore
      obtain ⟨taken, rest, rfl, htaken, hrest⟩ := List.map_eq_append_iff.mp hmore.symm
      obtain ⟨out, hout⟩ := p.output_ok rest htaken
      obtain ⟨outs, houts⟩ := ih rest ⟨more, hrest.symm⟩
      exact ⟨out :: outs, outputs_cons_iff.mpr ⟨out, rest, outs, hout, houts, rfl⟩⟩

end Arguments

/-! ## Reading the format -/

/-- From the label on, the loop returns, and `out` has been put in all. -/
def Prints (f : List (BitVec 8)) (l : FmtLabel) (s : FmtState) (out : List Int) : Prop :=
  Settles (fun fuel => vprintfmtAt fuel f l s) (.ok out)

/-- The label inside of a directive. -/
def labelOf (inNumber : Bool) (d : FmtSpec) : FmtLabel := if inNumber then .number d else .reswitch d

section Reading

variable {f body text more : List (BitVec 8)} {ch : BitVec 8} {i : Nat} {l l' : FmtLabel}
  {s s' : FmtState} {d d' : FmtSpec} {ap ap' : List Arg} {out out' : List Int}

theorem Prints.jump (h : Prints f l' s' out)
    (hjump : ∀ fuel, vprintfmtAt (fuel + 1) f l s = vprintfmtAt fuel f l' s') : Prints f l s out :=
  Settles.step h hjump

/-- A jump with a call in it, which puts what `mid` has more than `t`. -/
theorem Prints.call {g : List (BitVec 8)} {t : FmtState} {mid : List Int}
    (hcall : Prints g .scan t mid) (hrest : Prints f .scan ⟨i, ap, mid⟩ out)
    (hstep : ∀ fuel, vprintfmtAt (fuel + 1) f l s =
      vprintfmtAt fuel g .scan t >>= fun mid => vprintfmtAt fuel f .scan ⟨i, ap, mid⟩) :
    Prints f l s out := by
  have hrest' : Settles ((fun mid fuel => vprintfmtAt fuel f .scan ⟨i, ap, mid⟩) mid) (.ok out) :=
    hrest
  exact Settles.call hcall hrest' hstep

theorem fmtByte_of_drop (h : (f ++ [0]).drop i = text ++ ch :: more) :
    fmtByte f (i + text.length) = .ok ch := by
  have hget : (f ++ [0])[i + text.length]? = some ch := by
    rw [← List.getElem?_drop, h, List.getElem?_append_right le_rfl, Nat.sub_self]
    rfl
  rw [fmtByte, hget]

theorem fmtByte_of_drop_cons (h : (f ++ [0]).drop i = ch :: more) : fmtByte f i = .ok ch :=
  @fmtByte_of_drop f [] more ch i h

theorem drop_of_drop (h : (f ++ [0]).drop i = text ++ more) :
    (f ++ [0]).drop (i + text.length) = more := by
  rw [← List.drop_drop, h, List.drop_left]

theorem drop_of_drop_cons (h : (f ++ [0]).drop i = ch :: more) : (f ++ [0]).drop (i + 1) = more :=
  @drop_of_drop f [ch] more i h

/-! ### The top of the loop -/

theorem scan_eq (h : (f ++ [0]).drop i = ch :: more) (fuel : Nat) :
    vprintfmtAt (fuel + 1) f .scan ⟨i, ap, out⟩ =
      if ch = ascii '%' then vprintfmtAt fuel f (.reswitch .init) ⟨i + 1, ap, out⟩
      else if ch = 0 then .ok out
      else vprintfmtAt fuel f .scan ⟨i + 1, ap, out ++ [(ch.toNat : Int)]⟩ := by
  change fmtByte f i >>= _ = _
  rw [fmtByte_of_drop_cons h]
  rfl

theorem Prints.nul (h : (f ++ [0]).drop i = 0 :: more) : Prints f .scan ⟨i, ap, out⟩ out :=
  Settles.last fun fuel => scan_eq h fuel

theorem Prints.percent (h : (f ++ [0]).drop i = ascii '%' :: more)
    (hrest : Prints f (.reswitch .init) ⟨i + 1, ap, out⟩ out') : Prints f .scan ⟨i, ap, out⟩ out' :=
  hrest.jump fun fuel => scan_eq h fuel

/-- Literal bytes are put one by one. -/
theorem Prints.literals (h : (f ++ [0]).drop i = text ++ more)
    (htext : ∀ ch ∈ text, ch ≠ ascii '%' ∧ ch ≠ 0)
    (hrest : Prints f .scan ⟨i + text.length, ap, out ++ echo text⟩ out') :
    Prints f .scan ⟨i, ap, out⟩ out' := by
  induction text generalizing i out with
  | nil =>
      rw [echo, List.map_nil, List.append_nil] at hrest
      exact hrest
  | cons ch text ih =>
      obtain ⟨hpercent, hnul⟩ := htext ch List.mem_cons_self
      have hnext : Prints f .scan ⟨i + 1, ap, out ++ [(ch.toNat : Int)]⟩ out' := by
        refine ih (drop_of_drop_cons h) (fun m hm => htext m (List.mem_cons_of_mem ch hm)) ?_
        rw [List.append_assoc, Nat.add_assoc, Nat.add_comm 1]
        exact hrest
      refine hnext.jump fun fuel => ?_
      rw [scan_eq h, if_neg hpercent, if_neg hnul]

/-! ### Inside of a directive -/

theorem fmtCase_digit (h : IsDigit ch) (hne : ch ≠ ascii '0') : fmtCase ch = .digit := by
  -- a digit is an ASCII character, whose sign is that of no other byte
  have hrange : 48 ≤ ch.toNat ∧ ch.toNat ≤ 57 := by
    obtain ⟨hlo, hhi⟩ : (48 : Int) ≤ ch.toInt ∧ ch.toInt ≤ 57 := h
    rw [BitVec.toInt_eq_toNat_cond] at hlo hhi
    have hlt := ch.isLt
    split at hlo <;> omega
  have hminus : ch ≠ ascii '-' := by
    rintro rfl
    exact absurd hrange (by decide)
  have hbounds : ascii '1' ≤ ch ∧ ch ≤ ascii '9' := by
    have hzero : ch.toNat ≠ 48 := fun h48 => hne (BitVec.eq_of_toNat_eq h48)
    rw [BitVec.le_def, BitVec.le_def, show (ascii '1').toNat = 49 from rfl,
      show (ascii '9').toNat = 57 from rfl]
    omega
  rw [fmtCase, if_neg hminus, if_neg hne, if_pos hbounds]

theorem isModifier_of_isDigit (h : IsDigit ch) : isModifier ch := by
  by_cases hzero : ch = ascii '0'
  · subst hzero
    rfl
  · rw [isModifier, fmtCase_digit h hzero]
    rfl

/-- A character of the body is read as `readModifier` says. -/
theorem Prints.modifier {inNumber : Bool} (h : (f ++ [0]).drop i = ch :: more)
    (hch : isModifier ch) (hread : readModifier d ch ap = .ok (inNumber, d', ap'))
    (hrest : Prints f (labelOf inNumber d') ⟨i + 1, ap', out⟩ out') :
    Prints f (.reswitch d) ⟨i, ap, out⟩ out' := by
  refine hrest.jump fun fuel => ?_
  change fmtByte f i >>= _ = _
  rw [fmtByte_of_drop_cons h, ok_bind]
  rw [readModifier] at hread
  rw [isModifier] at hch
  cases hcase : fmtCase ch
  case star =>
    rw [hcase] at hread
    obtain ⟨⟨a, ap₁⟩, ha, hread⟩ := bind_ok_iff.mp hread
    cases hread
    dsimp only
    rw [ha]
    rfl
  all_goals
    rw [hcase] at hread hch
    first
    | cases hread; rfl
    | cases hch

/-- A number ends where no digit follows. -/
theorem Prints.endNumber (h : (f ++ [0]).drop i = ch :: more) (hdigit : ¬ IsDigit ch)
    (hrest : Prints f (.reswitch d.processPrecision) ⟨i, ap, out⟩ out') :
    Prints f (.number d) ⟨i, ap, out⟩ out' := by
  refine hrest.jump fun fuel => ?_
  change fmtByte f i >>= _ = _
  rw [fmtByte_of_drop_cons h, ok_bind, if_neg hdigit]

theorem Prints.addDigit (h : (f ++ [0]).drop i = ch :: more) (hdigit : IsDigit ch)
    (hrest : Prints f (.number (d.addDigit d.precision ch)) ⟨i + 1, ap, out⟩ out') :
    Prints f (.number d) ⟨i, ap, out⟩ out' := by
  refine hrest.jump fun fuel => ?_
  change fmtByte f i >>= _ = _
  rw [fmtByte_of_drop_cons h, ok_bind, if_pos hdigit]

/-- Behind a number that is over, the label is `reswitch`. -/
theorem Prints.ofReswitch {inNumber : Bool} (h : (f ++ [0]).drop i = ch :: more)
    (hdigit : ¬ (inNumber ∧ IsDigit ch))
    (hrest : Prints f (.reswitch (d.endNumber inNumber)) ⟨i, ap, out⟩ out') :
    Prints f (labelOf inNumber d) ⟨i, ap, out⟩ out' := by
  cases inNumber with
  | false => exact hrest
  | true => exact Prints.endNumber h (fun hch => hdigit ⟨rfl, hch⟩) hrest

/-- The body is read as `readBody` says, up to the character behind it. -/
theorem Prints.ofBody {inNumber : Bool} (h : (f ++ [0]).drop i = body ++ ch :: more)
    (hbody : ∀ m ∈ body, isModifier m) (hch : isModifier ch = false)
    (hread : readBody inNumber d body ap = .ok (d', ap'))
    (hrest : Prints f (.reswitch d') ⟨i + body.length, ap', out⟩ out') :
    Prints f (labelOf inNumber d) ⟨i, ap, out⟩ out' := by
  induction body generalizing i inNumber d ap with
  | nil =>
      cases hread
      refine Prints.ofReswitch h ?_ hrest
      rintro ⟨-, hdigit⟩
      rw [isModifier_of_isDigit hdigit] at hch
      cases hch
  | cons m body ih =>
      have hnext : (f ++ [0]).drop (i + 1) = body ++ ch :: more := drop_of_drop_cons h
      have hmods : ∀ m' ∈ body, isModifier m' := fun m' hm' => hbody m' (List.mem_cons_of_mem m hm')
      have hend : Prints f (.reswitch d') ⟨i + 1 + body.length, ap', out⟩ out' := by
        rw [Nat.add_assoc, Nat.add_comm 1]
        exact hrest
      rw [readBody] at hread
      split at hread
      · rename_i hdigit
        obtain ⟨rfl, hdigit⟩ := hdigit
        have hnumber : Prints f (labelOf true (d.addDigit d.precision m)) ⟨i + 1, ap, out⟩ out' :=
          ih hnext hmods hread hend
        exact Prints.addDigit h hdigit hnumber
      · rename_i hdigit
        obtain ⟨⟨inNumber', d₁, ap₁⟩, hmod, hread⟩ := bind_ok_iff.mp hread
        refine Prints.ofReswitch h hdigit ?_
        exact Prints.modifier h (hbody m List.mem_cons_self) hmod (ih hnext hmods hread hend)

/-! ### The end of a directive -/

/-- The way back to the `%`. -/
theorem Prints.rewind (h : (f ++ [0]).drop i = ascii '%' :: (body ++ more))
    (hbody : ∀ m ∈ body, m ≠ ascii '%') (hrest : Prints f .scan ⟨i + 1, ap, out⟩ out') :
    Prints f .rewind ⟨i + 1 + body.length, ap, out⟩ out' := by
  induction body using List.reverseRecOn generalizing more with
  | nil =>
      refine hrest.jump fun fuel => ?_
      rw [List.length_nil, Nat.add_zero]
      change fmtByte f i >>= _ = _
      rw [fmtByte_of_drop_cons h, ok_bind, if_neg (fun hne => hne rfl)]
  | append_singleton body m ih =>
      have hlast : fmtByte f (i + 1 + body.length) = .ok m := by
        rw [List.append_assoc] at h
        exact fmtByte_of_drop (drop_of_drop_cons h)
      rw [List.append_assoc] at h
      have hback := ih h fun m' hm' => hbody m' (List.mem_append_left [m] hm')
      refine hback.jump fun fuel => ?_
      rw [List.length_append, List.length_singleton, ← Nat.add_assoc]
      change fmtByte f (i + 1 + body.length) >>= _ = _
      rw [hlast, ok_bind, if_pos (hbody m (List.mem_append_right body (List.mem_singleton_self m)))]
      rfl

/-- An end that is not known: the `%` is put, and the rest is read again. -/
theorem Prints.unknown (h : (f ++ [0]).drop i = ascii '%' :: (body ++ ch :: more))
    (hbody : ∀ m ∈ body, m ≠ ascii '%') (hch : fmtCase ch = .default)
    (hrest : Prints f .scan ⟨i + 1, ap, out ++ [charInt '%']⟩ out') :
    Prints f (.reswitch d) ⟨i + 1 + body.length, ap, out⟩ out' := by
  refine (Prints.rewind h hbody hrest).jump fun fuel => ?_
  change fmtByte f (i + 1 + body.length) >>= _ = _
  rw [fmtByte_of_drop (drop_of_drop_cons h), ok_bind]
  dsimp only
  rw [hch]
  rfl

theorem Prints.conv {k : FmtConv} {put : List Int} (h : (f ++ [0]).drop i = ch :: more)
    (hch : fmtCase ch = .conv k) (hconv : conversion d ap k = .ok (put, ap'))
    (hrest : Prints f .scan ⟨i + 1, ap', out ++ put⟩ out') :
    Prints f (.reswitch d) ⟨i, ap, out⟩ out' := by
  refine hrest.jump fun fuel => ?_
  change fmtByte f i >>= _ = _
  rw [fmtByte_of_drop_cons h, ok_bind]
  dsimp only
  rw [hch]
  dsimp only
  rw [hconv]
  rfl

/-- A call of `printfmt` with a format of literal bytes and one conversion. -/
theorem Prints.printfmt {k : FmtConv} {put : List Int} (htext : ∀ m ∈ text, m ≠ ascii '%' ∧ m ≠ 0)
    (hch : fmtCase ch = .conv k) (hconv : conversion .init ap k = .ok (put, ap')) :
    Prints (text ++ [ascii '%', ch]) .scan ⟨0, ap, out⟩ (out ++ echo text ++ put) := by
  have h₀ : ((text ++ [ascii '%', ch]) ++ [0]).drop 0 = text ++ (ascii '%' :: ch :: [0]) := by
    rw [List.drop_zero, List.append_assoc]
    rfl
  have h₁ := drop_of_drop h₀
  have h₂ := drop_of_drop_cons h₁
  have h₃ := drop_of_drop_cons h₂
  exact Prints.literals h₀ htext (Prints.percent h₁ (Prints.conv h₂ hch hconv (Prints.nul h₃)))

/-- `%e` makes a call, with the text for the code or with the code. -/
theorem Prints.error {a : Arg} {put : List Int} (h : (f ++ [0]).drop i = ch :: more)
    (hch : fmtCase ch = .error) (harg : vaArg .int ap = .ok (a, ap'))
    (hput : errorOut a.signed = .ok put) (hrest : Prints f .scan ⟨i + 1, ap', out ++ put⟩ out') :
    Prints f (.reswitch d) ⟨i, ap, out⟩ out' := by
  obtain ⟨p, hp, hput⟩ := bind_ok_iff.mp hput
  have hstep : ∀ fuel, vprintfmtAt (fuel + 1) f (.reswitch d) ⟨i, ap, out⟩ =
      vprintfmtAt fuel (errorCall (errorCode a.signed) p).1 .scan
          ⟨0, (errorCall (errorCode a.signed) p).2, out⟩ >>=
        fun out => vprintfmtAt fuel f .scan ⟨i + 1, ap', out⟩ := by
    intro fuel
    change fmtByte f i >>= _ = _
    rw [fmtByte_of_drop_cons h, ok_bind]
    dsimp only
    rw [hch]
    dsimp only
    rw [harg, ok_bind]
    dsimp only
    rw [hp]
    rfl
  cases p with
  | none =>
      cases hput
      have hcode : (BitVec.ofInt 32 (errorCode a.signed)).toInt = errorCode a.signed := by
        have := errorCode_mem (Arg.signed_int (vaArg_kind harg))
        rw [BitVec.toInt_ofInt]
        exact Int.bmod_eq_of_le (by omega) (by omega)
      have hcall : Prints (bytesOf "error " ++ [ascii '%', ascii 'd']) .scan
          ⟨0, [.int (BitVec.ofInt 32 (errorCode a.signed))], out⟩
          (out ++ echo (bytesOf "error ") ++ decimalOut .init (errorCode a.signed)) := by
        have hconv : conversion .init [.int (BitVec.ofInt 32 (errorCode a.signed))] .decimal =
            .ok (decimalOut .init (BitVec.ofInt 32 (errorCode a.signed)).toInt, []) := rfl
        rw [hcode] at hconv
        exact Prints.printfmt (by decide) (by decide : fmtCase (ascii 'd') = .conv .decimal) hconv
      rw [← List.append_assoc] at hrest
      exact Prints.call hcall hrest hstep
  | some p =>
      cases hput
      have hcall : Prints ([] ++ [ascii '%', ascii 's']) .scan ⟨0, [.str (some (bytesOf p))], out⟩
          (out ++ echo [] ++ stringOut .init (bytesOf p)) :=
        Prints.printfmt (by decide) (by decide : fmtCase (ascii 's') = .conv .string) rfl
      rw [echo, List.map_nil, List.append_nil] at hcall
      exact Prints.call hcall hrest hstep

end Reading

/-! ## Formats -/

theorem isModifier_ne {ch : BitVec 8} (h : isModifier ch) : ch ≠ ascii '%' ∧ ch ≠ 0 := by
  constructor
  · rintro rfl
    exact absurd h (by decide)
  · rintro rfl
    exact absurd h (by decide)

theorem default_ne {ch : BitVec 8} (h : fmtCase ch = .default) : ch ≠ ascii '%' := by
  rintro rfl
  exact absurd h (by decide)

/-- What follows a `%`: the body of a directive, and its end if there is one. -/
theorem exists_body (f : List (BitVec 8)) :
    ∃ body rest, f = body ++ rest ∧ (∀ m ∈ body, isModifier m) ∧
      ∀ ch more, rest = ch :: more → isModifier ch = false := by
  refine ⟨f.takeWhile isModifier, f.dropWhile isModifier, List.takeWhile_append_dropWhile.symm,
    fun m hm => List.mem_takeWhile_imp hm, fun ch more hrest => ?_⟩
  have hne : f.dropWhile isModifier ≠ [] := by
    rw [hrest]
    exact List.cons_ne_nil ch more
  have hhead := List.head_dropWhile_not isModifier hne
  simpa only [hrest, List.head_cons] using hhead

section Formats

variable {f body more : List (BitVec 8)} {ch : BitVec 8} {i : Nat} {ap ap' : List Arg}
  {out out' put : List Int}

/-- A directive that is not known is put as it is spelled, the `%` first and the rest on the second
reading. -/
theorem Prints.echoed {d : FmtSpec}
    (h : (f ++ [0]).drop i = ascii '%' :: (body ++ ch :: more))
    (hbody : ∀ m ∈ body, isModifier m) (hch : fmtCase ch = .default) (hnul : ch ≠ 0)
    (hread : readBody false .init body ap = .ok (d, ap'))
    (hrest : Prints f .scan
      ⟨i + 1 + (body ++ [ch]).length, ap', out ++ echo (ascii '%' :: body ++ [ch])⟩ out') :
    Prints f .scan ⟨i, ap, out⟩ out' := by
  have hbody' := fun m hm => isModifier_ne (hbody m hm)
  have hnext := drop_of_drop_cons h
  have hagain : (f ++ [0]).drop (i + 1) = (body ++ [ch]) ++ more := by
    rw [hnext, List.append_assoc]
    rfl
  have hliteral : ∀ m ∈ body ++ [ch], m ≠ ascii '%' ∧ m ≠ 0 := by
    intro m hm
    rcases List.mem_append.mp hm with hm | hm
    · exact hbody' m hm
    · rw [List.mem_singleton.mp hm]
      exact ⟨default_ne hch, hnul⟩
  have hend : isModifier ch = false := by
    rw [isModifier, hch]
    rfl
  have hsecond : Prints f .scan ⟨i + 1, ap', out ++ [charInt '%']⟩ out' := by
    refine Prints.literals hagain hliteral ?_
    rw [List.append_assoc]
    exact hrest
  have hfirst : Prints f (labelOf false .init) ⟨i + 1, ap, out⟩ out' :=
    Prints.ofBody hnext hbody hend hread
      (Prints.unknown h (fun m hm => (hbody' m hm).1) hch hsecond)
  exact Prints.percent h hfirst

/-- So is one in which the format ends. -/
theorem Prints.ended {d : FmtSpec} (h : (f ++ [0]).drop i = ascii '%' :: (body ++ [0]))
    (hbody : ∀ m ∈ body, isModifier m) (hread : readBody false .init body ap = .ok (d, ap')) :
    Prints f .scan ⟨i, ap, out⟩ (out ++ echo (ascii '%' :: body)) := by
  have hbody' := fun m hm => isModifier_ne (hbody m hm)
  have hnext := drop_of_drop_cons h
  have hsecond : Prints f .scan ⟨i + 1, ap', out ++ [charInt '%']⟩
      (out ++ echo (ascii '%' :: body)) := by
    refine Prints.literals hnext hbody' ?_
    rw [List.append_assoc]
    exact Prints.nul (drop_of_drop hnext)
  have hfirst : Prints f (labelOf false .init) ⟨i + 1, ap, out⟩ (out ++ echo (ascii '%' :: body)) :=
    Prints.ofBody hnext hbody rfl hread
      (Prints.unknown h (fun m hm => (hbody' m hm).1) rfl hsecond)
  exact Prints.percent h hfirst

/-- A directive puts its output. -/
theorem Prints.directive (h : (f ++ [0]).drop i = ascii '%' :: (body ++ ch :: more))
    (hbody : ∀ m ∈ body, isModifier m) (hch : isModifier ch = false) (hnul : ch ≠ 0)
    (hput : (FmtPiece.directive body ch).output ap = .ok (put, ap'))
    (hrest : Prints f .scan ⟨i + 1 + (body.length + 1), ap', out ++ put⟩ out') :
    Prints f .scan ⟨i, ap, out⟩ out' := by
  obtain ⟨⟨d, ap₁⟩, hread, hput⟩ := bind_ok_iff.mp hput
  have hnext := drop_of_drop_cons h
  have hlast := drop_of_drop hnext
  -- the known ends, behind the body
  have hknown (hend : Prints f (.reswitch d) ⟨i + 1 + body.length, ap₁, out⟩ out') :
      Prints f .scan ⟨i, ap, out⟩ out' := by
    have hfirst : Prints f (labelOf false .init) ⟨i + 1, ap, out⟩ out' :=
      Prints.ofBody hnext hbody hch hread hend
    exact Prints.percent h hfirst
  cases hcase : fmtCase ch
  case conv k =>
    rw [hcase] at hput
    exact hknown (Prints.conv hlast hcase hput hrest)
  case error =>
    rw [hcase] at hput
    obtain ⟨⟨a, ap₂⟩, harg, hput⟩ := bind_ok_iff.mp hput
    obtain ⟨put', herror, hput⟩ := bind_ok_iff.mp hput
    cases hput
    exact hknown (Prints.error hlast hcase harg herror hrest)
  case default =>
    rw [hcase] at hput
    cases hput
    refine Prints.echoed h hbody hcase hnul hread ?_
    rw [List.length_append]
    exact hrest
  all_goals
    rw [isModifier, hcase] at hch
    cases hch

/-- The loop prints the outputs of the pieces that have not been read. -/
theorem prints_pieces {rest : List (BitVec 8)} {outs : List (List Int)}
    (h : (f ++ [0]).drop i = rest ++ [0]) (hnul : 0 ∉ rest)
    (houts : outputs (pieces rest) ap = .ok outs) :
    Prints f .scan ⟨i, ap, out⟩ (out ++ outs.flatten) := by
  induction hlen : rest.length using Nat.strong_induction_on generalizing rest i ap out outs with
  | _ n ih =>
      cases rest with
      | nil =>
          cases houts
          rw [List.flatten_nil, List.append_nil]
          exact Prints.nul h
      | cons ch rest =>
          have hnul' : ch ≠ 0 ∧ 0 ∉ rest := by
            rw [List.mem_cons, not_or] at hnul
            exact ⟨Ne.symm hnul.1, hnul.2⟩
          by_cases hch : ch = ascii '%'
          · subst hch
            obtain ⟨body, rest, rfl, hbody, hrest⟩ := exists_body rest
            cases rest with
            | nil =>
                rw [List.append_nil] at h houts
                rw [pieces_ended hbody] at houts
                obtain ⟨put, ap', outs', hput, houts', rfl⟩ := outputs_cons_iff.mp houts
                cases houts'
                obtain ⟨⟨d, ap₁⟩, hread, hput⟩ := bind_ok_iff.mp hput
                cases hput
                rw [List.flatten_cons, List.flatten_nil, List.append_nil]
                exact Prints.ended h hbody hread
            | cons ch more =>
                have hend := hrest ch more rfl
                rw [pieces_directive hbody hend] at houts
                obtain ⟨put, ap', outs', hput, houts', rfl⟩ := outputs_cons_iff.mp houts
                have hnul'' : ch ≠ 0 ∧ 0 ∉ more := by
                  have := hnul'.2
                  rw [List.mem_append, List.mem_cons] at this
                  exact ⟨fun h0 => this (Or.inr (Or.inl h0.symm)), fun h0 => this (Or.inr (Or.inr h0))⟩
                rw [List.cons_append, List.append_assoc] at h
                have hafter : (f ++ [0]).drop (i + 1 + (body.length + 1)) = more ++ [0] := by
                  rw [← Nat.add_assoc]
                  exact drop_of_drop_cons (drop_of_drop (drop_of_drop_cons h))
                have hless : more.length < n := by
                  rw [← hlen, List.length_cons, List.length_append, List.length_cons]
                  omega
                refine Prints.directive h hbody hend hnul''.1 hput ?_
                rw [List.flatten_cons, ← List.append_assoc]
                exact ih more.length hless hafter hnul''.2 houts' rfl
          · rw [pieces_literal hch] at houts
            obtain ⟨put, ap', outs', hput, houts', rfl⟩ := outputs_cons_iff.mp houts
            cases hput
            have hless : rest.length < n := by
              rw [← hlen]
              exact Nat.lt_succ_self _
            rw [List.flatten_cons, ← List.append_assoc]
            refine (ih rest.length hless (drop_of_drop_cons h) hnul'.2 houts' rfl).jump fun fuel => ?_
            rw [scan_eq h, if_neg hch, if_neg hnul'.1]
            rfl

/-- `vprintfmt` prints the outputs of the pieces. -/
theorem vprintfmt_settles {outs : List (List Int)} (hnul : 0 ∉ f)
    (houts : outputs (pieces f) ap = .ok outs) :
    Settles (fun fuel => vprintfmt fuel f ap) (.ok outs.flatten) :=
  prints_pieces List.drop_zero hnul houts

/-- With matching arguments `vprintfmt` returns, without having read outside of the format, and each
piece that it does not know has been put as it is spelled. -/
theorem vprintfmt_echoes (f : List (BitVec 8)) (ap : List Arg) (hnul : 0 ∉ f) (hap : Matching f ap) :
    (pieces f).flatMap FmtPiece.spell = f ∧
    ∃ outs, List.Forall₂ (fun p out => p.Echoed → out = echo p.spell) (pieces f) outs ∧
      Settles (fun fuel => vprintfmt fuel f ap) (.ok outs.flatten) := by
  obtain ⟨outs, houts⟩ := outputs_ok ap hap
  exact ⟨spell_piecesFrom none f, outs, outputs_echoed houts, vprintfmt_settles hnul houts⟩

/-- A directive with an unknown end, one that is known, and one that the format ends in. -/
theorem vprintfmt_echoes_unknown :
    Matching (bytesOf "a%*-5zb%ld%0") [.int 3, .long 7] ∧
    ∃ outs, List.Forall₂ (fun p out => p.Echoed → out = echo p.spell)
        (pieces (bytesOf "a%*-5zb%ld%0")) outs ∧
      Settles (fun fuel => vprintfmt fuel (bytesOf "a%*-5zb%ld%0") [.int 3, .long 7])
        (.ok outs.flatten) :=
  ⟨by decide, (vprintfmt_echoes (bytesOf "a%*-5zb%ld%0") [.int 3, .long 7] (by decide)
    (by decide)).2⟩

end Formats

end Nctuos
