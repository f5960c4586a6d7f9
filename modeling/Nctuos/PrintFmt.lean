import Nctuos.Task
import Nctuos.Lib.Fuel
import Nctuos.Lib.Except

/-!
# Formatted output

`vprintfmt` of `lib/printfmt.c`.  A format is read through the pointer `fmt`, which goes back when a
directive turns out to be none, so here it is an index into the format and every byte is read with
`fmtByte`, which faults before the first byte and behind the NUL.  The function is one loop with
labels, and so is the model: `vprintfmtAt` is what is done from a label on, in at most `fuel` jumps.

What is printed is the list of the values that `putch` is called with.  They are `int`s: a byte of
the format is put unsigned, a byte of a string as a signed `char`, the argument of `%c` as it is.

The arguments are a typed list, and to take one of another type is a fault.  A string argument is
the bytes up to the NUL, or NULL.  Signed arithmetic wraps around.
-/

namespace Nctuos

open Lib

/-! ## Characters and arguments -/

def ascii (c : Char) : BitVec 8 := BitVec.ofNat 8 c.toNat

def bytesOf (s : String) : List (BitVec 8) := s.toList.map ascii

/-- The types that are taken from the argument list. -/
inductive ArgKind where
  | int
  | long
  | longlong
  | ptr
  | str
  deriving DecidableEq, Repr

/-- An argument; whether a number is signed is a matter of the directive. -/
inductive Arg where
  | int (v : BitVec 32)
  | long (v : BitVec 32)
  | longlong (v : BitVec 64)
  | ptr (v : BitVec 32)
  | str (s : Option (List (BitVec 8)))
  deriving DecidableEq, Repr

def Arg.kind : Arg → ArgKind
  | int _ => .int
  | long _ => .long
  | longlong _ => .longlong
  | ptr _ => .ptr
  | str _ => .str

/-- `va_arg`, of a type. -/
def vaArg (k : ArgKind) : List Arg → Except Stop (Arg × List Arg)
  | a :: ap => if a.kind = k then .ok (a, ap) else .error .fault
  | [] => .error .fault

def Arg.signed : Arg → Int
  | int v | long v | ptr v => v.toInt
  | longlong v => v.toInt
  | str _ => 0

def Arg.unsigned : Arg → Nat
  | int v | long v | ptr v => v.toNat
  | longlong v => v.toNat
  | str _ => 0

def Arg.string : Arg → Option (List (BitVec 8))
  | str s => s
  | _ => none

/-- The type that `lflag` asks for. -/
def numberKind (lflag : Int) : ArgKind :=
  if 2 ≤ lflag then .longlong else if lflag ≠ 0 then .long else .int

def getuint (ap : List Arg) (lflag : Int) : Except Stop (Nat × List Arg) := do
  let (a, ap) ← vaArg (numberKind lflag) ap
  .ok (a.unsigned, ap)

def getint (ap : List Arg) (lflag : Int) : Except Stop (Int × List Arg) := do
  let (a, ap) ← vaArg (numberKind lflag) ap
  .ok (a.signed, ap)

/-! ## Conversions -/

/-- The flags, the width and the precision of a directive. -/
structure FmtSpec where
  padc : Char
  width : Int
  precision : Int
  lflag : Int
  altflag : Bool
  deriving DecidableEq, Repr

def FmtSpec.init : FmtSpec := ⟨' ', -1, -1, 0, false⟩

/-- The label `process_precision`. -/
def FmtSpec.processPrecision (d : FmtSpec) : FmtSpec :=
  if d.width < 0 then { d with width := d.precision, precision := -1 } else d

def digits : List Char :=
  ['0', '1', '2', '3', '4', '5', '6', '7', '8', '9', 'a', 'b', 'c', 'd', 'e', 'f']

/-- A character constant, as the `int` that it is. -/
def charInt (c : Char) : Int := c.toNat

/-- A base below 2, with which the source would call itself for ever, is never used. -/
def printnum (num base : Nat) (hbase : 2 ≤ base) (width : Int) (padc : Char) : List Int :=
  (if _h : base ≤ num then printnum (num / base) base hbase (wrap32 (width - 1)) padc
    -- `while (--width > 0)`
    else List.replicate (wrap32 (width - 1)).toNat (charInt padc)) ++
  [charInt (digits.getD (num % base) '0')]
termination_by num
decreasing_by exact Nat.div_lt_self (by omega) (by omega)

def strnlen : List (BitVec 8) → Nat → Nat
  | [], _ => 0
  | _ :: _, 0 => 0
  | c :: s, size + 1 => if c = 0 then 0 else strnlen s size + 1

/-- The middle loop of `%s`: what it prints, and the width that it leaves. -/
def stringLoop (altflag : Bool) : List (BitVec 8) → Int → Int → List Int × Int
  | [], _, width => ([], width)
  | c :: s, precision, width =>
      if c ≠ 0 ∧ (precision < 0 ∨ 0 ≤ precision - 1) then
        let ch := c.toInt
        let put := if altflag ∧ (ch < charInt ' ' ∨ charInt '~' < ch) then charInt '?' else ch
        let rest := stringLoop altflag s (if precision < 0 then precision else precision - 1)
          (wrap32 (width - 1))
        (put :: rest.1, rest.2)
      else ([], width)

/-- `%s` with a string that is there. -/
def stringOut (d : FmtSpec) (s : List (BitVec 8)) : List Int :=
  if 0 < d.width ∧ d.padc ≠ '-' then
    -- the first loop leaves a width of 0, unless it was less
    let width := wrap32 (d.width - wrap32 (strnlen s (d.precision % 2 ^ 32).toNat))
    let middle := stringLoop d.altflag s d.precision (min width 0)
    List.replicate width.toNat (charInt d.padc) ++ middle.1 ++
      List.replicate middle.2.toNat (charInt ' ')
  else
    let middle := stringLoop d.altflag s d.precision d.width
    middle.1 ++ List.replicate middle.2.toNat (charInt ' ')

/-- `%d`: `num` is an `unsigned long long`. -/
def decimalOut (d : FmtSpec) (v : Int) : List Int :=
  if v < 0 then charInt '-' :: printnum ((-v) % 2 ^ 64).toNat 10 (by decide) d.width d.padc
  else printnum v.toNat 10 (by decide) d.width d.padc

/-- The directives that print what they are given, and `%%`. -/
inductive FmtConv where
  | char
  | string
  | decimal
  | unsigned
  | octal
  | pointer
  | hex
  | percent
  deriving DecidableEq, Repr

def conversion (d : FmtSpec) (ap : List Arg) : FmtConv → Except Stop (List Int × List Arg)
  | .char => do
      let (a, ap) ← vaArg .int ap
      .ok ([a.signed], ap)
  | .string => do
      let (a, ap) ← vaArg .str ap
      .ok (stringOut d (a.string.getD (bytesOf "(null)")), ap)
  | .decimal => do
      let (v, ap) ← getint ap d.lflag
      .ok (decimalOut d v, ap)
  | .unsigned => do
      let (num, ap) ← getuint ap d.lflag
      .ok (printnum num 10 (by decide) d.width d.padc, ap)
  | .octal => .ok ([charInt 'X', charInt 'X', charInt 'X'], ap)
  | .pointer => do
      let (a, ap) ← vaArg .ptr ap
      .ok (charInt '0' :: charInt 'x' :: printnum a.unsigned 16 (by decide) d.width d.padc, ap)
  | .hex => do
      let (num, ap) ← getuint ap d.lflag
      .ok (printnum num 16 (by decide) d.width d.padc, ap)
  | .percent => .ok ([charInt '%'], ap)

/-- `error_string`, of `MAXERROR` entries. -/
def errorTable : List (Option String) :=
  [none, some "unspecified error", some "bad environment", some "invalid parameter",
    some "out of memory", some "out of environments", some "segmentation fault",
    some "env is not recving", some "unexpected end of file"]

/-- The code of `%e`, negated if it is negative. -/
def errorCode (v : Int) : Int := if v < 0 then wrap32 (-v) else v

/-- The text for an error code, which was negated if it was negative; NULL also for one that is too
large.  The only code that stays negative is the least `int`, and the address that is computed with
it is that of the first entry. -/
def errorString (err : Int) : Except Stop (Option String) :=
  if 9 ≤ err then .ok none
  else
    match errorTable[(4 * err % 2 ^ 32).toNat / 4]? with
    | some p => .ok p
    | none => .error .fault

/-- The format and the arguments with which `%e` calls `printfmt`. -/
def errorCall (err : Int) : Option String → List (BitVec 8) × List Arg
  | none => (bytesOf "error %d", [.int (BitVec.ofInt 32 err)])
  | some p => (bytesOf "%s", [.str (some (bytesOf p))])

/-! ## The loop -/

/-- The cases of the `switch`. -/
inductive FmtCase where
  | minus
  | zero
  | digit
  | star
  | dot
  | sharp
  | ell
  | conv (k : FmtConv)
  | error
  | default
  deriving DecidableEq, Repr

def fmtCase (ch : BitVec 8) : FmtCase :=
  if ch = ascii '-' then .minus
  else if ch = ascii '0' then .zero
  else if ascii '1' ≤ ch ∧ ch ≤ ascii '9' then .digit
  else if ch = ascii '*' then .star
  else if ch = ascii '.' then .dot
  else if ch = ascii '#' then .sharp
  else if ch = ascii 'l' then .ell
  else if ch = ascii 'c' then .conv .char
  else if ch = ascii 'e' then .error
  else if ch = ascii 's' then .conv .string
  else if ch = ascii 'd' then .conv .decimal
  else if ch = ascii 'u' then .conv .unsigned
  else if ch = ascii 'o' then .conv .octal
  else if ch = ascii 'p' then .conv .pointer
  else if ch = ascii 'x' then .conv .hex
  else if ch = ascii '%' then .conv .percent
  else .default

/-- The test of the loop for a width, on a signed `char`. -/
def IsDigit (ch : BitVec 8) : Prop := charInt '0' ≤ ch.toInt ∧ ch.toInt ≤ charInt '9'

instance (ch : BitVec 8) : Decidable (IsDigit ch) := inferInstanceAs (Decidable (_ ∧ _))

/-- A digit more. -/
def FmtSpec.addDigit (d : FmtSpec) (precision : Int) (ch : BitVec 8) : FmtSpec :=
  { d with precision := wrap32 (precision * 10 + ch.toNat - charInt '0') }

/-- `fmt`, `ap` and what was put so far. -/
structure FmtState where
  fmt : Nat
  ap : List Arg
  out : List Int

/-- Where the loop can be: at the top, at `reswitch`, in the loop for a width behind the digits read
so far, and in the loop that goes back to the `%`. -/
inductive FmtLabel where
  | scan
  | reswitch (d : FmtSpec)
  | number (d : FmtSpec)
  | rewind

/-- The byte at index `i` of a format, which ends with a NUL. -/
def fmtByte (f : List (BitVec 8)) (i : Nat) : Except Stop (BitVec 8) :=
  match (f ++ [0])[i]? with
  | some ch => .ok ch
  | none => .error .fault

/-- The byte `fmt[-1]`. -/
def fmtByteBefore (f : List (BitVec 8)) : Nat → Except Stop (BitVec 8)
  | 0 => .error .fault
  | i + 1 => fmtByte f i

/-- `vprintfmt` from a label on. -/
def vprintfmtAt : Nat → List (BitVec 8) → FmtLabel → FmtState → Except Stop (List Int)
  | 0, _, _, _ => .error .hang
  | fuel + 1, f, .scan, s => do
      let ch ← fmtByte f s.fmt
      let s := { s with fmt := s.fmt + 1 }
      if ch = ascii '%' then vprintfmtAt fuel f (.reswitch .init) s
      else if ch = 0 then .ok s.out
      else vprintfmtAt fuel f .scan { s with out := s.out ++ [(ch.toNat : Int)] }
  | fuel + 1, f, .reswitch d, s => do
      let ch ← fmtByte f s.fmt
      let s := { s with fmt := s.fmt + 1 }
      match fmtCase ch with
      | .minus => vprintfmtAt fuel f (.reswitch { d with padc := '-' }) s
      | .zero => vprintfmtAt fuel f (.reswitch { d with padc := '0' }) s
      | .digit => vprintfmtAt fuel f (.number (d.addDigit 0 ch)) s
      | .star => do
          let (a, ap) ← vaArg .int s.ap
          vprintfmtAt fuel f (.reswitch { d with precision := a.signed }.processPrecision)
            { s with ap := ap }
      | .dot => vprintfmtAt fuel f (.reswitch (if d.width < 0 then { d with width := 0 } else d)) s
      | .sharp => vprintfmtAt fuel f (.reswitch { d with altflag := true }) s
      | .ell => vprintfmtAt fuel f (.reswitch { d with lflag := wrap32 (d.lflag + 1) }) s
      | .conv k => do
          let (out, ap) ← conversion d s.ap k
          vprintfmtAt fuel f .scan { s with ap := ap, out := s.out ++ out }
      | .error => do
          let (a, ap) ← vaArg .int s.ap
          let p ← errorString (errorCode a.signed)
          let call := errorCall (errorCode a.signed) p
          -- `printfmt`
          let out ← vprintfmtAt fuel call.1 .scan ⟨0, call.2, s.out⟩
          vprintfmtAt fuel f .scan { s with ap := ap, out := out }
      | .default =>
          vprintfmtAt fuel f .rewind { s with fmt := s.fmt - 1, out := s.out ++ [charInt '%'] }
  | fuel + 1, f, .number d, s => do
      let ch ← fmtByte f s.fmt
      if IsDigit ch then
        vprintfmtAt fuel f (.number (d.addDigit d.precision ch)) { s with fmt := s.fmt + 1 }
      else vprintfmtAt fuel f (.reswitch d.processPrecision) s
  | fuel + 1, f, .rewind, s => do
      let ch ← fmtByteBefore f s.fmt
      if ch ≠ ascii '%' then vprintfmtAt fuel f .rewind { s with fmt := s.fmt - 1 }
      else vprintfmtAt fuel f .scan s

/-- `vprintfmt`, with the format and the arguments. -/
def vprintfmt (fuel : Nat) (f : List (BitVec 8)) (ap : List Arg) : Except Stop (List Int) :=
  vprintfmtAt fuel f .scan ⟨0, ap, []⟩

example : vprintfmt 40 (bytesOf "%d%-3q 5%%") [.int 1234] =
    .ok ((bytesOf "1234%-3q 5%").map fun ch => (ch.toNat : Int)) := by decide +kernel

end Nctuos
