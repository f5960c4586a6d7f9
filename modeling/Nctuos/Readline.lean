import Nctuos.RunCmd
import Nctuos.PrintBuf

/-!
# Reading lines

`readline` of `lib/readline.c` and the loop of `shell` in `user/shell.c`, a key at a time.  The
variables of both files are in one record, because `readline` moves in the history that `shell`
writes.  `i` is an `int` that is used as an index and as a count, so it is an integer here, and a
load or a store with it outside of an array is a fault.

A completion that was found is shown but is not in the buffer.  It is filled in by the next key
that is not a tab (`fillFound`), whatever that key does afterwards.

What a call of `readline` prints is recorded in `echo`, with `cls` as an event of its own.  The
prompt of `shell` is a parameter; it has `OSDI> `.
-/

namespace Nctuos

open Lib

/-! ## The model -/

inductive Echo where
  | put (ch : BitVec 8)
  | cls
  deriving DecidableEq, Repr

def echoText (t : List (BitVec 8)) : List Echo := t.map .put

/-- `cprintf("\b")`, as often as it is said. -/
def echoBack (n : Nat) : List Echo := echoText (List.replicate n 8)

/-- The variables of `readline.c`, the history, and what is local to the call of `readline`. -/
structure ReadState where
  buf : CArray (BitVec 8) 1024
  tabIdx : Nat
  isTab : Bool
  isFound : Bool
  hist : CArray (CArray (BitVec 8) 1024) 10
  histHead : Nat
  histTail : Nat
  histCurr : Nat
  i : Int
  echo : List Echo

def ReadState.print (s : ReadState) (t : List Echo) : ReadState := { s with echo := s.echo ++ t }

/-- An `int` where a `size_t` is wanted, or where a loop counts it down to 0. -/
def asCount (i : Int) : Nat := (i % 2 ^ 32).toNat

/-- `commands[k].name`. -/
def commandName (k : Nat) : Except Stop CharPtr :=
  match commandNames[k]? with
  | some name => .ok (literal name)
  | none => .error .fault

/-- `// Fill the found command into current buffer`. -/
def fillFound (c : Int) (s : ReadState) : Except Stop ReadState :=
  if s.isTab ∧ s.isFound ∧ c ≠ charInt '\t' then do
    let name ← commandName s.tabIdx
    let buf ← strcpy s.buf name
    let len ← strlen (ptr buf 0)
    .ok { s with buf := buf, i := len, tabIdx := 0, isTab := false, isFound := false }
  else .ok s

/-- The first of the commands that begins with what is in the buffer. -/
def searchFrom (buf : CArray (BitVec 8) 1024) (i : Int) :
    List (List (BitVec 8)) → Nat → Except Stop (Option Nat)
  | [], _ => .ok none
  | name :: names, k => do
      let r ← strncmp (literal name) (ptr buf 0) (asCount i)
      if r = 0 then .ok (some k) else searchFrom buf i names (k + 1)

/-- The characters that are printed for `name+i`. -/
def nameFrom (name : CharPtr) (i : Int) : Except Stop (List (BitVec 8)) :=
  if i < 0 then .error .fault else strReadFrom name strFuel i.toNat

/-- `// Clear the output of previous match`: as often as a `\b` is printed. -/
def staleLength (s : ReadState) : Except Stop Nat :=
  if s.isFound then do
    let name ← commandName s.tabIdx
    let len ← strlen name
    .ok (len - s.i).toNat
  else .ok 0

/-- The tab. -/
def complete (s : ReadState) : Except Stop ReadState := do
  let start := if s.isFound then s.tabIdx + 1 else 0
  let back ← staleLength s
  let s := s.print (echoBack back)
  let found ← searchFrom s.buf s.i (commandNames.drop start) start
  match found with
  | some k => do
      let name ← commandName k
      let rest ← nameFrom name s.i
      .ok { s.print (echoText rest) with isTab := true, isFound := true, tabIdx := k }
  | none => .ok { s with isFound := false }

/-- `for (i = 0 ; hist[hist_curr][i] ; i ++)`, with the number of characters and what is printed. -/
def recallFrom (row : CArray (BitVec 8) 1024) : Nat → CArray (BitVec 8) 1024 → Nat →
    Except Stop (CArray (BitVec 8) 1024 × Nat × List Echo)
  | 0, _, _ => .error .hang
  | fuel + 1, buf, j => do
      let ch ← loadAt row j
      if ch ≠ 0 then do
        let buf ← storeAt buf j ch
        let (buf, len, out) ← recallFrom row fuel buf (j + 1)
        .ok (buf, len, .put ch :: out)
      else .ok (buf, j, [])

/-- The rest of the cases `KEY_UP` and `KEY_DN`, with the row that was chosen. -/
def recallRow (s : ReadState) : Except Stop ReadState := do
  let s := s.print (echoBack (asCount s.i))
  let row ← loadAt s.hist s.histCurr
  let (buf, len, out) ← recallFrom row 1025 s.buf 0
  .ok { s.print out with buf := buf, i := len }

def histUp (s : ReadState) : Except Stop ReadState :=
  recallRow { s with histCurr :=
    if s.histCurr ≠ s.histHead then if s.histCurr = 0 then 10 - 1 else s.histCurr - 1
    else s.histCurr }

def histDn (s : ReadState) : Except Stop ReadState :=
  recallRow { s with histCurr :=
    if s.histCurr ≠ s.histTail then if s.histCurr = 10 - 1 then 0 else s.histCurr + 1
    else s.histCurr }

/-- Whether `readline` waits for the next key, or what it returns. -/
inductive ReadTurn where
  | waits
  | null
  | line
  deriving DecidableEq, Repr

/-- The text of the prompt; a null pointer is printed as `%s` prints it. -/
def promptText (prompt : Option (List (BitVec 8))) : List (BitVec 8) :=
  prompt.getD (bytesOf "(null)")

/-- The chain of tests of the key. -/
def handleKey (prompt : Option (List (BitVec 8))) (c : Int) (s : ReadState) :
    Except Stop (ReadTurn × ReadState) :=
  if c < 0 then do
    let err ← errorOut c
    .ok (.null, s.print (echoText (bytesOf "read error: " ++ err.map lowByte ++ bytesOf "\n")))
  else if (c = 8 ∨ c = 0x7f) ∧ 0 < s.i then .ok (.waits, { s.print (echoBack 1) with i := s.i - 1 })
  else if charInt ' ' ≤ c ∧ c ≤ 0x7E ∧ s.i < 1024 - 1 then do
    let buf ← storeAt s.buf s.i (lowByte c)
    .ok (.waits, { s.print (echoText [lowByte c]) with buf := buf, i := s.i + 1 })
  else if c = charInt '\n' ∨ c = charInt '\r' then do
    let buf ← storeAt s.buf s.i 0
    .ok (.line, { s.print (echoText (bytesOf "\n")) with buf := buf })
  else if c = 0xc then .ok (.waits, s.print (.cls :: echoText (promptText prompt)))
  else if c = charInt '\t' then do
    let s ← complete s
    .ok (.waits, s)
  else if 0x80 ≤ c then
    if c = 0xE2 then do
      let s ← histUp s
      .ok (.waits, s)
    else if c = 0xE3 then do
      let s ← histDn s
      .ok (.waits, s)
    else .ok (.waits, s)
  else .ok (.waits, s)

/-- One turn of the loop of `readline`, with the key that `getchar` returned. -/
def readlineKey (prompt : Option (List (BitVec 8))) (c : BitVec 32) (s : ReadState) :
    Except Stop (ReadTurn × ReadState) := do
  let s ← fillFound c.toInt s
  handleKey prompt c.toInt s

/-- The beginning of `readline`. -/
def startReadline (prompt : Option (List (BitVec 8))) (s : ReadState) : ReadState :=
  { s with i := 0, echo := echoText (prompt.getD []) }

/-! ### The shell -/

/-- A line goes into the history. -/
def saveLine (s : ReadState) : Except Stop ReadState := do
  let row ← loadAt s.hist s.histTail
  let row ← strcpy row (ptr s.buf 0)
  let hist ← storeAt s.hist s.histTail row
  let tail := (s.histTail + 1) % 10
  if s.histHead = tail then do
    let row ← loadAt hist tail
    let row ← storeAt row (0 : Nat) 0
    let hist ← storeAt hist tail row
    .ok { s with hist := hist, histTail := tail, histHead := (s.histHead + 1) % 10, histCurr := tail }
  else .ok { s with hist := hist, histTail := tail, histCurr := tail }

/-- The shell while it waits for a key, or has ended, with the buffers that `readline` has returned
so far. -/
structure Shell where
  rl : ReadState
  running : Bool
  returned : List (CArray (BitVec 8) 1024)

/-- A key, and what `runcmd` finds in its `argv` if the key ends a line. -/
structure Stroke where
  key : BitVec 32
  argv : ArgVec

/-- The shell goes on to the next key. -/
def shellKey (prompt : List (BitVec 8)) (sh : Shell) (t : Stroke) : Except Stop Shell :=
  if sh.running then do
    let (turn, s) ← readlineKey (some prompt) t.key sh.rl
    match turn with
    | .waits => .ok { sh with rl := s }
    | .null => .ok { sh with rl := startReadline (some prompt) s }
    | .line => do
        let saved ← saveLine s
        let r ← runcmd saved.buf t.argv
        let after := { saved with buf := r.vars.buf }
        let returned := sh.returned ++ [s.buf]
        if r.ret < 0 then .ok ⟨after, false, returned⟩
        else .ok ⟨startReadline (some prompt) after, true, returned⟩
  else .ok sh

def shellKeys (prompt : List (BitVec 8)) (sh : Shell) (ts : List Stroke) : Except Stop Shell :=
  ts.foldlM (shellKey prompt) sh

/-- The shell when it waits for its first key: everything that is static is zero. -/
def shellStart (prompt : List (BitVec 8)) : Shell where
  rl := startReadline (some prompt) {
    buf := CArray.fill 1024 0, tabIdx := 0, isTab := false, isFound := false
    hist := CArray.fill 10 (CArray.fill 1024 0), histHead := 0, histTail := 0, histCurr := 0
    i := 0, echo := [] }
  running := true
  returned := []

/-! ## What the loops do -/

section Loops

variable {s : ReadState} {t : List (BitVec 8)} {buf row : CArray (BitVec 8) 1024}

theorem asCount_natCast {n : Nat} (h : n < 2 ^ 32) : asCount n = n := by
  rw [asCount]
  omega

theorem commandName_ok {k : Nat} {name : List (BitVec 8)} (h : commandNames[k]? = some name) :
    commandName k = .ok (literal name) := by
  rw [commandName, h]

/-- The search in the rest of the commands. -/
theorem searchFrom_ok (hat : buf.At 0 t) (ht : 0 ∉ t) (hlen : t.length < 2 ^ 32)
    {names : List (List (BitVec 8))} (hnames : ∀ name ∈ names, 0 ∉ name) (k : Nat) :
    searchFrom buf t.length names k = .ok ((names.findIdx? (t <+: ·)).map (· + k)) := by
  induction names generalizing k with
  | nil => rfl
  | cons name names ih =>
      have hname : ReadsAs (literal name) 0 name :=
        readsAs_literal [] (hnames name List.mem_cons_self)
      have hbuf : ∀ i (hi : i < t.length), ptr buf 0 (0 + i) = .ok t[i] := fun i hi =>
        loadAt_of_get? (by rw [Nat.zero_add]; exact CArray.at_iff.mp hat i hi)
      obtain ⟨r, hr, hiff⟩ := strncmpFrom_ok hname hbuf ht
      rw [searchFrom, asCount_natCast hlen, strncmp, hr, ok_bind, List.findIdx?_cons]
      by_cases hpre : t <+: name
      · rw [if_pos (hiff.mpr hpre), if_pos (decide_eq_true hpre), Option.map_some, Nat.zero_add]
      · rw [if_neg fun h0 => hpre (hiff.mp h0), if_neg (by simpa using hpre),
          ih (fun name hname => hnames name (List.mem_cons_of_mem _ hname)), Option.map_map]
        congr 2
        funext j
        change j + (k + 1) = j + 1 + k
        omega

/-- The row is copied without its NUL. -/
theorem recallFrom_ok {fuel j : Nat} (hrow : row.At j (t ++ [0])) (ht : 0 ∉ t)
    (hfuel : t.length < fuel) :
    ∃ buf', recallFrom row fuel buf j = .ok (buf', j + t.length, echoText t) ∧ buf'.At j t ∧
      ∀ i, i < j → buf'.get? i = buf.get? i := by
  induction t generalizing fuel buf j with
  | nil =>
      obtain ⟨fuel, rfl⟩ := Nat.exists_eq_succ_of_ne_zero (Nat.ne_of_gt hfuel)
      refine ⟨buf, ?_, trivial, fun i _ => rfl⟩
      rw [recallFrom, loadAt_of_get? hrow.1]
      rfl
  | cons c t ih =>
      obtain ⟨fuel, rfl⟩ := Nat.exists_eq_succ_of_ne_zero (Nat.ne_zero_of_lt hfuel)
      rw [List.mem_cons, not_or] at ht
      obtain ⟨buf₁, hstore, hget⟩ := storeAt_ok buf c (CArray.lt_of_get? hrow.1)
      obtain ⟨buf', hrecall, hat, hbelow⟩ :=
        @ih buf₁ fuel (j + 1) hrow.2 ht.2 (Nat.lt_of_succ_lt_succ hfuel)
      refine ⟨buf', ?_, ⟨?_, hat⟩, fun i hi => ?_⟩
      · rw [recallFrom, loadAt_of_get? hrow.1, ok_bind, if_pos (Ne.symm ht.1), hstore, ok_bind,
          hrecall, ok_bind, List.length_cons, Nat.add_assoc, Nat.add_comm 1]
        rfl
      · rw [hbelow j (Nat.lt_succ_self j), hget, if_pos rfl]
      · rw [hbelow i (by omega), hget, if_neg (by omega)]

end Loops

end Nctuos
