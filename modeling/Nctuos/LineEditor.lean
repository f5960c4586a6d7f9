import Nctuos.Readline

/-!
# The line editor

What `readline` and `shell` are for, without buffers and rings: a line that is edited, a completion
that may be shown in its place, the lines that were completed, and how far back the user has gone in
them.  A line is short enough for the buffer and has nothing but printable characters in it, and a
completion begins with the line; a value of `Editor` carries these facts.

`EditorSim` connects the code with it.
-/

namespace Nctuos

open Lib

/-! ## The editor -/

def Printable (c : BitVec 8) : Prop := 0x20 ≤ c.toNat ∧ c.toNat ≤ 0x7E

instance (c : BitVec 8) : Decidable (Printable c) :=
  inferInstanceAs (Decidable (0x20 ≤ c.toNat ∧ c.toNat ≤ 0x7E))

@[ext]
structure TextLine where
  text : List (BitVec 8)
  short : text.length ≤ 1023
  printable : ∀ c ∈ text, Printable c

namespace TextLine

def empty : TextLine := ⟨[], Nat.zero_le _, fun _ hc => absurd hc List.not_mem_nil⟩

/-- A character is added, if there is room for it. -/
def add (l : TextLine) (c : BitVec 8) (hc : Printable c) : TextLine :=
  if h : l.text.length < 1023 then
    ⟨l.text ++ [c], by rw [List.length_append]; exact h, fun d hd => by
      rcases List.mem_append.mp hd with hd | hd
      · exact l.printable d hd
      · rw [List.mem_singleton.mp hd]
        exact hc⟩
  else l

def chop (l : TextLine) : TextLine :=
  ⟨l.text.dropLast, by have := l.short; rw [List.length_dropLast]; omega,
    fun c hc => l.printable c (List.mem_of_mem_dropLast hc)⟩

theorem not_nul (l : TextLine) : 0 ∉ l.text := fun h => absurd (l.printable 0 h) (by decide)

theorem lt_strFuel (l : TextLine) : l.text.length < strFuel := by
  have := l.short
  rw [strFuel]
  omega

end TextLine

theorem commandNames_short :
    ∀ name ∈ commandNames, name.length ≤ 1023 ∧ ∀ c ∈ name, Printable c := by
  have hall : (commandNames.all fun name =>
      decide (name.length ≤ 1023) && name.all fun c => decide (Printable c)) = true := by decide
  simpa only [List.all_eq_true, Bool.and_eq_true, decide_eq_true_eq] using hall

/-- The name of a command, as a line. -/
def completion (k : Nat) : TextLine :=
  if h : k < commandNames.length then
    ⟨commandNames[k], (commandNames_short _ (List.getElem_mem h)).1,
      (commandNames_short _ (List.getElem_mem h)).2⟩
  else .empty

theorem completion_text {k : Nat} {name : List (BitVec 8)} (h : commandNames[k]? = some name) :
    (completion k).text = name := by
  obtain ⟨hlt, heq⟩ := List.getElem?_eq_some_iff.mp h
  rw [completion, dif_pos hlt]
  exact heq

structure Editor where
  line : TextLine
  /-- The command that is shown in place of the line. -/
  pending : Option Nat
  shows : ∀ k, pending = some k →
    ∃ name, commandNames[k]? = some name ∧ line.text <+: name
  /-- The completed lines, the oldest first. -/
  lines : List TextLine
  /-- How many lines the user has gone back. -/
  pos : Nat
  pos_le : pos ≤ min lines.length 9

inductive Key where
  | error
  | erase
  | char (c : BitVec 8) (h : Printable c)
  | enter
  | redraw
  | tab
  | up
  | down
  | other

/-- The `p`-th most recent line, and the empty line for 0. -/
def recent (lines : List TextLine) : Nat → TextLine
  | 0 => .empty
  | p + 1 => (lines.reverse[p]?).getD .empty

namespace Editor

/-- The line with the completion filled in. -/
def committed (e : Editor) : TextLine :=
  match e.pending with
  | some k => completion k
  | none => e.line

def withLine (e : Editor) (l : TextLine) : Editor :=
  { e with line := l, pending := none, shows := fun _ h => absurd h (Option.some_ne_none _).symm }

/-- The next command that begins with the line. -/
def next (e : Editor) : Option Nat :=
  let start := match e.pending with
    | some k => k + 1
    | none => 0
  ((commandNames.drop start).findIdx? (e.line.text <+: ·)).map (· + start)

theorem next_eq (e : Editor) :
    e.next = ((commandNames.drop (e.pending.elim 0 (· + 1))).findIdx? (e.line.text <+: ·)).map
      (· + e.pending.elim 0 (· + 1)) := by
  rw [next]
  cases e.pending with
  | none => rfl
  | some k => rfl

theorem next_shows {e : Editor} {k : Nat} (h : e.next = some k) :
    ∃ name, commandNames[k]? = some name ∧ e.line.text <+: name := by
  obtain ⟨j, hj, rfl⟩ := Option.map_eq_some_iff.mp h
  obtain ⟨hlt, hpre, -⟩ := List.findIdx?_eq_some_iff_getElem.mp hj
  refine ⟨_, ?_, of_decide_eq_true hpre⟩
  rw [List.getElem_drop, ← List.getElem?_eq_getElem, Nat.add_comm]

def step (e : Editor) : Key → Editor
  | .error => e.withLine .empty
  | .erase => e.withLine e.committed.chop
  | .char c h => e.withLine (e.committed.add c h)
  | .enter =>
      { line := .empty, pending := none, shows := fun _ h => absurd h (Option.some_ne_none _).symm
        lines := e.lines ++ [e.committed], pos := 0, pos_le := Nat.zero_le _ }
  | .redraw => e.withLine e.committed
  | .tab => { e with pending := e.next, shows := fun _ h => next_shows h }
  | .up =>
      { e.withLine (recent e.lines (min (e.pos + 1) (min e.lines.length 9))) with
        pos := min (e.pos + 1) (min e.lines.length 9), pos_le := Nat.min_le_right _ _ }
  | .down =>
      { e.withLine (recent e.lines (e.pos - 1)) with
        pos := e.pos - 1, pos_le := (Nat.sub_le _ _).trans e.pos_le }
  | .other => e.withLine e.committed

/-- What a key that does not end the call of `readline` prints. -/
def echo (prompt : List (BitVec 8)) (e : Editor) : Key → List Echo
  | .erase => echoBack (min 1 e.committed.text.length)
  | .char c _ => if e.committed.text.length < 1023 then echoText [c] else []
  | .redraw => .cls :: echoText prompt
  | .tab => echoBack (e.committed.text.length - e.line.text.length) ++
      echoText ((e.step .tab).committed.text.drop e.line.text.length)
  | .up => echoBack e.committed.text.length ++ echoText (e.step .up).line.text
  | .down => echoBack e.committed.text.length ++ echoText (e.step .down).line.text
  | _ => []

/-- What the current call of `readline` has printed, after a key. -/
def echoAfter (prompt : List (BitVec 8)) (e : Editor) (old : List Echo) : Key → List Echo
  | .error => echoText prompt
  | .enter => echoText prompt
  | k => old ++ e.echo prompt k

theorem committed_of_none {e : Editor} (h : e.pending = none) : e.committed = e.line := by
  rw [committed, h]

theorem committed_of_some {e : Editor} {k : Nat} (h : e.pending = some k) :
    e.committed = completion k := by
  rw [committed, h]

/-- Every key but the tab fills the completion in first. -/
theorem step_committed (e : Editor) {k : Key} (hk : k ≠ .tab) :
    (e.withLine e.committed).step k = e.step k := by
  cases k with
  | tab => exact absurd rfl hk
  | _ => rfl

theorem echo_committed (prompt : List (BitVec 8)) (e : Editor) {k : Key} (hk : k ≠ .tab) :
    (e.withLine e.committed).echo prompt k = e.echo prompt k := by
  cases k with
  | tab => exact absurd rfl hk
  | _ => rfl

theorem step_lines (e : Editor) {k : Key} (hk : k ≠ .enter) : (e.step k).lines = e.lines := by
  cases k with
  | enter => exact absurd rfl hk
  | _ => rfl

theorem echoAfter_of_ne (prompt : List (BitVec 8)) (e : Editor) (old : List Echo) {k : Key}
    (herror : k ≠ .error) (henter : k ≠ .enter) :
    e.echoAfter prompt old k = old ++ e.echo prompt k := by
  cases k with
  | error => exact absurd rfl herror
  | enter => exact absurd rfl henter
  | _ => rfl

end Editor

/-- The key that a value of `getchar` stands for. -/
def keyOf (c : Int) : Key :=
  if c < 0 then .error
  else if c = 8 ∨ c = 0x7f then .erase
  else if h : 0x20 ≤ c ∧ c ≤ 0x7E then .char (lowByte c) (by
    rw [Printable, lowByte, BitVec.toNat_ofInt]
    omega)
  else if c = 10 ∨ c = 13 then .enter
  else if c = 0xc then .redraw
  else if c = 9 then .tab
  else if c = 0xE2 then .up
  else if c = 0xE3 then .down
  else .other

section Keys

variable {c : Int}

theorem keyOf_error (hc : c < 0) : keyOf c = .error := if_pos hc

theorem keyOf_enter (hc : c = 10 ∨ c = 13) : keyOf c = .enter := by
  rw [keyOf, if_neg (by omega), if_neg (by omega), dif_neg (by omega), if_pos hc]

/-- The keys with which `readline` goes on, the tab apart. -/
theorem keyOf_settled (hc : 0 ≤ c ∧ c ≠ 10 ∧ c ≠ 13 ∧ c ≠ 9) :
    keyOf c ≠ .error ∧ keyOf c ≠ .enter ∧ keyOf c ≠ .tab := by
  rw [keyOf, if_neg (by omega), if_neg (by omega : ¬ (c = 10 ∨ c = 13)), if_neg hc.2.2.2]
  repeat' split
  all_goals exact ⟨Key.noConfusion, Key.noConfusion, Key.noConfusion⟩

end Keys

end Nctuos
