import Nctuos.EditorSim

/-!
# Sessions of the shell

Whole runs of the shell, over any sequence of keys.  The simulation of `EditorSim` makes every run a
run of the editor, and then:

* nothing is stored outside of the line buffer and of the rows of the history
  (`shellKeys_in_bounds`);
* the arrow keys walk in the nine most recent lines (`shell_history`);
* what is on the screen is the line, as long as Ctrl-L is pressed on an empty line only
  (`shown_iff`).  `readline` clears the screen and prints the prompt again, but not the line.
-/

namespace Nctuos

open Lib

variable {prompt : List (BitVec 8)}

/-! ## Runs -/

namespace Editor

theorem start_shows : ∀ k : Nat, none = some k →
    ∃ name, commandNames[k]? = some name ∧ TextLine.empty.text <+: name :=
  fun _ h => absurd h (Option.some_ne_none _).symm

theorem start_pos_le : 0 ≤ min ([] : List TextLine).length 9 := Nat.zero_le _

def start : Editor where
  line := .empty
  pending := none
  shows := start_shows
  lines := []
  pos := 0
  pos_le := start_pos_le

def run (e : Editor) (ts : List Stroke) : Editor := ts.foldl (fun e t => e.step (keyOf t.key.toInt)) e

def keys (e : Editor) (ks : List (BitVec 32)) : Editor := ks.foldl (fun e k => e.step (keyOf k.toInt)) e

theorem keys_append (e : Editor) (ks ks' : List (BitVec 32)) :
    e.keys (ks ++ ks') = (e.keys ks).keys ks' := List.foldl_append

theorem run_eq_keys (e : Editor) (ts : List Stroke) : e.run ts = e.keys (ts.map Stroke.key) := by
  rw [run, keys, List.foldl_map]

end Editor

theorem shellStart_repr : ShellRepr (shellStart prompt) .start := by
  have hrow : ∀ r, r < 10 → Holds (CArray.fill 10 (CArray.fill 1024 0)) r [] := fun r hr =>
    ⟨_, CArray.get?_of_lt hr, CArray.get?_of_lt (by omega), trivial⟩
  refine ⟨readRepr_start rfl rfl rfl ⟨rfl, rfl, rfl, ?_, hrow 0 (by omega), fun r hr _ => hrow r hr,
    fun r hr => ⟨[], hrow r hr⟩⟩, rfl, .nil⟩
  exact fun j hj => absurd hj (Nat.not_lt_zero j)

/-- The run of the shell is the run of the editor. -/
theorem shellKeys_refines {sh : Shell} {e : Editor} (h : ShellRepr sh e) (ts : List Stroke) :
    ∃ sh', shellKeys prompt sh ts = .ok sh' ∧ ShellRepr sh' (e.run ts) := by
  induction ts generalizing sh e with
  | nil => exact ⟨sh, rfl, h⟩
  | cons t ts ih =>
      obtain ⟨sh₁, hsh₁, hrepr, -⟩ := @shellKey_refines sh e prompt h t
      obtain ⟨sh', hsh', hrepr'⟩ := ih hrepr
      refine ⟨sh', ?_, hrepr'⟩
      rw [shellKeys, List.foldlM_cons, hsh₁, ok_bind]
      exact hsh'

theorem shellKeys_append {sh sh' : Shell} {ts : List Stroke} (h : shellKeys prompt sh ts = .ok sh')
    (us : List Stroke) : shellKeys prompt sh (ts ++ us) = shellKeys prompt sh' us := by
  rw [shellKeys] at h
  rw [shellKeys, List.foldlM_append, h, ok_bind, shellKeys]

/-! ## Nothing is overrun -/

theorem HistRing.exists_nul {hist : CArray (CArray (BitVec 8) 1024) 10} {head tail curr pos : Nat}
    {lines : List TextLine} (h : HistRing hist head tail curr lines pos) (r : Fin 10) :
    ∃ k : Fin 1024, (hist.cell r).cell k = 0 := by
  obtain ⟨t, row, hrow, hat⟩ := h.terminated r r.isLt
  rw [CArray.get?_of_lt r.isLt] at hrow
  rw [Option.some.inj hrow]
  exact hat.exists_cell

/-- Whatever is typed, the shell comes to the next key, with `i` inside of the buffer, every row of
the history terminated, and every line that `readline` has returned terminated. -/
theorem shellKeys_in_bounds (prompt : List (BitVec 8)) (ts : List Stroke) :
    ∃ sh, shellKeys prompt (shellStart prompt) ts = .ok sh ∧
      0 ≤ sh.rl.i ∧ sh.rl.i ≤ 1024 - 1 ∧
      (∀ r : Fin 10, ∃ k : Fin 1024, (sh.rl.hist.cell r).cell k = 0) ∧
      ∀ line ∈ sh.returned, (∃ k : Fin 1024, line.cell k = 0) ∧ (line.upTo 0).length ≤ 1024 - 1 := by
  obtain ⟨sh, hsh, hrepr⟩ := @shellKeys_refines prompt _ _ shellStart_repr ts
  have hi := hrepr.rl.line.i_eq
  have hshort := (Editor.start.run ts).line.short
  refine ⟨sh, hsh, by omega, by omega, hrepr.rl.ring.exists_nul, fun line hline => ?_⟩
  obtain ⟨j, hj, rfl⟩ := List.getElem_of_mem hline
  have hat : sh.returned[j].At 0 _ := hrepr.returned.get hj (hrepr.returned.length_eq ▸ hj)
  refine ⟨hat.exists_cell, ?_⟩
  rw [CArray.upTo_eq hat (TextLine.not_nul _)]
  exact TextLine.short _

/-! ## The history -/

/-- What is in the edit buffer. -/
def ReadState.text (s : ReadState) : List (BitVec 8) := (List.ofFn s.buf.cell).take s.i.toNat

theorem LineRepr.text_eq {s : ReadState} {e : Editor} (h : LineRepr s e) :
    s.text = e.line.text := by
  rw [ReadState.text, h.i_eq, Int.toNat_natCast, h.at_line.take_ofFn]

theorem ShellRepr.returned_text {sh : Shell} {e : Editor} (h : ShellRepr sh e) :
    sh.returned.map (CArray.upTo 0) = e.lines.map TextLine.text := by
  have hmap : List.Forall₂ (· = ·) (sh.returned.map (CArray.upTo 0)) (e.lines.map TextLine.text) :=
    List.forall₂_map_left_iff.mpr (List.forall₂_map_right_iff.mpr
      (h.returned.imp fun _ l hat => CArray.upTo_eq hat l.not_nul))
  exact List.forall₂_eq_eq_eq ▸ hmap

inductive Press where
  | up
  | down
  deriving DecidableEq, Repr

/-- `KEY_UP` and `KEY_DN`. -/
def Press.key : Press → BitVec 32
  | .up => 0xE2
  | .down => 0xE3

/-- How far back the presses lead, of `m` lines at most. -/
def position (m : Nat) (ps : List Press) : Nat :=
  ps.foldl (fun p press => match press with
    | .up => min (p + 1) m
    | .down => p - 1) 0

/-- The `p`-th most recent of the lines, and the empty line for 0. -/
def recentText (lines : List (List (BitVec 8))) : Nat → List (BitVec 8)
  | 0 => []
  | p + 1 => (lines.reverse[p]?).getD []

theorem recentText_map (lines : List TextLine) (p : Nat) :
    recentText (lines.map TextLine.text) p = (recent lines p).text := by
  cases p with
  | zero => rfl
  | succ p =>
      rw [recentText, recent, ← List.map_reverse, List.getElem?_map]
      cases lines.reverse[p]? with
      | none => rfl
      | some l => rfl

/-- The user has typed nothing since a line was completed but the arrows. -/
structure Walking (e : Editor) (lines : List TextLine) (pos : Nat) : Prop where
  lines_eq : e.lines = lines
  pos_eq : e.pos = pos
  line_eq : e.line = recent lines pos

theorem Walking.press {e : Editor} {lines : List TextLine} {pos : Nat} (h : Walking e lines pos)
    (press : Press) : Walking (e.step (keyOf press.key.toInt)) lines
      (match press with
      | .up => min (pos + 1) (min lines.length 9)
      | .down => pos - 1) := by
  obtain ⟨rfl, rfl, -⟩ := h
  cases press with
  | up => exact ⟨rfl, rfl, rfl⟩
  | down => exact ⟨rfl, rfl, rfl⟩

theorem Walking.run {e : Editor} {lines : List TextLine} {pos : Nat} (h : Walking e lines pos)
    (ps : List (Press × ArgVec)) :
    Walking (e.run (ps.map fun p => ⟨p.1.key, p.2⟩)) lines
      ((ps.map Prod.fst).foldl (fun p press => match press with
        | .up => min (p + 1) (min lines.length 9)
        | .down => p - 1) pos) := by
  induction ps generalizing e pos with
  | nil => exact h
  | cons p ps ih => exact ih (h.press p.1)

/-- Between two lines. -/
theorem walking_of_enter (e : Editor) : Walking (e.step .enter) (e.step .enter).lines 0 :=
  ⟨rfl, rfl, rfl⟩

/-- After the last line was completed. -/
theorem walking_start {ts : List Stroke}
    (hts : ts = [] ∨ ∃ t, ts.getLast? = some t ∧ (t.key = 10 ∨ t.key = 13)) :
    Walking (Editor.start.run ts) (Editor.start.run ts).lines 0 := by
  rcases hts with rfl | ⟨t, hlast, hkey⟩
  · exact ⟨rfl, rfl, rfl⟩
  · obtain ⟨us, rfl⟩ := List.getLast?_eq_some_iff.mp hlast
    have henter : keyOf t.key.toInt = .enter := keyOf_enter (by
      rcases hkey with hkey | hkey
      · exact Or.inl (by rw [hkey]; decide)
      · exact Or.inr (by rw [hkey]; decide))
    rw [Editor.run, List.foldl_append]
    dsimp only [List.foldl_cons, List.foldl_nil]
    rw [henter]
    exact walking_of_enter _

/-- The lines that were entered: what the editor has in its line at each newline. -/
def entered (ts : List Stroke) : List (List (BitVec 8)) :=
  (Editor.start.run ts).lines.map TextLine.text

/-- The keys of some lines, each typed from its first character to its last, and a newline. -/
def typed (ls : List TextLine) : List (BitVec 32) :=
  ls.flatMap fun l => l.text.map (BitVec.setWidth 32) ++ [10]

/-- The user is typing a line, and has come to `text`. -/
structure Typing (e : Editor) (lines : List TextLine) (text : List (BitVec 8)) : Prop where
  lines_eq : e.lines = lines
  pending : e.pending = none
  text_eq : e.line.text = text

theorem keyOf_printable {c : BitVec 8} (hc : Printable c) :
    keyOf (c.setWidth 32).toInt = .char c hc := by
  have hlow : 0x20 ≤ c.toNat ∧ c.toNat ≤ 0x7E := hc
  have hint : (c.setWidth 32).toInt = c.toNat := by
    rw [BitVec.toInt_eq_toNat_of_lt (by rw [BitVec.toNat_setWidth]; omega), BitVec.toNat_setWidth]
    omega
  have hbyte : lowByte (c.toNat : Int) = c := by
    rw [lowByte, BitVec.ofInt_natCast, BitVec.ofNat_toNat, BitVec.setWidth_eq]
  rw [hint, keyOf, if_neg (by omega), if_neg (by omega), dif_pos (by omega)]
  simp only [hbyte]

theorem Typing.char {e : Editor} {lines : List TextLine} {text : List (BitVec 8)} {c : BitVec 8}
    (h : Typing e lines text) (hc : Printable c) (hlen : text.length < 1023) :
    Typing (e.step (keyOf (c.setWidth 32).toInt)) lines (text ++ [c]) := by
  rw [keyOf_printable hc]
  refine ⟨h.lines_eq, rfl, ?_⟩
  change (e.committed.add c hc).text = text ++ [c]
  rw [Editor.committed_of_none h.pending, TextLine.add, dif_pos (by rw [h.text_eq]; exact hlen)]
  exact congrArg (· ++ [c]) h.text_eq

theorem Typing.chars {e : Editor} {lines : List TextLine} {text : List (BitVec 8)}
    (cs : List (BitVec 8)) (h : Typing e lines text) (hcs : ∀ c ∈ cs, Printable c)
    (hlen : text.length + cs.length ≤ 1023) :
    Typing (e.keys (cs.map (BitVec.setWidth 32))) lines (text ++ cs) := by
  induction cs generalizing e text with
  | nil =>
      rw [List.append_nil]
      exact h
  | cons c cs ih =>
      rw [List.forall_mem_cons] at hcs
      rw [List.length_cons] at hlen
      have hnext := ih (h.char hcs.1 (by omega)) hcs.2 (by rw [List.length_append]; simp; omega)
      rwa [List.append_assoc, List.singleton_append] at hnext

/-- A line is typed, and entered. -/
theorem Typing.line {e : Editor} {lines : List TextLine} (h : Typing e lines []) (l : TextLine) :
    Typing (e.keys (l.text.map (BitVec.setWidth 32) ++ [10])) (lines ++ [l]) [] := by
  have hall := h.chars l.text l.printable (by simpa using l.short)
  rw [Editor.keys_append]
  generalize e.keys (l.text.map (BitVec.setWidth 32)) = e' at hall
  change Typing (e'.step (keyOf (10 : BitVec 32).toInt)) (lines ++ [l]) []
  have hkey : keyOf (10 : BitVec 32).toInt = .enter := keyOf_enter (Or.inl (by decide))
  rw [hkey]
  refine ⟨?_, rfl, rfl⟩
  change e'.lines ++ [e'.committed] = lines ++ [l]
  have hline : e'.line = l := TextLine.ext hall.text_eq
  rw [hall.lines_eq, Editor.committed_of_none hall.pending, hline]

theorem Typing.lines {e : Editor} {lines : List TextLine} (ls : List TextLine)
    (h : Typing e lines []) : Typing (e.keys (typed ls)) (lines ++ ls) [] := by
  induction ls generalizing e lines with
  | nil => rwa [List.append_nil]
  | cons l ls ih =>
      have hnext := ih (h.line l)
      rwa [List.append_assoc, List.singleton_append, ← Editor.keys_append] at hnext

/-- Lines that are just typed are the lines that were entered. -/
theorem entered_typed {ts : List Stroke} {ls : List TextLine} (hts : ts.map Stroke.key = typed ls) :
    entered ts = ls.map TextLine.text := by
  have htyped : Typing (Editor.start.keys (typed ls)) ls [] := Typing.lines ls ⟨rfl, rfl, rfl⟩
  rw [entered, Editor.run_eq_keys, hts, htyped.lines_eq]

theorem keyOf_eq_enter_iff {c : Int} : keyOf c = .enter ↔ c = 10 ∨ c = 13 := by
  refine ⟨fun h => ?_, keyOf_enter⟩
  unfold keyOf at h
  split_ifs at h
  assumption

/-- One for each newline. -/
theorem length_entered (ts : List Stroke) :
    (entered ts).length = ts.countP fun t => t.key = 10 ∨ t.key = 13 := by
  have hrun : ∀ e : Editor, (e.run ts).lines.length =
      e.lines.length + ts.countP fun t => t.key = 10 ∨ t.key = 13 := by
    induction ts with
    | nil => exact fun e => rfl
    | cons t ts ih =>
        intro e
        have hkey : keyOf t.key.toInt = .enter ↔ t.key = 10 ∨ t.key = 13 := by
          rw [keyOf_eq_enter_iff, ← BitVec.toInt_inj, ← BitVec.toInt_inj]
          rfl
        have hstep := ih (e.step (keyOf t.key.toInt))
        rw [List.countP_cons]
        by_cases henter : keyOf t.key.toInt = .enter
        · rw [henter] at hstep
          rw [if_pos (decide_eq_true (hkey.mp henter)), Editor.run, List.foldl_cons, henter]
          refine hstep.trans ?_
          change (e.lines ++ [e.committed]).length + _ = _
          rw [List.length_append, List.length_singleton]
          omega
        · rw [Editor.step_lines e henter] at hstep
          rw [if_neg (by simpa using fun hk => henter (hkey.mpr hk))]
          exact hstep
  rw [entered, List.length_map, hrun .start]
  exact Nat.zero_add _

/-- After any number of lines, the arrow keys walk in the nine most recent ones. -/
theorem shell_history (prompt : List (BitVec 8)) (ts : List Stroke)
    (hts : ts = [] ∨ ∃ t, ts.getLast? = some t ∧ (t.key = 10 ∨ t.key = 13))
    (ps : List (Press × ArgVec)) :
    ∃ sh sh', shellKeys prompt (shellStart prompt) ts = .ok sh ∧
      shellKeys prompt sh (ps.map fun p => ⟨p.1.key, p.2⟩) = .ok sh' ∧
      sh.returned.map (CArray.upTo 0) = entered ts ∧
      (entered ts).length = ts.countP (fun t => t.key = 10 ∨ t.key = 13) ∧
      (∀ ls, ts.map Stroke.key = typed ls → entered ts = ls.map TextLine.text) ∧
      sh'.rl.text = recentText (entered ts)
        (position (min (entered ts).length (10 - 1)) (ps.map Prod.fst)) := by
  obtain ⟨sh, hsh, hrepr⟩ := @shellKeys_refines prompt _ _ shellStart_repr ts
  obtain ⟨sh', hsh', hrepr'⟩ :=
    @shellKeys_refines prompt _ _ hrepr (ps.map fun p => ⟨p.1.key, p.2⟩)
  refine ⟨sh, sh', hsh, hsh', hrepr.returned_text, length_entered ts, fun ls => entered_typed, ?_⟩
  rw [hrepr'.rl.line.text_eq, ((walking_start hts).run ps).line_eq, entered, recentText_map,
    List.length_map]
  rfl

/-- Two lines, and three presses. -/
theorem shell_history_up :
    ∃ sh sh', shellKeys (bytesOf "OSDI> ") (shellStart (bytesOf "OSDI> "))
        [⟨0x61, CArray.fill 16 none⟩, ⟨10, CArray.fill 16 none⟩, ⟨0x62, CArray.fill 16 none⟩,
          ⟨10, CArray.fill 16 none⟩] = .ok sh ∧
      shellKeys (bytesOf "OSDI> ") sh [⟨0xE2, CArray.fill 16 none⟩, ⟨0xE2, CArray.fill 16 none⟩,
        ⟨0xE2, CArray.fill 16 none⟩] = .ok sh' ∧
      sh.returned.map (CArray.upTo 0) = [[0x61], [0x62]] ∧ sh'.rl.text = [0x61] := by
  have hentered : entered [⟨0x61, CArray.fill 16 none⟩, ⟨10, CArray.fill 16 none⟩,
      ⟨0x62, CArray.fill 16 none⟩, ⟨10, CArray.fill 16 none⟩] = [[0x61], [0x62]] := by decide
  obtain ⟨sh, sh', hsh, hsh', hreturned, -, -, htext⟩ :=
    shell_history (bytesOf "OSDI> ") [⟨0x61, CArray.fill 16 none⟩, ⟨10, CArray.fill 16 none⟩,
      ⟨0x62, CArray.fill 16 none⟩, ⟨10, CArray.fill 16 none⟩]
      (Or.inr ⟨⟨10, CArray.fill 16 none⟩, rfl, Or.inl rfl⟩)
      [(.up, CArray.fill 16 none), (.up, CArray.fill 16 none), (.up, CArray.fill 16 none)]
  rw [hentered] at hreturned htext
  exact ⟨sh, sh', hsh, hsh', hreturned, htext⟩

/-! ## The screen -/

/-- A line of text: a `\b` takes the last character away, and `cls` everything. -/
def lineFrom (line : List (BitVec 8)) (es : List Echo) : List (BitVec 8) :=
  es.foldl (fun line e => match e with
    | .put ch => if ch = 8 then line.dropLast else line ++ [ch]
    | .cls => []) line

def lineOf (es : List Echo) : List (BitVec 8) := lineFrom [] es

theorem lineOf_append (es es' : List Echo) : lineOf (es ++ es') = lineFrom (lineOf es) es' :=
  List.foldl_append

theorem lineFrom_append (line : List (BitVec 8)) (es es' : List Echo) :
    lineFrom line (es ++ es') = lineFrom (lineFrom line es) es' :=
  List.foldl_append

theorem lineFrom_echoText {t : List (BitVec 8)} (ht : 8 ∉ t) (line : List (BitVec 8)) :
    lineFrom line (echoText t) = line ++ t := by
  induction t generalizing line with
  | nil => exact (List.append_nil line).symm
  | cons c t ih =>
      rw [List.mem_cons, not_or] at ht
      change lineFrom (if c = 8 then line.dropLast else line ++ [c]) (echoText t) = _
      rw [if_neg (Ne.symm ht.1), ih ht.2, List.append_assoc, List.singleton_append]

/-- As many characters are taken away as there are. -/
theorem lineFrom_echoBack (line t : List (BitVec 8)) :
    lineFrom (line ++ t) (echoBack t.length) = line := by
  induction t using List.reverseRecOn with
  | nil => exact List.append_nil line
  | append_singleton t c ih =>
      rw [List.length_append, List.length_singleton, ← List.append_assoc]
      change lineFrom ((line ++ t) ++ [c]).dropLast (echoBack t.length) = line
      rw [List.dropLast_concat, ih]

theorem TextLine.no_backspace (l : TextLine) : 8 ∉ l.text :=
  fun h => absurd (l.printable 8 h) (by decide)

namespace Editor

theorem line_prefix_committed (e : Editor) : e.line.text <+: e.committed.text := by
  cases hp : e.pending with
  | none =>
      rw [e.committed_of_none hp]
  | some k =>
      obtain ⟨name, hname, hpre⟩ := e.shows k hp
      rw [e.committed_of_some hp, completion_text hname]
      exact hpre

/-- What the keys but Ctrl-L print makes the one text of the other. -/
theorem lineFrom_echo (e : Editor) {k : Key} (hk : k ≠ .redraw) (herror : k ≠ .error)
    (henter : k ≠ .enter) (line : List (BitVec 8)) :
    lineFrom (line ++ e.committed.text) (e.echo prompt k) = line ++ (e.step k).committed.text := by
  cases k with
  | error => exact absurd rfl herror
  | enter => exact absurd rfl henter
  | redraw => exact absurd rfl hk
  | other => rfl
  | erase =>
      change lineFrom _ (echoBack (min 1 e.committed.text.length)) = line ++ e.committed.text.dropLast
      rcases List.eq_nil_or_concat' e.committed.text with hnil | ⟨t, c, hconcat⟩
      · rw [hnil]
        rfl
      · have hlen : min 1 (t ++ [c]).length = [c].length := by
          rw [List.length_append, List.length_singleton]
          omega
        rw [hconcat, hlen, ← List.append_assoc, lineFrom_echoBack, List.dropLast_concat]
  | char c hc =>
      have hne : (8 : BitVec 8) ∉ [c] := fun h8 =>
        absurd (List.mem_singleton.mp h8 ▸ hc : Printable 8) (by decide)
      change lineFrom _ (if e.committed.text.length < 1023 then echoText [c] else []) =
        line ++ (e.committed.add c hc).text
      rw [TextLine.add]
      split
      · rw [lineFrom_echoText hne, List.append_assoc]
      · rfl
  | tab =>
      obtain ⟨rest, hrest⟩ := e.line_prefix_committed
      obtain ⟨rest', hrest'⟩ := (e.step .tab).line_prefix_committed
      change e.line.text ++ rest' = _ at hrest'
      have hstale : e.committed.text.length - e.line.text.length = rest.length := by
        rw [← hrest, List.length_append]
        omega
      have hnot : 8 ∉ rest' := fun h8 =>
        (e.step .tab).committed.no_backspace (hrest' ▸ List.mem_append_right _ h8)
      rw [echo, lineFrom_append, hstale, ← hrest, ← List.append_assoc, lineFrom_echoBack, ← hrest',
        List.drop_left, lineFrom_echoText hnot, List.append_assoc]
  | up | down =>
      rw [echo, lineFrom_append, lineFrom_echoBack, lineFrom_echoText (TextLine.no_backspace _)]
      rfl

/-- A key keeps the screen right, unless it is Ctrl-L on a line that is not empty. -/
theorem shown_step_iff (e : Editor) (k : Key) {old : List Echo}
    (h : lineOf old = lineOf (echoText prompt) ++ e.committed.text) :
    lineOf (e.echoAfter prompt old k) = lineOf (echoText prompt) ++ (e.step k).committed.text ↔
      (k = .redraw → e.committed.text = []) := by
  by_cases hrestart : k = .error ∨ k = .enter
  · -- a new call of `readline`
    refine iff_of_true ?_ fun hk => ?_
    · rcases hrestart with rfl | rfl
      · exact (List.append_nil _).symm
      · exact (List.append_nil _).symm
    · rw [hk] at hrestart
      rcases hrestart with h | h <;> cases h
  rw [not_or] at hrestart
  rw [echoAfter_of_ne prompt e old hrestart.1 hrestart.2, lineOf_append, h]
  by_cases hk : k = .redraw
  · subst hk
    change lineOf (echoText prompt) = lineOf (echoText prompt) ++ e.committed.text ↔ _
    rw [List.self_eq_append_right]
    exact ⟨fun hnil _ => hnil, fun hnil => hnil rfl⟩
  · exact iff_of_true (lineFrom_echo e hk hrestart.1 hrestart.2 _) fun hk' => absurd hk' hk

end Editor

/-- What should be on the screen behind the prompt: the name of the command if a completion is
pending, and the line otherwise. -/
def ReadState.shown (s : ReadState) : List (BitVec 8) :=
  if s.isTab ∧ s.isFound then (commandNames[s.tabIdx]?).getD [] else s.text

/-- The screen is right. -/
def ShownRight (prompt : List (BitVec 8)) (sh : Shell) : Prop :=
  lineOf sh.rl.echo = lineOf (echoText prompt) ++ sh.rl.shown

theorem LineRepr.shown_eq {s : ReadState} {e : Editor} (h : LineRepr s e) :
    s.shown = e.committed.text := by
  have hfound := h.found
  cases hp : e.pending with
  | none =>
      rw [hp] at hfound
      rw [ReadState.shown, if_neg fun hcond => absurd (hfound.symm.trans hcond.2) Bool.false_ne_true,
        e.committed_of_none hp, h.text_eq]
  | some k =>
      rw [hp] at hfound
      obtain ⟨name, hname, -⟩ := e.shows k hp
      rw [ReadState.shown, if_pos ⟨h.tab hfound, hfound⟩, h.idx k hp, hname,
        e.committed_of_some hp, completion_text hname]
      rfl

/-- No command has an empty name. -/
theorem LineRepr.committed_nil_iff {s : ReadState} {e : Editor} (h : LineRepr s e) :
    e.committed.text = [] ↔ s.i = 0 ∧ ¬ (s.isTab ∧ s.isFound) := by
  have hfound := h.found
  cases hp : e.pending with
  | none =>
      rw [hp] at hfound
      rw [e.committed_of_none hp, h.i_eq, ← List.length_eq_zero_iff]
      refine ⟨fun hnil => ⟨by omega, fun hcond => ?_⟩, fun hnil => by omega⟩
      exact absurd (hfound.symm.trans hcond.2) Bool.false_ne_true
  | some k =>
      rw [hp] at hfound
      obtain ⟨name, hname, -⟩ := e.shows k hp
      rw [e.committed_of_some hp, completion_text hname]
      have hnames : ∀ name ∈ commandNames, name ≠ [] := by decide
      exact iff_of_false (hnames name (List.mem_of_getElem? hname))
        fun hcond => hcond.2 ⟨h.tab hfound, hfound⟩

theorem keyOf_eq_redraw_iff {c : Int} : keyOf c = .redraw ↔ c = 0xc := by
  constructor
  · intro h
    by_contra hne
    rw [keyOf, if_neg hne] at h
    repeat' split at h
    all_goals cases h
  · rintro rfl
    rfl

/-- One more key. -/
theorem shown_next {ts : List Stroke} {sh : Shell}
    (hsh : shellKeys prompt (shellStart prompt) ts = .ok sh) (hright : ShownRight prompt sh)
    (t : Stroke) :
    ∃ sh', shellKeys prompt (shellStart prompt) (ts ++ [t]) = .ok sh' ∧
      (ShownRight prompt sh' ↔ (t.key = 0xc → sh.rl.i = 0 ∧ ¬ (sh.rl.isTab ∧ sh.rl.isFound))) := by
  obtain ⟨sh₀, hsh₀, hrepr⟩ := @shellKeys_refines prompt _ _ shellStart_repr ts
  obtain rfl : sh = sh₀ := Except.ok.inj (hsh.symm.trans hsh₀)
  obtain ⟨sh', hsh', hrepr', hecho⟩ := @shellKey_refines sh _ prompt hrepr t
  refine ⟨sh', ?_, ?_⟩
  · rw [shellKeys_append hsh, shellKeys, List.foldlM_cons, hsh', ok_bind]
    rfl
  · have hkey : keyOf t.key.toInt = .redraw ↔ t.key = 0xc := by
      rw [keyOf_eq_redraw_iff]
      exact ⟨fun h => BitVec.eq_of_toInt_eq h, fun h => by rw [h]; rfl⟩
    rw [ShownRight, hrepr.rl.line.shown_eq] at hright
    rw [ShownRight, hrepr'.rl.line.shown_eq, hecho, Editor.shown_step_iff _ _ hright, hkey,
      hrepr.rl.line.committed_nil_iff]

theorem shown_start : ShownRight prompt (shellStart prompt) := by
  have hshown := (@shellStart_repr prompt).rl.line.shown_eq
  rw [ShownRight, hshown]
  exact (List.append_nil _).symm

/-- The screen is right all the time just when Ctrl-L is pressed on empty lines only, with no
completion pending. -/
theorem shown_iff (prompt : List (BitVec 8)) (ts : List Stroke) :
    (∀ before, before <+: ts →
      ∃ sh, shellKeys prompt (shellStart prompt) before = .ok sh ∧ ShownRight prompt sh) ↔
    ∀ before t, before ++ [t] <+: ts → t.key = 0xc →
      ∃ sh, shellKeys prompt (shellStart prompt) before = .ok sh ∧
        sh.rl.i = 0 ∧ ¬ (sh.rl.isTab ∧ sh.rl.isFound) := by
  constructor
  · intro hall before t hpre hkey
    obtain ⟨sh, hsh, hright⟩ := hall before ((List.prefix_append _ _).trans hpre)
    obtain ⟨sh', hsh', hright'⟩ := hall (before ++ [t]) hpre
    obtain ⟨sh₁, hsh₁, hiff⟩ := shown_next hsh hright t
    obtain rfl : sh' = sh₁ := Except.ok.inj (hsh'.symm.trans hsh₁)
    exact ⟨sh, hsh, hiff.mp hright' hkey⟩
  · intro hall before
    induction before using List.reverseRecOn with
    | nil => exact fun _ => ⟨_, rfl, shown_start⟩
    | append_singleton before t ih =>
        intro hpre
        obtain ⟨sh, hsh, hright⟩ := ih ((List.prefix_append _ _).trans hpre)
        obtain ⟨sh', hsh', hiff⟩ := shown_next hsh hright t
        refine ⟨sh', hsh', hiff.mpr fun hkey => ?_⟩
        obtain ⟨sh₁, hsh₁, hempty⟩ := hall before t hpre hkey
        obtain rfl : sh = sh₁ := Except.ok.inj (hsh.symm.trans hsh₁)
        exact hempty

/-- The letter `a` and Ctrl-L: the prompt is alone on the screen, and the line is `a`. -/
theorem shown_not_after_redraw :
    ∃ sh, shellKeys (bytesOf "OSDI> ") (shellStart (bytesOf "OSDI> "))
        [⟨0x61, CArray.fill 16 none⟩, ⟨0xc, CArray.fill 16 none⟩] = .ok sh ∧
      lineOf sh.rl.echo = bytesOf "OSDI> " ∧ sh.rl.shown = bytesOf "a" ∧
      ¬ ShownRight (bytesOf "OSDI> ") sh := by
  obtain ⟨sh₁, hsh₁, hrepr₁, hecho₁⟩ := @shellKey_refines (shellStart (bytesOf "OSDI> "))
    .start (bytesOf "OSDI> ") shellStart_repr ⟨0x61, CArray.fill 16 none⟩
  obtain ⟨sh, hsh, hrepr, hecho⟩ := @shellKey_refines _ _ (bytesOf "OSDI> ") hrepr₁
    ⟨0xc, CArray.fill 16 none⟩
  rw [hecho₁] at hecho
  have hline : lineOf sh.rl.echo = bytesOf "OSDI> " := by
    rw [hecho]
    decide
  have hshown : sh.rl.shown = bytesOf "a" := by
    rw [hrepr.rl.line.shown_eq]
    decide
  refine ⟨sh, ?_, hline, hshown, ?_⟩
  · rw [shellKeys, List.foldlM_cons, hsh₁, ok_bind, List.foldlM_cons, hsh, ok_bind]
    rfl
  · rw [ShownRight, hline, hshown]
    decide

end Nctuos
