import Mathlib.Data.List.Induction
import Mathlib.Data.BitVec

/-!
# The keyboard

`kbd_proc_data` of `kernel/kbd.c` turns the bytes of the keyboard controller into characters.  A key
sends its code `m` when it is pressed and `m | 0x80` when it is released, both behind the byte
`0xE0` if it is one of the extended keys.  `shiftcode` has the modifier of a key, and for the
extended Ctrl and Alt it has one at `0x9D` and `0xB8`, the codes with the upper bit set, under which
an extended key is looked up.

A release has to clear what the press has set, and that of an extended key does not: the branch for
`0xE0` returns at once when the upper bit is set.  After the right-hand Ctrl key has been pressed and
released all input is control characters, until the left-hand key is pressed and released.

`held_iff` says which modifiers are on after any sequence of key events: those of a press after
which no key with that modifier, other than an extended one, was released.  From this,
`modifiers_clear` has the sequences in which no modifier gets stuck.

The controller is a queue of bytes with the last byte that was read, which is read again when the
queue is empty; `kbd_proc_data` looks at the status port before the first byte of a key and not
before the second.
-/

namespace Nctuos

/-! ## The tables -/

def modShift : BitVec 32 := 1 <<< 0
def modCtl : BitVec 32 := 1 <<< 1
def modAlt : BitVec 32 := 1 <<< 2
def modCapslock : BitVec 32 := 1 <<< 3
def modNumlock : BitVec 32 := 1 <<< 4
def modScrolllock : BitVec 32 := 1 <<< 5

/-- `shiftcode`, as the `int` it is promoted to. -/
def shiftcode (data : BitVec 8) : BitVec 32 :=
  match data.toNat with
  | 0x1D => modCtl
  | 0x2A => modShift
  | 0x36 => modShift
  | 0x38 => modAlt
  | 0x9D => modCtl
  | 0xB8 => modAlt
  | _ => 0

def togglecode (data : BitVec 8) : BitVec 32 :=
  match data.toNat with
  | 0x3A => modCapslock
  | 0x45 => modNumlock
  | 0x46 => modScrolllock
  | _ => 0

def keyHome : BitVec 8 := 0xE0
def keyEnd : BitVec 8 := 0xE1
def keyUp : BitVec 8 := 0xE2
def keyDn : BitVec 8 := 0xE3
def keyLf : BitVec 8 := 0xE4
def keyRt : BitVec 8 := 0xE5
def keyPgup : BitVec 8 := 0xE6
def keyPgdn : BitVec 8 := 0xE7
def keyIns : BitVec 8 := 0xE8
def keyDel : BitVec 8 := 0xE9

/-- An array of 256 characters, by its first elements and some others; the rest is `NO`. -/
def keymap (first : List Char) (others : List (Nat × BitVec 8)) (data : BitVec 8) : BitVec 8 :=
  match others.find? fun e => e.1 = data.toNat with
  | some e => e.2
  | none => BitVec.ofNat 8 (first.getD data.toNat '\x00').toNat

/-- The keys of `normalmap` and `shiftmap` that are given by their index. -/
def extendedKeys : List (Nat × BitVec 8) :=
  [(0xC7, keyHome), (0x9C, 0x0A), (0xB5, 0x2F), (0xC8, keyUp), (0xC9, keyPgup), (0xCB, keyLf),
    (0xCD, keyRt), (0xCF, keyEnd), (0xD0, keyDn), (0xD1, keyPgdn), (0xD2, keyIns), (0xD3, keyDel)]

def normalmap : BitVec 8 → BitVec 8 :=
  keymap
    ['\x00', '\x1B', '1', '2', '3', '4', '5', '6',
      '7', '8', '9', '0', '-', '=', '\x08', '\t',
      'q', 'w', 'e', 'r', 't', 'y', 'u', 'i',
      'o', 'p', '[', ']', '\n', '\x00', 'a', 's',
      'd', 'f', 'g', 'h', 'j', 'k', 'l', ';',
      '\x27', '\x60', '\x00', '\x5C', 'z', 'x', 'c', 'v',
      'b', 'n', 'm', ',', '.', '/', '\x00', '*',
      '\x00', ' ', '\x00', '\x00', '\x00', '\x00', '\x00', '\x00',
      '\x00', '\x00', '\x00', '\x00', '\x00', '\x00', '\x00', '7',
      '8', '9', '-', '4', '5', '6', '+', '1',
      '2', '3', '0', '.']
    extendedKeys

def shiftmap : BitVec 8 → BitVec 8 :=
  keymap
    ['\x00', '\x1B', '!', '@', '#', '$', '%', '^',
      '&', '*', '(', ')', '_', '+', '\x08', '\t',
      'Q', 'W', 'E', 'R', 'T', 'Y', 'U', 'I',
      'O', 'P', '\x7B', '\x7D', '\n', '\x00', 'A', 'S',
      'D', 'F', 'G', 'H', 'J', 'K', 'L', ':',
      '\x22', '~', '\x00', '|', 'Z', 'X', 'C', 'V',
      'B', 'N', 'M', '<', '>', '?', '\x00', '*',
      '\x00', ' ', '\x00', '\x00', '\x00', '\x00', '\x00', '\x00',
      '\x00', '\x00', '\x00', '\x00', '\x00', '\x00', '\x00', '7',
      '8', '9', '-', '4', '5', '6', '+', '1',
      '2', '3', '0', '.']
    extendedKeys

/-- The characters `C(x)` of `ctlmap` are written by their codes, `C('Q')` being `0x11`.  `C('/')` is
`'/' - '@'`, which is negative and wraps around to `0xEF`. -/
def ctlmap : BitVec 8 → BitVec 8 :=
  keymap
    ['\x00', '\x00', '\x00', '\x00', '\x00', '\x00', '\x00', '\x00',
      '\x00', '\x00', '\x00', '\x00', '\x00', '\x00', '\x00', '\x00',
      '\x11', '\x17', '\x05', '\x12', '\x14', '\x19', '\x15', '\x09',
      '\x0F', '\x10', '\x00', '\x00', '\x0D', '\x00', '\x01', '\x13',
      '\x04', '\x06', '\x07', '\x08', '\x0A', '\x0B', '\x0C', '\x00',
      '\x00', '\x00', '\x00', '\x1C', '\x1A', '\x18', '\x03', '\x16',
      '\x02', '\x0E', '\x0D', '\x00', '\x00', '\xEF', '\x00', '\x00']
    [(0x97, keyHome), (0xB5, 0xEF), (0xC8, keyUp), (0xC9, keyPgup), (0xCB, keyLf), (0xCD, keyRt),
      (0xCF, keyEnd), (0xD0, keyDn), (0xD1, keyPgdn), (0xD2, keyIns), (0xD3, keyDel)]

/-- `charcode[shift & (CTL | SHIFT)]`. -/
def charcode (shift : BitVec 32) : BitVec 8 → BitVec 8 :=
  match (shift &&& (modCtl ||| modShift)).toNat with
  | 0 => normalmap
  | 1 => shiftmap
  | _ => ctlmap

/-! ## `kbd_proc_data` -/

/-- The static `shift`, the controller, and whether the machine was told to reboot. -/
structure Kbd where
  shift : BitVec 32
  /-- The bytes that wait at the data port, and what it holds when none does. -/
  pending : List (BitVec 8)
  latch : BitVec 8
  rebooting : Bool
  deriving DecidableEq

def Kbd.zero : Kbd := ⟨0, [], 0, false⟩

/-- `inb(KBDATAP)`. -/
def Kbd.inb (s : Kbd) : BitVec 8 × Kbd :=
  match s.pending with
  | [] => (s.latch, s)
  | data :: pending => (data, { s with pending := pending, latch := data })

/-- More bytes arrive. -/
def Kbd.receive (s : Kbd) (bytes : List (BitVec 8)) : Kbd := { s with pending := s.pending ++ bytes }

/-- What the caps lock makes of a character. -/
def capslock (shift : BitVec 32) (c : BitVec 8) : BitVec 8 :=
  if shift &&& modCapslock ≠ 0 then
    if 0x61 ≤ c ∧ c ≤ 0x7A then c + (0x41 - 0x61)
    else if 0x41 ≤ c ∧ c ≤ 0x5A then c + (0x61 - 0x41)
    else c
  else c

/-- `kbd_proc_data`, once it is known that the key `data` was pressed. -/
def keyPressed (data : BitVec 8) (s : Kbd) : Option (BitVec 8) × Kbd :=
  let s := { s with shift := (s.shift ||| shiftcode data) ^^^ togglecode data }
  let c := capslock s.shift (charcode s.shift data)
  -- Ctrl-Alt-Del
  if ~~~s.shift &&& (modCtl ||| modAlt) = 0 ∧ c = keyDel then (some c, { s with rebooting := true })
  else (some c, s)

/-- `kbd_proc_data`; `none` is its `-1`. -/
def kbdProcData (s : Kbd) : Option (BitVec 8) × Kbd :=
  if s.pending = [] then (none, s)
  else
    let r := s.inb
    if r.1 = 0xE0 then
      let r := r.2.inb
      if r.1 &&& 0x80 ≠ 0 then (some 0, r.2) else keyPressed (r.1 ||| 0x80) r.2
    else if r.1 &&& 0x80 ≠ 0 then
      (some 0, { r.2 with shift := r.2.shift &&& ~~~shiftcode (r.1 &&& 0x7F) })
    else keyPressed r.1 r.2

/-- Calls of `kbd_proc_data`, at most so many, until no byte is left. -/
def kbdDrain : Nat → Kbd → Kbd
  | 0, s => s
  | n + 1, s => if s.pending = [] then s else kbdDrain n (kbdProcData s).2

/-! ## Key events -/

/-- A key goes down or up: its code, and whether it is an extended one. -/
structure KeyEvent where
  ext : Bool
  release : Bool
  m : BitVec 7
  deriving DecidableEq

namespace KeyEvent

/-- The bytes it sends. -/
def bytes (e : KeyEvent) : List (BitVec 8) :=
  (if e.ext then [0xE0] else []) ++
    [if e.release then e.m.setWidth 8 ||| 0x80 else e.m.setWidth 8]

/-- Where its key is looked up. -/
def code (e : KeyEvent) : BitVec 8 := if e.ext then e.m.setWidth 8 ||| 0x80 else e.m.setWidth 8

/-- What is done to `shift`. -/
def apply (shift : BitVec 32) (e : KeyEvent) : BitVec 32 :=
  if e.release then
    if e.ext then shift else shift &&& ~~~shiftcode e.code
  else (shift ||| shiftcode e.code) ^^^ togglecode e.code

/-- Its bytes are not taken for those of another event: `0x60 | 0x80` would be the prefix `0xE0`. -/
def Distinct (e : KeyEvent) : Prop := ¬ (e.ext = false ∧ e.release = true ∧ e.m = 0x60)

instance (e : KeyEvent) : Decidable e.Distinct := inferInstanceAs (Decidable (¬ _))

end KeyEvent

/-- The keyboard after a sequence of events, all of whose bytes have been taken. -/
def afterEvents (evs : List KeyEvent) : Kbd :=
  let bytes := evs.flatMap KeyEvent.bytes
  kbdDrain bytes.length (Kbd.zero.receive bytes)

/-! ## One event at a time -/

section Event

variable {e : KeyEvent} {s : Kbd} {rest : List (BitVec 8)}

theorem keyPressed_spec (data : BitVec 8) :
    (keyPressed data s).2.shift = (s.shift ||| shiftcode data) ^^^ togglecode data ∧
      (keyPressed data s).2.pending = s.pending ∧
      (keyPressed data s).1 = some (capslock (keyPressed data s).2.shift
        (charcode (keyPressed data s).2.shift data)) := by
  unfold keyPressed
  dsimp only
  split <;> exact ⟨rfl, rfl, rfl⟩

/-- The byte of a press has its upper bit clear, that of a release has it set, and without it is
the code again. -/
theorem byte_spec (m : BitVec 7) :
    (m.setWidth 8 &&& 0x80 = (0 : BitVec 8) ∧ m.setWidth 8 ≠ (0xE0 : BitVec 8)) ∧
      (m.setWidth 8 ||| 0x80) &&& 0x80 ≠ (0 : BitVec 8) ∧
      (m.setWidth 8 ||| 0x80) &&& 0x7F = m.setWidth 8 ∧
      (m.setWidth 8 ||| 0x80 = (0xE0 : BitVec 8) → m = 0x60) := by
  revert m
  decide +kernel

/-- A call of `kbd_proc_data` takes the bytes of one event, and gives the character of a press. -/
theorem kbdProcData_event (he : e.Distinct) (hs : s.pending = e.bytes ++ rest) :
    (kbdProcData s).2.shift = e.apply s.shift ∧ (kbdProcData s).2.pending = rest ∧
      (e.release = false → (kbdProcData s).1 = some (capslock (kbdProcData s).2.shift
        (charcode (kbdProcData s).2.shift e.code))) := by
  obtain ⟨ext, release, m⟩ := e
  obtain ⟨⟨hclear, hprefix⟩, hset, hcode, hdistinct⟩ := byte_spec m
  cases ext with
  | false =>
      cases release with
      | false =>
          have hpending : s.pending = m.setWidth 8 :: rest := hs
          have hrun : kbdProcData s = keyPressed (m.setWidth 8)
              { s with pending := rest, latch := m.setWidth 8 } := by
            simp only [kbdProcData, Kbd.inb, hpending, hprefix, hclear, reduceCtorEq, if_false, ne_eq,
              not_true_eq_false]
          obtain ⟨hshift, hrest, hchar⟩ := @keyPressed_spec
            { s with pending := rest, latch := m.setWidth 8 } (m.setWidth 8)
          rw [hrun]
          exact ⟨hshift, hrest, fun _ => hchar⟩
      | true =>
          have hpending : s.pending = (m.setWidth 8 ||| 0x80) :: rest := hs
          have hne : m.setWidth 8 ||| 0x80 ≠ (0xE0 : BitVec 8) := fun heq =>
            he ⟨rfl, rfl, hdistinct heq⟩
          have hrun : kbdProcData s = (some 0,
              { s with
                shift := s.shift &&& ~~~shiftcode (m.setWidth 8)
                pending := rest
                latch := m.setWidth 8 ||| 0x80 }) := by
            simp only [kbdProcData, Kbd.inb, hpending, hne, hset, hcode, reduceCtorEq, if_false,
              ne_eq, not_false_eq_true, if_true]
          rw [hrun]
          exact ⟨rfl, rfl, fun h => by cases h⟩
  | true =>
      cases release with
      | false =>
          have hpending : s.pending = 0xE0 :: m.setWidth 8 :: rest := hs
          have hrun : kbdProcData s = keyPressed (m.setWidth 8 ||| 0x80)
              { s with pending := rest, latch := m.setWidth 8 } := by
            simp only [kbdProcData, Kbd.inb, hpending, hclear, reduceCtorEq, if_false, ne_eq,
              not_true_eq_false, if_true]
          obtain ⟨hshift, hrest, hchar⟩ := @keyPressed_spec
            { s with pending := rest, latch := m.setWidth 8 } (m.setWidth 8 ||| 0x80)
          rw [hrun]
          exact ⟨hshift, hrest, fun _ => hchar⟩
      | true =>
          have hpending : s.pending = 0xE0 :: (m.setWidth 8 ||| 0x80) :: rest := hs
          have hrun : kbdProcData s =
              (some 0, { s with pending := rest, latch := m.setWidth 8 ||| 0x80 }) := by
            simp only [kbdProcData, Kbd.inb, hpending, hset, reduceCtorEq, if_false, ne_eq,
              not_false_eq_true, if_true]
          rw [hrun]
          exact ⟨rfl, rfl, fun h => by cases h⟩

theorem KeyEvent.bytes_ne_nil : e.bytes ≠ [] := by simp [KeyEvent.bytes]

/-- All events of a sequence, one after the other. -/
theorem kbdDrain_events {evs : List KeyEvent} {n : Nat} (hevs : ∀ e ∈ evs, e.Distinct)
    (hs : s.pending = evs.flatMap KeyEvent.bytes)
    (hn : (evs.flatMap KeyEvent.bytes).length ≤ n) :
    (kbdDrain n s).shift = evs.foldl KeyEvent.apply s.shift ∧ (kbdDrain n s).pending = [] := by
  induction evs generalizing s n with
  | nil =>
      have hnil : s.pending = [] := hs
      have hrun : kbdDrain n s = s := by
        cases n with
        | zero => rfl
        | succ n => rw [kbdDrain, if_pos hnil]
      rw [hrun]
      exact ⟨rfl, hnil⟩
  | cons e evs ih =>
      rw [List.flatMap_cons] at hs hn
      have hpos := List.length_pos_iff.mpr e.bytes_ne_nil
      rw [List.length_append] at hn
      obtain ⟨hshift, hpending, -⟩ := kbdProcData_event (hevs e List.mem_cons_self) hs
      obtain ⟨n, rfl⟩ : ∃ k, n = k + 1 := Nat.exists_eq_add_of_lt (by omega : 0 < n) |>.imp (by omega)
      rw [kbdDrain, if_neg (by simp [hs, e.bytes_ne_nil]), List.foldl_cons, ← hshift]
      exact ih (fun e' he' => hevs e' (List.mem_cons_of_mem e he')) hpending (by omega)

end Event

theorem afterEvents_spec {evs : List KeyEvent} (hevs : ∀ e ∈ evs, e.Distinct) :
    (afterEvents evs).shift = evs.foldl KeyEvent.apply 0 ∧ (afterEvents evs).pending = [] :=
  kbdDrain_events hevs rfl (Nat.le_refl _)

/-! ## Which modifiers are on -/

/-- The key carries the modifier with number `b`: 0 for SHIFT, 1 for CTL and 2 for ALT. -/
def KeyEvent.Carries (e : KeyEvent) (b : Nat) : Prop := (shiftcode e.code).getLsbD b

instance (e : KeyEvent) (b : Nat) : Decidable (e.Carries b) := inferInstanceAs (Decidable (_ = true))

/-- The event turns that modifier off: the key is released, and is not an extended one. -/
def KeyEvent.Clears (e : KeyEvent) (b : Nat) : Prop :=
  e.ext = false ∧ e.release = true ∧ e.Carries b

instance (e : KeyEvent) (b : Nat) : Decidable (e.Clears b) := inferInstanceAs (Decidable (_ ∧ _))

section Modifiers

variable {evs : List KeyEvent} {e : KeyEvent} {shift : BitVec 32} {b : Nat}

/-- No key that locks is a modifier. -/
theorem togglecode_getLsbD (data : BitVec 8) (hb : b < 3) : (togglecode data).getLsbD b = false := by
  have hall : ∀ data : BitVec 8, ∀ b : Fin 3, (togglecode data).getLsbD b = false := by
    decide +kernel
  exact hall data ⟨b, hb⟩

/-- What an event does to one modifier. -/
theorem apply_getLsbD (hb : b < 3) :
    (e.apply shift).getLsbD b = true ↔
      (e.release = false ∧ e.Carries b) ∨ (shift.getLsbD b = true ∧ ¬ e.Clears b) := by
  have hb32 : b < 32 := by omega
  unfold KeyEvent.apply KeyEvent.Clears KeyEvent.Carries
  cases e.release with
  | false =>
      simp only [Bool.false_eq_true, if_false, BitVec.getLsbD_xor, BitVec.getLsbD_or,
        togglecode_getLsbD _ hb, Bool.xor_false, Bool.or_eq_true]
      tauto
  | true =>
      cases e.ext with
      | false =>
          simp only [Bool.false_eq_true, if_false, if_true, BitVec.getLsbD_and, BitVec.getLsbD_not,
            hb32, decide_true, Bool.true_and]
          cases (shiftcode e.code).getLsbD b <;> simp
      | true => simp

/-- **Which modifiers are on.**  That of a press after which nothing has turned it off. -/
theorem held_iff (hb : b < 3) :
    (evs.foldl KeyEvent.apply 0).getLsbD b = true ↔
      ∃ pre e post, evs = pre ++ e :: post ∧ e.release = false ∧ e.Carries b ∧
        ∀ r ∈ post, ¬ r.Clears b := by
  induction evs using List.reverseRecOn with
  | nil => simp
  | append_singleton evs e ih =>
      rw [List.foldl_append, List.foldl_cons, List.foldl_nil, apply_getLsbD hb, ih]
      constructor
      · rintro (⟨hrel, hcarries⟩ | ⟨⟨pre, p, post, rfl, hrel, hcarries, hpost⟩, hclears⟩)
        · exact ⟨evs, e, [], rfl, hrel, hcarries, fun r hr => absurd hr List.not_mem_nil⟩
        · refine ⟨pre, p, post ++ [e], by simp, hrel, hcarries, fun r hr => ?_⟩
          rcases List.mem_append.mp hr with hr | hr
          · exact hpost r hr
          · rwa [List.mem_singleton.mp hr]
      · rintro ⟨pre, p, post, heq, hrel, hcarries, hpost⟩
        -- the press is the last event, or it was there before
        rcases List.eq_nil_or_concat post with rfl | ⟨post, l, rfl⟩
        · obtain ⟨-, hlast⟩ := List.append_inj' heq rfl
          obtain rfl := List.cons.inj hlast |>.1
          exact Or.inl ⟨hrel, hcarries⟩
        · rw [List.concat_eq_append, ← List.cons_append, ← List.append_assoc] at heq
          obtain ⟨rfl, hlast⟩ := List.append_inj' heq rfl
          obtain rfl := List.cons.inj hlast |>.1
          rw [List.concat_eq_append] at hpost
          exact Or.inr ⟨⟨pre, p, post, rfl, hrel, hcarries, fun r hr => hpost r (by simp [hr])⟩,
            hpost e (by simp)⟩

end Modifiers

/-! ## Stuck keys -/

/-- The modifiers. -/
def modifiers : BitVec 32 := modShift ||| modCtl ||| modAlt

/-- `P` of every event of the sequence and of the events after it. -/
def AtEach (P : KeyEvent → List KeyEvent → Prop) : List KeyEvent → Prop
  | [] => True
  | e :: evs => P e evs ∧ AtEach P evs

instance AtEach.decidable {P : KeyEvent → List KeyEvent → Prop} [∀ e post, Decidable (P e post)] :
    (evs : List KeyEvent) → Decidable (AtEach P evs)
  | [] => .isTrue trivial
  | _ :: evs => @instDecidableAnd _ _ inferInstance (AtEach.decidable evs)

/-- Each key that carries a modifier and was pressed has since been released. -/
def AllReleased : List KeyEvent → Prop :=
  AtEach fun e post => e.release = false → shiftcode e.code ≠ 0 → { e with release := true } ∈ post

instance (evs : List KeyEvent) : Decidable (AllReleased evs) := AtEach.decidable evs

/-- Each modifier of an extended key that was pressed has since been turned off, which only another
key does. -/
def ExtCleared : List KeyEvent → Prop :=
  AtEach fun e post =>
    e.ext = true → e.release = false → ∀ b < 3, e.Carries b → ∃ r ∈ post, r.Clears b

instance (evs : List KeyEvent) : Decidable (ExtCleared evs) := AtEach.decidable evs

section Stuck

variable {evs : List KeyEvent} {shift mask : BitVec 32}

theorem and_eq_zero_of_low (hmask : ∀ b : Fin 32, 3 ≤ b.val → mask.getLsbD b = false)
    (hlow : ∀ b < 3, shift.getLsbD b = false) : shift &&& mask = 0 := by
  apply BitVec.eq_of_getLsbD_eq
  intro b hb
  have hzero : BitVec.getLsbD (0 : BitVec 32) b = false := BitVec.getLsbD_zero
  rw [BitVec.getLsbD_and, hzero]
  rcases Nat.lt_or_ge b 3 with hlt | hge
  · rw [hlow b hlt, Bool.false_and]
  · rw [hmask ⟨b, hb⟩ hge, Bool.and_false]

theorem atEach_iff {P : KeyEvent → List KeyEvent → Prop} :
    AtEach P evs ↔ ∀ pre e post, evs = pre ++ e :: post → P e post := by
  induction evs with
  | nil => simp [AtEach]
  | cons a evs ih =>
      rw [AtEach, ih]
      constructor
      · rintro ⟨hfirst, hrest⟩ pre e post heq
        rcases List.cons_eq_append_iff.mp heq with ⟨rfl, hcons⟩ | ⟨pre, rfl, rfl⟩
        · obtain ⟨rfl, rfl⟩ := List.cons.inj hcons
          exact hfirst
        · exact hrest pre e post rfl
      · intro h
        exact ⟨h [] a evs rfl, fun pre e post heq => h (a :: pre) e post (by rw [heq]; rfl)⟩

theorem KeyEvent.Carries.ne_zero {e : KeyEvent} {b : Nat} (h : e.Carries b) :
    shiftcode e.code ≠ 0 := by
  intro hzero
  rw [KeyEvent.Carries, hzero] at h
  simp at h

/-- **When all modifiers are off**, bit by bit: the release of a key that is not extended clears
what its press has set, so only the extended ones count. -/
theorem low_clear_iff (hup : AllReleased evs) :
    (∀ b < 3, (evs.foldl KeyEvent.apply 0).getLsbD b = false) ↔ ExtCleared evs := by
  have hreleased := atEach_iff.mp hup
  rw [ExtCleared, atEach_iff]
  constructor
  · intro hlow pre e post heq _ hrel b hb hcarries
    by_contra hnone
    have hheld := (held_iff hb).mpr
      ⟨pre, e, post, heq, hrel, hcarries, fun r hr hclears => hnone ⟨r, hr, hclears⟩⟩
    exact Bool.false_ne_true ((hlow b hb).symm.trans hheld)
  · intro hcleared b hb
    rw [Bool.eq_false_iff]
    intro hheld
    obtain ⟨pre, e, post, heq, hrel, hcarries, hpost⟩ := (held_iff hb).mp hheld
    by_cases hext : e.ext = true
    · obtain ⟨r, hr, hclears⟩ := hcleared pre e post heq hext hrel b hb hcarries
      exact hpost r hr hclears
    · exact hpost _ (hreleased pre e post heq hrel hcarries.ne_zero)
        ⟨Bool.eq_false_iff.mpr hext, rfl, hcarries⟩

theorem and_modifiers_eq_zero_iff :
    shift &&& modifiers = 0 ↔ ∀ b < 3, shift.getLsbD b = false := by
  constructor
  · intro hzero b hb
    have hbit : (shift &&& modifiers).getLsbD b = false := by rw [hzero]; exact BitVec.getLsbD_zero
    have hmask : ∀ b : Fin 3, modifiers.getLsbD b = true := by decide
    rwa [BitVec.getLsbD_and, hmask ⟨b, hb⟩, Bool.and_true] at hbit
  · exact and_eq_zero_of_low (by decide)

end Stuck

/-- **When a modifier gets stuck.**  Whenever the keys with a modifier are up, all modifiers are off
exactly if each one that was pressed on an extended key has been turned off by another key; the next
key that is not a modifier is then looked up in `normalmap`. -/
theorem modifiers_clear {evs : List KeyEvent} (hevs : ∀ e ∈ evs, e.Distinct)
    (hup : AllReleased evs) :
    ((afterEvents evs).shift &&& modifiers = 0 ↔ ExtCleared evs) ∧
      (ExtCleared evs → ∀ e : KeyEvent, e.release = false → shiftcode e.code = 0 →
        (kbdProcData ((afterEvents evs).receive e.bytes)).1 =
          some (capslock (e.apply (afterEvents evs).shift) (normalmap e.code))) := by
  obtain ⟨hshift, hpending⟩ := afterEvents_spec hevs
  have hiff := low_clear_iff hup
  rw [← hshift] at hiff
  refine ⟨and_modifiers_eq_zero_iff.trans hiff, fun hcleared e hrel hzero => ?_⟩
  have hlow := hiff.mpr hcleared
  have hdistinct : e.Distinct := fun h => by simp [hrel] at h
  obtain ⟨hshift', -, hchar⟩ := @kbdProcData_event e ((afterEvents evs).receive e.bytes) [] hdistinct
    (by simp [Kbd.receive, hpending])
  rw [hchar hrel, hshift', Kbd.receive]
  -- the toggles are not among the modifiers, so the table is still the first
  have hlow' : ∀ b < 3, (e.apply (afterEvents evs).shift).getLsbD b = false := by
    intro b hb
    rw [Bool.eq_false_iff, ne_eq, apply_getLsbD hb, hlow b hb, KeyEvent.Carries, hzero]
    simp
  have htable : charcode (e.apply (afterEvents evs).shift) = normalmap := by
    rw [charcode, and_eq_zero_of_low (by decide) hlow']
    rfl
  rw [htable]

/-- The right-hand key is pressed and released, and then Ctrl-A typed with the left-hand one, whose
release turns both off: the next `a` is an `a`. -/
theorem modifiers_clear_left_ctrl :
    let evs : List KeyEvent :=
      [⟨true, false, 0x1D⟩, ⟨true, true, 0x1D⟩, ⟨false, false, 0x1D⟩, ⟨false, false, 0x1E⟩,
        ⟨false, true, 0x1E⟩, ⟨false, true, 0x1D⟩]
    (afterEvents evs).shift &&& modifiers = 0 ∧
      (kbdProcData ((afterEvents evs).receive [0x1E])).1 = some 0x61 := by
  intro evs
  have hcleared : ExtCleared evs := by decide
  obtain ⟨hclear, hnext⟩ := modifiers_clear (show ∀ e ∈ evs, e.Distinct by decide)
    (show AllReleased evs by decide)
  exact ⟨hclear.mpr hcleared, (hnext hcleared ⟨false, false, 0x1E⟩ rfl (by decide)).trans (by decide)⟩

/-- The right-hand key is pressed and released: Ctrl stays on, and the next `a` is a Ctrl-A. -/
theorem right_ctrl_stuck :
    let evs : List KeyEvent := [⟨true, false, 0x1D⟩, ⟨true, true, 0x1D⟩]
    AllReleased evs ∧ (afterEvents evs).shift &&& modifiers = modCtl ∧
      (kbdProcData ((afterEvents evs).receive [0x1E])).1 = some 0x01 := by
  decide

end Nctuos
