import Nctuos.Lib.Except
import Mathlib.Data.BitVec

/-!
# Interrupts of a 32-bit processor

What a processor in protected mode does with an interrupt, and the instructions that code around an
interrupt is made of: `pushl`, `pushal`, `popal`, loading a segment register, `iret`.  The
descriptors are as they are in memory, eight bytes each, and the processor takes them apart.

Segments are flat: an interrupt, or an `iret`, to a segment that is not flat is not modelled, and so
are the kinds of gates other than the 32-bit interrupt and trap gates.  Paging is left out.

Every word that is pushed is one of a list (`X86.pushes`), and the words that were pushed are read
back from the memory by `Ram.read32_pushAll`.
-/

namespace Nctuos.Lib

/-! ## Memory -/

/-- Bytes, by their addresses, which wrap around. -/
abbrev Ram := BitVec 32 → BitVec 8

namespace Ram

variable {m m' : Ram} {a v x top : BitVec 32} {n : Nat} {ws : List (BitVec 32)}

def read16 (m : Ram) (a : BitVec 32) : BitVec 16 := m (a + 1#32) ++ m a

/-- A word, the lowest byte first. -/
def read32 (m : Ram) (a : BitVec 32) : BitVec 32 :=
  m (a + 3#32) ++ m (a + 2#32) ++ m (a + 1#32) ++ m a

/-- The `n` lowest bytes of `v` are stored. -/
def store (n : Nat) (m : Ram) (a v : BitVec 32) : Ram := fun x =>
  if (x - a).toNat < n then (v >>> (8 * (x - a).toNat)).setWidth 8 else m x

theorem store_of_le (h : n ≤ (x - a).toNat) : store n m a v x = m x := if_neg (by omega)

theorem store_at {i : Nat} (hi : i < n) (hn : n ≤ 4) :
    store n m a v (a + BitVec.ofNat 32 i) = (v >>> (8 * i)).setWidth 8 := by
  have hoff : (a + BitVec.ofNat 32 i - a).toNat = i := by bv_omega
  rw [store, hoff, if_pos hi]

/-- A store, and a byte near it. -/
theorem store_offset {k i : Nat} (hn : n ≤ 4) (hk : k < 2 ^ 31) (hi : i < 2 ^ 31) :
    store n m (a + BitVec.ofNat 32 k) v (a + BitVec.ofNat 32 i) =
      if k ≤ i ∧ i - k < n then (v >>> (8 * (i - k))).setWidth 8 else m (a + BitVec.ofNat 32 i) := by
  split
  · rename_i hin
    have haddr : a + BitVec.ofNat 32 i = a + BitVec.ofNat 32 k + BitVec.ofNat 32 (i - k) := by
      bv_omega
    rw [haddr, store_at hin.2 hn]
  · exact store_of_le (by bv_omega)

theorem read32_congr (h : ∀ i < 4, m (a + BitVec.ofNat 32 i) = m' (a + BitVec.ofNat 32 i)) :
    m.read32 a = m'.read32 a := by
  have h0 := h 0 (by omega)
  have h1 := h 1 (by omega)
  have h2 := h 2 (by omega)
  have h3 := h 3 (by omega)
  rw [BitVec.add_zero] at h0
  rw [read32, read32, h0, h1, h2, h3]

/-- The lower half of a word. -/
theorem read16_eq (m : Ram) (a : BitVec 32) : m.read16 a = (m.read32 a).setWidth 16 := by
  rw [read32, read16, BitVec.setWidth_eq_extractLsb' (by omega)]
  ext i hi
  rw [BitVec.getElem_extractLsb', BitVec.getLsbD_append, BitVec.getLsbD_append,
    BitVec.getLsbD_append, BitVec.getElem_append, Nat.zero_add]
  split
  · rw [BitVec.getLsbD_eq_getElem]
  · rw [if_pos (by omega), BitVec.getLsbD_eq_getElem]

theorem getLsbD_read16 (m : Ram) (a : BitVec 32) (i : Nat) :
    (m.read16 a).getLsbD i = if i < 8 then (m a).getLsbD i else (m (a + 1#32)).getLsbD (i - 8) :=
  BitVec.getLsbD_append

theorem read32_store : (store 4 m a v).read32 a = v := by
  have h0 := store_at (m := m) (a := a) (v := v) (i := 0) (n := 4) (by omega) (by omega)
  have h1 := store_at (m := m) (a := a) (v := v) (i := 1) (n := 4) (by omega) (by omega)
  have h2 := store_at (m := m) (a := a) (v := v) (i := 2) (n := 4) (by omega) (by omega)
  have h3 := store_at (m := m) (a := a) (v := v) (i := 3) (n := 4) (by omega) (by omega)
  rw [BitVec.add_zero] at h0
  rw [read32, h0, h1, h2, h3]
  ext i hi
  simp only [BitVec.getElem_append, BitVec.getElem_setWidth, BitVec.getLsbD_ushiftRight]
  split
  · simp [BitVec.getLsbD_eq_getElem hi]
  · split
    · rename_i h8 h16
      rw [show 8 * 1 + (i - 8) = i by omega, BitVec.getLsbD_eq_getElem hi]
    · split
      · rename_i h8 h16 h24
        rw [show 8 * 2 + (i - 8 - 8) = i by omega, BitVec.getLsbD_eq_getElem hi]
      · rename_i h8 h16 h24
        rw [show 8 * 3 + (i - 8 - 8 - 8) = i by omega, BitVec.getLsbD_eq_getElem hi]

/-- Words that are pushed, the first one at `top - 4`. -/
def pushAll (m : Ram) (top : BitVec 32) : List (BitVec 32) → Ram
  | [] => m
  | w :: ws => pushAll (store 4 m (top - 4) w) (top - 4) ws

theorem pushAll_append (m : Ram) (top : BitVec 32) (ws ws' : List (BitVec 32)) :
    m.pushAll top (ws ++ ws') =
      (m.pushAll top ws).pushAll (top - BitVec.ofNat 32 (4 * ws.length)) ws' := by
  induction ws generalizing m top with
  | nil => simp [pushAll]
  | cons w ws ih =>
      rw [List.cons_append, pushAll, ih, pushAll]
      congr 1
      rw [List.length_cons]
      bv_omega

/-- Nothing changes but the bytes below `top`. -/
theorem pushAll_of_le (hlen : 4 * ws.length < 2 ^ 32) (hx : 4 * ws.length ≤ (top - 1 - x).toNat) :
    m.pushAll top ws x = m x := by
  induction ws generalizing m top with
  | nil => rfl
  | cons w ws ih =>
      rw [List.length_cons] at hlen hx
      rw [pushAll, ih (by omega) (by bv_omega)]
      exact store_of_le (by bv_omega)

/-- The words that were pushed are there. -/
theorem read32_pushAll (hlen : 4 * ws.length < 2 ^ 32) {i : Nat} (hi : i < ws.length) :
    (m.pushAll top ws).read32 (top - BitVec.ofNat 32 (4 * (i + 1))) = ws[i] := by
  induction ws generalizing m top i with
  | nil => cases hi
  | cons w ws ih =>
      rw [List.length_cons] at hlen hi
      cases i with
      | zero =>
          have hkept : ∀ j < 4, pushAll (store 4 m (top - 4) w) (top - 4) ws
              (top - 4 + BitVec.ofNat 32 j) =
              store 4 m (top - 4) w (top - 4 + BitVec.ofNat 32 j) :=
            fun j hj => pushAll_of_le (by omega) (by bv_omega)
          rw [pushAll]
          exact (read32_congr hkept).trans read32_store
      | succ i =>
          have haddr : top - BitVec.ofNat 32 (4 * (i + 1 + 1)) =
              top - 4 - BitVec.ofNat 32 (4 * (i + 1)) := by bv_omega
          rw [pushAll, haddr]
          exact ih (by omega) (by omega)

end Ram

/-! ## Descriptors -/

/-- A segment descriptor or a gate. -/
abbrev Desc := BitVec 64

namespace Desc

def type (d : Desc) : BitVec 4 := d.extractLsb' 40 4

/-- Of code or data, and not of the system. -/
def app (d : Desc) : Bool := d.extractLsb' 44 1 = 1

def dpl (d : Desc) : BitVec 2 := d.extractLsb' 45 2

def present (d : Desc) : Bool := d.extractLsb' 47 1 = 1

def base (d : Desc) : BitVec 32 :=
  d.extractLsb' 56 8 ++ (d.extractLsb' 32 8 ++ d.extractLsb' 16 16)

/-- The last offset, in bytes or in pages. -/
def limit (d : Desc) : Nat :=
  let field := (d.extractLsb' 48 4 ++ d.extractLsb' 0 16).toNat
  if d.extractLsb' 55 1 = 1 then field * 4096 + 4095 else field

/-- The whole address space, with 32-bit code or a 32-bit stack. -/
def flat (d : Desc) : Bool := d.base = 0 && d.limit = 2 ^ 32 - 1 && d.extractLsb' 54 1 = 1

def code (d : Desc) : Bool := d.app && d.type.getLsbD 3

def conforming (d : Desc) : Bool := d.code && d.type.getLsbD 2

def readable (d : Desc) : Bool := d.app && (!d.type.getLsbD 3 || d.type.getLsbD 1)

def writable (d : Desc) : Bool := d.app && !d.type.getLsbD 3 && d.type.getLsbD 1

/-- A 32-bit TSS that no processor has loaded. -/
def availableTss (d : Desc) : Bool := !d.app && d.type = 0x9

/-- The mark that `ltr` makes. -/
def busy (d : Desc) : Desc := d ||| (1 <<< 41)

theorem busy_app (d : Desc) : d.busy.app = d.app := by
  have hmark : (1 <<< 41 : Desc).extractLsb' 44 1 = 0#1 := by decide
  rw [app, app, busy, BitVec.extractLsb'_or, hmark, BitVec.or_zero]

def intrGate (d : Desc) : Bool := !d.app && d.type = 0xE

def trapGate (d : Desc) : Bool := !d.app && d.type = 0xF

/-- Where a gate leads. -/
def offset (d : Desc) : BitVec 32 := d.extractLsb' 48 16 ++ d.extractLsb' 0 16

def selector (d : Desc) : BitVec 16 := d.extractLsb' 16 16

end Desc

/-! ## Selectors -/

namespace Selector

def rpl (sel : BitVec 16) : BitVec 2 := sel.setWidth 2

def isNull (sel : BitVec 16) : Bool := sel.extractLsb' 2 14 = 0

/-- The error code of a fault that is about the selector. -/
def err (sel : BitVec 16) : BitVec 32 := (sel &&& 0xFFFC).setWidth 32

end Selector

/-! ## The processor -/

/-- What interrupts and the instructions around them use of a processor.  `pad` is what it leaves in
the upper half of a word in which it pushes a selector.  There is no local descriptor table. -/
structure X86 where
  eax : BitVec 32
  ecx : BitVec 32
  edx : BitVec 32
  ebx : BitVec 32
  esp : BitVec 32
  ebp : BitVec 32
  esi : BitVec 32
  edi : BitVec 32
  eip : BitVec 32
  eflags : BitVec 32
  cs : BitVec 16
  ss : BitVec 16
  ds : BitVec 16
  es : BitVec 16
  fs : BitVec 16
  gs : BitVec 16
  mem : Ram
  /-- The table, and how many descriptors its limit leaves. -/
  gdt : Nat → Desc
  gdtLen : Nat
  idt : BitVec 8 → Desc
  /-- What `ltr` has loaded. -/
  trBase : BitVec 32
  trLimit : Nat
  pad : BitVec 16
  deriving Inhabited

/-- A fault, with its error code; or something that is not modelled. -/
inductive Fault
  | ts (err : BitVec 32)
  | np (err : BitVec 32)
  | ss (err : BitVec 32)
  | gp (err : BitVec 32)
  | unmodelled
  deriving DecidableEq

/-- What interrupts a program: an `int` of its own, a device, or a fault with its error code if it
has one. -/
inductive Event
  | int (v : BitVec 8)
  | irq (v : BitVec 8)
  | fault (v : BitVec 8) (err : Option (BitVec 32))
  deriving DecidableEq

namespace Event

def vector : Event → BitVec 8
  | int v => v
  | irq v => v
  | fault v _ => v

def soft : Event → Bool
  | int _ => true
  | irq _ => false
  | fault _ _ => false

/-- The error code, if one is pushed. -/
def err : Event → Option (BitVec 32)
  | int _ => none
  | irq _ => none
  | fault _ err => err

/-- The vectors of the faults that have an error code. -/
def errVectors : List Nat := [8, 10, 11, 12, 13, 14, 17]

/-- What a processor raises: the vectors below 32 are those of its faults, and it is the vector of a
fault that says whether there is an error code. -/
def Genuine : Event → Prop
  | int _ => True
  | irq v => 32 ≤ v.toNat
  | fault v err => v.toNat < 32 ∧ (err.isSome ↔ v.toNat ∈ errVectors)

instance (e : Event) : Decidable e.Genuine :=
  match e with
  | int _ => inferInstanceAs (Decidable True)
  | irq v => inferInstanceAs (Decidable (32 ≤ v.toNat))
  | fault v err => inferInstanceAs (Decidable (v.toNat < 32 ∧ (err.isSome ↔ v.toNat ∈ errVectors)))

/-- The error code of a fault about the gate: its offset, that it is in the IDT, and whether the
program has nothing to do with it. -/
def gateErr (e : Event) : BitVec 32 :=
  e.vector.setWidth 32 <<< 3 ||| 2 ||| if e.soft then 0 else 1

/-- The flags as they are pushed: a fault sets `RF`. -/
def flags (e : Event) (eflags : BitVec 32) : BitVec 32 :=
  match e with
  | int _ => eflags
  | irq _ => eflags
  | fault _ _ => eflags ||| (1 <<< 16)

end Event

/-- The vector of a fault. -/
def Fault.event : Fault → Option Event
  | .ts err => some (.fault 10 (some err))
  | .np err => some (.fault 11 (some err))
  | .ss err => some (.fault 12 (some err))
  | .gp err => some (.fault 13 (some err))
  | .unmodelled => none

namespace X86

def cpl (s : X86) : BitVec 2 := Selector.rpl s.cs

def descriptor (s : X86) (sel : BitVec 16) : Option Desc :=
  if Selector.isNull sel ∨ sel.getLsbD 2 then none
  else if (sel >>> 3).toNat < s.gdtLen then some (s.gdt (sel >>> 3).toNat) else none

/-- The descriptor table and the task register. -/
def tables (s : X86) : (Nat → Desc) × Nat × BitVec 32 × Nat :=
  (s.gdt, s.gdtLen, s.trBase, s.trLimit)

/-- A stack pointer, and what is on the stack. -/
def setStack (s : X86) (esp : BitVec 32) (mem : Ram) : X86 := { s with esp := esp, mem := mem }

/-- Another stack. -/
def switchStack (s : X86) (ss : BitVec 16) (esp : BitVec 32) : X86 := { s with ss := ss, esp := esp }

def jump (s : X86) (eip : BitVec 32) (cs : BitVec 16) (eflags : BitVec 32) : X86 :=
  { s with eip := eip, cs := cs, eflags := eflags }

/-- Words are pushed. -/
def pushes (s : X86) (ws : List (BitVec 32)) : X86 :=
  s.setStack (s.esp - BitVec.ofNat 32 (4 * ws.length)) (s.mem.pushAll s.esp ws)

@[simp] theorem setStack_tables (s : X86) (esp : BitVec 32) (mem : Ram) :
    (s.setStack esp mem).tables = s.tables := rfl

@[simp] theorem setStack_cs (s : X86) (esp : BitVec 32) (mem : Ram) :
    (s.setStack esp mem).cs = s.cs := rfl

@[simp] theorem setStack_eflags (s : X86) (esp : BitVec 32) (mem : Ram) :
    (s.setStack esp mem).eflags = s.eflags := rfl

@[simp] theorem switchStack_tables (s : X86) (ss : BitVec 16) (esp : BitVec 32) :
    (s.switchStack ss esp).tables = s.tables := rfl

@[simp] theorem switchStack_eflags (s : X86) (ss : BitVec 16) (esp : BitVec 32) :
    (s.switchStack ss esp).eflags = s.eflags := rfl

@[simp] theorem jump_tables (s : X86) (eip : BitVec 32) (cs : BitVec 16) (eflags : BitVec 32) :
    (s.jump eip cs eflags).tables = s.tables := rfl

@[simp] theorem jump_eflags (s : X86) (eip : BitVec 32) (cs : BitVec 16) (eflags : BitVec 32) :
    (s.jump eip cs eflags).eflags = eflags := rfl

theorem pushes_pushes (s : X86) (ws ws' : List (BitVec 32)) :
    (s.pushes ws).pushes ws' = s.pushes (ws ++ ws') := by
  have hesp : s.esp - BitVec.ofNat 32 (4 * ws.length) - BitVec.ofNat 32 (4 * ws'.length) =
      s.esp - BitVec.ofNat 32 (4 * (ws ++ ws').length) := by
    rw [List.length_append]
    bv_omega
  have hmem := Ram.pushAll_append s.mem s.esp ws ws'
  rw [pushes, pushes, pushes, ← hesp, hmem]
  rfl

/-- The word in which a selector is pushed. -/
def selWord (s : X86) (sel : BitVec 16) : BitVec 32 := s.pad ++ sel

theorem setWidth_selWord (s : X86) (sel : BitVec 16) : (s.selWord sel).setWidth 16 = sel := by
  rw [selWord, BitVec.setWidth_eq_extractLsb' (by omega)]
  exact BitVec.extractLsb'_append_eq_right

/-- The word at `4 * i` from the top of the stack. -/
def stackAt (s : X86) (i : Nat) : BitVec 32 := s.mem.read32 (s.esp + BitVec.ofNat 32 (4 * i))

/-! ### Interrupts -/

/-- The segment and the pointer of the stack for a ring, from the TSS. -/
def innerStack (s : X86) (ring : BitVec 2) : Except Fault (BitVec 16 × BitVec 32) :=
  if s.trLimit < 8 * ring.toNat + 9 then .error (.ts 0)
  else
    let at' := s.trBase + BitVec.ofNat 32 (8 * ring.toNat + 4)
    let sel := s.mem.read16 (at' + 4)
    match s.descriptor sel with
    | none => .error (.ts (Selector.err sel))
    | some d =>
        if Selector.rpl sel ≠ ring ∨ d.dpl ≠ ring ∨ ¬ d.writable then .error (.ts (Selector.err sel))
        else if ¬ d.present then .error (.ss (Selector.err sel))
        else if ¬ d.flat then .error .unmodelled
        else .ok (sel, s.mem.read32 at')

/-- The code that a gate leads to. -/
def gateCode (s : X86) (g : Desc) : Except Fault Desc :=
  match s.descriptor g.selector with
  | none => .error (.gp (Selector.err g.selector))
  | some d =>
      if ¬ d.code ∨ s.cpl < d.dpl then .error (.gp (Selector.err g.selector))
      else if ¬ d.present then .error (.np (Selector.err g.selector))
      else if ¬ d.flat then .error .unmodelled
      else .ok d

/-- The flags behind a gate: `TF`, `NT`, `RF` and `VM` are clear, and behind an interrupt gate `IF`
is. -/
def gateFlags (g : Desc) (eflags : BitVec 32) : BitVec 32 :=
  eflags &&& if g.intrGate then 0xFFFCBCFF else 0xFFFCBEFF

/-- Control goes through the gate, in the ring of `d`. -/
def through (s : X86) (g d : Desc) : X86 :=
  s.jump g.offset
    (g.selector &&& 0xFFFC ||| (if d.conforming then s.cpl else d.dpl).setWidth 16)
    (gateFlags g s.eflags)

/-- An interrupt. -/
def interrupt (s : X86) (e : Event) : Except Fault X86 :=
  let g := s.idt e.vector
  if ¬ (g.intrGate ∨ g.trapGate) ∨ (e.soft ∧ g.dpl < s.cpl) then .error (.gp e.gateErr)
  else if ¬ g.present then .error (.np e.gateErr)
  else do
    let d ← s.gateCode g
    let back := [e.flags s.eflags, s.selWord s.cs, s.eip] ++ e.err.toList
    if d.conforming ∨ d.dpl = s.cpl then .ok ((s.pushes back).through g d)
    else do
      let (ss, esp) ← s.innerStack d.dpl
      .ok (((s.switchStack ss esp).pushes ([s.selWord s.ss, s.esp] ++ back)).through g d)

/-- A gate to an inner ring. -/
theorem interrupt_inner {s : X86} {e : Event} {d : Desc} {ss : BitVec 16} {esp : BitVec 32}
    (hgate : (s.idt e.vector).intrGate ∨ (s.idt e.vector).trapGate)
    (hsoft : e.soft = true → ¬ (s.idt e.vector).dpl < s.cpl)
    (hpresent : (s.idt e.vector).present = true) (hcode : s.gateCode (s.idt e.vector) = .ok d)
    (hconforming : d.conforming = false) (hring : d.dpl ≠ s.cpl)
    (hstack : s.innerStack d.dpl = .ok (ss, esp)) :
    s.interrupt e = .ok (((s.switchStack ss esp).pushes ([s.selWord s.ss, s.esp] ++
      ([e.flags s.eflags, s.selWord s.cs, s.eip] ++ e.err.toList))).through (s.idt e.vector) d) := by
  have hlet : ¬ (¬ ((s.idt e.vector).intrGate ∨ (s.idt e.vector).trapGate) ∨
      (e.soft ∧ (s.idt e.vector).dpl < s.cpl)) := by
    rintro (hno | ⟨hs, hlt⟩)
    · exact hno hgate
    · exact hsoft hs hlt
  rw [interrupt]
  dsimp only
  rw [if_neg hlet, if_neg (not_not.mpr hpresent), hcode, ok_bind,
    if_neg (by simp [hconforming, hring]), hstack]
  rfl

/-- An `int` through a gate that is not for its ring. -/
theorem interrupt_refused {s : X86} {e : Event} (hsoft : e.soft = true)
    (hring : (s.idt e.vector).dpl < s.cpl) : s.interrupt e = .error (.gp e.gateErr) := by
  rw [interrupt]
  exact if_pos (Or.inr ⟨hsoft, hring⟩)

/-- An interrupt that ends in a fault is that fault; a fault in it is not modelled. -/
def take (s : X86) (e : Event) : Except Fault X86 :=
  match s.interrupt e with
  | .ok s' => .ok s'
  | .error f =>
      match f.event with
      | some e' => s.interrupt e'
      | none => .error f

/-! ### Instructions -/

inductive DataSeg
  | ds
  | es
  | fs
  | gs
  deriving DecidableEq

def dataSeg (s : X86) : DataSeg → BitVec 16
  | .ds => s.ds
  | .es => s.es
  | .fs => s.fs
  | .gs => s.gs

def setDataSeg (s : X86) (r : DataSeg) (sel : BitVec 16) : X86 :=
  match r with
  | .ds => { s with ds := sel }
  | .es => { s with es := sel }
  | .fs => { s with fs := sel }
  | .gs => { s with gs := sel }

/-- May the selector be loaded into a data segment register? -/
def loadable (s : X86) (sel : BitVec 16) : Except Fault Unit :=
  if Selector.isNull sel then .ok ()
  else
    match s.descriptor sel with
    | none => .error (.gp (Selector.err sel))
    | some d =>
        if ¬ d.readable ∨ (¬ d.conforming ∧ (d.dpl < Selector.rpl sel ∨ d.dpl < s.cpl)) then
          .error (.gp (Selector.err sel))
        else if ¬ d.present then .error (.np (Selector.err sel))
        else .ok ()

/-- It depends on the tables and on the ring. -/
theorem loadable_congr {s t : X86} (htables : t.tables = s.tables) (hcs : t.cs = s.cs)
    (sel : BitVec 16) : t.loadable sel = s.loadable sel := by
  obtain ⟨hgdt, hlen, -⟩ := Prod.mk.inj htables |>.imp_right Prod.mk.inj
  rw [loadable, loadable, descriptor, descriptor, cpl, cpl, hgdt, hlen, hcs]

def loadSeg (s : X86) (r : DataSeg) (sel : BitVec 16) : Except Fault X86 := do
  s.loadable sel
  .ok (s.setDataSeg r sel)

/-- What an `iret` to ring `ring` leaves in a data segment register. -/
def outward (s : X86) (ring : BitVec 2) (sel : BitVec 16) : BitVec 16 :=
  match s.descriptor sel with
  | none => sel
  | some d => if d.dpl < ring ∧ ¬ d.conforming then 0 else sel

/-- The code that an `iret` returns to. -/
def iretCode (s : X86) (sel : BitVec 16) : Except Fault Unit :=
  match s.descriptor sel with
  | none => .error (.gp (Selector.err sel))
  | some d =>
      if ¬ d.code ∨ Selector.rpl sel < s.cpl ∨
          (if d.conforming then Selector.rpl sel < d.dpl else d.dpl ≠ Selector.rpl sel) then
        .error (.gp (Selector.err sel))
      else if ¬ d.present then .error (.np (Selector.err sel))
      else if ¬ d.flat then .error .unmodelled
      else .ok ()

/-- The stack that an `iret` to ring `ring` returns to. -/
def iretStack (s : X86) (ring : BitVec 2) (sel : BitVec 16) : Except Fault Unit :=
  match s.descriptor sel with
  | none => .error (.gp (Selector.err sel))
  | some d =>
      if Selector.rpl sel ≠ ring ∨ ¬ d.writable ∨ d.dpl ≠ ring then .error (.gp (Selector.err sel))
      else if ¬ d.present then .error (.ss (Selector.err sel))
      else if ¬ d.flat then .error .unmodelled
      else .ok ()

/-- `iret` in ring 0, and not out of a nested task or to virtual-8086 mode. -/
def iret (s : X86) : Except Fault X86 :=
  let cs := (s.stackAt 1).setWidth 16
  let ring := Selector.rpl cs
  if s.cpl ≠ 0 ∨ s.eflags.getLsbD 14 ∨ (s.stackAt 2).getLsbD 17 then .error .unmodelled
  else do
    s.iretCode cs
    if ring = s.cpl then
      .ok { s with eip := s.stackAt 0, cs := cs, eflags := s.stackAt 2, esp := s.esp + 12 }
    else do
      let ss := (s.stackAt 4).setWidth 16
      s.iretStack ring ss
      .ok { s with
        eip := s.stackAt 0, cs := cs, eflags := s.stackAt 2, esp := s.stackAt 3, ss := ss
        ds := s.outward ring s.ds, es := s.outward ring s.es
        fs := s.outward ring s.fs, gs := s.outward ring s.gs }

inductive Insn
  | pushImm (v : BitVec 32)
  | pushSeg (r : DataSeg)
  | pushal
  | pushEsp
  /-- `mov $v, %ax`. -/
  | movAx (v : BitVec 16)
  /-- `mov %ax, %r`. -/
  | movSeg (r : DataSeg)
  /-- `call`, with the address it returns to. -/
  | call (ret : BitVec 32)
  /-- `movl $v, %esp`. -/
  | movEsp (v : BitVec 32)
  | addEsp (v : BitVec 32)
  | popal
  | popSeg (r : DataSeg)
  | iret

def exec (s : X86) : Insn → Except Fault X86
  | .pushImm v => .ok (s.pushes [v])
  | .pushSeg r => .ok (s.pushes [s.selWord (s.dataSeg r)])
  | .pushal => .ok (s.pushes [s.eax, s.ecx, s.edx, s.ebx, s.esp, s.ebp, s.esi, s.edi])
  | .pushEsp => .ok (s.pushes [s.esp])
  | .movAx v => .ok { s with eax := s.eax.extractLsb' 16 16 ++ v }
  | .movSeg r => s.loadSeg r (s.eax.setWidth 16)
  | .call ret => .ok (s.pushes [ret])
  | .movEsp v => .ok { s with esp := v }
  | .addEsp v => .ok { s with esp := s.esp + v }
  | .popal =>
      .ok { s with
        edi := s.stackAt 0, esi := s.stackAt 1, ebp := s.stackAt 2, ebx := s.stackAt 4
        edx := s.stackAt 5, ecx := s.stackAt 6, eax := s.stackAt 7, esp := s.esp + 32 }
  | .popSeg r => do
      let s' ← s.loadSeg r ((s.stackAt 0).setWidth 16)
      .ok { s' with esp := s.esp + 4 }
  | .iret => s.iret

def execAll (s : X86) (code : List Insn) : Except Fault X86 := code.foldlM exec s

theorem execAll_append (s : X86) (code code' : List Insn) :
    s.execAll (code ++ code') = s.execAll code >>= fun s' => s'.execAll code' :=
  List.foldlM_append

theorem execAll_cons (s : X86) (i : Insn) (code : List Insn) :
    s.execAll (i :: code) = s.exec i >>= fun s' => s'.execAll code :=
  List.foldlM_cons

theorem execAll_nil (s : X86) : s.execAll [] = .ok s := rfl

theorem exec_movSeg {s : X86} (r : DataSeg) (h : s.loadable (s.eax.setWidth 16) = .ok ()) :
    s.exec (.movSeg r) = .ok (s.setDataSeg r (s.eax.setWidth 16)) := by
  rw [exec, loadSeg, h]
  rfl

theorem exec_popSeg {s : X86} (r : DataSeg) {sel : BitVec 16}
    (hsel : s.mem.read16 s.esp = sel) (hload : s.loadable sel = .ok ()) :
    s.exec (.popSeg r) = .ok { s.setDataSeg r sel with esp := s.esp + 4 } := by
  have htop : (s.stackAt 0).setWidth 16 = sel := by
    rw [stackAt, Nat.mul_zero, BitVec.add_zero, ← Ram.read16_eq, hsel]
  rw [exec, htop, loadSeg, hload]
  rfl

/-- `iret` to an outer ring. -/
theorem iret_outer {s : X86} {cs ss : BitVec 16} (hcpl : s.cpl = 0)
    (hnt : s.eflags.getLsbD 14 = false) (hvm : (s.stackAt 2).getLsbD 17 = false)
    (hcs : (s.stackAt 1).setWidth 16 = cs) (hcode : s.iretCode cs = .ok ())
    (hring : Selector.rpl cs ≠ s.cpl) (hss : (s.stackAt 4).setWidth 16 = ss)
    (hstack : s.iretStack (Selector.rpl cs) ss = .ok ()) :
    s.iret = .ok { s with
      eip := s.stackAt 0, cs := cs, eflags := s.stackAt 2, esp := s.stackAt 3, ss := ss
      ds := s.outward (Selector.rpl cs) s.ds, es := s.outward (Selector.rpl cs) s.es
      fs := s.outward (Selector.rpl cs) s.fs, gs := s.outward (Selector.rpl cs) s.gs } := by
  have hmodelled : ¬ (s.cpl ≠ 0 ∨ s.eflags.getLsbD 14 = true ∨ (s.stackAt 2).getLsbD 17 = true) := by
    rw [hcpl, hnt, hvm]
    decide
  rw [iret]
  dsimp only
  rw [if_neg hmodelled, hcs, hcode, ok_bind, if_neg hring, hss, hstack]
  rfl

/-! ### Ports -/

def iopl (s : X86) : BitVec 2 := s.eflags.extractLsb' 12 2

/-- May the program use the `n` ports from `port`?  If its ring is not inside of `IOPL`, the TSS
says so: none of the bits of the ports is set in the map that starts at the offset at 102.  The
processor reads two bytes of it, which have to be within the limit. -/
def ioPermitted (s : X86) (port : BitVec 16) (n : Nat) : Bool :=
  let off := (s.mem.read16 (s.trBase + 102#32)).toNat + port.toNat / 8
  let bits := s.mem.read16 (s.trBase + BitVec.ofNat 32 off)
  s.cpl ≤ s.iopl ||
    (103 ≤ s.trLimit && off + 1 ≤ s.trLimit &&
      (List.range n).all fun k => !bits.getLsbD (port.toNat % 8 + k))

/-! ### Loading the task register -/

/-- `ltr`, as for the task register. -/
def ltr (s : X86) (sel : BitVec 16) : Except Fault X86 :=
  match s.descriptor sel with
  | none => .error (.gp (Selector.err sel))
  | some d =>
      if ¬ d.availableTss then .error (.gp (Selector.err sel))
      else if ¬ d.present then .error (.np (Selector.err sel))
      else
        .ok { s with
          trBase := d.base, trLimit := d.limit
          gdt := Function.update s.gdt (sel >>> 3).toNat d.busy }

end X86

end Nctuos.Lib
