import Nctuos.PrintFmt
import Nctuos.Lib.CArray

/-!
# String functions

`strlen`, `strcpy`, `strncmp`, `strcmp` and `strchr` of `lib/string.c`.  A pointer is given by what
can be loaded through it, from index 0 on: a char array can be loaded inside of its bounds, and a
string constant up to its NUL.  A store outside of an array is a fault.

A loop that would not find a NUL runs into the end of what can be loaded, so it takes no more turns
than that, and its fuel is never used up.
-/

namespace Nctuos

open Lib

abbrev CharPtr : Type := Nat → Except Stop (BitVec 8)

/-- An element of an array, by an `int`. -/
def loadAt {α : Type} {n : Nat} (a : CArray α n) (i : Int) : Except Stop α :=
  if i < 0 then .error .fault
  else
    match a.get? i.toNat with
    | some x => .ok x
    | none => .error .fault

def storeAt {α : Type} {n : Nat} (a : CArray α n) (i : Int) (x : α) : Except Stop (CArray α n) :=
  if i < 0 then .error .fault
  else
    match a.set? i.toNat x with
    | some a => .ok a
    | none => .error .fault

/-- A pointer into an array. -/
def ptr {n : Nat} (a : CArray (BitVec 8) n) (p : Nat) : CharPtr := fun j => loadAt a (p + j : Nat)

/-- A string constant. -/
def literal (s : List (BitVec 8)) : CharPtr := fmtByte s

/-! ## The functions -/

def strlenFrom (s : CharPtr) : Nat → Nat → Except Stop Nat
  | 0, _ => .error .hang
  | fuel + 1, j => do
      let c ← s j
      if c ≠ 0 then strlenFrom s fuel (j + 1) else .ok j

def strcpyFrom {n : Nat} (src : CharPtr) :
    Nat → CArray (BitVec 8) n → Nat → Except Stop (CArray (BitVec 8) n)
  | 0, _, _ => .error .hang
  | fuel + 1, dst, j => do
      let c ← src j
      let dst ← storeAt dst j c
      if c ≠ 0 then strcpyFrom src fuel dst (j + 1) else .ok dst

/-- The difference of two characters, as `unsigned char`s. -/
def charDiff (c d : BitVec 8) : Int := c.toNat - d.toNat

def strcmpFrom (p q : CharPtr) : Nat → Nat → Except Stop Int
  | 0, _ => .error .hang
  | fuel + 1, j => do
      let c ← p j
      let d ← q j
      if c ≠ 0 ∧ c = d then strcmpFrom p q fuel (j + 1) else .ok (charDiff c d)

/-- `n` characters at most. -/
def strncmpFrom (p q : CharPtr) : Nat → Nat → Except Stop Int
  | 0, _ => .ok 0
  | n + 1, j => do
      let c ← p j
      let d ← q j
      if c ≠ 0 ∧ c = d then strncmpFrom p q n (j + 1) else .ok (charDiff c d)

/-- The characters of a string, as `%s` puts them. -/
def strReadFrom (s : CharPtr) : Nat → Nat → Except Stop (List (BitVec 8))
  | 0, _ => .error .hang
  | fuel + 1, j => do
      let c ← s j
      if c ≠ 0 then do
        let t ← strReadFrom s fuel (j + 1)
        .ok (c :: t)
      else .ok []

/-- The rest of the string from the character on. -/
def strchr (c : BitVec 8) : List (BitVec 8) → Option (List (BitVec 8))
  | [] => none
  | d :: s => if d = c then some (d :: s) else strchr c s

/-- More than a string in one of the arrays can have. -/
def strFuel : Nat := 1025

def strlen (s : CharPtr) : Except Stop Nat := strlenFrom s strFuel 0

def strcpy {n : Nat} (dst : CArray (BitVec 8) n) (src : CharPtr) :
    Except Stop (CArray (BitVec 8) n) := strcpyFrom src strFuel dst 0

def strncmp (p q : CharPtr) (n : Nat) : Except Stop Int := strncmpFrom p q n 0

/-! ## What they do with strings -/

/-- From index `j` on there is a string, with its NUL. -/
def ReadsAs (s : CharPtr) : Nat → List (BitVec 8) → Prop
  | j, [] => s j = .ok 0
  | j, c :: t => s j = .ok c ∧ c ≠ 0 ∧ ReadsAs s (j + 1) t

section Strings

variable {n j fuel : Nat} {s p q : CharPtr} {t t' l : List (BitVec 8)} {a : CArray (BitVec 8) n}

theorem strlenFrom_ok (h : ReadsAs s j t) (hfuel : t.length < fuel) :
    strlenFrom s fuel j = .ok (j + t.length) := by
  induction t generalizing j fuel with
  | nil =>
      obtain ⟨fuel, rfl⟩ := Nat.exists_eq_succ_of_ne_zero (Nat.ne_of_gt hfuel)
      change s j = .ok 0 at h
      rw [strlenFrom, h]
      rfl
  | cons c t ih =>
      obtain ⟨fuel, rfl⟩ := Nat.exists_eq_succ_of_ne_zero (Nat.ne_zero_of_lt hfuel)
      obtain ⟨hc, hne, ht⟩ := h
      rw [strlenFrom, hc, ok_bind, if_pos hne, ih ht (Nat.lt_of_succ_lt_succ hfuel),
        List.length_cons, Nat.add_assoc, Nat.add_comm 1]

theorem storeAt_ok {α : Type} (a : CArray α n) (x : α) (h : j < n) :
    ∃ a', storeAt a j x = .ok a' ∧ ∀ i, a'.get? i = if i = j then some x else a.get? i := by
  obtain ⟨a', hset, hget⟩ := a.exists_set x h
  refine ⟨a', ?_, hget⟩
  rw [storeAt, if_neg (by omega), Int.toNat_natCast, hset]

theorem strReadFrom_ok (h : ReadsAs s j t) (hfuel : t.length < fuel) :
    strReadFrom s fuel j = .ok t := by
  induction t generalizing j fuel with
  | nil =>
      obtain ⟨fuel, rfl⟩ := Nat.exists_eq_succ_of_ne_zero (Nat.ne_of_gt hfuel)
      change s j = .ok 0 at h
      rw [strReadFrom, h]
      rfl
  | cons c t ih =>
      obtain ⟨fuel, rfl⟩ := Nat.exists_eq_succ_of_ne_zero (Nat.ne_zero_of_lt hfuel)
      obtain ⟨hc, hne, ht⟩ := h
      rw [strReadFrom, hc, ok_bind, if_pos hne, ih ht (Nat.lt_of_succ_lt_succ hfuel)]
      rfl

/-- The string and its NUL are copied, and nothing else. -/
theorem strcpyFrom_ok (h : ReadsAs s j t) (hfuel : t.length < fuel) (hfits : j + t.length < n)
    (dst : CArray (BitVec 8) n) :
    ∃ dst', strcpyFrom s fuel dst j = .ok dst' ∧ dst'.At j (t ++ [0]) ∧
      ∀ i, i < j ∨ j + t.length < i → dst'.get? i = dst.get? i := by
  induction t generalizing j fuel dst with
  | nil =>
      obtain ⟨fuel, rfl⟩ := Nat.exists_eq_succ_of_ne_zero (Nat.ne_of_gt hfuel)
      change s j = .ok 0 at h
      rw [List.length_nil, Nat.add_zero] at hfits
      obtain ⟨dst', hstore, hget⟩ := storeAt_ok dst 0 hfits
      refine ⟨dst', ?_, ⟨(hget j).trans (if_pos rfl), trivial⟩, fun i hi => ?_⟩
      · rw [strcpyFrom, h, ok_bind, hstore]
        rfl
      · rw [hget, if_neg]
        rw [List.length_nil] at hi
        omega
  | cons c t ih =>
      obtain ⟨fuel, rfl⟩ := Nat.exists_eq_succ_of_ne_zero (Nat.ne_zero_of_lt hfuel)
      obtain ⟨hc, hne, ht⟩ := h
      rw [List.length_cons] at hfits hfuel
      obtain ⟨dst₁, hstore, hget⟩ := storeAt_ok dst c (by omega : j < n)
      obtain ⟨dst', hcopy, hat, hrest⟩ := ih ht (Nat.lt_of_succ_lt_succ hfuel) (by omega) dst₁
      refine ⟨dst', ?_, ⟨?_, hat⟩, fun i hi => ?_⟩
      · rw [strcpyFrom, hc, ok_bind, hstore, ok_bind, if_pos hne]
        exact hcopy
      · rw [hrest j (Or.inl (Nat.lt_succ_self j)), hget, if_pos rfl]
      · rw [List.length_cons] at hi
        rw [hrest i (by omega), hget, if_neg (by omega)]

theorem charDiff_eq_zero {c d : BitVec 8} : charDiff c d = 0 ↔ c = d := by
  rw [charDiff]
  constructor
  · intro h
    exact BitVec.eq_of_toNat_eq (by omega)
  · rintro rfl
    omega

/-- Strings are compared to the end of one of them. -/
theorem strcmpFrom_ok (hp : ReadsAs p j t) (hq : ReadsAs q j t') (hfuel : t'.length < fuel) :
    ∃ r, strcmpFrom p q fuel j = .ok r ∧ (r = 0 ↔ t = t') := by
  induction t' generalizing j fuel t with
  | nil =>
      obtain ⟨fuel, rfl⟩ := Nat.exists_eq_succ_of_ne_zero (Nat.ne_of_gt hfuel)
      change q j = .ok 0 at hq
      cases t with
      | nil =>
          change p j = .ok 0 at hp
          refine ⟨charDiff 0 0, ?_, iff_of_true rfl rfl⟩
          rw [strcmpFrom, hp, ok_bind, hq]
          rfl
      | cons c t =>
          obtain ⟨hc, hne, -⟩ := hp
          refine ⟨charDiff c 0, ?_, ?_⟩
          · rw [strcmpFrom, hc, ok_bind, hq, ok_bind, if_neg fun h => hne h.2]
          · rw [charDiff_eq_zero]
            exact iff_of_false hne (List.cons_ne_nil c t)
  | cons d t' ih =>
      obtain ⟨fuel, rfl⟩ := Nat.exists_eq_succ_of_ne_zero (Nat.ne_zero_of_lt hfuel)
      obtain ⟨hd, hne, ht'⟩ := hq
      cases t with
      | nil =>
          change p j = .ok 0 at hp
          refine ⟨charDiff 0 d, ?_, ?_⟩
          · rw [strcmpFrom, hp, ok_bind, hd]
            rfl
          · rw [charDiff_eq_zero]
            exact iff_of_false (Ne.symm hne) (List.cons_ne_nil d t').symm
      | cons c t =>
          obtain ⟨hc, hne', ht⟩ := hp
          by_cases hcd : c = d
          · subst hcd
            obtain ⟨r, hr, hiff⟩ := ih ht ht' (Nat.lt_of_succ_lt_succ hfuel)
            refine ⟨r, ?_, ?_⟩
            · rw [strcmpFrom, hc, ok_bind, hd, ok_bind, if_pos ⟨hne, rfl⟩, hr]
            · rw [hiff, List.cons.injEq, and_iff_right rfl]
          · refine ⟨charDiff c d, ?_, ?_⟩
            · rw [strcmpFrom, hc, ok_bind, hd, ok_bind, if_neg fun h => hcd h.2]
            · rw [charDiff_eq_zero]
              exact iff_of_false hcd fun h => hcd (List.cons.inj h).1

/-- As many characters as there are in `l`: the string begins with them, or not. -/
theorem strncmpFrom_ok (hp : ReadsAs p j t) (hq : ∀ i (hi : i < l.length), q (j + i) = .ok l[i])
    (hl : 0 ∉ l) : ∃ r, strncmpFrom p q l.length j = .ok r ∧ (r = 0 ↔ l <+: t) := by
  induction l generalizing j t with
  | nil => exact ⟨0, rfl, iff_of_true rfl List.nil_prefix⟩
  | cons d l ih =>
      rw [List.mem_cons, not_or] at hl
      have hd : q j = .ok d := hq 0 (Nat.succ_pos _)
      have hq' : ∀ i (hi : i < l.length), q (j + 1 + i) = .ok l[i] := by
        intro i hi
        rw [Nat.add_assoc, Nat.add_comm 1]
        exact hq (i + 1) (Nat.succ_lt_succ hi)
      cases t with
      | nil =>
          change p j = .ok 0 at hp
          refine ⟨charDiff 0 d, ?_, ?_⟩
          · rw [List.length_cons, strncmpFrom, hp, ok_bind, hd]
            rfl
          · rw [charDiff_eq_zero]
            exact iff_of_false hl.1 fun h => absurd (List.prefix_nil.mp h) (List.cons_ne_nil d l)
      | cons c t =>
          obtain ⟨hc, hne, ht⟩ := hp
          by_cases hcd : c = d
          · subst hcd
            obtain ⟨r, hr, hiff⟩ := ih ht hq' hl.2
            refine ⟨r, ?_, ?_⟩
            · rw [List.length_cons, strncmpFrom, hc, ok_bind, hd, ok_bind, if_pos ⟨hne, rfl⟩, hr]
            · rw [hiff, List.cons_prefix_cons, and_iff_right rfl]
          · refine ⟨charDiff c d, ?_, ?_⟩
            · rw [List.length_cons, strncmpFrom, hc, ok_bind, hd, ok_bind, if_neg fun h => hcd h.2]
            · rw [charDiff_eq_zero, List.cons_prefix_cons]
              exact iff_of_false hcd fun h => hcd h.1.symm

theorem strchr_isSome {c : BitVec 8} : (strchr c t).isSome ↔ c ∈ t := by
  induction t with
  | nil => exact iff_of_false Bool.false_ne_true List.not_mem_nil
  | cons d t ih =>
      rw [strchr, List.mem_cons]
      split
      · rename_i heq
        exact iff_of_true rfl (Or.inl heq.symm)
      · rename_i hne
        rw [ih, or_iff_right (Ne.symm hne)]

/-! ### Where strings are -/

theorem loadAt_of_get? {α : Type} {a : CArray α n} {i : Nat} {x : α} (h : a.get? i = some x) :
    loadAt a i = .ok x := by
  rw [loadAt, if_neg (by omega), Int.toNat_natCast, h]

/-- A string in an array. -/
theorem readsAs_ptr {i : Nat} (h : a.At (i + j) (t ++ [0])) (ht : 0 ∉ t) :
    ReadsAs (ptr a i) j t := by
  induction t generalizing j with
  | nil => exact loadAt_of_get? h.1
  | cons c t ih =>
      rw [List.mem_cons, not_or] at ht
      exact ⟨loadAt_of_get? h.1, Ne.symm ht.1, ih h.2 ht.2⟩

/-- A string constant. -/
theorem readsAs_literal (t' : List (BitVec 8)) (ht : 0 ∉ t) :
    ReadsAs (literal (t' ++ t)) t'.length t := by
  induction t generalizing t' with
  | nil =>
      change fmtByte (t' ++ []) t'.length = .ok 0
      rw [List.append_nil, fmtByte, List.getElem?_append_right le_rfl, Nat.sub_self]
      rfl
  | cons c t ih =>
      rw [List.mem_cons, not_or] at ht
      refine ⟨?_, Ne.symm ht.1, ?_⟩
      · rw [literal, fmtByte, List.append_assoc, List.getElem?_append_right le_rfl, Nat.sub_self]
        rfl
      · have := ih (t' ++ [c]) ht.2
        rw [List.append_assoc, List.length_append] at this
        exact this

end Strings

end Nctuos
