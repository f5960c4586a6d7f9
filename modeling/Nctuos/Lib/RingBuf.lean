import Mathlib.Data.List.Basic
import Mathlib.Logic.Function.Basic

/-!
# A ring without a count

A ring of `n` cells with a place to write and a place to read, each of which goes round.  It is
empty when the two meet, and nothing stops a writer from going round once more: after `n` elements
that nobody has read the ring is empty again, and they are lost.

What a ring holds is said against everything that was ever written to it.  `Follows r ws q` is that
the elements `ws` were written, in this order, and the next one to be read is number `q`.  A read
moves `q` on by one (`Follows.pop`) and a write leaves it alone, unless it fills the ring, and then
`q` goes behind the end (`Follows.push`).  So `q` never goes back, and what is read is a
subsequence of what was written whatever the number of rounds.
-/

namespace Nctuos.Lib

universe u

variable {α : Type u} {n : Nat}

structure RingBuf (α : Type u) where
  buf : Nat → α
  rpos : Nat
  wpos : Nat

namespace RingBuf

/-- One place on. -/
def next (n p : Nat) : Nat := if p + 1 = n then 0 else p + 1

def push (n : Nat) (r : RingBuf α) (a : α) : RingBuf α :=
  { r with buf := Function.update r.buf r.wpos a, wpos := next n r.wpos }

def pop (n : Nat) (r : RingBuf α) : Option (α × RingBuf α) :=
  if r.rpos ≠ r.wpos then some (r.buf r.rpos, { r with rpos := next n r.rpos }) else none

theorem next_mod (hn : 0 < n) (i : Nat) : next n (i % n) = (i + 1) % n := by
  have hlt := Nat.mod_lt i hn
  rw [next, ← Nat.mod_add_mod i n 1]
  split
  · rename_i heq
    rw [heq, Nat.mod_self]
  · exact (Nat.mod_eq_of_lt (by omega)).symm

/-- Within one round places are different. -/
theorem mod_ne_mod {i j : Nat} (hlt : i < j) (hround : j < i + n) : i % n ≠ j % n := by
  intro heq
  have hmod := Nat.sub_mod_eq_zero_of_mod_eq heq.symm
  rw [Nat.mod_eq_of_lt (by omega)] at hmod
  omega

/-- The elements `ws` were written, and number `q` is the next to be read. -/
structure Follows (n : Nat) (r : RingBuf α) (ws : List α) (q : Nat) : Prop where
  le : q ≤ ws.length
  lt : ws.length < q + n
  rpos : r.rpos = q % n
  wpos : r.wpos = ws.length % n
  buf : ∀ i a, q ≤ i → ws[i]? = some a → r.buf (i % n) = a

theorem Follows.init (hn : 0 < n) {r : RingBuf α} (hr : r.rpos = 0) (hw : r.wpos = 0) :
    Follows n r [] 0 where
  le := Nat.le_refl 0
  lt := by simpa using hn
  rpos := by simpa using hr
  wpos := by simpa using hw
  buf i a _ h := by simp at h

variable {r : RingBuf α} {ws : List α} {q : Nat}

theorem Follows.pos (h : Follows n r ws q) : 0 < n := by
  have := h.le
  have := h.lt
  omega

/-- Both places are in the ring. -/
theorem Follows.inside (h : Follows n r ws q) : r.rpos < n ∧ r.wpos < n := by
  rw [h.rpos, h.wpos]
  exact ⟨Nat.mod_lt _ h.pos, Nat.mod_lt _ h.pos⟩

/-- The places meet when everything has been read, or lost. -/
theorem Follows.meet_iff (h : Follows n r ws q) : r.rpos = r.wpos ↔ q = ws.length := by
  rw [h.rpos, h.wpos]
  constructor
  · intro heq
    by_contra hne
    have hle := h.le
    exact mod_ne_mod (by omega) h.lt heq
  · intro heq
    rw [heq]

theorem Follows.pop_none (h : Follows n r ws q) : r.pop n = none ↔ q = ws.length := by
  rw [RingBuf.pop, ← h.meet_iff]
  simp

theorem Follows.pop {a : α} {r' : RingBuf α} (h : Follows n r ws q) (hpop : r.pop n = some (a, r')) :
    ws[q]? = some a ∧ Follows n r' ws (q + 1) := by
  have hne : q ≠ ws.length := fun heq => by
    rw [h.pop_none.mpr heq] at hpop
    cases hpop
  have hmeet : r.rpos ≠ r.wpos := fun heq => hne (h.meet_iff.mp heq)
  have hlt : q < ws.length := Nat.lt_of_le_of_ne h.le hne
  rw [RingBuf.pop, if_pos hmeet] at hpop
  obtain ⟨rfl, rfl⟩ := Prod.mk.inj (Option.some.inj hpop)
  have hget := List.getElem?_eq_getElem hlt
  refine ⟨?_, ?_, ?_, ?_, h.wpos, fun i a hi => h.buf i a (by omega)⟩
  · rw [hget, h.rpos, h.buf q _ (Nat.le_refl q) hget]
  · omega
  · have := h.lt
    omega
  · change next n r.rpos = (q + 1) % n
    rw [h.rpos, next_mod h.pos]

theorem Follows.push (h : Follows n r ws q) (a : α) :
    Follows n (r.push n a) (ws ++ [a]) (if ws.length + 1 < q + n then q else ws.length + 1) := by
  have hle := h.le
  have hlt := h.lt
  have hlen : (ws ++ [a]).length = ws.length + 1 := by
    rw [List.length_append, List.length_singleton]
  have hwpos : (r.push n a).wpos = (ws ++ [a]).length % n := by
    rw [RingBuf.push, h.wpos, next_mod h.pos, hlen]
  split
  · rename_i hroom
    refine ⟨by omega, by omega, h.rpos, hwpos, fun i b hi hb => ?_⟩
    rcases Nat.lt_or_ge i ws.length with hold | hnew
    · -- an older element is at another place
      rw [List.getElem?_append_left hold] at hb
      have hother := mod_ne_mod hold (show ws.length < i + n by omega)
      change Function.update r.buf r.wpos a (i % n) = b
      rw [h.wpos, Function.update_of_ne hother]
      exact h.buf i b hi hb
    · rw [List.getElem?_append_right hnew, List.getElem?_singleton] at hb
      split at hb
      · obtain rfl := Option.some.inj hb
        change Function.update r.buf r.wpos a (i % n) = a
        rw [h.wpos, show i = ws.length by omega, Function.update_self]
      · cases hb
  · -- the ring has gone round: the places meet, and nothing is left to read
    rename_i hfull
    refine ⟨by omega, by omega, ?_, hwpos, fun i b hi hb => ?_⟩
    · change r.rpos = (ws.length + 1) % n
      rw [h.rpos, show ws.length + 1 = q + n by omega, Nat.add_mod_right]
    · have hlt := (List.getElem?_eq_some_iff.mp hb).1
      omega

end RingBuf

end Nctuos.Lib
