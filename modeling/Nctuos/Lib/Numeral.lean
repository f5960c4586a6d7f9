import Mathlib.Data.Nat.Digits.Lemmas

/-!
# Numerals

How a number is written in a base: the most significant digit first, without leading zeros, and with
one digit for 0.  A number has only one numeral (`Numeral.unique`), and it is found digit by digit
from the last one on (`Numeral.single`, `Numeral.concat`).
-/

namespace Nctuos.Lib

variable {b n d k : Nat} {ds ds' : List Nat}

/-- The number that the digits stand for. -/
def readDigits (b : Nat) (ds : List Nat) : Nat := ds.foldl (fun n d => n * b + d) 0

theorem readDigits_singleton : readDigits b [d] = d := by
  rw [readDigits, List.foldl_cons, List.foldl_nil, Nat.zero_mul, Nat.zero_add]

theorem readDigits_concat : readDigits b (ds ++ [d]) = readDigits b ds * b + d :=
  List.foldl_concat ..

theorem readDigits_eq_ofDigits : readDigits b ds = Nat.ofDigits b ds.reverse := by
  induction ds using List.reverseRecOn with
  | nil => rfl
  | append_singleton ds d ih =>
      rw [readDigits_concat, ih, List.reverse_concat, Nat.ofDigits_cons, Nat.mul_comm, Nat.add_comm]

/-- The digits of `n` in base `b`. -/
structure Numeral (b n : Nat) (ds : List Nat) : Prop where
  ne_nil : ds ≠ []
  lt : ∀ d ∈ ds, d < b
  head : ∀ rest, ds = 0 :: rest → rest = []
  value : readDigits b ds = n

namespace Numeral

theorem single (h : n < b) : Numeral b n [n] where
  ne_nil := List.cons_ne_nil n []
  lt _ hd := List.mem_singleton.mp hd ▸ h
  head _ hrest := (List.cons.inj hrest).2.symm
  value := readDigits_singleton

/-- A digit more. -/
theorem concat (h : Numeral b (n / b) ds) (hb : 0 < b) (hn : b ≤ n) :
    Numeral b n (ds ++ [n % b]) where
  ne_nil := List.concat_ne_nil (n % b) ds
  lt d hd := by
    rcases List.mem_append.mp hd with hd | hd
    · exact h.lt d hd
    · exact List.mem_singleton.mp hd ▸ Nat.mod_lt n hb
  head rest hrest := by
    obtain ⟨d, ds', rfl⟩ := List.exists_cons_of_ne_nil h.ne_nil
    obtain ⟨rfl, -⟩ := List.cons.inj hrest
    -- the digits in front would be those of 0
    obtain rfl := h.head ds' rfl
    have hzero : 0 = n / b := readDigits_singleton.symm.trans h.value
    exact absurd hzero (Nat.div_pos hn hb).ne
  value := by rw [readDigits_concat, h.value, Nat.div_add_mod']

/-- Digits that do not begin with a 0 are those of `Nat.digits`. -/
theorem reverse_eq (h : Numeral b n ds) (hb : 1 < b) (hds : ds ≠ [0]) : ds.reverse = Nat.digits b n := by
  rw [← h.value, readDigits_eq_ofDigits]
  refine (Nat.digits_ofDigits b hb ds.reverse (fun d hd => h.lt d (List.mem_reverse.mp hd)) ?_).symm
  intro hne hlast
  rw [List.getLast_reverse] at hlast
  obtain ⟨d, rest, rfl⟩ := List.exists_cons_of_ne_nil h.ne_nil
  rw [List.head_cons] at hlast
  subst hlast
  exact hds (by rw [h.head rest rfl])

theorem eq_singleton_zero (h : Numeral b 0 ds) (hb : 1 < b) : ds = [0] := by
  by_contra hds
  have hrev := h.reverse_eq hb hds
  rw [Nat.digits_zero, List.reverse_eq_nil_iff] at hrev
  exact h.ne_nil hrev

theorem ne_singleton_zero (h : Numeral b n ds) (hn : n ≠ 0) : ds ≠ [0] := by
  rintro rfl
  exact hn (h.value.symm.trans readDigits_singleton)

theorem unique (h : Numeral b n ds) (h' : Numeral b n ds') (hb : 1 < b) : ds = ds' := by
  by_cases hn : n = 0
  · subst hn
    rw [h.eq_singleton_zero hb, h'.eq_singleton_zero hb]
  · refine List.reverse_injective ?_
    rw [h.reverse_eq hb (h.ne_singleton_zero hn), h'.reverse_eq hb (h'.ne_singleton_zero hn)]

theorem length_le (h : Numeral b n ds) (hb : 1 < b) (hk : 0 < k) (hn : n < b ^ k) :
    ds.length ≤ k := by
  by_cases hzero : n = 0
  · subst hzero
    rw [h.eq_singleton_zero hb]
    exact hk
  · rw [← List.length_reverse, h.reverse_eq hb (h.ne_singleton_zero hzero)]
    exact (Nat.digits_length_le_iff hb n).mpr hn

end Numeral

end Nctuos.Lib
