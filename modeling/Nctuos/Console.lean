import Nctuos.Keyboard
import Nctuos.Lib.RingBuf
import Nctuos.Lib.Run

/-!
# The console's input buffer

The second half of `kernel/kbd.c`: `cons_intr` puts the characters of the keyboard into a ring of
`CONSBUFSIZE` bytes, and `cons_getc` takes them out.  There is no count and no test for a full
ring, so empty and full are one: the character that fills it makes all that are in it disappear.

This is a queue all the same.  What `cons_getc` returns over any run is a subsequence of what was
delivered, and if there are never `CONSBUFSIZE` characters that nobody has read it is the first of
them, in order, with 0 returned when there are no others (`console_fifo`).  The ring is that of
`Lib.RingBuf`, and the whole proof is to carry `RingBuf.Follows` along.
-/

namespace Nctuos

open Lib

def consbufsize : Nat := 512

/-- The struct `cons`. -/
abbrev Cons := RingBuf (BitVec 8)

/-- `cons_intr(proc)`, by what `proc` returns from call to call (`none` for `-1`, which it also
returns when the list is at an end). -/
def consIntr : List (Option (BitVec 8)) → Cons → Cons
  | [], k => k
  | none :: _, k => k
  | some c :: cs, k =>
      if c = 0 then consIntr cs k
      else
        let k := { k with buf := Function.update k.buf k.wpos c, wpos := k.wpos + 1 }
        if k.wpos = consbufsize then { k with wpos := 0 } else k

def consGetc (k : Cons) : BitVec 8 × Cons :=
  if k.rpos ≠ k.wpos then
    let c := k.buf k.rpos
    let k := { k with rpos := k.rpos + 1 }
    if k.rpos = consbufsize then (c, { k with rpos := 0 }) else (c, k)
  else (0, k)

/-! ## The keyboard interrupt -/

/-- `kbd_intr`, which is `cons_intr(kbd_proc_data)`: at most `n` turns of its loop. -/
def kbdIntr : Nat → Kbd → Cons → Kbd × Cons
  | 0, s, k => (s, k)
  | n + 1, s, k =>
      match (kbdProcData s).1 with
      | none => ((kbdProcData s).2, k)
      | some c =>
          if c = 0 then kbdIntr n (kbdProcData s).2 k else ((kbdProcData s).2, consIntr [some c] k)

/-- What `kbd_proc_data` returns in `n` calls. -/
def kbdResults : Nat → Kbd → List (Option (BitVec 8))
  | 0, _ => []
  | n + 1, s => (kbdProcData s).1 :: kbdResults n (kbdProcData s).2

/-- To the buffer, the keyboard is one of the devices `cons_intr` can be called for. -/
theorem kbdIntr_cons (n : Nat) (s : Kbd) (k : Cons) :
    (kbdIntr n s k).2 = consIntr (kbdResults n s) k := by
  induction n generalizing s with
  | zero => rfl
  | succ n ih =>
      rw [kbdIntr, kbdResults]
      cases (kbdProcData s).1 with
      | none => rfl
      | some c =>
          by_cases hc : c = 0
          · simp only [hc, if_true, consIntr]
            exact ih _
          · simp only [hc, if_false, consIntr]

/-! ## Runs -/

/-- A call, with what it is given and what it returns. -/
inductive ConsCall
  | intr (cs : List (Option (BitVec 8)))
  | getc (c : BitVec 8)

def ConsStep (k : Cons) (l : ConsCall) (k' : Cons) : Prop :=
  match l with
  | .intr cs => k' = consIntr cs k
  | .getc c => consGetc k = (c, k')

/-- The character that a call of `cons_intr` delivers: the first that is not 0. -/
def deliveredBy : List (Option (BitVec 8)) → Option (BitVec 8)
  | [] => none
  | none :: _ => none
  | some c :: cs => if c = 0 then deliveredBy cs else some c

/-- The characters delivered in a run. -/
def delivered (ls : List ConsCall) : List (BitVec 8) :=
  ls.filterMap fun
    | .intr cs => deliveredBy cs
    | .getc _ => none

/-- The results of `cons_getc` in a run that are not 0. -/
def results (ls : List ConsCall) : List (BitVec 8) :=
  ls.filterMap fun
    | .intr _ => none
    | .getc c => if c = 0 then none else some c

/-- At no point of the run have `CONSBUFSIZE` characters been delivered that were not returned. -/
def NeverFull (ls : List ConsCall) : Prop :=
  ∀ ms, ms <+: ls → (delivered ms).length ≤ (results ms).length + (consbufsize - 1)

section Calls

variable {k k' : Cons} {c : BitVec 8} {cs : List (Option (BitVec 8))} {ls : List ConsCall}

theorem consIntr_eq (cs : List (Option (BitVec 8))) (k : Cons) :
    consIntr cs k =
      match deliveredBy cs with
      | none => k
      | some c => k.push consbufsize c := by
  induction cs with
  | nil => rfl
  | cons o cs ih =>
      cases o with
      | none => rfl
      | some c =>
          rw [consIntr, deliveredBy]
          by_cases hc : c = 0
          · simp only [hc, if_true]
            exact ih
          · simp only [hc, if_false, RingBuf.push, RingBuf.next]
            split <;> rfl

theorem consGetc_eq (k : Cons) :
    consGetc k =
      match k.pop consbufsize with
      | none => (0, k)
      | some r => r := by
  rw [consGetc, RingBuf.pop]
  by_cases hne : k.rpos ≠ k.wpos
  · simp only [if_pos hne, RingBuf.next]
    split <;> rfl
  · simp only [if_neg hne]

theorem deliveredBy_ne_zero (h : deliveredBy cs = some c) : c ≠ 0 := by
  induction cs with
  | nil => cases h
  | cons o cs ih =>
      cases o with
      | none => cases h
      | some d =>
          rw [deliveredBy] at h
          split at h
          · exact ih h
          · rename_i hd
            rwa [← Option.some.inj h]

theorem delivered_ne_zero (h : c ∈ delivered ls) : c ≠ 0 := by
  obtain ⟨l, -, hl⟩ := List.mem_filterMap.mp h
  cases l with
  | intr cs => exact deliveredBy_ne_zero hl
  | getc c => cases hl

end Calls

/-! ## The queue -/

section Queue

variable {ls : List ConsCall} {k k' : Cons} {l : ConsCall}

theorem delivered_append (ls ms : List ConsCall) :
    delivered (ls ++ ms) = delivered ls ++ delivered ms := List.filterMap_append

theorem results_append (ls ms : List ConsCall) :
    results (ls ++ ms) = results ls ++ results ms := List.filterMap_append

/-- Where a run has brought the ring: the next character to be read, with all that was returned
from before it.  If the ring was never full, that is all there is before it. -/
structure ConsQueued (ls : List ConsCall) (k : Cons) (q : Nat) : Prop where
  follows : k.Follows consbufsize (delivered ls) q
  sublist : (results ls).Sublist ((delivered ls).take q)
  exact : NeverFull ls → results ls = (delivered ls).take q

/-- An interrupt. -/
theorem ConsQueued.intr {q : Nat} (h : ConsQueued ls k q) (cs : List (Option (BitVec 8))) :
    ∃ q', ConsQueued (ls ++ [.intr cs]) (consIntr cs k) q' := by
  have hres : results (ls ++ [.intr cs]) = results ls := by
    rw [results_append]
    exact List.append_nil _
  rw [consIntr_eq]
  cases hc : deliveredBy cs with
  | none =>
      have hdel : delivered (ls ++ [.intr cs]) = delivered ls := by
        rw [delivered_append]
        simp [delivered, hc]
      refine ⟨q, ?_, ?_, fun hnever => ?_⟩
      · rw [hdel]
        exact h.follows
      · rw [hdel, hres]
        exact h.sublist
      · rw [hdel, hres]
        exact h.exact fun ms hms => hnever ms (hms.trans (List.prefix_append _ _))
  | some c =>
      have hdel : delivered (ls ++ [.intr cs]) = delivered ls ++ [c] := by
        rw [delivered_append]
        simp [delivered, hc]
      have hle := h.follows.le
      have htake : (delivered ls ++ [c]).take q = (delivered ls).take q :=
        List.take_append_of_le_length hle
      refine ⟨_, hdel ▸ h.follows.push c, ?_, fun hnever => ?_⟩
      · rw [hdel, hres]
        refine h.sublist.trans (htake ▸ List.take_sublist_take_left ?_)
        split <;> omega
      · -- as many as were returned are before `q`, so there is room
        have hexact := h.exact fun ms hms => hnever ms (hms.trans (List.prefix_append _ _))
        have hlen : (results ls).length = q := by rw [hexact, List.length_take, Nat.min_eq_left hle]
        have hroom := hnever _ (List.prefix_refl _)
        rw [hdel, hres, hlen, List.length_append, List.length_singleton] at hroom
        have hsize : 0 < consbufsize := by decide
        rw [hdel, hres, if_pos (by omega), htake]
        exact hexact

/-- A call of `cons_getc`. -/
theorem ConsQueued.getc {q : Nat} {c : BitVec 8} (h : ConsQueued ls k q) (hc : consGetc k = (c, k')) :
    ∃ q', ConsQueued (ls ++ [.getc c]) k' q' := by
  have hdel : delivered (ls ++ [.getc c]) = delivered ls := by
    rw [delivered_append]
    exact List.append_nil _
  have hbefore : NeverFull (ls ++ [.getc c]) → NeverFull ls := fun hnever ms hms =>
    hnever ms (hms.trans (List.prefix_append _ _))
  rw [consGetc_eq] at hc
  cases hpop : k.pop consbufsize with
  | none =>
      rw [hpop] at hc
      obtain ⟨rfl, rfl⟩ := Prod.mk.inj hc
      have hres : results (ls ++ [.getc 0]) = results ls := by
        rw [results_append]
        exact List.append_nil _
      refine ⟨q, hdel ▸ h.follows, ?_, fun hnever => ?_⟩
      · rw [hdel, hres]
        exact h.sublist
      · rw [hdel, hres]
        exact h.exact (hbefore hnever)
  | some r =>
      rw [hpop] at hc
      obtain rfl : r = (c, k') := hc
      obtain ⟨hget, hfollows⟩ := h.follows.pop hpop
      have hne : c ≠ 0 := delivered_ne_zero (List.mem_of_getElem? hget)
      have hres : results (ls ++ [.getc c]) = results ls ++ [c] := by
        rw [results_append]
        exact congrArg _ (List.filterMap_cons_some (if_neg hne))
      have htake : (delivered ls).take (q + 1) = (delivered ls).take q ++ [c] := by
        rw [List.take_add_one, hget, Option.toList_some]
      refine ⟨q + 1, hdel ▸ hfollows, ?_, fun hnever => ?_⟩
      · rw [hdel, hres, htake]
        exact h.sublist.append_right [c]
      · rw [hdel, hres, htake, h.exact (hbefore hnever)]

theorem consQueued_of_run {k₀ : Cons} (hr : k₀.rpos = 0) (hw : k₀.wpos = 0)
    (hrun : Run ConsStep k₀ ls k) : ∃ q, ConsQueued ls k q := by
  refine hrun.history_invariant (I := fun ls k => ∃ q, ConsQueued ls k q) ?_ ?_
  · exact ⟨0, RingBuf.Follows.init (by decide) hr hw, List.Sublist.refl _, fun _ => rfl⟩
  · rintro ms k l k' - ⟨q, hq⟩ hstep
    cases l with
    | intr cs =>
        obtain rfl := hstep
        exact hq.intr cs
    | getc c => exact hq.getc hstep

end Queue

/-- **The console's input buffer is a queue.**  After any run of interrupts and reads the two places
are in the buffer, and what was returned is a subsequence of what was delivered; if there were never
`CONSBUFSIZE` characters waiting it is the beginning of it, and `cons_getc` returns 0 when there is
nothing else. -/
theorem console_fifo {k₀ k : Cons} {ls : List ConsCall} (hr : k₀.rpos = 0) (hw : k₀.wpos = 0)
    (hrun : Run ConsStep k₀ ls k) :
    (k.rpos < consbufsize ∧ k.wpos < consbufsize) ∧
    (results ls).Sublist (delivered ls) ∧
    (NeverFull ls →
      results ls <+: delivered ls ∧ ((consGetc k).1 = 0 ↔ results ls = delivered ls)) := by
  obtain ⟨q, hq⟩ := consQueued_of_run hr hw hrun
  refine ⟨hq.follows.inside, hq.sublist.trans (List.take_sublist _ _), fun hnever => ?_⟩
  have hexact := hq.exact hnever
  refine ⟨hexact ▸ List.take_prefix _ _, ?_⟩
  -- all have been returned when the next is behind the last
  have hall : results ls = delivered ls ↔ q = (delivered ls).length := by
    have hle := hq.follows.le
    rw [hexact, List.take_eq_self_iff]
    omega
  rw [hall, ← hq.follows.pop_none, consGetc_eq]
  cases hpop : k.pop consbufsize with
  | none => simp
  | some r =>
      have hne := delivered_ne_zero (List.mem_of_getElem? (hq.follows.pop hpop).1)
      exact iff_of_false hne (by simp)

/-! A run that goes round the ring. -/

/-- So many times an `a` is typed, and read at once. -/
def echoed : Nat → List ConsCall
  | 0 => []
  | n + 1 => echoed n ++ [.intr [some 0x61], .getc 0x61]

section Echo

variable {ls : List ConsCall} {n : Nat}

/-- A few calls more do not fill the ring if there is room for that many characters. -/
theorem NeverFull.append (h : NeverFull ls) {ms : List ConsCall}
    (hroom : (delivered ls).length + ms.length ≤ (results ls).length + (consbufsize - 1)) :
    NeverFull (ls ++ ms) := by
  intro hs hhs
  rcases List.prefix_or_prefix_of_prefix hhs (List.prefix_append ls ms) with hbefore | ⟨ps, rfl⟩
  · exact h hs hbefore
  · have hlen := ((List.prefix_append_right_inj ls).mp hhs).length_le
    have hle : (delivered ps).length ≤ ps.length := List.length_filterMap_le _ _
    rw [delivered_append, results_append, List.length_append, List.length_append]
    omega

theorem echoed_lists (n : Nat) :
    delivered (echoed n) = List.replicate n 0x61 ∧ results (echoed n) = List.replicate n 0x61 := by
  induction n with
  | zero => exact ⟨rfl, rfl⟩
  | succ n ih =>
      rw [echoed, delivered_append, results_append, ih.1, ih.2, List.replicate_succ']
      exact ⟨rfl, rfl⟩

theorem neverFull_echoed (n : Nat) : NeverFull (echoed n) := by
  induction n with
  | zero =>
      intro ms hms
      rw [List.prefix_nil.mp hms]
      exact Nat.zero_le _
  | succ n ih =>
      refine ih.append ?_
      rw [(echoed_lists n).1, (echoed_lists n).2]
      exact Nat.add_le_add_left (by decide) _

/-- After fewer than a round both places are that many cells on. -/
theorem echoed_run (hn : n < consbufsize) :
    ∃ buf, Run ConsStep ⟨fun _ => 0, 0, 0⟩ (echoed n) ⟨buf, n, n⟩ := by
  induction n with
  | zero => exact ⟨_, .nil _⟩
  | succ n ih =>
      obtain ⟨buf, hrun⟩ := ih (by omega)
      have hne : n + 1 ≠ consbufsize := Nat.ne_of_lt hn
      have hintr : ConsStep ⟨buf, n, n⟩ (.intr [some 0x61])
          ⟨Function.update buf n 0x61, n, n + 1⟩ := by
        simp [ConsStep, consIntr, hne]
      have hgetc : ConsStep ⟨Function.update buf n 0x61, n, n + 1⟩ (.getc 0x61)
          ⟨Function.update buf n 0x61, n + 1, n + 1⟩ := by
        simp [ConsStep, consGetc, hne]
      exact ⟨_, hrun.append (.cons hintr (.cons hgetc (.nil _)))⟩

end Echo

/-- When 511 characters have gone through, `a`, `b` and `c` are typed into the last cell of the
buffer and the first two, read in this order, and not read again. -/
theorem console_fifo_round :
    let ls := echoed 511 ++ [.intr [some 0, some 0x61], .intr [some 0x62], .intr [some 0x63],
      .getc 0x61, .getc 0x62, .getc 0x63]
    ∃ k : Cons, Run ConsStep ⟨fun _ => 0, 0, 0⟩ ls k ∧ k.rpos = 2 ∧ results ls <+: delivered ls ∧
      (consGetc k).1 = 0 := by
  intro ls
  obtain ⟨buf, hbefore⟩ := @echoed_run 511 (by decide)
  have hrun : Run ConsStep ⟨fun _ => 0, 0, 0⟩ ls _ := hbefore.append
    (.cons rfl (.cons rfl (.cons rfl (.cons rfl (.cons rfl (.cons rfl (.nil _)))))))
  have hnever : NeverFull ls := by
    refine (neverFull_echoed 511).append ?_
    rw [(echoed_lists 511).1, (echoed_lists 511).2]
    exact Nat.add_le_add_left (by decide) _
  have hall : results ls = delivered ls := by
    rw [delivered_append, results_append, (echoed_lists 511).1, (echoed_lists 511).2]
    rfl
  obtain ⟨-, -, hfifo⟩ := console_fifo rfl rfl hrun
  exact ⟨_, hrun, rfl, (hfifo hnever).1, (hfifo hnever).2.mpr hall⟩

end Nctuos
