import Nctuos.Smp
import Nctuos.ScreenText

/-!
# Output of several CPUs

`k_putch` takes `screen_lock` and gives it back at its end, so the CPUs that print at the same time
do it character by character.  What the screen shows is one text, in which the texts of the CPUs are
merged (`output_is_merged`): no character is lost or printed twice, and those of one CPU are in their
order.  More is not promised.  `k_puts` takes the lock again for every character, and a line of one
CPU may have another's in it (`output_is_merged_two`).

Where inside `k_putch` the other CPUs have their turns does not matter.  The accesses of `k_putch`
are any list that comes to `kPutch` in the end (`CutPutch`), with whatever locals they need.
-/

namespace Nctuos

open Lib

universe u

/-- `k_putch` between the two calls of the lock, access by access. -/
structure CutPutch (σ : Type u) where
  /-- The screen, without the locals of the CPUs. -/
  screen : σ → Screen
  cut : Nat → BitVec 8 → List (σ → σ)
  whole : ∀ i c x, screen (runSection (cut i c) x) = (screen x).kPutch c

/-- Cut where the source has its parts. -/
def CutPutch.bySource : CutPutch Screen where
  screen := id
  cut _ c := [fun s => s.edit c, Screen.wrap, Screen.scroll, Screen.moveCsr]
  whole _ _ _ := rfl

namespace CutPutch

variable {σ : Type u} (P : CutPutch σ)

/-- Whole calls, one after the other. -/
theorem screen_foldl (done : List (Nat × BitVec 8)) (x : σ) :
    P.screen (done.foldl (fun x p => runSection (P.cut p.1 p.2) x) x) =
      (done.map Prod.snd).foldl Screen.kPutch (P.screen x) := by
  induction done generalizing x with
  | nil => rfl
  | cons p done ih => rw [List.foldl_cons, ih, P.whole, List.map_cons, List.foldl_cons]

end CutPutch

/-- What a text leaves on a cleared screen. -/
theorem charAt_foldl_kPutch (s : Screen) {text : List (BitVec 8)} (h : PlainText text) {y x : Nat}
    (hy : y < 25) (hx : x < 80) :
    (text.foldl Screen.kPutch s.sysCls).charAt y x = cellOf (lastRows text) y x := by
  obtain ⟨front, last, hrows, -, hshows⟩ := shows_text s h
  have htext : textRows text = front ++ [last] := by
    rw [← List.append_nil text, hrows]
    rfl
  have hlength : (textRows text).length - 25 = front.length - 24 := by
    rw [htext, List.length_append, List.length_singleton]
    omega
  rw [lastRows, cellOf_drop, hlength, htext]
  exact hshows.cells y hy x hx

/-- **Output is merged.**  CPUs print texts, in any order of their accesses.  Nobody is stopped by
the lock.  What was printed is `done`: of the text of a CPU that is not in `k_putch`, all but what it
has still to print.  While the lock is free the screen shows the end of it. -/
theorem output_is_merged {σ : Type u} (P : CutPutch σ) (lk : Spinlock) {x : σ} {cleared : Screen}
    (hx : P.screen x = cleared.sysCls) {texts : Nat → List (BitVec 8)}
    (htexts : ∀ i, PlainText (texts i)) {ts : List Smp.Turn} {s : Smp σ (Sections σ (BitVec 8))}
    (hrun : Run (Smp.Steps (sections P.cut)) (Sections.start lk x texts) ts s) :
    (∀ i f held why, s.sys.pc i ≠ .stopped f held why) ∧
    ∃ (done : List (Nat × BitVec 8)) (rest : Nat → List (BitVec 8)),
      (∀ i, texts i = (done.filter fun p => p.1 = i).map Prod.snd ++ rest i) ∧
      (∀ i, (s.sys.pc i).phase = .idle → rest i = (s.code i).todo) ∧
      (s.sys.lk.locked = 0 → ∀ y < 25, ∀ x < 80,
        (P.screen s.shared).charAt y x = cellOf (lastRows (done.map Prod.snd)) y x) := by
  obtain ⟨done, rest, hmerge, hrest, hshared, hstopped⟩ := Sections.sections_serial hrun
  refine ⟨hstopped, done, rest, hmerge, hrest, fun hfree y hy x' hx' => ?_⟩
  have hplain : PlainText (done.map Prod.snd) := by
    intro c hc
    obtain ⟨p, hp, rfl⟩ := List.mem_map.mp hc
    refine htexts p.1 p.2 ?_
    rw [hmerge p.1]
    exact List.mem_append_left _ (List.mem_map_of_mem (List.mem_filter.mpr ⟨hp, by simp⟩))
  rw [hshared hfree, P.screen_foldl, hx]
  exact charAt_foldl_kPutch cleared hplain hy hx'

/-- CPU 1 waits while CPU 0 prints the first of its two characters, and prints its own before the
second. -/
theorem output_is_merged_two :
    let texts (i : Nat) : List (BitVec 8) :=
      if i = 0 then [0x41, 0x43] else if i = 1 then [0x42] else []
    ∃ (ts : List Smp.Turn) (s : Smp Screen (Sections Screen (BitVec 8))),
      Run (Smp.Steps (sections CutPutch.bySource.cut))
        (Sections.start ⟨0, none, fun _ => 0⟩ (Screen.boot fun _ => 0).sysCls texts) ts s ∧
      ∃ (done : List (Nat × BitVec 8)),
        (done.filter fun p => p.1 = 0).map Prod.snd = [0x41] ∧
        (done.filter fun p => p.1 = 1).map Prod.snd = [0x42] ∧
        ∀ y < 25, ∀ x < 80, s.shared.charAt y x = cellOf (lastRows (done.map Prod.snd)) y x := by
  intro texts
  let go (i n : Nat) : List Smp.Turn := List.replicate n (.spinlock i (fun _ => 0) 0)
  let code (i n : Nat) : List Smp.Turn := List.replicate n (.program i)
  let ts := code 0 1 ++ go 0 2 ++ code 1 1 ++ go 1 5 ++ go 0 12 ++ code 0 5 ++ go 1 1 ++ go 0 5 ++
    go 1 13 ++ code 1 5 ++ go 1 5
  let start := Sections.start ⟨0, none, fun _ => 0⟩ (Screen.boot fun _ => 0).sysCls texts
  have hlast : (ts.foldlM (Smp.step (sections CutPutch.bySource.cut)) start).map
      (fun s => (s.sys.lk.locked, (s.sys.pc 0).phase, (s.code 0).todo, (s.sys.pc 1).phase,
        (s.code 1).todo)) = some (0, .idle, [0x43], .idle, []) := by
    decide +kernel
  obtain ⟨s, hturns, hs⟩ := Option.map_eq_some_iff.mp hlast
  simp only [Prod.mk.injEq] at hs
  obtain ⟨hfree, hidle₀, htodo₀, hidle₁, htodo₁⟩ := hs
  have hplain : ∀ i, PlainText (texts i) := by
    intro i
    dsimp only [texts, PlainText]
    split
    · decide
    · split <;> decide
  have hrun := Run.of_foldlM hturns
  obtain ⟨-, done, rest, hmerge, hrest, hshown⟩ :=
    output_is_merged CutPutch.bySource ⟨0, none, fun _ => 0⟩ rfl hplain hrun
  have h₀ := hmerge 0
  have h₁ := hmerge 1
  rw [hrest 0 hidle₀, htodo₀] at h₀
  rw [hrest 1 hidle₁, htodo₁, List.append_nil] at h₁
  have hfirst : (done.filter fun p => p.1 = 0).map Prod.snd = [0x41] :=
    List.append_cancel_right (h₀.symm.trans (rfl : texts 0 = [0x41] ++ [0x43]))
  exact ⟨ts, s, hrun, done, hfirst, h₁.symm, hshown hfree⟩

end Nctuos
