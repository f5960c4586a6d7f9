import Mathlib.Logic.Relation
import Mathlib.Data.List.Induction

/-!
# Labelled runs of a transition relation

A system is a relation `step s l t` between states, labelled by what the step
consumed and produced.  `Run step s ls t` is a finite run from `s` to `t` whose
labels, in order, are `ls`.

Everything a development needs about whole runs is one of five rules:

* `Run.invariant` — what one step preserves, every run preserves; with
  `Run.history_invariant` for what also depends on the labels so far;
* `Run.mono` — a run of a restricted relation is a run of the relation;
* `Run.simulate` — a system that can follow every step can follow every run;
* `Run.append` / `Run.of_append` — runs are composed, and cut, at any label;
* `Run.commute` — what can be done before a step can be done before a run.

`Run.of_foldlM` makes a run of an execution.
-/

namespace Nctuos.Lib

universe u v w

variable {S : Type u} {L : Type v}

/-- A finite run of `step` from the first state to the last, with its labels. -/
inductive Run (step : S → L → S → Prop) : S → List L → S → Prop
  | nil (s : S) : Run step s [] s
  | cons {s t u : S} {l : L} {ls : List L} :
      step s l t → Run step t ls u → Run step s (l :: ls) u

namespace Run

variable {step step' : S → L → S → Prop} {s t u : S} {l : L} {ls ms : List L}

@[simp] theorem nil_iff : Run step s [] t ↔ s = t := by
  constructor
  · rintro ⟨⟩
    rfl
  · rintro rfl
    exact .nil s

theorem cons_iff :
    Run step s (l :: ls) u ↔ ∃ t, step s l t ∧ Run step t ls u := by
  constructor
  · rintro (_ | ⟨h, r⟩)
    exact ⟨_, h, r⟩
  · rintro ⟨t, h, r⟩
    exact .cons h r

/-- A run of a stronger relation is a run of a weaker one. -/
theorem mono (h : ∀ s l t, step s l t → step' s l t) (r : Run step s ls t) :
    Run step' s ls t := by
  induction r with
  | nil s => exact .nil s
  | cons hd _ ih => exact .cons (h _ _ _ hd) ih

/-- **The invariant rule.**  What every step preserves, every run preserves. -/
theorem invariant {I : S → Prop} (hstep : ∀ s l t, I s → step s l t → I t)
    (r : Run step s ls t) (h : I s) : I t := by
  induction r with
  | nil s => exact h
  | cons hd _ ih => exact ih (hstep _ _ _ h hd)

theorem append (r : Run step s ls t) (r' : Run step t ms u) :
    Run step s (ls ++ ms) u := by
  induction r with
  | nil s => exact r'
  | cons hd _ ih => exact .cons hd (ih r')

/-- A run over a concatenation passes through a state between its two halves. -/
theorem of_append (r : Run step s (ls ++ ms) u) :
    ∃ t, Run step s ls t ∧ Run step t ms u := by
  induction ls generalizing s with
  | nil => exact ⟨s, .nil s, r⟩
  | cons l ls ih =>
      obtain ⟨t, hd, tl⟩ := cons_iff.mp r
      obtain ⟨t', h₁, h₂⟩ := ih tl
      exact ⟨t', .cons hd h₁, h₂⟩

/-- The last step of a non-empty run. -/
theorem of_concat (r : Run step s (ls ++ [l]) u) :
    ∃ t, Run step s ls t ∧ step t l u := by
  obtain ⟨t, h₁, h₂⟩ := of_append r
  obtain ⟨t', hl, rfl⟩ : ∃ t', step t l t' ∧ t' = u := by
    simpa [cons_iff] using h₂
  exact ⟨t, h₁, hl⟩

theorem concat (r : Run step s ls t) (h : step t l u) :
    Run step s (ls ++ [l]) u :=
  r.append (.cons h (.nil u))

/-- The runs of a deterministic system are determined by their labels. -/
theorem unique (hdet : ∀ s l t t', step s l t → step s l t' → t = t') (r : Run step s ls t)
    (r' : Run step s ls u) : t = u := by
  induction r with
  | nil s => exact nil_iff.mp r'
  | cons hd _ ih =>
      obtain ⟨v, hd', tl'⟩ := cons_iff.mp r'
      obtain rfl := hdet _ _ _ _ hd hd'
      exact ih tl'

/-- Some step of a run has a property, or the run is one of steps without it. -/
theorem exists_or_mono (P : S → L → Prop) (r : Run step s ls t) :
    (∃ ls₁ u l v ls₂, ls = ls₁ ++ l :: ls₂ ∧ Run step s ls₁ u ∧ step u l v ∧
        Run step v ls₂ t ∧ P u l) ∨
      Run (fun s l t => step s l t ∧ ¬ P s l) s ls t := by
  induction r with
  | nil s => exact Or.inr (.nil s)
  | cons hd tl ih =>
      rename_i s v u l ls
      by_cases hP : P s l
      · exact Or.inl ⟨[], s, l, v, ls, rfl, .nil s, hd, tl, hP⟩
      · rcases ih with ⟨ls₁, u', l', v', ls₂, rfl, r₁, h', r₂, hP'⟩ | r'
        · exact Or.inl ⟨l :: ls₁, u', l', v', ls₂, rfl, .cons hd r₁, h', r₂, hP'⟩
        · exact Or.inr (.cons ⟨hd, hP⟩ r')

/-- The invariant rule for properties of a state together with how it was reached. -/
theorem history_invariant {I : List L → S → Prop} (init : I [] s)
    (hstep : ∀ ms t l u, Run step s ms t → I ms t → step t l u → I (ms ++ [l]) u)
    (r : Run step s ls t) : I ls t := by
  induction ls using List.reverseRecOn generalizing t with
  | nil =>
      rw [nil_iff] at r
      exact r ▸ init
  | append_singleton ls l ih =>
      obtain ⟨t', r', hl⟩ := of_concat r
      exact hstep ls t' l t r' (ih r') hl

/-- **The simulation rule.**  A system that can follow every step can follow every run. -/
theorem simulate {S' : Type w} {step' : S' → L → S' → Prop} {R : S → S' → Prop}
    (hstep : ∀ s a l t, R s a → step s l t → ∃ b, step' a l b ∧ R t b) (r : Run step s ls t)
    {a : S'} (h : R s a) : ∃ b, Run step' a ls b ∧ R t b := by
  induction r generalizing a with
  | nil s => exact ⟨a, .nil a, h⟩
  | cons hd _ ih =>
      obtain ⟨b, hb, h'⟩ := hstep _ _ _ _ h hd
      obtain ⟨b', rb, h''⟩ := ih h'
      exact ⟨b', .cons hb rb, h''⟩

/-- A run of a step function, executed. -/
theorem of_foldlM {f : S → L → Option S} (h : ls.foldlM f s = some t) :
    Run (fun s l t => f s l = some t) s ls t := by
  induction ls generalizing s with
  | nil =>
      cases h
      exact .nil _
  | cons l ls ih =>
      rw [List.foldlM_cons] at h
      obtain ⟨u, hstep, hrest⟩ := Option.bind_eq_some_iff.mp h
      exact .cons hstep (ih hrest)

/-- An operation that can be made before a step instead of behind it can be made before a whole
run. -/
theorem commute {R : S → S → Prop} {I : S → Prop} (hstep : ∀ s l t, I s → step s l t → I t)
    (hswap : ∀ s l t t', I s → step s l t → R t t' → ∃ s', R s s' ∧ step s' l t')
    (r : Run step s ls t) (h : I s) {t' : S} (hr : R t t') :
    ∃ s', R s s' ∧ Run step s' ls t' := by
  induction r with
  | nil s => exact ⟨t', hr, .nil t'⟩
  | cons hd _ ih =>
      obtain ⟨u', hr', tl'⟩ := ih (hstep _ _ _ h hd) hr
      obtain ⟨s', hr'', hd'⟩ := hswap _ _ _ _ h hd hr'
      exact ⟨s', hr'', .cons hd' tl'⟩

end Run

end Nctuos.Lib
