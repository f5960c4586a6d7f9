import Mathlib.Data.Set.Insert

/-!
# A cache that is told what to forget

A table of entries, and a cache of some of them that somebody else fills: whenever it likes it
takes over entries that are present, and it is never told that the table has changed.  All it
can be told is to forget what it holds for one key.  A translation look-aside buffer is such a
cache.

What the owner of the table does is a list of events, and `Exec` runs it with any fills in
between.  The cache is coherent at a key if what it holds for it is the entry.  A change of an
entry that is not present keeps it so, since there was nothing to take over; a change of a
present one does not, and then the key must be forgotten.  `Keeps` reads this off the list of
events, and `Exec.coherent` is the rule.
-/

namespace Nctuos.Lib

universe u v

variable {κ : Type u} {ν : Type v}

/-- A table, with `none` for what is not present, and what has been cached of it. -/
structure Cached (κ : Type u) (ν : Type v) where
  table : κ → Option ν
  cache : Set (κ × ν)

inductive CacheEvent (κ : Type u) (ν : Type v)
  /-- The table has changed. -/
  | become (table : κ → Option ν)
  /-- The cache forgets a key. -/
  | flush (k : κ)

namespace Cached

variable {s t u : Cached κ ν} {k : κ} {es : List (CacheEvent κ ν)}

def next (s : Cached κ ν) : CacheEvent κ ν → Cached κ ν
  | .become table => { s with table := table }
  | .flush k => { s with cache := {p ∈ s.cache | p.1 ≠ k} }

/-- Entries that are present are taken over. -/
structure Fills (s t : Cached κ ν) : Prop where
  table : t.table = s.table
  keeps : s.cache ⊆ t.cache
  takes : ∀ p ∈ t.cache, p ∈ s.cache ∨ s.table p.1 = some p.2

/-- The events one after the other, with fills before each of them and after the last. -/
inductive Exec : List (CacheEvent κ ν) → Cached κ ν → Cached κ ν → Prop
  | nil {s t : Cached κ ν} (fill : Fills s t) : Exec [] s t
  | cons {s t u : Cached κ ν} {e : CacheEvent κ ν} {es : List (CacheEvent κ ν)} (fill : Fills s t)
      (rest : Exec es (t.next e) u) : Exec (e :: es) s u

/-- Nothing cached for `k` differs from its entry. -/
def Coherent (s : Cached κ ν) (k : κ) : Prop := ∀ x, (k, x) ∈ s.cache → s.table k = some x

theorem Fills.refl (s : Cached κ ν) : Fills s s := ⟨rfl, fun _ hp => hp, fun _ hp => Or.inl hp⟩

theorem Fills.coherent (h : Fills s t) (hs : s.Coherent k) : t.Coherent k := by
  intro x hx
  rw [h.table]
  rcases h.takes _ hx with hold | hnew
  · exact hs x hold
  · exact hnew

/-- An entry that is not present, or stays as it is, may be written. -/
theorem coherent_become {table : κ → Option ν} (hs : s.Coherent k)
    (h : s.table k = none ∨ table k = s.table k) : (s.next (.become table)).Coherent k := by
  intro x hx
  have hentry := hs x hx
  rcases h with hnone | hsame
  · rw [hnone] at hentry
    cases hentry
  · exact hsame.trans hentry

theorem coherent_flush (s : Cached κ ν) (k : κ) : (s.next (.flush k)).Coherent k :=
  fun _ hx => absurd rfl hx.2

/-- The table behind the events. -/
def tableAfter (table : κ → Option ν) : List (CacheEvent κ ν) → κ → Option ν
  | [] => table
  | .become table' :: es => tableAfter table' es
  | .flush _ :: es => tableAfter table es

theorem Exec.table_eq (h : Exec es s u) : u.table = tableAfter s.table es := by
  induction h with
  | nil fill => exact fill.table
  | @cons s t u e es fill _ ih =>
      rw [ih]
      cases e with
      | become _ => rfl
      | flush _ => exact congrArg (tableAfter · es) fill.table

/-- The events end with a cache that is coherent at `k`; `clean` says whether it is at first. -/
def Keeps (k : κ) : Prop → (κ → Option ν) → List (CacheEvent κ ν) → Prop
  | clean, _, [] => clean
  | clean, old, .become table :: es =>
      Keeps k (clean ∧ (old k = none ∨ table k = old k)) table es
  | clean, old, .flush k' :: es => Keeps k (clean ∨ k' = k) old es

/-- **The rule for coherence**, whatever is taken over in between. -/
theorem Exec.coherent {clean : Prop} (h : Exec es s u) (hclean : clean → s.Coherent k)
    (hes : Keeps k clean s.table es) : u.Coherent k := by
  induction h generalizing clean with
  | nil fill => exact fill.coherent (hclean hes)
  | @cons s t u e es fill _ ih =>
      cases e with
      | become table =>
          refine ih (fun hnow => coherent_become (fill.coherent (hclean hnow.1)) ?_) hes
          rw [fill.table]
          exact hnow.2
      | flush k' =>
          refine ih (fun hnow => ?_) (show Keeps k _ t.table es from fill.table ▸ hes)
          rcases hnow with hold | rfl
          · exact fun x hx => fill.coherent (hclean hold) x hx.1
          · exact coherent_flush t k'

end Cached

end Nctuos.Lib
