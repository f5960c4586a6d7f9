import Nctuos.Lib.Run
import Mathlib.Logic.Function.Basic

/-!
# Critical sections

Threads share a state and change it in critical sections only.  A section is a list of steps, and
between two steps of the thread that is inside, anything may happen that does not enter a section.
Who is inside, and what it has still to do, is `inside`; what each thread has still to run is
`todo`.

A run is as good as one in which every section is a single step, taken when it was entered
(`serial_of_run`).  What carries the proof is `finish`, the state as it will be when the section in
progress is over: entering a section runs all of it on `finish`, and no other step changes it.

When the sections come from jobs, the jobs that were done are in one order, in which each thread has
its own in theirs (`serial_jobs`).
-/

namespace Nctuos.Lib

universe u v w

variable {T : Type u} {S : Type v} {α : Type w}

/-- The steps of a section, one after the other. -/
def runSection (fs : List (S → S)) (s : S) : S := fs.foldl (fun s f => f s) s

/-- The shared state, the thread that is inside with the rest of its section, and the sections to
come. -/
structure Critical (T : Type u) (S : Type v) where
  shared : S
  inside : Option (T × List (S → S))
  todo : T → List (List (S → S))

namespace Critical

/-- What a thread does. -/
inductive Act (T : Type u)
  | enter (t : T)
  | work (t : T)
  | leave (t : T)

def Act.entering : Act T → Option T
  | .enter t => some t
  | .work _ => none
  | .leave _ => none

/-- The threads that entered a section. -/
def entered (as : List (Act T)) : List T := as.filterMap Act.entering

theorem entered_concat (as : List (Act T)) (a : Act T) :
    entered (as ++ [a]) = entered as ++ entered [a] := List.filterMap_append

/-- The shared state once the section in progress is over. -/
def finish (c : Critical T S) : S :=
  c.inside.elim c.shared fun p => runSection p.2 c.shared

variable [DecidableEq T] {c c' : Critical T S}

/-- One step. -/
inductive Step : Critical T S → Act T → Critical T S → Prop
  | enter {c : Critical T S} {t : T} {fs : List (S → S)} {rest : List (List (S → S))}
      (outside : c.inside = none) (next : c.todo t = fs :: rest) :
      Step c (.enter t) { c with inside := some (t, fs), todo := Function.update c.todo t rest }
  | work {c : Critical T S} {t : T} {f : S → S} {fs : List (S → S)}
      (here : c.inside = some (t, f :: fs)) :
      Step c (.work t) { c with shared := f c.shared, inside := some (t, fs) }
  | leave {c : Critical T S} {t : T} (here : c.inside = some (t, [])) :
      Step c (.leave t) { c with inside := none }

/-- The next section of a thread in one step, if it has one. -/
def atomic (c : Critical T S) (t : T) : Critical T S :=
  match c.todo t with
  | [] => c
  | fs :: rest =>
      { c with shared := runSection fs c.shared, todo := Function.update c.todo t rest }

theorem atomic_nil {t : T} (h : c.todo t = []) : c.atomic t = c := by
  rw [atomic, h]

theorem atomic_cons {t : T} {fs : List (S → S)} {rest : List (List (S → S))}
    (h : c.todo t = fs :: rest) :
    c.atomic t =
      { c with shared := runSection fs c.shared, todo := Function.update c.todo t rest } := by
  rw [atomic, h]

/-- Whole sections, in the order of their threads. -/
def serial (c : Critical T S) (order : List T) : Critical T S := order.foldl atomic c

theorem serial_concat (c : Critical T S) (order : List T) (t : T) :
    c.serial (order ++ [t]) = (c.serial order).atomic t := by
  rw [serial, List.foldl_append]
  rfl

/-- **Sections are atomic.**  After every run from a state with nobody inside, what is left to run,
and what the shared state will be when the section in progress is over, are as if the sections that
were entered had been run one after the other. -/
theorem serial_of_run {as : List (Act T)} (hrun : Run Step c as c') (hout : c.inside = none) :
    c'.finish = (c.serial (entered as)).shared ∧ c'.todo = (c.serial (entered as)).todo := by
  refine Run.history_invariant (I := fun as c' => c'.finish = (c.serial (entered as)).shared ∧
    c'.todo = (c.serial (entered as)).todo) ?_ ?_ hrun
  · exact ⟨by rw [finish, hout]; rfl, rfl⟩
  · intro as c₁ a c₂ _ hserial hstep
    obtain ⟨hshared, htodo⟩ := hserial
    rw [entered_concat]
    cases hstep with
    | @enter t fs rest outside next =>
        rw [show entered [Act.enter t] = [t] from rfl, serial_concat, atomic_cons (htodo ▸ next)]
        rw [finish, outside] at hshared
        rw [← hshared, ← htodo]
        exact ⟨rfl, rfl⟩
    | @work t f fs here =>
        rw [show entered [Act.work t] = [] from rfl, List.append_nil]
        rw [finish, here] at hshared
        exact ⟨hshared, htodo⟩
    | @leave t here =>
        rw [show entered [Act.leave t] = [] from rfl, List.append_nil]
        rw [finish, here] at hshared
        exact ⟨hshared, htodo⟩

/-- What has been done of the jobs of all threads, in one order, and what is left of each. -/
theorem serial_jobs {jobs : T → List α} {cut : T → α → List (S → S)}
    (htodo : ∀ t, c.todo t = (jobs t).map (cut t)) (order : List T) :
    ∃ (done : List (T × α)) (rest : T → List α),
      (c.serial order).shared = done.foldl (fun s p => runSection (cut p.1 p.2) s) c.shared ∧
      ∀ t, (c.serial order).todo t = (rest t).map (cut t) ∧
        jobs t = (done.filter fun p => p.1 = t).map Prod.snd ++ rest t := by
  induction order using List.reverseRecOn with
  | nil => exact ⟨[], jobs, rfl, fun t => ⟨htodo t, rfl⟩⟩
  | append_singleton order t ih =>
      obtain ⟨done, rest, hshared, hrest⟩ := ih
      rw [serial_concat]
      cases hnext : rest t with
      | nil =>
          have hnil : (c.serial order).todo t = [] := by rw [(hrest t).1, hnext]; rfl
          rw [atomic_nil hnil]
          exact ⟨done, rest, hshared, hrest⟩
      | cons a as =>
          have hcons : (c.serial order).todo t = cut t a :: as.map (cut t) := by
            rw [(hrest t).1, hnext]
            rfl
          rw [atomic_cons hcons]
          refine ⟨done ++ [(t, a)], Function.update rest t as, ?_, fun t' => ?_⟩
          · rw [List.foldl_append, ← hshared]
            rfl
          · dsimp only
            by_cases ht : t' = t
            · subst ht
              rw [Function.update_self, Function.update_self]
              refine ⟨rfl, ?_⟩
              rw [(hrest t').2, hnext, List.filter_append, List.map_append, List.append_assoc,
                List.filter_cons_of_pos (by simp)]
              rfl
            · rw [Function.update_of_ne ht, Function.update_of_ne ht]
              refine ⟨(hrest t').1, ?_⟩
              rw [(hrest t').2, List.filter_append,
                List.filter_cons_of_neg (by simpa using Ne.symm ht), List.filter_nil, List.append_nil]

end Critical

end Nctuos.Lib
