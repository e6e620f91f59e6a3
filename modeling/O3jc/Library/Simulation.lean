import O3jc.Library.Transition

namespace O3jc.Library

/-- A run of permitted calls with the answers that they gave, in the order of the calls. -/
inductive Traced {S L A : Type} (step : S → L → Option (S × A)) (permitted : S → L → Prop) :
    S → List (L × A) → S → Prop
  | nil (state : S) : Traced step permitted state [] state
  | cons {state middle last : S} {label : L} {answer : A} {rest : List (L × A)} (allowed : permitted state label)
      (result : step state label = some (middle, answer)) (later : Traced step permitted middle rest last) :
      Traced step permitted state ((label, answer) :: rest) last

section Rules

variable {S T L A : Type} {step : S → L → Option (S × A)} {permitted : S → L → Prop}

/-- What the start has and every permitted call keeps holds at the end of every run. -/
theorem Traced.invariant {start last : S} {calls : List (L × A)} (run : Traced step permitted start calls last)
    (holds : S → Prop) (initial : holds start)
    (kept : ∀ state label next answer, holds state → permitted state label → step state label = some (next, answer) →
      holds next) : holds last := by
  induction run with
  | nil => exact initial
  | cons allowed result _ ih => exact ih (kept _ _ _ _ initial allowed result)

theorem Traced.trans {start middle last : S} {calls later : List (L × A)}
    (first : Traced step permitted start calls middle) (second : Traced step permitted middle later last) :
    Traced step permitted start (calls ++ later) last := by
  induction first with
  | nil => exact second
  | cons allowed result _ ih => exact .cons allowed result (ih second)

/-- A relation that every permitted call keeps with equal answers carries a whole run to the abstract system. -/
theorem Traced.simulates (abstractStep : T → L → Option (T × A)) (related : S → T → Prop)
    (simulated : ∀ state model label next answer, related state model → permitted state label →
      step state label = some (next, answer) →
      ∃ model', abstractStep model label = some (model', answer) ∧ related next model')
    {start last : S} {model : T} {calls : List (L × A)} (run : Traced step permitted start calls last)
    (initial : related start model) :
    ∃ model', Traced abstractStep (fun _ _ => True) model calls model' ∧ related last model' := by
  induction run generalizing model with
  | nil => exact ⟨model, .nil model, initial⟩
  | cons allowed result _ ih =>
      obtain ⟨middle, taken, still⟩ := simulated _ _ _ _ _ initial allowed result
      obtain ⟨model', later, ended⟩ := ih still
      exact ⟨model', .cons trivial taken later, ended⟩

/-- The calls and their answers determine the end of a run. -/
theorem Traced.unique {start last last' : S} {calls : List (L × A)} (run : Traced step permitted start calls last)
    (run' : Traced step permitted start calls last') : last = last' := by
  induction run with
  | nil =>
      cases run'
      rfl
  | cons _ result _ ih =>
      cases run' with
      | cons _ result' later' =>
          obtain ⟨rfl, _⟩ := Prod.mk.inj (Option.some.inj (result.symm.trans result'))
          exact ih later'

/-- Two states that stand for one abstract state give the same answers to the same calls from then on. -/
theorem Traced.agree (abstractStep : T → L → Option (T × A)) (related : S → T → Prop)
    (simulated : ∀ state model label next answer, related state model → permitted state label →
      step state label = some (next, answer) →
      ∃ model', abstractStep model label = some (model', answer) ∧ related next model')
    {start start' last last' : S} {model : T} {calls calls' : List (L × A)}
    (run : Traced step permitted start calls last) (run' : Traced step permitted start' calls' last')
    (initial : related start model) (initial' : related start' model)
    (labels : calls.map Prod.fst = calls'.map Prod.fst) : calls = calls' := by
  induction run generalizing model start' calls' with
  | nil => exact (List.map_eq_nil_iff.mp labels.symm).symm
  | cons allowed result _ ih =>
      cases run' with
      | nil => exact absurd labels (by simp)
      | cons allowed' result' later' =>
          obtain ⟨rfl, rest⟩ := List.cons.inj labels
          obtain ⟨middle, taken, still⟩ := simulated _ _ _ _ _ initial allowed result
          obtain ⟨middle', taken', still'⟩ := simulated _ _ _ _ _ initial' allowed' result'
          obtain ⟨rfl, rfl⟩ := Prod.mk.inj (Option.some.inj (taken.symm.trans taken'))
          rw [ih later' still still' rest]

/-- A relation between the state and a summary of the calls so far that every permitted call keeps. -/
theorem Traced.observed {observe : T → L × A → T} (related : S → T → Prop)
    (kept : ∀ state model label next answer, related state model → permitted state label →
      step state label = some (next, answer) → related next (observe model (label, answer)))
    {start last : S} {model : T} {calls : List (L × A)} (run : Traced step permitted start calls last)
    (initial : related start model) : related last (calls.foldl observe model) := by
  induction run generalizing model with
  | nil => exact initial
  | cons allowed result _ ih => exact ih (kept _ _ _ _ _ initial allowed result)

end Rules

/-- A replay of calls collects their answers and stops at the first call that is not permitted. -/
def replayTraced {S L A : Type} (step : S → L → Option (S × A)) (permitted : S → L → Prop)
    [∀ state label, Decidable (permitted state label)] : S → List L → Option (S × List (L × A))
  | state, [] => some (state, [])
  | state, label :: rest =>
      if permitted state label then
        (step state label).bind fun (next, answer) =>
          (replayTraced step permitted next rest).map fun (last, calls) => (last, (label, answer) :: calls)
      else none

/-- A replay that does not stop is a run with the collected answers. -/
theorem traced_of_replay {S L A : Type} {step : S → L → Option (S × A)} {permitted : S → L → Prop}
    [∀ state label, Decidable (permitted state label)] {labels : List L} {start last : S} {calls : List (L × A)}
    (result : replayTraced step permitted start labels = some (last, calls)) :
    Traced step permitted start calls last := by
  induction labels generalizing start calls with
  | nil =>
      obtain ⟨rfl, rfl⟩ := Prod.mk.inj (Option.some.inj result)
      exact .nil start
  | cons label rest ih =>
      rw [replayTraced] at result
      split at result
      · rename_i allowed
        obtain ⟨⟨next, answer⟩, taken, later⟩ := Option.bind_eq_some_iff.mp result
        obtain ⟨⟨last', calls'⟩, replayed, same⟩ := Option.map_eq_some_iff.mp later
        obtain ⟨rfl, rfl⟩ := Prod.mk.inj same
        exact .cons allowed taken (ih replayed)
      · exact absurd result (by simp)

/-- A replay that does not stop makes the calls of its list. -/
theorem replayTraced_labels {S L A : Type} {step : S → L → Option (S × A)} {permitted : S → L → Prop}
    [∀ state label, Decidable (permitted state label)] {labels : List L} {start last : S} {calls : List (L × A)}
    (result : replayTraced step permitted start labels = some (last, calls)) : calls.map Prod.fst = labels := by
  induction labels generalizing start calls with
  | nil =>
      obtain ⟨rfl, rfl⟩ := Prod.mk.inj (Option.some.inj result)
      rfl
  | cons label rest ih =>
      rw [replayTraced] at result
      split at result
      · obtain ⟨⟨next, answer⟩, _, later⟩ := Option.bind_eq_some_iff.mp result
        obtain ⟨⟨last', calls'⟩, replayed, same⟩ := Option.map_eq_some_iff.mp later
        obtain ⟨rfl, rfl⟩ := Prod.mk.inj same
        rw [List.map_cons, ih replayed]
      · exact absurd result (by simp)

end O3jc.Library
