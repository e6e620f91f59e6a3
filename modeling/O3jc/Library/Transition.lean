import Mathlib.Data.Option.Basic

namespace O3jc.Library

/-- A state is reached from a start by steps that are permitted where they are taken. -/
inductive Reachable {S L : Type} (step : S → L → Option S) (permitted : S → L → Prop) (start : S) : S → Prop
  | refl : Reachable step permitted start start
  | tail {state next : S} {label : L} (before : Reachable step permitted start state)
      (allowed : permitted state label) (result : step state label = some next) :
      Reachable step permitted start next

section Rules

variable {S L : Type} {step : S → L → Option S} {permitted : S → L → Prop} {start : S}

/-- What the start has and every permitted step keeps holds in every reached state. -/
theorem Reachable.invariant {state : S} (run : Reachable step permitted start state) (holds : S → Prop)
    (initial : holds start)
    (kept : ∀ state label next, holds state → permitted state label → step state label = some next → holds next) :
    holds state := by
  induction run with
  | refl => exact initial
  | tail _ allowed result ih => exact kept _ _ _ ih allowed result

/-- A relation that is reflexive and absorbs permitted steps links the start to every reached state. -/
theorem Reachable.related {state : S} (run : Reachable step permitted start state) (related : S → S → Prop)
    (initial : related start start)
    (kept : ∀ state label next, Reachable step permitted start state → related start state →
      permitted state label → step state label = some next → related start next) :
    related start state := by
  induction run with
  | refl => exact initial
  | tail before allowed result ih => exact kept _ _ _ before ih allowed result

theorem Reachable.mono {other : S → L → Prop} {state : S} (run : Reachable step permitted start state)
    (weaker : ∀ state label, permitted state label → other state label) : Reachable step other start state := by
  induction run with
  | refl => exact .refl
  | tail _ allowed result ih => exact .tail ih (weaker _ _ allowed) result

theorem Reachable.single {state next : S} {label : L} (allowed : permitted state label)
    (result : step state label = some next) : Reachable step permitted state next := .tail .refl allowed result

theorem Reachable.trans {middle state : S} (first : Reachable step permitted start middle)
    (second : Reachable step permitted middle state) : Reachable step permitted start state := by
  induction second with
  | refl => exact first
  | tail _ allowed result ih => exact .tail ih allowed result

/-- Labels taken one after the other are a run when the first one is permitted and the others always are. -/
theorem reachable_of_foldlM {labels : List L} {state : S} (result : labels.foldlM step start = some state)
    (first : ∀ label ∈ labels.head?, permitted start label)
    (later : ∀ label ∈ labels.tail, ∀ current, permitted current label) : Reachable step permitted start state := by
  induction labels generalizing start with
  | nil =>
      obtain rfl : start = state := Option.some.inj result
      exact .refl
  | cons label rest ih =>
      rw [List.foldlM_cons] at result
      obtain ⟨middle, taken, after⟩ := Option.bind_eq_some_iff.mp result
      exact (Reachable.single (first label rfl) taken).trans
        (ih after (fun l isHead => later l (List.mem_of_mem_head? isHead) middle)
          fun l member => later l (List.mem_of_mem_tail member))

/-- Some state of a run from one state to another has the property. -/
def Within (step : S → L → Option S) (permitted : S → L → Prop) (first last : S) (holds : S → Prop) : Prop :=
  ∃ middle, Reachable step permitted first middle ∧ Reachable step permitted middle last ∧ holds middle

theorem Within.here {state : S} {holds : S → Prop} (run : Reachable step permitted start state)
    (now : holds state) : Within step permitted start state holds := ⟨state, run, .refl, now⟩

theorem Within.tail {state next : S} {label : L} {holds : S → Prop}
    (before : Within step permitted start state holds) (allowed : permitted state label)
    (result : step state label = some next) : Within step permitted start next holds := by
  obtain ⟨middle, first, second, property⟩ := before
  exact ⟨middle, first, .tail second allowed result, property⟩

theorem Within.trans {state later : S} {holds : S → Prop} (before : Within step permitted start state holds)
    (after : Reachable step permitted state later) : Within step permitted start later holds := by
  obtain ⟨middle, first, second, property⟩ := before
  exact ⟨middle, first, second.trans after, property⟩

/-- A run takes the label first, and after it only labels of the kind. -/
def Since (step : S → L → Option S) (permitted : S → L → Prop) (label : L) (kind : L → Prop) (before later : S) :
    Prop :=
  ∃ first, permitted before label ∧ step before label = some first ∧
    Reachable step (fun state l => permitted state l ∧ kind l) first later

end Rules

/-- A replay takes a list of labels and stops at the first one that is not permitted. -/
def replay {S L : Type} (step : S → L → Option S) (permitted : S → L → Prop)
    [∀ state label, Decidable (permitted state label)] : S → List L → Option S
  | state, [] => some state
  | state, label :: rest =>
      if permitted state label then (step state label).bind fun next => replay step permitted next rest
      else none

/-- A replay that does not stop ends in a reached state. -/
theorem reachable_of_replay {S L : Type} {step : S → L → Option S} {permitted : S → L → Prop}
    [∀ state label, Decidable (permitted state label)] {labels : List L} {start state : S}
    (result : replay step permitted start labels = some state) : Reachable step permitted start state := by
  induction labels generalizing start with
  | nil =>
      obtain rfl : start = state := Option.some.inj result
      exact .refl
  | cons label rest ih =>
      rw [replay] at result
      split at result
      · rename_i allowed
        obtain ⟨next, taken, later⟩ := Option.bind_eq_some_iff.mp result
        exact Reachable.trans (.tail .refl allowed taken) (ih later)
      · exact absurd result (by simp)

/-- A run that ends in a state with a decidable property reaches such a state. -/
theorem exists_reachable_of_replay {S L : Type} {step : S → L → Option S} {permitted : S → L → Prop}
    [∀ state label, Decidable (permitted state label)] {labels : List L} {start : S} {ends : S → Prop}
    (result : ∃ state ∈ replay step permitted start labels, ends state) :
    ∃ state, Reachable step permitted start state ∧ ends state := by
  obtain ⟨state, reached, property⟩ := result
  exact ⟨state, reachable_of_replay reached, property⟩

end O3jc.Library
