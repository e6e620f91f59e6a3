import Mathlib.Data.List.Forall2

namespace O3jc.Library

/-- A computation with resources gives a related result, fails where the ideal one does, or lacks a resource. -/
inductive Refines {E A B : Type} (resource : E → Prop) (related : A → B → Prop) : Except E A → Option B → Prop
  | done {a : A} {b : B} (result : related a b) : Refines resource related (.ok a) (some b)
  | failed {e : E} (own : ¬ resource e) : Refines resource related (.error e) none
  | lacks {e : E} {b : Option B} (lacking : resource e) : Refines resource related (.error e) b

namespace Refines

variable {E A B C D : Type} {resource : E → Prop} {related : A → B → Prop} {later : C → D → Prop}

theorem mono {weaker : A → B → Prop} {x : Except E A} {y : Option B} (refines : Refines resource related x y)
    (implies : ∀ a b, related a b → weaker a b) : Refines resource weaker x y := by
  cases refines with
  | done result => exact .done (implies _ _ result)
  | failed own => exact .failed own
  | lacks lacking => exact .lacks lacking

theorem bind {x : Except E A} {y : Option B} {f : A → Except E C} {g : B → Option D}
    (refines : Refines resource related x y)
    (continues : ∀ a b, related a b → Refines resource later (f a) (g b)) :
    Refines resource later (x >>= f) (y >>= g) := by
  cases refines with
  | done result => exact continues _ _ result
  | failed own => exact .failed own
  | lacks lacking => exact .lacks lacking

/-- A step of the concrete side alone. -/
theorem bind_left {x : Except E A} {b : B} {f : A → Except E C} {y : Option D}
    (refines : Refines resource related x (some b))
    (continues : ∀ a, related a b → Refines resource later (f a) y) : Refines resource later (x >>= f) y := by
  cases refines with
  | done result => exact continues _ result
  | lacks lacking => exact .lacks lacking

/-- A loop whose relation may depend on the elements to come. -/
theorem foldlM {X Y : Type} (loop : List Y → A → B → Prop) {element : X → Y → Prop} {f : A → X → Except E A}
    {g : B → Y → Option B}
    (turn : ∀ x y rest a b, element x y → loop (y :: rest) a b → Refines resource (loop rest) (f a x) (g b y))
    {xs : List X} {ys : List Y} (elements : List.Forall₂ element xs ys) {a : A} {b : B} (start : loop ys a b) :
    Refines resource (loop []) (xs.foldlM f a) (ys.foldlM g b) := by
  induction elements generalizing a b with
  | nil => exact .done start
  | cons first _ inductionHypothesis =>
      rw [List.foldlM_cons, List.foldlM_cons]
      exact (turn _ _ _ a b first start).bind fun _ _ next => inductionHypothesis next

/-- The ideal result is known with the relation. -/
theorem result {x : Except E A} {y : Option B} (refines : Refines resource related x y) :
    Refines resource (fun a b => related a b ∧ y = some b) x y := by
  cases refines with
  | done result => exact .done ⟨result, rfl⟩
  | failed own => exact .failed own
  | lacks lacking => exact .lacks lacking

theorem of_ok {a : A} {y : Option B} (refines : Refines resource related (.ok a) y) :
    ∃ b, y = some b ∧ related a b := by
  cases refines with
  | done result => exact ⟨_, rfl, result⟩

end Refines

end O3jc.Library
