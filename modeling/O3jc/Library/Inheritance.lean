import O3jc.Library.Successors

/-
This file says what a node inherits along its parent links: the binding of the nearest node that has its own.
-/

namespace O3jc.Library

section Inheritance

variable {N K V : Type} (parent : N → Option N) (own : N → K → Option V)

/-- A node has its own binding of a key, or else the one that its parent has or inherits. -/
inductive Inherits : N → K → V → Prop
  | own {n : N} {k : K} {v : V} (bound : own n k = some v) : Inherits n k v
  | parent {n p : N} {k : K} {v : V} (free : own n k = none) (link : parent n = some p) (above : Inherits p k v) :
      Inherits n k v

open Classical in
/-- What a node inherits, or nothing. -/
noncomputable def inherited (n : N) (k : K) : Option V :=
  if found : ∃ v, Inherits parent own n k v then some found.choose else none

variable {parent own} {n : N} {k : K} {v w : V}

/-- A node inherits at most one binding of a key. -/
theorem Inherits.unique (first : Inherits parent own n k v) (second : Inherits parent own n k w) : v = w := by
  induction first with
  | own bound =>
      cases second with
      | own bound' => exact Option.some.inj (bound.symm.trans bound')
      | parent free _ _ => exact absurd (bound.symm.trans free) (by simp)
  | parent free link _ ih =>
      cases second with
      | own bound => exact absurd (free.symm.trans bound) (by simp)
      | parent _ link' above =>
          obtain rfl := Option.some.inj (link.symm.trans link')
          exact ih above

theorem inherited_eq_some_iff : inherited parent own n k = some v ↔ Inherits parent own n k v := by
  unfold inherited
  constructor
  · intro isValue
    split at isValue
    · rename_i found
      rw [← Option.some.inj isValue]
      exact found.choose_spec
    · contradiction
  · intro inherits
    have found : ∃ v, Inherits parent own n k v := ⟨v, inherits⟩
    rw [dif_pos found, found.choose_spec.unique inherits]

/-- What a node inherits is the first binding along its walk to the root. -/
theorem Walk.inherits_iff {start : Option N} {chain : List N} (complete : Walk parent start chain) :
    (∃ n ∈ start, Inherits parent own n k v) ↔ (chain.findSome? fun a => own a k) = some v := by
  induction complete with
  | nil => simp
  | cons a rest tail ih =>
      rw [List.findSome?_cons]
      cases bound : own a k with
      | some w =>
          constructor
          · rintro ⟨n, ⟨⟩, inherits⟩
            exact congrArg some (Inherits.unique (.own bound) inherits)
          · rintro ⟨⟩
            exact ⟨a, rfl, .own bound⟩
      | none =>
          rw [← ih]
          constructor
          · rintro ⟨n, ⟨⟩, inherits⟩
            cases inherits with
            | own bound' => exact absurd (bound.symm.trans bound') (by simp)
            | parent _ link above => exact ⟨_, link, above⟩
          · rintro ⟨p, link, above⟩
            exact ⟨a, rfl, .parent bound link above⟩

/-- A search along the walk to the root computes what a node inherits. -/
theorem Walk.inherited_eq {chain : List N} (complete : Walk parent (some n) chain) :
    inherited parent own n k = chain.findSome? fun a => own a k := by
  apply Option.ext
  intro v
  rw [inherited_eq_some_iff, ← complete.inherits_iff]
  simp

end Inheritance

end O3jc.Library
