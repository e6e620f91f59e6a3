import Mathlib.Data.List.Nodup
import Mathlib.Data.Finset.Card
import Mathlib.Data.List.Dedup

namespace O3jc.Library

/-- The bounded walk lists a start and the elements that follow it. -/
def successors {A : Type} (next : A → Option A) : Nat → Option A → List A
  | 0, _ => []
  | _ + 1, none => []
  | fuel + 1, some a => a :: successors next fuel (next a)

/-- The list is the whole walk from its start to its end. -/
inductive Walk {A : Type} (next : A → Option A) : Option A → List A → Prop
  | nil : Walk next none []
  | cons (a : A) (rest : List A) (tail : Walk next (next a) rest) : Walk next (some a) (a :: rest)

theorem walk_none_iff {A : Type} {next : A → Option A} {walk : List A} :
    Walk next none walk ↔ walk = [] := by
  constructor
  · intro complete
    cases complete
    rfl
  · rintro rfl
    exact .nil

theorem walk_some_iff {A : Type} {next : A → Option A} {a : A} {walk : List A} :
    Walk next (some a) walk ↔ ∃ rest, walk = a :: rest ∧ Walk next (next a) rest := by
  constructor
  · intro complete
    cases complete with
    | cons _ rest tail => exact ⟨rest, rfl, tail⟩
  · rintro ⟨rest, rfl, tail⟩
    exact .cons a rest tail

/-- A start has at most one complete walk. -/
theorem Walk.unique {A : Type} {next : A → Option A} {start : Option A} {first second : List A}
    (left : Walk next start first) (right : Walk next start second) : first = second := by
  induction left generalizing second with
  | nil => exact (walk_none_iff.mp right).symm
  | cons a rest tail ih =>
      obtain ⟨other, rfl, otherTail⟩ := walk_some_iff.mp right
      rw [ih otherTail]

/-- Enough fuel gives the complete walk. -/
theorem Walk.successors_eq {A : Type} {next : A → Option A} {start : Option A} {walk : List A}
    (complete : Walk next start walk) {fuel : Nat} (fits : walk.length ≤ fuel) :
    successors next fuel start = walk := by
  induction complete generalizing fuel with
  | nil => cases fuel <;> rfl
  | cons a rest tail ih =>
      cases fuel with
      | zero => simp at fits
      | succ fuel =>
          simp only [successors]
          rw [ih (by simpa using fits)]

/-- What follows an element of a complete walk is the walk from its successor. -/
theorem Walk.of_append {A : Type} {next : A → Option A} {start : Option A} {before after : List A} {a : A}
    (complete : Walk next start (before ++ a :: after)) : Walk next (next a) after := by
  induction before generalizing start with
  | nil =>
      cases complete with
      | cons _ _ tail => exact tail
  | cons b rest ih =>
      cases complete with
      | cons _ _ tail => exact ih tail

/-- Each member starts a complete walk inside the first one. -/
theorem Walk.from_member {A : Type} {next : A → Option A} {start : Option A} {walk : List A}
    (complete : Walk next start walk) {a : A} (member : a ∈ walk) :
    ∃ before after, walk = before ++ a :: after ∧ Walk next (next a) after := by
  obtain ⟨before, after, rfl⟩ := List.append_of_mem member
  exact ⟨before, after, rfl, complete.of_append⟩

/-- A complete walk visits no element twice. -/
theorem Walk.nodup {A : Type} {next : A → Option A} {start : Option A} {walk : List A}
    (complete : Walk next start walk) : walk.Nodup := by
  induction complete with
  | nil => exact List.nodup_nil
  | cons a rest tail ih =>
      refine List.nodup_cons.mpr ⟨?_, ih⟩
      intro again
      obtain ⟨before, after, split, suffix⟩ := tail.from_member again
      have same : rest = after := tail.unique suffix
      have lengths := congrArg List.length split
      rw [same] at lengths
      simp at lengths
      omega

/-- A walk below a bound has at most that many members. -/
theorem Walk.length_le {next : Nat → Option Nat} {start : Option Nat} {walk : List Nat}
    (complete : Walk next start walk) {bound : Nat} (below : ∀ a ∈ walk, a < bound) :
    walk.length ≤ bound := by
  have inside : walk.toFinset ⊆ Finset.range bound := by
    intro a member
    exact Finset.mem_range.mpr (below a (List.mem_toFinset.mp member))
  have card := Finset.card_le_card inside
  rwa [List.toFinset_card_of_nodup complete.nodup, Finset.card_range] at card

/-- A walk depends only on the links of its members. -/
theorem Walk.congr {A : Type} {next other : A → Option A} {start : Option A} {walk : List A}
    (complete : Walk next start walk) (same : ∀ a ∈ walk, other a = next a) :
    Walk other start walk := by
  induction complete with
  | nil => exact .nil
  | cons a rest tail ih =>
      refine .cons a rest ?_
      rw [same a List.mem_cons_self]
      exact ih fun b member => same b (List.mem_cons_of_mem a member)

/-- A search along a walk depends only on what it finds at the members. -/
theorem findSome_congr {A B : Type} {f g : A → Option B} {walk : List A} (same : ∀ a ∈ walk, f a = g a) :
    walk.findSome? f = walk.findSome? g := by
  rw [← List.head?_filterMap, ← List.head?_filterMap, List.filterMap_congr same]

/-- The first hits of related lists have the same image. -/
theorem find_map_of_forall₂ {A B C : Type} {related : A → B → Prop} {hit : A → Bool} {hit' : B → Bool} {f : A → C}
    {g : B → C} (agrees : ∀ a b, related a b → hit a = hit' b) (same : ∀ a b, related a b → f a = g b) {xs : List A}
    {ys : List B} (elements : List.Forall₂ related xs ys) : (xs.find? hit).map f = (ys.find? hit').map g := by
  induction elements with
  | nil => rfl
  | cons first _ ih =>
      rw [List.find?_cons, List.find?_cons, agrees _ _ first]
      split
      · exact congrArg some (same _ _ first)
      · exact ih

/-- A map that commutes with the links carries a walk to a walk. -/
theorem Walk.map {A B : Type} {next : A → Option A} {other : B → Option B} {start : Option A} {walk : List A}
    (complete : Walk next start walk) (f : A → B) (commutes : ∀ a ∈ walk, other (f a) = (next a).map f) :
    Walk other (start.map f) (walk.map f) := by
  induction complete with
  | nil => exact .nil
  | cons a rest _ ih =>
      refine .cons (f a) (rest.map f) ?_
      rw [commutes a List.mem_cons_self]
      exact ih fun b member => commutes b (List.mem_cons_of_mem a member)

/-- A decreasing rank makes every walk finite. -/
theorem Walk.exists_of_rank {A : Type} {next : A → Option A} (rank : A → Nat)
    (decreasing : ∀ a b, next a = some b → rank b < rank a) (start : Option A) :
    ∃ walk, Walk next start walk := by
  have bounded : ∀ bound start, (∀ a ∈ start, rank a < bound) → ∃ walk, Walk next start walk := by
    intro bound
    induction bound with
    | zero =>
        rintro (_ | a) small
        · exact ⟨[], .nil⟩
        · exact absurd (small a rfl) (Nat.not_lt_zero _)
    | succ bound ih =>
        rintro (_ | a) small
        · exact ⟨[], .nil⟩
        · obtain ⟨rest, tail⟩ := ih (next a) fun b link => by
            have lower := decreasing a b link
            have upper := small a rfl
            omega
          exact ⟨a :: rest, .cons a rest tail⟩
  cases start with
  | none => exact ⟨[], .nil⟩
  | some a =>
      refine bounded (rank a + 1) (some a) ?_
      intro b same
      rw [Option.mem_some_iff] at same
      subst same
      exact Nat.lt_succ_self _

/-- A property that the links keep holds of the whole walk. -/
theorem Walk.forall_mem {A : Type} {next : A → Option A} {start : Option A} {walk : List A}
    (complete : Walk next start walk) (holds : A → Prop) (first : ∀ a ∈ start, holds a)
    (kept : ∀ a b, holds a → next a = some b → holds b) : ∀ a ∈ walk, holds a := by
  induction complete with
  | nil => simp
  | cons a rest tail ih =>
      have here : holds a := first a rfl
      intro b member
      rcases List.mem_cons.mp member with same | later
      · exact same ▸ here
      · exact ih (fun c link => kept a c here link) b later

/-- A nonempty complete walk ends at an element without a successor. -/
theorem Walk.exists_last {A : Type} {next : A → Option A} {start : Option A} {walk : List A}
    (complete : Walk next start walk) (nonempty : walk ≠ []) : ∃ a ∈ walk, next a = none := by
  induction complete with
  | nil => exact absurd rfl nonempty
  | cons a rest tail ih =>
      cases link : next a with
      | none => exact ⟨a, List.mem_cons_self, link⟩
      | some b =>
          obtain ⟨others, split, _⟩ := walk_some_iff.mp (link ▸ tail)
          obtain ⟨last, member, ends⟩ := ih (by simp [split])
          exact ⟨last, List.mem_cons_of_mem a member, ends⟩

/-- Only one element of a complete walk has no successor. -/
theorem Walk.last_unique {A : Type} {next : A → Option A} {start : Option A} {walk : List A}
    (complete : Walk next start walk) {a b : A} (first : a ∈ walk) (second : b ∈ walk)
    (aEnds : next a = none) (bEnds : next b = none) : a = b := by
  induction complete with
  | nil => simp at first
  | cons c rest tail ih =>
      rcases List.mem_cons.mp first with rfl | inA
      · rw [aEnds, walk_none_iff] at tail
        rw [tail] at second
        exact (List.mem_singleton.mp second).symm
      · rcases List.mem_cons.mp second with rfl | inB
        · rw [bEnds, walk_none_iff] at tail
          rw [tail] at inA
          simp at inA
        · exact ih inA inB

end O3jc.Library
