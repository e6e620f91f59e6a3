import O3jc.Library.Successors

namespace O3jc.Library

/-- The bounded preorder lists an element before the elements below it. -/
def preorder {A : Type} (children : A → List A) : Nat → A → List A
  | 0, _ => []
  | fuel + 1, a => a :: (children a).flatMap (preorder children fuel)

/-- A recursive traversal visits an element and then each of its children. -/
def traverse {S A : Type} (children : S → A → List A) (visit : S → A → S) : Nat → S → A → S
  | 0, state, _ => state
  | fuel + 1, state, a =>
      (children (visit state a) a).foldl (traverse children visit fuel) (visit state a)

theorem preorder_self {A : Type} (children : A → List A) {fuel : Nat} (positive : 0 < fuel) (a : A) :
    a ∈ preorder children fuel a := by
  cases fuel with
  | zero => exact absurd positive (Nat.lt_irrefl 0)
  | succ fuel => exact List.mem_cons_self

/-- One more unit of fuel reaches the children of a visited element. -/
theorem preorder_child {A : Type} {children : A → List A} {fuel : Nat} {root parent child : A}
    (visited : parent ∈ preorder children fuel root) (link : child ∈ children parent) :
    child ∈ preorder children (fuel + 1) root := by
  induction fuel generalizing root with
  | zero => simp [preorder] at visited
  | succ fuel ih =>
      rw [preorder, List.mem_cons] at visited
      rw [preorder, List.mem_cons]
      refine .inr (List.mem_flatMap.mpr ?_)
      rcases visited with same | below
      · subst same
        exact ⟨child, link, preorder_self children (Nat.succ_pos fuel) child⟩
      · obtain ⟨next, member, inside⟩ := List.mem_flatMap.mp below
        exact ⟨next, member, ih inside⟩

theorem preorder_mono {A : Type} {children : A → List A} {fuel more : Nat} (le : fuel ≤ more)
    {root a : A} (visited : a ∈ preorder children fuel root) : a ∈ preorder children more root := by
  induction fuel generalizing more root with
  | zero => simp [preorder] at visited
  | succ fuel ih =>
      cases more with
      | zero => omega
      | succ more =>
          rw [preorder, List.mem_cons] at visited ⊢
          rcases visited with same | below
          · exact .inl same
          · obtain ⟨next, member, inside⟩ := List.mem_flatMap.mp below
            exact .inr (List.mem_flatMap.mpr ⟨next, member, ih (by omega) inside⟩)

/-- What the root has and every child inherits holds of every visited element. -/
theorem forall_mem_preorder {A : Type} {children : A → List A} (holds : A → Prop)
    (inherits : ∀ p, holds p → ∀ c ∈ children p, holds c) {fuel : Nat} {root : A} (first : holds root) :
    ∀ d ∈ preorder children fuel root, holds d := by
  induction fuel generalizing root with
  | zero => simp [preorder]
  | succ fuel ih =>
      intro d visited
      rw [preorder, List.mem_cons] at visited
      rcases visited with rfl | below
      · exact first
      · obtain ⟨child, member, inside⟩ := List.mem_flatMap.mp below
        exact ih (inherits root first child member) d inside

/-- The traversal of an ancestor reaches every element whose chain up to it is listed. -/
theorem mem_preorder_of_chain {A : Type} {parent : A → Option A} {children : A → List A} {d a : A}
    {before after : List A} (complete : Walk parent (some d) (before ++ a :: after))
    (listed : ∀ c ∈ before, ∀ p, parent c = some p → c ∈ children p) :
    d ∈ preorder children (before.length + 1) a := by
  induction before generalizing d with
  | nil =>
      obtain ⟨_, split, _⟩ := walk_some_iff.mp complete
      obtain rfl : a = d := (List.cons.inj split).1
      exact preorder_self children (Nat.succ_pos 0) a
  | cons c rest ih =>
      obtain ⟨_, split, tail⟩ := walk_some_iff.mp complete
      obtain ⟨rfl, rfl⟩ := List.cons.inj split
      cases link : parent c with
      | none =>
          rw [link] at tail
          exact absurd (walk_none_iff.mp tail) (by simp)
      | some p =>
          rw [link] at tail
          have reached := ih tail fun e member => listed e (List.mem_cons_of_mem c member)
          exact preorder_child reached (listed c List.mem_cons_self p link)

theorem mem_preorder_of_walk {A : Type} {parent : A → Option A} {children : A → List A}
    {start : Option A} {walk : List A} (complete : Walk parent start walk) {a : A} (above : a ∈ walk)
    (listed : ∀ c ∈ walk, ∀ p, parent c = some p → c ∈ children p) :
    ∀ d ∈ start, d ∈ preorder children walk.length a := by
  rintro d rfl
  obtain ⟨before, after, rfl, _⟩ := complete.from_member above
  have reached := mem_preorder_of_chain complete fun c member => listed c (List.mem_append_left _ member)
  exact preorder_mono (by simp) reached

section Links

variable {A : Type} {parent : A → Option A} {children : A → List A}
  (links : ∀ p, ∀ c ∈ children p, parent c = some p)

include links

/-- The chain of a visited element climbs to the root through listed elements only. -/
theorem chain_of_mem_preorder {fuel : Nat} {root d : A} (visited : d ∈ preorder children fuel root)
    {walk : List A} (complete : Walk parent (some d) walk) :
    ∃ before after, walk = before ++ root :: after ∧ ∀ c ∈ before, ∃ p, c ∈ children p := by
  induction fuel generalizing root with
  | zero => simp [preorder] at visited
  | succ fuel ih =>
      rw [preorder, List.mem_cons] at visited
      rcases visited with rfl | below
      · obtain ⟨rest, split, _⟩ := walk_some_iff.mp complete
        exact ⟨[], rest, split, by simp⟩
      · obtain ⟨child, member, inside⟩ := List.mem_flatMap.mp below
        obtain ⟨before, after, split, listed⟩ := ih inside
        have tail := Walk.of_append (split ▸ complete)
        rw [links root child member] at tail
        obtain ⟨rest, above, _⟩ := walk_some_iff.mp tail
        refine ⟨before ++ [child], rest, by rw [split, above]; simp, fun c inChain => ?_⟩
        rcases List.mem_append.mp inChain with old | new
        · exact listed c old
        · exact ⟨root, List.mem_singleton.mp new ▸ member⟩

/-- The preorder of a forest without repeated children visits no element twice. -/
theorem preorder_nodup (distinct : ∀ p, (children p).Nodup) (finite : ∀ a, ∃ walk, Walk parent (some a) walk)
    (fuel : Nat) (root : A) : (preorder children fuel root).Nodup := by
  induction fuel generalizing root with
  | zero => exact List.nodup_nil
  | succ fuel ih =>
      -- The rest of a chain above a child of the root is the chain of the root.
      have above : ∀ {d child : A} {walk before after : List A}, Walk parent (some d) walk → child ∈ children root →
          walk = before ++ child :: after → Walk parent (some root) after := by
        rintro d child walk before after complete member rfl
        rw [← links root child member]
        exact complete.of_append
      rw [preorder, List.nodup_cons, List.nodup_flatMap]
      refine ⟨fun again => ?_, fun child _ => ih child, (distinct root).imp_of_mem ?_⟩
      · obtain ⟨child, member, inside⟩ := List.mem_flatMap.mp again
        obtain ⟨walk, complete⟩ := finite root
        obtain ⟨before, after, split, _⟩ := chain_of_mem_preorder links inside complete
        have lengths := congrArg List.length split
        rw [complete.unique (above complete member split)] at lengths
        simp at lengths
        omega
      · intro first second firstChild secondChild different d inFirst inSecond
        obtain ⟨walk, complete⟩ := finite d
        obtain ⟨before, after, split, _⟩ := chain_of_mem_preorder links inFirst complete
        obtain ⟨before', after', split', _⟩ := chain_of_mem_preorder links inSecond complete
        have same := (above complete firstChild split).unique (above complete secondChild split')
        have heads : before ++ [first] = before' ++ [second] := by
          apply List.append_cancel_right
          rw [List.append_assoc, List.append_assoc, List.singleton_append, List.singleton_append, ← split, same]
          exact split'
        exact different (List.cons.inj (List.append_inj_right' heads rfl)).1

end Links

/-- A recursion without a bound comes to its end when the list of each visited element's children does. -/
inductive Traversal {A : Type} (children : A → List A → Prop) : List A → List A → Prop
  | nil : Traversal children [] []
  | cons {a : A} {listed below rest after : List A} (ends : children a listed)
      (inside : Traversal children listed below) (later : Traversal children rest after) :
      Traversal children (a :: rest) (a :: (below ++ after))

theorem Traversal.flatMap {A : Type} {children : A → List A → Prop} {visits : A → List A} {items : List A}
    (each : ∀ a ∈ items, Traversal children [a] (visits a)) : Traversal children items (items.flatMap visits) := by
  induction items with
  | nil => exact .nil
  | cons a rest ih =>
      have later := ih fun b member => each b (List.mem_cons_of_mem a member)
      have first := each a List.mem_cons_self
      rw [List.flatMap_cons]
      generalize visits a = here at first
      cases first with
      | cons ends inside nothing =>
          cases nothing
          rw [List.append_nil, List.cons_append]
          exact .cons ends inside later

/-- A height that drops along the children bounds the recursion. -/
theorem traversal_preorder {A : Type} {relation : A → List A → Prop} {children : A → List A}
    (ends : ∀ a, relation a (children a)) (height : A → Nat)
    (lower : ∀ a, ∀ c ∈ children a, height c < height a) {fuel : Nat} {a : A} (fits : height a < fuel) :
    Traversal relation [a] (preorder children fuel a) := by
  induction fuel generalizing a with
  | zero => exact absurd fits (Nat.not_lt_zero _)
  | succ fuel ih =>
      have inside : Traversal relation (children a) ((children a).flatMap (preorder children fuel)) :=
        .flatMap fun c member => ih (Nat.lt_of_lt_of_le (lower a c member) (Nat.le_of_lt_succ fits))
      have whole := Traversal.cons (ends a) inside .nil
      rwa [List.append_nil] at whole

theorem foldl_traverse {S A : Type} {children : S → A → List A} {visit : S → A → S}
    (stable : ∀ state a, children (visit state a) = children state) (fuel : Nat)
    (each : ∀ state a, traverse children visit fuel state a =
      (preorder (children state) fuel a).foldl visit state)
    (items : List A) (state : S) :
    items.foldl (traverse children visit fuel) state =
      (items.flatMap (preorder (children state) fuel)).foldl visit state := by
  have kept : ∀ (visits : List A) (start : S), children (visits.foldl visit start) = children start := by
    intro visits
    induction visits with
    | nil => intro start; rfl
    | cons a rest ih => intro start; rw [List.foldl_cons, ih, stable]
  induction items generalizing state with
  | nil => rfl
  | cons a rest ih =>
      rw [List.foldl_cons, ih, each, kept, List.flatMap_cons, List.foldl_append]

/-- A traversal that keeps the links is a fold over the preorder. -/
theorem traverse_eq_foldl {S A : Type} {children : S → A → List A} {visit : S → A → S}
    (stable : ∀ state a, children (visit state a) = children state) (fuel : Nat) (state : S) (a : A) :
    traverse children visit fuel state a = (preorder (children state) fuel a).foldl visit state := by
  induction fuel generalizing state a with
  | zero => rfl
  | succ fuel ih =>
      rw [traverse, foldl_traverse stable fuel ih, stable, preorder, List.foldl_cons]

end O3jc.Library
