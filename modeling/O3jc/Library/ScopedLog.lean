import Mathlib.Data.List.Basic
import Mathlib.Data.List.ModifyLast

namespace O3jc.Library

/-- The items that were added to nested scopes, in the order in which they were added. -/
structure ScopedLog (α : Type) where
  depth : Nat
  entries : List (Nat × α)

namespace ScopedLog

variable {α : Type}

def empty : ScopedLog α := ⟨0, []⟩

/-- A new innermost scope. -/
def opened (log : ScopedLog α) : ScopedLog α := { log with depth := log.depth + 1 }

/-- An item goes to the innermost scope. Outside of all scopes it is lost. -/
def add (log : ScopedLog α) (item : α) : ScopedLog α :=
  if log.depth = 0 then log else { log with entries := log.entries ++ [(log.depth - 1, item)] }

/-- The items of the scopes from a depth on, the latest first. -/
def pending (log : ScopedLog α) (depth : Nat) : List α :=
  ((log.entries.filter fun entry => depth ≤ entry.1).map Prod.snd).reverse

/-- The scopes below a depth with their items. -/
def closed (log : ScopedLog α) (depth : Nat) : ScopedLog α :=
  ⟨depth, log.entries.filter fun entry => entry.1 < depth⟩

/-- The items of consecutive scopes with the numbers of the scopes. -/
def numbered (stack : List (List α)) (first : Nat) : List (Nat × α) :=
  (stack.zipIdx first).flatMap fun (items, scope) => items.map (Prod.mk scope)

/-- A stack of scopes as a log. Within a scope, and from a scope to an inner one, later items come later. -/
def ofStack (stack : List (List α)) : ScopedLog α := ⟨stack.length, numbered stack 0⟩

section Stacks

variable (stack lower upper : List (List α)) (items : List α) (item : α) (first : Nat)

theorem numbered_cons : numbered (items :: stack) first = items.map (Prod.mk first) ++ numbered stack (first + 1) := by
  simp [numbered]

theorem numbered_append :
    numbered (lower ++ upper) first = numbered lower first ++ numbered upper (first + lower.length) := by
  simp [numbered, List.zipIdx_append]

theorem numbered_snd : (numbered stack first).map Prod.snd = stack.flatten := by
  induction stack generalizing first with
  | nil => rfl
  | cons items rest ih =>
      rw [numbered_cons, List.map_append, ih, List.map_map, List.flatten_cons]
      congr 1
      exact List.map_id items

theorem numbered_bounds {entry : Nat × α} (member : entry ∈ numbered stack first) :
    first ≤ entry.1 ∧ entry.1 < first + stack.length := by
  induction stack generalizing first with
  | nil => contradiction
  | cons items rest ih =>
      rw [numbered_cons, List.mem_append, List.mem_map] at member
      rw [List.length_cons]
      rcases member with ⟨item, _, rfl⟩ | later
      · dsimp only
        omega
      · have := ih _ later
        omega

theorem numbered_concat :
    numbered (stack ++ [items]) first = numbered stack first ++ items.map (Prod.mk (first + stack.length)) := by
  rw [numbered_append, numbered_cons]
  exact congrArg _ (List.append_nil _)

theorem ofStack_opened : ofStack (stack ++ [[]]) = (ofStack stack).opened := by
  rw [ofStack, opened, ofStack, numbered_concat, List.map_nil, List.append_nil, List.length_append,
    List.length_singleton]

theorem ofStack_add : ofStack (stack.modifyLast (· ++ [item])) = (ofStack stack).add item := by
  rcases List.eq_nil_or_concat stack with rfl | ⟨before, items, rfl⟩
  · rfl
  · rw [List.concat_eq_append, List.modifyLast_concat, ofStack, ofStack, numbered_concat, numbered_concat, add]
    simp

/-- Closing scopes leaves the lower part of the stack. -/
theorem ofStack_closed : (ofStack (lower ++ upper)).closed lower.length = ofStack lower := by
  have below : (numbered lower 0).filter (fun entry => entry.1 < lower.length) = numbered lower 0 := by
    rw [List.filter_eq_self]
    intro entry member
    have := numbered_bounds lower 0 member
    simp
    omega
  have above : (numbered upper lower.length).filter (fun entry => entry.1 < lower.length) = [] := by
    rw [List.filter_eq_nil_iff]
    intro entry member
    have := numbered_bounds upper lower.length member
    simp
    omega
  rw [ofStack, closed, ofStack, numbered_append, Nat.zero_add, List.filter_append, below, above, List.append_nil]

/-- The upper part of the stack holds the pending items, the latest at the end. -/
theorem ofStack_pending : (ofStack (lower ++ upper)).pending lower.length = upper.flatten.reverse := by
  have below : (numbered lower 0).filter (fun entry => lower.length ≤ entry.1) = [] := by
    rw [List.filter_eq_nil_iff]
    intro entry member
    have := numbered_bounds lower 0 member
    simp
    omega
  have above : (numbered upper lower.length).filter (fun entry => lower.length ≤ entry.1) =
      numbered upper lower.length := by
    rw [List.filter_eq_self]
    intro entry member
    have := numbered_bounds upper lower.length member
    simp
    omega
  rw [ofStack, pending, numbered_append, Nat.zero_add, List.filter_append, below, above, List.nil_append, numbered_snd]

end Stacks

end ScopedLog

end O3jc.Library
