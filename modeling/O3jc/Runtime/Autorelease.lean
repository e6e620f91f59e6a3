import O3jc.Runtime.RetainRelease
import Mathlib.Data.List.ModifyLast

/-
This file embeds `autorelease.rs` and the weak load that autoreleases. A function that calls `borrow_mut` returns
nothing when the borrow panics.
-/

namespace O3jc

/-- `POOL_STACK` of one thread. The last pool is the current one. -/
structure PoolStack (Obj : Type) where
  pools : List (List Obj)
  borrowed : Bool
deriving DecidableEq

section Calls

variable {Obj Loc : Type} (stack : PoolStack Obj)

/-- A second mutable borrow panics. -/
def PoolStack.borrowMut : Option (List (List Obj)) := if stack.borrowed then none else some stack.pools

/-- `objc_autorelease_pool_push` returns the depth before the push as the token. -/
def objcAutoreleasePoolPush : Option (PoolStack Obj × Nat) := do
  let pools ← stack.borrowMut
  return ({ stack with pools := pools ++ [[]] }, pools.length)

/-- `objc_autorelease` adds the object to the current pool. Without a pool the object is leaked. -/
def objcAutorelease (obj : Option Obj) : Option (PoolStack Obj × Option Obj) :=
  match obj with
  | none => some (stack, none)
  | some ptr => do
      let pools ← stack.borrowMut
      return ({ stack with pools := pools.modifyLast (· ++ [ptr]) }, obj)

/-- `objc_load_weak` autoreleases the object that the load retained. -/
def objcLoadWeak [DecidableEq Obj] (mem : Memory Obj Loc) (loc : Loc) :
    Option (PoolStack Obj × Memory Obj Loc × Option Obj) := do
  let (mem, obj) := objcLoadWeakRetained mem loc
  let (stack, obj) ← objcAutorelease stack obj
  return (stack, mem, obj)

/-- `objc_autorelease_pool_pop` takes the borrow and keeps it over all its releases. -/
def PoolStack.beginPop : Option (PoolStack Obj) := stack.borrowMut.map fun pools => ⟨pools, true⟩

/-- The `while` loop of `objc_autorelease_pool_pop` takes the last pool off, to be released from its end, or ends the
borrow. -/
def PoolStack.popPool (targetDepth : Nat) : PoolStack Obj × Option (List Obj) :=
  if targetDepth < stack.pools.length then
    ({ stack with pools := stack.pools.dropLast }, stack.pools.getLast?.map List.reverse)
  else ({ stack with borrowed := false }, none)

end Calls

end O3jc
