import Mathlib.Logic.Function.Basic

/-
This file embeds `retain_release.rs`. Objects and weak slots are named by their addresses, and each section that
the source runs under one shard lock is a function on the side table.
-/

namespace O3jc

/-- An object absent from the table has an implicit count of one. The `usize` of the count is a natural number, since no
program makes 2 ^ 64 retains. -/
structure SideTableEntry (Loc : Type) where
  retainCount : Nat
  deallocating : Bool
  weakLocations : List Loc
deriving DecidableEq

abbrev SideTable (Obj Loc : Type) := Obj → Option (SideTableEntry Loc)

section ShardSections

variable {Obj Loc : Type} [DecidableEq Obj] [DecidableEq Loc]

/-- The entry that `or_insert` puts into the table for an absent object. -/
def SideTableEntry.implicit : SideTableEntry Loc := ⟨1, false, []⟩

/-- The entry after `or_insert`. -/
def orInsert (table : SideTable Obj Loc) (obj : Obj) : SideTableEntry Loc := (table obj).getD .implicit

/-- `objc_retain` increments the count unless the object has begun deallocation. -/
def objcRetain (table : SideTable Obj Loc) (obj : Option Obj) : SideTable Obj Loc × Option Obj :=
  match obj with
  | none => (table, none)
  | some obj =>
      let entry := orInsert table obj
      if entry.deallocating then (Function.update table obj (some entry), none)
      else (Function.update table obj (some { entry with retainCount := entry.retainCount + 1 }), some obj)

/-- The match of `objc_release` gives the weak locations of an object whose count drops to zero. -/
def releaseEntry (table : SideTable Obj Loc) (obj : Obj) : SideTable Obj Loc × Option (List Loc) :=
  match table obj with
  | none => (table, some [])
  | some entry =>
      if entry.deallocating then (table, none)
      else if entry.retainCount ≤ 1 then
        (Function.update table obj (some { entry with deallocating := true, weakLocations := [] }),
          some entry.weakLocations)
      else (Function.update table obj (some { entry with retainCount := entry.retainCount - 1 }), none)

/-- `TABLE.remove` at the end of `objc_release`. -/
def removeEntry (table : SideTable Obj Loc) (obj : Obj) : SideTable Obj Loc := Function.update table obj none

/-- `objc_retain_count` reads the count of an entry. An object without one has the count one. -/
def objcRetainCount (table : SideTable Obj Loc) (obj : Option Obj) : Nat :=
  match obj with
  | none => 0
  | some obj => (table obj).elim 1 SideTableEntry.retainCount

/-- A location leaves the list of the object that its slot held. -/
def unregisterWeak (table : SideTable Obj Loc) (loc : Loc) (old : Option Obj) : SideTable Obj Loc :=
  match old with
  | none => table
  | some old =>
      match table old with
      | none => table
      | some entry =>
          Function.update table old
            (some { entry with weakLocations := entry.weakLocations.filter fun w => w != loc })

/-- A location enters the list of the new object. The second part is what the slot holds afterwards. -/
def registerWeak (table : SideTable Obj Loc) (loc : Loc) (new : Option Obj) : SideTable Obj Loc × Option Obj :=
  match new with
  | none => (table, none)
  | some new =>
      let entry := orInsert table new
      if entry.deallocating then (Function.update table new (some entry), none)
      else
        (Function.update table new (some { entry with weakLocations := entry.weakLocations ++ [loc] }), some new)

end ShardSections

/-- The side table and the contents of the weak slots. -/
structure Memory (Obj Loc : Type) where
  table : SideTable Obj Loc
  slots : Loc → Option Obj

section Calls

variable {Obj Loc : Type} [DecidableEq Obj] [DecidableEq Loc]

/-- `objc_store_weak` unregisters the slot from its old object and registers it with the new one. -/
def objcStoreWeak (mem : Memory Obj Loc) (loc : Loc) (new : Option Obj) : Memory Obj Loc × Option Obj :=
  let table := unregisterWeak mem.table loc (mem.slots loc)
  let (table, stored) := registerWeak table loc new
  (⟨table, Function.update mem.slots loc stored⟩, stored)

/-- `objc_init_weak` writes a null and then stores a non-null object. -/
def objcInitWeak (mem : Memory Obj Loc) (loc : Loc) (obj : Option Obj) : Memory Obj Loc × Option Obj :=
  let mem := { mem with slots := Function.update mem.slots loc none }
  match obj with
  | none => (mem, none)
  | some obj => objcStoreWeak mem loc (some obj)

/-- `objc_load_weak_retained` retains the object that the slot holds. -/
def objcLoadWeakRetained (mem : Memory Obj Loc) (loc : Loc) : Memory Obj Loc × Option Obj :=
  let (table, result) := objcRetain mem.table (mem.slots loc)
  ({ mem with table }, result)

/-- `objc_destroy_weak` unregisters the slot and clears it. -/
def objcDestroyWeak (mem : Memory Obj Loc) (loc : Loc) : Memory Obj Loc :=
  ⟨unregisterWeak mem.table loc (mem.slots loc), Function.update mem.slots loc none⟩

/-- `do_dealloc` zeroes each location and then sends `-dealloc`. -/
def doDealloc (dealloc : Obj → Memory Obj Loc → Memory Obj Loc) (mem : Memory Obj Loc) (obj : Obj)
    (weakLocations : List Loc) : Memory Obj Loc :=
  dealloc obj { mem with slots := weakLocations.foldl (fun slots loc => Function.update slots loc none) mem.slots }

/-- `objc_release` deallocates the object when its count drops to zero. -/
def objcRelease (dealloc : Obj → Memory Obj Loc → Memory Obj Loc) (mem : Memory Obj Loc) (obj : Option Obj) :
    Memory Obj Loc :=
  match obj with
  | none => mem
  | some obj =>
      match releaseEntry mem.table obj with
      | (table, none) => { mem with table }
      | (table, some weakLocations) =>
          let mem := doDealloc dealloc { mem with table } obj weakLocations
          { mem with table := removeEntry mem.table obj }

end Calls

end O3jc
