import O3jc.Library.Simulation
import O3jc.Memory.Invariant
import O3jc.Runtime.Autorelease

/-
This file runs the memory and pool functions on one thread, with the bodies of `-dealloc` and the loops of
`objc_autorelease_pool_pop` as frames on a stack.
-/

namespace O3jc

/-- What the thread returns to. A release is about to send `-dealloc`, a body of `-dealloc` is running, or a pop has
objects of the pool that it took off last still to release. -/
inductive Frame (Obj : Type) where
  | sending (obj : Obj)
  | body (obj : Obj)
  | drain (target : Nat) (remaining : List Obj)
deriving DecidableEq

/-- A reference belongs to the code of the thread, to a pool, or to nobody when it was autoreleased without a pool. -/
inductive Owner where
  | code
  | pool
  | nobody
deriving DecidableEq

/-- User code allocates an object with one reference or calls the runtime. The other three are the next step of a pop,
the message `-dealloc`, and the return from its body. -/
inductive PoolOp (Obj Loc : Type) where
  | allocate (obj : Obj)
  | retain (obj : Option Obj)
  | release (obj : Option Obj)
  | initWeak (loc : Loc) (obj : Option Obj)
  | storeWeak (loc : Loc) (new : Option Obj)
  | loadWeakRetained (loc : Loc)
  | destroyWeak (loc : Loc)
  | loadWeak (loc : Loc)
  | autorelease (obj : Option Obj)
  | push
  | pop (token : Nat)
  | next
  | sendDealloc (found : Bool)
  | returnDealloc

inductive PoolAnswer (Obj : Type) where
  | done
  | id (obj : Option Obj)
  | token (depth : Nat)
  | released (obj : Obj)
  | panic
deriving DecidableEq

/-- The memory, the pools and the frames of the thread, and the ledger of the references that were not released. -/
structure PoolMachine (Obj Loc : Type) extends Memory Obj Loc where
  stack : PoolStack Obj
  frames : List (Frame Obj)
  panicked : Bool
  refs : List (Owner × Obj)

section Steps

variable {Obj Loc : Type}

/-- Nothing is allocated and there is no pool. -/
def PoolMachine.start : PoolMachine Obj Loc where
  table _ := none
  slots _ := none
  stack := ⟨[], false⟩
  frames := []
  panicked := false
  refs := []

/-- The owner of what is autoreleased now. -/
def PoolStack.owner (stack : PoolStack Obj) : Owner := if stack.pools.isEmpty then .nobody else .pool

variable [DecidableEq Obj] [DecidableEq Loc] (m : PoolMachine Obj Loc)

/-- `objc_release` up to the message `-dealloc`. -/
def PoolMachine.beginRelease (obj : Obj) : PoolMachine Obj Loc :=
  match releaseEntry m.table obj with
  | (table, none) => { m with table }
  | (table, some weakLocations) =>
      { m with
        toMemory := doDealloc (fun _ mem => mem) { m.toMemory with table } obj weakLocations
        frames := .sending obj :: m.frames }

/-- `objc_release` after the body of `-dealloc`. -/
def PoolMachine.finishRelease (obj : Obj) (frames : List (Frame Obj)) : PoolMachine Obj Loc :=
  { m with table := removeEntry m.table obj, frames }

/-- The two parts with the effect of the body between them are `objc_release`. -/
theorem PoolMachine.release_eq (dealloc : Obj → Memory Obj Loc → Memory Obj Loc) (obj : Obj) :
    objcRelease dealloc m.toMemory (some obj) =
      match (releaseEntry m.table obj).2 with
      | none => (m.beginRelease obj).toMemory
      | some _ =>
          ({ m.beginRelease obj with toMemory := dealloc obj (m.beginRelease obj).toMemory }.finishRelease obj
            m.frames).toMemory := by
  rw [objcRelease, PoolMachine.beginRelease]
  rcases releaseEntry m.table obj with ⟨table, _ | weakLocations⟩
  · rfl
  · rfl

/-- The references after an object was autoreleased by the code that owned it. -/
def PoolMachine.handOver (obj : Option Obj) : List (Owner × Obj) :=
  match obj with
  | none => m.refs
  | some obj => (m.stack.owner, obj) :: m.refs.erase (.code, obj)

/-- A second borrow of the pools panics. After an `objc_load_weak` that panics, the retain that it has already made is
missing in the state, which no call can use. -/
def PoolMachine.panics : PoolMachine Obj Loc × PoolAnswer Obj := ({ m with panicked := true }, .panic)

/-- The call that user code makes. -/
def PoolMachine.invoke (op : PoolOp Obj Loc) : Option (PoolMachine Obj Loc × PoolAnswer Obj) :=
  match op with
  | .allocate obj => some ({ m with refs := (.code, obj) :: m.refs }, .done)
  | .retain obj =>
      let (table, result) := objcRetain m.table obj
      some ({ m with table, refs := gain m.refs .code result }, .id result)
  | .release none => some (m, .done)
  | .release (some obj) => some ({ m with refs := m.refs.erase (.code, obj) }.beginRelease obj, .done)
  | .initWeak loc obj =>
      let (toMemory, result) := objcInitWeak m.toMemory loc obj
      some ({ m with toMemory }, .id result)
  | .storeWeak loc new =>
      let (toMemory, result) := objcStoreWeak m.toMemory loc new
      some ({ m with toMemory }, .id result)
  | .loadWeakRetained loc =>
      let (toMemory, result) := objcLoadWeakRetained m.toMemory loc
      some ({ m with toMemory, refs := gain m.refs .code result }, .id result)
  | .destroyWeak loc => some ({ m with toMemory := objcDestroyWeak m.toMemory loc }, .done)
  | .loadWeak loc =>
      match objcLoadWeak m.stack m.toMemory loc with
      | none => some m.panics
      | some (stack, toMemory, result) =>
          some ({ m with toMemory, stack, refs := gain m.refs m.stack.owner result }, .id result)
  | .autorelease obj =>
      match objcAutorelease m.stack obj with
      | none => some m.panics
      | some (stack, result) => some ({ m with stack, refs := m.handOver obj }, .id result)
  | .push =>
      match objcAutoreleasePoolPush m.stack with
      | none => some m.panics
      | some (stack, token) => some ({ m with stack }, .token token)
  | .pop token =>
      match m.stack.beginPop with
      | none => some m.panics
      | some stack => some ({ m with stack, frames := .drain token [] :: m.frames }, .done)
  | _ => none

/-- One step of the thread. User code runs at the bottom and in the bodies of `-dealloc`. -/
def PoolMachine.step (op : PoolOp Obj Loc) : Option (PoolMachine Obj Loc × PoolAnswer Obj) :=
  if m.panicked then none
  else
    match op, m.frames with
    | .next, .drain target (obj :: rest) :: frames =>
        some ({ m with
          frames := .drain target rest :: frames
          refs := m.refs.erase (.pool, obj) }.beginRelease obj, .released obj)
    | .next, .drain target [] :: frames =>
        match m.stack.popPool target with
        | (stack, some remaining) => some ({ m with stack, frames := .drain target remaining :: frames }, .done)
        | (stack, none) => some ({ m with stack, frames }, .done)
    | .sendDealloc true, .sending obj :: frames => some ({ m with frames := .body obj :: frames }, .done)
    | .sendDealloc false, .sending obj :: frames => some (m.finishRelease obj frames, .done)
    | .returnDealloc, .body obj :: frames => some (m.finishRelease obj frames, .done)
    | op, [] => m.invoke op
    | op, .body _ :: _ => m.invoke op
    | _, _ => none

/-- What one step of the thread does. -/
inductive PoolMachine.Effect : PoolOp Obj Loc → PoolMachine Obj Loc → PoolAnswer Obj → Prop
  | allocate {obj : Obj} : Effect (.allocate obj) { m with refs := (.code, obj) :: m.refs } .done
  | retain {obj : Option Obj} :
      Effect (.retain obj)
        { m with table := (objcRetain m.table obj).1, refs := gain m.refs .code (objcRetain m.table obj).2 }
        (.id (objcRetain m.table obj).2)
  | releaseNull : Effect (.release none) m .done
  | release {obj : Obj} :
      Effect (.release (some obj)) ({ m with refs := m.refs.erase (.code, obj) }.beginRelease obj) .done
  | initWeak {loc : Loc} {obj : Option Obj} :
      Effect (.initWeak loc obj) { m with toMemory := (objcInitWeak m.toMemory loc obj).1 }
        (.id (objcInitWeak m.toMemory loc obj).2)
  | storeWeak {loc : Loc} {new : Option Obj} :
      Effect (.storeWeak loc new) { m with toMemory := (objcStoreWeak m.toMemory loc new).1 }
        (.id (objcStoreWeak m.toMemory loc new).2)
  | loadWeakRetained {loc : Loc} :
      Effect (.loadWeakRetained loc)
        { m with
          toMemory := (objcLoadWeakRetained m.toMemory loc).1
          refs := gain m.refs .code (objcLoadWeakRetained m.toMemory loc).2 }
        (.id (objcLoadWeakRetained m.toMemory loc).2)
  | destroyWeak {loc : Loc} : Effect (.destroyWeak loc) { m with toMemory := objcDestroyWeak m.toMemory loc } .done
  | loadWeak {loc : Loc} {stack : PoolStack Obj} {mem : Memory Obj Loc} {result : Option Obj}
      (loaded : objcLoadWeak m.stack m.toMemory loc = some (stack, mem, result)) :
      Effect (.loadWeak loc) { m with toMemory := mem, stack, refs := gain m.refs m.stack.owner result } (.id result)
  | autorelease {obj result : Option Obj} {stack : PoolStack Obj}
      (added : objcAutorelease m.stack obj = some (stack, result)) :
      Effect (.autorelease obj) { m with stack, refs := m.handOver obj } (.id result)
  | push {stack : PoolStack Obj} {token : Nat} (pushed : objcAutoreleasePoolPush m.stack = some (stack, token)) :
      Effect .push { m with stack } (.token token)
  | pop {token : Nat} {stack : PoolStack Obj} (begun : m.stack.beginPop = some stack) :
      Effect (.pop token) { m with stack, frames := .drain token [] :: m.frames } .done
  | loadWeakPanics {loc : Loc} (borrowed : objcLoadWeak m.stack m.toMemory loc = none) :
      Effect (.loadWeak loc) { m with panicked := true } .panic
  | autoreleasePanics {obj : Option Obj} (borrowed : objcAutorelease m.stack obj = none) :
      Effect (.autorelease obj) { m with panicked := true } .panic
  | pushPanics (borrowed : objcAutoreleasePoolPush m.stack = none) : Effect .push { m with panicked := true } .panic
  | popPanics {token : Nat} (borrowed : m.stack.beginPop = none) :
      Effect (.pop token) { m with panicked := true } .panic
  | drain {target : Nat} {obj : Obj} {rest : List Obj} {frames : List (Frame Obj)}
      (top : m.frames = .drain target (obj :: rest) :: frames) :
      Effect .next
        ({ m with frames := .drain target rest :: frames, refs := m.refs.erase (.pool, obj) }.beginRelease obj)
        (.released obj)
  | take {target : Nat} {remaining : List Obj} {frames : List (Frame Obj)} {stack : PoolStack Obj}
      (top : m.frames = .drain target [] :: frames) (taken : m.stack.popPool target = (stack, some remaining)) :
      Effect .next { m with stack, frames := .drain target remaining :: frames } .done
  | finish {target : Nat} {frames : List (Frame Obj)} {stack : PoolStack Obj}
      (top : m.frames = .drain target [] :: frames) (ended : m.stack.popPool target = (stack, none)) :
      Effect .next { m with stack, frames } .done
  | sendFound {obj : Obj} {frames : List (Frame Obj)} (top : m.frames = .sending obj :: frames) :
      Effect (.sendDealloc true) { m with frames := .body obj :: frames } .done
  | sendMissing {obj : Obj} {frames : List (Frame Obj)} (top : m.frames = .sending obj :: frames) :
      Effect (.sendDealloc false) (m.finishRelease obj frames) .done
  | returnDealloc {obj : Obj} {frames : List (Frame Obj)} (top : m.frames = .body obj :: frames) :
      Effect .returnDealloc (m.finishRelease obj frames) .done

variable {m} {next : PoolMachine Obj Loc} {op : PoolOp Obj Loc} {answer : PoolAnswer Obj}

theorem PoolMachine.invoke_effect (result : m.invoke op = some (next, answer)) : m.Effect op next answer := by
  unfold PoolMachine.invoke at result
  split at result
  · obtain ⟨rfl, rfl⟩ := Prod.mk.inj (Option.some.inj result)
    exact .allocate
  · obtain ⟨rfl, rfl⟩ := Prod.mk.inj (Option.some.inj result)
    exact .retain
  · obtain ⟨rfl, rfl⟩ := Prod.mk.inj (Option.some.inj result)
    exact .releaseNull
  · obtain ⟨rfl, rfl⟩ := Prod.mk.inj (Option.some.inj result)
    exact .release
  · obtain ⟨rfl, rfl⟩ := Prod.mk.inj (Option.some.inj result)
    exact .initWeak
  · obtain ⟨rfl, rfl⟩ := Prod.mk.inj (Option.some.inj result)
    exact .storeWeak
  · obtain ⟨rfl, rfl⟩ := Prod.mk.inj (Option.some.inj result)
    exact .loadWeakRetained
  · obtain ⟨rfl, rfl⟩ := Prod.mk.inj (Option.some.inj result)
    exact .destroyWeak
  · split at result
    · obtain ⟨rfl, rfl⟩ := Prod.mk.inj (Option.some.inj result)
      exact .loadWeakPanics ‹_›
    · obtain ⟨rfl, rfl⟩ := Prod.mk.inj (Option.some.inj result)
      exact .loadWeak ‹_›
  · split at result
    · obtain ⟨rfl, rfl⟩ := Prod.mk.inj (Option.some.inj result)
      exact .autoreleasePanics ‹_›
    · obtain ⟨rfl, rfl⟩ := Prod.mk.inj (Option.some.inj result)
      exact .autorelease ‹_›
  · split at result
    · obtain ⟨rfl, rfl⟩ := Prod.mk.inj (Option.some.inj result)
      exact .pushPanics ‹_›
    · obtain ⟨rfl, rfl⟩ := Prod.mk.inj (Option.some.inj result)
      exact .push ‹_›
  · split at result
    · obtain ⟨rfl, rfl⟩ := Prod.mk.inj (Option.some.inj result)
      exact .popPanics ‹_›
    · obtain ⟨rfl, rfl⟩ := Prod.mk.inj (Option.some.inj result)
      exact .pop ‹_›
  · contradiction

theorem PoolMachine.step_effect (result : m.step op = some (next, answer)) :
    m.panicked = false ∧ m.Effect op next answer := by
  unfold PoolMachine.step at result
  split at result
  · contradiction
  · rename_i running
    refine ⟨by simpa using running, ?_⟩
    split at result
    · obtain ⟨rfl, rfl⟩ := Prod.mk.inj (Option.some.inj result)
      exact .drain ‹_›
    · split at result
      · obtain ⟨rfl, rfl⟩ := Prod.mk.inj (Option.some.inj result)
        exact .take ‹_› ‹_›
      · obtain ⟨rfl, rfl⟩ := Prod.mk.inj (Option.some.inj result)
        exact .finish ‹_› ‹_›
    · obtain ⟨rfl, rfl⟩ := Prod.mk.inj (Option.some.inj result)
      exact .sendFound ‹_›
    · obtain ⟨rfl, rfl⟩ := Prod.mk.inj (Option.some.inj result)
      exact .sendMissing ‹_›
    · obtain ⟨rfl, rfl⟩ := Prod.mk.inj (Option.some.inj result)
      exact .returnDealloc ‹_›
    · exact PoolMachine.invoke_effect result
    · exact PoolMachine.invoke_effect result
    · contradiction

end Steps

end O3jc
