import O3jc.Library.Transition
import O3jc.Runtime.RetainRelease
import Mathlib.Data.List.Count

/-
This file takes the calls of `retain_release.rs` apart into the lock-protected steps that threads interleave.
-/

namespace O3jc

open Library

/-- Where a thread stands. From `unregistering` to `registering`, in `loading`, `destroying` and `clearing` it holds
the stripe lock of the slot. -/
inductive Call (Obj Loc : Type) where
  | user
  | retained (result : Option Obj)
  | awaiting (loc : Loc) (new : Option Obj)
  | unregistering (loc : Loc) (new old : Option Obj)
  | registering (loc : Loc) (new : Option Obj)
  | stored (loc : Loc) (result : Option Obj)
  | loading (loc : Loc) (obj : Obj)
  | loaded (loc : Loc) (result : Option Obj)
  | destroying (loc : Loc) (old : Option Obj)
  | clearing (loc : Loc)
  | destroyed (loc : Loc)
  | zeroing (obj : Obj) (remaining : List Loc)
  | removing (obj : Obj)
deriving DecidableEq

/-- A thread allocates an object with one reference, hands a reference over, calls the runtime, takes the next step
of its call, sends `-dealloc`, or returns from the body of a `-dealloc`. -/
inductive MemOp (Tid Obj Loc : Type) where
  | allocate (obj : Obj)
  | give (other : Tid) (obj : Obj)
  | retain (obj : Option Obj)
  | release (obj : Option Obj)
  | initWeak (loc : Loc) (obj : Option Obj)
  | storeWeak (loc : Loc) (new : Option Obj)
  | loadWeakRetained (loc : Loc)
  | destroyWeak (loc : Loc)
  | next
  | sendDealloc (found : Bool)
  | returnDealloc

/-- The shared memory, the position of each thread, and three ledgers: the references that threads own, the thread
that deallocates an object, and the number of `-dealloc` messages since the allocation. -/
structure Machine (Tid Obj Loc Stripe : Type) extends Memory Obj Loc where
  locks : Stripe → Option Tid
  call : Tid → Call Obj Loc
  bodies : Tid → List Obj
  refs : List (Tid × Obj)
  deallocator : Obj → Option Tid
  deallocs : Obj → Nat

section Steps

variable {Tid Obj Loc Stripe : Type}

/-- Nothing is allocated and no thread has made a call. -/
def Machine.start : Machine Tid Obj Loc Stripe where
  table _ := none
  slots _ := none
  locks _ := none
  call _ := .user
  bodies _ := []
  refs := []
  deallocator _ := none
  deallocs _ := 0

variable [DecidableEq Tid] [DecidableEq Obj] [DecidableEq Loc] [DecidableEq Stripe] (stripe : Loc → Stripe)

def Machine.enter (m : Machine Tid Obj Loc Stripe) (thread : Tid) (call : Call Obj Loc) :
    Machine Tid Obj Loc Stripe :=
  { m with call := Function.update m.call thread call }

/-- A thread that finds the stripe lock free takes it. -/
def Machine.lock (m : Machine Tid Obj Loc Stripe) (thread : Tid) (loc : Loc) (call : Call Obj Loc) :
    Machine Tid Obj Loc Stripe :=
  { m with
    locks := Function.update m.locks (stripe loc) (some thread)
    call := Function.update m.call thread call }

def Machine.unlock (m : Machine Tid Obj Loc Stripe) (thread : Tid) (loc : Loc) (call : Call Obj Loc) :
    Machine Tid Obj Loc Stripe :=
  { m with
    locks := Function.update m.locks (stripe loc) none
    call := Function.update m.call thread call }

/-- The references after a call that returned a retained object to its thread. -/
def gain (refs : List (Tid × Obj)) (thread : Tid) (result : Option Obj) : List (Tid × Obj) :=
  match result with
  | none => refs
  | some obj => (thread, obj) :: refs

/-- The next step inside a call. A thread that needs a stripe lock waits until it is free. -/
def Machine.advance (m : Machine Tid Obj Loc Stripe) (thread : Tid) : Option (Machine Tid Obj Loc Stripe) :=
  match m.call thread with
  | .awaiting loc new =>
      if m.locks (stripe loc) = none then some (m.lock stripe thread loc (.unregistering loc new (m.slots loc)))
      else none
  | .unregistering loc new old =>
      some ({ m with table := unregisterWeak m.table loc old }.enter thread (.registering loc new))
  | .registering loc new =>
      let (table, stored) := registerWeak m.table loc new
      some ({ m with table, slots := Function.update m.slots loc stored }.unlock stripe thread loc
        (.stored loc stored))
  | .loading loc obj =>
      let (table, result) := objcRetain m.table (some obj)
      some ({ m with table, refs := gain m.refs thread result }.unlock stripe thread loc (.loaded loc result))
  | .destroying loc old =>
      some ({ m with table := unregisterWeak m.table loc old }.enter thread (.clearing loc))
  | .clearing loc =>
      some ({ m with slots := Function.update m.slots loc none }.unlock stripe thread loc (.destroyed loc))
  | .zeroing obj (loc :: remaining) =>
      if m.locks (stripe loc) = none then
        some ({ m with slots := Function.update m.slots loc none }.enter thread (.zeroing obj remaining))
      else none
  | .removing obj =>
      some ({ m with
        table := removeEntry m.table obj
        deallocator := Function.update m.deallocator obj none }.enter thread .user)
  | .retained _ => some (m.enter thread .user)
  | .stored _ _ => some (m.enter thread .user)
  | .loaded _ _ => some (m.enter thread .user)
  | .destroyed _ => some (m.enter thread .user)
  | _ => none

/-- The call that a thread in user code makes. -/
def Machine.invoke (m : Machine Tid Obj Loc Stripe) (thread : Tid) (op : MemOp Tid Obj Loc) :
    Option (Machine Tid Obj Loc Stripe) :=
  match op with
  | .allocate obj =>
      some { m with refs := (thread, obj) :: m.refs, deallocs := Function.update m.deallocs obj 0 }
  | .give other obj => some { m with refs := (other, obj) :: m.refs.erase (thread, obj) }
  | .retain obj =>
      let (table, result) := objcRetain m.table obj
      some ({ m with table, refs := gain m.refs thread result }.enter thread (.retained result))
  | .release none => some m
  | .release (some obj) =>
      let refs := m.refs.erase (thread, obj)
      match releaseEntry m.table obj with
      | (table, none) => some { m with table, refs }
      | (table, some weakLocations) =>
          some ({ m with
            table
            refs
            deallocator := Function.update m.deallocator obj (some thread) }.enter thread
              (.zeroing obj weakLocations))
  | .initWeak loc obj =>
      some ({ m with slots := Function.update m.slots loc none }.enter thread
        (match obj with
          | none => .stored loc none
          | some obj => .awaiting loc (some obj)))
  | .storeWeak loc new => some (m.enter thread (.awaiting loc new))
  | .loadWeakRetained loc =>
      if m.locks (stripe loc) = none then
        match m.slots loc with
        | none => some (m.enter thread (.loaded loc none))
        | some obj => some (m.lock stripe thread loc (.loading loc obj))
      else none
  | .destroyWeak loc =>
      if m.locks (stripe loc) = none then some (m.lock stripe thread loc (.destroying loc (m.slots loc))) else none
  | .returnDealloc =>
      match m.bodies thread with
      | [] => none
      | obj :: rest => some ({ m with bodies := Function.update m.bodies thread rest }.enter thread (.removing obj))
  | _ => none

/-- One atomic step of one thread. -/
def Machine.step (m : Machine Tid Obj Loc Stripe) (label : Tid × MemOp Tid Obj Loc) :
    Option (Machine Tid Obj Loc Stripe) :=
  match label.2, m.call label.1 with
  | .next, _ => m.advance stripe label.1
  | .sendDealloc found, .zeroing obj [] =>
      let m := { m with deallocs := Function.update m.deallocs obj (m.deallocs obj + 1) }
      if found then
        some ({ m with bodies := Function.update m.bodies label.1 (obj :: m.bodies label.1) }.enter label.1 .user)
      else some (m.enter label.1 (.removing obj))
  | op, .user => m.invoke stripe label.1 op
  | _, _ => none

/-- What one step of a thread does. -/
inductive Machine.Effect (m : Machine Tid Obj Loc Stripe) (thread : Tid) :
    MemOp Tid Obj Loc → Machine Tid Obj Loc Stripe → Prop
  | allocate {obj : Obj} (user : m.call thread = .user) :
      Effect m thread (.allocate obj)
        { m with refs := (thread, obj) :: m.refs, deallocs := Function.update m.deallocs obj 0 }
  | give {other : Tid} {obj : Obj} (user : m.call thread = .user) :
      Effect m thread (.give other obj) { m with refs := (other, obj) :: m.refs.erase (thread, obj) }
  | retain {obj : Option Obj} (user : m.call thread = .user) :
      Effect m thread (.retain obj)
        ({ m with
          table := (objcRetain m.table obj).1
          refs := gain m.refs thread (objcRetain m.table obj).2 }.enter thread
            (.retained (objcRetain m.table obj).2))
  | releaseNull (user : m.call thread = .user) : Effect m thread (.release none) m
  | release {obj : Obj} {table : SideTable Obj Loc} (user : m.call thread = .user)
      (kept : releaseEntry m.table obj = (table, none)) :
      Effect m thread (.release (some obj)) { m with table, refs := m.refs.erase (thread, obj) }
  | dealloc {obj : Obj} {table : SideTable Obj Loc} {weakLocations : List Loc} (user : m.call thread = .user)
      (dropped : releaseEntry m.table obj = (table, some weakLocations)) :
      Effect m thread (.release (some obj))
        ({ m with
          table
          refs := m.refs.erase (thread, obj)
          deallocator := Function.update m.deallocator obj (some thread) }.enter thread (.zeroing obj weakLocations))
  | initNull {loc : Loc} (user : m.call thread = .user) :
      Effect m thread (.initWeak loc none)
        ({ m with slots := Function.update m.slots loc none }.enter thread (.stored loc none))
  | init {loc : Loc} {obj : Obj} (user : m.call thread = .user) :
      Effect m thread (.initWeak loc (some obj))
        ({ m with slots := Function.update m.slots loc none }.enter thread (.awaiting loc (some obj)))
  | store {loc : Loc} {new : Option Obj} (user : m.call thread = .user) :
      Effect m thread (.storeWeak loc new) (m.enter thread (.awaiting loc new))
  | acquire {loc : Loc} {new : Option Obj} (phase : m.call thread = .awaiting loc new)
      (unlocked : m.locks (stripe loc) = none) :
      Effect m thread .next (m.lock stripe thread loc (.unregistering loc new (m.slots loc)))
  | unregister {loc : Loc} {new old : Option Obj} (phase : m.call thread = .unregistering loc new old) :
      Effect m thread .next ({ m with table := unregisterWeak m.table loc old }.enter thread (.registering loc new))
  | register {loc : Loc} {new : Option Obj} (phase : m.call thread = .registering loc new) :
      Effect m thread .next
        ({ m with
          table := (registerWeak m.table loc new).1
          slots := Function.update m.slots loc (registerWeak m.table loc new).2 }.unlock stripe thread loc
            (.stored loc (registerWeak m.table loc new).2))
  | loadNull {loc : Loc} (user : m.call thread = .user) (unlocked : m.locks (stripe loc) = none)
      (isNull : m.slots loc = none) :
      Effect m thread (.loadWeakRetained loc) (m.enter thread (.loaded loc none))
  | load {loc : Loc} {obj : Obj} (user : m.call thread = .user) (unlocked : m.locks (stripe loc) = none)
      (holds : m.slots loc = some obj) :
      Effect m thread (.loadWeakRetained loc) (m.lock stripe thread loc (.loading loc obj))
  | retainLoaded {loc : Loc} {obj : Obj} (phase : m.call thread = .loading loc obj) :
      Effect m thread .next
        ({ m with
          table := (objcRetain m.table (some obj)).1
          refs := gain m.refs thread (objcRetain m.table (some obj)).2 }.unlock stripe thread loc
            (.loaded loc (objcRetain m.table (some obj)).2))
  | destroy {loc : Loc} (user : m.call thread = .user) (unlocked : m.locks (stripe loc) = none) :
      Effect m thread (.destroyWeak loc) (m.lock stripe thread loc (.destroying loc (m.slots loc)))
  | unregisterDestroyed {loc : Loc} {old : Option Obj} (phase : m.call thread = .destroying loc old) :
      Effect m thread .next ({ m with table := unregisterWeak m.table loc old }.enter thread (.clearing loc))
  | clear {loc : Loc} (phase : m.call thread = .clearing loc) :
      Effect m thread .next
        ({ m with slots := Function.update m.slots loc none }.unlock stripe thread loc (.destroyed loc))
  | zero {obj : Obj} {loc : Loc} {remaining : List Loc} (phase : m.call thread = .zeroing obj (loc :: remaining))
      (unlocked : m.locks (stripe loc) = none) :
      Effect m thread .next
        ({ m with slots := Function.update m.slots loc none }.enter thread (.zeroing obj remaining))
  | sendFound {obj : Obj} (phase : m.call thread = .zeroing obj []) :
      Effect m thread (.sendDealloc true)
        ({ m with
          deallocs := Function.update m.deallocs obj (m.deallocs obj + 1)
          bodies := Function.update m.bodies thread (obj :: m.bodies thread) }.enter thread .user)
  | sendMissing {obj : Obj} (phase : m.call thread = .zeroing obj []) :
      Effect m thread (.sendDealloc false)
        ({ m with deallocs := Function.update m.deallocs obj (m.deallocs obj + 1) }.enter thread (.removing obj))
  | returnDealloc {obj : Obj} {rest : List Obj} (user : m.call thread = .user) (body : m.bodies thread = obj :: rest) :
      Effect m thread .returnDealloc
        ({ m with bodies := Function.update m.bodies thread rest }.enter thread (.removing obj))
  | remove {obj : Obj} (phase : m.call thread = .removing obj) :
      Effect m thread .next
        ({ m with
          table := removeEntry m.table obj
          deallocator := Function.update m.deallocator obj none }.enter thread .user)
  | finishRetain {result : Option Obj} (phase : m.call thread = .retained result) :
      Effect m thread .next (m.enter thread .user)
  | finishStore {loc : Loc} {result : Option Obj} (phase : m.call thread = .stored loc result) :
      Effect m thread .next (m.enter thread .user)
  | finishLoad {loc : Loc} {result : Option Obj} (phase : m.call thread = .loaded loc result) :
      Effect m thread .next (m.enter thread .user)
  | finishDestroy {loc : Loc} (phase : m.call thread = .destroyed loc) :
      Effect m thread .next (m.enter thread .user)

variable {stripe} {m next : Machine Tid Obj Loc Stripe} {thread : Tid} {op : MemOp Tid Obj Loc}

theorem Machine.advance_effect (result : m.advance stripe thread = some next) :
    m.Effect stripe thread .next next := by
  unfold Machine.advance at result
  split at result
  · split at result
    · obtain rfl := Option.some.inj result
      exact .acquire ‹_› ‹_›
    · contradiction
  · obtain rfl := Option.some.inj result
    exact .unregister ‹_›
  · obtain rfl := Option.some.inj result
    exact .register ‹_›
  · obtain rfl := Option.some.inj result
    exact .retainLoaded ‹_›
  · obtain rfl := Option.some.inj result
    exact .unregisterDestroyed ‹_›
  · obtain rfl := Option.some.inj result
    exact .clear ‹_›
  · split at result
    · obtain rfl := Option.some.inj result
      exact .zero ‹_› ‹_›
    · contradiction
  · obtain rfl := Option.some.inj result
    exact .remove ‹_›
  · obtain rfl := Option.some.inj result
    exact .finishRetain ‹_›
  · obtain rfl := Option.some.inj result
    exact .finishStore ‹_›
  · obtain rfl := Option.some.inj result
    exact .finishLoad ‹_›
  · obtain rfl := Option.some.inj result
    exact .finishDestroy ‹_›
  · contradiction

theorem Machine.invoke_effect (user : m.call thread = .user) (result : m.invoke stripe thread op = some next) :
    m.Effect stripe thread op next := by
  unfold Machine.invoke at result
  split at result
  · obtain rfl := Option.some.inj result
    exact .allocate user
  · obtain rfl := Option.some.inj result
    exact .give user
  · obtain rfl := Option.some.inj result
    exact .retain user
  · obtain rfl := Option.some.inj result
    exact .releaseNull user
  · dsimp only at result
    split at result
    · obtain rfl := Option.some.inj result
      exact .release user ‹_›
    · obtain rfl := Option.some.inj result
      exact .dealloc user ‹_›
  · rename_i loc obj
    cases obj with
    | none =>
        obtain rfl := Option.some.inj result
        exact .initNull user
    | some obj =>
        obtain rfl := Option.some.inj result
        exact .init user
  · obtain rfl := Option.some.inj result
    exact .store user
  · split at result
    · split at result
      · obtain rfl := Option.some.inj result
        exact .loadNull user ‹_› ‹_›
      · obtain rfl := Option.some.inj result
        exact .load user ‹_› ‹_›
    · contradiction
  · split at result
    · obtain rfl := Option.some.inj result
      exact .destroy user ‹_›
    · contradiction
  · split at result
    · contradiction
    · obtain rfl := Option.some.inj result
      exact .returnDealloc user ‹_›
  · contradiction

theorem Machine.step_effect (result : m.step stripe (thread, op) = some next) : m.Effect stripe thread op next := by
  unfold Machine.step at result
  dsimp only at result
  split at result
  · exact Machine.advance_effect result
  · split at result
    · rename_i isFound
      obtain rfl := Option.some.inj result
      rw [isFound]
      exact .sendFound ‹_›
    · rename_i isMissing
      obtain rfl := Option.some.inj result
      rw [Bool.not_eq_true] at isMissing
      rw [isMissing]
      exact .sendMissing ‹_›
  · exact Machine.invoke_effect ‹_› result
  · contradiction

end Steps

end O3jc
