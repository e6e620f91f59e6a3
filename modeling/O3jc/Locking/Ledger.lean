import O3jc.Loading.Selectors
import O3jc.Locking.Order
import O3jc.Memory.Locks

/-
This file runs the machine of atomic memory steps beside the program of locks and proves that it can always follow.
-/

namespace O3jc

open Library

section Positions

variable {Tid Obj Loc : Type}

/-- A lookup that `do_dealloc` makes stands between the zeroing loop and the message. -/
def Caller.call : Caller Obj → Call Obj Loc
  | .user => .user
  | .dealloc obj => .zeroing obj []

/-- A store that is to lock its slot has begun, a destruction has not. -/
def WeakWrite.begins (loc : Loc) : WeakWrite Obj → Call Obj Loc
  | .store new => .awaiting loc new
  | .destroy => .user

def WeakWrite.unregisters (loc : Loc) (old : Option Obj) : WeakWrite Obj → Call Obj Loc
  | .store new => .unregistering loc new old
  | .destroy => .destroying loc old

def WeakWrite.overwrites (loc : Loc) : WeakWrite Obj → Call Obj Loc
  | .store new => .registering loc new
  | .destroy => .clearing loc

/-- The position in the machine of atomic steps. Work on selectors, messages and methods is user code there. -/
def LockPoint.call : LockPoint Obj Loc → Call Obj Loc
  | .retain obj (some loc) => .loading loc obj
  | .retaining obj (some loc) => .loading loc obj
  | .retained _ none result => .retained result
  | .retained _ (some loc) result => .loaded loc result
  | .released obj (some locs) => .zeroing obj locs
  | .zero obj loc rest => .zeroing obj (loc :: rest)
  | .zeroing obj loc rest => .zeroing obj (loc :: rest)
  | .zeroed obj _ rest => .zeroing obj rest
  | .remove obj => .removing obj
  | .removing obj => .removing obj
  | .writeWeak loc write => write.begins loc
  | .writing loc write => write.begins loc
  | .unregister loc old write => write.unregisters loc (some old)
  | .unregistering loc old write => write.unregisters loc (some old)
  | .unregistered loc _ write => write.overwrites loc
  | .clear loc write => write.overwrites loc
  | .register loc _ write => write.overwrites loc
  | .registering loc _ write => write.overwrites loc
  | .selRegister _ caller => caller.call
  | .selEntry _ caller => caller.call
  | .intern _ caller => caller.call
  | .interning _ caller => caller.call
  | .interned _ _ caller => caller.call
  | .selInsert _ _ caller => caller.call
  | .selFound _ _ caller => caller.call
  | .msgLookup _ _ caller => caller.call
  | .cacheRead _ _ caller => caller.call
  | .cacheReading _ _ caller => caller.call
  | .cacheAnswered _ _ _ caller => caller.call
  | .walk _ _ caller => caller.call
  | .cacheFill _ _ _ caller => caller.call
  | .cacheFilling _ _ _ caller => caller.call
  | .cacheFilled _ _ caller => caller.call
  | .lookedUp _ caller => caller.call
  | _ => .user

/-- The atomic steps that stand for the step from one point to another. -/
def LockPoint.memOps : LockPoint Obj Loc → LockPoint Obj Loc → List (MemOp Tid Obj Loc)
  | .user _, .writeWeak loc (.store new) => [.storeWeak loc new]
  | .user _, .remove _ => [.returnDealloc]
  | .retaining obj none, _ => [.retain (some obj)]
  | .retaining _ (some _), _ => [.next]
  | .retained _ _ _, _ => [.next]
  | .releasing obj, _ => [.release (some obj)]
  | .zeroing _ _ _, _ => [.next]
  | .removing _, _ => [.next]
  | .initWeak loc none, _ => [.initWeak loc none, .next]
  | .initWeak loc (some obj), _ => [.initWeak loc (some obj)]
  | .writing _ (.store _), .unregister _ _ _ => [.next]
  | .writing _ (.store _), _ => [.next, .next]
  | .writing loc .destroy, .unregister _ _ _ => [.destroyWeak loc]
  | .writing loc .destroy, _ => [.destroyWeak loc, .next]
  | .unregistering _ _ _, _ => [.next]
  | .clear _ _, _ => [.next, .next]
  | .registering _ _ _, _ => [.next, .next]
  | .loading loc, .retain _ _ => [.loadWeakRetained loc]
  | .loading loc, _ => [.loadWeakRetained loc, .next]
  | .lookedUp imp (.dealloc _), _ => [.sendDealloc imp.isSome]
  | _, _ => []

/-- `do_dealloc` registers no other name. -/
def Caller.Names (name : String) : Caller Obj → Prop
  | .user => True
  | .dealloc _ => name = "dealloc"

/-- What the program guarantees of a point besides its position. -/
def LockPoint.Proper : LockPoint Obj Loc → Prop
  | .clear _ write => write.new = none
  | .register _ obj write => write.new = some obj
  | .registering _ obj write => write.new = some obj
  | .selRegister name caller => caller.Names name
  | .selEntry name caller => caller.Names name
  | .intern name caller => caller.Names name
  | .interning name caller => caller.Names name
  | _ => True

@[simp] theorem zeroFrom_call (obj : Obj) (locs : List Loc) : (zeroFrom obj locs).call = .zeroing obj locs := by
  cases locs <;> rfl

theorem zeroFrom_proper (obj : Obj) (locs : List Loc) : (zeroFrom obj locs).Proper := by
  cases locs with
  | nil => rfl
  | cons loc rest => trivial

@[simp] theorem enterNew_call (loc : Loc) (write : WeakWrite Obj) :
    (enterNew loc write).call = write.overwrites loc := by
  unfold enterNew
  split <;> rfl

theorem enterNew_proper (loc : Loc) (write : WeakWrite Obj) : (enterNew loc write).Proper := by
  unfold enterNew
  split <;> assumption

end Positions

/-- The name of `-dealloc` can always be interned. -/
theorem internSelectorName_dealloc (rt : Runtime) : (internSelectorName rt "dealloc").isSome = true :=
  have spelt : CStr.toStr ⟨"dealloc".toByteArray, by decide⟩ = some "dealloc" := CStr.toStr_eq_some.mpr rfl
  internSelectorName_total rt spelt

section Moves

variable {Tid Obj Loc Stripe Shard : Type} [DecidableEq Tid] [DecidableEq Obj] [DecidableEq Loc] [DecidableEq Stripe]

/-- The atomic steps that a thread takes one after the other. -/
def Machine.steps (stripe : Loc → Stripe) (ledger : Machine Tid Obj Loc Stripe) (thread : Tid)
    (ops : List (MemOp Tid Obj Loc)) : Option (Machine Tid Obj Loc Stripe) :=
  (ops.map fun op => (thread, op)).foldlM (Machine.step stripe) ledger

/-- The thread takes the steps, and the ledger then has this memory and the thread this position. -/
def Machine.Moves (stripe : Loc → Stripe) (ledger : Machine Tid Obj Loc Stripe) (thread : Tid)
    (ops : List (MemOp Tid Obj Loc)) (memory : Memory Obj Loc) (after : Position Obj Loc) : Prop :=
  ∃ next, ledger.steps stripe thread ops = some next ∧ next.toMemory = memory ∧
    next.call = Function.update ledger.call thread after.point.call ∧
    next.bodies = Function.update ledger.bodies thread after.bodies

variable {stripe : Loc → Stripe} {ledger : Machine Tid Obj Loc Stripe} {thread : Tid}

/-- A step that the ledger does not see. -/
theorem Machine.Moves.stay {memory : Memory Obj Loc} {after : Position Obj Loc} (same : memory = ledger.toMemory)
    (call : ledger.call thread = after.point.call) (bodies : ledger.bodies thread = after.bodies) :
    ledger.Moves stripe thread [] memory after := by
  refine ⟨ledger, rfl, same.symm, ?_, ?_⟩
  · rw [← call, Function.update_eq_self]
  · rw [← bodies, Function.update_eq_self]

/-- A step that the ledger takes too. -/
theorem Machine.Moves.single {op : MemOp Tid Obj Loc} {after : Position Obj Loc} (next : Machine Tid Obj Loc Stripe)
    (result : ledger.step stripe (thread, op) = some next)
    (call : next.call = Function.update ledger.call thread after.point.call)
    (bodies : next.bodies = Function.update ledger.bodies thread after.bodies) :
    ledger.Moves stripe thread [op] next.toMemory after := by
  refine ⟨next, ?_, rfl, call, bodies⟩
  simp [Machine.steps, result]

/-- A step that takes the ledger to the end of a call and back to user code. -/
theorem Machine.Moves.double {op : MemOp Tid Obj Loc} {after : Position Obj Loc}
    (middle next : Machine Tid Obj Loc Stripe) (result : ledger.step stripe (thread, op) = some middle)
    (later : middle.step stripe (thread, .next) = some next)
    (call : next.call = Function.update ledger.call thread after.point.call)
    (bodies : next.bodies = Function.update ledger.bodies thread after.bodies) :
    ledger.Moves stripe thread [op, .next] next.toMemory after := by
  refine ⟨next, ?_, rfl, call, bodies⟩
  simp [Machine.steps, result, later]

end Moves

section Simulation

variable {Tid Obj Loc Stripe Shard : Type} [DecidableEq Tid] [DecidableEq Obj] [DecidableEq Loc] [DecidableEq Stripe]
  (layout : Layout Obj Loc Stripe Shard) {ledger : Machine Tid Obj Loc Stripe} {thread : Tid}

omit [DecidableEq Tid] [DecidableEq Obj] [DecidableEq Loc] [DecidableEq Stripe] in
/-- A thread that holds the lock of a slot in the ledger holds its guard in the program. -/
theorem LockPoint.mem_holds {point : LockPoint Obj Loc} {loc : Loc} (holding : point.call.holding = some loc) :
    layout.slotGuard loc ∈ point.holds layout := by
  cases point with
  | retain obj load | retaining obj load =>
      cases load with
      | none => contradiction
      | some l =>
          obtain rfl : l = loc := Option.some.inj holding
          simp [LockPoint.holds, Layout.loadGuards]
  | retained obj load result => cases load <;> contradiction
  | released obj weakLocations => cases weakLocations <;> contradiction
  | writeWeak l write | writing l write => cases write <;> contradiction
  | unregister l old write | unregistering l old write | unregistered l old write | clear l write | register l obj write
  | registering l obj write =>
      cases write <;>
      · obtain rfl : l = loc := Option.some.inj holding
        simp [LockPoint.holds]
  | selRegister _ caller | selEntry _ caller | intern _ caller | interning _ caller | interned _ _ caller
  | selInsert _ _ caller | selFound _ _ caller | msgLookup _ _ caller | cacheRead _ _ caller | cacheReading _ _ caller
  | cacheAnswered _ _ _ caller | walk _ _ caller | cacheFill _ _ _ caller | cacheFilling _ _ _ caller
  | cacheFilled _ _ caller | lookedUp _ caller => cases caller <;> contradiction
  | _ => contradiction

/-- The ledger follows every step from a position at which its thread stands. -/
theorem Position.follows (position : Position Obj Loc) (isCall : ledger.call thread = position.point.call)
    (isBodies : ledger.bodies thread = position.bodies) (proper : position.point.Proper)
    (free : ∀ loc, layout.slotGuard loc ∈ position.holds layout → position.point.call.holding = none →
      ledger.locks (layout.stripe loc) = none) :
    match position.action layout with
    | .done => True
    | .choose next => ∀ choice, ∀ chosen ∈ next choice, chosen.point.Proper ∧
        ledger.Moves layout.stripe thread (position.point.memOps chosen.point) ledger.toMemory chosen
    | .access next => ∀ d : Shared Obj Loc, d.toMemory = ledger.toMemory → (next d).2.point.Proper ∧
        ledger.Moves layout.stripe thread (position.point.memOps (next d).2.point) (next d).1.toMemory (next d).2
    | .acquire _ _ next => next.point.Proper ∧
        ledger.Moves layout.stripe thread (position.point.memOps next.point) ledger.toMemory next
    | .release _ _ next => next.point.Proper ∧
        ledger.Moves layout.stripe thread (position.point.memOps next.point) ledger.toMemory next := by
  obtain ⟨point, bodies⟩ := position
  have isBodies : ledger.bodies thread = bodies := isBodies
  have kept : ledger.bodies = Function.update ledger.bodies thread bodies := by
    rw [← isBodies, Function.update_eq_self]
  cases point with
  | finished => trivial
  | user answer =>
      intro choice chosen isChosen
      cases choice with
      | call call =>
          obtain rfl := Option.some.inj isChosen
          cases call with
          | storeWeak loc new =>
              refine ⟨trivial, .single (ledger.enter thread (.awaiting loc new)) ?_ rfl kept⟩
              simp [Machine.step, isCall, LockPoint.call, Machine.invoke]
          | retain obj => cases obj <;> exact ⟨trivial, .stay rfl isCall isBodies⟩
          | release obj => cases obj <;> exact ⟨trivial, .stay rfl isCall isBodies⟩
          | _ => exact ⟨trivial, .stay rfl isCall isBodies⟩
      | «return» =>
          cases bodies with
          | nil =>
              obtain rfl := Option.some.inj isChosen
              exact ⟨trivial, .stay rfl isCall isBodies⟩
          | cons obj rest =>
              obtain rfl := Option.some.inj isChosen
              refine ⟨trivial, .single ({ ledger with
                bodies := Function.update ledger.bodies thread rest }.enter thread (.removing obj)) ?_ rfl rfl⟩
              simp [Machine.step, isCall, LockPoint.call, Machine.invoke, isBodies]
  -- Guards that the ledger does not know
  | release | remove | loadWeak | unregister | cacheRead | cacheFill | flushLock | flushAll | registryLock
  | removed | unlockSlot | interned | internPanicked | selPanicked | cacheFilled | flushed | registryInserted | registered | zero =>
      exact ⟨trivial, .stay rfl isCall isBodies⟩
  | register | intern | selRegister => exact ⟨proper, .stay rfl isCall isBodies⟩
  | writeWeak loc write => exact ⟨trivial, .stay rfl isCall isBodies⟩
  | retain obj load => cases load <;> exact ⟨trivial, .stay rfl isCall isBodies⟩
  | retained obj load result =>
      cases load with
      | none =>
          refine ⟨trivial, .single (ledger.enter thread .user) ?_ rfl kept⟩
          simp [Machine.step, Machine.advance, isCall, LockPoint.call]
      | some loc =>
          refine ⟨trivial, .single (ledger.enter thread .user) ?_ rfl kept⟩
          simp [Machine.step, Machine.advance, isCall, LockPoint.call]
  | released obj weakLocations =>
      cases weakLocations with
      | none => exact ⟨trivial, .stay rfl isCall isBodies⟩
      | some locs => exact ⟨zeroFrom_proper obj locs, .stay rfl (isCall.trans (zeroFrom_call obj locs).symm) isBodies⟩
  | zeroed obj loc rest =>
      exact ⟨zeroFrom_proper obj rest, .stay rfl (isCall.trans (zeroFrom_call obj rest).symm) isBodies⟩
  | unregistered loc old write =>
      exact ⟨enterNew_proper loc write, .stay rfl (isCall.trans (enterNew_call loc write).symm) isBodies⟩
  | selFound name sel caller => cases caller <;> exact ⟨trivial, .stay rfl isCall isBodies⟩
  | cacheAnswered cls sel cached caller => cases cached <;> exact ⟨trivial, .stay rfl isCall isBodies⟩
  -- Accesses to what the ledger does not know
  | cacheReading | cacheFilling | flushing | flushBelow | sweeping | registryInsert | selInsert =>
      exact fun d same => ⟨trivial, .stay same isCall isBodies⟩
  | selEntry name caller =>
      intro d same
      dsimp only
      split
      · exact ⟨trivial, .stay same isCall isBodies⟩
      · exact ⟨proper, .stay same isCall isBodies⟩
  | msgLookup receiver sel caller =>
      intro d same
      dsimp only
      split
      · exact ⟨trivial, .stay same isCall isBodies⟩
      · split <;> exact ⟨trivial, .stay same isCall isBodies⟩
  | walk cls sel caller =>
      intro d same
      dsimp only
      split
      · exact ⟨trivial, .stay same isCall isBodies⟩
      · split <;> exact ⟨trivial, .stay same isCall isBodies⟩
  | replaceMethod cls sel imp types =>
      intro d same
      dsimp only
      split <;> exact ⟨trivial, .stay same isCall isBodies⟩
  | addMethod cls sel imp types replacing =>
      intro d same
      dsimp only
      split
      · exact ⟨trivial, .stay same isCall isBodies⟩
      · split <;> exact ⟨trivial, .stay same isCall isBodies⟩
  | flush pending sweep answer =>
      cases pending with
      | cons cls pending =>
          intro d same
          dsimp only
          split <;> exact ⟨trivial, .stay same isCall isBodies⟩
      | nil =>
          cases sweep with
          | none => exact fun d same => ⟨trivial, .stay same isCall isBodies⟩
          | some rest =>
              cases rest with
              | nil => exact ⟨trivial, .stay rfl isCall isBodies⟩
              | cons cls rest => exact fun d same => ⟨trivial, .stay same isCall isBodies⟩
  | exchange m1 m2 =>
      intro d same
      dsimp only
      split <;> exact ⟨trivial, .stay same isCall isBodies⟩
  | registerClass cls =>
      intro d same
      dsimp only
      split <;> exact ⟨trivial, .stay same isCall isBodies⟩
  | interning name caller =>
      intro d same
      dsimp only
      split
      · exact ⟨trivial, .stay same isCall isBodies⟩
      · rename_i panics
        cases caller with
        | user => exact ⟨trivial, .stay same isCall isBodies⟩
        | dealloc obj =>
            obtain rfl : name = "dealloc" := proper
            have interned := internSelectorName_dealloc d.rt
            rw [panics] at interned
            contradiction
  -- Accesses to the side table and to the slots
  | retaining obj load =>
      rintro ⟨memory, rt⟩ rfl
      cases load with
      | none =>
          refine ⟨trivial, .single ({ ledger with
            table := (objcRetain ledger.table (some obj)).1
            refs := gain ledger.refs thread (objcRetain ledger.table (some obj)).2 }.enter thread
              (.retained (objcRetain ledger.table (some obj)).2)) ?_ rfl kept⟩
          simp [Machine.step, Machine.invoke, isCall, LockPoint.call]
      | some loc =>
          refine ⟨trivial, .single ({ ledger with
            table := (objcRetain ledger.table (some obj)).1
            refs := gain ledger.refs thread (objcRetain ledger.table (some obj)).2 }.unlock layout.stripe thread loc
              (.loaded loc (objcRetain ledger.table (some obj)).2)) ?_ rfl kept⟩
          simp [Machine.step, Machine.advance, isCall, LockPoint.call]
  | releasing obj =>
      rintro ⟨memory, rt⟩ rfl
      rcases released : releaseEntry ledger.table obj with ⟨table, weakLocations | locs⟩
      · dsimp only
        rw [released]
        refine ⟨trivial, .single { ledger with table, refs := ledger.refs.erase (thread, obj) } ?_ ?_ kept⟩
        · simp [Machine.step, Machine.invoke, isCall, LockPoint.call, released]
        · exact (isCall ▸ Function.update_eq_self thread ledger.call).symm
      · dsimp only
        rw [released]
        refine ⟨trivial, .single ({ ledger with
          table
          refs := ledger.refs.erase (thread, obj)
          deallocator := Function.update ledger.deallocator obj (some thread) }.enter thread (.zeroing obj locs))
          ?_ rfl kept⟩
        simp [Machine.step, Machine.invoke, isCall, LockPoint.call, released]
  | removing obj =>
      rintro ⟨memory, rt⟩ rfl
      refine ⟨trivial, .single ({ ledger with
        table := removeEntry ledger.table obj
        deallocator := Function.update ledger.deallocator obj none }.enter thread .user) ?_ rfl kept⟩
      simp [Machine.step, Machine.advance, isCall, LockPoint.call]
  | zeroing obj loc rest =>
      rintro ⟨memory, rt⟩ rfl
      have unlocked := free loc List.mem_cons_self rfl
      refine ⟨trivial, .single ({ ledger with
        slots := Function.update ledger.slots loc none }.enter thread (.zeroing obj rest)) ?_ rfl kept⟩
      simp [Machine.step, Machine.advance, isCall, LockPoint.call, unlocked]
  | lookedUp imp caller =>
      rintro ⟨memory, rt⟩ rfl
      cases caller with
      | user => exact ⟨trivial, .stay rfl isCall isBodies⟩
      | dealloc obj =>
          cases imp with
          | none =>
              refine ⟨trivial, .single ({ ledger with
                deallocs := Function.update ledger.deallocs obj (ledger.deallocs obj + 1) }.enter thread
                  (.removing obj)) ?_ rfl kept⟩
              simp [Machine.step, isCall, LockPoint.call, Caller.call]
          | some imp =>
              refine ⟨trivial, .single ({ ledger with
                deallocs := Function.update ledger.deallocs obj (ledger.deallocs obj + 1)
                bodies := Function.update ledger.bodies thread (obj :: bodies) }.enter thread .user) ?_ rfl rfl⟩
              simp [Machine.step, isCall, LockPoint.call, Caller.call, isBodies]
  | initWeak loc obj =>
      rintro ⟨memory, rt⟩ rfl
      cases obj with
      | none =>
          refine ⟨trivial, .double ({ ledger with
            slots := Function.update ledger.slots loc none }.enter thread (.stored loc none))
            (({ ledger with slots := Function.update ledger.slots loc none }.enter thread (.stored loc none)).enter
              thread .user) ?_ ?_ ?_ kept⟩
          · simp [Machine.step, Machine.invoke, isCall, LockPoint.call]
          · simp [Machine.step, Machine.advance, Machine.enter]
          · simp [Machine.enter, LockPoint.call]
      | some obj =>
          refine ⟨trivial, .single ({ ledger with
            slots := Function.update ledger.slots loc none }.enter thread (.awaiting loc (some obj))) ?_ rfl kept⟩
          simp [Machine.step, Machine.invoke, isCall, LockPoint.call]
  | unregistering loc old write =>
      rintro ⟨memory, rt⟩ rfl
      refine ⟨trivial, .single ({ ledger with
        table := unregisterWeak ledger.table loc (some old) }.enter thread (write.overwrites loc)) ?_ rfl kept⟩
      cases write <;>
        simp [Machine.step, Machine.advance, isCall, LockPoint.call, WeakWrite.unregisters, WeakWrite.overwrites]
  | writing loc write =>
      rintro ⟨memory, rt⟩ rfl
      dsimp only
      have unlocked := free loc List.mem_cons_self (by cases write <;> rfl)
      cases write with
      | store new =>
          cases holds : ledger.slots loc with
          | none =>
              refine ⟨enterNew_proper loc (.store new), ?_⟩
              have moves : ledger.Moves layout.stripe thread [.next, .next] ledger.toMemory
                  ⟨enterNew loc (.store new), bodies⟩ := by
                refine .double (ledger.lock layout.stripe thread loc (.unregistering loc new none))
                  ((ledger.lock layout.stripe thread loc (.unregistering loc new none)).enter thread
                    (.registering loc new)) ?_ ?_ ?_ kept
                · simp [Machine.step, Machine.advance, isCall, LockPoint.call, WeakWrite.begins, unlocked, holds]
                · simp [Machine.step, Machine.advance, Machine.lock, unregisterWeak]
                · simp [Machine.enter, Machine.lock, WeakWrite.overwrites]
              cases new <;> exact moves
          | some old =>
              refine ⟨trivial, .single (ledger.lock layout.stripe thread loc (.unregistering loc new (some old))) ?_ rfl
                kept⟩
              simp [Machine.step, Machine.advance, isCall, LockPoint.call, WeakWrite.begins, unlocked, holds]
      | destroy =>
          cases holds : ledger.slots loc with
          | none =>
              refine ⟨rfl, .double (ledger.lock layout.stripe thread loc (.destroying loc none))
                ((ledger.lock layout.stripe thread loc (.destroying loc none)).enter thread (.clearing loc)) ?_ ?_ ?_
                kept⟩
              · simp [Machine.step, Machine.invoke, isCall, LockPoint.call, WeakWrite.begins, unlocked, holds]
              · simp [Machine.step, Machine.advance, Machine.lock, unregisterWeak]
              · simp [Machine.enter, Machine.lock, LockPoint.call, WeakWrite.overwrites, enterNew, WeakWrite.new]
          | some old =>
              refine ⟨trivial, .single (ledger.lock layout.stripe thread loc (.destroying loc (some old))) ?_ rfl kept⟩
              simp [Machine.step, Machine.invoke, isCall, LockPoint.call, WeakWrite.begins, unlocked, holds]
  | clear loc write =>
      rintro ⟨memory, rt⟩ rfl
      cases write with
      | store new =>
          obtain rfl : new = none := proper
          refine ⟨trivial, .double ({ ledger with
            slots := Function.update ledger.slots loc none }.unlock layout.stripe thread loc (.stored loc none))
            (({ ledger with slots := Function.update ledger.slots loc none }.unlock layout.stripe thread loc
              (.stored loc none)).enter thread .user) ?_ ?_ ?_ kept⟩
          · simp [Machine.step, Machine.advance, isCall, LockPoint.call, WeakWrite.overwrites, registerWeak]
          · simp [Machine.step, Machine.advance, Machine.unlock]
          · simp [Machine.enter, Machine.unlock, LockPoint.call]
      | destroy =>
          refine ⟨trivial, .double ({ ledger with
            slots := Function.update ledger.slots loc none }.unlock layout.stripe thread loc (.destroyed loc))
            (({ ledger with slots := Function.update ledger.slots loc none }.unlock layout.stripe thread loc
              (.destroyed loc)).enter thread .user) ?_ ?_ ?_ kept⟩
          · simp [Machine.step, Machine.advance, isCall, LockPoint.call, WeakWrite.overwrites]
          · simp [Machine.step, Machine.advance, Machine.unlock]
          · simp [Machine.enter, Machine.unlock, LockPoint.call]
  | registering loc obj write =>
      rintro ⟨memory, rt⟩ rfl
      cases write with
      | store new =>
          obtain rfl : new = some obj := proper
          let written : Machine Tid Obj Loc Stripe := { ledger with
            table := (registerWeak ledger.table loc (some obj)).1
            slots := Function.update ledger.slots loc (registerWeak ledger.table loc (some obj)).2 }.unlock
              layout.stripe thread loc (.stored loc (registerWeak ledger.table loc (some obj)).2)
          refine ⟨trivial, .double written (written.enter thread .user) ?_ ?_ ?_ kept⟩
          · simp [Machine.step, Machine.advance, isCall, LockPoint.call, WeakWrite.overwrites, written]
          · simp [Machine.step, Machine.advance, Machine.unlock, written]
          · simp [Machine.enter, Machine.unlock, LockPoint.call, written]
      | destroy => exact absurd proper (by simp [LockPoint.Proper, WeakWrite.new])
  | loading loc =>
      rintro ⟨memory, rt⟩ rfl
      dsimp only
      have unlocked := free loc List.mem_cons_self rfl
      cases holds : ledger.slots loc with
      | none =>
          refine ⟨trivial, .double (ledger.enter thread (.loaded loc none))
            ((ledger.enter thread (.loaded loc none)).enter thread .user) ?_ ?_ ?_ kept⟩
          · simp [Machine.step, Machine.invoke, isCall, LockPoint.call, unlocked, holds]
          · simp [Machine.step, Machine.advance, Machine.enter]
          · simp [Machine.enter, LockPoint.call]
      | some obj =>
          refine ⟨trivial, .single (ledger.lock layout.stripe thread loc (.loading loc obj)) ?_ rfl kept⟩
          simp [Machine.step, Machine.invoke, isCall, LockPoint.call, unlocked, holds]

variable [DecidableEq Shard]

/-- The ledger has the memory of the program, and its threads stand where those of the program stand. -/
structure Follows (m : RuntimeMachine Tid Obj Loc Stripe Shard) (ledger : Machine Tid Obj Loc Stripe) : Prop where
  memory : m.data.toMemory = ledger.toMemory
  calls : ∀ t, ledger.call t = (m.point t).point.call
  bodies : ∀ t, ledger.bodies t = (m.point t).bodies
  proper : ∀ t, (m.point t).point.Proper
  taken : LocksTaken layout.stripe ledger.locks ledger.call
  ordered : LockMachine.Ordered RuntimeLock.MayTake (Position.holds layout) m
  exclusive : LockMachine.Exclusive m

/-- The machine of atomic steps over this memory before any call. -/
def Machine.begin (memory : Memory Obj Loc) : Machine Tid Obj Loc Stripe := { Machine.start with toMemory := memory }

omit [DecidableEq Obj] [DecidableEq Loc] in
theorem Follows.start (d : Shared Obj Loc) :
    Follows layout (RuntimeMachine.start d) (Machine.begin d.toMemory : Machine Tid Obj Loc Stripe) where
  memory := rfl
  calls _ := rfl
  bodies _ := rfl
  proper _ := trivial
  taken _ _ isTaken := absurd isTaken (by simp [Machine.begin, Machine.start])
  ordered := .start rfl
  exclusive := .start

variable {layout} {m next : RuntimeMachine Tid Obj Loc Stripe Shard} {choice : Option (UserChoice Obj Loc)}

omit [DecidableEq Obj] [DecidableEq Loc] in
/-- A slot that a thread has locked in the program only is free in the ledger. -/
theorem Follows.unlocked (follows : Follows layout m ledger) {loc : Loc}
    (held : layout.slotGuard loc ∈ (m.point thread).holds layout)
    (idle : (m.point thread).point.call.holding = none) : ledger.locks (layout.stripe loc) = none := by
  cases isTaken : ledger.locks (layout.stripe loc) with
  | none => rfl
  | some other =>
      obtain ⟨l, sameStripe, holding⟩ := follows.taken _ other isTaken
      rw [follows.calls] at holding
      have guards := LockPoint.mem_holds layout holding
      rw [Layout.slotGuard, sameStripe] at guards
      have same := follows.exclusive.unique (follows.ordered.mem_owners.mpr held) (follows.ordered.mem_owners.mpr guards)
      rw [same, idle] at holding
      contradiction

omit [DecidableEq Shard] in
theorem LocksTaken.steps {ledger later : Machine Tid Obj Loc Stripe} {ops : List (MemOp Tid Obj Loc)}
    (taken : LocksTaken layout.stripe ledger.locks ledger.call)
    (result : ledger.steps layout.stripe thread ops = some later) : LocksTaken layout.stripe later.locks later.call :=
  taken.run (reachable_of_foldlM result (fun _ _ => trivial) (fun _ _ _ => trivial) :
    Reachable (Machine.step layout.stripe) (fun _ _ => True) ledger later)

/-- The ledger can always follow the program by one step. -/
theorem Follows.step (follows : Follows layout m ledger)
    (result : m.step (Position.action layout) (thread, choice) = some next) :
    ∃ later, ledger.steps layout.stripe thread ((m.point thread).point.memOps (next.point thread).point) = some later ∧
      Follows layout next later := by
  have ordered := follows.ordered.step (Position.respects layout) result
  have exclusive := follows.exclusive.step result
  have moves : (next.point thread).point.Proper ∧ ledger.Moves layout.stripe thread
      ((m.point thread).point.memOps (next.point thread).point) next.data.toMemory (next.point thread) ∧
      next.point = Function.update m.point thread (next.point thread) := by
    have position := (m.point thread).follows layout (follows.calls thread) (follows.bodies thread)
      (follows.proper thread) fun loc => follows.unlocked
    cases LockMachine.step_effect result with
    | choose isChoice chosen =>
        rw [isChoice] at position
        obtain ⟨proper, moves⟩ := position _ _ chosen
        simp only [LockMachine.enter, Function.update_self]
        exact ⟨proper, follows.memory ▸ moves, trivial⟩
    | access isAccess =>
        rw [isAccess] at position
        obtain ⟨proper, moves⟩ := position m.data follows.memory
        simp only [LockMachine.enter, Function.update_self]
        exact ⟨proper, moves, trivial⟩
    | acquire isAcquire admitted =>
        rw [isAcquire] at position
        simp only [LockMachine.enter, Function.update_self]
        exact ⟨position.1, follows.memory ▸ position.2, trivial⟩
    | release isRelease =>
        rw [isRelease] at position
        simp only [LockMachine.enter, Function.update_self]
        exact ⟨position.1, follows.memory ▸ position.2, trivial⟩
  obtain ⟨proper, ⟨later, stepped, memory, calls, bodies⟩, points⟩ := moves
  have others : ∀ t, t ≠ thread → next.point t = m.point t := fun t different => by
    rw [points, Function.update_of_ne different]
  refine ⟨later, stepped, memory.symm, fun t => ?_, fun t => ?_, fun t => ?_, follows.taken.steps stepped, ordered,
    exclusive⟩
  · by_cases isThread : t = thread
    · rw [isThread, calls, Function.update_self]
    · rw [calls, Function.update_of_ne isThread, others t isThread, follows.calls]
  · by_cases isThread : t = thread
    · rw [isThread, bodies, Function.update_self]
    · rw [bodies, Function.update_of_ne isThread, others t isThread, follows.bodies]
  · by_cases isThread : t = thread
    · rw [isThread]
      exact proper
    · rw [others t isThread]
      exact follows.proper t

/-- Every run of the program of locks is a run of the atomic memory steps, with the same memory and positions. -/
theorem runtimeRun_refines {d : Shared Obj Loc}
    (run : Reachable (LockMachine.step (Position.action layout)) (fun _ _ => True) (RuntimeMachine.start d) m) :
    ∃ ledger, Reachable (Machine.step layout.stripe) (fun _ _ => True) (Machine.begin d.toMemory) ledger ∧
      ledger.toMemory = m.data.toMemory ∧
        ∀ t, ledger.call t = (m.point t).point.call ∧ ledger.bodies t = (m.point t).bodies := by
  have related : ∃ ledger, Reachable (Machine.step layout.stripe) (fun _ _ => True) (Machine.begin d.toMemory) ledger ∧
      Follows layout m ledger := by
    apply run.invariant (fun state => ∃ ledger, Reachable (Machine.step layout.stripe) (fun _ _ => True)
      (Machine.begin d.toMemory) ledger ∧ Follows layout state ledger)
    · exact ⟨_, .refl, .start layout d⟩
    · rintro state ⟨thread, choice⟩ next ⟨ledger, before, follows⟩ _ result
      obtain ⟨later, stepped, still⟩ := follows.step result
      exact ⟨later, before.trans (reachable_of_foldlM stepped (fun _ _ => trivial) fun _ _ _ => trivial), still⟩
  obtain ⟨ledger, reached, follows⟩ := related
  exact ⟨ledger, reached, follows.memory.symm, fun t => ⟨follows.calls t, follows.bodies t⟩⟩

end Simulation

/-- Thread 1 has given up the last reference and holds the lock of the slot that it is to zero, for which thread 2
waits. -/
theorem runtimeRun_refines_zeroing : ∃ m : RuntimeMachine Nat Nat Nat Nat Nat,
    m.Waits (Position.action collidingLayout) 2 (.slot 0) .exclusive ∧ m.data.slots 1 = some 5 ∧
      ∃ ledger : Machine Nat Nat Nat Nat, ledger.toMemory = m.data.toMemory ∧ ledger.call 1 = .zeroing 5 [1] := by
  have ran : ∃ m ∈ replay (LockMachine.step (Position.action collidingLayout)) (fun _ _ => True)
      (RuntimeMachine.start ⟨⟨fun _ => none, fun _ => none⟩, deallocRuntime⟩ : RuntimeMachine Nat Nat Nat Nat Nat)
      [(0, some (.call (.initWeak 1 (some 5)))), (0, none), (0, none), (0, none), (0, none), (0, none), (0, none),
        (0, none), (1, some (.call (.release (some 5)))), (1, none), (1, none), (1, none), (1, none),
        (2, some (.call (.loadWeak 1)))],
      m.Waits (Position.action collidingLayout) 2 (.slot 0) .exclusive ∧ m.data.slots 1 = some 5 ∧
        (m.point 1).point.call = .zeroing 5 [1] := ⟨_, rfl, ⟨_, rfl⟩, rfl, rfl⟩
  obtain ⟨m, replayed, waits, holds, position⟩ := ran
  obtain ⟨ledger, _, memory, positions⟩ := runtimeRun_refines (reachable_of_replay replayed)
  exact ⟨m, waits, holds, ledger, memory, (positions 1).1.trans position⟩

end O3jc
