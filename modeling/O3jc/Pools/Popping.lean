import O3jc.Locking.Alone
import O3jc.Pools.Threads

/-
This file follows the pops of the threads: what their loops release, in which order, and that they return.
-/

namespace O3jc

open Library

section Traces

variable {Tid Obj Loc Stripe Shard : Type}

/-- Whether the thread goes on by itself: in the loop of its pop, in a call, or with the return of a body of
`-dealloc`. -/
def PooledOp.goesOn : PooledOp Tid Obj Loc → Bool
  | .drain => true
  | .audit (.run none) => true
  | .audit (.run (some .return)) => true
  | _ => false

def PooledOp.isDrain : PooledOp Tid Obj Loc → Bool
  | .drain => true
  | _ => false

/-- The object of which `objc_release` has just been called. -/
def LockPoint.beginsRelease : LockPoint Obj Loc → Option Obj
  | .release obj => some obj
  | _ => none

theorem LockPoint.beginsRelease_of_inUser {point : LockPoint Obj Loc} (user : point.inUser = true) :
    point.beginsRelease = none := by
  cases point <;> first | rfl | contradiction

variable [DecidableEq Tid]

/-- The objects of which the loop of the pop of a thread has called `objc_release`, in the order of the calls. -/
def releasesOf (thread : Tid) (during : List ((Tid × PooledOp Tid Obj Loc) × Option Obj)) : List Obj :=
  during.filterMap fun call => if call.1.1 = thread then call.2 else none

/-- The number of steps that the loop of the pop of a thread has taken. -/
def drainSteps (thread : Tid) (during : List ((Tid × PooledOp Tid Obj Loc) × Option Obj)) : Nat :=
  during.countP fun call => call.1.1 = thread ∧ call.1.2.isDrain = true

theorem releasesOf_cons (thread : Tid) (label : Tid × PooledOp Tid Obj Loc) (released : Option Obj)
    (rest : List ((Tid × PooledOp Tid Obj Loc) × Option Obj)) : releasesOf thread ((label, released) :: rest) =
      (if label.1 = thread then released else none).toList ++ releasesOf thread rest := by
  rw [releasesOf, List.filterMap_cons]
  split
  · rename_i isNone
    rw [isNone]
    rfl
  · rename_i isSome
    rw [isSome]
    rfl

theorem drainSteps_cons (thread : Tid) (label : Tid × PooledOp Tid Obj Loc) (released : Option Obj)
    (rest : List ((Tid × PooledOp Tid Obj Loc) × Option Obj)) : drainSteps thread ((label, released) :: rest) =
      drainSteps thread rest + if label.1 = thread ∧ label.2.isDrain = true then 1 else 0 := by
  simp only [drainSteps, List.countP_cons, decide_eq_true_eq]

variable [DecidableEq Obj] [DecidableEq Loc] [DecidableEq Stripe] [DecidableEq Shard]
  (layout : Layout Obj Loc Stripe Shard)

/-- One step of one thread, with the object of which the loop of a pop calls `objc_release` in it. -/
def Pooled.traced (s : Pooled Tid Obj Loc Stripe Shard) (label : Tid × PooledOp Tid Obj Loc) :
    Option (Pooled Tid Obj Loc Stripe Shard × Option Obj) :=
  (s.step layout label).map fun next =>
    (next, if label.2.isDrain then (next.position label.1).point.beginsRelease else none)

/-- The threads use what they own while a pop of the thread runs. -/
def Pooled.During (thread : Tid) (s : Pooled Tid Obj Loc Stripe Shard) (label : Tid × PooledOp Tid Obj Loc) : Prop :=
  s.Owned label ∧ (s.pools thread).pop.isSome = true

instance (thread : Tid) (s : Pooled Tid Obj Loc Stripe Shard) (label : Tid × PooledOp Tid Obj Loc) :
    Decidable (Pooled.During thread s label) := inferInstanceAs (Decidable (_ ∧ _))

/-- The thread goes on by itself while its pop runs. -/
def Pooled.GoesOn (thread : Tid) (s : Pooled Tid Obj Loc Stripe Shard) (label : Tid × PooledOp Tid Obj Loc) : Prop :=
  Pooled.During thread s label ∧ label.1 = thread ∧ label.2.goesOn = true

/-- What a pop does after it has begun, whatever steps the threads take while it runs. -/
structure Pooled.PopsTo (s : Pooled Tid Obj Loc Stripe Shard) (thread : Tid) (token : Nat)
    (begun : Pooled Tid Obj Loc Stripe Shard) : Prop where
  /-- The loop has released objects at or above the token, the last one first. -/
  releases : ∀ during last, Traced (Pooled.traced layout) (Pooled.During thread) begun during last →
    releasesOf thread during <+: ((s.pools thread).stack.pools.drop token).flatten.reverse
  /-- When the pop returns it has released all of them, and the pools below the token are left. -/
  collects : ∀ during last, Traced (Pooled.traced layout) (Pooled.During thread) begun during last →
    (last.pools thread).pop = none →
      releasesOf thread during = ((s.pools thread).stack.pools.drop token).flatten.reverse ∧
        (last.pools thread).stack = ⟨(s.pools thread).stack.pools.take token, false⟩ ∧
          (last.pools thread).stack.pools.length = token
  /-- The loop takes one step for each object and pool at or above the token, and one to return. -/
  bounded : ∀ during last, Traced (Pooled.traced layout) (Pooled.During thread) begun during last →
    drainSteps thread during ≤ ((s.pools thread).stack.pools.drop token).flatten.length +
      ((s.pools thread).stack.pools.length - token) + 1
  /-- From every state of the pop in which its thread is in user code and the other threads own no lock, the thread can
  go on by itself until the pop returns. -/
  returns : ∀ during middle, Traced (Pooled.traced layout) (Pooled.During thread) begun during middle →
    (middle.position thread).point.inUser = true →
    (∀ other, other ≠ thread → (middle.position other).holds layout = []) →
      ∃ rest last, Traced (Pooled.traced layout) (Pooled.GoesOn thread) middle rest last ∧
        (last.pools thread).pop = none

end Traces

section Steps

variable {Tid Obj Loc Stripe Shard : Type} [DecidableEq Tid] [DecidableEq Obj] [DecidableEq Loc] [DecidableEq Stripe]
  [DecidableEq Shard] {layout : Layout Obj Loc Stripe Shard} {s next : Pooled Tid Obj Loc Stripe Shard}
  {thread mover : Tid} {op : PooledOp Tid Obj Loc} {pop : Pop Obj}

/-- A step changes the pools of its own thread only. -/
theorem Pooled.step_pools_of_ne (result : s.step layout (mover, op) = some next) (different : thread ≠ mover) :
    next.pools thread = s.pools thread := by
  cases op with
  | audit op =>
      obtain ⟨_, result⟩ := Option.ite_none_right_eq_some.mp result
      obtain ⟨audited, _, rfl⟩ := Option.map_eq_some_iff.mp result
      rfl
  | push | autorelease obj | pop token =>
      obtain ⟨_, result⟩ := Option.ite_none_right_eq_some.mp result
      obtain ⟨pools, _, rfl⟩ := Option.map_eq_some_iff.mp result
      exact Pooled.set_pools_of_ne different pools
  | drain =>
      obtain ⟨pop, isPop, result⟩ := Option.bind_eq_some_iff.mp result
      obtain ⟨_, result⟩ := Option.ite_none_right_eq_some.mp result
      split at result
      · obtain rfl := Option.some.inj result
        exact Pooled.set_pools_of_ne different _
      · obtain ⟨audited, _, rfl⟩ := Option.map_eq_some_iff.mp result
        exact Pooled.set_pools_of_ne different _

/-- While a pop of the thread runs, only the loop of the pop changes the pools of the thread. -/
theorem Pooled.step_pools_of_pop (borrowed : (s.pools thread).stack.borrowed = true)
    (result : s.step layout (thread, op) = some next) (other : op.isDrain = false) :
    (next.pools thread).stack = (s.pools thread).stack ∧ (next.pools thread).pop = (s.pools thread).pop := by
  cases op with
  | audit op =>
      obtain ⟨_, result⟩ := Option.ite_none_right_eq_some.mp result
      obtain ⟨audited, _, rfl⟩ := Option.map_eq_some_iff.mp result
      exact ⟨rfl, rfl⟩
  | push =>
      obtain ⟨_, result⟩ := Option.ite_none_right_eq_some.mp result
      obtain ⟨pools, pushed, rfl⟩ := Option.map_eq_some_iff.mp result
      obtain ⟨⟨stack, token⟩, isPush, rfl⟩ := Option.map_eq_some_iff.mp pushed
      rw [(objcAutoreleasePoolPush_spec isPush).1] at borrowed
      contradiction
  | autorelease obj =>
      obtain ⟨_, result⟩ := Option.ite_none_right_eq_some.mp result
      obtain ⟨pools, added, rfl⟩ := Option.map_eq_some_iff.mp result
      obtain ⟨⟨stack, answer⟩, isAdd, rfl⟩ := Option.map_eq_some_iff.mp added
      obtain ⟨rfl, rfl, unborrowed⟩ := objcAutorelease_spec isAdd
      cases answer with
      | none =>
          rw [Pooled.set_pools_self]
          exact ⟨rfl, rfl⟩
      | some o =>
          rw [unborrowed rfl] at borrowed
          contradiction
  | pop token =>
      obtain ⟨_, result⟩ := Option.ite_none_right_eq_some.mp result
      obtain ⟨pools, begun, rfl⟩ := Option.map_eq_some_iff.mp result
      obtain ⟨stack, isBegun, rfl⟩ := Option.map_eq_some_iff.mp begun
      rw [(beginPop_spec isBegun).1] at borrowed
      contradiction
  | drain => contradiction

/-- The loop of a pop that calls `objc_release` stands at its beginning. -/
theorem Pooled.beginsRelease_set {audited : Audited Tid Obj Loc Stripe Shard} {obj : Obj}
    (isCall : s.audited.step layout (thread, .run (some (.call (.release (some obj))))) = some audited)
    (pools : ThreadPools Obj) :
    ((Pooled.set { s with audited } thread pools).position thread).point.beginsRelease = some obj := by
  rw [show (Pooled.set { s with audited } thread pools).position thread = _ from (Audited.step_call isCall).1]
  rfl

/-- One step while a pop of the thread runs: the loop pays what it owes, and no other step does. -/
theorem Pooled.pop_step {lower : List (List Obj)} {owed : List Obj} {released : Option Obj}
    (phase : PoolPhase lower (s.pools thread).stack (s.pools thread).drains owed)
    (running : (s.pools thread).pop.isSome = true) (result : s.traced layout (mover, op) = some (next, released)) :
    ∃ owed', PoolPhase lower (next.pools thread).stack (next.pools thread).drains owed' ∧
      owed = (if mover = thread then released else none).toList ++ owed' ∧
        (next.pools thread).stack.work lower owed' + (if mover = thread ∧ op.isDrain = true then 1 else 0) =
          (s.pools thread).stack.work lower owed := by
  obtain ⟨_, taken, same⟩ := Option.map_eq_some_iff.mp result
  obtain ⟨rfl, rfl⟩ := Prod.mk.inj same
  obtain ⟨pop, isPop⟩ := Option.isSome_iff_exists.mp running
  by_cases isThread : mover = thread
  · subst isThread
    simp only [if_true, true_and]
    cases isDrain : op.isDrain with
    | false =>
        have borrowed : (s.pools mover).stack.borrowed = true := by
          rw [← Bool.not_eq_false, phase.idle_iff, isPop]
          simp
        obtain ⟨sameStack, samePop⟩ := Pooled.step_pools_of_pop borrowed taken isDrain
        exact ⟨owed, by rwa [sameStack, ThreadPools.drains, samePop], rfl, by simp [sameStack]⟩
    | true =>
        obtain rfl : op = .drain := by
          cases op <;> first | rfl | contradiction
        have loop := Pooled.inLoop_of_drain isPop taken
        rw [Pooled.drain_eq isPop loop] at taken
        cases remaining : pop.remaining with
        | nil =>
            rw [remaining] at taken
            obtain rfl := Option.some.inj taken
            rw [Pooled.set_pools_self]
            obtain ⟨still, _, spent⟩ := phase.takePool isPop remaining
            refine ⟨owed, still, ?_, spent⟩
            have user : ((s.set mover ((s.pools mover).takePool pop)).position mover).point.inUser = true :=
              (Pooled.inLoop_iff.mp loop).1
            rw [if_pos rfl, LockPoint.beginsRelease_of_inUser user]
            rfl
        | cons obj rest =>
            rw [remaining] at taken
            obtain ⟨audited, isCall, rfl⟩ := Option.map_eq_some_iff.mp taken
            rw [Pooled.set_pools_self]
            obtain ⟨owed', rfl, still, spent⟩ := phase.collect isPop remaining
            refine ⟨owed', still, ?_, spent⟩
            rw [if_pos rfl, Pooled.beginsRelease_set isCall]
            rfl
  · have same := Pooled.step_pools_of_ne taken (Ne.symm isThread)
    exact ⟨owed, by rwa [same], by simp [isThread], by simp [same, isThread]⟩

/-- What a running pop owes is what its loop releases before it returns. -/
theorem Pooled.pop_run {lower : List (List Obj)} {owed : List Obj} {last : Pooled Tid Obj Loc Stripe Shard}
    {during : List ((Tid × PooledOp Tid Obj Loc) × Option Obj)}
    (phase : PoolPhase lower (s.pools thread).stack (s.pools thread).drains owed)
    (run : Traced (Pooled.traced layout) (Pooled.During thread) s during last) :
    ∃ owed', PoolPhase lower (last.pools thread).stack (last.pools thread).drains owed' ∧
      owed = releasesOf thread during ++ owed' ∧
        (last.pools thread).stack.work lower owed' + drainSteps thread during =
          (s.pools thread).stack.work lower owed := by
  induction run generalizing owed with
  | nil => exact ⟨owed, phase, rfl, rfl⟩
  | @cons state middle last label released rest allowed result later ih =>
      obtain ⟨mover, op⟩ := label
      obtain ⟨owed', still, rfl, spent⟩ := Pooled.pop_step phase allowed.2 result
      obtain ⟨owed'', ended, rfl, worked⟩ := ih still
      refine ⟨owed'', ended, ?_, ?_⟩
      · rw [releasesOf_cons, List.append_assoc]
      · rw [drainSteps_cons, ← spent, ← worked, Nat.add_assoc]

end Steps

section Returns

variable {Tid Obj Loc Stripe Shard : Type} [DecidableEq Tid] [DecidableEq Obj] [DecidableEq Loc] [DecidableEq Stripe]
  [DecidableEq Shard] {layout : Layout Obj Loc Stripe Shard} {s next : Pooled Tid Obj Loc Stripe Shard}
  {thread : Tid} {pop : Pop Obj}

omit [DecidableEq Stripe] [DecidableEq Shard] in
/-- A release leads back to user code, or into the body of one `-dealloc`. -/
theorem releaseEnd_inUser (layout : Layout Obj Loc Stripe Shard) (d : Shared Obj Loc) (bodies : List Obj)
    (obj : Obj) : (releaseEnd layout d bodies obj).2.point.inUser = true ∧
      ((releaseEnd layout d bodies obj).2.bodies = bodies ∨ (releaseEnd layout d bodies obj).2.bodies = obj :: bodies) := by
  unfold releaseEnd
  split
  · exact ⟨rfl, .inl rfl⟩
  · dsimp only
    split
    · rename_i panics
      obtain ⟨⟨rt, ptr⟩, interned⟩ := Option.isSome_iff_exists.mp (internSelectorName_dealloc d.rt)
      unfold selRegisterNameStr at panics
      split at panics
      · contradiction
      · rw [interned] at panics
        contradiction
    · split
      · exact ⟨rfl, .inr rfl⟩
      · exact ⟨rfl, .inl rfl⟩

omit [DecidableEq Obj] [DecidableEq Loc] in
theorem LockPoint.exists_user {point : LockPoint Obj Loc} (user : point.inUser = true) :
    ∃ answer, point = .user answer := by
  cases point with
  | user answer => exact ⟨answer, rfl⟩
  | _ => simp [LockPoint.inUser] at user

/-- The state that the thread reaches by itself, beside threads that do not move. -/
structure Pooled.Reaches (layout : Layout Obj Loc Stripe Shard) (s : Pooled Tid Obj Loc Stripe Shard) (thread : Tid)
    (position : Position Obj Loc) (pools : ThreadPools Obj) (next : Pooled Tid Obj Loc Stripe Shard) : Prop where
  inv : PooledInv layout next
  run : ∃ calls, Traced (Pooled.traced layout) (Pooled.GoesOn thread) s calls next
  position : next.position thread = position
  others : ∀ other, other ≠ thread → next.position other = s.position other
  pools : next.pools thread = pools

/-- The thread takes a step of its own during its pop. -/
theorem PooledInv.reaches_step (inv : PooledInv layout s) (running : (s.pools thread).pop.isSome = true)
    {op : PooledOp Tid Obj Loc} (owned : s.Owned (thread, op)) (goes : op.goesOn = true)
    (result : s.step layout (thread, op) = some next)
    (others : ∀ other, other ≠ thread → next.position other = s.position other) :
    s.Reaches layout thread (next.position thread) (next.pools thread) next where
  inv := inv.step owned result
  run := ⟨_, .cons ⟨⟨owned, running⟩, rfl, goes⟩ (congrArg (Option.map _) result) (.nil next)⟩
  position := rfl
  others := others
  pools := rfl

theorem Pooled.Reaches.trans {middle : Pooled Tid Obj Loc Stripe Shard} {position position' : Position Obj Loc}
    {pools pools' : ThreadPools Obj} (first : s.Reaches layout thread position pools middle)
    (second : middle.Reaches layout thread position' pools' next) : s.Reaches layout thread position' pools' next where
  inv := second.inv
  run := by
    obtain ⟨calls, run⟩ := first.run
    obtain ⟨later, run'⟩ := second.run
    exact ⟨calls ++ later, run.trans run'⟩
  position := second.position
  others other different := (second.others other different).trans (first.others other different)
  pools := second.pools

/-- What the thread does in the program of locks is part of its pop. -/
theorem PooledInv.reaches_run (inv : PooledInv layout s) (running : (s.pools thread).pop.isSome = true)
    {after : RuntimeMachine Tid Obj Loc Stripe Shard}
    (run : Reachable (LockMachine.step (Position.action layout)) (fun _ label => label = (thread, none))
      s.audited.runtime after) :
    ∃ next, s.Reaches layout thread (after.point thread) (s.pools thread) next ∧ next.audited.runtime = after := by
  induction run with
  | refl => exact ⟨s, ⟨inv, ⟨[], .nil s⟩, rfl, fun _ _ => rfl, rfl⟩, rfl⟩
  | @tail state later label before isLabel result ih =>
      obtain ⟨middle, reached, rfl⟩ := ih
      obtain rfl := isLabel
      obtain ⟨ledger, stepped⟩ := reached.inv.audit.safe.goes thread none later result
      have step : middle.step layout (thread, .audit (.run none)) = some { middle with audited := ⟨later, ledger⟩ } := by
        simp [Pooled.step, stepped, AuditOp.byUser]
      have owned : middle.Owned (thread, .audit (.run none)) := ⟨trivial, by simp [AuditOp.surrenders]⟩
      have one := reached.inv.reaches_step (by rw [reached.pools, running]) owned rfl step
        fun other different => LockMachine.step_point_of_ne result different
      exact ⟨_, reached.trans ⟨one.inv, one.run, rfl, one.others, reached.pools⟩, rfl⟩

/-- Beside threads that own no lock, the thread reaches what it computes alone. -/
theorem PooledInv.reaches_end (inv : PooledInv layout s) (running : (s.pools thread).pop.isSome = true)
    (free : ∀ other, other ≠ thread → (s.position other).holds layout = [])
    {last : Shared Obj Loc × Position Obj Loc} (runs : LockMachine.Runs (Position.action layout)
      (s.audited.runtime.data, s.position thread) last) :
    ∃ next, s.Reaches layout thread last.2 (s.pools thread) next := by
  obtain ⟨after, run, _, ended⟩ := runs.ends (Position.respects layout) RuntimeLock.not_mayTake_self
    inv.audit.follows.ordered free rfl
  obtain ⟨next, reached, _⟩ := inv.reaches_run running run
  rw [ended, Function.update_self] at reached
  exact ⟨next, reached⟩

/-- A body of `-dealloc` that the pop caused returns. -/
theorem PooledInv.reaches_return (inv : PooledInv layout s) (isPop : (s.pools thread).pop = some pop)
    (free : ∀ other, other ≠ thread → (s.position other).holds layout = []) {answer : RuntimeAnswer Obj} {obj : Obj}
    {rest : List Obj} (isBody : s.position thread = ⟨.user answer, obj :: rest⟩)
    (inside : pop.outside < (obj :: rest).length) :
    ∃ next, s.Reaches layout thread ⟨.user .nothing, rest⟩ (s.pools thread) next := by
  have running : (s.pools thread).pop.isSome = true := by simp [isPop]
  have taken : s.audited.runtime.step (Position.action layout) (thread, some .return) =
      some (s.audited.runtime.enter thread ⟨.remove obj, rest⟩) := by
    rw [LockMachine.step, show s.audited.runtime.point thread = _ from isBody]
    rfl
  obtain ⟨ledger, stepped⟩ := inv.audit.safe.goes thread (some .return) _ taken
  have code : s.inCode thread = true := by
    rw [Pooled.inCode_iff, isBody, isPop]
    exact ⟨rfl, fun _ same => by obtain rfl := Option.some.inj same; exact inside⟩
  have step : s.step layout (thread, .audit (.run (some .return))) =
      some { s with audited := ⟨s.audited.runtime.enter thread ⟨.remove obj, rest⟩, ledger⟩ } := by
    simp [Pooled.step, stepped, code]
  have owned : s.Owned (thread, .audit (.run (some .return))) := ⟨trivial, by simp [AuditOp.surrenders]⟩
  have others : ∀ other, other ≠ thread →
      (s.audited.runtime.enter thread ⟨.remove obj, rest⟩).point other = s.position other :=
    fun other different => Function.update_of_ne different _ _
  have one := inv.reaches_step running owned rfl step others
  obtain ⟨next, reached⟩ := one.inv.reaches_end running
    (fun other different => (congrArg _ (others other different)).trans (free other different)) (by
      have runs : LockMachine.Runs (Position.action layout) (s.audited.runtime.data, ⟨.remove obj, rest⟩) _ :=
        returnEnd_alone obj
      simpa [Pooled.position, LockMachine.enter] using runs)
  exact ⟨next, one.trans reached⟩

/-- A thread in user code can begin a release. -/
theorem Audited.release_goes {audited : Audited Tid Obj Loc Stripe Shard} (safe : audited.Safe layout)
    (user : (audited.runtime.point thread).point.inUser = true) (obj : Obj) :
    ∃ ledger, audited.step layout (thread, .run (some (.call (.release (some obj))))) =
      some ⟨audited.runtime.enter thread ⟨.release obj, (audited.runtime.point thread).bodies⟩, ledger⟩ := by
  obtain ⟨answer, isUser⟩ := LockPoint.exists_user user
  refine safe.goes thread _ _ ?_
  rw [LockMachine.step, Position.action, isUser]
  rfl

/-- The loop of a pop releases its next object and goes back to user code, or into the body of its `-dealloc`. -/
theorem PooledInv.reaches_release (inv : PooledInv layout s) (isPop : (s.pools thread).pop = some pop)
    (loop : s.inLoop thread pop = true) {obj : Obj} {rest : List Obj} (taken : pop.remaining = obj :: rest)
    (free : ∀ other, other ≠ thread → (s.position other).holds layout = []) :
    ∃ next, s.Reaches layout thread
      (releaseEnd layout s.audited.runtime.data (s.position thread).bodies obj).2
      ((s.pools thread).collect pop rest) next := by
  have running : (s.pools thread).pop.isSome = true := by simp [isPop]
  obtain ⟨ledger, stepped⟩ := Audited.release_goes inv.audit.safe (Pooled.inLoop_iff.mp loop).1 obj
  have step : s.step layout (thread, .drain) = _ := Pooled.drain_eq isPop loop
  simp only [taken, stepped, Option.map_some] at step
  have others : ∀ other, other ≠ thread →
      (s.audited.runtime.enter thread ⟨.release obj, (s.position thread).bodies⟩).point other = s.position other :=
    fun other different => Function.update_of_ne different _ _
  have owned : s.Owned (thread, .drain) := trivial
  have one := inv.reaches_step running owned rfl step others
  obtain ⟨next, reached⟩ := one.inv.reaches_end (by rw [Pooled.set_pools_self]; rfl)
    (fun other different => (congrArg _ (others other different)).trans (free other different)) (by
      have runs : LockMachine.Runs (Position.action layout)
          (s.audited.runtime.data, ⟨.release obj, (s.position thread).bodies⟩) _ := releaseEnd_alone obj
      simpa [Pooled.position, Pooled.set, LockMachine.enter] using runs)
  rw [Pooled.set_pools_self] at reached
  exact ⟨next, one.trans reached⟩

/-- A pop returns when the bodies of `-dealloc` do and the other threads own no lock. -/
theorem PooledInv.pop_returns (inv : PooledInv layout s) {lower : List (List Obj)} {owed : List Obj}
    (phase : PoolPhase lower (s.pools thread).stack (s.pools thread).drains owed)
    (user : (s.position thread).point.inUser = true)
    (free : ∀ other, other ≠ thread → (s.position other).holds layout = []) :
    ∃ rest last, Traced (Pooled.traced layout) (Pooled.GoesOn thread) s rest last ∧ (last.pools thread).pop = none := by
  induction size : 2 * (s.pools thread).stack.work lower owed + (s.position thread).bodies.length
    using Nat.strongRecOn generalizing s owed with
  | _ total ih =>
      cases isPop : (s.pools thread).pop with
      | none => exact ⟨[], s, .nil s, isPop⟩
      | some pop =>
          have continues : ∀ {position pools next owed'}, s.Reaches layout thread position pools next →
              position.point.inUser = true → PoolPhase lower pools.stack pools.drains owed' →
              2 * pools.stack.work lower owed' + position.bodies.length < total →
              ∃ rest last, Traced (Pooled.traced layout) (Pooled.GoesOn thread) s rest last ∧
                (last.pools thread).pop = none := by
            intro position pools next owed' reached user phase less
            obtain ⟨calls, run⟩ := reached.run
            have := reached.pools
            have := reached.position
            subst this
            subst pools
            obtain ⟨rest, last, later, ended⟩ := ih _ less reached.inv phase user
              (fun other different => by rw [reached.others other different, free other different]) rfl
            exact ⟨calls ++ rest, last, run.trans later, ended⟩
          rcases (inv.pools thread).outside pop isPop |>.eq_or_lt with isOutside | inside
          · have loop := Pooled.inLoop_iff.mpr ⟨user, isOutside⟩
            cases taken : pop.remaining with
            | nil =>
                obtain ⟨still, _, spent⟩ := phase.takePool isPop taken
                have step : s.step layout (thread, .drain) = _ := Pooled.drain_eq isPop loop
                rw [taken] at step
                have owned : s.Owned (thread, .drain) := trivial
                have reached := inv.reaches_step (by simp [isPop]) owned rfl step fun _ _ => rfl
                rw [Pooled.set_pools_self] at reached
                exact continues reached user still (by show 2 * _ + (s.position thread).bodies.length < _; omega)
            | cons obj rest =>
                obtain ⟨owed', rfl, still, spent⟩ := phase.collect isPop taken
                obtain ⟨next, reached⟩ := inv.reaches_release isPop loop taken free
                obtain ⟨user, bodies⟩ := releaseEnd_inUser layout s.audited.runtime.data
                  (s.position thread).bodies obj
                refine continues reached user still ?_
                rcases bodies with same | more
                · rw [same]
                  omega
                · rw [more, List.length_cons]
                  omega
          · obtain ⟨answer, isUser⟩ := LockPoint.exists_user user
            cases isBodies : (s.position thread).bodies with
            | nil =>
                rw [isBodies] at inside
                exact absurd inside (Nat.not_lt_zero _)
            | cons obj rest =>
                have isBody : s.position thread = ⟨.user answer, obj :: rest⟩ := by rw [← isUser, ← isBodies]
                have inside : pop.outside < (obj :: rest).length := by rwa [← isBodies]
                obtain ⟨next, reached⟩ := inv.reaches_return isPop free isBody inside
                refine continues reached rfl phase ?_
                rw [← size, isBodies]
                simp only [List.length_cons]
                omega

end Returns

section Counts

variable {Tid Obj : Type} [DecidableEq Tid] [DecidableEq Obj] {threads : List Tid} {refs : List (Tid × Obj)} {obj : Obj}

/-- The references of one more thread are not those of the threads before. -/
theorem count_add_countP_le {thread : Tid} (absent : thread ∉ threads) :
    refs.count (thread, obj) + refs.countP (fun ref => ref.1 ∈ threads ∧ ref.2 = obj) ≤
      refs.countP fun ref => ref.1 ∈ thread :: threads ∧ ref.2 = obj := by
  induction refs with
  | nil => rfl
  | cons ref rest ih =>
      obtain ⟨t, o⟩ := ref
      simp only [List.count_cons, List.countP_cons, List.mem_cons, beq_iff_eq, Prod.mk.injEq, decide_eq_true_eq] at ih ⊢
      by_cases own : t = thread
      · simp only [own, absent, false_and, if_false, true_and, true_or] at ih ⊢
        omega
      · simp only [own, false_and, if_false, false_or] at ih ⊢
        omega

/-- What different threads hold is among all references. -/
theorem count_flatMap_le_refCount {held : Tid → List Obj}
    (booked : ∀ t, (held t).count obj ≤ refs.count (t, obj)) (nodup : threads.Nodup) :
    (threads.flatMap held).count obj ≤ refCount refs obj := by
  have owned : (threads.flatMap held).count obj ≤ refs.countP fun ref => ref.1 ∈ threads ∧ ref.2 = obj := by
    induction threads with
    | nil => exact Nat.zero_le _
    | cons thread rest ih =>
        obtain ⟨absent, nodup⟩ := List.nodup_cons.mp nodup
        rw [List.flatMap_cons, List.count_append]
        exact (Nat.add_le_add (booked thread) (ih nodup)).trans (count_add_countP_le absent)
  refine owned.trans ?_
  rw [refCount, List.count, List.countP_map]
  exact List.countP_mono_left fun ref _ isRef => beq_iff_eq.mpr (of_decide_eq_true isRef).2

end Counts

section Safety

variable {Tid Obj Loc Stripe Shard : Type} [DecidableEq Tid] [DecidableEq Obj] [DecidableEq Loc] [DecidableEq Stripe]
  [DecidableEq Shard]

/-- What a thread can rely on about its pools in a state. -/
structure Pooled.Safe (layout : Layout Obj Loc Stripe Shard) (s : Pooled Tid Obj Loc Stripe Shard) : Prop where
  /-- The releases of the pops disturb no owner of a reference. -/
  audited : s.audited.Safe layout
  /-- An autoreleased object that no pop has released is alive, whatever the other threads do. -/
  alive : ∀ thread, ∀ obj ∈ (s.pools thread).held, (thread, obj) ∈ s.audited.ledger.refs ∧
    s.audited.ledger.deallocs obj = 0 ∧
      ∀ other, obj ∉ (s.position other).point.call.dying ++ (s.position other).bodies
  /-- The pools of all threads together hold an object at most as often as it is retained. -/
  counts : ∀ (threads : List Tid) (obj : Obj), threads.Nodup →
    (threads.flatMap fun t => (s.pools t).held).count obj ≤
      objcRetainCount s.audited.runtime.data.table (some obj)
  /-- Without a pop the pools hold what the thread has logged, and every pool function can borrow them. -/
  idle : ∀ thread, (s.pools thread).pop = none → (s.pools thread).stack.borrowed = false ∧
    ScopedLog.ofStack (s.pools thread).stack.pools = (s.pools thread).log
  /-- A pop leaves the pools below its token alone. -/
  pops : ∀ thread, ∀ pop ∈ (s.pools thread).pop, ∃ lower upper, pop.target = lower.length ∧
    (s.pools thread).stack = ⟨lower ++ upper, true⟩ ∧ ScopedLog.ofStack lower = (s.pools thread).log
  /-- A thread loses an autoreleased object only by a release of the loop of its pop. -/
  keeps : ∀ thread label next released, s.traced layout label = some (next, released) → ∀ obj,
    (s.pools thread).held.count obj ≤
      (next.pools thread).held.count obj + if label.1 = thread ∧ released = some obj then 1 else 0
  /-- The loop of a pop goes on. -/
  drains : ∀ thread, ∀ pop ∈ (s.pools thread).pop, s.inLoop thread pop = true →
    ∃ next, s.step layout (thread, .drain) = some next
  /-- A pop that begins here releases what stands at or above its token, and returns. -/
  popsTo : ∀ thread token begun, s.Owned (thread, .pop token) → s.step layout (thread, .pop token) = some begun →
    s.PopsTo layout thread token begun

variable {layout : Layout Obj Loc Stripe Shard} {s : Pooled Tid Obj Loc Stripe Shard} {thread : Tid} {pop : Pop Obj}

/-- A step of the thread keeps what the thread holds, but for what the loop of its pop releases. -/
theorem PooledInv.held_step (inv : PooledInv layout s) {op : PooledOp Tid Obj Loc}
    {next : Pooled Tid Obj Loc Stripe Shard} {released : Option Obj}
    (result : s.traced layout (thread, op) = some (next, released)) (obj : Obj) :
    (s.pools thread).held.count obj ≤
      (next.pools thread).held.count obj + if released = some obj then 1 else 0 := by
  obtain ⟨_, taken, same⟩ := Option.map_eq_some_iff.mp result
  obtain ⟨rfl, rfl⟩ := Prod.mk.inj same
  have enough : ∀ {n : Nat} {answer : Option Obj}, (s.pools thread).held.count obj ≤ n →
      (s.pools thread).held.count obj ≤ n + if answer = some obj then 1 else 0 :=
    fun kept => kept.trans (Nat.le_add_right _ _)
  cases op with
  | audit op =>
      obtain ⟨_, taken⟩ := Option.ite_none_right_eq_some.mp taken
      obtain ⟨audited, _, rfl⟩ := Option.map_eq_some_iff.mp taken
      exact enough le_rfl
  | push =>
      obtain ⟨_, taken⟩ := Option.ite_none_right_eq_some.mp taken
      obtain ⟨pools, pushed, rfl⟩ := Option.map_eq_some_iff.mp taken
      rw [Pooled.set_pools_self, ThreadPools.push_held pushed]
      exact enough le_rfl
  | autorelease received =>
      obtain ⟨code, taken⟩ := Option.ite_none_right_eq_some.mp taken
      obtain ⟨pools, added, rfl⟩ := Option.map_eq_some_iff.mp taken
      rw [Pooled.set_pools_self]
      cases received with
      | none =>
          obtain ⟨⟨stack, answer⟩, isAdd, rfl⟩ := Option.map_eq_some_iff.mp added
          obtain ⟨rfl, rfl, _⟩ := objcAutorelease_spec isAdd
          exact enough (by simp [ThreadPools.held, PoolStack.received])
      | some o =>
          obtain ⟨⟨stack, answer⟩, isAdd, _⟩ := Option.map_eq_some_iff.mp added
          obtain ⟨_, rfl, unborrowed⟩ := objcAutorelease_spec isAdd
          obtain ⟨noPop, _⟩ := (inv.pools thread).idle (unborrowed rfl)
          rw [(ThreadPools.autorelease_held noPop added).count_eq]
          exact enough List.count_le_count_cons
  | pop token =>
      obtain ⟨_, taken⟩ := Option.ite_none_right_eq_some.mp taken
      obtain ⟨pools, begun, rfl⟩ := Option.map_eq_some_iff.mp taken
      obtain ⟨stack, isBegun, _⟩ := Option.map_eq_some_iff.mp begun
      obtain ⟨noPop, _⟩ := (inv.pools thread).idle (beginPop_spec isBegun).1
      rw [Pooled.set_pools_self, ThreadPools.beginPop_held noPop begun]
      exact enough le_rfl
  | drain =>
      obtain ⟨pop, isPop, _⟩ := Option.bind_eq_some_iff.mp taken
      have loop := Pooled.inLoop_of_drain isPop taken
      rw [Pooled.drain_eq isPop loop] at taken
      cases remaining : pop.remaining with
      | nil =>
          rw [remaining] at taken
          obtain rfl := Option.some.inj taken
          obtain ⟨lower, upper, isTarget, isStack, _⟩ := (inv.pools thread).running isPop
          rw [Pooled.set_pools_self, ThreadPools.takePool_held isPop remaining isTarget isStack]
          exact enough le_rfl
      | cons o rest =>
          rw [remaining] at taken
          obtain ⟨audited, isCall, rfl⟩ := Option.map_eq_some_iff.mp taken
          have paid := ThreadPools.collect_held isPop remaining obj
          simp only [PooledOp.isDrain, if_true, Pooled.set_pools_self, Pooled.beginsRelease_set isCall,
            Option.some.injEq]
          exact paid.ge

/-- A pop that begins owes what stands at or above its token. -/
theorem PooledInv.popsTo (inv : PooledInv layout s) {token : Nat} {begun : Pooled Tid Obj Loc Stripe Shard}
    (valid : s.Owned (thread, .pop token)) (result : s.step layout (thread, .pop token) = some begun) :
    s.PopsTo layout thread token begun := by
  have beganInv := inv.step valid result
  have inside : token < (s.pools thread).stack.pools.length := valid
  obtain ⟨_, taken⟩ := Option.ite_none_right_eq_some.mp result
  obtain ⟨pools, began, rfl⟩ := Option.map_eq_some_iff.mp taken
  obtain ⟨stack, isBegun, rfl⟩ := Option.map_eq_some_iff.mp began
  obtain ⟨unborrowed, isStack⟩ := beginPop_spec isBegun
  obtain ⟨lower, owed, phase, _⟩ := (inv.pools thread).phase
  obtain ⟨same, noDrains, _⟩ := phase.of_unborrowed unborrowed
  have isLower : (s.pools thread).stack.pools = lower := by rw [same]
  rw [isLower] at inside
  have atToken : (lower.take token).length = token := by rw [List.length_take, Nat.min_eq_left inside.le]
  have popping := phase.begin inside.le isBegun
  rw [noDrains] at popping
  refine ⟨fun during last run => ?_, fun during last run ended => ?_, fun during last run => ?_,
    fun during middle run user free => ?_⟩
  all_goals
    obtain ⟨owed', still, paid, worked⟩ := Pooled.pop_run (by rw [Pooled.set_pools_self]; exact popping) run
  · rw [isLower]
    exact ⟨owed', paid.symm⟩
  · obtain ⟨isLast, _, rfl⟩ := still.of_unborrowed (still.idle_iff.mpr ended)
    rw [List.append_nil] at paid
    rw [isLower, isLast]
    exact ⟨paid.symm, rfl, atToken⟩
  · rw [Pooled.set_pools_self] at worked
    have total : stack.work (lower.take token) (lower.drop token).flatten.reverse =
        (lower.drop token).flatten.length + (lower.length - token) + 1 := by
      rw [PoolStack.work, isStack, isLower, atToken, List.length_reverse]
      rfl
    rw [isLower, ← total, ← worked]
    exact Nat.le_add_left _ _
  · have inv := run.invariant (PooledInv layout) beganInv fun state label next _ inv allowed result => by
      obtain ⟨_, taken, same⟩ := Option.map_eq_some_iff.mp result
      obtain ⟨rfl, rfl⟩ := Prod.mk.inj same
      exact inv.step allowed.1 taken
    exact inv.pop_returns still user free

theorem PooledInv.safe (inv : PooledInv layout s) : s.Safe layout where
  audited := inv.audit.safe
  alive thread obj member := by
    have positive := List.count_pos_iff.mpr member
    have booked := (inv.pools thread).booked obj
    have owned : (thread, obj) ∈ s.audited.ledger.refs := List.count_pos_iff.mp (by omega)
    exact ⟨owned, inv.audit.safe.alive thread obj owned⟩
  counts threads obj nodup := by
    have all := count_flatMap_le_refCount (fun t => (Nat.le_add_right _ _).trans ((inv.pools t).booked obj)) nodup
    rcases Nat.eq_zero_or_pos (refCount s.audited.ledger.refs obj) with none | positive
    · omega
    · rwa [inv.audit.safe.counts obj positive]
  idle thread noPop := by
    obtain ⟨lower, owed, phase, _⟩ := (inv.pools thread).phase
    have unborrowed := phase.idle_iff.mpr noPop
    exact ⟨unborrowed, ((inv.pools thread).idle unborrowed).2⟩
  pops thread pop isPop := (inv.pools thread).running isPop
  keeps thread label next released result obj := by
    obtain ⟨mover, op⟩ := label
    by_cases isThread : mover = thread
    · subst isThread
      simpa using inv.held_step result obj
    · obtain ⟨_, taken, same⟩ := Option.map_eq_some_iff.mp result
      obtain ⟨rfl, rfl⟩ := Prod.mk.inj same
      rw [Pooled.step_pools_of_ne taken (Ne.symm isThread)]
      exact Nat.le_add_right _ _
  drains thread pop isPop loop := by
    rw [Pooled.drain_eq isPop loop]
    cases pop.remaining with
    | nil => exact ⟨_, rfl⟩
    | cons obj rest =>
        obtain ⟨audited, taken⟩ := Audited.release_goes inv.audit.safe (Pooled.inLoop_iff.mp loop).1 obj
        exact ⟨_, congrArg (Option.map _) taken⟩
  popsTo thread token begun valid result := inv.popsTo valid result

/-- However the threads of a program interleave at its locks, each thread's pops release what the thread autoreleased
since the push, the latest first, and until then the objects live. -/
theorem pooledRun_drains {rt : Runtime}
    (run : Reachable (Pooled.step layout) Pooled.Owned (Pooled.start rt : Pooled Tid Obj Loc Stripe Shard) s) :
    s.Safe layout :=
  PooledInv.safe (run.invariant (PooledInv layout) (.start rt) fun _ _ _ inv owned result => inv.step owned result)

end Safety

/-- Thread 0 autoreleases an object, and thread 1 releases the other reference to it. The object lives until thread 0
pops its pool, which sends `-dealloc`. -/
theorem pooledRun_drains_shared : ∃ s begun last : Pooled Nat Nat Nat Nat Nat, ∃ during,
    s.step collidingLayout (0, .pop 0) = some begun ∧
      Traced (Pooled.traced collidingLayout) (Pooled.During 0) begun during last ∧ releasesOf 0 during = [5] ∧
        (last.position 0).bodies = [5] ∧ s.Safe collidingLayout := by
  let internal (thread steps : Nat) : List (Nat × PooledOp Nat Nat Nat) :=
    List.replicate steps (thread, .audit (.run none))
  let labels : List (Nat × PooledOp Nat Nat Nat) :=
    [(0, .audit (.allocate 5)), (0, .audit (.run (some (.call (.retain (some 5))))))] ++ internal 0 3 ++
      [(0, .push), (0, .audit (.give 1 5)), (0, .autorelease (some 5)),
        (1, .audit (.run (some (.call (.release (some 5))))))] ++ internal 1 3
  have ran : ∃ s ∈ replay (Pooled.step collidingLayout) Pooled.Owned
      (Pooled.start deallocRuntime : Pooled Nat Nat Nat Nat Nat) labels,
      ∃ begun ∈ s.step collidingLayout (0, .pop 0),
        ∃ ended ∈ replayTraced (Pooled.traced collidingLayout) (Pooled.During 0) begun
          ([(0, .drain), (0, .drain)] ++ internal 0 15),
          releasesOf 0 ended.2 = [5] ∧ (ended.1.position 0).bodies = [5] := ⟨_, rfl, _, rfl, _, rfl, rfl, rfl⟩
  obtain ⟨s, replayed, begun, pops, ⟨last, during⟩, traced, releases, body⟩ := ran
  exact ⟨s, begun, last, during, pops, traced_of_replay traced, releases, body,
    pooledRun_drains (reachable_of_replay replayed)⟩

end O3jc
