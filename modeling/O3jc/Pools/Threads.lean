import O3jc.Locking.Audit
import O3jc.Pools.Accounting

/-
This file gives every thread of the program of locks its own autorelease pools and proves that pools of different
threads do not disturb each other.
-/

namespace O3jc

open Library

/-- A pop that has not returned, with what is left of the pool that it took off last. It began below a number of bodies of
`-dealloc`. -/
structure Pop (Obj : Type) where
  target : Nat
  remaining : List Obj
  outside : Nat
deriving DecidableEq

/-- The pools of a thread, the log of its pushes, autoreleases and pops, and the objects that it autoreleased without a
pool. -/
structure ThreadPools (Obj : Type) where
  stack : PoolStack Obj
  pop : Option (Pop Obj)
  log : ScopedLog Obj
  leaked : List Obj

/-- The audited program and the pools of every thread. -/
structure Pooled (Tid Obj Loc Stripe Shard : Type) where
  audited : Audited Tid Obj Loc Stripe Shard
  pools : Tid → ThreadPools Obj

/-- A thread takes a step of the audited program, calls a pool function, or takes the next step of its pop.
`objc_load_weak` is a retained load and an autorelease of its result. -/
inductive PooledOp (Tid Obj Loc : Type) where
  | audit (op : AuditOp Tid Obj Loc)
  | push
  | autorelease (obj : Option Obj)
  | pop (token : Nat)
  | drain

/-- The object to which user code gives up a reference. -/
def AuditOp.surrenders {Tid Obj Loc : Type} : AuditOp Tid Obj Loc → Option Obj
  | .run (some (.call (.release obj))) => obj
  | .give _ obj => some obj
  | _ => none

/-- The object of which a call that has begun is about to release a reference. -/
def LockPoint.surrenders {Obj Loc : Type} : LockPoint Obj Loc → Option Obj
  | .release obj => some obj
  | .releasing obj => some obj
  | _ => none

namespace ThreadPools

variable {Obj : Type} (pools : ThreadPools Obj)

def empty : ThreadPools Obj := ⟨⟨[], false⟩, none, .empty, []⟩

/-- What the thread still owns without having it at hand. -/
def held : List Obj := (pools.pop.map Pop.remaining).getD [] ++ pools.stack.pools.flatten ++ pools.leaked

def drains : List (Nat × List Obj) := pools.pop.toList.map fun pop => (pop.target, pop.remaining)

def push : Option (ThreadPools Obj) :=
  (objcAutoreleasePoolPush pools.stack).map fun (stack, _) => { pools with stack, log := pools.log.opened }

def autorelease (obj : Option Obj) : Option (ThreadPools Obj) :=
  (objcAutorelease pools.stack obj).map fun (stack, result) => { pools with
    stack
    log := result.elim pools.log pools.log.add
    leaked := if pools.stack.pools.isEmpty then result.toList ++ pools.leaked else pools.leaked }

def beginPop (token outside : Nat) : Option (ThreadPools Obj) :=
  pools.stack.beginPop.map fun stack => { pools with
    stack
    pop := some ⟨token, [], outside⟩
    log := pools.log.closed token }

/-- The pop goes on to the next pool or returns. -/
def takePool (pop : Pop Obj) : ThreadPools Obj :=
  match pools.stack.popPool pop.target with
  | (stack, some remaining) => { pools with stack, pop := some { pop with remaining } }
  | (stack, none) => { pools with stack, pop := none }

/-- The pop has the other objects of the pool left. -/
def collect (pop : Pop Obj) (rest : List Obj) : ThreadPools Obj :=
  { pools with pop := some { pop with remaining := rest } }

end ThreadPools

section Surrenders

variable {Tid Obj Loc Stripe Shard : Type}

theorem zeroFrom_surrenders (obj : Obj) (locs : List Loc) : (zeroFrom obj locs).surrenders = none := by
  cases locs <;> rfl

theorem enterNew_surrenders (loc : Loc) (write : WeakWrite Obj) : (enterNew loc write).surrenders = none := by
  unfold enterNew
  split <;> rfl

theorem RuntimeCall.begin_surrenders (call : RuntimeCall Obj Loc) :
    ∀ obj ∈ call.begin.surrenders, call = .release (some obj) := by
  cases call with
  | retain obj => cases obj <;> simp [RuntimeCall.begin, LockPoint.surrenders]
  | release obj => cases obj <;> simp [RuntimeCall.begin, LockPoint.surrenders]
  | _ => simp [RuntimeCall.begin, LockPoint.surrenders]

theorem LockPoint.surrenders_of_inUser {point : LockPoint Obj Loc} (user : point.inUser = true) :
    point.surrenders = none := by
  cases point <;> first | rfl | contradiction

variable [DecidableEq Obj] [DecidableEq Loc] (layout : Layout Obj Loc Stripe Shard)

/-- A release begins with the call of user code, and only a return ends a body of `-dealloc`. -/
theorem Position.surrenders_step (position : Position Obj Loc) :
    match position.action layout with
    | .done => True
    | .choose next => ∀ choice, ∀ chosen ∈ next choice,
        (∀ obj ∈ chosen.point.surrenders, choice = .call (.release (some obj))) ∧
          (position.bodies.length ≤ chosen.bodies.length ∨
            choice = .return ∧ position.bodies.length ≤ chosen.bodies.length + 1)
    | .access next => ∀ d : Shared Obj Loc,
        (next d).2.point.surrenders = none ∧ position.bodies.length ≤ (next d).2.bodies.length
    | .acquire _ _ next =>
        (∀ obj ∈ next.point.surrenders, position.point = .release obj) ∧ next.bodies = position.bodies
    | .release _ _ next => next.point.surrenders = none ∧ next.bodies = position.bodies := by
  obtain ⟨point, bodies⟩ := position
  cases point with
  | finished => trivial
  | user answer =>
      intro choice chosen isChosen
      cases choice with
      | call call =>
          obtain rfl := Option.some.inj isChosen
          exact ⟨fun obj isObj => congrArg _ (call.begin_surrenders obj isObj), .inl le_rfl⟩
      | «return» =>
          cases bodies with
          | nil =>
              obtain rfl := Option.some.inj isChosen
              exact ⟨by simp [LockPoint.surrenders], .inl le_rfl⟩
          | cons obj rest =>
              obtain rfl := Option.some.inj isChosen
              exact ⟨by simp [LockPoint.surrenders], .inr ⟨rfl, le_rfl⟩⟩
  | release obj => exact ⟨by simp [LockPoint.surrenders], rfl⟩
  | retain | writeWeak | unregister | register | zero | remove | loadWeak | selRegister | intern | cacheRead | cacheFill
  | flushLock | flushAll | registryLock => exact ⟨by simp [LockPoint.surrenders], rfl⟩
  | removed | unlockSlot | interned | internPanicked | selPanicked | cacheFilled | flushed | registryInserted
  | registered => exact ⟨rfl, rfl⟩
  | retained obj load result => cases load <;> exact ⟨rfl, rfl⟩
  | released obj weakLocations =>
      cases weakLocations with
      | none => exact ⟨rfl, rfl⟩
      | some locs => exact ⟨zeroFrom_surrenders obj locs, rfl⟩
  | zeroed obj loc rest => exact ⟨zeroFrom_surrenders obj rest, rfl⟩
  | unregistered loc old write => exact ⟨enterNew_surrenders loc write, rfl⟩
  | selFound name sel caller => cases caller <;> exact ⟨rfl, rfl⟩
  | cacheAnswered cls sel cached caller => cases cached <;> exact ⟨rfl, rfl⟩
  | retaining | releasing | zeroing | removing | clear | registering | selInsert | cacheReading | cacheFilling
  | flushing | flushBelow | sweeping | registryInsert | unregistering => exact fun d => ⟨rfl, le_rfl⟩
  | initWeak loc obj => cases obj <;> exact fun d => ⟨rfl, le_rfl⟩
  | writing loc write =>
      intro d
      dsimp only
      split
      · exact ⟨enterNew_surrenders loc write, le_rfl⟩
      · exact ⟨rfl, le_rfl⟩
  | loading loc | selEntry name caller | interning name caller | replaceMethod cls sel imp types | exchange m1 m2
  | registerClass cls =>
      intro d
      dsimp only
      split <;> exact ⟨rfl, le_rfl⟩
  | msgLookup receiver sel caller | walk cls sel caller | addMethod cls sel imp types replacing =>
      intro d
      dsimp only
      split
      · exact ⟨rfl, le_rfl⟩
      · split <;> exact ⟨rfl, le_rfl⟩
  | lookedUp imp caller =>
      intro d
      dsimp only
      split
      · exact ⟨rfl, le_rfl⟩
      · exact ⟨rfl, by simp⟩
      · exact ⟨rfl, le_rfl⟩
  | flush pending sweep answer =>
      cases pending with
      | cons cls pending =>
          intro d
          dsimp only
          split <;> exact ⟨rfl, le_rfl⟩
      | nil =>
          cases sweep with
          | none => exact fun d => ⟨rfl, le_rfl⟩
          | some rest =>
              cases rest with
              | nil => exact ⟨rfl, rfl⟩
              | cons cls rest => exact fun d => ⟨rfl, le_rfl⟩

end Surrenders

section References

variable {Tid Obj Loc Stripe Shard : Type} [DecidableEq Tid] [DecidableEq Obj] [DecidableEq Loc]

omit [DecidableEq Loc] in
theorem count_erase_le (refs : List (Tid × Obj)) (thread : Tid) (obj o : Obj) :
    refs.count (thread, o) ≤ (refs.erase (thread, obj)).count (thread, o) + if obj = o then 1 else 0 := by
  rw [List.count_erase]
  by_cases same : obj = o
  · simp [same]
    omega
  · simp [same]

variable [DecidableEq Stripe] {stripe : Loc → Stripe} {m next : Machine Tid Obj Loc Stripe} {thread other : Tid}
  {obj : Obj}

theorem Machine.release_count (result : m.step stripe (thread, .release (some obj)) = some next) (o : Obj) :
    m.refs.count (thread, o) ≤ next.refs.count (thread, o) + if obj = o then 1 else 0 := by
  cases Machine.step_effect result <;> exact count_erase_le ..

theorem Machine.give_count (result : m.step stripe (thread, .give other obj) = some next) (o : Obj) :
    m.refs.count (thread, o) ≤ next.refs.count (thread, o) + if obj = o then 1 else 0 := by
  cases Machine.step_effect result
  exact (count_erase_le ..).trans (Nat.add_le_add_right List.count_le_count_cons _)

variable [DecidableEq Shard] {layout : Layout Obj Loc Stripe Shard}
  {runtime later : RuntimeMachine Tid Obj Loc Stripe Shard} {choice : Option (UserChoice Obj Loc)}

omit [DecidableEq Loc] [DecidableEq Stripe] [DecidableEq Shard] in
/-- A call that is about to release an object was told so or has just begun, and only a return ends a body. -/
theorem runtime_surrenders [DecidableEq Loc] [DecidableEq Stripe] [DecidableEq Shard]
    (result : runtime.step (Position.action layout) (thread, choice) = some later) :
    (∀ obj ∈ (later.point thread).point.surrenders,
      choice = some (.call (.release (some obj))) ∨ (runtime.point thread).point = .release obj) ∧
    ((runtime.point thread).bodies.length ≤ (later.point thread).bodies.length ∨
      choice = some .return ∧ (runtime.point thread).bodies.length ≤ (later.point thread).bodies.length + 1) := by
  have position := (runtime.point thread).surrenders_step layout
  cases LockMachine.step_effect result with
  | @choose next choice point isChoice chosen =>
      rw [isChoice] at position
      obtain ⟨begins, ends⟩ := position choice point chosen
      simp only [LockMachine.enter, Function.update_self]
      exact ⟨fun obj isObj => .inl (congrArg some (begins obj isObj)), ends.imp_right fun isReturn =>
        ⟨congrArg some isReturn.1, isReturn.2⟩⟩
  | access isAccess =>
      rw [isAccess] at position
      simp only [LockMachine.enter, Function.update_self]
      obtain ⟨silent, longer⟩ := position runtime.data
      exact ⟨fun obj isObj => absurd (silent ▸ isObj) (by simp), .inl longer⟩
  | acquire isAcquire admitted =>
      rw [isAcquire] at position
      simp only [LockMachine.enter, Function.update_self]
      exact ⟨fun obj isObj => .inr (position.1 obj isObj), .inl (congrArg List.length position.2).ge⟩
  | release isRelease =>
      rw [isRelease] at position
      simp only [LockMachine.enter, Function.update_self]
      exact ⟨fun obj isObj => absurd (position.1 ▸ isObj) (by simp), .inl (congrArg List.length position.2).ge⟩

variable {s next : Audited Tid Obj Loc Stripe Shard} {op : AuditOp Tid Obj Loc}

/-- A reference leaves a thread only after the thread has surrendered it. -/
theorem Audited.surrenders_step (owned : s.Owned (thread, op)) (result : s.step layout (thread, op) = some next)
    (o : Obj) :
    s.ledger.refs.count (thread, o) + (if (next.runtime.point thread).point.surrenders = some o then 1 else 0) ≤
      next.ledger.refs.count (thread, o) +
        if op.surrenders = some o ∨ (s.runtime.point thread).point.surrenders = some o then 1 else 0 := by
  cases op with
  | run choice =>
      obtain ⟨runtime, taken, rest⟩ := Option.bind_eq_some_iff.mp result
      obtain ⟨ledger, stepped, isNext⟩ := Option.bind_eq_some_iff.mp rest
      obtain rfl := Option.some.inj isNext
      have begun := (runtime_surrenders taken).1
      by_cases releasing : ∃ obj, (s.runtime.point thread).point = .releasing obj
      · obtain ⟨obj, isReleasing⟩ := releasing
        have silent : (runtime.point thread).point.surrenders = none := by
          by_contra surrenders
          obtain ⟨o, isObj⟩ := Option.ne_none_iff_exists'.mp surrenders
          rcases begun o isObj with rfl | before
          · cases LockMachine.step_effect taken with
            | choose isChoice chosen =>
                rw [Position.action, isReleasing] at isChoice
                contradiction
          · rw [isReleasing] at before
            contradiction
        rw [isReleasing] at stepped
        obtain ⟨middle, single, ends⟩ := Option.bind_eq_some_iff.mp stepped
        obtain rfl : middle = ledger := Option.some.inj ends
        simp only [silent, isReleasing]
        refine (Machine.release_count single o).trans (Nat.add_le_add_left ?_ _)
        split
        · rename_i same
          rw [if_pos (.inr (congrArg some same))]
        · exact Nat.zero_le _
      · have held : ∀ o, (s.runtime.point thread).point ≠ .releasing o := fun o isReleasing =>
          releasing ⟨o, isReleasing⟩
        have kept : s.ledger.refs.count (thread, o) ≤ ledger.refs.count (thread, o) :=
          Machine.steps_count stepped (.inr (LockPoint.memOps_gives _ _ held))
        have room : (if (runtime.point thread).point.surrenders = some o then 1 else 0) ≤
            if (AuditOp.run choice : AuditOp Tid Obj Loc).surrenders = some o ∨
              (s.runtime.point thread).point.surrenders = some o then 1 else 0 := by
          split
          · rename_i surrenders
            rw [if_pos]
            rcases begun o surrenders with rfl | before
            · exact .inl rfl
            · exact .inr (by rw [before]; rfl)
          · exact Nat.zero_le _
        exact Nat.add_le_add kept room
  | allocate obj =>
      obtain ⟨ledger, taken, rfl⟩ := Option.map_eq_some_iff.mp result
      have kept : s.ledger.refs.count (thread, o) ≤ ledger.refs.count (thread, o) := Machine.step_count taken (.inr rfl)
      simp only [LockPoint.surrenders_of_inUser owned.1]
      simpa using kept.trans (Nat.le_add_right _ _)
  | give receiver obj =>
      obtain ⟨ledger, taken, rfl⟩ := Option.map_eq_some_iff.mp result
      have fewer := Machine.give_count taken o
      simp only [LockPoint.surrenders_of_inUser owned.1]
      simpa [AuditOp.surrenders] using fewer

/-- Only a return ends a body of `-dealloc`. -/
theorem Audited.bodies_step (result : s.step layout (thread, op) = some next) :
    (s.runtime.point thread).bodies.length ≤ (next.runtime.point thread).bodies.length ∨ op = .run (some .return) ∧
      (s.runtime.point thread).bodies.length ≤ (next.runtime.point thread).bodies.length + 1 := by
  cases op with
  | run choice =>
      obtain ⟨runtime, taken, rest⟩ := Option.bind_eq_some_iff.mp result
      obtain ⟨ledger, stepped, isNext⟩ := Option.bind_eq_some_iff.mp rest
      obtain rfl := Option.some.inj isNext
      refine (runtime_surrenders taken).2.imp_right ?_
      rintro ⟨rfl, longer⟩
      exact ⟨rfl, longer⟩
  | allocate obj =>
      obtain ⟨ledger, taken, rfl⟩ := Option.map_eq_some_iff.mp result
      exact .inl le_rfl
  | give receiver obj =>
      obtain ⟨ledger, taken, rfl⟩ := Option.map_eq_some_iff.mp result
      exact .inl le_rfl

end References

section Machine

variable {Tid Obj Loc Stripe Shard : Type} [DecidableEq Tid] [DecidableEq Obj] [DecidableEq Loc] [DecidableEq Stripe]
  [DecidableEq Shard] (layout : Layout Obj Loc Stripe Shard)

def Pooled.start (rt : Runtime) : Pooled Tid Obj Loc Stripe Shard := ⟨Audited.start rt, fun _ => .empty⟩

/-- The position of a thread. -/
def Pooled.position (s : Pooled Tid Obj Loc Stripe Shard) (thread : Tid) : Position Obj Loc :=
  s.audited.runtime.point thread

/-- Whether user code of the thread can go on. During a pop that is only a body of `-dealloc` that the pop caused. -/
def Pooled.inCode (s : Pooled Tid Obj Loc Stripe Shard) (thread : Tid) : Bool :=
  (s.position thread).point.inUser &&
    (s.pools thread).pop.all fun pop => pop.outside < (s.position thread).bodies.length

/-- Whether the thread stands in the loop of a pop. -/
def Pooled.inLoop (s : Pooled Tid Obj Loc Stripe Shard) (thread : Tid) (pop : Pop Obj) : Bool :=
  (s.position thread).point.inUser && pop.outside == (s.position thread).bodies.length

def Pooled.set (s : Pooled Tid Obj Loc Stripe Shard) (thread : Tid) (pools : ThreadPools Obj) :
    Pooled Tid Obj Loc Stripe Shard := { s with pools := Function.update s.pools thread pools }

/-- One step of one thread. A second mutable borrow of the pools ends the run. -/
def Pooled.step (s : Pooled Tid Obj Loc Stripe Shard) (label : Tid × PooledOp Tid Obj Loc) :
    Option (Pooled Tid Obj Loc Stripe Shard) :=
  let (thread, op) := label
  match op with
  | .audit op =>
      if op.byUser = true → s.inCode thread = true then
        (s.audited.step layout (thread, op)).map fun audited => { s with audited }
      else none
  | .push => if s.inCode thread then (s.pools thread).push.map (s.set thread) else none
  | .autorelease obj => if s.inCode thread then ((s.pools thread).autorelease obj).map (s.set thread) else none
  | .pop token =>
      if s.inCode thread then
        ((s.pools thread).beginPop token (s.position thread).bodies.length).map (s.set thread)
      else none
  | .drain => (s.pools thread).pop.bind fun pop =>
      if s.inLoop thread pop then
        match pop.remaining with
        | [] => some (s.set thread ((s.pools thread).takePool pop))
        | obj :: rest =>
            (s.audited.step layout (thread, .run (some (.call (.release (some obj)))))).map fun audited =>
              { s with audited }.set thread ((s.pools thread).collect pop rest)
      else none

/-- A thread gives up only references that neither its pools nor its running pop hold, and it pops pools that are still
on its stack. -/
def Pooled.Owned (s : Pooled Tid Obj Loc Stripe Shard) (label : Tid × PooledOp Tid Obj Loc) : Prop :=
  match label.2 with
  | .audit op => s.audited.Owned (label.1, op) ∧ ∀ obj ∈ op.surrenders,
      (s.pools label.1).held.count obj < s.audited.ledger.refs.count (label.1, obj)
  | .autorelease obj => ∀ o ∈ obj, (s.pools label.1).held.count o < s.audited.ledger.refs.count (label.1, o)
  | .pop token => token < (s.pools label.1).stack.pools.length
  | _ => True

instance (s : Pooled Tid Obj Loc Stripe Shard) (label : Tid × PooledOp Tid Obj Loc) : Decidable (s.Owned label) :=
  match label with
  | (_, .audit _) => inferInstanceAs (Decidable (_ ∧ _))
  | (thread, .autorelease obj) => inferInstanceAs (Decidable (∀ o ∈ obj,
      (s.pools thread).held.count o < s.audited.ledger.refs.count (thread, o)))
  | (_, .pop _) => inferInstanceAs (Decidable (_ < _))
  | (_, .push) => inferInstanceAs (Decidable True)
  | (_, .drain) => inferInstanceAs (Decidable True)

/-- The invariant of the pools of one thread. -/
structure PoolsInv (pools : ThreadPools Obj) (position : Position Obj Loc) (count : Obj → Nat) : Prop where
  booked : ∀ obj, pools.held.count obj + (if position.point.surrenders = some obj then 1 else 0) ≤ count obj
  phase : ∃ lower owed, PoolPhase lower pools.stack pools.drains owed ∧ ScopedLog.ofStack lower = pools.log
  outside : ∀ pop ∈ pools.pop, pop.outside ≤ position.bodies.length

/-- The invariant of pooled runs. -/
structure PooledInv (s : Pooled Tid Obj Loc Stripe Shard) : Prop where
  audit : AuditInv layout s.audited
  pools : ∀ t, PoolsInv (s.pools t) (s.position t) fun obj => s.audited.ledger.refs.count (t, obj)

end Machine

section Pools

variable {Obj Loc : Type} [DecidableEq Obj] {pools next : ThreadPools Obj} {position : Position Obj Loc}
  {count : Obj → Nat}

omit [DecidableEq Obj] in
theorem ThreadPools.drains_eq_nil : pools.drains = [] ↔ pools.pop = none := by
  rw [drains, List.map_eq_nil_iff, Option.toList_eq_nil_iff]

omit [DecidableEq Obj] in
theorem ThreadPools.drains_of_pop {pop : Pop Obj} (isPop : pools.pop = some pop) :
    pools.drains = [(pop.target, pop.remaining)] := by
  rw [drains, isPop]
  rfl

omit [DecidableEq Obj] in
/-- Without a pop the pools are the log of the thread, and their stack can be borrowed. -/
theorem PoolPhase.idle_iff {lower : List (List Obj)} {owed : List Obj}
    (phase : PoolPhase lower pools.stack pools.drains owed) : pools.stack.borrowed = false ↔ pools.pop = none := by
  rw [← ThreadPools.drains_eq_nil]
  generalize pools.stack = stack at phase ⊢
  generalize pools.drains = drains at phase ⊢
  cases phase <;> simp

omit [DecidableEq Obj] in
/-- An autoreleased object is held by the current pool, or it is leaked. -/
theorem ThreadPools.autorelease_held (noPop : pools.pop = none) {obj : Obj}
    (added : pools.autorelease (some obj) = some next) : next.held.Perm (obj :: pools.held) := by
  obtain ⟨⟨stack, result⟩, isAdd, rfl⟩ := Option.map_eq_some_iff.mp added
  obtain ⟨rfl, rfl, _⟩ := objcAutorelease_spec isAdd
  simp only [held, noPop, PoolStack.received]
  cases isPools : pools.stack.pools with
  | nil => exact .refl _
  | cons first rest =>
      rw [flatten_modifyLast (List.cons_ne_nil first rest), Option.map_none, Option.getD_none, List.nil_append,
        List.append_assoc]
      exact List.perm_middle

omit [DecidableEq Obj] in
/-- The loop of a pop takes the last pool above its token off, or it returns. -/
theorem ThreadPools.takePool_eq {pop : Pop Obj} {lower upper : List (List Obj)}
    (isTarget : pop.target = lower.length) (isStack : pools.stack = ⟨lower ++ upper, true⟩) :
    (upper = [] ∧ pools.takePool pop = { pools with stack := ⟨lower, false⟩, pop := none }) ∨
      ∃ before pool, upper = before ++ [pool] ∧ pools.takePool pop =
        { pools with stack := ⟨lower ++ before, true⟩, pop := some { pop with remaining := pool.reverse } } := by
  rcases List.eq_nil_or_concat upper with rfl | ⟨before, pool, rfl⟩
  · exact .inl ⟨rfl, by simp [takePool, PoolStack.popPool, isTarget, isStack]⟩
  · have above : lower.length < (lower ++ before.concat pool).length := by
      simp only [List.length_append, List.length_concat]
      omega
    have taken : pools.stack.popPool pop.target = (⟨lower ++ before, true⟩, some pool.reverse) := by
      rw [PoolStack.popPool, isTarget, isStack, if_pos above]
      simp [← List.append_assoc]
    refine .inr ⟨before, pool, List.concat_eq_append, ?_⟩
    rw [takePool, taken]

omit [DecidableEq Obj] in
theorem ThreadPools.push_held (pushed : pools.push = some next) : next.held = pools.held := by
  obtain ⟨⟨stack, token⟩, isPush, rfl⟩ := Option.map_eq_some_iff.mp pushed
  obtain ⟨_, _, rfl⟩ := objcAutoreleasePoolPush_spec isPush
  simp [held]

omit [DecidableEq Obj] in
theorem ThreadPools.beginPop_held (noPop : pools.pop = none) {token outside : Nat}
    (begun : pools.beginPop token outside = some next) : next.held = pools.held := by
  obtain ⟨stack, isBegun, rfl⟩ := Option.map_eq_some_iff.mp begun
  obtain ⟨_, rfl⟩ := beginPop_spec isBegun
  simp [held, noPop]

/-- The pool that the loop takes off is still held. -/
theorem ThreadPools.takePool_held {pop : Pop Obj} {lower upper : List (List Obj)} (isPop : pools.pop = some pop)
    (taken : pop.remaining = []) (isTarget : pop.target = lower.length) (isStack : pools.stack = ⟨lower ++ upper, true⟩)
    (obj : Obj) : (pools.takePool pop).held.count obj = pools.held.count obj := by
  rcases takePool_eq isTarget isStack with ⟨rfl, isNext⟩ | ⟨before, pool, rfl, isNext⟩
  · simp [isNext, held, isPop, isStack, taken]
  · simp only [isNext, held, isPop, isStack, taken, List.flatten_append, List.flatten_singleton, List.count_append,
      Option.map_some, Option.getD_some, List.count_reverse, List.count_nil]
    omega

/-- A release of the loop gives one object up. -/
theorem ThreadPools.collect_held {pop : Pop Obj} {obj : Obj} {rest : List Obj} (isPop : pools.pop = some pop)
    (taken : pop.remaining = obj :: rest) (o : Obj) :
    (pools.collect pop rest).held.count o + (if obj = o then 1 else 0) = pools.held.count o := by
  simp only [held, collect, isPop, taken, Option.map_some, Option.getD_some, List.count_append, List.count_cons,
    beq_iff_eq]
  omega

omit [DecidableEq Obj] in
/-- A pool that the loop takes off leaves what the pop owes, and costs one step. -/
theorem PoolPhase.takePool {lower : List (List Obj)} {owed : List Obj} {pop : Pop Obj}
    (phase : PoolPhase lower pools.stack pools.drains owed) (isPop : pools.pop = some pop)
    (taken : pop.remaining = []) :
    PoolPhase lower (pools.takePool pop).stack (pools.takePool pop).drains owed ∧
      (pools.takePool pop).log = pools.log ∧
        (pools.takePool pop).stack.work lower owed + 1 = pools.stack.work lower owed := by
  rw [ThreadPools.drains_of_pop isPop, taken] at phase
  obtain ⟨_, isTarget, upper, isStack, rfl⟩ := phase.of_drains
  rcases ThreadPools.takePool_eq isTarget isStack with ⟨rfl, isNext⟩ | ⟨before, pool, rfl, isNext⟩
  · rw [isNext]
    refine ⟨.idle, rfl, ?_⟩
    simp [PoolStack.work, isStack]
  · rw [isNext]
    refine ⟨?_, rfl, ?_⟩
    · simp only [ThreadPools.drains, isTarget, List.flatten_append, List.flatten_singleton, List.reverse_append,
        List.nil_append]
      exact .draining before pool.reverse
    · simp only [PoolStack.work, isStack, List.length_append, List.length_singleton]
      omega

omit [DecidableEq Obj] in
/-- A release of the loop pays the first object that the pop owes, and costs one step. -/
theorem PoolPhase.collect {lower : List (List Obj)} {owed rest : List Obj} {pop : Pop Obj} {obj : Obj}
    (phase : PoolPhase lower pools.stack pools.drains owed) (isPop : pools.pop = some pop)
    (taken : pop.remaining = obj :: rest) : ∃ owed', owed = obj :: owed' ∧
      PoolPhase lower (pools.collect pop rest).stack (pools.collect pop rest).drains owed' ∧
        (pools.collect pop rest).stack.work lower owed' + 1 = pools.stack.work lower owed := by
  rw [ThreadPools.drains_of_pop isPop, taken] at phase
  obtain ⟨_, isTarget, upper, isStack, rfl⟩ := phase.of_drains
  refine ⟨rest ++ upper.flatten.reverse, rfl, ?_, ?_⟩
  · simp only [ThreadPools.drains, ThreadPools.collect, isTarget, isStack]
    exact .draining upper rest
  · simp only [PoolStack.work, ThreadPools.collect, List.cons_append, List.length_cons]
    omega

variable (inv : PoolsInv pools position count)

include inv

/-- The pools of a thread that has no pop running. -/
theorem PoolsInv.idle (unborrowed : pools.stack.borrowed = false) :
    pools.pop = none ∧ ScopedLog.ofStack pools.stack.pools = pools.log := by
  obtain ⟨lower, owed, phase, isLog⟩ := inv.phase
  obtain ⟨isStack, _, _⟩ := phase.of_unborrowed unborrowed
  exact ⟨phase.idle_iff.mp unborrowed, by rwa [isStack]⟩

theorem PoolsInv.push (pushed : pools.push = some next) : PoolsInv next position count := by
  have isHeld := ThreadPools.push_held pushed
  obtain ⟨⟨stack, token⟩, isPush, rfl⟩ := Option.map_eq_some_iff.mp pushed
  obtain ⟨unborrowed, _, rfl⟩ := objcAutoreleasePoolPush_spec isPush
  obtain ⟨noPop, isLog⟩ := inv.idle unborrowed
  refine ⟨fun obj => by rw [isHeld]; exact inv.booked obj, ⟨pools.stack.pools ++ [[]], [], ?_, ?_⟩, by simp [noPop]⟩
  · simp only [ThreadPools.drains, noPop, unborrowed]
    exact .idle
  · rw [ScopedLog.ofStack_opened, isLog]

theorem PoolsInv.autorelease {obj : Option Obj} (user : position.point.inUser = true)
    (spare : ∀ o ∈ obj, pools.held.count o < count o) (added : pools.autorelease obj = some next) :
    PoolsInv next position count := by
  obtain ⟨⟨stack, result⟩, isAdd, rfl⟩ := Option.map_eq_some_iff.mp added
  obtain ⟨rfl, rfl, unborrowed⟩ := objcAutorelease_spec isAdd
  cases result with
  | none =>
      refine ⟨fun obj => ?_, inv.phase, inv.outside⟩
      simpa [ThreadPools.held, PoolStack.received] using inv.booked obj
  | some o =>
      obtain ⟨noPop, isLog⟩ := inv.idle (unborrowed rfl)
      refine ⟨fun obj => ?_, ⟨pools.stack.pools.modifyLast (· ++ [o]), [], ?_, ?_⟩, by simp [noPop]⟩
      · rw [(ThreadPools.autorelease_held noPop added).count_eq, List.count_cons,
          LockPoint.surrenders_of_inUser user]
        have booked := inv.booked obj
        by_cases same : o = obj
        · have room : pools.held.count o + 1 ≤ count o := spare o rfl
          simpa [← same] using room
        · simpa [same] using (Nat.le_add_right _ _).trans booked
      · simp only [ThreadPools.drains, noPop, PoolStack.received, unborrowed rfl]
        exact .idle
      · rw [ScopedLog.ofStack_add, isLog]
        rfl

theorem PoolsInv.beginPop {token : Nat} (valid : token < pools.stack.pools.length)
    (begun : pools.beginPop token position.bodies.length = some next) : PoolsInv next position count := by
  have isHeld := fun noPop => ThreadPools.beginPop_held noPop begun
  obtain ⟨stack, isBegun, rfl⟩ := Option.map_eq_some_iff.mp begun
  obtain ⟨unborrowed, rfl⟩ := beginPop_spec isBegun
  obtain ⟨noPop, isLog⟩ := inv.idle unborrowed
  obtain ⟨lower, owed, phase, _⟩ := inv.phase
  obtain ⟨isStack, noDrains, _⟩ := phase.of_unborrowed unborrowed
  have inside : token ≤ lower.length := by
    rw [isStack] at valid
    exact valid.le
  rw [noDrains] at phase
  have parts : lower.take token ++ lower.drop token = lower := List.take_append_drop token lower
  have length : (lower.take token).length = token := by rw [List.length_take, Nat.min_eq_left inside]
  refine ⟨fun obj => by rw [isHeld noPop]; exact inv.booked obj,
    ⟨lower.take token, _, phase.begin inside isBegun, ?_⟩, ?_⟩
  · have closed := ScopedLog.ofStack_closed (lower.take token) (lower.drop token)
    rw [parts, length] at closed
    rw [← isLog, isStack, closed]
  · rintro pop ⟨⟩
    exact le_rfl

/-- What a running pop still owes stands above its token. -/
theorem PoolsInv.running {pop : Pop Obj} (isPop : pools.pop = some pop) :
    ∃ lower upper, pop.target = lower.length ∧ pools.stack = ⟨lower ++ upper, true⟩ ∧
      ScopedLog.ofStack lower = pools.log := by
  obtain ⟨lower, owed, phase, isLog⟩ := inv.phase
  rw [ThreadPools.drains_of_pop isPop] at phase
  obtain ⟨_, isTarget, upper, isStack, _⟩ := phase.of_drains
  exact ⟨lower, upper, isTarget, isStack, isLog⟩

theorem PoolsInv.takePool {pop : Pop Obj} (isPop : pools.pop = some pop) (taken : pop.remaining = []) :
    PoolsInv (pools.takePool pop) position count := by
  obtain ⟨lower, owed, phase, isLog⟩ := inv.phase
  obtain ⟨still, sameLog, _⟩ := phase.takePool isPop taken
  obtain ⟨_, upper, isTarget, isStack, _⟩ := inv.running isPop
  refine ⟨fun obj => ?_, ⟨lower, owed, still, isLog.trans sameLog.symm⟩, ?_⟩
  · rw [ThreadPools.takePool_held isPop taken isTarget isStack]
    exact inv.booked obj
  · rcases ThreadPools.takePool_eq isTarget isStack with ⟨rfl, isNext⟩ | ⟨before, pool, rfl, isNext⟩
    · simp [isNext]
    · rw [isNext]
      rintro _ ⟨⟩
      exact inv.outside pop isPop

/-- The release that collects an object takes it from what the pop holds. -/
theorem PoolsInv.collect {pop : Pop Obj} {obj : Obj} {rest : List Obj} (isPop : pools.pop = some pop)
    (taken : pop.remaining = obj :: rest) {after : Position Obj Loc} {remaining : Obj → Nat}
    (user : position.point.inUser = true) (kept : ∀ o, count o + (if after.point.surrenders = some o then 1 else 0) ≤
      remaining o + if some obj = some o ∨ position.point.surrenders = some o then 1 else 0)
    (longer : position.bodies.length ≤ after.bodies.length) :
    PoolsInv (pools.collect pop rest) after remaining := by
  obtain ⟨lower, owed, phase, isLog⟩ := inv.phase
  obtain ⟨owed', _, still, _⟩ := phase.collect isPop taken
  refine ⟨fun o => ?_, ⟨lower, owed', still, isLog⟩, ?_⟩
  · have booked := inv.booked o
    have kept := kept o
    have paid := ThreadPools.collect_held isPop taken o
    simp only [LockPoint.surrenders_of_inUser user, Option.some.injEq, reduceCtorEq, or_false, if_false] at booked kept
    omega
  · rintro _ ⟨⟩
    exact (inv.outside pop isPop).trans longer

end Pools

section Runs

variable {Tid Obj Loc Stripe Shard : Type} [DecidableEq Tid] [DecidableEq Obj] [DecidableEq Loc] [DecidableEq Stripe]
  [DecidableEq Shard] {layout : Layout Obj Loc Stripe Shard} {s next : Pooled Tid Obj Loc Stripe Shard} {thread : Tid}
  {pop : Pop Obj}

omit [DecidableEq Tid] [DecidableEq Obj] [DecidableEq Loc] [DecidableEq Stripe] [DecidableEq Shard] in
theorem Pooled.inCode_iff : s.inCode thread = true ↔ (s.position thread).point.inUser = true ∧
    ∀ pop ∈ (s.pools thread).pop, pop.outside < (s.position thread).bodies.length := by
  rw [Pooled.inCode, Bool.and_eq_true, Option.all_eq_true]
  simp only [decide_eq_true_eq, Option.mem_def]

omit [DecidableEq Tid] [DecidableEq Obj] [DecidableEq Loc] [DecidableEq Stripe] [DecidableEq Shard] in
theorem Pooled.inLoop_iff : s.inLoop thread pop = true ↔ (s.position thread).point.inUser = true ∧
    pop.outside = (s.position thread).bodies.length := by
  rw [Pooled.inLoop, Bool.and_eq_true, beq_iff_eq]

/-- A step of the loop of a pop takes a pool off or releases an object of it. -/
theorem Pooled.drain_eq (isPop : (s.pools thread).pop = some pop) (loop : s.inLoop thread pop = true) :
    s.step layout (thread, .drain) = match pop.remaining with
      | [] => some (s.set thread ((s.pools thread).takePool pop))
      | obj :: rest => (s.audited.step layout (thread, .run (some (.call (.release (some obj)))))).map fun audited =>
          { s with audited }.set thread ((s.pools thread).collect pop rest) := by
  simp only [Pooled.step, isPop, Option.bind_some, loop, if_true]

theorem Pooled.inLoop_of_drain (isPop : (s.pools thread).pop = some pop)
    (result : s.step layout (thread, .drain) = some next) : s.inLoop thread pop = true := by
  simp only [Pooled.step, isPop, Option.bind_some] at result
  exact (Option.ite_none_right_eq_some.mp result).1

omit [DecidableEq Obj] [DecidableEq Loc] [DecidableEq Stripe] [DecidableEq Shard] in
theorem Pooled.set_pools_self (pools : ThreadPools Obj) : (s.set thread pools).pools thread = pools :=
  Function.update_self ..

omit [DecidableEq Obj] [DecidableEq Loc] [DecidableEq Stripe] [DecidableEq Shard] in
theorem Pooled.set_pools_of_ne {other : Tid} (different : other ≠ thread) (pools : ThreadPools Obj) :
    (s.set thread pools).pools other = s.pools other := Function.update_of_ne different ..

omit [DecidableEq Loc] in
theorem PooledInv.start (rt : Runtime) :
    PooledInv layout (Pooled.start rt : Pooled Tid Obj Loc Stripe Shard) where
  audit := .start layout rt
  pools t :=
    { booked := fun obj => Nat.zero_le _
      phase := ⟨[], [], .idle, rfl⟩
      outside := by simp [Pooled.start, ThreadPools.empty] }

omit [DecidableEq Loc] in
/-- A thread owns what its running pop is about to release. -/
theorem PooledInv.owned_remaining (inv : PooledInv layout s) (isPop : (s.pools thread).pop = some pop) {obj : Obj}
    (member : obj ∈ pop.remaining) : (thread, obj) ∈ s.audited.ledger.refs := by
  have isHeld : obj ∈ (s.pools thread).held := by simp [ThreadPools.held, isPop, member]
  have positive := List.count_pos_iff.mpr isHeld
  have booked := (inv.pools thread).booked obj
  exact List.count_pos_iff.mp (by omega)

omit [DecidableEq Loc] in
/-- A call of a pool function changes the pools of its thread. -/
theorem PooledInv.set (inv : PooledInv layout s) {pools : ThreadPools Obj}
    (kept : PoolsInv pools (s.position thread) fun obj => s.audited.ledger.refs.count (thread, obj)) :
    PooledInv layout (s.set thread pools) where
  audit := inv.audit
  pools t := by
    by_cases isThread : t = thread
    · subst isThread
      rwa [Pooled.set_pools_self]
    · rw [Pooled.set_pools_of_ne isThread]
      exact inv.pools t

/-- A step of the program keeps the pools of the other threads. -/
theorem PooledInv.audit_step (inv : PooledInv layout s) {op : AuditOp Tid Obj Loc}
    (owned : s.audited.Owned (thread, op)) {audited : Audited Tid Obj Loc Stripe Shard}
    (taken : s.audited.step layout (thread, op) = some audited) {pools : ThreadPools Obj}
    (kept : PoolsInv pools (audited.runtime.point thread) fun obj => audited.ledger.refs.count (thread, obj)) :
    PooledInv layout ({ s with audited }.set thread pools) where
  audit := inv.audit.step owned taken
  pools t := by
    by_cases isThread : t = thread
    · subst isThread
      rwa [Pooled.set_pools_self]
    · rw [Pooled.set_pools_of_ne isThread]
      obtain ⟨stays, more⟩ := Audited.step_other taken isThread
      have before := inv.pools t
      refine ⟨fun obj => ?_, before.phase, ?_⟩
      · show (s.pools t).held.count obj + (if (audited.runtime.point t).point.surrenders = some obj then 1 else 0) ≤ _
        rw [stays]
        exact (before.booked obj).trans (more obj)
      · show ∀ pop ∈ (s.pools t).pop, pop.outside ≤ (audited.runtime.point t).bodies.length
        rw [stays]
        exact before.outside

/-- A step of the thread outside of its pools. -/
theorem PooledInv.own_step (inv : PooledInv layout s) {op : AuditOp Tid Obj Loc} (owned : s.Owned (thread, .audit op))
    (code : op.byUser = true → s.inCode thread = true) {audited : Audited Tid Obj Loc Stripe Shard}
    (taken : s.audited.step layout (thread, op) = some audited) :
    PoolsInv (s.pools thread) (audited.runtime.point thread) fun obj => audited.ledger.refs.count (thread, obj) := by
  have before := inv.pools thread
  refine ⟨fun obj => ?_, before.phase, fun pop isPop => ?_⟩
  · have room : (s.pools thread).held.count obj + (if op.surrenders = some obj ∨
        (s.position thread).point.surrenders = some obj then 1 else 0) ≤
          s.audited.ledger.refs.count (thread, obj) := by
      have booked := before.booked obj
      split
      · rename_i either
        rcases either with surrenders | begun
        · exact owned.2 obj surrenders
        · rwa [if_pos begun] at booked
      · exact (Nat.le_add_right _ _).trans booked
    have moved : s.audited.ledger.refs.count (thread, obj) + (if
        (audited.runtime.point thread).point.surrenders = some obj then 1 else 0) ≤
          audited.ledger.refs.count (thread, obj) + if op.surrenders = some obj ∨
            (s.position thread).point.surrenders = some obj then 1 else 0 :=
      Audited.surrenders_step owned.1 taken obj
    omega
  · have outside := before.outside pop isPop
    rcases Audited.bodies_step taken with longer | ⟨rfl, shorter⟩
    · exact outside.trans longer
    · have inside := (Pooled.inCode_iff.mp (code rfl)).2 pop isPop
      simp only [Pooled.position] at inside
      omega

theorem PooledInv.step (inv : PooledInv layout s) {op : PooledOp Tid Obj Loc} (owned : s.Owned (thread, op))
    (result : s.step layout (thread, op) = some next) : PooledInv layout next := by
  cases op with
  | audit op =>
      obtain ⟨code, result⟩ := Option.ite_none_right_eq_some.mp result
      obtain ⟨audited, taken, rfl⟩ := Option.map_eq_some_iff.mp result
      have kept := inv.audit_step owned.1 taken (inv.own_step owned code taken)
      rwa [Pooled.set, Function.update_eq_self] at kept
  | push =>
      obtain ⟨code, result⟩ := Option.ite_none_right_eq_some.mp result
      obtain ⟨pools, pushed, rfl⟩ := Option.map_eq_some_iff.mp result
      exact inv.set ((inv.pools thread).push pushed)
  | autorelease obj =>
      obtain ⟨code, result⟩ := Option.ite_none_right_eq_some.mp result
      obtain ⟨pools, added, rfl⟩ := Option.map_eq_some_iff.mp result
      exact inv.set ((inv.pools thread).autorelease (Pooled.inCode_iff.mp code).1 owned added)
  | pop token =>
      obtain ⟨code, result⟩ := Option.ite_none_right_eq_some.mp result
      obtain ⟨pools, begun, rfl⟩ := Option.map_eq_some_iff.mp result
      exact inv.set ((inv.pools thread).beginPop owned begun)
  | drain =>
      obtain ⟨pop, isPop, result⟩ := Option.bind_eq_some_iff.mp result
      obtain ⟨loop, result⟩ := Option.ite_none_right_eq_some.mp result
      obtain ⟨user, _⟩ := Pooled.inLoop_iff.mp loop
      cases remaining : pop.remaining with
      | nil =>
          rw [remaining] at result
          obtain rfl := Option.some.inj result
          exact inv.set ((inv.pools thread).takePool isPop remaining)
      | cons obj rest =>
          rw [remaining] at result
          obtain ⟨audited, taken, rfl⟩ := Option.map_eq_some_iff.mp result
          have owns : s.audited.Owned (thread, .run (some (.call (.release (some obj))))) := by
            rintro _ ⟨⟩
            exact inv.owned_remaining isPop (by simp [remaining])
          refine inv.audit_step owns taken ((inv.pools thread).collect isPop remaining user
            (Audited.surrenders_step owns taken) ?_)
          exact (Audited.bodies_step taken).resolve_right fun isReturn => by simp at isReturn

end Runs

end O3jc
