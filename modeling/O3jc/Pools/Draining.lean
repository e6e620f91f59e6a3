import O3jc.Library.ScopedLog
import O3jc.Pools.Calls

/-
This file proves what `objc_autorelease_pool_pop` does while the bodies of `-dealloc` that it causes leave the pools
alone, and that every other use of the pools during a pop panics.
-/

namespace O3jc

open Library

section Specs

variable {Obj Loc : Type} {stack stack' : PoolStack Obj}

theorem borrowMut_eq_some_iff {pools : List (List Obj)} :
    stack.borrowMut = some pools ↔ stack.borrowed = false ∧ stack.pools = pools := by
  rw [PoolStack.borrowMut]
  cases stack.borrowed <;> simp

theorem objcAutoreleasePoolPush_eq_none_iff : objcAutoreleasePoolPush stack = none ↔ stack.borrowed = true := by
  cases borrowed : stack.borrowed <;> simp [objcAutoreleasePoolPush, PoolStack.borrowMut, borrowed]

theorem beginPop_eq_none_iff : stack.beginPop = none ↔ stack.borrowed = true := by
  cases borrowed : stack.borrowed <;> simp [PoolStack.beginPop, PoolStack.borrowMut, borrowed]

theorem objcAutoreleasePoolPush_spec {token : Nat} (pushed : objcAutoreleasePoolPush stack = some (stack', token)) :
    stack.borrowed = false ∧ token = stack.pools.length ∧ stack' = { stack with pools := stack.pools ++ [[]] } := by
  obtain ⟨pools, borrow, rest⟩ := Option.bind_eq_some_iff.mp pushed
  obtain ⟨unborrowed, rfl⟩ := borrowMut_eq_some_iff.mp borrow
  obtain ⟨rfl, rfl⟩ := Prod.mk.inj (Option.some.inj rest)
  exact ⟨unborrowed, rfl, rfl⟩

theorem beginPop_spec (begun : stack.beginPop = some stack') :
    stack.borrowed = false ∧ stack' = { stack with borrowed := true } := by
  obtain ⟨pools, borrow, rfl⟩ := Option.map_eq_some_iff.mp begun
  obtain ⟨unborrowed, rfl⟩ := borrowMut_eq_some_iff.mp borrow
  exact ⟨unborrowed, rfl⟩

/-- The stack after the object, if any, went to the current pool. -/
def PoolStack.received (stack : PoolStack Obj) (obj : Option Obj) : PoolStack Obj :=
  match obj with
  | none => stack
  | some obj => { stack with pools := stack.pools.modifyLast (· ++ [obj]) }

theorem objcAutorelease_spec {obj result : Option Obj} (added : objcAutorelease stack obj = some (stack', result)) :
    result = obj ∧ stack' = stack.received obj ∧ (obj.isSome = true → stack.borrowed = false) := by
  cases obj with
  | none =>
      obtain ⟨rfl, rfl⟩ := Prod.mk.inj (Option.some.inj added)
      exact ⟨rfl, rfl, by simp⟩
  | some obj =>
      obtain ⟨pools, borrow, rest⟩ := Option.bind_eq_some_iff.mp added
      obtain ⟨unborrowed, rfl⟩ := borrowMut_eq_some_iff.mp borrow
      obtain ⟨rfl, rfl⟩ := Prod.mk.inj (Option.some.inj rest)
      exact ⟨rfl, rfl, fun _ => unborrowed⟩

theorem objcAutorelease_eq_none_iff {obj : Option Obj} :
    objcAutorelease stack obj = none ↔ stack.borrowed = true ∧ obj.isSome = true := by
  cases obj with
  | none => simp [objcAutorelease]
  | some obj => cases borrowed : stack.borrowed <;> simp [objcAutorelease, PoolStack.borrowMut, borrowed]

variable [DecidableEq Obj] {mem mem' : Memory Obj Loc} {loc : Loc}

theorem objcLoadWeak_eq : objcLoadWeak stack mem loc =
    (objcAutorelease stack (objcLoadWeakRetained mem loc).2).map fun (stack, obj) =>
      (stack, (objcLoadWeakRetained mem loc).1, obj) := by
  rw [objcLoadWeak]
  generalize objcLoadWeakRetained mem loc = load
  obtain ⟨after, obj⟩ := load
  dsimp only
  cases objcAutorelease stack obj <;> rfl

theorem objcLoadWeak_spec {result : Option Obj} (loaded : objcLoadWeak stack mem loc = some (stack', mem', result)) :
    (mem', result) = objcLoadWeakRetained mem loc ∧ stack' = stack.received result ∧
      (result.isSome = true → stack.borrowed = false) := by
  rw [objcLoadWeak_eq] at loaded
  generalize objcLoadWeakRetained mem loc = load at loaded ⊢
  obtain ⟨⟨stack'', obj⟩, added, same⟩ := Option.map_eq_some_iff.mp loaded
  obtain ⟨rfl, rfl, rfl⟩ : stack'' = stack' ∧ load.1 = mem' ∧ obj = result := by simpa using same
  obtain ⟨rfl, rfl, unborrowed⟩ := objcAutorelease_spec added
  exact ⟨rfl, rfl, unborrowed⟩

theorem objcLoadWeak_eq_none_iff : objcLoadWeak stack mem loc = none ↔
    stack.borrowed = true ∧ (objcLoadWeakRetained mem loc).2.isSome = true := by
  rw [← objcAutorelease_eq_none_iff, objcLoadWeak_eq, Option.map_eq_none_iff]

end Specs

/-- The pop that a frame belongs to and what is left of its current pool. -/
def Frame.draining {Obj : Type} : Frame Obj → Option (Nat × List Obj)
  | .drain target remaining => some (target, remaining)
  | _ => none

def PoolAnswer.collected {Obj : Type} : PoolAnswer Obj → Option Obj
  | .released obj => some obj
  | _ => none

section Phases

variable {Obj Loc : Type}

/-- The pops that have not returned. -/
def PoolMachine.drains (m : PoolMachine Obj Loc) : List (Nat × List Obj) := m.frames.filterMap Frame.draining

/-- Without a pop the pools stand as they are. A pop leaves the lower pools alone and owes what is left of the pool that
it took off last and all pools above the lower ones, from the end. -/
inductive PoolPhase (lower : List (List Obj)) : PoolStack Obj → List (Nat × List Obj) → List Obj → Prop
  | idle : PoolPhase lower ⟨lower, false⟩ [] []
  | draining (upper : List (List Obj)) (remaining : List Obj) :
      PoolPhase lower ⟨lower ++ upper, true⟩ [(lower.length, remaining)] (remaining ++ upper.flatten.reverse)

/-- The number of steps of its own that a pop has left. -/
def PoolStack.work (stack : PoolStack Obj) (lower : List (List Obj)) (owed : List Obj) : Nat :=
  owed.length + (stack.pools.length - lower.length) + stack.borrowed.toNat

def PoolOp.steps : PoolOp Obj Loc → Nat
  | .next => 1
  | _ => 0

/-- The number of steps of pops among the calls. -/
def ownSteps : List (PoolOp Obj Loc × PoolAnswer Obj) → Nat
  | [] => 0
  | (op, _) :: rest => op.steps + ownSteps rest

/-- The calls of the thread as a log of the autoreleases that no pop has collected, in the order in which they were
made. -/
def observeLog (log : ScopedLog Obj) (call : PoolOp Obj Loc × PoolAnswer Obj) : ScopedLog Obj :=
  match call with
  | (.push, .token _) => log.opened
  | (.autorelease _, .id (some obj)) => log.add obj
  | (.loadWeak _, .id (some obj)) => log.add obj
  | (.pop token, .done) => log.closed token
  | _ => log

variable [DecidableEq Obj] [DecidableEq Loc] (m : PoolMachine Obj Loc) (op : PoolOp Obj Loc)

/-- The call takes a mutable borrow of the pools. -/
def PoolMachine.Borrows : Prop :=
  match op with
  | .push => True
  | .pop _ => True
  | .autorelease obj => obj.isSome = true
  | .loadWeak loc => (objcLoadWeakRetained m.toMemory loc).2.isSome = true
  | _ => False

/-- A pop gets the token of a pool that is still on the stack. -/
def PoolMachine.ValidToken : Prop :=
  match op with
  | .pop token => token < m.stack.pools.length
  | _ => True

/-- No call uses the pools while a pop runs. -/
def PoolMachine.PoolsApart : Prop := m.stack.borrowed = true → ¬ m.Borrows op

variable {m op} {next : PoolMachine Obj Loc} {answer : PoolAnswer Obj}

omit [DecidableEq Loc] in
theorem PoolMachine.beginRelease_kept (obj : Obj) [DecidableEq Loc] :
    (m.beginRelease obj).stack = m.stack ∧ (m.beginRelease obj).panicked = m.panicked ∧
      (m.beginRelease obj).refs = m.refs ∧ (m.beginRelease obj).drains = m.drains := by
  unfold PoolMachine.beginRelease
  split
  · exact ⟨rfl, rfl, rfl, rfl⟩
  · exact ⟨rfl, rfl, rfl, rfl⟩

/-- A call panics exactly when it uses the pools while a pop runs. -/
theorem PoolMachine.panics_iff (result : m.step op = some (next, answer)) :
    next.panicked = true ↔ m.stack.borrowed = true ∧ m.Borrows op := by
  obtain ⟨running, effect⟩ := PoolMachine.step_effect result
  cases effect with
  | release => simp [PoolMachine.beginRelease_kept, running, PoolMachine.Borrows]
  | drain top => simp [PoolMachine.beginRelease_kept, running, PoolMachine.Borrows]
  | loadWeak loaded =>
      obtain ⟨same, _, unborrowed⟩ := objcLoadWeak_spec loaded
      simp only [running, PoolMachine.Borrows, ← same, Bool.false_eq_true, false_iff, not_and]
      intro borrowed present
      rw [unborrowed present] at borrowed
      contradiction
  | autorelease added =>
      obtain ⟨rfl, _, unborrowed⟩ := objcAutorelease_spec added
      simp only [running, PoolMachine.Borrows, Bool.false_eq_true, false_iff, not_and]
      intro borrowed present
      rw [unborrowed present] at borrowed
      contradiction
  | push pushed => simp [running, (objcAutoreleasePoolPush_spec pushed).1]
  | pop begun => simp [running, (beginPop_spec begun).1]
  | loadWeakPanics borrowed => simpa [PoolMachine.Borrows] using objcLoadWeak_eq_none_iff.mp borrowed
  | autoreleasePanics borrowed => simpa [PoolMachine.Borrows] using objcAutorelease_eq_none_iff.mp borrowed
  | pushPanics borrowed =>
      simp [objcAutoreleasePoolPush_eq_none_iff.mp borrowed, PoolMachine.Borrows]
  | popPanics borrowed =>
      simp [beginPop_eq_none_iff.mp borrowed, PoolMachine.Borrows]
  | _ => simp [running, PoolMachine.Borrows, PoolMachine.finishRelease]

omit [DecidableEq Obj] in
theorem PoolPhase.of_unborrowed {lower : List (List Obj)} {stack : PoolStack Obj} {drains : List (Nat × List Obj)}
    {owed : List Obj} (phase : PoolPhase lower stack drains owed) (unborrowed : stack.borrowed = false) :
    stack = ⟨lower, false⟩ ∧ drains = [] ∧ owed = [] := by
  cases phase with
  | idle => exact ⟨rfl, rfl, rfl⟩
  | draining upper remaining => contradiction

omit [DecidableEq Obj] in
theorem PoolPhase.of_drains {lower : List (List Obj)} {stack : PoolStack Obj} {target : Nat} {remaining : List Obj}
    {drains : List (Nat × List Obj)} {owed : List Obj}
    (phase : PoolPhase lower stack ((target, remaining) :: drains) owed) :
    drains = [] ∧ target = lower.length ∧ ∃ upper, stack = ⟨lower ++ upper, true⟩ ∧
      owed = remaining ++ upper.flatten.reverse := by
  cases phase with
  | draining upper => exact ⟨rfl, rfl, upper, rfl, rfl⟩

omit [DecidableEq Obj] [DecidableEq Loc] in
theorem PoolMachine.drains_of_drain {target : Nat} {remaining : List Obj} {frames : List (Frame Obj)}
    (top : m.frames = .drain target remaining :: frames) :
    m.drains = (target, remaining) :: frames.filterMap Frame.draining := by
  rw [PoolMachine.drains, top]
  rfl

omit [DecidableEq Obj] [DecidableEq Loc] in
theorem PoolMachine.drains_of_other {frame : Frame Obj} {frames : List (Frame Obj)} (top : m.frames = frame :: frames)
    (other : frame.draining = none) : m.drains = frames.filterMap Frame.draining := by
  rw [PoolMachine.drains, top, List.filterMap_cons_none other]

omit [DecidableEq Obj] in
/-- An object goes to the current pool only while no pop runs. -/
theorem PoolPhase.receive {lower : List (List Obj)} {stack : PoolStack Obj} {drains : List (Nat × List Obj)}
    {owed : List Obj} (phase : PoolPhase lower stack drains owed) (unborrowed : stack.borrowed = false) (obj : Obj) :
    PoolPhase (lower.modifyLast (· ++ [obj])) (stack.received (some obj)) drains [] := by
  obtain ⟨rfl, rfl, _⟩ := phase.of_unborrowed unborrowed
  exact .idle

omit [DecidableEq Obj] in
/-- A pop that begins owes the whole upper part of the pools. -/
theorem PoolPhase.begin {lower : List (List Obj)} {stack stack' : PoolStack Obj} {drains : List (Nat × List Obj)}
    {token : Nat} {owed : List Obj} (phase : PoolPhase lower stack drains owed) (valid : token ≤ lower.length)
    (begun : stack.beginPop = some stack') :
    PoolPhase (lower.take token) stack' ((token, []) :: drains) (lower.drop token).flatten.reverse := by
  obtain ⟨unborrowed, rfl⟩ := beginPop_spec begun
  obtain ⟨rfl, rfl, _⟩ := phase.of_unborrowed unborrowed
  have parts := @PoolPhase.draining Obj (lower.take token) (lower.drop token) []
  rwa [List.take_append_drop, List.nil_append, List.length_take, Nat.min_eq_left valid] at parts

/-- One step of the thread that keeps the pools apart from a running pop. -/
theorem PoolPhase.step {lower : List (List Obj)} {owed : List Obj} (phase : PoolPhase lower m.stack m.drains owed)
    (valid : m.ValidToken op) (apart : m.PoolsApart op) (result : m.step op = some (next, answer)) :
    ∃ lower' owed', PoolPhase lower' next.stack next.drains owed' ∧
      ScopedLog.ofStack lower' = observeLog (ScopedLog.ofStack lower) (op, answer) ∧
      (m.stack.borrowed = true → lower' = lower ∧ owed = answer.collected.toList ++ owed' ∧
        next.stack.work lower' owed' + op.steps = m.stack.work lower owed) := by
  have safe : next.panicked ≠ true := fun panicked =>
    apart ((PoolMachine.panics_iff result).mp panicked).1 ((PoolMachine.panics_iff result).mp panicked).2
  obtain ⟨running, effect⟩ := PoolMachine.step_effect result
  clear result
  have same : next.stack = m.stack → next.drains = m.drains → answer.collected = none → op.steps = 0 →
      (∀ log, observeLog log (op, answer) = log) → ∃ lower' owed', PoolPhase lower' next.stack next.drains owed' ∧
      ScopedLog.ofStack lower' = observeLog (ScopedLog.ofStack lower) (op, answer) ∧
      (m.stack.borrowed = true → lower' = lower ∧ owed = answer.collected.toList ++ owed' ∧
        next.stack.work lower' owed' + op.steps = m.stack.work lower owed) := by
    intro sameStack sameDrains silent noStep unlogged
    refine ⟨lower, owed, by rwa [sameStack, sameDrains], (unlogged _).symm, fun _ => ⟨rfl, ?_, ?_⟩⟩
    · rw [silent]
      rfl
    · rw [sameStack, noStep, Nat.add_zero]
  cases effect with
  | allocate | retain | releaseNull | initWeak | storeWeak | loadWeakRetained | destroyWeak =>
      exact same rfl rfl rfl rfl fun _ => rfl
  | release =>
      exact same (PoolMachine.beginRelease_kept _).1 (PoolMachine.beginRelease_kept _).2.2.2 rfl rfl fun _ => rfl
  | @loadWeak loc stack mem result loaded =>
      obtain ⟨_, rfl, unborrowed⟩ := objcLoadWeak_spec loaded
      cases result with
      | none => exact same rfl rfl rfl rfl fun _ => rfl
      | some obj =>
          refine ⟨_, [], phase.receive (unborrowed rfl) obj, ScopedLog.ofStack_add lower obj, fun borrowed => ?_⟩
          rw [unborrowed rfl] at borrowed
          contradiction
  | @autorelease obj result stack added =>
      obtain ⟨rfl, rfl, unborrowed⟩ := objcAutorelease_spec added
      cases result with
      | none => exact same rfl rfl rfl rfl fun _ => rfl
      | some obj =>
          refine ⟨_, [], phase.receive (unborrowed rfl) obj, ScopedLog.ofStack_add lower obj, fun borrowed => ?_⟩
          rw [unborrowed rfl] at borrowed
          contradiction
  | push pushed =>
      obtain ⟨unborrowed, _, rfl⟩ := objcAutoreleasePoolPush_spec pushed
      obtain ⟨isStack, noDrains, _⟩ := phase.of_unborrowed unborrowed
      refine ⟨lower ++ [[]], [], ?_, ScopedLog.ofStack_opened lower, fun borrowed => ?_⟩
      · show PoolPhase _ { m.stack with pools := m.stack.pools ++ [[]] } m.drains []
        rw [noDrains, isStack]
        exact .idle
      · rw [unborrowed] at borrowed
        contradiction
  | @pop token stack begun =>
      have unborrowed := (beginPop_spec begun).1
      obtain ⟨isStack, _, _⟩ := phase.of_unborrowed unborrowed
      have inside : token ≤ lower.length := by
        have isPool : token < m.stack.pools.length := valid
        rw [isStack] at isPool
        exact Nat.le_of_lt isPool
      refine ⟨lower.take token, _, phase.begin inside begun, ?_, fun borrowed => ?_⟩
      · have closed := ScopedLog.ofStack_closed (lower.take token) (lower.drop token)
        rw [List.take_append_drop, List.length_take, Nat.min_eq_left inside] at closed
        exact closed.symm
      · rw [unborrowed] at borrowed
        contradiction
  | loadWeakPanics | autoreleasePanics | pushPanics | popPanics => exact absurd rfl safe
  | @drain target obj rest frames top =>
      rw [PoolMachine.drains_of_drain top] at phase
      obtain ⟨noDrains, rfl, upper, isStack, rfl⟩ := phase.of_drains
      obtain ⟨sameStack, _, _, sameDrains⟩ := PoolMachine.beginRelease_kept (m := { m with
        frames := .drain lower.length rest :: frames
        refs := m.refs.erase (.pool, obj) }) obj
      refine ⟨lower, rest ++ upper.flatten.reverse, ?_, rfl, fun _ => ⟨rfl, rfl, ?_⟩⟩
      · rw [sameStack, sameDrains, PoolMachine.drains_of_drain rfl, noDrains, isStack]
        exact .draining upper rest
      · rw [sameStack]
        simp only [PoolStack.work, PoolOp.steps, List.cons_append, List.length_cons]
        omega
  | @take target remaining frames stack top taken =>
      rw [PoolMachine.drains_of_drain top] at phase
      obtain ⟨noDrains, rfl, upper, isStack, rfl⟩ := phase.of_drains
      rw [isStack, PoolStack.popPool, List.length_append] at taken
      dsimp only at taken
      rcases List.eq_nil_or_concat upper with rfl | ⟨before, pool, rfl⟩
      · simp at taken
      · rw [List.concat_eq_append] at *
        obtain ⟨rfl, rfl⟩ : stack = ⟨lower ++ before, true⟩ ∧ remaining = pool.reverse := by
          simpa [eq_comm, ← List.append_assoc] using taken
        refine ⟨lower, pool.reverse ++ before.flatten.reverse, ?_, rfl, fun _ => ⟨rfl, ?_, ?_⟩⟩
        · rw [PoolMachine.drains_of_drain rfl, noDrains]
          exact .draining before pool.reverse
        · simp [PoolAnswer.collected]
        · simp only [PoolStack.work, PoolOp.steps, isStack, List.flatten_concat, List.reverse_append, List.nil_append,
            List.length_append, List.length_singleton]
          omega
  | @finish target frames stack top ended =>
      rw [PoolMachine.drains_of_drain top] at phase
      obtain ⟨noDrains, rfl, upper, isStack, rfl⟩ := phase.of_drains
      rw [isStack, PoolStack.popPool, List.length_append] at ended
      dsimp only at ended
      rcases List.eq_nil_or_concat upper with rfl | ⟨before, pool, rfl⟩
      · obtain rfl : stack = ⟨lower, false⟩ := by simpa [eq_comm] using ended
        refine ⟨lower, [], ?_, rfl, fun _ => ⟨rfl, rfl, ?_⟩⟩
        · show PoolPhase lower _ (frames.filterMap Frame.draining) []
          rw [noDrains]
          exact .idle
        · rw [isStack]
          simp [PoolStack.work, PoolOp.steps]
      · simp at ended
  | sendFound top | sendMissing top | returnDealloc top =>
      exact same rfl (PoolMachine.drains_of_other top rfl).symm rfl rfl fun _ => rfl

/-- The calls made while a pop runs collect what it owes, from the end of the last pool on, and use up its work. -/
theorem PoolPhase.run {permitted : PoolMachine Obj Loc → PoolOp Obj Loc → Prop}
    (stronger : ∀ lower state owed op, PoolPhase lower state.stack state.drains owed → permitted state op →
      state.ValidToken op ∧ state.PoolsApart op)
    {lower : List (List Obj)} {owed : List Obj} (phase : PoolPhase lower m.stack m.drains owed)
    {during : List (PoolOp Obj Loc × PoolAnswer Obj)} {last : PoolMachine Obj Loc}
    (run : Traced PoolMachine.step (fun state op => permitted state op ∧ state.stack.borrowed = true) m during last) :
    ∃ owed', PoolPhase lower last.stack last.drains owed' ∧
      owed = (during.filterMap fun call => call.2.collected) ++ owed' ∧
      last.stack.work lower owed' + ownSteps during = m.stack.work lower owed := by
  induction run generalizing owed with
  | nil => exact ⟨owed, phase, rfl, rfl⟩
  | @cons state middle last op answer rest allowed result later ih =>
      obtain ⟨valid, apart⟩ := stronger _ _ _ _ phase allowed.1
      obtain ⟨lower', owed', still, _, paid⟩ := phase.step valid apart result
      obtain ⟨rfl, rfl, spent⟩ := paid allowed.2
      obtain ⟨owed'', ended, rfl, worked⟩ := ih still
      refine ⟨owed'', ended, ?_, ?_⟩
      · rw [List.filterMap_cons, ← List.append_assoc]
        cases answer.collected <;> rfl
      · rw [ownSteps, ← spent, ← worked]
        omega

/-- The thread goes on by itself, without a call of user code. -/
def PoolOp.Internal : PoolOp Obj Loc → Prop
  | .next => True
  | .sendDealloc _ => True
  | .returnDealloc => True
  | _ => False

/-- The steps that a deallocation takes when its body returns at once. -/
def Frame.weight : Frame Obj → Nat
  | .sending _ => 2
  | .body _ => 1
  | .drain _ _ => 0

def Frame.weights : List (Frame Obj) → Nat
  | [] => 0
  | frame :: frames => frame.weight + Frame.weights frames

def PoolMachine.weight (m : PoolMachine Obj Loc) : Nat := Frame.weights m.frames

theorem PoolMachine.beginRelease_weight (obj : Obj) : (m.beginRelease obj).weight ≤ m.weight + 2 := by
  unfold PoolMachine.beginRelease
  split
  · exact Nat.le_add_right m.weight 2
  · show 2 + m.weight ≤ m.weight + 2
    omega

/-- A thread that is inside a call goes on. -/
theorem PoolMachine.exists_internal (running : m.panicked = false) (inside : m.frames ≠ []) :
    ∃ op next answer, op.Internal ∧ m.step op = some (next, answer) ∧ next.weight < m.weight + 3 * op.steps := by
  cases top : m.frames with
  | nil => contradiction
  | cons frame frames =>
      have weight : m.weight = frame.weight + Frame.weights frames := by
        rw [PoolMachine.weight, top]
        rfl
      cases frame with
      | sending obj =>
          refine ⟨.sendDealloc true, { m with frames := .body obj :: frames }, .done, trivial, ?_, ?_⟩
          · simp [PoolMachine.step, running, top]
          · rw [weight]
            simp [PoolMachine.weight, Frame.weights, Frame.weight, PoolOp.steps]
      | body obj =>
          refine ⟨.returnDealloc, m.finishRelease obj frames, .done, trivial, ?_, ?_⟩
          · simp [PoolMachine.step, running, top]
          · rw [weight]
            simp [PoolMachine.weight, PoolMachine.finishRelease, Frame.weight, PoolOp.steps]
      | drain target remaining =>
          cases remaining with
          | nil =>
              cases popped : m.stack.popPool target with
              | mk stack pool =>
                  cases pool with
                  | none =>
                      refine ⟨.next, { m with stack, frames }, .done, trivial, ?_, ?_⟩
                      · simp [PoolMachine.step, running, top, popped]
                      · rw [weight]
                        simp only [PoolMachine.weight, Frame.weight, PoolOp.steps]
                        omega
                  | some remaining =>
                      refine ⟨.next, { m with stack, frames := .drain target remaining :: frames }, .done, trivial,
                        ?_, ?_⟩
                      · simp [PoolMachine.step, running, top, popped]
                      · rw [weight]
                        simp only [PoolMachine.weight, Frame.weights, Frame.weight, PoolOp.steps]
                        omega
          | cons obj rest =>
              refine ⟨.next, { m with
                frames := .drain target rest :: frames
                refs := m.refs.erase (.pool, obj) }.beginRelease obj, .released obj, trivial, ?_, ?_⟩
              · simp [PoolMachine.step, running, top]
              · have heavier := PoolMachine.beginRelease_weight (m := { m with
                  frames := .drain target rest :: frames
                  refs := m.refs.erase (.pool, obj) }) obj
                have same : ({ m with
                    frames := .drain target rest :: frames
                    refs := m.refs.erase (.pool, obj) } : PoolMachine Obj Loc).weight = m.weight := by
                  rw [weight]
                  rfl
                rw [same] at heavier
                simp only [PoolOp.steps]
                omega

/-- A pop returns when the bodies of `-dealloc` do. -/
theorem PoolPhase.returns {permitted : PoolMachine Obj Loc → PoolOp Obj Loc → Prop}
    (weaker : ∀ state op, op.Internal → permitted state op) {lower : List (List Obj)} {owed : List Obj}
    (phase : PoolPhase lower m.stack m.drains owed) (running : m.panicked = false) :
    ∃ during last, Traced PoolMachine.step (fun state op => permitted state op ∧ state.stack.borrowed = true)
      m during last ∧ last.stack.borrowed = false := by
  induction size : 3 * m.stack.work lower owed + m.weight using Nat.strongRecOn generalizing m owed with
  | _ size ih =>
      cases borrowed : m.stack.borrowed with
      | false => exact ⟨[], m, .nil m, borrowed⟩
      | true =>
          have inside : m.frames ≠ [] := by
            intro bottom
            rw [PoolMachine.drains, bottom] at phase
            generalize m.stack = stack at phase borrowed
            cases phase
            contradiction
          obtain ⟨op, next, answer, internal, result, lighter⟩ := PoolMachine.exists_internal running inside
          have apart : m.PoolsApart op ∧ m.ValidToken op := by
            cases op with
            | next => exact ⟨fun _ => id, trivial⟩
            | sendDealloc found => exact ⟨fun _ => id, trivial⟩
            | returnDealloc => exact ⟨fun _ => id, trivial⟩
            | _ => contradiction
          obtain ⟨lower', owed', still, _, paid⟩ := phase.step apart.2 apart.1 result
          obtain ⟨rfl, _, spent⟩ := paid borrowed
          have safe : next.panicked = false := by
            rw [← Bool.not_eq_true, PoolMachine.panics_iff result]
            exact fun both => apart.1 both.1 both.2
          obtain ⟨during, last, later, ended⟩ := ih _ (by omega) still safe rfl
          exact ⟨(op, answer) :: during, last, .cons ⟨weaker m op internal, borrowed⟩ result later, ended⟩

/-- What a pop does after it has begun, as long as the calls made while it runs are permitted. -/
structure PoolMachine.PopsTo (permitted : PoolMachine Obj Loc → PoolOp Obj Loc → Prop) (m : PoolMachine Obj Loc)
    (token : Nat) (begun : PoolMachine Obj Loc) : Prop where
  /-- From every point of the pop the thread can go on by itself until the pop returns. -/
  returns : ∀ during middle,
    Traced PoolMachine.step (fun state op => permitted state op ∧ state.stack.borrowed = true) begun during middle →
    ∃ rest last, Traced PoolMachine.step (fun state op => permitted state op ∧ state.stack.borrowed = true)
      middle rest last ∧ last.stack.borrowed = false
  /-- The pop takes one step for each object and pool at or above the token, and one to return. -/
  bounded : ∀ during last,
    Traced PoolMachine.step (fun state op => permitted state op ∧ state.stack.borrowed = true) begun during last →
    ownSteps during ≤ (m.stack.pools.drop token).flatten.length + (m.stack.pools.length - token) + 1
  /-- When it returns it has released the objects at or above the token, the last one first, and nothing else. -/
  collects : ∀ during last,
    Traced PoolMachine.step (fun state op => permitted state op ∧ state.stack.borrowed = true) begun during last →
    last.stack.borrowed = false →
      (during.filterMap fun call => call.2.collected) = (m.stack.pools.drop token).flatten.reverse ∧
        last.stack.pools = m.stack.pools.take token ∧ last.stack.pools.length = token
  /-- A step that answers with a released object is its `objc_release` up to the message `-dealloc`. -/
  releases : ∀ during middle op next obj,
    Traced PoolMachine.step (fun state op => permitted state op ∧ state.stack.borrowed = true) begun during middle →
    middle.step op = some (next, .released obj) →
      ∃ frames refs, next = { middle with frames, refs }.beginRelease obj

/-- Only the loop of a pop answers with a released object. -/
theorem PoolMachine.released_step {obj : Obj} (result : m.step op = some (next, .released obj)) :
    ∃ frames refs, next = { m with frames, refs }.beginRelease obj := by
  cases (PoolMachine.step_effect result).2 with
  | drain top => exact ⟨_, _, rfl⟩

/-- A pop of a valid token by a thread whose later calls keep the pools apart. -/
theorem PoolPhase.popsTo {permitted : PoolMachine Obj Loc → PoolOp Obj Loc → Prop}
    (stronger : ∀ lower state owed op, PoolPhase lower state.stack state.drains owed → permitted state op →
      state.ValidToken op ∧ state.PoolsApart op)
    (weaker : ∀ state op, op.Internal → permitted state op) {lower : List (List Obj)} {owed : List Obj}
    (phase : PoolPhase lower m.stack m.drains owed) {token : Nat} (allowed : permitted m (.pop token))
    (result : m.step (.pop token) = some (next, answer)) : m.PopsTo permitted token next := by
  obtain ⟨valid, apart⟩ := stronger _ _ _ _ phase allowed
  have safe : ∀ {state after : PoolMachine Obj Loc} {op answer}, state.PoolsApart op →
      state.step op = some (after, answer) → after.panicked = false := by
    intro state after op answer apart result
    rw [← Bool.not_eq_true, PoolMachine.panics_iff result]
    exact fun both => apart both.1 both.2
  have running := safe apart result
  obtain ⟨unpanicked, effect⟩ := PoolMachine.step_effect result
  clear result
  cases effect with
  | popPanics borrowed => contradiction
  | @pop token stack begun =>
      obtain ⟨unborrowed, isBegun⟩ := beginPop_spec begun
      have isPool : token < m.stack.pools.length := valid
      obtain ⟨isStack, _, _⟩ := phase.of_unborrowed unborrowed
      have inside : token ≤ lower.length := by
        rw [isStack] at isPool
        exact Nat.le_of_lt isPool
      have same : m.stack.pools = lower := by rw [isStack]
      have popping := phase.begin inside begun
      have atToken : (lower.take token).length = token := by rw [List.length_take, Nat.min_eq_left inside]
      refine ⟨fun during middle run => ?_, fun during last run => ?_, fun during last run ended => ?_,
        fun _ _ _ _ _ _ released => PoolMachine.released_step released⟩
      · have kept := run.invariant
          (fun state => state.panicked = false ∧ ∃ owed, PoolPhase (lower.take token) state.stack state.drains owed)
          ⟨running, _, popping⟩ ?_
        · obtain ⟨unpanicked, owed', still⟩ := kept
          exact still.returns weaker unpanicked
        · rintro state op after answer ⟨_, owed, phase⟩ allowed result
          obtain ⟨valid, apart⟩ := stronger _ _ _ _ phase allowed.1
          obtain ⟨_, owed', still, _, paid⟩ := phase.step valid apart result
          obtain ⟨rfl, _, _⟩ := paid allowed.2
          exact ⟨safe apart result, owed', still⟩
      · obtain ⟨owed', _, _, worked⟩ := popping.run stronger run
        have total : stack.work (lower.take token) (lower.drop token).flatten.reverse =
            (m.stack.pools.drop token).flatten.length + (m.stack.pools.length - token) + 1 := by
          rw [PoolStack.work, isBegun, same, atToken, List.length_reverse]
          rfl
        rw [← total]
        exact Nat.le.intro ((Nat.add_comm _ _).trans worked)
      · obtain ⟨owed', still, collected, _⟩ := popping.run stronger run
        obtain ⟨isLast, _, rfl⟩ := still.of_unborrowed ended
        rw [isLast, same, collected, List.append_nil]
        exact ⟨rfl, rfl, atToken⟩

/-- What a thread whose calls leave the pools alone while a pop runs can rely on. -/
structure PoolMachine.Tolerates (m : PoolMachine Obj Loc) : Prop where
  running : m.panicked = false
  /-- The next call panics exactly when it uses the pools while a pop runs. -/
  panics : ∀ op next answer, m.step op = some (next, answer) →
    (next.panicked = true ↔ m.stack.borrowed = true ∧ m.Borrows op)
  pops : ∀ token begun answer, m.ValidToken (.pop token) → m.PoolsApart (.pop token) →
    m.step (.pop token) = some (begun, answer) →
      m.PopsTo (fun state op => state.ValidToken op ∧ state.PoolsApart op) token begun

/-- A run whose calls keep the pools apart does not panic and stays between two steps of at most one pop. -/
theorem PoolPhase.of_run {calls : List (PoolOp Obj Loc × PoolAnswer Obj)}
    (run : Traced PoolMachine.step (fun state op => state.ValidToken op ∧ state.PoolsApart op) .start calls m) :
    m.panicked = false ∧ ∃ lower owed, PoolPhase lower m.stack m.drains owed := by
  apply run.invariant fun state => state.panicked = false ∧ ∃ lower owed, PoolPhase lower state.stack state.drains owed
  · exact ⟨rfl, [], [], .idle⟩
  · rintro state op next answer ⟨_, lower, owed, phase⟩ ⟨valid, apart⟩ result
    obtain ⟨lower', owed', still, _⟩ := phase.step valid apart result
    refine ⟨?_, lower', owed', still⟩
    rw [← Bool.not_eq_true, PoolMachine.panics_iff result]
    exact fun both => apart both.1 both.2

/-- Draining tolerates every body of `-dealloc` that leaves the pools alone, and panics at the first use of the
pools. -/
theorem drainRun_tolerates {calls : List (PoolOp Obj Loc × PoolAnswer Obj)}
    (run : Traced PoolMachine.step (fun state op => state.ValidToken op ∧ state.PoolsApart op) .start calls m) :
    m.Tolerates := by
  obtain ⟨running, lower, owed, phase⟩ := PoolPhase.of_run run
  refine ⟨running, fun op next answer => PoolMachine.panics_iff, fun token begun answer valid apart result => ?_⟩
  refine phase.popsTo (fun _ _ _ _ _ => id) (fun state op internal => ?_) ⟨valid, apart⟩ result
  cases op with
  | next => exact ⟨trivial, fun _ => id⟩
  | sendDealloc found => exact ⟨trivial, fun _ => id⟩
  | returnDealloc => exact ⟨trivial, fun _ => id⟩
  | _ => contradiction

section Decisions

variable (m : PoolMachine Obj Loc) (op : PoolOp Obj Loc)

instance PoolMachine.decidableBorrows : Decidable (m.Borrows op) :=
  match op with
  | .push => inferInstanceAs (Decidable True)
  | .pop _ => inferInstanceAs (Decidable True)
  | .autorelease obj => inferInstanceAs (Decidable (obj.isSome = true))
  | .loadWeak loc => inferInstanceAs (Decidable ((objcLoadWeakRetained m.toMemory loc).2.isSome = true))
  | .allocate _ => inferInstanceAs (Decidable False)
  | .retain _ => inferInstanceAs (Decidable False)
  | .release _ => inferInstanceAs (Decidable False)
  | .initWeak _ _ => inferInstanceAs (Decidable False)
  | .storeWeak _ _ => inferInstanceAs (Decidable False)
  | .loadWeakRetained _ => inferInstanceAs (Decidable False)
  | .destroyWeak _ => inferInstanceAs (Decidable False)
  | .next => inferInstanceAs (Decidable False)
  | .sendDealloc _ => inferInstanceAs (Decidable False)
  | .returnDealloc => inferInstanceAs (Decidable False)

instance PoolMachine.decidableValidToken : Decidable (m.ValidToken op) :=
  match op with
  | .pop token => inferInstanceAs (Decidable (token < m.stack.pools.length))
  | .push => inferInstanceAs (Decidable True)
  | .autorelease _ => inferInstanceAs (Decidable True)
  | .loadWeak _ => inferInstanceAs (Decidable True)
  | .allocate _ => inferInstanceAs (Decidable True)
  | .retain _ => inferInstanceAs (Decidable True)
  | .release _ => inferInstanceAs (Decidable True)
  | .initWeak _ _ => inferInstanceAs (Decidable True)
  | .storeWeak _ _ => inferInstanceAs (Decidable True)
  | .loadWeakRetained _ => inferInstanceAs (Decidable True)
  | .destroyWeak _ => inferInstanceAs (Decidable True)
  | .next => inferInstanceAs (Decidable True)
  | .sendDealloc _ => inferInstanceAs (Decidable True)
  | .returnDealloc => inferInstanceAs (Decidable True)

instance PoolMachine.decidablePoolsApart : Decidable (m.PoolsApart op) :=
  inferInstanceAs (Decidable (m.stack.borrowed = true → ¬ m.Borrows op))

end Decisions

end Phases

/-- The pop is in the body of the `-dealloc` of the object that it releases. -/
theorem drainRun_tolerates_inside : ∃ m : PoolMachine Nat Nat, m.stack.borrowed = true ∧
    m.frames = [.body 5, .drain 0 []] ∧ m.Tolerates := by
  have ran : ∃ ended ∈ replayTraced PoolMachine.step (fun state op => state.ValidToken op ∧ state.PoolsApart op)
      (PoolMachine.start : PoolMachine Nat Nat)
      [.push, .allocate 5, .autorelease (some 5), .pop 0, .next, .next, .sendDealloc true],
      ended.1.stack.borrowed = true ∧ ended.1.frames = [.body 5, .drain 0 []] := ⟨_, rfl, rfl, rfl⟩
  obtain ⟨⟨m, calls⟩, replayed, borrowed, frames⟩ := ran
  exact ⟨m, borrowed, frames, drainRun_tolerates (traced_of_replay replayed)⟩

/-- A body of `-dealloc` that a pop runs panics when it autoreleases an object, and when it pushes a pool. -/
theorem drainedBody_panics :
    (∃ (m : PoolMachine Nat Nat) (calls : List (PoolOp Nat Nat × PoolAnswer Nat)),
      Traced PoolMachine.step PoolMachine.ValidToken .start calls m ∧ m.frames = [.body 5, .drain 0 []] ∧
        m.panicked = true) ∧
    ∃ (m : PoolMachine Nat Nat) (calls : List (PoolOp Nat Nat × PoolAnswer Nat)),
      Traced PoolMachine.step PoolMachine.ValidToken .start calls m ∧ m.frames = [.body 5, .drain 0 []] ∧
        calls.getLast? = some (.push, .panic) ∧ m.panicked = true := by
  have added : ∃ ended ∈ replayTraced PoolMachine.step PoolMachine.ValidToken (PoolMachine.start : PoolMachine Nat Nat)
      [.push, .allocate 5, .allocate 6, .autorelease (some 5), .pop 0, .next, .next, .sendDealloc true,
        .autorelease (some 6)],
      ended.1.frames = [.body 5, .drain 0 []] ∧ ended.1.panicked = true := ⟨_, rfl, rfl, rfl⟩
  have pushed : ∃ ended ∈ replayTraced PoolMachine.step PoolMachine.ValidToken
      (PoolMachine.start : PoolMachine Nat Nat)
      [.push, .allocate 5, .autorelease (some 5), .pop 0, .next, .next, .sendDealloc true, .push],
      ended.1.frames = [.body 5, .drain 0 []] ∧ ended.2.getLast? = some (.push, .panic) ∧ ended.1.panicked = true :=
    ⟨_, rfl, rfl, rfl, rfl⟩
  obtain ⟨⟨m, calls⟩, replayed, frames, panicked⟩ := added
  obtain ⟨⟨m', calls'⟩, replayed', frames', last, panicked'⟩ := pushed
  exact ⟨⟨m, calls, traced_of_replay replayed, frames, panicked⟩,
    ⟨m', calls', traced_of_replay replayed', frames', last, panicked'⟩⟩

end O3jc
