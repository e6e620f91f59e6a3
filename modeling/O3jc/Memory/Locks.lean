import O3jc.Memory.Slots

/-
This file proves that a thread which holds a stripe lock can always go on until it gives the lock up, and that a zeroing
loop can therefore always go on to its next slot.
-/

namespace O3jc

open Library

/-- The slot that a store of a thread waits for. -/
def Call.awaits {Obj Loc : Type} : Call Obj Loc → Option Loc
  | .awaiting loc _ => some loc
  | _ => none

section Locks

variable {Tid Obj Loc Stripe : Type} {stripe : Loc → Stripe}

/-- Every stripe lock that is taken belongs to a slot on which its thread is working. -/
def LocksTaken (stripe : Loc → Stripe) (locks : Stripe → Option Tid) (call : Tid → Call Obj Loc) : Prop :=
  ∀ s thread, locks s = some thread → ∃ loc, stripe loc = s ∧ (call thread).holding = some loc

variable [DecidableEq Tid] {locks : Stripe → Option Tid} {call : Tid → Call Obj Loc} {thread : Tid}
  {entered : Call Obj Loc} (taken : LocksTaken stripe locks call)

include taken

theorem LocksTaken.enter (kept : ∀ loc, (call thread).holding = some loc → entered.holding = some loc) :
    LocksTaken stripe locks (Function.update call thread entered) := by
  intro s other isTaken
  obtain ⟨loc, isStripe, holding⟩ := taken s other isTaken
  refine ⟨loc, isStripe, ?_⟩
  by_cases same : other = thread
  · subst same
    rw [Function.update_self]
    exact kept loc holding
  · rwa [Function.update_of_ne same]

variable [DecidableEq Stripe]

theorem LocksTaken.lock {loc : Loc} (before : (call thread).holding = none) (holds : entered.holding = some loc) :
    LocksTaken stripe (Function.update locks (stripe loc) (some thread)) (Function.update call thread entered) := by
  intro s other isTaken
  by_cases same : s = stripe loc
  · rw [same, Function.update_self] at isTaken
    rw [← Option.some.inj isTaken]
    exact ⟨loc, same.symm, by rwa [Function.update_self]⟩
  · rw [Function.update_of_ne same] at isTaken
    exact taken.enter (by simp [before]) s other isTaken

theorem LocksTaken.unlock {loc : Loc} (holding : (call thread).holding = some loc) :
    LocksTaken stripe (Function.update locks (stripe loc) none) (Function.update call thread entered) := by
  intro s other isTaken
  by_cases same : s = stripe loc
  · rw [same, Function.update_self] at isTaken
    contradiction
  · rw [Function.update_of_ne same] at isTaken
    obtain ⟨l, isStripe, isHolding⟩ := taken s other isTaken
    have different : other ≠ thread := by
      rintro rfl
      rw [holding] at isHolding
      exact same (isStripe.symm.trans (congrArg stripe (Option.some.inj isHolding).symm))
    exact ⟨l, isStripe, by rwa [Function.update_of_ne different]⟩

variable [DecidableEq Obj] [DecidableEq Loc]

omit taken in
theorem LocksTaken.step {m next : Machine Tid Obj Loc Stripe} {op : MemOp Tid Obj Loc}
    (taken : LocksTaken stripe m.locks m.call) (result : m.step stripe (thread, op) = some next) :
    LocksTaken stripe next.locks next.call := by
  have outside : ∀ {phase entered : Call Obj Loc}, m.call thread = phase → phase.holding = none →
      LocksTaken stripe m.locks (Function.update m.call thread entered) := by
    rintro phase entered rfl none
    exact taken.enter (by simp [none])
  cases Machine.step_effect result with
  | allocate user => exact taken
  | give user => exact taken
  | retain user => exact outside user rfl
  | releaseNull user => exact taken
  | release user kept => exact taken
  | dealloc user dropped => exact outside user rfl
  | initNull user => exact outside user rfl
  | init user => exact outside user rfl
  | store user => exact outside user rfl
  | acquire phase unlocked => exact taken.lock (by rw [phase]; rfl) rfl
  | unregister phase =>
      apply taken.enter
      rw [phase]
      exact fun _ => id
  | register phase => exact taken.unlock (by rw [phase]; rfl)
  | loadNull user unlocked isNull => exact outside user rfl
  | load user unlocked holds => exact taken.lock (by rw [user]; rfl) rfl
  | retainLoaded phase => exact taken.unlock (by rw [phase]; rfl)
  | destroy user unlocked => exact taken.lock (by rw [user]; rfl) rfl
  | unregisterDestroyed phase =>
      apply taken.enter
      rw [phase]
      exact fun _ => id
  | clear phase => exact taken.unlock (by rw [phase]; rfl)
  | zero phase unlocked => exact outside phase rfl
  | sendFound phase => exact outside phase rfl
  | sendMissing phase => exact outside phase rfl
  | returnDealloc user body => exact outside user rfl
  | remove phase => exact outside phase rfl
  | finishRetain phase => exact outside phase rfl
  | finishStore phase => exact outside phase rfl
  | finishLoad phase => exact outside phase rfl
  | finishDestroy phase => exact outside phase rfl

end Locks

section Progress

variable {Tid Obj Loc Stripe : Type} [DecidableEq Tid] [DecidableEq Obj] [DecidableEq Loc] [DecidableEq Stripe]
  {stripe : Loc → Stripe} {m : Machine Tid Obj Loc Stripe} {thread : Tid} {loc : Loc}

/-- The steps of threads that go on with calls in which they wait for no lock of a store. -/
def Machine.Advances (m : Machine Tid Obj Loc Stripe) (label : Tid × MemOp Tid Obj Loc) : Prop :=
  label.2 = .next ∧ (m.call label.1).awaits = none

omit [DecidableEq Tid] [DecidableEq Obj] [DecidableEq Loc] [DecidableEq Stripe] in
theorem Call.awaits_of_holding {call : Call Obj Loc} (holding : call.holding = some loc) : call.awaits = none := by
  cases call <;> first | rfl | contradiction

/-- The write of a store or of a destruction gives up the lock. -/
theorem Machine.exists_commit (isOver : (m.call thread).overwrites = some loc) :
    ∃ next, m.step stripe (thread, .next) = some next ∧ next.locks (stripe loc) = none := by
  cases position : m.call thread with
  | registering l new =>
      rw [position] at isOver
      obtain rfl : l = loc := Option.some.inj isOver
      apply Exists.intro
      constructor
      · simp only [Machine.step, Machine.advance, position]
        rfl
      · exact Function.update_self ..
  | clearing l =>
      rw [position] at isOver
      obtain rfl : l = loc := Option.some.inj isOver
      apply Exists.intro
      constructor
      · simp only [Machine.step, Machine.advance, position]
        rfl
      · exact Function.update_self ..
  | _ =>
      rw [position] at isOver
      contradiction

/-- A thread that holds a lock can take a step, after which it has given up the lock or is about to write. -/
theorem Machine.exists_step_of_holding (holding : (m.call thread).holding = some loc) :
    ∃ next, m.step stripe (thread, .next) = some next ∧
      (next.locks (stripe loc) = none ∨ (next.call thread).overwrites = some loc) := by
  cases position : m.call thread with
  | unregistering l new old =>
      rw [position] at holding
      apply Exists.intro
      constructor
      · simp only [Machine.step, Machine.advance, position]
        rfl
      · simp only [Machine.enter, Function.update_self]
        exact .inr holding
  | destroying l old =>
      rw [position] at holding
      apply Exists.intro
      constructor
      · simp only [Machine.step, Machine.advance, position]
        rfl
      · simp only [Machine.enter, Function.update_self]
        exact .inr holding
  | loading l obj =>
      rw [position] at holding
      obtain rfl : l = loc := Option.some.inj holding
      apply Exists.intro
      constructor
      · simp only [Machine.step, Machine.advance, position]
        rfl
      · exact .inl (Function.update_self ..)
  | registering l new =>
      obtain ⟨next, result, unlocked⟩ := Machine.exists_commit (by rw [position, ← holding, position]; rfl)
      exact ⟨next, result, .inl unlocked⟩
  | clearing l =>
      obtain ⟨next, result, unlocked⟩ := Machine.exists_commit (by rw [position, ← holding, position]; rfl)
      exact ⟨next, result, .inl unlocked⟩
  | _ =>
      rw [position] at holding
      contradiction

/-- A thread gives up the lock that it holds without waiting for anybody. -/
theorem Machine.exists_unlock (holding : (m.call thread).holding = some loc) :
    ∃ later, Reachable (Machine.step stripe) Machine.Advances m later ∧ later.locks (stripe loc) = none ∧
      ∀ other, other ≠ thread → later.call other = m.call other := by
  obtain ⟨next, result, unlocked | isOver⟩ := Machine.exists_step_of_holding holding
  · exact ⟨next, .single ⟨rfl, Call.awaits_of_holding holding⟩ result, unlocked,
      fun other different => Machine.step_call_of_ne result different⟩
  · obtain ⟨later, commits, unlocked⟩ := Machine.exists_commit isOver
    refine ⟨later, .tail (.single ⟨rfl, Call.awaits_of_holding holding⟩ result)
      ⟨rfl, Call.awaits_of_holding (Call.overwrites_holding isOver)⟩ commits, unlocked, fun other different => ?_⟩
    rw [Machine.step_call_of_ne commits different, Machine.step_call_of_ne result different]

/-- Every lock becomes free while a thread stays where it is. -/
theorem LocksTaken.exists_free (taken : LocksTaken stripe m.locks m.call) (idle : (m.call thread).holding = none)
    (loc : Loc) : ∃ later, Reachable (Machine.step stripe) Machine.Advances m later ∧
      later.locks (stripe loc) = none ∧ later.call thread = m.call thread := by
  cases isTaken : m.locks (stripe loc) with
  | none => exact ⟨m, .refl, isTaken, rfl⟩
  | some holder =>
      obtain ⟨l, isStripe, holding⟩ := taken (stripe loc) holder isTaken
      obtain ⟨later, run, unlocked, others⟩ :=
        @Machine.exists_unlock Tid Obj Loc Stripe _ _ _ _ stripe m holder l holding
      refine ⟨later, run, isStripe ▸ unlocked, others thread ?_⟩
      rintro rfl
      rw [idle] at holding
      contradiction

theorem LocksTaken.run (taken : LocksTaken stripe m.locks m.call) {later : Machine Tid Obj Loc Stripe}
    {permitted : Machine Tid Obj Loc Stripe → Tid × MemOp Tid Obj Loc → Prop}
    (run : Reachable (Machine.step stripe) permitted m later) : LocksTaken stripe later.locks later.call :=
  run.invariant (fun state => LocksTaken stripe state.locks state.call) taken
    fun _ _ _ taken _ result => taken.step result

/-- A zeroing loop can go on to each of its locations. -/
theorem LocksTaken.exists_zeroing (taken : LocksTaken stripe m.locks m.call) {obj : Obj} {remaining : List Loc}
    (phase : m.call thread = .zeroing obj remaining) (pending : loc ∈ remaining) :
    ∃ later rest, Reachable (Machine.step stripe) Machine.Advances m later ∧
      later.call thread = .zeroing obj (loc :: rest) ∧ later.locks (stripe loc) = none := by
  induction remaining generalizing m with
  | nil => contradiction
  | cons l rest ih =>
      obtain ⟨free, run, unlocked, position⟩ := taken.exists_free (by rw [phase]; rfl) l
      rw [phase] at position
      by_cases same : l = loc
      · subst same
        exact ⟨free, rest, run, position, unlocked⟩
      · have result : free.step stripe (thread, .next) = some ({ free with
            slots := Function.update free.slots l none }.enter thread (.zeroing obj rest)) := by
          simp only [Machine.step, Machine.advance, position, unlocked, if_true]
        have advance : Reachable (Machine.step stripe) Machine.Advances free _ :=
          .single ⟨rfl, by rw [position]; rfl⟩ result
        obtain ⟨later, last, second, found⟩ := ih ((taken.run run).run advance) (Function.update_self ..)
          ((List.mem_cons.mp pending).resolve_left (Ne.symm same))
        exact ⟨later, last, (run.trans advance).trans second, found⟩

end Progress

end O3jc
