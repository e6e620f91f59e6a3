import O3jc.Locking.Program

/-
This file proves that the runtime takes its locks in one order, so that its threads cannot deadlock.
-/

namespace O3jc

open Library

section Guards

variable {Obj Loc Stripe Shard : Type} (layout : Layout Obj Loc Stripe Shard)

/-- A guard is a lock with the mode in which it is owned. -/
abbrev Guard (Stripe Shard : Type) : Type := RuntimeLock Stripe Shard × LockMode

def Layout.slotGuard (loc : Loc) : Guard Stripe Shard := (.slot (layout.stripe loc), .exclusive)

def Layout.tableGuard (obj : Obj) : Guard Stripe Shard := (.table (layout.tableShard obj), .exclusive)

def Layout.selGuard (name : String) : Guard Stripe Shard := (.sel (layout.selShard name), .exclusive)

def Layout.nameGuard (name : String) : Guard Stripe Shard := (.name (layout.nameShard name), .exclusive)

/-- A sweep of all caches reads the registry. -/
def sweepGuards (sweep : Option (List ClassPtr)) : List (Guard Stripe Shard) :=
  match sweep with
  | none => []
  | some _ => [(.registry, .shared)]

/-- A retain inside of a load holds the slot of the load. -/
def Layout.loadGuards (load : Option Loc) : List (Guard Stripe Shard) :=
  match load with
  | none => []
  | some loc => [layout.slotGuard loc]

/-- The guards that a thread holds at a point, the latest first. -/
def LockPoint.holds : LockPoint Obj Loc → List (Guard Stripe Shard)
  | .retain _ load => layout.loadGuards load
  | .retaining obj load => layout.tableGuard obj :: layout.loadGuards load
  | .retained obj load _ => layout.tableGuard obj :: layout.loadGuards load
  | .releasing obj => [layout.tableGuard obj]
  | .released obj _ => [layout.tableGuard obj]
  | .zeroing _ loc _ => [layout.slotGuard loc]
  | .zeroed _ loc _ => [layout.slotGuard loc]
  | .removing obj => [layout.tableGuard obj]
  | .removed obj => [layout.tableGuard obj]
  | .writing loc _ => [layout.slotGuard loc]
  | .unregister loc _ _ => [layout.slotGuard loc]
  | .unregistering loc old _ => [layout.tableGuard old, layout.slotGuard loc]
  | .unregistered loc old _ => [layout.tableGuard old, layout.slotGuard loc]
  | .clear loc _ => [layout.slotGuard loc]
  | .register loc _ _ => [layout.slotGuard loc]
  | .registering loc obj _ => [layout.tableGuard obj, layout.slotGuard loc]
  | .registered loc obj _ => [layout.tableGuard obj, layout.slotGuard loc]
  | .loading loc => [layout.slotGuard loc]
  | .unlockSlot loc _ => [layout.slotGuard loc]
  | .selEntry name _ => [layout.selGuard name]
  | .intern name _ => [layout.selGuard name]
  | .interning name _ => [layout.nameGuard name, layout.selGuard name]
  | .interned name _ _ => [layout.nameGuard name, layout.selGuard name]
  | .selInsert name _ _ => [layout.selGuard name]
  | .selFound name _ _ => [layout.selGuard name]
  | .internPanicked name => [layout.nameGuard name, layout.selGuard name]
  | .selPanicked name => [layout.selGuard name]
  | .cacheReading cls _ _ => [(.cache cls, .shared)]
  | .cacheAnswered cls _ _ _ => [(.cache cls, .shared)]
  | .cacheFilling cls _ _ _ => [(.cache cls, .exclusive)]
  | .cacheFilled cls _ _ => [(.cache cls, .exclusive)]
  | .flush _ sweep _ => sweepGuards sweep
  | .flushLock _ _ sweep _ => sweepGuards sweep
  | .flushing cls _ sweep _ => (.cache cls, .exclusive) :: sweepGuards sweep
  | .flushed cls _ sweep _ => (.cache cls, .exclusive) :: sweepGuards sweep
  | .flushBelow _ _ sweep _ => sweepGuards sweep
  | .sweeping => [(.registry, .shared)]
  | .registryInsert _ _ => [(.registry, .exclusive)]
  | .registryInserted => [(.registry, .exclusive)]
  | _ => []

def Position.holds (position : Position Obj Loc) : List (Guard Stripe Shard) := position.point.holds layout

/-- The nestings of the source. A slot is locked before a shard of `TABLE`, a shard of `SEL_TABLE` before one of
`NAME_TABLE`, and the registry before a cache. -/
def RuntimeLock.MayTake : RuntimeLock Stripe Shard → RuntimeLock Stripe Shard → Prop
  | .slot _, .table _ => True
  | .sel _, .name _ => True
  | .registry, .cache _ => True
  | _, _ => False

def RuntimeLock.depth : RuntimeLock Stripe Shard → Nat
  | .slot _ => 1
  | .sel _ => 1
  | .registry => 1
  | _ => 0

theorem RuntimeLock.depth_lt {outer inner : RuntimeLock Stripe Shard} (may : outer.MayTake inner) :
    inner.depth < outer.depth := by
  cases outer <;> cases inner <;> first | contradiction | exact Nat.one_pos

/-- Nestings end after one step, so they have no cycle. -/
theorem RuntimeLock.acyclic :
    WellFounded fun inner outer : RuntimeLock Stripe Shard => outer.MayTake inner :=
  Subrelation.wf RuntimeLock.depth_lt (measure RuntimeLock.depth).wf

theorem RuntimeLock.not_mayTake_self (lock : RuntimeLock Stripe Shard) : ¬ lock.MayTake lock := by
  cases lock <;> exact id

@[simp] theorem zeroFrom_holds (obj : Obj) (locs : List Loc) : (zeroFrom obj locs).holds layout = [] := by
  cases locs <;> rfl

@[simp] theorem enterNew_holds (loc : Loc) (write : WeakWrite Obj) :
    (enterNew loc write).holds layout = [layout.slotGuard loc] := by
  unfold enterNew
  split <;> rfl

/-- A call begins without a guard. -/
@[simp] theorem RuntimeCall.begin_holds (call : RuntimeCall Obj Loc) : call.begin.holds layout = [] := by
  unfold RuntimeCall.begin
  split <;> rfl

variable [DecidableEq Obj] [DecidableEq Loc]

/-- Every function of the runtime respects the order at every point. -/
theorem Position.respects (position : Position Obj Loc) :
    LockMachine.Respects RuntimeLock.MayTake (Position.holds layout) (Position.action layout) position := by
  obtain ⟨point, bodies⟩ := position
  unfold LockMachine.Respects Position.holds
  cases point with
  | finished => rfl
  | user answer =>
      refine ⟨rfl, ⟨.call (.retain none), rfl⟩, fun choice chosen isChosen => ?_⟩
      cases choice with
      | call call =>
          obtain rfl := Option.some.inj isChosen
          exact call.begin_holds layout
      | «return» =>
          cases bodies with
          | nil =>
              obtain rfl := Option.some.inj isChosen
              rfl
          | cons obj rest =>
              obtain rfl := Option.some.inj isChosen
              rfl
  -- Locks that are taken without a guard
  | release | zero | remove | writeWeak | loadWeak | selRegister | cacheRead | cacheFill | flushAll | registryLock =>
      exact ⟨rfl, List.forall_mem_nil _⟩
  -- Locks that are taken under one guard
  | unregister | register | intern => exact ⟨rfl, List.forall_mem_singleton.mpr trivial⟩
  | retain obj load =>
      cases load with
      | none => exact ⟨rfl, List.forall_mem_nil _⟩
      | some loc => exact ⟨rfl, List.forall_mem_singleton.mpr trivial⟩
  | flushLock cls pending sweep answer =>
      cases sweep with
      | none => exact ⟨rfl, List.forall_mem_nil _⟩
      | some rest => exact ⟨rfl, List.forall_mem_singleton.mpr trivial⟩
  -- Guards that are dropped
  | removed | registered | unlockSlot | interned | internPanicked | selPanicked | cacheFilled | flushed
  | registryInserted => rfl
  | zeroed obj loc rest => exact congrArg _ (zeroFrom_holds layout obj rest).symm
  | unregistered loc old write => exact congrArg _ (enterNew_holds layout loc write).symm
  | retained obj load result => cases load <;> rfl
  | selFound name sel caller => cases caller <;> rfl
  | cacheAnswered cls sel cached caller => cases cached <;> rfl
  | released obj weakLocations =>
      cases weakLocations with
      | none => rfl
      | some locs => exact congrArg _ (zeroFrom_holds layout obj locs).symm
  -- Accesses keep their guards
  | retaining | releasing | zeroing | removing | unregistering | clear | registering | selInsert | cacheReading
  | cacheFilling | flushing | flushBelow | sweeping | registryInsert => exact fun _ => rfl
  | initWeak loc obj => cases obj <;> exact fun _ => rfl
  | writing loc write =>
      intro d
      dsimp only
      split
      · exact enterNew_holds layout loc write
      · rfl
  | loading loc =>
      intro d
      dsimp only
      split <;> rfl
  | selEntry name caller =>
      intro d
      dsimp only
      split <;> rfl
  | interning name caller =>
      intro d
      dsimp only
      split <;> rfl
  | msgLookup receiver sel caller =>
      intro d
      dsimp only
      split
      · rfl
      · split <;> rfl
  | walk cls sel caller =>
      intro d
      dsimp only
      split
      · rfl
      · split <;> rfl
  | lookedUp imp caller =>
      intro d
      dsimp only
      split <;> rfl
  | replaceMethod cls sel imp types =>
      intro d
      dsimp only
      split <;> rfl
  | addMethod cls sel imp types replacing =>
      intro d
      dsimp only
      split
      · rfl
      · split <;> rfl
  | flush pending sweep answer =>
      cases pending with
      | cons cls pending =>
          intro d
          dsimp only
          split <;> rfl
      | nil =>
          cases sweep with
          | none => exact fun _ => rfl
          | some rest =>
              cases rest with
              | nil => rfl
              | cons cls rest => exact fun _ => rfl
  | exchange m1 m2 =>
      intro d
      dsimp only
      split <;> rfl
  | registerClass cls =>
      intro d
      dsimp only
      split <;> rfl

/-- Only a finished thread does nothing. -/
theorem Position.finished_of_done {position : Position Obj Loc} (isDone : position.action layout = .done) :
    position.point = .finished := by
  unfold Position.action at isDone
  dsimp only at isDone
  split at isDone <;> first | assumption | contradiction

/-- Only user code chooses. -/
theorem Position.user_of_choose {position : Position Obj Loc} {next : UserChoice Obj Loc → Option (Position Obj Loc)}
    (isChoice : position.action layout = .choose next) :
    (∃ answer, position.point = .user answer) ∧ ∀ call, next (.call call) = some ⟨call.begin, position.bodies⟩ := by
  unfold Position.action at isChoice
  dsimp only at isChoice
  split at isChoice <;> try contradiction
  obtain rfl := LockAction.choose.inj isChoice
  exact ⟨⟨_, ‹_›⟩, fun _ => rfl⟩

/-- Apart from the choices of user code, only the step that sends `-dealloc` changes the bodies. -/
theorem Position.bodies_kept (position : Position Obj Loc) :
    match position.action layout with
    | .access next => (∀ d, (next d).2.bodies = position.bodies) ∨ ∃ imp caller, position.point = .lookedUp imp caller
    | .acquire _ _ next => next.bodies = position.bodies
    | .release _ _ next => next.bodies = position.bodies
    | _ => True := by
  obtain ⟨point, bodies⟩ := position
  cases point with
  | finished | user => trivial
  | retain | retained | release | released | zero | zeroed | remove | removed | writeWeak | unregister | unregistered
  | register | registered | loadWeak | unlockSlot | selRegister | intern | interned | selFound | internPanicked
  | selPanicked | cacheRead | cacheAnswered | cacheFill | cacheFilled | flushLock | flushed | flushAll | registryLock
  | registryInserted => rfl
  | retaining | releasing | zeroing | removing | initWeak | writing | unregistering | clear | registering | loading
  | selEntry | selInsert | msgLookup | cacheReading | walk | cacheFilling | flushing | flushBelow | sweeping
  | registerClass | registryInsert => exact .inl fun _ => rfl
  | lookedUp imp caller => exact .inr ⟨imp, caller, rfl⟩
  | interning name caller =>
      refine .inl fun d => ?_
      dsimp only
      split <;> rfl
  | replaceMethod cls sel imp types =>
      refine .inl fun d => ?_
      dsimp only
      split <;> rfl
  | addMethod cls sel imp types replacing =>
      refine .inl fun d => ?_
      dsimp only
      split
      · rfl
      · split <;> rfl
  | flush pending sweep answer =>
      cases pending with
      | cons cls pending => exact .inl fun _ => rfl
      | nil =>
          cases sweep with
          | none => exact .inl fun _ => rfl
          | some rest =>
              cases rest with
              | nil => rfl
              | cons cls rest => exact .inl fun _ => rfl
  | exchange m1 m2 =>
      refine .inl fun d => ?_
      dsimp only
      split <;> rfl

end Guards

section Machines

variable {Tid Obj Loc Stripe Shard : Type} [DecidableEq Tid] [DecidableEq Obj] [DecidableEq Loc] [DecidableEq Stripe]
  [DecidableEq Shard] (layout : Layout Obj Loc Stripe Shard)

abbrev RuntimeMachine (Tid Obj Loc Stripe Shard : Type) : Type :=
  LockMachine Tid (RuntimeLock Stripe Shard) (Shared Obj Loc) (Position Obj Loc)

/-- Every thread is in user code and owns no lock. -/
def RuntimeMachine.start (d : Shared Obj Loc) : RuntimeMachine Tid Obj Loc Stripe Shard :=
  LockMachine.start d ⟨.user .nothing, []⟩

/-- The thread has made no choice since it made the call, and it is back in user code with the answer. -/
def RuntimeMachine.Answered
    (permitted : RuntimeMachine Tid Obj Loc Stripe Shard → Tid × Option (UserChoice Obj Loc) → Prop) (thread : Tid)
    (call : RuntimeCall Obj Loc) (before m : RuntimeMachine Tid Obj Loc Stripe Shard) (answer : RuntimeAnswer Obj) :
    Prop :=
  Since (LockMachine.step (Position.action layout)) permitted (thread, some (.call call)) (LockMachine.GoesOn thread)
    before m ∧ m.point thread = ⟨.user answer, (before.point thread).bodies⟩

variable {layout} {m next : RuntimeMachine Tid Obj Loc Stripe Shard} {thread : Tid}
  {choice : Option (UserChoice Obj Loc)}

/-- A call begins in user code. -/
theorem RuntimeMachine.step_call {call : RuntimeCall Obj Loc}
    (result : m.step (Position.action layout) (thread, some (.call call)) = some next) :
    next = m.enter thread ⟨call.begin, (m.point thread).bodies⟩ ∧ ∃ answer, (m.point thread).point = .user answer := by
  cases LockMachine.step_effect result with
  | choose isChoice chosen =>
      obtain ⟨inUser, begins⟩ := Position.user_of_choose layout isChoice
      rw [begins] at chosen
      obtain rfl := Option.some.inj chosen
      exact ⟨rfl, inUser⟩

/-- A step into a body of `-dealloc` or out of one is taken without a lock, and so is the next one. -/
theorem free_of_body
    (result : m.step (Position.action layout) (thread, choice) = some next)
    (changed : (next.point thread).bodies ≠ (m.point thread).bodies) :
    (m.point thread).holds layout = [] ∧ (next.point thread).holds layout = [] := by
  have respected := Position.respects layout (m.point thread)
  have kept := Position.bodies_kept layout (m.point thread)
  unfold LockMachine.Respects at respected
  cases LockMachine.step_effect result with
  | @choose options picked point isChoice chosen =>
      rw [isChoice] at respected
      simp only [LockMachine.enter, Function.update_self]
      exact ⟨respected.1, respected.2.2 picked point chosen⟩
  | access isAccess =>
      rw [isAccess] at respected kept
      simp only [LockMachine.enter, Function.update_self] at changed ⊢
      rcases kept with kept | ⟨imp, caller, isLookedUp⟩
      · exact absurd (kept m.data) changed
      · have free : (m.point thread).holds layout = [] := by rw [Position.holds, isLookedUp]; rfl
        exact ⟨free, (respected m.data).trans free⟩
  | acquire isAcquire =>
      rw [isAcquire] at kept
      simp only [LockMachine.enter, Function.update_self] at changed
      exact absurd kept changed
  | release isRelease =>
      rw [isRelease] at kept
      simp only [LockMachine.enter, Function.update_self] at changed
      exact absurd kept changed

variable (layout m) in
/-- What holds of the locks in every state that the threads can reach. -/
structure RuntimeMachine.LocksSafely : Prop where
  /-- No thread owns two locks of weak slots or two locks of shards of the side table. -/
  slots : ∀ thread s s' a b, (thread, a) ∈ m.owners (.slot s) → (thread, b) ∈ m.owners (.slot s') → s = s' ∧ a = b
  shards : ∀ thread s s' a b, (thread, a) ∈ m.owners (.table s) → (thread, b) ∈ m.owners (.table s') → s = s' ∧ a = b
  once : ∀ thread lock mode, (m.owners lock).count (thread, mode) ≤ 1
  /-- A thread that waits for the lock of a weak slot owns no lock. -/
  waits : ∀ thread s mode, m.Waits (Position.action layout) thread (.slot s) mode →
    ∀ lock held, (thread, held) ∉ m.owners lock
  /-- User code and the bodies of `-dealloc` run without a lock of the runtime. -/
  user : ∀ thread answer, (m.point thread).point = .user answer → ∀ lock held, (thread, held) ∉ m.owners lock
  /-- Every body starts and returns without a lock. -/
  bodies : ∀ thread choice next, m.step (Position.action layout) (thread, choice) = some next →
    (next.point thread).bodies ≠ (m.point thread).bodies →
      ∀ lock held, (thread, held) ∉ m.owners lock ∧ (thread, held) ∉ next.owners lock
  /-- Some thread can take a step, also when readers give way to the threads that wait to write. -/
  progress : (∃ thread, (m.point thread).point ≠ .finished) →
    ∃ thread, m.Ready (Position.action layout) thread ∧
      ∃ choice next, m.step (Position.action layout) (thread, choice) = some next

/-- The locks of the runtime cannot deadlock. -/
theorem runtime_locksSafely {d : Shared Obj Loc}
    (run : Reachable (LockMachine.step (Position.action layout)) (fun _ _ => True) (RuntimeMachine.start d) m) :
    m.LocksSafely layout := by
  have ordered : ∀ {state : RuntimeMachine Tid Obj Loc Stripe Shard} {label next},
      LockMachine.Ordered RuntimeLock.MayTake (Position.holds layout) state →
      state.step (Position.action layout) label = some next →
      LockMachine.Ordered RuntimeLock.MayTake (Position.holds layout) next :=
    fun inv result => inv.step (Position.respects layout) result
  have inv := run.invariant (LockMachine.Ordered RuntimeLock.MayTake (Position.holds layout)) (.start rfl)
    fun _ _ _ inv _ result => ordered inv result
  refine ⟨fun thread s s' a b one other => ?_, fun thread s s' a b one other => ?_, fun thread lock mode => ?_,
    fun thread s mode waits lock held owned => ?_, fun thread answer inUser lock held owned => ?_,
    fun thread choice next result changed lock held => ?_, fun ⟨thread, unfinished⟩ => ?_⟩
  · obtain ⟨same, modes⟩ := inv.same_lock one other id id
    exact ⟨RuntimeLock.slot.inj same, modes⟩
  · obtain ⟨same, modes⟩ := inv.same_lock one other id id
    exact ⟨RuntimeLock.table.inj same, modes⟩
  · exact inv.count_le_one RuntimeLock.not_mayTake_self lock mode
  · have may := inv.may_of_waits (Position.respects layout) waits owned
    cases lock <;> contradiction
  · rw [inv.mem_owners, Position.holds, inUser] at owned
    contradiction
  · obtain ⟨before, after⟩ := free_of_body result changed
    rw [inv.mem_owners, (ordered inv result).mem_owners, before, after]
    exact ⟨List.not_mem_nil, List.not_mem_nil⟩
  · have running : (m.point thread).action layout ≠ .done := fun isDone =>
      unfinished (Position.finished_of_done layout isDone)
    obtain ⟨other, ready⟩ := inv.progress (Position.respects layout) RuntimeLock.acyclic running
    exact ⟨other, ready, ready.step (Position.respects layout)⟩

end Machines

/-- A runtime whose only class answers every selector. -/
def deallocRuntime : Runtime where
  cStrings _ := .empty
  nextCString := 1
  selectors _ := ⟨some 0, none⟩
  nextSelector := 1
  nameTable _ := some 0
  selTable _ := some 0
  classes _ := { ObjcClass.blank with methodList := .runtime 0, dtable := some [] }
  nextClass := 1
  methodLists _ := ⟨none, .exact [⟨7, 0, none⟩]⟩
  nextMethodList := 1
  classRegistry := []

/-- All slots share a stripe and all keys of a table share a shard. -/
def collidingLayout : Layout Nat Nat Nat Nat := ⟨fun _ => 0, fun _ => 0, fun _ => 0, fun _ => 0, fun _ => .object 0⟩

/-- A thread in the body of the `-dealloc` of an object retains another one, while a second thread with a slot waits for
the shard and a third one for the slot. -/
theorem runtime_locksSafely_colliding : ∃ m : RuntimeMachine Nat Nat Nat Nat Nat,
    (m.point 0).bodies = [5] ∧ m.owners (.table 0) = [(0, .exclusive)] ∧ m.owners (.slot 0) = [(1, .exclusive)] ∧
      m.Waits (Position.action collidingLayout) 1 (.table 0) .exclusive ∧
        m.Waits (Position.action collidingLayout) 2 (.slot 0) .exclusive ∧ m.LocksSafely collidingLayout := by
  have ran : ∃ m ∈ replay (LockMachine.step (Position.action collidingLayout)) (fun _ _ => True)
      (RuntimeMachine.start ⟨⟨fun _ => none, fun _ => none⟩, deallocRuntime⟩ : RuntimeMachine Nat Nat Nat Nat Nat)
      [(0, some (.call (.release (some 5)))), (0, none), (0, none), (0, none), (0, none), (0, none), (0, none),
        (0, none), (0, none), (0, none), (0, none), (0, none), (0, none), (0, none), (0, none), (0, none),
        (0, some (.call (.retain (some 6)))), (0, none), (1, some (.call (.storeWeak 1 (some 6)))), (1, none),
        (1, none), (2, some (.call (.loadWeak 2)))],
      (m.point 0).bodies = [5] ∧ m.owners (.table 0) = [(0, .exclusive)] ∧
        m.owners (.slot 0) = [(1, .exclusive)] ∧ m.Waits (Position.action collidingLayout) 1 (.table 0) .exclusive ∧
          m.Waits (Position.action collidingLayout) 2 (.slot 0) .exclusive :=
    ⟨_, rfl, rfl, rfl, rfl, ⟨_, rfl⟩, ⟨_, rfl⟩⟩
  obtain ⟨m, replayed, bodies, shard, slot, writer, loader⟩ := ran
  exact ⟨m, bodies, shard, slot, writer, loader, runtime_locksSafely (reachable_of_replay replayed)⟩

end O3jc
