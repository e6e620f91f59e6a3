import O3jc.Dispatch.Cache
import O3jc.Library.ProofOutline
import O3jc.Loading.Selectors
import O3jc.Locking.Accesses
import O3jc.Locking.Alone

/-
This file proves that the program of locks computes the functions of the runtime in every state of a concurrent run in
which the other threads own no lock.
-/

namespace O3jc

open Library

section Graph

variable {Obj Loc : Type} {image : List ClassPtr} {rt rt' : Runtime}

/-- A loaded class that is no metaclass can be registered. -/
def Runtime.Registrable (rt : Runtime) (cls : ClassPtr) : Prop :=
  (rt.classes cls).isMetaclass = false ∧ rt.Loaded cls

instance (rt : Runtime) (cls : ClassPtr) : Decidable (rt.Registrable cls) := inferInstanceAs (Decidable (_ ∧ _))

/-- What a thread knows of the class that it registers. -/
def LockPoint.Registers (rt : Runtime) : LockPoint Obj Loc → Prop
  | .registerClass cls => rt.Registrable cls
  | .registryLock cls name => rt.Registrable cls ∧ (rt.classes cls).name.toStr = some name
  | .registryInsert cls name => rt.Registrable cls ∧ (rt.classes cls).name.toStr = some name
  | _ => True

/-- Two states agree on the kinds and the names of the classes, and on which of them have a cache. -/
structure SameKinds (rt rt' : Runtime) : Prop where
  kind : ∀ cls, (rt'.classes cls).isMetaclass = (rt.classes cls).isMetaclass
  loaded : ∀ cls, rt'.Loaded cls ↔ rt.Loaded cls
  name : ∀ cls, (rt'.classes cls).name = (rt.classes cls).name

theorem SameGraph.sameKinds (same : SameGraph rt rt') : SameKinds rt rt' :=
  ⟨same.isMetaclass, same.loaded_iff, same.name⟩

theorem SameClassMemory.sameKinds (same : SameClassMemory rt rt') : SameKinds rt rt' :=
  ⟨fun _ => by rw [same.classes], fun _ => by rw [Runtime.Loaded, Runtime.Loaded, same.classes],
    fun _ => by rw [same.classes]⟩

theorem SameKinds.registrable {cls : ClassPtr} (same : SameKinds rt rt') (known : rt.Registrable cls) :
    rt'.Registrable cls :=
  ⟨(same.kind cls).trans known.1, (same.loaded cls).mpr known.2⟩

theorem LockPoint.Registers.kept {point : LockPoint Obj Loc} (known : point.Registers rt) (same : SameKinds rt rt') :
    point.Registers rt' := by
  cases point with
  | registerClass cls => exact same.registrable known
  | registryLock cls name => exact ⟨same.registrable known.1, by rw [same.name, known.2]⟩
  | registryInsert cls name => exact ⟨same.registrable known.1, by rw [same.name, known.2]⟩
  | _ => trivial

/-- Every change keeps the class graph. -/
theorem LockPoint.Changes.graph {point : LockPoint Obj Loc} (changes : point.Changes rt rt')
    (known : point.Registers rt) (inv : GraphInv image rt) : GraphInv image rt' ∧ SameKinds rt rt' := by
  have of_same : SameGraph rt rt' → GraphInv image rt' ∧ SameKinds rt rt' := fun same =>
    ⟨inv.of_same same, same.sameKinds⟩
  have of_memory : SameClassMemory rt rt' → GraphInv image rt' ∧ SameKinds rt rt' := fun same =>
    ⟨inv.of_sameClassMemory same, same.sameKinds⟩
  cases changes with
  | nothing => exact of_same (.refl rt)
  | internName interned => exact of_memory (internSelectorName_sameClassMemory interned)
  | enterSelector => exact of_memory ⟨rfl, rfl, rfl, rfl, rfl⟩
  | fillCache => exact of_same (cacheInsert_sameGraph rt _ _ _)
  | emptyCache => exact of_same (flushCache_sameGraph rt _)
  | replaceImp found => exact of_same (writeImp_sameGraph _ _)
  | prependNode => exact of_same (prependMethod_sameGraph _ _)
  | pushEntry => exact of_same (pushMethod_sameGraph _ _)
  | swapImps swapped => exact of_same (swapImplementations_sameGraph swapped)
  | @enterClass cls name =>
      have registers : O3jc.registerClass rt cls = some (insertClass rt cls name) := by
        simp [O3jc.registerClass, insertClass, known.2]
      obtain ⟨_, step⟩ := registerClass_spec registers
      refine ⟨step.graphInv inv known.1.1 known.1.2, step.isMetaclass, fun c => ?_, step.proj ObjcClass.name fun _ => rfl⟩
      rw [Runtime.Loaded, Runtime.Loaded, step.proj ObjcClass.dtable fun _ => rfl]

end Graph

section Outlines

variable {Obj Loc Stripe Shard : Type} [DecidableEq Obj] [DecidableEq Loc] (layout : Layout Obj Loc Stripe Shard)

/-- The class that user code registers. -/
def UserChoice.registers : UserChoice Obj Loc → Option ClassPtr
  | .call (.registerClassPair cls) => some cls
  | _ => none

omit [DecidableEq Obj] [DecidableEq Loc] in
theorem zeroFrom_registers (rt : Runtime) (obj : Obj) (locs : List Loc) : (zeroFrom obj locs).Registers rt := by
  cases locs <;> trivial

omit [DecidableEq Obj] [DecidableEq Loc] in
theorem enterNew_registers (rt : Runtime) (loc : Loc) (write : WeakWrite Obj) : (enterNew loc write).Registers rt := by
  unfold enterNew
  split <;> trivial

omit [DecidableEq Obj] [DecidableEq Loc] in
theorem RuntimeCall.begin_registers {rt : Runtime} {call : RuntimeCall Obj Loc}
    (known : ∀ cls ∈ (UserChoice.call call).registers, rt.Registrable cls) : call.begin.Registers rt := by
  cases call with
  | retain obj => cases obj <;> trivial
  | release obj => cases obj <;> trivial
  | registerClassPair cls => exact known cls rfl
  | _ => trivial

/-- Every action establishes what its thread knows of the class that it registers. -/
theorem Position.registers_step (position : Position Obj Loc) (d : Shared Obj Loc)
    (known : position.point.Registers d.rt) :
    match position.action layout with
    | .done => True
    | .choose next => ∀ choice, (∀ cls ∈ choice.registers, d.rt.Registrable cls) →
        ∀ chosen ∈ next choice, chosen.point.Registers d.rt
    | .access next => (next d).2.point.Registers d.rt
    | .acquire _ _ next => next.point.Registers d.rt
    | .release _ _ next => next.point.Registers d.rt := by
  obtain ⟨point, bodies⟩ := position
  cases point with
  | finished => trivial
  | user answer =>
      intro choice allowed chosen isChosen
      cases choice with
      | call call =>
          obtain rfl := Option.some.inj isChosen
          exact call.begin_registers allowed
      | «return» =>
          cases bodies with
          | nil =>
              obtain rfl := Option.some.inj isChosen
              trivial
          | cons obj rest =>
              obtain rfl := Option.some.inj isChosen
              trivial
  -- A registration
  | registerClass cls =>
      dsimp only [Position.action]
      split
      · exact ⟨known, ‹_›⟩
      · trivial
  | registryLock => exact known
  -- Points of other calls
  | retain | release | zero | remove | removed | writeWeak | unregister | register | registered | loadWeak | unlockSlot
  | selRegister | intern | interned | internPanicked | selPanicked | cacheRead | cacheFill | cacheReading | cacheFilling
  | cacheFilled | flushLock | flushed | flushAll | registryInserted | retaining | releasing | zeroing | removing
  | unregistering | clear | registering | selInsert | flushing | flushBelow | sweeping | registryInsert => trivial
  | zeroed obj loc rest => exact zeroFrom_registers d.rt obj rest
  | unregistered loc old write => exact enterNew_registers d.rt loc write
  | retained obj load result => cases load <;> trivial
  | initWeak loc obj => cases obj <;> trivial
  | selFound name sel caller => cases caller <;> trivial
  | cacheAnswered cls sel cached caller => cases cached <;> trivial
  | released obj weakLocations =>
      cases weakLocations with
      | none => trivial
      | some locs => exact zeroFrom_registers d.rt obj locs
  | writing loc write =>
      dsimp only [Position.action]
      split
      · exact enterNew_registers d.rt loc write
      · trivial
  | msgLookup receiver sel caller | walk cls sel caller | addMethod cls sel imp types replacing =>
      dsimp only [Position.action]
      split
      · trivial
      · split <;> trivial
  | loading loc | selEntry name caller | interning name caller | lookedUp imp caller | replaceMethod cls sel imp types
  | exchange m1 m2 =>
      dsimp only [Position.action]
      split <;> trivial
  | flush pending sweep answer =>
      cases pending with
      | cons cls pending =>
          dsimp only [Position.action]
          split <;> trivial
      | nil =>
          cases sweep with
          | none => trivial
          | some rest => cases rest <;> trivial

/-- The class graph is an invariant of the program when user code registers only loaded classes. -/
theorem graph_outline (image : List ClassPtr) :
    LockMachine.ProofOutline (Position.action layout) (Position.holds layout)
      (fun d choice => ∀ cls ∈ choice.registers, d.rt.Registrable cls) (fun _ d => GraphInv image d.rt)
      (fun _ position d => position.point.Registers d.rt) where
  mono _ inv := inv
  asserts_mono _ known := known
  own past position d visited inv known := by
    have registers := position.registers_step layout d known
    have changes := position.changes layout
    cases action : position.action layout with
    | access next =>
        rw [action] at registers changes
        obtain ⟨graph, same⟩ := (changes d).graph known inv
        exact ⟨graph, registers.kept same⟩
    | done => trivial
    | choose next | acquire lock mode next | release lock mode next =>
        rw [action] at registers
        exact registers
  others past position d next isAccess inv known other apart knows := by
    have changes := position.changes layout
    rw [isAccess] at changes
    exact knows.kept ((changes d).graph known inv).2

end Outlines

section Runs

variable {Tid Obj Loc Stripe Shard : Type} [DecidableEq Tid] [DecidableEq Obj] [DecidableEq Loc] [DecidableEq Stripe]
  [DecidableEq Shard] {layout : Layout Obj Loc Stripe Shard} {m : RuntimeMachine Tid Obj Loc Stripe Shard}

/-- User code registers only loaded classes. -/
def RuntimeMachine.RegistersLoaded (m : RuntimeMachine Tid Obj Loc Stripe Shard)
    (label : Tid × Option (UserChoice Obj Loc)) : Prop :=
  ∀ choice ∈ label.2, ∀ cls ∈ choice.registers, m.data.rt.Registrable cls

instance RuntimeMachine.decidableRegistersLoaded (m : RuntimeMachine Tid Obj Loc Stripe Shard)
    (label : Tid × Option (UserChoice Obj Loc)) : Decidable (m.RegistersLoaded label) :=
  inferInstanceAs (Decidable (∀ choice ∈ label.2, ∀ cls ∈ choice.registers, m.data.rt.Registrable cls))

/-- Where a choice of user code takes its thread, by the functions of the runtime. -/
def choiceEnd (layout : Layout Obj Loc Stripe Shard) (d : Shared Obj Loc) (bodies : List Obj) :
    UserChoice Obj Loc → Shared Obj Loc × Position Obj Loc
  | .call call => callEnd layout d bodies call
  | .return => returnEnd d bodies

/-- The class whose methods user code changes. -/
def UserChoice.mutated : UserChoice Obj Loc → Option ClassPtr
  | .call made => made.mutated
  | .return => none

omit [DecidableEq Tid] [DecidableEq Stripe] [DecidableEq Shard] in
/-- A choice goes to its first point, and from there it computes what its functions compute. -/
theorem choiceEnd_alone {image : List ClassPtr} {d : Shared Obj Loc} {bodies : List Obj} {choice : UserChoice Obj Loc}
    (inv : GraphInv image d.rt) (loaded : ∀ cls ∈ choice.mutated, d.rt.Loaded cls) (answer : RuntimeAnswer Obj) :
    ∃ next first, Position.action layout ⟨.user answer, bodies⟩ = .choose next ∧ next choice = some first ∧
      LockMachine.Runs (Position.action layout) (d, first) (choiceEnd layout d bodies choice) := by
  cases choice with
  | call call => exact ⟨_, _, rfl, rfl, callEnd_alone inv loaded⟩
  | «return» =>
      cases bodies with
      | nil => exact ⟨_, _, rfl, rfl, .refl _⟩
      | cons obj rest => exact ⟨_, _, rfl, rfl, returnEnd_alone obj⟩

/-- In every state of a concurrent run in which the other threads own no lock, a choice of user code computes what the
functions of the runtime compute. -/
theorem runtimeRun_computes {image : List ClassPtr} {start : Runtime} {d : Shared Obj Loc} {thread : Tid}
    {answer : RuntimeAnswer Obj} {bodies : List Obj} {choice : UserChoice Obj Loc} (static : StaticImage image start)
    (built : Reachable ClassOp.exec (ClassOp.Permitted image) start d.rt)
    (run : Reachable (LockMachine.step (Position.action layout)) RuntimeMachine.RegistersLoaded
      (RuntimeMachine.start d) m)
    (quiet : ∀ other, other ≠ thread → (m.point other).holds layout = [])
    (inUser : m.point thread = ⟨.user answer, bodies⟩) (loaded : ∀ cls ∈ choice.mutated, m.data.rt.Loaded cls) :
    ∃ chosen, m.step (Position.action layout) (thread, some choice) = some chosen ∧
      LockMachine.Ends (Position.action layout) (choiceEnd layout m.data bodies choice) chosen thread := by
  have initial : LockMachine.Outlined (Position.holds layout) RuntimeLock.MayTake (fun _ d => GraphInv image d.rt)
      (fun _ position d => position.point.Registers d.rt) {d}
      (RuntimeMachine.start d : RuntimeMachine Tid Obj Loc Stripe Shard) :=
    ⟨.start rfl, .start, rfl, (static.worldInv_of_run built).graph, fun _ => trivial⟩
  have outlined := initial.run (graph_outline layout image) (Position.respects layout) (fun _ _ allowed => allowed) run
  obtain ⟨next, first, isChoice, isFirst, runs⟩ := choiceEnd_alone outlined.invariant loaded answer
  have taken : m.step (Position.action layout) (thread, some choice) = some (m.enter thread first) := by
    rw [LockMachine.step]
    dsimp only
    rw [inUser, isChoice]
    exact congrArg (Option.map _) isFirst
  have others : ∀ other, other ≠ thread → ((m.enter thread first).point other).holds layout = [] := by
    intro other different
    have kept : (m.enter thread first).point other = m.point other := Function.update_of_ne different _ _
    rw [kept, quiet other different]
  have ordered := outlined.ordered.step (Position.respects layout) taken
  exact ⟨_, taken, runs.ends (Position.respects layout) RuntimeLock.not_mayTake_self ordered others
    (by simp [LockMachine.enter])⟩

end Runs

/-- Thread 1 stands between two locks of a deallocation when thread 0 releases another object, to which no class answers
`-dealloc`. -/
theorem runtimeRun_computes_dying : ∃ m chosen : RuntimeMachine Nat Nat Nat Nat Nat, ∃ d : Shared Nat Nat,
    (m.point 1).point = .zero 5 3 [] ∧ m.data.slots 3 = some 5 ∧ d.slots 3 = some 5 ∧
      m.step (Position.action collidingLayout) (0, some (.call (.release (some 6)))) = some chosen ∧
        LockMachine.Ends (Position.action collidingLayout) (d, ⟨.user .nothing, []⟩) chosen 0 := by
  let labels : List (Nat × Option (UserChoice Nat Nat)) :=
    [(1, some (.call (.storeWeak 3 (some 5))))] ++ List.replicate 6 (1, none) ++
      [(1, some (.call (.release (some 5))))] ++ List.replicate 3 (1, none)
  have ran : ∃ m ∈ replay (LockMachine.step (Position.action collidingLayout)) RuntimeMachine.RegistersLoaded
      (RuntimeMachine.start ⟨⟨fun _ => none, fun _ => none⟩, compiledTriple⟩ : RuntimeMachine Nat Nat Nat Nat Nat) labels,
      (m.point 1).point = .zero 5 3 [] ∧ m.data.slots 3 = some 5 ∧
        (∀ other, other ≠ 0 → (m.point other).holds collidingLayout = []) ∧ m.point 0 = ⟨.user .nothing, []⟩ ∧
          ∃ d, d.slots 3 = some 5 ∧
            choiceEnd collidingLayout m.data [] (.call (.release (some 6))) = (d, ⟨.user .nothing, []⟩) := by
    refine ⟨_, rfl, rfl, rfl, fun other different => ?_, rfl, _, ?_, rfl⟩
    · match other with
      | 0 => exact absurd rfl different
      | 1 => rfl
      | _ + 2 => rfl
    · rfl
  obtain ⟨m, replayed, dying, held, quiet, inUser, d, kept, computes⟩ := ran
  have loaded : ∀ cls ∈ UserChoice.mutated (.call (.release (some 6)) : UserChoice Nat Nat), m.data.rt.Loaded cls := by
    simp [UserChoice.mutated, RuntimeCall.mutated]
  obtain ⟨chosen, taken, ends⟩ := runtimeRun_computes compiledTriple_static .refl (reachable_of_replay replayed) quiet
    inUser loaded
  rw [computes] at ends
  exact ⟨m, chosen, d, dying, held, kept, taken, ends⟩

end O3jc
