import O3jc.Dispatch.Frame
import O3jc.Library.ProofOutline
import O3jc.Loading.Identity
import O3jc.Loading.Resolution
import O3jc.Locking.Accesses
import O3jc.Locking.Order

/-
This file proves that threads which register selector names at the same time get one selector for each name.
-/

namespace O3jc

open Library

/-- The later state keeps every selector and every binding of the selector tables. -/
structure KeepsSelectors (rt rt' : Runtime) : Prop extends Grows rt rt' where
  selTable : ∀ name sel, rt.selTable name = some sel → rt'.selTable name = some sel
  selectors : ∀ sel, sel < rt.nextSelector → rt'.selectors sel = rt.selectors sel

theorem KeepsSelectors.refl (rt : Runtime) : KeepsSelectors rt rt := ⟨.refl rt, fun _ _ found => found, fun _ _ => rfl⟩

theorem KeepsSelectors.trans {rt rt' rt'' : Runtime} (first : KeepsSelectors rt rt')
    (second : KeepsSelectors rt' rt'') : KeepsSelectors rt rt'' where
  toGrows := first.toGrows.trans second.toGrows
  selTable name sel found := second.selTable name sel (first.selTable name sel found)
  selectors sel below :=
    (second.selectors sel (Nat.lt_of_lt_of_le below first.nextSelector)).trans (first.selectors sel below)

section Changes

variable {Obj Loc : Type}

/-- What a thread knows of the selector tables between the lookup of a name and the drop of its shard. -/
def LockPoint.Interns (rt : Runtime) : LockPoint Obj Loc → Prop
  | .intern name _ => rt.selTable name = none
  | .interning name _ => rt.selTable name = none
  | .interned name ptr _ => rt.selTable name = none ∧ rt.nameTable name = some ptr
  | .selInsert name ptr _ => rt.selTable name = none ∧ rt.nameTable name = some ptr
  | .selFound name sel _ => rt.selTable name = some sel
  | .internPanicked name => CStr.ofStr name = none
  | .selPanicked name => CStr.ofStr name = none
  | _ => True

/-- The name whose shard of `SEL_TABLE` a thread holds. -/
def LockPoint.registers : LockPoint Obj Loc → Option String
  | .intern name _ => some name
  | .interning name _ => some name
  | .interned name _ _ => some name
  | .selInsert name _ _ => some name
  | .selFound name _ _ => some name
  | _ => none

variable {Stripe Shard : Type} (layout : Layout Obj Loc Stripe Shard)

theorem LockPoint.registers_holds {point : LockPoint Obj Loc} {name : String} (isName : point.registers = some name) :
    layout.selGuard name ∈ point.holds layout := by
  cases point with
  | intern n caller | interning n caller | interned n ptr caller | selInsert n ptr caller | selFound n sel caller =>
      obtain rfl := Option.some.inj isName
      simp [LockPoint.holds]
  | _ => contradiction

/-- What a thread knows survives while its own name stays and other names are only added. -/
theorem LockPoint.Interns.kept {rt rt' : Runtime} {point : LockPoint Obj Loc} (known : point.Interns rt)
    (sels : ∀ name, point.registers = some name → rt'.selTable name = rt.selTable name)
    (names : ∀ name ptr, rt.nameTable name = some ptr → rt'.nameTable name = some ptr) : point.Interns rt' := by
  cases point with
  | intern n caller => exact (sels n rfl).trans known
  | interning n caller => exact (sels n rfl).trans known
  | interned n ptr caller => exact ⟨(sels n rfl).trans known.1, names n ptr known.2⟩
  | selInsert n ptr caller => exact ⟨(sels n rfl).trans known.1, names n ptr known.2⟩
  | selFound n sel caller => exact (sels n rfl).trans known
  | _ => exact known

variable {base : Nat} {rt rt' : Runtime} {point : LockPoint Obj Loc}

theorem KeepsSelectors.of_memory (same : rt'.selectorMemory = rt.selectorMemory) : KeepsSelectors rt rt' := by
  obtain ⟨cStrings, nextCString, selectors, nextSelector, nameTable, selTable, _⟩ := rt
  obtain ⟨_, _, _, _, _, _, _⟩ := rt'
  cases same
  exact ⟨⟨fun _ _ => rfl, Nat.le_refl _, fun _ _ found => found, Nat.le_refl _⟩, fun _ _ found => found, fun _ _ => rfl⟩

/-- Only a thread that interns a name or enters a selector changes the selector memory. -/
theorem LockPoint.Changes.selectorMemory (changes : point.Changes rt rt') :
    rt'.selectorMemory = rt.selectorMemory ∨
      (∃ name caller ptr, point = .interning name caller ∧ internSelectorName rt name = some (rt', ptr)) ∨
      ∃ name ptr caller, point = .selInsert name ptr caller ∧ rt' = (insertSelector rt name ptr).1 := by
  cases changes with
  | internName interned => exact .inr (.inl ⟨_, _, _, rfl, interned⟩)
  | enterSelector => exact .inr (.inr ⟨_, _, _, rfl, rfl⟩)
  | @pushEntry cls sel imp types replacing =>
      refine .inl ?_
      simp only [Runtime.pushMethod, Runtime.headOrNew]
      cases (rt.classes cls).methodList.head <;> rfl
  | swapImps swapped =>
      simp only [swapImplementations, Option.bind_eq_bind, Option.bind_eq_some_iff, Option.some.injEq] at swapped
      obtain ⟨_, _, _, _, rfl⟩ := swapped
      exact .inl rfl
  | _ => exact .inl rfl

/-- The selector that is entered for an unregistered name joins the tables. -/
theorem SelInv.insertSelector {name : String} {ptr : CStrPtr} (inv : SelInv base rt)
    (absent : rt.selTable name = none) (interned : rt.nameTable name = some ptr) :
    SelInv base (insertSelector rt name ptr).1 ∧ KeepsSelectors rt (insertSelector rt name ptr).1 := by
  refine ⟨⟨inv.names, fun other sel found => ?_, inv.base.trans (Nat.le_succ _)⟩,
    ⟨⟨fun _ _ => rfl, Nat.le_refl _, fun _ _ found => found, Nat.le_succ _⟩, fun other sel found => ?_,
      fun sel below => Function.update_of_ne (Nat.ne_of_lt below) ..⟩⟩
  · simp only [O3jc.insertSelector] at found ⊢
    by_cases same : other = name
    · subst same
      rw [Function.update_self] at found
      obtain rfl := Option.some.inj found
      rw [Function.update_self, interned]
      exact ⟨inv.base, Nat.lt_succ_self _, rfl, rfl⟩
    · rw [Function.update_of_ne same] at found
      obtain ⟨above, below, bound, named⟩ := inv.sels other sel found
      rw [Function.update_of_ne (Nat.ne_of_lt below)]
      exact ⟨above, Nat.lt_succ_of_lt below, bound, named⟩
  · simp only [O3jc.insertSelector]
    rwa [Function.update_of_ne]
    rintro rfl
    rw [absent] at found
    contradiction

/-- Every change keeps the tables in step and everything that they hold. -/
theorem LockPoint.Changes.keeps (changes : point.Changes rt rt') (inv : SelInv base rt) (known : point.Interns rt) :
    SelInv base rt' ∧ KeepsSelectors rt rt' := by
  rcases changes.selectorMemory with same | ⟨name, caller, ptr, rfl, interned⟩ | ⟨name, ptr, caller, rfl, rfl⟩
  · exact ⟨inv.of_memory same, .of_memory same⟩
  · obtain ⟨inv', grows, _, _, selectors, _, table⟩ := internSelectorName_spec inv interned
    exact ⟨inv', grows, fun name sel found => by rwa [table], fun sel _ => by rw [selectors]⟩
  · exact inv.insertSelector known.1 known.2

/-- A change keeps what threads at other shards know. -/
theorem LockPoint.Changes.interns {other : LockPoint Obj Loc} (changes : point.Changes rt rt') (inv : SelInv base rt)
    (known : point.Interns rt) (apart : LockMachine.Compatible (LockPoint.holds layout) point other)
    (knows : other.Interns rt) : other.Interns rt' := by
  have keeps := (changes.keeps inv known).2
  refine knows.kept (fun name registers => ?_) keeps.table
  rcases changes.selectorMemory with same | ⟨n, caller, ptr, rfl, interned⟩ | ⟨n, ptr, caller, rfl, rfl⟩
  · exact congrFun (congrArg SelectorMemory.selTable same) name
  · obtain ⟨_, _, _, _, _, _, table⟩ := internSelectorName_spec inv interned
    rw [table]
  · have different : name ≠ n := by
      rintro rfl
      have shared := apart _ _ _ (LockPoint.registers_holds layout rfl) (LockPoint.registers_holds layout registers)
      exact absurd shared.1 (by simp)
    exact Function.update_of_ne different ..

end Changes

section Outlines

variable {Obj Loc Stripe Shard : Type} [DecidableEq Obj] [DecidableEq Loc] (layout : Layout Obj Loc Stripe Shard)

omit [DecidableEq Obj] [DecidableEq Loc] in
theorem zeroFrom_interns (rt : Runtime) (obj : Obj) (locs : List Loc) : (zeroFrom obj locs).Interns rt := by
  cases locs <;> trivial

omit [DecidableEq Obj] [DecidableEq Loc] in
theorem enterNew_interns (rt : Runtime) (loc : Loc) (write : WeakWrite Obj) : (enterNew loc write).Interns rt := by
  unfold enterNew
  split <;> trivial

omit [DecidableEq Obj] [DecidableEq Loc] in
theorem RuntimeCall.begin_interns (rt : Runtime) (call : RuntimeCall Obj Loc) : call.begin.Interns rt := by
  unfold RuntimeCall.begin
  split <;> trivial

/-- Every action establishes what its thread knows at the next point. -/
theorem Position.interns_step {base : Nat} (position : Position Obj Loc) (d : Shared Obj Loc)
    (inv : SelInv base d.rt) (known : position.point.Interns d.rt) :
    match position.action layout with
    | .done => True
    | .choose next => ∀ choice, ∀ chosen ∈ next choice, chosen.point.Interns d.rt
    | .access next => (next d).2.point.Interns (next d).1.rt
    | .acquire _ _ next => next.point.Interns d.rt
    | .release _ _ next => next.point.Interns d.rt := by
  obtain ⟨point, bodies⟩ := position
  cases point with
  | finished => trivial
  | user answer =>
      intro choice chosen isChosen
      cases choice with
      | call call =>
          obtain rfl := Option.some.inj isChosen
          exact call.begin_interns d.rt
      | «return» =>
          cases bodies with
          | nil =>
              obtain rfl := Option.some.inj isChosen
              trivial
          | cons obj rest =>
              obtain rfl := Option.some.inj isChosen
              trivial
  -- The registration of a name
  | intern | interned | internPanicked => exact known
  | selEntry name caller =>
      dsimp only [Position.action]
      split
      · assumption
      · assumption
  | interning name caller =>
      dsimp only [Position.action]
      split
      · rename_i rt ptr interned
        obtain ⟨_, _, _, bound, _, _, table⟩ := internSelectorName_spec inv interned
        exact ⟨by rw [table]; exact known, bound⟩
      · rename_i panicked
        cases encoded : CStr.ofStr name with
        | none => exact encoded
        | some cstr =>
            have total := internSelectorName_total d.rt (CStr.toStr_ofStr encoded)
            rw [panicked] at total
            contradiction
  | selInsert name ptr caller => exact Function.update_self ..
  | selFound name sel caller => cases caller <;> trivial
  -- Points of other calls
  | retain | release | zero | remove | removed | writeWeak | unregister | register | registered | loadWeak | unlockSlot
  | selRegister | selPanicked | cacheRead | cacheFill | cacheFilled | flushLock | flushed | flushAll | registryLock
  | registryInserted | retaining | releasing | zeroing | removing | unregistering | clear | registering | cacheReading
  | cacheFilling | flushing | flushBelow | sweeping | registryInsert => trivial
  | zeroed obj loc rest => exact zeroFrom_interns d.rt obj rest
  | unregistered loc old write => exact enterNew_interns d.rt loc write
  | retained obj load result => cases load <;> trivial
  | cacheAnswered cls sel cached caller => cases cached <;> trivial
  | initWeak loc obj => cases obj <;> trivial
  | released obj weakLocations =>
      cases weakLocations with
      | none => trivial
      | some locs => exact zeroFrom_interns d.rt obj locs
  | writing loc write =>
      dsimp only [Position.action]
      split
      · exact enterNew_interns d.rt loc write
      · trivial
  | loading loc =>
      dsimp only [Position.action]
      split <;> trivial
  | msgLookup receiver sel caller =>
      dsimp only [Position.action]
      split
      · trivial
      · split <;> trivial
  | walk cls sel caller =>
      dsimp only [Position.action]
      split
      · trivial
      · split <;> trivial
  | lookedUp imp caller =>
      dsimp only [Position.action]
      split <;> trivial
  | replaceMethod cls sel imp types =>
      dsimp only [Position.action]
      split <;> trivial
  | addMethod cls sel imp types replacing =>
      dsimp only [Position.action]
      split
      · trivial
      · split <;> trivial
  | flush pending sweep answer =>
      cases pending with
      | cons cls pending =>
          dsimp only [Position.action]
          split <;> trivial
      | nil =>
          cases sweep with
          | none => trivial
          | some rest => cases rest <;> trivial
  | exchange m1 m2 =>
      dsimp only [Position.action]
      split <;> trivial
  | registerClass cls =>
      dsimp only [Position.action]
      split <;> trivial

/-- The outline of interning. -/
theorem interning_outline (base : Nat) :
    LockMachine.ProofOutline (Position.action layout) (Position.holds layout) (fun _ _ => True)
      (fun _ d => SelInv base d.rt) (fun _ position d => position.point.Interns d.rt) where
  mono _ inv := inv
  asserts_mono _ known := known
  own past position d visited inv known := by
    have step := position.interns_step layout d inv known
    have changes := position.changes layout
    cases action : position.action layout with
    | access next =>
        rw [action] at step changes
        exact ⟨((changes d).keeps inv known).1, step⟩
    | done => trivial
    | choose next =>
        rw [action] at step
        exact fun choice _ => step choice
    | acquire lock mode next => rwa [action] at step
    | release lock mode next => rwa [action] at step
  others past position d next isAccess inv known other apart knows := by
    have changes := position.changes layout
    rw [isAccess] at changes
    exact (changes d).interns layout inv known apart knows

/-- Where a thread stands in a registration of the name that user code has called, and what it knows of its end. -/
def LockPoint.RegistersName (name : String) (rt : Runtime) : LockPoint Obj Loc → Prop
  | .selRegister n caller => n = name ∧ caller = .user
  | .selEntry n caller => n = name ∧ caller = .user
  | .intern n caller => n = name ∧ caller = .user
  | .interning n caller => n = name ∧ caller = .user
  | .interned n _ caller => n = name ∧ caller = .user
  | .selInsert n _ caller => n = name ∧ caller = .user
  | .selFound n _ caller => n = name ∧ caller = .user
  | .internPanicked n => n = name
  | .selPanicked n => n = name
  | .user answer => ∃ sel, answer = .sel sel ∧ rt.selTable name = some sel
  | .finished => CStr.ofStr name = none
  | _ => False

omit [DecidableEq Obj] [DecidableEq Loc] in
theorem LockPoint.RegistersName.kept {rt rt' : Runtime} {point : LockPoint Obj Loc} {name : String}
    (known : point.RegistersName name rt) (keeps : KeepsSelectors rt rt') : point.RegistersName name rt' := by
  cases point with
  | user answer =>
      obtain ⟨sel, isAnswer, bound⟩ := known
      exact ⟨sel, isAnswer, keeps.selTable name sel bound⟩
  | _ => exact known

/-- A registration carries its name from point to point. -/
theorem registration_outline (base : Nat) (name : String) :
    LockMachine.ChoiceOutline (Position.action layout) (fun _ d => SelInv base d.rt)
      (fun _ position d => position.point.Interns d.rt)
      (fun _ (position : Position Obj Loc) d => position.point.RegistersName name d.rt) where
  mono _ known := known
  own past position d visited inv known serves := by
    obtain ⟨point, bodies⟩ := position
    cases point with
    | user | finished => trivial
    | selRegister | intern | interned | internPanicked | selInsert => exact serves
    | selEntry n caller =>
        dsimp only [Position.action]
        split <;> exact serves
    | interning n caller =>
        dsimp only [Position.action]
        split
        · exact serves
        · exact serves.1
    | selFound n sel caller =>
        obtain ⟨rfl, rfl⟩ := serves
        exact ⟨sel, rfl, known⟩
    | selPanicked n =>
        obtain rfl : n = name := serves
        exact known
    | _ => exact serves.elim
  others past position d next isAccess inv known other serves := by
    have changes := position.changes layout
    rw [isAccess] at changes
    exact serves.kept ((changes d).keeps inv known).2

end Outlines

section Runs

variable {Tid Obj Loc Stripe Shard : Type} [DecidableEq Tid] [DecidableEq Obj] [DecidableEq Loc] [DecidableEq Stripe]
  [DecidableEq Shard] {layout : Layout Obj Loc Stripe Shard} {m later : RuntimeMachine Tid Obj Loc Stripe Shard}

variable (layout) in
/-- A call of the thread has registered the name, and the thread has got the selector. -/
def RuntimeMachine.Registered (start m : RuntimeMachine Tid Obj Loc Stripe Shard) (thread : Tid) (name : String)
    (sel : SEL) : Prop :=
  ∃ before, Reachable (LockMachine.step (Position.action layout)) (fun _ _ => True) start before ∧
    RuntimeMachine.Answered layout (fun _ _ => True) thread (.selRegisterNameStr name) before m (.sel sel)

variable (layout m later) in
/-- What holds of the selectors that threads get in one state of a run and in a later one. -/
structure RuntimeMachine.Interned (start : RuntimeMachine Tid Obj Loc Stripe Shard) : Prop where
  /-- The selectors that two registrations return, in any threads, are equal exactly when their names are. -/
  identifies : ∀ t t' a b s s', start.Registered layout m t a s → start.Registered layout later t' b s' →
    (s = s' ↔ a = b) ∧ (selEq later.data.rt s s' = true ↔ a = b)
  /-- The selector that a registration returns spells its name now and later. -/
  spells : ∀ t a s, start.Registered layout m t a s → ∃ ptr, selGetName m.data.rt s = some ptr ∧
    selGetName later.data.rt s = some ptr ∧ (later.data.rt.cStrings ptr).toStr = some a
  /-- No selector that exists ever changes. -/
  stable : ∀ s, s < m.data.rt.nextSelector → later.data.rt.selectors s = m.data.rt.selectors s
  /-- A registration that returns gives a selector. -/
  answers : ∀ t a before answer, Reachable (LockMachine.step (Position.action layout)) (fun _ _ => True) start before →
    RuntimeMachine.Answered layout (fun _ _ => True) t (.selRegisterNameStr a) before m answer →
    ∃ s, answer = .sel s
  /-- Only a registration of a name with an interior null panics. -/
  panics : ∀ t a before, Reachable (LockMachine.step (Position.action layout)) (fun _ _ => True) start before →
    Since (LockMachine.step (Position.action layout)) (fun _ _ => True) (t, some (.call (.selRegisterNameStr a)))
      (LockMachine.GoesOn t) before m → (m.point t).point = .finished → CStr.ofStr a = none

omit [DecidableEq Obj] [DecidableEq Loc] in
/-- The threads start with what the outline asserts. -/
theorem interning_start {base : Nat} {d : Shared Obj Loc} (inv : SelInv base d.rt) :
    LockMachine.Outlined (Position.holds layout) RuntimeLock.MayTake (fun _ d => SelInv base d.rt)
      (fun _ position d => position.point.Interns d.rt) {d}
      (RuntimeMachine.start d : RuntimeMachine Tid Obj Loc Stripe Shard) :=
  ⟨.start rfl, .start, rfl, inv, fun _ => trivial⟩

/-- A registration in progress, or at its end, has the name of its call. -/
theorem registration_names {base : Nat} {d : Shared Obj Loc} (inv : SelInv base d.rt) {thread : Tid} {name : String}
    {before : RuntimeMachine Tid Obj Loc Stripe Shard}
    (run : Reachable (LockMachine.step (Position.action layout)) (fun _ _ => True) (RuntimeMachine.start d) before)
    (since : Since (LockMachine.step (Position.action layout)) (fun _ _ => True)
      (thread, some (.call (.selRegisterNameStr name))) (LockMachine.GoesOn thread) before m) :
    (m.point thread).point.RegistersName name m.data.rt := by
  obtain ⟨called, _, result, goesOn⟩ := since
  have outlined := (interning_start inv).run (interning_outline layout base) (Position.respects layout)
    (fun _ _ _ _ _ => trivial) (run.tail trivial result)
  refine outlined.goesOn (interning_outline layout base) (Position.respects layout) (fun _ _ _ _ _ => trivial)
    (registration_outline layout base name) ?_ goesOn
  obtain ⟨rfl, _⟩ := RuntimeMachine.step_call result
  simp only [LockMachine.enter, Function.update_self]
  exact ⟨rfl, rfl⟩

/-- Threads that register names at the same time agree on one selector for each name, whatever other calls they make. -/
theorem internRun_identifies {base : Nat} {d : Shared Obj Loc} (inv : SelInv base d.rt)
    (before : Reachable (LockMachine.step (Position.action layout)) (fun _ _ => True) (RuntimeMachine.start d) m)
    (after : Reachable (LockMachine.step (Position.action layout)) (fun _ _ => True) m later) :
    RuntimeMachine.Interned layout m later (RuntimeMachine.start d) := by
  have first := (interning_start inv).run (interning_outline layout base) (Position.respects layout)
    (fun _ _ _ _ _ => trivial) before
  have second := first.run (interning_outline layout base) (Position.respects layout) (fun _ _ _ _ _ => trivial) after
  have keeps : KeepsSelectors m.data.rt later.data.rt := by
    refine first.related (interning_outline layout base) (Position.respects layout)
      (fun _ _ _ _ _ => trivial) (fun d d' => KeepsSelectors d.rt d'.rt) (fun _ => .refl _)
      (fun one other => one.trans other) ?_ after
    intro past position d next isAccess inv known
    have changes := position.changes layout
    rw [isAccess] at changes
    exact ((changes d).keeps inv known).2
  have bound : ∀ {state : RuntimeMachine Tid Obj Loc Stripe Shard} {t a s},
      (RuntimeMachine.start d).Registered layout state t a s → state.data.rt.selTable a = some s := by
    rintro state t a s ⟨made, run, since, isAnswer⟩
    have names := registration_names inv run since
    rw [isAnswer] at names
    obtain ⟨sel, same, found⟩ := names
    obtain rfl := RuntimeAnswer.sel.inj same
    exact found
  refine ⟨fun t t' a b s s' found found' => ?_, fun t a s found => ?_, keeps.selectors,
    fun t a made answer run answered => ?_, fun t a made run since panicked => ?_⟩
  · have one := keeps.selTable a s (bound found)
    have other := bound found'
    obtain ⟨_, _, interned, named⟩ := second.invariant.sels a s one
    obtain ⟨_, _, _, named'⟩ := second.invariant.sels b s' other
    have sameName : (later.data.rt.selectors s).name = (later.data.rt.selectors s').name ↔ a = b := by
      rw [named, named']
      exact ⟨second.invariant.injective interned, fun same => by rw [same]⟩
    refine ⟨⟨fun same => sameName.mp (by rw [same]), ?_⟩, ?_⟩
    · rintro rfl
      exact Option.some.inj (one.symm.trans other)
    · rw [selEq, selNamePtr, selNamePtr, beq_iff_eq]
      exact sameName
  · obtain ⟨_, below, bound, named⟩ := first.invariant.sels a s (bound found)
    obtain ⟨ptr, interned⟩ := Option.isSome_iff_exists.mp bound
    refine ⟨ptr, named.trans interned, ?_, (second.invariant.names a ptr (keeps.table a ptr interned)).2⟩
    rw [selGetName, selNamePtr, keeps.selectors s below, named, interned]
  · have names := registration_names inv run answered.1
    rw [answered.2] at names
    obtain ⟨s, isAnswer, _⟩ := names
    exact ⟨s, isAnswer⟩
  · have names := registration_names inv run since
    rwa [panicked] at names

end Runs

/-- Thread 1 waits for the shard when the registration of thread 0 returns, and gets the selector of thread 0. -/
theorem internRun_identifies_compiledPair : ∃ start m later : RuntimeMachine Nat Nat Nat Nat Nat,
    m.Waits (Position.action collidingLayout) 1 (.sel 0) .exclusive ∧ start.Registered collidingLayout m 0 "h" 3 ∧
      start.Registered collidingLayout later 1 "h" 3 ∧ RuntimeMachine.Interned collidingLayout m later start := by
  have inv : SelInv 3 compiledPair := compiledPair_selectors.identityInv.sel
  let start : RuntimeMachine Nat Nat Nat Nat Nat := RuntimeMachine.start ⟨⟨fun _ => none, fun _ => none⟩, compiledPair⟩
  let step : RuntimeMachine Nat Nat Nat Nat Nat → _ := LockMachine.step (Position.action collidingLayout)
  let goesOn (_ : RuntimeMachine Nat Nat Nat Nat Nat) (label : Nat × Option (UserChoice Nat Nat)) : Prop :=
    LockMachine.GoesOn 0 label ∧ LockMachine.GoesOn 1 label
  have ran : ∃ called ∈ step start (0, some (.call (.selRegisterNameStr "h"))), (called.point 1).bodies = [] ∧
      ∃ both ∈ step called (1, some (.call (.selRegisterNameStr "h"))),
        ∃ m ∈ replay step goesOn both (List.replicate 7 (0, none)), m.point 0 = ⟨.user (.sel 3), []⟩ ∧
          m.Waits (Position.action collidingLayout) 1 (.sel 0) .exclusive ∧
            ∃ later ∈ replay step goesOn m (List.replicate 3 (1, none)), later.point 1 = ⟨.user (.sel 3), []⟩ :=
    ⟨_, rfl, rfl, _, rfl, _, rfl, rfl, ⟨_, rfl⟩, _, rfl, rfl⟩
  obtain ⟨called, first, bodies, both, second, m, third, answer, waits, later, fourth, answer'⟩ := ran
  have run := reachable_of_replay third
  have run' := reachable_of_replay fourth
  have goes {t : Nat} (chosen : t ≠ 1) : LockMachine.GoesOn t ((1, some (.call (.selRegisterNameStr "h"))) :
      Nat × Option (UserChoice Nat Nat)) := fun same => absurd same.symm chosen
  have before : Reachable step (fun _ _ => True) start m :=
    ((Reachable.single trivial first).tail trivial second).trans (run.mono fun _ _ _ => trivial)
  refine ⟨start, m, later, waits, ⟨start, .refl, ⟨called, trivial, first, ?_⟩, answer⟩,
    ⟨called, .single trivial first, ⟨both, trivial, second, ?_⟩, by rw [answer', bodies]⟩,
    internRun_identifies inv before (run'.mono fun _ _ _ => trivial)⟩
  · exact (Reachable.single ⟨trivial, goes (by decide)⟩ second).trans (run.mono fun _ _ both => ⟨trivial, both.1⟩)
  · exact (run.trans run').mono fun _ _ both => ⟨trivial, both.2⟩

end O3jc
