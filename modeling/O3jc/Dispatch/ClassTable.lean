import O3jc.Dispatch.World

/-
This file says when the class table is faithful to the registrations and keeps its answers.
-/

namespace O3jc

open Library

/-- The calls that allocate classes and enter them into the table. -/
inductive TableOp where
  | allocateClassPair (superclass : Option ClassPtr) (name : CStr)
  | registerClassPair (cls : ClassPtr)
  | registerLoadedClass (cls : ClassPtr)

/-- A process with the classes that were registered so far. -/
structure ClassTable where
  rt : Runtime
  registered : List ClassPtr

def TableOp.exec (state : ClassTable) : TableOp → Option ClassTable
  | .allocateClassPair superclass name =>
      (objcAllocateClassPair state.rt superclass name).map fun (rt, _) => { state with rt }
  | .registerClassPair cls => (objcRegisterClassPair state.rt cls).map fun rt => ⟨rt, cls :: state.registered⟩
  | .registerLoadedClass cls => (O3jc.registerLoadedClass state.rt cls).map fun rt => ⟨rt, cls :: state.registered⟩

/-- The class that a registration enters. -/
def TableOp.registers : TableOp → Option ClassPtr
  | .allocateClassPair _ _ => none
  | .registerClassPair cls => some cls
  | .registerLoadedClass cls => some cls

/-- Callers pass pointers to allocated classes. -/
def TableOp.Permitted (state : ClassTable) : TableOp → Prop
  | .allocateClassPair superclass _ => ∀ s ∈ superclass, s < state.rt.nextClass
  | .registerClassPair cls => cls < state.rt.nextClass
  | .registerLoadedClass cls => cls < state.rt.nextClass

instance TableOp.decidablePermitted (state : ClassTable) (op : TableOp) : Decidable (op.Permitted state) :=
  match op with
  | .allocateClassPair _ _ => inferInstanceAs (Decidable (∀ s ∈ _, s < _))
  | .registerClassPair _ => inferInstanceAs (Decidable (_ < _))
  | .registerLoadedClass _ => inferInstanceAs (Decidable (_ < _))

/-- The table does not hold another class under the name of the class that is to be registered. -/
def TableOp.KeepsNames (state : ClassTable) (op : TableOp) : Prop :=
  ∀ cls ∈ op.registers, ∀ name ∈ (state.rt.classes cls).name.toStr, ∀ holder ∈ objcGetClassStr state.rt name,
    holder = cls

instance TableOp.decidableKeepsNames (state : ClassTable) (op : TableOp) : Decidable (op.KeepsNames state) :=
  inferInstanceAs (Decidable (∀ cls ∈ _, ∀ name ∈ _, ∀ holder ∈ _, holder = cls))

/-- Some registered class has the name, byte for byte. -/
def ClassTable.Names (state : ClassTable) (name : CStr) : Prop :=
  ∃ cls ∈ state.registered, (state.rt.classes cls).name = name

/-- The lookup finds a class exactly when one was registered under the name, and finds a class with the name. -/
def ClassTable.Faithful (state : ClassTable) (name : CStr) : Prop :=
  ((objcGetClass state.rt name).isSome = true ↔ state.Names name) ∧
    ∀ cls, objcGetClass state.rt name = some cls →
      (state.rt.classes cls).name = name ∧ (state.rt.classes cls).isRegistered = true

/-- Every answer of the first state is the answer of the second one, whose sweep reaches the class. -/
def ClassTable.Stable (state next : ClassTable) : Prop :=
  ∀ name cls, objcGetClass state.rt name = some cls →
    objcGetClass next.rt name = some cls ∧ cls ∈ flushAllOrder next.rt

section Lookup

variable {registry : List (String × ClassPtr)} {rt : Runtime}

theorem mem_of_objcGetClassStr {name : String} {cls : ClassPtr} (found : objcGetClassStr rt name = some cls) :
    (name, cls) ∈ rt.classRegistry := by
  obtain ⟨entry, isFirst, rfl⟩ := Option.map_eq_some_iff.mp found
  have key := List.find?_some isFirst
  obtain rfl : entry.1 = name := by simpa using key
  exact List.mem_of_find?_eq_some isFirst

theorem objcGetClassStr_of_mem {entry : String × ClassPtr} (member : entry ∈ rt.classRegistry) :
    (objcGetClassStr rt entry.1).isSome = true := by
  rw [objcGetClassStr, Option.isSome_map, List.find?_isSome]
  exact ⟨entry, member, by simp⟩

/-- An insertion answers its own name with its class and leaves every other answer. -/
theorem find_registryInsert (name other : String) (cls : ClassPtr) :
    ((registryInsert registry name cls).find? fun entry => entry.1 == other).map Prod.snd =
      if other = name then some cls else (registry.find? fun entry => entry.1 == other).map Prod.snd := by
  rw [registryInsert, List.find?_cons]
  by_cases same : other = name
  · simp [same]
  · have apart : (name == other) = false := by simpa using Ne.symm same
    have predicate : (fun entry : String × ClassPtr => decide ((entry.1 != name) = true ∧ (entry.1 == other) = true)) =
        fun entry => entry.1 == other := by
      funext entry
      by_cases key : entry.1 = other
      · simp [key, same]
      · simp [key]
    rw [if_neg same, apart, List.find?_filter, predicate]

end Lookup

/-- The table holds registered classes under their names, and some class for every registered name. -/
structure TableInv (state : ClassTable) : Prop where
  sound : ∀ entry ∈ state.rt.classRegistry, entry.2 ∈ state.registered ∧
    (state.rt.classes entry.2).name.toStr = some entry.1
  complete : ∀ cls ∈ state.registered, ∃ entry ∈ state.rt.classRegistry,
    (state.rt.classes cls).name.toStr = some entry.1
  flagged : ∀ cls ∈ state.registered, cls < state.rt.nextClass ∧ (state.rt.classes cls).isRegistered = true

section Steps

variable {state next : ClassTable}

/-- What a class is found under is its name, unless the bytes do not decode. -/
theorem TableInv.found (inv : TableInv state) {name : CStr} {cls : ClassPtr}
    (answer : objcGetClass state.rt name = some cls) :
    (name.toStr.getD "", cls) ∈ state.rt.classRegistry ∧ cls ∈ state.registered ∧
      (state.rt.classes cls).name.toStr = some (name.toStr.getD "") := by
  have member := mem_of_objcGetClassStr answer
  exact ⟨member, inv.sound _ member⟩

/-- A class that the table holds is reached by the sweep over the table. -/
theorem TableInv.swept (inv : TableInv state) {entry : String × ClassPtr} (member : entry ∈ state.rt.classRegistry) :
    entry.2 ∈ flushAllOrder state.rt := by
  rw [flushAllOrder, List.mem_flatMap]
  have below := (inv.flagged entry.2 (inv.sound entry member).1).1
  exact ⟨entry, member, preorder_self _ (Nat.zero_lt_of_lt below) _⟩

/-- An allocation keeps the registered classes, their names and their flags. -/
theorem TableInv.allocate (inv : TableInv state) {superclass : Option ClassPtr} {name : CStr} {rt' : Runtime}
    (step : Allocated state.rt rt' superclass name) : TableInv { state with rt := rt' } := by
  have old : ∀ {B : Type} (project : ObjcClass → B), (∀ c head, project { c with subclassList := head } = project c) →
      ∀ cls ∈ state.registered, project (rt'.classes cls) = project (state.rt.classes cls) := by
    intro B project kept cls member
    exact step.keep_proj project kept (Runtime.notFresh_of_lt (inv.flagged cls member).1)
  refine ⟨fun entry member => ?_, fun cls member => ?_, fun cls member => ?_⟩
  · dsimp only at member ⊢
    rw [step.registry] at member
    obtain ⟨isRegistered, named⟩ := inv.sound entry member
    rw [old ObjcClass.name (fun _ _ => rfl) _ isRegistered]
    exact ⟨isRegistered, named⟩
  · dsimp only
    rw [step.registry, old ObjcClass.name (fun _ _ => rfl) cls member]
    exact inv.complete cls member
  · obtain ⟨below, flag⟩ := inv.flagged cls member
    dsimp only
    rw [step.nextClass, old ObjcClass.isRegistered (fun _ _ => rfl) cls member]
    exact ⟨Nat.lt_of_lt_of_le below (Nat.le_add_right _ 2), flag⟩

theorem TableInv.register (inv : TableInv state) {cls : ClassPtr} {name : String} {rt' : Runtime}
    (below : cls < state.rt.nextClass) (step : Registered state.rt rt' cls name) :
    TableInv ⟨rt', cls :: state.registered⟩ := by
  have names : ∀ c, (rt'.classes c).name = (state.rt.classes c).name := step.proj ObjcClass.name fun _ => rfl
  refine ⟨fun entry member => ?_, fun c member => ?_, fun c member => ?_⟩
  · dsimp only at member ⊢
    rw [names]
    rw [step.registry] at member
    rcases mem_registryInsert member with rfl | before
    · exact ⟨List.mem_cons_self, step.named⟩
    · obtain ⟨isRegistered, named⟩ := inv.sound entry before
      exact ⟨List.mem_cons_of_mem _ isRegistered, named⟩
  · dsimp only
    rw [names, step.registry]
    rcases List.mem_cons.mp member with rfl | before
    · exact ⟨(name, c), List.mem_cons_self, step.named⟩
    · obtain ⟨entry, inside, named⟩ := inv.complete c before
      obtain ⟨other, kept, key⟩ := registryInsert_key name cls inside
      exact ⟨other, kept, key ▸ named⟩
  · dsimp only
    rw [step.nextClass, step.isRegistered_iff]
    rcases List.mem_cons.mp member with rfl | before
    · exact ⟨below, .inl rfl⟩
    · exact ⟨(inv.flagged c before).1, .inr (inv.flagged c before).2⟩

/-- A permitted call allocates, or registers one class. -/
theorem TableOp.cases {op : TableOp} (allowed : op.Permitted state) (result : op.exec state = some next) :
    (∃ superclass name rt', op.registers = none ∧ next = { state with rt := rt' } ∧
      Allocated state.rt rt' superclass name) ∨
    ∃ cls name rt', op.registers = some cls ∧ cls < state.rt.nextClass ∧ next = ⟨rt', cls :: state.registered⟩ ∧
      Registered state.rt rt' cls name := by
  cases op with
  | allocateClassPair superclass name =>
      obtain ⟨⟨rt', cls⟩, allocated, rfl⟩ := Option.map_eq_some_iff.mp result
      obtain ⟨_, step⟩ := objcAllocateClassPair_spec (fun s link => allowed s link) allocated
      exact .inl ⟨superclass, name, rt', rfl, rfl, step⟩
  | registerClassPair cls =>
      obtain ⟨rt', registered, rfl⟩ := Option.map_eq_some_iff.mp result
      obtain ⟨name, step⟩ := registerClass_spec registered
      exact .inr ⟨cls, name, rt', rfl, allowed, rfl, step⟩
  | registerLoadedClass cls =>
      obtain ⟨rt', registered, rfl⟩ := Option.map_eq_some_iff.mp result
      obtain ⟨name, step⟩ := registerClass_spec registered
      exact .inr ⟨cls, name, rt', rfl, allowed, rfl, step⟩

theorem TableInv.step (inv : TableInv state) {op : TableOp} (allowed : op.Permitted state)
    (result : op.exec state = some next) : TableInv next := by
  rcases TableOp.cases allowed result with ⟨_, _, rt', _, rfl, step⟩ | ⟨cls, name, rt', _, below, rfl, step⟩
  · exact inv.allocate step
  · exact inv.register below step

/-- A lookup answers exactly when a registered class has the name that is looked up. -/
theorem TableInv.get_isSome_iff (inv : TableInv state) (name : CStr) :
    (objcGetClass state.rt name).isSome = true ↔
      ∃ cls ∈ state.registered, (state.rt.classes cls).name.toStr = some (name.toStr.getD "") := by
  constructor
  · intro answered
    obtain ⟨cls, answer⟩ := Option.isSome_iff_exists.mp answered
    obtain ⟨_, isRegistered, named⟩ := inv.found answer
    exact ⟨cls, isRegistered, named⟩
  · rintro ⟨cls, isRegistered, named⟩
    obtain ⟨entry, member, key⟩ := inv.complete cls isRegistered
    have same : name.toStr.getD "" = entry.1 := Option.some.inj (named.symm.trans key)
    rw [objcGetClass, same]
    exact objcGetClassStr_of_mem member

/-- For a name that decodes, having the text is having the bytes. -/
theorem ClassTable.names_iff {name : CStr} {text : String} (decoded : name.toStr = some text) :
    state.Names name ↔ ∃ cls ∈ state.registered, (state.rt.classes cls).name.toStr = some text := by
  constructor
  · rintro ⟨cls, isRegistered, same⟩
    exact ⟨cls, isRegistered, same ▸ decoded⟩
  · rintro ⟨cls, isRegistered, named⟩
    exact ⟨cls, isRegistered, CStr.eq_of_toStr named decoded⟩

/-- The lookup is faithful unless the bytes do not decode and a class has the empty name. -/
theorem TableInv.faithful_iff (inv : TableInv state) (name : CStr) :
    state.Faithful name ↔ name.toStr.isSome = true ∨ ¬ state.Names .empty := by
  have emptyText : CStr.empty.toStr = some "" := by decide +kernel
  cases decoded : name.toStr with
  | some text =>
      refine iff_of_true ⟨?_, fun cls answer => ?_⟩ (.inl rfl)
      · rw [inv.get_isSome_iff, ClassTable.names_iff decoded, decoded, Option.getD_some]
      · obtain ⟨_, isRegistered, named⟩ := inv.found answer
        rw [decoded, Option.getD_some] at named
        exact ⟨CStr.eq_of_toStr named decoded, (inv.flagged cls isRegistered).2⟩
  | none =>
      have unnamed : ¬ state.Names name := by
        rintro ⟨cls, isRegistered, same⟩
        obtain ⟨_, _, named⟩ := inv.complete cls isRegistered
        rw [same, decoded] at named
        exact absurd named (by simp)
      have answers : (objcGetClass state.rt name).isSome = true ↔ state.Names .empty := by
        rw [inv.get_isSome_iff, ClassTable.names_iff emptyText, decoded, Option.getD_none]
      constructor
      · intro faithful
        exact .inr fun named => unnamed (faithful.1.mp (answers.mpr named))
      · intro condition
        have noEmpty := condition.resolve_left (by simp)
        have silent : ¬ (objcGetClass state.rt name).isSome = true := fun answered => noEmpty (answers.mp answered)
        refine ⟨iff_of_false silent unnamed, fun cls answer => ?_⟩
        exact absurd (Option.isSome_iff_exists.mpr ⟨cls, answer⟩) silent

/-- A permitted call keeps every answer exactly when it does not enter a class under the name of another one. -/
theorem TableInv.stable_iff (inv : TableInv state) {op : TableOp} (allowed : op.Permitted state)
    (result : op.exec state = some next) : state.Stable next ↔ op.KeepsNames state := by
  have after := inv.step allowed result
  have swept : ∀ {name : CStr} {cls : ClassPtr}, objcGetClass next.rt name = some cls →
      cls ∈ flushAllOrder next.rt := fun answer => after.swept (after.found answer).1
  rcases TableOp.cases allowed result with ⟨_, _, rt', enters, rfl, step⟩ | ⟨cls, text, rt', enters, _, rfl, step⟩
  · refine iff_of_true (fun name cls answer => ?_) (by simp [TableOp.KeepsNames, enters])
    have kept : objcGetClass rt' name = some cls := by
      rw [← answer, objcGetClass, objcGetClassStr, step.registry]
      rfl
    exact ⟨kept, swept kept⟩
  · have answers : ∀ name : String, objcGetClassStr rt' name =
        if name = text then some cls else objcGetClassStr state.rt name := by
      intro name
      rw [objcGetClassStr, step.registry, find_registryInsert]
      rfl
    constructor
    · intro stable c isTarget name named holder held
      obtain rfl : cls = c := Option.some.inj (enters.symm.trans isTarget)
      obtain rfl : text = name := Option.some.inj (step.named.symm.trans named)
      have answer : objcGetClass state.rt (state.rt.classes cls).name = some holder := by
        rw [objcGetClass, named, Option.getD_some]
        exact held
      have later := (stable _ _ answer).1
      rw [objcGetClass, named, Option.getD_some, answers, if_pos rfl] at later
      exact (Option.some.inj later).symm
    · intro keeps name holder answer
      have kept : objcGetClass rt' name = some holder := by
        rw [objcGetClass, answers]
        split
        · rename_i same
          rw [objcGetClass, same] at answer
          rw [keeps cls enters text step.named holder answer]
        · exact answer
      exact ⟨kept, swept kept⟩

/-- Calls that keep the names keep every answer. -/
theorem TableInv.stable_of_run (inv : TableInv state)
    (run : Reachable TableOp.exec (fun state op => op.Permitted state ∧ op.KeepsNames state) state next) :
    state.Stable next := by
  have both : TableInv next ∧ state.Stable next := by
    refine run.invariant (fun next => TableInv next ∧ state.Stable next) ⟨inv, fun name cls answer => ?_⟩ ?_
    · exact ⟨answer, inv.swept (inv.found answer).1⟩
    · rintro middle op next ⟨before, stable⟩ ⟨allowed, keeps⟩ result
      have now := (before.stable_iff allowed result).mpr keeps
      exact ⟨before.step allowed result, fun name cls answer => now name cls (stable name cls answer).1⟩
  exact both.2

end Steps

theorem TableInv.start {rt0 : Runtime} (empty : rt0.classRegistry = []) : TableInv ⟨rt0, []⟩ where
  sound entry member := by
    rw [empty] at member
    exact absurd member List.not_mem_nil
  complete _ member := absurd member List.not_mem_nil
  flagged _ member := absurd member List.not_mem_nil

theorem TableInv.of_run {rt0 : Runtime} (empty : rt0.classRegistry = []) {state : ClassTable}
    (run : Reachable TableOp.exec (fun state op => op.Permitted state) ⟨rt0, []⟩ state) : TableInv state :=
  run.invariant TableInv (.start empty) fun _ _ _ inv allowed result => inv.step allowed result

/-- In every run a lookup is faithful unless the bytes do not decode and a class has the empty name, and a
call keeps the answers exactly when it enters no class under the name of another one. -/
theorem classTable_faithful_stable {rt0 : Runtime} (empty : rt0.classRegistry = []) {state : ClassTable}
    (run : Reachable TableOp.exec (fun state op => op.Permitted state) ⟨rt0, []⟩ state) :
    (∀ name, state.Faithful name ↔ name.toStr.isSome = true ∨ ¬ state.Names .empty) ∧
    (∀ (op : TableOp) next, op.Permitted state → op.exec state = some next →
      (state.Stable next ↔ op.KeepsNames state)) ∧
    ∀ later, Reachable TableOp.exec (fun state op => op.Permitted state ∧ op.KeepsNames state) state later →
      state.Stable later := by
  have inv := TableInv.of_run empty run
  exact ⟨inv.faithful_iff, fun _ _ => inv.stable_iff, fun _ => inv.stable_of_run⟩

/-- Two classes with different names, one of them empty, looked up by their names. -/
theorem classTable_faithful_stable_twoNames : ∃ state : ClassTable,
    objcGetClass state.rt .empty = some 1 ∧ state.Faithful .empty ∧
      ∀ later, Reachable TableOp.exec (fun state op => op.Permitted state ∧ op.KeepsNames state) state later →
        state.Stable later := by
  have ran : ∃ state ∈ replay TableOp.exec (fun state op => op.Permitted state) ⟨Runtime.empty, []⟩
      [.allocateClassPair none .empty, .registerClassPair 1, .allocateClassPair none ⟨⟨#[65]⟩, by decide⟩,
        .registerClassPair 3],
      objcGetClass state.rt .empty = some 1 := by decide +kernel
  obtain ⟨state, run, answer⟩ := exists_reachable_of_replay ran
  obtain ⟨faithful, _, stable⟩ := classTable_faithful_stable rfl run
  exact ⟨state, answer, (faithful .empty).mpr (.inl (by decide +kernel)), stable⟩

/-- Bytes that are not UTF-8 find the class with the empty name, until a second class takes that name. -/
theorem classTable_unfaithful : ∃ state : ClassTable,
    Reachable TableOp.exec (fun state op => op.Permitted state) ⟨Runtime.empty, []⟩ state ∧
      ¬ state.Faithful ⟨⟨#[0xFF]⟩, by decide⟩ ∧
      ∃ later, Reachable TableOp.exec (fun state op => op.Permitted state) state later ∧ ¬ state.Stable later := by
  have ran : ∃ state ∈ replay TableOp.exec (fun state op => op.Permitted state) ⟨Runtime.empty, []⟩
      [.allocateClassPair none .empty, .registerClassPair 1],
      objcGetClass state.rt .empty = some 1 ∧ objcGetClass state.rt ⟨⟨#[0xFF]⟩, by decide⟩ = some 1 ∧
        (state.rt.classes 1).name.bytes.size = 0 ∧
        ∃ later ∈ replay TableOp.exec (fun state op => op.Permitted state) state
          [.allocateClassPair none .empty, .registerClassPair 3],
          objcGetClass later.rt .empty = some 3 := by decide +kernel
  obtain ⟨state, run, answer, undecoded, named, ran'⟩ := exists_reachable_of_replay ran
  obtain ⟨later, run', displaced⟩ := exists_reachable_of_replay ran'
  refine ⟨state, run, fun faithful => ?_, later, run', fun stable => ?_⟩
  · have wrong := (faithful.2 1 undecoded).1
    rw [wrong] at named
    exact absurd named (by decide)
  · have kept := (stable _ _ answer).1
    rw [displaced] at kept
    exact absurd kept (by decide)

end O3jc
