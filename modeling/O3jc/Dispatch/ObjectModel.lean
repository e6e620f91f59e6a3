import O3jc.Dispatch.Bindings
import O3jc.Dispatch.Transparency
import O3jc.Library.Inheritance

/-
This file says what the runtime is for: classes with own methods that their subclasses inherit.
-/

namespace O3jc

open Library

/-- A call on classes and methods, or a message to null or to an instance of a class. -/
inductive ObjectOp where
  | call (op : MethodOp)
  | msgLookup (cls : Option ClassPtr) (sel : SEL)

inductive ObjectAnswer where
  | call (answer : MethodAnswer)
  | imp (imp : Option IMP)
deriving DecidableEq

def ObjectOp.exec (rt : Runtime) : ObjectOp → Option (Runtime × ObjectAnswer)
  | .call op => (op.exec rt).map fun (rt, answer) => (rt, .call answer)
  | .msgLookup cls sel => some ((objcMsgLookup rt (cls.map .object) sel).map id .imp)

/-- A completed load leaves no loaded class above an unloaded one. -/
def MethodOp.LoadsSupers (rt : Runtime) : MethodOp → Prop
  | .loadClasses classPtrs => LoadOrder rt classPtrs
  | _ => True

instance MethodOp.decidableLoadsSupers (rt : Runtime) (op : MethodOp) : Decidable (op.LoadsSupers rt) :=
  match op with
  | .loadClasses _ => inferInstanceAs (Decidable (LoadOrder _ _))
  | .allocateClassPair _ _ => inferInstanceAs (Decidable True)
  | .registerClassPair _ => inferInstanceAs (Decidable True)
  | .addMethod _ _ _ _ => inferInstanceAs (Decidable True)
  | .replaceMethod _ _ _ _ => inferInstanceAs (Decidable True)
  | .getInstanceMethod _ _ => inferInstanceAs (Decidable True)
  | .exchangeImplementations _ _ _ _ => inferInstanceAs (Decidable True)

/-- Messages go to instances of registered classes, and no two of these have one name. -/
def ObjectOp.Permitted (image : List ClassPtr) (rt : Runtime) : ObjectOp → Prop
  | .call op => op.Permitted image rt ∧ op.LoadsSupers rt
  | .msgLookup cls _ => DistinctBelow rt ∧ ∀ c ∈ cls, (rt.classes c).isRegistered = true

instance ObjectOp.decidablePermitted (image : List ClassPtr) (rt : Runtime) (op : ObjectOp) :
    Decidable (op.Permitted image rt) :=
  match op with
  | .call op => inferInstanceAs (Decidable (op.Permitted image rt ∧ op.LoadsSupers rt))
  | .msgLookup _ _ => inferInstanceAs (Decidable (DistinctBelow rt ∧ ∀ c ∈ _, _ = true))

/-- The superclass links, the own methods of every class, and the address of the next class pair. -/
structure ObjectModel where
  parent : ClassPtr → Option ClassPtr
  methods : MethodTable
  next : ClassPtr

namespace ObjectModel

/-- The IMP that an instance of a class answers a name with. -/
noncomputable def dispatch (model : ObjectModel) (cls : ClassPtr) (name : Option CStrPtr) : Option IMP :=
  inherited model.parent (fun c n => model.methods (c, n)) cls name

/-- A compiled program before its classes are loaded. -/
def compiled (rt0 : Runtime) : ObjectModel := ⟨rt0.superclass, fun _ => none, rt0.nextClass⟩

/-- What the calls mean for classes with inherited methods. There are no caches, no chains and no registration. -/
noncomputable def exec (rt0 : Runtime) (model : ObjectModel) : ObjectOp → Option (ObjectModel × ObjectAnswer)
  | .call (.allocateClassPair superclass _) =>
      some (⟨Function.update model.parent (model.next + 1) superclass, model.methods, model.next + 2⟩, .call .done)
  | .call op =>
      (MethodTable.exec rt0 model.methods op).map fun (methods, answer) => ({ model with methods }, .call answer)
  | .msgLookup cls sel => some (model, .imp (cls.bind fun c => model.dispatch c (selNamePtr rt0 sel)))

end ObjectModel

/-- The runtime stands for the model, with caches that agree with the walk. -/
structure ModelInv (image : List ClassPtr) (rt0 rt : Runtime) (model : ObjectModel) : Prop where
  bindings : BindingInv image rt0 rt model.methods
  instances : InstanceInv image rt
  parent : ∀ c, (rt.classes c).isMetaclass = false → model.parent c = rt.superclass c
  next : model.next = rt.nextClass

section Steps

variable {image : List ClassPtr} {rt0 rt rt' : Runtime} {model : ObjectModel}

theorem StaticImage.modelInv (static : StaticImage image rt0) : ModelInv image rt0 rt0 (.compiled rt0) :=
  ⟨static.bindingInv, static.instanceInv, fun _ _ => rfl, rfl⟩

/-- Dispatch along the superclass chain is dispatch in the model. -/
theorem ModelInv.lookup (inv : ModelInv image rt0 rt model) {cls : ClassPtr} (below : cls < rt.nextClass)
    (kind : (rt.classes cls).isMetaclass = false) (sel : SEL) :
    classLookupMethod rt cls sel = model.dispatch cls (selNamePtr rt0 sel) := by
  have graph := inv.bindings.world.graph
  have chain : Walk model.parent (some cls) (rt.ancestors cls) :=
    (graph.ancestors_walk below).congr fun c member => inv.parent c (graph.ancestors_kind below kind c member)
  rw [ObjectModel.dispatch, chain.inherited_eq, classLookupMethod_eq_ownImp]
  refine findSome_congr fun c _ => ?_
  rw [inv.bindings.represents.own, selNamePtr_of_memory inv.bindings.memory]

/-- The answer to a message is the dispatch of the model, from the cache or not. -/
theorem ModelInv.msgLookup (inv : ModelInv image rt0 rt model) {cls : Option ClassPtr} (distinct : DistinctBelow rt)
    (registered : ∀ c ∈ cls, (rt.classes c).isRegistered = true) (sel : SEL) :
    (objcMsgLookup rt (cls.map .object) sel).2 = cls.bind fun c => model.dispatch c (selNamePtr rt0 sel) := by
  have graph := inv.bindings.world.graph
  cases cls with
  | none => rfl
  | some c =>
      obtain ⟨kind, loaded⟩ := graph.registeredClass c (registered c rfl)
      have coherent := inv.instances.coherent (distinct.distinctNames graph) c (registered c rfl)
      have answer : (objcMsgLookup rt (some (.object c)) sel).2 = classLookupMethod rt c sel :=
        coherent.msgLookup rfl sel
      exact answer.trans (inv.lookup (graph.lt_of_loaded loaded) kind sel)

/-- The calls other than allocations keep the superclass links of ordinary classes. -/
structure SameParents (rt rt' : Runtime) : Prop where
  kind : ∀ c, (rt'.classes c).isMetaclass = (rt.classes c).isMetaclass
  superclass : ∀ c, (rt.classes c).isMetaclass = false → rt'.superclass c = rt.superclass c
  nextClass : rt'.nextClass = rt.nextClass

theorem SameGraph.sameParents (same : SameGraph rt rt') : SameParents rt rt' :=
  ⟨same.isMetaclass, fun _ _ => by rw [same.superclass], same.nextClass⟩

theorem Registered.sameParents {cls : ClassPtr} {name : String} (step : Registered rt rt' cls name) :
    SameParents rt rt' :=
  ⟨step.isMetaclass, fun _ _ => by rw [step.superclass], step.nextClass⟩

theorem loadClasses_sameParents (world : WorldInv image rt) {classPtrs : List (Option ClassPtr)}
    (loadable : Loadable image rt classPtrs) (result : loadClasses rt classPtrs = some rt') : SameParents rt rt' := by
  obtain ⟨_, _, loads⟩ := loadClasses_world world loadable result
  refine ⟨loads.kind, loads.superclass, ?_⟩
  refine loadClasses_rule (fun state => state.nextClass = rt.nextClass) ?_ world rfl loadable result
  intro state cls next inv same member unloaded turn
  obtain ⟨_, _, _, _, _, _, step⟩ := loadClass_installs inv member turn
  rw [step.nextClass, same]

/-- A call that allocates no class keeps the links of the model. -/
theorem ModelInv.of_sameParents (inv : ModelInv image rt0 rt model) {methods : MethodTable}
    (bindings : BindingInv image rt0 rt' methods) (instances : InstanceInv image rt') (same : SameParents rt rt') :
    ModelInv image rt0 rt' { model with methods } where
  bindings := bindings
  instances := instances
  parent c kind := by
    rw [same.kind] at kind
    rw [same.superclass c kind]
    exact inv.parent c kind
  next := inv.next.trans same.nextClass.symm

/-- A new pair of class objects is a new leaf of the model. -/
theorem ModelInv.allocate (inv : ModelInv image rt0 rt model) {superclass : Option ClassPtr} {name : CStr}
    {cls : ClassPtr} (known : ∀ s ∈ superclass, (rt.classes s).isRegistered = true)
    (result : objcAllocateClassPair rt superclass name = some (rt', cls)) :
    ModelInv image rt0 rt'
      ⟨Function.update model.parent (model.next + 1) superclass, model.methods, model.next + 2⟩ := by
  obtain ⟨_, _, step⟩ := allocate_world inv.bindings.world known result
  have side : ClassOp.InstanceSide image rt (.allocateClassPair superclass name) := ⟨known, trivial⟩
  refine ⟨inv.bindings.allocate known result, inv.instances.step side (congrArg (Option.map Prod.fst) result),
    fun c kind => ?_, by rw [step.nextClass, inv.next]⟩
  dsimp only
  rw [inv.next]
  rcases step.plain_cases kind with rfl | ⟨old, kind⟩
  · rw [Function.update_self, step.superclass_cls]
  · rw [Function.update_of_ne old.2, step.superclass_old old]
    exact inv.parent c kind

/-- Every permitted call on classes and methods means what the model says. -/
theorem ModelInv.call (inv : ModelInv image rt0 rt model) (distinct : DistinctCompiled rt0) {op : MethodOp}
    {answer : MethodAnswer} (allowed : op.Permitted image rt) (supers : op.LoadsSupers rt)
    (result : op.exec rt = some (rt', answer)) :
    ∃ model', ObjectModel.exec rt0 model (.call op) = some (model', .call answer) ∧ ModelInv image rt0 rt' model' := by
  obtain ⟨methods, taken, bindings⟩ := inv.bindings.step distinct allowed result
  have world := inv.bindings.world
  -- The model runs the calls other than allocations on its methods.
  have other : ObjectModel.exec rt0 model (.call op) = (MethodTable.exec rt0 model.methods op).map
      (fun (methods, answer) => ({ model with methods }, .call answer)) → InstanceInv image rt' → SameParents rt rt' →
      ∃ model', ObjectModel.exec rt0 model (.call op) = some (model', .call answer) ∧
        ModelInv image rt0 rt' model' := by
    intro isMap instances same
    rw [isMap, taken]
    exact ⟨_, rfl, inv.of_sameParents bindings instances same⟩
  cases op with
  | allocateClassPair superclass name =>
      obtain ⟨⟨rt'', cls⟩, allocated, same⟩ := Option.map_eq_some_iff.mp result
      obtain ⟨rfl, rfl⟩ := Prod.mk.inj same
      exact ⟨_, rfl, inv.allocate allowed allocated⟩
  | registerClassPair cls =>
      obtain ⟨rt'', registered, same⟩ := Option.map_eq_some_iff.mp result
      obtain ⟨rfl, rfl⟩ := Prod.mk.inj same
      have side : ClassOp.InstanceSide image rt (.registerClassPair cls) := ⟨allowed, trivial⟩
      obtain ⟨name, step⟩ := registerClass_spec registered
      exact other rfl (inv.instances.step side registered) step.sameParents
  | loadClasses classPtrs =>
      obtain ⟨rt'', loaded, same⟩ := Option.map_eq_some_iff.mp result
      obtain ⟨rfl, rfl⟩ := Prod.mk.inj same
      have side : ClassOp.InstanceSide image rt (.loadClasses classPtrs) := ⟨allowed, supers⟩
      exact other rfl (inv.instances.step side loaded) (loadClasses_sameParents world allowed loaded)
  | addMethod cls sel imp types =>
      obtain ⟨rfl, rfl⟩ : (classAddMethod rt cls sel imp types).1 = rt' ∧
          .added (classAddMethod rt cls sel imp types).2 = answer := Prod.mk.inj (Option.some.inj result)
      cases bound : rt.ownMethod cls sel with
      | some entry =>
          rw [classAddMethod_of_bound cls sel imp types (by rw [bound]; rfl)] at other ⊢
          exact other rfl inv.instances (SameGraph.refl rt).sameParents
      | none =>
          obtain ⟨_, binds⟩ := classAddMethod_of_unbound world.chain cls sel imp types bound
          refine other rfl (inv.instances.of_binds allowed binds fun registered => ?_) binds.graph.sameParents
          rw [addFlushes, if_pos registered]
  | replaceMethod cls sel imp types =>
      obtain ⟨rfl, rfl⟩ : (classReplaceMethod rt cls sel imp types).1 = rt' ∧
          .replaced (classReplaceMethod rt cls sel imp types).2 = answer := Prod.mk.inj (Option.some.inj result)
      have binds := classReplaceMethod_binds world.chain cls sel imp types
      refine other rfl (inv.instances.of_binds allowed binds fun registered => ?_) binds.graph.sameParents
      rw [replaceFlushes, addFlushes, if_pos registered, ite_self]
  | getInstanceMethod cls sel =>
      obtain ⟨rfl, rfl⟩ := Prod.mk.inj (Option.some.inj result)
      exact other rfl inv.instances (SameGraph.refl rt).sameParents
  | exchangeImplementations cls1 sel1 cls2 sel2 =>
      simp only [MethodOp.exec, Option.bind_eq_bind, Option.bind_eq_some_iff, Option.some.injEq,
        Prod.mk.injEq] at result
      obtain ⟨m1, _, m2, _, rt'', swapped, rfl, rfl⟩ := result
      obtain ⟨first, second, swap⟩ := methodExchangeImplementations_spec world.chain swapped
      exact other rfl (inv.instances.of_exchanges swap) swap.graph.sameParents

/-- A cache is no part of the bindings. -/
theorem BindingInv.cacheInsert {table : MethodTable} (inv : BindingInv image rt0 rt table) (cls : ClassPtr) (sel : SEL)
    (imp : IMP) : BindingInv image rt0 (rt.cacheInsert cls sel imp) table := by
  have graph := cacheInsert_sameGraph rt cls sel imp
  have methods := cacheInsert_sameMethods rt cls sel imp
  refine ⟨inv.world.of_same graph methods, graph.selectors.trans inv.memory, fun c unloaded => ?_,
    inv.represents.of_entries (selNamePtr_of_memory graph.selectors) (congrFun methods.methodEntries)⟩
  rw [graph.loaded_iff] at unloaded
  have fields : ∀ c, ((rt.cacheInsert cls sel imp).classes c).methodList = (rt.classes c).methodList :=
    rt.modifyClass_proj ObjcClass.methodList cls fun _ => rfl
  rw [fields, graph.isa]
  exact inv.compiled c unloaded

/-- A message changes nothing that the model knows. -/
theorem ModelInv.of_msgLookup (inv : ModelInv image rt0 rt model) {cls : Option ClassPtr}
    (registered : ∀ c ∈ cls, (rt.classes c).isRegistered = true) (sel : SEL) :
    ModelInv image rt0 (objcMsgLookup rt (cls.map .object) sel).1 model := by
  have known : ∀ c ∈ (cls.map ObjcPtr.object).bind rt.isaOf, (rt.classes c).isRegistered = true := by
    intro c isClass
    cases cls with
    | none => contradiction
    | some c' =>
        obtain rfl := Option.some.inj isClass
        exact registered c' rfl
  have instances : InstanceInv image (objcMsgLookup rt (cls.map .object) sel).1 := inv.instances.of_msgLookup known
  rcases objcMsgLookup_state rt (cls.map .object) sel with same | ⟨c, imp, _, _, _, filled⟩
  · rw [same]
    exact inv
  · rw [filled] at instances ⊢
    exact inv.of_sameParents (inv.bindings.cacheInsert c sel imp) instances
      (cacheInsert_sameGraph rt c sel imp).sameParents

/-- Every permitted call means what the model says, and gives the answer of the model. -/
theorem ModelInv.step (inv : ModelInv image rt0 rt model) (distinct : DistinctCompiled rt0) {op : ObjectOp}
    {answer : ObjectAnswer} (allowed : op.Permitted image rt) (result : op.exec rt = some (rt', answer)) :
    ∃ model', ObjectModel.exec rt0 model op = some (model', answer) ∧ ModelInv image rt0 rt' model' := by
  cases op with
  | call op =>
      obtain ⟨⟨rt'', called⟩, taken, same⟩ := Option.map_eq_some_iff.mp result
      obtain ⟨rfl, rfl⟩ := Prod.mk.inj same
      exact inv.call distinct allowed.1 allowed.2 taken
  | msgLookup cls sel =>
      obtain ⟨rfl, rfl⟩ : (objcMsgLookup rt (cls.map .object) sel).1 = rt' ∧
          .imp (objcMsgLookup rt (cls.map .object) sel).2 = answer := Prod.mk.inj (Option.some.inj result)
      rw [inv.msgLookup allowed.1 allowed.2]
      exact ⟨model, rfl, inv.of_msgLookup allowed.2 sel⟩

/-- A binding changes the answers to the instances that reach it, and no others. -/
theorem InstanceInv.answer_of_binds (inv : InstanceInv image rt) (names : DistinctNames rt) {cls c : ClassPtr}
    {sel : SEL} {imp : IMP} {flushed : List ClassPtr} (loaded : rt.Loaded cls)
    (binds : Binds rt rt' cls sel imp flushed)
    (covers : (rt.classes cls).isRegistered = true → flushed = flushOrder rt cls)
    (registered : (rt.classes c).isRegistered = true) (s : SEL) :
    (objcMsgLookup rt' (some (.object c)) s).2 =
      if selEq rt sel s = true ∧ rt.Reaches c cls s then some imp else (objcMsgLookup rt (some (.object c)) s).2 := by
  have names' : DistinctNames rt' := by
    intro a b
    rw [binds.graph.isRegistered, binds.graph.isRegistered, binds.graph.name, binds.graph.name]
    exact names a b
  have registered' : (rt'.classes c).isRegistered = true := (binds.graph.isRegistered c).trans registered
  have before : (objcMsgLookup rt (some (.object c)) s).2 = classLookupMethod rt c s :=
    (inv.coherent names c registered).msgLookup rfl s
  have after : (objcMsgLookup rt' (some (.object c)) s).2 = classLookupMethod rt' c s :=
    ((inv.of_binds loaded binds covers).coherent names' c registered').msgLookup rfl s
  rw [after, before, binds.lookup]

end Steps

section Runs

variable {image : List ClassPtr} {rt0 rt rt' : Runtime}

theorem compiledPair_distinct : DistinctCompiled compiledPair := compiledPair_cases
  (fun _ cls => (keysOf compiledPair (compiledEntries cls.methodList)).Nodup) (by decide) fun _ => by decide

/-- Runs that mean one model are told apart by no later calls: the shapes of the chains, the contents of the caches and
the history of flushes and registrations are never seen. -/
theorem equalModels_agree (static : StaticImage image rt0) (distinct : DistinctCompiled rt0)
    {calls calls' : List (ObjectOp × ObjectAnswer)}
    (run : Traced ObjectOp.exec (ObjectOp.Permitted image) rt0 calls rt)
    (run' : Traced ObjectOp.exec (ObjectOp.Permitted image) rt0 calls' rt') {model : ObjectModel}
    (means : Traced (ObjectModel.exec rt0) (fun _ _ => True) (.compiled rt0) calls model)
    (means' : Traced (ObjectModel.exec rt0) (fun _ _ => True) (.compiled rt0) calls' model)
    {after after' : List (ObjectOp × ObjectAnswer)} {last last' : Runtime}
    (later : Traced ObjectOp.exec (ObjectOp.Permitted image) rt after last)
    (later' : Traced ObjectOp.exec (ObjectOp.Permitted image) rt' after' last')
    (labels : after.map Prod.fst = after'.map Prod.fst) : after = after' := by
  have reached : ∀ {calls : List (ObjectOp × ObjectAnswer)} {state : Runtime},
      Traced ObjectOp.exec (ObjectOp.Permitted image) rt0 calls state →
      Traced (ObjectModel.exec rt0) (fun _ _ => True) (.compiled rt0) calls model → ModelInv image rt0 state model := by
    intro calls state run means
    obtain ⟨model', abstractRun, inv⟩ := run.simulates (ObjectModel.exec rt0) (ModelInv image rt0)
      (fun _ _ _ _ _ inv => inv.step distinct) static.modelInv
    rw [means.unique abstractRun]
    exact inv
  exact later.agree (ObjectModel.exec rt0) (ModelInv image rt0) (fun _ _ _ _ _ inv => inv.step distinct) later'
    (reached run means) (reached run' means') labels

/-- A method that was added and one that was replaced twice are told apart by no message. -/
theorem equalModels_agree_replaced : ∃ after after' : List (ObjectOp × ObjectAnswer),
    after.map Prod.snd = [.imp (some 20)] ∧ after = after' := by
  have added : ∃ start ∈ replayTraced ObjectOp.exec (ObjectOp.Permitted [0, 2]) compiledPair
      [.call (.loadClasses [some 0, some 2]), .call (.addMethod 2 0 20 none)],
      start.2 = [(.call (.loadClasses [some 0, some 2]), .call .done),
        (.call (.addMethod 2 0 20 none), .call (.added true))] ∧
      ∃ after ∈ replayTraced ObjectOp.exec (ObjectOp.Permitted [0, 2]) start.1 [.msgLookup (some 2) 0],
        after.2.map Prod.snd = [.imp (some 20)] :=
    ⟨_, rfl, rfl, _, rfl, rfl⟩
  have replaced : ∃ start ∈ replayTraced ObjectOp.exec (ObjectOp.Permitted [0, 2]) compiledPair
      [.call (.loadClasses [some 0, some 2]), .call (.replaceMethod 2 0 9 none), .call (.replaceMethod 2 0 20 none)],
      start.2 = [(.call (.loadClasses [some 0, some 2]), .call .done),
        (.call (.replaceMethod 2 0 9 none), .call (.replaced none)),
        (.call (.replaceMethod 2 0 20 none), .call (.replaced (some 9)))] ∧
      ∃ after, after ∈ replayTraced ObjectOp.exec (ObjectOp.Permitted [0, 2]) start.1 [.msgLookup (some 2) 0] :=
    ⟨_, rfl, rfl, _, rfl⟩
  obtain ⟨⟨rt, calls⟩, start, rfl, ⟨last, after⟩, later, isImp⟩ := added
  obtain ⟨⟨rt', calls'⟩, start', rfl, ⟨last', after'⟩, later'⟩ := replaced
  let loaded : MethodTable :=
    MethodTable.loadPair compiledPair (MethodTable.loadPair compiledPair (fun _ => none) 0) 2
  have same : Function.update (Function.update loaded (2, some 0) (some 9)) (2, some 0) (some 20) =
      Function.update loaded (2, some 0) (some 20) := Function.update_idem _ _ _
  have first : Traced (ObjectModel.exec compiledPair) (fun _ _ => True) (.compiled compiledPair)
      [(.call (.loadClasses [some 0, some 2]), .call .done), (.call (.addMethod 2 0 20 none), .call (.added true))]
      ⟨compiledPair.superclass, Function.update loaded (2, some 0) (some 20), 4⟩ :=
    .cons trivial rfl (.cons trivial rfl (.nil _))
  have second : Traced (ObjectModel.exec compiledPair) (fun _ _ => True) (.compiled compiledPair)
      [(.call (.loadClasses [some 0, some 2]), .call .done),
        (.call (.replaceMethod 2 0 9 none), .call (.replaced none)),
        (.call (.replaceMethod 2 0 20 none), .call (.replaced (some 9)))]
      ⟨compiledPair.superclass, Function.update loaded (2, some 0) (some 20), 4⟩ := by
    rw [← same]
    exact .cons trivial rfl (.cons trivial rfl (.cons trivial rfl (.nil _)))
  exact ⟨after, after', isImp, equalModels_agree compiledPair_static compiledPair_distinct (traced_of_replay start)
    (traced_of_replay start') first second (traced_of_replay later) (traced_of_replay later')
    ((replayTraced_labels later).trans (replayTraced_labels later').symm)⟩

/-- Exchanging two implementations a second time undoes the exchange for every later call and message. -/
theorem exchangeTwice_restores (static : StaticImage image rt0) (distinct : DistinctCompiled rt0)
    {calls : List (ObjectOp × ObjectAnswer)} (run : Traced ObjectOp.exec (ObjectOp.Permitted image) rt0 calls rt)
    {cls1 cls2 : ClassPtr} {sel1 sel2 : SEL} {first second : ObjectAnswer}
    (twice : Traced ObjectOp.exec (ObjectOp.Permitted image) rt
      [(.call (.exchangeImplementations cls1 sel1 cls2 sel2), first),
        (.call (.exchangeImplementations cls1 sel1 cls2 sel2), second)] rt')
    {after after' : List (ObjectOp × ObjectAnswer)} {last last' : Runtime}
    (later : Traced ObjectOp.exec (ObjectOp.Permitted image) rt after last)
    (later' : Traced ObjectOp.exec (ObjectOp.Permitted image) rt' after' last')
    (labels : after.map Prod.fst = after'.map Prod.fst) : after = after' := by
  obtain ⟨model, _, inv⟩ := run.simulates (ObjectModel.exec rt0) (ModelInv image rt0)
    (fun _ _ _ _ _ inv => inv.step distinct) static.modelInv
  obtain ⟨model', abstractTwice, inv'⟩ := twice.simulates (ObjectModel.exec rt0) (ModelInv image rt0)
    (fun _ _ _ _ _ inv => inv.step distinct) inv
  have same : model' = model := by
    cases abstractTwice with
    | cons _ swapped rest =>
        cases rest with
        | cons _ restored ended =>
            cases ended
            obtain ⟨rfl, _⟩ := Prod.mk.inj (Option.some.inj swapped)
            obtain ⟨rfl, _⟩ := Prod.mk.inj (Option.some.inj restored)
            simp [Function.comp_assoc, ← Equiv.coe_trans]
  rw [same] at inv'
  exact later.agree (ObjectModel.exec rt0) (ModelInv image rt0) (fun _ _ _ _ _ inv => inv.step distinct) later'
    inv inv' labels

/-- An exchange and its undoing leave the answers as they were. -/
theorem exchangeTwice_restores_inherited : ∃ after after' : List (ObjectOp × ObjectAnswer),
    after.map Prod.snd = [.imp (some 7), .imp (some 20)] ∧ after = after' := by
  let exchange : ObjectOp := .call (.exchangeImplementations 0 0 2 2)
  let messages : List ObjectOp := [.msgLookup (some 2) 0, .msgLookup (some 2) 2]
  have ran : ∃ start ∈ replayTraced ObjectOp.exec (ObjectOp.Permitted [0, 2]) compiledPair
      [.call (.loadClasses [some 0, some 2]), .call (.addMethod 2 2 20 none)],
      ∃ after ∈ replayTraced ObjectOp.exec (ObjectOp.Permitted [0, 2]) start.1 messages,
      ∃ twice ∈ replayTraced ObjectOp.exec (ObjectOp.Permitted [0, 2]) start.1 [exchange, exchange],
      ∃ after' ∈ replayTraced ObjectOp.exec (ObjectOp.Permitted [0, 2]) twice.1 messages,
      after.2.map Prod.snd = [.imp (some 7), .imp (some 20)] ∧
        twice.2.map Prod.snd = [.call .done, .call .done] := by
    decide +kernel
  obtain ⟨⟨rt, calls⟩, start, ⟨last, after⟩, later, ⟨rt', both⟩, twice, ⟨last', after'⟩, later', answers, _⟩ := ran
  obtain ⟨⟨op, first⟩, rest, rfl, rfl, tail⟩ := List.map_eq_cons_iff.mp (replayTraced_labels twice)
  obtain ⟨⟨op', second⟩, rest', rfl, rfl, ended⟩ := List.map_eq_cons_iff.mp tail
  obtain rfl := List.map_eq_nil_iff.mp ended
  exact ⟨after, after', answers, exchangeTwice_restores compiledPair_static compiledPair_distinct
    (traced_of_replay start) (traced_of_replay twice) (traced_of_replay later) (traced_of_replay later')
    ((replayTraced_labels later).trans (replayTraced_labels later').symm)⟩

/-- A changed method reaches exactly the instances whose nearest class with the method is the changed one, whatever
their caches held before. -/
theorem methodChange_reaches (static : StaticImage image rt0) (distinct : DistinctCompiled rt0)
    {calls : List (ObjectOp × ObjectAnswer)} (run : Traced ObjectOp.exec (ObjectOp.Permitted image) rt0 calls rt)
    (names : DistinctBelow rt) {cls c : ClassPtr} (loaded : rt.Loaded cls)
    (registered : (rt.classes c).isRegistered = true) (sel s : SEL) (imp : IMP) (types : Option CStrPtr) :
    (objcMsgLookup (classReplaceMethod rt cls sel imp types).1 (some (.object c)) s).2 =
      (if selEq rt sel s = true ∧ rt.Reaches c cls s then some imp
      else (objcMsgLookup rt (some (.object c)) s).2) ∧
    (objcMsgLookup (classAddMethod rt cls sel imp types).1 (some (.object c)) s).2 =
      if rt.ownMethod cls sel = none ∧ selEq rt sel s = true ∧ rt.Reaches c cls s then some imp
      else (objcMsgLookup rt (some (.object c)) s).2 := by
  obtain ⟨model, _, inv⟩ := run.simulates (ObjectModel.exec rt0) (ModelInv image rt0)
    (fun _ _ _ _ _ inv => inv.step distinct) static.modelInv
  have world := inv.bindings.world
  have distinctNames := names.distinctNames world.graph
  constructor
  · refine inv.instances.answer_of_binds distinctNames loaded
      (classReplaceMethod_binds world.chain cls sel imp types) (fun isRegistered => ?_) registered s
    rw [replaceFlushes, addFlushes, if_pos isRegistered, ite_self]
  · cases bound : rt.ownMethod cls sel with
    | some entry =>
        rw [classAddMethod_of_bound cls sel imp types (by rw [bound]; rfl)]
        simp
    | none =>
        simp only [true_and]
        refine inv.instances.answer_of_binds distinctNames loaded
          (classAddMethod_of_unbound world.chain cls sel imp types bound).2 (fun isRegistered => ?_) registered s
        rw [addFlushes, if_pos isRegistered]

/-- The subclass has cached the method of its superclass, which is replaced. -/
theorem methodChange_reaches_inherited : ∃ rt : Runtime, rt.cacheLookup 2 0 = some 7 ∧
    (objcMsgLookup (classReplaceMethod rt 0 0 30 none).1 (some (.object 2)) 0).2 = some 30 ∧
      (objcMsgLookup (classAddMethod rt 0 0 30 none).1 (some (.object 2)) 0).2 = some 7 := by
  have ran : ∃ ended ∈ replayTraced ObjectOp.exec (ObjectOp.Permitted [0, 2]) compiledPair
      [.call (.loadClasses [some 0, some 2]), .msgLookup (some 2) 0],
      ended.1.cacheLookup 2 0 = some 7 ∧ DistinctBelow ended.1 ∧ ended.1.Loaded 0 ∧
        (ended.1.classes 2).isRegistered = true ∧ ended.1.Reaches 2 0 0 ∧ (ended.1.ownMethod 0 0).isSome = true ∧
          (objcMsgLookup ended.1 (some (.object 2)) 0).2 = some 7 := by
    decide +kernel
  obtain ⟨⟨rt, calls⟩, replayed, cached, names, loaded, registered, reaches, bound, answer⟩ := ran
  have changes := methodChange_reaches compiledPair_static compiledPair_distinct (traced_of_replay replayed) names
    loaded registered 0 0 30 none
  refine ⟨rt, cached, ?_, ?_⟩
  · rw [changes.1, if_pos ⟨selEq_self rt 0, reaches⟩]
  · rw [changes.2, if_neg fun reached => by simp [reached.1] at bound, answer]

end Runs

end O3jc
