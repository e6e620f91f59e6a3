import O3jc.Loading.Construction

/-
This file compares a hierarchy that was built with calls and the same hierarchy loaded from compiled classes.
-/

namespace O3jc

open Library

namespace Hierarchy

/-- The method of one class of the hierarchy. -/
def method (h : Hierarchy) (isClassMethod : Bool) (name : String) (i : Nat) : Option IMP :=
  findDecl (h.methods i) isClassMethod name

/-- An instance message resolves to the nearest class of the chain. -/
def resolveInstance (h : Hierarchy) (i : Nat) (name : String) : Option IMP :=
  (h.ancestors i).findSome? (h.method false name)

/-- The class methods of the chain. -/
def resolveClassMethod (h : Hierarchy) (i : Nat) (name : String) : Option IMP :=
  (h.ancestors i).findSome? (h.method true name)

/-- The instance method of the root of the chain. -/
def rootMethod (h : Hierarchy) (i : Nat) (name : String) : Option IMP :=
  (h.ancestors i).getLast?.bind (h.method false name)

/-- A class message falls back to the instance methods of the root class. -/
def resolveClass (h : Hierarchy) (i : Nat) (name : String) : Option IMP :=
  (h.resolveClassMethod i name).or (h.rootMethod i name)

variable (h : Hierarchy)

theorem superclass_lt {i s : Nat} (link : h.superclass i = some s) : s < i := by
  obtain ⟨d, declares, isSuper⟩ := Option.bind_eq_some_iff.mp link
  exact h.superFirst i d declares s isSuper

/-- The chain of a class is finite and stays in the hierarchy. -/
theorem walk {i : Nat} (inside : i < h.decls.length) :
    Walk h.superclass (some i) (h.ancestors i) ∧ ∀ j ∈ h.ancestors i, j < h.decls.length := by
  obtain ⟨walk, complete⟩ := Walk.exists_of_rank (fun j : Nat => j)
    (fun j s (link : h.superclass j = some s) => h.superclass_lt link) (some i)
  have below : ∀ j ∈ walk, j < h.decls.length := complete.forall_mem (fun j => j < h.decls.length)
    (fun j start => by rw [Option.mem_some_iff] at start; exact start ▸ inside)
    fun j s before link => (h.superclass_lt link).trans before
  rw [ancestors, complete.successors_eq (complete.length_le below)]
  exact ⟨complete, below⟩

end Hierarchy

section Dynamic

variable {h : Hierarchy} {base first : Nat} {dyn dyn1 dyn2 : Runtime} {declared : Nat → List MethodDecl}

/-- The chains of a built pair are the images of the chain of its declaration. -/
theorem Built.ancestors (inv : Built h base first dyn h.decls.length declared) {i : Nat}
    (inside : i < h.decls.length) : dyn.ancestors (clsPtr first i) = (h.ancestors i).map (clsPtr first) ∧
      dyn.ancestors (metaPtr first i) = (h.ancestors i).map (metaPtr first) := by
  obtain ⟨walk, below⟩ := h.walk inside
  have fits : ((h.ancestors i)).length ≤ dyn.nextClass := by
    have length := walk.length_le below
    rw [inv.nextClass]
    omega
  have classes : Walk dyn.superclass (some (clsPtr first i)) ((h.ancestors i).map (clsPtr first)) :=
    walk.map (clsPtr first) fun j member => inv.superclass j (below j member)
  have metaclasses : Walk dyn.superclass (some (metaPtr first i)) ((h.ancestors i).map (metaPtr first)) :=
    walk.map (metaPtr first) fun j member => inv.metaSuper j (below j member)
  exact ⟨classes.successors_eq (by rw [List.length_map]; exact fits),
    metaclasses.successors_eq (by rw [List.length_map]; exact fits)⟩

/-- A message to a built class is answered by the chain of its declaration, without the fall back to the root. -/
theorem Built.answers (inv : Built h base first dyn h.decls.length declared)
    (all : ∀ i < h.decls.length, declared i = h.methods i)
    (after : Reachable DispatchOp.exec DispatchOp.Known dyn dyn1) {name : String} {sel : SEL}
    (result : selRegisterNameStr dyn1 name = some (dyn2, sel)) {i : Nat} (inside : i < h.decls.length) :
    (objcMsgLookup dyn2 (some (.object (clsPtr first i))) sel).2 = h.resolveInstance i name ∧
      (objcMsgLookup dyn2 (some (.classObject (clsPtr first i))) sel).2 = h.resolveClassMethod i name := by
  obtain ⟨messaging1, keeps1⟩ := inv.messaging.of_run after
  obtain ⟨messaging, keeps2, registered⟩ := messaging1.of_register result
  have keeps := keeps1.trans keeps2
  obtain ⟨_, below⟩ := h.walk inside
  have own : ∀ c, dyn2.ownImp c sel = bindingNamed dyn c name := by
    intro c
    rw [← bindingNamed_kept inv.entries inv.sel messaging.sel keeps, bindingNamed, registered]
    rfl
  have receiver : dyn2.isaOf (.classObject (clsPtr first i)) = some (metaPtr first i) :=
    (keeps.classes.isa _).trans (inv.isa i inside)
  rw [(messaging.coherent (clsPtr first i)).msgLookup rfl, (messaging.coherent (metaPtr first i)).msgLookup receiver,
    classLookupMethod_eq_ownImp, classLookupMethod_eq_ownImp, keeps.classes.ancestors, (inv.ancestors inside).1,
    (inv.ancestors inside).2, List.findSome?_map, List.findSome?_map]
  constructor
  · refine findSome_congr fun j member => ?_
    rw [Function.comp_apply, own, inv.instanceMethods j (below j member), all j (below j member)]
    rfl
  · refine findSome_congr fun j member => ?_
    rw [Function.comp_apply, own, inv.classMethods j (below j member), all j (below j member)]
    rfl

end Dynamic

/-- The compiled entries of a class half are the declared methods of a kind. -/
def CompilesTo (rt0 : Runtime) (cls : ClassPtr) (methods : List MethodDecl) : Prop :=
  (compiledEntries (rt0.classes cls).methodList).map (fun entry => (nameOf rt0 entry.sel, entry.imp)) =
    methods.map fun m => (some m.name, m.imp)

/-- A module that holds the classes of a hierarchy as the compiler emits them. -/
structure CompiledHierarchy (h : Hierarchy) (rt0 : Runtime) (info : ObjcModuleInfo) (cls : Nat → ClassPtr) : Prop where
  module : CompiledModule ((List.range h.decls.length).map cls) rt0 info
  name : ∀ i d, h.decls[i]? = some d → (rt0.classes (cls i)).name = d.name
  superclass : ∀ i < h.decls.length, rt0.superclass (cls i) = (h.superclass i).map cls
  instanceMethods : ∀ i < h.decls.length,
    CompilesTo rt0 (cls i) ((h.methods i).filter fun m => m.isClassMethod == false)
  classMethods : ∀ i < h.decls.length, ∀ m ∈ (rt0.classes (cls i)).isa,
    CompilesTo rt0 m ((h.methods i).filter fun m => m.isClassMethod == true)

/-- The first compiled entry with a name is the first declared method of the kind. -/
theorem CompilesTo.methodNamed {rt0 : Runtime} {cls : ClassPtr} {methods : List MethodDecl} {isClassMethod : Bool}
    (compiles : CompilesTo rt0 cls (methods.filter fun m => m.isClassMethod == isClassMethod)) (name : String) :
    O3jc.methodNamed rt0 cls name = findDecl methods isClassMethod name := by
  have entries : O3jc.methodNamed rt0 cls name = (((compiledEntries (rt0.classes cls).methodList).map fun entry =>
      (nameOf rt0 entry.sel, entry.imp)).find? fun pair => pair.1 == some name).map Prod.snd := by
    rw [List.find?_map, Option.map_map]
    rfl
  rw [entries, compiles, List.find?_map, Option.map_map, List.find?_filter, findDecl]
  refine congrArg (Option.map MethodDecl.imp) (List.find?_congr fun m _ => Bool.eq_iff_iff.mpr ?_)
  simp

/-- Each metaclass points to the root metaclass, and above it stand the superclass's metaclass or the root class. -/
def MetaclassLinks (h : Hierarchy) (rt : Runtime) (cls : Nat → ClassPtr) : Prop :=
  ∀ i < h.decls.length, ∃ m, (rt.classes (cls i)).isa = some m ∧
    (∃ root ∈ h.ancestors i, h.superclass root = none ∧ (rt.classes m).isa = (rt.classes (cls root)).isa) ∧
    rt.superclass m = (h.superclass i).elim (some (cls i)) fun s => (rt.classes (cls s)).isa

section Static

variable {h : Hierarchy} {rt0 rt1 stat : Runtime} {info : ObjcModuleInfo} {cls : Nat → ClassPtr}
  (compiled : CompiledHierarchy h rt0 info cls) {i : Nat} (inside : i < h.decls.length)

include compiled inside

omit compiled in
theorem mem_hierarchyImage : cls i ∈ (List.range h.decls.length).map cls :=
  List.mem_map_of_mem (List.mem_range.mpr inside)

theorem CompiledHierarchy.ancestors : rt0.ancestors (cls i) = (h.ancestors i).map cls := by
  obtain ⟨walk, below⟩ := h.walk inside
  have static := compiled.module.static
  have complete := static.graphInv.ancestors_walk (static.cls _ (mem_hierarchyImage inside)).2
  exact complete.unique (walk.map cls fun j member => compiled.superclass j (below j member))

theorem CompiledHierarchy.resolveInstance (name : String) :
    O3jc.resolveInstance rt0 (cls i) name = h.resolveInstance i name := by
  obtain ⟨_, below⟩ := h.walk inside
  rw [O3jc.resolveInstance, compiled.ancestors inside, List.findSome?_map]
  exact findSome_congr fun j member => (compiled.instanceMethods j (below j member)).methodNamed name

theorem CompiledHierarchy.resolveClass (name : String) :
    O3jc.resolveClass rt0 (cls i) name = h.resolveClass i name := by
  obtain ⟨_, below⟩ := h.walk inside
  have classMethods : ∀ j < h.decls.length, classMethodNamed rt0 (cls j) name = h.method true name j := by
    intro j inside
    obtain ⟨m, isa, _⟩ := compiled.module.static.metaclass (cls j) (mem_hierarchyImage inside)
    rw [classMethodNamed, isa, Option.bind_some]
    exact (compiled.classMethods j inside m isa).methodNamed name
  rw [O3jc.resolveClass, compiled.ancestors inside, List.findSome?_map, List.getLast?_map, Hierarchy.resolveClass,
    Hierarchy.resolveClassMethod, Hierarchy.rootMethod]
  congr 1
  · exact findSome_congr fun j member => classMethods j (below j member)
  · cases last : (h.ancestors i).getLast? with
    | none => rfl
    | some root =>
        have member := List.mem_of_getLast? last
        exact (compiled.instanceMethods root (below root member)).methodNamed name

omit inside in
/-- Loading gives the metaclasses their links. -/
theorem CompiledHierarchy.links (prepared : Prepared rt0 rt1) (load : objcLoad rt1 info = some stat) :
    MetaclassLinks h stat cls := by
  obtain ⟨middle, fixedUp, _, memory, _⟩ := prepared.fixup compiled.module
  rw [objcLoad_eq fixedUp] at load
  have static := compiled.module.static.of_memory memory
  obtain ⟨_, progress, loaded⟩ := loadBatches_spec static compiled.module.listed load
  have sameClass : ∀ c, middle.classes c = rt0.classes c := fun c => congrFun memory.classes c
  have sameSuper : middle.superclass = rt0.superclass := memory.sameClasses.superclass
  have isa : ∀ j < h.decls.length, (stat.classes (cls j)).isa = (rt0.classes (cls j)).isa := by
    intro j below
    rw [progress.isaPlain _ (static.cls _ (mem_hierarchyImage below)).1, sameClass]
  intro i inside
  obtain ⟨kind, below⟩ := static.cls _ (mem_hierarchyImage inside)
  obtain ⟨m, isMeta, _⟩ := static.metaclass _ (mem_hierarchyImage inside)
  have isLoaded := (loaded (cls i)).mpr below
  have inChain := (h.walk inside).2
  refine ⟨m, ?_, ?_, ?_⟩
  · rw [isa i inside, ← sameClass, isMeta]
  · obtain ⟨root, member, isRoot, link⟩ := progress.isaMeta (cls i) m kind isMeta isLoaded
    rw [memory.sameClasses.ancestors, compiled.ancestors inside] at member
    obtain ⟨r, inAncestors, rfl⟩ := List.mem_map.mp member
    rw [sameSuper, compiled.superclass r (inChain r inAncestors), Option.map_eq_none_iff] at isRoot
    exact ⟨r, inAncestors, isRoot, by rw [link, isa r (inChain r inAncestors), sameClass]⟩
  · rw [progress.superMeta (cls i) m kind isMeta isLoaded, sameSuper, compiled.superclass i inside]
    cases link : h.superclass i with
    | none => rfl
    | some s =>
        have before := (h.superclass_lt link).trans inside
        simp only [Option.map_some, Option.elim_some]
        rw [isa s before, sameClass]

end Static

/-- Two receivers answer a name alike, whenever it is registered in the two processes. -/
def SameAnswer (dyn stat : Runtime) (built loaded : ObjcPtr) (name : String) : Prop :=
  ∀ dyn1 dyn2 sel1 stat1 stat2 sel2, Reachable DispatchOp.exec DispatchOp.Known dyn dyn1 →
    selRegisterNameStr dyn1 name = some (dyn2, sel1) → Reachable DispatchOp.exec DispatchOp.Known stat stat1 →
    selRegisterNameStr stat1 name = some (stat2, sel2) →
    (objcMsgLookup dyn2 (some built) sel1).2 = (objcMsgLookup stat2 (some loaded) sel2).2

/-- Both construction paths answer all messages alike and link the metaclasses alike. -/
structure ConstructionsAgree (h : Hierarchy) (dyn stat : Runtime) (ptr cls : Nat → ClassPtr) : Prop where
  instances : ∀ i < h.decls.length, ∀ name, SameAnswer dyn stat (.object (ptr i)) (.object (cls i)) name
  classObjects : ∀ i < h.decls.length, ∀ name,
    SameAnswer dyn stat (.classObject (ptr i)) (.classObject (cls i)) name
  builtLinks : MetaclassLinks h dyn ptr
  loadedLinks : MetaclassLinks h stat cls

/-- A class message of the name finds a class method, or the root class has no instance method for it either. -/
def Hierarchy.NeedsNoRoot (h : Hierarchy) (i : Nat) (name : String) : Prop :=
  (h.resolveClassMethod i name).isSome = true ∨ h.rootMethod i name = none

theorem Hierarchy.needsNoRoot_iff (h : Hierarchy) (i : Nat) (name : String) :
    h.NeedsNoRoot i name ↔ h.resolveClassMethod i name = h.resolveClass i name := by
  rw [NeedsNoRoot, resolveClass]
  cases h.resolveClassMethod i name with
  | some imp => simp
  | none => simp [eq_comm]

/-- The name of a method of the hierarchy can be registered. -/
theorem Hierarchy.encodable (h : Hierarchy) {i : Nat} {name : String} (declared : (h.rootMethod i name).isSome = true) :
    ∃ cstr, CStr.ofStr name = some cstr := by
  obtain ⟨imp, isMethod⟩ := Option.isSome_iff_exists.mp declared
  obtain ⟨root, _, found⟩ := Option.bind_eq_some_iff.mp isMethod
  obtain ⟨m, first, _⟩ := Option.map_eq_some_iff.mp found
  have matched : m.name = name := by
    have holds := List.find?_some first
    simp only [Bool.and_eq_true, beq_iff_eq] at holds
    exact holds.2
  have member := List.mem_of_find?_eq_some first
  rw [Hierarchy.methods] at member
  cases declares : h.decls[root]? with
  | none =>
      rw [declares] at member
      exact absurd member List.not_mem_nil
  | some d =>
      rw [declares] at member
      rw [← matched]
      exact Option.isSome_iff_exists.mp (h.methodsNamed d (List.mem_of_getElem? declares) m member)

section Both

variable {h : Hierarchy} {rt0 rt1 dyn stat : Runtime} {info : ObjcModuleInfo} {cls : Nat → ClassPtr}
  {base first : Nat} {declared : Nat → List MethodDecl}
  (compiled : CompiledHierarchy h rt0 info cls) (prepared : Prepared rt0 rt1)
  (load : objcLoad rt1 info = some stat) (built : Built h base first dyn h.decls.length declared)
  (all : ∀ i < h.decls.length, declared i = h.methods i) {i : Nat} (inside : i < h.decls.length) (name : String)

include compiled prepared load

/-- A message to a loaded class is answered by the chain of its declaration. -/
theorem CompiledHierarchy.answers {stat1 stat2 : Runtime} {name : String} {sel : SEL}
    (after : Reachable DispatchOp.exec DispatchOp.Known stat stat1)
    (result : selRegisterNameStr stat1 name = some (stat2, sel)) {i : Nat} (inside : i < h.decls.length) :
    (objcMsgLookup stat2 (some (.object (cls i))) sel).2 = h.resolveInstance i name ∧
      (objcMsgLookup stat2 (some (.classObject (cls i))) sel).2 = h.resolveClass i name := by
  obtain ⟨inv, registered⟩ := prepared.resolving compiled.module load after result
  rw [← compiled.resolveInstance inside, ← compiled.resolveClass inside]
  exact inv.answers compiled.module registered (mem_hierarchyImage inside)

include built all inside

theorem sameAnswer_object : SameAnswer dyn stat (.object (clsPtr first i)) (.object (cls i)) name := by
  intro dyn1 dyn2 sel1 stat1 stat2 sel2 dynRun dynResult statRun statResult
  rw [(built.answers all dynRun dynResult inside).1,
    (compiled.answers prepared load statRun statResult inside).1]

/-- A class message is answered alike exactly when it does not depend on the root's instance methods. -/
theorem sameAnswer_classObject_iff :
    SameAnswer dyn stat (.classObject (clsPtr first i)) (.classObject (cls i)) name ↔ h.NeedsNoRoot i name := by
  constructor
  · intro same
    by_cases isMethod : (h.rootMethod i name).isSome = true
    · -- The name can be registered in both processes, so the two answers can be compared.
      obtain ⟨cstr, encoded⟩ := h.encodable isMethod
      obtain ⟨dyn2, sel1, dynResult⟩ := selRegisterNameStr_total dyn encoded
      obtain ⟨stat2, sel2, statResult⟩ := selRegisterNameStr_total stat encoded
      have answers := same dyn dyn2 sel1 stat stat2 sel2 .refl dynResult .refl statResult
      rw [(built.answers all .refl dynResult inside).2,
        (compiled.answers prepared load .refl statResult inside).2] at answers
      exact (h.needsNoRoot_iff i name).mpr answers
    · exact .inr (Option.not_isSome_iff_eq_none.mp isMethod)
  · intro condition dyn1 dyn2 sel1 stat1 stat2 sel2 dynRun dynResult statRun statResult
    rw [(built.answers all dynRun dynResult inside).2,
      (compiled.answers prepared load statRun statResult inside).2]
    exact (h.needsNoRoot_iff i name).mp condition

end Both

/-- No built metaclass has the isa of a root metaclass. -/
theorem Built.links_iff {h : Hierarchy} {base first : Nat} {dyn : Runtime} {declared : Nat → List MethodDecl}
    (built : Built h base first dyn h.decls.length declared) {ptr : Nat → ClassPtr}
    (atPtr : ∀ i < h.decls.length, ptr i = clsPtr first i) : MetaclassLinks h dyn ptr ↔ h.decls = [] := by
  constructor
  · intro links
    by_contra nonempty
    have inside : 0 < h.decls.length := List.length_pos_iff.mpr nonempty
    obtain ⟨m, isa, ⟨root, member, _, link⟩, _⟩ := links 0 inside
    rw [atPtr 0 inside, built.isa 0 inside] at isa
    have below := (h.walk inside).2 root member
    rw [← Option.some.inj isa, built.metaIsa 0 inside, atPtr root below, built.isa root below] at link
    exact absurd link (by simp)
  · intro empty i inside
    rw [empty] at inside
    exact absurd inside (Nat.not_lt_zero i)

/-- Both paths succeed. -/
theorem CompiledHierarchy.constructs {h : Hierarchy} {rt0 rt1 : Runtime} {info : ObjcModuleInfo}
    {cls : Nat → ClassPtr} (compiled : CompiledHierarchy h rt0 info cls) (prepared : Prepared rt0 rt1) :
    ∃ dyn declared stat, h.build rt1 = some (dyn, (List.range h.decls.length).map (clsPtr rt1.nextClass)) ∧
      Built h rt0.nextSelector rt1.nextClass dyn h.decls.length declared ∧
      (∀ i < h.decls.length, declared i = h.methods i) ∧ objcLoad rt1 info = some stat := by
  obtain ⟨dyn, declared, result, built, all⟩ :=
    h.build_spec (compiled.module.static.of_memory prepared.memory) prepared.sel
  have named : ∀ c ∈ (List.range h.decls.length).map cls, (rt0.classes c).name.toStr.isSome = true := by
    intro c member
    obtain ⟨i, inRange, rfl⟩ := List.mem_map.mp member
    have inside := List.mem_range.mp inRange
    rw [compiled.name i h.decls[i] (List.getElem?_eq_getElem inside)]
    exact h.named _ (List.getElem_mem inside)
  obtain ⟨stat, load⟩ := Option.isSome_iff_exists.mp (prepared.load_total compiled.module named)
  exact ⟨dyn, declared, stat, result, built, all, load⟩

/-- The pointer list holds the addresses of the consecutive allocations. -/
theorem getD_clsPtr {count i : Nat} (first : ClassPtr) (inside : i < count) :
    ((List.range count).map (clsPtr first)).getD i 0 = clsPtr first i := by
  simp [List.getD, inside]

/-- Both paths succeed. Instance messages always agree, a class message agrees exactly when it does not need the
root's instance methods, and everything agrees exactly when there is no class. -/
theorem construction_agrees {h : Hierarchy} {rt0 rt1 : Runtime} {info : ObjcModuleInfo} {cls : Nat → ClassPtr}
    (compiled : CompiledHierarchy h rt0 info cls)
    (before : Reachable DispatchOp.exec DispatchOp.Registers rt0 rt1) :
    ∃ dyn ptrs stat, h.build rt1 = some (dyn, ptrs) ∧ ptrs.length = h.decls.length ∧
      objcLoad rt1 info = some stat ∧
      (∀ i < h.decls.length, ∀ name,
        SameAnswer dyn stat (.object (ptrs.getD i 0)) (.object (cls i)) name ∧
        (SameAnswer dyn stat (.classObject (ptrs.getD i 0)) (.classObject (cls i)) name ↔ h.NeedsNoRoot i name)) ∧
      MetaclassLinks h stat cls ∧
      (∀ i s, h.superclass i = some s → ∃ m, (dyn.classes (ptrs.getD i 0)).isa = some m ∧
        dyn.superclass m = (dyn.classes (ptrs.getD s 0)).isa) ∧
      (ConstructionsAgree h dyn stat (fun i => ptrs.getD i 0) cls ↔ h.decls = []) := by
  have prepared := prepared_of_registers compiled.module before
  obtain ⟨dyn, declared, stat, result, built, all, load⟩ := compiled.constructs prepared
  have links := built.links_iff fun i inside => getD_clsPtr rt1.nextClass inside
  refine ⟨dyn, _, stat, result, by simp, load, fun i inside name => ?_, compiled.links prepared load,
    fun i s link => ?_, fun agree => links.mp agree.builtLinks, fun empty => ?_⟩
  · rw [getD_clsPtr _ inside]
    exact ⟨sameAnswer_object compiled prepared load built all inside name,
      sameAnswer_classObject_iff compiled prepared load built all inside name⟩
  · have inside : i < h.decls.length := by
      obtain ⟨d, declares, _⟩ := Option.bind_eq_some_iff.mp link
      exact (List.getElem?_eq_some_iff.mp declares).1
    have before := (h.superclass_lt link).trans inside
    rw [getD_clsPtr _ inside, getD_clsPtr _ before]
    refine ⟨_, built.isa i inside, ?_⟩
    rw [built.metaSuper i inside, link, built.isa s before]
    rfl
  · have none : ∀ i, ¬ i < h.decls.length := fun i => by rw [empty]; exact Nat.not_lt_zero i
    exact ⟨fun i inside => absurd inside (none i), fun i inside => absurd inside (none i), links.mpr empty,
      compiled.links prepared load⟩

/-- The declarations of the sample module: a root class with a method of either kind, and an empty subclass. -/
def pairDecls : List ClassDecl :=
  [⟨(compiledPair.classes 0).name, none, [⟨"g", 7, none, false⟩, ⟨"h", 8, none, true⟩]⟩,
    ⟨(compiledPair.classes 2).name, some 0, []⟩]

theorem pairDecls_superFirst (i : Nat) (d : ClassDecl) (declares : pairDecls[i]? = some d) :
    ∀ s ∈ d.superclass, s < i := by
  intro s isSuper
  match i, declares with
  | 0, declares =>
      obtain rfl := Option.some.inj declares
      exact absurd isSuper (by simp)
  | 1, declares =>
      obtain rfl := Option.some.inj declares
      obtain rfl : 0 = s := Option.some.inj isSuper
      exact Nat.zero_lt_one

theorem pairDecls_named : ∀ d ∈ pairDecls, d.name.toStr.isSome = true := by
  decide +kernel

theorem pairDecls_methodsNamed : ∀ d ∈ pairDecls, ∀ m ∈ d.methods, (CStr.ofStr m.name).isSome = true := by
  decide +kernel

def pairHierarchy : Hierarchy := ⟨pairDecls, pairDecls_superFirst, pairDecls_named, pairDecls_methodsNamed⟩

theorem compiledPair_hierarchy : CompiledHierarchy pairHierarchy compiledPair compiledPairModule fun i => 2 * i where
  module := compiledPair_module
  name i d declares := by
    match i, declares with
    | 0, declares =>
        obtain rfl := Option.some.inj declares
        rfl
    | 1, declares =>
        obtain rfl := Option.some.inj declares
        rfl
  superclass := by decide +kernel
  instanceMethods := by
    unfold CompilesTo
    decide +kernel
  classMethods := by
    unfold CompilesTo
    decide +kernel

/-- The class method of the root is found through the subclass on both paths. -/
theorem construction_agrees_compiledPair : ∃ dyn ptrs stat,
    pairHierarchy.build compiledPair = some (dyn, ptrs) ∧ objcLoad compiledPair compiledPairModule = some stat ∧
      SameAnswer dyn stat (.classObject (ptrs.getD 1 0)) (.classObject 2) "h" := by
  obtain ⟨dyn, ptrs, stat, result, _, load, answers, _⟩ := construction_agrees compiledPair_hierarchy .refl
  exact ⟨dyn, ptrs, stat, result, load, (answers 1 (by decide) "h").2.mpr (.inl (by decide +kernel))⟩

/-- The loaded subclass answers the root's instance method as a class object, and the built one does not. -/
theorem construction_disagrees : ∃ dyn ptrs stat,
    pairHierarchy.build compiledPair = some (dyn, ptrs) ∧ objcLoad compiledPair compiledPairModule = some stat ∧
      ¬ SameAnswer dyn stat (.classObject (ptrs.getD 1 0)) (.classObject 2) "g" ∧
      ¬ MetaclassLinks pairHierarchy dyn fun i => ptrs.getD i 0 := by
  have prepared := prepared_of_registers compiledPair_module .refl
  obtain ⟨dyn, declared, stat, result, built, all, load⟩ := compiledPair_hierarchy.constructs prepared
  have inside : 1 < pairHierarchy.decls.length := by decide
  refine ⟨dyn, _, stat, result, load, fun same => ?_, fun links => ?_⟩
  · rw [getD_clsPtr _ inside] at same
    have needsNoRoot := (sameAnswer_classObject_iff compiledPair_hierarchy prepared load built all inside "g").mp same
    unfold Hierarchy.NeedsNoRoot at needsNoRoot
    revert needsNoRoot
    decide +kernel
  · have empty := (built.links_iff fun i inside => getD_clsPtr _ inside).mp links
    exact absurd empty (by decide)

end O3jc
