import O3jc.Runtime.ClassRegistry

namespace O3jc

open Library

/-- The graph fields of a class are everything but its methods and its cache. -/
structure ClassLinks where
  isa : Option ClassPtr
  superClass : Option ClassPtr
  name : CStr
  info : BitVec 64
  instanceSize : Int64
  subclassList : Option ClassPtr
  siblingClass : Option ClassPtr

def ObjcClass.links (cls : ObjcClass) : ClassLinks :=
  ⟨cls.isa, cls.superClass, cls.name, cls.info, cls.instanceSize, cls.subclassList, cls.siblingClass⟩

/-- The string memory, the selector memory and the two selector tables. -/
structure SelectorMemory where
  cStrings : CStrPtr → CStr
  nextCString : Nat
  selectors : SEL → ObjcSelector
  nextSelector : Nat
  nameTable : String → Option CStrPtr
  selTable : String → Option SEL

def Runtime.selectorMemory (rt : Runtime) : SelectorMemory :=
  ⟨rt.cStrings, rt.nextCString, rt.selectors, rt.nextSelector, rt.nameTable, rt.selTable⟩

/-- Selector equality reads the selector memory only. -/
theorem selEq_of_memory {rt rt' : Runtime} (same : rt'.selectorMemory = rt.selectorMemory) :
    selEq rt' = selEq rt := by
  have selectors : rt'.selectors = rt.selectors := congrArg SelectorMemory.selectors same
  funext a b
  simp only [selEq, selNamePtr, selectors]

/-- A class is loaded once it has a cache. -/
def Runtime.Loaded (rt : Runtime) (cls : ClassPtr) : Prop := (rt.classes cls).dtable.isSome = true

instance (rt : Runtime) (cls : ClassPtr) : Decidable (rt.Loaded cls) := inferInstanceAs (Decidable (_ = true))

/-- The nodes of the class's own method-list chain. -/
def Runtime.nodesOf (rt : Runtime) (cls : ClassPtr) : List MethodListPtr :=
  successors rt.nextMethodListOf rt.nextMethodList (rt.classes cls).methodList.head

theorem Runtime.methodEntries_eq (rt : Runtime) (cls : ClassPtr) :
    rt.methodEntries cls = (rt.nodesOf cls).flatMap fun node => (rt.methodLists node).entries.items := by
  simp [methodEntries, methodListIter, nodesOf, List.flatMap_map]

/-- The entry vectors along the class's own chain. -/
def Runtime.chainOf (rt : Runtime) (cls : ClassPtr) : List MethodVec :=
  (rt.nodesOf cls).map fun node => (rt.methodLists node).entries

theorem Runtime.methodEntries_eq_chainOf (rt : Runtime) (cls : ClassPtr) :
    rt.methodEntries cls = (rt.chainOf cls).flatMap MethodVec.items := by
  rw [methodEntries_eq, chainOf, List.flatMap_map]

@[simp] theorem Runtime.modifyClass_classes_self (rt : Runtime) (cls : ClassPtr)
    (change : ObjcClass → ObjcClass) : (rt.modifyClass cls change).classes cls = change (rt.classes cls) := by
  simp [modifyClass]

theorem Runtime.modifyClass_classes_of_ne (rt : Runtime) (cls : ClassPtr) (change : ObjcClass → ObjcClass)
    {other : ClassPtr} (different : other ≠ cls) :
    (rt.modifyClass cls change).classes other = rt.classes other := by
  simp [modifyClass, Function.update_of_ne different]

/-- A write keeps every projection that its change keeps. -/
theorem Runtime.modifyClass_proj {B : Type} (project : ObjcClass → B) (rt : Runtime) (cls : ClassPtr)
    {change : ObjcClass → ObjcClass} (kept : ∀ c, project (change c) = project c) (other : ClassPtr) :
    project ((rt.modifyClass cls change).classes other) = project (rt.classes other) := by
  by_cases same : other = cls
  · subst same
    rw [modifyClass_classes_self, kept]
  · rw [modifyClass_classes_of_ne rt cls change same]

/-- Two states agree on the class graph, the registry and the selectors. -/
structure SameGraph (rt rt' : Runtime) : Prop where
  links : ∀ cls, (rt'.classes cls).links = (rt.classes cls).links
  loaded : ∀ cls, (rt'.classes cls).dtable.isSome = (rt.classes cls).dtable.isSome
  nextClass : rt'.nextClass = rt.nextClass
  registry : rt'.classRegistry = rt.classRegistry
  selectors : rt'.selectorMemory = rt.selectorMemory

/-- Two states agree on every method list. -/
structure SameMethods (rt rt' : Runtime) : Prop where
  heads : ∀ cls, (rt'.classes cls).methodList.head = (rt.classes cls).methodList.head
  lists : rt'.methodLists = rt.methodLists
  nextList : rt'.nextMethodList = rt.nextMethodList

/-- Two states agree on every cache. -/
def SameCaches (rt rt' : Runtime) : Prop := ∀ cls, (rt'.classes cls).dtable = (rt.classes cls).dtable

theorem SameGraph.refl (rt : Runtime) : SameGraph rt rt :=
  ⟨fun _ => rfl, fun _ => rfl, rfl, rfl, rfl⟩

theorem SameGraph.trans {rt rt' rt'' : Runtime} (first : SameGraph rt rt') (second : SameGraph rt' rt'') :
    SameGraph rt rt'' :=
  ⟨fun cls => (second.links cls).trans (first.links cls),
    fun cls => (second.loaded cls).trans (first.loaded cls),
    second.nextClass.trans first.nextClass, second.registry.trans first.registry,
    second.selectors.trans first.selectors⟩

theorem SameMethods.refl (rt : Runtime) : SameMethods rt rt := ⟨fun _ => rfl, rfl, rfl⟩

theorem SameMethods.trans {rt rt' rt'' : Runtime} (first : SameMethods rt rt')
    (second : SameMethods rt' rt'') : SameMethods rt rt'' :=
  ⟨fun cls => (second.heads cls).trans (first.heads cls), second.lists.trans first.lists,
    second.nextList.trans first.nextList⟩

section Agreement

variable {rt rt' : Runtime}

theorem SameGraph.superclass (same : SameGraph rt rt') : rt'.superclass = rt.superclass :=
  funext fun cls => congrArg ClassLinks.superClass (same.links cls)

theorem SameGraph.sibling (same : SameGraph rt rt') : rt'.sibling = rt.sibling :=
  funext fun cls => congrArg ClassLinks.siblingClass (same.links cls)

theorem SameGraph.subclassList (same : SameGraph rt rt') (cls : ClassPtr) :
    (rt'.classes cls).subclassList = (rt.classes cls).subclassList :=
  congrArg ClassLinks.subclassList (same.links cls)

theorem SameGraph.isa (same : SameGraph rt rt') (cls : ClassPtr) :
    (rt'.classes cls).isa = (rt.classes cls).isa :=
  congrArg ClassLinks.isa (same.links cls)

theorem SameGraph.name (same : SameGraph rt rt') (cls : ClassPtr) :
    (rt'.classes cls).name = (rt.classes cls).name :=
  congrArg ClassLinks.name (same.links cls)

theorem SameGraph.isMetaclass (same : SameGraph rt rt') (cls : ClassPtr) :
    (rt'.classes cls).isMetaclass = (rt.classes cls).isMetaclass := by
  have info : (rt'.classes cls).info = (rt.classes cls).info := congrArg ClassLinks.info (same.links cls)
  simp only [ObjcClass.isMetaclass, info]

theorem SameGraph.isRegistered (same : SameGraph rt rt') (cls : ClassPtr) :
    (rt'.classes cls).isRegistered = (rt.classes cls).isRegistered := by
  have info : (rt'.classes cls).info = (rt.classes cls).info := congrArg ClassLinks.info (same.links cls)
  simp only [ObjcClass.isRegistered, info]

theorem SameGraph.ancestors (same : SameGraph rt rt') : rt'.ancestors = rt.ancestors := by
  funext cls
  simp only [Runtime.ancestors, same.superclass, same.nextClass]

theorem SameGraph.subclasses (same : SameGraph rt rt') : rt'.subclasses = rt.subclasses := by
  funext cls
  simp only [Runtime.subclasses, same.sibling, same.nextClass, same.subclassList]

theorem SameGraph.flushOrder (same : SameGraph rt rt') (cls : ClassPtr) :
    flushOrder rt' cls = flushOrder rt cls := by
  simp only [O3jc.flushOrder, same.subclasses, same.nextClass]

theorem SameGraph.selEq (same : SameGraph rt rt') : selEq rt' = selEq rt := selEq_of_memory same.selectors

theorem SameGraph.loaded_iff (same : SameGraph rt rt') (cls : ClassPtr) : rt'.Loaded cls ↔ rt.Loaded cls := by
  simp only [Runtime.Loaded, same.loaded cls]

theorem SameMethods.nodesOf (same : SameMethods rt rt') : rt'.nodesOf = rt.nodesOf := by
  have next : rt'.nextMethodListOf = rt.nextMethodListOf := by
    funext node
    simp only [Runtime.nextMethodListOf, same.lists]
  funext cls
  simp only [Runtime.nodesOf, next, same.nextList, same.heads]

theorem SameMethods.chainOf (same : SameMethods rt rt') : rt'.chainOf = rt.chainOf := by
  funext cls
  simp only [Runtime.chainOf, same.nodesOf, same.lists]

theorem SameMethods.methodEntries (same : SameMethods rt rt') : rt'.methodEntries = rt.methodEntries := by
  funext cls
  simp only [Runtime.methodEntries_eq_chainOf, same.chainOf]

theorem ownMethod_of_same (graph : SameGraph rt rt') (methods : SameMethods rt rt') :
    rt'.ownMethod = rt.ownMethod := by
  funext cls sel
  simp only [Runtime.ownMethod, methods.methodEntries, graph.selEq]

/-- Dispatch depends on the graph and the method lists only. -/
theorem classLookupMethod_of_same (graph : SameGraph rt rt') (methods : SameMethods rt rt') :
    classLookupMethod rt' = classLookupMethod rt := by
  funext cls sel
  simp only [classLookupMethod, graph.ancestors, ownMethod_of_same graph methods]

theorem cacheLookup_of_same (graph : SameGraph rt rt') {cls : ClassPtr}
    (cache : (rt'.classes cls).dtable = (rt.classes cls).dtable) (sel : SEL) :
    rt'.cacheLookup cls sel = rt.cacheLookup cls sel := by
  simp only [Runtime.cacheLookup, CacheInner.lookup, cache, graph.selEq]

theorem isaOf_of_same (graph : SameGraph rt rt') : rt'.isaOf = rt.isaOf := by
  funext receiver
  cases receiver with
  | object cls => rfl
  | classObject cls => exact graph.isa cls

end Agreement

section CacheSteps

variable (rt : Runtime) (cls : ClassPtr)

theorem flushCache_sameGraph : SameGraph rt (rt.flushCache cls) where
  links := rt.modifyClass_proj ObjcClass.links cls fun _ => rfl
  loaded := rt.modifyClass_proj (fun c => c.dtable.isSome) cls fun _ => by simp
  nextClass := rfl
  registry := rfl
  selectors := rfl

theorem flushCache_sameMethods : SameMethods rt (rt.flushCache cls) where
  heads := rt.modifyClass_proj (fun c => c.methodList.head) cls fun _ => rfl
  lists := rfl
  nextList := rfl

theorem cacheInsert_sameGraph (sel : SEL) (imp : IMP) : SameGraph rt (rt.cacheInsert cls sel imp) where
  links := rt.modifyClass_proj ObjcClass.links cls fun _ => rfl
  loaded := rt.modifyClass_proj (fun c => c.dtable.isSome) cls fun _ => by simp
  nextClass := rfl
  registry := rfl
  selectors := rfl

theorem cacheInsert_sameMethods (sel : SEL) (imp : IMP) : SameMethods rt (rt.cacheInsert cls sel imp) where
  heads := rt.modifyClass_proj (fun c => c.methodList.head) cls fun _ => rfl
  lists := rfl
  nextList := rfl

end CacheSteps

/-- Flushing a list of classes empties exactly their caches. -/
theorem foldl_flushCache_spec (classes : List ClassPtr) (rt : Runtime) :
    SameGraph rt (classes.foldl Runtime.flushCache rt) ∧
      SameMethods rt (classes.foldl Runtime.flushCache rt) ∧
      ∀ cls, ((classes.foldl Runtime.flushCache rt).classes cls).dtable =
        if cls ∈ classes then (rt.classes cls).dtable.map CacheInner.flush else (rt.classes cls).dtable := by
  induction classes generalizing rt with
  | nil => exact ⟨.refl rt, .refl rt, fun cls => by simp⟩
  | cons first rest ih =>
      obtain ⟨graph, methods, caches⟩ := ih (rt.flushCache first)
      refine ⟨(flushCache_sameGraph rt first).trans graph, (flushCache_sameMethods rt first).trans methods, ?_⟩
      intro cls
      rw [List.foldl_cons, caches]
      by_cases same : cls = first
      · subst same
        simp only [Runtime.flushCache, Runtime.modifyClass_classes_self, List.mem_cons_self, if_true,
          Option.map_map]
        split <;> rfl
      · rw [Runtime.flushCache, Runtime.modifyClass_classes_of_ne rt first _ same]
        simp [same]

theorem flushClassCacheTree_spec (rt : Runtime) (cls : ClassPtr) :
    SameGraph rt (flushClassCacheTree rt cls) ∧ SameMethods rt (flushClassCacheTree rt cls) ∧
      ∀ other, ((flushClassCacheTree rt cls).classes other).dtable =
        if other ∈ flushOrder rt cls then (rt.classes other).dtable.map CacheInner.flush
        else (rt.classes other).dtable := by
  rw [flushClassCacheTree_eq]
  exact foldl_flushCache_spec (flushOrder rt cls) rt

/-- The sweep over the registry flushes the trees below its values. -/
theorem flushAllCaches_eq (rt : Runtime) :
    flushAllCaches rt =
      (rt.classRegistry.flatMap fun entry => flushOrder rt entry.2).foldl Runtime.flushCache rt := by
  have sweep : ∀ (entries : List (String × ClassPtr)) (start : Runtime), SameGraph rt start →
      entries.foldl (fun rt entry => flushClassCacheTree rt entry.2) start =
        (entries.flatMap fun entry => flushOrder rt entry.2).foldl Runtime.flushCache start := by
    intro entries
    induction entries with
    | nil => intro start _; rfl
    | cons entry rest ih =>
        intro start graph
        have step := (flushClassCacheTree_spec start entry.2).1
        rw [List.foldl_cons, ih _ (graph.trans step), flushClassCacheTree_eq, graph.flushOrder,
          List.flatMap_cons, List.foldl_append]
  exact sweep rt.classRegistry rt (.refl rt)

/-- The classes whose caches the sweep over the registry reaches. -/
def flushAllOrder (rt : Runtime) : List ClassPtr := rt.classRegistry.flatMap fun entry => flushOrder rt entry.2

theorem flushAllCaches_spec (rt : Runtime) :
    SameGraph rt (flushAllCaches rt) ∧ SameMethods rt (flushAllCaches rt) ∧
      ∀ other, ((flushAllCaches rt).classes other).dtable =
        if other ∈ flushAllOrder rt then (rt.classes other).dtable.map CacheInner.flush
        else (rt.classes other).dtable := by
  rw [flushAllCaches_eq]
  exact foldl_flushCache_spec (flushAllOrder rt) rt

/-- Flushing leaves the method-list field of every class, whatever it holds. -/
theorem foldl_flushCache_methodList (classes : List ClassPtr) (rt : Runtime) (cls : ClassPtr) :
    ((classes.foldl Runtime.flushCache rt).classes cls).methodList = (rt.classes cls).methodList := by
  induction classes generalizing rt with
  | nil => rfl
  | cons first rest ih =>
      have kept : ∀ c : ObjcClass, ({ c with dtable := c.dtable.map CacheInner.flush } : ObjcClass).methodList =
          c.methodList := fun _ => rfl
      rw [List.foldl_cons, ih]
      exact rt.modifyClass_proj ObjcClass.methodList first kept cls

end O3jc
