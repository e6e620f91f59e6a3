import O3jc.Dispatch.Methods

namespace O3jc

open Library

/-- The IMP that a class itself binds to a selector. -/
def Runtime.ownImp (rt : Runtime) (cls : ClassPtr) (sel : SEL) : Option IMP :=
  (rt.ownMethod cls sel).map MethodEntry.imp

theorem classLookupMethod_eq_ownImp (rt : Runtime) (cls : ClassPtr) (sel : SEL) :
    classLookupMethod rt cls sel = (rt.ancestors cls).findSome? fun c => rt.ownImp c sel := rfl

/-- A mutation binds one selector of one class and empties the listed caches. -/
structure Binds (rt rt' : Runtime) (cls : ClassPtr) (sel : SEL) (imp : IMP) (flushed : List ClassPtr) :
    Prop where
  graph : SameGraph rt rt'
  chain : ChainInv rt'
  own : ∀ a s, rt'.ownImp a s = if a = cls ∧ selEq rt sel s = true then some imp else rt.ownImp a s
  caches : ∀ a, (rt'.classes a).dtable =
    if a ∈ flushed then (rt.classes a).dtable.map CacheInner.flush else (rt.classes a).dtable

/-- Flushing after a binding only empties more caches. -/
theorem Binds.then_flush {rt rt' : Runtime} {cls : ClassPtr} {sel : SEL} {imp : IMP}
    (binds : Binds rt rt' cls sel imp []) :
    Binds rt (flushClassCacheTree rt' cls) cls sel imp (flushOrder rt cls) := by
  obtain ⟨graph, methods, caches⟩ := flushClassCacheTree_spec rt' cls
  refine ⟨binds.graph.trans graph, binds.chain.of_same methods, fun a s => ?_, fun a => ?_⟩
  · rw [Runtime.ownImp, ownMethod_of_same graph methods]
    exact binds.own a s
  · rw [caches a, binds.graph.flushOrder, binds.caches a]
    simp

/-- An entry inserted under an unbound selector is a binding. -/
theorem binds_of_insert {rt rt' : Runtime} {cls : ClassPtr} (entry : MethodEntry)
    (unbound : rt.ownMethod cls entry.sel = none) (graph : SameGraph rt rt') (caches : SameCaches rt rt')
    (chain : ChainInv rt') (before after : List MethodEntry) (old : rt.methodEntries cls = before ++ after)
    (new : rt'.methodEntries cls = before ++ entry :: after)
    (others : ∀ a, a ≠ cls → rt'.methodEntries a = rt.methodEntries a) :
    Binds rt rt' cls entry.sel entry.imp [] where
  graph := graph
  chain := chain
  own a s := by
    simp only [Runtime.ownImp, Runtime.ownMethod, graph.selEq]
    by_cases same : a = cls
    · subst same
      rw [Runtime.ownMethod, old] at unbound
      rw [new, find_insert unbound, old]
      cases match_ : selEq rt entry.sel s <;> simp
    · rw [others a same]
      simp [same]
  caches a := by
    rw [if_neg (by simp)]
    exact caches a

section Mutators

variable {rt : Runtime} (inv : ChainInv rt) (cls : ClassPtr) (sel : SEL) (imp : IMP) (types : Option CStrPtr)

/-- The caches that a successful `class_add_method` flushes. -/
def addFlushes (rt : Runtime) (cls : ClassPtr) : List ClassPtr :=
  if (rt.classes cls).isRegistered then flushOrder rt cls else []

/-- The caches that `class_replace_method` flushes. -/
def replaceFlushes (rt : Runtime) (cls : ClassPtr) (sel : SEL) : List ClassPtr :=
  if (rt.ownMethod cls sel).isSome then flushOrder rt cls else addFlushes rt cls

theorem classAddMethod_of_bound (bound : (rt.ownMethod cls sel).isSome = true) :
    classAddMethod rt cls sel imp types = (rt, false) := by
  rw [classAddMethod, methodExists_eq, if_pos bound]

include inv

/-- Prepending a node with an unbound selector is a binding. -/
theorem prependMethod_binds (unbound : rt.ownMethod cls sel = none) :
    Binds rt (rt.prependMethod cls ⟨imp, sel, types⟩) cls sel imp [] := by
  refine binds_of_insert ⟨imp, sel, types⟩ unbound (prependMethod_sameGraph cls _)
    (prependMethod_sameCaches cls _) (prependMethod_chainInv inv cls _)
    [] (rt.methodEntries cls) rfl ?_ fun a different => ?_
  · rw [prependMethod_entries inv, if_pos rfl]
    rfl
  · rw [prependMethod_entries inv, if_neg different]

/-- `class_add_method` on an unbound selector returns true and binds it. -/
theorem classAddMethod_of_unbound (unbound : rt.ownMethod cls sel = none) :
    (classAddMethod rt cls sel imp types).2 = true ∧
      Binds rt (classAddMethod rt cls sel imp types).1 cls sel imp (addFlushes rt cls) := by
  rw [classAddMethod, methodExists_eq, unbound]
  simp only [Option.isSome_none, Bool.false_eq_true, if_false, addFlushes]
  split
  · exact ⟨rfl, (prependMethod_binds inv cls sel imp types unbound).then_flush⟩
  · obtain ⟨chain, ⟨before, after, old, new⟩, others⟩ := pushMethod_spec inv cls ⟨imp, sel, types⟩
    exact ⟨rfl, binds_of_insert ⟨imp, sel, types⟩ unbound (pushMethod_sameGraph cls _)
      (pushMethod_sameCaches cls _) chain before after old new others⟩

/-- Overwriting the first match of a bound selector is a binding. -/
theorem writeImp_binds {method : Method} (found : rt.findMethod cls sel = some method) :
    Binds rt (rt.writeImp method imp) cls sel imp [] where
  graph := writeImp_sameGraph method imp
  chain := writeImp_chainInv method imp inv
  own a s := by
    obtain ⟨inCls, entry, read, _, named⟩ := findMethod_spec found
    rw [Runtime.ownImp, Runtime.ownImp, ← findMethod_bind_read, ← findMethod_bind_read, writeImp_findMethod]
    by_cases here : a = cls ∧ selEq rt sel s = true
    · rw [if_pos here, here.1]
      have same : rt.findMethod cls s = some method := by
        have scans : findMethodInList rt s = findMethodInList rt sel := by
          funext node
          simp only [findMethodInList, selEq_congr_right (selEq_symm here.2)]
        rw [Runtime.findMethod_eq, scans]
        exact found
      rw [same, Option.bind_some, writeImp_readMethod method imp read, if_pos rfl]
      rfl
    · rw [if_neg here]
      cases other : rt.findMethod a s with
      | none => rfl
      | some m =>
          have different : m ≠ method := by
            rintro rfl
            obtain ⟨inA, entry', read', _, named'⟩ := findMethod_spec other
            rw [read] at read'
            cases read'
            refine here ⟨inv.disjoint a cls _ inA inCls, ?_⟩
            rw [← selEq_congr_left named s]
            exact named'
          rw [Option.bind_some, Option.bind_some, writeImp_readMethod method imp read, if_neg different]
  caches a := by
    rw [if_neg (by simp)]
    exact writeImp_sameCaches method imp a

/-- `class_replace_method` binds the selector in every case. -/
theorem classReplaceMethod_binds :
    Binds rt (classReplaceMethod rt cls sel imp types).1 cls sel imp (replaceFlushes rt cls sel) := by
  unfold classReplaceMethod replaceFlushes
  cases found : rt.findMethod cls sel with
  | some method =>
      obtain ⟨_, entry, _, own, _⟩ := findMethod_spec found
      have found' : findMethodInChain rt (rt.classes cls).methodList.head sel = some method := found
      simp only [found', own, Option.isSome_some, if_true]
      exact (writeImp_binds inv cls sel imp found).then_flush
  | none =>
      have unbound := findMethod_eq_none_iff.mp found
      have found' : findMethodInChain rt (rt.classes cls).methodList.head sel = none := found
      simp only [found', unbound, Option.isSome_none, Bool.false_eq_true, if_false]
      exact (classAddMethod_of_unbound inv cls sel imp types unbound).2

omit inv in
/-- The replaced binding is returned. -/
theorem classReplaceMethod_old :
    (classReplaceMethod rt cls sel imp types).2 = rt.ownImp cls sel := by
  unfold classReplaceMethod
  cases found : rt.findMethod cls sel with
  | some method =>
      have found' : findMethodInChain rt (rt.classes cls).methodList.head sel = some method := found
      simp only [found']
      rw [Runtime.ownImp, ← findMethod_bind_read, found]
      rfl
  | none =>
      have found' : findMethodInChain rt (rt.classes cls).methodList.head sel = none := found
      simp only [found']
      rw [Runtime.ownImp, findMethod_eq_none_iff.mp found]
      rfl

end Mutators

/-- Two live handles exchange their IMPs and the sweep over the registry empties its caches. -/
structure Exchanges (rt rt' : Runtime) (m1 m2 : Method) (first second : MethodEntry) : Prop where
  live1 : rt.readMethod m1 = some first
  live2 : rt.readMethod m2 = some second
  graph : SameGraph rt rt'
  chain : ChainInv rt'
  nodes : rt'.nodesOf = rt.nodesOf
  find : rt'.findMethod = rt.findMethod
  read : ∀ m, rt'.readMethod m =
    if m = m2 then some { second with imp := first.imp }
    else if m = m1 then some { first with imp := second.imp } else rt.readMethod m
  caches : ∀ a, (rt'.classes a).dtable =
    if a ∈ flushAllOrder rt then (rt.classes a).dtable.map CacheInner.flush else (rt.classes a).dtable

theorem flushAllOrder_of_same {rt rt' : Runtime} (same : SameGraph rt rt') :
    flushAllOrder rt' = flushAllOrder rt := by
  simp only [flushAllOrder, same.registry, same.flushOrder]

theorem readMethod_of_same {rt rt' : Runtime} (same : SameMethods rt rt') :
    rt'.readMethod = rt.readMethod := by
  funext method
  simp only [Runtime.readMethod, same.lists]

theorem findMethod_of_same {rt rt' : Runtime} (graph : SameGraph rt rt') (same : SameMethods rt rt') :
    rt'.findMethod = rt.findMethod := by
  funext cls sel
  rw [Runtime.findMethod_eq, Runtime.findMethod_eq, same.nodesOf]
  have scans : findMethodInList rt' sel = findMethodInList rt sel := by
    funext node
    simp only [findMethodInList, same.lists, graph.selEq]
  rw [scans]

theorem methodExchangeImplementations_spec {rt rt' : Runtime} (inv : ChainInv rt) {m1 m2 : Method}
    (result : methodExchangeImplementations rt m1 m2 = some rt') :
    ∃ first second, Exchanges rt rt' m1 m2 first second := by
  simp only [methodExchangeImplementations, Option.bind_eq_bind, Option.bind_eq_some_iff,
    Option.some.injEq] at result
  obtain ⟨first, live1, second, live2, rfl⟩ := result
  refine ⟨first, second, ?_⟩
  have live2' : (rt.writeImp m1 second.imp).readMethod m2 =
      some (if m2 = m1 then { first with imp := second.imp } else second) := by
    rw [writeImp_readMethod m1 second.imp live1]
    split
    · rfl
    · exact live2
  have graph1 : SameGraph rt (rt.writeImp m1 second.imp) := writeImp_sameGraph m1 second.imp
  have graph2 : SameGraph (rt.writeImp m1 second.imp) ((rt.writeImp m1 second.imp).writeImp m2 first.imp) :=
    writeImp_sameGraph m2 first.imp
  obtain ⟨graph, methods, caches⟩ := flushAllCaches_spec ((rt.writeImp m1 second.imp).writeImp m2 first.imp)
  have chain2 := writeImp_chainInv m2 first.imp (writeImp_chainInv m1 second.imp inv)
  refine ⟨live1, live2, (graph1.trans graph2).trans graph, chain2.of_same methods, ?_, ?_, fun m => ?_,
    fun a => ?_⟩
  · rw [methods.nodesOf, writeImp_nodesOf, writeImp_nodesOf]
  · rw [findMethod_of_same graph methods, writeImp_findMethod, writeImp_findMethod]
  · rw [readMethod_of_same methods, writeImp_readMethod m2 first.imp live2']
    by_cases isSecond : m = m2
    · rw [if_pos isSecond, if_pos isSecond]
      by_cases same : m2 = m1
      · have entries : first = second := by
          rw [same, live1] at live2
          exact Option.some.inj live2
        rw [if_pos same, entries]
      · rw [if_neg same]
    · rw [if_neg isSecond, if_neg isSecond, writeImp_readMethod m1 second.imp live1]
  · rw [caches a, flushAllOrder_of_same (graph1.trans graph2)]
    rfl

section ExchangeDispatch

variable {rt rt' : Runtime} {m1 m2 : Method} {first second : MethodEntry}
  (swap : Exchanges rt rt' m1 m2 first second)

include swap

theorem Exchanges.resolve : rt'.resolve = rt.resolve := by
  funext cls sel
  simp only [Runtime.resolve, swap.graph.ancestors, swap.find]

/-- Dispatch that ends at one handle gets the other's old IMP. -/
theorem Exchanges.lookup (cls : ClassPtr) (sel : SEL) :
    classLookupMethod rt' cls sel =
      if rt.resolve cls sel = some m2 then some first.imp
      else if rt.resolve cls sel = some m1 then some second.imp
      else classLookupMethod rt cls sel := by
  rw [classLookupMethod_eq_resolve, classLookupMethod_eq_resolve, swap.resolve]
  cases found : rt.resolve cls sel with
  | none => simp
  | some method =>
      rw [Option.bind_some, Option.bind_some, swap.read]
      by_cases isSecond : method = m2
      · simp [isSecond]
      · by_cases isFirst : method = m1
        · simp [isFirst, show m1 ≠ m2 from isFirst ▸ isSecond]
        · simp [isSecond, isFirst]

end ExchangeDispatch

end O3jc
