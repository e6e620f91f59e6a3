import O3jc.Dispatch.Graph
import O3jc.Locking.Order

/-
This file proves that a call whose locks are free computes what its function computes.
-/

namespace O3jc

open Library LockMachine

/-- The functions of the cache leave a class without one as it is. -/
theorem modifyCache_of_unloaded {rt : Runtime} {cls : ClassPtr} (change : CacheInner → CacheInner)
    (unloaded : (rt.classes cls).dtable = none) :
    rt.modifyClass cls (fun c => { c with dtable := c.dtable.map change }) = rt := by
  have same : ({ rt.classes cls with dtable := (rt.classes cls).dtable.map change } : ObjcClass) = rt.classes cls := by
    rw [unloaded]
    exact congrArg (fun cache => { rt.classes cls with dtable := cache }) unloaded.symm
  rw [Runtime.modifyClass, same, Function.update_eq_self]

section Calls

variable {Obj Loc Stripe Shard : Type} [DecidableEq Obj] [DecidableEq Loc] (layout : Layout Obj Loc Stripe Shard)
  (d : Shared Obj Loc) (bodies : List Obj)

/-- The thread goes by itself from a point to another one of the same body. -/
def Alone (first last : Shared Obj Loc × LockPoint Obj Loc) : Prop :=
  Runs (Position.action layout) (first.1, ⟨first.2, bodies⟩) (last.1, ⟨last.2, bodies⟩)

theorem objcRetain_alone (obj : Obj) (load : Option Loc) :
    Alone layout bodies (d, .retain obj load)
      ({ d with table := (objcRetain d.table (some obj)).1 },
        match load with
        | none => .user (.id (objcRetain d.table (some obj)).2)
        | some loc => .unlockSlot loc (.id (objcRetain d.table (some obj)).2)) :=
  .acquire rfl (.access rfl (.release rfl (.refl _)))

theorem objcLoadWeakRetained_alone (loc : Loc) :
    Alone layout bodies (d, .loadWeak loc)
      ({ d with toMemory := (objcLoadWeakRetained d.toMemory loc).1 },
        .user (.id (objcLoadWeakRetained d.toMemory loc).2)) := by
  refine .acquire rfl (.access rfl ?_)
  simp only [objcLoadWeakRetained]
  cases d.slots loc with
  | none => exact .release rfl (.refl _)
  | some obj => exact (objcRetain_alone layout d bodies obj (some loc)).trans (.release rfl (.refl _))

/-- The second part of a weak write. -/
theorem enterNew_alone (loc : Loc) (write : WeakWrite Obj) :
    Alone layout bodies (d, enterNew loc write)
      ({ d with
        table := (registerWeak d.table loc write.new).1
        slots := Function.update d.slots loc (registerWeak d.table loc write.new).2 },
        .user (write.answer (registerWeak d.table loc write.new).2)) := by
  unfold enterNew
  cases write.new with
  | none => exact .access rfl (.release rfl (.refl _))
  | some obj => exact .acquire rfl (.access rfl (.release rfl (.release rfl (.refl _))))

/-- `objc_store_weak` and `objc_destroy_weak` unregister the slot and then enter the new object. -/
theorem writeWeak_alone (loc : Loc) (write : WeakWrite Obj) :
    Alone layout bodies (d, .writeWeak loc write)
      ({ d with toMemory := (objcStoreWeak d.toMemory loc write.new).1 },
        .user (write.answer (objcStoreWeak d.toMemory loc write.new).2)) := by
  refine .acquire rfl (.access rfl ?_)
  simp only [objcStoreWeak]
  cases d.slots loc with
  | none => exact enterNew_alone layout d bodies loc write
  | some old =>
      exact .acquire rfl (.access rfl (.release rfl
        (enterNew_alone layout { d with table := unregisterWeak d.table loc (some old) } bodies loc write)))

theorem objcDestroyWeak_alone (loc : Loc) :
    Alone layout bodies (d, .writeWeak loc .destroy)
      ({ d with toMemory := objcDestroyWeak d.toMemory loc }, .user .nothing) :=
  writeWeak_alone layout d bodies loc .destroy

theorem objcInitWeak_alone (loc : Loc) (obj : Option Obj) :
    Alone layout bodies (d, .initWeak loc obj)
      ({ d with toMemory := (objcInitWeak d.toMemory loc obj).1 },
        .user (.id (objcInitWeak d.toMemory loc obj).2)) := by
  refine .access rfl ?_
  cases obj with
  | none => exact .refl _
  | some obj =>
      exact writeWeak_alone layout { d with slots := Function.update d.slots loc none } bodies loc (.store (some obj))

/-- `sel_register_name_str` returns to its caller with the selector, or panics. -/
theorem selRegisterNameStr_alone (name : String) (caller : Caller Obj) :
    Alone layout bodies (d, .selRegister name caller)
      (match selRegisterNameStr d.rt name with
        | none => (d, .finished)
        | some (rt, sel) =>
            ({ d with rt }, match caller with
              | .user => .user (.sel sel)
              | .dealloc obj => .msgLookup (some (layout.pointer obj)) sel caller)) := by
  refine .acquire rfl (.access rfl ?_)
  simp only [selRegisterNameStr]
  cases d.rt.selTable name with
  | some sel => exact .release rfl (.refl _)
  | none =>
      refine .acquire rfl (.access rfl ?_)
      cases internSelectorName d.rt name with
      | none => exact .release rfl (.release rfl (.refl _))
      | some interned => exact .release rfl (.access rfl (.release rfl (.refl _)))

/-- The slow path of `objc_msg_lookup`. -/
def slowLookup (rt : Runtime) (cls : ClassPtr) (sel : SEL) : Runtime × Option IMP :=
  match classLookupMethod rt cls sel with
  | none => (rt, none)
  | some imp => (rt.cacheInsert cls sel imp, some imp)

/-- The walk and the insertion of a lookup that missed the cache. -/
theorem slowLookup_alone (cls : ClassPtr) (sel : SEL) (caller : Caller Obj) :
    Alone layout bodies (d, .walk cls sel caller)
      ({ d with rt := (slowLookup d.rt cls sel).1 }, .lookedUp (slowLookup d.rt cls sel).2 caller) := by
  refine .access rfl ?_
  dsimp only [slowLookup]
  cases classLookupMethod d.rt cls sel with
  | none => exact .refl _
  | some imp =>
      cases cache : (d.rt.classes cls).dtable with
      | none =>
          have same : d.rt.cacheInsert cls sel imp = d.rt := modifyCache_of_unloaded _ cache
          dsimp only
          rw [same]
          exact .refl _
      | some inner => exact .acquire rfl (.access rfl (.release rfl (.refl _)))

/-- `objc_msg_lookup` returns to its caller with the IMP. -/
theorem objcMsgLookup_alone (receiver : Option ObjcPtr) (sel : SEL) (caller : Caller Obj) :
    Alone layout bodies (d, .msgLookup receiver sel caller)
      ({ d with rt := (objcMsgLookup d.rt receiver sel).1 }, .lookedUp (objcMsgLookup d.rt receiver sel).2 caller) := by
  refine .access rfl ?_
  dsimp only [objcMsgLookup]
  cases receiver.bind d.rt.isaOf with
  | none => exact .refl _
  | some cls =>
      have slow := slowLookup_alone layout d bodies cls sel caller
      dsimp only
      cases cache : (d.rt.classes cls).dtable with
      | none =>
          have missed : d.rt.cacheLookup cls sel = none := by
            rw [Runtime.cacheLookup, cache]
            rfl
          rw [missed]
          exact slow
      | some inner =>
          refine .acquire rfl (.access rfl (.release rfl ?_))
          cases d.rt.cacheLookup cls sel with
          | some imp => exact .refl _
          | none => exact slow

/-- A release that leaves references. -/
theorem release_alone_kept {obj : Obj} {table : SideTable Obj Loc} (kept : releaseEntry d.table obj = (table, none)) :
    Alone layout bodies (d, .release obj) ({ d with table }, .user .nothing) := by
  refine .acquire rfl (.access rfl ?_)
  rw [kept]
  exact .release rfl (.refl _)

theorem zero_alone (obj : Obj) (locs : List Loc) :
    Alone layout bodies (d, zeroFrom obj locs)
      ({ d with slots := locs.foldl (fun slots loc => Function.update slots loc none) d.slots },
        .selRegister "dealloc" (.dealloc obj)) := by
  induction locs generalizing d with
  | nil => exact .refl _
  | cons loc rest ih =>
      exact .acquire rfl (.access rfl (.release rfl (ih { d with slots := Function.update d.slots loc none })))

/-- A release of the last reference, up to the lookup of `-dealloc`. -/
theorem release_alone_dropped {obj : Obj} {table : SideTable Obj Loc} {locs : List Loc}
    (dropped : releaseEntry d.table obj = (table, some locs)) {rt : Runtime} {sel : SEL}
    (selects : selRegisterNameStr d.rt "dealloc" = some (rt, sel)) :
    Alone layout bodies (d, .release obj)
      (⟨doDealloc (fun _ mem => mem) ⟨table, d.slots⟩ obj locs,
        (objcMsgLookup rt (some (layout.pointer obj)) sel).1⟩,
        .lookedUp (objcMsgLookup rt (some (layout.pointer obj)) sel).2 (.dealloc obj)) := by
  refine .acquire rfl (.access rfl ?_)
  rw [dropped]
  refine .release rfl ((zero_alone layout { d with table } bodies obj locs).trans ?_)
  have registered := selRegisterNameStr_alone layout
    { d with table, slots := locs.foldl (fun slots loc => Function.update slots loc none) d.slots } bodies "dealloc"
    (.dealloc obj)
  rw [selects] at registered
  exact registered.trans (objcMsgLookup_alone layout _ bodies _ sel (.dealloc obj))

theorem remove_alone (obj : Obj) :
    Alone layout bodies (d, .remove obj) ({ d with table := removeEntry d.table obj }, .user .nothing) :=
  .acquire rfl (.access rfl (.release rfl (.refl _)))

/-- A registration whose class has a decodable name. -/
theorem registerClass_alone {cls : ClassPtr} {rt : Runtime} (registers : registerClass d.rt cls = some rt) :
    Alone layout bodies (d, .registerClass cls) ({ d with rt }, .user .nothing) := by
  obtain ⟨name, decoded, same⟩ := Option.bind_eq_some_iff.mp registers
  obtain rfl := Option.some.inj same
  refine .access rfl ?_
  dsimp only
  rw [decoded]
  exact .acquire rfl (.access rfl (.release rfl (.refl _)))

end Calls

section Flushes

variable {Obj Loc Stripe Shard : Type} [DecidableEq Obj] [DecidableEq Loc] (layout : Layout Obj Loc Stripe Shard)
  (bodies : List Obj) {image : List ClassPtr} (sweep : Option (List ClassPtr)) (answer : RuntimeAnswer Obj)

theorem traverse_sameGraph (fuel : Nat) (rt : Runtime) (cls : ClassPtr) :
    SameGraph rt (traverse Runtime.subclasses Runtime.flushCache fuel rt cls) := by
  rw [traverse_eq_foldl flushCache_subclasses]
  exact (foldl_flushCache_spec _ rt).1

/-- The fuel reaches the ends of the tree below a class. -/
def Deep (fuel : Nat) (rt : Runtime) (cls : ClassPtr) : Prop :=
  rt.Loaded cls ∧ rt.nextClass < fuel + (rt.ancestors cls).length

theorem Deep.of_same {fuel : Nat} {rt rt' : Runtime} {cls : ClassPtr} (deep : Deep fuel rt cls)
    (same : SameGraph rt rt') : Deep fuel rt' cls := by
  rw [Deep, same.loaded_iff, same.nextClass, same.ancestors]
  exact deep

/-- The worklist visits siblings one after the other, when it visits one. -/
theorem visits_alone {fuel : Nat}
    (visit : ∀ (d : Shared Obj Loc) cls pending, GraphInv image d.rt → Deep fuel d.rt cls →
      Alone layout bodies (d, .flush (cls :: pending) sweep answer)
        ({ d with rt := traverse Runtime.subclasses Runtime.flushCache fuel d.rt cls }, .flush pending sweep answer))
    (d : Shared Obj Loc) (inv : GraphInv image d.rt) (classes pending : List ClassPtr)
    (deep : ∀ cls ∈ classes, Deep fuel d.rt cls) :
    Alone layout bodies (d, .flush (classes ++ pending) sweep answer)
      ({ d with rt := classes.foldl (traverse Runtime.subclasses Runtime.flushCache fuel) d.rt },
        .flush pending sweep answer) := by
  induction classes generalizing d with
  | nil => exact .refl _
  | cons cls rest ih =>
      have same := traverse_sameGraph fuel d.rt cls
      have later := ih { d with rt := traverse Runtime.subclasses Runtime.flushCache fuel d.rt cls }
        (inv.of_same same) fun other member => (deep other (List.mem_cons_of_mem cls member)).of_same same
      exact (visit d cls (rest ++ pending) inv (deep cls List.mem_cons_self)).trans later

/-- The worklist visits the tree below a class as the recursion does. -/
theorem visit_alone (fuel : Nat) (d : Shared Obj Loc) (cls : ClassPtr) (pending : List ClassPtr)
    (inv : GraphInv image d.rt) (deep : Deep fuel d.rt cls) :
    Alone layout bodies (d, .flush (cls :: pending) sweep answer)
      ({ d with rt := traverse Runtime.subclasses Runtime.flushCache fuel d.rt cls }, .flush pending sweep answer) := by
  induction fuel generalizing d cls pending with
  | zero =>
      have := inv.ancestors_length (inv.lt_of_loaded deep.1)
      have := deep.2
      omega
  | succ fuel ih =>
      have same := flushCache_sameGraph d.rt cls
      have children : ∀ c ∈ (d.rt.flushCache cls).subclasses cls, Deep fuel (d.rt.flushCache cls) c := by
        intro c member
        rw [same.subclasses] at member
        obtain ⟨link, loaded⟩ := inv.subclassSuper cls c member
        refine Deep.of_same ⟨loaded, ?_⟩ same
        have longer : (d.rt.ancestors c).length = (d.rt.ancestors cls).length + 1 := by
          obtain ⟨above, isAncestors, walk⟩ := walk_some_iff.mp (inv.ancestors_walk (inv.lt_of_loaded loaded))
          rw [link] at walk
          rw [isAncestors, walk.unique (inv.ancestors_walk (inv.lt_of_loaded deep.1)), List.length_cons]
        have := deep.2
        omega
      have cached : (d.rt.classes cls).dtable.isSome = true := deep.1
      refine .access rfl ?_
      dsimp only
      rw [if_pos cached]
      exact .acquire rfl (.access rfl (.release rfl (.access rfl
        (visits_alone layout bodies sweep answer ih { d with rt := d.rt.flushCache cls } (inv.of_same same) _ pending
          children))))

theorem methodExchangeImplementations_eq (rt : Runtime) (m1 m2 : Method) :
    methodExchangeImplementations rt m1 m2 = (swapImplementations rt m1 m2).map flushAllCaches := by
  unfold methodExchangeImplementations swapImplementations
  cases rt.readMethod m1 with
  | none => rfl
  | some first => cases rt.readMethod m2 <;> rfl

theorem swapImplementations_sameGraph {rt swapped : Runtime} {m1 m2 : Method}
    (swaps : swapImplementations rt m1 m2 = some swapped) : SameGraph rt swapped := by
  obtain ⟨first, _, rest⟩ := Option.bind_eq_some_iff.mp swaps
  obtain ⟨second, _, rest⟩ := Option.bind_eq_some_iff.mp rest
  obtain rfl := Option.some.inj rest
  exact (writeImp_sameGraph m1 second.imp).trans (writeImp_sameGraph m2 first.imp)

/-- The fuel of `flush_class_cache_tree` is enough for every class with a cache. -/
theorem GraphInv.deep {rt : Runtime} (inv : GraphInv image rt) {cls : ClassPtr} (loaded : rt.Loaded cls) :
    Deep rt.nextClass rt cls := by
  have positive := List.length_pos_of_mem (inv.self_mem_ancestors (inv.lt_of_loaded loaded))
  exact ⟨loaded, by omega⟩

variable (d : Shared Obj Loc) (inv : GraphInv image d.rt)

include inv

theorem flushClassCacheTree_alone {cls : ClassPtr} (loaded : d.rt.Loaded cls) :
    Alone layout bodies (d, .flush [cls] none answer)
      ({ d with rt := flushClassCacheTree d.rt cls }, .user answer) :=
  (visit_alone layout bodies none answer d.rt.nextClass d cls [] inv (inv.deep loaded)).trans
    (.access rfl (.refl _))

/-- A sweep goes through its classes and then gives the registry back. -/
theorem sweep_alone (classes : List ClassPtr) (loaded : ∀ cls ∈ classes, d.rt.Loaded cls) :
    Alone layout bodies (d, .flush [] (some classes) answer)
      ({ d with rt := classes.foldl flushClassCacheTree d.rt }, .user answer) := by
  induction classes generalizing d with
  | nil => exact .release rfl (.refl _)
  | cons cls rest ih =>
      have same := (flushClassCacheTree_spec d.rt cls).1
      have later := ih { d with rt := flushClassCacheTree d.rt cls } (inv.of_same same) fun other member =>
        (same.loaded_iff other).mpr (loaded other (List.mem_cons_of_mem cls member))
      exact .access rfl ((visit_alone layout bodies (some rest) answer d.rt.nextClass d cls [] inv
        (inv.deep (loaded cls List.mem_cons_self))).trans later)

theorem flushAllCaches_alone :
    Alone layout bodies (d, .flushAll) ({ d with rt := flushAllCaches d.rt }, .user .nothing) := by
  refine .acquire rfl (.access rfl ?_)
  rw [flushAllCaches, ← List.foldl_map]
  refine sweep_alone layout bodies .nothing d inv _ fun cls member => ?_
  obtain ⟨entry, registered, rfl⟩ := List.mem_map.mp member
  exact (inv.registeredClass entry.2 (inv.registrySound entry registered).1).2

theorem exchange_alone {m1 m2 : Method} {rt : Runtime}
    (exchanges : methodExchangeImplementations d.rt m1 m2 = some rt) :
    Alone layout bodies (d, .exchange m1 m2) ({ d with rt }, .user .nothing) := by
  rw [methodExchangeImplementations_eq] at exchanges
  obtain ⟨swapped, swaps, rfl⟩ := Option.map_eq_some_iff.mp exchanges
  refine .access rfl ?_
  dsimp only
  rw [swaps]
  exact flushAllCaches_alone layout bodies { d with rt := swapped } (inv.of_same (swapImplementations_sameGraph swaps))

theorem classAddMethod_alone {cls : ClassPtr} (loaded : d.rt.Loaded cls) (sel : SEL) (imp : IMP)
    (types : Option CStrPtr) (replacing : Bool) :
    Alone layout bodies (d, .addMethod cls sel imp types replacing)
      ({ d with rt := (classAddMethod d.rt cls sel imp types).1 },
        .user (if replacing then .imp none else .added (classAddMethod d.rt cls sel imp types).2)) := by
  refine .access rfl ?_
  dsimp only [classAddMethod]
  split
  · exact .refl _
  · split
    · have same : SameGraph d.rt (d.rt.prependMethod cls ⟨imp, sel, types⟩) := prependMethod_sameGraph cls _
      exact flushClassCacheTree_alone layout bodies _ { d with rt := d.rt.prependMethod cls ⟨imp, sel, types⟩ }
        (inv.of_same same) ((same.loaded_iff cls).mpr loaded)
    · exact .refl _

theorem classReplaceMethod_alone {cls : ClassPtr} (loaded : d.rt.Loaded cls) (sel : SEL) (imp : IMP)
    (types : Option CStrPtr) :
    Alone layout bodies (d, .replaceMethod cls sel imp types)
      ({ d with rt := (classReplaceMethod d.rt cls sel imp types).1 },
        .user (.imp (classReplaceMethod d.rt cls sel imp types).2)) := by
  refine .access rfl ?_
  dsimp only [classReplaceMethod]
  cases findMethodInChain d.rt (d.rt.classes cls).methodList.head sel with
  | none => exact classAddMethod_alone layout bodies d inv loaded sel imp types true
  | some method =>
      have same : SameGraph d.rt (d.rt.writeImp method imp) := writeImp_sameGraph method imp
      exact flushClassCacheTree_alone layout bodies _ { d with rt := d.rt.writeImp method imp } (inv.of_same same)
        ((same.loaded_iff cls).mpr loaded)

end Flushes

section Functions

variable {Tid Obj Loc Stripe Shard : Type} [DecidableEq Tid] [DecidableEq Obj] [DecidableEq Loc] [DecidableEq Stripe]
  [DecidableEq Shard] (layout : Layout Obj Loc Stripe Shard)

/-- `objc_release` takes its thread back to user code or into the body of `-dealloc`. -/
def releaseEnd (d : Shared Obj Loc) (bodies : List Obj) (obj : Obj) : Shared Obj Loc × Position Obj Loc :=
  match releaseEntry d.table obj with
  | (table, none) => ({ d with table }, ⟨.user .nothing, bodies⟩)
  | (table, some weakLocations) =>
      let memory := doDealloc (fun _ mem => mem) ⟨table, d.slots⟩ obj weakLocations
      match selRegisterNameStr d.rt "dealloc" with
      | none => (⟨memory, d.rt⟩, ⟨.finished, bodies⟩)
      | some (rt, sel) =>
          match objcMsgLookup rt (some (layout.pointer obj)) sel with
          | (rt, some _) => (⟨memory, rt⟩, ⟨.user .nothing, obj :: bodies⟩)
          | (rt, none) =>
              (⟨{ memory with table := removeEntry memory.table obj }, rt⟩, ⟨.user .nothing, bodies⟩)

/-- Where a call takes its thread, by the functions of the runtime. A panic ends the thread. -/
def callEnd (d : Shared Obj Loc) (bodies : List Obj) : RuntimeCall Obj Loc → Shared Obj Loc × Position Obj Loc
  | .retain obj =>
      ({ d with table := (objcRetain d.table obj).1 }, ⟨.user (.id (objcRetain d.table obj).2), bodies⟩)
  | .release none => (d, ⟨.user .nothing, bodies⟩)
  | .release (some obj) => releaseEnd layout d bodies obj
  | .initWeak loc obj =>
      ({ d with toMemory := (objcInitWeak d.toMemory loc obj).1 },
        ⟨.user (.id (objcInitWeak d.toMemory loc obj).2), bodies⟩)
  | .storeWeak loc new =>
      ({ d with toMemory := (objcStoreWeak d.toMemory loc new).1 },
        ⟨.user (.id (objcStoreWeak d.toMemory loc new).2), bodies⟩)
  | .loadWeakRetained loc =>
      ({ d with toMemory := (objcLoadWeakRetained d.toMemory loc).1 },
        ⟨.user (.id (objcLoadWeakRetained d.toMemory loc).2), bodies⟩)
  | .loadWeak loc =>
      ({ d with toMemory := (objcLoadWeakRetained d.toMemory loc).1 },
        ⟨.user (.id (objcLoadWeakRetained d.toMemory loc).2), bodies⟩)
  | .destroyWeak loc => ({ d with toMemory := objcDestroyWeak d.toMemory loc }, ⟨.user .nothing, bodies⟩)
  | .msgLookup receiver sel =>
      ({ d with rt := (objcMsgLookup d.rt receiver sel).1 },
        ⟨.user (.imp (objcMsgLookup d.rt receiver sel).2), bodies⟩)
  | .selRegisterNameStr name =>
      match selRegisterNameStr d.rt name with
      | none => (d, ⟨.finished, bodies⟩)
      | some (rt, sel) => ({ d with rt }, ⟨.user (.sel sel), bodies⟩)
  | .classReplaceMethod cls sel imp types =>
      ({ d with rt := (classReplaceMethod d.rt cls sel imp types).1 },
        ⟨.user (.imp (classReplaceMethod d.rt cls sel imp types).2), bodies⟩)
  | .classAddMethod cls sel imp types =>
      ({ d with rt := (classAddMethod d.rt cls sel imp types).1 },
        ⟨.user (.added (classAddMethod d.rt cls sel imp types).2), bodies⟩)
  | .registerClassPair cls =>
      match objcRegisterClassPair d.rt cls with
      | none => (d, ⟨.finished, bodies⟩)
      | some rt => ({ d with rt }, ⟨.user .nothing, bodies⟩)
  | .exchangeImplementations m1 m2 =>
      match methodExchangeImplementations d.rt m1 m2 with
      | none => (d, ⟨.finished, bodies⟩)
      | some rt => ({ d with rt }, ⟨.user .nothing, bodies⟩)

/-- A body of `-dealloc` that returns takes its thread to the end of `objc_release`. -/
def returnEnd (d : Shared Obj Loc) : List Obj → Shared Obj Loc × Position Obj Loc
  | [] => (d, ⟨.finished, []⟩)
  | obj :: rest => ({ d with table := removeEntry d.table obj }, ⟨.user .nothing, rest⟩)

omit [DecidableEq Stripe] [DecidableEq Shard] in
/-- The release up to the body, the body and its return are `objc_release`. -/
theorem objcRelease_eq_releaseEnd (dealloc : Obj → Memory Obj Loc → Memory Obj Loc) {d : Shared Obj Loc}
    {bodies : List Obj} {obj : Obj} (sent : (releaseEnd layout d bodies obj).2.bodies = obj :: bodies) :
    objcRelease dealloc d.toMemory (some obj) =
      (returnEnd ⟨dealloc obj (releaseEnd layout d bodies obj).1.toMemory, d.rt⟩ (obj :: bodies)).1.toMemory := by
  have shorter : bodies ≠ obj :: bodies := fun same => absurd (congrArg List.length same) (by simp)
  cases released : releaseEntry d.table obj with
  | mk table weakLocations =>
      cases weakLocations with
      | none =>
          simp only [releaseEnd, released] at sent
          exact absurd sent shorter
      | some locs =>
          cases selects : selRegisterNameStr d.rt "dealloc" with
          | none =>
              simp only [releaseEnd, released, selects] at sent
              exact absurd sent shorter
          | some selected =>
              obtain ⟨rt, sel⟩ := selected
              cases lookedUp : objcMsgLookup rt (some (layout.pointer obj)) sel with
              | mk after imp =>
                  cases imp with
                  | none =>
                      simp only [releaseEnd, released, selects, lookedUp] at sent
                      exact absurd sent shorter
                  | some imp =>
                      simp only [objcRelease, releaseEnd, returnEnd, released, selects, lookedUp]
                      rfl

/-- The class whose methods a call changes. -/
def RuntimeCall.mutated : RuntimeCall Obj Loc → Option ClassPtr
  | .classReplaceMethod cls _ _ _ => some cls
  | .classAddMethod cls _ _ _ => some cls
  | _ => none

variable {layout} {bodies : List Obj} {image : List ClassPtr} {d : Shared Obj Loc} {call : RuntimeCall Obj Loc}

omit [DecidableEq Stripe] [DecidableEq Shard] in
/-- A release that meets no other thread goes back to user code or into the body of `-dealloc`. -/
theorem releaseEnd_alone (obj : Obj) :
    Runs (Position.action layout) (d, ⟨.release obj, bodies⟩) (releaseEnd layout d bodies obj) := by
  unfold releaseEnd
  split
  · exact release_alone_kept layout d bodies ‹_›
  · rename_i table locs dropped
    dsimp only
    split
    · rename_i panics
      refine .acquire rfl (.access rfl ?_)
      rw [dropped]
      refine .release rfl ((zero_alone layout { d with table } bodies obj locs).trans ?_)
      have registered := selRegisterNameStr_alone layout
        { d with table, slots := locs.foldl (fun slots loc => Function.update slots loc none) d.slots } bodies "dealloc"
        (.dealloc obj)
      rwa [panics] at registered
    · rename_i rt sel selects
      have lookedUp := release_alone_dropped layout d bodies dropped selects
      split
      · rename_i after imp found
        rw [found] at lookedUp
        exact lookedUp.trans (.access rfl (.refl _))
      · rename_i after missing
        rw [missing] at lookedUp
        exact lookedUp.trans (.access rfl (remove_alone layout _ bodies obj))

omit [DecidableEq Stripe] [DecidableEq Shard] in
/-- A call that meets no other thread takes its thread where its function says. -/
theorem callEnd_alone (inv : GraphInv image d.rt) (loaded : ∀ cls ∈ call.mutated, d.rt.Loaded cls) :
    Runs (Position.action layout) (d, ⟨call.begin, bodies⟩) (callEnd layout d bodies call) := by
  cases call with
  | retain obj =>
      cases obj with
      | none => exact .refl _
      | some obj => exact objcRetain_alone layout d bodies obj none
  | release obj =>
      cases obj with
      | none => exact .refl _
      | some obj => exact releaseEnd_alone obj
  | initWeak loc obj => exact objcInitWeak_alone layout d bodies loc obj
  | storeWeak loc new => exact writeWeak_alone layout d bodies loc (.store new)
  | loadWeakRetained loc => exact objcLoadWeakRetained_alone layout d bodies loc
  | loadWeak loc => exact objcLoadWeakRetained_alone layout d bodies loc
  | destroyWeak loc => exact objcDestroyWeak_alone layout d bodies loc
  | msgLookup receiver sel =>
      exact (objcMsgLookup_alone layout d bodies receiver sel .user).trans (.access rfl (.refl _))
  | selRegisterNameStr name =>
      have registered := selRegisterNameStr_alone layout d bodies name .user
      rw [callEnd]
      cases selects : selRegisterNameStr d.rt name <;> rwa [selects] at registered
  | classReplaceMethod cls sel imp types =>
      exact classReplaceMethod_alone layout bodies d inv (loaded cls rfl) sel imp types
  | classAddMethod cls sel imp types =>
      exact classAddMethod_alone layout bodies d inv (loaded cls rfl) sel imp types false
  | registerClassPair cls =>
      rw [callEnd]
      cases registers : objcRegisterClassPair d.rt cls with
      | some rt => exact registerClass_alone layout d bodies registers
      | none =>
          have undecoded : (d.rt.classes cls).name.toStr = none := by
            cases decoded : (d.rt.classes cls).name.toStr with
            | none => rfl
            | some name => simp [objcRegisterClassPair, registerClass, decoded] at registers
          refine .access rfl ?_
          dsimp only
          rw [undecoded]
          exact .refl _
  | exchangeImplementations m1 m2 =>
      rw [callEnd]
      cases exchanges : methodExchangeImplementations d.rt m1 m2 with
      | some rt => exact exchange_alone layout bodies d inv exchanges
      | none =>
          rw [methodExchangeImplementations_eq, Option.map_eq_none_iff] at exchanges
          refine .access rfl ?_
          dsimp only
          rw [exchanges]
          exact .refl _

omit [DecidableEq Stripe] [DecidableEq Shard] in
/-- The return from a body meets one lock. -/
theorem returnEnd_alone (obj : Obj) :
    Runs (Position.action layout) (d, ⟨.remove obj, bodies⟩) (returnEnd d (obj :: bodies)) :=
  remove_alone layout d bodies obj

end Functions

end O3jc
