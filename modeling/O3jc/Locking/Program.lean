import O3jc.Library.LockOrder
import O3jc.Runtime.ClassRegistry
import O3jc.Runtime.RetainRelease

/-
This file takes the functions of the runtime apart at their locks. A guard is released where the source drops it.
-/

namespace O3jc

open Library

/-- The stripe of a slot address, the shard of a key in each table, and the object at an address. -/
structure Layout (Obj Loc Stripe Shard : Type) where
  stripe : Loc → Stripe
  tableShard : Obj → Shard
  selShard : String → Shard
  nameShard : String → Shard
  pointer : Obj → ObjcPtr

/-- The weak-slot stripes, the shards of `TABLE`, `SEL_TABLE` and `NAME_TABLE`, `CLASS_REGISTRY`, and the lock of the
cache of a class. -/
inductive RuntimeLock (Stripe Shard : Type) where
  | slot (stripe : Stripe)
  | table (shard : Shard)
  | sel (shard : Shard)
  | name (shard : Shard)
  | registry
  | cache (cls : ClassPtr)
deriving DecidableEq

/-- What the locks protect, and what the class functions read without a lock. -/
structure Shared (Obj Loc : Type) extends Memory Obj Loc where
  rt : Runtime

/-- A call of user code. `objc_load_weak` adds an autorelease to the retained load and takes the same locks. -/
inductive RuntimeCall (Obj Loc : Type) where
  | retain (obj : Option Obj)
  | release (obj : Option Obj)
  | initWeak (loc : Loc) (obj : Option Obj)
  | storeWeak (loc : Loc) (new : Option Obj)
  | loadWeakRetained (loc : Loc)
  | loadWeak (loc : Loc)
  | destroyWeak (loc : Loc)
  | msgLookup (receiver : Option ObjcPtr) (sel : SEL)
  | selRegisterNameStr (name : String)
  | classReplaceMethod (cls : ClassPtr) (sel : SEL) (imp : IMP) (types : Option CStrPtr)
  | classAddMethod (cls : ClassPtr) (sel : SEL) (imp : IMP) (types : Option CStrPtr)
  | registerClassPair (cls : ClassPtr)
  | exchangeImplementations (m1 m2 : Method)

/-- User code makes a call, or it returns. The outermost code of a thread ends with its return. -/
inductive UserChoice (Obj Loc : Type) where
  | call (call : RuntimeCall Obj Loc)
  | return

inductive RuntimeAnswer (Obj : Type) where
  | nothing
  | id (obj : Option Obj)
  | imp (imp : Option IMP)
  | sel (sel : SEL)
  | added (added : Bool)

/-- `sel_register_name_str` and `objc_msg_lookup` are called by user code and by `do_dealloc`. -/
inductive Caller (Obj : Type) where
  | user
  | dealloc (obj : Obj)

/-- `objc_store_weak` and `objc_destroy_weak` differ in the new object and in the answer. -/
inductive WeakWrite (Obj : Type) where
  | store (new : Option Obj)
  | destroy

def WeakWrite.new {Obj : Type} : WeakWrite Obj → Option Obj
  | .store new => new
  | .destroy => none

def WeakWrite.answer {Obj : Type} (stored : Option Obj) : WeakWrite Obj → RuntimeAnswer Obj
  | .store _ => .id stored
  | .destroy => .nothing

/-- Where a thread stands. A load keeps its slot while it retains, and a sweep of `flush_all_caches` keeps the registry
and the classes that it has not visited. -/
inductive LockPoint (Obj Loc : Type) where
  | finished
  | user (answer : RuntimeAnswer Obj)
  | retain (obj : Obj) (load : Option Loc)
  | retaining (obj : Obj) (load : Option Loc)
  | retained (obj : Obj) (load : Option Loc) (result : Option Obj)
  | release (obj : Obj)
  | releasing (obj : Obj)
  | released (obj : Obj) (weakLocations : Option (List Loc))
  | zero (obj : Obj) (loc : Loc) (rest : List Loc)
  | zeroing (obj : Obj) (loc : Loc) (rest : List Loc)
  | zeroed (obj : Obj) (loc : Loc) (rest : List Loc)
  | remove (obj : Obj)
  | removing (obj : Obj)
  | removed (obj : Obj)
  | initWeak (loc : Loc) (obj : Option Obj)
  | writeWeak (loc : Loc) (write : WeakWrite Obj)
  | writing (loc : Loc) (write : WeakWrite Obj)
  | unregister (loc : Loc) (old : Obj) (write : WeakWrite Obj)
  | unregistering (loc : Loc) (old : Obj) (write : WeakWrite Obj)
  | unregistered (loc : Loc) (old : Obj) (write : WeakWrite Obj)
  | clear (loc : Loc) (write : WeakWrite Obj)
  | register (loc : Loc) (obj : Obj) (write : WeakWrite Obj)
  | registering (loc : Loc) (obj : Obj) (write : WeakWrite Obj)
  | registered (loc : Loc) (obj : Obj) (answer : RuntimeAnswer Obj)
  | loadWeak (loc : Loc)
  | loading (loc : Loc)
  | unlockSlot (loc : Loc) (answer : RuntimeAnswer Obj)
  | selRegister (name : String) (caller : Caller Obj)
  | selEntry (name : String) (caller : Caller Obj)
  | intern (name : String) (caller : Caller Obj)
  | interning (name : String) (caller : Caller Obj)
  | interned (name : String) (ptr : CStrPtr) (caller : Caller Obj)
  | selInsert (name : String) (ptr : CStrPtr) (caller : Caller Obj)
  | selFound (name : String) (sel : SEL) (caller : Caller Obj)
  | internPanicked (name : String)
  | selPanicked (name : String)
  | msgLookup (receiver : Option ObjcPtr) (sel : SEL) (caller : Caller Obj)
  | cacheRead (cls : ClassPtr) (sel : SEL) (caller : Caller Obj)
  | cacheReading (cls : ClassPtr) (sel : SEL) (caller : Caller Obj)
  | cacheAnswered (cls : ClassPtr) (sel : SEL) (cached : Option IMP) (caller : Caller Obj)
  | walk (cls : ClassPtr) (sel : SEL) (caller : Caller Obj)
  | cacheFill (cls : ClassPtr) (sel : SEL) (imp : IMP) (caller : Caller Obj)
  | cacheFilling (cls : ClassPtr) (sel : SEL) (imp : IMP) (caller : Caller Obj)
  | cacheFilled (cls : ClassPtr) (imp : IMP) (caller : Caller Obj)
  | lookedUp (imp : Option IMP) (caller : Caller Obj)
  | replaceMethod (cls : ClassPtr) (sel : SEL) (imp : IMP) (types : Option CStrPtr)
  | addMethod (cls : ClassPtr) (sel : SEL) (imp : IMP) (types : Option CStrPtr) (replacing : Bool)
  | flush (pending : List ClassPtr) (sweep : Option (List ClassPtr)) (answer : RuntimeAnswer Obj)
  | flushLock (cls : ClassPtr) (pending : List ClassPtr) (sweep : Option (List ClassPtr)) (answer : RuntimeAnswer Obj)
  | flushing (cls : ClassPtr) (pending : List ClassPtr) (sweep : Option (List ClassPtr)) (answer : RuntimeAnswer Obj)
  | flushed (cls : ClassPtr) (pending : List ClassPtr) (sweep : Option (List ClassPtr)) (answer : RuntimeAnswer Obj)
  | flushBelow (cls : ClassPtr) (pending : List ClassPtr) (sweep : Option (List ClassPtr)) (answer : RuntimeAnswer Obj)
  | exchange (m1 m2 : Method)
  | flushAll
  | sweeping
  | registerClass (cls : ClassPtr)
  | registryLock (cls : ClassPtr) (name : String)
  | registryInsert (cls : ClassPtr) (name : String)
  | registryInserted

/-- The point of a thread and the objects whose bodies of `-dealloc` it runs, the innermost first. -/
structure Position (Obj Loc : Type) where
  point : LockPoint Obj Loc
  bodies : List Obj

/-- The selector that `or_insert_with` of `sel_register_name_str` leaks for an interned name. -/
def insertSelector (rt : Runtime) (name : String) (namePtr : CStrPtr) : Runtime × SEL :=
  ({ rt with
    selectors := Function.update rt.selectors rt.nextSelector ⟨some namePtr, none⟩
    nextSelector := rt.nextSelector + 1
    selTable := Function.update rt.selTable name (some rt.nextSelector) }, rt.nextSelector)

/-- The registration of a class under its decoded name. -/
def insertClass (rt : Runtime) (cls : ClassPtr) (name : String) : Runtime :=
  { rt with classRegistry := O3jc.registryInsert rt.classRegistry name cls }.modifyClass cls ObjcClass.setRegistered

/-- The swap of `method_exchange_implementations`, without the flush. -/
def swapImplementations (rt : Runtime) (m1 m2 : Method) : Option Runtime := do
  let old := (← rt.readMethod m1).imp
  let rt := rt.writeImp m1 (← rt.readMethod m2).imp
  some (rt.writeImp m2 old)

/-- The first point of a call. -/
def RuntimeCall.begin {Obj Loc : Type} : RuntimeCall Obj Loc → LockPoint Obj Loc
  | .retain none => .user (.id none)
  | .retain (some obj) => .retain obj none
  | .release none => .user .nothing
  | .release (some obj) => .release obj
  | .initWeak loc obj => .initWeak loc obj
  | .storeWeak loc new => .writeWeak loc (.store new)
  | .loadWeakRetained loc => .loadWeak loc
  | .loadWeak loc => .loadWeak loc
  | .destroyWeak loc => .writeWeak loc .destroy
  | .msgLookup receiver sel => .msgLookup receiver sel .user
  | .selRegisterNameStr name => .selRegister name .user
  | .classReplaceMethod cls sel imp types => .replaceMethod cls sel imp types
  | .classAddMethod cls sel imp types => .addMethod cls sel imp types false
  | .registerClassPair cls => .registerClass cls
  | .exchangeImplementations m1 m2 => .exchange m1 m2

/-- `do_dealloc` zeroes the slots one after the other and then asks for the selector of `-dealloc`. -/
def zeroFrom {Obj Loc : Type} (obj : Obj) : List Loc → LockPoint Obj Loc
  | [] => .selRegister "dealloc" (.dealloc obj)
  | loc :: rest => .zero obj loc rest

/-- The second part of a weak write, after the slot left the list of its old object. -/
def enterNew {Obj Loc : Type} (loc : Loc) (write : WeakWrite Obj) : LockPoint Obj Loc :=
  match write.new with
  | none => .clear loc write
  | some obj => .register loc obj write

section Actions

variable {Obj Loc Stripe Shard : Type} [DecidableEq Obj] [DecidableEq Loc] (layout : Layout Obj Loc Stripe Shard)

abbrev RuntimeAction (Obj Loc Stripe Shard : Type) : Type :=
  LockAction (RuntimeLock Stripe Shard) (Shared Obj Loc) (UserChoice Obj Loc) (Position Obj Loc)

/-- What a thread does next. -/
def Position.action (position : Position Obj Loc) : RuntimeAction Obj Loc Stripe Shard :=
  let go (point : LockPoint Obj Loc) : Position Obj Loc := { position with point }
  match position.point with
  | .finished => .done
  | .user _ => .choose fun
      | .call call => some (go call.begin)
      | .return =>
          match position.bodies with
          | [] => some (go .finished)
          | obj :: rest => some ⟨.remove obj, rest⟩
  -- `objc_retain`
  | .retain obj load => .acquire (.table (layout.tableShard obj)) .exclusive (go (.retaining obj load))
  | .retaining obj load => .access fun d =>
      let (table, result) := objcRetain d.table (some obj)
      ({ d with table }, go (.retained obj load result))
  | .retained obj load result =>
      .release (.table (layout.tableShard obj)) .exclusive
        (go (match load with
          | none => .user (.id result)
          | some loc => .unlockSlot loc (.id result)))
  -- `objc_release` drops the shard guard before `do_dealloc` and takes the shard again after it
  | .release obj => .acquire (.table (layout.tableShard obj)) .exclusive (go (.releasing obj))
  | .releasing obj => .access fun d =>
      let (table, weakLocations) := releaseEntry d.table obj
      ({ d with table }, go (.released obj weakLocations))
  | .released obj weakLocations =>
      .release (.table (layout.tableShard obj)) .exclusive
        (go (match weakLocations with
          | none => .user .nothing
          | some locs => zeroFrom obj locs))
  | .zero obj loc rest => .acquire (.slot (layout.stripe loc)) .exclusive (go (.zeroing obj loc rest))
  | .zeroing obj loc rest => .access fun d =>
      ({ d with slots := Function.update d.slots loc none }, go (.zeroed obj loc rest))
  | .zeroed obj loc rest => .release (.slot (layout.stripe loc)) .exclusive (go (zeroFrom obj rest))
  | .remove obj => .acquire (.table (layout.tableShard obj)) .exclusive (go (.removing obj))
  | .removing obj => .access fun d => ({ d with table := removeEntry d.table obj }, go (.removed obj))
  | .removed obj => .release (.table (layout.tableShard obj)) .exclusive (go (.user .nothing))
  -- The weak-reference functions
  | .initWeak loc obj => .access fun d =>
      ({ d with slots := Function.update d.slots loc none },
        go (match obj with
          | none => .user (.id none)
          | some obj => .writeWeak loc (.store (some obj))))
  | .writeWeak loc write => .acquire (.slot (layout.stripe loc)) .exclusive (go (.writing loc write))
  | .writing loc write => .access fun d =>
      (d, go (match d.slots loc with
        | none => enterNew loc write
        | some old => .unregister loc old write))
  | .unregister loc old write =>
      .acquire (.table (layout.tableShard old)) .exclusive (go (.unregistering loc old write))
  | .unregistering loc old write => .access fun d =>
      ({ d with table := unregisterWeak d.table loc (some old) }, go (.unregistered loc old write))
  | .unregistered loc old write =>
      .release (.table (layout.tableShard old)) .exclusive (go (enterNew loc write))
  | .clear loc write => .access fun d =>
      ({ d with slots := Function.update d.slots loc none }, go (.unlockSlot loc (write.answer none)))
  | .register loc obj write => .acquire (.table (layout.tableShard obj)) .exclusive (go (.registering loc obj write))
  | .registering loc obj write => .access fun d =>
      let (table, stored) := registerWeak d.table loc (some obj)
      ({ d with table, slots := Function.update d.slots loc stored }, go (.registered loc obj (write.answer stored)))
  | .registered loc obj answer =>
      .release (.table (layout.tableShard obj)) .exclusive (go (.unlockSlot loc answer))
  | .loadWeak loc => .acquire (.slot (layout.stripe loc)) .exclusive (go (.loading loc))
  | .loading loc => .access fun d =>
      (d, go (match d.slots loc with
        | none => .unlockSlot loc (.id none)
        | some obj => .retain obj (some loc)))
  | .unlockSlot loc answer => .release (.slot (layout.stripe loc)) .exclusive (go (.user answer))
  -- `sel_register_name_str`, with `intern_selector_name` under the guard of `SEL_TABLE`
  | .selRegister name caller => .acquire (.sel (layout.selShard name)) .exclusive (go (.selEntry name caller))
  | .selEntry name caller => .access fun d =>
      (d, go (match d.rt.selTable name with
        | some sel => .selFound name sel caller
        | none => .intern name caller))
  | .intern name caller => .acquire (.name (layout.nameShard name)) .exclusive (go (.interning name caller))
  | .interning name caller => .access fun d =>
      match internSelectorName d.rt name with
      | some (rt, ptr) => ({ d with rt }, go (.interned name ptr caller))
      | none => (d, go (.internPanicked name))
  | .interned name ptr caller =>
      .release (.name (layout.nameShard name)) .exclusive (go (.selInsert name ptr caller))
  | .selInsert name ptr caller => .access fun d =>
      let (rt, sel) := insertSelector d.rt name ptr
      ({ d with rt }, go (.selFound name sel caller))
  | .selFound name sel caller =>
      .release (.sel (layout.selShard name)) .exclusive
        (go (match caller with
          | .user => .user (.sel sel)
          | .dealloc obj => .msgLookup (some (layout.pointer obj)) sel caller))
  -- A panic drops the guards from the inside out
  | .internPanicked name => .release (.name (layout.nameShard name)) .exclusive (go (.selPanicked name))
  | .selPanicked name => .release (.sel (layout.selShard name)) .exclusive (go .finished)
  -- `objc_msg_lookup`
  | .msgLookup receiver sel caller => .access fun d =>
      (d, go (match receiver.bind d.rt.isaOf with
        | none => .lookedUp none caller
        | some cls =>
            if (d.rt.classes cls).dtable.isSome then .cacheRead cls sel caller else .walk cls sel caller))
  | .cacheRead cls sel caller => .acquire (.cache cls) .shared (go (.cacheReading cls sel caller))
  | .cacheReading cls sel caller => .access fun d =>
      (d, go (.cacheAnswered cls sel (d.rt.cacheLookup cls sel) caller))
  | .cacheAnswered cls sel cached caller =>
      .release (.cache cls) .shared
        (go (match cached with
          | some imp => .lookedUp (some imp) caller
          | none => .walk cls sel caller))
  | .walk cls sel caller => .access fun d =>
      (d, go (match classLookupMethod d.rt cls sel with
        | none => .lookedUp none caller
        | some imp =>
            if (d.rt.classes cls).dtable.isSome then .cacheFill cls sel imp caller else .lookedUp (some imp) caller))
  | .cacheFill cls sel imp caller => .acquire (.cache cls) .exclusive (go (.cacheFilling cls sel imp caller))
  | .cacheFilling cls sel imp caller => .access fun d =>
      ({ d with rt := d.rt.cacheInsert cls sel imp }, go (.cacheFilled cls imp caller))
  | .cacheFilled cls imp caller => .release (.cache cls) .exclusive (go (.lookedUp (some imp) caller))
  -- `do_dealloc` calls the body of `-dealloc` when the lookup found one
  | .lookedUp imp caller => .access fun d =>
      (d, match caller, imp with
        | .user, imp => go (.user (.imp imp))
        | .dealloc obj, some _ => ⟨.user .nothing, obj :: position.bodies⟩
        | .dealloc obj, none => go (.remove obj))
  -- `class_replace_method` and `class_add_method`
  | .replaceMethod cls sel imp types => .access fun d =>
      match findMethodInChain d.rt (d.rt.classes cls).methodList.head sel with
      | some method =>
          ({ d with rt := d.rt.writeImp method imp },
            go (.flush [cls] none (.imp ((d.rt.readMethod method).map MethodEntry.imp))))
      | none => (d, go (.addMethod cls sel imp types true))
  | .addMethod cls sel imp types replacing => .access fun d =>
      let answer (added : Bool) : RuntimeAnswer Obj := if replacing then .imp none else .added added
      if methodExistsInChain d.rt (d.rt.classes cls).methodList.head sel then (d, go (.user (answer false)))
      else if (d.rt.classes cls).isRegistered then
        ({ d with rt := d.rt.prependMethod cls ⟨imp, sel, types⟩ }, go (.flush [cls] none (answer true)))
      else ({ d with rt := d.rt.pushMethod cls ⟨imp, sel, types⟩ }, go (.user (answer true)))
  -- `flush_class_cache_tree` reads the subclasses after it has dropped the guard of the cache
  | .flush (cls :: pending) sweep answer => .access fun d =>
      (d, go (if (d.rt.classes cls).dtable.isSome then .flushLock cls pending sweep answer
        else .flushBelow cls pending sweep answer))
  | .flush [] (some (cls :: rest)) answer => .access fun d => (d, go (.flush [cls] (some rest) answer))
  | .flush [] (some []) answer => .release .registry .shared (go (.user answer))
  | .flush [] none answer => .access fun d => (d, go (.user answer))
  | .flushLock cls pending sweep answer =>
      .acquire (.cache cls) .exclusive (go (.flushing cls pending sweep answer))
  | .flushing cls pending sweep answer => .access fun d =>
      ({ d with rt := d.rt.flushCache cls }, go (.flushed cls pending sweep answer))
  | .flushed cls pending sweep answer =>
      .release (.cache cls) .exclusive (go (.flushBelow cls pending sweep answer))
  | .flushBelow cls pending sweep answer => .access fun d =>
      (d, go (.flush (d.rt.subclasses cls ++ pending) sweep answer))
  -- `method_exchange_implementations` and `flush_all_caches`
  | .exchange m1 m2 => .access fun d =>
      match swapImplementations d.rt m1 m2 with
      | some rt => ({ d with rt }, go .flushAll)
      | none => (d, go .finished)
  | .flushAll => .acquire .registry .shared (go .sweeping)
  | .sweeping => .access fun d => (d, go (.flush [] (some (d.rt.classRegistry.map Prod.snd)) .nothing))
  -- `objc_register_class_pair` decodes the name before it takes the registry
  | .registerClass cls => .access fun d =>
      (d, go (match (d.rt.classes cls).name.toStr with
        | some name => .registryLock cls name
        | none => .finished))
  | .registryLock cls name => .acquire .registry .exclusive (go (.registryInsert cls name))
  | .registryInsert cls name => .access fun d => ({ d with rt := insertClass d.rt cls name }, go .registryInserted)
  | .registryInserted => .release .registry .exclusive (go (.user .nothing))

end Actions

end O3jc
