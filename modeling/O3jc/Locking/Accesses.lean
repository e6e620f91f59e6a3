import O3jc.Locking.Program

/-
This file says once what the accesses of the program of locks do to the selectors, the classes and the methods.
-/

namespace O3jc

open Library

section Accesses

variable {Obj Loc Stripe Shard : Type}

/-- The change that an access makes to the runtime at a point. -/
inductive LockPoint.Changes (rt : Runtime) : LockPoint Obj Loc → Runtime → Prop
  | nothing {point : LockPoint Obj Loc} : Changes rt point rt
  | internName {name : String} {caller : Caller Obj} {rt' : Runtime} {ptr : CStrPtr}
      (interned : internSelectorName rt name = some (rt', ptr)) : Changes rt (.interning name caller) rt'
  | enterSelector {name : String} {ptr : CStrPtr} {caller : Caller Obj} :
      Changes rt (.selInsert name ptr caller) (insertSelector rt name ptr).1
  | fillCache {cls : ClassPtr} {sel : SEL} {imp : IMP} {caller : Caller Obj} :
      Changes rt (.cacheFilling cls sel imp caller) (rt.cacheInsert cls sel imp)
  | emptyCache {cls : ClassPtr} {pending : List ClassPtr} {sweep : Option (List ClassPtr)} {answer : RuntimeAnswer Obj} :
      Changes rt (.flushing cls pending sweep answer) (rt.flushCache cls)
  | replaceImp {cls : ClassPtr} {sel : SEL} {imp : IMP} {types : Option CStrPtr} {method : Method}
      (found : findMethodInChain rt (rt.classes cls).methodList.head sel = some method) :
      Changes rt (.replaceMethod cls sel imp types) (rt.writeImp method imp)
  | prependNode {cls : ClassPtr} {sel : SEL} {imp : IMP} {types : Option CStrPtr} {replacing : Bool} :
      Changes rt (.addMethod cls sel imp types replacing) (rt.prependMethod cls ⟨imp, sel, types⟩)
  | pushEntry {cls : ClassPtr} {sel : SEL} {imp : IMP} {types : Option CStrPtr} {replacing : Bool} :
      Changes rt (.addMethod cls sel imp types replacing) (rt.pushMethod cls ⟨imp, sel, types⟩)
  | swapImps {m1 m2 : Method} {rt' : Runtime} (swapped : swapImplementations rt m1 m2 = some rt') :
      Changes rt (.exchange m1 m2) rt'
  | enterClass {cls : ClassPtr} {name : String} : Changes rt (.registryInsert cls name) (insertClass rt cls name)

variable [DecidableEq Obj] [DecidableEq Loc] (layout : Layout Obj Loc Stripe Shard)

/-- Only these points change the runtime. -/
theorem Position.changes (position : Position Obj Loc) :
    match position.action layout with
    | .access next => ∀ d, position.point.Changes d.rt (next d).1.rt
    | _ => True := by
  obtain ⟨point, bodies⟩ := position
  cases point with
  | finished | user => trivial
  | retain | retained | release | released | zero | zeroed | remove | removed | writeWeak | unregister | unregistered
  | register | registered | loadWeak | unlockSlot | selRegister | intern | interned | selFound | internPanicked
  | selPanicked | cacheRead | cacheAnswered | cacheFill | cacheFilled | flushLock | flushed | flushAll | registryLock
  | registryInserted => trivial
  | retaining | releasing | zeroing | removing | initWeak | writing | unregistering | clear | registering | loading
  | selEntry | msgLookup | cacheReading | walk | lookedUp | flushBelow | sweeping | registerClass =>
      exact fun _ => .nothing
  | selInsert => exact fun _ => .enterSelector
  | cacheFilling => exact fun _ => .fillCache
  | flushing => exact fun _ => .emptyCache
  | registryInsert => exact fun _ => .enterClass
  | interning name caller =>
      intro d
      dsimp only
      split
      · exact .internName ‹_›
      · exact .nothing
  | replaceMethod cls sel imp types =>
      intro d
      dsimp only
      split
      · exact .replaceImp ‹_›
      · exact .nothing
  | addMethod cls sel imp types replacing =>
      intro d
      dsimp only
      split
      · exact .nothing
      · split
        · exact .prependNode
        · exact .pushEntry
  | flush pending sweep answer =>
      cases pending with
      | cons cls pending => exact fun _ => .nothing
      | nil =>
          cases sweep with
          | none => exact fun _ => .nothing
          | some rest =>
              cases rest with
              | nil => trivial
              | cons cls rest => exact fun _ => .nothing
  | exchange m1 m2 =>
      intro d
      dsimp only
      split
      · exact .swapImps ‹_›
      · exact .nothing

end Accesses

end O3jc
