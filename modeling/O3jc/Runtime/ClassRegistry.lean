import O3jc.Runtime.MsgSend

/-
This file embeds `class_registry.rs`. A panic or a dangling method handle is `none`.
-/

namespace O3jc

/-- `objc_allocate_class_pair` leaks a metaclass and a class and links the class below its superclass. -/
def objcAllocateClassPair (rt : Runtime) (superclass : Option ClassPtr) (name : CStr) :
    Option (Runtime × ClassPtr) := do
  let nameStr ← name.toStr
  let namePtr ← CStr.ofStr nameStr
  let instanceSize := match superclass with
    | none => sizeOfObjcObject
    | some sup => (rt.classes sup).instanceSize
  let metaSuper := superclass.bind fun sup => (rt.classes sup).isa
  let metaclass := rt.nextClass
  let cls := rt.nextClass + 1
  let metaclassObj : ObjcClass :=
    { isa := none
      superClass := metaSuper
      name := namePtr
      info := ClassFlags.classIsMetaclass
      instanceSize := sizeOfObjcClass
      methodList := .null
      dtable := some CacheInner.new
      subclassList := none
      siblingClass := none }
  let classObj : ObjcClass :=
    { isa := some metaclass
      superClass := superclass
      name := namePtr
      info := 0
      instanceSize
      methodList := .null
      dtable := some CacheInner.new
      subclassList := none
      siblingClass := superclass.bind fun sup => (rt.classes sup).subclassList }
  let rt := { rt with
    classes := Function.update (Function.update rt.classes metaclass metaclassObj) cls classObj
    nextClass := rt.nextClass + 2 }
  match superclass with
  | none => some (rt, cls)
  | some sup => some (rt.modifyClass sup fun c => { c with subclassList := some cls }, cls)

/-- `HashMap::insert` keeps one value for each key. -/
def registryInsert (registry : List (String × ClassPtr)) (name : String) (cls : ClassPtr) :
    List (String × ClassPtr) :=
  (name, cls) :: registry.filter fun entry => entry.1 != name

/-- Both registration functions insert the class by its name and set the flag. -/
def registerClass (rt : Runtime) (cls : ClassPtr) : Option Runtime := do
  let name ← (rt.classes cls).name.toStr
  let rt := { rt with classRegistry := registryInsert rt.classRegistry name cls }
  some (rt.modifyClass cls ObjcClass.setRegistered)

def objcRegisterClassPair (rt : Runtime) (cls : ClassPtr) : Option Runtime := registerClass rt cls

def registerLoadedClass (rt : Runtime) (cls : ClassPtr) : Option Runtime := registerClass rt cls

def objcGetClassStr (rt : Runtime) (name : String) : Option ClassPtr :=
  (rt.classRegistry.find? fun entry => entry.1 == name).map Prod.snd

/-- `objc_getClass` looks the empty name up when the bytes are not UTF-8. -/
def objcGetClass (rt : Runtime) (name : CStr) : Option ClassPtr := objcGetClassStr rt (name.toStr.getD "")

/-- `flush_all_caches` flushes the tree below every registry value. -/
def flushAllCaches (rt : Runtime) : Runtime :=
  rt.classRegistry.foldl (fun rt entry => flushClassCacheTree rt entry.2) rt

/-- `method_exists_in_chain` scans every node. -/
def methodExistsInChain (rt : Runtime) (head : Option MethodListPtr) (sel : SEL) : Bool :=
  ((rt.methodListIter head).flatMap fun list => list.entries.items).any fun entry => selEq rt entry.sel sel

/-- The place of the first matching entry of one node. -/
def findMethodInList (rt : Runtime) (sel : SEL) (list : MethodListPtr) : Option Method :=
  ((rt.methodLists list).entries.items.findIdx? fun entry => selEq rt entry.sel sel).map fun index =>
    ⟨list, (rt.methodLists list).entries.buffer, index⟩

/-- `find_method_in_chain` returns a pointer to the first match. -/
def findMethodInChain (rt : Runtime) (head : Option MethodListPtr) (sel : SEL) : Option Method :=
  (Library.successors rt.nextMethodListOf rt.nextMethodList head).findSome? (findMethodInList rt sel)

namespace Runtime

/-- Reading through a `*mut MethodEntry` that names an abandoned buffer is `none`. -/
def readMethod (rt : Runtime) (method : Method) : Option MethodEntry :=
  if (rt.methodLists method.list).entries.buffer = method.buffer then
    (rt.methodLists method.list).entries.items[method.index]?
  else none

/-- The write replaces the IMP at the place of the handle. -/
def writeImp (rt : Runtime) (method : Method) (imp : IMP) : Runtime :=
  rt.modifyMethodList method.list fun list => { list with
    entries := { list.entries with
      items := list.entries.items.modify method.index fun entry => { entry with imp } } }

/-- After registration a new single-entry node is prepended to the chain. -/
def prependMethod (rt : Runtime) (cls : ClassPtr) (entry : MethodEntry) : Runtime :=
  let newList : MethodList := ⟨(rt.classes cls).methodList.head, .exact [entry]⟩
  (rt.allocMethodList newList).modifyClass cls fun c => { c with methodList := .runtime rt.nextMethodList }

/-- `get_or_insert_with(MethodList::new)` allocates an empty node when the chain is null. -/
def headOrNew (rt : Runtime) (cls : ClassPtr) : Runtime × MethodListPtr :=
  match (rt.classes cls).methodList.head with
  | some head => (rt, head)
  | none =>
      ((rt.allocMethodList ⟨none, .empty⟩).modifyClass cls fun c =>
        { c with methodList := .runtime rt.nextMethodList }, rt.nextMethodList)

/-- Before registration the entry is pushed into the head node. -/
def pushMethod (rt : Runtime) (cls : ClassPtr) (entry : MethodEntry) : Runtime :=
  let (rt, head) := rt.headOrNew cls
  rt.modifyMethodList head fun list => { list with entries := list.entries.push entry }

end Runtime

/-- `class_add_method` rejects a present selector, else prepends and flushes, or pushes in place. -/
def classAddMethod (rt : Runtime) (cls : ClassPtr) (sel : SEL) (imp : IMP) (types : Option CStrPtr) :
    Runtime × Bool :=
  if methodExistsInChain rt (rt.classes cls).methodList.head sel then (rt, false)
  else if (rt.classes cls).isRegistered then
    (flushClassCacheTree (rt.prependMethod cls ⟨imp, sel, types⟩) cls, true)
  else (rt.pushMethod cls ⟨imp, sel, types⟩, true)

/-- `class_replace_method` overwrites the first match and flushes, or adds the method. -/
def classReplaceMethod (rt : Runtime) (cls : ClassPtr) (sel : SEL) (imp : IMP) (types : Option CStrPtr) :
    Runtime × Option IMP :=
  match findMethodInChain rt (rt.classes cls).methodList.head sel with
  | some method =>
      (flushClassCacheTree (rt.writeImp method imp) cls, (rt.readMethod method).map MethodEntry.imp)
  | none => ((classAddMethod rt cls sel imp types).1, none)

/-- `method_exchange_implementations` swaps two IMPs and flushes every registered class. -/
def methodExchangeImplementations (rt : Runtime) (m1 m2 : Method) : Option Runtime := do
  let old := (← rt.readMethod m1).imp
  let rt := rt.writeImp m1 (← rt.readMethod m2).imp
  some (flushAllCaches (rt.writeImp m2 old))

/-- `class_get_instance_method` searches the class's own chain only. -/
def classGetInstanceMethod (rt : Runtime) (cls : Option ClassPtr) (sel : SEL) : Option Method :=
  cls.bind fun cls => findMethodInChain rt (rt.classes cls).methodList.head sel

end O3jc
