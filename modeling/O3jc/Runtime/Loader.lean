import O3jc.Runtime.ClassRegistry

/-
This file embeds `loader.rs`. A panic is `none`.
-/

namespace O3jc

open Library

/-- The section bounds that the loader reads, with the words of the class section. -/
structure ObjcModuleInfo where
  selStart : Option SEL
  selStop : Option SEL
  classesStart : Option Nat
  classesStop : Option Nat
  classWords : Nat → Option ClassPtr

/-- `section_slice` is empty for a null bound or for `start >= stop`. -/
def sectionSlice (start stop : Option Nat) : List Nat :=
  match start, stop with
  | some first, some last => if first ≥ last then [] else List.range' first (last - first)
  | _, _ => []

def ObjcModuleInfo.selectorsMut (info : ObjcModuleInfo) : List SEL := sectionSlice info.selStart info.selStop

def ObjcModuleInfo.classes (info : ObjcModuleInfo) : List (Option ClassPtr) :=
  (sectionSlice info.classesStart info.classesStop).map info.classWords

/-- One turn of `load_selectors` skips a null sentinel or overwrites the name pointer. -/
def loadSelector (rt : Runtime) (entry : SEL) : Option Runtime :=
  match (rt.selectors entry).name with
  | none => some rt
  | some name => do
      let nameStr ← (rt.cStrings name).toStr
      let (rt, interned) ← internSelectorName rt nameStr
      some { rt with
        selectors := Function.update rt.selectors entry { rt.selectors entry with name := some interned } }

def loadSelectors (rt : Runtime) (selectors : List SEL) : Option Runtime := selectors.foldlM loadSelector rt

/-- `convert_method_list` copies the inline entries into a new node. -/
def convertMethodList (rt : Runtime) (compiled : Option CompiledMethodList) : Runtime × MethodListField :=
  match compiled with
  | none => (rt, .null)
  | some list =>
      if list.count = 0 then (rt, .null)
      else
        let entries := list.entries.map fun ce => (⟨ce.imp, ce.sel, ce.types⟩ : MethodEntry)
        (rt.allocMethodList ⟨none, .exact entries⟩, .runtime rt.nextMethodList)

/-- `patch_class` fixes the sign of the size, with a default for a class that has no superclass. The negation of the
smallest `i64` is itself, as in a build without overflow checks. -/
def patchedSize (cls : ObjcClass) : Int64 :=
  let size := if cls.instanceSize < 0 then -cls.instanceSize else cls.instanceSize
  if size = 0 ∧ cls.superClass = none then sizeOfObjcObject else size

def patchClass (rt : Runtime) (cls : ClassPtr) : Runtime :=
  let size := patchedSize (rt.classes cls)
  let (rt, methods) := convertMethodList rt (rt.classes cls).methodList.raw
  rt.modifyClass cls fun c =>
    { c with instanceSize := size, methodList := methods, dtable := some CacheInner.new }

/-- The loop stops at the first class of the superclass chain that has no superclass. -/
def rootOf (rt : Runtime) (cls : ClassPtr) : Option ClassPtr :=
  (successors rt.superclass rt.nextClass (rt.superclass cls)).find? fun c => (rt.superclass c).isNone

/-- The metaclass gets the links that Clang leaves null. -/
def fixMetaclass (rt : Runtime) (cls metaclass : ClassPtr) : Runtime :=
  match rt.superclass cls with
  | some sup =>
      let rt := rt.modifyClass metaclass fun c => { c with superClass := (rt.classes sup).isa }
      match rootOf rt cls with
      | some root => rt.modifyClass metaclass fun c => { c with isa := (rt.classes root).isa }
      | none => rt
  | none => rt.modifyClass metaclass fun c => { c with isa := some metaclass, superClass := some cls }

/-- A class is spliced in front of its parent's subclass list. -/
def spliceSubclass (rt : Runtime) (parent child : ClassPtr) : Runtime :=
  let rt := rt.modifyClass child fun c => { c with siblingClass := (rt.classes parent).subclassList }
  rt.modifyClass parent fun c => { c with subclassList := some child }

def wireClass (rt : Runtime) (cls : ClassPtr) : Runtime :=
  match rt.superclass cls with
  | some sup => spliceSubclass rt sup cls
  | none => rt

/-- The root metaclass is kept out of the root class's subclass list. -/
def wireMetaclass (rt : Runtime) (cls metaclass : ClassPtr) : Runtime :=
  match rt.superclass metaclass with
  | some metaSuper =>
      if (rt.superclass cls).isNone && !(rt.classes metaSuper).isMetaclass then rt
      else spliceSubclass rt metaSuper metaclass
  | none => rt

/-- One turn of `load_classes` patches a class and its metaclass, wires both and registers the class. -/
def loadClass (rt : Runtime) (cls : ClassPtr) : Option Runtime :=
  let rt := patchClass rt cls
  let rt := match (rt.classes cls).isa with
    | some metaclass => fixMetaclass (patchClass rt metaclass) cls metaclass
    | none => rt
  let rt := wireClass rt cls
  let rt := match (rt.classes cls).isa with
    | some metaclass => wireMetaclass rt cls metaclass
    | none => rt
  registerLoadedClass rt cls

def loadEntry (rt : Runtime) : Option ClassPtr → Option Runtime
  | none => some rt
  | some cls => loadClass rt cls

def loadClasses (rt : Runtime) (classPtrs : List (Option ClassPtr)) : Option Runtime :=
  classPtrs.foldlM loadEntry rt

/-- `__objc_load` interns the selectors before it loads the classes. -/
def objcLoad (rt : Runtime) (info : ObjcModuleInfo) : Option Runtime := do
  let rt ← loadSelectors rt info.selectorsMut
  loadClasses rt info.classes

end O3jc
