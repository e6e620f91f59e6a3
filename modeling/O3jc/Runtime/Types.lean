import O3jc.Library.LossyUtf8
import O3jc.Library.Successors
import Mathlib.Logic.Function.Basic

/-
This file embeds the data types of `types.rs` and the statics that the class functions share.
-/

namespace O3jc

open Library

abbrev CStrPtr := Nat
abbrev SEL := Nat
abbrev IMP := Nat
abbrev ClassPtr := Nat
abbrev MethodListPtr := Nat

/-- A C string is its bytes before the terminating null. -/
structure CStr where
  bytes : ByteArray
  noNul : 0 ∉ bytes.data.toList

def CStr.empty : CStr := ⟨.empty, by simp⟩

/-- `CStr::to_str` fails on bytes that are not UTF-8. -/
def CStr.toStr (name : CStr) : Option String := String.fromUTF8? name.bytes

/-- `CString::new` fails on an interior null. -/
def CStr.ofStr (name : String) : Option CStr :=
  if clean : 0 ∉ name.toByteArray.data.toList then some ⟨name.toByteArray, clean⟩ else none

/-- `CStr::to_string_lossy` replaces each ill-formed part by U+FFFD. -/
def CStr.toStringLossy (name : CStr) : String := String.ofList (lossyChars name.bytes.data.toList)

theorem CStr.toStr_eq_some {name : CStr} {text : String} :
    name.toStr = some text ↔ text.toByteArray = name.bytes := by
  unfold toStr String.fromUTF8?
  constructor
  · intro decoded
    split at decoded
    · rw [← Option.some.inj decoded]
      rfl
    · exact absurd decoded (by simp)
  · intro same
    have valid : name.bytes.IsValidUTF8 := same ▸ text.isValidUTF8
    rw [dif_pos valid]
    exact congrArg some (String.toByteArray_inj.mp same.symm)

/-- Encoding a decoded C string gives the C string back. -/
theorem CStr.ofStr_toStr {name : CStr} {text : String} (decoded : name.toStr = some text) :
    CStr.ofStr text = some name := by
  have same := CStr.toStr_eq_some.mp decoded
  obtain ⟨bytes, noNul⟩ := name
  subst same
  rw [ofStr, dif_pos noNul]

theorem CStr.toStr_ofStr {name : CStr} {text : String} (encoded : CStr.ofStr text = some name) :
    name.toStr = some text := by
  unfold ofStr at encoded
  split at encoded
  · rw [← Option.some.inj encoded]
    exact CStr.toStr_eq_some.mpr rfl
  · exact absurd encoded (by simp)

theorem CStr.bytes_injective {a b : CStr} (same : a.bytes = b.bytes) : a = b := by
  cases a
  cases b
  cases same
  rfl

/-- Two decoded C strings are equal when their texts are. -/
theorem CStr.eq_of_toStr {a b : CStr} {text : String} (first : a.toStr = some text) (second : b.toStr = some text) :
    a = b :=
  CStr.bytes_injective ((CStr.toStr_eq_some.mp first).symm.trans (CStr.toStr_eq_some.mp second))

/-- A C string that is UTF-8 decodes without a replacement. -/
theorem CStr.toStringLossy_of_toStr {name : CStr} {text : String} (decoded : name.toStr = some text) :
    name.toStringLossy = text := by
  have bytes : text.toList.flatMap String.utf8EncodeChar = name.bytes.data.toList := by
    rw [← CStr.toStr_eq_some.mp decoded, ← List.toList_data_toByteArray (l := text.toList.flatMap _)]
    have encoded := String.toByteArray_ofList (l := text.toList)
    rw [String.ofList_toList] at encoded
    rw [encoded]
    rfl
  rw [toStringLossy, ← bytes, lossyChars_encode, String.ofList_toList]

/-- The lossy decoding of a C string has no interior null. -/
theorem CStr.ofStr_toStringLossy (name : CStr) : ∃ cstr, CStr.ofStr name.toStringLossy = some cstr := by
  have clean : 0 ∉ name.toStringLossy.toByteArray.data.toList := by
    rw [toStringLossy, String.toByteArray_ofList, List.utf8Encode, List.toList_data_toByteArray, List.mem_flatMap]
    rintro ⟨char, member, zero⟩
    have nonzero : char ≠ '\x00' := fun nul => nul_not_mem_lossyChars _ name.noNul (nul ▸ member)
    exact zero_not_mem_utf8EncodeChar nonzero zero
  rw [ofStr, dif_pos clean]
  exact ⟨_, rfl⟩

/-- The memory of one selector, compiled or interned. A null name marks a sentinel of the section. -/
structure ObjcSelector where
  name : Option CStrPtr
  types : Option CStrPtr
deriving DecidableEq

structure MethodEntry where
  imp : IMP
  sel : SEL
  types : Option CStrPtr
deriving DecidableEq

/-- The `Vec<MethodEntry>` of a node. A push into a full vector moves it to another buffer. -/
structure MethodVec where
  items : List MethodEntry
  capacity : Nat
  buffer : Nat
deriving DecidableEq

def MethodVec.empty : MethodVec := ⟨[], 0, 0⟩

/-- `vec![entry]` and `collect` allocate exactly their length. -/
def MethodVec.exact (items : List MethodEntry) : MethodVec := ⟨items, items.length, 0⟩

/-- `Vec::push` doubles a full vector, to four entries at least. -/
def MethodVec.push (vec : MethodVec) (entry : MethodEntry) : MethodVec :=
  if vec.items.length = vec.capacity then
    ⟨vec.items ++ [entry], max (2 * vec.capacity) (max (vec.items.length + 1) 4), vec.buffer + 1⟩
  else
    { vec with items := vec.items ++ [entry] }

@[simp] theorem MethodVec.push_items (vec : MethodVec) (entry : MethodEntry) :
    (vec.push entry).items = vec.items ++ [entry] := by
  unfold push
  split <;> rfl

/-- A node in the chain of method lists of a class. -/
structure MethodList where
  next : Option MethodListPtr
  entries : MethodVec
deriving DecidableEq

/-- A `*mut MethodEntry` names a place in one buffer of one node. -/
structure Method where
  list : MethodListPtr
  buffer : Nat
  index : Nat
deriving DecidableEq

structure CompiledMethodEntry where
  imp : IMP
  sel : SEL
  types : Option CStrPtr
deriving DecidableEq

/-- The header's `count` is the number of inline entries. -/
structure CompiledMethodList where
  entries : List CompiledMethodEntry
deriving DecidableEq

def CompiledMethodList.count (compiled : CompiledMethodList) : Nat := compiled.entries.length

/-- The method-list field holds a compiled list before loading and a runtime chain after it. -/
inductive MethodListField where
  | null
  | compiled (list : CompiledMethodList)
  | runtime (head : MethodListPtr)
deriving DecidableEq

/-- The runtime reads the field as a chain head. -/
def MethodListField.head : MethodListField → Option MethodListPtr
  | .runtime head => some head
  | _ => none

/-- The loader reads the field as a compiled list. -/
def MethodListField.raw : MethodListField → Option CompiledMethodList
  | .compiled list => some list
  | _ => none

structure CacheEntry where
  sel : SEL
  imp : IMP
deriving DecidableEq

abbrev CacheInner := List CacheEntry

namespace ClassFlags

def classIsMetaclass : BitVec 64 := 1#64 <<< 0
def classRegistered : BitVec 64 := 1#64 <<< 16

end ClassFlags

/-- The fields of `ObjcClass` that the runtime reads or writes. The cache stands in `dtable`. -/
structure ObjcClass where
  isa : Option ClassPtr
  superClass : Option ClassPtr
  name : CStr
  info : BitVec 64
  instanceSize : Int64
  methodList : MethodListField
  dtable : Option CacheInner
  subclassList : Option ClassPtr
  siblingClass : Option ClassPtr

def ObjcClass.isMetaclass (cls : ObjcClass) : Bool := cls.info &&& ClassFlags.classIsMetaclass != 0

def ObjcClass.isRegistered (cls : ObjcClass) : Bool := cls.info &&& ClassFlags.classRegistered != 0

def ObjcClass.setRegistered (cls : ObjcClass) : ObjcClass :=
  { cls with info := cls.info ||| ClassFlags.classRegistered }

theorem info_or_and_self (info flag : BitVec 64) : (info ||| flag) &&& flag = flag := by
  apply BitVec.eq_of_getElem_eq
  intro index inside
  simp only [BitVec.getElem_and, BitVec.getElem_or]
  cases info[index] <;> cases flag[index] <;> rfl

theorem info_or_and_of_disjoint (info flag other : BitVec 64) (disjoint : flag &&& other = 0#64) :
    (info ||| flag) &&& other = info &&& other := by
  apply BitVec.eq_of_getElem_eq
  intro index inside
  have bit := congrArg (fun word : BitVec 64 => word[index]) disjoint
  simp only [BitVec.getElem_and, BitVec.getElem_or, BitVec.getElem_zero] at bit ⊢
  cases left : flag[index] <;> cases right : other[index] <;> simp_all

@[simp] theorem ObjcClass.setRegistered_isRegistered (cls : ObjcClass) :
    cls.setRegistered.isRegistered = true := by
  simp only [isRegistered, setRegistered, info_or_and_self]
  decide

@[simp] theorem ObjcClass.setRegistered_isMetaclass (cls : ObjcClass) :
    cls.setRegistered.isMetaclass = cls.isMetaclass := by
  simp only [isMetaclass, setRegistered]
  rw [info_or_and_of_disjoint _ _ _ (by decide)]

/-- `size_of::<ObjcObject>()` is one pointer. -/
def sizeOfObjcObject : Int64 := 8

/-- `size_of::<ObjcClass>()` is seventeen words. -/
def sizeOfObjcClass : Int64 := 136

/-- Unallocated class memory. -/
def ObjcClass.blank : ObjcClass where
  isa := none
  superClass := none
  name := .empty
  info := 0
  instanceSize := 0
  methodList := .null
  dtable := none
  subclassList := none
  siblingClass := none

/-- The process memory and the statics that selectors, classes and dispatch share. -/
structure Runtime where
  cStrings : CStrPtr → CStr
  nextCString : Nat
  selectors : SEL → ObjcSelector
  nextSelector : Nat
  nameTable : String → Option CStrPtr
  selTable : String → Option SEL
  classes : ClassPtr → ObjcClass
  nextClass : Nat
  methodLists : MethodListPtr → MethodList
  nextMethodList : Nat
  classRegistry : List (String × ClassPtr)

namespace Runtime

def modifyClass (rt : Runtime) (cls : ClassPtr) (change : ObjcClass → ObjcClass) : Runtime :=
  { rt with classes := Function.update rt.classes cls (change (rt.classes cls)) }

def modifyMethodList (rt : Runtime) (list : MethodListPtr) (change : MethodList → MethodList) : Runtime :=
  { rt with methodLists := Function.update rt.methodLists list (change (rt.methodLists list)) }

/-- `Box::leak(Box::new(list))` returns a fresh address. -/
def allocMethodList (rt : Runtime) (list : MethodList) : Runtime :=
  { rt with
    methodLists := Function.update rt.methodLists rt.nextMethodList list
    nextMethodList := rt.nextMethodList + 1 }

def superclass (rt : Runtime) (cls : ClassPtr) : Option ClassPtr := (rt.classes cls).superClass

def sibling (rt : Runtime) (cls : ClassPtr) : Option ClassPtr := (rt.classes cls).siblingClass

/-- `ClassRef::ancestors` lists the class and its superclasses. -/
def ancestors (rt : Runtime) (cls : ClassPtr) : List ClassPtr :=
  successors rt.superclass rt.nextClass (some cls)

/-- `ClassRef::subclasses` follows the sibling links from the head. -/
def subclasses (rt : Runtime) (cls : ClassPtr) : List ClassPtr :=
  successors rt.sibling rt.nextClass (rt.classes cls).subclassList

def nextMethodListOf (rt : Runtime) (list : MethodListPtr) : Option MethodListPtr := (rt.methodLists list).next

/-- `method_list_iter` follows the `next` pointers of the nodes. -/
def methodListIter (rt : Runtime) (head : Option MethodListPtr) : List MethodList :=
  (successors rt.nextMethodListOf rt.nextMethodList head).map rt.methodLists

end Runtime

/-- A receiver is an ordinary object, which stores its class, or a class object. -/
inductive ObjcPtr where
  | object (cls : ClassPtr)
  | classObject (cls : ClassPtr)
deriving DecidableEq

/-- The `isa` word stands at offset zero of every object. -/
def Runtime.isaOf (rt : Runtime) : ObjcPtr → Option ClassPtr
  | .object cls => some cls
  | .classObject cls => (rt.classes cls).isa

end O3jc
