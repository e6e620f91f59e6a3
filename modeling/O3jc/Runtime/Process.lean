import O3jc.Library.ReprC
import O3jc.Runtime.Loader

/-
This file embeds `loader.rs` and the lookup of `msg_send.rs` again, on the bytes of the process. A struct that is
`repr(C)` stands in the memory. The objects whose layout Rust leaves open (the method lists, the caches and the tables)
are kept by their address.
-/

namespace O3jc

open Library

abbrev Addr := BitVec 64

def addressSpace : Nat := 2 ^ 64

inductive SelectorField where
  | name | types
deriving DecidableEq

/-- The pointers of a method entry. -/
inductive EntryField where
  | imp | sel | types
deriving DecidableEq

inductive HeaderField where
  | next | count | size
deriving DecidableEq

inductive ClassField where
  | isa | superClass | name | version | info | instanceSize | ivars | methodList | dtable | cxxConstruct | cxxDestruct
  | subclassList | siblingClass | protocols | extraData | abiVersion | properties
deriving DecidableEq

inductive ModuleField where
  | version | selStart | selStop | classesStart | classesStop | classRefsStart | classRefsStop | catsStart | catsStop
  | protocolsStart | protocolsStop | protocolRefsStart | protocolRefsStop | classAliasesStart | classAliasesStop
  | constantStringsStart | constantStringsStop
deriving DecidableEq

/-- A `CompiledSelector` has the layout of an `ObjcSelector`. -/
def ObjcSelector.layout : ReprC SelectorField where
  fields := [.name, .types]
  width _ := 8
  complete f := by cases f <;> decide
  positive _ := by decide

def CompiledMethodEntry.layout : ReprC EntryField where
  fields := [.imp, .sel, .types]
  width _ := 8
  complete f := by cases f <;> decide
  positive _ := by decide

/-- The inline entries follow the padded header. -/
def CompiledMethodList.layout : ReprC HeaderField where
  fields := [.next, .count, .size]
  width
    | .count => 4
    | _ => 8
  complete f := by cases f <;> decide
  positive f := by cases f <;> decide

def ObjcClass.layout : ReprC ClassField where
  fields := [.isa, .superClass, .name, .version, .info, .instanceSize, .ivars, .methodList, .dtable, .cxxConstruct,
    .cxxDestruct, .subclassList, .siblingClass, .protocols, .extraData, .abiVersion, .properties]
  width _ := 8
  complete f := by cases f <;> decide
  positive _ := by decide

def ObjcModuleInfo.layout : ReprC ModuleField where
  fields := [.version, .selStart, .selStop, .classesStart, .classesStop, .classRefsStart, .classRefsStop, .catsStart,
    .catsStop, .protocolsStart, .protocolsStop, .protocolRefsStart, .protocolRefsStop, .classAliasesStart,
    .classAliasesStop, .constantStringsStart, .constantStringsStop]
  width _ := 8
  complete f := by cases f <;> decide
  positive _ := by decide

example : CompiledMethodList.layout.offset .size = 16 ∧ CompiledMethodList.layout.size = 24 ∧
    Int64.ofNat ObjcClass.layout.size = sizeOfObjcClass := by decide

/-- A `MethodEntry` as machine words. -/
structure RawEntry where
  imp : Addr
  sel : Addr
  types : Addr
deriving DecidableEq

/-- A `MethodList` on the heap. -/
structure RawList where
  next : Addr
  entries : List RawEntry
deriving DecidableEq

/-- The memory, the live blocks of it, the objects on the heap and the tables of the runtime. -/
structure Process where
  ram : Ram
  blocks : List Region
  lists : Addr → RawList
  caches : Addr → List (Addr × Addr)
  nameTable : String → Option Addr
  classRegistry : List (String × Addr)

/-- A load panics, or it aborts without memory, or its walk goes on for too long. -/
inductive Stop where
  | panic | outOfMemory | outOfFuel
deriving DecidableEq

/-- The allocator may give up. The fuel bounds the walk to the root class. -/
structure Platform where
  alloc : List Region → Nat → Option Addr
  methodCacheSize : Nat
  fuel : Nat

/-- The bytes before the first null. -/
def Process.untilNul (mem : Ram) : Nat → Addr → List UInt8
  | 0, _ => []
  | fuel + 1, a => if mem a = 0 then [] else UInt8.ofBitVec (mem a) :: untilNul mem fuel (a + 1)

theorem Process.zero_not_mem_untilNul (mem : Ram) (fuel : Nat) (a : Addr) : 0 ∉ Process.untilNul mem fuel a := by
  induction fuel generalizing a with
  | zero => exact List.not_mem_nil
  | succ fuel inductionHypothesis =>
      rw [untilNul]
      split
      · exact List.not_mem_nil
      · rename_i byte
        refine List.not_mem_cons_of_ne_of_not_mem (fun zero => byte ?_) (inductionHypothesis (a + 1))
        rw [← UInt8.toBitVec_ofBitVec (mem a), ← zero]
        rfl

namespace Process

variable {F : Type} [DecidableEq F]

/-- `CStr::from_ptr` -/
def cStr (p : Process) (ptr : Addr) : CStr :=
  ⟨⟨(untilNul p.ram addressSpace ptr).toArray⟩, by simpa using zero_not_mem_untilNul p.ram addressSpace ptr⟩

def word (p : Process) (struct : ReprC F) (base : Addr) (f : F) : Addr := p.ram.load (struct.place base f) 64

def setWord (p : Process) (struct : ReprC F) (base : Addr) (f : F) (value : Addr) : Process :=
  { p with ram := p.ram.store (struct.place base f) value }

variable (platform : Platform)

/-- `Box::leak` returns a block that stays live. -/
def leak (p : Process) (size : Nat) : Except Stop (Process × Addr) :=
  match platform.alloc p.blocks size with
  | some base => .ok ({ p with blocks := ⟨base, size⟩ :: p.blocks }, base)
  | none => .error .outOfMemory

def cStringBytes (name : CStr) : List (BitVec 8) := name.bytes.data.toList.map UInt8.toBitVec ++ [0]

def internSelectorName (p : Process) (name : String) : Except Stop (Process × Addr) :=
  match p.nameTable name with
  | some ptr => .ok (p, ptr)
  | none =>
      match CStr.ofStr name with
      | none => .error .panic
      | some cstr => do
          let (p, ptr) ← p.leak platform (cStringBytes cstr).length
          .ok ({ p with
            ram := p.ram.storeBytes ptr (cStringBytes cstr)
            nameTable := Function.update p.nameTable name (some ptr) }, ptr)

/-- The addresses of the elements of a section. -/
def sectionSlice (start stop : Addr) (size : Nat) : List Addr :=
  if start = 0 ∨ stop = 0 ∨ start ≥ stop then []
  else (List.range ((stop - start).toNat / size)).map fun i => start + BitVec.ofNat 64 (size * i)

def selectorsMut (p : Process) (info : Addr) : List Addr :=
  sectionSlice (p.word ObjcModuleInfo.layout info .selStart) (p.word ObjcModuleInfo.layout info .selStop)
    ObjcSelector.layout.size

def classes (p : Process) (info : Addr) : List Addr :=
  sectionSlice (p.word ObjcModuleInfo.layout info .classesStart) (p.word ObjcModuleInfo.layout info .classesStop) 8

def loadSelector (p : Process) (entry : Addr) : Except Stop Process :=
  let name := p.word ObjcSelector.layout entry .name
  if name = 0 then .ok p
  else
    match (p.cStr name).toStr with
    | none => .error .panic
    | some nameStr => do
        let (p, interned) ← p.internSelectorName platform nameStr
        .ok (p.setWord ObjcSelector.layout entry .name interned)

def loadSelectors (p : Process) (selectors : List Addr) : Except Stop Process :=
  selectors.foldlM (loadSelector platform) p

def compiledEntry (p : Process) (ce : Addr) : RawEntry :=
  ⟨p.word CompiledMethodEntry.layout ce .imp, p.word CompiledMethodEntry.layout ce .sel,
    p.word CompiledMethodEntry.layout ce .types⟩

/-- The entries after the header of a compiled list. -/
def inlineEntries (p : Process) (compiled : Addr) (count : Nat) : List RawEntry :=
  let start := compiled + BitVec.ofNat 64 CompiledMethodList.layout.size
  (List.range count).map fun i => p.compiledEntry (start + BitVec.ofNat 64 (CompiledMethodEntry.layout.size * i))

/-- `count as usize` extends the sign. The collected entries and the node are two allocations. -/
def convertMethodList (p : Process) (compiled : Addr) : Except Stop (Process × Addr) :=
  if compiled = 0 then .ok (p, 0)
  else
    let count := (p.ram.load (CompiledMethodList.layout.place compiled .count) 32).signExtend 64
    if count = 0 then .ok (p, 0)
    else do
      let entries := p.inlineEntries compiled count.toNat
      let (p, _) ← p.leak platform (CompiledMethodEntry.layout.size * count.toNat)
      let (p, list) ← p.leak platform 32
      .ok ({ p with lists := Function.update p.lists list ⟨0, entries⟩ }, list)

def instanceSize (p : Process) (cls : Addr) : Int64 := .ofBitVec (p.word ObjcClass.layout cls .instanceSize)

def setInstanceSize (p : Process) (cls : Addr) (size : Int64) : Process :=
  p.setWord ObjcClass.layout cls .instanceSize size.toBitVec

/-- The two conditional writes of the size. The negation of the smallest `i64` is itself, as in a build without overflow
checks. -/
def patchSize (p : Process) (cls : Addr) : Process :=
  let p := if p.instanceSize cls < 0 then p.setInstanceSize cls (-p.instanceSize cls) else p
  if p.instanceSize cls = 0 ∧ p.word ObjcClass.layout cls .superClass = 0 then p.setInstanceSize cls sizeOfObjcObject
  else p

/-- `MethodCache::new` allocates the vector of its entries and then the box. -/
def patchClass (p : Process) (cls : Addr) : Except Stop Process := do
  let p := p.patchSize cls
  let (p, methods) ← p.convertMethodList platform (p.word ObjcClass.layout cls .methodList)
  let p := p.setWord ObjcClass.layout cls .methodList methods
  let (p, _) ← p.leak platform (16 * cacheCapacity)
  let (p, cache) ← p.leak platform platform.methodCacheSize
  .ok ({ p with caches := Function.update p.caches cache [] }.setWord ObjcClass.layout cls .dtable cache)

/-- The loop from a superclass up to the class that has none. -/
def rootFrom (p : Process) : Nat → Addr → Except Stop Addr
  | 0, _ => .error .outOfFuel
  | fuel + 1, cur =>
      let next := p.word ObjcClass.layout cur .superClass
      if next = 0 then .ok cur else rootFrom p fuel next

def fixMetaclass (p : Process) (cls metaclass : Addr) : Except Stop Process :=
  let sup := p.word ObjcClass.layout cls .superClass
  if sup = 0 then
    .ok ((p.setWord ObjcClass.layout metaclass .isa metaclass).setWord ObjcClass.layout metaclass .superClass cls)
  else do
    let p := p.setWord ObjcClass.layout metaclass .superClass (p.word ObjcClass.layout sup .isa)
    let root ← p.rootFrom platform.fuel sup
    .ok (p.setWord ObjcClass.layout metaclass .isa (p.word ObjcClass.layout root .isa))

def spliceSubclass (p : Process) (parent child : Addr) : Process :=
  let p := p.setWord ObjcClass.layout child .siblingClass (p.word ObjcClass.layout parent .subclassList)
  p.setWord ObjcClass.layout parent .subclassList child

def wireClass (p : Process) (cls : Addr) : Process :=
  let sup := p.word ObjcClass.layout cls .superClass
  if sup = 0 then p else p.spliceSubclass sup cls

def wireMetaclass (p : Process) (cls metaclass : Addr) : Process :=
  let metaSuper := p.word ObjcClass.layout metaclass .superClass
  if metaSuper = 0 then p
  else if p.word ObjcClass.layout cls .superClass = 0 ∧
      p.word ObjcClass.layout metaSuper .info &&& ClassFlags.classIsMetaclass = 0 then p
  else p.spliceSubclass metaSuper metaclass

def registerLoadedClass (p : Process) (cls : Addr) : Except Stop Process :=
  match (p.cStr (p.word ObjcClass.layout cls .name)).toStr with
  | none => .error .panic
  | some name =>
      .ok ({ p with classRegistry := (name, cls) :: p.classRegistry.filter fun entry => entry.1 != name }.setWord
        ObjcClass.layout cls .info (p.word ObjcClass.layout cls .info ||| ClassFlags.classRegistered))

def loadClass (p : Process) (cls : Addr) : Except Stop Process := do
  let p ← p.patchClass platform cls
  let metaclass := p.word ObjcClass.layout cls .isa
  let p ← if metaclass = 0 then .ok p else do
    let p ← p.patchClass platform metaclass
    p.fixMetaclass platform cls metaclass
  let p := p.wireClass cls
  let metaclass := p.word ObjcClass.layout cls .isa
  let p := if metaclass = 0 then p else p.wireMetaclass cls metaclass
  p.registerLoadedClass cls

/-- One turn reads a class pointer of the section. -/
def loadEntry (p : Process) (element : Addr) : Except Stop Process :=
  let cls := p.ram.load element 64
  if cls = 0 then .ok p else p.loadClass platform cls

def loadClasses (p : Process) (elements : List Addr) : Except Stop Process :=
  elements.foldlM (loadEntry platform) p

def objcLoad (p : Process) (info : Addr) : Except Stop Process := do
  let p ← p.loadSelectors platform (p.selectorsMut info)
  p.loadClasses platform (p.classes info)

/-- `NonNull::new` -/
def nonNull (w : Addr) : Option Addr := if w = 0 then none else some w

def selEq (p : Process) (a b : Addr) : Bool :=
  p.word ObjcSelector.layout a .name == p.word ObjcSelector.layout b .name

def ancestors (p : Process) (cls : Addr) : List Addr :=
  successors (fun c => nonNull (p.word ObjcClass.layout c .superClass)) platform.fuel (some cls)

def methodListIter (p : Process) (head : Addr) : List RawList :=
  (successors (fun list => nonNull (p.lists list).next) platform.fuel (nonNull head)).map p.lists

def ownMethod (p : Process) (cls sel : Addr) : Option RawEntry :=
  ((p.methodListIter platform (p.word ObjcClass.layout cls .methodList)).flatMap RawList.entries).find? fun entry =>
    p.selEq entry.sel sel

def classLookupMethod (p : Process) (cls sel : Addr) : Option Addr :=
  (p.ancestors platform cls).findSome? fun c => (p.ownMethod platform c sel).map RawEntry.imp

def cacheLookup (p : Process) (cls sel : Addr) : Option Addr :=
  (nonNull (p.word ObjcClass.layout cls .dtable)).bind fun cache =>
    ((p.caches cache).find? fun entry => p.selEq entry.1 sel).map Prod.snd

def insertEntry (p : Process) (inner : List (Addr × Addr)) (sel imp : Addr) : List (Addr × Addr) :=
  if inner.any fun entry => p.selEq entry.1 sel then inner
  else if inner.length = cacheCapacity then [(sel, imp)]
  else inner ++ [(sel, imp)]

def cacheInsert (p : Process) (cls sel imp : Addr) : Process :=
  match nonNull (p.word ObjcClass.layout cls .dtable) with
  | none => p
  | some cache => { p with caches := Function.update p.caches cache (p.insertEntry (p.caches cache) sel imp) }

/-- The `isa` of the receiver is its first word. -/
def objcMsgLookup (p : Process) (receiver sel : Addr) : Process × Option Addr :=
  if receiver = 0 then (p, none)
  else
    let cls := p.ram.load receiver 64
    match p.cacheLookup cls sel with
    | some imp => (p, some imp)
    | none =>
        match p.classLookupMethod platform cls sel with
        | none => (p, none)
        | some imp => (p.cacheInsert cls sel imp, some imp)

end Process

end O3jc
