import Mathlib.Data.List.ReduceOption
import O3jc.Dispatch.Install
import O3jc.Library.Transition

namespace O3jc

open Library

/-- The calls that build classes, change methods and send messages. -/
inductive ClassOp where
  | allocateClassPair (superclass : Option ClassPtr) (name : CStr)
  | registerClassPair (cls : ClassPtr)
  | addMethod (cls : ClassPtr) (sel : SEL) (imp : IMP) (types : Option CStrPtr)
  | replaceMethod (cls : ClassPtr) (sel : SEL) (imp : IMP) (types : Option CStrPtr)
  | exchangeImplementations (m1 m2 : Method)
  | loadClasses (classPtrs : List (Option ClassPtr))
  | msgLookup (receiver : Option ObjcPtr) (sel : SEL)

def ClassOp.exec (rt : Runtime) : ClassOp → Option Runtime
  | .allocateClassPair superclass name => (objcAllocateClassPair rt superclass name).map Prod.fst
  | .registerClassPair cls => objcRegisterClassPair rt cls
  | .addMethod cls sel imp types => some (classAddMethod rt cls sel imp types).1
  | .replaceMethod cls sel imp types => some (classReplaceMethod rt cls sel imp types).1
  | .exchangeImplementations m1 m2 => methodExchangeImplementations rt m1 m2
  | .loadClasses classPtrs => O3jc.loadClasses rt classPtrs
  | .msgLookup receiver sel => some (objcMsgLookup rt receiver sel).1

/-- A list of compiled classes is loaded once, and its members were not loaded before. -/
def Loadable (image : List ClassPtr) (rt : Runtime) (classPtrs : List (Option ClassPtr)) : Prop :=
  classPtrs.reduceOption.Nodup ∧ ∀ c ∈ classPtrs.reduceOption, c ∈ image ∧ ¬ rt.Loaded c

instance (image : List ClassPtr) (rt : Runtime) (classPtrs : List (Option ClassPtr)) :
    Decidable (Loadable image rt classPtrs) := inferInstanceAs (Decidable (_ ∧ _))

/-- The callers of the class functions pass class pointers that the runtime has set up. -/
def ClassOp.Permitted (image : List ClassPtr) (rt : Runtime) : ClassOp → Prop
  | .allocateClassPair superclass _ => ∀ s ∈ superclass, (rt.classes s).isRegistered = true
  | .registerClassPair cls => (rt.classes cls).isMetaclass = false ∧ rt.Loaded cls
  | .addMethod cls _ _ _ => rt.Loaded cls
  | .replaceMethod cls _ _ _ => rt.Loaded cls
  | .exchangeImplementations _ _ => True
  | .loadClasses classPtrs => Loadable image rt classPtrs
  | .msgLookup _ _ => True

instance (image : List ClassPtr) (rt : Runtime) (op : ClassOp) : Decidable (op.Permitted image rt) :=
  match op with
  | .allocateClassPair _ _ => inferInstanceAs (Decidable (∀ s ∈ _, _ = true))
  | .registerClassPair _ => inferInstanceAs (Decidable (_ = false ∧ rt.Loaded _))
  | .addMethod _ _ _ _ => inferInstanceAs (Decidable (rt.Loaded _))
  | .replaceMethod _ _ _ _ => inferInstanceAs (Decidable (rt.Loaded _))
  | .exchangeImplementations _ _ => inferInstanceAs (Decidable True)
  | .loadClasses _ => inferInstanceAs (Decidable (Loadable _ _ _))
  | .msgLookup _ _ => inferInstanceAs (Decidable True)

/-- The class memory before any call holds the compiled pairs as the compiler emits them. -/
structure StaticImage (image : List ClassPtr) (rt : Runtime) : Prop where
  blank : ∀ c, rt.nextClass ≤ c → rt.classes c = ObjcClass.blank
  registry : rt.classRegistry = []
  untouched : ∀ c, (rt.classes c).dtable = none ∧ (rt.classes c).isRegistered = false ∧
    (rt.classes c).subclassList = none ∧ (rt.classes c).siblingClass = none ∧
    (rt.classes c).methodList.head = none
  covered : ∀ c, c < rt.nextClass → c ∈ image ∨ ∃ d ∈ image, (rt.classes d).isa = some c
  cls : ∀ c ∈ image, (rt.classes c).isMetaclass = false ∧ c < rt.nextClass
  metaclass : ∀ c ∈ image, ∃ m, (rt.classes c).isa = some m ∧ m < rt.nextClass ∧
    (rt.classes m).isMetaclass = true ∧ (rt.classes m).isa = none ∧ rt.superclass m = none
  distinct : ∀ c ∈ image, ∀ d ∈ image, (rt.classes c).isa = (rt.classes d).isa → c = d
  closed : ∀ c ∈ image, ∀ p, rt.superclass c = some p → p ∈ image
  acyclic : ∃ depth : ClassPtr → Nat, ∀ c ∈ image, ∀ p, rt.superclass c = some p → depth p < depth c

/-- The invariant of every run over an image. -/
structure WorldInv (image : List ClassPtr) (rt : Runtime) : Prop where
  graph : GraphInv image rt
  chain : ChainInv rt
  unbound : ∀ c, ¬ rt.Loaded c → ∀ sel, rt.ownImp c sel = none

section Start

variable {image : List ClassPtr} {rt : Runtime} (start : StaticImage image rt)

include start

/-- Every ordinary class of the start is a compiled class of the image. -/
theorem StaticImage.mem_image {c : ClassPtr} (kind : (rt.classes c).isMetaclass = false)
    (below : c < rt.nextClass) : c ∈ image := by
  rcases start.covered c below with inside | ⟨d, member, isa⟩
  · exact inside
  · obtain ⟨m, link, _, isMeta, _⟩ := start.metaclass d member
    obtain rfl : m = c := Option.some.inj (link.symm.trans isa)
    rw [kind] at isMeta
    exact absurd isMeta (by simp)

theorem StaticImage.mem_of_isa {c m : ClassPtr} (kind : (rt.classes c).isMetaclass = false)
    (isa : (rt.classes c).isa = some m) : c ∈ image := by
  refine start.mem_image kind ?_
  by_contra above
  rw [start.blank c (Nat.le_of_not_lt above)] at isa
  exact absurd isa (by simp [ObjcClass.blank])

/-- Only compiled classes have a superclass before the first load. -/
theorem StaticImage.mem_of_superclass {c p : ClassPtr} (link : rt.superclass c = some p) : c ∈ image := by
  by_cases below : c < rt.nextClass
  · rcases start.covered c below with inside | ⟨d, member, isa⟩
    · exact inside
    · obtain ⟨m, link', _, _, _, super⟩ := start.metaclass d member
      obtain rfl : m = c := Option.some.inj (link'.symm.trans isa)
      rw [super] at link
      exact absurd link (by simp)
  · rw [Runtime.superclass, start.blank c (Nat.le_of_not_lt below)] at link
    exact absurd link (by simp [ObjcClass.blank])

theorem StaticImage.not_loaded (c : ClassPtr) : ¬ rt.Loaded c := by
  rw [Runtime.Loaded, (start.untouched c).1]
  simp

theorem StaticImage.subclasses (p : ClassPtr) : rt.subclasses p = [] := by
  rw [Runtime.subclasses, (start.untouched p).2.2.1]
  exact Walk.nil.successors_eq (Nat.zero_le _)

theorem StaticImage.nodesOf (c : ClassPtr) : rt.nodesOf c = [] := by
  rw [Runtime.nodesOf, (start.untouched c).2.2.2.2]
  exact Walk.nil.successors_eq (Nat.zero_le _)

/-- A class ranks by its depth, and a metaclass one above its class. -/
theorem StaticImage.ranked : ∃ rank : ClassPtr → Nat, (∀ c p, rt.superclass c = some p → rank p < rank c) ∧
    ∀ c m, (rt.classes c).isMetaclass = false → (rt.classes c).isa = some m → rank m = rank c + 1 := by
  classical
  obtain ⟨depth, decreasing⟩ := start.acyclic
  let ownerRank : ClassPtr → Nat := fun m =>
    if owned : ∃ c ∈ image, (rt.classes c).isa = some m then depth owned.choose + 1 else 0
  have plain : ∀ c, (rt.classes c).isMetaclass = false →
      (if (rt.classes c).isMetaclass = true then ownerRank c else depth c) = depth c := by
    intro c kind
    rw [if_neg (by simp [kind])]
  refine ⟨fun c => if (rt.classes c).isMetaclass = true then ownerRank c else depth c, fun c p link => ?_,
    fun c m kind isa => ?_⟩
  · have member := start.mem_of_superclass link
    dsimp only
    rw [plain c (start.cls c member).1, plain p (start.cls p (start.closed c member p link)).1]
    exact decreasing c member p link
  · have member := start.mem_of_isa kind isa
    obtain ⟨other, link, _, isMeta, _⟩ := start.metaclass c member
    obtain rfl : other = m := Option.some.inj (link.symm.trans isa)
    have owned : ∃ c ∈ image, (rt.classes c).isa = some other := ⟨c, member, isa⟩
    have owner : owned.choose = c :=
      start.distinct _ owned.choose_spec.1 c member (owned.choose_spec.2.trans isa.symm)
    dsimp only
    rw [plain c kind, if_pos isMeta]
    simp only [ownerRank, dif_pos owned, owner]

theorem StaticImage.graphInv : GraphInv image rt where
  blank c above := by
    rw [start.blank c above]
    exact ⟨rfl, rfl⟩
  superBelow c p link :=
    (start.cls p (start.closed c (start.mem_of_superclass link) p link)).2
  ranked := start.ranked
  superKind c p _ link := (start.cls p (start.closed c (start.mem_of_superclass link) p link)).1
  isaKind c m kind isa := by
    obtain ⟨other, link, below, isMeta, _⟩ := start.metaclass c (start.mem_of_isa kind isa)
    obtain rfl : other = m := Option.some.inj (link.symm.trans isa)
    exact ⟨isMeta, below⟩
  hasIsa c kind below := by
    obtain ⟨m, link, _⟩ := start.metaclass c (start.mem_image kind below)
    rw [link]
    rfl
  isaInj c d m cKind dKind cIsa dIsa :=
    start.distinct c (start.mem_of_isa cKind cIsa) d (start.mem_of_isa dKind dIsa) (cIsa.trans dIsa.symm)
  pairLoaded c m _ _ := ⟨fun loaded => absurd loaded (start.not_loaded m),
    fun loaded => absurd loaded (start.not_loaded c)⟩
  imageClass c member := ⟨(start.cls c member).1, (start.cls c member).2, start.closed c member⟩
  unloaded c kind below _ := start.mem_image kind below
  siblings p := by
    rw [start.subclasses, (start.untouched p).2.2.1]
    exact .nil
  subclassSuper p c member := by
    rw [start.subclasses] at member
    simp at member
  listed c _ _ loaded := absurd loaded (start.not_loaded c)
  registeredClass c registered := by
    rw [(start.untouched c).2.1] at registered
    exact absurd registered (by simp)
  superRegistered _ p _ _ loaded := absurd loaded (start.not_loaded p)
  imageRegistered c _ loaded := absurd loaded (start.not_loaded c)
  metaSuper c _ _ _ _ loaded := absurd loaded (start.not_loaded c)
  metaRoot c _ _ _ loaded := absurd loaded (start.not_loaded c)
  metaUnloaded c m kind isa _ := by
    obtain ⟨other, link, _, _, _, super⟩ := start.metaclass c (start.mem_of_isa kind isa)
    obtain rfl : other = m := Option.some.inj (link.symm.trans isa)
    exact super
  registrySound entry member := by
    rw [start.registry] at member
    simp at member
  registryComplete c registered := by
    rw [(start.untouched c).2.1] at registered
    exact absurd registered (by simp)

theorem StaticImage.chainInv : ChainInv rt where
  complete c := by
    rw [start.nodesOf, (start.untouched c).2.2.2.2]
    exact .nil
  below c node member := by
    rw [start.nodesOf] at member
    simp at member
  disjoint a b node inA := by
    rw [start.nodesOf] at inA
    simp at inA

theorem StaticImage.ownImp (c : ClassPtr) (sel : SEL) : rt.ownImp c sel = none := by
  rw [Runtime.ownImp, Runtime.ownMethod, Runtime.methodEntries_eq, start.nodesOf]
  rfl

theorem StaticImage.worldInv : WorldInv image rt := ⟨start.graphInv, start.chainInv, fun c _ => start.ownImp c⟩

end Start

/-- A process without compiled classes, in which selector `n` carries the name pointer `n`. -/
def Runtime.empty : Runtime where
  cStrings _ := .empty
  nextCString := 0
  selectors sel := ⟨some sel, none⟩
  nextSelector := 0
  nameTable _ := none
  selTable _ := none
  classes _ := ObjcClass.blank
  nextClass := 0
  methodLists _ := ⟨none, .empty⟩
  nextMethodList := 0
  classRegistry := []

theorem Runtime.empty_static : StaticImage [] Runtime.empty where
  blank _ _ := rfl
  registry := rfl
  untouched c := ⟨rfl, by simp [empty, ObjcClass.blank, ObjcClass.isRegistered], rfl, rfl, rfl⟩
  covered c below := absurd below (Nat.not_lt_zero c)
  cls c member := by simp at member
  metaclass c member := by simp at member
  distinct c member := by simp at member
  closed c member := by simp at member
  acyclic := ⟨fun _ => 0, fun c member => by simp at member⟩

/-- A process that holds the compiled classes of the list, each at its index. -/
def Runtime.compiled (classes : List ObjcClass) : Runtime :=
  { Runtime.empty with classes := fun cls => classes[cls]?.getD ObjcClass.blank, nextClass := classes.length }

theorem Runtime.compiled_mem (classes : List ObjcClass) (c : ClassPtr) :
    (Runtime.compiled classes).classes c = ObjcClass.blank ∨ (Runtime.compiled classes).classes c ∈ classes := by
  change classes[c]?.getD ObjcClass.blank = _ ∨ classes[c]?.getD ObjcClass.blank ∈ classes
  cases found : classes[c]? with
  | none => exact .inl rfl
  | some cls => exact .inr (List.mem_of_getElem? found)

/-- The compiled classes of a list are an image when each one's superclass stands before it. -/
theorem Runtime.compiled_static {classes : List ObjcClass} {image : List ClassPtr}
    (untouched : ∀ cls ∈ classes, cls.dtable = none ∧ cls.isRegistered = false ∧ cls.subclassList = none ∧
      cls.siblingClass = none ∧ cls.methodList.head = none)
    (covered : ∀ c < classes.length, c ∈ image ∨ ∃ d ∈ image, ((Runtime.compiled classes).classes d).isa = some c)
    (plain : ∀ c ∈ image, ((Runtime.compiled classes).classes c).isMetaclass = false ∧ c < classes.length)
    (metaclass : ∀ c ∈ image, ∃ m < classes.length, ((Runtime.compiled classes).classes c).isa = some m ∧
      ((Runtime.compiled classes).classes m).isMetaclass = true ∧
      ((Runtime.compiled classes).classes m).isa = none ∧ (Runtime.compiled classes).superclass m = none)
    (distinct : ∀ c ∈ image, ∀ d ∈ image,
      ((Runtime.compiled classes).classes c).isa = ((Runtime.compiled classes).classes d).isa → c = d)
    (ordered : ∀ c ∈ image, ∀ p ∈ (Runtime.compiled classes).superclass c, p ∈ image ∧ p < c) :
    StaticImage image (Runtime.compiled classes) where
  blank c above := by
    change classes[c]?.getD ObjcClass.blank = _
    rw [List.getElem?_eq_none above, Option.getD_none]
  registry := rfl
  untouched c := by
    rcases Runtime.compiled_mem classes c with blank | member
    · rw [blank]
      decide
    · exact untouched _ member
  covered := covered
  cls := plain
  metaclass c member := by
    obtain ⟨m, below, isa, kind, metaIsa, metaSuper⟩ := metaclass c member
    exact ⟨m, isa, below, kind, metaIsa, metaSuper⟩
  distinct := distinct
  closed c member p link := (ordered c member p link).1
  acyclic := ⟨id, fun c member p link => (ordered c member p link).2⟩

/-- A compiled root class, a subclass without ivars, and a subclass of that one with two words of them. -/
def compiledTriple : Runtime := .compiled
  [{ ObjcClass.blank with isa := some 1, name := ⟨⟨#[88]⟩, by decide⟩ },
    { ObjcClass.blank with info := ClassFlags.classIsMetaclass },
    { ObjcClass.blank with isa := some 3, superClass := some 0, name := ⟨⟨#[89]⟩, by decide⟩ },
    { ObjcClass.blank with info := ClassFlags.classIsMetaclass },
    { ObjcClass.blank with
      isa := some 5, superClass := some 2, name := ⟨⟨#[90]⟩, by decide⟩, instanceSize := -16 },
    { ObjcClass.blank with info := ClassFlags.classIsMetaclass }]

theorem compiledTriple_static : StaticImage [0, 2, 4] compiledTriple :=
  Runtime.compiled_static (by decide) (by decide) (by decide) (by decide) (by decide) (by decide)

section Steps

variable {image : List ClassPtr} {rt rt' : Runtime}

theorem ownImp_of_entries {c : ClassPtr} (same : rt'.methodEntries c = rt.methodEntries c)
    (eq : selEq rt' = selEq rt) (sel : SEL) : rt'.ownImp c sel = rt.ownImp c sel := by
  rw [Runtime.ownImp, Runtime.ownImp, Runtime.ownMethod, Runtime.ownMethod, same, eq]

theorem WorldInv.of_extends (inv : WorldInv image rt) (graph : GraphInv image rt') (chain : ChainInv rt')
    (ext : Extends rt rt') : WorldInv image rt' where
  graph := graph
  chain := chain
  unbound c unloaded sel := by
    rw [ownImp_of_entries (ext.unloadedEntries c unloaded) ext.selEq]
    exact inv.unbound c (fun loaded => unloaded (ext.loaded c loaded)) sel

/-- A binding on a loaded class keeps the invariant. -/
theorem WorldInv.of_binds {cls : ClassPtr} {sel : SEL} {imp : IMP} {flushed : List ClassPtr}
    (inv : WorldInv image rt) (loaded : rt.Loaded cls) (binds : Binds rt rt' cls sel imp flushed) :
    WorldInv image rt' where
  graph := inv.graph.of_same binds.graph
  chain := binds.chain
  unbound c unloaded s := by
    rw [binds.graph.loaded_iff] at unloaded
    have other : ¬ (c = cls ∧ selEq rt sel s = true) := fun both => unloaded (both.1 ▸ loaded)
    rw [binds.own, if_neg other]
    exact inv.unbound c unloaded s

theorem WorldInv.of_exchanges {m1 m2 : Method} {first second : MethodEntry} (inv : WorldInv image rt)
    (swap : Exchanges rt rt' m1 m2 first second) : WorldInv image rt' where
  graph := inv.graph.of_same swap.graph
  chain := swap.chain
  unbound c unloaded s := by
    rw [swap.graph.loaded_iff] at unloaded
    have missing : rt.findMethod c s = none := by
      rw [findMethod_eq_none_iff]
      exact Option.map_eq_none_iff.mp (inv.unbound c unloaded s)
    rw [Runtime.ownImp, ← findMethod_bind_read, swap.find, missing]
    rfl

theorem WorldInv.of_same (inv : WorldInv image rt) (graph : SameGraph rt rt') (methods : SameMethods rt rt') :
    WorldInv image rt' where
  graph := inv.graph.of_same graph
  chain := inv.chain.of_same methods
  unbound c unloaded s := by
    rw [graph.loaded_iff] at unloaded
    rw [Runtime.ownImp, ownMethod_of_same graph methods]
    exact inv.unbound c unloaded s

variable (inv : WorldInv image rt)

include inv

theorem allocate_world {superclass : Option ClassPtr} {name : CStr} {cls : ClassPtr}
    (known : ∀ s ∈ superclass, (rt.classes s).isRegistered = true)
    (result : objcAllocateClassPair rt superclass name = some (rt', cls)) :
    WorldInv image rt' ∧ Extends rt rt' ∧ Allocated rt rt' superclass name := by
  obtain ⟨_, step⟩ := objcAllocateClassPair_spec
    (fun s link => inv.graph.lt_of_loaded (inv.graph.registeredClass s (known s link)).2) result
  have ext := step.extends inv.graph
  exact ⟨inv.of_extends (step.graphInv inv.graph known) (step.chainInv inv.chain) ext, ext, step⟩

theorem register_world {cls : ClassPtr} (kind : (rt.classes cls).isMetaclass = false) (loaded : rt.Loaded cls)
    (result : registerClass rt cls = some rt') :
    WorldInv image rt' ∧ Extends rt rt' ∧ ∃ name, Registered rt rt' cls name := by
  obtain ⟨name, step⟩ := registerClass_spec result
  exact ⟨inv.of_extends (step.graphInv inv.graph kind loaded) (inv.chain.of_same step.sameMethods) step.extends,
    step.extends, name, step⟩

/-- What loading changes in the superclass links and in the set of loaded classes. -/
structure LoadsAll (rt rt' : Runtime) (classes : List ClassPtr) : Prop where
  kind : ∀ c, (rt'.classes c).isMetaclass = (rt.classes c).isMetaclass
  superclass : ∀ c, (rt.classes c).isMetaclass = false → rt'.superclass c = rt.superclass c
  isa : ∀ c, (rt.classes c).isMetaclass = false → (rt'.classes c).isa = (rt.classes c).isa
  loaded : ∀ c, (rt.classes c).isMetaclass = false → (rt'.Loaded c ↔ c ∈ classes ∨ rt.Loaded c)
  registered : ∀ c, (rt'.classes c).isRegistered = true ↔ c ∈ classes ∨ (rt.classes c).isRegistered = true

/-- A turn of the loader installs a compiled class and its metaclass. -/
theorem loadClass_installs {cls : ClassPtr} (member : cls ∈ image) (result : loadClass rt cls = some rt') :
    ∃ metaclass root name, (rt.classes cls).isMetaclass = false ∧ cls < rt.nextClass ∧
      (rt.classes cls).isa = some metaclass ∧ Installed rt rt' cls metaclass root name := by
  obtain ⟨kind, below, _⟩ := inv.graph.imageClass cls member
  obtain ⟨metaclass, isa⟩ := Option.isSome_iff_exists.mp (inv.graph.hasIsa cls kind below)
  obtain ⟨root, name, _, _, step⟩ := loadClass_spec inv.chain inv.graph kind below isa result
  exact ⟨metaclass, root, name, kind, below, isa, step⟩

theorem loadClass_world {cls : ClassPtr} (member : cls ∈ image) (unloaded : ¬ rt.Loaded cls)
    (result : loadClass rt cls = some rt') :
    WorldInv image rt' ∧ Extends rt rt' ∧ LoadsAll rt rt' [cls] := by
  obtain ⟨metaclass, root, name, kind, below, isa, step⟩ := loadClass_installs inv member result
  have ext := step.extends inv.graph kind isa unloaded
  refine ⟨inv.of_extends (step.graphInv inv.graph kind isa unloaded below) step.chain ext, ext,
    ⟨step.isMetaclass, fun c plain => step.superOld c (plain_ne_metaclass inv.graph kind isa plain),
      fun c plain => step.isaOld c (plain_ne_metaclass inv.graph kind isa plain),
      fun c plain => ?_, fun c => ?_⟩⟩
  · rw [step.loaded_iff, List.mem_singleton]
    simp [plain_ne_metaclass inv.graph kind isa plain]
  · rw [step.isRegistered_iff, List.mem_singleton]

/-- After the first turn of a list the rest of it can be loaded. -/
theorem Loadable.tail {cls : ClassPtr} {rest : List (Option ClassPtr)} (loadable : Loadable image rt (some cls :: rest))
    (result : loadClass rt cls = some rt') : cls ∈ image ∧ ¬ rt.Loaded cls ∧ Loadable image rt' rest := by
  obtain ⟨distinct, fresh⟩ := loadable
  rw [List.reduceOption_cons_of_some] at distinct fresh
  obtain ⟨outside, distinctRest⟩ := List.nodup_cons.mp distinct
  obtain ⟨member, unloaded⟩ := fresh cls List.mem_cons_self
  obtain ⟨_, _, loads⟩ := loadClass_world inv member unloaded result
  refine ⟨member, unloaded, distinctRest, fun c inside => ?_⟩
  obtain ⟨inImage, old⟩ := fresh c (List.mem_cons_of_mem cls inside)
  refine ⟨inImage, fun loaded => ?_⟩
  rcases (loads.loaded c (inv.graph.imageClass c inImage).1).mp loaded with same | before
  · rw [List.mem_singleton] at same
    exact outside (same ▸ inside)
  · exact old before

/-- Loading a list installs its members one after the other. -/
theorem loadClasses_world {classPtrs : List (Option ClassPtr)} (loadable : Loadable image rt classPtrs)
    (result : loadClasses rt classPtrs = some rt') :
    WorldInv image rt' ∧ Extends rt rt' ∧ LoadsAll rt rt' classPtrs.reduceOption := by
  induction classPtrs generalizing rt with
  | nil =>
      obtain rfl : rt = rt' := Option.some.inj result
      exact ⟨inv, .refl rt, fun _ => rfl, fun _ _ => rfl, fun _ _ => rfl, fun c _ => by simp, fun c => by simp⟩
  | cons entry rest ih =>
      rw [loadClasses, List.foldlM_cons] at result
      obtain ⟨middle, turn, later⟩ := Option.bind_eq_some_iff.mp result
      cases entry with
      | none =>
          obtain rfl : rt = middle := Option.some.inj turn
          exact ih inv loadable later
      | some cls =>
          obtain ⟨member, unloaded, loadable1⟩ := loadable.tail inv turn
          obtain ⟨inv1, ext1, loads1⟩ := loadClass_world inv member unloaded turn
          obtain ⟨inv2, ext2, loads2⟩ := ih inv1 loadable1 later
          refine ⟨inv2, ext1.trans ext2, fun c => (loads2.kind c).trans (loads1.kind c), fun c plain => ?_,
            fun c plain => ?_, fun c plain => ?_, fun c => ?_⟩
          · rw [loads2.superclass c ((loads1.kind c).trans plain), loads1.superclass c plain]
          · rw [loads2.isa c ((loads1.kind c).trans plain), loads1.isa c plain]
          · rw [loads2.loaded c ((loads1.kind c).trans plain), loads1.loaded c plain,
              List.reduceOption_cons_of_some]
            simp only [List.mem_cons, List.not_mem_nil, or_false]
            tauto
          · rw [loads2.registered c, loads1.registered c, List.reduceOption_cons_of_some]
            simp only [List.mem_cons, List.not_mem_nil, or_false]
            tauto

omit inv in
/-- A property that every turn of the loader keeps is kept by every list. -/
theorem loadClasses_rule (holds : Runtime → Prop)
    (turn : ∀ state cls next, WorldInv image state → holds state → cls ∈ image → ¬ state.Loaded cls →
      loadClass state cls = some next → holds next)
    {classPtrs : List (Option ClassPtr)} (inv : WorldInv image rt) (initial : holds rt)
    (loadable : Loadable image rt classPtrs) (result : loadClasses rt classPtrs = some rt') : holds rt' := by
  induction classPtrs generalizing rt with
  | nil =>
      obtain rfl : rt = rt' := Option.some.inj result
      exact initial
  | cons entry rest ih =>
      rw [loadClasses, List.foldlM_cons] at result
      obtain ⟨middle, step, later⟩ := Option.bind_eq_some_iff.mp result
      cases entry with
      | none =>
          obtain rfl : rt = middle := Option.some.inj step
          exact ih inv initial loadable later
      | some cls =>
          obtain ⟨member, unloaded, loadable1⟩ := loadable.tail inv step
          exact ih (loadClass_world inv member unloaded step).1
            (turn rt cls middle inv initial member unloaded step) loadable1 later

end Steps

end O3jc
