import O3jc.Dispatch.Mutation

namespace O3jc

open Library

/-- The class graph of every run over a fixed list of compiled classes. -/
structure GraphInv (image : List ClassPtr) (rt : Runtime) : Prop where
  blank : ∀ c, rt.nextClass ≤ c →
    (rt.classes c).links = ObjcClass.blank.links ∧ (rt.classes c).dtable = none
  superBelow : ∀ c p, rt.superclass c = some p → p < rt.nextClass
  ranked : ∃ rank : ClassPtr → Nat, (∀ c p, rt.superclass c = some p → rank p < rank c) ∧
    ∀ c m, (rt.classes c).isMetaclass = false → (rt.classes c).isa = some m → rank m = rank c + 1
  superKind : ∀ c p, (rt.classes c).isMetaclass = false → rt.superclass c = some p →
    (rt.classes p).isMetaclass = false
  isaKind : ∀ c m, (rt.classes c).isMetaclass = false → (rt.classes c).isa = some m →
    (rt.classes m).isMetaclass = true ∧ m < rt.nextClass
  hasIsa : ∀ c, (rt.classes c).isMetaclass = false → c < rt.nextClass → (rt.classes c).isa.isSome = true
  isaInj : ∀ c d m, (rt.classes c).isMetaclass = false → (rt.classes d).isMetaclass = false →
    (rt.classes c).isa = some m → (rt.classes d).isa = some m → c = d
  pairLoaded : ∀ c m, (rt.classes c).isMetaclass = false → (rt.classes c).isa = some m →
    (rt.Loaded m ↔ rt.Loaded c)
  imageClass : ∀ c ∈ image, (rt.classes c).isMetaclass = false ∧ c < rt.nextClass ∧
    ∀ p, rt.superclass c = some p → p ∈ image
  unloaded : ∀ c, (rt.classes c).isMetaclass = false → c < rt.nextClass → ¬ rt.Loaded c → c ∈ image
  siblings : ∀ p, Walk rt.sibling (rt.classes p).subclassList (rt.subclasses p)
  subclassSuper : ∀ p, ∀ c ∈ rt.subclasses p, rt.superclass c = some p ∧ rt.Loaded c
  listed : ∀ c p, (rt.classes c).isMetaclass = false → rt.Loaded c → rt.superclass c = some p →
    c ∈ rt.subclasses p
  registeredClass : ∀ c, (rt.classes c).isRegistered = true →
    (rt.classes c).isMetaclass = false ∧ rt.Loaded c
  superRegistered : ∀ c p, (rt.classes c).isMetaclass = false → rt.superclass c = some p → rt.Loaded p →
    (rt.classes p).isRegistered = true
  imageRegistered : ∀ c ∈ image, rt.Loaded c → (rt.classes c).isRegistered = true
  metaSuper : ∀ c m p, (rt.classes c).isMetaclass = false → (rt.classes c).isa = some m → rt.Loaded c →
    rt.superclass c = some p → rt.superclass m = (rt.classes p).isa
  metaRoot : ∀ c m, (rt.classes c).isMetaclass = false → (rt.classes c).isa = some m → rt.Loaded c →
    rt.superclass c = none → rt.superclass m = none ∨ rt.superclass m = some c
  metaUnloaded : ∀ c m, (rt.classes c).isMetaclass = false → (rt.classes c).isa = some m → ¬ rt.Loaded c →
    rt.superclass m = none
  registrySound : ∀ entry ∈ rt.classRegistry, (rt.classes entry.2).isRegistered = true ∧
    (rt.classes entry.2).name.toStr = some entry.1
  registryComplete : ∀ c, (rt.classes c).isRegistered = true →
    ∃ entry ∈ rt.classRegistry, (rt.classes c).name.toStr = some entry.1

/-- A write to caches or methods keeps the class graph. -/
theorem GraphInv.of_same {image : List ClassPtr} {rt rt' : Runtime} (inv : GraphInv image rt)
    (same : SameGraph rt rt') : GraphInv image rt' where
  blank c above := by
    rw [same.nextClass] at above
    refine ⟨(same.links c).trans (inv.blank c above).1, ?_⟩
    have loaded := same.loaded c
    rw [(inv.blank c above).2, Option.isSome_none, Option.isSome_eq_false_iff, Option.isNone_iff_eq_none]
      at loaded
    exact loaded
  superBelow := by
    rw [same.superclass, same.nextClass]
    exact inv.superBelow
  ranked := by
    simp only [same.superclass, same.isMetaclass, same.isa]
    exact inv.ranked
  superKind := by
    simp only [same.superclass, same.isMetaclass]
    exact inv.superKind
  isaKind := by
    simp only [same.isMetaclass, same.isa, same.nextClass]
    exact inv.isaKind
  hasIsa := by
    simp only [same.isMetaclass, same.isa, same.nextClass]
    exact inv.hasIsa
  isaInj := by
    simp only [same.isMetaclass, same.isa]
    exact inv.isaInj
  pairLoaded := by
    simp only [same.isMetaclass, same.isa, same.loaded_iff]
    exact inv.pairLoaded
  imageClass := by
    simp only [same.isMetaclass, same.superclass, same.nextClass]
    exact inv.imageClass
  unloaded := by
    simp only [same.isMetaclass, same.loaded_iff, same.nextClass]
    exact inv.unloaded
  siblings := by
    simp only [same.sibling, same.subclassList, same.subclasses]
    exact inv.siblings
  subclassSuper := by
    simp only [same.superclass, same.subclasses, same.loaded_iff]
    exact inv.subclassSuper
  listed := by
    simp only [same.superclass, same.subclasses, same.loaded_iff, same.isMetaclass]
    exact inv.listed
  registeredClass := by
    simp only [same.isRegistered, same.loaded_iff, same.isMetaclass]
    exact inv.registeredClass
  superRegistered := by
    simp only [same.superclass, same.isRegistered, same.loaded_iff, same.isMetaclass]
    exact inv.superRegistered
  imageRegistered := by
    simp only [same.isRegistered, same.loaded_iff]
    exact inv.imageRegistered
  metaSuper := by
    simp only [same.superclass, same.isa, same.loaded_iff, same.isMetaclass]
    exact inv.metaSuper
  metaRoot := by
    simp only [same.superclass, same.isa, same.loaded_iff, same.isMetaclass]
    exact inv.metaRoot
  metaUnloaded := by
    simp only [same.superclass, same.isa, same.loaded_iff, same.isMetaclass]
    exact inv.metaUnloaded
  registrySound := by
    simp only [same.isRegistered, same.registry, same.name]
    exact inv.registrySound
  registryComplete := by
    simp only [same.isRegistered, same.registry, same.name]
    exact inv.registryComplete

/-- A complete walk over allocated classes is the subclass list. -/
theorem Runtime.subclasses_eq_of_walk {rt : Runtime} {parent : ClassPtr} {children : List ClassPtr}
    (complete : Walk rt.sibling (rt.classes parent).subclassList children)
    (below : ∀ c ∈ children, c < rt.nextClass) : rt.subclasses parent = children :=
  complete.successors_eq (complete.length_le below)

/-- Dispatch from a class is defined once every class of its superclass chain is loaded. -/
def Runtime.Ready (rt : Runtime) (cls : ClassPtr) : Prop := ∀ c ∈ rt.ancestors cls, rt.Loaded c

instance (rt : Runtime) (cls : ClassPtr) : Decidable (rt.Ready cls) :=
  inferInstanceAs (Decidable (∀ c ∈ rt.ancestors cls, rt.Loaded c))

section Walks

variable {image : List ClassPtr} {rt : Runtime} (inv : GraphInv image rt)

include inv

theorem GraphInv.lt_of_loaded {cls : ClassPtr} (loaded : rt.Loaded cls) : cls < rt.nextClass := by
  by_contra above
  have blank := (inv.blank cls (Nat.le_of_not_lt above)).2
  rw [Runtime.Loaded, blank] at loaded
  exact absurd loaded (by simp)

/-- The superclass chain of an allocated class is finite. -/
theorem GraphInv.ancestors_walk {cls : ClassPtr} (below : cls < rt.nextClass) :
    Walk rt.superclass (some cls) (rt.ancestors cls) := by
  obtain ⟨rank, decreasing, _⟩ := inv.ranked
  obtain ⟨walk, complete⟩ := Walk.exists_of_rank rank decreasing (some cls)
  have bounded : ∀ c ∈ walk, c < rt.nextClass := complete.forall_mem (· < rt.nextClass)
    (fun c same => by
      rw [Option.mem_some_iff] at same
      exact same ▸ below)
    fun c p _ link => inv.superBelow c p link
  rw [Runtime.ancestors, complete.successors_eq (complete.length_le bounded)]
  exact complete

theorem GraphInv.ancestors_length {cls : ClassPtr} (below : cls < rt.nextClass) :
    (rt.ancestors cls).length ≤ rt.nextClass :=
  (inv.ancestors_walk below).length_le ((inv.ancestors_walk below).forall_mem (· < rt.nextClass)
    (fun c same => by
      rw [Option.mem_some_iff] at same
      exact same ▸ below)
    fun c p _ link => inv.superBelow c p link)

theorem GraphInv.self_mem_ancestors {cls : ClassPtr} (below : cls < rt.nextClass) :
    cls ∈ rt.ancestors cls := by
  obtain ⟨rest, split, _⟩ := walk_some_iff.mp (inv.ancestors_walk below)
  rw [split]
  exact List.mem_cons_self

theorem GraphInv.ancestors_kind {cls : ClassPtr} (below : cls < rt.nextClass)
    (kind : (rt.classes cls).isMetaclass = false) :
    ∀ c ∈ rt.ancestors cls, (rt.classes c).isMetaclass = false :=
  (inv.ancestors_walk below).forall_mem (fun c => (rt.classes c).isMetaclass = false)
    (fun c same => by
      rw [Option.mem_some_iff] at same
      exact same ▸ kind)
    fun c p here link => inv.superKind c p here link

/-- The flush tree of a class contains every ready class below it. -/
theorem GraphInv.mem_flushOrder {cls top : ClassPtr} (below : cls < rt.nextClass)
    (kind : (rt.classes cls).isMetaclass = false) (ready : rt.Ready cls) (above : top ∈ rt.ancestors cls) :
    cls ∈ flushOrder rt top := by
  have reached : cls ∈ preorder rt.subclasses (rt.ancestors cls).length top :=
    mem_preorder_of_walk (inv.ancestors_walk below) above
      (fun c member p link => inv.listed c p (inv.ancestors_kind below kind c member) (ready c member) link)
      cls rfl
  exact preorder_mono (inv.ancestors_length below) reached

end Walks

/-- A construction step leaves the loaded classes, their methods and their caches alone. -/
structure Extends (rt rt' : Runtime) : Prop where
  nextClass : rt.nextClass ≤ rt'.nextClass
  selEq : selEq rt' = selEq rt
  loaded : ∀ c, rt.Loaded c → rt'.Loaded c
  superclass : ∀ c, rt.Loaded c → rt'.superclass c = rt.superclass c
  isMetaclass : ∀ c, rt.Loaded c → (rt'.classes c).isMetaclass = (rt.classes c).isMetaclass
  isa : ∀ c, rt.Loaded c → (rt'.classes c).isa = (rt.classes c).isa
  registered : ∀ c, (rt.classes c).isRegistered = true → (rt'.classes c).isRegistered = true
  entries : ∀ c, rt.Loaded c → rt'.methodEntries c = rt.methodEntries c
  dtable : ∀ c, rt.Loaded c → (rt'.classes c).dtable = (rt.classes c).dtable
  fresh : ∀ c, ¬ rt.Loaded c → rt'.Loaded c → (rt'.classes c).dtable = some []
  name : ∀ c, rt.Loaded c → (rt'.classes c).name = (rt.classes c).name
  unloadedEntries : ∀ c, ¬ rt'.Loaded c → rt'.methodEntries c = rt.methodEntries c

theorem Extends.trans {rt rt' rt'' : Runtime} (first : Extends rt rt') (second : Extends rt' rt'') :
    Extends rt rt'' where
  nextClass := first.nextClass.trans second.nextClass
  selEq := second.selEq.trans first.selEq
  loaded c loaded := second.loaded c (first.loaded c loaded)
  superclass c loaded := (second.superclass c (first.loaded c loaded)).trans (first.superclass c loaded)
  isMetaclass c loaded := (second.isMetaclass c (first.loaded c loaded)).trans (first.isMetaclass c loaded)
  isa c loaded := (second.isa c (first.loaded c loaded)).trans (first.isa c loaded)
  registered c registered := second.registered c (first.registered c registered)
  entries c loaded := (second.entries c (first.loaded c loaded)).trans (first.entries c loaded)
  dtable c loaded := (second.dtable c (first.loaded c loaded)).trans (first.dtable c loaded)
  fresh c unloaded loaded := by
    by_cases middle : rt'.Loaded c
    · rw [second.dtable c middle]
      exact first.fresh c unloaded middle
    · exact second.fresh c middle loaded
  name c loaded := (second.name c (first.loaded c loaded)).trans (first.name c loaded)
  unloadedEntries c unloaded := (second.unloadedEntries c unloaded).trans
    (first.unloadedEntries c fun loaded => unloaded (second.loaded c loaded))

theorem Extends.refl (rt : Runtime) : Extends rt rt where
  nextClass := Nat.le_refl _
  selEq := rfl
  loaded _ loaded := loaded
  superclass _ _ := rfl
  isMetaclass _ _ := rfl
  isa _ _ := rfl
  registered _ registered := registered
  entries _ _ := rfl
  dtable _ _ := rfl
  fresh _ unloaded loaded := absurd loaded unloaded
  name _ _ := rfl
  unloadedEntries _ _ := rfl

section ExtendsDispatch

variable {image : List ClassPtr} {rt rt' : Runtime} (inv : GraphInv image rt) (ext : Extends rt rt')
  {cls : ClassPtr} (below : cls < rt.nextClass) (isReady : rt.Ready cls)

include inv ext below isReady

theorem Extends.ancestors : rt'.ancestors cls = rt.ancestors cls := by
  have complete : Walk rt'.superclass (some cls) (rt.ancestors cls) :=
    (inv.ancestors_walk below).congr fun c member => ext.superclass c (isReady c member)
  exact complete.successors_eq ((inv.ancestors_length below).trans ext.nextClass)

theorem Extends.ready : rt'.Ready cls := by
  intro c member
  rw [ext.ancestors inv below isReady] at member
  exact ext.loaded c (isReady c member)

/-- Dispatch from a ready class survives every construction step. -/
theorem Extends.lookup (sel : SEL) : classLookupMethod rt' cls sel = classLookupMethod rt cls sel := by
  rw [classLookupMethod, classLookupMethod, ext.ancestors inv below isReady]
  have own : ∀ c ∈ rt.ancestors cls, rt'.ownMethod c sel = rt.ownMethod c sel := by
    intro c member
    rw [Runtime.ownMethod, Runtime.ownMethod, ext.entries c (isReady c member), ext.selEq]
  exact findSome_congr fun c member => by rw [own c member]

end ExtendsDispatch

end O3jc
