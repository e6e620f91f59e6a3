import O3jc.Dispatch.Build

namespace O3jc

open Library

theorem mem_registryInsert {registry : List (String × ClassPtr)} {name : String} {cls : ClassPtr}
    {entry : String × ClassPtr} (member : entry ∈ registryInsert registry name cls) :
    entry = (name, cls) ∨ entry ∈ registry := by
  rw [registryInsert] at member
  rcases List.mem_cons.mp member with new | old
  · exact .inl new
  · exact .inr (List.mem_filter.mp old).1

/-- No key of the registry is lost. -/
theorem registryInsert_key {registry : List (String × ClassPtr)} (name : String) (cls : ClassPtr)
    {entry : String × ClassPtr} (member : entry ∈ registry) :
    ∃ other ∈ registryInsert registry name cls, other.1 = entry.1 := by
  rw [registryInsert]
  by_cases same : entry.1 = name
  · exact ⟨(name, cls), List.mem_cons_self, same.symm⟩
  · refine ⟨entry, List.mem_cons_of_mem _ (List.mem_filter.mpr ⟨member, ?_⟩), rfl⟩
    simpa using same

section Insertion

variable {image : List ClassPtr} {rt rt' : Runtime} (inv : GraphInv image rt) {cls : ClassPtr} {name : String}
  (registered : ∀ c, (rt'.classes c).isRegistered = true ↔ c = cls ∨ (rt.classes c).isRegistered = true)
  (names : ∀ c, (rt'.classes c).name = (rt.classes c).name)
  (registry : rt'.classRegistry = registryInsert rt.classRegistry name cls)
  (named : (rt.classes cls).name.toStr = some name)

include inv registered names registry named

/-- The new key stands for the class that gets registered. -/
theorem registrySound_insert : ∀ entry ∈ rt'.classRegistry, (rt'.classes entry.2).isRegistered = true ∧
    (rt'.classes entry.2).name.toStr = some entry.1 := by
  intro entry member
  rw [registered, names]
  rw [registry] at member
  rcases mem_registryInsert member with new | old
  · rw [new]
    exact ⟨.inl rfl, named⟩
  · exact ⟨.inr (inv.registrySound entry old).1, (inv.registrySound entry old).2⟩

theorem registryComplete_insert : ∀ c, (rt'.classes c).isRegistered = true →
    ∃ entry ∈ rt'.classRegistry, (rt'.classes c).name.toStr = some entry.1 := by
  intro c isRegistered
  rw [registry, names]
  rcases (registered c).mp isRegistered with rfl | old
  · exact ⟨(name, c), List.mem_cons_self, named⟩
  · obtain ⟨entry, member, key⟩ := inv.registryComplete c old
    obtain ⟨other, inside, same⟩ := registryInsert_key name cls member
    exact ⟨other, inside, same ▸ key⟩

end Insertion

/-- Registration writes the flag of one class and one key of the registry. -/
structure Registered (rt rt' : Runtime) (cls : ClassPtr) (name : String) : Prop where
  named : (rt.classes cls).name.toStr = some name
  self : rt'.classes cls = (rt.classes cls).setRegistered
  old : ∀ c, c ≠ cls → rt'.classes c = rt.classes c
  registry : rt'.classRegistry = registryInsert rt.classRegistry name cls
  nextClass : rt'.nextClass = rt.nextClass
  lists : rt'.methodLists = rt.methodLists
  nextList : rt'.nextMethodList = rt.nextMethodList
  selectors : rt'.selectorMemory = rt.selectorMemory

theorem registerClass_spec {rt rt' : Runtime} {cls : ClassPtr} (result : registerClass rt cls = some rt') :
    ∃ name, Registered rt rt' cls name := by
  simp only [registerClass, Option.bind_eq_bind, Option.bind_eq_some_iff, Option.some.injEq] at result
  obtain ⟨name, named, rfl⟩ := result
  refine ⟨name, ⟨named, ?_, fun c different => ?_, rfl, rfl, rfl, rfl, rfl⟩⟩
  · rw [Runtime.modifyClass_classes_self]
  · rw [Runtime.modifyClass_classes_of_ne _ _ _ different]

section Registration

variable {image : List ClassPtr} {rt rt' : Runtime} {cls : ClassPtr} {name : String}
  (step : Registered rt rt' cls name)

include step

theorem Registered.proj {B : Type} (project : ObjcClass → B)
    (kept : ∀ c : ObjcClass, project c.setRegistered = project c) (c : ClassPtr) :
    project (rt'.classes c) = project (rt.classes c) := by
  by_cases same : c = cls
  · rw [same, step.self, kept]
  · rw [step.old c same]

theorem Registered.superclass : rt'.superclass = rt.superclass :=
  funext (step.proj ObjcClass.superClass fun _ => rfl)

theorem Registered.sibling : rt'.sibling = rt.sibling :=
  funext (step.proj ObjcClass.siblingClass fun _ => rfl)

theorem Registered.isMetaclass (c : ClassPtr) :
    (rt'.classes c).isMetaclass = (rt.classes c).isMetaclass :=
  step.proj ObjcClass.isMetaclass (fun k => k.setRegistered_isMetaclass) c

theorem Registered.isa (c : ClassPtr) : (rt'.classes c).isa = (rt.classes c).isa :=
  step.proj ObjcClass.isa (fun _ => rfl) c

theorem Registered.loaded (c : ClassPtr) : rt'.Loaded c ↔ rt.Loaded c := by
  rw [Runtime.Loaded, Runtime.Loaded, step.proj ObjcClass.dtable fun _ => rfl]

theorem Registered.subclasses : rt'.subclasses = rt.subclasses := by
  funext c
  simp only [Runtime.subclasses, step.sibling, step.nextClass,
    step.proj ObjcClass.subclassList fun _ => rfl]

theorem Registered.isRegistered_iff (c : ClassPtr) :
    (rt'.classes c).isRegistered = true ↔ c = cls ∨ (rt.classes c).isRegistered = true := by
  by_cases same : c = cls
  · rw [same, step.self]
    simp
  · rw [step.old c same]
    simp [same]

theorem Registered.sameMethods : SameMethods rt rt' where
  heads := step.proj (fun k => k.methodList.head) fun _ => rfl
  lists := step.lists
  nextList := step.nextList

theorem Registered.selEq : selEq rt' = selEq rt := selEq_of_memory step.selectors

/-- Registering a loaded class keeps the class graph. -/
theorem Registered.graphInv (inv : GraphInv image rt) (kind : (rt.classes cls).isMetaclass = false)
    (isLoaded : rt.Loaded cls) : GraphInv image rt' where
  blank c above := by
    rw [step.nextClass] at above
    have different : c ≠ cls := fun same =>
      Nat.not_lt_of_le above (same ▸ inv.lt_of_loaded isLoaded)
    rw [step.old c different]
    exact inv.blank c above
  superBelow := by
    rw [step.superclass, step.nextClass]
    exact inv.superBelow
  ranked := by
    simp only [step.superclass, step.isMetaclass, step.isa]
    exact inv.ranked
  superKind := by
    simp only [step.superclass, step.isMetaclass]
    exact inv.superKind
  isaKind := by
    simp only [step.isMetaclass, step.isa, step.nextClass]
    exact inv.isaKind
  hasIsa := by
    simp only [step.isMetaclass, step.isa, step.nextClass]
    exact inv.hasIsa
  isaInj := by
    simp only [step.isMetaclass, step.isa]
    exact inv.isaInj
  pairLoaded := by
    simp only [step.isMetaclass, step.isa, step.loaded]
    exact inv.pairLoaded
  imageClass := by
    simp only [step.isMetaclass, step.superclass, step.nextClass]
    exact inv.imageClass
  unloaded := by
    simp only [step.isMetaclass, step.loaded, step.nextClass]
    exact inv.unloaded
  siblings p := by
    rw [step.sibling, step.subclasses, step.proj ObjcClass.subclassList fun _ => rfl]
    exact inv.siblings p
  subclassSuper := by
    simp only [step.superclass, step.subclasses, step.loaded]
    exact inv.subclassSuper
  listed := by
    simp only [step.superclass, step.subclasses, step.loaded, step.isMetaclass]
    exact inv.listed
  registeredClass c registered := by
    rw [step.isMetaclass, step.loaded]
    rcases (step.isRegistered_iff c).mp registered with same | old
    · exact same ▸ ⟨kind, isLoaded⟩
    · exact inv.registeredClass c old
  superRegistered c p kind link loaded := by
    rw [step.isMetaclass] at kind
    rw [step.superclass] at link
    exact (step.isRegistered_iff p).mpr (.inr (inv.superRegistered c p kind link ((step.loaded p).mp loaded)))
  imageRegistered c member loaded :=
    (step.isRegistered_iff c).mpr (.inr (inv.imageRegistered c member ((step.loaded c).mp loaded)))
  metaSuper := by
    simp only [step.superclass, step.isa, step.loaded, step.isMetaclass]
    exact inv.metaSuper
  metaRoot := by
    simp only [step.superclass, step.isa, step.loaded, step.isMetaclass]
    exact inv.metaRoot
  metaUnloaded := by
    simp only [step.superclass, step.isa, step.loaded, step.isMetaclass]
    exact inv.metaUnloaded
  registrySound := registrySound_insert inv step.isRegistered_iff (step.proj ObjcClass.name fun _ => rfl) step.registry
    step.named
  registryComplete := registryComplete_insert inv step.isRegistered_iff (step.proj ObjcClass.name fun _ => rfl)
    step.registry step.named

theorem Registered.extends : Extends rt rt' where
  nextClass := Nat.le_of_eq step.nextClass.symm
  selEq := step.selEq
  loaded c loaded := (step.loaded c).mpr loaded
  superclass c _ := congrFun step.superclass c
  isMetaclass c _ := step.isMetaclass c
  isa c _ := step.isa c
  registered c registered := (step.isRegistered_iff c).mpr (.inr registered)
  entries c _ := congrFun step.sameMethods.methodEntries c
  dtable c _ := step.proj ObjcClass.dtable (fun _ => rfl) c
  fresh c unloaded loaded := absurd ((step.loaded c).mp loaded) unloaded
  name c _ := step.proj ObjcClass.name (fun _ => rfl) c
  unloadedEntries c _ := congrFun step.sameMethods.methodEntries c

end Registration

end O3jc
