import O3jc.Loading.Resolution

namespace O3jc

open Library

/-- The load functions of a program's modules call `__objc_load` one after the other. -/
def loadModules (rt : Runtime) (modules : List ObjcModuleInfo) : Option Runtime := modules.foldlM objcLoad rt

/-- The modules of a program as the compiler emits them. A superclass may stand in another module than its subclass. -/
structure CompiledProgram (image : List ClassPtr) (rt0 : Runtime) (modules : List ObjcModuleInfo) : Prop where
  static : StaticImage image rt0
  listed : Covers image (modules.map ObjcModuleInfo.classes)
  tables : ∀ name, rt0.nameTable name = none ∧ rt0.selTable name = none
  selectors : SectionValid rt0 (modules.flatMap ObjcModuleInfo.selectorsMut) rt0.nextSelector
  apart : (modules.flatMap ObjcModuleInfo.selectorsMut).Nodup
  methods : ∀ c, ∀ entry ∈ compiledEntries (rt0.classes c).methodList,
    entry.sel ∈ modules.flatMap ObjcModuleInfo.selectorsMut

theorem CompiledProgram.linked {image : List ClassPtr} {rt0 : Runtime} {modules : List ObjcModuleInfo}
    (program : CompiledProgram image rt0 modules) :
    Linked image rt0 (modules.flatMap ObjcModuleInfo.selectorsMut) :=
  ⟨program.static, program.selectors.below, program.methods⟩

/-- A class that is not loaded has no runtime nodes. -/
def Runtime.Unread (rt : Runtime) : Prop := ∀ c, ¬ rt.Loaded c → (rt.classes c).methodList.head = none

/-- A class that is loaded has no compiled list where its runtime nodes should stand. -/
def Runtime.Converted (rt : Runtime) : Prop := ∀ c, rt.Loaded c → (rt.classes c).methodList.raw = none

theorem convertMethodList_raw (rt : Runtime) (compiled : Option CompiledMethodList) :
    (convertMethodList rt compiled).2.raw = none := by
  cases compiled with
  | none => rfl
  | some list =>
      unfold convertMethodList
      by_cases empty : list.count = 0
      · simp only [if_pos empty]
        rfl
      · simp only [if_neg empty]
        rfl

theorem patchClass_raw (rt : Runtime) (c : ClassPtr) : ((patchClass rt c).classes c).methodList.raw = none := by
  simp only [patchClass, Runtime.modifyClass_classes_self]
  exact convertMethodList_raw _ _

section Turns

variable {image : List ClassPtr} {rt rt' : Runtime}

/-- A turn leaves the lists of the other classes. -/
theorem Runtime.Unread.turn (unread : rt.Unread) (inv : WorldInv image rt) {cls : ClassPtr} (member : cls ∈ image)
    (result : loadClass rt cls = some rt') : rt'.Unread := by
  obtain ⟨metaclass, root, name, kind, below, isa, step⟩ := loadClass_installs inv member result
  intro c unloaded
  rw [step.loaded_iff] at unloaded
  have other : c ≠ cls ∧ c ≠ metaclass :=
    ⟨fun same => unloaded (by simp [same]), fun same => unloaded (by simp [same])⟩
  rw [step.methods c other.1 other.2]
  exact unread c fun loaded => unloaded (by simp [loaded])

/-- A turn converts the lists of the class and its metaclass. -/
theorem Runtime.Converted.turn (converted : rt.Converted) (inv : WorldInv image rt) {cls : ClassPtr} (member : cls ∈ image)
    (result : loadClass rt cls = some rt') : rt'.Converted := by
  obtain ⟨metaclass, root, name, kind, below, isa, step⟩ := loadClass_installs inv member result
  intro c loaded
  obtain ⟨rt1, _, _, _, wired, eq⟩ := loadClass_eq_register inv.chain inv.graph kind below isa
  rw [eq] at result
  obtain ⟨_, registered⟩ := registerClass_spec result
  rw [registered.proj ObjcClass.methodList fun _ => rfl, wired.plain ObjcClass.methodList fun _ _ _ _ _ => rfl]
  by_cases isMeta : c = metaclass
  · subst isMeta
    exact patchClass_raw _ c
  · rw [(patchPair_second inv.chain cls metaclass).old c isMeta]
    by_cases isCls : c = cls
    · subst isCls
      exact patchClass_raw rt c
    · rw [(patchClass_spec inv.chain cls).old c isCls]
      rw [step.loaded_iff] at loaded
      exact converted c ((loaded.resolve_left isCls).resolve_left isMeta)

end Turns

/-- The class memory of one state with the selectors of another. -/
def Runtime.withSelectors (rt other : Runtime) : Runtime :=
  { rt with
    cStrings := other.cStrings
    nextCString := other.nextCString
    selectors := other.selectors
    nextSelector := other.nextSelector
    nameTable := other.nameTable
    selTable := other.selTable }

section Memory

variable {image : List ClassPtr} {rt rt' : Runtime} (same : SameClassMemory rt rt')

include same

theorem SameClassMemory.loaded_iff (c : ClassPtr) : rt'.Loaded c ↔ rt.Loaded c := by
  rw [Runtime.Loaded, same.classes, Runtime.Loaded]

theorem Runtime.Unread.of_sameClassMemory (unread : rt.Unread) : rt'.Unread := fun c unloaded => by
  rw [same.classes]
  exact unread c fun loaded => unloaded ((same.loaded_iff c).mpr loaded)

theorem Runtime.Converted.of_sameClassMemory (converted : rt.Converted) : rt'.Converted := fun c loaded => by
  rw [same.classes]
  exact converted c ((same.loaded_iff c).mp loaded)

theorem Loadable.of_sameClassMemory {classPtrs : List (Option ClassPtr)} (loadable : Loadable image rt classPtrs) :
    Loadable image rt' classPtrs :=
  ⟨loadable.1, fun c inside => (loadable.2 c inside).imp_right fun old loaded => old ((same.loaded_iff c).mp loaded)⟩

/-- Class memory without runtime nodes in the classes to come carries the invariant. -/
theorem WorldInv.of_sameClassMemory (inv : WorldInv image rt) (unread : rt.Unread) : WorldInv image rt' where
  graph := inv.graph.of_sameClassMemory same
  chain := inv.chain.of_same ⟨fun c => by rw [same.classes], same.lists, same.nextList⟩
  unbound c unloaded sel := by
    have empty : rt'.nodesOf c = [] := by
      rw [Runtime.nodesOf, unread.of_sameClassMemory same c unloaded]
      exact Walk.nil.successors_eq (Nat.zero_le _)
    rw [Runtime.ownImp, Runtime.ownMethod, Runtime.methodEntries_eq, empty]
    rfl

/-- A load in progress does not depend on the selectors. -/
theorem Progress.of_sameClassMemory {base : Runtime} (progress : Progress base rt) :
    Progress (base.withSelectors rt') rt' := by
  obtain ⟨classes, nextClass, lists, nextList, registry⟩ := same
  cases rt
  cases rt'
  dsimp only at classes nextClass lists nextList registry
  subst classes nextClass lists nextList registry
  exact { progress with memory := rfl }

end Memory

theorem Runtime.withSelectors_congr (rt0 : Runtime) {rt rt' : Runtime} (same : rt'.selectorMemory = rt.selectorMemory) :
    rt0.withSelectors rt' = rt0.withSelectors rt := by
  cases rt
  cases rt'
  obtain ⟨rfl, rfl, rfl, rfl, rfl, rfl⟩ := SelectorMemory.mk.inj same
  rfl

theorem Grows.of_memory {rt0 rt rt' : Runtime} (grows : Grows rt0 rt) (same : rt'.selectorMemory = rt.selectorMemory) :
    Grows rt0 rt' := by
  cases rt
  cases rt'
  obtain ⟨rfl, rfl, rfl, rfl, rfl, rfl⟩ := SelectorMemory.mk.inj same
  exact ⟨grows.strings, grows.nextString, grows.table, grows.nextSelector⟩

theorem loadSelector_sameClassMemory {rt rt' : Runtime} {s : SEL} (result : loadSelector rt s = some rt') :
    SameClassMemory rt rt' := by
  unfold loadSelector at result
  split at result
  · obtain rfl := Option.some.inj result
    exact .refl rt
  · simp only [Option.bind_eq_bind, Option.bind_eq_some_iff] at result
    obtain ⟨text, _, ⟨middle, ptr⟩, interned, written⟩ := result
    obtain rfl := Option.some.inj written
    exact (internSelectorName_sameClassMemory interned).trans ⟨rfl, rfl, rfl, rfl, rfl⟩

/-- How far the loads of the modules have come: the entries that are fixed up, and the classes to come. -/
structure Linking (image : List ClassPtr) (rt0 : Runtime) (done : List SEL) (rest : List (Option ClassPtr))
    (rt : Runtime) : Prop where
  sel : SelInv rt0.nextSelector rt
  grows : Grows rt0 rt
  fixed : FixedUp rt0 rt done
  others : ∀ s, s ∉ done → rt.selectors s = rt0.selectors s
  progress : Progress (rt0.withSelectors rt) rt
  world : WorldInv image rt
  unread : rt.Unread
  converted : rt.Converted
  loadable : Loadable image rt rest
  listed : ∀ c ∈ image, rt.Loaded c ∨ c ∈ rest.reduceOption

section Modules

variable {image : List ClassPtr} {rt0 rt rt' : Runtime} {done : List SEL} {rest later : List (Option ClassPtr)}

/-- The names of a section are those of the source until the section is fixed up. -/
theorem Linking.selectors (linking : Linking image rt0 done rest rt) {sels : List SEL} (distinct : sels.Nodup)
    (apart : ∀ s ∈ sels, s ∉ done) (valid : SectionValid rt0 sels rt0.nextSelector) :
    ∃ rt', loadSelectors rt sels = some rt' ∧ Linking image rt0 (done ++ sels) rest rt' := by
  have source : ∀ s ∈ sels, rt.selectors s = rt0.selectors s := fun s member => linking.others s (apart s member)
  have sameNames : ∀ s ∈ sels, nameOf rt s = nameOf rt0 s := by
    intro s member
    rw [nameOf, nameOf, source s member]
    refine Option.bind_congr fun ptr named => ?_
    rw [linking.grows.strings ptr (valid.named s member ptr named).1]
  have start : FixupInv rt0.nextSelector rt rt [] :=
    ⟨linking.sel, .refl rt, .refl rt, fun _ member => absurd member List.not_mem_nil, fun _ _ => rfl⟩
  obtain ⟨rt', result, turn⟩ := start.loop distinct (fun _ _ => List.not_mem_nil) valid.below
    fun s member ptr named => by
      rw [source s member] at named
      obtain ⟨below, decodes⟩ := valid.named s member ptr named
      rw [linking.grows.strings ptr below]
      exact ⟨Nat.lt_of_lt_of_le below linking.grows.nextString, decodes⟩
  rw [List.append_nil] at turn
  have kept : ∀ s, s ∉ sels → rt'.selectors s = rt.selectors s := fun s outside =>
    turn.others s fun inside => outside (List.mem_reverse.mp inside)
  have same := turn.memory
  refine ⟨rt', result, turn.sel, linking.grows.trans turn.grows, fun s member => ?_, fun s outside => ?_,
    linking.progress.of_sameClassMemory same, linking.world.of_sameClassMemory same linking.unread,
    linking.unread.of_sameClassMemory same, linking.converted.of_sameClassMemory same,
    linking.loadable.of_sameClassMemory same, fun c member => (linking.listed c member).imp_left (same.loaded_iff c).mpr⟩
  · rcases List.mem_append.mp member with old | new
    · exact linking.fixed.grows turn.grows (fun t before => kept t fun inside => apart t inside before) s old
    · rw [← sameNames s new]
      exact turn.fixed s (List.mem_reverse.mpr new)
  · rw [List.mem_append, not_or] at outside
    rw [kept s outside.2, linking.others s outside.1]

/-- One turn of the class loop. -/
theorem Linking.turn {cls : ClassPtr} (linking : Linking image rt0 done (some cls :: rest) rt)
    (result : loadClass rt cls = some rt') : Linking image rt0 done rest rt' := by
  obtain ⟨member, unloaded, loadable⟩ := linking.loadable.tail linking.world result
  have progress := linking.progress.turn linking.world member unloaded result
  have memory : rt'.selectorMemory = rt.selectorMemory := progress.memory
  obtain ⟨world, _, loads⟩ := loadClass_world linking.world member unloaded result
  refine ⟨linking.sel.of_memory memory, linking.grows.of_memory memory, linking.fixed.of_memory memory,
    fun s outside => ?_, ?_, world, linking.unread.turn linking.world member result,
    linking.converted.turn linking.world member result, loadable, fun c inside => ?_⟩
  · rw [show rt'.selectors = rt.selectors from congrArg SelectorMemory.selectors memory]
    exact linking.others s outside
  · rw [Runtime.withSelectors_congr rt0 memory]
    exact progress
  · have kind := (linking.world.graph.imageClass c inside).1
    rw [loads.loaded c kind, List.mem_singleton]
    rcases linking.listed c inside with loaded | listed
    · exact Or.inl (Or.inr loaded)
    · rw [List.reduceOption_cons_of_some, List.mem_cons] at listed
      exact listed.imp_left Or.inl

theorem Linking.classes {now : List (Option ClassPtr)} (linking : Linking image rt0 done (now ++ later) rt)
    (result : loadClasses rt now = some rt') : Linking image rt0 done later rt' := by
  induction now generalizing rt with
  | nil =>
      obtain rfl : rt = rt' := Option.some.inj result
      exact linking
  | cons entry rest inductionHypothesis =>
      rw [loadClasses, List.foldlM_cons] at result
      obtain ⟨middle, turn, rest⟩ := Option.bind_eq_some_iff.mp result
      cases entry with
      | none =>
          obtain rfl : rt = middle := Option.some.inj turn
          exact inductionHypothesis { linking with } rest
      | some cls => exact inductionHypothesis (linking.turn turn) rest

/-- The classes of the next module load when the class names are UTF-8. -/
theorem Linking.classes_total {now : List (Option ClassPtr)} (linking : Linking image rt0 done (now ++ later) rt)
    (named : ∀ c ∈ image, (rt0.classes c).name.toStr.isSome = true) : (loadClasses rt now).isSome = true := by
  have members : ∀ c ∈ now.reduceOption, c ∈ (now ++ later).reduceOption := fun c inside => by
    rw [List.reduceOption_append]
    exact List.mem_append_left _ inside
  have loadable : Loadable image rt now := by
    refine ⟨?_, fun c inside => linking.loadable.2 c (members c inside)⟩
    have distinct := linking.loadable.1
    rw [List.reduceOption_append] at distinct
    exact distinct.of_append_left
  refine loadClasses_total linking.world loadable fun c inside => ?_
  rw [linking.progress.name c]
  exact named c (linking.loadable.2 c (members c inside)).1

end Modules

section Program

variable {image : List ClassPtr} {rt0 rt : Runtime} {modules : List ObjcModuleInfo}
  (program : CompiledProgram image rt0 modules)

include program

/-- The loads of the rest of the modules link the rest. -/
theorem CompiledProgram.links (before rest : List ObjcModuleInfo) (split : modules = before ++ rest)
    (linking : Linking image rt0 (before.flatMap ObjcModuleInfo.selectorsMut) (rest.flatMap ObjcModuleInfo.classes) rt) :
    ((∀ c ∈ image, (rt0.classes c).name.toStr.isSome = true) → (loadModules rt rest).isSome = true) ∧
      ∀ rt', loadModules rt rest = some rt' →
        Linking image rt0 (modules.flatMap ObjcModuleInfo.selectorsMut) [] rt' := by
  induction rest generalizing before rt with
  | nil =>
      refine ⟨fun _ => rfl, fun rt' result => ?_⟩
      obtain rfl : rt = rt' := Option.some.inj result
      rw [split, List.append_nil]
      exact linking
  | cons m rest inductionHypothesis =>
      have valid := program.selectors
      have distinct := program.apart
      rw [split, List.flatMap_append, List.flatMap_cons] at valid distinct
      have own : ∀ s ∈ m.selectorsMut, s ∈ before.flatMap ObjcModuleInfo.selectorsMut ++
          (m.selectorsMut ++ rest.flatMap ObjcModuleInfo.selectorsMut) := fun s member =>
        List.mem_append_right _ (List.mem_append_left _ member)
      obtain ⟨middle, fixed, linked⟩ := linking.selectors (distinct.of_append_right.of_append_left)
        (fun s member inside => List.disjoint_of_nodup_append distinct inside (List.mem_append_left _ member))
        ⟨fun s member => valid.below s (own s member), fun s member => valid.named s (own s member)⟩
      have eq : objcLoad rt m = loadClasses middle m.classes := by rw [objcLoad, fixed]; rfl
      have split' : modules = before ++ [m] ++ rest := by rw [split, List.append_assoc, List.singleton_append]
      have next : ∀ after, loadClasses middle m.classes = some after →
          Linking image rt0 ((before ++ [m]).flatMap ObjcModuleInfo.selectorsMut) (rest.flatMap ObjcModuleInfo.classes)
            after := fun after result => by
        rw [List.flatMap_append, List.flatMap_singleton]
        exact linked.classes result
      rw [loadModules, List.foldlM_cons, eq]
      constructor
      · intro named
        obtain ⟨after, result⟩ := Option.isSome_iff_exists.mp (linked.classes_total named)
        rw [result]
        exact (inductionHypothesis (before ++ [m]) split' (next after result)).1 named
      · intro rt' result
        obtain ⟨after, turn, later⟩ := Option.bind_eq_some_iff.mp result
        exact (inductionHypothesis (before ++ [m]) split' (next after turn)).2 rt' later

/-- The classes and the selectors of the image before the first module. -/
theorem CompiledProgram.linking : Linking image rt0 [] (modules.flatMap ObjcModuleInfo.classes) rt0 where
  sel := by
    refine ⟨fun name ptr found => ?_, fun name sel found => ?_, Nat.le_refl _⟩
    · rw [(program.tables name).1] at found
      exact absurd found (by simp)
    · rw [(program.tables name).2] at found
      exact absurd found (by simp)
  grows := .refl rt0
  fixed _ member := absurd member List.not_mem_nil
  others _ _ := rfl
  progress := program.static.progress
  world := program.static.worldInv
  unread c _ := (program.static.untouched c).2.2.2.2
  converted c loaded := absurd loaded (program.static.not_loaded c)
  loadable := by
    have loadable := program.static.loadable program.listed
    rwa [← List.flatMap_def] at loadable
  listed c member := by
    have inside := (program.listed.2 c).mpr member
    rw [← List.flatMap_def] at inside
    exact Or.inr inside

/-- The loads of all modules load every class and put dispatch in step with the source. -/
theorem CompiledProgram.resolving (result : loadModules rt0 modules = some rt) :
    Resolving image rt0 rt (modules.flatMap ObjcModuleInfo.selectorsMut) ∧ WorldInv image rt ∧ rt.Converted ∧
      (∀ c, rt.Loaded c ↔ c < rt0.nextClass) ∧ ∀ c, (rt.chainOf c).length ≤ 1 := by
  have linking := (program.links [] modules rfl program.linking).2 rt result
  have memory : SameClassMemory rt0 (rt0.withSelectors rt) := ⟨rfl, rfl, rfl, rfl, rfl⟩
  have static := program.static.of_memory memory
  have image' : ∀ c ∈ image, rt.Loaded c := fun c member =>
    (linking.listed c member).resolve_right List.not_mem_nil
  have loaded : ∀ c, rt.Loaded c ↔ c < rt0.nextClass := by
    refine fun c => ⟨fun isLoaded => ?_, fun below => ?_⟩
    · rw [← show rt.nextClass = rt0.nextClass from linking.progress.nextClass]
      exact linking.world.graph.lt_of_loaded isLoaded
    · rcases program.static.covered c below with member | ⟨d, member, isa⟩
      · exact image' c member
      · have kind := (program.static.cls d member).1
        exact (linking.world.graph.pairLoaded d c ((linking.progress.kind d).trans kind)
          ((linking.progress.isaPlain d kind).trans isa)).mpr (image' d member)
  refine ⟨resolving_of_progress static memory linking.world linking.progress loaded linking.sel linking.fixed,
    linking.world, linking.converted, loaded, fun c => ?_⟩
  rw [linking.progress.chains]
  split
  · unfold compiledChain
    split <;> simp
  · exact Nat.zero_le 1

end Program

end O3jc
