import Mathlib.Data.List.Find
import O3jc.Loading.Selectors
import O3jc.Dispatch.Swizzle

namespace O3jc

open Library

/-- The IMP of the first entry of a compiled method list with a source name. -/
def methodNamed (rt0 : Runtime) (cls : ClassPtr) (name : String) : Option IMP :=
  ((compiledEntries (rt0.classes cls).methodList).find? fun entry => nameOf rt0 entry.sel == some name).map
    MethodEntry.imp

/-- The IMP of the first class method of a compiled class with a source name. -/
def classMethodNamed (rt0 : Runtime) (cls : ClassPtr) (name : String) : Option IMP :=
  (rt0.classes cls).isa.bind fun metaclass => methodNamed rt0 metaclass name

/-- An instance message resolves to the nearest class of the superclass chain. -/
def resolveInstance (rt0 : Runtime) (cls : ClassPtr) (name : String) : Option IMP :=
  (rt0.ancestors cls).findSome? fun c => methodNamed rt0 c name

/-- A class message resolves to the nearest class method, or else to an instance method of the root class. -/
def resolveClass (rt0 : Runtime) (cls : ClassPtr) (name : String) : Option IMP :=
  ((rt0.ancestors cls).findSome? fun c => classMethodNamed rt0 c name).or
    ((rt0.ancestors cls).getLast?.bind fun root => methodNamed rt0 root name)

/-- A module as the compiler emits it, in a process whose selector tables are empty. -/
structure CompiledModule (image : List ClassPtr) (rt0 : Runtime) (info : ObjcModuleInfo) : Prop where
  static : StaticImage image rt0
  listed : Covers image [info.classes]
  tables : ∀ name, rt0.nameTable name = none ∧ rt0.selTable name = none
  selectors : SectionValid rt0 info.selectorsMut rt0.nextSelector
  methods : ∀ c, ∀ entry ∈ compiledEntries (rt0.classes c).methodList, entry.sel ∈ info.selectorsMut

/-- Compiled classes with the selector entries that their methods use. -/
structure Linked (image : List ClassPtr) (rt0 : Runtime) (sels : List SEL) : Prop where
  static : StaticImage image rt0
  below : ∀ sel ∈ sels, sel < rt0.nextSelector
  methods : ∀ c, ∀ entry ∈ compiledEntries (rt0.classes c).methodList, entry.sel ∈ sels

theorem CompiledModule.linked {image : List ClassPtr} {rt0 : Runtime} {info : ObjcModuleInfo}
    (compiled : CompiledModule image rt0 info) : Linked image rt0 info.selectorsMut :=
  ⟨compiled.static, compiled.selectors.below, compiled.methods⟩

/-- The calls of a program that registers names and sends messages. -/
inductive DispatchOp where
  | registerName (name : String)
  | msgLookup (receiver : Option ObjcPtr) (sel : SEL)

def DispatchOp.exec (rt : Runtime) : DispatchOp → Option Runtime
  | .registerName name => (selRegisterNameStr rt name).map Prod.fst
  | .msgLookup receiver sel => some (objcMsgLookup rt receiver sel).1

/-- Before the load a program only registers names. -/
def DispatchOp.Registers (_ : Runtime) (op : DispatchOp) : Prop := ∃ name, op = .registerName name

/-- A message names a selector that exists. -/
def DispatchOp.Known (rt : Runtime) : DispatchOp → Prop
  | .registerName _ => True
  | .msgLookup _ sel => sel < rt.nextSelector

/-- The class memory up to the caches. -/
structure SameClasses (rt rt' : Runtime) : Prop where
  links : ∀ cls, (rt'.classes cls).links = (rt.classes cls).links
  loaded : ∀ cls, (rt'.classes cls).dtable.isSome = (rt.classes cls).dtable.isSome
  nextClass : rt'.nextClass = rt.nextClass
  methods : SameMethods rt rt'

section Agreement

variable {rt rt' : Runtime} (same : SameClasses rt rt')

include same

theorem SameClasses.superclass : rt'.superclass = rt.superclass :=
  funext fun cls => congrArg ClassLinks.superClass (same.links cls)

theorem SameClasses.isa (cls : ClassPtr) : (rt'.classes cls).isa = (rt.classes cls).isa :=
  congrArg ClassLinks.isa (same.links cls)

theorem SameClasses.ancestors : rt'.ancestors = rt.ancestors := by
  funext cls
  simp only [Runtime.ancestors, same.superclass, same.nextClass]

end Agreement

theorem SameClassMemory.sameClasses {rt rt' : Runtime} (same : SameClassMemory rt rt') : SameClasses rt rt' :=
  ⟨fun cls => by rw [same.classes], fun cls => by rw [same.classes], same.nextClass,
    fun cls => by rw [same.classes], same.lists, same.nextList⟩

theorem SameGraph.sameClasses {rt rt' : Runtime} (graph : SameGraph rt rt') (methods : SameMethods rt rt') :
    SameClasses rt rt' := ⟨graph.links, graph.loaded, graph.nextClass, methods⟩

theorem SameClasses.trans {rt rt' rt'' : Runtime} (first : SameClasses rt rt') (second : SameClasses rt' rt'') :
    SameClasses rt rt'' :=
  ⟨fun cls => (second.links cls).trans (first.links cls), fun cls => (second.loaded cls).trans (first.loaded cls),
    second.nextClass.trans first.nextClass, first.methods.trans second.methods⟩

/-- The static image does not mention selectors. -/
theorem StaticImage.of_memory {image : List ClassPtr} {rt rt' : Runtime} (start : StaticImage image rt)
    (same : SameClassMemory rt rt') : StaticImage image rt' := by
  have super : rt'.superclass = rt.superclass := same.sameClasses.superclass
  exact
    { blank := by rw [same.classes, same.nextClass]; exact start.blank
      registry := same.registry.trans start.registry
      untouched := by rw [same.classes]; exact start.untouched
      covered := by rw [same.classes, same.nextClass]; exact start.covered
      cls := by rw [same.classes, same.nextClass]; exact start.cls
      metaclass := by rw [same.classes, same.nextClass, super]; exact start.metaclass
      distinct := by rw [same.classes]; exact start.distinct
      closed := by rw [super]; exact start.closed
      acyclic := by rw [super]; exact start.acyclic }

/-- Registering names before the load leaves the compiled module as it is. -/
structure Prepared (rt0 rt1 : Runtime) : Prop where
  sel : SelInv rt0.nextSelector rt1
  grows : Grows rt0 rt1
  memory : SameClassMemory rt0 rt1
  compiled : ∀ sel, sel < rt0.nextSelector → rt1.selectors sel = rt0.selectors sel

theorem prepared_of_registers {image : List ClassPtr} {rt0 rt1 : Runtime} {info : ObjcModuleInfo}
    (compiled : CompiledModule image rt0 info)
    (run : Reachable DispatchOp.exec DispatchOp.Registers rt0 rt1) : Prepared rt0 rt1 := by
  refine run.invariant (Prepared rt0) ⟨⟨fun name ptr found => ?_, fun name sel found => ?_, Nat.le_refl _⟩, .refl rt0,
    .refl rt0, fun _ _ => rfl⟩ ?_
  · rw [(compiled.tables name).1] at found
    exact absurd found (by simp)
  · rw [(compiled.tables name).2] at found
    exact absurd found (by simp)
  · rintro state _ next inv ⟨name, rfl⟩ result
    obtain ⟨⟨_, sel⟩, registered, rfl⟩ := Option.map_eq_some_iff.mp result
    obtain ⟨inv', grows, memory, _, kept⟩ := selRegisterNameStr_spec inv.sel registered
    refine ⟨inv', inv.grows.trans grows, inv.memory.trans memory, fun other below => ?_⟩
    rw [kept other (Nat.lt_of_lt_of_le below inv.sel.base), inv.compiled other below]

theorem SelInv.of_memory {base : Nat} {rt rt' : Runtime} (inv : SelInv base rt)
    (same : rt'.selectorMemory = rt.selectorMemory) : SelInv base rt' := by
  have strings : rt'.cStrings = rt.cStrings := congrArg SelectorMemory.cStrings same
  have nextString : rt'.nextCString = rt.nextCString := congrArg SelectorMemory.nextCString same
  have selectors : rt'.selectors = rt.selectors := congrArg SelectorMemory.selectors same
  have next : rt'.nextSelector = rt.nextSelector := congrArg SelectorMemory.nextSelector same
  have names : rt'.nameTable = rt.nameTable := congrArg SelectorMemory.nameTable same
  have sels : rt'.selTable = rt.selTable := congrArg SelectorMemory.selTable same
  refine ⟨?_, ?_, ?_⟩
  · rw [names, nextString, strings]
    exact inv.names
  · rw [sels, next, names, selectors]
    exact inv.sels
  · rw [next]
    exact inv.base

/-- Entries and caches mention selectors that exist, and the caches agree with the walk. -/
structure Messaging (base : Nat) (rt : Runtime) : Prop where
  sel : SelInv base rt
  entries : ∀ c, ∀ entry ∈ rt.methodEntries c, entry.sel < rt.nextSelector
  caches : ∀ c, ∀ entry ∈ rt.cacheEntries c, entry.sel < rt.nextSelector ∧
    classLookupMethod rt c entry.sel = some entry.imp

/-- Names and messages leave the classes alone and only extend the selector tables. -/
structure KeepsDispatch (rt rt' : Runtime) : Prop where
  classes : SameClasses rt rt'
  grows : Grows rt rt'
  selectors : ∀ sel, sel < rt.nextSelector → rt'.selectors sel = rt.selectors sel
  table : ∀ name sel, rt.selTable name = some sel → rt'.selTable name = some sel

theorem KeepsDispatch.refl (rt : Runtime) : KeepsDispatch rt rt where
  classes := ⟨fun _ => rfl, fun _ => rfl, rfl, .refl rt⟩
  grows := .refl rt
  selectors _ _ := rfl
  table _ _ found := found

theorem KeepsDispatch.trans {rt rt' rt'' : Runtime} (first : KeepsDispatch rt rt')
    (second : KeepsDispatch rt' rt'') : KeepsDispatch rt rt'' where
  classes := first.classes.trans second.classes
  grows := first.grows.trans second.grows
  selectors sel below := (second.selectors sel (Nat.lt_of_lt_of_le below first.grows.nextSelector)).trans
    (first.selectors sel below)
  table name sel found := second.table name sel (first.table name sel found)

/-- An insertion adds at most its own entry. -/
theorem mem_insert_cases {rt : Runtime} {inner : CacheInner} {sel : SEL} {imp : IMP} {entry : CacheEntry}
    (member : entry ∈ CacheInner.insert rt inner sel imp) : entry ∈ inner ∨ entry = ⟨sel, imp⟩ := by
  unfold CacheInner.insert at member
  split at member
  · exact .inl member
  · split at member
    · exact .inr (List.mem_singleton.mp member)
    · exact (List.mem_append.mp member).imp_right List.mem_singleton.mp

section Messages

variable {base : Nat} {rt rt' : Runtime} (inv : Messaging base rt)

include inv

/-- A step that keeps the classes and the existing selectors keeps dispatch. -/
theorem Messaging.lookup_kept (keeps : KeepsDispatch rt rt') (c : ClassPtr) {sel : SEL}
    (below : sel < rt.nextSelector) : classLookupMethod rt' c sel = classLookupMethod rt c sel := by
  have own : ∀ d, rt'.ownImp d sel = rt.ownImp d sel := by
    intro d
    rw [Runtime.ownImp, Runtime.ownImp, Runtime.ownMethod, Runtime.ownMethod, keeps.classes.methods.methodEntries]
    refine congrArg (Option.map MethodEntry.imp) (List.find?_congr fun entry member => ?_)
    simp only [selEq, selNamePtr, keeps.selectors sel below, keeps.selectors entry.sel (inv.entries d entry member)]
  rw [classLookupMethod_eq_ownImp, classLookupMethod_eq_ownImp, keeps.classes.ancestors]
  exact congrArg (List.findSome? · (rt.ancestors c)) (funext own)

theorem Messaging.of_keeps (sel : SelInv base rt') (keeps : KeepsDispatch rt rt')
    (caches : ∀ c, ∀ entry ∈ rt'.cacheEntries c, entry ∈ rt.cacheEntries c ∨
      (entry.sel < rt.nextSelector ∧ classLookupMethod rt c entry.sel = some entry.imp)) : Messaging base rt' where
  sel := sel
  entries c entry member := by
    rw [keeps.classes.methods.methodEntries] at member
    exact Nat.lt_of_lt_of_le (inv.entries c entry member) keeps.grows.nextSelector
  caches c entry member := by
    have old : entry.sel < rt.nextSelector ∧ classLookupMethod rt c entry.sel = some entry.imp := by
      rcases caches c entry member with before | new
      · exact inv.caches c entry before
      · exact new
    exact ⟨Nat.lt_of_lt_of_le old.1 keeps.grows.nextSelector, (inv.lookup_kept keeps c old.1).trans old.2⟩

theorem Messaging.of_register {name : String} {sel : SEL} (result : selRegisterNameStr rt name = some (rt', sel)) :
    Messaging base rt' ∧ KeepsDispatch rt rt' ∧ rt'.selTable name = some sel := by
  obtain ⟨inv', grows, memory, registered, kept⟩ := selRegisterNameStr_spec inv.sel result
  have keeps : KeepsDispatch rt rt' := ⟨memory.sameClasses, grows, kept, fun other old found =>
    selRegisterNameStr_selTable inv.sel result found⟩
  refine ⟨inv.of_keeps inv' keeps fun c entry member => .inl ?_, keeps, registered⟩
  rwa [Runtime.cacheEntries, memory.classes] at member

theorem Messaging.of_msgLookup (receiver : Option ObjcPtr) {sel : SEL} (below : sel < rt.nextSelector) :
    Messaging base (objcMsgLookup rt receiver sel).1 ∧ KeepsDispatch rt (objcMsgLookup rt receiver sel).1 := by
  rcases objcMsgLookup_state rt receiver sel with same | ⟨cls, imp, _, _, found, filled⟩
  · rw [same]
    exact ⟨inv, .refl rt⟩
  · rw [filled]
    have graph := cacheInsert_sameGraph rt cls sel imp
    have keeps : KeepsDispatch rt (rt.cacheInsert cls sel imp) :=
      ⟨graph.sameClasses (cacheInsert_sameMethods rt cls sel imp),
        ⟨fun _ _ => rfl, Nat.le_refl _, fun _ _ bound => bound, Nat.le_refl _⟩, fun _ _ => rfl, fun _ _ found => found⟩
    refine ⟨inv.of_keeps (inv.sel.of_memory graph.selectors) keeps fun c entry member => ?_, keeps⟩
    by_cases same : c = cls
    · subst same
      rw [Runtime.cacheEntries, Runtime.cacheInsert, Runtime.modifyClass_classes_self] at member
      cases cache : (rt.classes c).dtable with
      | none => simp [cache] at member
      | some inner =>
          simp only [cache, Option.map_some, Option.getD_some] at member
          rcases mem_insert_cases member with old | new
          · refine .inl ?_
            rw [Runtime.cacheEntries, cache]
            exact old
          · rw [new]
            exact .inr ⟨below, found⟩
    · rw [Runtime.cacheEntries, Runtime.cacheInsert, Runtime.modifyClass_classes_of_ne _ _ _ same] at member
      exact .inl member

/-- Registering names and sending messages keeps dispatch. -/
theorem Messaging.of_run (run : Reachable DispatchOp.exec DispatchOp.Known rt rt') :
    Messaging base rt' ∧ KeepsDispatch rt rt' := by
  refine run.invariant (fun state => Messaging base state ∧ KeepsDispatch rt state) ⟨inv, .refl rt⟩ ?_
  rintro state op next ⟨now, keeps⟩ known step
  cases op with
  | registerName name =>
      obtain ⟨⟨_, sel⟩, result, rfl⟩ := Option.map_eq_some_iff.mp step
      obtain ⟨inv', kept, _⟩ := now.of_register result
      exact ⟨inv', keeps.trans kept⟩
  | msgLookup receiver sel =>
      obtain rfl := Option.some.inj step
      obtain ⟨inv', kept⟩ := now.of_msgLookup receiver known
      exact ⟨inv', keeps.trans kept⟩

theorem Messaging.coherent (c : ClassPtr) : rt.Coherent c := by
  intro sel imp hit
  rw [Runtime.cacheLookup] at hit
  obtain ⟨inner, cache, inList⟩ := Option.bind_eq_some_iff.mp hit
  obtain ⟨entry, found, same⟩ := Option.map_eq_some_iff.mp inList
  have member : entry ∈ rt.cacheEntries c := by
    rw [Runtime.cacheEntries, cache]
    exact List.mem_of_find?_eq_some found
  have named : selEq rt entry.sel sel = true := by
    have holds := List.find?_some found
    exact holds
  rw [← classLookupMethod_congr named, (inv.caches c entry member).2, same]

end Messages

/-- The state of dispatch after the load, relative to the compiled module. -/
structure Resolving (image : List ClassPtr) (rt0 rt : Runtime) (sels : List SEL) : Prop where
  sel : SelInv rt0.nextSelector rt
  fixed : FixedUp rt0 rt sels
  nextClass : rt.nextClass = rt0.nextClass
  ancestors : ∀ c ∈ image, rt.ancestors c = rt0.ancestors c
  isa : ∀ c ∈ image, (rt.classes c).isa = (rt0.classes c).isa
  metaAncestors : ∀ c ∈ image, ∀ m, (rt0.classes c).isa = some m →
    rt.ancestors m = (rt0.ancestors c).filterMap (fun d => (rt0.classes d).isa) ++ (rt0.ancestors c).getLast?.toList
  entries : ∀ c, rt.methodEntries c = compiledEntries (rt0.classes c).methodList
  caches : ∀ c, ∀ entry ∈ rt.cacheEntries c, entry.sel < rt.nextSelector ∧
    classLookupMethod rt c entry.sel = some entry.imp

theorem FixedUp.of_memory {rt0 rt rt' : Runtime} {sels : List SEL} (fixed : FixedUp rt0 rt sels)
    (same : rt'.selectorMemory = rt.selectorMemory) : FixedUp rt0 rt' sels := by
  have selectors : rt'.selectors = rt.selectors := congrArg SelectorMemory.selectors same
  have names : rt'.nameTable = rt.nameTable := congrArg SelectorMemory.nameTable same
  unfold FixedUp
  rw [selectors, names]
  exact fixed

/-- The chain of a metaclass follows the chain of its class and ends at the root class. -/
theorem Progress.meta_walk {rt0 rt : Runtime} (progress : Progress rt0 rt) {image : List ClassPtr}
    (static : StaticImage image rt0) (loaded : ∀ c ∈ image, rt.Loaded c) {start : Option ClassPtr}
    {walk : List ClassPtr} (complete : Walk rt0.superclass start walk) (inside : ∀ c ∈ start, c ∈ image) :
    ∀ c ∈ start, ∀ m, (rt0.classes c).isa = some m → Walk rt.superclass (some m)
      (walk.filterMap (fun d => (rt0.classes d).isa) ++ walk.getLast?.toList) := by
  induction complete with
  | nil => intro c absent; simp at absent
  | cons c rest tail ih =>
      intro d isStart m isa
      obtain rfl : c = d := Option.some.inj isStart
      have member := inside c rfl
      have kind := (static.cls c member).1
      have super := progress.superMeta c m kind isa (loaded c member)
      have first : (c :: rest).filterMap (fun d => (rt0.classes d).isa) =
          m :: rest.filterMap fun d => (rt0.classes d).isa := List.filterMap_cons_some isa
      rw [first, List.cons_append]
      refine .cons m _ ?_
      cases link : rt0.superclass c with
      | none =>
          rw [link, walk_none_iff] at tail
          rw [tail, super, link]
          refine .cons c _ ?_
          rw [progress.superPlain c kind, link]
          exact .nil
      | some sup =>
          have supMember := static.closed c member sup link
          obtain ⟨supMeta, supIsa, _⟩ := static.metaclass sup supMember
          rw [super, link, Option.elim_some, supIsa]
          obtain ⟨others, split, _⟩ := walk_some_iff.mp (link ▸ tail)
          have last : (c :: rest).getLast? = rest.getLast? := by
            rw [split]
            rfl
          rw [last]
          refine ih (fun e isSuper => ?_) sup link supMeta supIsa
          rw [link, Option.mem_some_iff] at isSuper
          exact isSuper ▸ supMember

/-- The fixup of a prepared module succeeds and leaves the classes alone. -/
theorem Prepared.fixup {image : List ClassPtr} {rt0 rt1 : Runtime} {info : ObjcModuleInfo}
    (prepared : Prepared rt0 rt1) (compiled : CompiledModule image rt0 info) :
    ∃ middle, loadSelectors rt1 info.selectorsMut = some middle ∧ SelInv rt0.nextSelector middle ∧
      SameClassMemory rt0 middle ∧ FixedUp rt0 middle info.selectorsMut := by
  have sameNames : ∀ sel ∈ info.selectorsMut, nameOf rt1 sel = nameOf rt0 sel := by
    intro sel member
    rw [nameOf, nameOf, prepared.compiled sel (compiled.selectors.below sel member)]
    cases source : (rt0.selectors sel).name with
    | none => rfl
    | some ptr =>
        rw [Option.bind_some, Option.bind_some,
          prepared.grows.strings ptr (compiled.selectors.named sel member ptr source).1]
  have valid : SectionValid rt1 info.selectorsMut rt0.nextSelector := by
    refine ⟨compiled.selectors.below, fun sel member ptr source => ?_⟩
    rw [prepared.compiled sel (compiled.selectors.below sel member)] at source
    obtain ⟨below, decodes⟩ := compiled.selectors.named sel member ptr source
    rw [prepared.grows.strings ptr below]
    exact ⟨Nat.lt_of_lt_of_le below prepared.grows.nextString, decodes⟩
  have distinct : info.selectorsMut.Nodup := sectionSlice_nodup info.selStart info.selStop
  obtain ⟨middle, result, sel, _, memory, fixed⟩ := loadSelectors_spec prepared.sel distinct valid
  refine ⟨middle, result, sel, prepared.memory.trans memory, fun s member => ?_⟩
  rw [← sameNames s member]
  exact fixed s member

theorem objcLoad_eq {rt middle : Runtime} {info : ObjcModuleInfo}
    (fixed : loadSelectors rt info.selectorsMut = some middle) :
    objcLoad rt info = loadBatches middle [info.classes] := by
  rw [loadBatches_eq, objcLoad, fixed, List.flatten_cons, List.flatten_nil, List.append_nil]
  rfl

/-- Classes loaded as far as the image goes and selectors with the names of the source put dispatch in step. -/
theorem resolving_of_progress {image : List ClassPtr} {rt0 base rt : Runtime} {sels : List SEL}
    (static : StaticImage image base) (memory : SameClassMemory rt0 base) (inv : WorldInv image rt)
    (progress : Progress base rt) (loaded : ∀ c, rt.Loaded c ↔ c < base.nextClass) (sel : SelInv rt0.nextSelector rt)
    (fixed : FixedUp rt0 rt sels) : Resolving image rt0 rt sels := by
  have classes := memory.sameClasses
  have sameClass : ∀ c, base.classes c = rt0.classes c := fun c => congrFun memory.classes c
  have loadedImage : ∀ c ∈ image, rt.Loaded c := fun c member => (loaded c).mpr (static.cls c member).2
  have chainOf : ∀ c ∈ image, rt.ancestors c = rt0.ancestors c := by
    intro c member
    have kind : (rt.classes c).isMetaclass = false := (progress.kind c).trans (static.cls c member).1
    rw [← progress.ancestors inv kind (inv.graph.lt_of_loaded (loadedImage c member)), classes.ancestors]
  refine ⟨sel, fixed, progress.nextClass.trans classes.nextClass, chainOf, fun c member => ?_,
    fun c member m isa => ?_, fun c => ?_, fun c entry member => ?_⟩
  · rw [progress.isaPlain c (static.cls c member).1, sameClass]
  · have walk := static.graphInv.ancestors_walk (static.cls c member).2
    have isa' : (base.classes c).isa = some m := by rw [sameClass]; exact isa
    have metaWalk := progress.meta_walk static loadedImage walk
      (fun d same => by rw [Option.mem_some_iff] at same; exact same ▸ member) c rfl m isa'
    have below : m < rt.nextClass := by
      rw [progress.nextClass]
      exact (static.graphInv.isaKind c m (static.cls c member).1 isa').2
    rw [(inv.graph.ancestors_walk below).unique metaWalk, classes.ancestors]
    simp only [sameClass]
  · rw [Runtime.methodEntries_eq_chainOf, progress.chains, ← sameClass]
    split
    · exact compiledChain_items _
    · rename_i unloaded
      rw [static.blank c (Nat.le_of_not_lt fun below => unloaded ((loaded c).mpr below))]
      rfl
  · rw [Runtime.cacheEntries] at member
    by_cases isLoaded : rt.Loaded c
    · rw [progress.dtable c isLoaded] at member
      simp at member
    · rw [Runtime.Loaded, Option.isSome_iff_ne_none, not_not] at isLoaded
      rw [isLoaded] at member
      simp at member

/-- The load puts dispatch in step with the source. -/
theorem resolving_of_load {image : List ClassPtr} {rt0 rt1 rt2 : Runtime} {info : ObjcModuleInfo}
    (compiled : CompiledModule image rt0 info) (prepared : Prepared rt0 rt1) (result : objcLoad rt1 info = some rt2) :
    Resolving image rt0 rt2 info.selectorsMut := by
  obtain ⟨middle, fixedUp, sel, memory, fixed⟩ := prepared.fixup compiled
  rw [objcLoad_eq fixedUp] at result
  have static := compiled.static.of_memory memory
  obtain ⟨inv, progress, loaded⟩ := loadBatches_spec static compiled.listed result
  exact resolving_of_progress static memory inv progress loaded (sel.of_memory progress.memory)
    (fixed.of_memory progress.memory)

/-- The selector carries the interned pointer of the name. -/
structure Runtime.Names (rt : Runtime) (sel : SEL) (name : String) : Prop where
  bound : (rt.nameTable name).isSome = true
  same : (rt.selectors sel).name = rt.nameTable name

theorem SelInv.registered_names {base : Nat} {rt : Runtime} (inv : SelInv base rt) {name : String} {sel : SEL}
    (registered : rt.selTable name = some sel) : rt.Names sel name := by
  obtain ⟨_, _, bound, same⟩ := inv.sels name sel registered
  exact ⟨bound, same⟩

theorem FixedUp.names {rt0 rt : Runtime} {sels : List SEL} (fixed : FixedUp rt0 rt sels) {sel : SEL}
    (member : sel ∈ sels) {name : String} (source : nameOf rt0 sel = some name) : rt.Names sel name := by
  obtain ⟨same, bound⟩ := fixed sel member
  rw [source, Option.bind_some] at same
  exact ⟨bound name source, same⟩

section Dispatch

variable {image : List ClassPtr} {rt0 rt : Runtime} {sels : List SEL} (linked : Linked image rt0 sels)
  (inv : Resolving image rt0 rt sels)

include linked inv

theorem Resolving.messaging : Messaging rt0.nextSelector rt where
  sel := inv.sel
  entries c entry member := by
    rw [inv.entries] at member
    exact Nat.lt_of_lt_of_le (linked.below _ (linked.methods c entry member)) inv.sel.base
  caches := inv.caches

/-- Registering names and sending messages keeps dispatch in step with the source. -/
theorem Resolving.of_keeps {rt' : Runtime} (messaging : Messaging rt0.nextSelector rt')
    (keeps : KeepsDispatch rt rt') : Resolving image rt0 rt' sels where
  sel := messaging.sel
  fixed := inv.fixed.grows keeps.grows fun s member =>
    keeps.selectors s (Nat.lt_of_lt_of_le (linked.below s member) inv.sel.base)
  nextClass := keeps.classes.nextClass.trans inv.nextClass
  ancestors c member := by rw [keeps.classes.ancestors, inv.ancestors c member]
  isa c member := by rw [keeps.classes.isa, inv.isa c member]
  metaAncestors c member m isa := by rw [keeps.classes.ancestors, inv.metaAncestors c member m isa]
  entries c := by rw [keeps.classes.methods.methodEntries, inv.entries]
  caches := messaging.caches

/-- A selector matches exactly the entries with its source name. -/
theorem Resolving.ownImp {name : String} {sel : SEL} (names : rt.Names sel name) (c : ClassPtr) :
    rt.ownImp c sel = methodNamed rt0 c name := by
  obtain ⟨bound, same⟩ := names
  rw [Runtime.ownImp, Runtime.ownMethod, inv.entries, methodNamed]
  refine congrArg (Option.map MethodEntry.imp) (List.find?_congr fun entry member => ?_)
  obtain ⟨fixed, isBound⟩ := inv.fixed entry.sel (linked.methods c entry member)
  rw [selEq, selNamePtr, selNamePtr, same, fixed, Bool.eq_iff_iff, beq_iff_eq, beq_iff_eq]
  cases source : nameOf rt0 entry.sel with
  | none =>
      rw [Option.bind_none]
      constructor
      · intro absent
        rw [← absent] at bound
        exact absurd bound (by simp)
      · intro absent
        exact absurd absent (by simp)
  | some other =>
      rw [Option.bind_some, Option.some.injEq]
      exact ⟨fun equal => inv.sel.injective (isBound other source) equal, fun equal => by rw [equal]⟩

theorem Resolving.instance_lookup {name : String} {sel : SEL} (names : rt.Names sel name) {cls : ClassPtr}
    (member : cls ∈ image) : classLookupMethod rt cls sel = resolveInstance rt0 cls name := by
  rw [classLookupMethod_eq_ownImp, inv.ancestors cls member, resolveInstance]
  exact congrArg (List.findSome? · (rt0.ancestors cls)) (funext (inv.ownImp linked names))

/-- The walk from a metaclass tries the class methods of the chain and then the root's instance methods. -/
theorem Resolving.class_lookup {name : String} {sel : SEL} (names : rt.Names sel name) {cls metaclass : ClassPtr}
    (member : cls ∈ image) (isa : (rt0.classes cls).isa = some metaclass) :
    classLookupMethod rt metaclass sel = resolveClass rt0 cls name := by
  rw [classLookupMethod_eq_ownImp, inv.metaAncestors cls member metaclass isa, List.findSome?_append, resolveClass]
  have own : (fun c => rt.ownImp c sel) = fun c => methodNamed rt0 c name := funext (inv.ownImp linked names)
  have classMethods : ((rt0.ancestors cls).filterMap fun d => (rt0.classes d).isa).findSome?
      (fun c => methodNamed rt0 c name) = (rt0.ancestors cls).findSome? fun c => classMethodNamed rt0 c name := by
    rw [← List.head?_filterMap, List.filterMap_filterMap, List.head?_filterMap]
    rfl
  rw [own, classMethods]
  congr 1
  cases (rt0.ancestors cls).getLast? with
  | none => rfl
  | some root => simp

/-- Messages with a named selector are answered as the source says. -/
theorem Resolving.answers_name {name : String} {sel : SEL} (names : rt.Names sel name) {cls : ClassPtr}
    (member : cls ∈ image) : (objcMsgLookup rt (some (.object cls)) sel).2 = resolveInstance rt0 cls name ∧
      (objcMsgLookup rt (some (.classObject cls)) sel).2 = resolveClass rt0 cls name := by
  obtain ⟨metaclass, isa, _⟩ := linked.static.metaclass cls member
  have receiver : rt.isaOf (.classObject cls) = some metaclass := (inv.isa cls member).trans isa
  have messaging := inv.messaging linked
  rw [(messaging.coherent cls).msgLookup rfl, (messaging.coherent metaclass).msgLookup receiver]
  exact ⟨inv.instance_lookup linked names member, inv.class_lookup linked names member isa⟩

end Dispatch

/-- Messages with a registered selector are answered as the source says. -/
theorem Resolving.answers {image : List ClassPtr} {rt0 rt : Runtime} {info : ObjcModuleInfo}
    (inv : Resolving image rt0 rt info.selectorsMut) (compiled : CompiledModule image rt0 info) {name : String} {sel : SEL}
    (registered : rt.selTable name = some sel) {cls : ClassPtr} (member : cls ∈ image) :
    (objcMsgLookup rt (some (.object cls)) sel).2 = resolveInstance rt0 cls name ∧
      (objcMsgLookup rt (some (.classObject cls)) sel).2 = resolveClass rt0 cls name :=
  inv.answers_name compiled.linked (inv.sel.registered_names registered) member

section Load

variable {image : List ClassPtr} {rt0 rt1 rt2 rt3 rt4 : Runtime} {info : ObjcModuleInfo}
  (compiled : CompiledModule image rt0 info) (prepared : Prepared rt0 rt1)

include compiled prepared

theorem Prepared.load_total (named : ∀ c ∈ image, (rt0.classes c).name.toStr.isSome = true) :
    (objcLoad rt1 info).isSome = true := by
  obtain ⟨middle, fixedUp, _, memory, _⟩ := prepared.fixup compiled
  rw [objcLoad_eq fixedUp]
  refine loadBatches_total (compiled.static.of_memory memory) compiled.listed fun c member => ?_
  rw [memory.classes]
  exact named c member

/-- A selector that is registered at any time after the load is dispatched by its name. -/
theorem Prepared.resolving {name : String} {sel : SEL} (load : objcLoad rt1 info = some rt2)
    (after : Reachable DispatchOp.exec DispatchOp.Known rt2 rt3)
    (registered : selRegisterNameStr rt3 name = some (rt4, sel)) :
    Resolving image rt0 rt4 info.selectorsMut ∧ rt4.selTable name = some sel := by
  have inv2 := resolving_of_load compiled prepared load
  obtain ⟨messaging3, keeps3⟩ := (inv2.messaging compiled.linked).of_run after
  obtain ⟨messaging4, keeps4, inTable⟩ := messaging3.of_register registered
  exact ⟨inv2.of_keeps compiled.linked messaging4 (keeps3.trans keeps4), inTable⟩

end Load

/-- Loading a compiled module and messaging by registered names implements method resolution by source names. -/
theorem objcLoad_resolves {image : List ClassPtr} {rt0 rt1 : Runtime} {info : ObjcModuleInfo}
    (compiled : CompiledModule image rt0 info)
    (before : Reachable DispatchOp.exec DispatchOp.Registers rt0 rt1) :
    ((∀ c ∈ image, (rt0.classes c).name.toStr.isSome = true) → (objcLoad rt1 info).isSome = true) ∧
      ∀ rt2 rt3 rt4 name sel, objcLoad rt1 info = some rt2 →
        Reachable DispatchOp.exec DispatchOp.Known rt2 rt3 → selRegisterNameStr rt3 name = some (rt4, sel) →
        ∀ cls ∈ image,
          (objcMsgLookup rt4 (some (.object cls)) sel).2 = resolveInstance rt0 cls name ∧
          (objcMsgLookup rt4 (some (.classObject cls)) sel).2 = resolveClass rt0 cls name := by
  have prepared := prepared_of_registers compiled before
  refine ⟨prepared.load_total compiled, fun rt2 rt3 rt4 name sel load after registered cls member => ?_⟩
  obtain ⟨inv, inTable⟩ := prepared.resolving compiled load after registered
  exact inv.answers compiled inTable member

/-- The sample module lists the subclass first, with a null sentinel between the classes. -/
def compiledPairModule : ObjcModuleInfo where
  selStart := some 0
  selStop := some 3
  classesStart := some 0
  classesStop := some 3
  classWords word := [some 2, none, some 0][word]?.getD none

theorem compiledPair_module : CompiledModule [0, 2] compiledPair compiledPairModule where
  static := compiledPair_static
  listed := by
    have words : compiledPairModule.classes = [some 2, none, some 0] := by decide
    rw [words]
    refine ⟨by decide, fun c => ?_⟩
    simp [List.reduceOption]
    tauto
  tables _ := ⟨rfl, rfl⟩
  selectors := by
    have entries : compiledPairModule.selectorsMut = [0, 1, 2] := by decide
    rw [entries]
    refine ⟨by decide, fun sel member ptr source => ?_⟩
    simp only [List.mem_cons, List.not_mem_nil, or_false] at member
    rcases member with rfl | rfl | rfl
    · obtain rfl : 0 = ptr := Option.some.inj source
      exact ⟨by decide, by decide +kernel⟩
    · exact absurd source (by simp [compiledPair])
    · obtain rfl : 1 = ptr := Option.some.inj source
      exact ⟨by decide, by decide +kernel⟩
  methods := compiledPair_cases
    (fun _ cls => ∀ entry ∈ compiledEntries cls.methodList, entry.sel ∈ compiledPairModule.selectorsMut)
    (by decide) fun _ => by decide

/-- The subclass inherits an instance method, and its class object falls back to it. -/
theorem objcLoad_resolves_compiledPair : ∃ rt2 rt4 sel, objcLoad compiledPair compiledPairModule = some rt2 ∧
    selRegisterNameStr rt2 "g" = some (rt4, sel) ∧
    (objcMsgLookup rt4 (some (.object 2)) sel).2 = some 7 ∧
    (objcMsgLookup rt4 (some (.classObject 2)) sel).2 = some 7 := by
  obtain ⟨total, resolves⟩ := objcLoad_resolves compiledPair_module .refl
  obtain ⟨rt2, load⟩ := Option.isSome_iff_exists.mp (total (by decide +kernel))
  have registers : ((objcLoad compiledPair compiledPairModule).bind fun rt =>
      selRegisterNameStr rt "g").isSome = true := by decide +kernel
  rw [load, Option.bind_some] at registers
  obtain ⟨⟨rt4, sel⟩, registered⟩ := Option.isSome_iff_exists.mp registers
  obtain ⟨onInstance, onClass⟩ := resolves rt2 rt2 rt4 "g" sel load .refl registered 2 (by decide)
  refine ⟨rt2, rt4, sel, load, registered, onInstance.trans ?_, onClass.trans ?_⟩
  · decide +kernel
  · decide +kernel

end O3jc
