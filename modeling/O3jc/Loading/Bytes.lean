import O3jc.Loading.Programs
import O3jc.Loading.Writes

namespace O3jc

open Library

theorem Runtime.modifyClass_of_same {rt : Runtime} {c : ClassPtr} {change : ObjcClass → ObjcClass}
    (same : change (rt.classes c) = rt.classes c) : rt.modifyClass c change = rt := by
  rw [modifyClass, same, Function.update_eq_self]

theorem Runtime.modifyClass_modifyClass (rt : Runtime) (c : ClassPtr) (first second : ObjcClass → ObjcClass) :
    (rt.modifyClass c first).modifyClass c second = rt.modifyClass c fun k => second (first k) := by
  simp [modifyClass]

/-- The conversion neither reads nor writes a class. -/
theorem convertMethodList_modifyClass (rt : Runtime) (c : ClassPtr) (change : ObjcClass → ObjcClass)
    (compiled : Option CompiledMethodList) : convertMethodList (rt.modifyClass c change) compiled =
      ((convertMethodList rt compiled).1.modifyClass c change, (convertMethodList rt compiled).2) := by
  cases compiled with
  | none => rfl
  | some list =>
      unfold convertMethodList
      by_cases empty : list.count = 0
      · simp only [if_pos empty]
      · simp only [if_neg empty]
        rfl

/-- A patch is its writes one by one. -/
theorem patchClass_eq (rt : Runtime) (c : ClassPtr) : patchClass rt c =
    (((convertMethodList (rt.modifyClass c fun k => { k with instanceSize := patchedSize (rt.classes c) })
        (rt.classes c).methodList.raw).1.modifyClass c fun k => { k with
          methodList := (convertMethodList rt (rt.classes c).methodList.raw).2 }).modifyClass c fun k =>
            { k with dtable := some CacheInner.new }) := by
  rw [convertMethodList_modifyClass, Runtime.modifyClass_modifyClass, Runtime.modifyClass_modifyClass]
  rfl

section Classes

variable {P : Placement} {H : HeapPlacement} {p : Process} {rt : Runtime} {platform : Platform}

/-- A write of a field other than the cache. -/
theorem Realizes.setField (rep : Realizes P H p rt) {c : ClassPtr} (below : c < P.classes) {f : ClassField}
    (loaded : f ∈ Placement.loadedFields) (plain : f ≠ .dtable) {value : Addr} {change : ObjcClass → ObjcClass}
    (stands : ClassAt P H p rt (Function.update (p.classWord P c) f value) (change (rt.classes c))) :
    Realizes P H (p.setWord ObjcClass.layout (P.cls c) f value) (rt.modifyClass c change) ∧
      Keeps P p (p.setWord ObjcClass.layout (P.cls c) f value) :=
  ⟨rep.setClass below loaded stands fun cache => absurd cache plain, rep.sound.keeps_setClass below loaded value⟩

theorem Realizes.instanceSize (rep : Realizes P H p rt) {c : ClassPtr} (below : c < P.classes) :
    p.instanceSize (P.cls c) = (rt.classes c).instanceSize := by
  have word : p.word ObjcClass.layout (P.cls c) .instanceSize = (rt.classes c).instanceSize.toBitVec :=
    (rep.classes.stands c below).instanceSize
  rw [Process.instanceSize, word]
  rfl

/-- One conditional write of the size. -/
theorem Realizes.fixSize (rep : Realizes P H p rt) {c : ClassPtr} (below : c < P.classes) (size : Int64)
    (wrong : Prop) [Decidable wrong] :
    Realizes P H (if wrong then p.setInstanceSize (P.cls c) size else p)
      (rt.modifyClass c fun k => { k with instanceSize := if wrong then size else (rt.classes c).instanceSize }) ∧
    Keeps P p (if wrong then p.setInstanceSize (P.cls c) size else p) := by
  by_cases fixed : wrong
  · simp only [if_pos fixed]
    have stands := rep.classes.stands c below
    exact rep.setField below (by decide) (by decide) { stands with instanceSize := rfl }
  · simp only [if_neg fixed]
    rw [Runtime.modifyClass_of_same rfl]
    exact ⟨rep, Keeps.refl P p⟩

/-- Both writes of the size together. -/
theorem Realizes.patchSize (rep : Realizes P H p rt) {c : ClassPtr} (below : c < P.classes) :
    Realizes P H (p.patchSize (P.cls c))
        (rt.modifyClass c fun k => { k with instanceSize := patchedSize (rt.classes c) }) ∧
      Keeps P p (p.patchSize (P.cls c)) := by
  obtain ⟨negates, keeps⟩ := rep.fixSize below (-p.instanceSize (P.cls c)) (p.instanceSize (P.cls c) < 0)
  unfold Process.patchSize
  generalize (if p.instanceSize (P.cls c) < 0 then p.setInstanceSize (P.cls c) (-p.instanceSize (P.cls c)) else p) =
    negated at negates keeps ⊢
  obtain ⟨defaults, keeps'⟩ := negates.fixSize below sizeOfObjcObject (negated.instanceSize (P.cls c) = 0 ∧
    negated.word ObjcClass.layout (P.cls c) .superClass = 0)
  refine ⟨?_, keeps.trans keeps'⟩
  have size := negates.instanceSize below
  have root : negated.word ObjcClass.layout (P.cls c) .superClass = 0 ↔ (rt.classes c).superClass = none := by
    have points := (negates.classes.stands c below).superClass.eq_zero_iff
    rwa [Runtime.modifyClass_classes_self] at points
  rw [Runtime.modifyClass_classes_self] at size
  rw [Runtime.modifyClass_modifyClass, Runtime.modifyClass_classes_self] at defaults
  simp only [rep.instanceSize below] at size defaults
  simp only [size, root] at defaults ⊢
  exact defaults

theorem Realizes.setMethods (rep : Realizes P H p rt) {c : ClassPtr} (below : c < P.classes) {w : Addr}
    {field : MethodListField} (methods : MethodsAt P H p rt w field) :
    Realizes P H (p.setWord ObjcClass.layout (P.cls c) .methodList w)
        (rt.modifyClass c fun k => { k with methodList := field }) ∧
      Keeps P p (p.setWord ObjcClass.layout (P.cls c) .methodList w) := by
  have stands := rep.classes.stands c below
  exact rep.setField below (by decide) (by decide) { stands with methodList := methods }

/-- A new cache is an object in a fresh block. -/
theorem Realizes.addCache (rep : Realizes P H p rt) {size : Nat} (positive : 0 < size) {result : Process × Addr}
    (leaked : Leaked p size result) :
    Realizes P H { result.1 with caches := Function.update result.1.caches result.2 [] } rt ∧
      Keeps P p { result.1 with caches := Function.update result.1.caches result.2 [] } := by
  obtain ⟨p', base⟩ := result
  have process : p' = { p with blocks := ⟨base, size⟩ :: p.blocks } := leaked.process
  subst process
  have keeps : Keeps P p { p with
      blocks := ⟨base, size⟩ :: p.blocks
      caches := Function.update p.caches base [] } :=
    ⟨fun _ member => List.mem_cons_of_mem _ member, fun _ _ _ => rfl,
      fun w live => Function.update_of_ne (leaked.ne_of_live positive live) _ _, fun _ _ => rfl⟩
  have grown : Grown P H H p _ rt rt := keeps.grown H rfl rfl
  exact ⟨⟨rep.sound.mono keeps.blocks, rep.classes.grow rep.sound grown (fun _ _ => rfl) rfl rfl,
    rep.selectors.grow grown (fun _ _ => rfl) rfl rfl, rep.strings.grow rep.sound grown rfl rfl,
    rep.lists.grow grown rfl rfl, rep.tables.grow grown rfl rfl rfl rfl⟩, keeps⟩

/-- The class gets the new cache, which no other class has. -/
theorem Realizes.setCache (rep : Realizes P H p rt) {c : ClassPtr} (below : c < P.classes) {size : Nat}
    (positive : 0 < size) {result : Process × Addr} (leaked : Leaked p size result) :
    Realizes P H ({ result.1 with caches := Function.update result.1.caches result.2 [] }.setWord ObjcClass.layout
        (P.cls c) .dtable result.2) (rt.modifyClass c fun k => { k with dtable := some CacheInner.new }) ∧
      Keeps P p ({ result.1 with caches := Function.update result.1.caches result.2 [] }.setWord ObjcClass.layout
        (P.cls c) .dtable result.2) := by
  obtain ⟨added, keeps⟩ := rep.addCache positive leaked
  have stands := added.classes.stands c below
  refine ⟨added.setClass below (by decide) ?_ fun _ d below' same => ?_,
    keeps.trans (added.sound.keeps_setClass below (by decide) result.2)⟩
  · have cache : CacheAt P { result.1 with caches := Function.update result.1.caches result.2 [] } result.2 (some []) :=
      ⟨leaked.nonnull, leaked.live positive, fun _ member => absurd member List.not_mem_nil,
        Function.update_self _ _ _⟩
    exact { stands with dtable := cache }
  · have old := (rep.classes.stands d below').dtable
    have word : p.classWord P d .dtable = result.2 := by
      rw [← same, leaked.process]
      rfl
    rw [word] at old
    cases cached : (rt.classes d).dtable with
    | none =>
        rw [cached] at old
        exact leaked.nonnull old
    | some inner =>
        rw [cached] at old
        exact leaked.ne_of_live positive old.2.1 rfl

/-- The bytes of a class are patched as the class is. -/
theorem Realizes.patch (allocator : platform.Sound) (rep : Realizes P H p rt) {c : ClassPtr} (below : c < P.classes)
    (unread : (rt.classes c).methodList.head = none) :
    Refines (· = Stop.outOfMemory) (fun p' rt' => ∃ H', Realizes P H' p' rt' ∧ Keeps P p p')
      (p.patchClass platform (P.cls c)) (some (patchClass rt c)) := by
  rw [patchClass_eq, Process.patchClass]
  obtain ⟨sized, keeps⟩ := rep.patchSize below
  have stands := (sized.classes.stands c below).methodList
  rw [Runtime.modifyClass_classes_self] at stands
  refine (sized.convert allocator stands unread).bind_left fun result converted => ?_
  obtain ⟨H', rep', keeps', methods⟩ := converted
  obtain ⟨listed, keeps2⟩ := rep'.setMethods below methods
  refine (Process.leak_refines allocator _ (16 * cacheCapacity)).bind_left fun buffer buffered => ?_
  have keeps3 := buffered.keeps P
  refine (Process.leak_refines allocator buffer.1 platform.methodCacheSize).bind_left fun box leaked => ?_
  obtain ⟨cached, keeps4⟩ := (listed.leak buffered).setCache below allocator.cache leaked
  have same : (convertMethodList rt (rt.classes c).methodList.raw).2 =
      (convertMethodList (rt.modifyClass c fun k => { k with instanceSize := patchedSize (rt.classes c) })
        (rt.classes c).methodList.raw).2 := by
    rw [convertMethodList_modifyClass]
  rw [same]
  exact .done ⟨H', cached, (((keeps.trans keeps').trans keeps2).trans keeps3).trans keeps4⟩

theorem Realizes.setIsa (rep : Realizes P H p rt) {c : ClassPtr} (below : c < P.classes) {w : Addr}
    {target : Option ClassPtr} (points : Points P.cls P.classes w target) :
    Realizes P H (p.setWord ObjcClass.layout (P.cls c) .isa w)
        (rt.modifyClass c fun k => { k with isa := target }) ∧
      Keeps P p (p.setWord ObjcClass.layout (P.cls c) .isa w) := by
  have stands := rep.classes.stands c below
  exact rep.setField below (by decide) (by decide) { stands with isa := points }

theorem Realizes.setSuperClass (rep : Realizes P H p rt) {c : ClassPtr} (below : c < P.classes) {w : Addr}
    {target : Option ClassPtr} (points : Points P.cls P.classes w target) :
    Realizes P H (p.setWord ObjcClass.layout (P.cls c) .superClass w)
        (rt.modifyClass c fun k => { k with superClass := target }) ∧
      Keeps P p (p.setWord ObjcClass.layout (P.cls c) .superClass w) := by
  have stands := rep.classes.stands c below
  exact rep.setField below (by decide) (by decide) { stands with superClass := points }

theorem Realizes.setSubclassList (rep : Realizes P H p rt) {c : ClassPtr} (below : c < P.classes) {w : Addr}
    {target : Option ClassPtr} (points : Points P.cls P.classes w target) :
    Realizes P H (p.setWord ObjcClass.layout (P.cls c) .subclassList w)
        (rt.modifyClass c fun k => { k with subclassList := target }) ∧
      Keeps P p (p.setWord ObjcClass.layout (P.cls c) .subclassList w) := by
  have stands := rep.classes.stands c below
  exact rep.setField below (by decide) (by decide) { stands with subclassList := points }

theorem Realizes.setSibling (rep : Realizes P H p rt) {c : ClassPtr} (below : c < P.classes) {w : Addr}
    {target : Option ClassPtr} (points : Points P.cls P.classes w target) :
    Realizes P H (p.setWord ObjcClass.layout (P.cls c) .siblingClass w)
        (rt.modifyClass c fun k => { k with siblingClass := target }) ∧
      Keeps P p (p.setWord ObjcClass.layout (P.cls c) .siblingClass w) := by
  have stands := rep.classes.stands c below
  exact rep.setField below (by decide) (by decide) { stands with siblingClass := points }

/-- A class is put in front of the children of its parent. -/
theorem Realizes.splice (rep : Realizes P H p rt) {parent child : ClassPtr} (below : parent < P.classes)
    (below' : child < P.classes) :
    Realizes P H (p.spliceSubclass (P.cls parent) (P.cls child)) (spliceSubclass rt parent child) ∧
      Keeps P p (p.spliceSubclass (P.cls parent) (P.cls child)) := by
  obtain ⟨linked, keeps⟩ := rep.setSibling below' (rep.classes.stands parent below).subclassList
  have place : Points P.cls P.classes (P.cls child) (some child) := ⟨rfl, below', (rep.sound.cls child below').1⟩
  obtain ⟨spliced, keeps'⟩ := linked.setSubclassList below place
  exact ⟨spliced, keeps.trans keeps'⟩

theorem Realizes.wiresClass (rep : Realizes P H p rt) {cls : ClassPtr} (below : cls < P.classes) :
    Realizes P H (p.wireClass (P.cls cls)) (wireClass rt cls) ∧ Keeps P p (p.wireClass (P.cls cls)) := by
  have points := (rep.classes.stands cls below).superClass
  unfold Process.wireClass wireClass Runtime.superclass
  cases link : (rt.classes cls).superClass with
  | none =>
      rw [link] at points
      have null : p.word ObjcClass.layout (P.cls cls) .superClass = 0 := points
      simp only [null, if_true]
      exact ⟨rep, Keeps.refl P p⟩
  | some sup =>
      rw [link] at points
      obtain ⟨same, below', nonnull⟩ := points
      have word : p.word ObjcClass.layout (P.cls cls) .superClass = P.cls sup := same
      simp only [word, if_neg (same ▸ nonnull)]
      exact rep.splice below' below

theorem Realizes.wiresMetaclass (rep : Realizes P H p rt) {cls metaclass : ClassPtr} (below : cls < P.classes)
    (below' : metaclass < P.classes) :
    Realizes P H (p.wireMetaclass (P.cls cls) (P.cls metaclass)) (wireMetaclass rt cls metaclass) ∧
      Keeps P p (p.wireMetaclass (P.cls cls) (P.cls metaclass)) := by
  have points : Points P.cls P.classes (p.word ObjcClass.layout (P.cls metaclass) .superClass)
      (rt.superclass metaclass) := (rep.classes.stands metaclass below').superClass
  have isRoot : p.word ObjcClass.layout (P.cls cls) .superClass = 0 ↔ rt.superclass cls = none :=
    (rep.classes.stands cls below).superClass.eq_zero_iff
  unfold Process.wireMetaclass wireMetaclass
  cases link : rt.superclass metaclass with
  | none =>
      rw [link] at points
      have null : p.word ObjcClass.layout (P.cls metaclass) .superClass = 0 := points
      simp only [null, if_true]
      exact ⟨rep, Keeps.refl P p⟩
  | some metaSuper =>
      rw [link] at points
      obtain ⟨word, below'', nonnull⟩ := points
      have info : p.word ObjcClass.layout (P.cls metaSuper) .info = (rt.classes metaSuper).info :=
        (rep.classes.stands metaSuper below'').info
      simp only [word, if_neg (word ▸ nonnull), info, isRoot]
      by_cases skipped : ((rt.superclass cls).isNone && !(rt.classes metaSuper).isMetaclass) = true
      · have skips : rt.superclass cls = none ∧
            (rt.classes metaSuper).info &&& ClassFlags.classIsMetaclass = 0 := by
          simpa [ObjcClass.isMetaclass] using skipped
        simp only [if_pos skipped, if_pos skips]
        exact ⟨rep, Keeps.refl P p⟩
      · have wires : ¬ (rt.superclass cls = none ∧
            (rt.classes metaSuper).info &&& ClassFlags.classIsMetaclass = 0) := by
          simpa [ObjcClass.isMetaclass] using skipped
        simp only [if_neg skipped, if_neg wires]
        exact rep.splice below'' below'

/-- The loop over the words finds the class that the walk along the chain finds. -/
theorem Realizes.rootFrom (rep : Realizes P H p rt) {c : ClassPtr} (below : c < P.classes) {walk : List ClassPtr}
    (complete : Walk rt.superclass (some c) walk) {fuel : Nat} (fits : walk.length ≤ fuel) :
    ∃ root < P.classes, walk.find? (fun k => (rt.superclass k).isNone) = some root ∧
      p.rootFrom fuel (P.cls c) = .ok (P.cls root) := by
  induction fuel generalizing c walk with
  | zero =>
      obtain ⟨rest, rfl, _⟩ := walk_some_iff.mp complete
      exact absurd fits (by simp)
  | succ fuel inductionHypothesis =>
      obtain ⟨rest, rfl, tail⟩ := walk_some_iff.mp complete
      have points := (rep.classes.stands c below).superClass
      rw [Process.rootFrom]
      cases link : rt.superclass c with
      | none =>
          have null : p.word ObjcClass.layout (P.cls c) .superClass = 0 := points.eq_zero_iff.mpr link
          exact ⟨c, below, by simp [link], by simp only [null, if_true]⟩
      | some sup =>
          have next : (rt.classes c).superClass = some sup := link
          rw [next] at points
          obtain ⟨same, below', nonnull⟩ := points
          have word : p.word ObjcClass.layout (P.cls c) .superClass = P.cls sup := same
          rw [link] at tail
          obtain ⟨root, inside, found, runs⟩ := inductionHypothesis below' tail (by simpa using fits)
          refine ⟨root, inside, ?_, ?_⟩
          · simp [link, found]
          · simp only [word, if_neg (same ▸ nonnull)]
            exact runs

theorem Realizes.fixesMetaclass (rep : Realizes P H p rt) (enough : P.classes ≤ platform.fuel) {cls metaclass : ClassPtr}
    (below : cls < P.classes) (below' : metaclass < P.classes) {walk : List ClassPtr}
    (complete : Walk rt.superclass (some cls) walk) (short : walk.length ≤ rt.nextClass) (outside : metaclass ∉ walk) :
    ∃ p', p.fixMetaclass platform (P.cls cls) (P.cls metaclass) = .ok p' ∧
      Realizes P H p' (fixMetaclass rt cls metaclass) ∧ Keeps P p p' := by
  obtain ⟨rest, rfl, tail⟩ := walk_some_iff.mp complete
  have apart : cls ≠ metaclass := fun same => outside (same ▸ List.mem_cons_self)
  have points := (rep.classes.stands cls below).superClass
  unfold Process.fixMetaclass fixMetaclass
  cases link : rt.superclass cls with
  | none =>
      have null : p.word ObjcClass.layout (P.cls cls) .superClass = 0 := points.eq_zero_iff.mpr link
      simp only [null, if_true]
      have self : Points P.cls P.classes (P.cls metaclass) (some metaclass) :=
        ⟨rfl, below', (rep.sound.cls metaclass below').1⟩
      have root : Points P.cls P.classes (P.cls cls) (some cls) := ⟨rfl, below, (rep.sound.cls cls below).1⟩
      obtain ⟨looped, keeps⟩ := rep.setIsa below' self
      obtain ⟨linked, keeps'⟩ := looped.setSuperClass below' root
      rw [Runtime.modifyClass_modifyClass] at linked
      exact ⟨_, rfl, linked, keeps.trans keeps'⟩
  | some sup =>
      have next : (rt.classes cls).superClass = some sup := link
      rw [next] at points
      obtain ⟨same, supBelow, nonnull⟩ := points
      have word : p.word ObjcClass.layout (P.cls cls) .superClass = P.cls sup := same
      simp only [word, if_neg (same ▸ nonnull)]
      obtain ⟨linked, keeps⟩ := rep.setSuperClass below' (rep.classes.stands sup supBelow).isa
      -- The metaclass is not on the chain, so its new link does not change the walk to the root.
      have supers : ∀ c, c ≠ metaclass → (rt.modifyClass metaclass fun k =>
          { k with superClass := (rt.classes sup).isa }).superclass c = rt.superclass c := fun c different =>
        congrArg ObjcClass.superClass (Runtime.modifyClass_classes_of_ne _ _ _ different)
      rw [link] at tail
      have tail' := tail.congr fun c member => supers c fun same => outside (same ▸ List.mem_cons_of_mem cls member)
      have fits : rest.length ≤ rt.nextClass := (Nat.le_succ _).trans short
      obtain ⟨root, rootBelow, found, runs⟩ := linked.rootFrom supBelow tail'
        (fits.trans ((Nat.le_of_eq rep.classes.count).trans enough))
      have rooted : rootOf (rt.modifyClass metaclass fun k => { k with superClass := (rt.classes sup).isa }) cls =
          some root := (rootOf_eq ((supers cls apart).trans link) tail' fits).trans found
      obtain ⟨fixed, keeps'⟩ := linked.setIsa below' (linked.classes.stands root rootBelow).isa
      simp only [rooted]
      refine ⟨_, ?_, fixed, keeps.trans keeps'⟩
      exact (congrArg (· >>= _) runs)

theorem Realizes.register (rep : Realizes P H p rt) {cls : ClassPtr} (below : cls < P.classes) :
    Refines (· = Stop.outOfMemory) (fun p' rt' => ∃ H', Realizes P H' p' rt' ∧ Keeps P p p')
      (p.registerLoadedClass (P.cls cls)) (registerLoadedClass rt cls) := by
  have stands := rep.classes.stands cls below
  have name : p.cStr (p.word ObjcClass.layout (P.cls cls) .name) = (rt.classes cls).name := stands.name.cStr
  have info : p.word ObjcClass.layout (P.cls cls) .info = (rt.classes cls).info := stands.info
  unfold Process.registerLoadedClass registerLoadedClass registerClass
  rw [name]
  cases decoded : (rt.classes cls).name.toStr with
  | none => exact .failed (by decide)
  | some text =>
      have keeps : Keeps P p { p with
          classRegistry := (text, P.cls cls) :: p.classRegistry.filter fun entry => entry.1 != text } :=
        ⟨fun _ member => member, fun _ _ _ => rfl, fun _ _ => rfl, fun _ _ => rfl⟩
      have grown : Grown P H H p _ rt { rt with classRegistry := registryInsert rt.classRegistry text cls } :=
        keeps.grown H rfl rfl
      have inserted : Realizes P H { p with
          classRegistry := (text, P.cls cls) :: p.classRegistry.filter fun entry => entry.1 != text }
          { rt with classRegistry := registryInsert rt.classRegistry text cls } := by
        refine ⟨rep.sound, rep.classes.grow rep.sound grown (fun _ _ => rfl) rfl rfl,
          rep.selectors.grow grown (fun _ _ => rfl) rfl rfl, rep.strings.grow rep.sound grown rfl rfl,
          rep.lists.grow grown rfl rfl, rep.tables.names, rep.tables.live, ?_⟩
        simp only [registryInsert, rep.tables.registry, List.filter_map, List.map_cons]
        rfl
      have old := inserted.classes.stands cls below
      have flagged : ClassAt P H { p with
          classRegistry := (text, P.cls cls) :: p.classRegistry.filter fun entry => entry.1 != text }
          { rt with classRegistry := registryInsert rt.classRegistry text cls }
          (Function.update (p.classWord P cls) .info ((rt.classes cls).info ||| ClassFlags.classRegistered))
          (rt.classes cls).setRegistered := { old with info := rfl }
      obtain ⟨registered, keeps'⟩ := inserted.setField below (by decide) (by decide) flagged
      refine .done ⟨H, ?_, ?_⟩
      · rw [info]
        exact registered
      · rw [info]
        exact keeps.trans keeps'

end Classes

section Turn

variable {image : List ClassPtr} {P : Placement} {H : HeapPlacement} {p : Process} {rt rt' : Runtime}
  {platform : Platform}

/-- A turn of the loader on the bytes is a turn of the loader. -/
theorem Realizes.loadsClass (allocator : platform.Sound) (enough : P.classes ≤ platform.fuel)
    (rep : Realizes P H p rt) (inv : WorldInv image rt) (unread : rt.Unread) {cls : ClassPtr} (member : cls ∈ image)
    (unloaded : ¬ rt.Loaded cls) :
    Refines (· = Stop.outOfMemory) (fun p' rt' => ∃ H', Realizes P H' p' rt' ∧ Keeps P p p')
      (p.loadClass platform (P.cls cls)) (loadClass rt cls) := by
  obtain ⟨kind, inside, _⟩ := inv.graph.imageClass cls member
  obtain ⟨metaclass, isa⟩ := Option.isSome_iff_exists.mp (inv.graph.hasIsa cls kind inside)
  obtain ⟨isMeta, insideMeta⟩ := inv.graph.isaKind cls metaclass kind isa
  have apart := cls_ne_metaclass inv.graph kind isa
  have unloadedMeta : ¬ rt.Loaded metaclass := fun loaded =>
    unloaded ((inv.graph.pairLoaded cls metaclass kind isa).mp loaded)
  have below := rep.classes.count ▸ inside
  have below' := rep.classes.count ▸ insideMeta
  have patched := patchClass_spec inv.chain cls
  have isa1 : ((patchClass rt cls).classes cls).isa = some metaclass :=
    (patched.proj ObjcClass.isa (fun _ _ _ _ => rfl) cls).trans isa
  have unread1 : ((patchClass rt cls).classes metaclass).methodList.head = none := by
    rw [patched.old metaclass apart.symm]
    exact unread metaclass unloadedMeta
  have walk : Walk (patchClass (patchClass rt cls) metaclass).superclass (some cls) (rt.ancestors cls) := by
    have supers := patchPair_superclass inv.chain cls metaclass
    rw [patchPair] at supers
    rw [supers]
    exact inv.graph.ancestors_walk inside
  have count : (patchClass (patchClass rt cls) metaclass).nextClass = rt.nextClass :=
    (patchPair_second inv.chain cls metaclass).nextClass.trans patched.nextClass
  have outside : metaclass ∉ rt.ancestors cls := fun chained => by
    have plain := inv.graph.ancestors_kind inside kind metaclass chained
    rw [isMeta] at plain
    exact absurd plain (by simp)
  unfold Process.loadClass loadClass
  simp only [isa1]
  refine (rep.patch allocator below (unread cls unloaded)).bind_left fun p1 first => ?_
  obtain ⟨H1, rep1, keeps1⟩ := first
  have points := (rep1.classes.stands cls below).isa
  rw [isa1] at points
  obtain ⟨same, _, nonnull⟩ := points
  have word : p1.word ObjcClass.layout (P.cls cls) .isa = P.cls metaclass := same
  simp only [word, if_neg (same ▸ nonnull)]
  refine (rep1.patch allocator below' unread1).bind_left fun p2 second => ?_
  obtain ⟨H2, rep2, keeps2⟩ := second
  obtain ⟨p3, runs, linked, keeps3⟩ := rep2.fixesMetaclass enough below below' walk
    (count ▸ inv.graph.ancestors_length inside) outside
  rw [runs]
  change Refines _ _ (Process.registerLoadedClass _ _) _
  generalize fixMetaclass (patchClass (patchClass rt cls) metaclass) cls metaclass = rt2 at linked ⊢
  obtain ⟨wired, keeps4⟩ := linked.wiresClass below
  have keeps := ((keeps1.trans keeps2).trans keeps3).trans keeps4
  have points3 : Points P.cls P.classes ((p3.wireClass (P.cls cls)).word ObjcClass.layout (P.cls cls) .isa)
      ((wireClass rt2 cls).classes cls).isa := (wired.classes.stands cls below).isa
  cases isa3 : ((wireClass rt2 cls).classes cls).isa with
  | none =>
      rw [isa3] at points3
      have null : (p3.wireClass (P.cls cls)).word ObjcClass.layout (P.cls cls) .isa = 0 := points3
      simp only [null, if_true]
      refine (wired.register below).mono fun p5 rt5 registered => ?_
      obtain ⟨H5, rep5, keeps5⟩ := registered
      exact ⟨H5, rep5, keeps.trans keeps5⟩
  | some m =>
      rw [isa3] at points3
      obtain ⟨word3, below3, nonnull3⟩ := points3
      simp only [word3, if_neg (word3 ▸ nonnull3)]
      obtain ⟨wiredMeta, keeps5⟩ := wired.wiresMetaclass below below3
      refine (wiredMeta.register below).mono fun p6 rt6 registered => ?_
      obtain ⟨H6, rep6, keeps6⟩ := registered
      exact ⟨H6, rep6, (keeps.trans keeps5).trans keeps6⟩

end Turn

end O3jc
