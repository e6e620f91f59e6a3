import O3jc.Dispatch.World

namespace O3jc

open Library

/-- How far a load has come, relative to the compiled image. -/
structure Progress (rt0 rt : Runtime) : Prop where
  nextClass : rt.nextClass = rt0.nextClass
  memory : rt.selectorMemory = rt0.selectorMemory
  dtable : ∀ c, rt.Loaded c → (rt.classes c).dtable = some []
  kind : ∀ c, (rt.classes c).isMetaclass = (rt0.classes c).isMetaclass
  name : ∀ c, (rt.classes c).name = (rt0.classes c).name
  superPlain : ∀ c, (rt0.classes c).isMetaclass = false → rt.superclass c = rt0.superclass c
  isaPlain : ∀ c, (rt0.classes c).isMetaclass = false → (rt.classes c).isa = (rt0.classes c).isa
  isaMeta : ∀ c m, (rt0.classes c).isMetaclass = false → (rt0.classes c).isa = some m → rt.Loaded c →
    ∃ root ∈ rt0.ancestors c, rt0.superclass root = none ∧ (rt.classes m).isa = (rt0.classes root).isa
  superMeta : ∀ c m, (rt0.classes c).isMetaclass = false → (rt0.classes c).isa = some m → rt.Loaded c →
    rt.superclass m = (rt0.superclass c).elim (some c) fun sup => (rt0.classes sup).isa
  info : ∀ c, (rt.classes c).info = if (rt0.classes c).isMetaclass = false ∧ rt.Loaded c
    then (rt0.classes c).info ||| ClassFlags.classRegistered else (rt0.classes c).info
  size : ∀ c, (rt.classes c).instanceSize =
    if rt.Loaded c then patchedSize (rt0.classes c) else (rt0.classes c).instanceSize
  chains : ∀ c, rt.chainOf c = if rt.Loaded c then compiledChain (rt0.classes c).methodList else []
  untouched : ∀ c, ¬ rt.Loaded c → (rt.classes c).isa = (rt0.classes c).isa ∧
    rt.superclass c = rt0.superclass c ∧ (rt.classes c).methodList = (rt0.classes c).methodList
  members : ∀ p c, c ∈ rt.subclasses p ↔ rt.Loaded c ∧
    (((rt0.classes c).isMetaclass = false ∧ rt0.superclass c = some p) ∨
      ∃ d, (rt0.classes d).isMetaclass = false ∧ (rt0.classes d).isa = some c ∧ metaParent rt0 d = some p)

theorem StaticImage.progress {image : List ClassPtr} {rt : Runtime} (start : StaticImage image rt) :
    Progress rt rt where
  nextClass := rfl
  memory := rfl
  dtable c loaded := absurd loaded (start.not_loaded c)
  kind _ := rfl
  name _ := rfl
  superPlain _ _ := rfl
  isaPlain _ _ := rfl
  isaMeta c _ _ _ loaded := absurd loaded (start.not_loaded c)
  superMeta c _ _ _ loaded := absurd loaded (start.not_loaded c)
  info c := by rw [if_neg fun both => start.not_loaded c both.2]
  size c := by rw [if_neg (start.not_loaded c)]
  chains c := by
    rw [if_neg (start.not_loaded c), Runtime.chainOf, start.nodesOf]
    rfl
  untouched _ _ := ⟨rfl, rfl, rfl⟩
  members p c := by
    rw [start.subclasses]
    simp [start.not_loaded c]

section Turn

variable {image : List ClassPtr} {rt0 rt rt' : Runtime} (inv : WorldInv image rt) (progress : Progress rt0 rt)

include inv progress

/-- The superclass chain of an ordinary class is the one of the image. -/
theorem Progress.ancestors {cls : ClassPtr} (kind : (rt.classes cls).isMetaclass = false)
    (below : cls < rt.nextClass) : rt0.ancestors cls = rt.ancestors cls := by
  have complete : Walk rt0.superclass (some cls) (rt.ancestors cls) := by
    refine (inv.graph.ancestors_walk below).congr fun c member => ?_
    have plain := inv.graph.ancestors_kind below kind c member
    rw [progress.kind] at plain
    exact (progress.superPlain c plain).symm
  exact complete.successors_eq (progress.nextClass ▸ inv.graph.ancestors_length below)

theorem Progress.sameParent {cls : ClassPtr} (kind : (rt.classes cls).isMetaclass = false) :
    metaParent rt cls = metaParent rt0 cls := by
  have plain := kind
  rw [progress.kind] at plain
  rw [metaParent, metaParent, progress.superPlain cls plain]
  cases link : rt0.superclass cls with
  | none => rfl
  | some sup =>
      rw [← progress.superPlain cls plain] at link
      have supKind := inv.graph.superKind cls sup kind link
      rw [progress.kind] at supKind
      exact progress.isaPlain sup supKind

/-- One turn of the loader makes progress. -/
theorem Progress.turn {cls : ClassPtr} (member : cls ∈ image) (unloaded : ¬ rt.Loaded cls)
    (result : loadClass rt cls = some rt') : Progress rt0 rt' := by
  obtain ⟨kind, below, _⟩ := inv.graph.imageClass cls member
  obtain ⟨metaclass, isa⟩ := Option.isSome_iff_exists.mp (inv.graph.hasIsa cls kind below)
  obtain ⟨root, name, above, isRoot, step⟩ := loadClass_spec inv.chain inv.graph kind below isa result
  have kind0 : (rt0.classes cls).isMetaclass = false := progress.kind cls ▸ kind
  have isa0 : (rt0.classes cls).isa = some metaclass := (progress.isaPlain cls kind0).symm.trans isa
  have metaUnloaded := installed_meta_unloaded inv.graph kind isa unloaded
  have plain : ∀ {c}, (rt0.classes c).isMetaclass = false → c ≠ metaclass := fun {c} kind' =>
    plain_ne_metaclass inv.graph kind isa (progress.kind c ▸ kind')
  have other : ∀ {c m}, (rt0.classes c).isMetaclass = false → (rt0.classes c).isa = some m → c ≠ cls →
      m ≠ metaclass := fun {c m} kind' link different =>
    other_metaclass inv.graph kind isa ((progress.kind c).trans kind') ((progress.isaPlain c kind').trans link)
      different
  have metaKind : (rt0.classes metaclass).isMetaclass = true :=
    (progress.kind metaclass).symm.trans (inv.graph.isaKind cls metaclass kind isa).1
  have old : ∀ {c}, rt'.Loaded c → c ≠ cls → c ≠ metaclass → rt.Loaded c := fun loaded notCls notMeta =>
    ((step.loaded_iff _).mp loaded).resolve_left notCls |>.resolve_left notMeta
  have superOf : (rt.superclass cls).elim (some cls) (fun sup => (rt.classes sup).isa) =
      (rt0.superclass cls).elim (some cls) fun sup => (rt0.classes sup).isa := by
    have link := progress.superPlain cls kind0
    rw [← link]
    cases super : rt.superclass cls with
    | none => rfl
    | some sup =>
        have supKind := inv.graph.superKind cls sup kind super
        exact progress.isaPlain sup (progress.kind sup ▸ supKind)
  have fresh := progress.untouched cls unloaded
  have freshMeta := progress.untouched metaclass metaUnloaded
  have sizes : ∀ c, c = cls ∨ c = metaclass → patchedSize (rt.classes c) = patchedSize (rt0.classes c) := by
    intro c new
    have unloaded' : ¬ rt.Loaded c := by
      rcases new with rfl | rfl
      · exact unloaded
      · exact metaUnloaded
    have size := progress.size c
    rw [if_neg unloaded'] at size
    have super := (progress.untouched c unloaded').2.1
    simp only [Runtime.superclass] at super
    simp only [patchedSize, size, super]
  refine
    { nextClass := step.nextClass.trans progress.nextClass
      memory := step.selectors.trans progress.memory
      dtable := fun c loaded => ?dtable
      kind := fun c => (step.isMetaclass c).trans (progress.kind c)
      name := fun c => (step.name c).trans (progress.name c)
      superPlain := fun c kind' => (step.superOld c (plain kind')).trans (progress.superPlain c kind')
      isaPlain := fun c kind' => (step.isaOld c (plain kind')).trans (progress.isaPlain c kind')
      isaMeta := fun c m kind' link loaded => ?isaMeta
      superMeta := fun c m kind' link loaded => ?superMeta
      info := fun c => ?info
      size := fun c => ?size
      chains := fun c => ?chains
      untouched := fun c unloaded' => ?untouched
      members := fun p c => ?members }
  case dtable =>
    rw [step.dtable]
    by_cases new : c = cls ∨ c = metaclass
    · rw [if_pos new]
    · rw [if_neg new]
      rw [not_or] at new
      exact progress.dtable c (old loaded new.1 new.2)
  case isaMeta =>
    by_cases same : c = cls
    · subst same
      obtain rfl : metaclass = m := Option.some.inj (isa0.symm.trans link)
      refine ⟨root, ?_, ?_, ?_⟩
      · rw [progress.ancestors inv kind below]
        exact above
      · rw [← progress.superPlain root, isRoot]
        exact progress.kind root ▸ inv.graph.ancestors_kind below kind root above
      · rw [step.isaMeta]
        exact progress.isaPlain root (progress.kind root ▸ inv.graph.ancestors_kind below kind root above)
    · rw [step.isaOld m (other kind' link same)]
      exact progress.isaMeta c m kind' link (old loaded same (plain kind'))
  case superMeta =>
    by_cases same : c = cls
    · subst same
      obtain rfl : metaclass = m := Option.some.inj (isa0.symm.trans link)
      rw [step.superMeta, superOf]
    · rw [step.superOld m (other kind' link same)]
      exact progress.superMeta c m kind' link (old loaded same (plain kind'))
  case info =>
    by_cases same : c = cls
    · subst same
      rw [step.infoCls, if_pos ⟨kind0, (step.loaded_iff c).mpr (.inl rfl)⟩, progress.info,
        if_neg fun both => unloaded both.2]
    · rw [step.infoOld c same, progress.info]
      refine if_congr (and_congr_right fun kind' => ?_) rfl rfl
      rw [step.loaded_iff]
      simp [same, plain kind']
  case size =>
    rw [step.size]
    by_cases new : c = cls ∨ c = metaclass
    · rw [if_pos new, if_pos ((step.loaded_iff c).mpr (new.imp_right .inl)), sizes c new]
    · rw [if_neg new, progress.size]
      rw [not_or] at new
      simp [step.loaded_iff, new.1, new.2]
  case chains =>
    rw [step.chains]
    by_cases new : c = cls ∨ c = metaclass
    · rw [if_pos new, if_pos ((step.loaded_iff c).mpr (new.imp_right .inl))]
      rcases new with rfl | rfl
      · rw [fresh.2.2]
      · rw [freshMeta.2.2]
    · rw [if_neg new, progress.chains]
      rw [not_or] at new
      simp [step.loaded_iff, new.1, new.2]
  case untouched =>
    rw [step.loaded_iff, not_or, not_or] at unloaded'
    obtain ⟨notCls, notMeta, before⟩ := unloaded'
    rw [step.isaOld c notMeta, step.superOld c notMeta, step.methods c notCls notMeta]
    exact progress.untouched c before
  case members =>
    rw [step.subclasses inv.graph kind below isa unloaded, step.loaded_iff, progress.superPlain cls kind0,
      progress.sameParent inv kind]
    have before := progress.members p c
    have onlyMeta : ∀ d, (rt0.classes d).isMetaclass = false → (rt0.classes d).isa = some metaclass → d = cls := by
      intro d kind' link
      by_contra different
      exact other kind' link different rfl
    by_cases isCls : c = cls
    · subst isCls
      have notBefore : c ∉ rt.subclasses p := fun inside => unloaded (inv.graph.subclassSuper p c inside).2
      have noOwner : ¬ ∃ d, (rt0.classes d).isMetaclass = false ∧ (rt0.classes d).isa = some c ∧
          metaParent rt0 d = some p := by
        rintro ⟨d, kind', link, _⟩
        have isMeta := (inv.graph.isaKind d c ((progress.kind d).trans kind')
          ((progress.isaPlain d kind').trans link)).1
        rw [kind] at isMeta
        exact absurd isMeta (by simp)
      have apart := plain kind0
      split_ifs with isSuper isParent
      · simp [isSuper, kind0]
      · simp [notBefore, isSuper, noOwner, apart]
      · simp [notBefore, isSuper, noOwner]
    · by_cases isMeta : c = metaclass
      · subst isMeta
        have notBefore : c ∉ rt.subclasses p := fun inside =>
          metaUnloaded (inv.graph.subclassSuper p c inside).2
        have owner : (∃ d, (rt0.classes d).isMetaclass = false ∧ (rt0.classes d).isa = some c ∧
            metaParent rt0 d = some p) ↔ metaParent rt0 cls = some p := by
          constructor
          · rintro ⟨d, kind', link, parent⟩
            rwa [onlyMeta d kind' link] at parent
          · exact fun parent => ⟨cls, kind0, isa0, parent⟩
        rw [owner]
        split_ifs with isSuper isParent
        · have noParent : metaParent rt0 cls ≠ some p := by
            intro parent
            obtain ⟨sup, super, supIsa⟩ := Option.bind_eq_some_iff.mp parent
            obtain rfl : sup = p := Option.some.inj (super.symm.trans isSuper)
            have supKind := inv.graph.superKind cls sup kind ((progress.superPlain cls kind0).trans super)
            have isMeta := (inv.graph.isaKind sup sup supKind
              ((progress.isaPlain sup (progress.kind sup ▸ supKind)).trans supIsa)).1
            rw [supKind] at isMeta
            exact absurd isMeta (by simp)
          simp [notBefore, isCls, metaKind, noParent]
        · simp [isParent]
        · simp [notBefore, isCls, metaKind, isParent]
      · split_ifs <;> simp [isCls, isMeta, before]

end Turn

/-- Consecutive calls of `load_classes`. -/
def loadBatches (rt : Runtime) (batches : List (List (Option ClassPtr))) : Option Runtime :=
  batches.foldlM loadClasses rt

/-- The batches list every compiled class once, with null sentinels anywhere. -/
def Covers (image : List ClassPtr) (batches : List (List (Option ClassPtr))) : Prop :=
  batches.flatten.reduceOption.Nodup ∧ ∀ c, c ∈ batches.flatten.reduceOption ↔ c ∈ image

/-- Consecutive calls do what one call on the joined list does. -/
theorem loadBatches_eq (rt : Runtime) (batches : List (List (Option ClassPtr))) :
    loadBatches rt batches = loadClasses rt batches.flatten := by
  induction batches generalizing rt with
  | nil => rfl
  | cons batch rest ih =>
      have joined : loadClasses rt (batch ++ rest.flatten) =
          loadClasses rt batch >>= fun middle => loadClasses middle rest.flatten := List.foldlM_append
      rw [loadBatches, List.foldlM_cons, List.flatten_cons, joined]
      exact congrArg (loadClasses rt batch >>= ·) (funext ih)

/-- The metaclass graph that the loader is to produce. -/
structure Canonical (image : List ClassPtr) (rt : Runtime) : Prop where
  root : ∀ c ∈ image, ∀ m, (rt.classes c).isa = some m → rt.superclass c = none →
    (rt.classes m).isa = some m ∧ rt.superclass m = some c
  child : ∀ c ∈ image, ∀ m p, (rt.classes c).isa = some m → rt.superclass c = some p →
    rt.superclass m = (rt.classes p).isa ∧
      ∃ root ∈ rt.ancestors c, rt.superclass root = none ∧ (rt.classes m).isa = (rt.classes root).isa
  finite : ∀ c, c < rt.nextClass → Walk rt.superclass (some c) (rt.ancestors c) ∧ (rt.ancestors c).Nodup
  subclassLists : ∀ p, Walk rt.sibling (rt.classes p).subclassList (rt.subclasses p)

/-- Two loads agree on every class up to the order of the subclass lists. -/
structure SameLoad (rt rt' : Runtime) : Prop where
  isa : ∀ c, (rt'.classes c).isa = (rt.classes c).isa
  superclass : ∀ c, rt'.superclass c = rt.superclass c
  chain : ∀ c, rt'.chainOf c = rt.chainOf c
  instanceSize : ∀ c, (rt'.classes c).instanceSize = (rt.classes c).instanceSize
  info : ∀ c, (rt'.classes c).info = (rt.classes c).info
  subclasses : ∀ p c, c ∈ rt'.subclasses p ↔ c ∈ rt.subclasses p

section Loads

variable {image : List ClassPtr} {rt0 rt rt' : Runtime} (static : StaticImage image rt0)

/-- A list of loadable classes with UTF-8 names loads without a panic. -/
theorem loadClasses_total {classPtrs : List (Option ClassPtr)} (inv : WorldInv image rt)
    (loadable : Loadable image rt classPtrs)
    (named : ∀ c ∈ classPtrs.reduceOption, (rt.classes c).name.toStr.isSome = true) :
    (loadClasses rt classPtrs).isSome = true := by
  induction classPtrs generalizing rt with
  | nil => rfl
  | cons entry rest ih =>
      rw [loadClasses, List.foldlM_cons]
      cases entry with
      | none => exact ih inv loadable named
      | some cls =>
          rw [List.reduceOption_cons_of_some] at named
          have member := (loadable.2 cls (by simp)).1
          obtain ⟨kind, below, _⟩ := inv.graph.imageClass cls member
          obtain ⟨metaclass, isa⟩ := Option.isSome_iff_exists.mp (inv.graph.hasIsa cls kind below)
          obtain ⟨middle, turn⟩ := Option.isSome_iff_exists.mp
            (loadClass_total inv.chain inv.graph kind below isa (named cls List.mem_cons_self))
          obtain ⟨_, unloaded, loadable1⟩ := loadable.tail inv turn
          obtain ⟨root, name, _, _, step⟩ := loadClass_spec inv.chain inv.graph kind below isa turn
          have named1 : ∀ c ∈ rest.reduceOption, (middle.classes c).name.toStr.isSome = true := fun c inside => by
            rw [step.name]
            exact named c (List.mem_cons_of_mem cls inside)
          have later := ih (loadClass_world inv member unloaded turn).1 loadable1 named1
          simp only [loadEntry, turn]
          exact later

include static

theorem StaticImage.loadable {batches : List (List (Option ClassPtr))} (covers : Covers image batches) :
    Loadable image rt0 batches.flatten :=
  ⟨covers.1, fun c inside => ⟨(covers.2 c).mp inside, static.not_loaded c⟩⟩

theorem loadBatches_total {batches : List (List (Option ClassPtr))} (covers : Covers image batches)
    (named : ∀ c ∈ image, (rt0.classes c).name.toStr.isSome = true) : (loadBatches rt0 batches).isSome = true := by
  rw [loadBatches_eq]
  exact loadClasses_total static.worldInv (static.loadable covers) fun c inside => named c ((covers.2 c).mp inside)

/-- After the load every pair of the image is loaded, and no other class is. -/
theorem loadBatches_spec {batches : List (List (Option ClassPtr))} (covers : Covers image batches)
    (result : loadBatches rt0 batches = some rt) : WorldInv image rt ∧ Progress rt0 rt ∧
      ∀ c, rt.Loaded c ↔ c < rt0.nextClass := by
  rw [loadBatches_eq] at result
  have loadable := static.loadable covers
  obtain ⟨inv, _, loads⟩ := loadClasses_world static.worldInv loadable result
  have progress : Progress rt0 rt := loadClasses_rule (Progress rt0)
    (fun _ _ _ inv' before member unloaded turn => before.turn inv' member unloaded turn) static.worldInv
    static.progress loadable result
  have loadedImage : ∀ c ∈ image, rt.Loaded c := fun c member =>
    (loads.loaded c (static.cls c member).1).mpr (.inl ((covers.2 c).mpr member))
  refine ⟨inv, progress, fun c => ⟨fun loaded => progress.nextClass ▸ inv.graph.lt_of_loaded loaded, fun below => ?_⟩⟩
  rcases static.covered c below with member | ⟨d, member, isa⟩
  · exact loadedImage c member
  · have kind := (static.cls d member).1
    refine (inv.graph.pairLoaded d c ((progress.kind d).trans kind) ((progress.isaPlain d kind).trans isa)).mpr ?_
    exact loadedImage d member

theorem canonical_of_progress (inv : WorldInv image rt) (progress : Progress rt0 rt)
    (loaded : ∀ c, rt.Loaded c ↔ c < rt0.nextClass) : Canonical image rt where
  root c member m isa noSuper := by
    obtain ⟨kind, below⟩ := static.cls c member
    rw [progress.isaPlain c kind] at isa
    rw [progress.superPlain c kind] at noSuper
    have isLoaded := (loaded c).mpr below
    have super := progress.superMeta c m kind isa isLoaded
    obtain ⟨root, above, isRoot, link⟩ := progress.isaMeta c m kind isa isLoaded
    -- A class without a superclass is its own root.
    have walk := static.graphInv.ancestors_walk below
    have same : root = c :=
      walk.last_unique above (static.graphInv.self_mem_ancestors below) isRoot noSuper
    rw [noSuper] at super
    rw [same, isa] at link
    exact ⟨link, super⟩
  child c member m p isa link := by
    obtain ⟨kind, below⟩ := static.cls c member
    have kindNow : (rt.classes c).isMetaclass = false := (progress.kind c).trans kind
    have supKind := inv.graph.superKind c p kindNow link
    rw [progress.isaPlain c kind] at isa
    rw [progress.superPlain c kind] at link
    have isLoaded := (loaded c).mpr below
    refine ⟨?_, ?_⟩
    · rw [progress.superMeta c m kind isa isLoaded, link]
      exact (progress.isaPlain p (progress.kind p ▸ supKind)).symm
    · obtain ⟨root, above, isRoot, same⟩ := progress.isaMeta c m kind isa isLoaded
      have rootKind := static.graphInv.ancestors_kind below kind root above
      refine ⟨root, ?_, ?_, ?_⟩
      · rw [← progress.ancestors inv kindNow (progress.nextClass ▸ below)]
        exact above
      · rw [progress.superPlain root rootKind]
        exact isRoot
      · rw [progress.isaPlain root rootKind]
        exact same
  finite c below := ⟨inv.graph.ancestors_walk below, (inv.graph.ancestors_walk below).nodup⟩
  subclassLists := inv.graph.siblings

omit static in
/-- Progress to the same set of loaded classes determines every field but the list order. -/
theorem Progress.sameLoad (inv : WorldInv image rt) (progress : Progress rt0 rt)
    (progress' : Progress rt0 rt') (loaded : ∀ c, rt.Loaded c ↔ c < rt0.nextClass)
    (loaded' : ∀ c, rt'.Loaded c ↔ c < rt0.nextClass)
    (owned : ∀ c, (rt0.classes c).isMetaclass = true → c < rt0.nextClass →
      ∃ d, (rt0.classes d).isMetaclass = false ∧ (rt0.classes d).isa = some c ∧ d < rt0.nextClass) :
    SameLoad rt rt' := by
  have same : ∀ c, rt'.Loaded c ↔ rt.Loaded c := fun c => (loaded' c).trans (loaded c).symm
  have metaLinks : ∀ c, (rt'.classes c).isa = (rt.classes c).isa ∧ rt'.superclass c = rt.superclass c := by
    intro c
    cases kind : (rt0.classes c).isMetaclass with
    | false =>
        rw [progress'.isaPlain c kind, progress.isaPlain c kind, progress'.superPlain c kind,
          progress.superPlain c kind]
        exact ⟨rfl, rfl⟩
    | true =>
        by_cases below : c < rt0.nextClass
        · obtain ⟨d, plain, isa, dBelow⟩ := owned c kind below
          have dLoaded := (loaded d).mpr dBelow
          have dLoaded' := (loaded' d).mpr dBelow
          rw [progress'.superMeta d c plain isa dLoaded', progress.superMeta d c plain isa dLoaded]
          obtain ⟨root, above, isRoot, link⟩ := progress.isaMeta d c plain isa dLoaded
          obtain ⟨root', above', isRoot', link'⟩ := progress'.isaMeta d c plain isa dLoaded'
          have kindNow : (rt.classes d).isMetaclass = false := (progress.kind d).trans plain
          have walk := inv.graph.ancestors_walk (progress.nextClass ▸ dBelow : d < rt.nextClass)
          rw [progress.ancestors inv kindNow (progress.nextClass ▸ dBelow)] at above above'
          have ends : ∀ r ∈ rt.ancestors d, rt0.superclass r = none → rt.superclass r = none := by
            intro r inside noSuper
            have plainR := inv.graph.ancestors_kind (progress.nextClass ▸ dBelow) kindNow r inside
            rw [progress.superPlain r (progress.kind r ▸ plainR)]
            exact noSuper
          have sameRoot := walk.last_unique above above' (ends root above isRoot) (ends root' above' isRoot')
          rw [link', link, sameRoot]
          exact ⟨rfl, rfl⟩
        · have fresh := progress.untouched c fun inside => below ((loaded c).mp inside)
          have fresh' := progress'.untouched c fun inside => below ((loaded' c).mp inside)
          rw [fresh'.1, fresh.1, fresh'.2.1, fresh.2.1]
          exact ⟨rfl, rfl⟩
  exact
    { isa := fun c => (metaLinks c).1
      superclass := fun c => (metaLinks c).2
      chain := fun c => by rw [progress'.chains, progress.chains, if_congr (same c) rfl rfl]
      instanceSize := fun c => by rw [progress'.size, progress.size, if_congr (same c) rfl rfl]
      info := fun c => by
        rw [progress'.info, progress.info, if_congr (and_congr_right fun _ => same c) rfl rfl]
      subclasses := fun p c => by rw [progress'.members, progress.members, same] }

/-- Every order of loading and every split into calls gives the canonical metaclass graph, and any two give the
same classes. -/
theorem loadBatches_canonical {batches : List (List (Option ClassPtr))} (covers : Covers image batches) :
    ((∀ c ∈ image, (rt0.classes c).name.toStr.isSome = true) → (loadBatches rt0 batches).isSome = true) ∧
      ∀ rt, loadBatches rt0 batches = some rt → Canonical image rt ∧
        ∀ other rt', Covers image other → loadBatches rt0 other = some rt' → SameLoad rt rt' := by
  refine ⟨loadBatches_total static covers, fun rt result => ?_⟩
  · obtain ⟨inv, progress, loaded⟩ := loadBatches_spec static covers result
    refine ⟨canonical_of_progress static inv progress loaded, fun other rt' covers' result' => ?_⟩
    obtain ⟨_, progress', loaded'⟩ := loadBatches_spec static covers' result'
    refine progress.sameLoad inv progress' loaded loaded' fun c isMeta below => ?_
    rcases static.covered c below with member | ⟨d, member, isa⟩
    · rw [(static.cls c member).1] at isMeta
      exact absurd isMeta (by simp)
    · exact ⟨d, (static.cls d member).1, isa, (static.cls d member).2⟩

end Loads

/-- A compiled root class with one instance and one class method, and an empty subclass. -/
def compiledPair : Runtime where
  cStrings ptr := [⟨⟨#[103]⟩, by decide⟩, ⟨⟨#[104]⟩, by decide⟩][ptr]?.getD .empty
  nextCString := 2
  selectors sel := [⟨some 0, none⟩, ⟨none, none⟩, ⟨some 1, none⟩][sel]?.getD ⟨none, none⟩
  nextSelector := 3
  nameTable _ := none
  selTable _ := none
  classes cls :=
    [{ ObjcClass.blank with
        isa := some 1, name := ⟨⟨#[82]⟩, by decide⟩, methodList := .compiled ⟨[⟨7, 0, none⟩]⟩ },
      { ObjcClass.blank with
        info := ClassFlags.classIsMetaclass, methodList := .compiled ⟨[⟨8, 2, none⟩]⟩ },
      { ObjcClass.blank with
        isa := some 3, superClass := some 0, name := ⟨⟨#[67]⟩, by decide⟩, instanceSize := -16 },
      { ObjcClass.blank with info := ClassFlags.classIsMetaclass }][cls]?.getD ObjcClass.blank
  nextClass := 4
  methodLists _ := ⟨none, .empty⟩
  nextMethodList := 0
  classRegistry := []

theorem compiledPair_blank {c : ClassPtr} (above : 4 ≤ c) : compiledPair.classes c = ObjcClass.blank := by
  have outside : ∀ list : List ObjcClass, list.length = 4 → list[c]?.getD ObjcClass.blank = ObjcClass.blank := by
    intro list length
    rw [List.getElem?_eq_none (length ▸ above), Option.getD_none]
  exact outside _ rfl

/-- A property of every allocated class and of blank memory holds of every class of the sample. -/
theorem compiledPair_cases (holds : ClassPtr → ObjcClass → Prop) (below : ∀ c < 4, holds c (compiledPair.classes c))
    (blank : ∀ c, holds c ObjcClass.blank) (c : ClassPtr) : holds c (compiledPair.classes c) := by
  by_cases inside : c < 4
  · exact below c inside
  · rw [compiledPair_blank (Nat.le_of_not_lt inside)]
    exact blank c

theorem compiledPair_static : StaticImage [0, 2] compiledPair where
  blank c above := compiledPair_blank above
  registry := rfl
  untouched := compiledPair_cases (fun _ cls => cls.dtable = none ∧ cls.isRegistered = false ∧
    cls.subclassList = none ∧ cls.siblingClass = none ∧ cls.methodList.head = none) (by decide) fun _ => by decide
  covered := by decide
  cls := by decide
  metaclass c member := by
    simp only [List.mem_cons, List.not_mem_nil, or_false] at member
    rcases member with rfl | rfl
    · exact ⟨1, by decide⟩
    · exact ⟨3, by decide⟩
  distinct := by decide
  closed c member p link := by
    simp only [List.mem_cons, List.not_mem_nil, or_false] at member
    rcases member with rfl | rfl
    · exact absurd link (by simp [Runtime.superclass, compiledPair, ObjcClass.blank])
    · have isRoot : some 0 = some p := link
      rw [← Option.some.inj isRoot]
      decide
  acyclic := ⟨id, fun c member p link => by
    simp only [List.mem_cons, List.not_mem_nil, or_false] at member
    rcases member with rfl | rfl
    · exact absurd link (by simp [Runtime.superclass, compiledPair, ObjcClass.blank])
    · have isRoot : some 0 = some p := link
      rw [← Option.some.inj isRoot]
      decide⟩

/-- The subclass first in a call of its own, and both in one call. -/
theorem loadBatches_canonical_compiledPair : ∃ rt rt', loadBatches compiledPair [[some 2, none], [some 0]] = some rt ∧
    loadBatches compiledPair [[some 0, some 2]] = some rt' ∧ Canonical [0, 2] rt ∧ SameLoad rt rt' := by
  have childFirst : Covers [0, 2] [[some 2, none], [some 0]] := by
    refine ⟨by decide, fun c => ?_⟩
    simp [List.reduceOption]
    tauto
  have together : Covers [0, 2] [[some 0, some 2]] := ⟨by decide, fun c => by simp [List.reduceOption]⟩
  have named : ∀ c ∈ [0, 2], (compiledPair.classes c).name.toStr.isSome = true := by decide +kernel
  obtain ⟨total, canonical⟩ := loadBatches_canonical compiledPair_static childFirst
  obtain ⟨total', _⟩ := loadBatches_canonical compiledPair_static together
  obtain ⟨rt, result⟩ := Option.isSome_iff_exists.mp (total named)
  obtain ⟨rt', result'⟩ := Option.isSome_iff_exists.mp (total' named)
  exact ⟨rt, rt', result, result', (canonical rt result).1, (canonical rt result).2 _ rt' together result'⟩

end O3jc
