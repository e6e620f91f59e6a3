import O3jc.Dispatch.Transparency

namespace O3jc

open Library

/-- The metaclass of a registered class. -/
def Runtime.IsRegisteredMeta (rt : Runtime) (metaclass : ClassPtr) : Prop :=
  ∃ c < rt.nextClass, (rt.classes c).isRegistered = true ∧ (rt.classes c).isa = some metaclass

instance (rt : Runtime) (metaclass : ClassPtr) : Decidable (rt.IsRegisteredMeta metaclass) :=
  inferInstanceAs (Decidable (∃ c < rt.nextClass, _ ∧ _))

/-- A message to any registered class object returns what the walk from its metaclass returns. -/
def ClassObjectsTransparent (rt : Runtime) : Prop :=
  ∀ cls metaclass, (rt.classes cls).isRegistered = true → rt.isaOf (.classObject cls) = some metaclass →
    ∀ sel, (objcMsgLookup rt (some (.classObject cls)) sel).2 = classLookupMethod rt metaclass sel

section Chains

variable {image : List ClassPtr} {rt rt' : Runtime}

theorem isRegisteredMeta_iff (inv : GraphInv image rt) {metaclass : ClassPtr} :
    rt.IsRegisteredMeta metaclass ↔
      ∃ c, (rt.classes c).isRegistered = true ∧ (rt.classes c).isa = some metaclass := by
  constructor
  · rintro ⟨c, _, registered, isa⟩
    exact ⟨c, registered, isa⟩
  · rintro ⟨c, registered, isa⟩
    exact ⟨c, inv.lt_of_loaded (inv.registeredClass c registered).2, registered, isa⟩

/-- The messages to class objects agree with the walk exactly when the metaclass caches are coherent. -/
theorem classObjectsTransparent_iff (inv : GraphInv image rt) :
    ClassObjectsTransparent rt ↔ ∀ metaclass, rt.IsRegisteredMeta metaclass → rt.Coherent metaclass := by
  constructor
  · intro transparent metaclass isMeta sel imp hit
    obtain ⟨c, _, registered, isa⟩ := isMeta
    rw [← transparent c metaclass registered isa sel, objcMsgLookup_result]
    have receiver : (some (ObjcPtr.classObject c)).bind rt.isaOf = some metaclass := isa
    rw [receiver, Option.bind_some, hit]
    rfl
  · intro coherent cls metaclass registered isa sel
    exact (coherent metaclass ((isRegisteredMeta_iff inv).mpr ⟨cls, registered, isa⟩)).msgLookup isa sel

/-- Every class of a metaclass chain but its last one is loaded. -/
theorem GraphInv.meta_backed (inv : GraphInv image rt) {cls metaclass : ClassPtr}
    (kind : (rt.classes cls).isMetaclass = false) (isa : (rt.classes cls).isa = some metaclass) :
    ∀ c ∈ rt.ancestors metaclass, rt.Loaded c ∨ rt.superclass c = none := by
  have owned : ∀ c ∈ rt.ancestors metaclass,
      (∃ d, (rt.classes d).isMetaclass = false ∧ (rt.classes d).isa = some c) ∨ rt.superclass c = none := by
    refine (inv.ancestors_walk (inv.isaKind cls metaclass kind isa).2).forall_mem _ (fun c same => ?_)
      fun c p here link => ?_
    · rw [Option.mem_some_iff] at same
      exact same ▸ .inl ⟨cls, kind, isa⟩
    · rcases here with ⟨d, plain, owner⟩ | ends
      · by_cases loaded : rt.Loaded d
        · cases super : rt.superclass d with
          | none =>
              rcases inv.metaRoot d c plain owner loaded super with ends | root
              · rw [ends] at link
                exact absurd link (by simp)
              · rw [root] at link
                exact .inr (Option.some.inj link ▸ super)
          | some e =>
              rw [inv.metaSuper d c e plain owner loaded super] at link
              exact .inl ⟨e, inv.superKind d e plain super, link⟩
        · rw [inv.metaUnloaded d c plain owner loaded] at link
          exact absurd link (by simp)
      · rw [ends] at link
        exact absurd link (by simp)
  intro c member
  rcases owned c member with ⟨d, plain, owner⟩ | ends
  · by_cases loaded : rt.Loaded d
    · exact .inl ((inv.pairLoaded d c plain owner).mpr loaded)
    · exact .inr (inv.metaUnloaded d c plain owner loaded)
  · exact .inr ends

/-- A construction step keeps every method that dispatch finds along a backed chain. -/
theorem Extends.lookup_found (ext : Extends rt rt') (world : WorldInv image rt) (graph : GraphInv image rt')
    {cls : ClassPtr} (below : cls < rt.nextClass)
    (backed : ∀ c ∈ rt.ancestors cls, rt.Loaded c ∨ rt.superclass c = none) {sel : SEL} {imp : IMP}
    (found : classLookupMethod rt cls sel = some imp) : classLookupMethod rt' cls sel = some imp := by
  have own : ∀ c, rt.Loaded c → rt'.ownImp c sel = rt.ownImp c sel := fun c loaded =>
    ownImp_of_entries (ext.entries c loaded) ext.selEq sel
  have chain := world.graph.ancestors_walk below
  have chain' := graph.ancestors_walk (Nat.lt_of_lt_of_le below ext.nextClass)
  rw [classLookupMethod_eq_ownImp] at found ⊢
  generalize rt.ancestors cls = walk at chain backed found
  generalize rt'.ancestors cls = walk' at chain'
  generalize some cls = start at chain chain'
  induction chain generalizing walk' with
  | nil => simp at found
  | cons c rest tail ih =>
      obtain ⟨rest', rfl, tail'⟩ := walk_some_iff.mp chain'
      rw [List.findSome?_cons] at found ⊢
      cases bound : rt.ownImp c sel with
      | some here =>
          have loaded : rt.Loaded c := by
            by_contra unloaded
            rw [world.unbound c unloaded sel] at bound
            exact absurd bound (by simp)
          rw [bound] at found
          rw [own c loaded, bound]
          exact found
      | none =>
          rw [bound] at found
          rcases backed c List.mem_cons_self with loaded | ends
          · rw [own c loaded, bound]
            rw [ext.superclass c loaded] at tail'
            exact ih (fun d member => backed d (List.mem_cons_of_mem c member)) found rest' tail'
          · rw [ends, walk_none_iff] at tail
            rw [tail] at found
            simp at found

end Chains

/-- No unflushed metaclass that dispatches to the new binding caches another IMP. -/
def Runtime.NoStaleMeta (rt : Runtime) (cls : ClassPtr) (sel : SEL) (imp : IMP) (flushed : List ClassPtr) : Prop :=
  ∀ m < rt.nextClass, rt.IsRegisteredMeta m → m ∉ flushed → rt.Reaches m cls sel →
    ∀ cached ∈ rt.cacheLookup m sel, cached = imp

instance (rt : Runtime) (cls : ClassPtr) (sel : SEL) (imp : IMP) (flushed : List ClassPtr) :
    Decidable (rt.NoStaleMeta cls sel imp flushed) :=
  inferInstanceAs (Decidable (∀ m < rt.nextClass, _ → m ∉ flushed → rt.Reaches m cls sel → ∀ cached ∈ _, _ = imp))

/-- The calls of a program that changes registered classes and their metaclasses and messages both. -/
def ClassOp.ClassSide (image : List ClassPtr) (rt : Runtime) (op : ClassOp) : Prop :=
  op.Permitted image rt ∧
    match op with
    | .addMethod cls _ _ _ => (rt.classes cls).isRegistered = true ∨ rt.IsRegisteredMeta cls
    | .replaceMethod cls _ _ _ => (rt.classes cls).isRegistered = true ∨ rt.IsRegisteredMeta cls
    | .exchangeImplementations _ _ => False
    | .msgLookup receiver _ => ∀ c ∈ receiver.bind rt.isaOf,
        (rt.classes c).isRegistered = true ∨ rt.IsRegisteredMeta c
    | _ => True

instance (image : List ClassPtr) (rt : Runtime) (op : ClassOp) : Decidable (op.ClassSide image rt) :=
  match op with
  | .allocateClassPair _ _ => inferInstanceAs (Decidable (_ ∧ True))
  | .registerClassPair _ => inferInstanceAs (Decidable (_ ∧ True))
  | .addMethod _ _ _ _ => inferInstanceAs (Decidable (_ ∧ (_ = true ∨ rt.IsRegisteredMeta _)))
  | .replaceMethod _ _ _ _ => inferInstanceAs (Decidable (_ ∧ (_ = true ∨ rt.IsRegisteredMeta _)))
  | .exchangeImplementations _ _ => inferInstanceAs (Decidable (_ ∧ False))
  | .loadClasses _ => inferInstanceAs (Decidable (_ ∧ True))
  | .msgLookup _ _ => inferInstanceAs (Decidable (_ ∧ ∀ c ∈ _, _ = true ∨ rt.IsRegisteredMeta c))

/-- The condition under which an added or replaced method leaves no metaclass cache behind. -/
def ClassOp.FlushesMeta (rt : Runtime) : ClassOp → Prop
  | .addMethod cls sel imp _ =>
      (rt.ownMethod cls sel).isNone = true → rt.NoStaleMeta cls sel imp (addFlushes rt cls)
  | .replaceMethod cls sel imp _ => rt.NoStaleMeta cls sel imp (replaceFlushes rt cls sel)
  | _ => True

instance (rt : Runtime) (op : ClassOp) : Decidable (op.FlushesMeta rt) :=
  match op with
  | .allocateClassPair _ _ => inferInstanceAs (Decidable True)
  | .registerClassPair _ => inferInstanceAs (Decidable True)
  | .addMethod _ _ _ _ => inferInstanceAs (Decidable (_ = true → rt.NoStaleMeta _ _ _ _))
  | .replaceMethod _ _ _ _ => inferInstanceAs (Decidable (rt.NoStaleMeta _ _ _ _))
  | .exchangeImplementations _ _ => inferInstanceAs (Decidable True)
  | .loadClasses _ => inferInstanceAs (Decidable True)
  | .msgLookup _ _ => inferInstanceAs (Decidable True)

/-- The metaclass caches agree with the walk, and an unregistered class has an empty one. -/
structure MetaInv (image : List ClassPtr) (rt : Runtime) : Prop where
  world : WorldInv image rt
  empty : ∀ c m, (rt.classes c).isMetaclass = false → (rt.classes c).isRegistered = false →
    (rt.classes c).isa = some m → ∀ sel, rt.cacheLookup m sel = none
  coherent : ∀ m, rt.IsRegisteredMeta m → rt.Coherent m

theorem cacheLookup_congr {rt : Runtime} {a b : SEL} (same : selEq rt a b = true) (cls : ClassPtr) :
    rt.cacheLookup cls a = rt.cacheLookup cls b := by
  simp only [Runtime.cacheLookup, CacheInner.lookup, selEq_congr_right same]

theorem reaches_congr {rt : Runtime} {a b : SEL} (same : selEq rt a b = true) (cls owner : ClassPtr) :
    rt.Reaches cls owner a ↔ rt.Reaches cls owner b := by
  simp only [Runtime.Reaches, Runtime.ownImp, ownMethod_congr same]

section MetaSteps

variable {image : List ClassPtr} {rt rt' : Runtime} (inv : MetaInv image rt)

/-- A class that a construction step loads brings its own metaclass. -/
def FreshPairs (rt rt' : Runtime) : Prop :=
  ∀ c m, ¬ rt.Loaded c → (rt'.classes c).isMetaclass = false → (rt'.classes c).isa = some m → ¬ rt.Loaded m

include inv

theorem MetaInv.of_extends (world : WorldInv image rt') (ext : Extends rt rt') (pairs : FreshPairs rt rt') :
    MetaInv image rt' := by
  -- The metaclass of a class that was not registered before still has an empty cache.
  have unfilled : ∀ c m, (rt'.classes c).isMetaclass = false → (rt.classes c).isRegistered = false →
      (rt'.classes c).isa = some m → ∀ sel, rt'.cacheLookup m sel = none := by
    intro c m kind unregistered isa sel
    by_cases loaded : rt.Loaded c
    · rw [ext.isMetaclass c loaded] at kind
      rw [ext.isa c loaded] at isa
      rw [cacheLookup_of_extends ext ((inv.world.graph.pairLoaded c m kind isa).mpr loaded)]
      exact inv.empty c m kind unregistered isa sel
    · exact cacheLookup_of_fresh ext (pairs c m loaded kind isa) sel
  refine ⟨world, fun c m kind unregistered isa sel => unfilled c m kind ?_ isa sel, fun m isMeta => ?_⟩
  · by_contra registered
    rw [Bool.not_eq_false] at registered
    rw [ext.registered c registered] at unregistered
    exact absurd unregistered (by simp)
  · obtain ⟨c, _, registered, isa⟩ := isMeta
    cases before : (rt.classes c).isRegistered with
    | false => exact coherent_of_misses (unfilled c m (world.graph.registeredClass c registered).1 before isa)
    | true =>
        obtain ⟨kind, loaded⟩ := inv.world.graph.registeredClass c before
        rw [ext.isa c loaded] at isa
        have metaLoaded := (inv.world.graph.pairLoaded c m kind isa).mpr loaded
        intro sel imp hit
        rw [cacheLookup_of_extends ext metaLoaded] at hit
        exact ext.lookup_found inv.world world.graph (inv.world.graph.lt_of_loaded metaLoaded)
          (inv.world.graph.meta_backed kind isa)
          (inv.coherent m ((isRegisteredMeta_iff inv.world.graph).mpr ⟨c, before, isa⟩) sel imp hit)

omit inv in
theorem isRegisteredMeta_of_same (same : SameGraph rt rt') (m : ClassPtr) :
    rt'.IsRegisteredMeta m ↔ rt.IsRegisteredMeta m := by
  simp only [Runtime.IsRegisteredMeta, same.nextClass, same.isRegistered, same.isa]

/-- A binding keeps the metaclass caches coherent exactly under the condition. -/
theorem MetaInv.coherent_of_binds_iff {cls : ClassPtr} {sel : SEL} {imp : IMP} {flushed : List ClassPtr}
    (binds : Binds rt rt' cls sel imp flushed) :
    (∀ m, rt'.IsRegisteredMeta m → rt'.Coherent m) ↔ rt.NoStaleMeta cls sel imp flushed := by
  constructor
  · intro coherent m _ isMeta outside reaches cached hit
    have fresh := coherent m ((isRegisteredMeta_of_same binds.graph m).mpr isMeta) sel cached
      ((binds.cacheLookup outside sel).trans hit)
    rw [binds.lookup, if_pos ⟨selEq_self rt sel, reaches⟩] at fresh
    exact (Option.some.inj fresh).symm
  · intro condition m isMeta
    rw [isRegisteredMeta_of_same binds.graph] at isMeta
    by_cases inside : m ∈ flushed
    · exact coherent_of_misses (binds.misses inside)
    · intro s i hit
      rw [binds.cacheLookup inside] at hit
      rw [binds.lookup]
      split
      · rename_i both
        obtain ⟨c, below, registered, isa⟩ := isMeta
        have metaBelow := (inv.world.graph.isaKind c m (inv.world.graph.registeredClass c registered).1 isa).2
        rw [← cacheLookup_congr both.1] at hit
        rw [condition m metaBelow ⟨c, below, registered, isa⟩ inside ((reaches_congr both.1 m cls).mpr both.2)
          i hit]
      · exact inv.coherent m isMeta s i hit

theorem MetaInv.of_binds {cls : ClassPtr} {sel : SEL} {imp : IMP} {flushed : List ClassPtr}
    (loaded : rt.Loaded cls) (binds : Binds rt rt' cls sel imp flushed)
    (condition : rt.NoStaleMeta cls sel imp flushed) : MetaInv image rt' where
  world := inv.world.of_binds loaded binds
  empty c m kind unregistered isa s := by
    rw [binds.graph.isMetaclass] at kind
    rw [binds.graph.isRegistered] at unregistered
    rw [binds.graph.isa] at isa
    by_cases inside : m ∈ flushed
    · exact binds.misses inside s
    · rw [binds.cacheLookup inside]
      exact inv.empty c m kind unregistered isa s
  coherent := (inv.coherent_of_binds_iff binds).mpr condition

theorem MetaInv.of_msgLookup {receiver : Option ObjcPtr} {sel : SEL}
    (known : ∀ c ∈ receiver.bind rt.isaOf, (rt.classes c).isRegistered = true ∨ rt.IsRegisteredMeta c) :
    MetaInv image (objcMsgLookup rt receiver sel).1 := by
  rcases objcMsgLookup_state rt receiver sel with same | ⟨cls, imp, receiverIsa, _, found, filled⟩
  · rw [same]
    exact inv
  · rw [filled]
    have graph := cacheInsert_sameGraph rt cls sel imp
    refine ⟨inv.world.of_same graph (cacheInsert_sameMethods rt cls sel imp),
      fun c m kind unregistered isa s => ?_, fun m isMeta => ?_⟩
    · rw [graph.isMetaclass] at kind
      rw [graph.isRegistered] at unregistered
      rw [graph.isa] at isa
      cases hit : (rt.cacheInsert cls sel imp).cacheLookup m s with
      | none => rfl
      | some other =>
          rcases cacheLookup_cacheInsert hit with old | ⟨same, _⟩
          · rw [inv.empty c m kind unregistered isa s] at old
            exact absurd old (by simp)
          · -- The receiver's class is neither an ordinary class nor the metaclass of another class.
            rcases known cls receiverIsa with registered | ⟨d, _, registered, owner⟩
            · have plain := (inv.world.graph.registeredClass cls registered).1
              rw [← same, (inv.world.graph.isaKind c m kind isa).1] at plain
              exact absurd plain (by simp)
            · obtain ⟨plain, _⟩ := inv.world.graph.registeredClass d registered
              rw [inv.world.graph.isaInj c d m kind plain isa (same ▸ owner), registered] at unregistered
              exact absurd unregistered (by simp)
    · rw [isRegisteredMeta_of_same graph] at isMeta
      exact (inv.coherent m isMeta).cacheInsert found

end MetaSteps

theorem Allocated.freshPairs {image : List ClassPtr} {rt rt' : Runtime} {superclass : Option ClassPtr} {name : CStr}
    (step : Allocated rt rt' superclass name) (inv : GraphInv image rt) : FreshPairs rt rt' := by
  intro c m unloaded kind isa
  rcases step.isa_cases kind isa with ⟨_, rfl⟩ | ⟨_, kind, isa⟩
  · exact fun loaded => Nat.lt_irrefl _ (inv.lt_of_loaded loaded)
  · exact fun loaded => unloaded ((inv.pairLoaded c m kind isa).mp loaded)

/-- A step that keeps the flags and the class links of ordinary classes keeps the pairs. -/
theorem freshPairs_of_same {image : List ClassPtr} {rt rt' : Runtime} (inv : GraphInv image rt)
    (kinds : ∀ c, (rt'.classes c).isMetaclass = (rt.classes c).isMetaclass)
    (isas : ∀ c, (rt.classes c).isMetaclass = false → (rt'.classes c).isa = (rt.classes c).isa) :
    FreshPairs rt rt' := by
  intro c m unloaded kind isa
  rw [kinds] at kind
  rw [isas c kind] at isa
  exact fun loaded => unloaded ((inv.pairLoaded c m kind isa).mp loaded)

/-- The construction calls keep the metaclass caches coherent without any condition. -/
theorem MetaInv.build {image : List ClassPtr} {rt rt' : Runtime} (inv : MetaInv image rt) {op : ClassOp}
    (permitted : op.Permitted image rt) (result : op.exec rt = some rt')
    (builds : (∃ superclass name, op = .allocateClassPair superclass name) ∨
      (∃ cls, op = .registerClassPair cls) ∨ ∃ classPtrs, op = .loadClasses classPtrs) :
    MetaInv image rt' := by
  rcases builds with ⟨superclass, name, rfl⟩ | ⟨cls, rfl⟩ | ⟨classPtrs, rfl⟩
  · obtain ⟨⟨_, cls⟩, allocated, rfl⟩ := Option.map_eq_some_iff.mp result
    obtain ⟨world, ext, step⟩ := allocate_world inv.world permitted allocated
    exact inv.of_extends world ext (step.freshPairs inv.world.graph)
  · obtain ⟨world, ext, name, step⟩ := register_world inv.world permitted.1 permitted.2 result
    exact inv.of_extends world ext (freshPairs_of_same inv.world.graph step.isMetaclass fun c _ => step.isa c)
  · obtain ⟨world, ext, loads⟩ := loadClasses_world inv.world permitted result
    exact inv.of_extends world ext (freshPairs_of_same inv.world.graph loads.kind loads.isa)

theorem StaticImage.metaInv {image : List ClassPtr} {rt : Runtime} (start : StaticImage image rt) :
    MetaInv image rt where
  world := start.worldInv
  empty c m _ _ _ sel := by
    rw [Runtime.cacheLookup, (start.untouched m).1]
    rfl
  coherent m isMeta := by
    obtain ⟨c, _, registered, _⟩ := isMeta
    rw [(start.untouched c).2.1] at registered
    exact absurd registered (by simp)

/-- The calls that add a method successfully or replace one. -/
def ClassOp.ChangesMethod (rt : Runtime) : ClassOp → Prop
  | .addMethod cls sel imp types => (classAddMethod rt cls sel imp types).2 = true
  | .replaceMethod _ _ _ _ => True
  | _ => False

section MetaRuns

variable {image : List ClassPtr} {rt rt' : Runtime} (inv : MetaInv image rt) {op : ClassOp}

include inv

/-- A successful add or a replace is a binding, and the condition is about that binding. -/
theorem MetaInv.binds_of_change (changes : op.ChangesMethod rt) (result : op.exec rt = some rt') :
    ∃ cls sel imp flushed, Binds rt rt' cls sel imp flushed ∧ (op.Permitted image rt → rt.Loaded cls) ∧
      (op.FlushesMeta rt ↔ rt.NoStaleMeta cls sel imp flushed) := by
  cases op with
  | addMethod cls sel imp types =>
      obtain rfl := Option.some.inj result
      cases bound : rt.ownMethod cls sel with
      | some entry =>
          rw [ClassOp.ChangesMethod, classAddMethod_of_bound cls sel imp types (by rw [bound]; rfl)] at changes
          exact absurd changes (by simp)
      | none =>
          refine ⟨cls, sel, imp, addFlushes rt cls,
            (classAddMethod_of_unbound inv.world.chain cls sel imp types bound).2, id, ?_⟩
          rw [ClassOp.FlushesMeta, bound]
          simp
  | replaceMethod cls sel imp types =>
      obtain rfl := Option.some.inj result
      exact ⟨cls, sel, imp, replaceFlushes rt cls sel,
        classReplaceMethod_binds inv.world.chain cls sel imp types, id, Iff.rfl⟩
  | allocateClassPair superclass name => exact changes.elim
  | registerClassPair cls => exact changes.elim
  | exchangeImplementations m1 m2 => exact changes.elim
  | loadClasses classPtrs => exact changes.elim
  | msgLookup receiver sel => exact changes.elim

/-- Every call of the class side that meets the condition keeps the metaclass caches coherent. -/
theorem MetaInv.step (allowed : op.ClassSide image rt) (condition : op.FlushesMeta rt)
    (result : op.exec rt = some rt') : MetaInv image rt' := by
  obtain ⟨permitted, side⟩ := allowed
  cases op with
  | allocateClassPair superclass name => exact inv.build permitted result (.inl ⟨superclass, name, rfl⟩)
  | registerClassPair cls => exact inv.build permitted result (.inr (.inl ⟨cls, rfl⟩))
  | loadClasses classPtrs => exact inv.build permitted result (.inr (.inr ⟨classPtrs, rfl⟩))
  | exchangeImplementations m1 m2 => exact side.elim
  | msgLookup receiver sel =>
      obtain rfl := Option.some.inj result
      exact inv.of_msgLookup side
  | addMethod cls sel imp types =>
      by_cases changes : (ClassOp.addMethod cls sel imp types).ChangesMethod rt
      · obtain ⟨cls', sel', imp', flushed, binds, loaded, same⟩ := inv.binds_of_change changes result
        exact inv.of_binds (loaded permitted) binds (same.mp condition)
      · -- An add that returns false changes nothing.
        obtain rfl := Option.some.inj result
        cases bound : rt.ownMethod cls sel with
        | some entry =>
            rw [classAddMethod_of_bound cls sel imp types (by rw [bound]; rfl)]
            exact inv
        | none => exact absurd (classAddMethod_of_unbound inv.world.chain cls sel imp types bound).1 changes
  | replaceMethod cls sel imp types =>
      have changes : (ClassOp.replaceMethod cls sel imp types).ChangesMethod rt := trivial
      obtain ⟨cls', sel', imp', flushed, binds, loaded, same⟩ := inv.binds_of_change changes result
      exact inv.of_binds (loaded permitted) binds (same.mp condition)

end MetaRuns

/-- A run whose adds and replaces leave no metaclass cache behind keeps every class object transparent, and one
more add or replace keeps it so exactly under the same condition. -/
theorem classObjects_transparent {image : List ClassPtr} {start rt : Runtime} (static : StaticImage image start)
    (run : Reachable ClassOp.exec (fun rt op => op.ClassSide image rt ∧ op.FlushesMeta rt) start rt) :
    ClassObjectsTransparent rt ∧ ∀ (op : ClassOp) rt', op.ClassSide image rt → op.ChangesMethod rt →
      op.exec rt = some rt' → (ClassObjectsTransparent rt' ↔ op.FlushesMeta rt) := by
  have inv : MetaInv image rt := run.invariant (MetaInv image) static.metaInv
    fun _ _ _ inv allowed result => inv.step allowed.1 allowed.2 result
  refine ⟨(classObjectsTransparent_iff inv.world.graph).mpr inv.coherent, fun op rt' allowed changes result => ?_⟩
  obtain ⟨cls, sel, imp, flushed, binds, _, same⟩ := inv.binds_of_change changes result
  rw [classObjectsTransparent_iff (inv.world.graph.of_same binds.graph), inv.coherent_of_binds_iff binds, same]

/-- A class method is cached for the class, and the replacement flushes the class's own metaclass. -/
theorem classObjects_transparent_replaced : ∃ rt, rt.cacheLookup 0 5 = some 9 ∧ ClassObjectsTransparent rt := by
  have ran : ∃ rt ∈ replay ClassOp.exec (fun rt op => ClassOp.ClassSide [] rt op ∧ op.FlushesMeta rt) Runtime.empty
      [.allocateClassPair none ⟨⟨#[65]⟩, by decide⟩, .registerClassPair 1, .addMethod 0 5 7 none,
        .msgLookup (some (.classObject 1)) 5, .replaceMethod 0 5 9 none, .msgLookup (some (.classObject 1)) 5],
      rt.cacheLookup 0 5 = some 9 := by decide +kernel
  obtain ⟨rt, run, hit⟩ := exists_reachable_of_replay ran
  exact ⟨rt, hit, (classObjects_transparent Runtime.empty_static run).1⟩

/-- A subclass's metaclass keeps an inherited class method that its owner has replaced. -/
theorem classReplaceMethod_staleMetaclass : ∃ rt rt',
    Reachable ClassOp.exec (ClassOp.ClassSide []) Runtime.empty rt ∧
      (ClassOp.replaceMethod 0 5 9 none).ClassSide [] rt ∧
      (ClassOp.replaceMethod 0 5 9 none).exec rt = some rt' ∧ ¬ ClassObjectsTransparent rt' := by
  have ran : ∃ rt ∈ replay ClassOp.exec (ClassOp.ClassSide []) Runtime.empty
      [.allocateClassPair none ⟨⟨#[65]⟩, by decide⟩, .registerClassPair 1, .addMethod 0 5 7 none,
        .allocateClassPair (some 1) ⟨⟨#[66]⟩, by decide⟩, .registerClassPair 3,
        .msgLookup (some (.classObject 3)) 5],
      (ClassOp.replaceMethod 0 5 9 none).ClassSide [] rt ∧
        ((classReplaceMethod rt 0 5 9 none).1.classes 3).isRegistered = true ∧
        (classReplaceMethod rt 0 5 9 none).1.isaOf (.classObject 3) = some 2 ∧
        (objcMsgLookup (classReplaceMethod rt 0 5 9 none).1 (some (.classObject 3)) 5).2 = some 7 ∧
        classLookupMethod (classReplaceMethod rt 0 5 9 none).1 2 5 = some 9 := by decide +kernel
  obtain ⟨rt, run, allowed, registered, isa, cached, walked⟩ := exists_reachable_of_replay ran
  refine ⟨rt, (classReplaceMethod rt 0 5 9 none).1, run, allowed, rfl, fun transparent => ?_⟩
  have same := transparent 3 2 registered isa 5
  rw [cached, walked] at same
  exact absurd same (by decide)

end O3jc
