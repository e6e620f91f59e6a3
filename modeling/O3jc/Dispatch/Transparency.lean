import O3jc.Dispatch.Cache

namespace O3jc

open Library

/-- A binding is dispatched to from a class when its owner is the first class of the chain that binds the
selector. -/
def Runtime.Reaches (rt : Runtime) (cls owner : ClassPtr) (sel : SEL) : Prop :=
  (rt.ancestors cls).find? (fun c => c == owner || (rt.ownImp c sel).isSome) = some owner

instance (rt : Runtime) (cls owner : ClassPtr) (sel : SEL) : Decidable (rt.Reaches cls owner sel) :=
  inferInstanceAs (Decidable (_ = _))

/-- Changing the answer of one element changes a first match exactly where that element is reached. -/
theorem findSome_of_change (chain : List ClassPtr) (old new : ClassPtr → Option IMP) {owner : ClassPtr} {imp : IMP}
    (here : new owner = some imp) (others : ∀ c, c ≠ owner → new c = old c) :
    chain.findSome? new =
      if chain.find? (fun c => c == owner || (old c).isSome) = some owner then some imp
      else chain.findSome? old := by
  induction chain with
  | nil => rfl
  | cons c rest ih =>
      rw [List.findSome?_cons, List.findSome?_cons, List.find?_cons]
      by_cases same : c = owner
      · subst same
        simp [here]
      · have apart : (c == owner) = false := beq_eq_false_iff_ne.mpr same
        rw [others c same, apart, Bool.false_or]
        cases bound : old c with
        | none => simpa using ih
        | some imp' => simp [same]

/-- A binding changes dispatch exactly where it is reached under its own selector. -/
theorem Binds.lookup {rt rt' : Runtime} {cls : ClassPtr} {sel : SEL} {imp : IMP} {flushed : List ClassPtr}
    (binds : Binds rt rt' cls sel imp flushed) (c : ClassPtr) (s : SEL) :
    classLookupMethod rt' c s =
      if selEq rt sel s = true ∧ rt.Reaches c cls s then some imp else classLookupMethod rt c s := by
  rw [classLookupMethod_eq_ownImp, classLookupMethod_eq_ownImp, binds.graph.ancestors]
  by_cases eq : selEq rt sel s = true
  · have here : rt'.ownImp cls s = some imp := by rw [binds.own, if_pos ⟨rfl, eq⟩]
    have others : ∀ d, d ≠ cls → rt'.ownImp d s = rt.ownImp d s := fun d different => by
      rw [binds.own, if_neg fun both => different both.1]
    rw [findSome_of_change (rt.ancestors c) (fun d => rt.ownImp d s) (fun d => rt'.ownImp d s) here others]
    simp only [eq, true_and, Runtime.Reaches]
  · rw [if_neg fun both => eq both.1]
    have own : (fun d => rt'.ownImp d s) = fun d => rt.ownImp d s := by
      funext d
      rw [binds.own, if_neg fun both => eq both.2]
    rw [own]

theorem Runtime.Reaches.mem {rt : Runtime} {cls owner : ClassPtr} {sel : SEL} (reaches : rt.Reaches cls owner sel) :
    owner ∈ rt.ancestors cls := List.mem_of_find?_eq_some reaches

/-- The cache of a class outside the flushed list is unchanged by a binding. -/
theorem Binds.cacheLookup {rt rt' : Runtime} {cls : ClassPtr} {sel : SEL} {imp : IMP} {flushed : List ClassPtr}
    (binds : Binds rt rt' cls sel imp flushed) {c : ClassPtr} (outside : c ∉ flushed) (s : SEL) :
    rt'.cacheLookup c s = rt.cacheLookup c s :=
  cacheLookup_of_same binds.graph (by rw [binds.caches, if_neg outside]) s

theorem Binds.misses {rt rt' : Runtime} {cls : ClassPtr} {sel : SEL} {imp : IMP} {flushed : List ClassPtr}
    (binds : Binds rt rt' cls sel imp flushed) {c : ClassPtr} (inside : c ∈ flushed) (s : SEL) :
    rt'.cacheLookup c s = none :=
  cacheLookup_of_flushed rt (by rw [binds.caches, if_pos inside]) s

/-- Registered classes have pairwise distinct names. -/
def DistinctNames (rt : Runtime) : Prop :=
  ∀ c d, (rt.classes c).isRegistered = true → (rt.classes d).isRegistered = true →
    (rt.classes c).name.toStr = (rt.classes d).name.toStr → c = d

/-- The live handle points into a method list of an ordinary class. -/
def OwnedByClass (rt : Runtime) (method : Method) : Prop :=
  ∃ c < rt.nextClass, (rt.classes c).isMetaclass = false ∧ method.list ∈ rt.nodesOf c

instance (rt : Runtime) (method : Method) : Decidable (OwnedByClass rt method) :=
  inferInstanceAs (Decidable (∃ c < rt.nextClass, _ ∧ _))

/-- Each list contains the superclasses of its members or comes after them. -/
def LoadOrder (rt : Runtime) (classPtrs : List (Option ClassPtr)) : Prop :=
  ∀ c ∈ classPtrs.reduceOption, ∀ p ∈ rt.superclass c, p ∈ classPtrs.reduceOption ∨ rt.Loaded p

instance (rt : Runtime) (classPtrs : List (Option ClassPtr)) : Decidable (LoadOrder rt classPtrs) :=
  inferInstanceAs (Decidable (∀ c ∈ _, ∀ p ∈ rt.superclass c, p ∈ _ ∨ rt.Loaded p))

/-- The list of a load has the property. -/
def ClassOp.Loads (holds : List (Option ClassPtr) → Prop) : ClassOp → Prop
  | .loadClasses classPtrs => holds classPtrs
  | _ => True

instance (holds : List (Option ClassPtr) → Prop) [DecidablePred holds] (op : ClassOp) : Decidable (op.Loads holds) :=
  match op with
  | .loadClasses _ => inferInstanceAs (Decidable (holds _))
  | .allocateClassPair _ _ => inferInstanceAs (Decidable True)
  | .registerClassPair _ => inferInstanceAs (Decidable True)
  | .addMethod _ _ _ _ => inferInstanceAs (Decidable True)
  | .replaceMethod _ _ _ _ => inferInstanceAs (Decidable True)
  | .exchangeImplementations _ _ => inferInstanceAs (Decidable True)
  | .msgLookup _ _ => inferInstanceAs (Decidable True)

/-- A completed load leaves no loaded class above an unloaded one. -/
abbrev ClassOp.LoadsSupers (rt : Runtime) (op : ClassOp) : Prop := op.Loads (LoadOrder rt)

/-- The calls of a program that changes ordinary classes and messages their instances. -/
def ClassOp.InstanceSide (image : List ClassPtr) (rt : Runtime) (op : ClassOp) : Prop :=
  op.Permitted image rt ∧
    match op with
    | .addMethod cls _ _ _ => (rt.classes cls).isMetaclass = false
    | .replaceMethod cls _ _ _ => (rt.classes cls).isMetaclass = false
    | .exchangeImplementations m1 m2 => OwnedByClass rt m1 ∧ OwnedByClass rt m2
    | .loadClasses classPtrs => LoadOrder rt classPtrs
    | .msgLookup receiver _ => ∀ c ∈ receiver.bind rt.isaOf, (rt.classes c).isRegistered = true
    | _ => True

instance (image : List ClassPtr) (rt : Runtime) (op : ClassOp) : Decidable (op.InstanceSide image rt) :=
  match op with
  | .allocateClassPair _ _ => inferInstanceAs (Decidable (_ ∧ True))
  | .registerClassPair _ => inferInstanceAs (Decidable (_ ∧ True))
  | .addMethod _ _ _ _ => inferInstanceAs (Decidable (_ ∧ _ = false))
  | .replaceMethod _ _ _ _ => inferInstanceAs (Decidable (_ ∧ _ = false))
  | .exchangeImplementations _ _ => inferInstanceAs (Decidable (_ ∧ OwnedByClass rt _ ∧ OwnedByClass rt _))
  | .loadClasses _ => inferInstanceAs (Decidable (_ ∧ LoadOrder rt _))
  | .msgLookup _ _ => inferInstanceAs (Decidable (_ ∧ ∀ c ∈ _, _ = true))

/-- The superclass of every loaded class is loaded. -/
structure ClosedWorld (image : List ClassPtr) (rt : Runtime) : Prop where
  world : WorldInv image rt
  closed : ∀ c p, (rt.classes c).isMetaclass = false → rt.Loaded c → rt.superclass c = some p → rt.Loaded p

/-- The caches of ordinary classes agree with the walk once names are distinct. -/
structure InstanceInv (image : List ClassPtr) (rt : Runtime) : Prop extends ClosedWorld image rt where
  empty : ∀ c, (rt.classes c).isMetaclass = false → (rt.classes c).isRegistered = false →
    ∀ sel, rt.cacheLookup c sel = none
  coherent : DistinctNames rt → ∀ c, (rt.classes c).isRegistered = true → rt.Coherent c

section Closed

variable {image : List ClassPtr} {rt rt' : Runtime} (inv : ClosedWorld image rt)

include inv

/-- The whole superclass chain of a loaded class is loaded. -/
theorem ClosedWorld.ready {cls : ClassPtr} (kind : (rt.classes cls).isMetaclass = false) (loaded : rt.Loaded cls) :
    rt.Ready cls := by
  have below := inv.world.graph.lt_of_loaded loaded
  refine fun c member => ((inv.world.graph.ancestors_walk below).forall_mem
    (fun c => (rt.classes c).isMetaclass = false ∧ rt.Loaded c) (fun c same => ?_) (fun c p here link => ?_)
    c member).2
  · rw [Option.mem_some_iff] at same
    exact same ▸ ⟨kind, loaded⟩
  · exact ⟨inv.world.graph.superKind c p here.1 link, inv.closed c p here.1 here.2 link⟩

theorem ClosedWorld.registered_ready {cls : ClassPtr} (registered : (rt.classes cls).isRegistered = true) :
    rt.Ready cls ∧ cls < rt.nextClass := by
  obtain ⟨kind, loaded⟩ := inv.world.graph.registeredClass cls registered
  exact ⟨inv.ready kind loaded, inv.world.graph.lt_of_loaded loaded⟩

/-- Every superclass of a registered class is registered. -/
theorem ClosedWorld.ancestors_registered {cls : ClassPtr} (registered : (rt.classes cls).isRegistered = true) :
    ∀ c ∈ rt.ancestors cls, (rt.classes c).isRegistered = true := by
  obtain ⟨kind, loaded⟩ := inv.world.graph.registeredClass cls registered
  refine (inv.world.graph.ancestors_walk (inv.world.graph.lt_of_loaded loaded)).forall_mem
    (fun c => (rt.classes c).isRegistered = true) (fun c same => ?_) fun c p here link => ?_
  · rw [Option.mem_some_iff] at same
    exact same ▸ registered
  · obtain ⟨kind', loaded'⟩ := inv.world.graph.registeredClass c here
    exact inv.world.graph.superRegistered c p kind' link (inv.closed c p kind' loaded' link)

/-- The subclass tree below a registered class contains every registered class that reaches it. -/
theorem ClosedWorld.mem_flushOrder {cls owner : ClassPtr} (registered : (rt.classes cls).isRegistered = true)
    (above : owner ∈ rt.ancestors cls) : cls ∈ flushOrder rt owner := by
  obtain ⟨isReady, below⟩ := inv.registered_ready registered
  exact inv.world.graph.mem_flushOrder below (inv.world.graph.registeredClass cls registered).1 isReady above

theorem ClosedWorld.of_same (graph : SameGraph rt rt') (world : WorldInv image rt') : ClosedWorld image rt' where
  world := world
  closed c p := by
    rw [graph.isMetaclass, graph.superclass, graph.loaded_iff, graph.loaded_iff]
    exact inv.closed c p

/-- An allocation takes a registered superclass, and a completed load brings the superclasses of its members. -/
theorem ClosedWorld.step {op : ClassOp} (allowed : op.Permitted image rt) (supers : op.LoadsSupers rt)
    (result : op.exec rt = some rt') : ClosedWorld image rt' := by
  have world := inv.world.step allowed result
  cases inv.world.graphStep allowed result with
  | allocated known step =>
      refine ⟨world, fun c p kind loaded link => ?_⟩
      have kept : ∀ q, rt.Loaded q → rt'.Loaded q := fun q old =>
        (step.loaded_old (Runtime.notFresh_of_lt (inv.world.graph.lt_of_loaded old))).mpr old
      rcases step.superclass_cases kind link with ⟨_, isSup⟩ | ⟨old, kind, link⟩
      · exact kept p (inv.world.graph.registeredClass p (known p isSup)).2
      · exact kept p (inv.closed c p kind ((step.loaded_old old).mp loaded) link)
  | registered step =>
      refine ⟨world, fun c p => ?_⟩
      rw [step.isMetaclass, step.superclass, step.loaded, step.loaded]
      exact inv.closed c p
  | same graph => exact inv.of_same graph world
  | loaded loadable loads =>
      obtain ⟨_, ext, loads⟩ := loadClasses_world inv.world loadable loads
      refine ⟨world, fun c p kind loaded link => ?_⟩
      rw [loads.kind] at kind
      rw [loads.superclass c kind] at link
      rcases (loads.loaded c kind).mp loaded with member | old
      · exact (loads.loaded p (inv.world.graph.superKind c p kind link)).mpr (supers c member p link)
      · exact ext.loaded p (inv.closed c p kind old link)

end Closed

section InstanceSteps

variable {image : List ClassPtr} {rt rt' : Runtime} (inv : InstanceInv image rt)

include inv

/-- A construction step keeps the caches of registered classes coherent. -/
theorem InstanceInv.of_extends (closed : ClosedWorld image rt') (ext : Extends rt rt')
    (fresh : ∀ c, (rt'.classes c).isRegistered = true → (rt.classes c).isRegistered = true ∨
      ∀ sel, rt'.cacheLookup c sel = none) : InstanceInv image rt' where
  toClosedWorld := closed
  empty c kind unregistered sel := by
    by_cases old : rt.Loaded c
    · rw [cacheLookup_of_extends ext old]
      rw [ext.isMetaclass c old] at kind
      refine inv.empty c kind ?_ sel
      by_contra registered
      rw [Bool.not_eq_false] at registered
      rw [ext.registered c registered] at unregistered
      exact absurd unregistered (by simp)
    · exact cacheLookup_of_fresh ext old sel
  coherent distinct c registered := by
    rcases fresh c registered with old | misses
    · have distinct' : DistinctNames rt := by
        intro a b aRegistered bRegistered same
        refine distinct a b (ext.registered a aRegistered) (ext.registered b bRegistered) ?_
        rw [ext.name a (inv.world.graph.registeredClass a aRegistered).2,
          ext.name b (inv.world.graph.registeredClass b bRegistered).2]
        exact same
      obtain ⟨isReady, below⟩ := inv.registered_ready old
      intro sel imp hit
      rw [cacheLookup_of_extends ext (inv.world.graph.registeredClass c old).2] at hit
      rw [ext.lookup inv.world.graph below isReady]
      exact inv.coherent distinct' c old sel imp hit
    · exact coherent_of_misses misses

/-- A mutation of an ordinary class flushes every cache that its binding is reached from. -/
theorem InstanceInv.of_binds {cls : ClassPtr} {sel : SEL} {imp : IMP} {flushed : List ClassPtr}
    (loaded : rt.Loaded cls) (binds : Binds rt rt' cls sel imp flushed)
    (covers : (rt.classes cls).isRegistered = true → flushed = flushOrder rt cls) : InstanceInv image rt' where
  toClosedWorld := inv.toClosedWorld.of_same binds.graph (inv.world.of_binds loaded binds)
  empty c kind' unregistered s := by
    rw [binds.graph.isMetaclass] at kind'
    rw [binds.graph.isRegistered] at unregistered
    by_cases inside : c ∈ flushed
    · exact binds.misses inside s
    · rw [binds.cacheLookup inside]
      exact inv.empty c kind' unregistered s
  coherent distinct c registered := by
    rw [binds.graph.isRegistered] at registered
    have distinct' : DistinctNames rt := by
      intro a b
      rw [← binds.graph.isRegistered, ← binds.graph.isRegistered, ← binds.graph.name, ← binds.graph.name]
      exact distinct a b
    by_cases inside : c ∈ flushed
    · exact coherent_of_misses (binds.misses inside)
    · intro s i hit
      rw [binds.cacheLookup inside] at hit
      have kept := inv.coherent distinct' c registered s i hit
      rw [binds.lookup, if_neg, kept]
      rintro ⟨_, reaches⟩
      -- A class that reaches the owner stands below it in the subclass tree.
      rw [covers (inv.ancestors_registered registered cls reaches.mem)] at inside
      exact inside (inv.mem_flushOrder registered reaches.mem)

omit inv in
/-- Under distinct names the sweep over the registry reaches every registered class. -/
theorem mem_flushAllOrder (graph : GraphInv image rt) (distinct : DistinctNames rt) {cls : ClassPtr}
    (registered : (rt.classes cls).isRegistered = true) : cls ∈ flushAllOrder rt := by
  obtain ⟨entry, member, named⟩ := graph.registryComplete cls registered
  obtain ⟨registered', named'⟩ := graph.registrySound entry member
  obtain rfl : cls = entry.2 := distinct cls entry.2 registered registered' (named.trans named'.symm)
  have below := graph.lt_of_loaded (graph.registeredClass entry.2 registered).2
  exact List.mem_flatMap.mpr ⟨entry, member, preorder_self rt.subclasses (Nat.zero_lt_of_lt below) entry.2⟩

theorem InstanceInv.of_exchanges {m1 m2 : Method} {first second : MethodEntry}
    (swap : Exchanges rt rt' m1 m2 first second) : InstanceInv image rt' where
  toClosedWorld := inv.toClosedWorld.of_same swap.graph (inv.world.of_exchanges swap)
  empty c kind unregistered s := by
    rw [swap.graph.isMetaclass] at kind
    rw [swap.graph.isRegistered] at unregistered
    by_cases inside : c ∈ flushAllOrder rt
    · exact cacheLookup_of_flushed rt (by rw [swap.caches, if_pos inside]) s
    · rw [cacheLookup_of_same swap.graph (by rw [swap.caches, if_neg inside])]
      exact inv.empty c kind unregistered s
  coherent distinct c registered := by
    rw [swap.graph.isRegistered] at registered
    have distinct' : DistinctNames rt := by
      intro a b
      rw [← swap.graph.isRegistered, ← swap.graph.isRegistered, ← swap.graph.name, ← swap.graph.name]
      exact distinct a b
    have inside := mem_flushAllOrder inv.world.graph distinct' registered
    exact Runtime.Coherent.of_flushed rt (by rw [swap.caches, if_pos inside])

theorem InstanceInv.of_msgLookup {receiver : Option ObjcPtr} {sel : SEL}
    (known : ∀ c ∈ receiver.bind rt.isaOf, (rt.classes c).isRegistered = true) :
    InstanceInv image (objcMsgLookup rt receiver sel).1 := by
  rcases objcMsgLookup_state rt receiver sel with same | ⟨cls, imp, isa, _, found, filled⟩
  · rw [same]
    exact inv
  · rw [filled]
    have graph := cacheInsert_sameGraph rt cls sel imp
    refine ⟨inv.toClosedWorld.of_same graph (inv.world.of_same graph (cacheInsert_sameMethods rt cls sel imp)),
      fun c kind unregistered s => ?_, fun distinct c registered => ?_⟩
    · rw [graph.isMetaclass] at kind
      rw [graph.isRegistered] at unregistered
      cases hit : (rt.cacheInsert cls sel imp).cacheLookup c s with
      | none => rfl
      | some found' =>
          rcases cacheLookup_cacheInsert hit with old | ⟨same, _⟩
          · rw [inv.empty c kind unregistered s] at old
            exact absurd old (by simp)
          · have registered := known cls isa
            rw [← same, unregistered] at registered
            exact absurd registered (by simp)
    · rw [graph.isRegistered] at registered
      have distinct' : DistinctNames rt := by
        intro a b
        rw [← graph.isRegistered, ← graph.isRegistered, ← graph.name, ← graph.name]
        exact distinct a b
      exact (inv.coherent distinct' c registered).cacheInsert found

end InstanceSteps

/-- Every permitted call keeps the caches of ordinary classes coherent. -/
theorem InstanceInv.step {image : List ClassPtr} {rt rt' : Runtime} (inv : InstanceInv image rt) {op : ClassOp}
    (allowed : op.InstanceSide image rt) (result : op.exec rt = some rt') : InstanceInv image rt' := by
  obtain ⟨permitted, side⟩ := allowed
  have closed : op.LoadsSupers rt → ClosedWorld image rt' := fun supers =>
    inv.toClosedWorld.step permitted supers result
  cases op with
  | allocateClassPair superclass name =>
      obtain ⟨⟨_, cls⟩, allocated, rfl⟩ := Option.map_eq_some_iff.mp result
      obtain ⟨_, ext, step⟩ := allocate_world inv.world permitted allocated
      exact inv.of_extends (closed trivial) ext fun c registered => .inl (step.of_registered registered).2
  | registerClassPair cls =>
      obtain ⟨_, ext, name, step⟩ := register_world inv.world permitted.1 permitted.2 result
      refine inv.of_extends (closed trivial) ext fun c registered => ?_
      rcases (step.isRegistered_iff c).mp registered with rfl | old
      · cases before : (rt.classes c).isRegistered with
        | true => exact .inl rfl
        | false =>
            refine .inr fun sel => ?_
            rw [cacheLookup_of_extends ext permitted.2]
            exact inv.empty c permitted.1 before sel
      · exact .inl old
  | addMethod cls sel imp types =>
      obtain rfl := Option.some.inj result
      cases bound : rt.ownMethod cls sel with
      | some entry =>
          rw [classAddMethod_of_bound cls sel imp types (by rw [bound]; rfl)]
          exact inv
      | none =>
          obtain ⟨_, binds⟩ := classAddMethod_of_unbound inv.world.chain cls sel imp types bound
          refine inv.of_binds permitted binds fun registered => ?_
          rw [addFlushes, if_pos registered]
  | replaceMethod cls sel imp types =>
      obtain rfl := Option.some.inj result
      refine inv.of_binds permitted (classReplaceMethod_binds inv.world.chain cls sel imp types) fun registered => ?_
      rw [replaceFlushes, addFlushes, if_pos registered, ite_self]
  | exchangeImplementations m1 m2 =>
      obtain ⟨first, second, swap⟩ := methodExchangeImplementations_spec inv.world.chain result
      exact inv.of_exchanges swap
  | loadClasses classPtrs =>
      obtain ⟨_, ext, loads⟩ := loadClasses_world inv.world permitted result
      refine inv.of_extends (closed side) ext fun c registered => ?_
      rcases (loads.registered c).mp registered with member | old
      · exact .inr (cacheLookup_of_fresh ext (permitted.2 c member).2)
      · exact .inl old
  | msgLookup receiver sel =>
      obtain rfl := Option.some.inj result
      exact inv.of_msgLookup side

theorem StaticImage.instanceInv {image : List ClassPtr} {rt : Runtime} (start : StaticImage image rt) :
    InstanceInv image rt where
  world := start.worldInv
  closed c _ _ loaded := absurd loaded (start.not_loaded c)
  empty c _ _ sel := by
    rw [Runtime.cacheLookup, (start.untouched c).1]
    rfl
  coherent _ c registered := by
    rw [(start.untouched c).2.1] at registered
    exact absurd registered (by simp)

/-- In every reachable state with distinct names the cached fast path and the hierarchy walk agree on the
instances of registered classes. -/
theorem instanceCache_transparent {image : List ClassPtr} {start rt : Runtime} (static : StaticImage image start)
    (run : Reachable ClassOp.exec (ClassOp.InstanceSide image) start rt) (distinct : DistinctNames rt) :
    (∀ cls, (rt.classes cls).isRegistered = true → (rt.classes cls).isMetaclass = false → ∀ sel imp,
      rt.cacheLookup cls sel = some imp → classLookupMethod rt cls sel = some imp) ∧
    ∀ receiver cls, rt.isaOf receiver = some cls → (rt.classes cls).isRegistered = true →
      (rt.classes cls).isMetaclass = false → ∀ sel,
      (objcMsgLookup rt (some receiver) sel).2 = classLookupMethod rt cls sel := by
  have inv : InstanceInv image rt := run.invariant (InstanceInv image) static.instanceInv
    fun _ _ _ inv allowed result => inv.step allowed result
  exact ⟨fun cls registered _ => inv.coherent distinct cls registered,
    fun receiver cls isa registered _ sel => (inv.coherent distinct cls registered).msgLookup isa sel⟩

/-- Distinctness of the names below the allocation bound. -/
def DistinctBelow (rt : Runtime) : Prop :=
  ∀ c < rt.nextClass, ∀ d < rt.nextClass, (rt.classes c).isRegistered = true →
    (rt.classes d).isRegistered = true → (rt.classes c).name.toStr = (rt.classes d).name.toStr → c = d

instance (rt : Runtime) : Decidable (DistinctBelow rt) :=
  inferInstanceAs (Decidable (∀ c < rt.nextClass, ∀ d < rt.nextClass, _ → _ → _ → c = d))

/-- Only allocated classes are registered, so distinctness is a finite check. -/
theorem DistinctBelow.distinctNames {image : List ClassPtr} {rt : Runtime} (below : DistinctBelow rt)
    (graph : GraphInv image rt) : DistinctNames rt := fun c d cRegistered dRegistered =>
  below c (graph.lt_of_loaded (graph.registeredClass c cRegistered).2) d
    (graph.lt_of_loaded (graph.registeredClass d dRegistered).2) cRegistered dRegistered

/-- A subclass caches an inherited method, the superclass replaces it, and the subclass caches it again. -/
theorem instanceCache_transparent_replaced : ∃ rt, DistinctNames rt ∧ rt.cacheLookup 3 5 = some 9 ∧
    (∀ cls, (rt.classes cls).isRegistered = true → (rt.classes cls).isMetaclass = false → ∀ sel imp,
      rt.cacheLookup cls sel = some imp → classLookupMethod rt cls sel = some imp) ∧
    ∀ receiver cls, rt.isaOf receiver = some cls → (rt.classes cls).isRegistered = true →
      (rt.classes cls).isMetaclass = false → ∀ sel,
      (objcMsgLookup rt (some receiver) sel).2 = classLookupMethod rt cls sel := by
  have ran : ∃ rt ∈ replay ClassOp.exec (ClassOp.InstanceSide []) Runtime.empty
      [.allocateClassPair none ⟨⟨#[65]⟩, by decide⟩, .addMethod 1 5 7 none, .registerClassPair 1,
        .allocateClassPair (some 1) ⟨⟨#[66]⟩, by decide⟩, .registerClassPair 3, .msgLookup (some (.object 3)) 5,
        .replaceMethod 1 5 9 none, .msgLookup (some (.object 3)) 5],
      DistinctBelow rt ∧ rt.cacheLookup 3 5 = some 9 := by decide +kernel
  obtain ⟨rt, run, below, hit⟩ := exists_reachable_of_replay ran
  have inv : InstanceInv [] rt := run.invariant (InstanceInv []) Runtime.empty_static.instanceInv
    fun _ _ _ inv allowed result => inv.step allowed result
  have distinct := below.distinctNames inv.world.graph
  exact ⟨rt, distinct, hit, instanceCache_transparent Runtime.empty_static run distinct⟩

end O3jc
