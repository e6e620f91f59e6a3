import O3jc.Dispatch.World

namespace O3jc

open Library

/-- Every IMP that a class's cache gives is the one that the hierarchy walk gives. -/
def Runtime.Coherent (rt : Runtime) (cls : ClassPtr) : Prop :=
  ∀ sel imp, rt.cacheLookup cls sel = some imp → classLookupMethod rt cls sel = some imp

/-- The result of a message lookup is the cached IMP, or else the result of the walk. -/
theorem objcMsgLookup_result (rt : Runtime) (receiver : Option ObjcPtr) (sel : SEL) :
    (objcMsgLookup rt receiver sel).2 = (receiver.bind rt.isaOf).bind fun cls =>
      (rt.cacheLookup cls sel).or (classLookupMethod rt cls sel) := by
  unfold objcMsgLookup
  cases receiver.bind rt.isaOf with
  | none => rfl
  | some cls =>
      cases hit : rt.cacheLookup cls sel with
      | some imp => simp [hit]
      | none =>
          cases found : classLookupMethod rt cls sel with
          | none => simp [hit, found]
          | some imp => simp [hit, found]

theorem objcMsgLookupNonnull_result (rt : Runtime) (receiver : Option ObjcPtr) (sel : SEL) :
    (objcMsgLookupNonnull rt receiver sel).map Prod.snd = (objcMsgLookup rt receiver sel).2 := by
  unfold objcMsgLookupNonnull
  rcases objcMsgLookup rt receiver sel with ⟨rt', _ | imp⟩
  · rfl
  · rfl

/-- A message lookup on a coherent class returns the result of the walk. -/
theorem Runtime.Coherent.msgLookup {rt : Runtime} {receiver : ObjcPtr} {cls : ClassPtr}
    (coherent : rt.Coherent cls) (isa : rt.isaOf receiver = some cls) (sel : SEL) :
    (objcMsgLookup rt (some receiver) sel).2 = classLookupMethod rt cls sel := by
  rw [objcMsgLookup_result, Option.bind_some, isa, Option.bind_some]
  cases hit : rt.cacheLookup cls sel with
  | none => rfl
  | some imp =>
      rw [coherent sel imp hit]
      rfl

/-- A message lookup leaves the state alone or fills one cache with the result of the walk. -/
theorem objcMsgLookup_state (rt : Runtime) (receiver : Option ObjcPtr) (sel : SEL) :
    (objcMsgLookup rt receiver sel).1 = rt ∨ ∃ cls imp, receiver.bind rt.isaOf = some cls ∧
      rt.cacheLookup cls sel = none ∧ classLookupMethod rt cls sel = some imp ∧
      (objcMsgLookup rt receiver sel).1 = rt.cacheInsert cls sel imp := by
  unfold objcMsgLookup
  cases isa : receiver.bind rt.isaOf with
  | none => exact .inl rfl
  | some cls =>
      cases hit : rt.cacheLookup cls sel with
      | some imp => simp [hit]
      | none =>
          cases found : classLookupMethod rt cls sel with
          | none => simp [hit, found]
          | some imp => exact .inr ⟨cls, imp, rfl, hit, found, by simp [hit, found]⟩

/-- An insertion adds at most its own binding to the list. -/
theorem CacheInner.lookup_insert {rt : Runtime} {inner : CacheInner} {sel other : SEL} {imp found : IMP}
    (hit : CacheInner.lookup rt (CacheInner.insert rt inner sel imp) other = some found) :
    CacheInner.lookup rt inner other = some found ∨ (selEq rt sel other = true ∧ found = imp) := by
  have single : ∀ {s : SEL} {i : IMP}, CacheInner.lookup rt [⟨sel, imp⟩] s = some i →
      selEq rt sel s = true ∧ i = imp := by
    intro s i here
    rw [CacheInner.lookup, List.find?_singleton] at here
    split at here
    · rename_i same
      exact ⟨same, (Option.some.inj here).symm⟩
    · exact absurd here (by simp)
  unfold CacheInner.insert at hit
  split at hit
  · exact .inl hit
  · split at hit
    · exact .inr (single hit)
    · rw [CacheInner.lookup, List.find?_append] at hit
      cases old : inner.find? fun entry => selEq rt entry.sel other with
      | some entry =>
          rw [old, Option.some_or] at hit
          exact .inl (by rw [CacheInner.lookup, old, hit])
      | none =>
          rw [old, Option.none_or] at hit
          exact .inr (single hit)

theorem cacheLookup_cacheInsert {rt : Runtime} {cls other : ClassPtr} {sel s : SEL} {imp found : IMP}
    (hit : (rt.cacheInsert cls sel imp).cacheLookup other s = some found) :
    rt.cacheLookup other s = some found ∨ (other = cls ∧ selEq rt sel s = true ∧ found = imp) := by
  by_cases same : other = cls
  · subst same
    have eq := (cacheInsert_sameGraph rt other sel imp).selEq
    rw [Runtime.cacheLookup, Runtime.cacheInsert, Runtime.modifyClass_classes_self] at hit
    rw [Runtime.cacheLookup]
    cases cache : (rt.classes other).dtable with
    | none => simp [cache] at hit
    | some inner =>
        simp only [cache, Option.map_some, Option.bind_some] at hit ⊢
        have hit' : CacheInner.lookup rt (CacheInner.insert rt inner sel imp) s = some found := by
          rw [← hit]
          simp only [CacheInner.lookup]
          rfl
        exact (CacheInner.lookup_insert hit').imp_right fun new => ⟨trivial, new⟩
  · refine .inl ?_
    rw [← hit]
    refine (cacheLookup_of_same (cacheInsert_sameGraph rt cls sel imp) ?_ s).symm
    rw [Runtime.cacheInsert, Runtime.modifyClass_classes_of_ne _ _ _ same]

/-- A cache that holds the selector ignores an insertion. -/
theorem cacheInsert_of_present {rt : Runtime} {cls : ClassPtr} {sel : SEL}
    (present : (rt.cacheLookup cls sel).isSome = true) (imp : IMP) (other : ClassPtr) :
    ((rt.cacheInsert cls sel imp).classes other).dtable = (rt.classes other).dtable := by
  by_cases same : other = cls
  · subst same
    rw [Runtime.cacheInsert, Runtime.modifyClass_classes_self]
    cases cache : (rt.classes other).dtable with
    | none => rfl
    | some inner =>
        rw [Runtime.cacheLookup, cache, Option.bind_some, CacheInner.lookup, Option.isSome_map] at present
        rw [List.find?_isSome] at present
        simp only [Option.map_some, CacheInner.insert]
        rw [if_pos (List.any_eq_true.mpr present)]
  · rw [Runtime.cacheInsert, Runtime.modifyClass_classes_of_ne _ _ _ same]

/-- Filling a cache with the result of the walk keeps every cache coherent. -/
theorem Runtime.Coherent.cacheInsert {rt : Runtime} {cls target : ClassPtr} {sel : SEL} {imp : IMP}
    (coherent : rt.Coherent cls) (found : classLookupMethod rt target sel = some imp) :
    (rt.cacheInsert target sel imp).Coherent cls := by
  intro s i hit
  rw [classLookupMethod_of_same (cacheInsert_sameGraph rt target sel imp) (cacheInsert_sameMethods rt target sel imp)]
  rcases cacheLookup_cacheInsert hit with old | ⟨same, eq, isImp⟩
  · exact coherent s i old
  · rw [same, isImp, ← classLookupMethod_congr eq]
    exact found

/-- An emptied cache misses. -/
theorem cacheLookup_of_flushed (rt : Runtime) {rt' : Runtime} {cls : ClassPtr}
    (empty : (rt'.classes cls).dtable = (rt.classes cls).dtable.map CacheInner.flush) (sel : SEL) :
    rt'.cacheLookup cls sel = none := by
  rw [Runtime.cacheLookup, empty]
  cases (rt.classes cls).dtable with
  | none => rfl
  | some inner => rfl

theorem Runtime.Coherent.of_flushed (rt : Runtime) {rt' : Runtime} {cls : ClassPtr}
    (empty : (rt'.classes cls).dtable = (rt.classes cls).dtable.map CacheInner.flush) : rt'.Coherent cls := by
  intro sel imp hit
  rw [cacheLookup_of_flushed rt empty] at hit
  exact absurd hit (by simp)

/-- The cache of a class that a construction step loads is empty. -/
theorem cacheLookup_of_fresh {rt rt' : Runtime} (ext : Extends rt rt') {cls : ClassPtr} (unloaded : ¬ rt.Loaded cls)
    (sel : SEL) : rt'.cacheLookup cls sel = none := by
  by_cases loaded : rt'.Loaded cls
  · rw [Runtime.cacheLookup, ext.fresh cls unloaded loaded]
    rfl
  · rw [Runtime.Loaded, Option.isSome_iff_ne_none, not_not] at loaded
    rw [Runtime.cacheLookup, loaded]
    rfl

theorem cacheLookup_of_extends {rt rt' : Runtime} (ext : Extends rt rt') {cls : ClassPtr} (loaded : rt.Loaded cls)
    (sel : SEL) : rt'.cacheLookup cls sel = rt.cacheLookup cls sel := by
  simp only [Runtime.cacheLookup, CacheInner.lookup, ext.dtable cls loaded, ext.selEq]

theorem coherent_of_misses {rt : Runtime} {cls : ClassPtr} (misses : ∀ sel, rt.cacheLookup cls sel = none) :
    rt.Coherent cls := by
  intro sel imp hit
  rw [misses sel] at hit
  exact absurd hit (by simp)

/-- Every permitted call keeps the world. -/
theorem WorldInv.step {image : List ClassPtr} {rt rt' : Runtime} (inv : WorldInv image rt) {op : ClassOp}
    (allowed : op.Permitted image rt) (result : op.exec rt = some rt') : WorldInv image rt' := by
  cases op with
  | allocateClassPair superclass name =>
      obtain ⟨⟨_, cls⟩, allocated, rfl⟩ := Option.map_eq_some_iff.mp result
      exact (allocate_world inv allowed allocated).1
  | registerClassPair cls => exact (register_world inv allowed.1 allowed.2 result).1
  | addMethod cls sel imp types =>
      obtain rfl := Option.some.inj result
      cases bound : rt.ownMethod cls sel with
      | some entry =>
          rw [classAddMethod_of_bound cls sel imp types (by rw [bound]; rfl)]
          exact inv
      | none => exact inv.of_binds allowed (classAddMethod_of_unbound inv.chain cls sel imp types bound).2
  | replaceMethod cls sel imp types =>
      obtain rfl := Option.some.inj result
      exact inv.of_binds allowed (classReplaceMethod_binds inv.chain cls sel imp types)
  | exchangeImplementations m1 m2 =>
      obtain ⟨first, second, swap⟩ := methodExchangeImplementations_spec inv.chain result
      exact inv.of_exchanges swap
  | loadClasses classPtrs => exact (loadClasses_world inv allowed result).1
  | msgLookup receiver sel =>
      obtain rfl := Option.some.inj result
      rcases objcMsgLookup_state rt receiver sel with same | ⟨cls, imp, _, _, _, filled⟩
      · rw [same]
        exact inv
      · rw [filled]
        exact inv.of_same (cacheInsert_sameGraph rt cls sel imp) (cacheInsert_sameMethods rt cls sel imp)

/-- What a permitted call does to the class graph. -/
inductive GraphStep (image : List ClassPtr) (rt : Runtime) : ClassOp → Runtime → Prop
  | allocated {superclass : Option ClassPtr} {name : CStr} {rt' : Runtime}
      (known : ∀ s ∈ superclass, (rt.classes s).isRegistered = true) (step : Allocated rt rt' superclass name) :
      GraphStep image rt (.allocateClassPair superclass name) rt'
  | registered {cls : ClassPtr} {name : String} {rt' : Runtime} (step : Registered rt rt' cls name) :
      GraphStep image rt (.registerClassPair cls) rt'
  | same {op : ClassOp} {rt' : Runtime} (graph : SameGraph rt rt') : GraphStep image rt op rt'
  | loaded {classPtrs : List (Option ClassPtr)} {rt' : Runtime} (loadable : Loadable image rt classPtrs)
      (result : loadClasses rt classPtrs = some rt') : GraphStep image rt (.loadClasses classPtrs) rt'

theorem WorldInv.graphStep {image : List ClassPtr} {rt rt' : Runtime} (inv : WorldInv image rt) {op : ClassOp}
    (allowed : op.Permitted image rt) (result : op.exec rt = some rt') : GraphStep image rt op rt' := by
  cases op with
  | allocateClassPair superclass name =>
      obtain ⟨⟨_, cls⟩, allocated, rfl⟩ := Option.map_eq_some_iff.mp result
      exact .allocated allowed (allocate_world inv allowed allocated).2.2
  | registerClassPair cls =>
      obtain ⟨name, step⟩ := registerClass_spec result
      exact .registered step
  | addMethod cls sel imp types =>
      obtain rfl := Option.some.inj result
      cases bound : rt.ownMethod cls sel with
      | some entry =>
          rw [classAddMethod_of_bound cls sel imp types (by rw [bound]; rfl)]
          exact .same (.refl rt)
      | none => exact .same (classAddMethod_of_unbound inv.chain cls sel imp types bound).2.graph
  | replaceMethod cls sel imp types =>
      obtain rfl := Option.some.inj result
      exact .same (classReplaceMethod_binds inv.chain cls sel imp types).graph
  | exchangeImplementations m1 m2 =>
      obtain ⟨first, second, swap⟩ := methodExchangeImplementations_spec inv.chain result
      exact .same swap.graph
  | loadClasses classPtrs => exact .loaded allowed result
  | msgLookup receiver sel =>
      obtain rfl := Option.some.inj result
      rcases objcMsgLookup_state rt receiver sel with same | ⟨cls, imp, _, _, _, filled⟩
      · rw [same]
        exact .same (.refl rt)
      · rw [filled]
        exact .same (cacheInsert_sameGraph rt cls sel imp)

theorem StaticImage.worldInv_of_run {image : List ClassPtr} {start rt : Runtime} (static : StaticImage image start)
    (run : Reachable ClassOp.exec (ClassOp.Permitted image) start rt) : WorldInv image rt :=
  run.invariant (WorldInv image) static.worldInv fun _ _ _ inv => inv.step

end O3jc
