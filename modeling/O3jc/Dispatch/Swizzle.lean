import O3jc.Dispatch.ClassSide

namespace O3jc

open Library

/-- The handle points into a method list of the metaclass of a registered class. -/
def OwnedByMeta (rt : Runtime) (method : Method) : Prop :=
  ∃ m < rt.nextClass, rt.IsRegisteredMeta m ∧ method.list ∈ rt.nodesOf m

instance (rt : Runtime) (method : Method) : Decidable (OwnedByMeta rt method) :=
  inferInstanceAs (Decidable (∃ m < rt.nextClass, _ ∧ _))

/-- The entries of the cache of a class. -/
def Runtime.cacheEntries (rt : Runtime) (cls : ClassPtr) : List CacheEntry := (rt.classes cls).dtable.getD []

/-- The IMP behind a handle. -/
def Runtime.impOf (rt : Runtime) (method : Method) : Option IMP := (rt.readMethod method).map MethodEntry.imp

/-- The IMPs are equal, or no metaclass that the sweep misses caches a selector that resolves to a handle. -/
def Runtime.NoStaleSwap (rt : Runtime) (m1 m2 : Method) : Prop :=
  rt.impOf m1 = rt.impOf m2 ∨ ∀ m < rt.nextClass, rt.IsRegisteredMeta m → m ∉ flushAllOrder rt →
    ∀ entry ∈ rt.cacheEntries m, rt.resolve m entry.sel ≠ some m1 ∧ rt.resolve m entry.sel ≠ some m2

instance (rt : Runtime) (m1 m2 : Method) : Decidable (rt.NoStaleSwap m1 m2) :=
  inferInstanceAs (Decidable (_ = _ ∨ ∀ m < rt.nextClass, _ → m ∉ flushAllOrder rt →
    ∀ entry ∈ rt.cacheEntries m, _ ∧ _))

/-- The class-side calls with exchanges of class methods. -/
def ClassOp.SwizzleSide (image : List ClassPtr) (rt : Runtime) : ClassOp → Prop
  | .exchangeImplementations m1 m2 => OwnedByMeta rt m1 ∧ OwnedByMeta rt m2
  | op => op.ClassSide image rt

instance (image : List ClassPtr) (rt : Runtime) (op : ClassOp) : Decidable (op.SwizzleSide image rt) :=
  match op with
  | .exchangeImplementations _ _ => inferInstanceAs (Decidable (OwnedByMeta rt _ ∧ OwnedByMeta rt _))
  | .allocateClassPair superclass name =>
      inferInstanceAs (Decidable (ClassOp.ClassSide image rt (.allocateClassPair superclass name)))
  | .registerClassPair cls => inferInstanceAs (Decidable (ClassOp.ClassSide image rt (.registerClassPair cls)))
  | .addMethod cls sel imp types =>
      inferInstanceAs (Decidable (ClassOp.ClassSide image rt (.addMethod cls sel imp types)))
  | .replaceMethod cls sel imp types =>
      inferInstanceAs (Decidable (ClassOp.ClassSide image rt (.replaceMethod cls sel imp types)))
  | .loadClasses classPtrs => inferInstanceAs (Decidable (ClassOp.ClassSide image rt (.loadClasses classPtrs)))
  | .msgLookup receiver sel => inferInstanceAs (Decidable (ClassOp.ClassSide image rt (.msgLookup receiver sel)))

/-- The condition under which a change of class methods leaves no metaclass cache behind. -/
def ClassOp.LeavesNoStale (rt : Runtime) : ClassOp → Prop
  | .exchangeImplementations m1 m2 => rt.NoStaleSwap m1 m2
  | op => op.FlushesMeta rt

instance (rt : Runtime) (op : ClassOp) : Decidable (op.LeavesNoStale rt) :=
  match op with
  | .exchangeImplementations _ _ => inferInstanceAs (Decidable (rt.NoStaleSwap _ _))
  | .allocateClassPair _ _ => inferInstanceAs (Decidable True)
  | .registerClassPair _ => inferInstanceAs (Decidable True)
  | .addMethod cls sel imp types => inferInstanceAs (Decidable (ClassOp.FlushesMeta rt (.addMethod cls sel imp types)))
  | .replaceMethod cls sel imp types =>
      inferInstanceAs (Decidable (ClassOp.FlushesMeta rt (.replaceMethod cls sel imp types)))
  | .loadClasses _ => inferInstanceAs (Decidable True)
  | .msgLookup _ _ => inferInstanceAs (Decidable True)

theorem resolve_congr {rt : Runtime} {a b : SEL} (same : selEq rt a b = true) (cls : ClassPtr) :
    rt.resolve cls a = rt.resolve cls b := by
  have scans : findMethodInList rt a = findMethodInList rt b := by
    funext node
    simp only [findMethodInList, selEq_congr_right same]
  simp only [Runtime.resolve, Runtime.findMethod_eq, scans]

/-- A selector hits a cache exactly when an entry of the cache names it. -/
theorem cacheLookup_isSome_iff {rt : Runtime} {cls : ClassPtr} {sel : SEL} :
    (∃ imp, rt.cacheLookup cls sel = some imp) ↔ ∃ entry ∈ rt.cacheEntries cls, selEq rt entry.sel sel = true := by
  rw [← Option.isSome_iff_exists, Runtime.cacheLookup, Runtime.cacheEntries]
  cases (rt.classes cls).dtable with
  | none => simp
  | some inner => simp [CacheInner.lookup]

section SwapSteps

variable {image : List ClassPtr} {rt rt' : Runtime} (inv : MetaInv image rt) {m1 m2 : Method}
  {first second : MethodEntry} (swap : Exchanges rt rt' m1 m2 first second)

include swap

theorem Exchanges.impOf_first : rt.impOf m1 = some first.imp := by rw [Runtime.impOf, swap.live1]; rfl

theorem Exchanges.impOf_second : rt.impOf m2 = some second.imp := by rw [Runtime.impOf, swap.live2]; rfl

/-- Dispatch that ended at a handle before the exchange gave the IMP behind it. -/
theorem Exchanges.lookup_before {cls : ClassPtr} {sel : SEL} :
    (rt.resolve cls sel = some m1 → classLookupMethod rt cls sel = some first.imp) ∧
      (rt.resolve cls sel = some m2 → classLookupMethod rt cls sel = some second.imp) := by
  constructor
  · intro found
    rw [classLookupMethod_eq_resolve, found, Option.bind_some, swap.live1]
    rfl
  · intro found
    rw [classLookupMethod_eq_resolve, found, Option.bind_some, swap.live2]
    rfl

theorem Exchanges.lookup_first {cls : ClassPtr} {sel : SEL} (found : rt.resolve cls sel = some m1) :
    classLookupMethod rt' cls sel = rt.impOf m2 := by
  rw [swap.lookup, found, swap.impOf_second]
  by_cases same : m1 = m2
  · have live := swap.live1
    rw [same, swap.live2] at live
    rw [if_pos (by rw [same]), Option.some.inj live]
  · rw [if_neg (by simpa using same), if_pos rfl]

theorem Exchanges.lookup_second {cls : ClassPtr} {sel : SEL} (found : rt.resolve cls sel = some m2) :
    classLookupMethod rt' cls sel = rt.impOf m1 := by
  rw [swap.lookup, if_pos found, swap.impOf_first]

/-- A selector that resolves to no handle dispatches as before. -/
theorem Exchanges.lookup_other {cls : ClassPtr} {sel : SEL} (notFirst : rt.resolve cls sel ≠ some m1)
    (notSecond : rt.resolve cls sel ≠ some m2) :
    classLookupMethod rt' cls sel = classLookupMethod rt cls sel := by
  rw [swap.lookup, if_neg notSecond, if_neg notFirst]

theorem Exchanges.cacheLookup {cls : ClassPtr} (outside : cls ∉ flushAllOrder rt) (sel : SEL) :
    rt'.cacheLookup cls sel = rt.cacheLookup cls sel :=
  cacheLookup_of_same swap.graph (by rw [swap.caches, if_neg outside]) sel

theorem Exchanges.misses {cls : ClassPtr} (inside : cls ∈ flushAllOrder rt) (sel : SEL) :
    rt'.cacheLookup cls sel = none :=
  cacheLookup_of_flushed rt (by rw [swap.caches, if_pos inside]) sel

include inv

/-- An exchange keeps the metaclass caches coherent exactly under the condition. -/
theorem MetaInv.coherent_of_exchanges_iff :
    (∀ m, rt'.IsRegisteredMeta m → rt'.Coherent m) ↔ rt.NoStaleSwap m1 m2 := by
  constructor
  · intro coherent
    refine or_iff_not_imp_left.mpr fun different m _ isMeta outside entry member => ?_
    rw [swap.impOf_first, swap.impOf_second, Option.some.injEq] at different
    obtain ⟨imp, hit⟩ := cacheLookup_isSome_iff.mpr ⟨entry, member, selEq_self rt entry.sel⟩
    have old := inv.coherent m isMeta entry.sel imp hit
    have new := coherent m ((isRegisteredMeta_of_same swap.graph m).mpr isMeta) entry.sel imp
      ((swap.cacheLookup outside entry.sel).trans hit)
    constructor
    · intro found
      rw [swap.lookup_first found, swap.impOf_second] at new
      rw [swap.lookup_before.1 found, ← new, Option.some.injEq] at old
      exact different old
    · intro found
      rw [swap.lookup_second found, swap.impOf_first] at new
      rw [swap.lookup_before.2 found, ← new, Option.some.injEq] at old
      exact different old.symm
  · intro condition m isMeta
    rw [isRegisteredMeta_of_same swap.graph] at isMeta
    by_cases inside : m ∈ flushAllOrder rt
    · exact coherent_of_misses (swap.misses inside)
    · intro sel imp hit
      rw [swap.cacheLookup inside] at hit
      have old := inv.coherent m isMeta sel imp hit
      rcases condition with equal | apart
      · rw [swap.impOf_first, swap.impOf_second, Option.some.injEq] at equal
        by_cases atFirst : rt.resolve m sel = some m1
        · rw [swap.lookup_before.1 atFirst] at old
          rw [swap.lookup_first atFirst, swap.impOf_second, ← equal, old]
        · by_cases atSecond : rt.resolve m sel = some m2
          · rw [swap.lookup_before.2 atSecond] at old
            rw [swap.lookup_second atSecond, swap.impOf_first, equal, old]
          · rw [swap.lookup_other atFirst atSecond, old]
      · obtain ⟨entry, member, named⟩ := cacheLookup_isSome_iff.mp ⟨imp, hit⟩
        obtain ⟨c, below, registered, isa⟩ := isMeta
        have metaBelow := (inv.world.graph.isaKind c m (inv.world.graph.registeredClass c registered).1 isa).2
        have clear := apart m metaBelow ⟨c, below, registered, isa⟩ inside entry member
        rw [resolve_congr named] at clear
        rw [swap.lookup_other clear.1 clear.2, old]

theorem MetaInv.of_exchanges (condition : rt.NoStaleSwap m1 m2) : MetaInv image rt' where
  world := inv.world.of_exchanges swap
  empty c m kind unregistered isa s := by
    rw [swap.graph.isMetaclass] at kind
    rw [swap.graph.isRegistered] at unregistered
    rw [swap.graph.isa] at isa
    by_cases inside : m ∈ flushAllOrder rt
    · exact swap.misses inside s
    · rw [swap.cacheLookup inside]
      exact inv.empty c m kind unregistered isa s
  coherent := (inv.coherent_of_exchanges_iff swap).mpr condition

end SwapSteps

/-- Every call of the swizzling side that meets its condition keeps the metaclass caches coherent. -/
theorem MetaInv.swizzleStep {image : List ClassPtr} {rt rt' : Runtime} (inv : MetaInv image rt) {op : ClassOp}
    (allowed : op.SwizzleSide image rt) (condition : op.LeavesNoStale rt) (result : op.exec rt = some rt') :
    MetaInv image rt' := by
  cases op with
  | exchangeImplementations m1 m2 =>
      obtain ⟨first, second, swap⟩ := methodExchangeImplementations_spec inv.world.chain result
      exact inv.of_exchanges swap condition
  | allocateClassPair superclass name => exact inv.step allowed condition result
  | registerClassPair cls => exact inv.step allowed condition result
  | addMethod cls sel imp types => exact inv.step allowed condition result
  | replaceMethod cls sel imp types => exact inv.step allowed condition result
  | loadClasses classPtrs => exact inv.step allowed condition result
  | msgLookup receiver sel => exact inv.step allowed condition result

/-- Messages to registered class objects that resolved to one handle get the other handle's old IMP. -/
def SwapsDispatch (rt rt' : Runtime) (m1 m2 : Method) : Prop :=
  ∀ cls metaclass sel, (rt.classes cls).isRegistered = true → rt.isaOf (.classObject cls) = some metaclass →
    (rt.resolve metaclass sel = some m1 →
      (objcMsgLookup rt' (some (.classObject cls)) sel).2 = rt.impOf m2) ∧
    (rt.resolve metaclass sel = some m2 →
      (objcMsgLookup rt' (some (.classObject cls)) sel).2 = rt.impOf m1)

/-- Messages to registered class objects get the same answers in both states. -/
def SameClassDispatch (rt rt' : Runtime) : Prop :=
  ∀ cls, (rt.classes cls).isRegistered = true → ∀ sel,
    (objcMsgLookup rt' (some (.classObject cls)) sel).2 = (objcMsgLookup rt (some (.classObject cls)) sel).2

/-- A message of the swizzling side. -/
def ClassOp.IsLookup (image : List ClassPtr) (rt : Runtime) (op : ClassOp) : Prop :=
  op.SwizzleSide image rt ∧ ∃ receiver sel, op = .msgLookup receiver sel

/-- Messages change neither the class graph nor the methods. -/
theorem lookups_same {image : List ClassPtr} {rt rt' : Runtime}
    (run : Reachable ClassOp.exec (ClassOp.IsLookup image) rt rt') : SameGraph rt rt' ∧ SameMethods rt rt' := by
  refine run.invariant (fun state => SameGraph rt state ∧ SameMethods rt state) ⟨.refl rt, .refl rt⟩ ?_
  rintro state _ next ⟨graph, methods⟩ ⟨_, receiver, sel, rfl⟩ result
  obtain rfl := Option.some.inj result
  rcases objcMsgLookup_state state receiver sel with same | ⟨cls, imp, _, _, _, filled⟩
  · rw [same]
    exact ⟨graph, methods⟩
  · rw [filled]
    exact ⟨graph.trans (cacheInsert_sameGraph state cls sel imp),
      methods.trans (cacheInsert_sameMethods state cls sel imp)⟩

theorem resolve_of_same {rt rt' : Runtime} (graph : SameGraph rt rt') (methods : SameMethods rt rt') :
    rt'.resolve = rt.resolve := by
  funext cls sel
  simp only [Runtime.resolve, graph.ancestors, findMethod_of_same graph methods]

theorem impOf_of_same {rt rt' : Runtime} (methods : SameMethods rt rt') : rt'.impOf = rt.impOf := by
  funext method
  simp only [Runtime.impOf, readMethod_of_same methods]

/-- After an exchange each handle holds the other's IMP. -/
theorem Exchanges.impOf_after {rt rt' : Runtime} {m1 m2 : Method} {first second : MethodEntry}
    (swap : Exchanges rt rt' m1 m2 first second) : rt'.impOf m1 = rt.impOf m2 ∧ rt'.impOf m2 = rt.impOf m1 := by
  constructor
  · rw [swap.impOf_second, Runtime.impOf, swap.read]
    by_cases same : m1 = m2
    · have live := swap.live1
      rw [same, swap.live2] at live
      rw [if_pos same, Option.some.inj live]
      rfl
    · rw [if_neg same, if_pos rfl]
      rfl
  · rw [swap.impOf_first, Runtime.impOf, swap.read, if_pos rfl]
    rfl

/-- Exchanging the same handles twice, with messages in between, restores every walk. -/
theorem Exchanges.restores {rt rt1 rt2 rt3 : Runtime} {m1 m2 : Method} {first second first' second' : MethodEntry}
    (swap : Exchanges rt rt1 m1 m2 first second) (graph : SameGraph rt1 rt2) (methods : SameMethods rt1 rt2)
    (again : Exchanges rt2 rt3 m1 m2 first' second') (cls : ClassPtr) (sel : SEL) :
    classLookupMethod rt3 cls sel = classLookupMethod rt cls sel := by
  have resolved : rt2.resolve cls sel = rt.resolve cls sel := by
    rw [resolve_of_same graph methods, swap.resolve]
  have imps : rt2.impOf m1 = rt.impOf m2 ∧ rt2.impOf m2 = rt.impOf m1 := by
    rw [impOf_of_same methods]
    exact swap.impOf_after
  by_cases atFirst : rt.resolve cls sel = some m1
  · rw [again.lookup_first (resolved.trans atFirst), imps.2, swap.impOf_first, swap.lookup_before.1 atFirst]
  · by_cases atSecond : rt.resolve cls sel = some m2
    · rw [again.lookup_second (resolved.trans atSecond), imps.1, swap.impOf_second, swap.lookup_before.2 atSecond]
    · rw [again.lookup_other (resolved ▸ atFirst) (resolved ▸ atSecond), classLookupMethod_of_same graph methods,
        swap.lookup_other atFirst atSecond]

/-- In a run whose changes meet their conditions, class objects stay transparent, an exchange of class methods
takes effect exactly under its condition, and the second exchange of the same handles undoes the first. -/
theorem classSwizzle_transparent {image : List ClassPtr} {start rt : Runtime} (static : StaticImage image start)
    (run : Reachable ClassOp.exec (fun rt op => op.SwizzleSide image rt ∧ op.LeavesNoStale rt) start rt) :
    ClassObjectsTransparent rt ∧ ∀ m1 m2 rt1, OwnedByMeta rt m1 → OwnedByMeta rt m2 →
      methodExchangeImplementations rt m1 m2 = some rt1 →
      (ClassObjectsTransparent rt1 ↔ rt.NoStaleSwap m1 m2) ∧
      (rt.NoStaleSwap m1 m2 → SwapsDispatch rt rt1 m1 m2 ∧ ∀ rt2 rt3,
        Reachable ClassOp.exec (ClassOp.IsLookup image) rt1 rt2 → rt2.NoStaleSwap m1 m2 →
        methodExchangeImplementations rt2 m1 m2 = some rt3 → SameClassDispatch rt rt3) := by
  have inv : MetaInv image rt := run.invariant (MetaInv image) static.metaInv
    fun _ _ _ inv allowed result => inv.swizzleStep allowed.1 allowed.2 result
  refine ⟨(classObjectsTransparent_iff inv.world.graph).mpr inv.coherent, fun m1 m2 rt1 _ _ result => ?_⟩
  obtain ⟨first, second, swap⟩ := methodExchangeImplementations_spec inv.world.chain result
  have exact := (classObjectsTransparent_iff (inv.world.graph.of_same swap.graph)).trans
    (inv.coherent_of_exchanges_iff swap)
  refine ⟨exact, fun condition => ⟨fun cls metaclass sel registered isa => ?_, fun rt2 rt3 lookups condition2
    result2 => ?_⟩⟩
  · have transparent := exact.mpr condition
    have isa1 : rt1.isaOf (.classObject cls) = some metaclass := by
      rw [isaOf_of_same swap.graph]
      exact isa
    rw [transparent cls metaclass (by rw [swap.graph.isRegistered]; exact registered) isa1 sel]
    exact ⟨swap.lookup_first, swap.lookup_second⟩
  · have inv1 := inv.of_exchanges swap condition
    have inv2 : MetaInv image rt2 := lookups.invariant (MetaInv image) inv1
      fun state op next here allowed step => by
        obtain ⟨side, receiver, sel, rfl⟩ := allowed
        exact here.swizzleStep side trivial step
    obtain ⟨graph, methods⟩ := lookups_same lookups
    obtain ⟨first', second', again⟩ := methodExchangeImplementations_spec inv2.world.chain result2
    have inv3 := inv2.of_exchanges again condition2
    have all : SameGraph rt rt3 := (swap.graph.trans graph).trans again.graph
    intro cls registered sel
    obtain ⟨kind, loaded⟩ := inv.world.graph.registeredClass cls registered
    obtain ⟨metaclass, isa⟩ := Option.isSome_iff_exists.mp
      (inv.world.graph.hasIsa cls kind (inv.world.graph.lt_of_loaded loaded))
    have isa3 : rt3.isaOf (.classObject cls) = some metaclass := by
      rw [isaOf_of_same all]
      exact isa
    rw [(classObjectsTransparent_iff inv3.world.graph).mpr inv3.coherent cls metaclass
        (by rw [all.isRegistered]; exact registered) isa3 sel,
      (classObjectsTransparent_iff inv.world.graph).mpr inv.coherent cls metaclass registered isa sel,
      swap.restores graph methods again]

/-- Two class methods are exchanged before the class object is messaged. -/
theorem classSwizzle_transparent_uncached : ∃ rt rt1, ClassObjectsTransparent rt ∧
    methodExchangeImplementations rt ⟨0, 1, 0⟩ ⟨0, 1, 1⟩ = some rt1 ∧ ClassObjectsTransparent rt1 ∧
    SwapsDispatch rt rt1 ⟨0, 1, 0⟩ ⟨0, 1, 1⟩ := by
  have ran : ∃ rt ∈ replay ClassOp.exec (fun rt op => ClassOp.SwizzleSide [] rt op ∧ op.LeavesNoStale rt)
      Runtime.empty [.allocateClassPair none ⟨⟨#[65]⟩, by decide⟩, .registerClassPair 1, .addMethod 0 5 7 none,
        .addMethod 0 6 8 none],
      OwnedByMeta rt ⟨0, 1, 0⟩ ∧ OwnedByMeta rt ⟨0, 1, 1⟩ ∧ rt.NoStaleSwap ⟨0, 1, 0⟩ ⟨0, 1, 1⟩ ∧
      (methodExchangeImplementations rt ⟨0, 1, 0⟩ ⟨0, 1, 1⟩).isSome = true := by decide +kernel
  obtain ⟨rt, run, owned1, owned2, condition, some1⟩ := exists_reachable_of_replay ran
  obtain ⟨rt1, result⟩ := Option.isSome_iff_exists.mp some1
  obtain ⟨transparent, exchanges⟩ := classSwizzle_transparent Runtime.empty_static run
  obtain ⟨exact, effect⟩ := exchanges _ _ rt1 owned1 owned2 result
  exact ⟨rt, rt1, transparent, result, exact.mpr condition, (effect condition).1⟩

/-- A class object keeps the IMP that it cached before its class methods were exchanged. -/
theorem methodExchangeImplementations_staleMetaclass : ∃ rt rt1 m1 m2,
    Reachable ClassOp.exec (ClassOp.SwizzleSide []) Runtime.empty rt ∧ rt.IsRegisteredMeta 0 ∧
      classGetInstanceMethod rt (some 0) 5 = some m1 ∧ classGetInstanceMethod rt (some 0) 6 = some m2 ∧
      methodExchangeImplementations rt m1 m2 = some rt1 ∧ ¬ ClassObjectsTransparent rt1 ∧
      ¬ SwapsDispatch rt rt1 m1 m2 := by
  have ran : ∃ rt ∈ replay ClassOp.exec (ClassOp.SwizzleSide []) Runtime.empty
      [.allocateClassPair none ⟨⟨#[65]⟩, by decide⟩, .registerClassPair 1, .addMethod 0 5 7 none,
        .addMethod 0 6 8 none, .msgLookup (some (.classObject 1)) 5],
      rt.IsRegisteredMeta 0 ∧ classGetInstanceMethod rt (some 0) 5 = some ⟨0, 1, 0⟩ ∧
      classGetInstanceMethod rt (some 0) 6 = some ⟨0, 1, 1⟩ ∧ (rt.classes 1).isRegistered = true ∧
      rt.isaOf (.classObject 1) = some 0 ∧ rt.resolve 0 5 = some ⟨0, 1, 0⟩ ∧ rt.impOf ⟨0, 1, 1⟩ = some 8 ∧
      ∃ rt1 ∈ methodExchangeImplementations rt ⟨0, 1, 0⟩ ⟨0, 1, 1⟩,
        (rt1.classes 1).isRegistered = true ∧ rt1.isaOf (.classObject 1) = some 0 ∧
        (objcMsgLookup rt1 (some (.classObject 1)) 5).2 = some 7 ∧ classLookupMethod rt1 0 5 = some 8 := by
    decide +kernel
  obtain ⟨rt, run, isMeta, handle1, handle2, registered, isa, resolved, imp, rt1, result, registered1, isa1, cached,
    walked⟩ := exists_reachable_of_replay ran
  refine ⟨rt, rt1, _, _, run, isMeta, handle1, handle2, result, fun transparent => ?_, fun swaps => ?_⟩
  · have same := transparent 1 0 registered1 isa1 5
    rw [cached, walked] at same
    exact absurd same (by decide)
  · have same := (swaps 1 0 5 registered isa).1 resolved
    rw [cached, imp] at same
    exact absurd same (by decide)

end O3jc
