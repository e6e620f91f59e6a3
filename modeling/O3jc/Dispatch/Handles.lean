import O3jc.Dispatch.Cache

/-
This file says which additions keep the handles of a registered class pair alive.
-/

namespace O3jc

open Library

/-- The calls on the two halves of a class pair. -/
inductive HandleOp where
  | addMethod (target : ClassPtr) (sel : SEL) (imp : IMP) (types : Option CStrPtr)
  | replaceMethod (target : ClassPtr) (sel : SEL) (imp : IMP) (types : Option CStrPtr)
  | getInstanceMethod (target : ClassPtr) (sel : SEL)

/-- A process with the handles that were returned so far and the selectors of their entries. -/
structure Held where
  rt : Runtime
  handles : List (Method × SEL)

/-- The handle of a lookup, with the selector of the entry that it names. -/
def handleOf (rt : Runtime) (target : ClassPtr) (sel : SEL) : Option (Method × SEL) :=
  (classGetInstanceMethod rt (some target) sel).bind fun method =>
    (rt.readMethod method).map fun entry => (method, entry.sel)

def HandleOp.exec (held : Held) : HandleOp → Option Held
  | .addMethod target sel imp types => some { held with rt := (classAddMethod held.rt target sel imp types).1 }
  | .replaceMethod target sel imp types =>
      some { held with rt := (classReplaceMethod held.rt target sel imp types).1 }
  | .getInstanceMethod target sel =>
      some { held with handles := (handleOf held.rt target sel).toList ++ held.handles }

def HandleOp.target : HandleOp → ClassPtr
  | .addMethod target _ _ _ => target
  | .replaceMethod target _ _ _ => target
  | .getInstanceMethod target _ => target

/-- The calls are about the class or its metaclass. -/
def HandleOp.Permitted (cls metaclass : ClassPtr) (op : HandleOp) : Prop := op.target = cls ∨ op.target = metaclass

instance HandleOp.decidablePermitted (cls metaclass : ClassPtr) (op : HandleOp) :
    Decidable (op.Permitted cls metaclass) := inferInstanceAs (Decidable (_ ∨ _))

/-- The entry that a call adds, if the target has no entry for the selector. -/
def HandleOp.added (rt : Runtime) : HandleOp → Option MethodEntry
  | .addMethod target sel imp types =>
      if methodExistsInChain rt (rt.classes target).methodList.head sel then none else some ⟨imp, sel, types⟩
  | .replaceMethod target sel imp types =>
      if methodExistsInChain rt (rt.classes target).methodList.head sel then none else some ⟨imp, sel, types⟩
  | .getInstanceMethod _ _ => none

/-- Every method that is added goes to the class and not to its metaclass. -/
def HandleOp.AddsToClass (cls : ClassPtr) (rt : Runtime) (op : HandleOp) : Prop :=
  (op.added rt).isSome = true → op.target = cls

instance HandleOp.decidableAddsToClass (cls : ClassPtr) (rt : Runtime) (op : HandleOp) :
    Decidable (op.AddsToClass cls rt) := inferInstanceAs (Decidable (_ → _))

/-- An addition prepends a node with one entry, flushes the tree of the target and does nothing else. -/
def HandleOp.Prepends (held : Held) (op : HandleOp) : Prop :=
  ∀ entry ∈ op.added held.rt, op.exec held =
    some { held with rt := flushClassCacheTree (held.rt.prependMethod op.target entry) op.target }

/-- Every handle still names an entry with its selector. -/
def Held.Live (held : Held) : Prop :=
  ∀ handle ∈ held.handles, ∃ entry, held.rt.readMethod handle.1 = some entry ∧ entry.sel = handle.2

section Effects

variable {rt : Runtime} {cls : ClassPtr} {sel : SEL} {imp : IMP} {types : Option CStrPtr}

/-- A selector without an entry is added, by either call. -/
theorem classReplaceMethod_of_absent
    (absent : methodExistsInChain rt (rt.classes cls).methodList.head sel = false) :
    (classReplaceMethod rt cls sel imp types).1 = (classAddMethod rt cls sel imp types).1 := by
  rw [methodExists_eq, Option.isSome_eq_false_iff, Option.isNone_iff_eq_none, ← findMethod_eq_none_iff] at absent
  have missing : findMethodInChain rt (rt.classes cls).methodList.head sel = none := absent
  rw [classReplaceMethod, missing]

theorem ownMethod_of_not_added {entry : MethodEntry}
    (kept : (if methodExistsInChain rt (rt.classes cls).methodList.head sel then none else some entry) = none) :
    (rt.ownMethod cls sel).isSome = true := by
  by_contra absent
  rw [← methodExists_eq] at absent
  rw [if_neg absent] at kept
  exact absurd kept (by simp)

/-- The result of a call that adds an entry. -/
theorem HandleOp.exec_of_added {held : Held} {op : HandleOp} {entry : MethodEntry}
    (adds : op.added held.rt = some entry) : op.exec held =
      some { held with rt := if (held.rt.classes op.target).isRegistered
        then flushClassCacheTree (held.rt.prependMethod op.target entry) op.target
        else held.rt.pushMethod op.target entry } := by
  cases op with
  | getInstanceMethod target sel => exact absurd adds (by simp [HandleOp.added])
  | addMethod target sel imp types =>
      rw [HandleOp.added] at adds
      split at adds
      · exact absurd adds (by simp)
      · rename_i absent
        obtain rfl := Option.some.inj adds
        rw [HandleOp.exec, classAddMethod, if_neg absent, HandleOp.target]
        split <;> rfl
  | replaceMethod target sel imp types =>
      rw [HandleOp.added] at adds
      split at adds
      · exact absurd adds (by simp)
      · rename_i absent
        obtain rfl := Option.some.inj adds
        rw [HandleOp.exec, classReplaceMethod_of_absent (by simpa using absent), classAddMethod, if_neg absent,
          HandleOp.target]
        split <;> rfl

/-- A push in place is told apart from a prepended node by the node count or by the capacity of the new node. -/
theorem pushMethod_ne_prependMethod (rt : Runtime) (cls : ClassPtr) (entry : MethodEntry) :
    rt.pushMethod cls entry ≠ flushClassCacheTree (rt.prependMethod cls entry) cls := by
  intro same
  have methods := (flushClassCacheTree_spec (rt.prependMethod cls entry) cls).2.1
  cases start : (rt.classes cls).methodList.head with
  | some head =>
      rw [pushMethod_of_head cls entry start] at same
      have count : rt.nextMethodList = rt.nextMethodList + 1 :=
        (congrArg Runtime.nextMethodList same).trans methods.nextList
      exact absurd count (Nat.ne_of_lt (Nat.lt_succ_self _))
  | none =>
      rw [pushMethod_of_null cls entry start] at same
      have lists := (congrArg Runtime.methodLists same).trans methods.lists
      have node := congrArg (fun list : MethodList => list.entries.capacity) (congrFun lists rt.nextMethodList)
      rw [modifyMethodList_lists, if_pos rfl, attachList_lists_new, prependMethod_eq, attachList_lists_new] at node
      exact absurd node (by simp [MethodVec.push, MethodVec.empty, MethodVec.exact])

/-- A call prepends exactly when its target has the registered flag. -/
theorem HandleOp.prepends_iff {held : Held} (op : HandleOp) : op.Prepends held ↔
    ((op.added held.rt).isSome = true → (held.rt.classes op.target).isRegistered = true) := by
  constructor
  · intro prepends adding
    obtain ⟨entry, adds⟩ := Option.isSome_iff_exists.mp adding
    have result := prepends entry adds
    rw [HandleOp.exec_of_added adds] at result
    by_contra unregistered
    rw [if_neg unregistered] at result
    exact pushMethod_ne_prependMethod _ _ _ (congrArg Held.rt (Option.some.inj result))
  · intro registered entry adds
    rw [HandleOp.exec_of_added adds, if_pos (registered (by rw [adds]; rfl))]

end Effects

/-- The class is registered and the other half of the pair is its metaclass. -/
structure PairInv (image : List ClassPtr) (cls metaclass : ClassPtr) (rt : Runtime) : Prop where
  world : WorldInv image rt
  registered : (rt.classes cls).isRegistered = true
  isa : (rt.classes cls).isa = some metaclass

/-- Handles name allocated nodes and live entries. -/
structure HandleInv (held : Held) : Prop where
  below : ∀ handle ∈ held.handles, handle.1.list < held.rt.nextMethodList
  live : held.Live

section Invariant

variable {image : List ClassPtr} {cls metaclass : ClassPtr} {rt : Runtime} {held next : Held} {op : HandleOp}

/-- Only the class half has the registered flag. -/
theorem PairInv.flag_iff (inv : PairInv image cls metaclass rt) {target : ClassPtr}
    (half : target = cls ∨ target = metaclass) : (rt.classes target).isRegistered = true ↔ target = cls := by
  constructor
  · intro flagged
    rcases half with same | rfl
    · exact same
    · have plain := (inv.world.graph.registeredClass cls inv.registered).1
      have isMeta := (inv.world.graph.isaKind cls target plain inv.isa).1
      rw [(inv.world.graph.registeredClass target flagged).1] at isMeta
      exact absurd isMeta (by simp)
  · rintro rfl
    exact inv.registered

theorem PairInv.loaded (inv : PairInv image cls metaclass rt) {target : ClassPtr}
    (half : target = cls ∨ target = metaclass) : rt.Loaded target := by
  obtain ⟨plain, loaded⟩ := inv.world.graph.registeredClass cls inv.registered
  rcases half with rfl | rfl
  · exact loaded
  · exact (inv.world.graph.pairLoaded cls target plain inv.isa).mpr loaded

theorem PairInv.of_binds {rt' : Runtime} (inv : PairInv image cls metaclass rt) {target : ClassPtr} {sel : SEL}
    {imp : IMP} {flushed : List ClassPtr} (half : target = cls ∨ target = metaclass)
    (binds : Binds rt rt' target sel imp flushed) : PairInv image cls metaclass rt' where
  world := inv.world.of_binds (inv.loaded half) binds
  registered := by
    rw [binds.graph.isRegistered]
    exact inv.registered
  isa := by
    rw [binds.graph.isa]
    exact inv.isa

/-- Every call on the pair keeps it registered. -/
theorem PairInv.step (inv : PairInv image cls metaclass held.rt) (half : op.Permitted cls metaclass)
    (result : op.exec held = some next) : PairInv image cls metaclass next.rt := by
  cases op with
  | addMethod target sel imp types =>
      obtain rfl := Option.some.inj result
      dsimp only
      cases own : held.rt.ownMethod target sel with
      | some entry =>
          rw [classAddMethod_of_bound target sel imp types (by rw [own]; rfl)]
          exact inv
      | none => exact inv.of_binds half (classAddMethod_of_unbound inv.world.chain target sel imp types own).2
  | replaceMethod target sel imp types =>
      obtain rfl := Option.some.inj result
      exact inv.of_binds half (classReplaceMethod_binds inv.world.chain target sel imp types)
  | getInstanceMethod target sel =>
      obtain rfl := Option.some.inj result
      exact inv

/-- A call prepends exactly when it does not add a method to the metaclass. -/
theorem PairInv.prepends_iff (inv : PairInv image cls metaclass held.rt) (half : op.Permitted cls metaclass) :
    op.Prepends held ↔ op.AddsToClass cls held.rt := by
  rw [HandleOp.prepends_iff, HandleOp.AddsToClass, inv.flag_iff half]

/-- A state in which every old handle reads an entry with the same selector as before. -/
theorem HandleInv.of_reads {rt' : Runtime} (inv : HandleInv held)
    (nodes : held.rt.nextMethodList ≤ rt'.nextMethodList)
    (reads : ∀ method entry, method.list < held.rt.nextMethodList → held.rt.readMethod method = some entry →
      ∃ entry', rt'.readMethod method = some entry' ∧ entry'.sel = entry.sel) :
    HandleInv { held with rt := rt' } where
  below handle member := (inv.below handle member).trans_le nodes
  live handle member := by
    obtain ⟨entry, read, named⟩ := inv.live handle member
    obtain ⟨entry', read', same⟩ := reads handle.1 entry (inv.below handle member) read
    exact ⟨entry', read', same.trans named⟩

/-- A prepended node leaves every older node as it was. -/
theorem HandleInv.prepend (inv : HandleInv held) (target : ClassPtr) (entry : MethodEntry) :
    HandleInv { held with rt := flushClassCacheTree (held.rt.prependMethod target entry) target } := by
  have methods := (flushClassCacheTree_spec (held.rt.prependMethod target entry) target).2.1
  refine inv.of_reads ?_ fun method found old read => ⟨found, ?_, rfl⟩
  · rw [methods.nextList]
    exact Nat.le_succ _
  · rw [readMethod_of_same methods, prependMethod_eq, ← read]
    simp only [Runtime.readMethod, attachList_lists_of_lt target _ old]

/-- An overwritten IMP leaves every handle with its selector. -/
theorem HandleInv.overwrite (inv : HandleInv held) {target : ClassPtr} {sel : SEL} {method : Method} (imp : IMP)
    (found : held.rt.findMethod target sel = some method) :
    HandleInv { held with rt := flushClassCacheTree (held.rt.writeImp method imp) target } := by
  obtain ⟨_, written, live, _, _⟩ := findMethod_spec found
  have methods := (flushClassCacheTree_spec (held.rt.writeImp method imp) target).2.1
  refine inv.of_reads ?_ fun other entry _ read => ?_
  · rw [methods.nextList]
    exact Nat.le_refl _
  · rw [readMethod_of_same methods, writeImp_readMethod method imp live]
    by_cases same : other = method
    · rw [same, live] at read
      rw [if_pos same]
      have unchanged : written = entry := Option.some.inj read
      exact ⟨_, rfl, by rw [← unchanged]⟩
    · rw [if_neg same]
      exact ⟨entry, read, rfl⟩

/-- A handle that is returned is live. -/
theorem HandleInv.obtain (inv : HandleInv held) (chain : ChainInv held.rt) (target : ClassPtr) (sel : SEL) :
    HandleInv { held with handles := (handleOf held.rt target sel).toList ++ held.handles } := by
  have fresh : ∀ handle ∈ (handleOf held.rt target sel).toList, handle.1.list < held.rt.nextMethodList ∧
      ∃ entry, held.rt.readMethod handle.1 = some entry ∧ entry.sel = handle.2 := by
    intro handle member
    obtain ⟨method, found, result⟩ := Option.bind_eq_some_iff.mp (Option.mem_toList.mp member)
    obtain ⟨entry, read, rfl⟩ := Option.map_eq_some_iff.mp result
    have scan : held.rt.findMethod target sel = some method := found
    exact ⟨chain.below target _ (findMethod_spec scan).1, entry, read, rfl⟩
  refine ⟨fun handle member => ?_, fun handle member => ?_⟩
  · rcases List.mem_append.mp member with new | old
    · exact (fresh handle new).1
    · exact inv.below handle old
  · rcases List.mem_append.mp member with new | old
    · exact (fresh handle new).2
    · exact inv.live handle old

/-- A call that adds no method to the metaclass keeps the handles. -/
theorem HandleInv.step (inv : HandleInv held) (pair : PairInv image cls metaclass held.rt)
    (half : op.Permitted cls metaclass) (adds : op.AddsToClass cls held.rt) (result : op.exec held = some next) :
    HandleInv next := by
  cases added : op.added held.rt with
  | some entry =>
      rw [(pair.prepends_iff half).mpr adds entry added] at result
      obtain rfl := Option.some.inj result
      exact inv.prepend op.target entry
  | none =>
      cases op with
      | addMethod target sel imp types =>
          obtain rfl := Option.some.inj result
          have present := ownMethod_of_not_added added
          rw [classAddMethod_of_bound target sel imp types present]
          exact inv
      | replaceMethod target sel imp types =>
          obtain rfl := Option.some.inj result
          have present := ownMethod_of_not_added added
          cases found : held.rt.findMethod target sel with
          | none =>
              rw [findMethod_eq_none_iff.mp found] at present
              exact absurd present (by simp)
          | some method =>
              have scan : findMethodInChain held.rt (held.rt.classes target).methodList.head sel = some method := found
              rw [classReplaceMethod, scan]
              exact inv.overwrite imp found
      | getInstanceMethod target sel =>
          obtain rfl := Option.some.inj result
          exact inv.obtain pair.world.chain target sel

end Invariant

/-- After the registration of a class pair an addition prepends exactly when its target is the class, and in a
run whose additions all have that target every handle stays live. -/
theorem handles_stay_live {image : List ClassPtr} {start rt : Runtime} (static : StaticImage image start)
    (setup : Reachable ClassOp.exec (ClassOp.Permitted image) start rt) {cls metaclass : ClassPtr}
    (registered : (rt.classes cls).isRegistered = true) (isa : (rt.classes cls).isa = some metaclass) {held : Held} :
    (Reachable HandleOp.exec (fun _ op => op.Permitted cls metaclass) ⟨rt, []⟩ held →
      ∀ op : HandleOp, op.Permitted cls metaclass → (op.Prepends held ↔ op.AddsToClass cls held.rt)) ∧
    (Reachable HandleOp.exec (fun held op => op.Permitted cls metaclass ∧ op.AddsToClass cls held.rt) ⟨rt, []⟩ held →
      held.Live) := by
  have pair : PairInv image cls metaclass rt := ⟨static.worldInv_of_run setup, registered, isa⟩
  constructor
  · intro run op half
    have inv : PairInv image cls metaclass held.rt := run.invariant (fun held => PairInv image cls metaclass held.rt)
      pair fun _ _ _ inv half result => inv.step half result
    exact inv.prepends_iff half
  · intro run
    have inv : PairInv image cls metaclass held.rt ∧ HandleInv held := by
      refine run.invariant (fun held => PairInv image cls metaclass held.rt ∧ HandleInv held) ⟨pair, ?_⟩ ?_
      · exact ⟨fun _ member => absurd member List.not_mem_nil, fun _ member => absurd member List.not_mem_nil⟩
      · rintro held op next ⟨pair, inv⟩ ⟨half, adds⟩ result
        exact ⟨pair.step half result, inv.step pair half adds result⟩
    exact inv.2.live

/-- A handle of a registered class survives two additions to the class. -/
theorem handles_stay_live_registered : ∃ held : Held, held.handles = [(⟨0, 1, 0⟩, 5)] ∧ held.Live := by
  have built : ∃ rt ∈ replay ClassOp.exec (ClassOp.Permitted []) Runtime.empty
      [.allocateClassPair none .empty, .addMethod 1 5 7 none, .registerClassPair 1],
      (rt.classes 1).isRegistered = true ∧ (rt.classes 1).isa = some 0 ∧
        ∃ held ∈ replay HandleOp.exec (fun held op => op.Permitted 1 0 ∧ op.AddsToClass 1 held.rt) ⟨rt, []⟩
          [.getInstanceMethod 1 5, .addMethod 1 6 8 none, .replaceMethod 1 7 9 none, .replaceMethod 1 5 10 none],
          held.handles = [(⟨0, 1, 0⟩, 5)] := by decide +kernel
  obtain ⟨rt, setup, registered, isa, ran⟩ := exists_reachable_of_replay built
  obtain ⟨held, run, handles⟩ := exists_reachable_of_replay ran
  exact ⟨held, handles, (handles_stay_live Runtime.empty_static setup registered isa).2 run⟩

/-- The fifth method that is added to the metaclass of a registered class moves the buffer under a handle. -/
theorem metaclass_handle_dies : ∃ rt held, Reachable ClassOp.exec (ClassOp.Permitted []) Runtime.empty rt ∧
    (rt.classes 1).isRegistered = true ∧ (rt.classes 1).isa = some 0 ∧
    Reachable HandleOp.exec (fun _ op => op.Permitted 1 0) ⟨rt, []⟩ held ∧ ¬ held.Live := by
  have built : ∃ rt ∈ replay ClassOp.exec (ClassOp.Permitted []) Runtime.empty
      [.allocateClassPair none .empty, .registerClassPair 1],
      (rt.classes 1).isRegistered = true ∧ (rt.classes 1).isa = some 0 ∧
        ∃ held ∈ replay HandleOp.exec (fun _ op => op.Permitted 1 0) ⟨rt, []⟩
          [.addMethod 0 5 7 none, .getInstanceMethod 0 5, .addMethod 0 6 8 none, .addMethod 0 7 9 none,
            .addMethod 0 8 10 none, .addMethod 0 9 11 none],
          held.handles = [(⟨0, 1, 0⟩, 5)] ∧ held.rt.readMethod ⟨0, 1, 0⟩ = none := by decide +kernel
  obtain ⟨rt, setup, registered, isa, ran⟩ := exists_reachable_of_replay built
  obtain ⟨held, run, handles, dead⟩ := exists_reachable_of_replay ran
  refine ⟨rt, held, setup, registered, isa, run, fun live => ?_⟩
  obtain ⟨entry, read, _⟩ := live (⟨0, 1, 0⟩, 5) (by rw [handles]; exact List.mem_singleton_self _)
  rw [dead] at read
  exact absurd read (by simp)

end O3jc
