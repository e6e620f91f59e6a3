import O3jc.Library.Simulation
import O3jc.Loading.Canonical
import Mathlib.Logic.Equiv.Basic

/-
This file says that the method-list chains of all classes are one finite map.
-/

namespace O3jc

open Library

/-- The map binds a class and an interned name to an IMP. -/
abbrev MethodTable := ClassPtr × Option CStrPtr → Option IMP

/-- The calls on method lists, among the calls that construct classes. -/
inductive MethodOp where
  | allocateClassPair (superclass : Option ClassPtr) (name : CStr)
  | registerClassPair (cls : ClassPtr)
  | loadClasses (classPtrs : List (Option ClassPtr))
  | addMethod (cls : ClassPtr) (sel : SEL) (imp : IMP) (types : Option CStrPtr)
  | replaceMethod (cls : ClassPtr) (sel : SEL) (imp : IMP) (types : Option CStrPtr)
  | getInstanceMethod (cls : Option ClassPtr) (sel : SEL)
  | exchangeImplementations (cls1 : ClassPtr) (sel1 : SEL) (cls2 : ClassPtr) (sel2 : SEL)

/-- What a call returns. A handle is read at once, and an entry shows its name and its IMP. -/
inductive MethodAnswer where
  | done
  | added (isNew : Bool)
  | replaced (old : Option IMP)
  | method (handle : Option (Option (Option CStrPtr × IMP)))
deriving DecidableEq

/-- An exchange obtains its two handles immediately before. -/
def MethodOp.exec (rt : Runtime) : MethodOp → Option (Runtime × MethodAnswer)
  | .allocateClassPair superclass name =>
      (objcAllocateClassPair rt superclass name).map fun (rt, _) => (rt, .done)
  | .registerClassPair cls => (objcRegisterClassPair rt cls).map fun rt => (rt, .done)
  | .loadClasses classPtrs => (O3jc.loadClasses rt classPtrs).map fun rt => (rt, .done)
  | .addMethod cls sel imp types => some ((classAddMethod rt cls sel imp types).map id .added)
  | .replaceMethod cls sel imp types => some ((classReplaceMethod rt cls sel imp types).map id .replaced)
  | .getInstanceMethod cls sel =>
      some (rt, .method ((classGetInstanceMethod rt cls sel).map fun method =>
        (rt.readMethod method).map fun entry => (selNamePtr rt entry.sel, entry.imp)))
  | .exchangeImplementations cls1 sel1 cls2 sel2 => do
      let m1 ← classGetInstanceMethod rt (some cls1) sel1
      let m2 ← classGetInstanceMethod rt (some cls2) sel2
      let rt ← methodExchangeImplementations rt m1 m2
      some (rt, .done)

/-- Callers pass set-up class pointers and exchange no null handle. -/
def MethodOp.Permitted (image : List ClassPtr) (rt : Runtime) : MethodOp → Prop
  | .allocateClassPair superclass _ => ∀ s ∈ superclass, (rt.classes s).isRegistered = true
  | .registerClassPair cls => (rt.classes cls).isMetaclass = false ∧ rt.Loaded cls
  | .loadClasses classPtrs => Loadable image rt classPtrs
  | .addMethod cls _ _ _ => rt.Loaded cls
  | .replaceMethod cls _ _ _ => rt.Loaded cls
  | .getInstanceMethod cls _ => ∀ c ∈ cls, rt.Loaded c
  | .exchangeImplementations cls1 sel1 cls2 sel2 =>
      (rt.Loaded cls1 ∧ (classGetInstanceMethod rt (some cls1) sel1).isSome = true) ∧
        rt.Loaded cls2 ∧ (classGetInstanceMethod rt (some cls2) sel2).isSome = true

instance MethodOp.decidablePermitted (image : List ClassPtr) (rt : Runtime) (op : MethodOp) :
    Decidable (op.Permitted image rt) :=
  match op with
  | .allocateClassPair _ _ => inferInstanceAs (Decidable (∀ s ∈ _, _ = true))
  | .registerClassPair _ => inferInstanceAs (Decidable (_ = false ∧ rt.Loaded _))
  | .loadClasses _ => inferInstanceAs (Decidable (Loadable _ _ _))
  | .addMethod _ _ _ _ => inferInstanceAs (Decidable (rt.Loaded _))
  | .replaceMethod _ _ _ _ => inferInstanceAs (Decidable (rt.Loaded _))
  | .getInstanceMethod _ _ => inferInstanceAs (Decidable (∀ c ∈ _, rt.Loaded c))
  | .exchangeImplementations _ _ _ _ =>
      inferInstanceAs (Decidable ((rt.Loaded _ ∧ _ = true) ∧ rt.Loaded _ ∧ _ = true))

/-- The keys of a list of entries. -/
def keysOf (rt : Runtime) (entries : List MethodEntry) : List (Option CStrPtr) :=
  entries.map fun entry => selNamePtr rt entry.sel

/-- The binding that a compiled method list gives to a name. -/
def compiledBinding (rt0 : Runtime) (cls : ClassPtr) (name : Option CStrPtr) : Option IMP :=
  ((compiledEntries (rt0.classes cls).methodList).find? fun entry => selNamePtr rt0 entry.sel == name).map
    MethodEntry.imp

namespace MethodTable

/-- A loaded pair gets the bindings of its compiled lists. -/
def loadPair (rt0 : Runtime) (table : MethodTable) (cls : ClassPtr) : MethodTable := fun key =>
  if key.1 = cls ∨ (rt0.classes cls).isa = some key.1 then compiledBinding rt0 key.1 key.2 else table key

/-- What the calls mean on the map, given the compiled lists and the names of the selectors. -/
def exec (rt0 : Runtime) (table : MethodTable) : MethodOp → Option (MethodTable × MethodAnswer)
  | .allocateClassPair _ _ => some (table, .done)
  | .registerClassPair _ => some (table, .done)
  | .loadClasses classPtrs => some (classPtrs.reduceOption.foldl (loadPair rt0) table, .done)
  | .addMethod cls sel imp _ =>
      if (table (cls, selNamePtr rt0 sel)).isSome then some (table, .added false)
      else some (Function.update table (cls, selNamePtr rt0 sel) (some imp), .added true)
  | .replaceMethod cls sel imp _ =>
      some (Function.update table (cls, selNamePtr rt0 sel) (some imp),
        .replaced (table (cls, selNamePtr rt0 sel)))
  | .getInstanceMethod cls sel =>
      some (table, .method ((cls.bind fun c => table (c, selNamePtr rt0 sel)).map fun imp =>
        some (selNamePtr rt0 sel, imp)))
  | .exchangeImplementations cls1 sel1 cls2 sel2 =>
      some (table ∘ Equiv.swap (cls1, selNamePtr rt0 sel1) (cls2, selNamePtr rt0 sel2), .done)

end MethodTable

/-- Every chain holds at most one entry for a name, and the map holds exactly the entries. -/
structure Represents (rt : Runtime) (table : MethodTable) : Prop where
  unique : ∀ cls, (keysOf rt (rt.methodEntries cls)).Nodup
  binds : ∀ cls name imp, table (cls, name) = some imp ↔
    ∃ entry ∈ rt.methodEntries cls, selNamePtr rt entry.sel = name ∧ entry.imp = imp

section Keys

variable {rt rt' : Runtime} {cls : ClassPtr} {sel : SEL}

theorem selNamePtr_of_memory (same : rt'.selectorMemory = rt.selectorMemory) : selNamePtr rt' = selNamePtr rt := by
  funext sel
  have selectors : rt'.selectors = rt.selectors := congrArg SelectorMemory.selectors same
  rw [selNamePtr, selNamePtr, selectors]

theorem keysOf_of_memory (same : rt'.selectorMemory = rt.selectorMemory) (entries : List MethodEntry) :
    keysOf rt' entries = keysOf rt entries := by
  rw [keysOf, keysOf, selNamePtr_of_memory same]

theorem ownMethod_eq_none_iff_keys :
    rt.ownMethod cls sel = none ↔ selNamePtr rt sel ∉ keysOf rt (rt.methodEntries cls) := by
  simp [Runtime.ownMethod, keysOf, selEq]

/-- In a list without duplicates the first match is the only entry with the name. -/
theorem find_key_eq_some_iff {entries : List MethodEntry} (unique : (keysOf rt entries).Nodup)
    {name : Option CStrPtr} {imp : IMP} :
    (entries.find? fun entry => selNamePtr rt entry.sel == name).map MethodEntry.imp = some imp ↔
      ∃ entry ∈ entries, selNamePtr rt entry.sel = name ∧ entry.imp = imp := by
  constructor
  · intro bound
    obtain ⟨entry, first, rfl⟩ := Option.map_eq_some_iff.mp bound
    have named := List.find?_some first
    exact ⟨entry, List.mem_of_find?_eq_some first, by simpa using named, rfl⟩
  · rintro ⟨entry, member, named, rfl⟩
    have found : (entries.find? fun entry => selNamePtr rt entry.sel == name).isSome = true := by
      rw [List.find?_isSome]
      exact ⟨entry, member, by simp [named]⟩
    obtain ⟨first, isFirst⟩ := Option.isSome_iff_exists.mp found
    have named' : selNamePtr rt first.sel = name := by
      have holds := List.find?_some isFirst
      simpa using holds
    have same : first = entry := List.inj_on_of_nodup_map unique (List.mem_of_find?_eq_some isFirst) member
      (named'.trans named.symm)
    rw [isFirst, same]
    rfl

theorem ownImp_eq_some_iff (unique : (keysOf rt (rt.methodEntries cls)).Nodup) {imp : IMP} :
    rt.ownImp cls sel = some imp ↔
      ∃ entry ∈ rt.methodEntries cls, selNamePtr rt entry.sel = selNamePtr rt sel ∧ entry.imp = imp :=
  find_key_eq_some_iff unique

/-- An entry under an unbound name keeps the names distinct. -/
theorem nodup_keys_insert {before after : List MethodEntry} {entry : MethodEntry}
    (unique : (keysOf rt (before ++ after)).Nodup) (unbound : selNamePtr rt entry.sel ∉ keysOf rt (before ++ after)) :
    (keysOf rt (before ++ entry :: after)).Nodup := by
  rw [keysOf, List.map_append] at unique unbound
  rw [keysOf, List.map_append, List.map_cons, List.nodup_middle]
  exact List.nodup_cons.mpr ⟨unbound, unique⟩

/-- A write of an IMP keeps the names of every chain. -/
theorem writeImp_keys (method : Method) (imp : IMP) (cls : ClassPtr) :
    keysOf rt ((rt.writeImp method imp).methodEntries cls) = keysOf rt (rt.methodEntries cls) := by
  rw [Runtime.methodEntries_eq, Runtime.methodEntries_eq, writeImp_nodesOf, keysOf, keysOf, List.map_flatMap,
    List.map_flatMap]
  refine List.flatMap_congr fun node _ => ?_
  rw [Runtime.writeImp, modifyMethodList_lists]
  split
  · rename_i same
    rw [same]
    apply List.ext_getElem?
    intro index
    simp only [List.getElem?_map, List.getElem?_modify]
    cases (rt.methodLists method.list).entries.items[index]? with
    | none => rfl
    | some entry => by_cases here : method.index = index <;> simp [here]
  · rfl

end Keys

section Representation

variable {rt rt' : Runtime} {table table' : MethodTable}

/-- The first match of a class is the binding of the map. -/
theorem Represents.own (rep : Represents rt table) (cls : ClassPtr) (sel : SEL) :
    rt.ownImp cls sel = table (cls, selNamePtr rt sel) := by
  apply Option.ext
  intro imp
  rw [ownImp_eq_some_iff (rep.unique cls), rep.binds]

/-- The map is determined by its bindings of selectors. -/
theorem Represents.of_own (unique : ∀ cls, (keysOf rt (rt.methodEntries cls)).Nodup)
    (own : ∀ cls sel, rt.ownImp cls sel = table (cls, selNamePtr rt sel))
    (named : ∀ cls name imp, table (cls, name) = some imp → ∃ sel, selNamePtr rt sel = name) : Represents rt table where
  unique := unique
  binds cls name imp := by
    constructor
    · intro bound
      obtain ⟨sel, rfl⟩ := named cls name imp bound
      exact (ownImp_eq_some_iff (unique cls)).mp ((own cls sel).trans bound)
    · rintro ⟨entry, member, rfl, rfl⟩
      rw [← own]
      exact (ownImp_eq_some_iff (unique cls)).mpr ⟨entry, member, rfl, rfl⟩

theorem Represents.named (rep : Represents rt table) {cls : ClassPtr} {name : Option CStrPtr} {imp : IMP}
    (bound : table (cls, name) = some imp) : ∃ sel, selNamePtr rt sel = name := by
  obtain ⟨entry, _, same, _⟩ := (rep.binds cls name imp).mp bound
  exact ⟨entry.sel, same⟩

/-- A state with the same chains and names has the same map. -/
theorem Represents.of_entries (rep : Represents rt table) (names : selNamePtr rt' = selNamePtr rt)
    (entries : ∀ cls, rt'.methodEntries cls = rt.methodEntries cls) : Represents rt' table where
  unique cls := by
    rw [keysOf, names, entries]
    exact rep.unique cls
  binds cls name imp := by
    rw [names, entries]
    exact rep.binds cls name imp

/-- A binding updates the map at one key. -/
theorem Represents.of_binds (rep : Represents rt table) {cls : ClassPtr} {sel : SEL} {imp : IMP}
    {flushed : List ClassPtr} (binds : Binds rt rt' cls sel imp flushed)
    (unique : ∀ c, (keysOf rt (rt'.methodEntries c)).Nodup) :
    Represents rt' (Function.update table (cls, selNamePtr rt sel) (some imp)) := by
  have names := selNamePtr_of_memory binds.graph.selectors
  refine .of_own (fun c => ?_) (fun c s => ?_) fun c name found bound => ?_
  · rw [keysOf, names]
    exact unique c
  · rw [binds.own, names, rep.own, Function.update_apply]
    refine if_congr ?_ rfl rfl
    rw [Prod.mk.injEq, selEq, beq_iff_eq, eq_comm (a := selNamePtr rt sel)]
  · rw [Function.update_apply] at bound
    rw [names]
    split at bound
    · rename_i here
      exact ⟨sel, (congrArg Prod.snd here).symm⟩
    · exact rep.named bound

end Representation

section Methods

variable {rt rt' : Runtime} {table : MethodTable} (chain : ChainInv rt) (rep : Represents rt table)

/-- An added method is one new entry of one chain. -/
theorem classAddMethod_entries (chain : ChainInv rt) {cls : ClassPtr} {sel : SEL} (imp : IMP)
    (types : Option CStrPtr) (unbound : rt.ownMethod cls sel = none) :
    (∃ before after, rt.methodEntries cls = before ++ after ∧
      (classAddMethod rt cls sel imp types).1.methodEntries cls = before ++ ⟨imp, sel, types⟩ :: after) ∧
    ∀ c, c ≠ cls → (classAddMethod rt cls sel imp types).1.methodEntries c = rt.methodEntries c := by
  rw [classAddMethod, methodExists_eq, unbound, Option.isSome_none, if_neg (by simp)]
  split
  · have flushed := (flushClassCacheTree_spec (rt.prependMethod cls ⟨imp, sel, types⟩) cls).2.1.methodEntries
    refine ⟨⟨[], rt.methodEntries cls, rfl, ?_⟩, fun c different => ?_⟩
    · rw [flushed, prependMethod_entries chain, if_pos rfl]
      rfl
    · rw [flushed, prependMethod_entries chain, if_neg different]
  · exact (pushMethod_spec chain cls ⟨imp, sel, types⟩).2

include chain rep

theorem add_represents {cls : ClassPtr} {sel : SEL} (imp : IMP) (types : Option CStrPtr)
    (unbound : rt.ownMethod cls sel = none) :
    Represents (classAddMethod rt cls sel imp types).1
      (Function.update table (cls, selNamePtr rt sel) (some imp)) := by
  refine rep.of_binds (classAddMethod_of_unbound chain cls sel imp types unbound).2 fun c => ?_
  obtain ⟨⟨before, after, old, new⟩, others⟩ := classAddMethod_entries chain imp types unbound
  by_cases same : c = cls
  · subst same
    have free := ownMethod_eq_none_iff_keys.mp unbound
    have unique := rep.unique c
    rw [old] at free unique
    rw [new]
    exact nodup_keys_insert unique free
  · rw [others c same]
    exact rep.unique c

/-- `class_add_method` acts as the map does. -/
theorem addMethod_simulated (cls : ClassPtr) (sel : SEL) (imp : IMP) (types : Option CStrPtr) :
    if (table (cls, selNamePtr rt sel)).isSome = true then classAddMethod rt cls sel imp types = (rt, false)
    else (classAddMethod rt cls sel imp types).2 = true ∧
      Represents (classAddMethod rt cls sel imp types).1
        (Function.update table (cls, selNamePtr rt sel) (some imp)) := by
  rw [← rep.own, Runtime.ownImp, Option.isSome_map]
  split
  · rename_i bound
    exact classAddMethod_of_bound cls sel imp types bound
  · rename_i free
    have unbound : rt.ownMethod cls sel = none := Option.not_isSome_iff_eq_none.mp free
    exact ⟨(classAddMethod_of_unbound chain cls sel imp types unbound).1, add_represents chain rep imp types unbound⟩

/-- `class_replace_method` acts as the map does. -/
theorem replaceMethod_simulated (cls : ClassPtr) (sel : SEL) (imp : IMP) (types : Option CStrPtr) :
    (classReplaceMethod rt cls sel imp types).2 = table (cls, selNamePtr rt sel) ∧
      Represents (classReplaceMethod rt cls sel imp types).1
        (Function.update table (cls, selNamePtr rt sel) (some imp)) := by
  refine ⟨(classReplaceMethod_old cls sel imp types).trans (rep.own cls sel), ?_⟩
  cases found : rt.findMethod cls sel with
  | none =>
      have missing : findMethodInChain rt (rt.classes cls).methodList.head sel = none := found
      rw [classReplaceMethod, missing]
      exact add_represents chain rep imp types (findMethod_eq_none_iff.mp found)
  | some method =>
      refine rep.of_binds (classReplaceMethod_binds chain cls sel imp types) fun c => ?_
      have found' : findMethodInChain rt (rt.classes cls).methodList.head sel = some method := found
      rw [classReplaceMethod, found']
      dsimp only
      rw [(flushClassCacheTree_spec (rt.writeImp method imp) cls).2.1.methodEntries, writeImp_keys]
      exact rep.unique c

omit chain in
/-- The returned handle reads the binding of the map. -/
theorem getInstanceMethod_simulated (cls : Option ClassPtr) (sel : SEL) :
    ((classGetInstanceMethod rt cls sel).map fun method =>
      (rt.readMethod method).map fun entry => (selNamePtr rt entry.sel, entry.imp)) =
    (cls.bind fun c => table (c, selNamePtr rt sel)).map fun imp => some (selNamePtr rt sel, imp) := by
  cases cls with
  | none => rfl
  | some c =>
      rw [Option.bind_some, ← rep.own, Runtime.ownImp]
      have scan : classGetInstanceMethod rt (some c) sel = rt.findMethod c sel := rfl
      rw [scan]
      cases found : rt.findMethod c sel with
      | none =>
          rw [findMethod_eq_none_iff.mp found]
          rfl
      | some method =>
          obtain ⟨_, entry, read, own, named⟩ := findMethod_spec found
          have same : selNamePtr rt entry.sel = selNamePtr rt sel := by simpa [selEq] using named
          rw [own, Option.map_some, Option.map_some, Option.map_some, read, Option.map_some, same]

omit chain rep in
/-- An exchange keeps the names of every chain. -/
theorem exchange_keys {m1 m2 : Method} (result : methodExchangeImplementations rt m1 m2 = some rt')
    (cls : ClassPtr) : keysOf rt' (rt'.methodEntries cls) = keysOf rt (rt.methodEntries cls) := by
  simp only [methodExchangeImplementations, Option.bind_eq_bind, Option.bind_eq_some_iff,
    Option.some.injEq] at result
  obtain ⟨first, _, second, _, rfl⟩ := result
  have graph1 : SameGraph rt (rt.writeImp m1 second.imp) := writeImp_sameGraph m1 second.imp
  have graph2 := graph1.trans (writeImp_sameGraph m2 first.imp)
  obtain ⟨graph3, methods, _⟩ := flushAllCaches_spec ((rt.writeImp m1 second.imp).writeImp m2 first.imp)
  rw [keysOf_of_memory (graph2.trans graph3).selectors, methods.methodEntries,
    ← keysOf_of_memory graph1.selectors, writeImp_keys, keysOf_of_memory graph1.selectors, writeImp_keys]

omit rep in
/-- A scan ends at a handle exactly for the class and the name that the handle was obtained with. -/
theorem findMethod_eq_some_iff {cls other : ClassPtr} {sel s : SEL} {method : Method}
    (found : rt.findMethod cls sel = some method) :
    rt.findMethod other s = some method ↔ other = cls ∧ selNamePtr rt s = selNamePtr rt sel := by
  obtain ⟨inCls, entry, read, _, named⟩ := findMethod_spec found
  have named : selNamePtr rt entry.sel = selNamePtr rt sel := by simpa [selEq] using named
  constructor
  · intro again
    obtain ⟨inOther, entry', read', _, named'⟩ := findMethod_spec again
    obtain rfl : entry = entry' := Option.some.inj (read.symm.trans read')
    have named' : selNamePtr rt entry.sel = selNamePtr rt s := by simpa [selEq] using named'
    exact ⟨chain.disjoint other cls _ inOther inCls, named'.symm.trans named⟩
  · rintro ⟨rfl, same⟩
    rw [← found, Runtime.findMethod_eq, Runtime.findMethod_eq]
    have scans : findMethodInList rt s = findMethodInList rt sel := by
      funext node
      simp only [findMethodInList, selEq, same]
    rw [scans]

/-- `method_exchange_implementations` swaps the two keys of its handles. -/
theorem exchange_simulated {cls1 cls2 : ClassPtr} {sel1 sel2 : SEL} {m1 m2 : Method}
    (found1 : rt.findMethod cls1 sel1 = some m1) (found2 : rt.findMethod cls2 sel2 = some m2)
    (result : methodExchangeImplementations rt m1 m2 = some rt') :
    rt'.selectorMemory = rt.selectorMemory ∧
      Represents rt' (table ∘ Equiv.swap (cls1, selNamePtr rt sel1) (cls2, selNamePtr rt sel2)) := by
  obtain ⟨first, second, swap⟩ := methodExchangeImplementations_spec chain result
  have names := selNamePtr_of_memory swap.graph.selectors
  have atKey : ∀ {cls : ClassPtr} {sel : SEL} {method : Method}, rt.findMethod cls sel = some method → ∀ c s,
      rt.findMethod c s = some method ↔ (c, selNamePtr rt s) = (cls, selNamePtr rt sel) := by
    intro cls sel method found c s
    rw [findMethod_eq_some_iff chain found, Prod.mk.injEq]
  have bound : ∀ {cls : ClassPtr} {sel : SEL} {method : Method} {entry : MethodEntry},
      rt.findMethod cls sel = some method → rt.readMethod method = some entry →
      table (cls, selNamePtr rt sel) = some entry.imp := by
    intro cls sel method entry found read
    rw [← rep.own, Runtime.ownImp, ← findMethod_bind_read, found, Option.bind_some, read]
    rfl
  refine ⟨swap.graph.selectors, .of_own (fun c => ?_) (fun c s => ?_) fun c name imp bound => ?_⟩
  · rw [exchange_keys result]
    exact rep.unique c
  · rw [Runtime.ownImp, ← findMethod_bind_read, swap.find, names, Function.comp_apply]
    by_cases second : rt.findMethod c s = some m2
    · rw [second, Option.bind_some, swap.read, if_pos rfl, (atKey found2 c s).mp second, Equiv.swap_apply_right,
        bound found1 swap.live1]
      rfl
    · by_cases first : rt.findMethod c s = some m1
      · have apart : m1 ≠ m2 := fun same => second (same ▸ first)
        rw [first, Option.bind_some, swap.read, if_neg apart, if_pos rfl, (atKey found1 c s).mp first,
          Equiv.swap_apply_left, bound found2 swap.live2]
        rfl
      · -- A key of neither handle keeps its binding.
        rw [Equiv.swap_apply_of_ne_of_ne (fun same => first ((atKey found1 c s).mpr same))
          fun same => second ((atKey found2 c s).mpr same), ← rep.own, Runtime.ownImp, ← findMethod_bind_read]
        cases found : rt.findMethod c s with
        | none => rfl
        | some method =>
            rw [found] at first second
            rw [Option.bind_some, Option.bind_some, swap.read, if_neg fun same => second (congrArg some same),
              if_neg fun same => first (congrArg some same)]
  · rw [Function.comp_apply, Equiv.swap_apply_def] at bound
    rw [names]
    split at bound
    · rename_i here
      exact ⟨sel1, (congrArg Prod.snd here).symm⟩
    · split at bound
      · rename_i here
        exact ⟨sel2, (congrArg Prod.snd here).symm⟩
      · exact rep.named bound

end Methods

section Unlisted

variable {rt rt' : Runtime} {cls c : ClassPtr} {sel : SEL} {imp : IMP}

/-- A mutation of one class leaves the method-list field of every other class. -/
theorem classAddMethod_methodList (types : Option CStrPtr) (different : c ≠ cls) :
    ((classAddMethod rt cls sel imp types).1.classes c).methodList = (rt.classes c).methodList := by
  unfold classAddMethod
  split
  · rfl
  · split
    · rw [flushClassCacheTree_eq, foldl_flushCache_methodList, Runtime.prependMethod,
        Runtime.modifyClass_classes_of_ne _ _ _ different]
      rfl
    · rw [Runtime.pushMethod, Runtime.headOrNew]
      cases (rt.classes cls).methodList.head with
      | some head => rfl
      | none =>
          have attached := Runtime.modifyClass_classes_of_ne (rt.allocMethodList ⟨none, .empty⟩) cls
            (fun k => { k with methodList := .runtime rt.nextMethodList }) different
          exact congrArg ObjcClass.methodList attached

theorem classReplaceMethod_methodList (types : Option CStrPtr) (different : c ≠ cls) :
    ((classReplaceMethod rt cls sel imp types).1.classes c).methodList = (rt.classes c).methodList := by
  unfold classReplaceMethod
  split
  · rw [flushClassCacheTree_eq, foldl_flushCache_methodList]
    rfl
  · exact classAddMethod_methodList types different

theorem exchange_methodList {m1 m2 : Method} (result : methodExchangeImplementations rt m1 m2 = some rt') :
    (rt'.classes c).methodList = (rt.classes c).methodList := by
  simp only [methodExchangeImplementations, Option.bind_eq_bind, Option.bind_eq_some_iff,
    Option.some.injEq] at result
  obtain ⟨first, _, second, _, rfl⟩ := result
  rw [flushAllCaches_eq, foldl_flushCache_methodList]
  rfl

end Unlisted

/-- No compiled method list names a selector twice. -/
def DistinctCompiled (rt0 : Runtime) : Prop :=
  ∀ cls, (keysOf rt0 (compiledEntries (rt0.classes cls).methodList)).Nodup

/-- The invariant of the runs: what is not loaded is as compiled, and the map is represented. -/
structure BindingInv (image : List ClassPtr) (rt0 rt : Runtime) (table : MethodTable) : Prop where
  world : WorldInv image rt
  memory : rt.selectorMemory = rt0.selectorMemory
  compiled : ∀ c, ¬ rt.Loaded c →
    (rt.classes c).methodList = (rt0.classes c).methodList ∧ (rt.classes c).isa = (rt0.classes c).isa
  represents : Represents rt table

section Invariant

variable {image : List ClassPtr} {rt0 rt rt' : Runtime} {table table' : MethodTable}

theorem StaticImage.bindingInv (static : StaticImage image rt0) : BindingInv image rt0 rt0 fun _ => none where
  world := static.worldInv
  memory := rfl
  compiled _ _ := ⟨rfl, rfl⟩
  represents := by
    have noEntries : ∀ cls, rt0.methodEntries cls = [] := by
      intro cls
      rw [Runtime.methodEntries_eq, static.nodesOf]
      rfl
    refine ⟨fun cls => ?_, fun cls name imp => ?_⟩
    · rw [noEntries]
      exact List.nodup_nil
    · rw [noEntries]
      simp

variable (inv : BindingInv image rt0 rt table)

include inv

/-- A method call keeps the class graph and leaves the fields of other classes. -/
theorem BindingInv.of_sameGraph (graph : SameGraph rt rt') (world : WorldInv image rt') {cls : ClassPtr}
    (loaded : rt.Loaded cls)
    (others : ∀ c, c ≠ cls → (rt'.classes c).methodList = (rt.classes c).methodList)
    (represents : Represents rt' table') : BindingInv image rt0 rt' table' where
  world := world
  memory := graph.selectors.trans inv.memory
  compiled c unloaded := by
    rw [graph.loaded_iff] at unloaded
    rw [others c fun same => unloaded (same ▸ loaded), graph.isa]
    exact inv.compiled c unloaded
  represents := represents

/-- One turn of the loader gives a class pair the bindings of its compiled lists. -/
theorem BindingInv.loadClass (distinct : DistinctCompiled rt0) {cls : ClassPtr} (member : cls ∈ image)
    (unloaded : ¬ rt.Loaded cls) (result : loadClass rt cls = some rt') :
    BindingInv image rt0 rt' (MethodTable.loadPair rt0 table cls) := by
  have graph := inv.world.graph
  obtain ⟨kind, below, _⟩ := graph.imageClass cls member
  obtain ⟨metaclass, isa⟩ := Option.isSome_iff_exists.mp (graph.hasIsa cls kind below)
  obtain ⟨root, name, _, _, step⟩ := loadClass_spec inv.world.chain graph kind below isa result
  have metaUnloaded := installed_meta_unloaded graph kind isa unloaded
  have isa0 : (rt0.classes cls).isa = some metaclass := (inv.compiled cls unloaded).2.symm.trans isa
  have names := selNamePtr_of_memory inv.memory
  have names' := selNamePtr_of_memory (step.selectors.trans inv.memory)
  have entries : ∀ c, rt'.methodEntries c =
      if c = cls ∨ c = metaclass then compiledEntries (rt0.classes c).methodList else rt.methodEntries c := by
    intro c
    rw [Runtime.methodEntries_eq_chainOf, step.chains]
    split
    · rename_i inPair
      have old : ¬ rt.Loaded c := by
        rcases inPair with rfl | rfl
        · exact unloaded
        · exact metaUnloaded
      rw [compiledChain_items, (inv.compiled c old).1]
    · rw [Runtime.methodEntries_eq_chainOf]
  refine ⟨(loadClass_world inv.world member unloaded result).1, step.selectors.trans inv.memory, fun c old => ?_,
    fun c => ?_, fun c name imp => ?_⟩
  · rw [step.loaded_iff, not_or, not_or] at old
    rw [step.methods c old.1 old.2.1, step.isaOld c old.2.1]
    exact inv.compiled c old.2.2
  · rw [keysOf, names', entries]
    split
    · exact distinct c
    · have unique := inv.represents.unique c
      rw [keysOf, names] at unique
      exact unique
  · have inPair : (c = cls ∨ (rt0.classes cls).isa = some c) ↔ c = cls ∨ c = metaclass := by
      rw [isa0, Option.some.injEq, eq_comm (a := metaclass)]
    rw [MethodTable.loadPair, if_congr inPair rfl rfl, names', entries]
    split
    · exact find_key_eq_some_iff (distinct c)
    · rw [inv.represents.binds, names]

/-- `load_classes` gives every pair of the list its bindings, one after the other. -/
theorem BindingInv.loadClasses (distinct : DistinctCompiled rt0) {classPtrs : List (Option ClassPtr)}
    (loadable : Loadable image rt classPtrs) (result : loadClasses rt classPtrs = some rt') :
    BindingInv image rt0 rt' (classPtrs.reduceOption.foldl (MethodTable.loadPair rt0) table) := by
  induction classPtrs generalizing rt table with
  | nil =>
      obtain rfl : rt = rt' := Option.some.inj result
      exact inv
  | cons entry rest ih =>
      rw [O3jc.loadClasses, List.foldlM_cons] at result
      obtain ⟨middle, turn, later⟩ := Option.bind_eq_some_iff.mp result
      cases entry with
      | none =>
          obtain rfl : rt = middle := Option.some.inj turn
          exact ih inv loadable later
      | some cls =>
          obtain ⟨member, unloaded, loadable1⟩ := loadable.tail inv.world turn
          rw [List.reduceOption_cons_of_some]
          exact ih (inv.loadClass distinct member unloaded turn) loadable1 later

/-- A fresh class pair has empty rows. -/
theorem BindingInv.allocate {superclass : Option ClassPtr} {name : CStr} {cls : ClassPtr}
    (known : ∀ s ∈ superclass, (rt.classes s).isRegistered = true)
    (result : objcAllocateClassPair rt superclass name = some (rt', cls)) : BindingInv image rt0 rt' table := by
  obtain ⟨world, ext, step⟩ := allocate_world inv.world known result
  refine ⟨world, step.selectors.trans inv.memory, fun c unloaded => ?_, inv.represents.of_entries
    (selNamePtr_of_memory step.selectors) fun c => ?_⟩
  · have old := step.notFresh_of_unloaded unloaded
    rw [step.keep_proj ObjcClass.methodList (fun _ _ => rfl) old, step.isa_old old]
    exact inv.compiled c fun loaded => unloaded (ext.loaded c loaded)
  · by_cases loaded : rt.Loaded c
    · exact ext.entries c loaded
    · by_cases loaded' : rt'.Loaded c
      · -- Only the fresh pair becomes loaded, and its chains are empty.
        have empty : rt.methodEntries c = [] := by
          rw [List.eq_nil_iff_forall_not_mem]
          intro entry member
          have bound : rt.ownImp c entry.sel = some entry.imp :=
            (ownImp_eq_some_iff (inv.represents.unique c)).mpr ⟨entry, member, rfl, rfl⟩
          rw [inv.world.unbound c loaded] at bound
          exact absurd bound (by simp)
        have fresh : c = rt.nextClass ∨ c = rt.nextClass + 1 := by
          by_contra old
          exact loaded ((step.loaded_old (not_or.mp old)).mp loaded')
        rw [empty, Runtime.methodEntries_eq, step.nodesOf, if_pos fresh]
        rfl
      · exact ext.unloadedEntries c loaded'

theorem BindingInv.register {cls : ClassPtr} (kind : (rt.classes cls).isMetaclass = false) (loaded : rt.Loaded cls)
    (result : registerClass rt cls = some rt') : BindingInv image rt0 rt' table := by
  obtain ⟨world, _, name, step⟩ := register_world inv.world kind loaded result
  refine ⟨world, step.selectors.trans inv.memory, fun c unloaded => ?_, inv.represents.of_entries
    (selNamePtr_of_memory step.selectors) (congrFun step.sameMethods.methodEntries)⟩
  rw [step.proj ObjcClass.methodList fun _ => rfl, step.isa]
  exact inv.compiled c fun loaded => unloaded ((step.loaded c).mpr loaded)

/-- Every permitted call acts on the chains as it does on the map. -/
theorem BindingInv.step (distinct : DistinctCompiled rt0) {op : MethodOp} {answer : MethodAnswer}
    (allowed : op.Permitted image rt) (result : op.exec rt = some (rt', answer)) :
    ∃ table', MethodTable.exec rt0 table op = some (table', answer) ∧ BindingInv image rt0 rt' table' := by
  have chain := inv.world.chain
  have names := selNamePtr_of_memory inv.memory
  cases op with
  | allocateClassPair superclass name =>
      obtain ⟨⟨rt'', cls⟩, allocated, same⟩ := Option.map_eq_some_iff.mp result
      obtain ⟨rfl, rfl⟩ := Prod.mk.inj same
      exact ⟨table, rfl, inv.allocate allowed allocated⟩
  | registerClassPair cls =>
      obtain ⟨rt'', registered, same⟩ := Option.map_eq_some_iff.mp result
      obtain ⟨rfl, rfl⟩ := Prod.mk.inj same
      exact ⟨table, rfl, inv.register allowed.1 allowed.2 registered⟩
  | loadClasses classPtrs =>
      obtain ⟨rt'', loaded, same⟩ := Option.map_eq_some_iff.mp result
      obtain ⟨rfl, rfl⟩ := Prod.mk.inj same
      exact ⟨_, rfl, inv.loadClasses distinct allowed loaded⟩
  | addMethod cls sel imp types =>
      obtain ⟨rfl, rfl⟩ : (classAddMethod rt cls sel imp types).1 = rt' ∧
          .added (classAddMethod rt cls sel imp types).2 = answer := Prod.mk.inj (Option.some.inj result)
      have simulated := addMethod_simulated chain inv.represents cls sel imp types
      rw [names] at simulated
      rw [MethodTable.exec]
      split at simulated
      · rename_i bound
        rw [if_pos bound, simulated]
        exact ⟨table, rfl, inv⟩
      · rename_i free
        obtain ⟨isNew, represents⟩ := simulated
        have unbound : rt.ownMethod cls sel = none := by
          rw [← names, ← inv.represents.own, Runtime.ownImp, Option.isSome_map] at free
          exact Option.not_isSome_iff_eq_none.mp free
        have binds := (classAddMethod_of_unbound chain cls sel imp types unbound).2
        rw [if_neg free, isNew]
        exact ⟨_, rfl, inv.of_sameGraph binds.graph (inv.world.of_binds allowed binds) allowed
          (fun c different => classAddMethod_methodList types different) represents⟩
  | replaceMethod cls sel imp types =>
      obtain ⟨rfl, rfl⟩ : (classReplaceMethod rt cls sel imp types).1 = rt' ∧
          .replaced (classReplaceMethod rt cls sel imp types).2 = answer := Prod.mk.inj (Option.some.inj result)
      obtain ⟨old, represents⟩ := replaceMethod_simulated chain inv.represents cls sel imp types
      have binds := classReplaceMethod_binds chain cls sel imp types
      rw [names] at old represents
      rw [MethodTable.exec, old]
      exact ⟨_, rfl, inv.of_sameGraph binds.graph (inv.world.of_binds allowed binds) allowed
        (fun c different => classReplaceMethod_methodList types different) represents⟩
  | getInstanceMethod cls sel =>
      obtain ⟨rfl, rfl⟩ := Prod.mk.inj (Option.some.inj result)
      rw [getInstanceMethod_simulated inv.represents, names]
      exact ⟨table, rfl, inv⟩
  | exchangeImplementations cls1 sel1 cls2 sel2 =>
      simp only [MethodOp.exec, Option.bind_eq_bind, Option.bind_eq_some_iff, Option.some.injEq,
        Prod.mk.injEq] at result
      obtain ⟨m1, found1, m2, found2, rt'', swapped, rfl, rfl⟩ := result
      obtain ⟨_, represents⟩ := exchange_simulated chain inv.represents found1 found2 swapped
      obtain ⟨first, second, swap⟩ := methodExchangeImplementations_spec chain swapped
      rw [names] at represents
      exact ⟨_, rfl, inv.of_sameGraph swap.graph (inv.world.of_exchanges swap) allowed.1.1
        (fun c _ => exchange_methodList swapped) represents⟩

omit inv in
/-- An exchange of two handles that were just obtained returns. -/
theorem exchange_returns {cls1 cls2 : ClassPtr} {sel1 sel2 : SEL}
    (allowed : (MethodOp.exchangeImplementations cls1 sel1 cls2 sel2).Permitted image rt) :
    ((MethodOp.exchangeImplementations cls1 sel1 cls2 sel2).exec rt).isSome = true := by
  obtain ⟨⟨_, isSome1⟩, _, isSome2⟩ := allowed
  obtain ⟨m1, found1⟩ := Option.isSome_iff_exists.mp isSome1
  obtain ⟨m2, found2⟩ := Option.isSome_iff_exists.mp isSome2
  obtain ⟨_, first, read1, _⟩ := findMethod_spec (show rt.findMethod cls1 sel1 = some m1 from found1)
  obtain ⟨_, second, read2, _⟩ := findMethod_spec (show rt.findMethod cls2 sel2 = some m2 from found2)
  simp [MethodOp.exec, found1, found2, methodExchangeImplementations, read1, read2]

end Invariant

/-- Every run of method calls is a run of the map with the same answers. The chains represent the map, and a
binding of a class is what dispatch from the class finds first. -/
theorem methodChains_refine {image : List ClassPtr} {rt0 rt : Runtime} (static : StaticImage image rt0)
    (distinct : DistinctCompiled rt0) {calls : List (MethodOp × MethodAnswer)}
    (run : Traced MethodOp.exec (MethodOp.Permitted image) rt0 calls rt) :
    (∃ table, Traced (MethodTable.exec rt0) (fun _ _ => True) (fun _ => none) calls table ∧ Represents rt table ∧
      (∀ cls sel, (rt.ownMethod cls sel).map MethodEntry.imp = table (cls, selNamePtr rt sel)) ∧
      ∀ cls sel imp, table (cls, selNamePtr rt sel) = some imp → classLookupMethod rt cls sel = some imp) ∧
    ∀ cls1 sel1 cls2 sel2, (MethodOp.exchangeImplementations cls1 sel1 cls2 sel2).Permitted image rt →
      ((MethodOp.exchangeImplementations cls1 sel1 cls2 sel2).exec rt).isSome = true := by
  obtain ⟨table, abstractRun, inv⟩ := run.simulates (MethodTable.exec rt0) (BindingInv image rt0)
    (fun _ _ _ _ _ inv => inv.step distinct) static.bindingInv
  refine ⟨⟨table, abstractRun, inv.represents, inv.represents.own, fun cls sel imp bound => ?_⟩,
    fun _ _ _ _ => exchange_returns⟩
  rw [← inv.represents.own] at bound
  have loaded : rt.Loaded cls := by
    by_contra unloaded
    rw [inv.world.unbound cls unloaded] at bound
    exact absurd bound (by simp)
  have walk := inv.world.graph.ancestors_walk (inv.world.graph.lt_of_loaded loaded)
  obtain ⟨rest, ancestors, _⟩ := walk_some_iff.mp walk
  rw [classLookupMethod_eq_ownImp, ancestors, List.findSome?_cons, bound]

/-- A compiled method is exchanged with one that was added to the loaded subclass. -/
theorem methodChains_refine_compiledPair : ∃ rt calls, calls.map Prod.snd =
    [.done, .added true, .added false, .replaced none, .done, .method (some (some (some 0, 7)))] ∧
    ∃ table, Traced (MethodTable.exec compiledPair) (fun _ _ => True) (fun _ => none) calls table ∧
      Represents rt table := by
  have distinct : DistinctCompiled compiledPair := compiledPair_cases
    (fun _ cls => (keysOf compiledPair (compiledEntries cls.methodList)).Nodup) (by decide) fun _ => by decide
  have ran : ∃ ended ∈ replayTraced MethodOp.exec (MethodOp.Permitted [0, 2]) compiledPair
      [.loadClasses [some 0, some 2], .addMethod 2 0 20 none, .addMethod 0 0 30 none, .replaceMethod 0 2 9 none,
        .exchangeImplementations 0 0 2 0, .getInstanceMethod (some 2) 0],
      ended.2.map Prod.snd =
        [.done, .added true, .added false, .replaced none, .done, .method (some (some (some 0, 7)))] := by
    decide +kernel
  obtain ⟨⟨rt, calls⟩, replayed, answers⟩ := ran
  obtain ⟨⟨table, run, represents, _⟩, _⟩ :=
    methodChains_refine compiledPair_static distinct (traced_of_replay replayed)
  exact ⟨rt, calls, answers, table, run, represents⟩

end O3jc
