import O3jc.Dispatch.Bindings
import O3jc.Loading.Resolution

/-
This file builds a class hierarchy superclass first through the runtime calls.
-/

namespace O3jc

open Library

structure MethodDecl where
  name : String
  imp : IMP
  types : Option CStrPtr
  isClassMethod : Bool

structure ClassDecl where
  name : CStr
  superclass : Option Nat
  methods : List MethodDecl

/-- A hierarchy lists each class after its superclass, and its names are UTF-8 without interior nulls. -/
structure Hierarchy where
  decls : List ClassDecl
  superFirst : ∀ i (d : ClassDecl), decls[i]? = some d → ∀ s ∈ d.superclass, s < i
  named : ∀ d ∈ decls, d.name.toStr.isSome = true
  methodsNamed : ∀ d ∈ decls, ∀ m ∈ d.methods, (CStr.ofStr m.name).isSome = true

/-- The IMP of the first method of a kind with a name. -/
def findDecl (methods : List MethodDecl) (isClassMethod : Bool) (name : String) : Option IMP :=
  (methods.find? fun m => m.isClassMethod == isClassMethod && m.name == name).map MethodDecl.imp

namespace Hierarchy

def superclass (h : Hierarchy) (i : Nat) : Option Nat := h.decls[i]?.bind ClassDecl.superclass

def methods (h : Hierarchy) (i : Nat) : List MethodDecl := h.decls[i]?.elim [] ClassDecl.methods

/-- The class and its superclasses. -/
def ancestors (h : Hierarchy) (i : Nat) : List Nat := successors h.superclass h.decls.length (some i)

end Hierarchy

/-- A method is added to the class or, when it is a class method, to its isa. -/
def buildMethod (cls : ClassPtr) (rt : Runtime) (m : MethodDecl) : Option Runtime := do
  let (rt, sel) ← selRegisterNameStr rt m.name
  let target ← if m.isClassMethod then (rt.classes cls).isa else some cls
  some (classAddMethod rt target sel m.imp m.types).1

/-- The pointer of a superclass that was built before. -/
def superclassPtr (ptrs : List ClassPtr) : Option Nat → Option (Option ClassPtr)
  | none => some none
  | some s => ptrs[s]?.map some

/-- A class is allocated, gets its methods and is registered. -/
def buildClass (built : Runtime × List ClassPtr) (d : ClassDecl) : Option (Runtime × List ClassPtr) := do
  let superclass ← superclassPtr built.2 d.superclass
  let (rt, cls) ← objcAllocateClassPair built.1 superclass d.name
  let rt ← d.methods.foldlM (buildMethod cls) rt
  let rt ← objcRegisterClassPair rt cls
  some (rt, built.2 ++ [cls])

def Hierarchy.build (h : Hierarchy) (rt : Runtime) : Option (Runtime × List ClassPtr) :=
  h.decls.foldlM buildClass (rt, [])

theorem findDecl_append (methods : List MethodDecl) (m : MethodDecl) (isClassMethod : Bool) (name : String) :
    findDecl (methods ++ [m]) isClassMethod name = (findDecl methods isClassMethod name).or
      (if m.isClassMethod = isClassMethod ∧ m.name = name then some m.imp else none) := by
  rw [findDecl, findDecl, List.find?_append, List.find?_singleton, Option.map_or]
  by_cases here : m.isClassMethod = isClassMethod ∧ m.name = name
  · rw [if_pos here, if_pos (by simpa using here)]
    rfl
  · rw [if_neg here, if_neg (by simpa using here)]
    rfl

section Names

variable {base : Nat} {rt rt' : Runtime}

/-- The IMP that a class binds to the registered selector of a name. -/
def bindingNamed (rt : Runtime) (cls : ClassPtr) (name : String) : Option IMP :=
  (rt.selTable name).bind fun sel => rt.ownImp cls sel

/-- Every entry was added under a registered selector. -/
def EntriesRegistered (rt : Runtime) : Prop :=
  ∀ c, ∀ entry ∈ rt.methodEntries c, ∃ name, rt.selTable name = some entry.sel

/-- Registered selectors match exactly when their names are equal. -/
theorem SelInv.selEq_iff (inv : SelInv base rt) {a b : String} {selA selB : SEL} (first : rt.selTable a = some selA)
    (second : rt.selTable b = some selB) : selEq rt selA selB = true ↔ a = b := by
  obtain ⟨_, _, bound, nameA⟩ := inv.sels a selA first
  obtain ⟨_, _, _, nameB⟩ := inv.sels b selB second
  rw [selEq, selNamePtr, selNamePtr, nameA, nameB, beq_iff_eq]
  exact ⟨inv.injective bound, fun same => by rw [same]⟩

/-- Names and messages keep every binding, also of names that are registered later. -/
theorem bindingNamed_kept (entries : EntriesRegistered rt) (inv : SelInv base rt) (inv' : SelInv base rt')
    (keeps : KeepsDispatch rt rt') (c : ClassPtr) (name : String) :
    bindingNamed rt' c name = bindingNamed rt c name := by
  have sameEntries := congrFun keeps.classes.methods.methodEntries c
  have below : ∀ {n : String} {sel : SEL}, rt.selTable n = some sel → sel < rt.nextSelector :=
    fun found => (inv.sels _ _ found).2.1
  cases found : rt.selTable name with
  | some sel =>
      rw [bindingNamed, bindingNamed, found, keeps.table name sel found, Option.bind_some, Option.bind_some,
        Runtime.ownImp, Runtime.ownImp, Runtime.ownMethod, Runtime.ownMethod, sameEntries]
      refine congrArg (Option.map MethodEntry.imp) (List.find?_congr fun entry member => ?_)
      obtain ⟨n, registered⟩ := entries c entry member
      simp only [selEq, selNamePtr, keeps.selectors sel (below found), keeps.selectors entry.sel (below registered)]
  | none =>
      have before : bindingNamed rt c name = none := by
        rw [bindingNamed, found]
        rfl
      rw [before, bindingNamed]
      cases later : rt'.selTable name with
      | none => rfl
      | some sel =>
          rw [Option.bind_some, Runtime.ownImp, Option.map_eq_none_iff, Runtime.ownMethod, sameEntries,
            List.find?_eq_none]
          intro entry member matched
          obtain ⟨n, registered⟩ := entries c entry member
          have same := (inv'.selEq_iff (keeps.table n _ registered) later).mp matched
          rw [same, found] at registered
          exact absurd registered (by simp)

theorem EntriesRegistered.kept (entries : EntriesRegistered rt) (keeps : KeepsDispatch rt rt') :
    EntriesRegistered rt' := by
  intro c entry member
  rw [keeps.classes.methods.methodEntries] at member
  obtain ⟨name, registered⟩ := entries c entry member
  exact ⟨name, keeps.table name _ registered⟩

end Names

/-- The addresses that consecutive allocations give to the pair of a class. -/
def metaPtr (first i : Nat) : ClassPtr := first + 2 * i

def clsPtr (first i : Nat) : ClassPtr := first + 2 * i + 1

@[simp] theorem metaPtr_inj {first i j : Nat} : metaPtr first i = metaPtr first j ↔ i = j := by
  have same : first + 2 * i = first + 2 * j ↔ i = j := by omega
  exact same

@[simp] theorem clsPtr_inj {first i j : Nat} : clsPtr first i = clsPtr first j ↔ i = j := by
  have same : first + 2 * i + 1 = first + 2 * j + 1 ↔ i = j := by omega
  exact same

@[simp] theorem metaPtr_ne_clsPtr (first i j : Nat) : metaPtr first i ≠ clsPtr first j := by
  have parity : first + 2 * i ≠ first + 2 * j + 1 := by omega
  exact parity

@[simp] theorem clsPtr_ne_metaPtr (first i j : Nat) : clsPtr first i ≠ metaPtr first j :=
  (metaPtr_ne_clsPtr first j i).symm

/-- The state after the allocation of some classes, with the methods that were added to each so far. -/
structure Built (h : Hierarchy) (base first : Nat) (rt : Runtime) (count : Nat) (declared : Nat → List MethodDecl) :
    Prop where
  sel : SelInv base rt
  chain : ChainInv rt
  nextClass : rt.nextClass = first + 2 * count
  entries : EntriesRegistered rt
  caches : ∀ c, rt.cacheEntries c = []
  name : ∀ i < count, (rt.classes (clsPtr first i)).name.toStr.isSome = true
  superclass : ∀ i < count, rt.superclass (clsPtr first i) = (h.superclass i).map (clsPtr first)
  isa : ∀ i < count, (rt.classes (clsPtr first i)).isa = some (metaPtr first i)
  metaSuper : ∀ i < count, rt.superclass (metaPtr first i) = (h.superclass i).map (metaPtr first)
  metaIsa : ∀ i < count, (rt.classes (metaPtr first i)).isa = none
  instanceMethods : ∀ i < count, ∀ name,
    bindingNamed rt (clsPtr first i) name = findDecl (declared i) false name
  classMethods : ∀ i < count, ∀ name,
    bindingNamed rt (metaPtr first i) name = findDecl (declared i) true name

section Building

variable {h : Hierarchy} {base first count : Nat} {rt rt' : Runtime} {declared : Nat → List MethodDecl}

theorem Built.messaging (inv : Built h base first rt count declared) : Messaging base rt where
  sel := inv.sel
  entries c entry member := by
    obtain ⟨name, registered⟩ := inv.entries c entry member
    exact (inv.sel.sels name _ registered).2.1
  caches c entry member := by
    rw [inv.caches] at member
    exact absurd member List.not_mem_nil

/-- Registering a name leaves what was built. -/
theorem Built.registerName (inv : Built h base first rt count declared) {name : String} {sel : SEL}
    (result : selRegisterNameStr rt name = some (rt', sel)) :
    Built h base first rt' count declared ∧ rt'.selTable name = some sel := by
  obtain ⟨_, _, memory, _, _⟩ := selRegisterNameStr_spec inv.sel result
  obtain ⟨messaging, keeps, registered⟩ := inv.messaging.of_register result
  have bindings := bindingNamed_kept inv.entries inv.sel messaging.sel keeps
  refine ⟨?_, registered⟩
  exact
    { sel := messaging.sel
      chain := inv.chain.of_same keeps.classes.methods
      nextClass := keeps.classes.nextClass.trans inv.nextClass
      entries := inv.entries.kept keeps
      caches := fun c => by rw [Runtime.cacheEntries, memory.classes]; exact inv.caches c
      name := by rw [memory.classes]; exact inv.name
      superclass := by rw [keeps.classes.superclass]; exact inv.superclass
      isa := by rw [memory.classes]; exact inv.isa
      metaSuper := by rw [keeps.classes.superclass]; exact inv.metaSuper
      metaIsa := by rw [memory.classes]; exact inv.metaIsa
      instanceMethods := fun i inside n => by rw [bindings]; exact inv.instanceMethods i inside n
      classMethods := fun i inside n => by rw [bindings]; exact inv.classMethods i inside n }

/-- An added method is bound under its name, unless the class binds the name already. -/
theorem classAddMethod_bindingNamed (chain : ChainInv rt) (inv : SelInv base rt) {name : String} {sel : SEL}
    (registered : rt.selTable name = some sel) (target : ClassPtr) (imp : IMP) (types : Option CStrPtr)
    (c : ClassPtr) (other : String) :
    bindingNamed (classAddMethod rt target sel imp types).1 c other =
      (bindingNamed rt c other).or (if c = target ∧ name = other then some imp else none) := by
  cases own : rt.ownMethod target sel with
  | some entry =>
      rw [classAddMethod_of_bound target sel imp types (by rw [own]; rfl)]
      split
      · rename_i here
        have bound : bindingNamed rt c other = some entry.imp := by
          rw [here.1, ← here.2, bindingNamed, registered, Option.bind_some, Runtime.ownImp, own]
          rfl
        rw [bound]
        rfl
      · rw [Option.or_none]
  | none =>
      have binds := (classAddMethod_of_unbound chain target sel imp types own).2
      have table : (classAddMethod rt target sel imp types).1.selTable = rt.selTable :=
        congrArg SelectorMemory.selTable binds.graph.selectors
      rw [bindingNamed, table, bindingNamed]
      cases found : rt.selTable other with
      | none =>
          have different : ¬ (c = target ∧ name = other) := by
            rintro ⟨_, rfl⟩
            rw [registered] at found
            exact absurd found (by simp)
          rw [if_neg different]
          rfl
      | some s =>
          rw [Option.bind_some, Option.bind_some, binds.own,
            if_congr (and_congr_right fun _ => inv.selEq_iff registered found) rfl rfl]
          by_cases here : c = target ∧ name = other
          · have unbound : rt.ownImp c s = none := by
              obtain ⟨rfl, rfl⟩ := here
              obtain rfl := Option.some.inj (registered.symm.trans found)
              rw [Runtime.ownImp, own]
              rfl
            rw [if_pos here, if_pos here, unbound]
            rfl
          · rw [if_neg here, if_neg here, Option.or_none]

/-- Adding a method under a registered selector keeps the entries registered. -/
theorem classAddMethod_entriesRegistered (chain : ChainInv rt) (entries : EntriesRegistered rt) {name : String}
    {sel : SEL} (registered : rt.selTable name = some sel) (target : ClassPtr) (imp : IMP)
    (types : Option CStrPtr) : EntriesRegistered (classAddMethod rt target sel imp types).1 := by
  cases own : rt.ownMethod target sel with
  | some entry =>
      rw [classAddMethod_of_bound target sel imp types (by rw [own]; rfl)]
      exact entries
  | none =>
      have binds := (classAddMethod_of_unbound chain target sel imp types own).2
      have table : (classAddMethod rt target sel imp types).1.selTable = rt.selTable :=
        congrArg SelectorMemory.selTable binds.graph.selectors
      obtain ⟨⟨before, after, old, new⟩, others⟩ := classAddMethod_entries chain imp types own
      intro c entry member
      rw [table]
      by_cases same : c = target
      · rw [same, new] at member
        rcases List.mem_append.mp member with left | right
        · exact entries target entry (by rw [old]; exact List.mem_append_left after left)
        · rcases List.mem_cons.mp right with rfl | tail
          · exact ⟨name, registered⟩
          · exact entries target entry (by rw [old]; exact List.mem_append_right before tail)
      · rw [others c same] at member
        exact entries c entry member

/-- What an addition keeps of every class besides its methods. -/
structure KeepsClasses (rt rt' : Runtime) : Prop where
  graph : SameGraph rt rt'
  chain : ChainInv rt'
  empty : ∀ c, rt.cacheEntries c = [] → rt'.cacheEntries c = []

theorem classAddMethod_keeps (chain : ChainInv rt) (target : ClassPtr) (sel : SEL) (imp : IMP)
    (types : Option CStrPtr) : KeepsClasses rt (classAddMethod rt target sel imp types).1 := by
  cases own : rt.ownMethod target sel with
  | some entry =>
      rw [classAddMethod_of_bound target sel imp types (by rw [own]; rfl)]
      exact ⟨.refl rt, chain, fun _ empty => empty⟩
  | none =>
      have binds := (classAddMethod_of_unbound chain target sel imp types own).2
      refine ⟨binds.graph, binds.chain, fun c empty => ?_⟩
      rw [Runtime.cacheEntries] at empty
      rw [Runtime.cacheEntries, binds.caches]
      split
      · cases (rt.classes c).dtable <;> rfl
      · exact empty

/-- A method that is added to the last class or to its metaclass is declared last. -/
theorem Built.addMethod (inv : Built h base first rt (count + 1) declared) (m : MethodDecl) {sel : SEL}
    (registered : rt.selTable m.name = some sel) :
    Built h base first (classAddMethod rt (if m.isClassMethod then metaPtr first count else clsPtr first count)
      sel m.imp m.types).1 (count + 1) (Function.update declared count (declared count ++ [m])) := by
  have keeps := classAddMethod_keeps inv.chain (if m.isClassMethod then metaPtr first count else clsPtr first count)
    sel m.imp m.types
  have bindings := classAddMethod_bindingNamed inv.chain inv.sel registered
    (if m.isClassMethod then metaPtr first count else clsPtr first count) m.imp m.types
  have methods : ∀ i isClassMethod name (old : Option IMP),
      old = findDecl (declared i) isClassMethod name →
      old.or (if (if isClassMethod then metaPtr first i else clsPtr first i) =
        (if m.isClassMethod then metaPtr first count else clsPtr first count) ∧ m.name = name
        then some m.imp else none) =
      findDecl (Function.update declared count (declared count ++ [m]) i) isClassMethod name := by
    rintro i isClassMethod name _ rfl
    have target : ((if isClassMethod then metaPtr first i else clsPtr first i) =
        (if m.isClassMethod then metaPtr first count else clsPtr first count)) ↔
        i = count ∧ m.isClassMethod = isClassMethod := by
      cases isClassMethod <;> cases m.isClassMethod <;> simp
    by_cases last : i = count
    · subst last
      rw [Function.update_self, findDecl_append]
      refine congrArg _ (if_congr ?_ rfl rfl)
      rw [target]
      simp
    · rw [Function.update_of_ne last, if_neg fun here => last (target.mp here.1).1, Option.or_none]
  exact
    { sel := inv.sel.of_memory keeps.graph.selectors
      chain := keeps.chain
      nextClass := keeps.graph.nextClass.trans inv.nextClass
      entries := classAddMethod_entriesRegistered inv.chain inv.entries registered _ m.imp m.types
      caches := fun c => keeps.empty c (inv.caches c)
      name := fun i inside => by rw [keeps.graph.name]; exact inv.name i inside
      superclass := by rw [keeps.graph.superclass]; exact inv.superclass
      isa := fun i inside => by rw [keeps.graph.isa]; exact inv.isa i inside
      metaSuper := by rw [keeps.graph.superclass]; exact inv.metaSuper
      metaIsa := fun i inside => by rw [keeps.graph.isa]; exact inv.metaIsa i inside
      instanceMethods := fun i inside name => by
        rw [bindings]
        exact methods i false name _ (inv.instanceMethods i inside name)
      classMethods := fun i inside name => by
        rw [bindings]
        exact methods i true name _ (inv.classMethods i inside name) }

/-- A declared method can be added to the last class. -/
theorem Built.buildMethod (inv : Built h base first rt (count + 1) declared) (m : MethodDecl)
    (named : (CStr.ofStr m.name).isSome = true) :
    ∃ rt', O3jc.buildMethod (clsPtr first count) rt m = some rt' ∧
      Built h base first rt' (count + 1) (Function.update declared count (declared count ++ [m])) := by
  obtain ⟨cstr, encoded⟩ := Option.isSome_iff_exists.mp named
  obtain ⟨middle, sel, result⟩ := selRegisterNameStr_total rt encoded
  obtain ⟨inv1, registered⟩ := inv.registerName result
  refine ⟨_, ?_, inv1.addMethod m registered⟩
  simp only [O3jc.buildMethod, result, Option.bind_eq_bind, Option.bind_some, inv1.isa count (Nat.lt_succ_self _)]
  cases m.isClassMethod <;> rfl

/-- The methods of a declaration can be added one after the other. -/
theorem Built.buildMethods (inv : Built h base first rt (count + 1) declared) (methods : List MethodDecl)
    (named : ∀ m ∈ methods, (CStr.ofStr m.name).isSome = true) :
    ∃ rt', methods.foldlM (O3jc.buildMethod (clsPtr first count)) rt = some rt' ∧
      Built h base first rt' (count + 1) (Function.update declared count (declared count ++ methods)) := by
  induction methods generalizing rt declared with
  | nil =>
      refine ⟨rt, rfl, ?_⟩
      rw [List.append_nil, Function.update_eq_self]
      exact inv
  | cons m rest ih =>
      obtain ⟨middle, added, inv1⟩ := inv.buildMethod m (named m List.mem_cons_self)
      obtain ⟨rt', later, inv2⟩ := ih inv1 fun other member => named other (List.mem_cons_of_mem m member)
      refine ⟨rt', ?_, ?_⟩
      · rw [List.foldlM_cons, added]
        exact later
      · rw [Function.update_self, Function.update_idem, List.append_assoc, List.singleton_append] at inv2
        exact inv2

theorem objcAllocateClassPair_total (rt : Runtime) (superclass : Option ClassPtr) {name : CStr}
    (named : name.toStr.isSome = true) : ∃ rt' cls, objcAllocateClassPair rt superclass name = some (rt', cls) := by
  obtain ⟨text, decoded⟩ := Option.isSome_iff_exists.mp named
  simp only [objcAllocateClassPair, decoded, CStr.ofStr_toStr decoded, Option.bind_eq_bind, Option.bind_some]
  cases superclass with
  | none => exact ⟨_, _, rfl⟩
  | some sup => exact ⟨_, _, rfl⟩

/-- The next allocation gives the next pair its links and no methods. -/
theorem Built.allocate (inv : Built h base first rt count declared) {name : CStr} {cls : ClassPtr}
    (named : name.toStr.isSome = true) (below : ∀ s ∈ h.superclass count, s < count)
    (result : objcAllocateClassPair rt ((h.superclass count).map (clsPtr first)) name = some (rt', cls)) :
    cls = clsPtr first count ∧ Built h base first rt' (count + 1) (Function.update declared count []) := by
  have atMeta : rt.nextClass = metaPtr first count := inv.nextClass
  have atCls : rt.nextClass + 1 = clsPtr first count := by rw [inv.nextClass]; rfl
  obtain ⟨same, step⟩ := objcAllocateClassPair_spec (fun sup link => by
    obtain ⟨s, isSuper, rfl⟩ := Option.map_eq_some_iff.mp link
    have before : first + 2 * s + 1 < first + 2 * count := by have := below s isSuper; omega
    rw [inv.nextClass]
    exact before) result
  refine ⟨same.trans atCls, ?_⟩
  have oldCls : ∀ i < count, rt.NotFresh (clsPtr first i) := by
    intro i inside
    rw [Runtime.NotFresh, atCls, atMeta]
    exact ⟨clsPtr_ne_metaPtr first i count, fun equal => Nat.ne_of_lt inside (clsPtr_inj.mp equal)⟩
  have oldMeta : ∀ i < count, rt.NotFresh (metaPtr first i) := by
    intro i inside
    rw [Runtime.NotFresh, atCls, atMeta]
    exact ⟨fun equal => Nat.ne_of_lt inside (metaPtr_inj.mp equal), metaPtr_ne_clsPtr first i count⟩
  have entries : ∀ c, rt'.methodEntries c =
      if c = rt.nextClass ∨ c = rt.nextClass + 1 then [] else rt.methodEntries c := by
    intro c
    rw [Runtime.methodEntries_eq, step.nodesOf, step.lists]
    split
    · rfl
    · rw [Runtime.methodEntries_eq]
  have table : rt'.selTable = rt.selTable := congrArg SelectorMemory.selTable step.selectors
  have bindings : ∀ c n, bindingNamed rt' c n =
      if c = rt.nextClass ∨ c = rt.nextClass + 1 then none else bindingNamed rt c n := by
    intro c n
    rw [bindingNamed, table]
    simp only [Runtime.ownImp, Runtime.ownMethod, entries, selEq_of_memory step.selectors]
    split
    · cases rt.selTable n <;> rfl
    · rfl
  have fresh : (h.superclass count).map (metaPtr first) =
      ((h.superclass count).map (clsPtr first)).bind fun sup => (rt.classes sup).isa := by
    cases link : h.superclass count with
    | none => rfl
    | some s => exact (inv.isa s (below s link)).symm
  -- Each field holds of an older pair as before and of the fresh pair by the allocation.
  have split : ∀ {i : Nat}, i < count + 1 → i < count ∨ i = count := fun inside => Nat.lt_succ_iff_lt_or_eq.mp inside
  exact
    { sel := inv.sel.of_memory step.selectors
      chain := step.chainInv inv.chain
      nextClass := by rw [step.nextClass, inv.nextClass, Nat.mul_succ, Nat.add_assoc]
      entries := fun c entry member => by
        rw [entries] at member
        rw [table]
        split at member
        · exact absurd member List.not_mem_nil
        · exact inv.entries c entry member
      caches := fun c => by
        rw [Runtime.cacheEntries]
        rcases rt.fresh_cases c with rfl | rfl | old
        · rw [step.metaclass]
          rfl
        · rw [step.cls]
          rfl
        · rw [step.dtable_old old]
          exact inv.caches c
      name := fun i inside => by
        rcases split inside with old | rfl
        · rw [step.keep_proj ObjcClass.name (fun _ _ => rfl) (oldCls i old)]
          exact inv.name i old
        · rw [← atCls, step.cls]
          exact named
      superclass := fun i inside => by
        rcases split inside with old | rfl
        · rw [step.superclass_old (oldCls i old)]
          exact inv.superclass i old
        · rw [← atCls, step.superclass_cls]
      isa := fun i inside => by
        rcases split inside with old | rfl
        · rw [step.isa_old (oldCls i old)]
          exact inv.isa i old
        · rw [← atCls, step.cls, atMeta]
      metaSuper := fun i inside => by
        rcases split inside with old | rfl
        · rw [step.superclass_old (oldMeta i old)]
          exact inv.metaSuper i old
        · rw [← atMeta, step.superclass_metaclass, fresh]
      metaIsa := fun i inside => by
        rcases split inside with old | rfl
        · rw [step.isa_old (oldMeta i old)]
          exact inv.metaIsa i old
        · rw [← atMeta, step.metaclass]
      instanceMethods := fun i inside n => by
        rw [bindings]
        rcases split inside with old | rfl
        · rw [if_neg (not_or.mpr (oldCls i old)), Function.update_of_ne (Nat.ne_of_lt old)]
          exact inv.instanceMethods i old n
        · rw [if_pos (.inr atCls.symm), Function.update_self]
          rfl
      classMethods := fun i inside n => by
        rw [bindings]
        rcases split inside with old | rfl
        · rw [if_neg (not_or.mpr (oldMeta i old)), Function.update_of_ne (Nat.ne_of_lt old)]
          exact inv.classMethods i old n
        · rw [if_pos (.inl atMeta.symm), Function.update_self]
          rfl }

/-- Registering the last class leaves what was built. -/
theorem Built.register (inv : Built h base first rt count declared) {cls : ClassPtr}
    (result : objcRegisterClassPair rt cls = some rt') : Built h base first rt' count declared := by
  obtain ⟨_, step⟩ := registerClass_spec result
  have bindings : ∀ c n, bindingNamed rt' c n = bindingNamed rt c n := by
    intro c n
    have table : rt'.selTable = rt.selTable := congrArg SelectorMemory.selTable step.selectors
    rw [bindingNamed, bindingNamed, table]
    simp only [Runtime.ownImp, Runtime.ownMethod, step.sameMethods.methodEntries, step.selEq]
  exact
    { sel := inv.sel.of_memory step.selectors
      chain := inv.chain.of_same step.sameMethods
      nextClass := step.nextClass.trans inv.nextClass
      entries := fun c entry member => by
        rw [step.sameMethods.methodEntries] at member
        obtain ⟨n, registered⟩ := inv.entries c entry member
        exact ⟨n, (congrFun (congrArg SelectorMemory.selTable step.selectors) n).trans registered⟩
      caches := fun c => by
        rw [Runtime.cacheEntries, step.proj ObjcClass.dtable fun _ => rfl]
        exact inv.caches c
      name := fun i inside => by rw [step.proj ObjcClass.name fun _ => rfl]; exact inv.name i inside
      superclass := by rw [step.superclass]; exact inv.superclass
      isa := fun i inside => by rw [step.isa]; exact inv.isa i inside
      metaSuper := by rw [step.superclass]; exact inv.metaSuper
      metaIsa := fun i inside => by rw [step.isa]; exact inv.metaIsa i inside
      instanceMethods := fun i inside n => by rw [bindings]; exact inv.instanceMethods i inside n
      classMethods := fun i inside n => by rw [bindings]; exact inv.classMethods i inside n }

/-- Every declaration whose superclass was built can be built. -/
theorem Built.buildClass (inv : Built h base first rt count declared) {d : ClassDecl}
    (declares : h.decls[count]? = some d) :
    ∃ rt', O3jc.buildClass (rt, (List.range count).map (clsPtr first)) d =
        some (rt', (List.range (count + 1)).map (clsPtr first)) ∧
      Built h base first rt' (count + 1) (Function.update declared count d.methods) := by
  have member : d ∈ h.decls := List.mem_of_getElem? declares
  have superclass : h.superclass count = d.superclass := by
    rw [Hierarchy.superclass, declares]
    rfl
  have below : ∀ s ∈ h.superclass count, s < count := fun s isSuper =>
    h.superFirst count d declares s (superclass ▸ isSuper)
  have pointer : superclassPtr ((List.range count).map (clsPtr first)) d.superclass =
      some ((h.superclass count).map (clsPtr first)) := by
    rw [superclass] at below ⊢
    cases link : d.superclass with
    | none => rfl
    | some s => simp [superclassPtr, below s link]
  obtain ⟨middle, cls, allocated⟩ :=
    objcAllocateClassPair_total rt ((h.superclass count).map (clsPtr first)) (h.named d member)
  obtain ⟨rfl, inv1⟩ := inv.allocate (h.named d member) below allocated
  obtain ⟨rt2, added, inv2⟩ := inv1.buildMethods d.methods (h.methodsNamed d member)
  rw [Function.update_self, Function.update_idem, List.nil_append] at inv2
  obtain ⟨text, decoded⟩ := Option.isSome_iff_exists.mp (inv2.name count (Nat.lt_succ_self _))
  obtain ⟨rt', registered⟩ : ∃ rt', objcRegisterClassPair rt2 (clsPtr first count) = some rt' := by
    rw [objcRegisterClassPair, registerClass, decoded]
    exact ⟨_, rfl⟩
  refine ⟨rt', ?_, inv2.register registered⟩
  simp [O3jc.buildClass, pointer, allocated, added, registered, List.range_succ]

/-- The rest of the declarations can be built one after the other. -/
theorem Built.buildRest (inv : Built h base first rt count declared) (rest : List ClassDecl)
    (split : h.decls.drop count = rest) (fits : count ≤ h.decls.length)
    (before : ∀ i < count, declared i = h.methods i) :
    ∃ rt' declared', rest.foldlM O3jc.buildClass (rt, (List.range count).map (clsPtr first)) =
        some (rt', (List.range h.decls.length).map (clsPtr first)) ∧
      Built h base first rt' h.decls.length declared' ∧ ∀ i < h.decls.length, declared' i = h.methods i := by
  induction rest generalizing rt count declared with
  | nil =>
      obtain rfl : count = h.decls.length := Nat.le_antisymm fits (List.drop_eq_nil_iff.mp split)
      exact ⟨rt, declared, rfl, inv, before⟩
  | cons d rest ih =>
      have declares : h.decls[count]? = some d := by
        rw [← List.head?_drop, split]
        rfl
      have inside : count < h.decls.length := (List.getElem?_eq_some_iff.mp declares).1
      have split' : h.decls.drop (count + 1) = rest := by
        rw [← List.tail_drop, split]
        rfl
      obtain ⟨middle, built, inv1⟩ := inv.buildClass declares
      have before' : ∀ i < count + 1, Function.update declared count d.methods i = h.methods i := by
        intro i below
        rcases Nat.lt_succ_iff_lt_or_eq.mp below with old | rfl
        · rw [Function.update_of_ne (Nat.ne_of_lt old), before i old]
        · rw [Function.update_self, Hierarchy.methods, declares]
          rfl
      obtain ⟨rt', declared', later, inv2⟩ := ih inv1 split' inside before'
      refine ⟨rt', declared', ?_, inv2⟩
      rw [List.foldlM_cons, built]
      exact later

end Building

/-- Before the first allocation nothing is built. -/
theorem StaticImage.built {image : List ClassPtr} {rt : Runtime} (static : StaticImage image rt) {base : Nat}
    (sel : SelInv base rt) (h : Hierarchy) : Built h base rt.nextClass rt 0 fun _ => [] where
  sel := sel
  chain := static.chainInv
  nextClass := rfl
  entries c entry member := by
    rw [Runtime.methodEntries_eq, static.nodesOf] at member
    exact absurd member List.not_mem_nil
  caches c := by
    rw [Runtime.cacheEntries, (static.untouched c).1]
    rfl
  name _ inside := absurd inside (Nat.not_lt_zero _)
  superclass _ inside := absurd inside (Nat.not_lt_zero _)
  isa _ inside := absurd inside (Nat.not_lt_zero _)
  metaSuper _ inside := absurd inside (Nat.not_lt_zero _)
  metaIsa _ inside := absurd inside (Nat.not_lt_zero _)
  instanceMethods _ inside := absurd inside (Nat.not_lt_zero _)
  classMethods _ inside := absurd inside (Nat.not_lt_zero _)

/-- Every hierarchy can be built, and the result has the links and the methods of its declarations. -/
theorem Hierarchy.build_spec (h : Hierarchy) {image : List ClassPtr} {rt : Runtime} (static : StaticImage image rt)
    {base : Nat} (sel : SelInv base rt) :
    ∃ dyn declared, h.build rt = some (dyn, (List.range h.decls.length).map (clsPtr rt.nextClass)) ∧
      Built h base rt.nextClass dyn h.decls.length declared ∧ ∀ i < h.decls.length, declared i = h.methods i :=
  (static.built sel h).buildRest h.decls rfl (Nat.zero_le _) fun _ inside => absurd inside (Nat.not_lt_zero _)

end O3jc
