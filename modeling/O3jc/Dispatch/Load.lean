import O3jc.Dispatch.Register
import O3jc.Runtime.Loader

namespace O3jc

open Library

/-- The runtime entries of a compiled method list. -/
def compiledEntries (field : MethodListField) : List MethodEntry :=
  field.raw.elim [] fun list => list.entries.map fun ce => ⟨ce.imp, ce.sel, ce.types⟩

/-- The chain that a compiled method list becomes. -/
def compiledChain (field : MethodListField) : List MethodVec :=
  if compiledEntries field = [] then [] else [.exact (compiledEntries field)]

theorem compiledChain_items (field : MethodListField) :
    (compiledChain field).flatMap MethodVec.items = compiledEntries field := by
  unfold compiledChain
  split
  · rename_i empty
    rw [empty]
    rfl
  · simp [MethodVec.exact]

theorem convertMethodList_eq (rt : Runtime) (field : MethodListField) :
    convertMethodList rt field.raw =
      if compiledEntries field = [] then (rt, .null)
      else (rt.allocMethodList ⟨none, .exact (compiledEntries field)⟩, .runtime rt.nextMethodList) := by
  cases raw : field.raw with
  | none => simp [convertMethodList, compiledEntries, raw]
  | some list => simp [convertMethodList, compiledEntries, raw, CompiledMethodList.count]

/-- Patching rewrites three fields of one class and gives it its runtime chain. -/
structure Patched (rt rt' : Runtime) (cls : ClassPtr) : Prop where
  self : ∃ methods, rt'.classes cls = { rt.classes cls with
    instanceSize := patchedSize (rt.classes cls), methodList := methods, dtable := some [] }
  old : ∀ c, c ≠ cls → rt'.classes c = rt.classes c
  nextClass : rt'.nextClass = rt.nextClass
  registry : rt'.classRegistry = rt.classRegistry
  selectors : rt'.selectorMemory = rt.selectorMemory
  chain : ChainInv rt'
  chains : ∀ c, rt'.chainOf c =
    if c = cls then compiledChain (rt.classes cls).methodList else rt.chainOf c

theorem patchClass_spec {rt : Runtime} (inv : ChainInv rt) (cls : ClassPtr) :
    Patched rt (patchClass rt cls) cls := by
  simp only [patchClass, convertMethodList_eq]
  by_cases empty : compiledEntries (rt.classes cls).methodList = []
  · rw [if_pos empty]
    have clear : Cleared rt (rt.modifyClass cls fun c => { c with
        instanceSize := patchedSize (rt.classes cls), methodList := .null,
        dtable := some CacheInner.new }) cls := by
      refine ⟨?_, fun c different => ?_, rfl, rfl⟩
      · rw [Runtime.modifyClass_classes_self]
        rfl
      · rw [Runtime.modifyClass_classes_of_ne _ _ _ different]
    refine ⟨⟨.null, ?_⟩, fun c different => ?_, rfl, rfl, rfl, clear.chainInv inv, fun c => ?_⟩
    · rw [Runtime.modifyClass_classes_self]
      rfl
    · rw [Runtime.modifyClass_classes_of_ne _ _ _ different]
    · rw [clear.chainOf, compiledChain, if_pos empty]
  · rw [if_neg empty]
    -- The three writes of the conversion and the patch are one attachment and one write of plain fields.
    let list : MethodList := ⟨none, .exact (compiledEntries (rt.classes cls).methodList)⟩
    have same : SameMethods (rt.attachList cls list)
        ((rt.allocMethodList list).modifyClass cls fun c => { c with
          instanceSize := patchedSize (rt.classes cls), methodList := .runtime rt.nextMethodList,
          dtable := some CacheInner.new }) := by
      refine ⟨fun c => ?_, rfl, rfl⟩
      by_cases here : c = cls
      · subst here
        simp [Runtime.attachList]
      · rw [Runtime.attachList, Runtime.modifyClass_classes_of_ne _ _ _ here,
          Runtime.modifyClass_classes_of_ne _ _ _ here]
    have attached := attachList_chainInv inv cls list .nil (by simp)
    refine ⟨⟨.runtime rt.nextMethodList, ?_⟩, fun c different => ?_, rfl, rfl, rfl, attached.of_same same,
      fun c => ?_⟩
    · rw [Runtime.modifyClass_classes_self]
      rfl
    · rw [Runtime.modifyClass_classes_of_ne _ _ _ different]
      rfl
    · rw [same.chainOf, attachList_chainOf inv cls list .nil (by simp), compiledChain, if_neg empty]
      rfl

/-- Every projection but the size, the methods and the cache survives the patch. -/
theorem Patched.proj {rt rt' : Runtime} {cls : ClassPtr} (step : Patched rt rt' cls) {B : Type}
    (project : ObjcClass → B)
    (kept : ∀ c size methods cache,
      project { c with instanceSize := size, methodList := methods, dtable := cache } = project c)
    (c : ClassPtr) : project (rt'.classes c) = project (rt.classes c) := by
  by_cases same : c = cls
  · subst same
    obtain ⟨methods, eq⟩ := step.self
    rw [eq, kept]
  · rw [step.old c same]

/-- The class and its metaclass after the two patches of a turn. -/
def patchPair (rt : Runtime) (cls metaclass : ClassPtr) : Runtime := patchClass (patchClass rt cls) metaclass

section Turn

variable {rt : Runtime} (chain : ChainInv rt) (cls metaclass : ClassPtr)

include chain

theorem patchPair_second : Patched (patchClass rt cls) (patchPair rt cls metaclass) metaclass :=
  patchClass_spec (patchClass_spec chain cls).chain metaclass

theorem patchPair_proj {B : Type} (project : ObjcClass → B)
    (kept : ∀ c size methods cache,
      project { c with instanceSize := size, methodList := methods, dtable := cache } = project c)
    (c : ClassPtr) : project ((patchPair rt cls metaclass).classes c) = project (rt.classes c) :=
  ((patchPair_second chain cls metaclass).proj project kept c).trans ((patchClass_spec chain cls).proj project kept c)

theorem patchPair_superclass : (patchPair rt cls metaclass).superclass = rt.superclass :=
  funext (patchPair_proj chain cls metaclass ObjcClass.superClass fun _ _ _ _ => rfl)

theorem patchPair_isa (c : ClassPtr) :
    ((patchPair rt cls metaclass).classes c).isa = (rt.classes c).isa :=
  patchPair_proj chain cls metaclass ObjcClass.isa (fun _ _ _ _ => rfl) c

variable {cls metaclass}

/-- The turn of a root class links its metaclass to the class and to itself. -/
theorem loadClass_of_root (isa : (rt.classes cls).isa = some metaclass) (apart : cls ≠ metaclass)
    (kind : (rt.classes cls).isMetaclass = false) (root : rt.superclass cls = none) :
    loadClass rt cls = registerClass ((patchPair rt cls metaclass).modifyClass metaclass fun c =>
      { c with isa := some metaclass, superClass := some cls }) cls := by
  have first : ((patchClass rt cls).classes cls).isa = some metaclass := by
    rw [(patchClass_spec chain cls).proj ObjcClass.isa (fun _ _ _ _ => rfl), isa]
  have fixed : fixMetaclass (patchPair rt cls metaclass) cls metaclass =
      (patchPair rt cls metaclass).modifyClass metaclass fun c =>
        { c with isa := some metaclass, superClass := some cls } := by
    simp only [fixMetaclass, patchPair_superclass chain cls metaclass, root]
  have fixed' := fixed
  rw [patchPair] at fixed'
  simp only [loadClass, first, fixed']
  rw [← patchPair]
  generalize paired : (patchPair rt cls metaclass).modifyClass metaclass (fun c =>
    { c with isa := some metaclass, superClass := some cls }) = rt'
  have self : rt'.classes cls = (patchPair rt cls metaclass).classes cls := by
    rw [← paired, Runtime.modifyClass_classes_of_ne _ _ _ apart]
  have noSuper : rt'.superclass cls = none := by
    rw [Runtime.superclass, self]
    exact (congrFun (patchPair_superclass chain cls metaclass) cls).trans root
  have metaSuper : rt'.superclass metaclass = some cls := by
    rw [Runtime.superclass, ← paired, Runtime.modifyClass_classes_self]
  have wired : wireClass rt' cls = rt' := by
    simp only [wireClass, noSuper]
  have isa' : (rt'.classes cls).isa = some metaclass := by
    rw [self, patchPair_isa chain cls metaclass, isa]
  have kind' : (rt'.classes cls).isMetaclass = false := by
    rw [self, patchPair_proj chain cls metaclass ObjcClass.isMetaclass (fun _ _ _ _ => rfl), kind]
  simp only [wired, isa', wireMetaclass, metaSuper, noSuper, kind', Option.isNone_none, Bool.not_false,
    Bool.and_self, if_true]
  rfl

omit chain in
/-- The loop of the loader finds the end of the superclass chain. -/
theorem rootOf_eq {rt : Runtime} {cls sup : ClassPtr} {walk : List ClassPtr}
    (link : rt.superclass cls = some sup) (complete : Walk rt.superclass (some sup) walk)
    (fits : walk.length ≤ rt.nextClass) :
    rootOf rt cls = walk.find? fun c => (rt.superclass c).isNone := by
  rw [rootOf, link, complete.successors_eq fits]

/-- The turn of any other class copies the links of its superclass's pair and splices both halves. -/
theorem loadClass_of_child (isa : (rt.classes cls).isa = some metaclass) (apart : cls ≠ metaclass)
    {sup supMeta root : ClassPtr} (link : rt.superclass cls = some sup)
    (supIsa : (rt.classes sup).isa = some supMeta)
    {walk : List ClassPtr} (complete : Walk rt.superclass (some sup) walk)
    (fits : walk.length ≤ rt.nextClass) (avoids : ∀ c ∈ walk, c ≠ metaclass)
    (member : root ∈ walk) (isRoot : rt.superclass root = none) :
    loadClass rt cls = registerClass (spliceSubclass (spliceSubclass
      ((patchPair rt cls metaclass).modifyClass metaclass fun c =>
        { c with isa := (rt.classes root).isa, superClass := some supMeta }) sup cls) supMeta metaclass) cls := by
  have first : ((patchClass rt cls).classes cls).isa = some metaclass := by
    rw [(patchClass_spec chain cls).proj ObjcClass.isa (fun _ _ _ _ => rfl), isa]
  have supApart : sup ≠ metaclass := by
    obtain ⟨rest, split, _⟩ := walk_some_iff.mp complete
    exact avoids sup (split ▸ List.mem_cons_self)
  have supers := patchPair_superclass chain cls metaclass
  -- The metaclass's new superclass link lies outside the chain that the loop walks.
  have root' : rootOf ((patchPair rt cls metaclass).modifyClass metaclass fun c =>
      { c with superClass := some supMeta }) cls = some root := by
    have kept : ∀ c, c ≠ metaclass → ((patchPair rt cls metaclass).modifyClass metaclass fun c =>
        { c with superClass := some supMeta }).superclass c = rt.superclass c := by
      intro c different
      rw [Runtime.superclass, Runtime.modifyClass_classes_of_ne _ _ _ different]
      exact congrFun supers c
    have sameNext : (patchPair rt cls metaclass).nextClass = rt.nextClass :=
      (patchPair_second chain cls metaclass).nextClass.trans (patchClass_spec chain cls).nextClass
    rw [rootOf_eq ((kept cls apart).trans link) (complete.congr fun c inside => kept c (avoids c inside))
      (fits.trans (Nat.le_of_eq sameNext.symm))]
    have unique : ∀ c ∈ walk, (rt.superclass c).isNone = true → c = root := fun c inside ends =>
      complete.last_unique inside member (Option.isNone_iff_eq_none.mp ends) isRoot
    cases found : walk.find? fun c => (((patchPair rt cls metaclass).modifyClass metaclass fun c =>
        { c with superClass := some supMeta }).superclass c).isNone with
    | none =>
        have ends := List.find?_eq_none.mp found root member
        rw [kept root (avoids root member), isRoot] at ends
        exact absurd rfl ends
    | some c =>
        have inside := List.mem_of_find?_eq_some found
        have ends := List.find?_some found
        rw [kept c (avoids c inside)] at ends
        rw [unique c inside ends]
  have fixed : fixMetaclass (patchPair rt cls metaclass) cls metaclass =
      (patchPair rt cls metaclass).modifyClass metaclass fun c =>
        { c with isa := (rt.classes root).isa, superClass := some supMeta } := by
    have rootIsa : (((patchPair rt cls metaclass).modifyClass metaclass fun c =>
        { c with superClass := some supMeta }).classes root).isa = (rt.classes root).isa := by
      rw [Runtime.modifyClass_proj ObjcClass.isa, patchPair_isa chain cls metaclass]
      exact fun _ => rfl
    simp only [fixMetaclass, supers, link, patchPair_isa chain cls metaclass, supIsa, root', rootIsa]
    simp [Runtime.modifyClass]
  have fixed' := fixed
  rw [patchPair] at fixed'
  simp only [loadClass, first, fixed']
  rw [← patchPair]
  generalize paired : (patchPair rt cls metaclass).modifyClass metaclass (fun c =>
    { c with isa := (rt.classes root).isa, superClass := some supMeta }) = rt'
  have self : rt'.classes cls = (patchPair rt cls metaclass).classes cls := by
    rw [← paired, Runtime.modifyClass_classes_of_ne _ _ _ apart]
  have link' : rt'.superclass cls = some sup := by
    rw [Runtime.superclass, self]
    exact (congrFun supers cls).trans link
  have wired : wireClass rt' cls = spliceSubclass rt' sup cls := by
    simp only [wireClass, link']
  -- Splicing changes no `isa`, superclass link or flag.
  have spliced : ∀ {B : Type} (project : ObjcClass → B),
      (∀ c head next, project { c with subclassList := head, siblingClass := next } = project c) →
      ∀ c, project ((spliceSubclass rt' sup cls).classes c) = project (rt'.classes c) := by
    intro B project kept c
    rw [spliceSubclass, Runtime.modifyClass_proj project _ _ (fun k => kept k _ k.siblingClass),
      Runtime.modifyClass_proj project _ _ (fun k => kept k k.subclassList _)]
  have isa' : ((spliceSubclass rt' sup cls).classes cls).isa = some metaclass := by
    rw [spliced ObjcClass.isa fun _ _ _ => rfl, self, patchPair_isa chain cls metaclass, isa]
  have metaSuper : (spliceSubclass rt' sup cls).superclass metaclass = some supMeta := by
    rw [Runtime.superclass, spliced ObjcClass.superClass fun _ _ _ => rfl, ← paired,
      Runtime.modifyClass_classes_self]
  have clsSuper : (spliceSubclass rt' sup cls).superclass cls = some sup := by
    rw [Runtime.superclass, spliced ObjcClass.superClass fun _ _ _ => rfl]
    exact link'
  simp only [wired, isa', wireMetaclass, metaSuper, clsSuper, Option.isNone_some, Bool.false_and,
    Bool.false_eq_true, if_false]
  rfl

end Turn

/-- The two splices of a turn write one field of four different classes. -/
theorem spliceSubclass_pair (rt : Runtime) {cls metaclass sup supMeta : ClassPtr} (apart : cls ≠ metaclass)
    (supCls : sup ≠ cls) (supMetaclass : sup ≠ metaclass) (supMetaCls : supMeta ≠ cls)
    (supMetaMetaclass : supMeta ≠ metaclass) (supPair : supMeta ≠ sup) (c : ClassPtr) :
    (spliceSubclass (spliceSubclass rt sup cls) supMeta metaclass).classes c =
      if c = metaclass then { rt.classes c with siblingClass := (rt.classes supMeta).subclassList }
      else if c = cls then { rt.classes c with siblingClass := (rt.classes sup).subclassList }
      else if c = supMeta then { rt.classes c with subclassList := some metaclass }
      else if c = sup then { rt.classes c with subclassList := some cls }
      else rt.classes c := by
  simp only [spliceSubclass, Runtime.modifyClass, Function.update_apply]
  split_ifs <;> simp_all

/-- The metaclass of the superclass. -/
def metaParent (rt : Runtime) (cls : ClassPtr) : Option ClassPtr :=
  (rt.superclass cls).bind fun sup => (rt.classes sup).isa

/-- One turn of the loader installs a class pair below the pair of its superclass. -/
structure Installed (rt rt' : Runtime) (cls metaclass root : ClassPtr) (name : String) : Prop where
  named : (rt.classes cls).name.toStr = some name
  registry : rt'.classRegistry = registryInsert rt.classRegistry name cls
  nextClass : rt'.nextClass = rt.nextClass
  selectors : rt'.selectorMemory = rt.selectorMemory
  isaMeta : (rt'.classes metaclass).isa = (rt.classes root).isa
  isaOld : ∀ c, c ≠ metaclass → (rt'.classes c).isa = (rt.classes c).isa
  superMeta : rt'.superclass metaclass = (rt.superclass cls).elim (some cls) fun sup => (rt.classes sup).isa
  superOld : ∀ c, c ≠ metaclass → rt'.superclass c = rt.superclass c
  infoCls : (rt'.classes cls).info = (rt.classes cls).info ||| ClassFlags.classRegistered
  infoOld : ∀ c, c ≠ cls → (rt'.classes c).info = (rt.classes c).info
  name : ∀ c, (rt'.classes c).name = (rt.classes c).name
  size : ∀ c, (rt'.classes c).instanceSize =
    if c = cls ∨ c = metaclass then patchedSize (rt.classes c) else (rt.classes c).instanceSize
  dtable : ∀ c, (rt'.classes c).dtable = if c = cls ∨ c = metaclass then some [] else (rt.classes c).dtable
  subclassList : ∀ p, (rt'.classes p).subclassList =
    if rt.superclass cls = some p then some cls
    else if metaParent rt cls = some p then some metaclass else (rt.classes p).subclassList
  sibling : ∀ c, rt'.sibling c =
    if c = cls then (rt.superclass cls).elim (rt.sibling c) fun sup => (rt.classes sup).subclassList
    else if c = metaclass then (metaParent rt cls).elim (rt.sibling c) fun p => (rt.classes p).subclassList
    else rt.sibling c
  methods : ∀ c, c ≠ cls → c ≠ metaclass → (rt'.classes c).methodList = (rt.classes c).methodList
  chain : ChainInv rt'
  chains : ∀ c, rt'.chainOf c =
    if c = cls ∨ c = metaclass then compiledChain (rt.classes c).methodList else rt.chainOf c

section Install

variable {rt : Runtime} (chain : ChainInv rt) {cls metaclass : ClassPtr} (apart : cls ≠ metaclass)

include chain apart

theorem patchPair_classes (c : ClassPtr) : ∃ methods, (patchPair rt cls metaclass).classes c =
    if c = cls ∨ c = metaclass then { rt.classes c with
      instanceSize := patchedSize (rt.classes c), methodList := methods, dtable := some [] }
    else rt.classes c := by
  have first := patchClass_spec chain cls
  have second := patchPair_second chain cls metaclass
  by_cases isMeta : c = metaclass
  · subst isMeta
    obtain ⟨methods, same⟩ := second.self
    rw [first.old c apart.symm] at same
    exact ⟨methods, by rw [same, if_pos (.inr rfl)]⟩
  · rw [second.old c isMeta]
    by_cases isCls : c = cls
    · subst isCls
      obtain ⟨methods, same⟩ := first.self
      exact ⟨methods, by rw [same, if_pos (.inl rfl)]⟩
    · rw [first.old c isCls]
      exact ⟨.null, by rw [if_neg (by simp [isCls, isMeta])]⟩

theorem patchPair_chains (c : ClassPtr) : (patchPair rt cls metaclass).chainOf c =
    if c = cls ∨ c = metaclass then compiledChain (rt.classes c).methodList else rt.chainOf c := by
  have first := patchClass_spec chain cls
  rw [(patchPair_second chain cls metaclass).chains, first.old metaclass apart.symm, first.chains]
  by_cases isMeta : c = metaclass
  · simp [isMeta]
  · by_cases isCls : c = cls
    · simp [isCls, apart]
    · simp [isMeta, isCls]

end Install

/-- The links of a turn, relative to the patched pair. -/
structure Wired (rt rt' : Runtime) (cls metaclass root : ClassPtr) : Prop where
  isaMeta : (rt'.classes metaclass).isa = (rt.classes root).isa
  isaOld : ∀ c, c ≠ metaclass → (rt'.classes c).isa = (rt.classes c).isa
  superMeta : rt'.superclass metaclass = (rt.superclass cls).elim (some cls) fun sup => (rt.classes sup).isa
  superOld : ∀ c, c ≠ metaclass → rt'.superclass c = rt.superclass c
  subclassList : ∀ p, (rt'.classes p).subclassList =
    if rt.superclass cls = some p then some cls
    else if metaParent rt cls = some p then some metaclass else (rt.classes p).subclassList
  sibling : ∀ c, rt'.sibling c =
    if c = cls then (rt.superclass cls).elim (rt.sibling c) fun sup => (rt.classes sup).subclassList
    else if c = metaclass then (metaParent rt cls).elim (rt.sibling c) fun p => (rt.classes p).subclassList
    else rt.sibling c
  plain : ∀ {B : Type} (project : ObjcClass → B), (∀ c isa superClass head next, project
    { c with isa := isa, superClass := superClass, subclassList := head, siblingClass := next } = project c) →
    ∀ c, project (rt'.classes c) = project (rt.classes c)
  nextClass : rt'.nextClass = rt.nextClass
  registry : rt'.classRegistry = rt.classRegistry
  selectors : rt'.selectorMemory = rt.selectorMemory
  lists : rt'.methodLists = rt.methodLists
  nextList : rt'.nextMethodList = rt.nextMethodList

/-- Relinking one class keeps every projection outside the two links. -/
theorem relink_proj {B : Type} (project : ObjcClass → B)
    (kept : ∀ c isa superClass, project { c with isa := isa, superClass := superClass } = project c)
    (rt : Runtime) (metaclass : ClassPtr) (isa superClass : Option ClassPtr) (c : ClassPtr) :
    project ((rt.modifyClass metaclass fun k => { k with isa := isa, superClass := superClass }).classes c) =
      project (rt.classes c) :=
  rt.modifyClass_proj project metaclass (fun k => kept k isa superClass) c

theorem wired_of_root {rt : Runtime} {cls metaclass : ClassPtr}
    (isa : (rt.classes cls).isa = some metaclass) (root : rt.superclass cls = none) :
    Wired rt (rt.modifyClass metaclass fun c =>
      { c with isa := some metaclass, superClass := some cls }) cls metaclass cls where
  isaMeta := by rw [Runtime.modifyClass_classes_self, isa]
  isaOld c different := by rw [Runtime.modifyClass_classes_of_ne _ _ _ different]
  superMeta := by
    rw [root, Runtime.superclass, Runtime.modifyClass_classes_self]
    rfl
  superOld c different := by rw [Runtime.superclass, Runtime.modifyClass_classes_of_ne _ _ _ different]; rfl
  subclassList p := by
    rw [relink_proj ObjcClass.subclassList fun _ _ _ => rfl, metaParent, root]
    simp
  sibling c := by
    rw [Runtime.sibling, relink_proj ObjcClass.siblingClass fun _ _ _ => rfl, metaParent, root]
    split_ifs <;> rfl
  plain project kept := relink_proj project (fun k isa superClass =>
    kept k isa superClass k.subclassList k.siblingClass) rt metaclass (some metaclass) (some cls)
  nextClass := rfl
  registry := rfl
  selectors := rfl
  lists := rfl
  nextList := rfl

theorem wired_of_child {rt : Runtime} {cls metaclass sup supMeta root : ClassPtr} (apart : cls ≠ metaclass)
    (link : rt.superclass cls = some sup) (supIsa : (rt.classes sup).isa = some supMeta)
    (supCls : sup ≠ cls) (supMetaclass : sup ≠ metaclass) (supMetaCls : supMeta ≠ cls)
    (supMetaMetaclass : supMeta ≠ metaclass) (supPair : supMeta ≠ sup) :
    Wired rt (spliceSubclass (spliceSubclass (rt.modifyClass metaclass fun c =>
      { c with isa := (rt.classes root).isa, superClass := some supMeta }) sup cls) supMeta metaclass)
      cls metaclass root := by
  have classes := spliceSubclass_pair (rt.modifyClass metaclass fun c =>
    { c with isa := (rt.classes root).isa, superClass := some supMeta }) apart supCls supMetaclass supMetaCls
    supMetaMetaclass supPair
  have parent : metaParent rt cls = some supMeta := by rw [metaParent, link, Option.bind_some, supIsa]
  -- A projection outside the two list fields sees the one write to the metaclass only.
  have links : ∀ {B : Type} (project : ObjcClass → B),
      (∀ c head next, project { c with subclassList := head, siblingClass := next } = project c) → ∀ c,
      project ((spliceSubclass (spliceSubclass (rt.modifyClass metaclass fun c =>
        { c with isa := (rt.classes root).isa, superClass := some supMeta }) sup cls) supMeta metaclass).classes c)
      = project ((rt.modifyClass metaclass fun c =>
        { c with isa := (rt.classes root).isa, superClass := some supMeta }).classes c) := by
    intro B project kept c
    rw [classes]
    split_ifs
    · exact kept _ _ _
    · exact kept _ _ _
    · exact kept _ _ _
    · exact kept _ _ _
    · rfl
  have lists : ∀ c, (((rt.modifyClass metaclass fun c =>
      { c with isa := (rt.classes root).isa, superClass := some supMeta }).classes c).subclassList =
      (rt.classes c).subclassList) ∧ (((rt.modifyClass metaclass fun c =>
      { c with isa := (rt.classes root).isa, superClass := some supMeta }).classes c).siblingClass =
      (rt.classes c).siblingClass) := fun c =>
    ⟨relink_proj ObjcClass.subclassList (fun _ _ _ => rfl) rt metaclass _ _ c,
      relink_proj ObjcClass.siblingClass (fun _ _ _ => rfl) rt metaclass _ _ c⟩
  have kept : ∀ (start : Runtime) (parent child : ClassPtr),
      (spliceSubclass start parent child).nextClass = start.nextClass ∧
      (spliceSubclass start parent child).classRegistry = start.classRegistry ∧
      (spliceSubclass start parent child).selectorMemory = start.selectorMemory ∧
      (spliceSubclass start parent child).methodLists = start.methodLists ∧
      (spliceSubclass start parent child).nextMethodList = start.nextMethodList :=
    fun _ _ _ => ⟨rfl, rfl, rfl, rfl, rfl⟩
  refine ⟨?_, fun c different => ?_, ?_, fun c different => ?_, fun p => ?_, fun c => ?_, ?_,
    (kept _ _ _).1.trans (kept _ _ _).1, (kept _ _ _).2.1.trans (kept _ _ _).2.1,
    (kept _ _ _).2.2.1.trans (kept _ _ _).2.2.1, (kept _ _ _).2.2.2.1.trans (kept _ _ _).2.2.2.1,
    (kept _ _ _).2.2.2.2.trans (kept _ _ _).2.2.2.2⟩
  · rw [links ObjcClass.isa fun _ _ _ => rfl, Runtime.modifyClass_classes_self]
  · rw [links ObjcClass.isa fun _ _ _ => rfl, Runtime.modifyClass_classes_of_ne _ _ _ different]
  · rw [Runtime.superclass, links ObjcClass.superClass fun _ _ _ => rfl, Runtime.modifyClass_classes_self, link]
    exact supIsa.symm
  · rw [Runtime.superclass, links ObjcClass.superClass fun _ _ _ => rfl,
      Runtime.modifyClass_classes_of_ne _ _ _ different]
    rfl
  · rw [classes, link, parent]
    simp only [Option.some.injEq]
    by_cases isSup : sup = p
    · subst isSup
      simp [supMetaclass, supCls, supPair.symm]
    · by_cases isParent : supMeta = p
      · subst isParent
        simp [supMetaMetaclass, supMetaCls, isSup]
      · rw [if_neg isSup, if_neg isParent]
        split_ifs with isMeta isCls isSupMeta isSup'
        · exact (lists p).1
        · exact (lists p).1
        · exact absurd isSupMeta.symm isParent
        · exact absurd isSup'.symm isSup
        · exact (lists p).1
  · rw [Runtime.sibling, classes, link, parent]
    by_cases isCls : c = cls
    · subst isCls
      rw [if_neg apart, if_pos rfl, if_pos rfl]
      exact (lists sup).1
    · rw [if_neg isCls, if_neg isCls]
      by_cases isMeta : c = metaclass
      · rw [if_pos isMeta, if_pos isMeta]
        exact (lists supMeta).1
      · rw [if_neg isMeta, if_neg isMeta]
        split_ifs
        · exact (lists c).2
        · exact (lists c).2
        · exact (lists c).2
  · intro B project kept c
    rw [links project fun k head next => kept k k.isa k.superClass head next]
    exact relink_proj project (fun k isa superClass => kept k isa superClass k.subclassList k.siblingClass) rt
      metaclass _ _ c

section Install

variable {image : List ClassPtr} {rt : Runtime} (chain : ChainInv rt) {cls metaclass : ClassPtr}
  (apart : cls ≠ metaclass)

include chain apart

/-- Patching, wiring and registering compose to one installation. -/
theorem Wired.installed {rt1 rt' : Runtime} {root : ClassPtr} {name : String}
    (wired : Wired (patchPair rt cls metaclass) rt1 cls metaclass root)
    (step : Registered rt1 rt' cls name) : Installed rt rt' cls metaclass root name := by
  have second := patchPair_second chain cls metaclass
  have first := patchClass_spec chain cls
  have supers := patchPair_superclass chain cls metaclass
  have isas := patchPair_isa chain cls metaclass
  have siblings : ∀ c, (patchPair rt cls metaclass).sibling c = rt.sibling c :=
    patchPair_proj chain cls metaclass ObjcClass.siblingClass fun _ _ _ _ => rfl
  have heads : ∀ c, ((patchPair rt cls metaclass).classes c).subclassList = (rt.classes c).subclassList :=
    patchPair_proj chain cls metaclass ObjcClass.subclassList fun _ _ _ _ => rfl
  have parent : metaParent (patchPair rt cls metaclass) cls = metaParent rt cls := by
    simp only [metaParent, supers, isas]
  have names : ∀ c, (rt'.classes c).name = (rt.classes c).name := fun c => by
    rw [step.proj ObjcClass.name fun _ => rfl, wired.plain ObjcClass.name fun _ _ _ _ _ => rfl,
      patchPair_proj chain cls metaclass ObjcClass.name fun _ _ _ _ => rfl]
  have infos : ∀ c, (rt1.classes c).info = (rt.classes c).info := fun c => by
    rw [wired.plain ObjcClass.info fun _ _ _ _ _ => rfl,
      patchPair_proj chain cls metaclass ObjcClass.info fun _ _ _ _ => rfl]
  have methods : SameMethods (patchPair rt cls metaclass) rt' :=
    SameMethods.trans ⟨wired.plain (fun k => k.methodList.head) fun _ _ _ _ _ => rfl, wired.lists, wired.nextList⟩
      step.sameMethods
  refine
    { named := by rw [← names cls, step.proj ObjcClass.name fun _ => rfl]; exact step.named
      registry := by rw [step.registry, wired.registry, second.registry, first.registry]
      nextClass := by rw [step.nextClass, wired.nextClass, second.nextClass, first.nextClass]
      selectors := by rw [step.selectors, wired.selectors, second.selectors, first.selectors]
      isaMeta := by rw [step.isa, wired.isaMeta, isas]
      isaOld := fun c different => by rw [step.isa, wired.isaOld c different, isas]
      superMeta := by simp only [step.superclass, wired.superMeta, supers, isas]
      superOld := fun c different => by rw [step.superclass, wired.superOld c different, supers]
      infoCls := by rw [step.self, ← infos cls]; rfl
      infoOld := fun c different => by rw [step.old c different, infos]
      name := names
      size := fun c => ?_
      dtable := fun c => ?_
      subclassList := fun p => ?_
      sibling := fun c => by simp only [step.sibling, wired.sibling, supers, parent, siblings, heads]
      methods := fun c notCls notMeta => ?_
      chain := second.chain.of_same methods
      chains := fun c => by rw [methods.chainOf, patchPair_chains chain apart] }
  · rw [step.proj ObjcClass.instanceSize fun _ => rfl, wired.plain ObjcClass.instanceSize fun _ _ _ _ _ => rfl]
    obtain ⟨_, same⟩ := patchPair_classes chain apart c
    rw [same]
    split <;> rfl
  · rw [step.proj ObjcClass.dtable fun _ => rfl, wired.plain ObjcClass.dtable fun _ _ _ _ _ => rfl]
    obtain ⟨_, same⟩ := patchPair_classes chain apart c
    rw [same]
    split <;> rfl
  · rw [step.proj ObjcClass.subclassList fun _ => rfl, wired.subclassList, supers, parent, heads]
  · rw [step.proj ObjcClass.methodList fun _ => rfl, wired.plain ObjcClass.methodList fun _ _ _ _ _ => rfl]
    obtain ⟨_, same⟩ := patchPair_classes chain apart c
    rw [same, if_neg (by simp [notCls, notMeta])]

variable (inv : GraphInv image rt) (kind : (rt.classes cls).isMetaclass = false) (below : cls < rt.nextClass)
  (isa : (rt.classes cls).isa = some metaclass)

omit chain apart in
include inv kind isa in
theorem cls_ne_metaclass : cls ≠ metaclass := by
  rintro rfl
  have isMeta := (inv.isaKind cls cls kind isa).1
  rw [kind] at isMeta
  exact absurd isMeta (by simp)

omit apart in
include inv kind below isa in
/-- A turn is the wiring of the patched pair followed by the registration. -/
theorem loadClass_eq_register : ∃ rt1 root, root ∈ rt.ancestors cls ∧ rt.superclass root = none ∧
    Wired (patchPair rt cls metaclass) rt1 cls metaclass root ∧ loadClass rt cls = registerClass rt1 cls := by
  have apart := cls_ne_metaclass inv kind isa
  have complete := inv.ancestors_walk below
  cases link : rt.superclass cls with
  | none =>
      refine ⟨_, cls, inv.self_mem_ancestors below, link, wired_of_root ?_ ?_,
        loadClass_of_root chain isa apart kind link⟩
      · rw [patchPair_isa chain cls metaclass, isa]
      · rw [patchPair_superclass chain cls metaclass, link]
  | some sup =>
      have supBelow := inv.superBelow cls sup link
      have supKind := inv.superKind cls sup kind link
      obtain ⟨supMeta, supIsa⟩ := Option.isSome_iff_exists.mp (inv.hasIsa sup supKind supBelow)
      obtain ⟨supMetaKind, _⟩ := inv.isaKind sup supMeta supKind supIsa
      obtain ⟨metaKind, _⟩ := inv.isaKind cls metaclass kind isa
      have supWalk := inv.ancestors_walk supBelow
      have kinds := inv.ancestors_kind supBelow supKind
      have notMeta : ∀ c, (rt.classes c).isMetaclass = false → c ≠ metaclass := by
        rintro c plain rfl
        rw [metaKind] at plain
        exact absurd plain (by simp)
      obtain ⟨rank, decreasing, _⟩ := inv.ranked
      have supCls : sup ≠ cls := by
        rintro rfl
        exact Nat.lt_irrefl _ (decreasing sup sup link)
      have supMetaCls : supMeta ≠ cls := by
        rintro rfl
        rw [kind] at supMetaKind
        exact absurd supMetaKind (by simp)
      have supMetaMetaclass : supMeta ≠ metaclass := fun same =>
        supCls (inv.isaInj sup cls metaclass supKind kind (same ▸ supIsa) isa)
      have supPair : supMeta ≠ sup := by
        rintro rfl
        rw [supKind] at supMetaKind
        exact absurd supMetaKind (by simp)
      obtain ⟨root, member, isRoot⟩ := supWalk.exists_last (List.ne_nil_of_mem (inv.self_mem_ancestors supBelow))
      refine ⟨_, root, ?_, isRoot, ?_, loadClass_of_child chain isa apart link supIsa supWalk
        (inv.ancestors_length supBelow) (fun c inside => notMeta c (kinds c inside)) member isRoot⟩
      · obtain ⟨rest, split, tail⟩ := walk_some_iff.mp complete
        rw [link] at tail
        rw [split, tail.unique supWalk]
        exact List.mem_cons_of_mem cls member
      · rw [← patchPair_isa chain cls metaclass root]
        refine wired_of_child apart ?_ ?_ supCls (notMeta sup supKind) supMetaCls supMetaMetaclass supPair
        · rw [patchPair_superclass chain cls metaclass, link]
        · rw [patchPair_isa chain cls metaclass, supIsa]

omit apart in
include inv kind below isa in
/-- A successful turn installs the pair. -/
theorem loadClass_spec {rt' : Runtime} (result : loadClass rt cls = some rt') :
    ∃ root name, root ∈ rt.ancestors cls ∧ rt.superclass root = none ∧
      Installed rt rt' cls metaclass root name := by
  obtain ⟨rt1, root, member, isRoot, wired, eq⟩ := loadClass_eq_register chain inv kind below isa
  rw [eq] at result
  obtain ⟨name, step⟩ := registerClass_spec result
  exact ⟨root, name, member, isRoot, wired.installed chain (cls_ne_metaclass inv kind isa) step⟩

omit apart in
include inv kind below isa in
/-- A turn succeeds for every class whose name is UTF-8. -/
theorem loadClass_total (named : (rt.classes cls).name.toStr.isSome = true) :
    (loadClass rt cls).isSome = true := by
  obtain ⟨rt1, root, _, _, wired, eq⟩ := loadClass_eq_register chain inv kind below isa
  have name : (rt1.classes cls).name = (rt.classes cls).name := by
    rw [wired.plain ObjcClass.name fun _ _ _ _ _ => rfl,
      patchPair_proj chain cls metaclass ObjcClass.name fun _ _ _ _ => rfl]
  obtain ⟨text, decoded⟩ := Option.isSome_iff_exists.mp named
  rw [eq, registerClass, name, decoded]
  rfl

end Install

end O3jc
