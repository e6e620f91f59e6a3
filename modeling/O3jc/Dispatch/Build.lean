import O3jc.Dispatch.Graph

namespace O3jc

open Library

/-- The two fresh class objects and the one link that an allocation writes. -/
structure Allocated (rt rt' : Runtime) (superclass : Option ClassPtr) (name : CStr) : Prop where
  nextClass : rt'.nextClass = rt.nextClass + 2
  metaclass : rt'.classes rt.nextClass =
    { isa := none
      superClass := superclass.bind fun sup => (rt.classes sup).isa
      name
      info := ClassFlags.classIsMetaclass
      instanceSize := sizeOfObjcClass
      methodList := .null
      dtable := some []
      subclassList := none
      siblingClass := none }
  cls : rt'.classes (rt.nextClass + 1) =
    { isa := some rt.nextClass
      superClass := superclass
      name
      info := 0
      instanceSize := superclass.elim sizeOfObjcObject fun sup => (rt.classes sup).instanceSize
      methodList := .null
      dtable := some []
      subclassList := none
      siblingClass := superclass.bind fun sup => (rt.classes sup).subclassList }
  sup : ∀ s, superclass = some s →
    rt'.classes s = { rt.classes s with subclassList := some (rt.nextClass + 1) }
  old : ∀ c, c ≠ rt.nextClass → c ≠ rt.nextClass + 1 → superclass ≠ some c → rt'.classes c = rt.classes c
  lists : rt'.methodLists = rt.methodLists
  nextList : rt'.nextMethodList = rt.nextMethodList
  selectors : rt'.selectorMemory = rt.selectorMemory
  registry : rt'.classRegistry = rt.classRegistry

/-- The class is neither of the two objects that the next allocation creates. -/
def Runtime.NotFresh (rt : Runtime) (c : ClassPtr) : Prop :=
  c ≠ rt.nextClass ∧ c ≠ rt.nextClass + 1

theorem Runtime.notFresh_of_lt {rt : Runtime} {c : ClassPtr} (below : c < rt.nextClass) : rt.NotFresh c :=
  ⟨Nat.ne_of_lt below, Nat.ne_of_lt (Nat.lt_succ_of_lt below)⟩

theorem Runtime.fresh_cases (rt : Runtime) (c : ClassPtr) :
    c = rt.nextClass ∨ c = rt.nextClass + 1 ∨ rt.NotFresh c := by
  by_cases isMeta : c = rt.nextClass
  · exact .inl isMeta
  · by_cases isCls : c = rt.nextClass + 1
    · exact .inr (.inl isCls)
    · exact .inr (.inr ⟨isMeta, isCls⟩)

theorem objcAllocateClassPair_spec {rt rt' : Runtime} {superclass : Option ClassPtr} {name : CStr}
    {cls : ClassPtr} (known : ∀ s, superclass = some s → s < rt.nextClass)
    (result : objcAllocateClassPair rt superclass name = some (rt', cls)) :
    cls = rt.nextClass + 1 ∧ Allocated rt rt' superclass name := by
  simp only [objcAllocateClassPair, Option.bind_eq_bind, Option.bind_eq_some_iff] at result
  obtain ⟨text, decoded, encoded, again, result⟩ := result
  rw [CStr.ofStr_toStr decoded] at again
  obtain rfl : name = encoded := Option.some.inj again
  have apart : rt.nextClass ≠ rt.nextClass + 1 := Nat.ne_of_lt (Nat.lt_succ_self _)
  cases superclass with
  | none =>
      simp only [Option.some.injEq, Prod.mk.injEq] at result
      obtain ⟨rfl, rfl⟩ := result
      refine ⟨rfl, ⟨rfl, ?_, ?_, by simp, ?_, rfl, rfl, rfl, rfl⟩⟩
      · simp only [Function.update_of_ne apart, Function.update_self]
        rfl
      · simp only [Function.update_self]
        rfl
      · intro c notMeta notCls _
        simp only [Function.update_of_ne notMeta, Function.update_of_ne notCls]
  | some s =>
      simp only [Option.some.injEq, Prod.mk.injEq] at result
      obtain ⟨rfl, rfl⟩ := result
      have below := known s rfl
      have notMeta : s ≠ rt.nextClass := Nat.ne_of_lt below
      have notCls : s ≠ rt.nextClass + 1 := Nat.ne_of_lt (Nat.lt_succ_of_lt below)
      refine ⟨rfl, ⟨rfl, ?_, ?_, ?_, ?_, rfl, rfl, rfl, rfl⟩⟩
      · rw [Runtime.modifyClass_classes_of_ne _ _ _ notMeta.symm]
        simp only [Function.update_of_ne apart, Function.update_self]
        rfl
      · rw [Runtime.modifyClass_classes_of_ne _ _ _ notCls.symm]
        simp only [Function.update_self]
        rfl
      · intro other same
        obtain rfl : s = other := Option.some.inj same
        simp [Function.update_of_ne notMeta, Function.update_of_ne notCls]
      · intro c cMeta cCls different
        have cSup : c ≠ s := fun same => different (by rw [same])
        rw [Runtime.modifyClass_classes_of_ne _ _ _ cSup]
        simp only [Function.update_of_ne cMeta, Function.update_of_ne cCls]

section Allocation

variable {image : List ClassPtr} {rt rt' : Runtime} {superclass : Option ClassPtr} {name : CStr}
  (step : Allocated rt rt' superclass name)

include step

/-- An old class changes at most in the head of its subclass list. -/
theorem Allocated.keep {c : ClassPtr} (old : rt.NotFresh c) :
    ∃ head, rt'.classes c = { rt.classes c with subclassList := head } := by
  by_cases isSup : superclass = some c
  · exact ⟨_, step.sup c isSup⟩
  · exact ⟨_, step.old c old.1 old.2 isSup⟩

theorem Allocated.keep_proj {B : Type} (project : ObjcClass → B)
    (kept : ∀ c head, project { c with subclassList := head } = project c) {c : ClassPtr} (old : rt.NotFresh c) :
    project (rt'.classes c) = project (rt.classes c) := by
  obtain ⟨head, same⟩ := step.keep old
  rw [same, kept]

theorem Allocated.superclass_metaclass :
    rt'.superclass rt.nextClass = superclass.bind fun sup => (rt.classes sup).isa := by
  rw [Runtime.superclass, step.metaclass]

theorem Allocated.superclass_cls : rt'.superclass (rt.nextClass + 1) = superclass := by
  rw [Runtime.superclass, step.cls]

theorem Allocated.superclass_old {c : ClassPtr} (old : rt.NotFresh c) : rt'.superclass c = rt.superclass c :=
  step.keep_proj ObjcClass.superClass (fun _ _ => rfl) old

theorem Allocated.isMetaclass_metaclass : (rt'.classes rt.nextClass).isMetaclass = true := by
  rw [step.metaclass]
  change (ClassFlags.classIsMetaclass &&& ClassFlags.classIsMetaclass != 0) = true
  decide

theorem Allocated.isMetaclass_cls : (rt'.classes (rt.nextClass + 1)).isMetaclass = false := by
  rw [step.cls]
  simp [ObjcClass.isMetaclass]

theorem Allocated.isMetaclass_old {c : ClassPtr} (old : rt.NotFresh c) :
    (rt'.classes c).isMetaclass = (rt.classes c).isMetaclass :=
  step.keep_proj ObjcClass.isMetaclass (fun _ _ => rfl) old

theorem Allocated.isa_old {c : ClassPtr} (old : rt.NotFresh c) : (rt'.classes c).isa = (rt.classes c).isa :=
  step.keep_proj ObjcClass.isa (fun _ _ => rfl) old

theorem Allocated.dtable_old {c : ClassPtr} (old : rt.NotFresh c) :
    (rt'.classes c).dtable = (rt.classes c).dtable :=
  step.keep_proj ObjcClass.dtable (fun _ _ => rfl) old

theorem Allocated.size_old {c : ClassPtr} (old : rt.NotFresh c) :
    (rt'.classes c).instanceSize = (rt.classes c).instanceSize :=
  step.keep_proj ObjcClass.instanceSize (fun _ _ => rfl) old

theorem Allocated.loaded_new {c : ClassPtr} (new : c = rt.nextClass ∨ c = rt.nextClass + 1) :
    rt'.Loaded c := by
  rcases new with rfl | rfl
  · rw [Runtime.Loaded, step.metaclass]
    rfl
  · rw [Runtime.Loaded, step.cls]
    rfl

theorem Allocated.loaded_old {c : ClassPtr} (old : rt.NotFresh c) : rt'.Loaded c ↔ rt.Loaded c := by
  rw [Runtime.Loaded, Runtime.Loaded, step.dtable_old old]

theorem Allocated.notFresh_of_unloaded {c : ClassPtr} (unloaded : ¬ rt'.Loaded c) : rt.NotFresh c :=
  ⟨fun same => unloaded (step.loaded_new (.inl same)), fun same => unloaded (step.loaded_new (.inr same))⟩

theorem Allocated.isRegistered_cls : (rt'.classes (rt.nextClass + 1)).isRegistered = false := by
  rw [step.cls]
  simp [ObjcClass.isRegistered]

theorem Allocated.isRegistered_metaclass : (rt'.classes rt.nextClass).isRegistered = false := by
  rw [step.metaclass]
  change (ClassFlags.classIsMetaclass &&& ClassFlags.classRegistered != 0) = false
  decide

theorem Allocated.isRegistered_old {c : ClassPtr} (old : rt.NotFresh c) :
    (rt'.classes c).isRegistered = (rt.classes c).isRegistered :=
  step.keep_proj ObjcClass.isRegistered (fun _ _ => rfl) old

/-- The fresh pair is not registered yet. -/
theorem Allocated.of_registered {c : ClassPtr} (registered : (rt'.classes c).isRegistered = true) :
    rt.NotFresh c ∧ (rt.classes c).isRegistered = true := by
  rcases rt.fresh_cases c with rfl | rfl | old
  · rw [step.isRegistered_metaclass] at registered
    contradiction
  · rw [step.isRegistered_cls] at registered
    contradiction
  · rw [step.isRegistered_old old] at registered
    exact ⟨old, registered⟩

/-- A class that is no metaclass is the fresh class or an old one. -/
theorem Allocated.plain_cases {c : ClassPtr} (kind : (rt'.classes c).isMetaclass = false) :
    c = rt.nextClass + 1 ∨ rt.NotFresh c ∧ (rt.classes c).isMetaclass = false := by
  rcases rt.fresh_cases c with rfl | isCls | old
  · rw [step.isMetaclass_metaclass] at kind
    contradiction
  · exact .inl isCls
  · rw [step.isMetaclass_old old] at kind
    exact .inr ⟨old, kind⟩

/-- A class and its metaclass are the fresh pair or an old class and its old metaclass. -/
theorem Allocated.isa_cases {c m : ClassPtr} (kind : (rt'.classes c).isMetaclass = false)
    (isa : (rt'.classes c).isa = some m) : c = rt.nextClass + 1 ∧ m = rt.nextClass ∨
      rt.NotFresh c ∧ (rt.classes c).isMetaclass = false ∧ (rt.classes c).isa = some m := by
  rcases step.plain_cases kind with rfl | ⟨old, kind⟩
  · rw [step.cls] at isa
    exact .inl ⟨rfl, (Option.some.inj isa).symm⟩
  · rw [step.isa_old old] at isa
    exact .inr ⟨old, kind, isa⟩

/-- The superclass link of a class that is no metaclass is the allocated one or an old one. -/
theorem Allocated.superclass_cases {c p : ClassPtr} (kind : (rt'.classes c).isMetaclass = false)
    (link : rt'.superclass c = some p) : c = rt.nextClass + 1 ∧ superclass = some p ∨
      rt.NotFresh c ∧ (rt.classes c).isMetaclass = false ∧ rt.superclass c = some p := by
  rcases step.plain_cases kind with rfl | ⟨old, kind⟩
  · rw [step.superclass_cls] at link
    exact .inl ⟨rfl, link⟩
  · rw [step.superclass_old old] at link
    exact .inr ⟨old, kind, link⟩

/-- A class that is not one of the two fresh ones was allocated before. -/
theorem Allocated.lt_of_old {c : ClassPtr} (old : rt.NotFresh c) (below : c < rt'.nextClass) : c < rt.nextClass := by
  rw [step.nextClass] at below
  exact Nat.lt_of_le_of_ne (Nat.le_of_lt_succ (Nat.lt_of_le_of_ne (Nat.le_of_lt_succ below) old.2)) old.1

variable (inv : GraphInv image rt) (known : ∀ s, superclass = some s → (rt.classes s).isRegistered = true)

include inv

omit step in
include known in
theorem allocated_sup_lt {s : ClassPtr} (isSup : superclass = some s) : s < rt.nextClass :=
  inv.lt_of_loaded (inv.registeredClass s (known s isSup)).2

/-- The fresh class is spliced in front of its superclass's list. -/
theorem Allocated.subclasses_walk (p : ClassPtr) :
    Walk rt'.sibling (rt'.classes p).subclassList
      (if superclass = some p then (rt.nextClass + 1) :: rt.subclasses p
      else if p = rt.nextClass ∨ p = rt.nextClass + 1 then [] else rt.subclasses p) := by
  have kept : ∀ q, ∀ c ∈ rt.subclasses q, rt'.sibling c = rt.sibling c := by
    intro q c member
    have below := inv.lt_of_loaded (inv.subclassSuper q c member).2
    exact step.keep_proj ObjcClass.siblingClass (fun _ _ => rfl) (Runtime.notFresh_of_lt below)
  by_cases isSup : superclass = some p
  · rw [if_pos isSup, step.sup p isSup]
    refine .cons _ _ ?_
    have link : rt'.sibling (rt.nextClass + 1) = (rt.classes p).subclassList := by
      rw [Runtime.sibling, step.cls]
      exact congrArg (Option.bind · fun sup => (rt.classes sup).subclassList) isSup
    rw [link]
    exact (inv.siblings p).congr (kept p)
  · rw [if_neg isSup]
    by_cases new : p = rt.nextClass ∨ p = rt.nextClass + 1
    · rw [if_pos new]
      rcases new with rfl | rfl
      · rw [step.metaclass]
        exact .nil
      · rw [step.cls]
        exact .nil
    · rw [if_neg new, step.old p (fun same => new (.inl same)) (fun same => new (.inr same)) isSup]
      exact (inv.siblings p).congr (kept p)

theorem Allocated.subclasses (p : ClassPtr) :
    rt'.subclasses p = if superclass = some p then (rt.nextClass + 1) :: rt.subclasses p
      else if p = rt.nextClass ∨ p = rt.nextClass + 1 then [] else rt.subclasses p := by
  refine Runtime.subclasses_eq_of_walk (step.subclasses_walk inv p) fun c member => ?_
  have old : ∀ q, c ∈ rt.subclasses q → c < rt'.nextClass := by
    intro q inside
    have below := inv.lt_of_loaded (inv.subclassSuper q c inside).2
    rw [step.nextClass]
    exact Nat.lt_succ_of_lt (Nat.lt_succ_of_lt below)
  split at member
  · rcases List.mem_cons.mp member with rfl | inside
    · rw [step.nextClass]
      exact Nat.lt_succ_self _
    · exact old p inside
  · split at member
    · simp at member
    · exact old p member

include known

/-- The ranks of the fresh pair stand just above the superclass's pair. -/
theorem Allocated.ranked : ∃ rank : ClassPtr → Nat, (∀ c p, rt'.superclass c = some p → rank p < rank c) ∧
    ∀ c m, (rt'.classes c).isMetaclass = false → (rt'.classes c).isa = some m → rank m = rank c + 1 := by
  obtain ⟨rank, decreasing, pairs⟩ := inv.ranked
  let base : Nat := superclass.elim 0 fun sup => rank sup + 1
  have oldRank : ∀ q, q < rt.nextClass →
      (if q = rt.nextClass then base + 1 else if q = rt.nextClass + 1 then base else rank q) = rank q := by
    intro q below
    rw [if_neg (Nat.ne_of_lt below), if_neg (Nat.ne_of_lt (Nat.lt_succ_of_lt below))]
  refine ⟨fun c => if c = rt.nextClass then base + 1 else if c = rt.nextClass + 1 then base else rank c,
    fun c p link => ?_, fun c m kind isa => ?_⟩
  · dsimp only
    rcases rt.fresh_cases c with rfl | rfl | old
    · rw [step.superclass_metaclass] at link
      obtain ⟨sup, isSup, isa⟩ := Option.bind_eq_some_iff.mp link
      have kind := (inv.registeredClass sup (known sup isSup)).1
      rw [oldRank p (inv.isaKind sup p kind isa).2, if_pos rfl, pairs sup p kind isa]
      simp only [base, isSup, Option.elim_some]
      omega
    · rw [step.superclass_cls] at link
      rw [oldRank p (allocated_sup_lt inv known link), if_neg (Nat.succ_ne_self _), if_pos rfl]
      simp only [base, link, Option.elim_some]
      omega
    · rw [step.superclass_old old] at link
      rw [oldRank p (inv.superBelow c p link), if_neg old.1, if_neg old.2]
      exact decreasing c p link
  · dsimp only
    rcases step.isa_cases kind isa with ⟨rfl, rfl⟩ | ⟨old, kind, isa⟩
    · simp
    · rw [oldRank m (inv.isaKind c m kind isa).2, if_neg old.1, if_neg old.2]
      exact pairs c m kind isa

/-- Allocating a class pair keeps the class graph. -/
theorem Allocated.graphInv : GraphInv image rt' where
  blank c above := by
    rw [step.nextClass] at above
    have oldAbove : rt.nextClass ≤ c := Nat.le_trans (Nat.le_add_right _ 2) above
    have notMeta : c ≠ rt.nextClass := Nat.ne_of_gt (Nat.lt_of_lt_of_le (by omega) above)
    have notCls : c ≠ rt.nextClass + 1 := Nat.ne_of_gt (Nat.lt_of_lt_of_le (by omega) above)
    have notSup : superclass ≠ some c := fun isSup =>
      Nat.not_lt_of_le oldAbove (allocated_sup_lt inv known isSup)
    rw [step.old c notMeta notCls notSup]
    exact inv.blank c oldAbove
  superBelow c p link := by
    rw [step.nextClass]
    refine Nat.lt_succ_of_lt (Nat.lt_succ_of_lt ?_)
    rcases rt.fresh_cases c with rfl | rfl | old
    · rw [step.superclass_metaclass] at link
      obtain ⟨sup, isSup, isa⟩ := Option.bind_eq_some_iff.mp link
      exact (inv.isaKind sup p (inv.registeredClass sup (known sup isSup)).1 isa).2
    · rw [step.superclass_cls] at link
      exact allocated_sup_lt inv known link
    · rw [step.superclass_old old] at link
      exact inv.superBelow c p link
  ranked := step.ranked inv known
  superKind c p kind link := by
    rcases step.superclass_cases kind link with ⟨_, isSup⟩ | ⟨_, kind, link⟩
    · rw [step.isMetaclass_old (Runtime.notFresh_of_lt (allocated_sup_lt inv known isSup))]
      exact (inv.registeredClass p (known p isSup)).1
    · rw [step.isMetaclass_old (Runtime.notFresh_of_lt (inv.superBelow c p link))]
      exact inv.superKind c p kind link
  isaKind c m kind isa := by
    rw [step.nextClass]
    rcases step.isa_cases kind isa with ⟨_, rfl⟩ | ⟨_, kind, isa⟩
    · exact ⟨step.isMetaclass_metaclass, Nat.lt_add_of_pos_right (by omega)⟩
    · obtain ⟨metaKind, below⟩ := inv.isaKind c m kind isa
      rw [step.isMetaclass_old (Runtime.notFresh_of_lt below)]
      exact ⟨metaKind, Nat.lt_add_right 2 below⟩
  hasIsa c kind below := by
    rcases step.plain_cases kind with rfl | ⟨old, kind⟩
    · rw [step.cls]
      rfl
    · rw [step.isa_old old]
      exact inv.hasIsa c kind (step.lt_of_old old below)
  isaInj c d m cKind dKind cIsa dIsa := by
    rcases step.isa_cases cKind cIsa with ⟨cNew, mNew⟩ | ⟨_, cOld, cLink⟩
    · rcases step.isa_cases dKind dIsa with ⟨dNew, _⟩ | ⟨_, dOld, dLink⟩
      · rw [cNew, dNew]
      · exact absurd mNew (Nat.ne_of_lt (inv.isaKind d m dOld dLink).2)
    · rcases step.isa_cases dKind dIsa with ⟨_, mNew⟩ | ⟨_, dOld, dLink⟩
      · exact absurd mNew (Nat.ne_of_lt (inv.isaKind c m cOld cLink).2)
      · exact inv.isaInj c d m cOld dOld cLink dLink
  pairLoaded c m kind isa := by
    rcases step.isa_cases kind isa with ⟨isCls, isMeta⟩ | ⟨old, kind, isa⟩
    · exact ⟨fun _ => step.loaded_new (.inr isCls), fun _ => step.loaded_new (.inl isMeta)⟩
    · rw [step.loaded_old old, step.loaded_old (Runtime.notFresh_of_lt (inv.isaKind c m kind isa).2)]
      exact inv.pairLoaded c m kind isa
  imageClass c member := by
    obtain ⟨kind, below, supers⟩ := inv.imageClass c member
    have old := Runtime.notFresh_of_lt below
    rw [step.isMetaclass_old old, step.superclass_old old, step.nextClass]
    exact ⟨kind, Nat.lt_add_right 2 below, supers⟩
  unloaded c kind below unloaded := by
    have old := step.notFresh_of_unloaded unloaded
    rw [step.isMetaclass_old old] at kind
    rw [step.loaded_old old] at unloaded
    exact inv.unloaded c kind (step.lt_of_old old below) unloaded
  siblings p := by
    rw [step.subclasses inv]
    exact step.subclasses_walk inv p
  subclassSuper p c member := by
    have kept : ∀ q, c ∈ rt.subclasses q → rt'.superclass c = some q ∧ rt'.Loaded c := by
      intro q inside
      obtain ⟨link, loaded⟩ := inv.subclassSuper q c inside
      have old := Runtime.notFresh_of_lt (inv.lt_of_loaded loaded)
      rw [step.superclass_old old, step.loaded_old old]
      exact ⟨link, loaded⟩
    rw [step.subclasses inv] at member
    split at member
    · rename_i isSup
      rcases List.mem_cons.mp member with same | inside
      · exact ⟨by rw [same, step.superclass_cls, isSup], step.loaded_new (.inr same)⟩
      · exact kept p inside
    · split at member
      · simp at member
      · exact kept p member
  listed c p kind loaded link := by
    rw [step.subclasses inv]
    rcases step.superclass_cases kind link with ⟨rfl, isSup⟩ | ⟨old, kind, link⟩
    · rw [if_pos isSup]
      exact List.mem_cons_self
    · rw [step.loaded_old old] at loaded
      have inside := inv.listed c p kind loaded link
      have superOld := Runtime.notFresh_of_lt (inv.superBelow c p link)
      split
      · exact List.mem_cons_of_mem _ inside
      · rw [if_neg (not_or.mpr superOld)]
        exact inside
  registeredClass c registered := by
    obtain ⟨old, registered⟩ := step.of_registered registered
    rw [step.isMetaclass_old old, step.loaded_old old]
    exact inv.registeredClass c registered
  superRegistered c p kind link loaded := by
    rcases step.superclass_cases kind link with ⟨_, isSup⟩ | ⟨_, kind, link⟩
    · rw [step.isRegistered_old (Runtime.notFresh_of_lt (allocated_sup_lt inv known isSup))]
      exact known p isSup
    · have superOld := Runtime.notFresh_of_lt (inv.superBelow c p link)
      rw [step.loaded_old superOld] at loaded
      rw [step.isRegistered_old superOld]
      exact inv.superRegistered c p kind link loaded
  imageRegistered c member loaded := by
    have old := Runtime.notFresh_of_lt (inv.imageClass c member).2.1
    rw [step.loaded_old old] at loaded
    rw [step.isRegistered_old old]
    exact inv.imageRegistered c member loaded
  metaSuper c m p kind isa loaded link := by
    rcases step.isa_cases kind isa with ⟨rfl, rfl⟩ | ⟨old, kind, isa⟩
    · rw [step.superclass_cls] at link
      rw [step.superclass_metaclass, link, Option.bind_some,
        step.isa_old (Runtime.notFresh_of_lt (allocated_sup_lt inv known link))]
    · rw [step.loaded_old old] at loaded
      rw [step.superclass_old old] at link
      rw [step.superclass_old (Runtime.notFresh_of_lt (inv.isaKind c m kind isa).2),
        step.isa_old (Runtime.notFresh_of_lt (inv.superBelow c p link))]
      exact inv.metaSuper c m p kind isa loaded link
  metaRoot c m kind isa loaded link := by
    rcases step.isa_cases kind isa with ⟨rfl, rfl⟩ | ⟨old, kind, isa⟩
    · rw [step.superclass_cls] at link
      rw [step.superclass_metaclass, link]
      exact .inl rfl
    · rw [step.loaded_old old] at loaded
      rw [step.superclass_old old] at link
      rw [step.superclass_old (Runtime.notFresh_of_lt (inv.isaKind c m kind isa).2)]
      exact inv.metaRoot c m kind isa loaded link
  metaUnloaded c m kind isa unloaded := by
    have old := step.notFresh_of_unloaded unloaded
    rw [step.isMetaclass_old old] at kind
    rw [step.isa_old old] at isa
    rw [step.loaded_old old] at unloaded
    rw [step.superclass_old (Runtime.notFresh_of_lt (inv.isaKind c m kind isa).2)]
    exact inv.metaUnloaded c m kind isa unloaded
  registrySound entry member := by
    rw [step.registry] at member
    obtain ⟨registered, named⟩ := inv.registrySound entry member
    have old := Runtime.notFresh_of_lt (inv.lt_of_loaded (inv.registeredClass _ registered).2)
    rw [step.isRegistered_old old, step.keep_proj ObjcClass.name (fun _ _ => rfl) old]
    exact ⟨registered, named⟩
  registryComplete c registered := by
    obtain ⟨old, registered⟩ := step.of_registered registered
    rw [step.registry, step.keep_proj ObjcClass.name (fun _ _ => rfl) old]
    exact inv.registryComplete c registered

omit inv known

theorem Allocated.head_new {c : ClassPtr} (new : c = rt.nextClass ∨ c = rt.nextClass + 1) :
    (rt'.classes c).methodList.head = none := by
  rcases new with rfl | rfl
  · rw [step.metaclass]
    rfl
  · rw [step.cls]
    rfl

theorem Allocated.nodesOf (c : ClassPtr) :
    rt'.nodesOf c = if c = rt.nextClass ∨ c = rt.nextClass + 1 then [] else rt.nodesOf c := by
  have next : rt'.nextMethodListOf = rt.nextMethodListOf := by
    funext node
    simp only [Runtime.nextMethodListOf, step.lists]
  simp only [Runtime.nodesOf, next, step.nextList]
  split
  · rename_i new
    rw [step.head_new new]
    exact Walk.nil.successors_eq (Nat.zero_le _)
  · rename_i old
    rw [step.keep_proj (fun k => k.methodList.head) (fun _ _ => rfl) (not_or.mp old)]

theorem Allocated.chainInv (chain : ChainInv rt) : ChainInv rt' where
  complete c := by
    have next : rt'.nextMethodListOf = rt.nextMethodListOf := by
      funext node
      simp only [Runtime.nextMethodListOf, step.lists]
    rw [step.nodesOf, next]
    split
    · rename_i new
      rw [step.head_new new]
      exact .nil
    · rename_i old
      rw [step.keep_proj (fun k => k.methodList.head) (fun _ _ => rfl) (not_or.mp old)]
      exact chain.complete c
  below c node member := by
    rw [step.nodesOf] at member
    rw [step.nextList]
    split at member
    · simp at member
    · exact chain.below c node member
  disjoint a b node inA inB := by
    rw [step.nodesOf] at inA inB
    split at inA
    · simp at inA
    · split at inB
      · simp at inB
      · exact chain.disjoint a b node inA inB

include inv in
theorem Allocated.extends : Extends rt rt' := by
  have old : ∀ c, rt.Loaded c → rt.NotFresh c := fun c loaded => Runtime.notFresh_of_lt (inv.lt_of_loaded loaded)
  refine
    { nextClass := by rw [step.nextClass]; omega
      selEq := selEq_of_memory step.selectors
      loaded := fun c loaded => (step.loaded_old (old c loaded)).mpr loaded
      superclass := fun c loaded => step.superclass_old (old c loaded)
      isMetaclass := fun c loaded => step.isMetaclass_old (old c loaded)
      isa := fun c loaded => step.isa_old (old c loaded)
      registered := fun c registered => ?_
      entries := fun c loaded => ?_
      dtable := fun c loaded => step.dtable_old (old c loaded)
      fresh := fun c unloaded loaded => ?_
      name := fun c loaded => step.keep_proj ObjcClass.name (fun _ _ => rfl) (old c loaded)
      unloadedEntries := fun c unloaded => ?_ }
  · have loaded := (inv.registeredClass c registered).2
    rw [step.isRegistered_old (old c loaded)]
    exact registered
  · rw [Runtime.methodEntries_eq, Runtime.methodEntries_eq, step.nodesOf, step.lists,
      if_neg (not_or.mpr (old c loaded))]
  · rcases rt.fresh_cases c with rfl | rfl | old
    · rw [step.metaclass]
    · rw [step.cls]
    · exact absurd ((step.loaded_old old).mp loaded) unloaded
  · rw [Runtime.methodEntries_eq, Runtime.methodEntries_eq, step.nodesOf, step.lists,
      if_neg fun new => unloaded (step.loaded_new new)]

end Allocation

end O3jc
