import O3jc.Dispatch.Load

namespace O3jc

open Library

section Installation

variable {image : List ClassPtr} {rt rt' : Runtime} {cls metaclass root : ClassPtr} {name : String}
  (step : Installed rt rt' cls metaclass root name)

include step

theorem Installed.isMetaclass (c : ClassPtr) :
    (rt'.classes c).isMetaclass = (rt.classes c).isMetaclass := by
  by_cases same : c = cls
  · subst same
    simp only [ObjcClass.isMetaclass, step.infoCls]
    rw [info_or_and_of_disjoint _ _ _ (by decide)]
  · simp only [ObjcClass.isMetaclass, step.infoOld c same]

theorem Installed.isRegistered_iff (c : ClassPtr) :
    (rt'.classes c).isRegistered = true ↔ c = cls ∨ (rt.classes c).isRegistered = true := by
  by_cases same : c = cls
  · subst same
    simp only [ObjcClass.isRegistered, step.infoCls, info_or_and_self, true_or, iff_true]
    decide
  · simp only [ObjcClass.isRegistered, step.infoOld c same, same, false_or]

theorem Installed.loaded_iff (c : ClassPtr) :
    rt'.Loaded c ↔ c = cls ∨ c = metaclass ∨ rt.Loaded c := by
  rw [Runtime.Loaded, step.dtable]
  by_cases new : c = cls ∨ c = metaclass
  · rw [if_pos new]
    simp only [Option.isSome_some, true_iff]
    exact new.imp_right .inl
  · rw [if_neg new, Runtime.Loaded]
    simp only [not_or] at new
    simp [new.1, new.2]

theorem Installed.selEq : selEq rt' = selEq rt := selEq_of_memory step.selectors

variable (inv : GraphInv image rt) (kind : (rt.classes cls).isMetaclass = false) (below : cls < rt.nextClass)
  (isa : (rt.classes cls).isa = some metaclass) (unloaded : ¬ rt.Loaded cls)

include inv kind isa unloaded

omit step in
theorem installed_meta_unloaded : ¬ rt.Loaded metaclass := fun loaded =>
  unloaded ((inv.pairLoaded cls metaclass kind isa).mp loaded)

omit step in
/-- No subclass list holds the pair before its turn. -/
theorem installed_not_listed {p c : ClassPtr} (member : c ∈ rt.subclasses p) : c ≠ cls ∧ c ≠ metaclass := by
  have loaded := (inv.subclassSuper p c member).2
  exact ⟨fun same => unloaded (same ▸ loaded),
    fun same => installed_meta_unloaded inv kind isa unloaded (same ▸ loaded)⟩

theorem Installed.subclasses_walk (p : ClassPtr) : Walk rt'.sibling (rt'.classes p).subclassList
    (if rt.superclass cls = some p then cls :: rt.subclasses p
      else if metaParent rt cls = some p then metaclass :: rt.subclasses p else rt.subclasses p) := by
  have apart := cls_ne_metaclass inv kind isa
  have old : ∀ q, Walk rt'.sibling (rt.classes q).subclassList (rt.subclasses q) := by
    intro q
    refine (inv.siblings q).congr fun c member => ?_
    have outside := installed_not_listed inv kind isa unloaded member
    rw [step.sibling, if_neg outside.1, if_neg outside.2]
  rw [step.subclassList]
  by_cases isSuper : rt.superclass cls = some p
  · rw [if_pos isSuper, if_pos isSuper]
    refine .cons _ _ ?_
    rw [step.sibling, if_pos rfl, isSuper]
    exact old p
  · rw [if_neg isSuper, if_neg isSuper]
    by_cases isParent : metaParent rt cls = some p
    · rw [if_pos isParent, if_pos isParent]
      refine .cons _ _ ?_
      rw [step.sibling, if_neg apart.symm, if_pos rfl, isParent]
      exact old p
    · rw [if_neg isParent, if_neg isParent]
      exact old p

include below in
theorem Installed.subclasses (p : ClassPtr) : rt'.subclasses p =
    if rt.superclass cls = some p then cls :: rt.subclasses p
    else if metaParent rt cls = some p then metaclass :: rt.subclasses p else rt.subclasses p := by
  refine Runtime.subclasses_eq_of_walk (step.subclasses_walk inv kind isa unloaded p) fun c member => ?_
  rw [step.nextClass]
  have old : c ∈ rt.subclasses p → c < rt.nextClass := fun inside =>
    inv.lt_of_loaded (inv.subclassSuper p c inside).2
  split at member
  · rcases List.mem_cons.mp member with same | inside
    · exact same ▸ below
    · exact old inside
  · split at member
    · rcases List.mem_cons.mp member with same | inside
      · exact same ▸ (inv.isaKind cls metaclass kind isa).2
      · exact old inside
    · exact old member

omit isa unloaded in
/-- The metaclass's new superclass is the class itself or the metaclass of the superclass. -/
theorem Installed.superMeta_cases {p : ClassPtr} (link : rt'.superclass metaclass = some p) :
    (rt.superclass cls = none ∧ p = cls) ∨ ∃ sup, rt.superclass cls = some sup ∧
      (rt.classes sup).isMetaclass = false ∧ (rt.classes sup).isa = some p := by
  rw [step.superMeta] at link
  cases super : rt.superclass cls with
  | none =>
      rw [super] at link
      exact .inl ⟨rfl, (Option.some.inj link).symm⟩
  | some sup =>
      rw [super] at link
      exact .inr ⟨sup, rfl, inv.superKind cls sup kind super, link⟩

omit step kind isa unloaded in
theorem plain_ne_metaclass (kind : (rt.classes cls).isMetaclass = false)
    (isa : (rt.classes cls).isa = some metaclass) {c : ClassPtr} (plain : (rt.classes c).isMetaclass = false) :
    c ≠ metaclass := by
  rintro rfl
  rw [(inv.isaKind cls c kind isa).1] at plain
  exact absurd plain (by simp)

omit step unloaded in
/-- A class other than the loaded one has another metaclass. -/
theorem other_metaclass {c m : ClassPtr} (plain : (rt.classes c).isMetaclass = false)
    (link : (rt.classes c).isa = some m) (different : c ≠ cls) : m ≠ metaclass := fun same =>
  different (inv.isaInj c cls metaclass plain kind (same ▸ link) isa)

/-- Installing a class pair keeps the class graph. -/
theorem Installed.graphInv (below : cls < rt.nextClass) : GraphInv image rt' := by
  have plain : ∀ {c}, (rt.classes c).isMetaclass = false → c ≠ metaclass :=
    fun kind' => plain_ne_metaclass inv kind isa kind'
  have other : ∀ {c m}, (rt.classes c).isMetaclass = false → (rt.classes c).isa = some m → c ≠ cls →
      m ≠ metaclass := fun kind' link different => other_metaclass inv kind isa kind' link different
  have metaBelow := (inv.isaKind cls metaclass kind isa).2
  refine
    { blank := fun c above => ?blank
      superBelow := fun c p link => ?superBelow
      ranked := ?ranked
      superKind := fun c p kind' link => ?superKind
      isaKind := fun c m kind' link => ?isaKind
      hasIsa := fun c kind' below' => ?hasIsa
      isaInj := fun c d m cKind dKind cIsa dIsa => ?isaInj
      pairLoaded := fun c m kind' link => ?pairLoaded
      imageClass := fun c member => ?imageClass
      unloaded := fun c kind' below' unloaded' => ?unloaded
      siblings := fun p => ?siblings
      subclassSuper := fun p c member => ?subclassSuper
      listed := fun c p kind' loaded link => ?listed
      registeredClass := fun c registered => ?registeredClass
      superRegistered := fun c p kind' link loaded => ?superRegistered
      imageRegistered := fun c member loaded => ?imageRegistered
      metaSuper := fun c m p kind' link loaded super => ?metaSuper
      metaRoot := fun c m kind' link loaded super => ?metaRoot
      metaUnloaded := fun c m kind' link unloaded' => ?metaUnloaded
      registrySound := fun entry member => ?registrySound
      registryComplete := fun c registered => ?registryComplete }
  case blank =>
    rw [step.nextClass] at above
    have notCls : c ≠ cls := fun same => Nat.not_lt_of_le above (same ▸ below)
    have notMeta : c ≠ metaclass := fun same => Nat.not_lt_of_le above (same ▸ metaBelow)
    have notSuper : rt.superclass cls ≠ some c := fun link =>
      Nat.not_lt_of_le above (inv.superBelow cls c link)
    have notParent : metaParent rt cls ≠ some c := by
      intro link
      obtain ⟨sup, super, supIsa⟩ := Option.bind_eq_some_iff.mp link
      exact Nat.not_lt_of_le above (inv.isaKind sup c (inv.superKind cls sup kind super) supIsa).2
    have links : (rt'.classes c).links = (rt.classes c).links := by
      have super := step.superOld c notMeta
      have sibling := step.sibling c
      rw [if_neg notCls, if_neg notMeta] at sibling
      have list := step.subclassList c
      rw [if_neg notSuper, if_neg notParent] at list
      have size := step.size c
      rw [if_neg (by simp [notCls, notMeta])] at size
      simp only [Runtime.superclass, Runtime.sibling] at super sibling
      simp only [ObjcClass.links, step.isaOld c notMeta, super, step.name, step.infoOld c notCls, size, list, sibling]
    rw [links, step.dtable, if_neg (by simp [notCls, notMeta])]
    exact inv.blank c above
  case superBelow =>
    rw [step.nextClass]
    by_cases isMeta : c = metaclass
    · rw [isMeta] at link
      rcases step.superMeta_cases inv kind link with ⟨_, same⟩ | ⟨sup, _, supKind, supIsa⟩
      · exact same ▸ below
      · exact (inv.isaKind sup p supKind supIsa).2
    · rw [step.superOld c isMeta] at link
      exact inv.superBelow c p link
  case ranked =>
    obtain ⟨rank, decreasing, pairs⟩ := inv.ranked
    refine ⟨rank, fun c p link => ?_, fun c m kind' link => ?_⟩
    · by_cases isMeta : c = metaclass
      · rw [isMeta] at link ⊢
        rw [pairs cls metaclass kind isa]
        rcases step.superMeta_cases inv kind link with ⟨_, same⟩ | ⟨sup, super, supKind, supIsa⟩
        · rw [same]
          exact Nat.lt_succ_self _
        · rw [pairs sup p supKind supIsa]
          exact Nat.succ_lt_succ (decreasing cls sup super)
      · rw [step.superOld c isMeta] at link
        exact decreasing c p link
    · rw [step.isMetaclass] at kind'
      rw [step.isaOld c (plain kind')] at link
      exact pairs c m kind' link
  case superKind =>
    rw [step.isMetaclass] at kind' ⊢
    rw [step.superOld c (plain kind')] at link
    exact inv.superKind c p kind' link
  case isaKind =>
    rw [step.isMetaclass] at kind' ⊢
    rw [step.isaOld c (plain kind')] at link
    rw [step.nextClass]
    exact inv.isaKind c m kind' link
  case hasIsa =>
    rw [step.isMetaclass] at kind'
    rw [step.nextClass] at below'
    rw [step.isaOld c (plain kind')]
    exact inv.hasIsa c kind' below'
  case isaInj =>
    rw [step.isMetaclass] at cKind dKind
    rw [step.isaOld c (plain cKind)] at cIsa
    rw [step.isaOld d (plain dKind)] at dIsa
    exact inv.isaInj c d m cKind dKind cIsa dIsa
  case pairLoaded =>
    rw [step.isMetaclass] at kind'
    rw [step.isaOld c (plain kind')] at link
    rw [step.loaded_iff, step.loaded_iff]
    by_cases same : c = cls
    · have isMeta : m = metaclass := by
        rw [same, isa] at link
        exact (Option.some.inj link).symm
      simp [same, isMeta]
    · have notCls : m ≠ cls := fun eq => by
        rw [eq] at link
        rw [(inv.isaKind c cls kind' link).1] at kind
        exact absurd kind (by simp)
      have pair := inv.pairLoaded c m kind' link
      simp [same, notCls, other kind' link same, plain kind', pair]
  case imageClass =>
    obtain ⟨kind', below', supers⟩ := inv.imageClass c member
    rw [step.isMetaclass, step.nextClass, step.superOld c (plain kind')]
    exact ⟨kind', below', supers⟩
  case unloaded =>
    rw [step.isMetaclass] at kind'
    rw [step.nextClass] at below'
    exact inv.unloaded c kind' below' fun loaded => unloaded' ((step.loaded_iff c).mpr (.inr (.inr loaded)))
  case siblings =>
    rw [step.subclasses inv kind below isa unloaded]
    exact step.subclasses_walk inv kind isa unloaded p
  case subclassSuper =>
    have old : c ∈ rt.subclasses p → rt'.superclass c = some p ∧ rt'.Loaded c := by
      intro inside
      obtain ⟨link, loaded⟩ := inv.subclassSuper p c inside
      rw [step.superOld c (installed_not_listed inv kind isa unloaded inside).2, step.loaded_iff]
      exact ⟨link, .inr (.inr loaded)⟩
    rw [step.subclasses inv kind below isa unloaded] at member
    split at member
    · rename_i super
      rcases List.mem_cons.mp member with same | inside
      · subst same
        rw [step.superOld c (plain kind), step.loaded_iff]
        exact ⟨super, .inl rfl⟩
      · exact old inside
    · split at member
      · rename_i parent
        rcases List.mem_cons.mp member with same | inside
        · subst same
          obtain ⟨sup, super, supIsa⟩ := Option.bind_eq_some_iff.mp parent
          rw [step.superMeta, super, step.loaded_iff]
          exact ⟨supIsa, .inr (.inl rfl)⟩
        · exact old inside
      · exact old member
  case listed =>
    rw [step.isMetaclass] at kind'
    rw [step.superOld c (plain kind')] at link
    rw [step.subclasses inv kind below isa unloaded]
    rcases (step.loaded_iff c).mp loaded with same | same | old
    · rw [← same, if_pos link]
      exact List.mem_cons_self
    · exact absurd same (plain kind')
    · have inside := inv.listed c p kind' old link
      split
      · exact List.mem_cons_of_mem _ inside
      · split
        · exact List.mem_cons_of_mem _ inside
        · exact inside
  case registeredClass =>
    rw [step.isMetaclass, step.loaded_iff]
    rcases (step.isRegistered_iff c).mp registered with same | old
    · rw [same]
      exact ⟨kind, .inl rfl⟩
    · exact ⟨(inv.registeredClass c old).1, .inr (.inr (inv.registeredClass c old).2)⟩
  case superRegistered =>
    rw [step.isMetaclass] at kind'
    rw [step.superOld c (plain kind')] at link
    rw [step.isRegistered_iff]
    rcases (step.loaded_iff p).mp loaded with same | same | old
    · exact .inl same
    · exact absurd same (plain (inv.superKind c p kind' link))
    · exact .inr (inv.superRegistered c p kind' link old)
  case imageRegistered =>
    rw [step.isRegistered_iff]
    rcases (step.loaded_iff c).mp loaded with same | same | old
    · exact .inl same
    · exact absurd same (plain (inv.imageClass c member).1)
    · exact .inr (inv.imageRegistered c member old)
  case metaSuper =>
    rw [step.isMetaclass] at kind'
    rw [step.isaOld c (plain kind')] at link
    rw [step.superOld c (plain kind')] at super
    rw [step.isaOld p (plain (inv.superKind c p kind' super))]
    by_cases same : c = cls
    · have isMeta : m = metaclass := by
        rw [same, isa] at link
        exact (Option.some.inj link).symm
      rw [isMeta, step.superMeta, ← same, super]
      rfl
    · have old : rt.Loaded c := ((step.loaded_iff c).mp loaded).resolve_left same |>.resolve_left (plain kind')
      rw [step.superOld m (other kind' link same)]
      exact inv.metaSuper c m p kind' link old super
  case metaRoot =>
    rw [step.isMetaclass] at kind'
    rw [step.isaOld c (plain kind')] at link
    rw [step.superOld c (plain kind')] at super
    by_cases same : c = cls
    · have isMeta : m = metaclass := by
        rw [same, isa] at link
        exact (Option.some.inj link).symm
      rw [isMeta, step.superMeta, ← same, super]
      exact .inr rfl
    · have old : rt.Loaded c := ((step.loaded_iff c).mp loaded).resolve_left same |>.resolve_left (plain kind')
      rw [step.superOld m (other kind' link same)]
      exact inv.metaRoot c m kind' link old super
  case metaUnloaded =>
    rw [step.isMetaclass] at kind'
    rw [step.isaOld c (plain kind')] at link
    have same : c ≠ cls := fun same => unloaded' ((step.loaded_iff c).mpr (.inl same))
    rw [step.superOld m (other kind' link same)]
    exact inv.metaUnloaded c m kind' link fun loaded => unloaded' ((step.loaded_iff c).mpr (.inr (.inr loaded)))
  case registrySound =>
    exact registrySound_insert inv step.isRegistered_iff step.name step.registry step.named entry member
  case registryComplete =>
    exact registryComplete_insert inv step.isRegistered_iff step.name step.registry step.named c registered

theorem Installed.extends : Extends rt rt' := by
  have outside : ∀ c, rt.Loaded c → c ≠ cls ∧ c ≠ metaclass := fun c loaded =>
    ⟨fun same => unloaded (same ▸ loaded), fun same => installed_meta_unloaded inv kind isa unloaded (same ▸ loaded)⟩
  refine
    { nextClass := Nat.le_of_eq step.nextClass.symm
      selEq := step.selEq
      loaded := fun c loaded => (step.loaded_iff c).mpr (.inr (.inr loaded))
      superclass := fun c loaded => step.superOld c (outside c loaded).2
      isMetaclass := fun c _ => step.isMetaclass c
      isa := fun c loaded => step.isaOld c (outside c loaded).2
      registered := fun c registered => (step.isRegistered_iff c).mpr (.inr registered)
      entries := fun c loaded => ?_
      dtable := fun c loaded => ?_
      fresh := fun c old new => ?_
      name := fun c _ => step.name c
      unloadedEntries := fun c old => ?_ }
  · rw [Runtime.methodEntries_eq_chainOf, step.chains, if_neg (by simp [outside c loaded]),
      Runtime.methodEntries_eq_chainOf]
  · rw [step.dtable, if_neg (by simp [outside c loaded])]
  · rw [step.dtable]
    rcases (step.loaded_iff c).mp new with same | same | loaded
    · rw [if_pos (.inl same)]
    · rw [if_pos (.inr same)]
    · exact absurd loaded old
  · rw [step.loaded_iff, not_or, not_or] at old
    rw [Runtime.methodEntries_eq_chainOf, step.chains, if_neg (by simp [old.1, old.2.1]),
      Runtime.methodEntries_eq_chainOf]

end Installation

end O3jc
