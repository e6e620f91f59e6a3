import O3jc.Dispatch.Transparency
import O3jc.Loading.Canonical

namespace O3jc

open Library

/-- The sizes that the compiler emits. A root class without ivars of its own has size zero, and one with ivars has
room for `isa`. -/
def CompiledSize (rt : Runtime) (cls : ClassPtr) : Prop :=
  Int64.minValue < (rt.classes cls).instanceSize ∧ (rt.classes cls).instanceSize ≤ 0 ∧
    (rt.superclass cls = none → (rt.classes cls).instanceSize = 0 ∨ (rt.classes cls).instanceSize ≤ -8)

/-- A compiled subclass is emitted with room for `isa` and for everything that its superclass was emitted with. -/
def EmittedWhole (rt : Runtime) (cls : ClassPtr) : Prop :=
  ∀ p ∈ rt.superclass cls,
    (rt.classes cls).instanceSize ≤ -8 ∧ (rt.classes cls).instanceSize ≤ (rt.classes p).instanceSize

instance (rt : Runtime) (cls : ClassPtr) : Decidable (CompiledSize rt cls) := inferInstanceAs (Decidable (_ ∧ _ ∧ _))

instance (rt : Runtime) (cls : ClassPtr) : Decidable (EmittedWhole rt cls) :=
  inferInstanceAs (Decidable (∀ p ∈ rt.superclass cls, _ ∧ _))

/-- No instance is smaller than an object or than the instances of the superclass. -/
def Runtime.SizesNested (rt : Runtime) : Prop :=
  ∀ c, rt.Loaded c → (rt.classes c).isMetaclass = false → sizeOfObjcObject ≤ (rt.classes c).instanceSize ∧
    ∀ p, rt.superclass c = some p → (rt.classes p).instanceSize ≤ (rt.classes c).instanceSize

/-- The compiled classes of a load were emitted whole. -/
abbrev ClassOp.LoadsWhole (start : Runtime) (op : ClassOp) : Prop :=
  op.Loads fun classPtrs => ∀ c ∈ classPtrs.reduceOption, EmittedWhole start c

/-- A loaded compiled class has its patched size, and an allocated class has the size of its superclass. -/
structure SizeInv (image : List ClassPtr) (start rt : Runtime) : Prop where
  world : WorldInv image rt
  super : ∀ c ∈ image, rt.superclass c = start.superclass c
  compiled : ∀ c ∈ image, (rt.classes c).instanceSize =
    if rt.Loaded c then patchedSize (start.classes c) else (start.classes c).instanceSize
  root : ∀ c, c ∉ image → (rt.classes c).isMetaclass = false → rt.Loaded c → rt.superclass c = none →
    (rt.classes c).instanceSize = sizeOfObjcObject
  inherited : ∀ c p, c ∉ image → (rt.classes c).isMetaclass = false → rt.Loaded c → rt.superclass c = some p →
    rt.Loaded p ∧ (rt.classes c).instanceSize = (rt.classes p).instanceSize

section Steps

variable {image : List ClassPtr} {start rt rt' : Runtime} (inv : SizeInv image start rt)

include inv

/-- A call that keeps the graph, the sizes and the loaded classes keeps the invariant. -/
theorem SizeInv.of_same (world : WorldInv image rt')
    (kinds : ∀ c, (rt'.classes c).isMetaclass = (rt.classes c).isMetaclass)
    (super : rt'.superclass = rt.superclass) (loaded : ∀ c, rt'.Loaded c ↔ rt.Loaded c)
    (size : ∀ c, (rt'.classes c).instanceSize = (rt.classes c).instanceSize) : SizeInv image start rt' where
  world := world
  super := by
    rw [super]
    exact inv.super
  compiled := by
    simp only [size, loaded]
    exact inv.compiled
  root := by
    simp only [kinds, super, loaded, size]
    exact inv.root
  inherited := by
    simp only [kinds, super, loaded, size]
    exact inv.inherited

/-- The allocated class copies the size of a superclass whose own size is final. -/
theorem SizeInv.allocate {superclass : Option ClassPtr} {name : CStr} (world : WorldInv image rt')
    (known : ∀ s ∈ superclass, (rt.classes s).isRegistered = true) (step : Allocated rt rt' superclass name) :
    SizeInv image start rt' where
  world := world
  super c member := by
    rw [step.superclass_old (Runtime.notFresh_of_lt (inv.world.graph.imageClass c member).2.1)]
    exact inv.super c member
  compiled c member := by
    have old := Runtime.notFresh_of_lt (inv.world.graph.imageClass c member).2.1
    rw [step.size_old old, inv.compiled c member]
    simp only [step.loaded_old old]
  root c outside kind loaded link := by
    rcases step.plain_cases kind with rfl | ⟨old, kind⟩
    · rw [step.superclass_cls] at link
      rw [step.cls, link]
      rfl
    · rw [step.superclass_old old] at link
      rw [step.size_old old]
      exact inv.root c outside kind ((step.loaded_old old).mp loaded) link
  inherited c p outside kind loaded link := by
    rcases step.superclass_cases kind link with ⟨rfl, isSup⟩ | ⟨old, kind, link⟩
    · have supLoaded := (inv.world.graph.registeredClass p (known p isSup)).2
      have supOld := Runtime.notFresh_of_lt (inv.world.graph.lt_of_loaded supLoaded)
      rw [step.loaded_old supOld, step.size_old supOld, step.cls, isSup]
      exact ⟨supLoaded, rfl⟩
    · have supOld := Runtime.notFresh_of_lt (inv.world.graph.superBelow c p link)
      rw [step.loaded_old supOld, step.size_old supOld, step.size_old old]
      exact inv.inherited c p outside kind ((step.loaded_old old).mp loaded) link

/-- A turn of the loader patches the size of one compiled class and of its metaclass. -/
theorem SizeInv.turn {cls : ClassPtr} (member : cls ∈ image) (unloaded : ¬ rt.Loaded cls)
    (result : loadClass rt cls = some rt') : SizeInv image start rt' := by
  obtain ⟨metaclass, root, name, clsKind, below, isa, step⟩ := loadClass_installs inv.world member result
  have plain : ∀ {c}, (rt.classes c).isMetaclass = false → c ≠ metaclass := fun kind =>
    plain_ne_metaclass inv.world.graph clsKind isa kind
  have other : ∀ c, (rt.classes c).isMetaclass = false → c ≠ cls →
      (rt'.classes c).instanceSize = (rt.classes c).instanceSize ∧ (rt'.Loaded c ↔ rt.Loaded c) := by
    intro c kind different
    rw [step.size, step.loaded_iff, if_neg (by simp [different, plain kind])]
    simp [different, plain kind]
  have before : ∀ c, c ∉ image → c ≠ cls := fun c outside same => outside (same ▸ member)
  refine ⟨(loadClass_world inv.world member unloaded result).1, fun c inside => ?_, fun c inside => ?_,
    fun c outside kind loaded link => ?_, fun c p outside kind loaded link => ?_⟩
  · rw [step.superOld c (plain (inv.world.graph.imageClass c inside).1)]
    exact inv.super c inside
  · by_cases same : c = cls
    · subst same
      have raw := inv.compiled c member
      rw [if_neg unloaded] at raw
      have link := inv.super c member
      rw [if_pos ((step.loaded_iff c).mpr (.inl rfl)), step.size, if_pos (.inl rfl)]
      simp only [Runtime.superclass] at link
      simp only [patchedSize, raw, link]
    · obtain ⟨size, loaded⟩ := other c (inv.world.graph.imageClass c inside).1 same
      rw [size, inv.compiled c inside]
      simp only [loaded]
  · rw [step.isMetaclass] at kind
    rw [step.superOld c (plain kind)] at link
    obtain ⟨size, same⟩ := other c kind (before c outside)
    rw [size]
    exact inv.root c outside kind (same.mp loaded) link
  · rw [step.isMetaclass] at kind
    rw [step.superOld c (plain kind)] at link
    obtain ⟨size, same⟩ := other c kind (before c outside)
    obtain ⟨supLoaded, inherits⟩ := inv.inherited c p outside kind (same.mp loaded) link
    have supOther : p ≠ cls := fun isCls => unloaded (isCls ▸ supLoaded)
    obtain ⟨supSize, supSame⟩ := other p (inv.world.graph.superKind c p kind link) supOther
    rw [size, supSize]
    exact ⟨supSame.mpr supLoaded, inherits⟩

theorem SizeInv.step {op : ClassOp} (allowed : op.Permitted image rt) (result : op.exec rt = some rt') :
    SizeInv image start rt' := by
  have world := inv.world.step allowed result
  cases inv.world.graphStep allowed result with
  | allocated known step => exact inv.allocate world known step
  | registered step =>
      exact inv.of_same world step.isMetaclass step.superclass step.loaded
        (step.proj ObjcClass.instanceSize fun _ => rfl)
  | same graph =>
      exact inv.of_same world graph.isMetaclass graph.superclass graph.loaded_iff fun c =>
        congrArg ClassLinks.instanceSize (graph.links c)
  | loaded loadable loads =>
      exact loadClasses_rule (SizeInv image start) (fun _ _ _ _ inv member unloaded result =>
        inv.turn member unloaded result) inv.world inv loadable loads

end Steps

section Sizes

/-- A compiled class has the size that it was emitted with and, only as a root class, the size of an object. -/
theorem patchedSize_toInt {cls : ObjcClass} (above : Int64.minValue < cls.instanceSize)
    (below : cls.instanceSize ≤ 0) : (patchedSize cls).toInt =
      if cls.instanceSize = 0 ∧ cls.superClass = none then 8 else -cls.instanceSize.toInt := by
  have low := Int64.lt_iff_toInt_lt.mp above
  have high := Int64.le_iff_toInt_le.mp below
  rw [Int64.toInt_minValue] at low
  rw [Int64.toInt_zero] at high
  have negated : (-cls.instanceSize).toInt = -cls.instanceSize.toInt := by
    rw [Int64.toInt_neg, Int.bmod_eq_of_le (by omega) (by omega)]
  by_cases zero : cls.instanceSize = 0
  · by_cases root : cls.superClass = none
    · simp [patchedSize, zero, root, sizeOfObjcObject]
    · simp [patchedSize, zero, root]
  · have negative : cls.instanceSize < 0 := by
      rw [Int64.lt_iff_toInt_lt, Int64.toInt_zero]
      exact lt_of_le_of_ne high fun same => zero (Int64.toInt_inj.mp same)
    have positive : -cls.instanceSize ≠ 0 := by
      intro same
      rw [same, Int64.toInt_zero] at negated
      exact zero (Int64.toInt_inj.mp (by rw [Int64.toInt_zero]; omega))
    simp [patchedSize, negative, positive, zero, negated]

variable {rt : Runtime} {c p : ClassPtr}

theorem CompiledSize.patched_root (size : CompiledSize rt c) (root : rt.superclass c = none) :
    sizeOfObjcObject ≤ patchedSize (rt.classes c) := by
  obtain ⟨above, below, isa⟩ := size
  rw [Int64.le_iff_toInt_le, patchedSize_toInt above below]
  rcases isa root with zero | ivars
  · rw [if_pos ⟨zero, root⟩]
    decide
  · have room : (rt.classes c).instanceSize.toInt ≤ -8 := Int64.le_iff_toInt_le.mp ivars
    have nonzero : (rt.classes c).instanceSize ≠ 0 := fun zero => absurd (zero ▸ ivars) (by decide)
    have word : sizeOfObjcObject.toInt = 8 := by decide
    rw [if_neg fun both => nonzero both.1, word]
    omega

/-- Patching nests the sizes of a class and its superclass exactly when the compiler did. -/
theorem CompiledSize.patched_iff (size : CompiledSize rt c) (supSize : CompiledSize rt p)
    (link : rt.superclass c = some p) :
    (sizeOfObjcObject ≤ patchedSize (rt.classes c) ∧
      patchedSize (rt.classes p) ≤ patchedSize (rt.classes c)) ↔ EmittedWhole rt c := by
  obtain ⟨above, below, _⟩ := size
  obtain ⟨supAbove, supBelow, supIsa⟩ := supSize
  have patched := patchedSize_toInt above below
  have supPatched := patchedSize_toInt supAbove supBelow
  have word : sizeOfObjcObject.toInt = 8 := by decide
  have negWord : (-8 : Int64).toInt = -8 := by decide
  rw [if_neg fun both => absurd (link.symm.trans both.2) (by simp)] at patched
  simp only [EmittedWhole, link, Option.mem_some_iff, forall_eq', Int64.le_iff_toInt_le, word, negWord]
  rw [patched, supPatched]
  split
  · rename_i root
    rw [root.1, Int64.toInt_zero]
    omega
  · omega

end Sizes

section Runs

variable {image : List ClassPtr} {start rt : Runtime}

theorem StaticImage.sizeInv (static : StaticImage image start) : SizeInv image start start where
  world := static.worldInv
  super _ _ := rfl
  compiled c _ := by rw [if_neg (static.not_loaded c)]
  root c _ _ loaded := absurd loaded (static.not_loaded c)
  inherited c _ _ _ loaded := absurd loaded (static.not_loaded c)

variable (inv : SizeInv image start rt) (sizes : ∀ c ∈ image, CompiledSize start c)

include inv

/-- A loaded compiled class has its patched size. -/
theorem SizeInv.patched {c : ClassPtr} (member : c ∈ image) (loaded : rt.Loaded c) :
    (rt.classes c).instanceSize = patchedSize (start.classes c) := by
  rw [inv.compiled c member, if_pos loaded]

include sizes

/-- In a state with nested sizes every loaded compiled class was emitted whole. -/
theorem SizeInv.whole_of_nested (closed : ClosedWorld image rt) (nested : rt.SizesNested) :
    ∀ c ∈ image, rt.Loaded c → EmittedWhole start c := by
  intro c member loaded p link
  have now : rt.superclass c = some p := (inv.super c member).trans link
  obtain ⟨kind, _, supMember⟩ := inv.world.graph.imageClass c member
  have supInside := supMember p now
  obtain ⟨room, above⟩ := nested c loaded kind
  have above := above p now
  rw [inv.patched member loaded] at room above
  rw [inv.patched supInside (closed.closed c p kind loaded now)] at above
  exact ((sizes c member).patched_iff (sizes p supInside) link).mp ⟨room, above⟩ p link

variable (whole : ∀ c ∈ image, rt.Loaded c → EmittedWhole start c)

include whole

theorem SizeInv.super_le_of_whole (closed : ClosedWorld image rt) {c p : ClassPtr} (loaded : rt.Loaded c)
    (kind : (rt.classes c).isMetaclass = false) (link : rt.superclass c = some p) :
    (rt.classes p).instanceSize ≤ (rt.classes c).instanceSize := by
  by_cases member : c ∈ image
  · have supInside := (inv.world.graph.imageClass c member).2.2 p link
    rw [inv.patched member loaded, inv.patched supInside (closed.closed c p kind loaded link)]
    have before : start.superclass c = some p := (inv.super c member).symm.trans link
    exact (((sizes c member).patched_iff (sizes p supInside) before).mpr (whole c member loaded)).2
  · rw [(inv.inherited c p member kind loaded link).2]
    exact Int64.le_refl _

/-- Every class has the room of an object. The induction climbs the superclass chain of an allocated class. -/
theorem SizeInv.object_le_of_whole {c : ClassPtr} (loaded : rt.Loaded c)
    (kind : (rt.classes c).isMetaclass = false) : sizeOfObjcObject ≤ (rt.classes c).instanceSize := by
  obtain ⟨rank, decreasing, _⟩ := inv.world.graph.ranked
  induction level : rank c using Nat.strong_induction_on generalizing c with
  | _ level ih =>
      by_cases member : c ∈ image
      · rw [inv.patched member loaded]
        cases link : start.superclass c with
        | none => exact (sizes c member).patched_root link
        | some p =>
            have supInside := (inv.world.graph.imageClass c member).2.2 p ((inv.super c member).trans link)
            exact (((sizes c member).patched_iff (sizes p supInside) link).mpr (whole c member loaded)).1
      · cases link : rt.superclass c with
        | none =>
            rw [inv.root c member kind loaded link]
            exact Int64.le_refl _
        | some p =>
            obtain ⟨supLoaded, inherits⟩ := inv.inherited c p member kind loaded link
            rw [inherits]
            exact ih (rank p) (level ▸ decreasing c p link) supLoaded (inv.world.graph.superKind c p kind link) rfl

end Runs

/-- The compiled classes that a run has loaded are the listed ones. -/
theorem loaded_whole_step {image : List ClassPtr} {start rt rt' : Runtime} (world : WorldInv image rt) {op : ClassOp}
    (allowed : op.Permitted image rt) (listed : op.LoadsWhole start) (result : op.exec rt = some rt')
    (whole : ∀ c ∈ image, rt.Loaded c → EmittedWhole start c) :
    ∀ c ∈ image, rt'.Loaded c → EmittedWhole start c := by
  intro c member loaded
  obtain ⟨kind, below, _⟩ := world.graph.imageClass c member
  cases world.graphStep allowed result with
  | allocated _ step => exact whole c member ((step.loaded_old (Runtime.notFresh_of_lt below)).mp loaded)
  | registered step => exact whole c member ((step.loaded c).mp loaded)
  | same graph => exact whole c member ((graph.loaded_iff c).mp loaded)
  | loaded loadable loads =>
      rcases ((loadClasses_world world loadable loads).2.2.loaded c kind).mp loaded with inside | old
      · exact listed c inside
      · exact whole c member old

/-- In every state of every run the sizes are nested exactly when the compiled classes that the run has loaded were
emitted whole, and a run that loads only such classes keeps the sizes nested. -/
theorem instanceSizes_nested {image : List ClassPtr} {start : Runtime} (static : StaticImage image start)
    (sizes : ∀ c ∈ image, CompiledSize start c) :
    (∀ rt, Reachable ClassOp.exec (fun rt op => op.Permitted image rt ∧ op.LoadsSupers rt) start rt →
      (rt.SizesNested ↔ ∀ c ∈ image, rt.Loaded c → EmittedWhole start c)) ∧
    ∀ rt, Reachable ClassOp.exec
      (fun rt op => (op.Permitted image rt ∧ op.LoadsSupers rt) ∧ op.LoadsWhole start) start rt → rt.SizesNested := by
  have exact_when : ∀ rt, Reachable ClassOp.exec (fun rt op => op.Permitted image rt ∧ op.LoadsSupers rt) start rt →
      (rt.SizesNested ↔ ∀ c ∈ image, rt.Loaded c → EmittedWhole start c) := by
    intro rt run
    obtain ⟨inv, closed⟩ : SizeInv image start rt ∧ ClosedWorld image rt :=
      run.invariant (fun rt => SizeInv image start rt ∧ ClosedWorld image rt)
        ⟨static.sizeInv, static.instanceInv.toClosedWorld⟩
        fun _ _ _ both allowed result =>
          ⟨both.1.step allowed.1 result, both.2.step allowed.1 allowed.2 result⟩
    refine ⟨inv.whole_of_nested sizes closed, fun whole c loaded kind => ?_⟩
    exact ⟨inv.object_le_of_whole sizes whole loaded kind,
      fun p link => inv.super_le_of_whole sizes whole closed loaded kind link⟩
  refine ⟨exact_when, fun rt run => ?_⟩
  refine (exact_when rt (run.mono fun _ _ allowed => allowed.1)).mpr ?_
  have both : WorldInv image rt ∧ ∀ c ∈ image, rt.Loaded c → EmittedWhole start c :=
    run.invariant (fun rt => WorldInv image rt ∧ ∀ c ∈ image, rt.Loaded c → EmittedWhole start c)
      ⟨static.worldInv, fun c _ loaded => absurd loaded (static.not_loaded c)⟩
      fun _ _ _ inv allowed result =>
        ⟨inv.1.step allowed.1.1 result, loaded_whole_step inv.1 allowed.1.1 allowed.2 result inv.2⟩
  exact both.2

/-- A subclass with ivars is loaded before its root class, and a class pair is allocated below it. -/
theorem instanceSizes_nested_compiledPair : ∃ rt : Runtime, rt.Loaded 5 ∧ rt.superclass 5 = some 2 ∧
    (rt.classes 5).instanceSize = 16 ∧ rt.SizesNested := by
  have ran : ∃ rt ∈ replay ClassOp.exec
      (fun rt op => (op.Permitted [0, 2] rt ∧ op.LoadsSupers rt) ∧ op.LoadsWhole compiledPair) compiledPair
      [.loadClasses [some 2, none, some 0], .allocateClassPair (some 2) ⟨⟨#[68]⟩, by decide⟩],
      rt.Loaded 5 ∧ rt.superclass 5 = some 2 ∧ (rt.classes 5).instanceSize = 16 := by decide +kernel
  obtain ⟨rt, run, loaded, link, size⟩ := exists_reachable_of_replay ran
  exact ⟨rt, loaded, link, size, (instanceSizes_nested compiledPair_static (by decide)).2 rt run⟩

/-- A compiled subclass without ivars of its own keeps the size zero, below the size of its root class. -/
theorem instanceSizes_not_nested : (∀ c ∈ [0, 2, 4], CompiledSize compiledTriple c) ∧ ∃ rt : Runtime,
    Reachable ClassOp.exec (fun rt op => op.Permitted [0, 2, 4] rt ∧ op.LoadsSupers rt) compiledTriple rt ∧
    rt.Loaded 2 ∧ rt.superclass 2 = some 0 ∧ (rt.classes 2).instanceSize = 0 ∧
    (rt.classes 0).instanceSize = sizeOfObjcObject ∧ ¬ rt.SizesNested := by
  have ran : ∃ rt ∈ replay ClassOp.exec (fun rt op => op.Permitted [0, 2, 4] rt ∧ op.LoadsSupers rt) compiledTriple
      [.loadClasses [some 4, some 0, some 2]],
      rt.Loaded 2 ∧ (rt.classes 2).isMetaclass = false ∧ rt.superclass 2 = some 0 ∧
        (rt.classes 2).instanceSize = 0 ∧ (rt.classes 0).instanceSize = sizeOfObjcObject := by decide +kernel
  obtain ⟨rt, run, loaded, kind, link, size, rootSize⟩ := exists_reachable_of_replay ran
  refine ⟨by decide, rt, run, loaded, link, size, rootSize, fun nested => ?_⟩
  have room := (nested 2 loaded kind).1
  rw [size] at room
  exact absurd room (by decide)

end O3jc
