import O3jc.Dispatch.Transparency

namespace O3jc

open Library

/-- The subclass iteration of a class ends after the listed classes. -/
def Runtime.SubclassesEnd (rt : Runtime) (cls : ClassPtr) (listed : List ClassPtr) : Prop :=
  Walk rt.sibling (rt.classes cls).subclassList listed

/-- The superclass chain of the first class climbs to the second one through loaded classes. -/
def Runtime.ReachesLoaded (rt : Runtime) (cls top : ClassPtr) : Prop :=
  ∃ before after, rt.ancestors cls = before ++ top :: after ∧ ∀ c ∈ before, rt.Loaded c

/-- The superclass of every loaded class is loaded. -/
def Runtime.SupersLoaded (rt : Runtime) : Prop :=
  ∀ c p, (rt.classes c).isMetaclass = false → rt.Loaded c → rt.superclass c = some p → rt.Loaded p

/-- The subclass lists of ordinary classes hold ordinary classes. -/
structure ForestInv (image : List ClassPtr) (rt : Runtime) : Prop where
  world : WorldInv image rt
  plain : ∀ p, (rt.classes p).isMetaclass = false → ∀ c ∈ rt.subclasses p, (rt.classes c).isMetaclass = false

section Steps

variable {image : List ClassPtr} {rt rt' : Runtime} (inv : ForestInv image rt)

include inv

theorem ForestInv.of_same (world : WorldInv image rt')
    (subclasses : rt'.subclasses = rt.subclasses)
    (kinds : ∀ c, (rt'.classes c).isMetaclass = (rt.classes c).isMetaclass) : ForestInv image rt' where
  world := world
  plain := by
    simp only [subclasses, kinds]
    exact inv.plain

/-- An allocation puts the new class into its superclass's list, and its metaclass into none. -/
theorem ForestInv.allocate {superclass : Option ClassPtr} {name : CStr} (world : WorldInv image rt')
    (step : Allocated rt rt' superclass name) : ForestInv image rt' where
  world := world
  plain p kind c member := by
    have old : c ∈ rt.subclasses p → (rt'.classes c).isMetaclass = false := by
      intro inside
      obtain ⟨link, loaded⟩ := inv.world.graph.subclassSuper p c inside
      rw [step.isMetaclass_old (Runtime.notFresh_of_lt (inv.world.graph.superBelow c p link))] at kind
      rw [step.isMetaclass_old (Runtime.notFresh_of_lt (inv.world.graph.lt_of_loaded loaded))]
      exact inv.plain p kind c inside
    rw [step.subclasses inv.world.graph] at member
    split at member
    · rcases List.mem_cons.mp member with rfl | inside
      · exact step.isMetaclass_cls
      · exact old inside
    · split at member
      · exact absurd member List.not_mem_nil
      · exact old member

/-- A turn of the loader puts the class below its superclass and the metaclass below a metaclass. -/
theorem ForestInv.turn {cls : ClassPtr} (member : cls ∈ image) (unloaded : ¬ rt.Loaded cls)
    (result : loadClass rt cls = some rt') : ForestInv image rt' where
  world := (loadClass_world inv.world member unloaded result).1
  plain p kind c inside := by
    obtain ⟨metaclass, root, name, clsKind, below, isa, step⟩ := loadClass_installs inv.world member result
    rw [step.isMetaclass] at kind ⊢
    rw [step.subclasses inv.world.graph clsKind below isa unloaded] at inside
    split at inside
    · rcases List.mem_cons.mp inside with rfl | old
      · exact clsKind
      · exact inv.plain p kind c old
    · split at inside
      · rename_i parent
        obtain ⟨sup, link, supIsa⟩ := Option.bind_eq_some_iff.mp parent
        have supKind := inv.world.graph.superKind cls sup clsKind link
        rw [(inv.world.graph.isaKind sup p supKind supIsa).1] at kind
        contradiction
      · exact inv.plain p kind c inside

theorem ForestInv.step {op : ClassOp} (allowed : op.Permitted image rt) (result : op.exec rt = some rt') :
    ForestInv image rt' := by
  have world := inv.world.step allowed result
  cases inv.world.graphStep allowed result with
  | allocated _ step => exact inv.allocate world step
  | registered step => exact inv.of_same world step.subclasses step.isMetaclass
  | same graph => exact inv.of_same world graph.subclasses graph.isMetaclass
  | loaded loadable loads =>
      exact loadClasses_rule (ForestInv image) (fun _ _ _ _ inv member unloaded result =>
        inv.turn member unloaded result) inv.world inv loadable loads

end Steps

theorem StaticImage.forestInv {image : List ClassPtr} {rt : Runtime} (start : StaticImage image rt) :
    ForestInv image rt where
  world := start.worldInv
  plain p _ c member := by
    rw [start.subclasses] at member
    exact absurd member List.not_mem_nil

theorem StaticImage.forestInv_of_run {image : List ClassPtr} {start rt : Runtime} (static : StaticImage image start)
    (run : Reachable ClassOp.exec (ClassOp.Permitted image) start rt) : ForestInv image rt :=
  run.invariant (ForestInv image) static.forestInv fun _ _ _ inv => inv.step

section Visits

variable {image : List ClassPtr} {rt : Runtime} (inv : ForestInv image rt)

include inv

/-- A direct subclass stands one link deeper than its superclass. -/
theorem ForestInv.ancestors_subclass {p c : ClassPtr} (member : c ∈ rt.subclasses p) :
    rt.ancestors c = c :: rt.ancestors p := by
  obtain ⟨link, loaded⟩ := inv.world.graph.subclassSuper p c member
  obtain ⟨rest, split, tail⟩ := walk_some_iff.mp
    (inv.world.graph.ancestors_walk (inv.world.graph.lt_of_loaded loaded))
  rw [link] at tail
  rw [split, tail.unique (inv.world.graph.ancestors_walk (inv.world.graph.superBelow c p link))]

theorem ForestInv.finite (cls : ClassPtr) : ∃ walk, Walk rt.superclass (some cls) walk := by
  obtain ⟨rank, decreasing, _⟩ := inv.world.graph.ranked
  exact Walk.exists_of_rank rank decreasing (some cls)

/-- The recursion of `flush_class_cache_tree` ends, since no chain is longer than the number of classes. -/
theorem ForestInv.flush_ends {cls : ClassPtr} (below : cls < rt.nextClass) :
    Traversal rt.SubclassesEnd [cls] (flushOrder rt cls) := by
  refine traversal_preorder (inv.world.graph.siblings ·) (fun c => rt.nextClass - (rt.ancestors c).length)
    (fun p c member => ?_) ?_
  · have loaded := (inv.world.graph.subclassSuper p c member).2
    have fits := inv.world.graph.ancestors_length (inv.world.graph.lt_of_loaded loaded)
    rw [inv.ancestors_subclass member] at fits ⊢
    rw [List.length_cons] at fits ⊢
    omega
  · exact Nat.sub_lt (Nat.zero_lt_of_lt below) (List.length_pos_of_mem (inv.world.graph.self_mem_ancestors below))

theorem ForestInv.flushOrder_nodup (cls : ClassPtr) : (flushOrder rt cls).Nodup :=
  preorder_nodup (fun p c member => (inv.world.graph.subclassSuper p c member).1)
    (fun p => (inv.world.graph.siblings p).nodup) inv.finite rt.nextClass cls

/-- Every visited class is an allocated ordinary class. -/
theorem ForestInv.visited_plain {top : ClassPtr} (kind : (rt.classes top).isMetaclass = false)
    (below : top < rt.nextClass) :
    ∀ c ∈ flushOrder rt top, (rt.classes c).isMetaclass = false ∧ c < rt.nextClass :=
  forall_mem_preorder (fun c => (rt.classes c).isMetaclass = false ∧ c < rt.nextClass)
    (fun p here c member => ⟨inv.plain p here.1 c member,
      inv.world.graph.lt_of_loaded (inv.world.graph.subclassSuper p c member).2⟩) ⟨kind, below⟩

omit inv in
theorem Runtime.ReachesLoaded.eq_or_loaded {cls top : ClassPtr}
    (walk : Walk rt.superclass (some cls) (rt.ancestors cls)) (reaches : rt.ReachesLoaded cls top) :
    cls = top ∨ rt.Loaded cls := by
  obtain ⟨before, after, split, loaded⟩ := reaches
  rw [split] at walk
  obtain ⟨rest, first, _⟩ := walk_some_iff.mp walk
  cases before with
  | nil => exact .inl (List.cons.inj first).1.symm
  | cons c others =>
      obtain rfl : c = cls := (List.cons.inj first).1
      exact .inr (loaded c List.mem_cons_self)

/-- The visited classes are those whose chain climbs to the class through loaded classes. -/
theorem ForestInv.mem_flushOrder_iff {top : ClassPtr} (kind : (rt.classes top).isMetaclass = false)
    (below : top < rt.nextClass) (c : ClassPtr) : c ∈ flushOrder rt top ↔
      c < rt.nextClass ∧ (rt.classes c).isMetaclass = false ∧ rt.ReachesLoaded c top := by
  have links := fun p c member => (inv.world.graph.subclassSuper p c member).1
  constructor
  · intro visited
    obtain ⟨plain, inside⟩ := inv.visited_plain kind below c visited
    obtain ⟨before, after, split, listed⟩ :=
      chain_of_mem_preorder links visited (inv.world.graph.ancestors_walk inside)
    refine ⟨inside, plain, before, after, split, fun e member => ?_⟩
    obtain ⟨p, subclass⟩ := listed e member
    exact (inv.world.graph.subclassSuper p e subclass).2
  · rintro ⟨inside, plain, before, after, split, loaded⟩
    have complete := inv.world.graph.ancestors_walk inside
    have kinds := inv.world.graph.ancestors_kind inside plain
    have fits := inv.world.graph.ancestors_length inside
    rw [split] at complete kinds fits
    have reached := mem_preorder_of_chain complete fun e member p link =>
      inv.world.graph.listed e p (kinds e (List.mem_append_left _ member)) (loaded e member) link
    refine preorder_mono ?_ reached
    rw [List.length_append, List.length_cons] at fits
    omega

/-- Once the superclasses of loaded classes are loaded, the visits mirror inheritance between loaded classes. -/
theorem ForestInv.mem_flushOrder_iff_of_supers (supers : rt.SupersLoaded) {top : ClassPtr}
    (kind : (rt.classes top).isMetaclass = false) (below : top < rt.nextClass) (c : ClassPtr) :
    c ∈ flushOrder rt top ↔
      c = top ∨ rt.Loaded c ∧ (rt.classes c).isMetaclass = false ∧ top ∈ rt.ancestors c := by
  rw [inv.mem_flushOrder_iff kind below]
  constructor
  · rintro ⟨inside, plain, reaches⟩
    refine (reaches.eq_or_loaded (inv.world.graph.ancestors_walk inside)).imp_right fun loaded => ?_
    obtain ⟨before, after, split, _⟩ := reaches
    exact ⟨loaded, plain, by simp [split]⟩
  · rintro (rfl | ⟨loaded, plain, above⟩)
    · obtain ⟨rest, split, _⟩ := walk_some_iff.mp (inv.world.graph.ancestors_walk below)
      exact ⟨below, kind, [], rest, split, by simp⟩
    · have closed : ClosedWorld image rt := ⟨inv.world, supers⟩
      obtain ⟨before, after, split⟩ := List.append_of_mem above
      refine ⟨inv.world.graph.lt_of_loaded loaded, plain, before, after, split, fun e member => ?_⟩
      exact closed.ready plain loaded e (by simp [split, member])

end Visits

/-- In every state of every run a flush ends, visits no class twice, and visits the class and the ordinary classes that
reach it through loaded classes. -/
theorem flushClassCacheTree_covers {image : List ClassPtr} {start rt : Runtime} (static : StaticImage image start)
    (run : Reachable ClassOp.exec (ClassOp.Permitted image) start rt) {cls : ClassPtr}
    (kind : (rt.classes cls).isMetaclass = false) (below : cls < rt.nextClass) :
    ∃ visits, Traversal rt.SubclassesEnd [cls] visits ∧
      flushClassCacheTree rt cls = visits.foldl Runtime.flushCache rt ∧ visits.Nodup ∧
      (∀ c, c ∈ visits ↔ c < rt.nextClass ∧ (rt.classes c).isMetaclass = false ∧ rt.ReachesLoaded c cls) ∧
      (rt.SupersLoaded → ∀ c, c ∈ visits ↔
        c = cls ∨ rt.Loaded c ∧ (rt.classes c).isMetaclass = false ∧ cls ∈ rt.ancestors c) := by
  have inv := static.forestInv_of_run run
  exact ⟨flushOrder rt cls, inv.flush_ends below, flushClassCacheTree_eq rt cls, inv.flushOrder_nodup cls,
    inv.mem_flushOrder_iff kind below, fun supers => inv.mem_flushOrder_iff_of_supers supers kind below⟩

/-- A class pair is allocated below the root class while a compiled class waits for its superclass. -/
theorem flushClassCacheTree_covers_early : ∃ rt : Runtime, rt.Loaded 4 ∧ ¬ rt.Loaded 2 ∧
    ∃ visits, Traversal rt.SubclassesEnd [0] visits ∧ visits.Nodup ∧ 7 ∈ visits := by
  have ran : ∃ rt ∈ replay ClassOp.exec (ClassOp.Permitted [0, 2, 4]) compiledTriple
      [.loadClasses [some 0], .loadClasses [some 4], .allocateClassPair (some 0) ⟨⟨#[68]⟩, by decide⟩],
      rt.Loaded 4 ∧ ¬ rt.Loaded 2 ∧ (rt.classes 0).isMetaclass = false ∧ rt.nextClass = 8 ∧
        (rt.classes 7).isMetaclass = false ∧ rt.ancestors 7 = [7, 0] ∧ rt.Loaded 7 := by decide +kernel
  obtain ⟨rt, run, loaded, waits, root, next, plain, chain, allocated⟩ := exists_reachable_of_replay ran
  obtain ⟨visits, ends, _, distinct, covers, _⟩ :=
    flushClassCacheTree_covers compiledTriple_static run root (by rw [next]; decide)
  refine ⟨rt, loaded, waits, visits, ends, distinct, (covers 7).mpr ⟨by rw [next]; decide, plain, [7], [], chain, ?_⟩⟩
  simpa using allocated

/-- Three compiled classes are loaded one by one, the middle one last. Before its turn the flush of the root class does
not reach the loaded class at the bottom. -/
theorem flushClassCacheTree_misses : ∃ rt rt' : Runtime,
    Reachable ClassOp.exec (ClassOp.Permitted [0, 2, 4]) compiledTriple rt ∧
    Reachable ClassOp.exec (ClassOp.Permitted [0, 2, 4]) rt rt' ∧ (∀ c ∈ [0, 2, 4], rt'.Loaded c) ∧
    rt.Loaded 0 ∧ rt.Loaded 4 ∧ (rt.classes 0).isMetaclass = false ∧ (rt.classes 4).isMetaclass = false ∧
    0 ∈ rt.ancestors 4 ∧ Traversal rt.SubclassesEnd [0] (flushOrder rt 0) ∧ 4 ∉ flushOrder rt 0 := by
  have ran : ∃ rt ∈ replay ClassOp.exec (ClassOp.Permitted [0, 2, 4]) compiledTriple
      [.loadClasses [some 0], .loadClasses [some 4]],
      (∃ rt' ∈ replay ClassOp.exec (ClassOp.Permitted [0, 2, 4]) rt [.loadClasses [some 2]],
        ∀ c ∈ [0, 2, 4], rt'.Loaded c) ∧
      rt.Loaded 0 ∧ rt.Loaded 4 ∧ (rt.classes 0).isMetaclass = false ∧ (rt.classes 4).isMetaclass = false ∧
      0 ∈ rt.ancestors 4 ∧ 0 < rt.nextClass ∧ 4 ∉ flushOrder rt 0 := by decide +kernel
  obtain ⟨rt, run, later, root, bottom, rootKind, bottomKind, above, below, missed⟩ := exists_reachable_of_replay ran
  obtain ⟨rt', run', all⟩ := exists_reachable_of_replay later
  exact ⟨rt, rt', run, run', all, root, bottom, rootKind, bottomKind, above,
    (compiledTriple_static.forestInv_of_run run).flush_ends below, missed⟩

end O3jc
