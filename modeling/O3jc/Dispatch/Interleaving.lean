import O3jc.Dispatch.Transparency
import Mathlib.Data.Fintype.Basic

/-
This file takes `objc_msg_lookup`, `class_replace_method` and `class_add_method` apart into the steps that
threads interleave.
-/

namespace O3jc

open Library

/-- Where a thread stands. A thread that is to publish an IMP remembers whether a write has overtaken its walk. -/
inductive Phase where
  | idle
  | reading (cls : ClassPtr) (sel : SEL)
  | missed (cls : ClassPtr) (sel : SEL)
  | publishing (cls : ClassPtr) (sel : SEL) (imp : IMP) (overtaken : Bool)
  | returned (cls : ClassPtr) (sel : SEL) (result : Option IMP)
  | flushing (remaining : List ClassPtr)
  deriving DecidableEq

/-- The next step of a thread. A mutator searches and writes in one step and then flushes class by class. -/
inductive ThreadOp where
  | msgLookup (receiver : ObjcPtr) (sel : SEL)
  | cacheLookup
  | lookupMethod
  | cacheInsert
  | replaceMethod (cls : ClassPtr) (sel : SEL) (imp : IMP) (types : Option CStrPtr)
  | addMethod (cls : ClassPtr) (sel : SEL) (imp : IMP) (types : Option CStrPtr)
  | flushCache
  | finish
  deriving DecidableEq

/-- The runtime and the phase of each thread. -/
structure System (Tid : Type) where
  rt : Runtime
  phase : Tid → Phase

/-- The write of `class_replace_method` on a registered class, without the flush. -/
def replaceWrite (rt : Runtime) (cls : ClassPtr) (sel : SEL) (imp : IMP) (types : Option CStrPtr) : Runtime :=
  match findMethodInChain rt (rt.classes cls).methodList.head sel with
  | some method => rt.writeImp method imp
  | none => rt.prependMethod cls ⟨imp, sel, types⟩

/-- The prepend of `class_add_method` on a registered class, without the flush. -/
def addWrite (rt : Runtime) (cls : ClassPtr) (sel : SEL) (imp : IMP) (types : Option CStrPtr) : Option Runtime :=
  if methodExistsInChain rt (rt.classes cls).methodList.head sel then none
  else some (rt.prependMethod cls ⟨imp, sel, types⟩)

/-- A write decides anew for every IMP that waits for its insertion whether the walk still gives it. -/
def Phase.afterWrite (rt : Runtime) (cls : ClassPtr) (sel : SEL) (imp : IMP) : Phase → Phase
  | .publishing target s found overtaken =>
      .publishing target s found
        (if selEq rt sel s = true ∧ rt.Reaches target cls s then imp != found else overtaken)
  | phase => phase

/-- A write changes the mark of an IMP to publish and no other phase. -/
theorem Phase.publishing_of_afterWrite {rt : Runtime} {cls target : ClassPtr} {sel s : SEL} {imp found : IMP}
    {overtaken : Bool} {phase : Phase}
    (isPublishing : phase.afterWrite rt cls sel imp = .publishing target s found overtaken) :
    ∃ before, phase = .publishing target s found before ∧
      overtaken = if selEq rt sel s = true ∧ rt.Reaches target cls s then imp != found else before := by
  cases phase with
  | publishing named wanted old before =>
      obtain ⟨rfl, rfl, rfl, rfl⟩ := Phase.publishing.inj isPublishing
      exact ⟨before, rfl, rfl⟩
  | _ => simp [Phase.afterWrite] at isPublishing

theorem Phase.returned_of_afterWrite {rt : Runtime} {cls target : ClassPtr} {sel s : SEL} {imp : IMP}
    {result : Option IMP} {phase : Phase}
    (isReturned : phase.afterWrite rt cls sel imp = .returned target s result) :
    phase = .returned target s result := by
  cases phase with
  | publishing named wanted old before => simp [Phase.afterWrite] at isReturned
  | _ => exact isReturned

section Steps

variable {Tid : Type} [DecidableEq Tid]

def System.start (rt : Runtime) : System Tid := ⟨rt, fun _ => .idle⟩

def System.enter (sys : System Tid) (thread : Tid) (phase : Phase) : System Tid :=
  { sys with phase := Function.update sys.phase thread phase }

@[simp] theorem System.enter_rt (sys : System Tid) (thread : Tid) (phase : Phase) :
    (sys.enter thread phase).rt = sys.rt := rfl

@[simp] theorem System.enter_phase (sys : System Tid) (thread : Tid) (phase : Phase) :
    (sys.enter thread phase).phase = Function.update sys.phase thread phase := rfl

/-- A write by a thread opens its flush of the tree below the class. -/
def System.write (sys : System Tid) (thread : Tid) (written : Runtime) (cls : ClassPtr) (sel : SEL) (imp : IMP) :
    System Tid :=
  { rt := written
    phase := Function.update (fun other => (sys.phase other).afterWrite sys.rt cls sel imp) thread
      (.flushing (flushOrder sys.rt cls)) }

theorem System.write_self (sys : System Tid) (thread : Tid) (written : Runtime) (cls : ClassPtr) (sel : SEL)
    (imp : IMP) : (sys.write thread written cls sel imp).phase thread = .flushing (flushOrder sys.rt cls) := by
  simp only [System.write, Function.update_self]

/-- One atomic step of one thread. -/
def System.step (sys : System Tid) (label : Tid × ThreadOp) : Option (System Tid) :=
  let (thread, op) := label
  match op, sys.phase thread with
  | .msgLookup receiver sel, .idle => (sys.rt.isaOf receiver).map fun cls => sys.enter thread (.reading cls sel)
  | .cacheLookup, .reading cls sel =>
      match sys.rt.cacheLookup cls sel with
      | some imp => some (sys.enter thread (.returned cls sel (some imp)))
      | none => some (sys.enter thread (.missed cls sel))
  | .lookupMethod, .missed cls sel =>
      match classLookupMethod sys.rt cls sel with
      | some imp => some (sys.enter thread (.publishing cls sel imp false))
      | none => some (sys.enter thread (.returned cls sel none))
  | .cacheInsert, .publishing cls sel imp _ =>
      some ({ sys with rt := sys.rt.cacheInsert cls sel imp }.enter thread (.returned cls sel (some imp)))
  | .replaceMethod cls sel imp types, .idle =>
      some (sys.write thread (replaceWrite sys.rt cls sel imp types) cls sel imp)
  | .addMethod cls sel imp types, .idle =>
      match addWrite sys.rt cls sel imp types with
      | some written => some (sys.write thread written cls sel imp)
      | none => some (sys.enter thread (.flushing []))
  | .flushCache, .flushing (cls :: remaining) =>
      some ({ sys with rt := sys.rt.flushCache cls }.enter thread (.flushing remaining))
  | .finish, .flushing [] => some (sys.enter thread .idle)
  | .finish, .returned _ _ _ => some (sys.enter thread .idle)
  | _, _ => none

/-- What one step of a thread does. -/
inductive System.Effect (sys : System Tid) (thread : Tid) : ThreadOp → System Tid → Prop
  | load {receiver : ObjcPtr} {sel : SEL} {cls : ClassPtr} (phase : sys.phase thread = .idle)
      (isa : sys.rt.isaOf receiver = some cls) :
      Effect sys thread (.msgLookup receiver sel) (sys.enter thread (.reading cls sel))
  | hit {cls : ClassPtr} {sel : SEL} {imp : IMP} (phase : sys.phase thread = .reading cls sel)
      (cached : sys.rt.cacheLookup cls sel = some imp) :
      Effect sys thread .cacheLookup (sys.enter thread (.returned cls sel (some imp)))
  | miss {cls : ClassPtr} {sel : SEL} (phase : sys.phase thread = .reading cls sel)
      (uncached : sys.rt.cacheLookup cls sel = none) :
      Effect sys thread .cacheLookup (sys.enter thread (.missed cls sel))
  | found {cls : ClassPtr} {sel : SEL} {imp : IMP} (phase : sys.phase thread = .missed cls sel)
      (walk : classLookupMethod sys.rt cls sel = some imp) :
      Effect sys thread .lookupMethod (sys.enter thread (.publishing cls sel imp false))
  | notFound {cls : ClassPtr} {sel : SEL} (phase : sys.phase thread = .missed cls sel)
      (walk : classLookupMethod sys.rt cls sel = none) :
      Effect sys thread .lookupMethod (sys.enter thread (.returned cls sel none))
  | insert {cls : ClassPtr} {sel : SEL} {imp : IMP} {overtaken : Bool}
      (phase : sys.phase thread = .publishing cls sel imp overtaken) :
      Effect sys thread .cacheInsert
        ({ sys with rt := sys.rt.cacheInsert cls sel imp }.enter thread (.returned cls sel (some imp)))
  | replace {cls : ClassPtr} {sel : SEL} {imp : IMP} {types : Option CStrPtr} (phase : sys.phase thread = .idle) :
      Effect sys thread (.replaceMethod cls sel imp types)
        (sys.write thread (replaceWrite sys.rt cls sel imp types) cls sel imp)
  | add {cls : ClassPtr} {sel : SEL} {imp : IMP} {types : Option CStrPtr} {written : Runtime}
      (phase : sys.phase thread = .idle) (added : addWrite sys.rt cls sel imp types = some written) :
      Effect sys thread (.addMethod cls sel imp types) (sys.write thread written cls sel imp)
  | reject {cls : ClassPtr} {sel : SEL} {imp : IMP} {types : Option CStrPtr} (phase : sys.phase thread = .idle)
      (rejected : addWrite sys.rt cls sel imp types = none) :
      Effect sys thread (.addMethod cls sel imp types) (sys.enter thread (.flushing []))
  | flush {cls : ClassPtr} {remaining : List ClassPtr} (phase : sys.phase thread = .flushing (cls :: remaining)) :
      Effect sys thread .flushCache
        ({ sys with rt := sys.rt.flushCache cls }.enter thread (.flushing remaining))
  | finishFlush (phase : sys.phase thread = .flushing []) : Effect sys thread .finish (sys.enter thread .idle)
  | finishLookup {cls : ClassPtr} {sel : SEL} {result : Option IMP}
      (phase : sys.phase thread = .returned cls sel result) : Effect sys thread .finish (sys.enter thread .idle)

theorem System.step_effect {sys next : System Tid} {thread : Tid} {op : ThreadOp}
    (result : sys.step (thread, op) = some next) : sys.Effect thread op next := by
  unfold System.step at result
  dsimp only at result
  split at result
  · obtain ⟨cls, isa, rfl⟩ := Option.map_eq_some_iff.mp result
    exact .load ‹_› isa
  · split at result
    · obtain rfl := Option.some.inj result
      exact .hit ‹_› ‹_›
    · obtain rfl := Option.some.inj result
      exact .miss ‹_› ‹_›
  · split at result
    · obtain rfl := Option.some.inj result
      exact .found ‹_› ‹_›
    · obtain rfl := Option.some.inj result
      exact .notFound ‹_› ‹_›
  · obtain rfl := Option.some.inj result
    exact .insert ‹_›
  · obtain rfl := Option.some.inj result
    exact .replace ‹_›
  · split at result
    · obtain rfl := Option.some.inj result
      exact .add ‹_› ‹_›
    · obtain rfl := Option.some.inj result
      exact .reject ‹_› ‹_›
  · obtain rfl := Option.some.inj result
    exact .flush ‹_›
  · obtain rfl := Option.some.inj result
    exact .finishFlush ‹_›
  · obtain rfl := Option.some.inj result
    exact .finishLookup ‹_›
  · exact absurd result (by simp)

end Steps

section Writes

variable {rt : Runtime} (inv : ChainInv rt) (cls : ClassPtr) (sel : SEL) (imp : IMP) (types : Option CStrPtr)

include inv

theorem replaceWrite_binds : Binds rt (replaceWrite rt cls sel imp types) cls sel imp [] := by
  unfold replaceWrite
  cases found : rt.findMethod cls sel with
  | some method =>
      have found' : findMethodInChain rt (rt.classes cls).methodList.head sel = some method := found
      rw [found']
      exact writeImp_binds inv cls sel imp found
  | none =>
      have found' : findMethodInChain rt (rt.classes cls).methodList.head sel = none := found
      rw [found']
      exact prependMethod_binds inv cls sel imp types (findMethod_eq_none_iff.mp found)

theorem addWrite_binds {written : Runtime} (added : addWrite rt cls sel imp types = some written) :
    Binds rt written cls sel imp [] := by
  unfold addWrite at added
  split at added
  · exact absurd added (by simp)
  · rename_i absent
    obtain rfl := Option.some.inj added
    rw [methodExists_eq, Bool.not_eq_true, Option.isSome_eq_false_iff, Option.isNone_iff_eq_none] at absent
    exact prependMethod_binds inv cls sel imp types absent

omit inv in
/-- The write of either mutator keeps the class graph and the caches. -/
theorem replaceWrite_frame : SameGraph rt (replaceWrite rt cls sel imp types) ∧
    SameCaches rt (replaceWrite rt cls sel imp types) := by
  unfold replaceWrite
  split
  · exact ⟨writeImp_sameGraph _ imp, writeImp_sameCaches _ imp⟩
  · exact ⟨prependMethod_sameGraph cls _, prependMethod_sameCaches cls _⟩

omit inv in
theorem addWrite_frame {written : Runtime} (added : addWrite rt cls sel imp types = some written) :
    SameGraph rt written ∧ SameCaches rt written := by
  unfold addWrite at added
  split at added
  · exact absurd added (by simp)
  · obtain rfl := Option.some.inj added
    exact ⟨prependMethod_sameGraph cls _, prependMethod_sameCaches cls _⟩

/-- The write and the flushes of one call in a row are `class_replace_method`. -/
theorem classReplaceMethod_eq_write (registered : (rt.classes cls).isRegistered = true) :
    (classReplaceMethod rt cls sel imp types).1 =
      (flushOrder rt cls).foldl Runtime.flushCache (replaceWrite rt cls sel imp types) := by
  have graph := (replaceWrite_binds inv cls sel imp types).graph
  rw [← graph.flushOrder, ← flushClassCacheTree_eq]
  unfold classReplaceMethod replaceWrite
  cases found : findMethodInChain rt (rt.classes cls).methodList.head sel with
  | some method => rfl
  | none =>
      have absent : rt.findMethod cls sel = none := found
      have unbound := findMethod_eq_none_iff.mp absent
      simp [classAddMethod, methodExists_eq, unbound, registered]

theorem classAddMethod_eq_write (registered : (rt.classes cls).isRegistered = true) :
    classAddMethod rt cls sel imp types = match addWrite rt cls sel imp types with
      | some written => ((flushOrder rt cls).foldl Runtime.flushCache written, true)
      | none => (rt, false) := by
  cases added : addWrite rt cls sel imp types with
  | some written =>
      have graph := (addWrite_binds inv cls sel imp types added).graph
      dsimp only
      rw [← graph.flushOrder, ← flushClassCacheTree_eq]
      unfold addWrite at added
      split at added
      · exact absurd added (by simp)
      · rename_i absent
        obtain rfl := Option.some.inj added
        rw [classAddMethod, if_neg absent, if_pos registered]
  | none =>
      unfold addWrite at added
      split at added
      · rename_i present
        rw [classAddMethod, if_pos present]
      · exact absurd added (by simp)

end Writes

section Threads

variable {Tid : Type} [DecidableEq Tid]

/-- The classes that the call of the thread is still to flush. -/
def Phase.remaining : Phase → List ClassPtr
  | .flushing remaining => remaining
  | _ => []

/-- Whether the thread is in a lookup that has no answer yet. -/
def Phase.inLookup : Phase → Bool
  | .reading _ _ => true
  | .missed _ _ => true
  | .publishing _ _ _ _ => true
  | _ => false

/-- Some call in progress is still to flush the class. -/
def FlushPending (phase : Tid → Phase) (cls : ClassPtr) : Prop :=
  ∃ thread remaining, phase thread = .flushing remaining ∧ cls ∈ remaining

/-- Threads message instances of registered classes and change the methods of registered classes. -/
def System.Permitted (sys : System Tid) (label : Tid × ThreadOp) : Prop :=
  match label.2 with
  | .msgLookup receiver _ => ∀ c ∈ sys.rt.isaOf receiver, (sys.rt.classes c).isRegistered = true
  | .replaceMethod cls _ _ _ => (sys.rt.classes cls).isRegistered = true
  | .addMethod cls _ _ _ => (sys.rt.classes cls).isRegistered = true
  | _ => True

instance (sys : System Tid) (label : Tid × ThreadOp) : Decidable (sys.Permitted label) := by
  unfold System.Permitted
  split <;> infer_instance

instance [Fintype Tid] (phase : Tid → Phase) (cls : ClassPtr) : Decidable (FlushPending phase cls) :=
  decidable_of_iff (∃ thread, cls ∈ (phase thread).remaining) (exists_congr fun thread => by
    cases phase thread <;> simp [Phase.remaining])

/-- Every cached IMP of the class is current or about to be flushed. -/
def System.Repaired (sys : System Tid) (cls : ClassPtr) : Prop :=
  ∀ sel imp, sys.rt.cacheLookup cls sel = some imp →
    classLookupMethod sys.rt cls sel = some imp ∨ FlushPending sys.phase cls

/-- An overtaken IMP is inserted only where the cache holds the selector or is still to be flushed. -/
def System.InsertsCurrent (sys : System Tid) (label : Tid × ThreadOp) : Prop :=
  match label.2, sys.phase label.1 with
  | .cacheInsert, .publishing cls sel _ overtaken =>
      overtaken = false ∨ (sys.rt.cacheLookup cls sel).isSome = true ∨ FlushPending sys.phase cls
  | _, _ => True

instance [Fintype Tid] (sys : System Tid) (label : Tid × ThreadOp) : Decidable (sys.InsertsCurrent label) := by
  unfold System.InsertsCurrent
  split <;> infer_instance

/-- The caches are repaired, and an IMP to publish is current exactly when no write has overtaken it. -/
structure SystemInv (image : List ClassPtr) (sys : System Tid) : Prop where
  closed : ClosedWorld image sys.rt
  cached : ∀ cls, (sys.rt.classes cls).isRegistered = true → sys.Repaired cls
  publishing : ∀ thread cls sel imp overtaken, sys.phase thread = .publishing cls sel imp overtaken →
    (overtaken = false ↔ classLookupMethod sys.rt cls sel = some imp)

/-- No step changes the class graph. -/
theorem System.step_sameGraph {sys next : System Tid} {label : Tid × ThreadOp}
    (result : sys.step label = some next) : SameGraph sys.rt next.rt := by
  obtain ⟨thread, op⟩ := label
  cases System.step_effect result with
  | insert phase => exact cacheInsert_sameGraph sys.rt _ _ _
  | replace phase => exact (replaceWrite_frame _ _ _ _).1
  | add phase added => exact (addWrite_frame _ _ _ _ added).1
  | flush phase => exact flushCache_sameGraph sys.rt _
  | _ => exact .refl sys.rt

theorem System.run_sameGraph {permitted : System Tid → Tid × ThreadOp → Prop} {sys state : System Tid}
    (run : Reachable System.step permitted sys state) : SameGraph sys.rt state.rt :=
  run.invariant (fun state => SameGraph sys.rt state.rt) (.refl sys.rt)
    fun _ _ _ before _ result => before.trans (System.step_sameGraph result)

/-- A pending flush stays pending when another thread or another class moves on. -/
theorem FlushPending.enter {phase : Tid → Phase} {cls : ClassPtr} (pending : FlushPending phase cls) {thread : Tid}
    {entered : Phase} (closed : ∀ remaining, phase thread = .flushing remaining → cls ∈ remaining →
      ∃ later, entered = .flushing later ∧ cls ∈ later) :
    FlushPending (Function.update phase thread entered) cls := by
  obtain ⟨other, remaining, isFlushing, member⟩ := pending
  by_cases same : other = thread
  · subst same
    obtain ⟨later, isEntered, inside⟩ := closed remaining isFlushing member
    exact ⟨other, later, by rw [Function.update_self, isEntered], inside⟩
  · exact ⟨other, remaining, by rw [Function.update_of_ne same, isFlushing], member⟩

section Invariant

variable {image : List ClassPtr} {sys : System Tid} (inv : SystemInv image sys) {thread : Tid}

include inv

/-- A step that keeps the methods keeps the invariant if it accounts for the caches and for its own phase. -/
theorem SystemInv.of_enter {rt : Runtime} {entered : Phase} (graph : SameGraph sys.rt rt)
    (methods : SameMethods sys.rt rt)
    (cached : ∀ cls, (sys.rt.classes cls).isRegistered = true → ∀ sel imp, rt.cacheLookup cls sel = some imp →
      classLookupMethod sys.rt cls sel = some imp ∨ FlushPending (Function.update sys.phase thread entered) cls)
    (publishing : ∀ cls sel imp overtaken, entered = .publishing cls sel imp overtaken →
      (overtaken = false ↔ classLookupMethod sys.rt cls sel = some imp)) :
    SystemInv image ({ sys with rt := rt }.enter thread entered) where
  closed := inv.closed.of_same graph (inv.closed.world.of_same graph methods)
  cached cls registered sel imp hit := by
    rw [System.enter_rt] at registered hit ⊢
    rw [classLookupMethod_of_same graph methods]
    rw [graph.isRegistered] at registered
    exact cached cls registered sel imp hit
  publishing other cls sel imp overtaken isPublishing := by
    rw [System.enter_rt, classLookupMethod_of_same graph methods]
    rw [System.enter_phase] at isPublishing
    by_cases same : other = thread
    · subst same
      rw [Function.update_self] at isPublishing
      exact publishing cls sel imp overtaken isPublishing
    · rw [Function.update_of_ne same] at isPublishing
      exact inv.publishing other cls sel imp overtaken isPublishing

/-- A step that changes the phase of its thread only. -/
theorem SystemInv.of_move {entered : Phase}
    (closes : ∀ remaining, sys.phase thread = .flushing remaining → remaining = [])
    (publishing : ∀ cls sel imp overtaken, entered = .publishing cls sel imp overtaken →
      (overtaken = false ↔ classLookupMethod sys.rt cls sel = some imp)) :
    SystemInv image (sys.enter thread entered) := by
  refine inv.of_enter (.refl sys.rt) (.refl sys.rt) (fun cls registered sel imp hit => ?_) publishing
  refine (inv.cached cls registered sel imp hit).imp_right fun pending =>
    pending.enter fun remaining isFlushing member => ?_
  rw [closes remaining isFlushing] at member
  exact absurd member (by simp)

/-- A write leaves behind only IMPs that its own flush is going to drop. -/
theorem SystemInv.of_write {written : Runtime} {cls : ClassPtr} {sel : SEL} {imp : IMP}
    (idle : sys.phase thread = .idle) (registered : (sys.rt.classes cls).isRegistered = true)
    (binds : Binds sys.rt written cls sel imp []) : SystemInv image (sys.write thread written cls sel imp) where
  closed := inv.closed.of_same binds.graph
    (inv.closed.world.of_binds (inv.closed.world.graph.registeredClass cls registered).2 binds)
  cached c cRegistered s i hit := by
    simp only [System.write] at cRegistered hit ⊢
    rw [binds.graph.isRegistered] at cRegistered
    rw [binds.cacheLookup (by simp)] at hit
    rw [binds.lookup]
    split
    · rename_i both
      exact .inr ⟨thread, flushOrder sys.rt cls, Function.update_self ..,
        inv.closed.mem_flushOrder cRegistered both.2.mem⟩
    · refine (inv.cached c cRegistered s i hit).imp_right fun pending => ?_
      obtain ⟨other, remaining, isFlushing, member⟩ := pending
      have different : other ≠ thread := by
        rintro rfl
        rw [idle] at isFlushing
        exact absurd isFlushing (by simp)
      exact ⟨other, remaining, by rw [Function.update_of_ne different, isFlushing]; rfl, member⟩
  publishing other c s i overtaken isPublishing := by
    simp only [System.write] at isPublishing ⊢
    have different : other ≠ thread := by
      rintro rfl
      rw [Function.update_self] at isPublishing
      exact absurd isPublishing (by simp)
    rw [Function.update_of_ne different] at isPublishing
    obtain ⟨before, isBefore, rfl⟩ := Phase.publishing_of_afterWrite isPublishing
    rw [binds.lookup]
    split
    · simp
    · exact inv.publishing other c s i before isBefore

/-- Every permitted step that meets the condition keeps the invariant. -/
theorem SystemInv.step {next : System Tid} {op : ThreadOp} (allowed : sys.Permitted (thread, op))
    (condition : sys.InsertsCurrent (thread, op)) (result : sys.step (thread, op) = some next) :
    SystemInv image next := by
  cases System.step_effect result with
  | load phase isa => exact inv.of_move (by simp [phase]) (by simp)
  | hit phase cached => exact inv.of_move (by simp [phase]) (by simp)
  | miss phase uncached => exact inv.of_move (by simp [phase]) (by simp)
  | found phase walk =>
      refine inv.of_move (by simp [phase]) fun cls sel imp overtaken entered => ?_
      obtain ⟨rfl, rfl, rfl, rfl⟩ := Phase.publishing.inj entered
      simp [walk]
  | notFound phase walk => exact inv.of_move (by simp [phase]) (by simp)
  | @insert cls sel imp overtaken phase =>
      refine inv.of_enter (cacheInsert_sameGraph sys.rt cls sel imp) (cacheInsert_sameMethods sys.rt cls sel imp)
        (fun c registered s i hit => ?_) (by simp)
      have pendingKept : FlushPending sys.phase c →
          FlushPending (Function.update sys.phase thread (.returned cls sel (some imp))) c :=
        fun pending => pending.enter (by simp [phase])
      rcases cacheLookup_cacheInsert hit with old | ⟨rfl, eq, rfl⟩
      · exact (inv.cached c registered s i old).imp_right pendingKept
      · rcases (show _ ∨ _ ∨ _ by simpa only [System.InsertsCurrent, phase] using condition) with
          current | present | pending
        · left
          rw [← classLookupMethod_congr eq]
          exact (inv.publishing thread c sel i overtaken phase).mp current
        · rw [cacheLookup_of_same (cacheInsert_sameGraph sys.rt c sel i) (cacheInsert_of_present present i c)] at hit
          exact (inv.cached c registered s i hit).imp_right pendingKept
        · exact .inr (pendingKept pending)
  | replace phase => exact inv.of_write phase allowed (replaceWrite_binds inv.closed.world.chain _ _ _ _)
  | add phase added => exact inv.of_write phase allowed (addWrite_binds inv.closed.world.chain _ _ _ _ added)
  | reject phase rejected => exact inv.of_move (by simp [phase]) (by simp)
  | @flush cls remaining phase =>
      refine inv.of_enter (flushCache_sameGraph sys.rt cls) (flushCache_sameMethods sys.rt cls)
        (fun c registered s i hit => ?_) (by simp)
      by_cases same : c = cls
      · subst same
        rw [cacheLookup_of_flushed sys.rt (by rw [Runtime.flushCache, Runtime.modifyClass_classes_self])] at hit
        exact absurd hit (by simp)
      · rw [cacheLookup_of_same (flushCache_sameGraph sys.rt cls)
          (by rw [Runtime.flushCache, Runtime.modifyClass_classes_of_ne _ _ _ same])] at hit
        refine (inv.cached c registered s i hit).imp_right fun pending =>
          pending.enter fun before isFlushing member => ?_
        obtain rfl : cls :: remaining = before := Phase.flushing.inj (phase.symm.trans isFlushing)
        exact ⟨remaining, rfl, (List.mem_cons.mp member).resolve_left same⟩
  | finishFlush phase => exact inv.of_move (by simp [phase]) (by simp)
  | finishLookup phase => exact inv.of_move (by simp [phase]) (by simp)

end Invariant

section Alone

variable (sys : System Tid) (thread : Tid)

/-- The steps of one thread. -/
def OnlyThread (thread : Tid) (_ : System Tid) (label : Tid × ThreadOp) : Prop := label.1 = thread

omit thread in
theorem System.alone {sys next : System Tid} {thread : Tid} {op : ThreadOp}
    (result : sys.step (thread, op) = some next) : Reachable System.step (OnlyThread thread) sys next :=
  .single (show OnlyThread thread sys (thread, op) from rfl) result

/-- The remaining flushes of a call in a row. -/
theorem System.flush_alone {remaining : List ClassPtr} (phase : sys.phase thread = .flushing remaining) :
    Reachable System.step (OnlyThread thread) sys
      ({ sys with rt := remaining.foldl Runtime.flushCache sys.rt }.enter thread (.flushing [])) := by
  induction remaining generalizing sys with
  | nil =>
      have same : sys.enter thread (.flushing []) = sys := by
        rw [System.enter, ← phase, Function.update_eq_self]
      rw [List.foldl_nil, same]
      exact .refl
  | cons cls rest ih =>
      have first : sys.step (thread, .flushCache) =
          some ({ sys with rt := sys.rt.flushCache cls }.enter thread (.flushing rest)) := by
        simp only [System.step, phase]
      refine .trans (alone first) ?_
      have later := ih ({ sys with rt := sys.rt.flushCache cls }.enter thread (.flushing rest)) (by simp)
      simpa [System.enter] using later

/-- A lookup whose steps no other thread interrupts is `objc_msg_lookup`. -/
theorem System.msgLookup_alone (idle : sys.phase thread = .idle) {receiver : ObjcPtr} {cls : ClassPtr}
    (isa : sys.rt.isaOf receiver = some cls) (sel : SEL) :
    Reachable System.step (OnlyThread thread) sys
      ({ sys with rt := (objcMsgLookup sys.rt (some receiver) sel).1 }.enter thread
        (.returned cls sel (objcMsgLookup sys.rt (some receiver) sel).2)) := by
  have load : sys.step (thread, .msgLookup receiver sel) = some (sys.enter thread (.reading cls sel)) := by
    simp only [System.step, idle, isa, Option.map_some]
  refine .trans (alone load) ?_
  rw [objcMsgLookup, Option.bind_some, isa]
  dsimp only
  cases hit : sys.rt.cacheLookup cls sel with
  | some imp =>
      have read : (sys.enter thread (.reading cls sel)).step (thread, .cacheLookup) =
          some (sys.enter thread (.returned cls sel (some imp))) := by simp [System.step, hit, System.enter]
      exact alone read
  | none =>
      have read : (sys.enter thread (.reading cls sel)).step (thread, .cacheLookup) =
          some (sys.enter thread (.missed cls sel)) := by simp [System.step, hit, System.enter]
      refine .trans (alone read) ?_
      cases walk : classLookupMethod sys.rt cls sel with
      | none =>
          have walked : (sys.enter thread (.missed cls sel)).step (thread, .lookupMethod) =
              some (sys.enter thread (.returned cls sel none)) := by simp [System.step, walk, System.enter]
          exact alone walked
      | some imp =>
          have walked : (sys.enter thread (.missed cls sel)).step (thread, .lookupMethod) =
              some (sys.enter thread (.publishing cls sel imp false)) := by simp [System.step, walk, System.enter]
          have inserted : (sys.enter thread (.publishing cls sel imp false)).step (thread, .cacheInsert) =
              some ({ sys with rt := sys.rt.cacheInsert cls sel imp }.enter thread (.returned cls sel (some imp))) := by
            simp [System.step, System.enter]
          exact .trans (alone walked) (alone inserted)

/-- A mutation whose steps no other thread interrupts is `class_replace_method`. -/
theorem System.replaceMethod_alone (chain : ChainInv sys.rt) (idle : sys.phase thread = .idle) {cls : ClassPtr}
    (registered : (sys.rt.classes cls).isRegistered = true) (sel : SEL) (imp : IMP) (types : Option CStrPtr) :
    ∃ last, Reachable System.step (OnlyThread thread) sys last ∧ last.phase thread = .flushing [] ∧
      last.rt = (classReplaceMethod sys.rt cls sel imp types).1 := by
  have write : sys.step (thread, .replaceMethod cls sel imp types) =
      some (sys.write thread (replaceWrite sys.rt cls sel imp types) cls sel imp) := by
    simp only [System.step, idle]
  have flushes := System.flush_alone (sys.write thread (replaceWrite sys.rt cls sel imp types) cls sel imp) thread
    (System.write_self ..)
  refine ⟨_, .trans (alone write) flushes, by simp, ?_⟩
  rw [classReplaceMethod_eq_write chain cls sel imp types registered]
  rfl

/-- A mutation whose steps no other thread interrupts is `class_add_method`. -/
theorem System.addMethod_alone (chain : ChainInv sys.rt) (idle : sys.phase thread = .idle) {cls : ClassPtr}
    (registered : (sys.rt.classes cls).isRegistered = true) (sel : SEL) (imp : IMP) (types : Option CStrPtr) :
    ∃ last, Reachable System.step (OnlyThread thread) sys last ∧ last.phase thread = .flushing [] ∧
      last.rt = (classAddMethod sys.rt cls sel imp types).1 := by
  rw [classAddMethod_eq_write chain cls sel imp types registered]
  cases added : addWrite sys.rt cls sel imp types with
  | none =>
      have reject : sys.step (thread, .addMethod cls sel imp types) = some (sys.enter thread (.flushing [])) := by
        simp only [System.step, idle, added]
      exact ⟨_, alone reject, by simp, rfl⟩
  | some written =>
      have write : sys.step (thread, .addMethod cls sel imp types) = some (sys.write thread written cls sel imp) := by
        simp only [System.step, idle, added]
      have flushes := System.flush_alone (sys.write thread written cls sel imp) thread
        (System.write_self ..)
      exact ⟨_, .trans (alone write) flushes, by simp, rfl⟩

end Alone

/-- No call is still to flush the class, and no write has overtaken a lookup on it that is to publish its IMP. -/
structure System.Settled (sys : System Tid) (cls : ClassPtr) : Prop where
  registered : (sys.rt.classes cls).isRegistered = true
  flushed : ¬ FlushPending sys.phase cls
  finished : ∀ thread sel imp, sys.phase thread ≠ .publishing cls sel imp true

/-- In some state of a run between two states the walk gives this answer. -/
def System.Current (permitted : System Tid → Tid × ThreadOp → Prop) (sys state : System Tid) (cls : ClassPtr)
    (sel : SEL) (result : Option IMP) : Prop :=
  Within System.step permitted sys state fun middle => classLookupMethod middle.rt cls sel = result

/-- Every IMP of the class in a cache, in publication or in a later answer was current since the settled state. -/
structure SinceSettled (permitted : System Tid → Tid × ThreadOp → Prop) (sys : System Tid) (cls : ClassPtr)
    (lookup : Tid) (state : System Tid) : Prop where
  run : Reachable System.step permitted sys state
  cached : ∀ sel imp, state.rt.cacheLookup cls sel = some imp → sys.Current permitted state cls sel (some imp)
  publishing : ∀ thread sel imp overtaken, state.phase thread = .publishing cls sel imp overtaken →
    sys.Current permitted state cls sel (some imp)
  returned : ∀ sel result, state.phase lookup = .returned cls sel result → sys.Current permitted state cls sel result

section Settled

variable {image : List ClassPtr} {permitted : System Tid → Tid × ThreadOp → Prop} {sys state next : System Tid}
  {cls : ClassPtr} {lookup thread : Tid} {op : ThreadOp}

theorem System.Settled.since (settled : sys.Settled cls) (inv : SystemInv image sys)
    (idle : sys.phase lookup = .idle) : SinceSettled permitted sys cls lookup sys where
  run := .refl
  cached sel imp hit := by
    have repaired := inv.cached cls settled.registered sel imp hit
    exact .here .refl (repaired.resolve_right settled.flushed)
  publishing thread sel imp overtaken isPublishing := by
    refine .here .refl ((inv.publishing thread cls sel imp overtaken isPublishing).mp ?_)
    by_contra isOvertaken
    rw [Bool.not_eq_false] at isOvertaken
    exact settled.finished thread sel imp (isOvertaken ▸ isPublishing)
  returned sel result isReturned := by
    rw [idle] at isReturned
    exact absurd isReturned (by simp)

section Moves

variable (since : SinceSettled permitted sys cls lookup state) (allowed : permitted state (thread, op))
  (result : state.step (thread, op) = some next)

include since allowed result

/-- A step keeps what was current if it accounts for the cache, for its own phase and for the other phases. -/
theorem SinceSettled.of_step
    (cached : ∀ sel imp, next.rt.cacheLookup cls sel = some imp → state.rt.cacheLookup cls sel = some imp ∨
      sys.Current permitted state cls sel (some imp))
    (others : ∀ other, other ≠ thread → next.phase other = state.phase other ∨
      ∃ c s i, next.phase other = (state.phase other).afterWrite state.rt c s i)
    (publishing : ∀ sel imp overtaken, next.phase thread = .publishing cls sel imp overtaken →
      sys.Current permitted state cls sel (some imp))
    (returned : ∀ sel answer, next.phase thread = .returned cls sel answer →
      sys.Current permitted state cls sel answer) : SinceSettled permitted sys cls lookup next := by
  have later : ∀ {sel answer}, sys.Current permitted state cls sel answer →
      sys.Current permitted next cls sel answer := fun before => before.tail allowed result
  refine ⟨.tail since.run allowed result, fun sel imp hit => ?_, fun other sel imp overtaken isPublishing => ?_,
    fun sel answer isReturned => ?_⟩
  · rcases cached sel imp hit with old | new
    · exact later (since.cached sel imp old)
    · exact later new
  · by_cases same : other = thread
    · subst same
      exact later (publishing sel imp overtaken isPublishing)
    · rcases others other same with kept | ⟨c, s, i, kept⟩
      · exact later (since.publishing other sel imp overtaken (kept ▸ isPublishing))
      · obtain ⟨before, isBefore, _⟩ := Phase.publishing_of_afterWrite (kept ▸ isPublishing)
        exact later (since.publishing other sel imp before isBefore)
  · by_cases same : lookup = thread
    · subst same
      exact later (returned sel answer isReturned)
    · rcases others lookup same with kept | ⟨c, s, i, kept⟩
      · exact later (since.returned sel answer (kept ▸ isReturned))
      · exact later (since.returned sel answer (Phase.returned_of_afterWrite (kept ▸ isReturned)))

/-- A step within the phases of its own thread. -/
theorem SinceSettled.of_enter {rt : Runtime} {entered : Phase}
    (isNext : next = { state with rt := rt }.enter thread entered)
    (cached : ∀ sel imp, rt.cacheLookup cls sel = some imp → state.rt.cacheLookup cls sel = some imp ∨
      sys.Current permitted state cls sel (some imp))
    (publishing : ∀ sel imp overtaken, entered = .publishing cls sel imp overtaken →
      sys.Current permitted state cls sel (some imp))
    (returned : ∀ sel answer, entered = .returned cls sel answer → sys.Current permitted state cls sel answer) :
    SinceSettled permitted sys cls lookup next := by
  subst isNext
  refine since.of_step allowed result cached (fun other different => .inl (Function.update_of_ne different ..)) ?_ ?_
  · rw [System.enter_phase, Function.update_self]
    exact publishing
  · rw [System.enter_phase, Function.update_self]
    exact returned

/-- A write leaves every cache and every answer as it is. -/
theorem SinceSettled.of_write {written : Runtime} {target : ClassPtr} {sel : SEL} {imp : IMP}
    (isNext : next = state.write thread written target sel imp) (graph : SameGraph state.rt written)
    (caches : SameCaches state.rt written) : SinceSettled permitted sys cls lookup next := by
  subst isNext
  refine since.of_step allowed result (fun s i hit => .inl ?_)
    (fun other different => .inr ⟨target, sel, imp, ?_⟩) ?_ ?_
  · rw [← cacheLookup_of_same graph (caches cls)]
    exact hit
  · simp only [System.write, Function.update_of_ne different]
  · intro s i overtaken entered
    rw [System.write_self] at entered
    exact absurd entered (by simp)
  · intro s answer entered
    rw [System.write_self] at entered
    exact absurd entered (by simp)

omit allowed result in
/-- Every step keeps what was current since the settled state. -/
theorem SinceSettled.step (allowed : permitted state (thread, op)) (result : state.step (thread, op) = some next) :
    SinceSettled permitted sys cls lookup next := by
  have now : ∀ {sel answer}, classLookupMethod state.rt cls sel = answer →
      sys.Current permitted state cls sel answer := fun walk => .here since.run walk
  cases System.step_effect result with
  | load phase isa => exact since.of_enter allowed result rfl (fun _ _ => .inl) (by simp) (by simp)
  | hit phase cached =>
      refine since.of_enter allowed result rfl (fun _ _ => .inl) (by simp) fun sel answer entered => ?_
      obtain ⟨rfl, rfl, rfl⟩ := Phase.returned.inj entered
      exact since.cached _ _ cached
  | miss phase uncached => exact since.of_enter allowed result rfl (fun _ _ => .inl) (by simp) (by simp)
  | found phase walk =>
      refine since.of_enter allowed result rfl (fun _ _ => .inl) (fun sel imp overtaken entered => ?_) (by simp)
      obtain ⟨rfl, rfl, rfl, rfl⟩ := Phase.publishing.inj entered
      exact now walk
  | notFound phase walk =>
      refine since.of_enter allowed result rfl (fun _ _ => .inl) (by simp) fun sel answer entered => ?_
      obtain ⟨rfl, rfl, rfl⟩ := Phase.returned.inj entered
      exact now walk
  | insert phase =>
      refine since.of_enter allowed result rfl (fun s i hit => ?_) (by simp) fun sel answer entered => ?_
      · rcases cacheLookup_cacheInsert hit with old | ⟨rfl, eq, rfl⟩
        · exact .inl old
        · obtain ⟨middle, before, after, walk⟩ := since.publishing _ _ _ _ phase
          rw [← (System.run_sameGraph after).selEq.symm] at eq
          exact .inr ⟨middle, before, after, ((classLookupMethod_congr eq cls).symm.trans walk)⟩
      · obtain ⟨rfl, rfl, rfl⟩ := Phase.returned.inj entered
        exact since.publishing _ _ _ _ phase
  | replace phase =>
      obtain ⟨graph, caches⟩ := @replaceWrite_frame state.rt _ _ _ _
      exact since.of_write allowed result rfl graph caches
  | add phase added =>
      obtain ⟨graph, caches⟩ := addWrite_frame _ _ _ _ added
      exact since.of_write allowed result rfl graph caches
  | reject phase rejected => exact since.of_enter allowed result rfl (fun _ _ => .inl) (by simp) (by simp)
  | @flush target remaining phase =>
      refine since.of_enter allowed result rfl (fun s i hit => .inl ?_) (by simp) (by simp)
      by_cases same : cls = target
      · subst same
        rw [cacheLookup_of_flushed state.rt (by rw [Runtime.flushCache, Runtime.modifyClass_classes_self])] at hit
        exact absurd hit (by simp)
      · rwa [cacheLookup_of_same (flushCache_sameGraph state.rt target)
          (by rw [Runtime.flushCache, Runtime.modifyClass_classes_of_ne _ _ _ same])] at hit
  | finishFlush phase => exact since.of_enter allowed result rfl (fun _ _ => .inl) (by simp) (by simp)
  | finishLookup phase => exact since.of_enter allowed result rfl (fun _ _ => .inl) (by simp) (by simp)

end Moves

/-- No thread starts a mutation. -/
def System.Quiet (sys : System Tid) (label : Tid × ThreadOp) : Prop :=
  sys.Permitted label ∧
    match label.2 with
    | .replaceMethod _ _ _ _ => False
    | .addMethod _ _ _ _ => False
    | _ => True

instance (sys : System Tid) (label : Tid × ThreadOp) : Decidable (sys.Quiet label) := by
  unfold System.Quiet
  split <;> infer_instance

/-- No step before the next mutation makes an IMP to publish overtaken. -/
theorem quiet_not_overtaken (run : Reachable System.step System.Quiet sys state)
    (current : ∀ cls sel imp, sys.phase thread ≠ .publishing cls sel imp true) :
    ∀ cls sel imp, state.phase thread ≠ .publishing cls sel imp true := by
  refine run.invariant (fun state => ∀ cls sel imp, state.phase thread ≠ .publishing cls sel imp true) current ?_
  rintro state ⟨mover, op⟩ next before ⟨_, quiet⟩ result
  have entered : ∀ {rt : Runtime} {after : Phase}, next = { state with rt := rt }.enter mover after →
      (∀ cls sel imp, after ≠ .publishing cls sel imp true) →
      ∀ cls sel imp, next.phase thread ≠ .publishing cls sel imp true := by
    rintro rt after rfl differs
    rw [System.enter_phase]
    by_cases same : thread = mover
    · rw [same, Function.update_self]
      exact differs
    · rw [Function.update_of_ne same]
      exact before
  cases System.step_effect result with
  | replace phase => exact quiet.elim
  | add phase added => exact quiet.elim
  | _ => exact entered rfl (by simp)

/-- Since the first state a mutation has returned, no other one has started after its return, and every lookup that was
in progress at its return has its answer. -/
def System.AfterMutation (permitted : System Tid → Tid × ThreadOp → Prop) (first sys : System Tid) : Prop :=
  let quietly (state : System Tid) (label : Tid × ThreadOp) : Prop := permitted state label ∧ state.Quiet label
  ∃ before mutator returned, Reachable System.step permitted first before ∧
    permitted before (mutator, .finish) ∧ before.phase mutator = .flushing [] ∧
    before.step (mutator, .finish) = some returned ∧ Reachable System.step quietly returned sys ∧
    ∀ other, Within System.step quietly returned sys fun middle => (middle.phase other).inLookup = false

/-- After a mutation has returned, a registered class that no call in progress is still to flush is settled. -/
theorem System.AfterMutation.settled {first : System Tid} (window : first.AfterMutation permitted sys)
    (registered : (sys.rt.classes cls).isRegistered = true) (flushed : ¬ FlushPending sys.phase cls) :
    sys.Settled cls where
  registered := registered
  flushed := flushed
  finished thread := by
    obtain ⟨_, _, _, _, _, _, _, _, finished⟩ := window
    obtain ⟨middle, _, after, outside⟩ := finished thread
    refine quiet_not_overtaken (after.mono fun _ _ => And.right) (fun c s i isPublishing => ?_) cls
    rw [isPublishing] at outside
    exact absurd outside (by simp [Phase.inLookup])

/-- Every quiet step stays after the mutation. -/
theorem System.AfterMutation.tail {first : System Tid} (window : first.AfterMutation permitted sys)
    (allowed : permitted sys (thread, op)) (quiet : sys.Quiet (thread, op))
    (result : sys.step (thread, op) = some next) : first.AfterMutation permitted next := by
  obtain ⟨before, mutator, returned, run, finishes, flushed, finish, after, answered⟩ := window
  exact ⟨before, mutator, returned, run, finishes, flushed, finish, after.tail ⟨allowed, quiet⟩ result,
    fun other => (answered other).tail ⟨allowed, quiet⟩ result⟩

/-- A mutation returns while no lookup is in progress. -/
theorem System.AfterMutation.of_finish {first before : System Tid} (run : Reachable System.step permitted first before)
    (flushed : before.phase thread = .flushing []) (allowed : permitted before (thread, .finish))
    (answered : ∀ other, (before.phase other).inLookup = false)
    (after : Reachable System.step (fun state label => permitted state label ∧ state.Quiet label)
      (before.enter thread .idle) sys) : first.AfterMutation permitted sys := by
  have finish : before.step (thread, .finish) = some (before.enter thread .idle) := by
    simp only [System.step, flushed]
  refine ⟨before, thread, _, run, allowed, flushed, finish, after, fun other => ⟨_, .refl, after, ?_⟩⟩
  show ((before.enter thread .idle).phase other).inLookup = false
  rw [System.enter_phase]
  by_cases same : other = thread
  · rw [same, Function.update_self]
    rfl
  · rw [Function.update_of_ne same]
    exact answered other

theorem System.AfterMutation.mono {other : System Tid → Tid × ThreadOp → Prop} {first : System Tid}
    (window : first.AfterMutation permitted sys) (weaker : ∀ state label, permitted state label → other state label) :
    first.AfterMutation other sys := by
  obtain ⟨before, mutator, returned, run, allowed, flushed, result, after, finished⟩ := window
  have quiet {a b : System Tid} (run : Reachable System.step (fun s l => permitted s l ∧ s.Quiet l) a b) :
      Reachable System.step (fun s l => other s l ∧ s.Quiet l) a b := run.mono fun s l => And.imp_left (weaker s l)
  refine ⟨before, mutator, returned, run.mono weaker, weaker _ _ allowed, flushed, result, quiet after,
    fun thread => ?_⟩
  obtain ⟨middle, one, two, outside⟩ := finished thread
  exact ⟨middle, quiet one, quiet two, outside⟩

end Settled

/-- A lookup that starts in the state returns an IMP that the walk gives in some state until it returns, and before
the next mutation starts that is the IMP that the walk gives now. -/
def System.ServesCurrent (sys : System Tid) (cls : ClassPtr) : Prop :=
  ∀ thread, sys.phase thread = .idle → ∀ later sel result, later.phase thread = .returned cls sel result →
    (Reachable System.step System.Permitted sys later → sys.Current System.Permitted later cls sel result) ∧
    (Reachable System.step System.Quiet sys later → result = classLookupMethod sys.rt cls sel)

/-- Where lookups are served the current IMP, the cache of the class holds no other. -/
theorem System.ServesCurrent.cached {sys : System Tid} {thread : Tid} {cls : ClassPtr} {sel : SEL} {imp : IMP}
    (serves : sys.ServesCurrent cls) (idle : sys.phase thread = .idle)
    (registered : (sys.rt.classes cls).isRegistered = true) (hit : sys.rt.cacheLookup cls sel = some imp) :
    classLookupMethod sys.rt cls sel = some imp := by
  have load : sys.step (thread, .msgLookup (.object cls) sel) = some (sys.enter thread (.reading cls sel)) := by
    simp [System.step, idle, Runtime.isaOf]
  have read : (sys.enter thread (.reading cls sel)).step (thread, .cacheLookup) =
      some (sys.enter thread (.returned cls sel (some imp))) := by
    simp [System.step, hit, System.enter]
  have loads : sys.Quiet (thread, .msgLookup (.object cls) sel) := by
    refine ⟨fun c isa => ?_, trivial⟩
    obtain rfl : cls = c := Option.some.inj isa
    exact registered
  have reads : (sys.enter thread (.reading cls sel)).Quiet (thread, .cacheLookup) := ⟨trivial, trivial⟩
  have answered := serves thread idle (sys.enter thread (.returned cls sel (some imp))) sel (some imp) (by simp)
  exact (answered.2 (.tail (.single loads load) reads read)).symm

end Threads

/-- Two mutations overlap, every insertion meets the condition, and a lookup between the write of the one that has not
returned and its flush is served the replaced IMP. -/
theorem msgLookup_staleBeforeFlush : ∃ (rt : Runtime) (sys : System (Fin 3)),
    Reachable ClassOp.exec (ClassOp.InstanceSide []) Runtime.empty rt ∧ DistinctNames rt ∧
      (System.start rt).AfterMutation (fun sys label => sys.Permitted label ∧ sys.InsertsCurrent label) sys ∧
      (sys.rt.classes 1).isRegistered = true ∧ FlushPending sys.phase 1 ∧ ¬ sys.ServesCurrent 1 := by
  have ran : ∃ rt ∈ replay ClassOp.exec (ClassOp.InstanceSide []) Runtime.empty
      [.allocateClassPair none ⟨⟨#[65]⟩, by decide⟩, .addMethod 1 5 7 none, .registerClassPair 1],
      DistinctBelow rt ∧ ∃ before ∈ replay System.step (fun sys label => sys.Permitted label ∧ sys.InsertsCurrent label)
        (System.start rt : System (Fin 3))
        [(0, .replaceMethod 1 5 8 none), (0, .flushCache), (1, .msgLookup (.object 1) 5), (1, .cacheLookup),
          (1, .lookupMethod), (1, .cacheInsert), (1, .finish), (2, .replaceMethod 1 5 9 none)],
        before.phase 0 = .flushing [] ∧ (∀ thread, (before.phase thread).inLookup = false) ∧
          before.phase 2 = .flushing [1] ∧ (before.rt.classes 1).isRegistered = true ∧
            before.rt.cacheLookup 1 5 = some 8 ∧ classLookupMethod before.rt 1 5 = some 9 := by decide +kernel
  obtain ⟨rt, setup, below, before, first, flushed, answered, flushing, registered, hit, walk⟩ :=
    exists_reachable_of_replay ran
  have inv : InstanceInv [] rt := setup.invariant (InstanceInv []) Runtime.empty_static.instanceInv
    fun _ _ _ inv allowed result => inv.step allowed result
  refine ⟨rt, before.enter 0 .idle, setup, below.distinctNames inv.world.graph,
    .of_finish (reachable_of_replay first) flushed ⟨trivial, trivial⟩ answered .refl, registered,
    ⟨2, [1], by simp [flushing], by simp⟩, fun serves => ?_⟩
  have current := serves.cached (by simp : (before.enter 0 .idle).phase 0 = .idle) registered hit
  rw [System.enter_rt, walk] at current
  exact absurd current (by decide)

end O3jc
