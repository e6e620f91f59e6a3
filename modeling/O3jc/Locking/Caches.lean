import O3jc.Dispatch.Methods
import O3jc.Locking.Interning

/-
This file proves what the caches can answer while any number of threads look methods up, change them and flush.
-/

namespace O3jc

open Library

section Caches

variable {Obj Loc : Type}

/-- The selector with which user code asks for a method. -/
def UserChoice.sel : UserChoice Obj Loc → Option SEL
  | .call (.msgLookup _ sel) => some sel
  | _ => none

/-- In some of the states, the lookup without the cache finds this IMP. -/
def Given (past : Set (Shared Obj Loc)) (cls : ClassPtr) (sel : SEL) (imp : IMP) : Prop :=
  ∃ d ∈ past, classLookupMethod d.rt cls sel = some imp

theorem Given.mono {past more : Set (Shared Obj Loc)} {cls : ClassPtr} {sel : SEL} {imp : IMP}
    (given : Given past cls sel imp) (subset : past ⊆ more) : Given more cls sel imp := by
  obtain ⟨d, visited, found⟩ := given
  exact ⟨d, subset visited, found⟩

/-- A cache keeps to its capacity, names each selector at most once, and holds only what a lookup has found. -/
structure CacheSound (past : Set (Shared Obj Loc)) (rt : Runtime) (cls : ClassPtr) (inner : CacheInner) : Prop where
  bounded : inner.length ≤ cacheCapacity
  distinct : inner.Pairwise fun a b => selEq rt a.sel b.sel = false
  given : ∀ entry ∈ inner, entry.sel < rt.nextSelector ∧ Given past cls entry.sel entry.imp

def CachesSound (past : Set (Shared Obj Loc)) (rt : Runtime) : Prop :=
  ∀ cls, ∀ inner ∈ (rt.classes cls).dtable, CacheSound past rt cls inner

/-- What a thread knows of the IMP that its lookup is about to return or to cache. -/
def LockPoint.Answers (past : Set (Shared Obj Loc)) (rt : Runtime) : LockPoint Obj Loc → Prop
  | .msgLookup _ sel _ => sel < rt.nextSelector
  | .cacheRead _ sel _ => sel < rt.nextSelector
  | .cacheReading _ sel _ => sel < rt.nextSelector
  | .cacheAnswered cls sel cached _ => sel < rt.nextSelector ∧
      ∀ imp ∈ cached, ∃ s < rt.nextSelector, selEq rt s sel = true ∧ Given past cls s imp
  | .walk _ sel _ => sel < rt.nextSelector
  | .cacheFill cls sel imp _ => sel < rt.nextSelector ∧ Given past cls sel imp
  | .cacheFilling cls sel imp _ => sel < rt.nextSelector ∧ Given past cls sel imp
  | _ => True

variable {past more : Set (Shared Obj Loc)} {rt rt' : Runtime} {point : LockPoint Obj Loc}

/-- Selectors that exist compare later as they do now. -/
theorem KeepsSelectors.selEq (keeps : KeepsSelectors rt rt') {a b : SEL} (first : a < rt.nextSelector)
    (second : b < rt.nextSelector) : selEq rt' a b = selEq rt a b := by
  simp only [O3jc.selEq, selNamePtr, keeps.selectors a first, keeps.selectors b second]

/-- What a thread knows of its lookup survives every change of other threads. -/
theorem LockPoint.Answers.kept (known : point.Answers past rt) (subset : past ⊆ more) (keeps : KeepsSelectors rt rt') :
    point.Answers more rt' := by
  have next := keeps.nextSelector
  cases point with
  | msgLookup receiver sel caller => exact Nat.lt_of_lt_of_le known next
  | cacheRead cls sel caller => exact Nat.lt_of_lt_of_le known next
  | cacheReading cls sel caller => exact Nat.lt_of_lt_of_le known next
  | walk cls sel caller => exact Nat.lt_of_lt_of_le known next
  | cacheAnswered cls sel cached caller =>
      refine ⟨Nat.lt_of_lt_of_le known.1 next, fun imp isCached => ?_⟩
      obtain ⟨s, below, same, given⟩ := known.2 imp isCached
      exact ⟨s, Nat.lt_of_lt_of_le below next, (keeps.selEq below known.1).trans same, given.mono subset⟩
  | cacheFill cls sel imp caller => exact ⟨Nat.lt_of_lt_of_le known.1 next, known.2.mono subset⟩
  | cacheFilling cls sel imp caller => exact ⟨Nat.lt_of_lt_of_le known.1 next, known.2.mono subset⟩
  | _ => trivial

/-- A cache stays sound while the selectors are kept. -/
theorem CacheSound.kept {cls : ClassPtr} {inner : CacheInner} (sound : CacheSound past rt cls inner)
    (subset : past ⊆ more) (keeps : KeepsSelectors rt rt') : CacheSound more rt' cls inner where
  bounded := sound.bounded
  distinct := by
    refine sound.distinct.imp_of_mem fun {a b} first second differs => ?_
    rwa [keeps.selEq (sound.given a first).1 (sound.given b second).1]
  given entry member :=
    ⟨Nat.lt_of_lt_of_le (sound.given entry member).1 keeps.nextSelector, (sound.given entry member).2.mono subset⟩

theorem CachesSound.of_same (sound : CachesSound past rt) (keeps : KeepsSelectors rt rt')
    (same : SameCaches rt rt') : CachesSound past rt' := by
  intro cls inner isCache
  rw [same] at isCache
  exact (sound cls inner isCache).kept (Set.Subset.refl _) keeps

/-- An insertion keeps a cache sound when a lookup has found the IMP. -/
theorem CacheSound.insert {cls : ClassPtr} {inner : CacheInner} {sel : SEL} {imp : IMP}
    (sound : CacheSound past rt cls inner) (below : sel < rt.nextSelector) (given : Given past cls sel imp) :
    CacheSound past rt cls (CacheInner.insert rt inner sel imp) := by
  unfold CacheInner.insert
  split
  · exact sound
  · rename_i absent
    split
    · refine ⟨by simp [cacheCapacity], List.pairwise_singleton .., fun entry member => ?_⟩
      rw [List.mem_singleton.mp member]
      exact ⟨below, given⟩
    · rename_i room
      refine ⟨?_, ?_, fun entry member => ?_⟩
      · have := sound.bounded
        rw [List.length_append, List.length_singleton]
        omega
      · refine List.pairwise_append.mpr ⟨sound.distinct, List.pairwise_singleton .., fun a member b isNew => ?_⟩
        rw [List.mem_singleton.mp isNew]
        rw [Bool.not_eq_true, List.any_eq_false] at absent
        exact Bool.eq_false_iff.mpr (absent a member)
      · rcases List.mem_append.mp member with old | isNew
        · exact sound.given entry old
        · rw [List.mem_singleton.mp isNew]
          exact ⟨below, given⟩

/-- Every change keeps the caches sound. -/
theorem LockPoint.Changes.caches {base : Nat} (changes : point.Changes rt rt') (inv : SelInv base rt)
    (known : point.Interns rt) (answers : point.Answers past rt) (sound : CachesSound past rt) :
    CachesSound past rt' := by
  have keeps := (changes.keeps inv known).2
  cases changes with
  | nothing => exact sound
  | internName interned =>
      have memory := (internSelectorName_spec inv interned).2.2.1
      exact sound.of_same keeps fun cls => by rw [memory.classes]
  | enterSelector => exact sound.of_same keeps fun _ => rfl
  | @fillCache cls sel imp caller =>
      intro other inner isCache
      by_cases same : other = cls
      · subst same
        rw [Runtime.cacheInsert, Runtime.modifyClass_classes_self] at isCache
        obtain ⟨old, isOld, rfl⟩ := Option.map_eq_some_iff.mp isCache
        exact ((sound other old isOld).insert answers.1 answers.2).kept (Set.Subset.refl _) keeps
      · rw [Runtime.cacheInsert, Runtime.modifyClass_classes_of_ne rt cls _ same] at isCache
        exact (sound other inner isCache).kept (Set.Subset.refl _) keeps
  | @emptyCache cls pending sweep answer =>
      intro other inner isCache
      by_cases same : other = cls
      · subst same
        rw [Runtime.flushCache, Runtime.modifyClass_classes_self] at isCache
        obtain ⟨old, _, rfl⟩ := Option.map_eq_some_iff.mp isCache
        exact ⟨Nat.zero_le _, List.Pairwise.nil, fun entry member => absurd member List.not_mem_nil⟩
      · rw [Runtime.flushCache, Runtime.modifyClass_classes_of_ne rt cls _ same] at isCache
        exact (sound other inner isCache).kept (Set.Subset.refl _) keeps
  | replaceImp found => exact sound.of_same keeps fun _ => rfl
  | prependNode => exact sound.of_same keeps (prependMethod_sameCaches _ _)
  | pushEntry => exact sound.of_same keeps (pushMethod_sameCaches _ _)
  | swapImps swapped =>
      simp only [swapImplementations, Option.bind_eq_bind, Option.bind_eq_some_iff, Option.some.injEq] at swapped
      obtain ⟨_, _, _, _, rfl⟩ := swapped
      exact sound.of_same keeps fun _ => rfl
  | enterClass => exact sound.of_same keeps (Runtime.modifyClass_proj ObjcClass.dtable _ _ fun _ => rfl)

end Caches

section Outlines

variable {Obj Loc Stripe Shard : Type} [DecidableEq Obj] [DecidableEq Loc] (layout : Layout Obj Loc Stripe Shard)

omit [DecidableEq Obj] [DecidableEq Loc] in
/-- No change moves a receiver to another class. -/
theorem LockPoint.Changes.isaOf {rt rt' : Runtime} {point : LockPoint Obj Loc} (changes : point.Changes rt rt') :
    rt'.isaOf = rt.isaOf := by
  cases changes with
  | nothing | enterSelector | replaceImp => rfl
  | internName interned =>
      have memory := internSelectorName_sameClassMemory interned
      funext receiver
      cases receiver <;> simp [Runtime.isaOf, memory.classes]
  | fillCache => exact isaOf_of_same (cacheInsert_sameGraph rt _ _ _)
  | emptyCache => exact isaOf_of_same (flushCache_sameGraph rt _)
  | prependNode => exact isaOf_of_same (prependMethod_sameGraph _ _)
  | pushEntry => exact isaOf_of_same (pushMethod_sameGraph _ _)
  | swapImps swapped =>
      simp only [swapImplementations, Option.bind_eq_bind, Option.bind_eq_some_iff, Option.some.injEq] at swapped
      obtain ⟨_, _, _, _, rfl⟩ := swapped
      rfl
  | @enterClass cls name =>
      funext receiver
      cases receiver with
      | object c => rfl
      | classObject c =>
          have kept : ∀ c : ObjcClass, c.setRegistered.isa = c.isa := fun _ => rfl
          exact Runtime.modifyClass_proj ObjcClass.isa _ cls kept c

/-- In some of the states the walk from the class of the receiver gave the answer for an equal selector. -/
def Found (past : Set (Shared Obj Loc)) (rt : Runtime) (receiver : Option ObjcPtr) (sel : SEL) (answer : Option IMP) :
    Prop :=
  match receiver.bind rt.isaOf with
  | none => answer = none
  | some cls => ∃ s < rt.nextSelector, selEq rt s sel = true ∧ ∃ d ∈ past, classLookupMethod d.rt cls s = answer

/-- Where a thread stands in a lookup that user code has called, and what it knows of the answer. -/
def LockPoint.LooksUp (past : Set (Shared Obj Loc)) (rt : Runtime) (receiver : Option ObjcPtr) (sel : SEL) :
    LockPoint Obj Loc → Prop
  | .msgLookup r s caller => r = receiver ∧ s = sel ∧ caller = .user
  | .cacheRead cls s caller => receiver.bind rt.isaOf = some cls ∧ s = sel ∧ caller = .user
  | .cacheReading cls s caller => receiver.bind rt.isaOf = some cls ∧ s = sel ∧ caller = .user
  | .cacheAnswered cls s _ caller => receiver.bind rt.isaOf = some cls ∧ s = sel ∧ caller = .user
  | .walk cls s caller => receiver.bind rt.isaOf = some cls ∧ s = sel ∧ caller = .user
  | .cacheFill cls s _ caller => receiver.bind rt.isaOf = some cls ∧ s = sel ∧ caller = .user
  | .cacheFilling cls s _ caller => receiver.bind rt.isaOf = some cls ∧ s = sel ∧ caller = .user
  | .cacheFilled _ imp caller => caller = .user ∧ Found past rt receiver sel (some imp)
  | .lookedUp imp caller => caller = .user ∧ Found past rt receiver sel imp
  | .user answer => ∃ imp, answer = .imp imp ∧ Found past rt receiver sel imp
  | _ => False

section Lookups

variable {past more : Set (Shared Obj Loc)} {rt rt' : Runtime} {receiver : Option ObjcPtr} {sel : SEL}

omit [DecidableEq Obj] [DecidableEq Loc]

theorem Found.kept {answer : Option IMP} (found : Found past rt receiver sel answer) (below : sel < rt.nextSelector)
    (subset : past ⊆ more) (keeps : KeepsSelectors rt rt') (isa : rt'.isaOf = rt.isaOf) :
    Found more rt' receiver sel answer := by
  unfold Found at found ⊢
  rw [isa]
  split
  · rwa [‹receiver.bind rt.isaOf = none›] at found
  · rw [‹receiver.bind rt.isaOf = some _›] at found
    obtain ⟨s, present, same, d, visited, walk⟩ := found
    exact ⟨s, Nat.lt_of_lt_of_le present keeps.nextSelector, (keeps.selEq present below).trans same, d, subset visited,
      walk⟩

theorem LockPoint.LooksUp.kept {point : LockPoint Obj Loc} (known : point.LooksUp past rt receiver sel)
    (below : sel < rt.nextSelector) (subset : past ⊆ more) (keeps : KeepsSelectors rt rt')
    (isa : rt'.isaOf = rt.isaOf) : point.LooksUp more rt' receiver sel := by
  cases point with
  | cacheRead | cacheReading | cacheAnswered | walk | cacheFill | cacheFilling =>
      exact ⟨by rw [isa]; exact known.1, known.2⟩
  | cacheFilled | lookedUp => exact known.imp_right fun found => found.kept below subset keeps isa
  | user => exact known.imp fun _ => And.imp_right fun found => found.kept below subset keeps isa
  | _ => exact known

end Lookups

end Outlines

section Runs

variable {Tid Obj Loc Stripe Shard : Type} [DecidableEq Tid] [DecidableEq Obj] [DecidableEq Loc] [DecidableEq Stripe]
  [DecidableEq Shard] {layout : Layout Obj Loc Stripe Shard} {m : RuntimeMachine Tid Obj Loc Stripe Shard}

/-- User code asks only for selectors that exist. -/
def RuntimeMachine.AsksExisting (m : RuntimeMachine Tid Obj Loc Stripe Shard)
    (label : Tid × Option (UserChoice Obj Loc)) : Prop :=
  ∀ choice ∈ label.2, ∀ sel ∈ choice.sel, sel < m.data.rt.nextSelector

instance RuntimeMachine.decidableAsksExisting (m : RuntimeMachine Tid Obj Loc Stripe Shard)
    (label : Tid × Option (UserChoice Obj Loc)) : Decidable (m.AsksExisting label) :=
  inferInstanceAs (Decidable (∀ choice ∈ label.2, ∀ sel ∈ choice.sel, sel < m.data.rt.nextSelector))

end Runs

end O3jc
