import O3jc.Library.Forest
import O3jc.Runtime.Sel

/-
This file embeds `method_cache.rs`. The cache of a class is the dense list in its `dtable` word.
-/

namespace O3jc

open Library

def cacheCapacity : Nat := 16

def CacheInner.new : CacheInner := []

def CacheInner.lookup (rt : Runtime) (inner : CacheInner) (sel : SEL) : Option IMP :=
  (inner.find? fun entry => selEq rt entry.sel sel).map CacheEntry.imp

/-- A full list is cleared before the push. A present selector leaves the list unchanged. -/
def CacheInner.insert (rt : Runtime) (inner : CacheInner) (sel : SEL) (imp : IMP) : CacheInner :=
  if inner.any fun entry => selEq rt entry.sel sel then inner
  else if inner.length = cacheCapacity then [⟨sel, imp⟩]
  else inner ++ [⟨sel, imp⟩]

def CacheInner.flush (_ : CacheInner) : CacheInner := []

namespace Runtime

/-- `MethodCache::lookup` holds the read lock. A class without a cache misses. -/
def cacheLookup (rt : Runtime) (cls : ClassPtr) (sel : SEL) : Option IMP :=
  (rt.classes cls).dtable.bind fun inner => CacheInner.lookup rt inner sel

/-- `MethodCache::insert` holds the write lock. -/
def cacheInsert (rt : Runtime) (cls : ClassPtr) (sel : SEL) (imp : IMP) : Runtime :=
  rt.modifyClass cls fun c => { c with dtable := c.dtable.map fun inner => CacheInner.insert rt inner sel imp }

/-- `MethodCache::flush` holds the write lock. -/
def flushCache (rt : Runtime) (cls : ClassPtr) : Runtime :=
  rt.modifyClass cls fun c => { c with dtable := c.dtable.map CacheInner.flush }

end Runtime

/-- `flush_class_cache_tree` flushes the class and then recursively each direct subclass. -/
def flushClassCacheTree (rt : Runtime) (cls : ClassPtr) : Runtime :=
  traverse Runtime.subclasses Runtime.flushCache rt.nextClass rt cls

/-- The classes that one call of `flush_class_cache_tree` visits, in order. -/
def flushOrder (rt : Runtime) (cls : ClassPtr) : List ClassPtr := preorder rt.subclasses rt.nextClass cls

theorem flushCache_subclasses (rt : Runtime) (cls : ClassPtr) :
    (rt.flushCache cls).subclasses = rt.subclasses := by
  have field : ∀ other, ((rt.flushCache cls).classes other).siblingClass = (rt.classes other).siblingClass ∧
      ((rt.flushCache cls).classes other).subclassList = (rt.classes other).subclassList := by
    intro other
    by_cases same : other = cls
    · subst same; simp [Runtime.flushCache, Runtime.modifyClass]
    · simp [Runtime.flushCache, Runtime.modifyClass, Function.update_of_ne same]
  have links : (rt.flushCache cls).sibling = rt.sibling := funext fun other => (field other).1
  funext other
  simp only [Runtime.subclasses, links, (field other).2]
  rfl

/-- The recursion flushes the caches of its visits one after the other. -/
theorem flushClassCacheTree_eq (rt : Runtime) (cls : ClassPtr) :
    flushClassCacheTree rt cls = (flushOrder rt cls).foldl Runtime.flushCache rt :=
  traverse_eq_foldl flushCache_subclasses rt.nextClass rt cls

end O3jc
