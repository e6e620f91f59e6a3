import O3jc.Runtime.MethodCache

/-
This file embeds the lookup functions of `msg_send.rs`.
-/

namespace O3jc

/-- The entries of the class's own chain, node by node. -/
def Runtime.methodEntries (rt : Runtime) (cls : ClassPtr) : List MethodEntry :=
  (rt.methodListIter (rt.classes cls).methodList.head).flatMap fun list => list.entries.items

/-- The first entry of the class's own chain that names the selector. -/
def Runtime.ownMethod (rt : Runtime) (cls : ClassPtr) (sel : SEL) : Option MethodEntry :=
  (rt.methodEntries cls).find? fun entry => selEq rt entry.sel sel

/-- `class_lookup_method` returns the first match along the ancestors. -/
def classLookupMethod (rt : Runtime) (cls : ClassPtr) (sel : SEL) : Option IMP :=
  (rt.ancestors cls).findSome? fun c => (rt.ownMethod c sel).map MethodEntry.imp

/-- `objc_msg_lookup` asks the cache, then walks the hierarchy and fills the cache. -/
def objcMsgLookup (rt : Runtime) (receiver : Option ObjcPtr) (sel : SEL) : Runtime × Option IMP :=
  match receiver.bind rt.isaOf with
  | none => (rt, none)
  | some cls =>
      match rt.cacheLookup cls sel with
      | some imp => (rt, some imp)
      | none =>
          match classLookupMethod rt cls sel with
          | none => (rt, none)
          | some imp => (rt.cacheInsert cls sel imp, some imp)

/-- `objc_msg_lookup_nonnull` aborts where the lookup finds nothing. -/
def objcMsgLookupNonnull (rt : Runtime) (receiver : Option ObjcPtr) (sel : SEL) : Option (Runtime × IMP) :=
  match objcMsgLookup rt receiver sel with
  | (rt, some imp) => some (rt, imp)
  | (_, none) => none

end O3jc
