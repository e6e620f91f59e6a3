import O3jc.Dispatch.Frame

namespace O3jc

open Library

/-- Every chain is finite and allocated, and no node belongs to two classes. -/
structure ChainInv (rt : Runtime) : Prop where
  complete : ∀ cls, Walk rt.nextMethodListOf (rt.classes cls).methodList.head (rt.nodesOf cls)
  below : ∀ cls, ∀ node ∈ rt.nodesOf cls, node < rt.nextMethodList
  disjoint : ∀ a b node, node ∈ rt.nodesOf a → node ∈ rt.nodesOf b → a = b

theorem ChainInv.of_same {rt rt' : Runtime} (inv : ChainInv rt) (same : SameMethods rt rt') :
    ChainInv rt' where
  complete cls := by
    have next : rt'.nextMethodListOf = rt.nextMethodListOf := by
      funext node
      simp only [Runtime.nextMethodListOf, same.lists]
    rw [same.heads, same.nodesOf, next]
    exact inv.complete cls
  below cls node member := by
    rw [same.nextList]
    rw [same.nodesOf] at member
    exact inv.below cls node member
  disjoint a b node := by
    rw [same.nodesOf]
    exact inv.disjoint a b node

/-- A complete walk of allocated nodes is the chain of the class. -/
theorem Runtime.nodesOf_eq_of_walk {rt : Runtime} {cls : ClassPtr} {nodes : List MethodListPtr}
    (complete : Walk rt.nextMethodListOf (rt.classes cls).methodList.head nodes)
    (below : ∀ node ∈ nodes, node < rt.nextMethodList) : rt.nodesOf cls = nodes :=
  complete.successors_eq (complete.length_le below)

/-- The class gets a fresh node in front of the walk that starts at `next`. -/
def Runtime.attachList (rt : Runtime) (cls : ClassPtr) (list : MethodList) : Runtime :=
  (rt.allocMethodList list).modifyClass cls fun c => { c with methodList := .runtime rt.nextMethodList }

section Attach

variable {rt : Runtime} (inv : ChainInv rt) (cls : ClassPtr) (list : MethodList)
  {tail : List MethodListPtr} (walk : Walk rt.nextMethodListOf list.next tail)
  (inside : ∀ node ∈ tail, node ∈ rt.nodesOf cls)

theorem attachList_nextOf_of_lt {node : MethodListPtr} (old : node < rt.nextMethodList) :
    (rt.attachList cls list).nextMethodListOf node = rt.nextMethodListOf node := by
  simp [Runtime.attachList, Runtime.nextMethodListOf, Runtime.modifyClass, Runtime.allocMethodList,
    Function.update_of_ne (Nat.ne_of_lt old)]

theorem attachList_lists_of_lt {node : MethodListPtr} (old : node < rt.nextMethodList) :
    (rt.attachList cls list).methodLists node = rt.methodLists node := by
  simp [Runtime.attachList, Runtime.modifyClass, Runtime.allocMethodList,
    Function.update_of_ne (Nat.ne_of_lt old)]

theorem attachList_lists_new : (rt.attachList cls list).methodLists rt.nextMethodList = list := by
  simp [Runtime.attachList, Runtime.modifyClass, Runtime.allocMethodList]

theorem attachList_next : (rt.attachList cls list).nextMethodList = rt.nextMethodList + 1 := rfl

include inv walk inside

theorem attachList_walk (a : ClassPtr) :
    Walk (rt.attachList cls list).nextMethodListOf ((rt.attachList cls list).classes a).methodList.head
      (if a = cls then rt.nextMethodList :: tail else rt.nodesOf a) := by
  by_cases same : a = cls
  · subst same
    rw [if_pos rfl]
    have head : ((rt.attachList a list).classes a).methodList.head = some rt.nextMethodList := by
      simp [Runtime.attachList, MethodListField.head]
    rw [head]
    refine .cons _ _ ?_
    have start : (rt.attachList a list).nextMethodListOf rt.nextMethodList = list.next := by
      rw [Runtime.nextMethodListOf, attachList_lists_new]
    rw [start]
    exact walk.congr fun node member =>
      attachList_nextOf_of_lt a list (inv.below a node (inside node member))
  · rw [if_neg same]
    have head : ((rt.attachList cls list).classes a).methodList = (rt.classes a).methodList := by
      rw [Runtime.attachList, Runtime.modifyClass_classes_of_ne _ _ _ same]
      rfl
    rw [head]
    exact (inv.complete a).congr fun node member => attachList_nextOf_of_lt cls list (inv.below a node member)

omit walk in
theorem attachList_below (a : ClassPtr) :
    ∀ node ∈ (if a = cls then rt.nextMethodList :: tail else rt.nodesOf a),
      node < (rt.attachList cls list).nextMethodList := by
  intro node member
  rw [attachList_next]
  by_cases same : a = cls
  · rw [if_pos same] at member
    rcases List.mem_cons.mp member with new | old
    · exact new ▸ Nat.lt_succ_self _
    · exact Nat.lt_succ_of_lt (inv.below cls node (inside node old))
  · rw [if_neg same] at member
    exact Nat.lt_succ_of_lt (inv.below a node member)

theorem attachList_nodesOf (a : ClassPtr) :
    (rt.attachList cls list).nodesOf a = if a = cls then rt.nextMethodList :: tail else rt.nodesOf a :=
  Runtime.nodesOf_eq_of_walk (attachList_walk inv cls list walk inside a)
    (attachList_below inv cls list inside a)

theorem attachList_chainInv : ChainInv (rt.attachList cls list) where
  complete a := by
    rw [attachList_nodesOf inv cls list walk inside]
    exact attachList_walk inv cls list walk inside a
  below a := by
    rw [attachList_nodesOf inv cls list walk inside]
    exact attachList_below inv cls list inside a
  disjoint a b node := by
    -- The fresh node is above every old one, and the old tail stays with its class.
    have owner : ∀ c, node ∈ (rt.attachList cls list).nodesOf c →
        (c = cls ∧ node = rt.nextMethodList) ∨ (node ∈ rt.nodesOf c ∧ node < rt.nextMethodList) := by
      intro c member
      rw [attachList_nodesOf inv cls list walk inside] at member
      by_cases same : c = cls
      · rw [if_pos same] at member
        rcases List.mem_cons.mp member with new | old
        · exact .inl ⟨same, new⟩
        · exact .inr ⟨same ▸ inside node old, inv.below cls node (inside node old)⟩
      · rw [if_neg same] at member
        exact .inr ⟨member, inv.below c node member⟩
    intro first second
    rcases owner a first with ⟨aSame, new⟩ | ⟨inA, old⟩
    · rcases owner b second with ⟨bSame, _⟩ | ⟨_, older⟩
      · rw [aSame, bSame]
      · exact absurd new (Nat.ne_of_lt older)
    · rcases owner b second with ⟨_, newer⟩ | ⟨inB, _⟩
      · exact absurd newer (Nat.ne_of_lt old)
      · exact inv.disjoint a b node inA inB

theorem attachList_chainOf (a : ClassPtr) :
    (rt.attachList cls list).chainOf a =
      if a = cls then list.entries :: tail.map fun node => (rt.methodLists node).entries
      else rt.chainOf a := by
  have kept : ∀ nodes : List MethodListPtr, (∀ node ∈ nodes, node < rt.nextMethodList) →
      (nodes.map fun node => ((rt.attachList cls list).methodLists node).entries) =
        nodes.map fun node => (rt.methodLists node).entries := by
    intro nodes old
    refine List.map_congr_left fun node member => ?_
    rw [attachList_lists_of_lt cls list (old node member)]
  rw [Runtime.chainOf, attachList_nodesOf inv cls list walk inside]
  by_cases same : a = cls
  · rw [if_pos same, if_pos same, List.map_cons, attachList_lists_new,
      kept tail fun node member => inv.below cls node (inside node member)]
  · rw [if_neg same, if_neg same, kept (rt.nodesOf a) (inv.below a), Runtime.chainOf]

theorem attachList_entries (a : ClassPtr) :
    (rt.attachList cls list).methodEntries a =
      if a = cls then list.entries.items ++ tail.flatMap fun node => (rt.methodLists node).entries.items
      else rt.methodEntries a := by
  rw [Runtime.methodEntries_eq_chainOf, attachList_chainOf inv cls list walk inside,
    Runtime.methodEntries_eq_chainOf]
  split
  · rw [List.flatMap_cons, List.flatMap_map]
  · rfl

end Attach

theorem attachList_sameGraph (rt : Runtime) (cls : ClassPtr) (list : MethodList) :
    SameGraph rt (rt.attachList cls list) where
  links := (rt.allocMethodList list).modifyClass_proj ObjcClass.links cls fun _ => rfl
  loaded := (rt.allocMethodList list).modifyClass_proj (fun c => c.dtable.isSome) cls fun _ => rfl
  nextClass := rfl
  registry := rfl
  selectors := rfl

theorem attachList_sameCaches (rt : Runtime) (cls : ClassPtr) (list : MethodList) :
    SameCaches rt (rt.attachList cls list) :=
  (rt.allocMethodList list).modifyClass_proj ObjcClass.dtable cls fun _ => rfl

section ModifyList

variable {rt : Runtime} (node : MethodListPtr) {change : MethodList → MethodList}
  (keepsNext : ∀ list, (change list).next = list.next)

theorem modifyMethodList_sameGraph : SameGraph rt (rt.modifyMethodList node change) :=
  ⟨fun _ => rfl, fun _ => rfl, rfl, rfl, rfl⟩

theorem modifyMethodList_lists (other : MethodListPtr) :
    (rt.modifyMethodList node change).methodLists other =
      if other = node then change (rt.methodLists node) else rt.methodLists other := by
  by_cases same : other = node
  · subst same; simp [Runtime.modifyMethodList]
  · simp [Runtime.modifyMethodList, same]

include keepsNext

theorem modifyMethodList_nextOf :
    (rt.modifyMethodList node change).nextMethodListOf = rt.nextMethodListOf := by
  funext other
  rw [Runtime.nextMethodListOf, modifyMethodList_lists]
  split
  · rename_i same
    rw [keepsNext, same]
    rfl
  · rfl

theorem modifyMethodList_nodesOf : (rt.modifyMethodList node change).nodesOf = rt.nodesOf := by
  funext cls
  rw [Runtime.nodesOf, modifyMethodList_nextOf node keepsNext]
  rfl

theorem modifyMethodList_chainInv (inv : ChainInv rt) : ChainInv (rt.modifyMethodList node change) where
  complete cls := by
    rw [modifyMethodList_nodesOf node keepsNext, modifyMethodList_nextOf node keepsNext]
    exact inv.complete cls
  below cls := by
    rw [modifyMethodList_nodesOf node keepsNext]
    exact inv.below cls
  disjoint a b other := by
    rw [modifyMethodList_nodesOf node keepsNext]
    exact inv.disjoint a b other

/-- A write to a node leaves the entries of every class without that node unchanged. -/
theorem modifyMethodList_entries_of_not_mem {cls : ClassPtr} (outside : node ∉ rt.nodesOf cls) :
    (rt.modifyMethodList node change).methodEntries cls = rt.methodEntries cls := by
  rw [Runtime.methodEntries_eq, Runtime.methodEntries_eq, modifyMethodList_nodesOf node keepsNext]
  simp only [List.flatMap_def]
  refine congrArg List.flatten (List.map_congr_left fun other member => ?_)
  have different : other ≠ node := fun same => outside (same ▸ member)
  rw [modifyMethodList_lists, if_neg different]

end ModifyList

/-- The chain of one class is dropped and every other chain is kept. -/
structure Cleared (rt rt' : Runtime) (cls : ClassPtr) : Prop where
  self : (rt'.classes cls).methodList.head = none
  old : ∀ c, c ≠ cls → (rt'.classes c).methodList.head = (rt.classes c).methodList.head
  lists : rt'.methodLists = rt.methodLists
  nextList : rt'.nextMethodList = rt.nextMethodList

section Clear

variable {rt rt' : Runtime} {cls : ClassPtr} (clear : Cleared rt rt' cls)

include clear

theorem Cleared.nextOf : rt'.nextMethodListOf = rt.nextMethodListOf := by
  funext node
  simp only [Runtime.nextMethodListOf, clear.lists]

theorem Cleared.nodesOf (c : ClassPtr) : rt'.nodesOf c = if c = cls then [] else rt.nodesOf c := by
  simp only [Runtime.nodesOf, clear.nextOf, clear.nextList]
  split
  · rename_i same
    rw [same, clear.self]
    exact Walk.nil.successors_eq (Nat.zero_le _)
  · rename_i different
    rw [clear.old c different]

theorem Cleared.chainOf (c : ClassPtr) : rt'.chainOf c = if c = cls then [] else rt.chainOf c := by
  rw [Runtime.chainOf, clear.nodesOf, clear.lists]
  split
  · rfl
  · rfl

theorem Cleared.chainInv (inv : ChainInv rt) : ChainInv rt' where
  complete c := by
    rw [clear.nodesOf, clear.nextOf]
    split
    · rename_i same
      rw [same, clear.self]
      exact .nil
    · rename_i different
      rw [clear.old c different]
      exact inv.complete c
  below c node member := by
    rw [clear.nodesOf] at member
    rw [clear.nextList]
    split at member
    · simp at member
    · exact inv.below c node member
  disjoint a b node inA inB := by
    rw [clear.nodesOf] at inA inB
    split at inA
    · simp at inA
    · split at inB
      · simp at inB
      · exact inv.disjoint a b node inA inB

end Clear

end O3jc
