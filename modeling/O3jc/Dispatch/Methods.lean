import O3jc.Dispatch.Chain

namespace O3jc

open Library

section Find

variable {rt : Runtime}

/-- The handle of the first match in the class's own chain. -/
def Runtime.findMethod (rt : Runtime) (cls : ClassPtr) (sel : SEL) : Option Method :=
  findMethodInChain rt (rt.classes cls).methodList.head sel

theorem Runtime.findMethod_eq (rt : Runtime) (cls : ClassPtr) (sel : SEL) :
    rt.findMethod cls sel = (rt.nodesOf cls).findSome? (findMethodInList rt sel) := rfl

/-- The handle found in a node names the node's current buffer and its first match. -/
theorem findMethodInList_some {sel : SEL} {node : MethodListPtr} {method : Method}
    (found : findMethodInList rt sel node = some method) :
    method.list = node ∧ ∃ entry, rt.readMethod method = some entry ∧
      ((rt.methodLists node).entries.items.find? fun entry => selEq rt entry.sel sel) = some entry := by
  rw [findMethodInList, Option.map_eq_some_iff] at found
  obtain ⟨index, position, same⟩ := found
  subst same
  obtain ⟨inside, holds, first⟩ := List.findIdx?_eq_some_iff_getElem.mp position
  refine ⟨rfl, (rt.methodLists node).entries.items[index], ?_, ?_⟩
  · simp [Runtime.readMethod, inside]
  · rw [List.find?_eq_some_iff_getElem]
    refine ⟨holds, index, inside, rfl, fun j lower => ?_⟩
    have missed := first j lower
    simpa using missed

theorem findMethodInList_none {sel : SEL} {node : MethodListPtr}
    (missing : findMethodInList rt sel node = none) :
    ((rt.methodLists node).entries.items.find? fun entry => selEq rt entry.sel sel) = none := by
  rw [findMethodInList, Option.map_eq_none_iff, List.findIdx?_eq_none_iff] at missing
  rw [List.find?_eq_none]
  intro entry member
  simpa using missing entry member

theorem findSome_findMethodInList (sel : SEL) (nodes : List MethodListPtr) :
    (nodes.findSome? (findMethodInList rt sel)).bind rt.readMethod =
      (nodes.flatMap fun node => (rt.methodLists node).entries.items).find? fun entry =>
        selEq rt entry.sel sel := by
  induction nodes with
  | nil => rfl
  | cons node rest ih =>
      rw [List.findSome?_cons, List.flatMap_cons, List.find?_append]
      cases found : findMethodInList rt sel node with
      | none =>
          rw [findMethodInList_none found, Option.none_or]
          exact ih
      | some method =>
          obtain ⟨_, entry, read, first⟩ := findMethodInList_some found
          rw [first, Option.some_or]
          exact read

/-- The handle scan and the entry scan agree on which entry is the method. -/
theorem findMethod_bind_read (cls : ClassPtr) (sel : SEL) :
    (rt.findMethod cls sel).bind rt.readMethod = rt.ownMethod cls sel := by
  rw [Runtime.findMethod_eq, findSome_findMethodInList, Runtime.ownMethod, Runtime.methodEntries_eq]

theorem findMethod_spec {cls : ClassPtr} {sel : SEL} {method : Method}
    (found : rt.findMethod cls sel = some method) :
    method.list ∈ rt.nodesOf cls ∧ ∃ entry, rt.readMethod method = some entry ∧
      rt.ownMethod cls sel = some entry ∧ selEq rt entry.sel sel = true := by
  have own : (rt.findMethod cls sel).bind rt.readMethod = rt.ownMethod cls sel := findMethod_bind_read cls sel
  rw [found, Option.bind_some] at own
  rw [Runtime.findMethod_eq] at found
  obtain ⟨node, member, here⟩ := List.exists_of_findSome?_eq_some found
  obtain ⟨place, entry, read, _⟩ := findMethodInList_some here
  refine ⟨place ▸ member, entry, read, own.symm.trans read, ?_⟩
  have matched : (rt.methodEntries cls).find? (fun entry => selEq rt entry.sel sel) = some entry :=
    own.symm.trans read
  have holds := List.find?_some matched
  exact holds

theorem findMethod_eq_none_iff {cls : ClassPtr} {sel : SEL} :
    rt.findMethod cls sel = none ↔ rt.ownMethod cls sel = none := by
  constructor
  · intro missing
    rw [← findMethod_bind_read, missing]
    rfl
  · intro missing
    cases found : rt.findMethod cls sel with
    | none => rfl
    | some method =>
        obtain ⟨_, entry, _, own, _⟩ := findMethod_spec found
        rw [missing] at own
        exact absurd own (by simp)

/-- The membership scan agrees with the first-match scan. -/
theorem methodExists_eq (cls : ClassPtr) (sel : SEL) :
    methodExistsInChain rt (rt.classes cls).methodList.head sel = (rt.ownMethod cls sel).isSome := by
  rw [Runtime.ownMethod, Bool.eq_iff_iff, List.find?_isSome, methodExistsInChain, List.any_eq_true]
  rfl

theorem ownMethod_congr {a b : SEL} (same : selEq rt a b = true) (cls : ClassPtr) :
    rt.ownMethod cls a = rt.ownMethod cls b := by
  simp only [Runtime.ownMethod, selEq_congr_right same]

theorem classLookupMethod_congr {a b : SEL} (same : selEq rt a b = true) (cls : ClassPtr) :
    classLookupMethod rt cls a = classLookupMethod rt cls b := by
  simp only [classLookupMethod, ownMethod_congr same]

/-- The handle at which dispatch from a class ends. -/
def Runtime.resolve (rt : Runtime) (cls : ClassPtr) (sel : SEL) : Option Method :=
  (rt.ancestors cls).findSome? fun c => rt.findMethod c sel

/-- Dispatch reads the IMP of the entry that the chain scans resolve to. -/
theorem classLookupMethod_eq_resolve (cls : ClassPtr) (sel : SEL) :
    classLookupMethod rt cls sel = ((rt.resolve cls sel).bind rt.readMethod).map MethodEntry.imp := by
  simp only [classLookupMethod, Runtime.resolve]
  induction rt.ancestors cls with
  | nil => rfl
  | cons c rest ih =>
      rw [List.findSome?_cons, List.findSome?_cons]
      cases found : rt.findMethod c sel with
      | none =>
          rw [findMethod_eq_none_iff.mp found]
          exact ih
      | some method =>
          obtain ⟨_, entry, read, own, _⟩ := findMethod_spec found
          rw [own, Option.bind_some, read]
          rfl

end Find

section Add

variable {rt : Runtime} (inv : ChainInv rt) (cls : ClassPtr) (entry : MethodEntry)

theorem prependMethod_eq :
    rt.prependMethod cls entry =
      rt.attachList cls ⟨(rt.classes cls).methodList.head, .exact [entry]⟩ := rfl

theorem prependMethod_sameGraph : SameGraph rt (rt.prependMethod cls entry) :=
  attachList_sameGraph rt cls _

theorem prependMethod_sameCaches : SameCaches rt (rt.prependMethod cls entry) :=
  attachList_sameCaches rt cls _

theorem pushMethod_of_head {head : MethodListPtr} (isHead : (rt.classes cls).methodList.head = some head) :
    rt.pushMethod cls entry =
      rt.modifyMethodList head fun list => { list with entries := list.entries.push entry } := by
  simp only [Runtime.pushMethod, Runtime.headOrNew, isHead]

theorem pushMethod_of_null (missing : (rt.classes cls).methodList.head = none) :
    rt.pushMethod cls entry =
      (rt.attachList cls ⟨none, .empty⟩).modifyMethodList rt.nextMethodList fun list =>
        { list with entries := list.entries.push entry } := by
  simp only [Runtime.pushMethod, Runtime.headOrNew, missing, Runtime.attachList]

theorem pushMethod_sameGraph : SameGraph rt (rt.pushMethod cls entry) := by
  cases start : (rt.classes cls).methodList.head with
  | some head =>
      rw [pushMethod_of_head cls entry start]
      exact modifyMethodList_sameGraph head
  | none =>
      rw [pushMethod_of_null cls entry start]
      exact (attachList_sameGraph rt cls ⟨none, .empty⟩).trans (modifyMethodList_sameGraph _)

theorem pushMethod_sameCaches : SameCaches rt (rt.pushMethod cls entry) := by
  cases start : (rt.classes cls).methodList.head with
  | some head =>
      rw [pushMethod_of_head cls entry start]
      exact fun _ => rfl
  | none =>
      rw [pushMethod_of_null cls entry start]
      exact attachList_sameCaches rt cls ⟨none, .empty⟩

include inv

theorem prependMethod_chainInv : ChainInv (rt.prependMethod cls entry) :=
  attachList_chainInv inv cls _ (inv.complete cls) fun _ member => member

theorem prependMethod_entries (a : ClassPtr) :
    (rt.prependMethod cls entry).methodEntries a =
      if a = cls then entry :: rt.methodEntries cls else rt.methodEntries a := by
  rw [prependMethod_eq, attachList_entries inv cls _ (inv.complete cls) fun _ member => member,
    rt.methodEntries_eq cls]
  rfl

/-- A push into the head node of a class inserts one entry and changes no other class. -/
theorem pushHead_spec {head : MethodListPtr} (isHead : (rt.classes cls).methodList.head = some head) :
    let rt' := rt.modifyMethodList head fun list => { list with entries := list.entries.push entry }
    ChainInv rt' ∧ (∃ before after, rt.methodEntries cls = before ++ after ∧
      rt'.methodEntries cls = before ++ entry :: after) ∧
      ∀ a, a ≠ cls → rt'.methodEntries a = rt.methodEntries a := by
  intro rt'
  have keepsNext : ∀ list : MethodList,
      ({ list with entries := list.entries.push entry } : MethodList).next = list.next := fun _ => rfl
  obtain ⟨rest, nodes, tail⟩ := walk_some_iff.mp (isHead ▸ inv.complete cls)
  have inHead : head ∈ rt.nodesOf cls := by rw [nodes]; exact List.mem_cons_self
  refine ⟨modifyMethodList_chainInv head keepsNext inv, ⟨(rt.methodLists head).entries.items,
    rest.flatMap fun node => (rt.methodLists node).entries.items, ?_, ?_⟩, ?_⟩
  · rw [Runtime.methodEntries_eq, nodes, List.flatMap_cons]
  · have unique : head ∉ rest := (List.nodup_cons.mp (nodes ▸ (inv.complete cls).nodup)).1
    have kept : (rest.flatMap fun node => (rt'.methodLists node).entries.items) =
        rest.flatMap fun node => (rt.methodLists node).entries.items := by
      simp only [List.flatMap_def]
      refine congrArg List.flatten (List.map_congr_left fun node member => ?_)
      have different : node ≠ head := fun same => unique (same ▸ member)
      simp only [rt', modifyMethodList_lists, if_neg different]
    rw [Runtime.methodEntries_eq, modifyMethodList_nodesOf head keepsNext, nodes, List.flatMap_cons, kept]
    have pushed : (rt'.methodLists head).entries.items = (rt.methodLists head).entries.items ++ [entry] := by
      rw [modifyMethodList_lists, if_pos rfl, MethodVec.push_items]
    rw [pushed, List.append_assoc, List.singleton_append]
  · intro a different
    exact modifyMethodList_entries_of_not_mem head keepsNext fun member =>
      different (inv.disjoint a cls head member inHead)

theorem pushMethod_spec :
    ChainInv (rt.pushMethod cls entry) ∧ (∃ before after, rt.methodEntries cls = before ++ after ∧
      (rt.pushMethod cls entry).methodEntries cls = before ++ entry :: after) ∧
      ∀ a, a ≠ cls → (rt.pushMethod cls entry).methodEntries a = rt.methodEntries a := by
  cases start : (rt.classes cls).methodList.head with
  | some head =>
      rw [pushMethod_of_head cls entry start]
      exact pushHead_spec inv cls entry start
  | none =>
      -- A class without nodes first gets an empty one, which holds no entry.
      rw [pushMethod_of_null cls entry start]
      have noNodes : rt.nodesOf cls = [] := walk_none_iff.mp (start ▸ inv.complete cls)
      have noEntries : rt.methodEntries cls = [] := by rw [Runtime.methodEntries_eq, noNodes]; rfl
      have inv' := attachList_chainInv inv cls ⟨none, .empty⟩ .nil (by simp)
      have entries := attachList_entries inv cls ⟨none, .empty⟩ .nil (by simp)
      have isHead : ((rt.attachList cls ⟨none, .empty⟩).classes cls).methodList.head =
          some rt.nextMethodList := by
        simp [Runtime.attachList, MethodListField.head]
      obtain ⟨chain, ⟨before, after, old, new⟩, others⟩ := pushHead_spec inv' cls entry isHead
      refine ⟨chain, ⟨before, after, ?_, new⟩, fun a different => ?_⟩
      · rw [noEntries, ← old, entries, if_pos rfl]
        rfl
      · rw [others a different, entries, if_neg different]

end Add

/-- Inserting an entry under an unbound selector changes the first match of that selector only. -/
theorem find_insert {rt : Runtime} {before after : List MethodEntry} {entry : MethodEntry}
    (unbound : ((before ++ after).find? fun e => selEq rt e.sel entry.sel) = none) (sel : SEL) :
    ((before ++ entry :: after).find? fun e => selEq rt e.sel sel) =
      if selEq rt entry.sel sel then some entry else (before ++ after).find? fun e => selEq rt e.sel sel := by
  rw [List.find?_append, List.find?_append, List.find?_cons]
  cases match_ : selEq rt entry.sel sel with
  | false => simp
  | true =>
      have missed : (before.find? fun e => selEq rt e.sel sel) = none := by
        rw [List.find?_eq_none] at unbound ⊢
        intro e member
        rw [← selEq_congr_right match_]
        exact unbound e (List.mem_append_left after member)
      simp [missed]

section Write

variable {rt : Runtime} (method : Method) (imp : IMP)

theorem writeImp_sameGraph : SameGraph rt (rt.writeImp method imp) := modifyMethodList_sameGraph _

theorem writeImp_sameCaches : SameCaches rt (rt.writeImp method imp) := fun _ => rfl

theorem writeImp_nodesOf : (rt.writeImp method imp).nodesOf = rt.nodesOf :=
  modifyMethodList_nodesOf method.list fun _ => rfl

theorem writeImp_chainInv (inv : ChainInv rt) : ChainInv (rt.writeImp method imp) :=
  modifyMethodList_chainInv method.list (fun _ => rfl) inv

/-- The write keeps buffers and selectors, so the handle scans do not change. -/
theorem writeImp_findMethodInList (sel : SEL) (node : MethodListPtr) :
    findMethodInList (rt.writeImp method imp) sel node = findMethodInList rt sel node := by
  have eq : selEq (rt.writeImp method imp) = selEq rt := (writeImp_sameGraph method imp).selEq
  by_cases same : node = method.list
  · subst same
    simp only [findMethodInList, eq]
    simp only [Runtime.writeImp, modifyMethodList_lists, if_true]
    congr 1
    apply Option.ext
    intro index
    simp only [List.findIdx?_eq_some_iff_getElem, List.length_modify, List.getElem_modify]
    grind
  · simp only [findMethodInList, eq]
    simp only [Runtime.writeImp, modifyMethodList_lists, if_neg same]

theorem writeImp_findMethod : (rt.writeImp method imp).findMethod = rt.findMethod := by
  funext cls sel
  rw [Runtime.findMethod_eq, Runtime.findMethod_eq, writeImp_nodesOf]
  have scans : findMethodInList (rt.writeImp method imp) sel = findMethodInList rt sel :=
    funext fun node => writeImp_findMethodInList method imp sel node
  rw [scans]

/-- The write is visible through its own handle and through no other. -/
theorem writeImp_readMethod {entry : MethodEntry} (live : rt.readMethod method = some entry) (other : Method) :
    (rt.writeImp method imp).readMethod other =
      if other = method then some { entry with imp } else rt.readMethod other := by
  unfold Runtime.readMethod at live ⊢
  split at live
  · rename_i buffer
    by_cases list : other.list = method.list
    · simp only [Runtime.writeImp, modifyMethodList_lists, list, if_true]
      by_cases sameBuffer : (rt.methodLists method.list).entries.buffer = other.buffer
      · rw [if_pos sameBuffer, if_pos sameBuffer, List.getElem?_modify]
        by_cases index : method.index = other.index
        · have same : other = method := by
            cases other; cases method
            simp_all
          simp [same, live]
        · have different : other ≠ method := fun same => index (by rw [same])
          simp [index, different]
      · have different : other ≠ method := fun same => sameBuffer (by rw [same, buffer])
        rw [if_neg sameBuffer, if_neg different, if_neg sameBuffer]
    · have different : other ≠ method := fun same => list (by rw [same])
      simp only [Runtime.writeImp, modifyMethodList_lists, if_neg list, if_neg different]
  · exact absurd live (by simp)

end Write

end O3jc
