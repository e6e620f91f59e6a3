import O3jc.Loading.Canonical

namespace O3jc

open Library

/-- Two states agree on the class memory. -/
structure SameClassMemory (rt rt' : Runtime) : Prop where
  classes : rt'.classes = rt.classes
  nextClass : rt'.nextClass = rt.nextClass
  lists : rt'.methodLists = rt.methodLists
  nextList : rt'.nextMethodList = rt.nextMethodList
  registry : rt'.classRegistry = rt.classRegistry

theorem SameClassMemory.refl (rt : Runtime) : SameClassMemory rt rt := ⟨rfl, rfl, rfl, rfl, rfl⟩

theorem SameClassMemory.trans {rt rt' rt'' : Runtime} (first : SameClassMemory rt rt')
    (second : SameClassMemory rt' rt'') : SameClassMemory rt rt'' :=
  ⟨second.classes.trans first.classes, second.nextClass.trans first.nextClass, second.lists.trans first.lists,
    second.nextList.trans first.nextList, second.registry.trans first.registry⟩

/-- Selectors are not part of the class graph. -/
theorem GraphInv.of_sameClassMemory {image : List ClassPtr} {rt rt' : Runtime} (inv : GraphInv image rt) (same : SameClassMemory rt rt') :
    GraphInv image rt' := by
  obtain ⟨classes, nextClass, _, _, registry⟩ := same
  obtain ⟨_, _, _, _, _, _, _⟩ := rt
  obtain ⟨_, _, _, _, _, _, _⟩ := rt'
  cases classes
  cases nextClass
  cases registry
  exact ⟨inv.blank, inv.superBelow, inv.ranked, inv.superKind, inv.isaKind, inv.hasIsa, inv.isaInj, inv.pairLoaded,
    inv.imageClass, inv.unloaded, inv.siblings, inv.subclassSuper, inv.listed, inv.registeredClass,
    inv.superRegistered, inv.imageRegistered, inv.metaSuper, inv.metaRoot, inv.metaUnloaded, inv.registrySound,
    inv.registryComplete⟩

theorem internSelectorName_sameClassMemory {rt rt' : Runtime} {name : String} {ptr : CStrPtr}
    (result : internSelectorName rt name = some (rt', ptr)) : SameClassMemory rt rt' := by
  unfold internSelectorName at result
  split at result
  · obtain ⟨rfl, rfl⟩ := Prod.mk.inj (Option.some.inj result)
    exact .refl rt
  · simp only [Option.bind_eq_bind, Option.bind_eq_some_iff, Option.some.injEq, Prod.mk.injEq] at result
    obtain ⟨_, _, rfl, _⟩ := result
    exact ⟨rfl, rfl, rfl, rfl, rfl⟩

/-- The tables name what they hold. Selectors below the base come from the compiler. -/
structure SelInv (base : Nat) (rt : Runtime) : Prop where
  names : ∀ name ptr, rt.nameTable name = some ptr → ptr < rt.nextCString ∧ (rt.cStrings ptr).toStr = some name
  sels : ∀ name sel, rt.selTable name = some sel → base ≤ sel ∧ sel < rt.nextSelector ∧
    (rt.nameTable name).isSome = true ∧ (rt.selectors sel).name = rt.nameTable name
  base : base ≤ rt.nextSelector

/-- Equal interned pointers come from equal names. -/
theorem SelInv.injective {base : Nat} {rt : Runtime} (inv : SelInv base rt) {a b : String}
    (bound : (rt.nameTable a).isSome = true) (same : rt.nameTable a = rt.nameTable b) : a = b := by
  obtain ⟨ptr, interned⟩ := Option.isSome_iff_exists.mp bound
  have first := (inv.names a ptr interned).2
  rw [(inv.names b ptr (same ▸ interned)).2] at first
  exact (Option.some.inj first).symm

/-- The tables and the string memory only grow. -/
structure Grows (rt rt' : Runtime) : Prop where
  strings : ∀ ptr, ptr < rt.nextCString → rt'.cStrings ptr = rt.cStrings ptr
  nextString : rt.nextCString ≤ rt'.nextCString
  table : ∀ name ptr, rt.nameTable name = some ptr → rt'.nameTable name = some ptr
  nextSelector : rt.nextSelector ≤ rt'.nextSelector

theorem Grows.refl (rt : Runtime) : Grows rt rt :=
  ⟨fun _ _ => rfl, Nat.le_refl _, fun _ _ found => found, Nat.le_refl _⟩

theorem Grows.trans {rt rt' rt'' : Runtime} (first : Grows rt rt') (second : Grows rt' rt'') : Grows rt rt'' where
  strings ptr below := (second.strings ptr (Nat.lt_of_lt_of_le below first.nextString)).trans (first.strings ptr below)
  nextString := first.nextString.trans second.nextString
  table name ptr found := second.table name ptr (first.table name ptr found)
  nextSelector := first.nextSelector.trans second.nextSelector

/-- A bound name keeps its interned pointer. -/
theorem Grows.nameTable_eq {rt rt' : Runtime} (grows : Grows rt rt') {name : String}
    (bound : (rt.nameTable name).isSome = true) : rt'.nameTable name = rt.nameTable name := by
  obtain ⟨ptr, interned⟩ := Option.isSome_iff_exists.mp bound
  rw [interned, grows.table name ptr interned]

section Intern

variable {base : Nat} {rt : Runtime}

/-- Interning binds the name and leaves every selector alone. -/
theorem internSelectorName_spec {rt' : Runtime} {name : String} {ptr : CStrPtr} (inv : SelInv base rt)
    (result : internSelectorName rt name = some (rt', ptr)) :
    SelInv base rt' ∧ Grows rt rt' ∧ SameClassMemory rt rt' ∧ rt'.nameTable name = some ptr ∧
      rt'.selectors = rt.selectors ∧ rt'.nextSelector = rt.nextSelector ∧ rt'.selTable = rt.selTable := by
  unfold internSelectorName at result
  cases interned : rt.nameTable name with
  | some old =>
      rw [interned] at result
      obtain ⟨rfl, rfl⟩ := Prod.mk.inj (Option.some.inj result)
      exact ⟨inv, .refl rt, .refl rt, interned, rfl, rfl, rfl⟩
  | none =>
      rw [interned] at result
      simp only [Option.bind_eq_bind, Option.bind_eq_some_iff, Option.some.injEq, Prod.mk.injEq] at result
      obtain ⟨cstr, encoded, rfl, rfl⟩ := result
      have kept : ∀ other old, rt.nameTable other = some old →
          Function.update rt.nameTable name (some rt.nextCString) other = some old := by
        intro other old found
        have different : other ≠ name := by
          rintro rfl
          rw [interned] at found
          exact absurd found (by simp)
        rw [Function.update_of_ne different, found]
      refine ⟨⟨fun other ptr found => ?_, fun other sel found => ?_, inv.base⟩,
        ⟨fun ptr below => ?_, Nat.le_succ _, kept, Nat.le_refl _⟩, ⟨rfl, rfl, rfl, rfl, rfl⟩, ?_, rfl, rfl, rfl⟩
      · dsimp only at found ⊢
        by_cases same : other = name
        · subst same
          rw [Function.update_self] at found
          obtain rfl := Option.some.inj found
          rw [Function.update_self]
          exact ⟨Nat.lt_succ_self _, CStr.toStr_ofStr encoded⟩
        · rw [Function.update_of_ne same] at found
          obtain ⟨below, decoded⟩ := inv.names other ptr found
          rw [Function.update_of_ne (Nat.ne_of_lt below)]
          exact ⟨Nat.lt_succ_of_lt below, decoded⟩
      · obtain ⟨above, below, bound, same⟩ := inv.sels other sel found
        obtain ⟨old, isOld⟩ := Option.isSome_iff_exists.mp bound
        have now := kept other old isOld
        refine ⟨above, below, ?_, ?_⟩
        · dsimp only
          rw [now]
          rfl
        · dsimp only
          rw [now, same, isOld]
      · exact Function.update_of_ne (Nat.ne_of_lt below) _ _
      · exact Function.update_self _ _ _

/-- Every decoded C string can be interned. -/
theorem internSelectorName_total (rt : Runtime) {name : String} {cstr : CStr} (decoded : cstr.toStr = some name) :
    (internSelectorName rt name).isSome = true := by
  unfold internSelectorName
  cases rt.nameTable name with
  | some ptr => rfl
  | none =>
      rw [CStr.ofStr_toStr decoded]
      rfl

/-- Registering a name gives a selector that carries its interned pointer. -/
theorem selRegisterNameStr_spec {rt' : Runtime} {name : String} {sel : SEL} (inv : SelInv base rt)
    (result : selRegisterNameStr rt name = some (rt', sel)) :
    SelInv base rt' ∧ Grows rt rt' ∧ SameClassMemory rt rt' ∧ rt'.selTable name = some sel ∧
      ∀ other, other < rt.nextSelector → rt'.selectors other = rt.selectors other := by
  unfold selRegisterNameStr at result
  cases registered : rt.selTable name with
  | some old =>
      rw [registered] at result
      obtain ⟨rfl, rfl⟩ := Prod.mk.inj (Option.some.inj result)
      exact ⟨inv, .refl rt, .refl rt, registered, fun _ _ => rfl⟩
  | none =>
      rw [registered] at result
      simp only [Option.bind_eq_bind, Option.bind_eq_some_iff, Option.some.injEq, Prod.mk.injEq] at result
      obtain ⟨⟨middle, ptr⟩, interned, rfl, rfl⟩ := result
      obtain ⟨inv1, grows, memory, bound, selectors, next, table⟩ := internSelectorName_spec inv interned
      refine ⟨⟨inv1.names, fun other old found => ?_, inv1.base.trans (Nat.le_succ _)⟩,
        ⟨grows.strings, grows.nextString, grows.table, grows.nextSelector.trans (Nat.le_succ _)⟩,
        ⟨memory.classes, memory.nextClass, memory.lists, memory.nextList, memory.registry⟩, ?_, fun other below => ?_⟩
      · dsimp only at found ⊢
        by_cases same : other = name
        · subst same
          rw [Function.update_self] at found
          obtain rfl := Option.some.inj found
          rw [Function.update_self, bound]
          exact ⟨inv1.base, Nat.lt_succ_self _, rfl, rfl⟩
        · rw [Function.update_of_ne same] at found
          obtain ⟨above, below, isBound, same⟩ := inv1.sels other old found
          rw [Function.update_of_ne (Nat.ne_of_lt below)]
          exact ⟨above, Nat.lt_succ_of_lt below, isBound, same⟩
      · exact Function.update_self _ _ _
      · dsimp only
        rw [Function.update_of_ne (Nat.ne_of_lt (next ▸ below)), selectors]

/-- Registering a name keeps every registered selector. -/
theorem selRegisterNameStr_selTable {rt' : Runtime} {name other : String} {sel old : SEL}
    (inv : SelInv base rt) (result : selRegisterNameStr rt name = some (rt', sel))
    (found : rt.selTable other = some old) : rt'.selTable other = some old := by
  unfold selRegisterNameStr at result
  cases registered : rt.selTable name with
  | some existing =>
      rw [registered] at result
      obtain ⟨rfl, rfl⟩ := Prod.mk.inj (Option.some.inj result)
      exact found
  | none =>
      rw [registered] at result
      simp only [Option.bind_eq_bind, Option.bind_eq_some_iff, Option.some.injEq, Prod.mk.injEq] at result
      obtain ⟨⟨middle, ptr⟩, interned, rfl, rfl⟩ := result
      obtain ⟨_, _, _, _, _, _, table⟩ := internSelectorName_spec inv interned
      have different : other ≠ name := by
        rintro rfl
        rw [registered] at found
        contradiction
      dsimp only
      rw [Function.update_of_ne different, table]
      exact found

/-- Every name without an interior null can be registered. -/
theorem selRegisterNameStr_total (rt : Runtime) {name : String} {cstr : CStr}
    (encoded : CStr.ofStr name = some cstr) : ∃ rt' sel, selRegisterNameStr rt name = some (rt', sel) := by
  unfold selRegisterNameStr
  cases rt.selTable name with
  | some sel => exact ⟨rt, sel, rfl⟩
  | none =>
      obtain ⟨⟨middle, ptr⟩, interned⟩ :=
        Option.isSome_iff_exists.mp (internSelectorName_total rt (CStr.toStr_ofStr encoded))
      simp only [interned, Option.bind_eq_bind, Option.bind_some, Option.some.injEq, Prod.mk.injEq]
      exact ⟨_, _, rfl, rfl⟩

end Intern

/-- A write to a compiled selector leaves the tables in step with the registered ones. -/
theorem SelInv.patch {base : Nat} {rt : Runtime} (inv : SelInv base rt) {entry : SEL} (compiled : entry < base)
    (selector : ObjcSelector) :
    SelInv base { rt with selectors := Function.update rt.selectors entry selector } := by
  refine ⟨inv.names, fun name sel found => ?_, inv.base⟩
  obtain ⟨above, below, bound, same⟩ := inv.sels name sel found
  have different : sel ≠ entry := Nat.ne_of_gt (Nat.lt_of_lt_of_le compiled above)
  dsimp only
  rw [Function.update_of_ne different]
  exact ⟨above, below, bound, same⟩

/-- The source name of a selector entry. -/
def nameOf (rt : Runtime) (sel : SEL) : Option String :=
  (rt.selectors sel).name.bind fun ptr => (rt.cStrings ptr).toStr

/-- The entries were fixed up to the interned pointers of their source names. -/
def FixedUp (rt0 rt : Runtime) (sels : List SEL) : Prop :=
  ∀ sel ∈ sels, (rt.selectors sel).name = (nameOf rt0 sel).bind rt.nameTable ∧
    ∀ name, nameOf rt0 sel = some name → (rt.nameTable name).isSome = true

theorem FixedUp.grows {rt0 rt rt' : Runtime} {sels : List SEL} (fixed : FixedUp rt0 rt sels) (grows : Grows rt rt')
    (kept : ∀ sel ∈ sels, rt'.selectors sel = rt.selectors sel) : FixedUp rt0 rt' sels := by
  intro sel member
  obtain ⟨same, bound⟩ := fixed sel member
  rw [kept sel member, same]
  cases named : nameOf rt0 sel with
  | none => exact ⟨rfl, fun name absent => absurd absent (by simp)⟩
  | some name =>
      have isBound := bound name named
      refine ⟨(grows.nameTable_eq isBound).symm, fun other isOther => ?_⟩
      obtain rfl : name = other := Option.some.inj isOther
      rw [grows.nameTable_eq isBound]
      exact isBound

theorem sectionSlice_nodup (start stop : Option Nat) : (sectionSlice start stop).Nodup := by
  unfold sectionSlice
  split
  · split
    · exact List.nodup_nil
    · exact List.nodup_range'
  · exact List.nodup_nil

/-- The section holds valid strings below the allocation bounds. -/
structure SectionValid (rt : Runtime) (sels : List SEL) (base : Nat) : Prop where
  below : ∀ sel ∈ sels, sel < base
  named : ∀ sel ∈ sels, ∀ ptr, (rt.selectors sel).name = some ptr →
    ptr < rt.nextCString ∧ (rt.cStrings ptr).toStr.isSome = true

section Fixup

variable {base : Nat} {rt0 rt : Runtime}

/-- The state in the middle of the fixup loop. -/
structure FixupInv (base : Nat) (rt0 rt : Runtime) (done : List SEL) : Prop where
  sel : SelInv base rt
  grows : Grows rt0 rt
  memory : SameClassMemory rt0 rt
  fixed : FixedUp rt0 rt done
  others : ∀ sel, sel ∉ done → rt.selectors sel = rt0.selectors sel

/-- One turn of the loop fixes one entry. -/
theorem FixupInv.turn {done : List SEL} (inv : FixupInv base rt0 rt done) {entry : SEL} (outside : entry ∉ done)
    (below : entry < base) (named : ∀ ptr, (rt0.selectors entry).name = some ptr →
      ptr < rt0.nextCString ∧ (rt0.cStrings ptr).toStr.isSome = true) :
    ∃ rt', loadSelector rt entry = some rt' ∧ FixupInv base rt0 rt' (entry :: done) := by
  unfold loadSelector
  rw [inv.others entry outside]
  cases source : (rt0.selectors entry).name with
  | none =>
      have unnamed : nameOf rt0 entry = none := by rw [nameOf, source]; rfl
      refine ⟨rt, rfl, inv.sel, inv.grows, inv.memory, fun sel member => ?_, fun sel notIn =>
        inv.others sel fun inside => notIn (List.mem_cons_of_mem entry inside)⟩
      rcases List.mem_cons.mp member with same | before
      · rw [same, unnamed, inv.others entry outside, source]
        exact ⟨rfl, fun name absent => absurd absent (by simp)⟩
      · exact inv.fixed sel before
  | some ptr =>
      obtain ⟨inMemory, decodes⟩ := named ptr source
      obtain ⟨name, decoded⟩ := Option.isSome_iff_exists.mp decodes
      have isNamed : nameOf rt0 entry = some name := by rw [nameOf, source]; exact decoded
      obtain ⟨⟨middle, interned⟩, result⟩ := Option.isSome_iff_exists.mp (internSelectorName_total rt decoded)
      obtain ⟨inv1, grows, memory, bound, selectors, next, table⟩ := internSelectorName_spec inv.sel result
      have string : (rt.cStrings ptr).toStr = some name := by
        rw [inv.grows.strings ptr inMemory]
        exact decoded
      simp only [Option.bind_eq_bind, string, Option.bind_some, result]
      refine ⟨_, rfl, ?_⟩
      have aside : ∀ sel, sel ≠ entry → Function.update middle.selectors entry
          { middle.selectors entry with name := some interned } sel = rt.selectors sel := fun sel different => by
        rw [Function.update_of_ne different, selectors]
      have grows' : Grows rt0 middle := inv.grows.trans grows
      refine ⟨inv1.patch below _, ⟨grows'.strings, grows'.nextString, grows'.table, grows'.nextSelector⟩, ?_,
        fun sel member => ?_, fun sel notIn => ?_⟩
      · have all := inv.memory.trans memory
        exact ⟨all.classes, all.nextClass, all.lists, all.nextList, all.registry⟩
      · dsimp only
        rcases List.mem_cons.mp member with same | before
        · rw [same, isNamed, Function.update_self, Option.bind_some, bound]
          refine ⟨rfl, fun other isOther => ?_⟩
          obtain rfl : name = other := Option.some.inj isOther
          rw [bound]
          rfl
        · have different : sel ≠ entry := fun same => outside (same ▸ before)
          have kept : ∀ s ∈ done, middle.selectors s = rt.selectors s := fun s _ => by rw [selectors]
          rw [Function.update_of_ne different]
          exact inv.fixed.grows grows kept sel before
      · dsimp only
        rw [aside sel fun same => notIn (by rw [same]; exact List.mem_cons_self)]
        exact inv.others sel fun inside => notIn (List.mem_cons_of_mem entry inside)

/-- The loop fixes every entry of the section. -/
theorem FixupInv.loop {done rest : List SEL} (inv : FixupInv base rt0 rt done) (distinct : rest.Nodup)
    (apart : ∀ sel ∈ rest, sel ∉ done) (below : ∀ sel ∈ rest, sel < base)
    (named : ∀ sel ∈ rest, ∀ ptr, (rt0.selectors sel).name = some ptr →
      ptr < rt0.nextCString ∧ (rt0.cStrings ptr).toStr.isSome = true) :
    ∃ rt', loadSelectors rt rest = some rt' ∧ FixupInv base rt0 rt' (rest.reverse ++ done) := by
  induction rest generalizing rt done with
  | nil => exact ⟨rt, rfl, inv⟩
  | cons entry rest ih =>
      obtain ⟨fresh, distinctRest⟩ := List.nodup_cons.mp distinct
      obtain ⟨middle, turn, inv1⟩ := inv.turn (apart entry List.mem_cons_self) (below entry List.mem_cons_self)
        (named entry List.mem_cons_self)
      obtain ⟨rt', later, inv2⟩ := ih inv1 distinctRest
        (fun sel member inside => by
          rcases List.mem_cons.mp inside with same | before
          · exact fresh (same ▸ member)
          · exact apart sel (List.mem_cons_of_mem entry member) before)
        (fun sel member => below sel (List.mem_cons_of_mem entry member))
        fun sel member => named sel (List.mem_cons_of_mem entry member)
      refine ⟨rt', ?_, ?_⟩
      · rw [loadSelectors, List.foldlM_cons, turn]
        exact later
      · rw [List.reverse_cons, List.append_assoc, List.singleton_append]
        exact inv2

theorem loadSelectors_spec {sels : List SEL} (inv : SelInv base rt) (distinct : sels.Nodup)
    (valid : SectionValid rt sels base) :
    ∃ rt', loadSelectors rt sels = some rt' ∧ SelInv base rt' ∧ Grows rt rt' ∧ SameClassMemory rt rt' ∧
      FixedUp rt rt' sels := by
  have start : FixupInv base rt rt [] :=
    ⟨inv, .refl rt, .refl rt, fun sel member => by simp at member, fun _ _ => rfl⟩
  obtain ⟨rt', result, done⟩ := start.loop distinct (by simp) valid.below valid.named
  refine ⟨rt', result, done.sel, done.grows, done.memory, fun sel member => done.fixed sel ?_⟩
  simpa using member

end Fixup

end O3jc
