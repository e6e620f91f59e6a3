import O3jc.Library.Transition
import O3jc.Loading.Selectors

/-
This file proves that interning identifies selectors with their names.
-/

namespace O3jc

open Library

/-- A selector that a call has returned, or a compiled selector that the loader has fixed up, with its name. -/
inductive Obtained where
  | returned (sel : SEL) (name : String)
  | fixedUp (sel : SEL) (name : String)
deriving DecidableEq

def Obtained.sel : Obtained → SEL
  | .returned sel _ => sel
  | .fixedUp sel _ => sel

def Obtained.name : Obtained → String
  | .returned _ name => name
  | .fixedUp _ name => name

/-- The calls that intern names. -/
inductive InternOp where
  | registerNameStr (name : String)
  | registerNameCstr (name : CStr)
  | loadSelectors (sels : List SEL)

/-- A process with the selectors that its calls have obtained so far. -/
structure Interning where
  rt : Runtime
  obtained : List Obtained

/-- The selectors that a fixup obtains. The compiled process gives their source names. -/
def fixedUpNames (rt0 : Runtime) (sels : List SEL) : List Obtained :=
  sels.filterMap fun sel => (nameOf rt0 sel).map (Obtained.fixedUp sel)

def InternOp.exec (rt0 : Runtime) (state : Interning) : InternOp → Option Interning
  | .registerNameStr name =>
      (selRegisterNameStr state.rt name).map fun (rt, sel) => ⟨rt, .returned sel name :: state.obtained⟩
  | .registerNameCstr name =>
      (selRegisterNameCstr state.rt name).map fun (rt, sel) =>
        ⟨rt, .returned sel name.toStringLossy :: state.obtained⟩
  | .loadSelectors sels =>
      (O3jc.loadSelectors state.rt sels).map fun rt => ⟨rt, fixedUpNames rt0 sels ++ state.obtained⟩

/-- A Rust string has no interior null, and the loader gets arrays of compiled selectors. -/
def InternOp.Permitted (rt0 : Runtime) (_ : Interning) : InternOp → Prop
  | .registerNameStr name => (CStr.ofStr name).isSome = true
  | .registerNameCstr _ => True
  | .loadSelectors sels => ∀ sel ∈ sels, sel < rt0.nextSelector

instance InternOp.decidablePermitted (rt0 : Runtime) (state : Interning) (op : InternOp) :
    Decidable (op.Permitted rt0 state) :=
  match op with
  | .registerNameStr _ => inferInstanceAs (Decidable (_ = true))
  | .registerNameCstr _ => inferInstanceAs (Decidable True)
  | .loadSelectors _ => inferInstanceAs (Decidable (∀ sel ∈ _, sel < _))

/-- A process before the first interning holds compiled selectors with valid names, and empty tables. -/
structure SelectorImage (rt0 : Runtime) : Prop where
  tables : ∀ name, rt0.nameTable name = none ∧ rt0.selTable name = none
  named : ∀ sel, sel < rt0.nextSelector → ∀ ptr, (rt0.selectors sel).name = some ptr →
    ptr < rt0.nextCString ∧ (rt0.cStrings ptr).toStr.isSome = true

/-- The tables hold what was obtained, and each compiled selector still spells its source name. -/
structure IdentityInv (rt0 : Runtime) (state : Interning) : Prop where
  sel : SelInv rt0.nextSelector state.rt
  grows : Grows rt0 state.rt
  compiled : ∀ sel, sel < rt0.nextSelector → (state.rt.selectors sel).name = (rt0.selectors sel).name ∨
    ∃ name, nameOf rt0 sel = some name ∧ (state.rt.nameTable name).isSome = true ∧
      (state.rt.selectors sel).name = state.rt.nameTable name
  obtained : ∀ entry ∈ state.obtained, (state.rt.nameTable entry.name).isSome = true ∧
    (state.rt.selectors entry.sel).name = state.rt.nameTable entry.name
  returned : ∀ sel name, .returned sel name ∈ state.obtained → state.rt.selTable name = some sel
  fixedUp : ∀ sel name, .fixedUp sel name ∈ state.obtained → sel < rt0.nextSelector ∧ nameOf rt0 sel = some name

section Steps

variable {rt0 : Runtime} {state : Interning}

theorem SelectorImage.identityInv (image : SelectorImage rt0) : IdentityInv rt0 ⟨rt0, []⟩ where
  sel := by
    refine ⟨fun name ptr found => ?_, fun name sel found => ?_, Nat.le_refl _⟩
    · rw [(image.tables name).1] at found
      contradiction
    · rw [(image.tables name).2] at found
      contradiction
  grows := .refl rt0
  compiled _ _ := .inl rfl
  obtained _ member := by simp at member
  returned _ _ member := by simp at member
  fixedUp _ _ member := by simp at member

/-- A selector obtained so far exists. -/
theorem IdentityInv.below (inv : IdentityInv rt0 state) {entry : Obtained} (member : entry ∈ state.obtained) :
    entry.sel < state.rt.nextSelector := by
  cases entry with
  | returned sel name => exact (inv.sel.sels name sel (inv.returned sel name member)).2.1
  | fixedUp sel name => exact Nat.lt_of_lt_of_le (inv.fixedUp sel name member).1 inv.sel.base

/-- Tables that grow around unchanged selectors keep what they hold. -/
theorem Grows.name_kept {rt rt' : Runtime} (grows : Grows rt rt') {sel : SEL} {name : String}
    (kept : rt'.selectors sel = rt.selectors sel) (bound : (rt.nameTable name).isSome = true)
    (same : (rt.selectors sel).name = rt.nameTable name) :
    (rt'.nameTable name).isSome = true ∧ (rt'.selectors sel).name = rt'.nameTable name := by
  rw [grows.nameTable_eq bound, kept]
  exact ⟨bound, same⟩

theorem IdentityInv.register (inv : IdentityInv rt0 state) {name : String} {rt' : Runtime} {sel : SEL}
    (result : selRegisterNameStr state.rt name = some (rt', sel)) :
    IdentityInv rt0 ⟨rt', .returned sel name :: state.obtained⟩ := by
  obtain ⟨inv', grows, _, registered, kept⟩ := selRegisterNameStr_spec inv.sel result
  have returned : ∀ s n, .returned s n ∈ Obtained.returned sel name :: state.obtained →
      rt'.selTable n = some s := by
    intro s n member
    rcases List.mem_cons.mp member with same | before
    · obtain ⟨rfl, rfl⟩ := Obtained.returned.inj same
      exact registered
    · exact selRegisterNameStr_selTable inv.sel result (inv.returned s n before)
  refine ⟨inv', inv.grows.trans grows, fun s below => ?_, fun entry member => ?_, returned, fun s n member => ?_⟩
  · have same := kept s (Nat.lt_of_lt_of_le below inv.sel.base)
    rcases inv.compiled s below with source | ⟨n, named, bound, fixed⟩
    · exact .inl (same ▸ source)
    · exact .inr ⟨n, named, grows.name_kept same bound fixed⟩
  · rcases List.mem_cons.mp member with rfl | before
    · exact (inv'.sels name sel registered).2.2
    · obtain ⟨bound, same⟩ := inv.obtained entry before
      exact grows.name_kept (kept entry.sel (inv.below before)) bound same
  · rcases List.mem_cons.mp member with same | before
    · contradiction
    · exact inv.fixedUp s n before

theorem IdentityInv.of_mem {rt : Runtime} {obtained more : List Obtained} (inv : IdentityInv rt0 ⟨rt, more⟩)
    (fewer : ∀ entry ∈ obtained, entry ∈ more) : IdentityInv rt0 ⟨rt, obtained⟩ where
  sel := inv.sel
  grows := inv.grows
  compiled := inv.compiled
  obtained entry member := inv.obtained entry (fewer entry member)
  returned sel name member := inv.returned sel name (fewer _ member)
  fixedUp sel name member := inv.fixedUp sel name (fewer _ member)

/-- The name pointer of a compiled selector spells its source name before and after the fixup. -/
theorem IdentityInv.spells (inv : IdentityInv rt0 state) (image : SelectorImage rt0) {entry : SEL}
    (below : entry < rt0.nextSelector) {ptr : CStrPtr} (now : (state.rt.selectors entry).name = some ptr) :
    ∃ name, nameOf rt0 entry = some name ∧ (state.rt.cStrings ptr).toStr = some name := by
  rcases inv.compiled entry below with source | ⟨name, named, _, fixed⟩
  · have link := source.symm.trans now
    obtain ⟨inMemory, decodes⟩ := image.named entry below ptr link
    obtain ⟨name, decoded⟩ := Option.isSome_iff_exists.mp decodes
    refine ⟨name, by rw [nameOf, link]; exact decoded, ?_⟩
    rw [inv.grows.strings ptr inMemory]
    exact decoded
  · exact ⟨name, named, (inv.sel.names name ptr (fixed.symm.trans now)).2⟩

theorem fixedUpNames_of_named {sels : List SEL} {sel : SEL} {name : String}
    (member : .fixedUp sel name ∈ fixedUpNames rt0 sels) : sel ∈ sels ∧ nameOf rt0 sel = some name := by
  obtain ⟨entry, inside, named⟩ := List.mem_filterMap.mp member
  obtain ⟨text, isNamed, same⟩ := Option.map_eq_some_iff.mp named
  obtain ⟨rfl, rfl⟩ := Obtained.fixedUp.inj same
  exact ⟨inside, isNamed⟩

theorem mem_fixedUpNames {sels : List SEL} {entry : Obtained} (member : entry ∈ fixedUpNames rt0 sels) :
    ∃ sel name, entry = .fixedUp sel name := by
  obtain ⟨sel, _, named⟩ := List.mem_filterMap.mp member
  obtain ⟨name, _, same⟩ := Option.map_eq_some_iff.mp named
  exact ⟨sel, name, same.symm⟩

/-- One turn of the loader's loop fixes one entry, whether or not it was fixed before. -/
theorem IdentityInv.turn (inv : IdentityInv rt0 state) (image : SelectorImage rt0) {entry : SEL}
    (below : entry < rt0.nextSelector) :
    ∃ rt', loadSelector state.rt entry = some rt' ∧ Grows state.rt rt' ∧
      IdentityInv rt0 ⟨rt', fixedUpNames rt0 [entry] ++ state.obtained⟩ := by
  unfold loadSelector
  cases now : (state.rt.selectors entry).name with
  | none =>
      have unnamed : nameOf rt0 entry = none := by
        rcases inv.compiled entry below with source | ⟨name, _, bound, fixed⟩
        · rw [nameOf, ← source, now]
          rfl
        · rw [← fixed, now] at bound
          contradiction
      have none_obtained : fixedUpNames rt0 [entry] = [] := by simp [fixedUpNames, unnamed]
      rw [none_obtained]
      exact ⟨state.rt, rfl, .refl _, inv⟩
  | some ptr =>
      obtain ⟨name, named, decoded⟩ := inv.spells image below now
      obtain ⟨⟨middle, interned⟩, result⟩ := Option.isSome_iff_exists.mp (internSelectorName_total state.rt decoded)
      obtain ⟨inv1, grows, _, bound, selectors, next, table⟩ := internSelectorName_spec inv.sel result
      simp only [Option.bind_eq_bind, decoded, Option.bind_some, result]
      refine ⟨_, rfl, ⟨grows.strings, grows.nextString, grows.table, grows.nextSelector⟩, ?_⟩
      have atEntry : (middle.nameTable name).isSome = true ∧ some interned = middle.nameTable name := by
        rw [bound]
        exact ⟨rfl, rfl⟩
      have kept : ∀ {sel n}, (state.rt.nameTable n).isSome = true →
          (state.rt.selectors sel).name = state.rt.nameTable n →
          (middle.nameTable n).isSome = true ∧ (middle.selectors sel).name = middle.nameTable n :=
        fun {sel n} => grows.name_kept (congrFun selectors sel)
      refine ⟨inv1.patch below _, inv.grows.trans ⟨grows.strings, grows.nextString, grows.table, grows.nextSelector⟩,
        fun sel compiled => ?_, fun other member => ?_, fun sel n member => ?_, fun sel n member => ?_⟩
      · dsimp only
        by_cases same : sel = entry
        · rw [same, Function.update_self]
          exact .inr ⟨name, named, atEntry⟩
        · rw [Function.update_of_ne same]
          rcases inv.compiled sel compiled with source | ⟨n, isNamed, isBound, fixed⟩
          · exact .inl (selectors ▸ source)
          · exact .inr ⟨n, isNamed, kept isBound fixed⟩
      · dsimp only
        rcases List.mem_append.mp member with new | before
        · obtain ⟨sel, n, rfl⟩ := mem_fixedUpNames new
          obtain ⟨inside, isNamed⟩ := fixedUpNames_of_named new
          obtain rfl := List.mem_singleton.mp inside
          obtain rfl : name = n := Option.some.inj (named.symm.trans isNamed)
          rw [Obtained.sel, Obtained.name, Function.update_self]
          exact atEntry
        · obtain ⟨isBound, same⟩ := inv.obtained other before
          by_cases here : other.sel = entry
          · -- An entry that was fixed up before gets the same pointer again.
            have sameName : other.name = name := by
              cases other with
              | returned sel n =>
                  have above := (inv.sel.sels n sel (inv.returned sel n before)).1
                  exact absurd below (Nat.not_lt.mpr (here ▸ above))
              | fixedUp sel n =>
                  obtain rfl : sel = entry := here
                  exact Option.some.inj ((inv.fixedUp sel n before).2.symm.trans named)
            rw [here, sameName, Function.update_self]
            exact atEntry
          · rw [Function.update_of_ne here]
            exact kept isBound same
      · rcases List.mem_append.mp member with new | before
        · obtain ⟨_, _, same⟩ := mem_fixedUpNames new
          contradiction
        · dsimp only
          rw [table]
          exact inv.returned sel n before
      · rcases List.mem_append.mp member with new | before
        · obtain ⟨inside, isNamed⟩ := fixedUpNames_of_named new
          rw [List.mem_singleton.mp inside]
          exact ⟨below, List.mem_singleton.mp inside ▸ isNamed⟩
        · exact inv.fixedUp sel n before

/-- The loop fixes every entry of an array, in any order and with repetitions. -/
theorem IdentityInv.loop (image : SelectorImage rt0) {sels : List SEL} (inv : IdentityInv rt0 state)
    (compiled : ∀ sel ∈ sels, sel < rt0.nextSelector) :
    ∃ rt', loadSelectors state.rt sels = some rt' ∧ Grows state.rt rt' ∧
      IdentityInv rt0 ⟨rt', fixedUpNames rt0 sels ++ state.obtained⟩ := by
  induction sels generalizing state with
  | nil => exact ⟨state.rt, rfl, .refl _, inv⟩
  | cons entry rest ih =>
      obtain ⟨middle, turn, grows1, inv1⟩ := inv.turn image (compiled entry List.mem_cons_self)
      obtain ⟨rt', later, grows2, inv2⟩ := ih inv1 fun sel member => compiled sel (List.mem_cons_of_mem entry member)
      refine ⟨rt', ?_, grows1.trans grows2, inv2.of_mem fun other member => ?_⟩
      · rw [loadSelectors, List.foldlM_cons, turn]
        exact later
      · have split : fixedUpNames rt0 (entry :: rest) = fixedUpNames rt0 [entry] ++ fixedUpNames rt0 rest := by
          rw [fixedUpNames, fixedUpNames, fixedUpNames, ← List.filterMap_append, List.singleton_append]
        rw [split] at member
        simp only [List.mem_append] at member ⊢
        tauto

/-- Every permitted call returns, keeps what was obtained, and keeps the invariant. -/
theorem IdentityInv.step (inv : IdentityInv rt0 state) (image : SelectorImage rt0) {op : InternOp}
    (allowed : op.Permitted rt0 state) :
    ∃ next, op.exec rt0 state = some next ∧ Grows state.rt next.rt ∧
      (∀ entry ∈ state.obtained, entry ∈ next.obtained) ∧ IdentityInv rt0 next := by
  have registers : ∀ {name cstr}, CStr.ofStr name = some cstr → ∃ rt' sel,
      selRegisterNameStr state.rt name = some (rt', sel) ∧ Grows state.rt rt' ∧
        IdentityInv rt0 ⟨rt', .returned sel name :: state.obtained⟩ := by
    intro name cstr encoded
    obtain ⟨rt', sel, result⟩ := selRegisterNameStr_total state.rt encoded
    exact ⟨rt', sel, result, (selRegisterNameStr_spec inv.sel result).2.1, inv.register result⟩
  cases op with
  | registerNameStr name =>
      obtain ⟨cstr, encoded⟩ := Option.isSome_iff_exists.mp allowed
      obtain ⟨rt', sel, result, grows, inv'⟩ := registers encoded
      refine ⟨_, ?_, grows, fun entry member => List.mem_cons_of_mem _ member, inv'⟩
      rw [InternOp.exec, result]
      rfl
  | registerNameCstr name =>
      obtain ⟨cstr, encoded⟩ := name.ofStr_toStringLossy
      obtain ⟨rt', sel, result, grows, inv'⟩ := registers encoded
      refine ⟨_, ?_, grows, fun entry member => List.mem_cons_of_mem _ member, inv'⟩
      rw [InternOp.exec, selRegisterNameCstr, result]
      rfl
  | loadSelectors sels =>
      obtain ⟨rt', result, grows, inv'⟩ := inv.loop image allowed
      refine ⟨_, ?_, grows, fun entry member => List.mem_append_right _ member, inv'⟩
      rw [InternOp.exec, result]
      rfl

/-- Each of several selectors is its name. -/
structure SelectorIdentity (state : Interning) : Prop where
  selEq_iff : ∀ a ∈ state.obtained, ∀ b ∈ state.obtained, selEq state.rt a.sel b.sel = true ↔ a.name = b.name
  getName : ∀ a ∈ state.obtained, ∃ ptr, selGetName state.rt a.sel = some ptr ∧
    (state.rt.cStrings ptr).toStr = some a.name
  unique : ∀ s t name, .returned s name ∈ state.obtained → .returned t name ∈ state.obtained → s = t

theorem IdentityInv.identity (inv : IdentityInv rt0 state) : SelectorIdentity state where
  selEq_iff a inA b inB := by
    obtain ⟨bound, same⟩ := inv.obtained a inA
    obtain ⟨_, same'⟩ := inv.obtained b inB
    rw [selEq, selNamePtr, selNamePtr, beq_iff_eq, same, same']
    exact ⟨inv.sel.injective bound, fun equal => by rw [equal]⟩
  getName a member := by
    obtain ⟨bound, same⟩ := inv.obtained a member
    obtain ⟨ptr, interned⟩ := Option.isSome_iff_exists.mp bound
    exact ⟨ptr, same.trans interned, (inv.sel.names a.name ptr interned).2⟩
  unique s t name first second :=
    Option.some.inj ((inv.returned s name first).symm.trans (inv.returned t name second))

end Steps

section Runs

variable {rt0 : Runtime} {state later : Interning}

theorem SelectorImage.identityInv_of_run (image : SelectorImage rt0)
    (run : Reachable (InternOp.exec rt0) (InternOp.Permitted rt0) ⟨rt0, []⟩ state) : IdentityInv rt0 state := by
  apply run.invariant (IdentityInv rt0) image.identityInv
  intro current op next inv allowed result
  obtain ⟨_, result', _, _, inv'⟩ := inv.step image allowed
  rw [result] at result'
  exact Option.some.inj result' ▸ inv'

/-- Later calls keep every selector obtained so far and its name pointer. -/
theorem IdentityInv.kept (inv : IdentityInv rt0 state) (image : SelectorImage rt0)
    (run : Reachable (InternOp.exec rt0) (InternOp.Permitted rt0) state later) :
    ∀ entry ∈ state.obtained,
      entry ∈ later.obtained ∧ selGetName later.rt entry.sel = selGetName state.rt entry.sel := by
  have whole : Grows state.rt later.rt ∧ (∀ entry ∈ state.obtained, entry ∈ later.obtained) ∧
      IdentityInv rt0 later := by
    apply run.invariant (fun last => Grows state.rt last.rt ∧
      (∀ entry ∈ state.obtained, entry ∈ last.obtained) ∧ IdentityInv rt0 last)
    · exact ⟨.refl _, fun _ member => member, inv⟩
    · rintro current op next ⟨grows, more, inv1⟩ allowed result
      obtain ⟨_, result', grows', more', inv'⟩ := inv1.step image allowed
      rw [result] at result'
      obtain rfl := Option.some.inj result'
      exact ⟨grows.trans grows', fun entry member => more' entry (more entry member), inv'⟩
  obtain ⟨grows, more, inv'⟩ := whole
  intro entry member
  obtain ⟨bound, same⟩ := inv.obtained entry member
  refine ⟨more entry member, ?_⟩
  rw [selGetName, selGetName, selNamePtr, selNamePtr, same, (inv'.obtained entry (more entry member)).2,
    grows.nameTable_eq bound]

end Runs

/-- After any calls in any order the selectors obtained so far are equal exactly when their names are. -/
theorem interning_identifies {rt0 : Runtime} (image : SelectorImage rt0) {state : Interning}
    (run : Reachable (InternOp.exec rt0) (InternOp.Permitted rt0) ⟨rt0, []⟩ state) :
    SelectorIdentity state ∧
      (∀ op : InternOp, op.Permitted rt0 state → ∃ next, op.exec rt0 state = some next) ∧
      ∀ later, Reachable (InternOp.exec rt0) (InternOp.Permitted rt0) state later →
        ∀ entry ∈ state.obtained, entry ∈ later.obtained ∧
          selGetName later.rt entry.sel = selGetName state.rt entry.sel := by
  have inv := image.identityInv_of_run run
  refine ⟨inv.identity, fun op allowed => ?_, fun later after => inv.kept image after⟩
  obtain ⟨next, result, _⟩ := inv.step image allowed
  exact ⟨next, result⟩

theorem compiledPair_selectors : SelectorImage compiledPair where
  tables _ := ⟨rfl, rfl⟩
  named sel below ptr source := by
    have inside : ptr < 2 ∧ (compiledPair.cStrings ptr).toStr.isSome = true := by
      have each : ∀ s < 3, ∀ p ∈ (compiledPair.selectors s).name,
          p < 2 ∧ (compiledPair.cStrings p).toStr.isSome = true := by decide +kernel
      exact each sel below ptr source
    exact inside

/-- The loader fixes the section up twice, around a registration of one of its names. -/
theorem interning_identifies_compiledPair : ∃ state : Interning,
    .fixedUp 2 "h" ∈ state.obtained ∧ .returned 3 "h" ∈ state.obtained ∧ SelectorIdentity state := by
  have ran : ∃ state ∈ replay (InternOp.exec compiledPair) (InternOp.Permitted compiledPair) ⟨compiledPair, []⟩
      [.loadSelectors [0, 1, 2], .registerNameStr "h", .loadSelectors [2, 2]],
      .fixedUp 2 "h" ∈ state.obtained ∧ .returned 3 "h" ∈ state.obtained := by decide +kernel
  obtain ⟨state, run, fixed, returned⟩ := exists_reachable_of_replay ran
  exact ⟨state, fixed, returned, (interning_identifies compiledPair_selectors run).1⟩

end O3jc
