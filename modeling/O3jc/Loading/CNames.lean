import O3jc.Loading.Identity

/-
This file says which C strings `sel_registerName` interns faithfully.
-/

namespace O3jc

open Library

/-- Two registrations give one selector exactly for equal bytes, and the first name reads back byte for byte. -/
def RegistersFaithfully (rt : Runtime) (a b : CStr) : Prop :=
  ∀ rt1 selA rt2 selB, selRegisterNameCstr rt a = some (rt1, selA) → selRegisterNameCstr rt1 b = some (rt2, selB) →
    (selA = selB ↔ a = b) ∧ ∃ ptr, selGetName rt1 selA = some ptr ∧ rt1.cStrings ptr = a

/-- The first name is UTF-8, and the second one is UTF-8 or does not decode to the first one. -/
def DecodesFaithfully (a b : CStr) : Prop :=
  a.toStr.isSome = true ∧ (b.toStr.isSome = true ∨ b.toStringLossy ≠ a.toStringLossy)

instance decidableDecodesFaithfully (a b : CStr) : Decidable (DecodesFaithfully a b) :=
  inferInstanceAs (Decidable (_ ∧ (_ ∨ _)))

/-- A C string is the one that its lossy decoding names exactly when it is UTF-8. -/
theorem CStr.toStr_toStringLossy_iff (name : CStr) :
    name.toStr = some name.toStringLossy ↔ name.toStr.isSome = true := by
  constructor
  · intro decoded
    rw [decoded]
    rfl
  · intro valid
    obtain ⟨text, decoded⟩ := Option.isSome_iff_exists.mp valid
    rw [CStr.toStringLossy_of_toStr decoded, decoded]

section Registered

variable {rt0 : Runtime} {state : Interning}

/-- Registered selectors are equal exactly when the decoded names are. -/
theorem IdentityInv.returned_eq_iff (inv : IdentityInv rt0 state) {selA selB : SEL} {a b : String}
    (first : .returned selA a ∈ state.obtained) (second : .returned selB b ∈ state.obtained) :
    selA = selB ↔ a = b := by
  constructor
  · intro same
    exact (inv.identity.selEq_iff _ first _ second).mp (by rw [Obtained.sel, Obtained.sel, same]; exact selEq_self _ _)
  · rintro rfl
    exact inv.identity.unique _ _ a first second

/-- Both calls return, and they are faithful exactly when the decoding is. -/
theorem IdentityInv.registersFaithfully_iff (inv : IdentityInv rt0 state) (a b : CStr) :
    (∃ rt1 selA rt2 selB, selRegisterNameCstr state.rt a = some (rt1, selA) ∧
      selRegisterNameCstr rt1 b = some (rt2, selB)) ∧
    (RegistersFaithfully state.rt a b ↔ DecodesFaithfully a b) := by
  obtain ⟨_, encodedA⟩ := a.ofStr_toStringLossy
  obtain ⟨_, encodedB⟩ := b.ofStr_toStringLossy
  obtain ⟨rt1, selA, resultA⟩ := selRegisterNameStr_total state.rt encodedA
  obtain ⟨rt2, selB, resultB⟩ := selRegisterNameStr_total rt1 encodedB
  have inv1 := inv.register resultA
  have inv2 := inv1.register resultB
  have selectors : selA = selB ↔ a.toStringLossy = b.toStringLossy :=
    inv2.returned_eq_iff (List.mem_cons_of_mem _ List.mem_cons_self) List.mem_cons_self
  obtain ⟨ptr, name, spelled⟩ := inv1.identity.getName _ List.mem_cons_self
  have spelled : (rt1.cStrings ptr).toStr = some a.toStringLossy := spelled
  have roundTrip : rt1.cStrings ptr = a ↔ a.toStr.isSome = true := by
    rw [← a.toStr_toStringLossy_iff]
    exact ⟨fun same => same ▸ spelled, fun decoded => CStr.eq_of_toStr spelled decoded⟩
  -- A UTF-8 name is told apart from another by the decoded texts, unless the other decodes to it by replacement.
  have toldApart : a.toStr.isSome = true →
      ((a.toStringLossy = b.toStringLossy ↔ a = b) ↔ b.toStr.isSome = true ∨ b.toStringLossy ≠ a.toStringLossy) := by
    intro validA
    constructor
    · intro faithful
      by_cases validB : b.toStr.isSome = true
      · exact .inl validB
      · exact .inr fun same => validB (faithful.mp same.symm ▸ validA)
    · intro decodes
      refine ⟨fun same => ?_, fun same => by rw [same]⟩
      have validB := decodes.resolve_right fun different => different same.symm
      rw [← CStr.toStr_toStringLossy_iff] at validA validB
      exact CStr.eq_of_toStr validA (same ▸ validB)
  refine ⟨⟨rt1, selA, rt2, selB, resultA, resultB⟩, fun faithful => ?_, fun decodes => ?_⟩
  · obtain ⟨apart, ptr', name', same⟩ := faithful rt1 selA rt2 selB resultA resultB
    obtain rfl : ptr = ptr' := Option.some.inj (name.symm.trans name')
    have validA := roundTrip.mp same
    exact ⟨validA, (toldApart validA).mp (selectors.symm.trans apart)⟩
  · intro rt1' selA' rt2' selB' resultA' resultB'
    obtain ⟨rfl, rfl⟩ := Prod.mk.inj (Option.some.inj (resultA.symm.trans resultA'))
    obtain ⟨rfl, rfl⟩ := Prod.mk.inj (Option.some.inj (resultB.symm.trans resultB'))
    exact ⟨selectors.trans ((toldApart decodes.1).mpr decodes.2), ptr, name, roundTrip.mpr decodes.1⟩

end Registered

/-- After any earlier calls two C names are interned faithfully exactly when they decode faithfully. -/
theorem selRegisterName_faithful_iff {rt0 : Runtime} (image : SelectorImage rt0) {state : Interning}
    (run : Reachable (InternOp.exec rt0) (InternOp.Permitted rt0) ⟨rt0, []⟩ state) (a b : CStr) :
    (∃ rt1 selA rt2 selB, selRegisterNameCstr state.rt a = some (rt1, selA) ∧
      selRegisterNameCstr rt1 b = some (rt2, selB)) ∧
    (RegistersFaithfully state.rt a b ↔ DecodesFaithfully a b) :=
  (image.identityInv_of_run run).registersFaithfully_iff a b

/-- A two-byte UTF-8 name, after its first byte alone and U+FFFD have been registered. -/
theorem selRegisterName_faithful_iff_compiledPair : ∃ state : Interning,
    .returned 3 "\uFFFD" ∈ state.obtained ∧
      RegistersFaithfully state.rt ⟨⟨#[0xC3, 0xA9]⟩, by decide⟩ ⟨⟨#[0xC3]⟩, by decide⟩ := by
  have ran : ∃ state ∈ replay (InternOp.exec compiledPair) (InternOp.Permitted compiledPair) ⟨compiledPair, []⟩
      [.registerNameCstr ⟨⟨#[0xC3]⟩, by decide⟩, .registerNameStr "\uFFFD"],
      .returned 3 "\uFFFD" ∈ state.obtained := by decide +kernel
  obtain ⟨state, run, returned⟩ := exists_reachable_of_replay ran
  refine ⟨state, returned, (selRegisterName_faithful_iff compiledPair_selectors run _ _).2.mpr ?_⟩
  decide +kernel

/-- Two different single bytes that are not UTF-8 are one selector. -/
theorem selRegisterName_collides : (∃ rt1 rt2 sel,
    selRegisterNameCstr compiledPair ⟨⟨#[0xFF]⟩, by decide⟩ = some (rt1, sel) ∧
      selRegisterNameCstr rt1 ⟨⟨#[0xFE]⟩, by decide⟩ = some (rt2, sel)) ∧
    ¬ RegistersFaithfully compiledPair ⟨⟨#[0xFF]⟩, by decide⟩ ⟨⟨#[0xFE]⟩, by decide⟩ := by
  have start := compiledPair_selectors.identityInv
  obtain ⟨⟨rt1, selA, rt2, selB, first, second⟩, faithful⟩ := start.registersFaithfully_iff
    ⟨⟨#[0xFF]⟩, by decide⟩ ⟨⟨#[0xFE]⟩, by decide⟩
  constructor
  · have inv1 := start.register first
    have inv2 := inv1.register second
    have same : selA = selB := (inv2.returned_eq_iff (List.mem_cons_of_mem _ List.mem_cons_self)
      List.mem_cons_self).mpr (by decide +kernel)
    exact ⟨rt1, rt2, selA, first, same ▸ second⟩
  · rw [faithful]
    decide +kernel

end O3jc
