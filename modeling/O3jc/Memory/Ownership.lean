import O3jc.Memory.Invariant

/-
This file proves that no interleaving of threads that release only what they own and pass on only what they own loses
a strong reference.
-/

namespace O3jc

open Library

section Frames

variable {Tid Obj Loc Stripe : Type} [DecidableEq Tid] [DecidableEq Obj] [DecidableEq Loc] [DecidableEq Stripe]
  {stripe : Loc → Stripe} {m next : Machine Tid Obj Loc Stripe} {thread other : Tid} {op : MemOp Tid Obj Loc}
  {obj : Obj}

/-- A step moves its own thread only. -/
theorem Machine.step_call_of_ne (result : m.step stripe (thread, op) = some next) (different : other ≠ thread) :
    next.call other = m.call other := by
  cases Machine.step_effect result with
  | allocate user => rfl
  | give user => rfl
  | releaseNull user => rfl
  | release user kept => rfl
  | _ => exact Function.update_of_ne different ..

/-- A step takes references from its own thread only. -/
theorem Machine.step_refs_of_ne (result : m.step stripe (thread, op) = some next) (different : other ≠ thread)
    (owned : (other, obj) ∈ m.refs) : (other, obj) ∈ next.refs := by
  have kept : ∀ o, (other, obj) ∈ m.refs.erase (thread, o) := fun o =>
    (List.mem_erase_of_ne (by simp [different])).mpr owned
  have gained : ∀ retained, (other, obj) ∈ gain m.refs thread retained := by
    intro retained
    cases retained with
    | none => exact owned
    | some o => exact List.mem_cons_of_mem _ owned
  cases Machine.step_effect result with
  | allocate user => exact List.mem_cons_of_mem _ owned
  | give user => exact List.mem_cons_of_mem _ (kept _)
  | retain user => exact gained _
  | release user released => exact kept _
  | dealloc user dropped => exact kept _
  | retainLoaded phase => exact gained _
  | _ => exact owned

end Frames

section Runs

variable {Tid Obj Loc Stripe : Type} [DecidableEq Tid] [DecidableEq Obj]

/-- The object that an operation may name only for the owner of a reference. -/
def MemOp.uses : MemOp Tid Obj Loc → Option Obj
  | .give _ obj => some obj
  | .retain obj => obj
  | .release obj => obj
  | .initWeak _ obj => obj
  | .storeWeak _ new => new
  | _ => none

/-- Threads allocate unused addresses, and release and pass on only objects that they own a reference to. -/
def Machine.Owned (m : Machine Tid Obj Loc Stripe) (label : Tid × MemOp Tid Obj Loc) : Prop :=
  match label.2 with
  | .allocate obj => refCount m.refs obj = 0 ∧ m.deallocator obj = none
  | op => ∀ obj ∈ op.uses, (label.1, obj) ∈ m.refs

instance (m : Machine Tid Obj Loc Stripe) (label : Tid × MemOp Tid Obj Loc) : Decidable (m.Owned label) :=
  match label with
  | (_, .allocate _) => inferInstanceAs (Decidable (_ ∧ _))
  | (thread, .give _ obj) => inferInstanceAs (Decidable (∀ o ∈ some obj, (thread, o) ∈ m.refs))
  | (thread, .retain obj) => inferInstanceAs (Decidable (∀ o ∈ obj, (thread, o) ∈ m.refs))
  | (thread, .release obj) => inferInstanceAs (Decidable (∀ o ∈ obj, (thread, o) ∈ m.refs))
  | (thread, .initWeak _ obj) => inferInstanceAs (Decidable (∀ o ∈ obj, (thread, o) ∈ m.refs))
  | (thread, .storeWeak _ new) => inferInstanceAs (Decidable (∀ o ∈ new, (thread, o) ∈ m.refs))
  | (thread, .loadWeakRetained _) => inferInstanceAs (Decidable (∀ o ∈ none, (thread, o) ∈ m.refs))
  | (thread, .destroyWeak _) => inferInstanceAs (Decidable (∀ o ∈ none, (thread, o) ∈ m.refs))
  | (thread, .next) => inferInstanceAs (Decidable (∀ o ∈ none, (thread, o) ∈ m.refs))
  | (thread, .sendDealloc _) => inferInstanceAs (Decidable (∀ o ∈ none, (thread, o) ∈ m.refs))
  | (thread, .returnDealloc) => inferInstanceAs (Decidable (∀ o ∈ none, (thread, o) ∈ m.refs))

omit [DecidableEq Tid] in
theorem Machine.Owned.sound {m : Machine Tid Obj Loc Stripe} {label : Tid × MemOp Tid Obj Loc}
    (owned : m.Owned label) : m.Sound label := by
  obtain ⟨thread, op⟩ := label
  cases op with
  | allocate obj => exact owned
  | give other obj => exact owned obj rfl
  | retain obj => exact fun o isObj => .inl (owned o isObj)
  | release obj => exact owned
  | initWeak loc obj => exact fun o isObj => .inl (owned o isObj)
  | storeWeak loc new => exact fun o isObj => .inl (owned o isObj)
  | _ => trivial

/-- A thread owns the object that a call has just handed to it. -/
def Machine.ResultsOwned (m : Machine Tid Obj Loc Stripe) : Prop :=
  ∀ thread loc obj, m.call thread = .retained (some obj) ∨ m.call thread = .loaded loc (some obj) →
    (thread, obj) ∈ m.refs

variable [DecidableEq Loc] [DecidableEq Stripe] {stripe : Loc → Stripe} {m next : Machine Tid Obj Loc Stripe}
  {thread : Tid} {op : MemOp Tid Obj Loc}

omit [DecidableEq Tid] [DecidableEq Loc] [DecidableEq Stripe] in
theorem objcRetain_result {table : SideTable Obj Loc} {obj : Option Obj} {result : Obj}
    (isResult : (objcRetain table obj).2 = some result) : obj = some result := by
  cases obj with
  | none => contradiction
  | some obj =>
      simp only [objcRetain] at isResult
      split at isResult
      · contradiction
      · exact isResult

theorem Machine.ResultsOwned.step (inv : m.ResultsOwned) (result : m.step stripe (thread, op) = some next) :
    next.ResultsOwned := by
  intro other loc obj returned
  by_cases same : other = thread
  · subst same
    cases Machine.step_effect result with
    | allocate user => simp [user] at returned
    | give user => simp [user] at returned
    | releaseNull user => simp [user] at returned
    | release user kept => simp [user] at returned
    | retain user =>
        simp only [Machine.enter, Function.update_self] at returned ⊢
        obtain isResult | isLoaded := returned
        · rw [Call.retained.inj isResult]
          exact List.mem_cons_self
        · contradiction
    | retainLoaded phase =>
        simp only [Machine.unlock, Function.update_self] at returned ⊢
        obtain isRetained | isLoaded := returned
        · contradiction
        · rw [(Call.loaded.inj isLoaded).2]
          exact List.mem_cons_self
    | _ => simp [Machine.enter, Machine.lock, Machine.unlock] at returned
  · rw [Machine.step_call_of_ne result same] at returned
    exact Machine.step_refs_of_ne result same (inv other loc obj returned)

omit [DecidableEq Tid] [DecidableEq Loc] [DecidableEq Stripe] in
/-- A release of an owned object begins its deallocation exactly when it gives up the last reference. -/
theorem MemInv.drops_iff (inv : MemInv stripe m) {obj : Obj} (owned : (thread, obj) ∈ m.refs) :
    (releaseEntry m.table obj).2.isSome = true ↔ refCount m.refs obj = 1 := by
  rcases (inv.objects obj).release (refCount_pos owned) thread with ⟨more, _, released, _⟩ | ⟨last, _, released, _⟩
  · rw [released]
    constructor
    · intro dropped
      contradiction
    · omega
  · simp [released, last]

/-- A thread starts to deallocate an object by the release of the last reference and by nothing else. -/
theorem MemInv.begins_iff (inv : MemInv stripe m) (sound : m.Sound (thread, op))
    (result : m.step stripe (thread, op) = some next) {obj : Obj} {other : Tid}
    (before : m.deallocator obj ≠ some other) :
    next.deallocator obj = some other ↔ thread = other ∧ op = .release (some obj) ∧ refCount m.refs obj = 1 := by
  cases Machine.step_effect result with
  | @release released table user kept =>
      constructor
      · intro after
        exact absurd after before
      · rintro ⟨_, isRelease, last⟩
        obtain rfl : released = obj := by simpa using isRelease
        rw [← inv.drops_iff (sound released rfl), kept] at last
        contradiction
  | @dealloc released table weakLocations user dropped =>
      have last := inv.drops_iff (sound released rfl)
      rw [dropped] at last
      simp only [Machine.enter]
      by_cases isObj : obj = released
      · subst isObj
        rw [Function.update_self]
        constructor
        · intro after
          exact ⟨Option.some.inj after, rfl, last.mp rfl⟩
        · rintro ⟨same, _, _⟩
          rw [same]
      · rw [Function.update_of_ne isObj]
        constructor
        · intro after
          exact absurd after before
        · rintro ⟨_, isRelease, _⟩
          exact absurd (by simpa using isRelease) (Ne.symm isObj)
  | @remove removed phase =>
      simp only [Machine.enter]
      constructor
      · intro after
        by_cases isObj : obj = removed
        · rw [isObj, Function.update_self] at after
          contradiction
        · rw [Function.update_of_ne isObj] at after
          exact absurd after before
      · rintro ⟨_, isRelease, _⟩
        contradiction
  | releaseNull user =>
      constructor
      · intro after
        exact absurd after before
      · rintro ⟨_, isRelease, _⟩
        exact absurd isRelease (by simp)
  | _ =>
      constructor
      · intro after
        exact absurd after before
      · rintro ⟨_, isRelease, _⟩
        contradiction

/-- Only the message itself counts as one. -/
theorem Machine.step_deallocs (result : m.step stripe (thread, op) = some next) {obj : Obj}
    (more : m.deallocs obj < next.deallocs obj) :
    m.call thread = .zeroing obj [] ∧ ∃ found, op = .sendDealloc found := by
  have sent : ∀ o, m.deallocs obj < Function.update m.deallocs o (m.deallocs o + 1) obj → o = obj := by
    intro o more
    by_contra different
    rw [Function.update_of_ne (Ne.symm different)] at more
    omega
  cases Machine.step_effect result with
  | @allocate o user =>
      have update : m.deallocs obj < Function.update m.deallocs o 0 obj := more
      by_cases isObj : obj = o
      · rw [isObj, Function.update_self] at update
        omega
      · rw [Function.update_of_ne isObj] at update
        omega
  | @sendFound o phase =>
      obtain rfl := sent o more
      exact ⟨phase, true, rfl⟩
  | @sendMissing o phase =>
      obtain rfl := sent o more
      exact ⟨phase, false, rfl⟩
  | _ => exact absurd more (Nat.lt_irrefl _)

/-- What the owners of references and the callers of weak loads can rely on in a state. -/
structure Machine.StrongSafe (stripe : Loc → Stripe) (m : Machine Tid Obj Loc Stripe) : Prop where
  /-- A retain of an owned object returns it. -/
  retains : ∀ thread obj, m.call thread = .user → (thread, obj) ∈ m.refs →
    ∃ next, m.step stripe (thread, .retain (some obj)) = some next ∧ next.call thread = .retained (some obj)
  /-- No object gets `-dealloc` twice, and none that has references gets it or is being deallocated. -/
  once : ∀ obj, m.deallocs obj ≤ 1 ∧ (0 < refCount m.refs obj → m.deallocs obj = 0 ∧ m.deallocator obj = none)
  /-- Only the release of the last reference begins a deallocation. -/
  begins : ∀ thread op next obj other, m.Owned (thread, op) → m.step stripe (thread, op) = some next →
    m.deallocator obj ≠ some other →
      (next.deallocator obj = some other ↔ thread = other ∧ op = .release (some obj) ∧ refCount m.refs obj = 1)
  /-- The thread whose release gave up the last reference is the one that sends `-dealloc`. -/
  sends : ∀ thread op next obj, m.step stripe (thread, op) = some next → m.deallocs obj < next.deallocs obj →
    m.deallocator obj = some thread ∧ refCount m.refs obj = 0 ∧ ∃ found, op = .sendDealloc found
  /-- A release removes the entry only after it has sent the message. -/
  sent : ∀ thread obj, m.call thread = .removing obj → m.deallocs obj = 1
  /-- A weak load returns the object of the slot, alive and with its entry unmarked. -/
  loads : ∀ thread loc obj next result, m.call thread = .loading loc obj → m.step stripe (thread, .next) = some next →
    next.call thread = .loaded loc (some result) →
      result = obj ∧ 0 < refCount m.refs obj ∧ m.deallocator obj = none ∧
        ∃ entry, m.table obj = some entry ∧ entry.deallocating = false
  /-- The deallocation of a loaded object does not begin before the load returns. -/
  loaded : ∀ thread loc obj, m.call thread = .loaded loc (some obj) →
    (thread, obj) ∈ m.refs ∧ m.deallocator obj = none ∧ m.deallocs obj = 0

omit [DecidableEq Tid] [DecidableEq Loc] in
theorem ObjectState.deallocating_eq_false {count : Nat} {entry : SideTableEntry Loc}
    (state : ObjectState count (none : Option Tid) (some entry)) : 0 < count ∧ entry.deallocating = false := by
  cases state with
  | counted locs positive => exact ⟨positive, rfl⟩

theorem MemInv.strongSafe (inv : MemInv stripe m) (results : m.ResultsOwned) : m.StrongSafe stripe where
  retains thread obj user owned := by
    have success : (objcRetain m.table (some obj)).2 = some obj := by
      rcases (inv.objects obj).retain (.inl (refCount_pos owned)) with ⟨_, success, _⟩ | ⟨dying, _⟩
      · exact success
      · exact absurd (inv.deallocator_of_owned owned) dying
    apply Exists.intro
    constructor
    · simp only [Machine.step, user, Machine.invoke]
      rfl
    · simp only [Machine.enter, Function.update_self, success]
  once obj := by
    obtain ⟨once, alive, _⟩ := inv.deallocs obj
    exact ⟨once, fun positive => ⟨alive positive, (inv.objects obj).deallocator_eq_none positive⟩⟩
  begins thread op next obj other owned result before := inv.begins_iff owned.sound result before
  sends thread op next obj result more := by
    obtain ⟨phase, found, isSend⟩ := Machine.step_deallocs result more
    have dying : m.deallocator obj = some thread := inv.deallocator_of_dying (by rw [phase]; exact .head [])
    have state := inv.objects obj
    rw [dying] at state
    exact ⟨dying, state.count_eq_zero, found, isSend⟩
  sent thread obj phase := by
    obtain ⟨once, _, sent⟩ := inv.deallocs obj
    have isSent := sent thread (inv.deallocator_of_dying (by rw [phase]; exact .head []))
    have : m.deallocs obj ≠ 0 := by
      rw [ne_eq, isSent, phase]
      simp
    omega
  loads thread loc obj next result phase step returned := by
    simp only [Machine.step, Machine.advance, phase] at step
    obtain rfl := Option.some.inj step
    simp only [Machine.unlock, Function.update_self] at returned
    have isResult := (Call.loaded.inj returned).2
    have present := inv.weak.isSome_of_listed (inv.loads thread loc obj phase)
    rcases (inv.objects obj).retain (.inr present) with ⟨alive, _⟩ | ⟨_, failure, _⟩
    · obtain ⟨entry, isEntry⟩ := Option.isSome_iff_exists.mp present
      have state := inv.objects obj
      rw [alive, isEntry] at state
      obtain ⟨positive, unmarked⟩ := state.deallocating_eq_false
      exact ⟨(Option.some.inj (objcRetain_result isResult)).symm, positive, alive, entry, isEntry, unmarked⟩
    · rw [failure] at isResult
      contradiction
  loaded thread loc obj phase := by
    have owned := results thread loc obj (.inr phase)
    exact ⟨owned, inv.deallocator_of_owned owned, (inv.deallocs obj).2.1 (refCount_pos owned)⟩

/-- In every interleaving of threads that release and pass on only what they own, strong references are safe. -/
theorem ownedRun_strongSafe
    (run : Reachable (Machine.step stripe) Machine.Owned (Machine.start : Machine Tid Obj Loc Stripe) m) :
    m.StrongSafe stripe := by
  have both : MemInv stripe m ∧ m.ResultsOwned := by
    apply run.invariant fun state => MemInv stripe state ∧ state.ResultsOwned
    · exact ⟨MemInv.start, fun thread loc obj returned => by simp [Machine.start] at returned⟩
    · rintro state ⟨thread, op⟩ next ⟨inv, results⟩ owned result
      exact ⟨inv.step owned.sound result, results.step result⟩
  exact both.1.strongSafe both.2

end Runs

/-- Thread 1 stores object 5 into slot 9 and gives up its reference. Thread 0 loads the object from the slot and gives
up the last references. -/
theorem ownedRun_strongSafe_loaded :
    ∃ m : Machine (Fin 2) Nat Nat Nat, m.deallocs 5 = 1 ∧ m.StrongSafe (· % 127) := by
  let labels : List (Fin 2 × MemOp (Fin 2) Nat Nat) :=
    [(0, .allocate 5), (0, .retain (some 5)), (0, .next), (0, .give 1 5), (1, .initWeak 9 (some 5)), (1, .next),
      (1, .next), (1, .next), (1, .next), (1, .release (some 5)), (0, .loadWeakRetained 9), (0, .next), (0, .next),
      (0, .release (some 5)), (0, .release (some 5)), (0, .next), (0, .sendDealloc true), (0, .returnDealloc),
      (0, .next)]
  have ran : ∃ m ∈ replay (Machine.step (· % 127)) Machine.Owned Machine.start labels, m.deallocs 5 = 1 :=
    ⟨_, rfl, rfl⟩
  obtain ⟨m, run, sent⟩ := exists_reachable_of_replay ran
  exact ⟨m, sent, ownedRun_strongSafe run⟩

end O3jc
