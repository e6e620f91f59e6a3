import O3jc.Memory.Locks

/-
This file proves when the zeroing loop of `do_dealloc` respects later stores to its slots and the destruction of its
slots.
-/

namespace O3jc

open Library

section Positions

variable {Obj Loc : Type}

/-- The slot that the next step of a thread writes. -/
def Call.writes : Call Obj Loc → Option Loc
  | .registering loc _ => some loc
  | .clearing loc => some loc
  | .zeroing _ (loc :: _) => some loc
  | _ => none

/-- The slot that a thread stores to or destroys. -/
def Call.changes : Call Obj Loc → Option Loc
  | .unregistering loc _ _ => some loc
  | .registering loc _ => some loc
  | .destroying loc _ => some loc
  | .clearing loc => some loc
  | _ => none

theorem Call.changes_holding {call : Call Obj Loc} {loc : Loc} (changes : call.changes = some loc) :
    call.holding = some loc := by
  cases call <;> first | exact changes | contradiction

theorem Call.changes_or_toZero_of_writes {call : Call Obj Loc} {loc : Loc} (writes : call.writes = some loc) :
    call.changes = some loc ∨ loc ∈ call.toZero := by
  cases call with
  | registering l new => exact .inl writes
  | clearing l => exact .inl writes
  | zeroing obj remaining =>
      cases remaining with
      | nil => contradiction
      | cons l rest =>
          obtain rfl : l = loc := Option.some.inj writes
          exact .inr (.head rest)
  | _ => contradiction

end Positions

section Runs

variable {Tid Obj Loc Stripe : Type} [DecidableEq Tid] [DecidableEq Obj] [DecidableEq Loc] [DecidableEq Stripe]
  {stripe : Loc → Stripe} {m next later : Machine Tid Obj Loc Stripe} {thread : Tid} {op : MemOp Tid Obj Loc}
  {loc : Loc} {value : Option Obj}

/-- A slot changes only by the write of a position or by an initialisation. -/
theorem Machine.step_slots (result : m.step stripe (thread, op) = some next)
    (quiet : (m.call thread).writes ≠ some loc) (noInit : ∀ obj, op ≠ .initWeak loc obj) :
    next.slots loc = m.slots loc := by
  have kept : ∀ l value, l ≠ loc → Function.update m.slots l value loc = m.slots loc := fun l value different =>
    Function.update_of_ne (Ne.symm different) ..
  have apart : ∀ {l call}, m.call thread = call → call.writes = some l → l ≠ loc := by
    rintro l call rfl writes rfl
    exact quiet writes
  cases Machine.step_effect result with
  | @initNull l user => exact kept l none fun same => noInit none (by rw [same])
  | @init l obj user => exact kept l none fun same => noInit (some obj) (by rw [same])
  | register phase => exact kept _ _ (apart phase rfl)
  | clear phase => exact kept _ _ (apart phase rfl)
  | zero phase unlocked => exact kept _ _ (apart phase rfl)
  | _ => rfl

/-- Nobody begins to store to the location, to destroy it or to initialise it. -/
def Machine.Leaves (m : Machine Tid Obj Loc Stripe) (loc : Loc) (label : Tid × MemOp Tid Obj Loc) : Prop :=
  match label.2 with
  | .initWeak l _ => l ≠ loc
  | .destroyWeak l => l ≠ loc
  | .next => (m.call label.1).awaits ≠ some loc
  | _ => True

/-- Nobody stores to the location or destroys it, and no zeroing loop has it still to write. -/
structure Machine.Undisturbed (m : Machine Tid Obj Loc Stripe) (loc : Loc) : Prop where
  changes : ∀ thread, (m.call thread).changes ≠ some loc
  toZero : ∀ thread, loc ∉ (m.call thread).toZero

/-- A location stays undisturbed while nobody begins to work on it and no object that lists it is deallocated. -/
theorem Machine.Undisturbed.step {loc : Loc} (quiet : m.Undisturbed loc) (leaves : m.Leaves loc (thread, op))
    (result : m.step stripe (thread, op) = some next)
    (spared : ∀ obj locs, next.call thread = .zeroing obj locs → op = .release (some obj) → loc ∉ locs) :
    next.Undisturbed loc := by
  have own : (next.call thread).changes ≠ some loc ∧ loc ∉ (next.call thread).toZero := by
    have before := quiet.changes thread
    have pending := quiet.toZero thread
    cases Machine.step_effect result with
    | allocate user => exact ⟨before, pending⟩
    | give user => exact ⟨before, pending⟩
    | releaseNull user => exact ⟨before, pending⟩
    | release user kept => exact ⟨before, pending⟩
    | dealloc user dropped =>
        simp only [Machine.enter, Function.update_self] at spared ⊢
        exact ⟨by simp [Call.changes], spared _ _ rfl rfl⟩
    | @acquire l new phase unlocked =>
        simp only [Machine.lock, Function.update_self]
        refine ⟨fun same => leaves ?_, List.not_mem_nil⟩
        rw [phase]
        exact same
    | unregister phase =>
        simp only [Machine.enter, Function.update_self]
        rw [phase] at before
        exact ⟨before, List.not_mem_nil⟩
    | unregisterDestroyed phase =>
        simp only [Machine.enter, Function.update_self]
        rw [phase] at before
        exact ⟨before, List.not_mem_nil⟩
    | destroy user unlocked =>
        simp only [Machine.lock, Function.update_self]
        exact ⟨fun same => leaves (Option.some.inj same), List.not_mem_nil⟩
    | zero phase unlocked =>
        simp only [Machine.enter, Function.update_self]
        rw [phase] at pending
        exact ⟨by simp [Call.changes], fun member => pending (List.mem_cons_of_mem _ member)⟩
    | _ => simp [Machine.enter, Machine.lock, Machine.unlock, Call.changes, Call.toZero]
  constructor
  · intro other
    by_cases same : other = thread
    · rw [same]
      exact own.1
    · rw [Machine.step_call_of_ne result same]
      exact quiet.changes other
  · intro other
    by_cases same : other = thread
    · rw [same]
      exact own.2
    · rw [Machine.step_call_of_ne result same]
      exact quiet.toZero other

/-- The last reference to the object is not given up. -/
def Machine.Spares (m : Machine Tid Obj Loc Stripe) (value : Option Obj) (label : Tid × MemOp Tid Obj Loc) : Prop :=
  ∀ obj ∈ value, label.2 = .release (some obj) → refCount m.refs obj ≠ 1

/-- The steps of runs in which a slot is neither stored to nor destroyed and its object not deallocated. -/
def Machine.Leaving (loc : Loc) (value : Option Obj) (m : Machine Tid Obj Loc Stripe)
    (label : Tid × MemOp Tid Obj Loc) : Prop :=
  m.Orderly label ∧ m.Leaves loc label ∧ m.Spares value label

omit [DecidableEq Tid] [DecidableEq Loc] [DecidableEq Stripe] in
theorem orderly_next (thread : Tid) : m.Orderly (thread, .next) := ⟨by simp [Machine.Owned, MemOp.uses], trivial⟩

omit [DecidableEq Tid] [DecidableEq Loc] [DecidableEq Stripe] in
theorem Machine.Advances.leaving {label : Tid × MemOp Tid Obj Loc} (advances : m.Advances label) :
    Machine.Leaving loc value m label := by
  obtain ⟨thread, op⟩ := label
  obtain ⟨rfl, idle⟩ := advances
  refine ⟨orderly_next thread, ?_, by simp [Machine.Spares]⟩
  show (m.call thread).awaits ≠ some loc
  rw [idle]
  simp

/-- A slot holds this value, nobody is about to change it, and the object is alive. -/
structure Machine.Holds (m : Machine Tid Obj Loc Stripe) (loc : Loc) (value : Option Obj) : Prop where
  undisturbed : m.Undisturbed loc
  slot : m.slots loc = value
  alive : ∀ obj ∈ value, m.deallocator obj = none

section Sections

variable (agree : SlotExact loc m.table m.slots m.call) (inv : MemInv stripe m)

include agree inv

theorem Machine.Holds.step (holds : m.Holds loc value) (leaving : Machine.Leaving loc value m (thread, op))
    (result : m.step stripe (thread, op) = some next) : next.Holds loc value := by
  obtain ⟨⟨owned, _⟩, leaves, spares⟩ := leaving
  have quiet : (m.call thread).writes ≠ some loc := by
    intro writes
    rcases Call.changes_or_toZero_of_writes writes with changes | pending
    · exact holds.undisturbed.changes thread changes
    · exact holds.undisturbed.toZero thread pending
  have spared : ∀ obj locs, next.call thread = .zeroing obj locs → op = .release (some obj) → loc ∉ locs := by
    rintro obj locs zeroing rfl member
    cases Machine.step_effect result with
    | release user kept =>
        rw [user] at zeroing
        contradiction
    | dealloc user dropped =>
        simp only [Machine.enter, Function.update_self] at zeroing
        obtain ⟨_, rfl⟩ := Call.zeroing.inj zeroing
        rw [eq_registered_of_releaseEntry (congrArg Prod.snd dropped)] at member
        apply spares obj (holds.slot.symm.trans (agree.lists obj member)) rfl
        rw [← inv.drops_iff (owned obj rfl), dropped]
        rfl
  constructor
  · exact holds.undisturbed.step leaves result spared
  · rw [← holds.slot]
    apply Machine.step_slots result quiet
    rintro obj rfl
    exact leaves rfl
  · intro obj isValue
    by_contra dying
    obtain ⟨other, isDying⟩ := Option.ne_none_iff_exists'.mp dying
    have before : m.deallocator obj ≠ some other := by
      rw [holds.alive obj isValue]
      simp
    obtain ⟨_, isRelease, last⟩ := (inv.begins_iff owned.sound result before).mp isDying
    exact spares obj isValue isRelease last

omit agree [DecidableEq Loc] in
/-- Nobody else works on a slot while a thread has locked it. -/
theorem MemInv.undisturbed (holding : (m.call thread).holding = some loc)
    (apart : ∀ other, loc ∉ (m.call other).toZero) {table : SideTable Obj Loc} {slots : Loc → Option Obj}
    {entered : Call Obj Loc} (idle : entered.changes = none ∧ entered.toZero = []) :
    ({ m with table, slots }.unlock stripe thread loc entered).Undisturbed loc := by
  constructor <;> intro other <;> simp only [Machine.unlock] <;> by_cases same : other = thread
  · simp [same, idle.1]
  · rw [Function.update_of_ne same]
    intro changes
    exact same (inv.locks.unique (Call.changes_holding changes) holding)
  · simp [same, idle.2]
  · rw [Function.update_of_ne same]
    exact apart other

omit agree in
/-- A store that returned an object leaves its slot holding the object. -/
theorem MemInv.holds_stored {obj : Obj} (phase : m.call thread = .registering loc (some obj))
    (apart : ∀ other, loc ∉ (m.call other).toZero) (result : m.step stripe (thread, .next) = some next)
    (returned : next.call thread = .stored loc (some obj)) : next.Holds loc (some obj) := by
  simp only [Machine.step, Machine.advance, phase] at result
  obtain rfl := Option.some.inj result
  simp only [Machine.unlock, Function.update_self] at returned
  have isStored := (Call.stored.inj returned).2
  have passes := known_of_passes (inv.stores thread obj (by rw [phase]; rfl))
  constructor
  · exact inv.undisturbed (by rw [phase]; rfl) apart ⟨rfl, rfl⟩
  · simp only [Machine.unlock, Function.update_self]
    exact isStored
  · intro _ isObj
    rw [← Option.some.inj isObj]
    rcases (inv.objects obj).register passes loc with ⟨alive, _⟩ | ⟨_, failure, _⟩
    · exact alive
    · rw [failure] at isStored
      contradiction

omit agree in
/-- A destruction leaves its slot holding nothing. -/
theorem MemInv.holds_destroyed (phase : m.call thread = .clearing loc) (apart : ∀ other, loc ∉ (m.call other).toZero)
    (result : m.step stripe (thread, .next) = some next) : next.Holds loc none := by
  simp only [Machine.step, Machine.advance, phase] at result
  obtain rfl := Option.some.inj result
  constructor
  · exact inv.undisturbed (by rw [phase]; rfl) apart ⟨rfl, rfl⟩
  · simp only [Machine.unlock, Function.update_self]
  · simp

end Sections

/-- The invariant of a slot, with the invariants of the memory calls and of the locks. -/
structure SlotInv (stripe : Loc → Stripe) (loc : Loc) (m : Machine Tid Obj Loc Stripe) : Prop where
  memory : MemInv stripe m
  agree : SlotExact loc m.table m.slots m.call
  taken : LocksTaken stripe m.locks m.call

omit [DecidableEq Tid] [DecidableEq Stripe] in
theorem SlotInv.start : SlotInv stripe loc (Machine.start : Machine Tid Obj Loc Stripe) where
  memory := MemInv.start
  agree := SlotExact.start
  taken _ _ isTaken := absurd isTaken (by simp [Machine.start])

theorem SlotInv.step (inv : SlotInv stripe loc m) (orderly : m.Orderly (thread, op))
    (apart : m.WritesApart loc (thread, op)) (result : m.step stripe (thread, op) = some next) :
    SlotInv stripe loc next where
  memory := inv.memory.step orderly.1.sound result
  agree := inv.agree.step inv.memory orderly.2 apart result
  taken := inv.taken.step result

omit [DecidableEq Tid] [DecidableEq Obj] [DecidableEq Loc] [DecidableEq Stripe] in
/-- Nobody fills or destroys an undisturbed slot, and no zeroing loop has it left. -/
theorem Machine.Undisturbed.writesApart (quiet : m.Undisturbed loc) (label : Tid × MemOp Tid Obj Loc) :
    m.WritesApart loc label := by
  obtain ⟨thread, op⟩ := label
  cases op with
  | next => exact fun _ => quiet.toZero
  | _ => trivial

/-- Both parts of the invariant along a run that leaves a slot alone. -/
theorem Machine.Holds.run (holds : m.Holds loc value) (inv : SlotInv stripe loc m)
    (run : Reachable (Machine.step stripe) (Machine.Leaving loc value) m later) :
    SlotInv stripe loc later ∧ later.Holds loc value := by
  apply run.invariant fun state => SlotInv stripe loc state ∧ state.Holds loc value
  · exact ⟨inv, holds⟩
  · rintro state ⟨thread, op⟩ next ⟨inv, holds⟩ leaving result
    exact ⟨inv.step leaving.1 (holds.undisturbed.writesApart _) result, holds.step inv.agree inv.memory leaving result⟩

/-- A weak load of the location returns the object. -/
structure Machine.Yields (stripe : Loc → Stripe) (m : Machine Tid Obj Loc Stripe) (loc : Loc) (obj : Obj) : Prop where
  reads : ∀ thread, m.call thread = .user → m.locks (stripe loc) = none →
    ∃ next, m.step stripe (thread, .loadWeakRetained loc) = some next ∧ next.call thread = .loading loc obj
  returns : ∀ thread read, m.call thread = .loading loc read →
    ∃ next, m.step stripe (thread, .next) = some next ∧ next.call thread = .loaded loc (some obj)

theorem Machine.Holds.yields {obj : Obj} (holds : m.Holds loc (some obj)) (inv : SlotInv stripe loc m) :
    m.Yields stripe loc obj where
  reads thread user unlocked := by
    apply Exists.intro
    constructor
    · simp only [Machine.step, user, Machine.invoke, unlocked, if_true, holds.slot]
      rfl
    · simp only [Machine.lock, Function.update_self]
  returns thread read loading := by
    have isRead := inv.agree.old thread (some read) (by rw [loading]; rfl)
    obtain rfl : read = obj := Option.some.inj (isRead.trans holds.slot)
    have present := inv.memory.weak.isSome_of_listed (inv.memory.loads thread loc read loading)
    apply Exists.intro
    constructor
    · simp only [Machine.step, Machine.advance, loading]
      rfl
    · rcases (inv.memory.objects read).retain (.inr present) with ⟨_, success, _⟩ | ⟨dying, _⟩
      · simp only [Machine.unlock, Function.update_self, success]
      · exact absurd (holds.alive read rfl) dying

/-- A zeroing loop that has the location left can go on until it is about to write it. -/
theorem LocksTaken.exists_writing (taken : LocksTaken stripe m.locks m.call) (pending : loc ∈ (m.call thread).toZero) :
    ∃ later obj rest, Reachable (Machine.step stripe) (Machine.Leaving loc value) m later ∧
      later.call thread = .zeroing obj (loc :: rest) ∧ later.locks (stripe loc) = none := by
  cases phase : m.call thread with
  | zeroing obj remaining =>
      rw [phase] at pending
      obtain ⟨later, rest, run, position, unlocked⟩ := taken.exists_zeroing phase pending
      exact ⟨later, obj, rest, run.mono fun _ _ => Machine.Advances.leaving, position, unlocked⟩
  | _ =>
      rw [phase] at pending
      contradiction

/-- Then it clears the slot. -/
theorem LocksTaken.exists_cleared (taken : LocksTaken stripe m.locks m.call) (pending : loc ∈ (m.call thread).toZero) :
    ∃ later, Reachable (Machine.step stripe) (Machine.Leaving loc value) m later ∧ later.slots loc = none := by
  obtain ⟨later, obj, rest, run, position, unlocked⟩ := taken.exists_writing pending
  have result : later.step stripe (thread, .next) = some ({ later with
      slots := Function.update later.slots loc none }.enter thread (.zeroing obj rest)) := by
    simp only [Machine.step, Machine.advance, position, unlocked, if_true]
  exact ⟨_, run.tail (Machine.Advances.leaving ⟨rfl, by rw [position]; rfl⟩) result, Function.update_self ..⟩

/-- What the owner of a weak slot can rely on in a state. -/
structure Machine.WeakSafe (stripe : Loc → Stripe) (loc : Loc) (m : Machine Tid Obj Loc Stripe) : Prop where
  /-- A zeroing loop changes the slot only if it holds the object that is being deallocated. -/
  zeroes : ∀ thread obj remaining next, m.call thread = .zeroing obj remaining →
    m.step stripe (thread, .next) = some next → next.slots loc ≠ m.slots loc → m.slots loc = some obj
  /-- A stored object stays in the slot and is loaded from it, until a store or a destruction begins or the last
  reference to it is given up, exactly when no zeroing loop had the slot left at the store. -/
  stores : ∀ thread obj next, m.call thread = .registering loc (some obj) →
    m.step stripe (thread, .next) = some next → next.call thread = .stored loc (some obj) →
      ((∀ later, Reachable (Machine.step stripe) (Machine.Leaving loc (some obj)) next later →
          later.slots loc = some obj ∧ later.Yields stripe loc obj) ↔ ∀ other, loc ∉ (m.call other).toZero)
  /-- A destroyed slot is not written until somebody passes it to the runtime again, exactly when no zeroing loop had
  the slot left at the destruction. -/
  destroys : ∀ thread next, m.call thread = .clearing loc → m.step stripe (thread, .next) = some next →
    ((∀ later, Reachable (Machine.step stripe) (Machine.Leaving loc none) next later →
        ∀ other, (later.call other).writes ≠ some loc) ↔ ∀ other, loc ∉ (m.call other).toZero)

/-- A zeroing loop keeps its locations while another thread takes a step. -/
theorem Machine.pending_step {position : Call Obj Loc} (phase : m.call thread = position) (idle : position.toZero = [])
    (result : m.step stripe (thread, op) = some next) {other : Tid} (pending : loc ∈ (m.call other).toZero) :
    loc ∈ (next.call other).toZero := by
  rwa [Machine.step_call_of_ne result]
  rintro rfl
  rw [phase, idle] at pending
  contradiction

theorem SlotInv.weakSafe (inv : SlotInv stripe loc m) : m.WeakSafe stripe loc where
  zeroes thread obj remaining next phase result changed := by
    have writes : (m.call thread).writes = some loc := by
      by_contra quiet
      exact changed (Machine.step_slots result quiet (by simp))
    have pending : (m.call thread).Pending obj loc := by
      rcases Call.changes_or_toZero_of_writes writes with changes | member
      · rw [phase] at changes
        contradiction
      · rw [phase] at member ⊢
        exact ⟨remaining, rfl, member⟩
    rcases inv.agree.pending thread obj pending with isObj | isNone
    · exact isObj
    · simp only [Machine.step, Machine.advance, phase] at result
      cases remaining with
      | nil => contradiction
      | cons l rest =>
          dsimp only at result
          split at result
          · obtain rfl := Option.some.inj result
            rw [phase] at writes
            obtain rfl : l = loc := Option.some.inj writes
            simp only [Machine.enter, Function.update_self, isNone] at changed
            contradiction
          · contradiction
  stores thread obj next phase result returned := by
    constructor
    · intro always other pending
      have pending' := Machine.pending_step phase rfl result pending
      obtain ⟨later, run, cleared⟩ := (inv.taken.step result).exists_cleared pending'
      have holds := (always later run).1
      rw [cleared] at holds
      contradiction
    · intro apart later run
      have holds := inv.memory.holds_stored phase apart result returned
      have nextInv := inv.step (orderly_next thread) (fun _ => apart) result
      obtain ⟨laterInv, laterHolds⟩ := holds.run nextInv run
      exact ⟨laterHolds.slot, laterHolds.yields laterInv⟩
  destroys thread next phase result := by
    constructor
    · intro never other pending
      have pending' := Machine.pending_step phase rfl result pending
      obtain ⟨later, obj, rest, run, position, _⟩ := (inv.taken.step result).exists_writing pending'
      apply never later run other
      rw [position]
      rfl
    · intro apart later run other writes
      have holds := inv.memory.holds_destroyed phase apart result
      have nextInv := inv.step (orderly_next thread) (fun _ => apart) result
      obtain ⟨_, laterHolds⟩ := holds.run nextInv run
      rcases Call.changes_or_toZero_of_writes writes with changes | pending
      · exact laterHolds.undisturbed.changes other changes
      · exact laterHolds.undisturbed.toZero other pending

/-- In every run whose stores to a slot and destructions of it write apart from the zeroing loops, the slot is safe. -/
theorem orderlyRun_weakSafe
    (run : Reachable (Machine.step stripe) (fun state label => state.Orderly label ∧ state.WritesApart loc label)
      (Machine.start : Machine Tid Obj Loc Stripe) m) : m.WeakSafe stripe loc := by
  have inv : SlotInv stripe loc m := by
    apply run.invariant (SlotInv stripe loc) SlotInv.start
    rintro state ⟨thread, op⟩ next inv ⟨orderly, apart⟩ result
    exact inv.step orderly apart result
  exact inv.weakSafe

end Runs

/-- Thread 0 stores object 0 into slot 9 and begins to deallocate it. -/
def zeroingSchedule : List (Fin 2 × MemOp (Fin 2) (Fin 2) Nat) :=
  [(0, .allocate 0), (1, .allocate 1), (0, .initWeak 9 (some 0)), (0, .next), (0, .next), (0, .next), (0, .next),
    (0, .release (some 0))]

/-- The slot holds object 1 when the old object is deallocated. -/
theorem orderlyRun_weakSafe_restored :
    ∃ m : Machine (Fin 2) (Fin 2) Nat Nat, m.slots 9 = some 1 ∧ m.deallocs 0 = 1 ∧ m.WeakSafe (· % 127) 9 := by
  let labels : List (Fin 2 × MemOp (Fin 2) (Fin 2) Nat) :=
    [(0, .allocate 0), (1, .allocate 1), (0, .initWeak 9 (some 0)), (0, .next), (0, .next), (0, .next), (0, .next),
      (1, .storeWeak 9 (some 1)), (1, .next), (1, .next), (0, .release (some 0)), (1, .next), (1, .next),
      (0, .sendDealloc false), (0, .next)]
  have ran : ∃ m ∈ replay (Machine.step (· % 127)) (fun state label => state.Orderly label ∧ state.WritesApart 9 label)
      Machine.start labels, m.slots 9 = some 1 ∧ m.deallocs 0 = 1 := ⟨_, rfl, rfl, rfl⟩
  obtain ⟨m, run, holds, sent⟩ := exists_reachable_of_replay ran
  exact ⟨m, holds, sent, orderlyRun_weakSafe run⟩

/-- A zeroing loop clears a slot after the store of another object has returned, and the next load finds nothing. It
also writes a slot whose destruction has returned. -/
theorem doDealloc_overwritesStored :
    (∃ m next idle loaded : Machine (Fin 2) (Fin 2) Nat Nat,
      Reachable (Machine.step (· % 127)) Machine.Orderly Machine.start m ∧
      m.call 0 = .zeroing 0 [9] ∧ m.call 1 = .stored 9 (some 1) ∧ m.slots 9 = some 1 ∧
      m.step (· % 127) (0, .next) = some next ∧ next.slots 9 = none ∧
      next.step (· % 127) (1, .next) = some idle ∧
      idle.step (· % 127) (1, .loadWeakRetained 9) = some loaded ∧ loaded.call 1 = .loaded 9 none ∧
      loaded.deallocator 1 = none) ∧
    ∃ m next : Machine (Fin 2) (Fin 2) Nat Nat,
      Reachable (Machine.step (· % 127)) Machine.Orderly Machine.start m ∧
      m.call 1 = .destroyed 9 ∧ m.step (· % 127) (1, .next) = some next ∧ (next.call 0).writes = some 9 := by
  have stored : ∃ m ∈ replay (Machine.step (· % 127)) Machine.Orderly
      (Machine.start : Machine (Fin 2) (Fin 2) Nat Nat)
      (zeroingSchedule ++ [(1, .storeWeak 9 (some 1)), (1, .next), (1, .next), (1, .next)]),
      ∃ next idle loaded : Machine (Fin 2) (Fin 2) Nat Nat,
        m.call 0 = .zeroing 0 [9] ∧ m.call 1 = .stored 9 (some 1) ∧ m.slots 9 = some 1 ∧
        m.step (· % 127) (0, .next) = some next ∧ next.slots 9 = none ∧
        next.step (· % 127) (1, .next) = some idle ∧
        idle.step (· % 127) (1, .loadWeakRetained 9) = some loaded ∧ loaded.call 1 = .loaded 9 none ∧
        loaded.deallocator 1 = none :=
    ⟨_, rfl, _, _, _, rfl, rfl, rfl, rfl, rfl, rfl, rfl, rfl, rfl⟩
  have destroyed : ∃ m ∈ replay (Machine.step (· % 127)) Machine.Orderly
      (Machine.start : Machine (Fin 2) (Fin 2) Nat Nat)
      (zeroingSchedule ++ [(1, .destroyWeak 9), (1, .next), (1, .next)]),
      ∃ next : Machine (Fin 2) (Fin 2) Nat Nat, m.call 1 = .destroyed 9 ∧
        m.step (· % 127) (1, .next) = some next ∧ (next.call 0).writes = some 9 := ⟨_, rfl, _, rfl, rfl, rfl⟩
  obtain ⟨m, run, next, idle, loaded, overwritten⟩ := exists_reachable_of_replay stored
  obtain ⟨final, finalRun, last, written⟩ := exists_reachable_of_replay destroyed
  exact ⟨⟨m, next, idle, loaded, run, overwritten⟩, final, last, finalRun, written⟩

end O3jc
