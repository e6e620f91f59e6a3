import O3jc.Memory.Calls
import O3jc.Memory.WeakSlots

/-
This file proves that the lists of the side table and the weak slots agree after every call of a single thread, also
inside of the bodies of `-dealloc`.
-/

namespace O3jc

open Library

section Single

variable {Obj Loc Stripe : Type} [DecidableEq Obj] [DecidableEq Loc] [DecidableEq Stripe] {stripe : Loc → Stripe}
  {m next : Machine Unit Obj Loc Stripe} {op : MemOp Unit Obj Loc}

omit [DecidableEq Loc] [DecidableEq Stripe] in
/-- An object with weak locations has references. -/
theorem MemInv.refCount_pos_of_registered (inv : MemInv stripe m) {loc : Loc} {obj : Obj}
    (member : loc ∈ registered m.table obj) : 0 < refCount m.refs obj := by
  have state := inv.objects obj
  rcases state.known (isSome_of_registered member) with positive | dying
  · exact positive
  · obtain ⟨thread, isDying⟩ := Option.isSome_iff_exists.mp dying
    rw [isDying] at state
    rw [state.registered_eq_nil] at member
    contradiction

omit [DecidableEq Obj] [DecidableEq Loc] [DecidableEq Stripe] in
/-- A single thread never fills or destroys a slot inside of a zeroing loop of its own. -/
theorem Machine.writesApart_of_single (loc : Loc) (m : Machine Unit Obj Loc Stripe)
    (label : Unit × MemOp Unit Obj Loc) : m.WritesApart loc label := by
  obtain ⟨_, op⟩ := label
  cases op with
  | next =>
      intro commits thread pending
      cases position : m.call () with
      | zeroing obj remaining =>
          rw [show m.call _ = m.call () from rfl, position] at commits
          contradiction
      | _ =>
          rw [show m.call thread = m.call () from rfl, position] at pending
          contradiction
  | _ => trivial

/-- The object of a slot that the thread has locked has references. -/
def Machine.LockedAlive (m : Machine Unit Obj Loc Stripe) : Prop :=
  ∀ loc obj, (m.call ()).holding = some loc → m.slots loc = some obj → 0 < refCount m.refs obj

omit [DecidableEq Loc] [DecidableEq Stripe] in
/-- The object of a slot that a single thread can lock has references. -/
theorem MemInv.refCount_pos_of_unlocked (inv : MemInv stripe m) {loc : Loc} {obj : Obj}
    (idle : (m.call ()).toZero = []) (unlocked : m.locks (stripe loc) = none) (holds : m.slots loc = some obj) :
    0 < refCount m.refs obj := by
  rcases inv.weak.listed_of_unlocked unlocked holds with member | ⟨_, pending⟩
  · exact inv.refCount_pos_of_registered member
  · have member := pending.toZero
    rw [show m.call _ = m.call () from rfl, idle] at member
    contradiction

theorem Machine.LockedAlive.step (alive : m.LockedAlive) (inv : MemInv stripe m)
    (result : m.step stripe ((), op) = some next) : next.LockedAlive := by
  intro loc obj
  cases Machine.step_effect result with
  | allocate user => simp [user, Call.holding]
  | give user => simp [user, Call.holding]
  | releaseNull user => simp [user, Call.holding]
  | release user kept => simp [user, Call.holding]
  | @acquire l new phase unlocked =>
      simp only [Machine.lock, Function.update_self]
      intro isLoc holds
      obtain rfl : l = loc := Option.some.inj isLoc
      exact inv.refCount_pos_of_unlocked (by rw [phase]; rfl) unlocked holds
  | @load l o user unlocked isHeld =>
      simp only [Machine.lock, Function.update_self]
      intro isLoc holds
      obtain rfl : l = loc := Option.some.inj isLoc
      exact inv.refCount_pos_of_unlocked (by rw [user]; rfl) unlocked holds
  | @destroy l user unlocked =>
      simp only [Machine.lock, Function.update_self]
      intro isLoc holds
      obtain rfl : l = loc := Option.some.inj isLoc
      exact inv.refCount_pos_of_unlocked (by rw [user]; rfl) unlocked holds
  | unregister phase =>
      simp only [Machine.enter, Function.update_self]
      intro isLoc holds
      exact alive loc obj (by rw [phase]; exact isLoc) holds
  | unregisterDestroyed phase =>
      simp only [Machine.enter, Function.update_self]
      intro isLoc holds
      exact alive loc obj (by rw [phase]; exact isLoc) holds
  | _ => simp [Machine.enter, Machine.unlock, Call.holding]

/-- The invariant of the runs of a single thread. -/
structure SequentialInv (stripe : Loc → Stripe) (m : Machine Unit Obj Loc Stripe) : Prop where
  memory : MemInv stripe m
  agree : ∀ loc, SlotExact loc m.table m.slots m.call
  taken : LocksTaken stripe m.locks m.call
  alive : m.LockedAlive

omit [DecidableEq Stripe] in
theorem SequentialInv.start : SequentialInv stripe (Machine.start : Machine Unit Obj Loc Stripe) where
  memory := MemInv.start
  agree _ := SlotExact.start
  taken _ _ isTaken := absurd isTaken (by simp [Machine.start])
  alive _ _ holding := absurd holding (by simp [Machine.start, Call.holding])

theorem SequentialInv.step (inv : SequentialInv stripe m) (orderly : m.Orderly ((), op))
    (result : m.step stripe ((), op) = some next) : SequentialInv stripe next where
  memory := inv.memory.step orderly.1.sound result
  agree loc := (inv.agree loc).step inv.memory orderly.2 (m.writesApart_of_single loc _) result
  taken := inv.taken.step result
  alive := inv.alive.step inv.memory result

omit [DecidableEq Stripe] in
/-- No location stands twice in a list. -/
theorem SequentialInv.nodup (inv : SequentialInv stripe m) (obj : Obj) : (registered m.table obj).Nodup :=
  List.nodup_iff_count_le_one.mpr fun loc => (inv.agree loc).once obj

omit [DecidableEq Stripe] in
/-- Between the calls of a single thread every stripe lock is free. -/
theorem SequentialInv.unlocked (inv : SequentialInv stripe m) (user : m.call () = .user) (s : Stripe) :
    m.locks s = none := by
  cases isTaken : m.locks s with
  | none => rfl
  | some thread =>
      obtain ⟨loc, _, holding⟩ := inv.taken s thread isTaken
      rw [show m.call thread = m.call () from rfl, user] at holding
      contradiction

omit [DecidableEq Stripe] in
/-- A slot names an object without references only while the zeroing loop of the object has still to write it. -/
theorem SequentialInv.pending_of_dead (inv : SequentialInv stripe m) {loc : Loc} {obj : Obj}
    (dead : refCount m.refs obj = 0) (holds : m.slots loc = some obj) : (m.call ()).Pending obj loc := by
  rcases inv.memory.slots loc obj holds with (member | ⟨_, pending⟩) | ⟨_, isOver⟩
  · have positive := inv.memory.refCount_pos_of_registered member
    omega
  · exact pending
  · have positive := inv.alive loc obj (Call.overwrites_holding isOver) holds
    omega

omit [DecidableEq Stripe] in
/-- Between the calls of a single thread a location stands in the list of an object exactly when its slot names it. -/
theorem SequentialInv.registered_iff (inv : SequentialInv stripe m) (user : m.call () = .user) {loc : Loc} {obj : Obj} :
    loc ∈ registered m.table obj ↔ m.slots loc = some obj := by
  constructor
  · exact (inv.agree loc).lists obj
  · intro holds
    rcases inv.memory.weak.listed_of_unlocked (inv.unlocked user _) holds with member | ⟨_, _, zeroing, _⟩
    · exact member
    · rw [show m.call _ = m.call () from rfl, user] at zeroing
      contradiction

/-- A zeroing loop that has these locations left has cleared the other slots of its object. -/
structure Machine.Zeroed (m state : Machine Unit Obj Loc Stripe) (obj : Obj) (remaining : List Loc) : Prop where
  phase : state.call () = .zeroing obj remaining
  nodup : remaining.Nodup
  named : ∀ loc ∈ remaining, m.slots loc = some obj
  slots : ∀ loc, state.slots loc = if m.slots loc = some obj ∧ loc ∉ remaining then none else m.slots loc

theorem Machine.Zeroed.step {state : Machine Unit Obj Loc Stripe} {obj : Obj} {remaining : List Loc}
    (zeroed : m.Zeroed state obj remaining) (result : state.step stripe ((), .next) = some next) :
    ∃ rest, m.Zeroed next obj rest := by
  simp only [Machine.step, Machine.advance, zeroed.phase] at result
  cases remaining with
  | nil => contradiction
  | cons loc rest =>
      dsimp only at result
      split at result
      · obtain rfl := Option.some.inj result
        obtain ⟨fresh, nodup⟩ := List.nodup_cons.mp zeroed.nodup
        refine ⟨rest, by simp only [Machine.enter, Function.update_self], nodup,
          fun l member => zeroed.named l (.tail loc member), fun l => ?_⟩
        show Function.update state.slots loc none l = _
        by_cases same : l = loc
        · subst same
          rw [Function.update_self, if_pos ⟨zeroed.named l (.head rest), fresh⟩]
        · rw [Function.update_of_ne same, zeroed.slots l]
          simp [same]
      · contradiction

/-- The release of the last reference starts the loop over the slots that name the object. -/
theorem SequentialInv.zeroed_of_release (inv : SequentialInv stripe m) (user : m.call () = .user) {obj : Obj}
    (owned : ((), obj) ∈ m.refs) (last : refCount m.refs obj = 1) {begun : Machine Unit Obj Loc Stripe}
    (result : m.step stripe ((), .release (some obj)) = some begun) :
    m.Zeroed begun obj (registered m.table obj) := by
  have dropped := (inv.memory.drops_iff owned).mpr last
  cases Machine.step_effect result with
  | release _ kept =>
      rw [kept] at dropped
      contradiction
  | @dealloc _ table locs _ isDropped =>
      have isList := eq_registered_of_releaseEntry (congrArg Prod.snd isDropped)
      refine ⟨?_, inv.nodup obj, fun loc member => (inv.agree loc).lists obj member, fun loc => ?_⟩
      · simp only [Machine.enter, Function.update_self, isList]
      · rw [if_neg]
        · rfl
        · rintro ⟨holds, unlisted⟩
          exact unlisted ((inv.registered_iff user).mpr holds)

/-- What a single thread can rely on in a state of a run. -/
structure Machine.WeakExact (stripe : Loc → Stripe) (m : Machine Unit Obj Loc Stripe) : Prop where
  /-- A location stands in the list of the object that its slot names, once, and in no other. -/
  counts : m.call () = .user → ∀ loc obj, (registered m.table obj).count loc = if m.slots loc = some obj then 1 else 0
  /-- No slot names an object without an entry. -/
  absent : m.call () = .user → ∀ obj, m.table obj = none → ∀ loc, m.slots loc ≠ some obj
  /-- When `-dealloc` is sent, the slots that named the object at the release of its last reference are cleared. -/
  zeroed : m.call () = .user → ∀ obj begun sending, ((), obj) ∈ m.refs → refCount m.refs obj = 1 →
    m.step stripe ((), .release (some obj)) = some begun →
    Reachable (Machine.step stripe) (fun _ label => label.2 = .next) begun sending →
    sending.call () = .zeroing obj [] →
      ∀ loc, sending.slots loc = if m.slots loc = some obj then none else m.slots loc
  /-- Afterwards no slot names the object. -/
  dead : ∀ loc obj, refCount m.refs obj = 0 → m.slots loc = some obj → (m.call ()).Pending obj loc

theorem SequentialInv.weakExact (inv : SequentialInv stripe m) : m.WeakExact stripe where
  counts user loc obj := by
    split
    · rename_i holds
      exact List.count_eq_one_of_mem (inv.nodup obj) ((inv.registered_iff user).mpr holds)
    · rename_i free
      exact List.count_eq_zero.mpr fun member => free ((inv.registered_iff user).mp member)
  absent user obj isAbsent loc holds := by
    have present := isSome_of_registered ((inv.registered_iff user).mpr holds)
    rw [isAbsent] at present
    contradiction
  zeroed user obj begun sending owned last result run phase loc := by
    have zeroed : ∃ remaining, m.Zeroed sending obj remaining := by
      apply run.invariant fun state => ∃ remaining, m.Zeroed state obj remaining
      · exact ⟨_, inv.zeroed_of_release user owned last result⟩
      · rintro state ⟨⟨⟩, op⟩ next ⟨remaining, zeroed⟩ rfl taken
        exact zeroed.step taken
    obtain ⟨remaining, zeroed⟩ := zeroed
    obtain ⟨_, rfl⟩ := Call.zeroing.inj (zeroed.phase.symm.trans phase)
    simpa using zeroed.slots loc
  dead loc obj dead holds := inv.pending_of_dead dead holds

theorem SequentialInv.run
    (run : Reachable (Machine.step stripe) Machine.Orderly (Machine.start : Machine Unit Obj Loc Stripe) m) :
    SequentialInv stripe m := by
  apply run.invariant (SequentialInv stripe) SequentialInv.start
  rintro state ⟨⟨⟩, op⟩ next inv orderly result
  exact inv.step orderly result

/-- In every run of a single thread each call that deallocates nothing computes the function of the source. -/
theorem singleRun_computed
    (run : Reachable (Machine.step stripe) Machine.Orderly (Machine.start : Machine Unit Obj Loc Stripe) m)
    (user : m.call () = .user) (computed : m.computed () op = some next) :
    ∃ count, m.alone stripe () op count = some next :=
  Machine.alone_computed user ((SequentialInv.run run).unlocked user) computed

/-- In every run of a single thread the registration of weak slots is exact. -/
theorem singleRun_weakExact
    (run : Reachable (Machine.step stripe) Machine.Orderly (Machine.start : Machine Unit Obj Loc Stripe) m) :
    m.WeakExact stripe := (SequentialInv.run run).weakExact

end Single

/-- The body of the `-dealloc` of object 0 releases object 1, which two slots named at some time. -/
theorem singleRun_weakExact_nested : ∃ m : Machine Unit (Fin 2) Nat Nat,
    m.deallocs 0 = 1 ∧ m.deallocs 1 = 1 ∧ m.slots 8 = none ∧ m.WeakExact (· % 127) := by
  let labels : List (Unit × MemOp Unit (Fin 2) Nat) :=
    [.allocate 0, .allocate 1, .initWeak 8 (some 0), .next, .next, .next, .next, .initWeak 9 (some 1), .next, .next,
      .next, .next, .storeWeak 8 (some 1), .next, .next, .next, .next, .loadWeakRetained 8, .next, .next,
      .release (some 1), .release (some 0), .sendDealloc true, .release (some 1), .next, .next, .sendDealloc false,
      .next, .returnDealloc, .next].map fun op => ((), op)
  have ran : ∃ m ∈ replay (Machine.step (· % 127)) Machine.Orderly
      (Machine.start : Machine Unit (Fin 2) Nat Nat) labels,
      m.deallocs 0 = 1 ∧ m.deallocs 1 = 1 ∧ m.slots 8 = none := ⟨_, rfl, rfl, rfl, rfl⟩
  obtain ⟨m, run, first, second, cleared⟩ := exists_reachable_of_replay ran
  exact ⟨m, first, second, cleared, singleRun_weakExact run⟩

end O3jc
