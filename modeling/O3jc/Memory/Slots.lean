import O3jc.Memory.Ownership
import Mathlib.Data.Fintype.Basic

/-
This file keeps a weak slot and the lists of the side table in step while threads work on the slot under its lock and
zeroing loops write it.
-/

namespace O3jc

open Library

section Positions

variable {Obj Loc : Type}

/-- The locations that a zeroing loop has still to write. -/
def Call.toZero : Call Obj Loc → List Loc
  | .zeroing _ remaining => remaining
  | _ => []

/-- The slot that a thread has read under its lock, with what it read. -/
def Call.reads : Call Obj Loc → Option (Loc × Option Obj)
  | .unregistering loc _ old => some (loc, old)
  | .loading loc obj => some (loc, some obj)
  | .destroying loc old => some (loc, old)
  | _ => none

/-- The slot that the next step of a thread fills with an object or destroys. -/
def Call.commits : Call Obj Loc → Option Loc
  | .registering loc (some _) => some loc
  | .clearing loc => some loc
  | _ => none

theorem Call.Pending.toZero {call : Call Obj Loc} {obj : Obj} {loc : Loc} (pending : call.Pending obj loc) :
    loc ∈ call.toZero := by
  obtain ⟨remaining, rfl, member⟩ := pending
  exact member

theorem Call.not_pending_of_toZero {call : Call Obj Loc} {obj : Obj} {loc : Loc} (idle : call.toZero = []) :
    ¬ call.Pending obj loc := by
  intro pending
  have member := pending.toZero
  rw [idle] at member
  contradiction

theorem Call.reads_holding {call : Call Obj Loc} {loc : Loc} {old : Option Obj}
    (isRead : call.reads = some (loc, old)) : call.holding = some loc := by
  cases call <;> first | contradiction | exact congrArg some (Prod.mk.inj (Option.some.inj isRead)).1

end Positions

/-- A location stands only in the list of the object that its slot holds, and there only once. A thread that has read or
unregistered the slot under its lock still knows what the slot and the lists hold. -/
structure SlotExact {Tid Obj Loc : Type} [DecidableEq Loc] (loc : Loc) (table : SideTable Obj Loc)
    (slots : Loc → Option Obj) (call : Tid → Call Obj Loc) : Prop where
  once : ∀ obj, (registered table obj).count loc ≤ 1
  lists : ∀ obj, loc ∈ registered table obj → slots loc = some obj
  pending : ∀ thread obj, (call thread).Pending obj loc → slots loc = some obj ∨ slots loc = none
  old : ∀ thread old, (call thread).reads = some (loc, old) → old = slots loc
  unlisted : ∀ thread obj, (call thread).overwrites = some loc → loc ∉ registered table obj

section Moves

variable {Tid Obj Loc : Type} [DecidableEq Tid] [DecidableEq Loc] {loc : Loc} {table table' : SideTable Obj Loc}
  {slots slots' : Loc → Option Obj} {call : Tid → Call Obj Loc} {thread : Tid} {entered : Call Obj Loc}
  (agree : SlotExact loc table slots call)

include agree

/-- A step writes only a slot that no other thread has locked, and accounts for the lists and for its own position. -/
theorem SlotExact.enter (once : ∀ o, (registered table' o).count loc ≤ 1)
    (lists : ∀ o, loc ∈ registered table' o → slots' loc = some o)
    (zeroed : ∀ other, other ≠ thread → loc ∈ (call other).toZero → slots' loc = slots loc ∨ slots' loc = none)
    (locked : ∀ other, other ≠ thread → (call other).holding = some loc →
      slots' loc = slots loc ∧ ∀ o, loc ∈ registered table' o → loc ∈ registered table o)
    (ownPending : ∀ o, entered.Pending o loc → slots' loc = some o ∨ slots' loc = none)
    (ownOld : ∀ old, entered.reads = some (loc, old) → old = slots' loc)
    (ownOver : ∀ o, entered.overwrites = some loc → loc ∉ registered table' o) :
    SlotExact loc table' slots' (Function.update call thread entered) where
  once := once
  lists := lists
  pending other o pending := by
    by_cases same : other = thread
    · rw [same, Function.update_self] at pending
      exact ownPending o pending
    · rw [Function.update_of_ne same] at pending
      rcases zeroed other same pending.toZero with kept | cleared
      · rw [kept]
        exact agree.pending other o pending
      · exact .inr cleared
  old other old reads := by
    by_cases same : other = thread
    · rw [same, Function.update_self] at reads
      exact ownOld old reads
    · rw [Function.update_of_ne same] at reads
      rw [(locked other same (Call.reads_holding reads)).1]
      exact agree.old other old reads
  unlisted other o isOver member := by
    by_cases same : other = thread
    · rw [same, Function.update_self] at isOver
      exact ownOver o isOver member
    · rw [Function.update_of_ne same] at isOver
      exact agree.unlisted other o isOver ((locked other same (Call.overwrites_holding isOver)).2 o member)

/-- A step that neither writes the slot nor puts it into a list. -/
theorem SlotExact.of_lists (kept : slots' loc = slots loc)
    (fewer : ∀ o, (registered table' o).count loc ≤ (registered table o).count loc)
    (ownPending : ∀ o, entered.Pending o loc → loc ∈ registered table o ∨ (call thread).Pending o loc)
    (ownOld : ∀ old, entered.reads = some (loc, old) → old = slots loc)
    (ownOver : ∀ o, entered.overwrites = some loc → loc ∉ registered table' o) :
    SlotExact loc table' slots' (Function.update call thread entered) := by
  have before : ∀ o, loc ∈ registered table' o → loc ∈ registered table o := by
    intro o member
    have positive := List.count_pos_iff.mpr member
    have less := fewer o
    exact List.count_pos_iff.mp (by omega)
  apply agree.enter
  · exact fun o => (fewer o).trans (agree.once o)
  · intro o member
    rw [kept]
    exact agree.lists o (before o member)
  · exact fun _ _ _ => .inl kept
  · exact fun _ _ _ => ⟨kept, before⟩
  · intro o pending
    rw [kept]
    rcases ownPending o pending with member | earlier
    · exact .inl (agree.lists o member)
    · exact agree.pending thread o earlier
  · intro old reads
    rw [kept]
    exact ownOld old reads
  · exact ownOver

/-- A step that moves its thread to a position outside of the work on slots. -/
theorem SlotExact.of_move (kept : slots' loc = slots loc)
    (fewer : ∀ o, (registered table' o).count loc ≤ (registered table o).count loc)
    (idle : entered.toZero = [] ∧ entered.reads = none ∧ entered.overwrites = none) :
    SlotExact loc table' slots' (Function.update call thread entered) := by
  apply agree.of_lists kept fewer
  · exact fun o pending => absurd pending (Call.not_pending_of_toZero idle.1)
  · simp [idle.2.1]
  · simp [idle.2.2]

/-- A step that clears a slot. If it is this slot then it stands in no list and no other thread has locked it. -/
theorem SlotExact.of_cleared {l : Loc} (unlisted : l = loc → ∀ o, loc ∉ registered table o)
    (unlocked : l = loc → ∀ other, other ≠ thread → (call other).holding ≠ some loc)
    (ownPending : ∀ o, entered.Pending o loc → (call thread).Pending o loc)
    (idle : entered.reads = none ∧ entered.overwrites = none) :
    SlotExact loc table (Function.update slots l none) (Function.update call thread entered) := by
  by_cases same : l = loc
  · subst same
    apply agree.enter agree.once
    · exact fun o member => absurd member (unlisted rfl o)
    · exact fun _ _ _ => .inr (Function.update_self ..)
    · exact fun other different holding => absurd holding (unlocked rfl other different)
    · exact fun _ _ => .inr (Function.update_self ..)
    · simp [idle.1]
    · simp [idle.2]
  · apply agree.of_lists
    · exact Function.update_of_ne (Ne.symm same) ..
    · exact fun _ => le_refl _
    · exact fun o pending => .inr (ownPending o pending)
    · simp [idle.1]
    · simp [idle.2]

end Moves

section Runs

variable {Tid Obj Loc Stripe : Type} [DecidableEq Obj] [DecidableEq Loc]

/-- `objc_init_weak` gets a location that stands in no list and that no call is working on. -/
def Machine.InitsFresh (m : Machine Tid Obj Loc Stripe) (label : Tid × MemOp Tid Obj Loc) : Prop :=
  match label.2 with
  | .initWeak loc _ => (∀ obj, loc ∉ registered m.table obj) ∧ ∀ thread, (m.call thread).holding ≠ some loc
  | _ => True

/-- The callers keep to the contracts of the functions. -/
def Machine.Orderly (m : Machine Tid Obj Loc Stripe) (label : Tid × MemOp Tid Obj Loc) : Prop :=
  m.Owned label ∧ m.InitsFresh label

/-- An object is stored into the slot, and the slot is destroyed, when no zeroing loop has it still to write. -/
def Machine.WritesApart (loc : Loc) (m : Machine Tid Obj Loc Stripe) (label : Tid × MemOp Tid Obj Loc) : Prop :=
  match label.2 with
  | .next => (m.call label.1).commits = some loc → ∀ thread, loc ∉ (m.call thread).toZero
  | _ => True

section Decisions

variable [Fintype Tid] [Fintype Obj] (m : Machine Tid Obj Loc Stripe) (label : Tid × MemOp Tid Obj Loc)

instance : Decidable (m.InitsFresh label) :=
  match label with
  | (_, .initWeak loc _) => inferInstanceAs (Decidable
      ((∀ obj, loc ∉ registered m.table obj) ∧ ∀ thread, (m.call thread).holding ≠ some loc))
  | (_, .allocate _) => inferInstanceAs (Decidable True)
  | (_, .give _ _) => inferInstanceAs (Decidable True)
  | (_, .retain _) => inferInstanceAs (Decidable True)
  | (_, .release _) => inferInstanceAs (Decidable True)
  | (_, .storeWeak _ _) => inferInstanceAs (Decidable True)
  | (_, .loadWeakRetained _) => inferInstanceAs (Decidable True)
  | (_, .destroyWeak _) => inferInstanceAs (Decidable True)
  | (_, .next) => inferInstanceAs (Decidable True)
  | (_, .sendDealloc _) => inferInstanceAs (Decidable True)
  | (_, .returnDealloc) => inferInstanceAs (Decidable True)

instance (loc : Loc) : Decidable (m.WritesApart loc label) :=
  match label with
  | (thread, .next) =>
      inferInstanceAs (Decidable ((m.call thread).commits = some loc → ∀ other, loc ∉ (m.call other).toZero))
  | (_, .initWeak _ _) => inferInstanceAs (Decidable True)
  | (_, .allocate _) => inferInstanceAs (Decidable True)
  | (_, .give _ _) => inferInstanceAs (Decidable True)
  | (_, .retain _) => inferInstanceAs (Decidable True)
  | (_, .release _) => inferInstanceAs (Decidable True)
  | (_, .storeWeak _ _) => inferInstanceAs (Decidable True)
  | (_, .loadWeakRetained _) => inferInstanceAs (Decidable True)
  | (_, .destroyWeak _) => inferInstanceAs (Decidable True)
  | (_, .sendDealloc _) => inferInstanceAs (Decidable True)
  | (_, .returnDealloc) => inferInstanceAs (Decidable True)

instance [DecidableEq Tid] : Decidable (m.Orderly label) := inferInstanceAs (Decidable (_ ∧ _))

end Decisions

variable [DecidableEq Tid] [DecidableEq Stripe] {stripe : Loc → Stripe} {m next : Machine Tid Obj Loc Stripe}
  {thread : Tid} {op : MemOp Tid Obj Loc} {loc : Loc}

omit [DecidableEq Obj] [DecidableEq Tid] [DecidableEq Stripe] in
theorem SlotExact.start : SlotExact loc (Machine.start : Machine Tid Obj Loc Stripe).table
    (Machine.start : Machine Tid Obj Loc Stripe).slots (Machine.start : Machine Tid Obj Loc Stripe).call where
  once _ := Nat.zero_le 1
  lists _ member := absurd member (by simp [Machine.start, O3jc.registered])
  pending _ _ pending := absurd pending (by simp [Machine.start, Call.Pending])
  old _ _ reads := absurd reads (by simp [Machine.start, Call.reads])
  unlisted _ _ isOver := absurd isOver (by simp [Machine.start, Call.overwrites])

section Sections

variable (agree : SlotExact loc m.table m.slots m.call) (inv : MemInv stripe m)

include agree inv

omit [DecidableEq Tid] [DecidableEq Stripe] in
/-- A location that a zeroing loop has still to write stands in no list. -/
theorem SlotExact.not_listed_of_pending {obj : Obj} (pending : (m.call thread).Pending obj loc) (other : Obj) :
    loc ∉ registered m.table other := by
  intro member
  have holds := agree.lists other member
  have state := inv.objects obj
  rw [inv.deallocator_of_dying pending.dying] at state
  rcases agree.pending thread obj pending with isObj | isNone
  · obtain rfl : other = obj := Option.some.inj (holds.symm.trans isObj)
    rw [state.registered_eq_nil] at member
    contradiction
  · rw [holds] at isNone
    contradiction

omit [DecidableEq Stripe] in
/-- The write of a store puts its slot into the list of the object that it then holds. -/
theorem SlotExact.register {l : Loc} {new : Option Obj} (apart : m.WritesApart loc (thread, .next))
    (phase : m.call thread = .registering l new) :
    SlotExact loc (registerWeak m.table l new).1 (Function.update m.slots l (registerWeak m.table l new).2)
      (Function.update m.call thread (.stored l (registerWeak m.table l new).2)) := by
  by_cases same : l = loc
  · subst same
    have fresh : ∀ o, l ∉ registered m.table o := fun o => agree.unlisted thread o (by rw [phase]; rfl)
    apply agree.enter
    · intro o
      rw [registerWeak_registered]
      split
      · simp [List.count_append, List.count_eq_zero.mpr (fresh o)]
      · exact agree.once o
    · intro o member
      rw [Function.update_self]
      rw [registerWeak_registered] at member
      split at member
      · assumption
      · exact absurd member (fresh o)
    · intro other _ pending
      cases new with
      | none => exact .inr (Function.update_self ..)
      | some obj => exact absurd pending (apart (by rw [phase]; rfl) other)
    · intro other different holding
      exact absurd (inv.locks.unique holding (by rw [phase]; rfl)) different
    · rintro o ⟨remaining, isZeroing, _⟩
      contradiction
    · simp [Call.reads]
    · simp [Call.overwrites]
  · apply agree.of_move
    · exact Function.update_of_ne (Ne.symm same) ..
    · intro o
      rw [registerWeak_registered]
      split
      · simp [List.count_append, same]
      · exact le_refl _
    · exact ⟨rfl, rfl, rfl⟩

omit inv [DecidableEq Stripe] in
/-- A thread that holds the lock of a slot takes it off the list of the object that it read. -/
theorem SlotExact.unregister {l : Loc} {old : Option Obj} {entered : Call Obj Loc}
    (reads : (m.call thread).reads = some (l, old))
    (idle : entered.toZero = [] ∧ entered.reads = none ∧ entered.overwrites = some l) :
    SlotExact loc (unregisterWeak m.table l old) m.slots (Function.update m.call thread entered) := by
  have fewer := unregisterWeak_sublist m.table l old
  apply agree.of_lists rfl fun o => (fewer o).count_le loc
  · exact fun o pending => absurd pending (Call.not_pending_of_toZero idle.1)
  · simp [idle.2.1]
  · intro o isOver member
    obtain rfl : l = loc := Option.some.inj (idle.2.2.symm.trans isOver)
    have holds := agree.lists o ((fewer o).subset member)
    rw [← agree.old thread old reads] at holds
    rw [unregisterWeak_registered, if_pos holds, List.mem_filter] at member
    simp at member

end Sections

/-- A step of callers that keep to the contracts keeps the slot exact when it writes apart from the zeroing loops. -/
theorem SlotExact.step (agree : SlotExact loc m.table m.slots m.call) (inv : MemInv stripe m)
    (fresh : m.InitsFresh (thread, op)) (apart : m.WritesApart loc (thread, op))
    (result : m.step stripe (thread, op) = some next) : SlotExact loc next.table next.slots next.call := by
  have moved : ∀ {entered : Call Obj Loc},
      entered.toZero = [] ∧ entered.reads = none ∧ entered.overwrites = none →
        SlotExact loc m.table m.slots (Function.update m.call thread entered) :=
    agree.of_move rfl fun _ => le_refl _
  have read : ∀ {entered : Call Obj Loc} {l : Loc} {old : Option Obj}, entered.reads = some (l, old) →
      old = m.slots l → entered.toZero = [] ∧ entered.overwrites = none →
        SlotExact loc m.table m.slots (Function.update m.call thread entered) := by
    intro entered l old reads isOld idle
    apply agree.of_lists rfl fun _ => le_refl _
    · exact fun o pending => absurd pending (Call.not_pending_of_toZero idle.1)
    · intro other isRead
      obtain ⟨rfl, rfl⟩ := Prod.mk.inj (Option.some.inj (reads.symm.trans isRead))
      exact isOld
    · simp [idle.2]
  have retained : ∀ (obj : Option Obj) {entered : Call Obj Loc},
      entered.toZero = [] ∧ entered.reads = none ∧ entered.overwrites = none →
        SlotExact loc (objcRetain m.table obj).1 m.slots (Function.update m.call thread entered) := by
    intro obj entered
    apply agree.of_move rfl
    intro o
    rw [objcRetain_registered]
  cases Machine.step_effect result with
  | allocate user => exact agree
  | give user => exact agree
  | retain user => exact retained _ ⟨rfl, rfl, rfl⟩
  | releaseNull user => exact agree
  | @release obj table user kept =>
      have fewer := releaseEntry_sublist m.table obj
      rw [kept] at fewer
      rw [← Function.update_eq_self thread m.call, user]
      exact agree.of_move rfl (fun o => (fewer o).count_le loc) ⟨rfl, rfl, rfl⟩
  | @dealloc obj table weakLocations user dropped =>
      have fewer := releaseEntry_sublist m.table obj
      rw [dropped] at fewer
      apply agree.of_lists rfl fun o => (fewer o).count_le loc
      · rintro o ⟨remaining, isZeroing, member⟩
        obtain ⟨rfl, rfl⟩ := Call.zeroing.inj isZeroing
        rw [eq_registered_of_releaseEntry (congrArg Prod.snd dropped)] at member
        exact .inl member
      · simp [Call.reads]
      · simp [Call.overwrites]
  | @initNull l user =>
      apply agree.of_cleared _ _ (by simp [Call.Pending]) ⟨rfl, rfl⟩
      · rintro rfl
        exact fresh.1
      · rintro rfl other _
        exact fresh.2 other
  | @init l obj user =>
      apply agree.of_cleared _ _ (by simp [Call.Pending]) ⟨rfl, rfl⟩
      · rintro rfl
        exact fresh.1
      · rintro rfl other _
        exact fresh.2 other
  | store user => exact moved ⟨rfl, rfl, rfl⟩
  | acquire phase unlocked => exact read rfl rfl ⟨rfl, rfl⟩
  | unregister phase => exact agree.unregister (by rw [phase]; rfl) ⟨rfl, rfl, rfl⟩
  | register phase => exact agree.register inv apart phase
  | loadNull user unlocked isNull => exact moved ⟨rfl, rfl, rfl⟩
  | load user unlocked holds => exact read rfl holds.symm ⟨rfl, rfl⟩
  | retainLoaded phase => exact retained _ ⟨rfl, rfl, rfl⟩
  | destroy user unlocked => exact read rfl rfl ⟨rfl, rfl⟩
  | unregisterDestroyed phase => exact agree.unregister (by rw [phase]; rfl) ⟨rfl, rfl, rfl⟩
  | @clear l phase =>
      apply agree.of_cleared _ _ (by simp [Call.Pending]) ⟨rfl, rfl⟩
      · rintro rfl o
        exact agree.unlisted thread o (by rw [phase]; rfl)
      · rintro rfl other different holding
        exact different (inv.locks.unique holding (by rw [phase]; rfl))
  | @zero obj l remaining phase unlocked =>
      apply agree.of_cleared _ _ _ ⟨rfl, rfl⟩
      · rintro rfl
        exact agree.not_listed_of_pending inv ⟨_, phase, .head _⟩
      · rintro rfl other _
        exact inv.locks.not_holding unlocked other
      · rintro o ⟨all, isZeroing, member⟩
        obtain ⟨rfl, rfl⟩ := Call.zeroing.inj isZeroing
        exact ⟨l :: remaining, phase, List.mem_cons_of_mem l member⟩
  | sendFound phase => exact moved ⟨rfl, rfl, rfl⟩
  | sendMissing phase => exact moved ⟨rfl, rfl, rfl⟩
  | returnDealloc user body => exact moved ⟨rfl, rfl, rfl⟩
  | @remove obj phase =>
      exact agree.of_move rfl (fun o => (removeEntry_sublist m.table obj o).count_le loc) ⟨rfl, rfl, rfl⟩
  | finishRetain phase => exact moved ⟨rfl, rfl, rfl⟩
  | finishStore phase => exact moved ⟨rfl, rfl, rfl⟩
  | finishLoad phase => exact moved ⟨rfl, rfl, rfl⟩
  | finishDestroy phase => exact moved ⟨rfl, rfl, rfl⟩

end Runs

end O3jc
