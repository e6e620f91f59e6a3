import O3jc.Memory.Table
import O3jc.Memory.Threads

/-
This file proves what every step of the memory calls does to the weak locations that the table and the zeroing loops
list. Nothing here depends on who owns a reference.
-/

namespace O3jc

section Positions

variable {Obj Loc : Type}

/-- The slot whose stripe lock a thread holds. -/
def Call.holding : Call Obj Loc → Option Loc
  | .unregistering loc _ _ => some loc
  | .registering loc _ => some loc
  | .loading loc _ => some loc
  | .destroying loc _ => some loc
  | .clearing loc => some loc
  | _ => none

/-- The slot that a thread has unregistered and is about to overwrite. -/
def Call.overwrites : Call Obj Loc → Option Loc
  | .registering loc _ => some loc
  | .clearing loc => some loc
  | _ => none

/-- The object that a thread is about to store. -/
def Call.storing : Call Obj Loc → Option Obj
  | .awaiting _ new => new
  | .unregistering _ new _ => new
  | .registering _ new => new
  | _ => none

/-- The object that a thread deallocates outside of the body of its `-dealloc`. -/
def Call.dying : Call Obj Loc → List Obj
  | .zeroing obj _ => [obj]
  | .removing obj => [obj]
  | _ => []

/-- A deallocation of the object is still to zero the location. -/
def Call.Pending (call : Call Obj Loc) (obj : Obj) (loc : Loc) : Prop :=
  ∃ remaining, call = .zeroing obj remaining ∧ loc ∈ remaining

theorem Call.Pending.dying {call : Call Obj Loc} {obj : Obj} {loc : Loc} (pending : call.Pending obj loc) :
    obj ∈ call.dying := by
  obtain ⟨remaining, rfl, _⟩ := pending
  exact List.mem_singleton_self obj

/-- Threads that deallocate nothing at their position are not in a zeroing loop. -/
theorem Call.zeroing_iff_of_idle {before after : Call Obj Loc} (isIdle : before.dying = []) (idle : after.dying = [])
    (obj : Obj) : (∃ remaining, after = .zeroing obj remaining) ↔ ∃ remaining, before = .zeroing obj remaining := by
  constructor
  · rintro ⟨remaining, rfl⟩
    contradiction
  · rintro ⟨remaining, rfl⟩
    contradiction

theorem Call.not_pending_of_idle {call : Call Obj Loc} (idle : call.dying = []) (obj : Obj) (loc : Loc) :
    ¬ call.Pending obj loc := by
  intro pending
  have dying := pending.dying
  rw [idle] at dying
  contradiction

theorem Call.overwrites_holding {call : Call Obj Loc} {loc : Loc} (isOver : call.overwrites = some loc) :
    call.holding = some loc := by
  cases call <;> first | exact isOver | contradiction

/-- A thread outside of the locked sections is about to overwrite no slot. -/
theorem Call.not_overwrites {call : Call Obj Loc} (outside : call.holding = none) (loc : Loc) :
    call.overwrites ≠ some loc := by
  intro isOver
  have holding := Call.overwrites_holding isOver
  rw [outside] at holding
  contradiction

end Positions

section Components

variable {Tid Obj Loc Stripe : Type} (stripe : Loc → Stripe) (table : SideTable Obj Loc) (slots : Loc → Option Obj)
  (locks : Stripe → Option Tid) (call : Tid → Call Obj Loc)

/-- A thread inside a locked section holds the stripe lock of its slot. -/
def LocksHeld : Prop := ∀ thread loc, (call thread).holding = some loc → locks (stripe loc) = some thread

/-- The location is in the list of the object or in the list that a deallocation of the object is zeroing. -/
def Listed (loc : Loc) (obj : Obj) : Prop := loc ∈ registered table obj ∨ ∃ thread, (call thread).Pending obj loc

/-- A slot that no thread is about to overwrite is listed for the object that it holds. -/
def SlotsListed : Prop :=
  ∀ loc obj, slots loc = some obj → Listed table call loc obj ∨ ∃ thread, (call thread).overwrites = some loc

/-- A slot stays listed while a thread loads from it. -/
def LoadsListed : Prop := ∀ thread loc obj, call thread = .loading loc obj → Listed table call loc obj

/-- An object with locations left to zero has an entry. -/
def PendingPresent : Prop := ∀ thread obj loc, (call thread).Pending obj loc → (table obj).isSome = true

/-- The part of the invariant that is about locks and weak locations. -/
structure WeakInv : Prop where
  locks : LocksHeld stripe locks call
  slots : SlotsListed table slots call
  loads : LoadsListed table call
  pendings : PendingPresent table call

end Components

section Moves

variable {Tid Obj Loc Stripe : Type} {stripe : Loc → Stripe} {table table' : SideTable Obj Loc}
  {slots slots' : Loc → Option Obj} {locks locks' : Stripe → Option Tid} {call : Tid → Call Obj Loc} {thread : Tid}
  {loc : Loc} {obj : Obj} {entered : Call Obj Loc}

/-- Two threads never hold the lock of one slot. -/
theorem LocksHeld.unique (held : LocksHeld stripe locks call) {other : Tid}
    (first : (call thread).holding = some loc) (second : (call other).holding = some loc) : thread = other :=
  Option.some.inj ((held thread loc first).symm.trans (held other loc second))

theorem LocksHeld.not_holding (held : LocksHeld stripe locks call) (unlocked : locks (stripe loc) = none)
    (other : Tid) : (call other).holding ≠ some loc := by
  intro holding
  rw [held other loc holding] at unlocked
  contradiction

variable [DecidableEq Tid]

theorem LocksHeld.enter (held : LocksHeld stripe locks call)
    (kept : ∀ l, entered.holding = some l → (call thread).holding = some l) :
    LocksHeld stripe locks (Function.update call thread entered) := by
  intro other l holding
  by_cases same : other = thread
  · subst same
    rw [Function.update_self] at holding
    exact held other l (kept l holding)
  · rw [Function.update_of_ne same] at holding
    exact held other l holding

theorem LocksHeld.lock [DecidableEq Stripe] (held : LocksHeld stripe locks call) (unlocked : locks (stripe loc) = none)
    (holds : entered.holding = some loc) :
    LocksHeld stripe (Function.update locks (stripe loc) (some thread)) (Function.update call thread entered) := by
  intro other l holding
  by_cases same : other = thread
  · subst same
    rw [Function.update_self, holds] at holding
    rw [← Option.some.inj holding, Function.update_self]
  · rw [Function.update_of_ne same] at holding
    have taken := held other l holding
    rw [Function.update_of_ne, taken]
    intro sameStripe
    rw [sameStripe, unlocked] at taken
    contradiction

theorem LocksHeld.unlock [DecidableEq Stripe] (held : LocksHeld stripe locks call)
    (holds : (call thread).holding = some loc) (leaves : entered.holding = none) :
    LocksHeld stripe (Function.update locks (stripe loc) none) (Function.update call thread entered) := by
  intro other l holding
  by_cases same : other = thread
  · subst same
    rw [Function.update_self, leaves] at holding
    contradiction
  · rw [Function.update_of_ne same] at holding
    have taken := held other l holding
    rw [Function.update_of_ne, taken]
    intro sameStripe
    rw [sameStripe, held thread loc holds] at taken
    exact same (Option.some.inj taken).symm

/-- A location stays listed when the step accounts for its list and for the zeroing of its thread. -/
theorem Listed.enter (listed : Listed table call loc obj)
    (kept : loc ∈ registered table obj → loc ∈ registered table' obj ∨ entered.Pending obj loc)
    (pending : (call thread).Pending obj loc → entered.Pending obj loc) :
    Listed table' (Function.update call thread entered) loc obj := by
  have own : entered.Pending obj loc → Listed table' (Function.update call thread entered) loc obj := fun here =>
    .inr ⟨thread, by rwa [Function.update_self]⟩
  rcases listed with inList | ⟨other, isPending⟩
  · exact (kept inList).elim .inl own
  · by_cases same : other = thread
    · subst same
      exact own (pending isPending)
    · exact .inr ⟨other, by rwa [Function.update_of_ne same]⟩

/-- A step accounts for the slots that it fills, for the lists that it changes and for the slot of its thread. -/
theorem SlotsListed.enter (inv : SlotsListed table slots call)
    (filled : ∀ l o, slots' l = some o → slots l = some o ∨ Listed table' (Function.update call thread entered) l o)
    (kept : ∀ l o, slots' l = some o → Listed table call l o →
      Listed table' (Function.update call thread entered) l o ∨ entered.overwrites = some l)
    (done : ∀ l o, slots' l = some o → (call thread).overwrites = some l →
      Listed table' (Function.update call thread entered) l o ∨ entered.overwrites = some l) :
    SlotsListed table' slots' (Function.update call thread entered) := by
  have own : ∀ l, entered.overwrites = some l →
      ∃ other, (Function.update call thread entered other).overwrites = some l := fun l isOver =>
    ⟨thread, by rwa [Function.update_self]⟩
  intro l o holds
  rcases filled l o holds with old | new
  · rcases inv l o old with listed | ⟨other, isOver⟩
    · exact (kept l o holds listed).imp_right (own l)
    · by_cases same : other = thread
      · subst same
        exact (done l o holds isOver).imp_right (own l)
      · exact .inr ⟨other, by rwa [Function.update_of_ne same]⟩
  · exact .inl new

theorem LoadsListed.enter (inv : LoadsListed table call)
    (kept : ∀ other l o, other ≠ thread → call other = .loading l o → Listed table call l o →
      Listed table' (Function.update call thread entered) l o)
    (own : ∀ l o, entered = .loading l o → Listed table' (Function.update call thread entered) l o) :
    LoadsListed table' (Function.update call thread entered) := by
  intro other l o loading
  by_cases same : other = thread
  · subst same
    rw [Function.update_self] at loading
    exact own l o loading
  · rw [Function.update_of_ne same] at loading
    exact kept other l o same loading (inv other l o loading)

theorem PendingPresent.enter (inv : PendingPresent table call)
    (kept : ∀ other o l, other ≠ thread → (call other).Pending o l → (table o).isSome = true → (table' o).isSome = true)
    (own : ∀ o l, entered.Pending o l → (table' o).isSome = true) :
    PendingPresent table' (Function.update call thread entered) := by
  intro other o l pending
  by_cases same : other = thread
  · subst same
    rw [Function.update_self] at pending
    exact own o l pending
  · rw [Function.update_of_ne same] at pending
    exact kept other o l same pending (inv other o l pending)

end Moves

section Steps

variable {Tid Obj Loc Stripe : Type} {stripe : Loc → Stripe} {table table' : SideTable Obj Loc}
  {slots slots' : Loc → Option Obj} {locks locks' : Stripe → Option Tid} {call : Tid → Call Obj Loc} {thread : Tid}
  {entered : Call Obj Loc}

theorem WeakInv.start : WeakInv stripe (fun _ => none : SideTable Obj Loc) (fun _ => none) (fun _ => none)
    (fun _ : Tid => .user) where
  locks _ _ holding := absurd holding (by simp [Call.holding])
  slots _ _ holds := absurd holds (by simp)
  loads _ _ _ loading := absurd loading (by simp)
  pendings _ _ _ pending := absurd pending (by simp [Call.Pending])

variable (inv : WeakInv stripe table slots locks call)

include inv

/-- Every slot that a thread can lock is listed for the object that it holds. -/
theorem WeakInv.listed_of_unlocked {loc : Loc} {obj : Obj} (unlocked : locks (stripe loc) = none)
    (holds : slots loc = some obj) : Listed table call loc obj := by
  rcases inv.slots loc obj holds with listed | ⟨other, isOver⟩
  · exact listed
  · exact absurd (Call.overwrites_holding isOver) (inv.locks.not_holding unlocked other)

/-- A listed object has an entry. -/
theorem WeakInv.isSome_of_listed {loc : Loc} {obj : Obj} (listed : Listed table call loc obj) :
    (table obj).isSome = true := by
  rcases listed with inList | ⟨other, pending⟩
  · exact isSome_of_registered inList
  · exact inv.pendings other obj loc pending

/-- A change of the table that keeps every list and every entry. -/
theorem WeakInv.of_table (lists : ∀ o, registered table' o = registered table o)
    (present : ∀ o, (table o).isSome = true → (table' o).isSome = true) :
    WeakInv stripe table' slots locks call := by
  have listed : ∀ l o, Listed table call l o → Listed table' call l o := fun l o =>
    Or.imp_left fun member => (lists o).symm ▸ member
  exact ⟨inv.locks, fun l o holds => (inv.slots l o holds).imp_left (listed l o),
    fun other l o loading => listed l o (inv.loads other l o loading),
    fun other o l pending => present o (inv.pendings other o l pending)⟩

variable [DecidableEq Tid]

/-- A step of a thread without locations to zero that keeps every list and fills no slot. -/
theorem WeakInv.of_move (held : LocksHeld stripe locks' (Function.update call thread entered))
    (before : ∀ o l, ¬ (call thread).Pending o l) (after : ∀ o l, ¬ entered.Pending o l)
    (lists : ∀ o, registered table' o = registered table o)
    (present : ∀ other o l, other ≠ thread → (call other).Pending o l → (table o).isSome = true →
      (table' o).isSome = true)
    (filled : ∀ l o, slots' l = some o → slots l = some o)
    (done : ∀ l o, slots' l = some o → (call thread).overwrites ≠ some l)
    (loading : ∀ l o, entered = .loading l o → Listed table call l o) :
    WeakInv stripe table' slots' locks' (Function.update call thread entered) := by
  have kept : ∀ l o, Listed table call l o → Listed table' (Function.update call thread entered) l o := by
    intro l o listed
    exact listed.enter (fun member => .inl ((lists o).symm ▸ member)) fun pending => absurd pending (before o l)
  refine ⟨held, ?_, ?_, ?_⟩
  · exact inv.slots.enter (fun l o holds => .inl (filled l o holds)) (fun l o _ listed => .inl (kept l o listed))
      fun l o holds isOver => absurd isOver (done l o holds)
  · exact inv.loads.enter (fun _ l o _ _ => kept l o) fun l o isLoading => kept l o (loading l o isLoading)
  · exact inv.pendings.enter present fun o l pending => absurd pending (after o l)

/-- A thread with nothing left to zero leaves the zeroing loop. -/
theorem WeakInv.of_idle {obj : Obj} (phase : call thread = .zeroing obj [])
    (after : ∀ o remaining, entered ≠ .zeroing o remaining) (holding : entered.holding = none)
    (loading : ∀ l o, entered ≠ .loading l o) :
    WeakInv stripe table slots locks (Function.update call thread entered) := by
  refine inv.of_move (inv.locks.enter (by simp [holding])) ?_ ?_ (fun _ => rfl) (fun _ _ _ _ _ => id) (fun _ _ => id)
    (by simp [phase, Call.overwrites]) fun l o isLoading => absurd isLoading (loading l o)
  · rintro o l ⟨remaining, isZeroing, member⟩
    rw [phase] at isZeroing
    obtain ⟨rfl, rfl⟩ := Call.zeroing.inj isZeroing
    contradiction
  · rintro o l ⟨remaining, isZeroing, _⟩
    exact after o remaining isZeroing

/-- A body returns to the end of its `objc_release`. -/
theorem WeakInv.of_returned (user : call thread = .user) (obj : Obj) :
    WeakInv stripe table slots locks (Function.update call thread (.removing obj)) := by
  refine inv.of_move (inv.locks.enter (by simp [Call.holding])) ?_ ?_ (fun _ => rfl) (fun _ _ _ _ _ => id)
    (fun _ _ => id) (by simp [user, Call.overwrites]) (by simp)
  · exact Call.not_pending_of_idle (by rw [user]; rfl)
  · rintro o l ⟨remaining, isZeroing, _⟩
    contradiction

/-- The removal of an entry without locations of an object for which no other thread has locations left to zero. -/
theorem WeakInv.remove [DecidableEq Obj] {obj : Obj} (phase : call thread = .removing obj)
    (unlisted : registered table obj = []) (alone : ∀ other l, other ≠ thread → ¬ (call other).Pending obj l) :
    WeakInv stripe (removeEntry table obj) slots locks (Function.update call thread .user) := by
  refine inv.of_move (inv.locks.enter (by simp [Call.holding])) ?_ (Call.not_pending_of_idle rfl) (fun o => ?_)
    (fun other o l different pending present => ?_) (fun _ _ => id) (by simp [phase, Call.overwrites]) (by simp)
  · rintro o l ⟨remaining, isZeroing, _⟩
    rw [phase] at isZeroing
    contradiction
  · by_cases isObj : o = obj
    · rw [isObj, unlisted, registered, removeEntry, Function.update_self]
      rfl
    · rw [registered, removeEntry_other isObj, ← registered]
  · have isObj : o ≠ obj := by
      rintro rfl
      exact alone other l different pending
    rwa [removeEntry_other isObj]

/-- A release of the last reference hands the list of the object to the zeroing loop. -/
theorem WeakInv.dealloc {obj : Obj} (idle : (call thread).dying = []) (untouched : (call thread).overwrites = none)
    (others : ∀ o, o ≠ obj → table' o = table o) (isSome : (table obj).isSome = true → (table' obj).isSome = true) :
    WeakInv stripe table' slots locks (Function.update call thread (.zeroing obj (registered table obj))) := by
  have kept : ∀ l o, Listed table call l o →
      Listed table' (Function.update call thread (.zeroing obj (registered table obj))) l o := by
    intro l o listed
    refine listed.enter (fun member => ?_) fun pending => ?_
    · by_cases isObj : o = obj
      · subst isObj
        exact .inr ⟨registered table o, rfl, member⟩
      · left
        rwa [registered, others o isObj, ← registered]
    · exact absurd pending (Call.not_pending_of_idle idle o l)
  refine ⟨inv.locks.enter (by simp [Call.holding]),
    inv.slots.enter (fun _ _ => .inl) (fun l o _ listed => .inl (kept l o listed)) (by simp [untouched]),
    inv.loads.enter (fun _ l o _ _ => kept l o) (by simp),
    inv.pendings.enter (fun _ o _ _ _ inTable => ?_) ?_⟩
  · by_cases isObj : o = obj
    · subst isObj
      exact isSome inTable
    · rwa [others o isObj]
  · rintro o l ⟨remaining, isZeroing, member⟩
    obtain ⟨rfl, rfl⟩ := Call.zeroing.inj isZeroing
    exact isSome (isSome_of_registered member)

variable [DecidableEq Obj] [DecidableEq Loc]

omit [DecidableEq Tid] inv in
/-- Unregistering a slot keeps every other location listed. -/
theorem registered_unregister {loc l : Loc} {old : Option Obj} {o : Obj} (different : l ≠ loc)
    (member : l ∈ registered table o) : l ∈ registered (unregisterWeak table loc old) o := by
  rw [unregisterWeak_registered]
  split
  · exact List.mem_filter.mpr ⟨member, by simpa using different⟩
  · exact member

/-- A thread that holds the lock of a slot unregisters it. -/
theorem WeakInv.unregister {loc : Loc} {old : Option Obj} (holding : (call thread).holding = some loc)
    (idle : (call thread).dying = []) (untouched : (call thread).overwrites = none)
    (written : entered.overwrites = some loc) (after : entered.dying = []) :
    WeakInv stripe (unregisterWeak table loc old) slots locks (Function.update call thread entered) := by
  have kept : ∀ l o, l ≠ loc → Listed table call l o →
      Listed (unregisterWeak table loc old) (Function.update call thread entered) l o := by
    intro l o different listed
    refine listed.enter (fun member => .inl (registered_unregister different member)) ?_
    exact fun pending => absurd pending (Call.not_pending_of_idle idle o l)
  refine ⟨inv.locks.enter fun l isHolding => ?_, ?_, ?_, ?_⟩
  · rw [Call.overwrites_holding written] at isHolding
    rw [holding, isHolding]
  · refine inv.slots.enter (fun l o => .inl) (fun l o _ listed => ?_) fun l o _ isOver => ?_
    · by_cases same : l = loc
      · exact .inr (same ▸ written)
      · exact .inl (kept l o same listed)
    · rw [untouched] at isOver
      contradiction
  · refine inv.loads.enter (fun other l o different loading listed => kept l o ?_ listed) fun l o loading => ?_
    · rintro rfl
      have otherHolds : (call other).holding = some l := by rw [loading]; rfl
      exact different (inv.locks.unique otherHolds holding)
    · rw [loading] at written
      contradiction
  · exact inv.pendings.enter (fun _ o _ _ _ => unregisterWeak_isSome loc old)
      fun o l pending => absurd pending (Call.not_pending_of_idle after o l)

omit [DecidableEq Loc] in
/-- A thread that has unregistered the slot fills it with the stored object. -/
theorem WeakInv.register [DecidableEq Loc] [DecidableEq Stripe] {loc : Loc} {new : Option Obj}
    (phase : call thread = .registering loc new) :
    WeakInv stripe (registerWeak table loc new).1 (Function.update slots loc (registerWeak table loc new).2)
      (Function.update locks (stripe loc) none)
      (Function.update call thread (.stored loc (registerWeak table loc new).2)) := by
  have kept : ∀ l o, Listed table call l o → Listed (registerWeak table loc new).1
      (Function.update call thread (.stored loc (registerWeak table loc new).2)) l o := by
    intro l o listed
    refine listed.enter (fun member => .inl ?_) fun pending => ?_
    · rw [registerWeak_registered]
      split
      · exact List.mem_append_left [loc] member
      · exact member
    · exact absurd pending (Call.not_pending_of_idle (by rw [phase]; rfl) o l)
  have stored : ∀ o, (registerWeak table loc new).2 = some o → Listed (registerWeak table loc new).1
      (Function.update call thread (.stored loc (registerWeak table loc new).2)) loc o := by
    intro o isStored
    left
    rw [registerWeak_registered, if_pos isStored]
    exact List.mem_append_right _ (List.mem_singleton_self loc)
  refine ⟨inv.locks.unlock (by rw [phase]; rfl) rfl, ?_, ?_, ?_⟩
  · refine inv.slots.enter (fun l o holds => ?_) (fun l o _ listed => .inl (kept l o listed)) fun l o holds isOver => ?_
    · by_cases same : l = loc
      · subst same
        rw [Function.update_self] at holds
        exact .inr (stored o holds)
      · rw [Function.update_of_ne same] at holds
        exact .inl holds
    · rw [phase] at isOver
      obtain rfl : loc = l := Option.some.inj isOver
      rw [Function.update_self] at holds
      exact .inl (stored o holds)
  · exact inv.loads.enter (fun _ l o _ _ => kept l o) (by simp)
  · refine inv.pendings.enter (fun _ o _ _ _ => registerWeak_isSome loc new) ?_
    rintro o l ⟨remaining, isZeroing, _⟩
    contradiction

omit [DecidableEq Obj] in
/-- The zeroing loop takes a location off its list. -/
theorem WeakInv.zero {obj : Obj} {loc : Loc} {remaining : List Loc}
    (phase : call thread = .zeroing obj (loc :: remaining)) (unlocked : locks (stripe loc) = none) :
    WeakInv stripe table (Function.update slots loc none) locks
      (Function.update call thread (.zeroing obj remaining)) := by
  have kept : ∀ l o, l ≠ loc → Listed table call l o →
      Listed table (Function.update call thread (.zeroing obj remaining)) l o := by
    intro l o different listed
    refine listed.enter .inl ?_
    rintro ⟨all, isZeroing, member⟩
    rw [phase] at isZeroing
    obtain ⟨rfl, rfl⟩ := Call.zeroing.inj isZeroing
    exact ⟨remaining, rfl, (List.mem_cons.mp member).resolve_left different⟩
  have apart : ∀ l o, Function.update slots loc none l = some o → l ≠ loc := by
    rintro l o holds rfl
    rw [Function.update_self] at holds
    contradiction
  refine ⟨inv.locks.enter (by simp [Call.holding]), ?_, ?_, ?_⟩
  · refine inv.slots.enter (fun l o holds => ?_) (fun l o holds listed => .inl (kept l o (apart l o holds) listed))
      fun l o _ isOver => ?_
    · rw [Function.update_of_ne (apart l o holds)] at holds
      exact .inl holds
    · rw [phase] at isOver
      contradiction
  · refine inv.loads.enter (fun other l o _ loading => kept l o ?_) (by simp)
    rintro rfl
    exact inv.locks.not_holding unlocked other (by rw [loading]; rfl)
  · refine inv.pendings.enter (fun _ _ _ _ _ => id) ?_
    rintro o l ⟨all, isZeroing, member⟩
    obtain ⟨rfl, rfl⟩ := Call.zeroing.inj isZeroing
    exact inv.pendings thread obj l ⟨loc :: remaining, phase, List.mem_cons_of_mem loc member⟩

end Steps

end O3jc
