import O3jc.Memory.Slots

/-
This file follows addresses that the allocator hands out again while the `objc_release` of the previous object is still
at work on them.
-/

namespace O3jc

open Library

/-- The object whose locations a thread is zeroing. -/
def Call.zeroes {Obj Loc : Type} : Call Obj Loc → Option Obj
  | .zeroing obj _ => some obj
  | _ => none

theorem Call.Pending.zeroes {Obj Loc : Type} {call : Call Obj Loc} {obj : Obj} {loc : Loc}
    (pending : call.Pending obj loc) : call.zeroes = some obj := by
  obtain ⟨remaining, rfl, _⟩ := pending
  rfl

/-- The object whose entry the next step of a thread removes. -/
def Call.removes {Obj Loc : Type} : Call Obj Loc → Option Obj
  | .removing obj => some obj
  | _ => none

section Labels

variable {Tid Obj Loc Stripe : Type} [DecidableEq Obj] (m : Machine Tid Obj Loc Stripe)
  (label : Tid × MemOp Tid Obj Loc)

/-- Threads release and pass on only objects that they own a reference to. An address is free again from the moment
that `-dealloc` was sent to its previous object. -/
def Machine.Reusing : Prop :=
  match label.2 with
  | .allocate obj => refCount m.refs obj = 0 ∧ ∀ thread, (m.call thread).zeroes ≠ some obj
  | op => ∀ obj ∈ op.uses, (label.1, obj) ∈ m.refs

/-- An address is allocated without an entry. The removal at the end of `objc_release` finds no entry, an entry that
says what an absent one says, or a mark that no zeroing loop relies on. -/
def Machine.KeepsEntries : Prop :=
  match label.2 with
  | .allocate obj => m.table obj = none
  | .next => ∀ obj ∈ (m.call label.1).removes, ∀ entry ∈ m.table obj,
      if entry.deallocating then ∀ thread, (m.call thread).zeroes = some obj → (m.call thread).toZero = []
      else entry = .implicit
  | _ => True

variable [Fintype Tid]

instance Machine.decidableReusing [DecidableEq Tid] : Decidable (m.Reusing label) :=
  match label with
  | (_, .allocate obj) =>
      inferInstanceAs (Decidable (refCount m.refs obj = 0 ∧ ∀ thread, (m.call thread).zeroes ≠ some obj))
  | (thread, .give _ obj) => inferInstanceAs (Decidable (∀ o ∈ some obj, (thread, o) ∈ m.refs))
  | (thread, .retain obj) => inferInstanceAs (Decidable (∀ o ∈ obj, (thread, o) ∈ m.refs))
  | (thread, .release obj) => inferInstanceAs (Decidable (∀ o ∈ obj, (thread, o) ∈ m.refs))
  | (thread, .initWeak _ obj) => inferInstanceAs (Decidable (∀ o ∈ obj, (thread, o) ∈ m.refs))
  | (thread, .storeWeak _ new) => inferInstanceAs (Decidable (∀ o ∈ new, (thread, o) ∈ m.refs))
  | (thread, .loadWeakRetained _) => inferInstanceAs (Decidable (∀ o ∈ none, (thread, o) ∈ m.refs))
  | (thread, .destroyWeak _) => inferInstanceAs (Decidable (∀ o ∈ none, (thread, o) ∈ m.refs))
  | (thread, .next) => inferInstanceAs (Decidable (∀ o ∈ none, (thread, o) ∈ m.refs))
  | (thread, .sendDealloc _) => inferInstanceAs (Decidable (∀ o ∈ none, (thread, o) ∈ m.refs))
  | (thread, .returnDealloc) => inferInstanceAs (Decidable (∀ o ∈ none, (thread, o) ∈ m.refs))

instance Machine.decidableKeepsEntries [DecidableEq Loc] : Decidable (m.KeepsEntries label) :=
  match label with
  | (_, .allocate obj) => inferInstanceAs (Decidable (m.table obj = none))
  | (thread, .next) => inferInstanceAs (Decidable (∀ obj ∈ (m.call thread).removes, ∀ entry ∈ m.table obj,
      if entry.deallocating then ∀ other, (m.call other).zeroes = some obj → (m.call other).toZero = []
      else entry = .implicit))
  | (_, .give _ _) => inferInstanceAs (Decidable True)
  | (_, .retain _) => inferInstanceAs (Decidable True)
  | (_, .release _) => inferInstanceAs (Decidable True)
  | (_, .initWeak _ _) => inferInstanceAs (Decidable True)
  | (_, .storeWeak _ _) => inferInstanceAs (Decidable True)
  | (_, .loadWeakRetained _) => inferInstanceAs (Decidable True)
  | (_, .destroyWeak _) => inferInstanceAs (Decidable True)
  | (_, .sendDealloc _) => inferInstanceAs (Decidable True)
  | (_, .returnDealloc) => inferInstanceAs (Decidable True)

end Labels

section States

variable {Tid Obj Loc : Type} {count : Nat} {deallocator : Option Tid} {entry : Option (SideTableEntry Loc)}

/-- The state of an object survives the removal of an entry that is marked or says what an absent one says. -/
theorem ObjectState.absent (state : ObjectState count deallocator entry)
    (kept : ∀ e ∈ entry, e.deallocating = true ∨ e.retainCount = 1) :
    ObjectState count (none : Option Tid) (none : Option (SideTableEntry Loc)) := by
  cases state with
  | free => exact .free
  | implicit => exact .implicit
  | counted locs positive =>
      rcases kept _ rfl with marked | isOne
      · contradiction
      · rw [show count = 1 from isOne]
        exact .implicit
  | dyingImplicit thread => exact .free
  | dying thread count => exact .free

/-- An entry of an object without references is marked. -/
theorem ObjectState.marked (state : ObjectState 0 deallocator entry) {e : SideTableEntry Loc}
    (present : entry = some e) : e.deallocating = true := by
  cases state with
  | free => contradiction
  | counted locs positive => omega
  | dyingImplicit thread => contradiction
  | dying thread count =>
      obtain rfl := Option.some.inj present
      rfl

theorem ObjectState.weakLocations_of_marked (state : ObjectState count deallocator entry) {e : SideTableEntry Loc}
    (present : entry = some e) (marked : e.deallocating = true) : e.weakLocations = [] := by
  cases state with
  | free => contradiction
  | implicit => contradiction
  | counted locs positive =>
      obtain rfl := Option.some.inj present
      contradiction
  | dyingImplicit thread => contradiction
  | dying thread count =>
      obtain rfl := Option.some.inj present
      rfl

end States

section Components

variable {Tid Obj Loc : Type} (call : Tid → Call Obj Loc) (refs : List (Tid × Obj))

/-- Locations are zeroed for objects without references only. -/
def ZeroedDead [DecidableEq Obj] : Prop := ∀ thread obj, (call thread).zeroes = some obj → refCount refs obj = 0

/-- A thread owns the object that it is about to store. -/
def StoresOwned : Prop := ∀ thread obj, (call thread).storing = some obj → (thread, obj) ∈ refs

variable {call refs} {refs' : List (Tid × Obj)} [DecidableEq Tid] {thread : Tid} {entered : Call Obj Loc}

theorem ZeroedDead.enter [DecidableEq Obj] (inv : ZeroedDead call refs)
    (kept : ∀ o, refCount refs o = 0 → refCount refs' o = 0)
    (own : ∀ o, entered.zeroes = some o → refCount refs' o = 0) :
    ZeroedDead (Function.update call thread entered) refs' := by
  intro other o zeroes
  by_cases same : other = thread
  · rw [same, Function.update_self] at zeroes
    exact own o zeroes
  · rw [Function.update_of_ne same] at zeroes
    exact kept o (inv other o zeroes)

theorem StoresOwned.enter (inv : StoresOwned call refs)
    (kept : ∀ other o, other ≠ thread → (other, o) ∈ refs → (other, o) ∈ refs')
    (own : ∀ o, entered.storing = some o → (thread, o) ∈ refs') :
    StoresOwned (Function.update call thread entered) refs' := by
  intro other o storing
  by_cases same : other = thread
  · rw [same, Function.update_self] at storing
    rw [same]
    exact own o storing
  · rw [Function.update_of_ne same] at storing
    exact kept other o same (inv other o storing)

end Components

/-- The invariant of the memory calls when addresses are reused. -/
structure ReuseInv {Tid Obj Loc Stripe : Type} [DecidableEq Obj] (stripe : Loc → Stripe)
    (m : Machine Tid Obj Loc Stripe) : Prop where
  weak : WeakInv stripe m.table m.slots m.locks m.call
  objects : ∃ deallocator, ObjectsCounted m.table m.refs deallocator
  zeroed : ZeroedDead m.call m.refs
  stores : StoresOwned m.call m.refs

section Steps

variable {Tid Obj Loc Stripe : Type} [DecidableEq Obj] {stripe : Loc → Stripe} {m next : Machine Tid Obj Loc Stripe}
  {thread : Tid} {op : MemOp Tid Obj Loc}

theorem ReuseInv.start : ReuseInv stripe (Machine.start : Machine Tid Obj Loc Stripe) where
  weak := WeakInv.start
  objects := ⟨fun _ => none, fun _ => .free⟩
  zeroed _ _ zeroes := absurd zeroes (by simp [Machine.start, Call.zeroes])
  stores _ _ storing := absurd storing (by simp [Machine.start, Call.storing])

variable (inv : ReuseInv stripe m)

include inv

/-- No thread is still to zero a location for an object with references. -/
theorem ReuseInv.not_pending {obj : Obj} (positive : 0 < refCount m.refs obj) (other : Tid) (loc : Loc) :
    ¬ (m.call other).Pending obj loc := by
  intro pending
  have := inv.zeroed other obj pending.zeroes
  omega

/-- An entry of an object for which a thread is still to zero a location is marked. -/
theorem ReuseInv.marked_of_pending {obj : Obj} {other : Tid} {loc : Loc} (pending : (m.call other).Pending obj loc) :
    ∃ entry, m.table obj = some entry ∧ entry.deallocating = true := by
  obtain ⟨deallocator, counted⟩ := inv.objects
  obtain ⟨entry, present⟩ := Option.isSome_iff_exists.mp (inv.weak.pendings other obj loc pending)
  have state := counted obj
  rw [inv.zeroed other obj pending.zeroes] at state
  exact ⟨entry, present, state.marked present⟩

variable [DecidableEq Tid]

/-- A step that leaves the references alone and starts no zeroing loop. -/
theorem ReuseInv.of_call {table : SideTable Obj Loc} {slots : Loc → Option Obj} {locks : Stripe → Option Tid}
    {bodies : Tid → List Obj} {recorded : Obj → Option Tid} {deallocs : Obj → Nat} {entered : Call Obj Loc}
    (weak : WeakInv stripe table slots locks (Function.update m.call thread entered))
    (objects : ∃ deallocator, ObjectsCounted table m.refs deallocator)
    (zeroing : ∀ o, entered.zeroes = some o → (m.call thread).zeroes = some o)
    (storing : ∀ o, entered.storing = some o → (thread, o) ∈ m.refs) :
    ReuseInv stripe ({ m with
      table, slots, locks, bodies, deallocs
      call := Function.update m.call thread entered
      deallocator := recorded } : Machine Tid Obj Loc Stripe) where
  weak := weak
  objects := objects
  zeroed := inv.zeroed.enter (fun _ => id) fun o zeroes => inv.zeroed thread o (zeroing o zeroes)
  stores := inv.stores.enter (fun _ _ _ => id) storing

/-- A step outside of the deallocations that leaves the table alone. -/
theorem ReuseInv.of_move {slots : Loc → Option Obj} {locks : Stripe → Option Tid} {entered : Call Obj Loc}
    (held : LocksHeld stripe locks (Function.update m.call thread entered))
    (before : (m.call thread).dying = []) (after : entered.dying = [])
    (storing : ∀ o, entered.storing = some o → (thread, o) ∈ m.refs)
    (filled : ∀ l o, slots l = some o → m.slots l = some o)
    (done : ∀ l o, slots l = some o → (m.call thread).overwrites ≠ some l)
    (loading : ∀ l o, entered = .loading l o → Listed m.table m.call l o) :
    ReuseInv stripe { m with slots, locks, call := Function.update m.call thread entered } := by
  refine inv.of_call (inv.weak.of_move held (Call.not_pending_of_idle before) (Call.not_pending_of_idle after)
    (fun _ => rfl) (fun _ _ _ _ _ => id) filled done loading) inv.objects (fun o zeroes => ?_) storing
  cases entered <;> contradiction

variable {obj : Obj}

omit [DecidableEq Tid] in
/-- A fresh object at an address without an entry. -/
theorem ReuseInv.allocate {deallocs : Obj → Nat} (fresh : refCount m.refs obj = 0) (absent : m.table obj = none)
    (free : ∀ other, (m.call other).zeroes ≠ some obj) :
    ReuseInv stripe { m with refs := (thread, obj) :: m.refs, deallocs } := by
  obtain ⟨deallocator, counted⟩ := inv.objects
  have removed : removeEntry m.table obj = m.table := by
    rw [removeEntry, ← absent, Function.update_eq_self]
  have idle : ObjectsCounted m.table m.refs (Function.update deallocator obj none) := by
    have counted' := counted.remove (fresh ▸ .free : ObjectState (refCount m.refs obj) none none)
    rwa [removed] at counted'
  refine ⟨inv.weak, ⟨_, idle.allocate fresh absent (Function.update_self ..)⟩, fun other o zeroes => ?_,
    fun other o storing => List.mem_cons_of_mem _ (inv.stores other o storing)⟩
  have isObj : obj ≠ o := by
    rintro rfl
    exact free other zeroes
  rw [refCount_cons, if_neg isObj]
  exact inv.zeroed other o zeroes

/-- Handing a reference over changes its owner only. -/
theorem ReuseInv.give (user : m.call thread = .user) (owned : (thread, obj) ∈ m.refs) (other : Tid) :
    ReuseInv stripe { m with refs := (other, obj) :: m.refs.erase (thread, obj) } := by
  obtain ⟨deallocator, counted⟩ := inv.objects
  refine ⟨inv.weak, ⟨_, counted.give owned other⟩, fun user' o zeroes => ?_, fun user' o storing => ?_⟩
  · rw [refCount_cons, refCount_erase owned]
    exact inv.zeroed user' o zeroes
  · have different : user' ≠ thread := by
      rintro rfl
      rw [user] at storing
      contradiction
    exact List.mem_cons_of_mem _ ((List.mem_erase_of_ne (by simp [different])).mpr (inv.stores user' o storing))

/-- A retain of a known object, from user code or from a weak load. -/
theorem ReuseInv.gain {locks : Stripe → Option Tid} {entered : Call Obj Loc}
    (held : LocksHeld stripe locks (Function.update m.call thread entered))
    (known : 0 < refCount m.refs obj ∨ (m.table obj).isSome = true) (before : (m.call thread).dying = [])
    (untouched : (m.call thread).overwrites = none) (after : entered.dying = []) (storing : entered.storing = none)
    (loading : ∀ l o, entered ≠ .loading l o) :
    ReuseInv stripe { m with
      table := (objcRetain m.table (some obj)).1
      refs := gain m.refs thread (objcRetain m.table (some obj)).2
      locks
      call := Function.update m.call thread entered } := by
  obtain ⟨deallocator, counted⟩ := inv.objects
  refine ⟨inv.weak.of_move held (Call.not_pending_of_idle before) (Call.not_pending_of_idle after)
    (objcRetain_registered (some obj)) (fun _ _ _ _ _ => objcRetain_isSome (some obj)) (fun _ _ => id)
    (by simp [untouched]) fun l o isLoading => absurd isLoading (loading l o), ⟨_, counted.gain known⟩,
    inv.zeroed.enter (fun o dead => ?_) fun o zeroes => ?_, inv.stores.enter (fun other o _ owned => ?_) ?_⟩
  · by_contra positive
    have := counted.pos_of_gain known (Nat.pos_of_ne_zero positive)
    omega
  · cases entered <;> contradiction
  · cases (objcRetain m.table (some obj)).2 with
    | none => exact owned
    | some result => exact List.mem_cons_of_mem _ owned
  · simp [storing]

/-- A release that keeps other references. -/
theorem ReuseInv.release (user : m.call thread = .user) (owned : (thread, obj) ∈ m.refs)
    {table : SideTable Obj Loc} (kept : releaseEntry m.table obj = (table, none)) :
    ReuseInv stripe { m with table, refs := m.refs.erase (thread, obj) } := by
  obtain ⟨deallocator, counted⟩ := inv.objects
  obtain ⟨objects, lists, present⟩ := counted.release owned kept
  refine ⟨inv.weak.of_table lists present, ⟨_, objects⟩, fun other o zeroes => ?_, fun other o storing => ?_⟩
  · have dead := inv.zeroed other o zeroes
    have := refCount_erase owned o
    show refCount (m.refs.erase (thread, obj)) o = 0
    omega
  · have different : other ≠ thread := by
      rintro rfl
      rw [user] at storing
      contradiction
    exact (List.mem_erase_of_ne (by simp [different])).mpr (inv.stores other o storing)

/-- A release of the last reference begins the deallocation. -/
theorem ReuseInv.dealloc {recorded : Obj → Option Tid} (user : m.call thread = .user) (owned : (thread, obj) ∈ m.refs)
    {table : SideTable Obj Loc} {weakLocations : List Loc}
    (dropped : releaseEntry m.table obj = (table, some weakLocations)) :
    ReuseInv stripe ({ m with
      table
      refs := m.refs.erase (thread, obj)
      deallocator := recorded }.enter thread (.zeroing obj weakLocations)) := by
  obtain ⟨deallocator, counted⟩ := inv.objects
  obtain ⟨rfl, last, objects, isSome, others⟩ := counted.dealloc owned dropped thread
  refine ⟨inv.weak.dealloc (by rw [user]; rfl) (by rw [user]; rfl) others isSome, ⟨_, objects⟩,
    inv.zeroed.enter (fun o dead => ?_) fun o zeroes => ?_,
    inv.stores.enter (fun other o different mine => ?_) (by simp [Call.storing])⟩
  · have := refCount_erase owned o
    simp only [Machine.enter]
    omega
  · obtain rfl : obj = o := Option.some.inj zeroes
    exact last
  · exact (List.mem_erase_of_ne (by simp [different])).mpr mine

/-- The removal at the end of `objc_release` when it takes nothing away from a new object. -/
theorem ReuseInv.remove {recorded : Obj → Option Tid} (phase : m.call thread = .removing obj)
    (keeps : m.KeepsEntries (thread, .next)) :
    ReuseInv stripe ({ m with table := removeEntry m.table obj, deallocator := recorded }.enter thread .user) := by
  obtain ⟨deallocator, counted⟩ := inv.objects
  have keeps := keeps obj (by rw [phase]; rfl)
  have unlisted : registered m.table obj = [] := by
    cases present : m.table obj with
    | none => rw [registered, present]; rfl
    | some entry =>
        rw [registered_of_present present]
        have kept := keeps entry present
        by_cases marked : entry.deallocating = true
        · exact (counted obj).weakLocations_of_marked present marked
        · rw [if_neg marked] at kept
          rw [kept]
          rfl
  have alone : ∀ other l, other ≠ thread → ¬ (m.call other).Pending obj l := by
    intro other l _ pending
    obtain ⟨entry, present, marked⟩ := inv.marked_of_pending pending
    have kept := keeps entry present
    rw [if_pos marked] at kept
    exact Call.not_pending_of_toZero (kept other pending.zeroes) pending
  have absent := (counted obj).absent fun entry present => by
    have kept := keeps entry present
    by_cases marked : entry.deallocating = true
    · exact .inl marked
    · rw [if_neg marked] at kept
      exact .inr (congrArg SideTableEntry.retainCount kept)
  exact inv.of_call (inv.weak.remove phase unlisted alone) ⟨_, counted.remove absent⟩ (by simp [Call.zeroes])
    (by simp [Call.storing])

end Steps

section Runs

variable {Tid Obj Loc Stripe : Type} [DecidableEq Tid] [DecidableEq Obj] [DecidableEq Loc] [DecidableEq Stripe]
  {stripe : Loc → Stripe} {m next : Machine Tid Obj Loc Stripe} {thread : Tid} {op : MemOp Tid Obj Loc}

section Positions

variable (inv : ReuseInv stripe m) {entered : Call Obj Loc}

include inv

omit [DecidableEq Loc] [DecidableEq Stripe] in
/-- A thread outside of the locked sections and the deallocations stays outside. -/
theorem ReuseInv.of_outside {slots : Loc → Option Obj}
    (before : (m.call thread).holding = none ∧ (m.call thread).dying = [])
    (after : entered.holding = none ∧ entered.dying = [])
    (storing : ∀ o, entered.storing = some o → (thread, o) ∈ m.refs)
    (filled : ∀ l o, slots l = some o → m.slots l = some o) :
    ReuseInv stripe ({ m with slots }.enter thread entered) := by
  refine inv.of_move (inv.weak.locks.enter (by simp [after.1])) before.2 after.2 storing filled
    (fun l _ _ isOver => ?_) ?_
  · exact absurd isOver (Call.not_overwrites before.1 l)
  · rintro l o rfl
    exact absurd after.1 (by simp [Call.holding])

omit [DecidableEq Loc] in
/-- A thread takes the lock of a slot. -/
theorem ReuseInv.of_lock {loc : Loc} (unlocked : m.locks (stripe loc) = none)
    (before : (m.call thread).holding = none ∧ (m.call thread).dying = [])
    (after : entered.holding = some loc ∧ entered.dying = [])
    (storing : ∀ o, entered.storing = some o → (thread, o) ∈ m.refs)
    (loading : ∀ l o, entered = .loading l o → m.slots loc = some o) :
    ReuseInv stripe (m.lock stripe thread loc entered) := by
  refine inv.of_move (inv.weak.locks.lock unlocked after.1) before.2 after.2 storing (fun _ _ => id)
    (fun l _ _ isOver => ?_) ?_
  · exact absurd isOver (Call.not_overwrites before.1 l)
  · rintro l o rfl
    obtain rfl : l = loc := Option.some.inj after.1
    exact inv.weak.listed_of_unlocked unlocked (loading l o rfl)

end Positions

/-- Every step that takes no entry away from a new object keeps the invariant. -/
theorem ReuseInv.step (inv : ReuseInv stripe m) (reusing : m.Reusing (thread, op))
    (keeps : m.KeepsEntries (thread, op)) (result : m.step stripe (thread, op) = some next) : ReuseInv stripe next := by
  have outside : ∀ {call : Call Obj Loc}, m.call thread = call → call.holding = none ∧ call.dying = [] →
      (m.call thread).holding = none ∧ (m.call thread).dying = [] := by
    rintro call rfl both
    exact both
  obtain ⟨deallocator, counted⟩ := inv.objects
  cases Machine.step_effect result with
  | allocate user => exact inv.allocate reusing.1 keeps reusing.2
  | give user => exact inv.give user (reusing _ rfl) _
  | @retain obj user =>
      cases obj with
      | none => exact inv.of_outside (outside user ⟨rfl, rfl⟩) ⟨rfl, rfl⟩ (by simp [Call.storing]) fun _ _ => id
      | some obj =>
          have known := refCount_pos (reusing obj rfl)
          exact inv.gain (inv.weak.locks.enter (by simp [Call.holding])) (.inl known) (by rw [user]; rfl)
            (by rw [user]; rfl) rfl rfl (by simp)
  | releaseNull user => exact inv
  | release user kept => exact inv.release user (reusing _ rfl) kept
  | dealloc user dropped => exact inv.dealloc user (reusing _ rfl) dropped
  | initNull user =>
      exact inv.of_outside (outside user ⟨rfl, rfl⟩) ⟨rfl, rfl⟩ (by simp [Call.storing])
        fun l o holds => (ne_of_cleared holds).2
  | init user =>
      exact inv.of_outside (outside user ⟨rfl, rfl⟩) ⟨rfl, rfl⟩ reusing fun l o holds => (ne_of_cleared holds).2
  | store user => exact inv.of_outside (outside user ⟨rfl, rfl⟩) ⟨rfl, rfl⟩ reusing fun _ _ => id
  | acquire phase unlocked =>
      refine inv.of_lock unlocked (outside phase ⟨rfl, rfl⟩) ⟨rfl, rfl⟩ (fun o storing => ?_) (by simp)
      exact inv.stores thread o (by rw [phase]; exact storing)
  | @unregister loc new old phase =>
      refine inv.of_call (inv.weak.unregister (by rw [phase]; rfl) (by rw [phase]; rfl) (by rw [phase]; rfl) rfl rfl)
        ⟨deallocator, fun o => (counted o).unregister loc old⟩ (by simp [Call.zeroes]) fun o storing => ?_
      exact inv.stores thread o (by rw [phase]; exact storing)
  | @register loc new phase =>
      have known : ∀ o ∈ new, 0 < refCount m.refs o ∨ (m.table o).isSome = true := fun o isNew =>
        .inl (refCount_pos (inv.stores thread o (by rw [phase]; exact isNew)))
      exact inv.of_call (inv.weak.register phase) ⟨deallocator, counted.register loc known⟩ (by simp [Call.zeroes])
        (by simp [Call.storing])
  | loadNull user unlocked isNull =>
      exact inv.of_outside (outside user ⟨rfl, rfl⟩) ⟨rfl, rfl⟩ (by simp [Call.storing]) fun _ _ => id
  | load user unlocked holds =>
      refine inv.of_lock unlocked (outside user ⟨rfl, rfl⟩) ⟨rfl, rfl⟩ (by simp [Call.storing]) fun l o loading => ?_
      obtain ⟨rfl, rfl⟩ := Call.loading.inj loading
      exact holds
  | @retainLoaded loc obj phase =>
      have present := inv.weak.isSome_of_listed (inv.weak.loads thread loc obj phase)
      exact inv.gain (inv.weak.locks.unlock (by rw [phase]; rfl) rfl) (.inr present) (by rw [phase]; rfl)
        (by rw [phase]; rfl) rfl rfl (by simp)
  | destroy user unlocked =>
      exact inv.of_lock unlocked (outside user ⟨rfl, rfl⟩) ⟨rfl, rfl⟩ (by simp [Call.storing]) (by simp)
  | @unregisterDestroyed loc old phase =>
      exact inv.of_call (inv.weak.unregister (by rw [phase]; rfl) (by rw [phase]; rfl) (by rw [phase]; rfl) rfl rfl)
        ⟨deallocator, fun o => (counted o).unregister loc old⟩ (by simp [Call.zeroes]) (by simp [Call.storing])
  | clear phase =>
      refine inv.of_move (inv.weak.locks.unlock (by rw [phase]; rfl) rfl) (by rw [phase]; rfl) rfl
        (by simp [Call.storing]) (fun l o holds => (ne_of_cleared holds).2) (fun l o holds isOver => ?_) (by simp)
      rw [phase] at isOver
      exact (ne_of_cleared holds).1 (Option.some.inj isOver).symm
  | zero phase unlocked =>
      exact inv.of_call (inv.weak.zero phase unlocked) ⟨deallocator, counted⟩ (by rw [phase]; exact fun _ => id)
        (by simp [Call.storing])
  | sendFound phase =>
      exact inv.of_call (inv.weak.of_idle phase (by simp) rfl (by simp)) ⟨deallocator, counted⟩
        (by simp [Call.zeroes]) (by simp [Call.storing])
  | sendMissing phase =>
      exact inv.of_call (inv.weak.of_idle phase (by simp) rfl (by simp)) ⟨deallocator, counted⟩
        (by simp [Call.zeroes]) (by simp [Call.storing])
  | returnDealloc user body =>
      exact inv.of_call (inv.weak.of_returned user _) ⟨deallocator, counted⟩ (by simp [Call.zeroes])
        (by simp [Call.storing])
  | remove phase => exact inv.remove phase keeps
  | finishRetain phase =>
      exact inv.of_outside (outside phase ⟨rfl, rfl⟩) ⟨rfl, rfl⟩ (by simp [Call.storing]) fun _ _ => id
  | finishStore phase =>
      exact inv.of_outside (outside phase ⟨rfl, rfl⟩) ⟨rfl, rfl⟩ (by simp [Call.storing]) fun _ _ => id
  | finishLoad phase =>
      exact inv.of_outside (outside phase ⟨rfl, rfl⟩) ⟨rfl, rfl⟩ (by simp [Call.storing]) fun _ _ => id
  | finishDestroy phase =>
      exact inv.of_outside (outside phase ⟨rfl, rfl⟩) ⟨rfl, rfl⟩ (by simp [Call.storing]) fun _ _ => id

theorem ReuseInv.of_run (run : Reachable (Machine.step stripe)
    (fun state label => state.Reusing label ∧ state.KeepsEntries label) Machine.start m) : ReuseInv stripe m := by
  apply run.invariant (ReuseInv stripe)
  · exact ReuseInv.start
  · rintro state ⟨thread, op⟩ next inv ⟨reusing, keeps⟩ result
    exact inv.step reusing keeps result

/-- What the owners of references to an object can rely on whatever was at its address before. -/
structure Machine.ReuseSafe (stripe : Loc → Stripe) (m : Machine Tid Obj Loc Stripe) (obj : Obj) : Prop where
  retains : ∀ thread, m.call thread = .user →
    ∃ next, m.step stripe (thread, .retain (some obj)) = some next ∧ next.call thread = .retained (some obj)
  loads : ∀ thread loc, m.call thread = .loading loc obj →
    ∃ next, m.step stripe (thread, .next) = some next ∧ next.call thread = .loaded loc (some obj)
  stores : ∀ thread loc, m.call thread = .registering loc (some obj) →
    ∃ next, m.step stripe (thread, .next) = some next ∧ next.call thread = .stored loc (some obj) ∧
      next.slots loc = some obj ∧ loc ∈ registered next.table obj
  /-- The count is one for the allocation and one more for each retain and weak load that was not released. -/
  count : objcRetainCount m.table (some obj) = refCount m.refs obj
  /-- A slot that names the object is registered until a thread has unregistered it to overwrite it. -/
  slots : ∀ loc, m.slots loc = some obj →
    loc ∈ registered m.table obj ∨ ∃ thread, (m.call thread).overwrites = some loc
  /-- No deallocation of a previous object is still to zero a slot. -/
  unzeroed : ∀ thread loc, ¬ (m.call thread).Pending obj loc

theorem ReuseInv.reuseSafe (inv : ReuseInv stripe m) {obj : Obj} (live : 0 < refCount m.refs obj) :
    m.ReuseSafe stripe obj := by
  obtain ⟨deallocator, counted⟩ := inv.objects
  have state := counted obj
  have alive := state.deallocator_eq_none live
  have retained : (objcRetain m.table (some obj)).2 = some obj := by
    rcases state.retain (.inl live) with ⟨_, success, _⟩ | ⟨dying, _⟩
    · exact success
    · exact absurd alive dying
  refine ⟨fun thread user => ?_, fun thread loc phase => ?_, fun thread loc phase => ?_, ?_, fun loc holds => ?_,
    inv.not_pending live⟩
  · apply Exists.intro
    constructor
    · simp only [Machine.step, user, Machine.invoke]
      rfl
    · simp only [Machine.enter, Function.update_self, retained]
  · apply Exists.intro
    constructor
    · simp only [Machine.step, Machine.advance, phase]
      rfl
    · simp only [Machine.unlock, Function.update_self, retained]
  · have stored : (registerWeak m.table loc (some obj)).2 = some obj := by
      rcases state.register (.inl live) loc with ⟨_, success, _⟩ | ⟨dying, _⟩
      · exact success
      · exact absurd alive dying
    apply Exists.intro
    constructor
    · simp only [Machine.step, Machine.advance, phase]
      rfl
    · simp only [Machine.unlock, Function.update_self, stored, registerWeak_registered, if_true, true_and]
      exact List.mem_append_right _ (List.mem_singleton_self loc)
  · rw [alive] at state
    exact state.retainCount live
  · rcases inv.weak.slots loc obj holds with (member | ⟨thread, pending⟩) | overwritten
    · exact .inl member
    · exact absurd pending (inv.not_pending live thread loc)
    · exact .inr overwritten

/-- In every interleaving whose allocations and removals leave the entries of other objects alone, a new object inherits
and loses nothing at its address. -/
theorem reusedRun_safe {obj : Obj}
    (run : Reachable (Machine.step stripe) (fun state label => state.Reusing label ∧ state.KeepsEntries label)
      (Machine.start : Machine Tid Obj Loc Stripe) m) (live : 0 < refCount m.refs obj) : m.ReuseSafe stripe obj :=
  (ReuseInv.of_run run).reuseSafe live

end Runs

/-- Thread 1 gets the address of an object without an entry whose `-dealloc` is running, and counts up and down before
the removal. -/
theorem reusedRun_safe_vacant : ∃ m : Machine (Fin 2) Nat Nat Nat, m.bodies 0 = [5] ∧ refCount m.refs 5 = 2 ∧
    m.ReuseSafe (· % 127) 5 := by
  have ran : ∃ m ∈ replay (Machine.step (· % 127)) (fun state label => state.Reusing label ∧ state.KeepsEntries label)
      (Machine.start : Machine (Fin 2) Nat Nat Nat)
      [(0, .allocate 5), (0, .release (some 5)), (0, .sendDealloc true), (1, .allocate 5), (1, .retain (some 5)),
        (1, .next)], m.bodies 0 = [5] ∧ refCount m.refs 5 = 2 := ⟨_, rfl, rfl, rfl⟩
  obtain ⟨m, run, body, references⟩ := exists_reachable_of_replay ran
  exact ⟨m, body, references, reusedRun_safe run (by omega)⟩

/-- An object that gets its address in the body of `-dealloc` while the entry is marked cannot be retained. One that
gets it while there is no entry loses its count to the removal. -/
theorem reusedAddress_unsafe :
    (∃ m : Machine (Fin 2) Nat Nat Nat, Reachable (Machine.step (· % 127)) Machine.Reusing Machine.start m ∧
      (1, 5) ∈ m.refs ∧ m.call 1 = .retained none) ∧
    ∃ m : Machine (Fin 2) Nat Nat Nat, Reachable (Machine.step (· % 127)) Machine.Reusing Machine.start m ∧
      refCount m.refs 5 = 2 ∧ objcRetainCount m.table (some 5) = 1 := by
  have marked : ∃ m ∈ replay (Machine.step (· % 127)) Machine.Reusing (Machine.start : Machine (Fin 2) Nat Nat Nat)
      [(0, .allocate 5), (0, .retain (some 5)), (0, .next), (0, .release (some 5)), (0, .release (some 5)),
        (0, .sendDealloc true), (1, .allocate 5), (1, .retain (some 5))],
      (1, 5) ∈ m.refs ∧ m.call 1 = .retained none := ⟨_, rfl, by decide, rfl⟩
  have removed : ∃ m ∈ replay (Machine.step (· % 127)) Machine.Reusing (Machine.start : Machine (Fin 2) Nat Nat Nat)
      [(0, .allocate 5), (0, .release (some 5)), (0, .sendDealloc true), (1, .allocate 5), (1, .retain (some 5)),
        (1, .next), (0, .returnDealloc), (0, .next)],
      refCount m.refs 5 = 2 ∧ objcRetainCount m.table (some 5) = 1 := ⟨_, rfl, rfl, rfl⟩
  exact ⟨exists_reachable_of_replay marked, exists_reachable_of_replay removed⟩

end O3jc
