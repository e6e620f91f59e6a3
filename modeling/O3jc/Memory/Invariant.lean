import O3jc.Memory.Registration

namespace O3jc

open Library

section References

variable {Tid Obj : Type} [DecidableEq Tid] [DecidableEq Obj]

/-- The number of references to an object that threads own. -/
def refCount (refs : List (Tid × Obj)) (obj : Obj) : Nat := (refs.map Prod.snd).count obj

omit [DecidableEq Tid] in
theorem refCount_cons (refs : List (Tid × Obj)) (thread : Tid) (obj other : Obj) :
    refCount ((thread, obj) :: refs) other = refCount refs other + if obj = other then 1 else 0 := by
  simp [refCount, List.count_cons]

theorem refCount_erase {refs : List (Tid × Obj)} {thread : Tid} {obj : Obj} (member : (thread, obj) ∈ refs)
    (other : Obj) :
    refCount (refs.erase (thread, obj)) other + (if obj = other then 1 else 0) = refCount refs other := by
  rw [← refCount_cons _ thread]
  exact ((List.perm_cons_erase member).map Prod.snd).count_eq other |>.symm

omit [DecidableEq Tid] in
theorem refCount_pos {refs : List (Tid × Obj)} {thread : Tid} {obj : Obj} (member : (thread, obj) ∈ refs) :
    0 < refCount refs obj := List.count_pos_iff.mpr (List.mem_map_of_mem member)

end References

section Components

variable {Tid Obj Loc : Type} (table : SideTable Obj Loc) (call : Tid → Call Obj Loc) (bodies : Tid → List Obj)
  (refs : List (Tid × Obj)) (deallocator : Obj → Option Tid) (deallocs : Obj → Nat)

/-- The ledgers and the table agree on every object. -/
def ObjectsCounted [DecidableEq Obj] : Prop :=
  ∀ obj, ObjectState (refCount refs obj) (deallocator obj) (table obj)

/-- Every object that is being deallocated stands once in the positions of its deallocating thread. -/
def DyingPlaced : Prop :=
  ∀ thread, ((call thread).dying ++ bodies thread).Nodup ∧
    ∀ obj, obj ∈ (call thread).dying ++ bodies thread ↔ deallocator obj = some thread

/-- A thread owns the object, or it deallocates the object and the table has an entry of it. -/
def Passes (thread : Tid) (obj : Obj) : Prop :=
  (thread, obj) ∈ refs ∨ (deallocator obj = some thread ∧ (table obj).isSome = true)

def StoresPassed : Prop :=
  ∀ thread obj, (call thread).storing = some obj → Passes table refs deallocator thread obj

/-- The message `-dealloc` is sent at most once, after the zeroing and never to an object with references. -/
def DeallocsSent [DecidableEq Obj] : Prop :=
  ∀ obj, deallocs obj ≤ 1 ∧ (0 < refCount refs obj → deallocs obj = 0) ∧
    ∀ thread, deallocator obj = some thread → (deallocs obj = 0 ↔ ∃ remaining, call thread = .zeroing obj remaining)

end Components

/-- The invariant of the memory calls. -/
structure MemInv {Tid Obj Loc Stripe : Type} [DecidableEq Obj] (stripe : Loc → Stripe)
    (m : Machine Tid Obj Loc Stripe) : Prop where
  locks : LocksHeld stripe m.locks m.call
  objects : ObjectsCounted m.table m.refs m.deallocator
  places : DyingPlaced m.call m.bodies m.deallocator
  stores : StoresPassed m.table m.call m.refs m.deallocator
  slots : SlotsListed m.table m.slots m.call
  loads : LoadsListed m.table m.call
  pendings : PendingPresent m.table m.call
  deallocs : DeallocsSent m.call m.refs m.deallocator m.deallocs

theorem MemInv.weak {Tid Obj Loc Stripe : Type} [DecidableEq Obj] {stripe : Loc → Stripe}
    {m : Machine Tid Obj Loc Stripe} (inv : MemInv stripe m) : WeakInv stripe m.table m.slots m.locks m.call :=
  ⟨inv.locks, inv.slots, inv.loads, inv.pendings⟩

section Counts

variable {Tid Obj Loc : Type} [DecidableEq Tid] [DecidableEq Obj] {table table' : SideTable Obj Loc}
  {refs : List (Tid × Obj)} {deallocator : Obj → Option Tid} {thread : Tid} {obj : Obj}
  (inv : ObjectsCounted table refs deallocator)

include inv

omit [DecidableEq Tid] in
/-- A retain of a known object succeeds exactly when the object is not being deallocated. -/
theorem ObjectsCounted.gain (known : 0 < refCount refs obj ∨ (table obj).isSome = true) :
    ObjectsCounted (objcRetain table (some obj)).1 (gain refs thread (objcRetain table (some obj)).2) deallocator := by
  intro o
  rcases (inv obj).retain known with ⟨_, success, state⟩ | ⟨_, failure, same⟩
  · rw [success]
    simp only [O3jc.gain, refCount_cons]
    by_cases isObj : obj = o
    · subst isObj
      rw [if_pos rfl]
      exact state
    · rw [if_neg isObj, objcRetain_other (Ne.symm isObj)]
      exact inv o
  · rw [failure, same]
    exact inv o

omit [DecidableEq Tid] in
/-- Only an object with references gains one. -/
theorem ObjectsCounted.pos_of_gain (known : 0 < refCount refs obj ∨ (table obj).isSome = true) {o : Obj}
    (positive : 0 < refCount (O3jc.gain refs thread (objcRetain table (some obj)).2) o) : 0 < refCount refs o := by
  rcases (inv obj).retain known with ⟨alive, success, _⟩ | ⟨_, failure, _⟩
  · rw [success] at positive
    simp only [O3jc.gain, refCount_cons] at positive
    by_cases isObj : obj = o
    · subst isObj
      rcases known with positive | present
      · exact positive
      · have := (inv obj).known present
        rw [alive] at this
        simpa using this
    · rwa [if_neg isObj] at positive
  · rwa [failure] at positive

/-- A release that keeps other references keeps every list and every entry. -/
theorem ObjectsCounted.release (owned : (thread, obj) ∈ refs) (kept : releaseEntry table obj = (table', none)) :
    ObjectsCounted table' (refs.erase (thread, obj)) deallocator ∧
      (∀ o, registered table' o = registered table o) ∧
      ∀ o, (table o).isSome = true → (table' o).isSome = true := by
  have count := refCount_erase owned
  rcases (inv obj).release (refCount_pos owned) thread with
    ⟨more, table'', released, state, same, isSome, others⟩ | ⟨_, table'', released, _⟩
  · rw [kept] at released
    obtain rfl : table' = table'' := (Prod.mk.inj released).1
    refine ⟨fun o => ?_, fun o => ?_, fun o inTable => ?_⟩
    · by_cases isObj : o = obj
      · have less := count obj
        rw [if_pos rfl] at less
        rw [isObj, show refCount (refs.erase (thread, obj)) obj = refCount refs obj - 1 by omega]
        exact state
      · have equal := count o
        rw [if_neg (Ne.symm isObj), Nat.add_zero] at equal
        rw [equal, others o isObj]
        exact inv o
    · by_cases isObj : o = obj
      · rw [isObj, same]
      · rw [registered, others o isObj, registered]
    · by_cases isObj : o = obj
      · rw [isObj, isSome]
      · rwa [others o isObj]
  · rw [kept] at released
    exact absurd (Prod.mk.inj released).2 (by simp)

/-- A release of the last reference extracts the list of the object. -/
theorem ObjectsCounted.dealloc (owned : (thread, obj) ∈ refs) {weakLocations : List Loc}
    (dropped : releaseEntry table obj = (table', some weakLocations)) (releaser : Tid) :
    weakLocations = registered table obj ∧ refCount (refs.erase (thread, obj)) obj = 0 ∧
      ObjectsCounted table' (refs.erase (thread, obj)) (Function.update deallocator obj (some releaser)) ∧
      ((table obj).isSome = true → (table' obj).isSome = true) ∧ ∀ o, o ≠ obj → table' o = table o := by
  have count := refCount_erase owned
  rcases (inv obj).release (refCount_pos owned) releaser with ⟨_, table'', released, _⟩ |
    ⟨last, table'', released, state, isSome, others⟩
  · rw [dropped] at released
    exact absurd (Prod.mk.inj released).2 (by simp)
  rw [dropped] at released
  obtain rfl : table' = table'' := (Prod.mk.inj released).1
  have less := count obj
  rw [if_pos rfl] at less
  refine ⟨Option.some.inj (Prod.mk.inj released).2, by omega, fun o => ?_, isSome, others⟩
  by_cases isObj : o = obj
  · rw [isObj, show refCount (refs.erase (thread, obj)) obj = 0 by omega, Function.update_self]
    exact state
  · have equal := count o
    rw [if_neg (Ne.symm isObj), Nat.add_zero] at equal
    rw [equal, others o isObj, Function.update_of_ne isObj]
    exact inv o

omit [DecidableEq Tid] in
/-- A fresh object has one reference and no entry. -/
theorem ObjectsCounted.allocate (fresh : refCount refs obj = 0) (absent : table obj = none)
    (idle : deallocator obj = none) : ObjectsCounted table ((thread, obj) :: refs) deallocator := by
  intro o
  rw [refCount_cons]
  by_cases isObj : obj = o
  · subst isObj
    rw [if_pos rfl, fresh, idle, absent]
    exact .implicit
  · rw [if_neg isObj]
    exact inv o

/-- Handing a reference over changes its owner only. -/
theorem ObjectsCounted.give (owned : (thread, obj) ∈ refs) (other : Tid) :
    ObjectsCounted table ((other, obj) :: refs.erase (thread, obj)) deallocator := by
  intro o
  rw [refCount_cons, refCount_erase owned]
  exact inv o

omit [DecidableEq Tid] in
theorem ObjectsCounted.register {new : Option Obj} (loc : Loc)
    (known : ∀ o ∈ new, 0 < refCount refs o ∨ (table o).isSome = true) :
    ObjectsCounted (registerWeak table loc new).1 refs deallocator := by
  intro o
  cases new with
  | none => exact inv o
  | some obj =>
      by_cases same : o = obj
      · subst same
        rcases (inv o).register (known o rfl) loc with ⟨_, _, state⟩ | ⟨_, _, same⟩
        · exact state
        · rw [same]
          exact inv o
      · rw [registerWeak_other loc same]
        exact inv o

omit [DecidableEq Tid] in
/-- The removal of an entry leaves the object in a state without one. -/
theorem ObjectsCounted.remove {state : Option Tid}
    (absent : ObjectState (refCount refs obj) state (none : Option (SideTableEntry Loc))) :
    ObjectsCounted (removeEntry table obj) refs (Function.update deallocator obj state) := by
  intro o
  by_cases isObj : o = obj
  · subst isObj
    rw [Function.update_self, removeEntry, Function.update_self]
    exact absent
  · rw [Function.update_of_ne isObj, removeEntry_other isObj]
    exact inv o

end Counts

section Moves

variable {Tid Obj Loc : Type} [DecidableEq Tid] [DecidableEq Obj] {table table' : SideTable Obj Loc}
  {call : Tid → Call Obj Loc} {bodies bodies' : Tid → List Obj} {refs refs' : List (Tid × Obj)}
  {deallocator deallocator' : Obj → Option Tid} {deallocs : Obj → Nat} {thread : Tid} {obj : Obj}
  {entered : Call Obj Loc}

omit [DecidableEq Obj] in
theorem StoresPassed.enter (inv : StoresPassed table call refs deallocator)
    (kept : ∀ other o, other ≠ thread → Passes table refs deallocator other o →
      Passes table' refs' deallocator' other o)
    (own : ∀ o, entered.storing = some o → Passes table' refs' deallocator' thread o) :
    StoresPassed table' (Function.update call thread entered) refs' deallocator' := by
  intro other o storing
  by_cases same : other = thread
  · subst same
    rw [Function.update_self] at storing
    exact own o storing
  · rw [Function.update_of_ne same] at storing
    exact kept other o same (inv other o storing)

omit [DecidableEq Obj] in
/-- The thread keeps its dying objects, possibly between its call and its bodies. -/
theorem DyingPlaced.enter (inv : DyingPlaced call bodies deallocator)
    (own : entered.dying ++ bodies' thread = (call thread).dying ++ bodies thread)
    (others : ∀ other, other ≠ thread → bodies' other = bodies other) :
    DyingPlaced (Function.update call thread entered) bodies' deallocator := by
  intro other
  by_cases same : other = thread
  · subst same
    rw [Function.update_self, own]
    exact inv other
  · rw [Function.update_of_ne same, others other same]
    exact inv other

/-- A release that gives up the last reference makes its thread the deallocating one. -/
theorem DyingPlaced.begin (inv : DyingPlaced call bodies deallocator) (idle : (call thread).dying = [])
    (alive : deallocator obj = none) (dying : entered.dying = [obj]) :
    DyingPlaced (Function.update call thread entered) bodies
      (Function.update deallocator obj (some thread)) := by
  intro other
  obtain ⟨nodup, places⟩ := inv other
  have absent : obj ∉ (call other).dying ++ bodies other := by
    rw [places obj, alive]
    simp
  by_cases same : other = thread
  · subst same
    rw [idle, List.nil_append] at nodup absent places
    rw [Function.update_self, dying]
    refine ⟨List.nodup_cons.mpr ⟨absent, nodup⟩, fun o => ?_⟩
    by_cases isObj : o = obj
    · simp [isObj]
    · simp [isObj, places o]
  · rw [Function.update_of_ne same]
    refine ⟨nodup, fun o => ?_⟩
    by_cases isObj : o = obj
    · subst isObj
      rw [Function.update_self]
      exact ⟨fun member => absurd member absent, fun taken => absurd (Option.some.inj taken) (Ne.symm same)⟩
    · rw [Function.update_of_ne isObj, places o]

/-- The removal of the entry ends the deallocation. -/
theorem DyingPlaced.remove (inv : DyingPlaced call bodies deallocator) (removing : (call thread).dying = [obj])
    (idle : entered.dying = []) :
    DyingPlaced (Function.update call thread entered) bodies (Function.update deallocator obj none) := by
  have isDeallocator : deallocator obj = some thread := by
    rw [← (inv thread).2 obj, removing]
    exact List.mem_cons_self
  intro other
  obtain ⟨nodup, places⟩ := inv other
  by_cases same : other = thread
  · subst same
    rw [removing, List.singleton_append, List.nodup_cons] at nodup
    rw [Function.update_self, idle, List.nil_append]
    refine ⟨nodup.2, fun o => ?_⟩
    by_cases isObj : o = obj
    · subst isObj
      rw [Function.update_self]
      simpa using nodup.1
    · rw [Function.update_of_ne isObj, ← places o, removing]
      simp [isObj]
  · rw [Function.update_of_ne same]
    refine ⟨nodup, fun o => ?_⟩
    by_cases isObj : o = obj
    · subst isObj
      rw [Function.update_self, places o, isDeallocator]
      simpa using Ne.symm same
    · rw [Function.update_of_ne isObj, places o]

/-- A step that moves no thread into or out of a zeroing loop. -/
theorem DeallocsSent.enter (inv : DeallocsSent call refs deallocator deallocs)
    (zeroing : ∀ o, (∃ remaining, entered = .zeroing o remaining) ↔ ∃ remaining, call thread = .zeroing o remaining) :
    DeallocsSent (Function.update call thread entered) refs deallocator deallocs := by
  intro o
  obtain ⟨once, alive, sent⟩ := inv o
  refine ⟨once, alive, fun other isDeallocator => ?_⟩
  rw [sent other isDeallocator]
  by_cases same : other = thread
  · subst same
    rw [Function.update_self]
    exact (zeroing o).symm
  · rw [Function.update_of_ne same]

end Moves
section Steps

variable {Tid Obj Loc Stripe : Type} [DecidableEq Tid] [DecidableEq Obj] {stripe : Loc → Stripe}
  {m : Machine Tid Obj Loc Stripe} (inv : MemInv stripe m) {thread : Tid}

include inv

/-- A step inside the slot functions keeps the ledgers. -/
theorem MemInv.of_call {table : SideTable Obj Loc} {slots : Loc → Option Obj} {locks : Stripe → Option Tid}
    {entered : Call Obj Loc} (weak : WeakInv stripe table slots locks (Function.update m.call thread entered))
    (objects : ObjectsCounted table m.refs m.deallocator)
    (present : ∀ o, (m.table o).isSome = true → (table o).isSome = true)
    (dying : entered.dying = (m.call thread).dying)
    (zeroing : ∀ o, (∃ remaining, entered = .zeroing o remaining) ↔ ∃ remaining, m.call thread = .zeroing o remaining)
    (storing : ∀ o, entered.storing = some o → Passes m.table m.refs m.deallocator thread o) :
    MemInv stripe { m with table, slots, locks, call := Function.update m.call thread entered } where
  locks := weak.locks
  objects := objects
  places := inv.places.enter (by rw [dying]) fun _ _ => rfl
  stores := inv.stores.enter (fun _ o _ passes => passes.imp_right fun both => ⟨both.1, present o both.2⟩)
    fun o isStoring => (storing o isStoring).imp_right fun both => ⟨both.1, present o both.2⟩
  slots := weak.slots
  loads := weak.loads
  pendings := weak.pendings
  deallocs := inv.deallocs.enter zeroing

/-- A step outside of the zeroing loop that leaves the table alone. -/
theorem MemInv.of_move {slots : Loc → Option Obj} {locks : Stripe → Option Tid} {entered : Call Obj Loc}
    (held : LocksHeld stripe locks (Function.update m.call thread entered))
    (before : (m.call thread).dying = []) (after : entered.dying = [])
    (storing : ∀ o, entered.storing = some o → Passes m.table m.refs m.deallocator thread o)
    (filled : ∀ l o, slots l = some o → m.slots l = some o)
    (done : ∀ l o, slots l = some o → (m.call thread).overwrites ≠ some l)
    (loading : ∀ l o, entered = .loading l o → Listed m.table m.call l o) :
    MemInv stripe { m with slots, locks, call := Function.update m.call thread entered } :=
  inv.of_call (inv.weak.of_move held (Call.not_pending_of_idle before) (Call.not_pending_of_idle after)
    (fun _ => rfl) (fun _ _ _ _ _ => id) filled done loading) inv.objects (fun _ => id) (after.trans before.symm)
    (Call.zeroing_iff_of_idle before after) storing

omit [DecidableEq Tid] inv in
theorem known_of_passes {obj : Obj} (passes : Passes m.table m.refs m.deallocator thread obj) :
    0 < refCount m.refs obj ∨ (m.table obj).isSome = true :=
  passes.imp refCount_pos And.right

omit [DecidableEq Tid] in
theorem MemInv.deallocator_of_dying {obj : Obj} (dying : obj ∈ (m.call thread).dying) :
    m.deallocator obj = some thread := ((inv.places thread).2 obj).mp (List.mem_append_left _ dying)

omit [DecidableEq Tid] in
/-- An object that somebody owns a reference to is not being deallocated. -/
theorem MemInv.deallocator_of_owned {obj : Obj} (owned : (thread, obj) ∈ m.refs) : m.deallocator obj = none :=
  (inv.objects obj).deallocator_eq_none (refCount_pos owned)

variable [DecidableEq Loc]

/-- A thread that holds the lock of a slot unregisters it. -/
theorem MemInv.unregister {loc : Loc} {old : Option Obj} {entered : Call Obj Loc}
    (holding : (m.call thread).holding = some loc) (idle : (m.call thread).dying = [])
    (untouched : (m.call thread).overwrites = none) (written : entered.overwrites = some loc)
    (after : entered.dying = [])
    (storing : ∀ o, entered.storing = some o → (m.call thread).storing = some o) :
    MemInv stripe { m with
      table := unregisterWeak m.table loc old
      call := Function.update m.call thread entered } :=
  inv.of_call (inv.weak.unregister holding idle untouched written after)
    (fun o => (inv.objects o).unregister loc old) (fun _ => unregisterWeak_isSome loc old) (after.trans idle.symm)
    (Call.zeroing_iff_of_idle idle after) fun o isStoring => inv.stores thread o (storing o isStoring)

/-- A thread that has unregistered the slot fills it with the stored object. -/
theorem MemInv.register [DecidableEq Stripe] {loc : Loc} {new : Option Obj}
    (phase : m.call thread = .registering loc new) :
    MemInv stripe ({ m with
      table := (registerWeak m.table loc new).1
      slots := Function.update m.slots loc (registerWeak m.table loc new).2 }.unlock stripe thread loc
        (.stored loc (registerWeak m.table loc new).2)) :=
  inv.of_call (inv.weak.register phase)
    (inv.objects.register loc fun o isNew => known_of_passes (inv.stores thread o (by rw [phase]; exact isNew)))
    (fun _ => registerWeak_isSome loc new) (by rw [phase]; rfl) (by simp [phase]) (by simp [Call.storing])

omit [DecidableEq Loc] in
/-- The zeroing loop takes a location off its list. -/
theorem MemInv.zero [DecidableEq Loc] {obj : Obj} {loc : Loc} {remaining : List Loc}
    (phase : m.call thread = .zeroing obj (loc :: remaining)) (unlocked : m.locks (stripe loc) = none) :
    MemInv stripe ({ m with slots := Function.update m.slots loc none }.enter thread (.zeroing obj remaining)) :=
  inv.of_call (inv.weak.zero phase unlocked) inv.objects (fun _ => id) (by rw [phase]; rfl)
    (by rw [phase]; simp) (by simp [Call.storing])

end Steps

section Ledgers

variable {Tid Obj Loc Stripe : Type} [DecidableEq Tid] [DecidableEq Obj] {stripe : Loc → Stripe}
  {m : Machine Tid Obj Loc Stripe}

omit [DecidableEq Tid] in
/-- More references to objects that had some leave the messages as they are. -/
theorem DeallocsSent.of_refs {call : Tid → Call Obj Loc} {refs refs' : List (Tid × Obj)}
    {deallocator : Obj → Option Tid} {deallocs : Obj → Nat} (inv : DeallocsSent call refs deallocator deallocs)
    (positive : ∀ o, 0 < refCount refs' o → 0 < refCount refs o) : DeallocsSent call refs' deallocator deallocs := by
  intro o
  obtain ⟨once, alive, sent⟩ := inv o
  exact ⟨once, fun some => alive (positive o some), sent⟩

omit [DecidableEq Tid] in
theorem DeallocsSent.allocate {call : Tid → Call Obj Loc} {refs : List (Tid × Obj)}
    {deallocator : Obj → Option Tid} {deallocs : Obj → Nat} (inv : DeallocsSent call refs deallocator deallocs)
    {thread : Tid} {obj : Obj} (idle : deallocator obj = none) :
    DeallocsSent call ((thread, obj) :: refs) deallocator (Function.update deallocs obj 0) := by
  intro o
  rw [refCount_cons]
  by_cases isObj : obj = o
  · subst isObj
    rw [Function.update_self, idle]
    simp
  · rw [if_neg isObj, Function.update_of_ne (Ne.symm isObj)]
    exact inv o

/-- The message goes out once the loop has no location left. -/
theorem DeallocsSent.send {call : Tid → Call Obj Loc} {refs : List (Tid × Obj)} {deallocator : Obj → Option Tid}
    {deallocs : Obj → Nat} (inv : DeallocsSent call refs deallocator deallocs) {thread : Tid} {obj : Obj}
    (phase : call thread = .zeroing obj []) (isDeallocator : deallocator obj = some thread)
    (dead : refCount refs obj = 0) {entered : Call Obj Loc} (after : ∀ o remaining, entered ≠ .zeroing o remaining) :
    DeallocsSent (Function.update call thread entered) refs deallocator
      (Function.update deallocs obj (deallocs obj + 1)) := by
  intro o
  obtain ⟨once, alive, sent⟩ := inv o
  by_cases isObj : o = obj
  · subst isObj
    have unsent := (sent thread isDeallocator).mpr ⟨[], phase⟩
    rw [Function.update_self, unsent, dead]
    refine ⟨by omega, by omega, fun other isOther => ?_⟩
    obtain rfl : thread = other := Option.some.inj (isDeallocator.symm.trans isOther)
    rw [Function.update_self]
    simp [after]
  · rw [Function.update_of_ne isObj]
    refine ⟨once, alive, fun other isOther => ?_⟩
    rw [sent other isOther]
    by_cases same : other = thread
    · subst same
      rw [Function.update_self, phase]
      simp [after, Ne.symm isObj]
    · rw [Function.update_of_ne same]

/-- The end of the deallocation leaves nothing to send. -/
theorem DeallocsSent.remove {call : Tid → Call Obj Loc} {refs : List (Tid × Obj)} {deallocator : Obj → Option Tid}
    {deallocs : Obj → Nat} (inv : DeallocsSent call refs deallocator deallocs) {thread : Tid} {obj : Obj}
    (phase : call thread = .removing obj) {entered : Call Obj Loc}
    (after : ∀ o remaining, entered ≠ .zeroing o remaining) :
    DeallocsSent (Function.update call thread entered) refs (Function.update deallocator obj none) deallocs := by
  intro o
  obtain ⟨once, alive, sent⟩ := inv o
  refine ⟨once, alive, fun other isOther => ?_⟩
  by_cases isObj : o = obj
  · rw [isObj, Function.update_self] at isOther
    contradiction
  · rw [Function.update_of_ne isObj] at isOther
    rw [sent other isOther]
    by_cases same : other = thread
    · subst same
      rw [Function.update_self, phase]
      simp [after]
    · rw [Function.update_of_ne same]

variable (inv : MemInv stripe m) {thread : Tid} {obj : Obj}

include inv

/-- A retain of a known object, from user code or from a weak load. -/
theorem MemInv.gain {locks : Stripe → Option Tid} {entered : Call Obj Loc}
    (held : LocksHeld stripe locks (Function.update m.call thread entered))
    (known : 0 < refCount m.refs obj ∨ (m.table obj).isSome = true) (before : (m.call thread).dying = [])
    (untouched : (m.call thread).overwrites = none) (after : entered.dying = []) (storing : entered.storing = none)
    (loading : ∀ l o, entered ≠ .loading l o) :
    MemInv stripe { m with
      table := (objcRetain m.table (some obj)).1
      refs := gain m.refs thread (objcRetain m.table (some obj)).2
      locks
      call := Function.update m.call thread entered } := by
  have weak : WeakInv stripe (objcRetain m.table (some obj)).1 m.slots locks (Function.update m.call thread entered) :=
    inv.weak.of_move held (Call.not_pending_of_idle before) (Call.not_pending_of_idle after)
      (objcRetain_registered (some obj)) (fun _ _ _ _ _ => objcRetain_isSome (some obj)) (fun _ _ => id)
      (by simp [untouched]) fun l o isLoading => absurd isLoading (loading l o)
  refine ⟨weak.locks, inv.objects.gain known, inv.places.enter (by rw [after, before]) fun _ _ => rfl,
    inv.stores.enter (fun other o _ passes => ?_) (by simp [storing]), weak.slots, weak.loads, weak.pendings,
    (inv.deallocs.enter (Call.zeroing_iff_of_idle before after)).of_refs fun o => inv.objects.pos_of_gain known⟩
  refine passes.imp (fun owned => ?_) fun both => ⟨both.1, objcRetain_isSome (some obj) both.2⟩
  cases (objcRetain m.table (some obj)).2 with
  | none => exact owned
  | some result => exact List.mem_cons_of_mem _ owned

/-- A release that keeps other references. -/
theorem MemInv.release (user : m.call thread = .user) (owned : (thread, obj) ∈ m.refs)
    {table : SideTable Obj Loc} (kept : releaseEntry m.table obj = (table, none)) :
    MemInv stripe { m with table, refs := m.refs.erase (thread, obj) } := by
  obtain ⟨objects, lists, present⟩ := inv.objects.release owned kept
  have weak := inv.weak.of_table lists present
  refine ⟨weak.locks, objects, inv.places, fun other o storing => ?_, weak.slots, weak.loads, weak.pendings,
    inv.deallocs.of_refs fun o => ?_⟩
  · have different : other ≠ thread := by
      rintro rfl
      rw [user] at storing
      contradiction
    refine (inv.stores other o storing).imp (fun here => ?_) fun both => ⟨both.1, present o both.2⟩
    exact (List.mem_erase_of_ne (by simp [different])).mpr here
  · show 0 < refCount (m.refs.erase (thread, obj)) o → 0 < refCount m.refs o
    have := refCount_erase owned o
    omega

/-- A release of the last reference begins the deallocation. -/
theorem MemInv.dealloc (user : m.call thread = .user) (owned : (thread, obj) ∈ m.refs)
    {table : SideTable Obj Loc} {weakLocations : List Loc}
    (dropped : releaseEntry m.table obj = (table, some weakLocations)) :
    MemInv stripe ({ m with
      table
      refs := m.refs.erase (thread, obj)
      deallocator := Function.update m.deallocator obj (some thread) }.enter thread (.zeroing obj weakLocations)) := by
  have alive := inv.deallocator_of_owned owned
  obtain ⟨rfl, _, objects, isSome, others⟩ := inv.objects.dealloc owned dropped thread
  have weak : WeakInv stripe table m.slots m.locks
      (Function.update m.call thread (.zeroing obj (registered m.table obj))) :=
    inv.weak.dealloc (by rw [user]; rfl) (by rw [user]; rfl) others isSome
  refine ⟨weak.locks, objects, inv.places.begin (by rw [user]; rfl) alive rfl,
    inv.stores.enter (fun other o different passes => ?_) (by simp [Call.storing]), weak.slots, weak.loads,
    weak.pendings, ?_⟩
  · rcases passes with here | ⟨isDeallocator, inTable⟩
    · exact .inl ((List.mem_erase_of_ne (by simp [different])).mpr here)
    · have isObj : o ≠ obj := by
        rintro rfl
        rw [alive] at isDeallocator
        contradiction
      refine .inr ⟨?_, by simpa only [Machine.enter, others o isObj] using inTable⟩
      simp only [Machine.enter]
      rwa [Function.update_of_ne isObj]
  · intro o
    obtain ⟨once, positive, sent⟩ := inv.deallocs o
    refine ⟨once, fun some => positive ?_, fun other isDeallocator => ?_⟩
    · have some' : 0 < refCount (m.refs.erase (thread, obj)) o := some
      have := refCount_erase owned o
      omega
    simp only [Machine.enter] at isDeallocator ⊢
    by_cases isObj : o = obj
    · subst isObj
      rw [Function.update_self] at isDeallocator
      obtain rfl := Option.some.inj isDeallocator
      rw [Function.update_self]
      exact ⟨fun _ => ⟨_, rfl⟩, fun _ => positive (refCount_pos owned)⟩
    · rw [Function.update_of_ne isObj] at isDeallocator
      rw [sent other isDeallocator]
      by_cases same : other = thread
      · subst same
        rw [Function.update_self, user]
        simp [Ne.symm isObj]
      · rw [Function.update_of_ne same]

omit [DecidableEq Tid] in
/-- A fresh object has one reference and no entry. -/
theorem MemInv.allocate (fresh : refCount m.refs obj = 0) (idle : m.deallocator obj = none) :
    MemInv stripe { m with refs := (thread, obj) :: m.refs, deallocs := Function.update m.deallocs obj 0 } := by
  have state := inv.objects obj
  rw [fresh, idle] at state
  exact ⟨inv.locks, inv.objects.allocate fresh state.eq_none_of_free idle, inv.places,
    fun other o storing => (inv.stores other o storing).imp_left (List.mem_cons_of_mem _), inv.slots, inv.loads,
    inv.pendings, inv.deallocs.allocate idle⟩

/-- Handing a reference over changes its owner only. -/
theorem MemInv.give (user : m.call thread = .user) (owned : (thread, obj) ∈ m.refs) (other : Tid) :
    MemInv stripe { m with refs := (other, obj) :: m.refs.erase (thread, obj) } := by
  refine ⟨inv.locks, inv.objects.give owned other, inv.places, fun user' o storing => ?_, inv.slots, inv.loads,
    inv.pendings, inv.deallocs.of_refs fun o => ?_⟩
  · have different : user' ≠ thread := by
      rintro rfl
      rw [user] at storing
      contradiction
    refine (inv.stores user' o storing).imp_left fun here => ?_
    exact List.mem_cons_of_mem _ ((List.mem_erase_of_ne (by simp [different])).mpr here)
  · rw [refCount_cons, refCount_erase owned]
    exact id

/-- The message `-dealloc` runs a body or goes straight to the removal. -/
theorem MemInv.send (phase : m.call thread = .zeroing obj []) {entered : Call Obj Loc} {bodies : Tid → List Obj}
    (same : entered.dying ++ bodies thread = [obj] ++ m.bodies thread)
    (others : ∀ other, other ≠ thread → bodies other = m.bodies other)
    (after : ∀ o remaining, entered ≠ .zeroing o remaining) (holding : entered.holding = none)
    (storing : entered.storing = none) (loading : ∀ l o, entered ≠ .loading l o) :
    MemInv stripe { m with
      deallocs := Function.update m.deallocs obj (m.deallocs obj + 1)
      bodies
      call := Function.update m.call thread entered } := by
  have isDeallocator : m.deallocator obj = some thread := inv.deallocator_of_dying (by rw [phase]; exact .head [])
  have dead : refCount m.refs obj = 0 := by
    have state := inv.objects obj
    rw [isDeallocator] at state
    exact state.count_eq_zero
  have weak : WeakInv stripe m.table m.slots m.locks (Function.update m.call thread entered) :=
    inv.weak.of_idle phase after holding loading
  exact ⟨weak.locks, inv.objects, inv.places.enter (by rw [same, phase]; rfl) others,
    inv.stores.enter (fun _ _ _ => id) (by simp [storing]), weak.slots, weak.loads, weak.pendings,
    inv.deallocs.send phase isDeallocator dead after⟩

/-- A body returns to the end of its `objc_release`. -/
theorem MemInv.returnDealloc (user : m.call thread = .user) {rest : List Obj} (body : m.bodies thread = obj :: rest) :
    MemInv stripe ({ m with bodies := Function.update m.bodies thread rest }.enter thread (.removing obj)) := by
  have weak := inv.weak.of_returned user obj
  refine ⟨weak.locks, inv.objects, inv.places.enter ?_ fun other different => ?_,
    inv.stores.enter (fun _ _ _ => id) (by simp [Call.storing]), weak.slots, weak.loads, weak.pendings,
    inv.deallocs.enter fun o => ?_⟩
  · simp only [Machine.enter]
    rw [Function.update_self, user, body]
    rfl
  · exact Function.update_of_ne different ..
  · rw [user]
    simp

/-- The removal of the entry ends the deallocation. -/
theorem MemInv.remove (phase : m.call thread = .removing obj) :
    MemInv stripe ({ m with
      table := removeEntry m.table obj
      deallocator := Function.update m.deallocator obj none }.enter thread .user) := by
  have isDeallocator : m.deallocator obj = some thread := inv.deallocator_of_dying (by rw [phase]; exact .head [])
  have state := inv.objects obj
  rw [isDeallocator] at state
  have others : ∀ other o, other ≠ thread → m.deallocator o = some other → o ≠ obj := by
    rintro other o different isOther rfl
    exact different (Option.some.inj (isOther.symm.trans isDeallocator))
  have weak := inv.weak.remove phase state.registered_eq_nil fun other l different pending =>
    others other obj different (inv.deallocator_of_dying pending.dying) rfl
  refine ⟨weak.locks, inv.objects.remove (state.count_eq_zero ▸ .free), inv.places.remove (by rw [phase]; rfl) rfl,
    inv.stores.enter (fun other o different passes => ?_) (by simp [Call.storing]), weak.slots, weak.loads,
    weak.pendings, inv.deallocs.remove phase (by simp)⟩
  refine passes.imp_right fun both => ?_
  have isObj := others other o different both.1
  simp only [Machine.enter]
  rwa [Function.update_of_ne isObj, removeEntry_other isObj]

end Ledgers

section Runs

variable {Tid Obj Loc Stripe : Type} [DecidableEq Tid] [DecidableEq Obj] [DecidableEq Loc] [DecidableEq Stripe]
  {stripe : Loc → Stripe}

/-- Threads allocate unused addresses, give up references that they own, and pass on objects that they own or
deallocate under an entry of the table. -/
def Machine.Sound (m : Machine Tid Obj Loc Stripe) (label : Tid × MemOp Tid Obj Loc) : Prop :=
  match label.2 with
  | .allocate obj => refCount m.refs obj = 0 ∧ m.deallocator obj = none
  | .give _ obj => (label.1, obj) ∈ m.refs
  | .retain obj => ∀ o ∈ obj, Passes m.table m.refs m.deallocator label.1 o
  | .release obj => ∀ o ∈ obj, (label.1, o) ∈ m.refs
  | .initWeak _ obj => ∀ o ∈ obj, Passes m.table m.refs m.deallocator label.1 o
  | .storeWeak _ new => ∀ o ∈ new, Passes m.table m.refs m.deallocator label.1 o
  | _ => True

omit [DecidableEq Tid] [DecidableEq Loc] [DecidableEq Stripe] in
theorem MemInv.start : MemInv stripe (Machine.start : Machine Tid Obj Loc Stripe) := by
  have weak : WeakInv stripe (fun _ => none : SideTable Obj Loc) (fun _ => none) (fun _ => none)
      (fun _ : Tid => .user) := .start
  refine ⟨weak.locks, fun _ => .free, fun _ => ⟨List.nodup_nil, fun _ => by simp [Machine.start, Call.dying]⟩,
    fun _ _ storing => absurd storing (by simp [Machine.start, Call.storing]), weak.slots, weak.loads, weak.pendings,
    fun _ => ⟨by simp [Machine.start], fun _ => rfl, fun _ taken => absurd taken (by simp [Machine.start])⟩⟩

omit [DecidableEq Obj] in
/-- A slot that was just cleared holds nothing. -/
theorem ne_of_cleared {slots : Loc → Option Obj} {loc l : Loc} {o : Obj}
    (holds : Function.update slots loc none l = some o) : l ≠ loc ∧ slots l = some o := by
  by_cases same : l = loc
  · rw [same, Function.update_self] at holds
    contradiction
  · rw [Function.update_of_ne same] at holds
    exact ⟨same, holds⟩

section Positions

variable {m : Machine Tid Obj Loc Stripe} (inv : MemInv stripe m) {thread : Tid} {entered : Call Obj Loc}

include inv

omit [DecidableEq Loc] [DecidableEq Stripe] in
/-- A thread outside of the locked sections and the deallocations stays outside. -/
theorem MemInv.of_outside {slots : Loc → Option Obj}
    (before : (m.call thread).holding = none ∧ (m.call thread).dying = [])
    (after : entered.holding = none ∧ entered.dying = [])
    (storing : ∀ o, entered.storing = some o → Passes m.table m.refs m.deallocator thread o)
    (filled : ∀ l o, slots l = some o → m.slots l = some o) :
    MemInv stripe ({ m with slots }.enter thread entered) := by
  refine inv.of_move (inv.locks.enter (by simp [after.1])) before.2 after.2 storing filled (fun l _ _ isOver => ?_) ?_
  · exact absurd isOver (Call.not_overwrites before.1 l)
  · rintro l o rfl
    exact absurd after.1 (by simp [Call.holding])

omit [DecidableEq Loc] in
/-- A thread takes the lock of a slot. -/
theorem MemInv.of_lock {loc : Loc} (unlocked : m.locks (stripe loc) = none)
    (before : (m.call thread).holding = none ∧ (m.call thread).dying = [])
    (after : entered.holding = some loc ∧ entered.dying = [])
    (storing : ∀ o, entered.storing = some o → Passes m.table m.refs m.deallocator thread o)
    (loading : ∀ l o, entered = .loading l o → m.slots loc = some o) :
    MemInv stripe (m.lock stripe thread loc entered) := by
  refine inv.of_move (inv.locks.lock unlocked after.1) before.2 after.2 storing (fun _ _ => id)
    (fun l _ _ isOver => ?_) ?_
  · exact absurd isOver (Call.not_overwrites before.1 l)
  · rintro l o rfl
    obtain rfl : l = loc := Option.some.inj after.1
    exact inv.weak.listed_of_unlocked unlocked (loading l o rfl)

end Positions

/-- Every sound step keeps the invariant. -/
theorem MemInv.step {m next : Machine Tid Obj Loc Stripe} (inv : MemInv stripe m) {thread : Tid}
    {op : MemOp Tid Obj Loc} (sound : m.Sound (thread, op)) (result : m.step stripe (thread, op) = some next) :
    MemInv stripe next := by
  have outside : ∀ {call : Call Obj Loc}, m.call thread = call → call.holding = none ∧ call.dying = [] →
      (m.call thread).holding = none ∧ (m.call thread).dying = [] := by
    rintro call rfl both
    exact both
  cases Machine.step_effect result with
  | allocate user => exact inv.allocate sound.1 sound.2
  | give user => exact inv.give user sound _
  | @retain obj user =>
      cases obj with
      | none => exact inv.of_outside (outside user ⟨rfl, rfl⟩) ⟨rfl, rfl⟩ (by simp [Call.storing]) fun _ _ => id
      | some obj =>
          have known := known_of_passes (sound obj rfl)
          exact inv.gain (inv.locks.enter (by simp [Call.holding])) known (by rw [user]; rfl) (by rw [user]; rfl)
            rfl rfl
            (by simp)
  | releaseNull user => exact inv
  | release user kept => exact inv.release user (sound _ rfl) kept
  | dealloc user dropped => exact inv.dealloc user (sound _ rfl) dropped
  | initNull user =>
      exact inv.of_outside (outside user ⟨rfl, rfl⟩) ⟨rfl, rfl⟩ (by simp [Call.storing])
        fun l o holds => (ne_of_cleared holds).2
  | init user =>
      exact inv.of_outside (outside user ⟨rfl, rfl⟩) ⟨rfl, rfl⟩ sound fun l o holds => (ne_of_cleared holds).2
  | store user => exact inv.of_outside (outside user ⟨rfl, rfl⟩) ⟨rfl, rfl⟩ sound fun _ _ => id
  | acquire phase unlocked =>
      refine inv.of_lock unlocked (outside phase ⟨rfl, rfl⟩) ⟨rfl, rfl⟩ (fun o storing => ?_) (by simp)
      exact inv.stores thread o (by rw [phase]; exact storing)
  | unregister phase =>
      refine inv.unregister (by rw [phase]; rfl) (by rw [phase]; rfl) (by rw [phase]; rfl) rfl rfl fun o storing => ?_
      rw [phase]
      exact storing
  | register phase => exact inv.register phase
  | loadNull user unlocked isNull =>
      exact inv.of_outside (outside user ⟨rfl, rfl⟩) ⟨rfl, rfl⟩ (by simp [Call.storing]) fun _ _ => id
  | load user unlocked holds =>
      refine inv.of_lock unlocked (outside user ⟨rfl, rfl⟩) ⟨rfl, rfl⟩ (by simp [Call.storing]) fun l o loading => ?_
      obtain ⟨rfl, rfl⟩ := Call.loading.inj loading
      exact holds
  | @retainLoaded loc obj phase =>
      have present := inv.weak.isSome_of_listed (inv.loads thread loc obj phase)
      exact inv.gain (inv.locks.unlock (by rw [phase]; rfl) rfl) (.inr present) (by rw [phase]; rfl)
        (by rw [phase]; rfl)
        rfl rfl (by simp)
  | destroy user unlocked =>
      exact inv.of_lock unlocked (outside user ⟨rfl, rfl⟩) ⟨rfl, rfl⟩ (by simp [Call.storing]) (by simp)
  | unregisterDestroyed phase =>
      exact inv.unregister (by rw [phase]; rfl) (by rw [phase]; rfl) (by rw [phase]; rfl) rfl rfl
        (by simp [Call.storing])
  | clear phase =>
      refine inv.of_move (inv.locks.unlock (by rw [phase]; rfl) rfl) (by rw [phase]; rfl) rfl (by simp [Call.storing])
        (fun l o holds => (ne_of_cleared holds).2) (fun l o holds isOver => ?_) (by simp)
      rw [phase] at isOver
      exact (ne_of_cleared holds).1 (Option.some.inj isOver).symm
  | zero phase unlocked => exact inv.zero phase unlocked
  | sendFound phase =>
      exact inv.send phase (by simp [Call.dying]) (fun other different => Function.update_of_ne different ..) (by simp)
        rfl rfl (by simp)
  | sendMissing phase => exact inv.send phase rfl (fun _ _ => rfl) (by simp) rfl rfl (by simp)
  | returnDealloc user body => exact inv.returnDealloc user body
  | remove phase => exact inv.remove phase
  | finishRetain phase =>
      exact inv.of_outside (outside phase ⟨rfl, rfl⟩) ⟨rfl, rfl⟩ (by simp [Call.storing]) fun _ _ => id
  | finishStore phase =>
      exact inv.of_outside (outside phase ⟨rfl, rfl⟩) ⟨rfl, rfl⟩ (by simp [Call.storing]) fun _ _ => id
  | finishLoad phase =>
      exact inv.of_outside (outside phase ⟨rfl, rfl⟩) ⟨rfl, rfl⟩ (by simp [Call.storing]) fun _ _ => id
  | finishDestroy phase =>
      exact inv.of_outside (outside phase ⟨rfl, rfl⟩) ⟨rfl, rfl⟩ (by simp [Call.storing]) fun _ _ => id

end Runs

end O3jc
