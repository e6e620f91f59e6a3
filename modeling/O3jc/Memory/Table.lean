import O3jc.Runtime.RetainRelease
import Mathlib.Data.List.Basic

namespace O3jc

/-- What the table says about an object that has this many references and this deallocating thread. -/
inductive ObjectState {Tid Loc : Type} : Nat → Option Tid → Option (SideTableEntry Loc) → Prop
  | free : ObjectState 0 none none
  | implicit : ObjectState 1 none none
  | counted {count : Nat} (locs : List Loc) (positive : 0 < count) : ObjectState count none (some ⟨count, false, locs⟩)
  | dyingImplicit (thread : Tid) : ObjectState 0 (some thread) none
  | dying (thread : Tid) (count : Nat) : ObjectState 0 (some thread) (some ⟨count, true, []⟩)

section States

variable {Tid Obj Loc : Type} {table : SideTable Obj Loc} {obj : Obj} {count : Nat} {deallocator : Option Tid}

/-- The weak locations in the entry of an object. An absent object has none. -/
def registered (table : SideTable Obj Loc) (obj : Obj) : List Loc :=
  ((table obj).map SideTableEntry.weakLocations).getD []

theorem isSome_of_registered {loc : Loc} (member : loc ∈ registered table obj) : (table obj).isSome = true := by
  cases entry : table obj with
  | none => simp [registered, entry] at member
  | some _ => rfl

theorem registered_of_present {entry : SideTableEntry Loc} (present : table obj = some entry) :
    registered table obj = entry.weakLocations := by
  rw [registered, present]
  rfl

theorem orInsert_weakLocations : (orInsert table obj).weakLocations = registered table obj := by
  rw [orInsert, registered]
  cases table obj <;> rfl

/-- An object with references is not being deallocated. -/
theorem ObjectState.deallocator_eq_none {entry : Option (SideTableEntry Loc)}
    (state : ObjectState count deallocator entry) (positive : 0 < count) : deallocator = none := by
  cases state with
  | dyingImplicit thread => omega
  | dying thread count => omega
  | _ => rfl

theorem ObjectState.count_eq_zero {entry : Option (SideTableEntry Loc)} {thread : Tid}
    (state : ObjectState count (some thread) entry) : count = 0 := by
  cases state <;> rfl

/-- An object without references that nobody deallocates has no entry. -/
theorem ObjectState.eq_none_of_free {entry : Option (SideTableEntry Loc)}
    (state : ObjectState 0 (none : Option Tid) entry) : entry = none := by
  cases state with
  | free => rfl
  | counted locs positive => omega

/-- The retain count of an object with references is their number. -/
theorem ObjectState.retainCount (state : ObjectState count (none : Option Tid) (table obj)) (positive : 0 < count) :
    objcRetainCount table (some obj) = count := by
  rw [objcRetainCount]
  generalize table obj = entry at state
  cases state with
  | free => omega
  | implicit => rfl
  | counted locs _ => rfl

/-- No weak location is registered with an object that is being deallocated. -/
theorem ObjectState.registered_eq_nil {thread : Tid} (state : ObjectState count (some thread) (table obj)) :
    registered table obj = [] := by
  rw [registered]
  generalize table obj = entry at state
  cases state <;> rfl

/-- An object with an entry has references or is being deallocated. -/
theorem ObjectState.known {entry : Option (SideTableEntry Loc)} (state : ObjectState count deallocator entry)
    (present : entry.isSome = true) : 0 < count ∨ deallocator.isSome = true := by
  cases state with
  | free => contradiction
  | implicit => contradiction
  | counted locs positive => exact .inl positive
  | dyingImplicit thread => contradiction
  | dying thread count => exact .inr rfl

end States

section Sections

variable {Tid Obj Loc : Type} [DecidableEq Obj] {table : SideTable Obj Loc} {obj other : Obj} {count : Nat}
  {deallocator : Option Tid}

theorem registered_update (entry : SideTableEntry Loc) :
    registered (Function.update table obj (some entry)) other =
      if other = obj then entry.weakLocations else registered table other := by
  by_cases same : other = obj
  · rw [if_pos same, same, registered, Function.update_self]
    rfl
  · rw [if_neg same, registered, Function.update_of_ne same, registered]

theorem isSome_update (entry : SideTableEntry Loc) (present : (table other).isSome = true) :
    (Function.update table obj (some entry) other).isSome = true := by
  by_cases same : other = obj
  · rw [same, Function.update_self]
    rfl
  · rw [Function.update_of_ne same]
    exact present

theorem objcRetain_other (different : other ≠ obj) : (objcRetain table (some obj)).1 other = table other := by
  simp only [objcRetain]
  split <;> exact Function.update_of_ne different ..

theorem objcRetain_registered (result : Option Obj) (other : Obj) :
    registered (objcRetain table result).1 other = registered table other := by
  cases result with
  | none => rfl
  | some obj =>
      simp only [objcRetain]
      split <;> rw [registered_update] <;> split
      · rename_i same
        rw [orInsert_weakLocations, same]
      · rfl
      · rename_i same
        rw [orInsert_weakLocations, same]
      · rfl

theorem objcRetain_isSome (result : Option Obj) (present : (table other).isSome = true) :
    ((objcRetain table result).1 other).isSome = true := by
  cases result with
  | none => exact present
  | some obj =>
      simp only [objcRetain]
      split <;> exact isSome_update _ present

/-- A retain of a known object succeeds exactly when the object is not being deallocated. -/
theorem ObjectState.retain (state : ObjectState count deallocator (table obj))
    (known : 0 < count ∨ (table obj).isSome = true) :
    (deallocator = none ∧ (objcRetain table (some obj)).2 = some obj ∧
      ObjectState (count + 1) deallocator ((objcRetain table (some obj)).1 obj)) ∨
    (deallocator ≠ none ∧ (objcRetain table (some obj)).2 = none ∧ (objcRetain table (some obj)).1 = table) := by
  generalize isEntry : table obj = entry at state known
  cases state with
  | free => simp at known
  | implicit =>
      left
      simp only [objcRetain, orInsert, isEntry, SideTableEntry.implicit, Option.getD_none, Bool.false_eq_true, if_false,
        Function.update_self, true_and]
      exact .counted [] (by omega)
  | counted locs positive =>
      left
      simp only [objcRetain, orInsert, isEntry, Option.getD_some, Bool.false_eq_true, if_false, Function.update_self,
        true_and]
      exact .counted locs (by omega)
  | dyingImplicit thread => simp at known
  | dying thread count =>
      right
      simp only [objcRetain, orInsert, isEntry, Option.getD_some, if_true, true_and]
      exact ⟨by simp, isEntry ▸ Function.update_eq_self obj table⟩

/-- A release of an object with references deallocates it exactly when it gives up the last one. -/
theorem ObjectState.release (state : ObjectState count deallocator (table obj)) (positive : 0 < count) (thread : Tid) :
    (1 < count ∧ ∃ table', releaseEntry table obj = (table', none) ∧
      ObjectState (count - 1) deallocator (table' obj) ∧ registered table' obj = registered table obj ∧
      (table' obj).isSome = true ∧ ∀ other, other ≠ obj → table' other = table other) ∨
    (count = 1 ∧ ∃ table', releaseEntry table obj = (table', some (registered table obj)) ∧
      ObjectState 0 (some thread) (table' obj) ∧ ((table obj).isSome = true → (table' obj).isSome = true) ∧
      ∀ other, other ≠ obj → table' other = table other) := by
  generalize isEntry : table obj = entry at state
  cases state with
  | free => omega
  | implicit =>
      right
      refine ⟨rfl, table, ?_, isEntry ▸ .dyingImplicit thread, by simp [isEntry], fun _ _ => rfl⟩
      simp [releaseEntry, isEntry, registered]
  | counted locs _ =>
      by_cases last : count ≤ 1
      · right
        refine ⟨by omega, Function.update table obj (some ⟨count, true, []⟩), ?_, ?_, ?_, fun other different => ?_⟩
        · simp [releaseEntry, isEntry, registered, last]
        · rw [Function.update_self]
          exact .dying thread count
        · rw [Function.update_self]
          exact fun _ => rfl
        · exact Function.update_of_ne different ..
      · left
        refine ⟨by omega, Function.update table obj (some ⟨count - 1, false, locs⟩), ?_, ?_, ?_, ?_,
          fun other different => ?_⟩
        · simp [releaseEntry, isEntry, last]
        · rw [Function.update_self]
          exact .counted locs (by omega)
        · simp [registered, isEntry]
        · rw [Function.update_self]
          rfl
        · exact Function.update_of_ne different ..
  | dyingImplicit thread => omega
  | dying thread count => omega

theorem ObjectState.remove {thread : Tid} (state : ObjectState count (some thread) (table obj)) :
    ObjectState count (none : Option Tid) (removeEntry table obj obj) := by
  rw [removeEntry, Function.update_self]
  generalize table obj = entry at state
  cases state <;> exact .free

theorem removeEntry_other (different : other ≠ obj) : removeEntry table obj other = table other :=
  Function.update_of_ne different ..

/-- A removal fills no list. -/
theorem removeEntry_sublist (table : SideTable Obj Loc) (obj other : Obj) :
    (registered (removeEntry table obj) other).Sublist (registered table other) := by
  by_cases same : other = obj
  · rw [same, registered, removeEntry, Function.update_self]
    exact List.nil_sublist _
  · rw [registered, removeEntry_other same, ← registered]

/-- A release fills no list. -/
theorem releaseEntry_sublist (table : SideTable Obj Loc) (obj other : Obj) :
    (registered (releaseEntry table obj).1 other).Sublist (registered table other) := by
  cases isEntry : table obj with
  | none =>
      rw [releaseEntry, isEntry]
  | some entry =>
      have kept : ∀ count marked locs, locs.Sublist entry.weakLocations →
          (registered (Function.update table obj (some ⟨count, marked, locs⟩)) other).Sublist
            (registered table other) := by
        intro count marked locs fewer
        rw [registered_update]
        split
        · rename_i same
          rwa [same, registered_of_present isEntry]
        · exact List.Sublist.refl _
      simp only [releaseEntry, isEntry]
      split
      · exact List.Sublist.refl _
      · split
        · exact kept _ _ _ (List.nil_sublist _)
        · exact kept _ _ _ (List.Sublist.refl _)

/-- A release neither adds an entry nor takes one away. -/
theorem releaseEntry_isSome_iff (table : SideTable Obj Loc) (obj other : Obj) :
    ((releaseEntry table obj).1 other).isSome = true ↔ (table other).isSome = true := by
  cases isEntry : table obj with
  | none => rw [releaseEntry, isEntry]
  | some entry =>
      have updated : ∀ changed : SideTableEntry Loc,
          (Function.update table obj (some changed) other).isSome = true ↔ (table other).isSome = true := by
        intro changed
        by_cases same : other = obj
        · rw [same, Function.update_self, isEntry]
          exact Iff.rfl
        · rw [Function.update_of_ne same]
      simp only [releaseEntry, isEntry]
      split
      · exact Iff.rfl
      · split <;> exact updated _

/-- The locations that a release extracts are the list of the object. -/
theorem eq_registered_of_releaseEntry {locs : List Loc} (dropped : (releaseEntry table obj).2 = some locs) :
    locs = registered table obj := by
  cases isEntry : table obj with
  | none => simpa [releaseEntry, registered, isEntry, eq_comm] using dropped
  | some entry =>
      rw [registered_of_present isEntry]
      simp only [releaseEntry, isEntry] at dropped
      split at dropped
      · contradiction
      · split at dropped
        · exact (Option.some.inj dropped).symm
        · contradiction

/-- A retain of an object that is being deallocated fails exactly when the object has an entry. -/
theorem ObjectState.retain_eq_none_iff {thread : Tid} (state : ObjectState count (some thread) (table obj)) :
    (objcRetain table (some obj)).2 = none ↔ (table obj).isSome = true := by
  generalize isEntry : table obj = entry at state
  cases state with
  | dyingImplicit => simp [objcRetain, orInsert, isEntry, SideTableEntry.implicit]
  | dying _ count => simp [objcRetain, orInsert, isEntry]

/-- A registration with an object that is being deallocated fails exactly when the object has an entry. -/
theorem ObjectState.register_eq_none_iff {thread : Tid} (state : ObjectState count (some thread) (table obj))
    (loc : Loc) : (registerWeak table loc (some obj)).2 = none ↔ (table obj).isSome = true := by
  generalize isEntry : table obj = entry at state
  cases state with
  | dyingImplicit => simp [registerWeak, orInsert, isEntry, SideTableEntry.implicit]
  | dying _ count => simp [registerWeak, orInsert, isEntry]

/-- A registration puts the location into one list and reports what the slot then holds. -/
theorem registerWeak_registered (loc : Loc) (new : Option Obj) (other : Obj) :
    registered (registerWeak table loc new).1 other =
      if (registerWeak table loc new).2 = some other then registered table other ++ [loc]
      else registered table other := by
  cases new with
  | none => rfl
  | some obj =>
      simp only [registerWeak]
      by_cases same : other = obj
      · subst same
        split <;> simp [registered_update, orInsert_weakLocations]
      · split <;> simp [registered_update, same, Ne.symm same]

theorem registerWeak_other (loc : Loc) (different : other ≠ obj) :
    (registerWeak table loc (some obj)).1 other = table other := by
  simp only [registerWeak]
  split <;> exact Function.update_of_ne different ..

theorem registerWeak_isSome (loc : Loc) (new : Option Obj) (present : (table other).isSome = true) :
    ((registerWeak table loc new).1 other).isSome = true := by
  cases new with
  | none => exact present
  | some obj =>
      simp only [registerWeak]
      split <;> exact isSome_update _ present

/-- A registration with a known object succeeds exactly when the object is not being deallocated. -/
theorem ObjectState.register (state : ObjectState count deallocator (table obj))
    (known : 0 < count ∨ (table obj).isSome = true) (loc : Loc) :
    (deallocator = none ∧ (registerWeak table loc (some obj)).2 = some obj ∧
      ObjectState count deallocator ((registerWeak table loc (some obj)).1 obj)) ∨
    (deallocator ≠ none ∧ (registerWeak table loc (some obj)).2 = none ∧
      (registerWeak table loc (some obj)).1 = table) := by
  generalize isEntry : table obj = entry at state known
  cases state with
  | free => simp at known
  | implicit =>
      left
      simp only [registerWeak, orInsert, isEntry, SideTableEntry.implicit, Option.getD_none, Bool.false_eq_true,
        if_false, Function.update_self, true_and, List.nil_append]
      exact .counted [loc] (by omega)
  | counted locs positive =>
      left
      simp only [registerWeak, orInsert, isEntry, Option.getD_some, Bool.false_eq_true, if_false,
        Function.update_self, true_and]
      exact .counted (locs ++ [loc]) positive
  | dyingImplicit thread => simp at known
  | dying thread count =>
      right
      simp only [registerWeak, orInsert, isEntry, Option.getD_some, if_true, true_and]
      exact ⟨by simp, isEntry ▸ Function.update_eq_self obj table⟩

variable [DecidableEq Loc]

theorem unregisterWeak_of_absent (loc : Loc) (absent : table obj = none) :
    unregisterWeak table loc (some obj) = table := by
  simp only [unregisterWeak, absent]

theorem unregisterWeak_of_present (loc : Loc) {entry : SideTableEntry Loc} (present : table obj = some entry) :
    unregisterWeak table loc (some obj) = Function.update table obj
      (some { entry with weakLocations := entry.weakLocations.filter fun w => w != loc }) := by
  simp only [unregisterWeak, present]

/-- A location leaves the list of the old object only. -/
theorem unregisterWeak_registered (loc : Loc) (old : Option Obj) (other : Obj) :
    registered (unregisterWeak table loc old) other =
      if old = some other then (registered table other).filter fun w => w != loc else registered table other := by
  cases old with
  | none => rfl
  | some obj =>
      cases isEntry : table obj with
      | none =>
          rw [unregisterWeak_of_absent loc isEntry]
          by_cases same : obj = other
          · subst same
            simp [registered, isEntry]
          · rw [if_neg (by simpa using same)]
      | some entry =>
          rw [unregisterWeak_of_present loc isEntry, registered_update]
          by_cases same : other = obj
          · subst same
            simp [registered, isEntry]
          · rw [if_neg same, if_neg (by simpa using Ne.symm same)]

theorem unregisterWeak_isSome (loc : Loc) (old : Option Obj) (present : (table other).isSome = true) :
    (unregisterWeak table loc old other).isSome = true := by
  cases old with
  | none => exact present
  | some obj =>
      cases isEntry : table obj with
      | none => rwa [unregisterWeak_of_absent loc isEntry]
      | some entry =>
          rw [unregisterWeak_of_present loc isEntry]
          exact isSome_update _ present

theorem unregisterWeak_sublist (table : SideTable Obj Loc) (loc : Loc) (old : Option Obj) (other : Obj) :
    (registered (unregisterWeak table loc old) other).Sublist (registered table other) := by
  rw [unregisterWeak_registered]
  split
  · exact List.filter_sublist
  · exact List.Sublist.refl _

theorem unregisterWeak_isSome_iff (loc : Loc) (old : Option Obj) :
    (unregisterWeak table loc old other).isSome = true ↔ (table other).isSome = true := by
  constructor
  · intro present
    cases old with
    | none => exact present
    | some obj =>
        cases isEntry : table obj with
        | none => rwa [unregisterWeak_of_absent loc isEntry] at present
        | some entry =>
            by_cases same : other = obj
            · rw [same, isEntry]
              rfl
            · rwa [unregisterWeak_of_present loc isEntry, Function.update_of_ne same] at present
  · exact unregisterWeak_isSome loc old

/-- Leaving a list does not change the state of any object. -/
theorem ObjectState.unregister (state : ObjectState count deallocator (table obj)) (loc : Loc) (old : Option Obj) :
    ObjectState count deallocator (unregisterWeak table loc old obj) := by
  cases old with
  | none => exact state
  | some named =>
      cases isEntry : table named with
      | none => rwa [unregisterWeak_of_absent loc isEntry]
      | some entry =>
          rw [unregisterWeak_of_present loc isEntry]
          by_cases same : obj = named
          · subst same
            rw [Function.update_self]
            rw [isEntry] at state
            cases state with
            | counted locs positive => exact .counted _ positive
            | dying thread count => exact .dying thread count
          · rw [Function.update_of_ne same]
            exact state

end Sections

end O3jc
