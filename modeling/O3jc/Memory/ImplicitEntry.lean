import O3jc.Memory.Ownership
import Mathlib.Data.Fintype.Basic

/-
This file proves when an object without an entry in the side table stays dead while the bodies of `-dealloc` run.
-/

namespace O3jc

open Library

section Runs

variable {Tid Obj Loc Stripe : Type} [DecidableEq Obj]

/-- The object that an operation passes to a function which consults its entry. -/
def MemOp.passes : MemOp Tid Obj Loc → Option Obj
  | .retain obj => obj
  | .initWeak _ obj => obj
  | .storeWeak _ new => new
  | _ => none

/-- Threads release only objects that they own a reference to. They pass on such objects, and the objects whose
`-dealloc` they are running. -/
def Machine.Reentrant (m : Machine Tid Obj Loc Stripe) (label : Tid × MemOp Tid Obj Loc) : Prop :=
  match label.2 with
  | .allocate obj => refCount m.refs obj = 0 ∧ m.deallocator obj = none
  | op => ∀ obj ∈ op.uses, (label.1, obj) ∈ m.refs ∨ (op.passes = some obj ∧ obj ∈ m.bodies label.1)

/-- A call that passes the object from inside of its `-dealloc` finds an entry of the object. -/
def Machine.FindsEntry (m : Machine Tid Obj Loc Stripe) (label : Tid × MemOp Tid Obj Loc) (obj : Obj) : Prop :=
  label.2.passes = some obj → obj ∈ m.bodies label.1 → (m.table obj).isSome = true

/-- The steps of runs in which every dying object that is passed on has an entry. -/
def Machine.Guarded (m : Machine Tid Obj Loc Stripe) (label : Tid × MemOp Tid Obj Loc) : Prop :=
  m.Reentrant label ∧ ∀ obj, m.FindsEntry label obj

/-- The steps of runs until the address of the object is allocated again. The body of its `-dealloc` may pass it on
without an entry. -/
def Machine.GuardedExcept (obj : Obj) (m : Machine Tid Obj Loc Stripe) (label : Tid × MemOp Tid Obj Loc) : Prop :=
  m.Reentrant label ∧ (∀ other, other ≠ obj → m.FindsEntry label other) ∧ label.2 ≠ .allocate obj

section Decisions

variable [DecidableEq Tid] (m : Machine Tid Obj Loc Stripe) (label : Tid × MemOp Tid Obj Loc)

instance : Decidable (m.Reentrant label) :=
  match label with
  | (_, .allocate _) => inferInstanceAs (Decidable (_ ∧ _))
  | (thread, .give _ obj) => inferInstanceAs (Decidable (∀ o ∈ some obj, (thread, o) ∈ m.refs ∨
      (none = some o ∧ o ∈ m.bodies thread)))
  | (thread, .retain obj) => inferInstanceAs (Decidable (∀ o ∈ obj, (thread, o) ∈ m.refs ∨
      (obj = some o ∧ o ∈ m.bodies thread)))
  | (thread, .release obj) => inferInstanceAs (Decidable (∀ o ∈ obj, (thread, o) ∈ m.refs ∨
      (none = some o ∧ o ∈ m.bodies thread)))
  | (thread, .initWeak _ obj) => inferInstanceAs (Decidable (∀ o ∈ obj, (thread, o) ∈ m.refs ∨
      (obj = some o ∧ o ∈ m.bodies thread)))
  | (thread, .storeWeak _ new) => inferInstanceAs (Decidable (∀ o ∈ new, (thread, o) ∈ m.refs ∨
      (new = some o ∧ o ∈ m.bodies thread)))
  | (thread, .loadWeakRetained _) => inferInstanceAs (Decidable (∀ o ∈ none, (thread, o) ∈ m.refs ∨
      (none = some o ∧ o ∈ m.bodies thread)))
  | (thread, .destroyWeak _) => inferInstanceAs (Decidable (∀ o ∈ none, (thread, o) ∈ m.refs ∨
      (none = some o ∧ o ∈ m.bodies thread)))
  | (thread, .next) => inferInstanceAs (Decidable (∀ o ∈ none, (thread, o) ∈ m.refs ∨
      (none = some o ∧ o ∈ m.bodies thread)))
  | (thread, .sendDealloc _) => inferInstanceAs (Decidable (∀ o ∈ none, (thread, o) ∈ m.refs ∨
      (none = some o ∧ o ∈ m.bodies thread)))
  | (thread, .returnDealloc) => inferInstanceAs (Decidable (∀ o ∈ none, (thread, o) ∈ m.refs ∨
      (none = some o ∧ o ∈ m.bodies thread)))

instance (obj : Obj) : Decidable (m.FindsEntry label obj) :=
  inferInstanceAs (Decidable (label.2.passes = some obj → obj ∈ m.bodies label.1 → (m.table obj).isSome = true))

instance [Fintype Obj] : Decidable (m.Guarded label) := inferInstanceAs (Decidable (_ ∧ _))

end Decisions

variable [DecidableEq Tid] [DecidableEq Loc] [DecidableEq Stripe] {stripe : Loc → Stripe}
  {m next : Machine Tid Obj Loc Stripe} {thread : Tid} {op : MemOp Tid Obj Loc} {obj : Obj}

omit [DecidableEq Tid] [DecidableEq Loc] [DecidableEq Stripe] in
/-- A thread deallocates the objects whose `-dealloc` it is running. -/
theorem MemInv.deallocator_of_body (inv : MemInv stripe m) (body : obj ∈ m.bodies thread) :
    m.deallocator obj = some thread := ((inv.places thread).2 obj).mp (List.mem_append_right _ body)

omit [DecidableEq Tid] [DecidableEq Loc] [DecidableEq Stripe] in
theorem Machine.Guarded.sound (guarded : m.Guarded (thread, op)) (inv : MemInv stripe m) : m.Sound (thread, op) := by
  obtain ⟨reentrant, finds⟩ := guarded
  have passes : ∀ o, (thread, o) ∈ m.refs ∨ (op.passes = some o ∧ o ∈ m.bodies thread) →
      Passes m.table m.refs m.deallocator thread o := by
    intro o used
    exact used.imp_right fun ⟨isPassed, body⟩ => ⟨inv.deallocator_of_body body, finds o isPassed body⟩
  cases op with
  | allocate o => exact reentrant
  | give other o => exact (reentrant o rfl).resolve_right fun ⟨isPassed, _⟩ => absurd isPassed (by simp [MemOp.passes])
  | release o =>
      intro released isObj
      exact (reentrant released isObj).resolve_right fun ⟨isPassed, _⟩ => absurd isPassed (by simp [MemOp.passes])
  | retain o => exact fun retained isObj => passes retained (reentrant retained isObj)
  | initWeak loc o => exact fun stored isObj => passes stored (reentrant stored isObj)
  | storeWeak loc o => exact fun stored isObj => passes stored (reentrant stored isObj)
  | _ => trivial

/-- A dying object keeps its entry and gets none until its release returns. -/
theorem MemInv.isSome_iff_of_dying (inv : MemInv stripe m) (sound : m.Sound (thread, op))
    (result : m.step stripe (thread, op) = some next) {other : Tid} (dying : m.deallocator obj = some other)
    (still : next.deallocator obj = some other) :
    (next.table obj).isSome = true ↔ (m.table obj).isSome = true := by
  have unowned : ∀ {t}, (t, obj) ∉ m.refs := by
    intro t owned
    rw [inv.deallocator_of_owned owned] at dying
    contradiction
  have present : ∀ {t}, Passes m.table m.refs m.deallocator t obj → (m.table obj).isSome = true := fun passes =>
    passes.elim (fun owned => absurd owned unowned) And.right
  have retained : ∀ o, (o = obj → (m.table obj).isSome = true) →
      (((objcRetain m.table (some o)).1 obj).isSome = true ↔ (m.table obj).isSome = true) := by
    intro o known
    by_cases same : obj = o
    · subst same
      exact ⟨fun _ => known rfl, objcRetain_isSome (some obj)⟩
    · rw [objcRetain_other same]
  cases Machine.step_effect result with
  | @retain o user =>
      cases o with
      | none => exact Iff.rfl
      | some o =>
          apply retained
          rintro rfl
          exact present (sound o rfl)
  | @release o table user kept =>
      rw [show table = (releaseEntry m.table o).1 by rw [kept]]
      exact releaseEntry_isSome_iff m.table o obj
  | @dealloc o table locs user dropped =>
      rw [show table = (releaseEntry m.table o).1 by rw [dropped]]
      exact releaseEntry_isSome_iff m.table o obj
  | @unregister loc new old phase => exact unregisterWeak_isSome_iff loc old
  | @register loc new phase =>
      cases new with
      | none => exact Iff.rfl
      | some o =>
          show ((registerWeak m.table loc (some o)).1 obj).isSome = true ↔ _
          by_cases same : obj = o
          · subst same
            have known := present (inv.stores thread obj (by rw [phase]; rfl))
            exact ⟨fun _ => known, registerWeak_isSome loc (some obj)⟩
          · rw [registerWeak_other loc same]
  | @retainLoaded loc o phase =>
      apply retained
      rintro rfl
      exact inv.weak.isSome_of_listed (inv.loads thread loc o phase)
  | @unregisterDestroyed loc old phase => exact unregisterWeak_isSome_iff loc old
  | @remove o phase =>
      simp only [Machine.enter] at still ⊢
      have different : obj ≠ o := by
        rintro rfl
        rw [Function.update_self] at still
        contradiction
      rw [removeEntry_other different]
  | _ => exact Iff.rfl

/-- An object without references gets none, unless its address is allocated. -/
theorem MemInv.refCount_step (inv : MemInv stripe m) (sound : m.Sound (thread, op))
    (result : m.step stripe (thread, op) = some next) (dead : refCount m.refs obj = 0) (fresh : op ≠ .allocate obj) :
    refCount next.refs obj = 0 := by
  have unowned : ∀ {t}, (t, obj) ∉ m.refs := by
    intro t owned
    have positive := refCount_pos owned
    omega
  have state := inv.objects obj
  rw [dead] at state
  have erased : ∀ {o}, (thread, o) ∈ m.refs → refCount (m.refs.erase (thread, o)) obj = 0 := by
    intro o owned
    have count := refCount_erase owned obj
    omega
  have retained : ∀ {o}, (o = obj → (m.table obj).isSome = true) →
      refCount (O3jc.gain m.refs thread (objcRetain m.table (some o)).2) obj = 0 := by
    intro o known
    cases isResult : (objcRetain m.table (some o)).2 with
    | none => exact dead
    | some kept =>
        obtain rfl : o = kept := Option.some.inj (objcRetain_result isResult)
        have different : o ≠ obj := by
          rintro rfl
          have positive := state.known (known rfl)
          obtain ⟨t, isDying⟩ := Option.isSome_iff_exists.mp (positive.resolve_left (Nat.lt_irrefl 0))
          rw [isDying] at state
          rw [state.retain_eq_none_iff.mpr (known rfl)] at isResult
          contradiction
        rw [O3jc.gain, refCount_cons, if_neg different, dead]
  cases Machine.step_effect result with
  | @allocate o user =>
      have different : o ≠ obj := by
        rintro rfl
        exact fresh rfl
      show refCount ((thread, o) :: m.refs) obj = 0
      rw [refCount_cons, if_neg different, dead]
  | @give receiver o user =>
      show refCount ((receiver, o) :: m.refs.erase (thread, o)) obj = 0
      rw [refCount_cons, refCount_erase sound, dead]
  | @retain o user =>
      cases o with
      | none => exact dead
      | some o =>
          apply retained
          rintro rfl
          exact (sound o rfl).elim (fun owned => absurd owned unowned) And.right
  | release user kept => exact erased (sound _ rfl)
  | dealloc user dropped => exact erased (sound _ rfl)
  | @retainLoaded loc o phase =>
      apply retained
      rintro rfl
      exact inv.weak.isSome_of_listed (inv.loads thread loc o phase)
  | _ => exact dead

/-- The deallocating thread of an object without references changes only when its release returns. -/
theorem Machine.deallocator_step (sound : m.Sound (thread, op))
    (result : m.step stripe (thread, op) = some next) (dead : refCount m.refs obj = 0) :
    next.deallocator obj = m.deallocator obj ∨ (m.call thread = .removing obj ∧ next.deallocator obj = none) := by
  cases Machine.step_effect result with
  | @dealloc o table locs user dropped =>
      have different : obj ≠ o := by
        rintro rfl
        have positive := refCount_pos (sound obj rfl)
        omega
      exact .inl (Function.update_of_ne different ..)
  | @remove o phase =>
      simp only [Machine.enter]
      by_cases same : obj = o
      · rw [same, Function.update_self]
        exact .inr ⟨phase, rfl⟩
      · exact .inl (Function.update_of_ne same ..)
  | _ => exact .inl rfl

/-- The number of messages to an object changes only by a message or an allocation. -/
theorem Machine.deallocs_step (result : m.step stripe (thread, op) = some next) (fresh : op ≠ .allocate obj)
    (unsent : m.call thread ≠ .zeroing obj []) : next.deallocs obj = m.deallocs obj := by
  cases Machine.step_effect result with
  | @allocate o user =>
      apply Function.update_of_ne
      rintro rfl
      exact fresh rfl
  | @sendFound o phase =>
      apply Function.update_of_ne
      rintro rfl
      exact unsent phase
  | @sendMissing o phase =>
      apply Function.update_of_ne
      rintro rfl
      exact unsent phase
  | _ => rfl

/-- The object of a release in progress or of one that has returned. -/
structure Machine.Dropped (m later : Machine Tid Obj Loc Stripe) (thread : Tid) (obj : Obj) : Prop where
  dead : refCount later.refs obj = 0
  dying : later.deallocator obj = some thread → ((later.table obj).isSome = true ↔ (m.table obj).isSome = true)
  gone : later.deallocator obj ≠ some thread → later.deallocator obj = none ∧ later.deallocs obj = 1

theorem Machine.Dropped.step {start : Machine Tid Obj Loc Stripe} {releaser : Tid}
    (dropped : start.Dropped m releaser obj) (inv : MemInv stripe m) (sound : m.Sound (thread, op))
    (result : m.step stripe (thread, op) = some next) (fresh : op ≠ .allocate obj) :
    start.Dropped next releaser obj := by
  have stays := Machine.deallocator_step sound result dropped.dead
  constructor
  · exact inv.refCount_step sound result dropped.dead fresh
  · intro still
    have before : m.deallocator obj = some releaser := by
      rcases stays with same | ⟨_, isNone⟩
      · rwa [same] at still
      · rw [isNone] at still
        contradiction
    rw [inv.isSome_iff_of_dying sound result before still]
    exact dropped.dying before
  · intro isOver
    rcases stays with same | ⟨phase, isNone⟩
    · rw [same] at isOver ⊢
      obtain ⟨idle, once⟩ := dropped.gone isOver
      refine ⟨idle, ?_⟩
      rw [Machine.deallocs_step result fresh, once]
      intro phase
      rw [inv.deallocator_of_dying (by rw [phase]; exact .head [])] at idle
      contradiction
    · refine ⟨isNone, ?_⟩
      have isDying : m.deallocator obj = some thread := inv.deallocator_of_dying (by rw [phase]; exact .head [])
      obtain ⟨once, _, sent⟩ := inv.deallocs obj
      have isSent : m.deallocs obj ≠ 0 := by
        rw [ne_eq, sent thread isDying, phase]
        simp
      rw [Machine.deallocs_step result fresh (by simp [phase])]
      omega

/-- The release of the last reference begins the deallocation and neither adds an entry nor takes one away. -/
theorem MemInv.dropped_of_release (inv : MemInv stripe m) (owned : (thread, obj) ∈ m.refs)
    (last : refCount m.refs obj = 1) (result : m.step stripe (thread, .release (some obj)) = some next) :
    m.Dropped next thread obj := by
  have isDropped := (inv.drops_iff owned).mpr last
  have count := refCount_erase owned obj
  rw [last, if_pos rfl] at count
  cases Machine.step_effect result with
  | release user kept =>
      rw [kept] at isDropped
      contradiction
  | @dealloc _ table locs user dropped =>
      constructor
      · show refCount (m.refs.erase (thread, obj)) obj = 0
        omega
      · intro _
        rw [show table = (releaseEntry m.table obj).1 by rw [dropped]]
        exact releaseEntry_isSome_iff m.table obj obj
      · intro isOver
        simp only [Machine.enter, Function.update_self] at isOver
        contradiction

/-- What holds of an object after the release of its last reference, in its `-dealloc` and afterwards. -/
structure Machine.Unrevived (stripe : Loc → Stripe) (m later : Machine Tid Obj Loc Stripe) (thread : Tid) (obj : Obj) :
    Prop where
  /-- Nobody gets a reference to the object, and it gets one message. -/
  once : refCount later.refs obj = 0 ∧ later.deallocs obj ≤ 1
  /-- In the body a retain fails exactly when the object had an entry at the release of its last reference. -/
  retains : obj ∈ later.bodies thread →
    ((objcRetain later.table (some obj)).2 = none ↔ (m.table obj).isSome = true)
  /-- So do the stores. -/
  stores : obj ∈ later.bodies thread → ∀ loc,
    ((objcStoreWeak later.toMemory loc (some obj)).2 = none ↔ (m.table obj).isSome = true) ∧
      ((objcInitWeak later.toMemory loc (some obj)).2 = none ↔ (m.table obj).isSome = true)
  /-- A store that the body makes leaves its slot empty. -/
  registers : ∀ other loc next, later.call other = .registering loc (some obj) →
    later.step stripe (other, .next) = some next → next.call other = .stored loc none ∧ next.slots loc = none
  /-- After the release the message has been sent, and no slot names the object except under the lock of a thread that
  has unregistered the slot and is about to overwrite it. -/
  returned : later.deallocator obj ≠ some thread → later.deallocs obj = 1 ∧ later.table obj = none ∧
    ∀ loc, later.slots loc = some obj → ∃ other, (later.call other).overwrites = some loc

theorem Machine.Dropped.unrevived {later : Machine Tid Obj Loc Stripe} (dropped : m.Dropped later thread obj)
    (inv : MemInv stripe later) : m.Unrevived stripe later thread obj where
  once := ⟨dropped.dead, (inv.deallocs obj).1⟩
  retains body := by
    have isDying := inv.deallocator_of_body body
    have state := inv.objects obj
    rw [isDying] at state
    rw [state.retain_eq_none_iff, dropped.dying isDying]
  stores body loc := by
    have isDying := inv.deallocator_of_body body
    have state := inv.objects obj
    rw [isDying] at state
    have stored : ∀ old, (registerWeak (unregisterWeak later.table loc old) loc (some obj)).2 = none ↔
        (m.table obj).isSome = true := by
      intro old
      rw [(state.unregister loc old).register_eq_none_iff, unregisterWeak_isSome_iff, dropped.dying isDying]
    exact ⟨stored _, stored _⟩
  registers other loc next phase result := by
    have passes := inv.stores other obj (by rw [phase]; rfl)
    have unowned : (other, obj) ∉ later.refs := by
      intro owned
      have positive := refCount_pos owned
      have dead := dropped.dead
      omega
    obtain ⟨isDying, present⟩ := passes.resolve_left unowned
    have state := inv.objects obj
    rw [isDying] at state
    have failure := (state.register_eq_none_iff loc).mpr present
    simp only [Machine.step, Machine.advance, phase] at result
    obtain rfl := Option.some.inj result
    constructor <;> simp only [Machine.unlock, Function.update_self, failure]
  returned isOver := by
    obtain ⟨idle, sent⟩ := dropped.gone isOver
    have state := inv.objects obj
    rw [idle, dropped.dead] at state
    have absent := state.eq_none_of_free
    refine ⟨sent, absent, fun loc holds => ?_⟩
    rcases inv.slots loc obj holds with listed | isOver
    · have present := inv.weak.isSome_of_listed listed
      rw [absent] at present
      contradiction
    · exact isOver

/-- The functions refuse an object that they get from the body of its `-dealloc`. -/
def Machine.Refuses (later : Machine Tid Obj Loc Stripe) (thread : Tid) (obj : Obj) : Prop :=
  obj ∈ later.bodies thread → (objcRetain later.table (some obj)).2 = none ∧
    ∀ loc, (objcStoreWeak later.toMemory loc (some obj)).2 = none ∧
      (objcInitWeak later.toMemory loc (some obj)).2 = none

theorem Machine.Unrevived.refuses {later : Machine Tid Obj Loc Stripe}
    (unrevived : m.Unrevived stripe later thread obj) (present : (m.table obj).isSome = true) :
    later.Refuses thread obj := fun body =>
  ⟨(unrevived.retains body).mpr present, fun loc =>
    ⟨(unrevived.stores body loc).1.mpr present, (unrevived.stores body loc).2.mpr present⟩⟩

omit [DecidableEq Tid] [DecidableEq Loc] [DecidableEq Stripe] in
/-- An object that had an entry at the release of its last reference is always passed on with an entry. -/
theorem Machine.Dropped.guarded {state : Machine Tid Obj Loc Stripe} (dropped : m.Dropped state thread obj)
    (inv : MemInv stripe state) (present : (m.table obj).isSome = true) {label : Tid × MemOp Tid Obj Loc}
    (except : state.GuardedExcept obj label) : state.Guarded label := by
  refine ⟨except.1, fun other isPassed body => ?_⟩
  by_cases same : other = obj
  · subst same
    have isDying := inv.deallocator_of_body body
    by_cases releasing : state.deallocator other = some thread
    · exact (dropped.dying releasing).mpr present
    · rw [(dropped.gone releasing).1] at isDying
      contradiction
  · exact except.2.1 other same isPassed body

/-- A release of the last reference of an object without an entry can go on to a body that the functions serve. -/
theorem Machine.exists_serving (absent : m.table obj = none)
    (result : m.step stripe (thread, .release (some obj)) = some next) :
    ∃ later, next.step stripe (thread, .sendDealloc true) = some later ∧ obj ∈ later.bodies thread := by
  have begun : next.call thread = .zeroing obj [] := by
    cases Machine.step_effect result with
    | release user kept =>
        rw [releaseEntry, absent] at kept
        exact absurd (Prod.mk.inj kept).2 (by simp)
    | @dealloc _ table locs user dropped =>
        rw [releaseEntry, absent] at dropped
        simp only [Machine.enter, Function.update_self]
        rw [Option.some.inj (Prod.mk.inj dropped).2]
  apply Exists.intro
  constructor
  · simp only [Machine.step, begun, if_true]
    rfl
  · simp only [Machine.enter, Function.update_self]
    exact List.mem_cons_self

/-- An object whose last reference is released stays dead in every run exactly when it had an entry at the release. It
also stays dead in every run whose dying objects have entries when they are passed on. -/
theorem lastRelease_unrevived {begun : Machine Tid Obj Loc Stripe}
    (run : Reachable (Machine.step stripe) Machine.Guarded (Machine.start : Machine Tid Obj Loc Stripe) m)
    (owned : (thread, obj) ∈ m.refs) (last : refCount m.refs obj = 1)
    (result : m.step stripe (thread, .release (some obj)) = some begun) :
    ((∀ later, Reachable (Machine.step stripe) (Machine.GuardedExcept obj) begun later →
        m.Unrevived stripe later thread obj ∧ later.Refuses thread obj) ↔ (m.table obj).isSome = true) ∧
      ∀ later, Reachable (Machine.step stripe)
        (fun state label => state.Guarded label ∧ label.2 ≠ .allocate obj) begun later →
          m.Unrevived stripe later thread obj := by
  have inv : MemInv stripe m := by
    apply run.invariant (MemInv stripe) MemInv.start
    rintro state ⟨thread, op⟩ next inv guarded taken
    exact inv.step (guarded.sound inv) taken
  have releases : m.Sound (thread, .release (some obj)) := by
    rintro o isObj
    rwa [← Option.some.inj isObj]
  have initial : MemInv stripe begun ∧ m.Dropped begun thread obj :=
    ⟨inv.step releases result, inv.dropped_of_release owned last result⟩
  have kept : ∀ {state : Machine Tid Obj Loc Stripe} {label next}, MemInv stripe state ∧ m.Dropped state thread obj →
      state.Guarded label → label.2 ≠ .allocate obj → state.step stripe label = some next →
        MemInv stripe next ∧ m.Dropped next thread obj := by
    rintro state ⟨other, op⟩ next ⟨inv, dropped⟩ guarded fresh taken
    have sound := guarded.sound inv
    exact ⟨inv.step sound taken, dropped.step inv sound taken fresh⟩
  have unrevived : ∀ later, Reachable (Machine.step stripe)
      (fun state label => state.Guarded label ∧ label.2 ≠ .allocate obj) begun later →
        m.Unrevived stripe later thread obj := by
    intro later during
    have both := during.invariant (fun state => MemInv stripe state ∧ m.Dropped state thread obj) initial
      fun state label next both allowed taken => kept both allowed.1 allowed.2 taken
    exact both.2.unrevived both.1
  refine ⟨⟨fun always => ?_, fun present later during => ?_⟩, unrevived⟩
  · by_contra missing
    have absent : m.table obj = none := by simpa using missing
    obtain ⟨later, sends, body⟩ := Machine.exists_serving absent result
    have refused := (always later (.single ⟨by simp [Machine.Reentrant, MemOp.uses], by simp [Machine.FindsEntry,
      MemOp.passes], by simp⟩ sends)).2 body
    have during := unrevived later (.single ⟨⟨by simp [Machine.Reentrant, MemOp.uses], by simp [Machine.FindsEntry,
      MemOp.passes]⟩, by simp⟩ sends)
    exact missing ((during.retains body).mp refused.1)
  · have both := during.invariant (fun state => MemInv stripe state ∧ m.Dropped state thread obj) initial
      fun state label next both except taken => kept both (both.2.guarded both.1 present except) except.2.2 taken
    have result := both.2.unrevived both.1
    exact ⟨result, result.refuses present⟩

end Runs

/-- An object that was retained once has an entry when its last reference is released. -/
theorem lastRelease_unrevived_counted : ∃ m begun : Machine (Fin 2) (Fin 2) Nat Nat,
    m.step (· % 127) (0, .release (some 0)) = some begun ∧
      ∀ later, Reachable (Machine.step (· % 127)) (Machine.GuardedExcept 0) begun later →
        m.Unrevived (· % 127) later 0 0 ∧ later.Refuses 0 0 := by
  have ran : ∃ m ∈ replay (Machine.step (· % 127)) Machine.Guarded (Machine.start : Machine (Fin 2) (Fin 2) Nat Nat)
      [(0, .allocate 0), (0, .retain (some 0)), (0, .next), (0, .release (some 0))],
      ∃ begun, m.step (· % 127) (0, .release (some 0)) = some begun ∧ (0, 0) ∈ m.refs ∧ refCount m.refs 0 = 1 ∧
        (m.table 0).isSome = true := ⟨_, rfl, _, rfl, .head _, rfl, rfl⟩
  obtain ⟨m, run, begun, result, owned, last, present⟩ := exists_reachable_of_replay ran
  exact ⟨m, begun, result, (lastRelease_unrevived run owned last result).1.mpr present⟩

/-- Without an entry the body of `-dealloc` retains its own object. The release of that reference sends the message a
second time. A store in the body leaves a slot that names the object after its release has returned. -/
theorem objcRelease_revivesVacant :
    (∃ m : Machine (Fin 2) (Fin 2) Nat Nat, Reachable (Machine.step (· % 127)) Machine.Reentrant Machine.start m ∧
      0 ∈ m.bodies 0 ∧ m.call 0 = .retained (some 0)) ∧
    (∃ m : Machine (Fin 2) (Fin 2) Nat Nat, Reachable (Machine.step (· % 127)) Machine.Reentrant Machine.start m ∧
      m.deallocs 0 = 2) ∧
    ∃ m : Machine (Fin 2) (Fin 2) Nat Nat, Reachable (Machine.step (· % 127)) Machine.Reentrant Machine.start m ∧
      m.call 0 = .user ∧ m.bodies 0 = [] ∧ refCount m.refs 0 = 0 ∧ m.deallocs 0 = 1 ∧ m.slots 9 = some 0 := by
  have retained : ∃ m ∈ replay (Machine.step (· % 127)) Machine.Reentrant
      (Machine.start : Machine (Fin 2) (Fin 2) Nat Nat)
      [(0, .allocate 0), (0, .release (some 0)), (0, .sendDealloc true), (0, .retain (some 0))],
      0 ∈ m.bodies 0 ∧ m.call 0 = .retained (some 0) := ⟨_, rfl, .head _, rfl⟩
  have repeated : ∃ m ∈ replay (Machine.step (· % 127)) Machine.Reentrant
      (Machine.start : Machine (Fin 2) (Fin 2) Nat Nat)
      [(0, .allocate 0), (0, .release (some 0)), (0, .sendDealloc true), (0, .retain (some 0)), (0, .next),
        (0, .returnDealloc), (0, .next), (0, .release (some 0)), (0, .sendDealloc false)],
      m.deallocs 0 = 2 := ⟨_, rfl, rfl⟩
  have stored : ∃ m ∈ replay (Machine.step (· % 127)) Machine.Reentrant
      (Machine.start : Machine (Fin 2) (Fin 2) Nat Nat)
      [(0, .allocate 0), (0, .release (some 0)), (0, .sendDealloc true), (0, .initWeak 9 (some 0)), (0, .next),
        (0, .next), (0, .next), (0, .next), (0, .returnDealloc), (0, .next)],
      m.call 0 = .user ∧ m.bodies 0 = [] ∧ refCount m.refs 0 = 0 ∧ m.deallocs 0 = 1 ∧ m.slots 9 = some 0 :=
    ⟨_, rfl, rfl, rfl, rfl, rfl, rfl⟩
  exact ⟨exists_reachable_of_replay retained, exists_reachable_of_replay repeated, exists_reachable_of_replay stored⟩

end O3jc
