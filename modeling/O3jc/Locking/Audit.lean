import O3jc.Locking.Ledger
import O3jc.Memory.Ownership

/-
This file proves what the owners of references can rely on while any number of threads run the program of locks.
-/

namespace O3jc

open Library

/-- A thread takes a step of the program. User code also allocates an object with one reference and hands a reference
over. -/
inductive AuditOp (Tid Obj Loc : Type) where
  | run (choice : Option (UserChoice Obj Loc))
  | allocate (obj : Obj)
  | give (other : Tid) (obj : Obj)

/-- Whether the step is made by user code. -/
def AuditOp.byUser {Tid Obj Loc : Type} : AuditOp Tid Obj Loc → Bool
  | .run none => false
  | _ => true

/-- The program of locks and the ledger of the references. -/
structure Audited (Tid Obj Loc Stripe Shard : Type) where
  runtime : RuntimeMachine Tid Obj Loc Stripe Shard
  ledger : Machine Tid Obj Loc Stripe

/-- Whether a thread runs user code. -/
def LockPoint.inUser {Obj Loc : Type} : LockPoint Obj Loc → Bool
  | .user _ => true
  | _ => false

/-- The object that a call may name only for the owner of a reference. -/
def RuntimeCall.uses {Obj Loc : Type} : RuntimeCall Obj Loc → Option Obj
  | .retain obj => obj
  | .release obj => obj
  | .initWeak _ obj => obj
  | .storeWeak _ new => new
  | _ => none

/-- The object to which the thread keeps its reference until the call has used it. -/
def LockPoint.claims {Obj Loc : Type} : LockPoint Obj Loc → Option Obj
  | .retain obj none => some obj
  | .retaining obj none => some obj
  | .release obj => some obj
  | .releasing obj => some obj
  | .initWeak _ obj => obj
  | .writeWeak _ write => write.new
  | .writing _ write => write.new
  | .unregister _ _ write => write.new
  | .unregistering _ _ write => write.new
  | .unregistered _ _ write => write.new
  | .clear _ write => write.new
  | .register _ _ write => write.new
  | .registering _ _ write => write.new
  | _ => none

theorem AuditOp.eq_of_byUser {Tid Obj Loc : Type} {op : AuditOp Tid Obj Loc} (internal : op.byUser = false) :
    op = .run none := by
  unfold AuditOp.byUser at internal
  split at internal
  · rfl
  · contradiction

section Claims

variable {Obj Loc Stripe Shard : Type}

theorem zeroFrom_claims (obj : Obj) (locs : List Loc) : (zeroFrom obj locs).claims = none := by
  cases locs <;> rfl

theorem LockPoint.inUser_of_claims {point : LockPoint Obj Loc} {obj : Obj} (isClaim : point.claims = some obj) :
    point.inUser = false := by
  cases point <;> first | rfl | contradiction

theorem enterNew_claims (loc : Loc) (write : WeakWrite Obj) : (enterNew loc write).claims = write.new := by
  unfold enterNew
  split <;> rfl

/-- A call begins with a claim to the object that it uses. -/
theorem RuntimeCall.begin_claims (call : RuntimeCall Obj Loc) : call.begin.claims = call.uses := by
  cases call with
  | retain obj => cases obj <;> rfl
  | release obj => cases obj <;> rfl
  | _ => rfl

/-- A step between these points makes no claim. -/
def LockPoint.Keeps (before after : LockPoint Obj Loc) : Prop :=
  ∀ obj ∈ after.claims, before.claims = some obj ∧ ∀ o, before ≠ .releasing o

theorem LockPoint.Keeps.of_none {before after : LockPoint Obj Loc} (free : after.claims = none) :
    before.Keeps after := fun obj isClaim => absurd (free ▸ isClaim) (by simp)

theorem LockPoint.Keeps.of_same {before after : LockPoint Obj Loc} (same : after.claims = before.claims)
    (held : ∀ o, before ≠ .releasing o) : before.Keeps after := fun _ isClaim => ⟨same ▸ isClaim, held⟩

variable [DecidableEq Obj] [DecidableEq Loc] (layout : Layout Obj Loc Stripe Shard)

/-- A claim begins with the call of user code. -/
theorem Position.claims_step (position : Position Obj Loc) :
    match position.action layout with
    | .done => True
    | .choose next => ∀ choice, ∀ chosen ∈ next choice,
        ∀ obj ∈ chosen.point.claims, ∃ call, choice = .call call ∧ call.uses = some obj
    | .access next => ∀ d : Shared Obj Loc, position.point.Keeps (next d).2.point
    | .acquire _ _ next => position.point.Keeps next.point
    | .release _ _ next => position.point.Keeps next.point := by
  obtain ⟨point, bodies⟩ := position
  cases point with
  | finished => trivial
  | user answer =>
      intro choice chosen isChosen
      cases choice with
      | call call =>
          obtain rfl := Option.some.inj isChosen
          exact fun obj isClaim => ⟨call, rfl, call.begin_claims ▸ isClaim⟩
      | «return» =>
          cases bodies with
          | nil =>
              obtain rfl := Option.some.inj isChosen
              simp [LockPoint.claims]
          | cons obj rest =>
              obtain rfl := Option.some.inj isChosen
              simp [LockPoint.claims]
  | retain obj load => cases load <;> exact .of_same rfl (by simp)
  | release | writeWeak | unregister | register => exact .of_same rfl (by simp)
  | zero | remove | loadWeak | selRegister | intern | cacheRead | cacheFill | flushLock | flushAll | registryLock
  | removed | unlockSlot | interned | internPanicked | selPanicked | cacheFilled | flushed | registryInserted
  | registered => exact .of_none rfl
  | retained obj load result => cases load <;> exact .of_none rfl
  | released obj weakLocations =>
      cases weakLocations with
      | none => exact .of_none rfl
      | some locs => exact .of_none (zeroFrom_claims obj locs)
  | zeroed obj loc rest => exact .of_none (zeroFrom_claims obj rest)
  | unregistered loc old write => exact .of_same (enterNew_claims loc write) (by simp)
  | selFound name sel caller => cases caller <;> exact .of_none rfl
  | cacheAnswered cls sel cached caller => cases cached <;> exact .of_none rfl
  | retaining | releasing | zeroing | removing | clear | registering | selInsert | cacheReading | cacheFilling
  | flushing | flushBelow | sweeping | registryInsert => exact fun d => .of_none rfl
  | unregistering loc old write => exact fun d => .of_same rfl (by simp)
  | initWeak loc obj => cases obj <;> exact fun d => .of_same rfl (by simp)
  | writing loc write =>
      intro d
      dsimp only
      split
      · exact .of_same (enterNew_claims loc write) (by simp)
      · exact .of_same rfl (by simp)
  | loading loc | selEntry name caller | interning name caller | replaceMethod cls sel imp types | exchange m1 m2
  | registerClass cls =>
      intro d
      dsimp only
      split <;> exact .of_none rfl
  | msgLookup receiver sel caller | walk cls sel caller | addMethod cls sel imp types replacing =>
      intro d
      dsimp only
      split
      · exact .of_none rfl
      · split <;> exact .of_none rfl
  | lookedUp imp caller =>
      intro d
      dsimp only
      split <;> exact .of_none rfl
  | flush pending sweep answer =>
      cases pending with
      | cons cls pending =>
          intro d
          dsimp only
          split <;> exact .of_none rfl
      | nil =>
          cases sweep with
          | none => exact fun d => .of_none rfl
          | some rest =>
              cases rest with
              | nil => exact .of_none rfl
              | cons cls rest => exact fun d => .of_none rfl

/-- Where a thread stands in a call that retains an object: the slot of a load, the objects that the call knows of, and
those of which it has gained a reference. -/
def LockPoint.Obtains (load : Option Loc) (told gained : Obj → Prop) : LockPoint Obj Loc → Prop
  | .loadWeak loc => load = some loc
  | .loading loc => load = some loc
  | .retain obj l => l = load ∧ told obj
  | .retaining obj l => l = load ∧ told obj
  | .retained obj l result => l = load ∧ (load = none → result = some obj) ∧ ∀ o ∈ result, told o ∧ gained o
  | .unlockSlot _ answer => load ≠ none ∧ ∃ result, answer = .id result ∧ ∀ o ∈ result, told o ∧ gained o
  | .user answer => ∃ result, answer = .id result ∧ (load = none → result ≠ none) ∧ ∀ o ∈ result, told o ∧ gained o
  | _ => False

omit [DecidableEq Obj] [DecidableEq Loc] in
theorem LockPoint.Obtains.mono {load : Option Loc} {told told' gained gained' : Obj → Prop}
    {point : LockPoint Obj Loc} (known : point.Obtains load told gained) (more : ∀ o, told o → told' o)
    (gains : ∀ o, gained o → gained' o) : point.Obtains load told' gained' := by
  have both : ∀ {result : Option Obj}, (∀ o ∈ result, told o ∧ gained o) → ∀ o ∈ result, told' o ∧ gained' o :=
    fun knows o isResult => (knows o isResult).imp (more o) (gains o)
  cases point with
  | loadWeak | loading => exact known
  | retain | retaining => exact known.imp_right (more _)
  | retained obj l result => exact ⟨known.1, known.2.1, both known.2.2⟩
  | unlockSlot loc answer =>
      obtain ⟨loads, result, isAnswer, knows⟩ := known
      exact ⟨loads, result, isAnswer, both knows⟩
  | user answer =>
      obtain ⟨result, isAnswer, some, knows⟩ := known
      exact ⟨result, isAnswer, some, both knows⟩
  | _ => exact known.elim

/-- A retain carries its object to the answer, and a load carries what it has read in the slot. -/
theorem Position.obtains_step {load : Option Loc} {told gained : Obj → Prop} (position : Position Obj Loc)
    (d : Shared Obj Loc) (known : position.point.Obtains load told gained)
    (reads : ∀ loc ∈ load, ∀ o ∈ d.slots loc, told o)
    (retains : ∀ obj, position.point = .retaining obj load →
      (load = none → (objcRetain d.table (some obj)).2 = some obj) ∧
        ∀ o ∈ (objcRetain d.table (some obj)).2, gained o) :
    match position.action layout with
    | .done => True
    | .choose _ => True
    | .access next => (next d).2.point.Obtains load told gained
    | .acquire _ _ next => next.point.Obtains load told gained
    | .release _ _ next => next.point.Obtains load told gained := by
  obtain ⟨point, bodies⟩ := position
  cases point with
  | user => trivial
  | loadWeak | retain => exact known
  | loading loc =>
      dsimp only [Position.action]
      split
      · exact ⟨by simp [show load = some loc from known], none, rfl, by simp⟩
      · rename_i obj holds
        exact ⟨Eq.symm known, reads loc known obj holds⟩
  | retaining obj l =>
      obtain ⟨rfl, knows⟩ := known
      obtain ⟨isResult, gains⟩ := retains obj rfl
      refine ⟨rfl, isResult, fun o returned => ⟨?_, gains o returned⟩⟩
      obtain rfl := Option.some.inj (objcRetain_result returned)
      exact knows
  | retained obj l result =>
      obtain ⟨rfl, isResult, knows⟩ := known
      cases l with
      | none => exact ⟨result, rfl, fun _ => by simp [isResult rfl], knows⟩
      | some loc => exact ⟨by simp, result, rfl, knows⟩
  | unlockSlot loc answer =>
      obtain ⟨loads, result, isAnswer, knows⟩ := known
      exact ⟨result, isAnswer, fun isRetain => absurd isRetain loads, knows⟩
  | _ => exact known.elim

end Claims

section Steps

variable {Tid Obj Loc : Type}

/-- The first step of a call uses an object that the thread has claimed. -/
theorem LockPoint.memOps_uses (before after : LockPoint Obj Loc) :
    ∀ op ∈ (before.memOps after : List (MemOp Tid Obj Loc)).head?, (∀ obj, op ≠ .allocate obj) ∧
      ∀ obj ∈ op.uses, before.claims = some obj ∨ after.claims = some obj := by
  unfold LockPoint.memOps
  split <;> simp [MemOp.uses, LockPoint.claims, WeakWrite.new]

/-- No later step of a call uses an object. -/
theorem LockPoint.memOps_tail (before after : LockPoint Obj Loc) :
    ∀ op ∈ (before.memOps after : List (MemOp Tid Obj Loc)).tail, op = .next := by
  unfold LockPoint.memOps
  split <;> simp

/-- Whether a step takes a reference away from its thread. -/
def MemOp.gives : MemOp Tid Obj Loc → Bool
  | .give _ _ => true
  | .release _ => true
  | _ => false

/-- Only the step that releases an object gives up a reference. -/
theorem LockPoint.memOps_gives (before after : LockPoint Obj Loc) (held : ∀ o, before ≠ .releasing o) :
    ∀ op ∈ (before.memOps after : List (MemOp Tid Obj Loc)), op.gives = false := by
  unfold LockPoint.memOps
  split <;> first | exact absurd rfl (held _) | simp [MemOp.gives]

variable {Stripe : Type} [DecidableEq Tid] [DecidableEq Obj] [DecidableEq Loc] [DecidableEq Stripe]
  {stripe : Loc → Stripe} {m next : Machine Tid Obj Loc Stripe} {thread other : Tid} {op : MemOp Tid Obj Loc}
  {obj : Obj}

/-- A thread loses references only by its own steps that give one up. -/
theorem Machine.step_count (result : m.step stripe (thread, op) = some next)
    (keeps : other ≠ thread ∨ op.gives = false) : m.refs.count (other, obj) ≤ next.refs.count (other, obj) := by
  have gained : ∀ retained, m.refs.count (other, obj) ≤ (gain m.refs thread retained).count (other, obj) := by
    intro retained
    cases retained with
    | none => exact le_refl _
    | some o => exact List.count_le_count_cons
  have erased : other ≠ thread → ∀ o, m.refs.count (other, obj) ≤ (m.refs.erase (thread, o)).count (other, obj) :=
    fun different o => (List.count_erase_of_ne (by simp [different])).ge
  cases Machine.step_effect result with
  | allocate user => exact List.count_le_count_cons
  | give user => exact (erased (keeps.resolve_right (by simp [MemOp.gives])) _).trans List.count_le_count_cons
  | release user kept => exact erased (keeps.resolve_right (by simp [MemOp.gives])) _
  | dealloc user dropped => exact erased (keeps.resolve_right (by simp [MemOp.gives])) _
  | retain user => exact gained _
  | retainLoaded phase => exact gained _
  | _ => exact le_refl _

variable {ledger later : Machine Tid Obj Loc Stripe} {ops : List (MemOp Tid Obj Loc)}

theorem Machine.steps_count (result : ledger.steps stripe thread ops = some later)
    (keeps : other ≠ thread ∨ ∀ op ∈ ops, op.gives = false) :
    ledger.refs.count (other, obj) ≤ later.refs.count (other, obj) := by
  induction ops generalizing ledger with
  | nil =>
      obtain rfl : ledger = later := Option.some.inj result
      exact le_refl _
  | cons op rest ih =>
      rw [Machine.steps, List.map_cons, List.foldlM_cons] at result
      obtain ⟨middle, taken, after⟩ := Option.bind_eq_some_iff.mp result
      have first : ledger.refs.count (other, obj) ≤ middle.refs.count (other, obj) :=
        Machine.step_count taken (keeps.imp_right fun all => all op List.mem_cons_self)
      exact first.trans (ih after (keeps.imp_right fun all o member => all o (List.mem_cons_of_mem op member)))

/-- A reference survives steps of other threads, and steps that give none up. -/
theorem Machine.steps_refs (result : ledger.steps stripe thread ops = some later)
    (keeps : other ≠ thread ∨ ∀ op ∈ ops, op.gives = false) (owned : (other, obj) ∈ ledger.refs) :
    (other, obj) ∈ later.refs :=
  List.count_pos_iff.mp ((List.count_pos_iff.mpr owned).trans_le (Machine.steps_count result keeps))

end Steps

section Runs

variable {Tid Obj Loc Stripe Shard : Type} [DecidableEq Tid] [DecidableEq Obj] [DecidableEq Loc] [DecidableEq Stripe]
  [DecidableEq Shard] (layout : Layout Obj Loc Stripe Shard)

/-- The side table is empty, every slot is null, and every thread is in user code. -/
def Audited.start (rt : Runtime) : Audited Tid Obj Loc Stripe Shard :=
  ⟨RuntimeMachine.start ⟨⟨fun _ => none, fun _ => none⟩, rt⟩, Machine.start⟩

/-- The ledger follows the program. -/
def Audited.step (s : Audited Tid Obj Loc Stripe Shard) (label : Tid × AuditOp Tid Obj Loc) :
    Option (Audited Tid Obj Loc Stripe Shard) :=
  match label.2 with
  | .run choice => do
      let runtime ← s.runtime.step (Position.action layout) (label.1, choice)
      let ledger ← s.ledger.steps layout.stripe label.1
        ((s.runtime.point label.1).point.memOps (runtime.point label.1).point)
      return ⟨runtime, ledger⟩
  | .allocate obj => (s.ledger.step layout.stripe (label.1, .allocate obj)).map fun ledger => { s with ledger }
  | .give other obj => (s.ledger.step layout.stripe (label.1, .give other obj)).map fun ledger => { s with ledger }

/-- User code allocates addresses that nobody owns and no thread deallocates, and passes on and gives up only references
that it owns. -/
def Audited.Owned (s : Audited Tid Obj Loc Stripe Shard) (label : Tid × AuditOp Tid Obj Loc) : Prop :=
  match label.2 with
  | .run (some (.call call)) => ∀ obj ∈ call.uses, (label.1, obj) ∈ s.ledger.refs
  | .run _ => True
  | .allocate obj => (s.runtime.point label.1).point.inUser = true ∧ s.ledger.Owned (label.1, .allocate obj)
  | .give other obj => (s.runtime.point label.1).point.inUser = true ∧ s.ledger.Owned (label.1, .give other obj)

instance (s : Audited Tid Obj Loc Stripe Shard) (label : Tid × AuditOp Tid Obj Loc) : Decidable (s.Owned label) :=
  match label with
  | (thread, .run (some (.call call))) => inferInstanceAs (Decidable (∀ obj ∈ call.uses, (thread, obj) ∈ s.ledger.refs))
  | (_, .run (some .return)) => inferInstanceAs (Decidable True)
  | (_, .run none) => inferInstanceAs (Decidable True)
  | (_, .allocate _) => inferInstanceAs (Decidable (_ ∧ _))
  | (_, .give _ _) => inferInstanceAs (Decidable (_ ∧ _))

/-- The invariant of audited runs. -/
structure AuditInv (s : Audited Tid Obj Loc Stripe Shard) : Prop where
  follows : Follows layout s.runtime s.ledger
  memory : MemInv layout.stripe s.ledger
  claims : ∀ t obj, (s.runtime.point t).point.claims = some obj → (t, obj) ∈ s.ledger.refs

omit [DecidableEq Loc] in
theorem AuditInv.start (rt : Runtime) :
    AuditInv layout (Audited.start rt : Audited Tid Obj Loc Stripe Shard) where
  follows := .start layout _
  memory := .start
  claims t obj isClaim := by
    have : (none : Option Obj) = some obj := isClaim
    contradiction

variable {layout} {s next : Audited Tid Obj Loc Stripe Shard} {thread : Tid} {op : AuditOp Tid Obj Loc}
  {choice : Option (UserChoice Obj Loc)} {later : RuntimeMachine Tid Obj Loc Stripe Shard}

/-- After a step of the program, its thread owns what it claims. -/
theorem AuditInv.claims_step (inv : AuditInv layout s) (owned : s.Owned (thread, .run choice))
    (result : s.runtime.step (Position.action layout) (thread, choice) = some later) :
    ∀ obj ∈ (later.point thread).point.claims,
      (thread, obj) ∈ s.ledger.refs ∧ ∀ o, (s.runtime.point thread).point ≠ .releasing o := by
  have position := (s.runtime.point thread).claims_step layout
  have kept : ∀ {after : LockPoint Obj Loc}, (s.runtime.point thread).point.Keeps after →
      ∀ obj ∈ after.claims,
        (thread, obj) ∈ s.ledger.refs ∧ ∀ o, (s.runtime.point thread).point ≠ .releasing o := by
    intro after keeps obj isClaim
    obtain ⟨before, held⟩ := keeps obj isClaim
    exact ⟨inv.claims thread obj before, held⟩
  cases LockMachine.step_effect result with
  | @choose next choice point isChoice chosen =>
      rw [isChoice] at position
      simp only [LockMachine.enter, Function.update_self]
      intro obj isClaim
      obtain ⟨call, rfl, isUse⟩ := position choice point chosen obj isClaim
      refine ⟨owned obj isUse, fun o releasing => ?_⟩
      rw [Position.action, releasing] at isChoice
      contradiction
  | access isAccess =>
      rw [isAccess] at position
      simp only [LockMachine.enter, Function.update_self]
      exact kept (position s.runtime.data)
  | acquire isAcquire admitted =>
      rw [isAcquire] at position
      simp only [LockMachine.enter, Function.update_self]
      exact kept position
  | release isRelease =>
      rw [isRelease] at position
      simp only [LockMachine.enter, Function.update_self]
      exact kept position

/-- The steps that the ledger takes are those of threads that use only what they own. -/
theorem AuditInv.owned_steps (inv : AuditInv layout s) {after : LockPoint Obj Loc}
    (claimed : ∀ obj ∈ after.claims, (thread, obj) ∈ s.ledger.refs) {ledger : Machine Tid Obj Loc Stripe}
    (stepped : s.ledger.steps layout.stripe thread ((s.runtime.point thread).point.memOps after) = some ledger) :
    Reachable (Machine.step layout.stripe) Machine.Owned s.ledger ledger := by
  apply reachable_of_foldlM stepped
  · intro label isHead
    rw [List.head?_map] at isHead
    obtain ⟨op, isOp, rfl⟩ := Option.map_eq_some_iff.mp isHead
    obtain ⟨used, uses⟩ := LockPoint.memOps_uses _ after op isOp
    have owns : ∀ obj ∈ op.uses, (thread, obj) ∈ s.ledger.refs := fun obj isUse =>
      (uses obj isUse).elim (inv.claims thread obj) (claimed obj)
    cases op with
    | allocate obj => exact absurd rfl (used obj)
    | _ => exact owns
  · intro label member current
    rw [← List.map_tail] at member
    obtain ⟨op, isOp, rfl⟩ := List.mem_map.mp member
    rw [LockPoint.memOps_tail _ after op isOp]
    exact fun obj isUse => absurd isUse (by simp [MemOp.uses])

/-- The ledger of a run is a run of its own, in which threads use only what they own. -/
theorem AuditInv.ledger_run (inv : AuditInv layout s) (owned : s.Owned (thread, op))
    (result : s.step layout (thread, op) = some next) :
    Reachable (Machine.step layout.stripe) Machine.Owned s.ledger next.ledger := by
  cases op with
  | run choice =>
      obtain ⟨runtime, taken, rest⟩ := Option.bind_eq_some_iff.mp result
      obtain ⟨ledger, stepped, isNext⟩ := Option.bind_eq_some_iff.mp rest
      obtain rfl := Option.some.inj isNext
      exact inv.owned_steps (fun obj isClaim => (inv.claims_step owned taken obj isClaim).1) stepped
  | allocate obj =>
      obtain ⟨ledger, taken, rfl⟩ := Option.map_eq_some_iff.mp result
      exact .single owned.2 taken
  | give other obj =>
      obtain ⟨ledger, taken, rfl⟩ := Option.map_eq_some_iff.mp result
      exact .single owned.2 taken

/-- A step of user code beside the runtime moves no thread. -/
theorem AuditInv.ghost (inv : AuditInv layout s) {op : MemOp Tid Obj Loc} {ledger : Machine Tid Obj Loc Stripe}
    (result : s.ledger.step layout.stripe (thread, op) = some ledger) (owned : s.ledger.Owned (thread, op))
    (memory : ledger.toMemory = s.ledger.toMemory) (call : ledger.call = s.ledger.call)
    (bodies : ledger.bodies = s.ledger.bodies)
    (kept : ∀ t obj, (s.runtime.point t).point.inUser = false →
      s.ledger.refs.count (t, obj) ≤ ledger.refs.count (t, obj)) : AuditInv layout { s with ledger } where
  follows :=
    { memory := inv.follows.memory.trans memory.symm
      calls := fun t => call ▸ inv.follows.calls t
      bodies := fun t => bodies ▸ inv.follows.bodies t
      proper := inv.follows.proper
      taken := inv.follows.taken.step result
      ordered := inv.follows.ordered
      exclusive := inv.follows.exclusive }
  memory := inv.memory.step owned.sound result
  claims t obj isClaim := by
    have outside := LockPoint.inUser_of_claims isClaim
    exact List.count_pos_iff.mp ((List.count_pos_iff.mpr (inv.claims t obj isClaim)).trans_le (kept t obj outside))

theorem AuditInv.step (inv : AuditInv layout s) (owned : s.Owned (thread, op))
    (result : s.step layout (thread, op) = some next) : AuditInv layout next := by
  cases op with
  | run choice =>
      obtain ⟨runtime, taken, rest⟩ := Option.bind_eq_some_iff.mp result
      obtain ⟨ledger, stepped, isNext⟩ := Option.bind_eq_some_iff.mp rest
      obtain rfl := Option.some.inj isNext
      obtain ⟨later, isLater, follows⟩ := inv.follows.step taken
      obtain rfl : later = ledger := Option.some.inj (isLater.symm.trans stepped)
      have memory : MemInv layout.stripe later :=
        (inv.ledger_run owned result).invariant (MemInv layout.stripe) inv.memory
          fun _ _ _ inv permitted result => inv.step permitted.sound result
      refine ⟨follows, memory, fun t obj isClaim => ?_⟩
      by_cases isThread : t = thread
      · subst isThread
        obtain ⟨owns, held⟩ := inv.claims_step owned taken obj isClaim
        exact Machine.steps_refs stepped (.inr (LockPoint.memOps_gives _ _ held)) owns
      · have isClaim : (runtime.point t).point.claims = some obj := isClaim
        rw [LockMachine.step_point_of_ne taken isThread] at isClaim
        exact Machine.steps_refs stepped (.inl isThread) (inv.claims t obj isClaim)
  | allocate obj =>
      obtain ⟨ledger, taken, rfl⟩ := Option.map_eq_some_iff.mp result
      refine inv.ghost taken owned.2 ?_ ?_ ?_ fun t o _ => Machine.step_count taken (.inr rfl)
      all_goals
        cases Machine.step_effect taken
        rfl
  | give other obj =>
      obtain ⟨ledger, taken, rfl⟩ := Option.map_eq_some_iff.mp result
      refine inv.ghost taken owned.2 ?_ ?_ ?_ fun t o outside => Machine.step_count taken (.inl ?_)
      all_goals try
        cases Machine.step_effect taken
        rfl
      rintro rfl
      rw [owned.1] at outside
      contradiction

theorem AuditInv.run {later : Audited Tid Obj Loc Stripe Shard} (inv : AuditInv layout s)
    (run : Reachable (Audited.step layout) Audited.Owned s later) : AuditInv layout later :=
  run.invariant (AuditInv layout) inv fun _ _ _ inv owned result => inv.step owned result

/-- What the owners of references can rely on in a state. -/
structure Audited.Safe (layout : Layout Obj Loc Stripe Shard) (s : Audited Tid Obj Loc Stripe Shard) : Prop where
  /-- The ledger never holds the program up. -/
  goes : ∀ thread choice runtime, s.runtime.step (Position.action layout) (thread, choice) = some runtime →
    ∃ ledger, s.step layout (thread, .run choice) = some ⟨runtime, ledger⟩
  /-- An object of which a thread owns a reference is alive. -/
  alive : ∀ thread obj, (thread, obj) ∈ s.ledger.refs → s.ledger.deallocs obj = 0 ∧
    ∀ other, obj ∉ (s.runtime.point other).point.call.dying ++ (s.runtime.point other).bodies
  /-- What a slot holds under its lock has an entry and has not been sent `-dealloc`. -/
  reads : ∀ thread loc obj, (s.runtime.point thread).point = .loading loc → s.runtime.data.slots loc = some obj →
    (s.runtime.data.table obj).isSome = true ∧ s.ledger.deallocs obj = 0
  /-- The retain count of an object is the number of references to it. -/
  counts : ∀ obj, 0 < refCount s.ledger.refs obj →
    objcRetainCount s.runtime.data.table (some obj) = refCount s.ledger.refs obj
  /-- The body of a `-dealloc` runs once, in one thread, for an object without references. -/
  bodies : ∀ thread obj, obj ∈ (s.runtime.point thread).bodies →
    refCount s.ledger.refs obj = 0 ∧ s.ledger.deallocs obj = 1 ∧
      ∀ other, (s.runtime.point other).bodies.count obj = if other = thread then 1 else 0
  /-- The zeroing leaves no slot that names the object and that no thread is about to overwrite under its lock. -/
  zeroed : ∀ loc obj, s.runtime.data.slots loc = some obj → refCount s.ledger.refs obj = 0 →
    s.ledger.deallocator obj = none ∨ s.ledger.deallocs obj = 1 →
      ∃ other, (s.runtime.point other).point.call.overwrites = some loc ∧
        layout.slotGuard loc ∈ (s.runtime.point other).holds layout
  /-- The table keeps no entry of an object that nobody owns or deallocates. -/
  removed : ∀ obj, refCount s.ledger.refs obj = 0 → s.ledger.deallocator obj = none → s.runtime.data.table obj = none

omit [DecidableEq Tid] [DecidableEq Loc] [DecidableEq Stripe] [DecidableEq Shard] in
/-- Only an object that still has references or is still to be zeroed is listed. -/
theorem MemInv.deallocs_of_listed {m : Machine Tid Obj Loc Stripe} (inv : MemInv layout.stripe m) {loc : Loc}
    {obj : Obj} (listed : Listed m.table m.call loc obj) :
    m.deallocs obj = 0 ∧ (0 < refCount m.refs obj ∨ ∃ thread, m.deallocator obj = some thread) := by
  obtain ⟨_, alive, sent⟩ := inv.deallocs obj
  rcases listed with member | ⟨thread, pending⟩
  · have state := inv.objects obj
    rcases state.known (isSome_of_registered member) with positive | dying
    · exact ⟨alive positive, .inl positive⟩
    · obtain ⟨thread, isDeallocator⟩ := Option.isSome_iff_exists.mp dying
      rw [isDeallocator] at state
      rw [state.registered_eq_nil] at member
      contradiction
  · have isDeallocator := inv.deallocator_of_dying pending.dying
    obtain ⟨remaining, phase, _⟩ := pending
    exact ⟨(sent thread isDeallocator).mpr ⟨remaining, phase⟩, .inr ⟨thread, isDeallocator⟩⟩

omit [DecidableEq Loc] in
/-- A slot that is neither listed nor empty is under the lock of the thread that overwrites it. -/
theorem AuditInv.listed_or (inv : AuditInv layout s) {loc : Loc} {obj : Obj}
    (holds : s.runtime.data.slots loc = some obj) :
    Listed s.ledger.table s.ledger.call loc obj ∨
      ∃ other, (s.runtime.point other).point.call.overwrites = some loc ∧
        layout.slotGuard loc ∈ (s.runtime.point other).holds layout := by
  have same : s.runtime.data.slots loc = s.ledger.slots loc :=
    congrArg (fun memory => memory.slots loc) inv.follows.memory
  rcases inv.memory.slots loc obj (same ▸ holds) with listed | ⟨other, overwrites⟩
  · exact .inl listed
  · rw [inv.follows.calls] at overwrites
    exact .inr ⟨other, overwrites, LockPoint.mem_holds layout (Call.overwrites_holding overwrites)⟩

theorem AuditInv.safe (inv : AuditInv layout s) : s.Safe layout where
  goes thread choice runtime taken := by
    obtain ⟨ledger, stepped, _⟩ := inv.follows.step taken
    refine ⟨ledger, ?_⟩
    simp only [Audited.step, taken, Option.bind_eq_bind, Option.bind_some, stepped]
    rfl
  alive thread obj owned := by
    refine ⟨(inv.memory.deallocs obj).2.1 (refCount_pos owned), fun other isDying => ?_⟩
    have place := (inv.memory.places other).2 obj
    rw [inv.follows.calls, inv.follows.bodies, inv.memory.deallocator_of_owned owned] at place
    exact absurd (place.mp isDying) (by simp)
  reads thread loc obj loading holds := by
    rcases inv.listed_or holds with listed | ⟨other, overwrites, guards⟩
    · have present := inv.memory.weak.isSome_of_listed listed
      exact ⟨by rwa [inv.follows.memory], (inv.memory.deallocs_of_listed listed).1⟩
    · have own : layout.slotGuard loc ∈ (s.runtime.point thread).holds layout := by
        simp [Position.holds, loading, LockPoint.holds]
      have same := inv.follows.exclusive.unique (inv.follows.ordered.mem_owners.mpr own)
        (inv.follows.ordered.mem_owners.mpr guards)
      rw [same, loading] at overwrites
      contradiction
  counts obj positive := by
    have state := inv.memory.objects obj
    rw [state.deallocator_eq_none positive] at state
    rw [inv.follows.memory]
    exact state.retainCount positive
  bodies thread obj member := by
    rw [← inv.follows.bodies] at member
    obtain ⟨nodup, places⟩ := inv.memory.places thread
    have isDeallocator := (places obj).mp (List.mem_append_right _ member)
    have state := inv.memory.objects obj
    rw [isDeallocator] at state
    obtain ⟨once, _, sent⟩ := inv.memory.deallocs obj
    have isSent : s.ledger.deallocs obj ≠ 0 := by
      rw [ne_eq, sent thread isDeallocator]
      rintro ⟨remaining, phase⟩
      rw [phase] at nodup
      exact List.disjoint_of_nodup_append nodup List.mem_cons_self member
    refine ⟨state.count_eq_zero, by omega, fun other => ?_⟩
    rw [← inv.follows.bodies]
    by_cases isThread : other = thread
    · rw [if_pos isThread, isThread]
      exact List.count_eq_one_of_mem (List.nodup_append.mp nodup).2.1 member
    · rw [if_neg isThread, List.count_eq_zero]
      intro elsewhere
      have isOther := ((inv.memory.places other).2 obj).mp (List.mem_append_right _ elsewhere)
      exact isThread (Option.some.inj (isOther.symm.trans isDeallocator))
  zeroed loc obj holds dead finished := by
    rcases inv.listed_or holds with listed | overwritten
    · obtain ⟨unsent, positive | ⟨thread, isDeallocator⟩⟩ := inv.memory.deallocs_of_listed listed
      · omega
      · rcases finished with idle | sent
        · rw [isDeallocator] at idle
          contradiction
        · omega
    · exact overwritten
  removed obj dead idle := by
    have state := inv.memory.objects obj
    rw [dead, idle] at state
    rw [inv.follows.memory]
    exact state.eq_none_of_free

/-- A retain of an owned object succeeds, and a retain that succeeds gains a reference. -/
theorem AuditInv.retaining_step (inv : AuditInv layout s) {obj : Obj} {load : Option Loc}
    (isRetaining : (s.runtime.point thread).point = .retaining obj load) {after : LockPoint Obj Loc}
    {ledger : Machine Tid Obj Loc Stripe} (stepped : s.ledger.steps layout.stripe thread
      ((s.runtime.point thread).point.memOps after) = some ledger) :
    (load = none → (objcRetain s.ledger.table (some obj)).2 = some obj) ∧
      ∀ o ∈ (objcRetain s.ledger.table (some obj)).2,
        s.ledger.refs.count (thread, o) < ledger.refs.count (thread, o) := by
  have gained : ∀ {result : Option Obj}, ∀ o ∈ result,
      s.ledger.refs.count (thread, o) < (gain s.ledger.refs thread result).count (thread, o) := by
    rintro _ o ⟨⟩
    rw [gain, List.count_cons_self]
    exact Nat.lt_succ_self _
  rw [isRetaining] at stepped
  cases load with
  | none =>
      obtain ⟨middle, single, ends⟩ := Option.bind_eq_some_iff.mp stepped
      obtain rfl : middle = ledger := Option.some.inj ends
      have owns := inv.claims thread obj (by rw [isRetaining]; rfl)
      refine ⟨fun _ => ?_, ?_⟩
      · rcases (inv.memory.objects obj).retain (.inl (refCount_pos owns)) with ⟨_, success, _⟩ | ⟨dying, _⟩
        · exact success
        · exact absurd (inv.memory.deallocator_of_owned owns) dying
      · cases Machine.step_effect single with
        | retain user => exact gained
  | some loc =>
      obtain ⟨middle, single, ends⟩ := Option.bind_eq_some_iff.mp stepped
      obtain rfl : middle = ledger := Option.some.inj ends
      have isPhase : s.ledger.call thread = .loading loc obj := by rw [inv.follows.calls, isRetaining]; rfl
      refine ⟨by simp, ?_⟩
      cases Machine.step_effect single with
      | retainLoaded phase =>
          rw [isPhase] at phase
          cases phase
          exact gained
      | _ => simp_all

variable {load : Option Loc} {had : Obj → Nat}

/-- A step of its own thread takes a call that retains an object on, and takes no reference away. -/
theorem AuditInv.obtains_own (inv : AuditInv layout s) {told : Obj → Prop}
    (known : (s.runtime.point thread).point.Obtains load told fun o => had o < s.ledger.refs.count (thread, o))
    (counts : ∀ o, had o ≤ s.ledger.refs.count (thread, o))
    (reads : ∀ loc ∈ load, ∀ o ∈ s.runtime.data.slots loc, told o)
    (result : s.step layout (thread, .run none) = some next) :
    (∀ o, had o ≤ next.ledger.refs.count (thread, o)) ∧
      (next.runtime.point thread).point.Obtains load told fun o => had o < next.ledger.refs.count (thread, o) := by
  obtain ⟨runtime, taken, rest⟩ := Option.bind_eq_some_iff.mp result
  obtain ⟨ledger, stepped, isNext⟩ := Option.bind_eq_some_iff.mp rest
  obtain rfl := Option.some.inj isNext
  have held : ∀ o, (s.runtime.point thread).point ≠ .releasing o := by
    intro o isReleasing
    rw [isReleasing] at known
    exact known
  have kept : ∀ o, s.ledger.refs.count (thread, o) ≤ ledger.refs.count (thread, o) := fun o =>
    Machine.steps_count stepped (.inr (LockPoint.memOps_gives _ _ held))
  have moves := (s.runtime.point thread).obtains_step layout s.runtime.data
    (known.mono (fun _ => id) fun o gained => gained.trans_le (kept o)) reads fun obj isRetaining => by
      rw [show s.runtime.data.table = s.ledger.table from congrArg Memory.table inv.follows.memory]
      obtain ⟨isResult, gains⟩ := inv.retaining_step isRetaining stepped
      exact ⟨isResult, fun o returned => (counts o).trans_lt (gains o returned)⟩
  refine ⟨fun o => (counts o).trans (kept o), ?_⟩
  cases LockMachine.step_effect taken with
  | access isAccess =>
      rw [isAccess] at moves
      simpa [LockMachine.enter] using moves
  | acquire isAcquire admitted =>
      rw [isAcquire] at moves
      simpa [LockMachine.enter] using moves
  | release isRelease =>
      rw [isRelease] at moves
      simpa [LockMachine.enter] using moves

/-- A step leaves the other threads where they are, with all their references. -/
theorem Audited.step_other {other : Tid} (result : s.step layout (thread, op) = some next)
    (different : other ≠ thread) :
    next.runtime.point other = s.runtime.point other ∧
      ∀ obj, s.ledger.refs.count (other, obj) ≤ next.ledger.refs.count (other, obj) := by
  cases op with
  | run choice =>
      obtain ⟨runtime, taken, rest⟩ := Option.bind_eq_some_iff.mp result
      obtain ⟨ledger, stepped, isNext⟩ := Option.bind_eq_some_iff.mp rest
      obtain rfl := Option.some.inj isNext
      exact ⟨LockMachine.step_point_of_ne taken different, fun obj => Machine.steps_count stepped (.inl different)⟩
  | allocate obj =>
      obtain ⟨ledger, taken, rfl⟩ := Option.map_eq_some_iff.mp result
      exact ⟨rfl, fun obj => Machine.step_count taken (.inl different)⟩
  | give receiver obj =>
      obtain ⟨ledger, taken, rfl⟩ := Option.map_eq_some_iff.mp result
      exact ⟨rfl, fun obj => Machine.step_count taken (.inl different)⟩

/-- The labels of other threads, and those with which the thread goes on by itself. -/
def Audited.GoesOn (thread : Tid) (label : Tid × AuditOp Tid Obj Loc) : Prop :=
  label.1 = thread → label.2.byUser = false

omit [DecidableEq Obj] [DecidableEq Loc] in
instance (thread : Tid) (label : Tid × AuditOp Tid Obj Loc) : Decidable (Audited.GoesOn thread label) :=
  inferInstanceAs (Decidable (label.1 = thread → label.2.byUser = false))

/-- The thread has only gone on since it made the call, and it is back in user code with the answer. -/
def Audited.Answered (layout : Layout Obj Loc Stripe Shard) (thread : Tid) (call : RuntimeCall Obj Loc)
    (before s : Audited Tid Obj Loc Stripe Shard) (answer : RuntimeAnswer Obj) : Prop :=
  Since (Audited.step layout) Audited.Owned (thread, .run (some (.call call))) (Audited.GoesOn thread) before s ∧
    s.runtime.point thread = ⟨.user answer, (before.runtime.point thread).bodies⟩

/-- A call that retains an object goes on with what it has been told or has read, and loses no reference. -/
theorem AuditInv.obtains {first : Audited Tid Obj Loc Stripe Shard} (inv : AuditInv layout first) (load : Option Loc)
    (told : Audited Tid Obj Loc Stripe Shard → Obj → Prop)
    (keeps : ∀ state label next o, state.Owned label → state.step layout label = some next → told state o →
      told next o)
    (reads : ∀ state, Reachable (Audited.step layout) Audited.Owned first state →
      ∀ loc ∈ load, ∀ o ∈ state.runtime.data.slots loc, told state o)
    (begins : (first.runtime.point thread).point.Obtains load (told first) fun o =>
      had o < first.ledger.refs.count (thread, o))
    (counts : ∀ o, had o ≤ first.ledger.refs.count (thread, o))
    (run : Reachable (Audited.step layout) (fun state label => state.Owned label ∧ Audited.GoesOn thread label)
      first s) :
    (s.runtime.point thread).point.Obtains load (told s) fun o => had o < s.ledger.refs.count (thread, o) := by
  suffices both : (∀ o, had o ≤ s.ledger.refs.count (thread, o)) ∧
      (s.runtime.point thread).point.Obtains load (told s) fun o => had o < s.ledger.refs.count (thread, o) from both.2
  induction run with
  | refl => exact ⟨counts, begins⟩
  | @tail state next label before permits result ih =>
      obtain ⟨mover, op⟩ := label
      obtain ⟨counts, known⟩ := ih
      have owned := before.mono fun _ _ => And.left
      have known := known.mono (fun o => keeps state _ next o permits.1 result) fun _ => id
      have reads := fun loc isLoad o holds => keeps state _ next o permits.1 result (reads state owned loc isLoad o holds)
      by_cases isThread : mover = thread
      · subst isThread
        obtain rfl : op = .run none := AuditOp.eq_of_byUser (permits.2 rfl)
        exact (inv.run owned).obtains_own known counts reads result
      · obtain ⟨stays, more⟩ := Audited.step_other result (Ne.symm isThread)
        rw [stays]
        exact ⟨fun o => (counts o).trans (more o), known.mono (fun _ => id) fun o gained => gained.trans_le (more o)⟩

/-- The step that makes a call takes no reference away. -/
theorem Audited.step_call {call : RuntimeCall Obj Loc}
    (result : s.step layout (thread, .run (some (.call call))) = some next) :
    next.runtime.point thread = ⟨call.begin, (s.runtime.point thread).bodies⟩ ∧
      ∀ o, s.ledger.refs.count (thread, o) ≤ next.ledger.refs.count (thread, o) := by
  obtain ⟨runtime, taken, rest⟩ := Option.bind_eq_some_iff.mp result
  obtain ⟨ledger, stepped, isNext⟩ := Option.bind_eq_some_iff.mp rest
  obtain rfl := Option.some.inj isNext
  obtain ⟨rfl, answer, inUser⟩ := RuntimeMachine.step_call taken
  refine ⟨Function.update_self .., fun o => ?_⟩
  exact Machine.steps_count stepped (.inr (LockPoint.memOps_gives _ _ (by simp [inUser])))

/-- What the calls that retain an object return at the end of a run. -/
structure Audited.Returns (layout : Layout Obj Loc Stripe Shard) (start s : Audited Tid Obj Loc Stripe Shard) :
    Prop where
  /-- A retain returns its object, of which its thread then owns one more reference. -/
  retains : ∀ thread obj before answer, Reachable (Audited.step layout) Audited.Owned start before →
    Audited.Answered layout thread (.retain (some obj)) before s answer → answer = .id (some obj) ∧
      before.ledger.refs.count (thread, obj) < s.ledger.refs.count (thread, obj)
  /-- A weak load returns null, or an object that the slot held at some moment of the call and of which its thread then
  owns one more reference. -/
  loads : ∀ thread call loc before answer, call = .loadWeakRetained loc ∨ call = .loadWeak loc →
    Reachable (Audited.step layout) Audited.Owned start before → Audited.Answered layout thread call before s answer →
      ∃ result, answer = .id result ∧ ∀ o ∈ result,
        before.ledger.refs.count (thread, o) < s.ledger.refs.count (thread, o) ∧
          Within (Audited.step layout) Audited.Owned before s fun state => state.runtime.data.slots loc = some o

theorem AuditInv.returns {start : Audited Tid Obj Loc Stripe Shard} (inv : AuditInv layout start) :
    Audited.Returns layout start s where
  retains thread obj before answer run answered := by
    obtain ⟨⟨called, allowed, result, goesOn⟩, isAnswer⟩ := answered
    have inv := inv.run (run.tail allowed result)
    obtain ⟨begun, more⟩ := Audited.step_call result
    have ended := inv.obtains none (fun _ o => o = obj) (fun _ _ _ _ _ _ => id) (by simp)
      (by rw [begun]; exact ⟨rfl, rfl⟩) more goesOn
    rw [isAnswer] at ended
    obtain ⟨result, rfl, isSome, knows⟩ := ended
    obtain ⟨o, rfl⟩ := Option.ne_none_iff_exists'.mp (isSome rfl)
    obtain ⟨rfl, gained⟩ := knows o rfl
    exact ⟨rfl, gained⟩
  loads thread call loc before answer loads run answered := by
    obtain ⟨⟨called, allowed, result, goesOn⟩, isAnswer⟩ := answered
    have inv := inv.run (run.tail allowed result)
    obtain ⟨begun, more⟩ := Audited.step_call result
    have isBegin : call.begin = .loadWeak loc := by rcases loads with rfl | rfl <;> rfl
    have ended := inv.obtains (some loc)
      (fun state o => Within (Audited.step layout) Audited.Owned before state fun state =>
        state.runtime.data.slots loc = some o)
      (fun _ _ _ _ allowed result held => held.tail allowed result)
      (fun state during => by
        rintro _ ⟨⟩ o holds
        exact .here ((Reachable.single allowed result).trans during) holds)
      (by rw [begun, isBegin]; rfl) more goesOn
    rw [isAnswer] at ended
    obtain ⟨result, rfl, _, knows⟩ := ended
    exact ⟨result, rfl, fun o isResult => (knows o isResult).symm⟩

/-- However the threads of a program interleave at its locks, strong references are safe when every thread releases,
stores and passes on only what it owns, and an address is used again only after its release has returned. -/
theorem auditedRun_safe {rt : Runtime}
    (run : Reachable (Audited.step layout) Audited.Owned (Audited.start rt : Audited Tid Obj Loc Stripe Shard) s) :
    s.Safe layout ∧ Audited.Returns layout (Audited.start rt) s :=
  ⟨((AuditInv.start layout rt).run run).safe, (AuditInv.start layout rt).returns⟩

end Runs

/-- Thread 0 runs the body of a `-dealloc`. It releases its only reference to another object while thread 1 loads that
object from a slot. -/
theorem auditedRun_safe_loaded : ∃ before s : Audited Nat Nat Nat Nat Nat,
    (s.runtime.point 0).bodies = [6] ∧ (0, 5) ∈ before.ledger.refs ∧ (0, 5) ∉ s.ledger.refs ∧
      Audited.Answered collidingLayout 1 (.loadWeakRetained 1) before s (.id (some 5)) ∧ s.Safe collidingLayout ∧
        Audited.Returns collidingLayout (Audited.start deallocRuntime) s := by
  let step : Audited Nat Nat Nat Nat Nat → _ := Audited.step collidingLayout
  let first : List (Nat × AuditOp Nat Nat Nat) :=
    [(0, .allocate 6), (0, .run (some (.call (.release (some 6)))))] ++ List.replicate 15 (0, .run none) ++
      [(0, .allocate 5), (0, .run (some (.call (.retain (some 5)))))] ++ List.replicate 3 (0, .run none) ++
      [(0, .give 1 5), (1, .run (some (.call (.initWeak 1 (some 5)))))] ++ List.replicate 7 (1, .run none)
  let second : List (Nat × AuditOp Nat Nat Nat) :=
    List.replicate 2 (1, .run none) ++ [(0, .run (some (.call (.release (some 5)))))] ++
      List.replicate 3 (0, .run none) ++ List.replicate 4 (1, .run none)
  have ran : ∃ before ∈ replay step Audited.Owned (Audited.start deallocRuntime) first,
      (before.runtime.point 1).bodies = [] ∧ (0, 5) ∈ before.ledger.refs ∧
        ∃ called ∈ step before (1, .run (some (.call (.loadWeakRetained 1)))),
          ∃ s ∈ replay step (fun state label => state.Owned label ∧ Audited.GoesOn 1 label) called second,
            (s.runtime.point 0).bodies = [6] ∧ (0, 5) ∉ s.ledger.refs ∧
              s.runtime.point 1 = ⟨.user (.id (some 5)), []⟩ :=
    ⟨_, rfl, rfl, by decide, _, rfl, _, rfl, rfl, by decide, rfl⟩
  obtain ⟨before, replayed, noBody, owned, called, loads, s, ended, body, released, answer⟩ := ran
  have run := reachable_of_replay replayed
  have since := reachable_of_replay ended
  have allowed : before.Owned (1, .run (some (.call (.loadWeakRetained 1)))) := fun obj isUse => by contradiction
  exact ⟨before, s, body, owned, released, ⟨⟨called, allowed, loads, since⟩, by rw [answer, noBody]⟩,
    auditedRun_safe ((run.tail allowed loads).trans (since.mono fun _ _ => And.left))⟩

section Disposal

variable {Tid Obj Loc Stripe Shard : Type} [DecidableEq Tid] [DecidableEq Obj] [DecidableEq Loc] [DecidableEq Stripe]
  {layout : Layout Obj Loc Stripe Shard} {s : Audited Tid Obj Loc Stripe Shard} {thread : Tid}

/-- An object that has once been owned: it still is, or a thread deallocates it, or it has been sent `-dealloc`. -/
def Machine.Kept (m : Machine Tid Obj Loc Stripe) (obj : Obj) : Prop :=
  0 < refCount m.refs obj ∨ m.deallocator obj ≠ none ∨ m.deallocs obj = 1

/-- The last reference to an object goes only to its deallocation, and the deallocation only to its message. -/
theorem Machine.Kept.step {m next : Machine Tid Obj Loc Stripe} {op : MemOp Tid Obj Loc} {obj : Obj}
    (kept : m.Kept obj) (inv : MemInv layout.stripe m) (sound : m.Sound (thread, op))
    (result : m.step layout.stripe (thread, op) = some next) : next.Kept obj := by
  have gained : ∀ answer, 0 < refCount m.refs obj → 0 < refCount (gain m.refs thread answer) obj := by
    intro answer positive
    cases answer with
    | none => exact positive
    | some o =>
        rw [gain, refCount_cons]
        omega
  have erased : ∀ {o : Obj}, (thread, o) ∈ m.refs → 0 < refCount m.refs obj → (o = obj → refCount m.refs obj ≠ 1) →
      0 < refCount (m.refs.erase (thread, o)) obj := by
    intro o owned positive more
    have count := refCount_erase owned obj
    by_cases isObj : o = obj
    · rw [if_pos isObj] at count
      have := more isObj
      omega
    · rw [if_neg isObj] at count
      omega
  have sent : ∀ {o : Obj}, m.call thread = .zeroing o [] → m.deallocs obj = 1 →
      Function.update m.deallocs o (m.deallocs o + 1) obj = 1 := by
    intro o phase isSent
    have isDeallocator : m.deallocator o = some thread := inv.deallocator_of_dying (by rw [phase]; exact .head [])
    have unsent := ((inv.deallocs o).2.2 thread isDeallocator).mpr ⟨[], phase⟩
    have isObj : obj ≠ o := by
      rintro rfl
      omega
    rwa [Function.update_of_ne isObj]
  cases Machine.step_effect result with
  | @allocate o user =>
      by_cases isObj : obj = o
      · refine .inl ?_
        rw [isObj]
        exact refCount_pos List.mem_cons_self
      · refine kept.imp (fun positive => ?_) (Or.imp_right fun isSent => ?_)
        · rw [refCount_cons]
          omega
        · show Function.update m.deallocs o 0 obj = 1
          rwa [Function.update_of_ne isObj]
  | give user =>
      refine kept.imp_left fun positive => ?_
      rw [refCount_cons, refCount_erase (sound : (thread, _) ∈ m.refs)]
      exact positive
  | retain user => exact kept.imp_left (gained _)
  | retainLoaded phase => exact kept.imp_left (gained _)
  | @release o table user more =>
      refine kept.imp_left fun positive => erased (sound o rfl) positive ?_
      rintro rfl last
      rw [← inv.drops_iff (sound o rfl), more] at last
      contradiction
  | @dealloc o table weakLocations user dropped =>
      by_cases isObj : obj = o
      · refine .inr (.inl ?_)
        simp only [Machine.enter]
        rw [isObj, Function.update_self]
        simp
      · refine kept.imp (fun positive => ?_) (Or.imp_left fun dying => ?_)
        · exact erased (sound o rfl) positive fun same => absurd same.symm isObj
        · simp only [Machine.enter]
          rwa [Function.update_of_ne isObj]
  | sendFound phase => exact kept.imp_right (Or.imp_right (sent phase))
  | sendMissing phase => exact kept.imp_right (Or.imp_right (sent phase))
  | @remove o phase =>
      by_cases isObj : obj = o
      · have isDeallocator : m.deallocator o = some thread := inv.deallocator_of_dying (by rw [phase]; exact .head [])
        obtain ⟨once, _, unsent⟩ := inv.deallocs o
        have isSent : m.deallocs o ≠ 0 := by
          rw [ne_eq, unsent thread isDeallocator, phase]
          simp
        refine .inr (.inr ?_)
        rw [isObj]
        show m.deallocs o = 1
        omega
      · refine kept.imp_right (Or.imp_left fun dying => ?_)
        simp only [Machine.enter]
        rwa [Function.update_of_ne isObj]
  | _ => exact kept

variable [DecidableEq Shard]

/-- An object that has been owned once is never lost: it has an owner, or a thread stands in its deallocation, or it has
been sent one `-dealloc` and nothing in the memory remembers it. -/
theorem auditedRun_disposes {rt : Runtime} {later : Audited Tid Obj Loc Stripe Shard} {obj : Obj}
    (before : Reachable (Audited.step layout) Audited.Owned (Audited.start rt : Audited Tid Obj Loc Stripe Shard) s)
    (owned : 0 < refCount s.ledger.refs obj) (after : Reachable (Audited.step layout) Audited.Owned s later) :
    0 < refCount later.ledger.refs obj ∨
      (∃ thread, obj ∈ (later.runtime.point thread).point.call.dying ++ (later.runtime.point thread).bodies) ∨
      (later.ledger.deallocs obj = 1 ∧ later.runtime.data.table obj = none ∧
        ∀ loc, later.runtime.data.slots loc = some obj → ∃ other,
          (later.runtime.point other).point.call.overwrites = some loc ∧
            layout.slotGuard loc ∈ (later.runtime.point other).holds layout) := by
  have inv := (AuditInv.start layout rt).run before
  obtain ⟨inv, kept⟩ : AuditInv layout later ∧ later.ledger.Kept obj := by
    refine after.invariant (fun state => AuditInv layout state ∧ state.ledger.Kept obj) ⟨inv, .inl owned⟩ ?_
    rintro state ⟨thread, op⟩ next ⟨inv, kept⟩ permitted result
    have run := (inv.ledger_run permitted result).invariant (fun m => MemInv layout.stripe m ∧ m.Kept obj)
      ⟨inv.memory, kept⟩ fun _ _ _ both allowed taken =>
        ⟨both.1.step allowed.sound taken, both.2.step both.1 allowed.sound taken⟩
    exact ⟨inv.step permitted result, run.2⟩
  cases isDeallocator : later.ledger.deallocator obj with
  | some thread =>
      have placed := ((inv.memory.places thread).2 obj).mpr isDeallocator
      rw [inv.follows.calls, inv.follows.bodies] at placed
      exact .inr (.inl ⟨thread, placed⟩)
  | none =>
      rcases Nat.eq_zero_or_pos (refCount later.ledger.refs obj) with dead | positive
      · have safe := inv.safe
        have isSent := (kept.resolve_left (by omega)).resolve_left (by simp [isDeallocator])
        exact .inr (.inr ⟨isSent, safe.removed obj dead isDeallocator, fun loc holds =>
          safe.zeroed loc obj holds dead (.inl isDeallocator)⟩)
      · exact .inl positive

end Disposal

/-- The only owner of an object releases it, and the body of its `-dealloc` returns. -/
theorem auditedRun_disposes_returned : ∃ later : Audited Nat Nat Nat Nat Nat,
    refCount later.ledger.refs 5 = 0 ∧ later.runtime.point 0 = ⟨.user .nothing, []⟩ ∧
      (0 < refCount later.ledger.refs 5 ∨
        (∃ thread, 5 ∈ (later.runtime.point thread).point.call.dying ++ (later.runtime.point thread).bodies) ∨
        (later.ledger.deallocs 5 = 1 ∧ later.runtime.data.table 5 = none ∧
          ∀ loc, later.runtime.data.slots loc = some 5 → ∃ other,
            (later.runtime.point other).point.call.overwrites = some loc ∧
              collidingLayout.slotGuard loc ∈ (later.runtime.point other).holds collidingLayout)) := by
  let labels : List (Nat × AuditOp Nat Nat Nat) :=
    [(0, .run (some (.call (.release (some 5)))))] ++ List.replicate 15 (0, .run none) ++ [(0, .run (some .return))] ++
      List.replicate 3 (0, .run none)
  have ran : ∃ s ∈ replay (Audited.step collidingLayout) Audited.Owned
      (Audited.start deallocRuntime : Audited Nat Nat Nat Nat Nat) [(0, .allocate 5)],
      refCount s.ledger.refs 5 = 1 ∧ ∃ later ∈ replay (Audited.step collidingLayout) Audited.Owned s labels,
        refCount later.ledger.refs 5 = 0 ∧ later.runtime.point 0 = ⟨.user .nothing, []⟩ :=
    ⟨_, rfl, rfl, _, rfl, rfl, rfl⟩
  obtain ⟨s, first, owned, later, second, dead, outside⟩ := ran
  exact ⟨later, dead, outside,
    auditedRun_disposes (reachable_of_replay first) (by rw [owned]; exact Nat.one_pos) (reachable_of_replay second)⟩

end O3jc
