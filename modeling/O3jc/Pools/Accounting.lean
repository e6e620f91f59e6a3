import O3jc.Pools.Draining

/-
This file keeps the books of the pools of a thread that releases and autoreleases only what it owns.
-/

namespace O3jc

open Library

section Memories

variable {Obj Loc : Type} [DecidableEq Obj] {refs : List (Owner × Obj)} {deallocator : Obj → Option Owner}

/-- The table counts the references, and every slot is registered with the object that it names. -/
structure Balanced (mem : Memory Obj Loc) (refs : List (Owner × Obj)) (deallocator : Obj → Option Owner) : Prop where
  counted : ObjectsCounted mem.table refs deallocator
  slots : ∀ loc obj, mem.slots loc = some obj → loc ∈ registered mem.table obj

variable {mem : Memory Obj Loc} (inv : Balanced mem refs deallocator)

include inv

/-- A new object has one reference. -/
theorem Balanced.allocate {obj : Obj} (owner : Owner) (fresh : refCount refs obj = 0) (idle : deallocator obj = none) :
    Balanced mem ((owner, obj) :: refs) deallocator := by
  have state := inv.counted obj
  rw [fresh, idle] at state
  exact ⟨inv.counted.allocate fresh state.eq_none_of_free idle, inv.slots⟩

/-- An owner hands its reference over. -/
theorem Balanced.give {owner : Owner} {obj : Obj} (owned : (owner, obj) ∈ refs) (other : Owner) :
    Balanced mem ((other, obj) :: refs.erase (owner, obj)) deallocator :=
  ⟨inv.counted.give owned other, inv.slots⟩

theorem Balanced.retain {obj : Option Obj} (owner : Owner)
    (known : ∀ o ∈ obj, 0 < refCount refs o ∨ (mem.table o).isSome = true) :
    Balanced { mem with table := (objcRetain mem.table obj).1 } (gain refs owner (objcRetain mem.table obj).2)
      deallocator := by
  refine ⟨?_, fun loc o holds => ?_⟩
  · cases obj with
    | none => exact inv.counted
    | some obj => exact inv.counted.gain (known obj rfl)
  · show loc ∈ registered (objcRetain mem.table obj).1 o
    rw [objcRetain_registered]
    exact inv.slots loc o holds

/-- The object of a slot has an entry, so the load retains a live object. -/
theorem Balanced.loadWeakRetained (loc : Loc) (owner : Owner) :
    Balanced (objcLoadWeakRetained mem loc).1 (gain refs owner (objcLoadWeakRetained mem loc).2) deallocator :=
  inv.retain owner fun o holds => .inr (isSome_of_registered (inv.slots loc o holds))

variable [DecidableEq Loc]

theorem Balanced.storeWeak {new : Option Obj} (loc : Loc) (live : ∀ o ∈ new, 0 < refCount refs o) :
    Balanced (objcStoreWeak mem loc new).1 refs deallocator := by
  have unregistered : ObjectsCounted (unregisterWeak mem.table loc (mem.slots loc)) refs deallocator := fun o =>
    (inv.counted o).unregister loc (mem.slots loc)
  refine ⟨unregistered.register loc fun o isNew => .inl (live o isNew), fun l o holds => ?_⟩
  simp only [objcStoreWeak] at holds ⊢
  by_cases same : l = loc
  · subst same
    rw [Function.update_self] at holds
    rw [registerWeak_registered, if_pos holds]
    exact List.mem_append_right _ (List.mem_singleton_self l)
  · rw [Function.update_of_ne same] at holds
    have kept : l ∈ registered (unregisterWeak mem.table loc (mem.slots loc)) o :=
      registered_unregister same (inv.slots l o holds)
    rw [registerWeak_registered]
    split
    · exact List.mem_append_left [loc] kept
    · exact kept

omit inv in
theorem Balanced.clear (inv : Balanced mem refs deallocator) (loc : Loc) :
    Balanced { mem with slots := Function.update mem.slots loc none } refs deallocator :=
  ⟨inv.counted, fun l o holds => inv.slots l o (ne_of_cleared holds).2⟩

theorem Balanced.initWeak {obj : Option Obj} (loc : Loc) (live : ∀ o ∈ obj, 0 < refCount refs o) :
    Balanced (objcInitWeak mem loc obj).1 refs deallocator := by
  cases obj with
  | none => exact inv.clear loc
  | some obj => exact (inv.clear loc).storeWeak loc live

theorem Balanced.destroyWeak (loc : Loc) : Balanced (objcDestroyWeak mem loc) refs deallocator := by
  refine ⟨fun o => (inv.counted o).unregister loc (mem.slots loc), fun l o holds => ?_⟩
  obtain ⟨different, held⟩ := ne_of_cleared holds
  exact registered_unregister different (inv.slots l o held)

end Memories

/-- The object that a frame deallocates. -/
def Frame.dying {Obj : Type} : Frame Obj → Option Obj
  | .sending obj => some obj
  | .body obj => some obj
  | .drain _ _ => none

section Frames

variable {Obj Loc : Type} [DecidableEq Obj]

def PoolMachine.dying (m : PoolMachine Obj Loc) : List Obj := m.frames.filterMap Frame.dying

omit [DecidableEq Obj] in
theorem PoolMachine.dying_of_top {m : PoolMachine Obj Loc} {frame : Frame Obj} {frames : List (Frame Obj)}
    (top : m.frames = frame :: frames) : m.dying = frame.dying.toList ++ frames.filterMap Frame.dying := by
  rw [PoolMachine.dying, top]
  cases frame <;> rfl

/-- Nobody owns an object that is being deallocated. -/
def deallocatorOf (dying : List Obj) (obj : Obj) : Option Owner := if obj ∈ dying then some .nobody else none

theorem deallocatorOf_cons (obj : Obj) (dying : List Obj) :
    deallocatorOf (obj :: dying) = Function.update (deallocatorOf dying) obj (some .nobody) := by
  funext o
  by_cases same : o = obj
  · simp [deallocatorOf, same]
  · simp [deallocatorOf, same]

theorem deallocatorOf_tail {obj : Obj} {dying : List Obj} (absent : obj ∉ dying) :
    deallocatorOf dying = Function.update (deallocatorOf (obj :: dying)) obj none := by
  funext o
  by_cases same : o = obj
  · subst same
    simp [deallocatorOf, absent]
  · simp [deallocatorOf, same]

omit [DecidableEq Obj] in
theorem zeroed_slots [DecidableEq Loc] (locs : List Loc) (slots : Loc → Option Obj) (loc : Loc) :
    locs.foldl (fun slots loc => Function.update slots loc none) slots loc =
      if loc ∈ locs then none else slots loc := by
  induction locs generalizing slots with
  | nil => rfl
  | cons first rest ih =>
      rw [List.foldl_cons, ih]
      by_cases later : loc ∈ rest
      · simp [later]
      · by_cases isFirst : loc = first
        · subst isFirst
          simp
        · simp [later, isFirst]

variable [DecidableEq Loc] {m : PoolMachine Obj Loc} {refs : List (Owner × Obj)}

/-- A release gives up one reference. The release of the last one zeroes the slots and makes the object a dying one. -/
theorem Balanced.beginRelease {owner : Owner} {obj : Obj} (inv : Balanced m.toMemory refs (deallocatorOf m.dying))
    (nodup : m.dying.Nodup) (owned : (owner, obj) ∈ refs) (isRefs : m.refs = refs.erase (owner, obj)) :
    Balanced (m.beginRelease obj).toMemory (m.beginRelease obj).refs (deallocatorOf (m.beginRelease obj).dying) ∧
      (m.beginRelease obj).dying.Nodup := by
  rw [(PoolMachine.beginRelease_kept obj).2.2.1, isRefs]
  unfold PoolMachine.beginRelease
  split
  · rename_i table kept
    obtain ⟨counted, lists, _⟩ := inv.counted.release owned kept
    refine ⟨⟨counted, fun loc o holds => ?_⟩, nodup⟩
    rw [lists]
    exact inv.slots loc o holds
  · rename_i table locs dropped
    obtain ⟨rfl, _, counted, _, others⟩ := inv.counted.dealloc owned dropped .nobody
    have alive : obj ∉ m.dying := by
      intro isDying
      have state := inv.counted obj
      rw [deallocatorOf, if_pos isDying] at state
      have := state.count_eq_zero
      have := refCount_pos owned
      omega
    refine ⟨⟨?_, fun loc o holds => ?_⟩, List.nodup_cons.mpr ⟨alive, nodup⟩⟩
    · show ObjectsCounted table _ (deallocatorOf (obj :: m.dying))
      rw [deallocatorOf_cons]
      exact counted
    · simp only [doDealloc, zeroed_slots] at holds ⊢
      split at holds
      · contradiction
      · rename_i unlisted
        have listed := inv.slots loc o holds
        have different : o ≠ obj := by
          rintro rfl
          exact unlisted listed
        rwa [registered, others o different]

omit [DecidableEq Loc] in
/-- The end of a deallocation removes the entry of an object without references. -/
theorem Balanced.finishRelease {obj : Obj} {frames : List (Frame Obj)}
    (inv : Balanced m.toMemory refs (deallocatorOf (obj :: frames.filterMap Frame.dying)))
    (absent : obj ∉ frames.filterMap Frame.dying) :
    Balanced (m.finishRelease obj frames).toMemory refs (deallocatorOf (m.finishRelease obj frames).dying) := by
  have state := inv.counted obj
  rw [deallocatorOf, if_pos (List.mem_cons_self ..)] at state
  refine ⟨?_, fun loc o holds => ?_⟩
  · show ObjectsCounted (removeEntry m.table obj) refs (deallocatorOf (frames.filterMap Frame.dying))
    rw [deallocatorOf_tail absent]
    exact inv.counted.remove (state.count_eq_zero ▸ .free)
  · have listed := inv.slots loc o holds
    have different : o ≠ obj := by
      rintro rfl
      rw [state.registered_eq_nil] at listed
      contradiction
    show loc ∈ registered (removeEntry m.table obj) o
    rwa [registered, removeEntry_other different]

end Frames

/-- What the calls of a thread say about its autoreleases and its references. -/
structure History (Obj : Type) where
  log : ScopedLog Obj
  /-- Since the allocation, one and the retains and loads, less the releases by code and by pops. -/
  counts : Obj → Nat
  /-- The objects that were autoreleased without a pool. -/
  leaked : List Obj

section Histories

variable {Obj Loc : Type} [DecidableEq Obj]

def History.start : History Obj := ⟨.empty, fun _ => 0, []⟩

/-- The counts after a call that retained the object, if any. -/
def gainCount (counts : Obj → Nat) (obj : Option Obj) : Obj → Nat :=
  match obj with
  | none => counts
  | some obj => Function.update counts obj (counts obj + 1)

def observeCounts (counts : Obj → Nat) (call : PoolOp Obj Loc × PoolAnswer Obj) : Obj → Nat :=
  match call with
  | (.allocate obj, .done) => Function.update counts obj 1
  | (.retain _, .id obj) => gainCount counts obj
  | (.loadWeakRetained _, .id obj) => gainCount counts obj
  | (.loadWeak _, .id obj) => gainCount counts obj
  | (.release (some obj), .done) => Function.update counts obj (counts obj - 1)
  | (.next, .released obj) => Function.update counts obj (counts obj - 1)
  | _ => counts

/-- The object that a call autoreleased. -/
def autoreleased (call : PoolOp Obj Loc × PoolAnswer Obj) : Option Obj :=
  match call with
  | (.autorelease _, .id obj) => obj
  | (.loadWeak _, .id obj) => obj
  | _ => none

def History.observe (h : History Obj) (call : PoolOp Obj Loc × PoolAnswer Obj) : History Obj where
  log := observeLog h.log call
  counts := observeCounts h.counts call
  leaked := if h.log.depth = 0 then h.leaked ++ (autoreleased call).toList else h.leaked

end Histories

section Books

variable {Obj : Type} [DecidableEq Obj] {refs : List (Owner × Obj)} {pooled leaked : List Obj} {counts : Obj → Nat}
  {obj : Obj}

/-- The references of the pools are the objects in them, and nobody owns what was leaked. -/
structure Booked (refs : List (Owner × Obj)) (pooled leaked : List Obj) (counts : Obj → Nat) : Prop where
  pooled : ∀ obj, refs.count (.pool, obj) = pooled.count obj
  leaked : ∀ obj, refs.count (.nobody, obj) = leaked.count obj
  counts : ∀ obj, refCount refs obj = counts obj

variable (inv : Booked refs pooled leaked counts)

include inv

theorem Booked.perm {pooled' : List Obj} (same : pooled.Perm pooled') : Booked refs pooled' leaked counts :=
  ⟨fun o => (inv.pooled o).trans (same.count_eq o), inv.leaked, inv.counts⟩

theorem refCount_add (owner : Owner) (obj o : Obj) :
    refCount ((owner, obj) :: refs) o = Function.update counts obj (counts obj + 1) o := by
  rw [refCount_cons, inv.counts]
  by_cases same : o = obj
  · rw [same, Function.update_self, if_pos rfl]
  · rw [Function.update_of_ne same, if_neg (Ne.symm same)]
    rfl

theorem Booked.addCode (obj : Obj) :
    Booked ((.code, obj) :: refs) pooled leaked (Function.update counts obj (counts obj + 1)) :=
  ⟨fun o => by simp [inv.pooled], fun o => by simp [inv.leaked], refCount_add inv .code obj⟩

theorem Booked.addPool (obj : Obj) :
    Booked ((.pool, obj) :: refs) (pooled ++ [obj]) leaked (Function.update counts obj (counts obj + 1)) :=
  ⟨fun o => by simp [List.count_cons, inv.pooled], fun o => by simp [inv.leaked], refCount_add inv .pool obj⟩

theorem Booked.addNobody (obj : Obj) :
    Booked ((.nobody, obj) :: refs) pooled (leaked ++ [obj]) (Function.update counts obj (counts obj + 1)) :=
  ⟨fun o => by simp [inv.pooled], fun o => by simp [List.count_cons, inv.leaked], refCount_add inv .nobody obj⟩

theorem refCount_drop {owner : Owner} (owned : (owner, obj) ∈ refs) (o : Obj) :
    refCount (refs.erase (owner, obj)) o = Function.update counts obj (counts obj - 1) o := by
  have less := refCount_erase owned o
  rw [inv.counts] at less
  by_cases same : o = obj
  · subst same
    rw [if_pos rfl] at less
    rw [Function.update_self]
    omega
  · rw [if_neg (Ne.symm same)] at less
    rw [Function.update_of_ne same]
    omega

theorem Booked.dropCode (owned : (.code, obj) ∈ refs) :
    Booked (refs.erase (.code, obj)) pooled leaked (Function.update counts obj (counts obj - 1)) :=
  ⟨fun o => by simp [inv.pooled], fun o => by simp [inv.leaked], refCount_drop inv owned⟩

/-- An object in the pools is owned by them. -/
theorem Booked.mem_of_pooled (member : obj ∈ pooled) : (.pool, obj) ∈ refs := by
  rw [← List.count_pos_iff, inv.pooled]
  exact List.count_pos_iff.mpr member

theorem Booked.dropPool {rest : List Obj} (isPooled : pooled.Perm (obj :: rest)) :
    Booked (refs.erase (.pool, obj)) rest leaked (Function.update counts obj (counts obj - 1)) := by
  have owned := inv.mem_of_pooled (isPooled.mem_iff.mpr List.mem_cons_self)
  refine ⟨fun o => ?_, fun o => by simp [inv.leaked], refCount_drop inv owned⟩
  rw [List.count_erase, inv.pooled, isPooled.count_eq, List.count_cons]
  by_cases same : obj = o
  · simp [same]
  · simp [same]

/-- What was leaked stays counted. -/
theorem Booked.leaked_le (o : Obj) : leaked.count o ≤ counts o := by
  rw [← inv.leaked, ← inv.counts, refCount]
  exact List.count_le_count_map (f := Prod.snd)

end Books

section Ledgers

variable {Obj Loc : Type} [DecidableEq Obj] [DecidableEq Loc] (m : PoolMachine Obj Loc)

/-- The objects that pools and running pops hold. -/
def PoolMachine.pooled : List Obj := m.drains.flatMap Prod.snd ++ m.stack.pools.flatten

/-- References are released and autoreleased only by the code that owns them, other calls name live objects, and the
bodies of `-dealloc` do not use the pools. -/
def PoolMachine.Owned (op : PoolOp Obj Loc) : Prop :=
  match op with
  | .allocate obj => refCount m.refs obj = 0 ∧ obj ∉ m.dying
  | .retain obj => ∀ o ∈ obj, 0 < refCount m.refs o
  | .release obj => ∀ o ∈ obj, (.code, o) ∈ m.refs
  | .initWeak _ obj => ∀ o ∈ obj, 0 < refCount m.refs o
  | .storeWeak _ new => ∀ o ∈ new, 0 < refCount m.refs o
  | .loadWeak _ => m.frames = []
  | .autorelease obj => m.frames = [] ∧ ∀ o ∈ obj, (.code, o) ∈ m.refs
  | .push => m.frames = []
  | .pop token => m.frames = [] ∧ token < m.stack.pools.length
  | _ => True

/-- The books of the thread agree with its calls. -/
structure PoolLedger (h : History Obj) : Prop where
  running : m.panicked = false
  phase : ∃ lower owed, PoolPhase lower m.stack m.drains owed ∧ ScopedLog.ofStack lower = h.log
  balanced : Balanced m.toMemory m.refs (deallocatorOf m.dying)
  nodup : m.dying.Nodup
  booked : Booked m.refs m.pooled h.leaked h.counts

variable {m} {h : History Obj} {op : PoolOp Obj Loc} {next : PoolMachine Obj Loc} {answer : PoolAnswer Obj}

omit [DecidableEq Loc] in
theorem PoolLedger.start : PoolLedger (PoolMachine.start : PoolMachine Obj Loc) .start where
  running := rfl
  phase := ⟨[], [], .idle, rfl⟩
  balanced := ⟨fun _ => .free, fun _ _ holds => absurd holds (by simp [PoolMachine.start])⟩
  nodup := List.nodup_nil
  booked := ⟨fun _ => rfl, fun _ => rfl, fun _ => rfl⟩

omit [DecidableEq Obj] [DecidableEq Loc] in
theorem PoolPhase.unborrowed {lower : List (List Obj)} {owed : List Obj}
    (phase : PoolPhase lower m.stack m.drains owed) (bottom : m.frames = []) : m.stack.borrowed = false := by
  rw [PoolMachine.drains, bottom] at phase
  generalize m.stack = stack at phase
  cases phase
  rfl

omit [DecidableEq Loc] in
theorem PoolMachine.Owned.apart [DecidableEq Loc] {lower : List (List Obj)} {owed : List Obj} (owned : m.Owned op)
    (phase : PoolPhase lower m.stack m.drains owed) : m.ValidToken op ∧ m.PoolsApart op := by
  have atBottom : m.frames = [] → m.PoolsApart op := by
    intro bottom borrowed
    rw [phase.unborrowed bottom] at borrowed
    contradiction
  cases op with
  | loadWeak loc => exact ⟨trivial, atBottom owned⟩
  | autorelease obj => exact ⟨trivial, atBottom owned.1⟩
  | push => exact ⟨trivial, atBottom owned⟩
  | pop token => exact ⟨owned.2, atBottom owned.1⟩
  | _ => exact ⟨trivial, fun _ => id⟩

omit [DecidableEq Obj] in
theorem flatten_modifyLast {pools : List (List Obj)} (some : pools ≠ []) (obj : Obj) :
    (pools.modifyLast (· ++ [obj])).flatten = pools.flatten ++ [obj] := by
  rcases List.eq_nil_or_concat pools with rfl | ⟨before, pool, rfl⟩
  · contradiction
  · rw [List.concat_eq_append, List.modifyLast_concat]
    simp

/-- An autoreleased object goes to the current pool or is leaked. -/
theorem Booked.receive {refs : List (Owner × Obj)} {stack : PoolStack Obj} {held leaked : List Obj} {counts : Obj → Nat}
    (inv : Booked refs (held ++ stack.pools.flatten) leaked counts) {log : ScopedLog Obj}
    (isLog : ScopedLog.ofStack stack.pools = log) (obj : Obj) :
    Booked ((stack.owner, obj) :: refs) (held ++ (stack.received (some obj)).pools.flatten)
      (if log.depth = 0 then leaked ++ [obj] else leaked) (gainCount counts (some obj)) := by
  subst isLog
  simp only [PoolStack.received, PoolStack.owner, ScopedLog.ofStack]
  cases pools : stack.pools with
  | nil =>
      rw [pools] at inv
      exact inv.addNobody obj
  | cons first rest =>
      rw [pools] at inv
      rw [flatten_modifyLast (List.cons_ne_nil first rest), ← List.append_assoc]
      exact inv.addPool obj

/-- A call that an owner makes keeps the memory balanced. -/
theorem PoolLedger.step_balanced (inv : PoolLedger m h) (owned : m.Owned op) (effect : m.Effect op next answer) :
    Balanced next.toMemory next.refs (deallocatorOf next.dying) ∧ next.dying.Nodup := by
  have balanced := inv.balanced
  have nodup := inv.nodup
  cases effect with
  | allocate =>
      refine ⟨balanced.allocate .code owned.1 ?_, nodup⟩
      rw [deallocatorOf, if_neg owned.2]
  | retain => exact ⟨balanced.retain .code fun o isObj => .inl (owned o isObj), nodup⟩
  | @release obj =>
      exact Balanced.beginRelease (m := { m with refs := m.refs.erase (.code, obj) }) balanced nodup (owned obj rfl) rfl
  | @initWeak loc obj => exact ⟨balanced.initWeak loc owned, nodup⟩
  | @storeWeak loc new => exact ⟨balanced.storeWeak loc owned, nodup⟩
  | @loadWeakRetained loc => exact ⟨balanced.loadWeakRetained loc .code, nodup⟩
  | @destroyWeak loc => exact ⟨balanced.destroyWeak loc, nodup⟩
  | @loadWeak loc stack mem result loaded =>
      have loads := balanced.loadWeakRetained loc m.stack.owner
      rw [← (objcLoadWeak_spec loaded).1] at loads
      exact ⟨loads, nodup⟩
  | @autorelease obj result stack added =>
      cases obj with
      | none => exact ⟨balanced, nodup⟩
      | some obj => exact ⟨balanced.give (owned.2 obj rfl) m.stack.owner, nodup⟩
  | @drain target obj rest frames top =>
      have member : obj ∈ m.pooled := by
        rw [PoolMachine.pooled, PoolMachine.drains_of_drain top]
        simp
      rw [PoolMachine.dying_of_top top] at balanced nodup
      exact Balanced.beginRelease (m := { m with
        frames := .drain target rest :: frames
        refs := m.refs.erase (.pool, obj) }) balanced nodup (inv.booked.mem_of_pooled member) rfl
  | take top | finish top | sendFound top =>
      rw [PoolMachine.dying_of_top top] at balanced nodup
      exact ⟨balanced, nodup⟩
  | sendMissing top | returnDealloc top =>
      rw [PoolMachine.dying_of_top top] at balanced nodup
      obtain ⟨absent, nodup⟩ := List.nodup_cons.mp nodup
      exact ⟨balanced.finishRelease absent, nodup⟩
  | _ => exact ⟨balanced, nodup⟩

omit [DecidableEq Loc] in
theorem History.leaked_of_silent {call : PoolOp Obj Loc × PoolAnswer Obj} (silent : autoreleased call = none) :
    (h.observe call).leaked = h.leaked := by
  rw [History.observe, silent]
  split
  · exact List.append_nil h.leaked
  · rfl

omit [DecidableEq Loc] in
theorem Booked.gain {refs : List (Owner × Obj)} {pooled leaked : List Obj} {counts : Obj → Nat}
    (inv : Booked refs pooled leaked counts) (result : Option Obj) :
    Booked (O3jc.gain refs .code result) pooled leaked (gainCount counts result) := by
  cases result with
  | none => exact inv
  | some obj => exact inv.addCode obj

omit [DecidableEq Loc] in
/-- While no pop runs the objects of the pools are the pending ones. -/
theorem PoolLedger.of_unborrowed [DecidableEq Loc] (inv : PoolLedger m h) (unborrowed : m.stack.borrowed = false) :
    m.drains = [] ∧ ScopedLog.ofStack m.stack.pools = h.log := by
  obtain ⟨lower, owed, phase, isLog⟩ := inv.phase
  obtain ⟨isStack, noDrains, _⟩ := phase.of_unborrowed unborrowed
  exact ⟨noDrains, by rwa [isStack]⟩

omit [DecidableEq Obj] in
/-- The loop of a pop takes the last pool off. -/
theorem popPool_some {stack stack' : PoolStack Obj} {target : Nat} {remaining : List Obj}
    (taken : stack.popPool target = (stack', some remaining)) :
    ∃ pool, stack.pools = stack'.pools ++ [pool] ∧ remaining = pool.reverse := by
  unfold PoolStack.popPool at taken
  split at taken
  · obtain ⟨rfl, isPool⟩ := Prod.mk.inj taken
    obtain ⟨pool, last, rfl⟩ := Option.map_eq_some_iff.mp isPool
    obtain ⟨before, isBefore⟩ := List.getLast?_eq_some_iff.mp last
    exact ⟨pool, by rw [isBefore, List.dropLast_concat], rfl⟩
  · exact absurd (Prod.mk.inj taken).2 (by simp)

omit [DecidableEq Obj] in
/-- The loop ends with the pools as they are. -/
theorem popPool_none {stack stack' : PoolStack Obj} {target : Nat} (ended : stack.popPool target = (stack', none)) :
    stack'.pools = stack.pools := by
  unfold PoolStack.popPool at ended
  split at ended
  · rename_i above
    obtain ⟨_, noPool⟩ := Prod.mk.inj ended
    rw [Option.map_eq_none_iff, List.getLast?_eq_none_iff] at noPool
    rw [noPool] at above
    contradiction
  · obtain ⟨rfl, _⟩ := Prod.mk.inj ended
    rfl

/-- A call that an owner makes is booked. -/
theorem PoolLedger.step_booked (inv : PoolLedger m h) (owned : m.Owned op) (effect : m.Effect op next answer)
    (running : next.panicked = false) :
    Booked next.refs next.pooled (h.observe (op, answer)).leaked (h.observe (op, answer)).counts := by
  have booked := inv.booked
  cases effect with
  | allocate =>
      rename_i obj
      rw [History.leaked_of_silent rfl]
      have fresh : h.counts obj = 0 := (booked.counts obj).symm.trans owned.1
      have added := booked.addCode obj
      rwa [fresh] at added
  | retain | loadWeakRetained =>
      rw [History.leaked_of_silent rfl]
      exact booked.gain _
  | releaseNull | initWeak | storeWeak | destroyWeak =>
      rw [History.leaked_of_silent rfl]
      exact booked
  | @release obj =>
      obtain ⟨sameStack, _, sameRefs, sameDrains⟩ := PoolMachine.beginRelease_kept
        (m := { m with refs := m.refs.erase (.code, obj) }) obj
      rw [History.leaked_of_silent rfl, sameRefs, PoolMachine.pooled, sameStack, sameDrains]
      exact booked.dropCode (owned obj rfl)
  | @loadWeak loc stack mem result loaded =>
      obtain ⟨_, rfl, unborrowed⟩ := objcLoadWeak_spec loaded
      cases result with
      | none =>
          rw [History.leaked_of_silent rfl]
          exact booked
      | some obj => exact booked.receive (inv.of_unborrowed (unborrowed rfl)).2 obj
  | @autorelease obj result stack added =>
      obtain ⟨rfl, rfl, unborrowed⟩ := objcAutorelease_spec added
      cases result with
      | none =>
          rw [History.leaked_of_silent rfl]
          exact booked
      | some obj =>
          have mine := owned.2 obj rfl
          have handed := (booked.dropCode mine).receive (inv.of_unborrowed (unborrowed rfl)).2 obj
          have positive : 0 < h.counts obj := booked.counts obj ▸ refCount_pos mine
          have restored : gainCount (Function.update h.counts obj (h.counts obj - 1)) (some obj) = h.counts := by
            rw [gainCount, Function.update_self, Function.update_idem, Nat.sub_add_cancel positive,
              Function.update_eq_self]
          rw [restored] at handed
          exact handed
  | push pushed =>
      obtain ⟨_, _, rfl⟩ := objcAutoreleasePoolPush_spec pushed
      rw [History.leaked_of_silent rfl]
      refine booked.perm (List.Perm.of_eq ?_)
      simp [PoolMachine.pooled, PoolMachine.drains]
  | pop begun =>
      obtain ⟨_, rfl⟩ := beginPop_spec begun
      rw [History.leaked_of_silent rfl]
      exact booked
  | loadWeakPanics | autoreleasePanics | pushPanics | popPanics => contradiction
  | @drain target obj rest frames top =>
      obtain ⟨sameStack, _, sameRefs, sameDrains⟩ := PoolMachine.beginRelease_kept (m := { m with
        frames := .drain target rest :: frames
        refs := m.refs.erase (.pool, obj) }) obj
      rw [History.leaked_of_silent rfl, sameRefs, PoolMachine.pooled, sameStack, sameDrains]
      refine booked.dropPool (List.Perm.of_eq ?_)
      rw [PoolMachine.pooled, PoolMachine.drains_of_drain top]
      rfl
  | @take target remaining frames stack top taken =>
      rw [History.leaked_of_silent rfl]
      obtain ⟨pool, isPool, rfl⟩ := popPool_some taken
      refine booked.perm (List.perm_iff_count.mpr fun o => ?_)
      rw [PoolMachine.pooled, PoolMachine.drains_of_drain top, PoolMachine.pooled, PoolMachine.drains_of_drain rfl]
      simp only [isPool, List.flatMap_cons, List.flatten_concat, List.nil_append, List.count_append, List.count_reverse]
      omega
  | @finish target frames stack top ended =>
      rw [History.leaked_of_silent rfl, PoolMachine.pooled, popPool_none ended]
      rw [PoolMachine.pooled, PoolMachine.drains_of_drain top] at booked
      exact booked
  | sendFound top | sendMissing top | returnDealloc top =>
      rw [History.leaked_of_silent rfl]
      rw [PoolMachine.pooled, PoolMachine.drains_of_other top rfl] at booked
      exact booked

/-- A call that an owner makes keeps the books. -/
theorem PoolLedger.step (inv : PoolLedger m h) (owned : m.Owned op) (result : m.step op = some (next, answer)) :
    PoolLedger next (h.observe (op, answer)) := by
  obtain ⟨lower, owed, phase, isLog⟩ := inv.phase
  obtain ⟨valid, apart⟩ := owned.apart phase
  obtain ⟨lower', owed', still, logged, _⟩ := phase.step valid apart result
  have running : next.panicked = false := by
    rw [← Bool.not_eq_true, PoolMachine.panics_iff result]
    exact fun both => apart both.1 both.2
  obtain ⟨_, effect⟩ := PoolMachine.step_effect result
  obtain ⟨balanced, nodup⟩ := inv.step_balanced owned effect
  exact ⟨running, ⟨lower', owed', still, by rw [logged, isLog]; rfl⟩, balanced, nodup,
    inv.step_booked owned effect running⟩

/-- What the calls of a thread say about its pools and its objects is true of its state. -/
structure PoolMachine.Accounts (m : PoolMachine Obj Loc) (h : History Obj) : Prop where
  running : m.panicked = false
  log : m.stack.borrowed = false → ScopedLog.ofStack m.stack.pools = h.log
  /-- A pop releases each pending object of its pools once, in the opposite order of the autoreleases. -/
  pops : ∀ token begun answer, m.Owned (.pop token) → m.step (.pop token) = some (begun, answer) →
    m.PopsTo PoolMachine.Owned token begun ∧ (m.stack.pools.drop token).flatten.reverse = h.log.pending token
  /-- The retain count of a live object is what the calls say. -/
  counts : ∀ obj, 0 < h.counts obj → objcRetainCount m.table (some obj) = h.counts obj
  /-- Every reference that was autoreleased without a pool is still counted. -/
  leaks : ∀ obj, h.leaked.count obj ≤ h.counts obj

theorem PoolLedger.accounts (inv : PoolLedger m h) : m.Accounts h := by
  obtain ⟨lower, owed, phase, isLog⟩ := inv.phase
  refine ⟨inv.running, fun unborrowed => (inv.of_unborrowed unborrowed).2, fun token begun answer owned result =>
    ⟨?_, ?_⟩, fun obj live => ?_, inv.booked.leaked_le⟩
  · refine phase.popsTo (fun _ _ _ _ phase owned => owned.apart phase) (fun state op internal => ?_) owned result
    cases op with
    | next => trivial
    | sendDealloc found => trivial
    | returnDealloc => trivial
    | _ => contradiction
  · have pending := ScopedLog.ofStack_pending (m.stack.pools.take token) (m.stack.pools.drop token)
    rw [List.take_append_drop, List.length_take, Nat.min_eq_left (Nat.le_of_lt owned.2),
      (inv.of_unborrowed (phase.unborrowed owned.1)).2] at pending
    exact pending.symm
  · have state := inv.balanced.counted obj
    rw [inv.booked.counts obj] at state
    rw [state.deallocator_eq_none live] at state
    exact state.retainCount live

/-- At every point of every run of a thread that releases and autoreleases only what it owns. -/
theorem poolRun_accounts {calls : List (PoolOp Obj Loc × PoolAnswer Obj)}
    (run : Traced PoolMachine.step PoolMachine.Owned .start calls m) :
    m.Accounts (calls.foldl History.observe .start) :=
  (run.observed PoolLedger (fun _ _ _ _ _ inv owned result => inv.step owned result) .start).accounts

variable (m op)

instance PoolMachine.decidableOwned : Decidable (m.Owned op) :=
  match op with
  | .allocate obj => inferInstanceAs (Decidable (refCount m.refs obj = 0 ∧ obj ∉ m.dying))
  | .retain obj => inferInstanceAs (Decidable (∀ o ∈ obj, 0 < refCount m.refs o))
  | .release obj => inferInstanceAs (Decidable (∀ o ∈ obj, (.code, o) ∈ m.refs))
  | .initWeak _ obj => inferInstanceAs (Decidable (∀ o ∈ obj, 0 < refCount m.refs o))
  | .storeWeak _ new => inferInstanceAs (Decidable (∀ o ∈ new, 0 < refCount m.refs o))
  | .loadWeak _ => inferInstanceAs (Decidable (m.frames = []))
  | .autorelease obj => inferInstanceAs (Decidable (m.frames = [] ∧ ∀ o ∈ obj, (.code, o) ∈ m.refs))
  | .push => inferInstanceAs (Decidable (m.frames = []))
  | .pop token => inferInstanceAs (Decidable (m.frames = [] ∧ token < m.stack.pools.length))
  | .loadWeakRetained _ => inferInstanceAs (Decidable True)
  | .destroyWeak _ => inferInstanceAs (Decidable True)
  | .next => inferInstanceAs (Decidable True)
  | .sendDealloc _ => inferInstanceAs (Decidable True)
  | .returnDealloc => inferInstanceAs (Decidable True)

end Ledgers

/-- An inner pool is left open, a weak load without a pool leaks a reference, and the pop of the outer pool begins. -/
theorem poolRun_accounts_nested : ∃ (m : PoolMachine Nat Nat) (h : History Nat), m.Accounts h ∧
    h.log.pending 0 = [5, 6, 5] ∧ h.leaked = [5] ∧ objcRetainCount m.table (some 5) = 3 ∧
      ∃ begun, m.step (.pop 0) = some (begun, .done) := by
  have ran : ∃ ended ∈ replayTraced PoolMachine.step PoolMachine.Owned (PoolMachine.start : PoolMachine Nat Nat)
      [.allocate 5, .allocate 6, .initWeak 1 (some 5), .loadWeak 1, .push, .autorelease (some 5), .push,
        .autorelease (some 6), .loadWeak 1],
      (ended.2.foldl History.observe .start).log.pending 0 = [5, 6, 5] ∧
        (ended.2.foldl History.observe .start).leaked = [5] ∧ objcRetainCount ended.1.table (some 5) = 3 ∧
          ∃ begun, ended.1.step (.pop 0) = some (begun, .done) := ⟨_, rfl, rfl, rfl, rfl, _, rfl⟩
  obtain ⟨⟨m, calls⟩, replayed, pending, leaked, count, begins⟩ := ran
  exact ⟨m, _, poolRun_accounts (traced_of_replay replayed), pending, leaked, count, begins⟩

end O3jc
