import O3jc.Memory.Threads

/-
This file proves that a thread which takes the steps of its call without interruption computes the function of
`retain_release.rs`.
-/

namespace O3jc

section Alone

variable {Tid Obj Loc Stripe : Type} [DecidableEq Tid] [DecidableEq Obj] [DecidableEq Loc] [DecidableEq Stripe]
  (stripe : Loc → Stripe)

/-- A thread makes a call and takes this many steps of it by itself. -/
def Machine.alone (m : Machine Tid Obj Loc Stripe) (thread : Tid) (op : MemOp Tid Obj Loc) (count : Nat) :
    Option (Machine Tid Obj Loc Stripe) :=
  ((thread, op) :: List.replicate count (thread, .next)).foldlM (Machine.step stripe) m

/-- The machine with another memory, after a call that has reached this position. -/
def Machine.completed (m : Machine Tid Obj Loc Stripe) (thread : Tid) (mem : Memory Obj Loc) (call : Call Obj Loc) :
    Machine Tid Obj Loc Stripe :=
  { m with toMemory := mem, call := Function.update m.call thread call }

variable {stripe} {m : Machine Tid Obj Loc Stripe} {thread : Tid} (user : m.call thread = .user)

include user

theorem Machine.retain_alone (obj : Option Obj) :
    m.alone stripe thread (.retain obj) 0 =
      some ({ m with refs := gain m.refs thread (objcRetain m.table obj).2 }.completed thread
        { m.toMemory with table := (objcRetain m.table obj).1 } (.retained (objcRetain m.table obj).2)) := by
  simp [Machine.alone, Machine.step, user, Machine.invoke, Machine.enter, Machine.completed]

theorem Machine.storeWeak_alone (loc : Loc) (new : Option Obj) (unlocked : m.locks (stripe loc) = none) :
    m.alone stripe thread (.storeWeak loc new) 3 = some (m.completed thread (objcStoreWeak m.toMemory loc new).1
      (.stored loc (objcStoreWeak m.toMemory loc new).2)) := by
  simp [Machine.alone, Machine.step, user, Machine.invoke, Machine.advance, Machine.enter, Machine.completed,
    Machine.lock, Machine.unlock, unlocked, objcStoreWeak, List.replicate]

theorem Machine.initWeak_alone (loc : Loc) (obj : Option Obj) (unlocked : m.locks (stripe loc) = none) :
    m.alone stripe thread (.initWeak loc obj) (if obj.isSome then 3 else 0) =
      some (m.completed thread (objcInitWeak m.toMemory loc obj).1
        (.stored loc (objcInitWeak m.toMemory loc obj).2)) := by
  cases obj with
  | none => simp [Machine.alone, Machine.step, user, Machine.invoke, Machine.enter, Machine.completed, objcInitWeak]
  | some obj =>
      simp [Machine.alone, Machine.step, user, Machine.invoke, Machine.advance, Machine.enter, Machine.completed,
        Machine.lock, Machine.unlock, unlocked, objcInitWeak, objcStoreWeak, List.replicate]

theorem Machine.loadWeakRetained_alone (loc : Loc) (unlocked : m.locks (stripe loc) = none) :
    m.alone stripe thread (.loadWeakRetained loc) (if (m.slots loc).isSome then 1 else 0) =
      some ({ m with refs := gain m.refs thread (objcLoadWeakRetained m.toMemory loc).2 }.completed thread
        (objcLoadWeakRetained m.toMemory loc).1 (.loaded loc (objcLoadWeakRetained m.toMemory loc).2)) := by
  cases holds : m.slots loc with
  | none =>
      simp [Machine.alone, Machine.step, user, Machine.invoke, Machine.enter, Machine.completed, unlocked, holds,
        objcLoadWeakRetained, objcRetain, gain]
  | some obj =>
      simp [Machine.alone, Machine.step, user, Machine.invoke, Machine.advance, Machine.completed, Machine.lock,
        Machine.unlock, unlocked, holds, objcLoadWeakRetained]

theorem Machine.destroyWeak_alone (loc : Loc) (unlocked : m.locks (stripe loc) = none) :
    m.alone stripe thread (.destroyWeak loc) 2 =
      some (m.completed thread (objcDestroyWeak m.toMemory loc) (.destroyed loc)) := by
  simp [Machine.alone, Machine.step, user, Machine.invoke, Machine.advance, Machine.enter, Machine.completed,
    Machine.lock, Machine.unlock, unlocked, objcDestroyWeak, List.replicate]

/-- What a call that deallocates nothing leaves behind by the function of the source. -/
def Machine.computed (m : Machine Tid Obj Loc Stripe) (thread : Tid) :
    MemOp Tid Obj Loc → Option (Machine Tid Obj Loc Stripe)
  | .retain obj =>
      let (table, result) := objcRetain m.table obj
      some ({ m with refs := gain m.refs thread result }.completed thread { m.toMemory with table } (.retained result))
  | .initWeak loc obj =>
      let (mem, result) := objcInitWeak m.toMemory loc obj
      some (m.completed thread mem (.stored loc result))
  | .storeWeak loc new =>
      let (mem, result) := objcStoreWeak m.toMemory loc new
      some (m.completed thread mem (.stored loc result))
  | .loadWeakRetained loc =>
      let (mem, result) := objcLoadWeakRetained m.toMemory loc
      some ({ m with refs := gain m.refs thread result }.completed thread mem (.loaded loc result))
  | .destroyWeak loc => some (m.completed thread (objcDestroyWeak m.toMemory loc) (.destroyed loc))
  | _ => none

/-- A thread that finds every lock free and is not interrupted computes the function of the source. -/
theorem Machine.alone_computed {op : MemOp Tid Obj Loc} {after : Machine Tid Obj Loc Stripe}
    (unlocked : ∀ s, m.locks s = none) (computed : m.computed thread op = some after) :
    ∃ count, m.alone stripe thread op count = some after := by
  cases op with
  | retain obj => exact ⟨_, (Machine.retain_alone user obj).trans computed⟩
  | initWeak loc obj => exact ⟨_, (Machine.initWeak_alone user loc obj (unlocked _)).trans computed⟩
  | storeWeak loc new => exact ⟨_, (Machine.storeWeak_alone user loc new (unlocked _)).trans computed⟩
  | loadWeakRetained loc => exact ⟨_, (Machine.loadWeakRetained_alone user loc (unlocked _)).trans computed⟩
  | destroyWeak loc => exact ⟨_, (Machine.destroyWeak_alone user loc (unlocked _)).trans computed⟩
  | _ => contradiction

omit user in
/-- The zeroing loop of `do_dealloc`. -/
theorem Machine.zeroing_alone {obj : Obj} {locs : List Loc} (phase : m.call thread = .zeroing obj locs)
    (unlocked : ∀ loc, m.locks (stripe loc) = none) :
    (List.replicate locs.length (thread, .next)).foldlM (Machine.step stripe) m =
      some (m.completed thread { m.toMemory with
        slots := locs.foldl (fun slots loc => Function.update slots loc none) m.slots } (.zeroing obj [])) := by
  induction locs generalizing m with
  | nil => simp [Machine.completed, ← phase]
  | cons loc rest ih =>
      have step : m.step stripe (thread, .next) = some ({ m with
          slots := Function.update m.slots loc none }.enter thread (.zeroing obj rest)) := by
        simp only [Machine.step, Machine.advance, phase, unlocked loc, if_true]
      have later := ih (m := { m with slots := Function.update m.slots loc none }.enter thread (.zeroing obj rest))
        (Function.update_self ..) unlocked
      rw [List.length_cons, List.replicate_succ, List.foldlM_cons, step]
      show List.foldlM (Machine.step stripe) _ _ = _
      rw [later]
      simp [Machine.completed, Machine.enter]

/-- A release that gives up the last reference, up to the message. -/
theorem Machine.release_alone {obj : Obj} {table : SideTable Obj Loc} {locs : List Loc}
    (dropped : releaseEntry m.table obj = (table, some locs)) (unlocked : ∀ loc, m.locks (stripe loc) = none) :
    m.alone stripe thread (.release (some obj)) locs.length = some ({ m with
      refs := m.refs.erase (thread, obj)
      deallocator := Function.update m.deallocator obj (some thread) }.completed thread
        ⟨table, locs.foldl (fun slots loc => Function.update slots loc none) m.slots⟩ (.zeroing obj [])) := by
  have step : m.step stripe (thread, .release (some obj)) = some ({ m with
      table
      refs := m.refs.erase (thread, obj)
      deallocator := Function.update m.deallocator obj (some thread) }.enter thread (.zeroing obj locs)) := by
    simp only [Machine.step, user, Machine.invoke, dropped]
  have later := Machine.zeroing_alone (m := { m with
    table
    refs := m.refs.erase (thread, obj)
    deallocator := Function.update m.deallocator obj (some thread) }.enter thread (.zeroing obj locs))
    (Function.update_self ..) unlocked
  rw [Machine.alone, List.foldlM_cons, step]
  show List.foldlM (Machine.step stripe) _ _ = _
  rw [later]
  simp [Machine.completed, Machine.enter]

/-- A release runs `objc_release` when its steps and those of the body of `-dealloc` are not interrupted. -/
theorem Machine.objcRelease_alone {obj : Obj} {table : SideTable Obj Loc} {locs : List Loc}
    (dropped : releaseEntry m.table obj = (table, some locs)) (unlocked : ∀ loc, m.locks (stripe loc) = none)
    {zeroed sent after : Machine Tid Obj Loc Stripe} {rest : List Obj} {body : List (Tid × MemOp Tid Obj Loc)}
    {dealloc : Obj → Memory Obj Loc → Memory Obj Loc}
    (reaches : m.alone stripe thread (.release (some obj)) locs.length = some zeroed)
    (sends : zeroed.step stripe (thread, .sendDealloc true) = some sent)
    (runs : body.foldlM (Machine.step stripe) sent = some after)
    (computes : after.toMemory = dealloc obj sent.toMemory)
    (returns : after.call thread = .user ∧ after.bodies thread = obj :: rest) :
    ∃ final, [(thread, .returnDealloc), (thread, .next)].foldlM (Machine.step stripe) after = some final ∧
      final.call thread = .user ∧ final.toMemory = objcRelease dealloc m.toMemory (some obj) := by
  rw [Machine.release_alone user dropped unlocked] at reaches
  obtain rfl := Option.some.inj reaches
  have isSent : sent.toMemory =
      ⟨table, locs.foldl (fun slots loc => Function.update slots loc none) m.slots⟩ := by
    simp only [Machine.step, Machine.completed, Function.update_self, if_true] at sends
    obtain rfl := Option.some.inj sends
    rfl
  have last : [(thread, .returnDealloc), (thread, .next)].foldlM (Machine.step stripe) after =
      some { after with
        bodies := Function.update after.bodies thread rest
        table := removeEntry after.table obj
        deallocator := Function.update after.deallocator obj none
        call := Function.update after.call thread .user } := by
    simp [Machine.step, Machine.invoke, Machine.advance, Machine.enter, returns.1, returns.2]
  refine ⟨_, last, Function.update_self .., ?_⟩
  simp only [objcRelease, dropped, doDealloc]
  rw [← isSent, ← computes]

end Alone

end O3jc
