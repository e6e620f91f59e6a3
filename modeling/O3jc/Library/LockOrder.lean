import O3jc.Library.Transition
import Mathlib.Data.List.Basic
import Mathlib.Logic.Function.Basic

namespace O3jc.Library

inductive LockMode where
  | shared
  | exclusive
deriving DecidableEq

/-- What a thread does at a point of its program. User code chooses. An access reads and writes the data and goes on
with what it read. -/
inductive LockAction (Lock Data Choice Point : Type) where
  | done
  | choose (next : Choice → Option Point)
  | access (next : Data → Data × Point)
  | acquire (lock : Lock) (mode : LockMode) (next : Point)
  | release (lock : Lock) (mode : LockMode) (next : Point)

/-- The data, the owners of every lock and the point of every thread. -/
structure LockMachine (Tid Lock Data Point : Type) where
  data : Data
  owners : Lock → List (Tid × LockMode)
  point : Tid → Point

/-- An exclusive owner is alone, shared owners admit another shared one. -/
def admits {Tid : Type} (owners : List (Tid × LockMode)) (mode : LockMode) : Bool :=
  match mode with
  | .exclusive => owners.isEmpty
  | .shared => owners.all fun owner => owner.2 == .shared

/-- A lock without an owner is free for both modes. -/
theorem admits_nil {Tid : Type} (mode : LockMode) : admits ([] : List (Tid × LockMode)) mode = true := by
  cases mode <;> rfl

namespace LockMachine

section Steps

variable {Tid Lock Data Choice Point : Type} [DecidableEq Tid] [DecidableEq Lock]
  (action : Point → LockAction Lock Data Choice Point) (m : LockMachine Tid Lock Data Point)

/-- No lock is owned and every thread stands at one point. -/
def start (data : Data) (point : Point) : LockMachine Tid Lock Data Point := ⟨data, fun _ => [], fun _ => point⟩

def enter (thread : Tid) (point : Point) : LockMachine Tid Lock Data Point :=
  { m with point := Function.update m.point thread point }

/-- One step of one thread. A thread whose lock is not free for its mode waits. -/
def step (label : Tid × Option Choice) : Option (LockMachine Tid Lock Data Point) :=
  match action (m.point label.1), label.2 with
  | .choose next, some choice => (next choice).map (m.enter label.1)
  | .access next, none => some ({ m with data := (next m.data).1 }.enter label.1 (next m.data).2)
  | .acquire lock mode next, none =>
      if admits (m.owners lock) mode then
        some ({ m with
          owners := Function.update m.owners lock ((label.1, mode) :: m.owners lock) }.enter label.1 next)
      else none
  | .release lock mode next, none =>
      some ({ m with
        owners := Function.update m.owners lock ((m.owners lock).erase (label.1, mode)) }.enter label.1 next)
  | _, _ => none

/-- What one step of a thread does. -/
inductive Effect (thread : Tid) : Option Choice → LockMachine Tid Lock Data Point → Prop
  | choose {next : Choice → Option Point} {choice : Choice} {point : Point}
      (isChoice : action (m.point thread) = .choose next) (chosen : next choice = some point) :
      Effect thread (some choice) (m.enter thread point)
  | access {next : Data → Data × Point} (isAccess : action (m.point thread) = .access next) :
      Effect thread none ({ m with data := (next m.data).1 }.enter thread (next m.data).2)
  | acquire {lock : Lock} {mode : LockMode} {next : Point}
      (isAcquire : action (m.point thread) = .acquire lock mode next)
      (admitted : admits (m.owners lock) mode = true) :
      Effect thread none
        ({ m with owners := Function.update m.owners lock ((thread, mode) :: m.owners lock) }.enter thread next)
  | release {lock : Lock} {mode : LockMode} {next : Point}
      (isRelease : action (m.point thread) = .release lock mode next) :
      Effect thread none
        ({ m with owners := Function.update m.owners lock ((m.owners lock).erase (thread, mode)) }.enter thread next)

/-- The labels of other threads, and those with which the thread goes on without a choice. -/
def GoesOn (thread : Tid) (label : Tid × Option Choice) : Prop := label.1 = thread → label.2 = none

instance (thread : Tid) (label : Tid × Option Choice) : Decidable (GoesOn thread label) :=
  inferInstanceAs (Decidable (label.1 = thread → label.2 = none))

variable {action m} {thread : Tid} {choice : Option Choice} {next : LockMachine Tid Lock Data Point}

theorem step_effect (result : m.step action (thread, choice) = some next) : m.Effect action thread choice next := by
  unfold step at result
  dsimp only at result
  split at result
  · obtain ⟨point, chosen, rfl⟩ := Option.map_eq_some_iff.mp result
    exact .choose ‹_› chosen
  · obtain rfl := Option.some.inj result
    exact .access ‹_›
  · split at result
    · obtain rfl := Option.some.inj result
      exact .acquire ‹_› ‹_›
    · contradiction
  · obtain rfl := Option.some.inj result
    exact .release ‹_›
  · contradiction

/-- A step moves its own thread only. -/
theorem step_point_of_ne {other : Tid} (result : m.step action (thread, choice) = some next)
    (different : other ≠ thread) : next.point other = m.point other := by
  cases step_effect result <;> exact Function.update_of_ne different ..

theorem step_access {next : Data → Data × Point} (isAccess : action (m.point thread) = .access next) :
    m.step action (thread, none) = some ({ m with data := (next m.data).1 }.enter thread (next m.data).2) := by
  rw [step, isAccess]

theorem step_acquire {lock : Lock} {mode : LockMode} {next : Point}
    (isAcquire : action (m.point thread) = .acquire lock mode next) (admitted : admits (m.owners lock) mode = true) :
    m.step action (thread, none) = some
      ({ m with owners := Function.update m.owners lock ((thread, mode) :: m.owners lock) }.enter thread next) := by
  rw [step, isAcquire]
  exact if_pos admitted

theorem step_release {lock : Lock} {mode : LockMode} {next : Point}
    (isRelease : action (m.point thread) = .release lock mode next) :
    m.step action (thread, none) = some ({ m with
      owners := Function.update m.owners lock ((m.owners lock).erase (thread, mode)) }.enter thread next) := by
  rw [step, isRelease]

variable (action m) (thread)

/-- The thread is at a point that needs the lock. -/
def Waits (lock : Lock) (mode : LockMode) : Prop := ∃ next, action (m.point thread) = .acquire lock mode next

/-- The thread can go on, also when readers give way to the threads that wait to write. -/
def Ready : Prop :=
  match action (m.point thread) with
  | .done => False
  | .acquire lock mode _ =>
      admits (m.owners lock) mode = true ∧ (mode = .shared → ∀ other, ¬ m.Waits action other lock .exclusive)
  | _ => True

end Steps

section Exclusion

variable {Tid Lock Data Choice Point : Type} {action : Point → LockAction Lock Data Choice Point}

/-- An exclusive owner of a lock is its only owner. -/
def Exclusive (m : LockMachine Tid Lock Data Point) : Prop :=
  ∀ lock thread, (thread, LockMode.exclusive) ∈ m.owners lock → m.owners lock = [(thread, .exclusive)]

theorem Exclusive.start {data : Data} {point : Point} :
    Exclusive (LockMachine.start data point : LockMachine Tid Lock Data Point) :=
  fun _ _ owned => absurd owned List.not_mem_nil

variable {m next : LockMachine Tid Lock Data Point} {thread other : Tid} {lock : Lock}

/-- Two exclusive owners of one lock are one thread. -/
theorem Exclusive.unique (alone : Exclusive m) (first : (thread, LockMode.exclusive) ∈ m.owners lock)
    (second : (other, LockMode.exclusive) ∈ m.owners lock) : other = thread := by
  rw [alone lock thread first] at second
  exact (Prod.mk.inj (List.mem_singleton.mp second)).1

variable [DecidableEq Tid] [DecidableEq Lock]

theorem Exclusive.step {choice : Option Choice} (alone : Exclusive m)
    (result : m.step action (thread, choice) = some next) : Exclusive next := by
  intro l t owned
  cases step_effect result with
  | choose isChoice chosen => exact alone l t owned
  | access isAccess => exact alone l t owned
  | @acquire taken mode point isAcquire admitted =>
      simp only [enter] at owned ⊢
      by_cases isLock : l = taken
      · subst isLock
        rw [Function.update_self] at owned ⊢
        cases mode with
        | exclusive =>
            have free : m.owners l = [] := List.isEmpty_iff.mp admitted
            rw [free] at owned ⊢
            rw [List.mem_singleton.mp owned]
        | shared =>
            have readers := List.all_eq_true.mp admitted
            rcases List.mem_cons.mp owned with isNew | isOld
            · exact absurd (Prod.mk.inj isNew).2 (by simp)
            · exact absurd (readers _ isOld) (by simp)
      · rw [Function.update_of_ne isLock] at owned ⊢
        exact alone l t owned
  | @release given mode point isRelease =>
      simp only [enter] at owned ⊢
      by_cases isLock : l = given
      · subst isLock
        rw [Function.update_self] at owned ⊢
        have single := alone l t (List.mem_of_mem_erase owned)
        rw [single] at owned ⊢
        have kept : (t, LockMode.exclusive) ≠ (thread, mode) := by
          intro same
          rw [same] at owned
          simp at owned
        exact List.erase_of_not_mem (by simpa using kept.symm)
      · rw [Function.update_of_ne isLock] at owned ⊢
        exact alone l t owned

end Exclusion

section Orders

variable {Tid Lock Data Choice Point : Type} (may : Lock → Lock → Prop) (holds : Point → List (Lock × LockMode))
  (action : Point → LockAction Lock Data Choice Point)

/-- The action at a point keeps to the locks that the point holds, the latest first. A lock is taken only inside of
locks that allow it, the latest lock is released first, and user code holds none. -/
def Respects (point : Point) : Prop :=
  match action point with
  | .done => holds point = []
  | .choose next =>
      holds point = [] ∧ (∃ choice, (next choice).isSome = true) ∧
        ∀ choice, ∀ chosen ∈ next choice, holds chosen = []
  | .access next => ∀ data, holds (next data).2 = holds point
  | .acquire lock mode next =>
      holds next = (lock, mode) :: holds point ∧ ∀ outer ∈ holds point, may outer.1 lock
  | .release lock mode next => holds point = (lock, mode) :: holds next

variable [DecidableEq Tid] [DecidableEq Lock]

/-- Every thread owns exactly the locks that its point holds, and took each one inside of locks that allow it. -/
structure Ordered (m : LockMachine Tid Lock Data Point) : Prop where
  owned : ∀ lock thread mode,
    (m.owners lock).count (thread, mode) = (holds (m.point thread)).count (lock, mode)
  nested : ∀ thread, (holds (m.point thread)).Pairwise fun inner outer => may outer.1 inner.1

variable {may holds action} {m next : LockMachine Tid Lock Data Point} {thread : Tid} {choice : Option Choice}

theorem Ordered.start {data : Data} {point : Point} (free : holds point = []) :
    Ordered may holds (LockMachine.start data point : LockMachine Tid Lock Data Point) := by
  refine ⟨fun lock thread mode => ?_, fun thread => ?_⟩
  · show 0 = (holds point).count (lock, mode)
    rw [free]
    rfl
  · show (holds point).Pairwise _
    rw [free]
    exact .nil

variable (inv : Ordered may holds m)

include inv

theorem Ordered.mem_owners {lock : Lock} {mode : LockMode} :
    (thread, mode) ∈ m.owners lock ↔ (lock, mode) ∈ holds (m.point thread) := by
  rw [← List.count_pos_iff, inv.owned, List.count_pos_iff]

/-- A thread moves to a point that holds the same locks. -/
theorem Ordered.enter {point : Point} (data : Data) (same : holds point = holds (m.point thread)) :
    Ordered may holds ({ m with data }.enter thread point) := by
  have kept : ∀ other, holds (Function.update m.point thread point other) = holds (m.point other) := by
    intro other
    by_cases isThread : other = thread
    · rw [isThread, Function.update_self, same]
    · rw [Function.update_of_ne isThread]
  refine ⟨fun lock other mode => ?_, fun other => ?_⟩
  · exact (inv.owned lock other mode).trans (congrArg _ (kept other).symm)
  · show (holds (Function.update m.point thread point other)).Pairwise _
    rw [kept]
    exact inv.nested other

/-- The owners of one lock change with the point of one thread. -/
theorem Ordered.change {lock : Lock} {owners : List (Tid × LockMode)} {point : Point}
    (own : ∀ mode, owners.count (thread, mode) = (holds point).count (lock, mode))
    (others : ∀ other mode, other ≠ thread → owners.count (other, mode) = (m.owners lock).count (other, mode))
    (rest : ∀ l mode, l ≠ lock → (holds point).count (l, mode) = (holds (m.point thread)).count (l, mode))
    (nested : (holds point).Pairwise fun inner outer => may outer.1 inner.1) :
    Ordered may holds ({ m with owners := Function.update m.owners lock owners }.enter thread point) := by
  refine ⟨fun l other mode => ?_, fun other => ?_⟩
  · simp only [LockMachine.enter]
    by_cases isThread : other = thread
    · subst isThread
      by_cases isLock : l = lock
      · subst isLock
        rw [Function.update_self, Function.update_self, own]
      · rw [Function.update_of_ne isLock, Function.update_self, inv.owned, rest l mode isLock]
    · rw [Function.update_of_ne isThread, ← inv.owned]
      by_cases isLock : l = lock
      · subst isLock
        rw [Function.update_self, others other mode isThread]
      · rw [Function.update_of_ne isLock]
  · simp only [LockMachine.enter]
    by_cases isThread : other = thread
    · subst isThread
      rw [Function.update_self]
      exact nested
    · rw [Function.update_of_ne isThread]
      exact inv.nested other

theorem Ordered.acquire {lock : Lock} {mode : LockMode} {point : Point}
    (taken : holds point = (lock, mode) :: holds (m.point thread))
    (allowed : ∀ outer ∈ holds (m.point thread), may outer.1 lock) :
    Ordered may holds
      ({ m with owners := Function.update m.owners lock ((thread, mode) :: m.owners lock) }.enter thread point) := by
  apply inv.change
  · intro a
    rw [taken, List.count_cons, List.count_cons, inv.owned]
    simp
  · intro other a different
    simp [Ne.symm different]
  · intro l a different
    simp [taken, Ne.symm different]
  · rw [taken]
    exact .cons allowed (inv.nested thread)

theorem Ordered.release {lock : Lock} {mode : LockMode} {point : Point}
    (given : holds (m.point thread) = (lock, mode) :: holds point) :
    Ordered may holds ({ m with
      owners := Function.update m.owners lock ((m.owners lock).erase (thread, mode)) }.enter thread point) := by
  apply inv.change
  · intro a
    have before := inv.owned lock thread a
    rw [given, List.count_cons] at before
    rw [List.count_erase, before]
    by_cases same : mode = a
    · simp [same]
    · simp [same]
  · intro other a different
    simp [List.count_erase, Ne.symm different]
  · intro l a different
    simp [given, Ne.symm different]
  · have nested := inv.nested thread
    rw [given] at nested
    exact nested.of_cons

/-- A step of a program whose points respect the order. -/
theorem Ordered.step (respects : ∀ point, Respects may holds action point)
    (result : m.step action (thread, choice) = some next) : Ordered may holds next := by
  have respected := respects (m.point thread)
  unfold Respects at respected
  cases step_effect result with
  | @choose options picked point isChoice chosen =>
      rw [isChoice] at respected
      obtain ⟨free, _, stays⟩ := respected
      exact inv.enter m.data ((stays picked point chosen).trans free.symm)
  | access isAccess =>
      rw [isAccess] at respected
      exact inv.enter _ (respected m.data)
  | acquire isAcquire admitted =>
      rw [isAcquire] at respected
      exact inv.acquire respected.1 respected.2
  | release isRelease =>
      rw [isRelease] at respected
      exact inv.release respected

/-- Some thread is ready when a thread that owns or needs a lock is not. The induction follows the locks inwards. -/
theorem Ordered.ready_of_waits (respects : ∀ point, Respects may holds action point)
    (acyclic : WellFounded fun inner outer => may outer inner) (lock : Lock) :
    ∀ thread mode, m.Waits action thread lock mode → ∃ other, m.Ready action other := by
  induction lock using acyclic.induction with
  | _ lock inside =>
      intro thread mode waits
      cases owners : m.owners lock with
      | nil =>
          by_cases writer : ∃ other, m.Waits action other lock .exclusive
          · obtain ⟨other, next, isWriter⟩ := writer
            refine ⟨other, ?_⟩
            rw [Ready, isWriter]
            exact ⟨by rw [owners]; exact admits_nil .exclusive, fun isShared => by contradiction⟩
          · obtain ⟨next, isWaiting⟩ := waits
            refine ⟨thread, ?_⟩
            rw [Ready, isWaiting]
            refine ⟨?_, fun _ other isWriter => writer ⟨other, isWriter⟩⟩
            rw [owners]
            exact admits_nil mode
      | cons owner rest =>
          obtain ⟨other, held⟩ := owner
          have holding : (lock, held) ∈ holds (m.point other) :=
            inv.mem_owners.mp (owners ▸ List.mem_cons_self)
          have respected := respects (m.point other)
          unfold Respects at respected
          cases isAction : action (m.point other) with
          | done =>
              rw [isAction] at respected
              rw [respected] at holding
              contradiction
          | choose next =>
              rw [isAction] at respected
              rw [respected.1] at holding
              contradiction
          | access next => exact ⟨other, by rw [Ready, isAction]; trivial⟩
          | release l a next => exact ⟨other, by rw [Ready, isAction]; trivial⟩
          | acquire l a next =>
              rw [isAction] at respected
              exact inside l (respected.2 _ holding) other a ⟨next, isAction⟩

/-- While a thread has not finished, some thread is ready. -/
theorem Ordered.progress (respects : ∀ point, Respects may holds action point)
    (acyclic : WellFounded fun inner outer => may outer inner) (unfinished : action (m.point thread) ≠ .done) :
    ∃ other, m.Ready action other := by
  cases isAction : action (m.point thread) with
  | done => contradiction
  | choose next => exact ⟨thread, by rw [Ready, isAction]; trivial⟩
  | access next => exact ⟨thread, by rw [Ready, isAction]; trivial⟩
  | release lock mode next => exact ⟨thread, by rw [Ready, isAction]; trivial⟩
  | acquire lock mode next => exact inv.ready_of_waits respects acyclic lock thread mode ⟨next, isAction⟩

omit inv in
/-- A thread that is ready takes a step. -/
theorem Ready.step (respects : ∀ point, Respects may holds action point) (ready : m.Ready action thread) :
    ∃ choice next, m.step action (thread, choice) = some next := by
  have respected := respects (m.point thread)
  unfold Respects at respected
  unfold Ready at ready
  cases isAction : action (m.point thread) with
  | done =>
      rw [isAction] at ready
      contradiction
  | choose next =>
      rw [isAction] at respected
      obtain ⟨choice, isSome⟩ := respected.2.1
      obtain ⟨point, chosen⟩ := Option.isSome_iff_exists.mp isSome
      exact ⟨some choice, m.enter thread point, by simp [LockMachine.step, isAction, chosen]⟩
  | access next => exact ⟨none, _, step_access isAction⟩
  | release lock mode next => exact ⟨none, _, step_release isAction⟩
  | acquire lock mode next =>
      rw [isAction] at ready
      exact ⟨none, _, step_acquire isAction ready.1⟩

omit inv in
theorem eq_or_of_pairwise {α : Type} {related : α → α → Prop} {items : List α} (pairwise : items.Pairwise related)
    {a b : α} (first : a ∈ items) (second : b ∈ items) : a = b ∨ related a b ∨ related b a := by
  induction pairwise with
  | nil => contradiction
  | @cons head rest before _ ih =>
      rcases List.mem_cons.mp first with rfl | firstBelow
      · rcases List.mem_cons.mp second with rfl | secondBelow
        · exact .inl rfl
        · exact .inr (.inl (before b secondBelow))
      · rcases List.mem_cons.mp second with rfl | secondBelow
        · exact .inr (.inr (before a firstBelow))
        · exact ih firstBelow secondBelow

/-- A thread owns at most one of two locks that do not allow each other. -/
theorem Ordered.same_lock {first second : Lock} {a b : LockMode} (one : (thread, a) ∈ m.owners first)
    (other : (thread, b) ∈ m.owners second) (forward : ¬ may first second) (backward : ¬ may second first) :
    first = second ∧ a = b := by
  rcases eq_or_of_pairwise (inv.nested thread) (inv.mem_owners.mp one) (inv.mem_owners.mp other) with
    same | taken | taken
  · exact Prod.mk.inj same
  · contradiction
  · contradiction

/-- A thread owns a lock at most once. -/
theorem Ordered.count_le_one (apart : ∀ lock, ¬ may lock lock) (lock : Lock) (mode : LockMode) :
    (m.owners lock).count (thread, mode) ≤ 1 := by
  rw [inv.owned]
  refine List.nodup_iff_count.mp ((inv.nested thread).imp ?_) (lock, mode)
  rintro inner outer taken rfl
  exact apart inner.1 taken

/-- A thread that waits for a lock owns only locks that allow it. -/
theorem Ordered.may_of_waits (respects : ∀ point, Respects may holds action point) {lock outer : Lock}
    {mode held : LockMode} (waits : m.Waits action thread lock mode) (owned : (thread, held) ∈ m.owners outer) :
    may outer lock := by
  obtain ⟨next, isAcquire⟩ := waits
  have respected := respects (m.point thread)
  unfold Respects at respected
  rw [isAcquire] at respected
  exact respected.2 _ (inv.mem_owners.mp owned)

end Orders

section Alone

variable {Tid Lock Data Choice Point : Type} (action : Point → LockAction Lock Data Choice Point)

/-- What a thread that finds all its locks free does by itself. -/
inductive Runs : Data × Point → Data × Point → Prop
  | refl (state : Data × Point) : Runs state state
  | access {data : Data} {point : Point} {next : Data → Data × Point} {last : Data × Point}
      (isAccess : action point = .access next) (later : Runs (next data) last) : Runs (data, point) last
  | acquire {data : Data} {point next : Point} {lock : Lock} {mode : LockMode} {last : Data × Point}
      (isAcquire : action point = .acquire lock mode next) (later : Runs (data, next) last) : Runs (data, point) last
  | release {data : Data} {point next : Point} {lock : Lock} {mode : LockMode} {last : Data × Point}
      (isRelease : action point = .release lock mode next) (later : Runs (data, next) last) : Runs (data, point) last

variable {action} {first middle last : Data × Point}

theorem Runs.trans (one : Runs action first middle) (other : Runs action middle last) : Runs action first last := by
  induction one with
  | refl => exact other
  | access isAccess _ ih => exact .access isAccess (ih other)
  | acquire isAcquire _ ih => exact .acquire isAcquire (ih other)
  | release isRelease _ ih => exact .release isRelease (ih other)

variable [DecidableEq Tid] [DecidableEq Lock] {may : Lock → Lock → Prop} {holds : Point → List (Lock × LockMode)}
  {m : LockMachine Tid Lock Data Point} {thread : Tid}

/-- The locks of a thread are free when the other threads own none. -/
theorem Ordered.free (inv : Ordered may holds m) (respects : ∀ point, Respects may holds action point)
    (apart : ∀ lock, ¬ may lock lock) (alone : ∀ other, other ≠ thread → holds (m.point other) = []) {lock : Lock}
    {mode : LockMode} (waits : m.Waits action thread lock mode) : m.owners lock = [] := by
  rw [List.eq_nil_iff_forall_not_mem]
  rintro ⟨other, held⟩ owned
  by_cases isThread : other = thread
  · subst isThread
    exact apart lock (inv.may_of_waits respects waits owned)
  · have holding := inv.mem_owners.mp owned
    rw [alone other isThread] at holding
    contradiction

variable (action m thread last) in
/-- The thread reaches the data and the point by steps of its own, without a choice. -/
def Ends : Prop :=
  ∃ after, Reachable (step action) (fun _ label => label = (thread, none)) m after ∧ after.data = last.1 ∧
    after.point = Function.update m.point thread last.2

theorem Ends.of_step {next : LockMachine Tid Lock Data Point} {point : Point}
    (result : m.step action (thread, none) = some next) (isPoint : next.point = Function.update m.point thread point)
    (later : Ends action last next thread) : Ends action last m thread := by
  obtain ⟨after, reached, data, ended⟩ := later
  refine ⟨after, Reachable.trans (.tail .refl rfl result) reached, data, ?_⟩
  rw [ended, isPoint, Function.update_idem]

/-- The machine takes the run of a thread when the other threads own no lock. -/
theorem Runs.ends (run : Runs action first last) (respects : ∀ point, Respects may holds action point)
    (apart : ∀ lock, ¬ may lock lock) (inv : Ordered may holds m)
    (alone : ∀ other, other ≠ thread → holds (m.point other) = []) (isFirst : (m.data, m.point thread) = first) :
    Ends action last m thread := by
  have others : ∀ {m next : LockMachine Tid Lock Data Point} {point : Point},
      (∀ other, other ≠ thread → holds (m.point other) = []) → next.point = Function.update m.point thread point →
      ∀ other, other ≠ thread → holds (next.point other) = [] := by
    intro m next point alone isPoint other different
    rw [isPoint, Function.update_of_ne different]
    exact alone other different
  induction run generalizing m with
  | refl state =>
      subst isFirst
      exact ⟨m, .refl, rfl, (Function.update_eq_self thread m.point).symm⟩
  | access isAccess _ ih =>
      obtain ⟨rfl, rfl⟩ := Prod.mk.inj isFirst
      have taken := step_access isAccess
      refine .of_step taken rfl (ih (inv.step respects taken) (others alone rfl) ?_)
      simp [enter]
  | acquire isAcquire _ ih =>
      obtain ⟨rfl, rfl⟩ := Prod.mk.inj isFirst
      have free := inv.free respects apart alone ⟨_, isAcquire⟩
      have taken := step_acquire isAcquire (by rw [free]; exact admits_nil _)
      refine .of_step taken rfl (ih (inv.step respects taken) (others alone rfl) ?_)
      simp [enter]
  | release isRelease _ ih =>
      obtain ⟨rfl, rfl⟩ := Prod.mk.inj isFirst
      have taken := step_release isRelease
      refine .of_step taken rfl (ih (inv.step respects taken) (others alone rfl) ?_)
      simp [enter]

end Alone

end LockMachine

end O3jc.Library
