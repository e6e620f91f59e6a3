import O3jc.Library.LockOrder
import Mathlib.Data.Set.Insert

/-
This file proves the rule of proof outlines for programs of locks. What holds of the data while a thread stands at a
point may rest on the guards that the thread holds there, and on the data that the run has passed through.
-/

namespace O3jc.Library.LockMachine

section Outlines

variable {Tid Lock Data Choice Point : Type} (action : Point → LockAction Lock Data Choice Point)
  (holds : Point → List (Lock × LockMode))

/-- Two threads can stand at these points at once. -/
def Compatible (first second : Point) : Prop :=
  ∀ lock a b, (lock, a) ∈ holds first → (lock, b) ∈ holds second → a = .shared ∧ b = .shared

/-- An invariant of the data, and what each point asserts of them. An action establishes what its next point asserts
when user code chooses what it may choose, and an access keeps what the points of other threads assert. -/
structure ProofOutline (allows : Data → Choice → Prop) (invariant : Set Data → Data → Prop)
    (asserts : Set Data → Point → Data → Prop) : Prop where
  mono : ∀ {past more data}, past ⊆ more → invariant past data → invariant more data
  asserts_mono : ∀ {past more point data}, past ⊆ more → asserts past point data → asserts more point data
  own : ∀ past point data, data ∈ past → invariant past data → asserts past point data →
    match action point with
    | .done => True
    | .choose next => ∀ choice, allows data choice → ∀ chosen ∈ next choice, asserts past chosen data
    | .access next => invariant (insert (next data).1 past) (next data).1 ∧
        asserts (insert (next data).1 past) (next data).2 (next data).1
    | .acquire _ _ next => asserts past next data
    | .release _ _ next => asserts past next data
  others : ∀ past point data next, action point = .access next → invariant past data → asserts past point data →
    ∀ other, Compatible holds point other → asserts past other data → asserts past other (next data).1

variable [DecidableEq Tid] [DecidableEq Lock] {may : Lock → Lock → Prop}

/-- The invariant holds, and every thread stands at a point whose assertion holds. -/
structure Outlined (may : Lock → Lock → Prop) (invariant : Set Data → Data → Prop)
    (asserts : Set Data → Point → Data → Prop) (past : Set Data) (m : LockMachine Tid Lock Data Point) : Prop where
  ordered : Ordered may holds m
  exclusive : Exclusive m
  visited : m.data ∈ past
  invariant : invariant past m.data
  asserts : ∀ thread, asserts past (m.point thread) m.data

variable {action holds} {allows : Data → Choice → Prop} {invariant : Set Data → Data → Prop}
  {asserts : Set Data → Point → Data → Prop}
  {past : Set Data} {m next : LockMachine Tid Lock Data Point} {thread : Tid} {choice : Option Choice}

/-- Two threads of a machine stand at compatible points. -/
theorem Outlined.compatible {other : Tid}
    (outlined : Outlined holds may invariant asserts past m) (different : other ≠ thread) :
    Compatible holds (m.point thread) (m.point other) := by
  intro lock a b first second
  have owned := outlined.ordered.mem_owners.mpr first
  have shared := outlined.ordered.mem_owners.mpr second
  cases a with
  | exclusive =>
      rw [outlined.exclusive lock thread owned, List.mem_singleton] at shared
      exact absurd (Prod.mk.inj shared).1 different
  | shared =>
      cases b with
      | shared => exact ⟨rfl, rfl⟩
      | exclusive =>
          rw [outlined.exclusive lock other shared, List.mem_singleton] at owned
          exact absurd (Prod.mk.inj owned).1.symm different

/-- Every step of a program with an outline keeps it. -/
theorem Outlined.step (outlined : Outlined holds may invariant asserts past m)
    (outline : ProofOutline action holds allows invariant asserts) (respects : ∀ point, Respects may holds action point)
    (allowed : ∀ chosen ∈ choice, allows m.data chosen) (result : m.step action (thread, choice) = some next) :
    Outlined holds may invariant asserts (insert next.data past) next := by
  have ordered := outlined.ordered.step respects result
  have exclusive := outlined.exclusive.step result
  have own := outline.own past (m.point thread) m.data outlined.visited outlined.invariant (outlined.asserts thread)
  have more : past ⊆ insert next.data past := Set.subset_insert _ _
  have whole : invariant (insert next.data past) next.data ∧
      asserts (insert next.data past) (next.point thread) next.data ∧
      ∀ other, other ≠ thread → asserts (insert next.data past) (m.point other) next.data := by
    have kept : next.data = m.data → asserts past (next.point thread) m.data →
        invariant (insert next.data past) next.data ∧
          asserts (insert next.data past) (next.point thread) next.data ∧
          ∀ other, other ≠ thread → asserts (insert next.data past) (m.point other) next.data := by
      intro same asserted
      rw [same, Set.insert_eq_of_mem outlined.visited]
      exact ⟨outlined.invariant, asserted, fun other _ => outlined.asserts other⟩
    cases step_effect result with
    | choose isChoice chosen =>
        rw [isChoice] at own
        exact kept rfl (by simpa [enter] using own _ (allowed _ rfl) _ chosen)
    | access isAccess =>
        rw [isAccess] at own
        refine ⟨own.1, by simpa [enter] using own.2, fun other different => ?_⟩
        exact outline.asserts_mono more (outline.others past (m.point thread) m.data _ isAccess outlined.invariant
          (outlined.asserts thread) (m.point other) (outlined.compatible different) (outlined.asserts other))
    | acquire isAcquire admitted =>
        rw [isAcquire] at own
        exact kept rfl (by simpa [enter] using own)
    | release isRelease =>
        rw [isRelease] at own
        exact kept rfl (by simpa [enter] using own)
  refine ⟨ordered, exclusive, Set.mem_insert _ _, whole.1, fun other => ?_⟩
  by_cases isThread : other = thread
  · rw [isThread]
    exact whole.2.1
  · rw [step_point_of_ne result isThread]
    exact whole.2.2 other isThread

theorem Outlined.mono {more : Set Data} (outlined : Outlined holds may invariant asserts past m)
    (outline : ProofOutline action holds allows invariant asserts) (subset : past ⊆ more) :
    Outlined holds may invariant asserts more m where
  ordered := outlined.ordered
  exclusive := outlined.exclusive
  visited := subset outlined.visited
  invariant := outline.mono subset outlined.invariant
  asserts thread := outline.asserts_mono subset (outlined.asserts thread)

/-- The data of the states of a run up to its end. -/
def passed (action : Point → LockAction Lock Data Choice Point)
    (permitted : LockMachine Tid Lock Data Point → Tid × Option Choice → Prop)
    (start m : LockMachine Tid Lock Data Point) : Set Data :=
  {data | Within (step action) permitted start m fun state => state.data = data}

variable {permitted : LockMachine Tid Lock Data Point → Tid × Option Choice → Prop}
  {start : LockMachine Tid Lock Data Point}

/-- A run of a program with an outline: the invariant and the assertions hold at its end. -/
theorem Outlined.run (initial : Outlined holds may invariant asserts past start)
    (outline : ProofOutline action holds allows invariant asserts) (respects : ∀ point, Respects may holds action point)
    (allowed : ∀ state label, permitted state label → ∀ chosen ∈ label.2, allows state.data chosen)
    (run : Reachable (LockMachine.step action) permitted start m) :
    Outlined holds may invariant asserts (past ∪ passed action permitted start m) m := by
  induction run with
  | refl => exact initial.mono outline Set.subset_union_left
  | @tail state next label before permits result ih =>
      refine (ih.step outline respects (allowed state label permits) result).mono outline ?_
      rintro data (rfl | old | earlier)
      · exact .inr (.here (.tail before permits result) rfl)
      · exact .inl old
      · exact .inr (earlier.tail permits result)

/-- What every access of a program with an outline guarantees links the ends of a run. -/
theorem Outlined.related (initial : Outlined holds may invariant asserts past start)
    (outline : ProofOutline action holds allows invariant asserts) (respects : ∀ point, Respects may holds action point)
    (allowed : ∀ state label, permitted state label → ∀ chosen ∈ label.2, allows state.data chosen)
    (related : Data → Data → Prop) (refl : ∀ data, related data data)
    (trans : ∀ {first second third}, related first second → related second third → related first third)
    (guaranteed : ∀ past point data next, action point = .access next → invariant past data → asserts past point data →
      related data (next data).1)
    (run : Reachable (LockMachine.step action) permitted start m) : related start.data m.data := by
  apply run.related fun first last => related first.data last.data
  · exact refl _
  · rintro state ⟨thread, choice⟩ next before linked _ result
    have outlined := initial.run outline respects allowed before
    cases step_effect result with
    | choose isChoice chosen => exact linked
    | access isAccess =>
        exact trans linked (guaranteed _ _ _ _ isAccess outlined.invariant (outlined.asserts thread))
    | acquire isAcquire admitted => exact linked
    | release isRelease => exact linked

/-- What a thread asserts of a choice that it has made: its own actions carry the assertion from point to point, and an
access of another thread keeps it. -/
structure ChoiceOutline (action : Point → LockAction Lock Data Choice Point) (invariant : Set Data → Data → Prop)
    (asserts serves : Set Data → Point → Data → Prop) : Prop where
  mono : ∀ {past more point data}, past ⊆ more → serves past point data → serves more point data
  own : ∀ past point data, data ∈ past → invariant past data → asserts past point data → serves past point data →
    match action point with
    | .done => True
    | .choose _ => True
    | .access next => serves (insert (next data).1 past) (next data).2 (next data).1
    | .acquire _ _ next => serves past next data
    | .release _ _ next => serves past next data
  others : ∀ past point data next, action point = .access next → invariant past data → asserts past point data →
    ∀ other, serves past other data → serves past other (next data).1

/-- What a thread asserts of its choice holds until it makes another one. -/
theorem Outlined.goesOn {serves : Set Data → Point → Data → Prop} {later : LockMachine Tid Lock Data Point}
    (initial : Outlined holds may invariant asserts past m)
    (outline : ProofOutline action holds allows invariant asserts) (respects : ∀ point, Respects may holds action point)
    (allowed : ∀ state label, permitted state label → ∀ chosen ∈ label.2, allows state.data chosen)
    (serving : ChoiceOutline action invariant asserts serves) (begins : serves past (m.point thread) m.data)
    (run : Reachable (LockMachine.step action) (fun state label => permitted state label ∧ GoesOn thread label)
      m later) :
    serves (past ∪ passed action permitted m later) (later.point thread) later.data := by
  induction run with
  | refl => exact serving.mono Set.subset_union_left begins
  | @tail state next label before permits result ih =>
      have run := before.mono fun _ _ => And.left
      have outlined := initial.run outline respects allowed run
      have more : insert next.data (past ∪ passed action permitted m state) ⊆
          past ∪ passed action permitted m next := by
        rintro data (rfl | old | earlier)
        · exact .inr (.here (.tail run permits.1 result) rfl)
        · exact .inl old
        · exact .inr (earlier.tail permits.1 result)
      refine serving.mono more ?_
      have subset : past ∪ passed action permitted m state ⊆
          insert next.data (past ∪ passed action permitted m state) := Set.subset_insert _ _
      obtain ⟨mover, choice⟩ := label
      by_cases isThread : mover = thread
      · subst isThread
        have own := serving.own _ _ _ outlined.visited outlined.invariant (outlined.asserts mover) ih
        have goes : choice = none := permits.2 rfl
        cases step_effect result with
        | choose isChoice chosen => contradiction
        | access isAccess =>
            rw [isAccess] at own
            simpa [enter] using own
        | acquire isAcquire admitted =>
            rw [isAcquire] at own
            simpa [enter] using serving.mono subset own
        | release isRelease =>
            rw [isRelease] at own
            simpa [enter] using serving.mono subset own
      · rw [step_point_of_ne result (Ne.symm isThread)]
        refine serving.mono subset ?_
        cases step_effect result with
        | choose isChoice chosen => exact ih
        | access isAccess =>
            exact serving.others _ _ _ _ isAccess outlined.invariant (outlined.asserts mover) _ ih
        | acquire isAcquire admitted => exact ih
        | release isRelease => exact ih

end Outlines

end O3jc.Library.LockMachine
