import O3jc.Library.Outcome
import O3jc.Loading.Representation

namespace O3jc

open Library

section Words

variable {F G : Type} [DecidableEq F] [DecidableEq G] {p : Process} {base base' : Addr} {f : F} {g : G}

theorem Process.word_setWord_self (struct : ReprC F) (value : Addr) :
    (p.setWord struct base f value).word struct base f = value :=
  Ram.load_store_self value (by decide) (by decide)

theorem Process.word_setWord_of_apart {struct : ReprC F} {struct' : ReprC G} (wide : struct.width f = 8)
    (wide' : struct'.width g = 8) (value : Addr) (fits : (struct.region base f).Fits)
    (fits' : (struct'.region base' g).Fits) (apart : (struct'.region base' g).Apart (struct.region base f)) :
    (p.setWord struct base f value).word struct' base' g = p.word struct' base' g := by
  unfold ReprC.region at fits fits' apart
  rw [wide] at fits apart
  rw [wide'] at fits' apart
  exact Ram.load_store_of_apart value fits fits' apart

end Words

section Placed

variable {P : Placement} {p : Process} (sound : P.Sound p.blocks)

include sound

theorem Placement.Sound.classFits {c : ClassPtr} (below : c < P.classes) (f : ClassField) :
    (ObjcClass.layout.region (P.cls c) f).Fits :=
  (sound.classField below f).fits (sound.cls c below).2.1

theorem Placement.Sound.selFits {s : SEL} (below : s < P.selectors) (f : SelectorField) :
    (ObjcSelector.layout.region (P.sel s) f).Fits :=
  (sound.selField below f).fits (sound.sel s below).2.1

/-- A write to a field of a class leaves the other words of the classes. -/
theorem Placement.Sound.classWord_setClass {c d : ClassPtr} (below : c < P.classes) (below' : d < P.classes)
    (f : ClassField) (value : Addr) : (p.setWord ObjcClass.layout (P.cls c) f value).classWord P d =
      if d = c then Function.update (p.classWord P c) f value else p.classWord P d := by
  funext g
  by_cases same : d = c
  · subst same
    rw [if_pos rfl]
    by_cases field : g = f
    · subst field
      rw [Function.update_self]
      exact Process.word_setWord_self _ value
    · rw [Function.update_of_ne field]
      exact Process.word_setWord_of_apart rfl rfl value (sound.classFits below f) (sound.classFits below g)
        (ObjcClass.layout.region_apart (sound.cls d below).2.1 field)
  · rw [if_neg same]
    have apart := ((sound.clsApart d below' c below same).within (sound.classField below' g)).symm.within
      (sound.classField below f)
    exact Process.word_setWord_of_apart rfl rfl value (sound.classFits below f) (sound.classFits below' g) apart.symm

theorem Placement.Sound.selWord_setClass {c : ClassPtr} (below : c < P.classes) (f : ClassField) (value : Addr)
    {s : SEL} (below' : s < P.selectors) :
    (p.setWord ObjcClass.layout (P.cls c) f value).selWord P s = p.selWord P s := by
  funext g
  have apart := ((sound.clsSelApart c below s below').within (sound.classField below f)).symm.within
    (sound.selField below' g)
  exact Process.word_setWord_of_apart rfl rfl value (sound.classFits below f) (sound.selFits below' g) apart

theorem Placement.Sound.classWord_setName {s : SEL} (below : s < P.selectors) (value : Addr) {c : ClassPtr}
    (below' : c < P.classes) :
    (p.setWord ObjcSelector.layout (P.sel s) .name value).classWord P c = p.classWord P c := by
  funext g
  have apart := ((sound.clsSelApart c below' s below).within (sound.classField below' g)).symm.within
    (sound.selField below .name)
  exact Process.word_setWord_of_apart rfl rfl value (sound.selFits below .name) (sound.classFits below' g) apart.symm

/-- A write to the name of a selector leaves the other words of the selectors. -/
theorem Placement.Sound.selWord_setName {s t : SEL} (below : s < P.selectors) (below' : t < P.selectors)
    (value : Addr) : (p.setWord ObjcSelector.layout (P.sel s) .name value).selWord P t =
      if t = s then Function.update (p.selWord P s) .name value else p.selWord P t := by
  funext g
  by_cases same : t = s
  · subst same
    rw [if_pos rfl]
    by_cases field : g = .name
    · subst field
      rw [Function.update_self]
      exact Process.word_setWord_self _ value
    · rw [Function.update_of_ne field]
      exact Process.word_setWord_of_apart rfl rfl value (sound.selFits below .name) (sound.selFits below g)
        (ObjcSelector.layout.region_apart (sound.sel t below).2.1 field)
  · rw [if_neg same]
    have apart := ((sound.selApart t below' s below same).within (sound.selField below' g)).symm.within
      (sound.selField below .name)
    exact Process.word_setWord_of_apart rfl rfl value (sound.selFits below .name) (sound.selFits below' g) apart.symm

theorem Placement.Sound.keeps_setClass {c : ClassPtr} (below : c < P.classes) {f : ClassField}
    (loaded : f ∈ Placement.loadedFields) (value : Addr) :
    Keeps P p (p.setWord ObjcClass.layout (P.cls c) f value) where
  blocks _ member := member
  bytes _ _ outside := Ram.store_of_outside value fun inside =>
    outside (Or.inl ⟨c, below, f, loaded, (Region.has_iff (sound.classFits below f)).mp inside⟩)
  caches _ _ := rfl
  lists _ _ := rfl

theorem Placement.Sound.keeps_setName {s : SEL} (below : s < P.selectors) (value : Addr) :
    Keeps P p (p.setWord ObjcSelector.layout (P.sel s) .name value) where
  blocks _ member := member
  bytes _ _ outside := Ram.store_of_outside value fun inside =>
    outside (Or.inr ⟨s, below, (Region.has_iff (sound.selFits below .name)).mp inside⟩)
  caches _ _ := rfl
  lists _ _ := rfl

end Placed

theorem Keeps.grown {P : Placement} {p p' : Process} (keeps : Keeps P p p') (H : HeapPlacement) {rt rt' : Runtime}
    (strings : rt'.nextCString = rt.nextCString) (lists : rt'.nextMethodList = rt.nextMethodList) :
    Grown P H H p p' rt rt' :=
  ⟨keeps, Nat.le_of_eq strings.symm, Nat.le_of_eq lists.symm, fun _ _ => rfl, fun _ _ => rfl⟩

section Steps

variable {P : Placement} {H : HeapPlacement} {p : Process} {rt : Runtime}

/-- A write to a field of a class struct is a change of the class. -/
theorem Realizes.setClass (rep : Realizes P H p rt) {c : ClassPtr} (below : c < P.classes) {f : ClassField}
    (loaded : f ∈ Placement.loadedFields) {value : Addr} {change : ObjcClass → ObjcClass}
    (stands : ClassAt P H p rt (Function.update (p.classWord P c) f value) (change (rt.classes c)))
    (own : f = .dtable → ∀ d < P.classes, p.classWord P d .dtable ≠ value) :
    Realizes P H (p.setWord ObjcClass.layout (P.cls c) f value) (rt.modifyClass c change) := by
  have keeps := rep.sound.keeps_setClass below loaded value
  have grown : Grown P H H p _ rt (rt.modifyClass c change) := keeps.grown H rfl rfl
  refine ⟨rep.sound, ⟨rep.classes.count, fun d below' => ?_, fun d below' e below'' different used => ?_⟩,
    rep.selectors.grow grown (fun s below' => rep.sound.selWord_setClass below f value below') rfl rfl,
    rep.strings.grow rep.sound grown rfl rfl, rep.lists.grow grown rfl rfl, rep.tables.grow grown rfl rfl rfl rfl⟩
  · rw [rep.sound.classWord_setClass below below' f value]
    by_cases same : d = c
    · subst same
      rw [if_pos rfl, Runtime.modifyClass_classes_self]
      exact stands.grow rep.sound grown
    · rw [if_neg same, Runtime.modifyClass_classes_of_ne _ _ _ same]
      exact (rep.classes.stands d below').grow rep.sound grown
  · rw [rep.sound.classWord_setClass below below' f value] at used ⊢
    rw [rep.sound.classWord_setClass below below'' f value]
    -- A cache that is written is no cache of another class, and the other caches stay apart.
    by_cases written : f = .dtable
    · subst written
      by_cases first : d = c
      · subst first
        rw [if_pos rfl, if_neg different.symm, Function.update_self]
        exact (own rfl e below'').symm
      · rw [if_neg first]
        by_cases second : e = c
        · subst second
          rw [if_pos rfl, Function.update_self]
          exact own rfl d below'
        · rw [if_neg first] at used
          rw [if_neg second]
          exact rep.classes.own d below' e below'' different used
    · have word : ∀ x, (if x = c then Function.update (p.classWord P c) f value else p.classWord P x) .dtable =
          p.classWord P x .dtable := by
        intro x
        by_cases here : x = c
        · rw [if_pos here, Function.update_of_ne (Ne.symm written), here]
        · rw [if_neg here]
      rw [word] at used ⊢
      rw [word]
      exact rep.classes.own d below' e below'' different used

/-- The allocator returns memory that is not in use. -/
structure Platform.Sound (platform : Platform) : Prop where
  fresh : ∀ blocks size base, platform.alloc blocks size = some base →
    base ≠ 0 ∧ (⟨base, size⟩ : Region).Fits ∧ ∀ block ∈ blocks, (⟨base, size⟩ : Region).Apart block
  cache : 0 < platform.methodCacheSize

/-- A fresh block is live from now on. -/
structure Leaked (p : Process) (size : Nat) (result : Process × Addr) : Prop where
  process : result.1 = { p with blocks := ⟨result.2, size⟩ :: p.blocks }
  nonnull : result.2 ≠ 0
  fits : (⟨result.2, size⟩ : Region).Fits
  fresh : ∀ block ∈ p.blocks, (⟨result.2, size⟩ : Region).Apart block

theorem Process.leak_refines {platform : Platform} (allocator : platform.Sound) (p : Process) (size : Nat) :
    Refines (· = Stop.outOfMemory) (fun result (_ : Unit) => Leaked p size result) (p.leak platform size) (some ()) := by
  unfold leak
  cases result : platform.alloc p.blocks size with
  | none => exact .lacks rfl
  | some base =>
      obtain ⟨nonnull, fits, fresh⟩ := allocator.fresh _ _ _ result
      exact .done ⟨rfl, nonnull, fits, fresh⟩

section Leaking

variable {size : Nat} {result : Process × Addr} (leaked : Leaked p size result)

include leaked

theorem Leaked.apart {r : Region} (live : InBlocks p.blocks r) : r.Apart ⟨result.2, size⟩ := by
  obtain ⟨block, member, inner⟩ := live
  exact (leaked.fresh block member).symm.within inner

theorem Leaked.ne_of_live {w : Addr} (positive : 0 < size) (live : InBlocks p.blocks ⟨w, 1⟩) : w ≠ result.2 :=
  (leaked.apart live).base_ne Nat.one_pos positive

theorem Leaked.live (positive : 0 < size) : InBlocks result.1.blocks ⟨result.2, 1⟩ := by
  refine ⟨⟨result.2, size⟩, ?_, Nat.le_refl _, Nat.add_le_add_left positive _⟩
  rw [leaked.process]
  exact List.mem_cons_self

theorem Leaked.fixed (sound : P.Sound p.blocks) : P.Fixed result.1.blocks ⟨result.2, size⟩ where
  fits := leaked.fits
  live := by
    refine ⟨⟨result.2, size⟩, ?_, Nat.le_refl _, Nat.le_refl _⟩
    rw [leaked.process]
    exact List.mem_cons_self
  cls c below := (leaked.apart (sound.cls c below).2.2).symm
  sel s below := (leaked.apart (sound.sel s below).2.2).symm

theorem Leaked.keeps (P : Placement) : Keeps P p result.1 := by
  rw [leaked.process]
  exact ⟨fun _ member => List.mem_cons_of_mem _ member, fun _ _ _ => rfl, fun _ _ => rfl, fun _ _ => rfl⟩

theorem Realizes.leak (rep : Realizes P H p rt) : Realizes P H result.1 rt := by
  obtain ⟨p', base⟩ := result
  have process : p' = { p with blocks := ⟨base, size⟩ :: p.blocks } := leaked.process
  have keeps := leaked.keeps P
  subst process
  have grown : Grown P H H p { p with blocks := ⟨base, size⟩ :: p.blocks } rt rt := keeps.grown H rfl rfl
  exact ⟨rep.sound.mono keeps.blocks, rep.classes.grow rep.sound grown (fun _ _ => rfl) rfl rfl,
    rep.selectors.grow grown (fun _ _ => rfl) rfl rfl, rep.strings.grow rep.sound grown rfl rfl,
    rep.lists.grow grown rfl rfl, rep.tables.grow grown rfl rfl rfl rfl⟩

/-- A string written to a fresh block changes no live byte. -/
theorem Leaked.storeBytes_agree {bytes : List (BitVec 8)} (length : bytes.length = size) {r : Region}
    (live : InBlocks p.blocks r) : Ram.Agree r p.ram (p.ram.storeBytes result.2 bytes) := by
  subst length
  exact Ram.storeBytes_agree leaked.fits (leaked.apart live)

end Leaking

/-- A write to the name of a selector struct is a change of the selector. -/
theorem Realizes.setName (rep : Realizes P H p rt) {s : SEL} (below : s < P.selectors) {i : CStrPtr}
    (live : i < rt.nextCString) :
    Realizes P H (p.setWord ObjcSelector.layout (P.sel s) .name (H.cstr i))
      { rt with selectors := Function.update rt.selectors s { rt.selectors s with name := some i } } := by
  have keeps := rep.sound.keeps_setName below (H.cstr i)
  have grown : Grown P H H p _ rt
      { rt with selectors := Function.update rt.selectors s { rt.selectors s with name := some i } } :=
    keeps.grown H rfl rfl
  refine ⟨rep.sound, rep.classes.grow rep.sound grown (fun c below' => rep.sound.classWord_setName below _ below') rfl
    rfl, ⟨rep.selectors.count, fun t below' => ?_⟩, rep.strings.grow rep.sound grown rfl rfl,
    rep.lists.grow grown rfl rfl, rep.tables.grow grown rfl rfl rfl rfl⟩
  rw [rep.sound.selWord_setName below below']
  by_cases same : t = s
  · subst same
    rw [if_pos rfl]
    simp only [Function.update_self]
    exact ⟨⟨rfl, live, (rep.strings.stands i live).nonnull⟩, (rep.selectors.stands t below).types⟩
  · rw [if_neg same]
    simp only [Function.update_of_ne same]
    exact rep.selectors.stands t below'

/-- A fresh place keeps the places apart. -/
theorem update_injective {place : Nat → Addr} {live : Nat} {base : Addr}
    (own : ∀ i < live, ∀ j < live, place i = place j → i = j) (fresh : ∀ i < live, place i ≠ base) :
    ∀ i < live + 1, ∀ j < live + 1, Function.update place live base i = Function.update place live base j → i = j := by
  intro i below j below' same
  have old : ∀ k, k < live + 1 → k ≠ live → k < live := fun k below different =>
    Nat.lt_of_le_of_ne (Nat.le_of_lt_succ below) different
  by_cases first : i = live
  · by_cases second : j = live
    · exact first.trans second.symm
    · rw [first, Function.update_self, Function.update_of_ne second] at same
      exact absurd same.symm (fresh j (old j below' second))
  · by_cases second : j = live
    · rw [second, Function.update_self, Function.update_of_ne first] at same
      exact absurd same (fresh i (old i below first))
    · rw [Function.update_of_ne first, Function.update_of_ne second] at same
      exact own i (old i below first) j (old j below' second) same

/-- A string has a byte, the terminating null at least. -/
theorem StringAt.live {w : Addr} {name : CStr} (stands : StringAt P p w name) : InBlocks p.blocks ⟨w, 1⟩ := by
  refine stands.fixed.live.within ⟨Nat.le_refl _, Nat.add_le_add_left ?_ _⟩
  simp [Process.cStringBytes]

/-- A new name is a string in a fresh block. -/
theorem Realizes.addName (rep : Realizes P H p rt) {name : String} {cstr : CStr} (unknown : rt.nameTable name = none)
    {result : Process × Addr} (leaked : Leaked p (Process.cStringBytes cstr).length result) :
    Realizes P { H with cstr := Function.update H.cstr rt.nextCString result.2 }
      { result.1 with
        ram := result.1.ram.storeBytes result.2 (Process.cStringBytes cstr)
        nameTable := Function.update result.1.nameTable name (some result.2) }
      { rt with
        cStrings := Function.update rt.cStrings rt.nextCString cstr
        nextCString := rt.nextCString + 1
        nameTable := Function.update rt.nameTable name (some rt.nextCString) } ∧
    Keeps P p { result.1 with
      ram := result.1.ram.storeBytes result.2 (Process.cStringBytes cstr)
      nameTable := Function.update result.1.nameTable name (some result.2) } := by
  obtain ⟨p', base⟩ := result
  have process : p' = { p with blocks := ⟨base, (Process.cStringBytes cstr).length⟩ :: p.blocks } := leaked.process
  subst process
  have agree : ∀ r, InBlocks p.blocks r → Ram.Agree r p.ram (p.ram.storeBytes base (Process.cStringBytes cstr)) :=
    fun r live => leaked.storeBytes_agree rfl live
  have keeps : Keeps P p { p with
      blocks := ⟨base, (Process.cStringBytes cstr).length⟩ :: p.blocks
      ram := p.ram.storeBytes base (Process.cStringBytes cstr)
      nameTable := Function.update p.nameTable name (some base) } := by
    refine ⟨fun _ member => List.mem_cons_of_mem _ member, fun a live _ => ?_, fun _ _ => rfl, fun _ _ => rfl⟩
    obtain ⟨block, member, has⟩ := live
    exact agree block ⟨block, member, Nat.le_refl _, Nat.le_refl _⟩ a has
  have grown : Grown P H { H with cstr := Function.update H.cstr rt.nextCString base } p _ rt { rt with
      cStrings := Function.update rt.cStrings rt.nextCString cstr
      nextCString := rt.nextCString + 1
      nameTable := Function.update rt.nameTable name (some rt.nextCString) } :=
    ⟨keeps, Nat.le_succ _, Nat.le_refl _, fun i below => Function.update_of_ne (Nat.ne_of_lt below) _ _,
      fun _ _ => rfl⟩
  have classWords : ∀ c < P.classes, ∀ f, (p.ram.storeBytes base (Process.cStringBytes cstr)).load
      (ObjcClass.layout.place (P.cls c) f) 64 = p.ram.load (ObjcClass.layout.place (P.cls c) f) 64 :=
    fun c below f => (agree _ ((rep.sound.cls c below).2.2.within (rep.sound.classField below f))).load
      (rep.sound.classFits below f) (by decide) (by decide)
  have selWords : ∀ s < P.selectors, ∀ f, (p.ram.storeBytes base (Process.cStringBytes cstr)).load
      (ObjcSelector.layout.place (P.sel s) f) 64 = p.ram.load (ObjcSelector.layout.place (P.sel s) f) 64 :=
    fun s below f => (agree _ ((rep.sound.sel s below).2.2.within (rep.sound.selField below f))).load
      (rep.sound.selFits below f) (by decide) (by decide)
  have bounded : (Process.cStringBytes cstr).length ≤ 2 ^ 64 := (Nat.le_add_left _ _).trans leaked.fits
  refine ⟨⟨rep.sound.mono keeps.blocks, rep.classes.grow rep.sound grown (fun c below => funext (classWords c below)) rfl
    rfl, rep.selectors.grow grown (fun s below => funext (selWords s below)) rfl rfl,
    ⟨fun i below => ?strings, fun i below j below' same => ?own⟩, rep.lists.grow grown rfl rfl,
    ⟨fun other => ?names, fun other i known => ?live, rep.tables.registry⟩⟩, keeps⟩
  case strings =>
    by_cases new : i = rt.nextCString
    · subst new
      simp only [Function.update_self]
      exact ⟨leaked.nonnull, leaked.fixed rep.sound, Ram.storeBytes_holds bounded⟩
    · simp only [Function.update_of_ne new]
      exact (rep.strings.stands i (Nat.lt_of_le_of_ne (Nat.le_of_lt_succ below) new)).kept rep.sound keeps
  case own =>
    have fresh : ∀ k < rt.nextCString, H.cstr k ≠ base := fun k old =>
      leaked.ne_of_live (by simp [Process.cStringBytes]) (rep.strings.stands k old).live
    exact update_injective rep.strings.own fresh i below j below' same
  case names =>
    by_cases same : other = name
    · subst same
      simp only [Function.update_self, Option.map_some]
    · simp only [Function.update_of_ne same, rep.tables.names other]
      cases known : rt.nameTable other with
      | none => rfl
      | some i => exact congrArg some (grown.cstr i (rep.tables.live other i known)).symm
  case live =>
    by_cases same : other = name
    · subst same
      simp only [Function.update_self, Option.mem_some_iff] at known
      exact known ▸ Nat.lt_succ_self _
    · simp only [Function.update_of_ne same] at known
      exact (rep.tables.live other i known).trans (Nat.lt_succ_self _)

/-- Interning a name on the heap is interning it in the tables. -/
theorem Realizes.intern {platform : Platform} (allocator : platform.Sound) (rep : Realizes P H p rt)
    (name : String) : Refines (· = Stop.outOfMemory)
      (fun result (ideal : Runtime × CStrPtr) => ∃ H', Realizes P H' result.1 ideal.1 ∧ Keeps P p result.1 ∧
        result.2 = H'.cstr ideal.2 ∧ ideal.2 < ideal.1.nextCString)
      (p.internSelectorName platform name) (internSelectorName rt name) := by
  unfold Process.internSelectorName internSelectorName
  rw [rep.tables.names name]
  cases known : rt.nameTable name with
  | some i => exact .done ⟨H, rep, Keeps.refl P p, rfl, rep.tables.live name i known⟩
  | none =>
      cases encoded : CStr.ofStr name with
      | none => exact .failed (by decide)
      | some cstr =>
          refine (Process.leak_refines allocator p (Process.cStringBytes cstr).length).bind_left fun result leaked => ?_
          obtain ⟨named, keeps⟩ := rep.addName known leaked
          have place : result.2 = Function.update H.cstr rt.nextCString result.2 rt.nextCString := by
            rw [Function.update_self]
          exact .done ⟨_, named, keeps, place, Nat.lt_succ_self _⟩

/-- The sign extension of a count that is not negative. -/
theorem signExtend_count {n : Nat} (small : n < 2 ^ 31) : (BitVec.ofNat 32 n).signExtend 64 = BitVec.ofNat 64 n := by
  have positive : (BitVec.ofNat 32 n).msb = false := by
    rw [BitVec.msb_eq_false_iff_two_mul_lt, BitVec.toNat_ofNat, Nat.mod_eq_of_lt (by omega)]
    omega
  rw [BitVec.signExtend_eq_setWidth_of_msb_false positive]
  apply BitVec.eq_of_toNat_eq
  rw [BitVec.toNat_setWidth, BitVec.toNat_ofNat, BitVec.toNat_ofNat, Nat.mod_eq_of_lt (by omega : n < 2 ^ 32)]

/-- A new node is an object in a fresh block. -/
theorem Realizes.addList (rep : Realizes P H p rt) {entries : List RawEntry} {list : MethodList} {size : Nat}
    (positive : 0 < size) (chained : list.next = none)
    (stands : List.Forall₂ (EntryAt P H rt.nextCString) entries list.entries.items) {result : Process × Addr}
    (leaked : Leaked p size result) :
    Realizes P { H with list := Function.update H.list rt.nextMethodList result.2 }
      { result.1 with lists := Function.update result.1.lists result.2 ⟨0, entries⟩ } (rt.allocMethodList list) ∧
    Grown P H { H with list := Function.update H.list rt.nextMethodList result.2 } p
      { result.1 with lists := Function.update result.1.lists result.2 ⟨0, entries⟩ } rt (rt.allocMethodList list) := by
  obtain ⟨p', base⟩ := result
  have process : p' = { p with blocks := ⟨base, size⟩ :: p.blocks } := leaked.process
  subst process
  have keeps : Keeps P p { p with
      blocks := ⟨base, size⟩ :: p.blocks
      lists := Function.update p.lists base ⟨0, entries⟩ } :=
    ⟨fun _ member => List.mem_cons_of_mem _ member, fun _ _ _ => rfl, fun _ _ => rfl,
      fun w live => Function.update_of_ne (leaked.ne_of_live positive live) _ _⟩
  have grown : Grown P H { H with list := Function.update H.list rt.nextMethodList base } p _ rt
      (rt.allocMethodList list) :=
    ⟨keeps, Nat.le_refl _, Nat.le_succ _, fun _ _ => rfl, fun l below => Function.update_of_ne (Nat.ne_of_lt below) _ _⟩
  refine ⟨⟨rep.sound.mono keeps.blocks, rep.classes.grow rep.sound grown (fun _ _ => rfl) rfl rfl,
    rep.selectors.grow grown (fun _ _ => rfl) rfl rfl, rep.strings.grow rep.sound grown rfl rfl,
    ⟨fun l below => ?lists, ?own⟩, rep.tables.grow grown rfl rfl rfl rfl⟩, grown⟩
  case lists =>
    by_cases new : l = rt.nextMethodList
    · subst new
      have node : (rt.allocMethodList list).methodLists rt.nextMethodList = list := Function.update_self _ _ _
      rw [node]
      simp only [Function.update_self]
      have raw : Function.update p.lists base (⟨0, entries⟩ : RawList) base = ⟨0, entries⟩ := by
        rw [Function.update_self]
      refine ⟨leaked.nonnull, leaked.live positive, ?_, ?_⟩
      · rw [chained]
        exact congrArg RawList.next raw
      · have same : (Function.update p.lists base (⟨0, entries⟩ : RawList) base).entries = entries :=
          congrArg RawList.entries raw
        simp only [same]
        exact stands.imp fun _ _ entry => entry.grow (fun _ _ => rfl) (Nat.le_refl _)
    · have node : (rt.allocMethodList list).methodLists l = rt.methodLists l := Function.update_of_ne new _ _
      rw [node]
      simp only [Function.update_of_ne new]
      exact (rep.lists.stands l (Nat.lt_of_le_of_ne (Nat.le_of_lt_succ below) new)).grow grown
  case own =>
    exact update_injective rep.lists.own fun l below => leaked.ne_of_live positive (rep.lists.stands l below).live

/-- The bytes of a compiled list become the node that the abstract list becomes. -/
theorem Realizes.convert {platform : Platform} (allocator : platform.Sound) (rep : Realizes P H p rt)
    {field : MethodListField} {w : Addr} (stands : MethodsAt P H p rt w field) (unread : field.head = none) :
    Refines (· = Stop.outOfMemory)
      (fun result (ideal : Runtime × MethodListField) => ∃ H', Realizes P H' result.1 ideal.1 ∧
        Keeps P p result.1 ∧ MethodsAt P H' result.1 ideal.1 result.2 ideal.2)
      (p.convertMethodList platform w) (some (convertMethodList rt field.raw)) := by
  cases field with
  | null =>
      have null : w = 0 := stands
      subst null
      exact .done ⟨H, rep, Keeps.refl P p, rfl⟩
  | runtime head => exact absurd unread (by simp [MethodListField.head])
  | compiled list =>
      have compiled : CompiledAt P H p rt.nextCString w list := stands
      have small := compiled.small
      have word : (p.ram.load (CompiledMethodList.layout.place w .count) 32).signExtend 64 =
          BitVec.ofNat 64 list.count := by
        rw [compiled.count, signExtend_count small]
      have number : (BitVec.ofNat 64 list.count).toNat = list.count := by
        rw [BitVec.toNat_ofNat, Nat.mod_eq_of_lt (by omega)]
      simp only [Process.convertMethodList, if_neg compiled.nonnull, word, number]
      by_cases empty : list.count = 0
      · have zero : BitVec.ofNat 64 list.count = 0 := congrArg (BitVec.ofNat 64) empty
        rw [if_pos zero, MethodListField.raw, convertMethodList, if_pos empty]
        exact .done ⟨H, rep, Keeps.refl P p, rfl⟩
      · have nonzero : BitVec.ofNat 64 list.count ≠ 0 := fun zero => empty (by
          rw [← number, zero]
          rfl)
        rw [if_neg nonzero, MethodListField.raw, convertMethodList, if_neg empty]
        refine (Process.leak_refines allocator p _).bind_left fun buffer leaked => ?_
        have live := rep.leak leaked
        refine (Process.leak_refines allocator buffer.1 32).bind_left fun node leaked' => ?_
        have entries : List.Forall₂ (EntryAt P H rt.nextCString) (p.inlineEntries w list.count)
            (⟨none, .exact list.converted⟩ : MethodList).entries.items := compiled.entries
        obtain ⟨added, grown⟩ := live.addList (by decide) rfl entries leaked'
        have place : Points (Function.update H.list rt.nextMethodList node.2) (rt.nextMethodList + 1) node.2
            (some rt.nextMethodList) :=
          ⟨by rw [Function.update_self], Nat.lt_succ_self _, leaked'.nonnull⟩
        exact .done ⟨_, added, (leaked.keeps P).trans grown.keeps, place⟩

end Steps

end O3jc
