import O3jc.Loading.Bytes

namespace O3jc

open Library

/-- The bounds of a section are null or the addresses of its first element and of what follows its last one. -/
def SectionAt (start stop : Addr) (width : Nat) : Option Nat → Option Nat → Prop
  | some first, some last => start ≠ 0 ∧ stop ≠ 0 ∧
      (first < last → stop.toNat = start.toNat + width * (last - first)) ∧ (last ≤ first → stop ≤ start)
  | _, _ => start = 0 ∨ stop = 0

/-- The address of an element of a section. -/
def elementAt (start : Addr) (width : Nat) (first : Option Nat) (i : Nat) : Addr :=
  start + BitVec.ofNat 64 (width * (i - first.getD 0))

theorem SectionAt.slice {start stop : Addr} {width : Nat} {first last : Option Nat}
    (stands : SectionAt start stop width first last) (positive : 0 < width) :
    Process.sectionSlice start stop width = (sectionSlice first last).map (elementAt start width first) := by
  unfold Process.sectionSlice sectionSlice
  cases first with
  | none =>
      have null : start = 0 ∨ stop = 0 := stands
      rw [if_pos (null.imp_right Or.inl)]
      rfl
  | some f =>
      cases last with
      | none =>
          have null : start = 0 ∨ stop = 0 := stands
          rw [if_pos (null.imp_right Or.inl)]
          rfl
      | some l =>
          obtain ⟨startNonnull, stopNonnull, extent, empty⟩ := stands
          by_cases ordered : f < l
          · have length := extent ordered
            have some_ : 0 < width * (l - f) := Nat.mul_pos positive (Nat.sub_pos_of_lt ordered)
            have below : ¬ (start = 0 ∨ stop = 0 ∨ start ≥ stop) := by
              rintro (null | null | reversed)
              · exact startNonnull null
              · exact stopNonnull null
              · have le : stop.toNat ≤ start.toNat := reversed
                omega
            have size : (stop - start).toNat = width * (l - f) := by
              rw [BitVec.toNat_sub_of_le (by rw [BitVec.le_def]; omega), length, Nat.add_sub_cancel_left]
            rw [if_neg below, size, Nat.mul_div_cancel_left _ positive]
            simp only [if_neg (Nat.not_le_of_lt ordered), List.range'_eq_map_range, List.map_map]
            refine List.map_congr_left fun i _ => ?_
            simp only [Function.comp, elementAt, Option.getD_some, Nat.add_sub_cancel_left]
          · have reversed := empty (Nat.le_of_not_lt ordered)
            rw [if_pos (Or.inr (Or.inr reversed))]
            simp only [if_pos (Nat.le_of_not_lt ordered), List.map_nil]

/-- The info struct of a module with its two sections. -/
structure ModuleAt (P : Placement) (p : Process) (info : Addr) (m : ObjcModuleInfo) : Prop where
  fixed : P.Fixed p.blocks ⟨info, ObjcModuleInfo.layout.size⟩
  selectors : SectionAt (p.word ObjcModuleInfo.layout info .selStart) (p.word ObjcModuleInfo.layout info .selStop)
    ObjcSelector.layout.size m.selStart m.selStop
  entries : ∀ s ∈ m.selectorsMut, s < P.selectors ∧
    elementAt (p.word ObjcModuleInfo.layout info .selStart) ObjcSelector.layout.size m.selStart s = P.sel s
  classes : SectionAt (p.word ObjcModuleInfo.layout info .classesStart)
    (p.word ObjcModuleInfo.layout info .classesStop) 8 m.classesStart m.classesStop
  pointers : ∀ i ∈ sectionSlice m.classesStart m.classesStop,
    P.Fixed p.blocks ⟨elementAt (p.word ObjcModuleInfo.layout info .classesStart) 8 m.classesStart i, 8⟩ ∧
      Points P.cls P.classes
        (p.ram.load (elementAt (p.word ObjcModuleInfo.layout info .classesStart) 8 m.classesStart i) 64) (m.classWords i)

instance (start stop : Addr) (width : Nat) (first last : Option Nat) : Decidable (SectionAt start stop width first last) :=
  match first, last with
  | some _, some _ => inferInstanceAs (Decidable (_ ∧ _))
  | none, _ => inferInstanceAs (Decidable (_ ∨ _))
  | some _, none => inferInstanceAs (Decidable (_ ∨ _))

section Modules

variable {image : List ClassPtr} {P : Placement} {H : HeapPlacement} {p0 p : Process} {rt rt' : Runtime}
  {platform : Platform}

/-- A turn over the selector section on the bytes is a turn over the section. -/
theorem Realizes.loadsSelector (allocator : platform.Sound) (rep : Realizes P H p rt) {s : SEL}
    (below : s < P.selectors) :
    Refines (· = Stop.outOfMemory) (fun p' rt' => ∃ H', Realizes P H' p' rt' ∧ Keeps P p p')
      (p.loadSelector platform (P.sel s)) (loadSelector rt s) := by
  have points := (rep.selectors.stands s below).name
  unfold Process.loadSelector loadSelector
  cases named : (rt.selectors s).name with
  | none =>
      rw [named] at points
      have null : p.word ObjcSelector.layout (P.sel s) .name = 0 := points
      simp only [null, if_true]
      exact .done ⟨H, rep, Keeps.refl P p⟩
  | some i =>
      rw [named] at points
      obtain ⟨same, live, nonnull⟩ := points
      have word : p.word ObjcSelector.layout (P.sel s) .name = H.cstr i := same
      simp only [word, if_neg (same ▸ nonnull), (rep.strings.stands i live).cStr]
      cases decoded : (rt.cStrings i).toStr with
      | none => exact .failed (by decide)
      | some text =>
          refine (rep.intern allocator text).bind fun result ideal interned => ?_
          obtain ⟨H', rep', keeps, place, live'⟩ := interned
          rw [place]
          exact .done ⟨H', rep'.setName below live', keeps.trans (rep'.sound.keeps_setName below _)⟩

/-- The state between two modules, with the classes that are still to be loaded. -/
structure Loading (P : Placement) (image : List ClassPtr) (p0 : Process) (rest : List (Option ClassPtr)) (p : Process)
    (rt : Runtime) : Prop where
  realizes : ∃ H, Realizes P H p rt
  keeps : Keeps P p0 p
  world : WorldInv image rt
  unread : rt.Unread
  loadable : Loadable image rt rest

variable {rest later : List (Option ClassPtr)}

theorem Loading.selectors (allocator : platform.Sound) (loading : Loading P image p0 rest p rt) {addrs : List Addr}
    {sels : List SEL} (entries : List.Forall₂ (fun addr s => s < P.selectors ∧ addr = P.sel s) addrs sels) :
    Refines (· = Stop.outOfMemory) (Loading P image p0 rest) (p.loadSelectors platform addrs) (loadSelectors rt sels) := by
  refine Refines.foldlM (fun _ => Loading P image p0 rest) (fun addr s _ a b entry turn => ?_) entries loading
  obtain ⟨below, rfl⟩ := entry
  obtain ⟨H, rep⟩ := turn.realizes
  refine (rep.loadsSelector allocator below).result.mono fun p' rt' next => ?_
  obtain ⟨⟨H', rep', keeps⟩, result⟩ := next
  have same := loadSelector_sameClassMemory result
  exact ⟨⟨H', rep'⟩, turn.keeps.trans keeps, turn.world.of_sameClassMemory same turn.unread,
    turn.unread.of_sameClassMemory same, turn.loadable.of_sameClassMemory same⟩

theorem Loading.classes (allocator : platform.Sound) (enough : P.classes ≤ platform.fuel) (sound : P.Sound p0.blocks)
    (loading : Loading P image p0 (rest ++ later) p rt) {addrs : List Addr}
    (pointers : List.Forall₂ (fun addr ptr => P.Fixed p0.blocks ⟨addr, 8⟩ ∧
      Points P.cls P.classes (p0.ram.load addr 64) ptr) addrs rest) :
    Refines (· = Stop.outOfMemory) (Loading P image p0 later) (p.loadClasses platform addrs) (loadClasses rt rest) := by
  refine Refines.foldlM (fun rest => Loading P image p0 (rest ++ later)) (fun addr ptr rest a b entry turn => ?_)
    pointers loading
  obtain ⟨fixed, points⟩ := entry
  have word : a.ram.load addr 64 = p0.ram.load addr 64 :=
    (turn.keeps.agree sound fixed).load fixed.fits (by decide) (by decide)
  unfold Process.loadEntry
  simp only [word]
  cases ptr with
  | none =>
      have null : p0.ram.load addr 64 = 0 := points
      simp only [null, if_true]
      exact .done ⟨turn.realizes, turn.keeps, turn.world, turn.unread, turn.loadable⟩
  | some cls =>
      obtain ⟨same, _, nonnull⟩ := points
      simp only [same, if_neg (same ▸ nonnull)]
      obtain ⟨H, rep⟩ := turn.realizes
      obtain ⟨member, unloaded⟩ := turn.loadable.2 cls (by simp)
      refine (rep.loadsClass allocator enough turn.world turn.unread member unloaded).result.mono fun p' rt' next => ?_
      obtain ⟨⟨H', rep', keeps⟩, result⟩ := next
      exact ⟨⟨H', rep'⟩, turn.keeps.trans keeps, (loadClass_world turn.world member unloaded result).1,
        turn.unread.turn turn.world member result, (turn.loadable.tail turn.world result).2.2⟩

/-- Loading a module on the bytes is loading the module. -/
theorem Loading.module (allocator : platform.Sound) (enough : P.classes ≤ platform.fuel) (sound : P.Sound p0.blocks)
    {info : Addr} {m : ObjcModuleInfo} (stands : ModuleAt P p0 info m)
    (loading : Loading P image p0 (m.classes ++ later) p rt) :
    Refines (· = Stop.outOfMemory) (Loading P image p0 later) (p.objcLoad platform info) (objcLoad rt m) := by
  have field : ∀ {q : Process}, Keeps P p0 q → ∀ f, q.word ObjcModuleInfo.layout info f =
      p0.word ObjcModuleInfo.layout info f := fun keeps f =>
    have inner := ObjcModuleInfo.layout.region_within stands.fixed.fits f
    ((keeps.agree sound stands.fixed).within inner).load (inner.fits stands.fixed.fits) (by decide) (by decide)
  have entries : List.Forall₂ (fun addr s => s < P.selectors ∧ addr = P.sel s) (p.selectorsMut info) m.selectorsMut := by
    unfold Process.selectorsMut
    rw [field loading.keeps, field loading.keeps, stands.selectors.slice (by decide), List.forall₂_map_left_iff]
    exact List.forall₂_same.mpr stands.entries
  refine (loading.selectors allocator entries).bind fun p' rt' fixed => ?_
  have pointers : List.Forall₂ (fun addr ptr => P.Fixed p0.blocks ⟨addr, 8⟩ ∧
      Points P.cls P.classes (p0.ram.load addr 64) ptr) (p'.classes info) m.classes := by
    unfold Process.classes
    rw [field fixed.keeps, field fixed.keeps, stands.classes.slice (by decide), ObjcModuleInfo.classes,
      List.forall₂_map_left_iff, List.forall₂_map_right_iff]
    exact List.forall₂_same.mpr stands.pointers
  exact fixed.classes allocator enough sound pointers

/-- The load functions of the modules, on the bytes. -/
def Process.loadModules (platform : Platform) (p : Process) (infos : List Addr) : Except Stop Process :=
  infos.foldlM (objcLoad platform) p

/-- Loading modules one after the other on the bytes is loading the modules. -/
theorem Loading.modules (allocator : platform.Sound) (enough : P.classes ≤ platform.fuel) (sound : P.Sound p0.blocks)
    {infos : List Addr} {modules : List ObjcModuleInfo} (stand : List.Forall₂ (ModuleAt P p0) infos modules)
    (loading : Loading P image p0 (modules.flatMap ObjcModuleInfo.classes) p rt) :
    Refines (· = Stop.outOfMemory) (Loading P image p0 []) (p.loadModules platform infos) (loadModules rt modules) := by
  refine Refines.foldlM (fun rest => Loading P image p0 (rest.flatMap ObjcModuleInfo.classes))
    (fun info m rest q state stands loading => ?_) stand loading
  rw [List.flatMap_cons] at loading
  exact loading.module allocator enough sound stands

end Modules

/-- An allocator that returns the place after the last block. -/
def bumpPlatform : Platform where
  alloc blocks size :=
    let top := blocks.foldr (fun block top => max (block.base.toNat + block.size) top) 8
    if top < 2 ^ 64 ∧ top + size ≤ 2 ^ 64 then some (BitVec.ofNat 64 top) else none
  methodCacheSize := 48
  fuel := 8

theorem bumpPlatform_sound : bumpPlatform.Sound where
  cache := by decide
  fresh blocks size base result := by
    simp only [bumpPlatform, Option.ite_none_right_eq_some, Option.some.injEq] at result
    obtain ⟨⟨below, fits⟩, rfl⟩ := result
    generalize same : blocks.foldr (fun block top => max (block.base.toNat + block.size) top) 8 = top at below fits
    have ends : 8 ≤ top ∧ ∀ block ∈ blocks, block.base.toNat + block.size ≤ top := by
      subst same
      clear below fits
      induction blocks with
      | nil => exact ⟨Nat.le_refl _, fun _ member => absurd member List.not_mem_nil⟩
      | cons first rest inductionHypothesis =>
          obtain ⟨positive, inside⟩ := inductionHypothesis
          refine ⟨positive.trans (Nat.le_max_right _ _), fun block member => ?_⟩
          rcases List.mem_cons.mp member with rfl | later
          · exact Nat.le_max_left _ _
          · exact (inside block later).trans (Nat.le_max_right _ _)
    have place : (BitVec.ofNat 64 top).toNat = top := by rw [BitVec.toNat_ofNat, Nat.mod_eq_of_lt below]
    refine ⟨fun zero => ?_, ?_, fun block member => Or.inr ?_⟩
    · rw [zero] at place
      have positive := ends.1
      rw [← place] at positive
      exact absurd positive (by decide)
    · simpa only [Region.Fits, place] using fits
    · simpa only [place] using ends.2 block member

/-- The sample in two modules: the subclass stands in the first one, its superclass in the second one. -/
def pairModules : List ObjcModuleInfo :=
  [{ compiledPairModule with selStop := some 1, classesStop := some 2 },
    { compiledPairModule with selStart := some 1, classesStart := some 2 }]

/-- The classes, the selectors, the strings, the compiled lists, the modules, the class pointers and an object of the
subclass, word by word. -/
def pairWords : List Nat :=
  [0x1088, 0, 0x1260, 0, 0, 0, 0, 0x1278, 0, 0, 0, 0, 0, 0, 0, 0, 0] ++
  [0, 0, 0x1270, 0, 1, 0, 0, 0x12a8, 0, 0, 0, 0, 0, 0, 0, 0, 0] ++
  [0x1198, 0x1000, 0x1268, 0, 0, 2 ^ 64 - 16, 0, 0, 0, 0, 0, 0, 0, 0, 0, 0, 0] ++
  [0, 0, 0x1270, 0, 1, 0, 0, 0, 0, 0, 0, 0, 0, 0, 0, 0, 0] ++
  [0x1250, 0, 0, 0, 0x1258, 0] ++ [103, 104, 82, 67, 0] ++
  [0, 1, 24, 0x7070, 0x1220, 0] ++ [0, 1, 24, 0x7080, 0x1240, 0] ++
  [0, 0x1220, 0x1230, 0x13e8, 0x13f8, 0, 0, 0, 0, 0, 0, 0, 0, 0, 0, 0, 0] ++
  [0, 0x1230, 0x1250, 0x13f8, 0x1400, 0, 0, 0, 0, 0, 0, 0, 0, 0, 0, 0, 0] ++ [0x1110, 0, 0x1000] ++ [0x1110]

def pairProcess : Process where
  ram a := if a < 0x1000 then 0
    else BitVec.ofNat 8 (pairWords.getD ((a.toNat - 0x1000) / 8) 0 >>> (8 * (a.toNat % 8)))
  blocks := [⟨0x1000, 8 * pairWords.length⟩]
  lists _ := ⟨0, []⟩
  caches _ := []
  nameTable _ := none
  classRegistry := []

def pairPlacement : Placement where
  cls c := BitVec.ofNat 64 (0x1000 + 136 * c)
  classes := 4
  sel s := BitVec.ofNat 64 (0x1220 + 16 * s)
  selectors := 3
  imp i := BitVec.ofNat 64 (0x7000 + 16 * i)

def pairHeap : HeapPlacement where
  cstr i := BitVec.ofNat 64 (0x1250 + 8 * i)
  list _ := 0

theorem pairProcess_realizes : Realizes pairPlacement pairHeap pairProcess compiledPair where
  sound := by decide +kernel
  classes := ⟨rfl, by decide +kernel, by decide +kernel⟩
  selectors := ⟨rfl, by decide +kernel⟩
  strings := ⟨by decide +kernel, by decide +kernel⟩
  lists := ⟨fun _ below => absurd below (Nat.not_lt_zero _), fun _ below => absurd below (Nat.not_lt_zero _)⟩
  tables := ⟨fun _ => rfl, fun _ _ known => absurd known (by simp [compiledPair]), rfl⟩

theorem pairProcess_modules : List.Forall₂ (ModuleAt pairPlacement pairProcess) [0x12d8, 0x1360] pairModules :=
  .cons ⟨by decide +kernel, by decide +kernel, by decide +kernel, by decide +kernel, by decide +kernel⟩
    (.cons ⟨by decide +kernel, by decide +kernel, by decide +kernel, by decide +kernel, by decide +kernel⟩ .nil)

section Programs

variable {image : List ClassPtr} {P : Placement} {H : HeapPlacement} {p : Process} {rt : Runtime} {platform : Platform}
  (allocator : platform.Sound) (enough : P.classes ≤ platform.fuel) (static : StaticImage image rt)
  (rep : Realizes P H p rt) {infos : List Addr} {modules : List ObjcModuleInfo}
  (stand : List.Forall₂ (ModuleAt P p) infos modules)
  (loadable : Loadable image rt (modules.flatMap ObjcModuleInfo.classes))

include allocator enough static rep stand loadable

/-- The loads of any number of modules compute on the bytes of the process what the abstract loads compute: the same
classes, selectors, names, method lists and caches, and the same panics. No other byte of a live block changes. -/
theorem loadModules_refines :
    Refines (· = Stop.outOfMemory) (fun p' rt' => (∃ H', Realizes P H' p' rt') ∧ Keeps P p p')
      (p.loadModules platform infos) (loadModules rt modules) := by
  have start : Loading P image p (modules.flatMap ObjcModuleInfo.classes) p rt :=
    ⟨⟨H, rep⟩, Keeps.refl P p, static.worldInv, fun c _ => (static.untouched c).2.2.2.2, loadable⟩
  exact (start.modules allocator enough rep.sound stand).mono fun _ _ done => ⟨done.realizes, done.keeps⟩

end Programs

/-- The bytes of the sample are those of the loaded sample after the two loads. -/
theorem loadModules_refines_pair : ∃ p' rt', pairProcess.loadModules bumpPlatform [0x12d8, 0x1360] = .ok p' ∧
    loadModules compiledPair pairModules = some rt' ∧ ∃ H', Realizes pairPlacement H' p' rt' := by
  have refines := loadModules_refines bumpPlatform_sound (by decide) compiledPair_static pairProcess_realizes
    pairProcess_modules (by decide)
  have loads : (pairProcess.loadModules bumpPlatform [0x12d8, 0x1360]).isOk = true := by decide +kernel
  cases loaded : pairProcess.loadModules bumpPlatform [0x12d8, 0x1360] with
  | error stop =>
      rw [loaded] at loads
      exact absurd loads Bool.false_ne_true
  | ok p' =>
      rw [loaded] at refines
      obtain ⟨rt', result, realizes, _⟩ := refines.of_ok
      exact ⟨p', rt', rfl, result, realizes⟩

end O3jc
