import O3jc.Loading.Placement
import O3jc.Dispatch.Frame

namespace O3jc

open Library

/-- A null-terminated string stands where no load writes. -/
structure StringAt (P : Placement) (p : Process) (w : Addr) (name : CStr) : Prop where
  nonnull : w ≠ 0
  fixed : P.Fixed p.blocks ⟨w, (Process.cStringBytes name).length⟩
  holds : p.ram.Holds w (Process.cStringBytes name)

instance (P : Placement) (p : Process) (w : Addr) (name : CStr) : Decidable (StringAt P p w name) :=
  decidable_of_iff (w ≠ 0 ∧ P.Fixed p.blocks ⟨w, (Process.cStringBytes name).length⟩ ∧
      ∀ i, ∀ inside : i < (Process.cStringBytes name).length,
        p.ram (w + BitVec.ofNat 64 i) = (Process.cStringBytes name)[i])
    ⟨fun ⟨nonnull, fixed, holds⟩ => ⟨nonnull, fixed, holds⟩,
      fun stands => ⟨stands.nonnull, stands.fixed, stands.holds⟩⟩

/-- The words of a method entry. -/
structure EntryAt (P : Placement) (H : HeapPlacement) (strings : Nat) (raw : RawEntry) (entry : MethodEntry) : Prop where
  imp : raw.imp = P.imp entry.imp
  sel : raw.sel = P.sel entry.sel ∧ entry.sel < P.selectors
  types : Points H.cstr strings raw.types entry.types

instance (P : Placement) (H : HeapPlacement) (strings : Nat) (raw : RawEntry) (entry : MethodEntry) :
    Decidable (EntryAt P H strings raw entry) :=
  decidable_of_iff (raw.imp = P.imp entry.imp ∧ (raw.sel = P.sel entry.sel ∧ entry.sel < P.selectors) ∧
      Points H.cstr strings raw.types entry.types)
    ⟨fun ⟨imp, sel, types⟩ => ⟨imp, sel, types⟩, fun stands => ⟨stands.imp, stands.sel, stands.types⟩⟩

/-- The runtime entries of a compiled list. -/
def CompiledMethodList.converted (list : CompiledMethodList) : List MethodEntry :=
  list.entries.map fun ce => ⟨ce.imp, ce.sel, ce.types⟩

/-- A compiled list with its inline entries stands where no load writes. -/
structure CompiledAt (P : Placement) (H : HeapPlacement) (p : Process) (strings : Nat) (w : Addr)
    (list : CompiledMethodList) : Prop where
  nonnull : w ≠ 0
  small : list.count < 2 ^ 31
  fixed : P.Fixed p.blocks ⟨w, CompiledMethodList.layout.size + CompiledMethodEntry.layout.size * list.count⟩
  count : p.ram.load (CompiledMethodList.layout.place w .count) 32 = BitVec.ofNat 32 list.count
  entries : List.Forall₂ (EntryAt P H strings) (p.inlineEntries w list.count) list.converted

instance (P : Placement) (H : HeapPlacement) (p : Process) (strings : Nat) (w : Addr) (list : CompiledMethodList) :
    Decidable (CompiledAt P H p strings w list) :=
  decidable_of_iff (w ≠ 0 ∧ list.count < 2 ^ 31 ∧
      P.Fixed p.blocks ⟨w, CompiledMethodList.layout.size + CompiledMethodEntry.layout.size * list.count⟩ ∧
      p.ram.load (CompiledMethodList.layout.place w .count) 32 = BitVec.ofNat 32 list.count ∧
      List.Forall₂ (EntryAt P H strings) (p.inlineEntries w list.count) list.converted)
    ⟨fun ⟨nonnull, small, fixed, count, entries⟩ => ⟨nonnull, small, fixed, count, entries⟩,
      fun stands => ⟨stands.nonnull, stands.small, stands.fixed, stands.count, stands.entries⟩⟩

/-- The method-list field is null or points to a compiled list or to a node of the runtime. -/
def MethodsAt (P : Placement) (H : HeapPlacement) (p : Process) (rt : Runtime) (w : Addr) : MethodListField → Prop
  | .null => w = 0
  | .compiled list => CompiledAt P H p rt.nextCString w list
  | .runtime head => Points H.list rt.nextMethodList w (some head)

instance (P : Placement) (H : HeapPlacement) (p : Process) (rt : Runtime) (w : Addr) (field : MethodListField) :
    Decidable (MethodsAt P H p rt w field) :=
  match field with
  | .null => inferInstanceAs (Decidable (w = 0))
  | .compiled list => inferInstanceAs (Decidable (CompiledAt P H p rt.nextCString w list))
  | .runtime head => inferInstanceAs (Decidable (Points H.list rt.nextMethodList w (some head)))

/-- The `dtable` field is null or points to a cache. -/
def CacheAt (P : Placement) (p : Process) (w : Addr) : Option CacheInner → Prop
  | none => w = 0
  | some inner => w ≠ 0 ∧ InBlocks p.blocks ⟨w, 1⟩ ∧ (∀ entry ∈ inner, entry.sel < P.selectors) ∧
      p.caches w = inner.map fun entry => (P.sel entry.sel, P.imp entry.imp)

instance (P : Placement) (p : Process) (w : Addr) (cache : Option CacheInner) : Decidable (CacheAt P p w cache) :=
  match cache with
  | none => inferInstanceAs (Decidable (w = 0))
  | some _ => inferInstanceAs (Decidable (_ ∧ _))

/-- The words of a class struct. -/
structure ClassAt (P : Placement) (H : HeapPlacement) (p : Process) (rt : Runtime) (word : ClassField → Addr)
    (cls : ObjcClass) : Prop where
  isa : Points P.cls P.classes (word .isa) cls.isa
  superClass : Points P.cls P.classes (word .superClass) cls.superClass
  name : StringAt P p (word .name) cls.name
  info : word .info = cls.info
  instanceSize : word .instanceSize = cls.instanceSize.toBitVec
  methodList : MethodsAt P H p rt (word .methodList) cls.methodList
  dtable : CacheAt P p (word .dtable) cls.dtable
  subclassList : Points P.cls P.classes (word .subclassList) cls.subclassList
  siblingClass : Points P.cls P.classes (word .siblingClass) cls.siblingClass

instance (P : Placement) (H : HeapPlacement) (p : Process) (rt : Runtime) (word : ClassField → Addr) (cls : ObjcClass) :
    Decidable (ClassAt P H p rt word cls) :=
  decidable_of_iff (Points P.cls P.classes (word .isa) cls.isa ∧ Points P.cls P.classes (word .superClass) cls.superClass ∧
      StringAt P p (word .name) cls.name ∧ word .info = cls.info ∧
      word .instanceSize = cls.instanceSize.toBitVec ∧ MethodsAt P H p rt (word .methodList) cls.methodList ∧
      CacheAt P p (word .dtable) cls.dtable ∧ Points P.cls P.classes (word .subclassList) cls.subclassList ∧
      Points P.cls P.classes (word .siblingClass) cls.siblingClass)
    ⟨fun ⟨isa, superClass, name, info, size, methods, cache, head, next⟩ =>
        ⟨isa, superClass, name, info, size, methods, cache, head, next⟩,
      fun stands => ⟨stands.isa, stands.superClass, stands.name, stands.info, stands.instanceSize, stands.methodList,
        stands.dtable, stands.subclassList, stands.siblingClass⟩⟩

/-- A node of a method list on the heap. -/
structure ListAt (P : Placement) (H : HeapPlacement) (p : Process) (rt : Runtime) (w : Addr) (list : MethodList) :
    Prop where
  nonnull : w ≠ 0
  live : InBlocks p.blocks ⟨w, 1⟩
  next : Points H.list rt.nextMethodList (p.lists w).next list.next
  entries : List.Forall₂ (EntryAt P H rt.nextCString) (p.lists w).entries list.entries.items

/-- The words of a selector. -/
structure SelectorAt (H : HeapPlacement) (strings : Nat) (word : SelectorField → Addr) (sel : ObjcSelector) : Prop where
  name : Points H.cstr strings (word .name) sel.name
  types : Points H.cstr strings (word .types) sel.types

instance (H : HeapPlacement) (strings : Nat) (word : SelectorField → Addr) (sel : ObjcSelector) :
    Decidable (SelectorAt H strings word sel) :=
  decidable_of_iff (Points H.cstr strings (word .name) sel.name ∧ Points H.cstr strings (word .types) sel.types)
    ⟨fun ⟨name, types⟩ => ⟨name, types⟩, fun stands => ⟨stands.name, stands.types⟩⟩

def Process.classWord (p : Process) (P : Placement) (c : ClassPtr) (f : ClassField) : Addr :=
  p.word ObjcClass.layout (P.cls c) f

def Process.selWord (p : Process) (P : Placement) (s : SEL) (f : SelectorField) : Addr :=
  p.word ObjcSelector.layout (P.sel s) f

structure ClassesAt (P : Placement) (H : HeapPlacement) (p : Process) (rt : Runtime) : Prop where
  count : rt.nextClass = P.classes
  stands : ∀ c < P.classes, ClassAt P H p rt (p.classWord P c) (rt.classes c)
  /-- No two classes share a cache. -/
  own : ∀ c < P.classes, ∀ d < P.classes, c ≠ d → p.classWord P c .dtable ≠ 0 →
    p.classWord P c .dtable ≠ p.classWord P d .dtable

structure SelectorsAt (P : Placement) (H : HeapPlacement) (p : Process) (rt : Runtime) : Prop where
  count : rt.nextSelector = P.selectors
  stands : ∀ s < P.selectors, SelectorAt H rt.nextCString (p.selWord P s) (rt.selectors s)

structure StringsAt (P : Placement) (H : HeapPlacement) (p : Process) (rt : Runtime) : Prop where
  stands : ∀ i < rt.nextCString, StringAt P p (H.cstr i) (rt.cStrings i)
  own : ∀ i < rt.nextCString, ∀ j < rt.nextCString, H.cstr i = H.cstr j → i = j

structure ListsAt (P : Placement) (H : HeapPlacement) (p : Process) (rt : Runtime) : Prop where
  stands : ∀ l < rt.nextMethodList, ListAt P H p rt (H.list l) (rt.methodLists l)
  own : ∀ l < rt.nextMethodList, ∀ k < rt.nextMethodList, H.list l = H.list k → l = k

structure TablesAt (P : Placement) (H : HeapPlacement) (p : Process) (rt : Runtime) : Prop where
  names : ∀ name, p.nameTable name = (rt.nameTable name).map H.cstr
  live : ∀ name, ∀ i ∈ rt.nameTable name, i < rt.nextCString
  registry : p.classRegistry = rt.classRegistry.map fun entry => (entry.1, P.cls entry.2)

/-- The bytes of the process stand for the runtime. -/
structure Realizes (P : Placement) (H : HeapPlacement) (p : Process) (rt : Runtime) : Prop where
  sound : P.Sound p.blocks
  classes : ClassesAt P H p rt
  selectors : SelectorsAt P H p rt
  strings : StringsAt P H p rt
  lists : ListsAt P H p rt
  tables : TablesAt P H p rt

/-- The heap of a later state has what the earlier one has. -/
structure Grown (P : Placement) (H H' : HeapPlacement) (p p' : Process) (rt rt' : Runtime) : Prop where
  keeps : Keeps P p p'
  strings : rt.nextCString ≤ rt'.nextCString
  lists : rt.nextMethodList ≤ rt'.nextMethodList
  cstr : ∀ i < rt.nextCString, H'.cstr i = H.cstr i
  list : ∀ l < rt.nextMethodList, H'.list l = H.list l

section Carrying

variable {P : Placement} {H H' : HeapPlacement} {p p' : Process} {rt rt' : Runtime} {w : Addr}

theorem StringAt.kept {name : CStr} (stands : StringAt P p w name) (sound : P.Sound p.blocks) (keeps : Keeps P p p') :
    StringAt P p' w name where
  nonnull := stands.nonnull
  fixed := stands.fixed.mono keeps.blocks
  holds := (keeps.agree sound stands.fixed).holds stands.fixed.fits stands.holds

/-- The string is what the scan for the null reads. -/
theorem untilNul_of_holds {mem : Ram} {bytes : List UInt8} {a : Addr} {fuel : Nat}
    (holds : mem.Holds a (bytes.map UInt8.toBitVec ++ [0])) (clean : 0 ∉ bytes) (fits : bytes.length < fuel) :
    Process.untilNul mem fuel a = bytes := by
  induction bytes generalizing a fuel with
  | nil =>
      obtain ⟨fuel, rfl⟩ := Nat.exists_eq_add_of_lt fits
      have first := holds 0 (by simp)
      simp only [BitVec.ofNat_eq_ofNat, BitVec.add_zero, List.map_nil, List.nil_append, List.getElem_cons_zero] at first
      simp [Process.untilNul, first]
  | cons byte rest inductionHypothesis =>
      obtain ⟨fuel, rfl⟩ : ∃ n, fuel = n + 1 := ⟨fuel - 1, by simp at fits; omega⟩
      have first : mem a = byte.toBitVec := by
        have head := holds 0 (by simp)
        simpa using head
      have tail : mem.Holds (a + 1) (rest.map UInt8.toBitVec ++ [0]) := by
        intro i inside
        have next := holds (i + 1) (by simpa using inside)
        rw [BitVec.add_assoc, show (1 : BitVec 64) + BitVec.ofNat 64 i = BitVec.ofNat 64 (i + 1) by
          rw [Nat.add_comm, BitVec.ofNat_add]; rfl, next]
        rfl
      have nonzero : byte.toBitVec ≠ 0 := fun zero => clean (by
        rw [show byte = 0 from UInt8.toBitVec_inj.mp zero]
        exact List.mem_cons_self)
      rw [Process.untilNul, first, if_neg nonzero, UInt8.ofBitVec_toBitVec,
        inductionHypothesis tail (fun member => clean (List.mem_cons_of_mem _ member)) (by simpa using fits)]

theorem StringAt.cStr {name : CStr} (stands : StringAt P p w name) : p.cStr w = name := by
  have fits := stands.fixed.fits
  refine CStr.bytes_injective (ByteArray.ext (Array.toList_inj.mp ?_))
  refine untilNul_of_holds stands.holds name.noNul ?_
  simp only [Region.Fits, Process.cStringBytes, List.length_append, List.length_map, List.length_singleton] at fits
  unfold addressSpace
  omega

/-- The inline entries stand in the region of the compiled list. -/
theorem inlineEntries_of_agree {count : Nat}
    (agree : Ram.Agree ⟨w, CompiledMethodList.layout.size + CompiledMethodEntry.layout.size * count⟩ p.ram p'.ram)
    (fits : (⟨w, CompiledMethodList.layout.size + CompiledMethodEntry.layout.size * count⟩ : Region).Fits) :
    p'.inlineEntries w count = p.inlineEntries w count := by
  refine List.map_congr_left fun i member => ?_
  have inside : i < count := List.mem_range.mp member
  have tail := Region.tail_within fits (Nat.mul_pos (by decide) (Nat.zero_lt_of_lt inside))
  have element := Region.element_within (tail.fits fits) (by decide) inside
  have entryFits := (element.trans tail).fits fits
  have same : ∀ f, p'.word CompiledMethodEntry.layout _ f = p.word CompiledMethodEntry.layout _ f := fun f =>
    have field := CompiledMethodEntry.layout.region_within entryFits f
    (agree.within ((field.trans element).trans tail)).load (field.fits entryFits) (by decide) (by decide)
  simp only [Process.compiledEntry, same]

theorem EntryAt.grow {strings strings' : Nat} {raw : RawEntry} {entry : MethodEntry}
    (stands : EntryAt P H strings raw entry) (same : ∀ i < strings, H'.cstr i = H.cstr i) (more : strings ≤ strings') :
    EntryAt P H' strings' raw entry :=
  ⟨stands.imp, stands.sel, stands.types.grow same more⟩

theorem CompiledAt.grow {list : CompiledMethodList} (stands : CompiledAt P H p rt.nextCString w list)
    (sound : P.Sound p.blocks) (grown : Grown P H H' p p' rt rt') : CompiledAt P H' p' rt'.nextCString w list where
  nonnull := stands.nonnull
  small := stands.small
  fixed := stands.fixed.mono grown.keeps.blocks
  count := by
    have agree := grown.keeps.agree sound stands.fixed
    have header : (⟨w, CompiledMethodList.layout.size⟩ : Region).Within
        ⟨w, CompiledMethodList.layout.size + CompiledMethodEntry.layout.size * list.count⟩ :=
      ⟨Nat.le_refl _, Nat.add_le_add_left (Nat.le_add_right _ _) _⟩
    have field := CompiledMethodList.layout.region_within (header.fits stands.fixed.fits) .count
    exact ((agree.within (field.trans header)).load ((field.trans header).fits stands.fixed.fits) (by decide)
      (by decide)).trans stands.count
  entries := by
    rw [inlineEntries_of_agree (grown.keeps.agree sound stands.fixed) stands.fixed.fits]
    exact stands.entries.imp fun _ _ entry => entry.grow grown.cstr grown.strings

theorem MethodsAt.grow {field : MethodListField} (stands : MethodsAt P H p rt w field) (sound : P.Sound p.blocks)
    (grown : Grown P H H' p p' rt rt') : MethodsAt P H' p' rt' w field := by
  cases field with
  | null => exact stands
  | compiled list => exact CompiledAt.grow stands sound grown
  | runtime head =>
      have points : Points H.list rt.nextMethodList w (some head) := stands
      exact points.grow grown.list grown.lists

theorem CacheAt.kept {cache : Option CacheInner} (stands : CacheAt P p w cache) (keeps : Keeps P p p') :
    CacheAt P p' w cache := by
  cases cache with
  | none => exact stands
  | some inner =>
      obtain ⟨nonnull, live, sels, same⟩ := stands
      exact ⟨nonnull, live.mono keeps.blocks, sels, (keeps.caches w live).trans same⟩

theorem CacheAt.eq_zero_iff {cache : Option CacheInner} (stands : CacheAt P p w cache) : w = 0 ↔ cache = none := by
  cases cache with
  | none => exact ⟨fun _ => rfl, fun _ => stands⟩
  | some inner => exact ⟨fun zero => absurd zero stands.1, fun impossible => absurd impossible (by simp)⟩

theorem ClassAt.grow {word : ClassField → Addr} {cls : ObjcClass} (stands : ClassAt P H p rt word cls)
    (sound : P.Sound p.blocks) (grown : Grown P H H' p p' rt rt') : ClassAt P H' p' rt' word cls where
  isa := stands.isa
  superClass := stands.superClass
  name := stands.name.kept sound grown.keeps
  info := stands.info
  instanceSize := stands.instanceSize
  methodList := stands.methodList.grow sound grown
  dtable := stands.dtable.kept grown.keeps
  subclassList := stands.subclassList
  siblingClass := stands.siblingClass

theorem ListAt.grow {list : MethodList} (stands : ListAt P H p rt w list) (grown : Grown P H H' p p' rt rt') :
    ListAt P H' p' rt' w list where
  nonnull := stands.nonnull
  live := stands.live.mono grown.keeps.blocks
  next := by
    rw [grown.keeps.lists w stands.live]
    exact stands.next.grow grown.list grown.lists
  entries := by
    rw [grown.keeps.lists w stands.live]
    exact stands.entries.imp fun _ _ entry => entry.grow grown.cstr grown.strings

theorem SelectorAt.grow {word : SelectorField → Addr} {sel : ObjcSelector}
    (stands : SelectorAt H rt.nextCString word sel) (grown : Grown P H H' p p' rt rt') :
    SelectorAt H' rt'.nextCString word sel :=
  ⟨stands.name.grow grown.cstr grown.strings, stands.types.grow grown.cstr grown.strings⟩

theorem ClassesAt.grow (stands : ClassesAt P H p rt) (sound : P.Sound p.blocks) (grown : Grown P H H' p p' rt rt')
    (words : ∀ c < P.classes, p'.classWord P c = p.classWord P c) (same : rt'.classes = rt.classes)
    (count : rt'.nextClass = rt.nextClass) : ClassesAt P H' p' rt' where
  count := count.trans stands.count
  stands c below := by
    rw [words c below, same]
    exact (stands.stands c below).grow sound grown
  own c below d below' := by
    rw [words c below, words d below']
    exact stands.own c below d below'

theorem SelectorsAt.grow (stands : SelectorsAt P H p rt) (grown : Grown P H H' p p' rt rt')
    (words : ∀ s < P.selectors, p'.selWord P s = p.selWord P s) (same : rt'.selectors = rt.selectors)
    (count : rt'.nextSelector = rt.nextSelector) : SelectorsAt P H' p' rt' where
  count := count.trans stands.count
  stands s below := by
    rw [words s below, same]
    exact (stands.stands s below).grow grown

theorem StringsAt.grow (stands : StringsAt P H p rt) (sound : P.Sound p.blocks) (grown : Grown P H H' p p' rt rt')
    (same : rt'.cStrings = rt.cStrings) (count : rt'.nextCString = rt.nextCString) : StringsAt P H' p' rt' where
  stands i below := by
    rw [count] at below
    rw [grown.cstr i below, same]
    exact (stands.stands i below).kept sound grown.keeps
  own i below j below' := by
    rw [count] at below below'
    rw [grown.cstr i below, grown.cstr j below']
    exact stands.own i below j below'

theorem ListsAt.grow (stands : ListsAt P H p rt) (grown : Grown P H H' p p' rt rt')
    (same : rt'.methodLists = rt.methodLists) (count : rt'.nextMethodList = rt.nextMethodList) :
    ListsAt P H' p' rt' where
  stands l below := by
    rw [count] at below
    rw [grown.list l below, same]
    exact (stands.stands l below).grow grown
  own l below k below' := by
    rw [count] at below below'
    rw [grown.list l below, grown.list k below']
    exact stands.own l below k below'

theorem TablesAt.grow (stands : TablesAt P H p rt) (grown : Grown P H H' p p' rt rt')
    (names : p'.nameTable = p.nameTable) (same : rt'.nameTable = rt.nameTable)
    (classes : p'.classRegistry = p.classRegistry) (registry : rt'.classRegistry = rt.classRegistry) :
    TablesAt P H' p' rt' where
  names name := by
    rw [names, same, stands.names]
    cases known : rt.nameTable name with
    | none => rfl
    | some i => exact congrArg some (grown.cstr i (stands.live name i known)).symm
  live name i known := by
    rw [same] at known
    exact (stands.live name i known).trans_le grown.strings
  registry := by rw [classes, registry, stands.registry]

end Carrying

end O3jc
