import O3jc.Loading.Modules

namespace O3jc

open Library

theorem Points.nonNull {place : Nat → Addr} {live : Nat} {w : Addr} {target : Option Nat}
    (points : Points place live w target) : Process.nonNull w = target.map place := by
  cases target with
  | none =>
      have null : w = 0 := points
      rw [null]
      rfl
  | some i =>
      obtain ⟨same, _, nonnull⟩ := points
      rw [Process.nonNull, if_neg nonnull, same]
      rfl

/-- Pointers to distinct places are equal words exactly when they point to the same thing. -/
theorem Points.eq_iff {place : Nat → Addr} {live : Nat} {v w : Addr} {a b : Option Nat} (left : Points place live v a)
    (right : Points place live w b) (own : ∀ i < live, ∀ j < live, place i = place j → i = j) : v = w ↔ a = b := by
  constructor
  · intro same
    subst same
    cases a with
    | none => exact (right.eq_zero_iff.mp left).symm
    | some i =>
        cases b with
        | none => exact absurd right left.2.2
        | some j => rw [own i left.2.1 j right.2.1 (left.1.symm.trans right.1)]
  · intro same
    subst same
    cases a with
    | none => exact Eq.trans left (Eq.symm right)
    | some i => exact left.1.trans right.1.symm

/-- The class memory that a lookup walks through. -/
structure Walkable (P : Placement) (fuel : Nat) (rt : Runtime) : Prop where
  supers : ∀ c < P.classes, Walk rt.superclass (some c) (rt.ancestors c)
  inside : ∀ c < P.classes, ∀ a ∈ rt.ancestors c, a < P.classes
  lists : ChainInv rt
  short : ∀ c < P.classes, (rt.nodesOf c).length ≤ fuel
  converted : ∀ c < P.classes, (rt.classes c).methodList.raw = none

section Lookups

variable {P : Placement} {H : HeapPlacement} {p : Process} {rt : Runtime} {platform : Platform}

theorem Realizes.selEq_eq (rep : Realizes P H p rt) {s t : SEL} (below : s < P.selectors) (below' : t < P.selectors) :
    p.selEq (P.sel s) (P.sel t) = selEq rt s t := by
  have left := (rep.selectors.stands s below).name
  have right := (rep.selectors.stands t below').name
  rw [Process.selEq, selEq, selNamePtr, selNamePtr, Bool.eq_iff_iff, beq_iff_eq, beq_iff_eq]
  exact left.eq_iff right rep.strings.own

theorem Realizes.ancestors_eq (rep : Realizes P H p rt) (walkable : Walkable P platform.fuel rt)
    (enough : P.classes ≤ platform.fuel) {c : ClassPtr} (below : c < P.classes) :
    p.ancestors platform (P.cls c) = (rt.ancestors c).map P.cls := by
  have walk : Walk (fun c => Process.nonNull (p.word ObjcClass.layout c .superClass)) (some (P.cls c))
      ((rt.ancestors c).map P.cls) := (walkable.supers c below).map P.cls fun a member =>
    (rep.classes.stands a (walkable.inside c below a member)).superClass.nonNull
  refine walk.successors_eq ?_
  rw [List.length_map]
  exact ((walkable.supers c below).length_le (walkable.inside c below)).trans enough

/-- The nodes of a class on the heap. -/
theorem Realizes.methodListIter_eq (rep : Realizes P H p rt) (walkable : Walkable P platform.fuel rt) {c : ClassPtr}
    (below : c < P.classes) : p.methodListIter platform (p.word ObjcClass.layout (P.cls c) .methodList) =
      (rt.nodesOf c).map fun l => p.lists (H.list l) := by
  have methods : MethodsAt P H p rt (p.word ObjcClass.layout (P.cls c) .methodList) (rt.classes c).methodList :=
    (rep.classes.stands c below).methodList
  have head : Process.nonNull (p.word ObjcClass.layout (P.cls c) .methodList) =
      (rt.classes c).methodList.head.map H.list := by
    cases field : (rt.classes c).methodList with
    | null =>
        rw [field] at methods
        have null : p.word ObjcClass.layout (P.cls c) .methodList = 0 := methods
        rw [null]
        rfl
    | compiled list =>
        have raw := walkable.converted c below
        rw [field] at raw
        exact absurd raw (by simp [MethodListField.raw])
    | runtime node =>
        rw [field] at methods
        have points : Points H.list rt.nextMethodList (p.word ObjcClass.layout (P.cls c) .methodList) (some node) :=
          methods
        exact points.nonNull
  have walk : Walk (fun list => Process.nonNull (p.lists list).next) ((rt.classes c).methodList.head.map H.list)
      ((rt.nodesOf c).map H.list) := (walkable.lists.complete c).map H.list fun l member =>
    (rep.lists.stands l (walkable.lists.below c l member)).next.nonNull
  rw [Process.methodListIter, head, walk.successors_eq (by rw [List.length_map]; exact walkable.short c below),
    List.map_map]
  rfl

theorem Realizes.entries_eq (rep : Realizes P H p rt) (walkable : Walkable P platform.fuel rt) {c : ClassPtr}
    (below : c < P.classes) :
    List.Forall₂ (EntryAt P H rt.nextCString)
      ((p.methodListIter platform (p.word ObjcClass.layout (P.cls c) .methodList)).flatMap RawList.entries)
      (rt.methodEntries c) := by
  rw [rep.methodListIter_eq walkable below, Runtime.methodEntries_eq, List.flatMap_map]
  have inside := walkable.lists.below c
  generalize rt.nodesOf c = nodes at inside
  induction nodes with
  | nil => exact .nil
  | cons l rest inductionHypothesis =>
      rw [List.flatMap_cons, List.flatMap_cons]
      exact List.rel_append ((rep.lists.stands l (inside l List.mem_cons_self)).entries)
        (inductionHypothesis fun k member => inside k (List.mem_cons_of_mem l member))

/-- A search for a selector finds the same function in the memory. -/
theorem Realizes.ownMethod_eq (rep : Realizes P H p rt) (walkable : Walkable P platform.fuel rt) {c : ClassPtr}
    (below : c < P.classes) {s : SEL} (known : s < P.selectors) :
    (p.ownMethod platform (P.cls c) (P.sel s)).map RawEntry.imp =
      ((rt.ownMethod c s).map MethodEntry.imp).map P.imp := by
  rw [Option.map_map]
  refine find_map_of_forall₂ (fun raw entry stands => ?_) (fun raw entry stands => stands.imp)
    (rep.entries_eq walkable below)
  rw [stands.sel.1, rep.selEq_eq stands.sel.2 known]

/-- The walk along the superclasses in the memory is the walk along the superclasses. -/
theorem Realizes.classLookupMethod_eq (rep : Realizes P H p rt) (walkable : Walkable P platform.fuel rt)
    (enough : P.classes ≤ platform.fuel) {c : ClassPtr} (below : c < P.classes) {s : SEL} (known : s < P.selectors) :
    p.classLookupMethod platform (P.cls c) (P.sel s) = (classLookupMethod rt c s).map P.imp := by
  rw [Process.classLookupMethod, rep.ancestors_eq walkable enough below, List.findSome?_map, classLookupMethod,
    List.map_findSome?]
  refine findSome_congr fun a member => ?_
  exact rep.ownMethod_eq walkable (walkable.inside c below a member) known

/-- The cache that the `dtable` word points to. -/
theorem Realizes.cache_eq (rep : Realizes P H p rt) {c : ClassPtr} (below : c < P.classes) :
    (Process.nonNull (p.word ObjcClass.layout (P.cls c) .dtable)).map p.caches =
      (rt.classes c).dtable.map fun inner => inner.map fun entry => (P.sel entry.sel, P.imp entry.imp) := by
  have cache : CacheAt P p (p.word ObjcClass.layout (P.cls c) .dtable) (rt.classes c).dtable :=
    (rep.classes.stands c below).dtable
  cases field : (rt.classes c).dtable with
  | none =>
      rw [field] at cache
      have null : p.word ObjcClass.layout (P.cls c) .dtable = 0 := cache
      rw [null]
      rfl
  | some inner =>
      rw [field] at cache
      obtain ⟨nonnull, _, _, same⟩ := cache
      rw [Process.nonNull, if_neg nonnull, Option.map_some, Option.map_some, same]

theorem Realizes.cached_known (rep : Realizes P H p rt) {c : ClassPtr} (below : c < P.classes) {inner : CacheInner}
    (cached : (rt.classes c).dtable = some inner) : ∀ entry ∈ inner, entry.sel < P.selectors := by
  have cache : CacheAt P p (p.word ObjcClass.layout (P.cls c) .dtable) (rt.classes c).dtable :=
    (rep.classes.stands c below).dtable
  rw [cached] at cache
  exact cache.2.2.1

theorem Realizes.cacheLookup_eq (rep : Realizes P H p rt) {c : ClassPtr} (below : c < P.classes) {s : SEL}
    (known : s < P.selectors) : p.cacheLookup (P.cls c) (P.sel s) = (rt.cacheLookup c s).map P.imp := by
  have search : p.cacheLookup (P.cls c) (P.sel s) =
      ((Process.nonNull (p.word ObjcClass.layout (P.cls c) .dtable)).map p.caches).bind fun cache =>
        (cache.find? fun entry => p.selEq entry.1 (P.sel s)).map Prod.snd := by
    rw [Option.bind_map]
    rfl
  rw [search, rep.cache_eq below, Runtime.cacheLookup]
  cases cached : (rt.classes c).dtable with
  | none => rfl
  | some inner =>
      rw [Option.map_some, Option.bind_some, Option.bind_some, CacheInner.lookup, List.find?_map, Option.map_map,
        Option.map_map]
      refine congrArg (Option.map _) (List.find?_congr fun entry member => ?_)
      exact rep.selEq_eq (rep.cached_known below cached entry member) known

/-- An insertion into the cache on the heap is an insertion into the cache. -/
theorem Realizes.insertEntry_eq (rep : Realizes P H p rt) {inner : CacheInner}
    (inside : ∀ entry ∈ inner, entry.sel < P.selectors) {s : SEL} (known : s < P.selectors) (imp : IMP) :
    p.insertEntry (inner.map fun entry => (P.sel entry.sel, P.imp entry.imp)) (P.sel s) (P.imp imp) =
      (CacheInner.insert rt inner s imp).map fun entry => (P.sel entry.sel, P.imp entry.imp) := by
  have present : (inner.map fun entry => (P.sel entry.sel, P.imp entry.imp)).any
      (fun entry => p.selEq entry.1 (P.sel s)) = inner.any fun entry => selEq rt entry.sel s := by
    rw [List.any_map, Bool.eq_iff_iff, List.any_eq_true, List.any_eq_true]
    refine exists_congr fun entry => and_congr_right fun member => ?_
    rw [Function.comp, rep.selEq_eq (inside entry member) known]
  rw [Process.insertEntry, CacheInner.insert, present, List.length_map]
  split
  · rfl
  · split
    · rfl
    · rw [List.map_append, List.map_singleton]

theorem MethodsAt.setCaches {w : Addr} {field : MethodListField} (stands : MethodsAt P H p rt w field)
    (caches : Addr → List (Addr × Addr)) : MethodsAt P H { p with caches := caches } rt w field := by
  cases field with
  | null => exact stands
  | compiled list =>
      have compiled : CompiledAt P H p rt.nextCString w list := stands
      exact ⟨compiled.nonnull, compiled.small, compiled.fixed, compiled.count, compiled.entries⟩
  | runtime head => exact stands

theorem StringAt.setCaches {w : Addr} {name : CStr} (stands : StringAt P p w name)
    (caches : Addr → List (Addr × Addr)) : StringAt P { p with caches := caches } w name :=
  ⟨stands.nonnull, stands.fixed, stands.holds⟩

/-- A write to a cache on the heap changes the cache of one class. -/
theorem Realizes.setInner (rep : Realizes P H p rt) {c : ClassPtr} (below : c < P.classes) {inner inner' : CacheInner}
    (cached : (rt.classes c).dtable = some inner) (inside : ∀ entry ∈ inner', entry.sel < P.selectors) :
    Realizes P H { p with
      caches := Function.update p.caches (p.word ObjcClass.layout (P.cls c) .dtable)
        (inner'.map fun entry => (P.sel entry.sel, P.imp entry.imp)) }
      (rt.modifyClass c fun k => { k with dtable := some inner' }) where
  sound := rep.sound
  classes := by
    refine ⟨rep.classes.count, fun d below' => ?_, rep.classes.own⟩
    have stands := rep.classes.stands d below'
    have cache : CacheAt P p (p.word ObjcClass.layout (P.cls c) .dtable) (some inner) :=
      cached ▸ (rep.classes.stands c below).dtable
    by_cases same : d = c
    · subst same
      rw [Runtime.modifyClass_classes_self]
      exact { stands with
        name := stands.name.setCaches _
        methodList := stands.methodList.setCaches _
        dtable := ⟨cache.1, cache.2.1, inside, Function.update_self _ _ _⟩ }
    · rw [Runtime.modifyClass_classes_of_ne _ _ _ same]
      have own := rep.classes.own c below d below' (Ne.symm same) cache.1
      have old := stands.dtable
      have kept : CacheAt P { p with
          caches := Function.update p.caches (p.word ObjcClass.layout (P.cls c) .dtable)
            (inner'.map fun entry => (P.sel entry.sel, P.imp entry.imp)) } (p.classWord P d .dtable)
          (rt.classes d).dtable := by
        cases held : (rt.classes d).dtable with
        | none =>
            rw [held] at old
            exact old
        | some other =>
            rw [held] at old
            exact ⟨old.1, old.2.1, old.2.2.1, (Function.update_of_ne (Ne.symm own) _ _).trans old.2.2.2⟩
      exact { stands with
        name := stands.name.setCaches _
        methodList := stands.methodList.setCaches _
        dtable := kept }
  selectors := { rep.selectors with }
  strings := ⟨fun i below => (rep.strings.stands i below).setCaches _, rep.strings.own⟩
  lists := ⟨fun l below => { rep.lists.stands l below with }, rep.lists.own⟩
  tables := { rep.tables with }

/-- The insertion after a walk fills the cache on the heap as it fills the cache. -/
theorem Realizes.cacheInsert (rep : Realizes P H p rt) {c : ClassPtr} (below : c < P.classes) {s : SEL}
    (known : s < P.selectors) (imp : IMP) :
    Realizes P H (p.cacheInsert (P.cls c) (P.sel s) (P.imp imp)) (rt.cacheInsert c s imp) := by
  have cache : CacheAt P p (p.word ObjcClass.layout (P.cls c) .dtable) (rt.classes c).dtable :=
    (rep.classes.stands c below).dtable
  unfold Process.cacheInsert Runtime.cacheInsert
  cases cached : (rt.classes c).dtable with
  | none =>
      rw [cached] at cache
      have null : p.word ObjcClass.layout (P.cls c) .dtable = 0 := cache
      rw [null, Runtime.modifyClass_of_same]
      · exact rep
      · rw [cached, Option.map_none, ← cached]
  | some inner =>
      rw [cached] at cache
      have write :
          (rt.modifyClass c fun k => { k with dtable := k.dtable.map fun inner => CacheInner.insert rt inner s imp }) =
            rt.modifyClass c fun k => { k with dtable := some (CacheInner.insert rt inner s imp) } := by
        rw [Runtime.modifyClass, Runtime.modifyClass, cached, Option.map_some]
      rw [write, Process.nonNull, if_neg cache.1]
      simp only [cache.2.2.2, rep.insertEntry_eq cache.2.2.1 known imp]
      refine rep.setInner below cached fun entry member => ?_
      rcases mem_insert_cases member with old | rfl
      · exact cache.2.2.1 entry old
      · exact known

theorem Walkable.cacheInsert {fuel : Nat} (walkable : Walkable P fuel rt) (c : ClassPtr) (s : SEL) (imp : IMP) :
    Walkable P fuel (rt.cacheInsert c s imp) := by
  have graph := cacheInsert_sameGraph rt c s imp
  have methods := cacheInsert_sameMethods rt c s imp
  have same := graph.sameClasses methods
  refine ⟨fun d below => ?_, fun d below => ?_, walkable.lists.of_same methods, fun d below => ?_, fun d below => ?_⟩
  · rw [same.superclass, same.ancestors]
    exact walkable.supers d below
  · rw [same.ancestors]
    exact walkable.inside d below
  · rw [methods.nodesOf]
    exact walkable.short d below
  · have field : ((rt.cacheInsert c s imp).classes d).methodList = (rt.classes d).methodList := by
      refine Runtime.modifyClass_proj ObjcClass.methodList rt c ?_ d
      exact fun _ => rfl
    rw [field]
    exact walkable.converted d below

/-- A receiver is null, or a class struct, or an object with its class in the first word. -/
def ReceiverAt (P : Placement) (p : Process) (addr : Addr) : Option ObjcPtr → Prop
  | none => addr = 0
  | some (.classObject c) => addr = P.cls c
  | some (.object c) => addr ≠ 0 ∧ p.ram.load addr 64 = P.cls c

/-- The first word of a receiver that is not null is its class. -/
theorem Realizes.receiver_isa (rep : Realizes P H p rt) {addr : Addr} {receiver : ObjcPtr}
    (stands : ReceiverAt P p addr (some receiver)) {c : ClassPtr} (isa : rt.isaOf receiver = some c)
    (struct : ∀ d, receiver = .classObject d → d < P.classes) : addr ≠ 0 ∧ p.ram.load addr 64 = P.cls c := by
  cases receiver with
  | object d =>
      obtain rfl : d = c := Option.some.inj isa
      exact stands
  | classObject d =>
      have place : addr = P.cls d := stands
      have below := struct d rfl
      have points := (rep.classes.stands d below).isa
      have link : (rt.classes d).isa = some c := isa
      rw [link] at points
      have first : ObjcClass.layout.place (P.cls d) .isa = P.cls d := BitVec.add_zero _
      have word : p.ram.load (ObjcClass.layout.place (P.cls d) .isa) 64 = P.cls c := points.1
      rw [first] at word
      rw [place]
      exact ⟨(rep.sound.cls d below).1, word⟩

/-- A lookup on the bytes is the lookup. It writes nothing but a cache on the heap. -/
theorem Realizes.msgLookup (rep : Realizes P H p rt) (walkable : Walkable P platform.fuel rt)
    (enough : P.classes ≤ platform.fuel) {addr : Addr} {receiver : Option ObjcPtr} (stands : ReceiverAt P p addr receiver)
    (isa : ∀ r ∈ receiver, (∀ d, r = .classObject d → d < P.classes) ∧ ∃ c < P.classes, rt.isaOf r = some c) {s : SEL}
    (known : s < P.selectors) :
    Realizes P H (p.objcMsgLookup platform addr (P.sel s)).1 (objcMsgLookup rt receiver s).1 ∧
      Walkable P platform.fuel (objcMsgLookup rt receiver s).1 ∧
      (p.objcMsgLookup platform addr (P.sel s)).1.ram = p.ram ∧
      (p.objcMsgLookup platform addr (P.sel s)).2 = (objcMsgLookup rt receiver s).2.map P.imp := by
  unfold Process.objcMsgLookup objcMsgLookup
  cases receiver with
  | none =>
      have null : addr = 0 := stands
      rw [if_pos null]
      exact ⟨rep, walkable, rfl, rfl⟩
  | some r =>
      obtain ⟨struct, c, below, isa⟩ := isa r rfl
      obtain ⟨nonnull, word⟩ := rep.receiver_isa stands isa struct
      rw [if_neg nonnull, Option.bind_some]
      simp only [isa, word, rep.cacheLookup_eq below known, rep.classLookupMethod_eq walkable enough below known]
      cases rt.cacheLookup c s with
      | some imp => exact ⟨rep, walkable, rfl, rfl⟩
      | none =>
          cases classLookupMethod rt c s with
          | none => exact ⟨rep, walkable, rfl, rfl⟩
          | some imp =>
              refine ⟨rep.cacheInsert below known imp, walkable.cacheInsert c s imp, ?_, rfl⟩
              change (p.cacheInsert (P.cls c) (P.sel s) (P.imp imp)).ram = p.ram
              unfold Process.cacheInsert
              split <;> rfl

end Lookups

/-- The answers to messages one after the other. Each lookup may fill a cache that a later one reads. -/
def Process.answers (platform : Platform) : Process → List (Addr × Addr) → List (Option Addr)
  | _, [] => []
  | p, (receiver, sel) :: rest =>
      (p.objcMsgLookup platform receiver sel).2 :: answers platform (p.objcMsgLookup platform receiver sel).1 rest

/-- What the source says about a message. -/
def resolveMessage (rt0 : Runtime) : Option ObjcPtr → String → Option IMP
  | none, _ => none
  | some (.object cls), name => resolveInstance rt0 cls name
  | some (.classObject cls), name => resolveClass rt0 cls name

/-- The class of a receiver that is not null. -/
def receiverClass : ObjcPtr → ClassPtr
  | .object cls => cls
  | .classObject cls => cls

/-- A compiled message: its selector is the address of an entry of the modules. -/
structure MessageAt (P : Placement) (image : List ClassPtr) (rt0 : Runtime) (sels : List SEL) (p : Process)
    (send : Addr × Addr) (message : Option ObjcPtr × String) : Prop where
  receiver : ReceiverAt P p send.1 message.1
  inside : ∀ r ∈ message.1, receiverClass r ∈ image
  selector : ∃ s ∈ sels, send.2 = P.sel s ∧ nameOf rt0 s = some message.2

theorem MessageAt.of_ram {P : Placement} {image : List ClassPtr} {rt0 : Runtime} {sels : List SEL} {p p' : Process}
    {send : Addr × Addr} {message : Option ObjcPtr × String} (stands : MessageAt P image rt0 sels p send message)
    (same : p'.ram = p.ram) : MessageAt P image rt0 sels p' send message := by
  refine { stands with receiver := ?_ }
  unfold ReceiverAt
  rw [same]
  exact stands.receiver

section Sends

variable {image : List ClassPtr} {P : Placement} {H : HeapPlacement} {p : Process} {rt0 rt : Runtime} {sels : List SEL}
  {platform : Platform} (linked : Linked image rt0 sels) (classes : rt0.nextClass = P.classes)
  (selectors : rt0.nextSelector = P.selectors) (enough : P.classes ≤ platform.fuel)

include linked classes selectors enough

/-- One message on the bytes gets the answer of the source and keeps dispatch in step. -/
theorem Resolving.message (inv : Resolving image rt0 rt sels) (rep : Realizes P H p rt)
    (walkable : Walkable P platform.fuel rt) {send : Addr × Addr} {message : Option ObjcPtr × String}
    (stands : MessageAt P image rt0 sels p send message) : ∃ rt', Resolving image rt0 rt' sels ∧
      Realizes P H (p.objcMsgLookup platform send.1 send.2).1 rt' ∧ Walkable P platform.fuel rt' ∧
      (p.objcMsgLookup platform send.1 send.2).1.ram = p.ram ∧
      (p.objcMsgLookup platform send.1 send.2).2 = (resolveMessage rt0 message.1 message.2).map P.imp := by
  obtain ⟨addr, sel⟩ := send
  obtain ⟨receiver, name⟩ := message
  obtain ⟨receiverAt, inside, s, member, rfl, source⟩ := stands
  have known : s < P.selectors := selectors ▸ linked.below s member
  have isa : ∀ r ∈ receiver, (∀ d, r = .classObject d → d < P.classes) ∧ ∃ c < P.classes, rt.isaOf r = some c := by
    intro r isReceiver
    have inImage := inside r isReceiver
    have below := (linked.static.cls _ inImage).2
    rw [classes] at below
    cases r with
    | object c => exact ⟨fun d impossible => absurd impossible (by simp), c, below, rfl⟩
    | classObject c =>
        obtain ⟨m, link, metaBelow, _⟩ := linked.static.metaclass c inImage
        refine ⟨fun d same => ?_, m, classes ▸ metaBelow, (inv.isa c inImage).trans link⟩
        rw [← ObjcPtr.classObject.inj same]
        exact below
  have names := inv.fixed.names member source
  obtain ⟨rep', walkable', ram, answer⟩ := rep.msgLookup walkable enough receiverAt isa known
  obtain ⟨messaging, keeps⟩ := (inv.messaging linked).of_msgLookup receiver
    (Nat.lt_of_lt_of_le (linked.below s member) inv.sel.base)
  refine ⟨_, inv.of_keeps linked messaging keeps, rep', walkable', ram, answer.trans (congrArg (Option.map P.imp) ?_)⟩
  cases receiver with
  | none => rfl
  | some r =>
      have inImage := inside r rfl
      cases r with
      | object c => exact (inv.answers_name linked names inImage).1
      | classObject c => exact (inv.answers_name linked names inImage).2

/-- A sequence of messages on the bytes gets the answers of the source. -/
theorem Resolving.messages {p0 : Process} (inv : Resolving image rt0 rt sels) (rep : Realizes P H p rt)
    (walkable : Walkable P platform.fuel rt) (ram : p.ram = p0.ram) {sends : List (Addr × Addr)}
    {messages : List (Option ObjcPtr × String)} (stand : List.Forall₂ (MessageAt P image rt0 sels p0) sends messages) :
    p.answers platform sends = messages.map fun message => (resolveMessage rt0 message.1 message.2).map P.imp := by
  induction stand generalizing p rt with
  | nil => rfl
  | cons first _ inductionHypothesis =>
      obtain ⟨rt', inv', rep', walkable', ram', answer⟩ :=
        inv.message linked classes selectors enough rep walkable (first.of_ram ram)
      rw [Process.answers, List.map_cons, answer, inductionHypothesis inv' rep' walkable' (ram'.trans ram)]

end Sends

/-- After all modules are loaded a lookup may walk from every class. -/
theorem CompiledProgram.walkable {image : List ClassPtr} {P : Placement} {rt0 rt : Runtime}
    {modules : List ObjcModuleInfo} {fuel : Nat} (program : CompiledProgram image rt0 modules)
    (result : loadModules rt0 modules = some rt) (classes : rt0.nextClass = P.classes) (enough : P.classes ≤ fuel) :
    Walkable P fuel rt := by
  obtain ⟨resolving, world, converted, loaded, short⟩ := program.resolving result
  have count : rt.nextClass = P.classes := resolving.nextClass.trans classes
  refine ⟨fun c below => ?_, fun c below a member => ?_, world.chain, fun c below => ?_, fun c below => ?_⟩
  · exact world.graph.ancestors_walk (count ▸ below)
  · refine (world.graph.ancestors_walk (count ▸ below)).forall_mem (· < P.classes) (fun d same => ?_)
      (fun d sup _ link => count ▸ world.graph.superBelow d sup link) a member
    rw [Option.mem_some_iff] at same
    exact same ▸ below
  · have length := short c
    rw [Runtime.chainOf, List.length_map] at length
    exact (length.trans (Nat.zero_lt_of_lt below)).trans enough
  · exact converted c ((loaded c).mpr (classes ▸ below))

theorem pairModules_program : CompiledProgram [0, 2] compiledPair pairModules where
  static := compiledPair_static
  listed := by
    have words : pairModules.map ObjcModuleInfo.classes = [[some 2, none], [some 0]] := by decide
    rw [words]
    refine ⟨by decide, fun c => ?_⟩
    simp [List.reduceOption]
    tauto
  tables _ := ⟨rfl, rfl⟩
  selectors := compiledPair_module.selectors
  apart := by decide
  methods := compiledPair_module.methods

section Programs

variable {image : List ClassPtr} {P : Placement} {H : HeapPlacement} {p : Process} {rt0 : Runtime} {platform : Platform}
  {infos : List Addr} {modules : List ObjcModuleInfo}

/-- Loading the modules of a program and sending its messages implements, on the bytes of the process, method resolution
by source names: a superclass, a method and a use of a selector may stand in different modules. -/
theorem loadedMessages_resolve (allocator : platform.Sound) (enough : P.classes ≤ platform.fuel)
    (program : CompiledProgram image rt0 modules) (rep : Realizes P H p rt0)
    (stand : List.Forall₂ (ModuleAt P p) infos modules) :
    ((∀ c ∈ image, (rt0.classes c).name.toStr.isSome = true) → ∀ stop, p.loadModules platform infos = .error stop →
      stop = .outOfMemory) ∧
    ∀ p', p.loadModules platform infos = .ok p' → ∀ sends messages,
      List.Forall₂ (MessageAt P image rt0 (modules.flatMap ObjcModuleInfo.selectorsMut) p') sends messages →
      p'.answers platform sends = messages.map fun message => (resolveMessage rt0 message.1 message.2).map P.imp := by
  have start : Loading P image p (modules.flatMap ObjcModuleInfo.classes) p rt0 := by
    refine ⟨⟨H, rep⟩, Keeps.refl P p, program.static.worldInv, fun c _ => (program.static.untouched c).2.2.2.2, ?_⟩
    exact program.linking.loadable
  have refines := start.modules allocator enough rep.sound stand
  constructor
  · intro named stop failed
    obtain ⟨rt, result⟩ := Option.isSome_iff_exists.mp ((program.links [] modules rfl program.linking).1 named)
    rw [failed, result] at refines
    cases refines with
    | lacks lacking => exact lacking
  · intro p' result sends messages stand'
    rw [result] at refines
    obtain ⟨rt, loaded, done⟩ := refines.of_ok
    obtain ⟨H', rep'⟩ := done.realizes
    exact (program.resolving loaded).1.messages program.linked rep.classes.count rep.selectors.count enough rep'
      (program.walkable loaded rep.classes.count enough) rfl stand'
end Programs

/-- An object of the subclass gets the inherited method, its class object the inherited class method, null nothing. -/
theorem loadedMessages_resolve_pair : ∃ p', pairProcess.loadModules bumpPlatform [0x12d8, 0x1360] = .ok p' ∧
    p'.answers bumpPlatform [(0x1400, 0x1220), (0x1110, 0x1240), (0, 0x1220), (0x1400, 0x1220)] =
      [some 0x7070, some 0x7080, none, some 0x7070] := by
  have resolves := (loadedMessages_resolve bumpPlatform_sound (by decide) pairModules_program pairProcess_realizes
    pairProcess_modules).2
  have loads : (match pairProcess.loadModules bumpPlatform [0x12d8, 0x1360] with
      | .ok p' => p'.ram.load 0x1400 64 == 0x1110
      | .error _ => false) = true := by decide +kernel
  cases loaded : pairProcess.loadModules bumpPlatform [0x12d8, 0x1360] with
  | error stop =>
      rw [loaded] at loads
      exact absurd loads Bool.false_ne_true
  | ok p' =>
      rw [loaded] at loads
      have onObject : MessageAt pairPlacement [0, 2] compiledPair (pairModules.flatMap ObjcModuleInfo.selectorsMut) p'
          (0x1400, 0x1220) (some (.object 2), "g") :=
        ⟨⟨by decide, beq_iff_eq.mp loads⟩, by simp [receiverClass], 0, by decide, rfl, by decide +kernel⟩
      have onClass : MessageAt pairPlacement [0, 2] compiledPair (pairModules.flatMap ObjcModuleInfo.selectorsMut) p'
          (0x1110, 0x1240) (some (.classObject 2), "h") :=
        ⟨rfl, by simp [receiverClass], 2, by decide, rfl, by decide +kernel⟩
      have onNull : MessageAt pairPlacement [0, 2] compiledPair (pairModules.flatMap ObjcModuleInfo.selectorsMut) p'
          (0, 0x1220) (none, "g") := ⟨rfl, by simp, 0, by decide, rfl, by decide +kernel⟩
      refine ⟨p', rfl, ?_⟩
      rw [resolves p' loaded _ _ (.cons onObject (.cons onClass (.cons onNull (.cons onObject .nil))))]
      decide +kernel

end O3jc
