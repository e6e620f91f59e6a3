import O3jc.Runtime.Process

namespace O3jc

open Library

/-- Where the classes, the selectors and the functions stand. -/
structure Placement where
  cls : ClassPtr → Addr
  classes : Nat
  sel : SEL → Addr
  selectors : Nat
  imp : IMP → Addr

/-- Where the strings and the method lists stand. -/
structure HeapPlacement where
  cstr : CStrPtr → Addr
  list : MethodListPtr → Addr

/-- A pointer is null or the address of something live. -/
def Points (place : Nat → Addr) (live : Nat) (w : Addr) : Option Nat → Prop
  | none => w = 0
  | some i => w = place i ∧ i < live ∧ w ≠ 0

instance (place : Nat → Addr) (live : Nat) (w : Addr) (target : Option Nat) : Decidable (Points place live w target) :=
  match target with
  | none => inferInstanceAs (Decidable (_ = _))
  | some _ => inferInstanceAs (Decidable (_ ∧ _))

theorem Points.eq_zero_iff {place : Nat → Addr} {live : Nat} {w : Addr} {target : Option Nat}
    (points : Points place live w target) : w = 0 ↔ target = none := by
  cases target with
  | none => exact ⟨fun _ => rfl, fun _ => points⟩
  | some i => exact ⟨fun zero => absurd zero points.2.2, fun impossible => absurd impossible (by simp)⟩

theorem Points.grow {place place' : Nat → Addr} {live live' : Nat} {w : Addr} {target : Option Nat}
    (points : Points place live w target) (same : ∀ i < live, place' i = place i) (more : live ≤ live') :
    Points place' live' w target := by
  cases target with
  | none => exact points
  | some i => exact ⟨points.1.trans (same i points.2.1).symm, points.2.1.trans_le more, points.2.2⟩

/-- The region lies in a live block. -/
def InBlocks (blocks : List Region) (r : Region) : Prop := ∃ block ∈ blocks, r.Within block

instance (blocks : List Region) (r : Region) : Decidable (InBlocks blocks r) :=
  inferInstanceAs (Decidable (∃ block ∈ blocks, _))

theorem InBlocks.mono {blocks blocks' : List Region} {r : Region} (live : InBlocks blocks r)
    (kept : ∀ block ∈ blocks, block ∈ blocks') : InBlocks blocks' r := by
  obtain ⟨block, member, inner⟩ := live
  exact ⟨block, kept block member, inner⟩

theorem InBlocks.within {blocks : List Region} {r s : Region} (live : InBlocks blocks r) (inner : s.Within r) :
    InBlocks blocks s := by
  obtain ⟨block, member, outer⟩ := live
  exact ⟨block, member, inner.trans outer⟩

namespace Placement

variable (P : Placement)

def clsRegion (c : ClassPtr) : Region := ⟨P.cls c, ObjcClass.layout.size⟩

def selRegion (s : SEL) : Region := ⟨P.sel s, ObjcSelector.layout.size⟩

/-- The structs stand in live blocks and do not overlap. -/
structure Sound (blocks : List Region) : Prop where
  cls : ∀ c < P.classes, P.cls c ≠ 0 ∧ (P.clsRegion c).Fits ∧ InBlocks blocks (P.clsRegion c)
  sel : ∀ s < P.selectors, P.sel s ≠ 0 ∧ (P.selRegion s).Fits ∧ InBlocks blocks (P.selRegion s)
  clsApart : ∀ c < P.classes, ∀ d < P.classes, c ≠ d → (P.clsRegion c).Apart (P.clsRegion d)
  selApart : ∀ s < P.selectors, ∀ t < P.selectors, s ≠ t → (P.selRegion s).Apart (P.selRegion t)
  clsSelApart : ∀ c < P.classes, ∀ s < P.selectors, (P.clsRegion c).Apart (P.selRegion s)

instance (blocks : List Region) : Decidable (P.Sound blocks) :=
  decidable_of_iff ((∀ c < P.classes, P.cls c ≠ 0 ∧ (P.clsRegion c).Fits ∧ InBlocks blocks (P.clsRegion c)) ∧
      (∀ s < P.selectors, P.sel s ≠ 0 ∧ (P.selRegion s).Fits ∧ InBlocks blocks (P.selRegion s)) ∧
      (∀ c < P.classes, ∀ d < P.classes, c ≠ d → (P.clsRegion c).Apart (P.clsRegion d)) ∧
      (∀ s < P.selectors, ∀ t < P.selectors, s ≠ t → (P.selRegion s).Apart (P.selRegion t)) ∧
      ∀ c < P.classes, ∀ s < P.selectors, (P.clsRegion c).Apart (P.selRegion s))
    ⟨fun ⟨cls, sel, clsApart, selApart, apart⟩ => ⟨cls, sel, clsApart, selApart, apart⟩,
      fun sound => ⟨sound.cls, sound.sel, sound.clsApart, sound.selApart, sound.clsSelApart⟩⟩

/-- The region is live and holds none of the structs. -/
structure Fixed (blocks : List Region) (r : Region) : Prop where
  fits : r.Fits
  live : InBlocks blocks r
  cls : ∀ c < P.classes, r.Apart (P.clsRegion c)
  sel : ∀ s < P.selectors, r.Apart (P.selRegion s)

instance (blocks : List Region) (r : Region) : Decidable (P.Fixed blocks r) :=
  decidable_of_iff (r.Fits ∧ InBlocks blocks r ∧ (∀ c < P.classes, r.Apart (P.clsRegion c)) ∧
      ∀ s < P.selectors, r.Apart (P.selRegion s))
    ⟨fun ⟨fits, live, cls, sel⟩ => ⟨fits, live, cls, sel⟩, fun fixed => ⟨fixed.fits, fixed.live, fixed.cls, fixed.sel⟩⟩

/-- The fields that a load writes. -/
def loadedFields : List ClassField :=
  [.isa, .superClass, .info, .instanceSize, .methodList, .dtable, .subclassList, .siblingClass]

/-- The bytes that a load may write. -/
def Writable (a : Addr) : Prop :=
  (∃ c < P.classes, ∃ f ∈ loadedFields, (ObjcClass.layout.region (P.cls c) f).Has a) ∨
    ∃ s < P.selectors, (ObjcSelector.layout.region (P.sel s) .name).Has a

variable {P} {blocks blocks' : List Region} {r : Region}

theorem Sound.mono (sound : P.Sound blocks) (kept : ∀ block ∈ blocks, block ∈ blocks') : P.Sound blocks' where
  cls c below := ⟨(sound.cls c below).1, (sound.cls c below).2.1, (sound.cls c below).2.2.mono kept⟩
  sel s below := ⟨(sound.sel s below).1, (sound.sel s below).2.1, (sound.sel s below).2.2.mono kept⟩
  clsApart := sound.clsApart
  selApart := sound.selApart
  clsSelApart := sound.clsSelApart

theorem Fixed.mono (fixed : P.Fixed blocks r) (kept : ∀ block ∈ blocks, block ∈ blocks') : P.Fixed blocks' r :=
  { fixed with live := fixed.live.mono kept }

theorem Fixed.within {s : Region} (fixed : P.Fixed blocks r) (inner : s.Within r) : P.Fixed blocks s where
  fits := inner.fits fixed.fits
  live := fixed.live.within inner
  cls c below := (fixed.cls c below).within inner
  sel s below := (fixed.sel s below).within inner

theorem Sound.classField (sound : P.Sound blocks) {c : ClassPtr} (below : c < P.classes) (f : ClassField) :
    (ObjcClass.layout.region (P.cls c) f).Within (P.clsRegion c) :=
  ObjcClass.layout.region_within (sound.cls c below).2.1 f

theorem Sound.selField (sound : P.Sound blocks) {s : SEL} (below : s < P.selectors) (f : SelectorField) :
    (ObjcSelector.layout.region (P.sel s) f).Within (P.selRegion s) :=
  ObjcSelector.layout.region_within (sound.sel s below).2.1 f

/-- No byte of a fixed region is written. -/
theorem Fixed.not_writable (sound : P.Sound blocks) (fixed : P.Fixed blocks r) {a : Addr} (has : r.Has a) :
    ¬ P.Writable a := by
  rintro (⟨c, below, f, _, field⟩ | ⟨s, below, field⟩)
  · exact (fixed.cls c below).not_has has ((sound.classField below f).has field)
  · exact (fixed.sel s below).not_has has ((sound.selField below .name).has field)

end Placement

/-- A part of a load keeps the other live bytes, the live blocks and the objects on the heap. -/
structure Keeps (P : Placement) (p p' : Process) : Prop where
  blocks : ∀ block ∈ p.blocks, block ∈ p'.blocks
  bytes : ∀ a, (∃ block ∈ p.blocks, block.Has a) → ¬ P.Writable a → p'.ram a = p.ram a
  caches : ∀ w, InBlocks p.blocks ⟨w, 1⟩ → p'.caches w = p.caches w
  lists : ∀ w, InBlocks p.blocks ⟨w, 1⟩ → p'.lists w = p.lists w

section Keeping

variable {P : Placement} {p p' p'' : Process} {r : Region}

theorem Keeps.refl (P : Placement) (p : Process) : Keeps P p p :=
  ⟨fun _ member => member, fun _ _ _ => rfl, fun _ _ => rfl, fun _ _ => rfl⟩

theorem Keeps.trans (first : Keeps P p p') (second : Keeps P p' p'') : Keeps P p p'' where
  blocks block member := second.blocks block (first.blocks block member)
  bytes a live outside := by
    obtain ⟨block, member, has⟩ := live
    exact (second.bytes a ⟨block, first.blocks block member, has⟩ outside).trans
      (first.bytes a ⟨block, member, has⟩ outside)
  caches w live := (second.caches w (live.mono first.blocks)).trans (first.caches w live)
  lists w live := (second.lists w (live.mono first.blocks)).trans (first.lists w live)

theorem Keeps.agree (keeps : Keeps P p p') (sound : P.Sound p.blocks) (fixed : P.Fixed p.blocks r) :
    Ram.Agree r p.ram p'.ram := by
  intro a has
  obtain ⟨block, member, inner⟩ := fixed.live
  exact keeps.bytes a ⟨block, member, inner.has has⟩ (fixed.not_writable sound has)

end Keeping

end O3jc
