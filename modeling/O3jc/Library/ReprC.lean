import O3jc.Library.Amd64
import Mathlib.Order.Nat

namespace O3jc.Library

/-- The least multiple of the alignment from a place on. -/
def alignUp (place align : Nat) : Nat := (place + (align - 1)) / align * align

theorem le_alignUp {place align : Nat} (positive : 0 < align) : place ≤ alignUp place align := by
  have split := Nat.div_add_mod (place + (align - 1)) align
  have small := Nat.mod_lt (place + (align - 1)) positive
  rw [Nat.mul_comm] at split
  unfold alignUp
  omega

/-- The scalar fields of a `repr(C)` struct in the order of its declaration, each aligned to its size. -/
structure ReprC (F : Type) where
  fields : List F
  width : F → Nat
  complete : ∀ f, f ∈ fields
  positive : ∀ f, 0 < width f

namespace ReprC

variable {F : Type}

/-- The place after the last field. -/
def stopFrom (width : F → Nat) : Nat → List F → Nat
  | place, [] => place
  | place, g :: rest => stopFrom width (alignUp place (width g) + width g) rest

/-- The size is padded to the alignment of the widest field. -/
def size (struct : ReprC F) : Nat :=
  alignUp (stopFrom struct.width 0 struct.fields) ((struct.fields.map struct.width).foldr max 1)

theorem le_stopFrom {width : F → Nat} (positive : ∀ f, 0 < width f) (fields : List F) (place : Nat) :
    place ≤ stopFrom width place fields := by
  induction fields generalizing place with
  | nil => exact Nat.le_refl place
  | cons g rest inductionHypothesis =>
      have aligned : place ≤ alignUp place (width g) := le_alignUp (positive g)
      have later := inductionHypothesis (alignUp place (width g) + width g)
      rw [stopFrom]
      omega

variable [DecidableEq F]

/-- A field follows the fields before it at the next aligned place. -/
def offsetFrom (width : F → Nat) : Nat → List F → F → Nat
  | place, [], _ => place
  | place, g :: rest, f =>
      if f = g then alignUp place (width g) else offsetFrom width (alignUp place (width g) + width g) rest f

def offset (struct : ReprC F) (f : F) : Nat := offsetFrom struct.width 0 struct.fields f

section Places

variable {width : F → Nat} (positive : ∀ f, 0 < width f)

include positive

theorem le_offsetFrom (fields : List F) (place : Nat) (f : F) : place ≤ offsetFrom width place fields f := by
  induction fields generalizing place with
  | nil => exact Nat.le_refl place
  | cons g rest inductionHypothesis =>
      have aligned : place ≤ alignUp place (width g) := le_alignUp (positive g)
      rw [offsetFrom]
      split
      · exact aligned
      · have later := inductionHypothesis (alignUp place (width g) + width g)
        omega

theorem offsetFrom_stop {fields : List F} {f : F} (member : f ∈ fields) (place : Nat) :
    offsetFrom width place fields f + width f ≤ stopFrom width place fields := by
  induction fields generalizing place with
  | nil => exact absurd member List.not_mem_nil
  | cons g rest inductionHypothesis =>
      rw [offsetFrom, stopFrom]
      split
      · rename_i same
        subst same
        exact le_stopFrom positive rest _
      · rename_i different
        exact inductionHypothesis (List.mem_of_ne_of_mem different member) _

/-- The earlier of two fields ends before the later one starts. -/
theorem offsetFrom_apart {fields : List F} {f g : F} (different : f ≠ g) (member : f ∈ fields) (member' : g ∈ fields)
    (place : Nat) : offsetFrom width place fields f + width f ≤ offsetFrom width place fields g ∨
      offsetFrom width place fields g + width g ≤ offsetFrom width place fields f := by
  induction fields generalizing place with
  | nil => exact absurd member List.not_mem_nil
  | cons h rest inductionHypothesis =>
      have after := fun k => le_offsetFrom positive rest (alignUp place (width h) + width h) k
      rw [offsetFrom, offsetFrom]
      by_cases first : f = h
      · subst first
        rw [if_pos rfl, if_neg different.symm]
        exact Or.inl (after g)
      · rw [if_neg first]
        by_cases second : g = h
        · subst second
          rw [if_pos rfl]
          exact Or.inr (after f)
        · rw [if_neg second]
          exact inductionHypothesis (List.mem_of_ne_of_mem first member) (List.mem_of_ne_of_mem second member') _

end Places

variable (struct : ReprC F)

theorem offset_inside (f : F) : struct.offset f + struct.width f ≤ struct.size := by
  have widest : 0 < (struct.fields.map struct.width).foldr max 1 := by
    induction struct.fields.map struct.width with
    | nil => exact Nat.one_pos
    | cons _ _ inductionHypothesis => exact Nat.lt_of_lt_of_le inductionHypothesis (Nat.le_max_right _ _)
  exact (offsetFrom_stop struct.positive (struct.complete f) 0).trans (le_alignUp widest)

theorem offset_apart {f g : F} (different : f ≠ g) : struct.offset f + struct.width f ≤ struct.offset g ∨
    struct.offset g + struct.width g ≤ struct.offset f :=
  offsetFrom_apart struct.positive different (struct.complete f) (struct.complete g) 0

end ReprC

/-- A part of the address space. -/
structure Region where
  base : BitVec 64
  size : Nat
deriving DecidableEq

namespace Region

/-- The region ends inside the address space. -/
def Fits (r : Region) : Prop := r.base.toNat + r.size ≤ 2 ^ 64

def Has (r : Region) (a : BitVec 64) : Prop := r.base.toNat ≤ a.toNat ∧ a.toNat < r.base.toNat + r.size

def Apart (r s : Region) : Prop :=
  r.base.toNat + r.size ≤ s.base.toNat ∨ s.base.toNat + s.size ≤ r.base.toNat

def Within (r s : Region) : Prop :=
  s.base.toNat ≤ r.base.toNat ∧ r.base.toNat + r.size ≤ s.base.toNat + s.size

instance (r : Region) : Decidable r.Fits := inferInstanceAs (Decidable (_ ≤ _))

instance (r s : Region) : Decidable (r.Apart s) := inferInstanceAs (Decidable (_ ∨ _))

instance (r s : Region) : Decidable (r.Within s) := inferInstanceAs (Decidable (_ ∧ _))

variable {r s t : Region} {a : BitVec 64}

theorem Apart.symm (apart : r.Apart s) : s.Apart r := Or.symm apart

theorem Apart.within (apart : r.Apart s) (inner : t.Within r) : t.Apart s := by
  unfold Apart Within at *
  omega

theorem Within.trans (first : r.Within s) (second : s.Within t) : r.Within t :=
  ⟨second.1.trans first.1, first.2.trans second.2⟩

theorem Within.has (inner : r.Within s) (has : r.Has a) : s.Has a :=
  ⟨inner.1.trans has.1, has.2.trans_le inner.2⟩

theorem Within.fits (inner : r.Within s) (fits : s.Fits) : r.Fits := inner.2.trans fits

theorem Apart.not_has (apart : r.Apart s) (has : r.Has a) : ¬ s.Has a := by
  unfold Apart Has at *
  omega

theorem Apart.base_ne (apart : r.Apart s) (first : 0 < r.size) (second : 0 < s.size) : r.base ≠ s.base := by
  intro same
  unfold Apart at apart
  rw [same] at apart
  omega

/-- The address of an element inside a region. -/
theorem toNat_add {n : Nat} (fits : r.Fits) (inside : n < r.size) :
    (r.base + BitVec.ofNat 64 n).toNat = r.base.toNat + n := by
  have below := r.base.isLt
  unfold Fits at fits
  rw [BitVec.toNat_add, BitVec.toNat_ofNat, Nat.mod_eq_of_lt (by omega : n < 2 ^ 64), Nat.mod_eq_of_lt (by omega)]

theorem has_iff (fits : r.Fits) : (a - r.base).toNat < r.size ↔ r.Has a := by
  have below := r.base.isLt
  have above := a.isLt
  unfold Fits at fits
  unfold Has
  rw [BitVec.toNat_sub]
  by_cases inside : r.base.toNat ≤ a.toNat
  · rw [show 2 ^ 64 - r.base.toNat + a.toNat = a.toNat - r.base.toNat + 2 ^ 64 by omega, Nat.add_mod_right,
      Nat.mod_eq_of_lt (by omega)]
    omega
  · rw [Nat.mod_eq_of_lt (by omega)]
    omega

/-- An element of an array stands inside it. -/
theorem element_within {base : BitVec 64} {width count i : Nat} (fits : (⟨base, width * count⟩ : Region).Fits)
    (positive : 0 < width) (inside : i < count) :
    (⟨base + BitVec.ofNat 64 (width * i), width⟩ : Region).Within ⟨base, width * count⟩ := by
  have next : width * i + width ≤ width * count := Nat.mul_succ width i ▸ Nat.mul_le_mul_left width inside
  have place : (base + BitVec.ofNat 64 (width * i)).toNat = base.toNat + width * i :=
    toNat_add fits (show width * i < width * count by omega)
  simp only [Within, place]
  omega

/-- What follows a header stands inside the whole. -/
theorem tail_within {base : BitVec 64} {head rest : Nat} (fits : (⟨base, head + rest⟩ : Region).Fits)
    (positive : 0 < rest) : (⟨base + BitVec.ofNat 64 head, rest⟩ : Region).Within ⟨base, head + rest⟩ := by
  have place : (base + BitVec.ofNat 64 head).toNat = base.toNat + head :=
    toNat_add fits (show head < head + rest by omega)
  simp only [Within, place]
  omega

end Region

namespace Ram

variable {mem mem' : Ram} {r : Region}

/-- The memories hold the same bytes in the region. -/
def Agree (r : Region) (mem mem' : Ram) : Prop := ∀ a, r.Has a → mem' a = mem a

theorem Agree.within {s : Region} (agree : Agree s mem mem') (inner : r.Within s) : Agree r mem mem' :=
  fun a has => agree a (inner.has has)

theorem Agree.load {base : BitVec 64} {width : Nat} (agree : Agree ⟨base, width / 8⟩ mem mem')
    (fits : (⟨base, width / 8⟩ : Region).Fits) (bounded : width ≤ 2 ^ 64) (whole : width % 8 = 0) :
    mem'.load base width = mem.load base width :=
  load_congr bounded (fun a inside => agree a ((Region.has_iff fits).mp inside)) whole

theorem store_agree {base : BitVec 64} {width : Nat} (value : BitVec width)
    (fits : (⟨base, width / 8⟩ : Region).Fits) (apart : r.Apart ⟨base, width / 8⟩) :
    Agree r mem (mem.store base value) :=
  fun _ has => store_of_outside value fun inside => apart.not_has has ((Region.has_iff fits).mp inside)

/-- A store leaves the words apart from it. -/
theorem load_store_of_apart {base base' : BitVec 64} (value : BitVec 64) (fits : (⟨base, 8⟩ : Region).Fits)
    (fits' : (⟨base', 8⟩ : Region).Fits) (apart : (⟨base', 8⟩ : Region).Apart ⟨base, 8⟩) :
    (mem.store base value).load base' 64 = mem.load base' 64 :=
  (store_agree value fits apart).load fits' (by decide) (by decide)

/-- A copy of bytes to consecutive addresses. -/
def storeBytes (mem : Ram) (base : BitVec 64) (bytes : List (BitVec 8)) : Ram :=
  fun a => bytes[(a - base).toNat]?.getD (mem a)

/-- The bytes stand at consecutive addresses. -/
def Holds (mem : Ram) (base : BitVec 64) (bytes : List (BitVec 8)) : Prop :=
  ∀ i, ∀ inside : i < bytes.length, mem (base + BitVec.ofNat 64 i) = bytes[i]

theorem Agree.holds {base : BitVec 64} {bytes : List (BitVec 8)} (agree : Agree ⟨base, bytes.length⟩ mem mem')
    (fits : (⟨base, bytes.length⟩ : Region).Fits) (holds : mem.Holds base bytes) : mem'.Holds base bytes := by
  intro i inside
  have place := Region.toNat_add fits inside
  rw [agree _ ⟨by rw [place]; exact Nat.le_add_right _ _, by rw [place]; exact Nat.add_lt_add_left inside _⟩]
  exact holds i inside

theorem storeBytes_holds {base : BitVec 64} {bytes : List (BitVec 8)} (bounded : bytes.length ≤ 2 ^ 64) :
    (mem.storeBytes base bytes).Holds base bytes := by
  intro i inside
  rw [storeBytes, offset_toNat (inside.trans_le bounded), List.getElem?_eq_getElem inside, Option.getD_some]

theorem storeBytes_agree {base : BitVec 64} {bytes : List (BitVec 8)} (fits : (⟨base, bytes.length⟩ : Region).Fits)
    (apart : r.Apart ⟨base, bytes.length⟩) : Agree r mem (mem.storeBytes base bytes) := by
  intro a has
  have outside : bytes.length ≤ (a - base).toNat :=
    Nat.le_of_not_lt fun inside => apart.not_has has ((Region.has_iff fits).mp inside)
  rw [storeBytes, List.getElem?_eq_none outside, Option.getD_none]

end Ram

section Fields

variable {F : Type} [DecidableEq F] (struct : ReprC F) {base : BitVec 64} {f g : F}

/-- The address of a field. -/
def ReprC.place (base : BitVec 64) (f : F) : BitVec 64 := base + BitVec.ofNat 64 (struct.offset f)

def ReprC.region (base : BitVec 64) (f : F) : Region := ⟨struct.place base f, struct.width f⟩

theorem ReprC.region_within (fits : (⟨base, struct.size⟩ : Region).Fits) (f : F) :
    (struct.region base f).Within ⟨base, struct.size⟩ := by
  have inside := struct.offset_inside f
  have positive := struct.positive f
  have place : (struct.place base f).toNat = base.toNat + struct.offset f :=
    Region.toNat_add fits (show struct.offset f < struct.size by omega)
  simp only [Region.Within, ReprC.region, place]
  omega

/-- Two fields of one struct do not overlap. -/
theorem ReprC.region_apart (fits : (⟨base, struct.size⟩ : Region).Fits) (different : f ≠ g) :
    (struct.region base f).Apart (struct.region base g) := by
  have inside := struct.offset_inside
  have positive := struct.positive
  have place : ∀ h, (struct.place base h).toNat = base.toNat + struct.offset h := fun h =>
    Region.toNat_add fits (Nat.lt_of_lt_of_le (Nat.lt_add_of_pos_right (positive h)) (inside h))
  have apart := struct.offset_apart different
  simp only [Region.Apart, ReprC.region, place]
  omega

end Fields

end O3jc.Library
