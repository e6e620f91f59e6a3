import Mathlib.Algebra.Group.Nat.Defs
import Mathlib.Logic.Function.Basic

namespace O3jc.Library

/-- The general registers of the machine. -/
inductive Gpr where
  | rax | rbx | rcx | rdx | rsi | rdi | rbp | rsp | r8 | r9 | r10 | r11 | r12 | r13 | r14 | r15
  deriving DecidableEq

/-- The vector registers of the machine. -/
inductive Xmm where
  | xmm0 | xmm1 | xmm2 | xmm3 | xmm4 | xmm5 | xmm6 | xmm7
  | xmm8 | xmm9 | xmm10 | xmm11 | xmm12 | xmm13 | xmm14 | xmm15
  deriving DecidableEq

/-- A register that holds an argument. -/
inductive Register where
  | gpr (r : Gpr)
  | xmm (x : Xmm)
  deriving DecidableEq

def Register.width : Register → Nat
  | .gpr _ => 64
  | .xmm _ => 128

/-- Addresses wrap around at the end of the address space. -/
abbrev Ram := BitVec 64 → BitVec 8

/-- A little-endian load of a word. -/
def Ram.load (mem : Ram) (address : BitVec 64) (width : Nat) : BitVec width :=
  (BitVec.iunfoldr (fun i _ => ((), (mem (address + BitVec.ofNat 64 (i / 8))).getLsbD (i % 8))) ()).2

/-- A little-endian store of a word. -/
def Ram.store (mem : Ram) (address : BitVec 64) {width : Nat} (value : BitVec width) : Ram := fun a =>
  if (a - address).toNat < width / 8 then value.extractLsb' (8 * (a - address).toNat) 8 else mem a

section Words

variable {mem : Ram} {address base : BitVec 64} {width : Nat}

theorem Ram.getLsbD_load {i : Nat} (inside : i < width) : (mem.load address width).getLsbD i =
    (mem (address + BitVec.ofNat 64 (i / 8))).getLsbD (i % 8) :=
  BitVec.iunfoldr_getLsbD (fun _ => ()) ⟨i, inside⟩ fun _ => rfl

theorem offset_toNat {n : Nat} (bounded : n < 2 ^ 64) : (address + BitVec.ofNat 64 n - address).toNat = n := by
  rw [BitVec.add_comm, BitVec.add_sub_cancel, BitVec.toNat_ofNat, Nat.mod_eq_of_lt bounded]

/-- Two memories that agree on a word load the same word. -/
theorem Ram.load_congr {other : Ram} (bounded : width ≤ 2 ^ 64)
    (same : ∀ a, (a - address).toNat < width / 8 → other a = mem a) (whole : width % 8 = 0) :
    other.load address width = mem.load address width := by
  refine BitVec.eq_of_getLsbD_eq fun i inside => ?_
  rw [getLsbD_load inside, getLsbD_load inside, same]
  rw [offset_toNat (by omega)]
  omega

theorem Ram.load_store_self (value : BitVec width) (bounded : width ≤ 2 ^ 64) (whole : width % 8 = 0) :
    (mem.store address value).load address width = value := by
  refine BitVec.eq_of_getLsbD_eq fun i inside => ?_
  have offset : (address + BitVec.ofNat 64 (i / 8) - address).toNat = i / 8 := offset_toNat (by omega)
  rw [getLsbD_load inside, Ram.store, offset, if_pos (by omega), BitVec.getLsbD_extractLsb']
  simp only [Nat.mod_lt i (by decide : 0 < 8), decide_true, Bool.true_and, Nat.div_add_mod]

theorem Ram.store_of_outside (value : BitVec width) {a : BitVec 64}
    (outside : ¬ (a - address).toNat < width / 8) : mem.store address value a = mem a := if_neg outside

/-- An address lies in a word at an offset exactly when its own offset does. -/
theorem mem_word_iff {disp size : Nat} (fits : disp + size ≤ 2 ^ 64) (a : BitVec 64) :
    (a - (base + BitVec.ofNat 64 disp)).toNat < size ↔
      disp ≤ (a - base).toNat ∧ (a - base).toNat < disp + size := by
  rw [← BitVec.sub_sub, BitVec.toNat_sub, BitVec.toNat_ofNat]
  have below := (a - base).isLt
  by_cases small : disp = 2 ^ 64
  · omega
  · rw [Nat.mod_eq_of_lt (by omega : disp < 2 ^ 64)]
    by_cases inside : disp ≤ (a - base).toNat
    · rw [show 2 ^ 64 - disp + (a - base).toNat = (a - base).toNat - disp + 2 ^ 64 by omega, Nat.add_mod_right,
        Nat.mod_eq_of_lt (by omega)]
      omega
    · rw [Nat.mod_eq_of_lt (by omega)]
      omega

end Words

structure Cpu where
  gpr : Gpr → BitVec 64
  xmm : Xmm → BitVec 128
  zf : Bool
  mem : Ram

def Cpu.read (m : Cpu) : (r : Register) → BitVec r.width
  | .gpr r => m.gpr r
  | .xmm x => m.xmm x

def Cpu.setGpr (m : Cpu) (r : Gpr) (value : BitVec 64) : Cpu :=
  { m with gpr := Function.update m.gpr r value }

def Cpu.setXmm (m : Cpu) (x : Xmm) (value : BitVec 128) : Cpu :=
  { m with xmm := Function.update m.xmm x value }

def Cpu.write (m : Cpu) : (r : Register) → BitVec r.width → Cpu
  | .gpr r, value => m.setGpr r value
  | .xmm x, value => m.setXmm x value

/-- The low byte of `rax` counts the vector registers of a variadic call. -/
def Cpu.al (m : Cpu) : BitVec 8 := (m.gpr .rax).setWidth 8

@[simp] theorem Cpu.setGpr_self (m : Cpu) (r : Gpr) (value : BitVec 64) :
    (m.setGpr r value).gpr r = value := by
  simp [setGpr]

theorem Cpu.setGpr_of_ne (m : Cpu) {r other : Gpr} (value : BitVec 64) (different : other ≠ r) :
    (m.setGpr r value).gpr other = m.gpr other := by
  simp [setGpr, different]

@[simp] theorem Cpu.setXmm_self (m : Cpu) (x : Xmm) (value : BitVec 128) :
    (m.setXmm x value).xmm x = value := by
  simp [setXmm]

theorem Cpu.setXmm_of_ne (m : Cpu) {x other : Xmm} (value : BitVec 128) (different : other ≠ x) :
    (m.setXmm x value).xmm other = m.xmm other := by
  simp [setXmm, different]

theorem Cpu.read_write_self (m : Cpu) (r : Register) (value : BitVec r.width) :
    (m.write r value).read r = value := by
  cases r with
  | gpr r => exact m.setGpr_self r value
  | xmm x => exact m.setXmm_self x value

theorem Cpu.read_write_of_ne (m : Cpu) {r other : Register} (value : BitVec r.width)
    (different : other ≠ r) : (m.write r value).read other = m.read other := by
  cases r with
  | gpr r =>
      cases other with
      | gpr o => exact m.setGpr_of_ne value fun same => different (congrArg Register.gpr same)
      | xmm o => rfl
  | xmm x =>
      cases other with
      | gpr o => rfl
      | xmm o => exact m.setXmm_of_ne value fun same => different (congrArg Register.xmm same)

@[simp] theorem Cpu.write_mem (m : Cpu) (r : Register) (value : BitVec r.width) :
    (m.write r value).mem = m.mem := by
  cases r <;> rfl

/-- A register is read from the register files alone. -/
theorem Cpu.read_congr {m m' : Cpu} (gpr : m'.gpr = m.gpr) (xmm : m'.xmm = m.xmm) (r : Register) :
    m'.read r = m.read r := by
  cases r with
  | gpr r => exact congrFun gpr r
  | xmm x => exact congrFun xmm x

def Cpu.address (m : Cpu) (base : Gpr) (disp : Nat) : BitVec 64 := m.gpr base + BitVec.ofNat 64 disp

/-- The instructions in the operand order of the listing. -/
inductive Instr (Symbol : Type) where
  | test (a b : Gpr)
  | sub (dst : Gpr) (imm : Nat)
  | add (dst : Gpr) (imm : Nat)
  | mov (dst src : Gpr)
  | movStore (base : Gpr) (disp : Nat) (src : Gpr)
  | movLoad (dst base : Gpr) (disp : Nat)
  | movapsStore (base : Gpr) (disp : Nat) (src : Xmm)
  | movapsLoad (dst : Xmm) (base : Gpr) (disp : Nat)
  | xor32 (dst src : Gpr)
  | pxor (dst src : Xmm)
  | label (name : Nat)
  | jz (name : Nat)
  | call (symbol : Symbol)
  | jmp (target : Gpr)
  | ret

/-- A `movaps` faults on an address that is not a multiple of sixteen. -/
def Cpu.aligned (m : Cpu) (base : Gpr) (disp : Nat) : Prop := (m.address base disp).toNat % 16 = 0

instance (m : Cpu) (base : Gpr) (disp : Nat) : Decidable (m.aligned base disp) :=
  inferInstanceAs (Decidable (_ = 0))

section Steps

variable {Symbol : Type}

/-- The effect of an instruction that hands on to the next one. A fault has none. -/
def Instr.effect (m : Cpu) : Instr Symbol → Option Cpu
  | .test a b => some { m with zf := m.gpr a &&& m.gpr b == 0 }
  | .sub dst imm =>
      let value := m.gpr dst - BitVec.ofNat 64 imm
      some { m.setGpr dst value with zf := value == 0 }
  | .add dst imm =>
      let value := m.gpr dst + BitVec.ofNat 64 imm
      some { m.setGpr dst value with zf := value == 0 }
  | .mov dst src => some (m.setGpr dst (m.gpr src))
  | .movStore base disp src => some { m with mem := m.mem.store (m.address base disp) (m.gpr src) }
  | .movLoad dst base disp => some (m.setGpr dst (m.mem.load (m.address base disp) 64))
  | .movapsStore base disp src =>
      if m.aligned base disp then some { m with mem := m.mem.store (m.address base disp) (m.xmm src) } else none
  | .movapsLoad dst base disp =>
      if m.aligned base disp then some (m.setXmm dst (m.mem.load (m.address base disp) 128)) else none
  | .xor32 dst src =>
      -- A 32-bit result clears the upper half of the register.
      let value := (m.gpr dst ^^^ m.gpr src).setWidth 32
      some { m.setGpr dst (value.setWidth 64) with zf := value == 0 }
  | .pxor dst src => some (m.setXmm dst (m.xmm dst ^^^ m.xmm src))
  | .label _ => some m
  | .jz _ | .call _ | .jmp _ | .ret => none

def Instr.isLabel (name : Nat) : Instr Symbol → Bool
  | .label other => name == other
  | _ => false

/-- A push below address zero faults. -/
def Cpu.push (m : Cpu) (value : BitVec 64) : Option Cpu :=
  if 8 ≤ (m.gpr .rsp).toNat then
    let top := m.gpr .rsp - 8
    some { m.setGpr .rsp top with mem := m.mem.store top value }
  else none

theorem Cpu.push_eq (m : Cpu) (value : BitVec 64) (room : 8 ≤ (m.gpr .rsp).toNat) :
    ∃ pushed, m.push value = some pushed ∧ pushed.gpr .rsp = m.gpr .rsp - 8 ∧
      (∀ r, r ≠ .rsp → pushed.gpr r = m.gpr r) ∧
      ∀ a, 8 ≤ (a - (m.gpr .rsp - 8)).toNat → pushed.mem a = m.mem a :=
  ⟨_, if_pos room, m.setGpr_self .rsp _, fun _ different => m.setGpr_of_ne _ different,
    fun _ outside => Ram.store_of_outside _ (Nat.not_lt.mpr outside)⟩

/-- Where the code is placed and what the functions do that it calls. -/
structure Linkage (Symbol : Type) where
  site : List (Instr Symbol) → BitVec 64
  behaviour : Symbol → Cpu → Cpu

inductive Outcome (Symbol : Type) where
  | next (code : List (Instr Symbol)) (m : Cpu)
  | leaves (target : BitVec 64) (m : Cpu)
  | fault

/-- A label is searched forwards, and a called function returns to the pushed address. -/
def step (link : Linkage Symbol) (m : Cpu) : List (Instr Symbol) → Outcome Symbol
  | [] => .fault
  | .jz name :: rest => .next (if m.zf then rest.dropWhile (!Instr.isLabel name ·) else rest) m
  | .jmp target :: _ => .leaves (m.gpr target) m
  | .ret :: _ => .leaves (m.mem.load (m.gpr .rsp) 64) (m.setGpr .rsp (m.gpr .rsp + 8))
  | .call symbol :: rest =>
      match m.push (link.site rest) with
      | some called => .next rest (link.behaviour symbol called)
      | none => .fault
  | instr :: rest =>
      match instr.effect m with
      | some m' => .next rest m'
      | none => .fault

/-- The executed instructions with the machines before them. -/
abbrev Trace (Symbol : Type) := List (Instr Symbol × Cpu)

/-- A block of code falls through its end. -/
inductive Runs : List (Instr Symbol) → Cpu → Trace Symbol → Cpu → Prop
  | nil (m : Cpu) : Runs [] m [] m
  | cons {instr : Instr Symbol} {block : List (Instr Symbol)} {m m1 m' : Cpu} {trace : Trace Symbol}
      (effect : instr.effect m = some m1) (later : Runs block m1 trace m') :
      Runs (instr :: block) m ((instr, m) :: trace) m'

/-- The code runs until control leaves it. -/
inductive Leaves (link : Linkage Symbol) :
    List (Instr Symbol) → Cpu → Trace Symbol → BitVec 64 → Cpu → Prop
  | exit {instr : Instr Symbol} {rest : List (Instr Symbol)} {m m' : Cpu} {target : BitVec 64}
      (last : step link m (instr :: rest) = .leaves target m') :
      Leaves link (instr :: rest) m [(instr, m)] target m'
  | next {instr : Instr Symbol} {rest code : List (Instr Symbol)} {m m1 m' : Cpu} {trace : Trace Symbol}
      {target : BitVec 64} (first : step link m (instr :: rest) = .next code m1)
      (later : Leaves link code m1 trace target m') :
      Leaves link (instr :: rest) m ((instr, m) :: trace) target m'

/-- Where the alignment of the stack matters. -/
def Instr.AlignedAt (m : Cpu) : Instr Symbol → Prop
  | .movapsStore base disp _ => m.aligned base disp
  | .movapsLoad _ base disp => m.aligned base disp
  | .call _ => (m.gpr .rsp).toNat % 16 = 0
  | _ => True

variable {link : Linkage Symbol}

theorem step_of_effect {instr : Instr Symbol} {m m1 : Cpu} (effect : instr.effect m = some m1)
    (rest : List (Instr Symbol)) : step link m (instr :: rest) = .next rest m1 := by
  cases instr <;> simp_all [Instr.effect, step]

theorem alignedAt_of_effect {instr : Instr Symbol} {m m1 : Cpu} (effect : instr.effect m = some m1) :
    instr.AlignedAt m := by
  cases instr <;> simp_all [Instr.effect, Instr.AlignedAt]

theorem Runs.aligned {block : List (Instr Symbol)} {m m' : Cpu} {trace : Trace Symbol}
    (runs : Runs block m trace m') : ∀ visit ∈ trace, visit.1.AlignedAt visit.2 := by
  induction runs with
  | nil => simp
  | cons effect _ ih => exact List.forall_mem_cons.mpr ⟨alignedAt_of_effect effect, ih⟩

theorem Runs.append {first second : List (Instr Symbol)} {m m1 m' : Cpu} {before after : Trace Symbol}
    (runs : Runs first m before m1) (later : Runs second m1 after m') :
    Runs (first ++ second) m (before ++ after) m' := by
  induction runs with
  | nil => exact later
  | cons effect _ ih => exact .cons effect (ih later)

/-- A block that falls through hands on to the code behind it. -/
theorem Leaves.of_runs {block rest : List (Instr Symbol)} {m m1 m' : Cpu} {before after : Trace Symbol}
    {target : BitVec 64} (runs : Runs block m before m1) (later : Leaves link rest m1 after target m') :
    Leaves link (block ++ rest) m (before ++ after) target m' := by
  induction runs with
  | nil => exact later
  | cons effect _ ih => exact .next (step_of_effect effect _) (ih later)

theorem Leaves.tail {instr : Instr Symbol} {rest code : List (Instr Symbol)} {m m1 m' : Cpu}
    {trace : Trace Symbol} {target : BitVec 64} (leaves : Leaves link (instr :: rest) m trace target m')
    (first : step link m (instr :: rest) = .next code m1) : ∃ after, Leaves link code m1 after target m' := by
  cases leaves with
  | exit last => exact absurd (first.symm.trans last) (by simp)
  | next first' later =>
      obtain ⟨rfl, rfl⟩ := Outcome.next.inj (first.symm.trans first')
      exact ⟨_, later⟩

/-- Whatever leaves the code behind a block leaves it from the end of the block. -/
theorem Leaves.after_runs {block rest : List (Instr Symbol)} {m m1 m' : Cpu} {before trace : Trace Symbol}
    {target : BitVec 64} (runs : Runs block m before m1) (leaves : Leaves link (block ++ rest) m trace target m') :
    ∃ after, Leaves link rest m1 after target m' := by
  induction runs generalizing trace with
  | nil => exact ⟨trace, leaves⟩
  | cons effect _ ih =>
      obtain ⟨after, later⟩ := leaves.tail (step_of_effect effect _)
      exact ih later

theorem Leaves.unique {code : List (Instr Symbol)} {m m1 m2 : Cpu} {trace1 trace2 : Trace Symbol}
    {target1 target2 : BitVec 64} (first : Leaves link code m trace1 target1 m1)
    (second : Leaves link code m trace2 target2 m2) : trace1 = trace2 ∧ target1 = target2 ∧ m1 = m2 := by
  induction first generalizing trace2 with
  | exit last =>
      cases second with
      | exit last' =>
          obtain ⟨rfl, rfl⟩ := Outcome.leaves.inj (last.symm.trans last')
          exact ⟨rfl, rfl, rfl⟩
      | next first' _ => exact absurd (last.symm.trans first') (by simp)
  | next first _ ih =>
      cases second with
      | exit last' => exact absurd (first.symm.trans last') (by simp)
      | next first' later =>
          obtain ⟨rfl, rfl⟩ := Outcome.next.inj (first.symm.trans first')
          obtain ⟨rfl, rfl, rfl⟩ := ih later
          exact ⟨rfl, rfl, rfl⟩

end Steps

/-- The registers that pass the first arguments. -/
def argumentRegisters : List Register :=
  [.gpr .rdi, .gpr .rsi, .gpr .rdx, .gpr .rcx, .gpr .r8, .gpr .r9,
    .xmm .xmm0, .xmm .xmm1, .xmm .xmm2, .xmm .xmm3, .xmm .xmm4, .xmm .xmm5, .xmm .xmm6, .xmm .xmm7]

/-- The registers that a called function preserves. -/
def calleeSaved : List Gpr := [.rbx, .rbp, .r12, .r13, .r14, .r15]

/-- A function keeps the calling convention when it preserves the registers and the stack of its caller. It is
entered with the return address on top of an aligned stack. -/
structure SysV (behaviour : Cpu → Cpu) : Prop where
  saved : ∀ m, ((m.gpr .rsp).toNat + 8) % 16 = 0 → ∀ r ∈ calleeSaved, (behaviour m).gpr r = m.gpr r
  returns : ∀ m, ((m.gpr .rsp).toNat + 8) % 16 = 0 → (behaviour m).gpr .rsp = m.gpr .rsp + 8
  above : ∀ m, ((m.gpr .rsp).toNat + 8) % 16 = 0 → ∀ a, (m.gpr .rsp).toNat + 8 ≤ a.toNat →
    (behaviour m).mem a = m.mem a

theorem pushed_toNat {top : BitVec 64} (room : 8 ≤ top.toNat) : (top - 8).toNat + 8 = top.toNat := by
  have word : (8 : BitVec 64).toNat = 8 := rfl
  have below := top.isLt
  rw [BitVec.toNat_sub, word]
  omega

/-- A function that is called from an aligned stack hands the stack pointer back. -/
theorem SysV.call {Symbol : Type} {link : Linkage Symbol} {symbol : Symbol} (conforms : SysV (link.behaviour symbol))
    {m : Cpu} (frame : (m.gpr .rsp).toNat % 16 = 0) (room : 8 ≤ (m.gpr .rsp).toNat) (rest : List (Instr Symbol)) :
    ∃ called, m.push (link.site rest) = some called ∧
      step link m (.call symbol :: rest) = .next rest (link.behaviour symbol called) ∧
      called.gpr .rsp = m.gpr .rsp - 8 ∧ (∀ r, r ≠ .rsp → called.gpr r = m.gpr r) ∧
      (∀ a, 8 ≤ (a - (m.gpr .rsp - 8)).toNat → called.mem a = m.mem a) ∧
      (link.behaviour symbol called).gpr .rsp = m.gpr .rsp := by
  obtain ⟨called, pushed, rsp, others, above⟩ := m.push_eq (link.site rest) room
  have entered : ((called.gpr .rsp).toNat + 8) % 16 = 0 := by rw [rsp, pushed_toNat room, frame]
  refine ⟨called, pushed, ?_, rsp, others, above, ?_⟩
  · simp only [step, pushed]
  · rw [conforms.returns called entered, rsp, BitVec.sub_add_cancel]

end O3jc.Library
