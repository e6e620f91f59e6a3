import O3jc.Dispatch.Cache
import O3jc.Library.SaveArea
import O3jc.Runtime.Trampoline

namespace O3jc

open Library

/-- The frame of the trampoline. -/
def argumentArea : SaveArea where
  size := 0xb8
  slots := [⟨0x00, .gpr .rdi⟩, ⟨0x08, .gpr .rsi⟩, ⟨0x10, .gpr .rdx⟩, ⟨0x18, .gpr .rcx⟩, ⟨0x20, .gpr .r8⟩,
    ⟨0x28, .gpr .r9⟩, ⟨0x30, .xmm .xmm0⟩, ⟨0x40, .xmm .xmm1⟩, ⟨0x50, .xmm .xmm2⟩, ⟨0x60, .xmm .xmm3⟩,
    ⟨0x70, .xmm .xmm4⟩, ⟨0x80, .xmm .xmm5⟩, ⟨0x90, .xmm .xmm6⟩, ⟨0xa0, .xmm .xmm7⟩]
  bounded := by decide
  frame := by decide
  inside := by decide
  natural := by decide
  apart := by decide
  distinct := by decide
  reserved := by decide

/-- The code that answers a nil receiver. -/
def answerNil : List (Instr Lookup) :=
  [.label 2, .xor32 .rax .rax, .xor32 .rdx .rdx, .pxor .xmm0 .xmm0, .pxor .xmm1 .xmm1, .ret]

theorem objcMsgSend_eq : objcMsgSend =
    .test .rdi .rdi :: .jz 2 :: (argumentArea.tailCall .objcMsgLookupNonnull ++ answerNil) := rfl

/-- A run of the trampoline calls the lookup from an aligned stack and goes where the lookup says. The pushed return
address is that of the code behind the call. -/
def Sends (link : Linkage Lookup) (entry called exit : Cpu) : Prop :=
  ∃ trace, Leaves link objcMsgSend entry trace ((link.behaviour .objcMsgLookupNonnull called).gpr .rax) exit ∧
    (∃ before, (.call .objcMsgLookupNonnull, before) ∈ trace ∧
      before.push (link.site (objcMsgSend.drop 18)) = some called) ∧
    ∀ visit ∈ trace, visit.1.AlignedAt visit.2

/-- The callee finds the stack and the arguments of the caller. -/
structure KeepsArguments (entry exit : Cpu) : Prop where
  rsp : exit.gpr .rsp = entry.gpr .rsp
  registers : ∀ r ∈ argumentRegisters, exit.read r = entry.read r
  stack : ∀ a, (entry.gpr .rsp).toNat ≤ a.toNat → exit.mem a = entry.mem a
  saved : ∀ r ∈ calleeSaved, exit.gpr r = entry.gpr r

/-- The callee sees the machine of the caller, with the count of vector registers. -/
def Transparent (link : Linkage Lookup) (entry : Cpu) : Prop :=
  ∃ called exit, Sends link entry called exit ∧ KeepsArguments entry exit ∧ exit.al = entry.al

/-- The nil check leaves its answer in the zero flag. -/
theorem objcMsgSend_checks (link : Linkage Lookup) {entry : Cpu} {isNil : Bool}
    (receiver : (entry.gpr .rdi == 0) = isNil) (rest : List (Instr Lookup)) :
    step link entry (.test .rdi .rdi :: rest) = .next rest { entry with zf := isNil } := by
  refine step_of_effect ?_ rest
  rw [← receiver, Instr.effect, BitVec.and_self]

section Sending

variable (link : Linkage Lookup) {entry : Cpu} (receiver : entry.gpr .rdi ≠ 0)
  (aligned : (entry.gpr .rsp).toNat % 16 = 8)

include receiver aligned

/-- The part of a run that holds for every frame, also for one that wraps around. -/
theorem objcMsgSend_sends (conforms : SysV (link.behaviour .objcMsgLookupNonnull))
    (room : 8 ≤ (argumentArea.base entry).toNat) : ∃ called exit, Sends link entry called exit ∧
      argumentArea.Forwards (link.behaviour .objcMsgLookupNonnull) { entry with zf := false } called exit := by
  obtain ⟨trace, called, exit, leaves, ⟨before, visited, pushed⟩, atCalls, forwards⟩ :=
    argumentArea.tailCall_leaves conforms { entry with zf := false } aligned room answerNil
  have jumps : Leaves link objcMsgSend entry
      ((.test .rdi .rdi, entry) :: (.jz 2, { entry with zf := false }) :: trace)
      ((link.behaviour .objcMsgLookupNonnull called).gpr .rax) exit := by
    rw [objcMsgSend_eq]
    exact .next (objcMsgSend_checks link (beq_eq_false_iff_ne.mpr receiver) _) (.next rfl leaves)
  refine ⟨called, exit, ⟨_, jumps, ⟨before, by simp [visited], pushed⟩, ?_⟩, forwards⟩
  simpa [Instr.AlignedAt] using atCalls

/-- With room for its frame the trampoline keeps everything but the count of vector registers, which the lookup's
result replaces. -/
theorem objcMsgSend_keeps (conforms : SysV (link.behaviour .objcMsgLookupNonnull))
    (room : 192 ≤ (entry.gpr .rsp).toNat) : ∃ called exit, Sends link entry called exit ∧
      (∀ r, r ≠ .rsp → called.gpr r = entry.gpr r) ∧ KeepsArguments entry exit ∧
      exit.al = (link.behaviour .objcMsgLookupNonnull called).al := by
  have size : argumentArea.size = 184 := rfl
  obtain ⟨called, exit, sends, forwards⟩ := objcMsgSend_sends link receiver aligned conforms (by
    have below := (entry.gpr .rsp).isLt
    rw [SaveArea.base, BitVec.toNat_sub, BitVec.toNat_ofNat, size]
    omega)
  obtain ⟨registers, stack, saved⟩ := forwards.preserves conforms aligned (by rw [size]; exact room)
  refine ⟨called, exit, sends, forwards.gprCalled, ⟨forwards.rsp, fun r member => ?_, stack, fun r member => ?_⟩, ?_⟩
  · obtain ⟨slot, inside, rfl⟩ : ∃ slot ∈ argumentArea.slots, slot.register = r := List.mem_map.mp member
    rw [registers slot inside]
    exact Cpu.read_congr rfl rfl _
  · have apart : ∀ r ∈ calleeSaved, Register.gpr r ∉ argumentArea.slots.map Slot.register := by decide
    exact saved r member (apart r member)
  · exact congrArg (BitVec.setWidth 8) (forwards.others .rax (by decide) (by decide) (by decide))

end Sending

/-- The words by which compiled code names receivers, selectors and methods. -/
structure Encoding where
  receiver : ObjcPtr → BitVec 64
  selector : SEL → BitVec 64
  imp : IMP → BitVec 64

/-- The compiled lookup takes a message from its registers and returns the IMP that the lookup gives. -/
def Encoding.Computes (encoding : Encoding) (rt : Runtime) (receiver : ObjcPtr) (sel : SEL) (lookup : Cpu → Cpu) :
    Prop :=
  ∀ m rt' imp, m.gpr .rdi = encoding.receiver receiver → m.gpr .rsi = encoding.selector sel →
    objcMsgLookupNonnull rt (some receiver) sel = some (rt', imp) → (lookup m).gpr .rax = encoding.imp imp

/-- A message to an instance of a coherent class reaches the method that the hierarchy gives, with the arguments of the
caller. -/
theorem objcMsgSend_dispatches {link : Linkage Lookup} {encoding : Encoding} {rt : Runtime}
    (conforms : SysV (link.behaviour .objcMsgLookupNonnull)) {entry : Cpu} {receiver : ObjcPtr} {sel : SEL}
    (computes : encoding.Computes rt receiver sel (link.behaviour .objcMsgLookupNonnull)) {cls : ClassPtr} {imp : IMP}
    (isReceiver : entry.gpr .rdi = encoding.receiver receiver)
    (notNil : encoding.receiver receiver ≠ 0) (isSel : entry.gpr .rsi = encoding.selector sel)
    (aligned : (entry.gpr .rsp).toNat % 16 = 8) (room : 192 ≤ (entry.gpr .rsp).toNat)
    (isa : rt.isaOf receiver = some cls) (coherent : rt.Coherent cls)
    (found : classLookupMethod rt cls sel = some imp) :
    ∃ trace exit, Leaves link objcMsgSend entry trace (encoding.imp imp) exit ∧ KeepsArguments entry exit := by
  have result : (objcMsgLookupNonnull rt (some receiver) sel).map Prod.snd = some imp := by
    rw [objcMsgLookupNonnull_result, coherent.msgLookup isa, found]
  obtain ⟨⟨rt', _⟩, lookup, rfl⟩ := Option.map_eq_some_iff.mp result
  obtain ⟨called, exit, ⟨trace, leaves, _⟩, gpr, keeps, _⟩ :=
    objcMsgSend_keeps link (isReceiver ▸ notNil) aligned conforms room
  have target := computes called rt' _ ((gpr .rdi (by decide)).trans isReceiver)
    ((gpr .rsi (by decide)).trans isSel) lookup
  rw [target] at leaves
  exact ⟨trace, exit, leaves, keeps⟩

/-- A nil receiver is answered with zero in the result registers. -/
theorem objcMsgSend_nil (link : Linkage Lookup) {entry : Cpu} (receiver : entry.gpr .rdi = 0) :
    ∃ trace exit, Leaves link objcMsgSend entry trace (entry.mem.load (entry.gpr .rsp) 64) exit ∧
      exit.gpr .rax = 0 ∧ exit.gpr .rdx = 0 ∧ exit.xmm .xmm0 = 0 ∧ exit.xmm .xmm1 = 0 ∧
      exit.gpr .rsp = entry.gpr .rsp + 8 ∧ exit.mem = entry.mem ∧ ∀ r ∈ calleeSaved, exit.gpr r = entry.gpr r := by
  have others : ∀ r ∈ calleeSaved, r ≠ .rsp ∧ r ≠ .rdx ∧ r ≠ .rax := by decide
  rw [objcMsgSend_eq]
  refine ⟨_, _, .next (objcMsgSend_checks link (beq_iff_eq.mpr receiver) _) (.next rfl (.next rfl (.next rfl
    (.next rfl (.next rfl (.next rfl (.exit rfl))))))), ?_⟩
  simp +contextual [Cpu.setGpr, Cpu.setXmm, others]

/-- A run of the code is determined by its start. -/
theorem Sends.unique {link : Linkage Lookup} {entry called called' exit exit' : Cpu}
    (first : Sends link entry called exit) (second : Sends link entry called' exit') : exit = exit' := by
  obtain ⟨_, leaves, _⟩ := first
  obtain ⟨_, leaves', _⟩ := second
  exact (leaves.unique leaves').2.2

/-- A lookup that returns the IMP and overwrites everything below the frame of its caller. -/
def overwrites (imp : BitVec 64) (m : Cpu) : Cpu :=
  { (m.setGpr .rax imp).setGpr .rsp (m.gpr .rsp + 8) with
    mem := fun a => if (m.gpr .rsp).toNat + 8 ≤ a.toNat then m.mem a else m.mem a + 1 }

def overwriting (imp : BitVec 64) : Linkage Lookup where
  site _ := 0
  behaviour _ := overwrites imp

theorem overwrites_rax (imp : BitVec 64) (m : Cpu) : (overwrites imp m).gpr .rax = imp :=
  ((m.setGpr .rax imp).setGpr_of_ne (r := .rsp) (m.gpr .rsp + 8) (by decide)).trans (m.setGpr_self .rax imp)

theorem overwrites_sysV (imp : BitVec 64) : SysV (overwrites imp) where
  saved m _ r member := by
    have neither : ∀ r ∈ calleeSaved, r ≠ .rsp ∧ r ≠ .rax := by decide
    obtain ⟨notRsp, notRax⟩ := neither r member
    exact ((m.setGpr .rax imp).setGpr_of_ne _ notRsp).trans (m.setGpr_of_ne imp notRax)
  returns m _ := (m.setGpr .rax imp).setGpr_self .rsp _
  above _ _ _ beyond := if_pos beyond

/-- In a frame that wraps around, the return address lies below the frame. -/
theorem overwrites_not_transparent {entry : Cpu} (receiver : entry.gpr .rdi ≠ 0)
    (aligned : (entry.gpr .rsp).toNat % 16 = 8) (full : (entry.gpr .rsp).toNat < 192) (imp : BitVec 64) :
    ¬ Transparent (overwriting imp) entry := by
  rintro ⟨called', exit', sends', keeps, _⟩
  have size : argumentArea.size = 184 := rfl
  have base : (argumentArea.base entry).toNat = (2 ^ 64 - 184 + (entry.gpr .rsp).toNat) % 2 ^ 64 := by
    rw [SaveArea.base, BitVec.toNat_sub, BitVec.toNat_ofNat, size]
  by_cases room : 8 ≤ (argumentArea.base entry).toNat
  · obtain ⟨called, exit, sends, forwards⟩ := objcMsgSend_sends (overwriting imp) receiver aligned
      (overwrites_sysV imp) room
    obtain rfl := sends.unique sends'
    have top : (called.gpr .rsp).toNat + 8 = (argumentArea.base entry).toNat := by
      rw [forwards.rspCalled]
      exact pushed_toNat room
    have untouched : called.mem (entry.gpr .rsp) = entry.mem (entry.gpr .rsp) := by
      refine forwards.outside (entry.gpr .rsp) ?_ ?_
      · change 184 ≤ (entry.gpr .rsp - (entry.gpr .rsp - 184)).toNat
        bv_omega
      · change 8 ≤ (entry.gpr .rsp - (entry.gpr .rsp - 184 - 8)).toNat
        bv_omega
    have changed : exit.mem (entry.gpr .rsp) = entry.mem (entry.gpr .rsp) + 1 := by
      rw [← untouched, forwards.mem]
      exact if_neg (by rw [top, base]; omega)
    have kept := keeps.stack (entry.gpr .rsp) (Nat.le_refl _)
    rw [changed] at kept
    revert kept
    generalize entry.mem (entry.gpr .rsp) = byte
    revert byte
    decide
  · obtain ⟨trace, leaves, _⟩ := sends'
    rw [objcMsgSend_eq] at leaves
    obtain ⟨_, checked⟩ := leaves.tail (objcMsgSend_checks _ (beq_eq_false_iff_ne.mpr receiver) _)
    obtain ⟨_, later⟩ := checked.tail rfl
    exact argumentArea.tailCall_faults { entry with zf := false } aligned (Nat.lt_of_not_le room) later

/-- A message with one vector argument to a variadic method. -/
def variadicCall : Cpu where
  gpr
    | .rax => 1
    | .rdi => 0x1000
    | .rsi => 0x2000
    | .rsp => 0x7fff0008
    | _ => 0
  xmm _ := 0
  zf := false
  mem _ := 0

/-- The trampoline keeps everything but the count of vector registers, so it is transparent exactly when the lookup's
result has that count in its low byte. A lookup may do anything that the calling convention permits, and the frame has
to fit below the stack pointer. -/
theorem objcMsgSend_transparent (entry : Cpu) (receiver : entry.gpr .rdi ≠ 0)
    (aligned : (entry.gpr .rsp).toNat % 16 = 8) :
    (∀ link : Linkage Lookup, SysV (link.behaviour .objcMsgLookupNonnull) → 192 ≤ (entry.gpr .rsp).toNat →
      ∃ called exit, Sends link entry called exit ∧ KeepsArguments entry exit ∧
        exit.al = (link.behaviour .objcMsgLookupNonnull called).al ∧
        (Transparent link entry ↔ (link.behaviour .objcMsgLookupNonnull called).al = entry.al)) ∧
    ∀ imp : BitVec 64, (∀ link : Linkage Lookup, SysV (link.behaviour .objcMsgLookupNonnull) →
        (∀ m, (link.behaviour .objcMsgLookupNonnull m).gpr .rax = imp) → Transparent link entry) ↔
      imp.setWidth 8 = entry.al ∧ 192 ≤ (entry.gpr .rsp).toNat := by
  have exact_when : ∀ link : Linkage Lookup, SysV (link.behaviour .objcMsgLookupNonnull) →
      192 ≤ (entry.gpr .rsp).toNat → ∃ called exit, Sends link entry called exit ∧ KeepsArguments entry exit ∧
        exit.al = (link.behaviour .objcMsgLookupNonnull called).al ∧
        (Transparent link entry ↔ (link.behaviour .objcMsgLookupNonnull called).al = entry.al) := by
    intro link conforms room
    obtain ⟨called, exit, sends, _, keeps, count⟩ := objcMsgSend_keeps link receiver aligned conforms room
    refine ⟨called, exit, sends, keeps, count, fun ⟨called', exit', sends', _, same⟩ => ?_, fun same => ?_⟩
    · obtain rfl := sends.unique sends'
      rw [← count, same]
    · exact ⟨called, exit, sends, keeps, count.trans same⟩
  refine ⟨exact_when, fun imp => ⟨fun transparent => ?_, fun ⟨same, room⟩ link conforms returns => ?_⟩⟩
  · have allowed := transparent (overwriting imp) (overwrites_sysV imp) (overwrites_rax imp)
    by_cases room : 192 ≤ (entry.gpr .rsp).toNat
    · obtain ⟨called, _, _, _, _, exactly⟩ := exact_when (overwriting imp) (overwrites_sysV imp) room
      have count := exactly.mp allowed
      exact ⟨(congrArg (BitVec.setWidth 8) (overwrites_rax imp called)).symm.trans count, room⟩
    · exact absurd allowed (overwrites_not_transparent receiver aligned (Nat.lt_of_not_le room) imp)
  · obtain ⟨called, _, _, _, _, exactly⟩ := exact_when link conforms room
    refine exactly.mpr ?_
    rw [Cpu.al, returns, same]

/-- An IMP whose address ends in the count of the message. -/
theorem objcMsgSend_transparent_variadicCall : Transparent (overwriting 0x401001) variadicCall :=
  ((objcMsgSend_transparent variadicCall (by decide) (by decide)).2 0x401001).mpr ⟨by decide, by decide⟩
    (overwriting 0x401001) (overwrites_sysV _) (overwrites_rax _)

/-- The callee of a message with one vector argument finds the low byte of its own address instead of the count. -/
theorem objcMsgSend_replaces_count : variadicCall.gpr .rdi ≠ 0 ∧ (variadicCall.gpr .rsp).toNat % 16 = 8 ∧
    192 ≤ (variadicCall.gpr .rsp).toNat ∧ SysV ((overwriting 0x401020).behaviour .objcMsgLookupNonnull) ∧
    variadicCall.al = 1 ∧ (∃ called exit, Sends (overwriting 0x401020) variadicCall called exit ∧ exit.al = 0x20) ∧
    ¬ Transparent (overwriting 0x401020) variadicCall := by
  have receiver : variadicCall.gpr .rdi ≠ 0 := by decide
  have aligned : (variadicCall.gpr .rsp).toNat % 16 = 8 := by decide
  have room : 192 ≤ (variadicCall.gpr .rsp).toNat := by decide
  obtain ⟨called, exit, sends, _, _, count⟩ :=
    objcMsgSend_keeps (overwriting 0x401020) receiver aligned (overwrites_sysV 0x401020) room
  have low : exit.al = 0x20 := count.trans (congrArg (BitVec.setWidth 8) (overwrites_rax 0x401020 called))
  refine ⟨receiver, aligned, room, overwrites_sysV 0x401020, rfl, ⟨called, exit, sends, low⟩, ?_⟩
  rintro ⟨_, exit', sends', _, same⟩
  obtain rfl := sends.unique sends'
  exact absurd (low.symm.trans same) (by decide)

end O3jc
