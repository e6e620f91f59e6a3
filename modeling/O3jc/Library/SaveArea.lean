import Mathlib.Data.List.Nodup
import O3jc.Library.Amd64

namespace O3jc.Library

/-- A place in a frame that holds a register. -/
structure Slot where
  disp : Nat
  register : Register

def Slot.size (slot : Slot) : Nat := slot.register.width / 8

section Slots

variable {Symbol : Type}

def Slot.save (base : Gpr) (slot : Slot) : Instr Symbol :=
  match slot.register with
  | .gpr r => .movStore base slot.disp r
  | .xmm x => .movapsStore base slot.disp x

def Slot.restore (base : Gpr) (slot : Slot) : Instr Symbol :=
  match slot.register with
  | .gpr r => .movLoad r base slot.disp
  | .xmm x => .movapsLoad x base slot.disp

/-- The word that the memory holds in a slot. -/
def Slot.held (slot : Slot) (mem : Ram) (base : BitVec 64) : BitVec slot.register.width :=
  mem.load (base + BitVec.ofNat 64 slot.disp) slot.register.width

/-- The address has an offset inside the slot. -/
def Slot.Covers (slot : Slot) (base a : BitVec 64) : Prop :=
  slot.disp ≤ (a - base).toNat ∧ (a - base).toNat < slot.disp + slot.size

variable {base : Gpr} {m : Cpu}

theorem Register.width_whole (r : Register) : r.width % 8 = 0 ∧ r.width ≤ 128 := by
  cases r <;> simp [Register.width]

/-- A naturally aligned slot of an aligned frame can be accessed by `movaps`. -/
theorem Slot.aligned {slot : Slot} (frame : (m.gpr base).toNat % 16 = 0) {x : Xmm} (isXmm : slot.register = .xmm x)
    (natural : slot.disp % slot.size = 0) : m.aligned base slot.disp := by
  rw [Slot.size, isXmm, Register.width] at natural
  rw [Cpu.aligned, Cpu.address, BitVec.toNat_add, BitVec.toNat_ofNat]
  omega

theorem Slot.save_effect {slot : Slot} (frame : (m.gpr base).toNat % 16 = 0) (natural : slot.disp % slot.size = 0) :
    (slot.save base : Instr Symbol).effect m =
      some { m with mem := m.mem.store (m.address base slot.disp) (m.read slot.register) } := by
  cases kind : slot with
  | mk disp register =>
      cases register with
      | gpr r => rfl
      | xmm x =>
          subst kind
          exact if_pos (Slot.aligned frame rfl natural)

theorem Slot.restore_effect {slot : Slot} (frame : (m.gpr base).toNat % 16 = 0)
    (natural : slot.disp % slot.size = 0) :
    (slot.restore base : Instr Symbol).effect m =
      some (m.write slot.register (slot.held m.mem (m.gpr base))) := by
  cases kind : slot with
  | mk disp register =>
      cases register with
      | gpr r => rfl
      | xmm x =>
          subst kind
          exact if_pos (Slot.aligned frame rfl natural)

variable (Symbol base m)

/-- The saves of separate slots leave every register in its slot and the rest of the memory alone. -/
theorem saves_run (slots : List Slot) (frame : (m.gpr base).toNat % 16 = 0)
    (natural : ∀ s ∈ slots, s.disp % s.size = 0) (fits : ∀ s ∈ slots, s.disp + s.size ≤ 2 ^ 64)
    (apart : slots.Pairwise fun s t => s.disp + s.size ≤ t.disp ∨ t.disp + t.size ≤ s.disp) :
    ∃ (trace : Trace Symbol) (mem : Ram),
      Runs (slots.map (Slot.save base)) m trace { m with mem := mem } ∧
      (∀ s ∈ slots, s.held mem (m.gpr base) = m.read s.register) ∧
      ∀ a, (∀ s ∈ slots, ¬ s.Covers (m.gpr base) a) → mem a = m.mem a := by
  induction slots generalizing m with
  | nil => exact ⟨[], m.mem, .nil m, by simp, fun _ _ => rfl⟩
  | cons slot rest ih =>
      have natural' := List.forall_mem_cons.mp natural
      have fits' := List.forall_mem_cons.mp fits
      obtain ⟨apartHead, apartRest⟩ := List.pairwise_cons.mp apart
      obtain ⟨whole, narrow⟩ := slot.register.width_whole
      let stored := m.mem.store (m.address base slot.disp) (m.read slot.register)
      have covers : ∀ a, slot.Covers (m.gpr base) a ↔
          (a - m.address base slot.disp).toNat < slot.register.width / 8 := fun a => (mem_word_iff fits'.1 a).symm
      obtain ⟨trace, mem, runs, held, outside⟩ :=
        ih { m with mem := stored } frame natural'.2 fits'.2 apartRest
      have read : ∀ r, ({ m with mem := stored } : Cpu).read r = m.read r := Cpu.read_congr rfl rfl
      refine ⟨_, mem, .cons (slot.save_effect frame natural'.1) runs, fun s member => ?_, fun a uncovered => ?_⟩
      · rcases List.mem_cons.mp member with rfl | later
        · -- The later slots do not touch the word that was stored first.
          have kept : s.held mem (m.gpr base) = s.held stored (m.gpr base) := by
            refine Ram.load_congr (by omega) (fun a inside => outside a fun t inRest => ?_) whole
            have here := (covers a).mpr inside
            have separate := apartHead t inRest
            simp only [Slot.Covers] at here ⊢
            omega
          rw [kept]
          exact Ram.load_store_self _ (by omega) whole
        · rw [held s later, read]
      · obtain ⟨first, others⟩ := List.forall_mem_cons.mp uncovered
        rw [outside a others]
        exact Ram.store_of_outside _ fun inside => first ((covers a).mpr inside)

/-- The restores load every register from its slot and leave the other registers alone. -/
theorem restores_run (slots : List Slot) (frame : (m.gpr base).toNat % 16 = 0)
    (natural : ∀ s ∈ slots, s.disp % s.size = 0) (distinct : (slots.map Slot.register).Nodup)
    (kept : Register.gpr base ∉ slots.map Slot.register) :
    ∃ (trace : Trace Symbol) (m' : Cpu), Runs (slots.map (Slot.restore base)) m trace m' ∧ m'.mem = m.mem ∧
      (∀ s ∈ slots, m'.read s.register = s.held m.mem (m.gpr base)) ∧
      ∀ r ∉ slots.map Slot.register, m'.read r = m.read r := by
  induction slots generalizing m with
  | nil => exact ⟨[], m, .nil m, rfl, by simp, fun _ _ => rfl⟩
  | cons slot rest ih =>
      have natural' := List.forall_mem_cons.mp natural
      obtain ⟨single, distinctRest⟩ := List.nodup_cons.mp distinct
      obtain ⟨apart, keptRest⟩ := not_or.mp (mt List.mem_cons.mpr kept)
      let loaded := m.write slot.register (slot.held m.mem (m.gpr base))
      have sameBase : loaded.gpr base = m.gpr base := m.read_write_of_ne _ apart
      obtain ⟨trace, m', runs, mem, restored, others⟩ :=
        ih loaded (sameBase ▸ frame) natural'.2 distinctRest keptRest
      rw [Cpu.write_mem] at mem restored
      refine ⟨_, m', .cons (slot.restore_effect frame natural'.1) runs, mem, fun s member => ?_, fun r outside => ?_⟩
      · rcases List.mem_cons.mp member with rfl | later
        · rw [others _ single]
          exact m.read_write_self _ _
        · rw [restored s later, sameBase]
      · obtain ⟨different, outsideRest⟩ := not_or.mp (mt List.mem_cons.mpr outside)
        rw [others r outsideRest]
        exact m.read_write_of_ne _ different

end Slots

/-- A part of a stack frame in which registers survive a call. -/
structure SaveArea where
  size : Nat
  slots : List Slot
  bounded : size < 2 ^ 64
  frame : size % 16 = 8
  inside : ∀ s ∈ slots, s.disp + s.size ≤ size
  natural : ∀ s ∈ slots, s.disp % s.size = 0
  apart : slots.Pairwise fun s t => s.disp + s.size ≤ t.disp ∨ t.disp + t.size ≤ s.disp
  distinct : (slots.map Slot.register).Nodup
  reserved : ∀ r ∈ [Gpr.rsp, .r11], Register.gpr r ∉ slots.map Slot.register

/-- The code in front of the call. -/
def SaveArea.enter {Symbol : Type} (area : SaveArea) : List (Instr Symbol) :=
  .sub .rsp area.size :: area.slots.map (Slot.save .rsp)

/-- The code behind the call, which keeps the result in `r11`. -/
def SaveArea.leave {Symbol : Type} (area : SaveArea) : List (Instr Symbol) :=
  .mov .r11 .rax :: (area.slots.map (Slot.restore .rsp) ++ [.add .rsp area.size])

/-- The area around a call of the function, whose result is the address where control goes next. -/
def SaveArea.tailCall {Symbol : Type} (area : SaveArea) (symbol : Symbol) : List (Instr Symbol) :=
  area.enter ++ .call symbol :: (area.leave ++ [.jmp .r11])

section Areas

variable (Symbol : Type) (area : SaveArea) (m : Cpu)

/-- The frame of the area lies below the return address. -/
def SaveArea.base : BitVec 64 := m.gpr .rsp - BitVec.ofNat 64 area.size

variable {m} in
theorem SaveArea.base_aligned (aligned : (m.gpr .rsp).toNat % 16 = 8) : (area.base m).toNat % 16 = 0 := by
  have bounded := area.bounded
  have multiple := area.frame
  rw [SaveArea.base, BitVec.toNat_sub, BitVec.toNat_ofNat]
  omega

theorem SaveArea.register_ne_rsp {slot : Slot} (member : slot ∈ area.slots) : slot.register ≠ .gpr .rsp := fun same =>
  area.reserved .rsp (by decide) (same ▸ List.mem_map_of_mem member)

variable {area} in
/-- Two memories that agree on the frame hold the same words in the slots. -/
theorem SaveArea.held_congr {slot : Slot} (member : slot ∈ area.slots) {top : BitVec 64} {mem mem' : Ram}
    (same : ∀ a, (a - top).toNat < area.size → mem' a = mem a) : slot.held mem' top = slot.held mem top := by
  have within := area.inside slot member
  obtain ⟨whole, narrow⟩ := slot.register.width_whole
  refine Ram.load_congr (by omega) (fun a inside => same a ?_) whole
  have covered := (mem_word_iff (Nat.le_trans within (Nat.le_of_lt area.bounded)) a).mp inside
  exact Nat.lt_of_lt_of_le covered.2 within

/-- At the call the area holds the registers, and the memory outside it is untouched. -/
theorem SaveArea.enter_runs (aligned : (m.gpr .rsp).toNat % 16 = 8) :
    ∃ (trace : Trace Symbol) (full : Cpu), Runs area.enter m trace full ∧
      full.gpr .rsp = area.base m ∧ (∀ r, r ≠ .rsp → full.gpr r = m.gpr r) ∧
      (∀ s ∈ area.slots, s.held full.mem (area.base m) = m.read s.register) ∧
      ∀ a, area.size ≤ (a - area.base m).toNat → full.mem a = m.mem a := by
  let top := area.base m
  let lowered : Cpu := { m.setGpr .rsp top with zf := top == 0 }
  have lowers : (Instr.sub .rsp area.size : Instr Symbol).effect m = some lowered := rfl
  have isTop : lowered.gpr .rsp = top := m.setGpr_self .rsp top
  obtain ⟨trace, mem, runs, held, outside⟩ := saves_run Symbol .rsp lowered area.slots
    (isTop ▸ area.base_aligned aligned) area.natural
    (fun s member => Nat.le_trans (area.inside s member) (Nat.le_of_lt area.bounded)) area.apart
  rw [isTop] at held outside
  refine ⟨_, _, .cons lowers runs, isTop, fun r different => m.setGpr_of_ne top different, fun s member => ?_,
    fun a beyond => ?_⟩
  · change s.held mem top = m.read s.register
    rw [held s member, ← m.read_write_of_ne (r := .gpr .rsp) top (area.register_ne_rsp member)]
    exact Cpu.read_congr rfl rfl s.register
  · refine outside a fun s member covered => ?_
    exact absurd (Nat.lt_of_lt_of_le covered.2 (area.inside s member)) (Nat.not_lt.mpr beyond)

/-- The code behind the call restores the registers and leaves everything else but the scratch register alone. -/
theorem SaveArea.leave_runs (aligned : (m.gpr .rsp).toNat % 16 = 0) :
    ∃ (trace : Trace Symbol) (m' : Cpu), Runs area.leave m trace m' ∧ m'.mem = m.mem ∧
      m'.gpr .rsp = m.gpr .rsp + BitVec.ofNat 64 area.size ∧ m'.gpr .r11 = m.gpr .rax ∧
      (∀ s ∈ area.slots, m'.read s.register = s.held m.mem (m.gpr .rsp)) ∧
      ∀ r, r ≠ .rsp → r ≠ .r11 → Register.gpr r ∉ area.slots.map Slot.register → m'.gpr r = m.gpr r := by
  let moved := m.setGpr .r11 (m.gpr .rax)
  have moves : (Instr.mov .r11 .rax : Instr Symbol).effect m = some moved := rfl
  obtain ⟨trace, loaded, runs, mem, restored, others⟩ := restores_run Symbol .rsp moved area.slots
    aligned area.natural area.distinct (area.reserved .rsp (by decide))
  have kept : ∀ r, Register.gpr r ∉ area.slots.map Slot.register → loaded.gpr r = moved.gpr r := fun r outside =>
    others (.gpr r) outside
  let top := loaded.gpr .rsp + BitVec.ofNat 64 area.size
  let raised : Cpu := { loaded.setGpr .rsp top with zf := top == 0 }
  have raises : (Instr.add .rsp area.size : Instr Symbol).effect loaded = some raised := rfl
  have raise : ∀ r, r ≠ .rsp → raised.gpr r = loaded.gpr r := fun r different =>
    loaded.setGpr_of_ne top different
  refine ⟨_, raised, .cons moves (runs.append (.cons raises (.nil raised))), mem, ?_, ?_,
    fun s member => ?_, fun r notRsp notR11 outside => ?_⟩
  · have rsp : loaded.gpr .rsp = m.gpr .rsp := kept .rsp (area.reserved .rsp (by decide))
    rw [← rsp]
    exact loaded.setGpr_self .rsp top
  · rw [raise .r11 (by decide), kept .r11 (area.reserved .r11 (by decide))]
    exact m.setGpr_self .r11 (m.gpr .rax)
  · have saved : loaded.read s.register = s.held m.mem (m.gpr .rsp) := restored s member
    rw [← saved, ← loaded.read_write_of_ne (r := .gpr .rsp) top (area.register_ne_rsp member)]
    exact Cpu.read_congr rfl rfl s.register
  · rw [raise r notRsp, kept r outside]
    exact m.setGpr_of_ne (m.gpr .rax) notR11

/-- The pushed return address lies below the frame. -/
theorem above_push {a top : BitVec 64} {n : Nat} (inside : (a - top).toNat < n) (bounded : n + 8 ≤ 2 ^ 64) :
    8 ≤ (a - (top - 8)).toNat := by
  have shifted : a - (top - 8) = a - top + 8 := by bv_omega
  have word : (8 : BitVec 64).toNat = 8 := rfl
  rw [shifted, BitVec.toNat_add, word]
  omega

/-- What the function finds at its entry, and what it leaves to the code behind the call. -/
structure SaveArea.Forwards (behaviour : Cpu → Cpu) (entry called exit : Cpu) : Prop where
  rspCalled : called.gpr .rsp = area.base entry - 8
  gprCalled : ∀ r, r ≠ .rsp → called.gpr r = entry.gpr r
  held : ∀ s ∈ area.slots, s.held called.mem (area.base entry) = entry.read s.register
  outside : ∀ a, area.size ≤ (a - area.base entry).toNat → 8 ≤ (a - (area.base entry - 8)).toNat →
    called.mem a = entry.mem a
  mem : exit.mem = (behaviour called).mem
  rsp : exit.gpr .rsp = entry.gpr .rsp
  restored : ∀ s ∈ area.slots, exit.read s.register = s.held (behaviour called).mem (area.base entry)
  others : ∀ r, r ≠ .rsp → r ≠ .r11 → Register.gpr r ∉ area.slots.map Slot.register →
    exit.gpr r = (behaviour called).gpr r

variable {Symbol}

/-- The function is called once, from an aligned stack, and control goes to the address that it returns. -/
theorem SaveArea.tailCall_leaves {link : Linkage Symbol} {symbol : Symbol} (conforms : SysV (link.behaviour symbol))
    (entry : Cpu) (aligned : (entry.gpr .rsp).toNat % 16 = 8) (room : 8 ≤ (area.base entry).toNat)
    (rest : List (Instr Symbol)) :
    ∃ (trace : Trace Symbol) (called exit : Cpu),
      Leaves link (area.tailCall symbol ++ rest) entry trace ((link.behaviour symbol called).gpr .rax) exit ∧
      (∃ before, (.call symbol, before) ∈ trace ∧
        before.push (link.site (area.leave ++ ([.jmp .r11] ++ rest))) = some called) ∧
      (∀ visit ∈ trace, visit.1.AlignedAt visit.2) ∧
      area.Forwards (link.behaviour symbol) entry called exit := by
  obtain ⟨before, full, entered, top, gpr, held, outside⟩ := area.enter_runs Symbol entry aligned
  have frame := area.base_aligned aligned
  obtain ⟨called, pushed, call, rspCalled, gprCalled, above, returned⟩ :=
    conforms.call (by rw [top, frame]) (top ▸ room) (area.leave ++ ([.jmp .r11] ++ rest))
  rw [top] at rspCalled above returned
  obtain ⟨after, exit, left, mem, rsp, r11, restored, others⟩ :=
    area.leave_runs Symbol (link.behaviour symbol called) (by rw [returned, frame])
  rw [returned] at rsp restored
  have jump : Leaves link ([.jmp .r11] ++ rest) exit [(.jmp .r11, exit)]
      ((link.behaviour symbol called).gpr .rax) exit := .exit (by rw [← r11]; rfl)
  refine ⟨before ++ (.call symbol, full) :: (after ++ [(.jmp .r11, exit)]), called, exit, ?_,
    ⟨full, by simp, pushed⟩, ?_, rspCalled, fun r different => ?_, fun s member => ?_,
    fun a beyond apart => ?_, mem, ?_, restored, others⟩
  · rw [SaveArea.tailCall, List.append_assoc, List.cons_append, List.append_assoc]
    exact .of_runs entered (.next call (.of_runs left jump))
  · intro visit member
    simp only [List.mem_append, List.mem_cons, List.not_mem_nil, or_false] at member
    rcases member with first | rfl | last | rfl
    · exact entered.aligned visit first
    · exact (congrArg (fun top => top.toNat % 16) top).trans frame
    · exact left.aligned visit last
    · trivial
  · rw [gprCalled r different, gpr r different]
  · rw [← held s member]
    refine area.held_congr member fun a inside => above a (above_push inside ?_)
    have bounded := area.bounded
    have multiple := area.frame
    omega
  · rw [above a apart]
    exact outside a beyond
  · rw [rsp, SaveArea.base, BitVec.sub_add_cancel]

variable {area} in
/-- A frame that does not wrap around keeps the registers of the area and the stack of the caller. -/
theorem SaveArea.Forwards.preserves {behaviour : Cpu → Cpu} {entry called exit : Cpu}
    (forwards : area.Forwards behaviour entry called exit) (conforms : SysV behaviour)
    (aligned : (entry.gpr .rsp).toNat % 16 = 8) (room : area.size + 8 ≤ (entry.gpr .rsp).toNat) :
    (∀ s ∈ area.slots, exit.read s.register = entry.read s.register) ∧
    (∀ a, (entry.gpr .rsp).toNat ≤ a.toNat → exit.mem a = entry.mem a) ∧
    ∀ r ∈ calleeSaved, Register.gpr r ∉ area.slots.map Slot.register → exit.gpr r = entry.gpr r := by
  have base : (area.base entry).toNat = (entry.gpr .rsp).toNat - area.size := by
    have below := (entry.gpr .rsp).isLt
    rw [SaveArea.base, BitVec.toNat_sub, BitVec.toNat_ofNat]
    omega
  have frame := area.base_aligned aligned
  have top : (called.gpr .rsp).toNat + 8 = (area.base entry).toNat := by
    rw [forwards.rspCalled, pushed_toNat (by omega)]
  have entered : ((called.gpr .rsp).toNat + 8) % 16 = 0 := by rw [top, frame]
  -- The function keeps the frame and everything above it.
  have above : ∀ a, (area.base entry).toNat ≤ a.toNat → (behaviour called).mem a = called.mem a := fun a beyond =>
    conforms.above called entered a (by rw [top]; exact beyond)
  refine ⟨fun s member => ?_, fun a beyond => ?_, fun r member outside => ?_⟩
  · rw [forwards.restored s member, ← forwards.held s member]
    refine area.held_congr member fun a inside => above a ?_
    rw [BitVec.toNat_sub] at inside
    omega
  · rw [forwards.mem, above a (by omega), forwards.outside a]
    · rw [BitVec.toNat_sub]
      omega
    · have below := a.isLt
      have pushed : (area.base entry - 8).toNat + 8 = (area.base entry).toNat := pushed_toNat (by omega)
      rw [BitVec.toNat_sub]
      omega
  · have neither : ∀ r ∈ calleeSaved, r ≠ .rsp ∧ r ≠ .r11 := by decide
    obtain ⟨notRsp, notR11⟩ := neither r member
    rw [forwards.others r notRsp notR11 outside, conforms.saved called entered r member, forwards.gprCalled r notRsp]

/-- Without room for the return address the call faults. -/
theorem SaveArea.tailCall_faults {link : Linkage Symbol} {symbol : Symbol} (entry : Cpu)
    (aligned : (entry.gpr .rsp).toNat % 16 = 8) (full : (area.base entry).toNat < 8) {rest : List (Instr Symbol)}
    {trace : Trace Symbol} {target : BitVec 64} {exit : Cpu} :
    ¬ Leaves link (area.tailCall symbol ++ rest) entry trace target exit := by
  intro leaves
  obtain ⟨before, reached, entered, top, _⟩ := area.enter_runs Symbol entry aligned
  rw [SaveArea.tailCall, List.append_assoc] at leaves
  obtain ⟨_, later⟩ := leaves.after_runs entered
  have noPush : ∀ site, reached.push site = none := fun site => if_neg (by rw [top]; omega)
  cases later with
  | exit last => simp [step, noPush] at last
  | next first _ => simp [step, noPush] at first

end Areas

end O3jc.Library
