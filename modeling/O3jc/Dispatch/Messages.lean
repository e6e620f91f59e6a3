import O3jc.Dispatch.ObjectModel
import O3jc.Dispatch.Trampoline

/-
This file carries a message from the registers of its sender to the method that the classes give it.
-/

namespace O3jc

open Library

/-- After every run of the runtime, the code of `objc_msgSend` leaves for the method that the instance inherits, with the
arguments of the sender, and it answers null with zero. -/
theorem objcMsgSend_reaches {image : List ClassPtr} {rt0 rt : Runtime} (static : StaticImage image rt0)
    (distinct : DistinctCompiled rt0) {calls : List (ObjectOp × ObjectAnswer)}
    (run : Traced ObjectOp.exec (ObjectOp.Permitted image) rt0 calls rt) {model : ObjectModel}
    (means : Traced (ObjectModel.exec rt0) (fun _ _ => True) (.compiled rt0) calls model) (names : DistinctBelow rt)
    {link : Linkage Lookup} (conforms : SysV (link.behaviour .objcMsgLookupNonnull)) :
    (∀ (encoding : Encoding) (cls : ClassPtr) (sel : SEL) (imp : IMP) (entry : Cpu),
      (rt.classes cls).isRegistered = true → model.dispatch cls (selNamePtr rt0 sel) = some imp →
      encoding.Computes rt (.object cls) sel (link.behaviour .objcMsgLookupNonnull) →
      entry.gpr .rdi = encoding.receiver (.object cls) → encoding.receiver (.object cls) ≠ 0 →
      entry.gpr .rsi = encoding.selector sel → (entry.gpr .rsp).toNat % 16 = 8 → 192 ≤ (entry.gpr .rsp).toNat →
      ∃ trace exit, Leaves link objcMsgSend entry trace (encoding.imp imp) exit ∧ KeepsArguments entry exit) ∧
    ∀ entry : Cpu, entry.gpr .rdi = 0 → ∃ trace exit,
      Leaves link objcMsgSend entry trace (entry.mem.load (entry.gpr .rsp) 64) exit ∧ exit.gpr .rax = 0 ∧
        exit.gpr .rdx = 0 ∧ exit.xmm .xmm0 = 0 ∧ exit.xmm .xmm1 = 0 ∧ exit.gpr .rsp = entry.gpr .rsp + 8 ∧
        exit.mem = entry.mem ∧ ∀ r ∈ calleeSaved, exit.gpr r = entry.gpr r := by
  obtain ⟨model', abstractRun, inv⟩ := run.simulates (ObjectModel.exec rt0) (ModelInv image rt0)
    (fun _ _ _ _ _ inv => inv.step distinct) static.modelInv
  obtain rfl := means.unique abstractRun
  have graph := inv.bindings.world.graph
  refine ⟨?_, fun entry => objcMsgSend_nil link⟩
  intro encoding cls sel imp entry registered dispatches computes isReceiver notNil isSel aligned room
  obtain ⟨kind, loaded⟩ := graph.registeredClass cls registered
  have coherent : rt.Coherent cls := inv.instances.coherent (names.distinctNames graph) cls registered
  have found : classLookupMethod rt cls sel = some imp :=
    (inv.lookup (graph.lt_of_loaded loaded) kind sel).trans dispatches
  exact objcMsgSend_dispatches conforms computes isReceiver notNil isSel aligned room rfl coherent found

/-- An instance of the compiled subclass inherits a method of its superclass. -/
theorem objcMsgSend_reaches_inherited : ∃ trace exit,
    Leaves (overwriting 0x401070) objcMsgSend variadicCall trace 0x401070 exit ∧ KeepsArguments variadicCall exit := by
  let encoding : Encoding := ⟨fun _ => 0x1000, fun _ => 0x2000, fun imp => 0x401000 + BitVec.ofNat 64 (16 * imp)⟩
  have ran : ∃ ended ∈ replayTraced ObjectOp.exec (ObjectOp.Permitted [0, 2]) compiledPair
      [.call (.loadClasses [some 0, some 2])], ended.2 = [(.call (.loadClasses [some 0, some 2]), .call .done)] ∧
      DistinctBelow ended.1 ∧ (ended.1.classes 2).isRegistered = true ∧
        (objcMsgLookupNonnull ended.1 (some (.object 2)) 0).map Prod.snd = some 7 :=
    ⟨_, rfl, rfl, by decide +kernel, rfl, rfl⟩
  obtain ⟨⟨rt, calls⟩, replayed, rfl, names, registered, answer⟩ := ran
  have means : Traced (ObjectModel.exec compiledPair) (fun _ _ => True) (.compiled compiledPair)
      [(.call (.loadClasses [some 0, some 2]), .call .done)] _ := .cons trivial rfl (.nil _)
  have conforms : SysV ((overwriting 0x401070).behaviour .objcMsgLookupNonnull) := overwrites_sysV 0x401070
  have reaches := objcMsgSend_reaches compiledPair_static compiledPair_distinct (traced_of_replay replayed) means names
    conforms
  refine reaches.1 encoding 2 0 7 variadicCall registered ?_ ?_ rfl (by decide) rfl (by decide) (by decide)
  · exact inherited_eq_some_iff.mpr (.parent rfl rfl (.own rfl))
  · intro m rt' imp _ _ lookup
    rw [lookup] at answer
    obtain rfl := Option.some.inj answer
    exact overwrites_rax _ m

end O3jc
