import O3jc.Runtime.Types

/-
This file embeds the selector tables of `sel.rs`. A panic is `none`.
-/

namespace O3jc

/-- `intern_selector_name` leaks one C string for each new name. -/
def internSelectorName (rt : Runtime) (name : String) : Option (Runtime × CStrPtr) :=
  match rt.nameTable name with
  | some ptr => some (rt, ptr)
  | none => do
      let cstr ← CStr.ofStr name
      let ptr := rt.nextCString
      some ({ rt with
        cStrings := Function.update rt.cStrings ptr cstr
        nextCString := ptr + 1
        nameTable := Function.update rt.nameTable name (some ptr) }, ptr)

/-- `sel_register_name_str` leaks one untyped selector for each new name. -/
def selRegisterNameStr (rt : Runtime) (name : String) : Option (Runtime × SEL) :=
  match rt.selTable name with
  | some sel => some (rt, sel)
  | none => do
      let (rt, namePtr) ← internSelectorName rt name
      let sel := rt.nextSelector
      some ({ rt with
        selectors := Function.update rt.selectors sel ⟨some namePtr, none⟩
        nextSelector := sel + 1
        selTable := Function.update rt.selTable name (some sel) }, sel)

/-- `sel_register_name_cstr` decodes the C string lossily. -/
def selRegisterNameCstr (rt : Runtime) (name : CStr) : Option (Runtime × SEL) :=
  selRegisterNameStr rt name.toStringLossy

def selNamePtr (rt : Runtime) (sel : SEL) : Option CStrPtr := (rt.selectors sel).name

def selGetName (rt : Runtime) (sel : SEL) : Option CStrPtr := selNamePtr rt sel

/-- `sel_eq` compares the interned name pointers. -/
def selEq (rt : Runtime) (a b : SEL) : Bool := selNamePtr rt a == selNamePtr rt b

@[simp] theorem selEq_self (rt : Runtime) (sel : SEL) : selEq rt sel sel = true := by
  simp [selEq]

theorem selEq_symm {rt : Runtime} {a b : SEL} (same : selEq rt a b = true) : selEq rt b a = true := by
  simp only [selEq, beq_iff_eq] at same ⊢
  exact same.symm

/-- Equal selectors match the same entries. -/
theorem selEq_congr_right {rt : Runtime} {a b : SEL} (same : selEq rt a b = true) (other : SEL) :
    selEq rt other a = selEq rt other b := by
  simp only [selEq, beq_iff_eq] at same
  simp only [selEq, same]

theorem selEq_congr_left {rt : Runtime} {a b : SEL} (same : selEq rt a b = true) (other : SEL) :
    selEq rt a other = selEq rt b other := by
  simp only [selEq, beq_iff_eq] at same
  simp only [selEq, same]

end O3jc
