import Mathlib.Data.List.Basic
import Mathlib.Tactic.Tauto
import Cminusfc.LightIR.Ir

/-!
# Editing a function

What the operations of `User`, `Value`, `BasicBlock` and the constructors of instructions change,
field by field. Each operation on use lists leaves the block lists alone and the other way round;
`replaceAllUseWith_instr` says what a replacement does to a user: exactly the recorded slots.

Source: `src/lightir/User.cpp` 5-49, `Value.cpp` 12-31, `BasicBlock.cpp` 20-34. Out of scope:
operands that are null or out of range, which `DefUse` has.
-/

namespace Cminusfc.LightIR.Func

variable (f : Func)

/-! ## Use lists -/

section Uses

variable (v w : Value) (u : Use) (i : InstrId)

@[simp] theorem addUse_toCfg : (f.addUse v u).toCfg = f.toCfg := rfl
@[simp] theorem addUse_body : (f.addUse v u).body = f.body := rfl
@[simp] theorem addUse_instr : (f.addUse v u).instr = f.instr := rfl
@[simp] theorem addUse_next : (f.addUse v u).next = f.next := rfl

theorem addUse_uses_of_ne {v w : Value} (h : w ≠ v) : (f.addUse v u).uses w = f.uses w :=
  Function.update_of_ne h _ _

@[simp] theorem removeUse_toCfg : (f.removeUse v i).toCfg = f.toCfg := rfl
@[simp] theorem removeUse_body : (f.removeUse v i).body = f.body := rfl
@[simp] theorem removeUse_instr : (f.removeUse v i).instr = f.instr := rfl
@[simp] theorem removeUse_next : (f.removeUse v i).next = f.next := rfl

theorem mem_removeUse_uses {x : Use} :
    x ∈ (f.removeUse v i).uses w ↔ x ∈ f.uses w ∧ (w = v → x.1 ≠ i) := by
  unfold removeUse
  by_cases h : w = v
  · subst h
    simp
  · simp [h]

/-- Dropping the uses by an instruction touches the use lists only. -/
theorem foldl_removeUse (l : List Value) :
    (l.foldl (fun f v => f.removeUse v i) f).toCfg = f.toCfg ∧
      (l.foldl (fun f v => f.removeUse v i) f).body = f.body ∧
      (l.foldl (fun f v => f.removeUse v i) f).instr = f.instr ∧
      (l.foldl (fun f v => f.removeUse v i) f).next = f.next ∧
      ∀ w x, x ∈ (l.foldl (fun f v => f.removeUse v i) f).uses w ↔
        x ∈ f.uses w ∧ (w ∈ l → x.1 ≠ i) := by
  induction l generalizing f with
  | nil => simp
  | cons v l ih =>
    obtain ⟨h1, h2, h3, h4, h5⟩ := ih (f.removeUse v i)
    refine ⟨h1, h2, h3, h4, fun w x => ?_⟩
    rw [List.foldl_cons, h5, mem_removeUse_uses, List.mem_cons]
    tauto

end Uses

/-! ## Blocks -/

section Blocks

variable (b : BlockId) (i : InstrId) (l : List InstrId)

@[simp] theorem setBody_toCfg : (f.setBody b l).toCfg = f.toCfg := rfl
@[simp] theorem setBody_instr : (f.setBody b l).instr = f.instr := rfl
@[simp] theorem setBody_uses : (f.setBody b l).uses = f.uses := rfl
@[simp] theorem setBody_next : (f.setBody b l).next = f.next := rfl
@[simp] theorem setBody_body : (f.setBody b l).body = Function.update f.body b l := rfl

@[simp] theorem addInstruction_toCfg : (f.addInstruction b i).toCfg = f.toCfg := rfl
@[simp] theorem addInstruction_instr : (f.addInstruction b i).instr = f.instr := rfl
@[simp] theorem addInstruction_uses : (f.addInstruction b i).uses = f.uses := rfl
@[simp] theorem addInstruction_next : (f.addInstruction b i).next = f.next := rfl
@[simp] theorem addInstruction_body :
    (f.addInstruction b i).body = Function.update f.body b (f.body b ++ [i]) := rfl

@[simp] theorem deleteInstr_toCfg : (f.deleteInstr b i).toCfg = f.toCfg :=
  (foldl_removeUse _ i _).1

@[simp] theorem deleteInstr_body :
    (f.deleteInstr b i).body = Function.update f.body b ((f.body b).filter (· ≠ i)) :=
  (foldl_removeUse _ i _).2.1

@[simp] theorem deleteInstr_instr : (f.deleteInstr b i).instr = f.instr :=
  (foldl_removeUse _ i _).2.2.1

@[simp] theorem deleteInstr_next : (f.deleteInstr b i).next = f.next :=
  (foldl_removeUse _ i _).2.2.2.1

theorem mem_deleteInstr_uses {w : Value} {x : Use} :
    x ∈ (f.deleteInstr b i).uses w ↔ x ∈ f.uses w ∧ (w ∈ (f.instr i).operands → x.1 ≠ i) :=
  (foldl_removeUse (f.setBody b ((f.body b).filter (· ≠ i))) i _).2.2.2.2 w x

end Blocks

/-! ## Construction -/

section New

variable (x : Instr)

theorem foldl_addUse (l : List (Value × Nat)) (i : InstrId) :
    (l.foldl (fun g v => g.addUse v.1 (i, v.2)) f).toCfg = f.toCfg ∧
      (l.foldl (fun g v => g.addUse v.1 (i, v.2)) f).body = f.body ∧
      (l.foldl (fun g v => g.addUse v.1 (i, v.2)) f).instr = f.instr ∧
      (l.foldl (fun g v => g.addUse v.1 (i, v.2)) f).next = f.next ∧
      ∀ w, w ∉ l.map Prod.fst → (l.foldl (fun g v => g.addUse v.1 (i, v.2)) f).uses w = f.uses w := by
  induction l generalizing f with
  | nil => simp
  | cons v l ih =>
    obtain ⟨h1, h2, h3, h4, h5⟩ := ih (f.addUse v.1 (i, v.2))
    refine ⟨h1, h2, h3, h4, fun w hw => ?_⟩
    rw [List.map_cons, List.mem_cons, not_or] at hw
    rw [List.foldl_cons, h5 w hw.2, addUse_uses_of_ne f _ hw.1]

@[simp] theorem newInstr_toCfg : (f.newInstr x).toCfg = f.toCfg := (foldl_addUse _ _ _).1
@[simp] theorem newInstr_body : (f.newInstr x).body = f.body := (foldl_addUse _ _ _).2.1

@[simp] theorem newInstr_instr : (f.newInstr x).instr = Function.update f.instr f.next x :=
  (foldl_addUse _ _ _).2.2.1

@[simp] theorem newInstr_next : (f.newInstr x).next = f.next + 1 := (foldl_addUse _ _ _).2.2.2.1

theorem newInstr_uses {w : Value} (h : w ∉ x.operands) : (f.newInstr x).uses w = f.uses w := by
  refine (foldl_addUse { f.setInstr f.next x with next := f.next + 1 } _ _).2.2.2.2 w ?_
  rw [List.zipIdx_map_fst]
  exact h

end New

/-! ## Operands -/

section Operands

@[simp] theorem setOperand_toCfg (u : InstrId) (no : Nat) (v : Value) :
    (f.setOperand u no v).toCfg = f.toCfg := rfl

@[simp] theorem setOperand_body (u : InstrId) (no : Nat) (v : Value) :
    (f.setOperand u no v).body = f.body := rfl

@[simp] theorem setOperand_next (u : InstrId) (no : Nat) (v : Value) :
    (f.setOperand u no v).next = f.next := rfl

theorem setOperand_instr (u : InstrId) (no : Nat) (v : Value) :
    (f.setOperand u no v).instr =
      Function.update f.instr u { f.instr u with operands := (f.instr u).operands.set no v } := rfl

theorem setOperand_uses {u : InstrId} {no : Nat} {v w : Value} (h : w ≠ v) :
    (f.setOperand u no v).uses w = f.uses w :=
  addUse_uses_of_ne _ _ h

/-- The operands of `u` after the slots `slots` have been set to `new`. -/
def replaceSlots (slots : List Use) (new : Value) (u : InstrId) (operands : List Value) :
    List Value :=
  operands.mapIdx fun no v => if (u, no) ∈ slots then new else v

theorem replaceSlots_of_none {slots : List Use} {u : InstrId} (h : ∀ no, (u, no) ∉ slots)
    (new : Value) (operands : List Value) : replaceSlots slots new u operands = operands := by
  unfold replaceSlots
  apply List.ext_getElem?
  intro no
  simp only [List.getElem?_mapIdx, h no, if_false]
  simp

theorem replaceSlots_cons (a : Use) (slots : List Use) (new : Value) (u : InstrId)
    (operands : List Value) :
    replaceSlots (a :: slots) new u operands =
      replaceSlots slots new u (if u = a.1 then operands.set a.2 new else operands) := by
  unfold replaceSlots
  apply List.ext_getElem?
  intro no
  simp only [List.getElem?_mapIdx]
  by_cases hu : u = a.1
  · subst hu
    simp only [if_true, List.getElem?_set]
    by_cases hno : a.2 = no
    · subst hno
      by_cases hlt : a.2 < operands.length
      · simp [hlt]
      · simp [hlt]
    · have hne : ¬ (a.1, no) = a := fun h => hno (by rw [← h])
      simp [hno, hne]
  · have hne : ¬ (u, no) = a := fun h => hu (by rw [← h])
    simp [hu, hne]

theorem foldl_setOperand (slots : List Use) (new : Value) :
    (slots.foldl (fun f u => f.setOperand u.1 u.2 new) f).toCfg = f.toCfg ∧
      (slots.foldl (fun f u => f.setOperand u.1 u.2 new) f).body = f.body ∧
      (slots.foldl (fun f u => f.setOperand u.1 u.2 new) f).next = f.next ∧
      (∀ u, (slots.foldl (fun f u => f.setOperand u.1 u.2 new) f).instr u =
        { f.instr u with operands := replaceSlots slots new u (f.instr u).operands }) ∧
      ∀ w, w ≠ new → (slots.foldl (fun f u => f.setOperand u.1 u.2 new) f).uses w = f.uses w := by
  induction slots generalizing f with
  | nil => simp [replaceSlots_of_none]
  | cons a slots ih =>
    obtain ⟨h1, h2, h3, h4, h5⟩ := ih (f.setOperand a.1 a.2 new)
    refine ⟨h1, h2, h3, fun u => ?_, fun w hw => ?_⟩
    · rw [List.foldl_cons, h4 u, replaceSlots_cons, setOperand_instr]
      by_cases hu : u = a.1
      · subst hu
        simp
      · simp [hu]
    · rw [List.foldl_cons, h5 w hw, setOperand_uses f hw]

variable (old new : Value)

@[simp] theorem replaceAllUseWith_toCfg : (f.replaceAllUseWith old new).toCfg = f.toCfg :=
  (foldl_setOperand f _ new).1

@[simp] theorem replaceAllUseWith_body : (f.replaceAllUseWith old new).body = f.body :=
  (foldl_setOperand f _ new).2.1

@[simp] theorem replaceAllUseWith_next : (f.replaceAllUseWith old new).next = f.next :=
  (foldl_setOperand f _ new).2.2.1

/-- `replace_all_use_with` changes the recorded slots and nothing else of a user. -/
theorem replaceAllUseWith_instr (u : InstrId) :
    (f.replaceAllUseWith old new).instr u =
      { f.instr u with operands := replaceSlots (f.uses old) new u (f.instr u).operands } :=
  (foldl_setOperand f _ new).2.2.2.1 u

theorem replaceAllUseWith_uses {old new w : Value} (h : w ≠ new) :
    (f.replaceAllUseWith old new).uses w = f.uses w :=
  (foldl_setOperand f _ new).2.2.2.2 w h

end Operands

end Cminusfc.LightIR.Func
