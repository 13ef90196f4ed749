import Mathlib.Data.List.Dedup
import Cminusfc.LightIR.Edit
import Cminusfc.Optimization.Dominators

/-!
# From memory to registers

Model of `Mem2Reg.cpp` for one function: a phi for every variable in the iterated dominance frontier
of its stores (`generate_phi`), a walk over the dominator tree that keeps a stack of values for
each variable (`re_name`), and the removal of the scalar allocas.

* A variable is the address of a load or a store that is neither a global nor an array element.
* `var_val_stack` maps a variable to `none` when it has no key. That is not the same as an empty
  vector: `find` tells them apart. A vector is a list, its back first. The map is a global of the
  source and outlives the function, but the variables of two functions are different keys.
* `back()` and `pop_back()` of an empty vector, and a phi whose `l_val_` was never set, are
  `Fault.undefined`.
* The `std::set`s are visited in the orders `vars` and `blocks`.

Source: `src/optimization/Mem2Reg.cpp` 7-196. Out of scope: the loop of `run` over the functions.
-/

namespace Cminusfc.Optimization.Mem2Reg

open Cminusfc.LightIR

section Variables

variable (f : Func)

/-- `!IS_GLOBAL_VARIABLE(l_val) && !IS_GEP_INSTR(l_val)`. -/
def isVar (v : Value) : Bool := !v.isGlobal && !f.isGep v

/-- The variable that `i` loads. -/
def loadOf (i : InstrId) : Option Value :=
  match (f.instr i).op, (f.instr i).operands with
  | .load, [l] => if isVar f l then some l else none
  | _, _ => none

/-- The variable that `i` stores to. -/
def storeOf (i : InstrId) : Option Value :=
  match (f.instr i).op, (f.instr i).operands with
  | .store, [_, l] => if isVar f l then some l else none
  | _, _ => none

/-- `get_rval` of a store. -/
def rval (i : InstrId) : Value := (f.instr i).operands.headD (.zero .void)

/-- `is_phi`. -/
def isPhi (i : InstrId) : Bool := (f.instr i).op = .phi

/-- `get_type`, for the values a variable can be. -/
def typeOf : Value → Option Ty
  | .instr i => some (f.instr i).ty
  | .arg no => f.args[no]?
  | _ => none

end Variables

/-! ## `generate_phi` -/

/-- `global_live_var_name`. -/
def globalLiveVarName (f : Func) : List Value := (f.instrs.filterMap (storeOf f)).dedup

/-- `live_var_2blocks[var]`. -/
def liveVar2Blocks (f : Func) (var : Value) : List BlockId :=
  (f.blocks.filter fun bb => (f.body bb).any fun i => storeOf f i = some var).dedup

/-- The function, `bb_has_var_phi`, and what is left of `work_list`. -/
structure PhiSt where
  f : Func
  bbHasVarPhi : List (BlockId × Value)
  workList : List BlockId

/-- The body of the loop over a dominance frontier. -/
def insertPhi (var : Value) (s : PhiSt) (bb : BlockId) : PhiSt :=
  if (bb, var) ∈ s.bbHasVarPhi then s
  else
    let x : Instr :=
      { op := .phi, ty := ((typeOf s.f var).bind Ty.pointerElementType).getD .void, operands := []
        parent := bb, lval := some var }
    { f := (s.f.newInstr x).addInstrBegin bb s.f.next
      bbHasVarPhi := (bb, var) :: s.bbHasVarPhi
      workList := s.workList ++ [bb] }

section Orders

variable (vars : SetOrder Value) (blocks : SetOrder BlockId) (dom : Dominators.Result)

/-- The loop over `work_list`, which grows while it runs. -/
def workLoop (var : Value) : Nat → PhiSt → Except Fault PhiSt
  | 0, _ => .error .fuel
  | n + 1, s =>
    match s.workList with
    | [] => .ok s
    | bb :: rest =>
      workLoop var n
        ((blocks.enum (dom.domFrontier bb)).foldl (insertPhi var) { s with workList := rest })

/-- The body of the loop over `global_live_var_name`. -/
def placePhis (f : Func) (fuel : Nat) (s : PhiSt) (var : Value) : Except Fault PhiSt :=
  workLoop blocks dom var fuel { s with workList := blocks.enum (liveVar2Blocks f var) }

/-- `generate_phi`. -/
def generatePhi (fuel : Nat) (f : Func) : Except Fault Func := do
  let s ← (vars.enum (globalLiveVarName f)).foldlM (placePhis blocks dom f fuel) ⟨f, [], []⟩
  .ok s.f

end Orders

/-! ## `re_name` -/

/-- `var_val_stack`. -/
abbrev Stacks := Value → Option (List Value)

/-- `var_val_stack[v].push_back(x)`. -/
def Stacks.push (st : Stacks) (v x : Value) : Stacks :=
  Function.update st v (some (x :: (st v).getD []))

/-- `var_val_stack[v].pop_back()`. -/
def Stacks.pop (st : Stacks) (v : Value) : Except Fault Stacks :=
  match (st v).getD [] with
  | [] => .error .undefined
  | _ :: rest => .ok (Function.update st v (some rest))

/-- The function and `var_val_stack`. -/
structure St where
  f : Func
  varValStack : Stacks

/-- Step 3, for one instruction. -/
def pushPhi (f : Func) (st : Stacks) (i : InstrId) : Except Fault Stacks :=
  if isPhi f i then
    match (f.instr i).lval with
    | none => .error .undefined
    | some v => .ok (st.push v (.instr i))
  else .ok st

/-- Steps 4 and 5, for one instruction; the state comes with `wait_delete`. -/
def renameInstr (s : St × List InstrId) (i : InstrId) : Except Fault (St × List InstrId) :=
  match loadOf s.1.f i with
  | some v =>
    match s.1.varValStack v with
    | none => .ok s
    | some [] => .error .undefined
    | some (x :: _) => .ok (⟨s.1.f.replaceAllUseWith (.instr i) x, s.1.varValStack⟩, s.2 ++ [i])
  | none =>
    match storeOf s.1.f i with
    | some v => .ok (⟨s.1.f, s.1.varValStack.push v (rval s.1.f i)⟩, s.2 ++ [i])
    | none => .ok s

/-- `add_phi_pair_operand`. -/
def addPhiPairOperand (f : Func) (i : InstrId) (val : Value) (preBb : BlockId) : Func :=
  (f.addOperand i val).addOperand i (.block preBb)

/-- Step 6, for one instruction of a successor of `bb`. -/
def fillPhi (bb : BlockId) (st : Stacks) (f : Func) (i : InstrId) : Except Fault Func :=
  if isPhi f i then
    match (f.instr i).lval with
    | none => .error .undefined
    | some v =>
      match st v with
      | none => .ok f
      | some [] => .error .assertion
      | some (x :: _) => .ok (addPhiPairOperand f i x bb)
  else .ok f

/-- Step 6, for one successor of `bb`. -/
def fillSucc (bb : BlockId) (st : Stacks) (f : Func) (succBb : BlockId) : Except Fault Func :=
  (f.body succBb).foldlM (fillPhi bb st) f

/-- Step 7, for one instruction. -/
def popInstr (f : Func) (st : Stacks) (i : InstrId) : Except Fault Stacks :=
  match storeOf f i with
  | some v => st.pop v
  | none =>
    if isPhi f i then
      match (f.instr i).lval with
      | none => .error .undefined
      | some v => if (st v).isSome then st.pop v else .ok st
    else .ok st

/-- What `re_name` does before it calls itself. -/
def enterBlock (bb : BlockId) (s : St) : Except Fault (St × List InstrId) := do
  let st ← (s.f.body bb).foldlM (pushPhi s.f) s.varValStack
  let (s, waitDelete) ← (s.f.body bb).foldlM renameInstr (⟨s.f, st⟩, [])
  let f ← (s.f.succ bb).foldlM (fillSucc bb s.varValStack) s.f
  .ok (⟨f, s.varValStack⟩, waitDelete)

/-- What `re_name` does after it has called itself. -/
def leaveBlock (bb : BlockId) (waitDelete : List InstrId) (s : St) : Except Fault St := do
  let st ← (s.f.body bb).foldlM (popInstr s.f) s.varValStack
  .ok ⟨waitDelete.foldl (fun f i => f.deleteInstr bb i) s.f, st⟩

/-- `re_name`; `kids bb` are the children of `bb` in the dominator tree. -/
def reName (kids : BlockId → List BlockId) : Nat → BlockId → St → Except Fault St
  | 0, _, _ => .error .fuel
  | n + 1, bb, s => do
    let (s, waitDelete) ← enterBlock bb s
    let s ← (kids bb).foldlM (fun s kid => reName kids n kid s) s
    leaveBlock bb waitDelete s

/-! ## `remove_alloca` and `run` -/

/-- The alloca of an integer or a float. -/
def isScalarAlloca (f : Func) (i : InstrId) : Bool :=
  (f.instr i).op = .alloca &&
    match (f.instr i).ty.pointerElementType with
    | some t => t.isInteger || t.isFloat
    | none => false

/-- `remove_alloca`. -/
def removeAlloca (f : Func) : Func :=
  f.blocks.foldl
    (fun f bb => ((f.body bb).filter (isScalarAlloca f)).foldl (fun f i => f.deleteInstr bb i) f) f

/-- `Mem2Reg::run` for one function; `old` is what `idom_` holds from the functions before. -/
def run (vars : SetOrder Value) (blocks : SetOrder BlockId) (fuel : Nat) (old : Dominators.IdomMap)
    (f : Func) : Except Fault Func := do
  let dom ← Dominators.run f.toCfg fuel old
  let f ← generatePhi vars blocks dom fuel f
  let s ← reName (fun bb => blocks.enum (dom.domTreeSucc bb)) fuel f.entry ⟨f, fun _ => none⟩
  .ok (removeAlloca s.f)

end Cminusfc.Optimization.Mem2Reg
