import Cminusfc.LightIR.Ir

/-!
# Constant propagation: the pass

Model of `ConstPropagation.cpp` and `ConstPropagation.hpp`.

* `int` arithmetic of the host wraps. Its division traps where the C++ one is undefined, and then
  the run of the pass does not return. What the host does with `float` is a parameter, `Host`.
* `map_` is keyed by `dynamic_cast<GlobalVariable *>` of an address. The cast is the null pointer
  for every other address, and the null pointer is a key like any other: `key`.
* `delete_list` is one list for the whole run. An entry is the position of its function and the
  instruction; every block of every later function tries to delete all of them.
* The loop over `get_instructions` runs over the block as it is; nothing is deleted before its end.
* A `Module` lists the functions with a body only; the others have no blocks to visit.

Source: `src/optimization/ConstPropagation.cpp` 7-234, `include/optimization/ConstPropagation.hpp`
21-61.
-/

namespace Cminusfc.Optimization.ConstPropagation

open Cminusfc.LightIR

/-! ## `ConstFolder` -/

/-- `float` arithmetic of the machine the compiler runs on. -/
structure Host where
  fadd : BitVec 32 → BitVec 32 → BitVec 32
  fsub : BitVec 32 → BitVec 32 → BitVec 32
  fmul : BitVec 32 → BitVec 32 → BitVec 32
  fdiv : BitVec 32 → BitVec 32 → BitVec 32
  fcompare : CmpOp → BitVec 32 → BitVec 32 → Bool
  toInt : BitVec 32 → BitVec 32
  toFloat : BitVec 32 → BitVec 32

/-- `compute_i`. -/
def computeI (op : OpID) (a b : BitVec 32) : Except Fault Value :=
  match op with
  | .add => .ok (.int32 (a + b))
  | .sub => .ok (.int32 (a - b))
  | .mul => .ok (.int32 (a * b))
  | .sdiv =>
    if b = 0 ∨ (a = BitVec.intMin 32 ∧ b = -1) then .error .undefined else .ok (.int32 (a.sdiv b))
  | _ => .error .undefined

/-- `compute_f`. -/
def computeF (host : Host) (op : OpID) (a b : BitVec 32) : Except Fault Value :=
  match op with
  | .fadd => .ok (.fp (host.fadd a b))
  | .fsub => .ok (.fp (host.fsub a b))
  | .fmul => .ok (.fp (host.fmul a b))
  | .fdiv => .ok (.fp (host.fdiv a b))
  | _ => .error .undefined

/-- `compare` of integers. -/
def compare (op : CmpOp) (a b : BitVec 32) : Bool :=
  match op with
  | .EQ => a == b
  | .NE => a != b
  | .GT => b.slt a
  | .GE => b.sle a
  | .LT => a.slt b
  | .LE => a.sle b

/-- `get_value` of an `i1`. -/
def boolValue (b : Bool) : BitVec 32 := if b then 1 else 0

/-- `cast_constantint`, and `get_value` of the result. -/
def castConstantInt : Value → Option (BitVec 32)
  | .int32 v => some v
  | .int1 b => some (boolValue b)
  | _ => none

/-- `cast_constantfp`, and `get_value` of the result. -/
def castConstantFp : Value → Option (BitVec 32)
  | .fp b => some b
  | _ => none

/-- `get_operand`. -/
def operand (x : Instr) (no : Nat) : Value := x.operands.getD no (.zero .void)

/-- The constant an instruction folds to, if it does: the arithmetic branches of the loop body. -/
def folded (host : Host) (x : Instr) : Except Fault (Option Value) :=
  match x.op with
  | .add | .sub | .mul | .sdiv =>
    match castConstantInt (operand x 0), castConstantInt (operand x 1) with
    | some a, some b => (computeI x.op a b).map some
    | _, _ => .ok none
  | .fadd | .fsub | .fmul | .fdiv =>
    match castConstantFp (operand x 0), castConstantFp (operand x 1) with
    | some a, some b => (computeF host x.op a b).map some
    | _, _ => .ok none
  | .fptosi => .ok ((castConstantFp (operand x 0)).map fun a => .int32 (host.toInt a))
  | .sitofp => .ok ((castConstantInt (operand x 0)).map fun a => .fp (host.toFloat a))
  | .cmp =>
    match castConstantInt (operand x 0), castConstantInt (operand x 1) with
    | some a, some b => .ok (some (.int1 (compare x.cmpOp a b)))
    | _, _ => .ok none
  | .fcmp =>
    match castConstantFp (operand x 0), castConstantFp (operand x 1) with
    | some a, some b => .ok (some (.int1 (host.fcompare x.cmpOp a b)))
    | _, _ => .ok none
  | _ => .ok none

/-! ## `ConstPropagation::run` -/

/-- `map_`. -/
abbrev Map := Option String → Option Value

/-- `dynamic_cast<GlobalVariable *>`. -/
def key : Value → Option String
  | .global name => some name
  | _ => none

/-- The function, the map, and the part of `delete_list` that comes from this block. -/
structure St where
  f : Func
  map : Map
  deleteList : List InstrId := []

/-- `replace_all_use_with` and the entry in `delete_list`. -/
def St.replace (s : St) (i : InstrId) (v : Value) : St :=
  { s with f := s.f.replaceAllUseWith (.instr i) v, deleteList := s.deleteList ++ [i] }

/-- The body of the loop over the instructions of a block. -/
def visitInstr (host : Host) (s : St) (i : InstrId) : Except Fault St :=
  let x := s.f.instr i
  match x.op with
  | .store =>
    .ok { s with map := Function.update s.map (key (operand x 1)) (some (operand x 0)) }
  | .load =>
    match s.map (key (operand x 0)) with
    | some v => .ok (s.replace i v)
    | none => .ok s
  | _ =>
    match folded host x with
    | .error e => .error e
    | .ok (some v) => .ok (s.replace i v)
    | .ok none => .ok s

/-- The loop over the instructions of a block. -/
def visitBody (host : Host) (f : Func) (map : Map) (bb : BlockId) : Except Fault St :=
  (f.body bb).foldlM (visitInstr host) ⟨f, map, []⟩

/-- The functions with a body, and the globals with their initializers. -/
structure Module where
  globals : List (String × Value) := []
  functions : List Func

/-- The functions, `map_` and `delete_list`. -/
structure RunSt where
  functions : List Func
  map : Map
  deleteList : List (Nat × InstrId)

/-- `delete_instr`, called on the block `bb` of the function number `k`. -/
def deleteIn (k : Nat) (bb : BlockId) (fs : List Func) (d : Nat × InstrId) : List Func :=
  fs.modify d.1 fun f => if d.1 = k then f.deleteInstr bb d.2 else f.removeUseOfOps d.2

/-- The body of the loop over the blocks. -/
def visitBlock (host : Host) (k : Nat) (s : RunSt) (bb : BlockId) : Except Fault RunSt :=
  match s.functions[k]? with
  | none => .error .undefined
  | some f =>
    match visitBody host f s.map bb with
    | .error e => .error e
    | .ok t =>
      let deleteList := s.deleteList ++ t.deleteList.map fun i => (k, i)
      .ok { functions := deleteList.foldl (deleteIn k bb) (s.functions.set k t.f)
            map := fun _ => none
            deleteList := deleteList }

/-- The body of the loop over the functions. -/
def visitFunction (host : Host) (s : RunSt) (k : Nat) : Except Fault RunSt :=
  match s.functions[k]? with
  | none => .error .undefined
  | some f => f.blocks.foldlM (visitBlock host k) s

/-- The constructor of `ConstFolder`. -/
def initMap (m : Module) : Map :=
  m.globals.foldl (fun map g => Function.update map (some g.1) (some g.2)) fun _ => none

/-- `ConstPropagation::run`. -/
def run (host : Host) (m : Module) : Except Fault Module := do
  let s ← (List.range m.functions.length).foldlM (visitFunction host) ⟨m.functions, initMap m, []⟩
  .ok { m with functions := s.functions }

end Cminusfc.Optimization.ConstPropagation
