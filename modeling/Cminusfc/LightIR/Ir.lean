import Mathlib.Data.List.Nodup
import Mathlib.Data.List.Pairwise
import Cminusfc.LightIR.Cfg

/-!
# The IR: types, values, instructions, functions

Model of `Type.h`, `Value.h`, `User.h`, `Instruction.h`, `BasicBlock.h` and `Function.h`.

* The source keeps everything behind pointers and updates it in place. A `Func` is a heap of its
  own: `instr` is what an `Instruction *` points to, `body` is `instr_list_` of a block, and
  `uses` is `use_list_` of a value, the pairs (user, operand number).
* A `Value *` is a `Value`. Constants are compared by content here and by address in the source,
  so two constants of equal content share one use list; nothing reads the use list of a constant.
* Types are interned by the module, so a `Type *` is the structure of the type.

Source: `include/lightir/Type.h` 14-154, `Value.h` 11-51, `User.h` 8-34, `Instruction.h` 11-377,
`BasicBlock.h` 17-73, `Function.h` 21-92, and the constructors in `src/lightir/`. Out of scope:
names and printing.
-/

namespace Cminusfc.LightIR

/-- A `Type *` other than a `FunctionType *`. -/
inductive Ty where
  | void
  | label
  | int1
  | int32
  | float
  | array (elem : Ty) (n : Nat)
  | pointer (elem : Ty)
  deriving Repr, DecidableEq

namespace Ty

/-- `is_integer_type`. -/
def isInteger : Ty → Bool
  | int1 | int32 => true
  | _ => false

/-- `is_float_type`. -/
def isFloat : Ty → Bool
  | float => true
  | _ => false

/-- `is_pointer_type`. -/
def isPointer : Ty → Bool
  | pointer _ => true
  | _ => false

/-- `is_array_type`. -/
def isArray : Ty → Bool
  | array _ _ => true
  | _ => false

/-- `get_pointer_element_type`, `none` for the null pointer. -/
def pointerElementType : Ty → Option Ty
  | pointer t => some t
  | _ => none

/-- `get_size`. -/
def size : Ty → Nat
  | int1 => 1
  | int32 => 4
  | float => 4
  | array t n => t.size * n
  | pointer t => if t.isArray then t.size else 8
  | void | label => 0

end Ty

/-- `Instruction::OpID`. -/
inductive OpID where
  | ret | br
  | add | sub | mul | sdiv
  | fadd | fsub | fmul | fdiv
  | alloca | load | store
  | cmp | fcmp | phi | call | getelementptr | zext | fptosi | sitofp
  deriving Repr, DecidableEq

/-- `CmpInst::CmpOp` and `FCmpInst::CmpOp`. -/
inductive CmpOp where
  | EQ | NE | GT | GE | LT | LE
  deriving Repr, DecidableEq

/-- An `Instruction *`. -/
abbrev InstrId := Nat

/-- An instruction allocated before `n` is not one allocated from `n` on. -/
theorem InstrId.ne_of_lt_of_le {i j n : InstrId} (h : i < n) (h' : n ≤ j) : i ≠ j :=
  Nat.ne_of_lt (Nat.lt_of_lt_of_le h h')

/-- A `Value *`. Floats are their 32 bits. -/
inductive Value where
  | int32 (v : BitVec 32)
  | int1 (b : Bool)
  | fp (bits : BitVec 32)
  | zero (ty : Ty)
  | global (name : String)
  | function (name : String)
  | arg (no : Nat)
  | block (b : BlockId)
  | instr (i : InstrId)
  deriving Repr, DecidableEq

namespace Value

/-- `dynamic_cast<GlobalVariable *>` succeeds. -/
def isGlobal : Value → Bool
  | global _ => true
  | _ => false

/-- `dynamic_cast<BasicBlock *>`; a block is also the only value of label type. -/
def asBlock : Value → Option BlockId
  | block b => some b
  | _ => none

/-- `dynamic_cast<Instruction *>`. -/
def asInstr : Value → Option InstrId
  | instr i => some i
  | _ => none

end Value

/-- An instruction. `cmpOp` is `cmp_op_` of a comparison, `lval` is `l_val_` of a phi. -/
structure Instr where
  op : OpID
  ty : Ty
  operands : List Value
  parent : BlockId
  cmpOp : CmpOp := .EQ
  lval : Option Value := none
  deriving Repr, DecidableEq

namespace Instr

/-- `is_void`. -/
def isVoid (i : Instr) : Bool :=
  i.op = .ret || i.op = .br || i.op = .store || (i.op = .call && i.ty = .void)

/-- `isTerminator`. -/
def isTerminator (i : Instr) : Bool := i.op = .br || i.op = .ret

/-- The blocks a terminator branches to. -/
def targets (i : Instr) : List BlockId :=
  if i.op = .br then i.operands.filterMap Value.asBlock else []

/-- The pairs of a phi: its operands are value, block, value, block and so on. -/
def pairsOf : List Value → List (Value × BlockId)
  | v :: .block b :: rest => (v, b) :: pairsOf rest
  | _ => []

/-- The pairs `(value, predecessor)` of a phi. -/
def phiPairs (i : Instr) : List (Value × BlockId) := pairsOf i.operands

end Instr

/-- A `Use`: the user and the operand number. -/
abbrev Use := InstrId × Nat

instance Use.lawfulBEq : LawfulBEq Use := inferInstanceAs (LawfulBEq (InstrId × Nat))

/-- A function with a body, together with the objects its blocks refer to. -/
structure Func extends Cfg where
  name : String := ""
  retTy : Ty := .void
  /-- The types of `arguments_`. -/
  args : List Ty := []
  /-- `instr_list_` of a block. -/
  body : BlockId → List InstrId
  instr : InstrId → Instr
  /-- `use_list_` of a value. -/
  uses : Value → List Use := fun _ => []
  /-- `name_` of a value; empty until it is set. -/
  names : Value → String := fun _ => ""
  /-- `seq_cnt_`. -/
  seqCnt : Nat := 0
  /-- The next free `Instruction *`. -/
  next : InstrId := 0

namespace Func

/-- Every instruction of the function, block by block. -/
def instrs (f : Func) : List InstrId := f.blocks.flatMap f.body

/-- An instruction that stands in one place stands in one block. -/
theorem block_unique {f : Func} (h : f.instrs.Nodup) {b c : BlockId} {i : InstrId}
    (hb : b ∈ f.blocks) (hc : c ∈ f.blocks) (hi : i ∈ f.body b) (hi' : i ∈ f.body c) : b = c := by
  by_contra hne
  have hsymm : Std.Symm (Function.onFun List.Disjoint f.body) :=
    ⟨fun _ _ h _ hx hy => h hy hx⟩
  exact (List.nodup_flatMap.mp h).2.forall hb hc hne hi hi'

/-- What the constructors of blocks and instructions see to: successors are blocks of the function,
an instruction stands in one place, an alloca has no operands. -/
structure Valid (f : Func) : Prop where
  closed : ∀ a ∈ f.blocks, ∀ b ∈ f.succ a, b ∈ f.blocks
  nodup : f.instrs.Nodup
  alloca_operands : ∀ i ∈ f.instrs, (f.instr i).op = .alloca → (f.instr i).operands = []

theorem Valid.reach_mem {f : Func} (h : f.Valid) {b : BlockId} (hb : f.Reach b) : b ∈ f.blocks := by
  obtain ⟨p, hp⟩ := hb
  induction hp with
  | start => exact List.mem_cons_self
  | step _ he ih => exact h.closed _ ih _ he

/-- `BasicBlock::get_terminator`: the last instruction, if it is a `ret` or a `br`. -/
def terminator (f : Func) (b : BlockId) : Option InstrId :=
  match (f.body b).getLast? with
  | some i => if (f.instr i).isTerminator then some i else none
  | none => none

/-- The instructions of a block in front of its last one. -/
def initOf (f : Func) (b : BlockId) : List InstrId := (f.body b).dropLast

/-- The last instruction of a block. -/
def termOf (f : Func) (b : BlockId) : InstrId := (f.body b).getLastD 0

/-- Every block ends in its only terminator. -/
def WellTerminated (f : Func) : Prop :=
  ∀ b ∈ f.blocks, f.body b = f.initOf b ++ [f.termOf b] ∧
    (f.instr (f.termOf b)).isTerminator = true ∧
      ∀ i ∈ f.initOf b, (f.instr i).isTerminator = false

instance (f : Func) : Decidable f.WellTerminated :=
  inferInstanceAs (Decidable (∀ b ∈ f.blocks, f.body b = f.initOf b ++ [f.termOf b] ∧
    (f.instr (f.termOf b)).isTerminator = true ∧
      ∀ i ∈ f.initOf b, (f.instr i).isTerminator = false))

theorem mem_instrs {f : Func} {b : BlockId} {i : InstrId} (hb : b ∈ f.blocks) (hi : i ∈ f.body b) :
    i ∈ f.instrs :=
  List.mem_flatMap.mpr ⟨b, hb, hi⟩

theorem WellTerminated.terminator {f : Func} (h : f.WellTerminated) {b : BlockId}
    (hb : b ∈ f.blocks) : f.terminator b = some (f.termOf b) := by
  obtain ⟨hbody, hterm, -⟩ := h b hb
  unfold Func.terminator
  rw [hbody, List.getLast?_concat]
  simp [hterm]

/-- `dynamic_cast<GetElementPtrInst *>` succeeds. -/
def isGep (f : Func) : Value → Bool
  | .instr i => (f.instr i).op = .getelementptr
  | _ => false

/-- `Value::add_use`. -/
def addUse (f : Func) (v : Value) (u : Use) : Func :=
  { f with uses := Function.update f.uses v (f.uses v ++ [u]) }

/-- `Value::remove_use`: every use by `u`. -/
def removeUse (f : Func) (v : Value) (u : InstrId) : Func :=
  { f with uses := Function.update f.uses v ((f.uses v).filter (·.1 ≠ u)) }

/-- Replace what `Instruction *i` points to. -/
def setInstr (f : Func) (i : InstrId) (x : Instr) : Func :=
  { f with instr := Function.update f.instr i x }

/-- `User::set_operand`. -/
def setOperand (f : Func) (u : InstrId) (no : Nat) (v : Value) : Func :=
  let x := f.instr u
  (f.setInstr u { x with operands := x.operands.set no v }).addUse v (u, no)

/-- `User::add_operand`. -/
def addOperand (f : Func) (u : InstrId) (v : Value) : Func :=
  let x := f.instr u
  (f.setInstr u { x with operands := x.operands ++ [v] }).addUse v (u, x.operands.length)

/-- `Value::replace_all_use_with`. -/
def replaceAllUseWith (f : Func) (old new : Value) : Func :=
  (f.uses old).foldl (fun f u => f.setOperand u.1 u.2 new) f

/-- `User::remove_use_of_ops`. -/
def removeUseOfOps (f : Func) (u : InstrId) : Func :=
  (f.instr u).operands.foldl (fun f v => f.removeUse v u) f

/-- Replace `instr_list_` of a block. -/
def setBody (f : Func) (b : BlockId) (l : List InstrId) : Func :=
  { f with body := Function.update f.body b l }

/-- `BasicBlock::add_instruction`. -/
def addInstruction (f : Func) (b : BlockId) (i : InstrId) : Func := f.setBody b (f.body b ++ [i])

/-- `BasicBlock::add_instr_begin`. -/
def addInstrBegin (f : Func) (b : BlockId) (i : InstrId) : Func := f.setBody b (i :: f.body b)

/-- `BasicBlock::delete_instr`. -/
def deleteInstr (f : Func) (b : BlockId) (i : InstrId) : Func :=
  (f.setBody b ((f.body b).filter (· ≠ i))).removeUseOfOps i

/-- `set_name` with the next number, for a value that has no name yet; `seq` is the size of the
map `seq` of `set_instr_name`. -/
def setName (seqCnt : Nat) (kind : String) (s : (Value → String) × Nat) (v : Value) :
    (Value → String) × Nat :=
  if s.1 v = "" then
    (Function.update s.1 v (kind ++ toString (s.2 + seqCnt)), s.2 + 1)
  else s

/-- The body of the loop over the blocks in `set_instr_name`. -/
def setBlockNames (f : Func) (s : (Value → String) × Nat) (b : BlockId) :
    (Value → String) × Nat :=
  (f.body b).foldl
    (fun s i => if (f.instr i).isVoid then s else setName f.seqCnt "op" s (.instr i))
    (setName f.seqCnt "label" s (.block b))

/-- `Function::set_instr_name`. -/
def setInstrName (f : Func) : Func :=
  let s := f.blocks.foldl f.setBlockNames
    ((List.range f.args.length).foldl (fun s no => setName f.seqCnt "arg" s (.arg no)) (f.names, 0))
  { f with names := s.1, seqCnt := f.seqCnt + s.2 }

/-- The constructor of an instruction: the operands are set one by one. -/
def newInstr (f : Func) (x : Instr) : Func :=
  x.operands.zipIdx.foldl (fun g v => g.addUse v.1 (f.next, v.2))
    { f.setInstr f.next x with next := f.next + 1 }

end Func

end Cminusfc.LightIR
