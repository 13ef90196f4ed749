import Cminusfc.Frontend.Ast

/-!
# The IR builder

Model of `CminusfBuilder` (`cminusf_builder.hpp`, `cminusf_builder.cpp`, `utils.cpp`) and of the
operations of `IRBuilder`, `Scope` and `BasicBlock` it uses.

* `fn` is the function of the insert block, `functions` holds those in front of it in the module.
  A `BasicBlock *` is the number of blocks its function had before it, and its name is kept in
  `names`.
* `frame` is what `visit(ASTCall)` keeps on the stack: the types of the parameters and the vector of
  the arguments visited so far.
* A use of a null pointer or of an argument beyond the parameters is `Fault.undefined`, a failed
  `assert` or a `std::map::at` without the key `Fault.assertion`.

Source: `include/cminusf_builder.hpp` 13-246, `src/cminusfc/cminusf_builder.cpp` 5-407,
`src/cminusfc/utils.cpp` 5-44, `include/lightir/IRBuilder.h` 20-70. Out of scope: the texts of the
log.
-/

namespace Cminusfc.LightIR.Func

/-- `BasicBlock::add_pre_basic_block`. -/
def addPreBasicBlock (f : Func) (b p : BlockId) : Func :=
  { f with pre := Function.update f.pre b (f.pre b ++ [p]) }

/-- `BasicBlock::add_succ_basic_block`. -/
def addSuccBasicBlock (f : Func) (b s : BlockId) : Func :=
  { f with succ := Function.update f.succ b (f.succ b ++ [s]) }

/-- The name that `BasicBlock::create` gives to a block. -/
def blockName (name : String) : String := if name = "" then "" else "label_" ++ name

/-- `BasicBlock::create`. -/
def createBlock (f : Func) (name : String) : Func :=
  let b := f.blocks.length
  { f with rest := f.rest ++ [b], names := Function.update f.names (.block b) (blockName name) }

end Cminusfc.LightIR.Func

namespace Cminusfc.Frontend

open LightIR

/-! ## Scopes -/

/-- `Scope::inner`, the innermost scope first. -/
abbrev Scope := List (List (String × Value))

namespace Scope

/-- `enter`. -/
def enter (s : Scope) : Scope := [] :: s

/-- `exit`. -/
def exit (s : Scope) : Scope := s.tail

/-- `in_global`. -/
def inGlobal (s : Scope) : Bool := s.length = 1

/-- `push`; `none` when the scope has the name already. -/
def push (s : Scope) (name : String) (val : Value) : Option Scope :=
  match s with
  | [] => none
  | m :: rest => if (m.lookup name).isSome then none else some (((name, val) :: m) :: rest)

/-- `find`, `none` for the null pointer. -/
def find : Scope → String → Option Value
  | [], _ => none
  | m :: rest, name => (m.lookup name).or (find rest name)

/-- `get_global`. -/
def getGlobal (s : Scope) (name : String) : Option Value :=
  s.getLast?.bind fun m => m.lookup name

end Scope

/-! ## State -/

/-- A `FunctionType`. -/
structure FunctionType where
  ret : Ty
  params : List Ty
  deriving Repr, DecidableEq

/-- The locals of a `visit(ASTCall)`. -/
structure CallFrame where
  params : List Ty := []
  args : List Value := []

/-- The members of `CminusfBuilder`, with the module and the insert block. -/
structure Builder where
  /-- The global variables, with the types they point to. -/
  globals : List (String × Ty) := []
  /-- The types of the functions. -/
  types : List (String × FunctionType) := []
  functions : List Func := []
  fn : Func
  /-- `builder->get_insert_block()`. -/
  bb : BlockId := 0
  scope : Scope := []
  val : Value := .int32 0
  addressOnly : Bool := false
  returnInBranch : Bool := false
  inBranch : Bool := false
  preReturns : Bool := false
  enterInFunDecl : Bool := false
  returnType : CminusType := .void
  bbCounter : Nat := 0
  frame : CallFrame := {}

/-- `type`. -/
def CminusType.type : CminusType → Ty
  | .float => .float
  | .int => .int32
  | .void => .void

/-- The keys of `comp_int_map` and `comp_float_map`, with the operations they create. -/
def RelOp.cmpOp : RelOp → CmpOp
  | .le => .LE
  | .lt => .LT
  | .gt => .GT
  | .ge => .GE
  | .eq => .EQ
  | .neq => .NE

/-- `add_int_map`. -/
def AddOp.intOp : AddOp → OpID
  | .plus => .add
  | .minus => .sub

/-- `add_float_map`. -/
def AddOp.floatOp : AddOp → OpID
  | .plus => .fadd
  | .minus => .fsub

/-- `mul_int_map`. -/
def MulOp.intOp : MulOp → OpID
  | .mul => .mul
  | .div => .sdiv

/-- `mul_float_map`. -/
def MulOp.floatOp : MulOp → OpID
  | .mul => .fmul
  | .div => .fdiv

namespace Builder

variable (B : Builder)

/-- `get_type`. -/
def typeOf : Value → Ty
  | .int32 _ => .int32
  | .int1 _ => .int1
  | .fp _ => .float
  | .zero t => t
  | .global n => .pointer ((B.globals.lookup n).getD .void)
  | .function _ => .void
  | .arg no => B.fn.args.getD no .void
  | .block _ => .label
  | .instr i => (B.fn.instr i).ty

/-- `val = v`. -/
def setVal (v : Value) : Builder := { B with val := v }

/-- `address_only = b`. -/
def setAddressOnly (b : Bool) : Builder := { B with addressOnly := b }

/-- `in_branch = b`. -/
def setInBranch (b : Bool) : Builder := { B with inBranch := b }

/-- `return_in_branch = b`. -/
def setReturnInBranch (b : Bool) : Builder := { B with returnInBranch := b }

/-- `return_in_branch = true; pre_returns = true`. -/
def noteReturn : Builder := { B with returnInBranch := true, preReturns := true }

/-- The locals of another `visit(ASTCall)`. -/
def setFrame (c : CallFrame) : Builder := { B with frame := c }

/-! ## `IRBuilder` -/

/-- `set_insert_point`. -/
def setInsertPoint (b : BlockId) : Builder := { B with bb := b }

/-- `new` for an instruction at the end of the insert block. -/
def emit (x : Instr) : Builder :=
  { B with fn := (B.fn.newInstr { x with parent := B.bb }).addInstruction B.bb B.fn.next }

/-- The instruction that `emit` creates, as a value. -/
def emitted : Value := .instr B.fn.next

/-- `BasicBlock::create`. -/
def createBlock (name : String) : Builder := { B with fn := B.fn.createBlock name }

/-- The block that `createBlock` creates. -/
def newBlock : BlockId := B.fn.blocks.length

/-- `BasicBlock::create` with the name `kind` and the next number. -/
def createNumbered (kind : String) : Builder :=
  { B.createBlock (kind ++ toString B.bbCounter) with bbCounter := B.bbCounter + 1 }

/-- `create_br`. -/
def createBr (t : BlockId) : Builder :=
  let f := (B.fn.addPreBasicBlock t B.bb).addSuccBasicBlock B.bb t
  { B with fn := f }.emit { op := .br, ty := .void, operands := [.block t], parent := B.bb }

/-- `create_cond_br`. -/
def createCondBr (cond : Value) (t e : BlockId) : Builder :=
  let f := (((B.fn.addPreBasicBlock t B.bb).addPreBasicBlock e B.bb).addSuccBasicBlock B.bb
    e).addSuccBasicBlock B.bb t
  { B with fn := f }.emit
    { op := .br, ty := .void, operands := [cond, .block t, .block e], parent := B.bb }

/-- An instruction other than a branch and a store; its value becomes `val`. -/
def create (op : OpID) (ty : Ty) (operands : List Value) (cmpOp : CmpOp) : Builder :=
  (B.emit { op := op, ty := ty, operands := operands, parent := B.bb, cmpOp := cmpOp }).setVal
    B.emitted

/-- `create_store`. -/
def createStore (v ptr : Value) : Builder :=
  B.emit { op := .store, ty := .void, operands := [v, ptr], parent := B.bb }

/-- `create_alloca`. -/
def createAlloca (t : Ty) : Builder := B.create .alloca (.pointer t) [] .EQ

/-- `create_load`. -/
def createLoad (ptr : Value) : Except Fault Builder :=
  match B.typeOf ptr with
  | .pointer t => .ok (B.create .load t [ptr] .EQ)
  | _ => .error .assertion

/-- `GetElementPtrInst::get_element_type`, for at most two indices. -/
def elementType (idxs : List Value) (ty : Ty) : Option Ty :=
  match ty with
  | .array t _ => some (if idxs.length = 2 then t else ty)
  | _ => if ty.isInteger || ty.isFloat then some ty else none

/-- `create_gep`. -/
def createGep (ptr : Value) (idxs : List Value) : Except Fault Builder :=
  match (B.typeOf ptr).pointerElementType.bind (elementType idxs) with
  | some t => .ok (B.create .getelementptr (.pointer t) (ptr :: idxs) .EQ)
  | none => .error .assertion

/-- `create_ret` and `create_void_ret`. -/
def createRet (v : Option Value) : Builder :=
  B.emit { op := .ret, ty := .void, operands := v.toList, parent := B.bb }

/-! ## Conversions -/

/-- `convert`; the converted value becomes `val`. -/
def convert (n : Value) (ty : Ty) : Except Fault Builder :=
  let t := B.typeOf n
  if t.isInteger && ty.isInteger || t.isFloat && ty.isFloat then
    if t.size < ty.size then .ok (B.create .zext ty [n] .EQ) else .ok (B.setVal n)
  else if t.isInteger && ty.isFloat then .ok (B.create .sitofp ty [n] .EQ)
  else if t.isFloat && ty.isInteger then .ok (B.create .fptosi ty [n] .EQ)
  else
    match t.pointerElementType with
    | none => .error .undefined
    | some e =>
      if e.isArray && ty.isPointer then B.createGep n [.int32 0, .int32 0]
      else if e.isPointer && ty.isPointer then B.createLoad n
      else .error .assertion

/-- The end of `visit(ASTSimpleExpression)`, `visit(ASTAdditiveExpression)` and `visit(ASTTerm)`:
both operands are converted to `int` or both to `float`. -/
def binary (intOp floatOp : OpID) (intTy floatTy : Ty) (cmpOp : CmpOp) (lhs rhs : Value) :
    Except Fault Builder :=
  if (B.typeOf lhs).isInteger && (B.typeOf rhs).isInteger then do
    let B ← B.convert lhs .int32
    let lhs := B.val
    let B ← B.convert rhs .int32
    .ok (B.create intOp intTy [lhs, B.val] cmpOp)
  else do
    let B ← B.convert lhs .float
    let lhs := B.val
    let B ← B.convert rhs .float
    .ok (B.create floatOp floatTy [lhs, B.val] cmpOp)

/-- The test of `visit(ASTSelectionStmt)` and `visit(ASTIterationStmt)`. -/
def truth : Builder :=
  let t := B.typeOf B.val
  if t.size > 1 then
    if t.isInteger then B.create .cmp .int1 [B.val, .int32 0] .NE
    else B.create .fcmp .int1 [B.val, .fp 0] .NE
  else B

/-! ## Variables and calls -/

/-- The comparison of a subscript with 0 in `visit(ASTVar)`, and the branch behind it. The insert
block afterwards is the one for a negative subscript. -/
def compareIndex (offset : Value) : Builder :=
  let B := B.create .cmp .int1 [offset, .int32 0] .GE
  let t := B.newBlock
  let B := B.createNumbered "true"
  let f := B.newBlock
  let B := B.createNumbered "false"
  (B.createCondBr B.val t f).setInsertPoint f

/-- The call in the block for a negative subscript, which then goes on to `t`. -/
def callExcept (t : BlockId) : Except Fault Builder :=
  match B.scope.getGlobal "neg_idx_except" with
  | some (.function n) =>
    match B.types.lookup n with
    | some ⟨ret, []⟩ =>
      .ok (((B.create .call ret [.function n] .EQ).createBr t).setInsertPoint t)
    | _ => .error .assertion
  | _ => .error .assertion

/-- The check of a subscript in `visit(ASTVar)`. -/
def checkIndex (offset : Value) : Except Fault Builder :=
  (B.compareIndex offset).callExcept B.newBlock

/-- The address of an element in `visit(ASTVar)`. -/
def elementAddress (ptr : Option Value) (offset : Value) : Except Fault Builder :=
  match ptr with
  | none => .error .undefined
  | some ptr =>
    match (B.typeOf ptr).pointerElementType with
    | some (.array _ _) => B.createGep ptr [.int32 0, offset]
    | some (.pointer _) => do
      let B ← B.createLoad ptr
      B.createGep B.val [offset]
    | some _ => .ok (B.setVal ptr)
    | none => .error .undefined

/-- The end of `visit(ASTVar)`. -/
def finishVar (ptr : Value) : Except Fault Builder :=
  if B.addressOnly then .ok (B.setVal ptr) else B.createLoad ptr

/-- `visit(ASTVar)` behind the visit of the subscript. -/
def subscript (ptr : Option Value) : Except Fault Builder := do
  let B ← B.convert B.val .int32
  let offset := B.val
  let B ← B.checkIndex offset
  let B ← B.elementAddress ptr offset
  B.finishVar B.val

/-- The store of `visit(ASTAssignExpression)`, behind the visit of the variable. -/
def assignTo (rhs : Value) : Except Fault Builder :=
  match (B.typeOf B.val).pointerElementType with
  | none => .error .undefined
  | some t => do
    let target := B.val
    let B ← B.convert rhs t
    .ok (((B.createStore B.val target).setVal rhs).setAddressOnly false)

/-- The function that `visit(ASTCall)` calls. -/
def callee (id : String) : Except Fault (String × FunctionType) :=
  match B.scope.getGlobal id with
  | none => .error .assertion
  | some (.function n) =>
    match B.types.lookup n with
    | some t => .ok (n, t)
    | none => .error .undefined
  | some _ => .error .undefined

/-- The call at the end of `visit(ASTCall)`. -/
def createCall (n : String) (t : FunctionType) (args : List Value) : Except Fault Builder :=
  if t.params.length = args.length then .ok (B.create .call t.ret (.function n :: args) .EQ)
  else .error .assertion

/-- The type of the next parameter in `visit(ASTCall)`. -/
def nextParam : Except Fault Ty :=
  match B.frame.params[B.frame.args.length]? with
  | some t => .ok t
  | none => .error .undefined

/-- An argument in `visit(ASTCall)`, behind its visit. -/
def pushArg (t : Ty) : Except Fault Builder := do
  let B ← (B.setAddressOnly false).convert B.val t
  .ok (B.setFrame { B.frame with args := B.frame.args ++ [B.val] })

/-! ## Statements -/

/-- The type of a variable; the constructor of `ArrayType` refuses `void` elements. -/
def variableType (d : VarDeclaration) : Except Fault Ty :=
  match d.num with
  | none => .ok d.type.type
  | some n => if d.type = .void then .error .assertion else .ok (.array d.type.type n)

/-- `visit(ASTVarDeclaration)`. -/
def visitVarDeclaration (d : VarDeclaration) : Except Fault Builder := do
  let t ← variableType d
  let B :=
    if B.scope.inGlobal then
      { B with globals := B.globals ++ [(d.id, t)] }.setVal (.global d.id)
    else B.createAlloca t
  match B.scope.push d.id B.val with
  | some s => .ok { B with scope := s }
  | none => .error .assertion

/-- The scope of `visit(ASTCompoundStmt)`; the body of a function shares the one of its
parameters. -/
def enterScope : Builder :=
  { B with
    scope := if B.enterInFunDecl then B.scope else B.scope.enter
    enterInFunDecl := false }

/-- The end of `visit(ASTCompoundStmt)`. -/
def exitScope : Builder := { B with scope := B.scope.exit }

/-- The body of the loop over the blocks in `visit(ASTReturnStmt)`. -/
def closeBlock (returnBB bb : BlockId) : Builder :=
  if bb = returnBB ∨ (B.fn.terminator bb).isSome then B
  else (B.setInsertPoint bb).createBr returnBB

/-- The block that `visit(ASTReturnStmt)` creates after earlier returns; every block without a
terminator is continued there. -/
def enterReturnBlock : Builder :=
  if B.preReturns then
    let returnBB := B.newBlock
    let B := (B.createBlock "return").createBr returnBB
    (B.fn.blocks.foldl (fun B bb => B.closeBlock returnBB bb) B).setInsertPoint returnBB
  else B

/-- `visit(ASTReturnStmt)`, behind the visit of the expression if there is one. -/
def finishReturn (value : Bool) : Except Fault Builder :=
  if value then
    match B.scope.find "" with
    | none => .error .undefined
    | some ptr => do
      let v := B.val
      let B ← B.convert v B.returnType.type
      let B := (B.createStore B.val ptr).setVal v
      if B.inBranch then .ok B.noteReturn
      else do
        let B ← B.enterReturnBlock.createLoad ptr
        .ok (B.createRet (some B.val))
  else if B.inBranch then .ok B.noteReturn
  else .ok (B.enterReturnBlock.createRet none)

/-- The blocks of `visit(ASTSelectionStmt)` without an else branch, and the branch to them. -/
def openSelection : Builder :=
  let B := B.truth
  let trueBB := B.newBlock
  let B := B.createNumbered "true"
  let out := B.newBlock
  let B := B.createNumbered "out"
  ((B.createCondBr B.val trueBB out).setInBranch true).setInsertPoint trueBB

/-- The blocks of `visit(ASTSelectionStmt)` with an else branch, and the branch to them. -/
def openSelectionElse : Builder :=
  let B := B.truth
  let trueBB := B.newBlock
  let B := B.createNumbered "true"
  let falseBB := B.newBlock
  let B := B.createNumbered "false"
  let B := B.createNumbered "out"
  ((B.createCondBr B.val trueBB falseBB).setInBranch true).setInsertPoint trueBB

/-- The blocks of `visit(ASTIterationStmt)`, and the jump to the first of them. -/
def openIteration : Builder :=
  let predicate := B.newBlock
  let B := ((B.createNumbered "predicate").createNumbered "body").createNumbered "out"
  (B.createBr predicate).setInsertPoint predicate

/-- The branch of `visit(ASTIterationStmt)` behind the visit of the condition. -/
def enterBody (body out : BlockId) : Builder :=
  let B := B.truth
  ((B.createCondBr B.val body out).setInsertPoint body).setInBranch true

/-- The jump at the end of a branch in `visit(ASTSelectionStmt)`, and of the body in
`visit(ASTIterationStmt)`. -/
def leaveBranch (out : BlockId) : Builder := if B.returnInBranch then B else B.createBr out

/-- The return of the value that is stored. -/
def returnStored : Except Fault Builder :=
  if B.returnType ≠ .void then
    match B.scope.find "" with
    | none => .error .undefined
    | some ptr => do
      let B ← B.createLoad ptr
      .ok (B.createRet (some B.val))
  else .ok (B.createRet none)

/-- The end of `visit(ASTSelectionStmt)` when both branches return: the common exit returns. -/
def joinReturns (trueBB falseBB out : BlockId) : Except Fault Builder := do
  let B ← B.returnStored
  let B := (B.setInsertPoint trueBB).createBr out
  .ok (((B.setInsertPoint falseBB).createBr out).setInsertPoint out)

end Builder

/-! ## The visitor -/

/-- `accept`. -/
def visit : {k : Kind} → Ast k → Builder → Except Fault Builder
  | _, .intNum i, B => .ok (B.setVal (.int32 i))
  | _, .floatNum x, B => .ok (B.setVal (.fp x))
  | _, .group e, B => visit e B
  | _, .var v, B => visit v B
  | _, .simple l, B => visit l B
  | _, .term t, B => visit t B
  | _, .factor f, B => visit f B
  | _, .relation l op r, B => do
    let B ← visit l B
    let lhs := B.val
    let B ← visit r B
    B.binary .cmp .fcmp .int1 .int1 op.cmpOp lhs B.val
  | _, .additive l op t, B => do
    let B ← visit l B
    let lhs := B.val
    let B ← visit t B
    B.binary op.intOp op.floatOp .int32 .float .EQ lhs B.val
  | _, .multiplicative l op f, B => do
    let B ← visit l B
    let lhs := B.val
    let B ← visit f B
    B.binary op.intOp op.floatOp .int32 .float .EQ lhs B.val
  | _, .ident id, B =>
    match B.scope.find id with
    | none => .error .undefined
    | some ptr => B.finishVar ptr
  | _, .element id e, B => do
    let ptr := B.scope.find id
    let temp := B.addressOnly
    let B ← visit e (B.setAddressOnly false)
    (B.setAddressOnly temp).subscript ptr
  | _, .assign v e, B => do
    let B ← visit e B
    let rhs := B.val
    let B ← visit v (B.setAddressOnly true)
    B.assignTo rhs
  | _, .call id args, B => do
    let (n, t) ← B.callee id
    let frame := B.frame
    let B ← visit args (B.setFrame ⟨t.params, []⟩)
    let B ← B.createCall n t B.frame.args
    .ok (B.setFrame frame)
  | _, .noArgs, B => .ok B
  | _, .arg e rest, B => do
    let t ← B.nextParam
    let B ← visit e (B.setAddressOnly t.isPointer)
    let B ← B.pushArg t
    visit rest B
  | _, .emptyStmt, B => .ok B
  | _, .expressionStmt e, B => visit e B
  | _, .compoundStmt ds ss, B => do
    let B ← ds.foldlM Builder.visitVarDeclaration B.enterScope
    let B ← visit ss B
    .ok B.exitScope
  | _, .noStmts, B => .ok B
  | _, .stmt s rest, B => do
    let B ← visit s B
    visit rest B
  | _, .selectionStmt e s, B => do
    let B ← visit e B
    let trueBB := B.newBlock
    let out := trueBB + 1
    let B ← visit s B.openSelection
    let B := B.leaveBranch out
    .ok (((B.setInsertPoint out).setReturnInBranch false).setInBranch false)
  | _, .selectionElseStmt e s t, B => do
    let B ← visit e B
    let trueBB := B.newBlock
    let falseBB := trueBB + 1
    let out := trueBB + 2
    let B ← visit s B.openSelectionElse
    let B := B.leaveBranch out
    let ifReturnInBranch := B.returnInBranch
    let B ← visit t ((B.setInsertPoint falseBB).setReturnInBranch false)
    let B := B.leaveBranch out
    let elseReturnInBranch := B.returnInBranch
    let B := ((B.setInsertPoint out).setReturnInBranch false).setInBranch false
    if ifReturnInBranch && elseReturnInBranch then B.joinReturns trueBB falseBB out else .ok B
  | _, .iterationStmt e s, B => do
    let predicate := B.newBlock
    let body := predicate + 1
    let out := predicate + 2
    let B ← visit e B.openIteration
    let B ← visit s (B.enterBody body out)
    .ok (((B.setInBranch false).leaveBranch predicate).setInsertPoint out)
  | _, .returnVoidStmt, B => B.finishReturn false
  | _, .returnStmt e, B => do
    let B ← visit e B
    B.finishReturn true

/-! ## Programs -/

/-- `visit(ASTParam)`, with the store of the argument. -/
def visitParam (B : Builder) (p : Param × Nat) : Except Fault Builder :=
  let t := if p.1.isarray then Ty.pointer p.1.type.type else p.1.type.type
  let arg := Value.arg p.2
  let B := { B with fn := { B.fn with names := Function.update B.fn.names arg p.1.id } }
  let B := B.createAlloca t
  match B.scope.push p.1.id B.val with
  | some s =>
    let B := { B with scope := s }
    .ok ((B.createStore arg B.val).setVal B.emitted)
  | none => .error .assertion

/-- The names of the values that are in no function: those of the module. -/
def moduleName : Value → String
  | .global id => id
  | .function id => id
  | _ => ""

/-- `Function::create` with the entry block. -/
def newFunc (name : String) (t : FunctionType) : Func where
  entry := 0
  rest := []
  pre _ := []
  succ _ := []
  name := name
  retTy := t.ret
  args := t.params
  body _ := []
  instr _ := { op := .alloca, ty := .void, operands := [], parent := 0 }
  names := Function.update moduleName (.block 0) (Func.blockName "entry")

/-- The type of a function. -/
def FunDeclaration.functionType (d : FunDeclaration) : FunctionType where
  ret := d.type.type
  params := d.params.map fun p => if p.isarray then .pointer p.type.type else p.type.type

/-- The function, its entry block and its scope; the constructor of `FunctionType` refuses `void`
parameters. -/
def enterFunction (d : FunDeclaration) (B : Builder) : Except Fault Builder :=
  let t := d.functionType
  match B.scope.push d.id (.function d.id) with
  | some scope =>
    if Ty.void ∈ t.params then .error .assertion
    else
      .ok { B with
        types := (d.id, t) :: B.types
        functions := B.functions ++ [B.fn]
        fn := newFunc d.id t
        bb := 0
        scope := Scope.enter scope
        enterInFunDecl := true }
  | none => .error .assertion

/-- `visit(ASTFunDeclaration)`. -/
def visitFunDeclaration (d : FunDeclaration) (B : Builder) : Except Fault Builder := do
  let B ← enterFunction d B
  let B ← d.params.zipIdx.foldlM visitParam B
  let B := { B with bbCounter := 0, returnType := d.type }
  let B :=
    if d.type ≠ .void then
      let B := B.createAlloca d.type.type
      { B with scope := (B.scope.push "" B.val).getD B.scope }
    else B
  let B ← visit (.compoundStmt d.localDeclarations d.statementList) B
  if (B.fn.terminator B.bb).isSome then .ok B else visit .returnVoidStmt B

/-- `visit(ASTProgram)`. -/
def visitProgram (ds : List Declaration) (B : Builder) : Except Fault Builder :=
  ds.foldlM
    (fun B d =>
      match d with
      | .var d => B.visitVarDeclaration d
      | .fn d => visitFunDeclaration d B) B

/-- The predefined functions, in the order of the constructor. -/
def predefined : List (String × FunctionType) :=
  [("input", ⟨.int32, []⟩), ("output", ⟨.void, [.int32]⟩), ("outputFloat", ⟨.void, [.float]⟩),
    ("neg_idx_except", ⟨.void, []⟩), ("outputArray", ⟨.void, [.pointer .int32, .int32]⟩),
    ("outputArrayf", ⟨.void, [.pointer .float, .int32]⟩)]

/-- A fresh `CminusfBuilder`. No function has a body yet; the first stands for none. -/
def freshBuilder : Builder where
  types := predefined
  fn := newFunc "" ⟨.void, []⟩
  scope := [predefined.map fun p => (p.1, .function p.1)]

end Cminusfc.Frontend
