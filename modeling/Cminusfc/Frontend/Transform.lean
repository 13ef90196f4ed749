import Cminusfc.Frontend.SyntaxTree

/-!
# From syntax trees to abstract syntax trees

Model of `AST::transform_node_iter` (`ast.cpp`), with `NO_CP_WHEN_PARSING` defined as it is there.

* Each branch on the name of the node is a definition of its own; `rec` stands for the recursive
  call. An `ASTNode *` is an `AstNode`, and a `static_cast` to a class the node does not have is
  undefined.
* An `abort` and an exception that nothing catches are `Fault.assertion`. The recursion is cut off
  at `fuel`; the size of the tree is enough (`transform_text`).

Source: `src/common/ast.cpp` 33-529. Out of scope: `ASTPrinter`.
-/

namespace Cminusfc.Frontend

open LightIR

/-- An `ASTNode *`. -/
inductive AstNode where
  | program (declarations : List Declaration)
  | declaration (d : Declaration)
  | param (p : Param)
  | ast {k : Kind} (a : Ast k)

namespace AstNode

/-- `static_cast<ASTDeclaration *>`. -/
def toDeclaration : AstNode → Except Fault Declaration
  | declaration d => .ok d
  | _ => .error .undefined

/-- `static_cast<ASTVarDeclaration *>`. -/
def toVarDeclaration : AstNode → Except Fault VarDeclaration
  | declaration (.var d) => .ok d
  | _ => .error .undefined

/-- `static_cast<ASTParam *>`. -/
def toParam : AstNode → Except Fault Param
  | param p => .ok p
  | _ => .error .undefined

/-- `static_cast<ASTStatement *>`. -/
def toStatement : AstNode → Except Fault (Ast .statement)
  | @ast .statement s => .ok s
  | _ => .error .undefined

/-- `static_cast<ASTCompoundStmt *>`. -/
def toCompoundStmt : AstNode → Except Fault (List VarDeclaration × Ast .statements)
  | @ast .statement (.compoundStmt ds ss) => .ok (ds, ss)
  | _ => .error .undefined

/-- `static_cast<ASTExpression *>`. -/
def toExpression : AstNode → Except Fault (Ast .expression)
  | @ast .expression e => .ok e
  | _ => .error .undefined

/-- `static_cast<ASTAdditiveExpression *>`. -/
def toAdditive : AstNode → Except Fault (Ast .additive)
  | @ast .additive l => .ok l
  | _ => .error .undefined

/-- `static_cast<ASTTerm *>`. -/
def toTerm : AstNode → Except Fault (Ast .term)
  | @ast .term t => .ok t
  | _ => .error .undefined

/-- `static_cast<ASTVar *>`. -/
def toVar : AstNode → Except Fault (Ast .var)
  | @ast .var v => .ok v
  | _ => .error .undefined

/-- `static_cast<ASTFactor *>`. -/
def toFactor : AstNode → Except Fault (Ast .factor)
  | @ast .factor f => .ok f
  | @ast .var v => .ok (.var v)
  | @ast .expression e => .ok (.group e)
  | _ => .error .undefined

end AstNode

/-- The vector of the arguments of a call. -/
def argsOf : List (Ast .expression) → Ast .args
  | [] => .noArgs
  | e :: es => .arg e (argsOf es)

/-- The vector of the statements of a block. -/
def statementsOf : List (Ast .statement) → Ast .statements
  | [] => .noStmts
  | s :: ss => .stmt s (statementsOf ss)

/-! ## Lists -/

/-- `while (list_ptr->children_num == 2)`, with the stack `s`. -/
def unroll2 : Node → List Node → List Node × Node
  | .mk _ [l, x], s => unroll2 l (x :: s)
  | n, s => (s, n)

/-- `while (list_ptr->children_num == 3)`, with the stack `s`. -/
def unroll3 : Node → List Node → List Node × Node
  | .mk _ [l, _, x], s => unroll3 l (x :: s)
  | n, s => (s, n)

/-- The whole of a list that ends with a single element. -/
def unrolled (p : List Node × Node) : Except Fault (List Node) := do
  let x ← p.2.child 0
  .ok (x :: p.1)

section Branches

variable (rec : Node → Except Fault AstNode) (n : Node)

/-- `"program"`. -/
def transformProgram : Except Fault AstNode := do
  let list ← n.child 0
  let stack ← unrolled (unroll2 list [])
  let ds ← stack.mapM fun x => do
    let a ← rec x
    a.toDeclaration
  .ok (.program ds)

/-- `"declaration"` and `"statement"`. -/
def transformOnly : Except Fault AstNode := do
  let c ← n.child 0
  rec c

/-- The type of a variable or a parameter, by the name of its `type-specifier`. -/
def variableTypeOf (name : String) : CminusType := if name = "int" then .int else .float

/-- `"var-declaration"`. -/
def transformVarDeclaration : Except Fault AstNode := do
  let specifier ← n.child 0
  let type ← specifier.child 0
  let id ← n.child 1
  if n.children.length = 3 then
    .ok (.declaration (.var ⟨variableTypeOf type.name, id.name, none⟩))
  else if n.children.length = 6 then do
    let leaf ← n.child 3
    let num ← stoi leaf.name
    .ok (.declaration (.var ⟨variableTypeOf type.name, id.name, some num⟩))
  else .error .assertion

/-- The type of a function, by the name of its `type-specifier`. -/
def functionTypeOf (name : String) : CminusType :=
  if name = "int" then .int else if name = "float" then .float else .void

/-- The elements of a `param-list`; a `void` has none. -/
def paramNodes (list : Node) : Except Fault (List Node) :=
  if list.children.isEmpty then .ok [] else unrolled (unroll3 list [])

/-- `"fun-declaration"`. -/
def transformFunDeclaration : Except Fault AstNode := do
  let specifier ← n.child 0
  let type ← specifier.child 0
  let id ← n.child 1
  let params ← n.child 3
  let list ← params.child 0
  let stack ← paramNodes list
  let ps ← stack.mapM fun x => do
    let a ← rec x
    a.toParam
  let body ← n.child 5
  let a ← rec body
  let (ds, ss) ← a.toCompoundStmt
  .ok (.declaration (.fn ⟨functionTypeOf type.name, id.name, ps, ds, ss⟩))

/-- `"param"`. -/
def transformParam : Except Fault AstNode := do
  let specifier ← n.child 0
  let type ← specifier.child 0
  let id ← n.child 1
  .ok (.param ⟨variableTypeOf type.name, id.name, 2 < n.children.length⟩)

/-- The elements of a list that may be empty. -/
def listNodes (list : Node) : List Node :=
  if list.children.length = 2 then (unroll2 list []).1 else []

/-- `"compound-stmt"`. -/
def transformCompoundStmt : Except Fault AstNode := do
  let locals ← n.child 1
  let ds ← (listNodes locals).mapM fun x => do
    let a ← rec x
    a.toVarDeclaration
  let list ← n.child 2
  let ss ← (listNodes list).mapM fun x => do
    let a ← rec x
    a.toStatement
  .ok (.ast (.compoundStmt ds (statementsOf ss)))

/-- `"expression-stmt"`. -/
def transformExpressionStmt : Except Fault AstNode :=
  if n.children.length = 2 then do
    let c ← n.child 0
    let a ← rec c
    let e ← a.toExpression
    .ok (.ast (.expressionStmt e))
  else .ok (.ast .emptyStmt)

/-- `"selection-stmt"`. -/
def transformSelectionStmt : Except Fault AstNode := do
  let c ← n.child 2
  let a ← rec c
  let e ← a.toExpression
  let c ← n.child 4
  let a ← rec c
  let s ← a.toStatement
  if n.children.length = 7 then do
    let c ← n.child 6
    let a ← rec c
    let t ← a.toStatement
    .ok (.ast (.selectionElseStmt e s t))
  else .ok (.ast (.selectionStmt e s))

/-- `"iteration-stmt"`. -/
def transformIterationStmt : Except Fault AstNode := do
  let c ← n.child 2
  let a ← rec c
  let e ← a.toExpression
  let c ← n.child 4
  let a ← rec c
  let s ← a.toStatement
  .ok (.ast (.iterationStmt e s))

/-- `"return-stmt"`. -/
def transformReturnStmt : Except Fault AstNode :=
  if n.children.length = 3 then do
    let c ← n.child 1
    let a ← rec c
    let e ← a.toExpression
    .ok (.ast (.returnStmt e))
  else .ok (.ast .returnVoidStmt)

/-- `"expression"`. -/
def transformExpression : Except Fault AstNode :=
  if n.children.length = 1 then transformOnly rec n
  else do
    let c ← n.child 0
    let a ← rec c
    let v ← a.toVar
    let c ← n.child 2
    let a ← rec c
    let e ← a.toExpression
    .ok (.ast (.assign v e))

/-- `"var"`. -/
def transformVar : Except Fault AstNode := do
  let id ← n.child 0
  if n.children.length = 4 then do
    let c ← n.child 2
    let a ← rec c
    let e ← a.toExpression
    .ok (.ast (.element id.name e))
  else .ok (.ast (.ident id.name))

/-- The operator of a comparison; a new node has the first one. -/
def relOpOf (name : String) : RelOp :=
  if name = "<=" then .le else if name = "<" then .lt else if name = ">" then .gt
  else if name = ">=" then .ge else if name = "==" then .eq else if name = "!=" then .neq else .le

/-- The operator of an `additive-expression`; a new node has the first one. -/
def addOpOf (name : String) : AddOp :=
  if name = "+" then .plus else if name = "-" then .minus else .plus

/-- The operator of a `term`; a new node has the first one. -/
def mulOpOf (name : String) : MulOp :=
  if name = "*" then .mul else if name = "/" then .div else .mul

/-- `"simple-expression"`. -/
def transformSimpleExpression : Except Fault AstNode := do
  let c ← n.child 0
  let a ← rec c
  let l ← a.toAdditive
  if n.children.length = 3 then do
    let relop ← n.child 1
    let op ← relop.child 0
    let c ← n.child 2
    let a ← rec c
    let r ← a.toAdditive
    .ok (.ast (.relation l (relOpOf op.name) r))
  else .ok (.ast (.simple l))

/-- `"additive-expression"`. -/
def transformAdditiveExpression : Except Fault AstNode :=
  if n.children.length = 3 then do
    let c ← n.child 0
    let a ← rec c
    let l ← a.toAdditive
    let addop ← n.child 1
    let op ← addop.child 0
    let c ← n.child 2
    let a ← rec c
    let t ← a.toTerm
    .ok (.ast (.additive l (addOpOf op.name) t))
  else do
    let c ← n.child 0
    let a ← rec c
    let t ← a.toTerm
    .ok (.ast (.term t))

/-- `"term"`. -/
def transformTerm : Except Fault AstNode :=
  if n.children.length = 3 then do
    let c ← n.child 0
    let a ← rec c
    let l ← a.toTerm
    let mulop ← n.child 1
    let op ← mulop.child 0
    let c ← n.child 2
    let a ← rec c
    let f ← a.toFactor
    .ok (.ast (.multiplicative l (mulOpOf op.name) f))
  else do
    let c ← n.child 0
    let a ← rec c
    let f ← a.toFactor
    .ok (.ast (.factor f))

/-- A constant expression in place of a factor becomes the number itself. -/
def collapse : AstNode → AstNode
  | @AstNode.ast .expression (.simple (.term (.factor (.intNum i)))) => .ast (.intNum i)
  | @AstNode.ast .expression (.simple (.term (.factor (.floatNum x)))) => .ast (.floatNum x)
  | a => a

/-- `"factor"`. -/
def transformFactor : Except Fault AstNode := do
  let c ← n.child (if n.children.length = 3 then 1 else 0)
  if c.name = "expression" ∨ c.name = "var" ∨ c.name = "call" then do
    let a ← rec c
    .ok (if c.name = "expression" then collapse a else a)
  else if c.name = "integer" then do
    let leaf ← c.child 0
    let i ← stoi leaf.name
    .ok (.ast (.intNum (BitVec.ofNat 32 i)))
  else if c.name = "float" then do
    let leaf ← c.child 0
    let x ← stof leaf.name
    .ok (.ast (.floatNum x))
  else .error .assertion

/-- `"call"`. -/
def transformCall : Except Fault AstNode := do
  let id ← n.child 0
  let args ← n.child 2
  let list ← args.child 0
  if list.name = "arg-list" then do
    let stack ← unrolled (unroll3 list [])
    let es ← stack.mapM fun x => do
      let a ← rec x
      a.toExpression
    .ok (.ast (.call id.name (argsOf es)))
  else .ok (.ast (.call id.name .noArgs))

/-- The branches of `transform_node_iter`. -/
def transformBranch : Except Fault AstNode :=
  if n.name = "program" then transformProgram rec n
  else if n.name = "declaration" then transformOnly rec n
  else if n.name = "var-declaration" then transformVarDeclaration n
  else if n.name = "fun-declaration" then transformFunDeclaration rec n
  else if n.name = "param" then transformParam n
  else if n.name = "compound-stmt" then transformCompoundStmt rec n
  else if n.name = "statement" then transformOnly rec n
  else if n.name = "expression-stmt" then transformExpressionStmt rec n
  else if n.name = "selection-stmt" then transformSelectionStmt rec n
  else if n.name = "iteration-stmt" then transformIterationStmt rec n
  else if n.name = "return-stmt" then transformReturnStmt rec n
  else if n.name = "expression" then transformExpression rec n
  else if n.name = "var" then transformVar rec n
  else if n.name = "simple-expression" then transformSimpleExpression rec n
  else if n.name = "additive-expression" then transformAdditiveExpression rec n
  else if n.name = "term" then transformTerm rec n
  else if n.name = "factor" then transformFactor rec n
  else if n.name = "call" then transformCall rec n
  else .error .assertion

end Branches

/-- `transform_node_iter`. -/
def transform : Nat → Node → Except Fault AstNode
  | 0, _ => .error .fuel
  | fuel + 1, n => transformBranch (transform fuel) n

end Cminusfc.Frontend
