import Cminusfc.LightIR.Ir

/-!
# The abstract syntax tree

Model of the nodes of `ast.hpp`. All nodes inside a function are one family, `Ast`, indexed by the
class of the node: a visitor is one recursive function, and a fact about all nodes one induction.

* A class with an optional child has one constructor without and one with it: `simple` and
  `relation` are `ASTSimpleExpression`, `term` and `additive` are `ASTAdditiveExpression`, `factor`
  and `multiplicative` are `ASTTerm`, `ident` and `element` are `ASTVar`.
* `ASTFactor` has no members. `group`, `var` and `call` are the conversions of an `ASTExpression`,
  an `ASTVar` and an `ASTCall` to it; `intNum` and `floatNum` are `ASTNum`.
* The vectors of arguments and statements are `noArgs`, `arg` and `noStmts`, `stmt`.

Source: `include/ast.hpp` 14-305. Out of scope: the visitors and `ASTPrinter`.
-/

namespace Cminusfc.Frontend

open LightIR (Ty)

/-- `CminusType`. -/
inductive CminusType where
  | int | float | void
  deriving Repr, DecidableEq

/-- `RelOp`. -/
inductive RelOp where
  | le | lt | gt | ge | eq | neq
  deriving Repr, DecidableEq

/-- `AddOp`. -/
inductive AddOp where
  | plus | minus
  deriving Repr, DecidableEq

/-- `MulOp`. -/
inductive MulOp where
  | mul | div
  deriving Repr, DecidableEq

/-- `ASTVarDeclaration`; `num` is the number of elements of an array. -/
structure VarDeclaration where
  type : CminusType
  id : String
  num : Option Nat := none
  deriving Repr, DecidableEq

/-- `ASTParam`. -/
structure Param where
  type : CminusType
  id : String
  isarray : Bool := false
  deriving Repr, DecidableEq

/-- The classes of the nodes inside a function. -/
inductive Kind where
  | expression | additive | term | factor | var | args | statement | statements
  deriving Repr, DecidableEq

/-- The nodes inside a function. -/
inductive Ast : Kind → Type where
  | assign (var : Ast .var) (expression : Ast .expression) : Ast .expression
  | simple (l : Ast .additive) : Ast .expression
  | relation (l : Ast .additive) (op : RelOp) (r : Ast .additive) : Ast .expression
  | term (t : Ast .term) : Ast .additive
  | additive (l : Ast .additive) (op : AddOp) (t : Ast .term) : Ast .additive
  | factor (f : Ast .factor) : Ast .term
  | multiplicative (l : Ast .term) (op : MulOp) (f : Ast .factor) : Ast .term
  | intNum (i : BitVec 32) : Ast .factor
  | floatNum (f : BitVec 32) : Ast .factor
  | group (e : Ast .expression) : Ast .factor
  | var (v : Ast .var) : Ast .factor
  | call (id : String) (args : Ast .args) : Ast .factor
  | ident (id : String) : Ast .var
  | element (id : String) (e : Ast .expression) : Ast .var
  | noArgs : Ast .args
  | arg (e : Ast .expression) (rest : Ast .args) : Ast .args
  | compoundStmt (localDeclarations : List VarDeclaration) (statementList : Ast .statements) :
      Ast .statement
  | emptyStmt : Ast .statement
  | expressionStmt (e : Ast .expression) : Ast .statement
  | selectionStmt (e : Ast .expression) (s : Ast .statement) : Ast .statement
  | selectionElseStmt (e : Ast .expression) (s : Ast .statement) (t : Ast .statement) :
      Ast .statement
  | iterationStmt (e : Ast .expression) (s : Ast .statement) : Ast .statement
  | returnVoidStmt : Ast .statement
  | returnStmt (e : Ast .expression) : Ast .statement
  | noStmts : Ast .statements
  | stmt (s : Ast .statement) (rest : Ast .statements) : Ast .statements
  deriving Repr

/-- `ASTFunDeclaration`; `compound_stmt` by its two members. -/
structure FunDeclaration where
  type : CminusType
  id : String
  params : List Param
  localDeclarations : List VarDeclaration
  statementList : Ast .statements

/-- `ASTDeclaration`. -/
inductive Declaration where
  | var (d : VarDeclaration)
  | fn (d : FunDeclaration)

end Cminusfc.Frontend
