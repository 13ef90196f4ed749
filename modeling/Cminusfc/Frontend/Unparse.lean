import Cminusfc.Frontend.Transform

/-!
# Unparsing

`Node.text` is the sequence of the leaves of a syntax tree, `programText` the left-to-right
unparsing of a program. A literal counts by its value, since the abstract syntax has no other
trace of it. The leaves leave out

* the epsilon of an empty list and the `void` in place of parameters,
* the parentheses around a factor that is a single number.

In the unparsing an expression that stands as a factor (`group`) is in parentheses, and so two
operators are never regrouped without parentheses that the tree does not have.

No function of the source prints a program; `ASTPrinter` prints the tree.
-/

namespace Cminusfc.Frontend

open LightIR

/-- A leaf as it is compared. -/
inductive Lexeme where
  | word (s : String)
  | int (i : Nat)
  | float (bits : BitVec 32)
  deriving Repr, DecidableEq

/-- A leaf by its text. -/
def lexeme (s : String) : Lexeme :=
  if s ≠ "" ∧ s.toList.all Char.isDigit then .int (decimal s.toList)
  else if '.' ∈ s.toList then
    match stof s with
    | .ok x => .float x
    | .error _ => .word s
  else .word s

/-- A single number. -/
def isNumber : List Lexeme → Bool
  | [.int _] | [.float _] => true
  | _ => false

/-! ## Syntax trees -/

/-- The epsilon of a list without elements, or the `void` in place of parameters. -/
def isMarker (name : String) : List Node → Bool
  | [.mk leaf []] =>
    leaf = "epsilon" && (name = "local-declarations" || name = "statement-list" || name = "args") ||
      leaf = "void" && name = "params"
  | _ => false

/-- The leaves of a node, from those of its children. -/
def joinText (name : String) (cs : List Node) (texts : List (List Lexeme)) : List Lexeme :=
  if cs.isEmpty then [lexeme name]
  else if isMarker name cs then []
  else
    match texts with
    | [l, t, r] => if name = "factor" && isNumber t then t else l ++ t ++ r
    | _ => texts.flatten

mutual

/-- The leaves of a tree, from left to right. -/
def Node.text : Node → List Lexeme
  | .mk name cs => joinText name cs (Node.texts cs)

/-- The leaves of each tree. -/
def Node.texts : List Node → List (List Lexeme)
  | [] => []
  | c :: cs => c.text :: Node.texts cs

end

/-! ## Abstract syntax trees -/

/-- The elements with a comma between them. -/
def commaText : List (List Lexeme) → List Lexeme
  | [] => []
  | [t] => t
  | t :: ts => t ++ .word "," :: commaText ts

def CminusType.text : CminusType → Lexeme
  | .int => .word "int"
  | .float => .word "float"
  | .void => .word "void"

def RelOp.text : RelOp → Lexeme
  | .le => .word "<="
  | .lt => .word "<"
  | .gt => .word ">"
  | .ge => .word ">="
  | .eq => .word "=="
  | .neq => .word "!="

def AddOp.text : AddOp → Lexeme
  | .plus => .word "+"
  | .minus => .word "-"

def MulOp.text : MulOp → Lexeme
  | .mul => .word "*"
  | .div => .word "/"

/-- A declaration of a variable. -/
def VarDeclaration.text (d : VarDeclaration) : List Lexeme :=
  match d.num with
  | none => [d.type.text, .word d.id, .word ";"]
  | some n => [d.type.text, .word d.id, .word "[", .int n, .word "]", .word ";"]

/-- A parameter. -/
def Param.text (p : Param) : List Lexeme :=
  [p.type.text, .word p.id] ++ if p.isarray then [.word "[", .word "]"] else []

/-- The nodes inside a function. -/
def Ast.text : {k : Kind} → Ast k → List Lexeme
  | _, .assign v e => v.text ++ .word "=" :: e.text
  | _, .simple l => l.text
  | _, .relation l op r => l.text ++ op.text :: r.text
  | _, .term t => t.text
  | _, .additive l op t => l.text ++ op.text :: t.text
  | _, .factor f => f.text
  | _, .multiplicative l op f => l.text ++ op.text :: f.text
  | _, .intNum i => [.int i.toNat]
  | _, .floatNum x => [.float x]
  | _, .group e => .word "(" :: e.text ++ [.word ")"]
  | _, .var v => v.text
  | _, .call id args => .word id :: .word "(" :: args.text ++ [.word ")"]
  | _, .ident id => [.word id]
  | _, .element id e => .word id :: .word "[" :: e.text ++ [.word "]"]
  | _, .noArgs => []
  | _, .arg e .noArgs => e.text
  | _, .arg e rest => e.text ++ .word "," :: rest.text
  | _, .compoundStmt ds ss =>
    .word "\x7b" :: ds.flatMap VarDeclaration.text ++ ss.text ++ [.word "\x7d"]
  | _, .emptyStmt => [.word ";"]
  | _, .expressionStmt e => e.text ++ [.word ";"]
  | _, .selectionStmt e s => .word "if" :: .word "(" :: e.text ++ .word ")" :: s.text
  | _, .selectionElseStmt e s t =>
    .word "if" :: .word "(" :: e.text ++ .word ")" :: s.text ++ .word "else" :: t.text
  | _, .iterationStmt e s => .word "while" :: .word "(" :: e.text ++ .word ")" :: s.text
  | _, .returnVoidStmt => [.word "return", .word ";"]
  | _, .returnStmt e => .word "return" :: e.text ++ [.word ";"]
  | _, .noStmts => []
  | _, .stmt s rest => s.text ++ rest.text

/-- A function. -/
def FunDeclaration.text (d : FunDeclaration) : List Lexeme :=
  [d.type.text, .word d.id, .word "("] ++ commaText (d.params.map Param.text) ++ [.word ")"] ++
    (Ast.compoundStmt d.localDeclarations d.statementList).text

/-- A declaration. -/
def Declaration.text : Declaration → List Lexeme
  | .var d => d.text
  | .fn d => d.text

/-- A program. -/
def programText (ds : List Declaration) : List Lexeme := ds.flatMap Declaration.text

end Cminusfc.Frontend
