import Mathlib.Algebra.Group.Nat.Defs
import Mathlib.Data.List.TakeWhile
import Cminusfc.Frontend.Ast

/-!
# Syntax trees

Model of `syntax_tree_node` (`syntax_tree.h`), of the grammar in `syntax_analyzer.y` with the
lexemes of `lexical_analyzer.l`, and of the two functions of the standard library that read
literals.

* `productions` is the grammar: one list of right-hand sides for each nonterminal, in the order of
  the source. Every action builds a node with the name of the nonterminal.
* `Node` has its name as a string. That the source has it in an array of
  `SYNTAX_TREE_NODE_NAME_MAX` characters is the subject of `NodeNames`.
* `Derives` is decided by `Node.derives`.

Source: `include/syntax_tree.h` 1-31, `src/parser/syntax_analyzer.y` 72-183,
`src/parser/lexical_analyzer.l` 44-86. Out of scope: the automaton that bison makes of the grammar.
-/

namespace Cminusfc.Frontend

/-- `syntax_tree_node`; `children_num` is the length of `children`. -/
inductive Node where
  | mk (name : String) (children : List Node)
  deriving Repr

namespace Node

/-- `name`. -/
def name : Node → String
  | mk name _ => name

/-- `children`. -/
def children : Node → List Node
  | mk _ cs => cs

/-- `children[i]`. -/
def child (n : Node) (i : Nat) : Except Fault Node :=
  match n.children[i]? with
  | some c => .ok c
  | none => .error .undefined

mutual

/-- The number of nodes of a tree. -/
def size : Node → Nat
  | mk _ cs => sizes cs + 1

/-- The number of nodes of a list of trees. -/
def sizes : List Node → Nat
  | [] => 0
  | c :: cs => c.size + sizes cs

end

/-- `Sub n t`: `n` is a node of the tree `t`. -/
inductive Sub (n : Node) : Node → Prop
  | refl : Sub n n
  | child {name : String} {cs : List Node} {c : Node} (hc : c ∈ cs) (h : Sub n c) :
      Sub n (mk name cs)

end Node

/-- `SYNTAX_TREE_NODE_NAME_MAX`. -/
def nodeNameMax : Nat := 30

/-! ## Lexemes -/

/-- The tokens of `syntax_analyzer.y`. -/
inductive Token where
  | ID | INTEGER | FLOATPOINT
  | INT_T | VOID_T | FLOAT_T
  | LE | LT | GT | GE | EQ | NEQ
  | ADD | MINUS | MUL | DIV
  | ASSIGN | COLON | SEMICOLON
  | LPAREN | RPAREN | LBRACKET | RBRACKET | LCURLY | RCURLY
  | IF | ELSE | WHILE | RETURN
  deriving Repr, DecidableEq

/-- The keywords of `lexical_analyzer.l`, which are no identifiers. -/
def keywords : List String := ["int", "void", "float", "if", "else", "while", "return"]

/-- `[a-zA-Z]+`, no keyword. -/
def IsId (s : String) : Prop := s ≠ "" ∧ (∀ c ∈ s.toList, c.isAlpha) ∧ s ∉ keywords

/-- `[0-9]+`. -/
def IsInteger (s : String) : Prop := s ≠ "" ∧ ∀ c ∈ s.toList, c.isDigit

/-- `[0-9]+\.|[0-9]*\.[0-9]+`. -/
def IsFloatpoint (s : String) : Prop :=
  ∃ a b : List Char, s.toList = a ++ '.' :: b ∧ (∀ c ∈ a, c.isDigit) ∧ (∀ c ∈ b, c.isDigit) ∧
    (a ≠ [] ∨ b ≠ [])

/-- The texts of a token. -/
def Token.Lexeme : Token → String → Prop
  | .ID, s => IsId s
  | .INTEGER, s => IsInteger s
  | .FLOATPOINT, s => IsFloatpoint s
  | .INT_T, s => s = "int"
  | .VOID_T, s => s = "void"
  | .FLOAT_T, s => s = "float"
  | .LE, s => s = "<="
  | .LT, s => s = "<"
  | .GT, s => s = ">"
  | .GE, s => s = ">="
  | .EQ, s => s = "=="
  | .NEQ, s => s = "!="
  | .ADD, s => s = "+"
  | .MINUS, s => s = "-"
  | .MUL, s => s = "*"
  | .DIV, s => s = "/"
  | .ASSIGN, s => s = "="
  | .COLON, s => s = ","
  | .SEMICOLON, s => s = ";"
  | .LPAREN, s => s = "("
  | .RPAREN, s => s = ")"
  | .LBRACKET, s => s = "["
  | .RBRACKET, s => s = "]"
  | .LCURLY, s => s = "\x7b"
  | .RCURLY, s => s = "\x7d"
  | .IF, s => s = "if"
  | .ELSE, s => s = "else"
  | .WHILE, s => s = "while"
  | .RETURN, s => s = "return"

/-! ## The grammar -/

/-- The nonterminals of `syntax_analyzer.y`. -/
inductive Nonterminal where
  | program | declarationList | declaration | varDeclaration | typeSpecifier | funDeclaration
  | params | paramList | param | compoundStmt | localDeclarations | statementList | statement
  | expressionStmt | selectionStmt | iterationStmt | returnStmt | expression | var
  | simpleExpression | relop | additiveExpression | addop | term | mulop | factor | integer | float
  | call | args | argList
  deriving Repr, DecidableEq

/-- The names of the nodes that the actions build. -/
def Nonterminal.name : Nonterminal → String
  | .program => "program"
  | .declarationList => "declaration-list"
  | .declaration => "declaration"
  | .varDeclaration => "var-declaration"
  | .typeSpecifier => "type-specifier"
  | .funDeclaration => "fun-declaration"
  | .params => "params"
  | .paramList => "param-list"
  | .param => "param"
  | .compoundStmt => "compound-stmt"
  | .localDeclarations => "local-declarations"
  | .statementList => "statement-list"
  | .statement => "statement"
  | .expressionStmt => "expression-stmt"
  | .selectionStmt => "selection-stmt"
  | .iterationStmt => "iteration-stmt"
  | .returnStmt => "return-stmt"
  | .expression => "expression"
  | .var => "var"
  | .simpleExpression => "simple-expression"
  | .relop => "relop"
  | .additiveExpression => "additive-expression"
  | .addop => "addop"
  | .term => "term"
  | .mulop => "mulop"
  | .factor => "factor"
  | .integer => "integer"
  | .float => "float"
  | .call => "call"
  | .args => "args"
  | .argList => "arg-list"

/-- A token or a nonterminal. -/
inductive Symbol where
  | t (token : Token)
  | n (nonterminal : Nonterminal)
  deriving Repr, DecidableEq

/-- The rules of `syntax_analyzer.y`. -/
def productions : Nonterminal → List (List Symbol)
  | .program => [[.n .declarationList]]
  | .declarationList => [[.n .declarationList, .n .declaration], [.n .declaration]]
  | .declaration => [[.n .varDeclaration], [.n .funDeclaration]]
  | .varDeclaration =>
    [[.n .typeSpecifier, .t .ID, .t .SEMICOLON],
      [.n .typeSpecifier, .t .ID, .t .LBRACKET, .t .INTEGER, .t .RBRACKET, .t .SEMICOLON]]
  | .typeSpecifier => [[.t .INT_T], [.t .VOID_T], [.t .FLOAT_T]]
  | .funDeclaration =>
    [[.n .typeSpecifier, .t .ID, .t .LPAREN, .n .params, .t .RPAREN, .n .compoundStmt]]
  | .params => [[.n .paramList], [.t .VOID_T]]
  | .paramList => [[.n .paramList, .t .COLON, .n .param], [.n .param]]
  | .param => [[.n .typeSpecifier, .t .ID], [.n .typeSpecifier, .t .ID, .t .LBRACKET, .t .RBRACKET]]
  | .compoundStmt => [[.t .LCURLY, .n .localDeclarations, .n .statementList, .t .RCURLY]]
  | .localDeclarations => [[.n .localDeclarations, .n .varDeclaration], []]
  | .statementList => [[.n .statementList, .n .statement], []]
  | .statement =>
    [[.n .expressionStmt], [.n .compoundStmt], [.n .selectionStmt], [.n .iterationStmt],
      [.n .returnStmt]]
  | .expressionStmt => [[.n .expression, .t .SEMICOLON], [.t .SEMICOLON]]
  | .selectionStmt =>
    [[.t .IF, .t .LPAREN, .n .expression, .t .RPAREN, .n .statement],
      [.t .IF, .t .LPAREN, .n .expression, .t .RPAREN, .n .statement, .t .ELSE, .n .statement]]
  | .iterationStmt => [[.t .WHILE, .t .LPAREN, .n .expression, .t .RPAREN, .n .statement]]
  | .returnStmt => [[.t .RETURN, .t .SEMICOLON], [.t .RETURN, .n .expression, .t .SEMICOLON]]
  | .expression => [[.n .var, .t .ASSIGN, .n .expression], [.n .simpleExpression]]
  | .var => [[.t .ID], [.t .ID, .t .LBRACKET, .n .expression, .t .RBRACKET]]
  | .simpleExpression =>
    [[.n .additiveExpression, .n .relop, .n .additiveExpression], [.n .additiveExpression]]
  | .relop => [[.t .LE], [.t .LT], [.t .GT], [.t .GE], [.t .EQ], [.t .NEQ]]
  | .additiveExpression => [[.n .additiveExpression, .n .addop, .n .term], [.n .term]]
  | .addop => [[.t .ADD], [.t .MINUS]]
  | .term => [[.n .term, .n .mulop, .n .factor], [.n .factor]]
  | .mulop => [[.t .MUL], [.t .DIV]]
  | .factor =>
    [[.t .LPAREN, .n .expression, .t .RPAREN], [.n .var], [.n .call], [.n .integer], [.n .float]]
  | .integer => [[.t .INTEGER]]
  | .float => [[.t .FLOATPOINT]]
  | .call => [[.t .ID, .t .LPAREN, .n .args, .t .RPAREN]]
  | .args => [[.n .argList], []]
  | .argList => [[.n .argList, .t .COLON, .n .expression], [.n .expression]]

/-- `node`: an empty right-hand side gets a child of its own. -/
def node (name : String) (children : List Node) : Node :=
  .mk name (if children.isEmpty then [.mk "epsilon" []] else children)

/-- The parse trees of the grammar. -/
inductive Derives : Symbol → Node → Prop
  | token {t : Token} {s : String} (h : t.Lexeme s) : Derives (.t t) (.mk s [])
  | rule {n : Nonterminal} {rhs : List Symbol} {cs : List Node} (hrhs : rhs ∈ productions n)
      (hcs : List.Forall₂ Derives rhs cs) : Derives (.n n) (node n.name cs)

/-! ## The trees are decidable -/

instance (s : String) : Decidable (IsId s) :=
  decidable_of_iff (s ≠ "" ∧ s.toList.all Char.isAlpha = true ∧ s ∉ keywords)
    (by rw [List.all_eq_true, IsId])

instance (s : String) : Decidable (IsInteger s) :=
  decidable_of_iff (s ≠ "" ∧ s.toList.all Char.isDigit = true) (by rw [List.all_eq_true, IsInteger])

/-- `IsFloatpoint`, by what is behind the digits in front of the point. -/
def isFloatpoint (s : String) : Bool :=
  match s.toList.dropWhile Char.isDigit with
  | '.' :: b => b.all Char.isDigit && (s.toList.takeWhile Char.isDigit ≠ [] || b ≠ [])
  | _ => false

theorem isFloatpoint_iff {s : String} : isFloatpoint s = true ↔ IsFloatpoint s := by
  constructor
  · intro h
    unfold isFloatpoint at h
    split at h
    · rename_i b hdrop
      rw [Bool.and_eq_true, Bool.or_eq_true, decide_eq_true_iff, decide_eq_true_iff] at h
      refine ⟨s.toList.takeWhile Char.isDigit, b, ?_, fun c hc => List.mem_takeWhile_imp hc,
        List.all_eq_true.mp h.1, h.2⟩
      rw [← hdrop, List.takeWhile_append_dropWhile]
    · cases h
  · rintro ⟨a, b, hs, ha, hb, hne⟩
    have hpoint : ('.' : Char).isDigit = false := by decide
    have hdrop : s.toList.dropWhile Char.isDigit = '.' :: b := by
      rw [hs, List.dropWhile_append_of_pos ha, List.dropWhile_cons_of_neg (by simp [hpoint])]
    have htake : s.toList.takeWhile Char.isDigit = a := by
      rw [hs, List.takeWhile_append_of_pos ha, List.takeWhile_cons_of_neg (by simp [hpoint]),
        List.append_nil]
    unfold isFloatpoint
    rw [hdrop, htake]
    show (b.all Char.isDigit && (decide (a ≠ []) || decide (b ≠ []))) = true
    rw [Bool.and_eq_true, Bool.or_eq_true, decide_eq_true_iff, decide_eq_true_iff]
    exact ⟨List.all_eq_true.mpr hb, hne⟩

instance (s : String) : Decidable (IsFloatpoint s) := decidable_of_iff _ isFloatpoint_iff

instance : (t : Token) → (s : String) → Decidable (t.Lexeme s)
  | .ID, s => inferInstanceAs (Decidable (IsId s))
  | .INTEGER, s => inferInstanceAs (Decidable (IsInteger s))
  | .FLOATPOINT, s => inferInstanceAs (Decidable (IsFloatpoint s))
  | .INT_T, _ | .VOID_T, _ | .FLOAT_T, _ | .LE, _ | .LT, _ | .GT, _ | .GE, _ | .EQ, _ | .NEQ, _
  | .ADD, _ | .MINUS, _ | .MUL, _ | .DIV, _ | .ASSIGN, _ | .COLON, _ | .SEMICOLON, _ | .LPAREN, _
  | .RPAREN, _ | .LBRACKET, _ | .RBRACKET, _ | .LCURLY, _ | .RCURLY, _ | .IF, _ | .ELSE, _
  | .WHILE, _ | .RETURN, _ => inferInstanceAs (Decidable (_ = _))

/-- The child of a node with an empty right-hand side. -/
def isEpsilon : List Node → Bool
  | [.mk "epsilon" []] => true
  | _ => false

mutual

/-- `Derives`. -/
def Node.derives : Node → Symbol → Bool
  | .mk s cs, .t t => cs.isEmpty && decide (t.Lexeme s)
  | .mk s cs, .n m =>
    s = m.name && (productions m).any fun rhs =>
      if rhs.isEmpty then isEpsilon cs else Node.derivesAll cs rhs

/-- The children. -/
def Node.derivesAll : List Node → List Symbol → Bool
  | [], [] => true
  | c :: cs, x :: rhs => c.derives x && Node.derivesAll cs rhs
  | _, _ => false

end

theorem isEpsilon_iff {cs : List Node} : isEpsilon cs = true ↔ cs = [.mk "epsilon" []] := by
  constructor
  · intro h
    unfold isEpsilon at h
    split at h
    · rfl
    · cases h
  · rintro rfl
    rfl

mutual

/-- **`Node.derives` decides which trees are parse trees.** -/
theorem Node.derives_iff : ∀ (n : Node) (x : Symbol), n.derives x = true ↔ Derives x n
  | .mk s cs, .t t => by
    rw [Node.derives, Bool.and_eq_true, List.isEmpty_iff, decide_eq_true_iff]
    constructor
    · rintro ⟨rfl, h⟩
      exact .token h
    · rintro (h | _)
      exact ⟨rfl, h⟩
  | .mk s cs, .n m => by
    rw [Node.derives, Bool.and_eq_true, decide_eq_true_iff, List.any_eq_true]
    constructor
    · rintro ⟨rfl, rhs, hrhs, h⟩
      split_ifs at h with hempty
      · obtain rfl := List.isEmpty_iff.mp hempty
        obtain rfl : cs = [.mk "epsilon" []] := isEpsilon_iff.mp h
        exact .rule hrhs .nil
      · have hcs := (Node.derivesAll_iff cs rhs).mp h
        have hne : cs.isEmpty = false := by
          cases hcs with
          | nil => exact absurd rfl hempty
          | cons => rfl
        have hrule := Derives.rule hrhs hcs
        rwa [node, hne] at hrule
    · intro h
      obtain ⟨rhs, cs', hrhs, hcs, hn⟩ : ∃ rhs cs', rhs ∈ productions m ∧
          List.Forall₂ Derives rhs cs' ∧ Node.mk s cs = node m.name cs' := by
        generalize Node.mk s cs = n at h
        cases h with
        | rule hrhs hcs => exact ⟨_, _, hrhs, hcs, rfl⟩
      obtain ⟨hname, hchildren⟩ := Node.mk.inj hn
      refine ⟨hname, rhs, hrhs, ?_⟩
      split_ifs with hempty
      · obtain rfl := List.isEmpty_iff.mp hempty
        cases hcs
        exact isEpsilon_iff.mpr hchildren
      · refine (Node.derivesAll_iff cs rhs).mpr ?_
        have hne : cs'.isEmpty = false := by
          cases hcs with
          | nil => exact absurd rfl hempty
          | cons => rfl
        rwa [hchildren, if_neg (by simp [hne])]

theorem Node.derivesAll_iff : ∀ (cs : List Node) (rhs : List Symbol),
    Node.derivesAll cs rhs = true ↔ List.Forall₂ Derives rhs cs
  | [], [] => iff_of_true rfl .nil
  | [], _ :: _ => iff_of_false Bool.false_ne_true (fun h => nomatch h)
  | _ :: _, [] => iff_of_false Bool.false_ne_true (fun h => nomatch h)
  | c :: cs, x :: rhs => by
    rw [Node.derivesAll, Bool.and_eq_true, Node.derives_iff c x, Node.derivesAll_iff cs rhs,
      List.forall₂_cons]

end

instance (x : Symbol) (n : Node) : Decidable (Derives x n) :=
  decidable_of_iff _ (Node.derives_iff n x)

/-! ## Literals -/

/-- The value of decimal digits. -/
def decimal (cs : List Char) : Nat := cs.foldl (fun n c => 10 * n + (c.toNat - '0'.toNat)) 0

/-- `std::stoi` of a text without blanks and sign. -/
def stoi (s : String) : Except Fault Nat :=
  let ds := s.toList.takeWhile Char.isDigit
  if ds.isEmpty then .error .assertion
  else if decimal ds < 2 ^ 31 then .ok (decimal ds)
  else .error .assertion

/-- The bits of the float next to `n / d`, with ties to even; `std::stof` throws when the value is
too large or too small for a normal number. -/
def roundFloat (n d : Nat) : Except Fault (BitVec 32) :=
  if n = 0 then .ok 0
  else if n * 2 ^ 126 < d ∨ d * (2 ^ 128 - 2 ^ 103) ≤ n then .error .assertion
  else
    -- `shift - 150` is the exponent of the last bit of the significand
    let shift := Nat.log2 (n * 2 ^ 150 / d) - 23
    let m := n * 2 ^ 150 / (d * 2 ^ shift)
    let r := n * 2 ^ 150 % (d * 2 ^ shift)
    let up := 2 * r > d * 2 ^ shift || (2 * r = d * 2 ^ shift && m % 2 = 1)
    .ok (BitVec.ofNat 32 (shift * 2 ^ 23 + (m + up.toNat - 2 ^ 23)))

/-- `std::stof` of digits with a point. -/
def stof (s : String) : Except Fault (BitVec 32) :=
  let a := s.toList.takeWhile Char.isDigit
  let b := (s.toList.drop (a.length + 1)).takeWhile Char.isDigit
  if a.isEmpty && b.isEmpty then .error .assertion
  else roundFloat (decimal (a ++ b)) (10 ^ b.length)

end Cminusfc.Frontend
