import Cminusfc.Frontend.Builder
import Cminusfc.LightIR.Computes

/-!
# What a program means

The meaning of the nodes inside a function, as the language document has it
(`Documentations/common/cminusf.md`, lines 60-170), on the machine `M` that the IR runs on: what the
operations compute and what calls and global variables do is up to the machine. No table or order is
taken from the builder: its operators are compared with `relation`, `onIntegers` and `onFloats` in
`Simulation`, its types and predefined functions with `Context.of` in `FunctionsCorrect`.

* A `Store` has the variables in scope, those of the innermost scope first, and the world. A
  variable that is not set has no value, and the value of an array is its address. What has no value
  is not used, and only numbers are assigned: the rest is `Halt.undefined`.
* A value comes with its type. A comparison has the type `int1` and is the number 1 or 0 to whatever
  uses it as one. The value of an assignment is what is stored.
* An assignment evaluates the subscript on the left, then the right-hand side. Everything else goes
  from left to right.
* A negative subscript ends the program.
* `addr` has the addresses of the local arrays, by the number of the declaration in the function.

The code departs from this in three places: it takes a comparison for -1 where that becomes a
`float`, it keeps the number in front of the conversion as the value of an assignment, and it
evaluates the right-hand side first. `Ast.denote` with `strict` leaves these undefined; without it,
it is `Ast.meaning`.

Out of scope: the rounding of `float`, and what is at an address beyond an array.
-/

namespace Cminusfc.Frontend

open LightIR
open LightIR.Run (defined)

/-- A value with its type, and a variable with what it holds. -/
structure Typed (Val : Type) where
  type : Ty
  value : Option Val

/-- The variables of the scopes, innermost first. -/
abbrev Frames (Val : Type) := List (String → Option (Typed Val))

namespace Frames

variable {Val : Type}

/-- The innermost variable with a name. -/
def find : Frames Val → String → Option (Typed Val)
  | [], _ => none
  | m :: rest, id => (m id).or (find rest id)

/-- Set the innermost variable with a name. -/
def set : Frames Val → String → Val → Frames Val
  | [], _, _ => []
  | m :: rest, id, v =>
    match m id with
    | some x => Function.update m id (some { x with value := some v }) :: rest
    | none => m :: set rest id v

/-- A variable of the innermost scope. -/
def declare : Frames Val → String → Typed Val → Frames Val
  | [], _, _ => []
  | m :: rest, id, x => Function.update m id (some x) :: rest

end Frames

/-- The variables and the world. -/
structure Store (Val World : Type) where
  frames : Frames Val
  world : World

/-- What the text of the program says about a function: the types of the global variables, the
functions and the type of the result. -/
structure Context where
  globals : String → Option Ty
  callee : String → Option FunctionType
  returnType : Ty

/-- What a variable on the left of an assignment stands for. -/
inductive LValue (Val : Type) where
  | variable (id : String) (type : Ty)
  | memory (type : Ty) (address : Val)

/-- The type of what is stored there. -/
def LValue.type {Val : Type} : LValue Val → Ty
  | .variable _ t => t
  | .memory t _ => t

/-! ## Types and operators -/

/-- The type of the values of a declared type. -/
def CminusType.valueType : CminusType → Ty
  | .int => .int32
  | .float => .float
  | .void => .void

/-- The type of a variable. There are no arrays of `void`. -/
def VarDeclaration.variableType (d : VarDeclaration) : Option Ty :=
  match d.num with
  | none => some d.type.valueType
  | some n => if d.type = .void then none else some (.array d.type.valueType n)

/-- The relation between two numbers. -/
def RelOp.relation : RelOp → CmpOp
  | .le => .LE
  | .lt => .LT
  | .gt => .GT
  | .ge => .GE
  | .eq => .EQ
  | .neq => .NE

/-- The operation on two integers. -/
def AddOp.onIntegers : AddOp → OpID
  | .plus => .add
  | .minus => .sub

/-- The operation on two numbers one of which is a `float`. -/
def AddOp.onFloats : AddOp → OpID
  | .plus => .fadd
  | .minus => .fsub

/-- The operation on two integers. -/
def MulOp.onIntegers : MulOp → OpID
  | .mul => .mul
  | .div => .sdiv

/-- The operation on two numbers one of which is a `float`. -/
def MulOp.onFloats : MulOp → OpID
  | .mul => .fmul
  | .div => .fdiv

namespace Semantics

variable {Val World : Type} (M : Machine Val World) (strict : Bool)

/-! ## Values -/

/-- What reaches beyond the function. -/
def effect (op : OpID) (ty : Ty) (args : List Val) (σ : Store Val World) :
    Run Val World (Val × Store Val World) :=
  match M.effect op ty args σ.world with
  | some r => .ok (r.1, { σ with world := r.2 })
  | none => .error (.done (.fault σ.world))

/-- An operation. -/
def operation (op : OpID) (c : CmpOp) (ty : Ty) (args : List Val) (σ : Store Val World) :
    Run Val World (Val × Store Val World) :=
  if op.isPure then .ok (M.pure op c ty args, σ) else effect M op ty args σ

/-- A number as one of another type. A comparison that holds is 1, one that does not is 0. -/
def convert (t t' : Ty) (v : Val) : Run Val World Val :=
  match t, t' with
  | .int32, .int32 => .ok v
  | .float, .float => .ok v
  | .int1, .int32 => .ok (M.pure .zext .EQ .int32 [v])
  | .int1, .float =>
    if strict then .error .undefined
    else .ok (M.pure .sitofp .EQ .float [M.pure .zext .EQ .int32 [v]])
  | .int32, .float => .ok (M.pure .sitofp .EQ .float [v])
  | .float, .int32 => .ok (M.pure .fptosi .EQ .int32 [v])
  | _, _ => .error .undefined

/-- Two numbers as numbers of type `t`, and an operation on them. -/
def operateAt (t : Ty) (op : OpID) (c : CmpOp) (ty : Ty) (l r : Typed Val) (σ : Store Val World) :
    Run Val World (Typed Val × Store Val World) := do
  let a ← defined l.value
  let a ← convert M strict l.type t a
  let b ← defined r.value
  let b ← convert M strict r.type t b
  let v ← operation M op c ty [a, b] σ
  .ok (⟨ty, some v.1⟩, v.2)

/-- An operation on two integers, or on two numbers one of which is no integer. -/
def operate (intOp floatOp : OpID) (intTy floatTy : Ty) (c : CmpOp) (l r : Typed Val)
    (σ : Store Val World) : Run Val World (Typed Val × Store Val World) :=
  if l.type.isInteger && r.type.isInteger then operateAt M strict .int32 intOp c intTy l r σ
  else operateAt M strict .float floatOp c floatTy l r σ

/-- Whether a condition holds. -/
def truth (x : Typed Val) : Run Val World Bool := do
  let v ← defined x.value
  match x.type with
  | .int1 => .ok (M.isTrue v)
  | .int32 => .ok (M.isTrue (M.pure .cmp .NE .int1 [v, M.const (.int32 0)]))
  | .float => .ok (M.isTrue (M.pure .fcmp .NE .int1 [v, M.const (.fp 0)]))
  | _ => .error .undefined

/-- A condition, with the store behind it. -/
def condition (e : Store Val World → Run Val World (Typed Val × Store Val World))
    (σ : Store Val World) : Run Val World (Bool × Store Val World) := do
  let r ← e σ
  let b ← truth M r.1
  .ok (b, r.2)

/-! ## Variables -/

variable (Γ : Context)

/-- The address of the element `i` of an array. -/
def elementOf (array : Val) (t : Ty) (i : Val) : Val :=
  M.pure .getelementptr .EQ (.pointer t) [array, M.const (.int32 0), i]

/-- The variable with a name. -/
def find (id : String) (σ : Store Val World) : Run Val World (LValue Val) :=
  if id = "" then .error .undefined
  else
    match σ.frames.find id with
    | some x => .ok (.variable id x.type)
    | none =>
      match Γ.globals id with
      | some t => .ok (.memory t (M.const (.global id)))
      | none => .error .undefined

/-- An array: its type and its address. -/
def array (id : String) (σ : Store Val World) : Run Val World (Ty × Val) := do
  let x ← find M Γ id σ
  match x with
  | .variable id t => do
    let a ← defined ((σ.frames.find id).bind Typed.value)
    .ok (t, a)
  | .memory t a => if t.isArray then .ok (t, a) else .error .undefined

/-- The element `i` of an array, or of what a pointer points to. -/
def elementAt (id : String) (i : Val) (σ : Store Val World) : Run Val World (LValue Val) := do
  let a ← array M Γ id σ
  match a.1 with
  | .array t _ => .ok (.memory t (elementOf M a.2 t i))
  | .pointer t =>
    .ok (.memory t (M.pure .getelementptr .EQ (.pointer t) [a.2, i]))
  | _ => .error .undefined

/-- A negative subscript ends the program. -/
def checkIndex (i : Val) (σ : Store Val World) : Run Val World (Store Val World) :=
  if M.isTrue (M.pure .cmp .GE .int1 [i, M.const (.int32 0)]) then .ok σ
  else .error (.done (.fault σ.world))

/-- The value of a variable. -/
def read (x : LValue Val) (σ : Store Val World) : Run Val World (Typed Val × Store Val World) :=
  match x with
  | .variable id t =>
    if t.isArray then .error .undefined
    else .ok (⟨t, (σ.frames.find id).bind Typed.value⟩, σ)
  | .memory t a =>
    if t.isArray then .error .undefined
    else do
      let v ← effect M .load t [a] σ
      .ok (⟨t, some v.1⟩, v.2)

/-- What is on the left of an assignment is set. -/
def store (x : LValue Val) (v : Val) (σ : Store Val World) : Run Val World (Store Val World) :=
  match x with
  | .variable id _ => .ok { σ with frames := σ.frames.set id v }
  | .memory _ a => do
    let u ← effect M .store .void [v, a] σ
    .ok u.2

/-- An assignment. Its value is what is stored. -/
def write (x : LValue Val) (r : Typed Val) (σ : Store Val World) :
    Run Val World (Typed Val × Store Val World) := do
  let a ← defined r.value
  let v ← convert M strict r.type x.type a
  let σ ← store M x v σ
  .ok (if strict ∧ r.type ≠ x.type then ⟨r.type, none⟩ else ⟨x.type, some v⟩, σ)

/-- What is passed for an array. -/
def passArray (id : String) (σ : Store Val World) : Run Val World Val := do
  let a ← array M Γ id σ
  match a.1 with
  | .array t _ => .ok (elementOf M a.2 t (M.const (.int32 0)))
  | .pointer _ => .ok a.2
  | _ => .error .undefined

end Semantics

/-! ## Nodes -/

/-- The name of the variable that is all of an expression. -/
def Ast.asIdent : {k : Kind} → Ast k → Option String
  | _, .simple l => l.asIdent
  | _, .term t => t.asIdent
  | _, .factor f => f.asIdent
  | _, .group e => e.asIdent
  | _, .var v => v.asIdent
  | _, .ident id => some id
  | _, _ => none

/-- The variable is an element of an array. -/
def Ast.isElement : {k : Kind} → Ast k → Bool
  | _, .element _ _ => true
  | _, _ => false

/-- The expression has an effect: a call or an assignment. -/
def Ast.hasEffect : {k : Kind} → Ast k → Bool
  | _, .group e => e.hasEffect
  | _, .var v => v.hasEffect
  | _, .simple l => l.hasEffect
  | _, .term t => t.hasEffect
  | _, .factor f => f.hasEffect
  | _, .relation l _ r => l.hasEffect || r.hasEffect
  | _, .additive l _ t => l.hasEffect || t.hasEffect
  | _, .multiplicative l _ f => l.hasEffect || f.hasEffect
  | _, .element _ e => e.hasEffect
  | _, .assign _ _ => true
  | _, .call _ _ => true
  | _, .arg e rest => e.hasEffect || rest.hasEffect
  | _, _ => false

/-- An assignment to an element, with an effect in the subscript or on the right-hand side. -/
def Ast.crosses (v : Ast .var) (e : Ast .expression) : Bool :=
  v.isElement && (v.hasEffect || e.hasEffect)

/-- The number of declarations in a node. -/
def Ast.decls : {k : Kind} → Ast k → Nat
  | _, .compoundStmt ds ss => ds.length + ss.decls
  | _, .stmt s rest => s.decls + rest.decls
  | _, .selectionStmt _ s => s.decls
  | _, .selectionElseStmt _ s t => s.decls + t.decls
  | _, .iterationStmt _ s => s.decls
  | _, _ => 0

/-- What the nodes of a kind mean. Arguments need the types of the parameters, statements the number
of the next declaration. -/
def Kind.Meaning (Val World : Type) : Kind → Type
  | .var => Store Val World → Run Val World (LValue Val × Store Val World)
  | .args => List Ty → Store Val World → Run Val World (List Val × Store Val World)
  | .statement | .statements => Nat → Store Val World → Run Val World (Store Val World)
  | _ => Store Val World → Run Val World (Typed Val × Store Val World)

/-- The store of a compound statement. -/
def Store.enter {Val World : Type} (σ : Store Val World) : Store Val World :=
  { σ with frames := (fun _ => none) :: σ.frames }

/-- The store behind a compound statement. -/
def Store.exit {Val World : Type} (σ : Store Val World) : Store Val World :=
  { σ with frames := σ.frames.tail }

section Meaning

open Semantics

variable {Val World : Type} (strict : Bool) (M : Machine Val World) (Γ : Context)
  (addr : Nat → Val) (n : Nat)

/-- A local declaration. -/
def VarDeclaration.meaning (d : VarDeclaration) (k : Nat) (σ : Store Val World) :
    Run Val World (Store Val World) :=
  if d.id = "" then .error .undefined
  else
    match d.variableType with
    | some t =>
      .ok { σ with
        frames := σ.frames.declare d.id ⟨t, if t.isArray then some (addr k) else none⟩ }
    | none => .error .undefined

/-- The local declarations of a compound statement, the first of which is number `k`. -/
def declarations : List VarDeclaration → Nat → Store Val World → Run Val World (Store Val World)
  | [], _, σ => .ok σ
  | d :: ds, k, σ => do
    let σ ← d.meaning addr k σ
    declarations ds (k + 1) σ

/-- The meaning of a node, with `strict` undefined where the code departs from it. -/
def Ast.denote : {k : Kind} → Ast k → k.Meaning Val World
  | _, .intNum i => fun σ => .ok (⟨.int32, some (M.const (.int32 i))⟩, σ)
  | _, .floatNum x => fun σ => .ok (⟨.float, some (M.const (.fp x))⟩, σ)
  | _, .group e => e.denote
  | _, .simple l => l.denote
  | _, .term t => t.denote
  | _, .factor f => f.denote
  | _, .var v => fun σ => do
    let x ← v.denote σ
    read M x.1 x.2
  | _, .relation l op r => fun σ => do
    let a ← l.denote σ
    let b ← r.denote a.2
    operate M strict .cmp .fcmp .int1 .int1 op.relation a.1 b.1 b.2
  | _, .additive l op t => fun σ => do
    let a ← l.denote σ
    let b ← t.denote a.2
    operate M strict op.onIntegers op.onFloats .int32 .float .EQ a.1 b.1 b.2
  | _, .multiplicative l op f => fun σ => do
    let a ← l.denote σ
    let b ← f.denote a.2
    operate M strict op.onIntegers op.onFloats .int32 .float .EQ a.1 b.1 b.2
  | _, .ident id => fun σ => do
    let x ← find M Γ id σ
    .ok (x, σ)
  | _, .element id e => fun σ => do
    let i ← e.denote σ
    let a ← defined i.1.value
    let a ← convert M strict i.1.type .int32 a
    let σ ← checkIndex M a i.2
    let x ← elementAt M Γ id a σ
    .ok (x, σ)
  | _, .assign v e => fun σ =>
    if strict ∧ Ast.crosses v e then .error .undefined
    else do
      let x ← v.denote σ
      let r ← e.denote x.2
      write M strict x.1 r.1 r.2
  | _, .call id args => fun σ => do
    let t ← defined (Γ.callee id)
    let vs ← args.denote t.params σ
    let v ← effect M .call t.ret (M.const (.function id) :: vs.1) vs.2
    .ok (⟨t.ret, some v.1⟩, v.2)
  | _, .noArgs => fun ts σ => if ts = [] then .ok ([], σ) else .error .undefined
  | _, .arg e rest => fun ts σ => do
    let t ← defined ts.head?
    if t.isPointer then do
      let id ← defined e.asIdent
      let v ← passArray M Γ id σ
      let vs ← rest.denote ts.tail σ
      .ok (v :: vs.1, vs.2)
    else do
      let r ← e.denote σ
      let a ← defined r.1.value
      let v ← convert M strict r.1.type t a
      let vs ← rest.denote ts.tail r.2
      .ok (v :: vs.1, vs.2)
  | _, .emptyStmt => fun _ σ => .ok σ
  | _, .expressionStmt e => fun _ σ => do
    let r ← e.denote σ
    .ok r.2
  | _, .compoundStmt ds ss => fun k σ => do
    let σ ← declarations addr ds k σ.enter
    let σ ← ss.denote (k + ds.length) σ
    .ok σ.exit
  | _, .noStmts => fun _ σ => .ok σ
  | _, .stmt s rest => fun k σ => do
    let σ ← s.denote k σ
    rest.denote (k + s.decls) σ
  | _, .selectionStmt e s => fun k σ => do
    let r ← condition M e.denote σ
    if r.1 then s.denote k r.2 else .ok r.2
  | _, .selectionElseStmt e s t => fun k σ => do
    let r ← condition M e.denote σ
    if r.1 then s.denote k r.2 else t.denote (k + s.decls) r.2
  | _, .iterationStmt e s => fun k σ => Run.loop (condition M e.denote) (s.denote k) n σ
  | _, .returnVoidStmt => fun _ σ => .error (.done (.returned none σ.world))
  | _, .returnStmt e => fun _ σ => do
    let r ← e.denote σ
    let a ← defined r.1.value
    let v ← convert M strict r.1.type Γ.returnType a
    .error (.done (.returned (some v) r.2.world))

/-- **The meaning of a node.** -/
def Ast.meaning {k : Kind} (a : Ast k) : k.Meaning Val World := a.denote false M Γ addr n

/-! ## Functions -/

/-- The type of a parameter. -/
def Param.variableType (p : Param) : Ty :=
  if p.isarray then .pointer p.type.valueType else p.type.valueType

/-- The parameters with the arguments of the machine. -/
def parameters : List (Param × Nat) → Frames Val → Frames Val
  | [], m => m
  | p :: ps, m => parameters ps (m.declare p.1.id ⟨p.1.variableType, some (M.const (.arg p.2))⟩)

/-- The type of a function. -/
def FunDeclaration.signature (d : FunDeclaration) : FunctionType where
  ret := d.type.valueType
  params := d.params.map Param.variableType

/-- The predefined functions, and the two others of `src/io/io.c`. -/
def library : List (String × FunctionType) :=
  [("input", ⟨.int32, []⟩), ("output", ⟨.void, [.int32]⟩), ("outputFloat", ⟨.void, [.float]⟩),
    ("neg_idx_except", ⟨.void, []⟩), ("outputArray", ⟨.void, [.pointer .int32, .int32]⟩),
    ("outputArrayf", ⟨.void, [.pointer .float, .int32]⟩)]

/-- A global variable and its type. -/
def Declaration.variable : Declaration → Option (String × Ty)
  | .var d => d.variableType.map fun t => (d.id, t)
  | .fn _ => none

/-- A function and its type. -/
def Declaration.signature : Declaration → Option (String × FunctionType)
  | .var _ => none
  | .fn d => some (d.id, d.signature)

/-- What the text says in front of the body of `d`, behind the declarations `ds`. -/
def Context.of (ds : List Declaration) (d : FunDeclaration) : Context where
  globals id := (ds.filterMap Declaration.variable).lookup id
  callee id :=
    (((ds ++ [Declaration.fn d]).filterMap Declaration.signature).reverse ++ library).lookup id
  returnType := d.type.valueType

/-- The meaning of a function: its body with the parameters and the locals in one scope. A function
whose end is reached returns nothing. -/
def FunDeclaration.denote (d : FunDeclaration) (w : World) : Halt Val World :=
  if "" ∈ d.params.map Param.id then .undefined
  else
    let body : Run Val World (Store Val World) := do
      let σ ← declarations addr d.localDeclarations 0
        ⟨parameters M d.params.zipIdx [fun _ => none], w⟩
      d.statementList.denote strict M Γ addr n d.localDeclarations.length σ
    match body with
    | .ok σ => .done (.returned none σ.world)
    | .error h => h

/-- **The meaning of a function.** -/
def FunDeclaration.meaning (d : FunDeclaration) (w : World) : Halt Val World :=
  d.denote false M Γ addr n w

end Meaning

end Cminusfc.Frontend
