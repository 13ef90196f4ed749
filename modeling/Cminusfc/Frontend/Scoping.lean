import Mathlib.Data.List.Forall2
import Mathlib.Logic.Relation
import Cminusfc.Frontend.Reach

/-!
# Scoping

`Env` is what the text of a program says about a place in it: the declarations around the place, those
of the innermost scope first, each with the value that was created for it. `Child` follows the visitor
from a node to the nodes in it, with the states it visits them in; the environment changes at a
compound statement only. The stack of scopes that the visitor keeps is not looked at by either.

* The value of a declaration in a function is the slot that its visit creates, that of a global
  variable or of a function is the global of that name.
* A second declaration of a name in a scope fails an assertion, so a program that declares a name twice
  in a scope is visited up to there only.
* The name `""` stands for the return value and is no identifier.

Results:
* `visitVarDeclaration_slot`: the slot of a local variable is an alloca of its type.
* `Child.agrees`: one step down.
* `visitFunDeclaration_scope`: a function leaves its name.
* `scoping`: **every identifier is resolved to the innermost declaration around it**.

About `Scope`, `include/cminusf_builder.hpp` 13-78, and its uses in
`src/cminusfc/cminusf_builder.cpp` 26-101, 275-304 and 394-407.
-/

namespace Cminusfc.Frontend

open LightIR
open Fallible (bind_ok)
open Builder

/-! ## Environments -/

/-- The declarations around a place, those of the innermost scope first. -/
abbrev Env := List (List (String × Value))

/-- The value of the innermost declaration of a name. -/
def Env.resolve (E : Env) (id : String) : Option Value := E.findSome? fun m => m.lookup id

/-- The declarations of a list, with the slots created for them: the first instruction that the visit
of a declaration creates. -/
def declared {α : Type} (name : α → String) (step : Builder → α → Except Fault Builder) :
    List α → Builder → List (String × Value)
  | [], _ => []
  | d :: ds, B =>
    match step B d with
    | .ok B' => declared name step ds B' ++ [(name d, B.emitted)]
    | .error _ => []

/-- The local declarations of a compound statement. -/
def declaredLocals : List VarDeclaration → Builder → List (String × Value) :=
  declared VarDeclaration.id visitVarDeclaration

/-- The parameters of a function. -/
def declaredParams (l : List Param) : Builder → List (String × Value) :=
  declared (fun p : Param × Nat => p.1.id) visitParam l.zipIdx

/-- A global declaration with its value. -/
def Declaration.global : Declaration → String × Value
  | .var d => (d.id, .global d.id)
  | .fn d => (d.id, .function d.id)

/-- The global declarations of a program, behind the predefined ones. -/
def globalEnv (ds : List Declaration) : List (String × Value) :=
  (ds.map Declaration.global).reverse ++ predefined.map fun p => (p.1, .function p.1)

/-! ## Places -/

/-- A node, with the state it is visited in and the declarations around it. -/
structure Visit where
  kind : Kind
  node : Ast kind
  state : Builder
  env : Env

/-- The visit of the first node visits the second. -/
inductive Child : Visit → Visit → Prop
  | simple (l : Ast .additive) (B : Builder) (E : Env) : Child ⟨_, .simple l, B, E⟩ ⟨_, l, B, E⟩
  | term (t : Ast .term) (B : Builder) (E : Env) : Child ⟨_, .term t, B, E⟩ ⟨_, t, B, E⟩
  | factor (f : Ast .factor) (B : Builder) (E : Env) : Child ⟨_, .factor f, B, E⟩ ⟨_, f, B, E⟩
  | group (e : Ast .expression) (B : Builder) (E : Env) : Child ⟨_, .group e, B, E⟩ ⟨_, e, B, E⟩
  | var (v : Ast .var) (B : Builder) (E : Env) : Child ⟨_, .var v, B, E⟩ ⟨_, v, B, E⟩
  | relationLeft (l : Ast .additive) (op : RelOp) (r : Ast .additive) (B : Builder) (E : Env) :
      Child ⟨_, .relation l op r, B, E⟩ ⟨_, l, B, E⟩
  | relationRight {l : Ast .additive} (op : RelOp) (r : Ast .additive) {B B₁ : Builder} (E : Env)
      (hl : visit l B = .ok B₁) : Child ⟨_, .relation l op r, B, E⟩ ⟨_, r, B₁, E⟩
  | additiveLeft (l : Ast .additive) (op : AddOp) (t : Ast .term) (B : Builder) (E : Env) :
      Child ⟨_, .additive l op t, B, E⟩ ⟨_, l, B, E⟩
  | additiveRight {l : Ast .additive} (op : AddOp) (t : Ast .term) {B B₁ : Builder} (E : Env)
      (hl : visit l B = .ok B₁) : Child ⟨_, .additive l op t, B, E⟩ ⟨_, t, B₁, E⟩
  | multiplicativeLeft (l : Ast .term) (op : MulOp) (f : Ast .factor) (B : Builder) (E : Env) :
      Child ⟨_, .multiplicative l op f, B, E⟩ ⟨_, l, B, E⟩
  | multiplicativeRight {l : Ast .term} (op : MulOp) (f : Ast .factor) {B B₁ : Builder} (E : Env)
      (hl : visit l B = .ok B₁) : Child ⟨_, .multiplicative l op f, B, E⟩ ⟨_, f, B₁, E⟩
  | subscript (id : String) (e : Ast .expression) (B : Builder) (E : Env) :
      Child ⟨_, .element id e, B, E⟩ ⟨_, e, B.setAddressOnly false, E⟩
  | assigned (v : Ast .var) (e : Ast .expression) (B : Builder) (E : Env) :
      Child ⟨_, .assign v e, B, E⟩ ⟨_, e, B, E⟩
  | target (v : Ast .var) {e : Ast .expression} {B B₁ : Builder} (E : Env)
      (he : visit e B = .ok B₁) : Child ⟨_, .assign v e, B, E⟩ ⟨_, v, B₁.setAddressOnly true, E⟩
  | args {id n : String} {t : FunctionType} (args : Ast .args) {B : Builder} (E : Env)
      (hcallee : B.callee id = .ok (n, t)) :
      Child ⟨_, .call id args, B, E⟩ ⟨_, args, B.setFrame ⟨t.params, []⟩, E⟩
  | arg {t : Ty} (e : Ast .expression) (rest : Ast .args) {B : Builder} (E : Env)
      (ht : B.nextParam = .ok t) :
      Child ⟨_, .arg e rest, B, E⟩ ⟨_, e, B.setAddressOnly t.isPointer, E⟩
  | laterArgs {t : Ty} {e : Ast .expression} (rest : Ast .args) {B B₁ B₂ : Builder} (E : Env)
      (ht : B.nextParam = .ok t) (he : visit e (B.setAddressOnly t.isPointer) = .ok B₁)
      (hpush : B₁.pushArg t = .ok B₂) : Child ⟨_, .arg e rest, B, E⟩ ⟨_, rest, B₂, E⟩
  | expression (e : Ast .expression) (B : Builder) (E : Env) :
      Child ⟨_, .expressionStmt e, B, E⟩ ⟨_, e, B, E⟩
  | returned (e : Ast .expression) (B : Builder) (E : Env) :
      Child ⟨_, .returnStmt e, B, E⟩ ⟨_, e, B, E⟩
  | statement (s : Ast .statement) (rest : Ast .statements) (B : Builder) (E : Env) :
      Child ⟨_, .stmt s rest, B, E⟩ ⟨_, s, B, E⟩
  | laterStatements {s : Ast .statement} (rest : Ast .statements) {B B₁ : Builder} (E : Env)
      (hs : visit s B = .ok B₁) : Child ⟨_, .stmt s rest, B, E⟩ ⟨_, rest, B₁, E⟩
  | compound {ds : List VarDeclaration} (ss : Ast .statements) {B B₁ : Builder} (E : Env)
      (hds : ds.foldlM visitVarDeclaration B.enterScope = .ok B₁) :
      Child ⟨_, .compoundStmt ds ss, B, E⟩ ⟨_, ss, B₁, declaredLocals ds B.enterScope :: E⟩
  | condition (e : Ast .expression) (s : Ast .statement) (B : Builder) (E : Env) :
      Child ⟨_, .selectionStmt e s, B, E⟩ ⟨_, e, B, E⟩
  | selected {e : Ast .expression} (s : Ast .statement) {B B₁ : Builder} (E : Env)
      (he : visit e B = .ok B₁) : Child ⟨_, .selectionStmt e s, B, E⟩ ⟨_, s, B₁.openSelection, E⟩
  | conditionElse (e : Ast .expression) (s t : Ast .statement) (B : Builder) (E : Env) :
      Child ⟨_, .selectionElseStmt e s t, B, E⟩ ⟨_, e, B, E⟩
  | selectedThen {e : Ast .expression} (s t : Ast .statement) {B B₁ : Builder} (E : Env)
      (he : visit e B = .ok B₁) :
      Child ⟨_, .selectionElseStmt e s t, B, E⟩ ⟨_, s, B₁.openSelectionElse, E⟩
  | selectedElse {e : Ast .expression} {s : Ast .statement} (t : Ast .statement)
      {B B₁ B₂ : Builder} (E : Env) (he : visit e B = .ok B₁)
      (hs : visit s B₁.openSelectionElse = .ok B₂) :
      Child ⟨_, .selectionElseStmt e s t, B, E⟩
        ⟨_, t, ((B₂.leaveBranch (B₁.newBlock + 2)).setInsertPoint
          (B₁.newBlock + 1)).setReturnInBranch false, E⟩
  | iterated (e : Ast .expression) (s : Ast .statement) (B : Builder) (E : Env) :
      Child ⟨_, .iterationStmt e s, B, E⟩ ⟨_, e, B.openIteration, E⟩
  | body {e : Ast .expression} (s : Ast .statement) {B B₁ : Builder} (E : Env)
      (he : visit e B.openIteration = .ok B₁) :
      Child ⟨_, .iterationStmt e s, B, E⟩
        ⟨_, s, B₁.enterBody (B.newBlock + 1) (B.newBlock + 2), E⟩

/-- The statements of the function `d`, behind the declarations `ds` of a program. The locals of its
body share one scope with the parameters. -/
inductive Starts (ds : List Declaration) (d : FunDeclaration) : Visit → Prop
  | mk {B₀ B₁ B₂ B₃ : Builder} (hprogram : visitProgram ds freshBuilder = .ok B₀)
      (henter : enterFunction d B₀ = .ok B₁) (hprologue : prologue d B₀ = .ok B₂)
      (hlocals : d.localDeclarations.foldlM visitVarDeclaration B₂.enterScope = .ok B₃) :
      Starts ds d ⟨_, d.statementList, B₃,
        [declaredLocals d.localDeclarations B₂.enterScope ++ declaredParams d.params B₁,
          globalEnv (ds ++ [.fn d])]⟩

/-- A node in the body of the function `d`, behind the declarations `ds` of a program. -/
def Visited (ds : List Declaration) (d : FunDeclaration) (v : Visit) : Prop :=
  ∃ start, Starts ds d start ∧ Relation.ReflTransGen Child start v

/-- The node is an occurrence of a variable. -/
def IsVar : {k : Kind} → Ast k → String → Prop
  | _, .ident id, name => id = name
  | _, .element id _, name => id = name
  | _, _, _ => False

/-! ## Scopes and environments -/

/-- A scope has the declarations of `g`, and the return value. -/
def SameNames (m g : List (String × Value)) : Prop := ∀ id, id ≠ "" → m.lookup id = g.lookup id

/-- The stack of scopes is the environment. -/
structure Agrees (v : Visit) : Prop where
  inside : Inside v.state
  scopes : List.Forall₂ SameNames v.state.scope v.env

theorem resolve_eq {s : Scope} {E : Env} (h : List.Forall₂ SameNames s E) {id : String}
    (hid : id ≠ "") : s.find id = E.resolve id := by
  induction h with
  | nil => rfl
  | cons hm _ ih =>
    rw [Scope.find, ih, hm id hid, Env.resolve, Env.resolve, List.findSome?_cons]
    cases List.lookup id _ <;> rfl

theorem getGlobal_eq {s : Scope} {E : Env} (h : List.Forall₂ SameNames s E) {id : String}
    (hid : id ≠ "") : s.getGlobal id = E.getLast?.bind fun g => g.lookup id := by
  induction h with
  | nil => rfl
  | @cons m g s E hm hrest ih =>
    cases hrest with
    | nil => exact hm id hid
    | cons hm' hrest' =>
      simp only [Scope.getGlobal, List.getLast?_cons_cons] at ih ⊢
      exact ih

/-- A new entry in the innermost scope. -/
theorem SameNames.cons {m g : List (String × Value)} (h : SameNames m g) (p : String × Value) :
    SameNames (p :: m) (p :: g) := by
  intro id hid
  rw [List.lookup_cons, List.lookup_cons, h id hid]

/-- The declarations of a list are pushed one by one. -/
theorem declared_scope {α : Type} {name : α → String} {step : Builder → α → Except Fault Builder}
    (hstep : ∀ B B' d, B.scope.tail ≠ [] → step B d = .ok B' →
      ∃ m rest, B.scope = m :: rest ∧ B'.scope = ((name d, B.emitted) :: m) :: rest) (ds : List α) :
    ∀ {B B' : Builder} {m : List (String × Value)} {rest : Scope}, B.scope = m :: rest →
      rest ≠ [] → ds.foldlM step B = .ok B' →
      B'.scope = (declared name step ds B ++ m) :: rest := by
  induction ds with
  | nil =>
    intro B B' m rest hm _ h
    cases h
    exact hm
  | cons d ds ih =>
    intro B B' m rest hm hrest h
    rw [List.foldlM_cons] at h
    obtain ⟨B₁, h₁, h₂⟩ := bind_ok.mp h
    obtain ⟨m', rest', hm', hm₁⟩ := hstep B B₁ d (by rw [hm]; exact hrest) h₁
    obtain ⟨rfl, rfl⟩ := List.cons.inj (hm.symm.trans hm')
    rw [ih hm₁ hrest h₂, declared, h₁, List.append_assoc, List.singleton_append]

theorem visitVarDeclaration_scope {d : VarDeclaration} {B B' : Builder} (hs : B.scope.tail ≠ [])
    (h : B.visitVarDeclaration d = .ok B') :
    ∃ m rest, B.scope = m :: rest ∧ B'.scope = ((d.id, B.emitted) :: m) :: rest := by
  obtain ⟨t, -, h⟩ := bind_ok.mp h
  rcases hB : B.scope with _ | ⟨m, _ | ⟨m', rest⟩⟩
  · rw [hB] at hs
    exact absurd rfl hs
  · rw [hB] at hs
    exact absurd rfl hs
  · have hlocal : B.scope.inGlobal = false := by simp [Scope.inGlobal, hB]
    simp only [hlocal, Bool.false_eq_true, if_false] at h
    split at h
    · rename_i s hpush
      cases h
      have hscope : (B.createAlloca t).scope = m :: m' :: rest := hB
      rw [hscope] at hpush
      exact ⟨m, m' :: rest, rfl, push_cases hpush⟩
    · cases h

/-- The slot of a local variable: an alloca of its type, which is also what the visit leaves. -/
theorem visitVarDeclaration_slot {d : VarDeclaration} {B B' : Builder} (hs : B.scope.tail ≠ [])
    (h : B.visitVarDeclaration d = .ok B') : ∃ t, variableType d = .ok t ∧ B'.val = B.emitted ∧
      (B'.fn.instr B.fn.next).op = .alloca ∧ (B'.fn.instr B.fn.next).ty = .pointer t := by
  obtain ⟨t, ht, h⟩ := bind_ok.mp h
  have hlocal : B.scope.inGlobal = false := by
    rcases hB : B.scope with _ | ⟨m, _ | ⟨m', rest⟩⟩
    · exact absurd (by rw [hB]; rfl) hs
    · exact absurd (by rw [hB]; rfl) hs
    · simp [Scope.inGlobal]
  simp only [hlocal, Bool.false_eq_true, if_false] at h
  split at h
  · cases h
    have hinstr : (B.createAlloca t).fn.instr B.fn.next =
        { op := .alloca, ty := .pointer t, operands := [], parent := B.bb, cmpOp := .EQ } := by
      show Function.update B.fn.instr B.fn.next _ B.fn.next = _
      rw [Function.update_self]
    refine ⟨t, ht, rfl, ?_, ?_⟩
    · exact congrArg Instr.op hinstr
    · exact congrArg Instr.ty hinstr
  · cases h

theorem visitParam_scope {p : Param × Nat} {B B' : Builder} (hs : B.scope.tail ≠ [])
    (h : visitParam B p = .ok B') :
    ∃ m rest, B.scope = m :: rest ∧ B'.scope = ((p.1.id, B.emitted) :: m) :: rest := by
  rcases hB : B.scope with _ | ⟨m, rest⟩
  · rw [hB] at hs
    exact absurd rfl hs
  · unfold visitParam at h
    dsimp only at h
    split at h
    · rename_i s hpush
      cases h
      have hscope : s = ((p.1.id, B.emitted) :: m) :: rest := by
        refine push_cases ?_
        rw [← hB]
        exact hpush
      exact ⟨m, rest, rfl, hscope⟩
    · cases h

/-! ## One step down -/

/-- A step that keeps the declarations. -/
theorem Agrees.keep {k k' : Kind} {a : Ast k} {a' : Ast k'} {B B' : Builder} {E : Env}
    (h : Agrees ⟨k, a, B, E⟩) (hs : Stays B B') : Agrees ⟨k', a', B', E⟩ := by
  have hk := hs h.inside
  refine ⟨h.inside.of_keeps hk, ?_⟩
  show List.Forall₂ SameNames B'.scope E
  rw [hk.scope]
  exact h.scopes

/-- **One step down**: the scopes are the declarations around the node. -/
theorem Child.agrees {v w : Visit} (h : Child v w) (ha : Agrees v) : Agrees w := by
  cases h with
  | simple | term | factor | group | var | relationLeft | additiveLeft | multiplicativeLeft
  | assigned | expression | returned | statement | condition | conditionElse =>
    exact ⟨ha.inside, ha.scopes⟩
  | relationRight op r E hl | additiveRight op t E hl | multiplicativeRight op f E hl =>
    exact ha.keep (visit_stays _ _ _ hl)
  | subscript id e B E => exact ha.keep (setAddressOnly_keeps B false).stays
  | target v E he => exact ha.keep ((visit_stays _ _ _ he).trans (setAddressOnly_keeps _ _).stays)
  | args a E hcallee => exact ⟨⟨ha.inside.scope, ha.inside.enterInFunDecl⟩, ha.scopes⟩
  | arg e rest E ht => exact ha.keep (setAddressOnly_keeps _ _).stays
  | laterArgs rest E ht he hpush =>
    have hk := (((setAddressOnly_keeps _ _).stays.trans (visit_stays _ _ _ he)).trans
      (pushArg_keeps hpush).stays) ha.inside
    refine ⟨⟨hk.scope ▸ ha.inside.scope, hk.enterInFunDecl.trans ha.inside.enterInFunDecl⟩, ?_⟩
    have hscope := hk.scope
    exact hscope ▸ ha.scopes
  | laterStatements rest E hs => exact ha.keep (visit_stays _ _ _ hs)
  | @compound ds ss B B₁ E hds =>
    have hflag : B.enterInFunDecl = false := ha.inside.enterInFunDecl
    have hopen : B.enterScope.scope = [] :: B.scope := by simp [enterScope, Scope.enter, hflag]
    have hscope := @declared_scope VarDeclaration VarDeclaration.id visitVarDeclaration
      (fun _ _ _ => visitVarDeclaration_scope) ds _ _ _ _ hopen ha.inside.scope hds
    rw [List.append_nil] at hscope
    have hk := (visitVarDeclarations_keeps ds _ B₁ hds (by rw [hopen]; exact ha.inside.scope)).1
    refine ⟨⟨?_, hk.enterInFunDecl⟩, ?_⟩
    · show B₁.scope ≠ []
      rw [hscope]
      exact List.cons_ne_nil _ _
    · show List.Forall₂ SameNames B₁.scope _
      rw [hscope]
      exact .cons (fun _ _ => rfl) ha.scopes
  | selected s E he => exact ha.keep ((visit_stays _ _ _ he).trans (openSelection_keeps _).stays)
  | selectedThen s t E he =>
    exact ha.keep ((visit_stays _ _ _ he).trans (openSelectionElse_keeps _).stays)
  | selectedElse t E he hs =>
    refine ha.keep ((visit_stays _ _ _ he).trans ((openSelectionElse_keeps _).stays.trans
      ((visit_stays _ _ _ hs).trans ?_)))
    exact (((leaveBranch_keeps _ _).trans (setInsertPoint_keeps _ _)).trans
      (setReturnInBranch_keeps _ _)).stays
  | iterated e s B E => exact ha.keep (openIteration_keeps B).stays
  | body s E he =>
    exact ha.keep (((openIteration_keeps _).stays.trans (visit_stays _ _ _ he)).trans
      (enterBody_keeps _ _ _).stays)

/-! ## The body of a function -/

theorem enterFunction_scope {d : FunDeclaration} {B B' : Builder} {m : List (String × Value)}
    (hm : B.scope = [m]) (h : enterFunction d B = .ok B') :
    B'.scope = [[], (d.id, .function d.id) :: m] := by
  unfold enterFunction at h
  dsimp only at h
  split at h
  · rename_i s hpush
    split_ifs at h
    cases h
    rw [hm] at hpush
    obtain rfl := push_cases hpush
    rfl
  · cases h

/-- In front of the body: the parameters, and the return value. -/
theorem prologue_scope {d : FunDeclaration} {B B₁ B' : Builder} {m : List (String × Value)}
    (hm : B.scope = [m]) (henter : enterFunction d B = .ok B₁) (h : prologue d B = .ok B') :
    ∃ g, B'.scope = [g, (d.id, .function d.id) :: m] ∧ SameNames g (declaredParams d.params B₁) := by
  have hopen := enterFunction_scope hm henter
  obtain ⟨B₁', h₁, h⟩ := bind_ok.mp h
  obtain rfl := Except.ok.inj (henter.symm.trans h₁)
  obtain ⟨B₂, h₂, h⟩ := bind_ok.mp h
  have hparams := @declared_scope (Param × Nat) (fun p => p.1.id) visitParam
    (fun _ _ _ => visitParam_scope) d.params.zipIdx _ _ _ _ hopen (List.cons_ne_nil _ _) h₂
  rw [List.append_nil] at hparams
  dsimp only at h
  split_ifs at h
  · cases h
    dsimp only
    generalize (Builder.createAlloca _ d.type.type).val = v
    show ∃ g, (Scope.push B₂.scope "" v).getD B₂.scope = _ ∧ _
    cases hpush : Scope.push B₂.scope "" v with
    | none => exact ⟨_, hparams, fun _ _ => rfl⟩
    | some s =>
      rw [hparams] at hpush
      obtain rfl := push_cases hpush
      refine ⟨_, rfl, fun id hid => ?_⟩
      rw [List.lookup_cons, beq_false_of_ne hid]
      rfl
  · cases h
    exact ⟨_, hparams, fun _ _ => rfl⟩

/-! ## Programs -/

/-- **A function leaves its name**, and nothing else. -/
theorem visitFunDeclaration_scope {d : FunDeclaration} {B B' : Builder} {m : List (String × Value)}
    (ht : TopLevel B) (hm : B.scope = [m]) (h : visitFunDeclaration d B = .ok B') :
    B'.scope = [(d.id, .function d.id) :: m] := by
  obtain ⟨B₁, henter, B₂, hprologue⟩ : ∃ B₁, enterFunction d B = .ok B₁ ∧
      ∃ B₂, prologue d B = .ok B₂ := by
    rw [visitFunDeclaration_eq] at h
    obtain ⟨B₂, h₂, -⟩ := bind_ok.mp h
    obtain ⟨B₁, h₁, -⟩ := bind_ok.mp h₂
    exact ⟨B₁, h₁, B₂, h₂⟩
  have he := prologue_entering ht hprologue
  obtain ⟨g, hg, -⟩ := prologue_scope hm henter hprologue
  rw [(visitFunDeclaration_keeps he hprologue h).scope]
  show B₂.enterScope.scope.tail = _
  rw [he.enterScope, hg]
  rfl

theorem visitVarDeclaration_global {d : VarDeclaration} {B B' : Builder}
    {m : List (String × Value)} (hm : B.scope = [m]) (h : B.visitVarDeclaration d = .ok B') :
    B'.scope = [(d.id, .global d.id) :: m] := by
  have hin : B.scope.inGlobal = true := by simp [Scope.inGlobal, hm]
  obtain ⟨t, -, h⟩ := bind_ok.mp h
  simp only [hin, if_true] at h
  split at h
  · rename_i s hpush
    cases h
    refine push_cases ?_
    rw [← hm]
    exact hpush
  · cases h

/-- Between two declarations the only scope is that of the globals. -/
theorem visitProgram_scope (ds : List Declaration) :
    ∀ {B B' : Builder} {m : List (String × Value)}, TopLevel B → B.scope = [m] →
      visitProgram ds B = .ok B' → B'.scope = [(ds.map Declaration.global).reverse ++ m] := by
  induction ds with
  | nil =>
    intro B B' m _ hm h
    cases h
    exact hm
  | cons d ds ih =>
    intro B B' m ht hm h
    simp only [visitProgram, List.foldlM_cons] at h
    obtain ⟨B₁, h₁, h₂⟩ := bind_ok.mp h
    rw [List.map_cons, List.reverse_cons, List.append_assoc, List.singleton_append]
    cases d with
    | var d => exact ih (visitVarDeclaration_topLevel ht h₁) (visitVarDeclaration_global hm h₁) h₂
    | fn d => exact ih (visitFunDeclaration_topLevel ht h₁) (visitFunDeclaration_scope ht hm h₁) h₂

theorem program_scope {ds : List Declaration} {B : Builder}
    (h : visitProgram ds freshBuilder = .ok B) : B.scope = [globalEnv ds] :=
  visitProgram_scope ds freshBuilder_topLevel rfl h

/-- The statements of a function start in scopes that are the declarations around them. -/
theorem Starts.agrees {ds : List Declaration} {d : FunDeclaration} {v : Visit} (h : Starts ds d v) :
    Agrees v := by
  obtain ⟨hprogram, henter, hprologue, hlocals⟩ := h
  rename_i B₀ B₁ B₂ B₃
  have ht := visitProgram_topLevel ds freshBuilder_topLevel hprogram
  have he := prologue_entering ht hprologue
  obtain ⟨g, hg, hsame⟩ := prologue_scope (program_scope hprogram) henter hprologue
  have hopen : B₂.enterScope.scope = g :: [(d.id, .function d.id) :: globalEnv ds] :=
    he.enterScope.trans hg
  have hscope := @declared_scope VarDeclaration VarDeclaration.id visitVarDeclaration
    (fun _ _ _ => visitVarDeclaration_scope) d.localDeclarations _ _ _ _ hopen
    (List.cons_ne_nil _ _) hlocals
  have hk := (visitVarDeclarations_keeps d.localDeclarations _ B₃ hlocals (by
    rw [hopen]
    exact List.cons_ne_nil _ _)).1
  have hglobal : globalEnv (ds ++ [.fn d]) = (d.id, .function d.id) :: globalEnv ds := by
    simp [globalEnv, Declaration.global]
  refine ⟨⟨?_, hk.enterInFunDecl⟩, ?_⟩
  · show B₃.scope ≠ []
    rw [hscope]
    exact List.cons_ne_nil _ _
  · show List.Forall₂ SameNames B₃.scope _
    rw [hscope, hglobal]
    refine .cons (fun id hid => ?_) (.cons (fun _ _ => rfl) .nil)
    rw [List.lookup_append, List.lookup_append, hsame id hid]
    rfl

/-- **Every node is visited in scopes that are the declarations around it.** -/
theorem Visited.agrees {ds : List Declaration} {d : FunDeclaration} {v : Visit}
    (h : Visited ds d v) : Agrees v := by
  obtain ⟨start, hstart, hpath⟩ := h
  induction hpath with
  | refl => exact hstart.agrees
  | tail _ hchild ih => exact hchild.agrees ih

/-- The outermost declarations are those of the program. -/
theorem Visited.globals {ds : List Declaration} {d : FunDeclaration} {v : Visit}
    (h : Visited ds d v) : v.env.getLast? = some (globalEnv (ds ++ [.fn d])) := by
  obtain ⟨start, hstart, hpath⟩ := h
  induction hpath with
  | refl =>
    cases hstart
    rfl
  | tail _ hchild ih =>
    cases hchild with
    | compound ss E hds =>
      cases E with
      | nil => cases ih
      | cons g E => exact ih
    | _ => exact ih

/-- A global name stands for itself. -/
theorem lookup_globalEnv {ds : List Declaration} {id : String} {v : Value}
    (h : (globalEnv ds).lookup id = some v) : v = .global id ∨ v = .function id := by
  have hmem := lookup_mem h
  unfold globalEnv at hmem
  rcases List.mem_append.mp hmem with hmem | hmem
  · obtain ⟨d, -, hd⟩ := List.mem_map.mp (List.mem_reverse.mp hmem)
    cases d with
    | var d =>
      cases hd
      exact Or.inl rfl
    | fn d =>
      cases hd
      exact Or.inr rfl
  · obtain ⟨p, -, hp⟩ := List.mem_map.mp hmem
    cases hp
    exact Or.inr rfl

/-- A call resolves to the function of its name. -/
theorem Visited.callee {ds : List Declaration} {d : FunDeclaration} {v : Visit}
    (h : Visited ds d v) {id n : String} {t : FunctionType} (hid : id ≠ "")
    (hcallee : v.state.callee id = .ok (n, t)) :
    n = id ∧ (globalEnv (ds ++ [.fn d])).lookup id = some (.function id) := by
  have hglobal := getGlobal_eq h.agrees.scopes hid
  rw [h.globals, Option.bind_some] at hglobal
  unfold Builder.callee at hcallee
  split at hcallee
  · cases hcallee
  · rename_i n' hfn
    rw [hglobal] at hfn
    split at hcallee
    · cases hcallee
      obtain hv | hv := lookup_globalEnv hfn
      · cases hv
      · cases hv
        exact ⟨rfl, hfn⟩
    · cases hcallee
  · cases hcallee

/-- **Scoping.** A variable is resolved to the value of the innermost declaration around it, a call to
the global function of its name, behind a statement the scopes are those in front of it, and a function
adds its name to the scope of the globals. -/
theorem scoping (ds : List Declaration) (d : FunDeclaration) :
    (∀ v, Visited ds d v →
      (∀ id, id ≠ "" → IsVar v.node id → v.state.scope.find id = v.env.resolve id) ∧
      (∀ id n t, id ≠ "" → v.state.callee id = .ok (n, t) →
        n = id ∧ (globalEnv (ds ++ [.fn d])).lookup id = some (.function id)) ∧
      (∀ B', v.kind = .statement → visit v.node v.state = .ok B' →
        B'.scope = v.state.scope)) ∧
    ∀ B B', visitProgram ds freshBuilder = .ok B → visitFunDeclaration d B = .ok B' →
      B.scope.push d.id (.function d.id) = some B'.scope := by
  refine ⟨fun v hv => ⟨fun id hid _ => resolve_eq hv.agrees.scopes hid, fun id n t hid hcallee =>
    hv.callee hid hcallee, fun B' hk hvisit => ?_⟩, fun B B' hprogram h => ?_⟩
  · obtain ⟨k, a, B, E⟩ := v
    obtain rfl : k = .statement := hk
    exact (visit_stays a B B' hvisit hv.agrees.inside).scope
  · have hm := program_scope hprogram
    have ht := visitProgram_topLevel ds freshBuilder_topLevel hprogram
    rw [visitFunDeclaration_scope ht hm h]
    obtain ⟨s, hpush⟩ : ∃ s, B.scope.push d.id (.function d.id) = some s := by
      rw [visitFunDeclaration_eq] at h
      obtain ⟨B₂, h₂, -⟩ := bind_ok.mp h
      obtain ⟨B₁, henter, -⟩ := bind_ok.mp h₂
      unfold enterFunction at henter
      dsimp only at henter
      split at henter
      · rename_i s hpush
        exact ⟨s, hpush⟩
      · cases henter
    rw [hpush]
    rw [hm] at hpush
    rw [push_cases hpush]

/-- `void main(void) { { int x; x; } }` behind a global `int x;`. -/
def shadowing : FunDeclaration where
  type := .void
  id := "main"
  params := []
  localDeclarations := []
  statementList := .stmt (.compoundStmt [⟨.int, "x", none⟩] (.stmt (.expressionStmt
    (.simple (.term (.factor (.var (.ident "x")))))) .noStmts)) .noStmts

/-- The theorem at the occurrence in it, which is resolved to the inner slot. -/
theorem scoping_shadowing : ∃ v, Visited [.var ⟨.int, "x", none⟩] shadowing v ∧ IsVar v.node "x" ∧
    v.state.scope.find "x" = some (.instr 0) := by
  obtain ⟨v, hv, hvar, hresolve⟩ : ∃ v, Visited [.var ⟨.int, "x", none⟩] shadowing v ∧
      IsVar v.node "x" ∧ v.env.resolve "x" = some (.instr 0) := by
    refine ⟨⟨_, .ident "x", _, _⟩, ⟨⟨_, shadowing.statementList, _, _⟩, .mk rfl rfl rfl rfl,
      .head (.statement _ _ _ _) (.head (.compound _ _ rfl) (.head (.statement _ _ _ _)
        (.head (.expression _ _ _) (.head (.simple _ _ _) (.head (.term _ _ _)
          (.head (.factor _ _ _) (.single (.var _ _ _))))))))⟩, ?_, ?_⟩
    · rfl
    · rfl
  exact ⟨v, hv, hvar, (((scoping _ _).1 v hv).1 "x" (by decide) hvar).trans hresolve⟩

end Cminusfc.Frontend
