import Cminusfc.Frontend.Typing

/-!
# The states of a program

`Ready` holds wherever the compiler visits an expression. `TopLevel` is what holds between the
declarations of a program, `prologue` the part of `visit(ASTFunDeclaration)` in front of the body,
and `Reaches` follows the visitor from a statement to the expressions in it.

Results:
* `visitProgram_topLevel`: between two declarations of a program `TopLevel` holds.
* `prologue_ready`: the body of a function is visited from a state that is ready.
* `Reaches.ready`: so are the expressions in it.

About `visit(ASTProgram)` and `visit(ASTFunDeclaration)`, `src/cminusfc/cminusf_builder.cpp` 5-79,
and the calls of `accept` in 90-315.
-/

namespace Cminusfc.Frontend

open LightIR
open Fallible (bind_ok)
open Builder

/-! ## Between declarations -/

/-- A global variable or a function. -/
def IsGlobal (v : Value) : Prop := ∃ n, v = .global n ∨ v = .function n

theorem IsGlobal.named {B : Builder} {v : Value} (h : IsGlobal v)
    (hg : ∀ p ∈ B.globals, p.2.isDeclared = true) : B.Named v := by
  obtain ⟨n, rfl | rfl⟩ := h
  · have hdeclared : ((B.globals.lookup n).getD .void).isDeclared = true := by
      cases hl : B.globals.lookup n with
      | none => rfl
      | some t => exact hg _ (lookup_mem hl)
    exact ⟨⟨nofun, hdeclared⟩, .inl rfl⟩
  · exact ⟨⟨nofun, rfl⟩, .inr rfl⟩

/-- Between two declarations of a program. -/
structure TopLevel (B : Builder) : Prop where
  scope : ∃ m, B.scope = [m] ∧ ∀ p ∈ m, IsGlobal p.2
  globals : ∀ p ∈ B.globals, p.2.isDeclared = true
  types : ∀ p ∈ B.types, p.2.ret.isDeclared = true ∧ ∀ t ∈ p.2.params, t.isDeclared = true
  enterInFunDecl : B.enterInFunDecl = false
  frame : B.frame = {}

theorem freshBuilder_topLevel : TopLevel freshBuilder where
  scope := by
    refine ⟨_, rfl, fun p hp => ?_⟩
    obtain ⟨q, -, rfl⟩ := List.mem_map.mp hp
    exact ⟨q.1, .inr rfl⟩
  globals := nofun
  types := by decide
  enterInFunDecl := rfl
  frame := rfl

theorem variableType_declared {d : VarDeclaration} {t : Ty} (h : variableType d = .ok t) :
    t.isDeclared = true := by
  have hd : d.type.type.isDeclared = true := by cases d.type <;> rfl
  unfold variableType at h
  split at h
  · cases h
    exact hd
  · split_ifs at h
    cases h
    exact hd

theorem push_cases {m : List (String × Value)} {rest s : Scope} {id : String} {v : Value}
    (h : Scope.push (m :: rest) id v = some s) : s = ((id, v) :: m) :: rest := by
  rw [Scope.push] at h
  split_ifs at h
  exact (Option.some.inj h).symm

theorem visitVarDeclaration_topLevel {d : VarDeclaration} {B B' : Builder} (ht : TopLevel B)
    (h : B.visitVarDeclaration d = .ok B') : TopLevel B' := by
  obtain ⟨m, hm, hglobal⟩ := ht.scope
  have hin : B.scope.inGlobal = true := by simp [Scope.inGlobal, hm]
  obtain ⟨t, htype, h⟩ := bind_ok.mp h
  simp only [hin, if_true] at h
  split at h
  · rename_i s hpush
    cases h
    have hs : s = [(d.id, .global d.id) :: m] := by
      refine push_cases ?_
      rw [← hm]
      exact hpush
    refine ⟨⟨_, hs, fun p hp => ?_⟩, fun p hp => ?_, ht.types, ht.enterInFunDecl, ht.frame⟩
    · rcases List.mem_cons.mp hp with rfl | hp
      · exact ⟨d.id, .inl rfl⟩
      · exact hglobal p hp
    · rcases List.mem_append.mp hp with hp | hp
      · exact ht.globals p hp
      · obtain rfl := List.mem_singleton.mp hp
        exact variableType_declared htype
  · cases h

/-! ## Into a function -/

/-- `visit(ASTFunDeclaration)` in front of the body. -/
def prologue (d : FunDeclaration) (B : Builder) : Except Fault Builder := do
  let B ← enterFunction d B
  let B ← d.params.zipIdx.foldlM visitParam B
  let B := { B with bbCounter := 0, returnType := d.type }
  if d.type ≠ .void then
    let B := B.createAlloca d.type.type
    .ok { B with scope := (B.scope.push "" B.val).getD B.scope }
  else .ok B

theorem visitFunDeclaration_eq (d : FunDeclaration) (B : Builder) :
    visitFunDeclaration d B = (do
      let B ← prologue d B
      let B ← visit (.compoundStmt d.localDeclarations d.statementList) B
      if (B.fn.terminator B.bb).isSome then .ok B else visit .returnVoidStmt B) := by
  unfold visitFunDeclaration prologue
  cases enterFunction d B with
  | error e => rfl
  | ok B₁ =>
    simp only [Fallible.ok_bind]
    cases d.params.zipIdx.foldlM visitParam B₁ with
    | error e => rfl
    | ok B₂ =>
      simp only [Fallible.ok_bind]
      split_ifs <;> rfl

/-- In a function, in front of its body. -/
structure Entering (B : Builder) : Prop where
  wf : Wf B
  declared : Declared B
  outer : ∃ m, B.scope.tail = [m] ∧ ∀ p ∈ m, IsGlobal p.2
  enterInFunDecl : B.enterInFunDecl = true
  frame : B.frame = {}

theorem functionType_declared (d : FunDeclaration) :
    d.functionType.ret.isDeclared = true ∧
      ∀ t ∈ d.functionType.params, t.isDeclared = true := by
  have htype (c : CminusType) : c.type.isDeclared = true := by cases c <;> rfl
  refine ⟨htype d.type, fun t ht => ?_⟩
  obtain ⟨p, -, rfl⟩ := List.mem_map.mp ht
  split_ifs
  · exact htype p.type
  · exact htype p.type

theorem enterFunction_entering {d : FunDeclaration} {B B' : Builder} (ht : TopLevel B)
    (h : enterFunction d B = .ok B') : Entering B' := by
  have hwf := enterFunction_wf h
  obtain ⟨m, hm, hglobal⟩ := ht.scope
  unfold enterFunction at h
  dsimp only at h
  split at h
  · rename_i s hpush
    split_ifs at h
    cases h
    rw [hm] at hpush
    obtain rfl := push_cases hpush
    have hall : ∀ p ∈ (d.id, Value.function d.id) :: m, IsGlobal p.2 := by
      intro p hp
      rcases List.mem_cons.mp hp with rfl | hp
      · exact ⟨d.id, .inr rfl⟩
      · exact hglobal p hp
    refine ⟨hwf, ⟨fun m' hm' p hp => ?_, ht.globals, fun p hp => ?_, ?_, ?_⟩, ⟨_, rfl, hall⟩, rfl,
      ht.frame⟩
    · rcases List.mem_cons.mp hm' with rfl | hm'
      · cases hp
      · obtain rfl := List.mem_singleton.mp hm'
        exact (hall p hp).named ht.globals
    · rcases List.mem_cons.mp hp with rfl | hp
      · exact functionType_declared d
      · exact ht.types p hp
    · show ∀ t ∈ B.frame.params, t.isDeclared = true
      rw [ht.frame]
      exact nofun
    · show ∀ v ∈ B.frame.args, Builder.Plain _ v
      rw [ht.frame]
      exact nofun
  · cases h

/-- A new name in the innermost scope. -/
theorem Declared.push {B : Builder} {s : Scope} {id : String} {v : Value} (h : Declared B)
    (hpush : B.scope.push id v = some s) (hv : B.Named v) : Declared { B with scope := s } := by
  have hsame : ∀ w, B.Named w → Builder.Named { B with scope := s } w :=
    fun w hw => hw.mono (Extends.refl _) rfl
  refine ⟨fun m hm p hp => hsame _ ?_, h.globals, h.types, h.params,
    fun w hw => (h.args w hw).mono (Extends.refl _) rfl⟩
  rcases hB : B.scope with _ | ⟨m', rest⟩
  · rw [hB] at hpush
    cases hpush
  · rw [hB] at hpush
    obtain rfl := push_cases hpush
    have hold := h.scope
    rw [hB] at hold
    rcases List.mem_cons.mp hm with rfl | hm
    · rcases List.mem_cons.mp hp with rfl | hp
      · exact hv
      · exact hold m' List.mem_cons_self p hp
    · exact hold m (List.mem_cons_of_mem _ hm) p hp

theorem push_tail {s s' : Scope} {id : String} {v : Value} (h : s.push id v = some s') :
    s'.tail = s.tail := by
  cases s with
  | nil => cases h
  | cons m rest =>
    obtain rfl := push_cases h
    rfl

/-- The slot of a local variable. -/
theorem createAlloca_declared {B : Builder} {t : Ty} (hw : Wf B) (hd : Declared B)
    (ht : t.isDeclared = true) :
    Declared (B.createAlloca t) ∧ (B.createAlloca t).Named (B.createAlloca t).val := by
  refine ⟨hd.step (create_grows B _ _ _ _ hw).2 (create_keeps B _ _ _ _), ?_⟩
  have hplain := @create_plain B .alloca (.pointer t) [] .EQ ht
  exact ⟨hplain, .inl (by rw [Builder.createAlloca, create_type]; rfl)⟩

/-- A parameter gets a slot, its name and the store of the argument. -/
theorem visitParam_ok {B B' : Builder} {p : Param × Nat} (h : visitParam B p = .ok B') :
    ∃ B₁ t s, Grows B B₁ ∧ Keeps B B₁ ∧ t.isDeclared = true ∧
      B₁.scope.push p.1.id (B₁.createAlloca t).val = some s ∧
      B' = (({ B₁.createAlloca t with scope := s } : Builder).createStore (.arg p.2)
        (B₁.createAlloca t).val).setVal (B₁.createAlloca t).emitted := by
  unfold visitParam at h
  dsimp only at h
  have hname : Grows B
      { B with fn := { B.fn with names := Function.update B.fn.names (.arg p.2) p.1.id } } :=
    B.edges_grows rfl rfl rfl rfl rfl rfl
  have htype : p.1.type.type.isDeclared = true := by cases p.1.type <;> rfl
  split at h
  · rename_i s hpush
    refine ⟨_, (if p.1.isarray then Ty.pointer p.1.type.type else p.1.type.type), s, hname,
      ⟨rfl, rfl, rfl, rfl, rfl, rfl⟩, ?_, hpush, (Except.ok.inj h).symm⟩
    split_ifs
    · exact htype
    · exact htype
  · cases h

theorem Entering.step {B B' : Builder} (he : Entering B) (hg : Grows B B') (hk : Keeps B B') :
    Entering B' := by
  obtain ⟨hw, hx⟩ := hg he.wf
  obtain ⟨m, hm, hglobal⟩ := he.outer
  exact ⟨hw, he.declared.step hx hk, ⟨m, hk.scope ▸ hm, hglobal⟩,
    hk.enterInFunDecl.trans he.enterInFunDecl, hk.frame.trans he.frame⟩

/-- A slot with a name. -/
theorem Entering.local {B : Builder} {t : Ty} {id : String} {s : Scope} (he : Entering B)
    (ht : t.isDeclared = true) (hpush : B.scope.push id (B.createAlloca t).val = some s) :
    Entering { B.createAlloca t with scope := s } := by
  have hslot := he.step (create_grows B _ _ _ _) (create_keeps B .alloca (.pointer t) [] .EQ)
  have hgrows : Grows (B.createAlloca t) { B.createAlloca t with scope := s } :=
    Grows.of_same rfl rfl
  obtain ⟨m, hm, hglobal⟩ := he.outer
  refine ⟨(hgrows hslot.wf).1, hslot.declared.push hpush
    (createAlloca_declared he.wf he.declared ht).2, ⟨m, ?_, hglobal⟩, he.enterInFunDecl, he.frame⟩
  exact (push_tail hpush).trans hm

theorem visitParam_entering {B B' : Builder} {p : Param × Nat} (he : Entering B)
    (h : visitParam B p = .ok B') : Entering B' := by
  obtain ⟨B₁, t, s, hg, hk, ht, hpush, rfl⟩ := visitParam_ok h
  have hlocal := (he.step hg hk).local ht hpush
  have hstore := hlocal.step (createStore_grows _ (.arg p.2) (B₁.createAlloca t).val)
    (createStore_keeps _ _ _)
  exact hstore.step (Grows.of_same rfl rfl) (setVal_keeps _ _)

theorem visitParams_entering (l : List (Param × Nat)) :
    ∀ {B B' : Builder}, Entering B → l.foldlM visitParam B = .ok B' → Entering B' := by
  induction l with
  | nil =>
    intro B B' he h
    cases h
    exact he
  | cons p l ih =>
    intro B B' he h
    rw [List.foldlM_cons] at h
    obtain ⟨B₁, h₁, h₂⟩ := bind_ok.mp h
    exact ih (visitParam_entering he h₁) h₂

/-- The members that `Entering` does not mention. -/
theorem Entering.reset {B B' : Builder} (he : Entering B) (hg : Grows B B')
    (hfn : B'.fn = B.fn) (hscope : B'.scope = B.scope) (hglobals : B'.globals = B.globals)
    (htypes : B'.types = B.types) (henter : B'.enterInFunDecl = B.enterInFunDecl)
    (hframe : B'.frame = B.frame) : Entering B' := by
  have hx : Extends B.fn B'.fn := hfn ▸ Extends.refl _
  have hd := he.declared
  refine ⟨(hg he.wf).1, ⟨fun m hm p hp => ?_, ?_, ?_, ?_, fun v hv => ?_⟩, ?_,
    henter.trans he.enterInFunDecl, hframe.trans he.frame⟩
  · exact (hd.scope m (hscope ▸ hm) p hp).mono hx hglobals
  · rw [hglobals]
    exact hd.globals
  · rw [htypes]
    exact hd.types
  · rw [hframe]
    exact hd.params
  · rw [hframe] at hv
    exact (hd.args v hv).mono hx hglobals
  · rw [hscope]
    exact he.outer

/-- **The body of a function** is visited from a state that is ready but for the flag. -/
theorem prologue_entering {d : FunDeclaration} {B B' : Builder} (ht : TopLevel B)
    (h : prologue d B = .ok B') : Entering B' := by
  obtain ⟨B₁, h₁, h⟩ := bind_ok.mp h
  obtain ⟨B₂, h₂, h⟩ := bind_ok.mp h
  have he := visitParams_entering _ (enterFunction_entering ht h₁) h₂
  obtain ⟨B₃, hB₃⟩ : ∃ B₃ : Builder, B₃ = { B₂ with bbCounter := 0, returnType := d.type } :=
    ⟨_, rfl⟩
  have hreset : Entering B₃ := by
    subst hB₃
    exact he.reset (Grows.of_same rfl rfl) rfl rfl rfl rfl rfl rfl
  simp only [← hB₃] at h
  split_ifs at h
  · cases h
    have htype : d.type.type.isDeclared = true := by cases d.type <;> rfl
    cases hpush : (B₃.createAlloca d.type.type).scope.push "" (B₃.createAlloca d.type.type).val with
    | none =>
      have hslot := hreset.step (create_grows B₃ .alloca (.pointer d.type.type) [] .EQ)
        (create_keeps B₃ _ _ _ _)
      exact hslot
    | some s => exact hreset.local htype hpush
  · cases h
    exact hreset

theorem Entering.enterScope {B : Builder} (he : Entering B) : B.enterScope.scope = B.scope := by
  simp [Builder.enterScope, he.enterInFunDecl]

theorem Entering.ready {B : Builder} (he : Entering B) : Ready B.enterScope := by
  have hgrows : Grows B B.enterScope := Grows.of_same rfl rfl
  have hscope := he.enterScope
  obtain ⟨m, hm, -⟩ := he.outer
  have hd := he.declared
  refine ⟨(hgrows he.wf).1, ⟨?_, rfl⟩, ⟨fun m hm p hp => ?_, hd.globals, hd.types, hd.params,
    fun v hv => (hd.args v hv).mono (Extends.refl _) rfl⟩⟩
  · rw [hscope]
    intro hnil
    rw [hnil] at hm
    cases hm
  · rw [hscope] at hm
    exact (hd.scope m hm p hp).mono (Extends.refl _) rfl

/-- The body of a function, and the return behind it. -/
theorem visitFunDeclaration_keeps {d : FunDeclaration} {B B₁ B' : Builder} (he : Entering B₁)
    (hprologue : prologue d B = .ok B₁) (h : visitFunDeclaration d B = .ok B') :
    Keeps B₁.enterScope.exitScope B' := by
  rw [visitFunDeclaration_eq] at h
  obtain ⟨B₁', h₁, h⟩ := bind_ok.mp h
  obtain rfl := Except.ok.inj (hprologue.symm.trans h₁)
  obtain ⟨B₂, h₂, h⟩ := bind_ok.mp h
  obtain ⟨m, hm, -⟩ := he.outer
  have hbody := visitCompound_keeps (visit_stays d.statementList) h₂ (by
    rw [he.enterScope, hm]
    exact List.cons_ne_nil _ _)
  split_ifs at h
  · cases h
    exact hbody
  · exact hbody.trans (finishReturn_keeps h)

theorem visitFunDeclaration_topLevel {d : FunDeclaration} {B B' : Builder} (ht : TopLevel B)
    (h : visitFunDeclaration d B = .ok B') : TopLevel B' := by
  obtain ⟨B₁, h₁⟩ : ∃ B₁, prologue d B = .ok B₁ := by
    rw [visitFunDeclaration_eq] at h
    obtain ⟨B₁, h₁, -⟩ := bind_ok.mp h
    exact ⟨B₁, h₁⟩
  have he := prologue_entering ht h₁
  have hall := visitFunDeclaration_keeps he h₁ h
  obtain ⟨m, hm, hglobal⟩ := he.outer
  refine ⟨⟨m, ?_, hglobal⟩, fun p hp => ?_, fun p hp => ?_, hall.enterInFunDecl, ?_⟩
  · rw [hall.scope]
    show B₁.enterScope.scope.tail = [m]
    rw [he.enterScope, hm]
  · rw [hall.globals] at hp
    exact he.declared.globals p hp
  · rw [hall.types] at hp
    exact he.declared.types p hp
  · rw [hall.frame]
    exact he.frame

/-- **Between two declarations of a program `TopLevel` holds.** -/
theorem visitProgram_topLevel (ds : List Declaration) :
    ∀ {B B' : Builder}, TopLevel B → visitProgram ds B = .ok B' → TopLevel B' := by
  induction ds with
  | nil =>
    intro B B' ht h
    cases h
    exact ht
  | cons d ds ih =>
    intro B B' ht h
    simp only [visitProgram, List.foldlM_cons] at h
    obtain ⟨B₁, h₁, h₂⟩ := bind_ok.mp h
    refine ih ?_ h₂
    cases d with
    | var d => exact visitVarDeclaration_topLevel ht h₁
    | fn d => exact visitFunDeclaration_topLevel ht h₁

/-! ## From a statement to its expressions -/

/-- Where an expression stands: as a statement, behind `return`, or as a condition. -/
inductive Place where
  | statement | returned | selection | selectionElse
  | iteration (body out : BlockId)

/-- The visit of an expression, with the code that uses its value. -/
def visitAt (e : Ast .expression) (B : Builder) : Place → Except Fault Builder
  | .statement => visit (.expressionStmt e) B
  | .returned => visit (.returnStmt e) B
  | .selection => do
    let B ← visit e B
    .ok B.openSelection
  | .selectionElse => do
    let B ← visit e B
    .ok B.openSelectionElse
  | .iteration body out => do
    let B ← visit e B
    .ok (B.enterBody body out)

/-- `Reaches a B e p B'`: the visit of `a` from `B` visits the expression `e` from `B'`, at the
place `p`. -/
inductive Reaches : {k : Kind} → Ast k → Builder → Ast .expression → Place → Builder → Prop
  | expression (e : Ast .expression) (B : Builder) :
      Reaches (.expressionStmt e) B e .statement B
  | returned (e : Ast .expression) (B : Builder) : Reaches (.returnStmt e) B e .returned B
  | compound {ds : List VarDeclaration} {ss : Ast .statements} {B B₁ B' : Builder}
      {e : Ast .expression} {p : Place}
      (hds : ds.foldlM visitVarDeclaration B.enterScope = .ok B₁) (hss : Reaches ss B₁ e p B') :
      Reaches (.compoundStmt ds ss) B e p B'
  | first {s : Ast .statement} {rest : Ast .statements} {B B' : Builder} {e : Ast .expression}
      {p : Place} (hs : Reaches s B e p B') : Reaches (.stmt s rest) B e p B'
  | later {s : Ast .statement} {rest : Ast .statements} {B B₁ B' : Builder} {e : Ast .expression}
      {p : Place} (hs : visit s B = .ok B₁) (hrest : Reaches rest B₁ e p B') :
      Reaches (.stmt s rest) B e p B'
  | condition (e : Ast .expression) (s : Ast .statement) (B : Builder) :
      Reaches (.selectionStmt e s) B e .selection B
  | selected {c : Ast .expression} {s : Ast .statement} {B B₁ B' : Builder} {e : Ast .expression}
      {p : Place} (hc : visit c B = .ok B₁) (hs : Reaches s B₁.openSelection e p B') :
      Reaches (.selectionStmt c s) B e p B'
  | conditionElse (e : Ast .expression) (s t : Ast .statement) (B : Builder) :
      Reaches (.selectionElseStmt e s t) B e .selectionElse B
  | selectedThen {c : Ast .expression} {s t : Ast .statement} {B B₁ B' : Builder}
      {e : Ast .expression} {p : Place} (hc : visit c B = .ok B₁)
      (hs : Reaches s B₁.openSelectionElse e p B') : Reaches (.selectionElseStmt c s t) B e p B'
  | selectedElse {c : Ast .expression} {s t : Ast .statement} {B B₁ B₂ B' : Builder}
      {e : Ast .expression} {p : Place} (hc : visit c B = .ok B₁)
      (hs : visit s B₁.openSelectionElse = .ok B₂)
      (ht : Reaches t (((B₂.leaveBranch (B₁.newBlock + 2)).setInsertPoint
        (B₁.newBlock + 1)).setReturnInBranch false) e p B') :
      Reaches (.selectionElseStmt c s t) B e p B'
  | iterated (e : Ast .expression) (s : Ast .statement) (B : Builder) :
      Reaches (.iterationStmt e s) B e (.iteration (B.newBlock + 1) (B.newBlock + 2))
        B.openIteration
  | body {c : Ast .expression} {s : Ast .statement} {B B₁ B' : Builder} {e : Ast .expression}
      {p : Place} (hc : visit c B.openIteration = .ok B₁)
      (hs : Reaches s (B₁.enterBody (B.newBlock + 1) (B.newBlock + 2)) e p B') :
      Reaches (.iterationStmt c s) B e p B'

/-- A local declaration. -/
theorem visitVarDeclaration_ready {d : VarDeclaration} {B B' : Builder} (hr : Ready B)
    (hs : B.scope.tail ≠ []) (h : B.visitVarDeclaration d = .ok B') :
    Ready B' ∧ B'.scope.tail = B.scope.tail := by
  obtain ⟨hk, htail⟩ := visitVarDeclaration_keeps h hs
  have hw := (visitVarDeclaration_grows h hr.wf).1
  have hin : Inside B' := by
    refine ⟨fun hnil => ?_, hk.enterInFunDecl.trans hr.inside.enterInFunDecl⟩
    rw [← htail, hnil] at hs
    exact hs rfl
  have hlocal : B.scope.inGlobal = false := by
    rcases hB : B.scope with _ | ⟨m, _ | ⟨m', rest⟩⟩
    · exact absurd hB hr.inside.scope
    · rw [hB] at hs
      exact absurd rfl hs
    · simp [Scope.inGlobal]
  obtain ⟨t, htype, h⟩ := bind_ok.mp h
  simp only [hlocal, Bool.false_eq_true, if_false] at h
  split at h
  · rename_i s hpush
    cases h
    obtain ⟨hd, hnamed⟩ := createAlloca_declared hr.wf hr.declared (variableType_declared htype)
    exact ⟨⟨hw, hin, hd.push hpush hnamed⟩, htail⟩
  · cases h

theorem visitVarDeclarations_ready (ds : List VarDeclaration) :
    ∀ {B B' : Builder}, Ready B → B.scope.tail ≠ [] →
      ds.foldlM visitVarDeclaration B = .ok B' → Ready B' := by
  induction ds with
  | nil =>
    intro B B' hr _ h
    cases h
    exact hr
  | cons d ds ih =>
    intro B B' hr hs h
    rw [List.foldlM_cons] at h
    obtain ⟨B₁, h₁, h₂⟩ := bind_ok.mp h
    obtain ⟨hr₁, htail⟩ := visitVarDeclaration_ready hr hs h₁
    exact ih hr₁ (htail ▸ hs) h₂

theorem enterScope_ready {B : Builder} (hr : Ready B) :
    Ready B.enterScope ∧ B.enterScope.scope.tail ≠ [] := by
  have hscope : B.enterScope.scope = [] :: B.scope := by
    simp [Builder.enterScope, Scope.enter, hr.inside.enterInFunDecl]
  have hgrows : Grows B B.enterScope := Grows.of_same rfl rfl
  have hd := hr.declared
  refine ⟨⟨(hgrows hr.wf).1, ⟨by simp [hscope], rfl⟩, ⟨fun m hm p hp => ?_, hd.globals, hd.types,
    hd.params, fun v hv => (hd.args v hv).mono (Extends.refl _) rfl⟩⟩, ?_⟩
  · rw [hscope] at hm
    rcases List.mem_cons.mp hm with rfl | hm
    · cases hp
    · exact (hd.scope m hm p hp).mono (Extends.refl _) rfl
  · rw [hscope]
    exact hr.inside.scope

/-- A visit of a statement. -/
theorem visitStatement_step {k : Kind} {a : Ast k} {B B' : Builder} (hk : k ≠ .args)
    (h : visit a B = .ok B') (hr : Ready B) : Step B B' := by
  refine hr.step (visit_grows a B B' h) ?_
  have hstays := visit_stays a B B' h
  cases k <;> first | exact hstays | exact absurd rfl hk

/-- **Expressions are visited from states that are ready.** -/
theorem Reaches.ready {k : Kind} {a : Ast k} {B B' : Builder} {e : Ast .expression} {p : Place}
    (h : Reaches a B e p B') : Ready B → Ready B' := by
  induction h with
  | expression | returned | condition | conditionElse => exact id
  | compound hds hss ih =>
    intro hr
    obtain ⟨hopen, htail⟩ := enterScope_ready hr
    exact ih (visitVarDeclarations_ready _ hopen htail hds)
  | first hs ih => exact ih
  | later hs hrest ih => exact fun hr => ih (visitStatement_step (by simp) hs hr).ready
  | selected hc hs ih =>
    intro hr
    have hr₁ := (visit_step rfl hc hr).ready
    exact ih (hr₁.step (openSelection_grows _) (openSelection_keeps _).stays).ready
  | selectedThen hc hs ih =>
    intro hr
    have hr₁ := (visit_step rfl hc hr).ready
    exact ih (hr₁.step (openSelectionElse_grows _) (openSelectionElse_keeps _).stays).ready
  | @selectedElse c s t B B₁ B₂ B' e p hc hs ht ih =>
    intro hr
    have hr₁ := (visit_step rfl hc hr).ready
    have hopen := hr₁.step (openSelectionElse_grows _) (openSelectionElse_keeps _).stays
    have hthen := visitStatement_step (by simp) hs hopen.ready
    have hlen := hthen.ext.blocks
    rw [openSelectionElse_length] at hlen
    have hfalse : B₁.fn.blocks.length + 1 < B₂.fn.blocks.length := by omega
    have hgrows := (insertAt_grows (leaveBranch_grows B₂ (B₁.newBlock + 2)) (b := B₁.newBlock + 1)
      (by rw [leaveBranch_length]; exact hfalse)).trans (setReturnInBranch_grows _ false)
    exact ih (hthen.ready.step hgrows (((leaveBranch_keeps _ _).trans
      (setInsertPoint_keeps _ _)).trans (setReturnInBranch_keeps _ _)).stays).ready
  | iterated e s B =>
    exact fun hr => (hr.step (openIteration_grows B) (openIteration_keeps B).stays).ready
  | @body c s B B₁ B' e p hc hs ih =>
    intro hr
    have hopen := hr.step (openIteration_grows B) (openIteration_keeps B).stays
    have hcond := visit_step rfl hc hopen.ready
    have hlen := hcond.ext.blocks
    rw [openIteration_length] at hlen
    have hbody : B.fn.blocks.length + 1 < B₁.fn.blocks.length := by omega
    exact ih (hcond.ready.step (enterBody_grows hbody) (enterBody_keeps B₁ _ _).stays).ready

/-- **Every expression of a program is visited from a state that is ready.** -/
theorem reaches_ready {ds : List Declaration} {d : FunDeclaration} {B₀ B₁ B' : Builder}
    {e : Ast .expression} {p : Place} (hprogram : visitProgram ds freshBuilder = .ok B₀)
    (hprologue : prologue d B₀ = .ok B₁)
    (h : Reaches (.compoundStmt d.localDeclarations d.statementList) B₁ e p B') : Ready B' := by
  have he := prologue_entering (visitProgram_topLevel ds freshBuilder_topLevel hprogram) hprologue
  cases h with
  | compound hds hss =>
    obtain ⟨m, hm, -⟩ := he.outer
    refine hss.ready (visitVarDeclarations_ready _ he.ready ?_ hds)
    rw [he.enterScope, hm]
    exact List.cons_ne_nil _ _

theorem openMain_ready {ds : List VarDeclaration} {B : Builder} (h : openMain ds = .ok B) :
    Ready B := by
  obtain ⟨B₁, h₁, h₂⟩ := bind_ok.mp h
  have he := enterFunction_entering freshBuilder_topLevel h₁
  obtain ⟨m, hm, -⟩ := he.outer
  refine visitVarDeclarations_ready ds he.ready ?_ h₂
  rw [he.enterScope, hm]
  exact List.cons_ne_nil _ _

end Cminusfc.Frontend
