import Cminusfc.Frontend.Emission

/-!
# The types of the values

A visit decides on conversions from the types of the values it has made so far. These types are
known before the visit: `typeIn` computes the type of an expression from the declarations in
scope.

* `Keeps B B'`: the step leaves the declarations as they are.
* `Declared B`: the variables in scope were created before, and nothing in scope has the type
  `int1`.

Results:
* `visit_keeps`: every visit leaves the declarations as they are.
* `visitFunDeclaration_declared`, `visitProgram_declared`: `Declared` holds of every state of a
  program.
* `visit_type`: the type of the value a visit leaves is the one `typeIn` computes, or that of its
  address.

About `src/cminusfc/cminusf_builder.cpp` 11-407 and `src/cminusfc/utils.cpp` 5-44.
-/

namespace Cminusfc.LightIR.Ty

/-- A type that is made of types of declarations. -/
def isDeclared : Ty → Bool
  | .int32 | .float | .void => true
  | .array t _ | .pointer t => t.isDeclared
  | .int1 | .label => false

end Cminusfc.LightIR.Ty

namespace Cminusfc.Frontend

open LightIR
open Fallible (bind_ok)

/-! ## What steps leave as it is -/

/-- The declarations stay as they are. -/
structure Keeps (B B' : Builder) : Prop where
  scope : B'.scope = B.scope
  globals : B'.globals = B.globals
  types : B'.types = B.types
  returnType : B'.returnType = B.returnType
  enterInFunDecl : B'.enterInFunDecl = B.enterInFunDecl
  frame : B'.frame = B.frame

theorem Keeps.refl (B : Builder) : Keeps B B := ⟨rfl, rfl, rfl, rfl, rfl, rfl⟩

theorem Keeps.trans {B₁ B₂ B₃ : Builder} (h : Keeps B₁ B₂) (h' : Keeps B₂ B₃) : Keeps B₁ B₃ :=
  ⟨h'.scope.trans h.scope, h'.globals.trans h.globals, h'.types.trans h.types,
    h'.returnType.trans h.returnType, h'.enterInFunDecl.trans h.enterInFunDecl,
    h'.frame.trans h.frame⟩

namespace Builder

variable (B : Builder)

theorem emit_keeps (x : Instr) : Keeps B (B.emit x) := ⟨rfl, rfl, rfl, rfl, rfl, rfl⟩

theorem create_keeps (op : OpID) (ty : Ty) (l : List Value) (c : CmpOp) :
    Keeps B (B.create op ty l c) := ⟨rfl, rfl, rfl, rfl, rfl, rfl⟩

theorem createStore_keeps (v ptr : Value) : Keeps B (B.createStore v ptr) := B.emit_keeps _

theorem createBr_keeps (t : BlockId) : Keeps B (B.createBr t) := ⟨rfl, rfl, rfl, rfl, rfl, rfl⟩

theorem createCondBr_keeps (v : Value) (t e : BlockId) : Keeps B (B.createCondBr v t e) :=
  ⟨rfl, rfl, rfl, rfl, rfl, rfl⟩

theorem createRet_keeps (v : Option Value) : Keeps B (B.createRet v) := B.emit_keeps _

theorem createNumbered_keeps (kind : String) : Keeps B (B.createNumbered kind) :=
  ⟨rfl, rfl, rfl, rfl, rfl, rfl⟩

theorem setVal_keeps (v : Value) : Keeps B (B.setVal v) := ⟨rfl, rfl, rfl, rfl, rfl, rfl⟩

theorem setInsertPoint_keeps (b : BlockId) : Keeps B (B.setInsertPoint b) :=
  ⟨rfl, rfl, rfl, rfl, rfl, rfl⟩

theorem setAddressOnly_keeps (b : Bool) : Keeps B (B.setAddressOnly b) :=
  ⟨rfl, rfl, rfl, rfl, rfl, rfl⟩

theorem setInBranch_keeps (b : Bool) : Keeps B (B.setInBranch b) := ⟨rfl, rfl, rfl, rfl, rfl, rfl⟩

theorem setReturnInBranch_keeps (b : Bool) : Keeps B (B.setReturnInBranch b) :=
  ⟨rfl, rfl, rfl, rfl, rfl, rfl⟩

variable {B} {B' : Builder}

theorem createLoad_keeps {ptr : Value} (h : B.createLoad ptr = .ok B') : Keeps B B' := by
  obtain ⟨t, -, rfl⟩ := createLoad_ok h
  exact create_keeps _ _ _ _ _

theorem createGep_keeps {ptr : Value} {idxs : List Value} (h : B.createGep ptr idxs = .ok B') :
    Keeps B B' := by
  obtain ⟨e, t, -, -, rfl⟩ := createGep_ok h
  exact create_keeps _ _ _ _ _

theorem convert_keeps {n : Value} {ty : Ty} (h : B.convert n ty = .ok B') : Keeps B B' := by
  rcases convert_ok h with ⟨rfl, -⟩ | ⟨op, rfl, -⟩ | ⟨e, -, -, h | h⟩
  · exact setVal_keeps _ _
  · exact create_keeps _ _ _ _ _
  · exact createGep_keeps h
  · exact createLoad_keeps h

theorem binary_keeps {intOp floatOp : OpID} {intTy floatTy : Ty} {c : CmpOp} {lhs rhs : Value}
    (h : B.binary intOp floatOp intTy floatTy c lhs rhs = .ok B') : Keeps B B' := by
  unfold binary at h
  split_ifs at h
  all_goals
    obtain ⟨B₁, h₁, h⟩ := bind_ok.mp h
    obtain ⟨B₂, h₂, h⟩ := bind_ok.mp h
    cases h
    exact ((convert_keeps h₁).trans (convert_keeps h₂)).trans (create_keeps _ _ _ _ _)

theorem truth_keeps (B : Builder) : Keeps B B.truth := by
  unfold truth
  dsimp only
  split_ifs
  · exact create_keeps _ _ _ _ _
  · exact create_keeps _ _ _ _ _
  · exact Keeps.refl B

theorem compareIndex_keeps (B : Builder) (offset : Value) : Keeps B (B.compareIndex offset) :=
  ((((create_keeps B _ _ _ _).trans (createNumbered_keeps _ _)).trans
    (createNumbered_keeps _ _)).trans (createCondBr_keeps _ _ _ _)).trans (setInsertPoint_keeps _ _)

theorem checkIndex_keeps {offset : Value} (h : B.checkIndex offset = .ok B') : Keeps B B' := by
  obtain ⟨n, ret, rfl⟩ := callExcept_ok h
  exact (((compareIndex_keeps B offset).trans (create_keeps _ _ _ _ _)).trans
    (createBr_keeps _ _)).trans (setInsertPoint_keeps _ _)

theorem elementAddress_keeps {ptr : Option Value} {offset : Value}
    (h : B.elementAddress ptr offset = .ok B') : Keeps B B' := by
  unfold elementAddress at h
  split at h
  · cases h
  · split at h
    · exact createGep_keeps h
    · obtain ⟨B₁, h₁, h₂⟩ := bind_ok.mp h
      exact (createLoad_keeps h₁).trans (createGep_keeps h₂)
    · cases h
      exact setVal_keeps _ _
    · cases h

theorem finishVar_keeps {ptr : Value} (h : B.finishVar ptr = .ok B') : Keeps B B' := by
  unfold finishVar at h
  split_ifs at h
  · cases h
    exact setVal_keeps _ _
  · exact createLoad_keeps h

theorem subscript_keeps {ptr : Option Value} (h : B.subscript ptr = .ok B') : Keeps B B' := by
  obtain ⟨B₁, h₁, h⟩ := bind_ok.mp h
  obtain ⟨B₂, h₂, h⟩ := bind_ok.mp h
  obtain ⟨B₃, h₃, h₄⟩ := bind_ok.mp h
  exact (((convert_keeps h₁).trans (checkIndex_keeps h₂)).trans (elementAddress_keeps h₃)).trans
    (finishVar_keeps h₄)

theorem assignTo_keeps {rhs : Value} (h : B.assignTo rhs = .ok B') : Keeps B B' := by
  unfold assignTo at h
  split at h
  · cases h
  · obtain ⟨B₁, h₁, h⟩ := bind_ok.mp h
    cases h
    exact (((convert_keeps h₁).trans (createStore_keeps _ _ _)).trans (setVal_keeps _ _)).trans
      (setAddressOnly_keeps _ _)

theorem createCall_keeps {n : String} {t : FunctionType} {args : List Value}
    (h : B.createCall n t args = .ok B') : Keeps B B' := by
  unfold createCall at h
  split_ifs at h
  cases h
  exact create_keeps _ _ _ _ _

theorem pushArg_keeps {t : Ty} (h : B.pushArg t = .ok B') : Keeps B (B'.setFrame B.frame) := by
  obtain ⟨B₁, h₁, h⟩ := bind_ok.mp h
  cases h
  have hconvert := (setAddressOnly_keeps B false).trans (convert_keeps h₁)
  exact ⟨hconvert.scope, hconvert.globals, hconvert.types, hconvert.returnType,
    hconvert.enterInFunDecl, rfl⟩

theorem closeBlock_keeps (B : Builder) (returnBB bb : BlockId) :
    Keeps B (B.closeBlock returnBB bb) := by
  unfold closeBlock
  split_ifs
  · exact Keeps.refl B
  · exact (setInsertPoint_keeps _ _).trans (createBr_keeps _ _)

theorem closeBlocks_keeps (returnBB : BlockId) (l : List BlockId) :
    ∀ B : Builder, Keeps B (l.foldl (fun B bb => B.closeBlock returnBB bb) B) := by
  induction l with
  | nil => exact fun B => Keeps.refl B
  | cons b l ih => exact fun B => (closeBlock_keeps B returnBB b).trans (ih _)

theorem enterReturnBlock_keeps (B : Builder) : Keeps B B.enterReturnBlock := by
  unfold enterReturnBlock
  split_ifs
  · have hopen : Keeps B ((B.createBlock "return").createBr B.newBlock) :=
      ⟨rfl, rfl, rfl, rfl, rfl, rfl⟩
    exact (hopen.trans (closeBlocks_keeps _ _ _)).trans (setInsertPoint_keeps _ _)
  · exact Keeps.refl B

theorem finishReturn_keeps {value : Bool} (h : B.finishReturn value = .ok B') : Keeps B B' := by
  unfold finishReturn at h
  split_ifs at h
  · split at h
    · cases h
    · rename_i ptr hptr
      obtain ⟨B₁, h₁, h⟩ := bind_ok.mp h
      have hstore : Keeps B ((B₁.createStore B₁.val ptr).setVal B.val) :=
        ((convert_keeps h₁).trans (createStore_keeps _ _ _)).trans (setVal_keeps _ _)
      dsimp only at h
      split_ifs at h
      · cases h
        exact hstore.trans ⟨rfl, rfl, rfl, rfl, rfl, rfl⟩
      · obtain ⟨B₂, h₂, h⟩ := bind_ok.mp h
        cases h
        exact ((hstore.trans (enterReturnBlock_keeps _)).trans
          (createLoad_keeps h₂)).trans (createRet_keeps _ _)
  · cases h
    exact ⟨rfl, rfl, rfl, rfl, rfl, rfl⟩
  · cases h
    exact (enterReturnBlock_keeps _).trans (createRet_keeps _ _)

theorem leaveBranch_keeps (B : Builder) (out : BlockId) : Keeps B (B.leaveBranch out) := by
  unfold leaveBranch
  split_ifs
  · exact Keeps.refl B
  · exact createBr_keeps _ _

theorem returnStored_keeps (h : B.returnStored = .ok B') : Keeps B B' := by
  unfold returnStored at h
  split_ifs at h
  · split at h
    · cases h
    · obtain ⟨B₁, h₁, h⟩ := bind_ok.mp h
      cases h
      exact (createLoad_keeps h₁).trans (createRet_keeps _ _)
  · cases h
    exact createRet_keeps _ _

theorem joinReturns_keeps {t f out : BlockId} (h : B.joinReturns t f out = .ok B') :
    Keeps B B' := by
  obtain ⟨B₁, h₁, h⟩ := bind_ok.mp h
  cases h
  exact (returnStored_keeps h₁).trans ⟨rfl, rfl, rfl, rfl, rfl, rfl⟩

theorem openSelection_keeps (B : Builder) : Keeps B B.openSelection := by
  refine Keeps.trans ?_ (setInsertPoint_keeps _ _)
  refine Keeps.trans ?_ (setInBranch_keeps _ _)
  refine Keeps.trans ?_ (createCondBr_keeps _ _ _ _)
  exact ((truth_keeps B).trans (createNumbered_keeps _ _)).trans (createNumbered_keeps _ _)

theorem openSelectionElse_keeps (B : Builder) : Keeps B B.openSelectionElse := by
  refine Keeps.trans ?_ (setInsertPoint_keeps _ _)
  refine Keeps.trans ?_ (setInBranch_keeps _ _)
  refine Keeps.trans ?_ (createCondBr_keeps _ _ _ _)
  exact (((truth_keeps B).trans (createNumbered_keeps _ _)).trans (createNumbered_keeps _ _)).trans
    (createNumbered_keeps _ _)

theorem openIteration_keeps (B : Builder) : Keeps B B.openIteration := by
  refine Keeps.trans ?_ (setInsertPoint_keeps _ _)
  refine Keeps.trans ?_ (createBr_keeps _ _)
  exact ((createNumbered_keeps B _).trans (createNumbered_keeps _ _)).trans
    (createNumbered_keeps _ _)

theorem enterBody_keeps (B : Builder) (b out : BlockId) : Keeps B (B.enterBody b out) := by
  refine Keeps.trans ?_ (setInBranch_keeps _ _)
  refine Keeps.trans ?_ (setInsertPoint_keeps _ _)
  exact (truth_keeps B).trans (createCondBr_keeps _ _ _ _)

/-- A local declaration leaves the scopes around it as they are. -/
theorem visitVarDeclaration_keeps {d : VarDeclaration} (h : B.visitVarDeclaration d = .ok B')
    (hs : B.scope.tail ≠ []) : Keeps B.exitScope B'.exitScope ∧ B'.scope.tail = B.scope.tail := by
  have hlocal : B.scope.inGlobal = false := by
    rcases hB : B.scope with _ | ⟨m, _ | ⟨m', rest⟩⟩
    · rw [hB] at hs
      exact absurd rfl hs
    · rw [hB] at hs
      exact absurd rfl hs
    · simp [Scope.inGlobal]
  obtain ⟨t, -, h⟩ := bind_ok.mp h
  simp only [hlocal, Bool.false_eq_true, if_false] at h
  have hscope : (B.createAlloca t).scope = B.scope := rfl
  split at h
  · rename_i s hpush
    cases h
    have htail : s.tail = B.scope.tail := by
      rw [hscope] at hpush
      rcases hB : B.scope with _ | ⟨m, rest⟩
      · rw [hB] at hs
        exact absurd rfl hs
      · rw [hB, Scope.push] at hpush
        split_ifs at hpush
        cases hpush
        rfl
    exact ⟨⟨htail, rfl, rfl, rfl, rfl, rfl⟩, htail⟩
  · cases h

theorem visitVarDeclarations_keeps (ds : List VarDeclaration) :
    ∀ B B' : Builder, ds.foldlM visitVarDeclaration B = .ok B' → B.scope.tail ≠ [] →
      Keeps B.exitScope B'.exitScope ∧ B'.scope.tail = B.scope.tail := by
  induction ds with
  | nil =>
    intro B B' h _
    cases h
    exact ⟨Keeps.refl _, rfl⟩
  | cons d ds ih =>
    intro B B' h hs
    rw [List.foldlM_cons] at h
    obtain ⟨B₁, h₁, h₂⟩ := bind_ok.mp h
    obtain ⟨hkeeps, htail⟩ := visitVarDeclaration_keeps h₁ hs
    obtain ⟨hkeeps', htail'⟩ := ih B₁ B' h₂ (htail ▸ hs)
    exact ⟨hkeeps.trans hkeeps', htail'.trans htail⟩

end Builder

open Builder

/-- Inside a function, behind the start of its body. -/
structure Inside (B : Builder) : Prop where
  scope : B.scope ≠ []
  enterInFunDecl : B.enterInFunDecl = false

theorem Inside.of_keeps {B B' : Builder} (h : Inside B) (hk : Keeps B B') : Inside B' :=
  ⟨hk.scope ▸ h.scope, hk.enterInFunDecl.trans h.enterInFunDecl⟩

/-- A step inside a function that leaves the declarations as they are. -/
def Stays (B B' : Builder) : Prop := Inside B → Keeps B B'

theorem Stays.trans {B₁ B₂ B₃ : Builder} (h : Stays B₁ B₂) (h' : Stays B₂ B₃) : Stays B₁ B₃ :=
  fun hin => (h hin).trans (h' (hin.of_keeps (h hin)))

theorem Keeps.stays {B B' : Builder} (h : Keeps B B') : Stays B B' := fun _ => h

/-- The state behind a visit, without the arguments that the visit has pushed. -/
def Kind.behind : Kind → Builder → Builder → Builder
  | .args, B, B' => B'.setFrame B.frame
  | _, _, B' => B'

/-- A block of statements, seen from outside. -/
theorem visitCompound_keeps {ds : List VarDeclaration} {ss : Ast .statements} {B B' : Builder}
    (hss : ∀ B B', visit ss B = .ok B' → Stays B B') (h : visit (.compoundStmt ds ss) B = .ok B')
    (hs : B.enterScope.scope.tail ≠ []) : Keeps B.enterScope.exitScope B' := by
  obtain ⟨B₁, h₁, h⟩ := bind_ok.mp h
  obtain ⟨B₂, h₂, h⟩ := bind_ok.mp h
  cases h
  obtain ⟨hkeeps, htail⟩ := visitVarDeclarations_keeps ds _ B₁ h₁ hs
  have hne : B₁.scope ≠ [] := by
    intro hnil
    rw [← htail, hnil] at hs
    exact hs rfl
  have hss' := hss B₁ B₂ h₂ ⟨hne, hkeeps.enterInFunDecl⟩
  exact hkeeps.trans ⟨congrArg List.tail hss'.scope, hss'.globals, hss'.types, hss'.returnType,
    hss'.enterInFunDecl, hss'.frame⟩

/-- **A visit leaves the declarations as they are.** -/
theorem visit_stays {k : Kind} (a : Ast k) :
    ∀ B B', visit a B = .ok B' → Stays B (k.behind B B') := by
  induction a with
  | intNum i | floatNum x =>
    intro B B' h
    cases h
    exact (setVal_keeps B _).stays
  | group e ih | var v ih | simple l ih | term t ih | factor f ih | expressionStmt e ih => exact ih
  | noArgs | emptyStmt | noStmts =>
    intro B B' h
    cases h
    exact (Keeps.refl B).stays
  | relation l op r ihl ihr | additive l op r ihl ihr | multiplicative l op r ihl ihr =>
    intro B B' h
    obtain ⟨B₁, h₁, h⟩ := bind_ok.mp h
    obtain ⟨B₂, h₂, h₃⟩ := bind_ok.mp h
    exact ((ihl B B₁ h₁).trans (ihr B₁ B₂ h₂)).trans (binary_keeps h₃).stays
  | ident id =>
    intro B B' h
    unfold visit at h
    split at h
    · cases h
    · exact (finishVar_keeps h).stays
  | element id e ih =>
    intro B B' h
    obtain ⟨B₁, h₁, h₂⟩ := bind_ok.mp h
    exact (((setAddressOnly_keeps B false).stays.trans (ih _ B₁ h₁)).trans
      (setAddressOnly_keeps _ _).stays).trans (subscript_keeps h₂).stays
  | assign v e ihv ihe =>
    intro B B' h
    obtain ⟨B₁, h₁, h⟩ := bind_ok.mp h
    obtain ⟨B₂, h₂, h₃⟩ := bind_ok.mp h
    exact ((ihe B B₁ h₁).trans ((setAddressOnly_keeps B₁ true).stays.trans (ihv _ B₂ h₂))).trans
      (assignTo_keeps h₃).stays
  | call id args ih =>
    intro B B' h hin
    obtain ⟨⟨n, t⟩, -, h⟩ := bind_ok.mp h
    obtain ⟨B₁, h₁, h⟩ := bind_ok.mp h
    obtain ⟨B₂, h₂, h⟩ := bind_ok.mp h
    cases h
    have hargs := ih _ B₁ h₁ ⟨hin.scope, hin.enterInFunDecl⟩
    have hcall := createCall_keeps h₂
    exact ⟨hcall.scope.trans hargs.scope, hcall.globals.trans hargs.globals,
      hcall.types.trans hargs.types, hcall.returnType.trans hargs.returnType,
      hcall.enterInFunDecl.trans hargs.enterInFunDecl, rfl⟩
  | arg e rest ihe ihrest =>
    intro B B' h hin
    obtain ⟨t, -, h⟩ := bind_ok.mp h
    obtain ⟨B₁, h₁, h⟩ := bind_ok.mp h
    obtain ⟨B₂, h₂, h₃⟩ := bind_ok.mp h
    have harg := (((setAddressOnly_keeps B t.isPointer).stays.trans (ihe _ B₁ h₁)).trans
      (pushArg_keeps h₂).stays) hin
    have hin₂ : Inside B₂ := ⟨harg.scope ▸ hin.scope, harg.enterInFunDecl.trans hin.enterInFunDecl⟩
    have hrest := ihrest B₂ B' h₃ hin₂
    exact ⟨hrest.scope.trans harg.scope, hrest.globals.trans harg.globals,
      hrest.types.trans harg.types, hrest.returnType.trans harg.returnType,
      hrest.enterInFunDecl.trans harg.enterInFunDecl, rfl⟩
  | compoundStmt ds ss ih =>
    intro B B' h hin
    have hsame : B.enterScope.exitScope.scope = B.scope := by
      simp [enterScope, exitScope, Scope.exit, Scope.enter, hin.enterInFunDecl]
    have hopen : Keeps B B.enterScope.exitScope :=
      ⟨hsame, rfl, rfl, rfl, hin.enterInFunDecl.symm, rfl⟩
    refine hopen.trans (visitCompound_keeps ih h ?_)
    exact fun hnil => hin.scope (hsame.symm.trans hnil)
  | stmt s rest ihs ihrest =>
    intro B B' h
    obtain ⟨B₁, h₁, h₂⟩ := bind_ok.mp h
    exact (ihs B B₁ h₁).trans (ihrest B₁ B' h₂)
  | returnVoidStmt => exact fun B B' h => (finishReturn_keeps h).stays
  | returnStmt e ih =>
    intro B B' h
    obtain ⟨B₁, h₁, h₂⟩ := bind_ok.mp h
    exact (ih B B₁ h₁).trans (finishReturn_keeps h₂).stays
  | selectionStmt e s ihe ihs =>
    intro B B' h
    obtain ⟨B₁, h₁, h⟩ := bind_ok.mp h
    obtain ⟨B₂, h₂, h⟩ := bind_ok.mp h
    cases h
    refine Stays.trans ?_ (setInBranch_keeps _ _).stays
    refine Stays.trans ?_ (setReturnInBranch_keeps _ _).stays
    refine Stays.trans ?_ (setInsertPoint_keeps _ _).stays
    exact (((ihe B B₁ h₁).trans (openSelection_keeps B₁).stays).trans (ihs _ B₂ h₂)).trans
      (leaveBranch_keeps B₂ _).stays
  | selectionElseStmt e s t ihe ihs iht =>
    intro B B' h
    obtain ⟨B₁, h₁, h⟩ := bind_ok.mp h
    obtain ⟨B₂, h₂, h⟩ := bind_ok.mp h
    obtain ⟨B₃, h₃, h⟩ := bind_ok.mp h
    have hthen := (((ihe B B₁ h₁).trans (openSelectionElse_keeps B₁).stays).trans
      (ihs _ B₂ h₂)).trans (leaveBranch_keeps B₂ (B₁.newBlock + 2)).stays
    have helse := ((hthen.trans (setInsertPoint_keeps _ (B₁.newBlock + 1)).stays).trans
      (setReturnInBranch_keeps _ false).stays).trans (iht _ B₃ h₃)
    have hend := (((helse.trans (leaveBranch_keeps B₃ (B₁.newBlock + 2)).stays).trans
      (setInsertPoint_keeps _ (B₁.newBlock + 2)).stays).trans
      (setReturnInBranch_keeps _ false).stays).trans (setInBranch_keeps _ false).stays
    dsimp only at h
    split_ifs at h
    · exact hend.trans (joinReturns_keeps h).stays
    · cases h
      exact hend
  | iterationStmt e s ihe ihs =>
    intro B B' h
    obtain ⟨B₁, h₁, h⟩ := bind_ok.mp h
    obtain ⟨B₂, h₂, h⟩ := bind_ok.mp h
    cases h
    refine Stays.trans ?_ (setInsertPoint_keeps _ _).stays
    refine Stays.trans ?_ (leaveBranch_keeps _ _).stays
    exact ((((openIteration_keeps B).stays.trans (ihe _ B₁ h₁)).trans
      (enterBody_keeps B₁ _ _).stays).trans (ihs _ B₂ h₂)).trans (setInBranch_keeps B₂ false).stays

/-! ## Declared types -/

namespace Builder

/-- An instruction that is there already, or no instruction. -/
def Known (B : Builder) (v : Value) : Prop := ∀ i, v = .instr i → i < B.fn.next

theorem Known.mono {B B' : Builder} {v : Value} (h : B.Known v) (hx : Extends B.fn B'.fn) :
    B'.Known v := fun i hi => Nat.lt_of_lt_of_le (h i hi) hx.next

/-- The type of a value does not change. -/
theorem Known.typeOf {B B' : Builder} {v : Value} (h : B.Known v) (hx : Extends B.fn B'.fn)
    (hg : B'.globals = B.globals) : B'.typeOf v = B.typeOf v := by
  cases v with
  | instr i => simp only [Builder.typeOf, hx.instr i (h i rfl)]
  | global n => simp only [Builder.typeOf, hg]
  | arg no => simp only [Builder.typeOf, hx.args]
  | _ => rfl

/-- A known value whose type has no `int1` in it. -/
structure Plain (B : Builder) (v : Value) : Prop where
  known : B.Known v
  type : (B.typeOf v).isDeclared = true

theorem Plain.mono {B B' : Builder} {v : Value} (h : B.Plain v) (hx : Extends B.fn B'.fn)
    (hg : B'.globals = B.globals) : B'.Plain v :=
  ⟨h.known.mono hx, by rw [h.known.typeOf hx hg]; exact h.type⟩

end Builder

/-- The address of a variable, or a function. -/
structure Builder.Named (B : Builder) (v : Value) : Prop extends B.Plain v where
  address : (B.typeOf v).isPointer = true ∨ B.typeOf v = .void

theorem Builder.Named.mono {B B' : Builder} {v : Value} (h : B.Named v) (hx : Extends B.fn B'.fn)
    (hg : B'.globals = B.globals) : B'.Named v :=
  ⟨h.toPlain.mono hx hg, by rw [h.known.typeOf hx hg]; exact h.address⟩

/-- What is in scope was created before, and only comparisons have the type `int1`. -/
structure Declared (B : Builder) : Prop where
  scope : ∀ m ∈ B.scope, ∀ p ∈ m, B.Named p.2
  globals : ∀ p ∈ B.globals, p.2.isDeclared = true
  types : ∀ p ∈ B.types, p.2.ret.isDeclared = true ∧ ∀ t ∈ p.2.params, t.isDeclared = true
  params : ∀ t ∈ B.frame.params, t.isDeclared = true
  args : ∀ v ∈ B.frame.args, B.Plain v

/-- `Declared` along a step that leaves the declarations as they are. -/
theorem Declared.step {B B' : Builder} (h : Declared B) (hx : Extends B.fn B'.fn)
    (hk : Keeps B B') : Declared B' where
  scope m hm p hp := (h.scope m (hk.scope ▸ hm) p hp).mono hx hk.globals
  globals p hp := h.globals p (hk.globals ▸ hp)
  types p hp := h.types p (hk.types ▸ hp)
  params t ht := h.params t (hk.frame ▸ ht)
  args v hv := (h.args v (hk.frame ▸ hv)).mono hx hk.globals

theorem lookup_mem {α β : Type} [BEq α] [LawfulBEq α] {l : List (α × β)} {a : α} {b : β}
    (h : l.lookup a = some b) : (a, b) ∈ l := by
  obtain ⟨l₁, l₂, rfl, -⟩ := List.lookup_eq_some_iff.mp h
  simp

theorem find_mem {s : Scope} {id : String} {v : Value} (h : s.find id = some v) :
    ∃ m ∈ s, ∃ p ∈ m, p.2 = v := by
  induction s with
  | nil => cases h
  | cons m s ih =>
    rw [Scope.find, Option.or_eq_some_iff] at h
    rcases h with h | ⟨-, h⟩
    · exact ⟨m, List.mem_cons_self, (id, v), lookup_mem h, rfl⟩
    · obtain ⟨m', hm', hp⟩ := ih h
      exact ⟨m', List.mem_cons_of_mem _ hm', hp⟩

theorem Declared.find {B : Builder} (h : Declared B) {id : String} {v : Value}
    (hv : B.scope.find id = some v) : B.Named v := by
  obtain ⟨m, hm, p, hp, rfl⟩ := find_mem hv
  exact h.scope m hm p hp

theorem Declared.callee {B : Builder} (h : Declared B) {id n : String} {t : FunctionType}
    (hc : B.callee id = .ok (n, t)) :
    t.ret.isDeclared = true ∧ ∀ p ∈ t.params, p.isDeclared = true := by
  unfold Builder.callee at hc
  split at hc
  · cases hc
  · split at hc
    · rename_i hlookup
      cases hc
      exact h.types _ (lookup_mem hlookup)
    · cases hc
  · cases hc

theorem isDeclared_pointee {t e : Ty} (h : t.isDeclared = true)
    (he : t.pointerElementType = some e) : e.isDeclared = true := by
  cases t <;> simp only [Ty.pointerElementType, reduceCtorEq] at he
  cases he
  exact h

namespace Builder

variable {B B' : Builder}

theorem create_known (B : Builder) (op : OpID) (ty : Ty) (l : List Value) (c : CmpOp) :
    (B.create op ty l c).Known (B.create op ty l c).val := by
  rintro i ⟨⟩
  simp [create, emitted]

theorem create_type (B : Builder) (op : OpID) (ty : Ty) (l : List Value) (c : CmpOp) :
    (B.create op ty l c).typeOf (B.create op ty l c).val = ty := by
  simp [create, typeOf, emitted]

theorem create_plain (B : Builder) {op : OpID} {ty : Ty} {l : List Value} {c : CmpOp}
    (hty : ty.isDeclared = true) : (B.create op ty l c).Plain (B.create op ty l c).val :=
  ⟨create_known _ _ _ _ _, by rw [create_type]; exact hty⟩

/-- The value of a load. -/
theorem createLoad_type {ptr : Value} (h : B.createLoad ptr = .ok B') :
    B.typeOf ptr = .pointer (B'.typeOf B'.val) ∧ B'.Known B'.val := by
  obtain ⟨t, ht, rfl⟩ := createLoad_ok h
  rw [create_type]
  exact ⟨ht, create_known _ _ _ _ _⟩

/-- What an index into a type yields. -/
theorem elementType_declared {idxs : List Value} {e t : Ty} (h : elementType idxs e = some t)
    (he : e.isDeclared = true) : t.isDeclared = true := by
  unfold elementType at h
  split at h
  · cases h
    split_ifs
    · exact he
    · exact he
  · split_ifs at h
    cases h
    exact he

theorem createLoad_plain {ptr : Value} (h : B.createLoad ptr = .ok B')
    (hptr : (B.typeOf ptr).isDeclared = true) : B'.Plain B'.val := by
  obtain ⟨t, ht, rfl⟩ := createLoad_ok h
  rw [ht] at hptr
  exact create_plain B hptr

theorem createGep_plain {ptr : Value} {idxs : List Value} (h : B.createGep ptr idxs = .ok B')
    (hptr : (B.typeOf ptr).isDeclared = true) : B'.Plain B'.val := by
  obtain ⟨e, t, he, ht, rfl⟩ := createGep_ok h
  have hdeclared : t.isDeclared = true := elementType_declared ht (isDeclared_pointee hptr he)
  exact create_plain B hdeclared

/-- The value of an expression: also a comparison. -/
structure Usable (B : Builder) (v : Value) : Prop where
  known : B.Known v
  type : (∃ i, v = .instr i) ∧ B.typeOf v = .int1 ∨ (B.typeOf v).isDeclared = true

theorem Plain.usable {v : Value} (h : B.Plain v) : B.Usable v := ⟨h.known, .inr h.type⟩

theorem Usable.mono {v : Value} (h : B.Usable v) (hx : Extends B.fn B'.fn)
    (hg : B'.globals = B.globals) : B'.Usable v :=
  ⟨h.known.mono hx, by rw [h.known.typeOf hx hg]; exact h.type⟩

/-- **What a conversion leaves**: a value of a declared type, and of the type that is asked for
unless that is a pointer. -/
theorem convert_type {n : Value} {ty : Ty} (h : B.convert n ty = .ok B') (hn : B.Usable n)
    (hty : ty.isDeclared = true) :
    B'.Plain B'.val ∧ (ty.isPointer = false → B'.typeOf B'.val = ty) := by
  have hdeclared : ∀ e, (B.typeOf n).pointerElementType = some e →
      (B.typeOf n).isDeclared = true := by
    intro e he
    rcases hn.type with ⟨-, h1⟩ | hd
    · rw [h1] at he
      cases he
    · exact hd
  rcases convert_ok h with ⟨rfl, hsame, hsize⟩ | ⟨op, rfl, -⟩ | ⟨e, he, hptr, h | h⟩
  · have heq : B.typeOf n = ty := by
      rcases hsame with ⟨hint, hint'⟩ | ⟨hfloat, hfloat'⟩
      · cases ty <;> simp_all [Ty.isInteger, Ty.isDeclared]
        revert hint hsize
        cases B.typeOf n <;> simp [Ty.size]
      · cases ty <;> simp_all [Ty.isFloat]
        revert hfloat
        cases B.typeOf n <;> simp
    have hsame : (B.setVal n).typeOf n = ty := heq
    exact ⟨⟨hn.known, hsame ▸ hty⟩, fun _ => heq⟩
  · exact ⟨create_plain B hty, fun _ => create_type _ _ _ _ _⟩
  · exact ⟨createGep_plain h (hdeclared e he), fun hnot => by rw [hptr] at hnot; cases hnot⟩
  · exact ⟨createLoad_plain h (hdeclared e he), fun hnot => by rw [hptr] at hnot; cases hnot⟩

end Builder

/-! ## The types of expressions -/

/-- The type of a variable. -/
def varType (B : Builder) (id : String) : Ty :=
  ((B.scope.find id).bind fun v => (B.typeOf v).pointerElementType).getD .void

/-- The type of an element. -/
def elemType : Ty → Ty
  | .array t _ => t
  | .pointer t => t
  | t => t

namespace Ast

/-- The type of the value of an expression; of a comparison it is `int1`. -/
def typeIn (B : Builder) : {k : Kind} → Ast k → Ty
  | _, .intNum _ => .int32
  | _, .floatNum _ => .float
  | _, .group e => e.typeIn B
  | _, .var v => v.typeIn B
  | _, .simple l => l.typeIn B
  | _, .term t => t.typeIn B
  | _, .factor f => f.typeIn B
  | _, .relation _ _ _ => .int1
  | _, .additive l _ r => if (l.typeIn B).isInteger && (r.typeIn B).isInteger then .int32 else .float
  | _, .multiplicative l _ r =>
    if (l.typeIn B).isInteger && (r.typeIn B).isInteger then .int32 else .float
  | _, .ident id => varType B id
  | _, .element id _ => elemType (varType B id)
  | _, .assign _ e => e.typeIn B
  | _, .call id _ =>
    match B.callee id with
    | .ok (_, t) => t.ret
    | .error _ => .void
  | _, _ => .void

end Ast

/-- A state in the middle of a function. -/
structure Ready (B : Builder) : Prop where
  wf : Wf B
  inside : Inside B
  declared : Declared B

/-- A step that appends and leaves the declarations as they are. -/
structure Step (B B' : Builder) : Prop where
  ext : Extends B.fn B'.fn
  keeps : Keeps B B'
  ready : Ready B'

theorem Ready.step {B B' : Builder} (hr : Ready B) (hg : Grows B B') (hs : Stays B B') :
    Step B B' := by
  obtain ⟨hw, hx⟩ := hg hr.wf
  have hk := hs hr.inside
  exact ⟨hx, hk, hw, hr.inside.of_keeps hk, hr.declared.step hx hk⟩

theorem Step.trans {B₁ B₂ B₃ : Builder} (h : Step B₁ B₂) (h' : Step B₂ B₃) : Step B₁ B₃ :=
  ⟨h.ext.trans h'.ext, h.keeps.trans h'.keeps, h'.ready⟩

theorem Step.usable {B B' : Builder} {v : Value} (h : Step B B') (hv : B.Usable v) : B'.Usable v :=
  hv.mono h.ext h.keeps.globals

theorem Step.typeOf {B B' : Builder} {v : Value} (h : Step B B') (hv : B.Known v) :
    B'.typeOf v = B.typeOf v := hv.typeOf h.ext h.keeps.globals

/-- The kinds of the nodes whose visit leaves a value. -/
def Kind.isValue : Kind → Bool
  | .expression | .additive | .term | .factor | .var => true
  | _ => false

theorem behind_of_isValue {k : Kind} (hk : k.isValue = true) (B B' : Builder) :
    k.behind B B' = B' := by
  cases k <;> first | rfl | cases hk

/-- A visit of a part of an expression. -/
theorem visit_step {k : Kind} {a : Ast k} {B B' : Builder} (hk : k.isValue = true)
    (h : visit a B = .ok B') (hr : Ready B) : Step B B' :=
  hr.step (visit_grows a B B' h) (behind_of_isValue hk B B' ▸ visit_stays a B B' h)

theorem setAddressOnly_step {B : Builder} (hr : Ready B) (b : Bool) : Step B (B.setAddressOnly b) :=
  hr.step (Builder.setAddressOnly_grows B b) (Builder.setAddressOnly_keeps B b).stays

theorem convert_step {B B' : Builder} {n : Value} {ty : Ty} (hr : Ready B)
    (h : B.convert n ty = .ok B') : Step B B' :=
  hr.step (Builder.convert_grows h) (Builder.convert_keeps h).stays

/-- Two states with the same variables and functions in scope. -/
structure Sees (B B' : Builder) : Prop where
  scope : B'.scope = B.scope
  types : B'.types = B.types
  typeOf : ∀ id v, B.scope.find id = some v → B'.typeOf v = B.typeOf v

theorem Step.sees {B B' : Builder} (h : Step B B') (hr : Ready B) : Sees B B' :=
  ⟨h.keeps.scope, h.keeps.types, fun _ _ hv => h.typeOf (hr.declared.find hv).known⟩

theorem Sees.varType {B B' : Builder} (h : Sees B B') (id : String) :
    varType B' id = varType B id := by
  unfold Frontend.varType
  rw [h.scope]
  cases hv : B.scope.find id with
  | none => rfl
  | some v => simp only [Option.bind_some, h.typeOf id v hv]

theorem Sees.callee {B B' : Builder} (h : Sees B B') (id : String) :
    B'.callee id = B.callee id := by
  unfold Builder.callee
  rw [h.scope, h.types]

theorem Sees.typeIn {B B' : Builder} (h : Sees B B') {k : Kind} (a : Ast k) :
    a.typeIn B' = a.typeIn B := by
  induction a with
  | group e ih | var v ih | simple l ih | term t ih | factor f ih => exact ih
  | additive l op r ihl ihr | multiplicative l op r ihl ihr => rw [Ast.typeIn, Ast.typeIn, ihl, ihr]
  | ident id => exact h.varType id
  | element id e ih => rw [Ast.typeIn, Ast.typeIn, h.varType id]
  | assign v e ihv ihe => exact ihe
  | call id args ih => rw [Ast.typeIn, Ast.typeIn, h.callee id]
  | _ => rfl

theorem typeIn_step {B B' : Builder} (hr : Ready B) (h : Step B B') {k : Kind} (a : Ast k) :
    a.typeIn B' = a.typeIn B := (h.sees hr).typeIn a

namespace Builder

variable {B B' : Builder}

/-- What is converted to a number is a number. -/
theorem convert_numeric {n : Value} {ty : Ty} (h : B.convert n ty = .ok B')
    (hty : ty.isPointer = false) :
    (B.typeOf n).isInteger = true ∨ (B.typeOf n).isFloat = true := by
  rcases convert_ok h with ⟨-, hsame, -⟩ | ⟨op, -, hop⟩ | ⟨e, -, hptr, -⟩
  · rcases hsame with ⟨hint, -⟩ | ⟨hfloat, -⟩
    · exact .inl hint
    · exact .inr hfloat
  · rcases hop with ⟨-, ⟨hint, -⟩ | ⟨hfloat, -⟩, -⟩ | ⟨-, hint, -⟩ | ⟨-, hfloat, -⟩
    · exact .inl hint
    · exact .inr hfloat
    · exact .inl hint
    · exact .inr hfloat
  · rw [hty] at hptr
    cases hptr

/-- **What an operation with two operands is**: two conversions to one type and the operation. -/
theorem binary_ok {intOp floatOp : OpID} {intTy floatTy : Ty} {c : CmpOp} {lhs rhs : Value}
    (h : B.binary intOp floatOp intTy floatTy c lhs rhs = .ok B') :
    ∃ t op ty B₁ B₂, B.convert lhs t = .ok B₁ ∧ B₁.convert rhs t = .ok B₂ ∧
      B' = B₂.create op ty [B₁.val, B₂.val] c ∧
      (((B.typeOf lhs).isInteger && (B.typeOf rhs).isInteger) = true ∧
          t = .int32 ∧ op = intOp ∧ ty = intTy ∨
        ((B.typeOf lhs).isInteger && (B.typeOf rhs).isInteger) = false ∧
          t = .float ∧ op = floatOp ∧ ty = floatTy) := by
  unfold binary at h
  split_ifs at h with hint
  · obtain ⟨B₁, h₁, h⟩ := bind_ok.mp h
    obtain ⟨B₂, h₂, h⟩ := bind_ok.mp h
    exact ⟨.int32, intOp, intTy, B₁, B₂, h₁, h₂, (Except.ok.inj h).symm, .inl ⟨hint, rfl, rfl, rfl⟩⟩
  · obtain ⟨B₁, h₁, h⟩ := bind_ok.mp h
    obtain ⟨B₂, h₂, h⟩ := bind_ok.mp h
    exact ⟨.float, floatOp, floatTy, B₁, B₂, h₁, h₂, (Except.ok.inj h).symm,
      .inr ⟨Bool.not_eq_true _ ▸ hint, rfl, rfl, rfl⟩⟩

theorem createLoad_addressOnly {ptr : Value} (h : B.createLoad ptr = .ok B') :
    B'.addressOnly = B.addressOnly := by
  obtain ⟨t, -, rfl⟩ := createLoad_ok h
  rfl

theorem createGep_addressOnly {ptr : Value} {idxs : List Value}
    (h : B.createGep ptr idxs = .ok B') : B'.addressOnly = B.addressOnly := by
  obtain ⟨e, t, -, -, rfl⟩ := createGep_ok h
  rfl

theorem convert_addressOnly {n : Value} {ty : Ty} (h : B.convert n ty = .ok B') :
    B'.addressOnly = B.addressOnly := by
  rcases convert_ok h with ⟨rfl, -⟩ | ⟨op, rfl, -⟩ | ⟨e, -, -, h | h⟩
  · rfl
  · rfl
  · exact createGep_addressOnly h
  · exact createLoad_addressOnly h

@[simp] theorem create_addressOnly (B : Builder) (op : OpID) (ty : Ty) (l : List Value)
    (c : CmpOp) : (B.create op ty l c).addressOnly = B.addressOnly := rfl

@[simp] theorem createNumbered_addressOnly (B : Builder) (kind : String) :
    (B.createNumbered kind).addressOnly = B.addressOnly := rfl

@[simp] theorem createBr_addressOnly (B : Builder) (t : BlockId) :
    (B.createBr t).addressOnly = B.addressOnly := rfl

@[simp] theorem createCondBr_addressOnly (B : Builder) (v : Value) (t e : BlockId) :
    (B.createCondBr v t e).addressOnly = B.addressOnly := rfl

@[simp] theorem setInsertPoint_addressOnly (B : Builder) (b : BlockId) :
    (B.setInsertPoint b).addressOnly = B.addressOnly := rfl

theorem checkIndex_addressOnly {offset : Value} (h : B.checkIndex offset = .ok B') :
    B'.addressOnly = B.addressOnly := by
  obtain ⟨n, ret, rfl⟩ := callExcept_ok h
  simp [compareIndex]

theorem elementAddress_addressOnly {ptr : Option Value} {offset : Value}
    (h : B.elementAddress ptr offset = .ok B') : B'.addressOnly = B.addressOnly := by
  unfold elementAddress at h
  split at h
  · cases h
  · split at h
    · exact createGep_addressOnly h
    · obtain ⟨B₁, h₁, h₂⟩ := bind_ok.mp h
      exact (createGep_addressOnly h₂).trans (createLoad_addressOnly h₁)
    · cases h
      rfl
    · cases h

theorem finishVar_type {ptr : Value} {t : Ty} (h : B.finishVar ptr = .ok B')
    (hptr : B.Plain ptr) (ht : B.typeOf ptr = .pointer t) :
    B'.Plain B'.val ∧ B'.typeOf B'.val = if B.addressOnly then .pointer t else t := by
  unfold finishVar at h
  split_ifs at h ⊢ with haddr
  · cases h
    exact ⟨⟨hptr.known, hptr.type⟩, ht⟩
  · refine ⟨createLoad_plain h hptr.type, ?_⟩
    have hload := (createLoad_type h).1
    rw [ht] at hload
    exact (Ty.pointer.inj hload).symm

theorem elementAddress_type {ptr offset : Value} {t : Ty}
    (h : B.elementAddress (some ptr) offset = .ok B') (hptr : B.Plain ptr)
    (ht : B.typeOf ptr = .pointer t) :
    B'.Plain B'.val ∧ B'.typeOf B'.val = .pointer (elemType t) := by
  unfold elementAddress at h
  simp only [ht, Ty.pointerElementType] at h
  split at h
  · rename_i e n hsome
    obtain rfl := Option.some.inj hsome
    refine ⟨createGep_plain h hptr.type, ?_⟩
    obtain ⟨e', t', he', ht', rfl⟩ := createGep_ok h
    rw [ht, Ty.pointerElementType, Option.some.injEq] at he'
    subst he'
    cases ht'
    exact create_type _ _ _ _ _
  · rename_i e hsome
    obtain rfl := Option.some.inj hsome
    obtain ⟨B₁, h₁, h₂⟩ := bind_ok.mp h
    have hplain := createLoad_plain h₁ hptr.type
    have hload := (createLoad_type h₁).1
    rw [ht] at hload
    refine ⟨createGep_plain h₂ hplain.type, ?_⟩
    obtain ⟨e', t', he', ht', rfl⟩ := createGep_ok h₂
    rw [← Ty.pointer.inj hload, Ty.pointerElementType, Option.some.injEq] at he'
    subst he'
    have hone : t' = e := by
      unfold elementType at ht'
      split at ht'
      · simpa using ht'.symm
      · split_ifs at ht'
        exact (Option.some.inj ht').symm
    rw [create_type, hone]
    rfl
  · rename_i e harray hpointer hsome
    obtain rfl := Option.some.inj hsome
    cases h
    have helem : elemType t = t := by
      cases t with
      | array e n => exact absurd rfl (harray e n)
      | pointer e => exact absurd rfl (hpointer e)
      | _ => rfl
    refine ⟨⟨hptr.known, hptr.type⟩, ?_⟩
    rw [helem]
    exact ht
  · rename_i hnone
    cases hnone

end Builder

/-! ## The values that visits leave -/

theorem checkIndex_step {B B' : Builder} {offset : Value} (hr : Ready B)
    (h : B.checkIndex offset = .ok B') : Step B B' :=
  hr.step (Builder.checkIndex_grows h) (Builder.checkIndex_keeps h).stays

theorem varType_eq {B : Builder} {id : String} {v : Value} {t : Ty}
    (hv : B.scope.find id = some v) (ht : B.typeOf v = .pointer t) : varType B id = t := by
  simp [varType, hv, ht, Ty.pointerElementType]

theorem visitIdent_type {id : String} {B B' : Builder} (h : visit (.ident id) B = .ok B')
    (hr : Ready B) :
    B'.Plain B'.val ∧ (B'.typeOf B'.val = (if B.addressOnly then .pointer (varType B id) else
      varType B id) ∨ B'.typeOf B'.val = .void ∧ varType B id = .void) := by
  unfold visit at h
  split at h
  · cases h
  · rename_i ptr hfind
    have hptr := hr.declared.find hfind
    rcases hptr.address with hp | hv
    · obtain ⟨t, ht⟩ : ∃ t, B.typeOf ptr = .pointer t := by
        revert hp
        cases B.typeOf ptr <;> simp [Ty.isPointer]
      obtain ⟨hplain, htype⟩ := finishVar_type h hptr.toPlain ht
      rw [varType_eq hfind ht]
      exact ⟨hplain, .inl htype⟩
    · have hvoid : varType B id = .void := by simp [varType, hfind, hv, Ty.pointerElementType]
      unfold Builder.finishVar at h
      split_ifs at h
      · cases h
        exact ⟨⟨hptr.known, hptr.type⟩, .inr ⟨hv, hvoid⟩⟩
      · obtain ⟨t, ht, -⟩ := createLoad_ok h
        rw [hv] at ht
        cases ht

theorem visitElement_type {id : String} {e : Ast .expression} {B B' : Builder}
    (h : visit (.element id e) B = .ok B') (hr : Ready B) :
    B'.Plain B'.val ∧ B'.typeOf B'.val =
      if B.addressOnly then .pointer (elemType (varType B id)) else elemType (varType B id) := by
  obtain ⟨B₁, h₁, h⟩ := bind_ok.mp h
  obtain ⟨B₂, h₂, h⟩ := bind_ok.mp h
  obtain ⟨B₃, h₃, h⟩ := bind_ok.mp h
  obtain ⟨B₄, h₄, h₅⟩ := bind_ok.mp h
  have hfalse := setAddressOnly_step hr false
  have hindex := visit_step rfl h₁ hfalse.ready
  have hback := setAddressOnly_step hindex.ready B.addressOnly
  have hconvert := convert_step hback.ready h₂
  have hcheck := checkIndex_step hconvert.ready h₃
  have hall := (((hfalse.trans hindex).trans hback).trans hconvert).trans hcheck
  have hconverted := convert_addressOnly h₂
  have haddress : B₄.addressOnly = B.addressOnly :=
    (elementAddress_addressOnly h₄).trans ((checkIndex_addressOnly h₃).trans hconverted)
  cases hfind : B.scope.find id with
  | none =>
    rw [hfind] at h₄
    cases h₄
  | some ptr =>
    rw [hfind] at h₄
    have hptr := hr.declared.find hfind
    have hplain : B₃.Plain ptr := hptr.toPlain.mono hall.ext hall.keeps.globals
    have hsame := hall.typeOf hptr.known
    obtain ⟨t, ht⟩ : ∃ t, B.typeOf ptr = .pointer t := by
      rcases hptr.address with hp | hv
      · revert hp
        cases B.typeOf ptr <;> simp [Ty.isPointer]
      · unfold Builder.elementAddress at h₄
        simp [hsame, hv, Ty.pointerElementType] at h₄
    obtain ⟨hplain', htype'⟩ := elementAddress_type h₄ hplain (hsame.trans ht)
    obtain ⟨hfinal, hfinalType⟩ := finishVar_type h₅ hplain' htype'
    rw [varType_eq hfind ht]
    exact ⟨hfinal, haddress ▸ hfinalType⟩

theorem isInteger_of_holds {B : Builder} {v : Value} {t : Ty}
    (h : B.typeOf v = t ∨ B.typeOf v = .pointer t)
    (hnum : (B.typeOf v).isInteger = true ∨ (B.typeOf v).isFloat = true) : B.typeOf v = t := by
  rcases h with h | h
  · exact h
  · rw [h] at hnum
    rcases hnum with hnum | hnum <;> cases hnum

/-- What an operation with two operands makes of their types. -/
theorem binary_type {intOp floatOp : OpID} {intTy floatTy : Ty} {c : CmpOp} {lhs rhs : Value}
    {B B' : Builder} {tl tr : Ty} (hr : Ready B)
    (h : B.binary intOp floatOp intTy floatTy c lhs rhs = .ok B')
    (hlhs : B.typeOf lhs = tl ∨ B.typeOf lhs = .pointer tl)
    (hrhs : B.typeOf rhs = tr ∨ B.typeOf rhs = .pointer tr) (hknown : B.Known rhs) :
    B'.Known B'.val ∧
      B'.typeOf B'.val = (if tl.isInteger && tr.isInteger then intTy else floatTy) ∧
      B.typeOf lhs = tl ∧ B.typeOf rhs = tr := by
  obtain ⟨t, op, ty, B₁, B₂, h₁, h₂, rfl, hcase⟩ := binary_ok h
  have hnotPointer : t.isPointer = false := by
    rcases hcase with ⟨-, rfl, -⟩ | ⟨-, rfl, -⟩ <;> rfl
  have hl := isInteger_of_holds hlhs (convert_numeric h₁ hnotPointer)
  have hnum := convert_numeric h₂ hnotPointer
  rw [(convert_step hr h₁).typeOf hknown] at hnum
  have hr' := isInteger_of_holds hrhs hnum
  rw [hl, hr'] at hcase
  refine ⟨create_known _ _ _ _ _, ?_, hl, hr'⟩
  rw [create_type]
  rcases hcase with ⟨hint, -, -, rfl⟩ | ⟨hint, -, -, rfl⟩ <;> simp [hint]

/-- **The value that a visit leaves** has the type of the expression, or is its address. -/
theorem visit_type {k : Kind} (a : Ast k) :
    k.isValue = true → ∀ B B', visit a B = .ok B' → Ready B →
      B'.Usable B'.val ∧
        (B'.typeOf B'.val = a.typeIn B ∨ B'.typeOf B'.val = .pointer (a.typeIn B)) := by
  induction a with
  | intNum i | floatNum x =>
    intro _ B B' h _
    cases h
    exact ⟨⟨nofun, .inr rfl⟩, .inl rfl⟩
  | group e ih | var v ih | simple l ih | term t ih | factor f ih => exact ih
  | relation l op r ihl ihr =>
    intro _ B B' h hr
    obtain ⟨B₁, h₁, h⟩ := bind_ok.mp h
    obtain ⟨B₂, h₂, h₃⟩ := bind_ok.mp h
    obtain ⟨hlhs, hltype⟩ := ihl rfl B B₁ h₁ hr
    have hs₁ := visit_step rfl h₁ hr
    obtain ⟨hrhs, hrtype⟩ := ihr rfl B₁ B₂ h₂ hs₁.ready
    have hs₂ := visit_step rfl h₂ hs₁.ready
    rw [← hs₂.typeOf hlhs.known] at hltype
    obtain ⟨hknown, htype, -⟩ := binary_type hs₂.ready h₃ hltype hrtype hrhs.known
    rw [ite_self] at htype
    obtain ⟨t, op, ty, B₃, B₄, -, -, rfl, -⟩ := binary_ok h₃
    exact ⟨⟨hknown, .inl ⟨⟨_, rfl⟩, htype⟩⟩, .inl htype⟩
  | additive l op r ihl ihr | multiplicative l op r ihl ihr =>
    intro _ B B' h hr
    obtain ⟨B₁, h₁, h⟩ := bind_ok.mp h
    obtain ⟨B₂, h₂, h₃⟩ := bind_ok.mp h
    obtain ⟨hlhs, hltype⟩ := ihl rfl B B₁ h₁ hr
    have hs₁ := visit_step rfl h₁ hr
    obtain ⟨hrhs, hrtype⟩ := ihr rfl B₁ B₂ h₂ hs₁.ready
    have hs₂ := visit_step rfl h₂ hs₁.ready
    rw [← hs₂.typeOf hlhs.known] at hltype
    rw [typeIn_step hr hs₁] at hrtype
    obtain ⟨hknown, htype, -⟩ := binary_type hs₂.ready h₃ hltype hrtype hrhs.known
    refine ⟨⟨hknown, .inr ?_⟩, .inl htype⟩
    rw [htype]
    split_ifs <;> rfl
  | ident id =>
    intro _ B B' h hr
    obtain ⟨hplain, htype⟩ := visitIdent_type h hr
    refine ⟨hplain.usable, ?_⟩
    rcases htype with htype | ⟨hval, hvoid⟩
    · split_ifs at htype
      · exact .inr htype
      · exact .inl htype
    · exact .inl (hval.trans hvoid.symm)
  | element id e _ =>
    intro _ B B' h hr
    obtain ⟨hplain, htype⟩ := visitElement_type h hr
    refine ⟨hplain.usable, ?_⟩
    split_ifs at htype
    · exact .inr htype
    · exact .inl htype
  | assign v e ihv ihe =>
    intro _ B B' h hr
    obtain ⟨B₁, h₁, h⟩ := bind_ok.mp h
    obtain ⟨B₂, h₂, h₃⟩ := bind_ok.mp h
    obtain ⟨husable, htype⟩ := ihe rfl B B₁ h₁ hr
    have hs₁ := visit_step rfl h₁ hr
    have hs₂ := (setAddressOnly_step hs₁.ready true).trans
      (visit_step rfl h₂ (setAddressOnly_step hs₁.ready true).ready)
    have hs₃ := hs₂.trans (hs₂.ready.step (assignTo_grows h₃) (assignTo_keeps h₃).stays)
    have hval : B'.val = B₁.val := by
      unfold Builder.assignTo at h₃
      split at h₃
      · cases h₃
      · obtain ⟨B₃, -, h₃⟩ := bind_ok.mp h₃
        cases h₃
        rfl
    rw [hval, hs₃.typeOf husable.known]
    exact ⟨hs₃.usable husable, htype⟩
  | call id args ih =>
    intro _ B B' h hr
    obtain ⟨⟨n, t⟩, hcallee, h⟩ := bind_ok.mp h
    obtain ⟨B₁, h₁, h⟩ := bind_ok.mp h
    obtain ⟨B₂, h₂, h⟩ := bind_ok.mp h
    cases h
    have hplain : B₂.Plain B₂.val ∧ B₂.typeOf B₂.val = t.ret := by
      unfold Builder.createCall at h₂
      split_ifs at h₂
      cases h₂
      exact ⟨create_plain B₁ (hr.declared.callee hcallee).1, create_type _ _ _ _ _⟩
    rw [Ast.typeIn, hcallee]
    exact ⟨⟨hplain.1.known, .inr hplain.1.type⟩, .inl hplain.2⟩
  | _ => exact fun h => nomatch h

/-- A variable, or its address. -/
theorem visitVar_type {v : Ast .var} {B B' : Builder} (h : visit v B = .ok B') (hr : Ready B) :
    B'.Plain B'.val ∧ (B'.typeOf B'.val = (if B.addressOnly then .pointer (v.typeIn B) else
      v.typeIn B) ∨ B'.typeOf B'.val = .void ∧ v.typeIn B = .void) := by
  cases v with
  | ident id => exact visitIdent_type h hr
  | element id e =>
    obtain ⟨hplain, htype⟩ := visitElement_type h hr
    exact ⟨hplain, .inl htype⟩

/-- A value is a comparison if its expression is one. -/
theorem typeOf_eq_int1 {B : Builder} {v : Value} {t : Ty} (hv : B.Usable v)
    (h : B.typeOf v = t ∨ B.typeOf v = .pointer t) : B.typeOf v = .int1 ↔ t = .int1 := by
  rcases h with h | h
  · rw [h]
  · rw [h]
    refine ⟨nofun, ?_⟩
    rintro rfl
    rcases hv.type with ⟨-, hbit⟩ | hdeclared
    · rw [h] at hbit
      cases hbit
    · rw [h] at hdeclared
      cases hdeclared

/-- An argument behind its visit. -/
theorem pushArg_ready {B B' : Builder} {t : Ty} (hr : Ready B) (h : B.pushArg t = .ok B')
    (hval : B.Usable B.val) (ht : t.isDeclared = true) :
    Ready B' ∧ Extends B.fn B'.fn ∧ Keeps B (B'.setFrame B.frame) ∧
      ∃ v, B'.frame = { B.frame with args := B.frame.args ++ [v] } := by
  obtain ⟨B₁, h₁, h⟩ := bind_ok.mp h
  cases h
  have hs := setAddressOnly_step hr false
  have hs₁ := hs.trans (convert_step hs.ready h₁)
  have hplain := (Builder.convert_type h₁ (hs.usable hval) ht).1
  have hd := hs₁.ready.declared
  refine ⟨⟨?_, ⟨hs₁.ready.inside.scope, hs₁.ready.inside.enterInFunDecl⟩, ?_⟩, hs₁.ext, ?_, ?_⟩
  · exact (Builder.setFrame_grows B₁ _ hs₁.ready.wf).1
  · refine ⟨fun m hm p hp => (hd.scope m hm p hp).mono (Extends.refl _) rfl, hd.globals, hd.types,
      hd.params, fun v hv => ?_⟩
    rcases List.mem_append.mp hv with hv | hv
    · exact (hd.args v hv).mono (Extends.refl _) rfl
    · obtain rfl := List.mem_singleton.mp hv
      exact hplain.mono (Extends.refl _) rfl
  · exact ⟨hs₁.keeps.scope, hs₁.keeps.globals, hs₁.keeps.types, hs₁.keeps.returnType,
      hs₁.keeps.enterInFunDecl, rfl⟩
  · refine ⟨B₁.val, ?_⟩
    show ({ B₁.frame with args := B₁.frame.args ++ [B₁.val] } : CallFrame) = _
    rw [hs₁.keeps.frame]

end Cminusfc.Frontend
