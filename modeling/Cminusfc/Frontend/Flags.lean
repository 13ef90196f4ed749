import Cminusfc.Frontend.Effects
import Cminusfc.Frontend.Typing

/-!
# The flags of the builder

A `return` in a branch leaves its block open and is noted in three flags. A function is quiet when no
`return` is visited with `in_branch` set; then none is ever noted.

Results:
* `visit_flags`, `visit_addressAfter`: what an expression does to the flags.
* `visit_calm`: in a quiet statement no return is noted.

About `in_branch` and its companions, `src/cminusfc/cminusf_builder.cpp` 109-273, and
`address_only`, 275-315 and 394-407.
-/

namespace Cminusfc.Frontend

open LightIR
open Fallible (bind_ok)
open Builder

/-- The flags stay as they are. -/
structure Flags (B B' : Builder) : Prop where
  inBranch : B'.inBranch = B.inBranch
  returnInBranch : B'.returnInBranch = B.returnInBranch
  preReturns : B'.preReturns = B.preReturns

variable {B B' B₁ B₂ B₃ : Builder}

theorem Flags.refl (B : Builder) : Flags B B := ⟨rfl, rfl, rfl⟩

theorem Flags.trans (h : Flags B₁ B₂) (h' : Flags B₂ B₃) : Flags B₁ B₃ :=
  ⟨h'.inBranch.trans h.inBranch, h'.returnInBranch.trans h.returnInBranch,
    h'.preReturns.trans h.preReturns⟩

namespace Builder

theorem create_flags (B : Builder) (op : OpID) (ty : Ty) (l : List Value) (c : CmpOp) :
    Flags B (B.create op ty l c) := ⟨rfl, rfl, rfl⟩

theorem createNumbered_flags (B : Builder) (kind : String) : Flags B (B.createNumbered kind) :=
  ⟨rfl, rfl, rfl⟩

theorem createBr_flags (B : Builder) (t : BlockId) : Flags B (B.createBr t) := ⟨rfl, rfl, rfl⟩

theorem createCondBr_flags (B : Builder) (v : Value) (t e : BlockId) :
    Flags B (B.createCondBr v t e) := ⟨rfl, rfl, rfl⟩

theorem setInsertPoint_flags (B : Builder) (b : BlockId) : Flags B (B.setInsertPoint b) :=
  ⟨rfl, rfl, rfl⟩

theorem setAddressOnly_flags (B : Builder) (b : Bool) : Flags B (B.setAddressOnly b) :=
  ⟨rfl, rfl, rfl⟩

theorem setFrame_flags (B : Builder) (c : CallFrame) : Flags B (B.setFrame c) := ⟨rfl, rfl, rfl⟩

theorem createLoad_flags {ptr : Value} (h : B.createLoad ptr = .ok B') : Flags B B' := by
  obtain ⟨t, -, rfl⟩ := createLoad_ok h
  exact ⟨rfl, rfl, rfl⟩

theorem createGep_flags {ptr : Value} {idxs : List Value} (h : B.createGep ptr idxs = .ok B') :
    Flags B B' := by
  obtain ⟨e, t, -, -, rfl⟩ := createGep_ok h
  exact ⟨rfl, rfl, rfl⟩

theorem convert_flags {v : Value} {ty : Ty} (h : B.convert v ty = .ok B') : Flags B B' := by
  rcases convert_ok h with ⟨rfl, -⟩ | ⟨op, rfl, -⟩ | ⟨e, -, -, h | h⟩
  · exact ⟨rfl, rfl, rfl⟩
  · exact ⟨rfl, rfl, rfl⟩
  · exact createGep_flags h
  · exact createLoad_flags h

theorem binary_flags {intOp floatOp : OpID} {intTy floatTy : Ty} {c : CmpOp} {lhs rhs : Value}
    (h : B.binary intOp floatOp intTy floatTy c lhs rhs = .ok B') :
    Flags B B' ∧ B'.addressOnly = B.addressOnly := by
  obtain ⟨t, op, ty, B₁, B₂, h₁, h₂, rfl, -⟩ := binary_ok h
  exact ⟨((convert_flags h₁).trans (convert_flags h₂)).trans ⟨rfl, rfl, rfl⟩,
    (convert_addressOnly h₂).trans (convert_addressOnly h₁)⟩

theorem finishVar_flags {ptr : Value} (h : B.finishVar ptr = .ok B') :
    Flags B B' ∧ B'.addressOnly = B.addressOnly := by
  unfold finishVar at h
  split_ifs at h
  · cases h
    exact ⟨⟨rfl, rfl, rfl⟩, rfl⟩
  · exact ⟨createLoad_flags h, createLoad_addressOnly h⟩

theorem checkIndex_flags {offset : Value} (h : B.checkIndex offset = .ok B') : Flags B B' := by
  obtain ⟨m, ret, rfl⟩ := callExcept_ok h
  have hcompare : Flags B (B.compareIndex offset) :=
    ((((create_flags B _ _ _ _).trans (createNumbered_flags _ _)).trans
      (createNumbered_flags _ _)).trans (createCondBr_flags _ _ _ _)).trans
        (setInsertPoint_flags _ _)
  exact ((hcompare.trans (create_flags _ _ _ _ _)).trans (createBr_flags _ _)).trans
    (setInsertPoint_flags _ _)

theorem elementAddress_flags {ptr : Option Value} {offset : Value}
    (h : B.elementAddress ptr offset = .ok B') : Flags B B' := by
  unfold elementAddress at h
  split at h
  · cases h
  · split at h
    · exact createGep_flags h
    · obtain ⟨B₁, h₁, h₂⟩ := bind_ok.mp h
      exact (createLoad_flags h₁).trans (createGep_flags h₂)
    · cases h
      exact ⟨rfl, rfl, rfl⟩
    · cases h

theorem subscript_flags {ptr : Option Value} (h : B.subscript ptr = .ok B') :
    Flags B B' ∧ B'.addressOnly = B.addressOnly := by
  obtain ⟨B₁, h₁, h⟩ := bind_ok.mp h
  obtain ⟨B₂, h₂, h⟩ := bind_ok.mp h
  obtain ⟨B₃, h₃, h₄⟩ := bind_ok.mp h
  obtain ⟨hflags, haddress⟩ := finishVar_flags h₄
  refine ⟨(((convert_flags h₁).trans (checkIndex_flags h₂)).trans (elementAddress_flags h₃)).trans
    hflags, haddress.trans ((elementAddress_addressOnly h₃).trans ?_)⟩
  exact (checkIndex_addressOnly h₂).trans (convert_addressOnly h₁)

theorem assignTo_flags {rhs : Value} (h : B.assignTo rhs = .ok B') :
    Flags B B' ∧ B'.addressOnly = false := by
  unfold assignTo at h
  split at h
  · cases h
  · obtain ⟨B₁, h₁, h⟩ := bind_ok.mp h
    cases h
    exact ⟨(convert_flags h₁).trans ⟨rfl, rfl, rfl⟩, rfl⟩

theorem createCall_flags {m : String} {t : FunctionType} {args : List Value}
    (h : B.createCall m t args = .ok B') : Flags B B' ∧ B'.addressOnly = B.addressOnly := by
  unfold createCall at h
  split_ifs at h
  cases h
  exact ⟨⟨rfl, rfl, rfl⟩, rfl⟩

theorem pushArg_flags {t : Ty} (h : B.pushArg t = .ok B') :
    Flags B B' ∧ B'.addressOnly = false := by
  obtain ⟨B₁, h₁, h⟩ := bind_ok.mp h
  cases h
  have hconvert := convert_flags h₁
  exact ⟨⟨hconvert.inBranch, hconvert.returnInBranch, hconvert.preReturns⟩,
    convert_addressOnly h₁⟩

end Builder

/-- **An expression leaves the flags as they are.** -/
theorem visit_flags {k : Kind} (a : Ast k) :
    k.inExpression = true → ∀ B B', visit a B = .ok B' → Flags B B' := by
  induction a with
  | intNum i | floatNum x =>
    intro _ B B' h
    cases h
    exact ⟨rfl, rfl, rfl⟩
  | group e ih | var v ih | simple l ih | term t ih | factor f ih => exact ih
  | noArgs =>
    intro _ B B' h
    cases h
    exact Flags.refl B
  | relation l op r ihl ihr | additive l op r ihl ihr | multiplicative l op r ihl ihr =>
    intro _ B B' h
    obtain ⟨B₁, h₁, h⟩ := bind_ok.mp h
    obtain ⟨B₂, h₂, h₃⟩ := bind_ok.mp h
    exact ((ihl rfl B B₁ h₁).trans (ihr rfl B₁ B₂ h₂)).trans (binary_flags h₃).1
  | ident id =>
    intro _ B B' h
    unfold visit at h
    split at h
    · cases h
    · exact (finishVar_flags h).1
  | element id e ih =>
    intro _ B B' h
    obtain ⟨B₁, h₁, h₂⟩ := bind_ok.mp h
    have he := (setAddressOnly_flags B false).trans (ih rfl _ B₁ h₁)
    exact (he.trans (setAddressOnly_flags B₁ _)).trans (subscript_flags h₂).1
  | assign v e ihv ihe =>
    intro _ B B' h
    obtain ⟨B₁, h₁, h⟩ := bind_ok.mp h
    obtain ⟨B₂, h₂, h₃⟩ := bind_ok.mp h
    have hv := (setAddressOnly_flags B₁ true).trans (ihv rfl _ B₂ h₂)
    exact ((ihe rfl B B₁ h₁).trans hv).trans (assignTo_flags h₃).1
  | call id args ih =>
    intro _ B B' h
    obtain ⟨⟨m, t⟩, -, h⟩ := bind_ok.mp h
    obtain ⟨B₁, h₁, h⟩ := bind_ok.mp h
    obtain ⟨B₂, h₂, h⟩ := bind_ok.mp h
    cases h
    have hargs := (setFrame_flags B _).trans (ih rfl _ B₁ h₁)
    exact (hargs.trans (createCall_flags h₂).1).trans (setFrame_flags _ _)
  | arg e rest ihe ihrest =>
    intro _ B B' h
    obtain ⟨t, -, h⟩ := bind_ok.mp h
    obtain ⟨B₁, h₁, h⟩ := bind_ok.mp h
    obtain ⟨B₂, h₂, h₃⟩ := bind_ok.mp h
    have harg := (setAddressOnly_flags B _).trans (ihe rfl _ B₁ h₁)
    exact (harg.trans (pushArg_flags h₂).1).trans (ihrest rfl B₂ B' h₃)
  | compoundStmt | emptyStmt | expressionStmt | selectionStmt | selectionElseStmt | iterationStmt
  | returnVoidStmt | returnStmt | noStmts | stmt => exact fun h => nomatch h

/-- `address_only` behind an expression that is visited with `address_only` as `b`. -/
def Ast.addressAfter : {k : Kind} → Ast k → Bool → Bool
  | _, .group e, b => e.addressAfter b
  | _, .var v, b => v.addressAfter b
  | _, .simple l, b => l.addressAfter b
  | _, .term t, b => t.addressAfter b
  | _, .factor f, b => f.addressAfter b
  | _, .relation l _ r, b => r.addressAfter (l.addressAfter b)
  | _, .additive l _ t, b => t.addressAfter (l.addressAfter b)
  | _, .multiplicative l _ f, b => f.addressAfter (l.addressAfter b)
  | _, .assign _ _, _ => false
  | _, .call _ args, b => args.addressAfter b
  | _, .arg _ rest, _ => rest.addressAfter false
  | _, _, b => b

/-- **An expression leaves `address_only` as the declarations tell.** -/
theorem visit_addressAfter {k : Kind} (a : Ast k) :
    k.inExpression = true → ∀ B B', visit a B = .ok B' →
      B'.addressOnly = a.addressAfter B.addressOnly := by
  induction a with
  | intNum i | floatNum x =>
    intro _ B B' h
    cases h
    rfl
  | group e ih | var v ih | simple l ih | term t ih | factor f ih => exact ih
  | noArgs =>
    intro _ B B' h
    cases h
    rfl
  | relation l op r ihl ihr | additive l op r ihl ihr | multiplicative l op r ihl ihr =>
    intro _ B B' h
    obtain ⟨B₁, h₁, h⟩ := bind_ok.mp h
    obtain ⟨B₂, h₂, h₃⟩ := bind_ok.mp h
    rw [(binary_flags h₃).2, ihr rfl B₁ B₂ h₂, ihl rfl B B₁ h₁, Ast.addressAfter]
  | ident id =>
    intro _ B B' h
    unfold visit at h
    split at h
    · cases h
    · exact (finishVar_flags h).2
  | element id e ih =>
    intro _ B B' h
    obtain ⟨B₁, h₁, h₂⟩ := bind_ok.mp h
    exact (subscript_flags h₂).2
  | assign v e ihv ihe =>
    intro _ B B' h
    obtain ⟨B₁, h₁, h⟩ := bind_ok.mp h
    obtain ⟨B₂, h₂, h₃⟩ := bind_ok.mp h
    exact (assignTo_flags h₃).2
  | call id args ih =>
    intro _ B B' h
    obtain ⟨⟨m, t⟩, -, h⟩ := bind_ok.mp h
    obtain ⟨B₁, h₁, h⟩ := bind_ok.mp h
    obtain ⟨B₂, h₂, h⟩ := bind_ok.mp h
    cases h
    exact (createCall_flags h₂).2.trans (ih rfl (B.setFrame ⟨t.params, []⟩) B₁ h₁)
  | arg e rest ihe ihrest =>
    intro _ B B' h
    obtain ⟨t, -, h⟩ := bind_ok.mp h
    obtain ⟨B₁, h₁, h⟩ := bind_ok.mp h
    obtain ⟨B₂, h₂, h₃⟩ := bind_ok.mp h
    rw [ihrest rfl B₂ B' h₃, (pushArg_flags h₂).2, Ast.addressAfter]
  | compoundStmt | emptyStmt | expressionStmt | selectionStmt | selectionElseStmt | iterationStmt
  | returnVoidStmt | returnStmt | noStmts | stmt => exact fun h => nomatch h

theorem Ast.addressAfter_false {k : Kind} (a : Ast k) : a.addressAfter false = false := by
  induction a with
  | group e ih | var v ih | simple l ih | term t ih | factor f ih => exact ih
  | relation l op r ihl ihr | additive l op r ihl ihr | multiplicative l op r ihl ihr =>
    rw [Ast.addressAfter, ihl, ihr]
  | call id args ih => exact ih
  | arg e rest ihe ihrest => exact ihrest
  | _ => rfl

/-- **Behind an expression whose value is asked for, values are asked for.** -/
theorem visit_addressOnly {k : Kind} {a : Ast k} {B B' : Builder} (hk : k.inExpression = true)
    (h : visit a B = .ok B') (hB : B.addressOnly = false) : B'.addressOnly = false := by
  rw [visit_addressAfter a hk B B' h, hB, Ast.addressAfter_false]

/-! ## Statements -/

/-- `in_branch` behind a statement that is visited with `in_branch` as `b`. -/
def Ast.branchAfter : {k : Kind} → Ast k → Bool → Bool
  | _, .compoundStmt _ ss, b => ss.branchAfter b
  | _, .stmt s rest, b => rest.branchAfter (s.branchAfter b)
  | _, .selectionStmt _ _, _ => false
  | _, .selectionElseStmt _ _ _, _ => false
  | _, .iterationStmt _ _, _ => false
  | _, _, b => b

/-- No `return` is visited with `in_branch` set. -/
def Ast.quiet : {k : Kind} → Ast k → Bool → Bool
  | _, .compoundStmt _ ss, b => ss.quiet b
  | _, .stmt s rest, b => s.quiet b && rest.quiet (s.branchAfter b)
  | _, .selectionStmt _ s, _ => s.quiet true
  | _, .selectionElseStmt _ s t, _ => s.quiet true && t.quiet (s.branchAfter true)
  | _, .iterationStmt _ s, _ => s.quiet true
  | _, .returnVoidStmt, b => !b
  | _, .returnStmt _, b => !b
  | _, _, _ => true

/-- No return is noted, and values are asked for. -/
structure Calm (b : Bool) (B : Builder) : Prop where
  inBranch : B.inBranch = b
  returnInBranch : B.returnInBranch = false
  preReturns : B.preReturns = false
  addressOnly : B.addressOnly = false

theorem Calm.expression {b : Bool} {k : Kind} {a : Ast k} (hk : k.inExpression = true)
    (h : visit a B = .ok B') (hB : Calm b B) : Calm b B' := by
  have hflags := visit_flags a hk B B' h
  exact ⟨hflags.inBranch.trans hB.inBranch, hflags.returnInBranch.trans hB.returnInBranch,
    hflags.preReturns.trans hB.preReturns, visit_addressOnly hk h hB.addressOnly⟩

namespace Builder

theorem truth_flags (B : Builder) : Flags B B.truth ∧ B.truth.addressOnly = B.addressOnly := by
  unfold truth
  dsimp only
  split_ifs
  · exact ⟨create_flags B _ _ _ _, rfl⟩
  · exact ⟨create_flags B _ _ _ _, rfl⟩
  · exact ⟨Flags.refl B, rfl⟩

theorem leaveBranch_eq (h : B.returnInBranch = false) (out : BlockId) :
    B.leaveBranch out = B.createBr out := by
  unfold leaveBranch
  rw [h]
  rfl

/-- The branch to the blocks of a statement. -/
theorem fork_calm {b : Bool} (h : Calm b B) (v : Value) (t e q : BlockId) :
    Calm true (((B.createCondBr v t e).setInBranch true).setInsertPoint q) :=
  ⟨rfl, h.returnInBranch, h.preReturns, h.addressOnly⟩

theorem createNumbered_calm {b : Bool} (h : Calm b B) (kind : String) :
    Calm b (B.createNumbered kind) :=
  ⟨h.inBranch, h.returnInBranch, h.preReturns, h.addressOnly⟩

theorem truth_calm {b : Bool} (h : Calm b B) : Calm b B.truth := by
  obtain ⟨hflags, haddress⟩ := truth_flags B
  exact ⟨hflags.inBranch.trans h.inBranch, hflags.returnInBranch.trans h.returnInBranch,
    hflags.preReturns.trans h.preReturns, haddress.trans h.addressOnly⟩

theorem openSelection_calm {b : Bool} (h : Calm b B) : Calm true B.openSelection :=
  fork_calm (createNumbered_calm (createNumbered_calm (truth_calm h) _) _) _ _ _ _

theorem openSelectionElse_calm {b : Bool} (h : Calm b B) : Calm true B.openSelectionElse :=
  fork_calm (createNumbered_calm (createNumbered_calm (createNumbered_calm (truth_calm h) _) _) _)
    _ _ _ _

theorem enterBody_calm {b : Bool} (h : Calm b B) (body out : BlockId) :
    Calm true (B.enterBody body out) := by
  have ht := truth_calm h
  obtain ⟨C, hC⟩ : ∃ C, C = B.truth := ⟨_, rfl⟩
  unfold enterBody
  rw [← hC] at ht ⊢
  exact ⟨rfl, ht.returnInBranch, ht.preReturns, ht.addressOnly⟩

theorem openIteration_calm {b : Bool} (h : Calm b B) : Calm b B.openIteration := by
  have hblocks := createNumbered_calm (createNumbered_calm (createNumbered_calm h "predicate")
    "body") "out"
  exact ⟨hblocks.inBranch, hblocks.returnInBranch, hblocks.preReturns, hblocks.addressOnly⟩

/-- The end of a branch that is followed by another. -/
theorem nextBranch_calm {b : Bool} (h : Calm b B) (out q : BlockId) :
    Calm b (((B.createBr out).setInsertPoint q).setReturnInBranch false) :=
  ⟨h.inBranch, rfl, h.preReturns, h.addressOnly⟩

/-- The end of the last branch. -/
theorem endBranches_calm {b : Bool} (h : Calm b B) (out q : BlockId) :
    Calm false ((((B.createBr out).setInsertPoint q).setReturnInBranch false).setInBranch false) :=
  ⟨rfl, rfl, h.preReturns, h.addressOnly⟩

/-- The end of the body of a loop. -/
theorem endBody_calm {b : Bool} (h : Calm b B) (predicate out : BlockId) :
    Calm false (((B.setInBranch false).createBr predicate).setInsertPoint out) :=
  ⟨rfl, h.returnInBranch, h.preReturns, h.addressOnly⟩

theorem enterReturnBlock_eq (h : B.preReturns = false) : B.enterReturnBlock = B := by
  unfold enterReturnBlock
  rw [h]
  rfl

/-- A `return` outside branches. -/
theorem finishReturn_calm {value : Bool} (h : B.finishReturn value = .ok B') (hB : Calm false B) :
    Calm false B' := by
  unfold finishReturn at h
  cases value with
  | true =>
    rw [if_pos rfl] at h
    split at h
    · cases h
    · rename_i ptr hptr
      obtain ⟨B₁, h₁, h⟩ := bind_ok.mp h
      have hflags := convert_flags h₁
      have haddress := convert_addressOnly h₁
      have hbranch : ((B₁.createStore B₁.val ptr).setVal B.val).inBranch = false :=
        hflags.inBranch.trans hB.inBranch
      have hpre : ((B₁.createStore B₁.val ptr).setVal B.val).preReturns = false :=
        hflags.preReturns.trans hB.preReturns
      dsimp only at h
      rw [hbranch, if_neg Bool.false_ne_true, enterReturnBlock_eq hpre] at h
      obtain ⟨B₂, h₂, h⟩ := bind_ok.mp h
      cases h
      have hload := createLoad_flags h₂
      exact ⟨hload.inBranch.trans hbranch,
        hload.returnInBranch.trans (hflags.returnInBranch.trans hB.returnInBranch),
        hload.preReturns.trans hpre,
        (createLoad_addressOnly h₂).trans (haddress.trans hB.addressOnly)⟩
  | false =>
    rw [if_neg Bool.false_ne_true, hB.inBranch, if_neg Bool.false_ne_true,
      enterReturnBlock_eq hB.preReturns] at h
    cases h
    exact ⟨hB.inBranch, hB.returnInBranch, hB.preReturns, hB.addressOnly⟩

theorem visitVarDeclaration_calm {b : Bool} {d : VarDeclaration}
    (h : B.visitVarDeclaration d = .ok B') (hB : Calm b B) : Calm b B' := by
  obtain ⟨t, -, h⟩ := bind_ok.mp h
  by_cases hglobal : B.scope.inGlobal = true
  · simp only [hglobal, if_true] at h
    split at h
    · cases h
      exact ⟨hB.inBranch, hB.returnInBranch, hB.preReturns, hB.addressOnly⟩
    · cases h
  · simp only [hglobal] at h
    split at h
    · cases h
      exact ⟨hB.inBranch, hB.returnInBranch, hB.preReturns, hB.addressOnly⟩
    · cases h

end Builder

/-- **In a quiet statement no return is noted.** -/
theorem visit_calm {k : Kind} (a : Ast k) :
    ∀ {b : Bool} (B B' : Builder), visit a B = .ok B' → k.inExpression = false → a.quiet b = true →
      Calm b B → Calm (a.branchAfter b) B' := by
  induction a with
  | emptyStmt | noStmts =>
    intro b B B' h _ _ hB
    cases h
    exact hB
  | expressionStmt e ih =>
    intro b B B' h _ _ hB
    exact Calm.expression (a := e) rfl h hB
  | compoundStmt ds ss ih =>
    intro b B B' h _ hq hB
    obtain ⟨B₁, h₁, h⟩ := bind_ok.mp h
    obtain ⟨B₂, h₂, h⟩ := bind_ok.mp h
    cases h
    have hopen : Calm b B.enterScope :=
      ⟨hB.inBranch, hB.returnInBranch, hB.preReturns, hB.addressOnly⟩
    have hlocals : Calm b B₁ :=
      @Fallible.foldlM_keeps _ _ _ visitVarDeclaration (Calm b) ds
        (fun d _ s s' hs hd => visitVarDeclaration_calm hd hs) _ _ hopen h₁
    have hss := ih B₁ B₂ h₂ rfl hq hlocals
    exact ⟨hss.inBranch, hss.returnInBranch, hss.preReturns, hss.addressOnly⟩
  | stmt s rest ihs ihrest =>
    intro b B B' h _ hq hB
    obtain ⟨B₁, h₁, h₂⟩ := bind_ok.mp h
    obtain ⟨hqs, hqrest⟩ := Bool.and_eq_true_iff.mp hq
    exact ihrest B₁ B' h₂ rfl hqrest (ihs B B₁ h₁ rfl hqs hB)
  | selectionStmt e s ihe ihs =>
    intro b B B' h _ hq hB
    obtain ⟨B₁, h₁, h⟩ := bind_ok.mp h
    obtain ⟨B₂, h₂, h⟩ := bind_ok.mp h
    cases h
    have hs := ihs _ B₂ h₂ rfl hq (openSelection_calm (@Calm.expression _ _ b _ e rfl h₁ hB))
    rw [leaveBranch_eq hs.returnInBranch]
    exact endBranches_calm hs _ _
  | selectionElseStmt e s t ihe ihs iht =>
    intro b B B' h _ hq hB
    obtain ⟨hqs, hqt⟩ := Bool.and_eq_true_iff.mp hq
    obtain ⟨B₁, h₁, h⟩ := bind_ok.mp h
    obtain ⟨B₂, h₂, h⟩ := bind_ok.mp h
    obtain ⟨B₃, h₃, h⟩ := bind_ok.mp h
    have hs := ihs _ B₂ h₂ rfl hqs (openSelectionElse_calm (@Calm.expression _ _ b _ e rfl h₁ hB))
    rw [leaveBranch_eq hs.returnInBranch] at h₃ h
    have hnext := nextBranch_calm hs (B₁.newBlock + 2) (B₁.newBlock + 1)
    have ht := iht _ B₃ h₃ rfl hqt hnext
    have hthen : (B₂.createBr (B₁.newBlock + 2)).returnInBranch = false := hs.returnInBranch
    dsimp only at h
    rw [hthen, Bool.false_and, if_neg Bool.false_ne_true, leaveBranch_eq ht.returnInBranch] at h
    rw [← Except.ok.inj h]
    exact endBranches_calm ht _ _
  | iterationStmt e s ihe ihs =>
    intro b B B' h _ hq hB
    obtain ⟨B₁, h₁, h⟩ := bind_ok.mp h
    obtain ⟨B₂, h₂, h⟩ := bind_ok.mp h
    cases h
    have hopen := openIteration_calm hB
    have hbody := enterBody_calm (@Calm.expression _ _ b _ e rfl h₁ hopen) (B.newBlock + 1)
      (B.newBlock + 2)
    have hs := ihs _ B₂ h₂ rfl hq hbody
    have hreturn : (B₂.setInBranch false).returnInBranch = false := hs.returnInBranch
    rw [leaveBranch_eq hreturn]
    exact endBody_calm hs _ _
  | returnVoidStmt =>
    intro b B B' h _ hq hB
    obtain rfl : b = false := by simpa [Ast.quiet] using hq
    exact finishReturn_calm h hB
  | returnStmt e ih =>
    intro b B B' h _ hq hB
    obtain rfl : b = false := by simpa [Ast.quiet] using hq
    obtain ⟨B₁, h₁, h₂⟩ := bind_ok.mp h
    exact finishReturn_calm h₂ (@Calm.expression _ _ false _ e rfl h₁ hB)
  | _ => exact fun B B' _ hk => nomatch hk

end Cminusfc.Frontend
