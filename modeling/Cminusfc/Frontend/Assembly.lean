import Cminusfc.Frontend.Flags

/-!
# What the builder emits

`Builds own f g`: from `f` to `g` blocks are created, edges are added and instructions are appended,
no phi among them and all of them in blocks with the property `own`. `Assembled own f B` is the
invariant of the builder that goes with it.

Results:
* `visit_assembled`: every visit keeps the invariant, as long as `return` closes no blocks or every
  block may be written.
* `Builds.body`: the other blocks stay as they are.
* `Builds.op`: there are no phis.

About `src/cminusfc/cminusf_builder.cpp` 11-407. Out of scope: the sweep of `visit(ASTReturnStmt)`
over other blocks, lines 206-273, unless every block may be written.
-/

namespace Cminusfc.Frontend

open LightIR
open Fallible (bind_ok)

/-- Steps of the builder, seen from the function. -/
inductive Builds (own : BlockId → Prop) (f : Func) : Func → Prop
  | refl : Builds own f f
  | emit {g : Func} {b : BlockId} {x : Instr} (h : Builds own f g) (hb : b ∈ g.blocks)
      (hown : own b) (hop : x.op ≠ .phi) (hx : x.parent = b) :
      Builds own f ((g.newInstr x).addInstruction b g.next)
  | block {g : Func} (h : Builds own f g) (name : String) : Builds own f (g.createBlock name)
  | edges {g : Func} (h : Builds own f g) (pre succ : BlockId → List BlockId) :
      Builds own f { g with pre := pre, succ := succ }
  | names {g : Func} (h : Builds own f g) (names : Value → String) :
      Builds own f { g with names := names }

/-- The builder has come from `f` by such steps, and may go on. -/
structure Assembled (own : BlockId → Prop) (f : Func) (B : Builder) : Prop where
  wf : Wf B
  builds : Builds own f B.fn
  bb : own B.bb
  later : ∀ b, B.fn.blocks.length ≤ b → own b

variable {own : BlockId → Prop} {f : Func} {B B' B₁ B₂ : Builder}

namespace Assembled

theorem of_grows (h : Assembled own f B) (hg : Grows B B') (hb : Builds own f B'.fn)
    (hbb : own B'.bb) : Assembled own f B' := by
  obtain ⟨hw, hx⟩ := hg h.wf
  exact ⟨hw, hb, hbb, fun b hb => h.later b (Nat.le_trans hx.blocks hb)⟩

/-- Only the function and the insert block matter. -/
theorem same (h : Assembled own f B) (hfn : B'.fn = B.fn) (hbb : B'.bb = B.bb) :
    Assembled own f B' :=
  h.of_grows (Grows.of_same hfn hbb) (hfn ▸ h.builds) (hbb ▸ h.bb)

theorem insertAt (h : Assembled own f B) {b : BlockId} (hb : b < B.fn.blocks.length)
    (hown : own b) : Assembled own f (B.setInsertPoint b) :=
  h.of_grows (Builder.setInsertPoint_grows B hb) h.builds hown

theorem setInBranch (h : Assembled own f B) (b : Bool) : Assembled own f (B.setInBranch b) :=
  h.same rfl rfl

theorem emit (h : Assembled own f B) {x : Instr} (hop : x.op ≠ .phi) :
    Assembled own f (B.emit x) := by
  refine h.of_grows (B.emit_grows x) (h.builds.emit ?_ h.bb hop rfl) h.bb
  rw [h.wf.blocks]
  exact List.mem_range.mpr h.wf.bb

theorem create (h : Assembled own f B) {op : OpID} {ty : Ty} {l : List Value} {c : CmpOp}
    (hop : op ≠ .phi) : Assembled own f (B.create op ty l c) :=
  Assembled.same
    (@Assembled.emit own f B h { op := op, ty := ty, operands := l, parent := B.bb, cmpOp := c } hop)
    rfl rfl

theorem createStore (h : Assembled own f B) (v ptr : Value) :
    Assembled own f (B.createStore v ptr) := h.emit nofun

theorem createRet (h : Assembled own f B) (v : Option Value) : Assembled own f (B.createRet v) :=
  h.emit nofun

theorem createBlock (h : Assembled own f B) (name : String) :
    Assembled own f (B.createBlock name) :=
  h.of_grows (B.createBlock_grows name) (h.builds.block name) h.bb

theorem createNumbered (h : Assembled own f B) (kind : String) :
    Assembled own f (B.createNumbered kind) := Assembled.same (h.createBlock _) rfl rfl

theorem createBr (h : Assembled own f B) (t : BlockId) : Assembled own f (B.createBr t) := by
  have hedges : Assembled own f
      { B with fn := (B.fn.addPreBasicBlock t B.bb).addSuccBasicBlock B.bb t } :=
    h.of_grows (B.edges_grows rfl rfl rfl rfl rfl rfl) (h.builds.edges _ _) h.bb
  exact hedges.emit nofun

theorem createCondBr (h : Assembled own f B) (v : Value) (t e : BlockId) :
    Assembled own f (B.createCondBr v t e) := by
  have hedges : Assembled own f
      { B with
        fn := (((B.fn.addPreBasicBlock t B.bb).addPreBasicBlock e B.bb).addSuccBasicBlock B.bb
          e).addSuccBasicBlock B.bb t } :=
    h.of_grows (B.edges_grows rfl rfl rfl rfl rfl rfl) (h.builds.edges _ _) h.bb
  exact hedges.emit nofun

end Assembled

namespace Builder

variable (hA : Assembled own f B)

include hA

theorem createLoad_assembled {ptr : Value} (h : B.createLoad ptr = .ok B') :
    Assembled own f B' := by
  obtain ⟨t, -, rfl⟩ := createLoad_ok h
  exact hA.create nofun

theorem createGep_assembled {ptr : Value} {idxs : List Value} (h : B.createGep ptr idxs = .ok B') :
    Assembled own f B' := by
  obtain ⟨e, t, -, -, rfl⟩ := createGep_ok h
  exact hA.create nofun

theorem convert_assembled {v : Value} {ty : Ty} (h : B.convert v ty = .ok B') :
    Assembled own f B' := by
  rcases convert_ok h with ⟨rfl, -⟩ | ⟨op, rfl, hop⟩ | ⟨e, -, -, h | h⟩
  · exact hA.same rfl rfl
  · refine hA.create ?_
    rcases hop with ⟨rfl, -⟩ | ⟨rfl, -⟩ | ⟨rfl, -⟩ <;> decide
  · exact createGep_assembled hA h
  · exact createLoad_assembled hA h

theorem binary_assembled {intOp floatOp : OpID} {intTy floatTy : Ty} {c : CmpOp} {lhs rhs : Value}
    (h : B.binary intOp floatOp intTy floatTy c lhs rhs = .ok B') (hint : intOp ≠ .phi)
    (hfloat : floatOp ≠ .phi) : Assembled own f B' := by
  obtain ⟨t, op, ty, B₁, B₂, h₁, h₂, rfl, hcase⟩ := binary_ok h
  refine Assembled.create (convert_assembled (convert_assembled hA h₁) h₂) ?_
  rcases hcase with ⟨-, -, rfl, -⟩ | ⟨-, -, rfl, -⟩
  · exact hint
  · exact hfloat

theorem truth_assembled : Assembled own f B.truth := by
  unfold truth
  dsimp only
  split_ifs
  · exact hA.create nofun
  · exact hA.create nofun
  · exact hA

theorem checkIndex_assembled {offset : Value} (h : B.checkIndex offset = .ok B') :
    Assembled own f B' := by
  obtain ⟨m, ret, rfl⟩ := callExcept_ok h
  have hcmp : Assembled own f (B.create .cmp .int1 [offset, .int32 0] .GE) := hA.create nofun
  have hblocks := (hcmp.createNumbered "true").createNumbered "false"
  have hcompare : Assembled own f (B.compareIndex offset) := by
    refine (hblocks.createCondBr _ _ _).insertAt ?_ (hA.later _ ?_)
    · simp
    · simp
  have hcall : Assembled own f ((B.compareIndex offset).create .call ret [.function m] .EQ) :=
    hcompare.create nofun
  refine (hcall.createBr _).insertAt ?_ (hA.later _ (Nat.le_refl _))
  simp

theorem elementAddress_assembled {ptr : Option Value} {offset : Value}
    (h : B.elementAddress ptr offset = .ok B') : Assembled own f B' := by
  unfold elementAddress at h
  split at h
  · cases h
  · split at h
    · exact createGep_assembled hA h
    · obtain ⟨B₁, h₁, h₂⟩ := bind_ok.mp h
      exact createGep_assembled (createLoad_assembled hA h₁) h₂
    · cases h
      exact hA.same rfl rfl
    · cases h

theorem finishVar_assembled {ptr : Value} (h : B.finishVar ptr = .ok B') : Assembled own f B' := by
  unfold finishVar at h
  split_ifs at h
  · cases h
    exact hA.same rfl rfl
  · exact createLoad_assembled hA h

theorem subscript_assembled {ptr : Option Value} (h : B.subscript ptr = .ok B') :
    Assembled own f B' := by
  obtain ⟨B₁, h₁, h⟩ := bind_ok.mp h
  obtain ⟨B₂, h₂, h⟩ := bind_ok.mp h
  obtain ⟨B₃, h₃, h₄⟩ := bind_ok.mp h
  exact finishVar_assembled (elementAddress_assembled (checkIndex_assembled
    (convert_assembled hA h₁) h₂) h₃) h₄

theorem assignTo_assembled {rhs : Value} (h : B.assignTo rhs = .ok B') : Assembled own f B' := by
  unfold assignTo at h
  split at h
  · cases h
  · obtain ⟨B₁, h₁, h⟩ := bind_ok.mp h
    cases h
    exact ((convert_assembled hA h₁).createStore _ _).same rfl rfl

theorem createCall_assembled {m : String} {t : FunctionType} {args : List Value}
    (h : B.createCall m t args = .ok B') : Assembled own f B' := by
  unfold createCall at h
  split_ifs at h
  cases h
  exact hA.create nofun

theorem pushArg_assembled {t : Ty} (h : B.pushArg t = .ok B') : Assembled own f B' := by
  obtain ⟨B₁, h₁, h⟩ := bind_ok.mp h
  cases h
  have hopen : Assembled own f (B.setAddressOnly false) := hA.same rfl rfl
  exact (convert_assembled hopen h₁).same rfl rfl

theorem visitVarDeclaration_assembled {d : VarDeclaration} (h : B.visitVarDeclaration d = .ok B') :
    Assembled own f B' := by
  obtain ⟨t, -, h⟩ := bind_ok.mp h
  by_cases hglobal : B.scope.inGlobal = true
  · simp only [hglobal, if_true] at h
    split at h
    · cases h
      exact hA.same rfl rfl
    · cases h
  · simp only [hglobal] at h
    split at h
    · cases h
      have halloca : Assembled own f (B.createAlloca t) := hA.create nofun
      exact halloca.same rfl rfl
    · cases h

/-- The return block, which closes the others. -/
theorem enterReturnBlock_assembled (hq : B.preReturns = false ∨ ∀ b, own b) :
    Assembled own f B.enterReturnBlock := by
  rcases hq with hq | hall
  · rwa [enterReturnBlock_eq hq]
  · have hclose : ∀ (l : List BlockId) (B : Builder), Assembled own f B →
        (∀ b ∈ l, b < B.fn.blocks.length) → ∀ returnBB,
        Assembled own f (l.foldl (fun B bb => B.closeBlock returnBB bb) B) := by
      intro l
      induction l with
      | nil => exact fun B hB _ _ => hB
      | cons b l ih =>
        intro B hB hl returnBB
        have hone : Assembled own f (B.closeBlock returnBB b) ∧
            (B.closeBlock returnBB b).fn.blocks.length = B.fn.blocks.length := by
          unfold closeBlock
          split_ifs
          · exact ⟨hB, rfl⟩
          · exact ⟨(hB.insertAt (hl b List.mem_cons_self) (hall b)).createBr _, createBr_length _ _⟩
        refine ih _ hone.1 (fun b' hb' => ?_) returnBB
        rw [hone.2]
        exact hl b' (List.mem_cons_of_mem _ hb')
    have hopen := (hA.createBlock "return").createBr B.newBlock
    have hblocks : ∀ b ∈ ((B.createBlock "return").createBr B.newBlock).fn.blocks,
        b < ((B.createBlock "return").createBr B.newBlock).fn.blocks.length := by
      intro b hb
      rw [hopen.wf.blocks] at hb
      exact List.mem_range.mp hb
    unfold enterReturnBlock
    split_ifs
    · refine (hclose _ _ hopen hblocks _).insertAt ?_ (hall _)
      have hlen := (closeBlocks_grows B.newBlock _ _ hblocks hopen.wf).2.blocks
      refine Nat.lt_of_lt_of_le ?_ hlen
      rw [createBr_length, show (B.createBlock "return").fn.blocks.length = _ from
        createBlock_length _ _]
      exact Nat.lt_succ_self _
    · exact hA

theorem finishReturn_assembled {value : Bool} (h : B.finishReturn value = .ok B')
    (hq : B.preReturns = false ∨ ∀ b, own b) : Assembled own f B' := by
  unfold finishReturn at h
  split_ifs at h
  · split at h
    · cases h
    · rename_i ptr hptr
      obtain ⟨B₁, h₁, h⟩ := bind_ok.mp h
      have hstore : Assembled own f ((B₁.createStore B₁.val ptr).setVal B.val) :=
        Assembled.same ((convert_assembled hA h₁).createStore B₁.val ptr) rfl rfl
      have hpre : ((B₁.createStore B₁.val ptr).setVal B.val).preReturns = false ∨ ∀ b, own b :=
        hq.imp_left fun h => (convert_flags h₁).preReturns.trans h
      dsimp only at h
      split_ifs at h
      · cases h
        exact hstore.same rfl rfl
      · obtain ⟨B₂, h₂, h⟩ := bind_ok.mp h
        cases h
        exact (createLoad_assembled (enterReturnBlock_assembled hstore hpre) h₂).createRet _
  · cases h
    exact hA.same rfl rfl
  · cases h
    exact (enterReturnBlock_assembled hA hq).createRet _

theorem leaveBranch_assembled (out : BlockId) : Assembled own f (B.leaveBranch out) := by
  unfold leaveBranch
  split_ifs
  · exact hA
  · exact hA.createBr out

theorem returnStored_assembled (h : B.returnStored = .ok B') : Assembled own f B' := by
  unfold returnStored at h
  split_ifs at h
  · split at h
    · cases h
    · obtain ⟨B₁, h₁, h⟩ := bind_ok.mp h
      cases h
      exact (createLoad_assembled hA h₁).createRet _
  · cases h
    exact hA.createRet _

theorem openSelection_assembled : Assembled own f B.openSelection := by
  have hblocks := ((truth_assembled hA).createNumbered "true").createNumbered "out"
  have hopen : Assembled own f (((((B.truth.createNumbered "true").createNumbered
      "out").createCondBr B.truth.val B.fn.blocks.length (B.fn.blocks.length + 1)).setInBranch
      true).setInsertPoint B.fn.blocks.length) := by
    refine Assembled.insertAt ((hblocks.createCondBr _ _ _).setInBranch true) ?_
      (hA.later _ (Nat.le_refl _))
    rw [setInBranch_fn, createCondBr_length]
    have hlt : B.fn.blocks.length < B.fn.blocks.length + 1 + 1 := by omega
    exact Nat.lt_of_lt_of_eq hlt (by simp)
  simpa [openSelection] using hopen

theorem openSelectionElse_assembled : Assembled own f B.openSelectionElse := by
  have hblocks := (((truth_assembled hA).createNumbered "true").createNumbered
    "false").createNumbered "out"
  have hopen : Assembled own f ((((((B.truth.createNumbered "true").createNumbered
      "false").createNumbered "out").createCondBr B.truth.val B.fn.blocks.length
      (B.fn.blocks.length + 1)).setInBranch true).setInsertPoint B.fn.blocks.length) := by
    refine Assembled.insertAt ((hblocks.createCondBr _ _ _).setInBranch true) ?_
      (hA.later _ (Nat.le_refl _))
    rw [setInBranch_fn, createCondBr_length]
    have hlt : B.fn.blocks.length < B.fn.blocks.length + 1 + 1 + 1 := by omega
    simpa using hlt
  simpa [openSelectionElse] using hopen

theorem openIteration_assembled : Assembled own f B.openIteration := by
  have hblocks := ((hA.createNumbered "predicate").createNumbered "body").createNumbered "out"
  have hopen : Assembled own f (((((B.createNumbered "predicate").createNumbered
      "body").createNumbered "out").createBr B.fn.blocks.length).setInsertPoint
      B.fn.blocks.length) := by
    refine (hblocks.createBr _).insertAt ?_ (hA.later _ (Nat.le_refl _))
    rw [createBr_length]
    have hlt : B.fn.blocks.length < B.fn.blocks.length + 1 + 1 + 1 := by omega
    simpa using hlt
  simpa [openIteration] using hopen

theorem enterBody_assembled {body out : BlockId} (hlt : body < B.fn.blocks.length)
    (hown : own body) : Assembled own f (B.enterBody body out) := by
  refine Assembled.same (((truth_assembled hA).createCondBr _ body out).insertAt ?_ hown) rfl rfl
  simpa using hlt

theorem joinReturns_assembled {t e out : BlockId} (h : B.joinReturns t e out = .ok B')
    (ht : t < B.fn.blocks.length) (he : e < B.fn.blocks.length) (hout : out < B.fn.blocks.length)
    (hownt : own t) (howne : own e) (hownout : own out) : Assembled own f B' := by
  obtain ⟨B₁, h₁, h⟩ := bind_ok.mp h
  cases h
  have hstored := returnStored_assembled hA h₁
  have hlen := (returnStored_grows h₁ hA.wf).2.blocks
  refine ((((hstored.insertAt (Nat.lt_of_lt_of_le ht hlen) hownt).createBr out).insertAt ?_
    howne).createBr out).insertAt ?_ hownout
  · rw [createBr_length]
    exact Nat.lt_of_lt_of_le he hlen
  · rw [createBr_length, setInsertPoint_fn, createBr_length]
    exact Nat.lt_of_lt_of_le hout hlen

end Builder

open Builder

/-- Every block may be written, or `return` closes no blocks in the visit of `a`. -/
def Closing (own : BlockId → Prop) {k : Kind} (a : Ast k) (B : Builder) : Prop :=
  (∀ b, own b) ∨ k.inExpression = true ∨ ∃ b, Calm b B ∧ a.quiet b = true

theorem intOp_ne_phi (op : AddOp) : op.intOp ≠ .phi ∧ op.floatOp ≠ .phi := by
  cases op <;> decide

theorem mulOp_ne_phi (op : MulOp) : op.intOp ≠ .phi ∧ op.floatOp ≠ .phi := by
  cases op <;> decide

/-- A part of a statement. -/
theorem Closing.part {k k' : Kind} {a : Ast k} {s : Ast k'} (h : Closing own a B)
    (hk : k.inExpression = false)
    (hs : ∀ b, Calm b B → a.quiet b = true → ∃ b', Calm b' B' ∧ s.quiet b' = true) :
    Closing own s B' := by
  rcases h with hall | hexpr | ⟨b, hcalm, hquiet⟩
  · exact .inl hall
  · rw [hk] at hexpr
    cases hexpr
  · exact .inr (.inr (hs b hcalm hquiet))

/-- A `return` closes no blocks, or may close all. -/
theorem Closing.returns {k : Kind} {a : Ast k} (h : Closing own a B) (hk : k.inExpression = false)
    (hcalm : ∀ b, Calm b B → B'.preReturns = false) : B'.preReturns = false ∨ ∀ b, own b := by
  rcases h with hall | hexpr | ⟨b, hb, -⟩
  · exact .inr hall
  · rw [hk] at hexpr
    cases hexpr
  · exact .inl (hcalm b hb)

/-- A visit of `a` keeps the invariant. -/
def Assembles (own : BlockId → Prop) (f : Func) {k : Kind} (a : Ast k) : Prop :=
  ∀ B B', visit a B = .ok B' → Assembled own f B → Closing own a B → Assembled own f B'

theorem compoundStmt_assembles {ds : List VarDeclaration} {ss : Ast .statements}
    (hss : Assembles own f ss) : Assembles own f (.compoundStmt ds ss) := by
  intro B B' h hA hq
  obtain ⟨B₁, h₁, h⟩ := bind_ok.mp h
  obtain ⟨B₂, h₂, h⟩ := bind_ok.mp h
  cases h
  have hopen : Assembled own f B.enterScope := hA.same rfl rfl
  have hlocals : Assembled own f B₁ :=
    @Fallible.foldlM_keeps _ _ _ visitVarDeclaration (Assembled own f) ds
      (fun d _ s s' hs hd => visitVarDeclaration_assembled hs hd) _ _ hopen h₁
  have hclosing : Closing own ss B₁ := by
    refine hq.part rfl fun b hcalm hquiet => ⟨b, ?_, hquiet⟩
    exact @Fallible.foldlM_keeps _ _ _ visitVarDeclaration (Calm b) ds
      (fun d _ s s' hs hd => visitVarDeclaration_calm hd hs) B.enterScope B₁
      ⟨hcalm.inBranch, hcalm.returnInBranch, hcalm.preReturns, hcalm.addressOnly⟩ h₁
  exact (hss B₁ B₂ h₂ hlocals hclosing).same rfl rfl

theorem stmt_assembles {s : Ast .statement} {rest : Ast .statements} (hfirst : Assembles own f s)
    (hlater : Assembles own f rest) : Assembles own f (.stmt s rest) := by
  intro B B' h hA hq
  obtain ⟨B₁, h₁, h₂⟩ := bind_ok.mp h
  have hs : Closing own s B :=
    hq.part rfl fun b hcalm hquiet => ⟨b, hcalm, (Bool.and_eq_true_iff.mp hquiet).1⟩
  have hrest : Closing own rest B₁ := by
    refine hq.part rfl fun b hcalm hquiet => ?_
    obtain ⟨hqs, hqrest⟩ := Bool.and_eq_true_iff.mp hquiet
    exact ⟨_, visit_calm s B B₁ h₁ rfl hqs hcalm, hqrest⟩
  exact hlater B₁ B' h₂ (hfirst B B₁ h₁ hA hs) hrest

theorem selectionStmt_assembles {e : Ast .expression} {s : Ast .statement}
    (hcond : Assembles own f e) (hbody : Assembles own f s) :
    Assembles own f (.selectionStmt e s) := by
  intro B B' h hA hq
  obtain ⟨B₁, h₁, h⟩ := bind_ok.mp h
  obtain ⟨B₂, h₂, h⟩ := bind_ok.mp h
  cases h
  have he := hcond B B₁ h₁ hA (.inr (.inl rfl))
  have hopen := openSelection_assembled he
  have hclosing : Closing own s B₁.openSelection := by
    refine hq.part rfl fun b hcalm hquiet => ?_
    have hcalm₁ : Calm b B₁ := Calm.expression (a := e) rfl h₁ hcalm
    exact ⟨true, openSelection_calm hcalm₁, hquiet⟩
  have hs := hbody _ B₂ h₂ hopen hclosing
  have hlen := (visit_grows s _ B₂ h₂ hopen.wf).2.blocks
  rw [openSelection_length] at hlen
  have hend := (leaveBranch_assembled hs (B₁.newBlock + 1)).insertAt (b := B₁.newBlock + 1)
    (by rw [leaveBranch_length]; exact hlen) (he.later _ (Nat.le_succ _))
  exact hend.same rfl rfl

theorem selectionElseStmt_assembles {e : Ast .expression} {s t : Ast .statement}
    (hcond : Assembles own f e) (hthen : Assembles own f s) (helse : Assembles own f t) :
    Assembles own f (.selectionElseStmt e s t) := by
  intro B B' h hA hq
  obtain ⟨B₁, h₁, h⟩ := bind_ok.mp h
  obtain ⟨B₂, h₂, h⟩ := bind_ok.mp h
  obtain ⟨B₃, h₃, h⟩ := bind_ok.mp h
  have he := hcond B B₁ h₁ hA (.inr (.inl rfl))
  have hopen := openSelectionElse_assembled he
  have hclosing : Closing own s B₁.openSelectionElse := by
    refine hq.part rfl fun b hcalm hquiet => ?_
    have hcalm₁ : Calm b B₁ := Calm.expression (a := e) rfl h₁ hcalm
    exact ⟨true, openSelectionElse_calm hcalm₁, (Bool.and_eq_true_iff.mp hquiet).1⟩
  have hs := hthen _ B₂ h₂ hopen hclosing
  have hlen := (visit_grows s _ B₂ h₂ hopen.wf).2.blocks
  rw [openSelectionElse_length] at hlen
  have hfalse : B₁.newBlock + 1 < (B₂.leaveBranch (B₁.newBlock + 2)).fn.blocks.length := by
    rw [leaveBranch_length]
    exact Nat.lt_of_lt_of_le (Nat.add_lt_add_left (by decide) _) hlen
  have hnext := (leaveBranch_assembled hs (B₁.newBlock + 2)).insertAt hfalse
    (he.later _ (Nat.le_succ _))
  have hbetween : Assembled own f (((B₂.leaveBranch (B₁.newBlock + 2)).setInsertPoint
      (B₁.newBlock + 1)).setReturnInBranch false) := hnext.same rfl rfl
  have hclosing' : Closing own t (((B₂.leaveBranch (B₁.newBlock + 2)).setInsertPoint
      (B₁.newBlock + 1)).setReturnInBranch false) := by
    refine hq.part rfl fun b hcalm hquiet => ?_
    obtain ⟨hqs, hqt⟩ := Bool.and_eq_true_iff.mp hquiet
    have hcalm₁ : Calm b B₁ := Calm.expression (a := e) rfl h₁ hcalm
    have hcalm₂ := visit_calm s _ B₂ h₂ rfl hqs (openSelectionElse_calm hcalm₁)
    rw [leaveBranch_eq hcalm₂.returnInBranch]
    exact ⟨_, nextBranch_calm hcalm₂ _ _, hqt⟩
  have ht := helse _ B₃ h₃ hbetween hclosing'
  have hlen₃ := (visit_grows t _ B₃ h₃ hbetween.wf).2.blocks
  have hlt : B₁.newBlock + 2 < (B₃.leaveBranch (B₁.newBlock + 2)).fn.blocks.length := by
    rw [leaveBranch_length]
    refine Nat.lt_of_lt_of_le ?_ hlen₃
    show _ < (B₂.leaveBranch (B₁.newBlock + 2)).fn.blocks.length
    rw [leaveBranch_length]
    exact hlen
  have hout : own (B₁.newBlock + 2) := he.later _ (Nat.le_add_right _ 2)
  have hend := (leaveBranch_assembled ht (B₁.newBlock + 2)).insertAt hlt hout
  have hall : Assembled own f ((((B₃.leaveBranch (B₁.newBlock + 2)).setInsertPoint
      (B₁.newBlock + 2)).setReturnInBranch false).setInBranch false) := hend.same rfl rfl
  dsimp only at h
  split_ifs at h
  · exact joinReturns_assembled hall h (Nat.lt_of_le_of_lt (Nat.le_add_right _ 2) hlt)
      (Nat.lt_of_le_of_lt (Nat.le_succ _) hlt) hlt (he.later _ (Nat.le_refl _))
      (he.later _ (Nat.le_succ _)) hout
  · cases h
    exact hall

theorem iterationStmt_assembles {e : Ast .expression} {s : Ast .statement}
    (hcond : Assembles own f e) (hloop : Assembles own f s) :
    Assembles own f (.iterationStmt e s) := by
  intro B B' h hA hq
  obtain ⟨B₁, h₁, h⟩ := bind_ok.mp h
  obtain ⟨B₂, h₂, h⟩ := bind_ok.mp h
  cases h
  have hopen := openIteration_assembled hA
  have he := hcond _ B₁ h₁ hopen (.inr (.inl rfl))
  have hlen₁ := (visit_grows e _ B₁ h₁ hopen.wf).2.blocks
  rw [openIteration_length] at hlen₁
  have hlt : B.newBlock + 1 < B₁.fn.blocks.length :=
    Nat.lt_of_lt_of_le (Nat.add_lt_add_left (by decide) _) hlen₁
  have hbody : Assembled own f (B₁.enterBody (B.newBlock + 1) (B.newBlock + 2)) :=
    enterBody_assembled he hlt (hA.later _ (Nat.le_succ _))
  have hclosing : Closing own s (B₁.enterBody (B.newBlock + 1) (B.newBlock + 2)) := by
    refine hq.part rfl fun b hcalm hquiet => ?_
    have hcalm₁ : Calm b B₁ := Calm.expression (a := e) rfl h₁ (openIteration_calm hcalm)
    exact ⟨true, enterBody_calm hcalm₁ _ _, hquiet⟩
  have hs := hloop _ B₂ h₂ hbody hclosing
  have hlen₂ := (visit_grows s _ B₂ h₂ hbody.wf).2.blocks
  have hout : B.newBlock + 2 < B₂.fn.blocks.length :=
    Nat.lt_of_lt_of_le (Nat.lt_succ_self _)
      (Nat.le_trans hlen₁ (Nat.le_trans (enterBody_grows hlt he.wf).2.blocks hlen₂))
  refine (leaveBranch_assembled (hs.setInBranch false) B.newBlock).insertAt ?_
    (hA.later _ (Nat.le_add_right _ 2))
  rw [leaveBranch_length]
  exact hout

/-- **A visit keeps the invariant.** -/
theorem visit_assembled {k : Kind} (a : Ast k) : Assembles own f a := by
  induction a with
  | intNum i | floatNum x =>
    intro B B' h hA _
    cases h
    exact hA.same rfl rfl
  | group e ih | var v ih | simple l ih | term t ih | factor t ih =>
    exact fun B B' h hA _ => ih B B' h hA (.inr (.inl rfl))
  | expressionStmt e ih => exact fun B B' h hA _ => ih B B' h hA (.inr (.inl rfl))
  | noArgs | emptyStmt | noStmts =>
    intro B B' h hA _
    cases h
    exact hA
  | relation l op r ihl ihr =>
    intro B B' h hA _
    obtain ⟨B₁, h₁, h⟩ := bind_ok.mp h
    obtain ⟨B₂, h₂, h₃⟩ := bind_ok.mp h
    have hl := ihl B B₁ h₁ hA (.inr (.inl rfl))
    exact binary_assembled (ihr B₁ B₂ h₂ hl (.inr (.inl rfl))) h₃ nofun nofun
  | additive l op r ihl ihr =>
    intro B B' h hA _
    obtain ⟨B₁, h₁, h⟩ := bind_ok.mp h
    obtain ⟨B₂, h₂, h₃⟩ := bind_ok.mp h
    have hl := ihl B B₁ h₁ hA (.inr (.inl rfl))
    exact binary_assembled (ihr B₁ B₂ h₂ hl (.inr (.inl rfl))) h₃ (intOp_ne_phi op).1
      (intOp_ne_phi op).2
  | multiplicative l op r ihl ihr =>
    intro B B' h hA _
    obtain ⟨B₁, h₁, h⟩ := bind_ok.mp h
    obtain ⟨B₂, h₂, h₃⟩ := bind_ok.mp h
    have hl := ihl B B₁ h₁ hA (.inr (.inl rfl))
    exact binary_assembled (ihr B₁ B₂ h₂ hl (.inr (.inl rfl))) h₃ (mulOp_ne_phi op).1
      (mulOp_ne_phi op).2
  | ident id =>
    intro B B' h hA _
    unfold visit at h
    split at h
    · cases h
    · exact finishVar_assembled hA h
  | element id e ih =>
    intro B B' h hA _
    obtain ⟨B₁, h₁, h₂⟩ := bind_ok.mp h
    have he := ih _ B₁ h₁ (Assembled.same hA rfl rfl) (.inr (.inl rfl))
    have hback : Assembled own f (B₁.setAddressOnly B.addressOnly) := he.same rfl rfl
    exact subscript_assembled hback h₂
  | assign v e ihv ihe =>
    intro B B' h hA _
    obtain ⟨B₁, h₁, h⟩ := bind_ok.mp h
    obtain ⟨B₂, h₂, h₃⟩ := bind_ok.mp h
    have he := ihe B B₁ h₁ hA (.inr (.inl rfl))
    have hv := ihv _ B₂ h₂ (Assembled.same he rfl rfl) (.inr (.inl rfl))
    exact assignTo_assembled hv h₃
  | call id args ih =>
    intro B B' h hA _
    obtain ⟨⟨m, t⟩, -, h⟩ := bind_ok.mp h
    obtain ⟨B₁, h₁, h⟩ := bind_ok.mp h
    obtain ⟨B₂, h₂, h⟩ := bind_ok.mp h
    cases h
    have hargs := ih _ B₁ h₁ (Assembled.same hA rfl rfl) (.inr (.inl rfl))
    exact (createCall_assembled hargs h₂).same rfl rfl
  | arg e rest ihe ihrest =>
    intro B B' h hA _
    obtain ⟨t, -, h⟩ := bind_ok.mp h
    obtain ⟨B₁, h₁, h⟩ := bind_ok.mp h
    obtain ⟨B₂, h₂, h₃⟩ := bind_ok.mp h
    have he := ihe _ B₁ h₁ (Assembled.same hA rfl rfl) (.inr (.inl rfl))
    exact ihrest B₂ B' h₃ (pushArg_assembled he h₂) (.inr (.inl rfl))
  | compoundStmt ds ss ih => exact compoundStmt_assembles ih
  | stmt s rest ihs ihrest => exact stmt_assembles ihs ihrest
  | returnVoidStmt =>
    intro B B' h hA hq
    exact finishReturn_assembled hA h (hq.returns rfl fun b hcalm => hcalm.preReturns)
  | returnStmt e ih =>
    intro B B' h hA hq
    obtain ⟨B₁, h₁, h₂⟩ := bind_ok.mp h
    refine finishReturn_assembled (ih B B₁ h₁ hA (.inr (.inl rfl))) h₂ (hq.returns rfl ?_)
    exact fun b hcalm => (Calm.expression (a := e) rfl h₁ hcalm).preReturns
  | selectionStmt e s ihe ihs => exact selectionStmt_assembles ihe ihs
  | selectionElseStmt e s t ihe ihs iht => exact selectionElseStmt_assembles ihe ihs iht
  | iterationStmt e s ihe ihs => exact iterationStmt_assembles ihe ihs

/-! ## What follows -/

theorem newInstr_fields (g : Func) (x : Instr) :
    (g.newInstr x).body = g.body ∧ (g.newInstr x).instr = Function.update g.instr g.next x ∧
      (g.newInstr x).next = g.next + 1 := by
  simp

/-- **The blocks that may not be written stay as they are.** -/
theorem Builds.body {g : Func} (h : Builds own f g) {b : BlockId} (hb : ¬ own b) :
    g.body b = f.body b := by
  induction h with
  | refl => rfl
  | @emit g c x _ hc hown _ _ ih =>
    have hne : b ≠ c := fun heq => hb (heq ▸ hown)
    show Function.update (g.newInstr x).body c _ b = _
    rw [Function.update_of_ne hne, (newInstr_fields g x).1, ih]
  | block _ name ih => exact ih
  | edges _ pre succ ih => exact ih
  | names _ names ih => exact ih

/-- **No phi is emitted.** -/
theorem Builds.op {g : Func} (h : Builds own f g) (hf : ∀ i < f.next, (f.instr i).op ≠ .phi) :
    ∀ i < g.next, (g.instr i).op ≠ .phi := by
  induction h with
  | refl => exact hf
  | @emit g c x _ hc _ hop _ ih =>
    intro i hi
    obtain ⟨-, hinstr, hnext⟩ := newInstr_fields g x
    have hi' : i < g.next + 1 := hnext ▸ hi
    show ((g.newInstr x).instr i).op ≠ .phi
    rw [hinstr]
    by_cases heq : i = g.next
    · rw [heq, Function.update_self]
      exact hop
    · rw [Function.update_of_ne heq]
      exact ih i (Nat.lt_of_le_of_ne (Nat.le_of_lt_succ hi') heq)
  | block _ name ih => exact ih
  | edges _ pre succ ih => exact ih
  | names _ names ih => exact ih

theorem newInstr_name (g : Func) (x : Instr) : (g.newInstr x).name = g.name := by
  have hfold : ∀ (l : List (Value × Nat)) (g : Func) (i : InstrId),
      (l.foldl (fun g v => g.addUse v.1 (i, v.2)) g).name = g.name := by
    intro l
    induction l with
    | nil => exact fun _ _ => rfl
    | cons v l ih => exact fun g i => ih (g.addUse v.1 (i, v.2)) i
  exact hfold _ _ _

/-- **A function keeps its name.** -/
theorem Builds.name {g : Func} (h : Builds own f g) : g.name = f.name := by
  induction h with
  | refl => rfl
  | @emit g c x _ hc _ _ _ ih => exact (newInstr_name g x).trans ih
  | block _ name ih => exact ih
  | edges _ pre succ ih => exact ih
  | names _ names ih => exact ih

end Cminusfc.Frontend
