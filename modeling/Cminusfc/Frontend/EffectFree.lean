import Cminusfc.Frontend.Simulation

/-!
# Code without effects

About the expressions of `src/cminusfc/cminusf_builder.cpp`, lines 275-407, that contain no call and
no assignment. Their code writes to registers of its own only, and where it does not come to its end
the run is over in the world it started from (`visit_harmless`). This is so whatever the variables
hold, also where the meaning of the expression is undefined.

So two such expressions may change places, which `visit(ASTAssignExpression)` makes use of.
-/

namespace Cminusfc.Frontend

open LightIR
open LightIR.Func (eval setReg)
open Fallible (bind_ok)
open Builder

variable {Val World : Type} {M : Machine Val World} {Γ : Context} {B B' B₁ B₂ : Builder} {F : Func}
  {σ : Store Val World} {st st' : State Val World}

/-! ## Harmless code -/

/-- What is left behind code from `B` on: registers of its own. -/
structure Untouched (B : Builder) (st st' : State Val World) : Prop where
  slots : st'.slots = st.slots
  world : st'.world = st.world
  regs : ∀ i < B.fn.next, st'.regs i = st.regs i

theorem Untouched.refl (B : Builder) (st : State Val World) : Untouched B st st :=
  ⟨rfl, rfl, fun _ _ => rfl⟩

theorem Untouched.setReg (B : Builder) (st : State Val World) (v : Val) :
    Untouched B st (setReg st B.fn.next v) where
  slots := rfl
  world := rfl
  regs i hi := by rw [Func.setReg_regs, Function.update_of_ne (Nat.ne_of_lt hi)]

theorem Untouched.corresponds (h : Untouched B st st') (hc : Corresponds Γ B σ st) (hs : Step B B') :
    Corresponds Γ B' σ st' :=
  hc.mono hs.ext hs.keeps h.regs h.slots (h.world.trans hc.world) rfl

/-- The code from `B` to `B'` comes to its end and leaves everything untouched, or the run is over in
the world it started from. -/
def Harmless (M : Machine Val World) (B B' : Builder) : Prop :=
  ∀ F st, Extends B'.fn F →
    (∃ tr st', F.Trace M (here B) st tr (here B') st' ∧ Untouched B st st') ∨
      ∃ tr q st', F.Trace M (here B) st tr q st' ∧ F.Finishes M q st' (.fault st.world)

namespace Harmless

/-- No code. -/
theorem of_same (hfn : B'.fn = B.fn) (hbb : B'.bb = B.bb) : Harmless M B B' := by
  intro F st _
  have hhere : here B' = here B := by rw [here, here, hfn, hbb]
  exact .inl ⟨[], st, hhere ▸ .refl _ _, .refl B st⟩

/-- One after the other. -/
theorem trans (h : Harmless M B B₁) (hs : Step B B₁) (h' : Harmless M B₁ B₂) (hs' : Step B₁ B₂) :
    Harmless M B B₂ := by
  intro F st hF
  rcases h F st (hs'.ext.trans hF) with ⟨tr, st₁, htr, hun⟩ | hover
  · rcases h' F st₁ hF with ⟨tr', st₂, htr', hun'⟩ | ⟨tr', q, st₂, htr', hfin⟩
    · refine .inl ⟨_, st₂, htr.trans htr', hun'.slots.trans hun.slots, hun'.world.trans hun.world, ?_⟩
      exact fun i hi => (hun'.regs i (Nat.lt_of_lt_of_le hi hs.ext.next)).trans (hun.regs i hi)
    · exact .inr ⟨_, q, st₂, htr.trans htr', hun.world ▸ hfin⟩
  · exact .inr hover

end Harmless

/-! ## The operations of the builder -/

/-- An operation, a load or a division writes to its own register, or the run is over. -/
theorem execInstr_harmless (hM : Lawful M) {i : InstrId}
    (hop : (F.instr i).op.isPure = true ∨ (F.instr i).op = .load ∨ (F.instr i).op = .sdiv)
    (st : State Val World) :
    F.execInstr M i st = none ∨ ∃ v, F.execInstr M i st = some (setReg st i v) := by
  have heffect (hlaw : ∀ w r, M.effect (F.instr i).op (F.instr i).ty
      ((F.instr i).operands.map (eval M st)) w = some r → r.2 = w) :
      F.execEffect M i st = none ∨ ∃ v, F.execEffect M i st = some (setReg st i v) := by
    rw [Func.execEffect_eq]
    cases h : M.effect (F.instr i).op (F.instr i).ty ((F.instr i).operands.map (eval M st))
        st.world with
    | none => exact .inl rfl
    | some r =>
      have hw : r.2 = (setReg st i r.1).world := hlaw _ r h
      exact .inr ⟨r.1, by rw [Option.map_some, hw]⟩
  rcases hop with hop | hop | hop
  · exact .inr ⟨_, Func.execInstr_pure hop st⟩
  · unfold Func.execInstr
    simp only [hop]
    split
    · exact .inr ⟨_, rfl⟩
    · exact heffect fun w r => hop ▸ hM.load _ _ w r
  · rw [Func.execInstr_beyond (.inl hop)]
    exact heffect fun w r => hop ▸ hM.sdiv _ _ w r

theorem create_harmless (hM : Lawful M) {op : OpID} {ty : Ty} {l : List Value} {c : CmpOp}
    (hop : op.isPure = true ∨ op = .load ∨ op = .sdiv) : Harmless M B (B.create op ty l c) := by
  intro F st hF
  obtain ⟨-, hinstr⟩ := emit_stands hF
  have hx : ({ op := op, ty := ty, operands := l, parent := B.bb, cmpOp := c } :
      Instr).isTerminator = false := by
    rcases hop with hop | rfl | rfl
    · cases op <;> simp_all [Instr.isTerminator, OpID.isPure]
    · rfl
    · rfl
  rcases @execInstr_harmless _ _ M F hM B.fn.next (by rw [hinstr]; exact hop) st with hnone | ⟨v, hv⟩
  · exact .inr ⟨[], _, st, .refl _ _, emit_finishes hF hx hnone⟩
  · exact .inl ⟨_, _, emit_trace hF hx hv, .setReg B st v⟩

theorem createLoad_harmless (hM : Lawful M) {ptr : Value} (h : B.createLoad ptr = .ok B') :
    Harmless M B B' := by
  obtain ⟨t, -, rfl⟩ := createLoad_ok h
  exact create_harmless hM (.inr (.inl rfl))

theorem createGep_harmless (hM : Lawful M) {ptr : Value} {idxs : List Value}
    (h : B.createGep ptr idxs = .ok B') : Harmless M B B' := by
  obtain ⟨e, t, -, -, rfl⟩ := createGep_ok h
  exact create_harmless hM (.inl rfl)

theorem convert_harmless (hM : Lawful M) {v : Value} {ty : Ty} (h : B.convert v ty = .ok B') :
    Harmless M B B' := by
  rcases convert_ok h with ⟨rfl, -⟩ | ⟨op, rfl, hop⟩ | ⟨e, -, -, h | h⟩
  · exact .of_same rfl rfl
  · refine create_harmless hM (.inl ?_)
    rcases hop with ⟨rfl, -⟩ | ⟨rfl, -⟩ | ⟨rfl, -⟩ <;> rfl
  · exact createGep_harmless hM h
  · exact createLoad_harmless hM h

theorem binary_harmless (hM : Lawful M) {intOp floatOp : OpID} {intTy floatTy : Ty} {c : CmpOp}
    {lhs rhs : Value} (hr : Ready B) (hint : intOp.isPure = true ∨ intOp = .sdiv)
    (hfloat : floatOp.isPure = true ∨ floatOp = .sdiv)
    (h : B.binary intOp floatOp intTy floatTy c lhs rhs = .ok B') : Harmless M B B' := by
  obtain ⟨t, op, ty, B₁, B₂, h₁, h₂, rfl, hcase⟩ := binary_ok h
  have hs₁ := convert_step hr h₁
  have hs₂ := convert_step hs₁.ready h₂
  have hs₃ := hs₂.ready.step (create_grows B₂ op ty [B₁.val, B₂.val] c)
    (create_keeps B₂ op ty [B₁.val, B₂.val] c).stays
  have hop : op.isPure = true ∨ op = .load ∨ op = .sdiv := by
    rcases hcase with ⟨-, -, hop, -⟩ | ⟨-, -, hop, -⟩
    · exact hop ▸ hint.imp_right .inr
    · exact hop ▸ hfloat.imp_right .inr
  exact ((convert_harmless hM h₁).trans hs₁ (convert_harmless hM h₂) hs₂).trans (hs₁.trans hs₂)
    (create_harmless hM hop) hs₃

theorem checkIndex_harmless (hM : Lawful M) {offset : Value} (hr : Ready B) (hv : Visible Γ B)
    (h : B.checkIndex offset = .ok B') : Harmless M B B' := by
  intro F st hF
  rcases checkIndex_trace hM hr hv hF h st with ⟨-, tr, v, htr⟩ | ⟨-, hover⟩
  · exact .inl ⟨tr, _, htr, .setReg B st v⟩
  · exact .inr hover

theorem elementAddress_harmless (hM : Lawful M) {ptr : Option Value} {offset : Value} (hr : Ready B)
    (h : B.elementAddress ptr offset = .ok B') : Harmless M B B' := by
  unfold elementAddress at h
  split at h
  · cases h
  · split at h
    · exact createGep_harmless hM h
    · obtain ⟨B₁, h₁, h₂⟩ := bind_ok.mp h
      have hs₁ := hr.step (createLoad_grows h₁) (createLoad_keeps h₁).stays
      exact (createLoad_harmless hM h₁).trans hs₁ (createGep_harmless hM h₂)
        (hs₁.ready.step (createGep_straight h₂).grows (createGep_keeps h₂).stays)
    · cases h
      exact .of_same rfl rfl
    · cases h

theorem finishVar_harmless (hM : Lawful M) {ptr : Value} (h : B.finishVar ptr = .ok B') :
    Harmless M B B' := by
  unfold finishVar at h
  split_ifs at h
  · cases h
    exact .of_same rfl rfl
  · exact createLoad_harmless hM h

/-! ## Expressions -/

/-- The visit of `a` emits code that does no harm. -/
def VisitHarmless (M : Machine Val World) (Γ : Context) {k : Kind} (a : Ast k) : Prop :=
  ∀ B B', visit a B = .ok B' → Ready B → Visible Γ B → Harmless M B B'

/-- A node with two operands. -/
theorem operands_harmless (hM : Lawful M) {k k' : Kind} {l : Ast k} {r : Ast k'} {intOp floatOp : OpID}
    {intTy floatTy : Ty} {c : CmpOp} (hk : k.isValue = true) (hk' : k'.isValue = true)
    (hl : VisitHarmless M Γ l) (hr' : VisitHarmless M Γ r) (hr : Ready B) (hv : Visible Γ B)
    (hint : intOp.isPure = true ∨ intOp = .sdiv) (hfloat : floatOp.isPure = true ∨ floatOp = .sdiv)
    (h : (do
      let B₁ ← visit l B
      let B₂ ← visit r B₁
      B₂.binary intOp floatOp intTy floatTy c B₁.val B₂.val) = .ok B') : Harmless M B B' := by
  obtain ⟨B₁, h₁, h⟩ := bind_ok.mp h
  obtain ⟨B₂, h₂, h₃⟩ := bind_ok.mp h
  have hs₁ := visit_step hk h₁ hr
  have hs₂ := visit_step hk' h₂ hs₁.ready
  have hs₃ := hs₂.ready.step (binary_grows h₃) (binary_keeps h₃).stays
  have hboth := (hl B B₁ h₁ hr hv).trans hs₁
    (hr' B₁ B₂ h₂ hs₁.ready (hv.keeps hs₁.ext hs₁.keeps)) hs₂
  exact hboth.trans (hs₁.trans hs₂) (binary_harmless hM hs₂.ready hint hfloat h₃) hs₃

/-- **An expression without effects does no harm.** -/
theorem visit_harmless (hM : Lawful M) {k : Kind} (a : Ast k) :
    k.isValue = true → a.hasEffect = false → VisitHarmless M Γ a := by
  induction a with
  | intNum i | floatNum x =>
    intro _ _ B B' h _ _
    cases h
    exact .of_same rfl rfl
  | group e ih | simple l ih | term t ih | factor f ih | var v ih => exact ih
  | relation l op r ihl ihr =>
    intro _ heff B B' h hr hv
    obtain ⟨hl, hr'⟩ := Bool.or_eq_false_iff.mp heff
    exact operands_harmless hM rfl rfl (ihl rfl hl) (ihr rfl hr') hr hv (.inl rfl) (.inl rfl) h
  | additive l op r ihl ihr =>
    intro _ heff B B' h hr hv
    obtain ⟨hl, hr'⟩ := Bool.or_eq_false_iff.mp heff
    exact operands_harmless hM rfl rfl (ihl rfl hl) (ihr rfl hr') hr hv
      (addOp_onIntegers op ▸ op.quiet.1) (addOp_onFloats op ▸ op.quiet.2) h
  | multiplicative l op r ihl ihr =>
    intro _ heff B B' h hr hv
    obtain ⟨hl, hr'⟩ := Bool.or_eq_false_iff.mp heff
    exact operands_harmless hM rfl rfl (ihl rfl hl) (ihr rfl hr') hr hv
      (mulOp_onIntegers op ▸ op.quiet.1) (mulOp_onFloats op ▸ op.quiet.2) h
  | ident id =>
    intro _ _ B B' h _ _
    unfold visit at h
    split at h
    · cases h
    · exact finishVar_harmless hM h
  | element id e ih =>
    intro _ heff B B' h hr hv
    obtain ⟨B₁, h₁, h⟩ := bind_ok.mp h
    obtain ⟨B₂, h₂, h⟩ := bind_ok.mp h
    obtain ⟨B₃, h₃, h⟩ := bind_ok.mp h
    obtain ⟨B₄, h₄, h₅⟩ := bind_ok.mp h
    have hs₀ := setAddressOnly_step hr false
    have hs₁ := visit_step rfl h₁ hs₀.ready
    have hback := setAddressOnly_step hs₁.ready B.addressOnly
    have hs₂ := convert_step hback.ready h₂
    have hs₃ := checkIndex_step hs₂.ready h₃
    have hs₄ := hs₃.ready.step (elementAddress_grows h₄) (elementAddress_keeps h₄).stays
    have hs₅ := hs₄.ready.step (finishVar_grows h₅) (finishVar_keeps h₅).stays
    have hv₁ := hv.keeps hs₀.ext hs₀.keeps
    have hs₀₁ := hs₀.trans (hs₁.trans hback)
    have hs₀₂ := hs₀₁.trans hs₂
    have hs₀₃ := hs₀₂.trans hs₃
    have hset : Harmless M B (B.setAddressOnly false) := .of_same rfl rfl
    have hinner : Harmless M B (B₁.setAddressOnly B.addressOnly) :=
      (hset.trans hs₀ (ih rfl heff _ B₁ h₁ hs₀.ready hv₁) hs₁).trans (hs₀.trans hs₁)
        (.of_same rfl rfl) hback
    have hoffset := hinner.trans hs₀₁ (convert_harmless hM h₂) hs₂
    have hcheck := hoffset.trans hs₀₂
      (checkIndex_harmless hM hs₂.ready (hv.keeps hs₀₂.ext hs₀₂.keeps) h₃) hs₃
    exact (hcheck.trans hs₀₃ (elementAddress_harmless hM hs₃.ready h₄) hs₄).trans
      (hs₀₃.trans hs₄) (finishVar_harmless hM h₅) hs₅
  | assign v e | call id args =>
    intro _ heff
    cases heff
  | _ =>
    intro hk
    cases hk

end Cminusfc.Frontend
