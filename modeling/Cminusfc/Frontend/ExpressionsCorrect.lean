import Cminusfc.Frontend.EffectFree
import Cminusfc.Frontend.Flags

/-!
# Expressions mean what is emitted for them

`Evaluates`, `Finds` and `Passes` say of an expression, a variable and a list of arguments that the
instructions their visit emits compute their meaning, in every function that goes on from there.
`visit(ASTAssignExpression)` visits the right-hand side first (`assign_computes`). In the order of the
meaning the result is the same where nothing is found before it that the right-hand side changes
(`assign_order`).

Result: `visit_correct`, by induction over the nodes.

About `src/cminusfc/cminusf_builder.cpp` 275-407. Out of scope: what `Ast.denote` with `strict` leaves
undefined.
-/

namespace Cminusfc.Frontend

open LightIR
open LightIR.Func (eval Computes)
open LightIR.Run (defined)
open Fallible (bind_ok)
open Builder

variable {Val World : Type} {M : Machine Val World} {Γ : Context} {addr : Nat → Val} {n : Nat}
  {B B' B₁ B₂ : Builder} {F : Func} {σ : Store Val World} {st st' : State Val World}

/-! ## Frames of calls -/

theorem Visible.setFrame (h : Visible Γ B) (c : CallFrame) : Visible Γ (B.setFrame c) :=
  ⟨h.globals, h.callee, h.except, h.returnType, h.result⟩

theorem Corresponds.setFrame (h : Corresponds Γ B σ st) (c : CallFrame) :
    Corresponds Γ (B.setFrame c) σ st :=
  ⟨h.visible.setFrame c, h.world,
    h.frames.mono (Extends.refl _) (fun _ _ => rfl) fun _ _ _ _ _ => rfl⟩

/-- The execution of what leads from `B` to `B'` has left the arguments `r.1` and the store `r.2`. -/
structure Passed (M : Machine Val World) (Γ : Context) (B B' : Builder) (st : State Val World)
    (r : List Val × Store Val World) (q : Point) (st' : State Val World) : Prop where
  point : q = here B'
  corr : Corresponds Γ B' r.2 st'
  args : ∃ vs, B'.frame = { B.frame with args := B.frame.args ++ vs } ∧
    (∀ v ∈ vs, B'.Known v) ∧ vs.map (eval M st') = r.1
  regs : ∀ i < B.fn.next, st'.regs i = st.regs i

/-! ## What is shown of the nodes of each kind -/

section Statements

variable (M : Machine Val World) (Γ : Context) (n : Nat)

/-- The visit of `a` emits what computes `m`. -/
def Evaluates {k : Kind} (a : Ast k)
    (m : Store Val World → Run Val World (Typed Val × Store Val World)) : Prop :=
  ∀ B B', visit a B = .ok B' → Ready B → B.addressOnly = false →
    ∀ F σ st, Extends B'.fn F → Corresponds Γ B σ st →
      F.Computes M n (here B) st (m σ) (Evaluated M Γ B B' st)

/-- The visit of `v` emits what computes the address `m`, and ends with `finishVar`. -/
def Finds (v : Ast .var) (m : Store Val World → Run Val World (LValue Val × Store Val World)) :
    Prop :=
  ∀ B B', visit v B = .ok B' → Ready B → ∃ B₁ ptr, Step B B₁ ∧
    B₁.addressOnly = B.addressOnly ∧ B₁.finishVar ptr = .ok B' ∧
    ∀ F σ st, Extends B₁.fn F → Corresponds Γ B σ st →
      F.Computes M n (here B) st (m σ) (Located M Γ B B₁ ptr st)

/-- The visit of `a` emits what computes the rest of the arguments. -/
def Passes (a : Ast .args)
    (m : List Ty → Store Val World → Run Val World (List Val × Store Val World)) : Prop :=
  ∀ B B', visit a B = .ok B' → Ready B → Ready B' ∧ Extends B.fn B'.fn ∧
    ∀ F σ st, Extends B'.fn F → Corresponds Γ B σ st →
      F.Computes M n (here B) st (m (B.frame.params.drop B.frame.args.length) σ)
        (Passed M Γ B B' st)

/-- What is shown of a node. -/
def Kind.Correct (addr : Nat → Val) : (k : Kind) → Ast k → Prop
  | .expression, a => Evaluates M Γ n a (a.denote true M Γ addr n)
  | .additive, a => Evaluates M Γ n a (a.denote true M Γ addr n)
  | .term, a => Evaluates M Γ n a (a.denote true M Γ addr n)
  | .factor, a => Evaluates M Γ n a (a.denote true M Γ addr n)
  | .var, a => Finds M Γ n a (a.denote true M Γ addr n)
  | .args, a => Passes M Γ n a (a.denote true M Γ addr n)
  | .statement, _ => True
  | .statements, _ => True

end Statements

/-! ## Numbers and operations -/

/-- A number. -/
theorem setVal_evaluated {v : Value} {t : Ty} {a : Val} (hc : Corresponds Γ B σ st)
    (husable : B.Usable v) (htype : B.typeOf v = t) (hval : eval M st v = a) :
    Evaluated M Γ B (B.setVal v) st (⟨t, some a⟩, σ) (here B) st where
  point := rfl
  corr := hc.keep (Extends.refl _) (setVal_keeps B v)
  holds := ⟨⟨husable.known, husable.type⟩, htype, fun _ hb => hval.trans (Option.some.inj hb)⟩
  regs _ _ := rfl

/-- A node with two operands: the second is visited behind the first. -/
theorem operands_compute {k k' : Kind} {l : Ast k} {r : Ast k'}
    {ml mr : Store Val World → Run Val World (Typed Val × Store Val World)}
    {g : Typed Val → Typed Val → Store Val World → Run Val World (Typed Val × Store Val World)}
    (hk : k.isValue = true) (hk' : k'.isValue = true) (hke : k.inExpression = true)
    (hl : Evaluates M Γ n l ml) (hr' : Evaluates M Γ n r mr)
    (h₁ : visit l B = .ok B₁) (h₂ : visit r B₁ = .ok B₂) (hs : Step B₂ B') (hr : Ready B)
    (haddr : B.addressOnly = false) (hF : Extends B'.fn F) (hc : Corresponds Γ B σ st)
    (hg : ∀ a b σ st, Corresponds Γ B₂ σ st → Holds M B₂ st B₁.val a → Holds M B₂ st B₂.val b →
      F.Computes M n (here B₂) st (g a b σ) (Evaluated M Γ B₂ B' st)) :
    F.Computes M n (here B) st
      (do
        let a ← ml σ
        let b ← mr a.2
        g a.1 b.1 b.2)
      (Evaluated M Γ B B' st) := by
  have hs₁ := visit_step hk h₁ hr
  have hs₂ := visit_step hk' h₂ hs₁.ready
  have hF₂ := hs.ext.trans hF
  refine (hl B B₁ h₁ hr haddr F σ st (hs₂.ext.trans hF₂) hc).bind ?_
  rintro a q st₁ ha
  obtain rfl := ha.point
  have haddr₁ := visit_addressOnly hke h₁ haddr
  refine (hr' B₁ B₂ h₂ hs₁.ready haddr₁ F a.2 st₁ hF₂ ha.corr).bind ?_
  rintro b q st₂ hb
  obtain rfl := hb.point
  refine (hg a.1 b.1 b.2 st₂ hb.corr (ha.holds.step hs₂ hb.regs) hb.holds).mono (Nat.le_refl n) ?_
  exact fun r q st' h => (h.behind hs₂.ext hb.regs).behind hs₁.ext ha.regs

theorem addOp_isOperation (op : AddOp) :
    (op.intOp.isPure = true ∨ op.intOp = .sdiv ∨ op.intOp = .call) ∧
      (op.floatOp.isPure = true ∨ op.floatOp = .sdiv ∨ op.floatOp = .call) := by
  cases op <;> decide

theorem mulOp_isOperation (op : MulOp) :
    (op.intOp.isPure = true ∨ op.intOp = .sdiv ∨ op.intOp = .call) ∧
      (op.floatOp.isPure = true ∨ op.floatOp = .sdiv ∨ op.floatOp = .call) := by
  cases op <;> decide

/-! ## Variables -/

theorem setAddressOnly_corresponds (hc : Corresponds Γ B σ st) (b : Bool) :
    Corresponds Γ (B.setAddressOnly b) σ st :=
  hc.keep (Extends.refl _) (setAddressOnly_keeps B b)

/-- The value of a variable. -/
theorem var_evaluates {v : Ast .var}
    {m : Store Val World → Run Val World (LValue Val × Store Val World)} (h : Finds M Γ n v m) :
    Evaluates M Γ n (.var v) (fun σ => do
      let x ← m σ
      Semantics.read M x.1 x.2) := by
  intro B B' hvisit hr haddr F σ st hF hc
  obtain ⟨B₁, ptr, hs₁, haddr₁, hfinish, hcomputes⟩ := h B B' hvisit hr
  have hload : B₁.createLoad ptr = .ok B' := by
    unfold finishVar at hfinish
    rwa [haddr₁, haddr, if_neg Bool.false_ne_true] at hfinish
  have hs' := hs₁.ready.step (createLoad_grows hload) (createLoad_keeps hload).stays
  refine (hcomputes F σ st (hs'.ext.trans hF) hc).bind ?_
  rintro x q st₁ hloc
  obtain rfl := hloc.point
  refine (read_computes hs₁.ready hloc.corr hF hload hloc.loc).mono (Nat.le_refl n) ?_
  exact fun r q st' h => h.behind hs₁.ext hloc.regs

theorem ident_finds (id : String) : Finds M Γ n (.ident id) (fun σ => do
    let x ← Semantics.find M Γ id σ
    .ok (x, σ)) := by
  intro B B' h hr
  unfold visit at h
  split at h
  · cases h
  · rename_i ptr hptr
    refine ⟨B, ptr, ⟨Extends.refl _, Keeps.refl B, hr⟩, rfl, h, fun F σ st hF hc => ?_⟩
    refine (find_computes hr hc hptr).bind ?_
    rintro x q st' ⟨rfl, rfl, hloc⟩
    exact .pure ⟨rfl, hc, hloc, fun _ _ => rfl⟩

theorem element_finds (hM : Lawful M) {id : String} {e : Ast .expression}
    {m : Store Val World → Run Val World (Typed Val × Store Val World)}
    (he : Evaluates M Γ n e m) : Finds M Γ n (.element id e) (fun σ => do
      let i ← m σ
      let a ← defined i.1.value
      let a ← Semantics.convert M true i.1.type .int32 a
      let σ ← Semantics.checkIndex M a i.2
      let x ← Semantics.elementAt M Γ id a σ
      .ok (x, σ)) := by
  intro B B' h hr
  obtain ⟨B₁, h₁, h⟩ := bind_ok.mp h
  obtain ⟨B₂, h₂, h⟩ := bind_ok.mp h
  obtain ⟨B₃, h₃, h⟩ := bind_ok.mp h
  obtain ⟨B₄, h₄, h₅⟩ := bind_ok.mp h
  have hs₀ := setAddressOnly_step hr false
  have hs₁ := visit_step rfl h₁ hs₀.ready
  have hback := setAddressOnly_step hs₁.ready B.addressOnly
  have hs₂ := convert_step hback.ready h₂
  have hs₃ := checkIndex_step hs₂.ready h₃
  have hs₄ := hs₃.ready.step (elementAddress_grows h₄) (elementAddress_keeps h₄).stays
  have hs₀₁ := hs₀.trans (hs₁.trans hback)
  have hall := hs₀₁.trans (hs₂.trans (hs₃.trans hs₄))
  have hconverted := convert_addressOnly h₂
  have haddr : B₄.addressOnly = B.addressOnly :=
    (elementAddress_addressOnly h₄).trans ((checkIndex_addressOnly h₃).trans hconverted)
  refine ⟨B₄, B₄.val, hall, haddr, h₅, fun F σ st hF hc => ?_⟩
  obtain ⟨ptr, hptr⟩ : ∃ ptr, B.scope.find id = some ptr := by
    cases hfind : B.scope.find id with
    | none =>
      rw [hfind] at h₄
      cases h₄
    | some ptr => exact ⟨ptr, rfl⟩
  have hF₃ := hs₄.ext.trans hF
  have hF₂ := hs₃.ext.trans hF₃
  -- the subscript
  refine (he _ B₁ h₁ hs₀.ready rfl F σ st (hs₂.ext.trans hF₂)
    (setAddressOnly_corresponds hc _)).bind ?_
  rintro i q st₁ hi
  obtain rfl := hi.point
  refine Computes.defined fun a ha => ?_
  have hval : Holds M (B₁.setAddressOnly B.addressOnly) st₁ B₁.val ⟨i.1.type, some a⟩ :=
    (hi.holds.step hback fun _ _ => rfl).some ha
  refine (convert_computes hback.ready (setAddressOnly_corresponds hi.corr _) (hs₃.ext.trans hF₃)
    h₂ hval).bind ?_
  rintro a' q st₂ hconv
  obtain rfl := hconv.point
  -- the check of it
  refine (checkIndex_computes hM hs₂.ready hconv.corr hF₃ h₃ hconv.holds).bind ?_
  rintro σ' q st₃ hcheck
  obtain rfl := hcheck.point
  -- the address
  rw [hptr] at h₄
  have hscope : B₃.scope.find id = some ptr := by
    rw [hs₃.keeps.scope, hs₂.keeps.scope, hs₀₁.keeps.scope]
    exact hptr
  have hoff := hconv.holds.step hs₃ hcheck.regs
  refine (elementAddress_computes hs₃.ready hcheck.corr hF hscope h₄ hoff).mono (Nat.le_refl n) ?_
  intro r q st' h
  exact ((h.behind hs₃.ext hcheck.regs).behind hs₂.ext hconv.regs).behind hs₀₁.ext hi.regs

/-! ## Assignments and calls -/

/-- The visit of an assignment evaluates the right-hand side first. -/
theorem assign_computes {v : Ast .var} {e : Ast .expression}
    {mv : Store Val World → Run Val World (LValue Val × Store Val World)}
    {me : Store Val World → Run Val World (Typed Val × Store Val World)}
    (hv : Finds M Γ n v mv) (he : Evaluates M Γ n e me) :
    Evaluates M Γ n (.assign v e) (fun σ => do
      let r ← me σ
      let x ← mv r.2
      Semantics.write M true x.1 r.1 x.2) := by
  intro B B' h hr haddr F σ st hF hc
  obtain ⟨B₁, h₁, h⟩ := bind_ok.mp h
  obtain ⟨B₂, h₂, h₃⟩ := bind_ok.mp h
  have hs₁ := visit_step rfl h₁ hr
  have hmark := setAddressOnly_step hs₁.ready true
  obtain ⟨B₃, ptr, hs₃, haddr₃, hfinish, hcomputes⟩ := hv _ B₂ h₂ hmark.ready
  obtain rfl : B₂ = B₃.setVal ptr := by
    unfold finishVar at hfinish
    rw [haddr₃] at hfinish
    exact (Except.ok.inj hfinish).symm
  have hset : Step B₃ (B₃.setVal ptr) :=
    hs₃.ready.step (Grows.of_same rfl rfl) (setVal_keeps B₃ ptr).stays
  have hs' := hset.ready.step (assignTo_grows h₃) (assignTo_keeps h₃).stays
  have hF₃ : Extends B₃.fn F := hs'.ext.trans hF
  have hF₁ : Extends B₁.fn F := hs₃.ext.trans hF₃
  refine (he B B₁ h₁ hr haddr F σ st hF₁ hc).bind ?_
  rintro r q st₁ hrhs
  obtain rfl := hrhs.point
  refine (hcomputes F r.2 st₁ hF₃ (setAddressOnly_corresponds hrhs.corr true)).bind ?_
  rintro ⟨x, σ'⟩ q st₂ hloc
  obtain rfl := hloc.point
  have hcorr : Corresponds Γ (B₃.setVal ptr) σ' st₂ :=
    hloc.corr.keep (Extends.refl _) (setVal_keeps B₃ ptr)
  have hloc' : Locates M (B₃.setVal ptr) st₂ σ' ptr x := by
    have hloc₂ : Locates M B₃ st₂ σ' ptr x := hloc.loc
    cases hloc₂ with
    | named hid hscope hfind => exact .named hid hscope hfind
    | memory hplain hty hval hcell =>
      exact .memory ⟨hplain.known, hplain.type⟩ ((hset.typeOf hplain.known).trans hty) hval hcell
  have hvalue : Holds M (B₃.setVal ptr) st₂ B₁.val r.1 :=
    (hrhs.holds.step (hmark.trans hs₃) hloc.regs).step hset fun _ _ => rfl
  refine (write_computes hset.ready hcorr hF h₃ hloc' hvalue).mono (Nat.le_refl n) ?_
  exact fun r q st' h => (h.behind hs₃.ext hloc.regs).behind hs₁.ext hrhs.regs

/-- Where the program is over on the left, a right-hand side that does no harm makes no difference. -/
theorem assign_stops {v : Ast .var} {e : Ast .expression}
    {mv : Store Val World → Run Val World (LValue Val × Store Val World)}
    (hv : Finds M Γ n v mv) (he : VisitHarmless M Γ e) (h : visit (.assign v e) B = .ok B')
    (hr : Ready B) (hF : Extends B'.fn F) (hc : Corresponds Γ B σ st) {o : Outcome Val World}
    (ho : o = .fault σ.world) (hstop : mv σ = .error (.done o)) :
    ∃ tr q st', F.Trace M (here B) st tr q st' ∧ F.Finishes M q st' o := by
  obtain ⟨B₁, h₁, h⟩ := bind_ok.mp h
  obtain ⟨B₂, h₂, h₃⟩ := bind_ok.mp h
  have hs₁ := visit_step rfl h₁ hr
  have hmark := setAddressOnly_step hs₁.ready true
  have hs₂ := visit_step rfl h₂ hmark.ready
  have hs' := hs₂.ready.step (assignTo_grows h₃) (assignTo_keeps h₃).stays
  obtain ⟨B₃, ptr, hs₃, -, hfinish, hcomputes⟩ := hv _ B₂ h₂ hmark.ready
  have hs₄ := hs₃.ready.step (finishVar_grows hfinish) (finishVar_keeps hfinish).stays
  have hF₃ : Extends B₃.fn F := (hs₄.ext.trans hs'.ext).trans hF
  subst ho
  rcases he B B₁ h₁ hr hc.visible F st (hs₃.ext.trans hF₃) with ⟨tr, st₁, htr, hun⟩ | hover
  · have hfound := hcomputes F σ st₁ hF₃ (setAddressOnly_corresponds (hun.corresponds hc hs₁) true)
    rw [hstop] at hfound
    obtain ⟨tr', q, st₂, htr', hfin⟩ := hfound
    exact ⟨_, q, st₂, htr.trans htr', hfin⟩
  · exact hc.world ▸ hover

/-- What is found on the left may be looked for afterwards if what the right-hand side does makes no
difference to it. -/
theorem assign_order {mv : Store Val World → Run Val World (LValue Val × Store Val World)}
    {me : Store Val World → Run Val World (Typed Val × Store Val World)} {q : Point}
    {P : Typed Val × Store Val World → Point → State Val World → Prop}
    (hcode : F.Computes M n q st (do
      let r ← me σ
      let x ← mv r.2
      Semantics.write M true x.1 r.1 x.2) P)
    (hstop : ∀ f, mv σ = .error f → F.Computes M n q st (.error f) P)
    (hfound : ∀ x, mv σ = .ok x → x.2 = σ ∧ ∀ r, me σ = .ok r → mv r.2 = .ok (x.1, r.2)) :
    F.Computes M n q st (do
      let x ← mv σ
      let r ← me x.2
      Semantics.write M true x.1 r.1 r.2) P := by
  cases hx : mv σ with
  | error f => exact hstop f hx
  | ok x =>
    obtain ⟨hσ, hlater⟩ := hfound x hx
    rw [Fallible.ok_bind, hσ]
    cases hr : me σ with
    | error f =>
      rw [hr] at hcode
      exact hcode
    | ok r =>
      rw [hr, Fallible.ok_bind, hlater r hr] at hcode
      exact hcode

/-- The variable with a name is the same where the types in scope are. -/
theorem find_congr {id : String} {σ₁ : Store Val World} (h : σ₁.types = σ.types) :
    Semantics.find M Γ id σ₁ = Semantics.find M Γ id σ := by
  have hfind : (σ₁.frames.find id).map Typed.type = (σ.frames.find id).map Typed.type := by
    rw [← Frames.types_find, ← Frames.types_find]
    exact congrArg (Scopes.find · id) h
  unfold Semantics.find
  split_ifs
  · rfl
  · cases h₁ : σ₁.frames.find id <;> cases h₂ : σ.frames.find id <;> simp [h₁, h₂] at hfind
    · rfl
    · dsimp only
      rw [hfind]

/-- **An assignment**, in the order of the meaning. -/
theorem assign_evaluates (hM : Lawful M) {v : Ast .var} {e : Ast .expression}
    (hv : Finds M Γ n v (v.denote true M Γ addr n))
    (he : Evaluates M Γ n e (e.denote true M Γ addr n)) :
    Evaluates M Γ n (.assign v e) ((Ast.assign v e).denote true M Γ addr n) := by
  intro B B' h hr haddr F σ st hF hc
  have hcode := assign_computes hv he B B' h hr haddr F σ st hF hc
  rw [Ast.denote]
  split_ifs with hcross
  · trivial
  cases v with
  | ident id =>
    refine assign_order hcode (fun f hstop => ?_) fun x hx => ?_
    · obtain rfl : f = .undefined :=
        Semantics.undefined_bind (fun _ => Semantics.find_undefined) (fun x _ h => by cases h) hstop
      trivial
    · obtain ⟨y, hy, hxy⟩ := bind_ok.mp hx
      obtain rfl := Except.ok.inj hxy
      refine ⟨rfl, fun r hr => bind_ok.mpr ⟨y, ?_, rfl⟩⟩
      rw [find_congr (denote_types e σ r hr)]
      exact hy
  | element id i =>
    -- neither side has an effect
    have hpure : (Ast.element id i).hasEffect = false ∧ e.hasEffect = false := by
      simpa [Ast.crosses, Ast.isElement] using hcross
    have hfind : Quiet σ ((Ast.element id i).denote true M Γ addr n σ) :=
      denote_quiet hM (.element id i) hpure.1 σ
    refine assign_order hcode (fun f hstop => ?_) fun x hx => ?_
    · rw [hstop] at hfind
      cases f with
      | undefined => trivial
      | outOfFuel => exact hfind.elim
      | done o => exact assign_stops hv (visit_harmless hM e rfl hpure.2) h hr hF hc hfind hstop
    · rw [hx] at hfind
      refine ⟨hfind, fun r hr => ?_⟩
      have hkeep : Quiet σ (e.denote true M Γ addr n σ) := denote_quiet hM e hpure.2 σ
      rw [hr] at hkeep
      obtain ⟨x, σ'⟩ := x
      obtain rfl : σ' = σ := hfind
      rw [show r.2 = σ' from hkeep, hx]

theorem call_evaluates {id : String} {args : Ast .args}
    {m : List Ty → Store Val World → Run Val World (List Val × Store Val World)}
    (ha : Passes M Γ n args m) : Evaluates M Γ n (.call id args) (fun σ => do
      let t ← defined (Γ.callee id)
      let vs ← m t.params σ
      let v ← Semantics.effect M .call t.ret (M.const (.function id) :: vs.1) vs.2
      .ok (⟨t.ret, some v.1⟩, v.2)) := by
  intro B B' h hr _ F σ st hF hc
  obtain ⟨⟨f, t⟩, hcallee, h⟩ := bind_ok.mp h
  obtain ⟨B₁, h₁, h⟩ := bind_ok.mp h
  obtain ⟨B₂, h₂, h⟩ := bind_ok.mp h
  cases h
  refine Computes.defined fun t' ht' => ?_
  obtain ⟨rfl, rfl⟩ : f = id ∧ t = t' := by
    have heq := hcallee.symm.trans (hc.visible.callee id t' ht')
    simpa using heq
  obtain ⟨hret, hparams⟩ := hr.declared.callee hcallee
  have hframe : Ready (B.setFrame ⟨t.params, []⟩) := by
    have hd := hr.declared
    refine ⟨(setFrame_grows B _ hr.wf).1, ⟨hr.inside.scope, hr.inside.enterInFunDecl⟩, ?_⟩
    exact ⟨fun m hm p hp => (hd.scope m hm p hp).mono (Extends.refl _) rfl, hd.globals, hd.types,
      hparams, nofun⟩
  obtain ⟨hr₁, hx₁, hcomputes⟩ := ha _ B₁ h₁ hframe
  obtain rfl : B₂ = B₁.create .call t.ret (.function f :: B₁.frame.args) .EQ := by
    unfold createCall at h₂
    split_ifs at h₂
    exact (Except.ok.inj h₂).symm
  have hx := (create_grows B₁ .call t.ret (.function f :: B₁.frame.args) .EQ hr₁.wf).2
  have hF₁ : Extends B₁.fn F := hx.trans hF
  refine (hcomputes F σ st hF₁ (hc.setFrame _)).bind ?_
  rintro vs q st₁ hpassed
  obtain rfl := hpassed.point
  have hvals : (Value.function f :: B₁.frame.args).map (eval M st₁) =
      M.const (.function f) :: vs.1 := by
    obtain ⟨l, hframe, -, hl⟩ := hpassed.args
    have hargs : B₁.frame.args = l := by rw [hframe]; rfl
    rw [hargs, List.map_cons, hl]
    rfl
  have hcall : F.Computes M n (here B₁) st₁
      (Semantics.effect M .call t.ret ((Value.function f :: B₁.frame.args).map (eval M st₁)) vs.2) _ :=
    @operation_executed _ _ M Γ n B₁ F vs.2 st₁ .call t.ret (.function f :: B₁.frame.args) .EQ hr₁
      hpassed.corr hF (.inr (.inr rfl))
  rw [hvals] at hcall
  refine hcall.bind fun v q st' hdone => ?_
  have heval := (hdone.create (M := M) (.inr hret)).behind hx₁ hpassed.regs
  have hknown := heval.holds.usable
  refine .pure ⟨heval.point, heval.corr.setFrame _, ⟨⟨hknown.known, hknown.type⟩, ?_, ?_⟩, heval.regs⟩
  · exact heval.holds.type
  · exact heval.holds.value

/-! ## Arguments -/

/-- A name that is passed is not loaded. -/
theorem visit_asIdent {k : Kind} (a : Ast k) {id : String} (h : a.asIdent = some id) :
    visit a B = visit (.ident id) B := by
  induction a with
  | simple l ih | term t ih | factor f ih | group e ih | var v ih => exact ih h
  | ident id' =>
    obtain rfl := Option.some.inj h
    rfl
  | _ => cases h

theorem noArgs_passes : Passes M Γ n .noArgs fun ts σ =>
    if ts = [] then .ok ([], σ) else .error .undefined := by
  intro B B' h hr
  cases h
  refine ⟨hr, Extends.refl _, fun F σ st hF hc => ?_⟩
  dsimp only
  split_ifs
  · exact .pure ⟨rfl, hc, ⟨[], by simp, by simp, rfl⟩, fun _ _ => rfl⟩
  · trivial

/-- The arguments behind one that is pushed. -/
theorem rest_passes {C : Builder} {rest : Ast .args} {t : Ty} {v : Val} {q : Point}
    {st₁ : State Val World}
    {m : List Ty → Store Val World → Run Val World (List Val × Store Val World)}
    (hsC : Step B C) (hB₂ : B₂ = C.setFrame { C.frame with args := C.frame.args ++ [C.val] })
    (hr₂ : Ready B₂) (hrest : Passes M Γ n rest m) (h₃ : visit rest B₂ = .ok B')
    (hF : Extends B'.fn F) (hev : Evaluated M Γ B C st (⟨t, some v⟩, σ) q st₁) :
    F.Computes M n q st₁
      (do
        let vs ← m (B.frame.params.drop B.frame.args.length).tail σ
        .ok (v :: vs.1, vs.2))
      (Passed M Γ B B' st) := by
  obtain rfl := hev.point
  obtain ⟨-, hx, hcomputes⟩ := hrest B₂ B' h₃ hr₂
  have hframe : B₂.frame = { B.frame with args := B.frame.args ++ [C.val] } := by
    rw [hB₂, ← hsC.keeps.frame]
    rfl
  have hhere : here B₂ = here C := by rw [hB₂]; rfl
  have hnext : B₂.fn.next = C.fn.next := by rw [hB₂]; rfl
  have hcorr : Corresponds Γ B₂ σ st₁ := hB₂ ▸ hev.corr.setFrame _
  have htail : (B.frame.params.drop B.frame.args.length).tail =
      B₂.frame.params.drop B₂.frame.args.length := by
    rw [hframe, List.tail_drop, List.length_append]
    rfl
  rw [htail, ← hhere]
  refine (hcomputes F σ st₁ hF hcorr).bind ?_
  rintro vs q st₂ hp
  obtain ⟨l, hl, hknown, hvals⟩ := hp.args
  have hval : C.Known C.val := hev.holds.usable.known
  have hfn : B₂.fn = C.fn := by rw [hB₂]; rfl
  rw [hfn] at hx
  refine .pure ⟨hp.point, hp.corr, ⟨C.val :: l, ?_, ?_, ?_⟩, fun i hi => ?_⟩
  · rw [hl, hframe]
    simp
  · exact List.forall_mem_cons.mpr ⟨hval.mono hx, hknown⟩
  · have hsame : eval M st₂ C.val = eval M st₁ C.val :=
      eval_known hval fun i hi => hp.regs i (hfn ▸ hi)
    rw [List.map_cons, hvals, hsame, hev.holds.value v rfl]
  · have hi' : i < C.fn.next := Nat.lt_of_lt_of_le hi hsC.ext.next
    exact (hp.regs i (hfn ▸ hi')).trans (hev.regs i hi)

theorem arg_passes {e : Ast .expression} {rest : Ast .args}
    {me : Store Val World → Run Val World (Typed Val × Store Val World)}
    {m : List Ty → Store Val World → Run Val World (List Val × Store Val World)}
    (he : Evaluates M Γ n e me) (hrest : Passes M Γ n rest m) :
    Passes M Γ n (.arg e rest) (fun ts σ => do
      let t ← defined ts.head?
      if t.isPointer then do
        let id ← defined e.asIdent
        let v ← Semantics.passArray M Γ id σ
        let vs ← m ts.tail σ
        .ok (v :: vs.1, vs.2)
      else do
        let r ← me σ
        let a ← defined r.1.value
        let v ← Semantics.convert M true r.1.type t a
        let vs ← m ts.tail r.2
        .ok (v :: vs.1, vs.2)) := by
  intro B B' h hr
  obtain ⟨t, ht, h⟩ := bind_ok.mp h
  obtain ⟨B₁, h₁, h⟩ := bind_ok.mp h
  obtain ⟨B₂, h₂, h₃⟩ := bind_ok.mp h
  have hnext : B.frame.params[B.frame.args.length]? = some t := by
    unfold nextParam at ht
    split at ht
    · rename_i t' ht'
      rw [ht', Except.ok.inj ht]
    · cases ht
  have hdeclared : t.isDeclared = true := hr.declared.params t (List.mem_of_getElem? hnext)
  have hmark := setAddressOnly_step hr t.isPointer
  have hs₁ := hmark.trans (visit_step rfl h₁ hmark.ready)
  obtain ⟨husable, -⟩ := visit_type e rfl _ B₁ h₁ hmark.ready
  obtain ⟨hr₂, hx₂, -, -⟩ := pushArg_ready hs₁.ready h₂ husable hdeclared
  obtain ⟨C, hC, hB₂⟩ := bind_ok.mp h₂
  have hunmark := setAddressOnly_step hs₁.ready false
  have hsC := hs₁.trans (hunmark.trans (convert_step hunmark.ready hC))
  have hB₂ : B₂ = C.setFrame { C.frame with args := C.frame.args ++ [C.val] } :=
    (Except.ok.inj hB₂).symm
  obtain ⟨hr', hx', -⟩ := hrest B₂ B' h₃ hr₂
  refine ⟨hr', hsC.ext.trans ?_, fun F σ st hF hc => ?_⟩
  · rw [hB₂] at hx'
    exact hx'
  have hFC : Extends C.fn F := by
    rw [hB₂] at hx'
    exact Extends.trans hx' hF
  have hhead : (B.frame.params.drop B.frame.args.length).head? = some t := by
    rw [List.head?_drop]
    exact hnext
  refine Computes.defined fun t' ht' => ?_
  obtain rfl : t = t' := Option.some.inj (hhead.symm.trans ht')
  split_ifs with hptr
  · -- an array is passed by its address
    refine Computes.defined fun id hid => ?_
    rw [hptr, visit_asIdent e hid] at h₁
    unfold visit at h₁
    split at h₁
    · cases h₁
    · rename_i ptr hfind
      obtain rfl : B₁ = (B.setAddressOnly true).setVal ptr := (Except.ok.inj h₁).symm
      have hcorr : Corresponds Γ (((B.setAddressOnly true).setVal ptr).setAddressOnly false) σ st :=
        hc.keep (Extends.refl _) (hs₁.keeps.trans hunmark.keeps)
      refine (passArray_computes hunmark.ready hcorr hFC hfind hC hptr).bind ?_
      rintro v q st₁ ⟨ty, hev⟩
      have hev' : Evaluated M Γ B C st (⟨ty, some v⟩, σ) q st₁ :=
        ⟨hev.point, hev.corr, hev.holds, hev.regs⟩
      exact rest_passes hsC hB₂ hr₂ hrest h₃ hF hev'
  · rw [Bool.not_eq_true] at hptr
    rw [hptr] at h₁
    have hF₁ : Extends B₁.fn F := (convert_step hunmark.ready hC).ext.trans hFC
    refine (he _ B₁ h₁ (setAddressOnly_step hr false).ready rfl F σ st hF₁
      (setAddressOnly_corresponds hc _)).bind ?_
    rintro r q st₁ hr₁
    obtain rfl := hr₁.point
    refine Computes.defined fun a ha => ?_
    have hval := (hr₁.holds.step hunmark fun _ _ => rfl).some ha
    refine (convert_computes hunmark.ready (setAddressOnly_corresponds hr₁.corr _) hFC hC hval).bind ?_
    rintro v q st₂ hconv
    have hev : Evaluated M Γ B C st (⟨t, some v⟩, r.2) q st₂ :=
      Evaluated.behind ⟨hconv.point, hconv.corr, hconv.holds, hconv.regs⟩ hs₁.ext hr₁.regs
    exact rest_passes hsC hB₂ hr₂ hrest h₃ hF hev

/-! ## All of them -/

/-- **Expressions mean what is emitted for them.** -/
theorem visit_correct (hM : Lawful M) {k : Kind} (a : Ast k) : k.Correct M Γ n addr a := by
  induction a with
  | intNum i | floatNum x =>
    intro B B' h hr _ F σ st hF hc
    cases h
    exact .pure (setVal_evaluated hc ⟨nofun, .inr rfl⟩ rfl rfl)
  | group e ih | simple l ih | term t ih | factor f ih => exact ih
  | var v ih => exact var_evaluates ih
  | relation l op r ihl ihr =>
    intro B B' h hr haddr F σ st hF hc
    obtain ⟨B₁, h₁, h⟩ := bind_ok.mp h
    obtain ⟨B₂, h₂, h₃⟩ := bind_ok.mp h
    have hr₂ := (visit_step rfl h₂ (visit_step rfl h₁ hr).ready).ready
    have hs := hr₂.step (binary_grows h₃) (binary_keeps h₃).stays
    refine operands_compute rfl rfl rfl ihl ihr h₁ h₂ hs hr haddr hF hc ?_
    intro a b σ st hc hl hrhs
    rw [← relOp_relation]
    exact binary_computes hr₂ hc hF h₃ hl hrhs (.inl rfl) (.inl rfl) (.inl rfl) (.inl rfl)
  | additive l op r ihl ihr =>
    intro B B' h hr haddr F σ st hF hc
    obtain ⟨B₁, h₁, h⟩ := bind_ok.mp h
    obtain ⟨B₂, h₂, h₃⟩ := bind_ok.mp h
    have hr₂ := (visit_step rfl h₂ (visit_step rfl h₁ hr).ready).ready
    have hs := hr₂.step (binary_grows h₃) (binary_keeps h₃).stays
    obtain ⟨hint, hfloat⟩ := addOp_isOperation op
    refine operands_compute rfl rfl rfl ihl ihr h₁ h₂ hs hr haddr hF hc ?_
    intro a b σ st hc hl hrhs
    rw [← addOp_onIntegers, ← addOp_onFloats]
    exact binary_computes hr₂ hc hF h₃ hl hrhs (.inr rfl) (.inr rfl) hint hfloat
  | multiplicative l op r ihl ihr =>
    intro B B' h hr haddr F σ st hF hc
    obtain ⟨B₁, h₁, h⟩ := bind_ok.mp h
    obtain ⟨B₂, h₂, h₃⟩ := bind_ok.mp h
    have hr₂ := (visit_step rfl h₂ (visit_step rfl h₁ hr).ready).ready
    have hs := hr₂.step (binary_grows h₃) (binary_keeps h₃).stays
    obtain ⟨hint, hfloat⟩ := mulOp_isOperation op
    refine operands_compute rfl rfl rfl ihl ihr h₁ h₂ hs hr haddr hF hc ?_
    intro a b σ st hc hl hrhs
    rw [← mulOp_onIntegers, ← mulOp_onFloats]
    exact binary_computes hr₂ hc hF h₃ hl hrhs (.inr rfl) (.inr rfl) hint hfloat
  | ident id => exact ident_finds id
  | element id e ih => exact element_finds hM ih
  | assign v e ihv ihe => exact assign_evaluates hM ihv ihe
  | call id args ih => exact call_evaluates ih
  | noArgs => exact noArgs_passes
  | arg e rest ihe ihrest => exact arg_passes ihe ihrest
  | _ => trivial

end Cminusfc.Frontend
