import Cminusfc.Frontend.Stores

/-!
# Where the code agrees with the language document

About three departures of `src/cminusfc/cminusf_builder.cpp` from `Documentations/common/cminusf.md`:
the value of a comparison that becomes a `float` (`src/cminusfc/utils.cpp`, lines 20-44), the value of
an assignment and the order in it (lines 306-315).

* `Ast.staticType`: the type of a node, from the types in scope.
* `Ast.agreed`: no comparison is converted to `float`, no value of an assignment is used that stores
  a converted number, and in an assignment to an element neither the subscript nor the right-hand
  side has an effect.
* `denote_agreed`: for such a node `Ast.denote` with `strict` is the meaning, where there is one.

Out of scope: which of these conditions a program could do without.
-/

namespace Cminusfc.Frontend

open LightIR
open LightIR.Run (defined)
open Semantics

/-! ## The condition -/

section Condition

variable (Γ : Context)

/-- The type of a variable. -/
def Scopes.typeOf (T : Scopes) (id : String) : Ty := ((T.find id).or (Γ.globals id)).getD .void

namespace Ast

/-- The type of an expression or a variable. -/
def staticType (T : Scopes) : {k : Kind} → Ast k → Ty
  | _, .intNum _ => .int32
  | _, .floatNum _ => .float
  | _, .group e => e.staticType T
  | _, .var v => v.staticType T
  | _, .simple l => l.staticType T
  | _, .term t => t.staticType T
  | _, .factor f => f.staticType T
  | _, .relation _ _ _ => .int1
  | _, .additive l _ t =>
    if (l.staticType T).isInteger && (t.staticType T).isInteger then .int32 else .float
  | _, .multiplicative l _ f =>
    if (l.staticType T).isInteger && (f.staticType T).isInteger then .int32 else .float
  | _, .ident id => T.typeOf Γ id
  | _, .element id _ =>
    match T.typeOf Γ id with
    | .array t _ => t
    | .pointer t => t
    | _ => .void
  | _, .assign v _ => v.staticType T
  | _, .call id _ => ((Γ.callee id).map FunctionType.ret).getD .void
  | _, _ => .void

/-- The node is an assignment that stores a converted number. -/
def converts (T : Scopes) : {k : Kind} → Ast k → Bool
  | _, .group e => e.converts T
  | _, .simple l => l.converts T
  | _, .term t => t.converts T
  | _, .factor f => f.converts T
  | _, .assign v e => e.staticType Γ T != v.staticType Γ T
  | _, _ => false

/-- The node may be used as a number of type `t`. -/
def usableAs (T : Scopes) {k : Kind} (a : Ast k) (t : Ty) : Bool :=
  !a.converts Γ T && !(a.staticType Γ T == .int1 && t == .float)

/-- Two nodes may be used as operands. -/
def operands (T : Scopes) {k k' : Kind} (l : Ast k) (r : Ast k') : Bool :=
  let t := if (l.staticType Γ T).isInteger && (r.staticType Γ T).isInteger then .int32 else .float
  l.usableAs Γ T t && r.usableAs Γ T t

/-- The code of the node agrees with the language document. `T` has the types in scope, `params`
those of the parameters that the arguments are for. -/
def agreed : {k : Kind} → Ast k → (T : Scopes) → (params : List Ty) → Bool
  | _, .group e, T, _ => e.agreed T []
  | _, .var v, T, _ => v.agreed T []
  | _, .simple l, T, _ => l.agreed T []
  | _, .term t, T, _ => t.agreed T []
  | _, .factor f, T, _ => f.agreed T []
  | _, .relation l _ r, T, _ => l.agreed T [] && r.agreed T [] && operands Γ T l r
  | _, .additive l _ t, T, _ => l.agreed T [] && t.agreed T [] && operands Γ T l t
  | _, .multiplicative l _ f, T, _ => l.agreed T [] && f.agreed T [] && operands Γ T l f
  | _, .element _ e, T, _ => e.agreed T [] && e.usableAs Γ T .int32
  | _, .assign v e, T, _ =>
    !crosses v e && v.agreed T [] && e.agreed T [] && e.usableAs Γ T (v.staticType Γ T)
  | _, .call id args, T, _ =>
    match Γ.callee id with
    | some t => args.agreed T t.params
    | none => true
  | _, .arg e rest, T, t :: ts =>
    (t.isPointer || e.agreed T [] && e.usableAs Γ T t) && rest.agreed T ts
  | _, .expressionStmt e, T, _ => e.agreed T []
  | _, .compoundStmt ds ss, T, _ => ss.agreed (T.enter.declareAll ds) []
  | _, .stmt s rest, T, _ => s.agreed T [] && rest.agreed T []
  | _, .selectionStmt e s, T, _ => e.agreed T [] && !e.converts Γ T && s.agreed T []
  | _, .selectionElseStmt e s t, T, _ =>
    e.agreed T [] && !e.converts Γ T && s.agreed T [] && t.agreed T []
  | _, .iterationStmt e s, T, _ => e.agreed T [] && !e.converts Γ T && s.agreed T []
  | _, .returnStmt e, T, _ => e.agreed T [] && e.usableAs Γ T Γ.returnType
  | _, _, _, _ => true

end Ast

/-- The code of the function agrees with the language document. -/
def FunDeclaration.agreed (d : FunDeclaration) : Bool :=
  d.statementList.agreed Γ
    ((Scopes.parameters d.params [fun _ => none]).declareAll d.localDeclarations) []

end Condition

variable {Val World α β α' β' : Type} {M : Machine Val World} {Γ : Context} {addr : Nat → Val}
  {n : Nat} {σ σ' : Store Val World} {T : Scopes}

/-! ## Computations that agree -/

/-- Where the first computation is defined, the second comes to a related end. -/
def Matched (P : α → α' → Prop) (r : Run Val World α) (r' : Run Val World α') : Prop :=
  match r with
  | .ok a => ∃ a', r' = .ok a' ∧ P a a'
  | .error .undefined => True
  | .error h => r' = .error h

namespace Matched

variable {P : α → α' → Prop} {Q : β → β' → Prop} {r : Run Val World α} {r' : Run Val World α'}

theorem bind {f : α → Run Val World β} {f' : α' → Run Val World β'} (h : Matched P r r')
    (hf : ∀ a a', r = .ok a → P a a' → Matched Q (f a) (f' a')) :
    Matched Q (r >>= f) (r' >>= f') := by
  cases r with
  | ok a =>
    obtain ⟨a', rfl, hP⟩ := h
    exact hf a a' rfl hP
  | error e =>
    cases e with
    | undefined => trivial
    | done o =>
      obtain rfl : r' = .error (.done o) := h
      rfl
    | outOfFuel =>
      obtain rfl : r' = .error .outOfFuel := h
      rfl

/-- The same computation first. -/
theorem after {r : Run Val World α} {f : α → Run Val World β} {f' : α → Run Val World β'}
    (hf : ∀ a, r = .ok a → Matched Q (f a) (f' a)) : Matched Q (r >>= f) (r >>= f') := by
  cases r with
  | ok a => exact hf a rfl
  | error e => cases e <;> trivial

theorem same {P : α → α → Prop} {r : Run Val World α} (h : ∀ a, r = .ok a → P a a) :
    Matched P r r := by
  cases r with
  | ok a => exact ⟨a, rfl, h a rfl⟩
  | error e => cases e <;> trivial

theorem mono {P' : α → α' → Prop} (h : Matched P r r') (hP : ∀ a a', r = .ok a → P a a' → P' a a') :
    Matched P' r r' := by
  cases r with
  | ok a =>
    obtain ⟨a', hr, ha⟩ := h
    exact ⟨a', hr, hP a a' rfl ha⟩
  | error e => cases e <;> exact h

end Matched

/-! ## Operations -/

/-- The numbers of one type may be used as numbers of the other. -/
def Converts (t t' : Ty) : Prop := ¬ (t = .int1 ∧ t' = .float)

theorem convert_strict {t t' : Ty} (h : Converts t t') (v : Val) :
    convert M true t t' v = convert M false t t' v := by
  unfold convert
  split
  all_goals try rfl
  exact absurd ⟨rfl, rfl⟩ h

theorem operateAt_strict {t ty : Ty} {op : OpID} {c : CmpOp} {x y : Typed Val}
    (hx : Converts x.type t) (hy : Converts y.type t) :
    operateAt M true t op c ty x y σ = operateAt M false t op c ty x y σ := by
  simp only [operateAt, convert_strict hx, convert_strict hy]

theorem operateAt_type {strict : Bool} {t ty : Ty} {op : OpID} {c : CmpOp} {x y : Typed Val}
    {r : Typed Val × Store Val World} (h : operateAt M strict t op c ty x y σ = .ok r) :
    r.1.type = ty := by
  obtain ⟨a, -, h⟩ := Fallible.bind_ok.mp h
  obtain ⟨a', -, h⟩ := Fallible.bind_ok.mp h
  obtain ⟨b, -, h⟩ := Fallible.bind_ok.mp h
  obtain ⟨b', -, h⟩ := Fallible.bind_ok.mp h
  obtain ⟨v, -, h⟩ := Fallible.bind_ok.mp h
  cases h
  rfl

/-- What is known of the value of a node and of that which the code computes. -/
structure SameValue (t : Ty) (converts : Bool) (x x' : Typed Val × Store Val World) : Prop where
  type : x.1.type = t
  store : x'.2 = x.2
  value : converts = false → x'.1 = x.1

theorem SameValue.eq {t : Ty} {x x' : Typed Val × Store Val World} (h : SameValue t false x x') :
    x' = x := Prod.ext (h.value rfl) h.store

/-- A value that may be used. -/
theorem Matched.value {t : Ty} {Q : β → β' → Prop}
    {r r' : Run Val World (Typed Val × Store Val World)}
    {f : Typed Val × Store Val World → Run Val World β}
    {f' : Typed Val × Store Val World → Run Val World β'} {converts : Bool}
    (h : Matched (SameValue t converts) r r') (hc : converts = false)
    (hf : ∀ x, r = .ok x → x.1.type = t → Matched Q (f x) (f' x)) :
    Matched Q (r >>= f) (r' >>= f') := by
  subst hc
  refine h.bind fun x x' hx hsame => ?_
  rw [hsame.eq]
  exact hf x hx hsame.type

/-- An operation whose operands may be used. -/
theorem operate_matched {intOp floatOp : OpID} {intTy floatTy : Ty} {c : CmpOp} {x y : Typed Val}
    (hx : Converts x.type (if x.type.isInteger && y.type.isInteger then .int32 else .float))
    (hy : Converts y.type (if x.type.isInteger && y.type.isInteger then .int32 else .float)) :
    Matched (SameValue (if x.type.isInteger && y.type.isInteger then intTy else floatTy) false)
      (operate M false intOp floatOp intTy floatTy c x y σ)
      (operate M true intOp floatOp intTy floatTy c x y σ) := by
  unfold operate
  split_ifs at hx hy ⊢
  · rw [operateAt_strict hx hy]
    exact .same fun r h => ⟨operateAt_type h, rfl, fun _ => rfl⟩
  · rw [operateAt_strict hx hy]
    exact .same fun r h => ⟨operateAt_type h, rfl, fun _ => rfl⟩

/-- The variable with a name has the type that it has in scope. -/
theorem find_type {id : String} {x : LValue Val} (hT : σ.types = T) (h : find M Γ id σ = .ok x) :
    x.type = T.typeOf Γ id := by
  have hfind : T.find id = (σ.frames.find id).map Typed.type := by
    rw [← hT]
    exact Frames.types_find _ _
  unfold find at h
  unfold Scopes.typeOf
  rw [hfind]
  split_ifs at h
  split at h
  · rename_i y hy
    cases h
    rw [hy]
    rfl
  · rename_i hy
    rw [hy]
    split at h
    · rename_i t ht
      cases h
      rw [ht]
      rfl
    · cases h

theorem array_type {id : String} {a : Ty × Val} (hT : σ.types = T)
    (h : array M Γ id σ = .ok a) : a.1 = T.typeOf Γ id := by
  obtain ⟨x, hx, h⟩ := Fallible.bind_ok.mp h
  rw [← find_type hT hx]
  split at h
  · obtain ⟨v, -, h⟩ := Fallible.bind_ok.mp h
    cases h
    rfl
  · split_ifs at h
    cases h
    rfl

theorem elementAt_type {id : String} {e : Ast .expression} {i : Val} {x : LValue Val}
    (hT : σ.types = T) (h : elementAt M Γ id i σ = .ok x) :
    x.type = (Ast.element id e).staticType Γ T := by
  obtain ⟨⟨t, p⟩, ha, h⟩ := Fallible.bind_ok.mp h
  rw [Ast.staticType, ← array_type hT ha]
  cases t with
  | array t m | pointer t =>
    cases h
    rfl
  | _ => cases h

theorem read_matched {x : LValue Val} :
    Matched (SameValue x.type false) (Semantics.read M x σ) (Semantics.read M x σ) := by
  refine .same fun r h => ⟨?_, rfl, fun _ => rfl⟩
  unfold Semantics.read at h
  split at h
  · split_ifs at h
    cases h
    rfl
  · split_ifs at h
    obtain ⟨v, -, h⟩ := Fallible.bind_ok.mp h
    cases h
    rfl

/-- An assignment. -/
theorem write_matched {x : LValue Val} {r : Typed Val} (h : Converts r.type x.type) :
    Matched (SameValue x.type (r.type != x.type)) (write M false x r σ) (write M true x r σ) := by
  unfold write
  refine .after fun a _ => ?_
  rw [convert_strict h]
  refine .after fun v _ => .after fun σ' _ => ⟨_, rfl, ?_, rfl, fun hsame => ?_⟩
  · simp
  · have heq : r.type = x.type := by simpa using hsame
    simp [heq]

theorem condition_matched {m m' : Store Val World → Run Val World (Typed Val × Store Val World)}
    {t : Ty} {converts : Bool} (h : Matched (SameValue t converts) (m σ) (m' σ))
    (hc : converts = false) : Matched Eq (condition M m σ) (condition M m' σ) :=
  h.value hc fun _ _ _ => .same fun _ _ => rfl

/-- A loop, from any store with the types `T`. -/
theorem loop_matched {test test' : Store Val World → Run Val World (Bool × Store Val World)}
    {body body' : Store Val World → Run Val World (Store Val World)}
    (htest : ∀ σ, σ.types = T → Matched Eq (test σ) (test' σ))
    (hkeep : ∀ σ r, test σ = .ok r → r.2.types = σ.types)
    (hbody : ∀ σ, σ.types = T → Matched Eq (body σ) (body' σ))
    (hkeep' : ∀ σ σ', body σ = .ok σ' → σ'.types = σ.types) :
    ∀ (n : Nat) (σ : Store Val World), σ.types = T →
      Matched Eq (Run.loop test body n σ) (Run.loop test' body' n σ) := by
  intro n
  induction n with
  | zero => exact fun σ _ => rfl
  | succ n ih =>
    intro σ hT
    refine (htest σ hT).bind ?_
    rintro r r' hr rfl
    have hT₁ : r.2.types = T := (hkeep σ r hr).trans hT
    split_ifs
    · refine (hbody _ hT₁).bind ?_
      rintro σ₁ σ₂ hσ₁ rfl
      exact ih σ₁ ((hkeep' _ _ hσ₁).trans hT₁)
    · exact .same fun _ _ => rfl

/-! ## Nodes -/

/-- What is shown of a node. -/
def Kind.Agrees (M : Machine Val World) (Γ : Context) (addr : Nat → Val) (n : Nat) :
    (k : Kind) → Ast k → Prop
  | .expression, a => ∀ σ : Store Val World, a.agreed Γ σ.types [] = true →
      Matched (SameValue (a.staticType Γ σ.types) (a.converts Γ σ.types))
        (a.denote false M Γ addr n σ) (a.denote true M Γ addr n σ)
  | .additive, a => ∀ σ : Store Val World, a.agreed Γ σ.types [] = true →
      Matched (SameValue (a.staticType Γ σ.types) (a.converts Γ σ.types))
        (a.denote false M Γ addr n σ) (a.denote true M Γ addr n σ)
  | .term, a => ∀ σ : Store Val World, a.agreed Γ σ.types [] = true →
      Matched (SameValue (a.staticType Γ σ.types) (a.converts Γ σ.types))
        (a.denote false M Γ addr n σ) (a.denote true M Γ addr n σ)
  | .factor, a => ∀ σ : Store Val World, a.agreed Γ σ.types [] = true →
      Matched (SameValue (a.staticType Γ σ.types) (a.converts Γ σ.types))
        (a.denote false M Γ addr n σ) (a.denote true M Γ addr n σ)
  | .var, a => ∀ σ : Store Val World, a.agreed Γ σ.types [] = true →
      Matched (fun x x' => x' = x ∧ x.1.type = a.staticType Γ σ.types)
        (a.denote false M Γ addr n σ) (a.denote true M Γ addr n σ)
  | .args, a => ∀ (ts : List Ty) (σ : Store Val World), a.agreed Γ σ.types ts = true →
      Matched Eq (a.denote false M Γ addr n ts σ) (a.denote true M Γ addr n ts σ)
  | .statement, a => ∀ (k : Nat) (σ : Store Val World), a.agreed Γ σ.types [] = true →
      Matched Eq (a.denote false M Γ addr n k σ) (a.denote true M Γ addr n k σ)
  | .statements, a => ∀ (k : Nat) (σ : Store Val World), a.agreed Γ σ.types [] = true →
      Matched Eq (a.denote false M Γ addr n k σ) (a.denote true M Γ addr n k σ)

theorem Ast.usableAs_iff {k : Kind} {a : Ast k} {t : Ty} :
    a.usableAs Γ T t = true ↔ a.converts Γ T = false ∧ Converts (a.staticType Γ T) t := by
  simp [Ast.usableAs, Converts, imp_iff_not_or]

/-- A node with two operands. -/
theorem operands_matched {k k' : Kind} {l : Ast k} {r : Ast k'}
    {ml ml' mr mr' : Store Val World → Run Val World (Typed Val × Store Val World)}
    {intOp floatOp : OpID} {intTy floatTy : Ty} {c : CmpOp}
    (hl : Matched (SameValue (l.staticType Γ σ.types) (l.converts Γ σ.types)) (ml σ) (ml' σ))
    (hkeep : ∀ x, ml σ = .ok x → x.2.types = σ.types)
    (hr : ∀ σ', σ'.types = σ.types →
      Matched (SameValue (r.staticType Γ σ.types) (r.converts Γ σ.types)) (mr σ') (mr' σ'))
    (hops : Ast.operands Γ σ.types l r = true) :
    Matched (SameValue (if (l.staticType Γ σ.types).isInteger && (r.staticType Γ σ.types).isInteger
        then intTy else floatTy) false)
      (do
        let a ← ml σ
        let b ← mr a.2
        operate M false intOp floatOp intTy floatTy c a.1 b.1 b.2)
      (do
        let a ← ml' σ
        let b ← mr' a.2
        operate M true intOp floatOp intTy floatTy c a.1 b.1 b.2) := by
  obtain ⟨hul, hur⟩ := Bool.and_eq_true_iff.mp hops
  obtain ⟨hcl, hul⟩ := Ast.usableAs_iff.mp hul
  obtain ⟨hcr, hur⟩ := Ast.usableAs_iff.mp hur
  refine hl.value hcl fun x hx htype => (hr x.2 (hkeep x hx)).value hcr fun y _ htype' => ?_
  rw [← htype, ← htype'] at hul hur ⊢
  exact operate_matched hul hur

theorem defined_ok {o : Option α} {a : α} (h : (defined o : Run Val World α) = .ok a) :
    o = some a := by
  cases o with
  | none => cases h
  | some b => exact congrArg some (Except.ok.inj h)

theorem denote_assign {strict : Bool} {v : Ast .var} {e : Ast .expression}
    (h : strict = false ∨ Ast.crosses v e = false) (σ : Store Val World) :
    (Ast.assign v e).denote strict M Γ addr n σ = (do
      let x ← v.denote strict M Γ addr n σ
      let r ← e.denote strict M Γ addr n x.2
      write M strict x.1 r.1 r.2) := by
  rw [Ast.denote]
  exact if_neg (by rcases h with h | h <;> simp [h])

/-- **Where the conditions hold, the code agrees with the meaning of the nodes.** -/
theorem denote_agrees {k : Kind} (a : Ast k) : k.Agrees M Γ addr n a := by
  induction a with
  | intNum i | floatNum x => exact fun σ _ => ⟨_, rfl, rfl, rfl, fun _ => rfl⟩
  | group e ih | simple l ih | term t ih | factor f ih => exact ih
  | var v ih =>
    intro σ h
    refine (ih σ h).bind ?_
    rintro x x' - ⟨rfl, hty⟩
    have hread := @read_matched _ _ M x'.2 x'.1
    rw [hty] at hread
    exact hread
  | relation l op r ihl ihr =>
    intro σ h
    obtain ⟨hlr, hops⟩ := Bool.and_eq_true_iff.mp h
    obtain ⟨hl, hr⟩ := Bool.and_eq_true_iff.mp hlr
    refine (operands_matched (ihl σ hl) (denote_types l σ) (fun σ' hT => ?_) hops).mono ?_
    · rw [← hT] at hr ⊢
      exact ihr σ' hr
    · exact fun x x' _ hx => ⟨hx.type.trans (ite_self _), hx.store, hx.value⟩
  | additive l op r ihl ihr | multiplicative l op r ihl ihr =>
    intro σ h
    obtain ⟨hlr, hops⟩ := Bool.and_eq_true_iff.mp h
    obtain ⟨hl, hr⟩ := Bool.and_eq_true_iff.mp hlr
    refine operands_matched (ihl σ hl) (denote_types l σ) (fun σ' hT => ?_) hops
    rw [← hT] at hr ⊢
    exact ihr σ' hr
  | ident id =>
    intro σ _
    refine .after fun x hx => ⟨_, rfl, rfl, ?_⟩
    exact find_type rfl hx
  | element id e ih =>
    intro σ h
    obtain ⟨he, hu⟩ := Bool.and_eq_true_iff.mp h
    obtain ⟨hc, -⟩ := Ast.usableAs_iff.mp hu
    refine (ih σ he).value hc fun i hi _ => .after fun a _ => ?_
    have hint : Converts i.1.type .int32 := fun hno => nomatch hno.2
    rw [convert_strict hint]
    refine .after fun b _ => .after fun σ₁ hσ₁ => .after fun x hx => ⟨_, rfl, rfl, ?_⟩
    exact elementAt_type ((checkIndex_types hσ₁).trans (denote_types e σ i hi)) hx
  | assign v e ihv ihe =>
    intro σ h
    obtain ⟨h, hu⟩ := Bool.and_eq_true_iff.mp h
    obtain ⟨h, he⟩ := Bool.and_eq_true_iff.mp h
    obtain ⟨hcross, hv⟩ := Bool.and_eq_true_iff.mp h
    obtain ⟨hc, hu⟩ := Ast.usableAs_iff.mp hu
    rw [Bool.not_eq_true'] at hcross
    rw [denote_assign (.inl rfl), denote_assign (.inr hcross)]
    refine (ihv σ hv).bind ?_
    rintro x x' hx ⟨rfl, hty⟩
    have hrhs := ihe x'.2
    rw [denote_types v σ x' hx] at hrhs
    refine (hrhs he).value hc fun y _ htype => ?_
    rw [← htype, ← hty] at hu
    have hwrite := @write_matched _ _ M y.2 x'.1 y.1 hu
    rw [htype, hty] at hwrite
    exact hwrite
  | call id args ih =>
    intro σ h
    refine .after fun t ht => ?_
    have hcallee := defined_ok ht
    rw [Ast.agreed, hcallee] at h
    refine (ih t.params σ h).bind ?_
    rintro vs vs' - rfl
    refine .after fun v _ => ⟨_, rfl, ?_, rfl, fun _ => rfl⟩
    rw [Ast.staticType, hcallee]
    rfl
  | noArgs => exact fun ts σ _ => .same fun _ _ => rfl
  | arg e rest ihe ihrest =>
    intro ts σ h
    cases ts with
    | nil => trivial
    | cons t ts =>
      obtain ⟨he, hrest⟩ := Bool.and_eq_true_iff.mp h
      refine .after fun t' ht => ?_
      obtain rfl : t = t' := Option.some.inj (defined_ok ht)
      split_ifs with hp
      · refine .after fun id _ => .after fun v _ => (ihrest ts σ hrest).bind ?_
        rintro vs vs' - rfl
        exact .same fun _ _ => rfl
      · obtain ⟨he, hu⟩ := Bool.and_eq_true_iff.mp
          ((Bool.or_eq_true_iff.mp he).resolve_left hp)
        obtain ⟨hc, hu⟩ := Ast.usableAs_iff.mp hu
        refine (ihe σ he).value hc fun x hx htype => .after fun a _ => ?_
        rw [convert_strict (htype.symm ▸ hu)]
        refine .after fun v _ => ?_
        have hT := denote_types e σ x hx
        refine (ihrest ts x.2 (hT.symm ▸ hrest)).bind ?_
        rintro vs vs' - rfl
        exact .same fun _ _ => rfl
  | emptyStmt | noStmts | returnVoidStmt => exact fun k σ _ => .same fun _ _ => rfl
  | expressionStmt e ih =>
    intro k σ h
    refine (ih σ h).bind fun x x' _ hsame => ?_
    rw [hsame.store]
    exact .same fun _ _ => rfl
  | compoundStmt ds ss ih =>
    intro k σ h
    refine .after fun σ₁ hσ₁ => ?_
    have hT : σ₁.types = Scopes.declareAll ds σ.types.enter := declarations_types hσ₁
    refine (ih (k + ds.length) σ₁ (hT.symm ▸ h)).bind ?_
    rintro σ₂ σ₂' - rfl
    exact .same fun _ _ => rfl
  | stmt s rest ihs ihrest =>
    intro k σ h
    obtain ⟨hs, hrest⟩ := Bool.and_eq_true_iff.mp h
    refine (ihs k σ hs).bind ?_
    rintro σ₁ σ₂ hσ₁ rfl
    exact ihrest _ σ₁ ((denote_types s k σ σ₁ hσ₁).symm ▸ hrest)
  | selectionStmt e s ihe ihs =>
    intro k σ h
    obtain ⟨h, hs⟩ := Bool.and_eq_true_iff.mp h
    obtain ⟨he, hc⟩ := Bool.and_eq_true_iff.mp h
    refine (condition_matched (ihe σ he) ((Bool.not_eq_true' _).mp hc)).bind ?_
    rintro r r' hr rfl
    have hT := condition_types (denote_types e) hr
    split_ifs
    · exact ihs k r.2 (hT.symm ▸ hs)
    · exact .same fun _ _ => rfl
  | selectionElseStmt e s t ihe ihs iht =>
    intro k σ h
    obtain ⟨h, ht⟩ := Bool.and_eq_true_iff.mp h
    obtain ⟨h, hs⟩ := Bool.and_eq_true_iff.mp h
    obtain ⟨he, hc⟩ := Bool.and_eq_true_iff.mp h
    refine (condition_matched (ihe σ he) ((Bool.not_eq_true' _).mp hc)).bind ?_
    rintro r r' hr rfl
    have hT := condition_types (denote_types e) hr
    split_ifs
    · exact ihs k r.2 (hT.symm ▸ hs)
    · exact iht _ r.2 (hT.symm ▸ ht)
  | iterationStmt e s ihe ihs =>
    intro k σ h
    obtain ⟨h, hs⟩ := Bool.and_eq_true_iff.mp h
    obtain ⟨he, hc⟩ := Bool.and_eq_true_iff.mp h
    refine loop_matched (fun σ' hT => ?_) (fun _ _ hr => condition_types (denote_types e) hr)
      (fun σ' hT => ihs k σ' (hT.symm ▸ hs)) (fun σ σ' h => denote_types s k σ σ' h) n σ rfl
    rw [← hT] at he hc
    exact condition_matched (ihe σ' he) ((Bool.not_eq_true' _).mp hc)
  | returnStmt e ih =>
    intro k σ h
    obtain ⟨he, hu⟩ := Bool.and_eq_true_iff.mp h
    obtain ⟨hc, hu⟩ := Ast.usableAs_iff.mp hu
    refine (ih σ he).value hc fun x hx htype => .after fun a _ => ?_
    rw [convert_strict (htype.symm ▸ hu)]
    exact .after fun v _ => rfl

/-- **So it does for a function.** -/
theorem FunDeclaration.denote_agreed {d : FunDeclaration} (h : d.agreed Γ = true) (w : World) :
    d.meaning M Γ addr n w = .undefined ∨
      d.denote true M Γ addr n w = d.meaning M Γ addr n w := by
  unfold meaning denote
  split_ifs with hids
  · exact .inl rfl
  have hbody : Matched Eq
      (do
        let σ ← declarations addr d.localDeclarations 0
          ⟨parameters M d.params.zipIdx [fun _ => none], w⟩
        d.statementList.denote false M Γ addr n d.localDeclarations.length σ)
      (do
        let σ ← declarations addr d.localDeclarations 0
          ⟨parameters M d.params.zipIdx [fun _ => none], w⟩
        d.statementList.denote true M Γ addr n d.localDeclarations.length σ) := by
    refine .after fun σ hσ => denote_agrees d.statementList _ σ ?_
    have hT := declarations_types hσ
    have hparams : Store.types (⟨parameters M d.params.zipIdx [fun _ => none], w⟩ :
        Store Val World) = Scopes.parameters d.params [fun _ => none] := by
      refine (parameters_types _ _).trans ?_
      rw [List.zipIdx_map_fst]
      rfl
    rw [hT, hparams]
    exact h
  dsimp only
  revert hbody
  generalize (do
    let σ ← declarations addr d.localDeclarations 0
      (⟨parameters M d.params.zipIdx [fun _ => none], w⟩ : Store Val World)
    d.statementList.denote false M Γ addr n d.localDeclarations.length σ) = r
  intro hbody
  cases r with
  | ok σ =>
    obtain ⟨σ', hσ', rfl⟩ := hbody
    exact .inr (by rw [hσ'])
  | error e =>
    cases e with
    | undefined => exact .inl rfl
    | done o => exact .inr (by rw [show _ = _ from hbody])
    | outOfFuel => exact .inr (by rw [show _ = _ from hbody])

end Cminusfc.Frontend
