import Cminusfc.Frontend.Semantics
import Cminusfc.Lib.Fallible

/-!
# What the meaning does to the store

About `Semantics`; no function of the source is modelled here.

* `Scopes`: the types of the variables in scope. A declaration adds to them, and nothing else changes
  them (`denote_types`).
* `Lawful`: what a machine does on a load, on a division and in `neg_idx_except`
  (`src/io/io.c`, lines 17-20).
* `denote_quiet`: on such a machine an expression without a call and an assignment leaves the store
  as it is, or the program is over in the world it started from.
-/

namespace Cminusfc.Frontend

open LightIR
open LightIR.Run (defined)
open Fallible (bind_ok)

variable {Val World α β : Type} {M : Machine Val World} {Γ : Context} {addr : Nat → Val} {n : Nat}
  {strict : Bool} {σ σ' : Store Val World}

/-! ## The types in scope -/

/-- The types of the variables of the scopes, innermost first. -/
abbrev Scopes := List (String → Option Ty)

namespace Scopes

/-- The type of the innermost variable with a name. -/
def find : Scopes → String → Option Ty
  | [], _ => none
  | m :: rest, id => (m id).or (find rest id)

/-- A variable of the innermost scope. -/
def declare : Scopes → String → Ty → Scopes
  | [], _, _ => []
  | m :: rest, id, t => Function.update m id (some t) :: rest

/-- The local declarations of a compound statement. -/
def declareAll : List VarDeclaration → Scopes → Scopes
  | [], T => T
  | d :: ds, T =>
    match d.variableType with
    | some t => declareAll ds (T.declare d.id t)
    | none => T

/-- The parameters of a function. -/
def parameters : List Param → Scopes → Scopes
  | [], T => T
  | p :: ps, T => parameters ps (T.declare p.id p.variableType)

/-- The scope of a compound statement. -/
def enter (T : Scopes) : Scopes := (fun _ => none) :: T

theorem tail_declareAll (ds : List VarDeclaration) :
    ∀ T : Scopes, (declareAll ds T).tail = T.tail := by
  induction ds with
  | nil => exact fun _ => rfl
  | cons d ds ih =>
    intro T
    rw [declareAll]
    split
    · rw [ih]
      cases T <;> rfl
    · rfl

end Scopes

namespace Frames

/-- The types of the variables. -/
def types (fs : Frames Val) : Scopes := fs.map fun m id => (m id).map Typed.type

theorem types_find (fs : Frames Val) (id : String) :
    fs.types.find id = (fs.find id).map Typed.type := by
  induction fs with
  | nil => rfl
  | cons m rest ih =>
    change ((m id).map Typed.type).or (Scopes.find (types rest) id) = _
    rw [ih, find]
    cases m id <;> rfl

theorem types_set (fs : Frames Val) (id : String) (v : Val) : (fs.set id v).types = fs.types := by
  induction fs with
  | nil => rfl
  | cons m rest ih =>
    rw [set]
    cases hm : m id with
    | some x =>
      refine congrArg (· :: types rest) (funext fun id' => ?_)
      dsimp only
      by_cases hid : id' = id
      · rw [hid, Function.update_self, hm]
        rfl
      · rw [Function.update_of_ne hid]
    | none => exact congrArg (_ :: ·) ih

theorem types_declare (fs : Frames Val) (id : String) (x : Typed Val) :
    (fs.declare id x).types = fs.types.declare id x.type := by
  cases fs with
  | nil => rfl
  | cons m rest =>
    refine congrArg (· :: types rest) (funext fun id' => ?_)
    dsimp only
    by_cases hid : id' = id
    · rw [hid, Function.update_self, Function.update_self]
      rfl
    · rw [Function.update_of_ne hid, Function.update_of_ne hid]

end Frames

/-- The types of the variables in scope. -/
def Store.types (σ : Store Val World) : Scopes := σ.frames.types

theorem Store.types_exit (σ : Store Val World) : σ.exit.types = σ.types.tail := by
  simp [types, Frames.types, Store.exit]

namespace Semantics

/-! ## The operations and the types -/

theorem effect_types {op : OpID} {ty : Ty} {args : List Val} {r : Val × Store Val World}
    (h : effect M op ty args σ = .ok r) : r.2.types = σ.types := by
  unfold effect at h
  split at h
  · cases h
    rfl
  · cases h

theorem operation_types {op : OpID} {c : CmpOp} {ty : Ty} {args : List Val}
    {r : Val × Store Val World} (h : operation M op c ty args σ = .ok r) :
    r.2.types = σ.types := by
  unfold operation at h
  split_ifs at h
  · cases h
    rfl
  · exact effect_types h

theorem operateAt_types {t ty : Ty} {op : OpID} {c : CmpOp} {x y : Typed Val}
    {r : Typed Val × Store Val World} (h : operateAt M strict t op c ty x y σ = .ok r) :
    r.2.types = σ.types := by
  obtain ⟨a, -, h⟩ := bind_ok.mp h
  obtain ⟨a', -, h⟩ := bind_ok.mp h
  obtain ⟨b, -, h⟩ := bind_ok.mp h
  obtain ⟨b', -, h⟩ := bind_ok.mp h
  obtain ⟨v, hv, h⟩ := bind_ok.mp h
  cases h
  exact operation_types hv

theorem operate_types {intOp floatOp : OpID} {intTy floatTy : Ty} {c : CmpOp} {x y : Typed Val}
    {r : Typed Val × Store Val World}
    (h : operate M strict intOp floatOp intTy floatTy c x y σ = .ok r) : r.2.types = σ.types := by
  unfold operate at h
  split_ifs at h
  · exact operateAt_types h
  · exact operateAt_types h

theorem checkIndex_types {i : Val} (h : checkIndex M i σ = .ok σ') : σ'.types = σ.types := by
  unfold checkIndex at h
  split_ifs at h
  cases h
  rfl

theorem read_types {x : LValue Val} {r : Typed Val × Store Val World}
    (h : read M x σ = .ok r) : r.2.types = σ.types := by
  unfold read at h
  split at h
  · split_ifs at h
    cases h
    rfl
  · split_ifs at h
    obtain ⟨v, hv, h⟩ := bind_ok.mp h
    cases h
    exact effect_types hv

theorem store_types {x : LValue Val} {v : Val} (h : store M x v σ = .ok σ') :
    σ'.types = σ.types := by
  unfold store at h
  split at h
  · cases h
    exact Frames.types_set _ _ _
  · obtain ⟨u, hu, h⟩ := bind_ok.mp h
    cases h
    exact effect_types hu

theorem write_types {x : LValue Val} {y : Typed Val} {r : Typed Val × Store Val World}
    (h : write M strict x y σ = .ok r) : r.2.types = σ.types := by
  obtain ⟨a, -, h⟩ := bind_ok.mp h
  obtain ⟨v, -, h⟩ := bind_ok.mp h
  obtain ⟨σ', hσ, h⟩ := bind_ok.mp h
  cases h
  exact store_types hσ

theorem condition_types {e : Store Val World → Run Val World (Typed Val × Store Val World)}
    (he : ∀ σ r, e σ = .ok r → r.2.types = σ.types) {r : Bool × Store Val World}
    (h : condition M e σ = .ok r) : r.2.types = σ.types := by
  obtain ⟨x, hx, h⟩ := bind_ok.mp h
  obtain ⟨b, -, h⟩ := bind_ok.mp h
  cases h
  exact he σ x hx

/-- A loop whose parts keep the types does. -/
theorem loop_types {test : Store Val World → Run Val World (Bool × Store Val World)}
    {body : Store Val World → Run Val World (Store Val World)}
    (htest : ∀ σ r, test σ = .ok r → r.2.types = σ.types)
    (hbody : ∀ σ σ', body σ = .ok σ' → σ'.types = σ.types) :
    ∀ (n : Nat) (σ σ' : Store Val World), Run.loop test body n σ = .ok σ' → σ'.types = σ.types := by
  intro n
  induction n with
  | zero =>
    intro σ σ' h
    cases h
  | succ n ih =>
    intro σ σ' h
    obtain ⟨r, hr, h⟩ := bind_ok.mp h
    split_ifs at h
    · obtain ⟨σ₁, hσ₁, h⟩ := bind_ok.mp h
      exact (ih σ₁ σ' h).trans ((hbody _ _ hσ₁).trans (htest σ r hr))
    · cases h
      exact htest σ r hr

end Semantics

open Semantics

theorem declarations_types {ds : List VarDeclaration} : ∀ {k : Nat} {σ σ' : Store Val World},
    declarations addr ds k σ = .ok σ' → σ'.types = Scopes.declareAll ds σ.types := by
  induction ds with
  | nil =>
    intro k σ σ' h
    cases h
    rfl
  | cons d ds ih =>
    intro k σ σ' h
    obtain ⟨σ₁, h₁, h₂⟩ := bind_ok.mp h
    unfold VarDeclaration.meaning at h₁
    rw [Scopes.declareAll, ih h₂]
    split_ifs at h₁
    cases ht : d.variableType with
    | none =>
      rw [ht] at h₁
      cases h₁
    | some t =>
      rw [ht] at h₁
      cases h₁
      exact congrArg _ (Frames.types_declare _ _ _)

theorem parameters_types (ps : List (Param × Nat)) : ∀ fs : Frames Val,
    (parameters M ps fs).types = Scopes.parameters (ps.map Prod.fst) fs.types := by
  induction ps with
  | nil => exact fun _ => rfl
  | cons p ps ih =>
    intro fs
    rw [parameters, ih, Frames.types_declare]
    rfl

/-! ## The nodes and the types -/

/-- The types of the variables stay as they are. -/
def Kind.KeepsTypes : (k : Kind) → k.Meaning Val World → Prop
  | .expression, m => ∀ σ r, m σ = .ok r → r.2.types = σ.types
  | .additive, m => ∀ σ r, m σ = .ok r → r.2.types = σ.types
  | .term, m => ∀ σ r, m σ = .ok r → r.2.types = σ.types
  | .factor, m => ∀ σ r, m σ = .ok r → r.2.types = σ.types
  | .var, m => ∀ σ r, m σ = .ok r → r.2.types = σ.types
  | .args, m => ∀ ts σ r, m ts σ = .ok r → r.2.types = σ.types
  | .statement, m => ∀ k σ σ', m k σ = .ok σ' → σ'.types = σ.types
  | .statements, m => ∀ k σ σ', m k σ = .ok σ' → σ'.types = σ.types

/-- **No node changes the types of the variables in scope.** -/
theorem denote_types {k : Kind} (a : Ast k) : k.KeepsTypes (a.denote strict M Γ addr n) := by
  induction a with
  | intNum i | floatNum x =>
    intro σ r h
    cases h
    rfl
  | group e ih | simple l ih | term t ih | factor f ih => exact ih
  | var v ih =>
    intro σ r h
    obtain ⟨x, hx, h⟩ := bind_ok.mp h
    exact (read_types h).trans (ih σ x hx)
  | relation l op r ihl ihr | additive l op r ihl ihr | multiplicative l op r ihl ihr =>
    intro σ y h
    obtain ⟨a, ha, h⟩ := bind_ok.mp h
    obtain ⟨b, hb, h⟩ := bind_ok.mp h
    exact (operate_types h).trans ((ihr _ b hb).trans (ihl σ a ha))
  | ident id =>
    intro σ r h
    obtain ⟨x, -, h⟩ := bind_ok.mp h
    cases h
    rfl
  | element id e ih =>
    intro σ r h
    obtain ⟨i, hi, h⟩ := bind_ok.mp h
    obtain ⟨a, -, h⟩ := bind_ok.mp h
    obtain ⟨b, -, h⟩ := bind_ok.mp h
    obtain ⟨σ₁, hσ₁, h⟩ := bind_ok.mp h
    obtain ⟨x, -, h⟩ := bind_ok.mp h
    cases h
    exact (checkIndex_types hσ₁).trans (ih σ i hi)
  | assign v e ihv ihe =>
    intro σ r h
    rw [Ast.denote] at h
    split_ifs at h
    obtain ⟨x, hx, h⟩ := bind_ok.mp h
    obtain ⟨y, hy, h⟩ := bind_ok.mp h
    exact (write_types h).trans ((ihe _ y hy).trans (ihv σ x hx))
  | call id args ih =>
    intro σ r h
    obtain ⟨t, -, h⟩ := bind_ok.mp h
    obtain ⟨vs, hvs, h⟩ := bind_ok.mp h
    obtain ⟨v, hv, h⟩ := bind_ok.mp h
    cases h
    exact (effect_types hv).trans (ih _ σ vs hvs)
  | noArgs =>
    intro ts σ r h
    rw [Ast.denote] at h
    dsimp only at h
    split_ifs at h
    cases h
    rfl
  | arg e rest ihe ihrest =>
    intro ts σ r h
    obtain ⟨t, -, h⟩ := bind_ok.mp h
    split_ifs at h
    · obtain ⟨id, -, h⟩ := bind_ok.mp h
      obtain ⟨v, -, h⟩ := bind_ok.mp h
      obtain ⟨vs, hvs, h⟩ := bind_ok.mp h
      cases h
      exact ihrest _ σ vs hvs
    · obtain ⟨x, hx, h⟩ := bind_ok.mp h
      obtain ⟨a, -, h⟩ := bind_ok.mp h
      obtain ⟨v, -, h⟩ := bind_ok.mp h
      obtain ⟨vs, hvs, h⟩ := bind_ok.mp h
      cases h
      exact (ihrest _ _ vs hvs).trans (ihe σ x hx)
  | emptyStmt | noStmts =>
    intro k σ σ' h
    cases h
    rfl
  | expressionStmt e ih =>
    intro k σ σ' h
    obtain ⟨x, hx, h⟩ := bind_ok.mp h
    cases h
    exact ih σ x hx
  | compoundStmt ds ss ih =>
    intro k σ σ' h
    obtain ⟨σ₁, h₁, h⟩ := bind_ok.mp h
    obtain ⟨σ₂, h₂, h⟩ := bind_ok.mp h
    cases h
    have hds : σ₁.types = Scopes.declareAll ds σ.types.enter := declarations_types h₁
    rw [Store.types_exit, ih _ σ₁ σ₂ h₂, hds, Scopes.tail_declareAll]
    rfl
  | stmt s rest ihs ihrest =>
    intro k σ σ' h
    obtain ⟨σ₁, h₁, h₂⟩ := bind_ok.mp h
    exact (ihrest _ σ₁ σ' h₂).trans (ihs k σ σ₁ h₁)
  | selectionStmt e s ihe ihs =>
    intro k σ σ' h
    obtain ⟨r, hr, h⟩ := bind_ok.mp h
    have hcond := condition_types ihe hr
    split_ifs at h
    · exact (ihs k _ σ' h).trans hcond
    · cases h
      exact hcond
  | selectionElseStmt e s t ihe ihs iht =>
    intro k σ σ' h
    obtain ⟨r, hr, h⟩ := bind_ok.mp h
    have hcond := condition_types ihe hr
    split_ifs at h
    · exact (ihs k _ σ' h).trans hcond
    · exact (iht _ _ σ' h).trans hcond
  | iterationStmt e s ihe ihs =>
    intro k σ σ' h
    exact loop_types (fun σ r hr => condition_types ihe hr) (fun σ σ' hσ => ihs k σ σ' hσ) n σ σ' h
  | returnVoidStmt =>
    intro k σ σ' h
    cases h
  | returnStmt e ih =>
    intro k σ σ' h
    obtain ⟨r, -, h⟩ := bind_ok.mp h
    obtain ⟨a, -, h⟩ := bind_ok.mp h
    obtain ⟨v, -, h⟩ := bind_ok.mp h
    cases h

/-! ## Expressions without effects -/

/-- What loads, divisions and `neg_idx_except` do: the first two leave the world as it is, the third
ends the program. -/
structure Lawful (M : Machine Val World) : Prop where
  load : ∀ ty args w r, M.effect .load ty args w = some r → r.2 = w
  sdiv : ∀ ty args w r, M.effect .sdiv ty args w = some r → r.2 = w
  exits : ∀ w, M.effect .call .void [M.const (.function "neg_idx_except")] w = none

/-- The store stays as it is, or the program is over in its world. -/
def Quiet (σ : Store Val World) : Run Val World (α × Store Val World) → Prop
  | .ok r => r.2 = σ
  | .error (.done o) => o = .fault σ.world
  | .error .undefined => True
  | .error .outOfFuel => False

namespace Quiet

/-- A sequence. -/
theorem bind {x : Run Val World (α × Store Val World)}
    {f : α × Store Val World → Run Val World (β × Store Val World)} (hx : Quiet σ x)
    (hf : ∀ a, Quiet σ (f (a, σ))) : Quiet σ (x >>= f) := by
  match x, hx with
  | .ok (a, σ'), h =>
    obtain rfl : σ' = σ := h
    exact hf a
  | .error (.done o), h => exact h
  | .error .undefined, h => exact h
  | .error .outOfFuel, h => exact h

/-- A computation that does not look at the store. -/
theorem apart {x : Run Val World α} {f : α → Run Val World (β × Store Val World)}
    (hx : ∀ h, x = .error h → h = .undefined) (hf : ∀ a, x = .ok a → Quiet σ (f a)) :
    Quiet σ (x >>= f) := by
  cases x with
  | ok a => exact hf a rfl
  | error h =>
    obtain rfl := hx h rfl
    trivial

end Quiet

theorem defined_undefined {o : Option α} {h : Halt Val World} (hd : defined o = .error h) :
    h = .undefined := by
  cases o <;> cases hd
  rfl

namespace Semantics

theorem convert_undefined {t t' : Ty} {v : Val} {h : Halt Val World}
    (hc : convert M strict t t' v = .error h) : h = .undefined := by
  unfold convert at hc
  split at hc
  all_goals try cases hc
  · split_ifs at hc
    cases hc
    rfl
  · rfl

/-- A number as one of its own type. -/
theorem convert_same {t : Ty} {a v : Val} (h : convert M strict t t a = .ok v) : v = a := by
  cases t <;> cases h
  · rfl
  · rfl

theorem effect_quiet {op : OpID} {ty : Ty} {args : List Val}
    (hop : ∀ w r, M.effect op ty args w = some r → r.2 = w) : Quiet σ (effect M op ty args σ) := by
  unfold effect
  cases h : M.effect op ty args σ.world with
  | none => rfl
  | some r =>
    have hw := hop _ r h
    exact congrArg (Store.mk σ.frames) hw

theorem operation_quiet (hM : Lawful M) {op : OpID} {c : CmpOp} {ty : Ty} {args : List Val}
    (hop : op.isPure = true ∨ op = .sdiv) : Quiet σ (operation M op c ty args σ) := by
  unfold operation
  split_ifs with hpure
  · rfl
  · obtain rfl := hop.resolve_left hpure
    exact effect_quiet (hM.sdiv ty args)

theorem operateAt_quiet (hM : Lawful M) {t ty : Ty} {op : OpID} {c : CmpOp} {x y : Typed Val}
    (hop : op.isPure = true ∨ op = .sdiv) : Quiet σ (operateAt M strict t op c ty x y σ) := by
  refine .apart (fun _ => defined_undefined) fun a _ => ?_
  refine .apart (fun _ => convert_undefined) fun a' _ => ?_
  refine .apart (fun _ => defined_undefined) fun b _ => ?_
  refine .apart (fun _ => convert_undefined) fun b' _ => ?_
  exact (operation_quiet hM hop).bind fun v => rfl

theorem operate_quiet (hM : Lawful M) {intOp floatOp : OpID} {intTy floatTy : Ty} {c : CmpOp}
    {x y : Typed Val} (hint : intOp.isPure = true ∨ intOp = .sdiv)
    (hfloat : floatOp.isPure = true ∨ floatOp = .sdiv) :
    Quiet σ (operate M strict intOp floatOp intTy floatTy c x y σ) := by
  unfold operate
  split_ifs
  · exact operateAt_quiet hM hint
  · exact operateAt_quiet hM hfloat

theorem find_undefined {id : String} {h : Halt Val World} (hf : find M Γ id σ = .error h) :
    h = .undefined := by
  unfold find at hf
  split_ifs at hf
  · cases hf
    rfl
  · split at hf
    · cases hf
    · split at hf
      · cases hf
      · cases hf
        rfl

/-- A sequence of computations that are undefined if they fail. -/
theorem undefined_bind {x : Run Val World α} {f : α → Run Val World β} {h : Halt Val World}
    (hx : ∀ h, x = .error h → h = .undefined) (hf : ∀ a h, f a = .error h → h = .undefined)
    (hbind : (x >>= f) = .error h) : h = .undefined := by
  cases x with
  | ok a => exact hf a h hbind
  | error e =>
    cases hbind
    exact hx h rfl

theorem array_undefined {id : String} {h : Halt Val World} (ha : array M Γ id σ = .error h) :
    h = .undefined := by
  refine undefined_bind (fun _ => find_undefined) (fun x h hx => ?_) ha
  split at hx
  · refine undefined_bind (fun _ => defined_undefined) (fun a h hok => ?_) hx
    cases hok
  · split_ifs at hx
    cases hx
    rfl

theorem elementAt_undefined {id : String} {i : Val} {h : Halt Val World}
    (he : elementAt M Γ id i σ = .error h) : h = .undefined := by
  refine undefined_bind (fun _ => array_undefined) (fun a h ha => ?_) he
  split at ha
  · cases ha
  · cases ha
  · cases ha
    rfl

theorem checkIndex_quiet {i : Val} {f : Store Val World → Run Val World (β × Store Val World)}
    (hf : Quiet σ (f σ)) : Quiet σ (checkIndex M i σ >>= f) := by
  unfold checkIndex
  split_ifs
  · exact hf
  · rfl

theorem read_quiet (hM : Lawful M) {x : LValue Val} : Quiet σ (read M x σ) := by
  unfold read
  split
  · split_ifs
    · trivial
    · rfl
  · split_ifs
    · trivial
    · exact (effect_quiet (hM.load _ _)).bind fun v => rfl

end Semantics

/-- The nodes of expressions leave the store as it is. -/
def Kind.Quiet : (k : Kind) → k.Meaning Val World → Prop
  | .expression, m => ∀ σ, Frontend.Quiet σ (m σ)
  | .additive, m => ∀ σ, Frontend.Quiet σ (m σ)
  | .term, m => ∀ σ, Frontend.Quiet σ (m σ)
  | .factor, m => ∀ σ, Frontend.Quiet σ (m σ)
  | .var, m => ∀ σ, Frontend.Quiet σ (m σ)
  | _, _ => True

theorem AddOp.quiet (op : AddOp) :
    (op.onIntegers.isPure = true ∨ op.onIntegers = .sdiv) ∧
      (op.onFloats.isPure = true ∨ op.onFloats = .sdiv) := by
  cases op <;> decide

theorem MulOp.quiet (op : MulOp) :
    (op.onIntegers.isPure = true ∨ op.onIntegers = .sdiv) ∧
      (op.onFloats.isPure = true ∨ op.onFloats = .sdiv) := by
  cases op <;> decide

/-- **An expression without effects leaves the store as it is.** -/
theorem denote_quiet (hM : Lawful M) {k : Kind} (a : Ast k) :
    a.hasEffect = false → k.Quiet (a.denote strict M Γ addr n) := by
  induction a with
  | intNum i | floatNum x => exact fun _ σ => rfl
  | group e ih | simple l ih | term t ih | factor f ih => exact ih
  | var v ih => exact fun h σ => (ih h σ).bind fun x => read_quiet hM
  | relation l op r ihl ihr =>
    intro h σ
    obtain ⟨hl, hr⟩ := Bool.or_eq_false_iff.mp h
    exact (ihl hl σ).bind fun a => (ihr hr σ).bind fun b =>
      operate_quiet hM (.inl rfl) (.inl rfl)
  | additive l op r ihl ihr | multiplicative l op r ihl ihr =>
    intro h σ
    obtain ⟨hl, hr⟩ := Bool.or_eq_false_iff.mp h
    exact (ihl hl σ).bind fun a => (ihr hr σ).bind fun b =>
      operate_quiet hM op.quiet.1 op.quiet.2
  | ident id => exact fun _ σ => .apart (fun _ => find_undefined) fun x _ => rfl
  | element id e ih =>
    intro h σ
    refine (ih h σ).bind fun i => ?_
    refine .apart (fun _ => defined_undefined) fun a _ => ?_
    refine .apart (fun _ => convert_undefined) fun a' _ => ?_
    exact checkIndex_quiet (.apart (fun _ => elementAt_undefined) fun x _ => rfl)
  | assign v e | call id args => exact fun h => nomatch h
  | _ => exact fun _ => trivial

end Cminusfc.Frontend
