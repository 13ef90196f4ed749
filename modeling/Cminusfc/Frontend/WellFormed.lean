import Cminusfc.LightIR.Ssa
import Cminusfc.Frontend.FunctionsCorrect
import Cminusfc.Frontend.Visits

/-!
# The functions the builder leaves

A function whose only `return` is its last statement is emitted in SSA form: every block ends in its
only terminator, the edges are those of the terminators, a definition dominates its uses, and a
scalar alloca is the address of loads and stores only (`program_ssa`). A `return` anywhere else
leaves a block without a terminator, or with code behind one.

About `src/cminusfc/cminusf_builder.cpp` 5-407.
-/

namespace Cminusfc.Frontend

open LightIR
open Dominance (Ancestor Nested)
open Fallible (bind_ok)
open Builder

variable {p p' p'' : BlockId → BlockId} {Q W : Set BlockId} {B B' B₁ B₂ B₃ C D : Builder}
  {v : Value} {c t e : BlockId} {k : Kind} {ds : List Declaration}

/-! ## The last statement -/

/-- The only `return` is the last statement. -/
def Ast.returnsLast : {k : Kind} → Ast k → Bool
  | _, .compoundStmt _ ss => ss.returnsLast
  | _, .stmt s .noStmts => s.returnsLast
  | _, .stmt s rest => s.noReturn && rest.returnsLast
  | _, .returnVoidStmt => true
  | _, .returnStmt _ => true
  | _, a => a.noReturn

theorem quiet_of_returnsLast {k : Kind} (a : Ast k) : a.returnsLast = true →
    a.quiet false = true := by
  induction a with
  | compoundStmt ds ss ih => exact ih
  | stmt s rest ihs ihrest =>
    intro h
    cases rest with
    | noStmts => exact Bool.and_eq_true_iff.mpr ⟨ihs h, rfl⟩
    | stmt s' rest' =>
      obtain ⟨hs, hrest⟩ := Bool.and_eq_true_iff.mp h
      refine Bool.and_eq_true_iff.mpr ⟨quiet_of_noReturn s false hs, ?_⟩
      rw [branchAfter_false]
      exact ihrest hrest
  | returnVoidStmt | returnStmt => exact fun _ => rfl
  | selectionStmt e s => exact quiet_of_noReturn (.selectionStmt e s) false
  | selectionElseStmt e s t => exact quiet_of_noReturn (.selectionElseStmt e s t) false
  | iterationStmt e s => exact quiet_of_noReturn (.iterationStmt e s) false
  | _ => exact fun _ => rfl

/-- Either the insert block waits for a terminator, or none does any longer. -/
def Settled (B : Builder) : Prop :=
  (∃ p, Placed p ∅ B) ∨ ∃ p, Formed p ∅ B.fn ∧ (B.fn.terminator B.bb).isSome = true

/-- The insert block has no terminator. -/
theorem Placed.terminator_eq (h : Placed p Q B) : B.fn.terminator B.bb = none := by
  unfold Func.terminator
  cases hlast : (B.fn.body B.bb).getLast? with
  | none => rfl
  | some i =>
    have hterm := (h.formed.unended _ (Set.mem_insert _ _)).2 i (List.mem_of_getLast? hlast)
    simp [hterm]

theorem Placed.settled (h : Placed p ∅ B) : Settled B := .inl ⟨p, h⟩

theorem Settled.exitScope (h : Settled B) : Settled B.exitScope := by
  rcases h with ⟨p, h⟩ | ⟨p, h, hterm⟩
  · exact (exitScope_onward h).placed.settled
  · exact .inr ⟨p, h, hterm⟩

/-- Behind a `ret`. -/
theorem Placed.settledRet {o : Option Value} (hB : Placed p ∅ B)
    (ho : ∀ v, o = some v → Rand p B v) : Settled (B.createRet o) := by
  refine .inr ⟨p, hB.ret ho, ?_⟩
  simp [createRet, Func.terminator, Instr.isTerminator]

theorem finishReturn_settled {value : Bool} (h : B.finishReturn value = .ok B')
    (hcalm : Calm false B) (hB : Placed p ∅ B) (hval : value = true → Stands p B B.val) :
    Settled B' := by
  unfold finishReturn at h
  cases value with
  | true =>
    rw [if_pos rfl] at h
    split at h
    · cases h
    · rename_i ptr hptr
      obtain ⟨B₁, h₁, h⟩ := bind_ok.mp h
      have hflags := convert_flags h₁
      have hvalue := hB.convert h₁ (hval rfl)
      have htarget := (hB.find hptr).mono hB hvalue.leads
      obtain ⟨C, hC⟩ : ∃ C, C = (B₁.createStore B₁.val ptr).setVal B.val := ⟨_, rfl⟩
      have hbranch : C.inBranch = false := hC ▸ hflags.inBranch.trans hcalm.inBranch
      have hpre : C.preReturns = false := hC ▸ hflags.preReturns.trans hcalm.preReturns
      simp only [← hC] at h
      rw [hbranch, if_neg Bool.false_ne_true, enterReturnBlock_eq hpre] at h
      obtain ⟨B₂, h₂, h⟩ := bind_ok.mp h
      cases h
      obtain ⟨t, ht, -⟩ := createLoad_ok h₂
      have hext : Extends B₁.fn C.fn := hC ▸ (createStore_grows B₁ _ _ hvalue.placed.wf).2
      have hptr₁ : (B₁.typeOf ptr).isPointer = true := by
        rw [← (htarget.defined.known hvalue.placed.wf).typeOf hext (hC ▸ rfl), ht]
        rfl
      have hstore := hvalue.placed.store hvalue.rand htarget.toStands (htarget.target hptr₁)
      have hval : Onward p ∅ B₁ p C := by
        rw [hC]
        exact hstore.trans (setVal_onward hstore.placed _)
      have hslot := htarget.mono hvalue.placed hval.leads
      have hload := hval.placed.load h₂ hslot.toStands (hslot.target (by rw [ht]; rfl))
      exact hload.placed.settledRet fun v hv => Option.some.inj hv ▸ hload.rand
  | false =>
    rw [if_neg Bool.false_ne_true, hcalm.inBranch, if_neg Bool.false_ne_true,
      enterReturnBlock_eq hcalm.preReturns] at h
    cases h
    exact hB.settledRet nofun

/-- The statements of a block. -/
theorem visitCompound_settled {ds : List VarDeclaration} {ss : Ast .statements}
    (hss : ∀ p B B', visit ss B = .ok B' → Calm false B → Inside B → Placed p ∅ B → Settled B')
    (h : visit (.compoundStmt ds ss) B = .ok B') (hs : B.enterScope.scope.tail ≠ [])
    (hcalm : Calm false B) (hB : Placed p ∅ B) : Settled B' := by
  obtain ⟨B₁, h₁, h⟩ := bind_ok.mp h
  obtain ⟨B₂, h₂, h⟩ := bind_ok.mp h
  cases h
  obtain ⟨hopen, hcalm₁, hin₁⟩ := enterBlock_onward h₁ hs hcalm hB
  exact (hss p B₁ B₂ h₂ hcalm₁ hin₁ hopen.placed).exitScope

theorem settled_of_noReturn {k : Kind} {a : Ast k} (hk : k.inExpression = false)
    (hno : a.noReturn = true) (h : visit a B = .ok B') (hcalm : Calm false B) (hin : Inside B)
    (hB : Placed p ∅ B) : Settled B' := by
  obtain ⟨p', hs⟩ := visit_walked a hk hno _ p ∅ B B' h hcalm hin hB
  exact hs.placed.settled

/-- **A statement that returns at its end** leaves no other block without a terminator. -/
theorem visit_settled {k : Kind} (a : Ast k) : k.inExpression = false → a.returnsLast = true →
    ∀ p B B', visit a B = .ok B' → Calm false B → Inside B → Placed p ∅ B → Settled B' := by
  induction a with
  | stmt s rest ihs ihrest =>
    intro _ hlast p B B' h hcalm hin hB
    obtain ⟨B₁, h₁, h₂⟩ := bind_ok.mp h
    cases rest with
    | noStmts =>
      cases h₂
      exact ihs rfl hlast p B _ h₁ hcalm hin hB
    | stmt s' rest' =>
      obtain ⟨hno, hlast⟩ := Bool.and_eq_true_iff.mp hlast
      obtain ⟨p₁, hs⟩ := visit_walked s rfl hno _ p ∅ B B₁ h₁ hcalm hin hB
      have hcalm₁ := visit_calm s B B₁ h₁ rfl (quiet_of_noReturn s false hno) hcalm
      rw [branchAfter_false] at hcalm₁
      exact ihrest rfl hlast p₁ B₁ B' h₂ hcalm₁ (hin.of_keeps hs.keeps) hs.placed
  | compoundStmt ds ss ih =>
    intro _ hlast p B B' h hcalm hin hB
    exact visitCompound_settled (ih rfl hlast) h hin.enterScope_tail hcalm hB
  | returnVoidStmt =>
    intro _ _ p B B' h hcalm _ hB
    exact finishReturn_settled h hcalm hB fun hv => absurd hv Bool.false_ne_true
  | returnStmt e ih =>
    intro _ _ p B B' h hcalm _ hB
    obtain ⟨B₁, h₁, h₂⟩ := bind_ok.mp h
    obtain ⟨p₁, he⟩ := visit_delivers e rfl p ∅ B B₁ h₁ hB
    exact finishReturn_settled h₂ (@Calm.expression _ _ false _ e rfl h₁ hcalm) he.placed
      fun _ => he.stands rfl
  | emptyStmt | noStmts | expressionStmt | selectionStmt | selectionElseStmt | iterationStmt =>
    exact fun hk hno p B B' h hcalm hin hB => settled_of_noReturn hk hno h hcalm hin hB
  | _ => exact fun hk => absurd hk.symm Bool.false_ne_true

/-! ## Into a function -/

theorem globalTypes_depth (ds : List Declaration) : ∀ q ∈ globalTypes ds, q.2.depth = 0 := by
  induction ds with
  | nil => nofun
  | cons d ds ih =>
    intro q hq
    cases d with
    | fn d => exact ih q hq
    | var d =>
      rcases List.mem_append.mp hq with hq | hq
      · obtain ⟨t, ht, rfl⟩ := Option.map_eq_some_iff.mp (Option.mem_toList.mp hq)
        cases htype : variableType d with
        | error e =>
          rw [htype] at ht
          cases ht
        | ok t' =>
          rw [htype] at ht
          cases ht
          exact variableType_depth htype
      · exact ih q hq

theorem functionTypes_depth (ds : List Declaration) :
    ∀ q ∈ functionTypes ds, q.2.ret.depth = 0 := by
  induction ds with
  | nil => nofun
  | cons d ds ih =>
    intro q hq
    cases d with
    | var d => exact ih q hq
    | fn d =>
      rcases List.mem_cons.mp hq with rfl | hq
      · exact type_depth d.type
      · exact ih q hq

theorem predefined_depth : ∀ q ∈ predefined, q.2.ret.depth = 0 := by decide

/-- What is declared outside of functions. -/
theorem IsGlobal.target (h : IsGlobal v) (hg : ∀ q ∈ B.globals, q.2.depth = 0) : Target p B v := by
  obtain ⟨n, rfl | rfl⟩ := h
  · have hd : (B.typeOf (.global n)).depth = 1 := by
      show ((B.globals.lookup n).getD .void).depth + 1 = 1
      cases hl : B.globals.lookup n with
      | none => rfl
      | some t => rw [Option.getD_some, hg _ (lookup_mem hl)]
    have haddr : Addressable B.fn (.global n) := .inl rfl
    exact ⟨⟨nofun, rfl, by rw [hd]; decide, fun _ => haddr⟩, fun _ => haddr⟩
  · exact ⟨⟨nofun, rfl, Nat.zero_le _, nofun⟩, nofun⟩

theorem newFunc_formed (name : String) (t : FunctionType) :
    Formed p {0} (newFunc name t) where
  blocks _ hb := absurd rfl hb
  tree _ hb hne := absurd (List.mem_singleton.mp hb) hne
  closed _ _ hc := absurd hc List.not_mem_nil
  nested _ _ hc := absurd hc List.not_mem_nil
  targets _ _ :=
    ⟨fun hc => absurd hc List.not_mem_nil, fun ⟨_, hi, _⟩ => absurd hi List.not_mem_nil⟩
  unended _ hb := ⟨List.mem_singleton.mpr hb, fun _ hi => absurd hi List.not_mem_nil⟩
  ended _ hb hnot := absurd (List.mem_singleton.mp hb) hnot
  parent _ _ hi := absurd hi List.not_mem_nil
  nodup _ := List.nodup_nil
  operands _ pre _ _ h := absurd h.symm (List.append_ne_nil_of_right_ne_nil pre nofun)
  proper _ _ hi := absurd hi List.not_mem_nil

theorem enterFunction_placed {d : FunDeclaration} (ht : TopLevel B) (hd : Declares ds B)
    (h : enterFunction d B = .ok B') : Placed p ∅ B' := by
  have hwf := enterFunction_wf h
  obtain ⟨m, hm, hglobal⟩ := ht.scope
  obtain ⟨s, hpush, rfl⟩ := enterFunction_cases h
  rw [hm] at hpush
  obtain rfl := push_cases hpush
  have hall : ∀ q ∈ (d.id, Value.function d.id) :: m, IsGlobal q.2 := by
    intro q hq
    rcases List.mem_cons.mp hq with rfl | hq
    · exact ⟨d.id, .inr rfl⟩
    · exact hglobal q hq
  have hglobals : ∀ q ∈ B.globals, q.2.depth = 0 := hd.globals ▸ globalTypes_depth ds
  refine ⟨hwf, ?_, Set.notMem_empty _, hglobals, fun q hq => ?_, fun m' hm' q hq => ?_, ?_⟩
  · rw [insert_empty_eq]
    exact newFunc_formed _ _
  · rcases List.mem_cons.mp hq with rfl | hq
    · exact type_depth d.type
    · rcases List.mem_append.mp (hd.types ▸ hq) with hq | hq
      · exact functionTypes_depth ds q (List.mem_reverse.mp hq)
      · exact predefined_depth q hq
  · rcases List.mem_cons.mp hm' with rfl | hm'
    · cases hq
    · obtain rfl := List.mem_singleton.mp hm'
      exact (hall q hq).target hglobals
  · show ∀ v ∈ B.frame.args, Rand p _ v
    rw [ht.frame]
    exact nofun

theorem variableType_depth_le (q : Param) : q.variableType.depth ≤ 1 := by
  have hd := type_depth q.type
  rw [Param.variableType_eq]
  split_ifs
  · exact Nat.le_of_eq (congrArg (· + 1) hd)
  · rw [hd]
    exact Nat.zero_le _

theorem Formed.setNames {P : Set BlockId} {f : Func} (h : Formed p P f) (names : Value → String) :
    Formed p P { f with names := names } :=
  ⟨h.blocks, h.tree, h.closed, h.nested, h.targets, h.unended, h.ended, h.parent, h.nodup,
    h.operands, fun b i hi => (h.proper b i hi).mono fun _ _ => rfl⟩

/-- A parameter. -/
theorem visitParam_placed {q : Param × Nat} (h : visitParam B q = .ok B')
    (hargs : ∀ t ∈ B.fn.args, t.depth ≤ 1) (hB : Placed p ∅ B) :
    Placed p ∅ B' ∧ B'.fn.args = B.fn.args := by
  have hargs' := ((visitParam_straight h).grows hB.wf).2.args
  refine ⟨?_, hargs'⟩
  unfold visitParam at h
  dsimp only at h
  rw [← Param.variableType_eq] at h
  obtain ⟨A, hA⟩ : ∃ A : Builder, A = { B with
    fn := { B.fn with names := Function.update B.fn.names (.arg q.2) q.1.id } } := ⟨_, rfl⟩
  have hgrows : Grows B A := by
    rw [hA]
    exact B.edges_grows rfl rfl rfl rfl rfl rfl
  have hname : Onward p ∅ B p A := by
    obtain ⟨hwf, hext⟩ := hgrows hB.wf
    have hl : Leads p B p A := ⟨fun _ _ => rfl, by rw [hA]; exact .refl, hext, by rw [hA]⟩
    refine ⟨hB.next hl hwf ?_ ?_ ?_, hl⟩
    · rw [hA]
      exact hB.formed.setNames _
    · rw [hA]
      exact hB.apart
    · rw [hA]
      exact ⟨rfl, rfl, rfl, rfl, rfl, rfl⟩
  have hAargs : A.fn.args = B.fn.args := by rw [hA]
  rw [← hA] at h
  split at h
  · rename_i s hpush
    cases h
    obtain ⟨hslot, htarget⟩ := createAlloca_target hname.placed (variableType_depth_le q.1)
    have hpushed := hslot.placed.push hpush htarget
    have htarget' := htarget.mono hslot.placed hpushed.leads
    have harg : Rand p ({ A.createAlloca q.1.variableType with scope := s } : Builder)
        (.arg q.2) := by
      refine .const nofun rfl ?_
      show ((A.createAlloca q.1.variableType).fn.args.getD q.2 .void).depth ≤ 1
      rw [hslot.leads.ext.args, hAargs, List.getD_eq_getElem?_getD]
      cases hq : B.fn.args[q.2]? with
      | none => exact Nat.zero_le _
      | some t => exact hargs t (List.mem_of_getElem? hq)
    have hpointer : (A.createAlloca q.1.variableType).typeOf
        (A.createAlloca q.1.variableType).val = .pointer q.1.variableType := create_type ..
    have haddr := htarget.target (by rw [hpointer]; rfl)
    have hstore := hpushed.placed.store harg htarget'.toStands haddr
    exact (setVal_onward hstore.placed _).placed
  · cases h

theorem visitParams_placed (l : List (Param × Nat)) : ∀ {B B' : Builder},
    l.foldlM visitParam B = .ok B' → (∀ t ∈ B.fn.args, t.depth ≤ 1) → Placed p ∅ B →
      Placed p ∅ B' := by
  induction l with
  | nil =>
    intro B B' h _ hB
    cases h
    exact hB
  | cons q l ih =>
    intro B B' h hargs hB
    rw [List.foldlM_cons] at h
    obtain ⟨B₁, h₁, h₂⟩ := bind_ok.mp h
    obtain ⟨hB₁, hsame⟩ := visitParam_placed h₁ hargs hB
    exact ih h₂ (hsame ▸ hargs) hB₁

/-- In front of the body. -/
theorem prologue_placed {d : FunDeclaration} (ht : TopLevel B) (hd : Declares ds B)
    (h : prologue d B = .ok B') : Placed p ∅ B' := by
  obtain ⟨B₁, h₁, h⟩ := bind_ok.mp h
  obtain ⟨B₂, h₂, h⟩ := bind_ok.mp h
  have hargs : ∀ t ∈ B₁.fn.args, t.depth ≤ 1 := by
    rw [(enterFunction_ok h₁).1]
    intro t ht
    obtain ⟨q, -, rfl⟩ := List.mem_map.mp ht
    rw [← Param.variableType_eq]
    exact variableType_depth_le q
  have hparams := visitParams_placed _ h₂ hargs (enterFunction_placed ht hd h₁ : Placed p ∅ B₁)
  obtain ⟨B₃, hB₃⟩ : ∃ B₃ : Builder, B₃ = { B₂ with bbCounter := 0, returnType := d.type } :=
    ⟨_, rfl⟩
  have hreset : Placed p ∅ B₃ := by
    have hgrows : Grows B₂ B₃ := by
      rw [hB₃]
      exact Grows.of_same rfl rfl
    have hl : Leads p B₂ p B₃ := by
      rw [hB₃]
      exact ⟨fun _ _ => rfl, .refl, Extends.refl _, rfl⟩
    refine ⟨(hgrows hparams.wf).1, ?_, ?_, ?_, ?_, fun m hm q hq => ?_, fun v hv => ?_⟩
    · rw [hB₃]
      exact hparams.formed
    · rw [hB₃]
      exact hparams.apart
    · rw [hB₃]
      exact hparams.globals
    · rw [hB₃]
      exact hparams.types
    · rw [hB₃] at hm
      exact (hparams.scope m hm q hq).mono hparams hl
    · rw [hB₃] at hv
      exact (hparams.args v hv).mono hparams hl
  simp only [← hB₃] at h
  split_ifs at h
  · cases h
    obtain ⟨hslot, htarget⟩ := createAlloca_target hreset
      (type_depth d.type ▸ Nat.zero_le _ : d.type.type.depth ≤ 1)
    cases hpush : (B₃.createAlloca d.type.type).scope.push "" (B₃.createAlloca d.type.type).val with
    | none => exact hslot.placed
    | some s => exact (hslot.placed.push hpush htarget).placed
  · cases h
    exact hreset

/-! ## Functions -/

/-- The only `return` is the last statement of the body. -/
def FunDeclaration.returnsLast (d : FunDeclaration) : Bool := d.statementList.returnsLast

/-- **The function of a definition is formed**, once the visitor is through. -/
theorem visitFunDeclaration_formed {d : FunDeclaration} (ht : TopLevel B) (hd : Declares ds B)
    (hcalm : Calm false B) (hlast : d.returnsLast = true) (h : visitFunDeclaration d B = .ok B') :
    ∃ p, Formed p ∅ B'.fn := by
  rw [visitFunDeclaration_eq] at h
  obtain ⟨B₁, h₁, h⟩ := bind_ok.mp h
  obtain ⟨B₂, h₂, h⟩ := bind_ok.mp h
  have he := prologue_entering ht h₁
  have hplaced : Placed (fun _ => 0) ∅ B₁ := prologue_placed ht hd h₁
  have hs : B₁.enterScope.scope.tail ≠ [] := by
    obtain ⟨m, hm, -⟩ := he.outer
    rw [he.enterScope, hm]
    exact List.cons_ne_nil _ _
  have hsettled := visitCompound_settled (visit_settled d.statementList rfl hlast) h₂ hs
    (prologue_calm h₁ hcalm) hplaced
  have hcalm₂ := visit_calm (.compoundStmt d.localDeclarations d.statementList) B₁ B₂ h₂ rfl
    (quiet_of_returnsLast d.statementList hlast) (prologue_calm h₁ hcalm)
  rw [branchAfter_false] at hcalm₂
  split_ifs at h with hterm
  · obtain rfl := Except.ok.inj h
    rcases hsettled with ⟨p, hB⟩ | ⟨p, hF, -⟩
    · rw [hB.terminator_eq] at hterm
      cases hterm
    · exact ⟨p, hF⟩
  · rcases hsettled with ⟨p, hB⟩ | ⟨p, -, hsome⟩
    · have hret : B₂.finishReturn false = .ok B' := h
      unfold finishReturn at hret
      rw [if_neg Bool.false_ne_true, hcalm₂.inBranch, if_neg Bool.false_ne_true,
        enterReturnBlock_eq hcalm₂.preReturns] at hret
      obtain rfl := Except.ok.inj hret
      exact ⟨p, hB.ret nofun⟩
    · exact absurd hsome hterm

/-! ## SSA form -/

section Formed

variable {f : Func} {b : BlockId} (h : Formed p ∅ f)

include h

/-- Every block ends in its only terminator. -/
theorem Formed.wellTerminated : f.WellTerminated := by
  intro b hb
  obtain ⟨pre, t, hsplit, ht, hpre⟩ := h.ended b hb (Set.notMem_empty b)
  have hinit : f.initOf b = pre := by rw [Func.initOf, hsplit, List.dropLast_concat]
  have hterm : f.termOf b = t := by rw [Func.termOf, hsplit, List.getLastD_concat]
  rw [hinit, hterm]
  exact ⟨hsplit, ht, hpre⟩

/-- The edges are those of the terminators. -/
theorem Formed.succ_iff (hb : b ∈ f.blocks) (c : BlockId) :
    c ∈ f.succ b ↔ c ∈ (f.instr (f.termOf b)).targets := by
  obtain ⟨hsplit, -, hinit⟩ := h.wellTerminated b hb
  rw [h.targets]
  constructor
  · rintro ⟨i, hi, hc⟩
    rw [hsplit, List.mem_append, List.mem_singleton] at hi
    rcases hi with hi | rfl
    · have hbr : (f.instr i).op ≠ .br := by
        intro hop
        have hterm := hinit i hi
        rw [Instr.isTerminator, hop] at hterm
        cases hterm
      rw [Instr.targets, if_neg hbr] at hc
      cases hc
    · exact hc
  · intro hc
    exact ⟨f.termOf b, by rw [hsplit]; simp, hc⟩

/-- An instruction stands in one place. -/
theorem Formed.instrs_nodup (hblocks : f.blocks.Nodup) : f.instrs.Nodup := by
  refine List.nodup_flatMap.mpr ⟨fun b _ => h.nodup b, hblocks.imp fun {a b} hne i hi hi' => hne ?_⟩
  exact (h.parent a i hi).symm.trans (h.parent b i hi')

/-- Definitions dominate uses. -/
theorem Formed.ssaForm : f.SsaForm where
  operand b _ pre i post hsplit _ j hj := by
    rcases h.operands b pre i post hsplit j hj with hmem | ⟨a, hne, habove, hmem⟩
    · exact .inl hmem
    · exact .inr ⟨a, h.blocks a (List.ne_nil_of_mem hmem), habove.sdom h.nested hne, hmem⟩
  incoming b _ i hi hop := absurd hop (h.proper b i hi).op

end Formed

/-- **SSA form**: a function whose only `return` is its last statement, behind functions without a
`return` in a branch. -/
theorem program_ssa {ds' : List Declaration} {d : FunDeclaration}
    (h : visitProgram (ds ++ .fn d :: ds') freshBuilder = .ok B)
    (hq : ∀ e ∈ ds, e.quiet = true) (hlast : d.returnsLast = true) :
    ∃ f, (B.functions ++ [B.fn])[(functionTypes ds).length + 1]? = some f ∧ f.name = d.id ∧
      f.WellTerminated ∧ f.instrs.Nodup ∧ f.SsaForm ∧
      (∀ b ∈ f.blocks, ∀ c, c ∈ f.succ b ↔ c ∈ (f.instr (f.termOf b)).targets) ∧
      ∀ i ∈ f.instrs, ∀ (no : Nat) (v : Value), (f.instr i).operands[no]? = some v →
        (f.cell v).isSome = true →
          (f.instr i).op = .load ∧ no = 0 ∨ (f.instr i).op = .store ∧ no = 1 := by
  obtain ⟨B₀, B₁, ht, hd, hcalm, h₁, hindex, hname⟩ := visitProgram_split h hq
  obtain ⟨p, hF⟩ := visitFunDeclaration_formed ht hd hcalm hlast h₁
  have hblocks : B₁.fn.blocks.Nodup := by
    rw [(visitFunDeclaration_wf h₁).blocks]
    exact List.nodup_range
  refine ⟨B₁.fn, hindex, hname, hF.wellTerminated, hF.instrs_nodup hblocks, hF.ssaForm,
    fun b hb => hF.succ_iff hb, fun i hi => ?_⟩
  obtain ⟨b, -, hib⟩ := List.mem_flatMap.mp hi
  exact (hF.proper b i hib).scalars

/-- The sum of the numbers from 1 to 3. -/
theorem program_ssa_summation : ∃ B f, visitProgram [.fn summation] freshBuilder = .ok B ∧
    (B.functions ++ [B.fn])[1]? = some f ∧ f.WellTerminated ∧ f.SsaForm := by
  have hok : (visitProgram [.fn summation] freshBuilder).toOption.isSome = true := by
    decide +kernel
  cases h : visitProgram [.fn summation] freshBuilder with
  | error e =>
    rw [h] at hok
    cases hok
  | ok B =>
    obtain ⟨f, hf, -, hterm, -, hssa, -⟩ := @program_ssa B [] [] summation h nofun (by decide)
    exact ⟨B, f, rfl, hf, hterm, hssa⟩

end Cminusfc.Frontend
