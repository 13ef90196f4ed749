import Cminusfc.Frontend.Agreement
import Cminusfc.Frontend.StatementsCorrect
import Cminusfc.Frontend.Connected
import Cminusfc.Codegen.Canonical

/-!
# Functions mean what is emitted for them

* `Declares` is what the builder knows between two declarations of a program: a function is visited
  with the globals and functions in front of it in scope (`Context.of`). The tables of the text are
  those of the builder (`variables_eq`, `signatures_eq`).
* In front of the body the arguments are stored in the slots of the parameters, and the slot of the
  result is created (`prologue_trace`).
* `Func.Behaves` compares the meaning of a function with what is seen of its execution.

Results: **`visitFunDeclaration_correct`** for a function in which no `return` is visited in a branch
and whose code agrees with the language document (`Agreement`), and **`program_correct`** for the
functions of a program.

About `src/cminusfc/cminusf_builder.cpp` 5-101 and 206-273. Out of scope: a `return` in a branch.
-/

namespace Cminusfc.Frontend

open LightIR
open LightIR.Func (eval setReg setSlot Computes)
open LightIR.Run (defined)
open Fallible (bind_ok)
open Builder

variable {Val World : Type} {M : Machine Val World} {Γ : Context} {addr : Nat → Val} {n : Nat}
  {B B' B₁ B₂ : Builder} {F : Func} {σ σ' : Store Val World} {st st' : State Val World}
  {ds : List Declaration}

/-! ## Between declarations -/

/-- The entry of a declaration in the scope of the program. -/
def Declaration.entry : Declaration → String × Value
  | .var d => (d.id, .global d.id)
  | .fn d => (d.id, .function d.id)

/-- The scope of the program behind some declarations. -/
def programScope (ds : List Declaration) : List (String × Value) :=
  (ds.map Declaration.entry).reverse ++ predefined.map fun p => (p.1, .function p.1)

/-- The global variables. -/
def globalTypes : List Declaration → List (String × Ty)
  | [] => []
  | .var d :: ds => ((variableType d).toOption.map fun t => (d.id, t)).toList ++ globalTypes ds
  | .fn _ :: ds => globalTypes ds

/-- The functions. -/
def functionTypes : List Declaration → List (String × FunctionType)
  | [] => []
  | .var _ :: ds => functionTypes ds
  | .fn d :: ds => (d.id, d.functionType) :: functionTypes ds

/-- The builder behind the declarations `ds`. -/
structure Declares (ds : List Declaration) (B : Builder) : Prop where
  scope : B.scope = [programScope ds]
  distinct : ((programScope ds).map Prod.fst).Nodup
  globals : B.globals = globalTypes ds
  types : B.types = (functionTypes ds).reverse ++ predefined

theorem globalTypes_append (ds ds' : List Declaration) :
    globalTypes (ds ++ ds') = globalTypes ds ++ globalTypes ds' := by
  induction ds with
  | nil => rfl
  | cons d ds ih => cases d <;> simp [globalTypes, ih]

theorem functionTypes_append (ds ds' : List Declaration) :
    functionTypes (ds ++ ds') = functionTypes ds ++ functionTypes ds' := by
  induction ds with
  | nil => rfl
  | cons d ds ih => cases d <;> simp [functionTypes, ih]

theorem programScope_append (ds : List Declaration) (d : Declaration) :
    programScope (ds ++ [d]) = d.entry :: programScope ds := by simp [programScope]

theorem mem_globalTypes {id : String} {t : Ty} (h : (id, t) ∈ globalTypes ds) :
    (id, .global id) ∈ programScope ds := by
  refine List.mem_append_left _ (List.mem_reverse.mpr ?_)
  induction ds with
  | nil => cases h
  | cons d ds ih =>
    cases d with
    | fn d => exact List.mem_cons_of_mem _ (ih h)
    | var d =>
      rcases List.mem_append.mp h with h | h
      · obtain ⟨t', -, heq⟩ := Option.map_eq_some_iff.mp (Option.mem_toList.mp h)
        obtain ⟨rfl, -⟩ := Prod.mk.inj heq
        exact List.mem_cons_self
      · exact List.mem_cons_of_mem _ (ih h)

theorem mem_entries {id : String} {t : FunctionType} (h : (id, t) ∈ functionTypes ds) :
    (id, .function id) ∈ ds.map Declaration.entry := by
  induction ds with
  | nil => cases h
  | cons d ds ih =>
    cases d with
    | var d => exact List.mem_cons_of_mem _ (ih h)
    | fn d =>
      rcases List.mem_cons.mp h with h | h
      · obtain ⟨rfl, -⟩ := Prod.mk.inj h
        exact List.mem_cons_self
      · exact List.mem_cons_of_mem _ (ih h)

theorem mem_functionTypes {id : String} {t : FunctionType}
    (h : (id, t) ∈ (functionTypes ds).reverse ++ predefined) :
    (id, .function id) ∈ programScope ds := by
  rcases List.mem_append.mp h with h | h
  · refine List.mem_append_left _ (List.mem_reverse.mpr ?_)
    exact mem_entries (List.mem_reverse.mp h)
  · exact List.mem_append_right _ (List.mem_map.mpr ⟨_, h, rfl⟩)

theorem lookup_of_nodup {l : List (String × Value)} (hl : (l.map Prod.fst).Nodup) {id : String}
    {v : Value} (h : (id, v) ∈ l) : l.lookup id = some v := by
  induction l with
  | nil => cases h
  | cons p l ih =>
    rw [List.map_cons, List.nodup_cons] at hl
    rcases List.mem_cons.mp h with rfl | h
    · exact List.lookup_cons_self
    · have hne : id ≠ p.1 := fun heq => hl.1 (heq ▸ List.mem_map_of_mem h)
      rw [lookup_cons_ne hne]
      exact ih hl.2 h

/-- A new name for the program. -/
theorem push_distinct {m : List (String × Value)} {id : String} {v : Value} {s : Scope}
    (hm : (m.map Prod.fst).Nodup) (h : Scope.push [m] id v = some s) :
    s = [(id, v) :: m] ∧ (((id, v) :: m).map Prod.fst).Nodup := by
  refine ⟨push_cases h, ?_⟩
  rw [Scope.push] at h
  split_ifs at h with hnone
  rw [List.map_cons, List.nodup_cons]
  refine ⟨fun hmem => hnone ?_, hm⟩
  obtain ⟨p, hp, rfl⟩ := List.mem_map.mp hmem
  rw [lookup_of_nodup hm hp]
  rfl

theorem freshBuilder_declares : Declares [] freshBuilder := by
  refine ⟨rfl, ?_, rfl, rfl⟩
  decide

/-- A global variable. -/
theorem visitVarDeclaration_declares {d : VarDeclaration} (hd : Declares ds B)
    (h : B.visitVarDeclaration d = .ok B') : Declares (ds ++ [.var d]) B' ∧ B'.fn = B.fn := by
  have hin : B.scope.inGlobal = true := by simp [Scope.inGlobal, hd.scope]
  obtain ⟨t, htype, h⟩ := bind_ok.mp h
  simp only [hin, if_true] at h
  split at h
  · rename_i s hpush
    cases h
    have hpush' : Scope.push [programScope ds] d.id (.global d.id) = some s := by
      rw [← hd.scope]
      exact hpush
    obtain ⟨rfl, hnodup⟩ := push_distinct hd.distinct hpush'
    refine ⟨⟨?_, ?_, ?_, ?_⟩, rfl⟩
    · rw [programScope_append]
      rfl
    · rw [programScope_append]
      exact hnodup
    · rw [globalTypes_append]
      show B.globals ++ [(d.id, t)] = _
      rw [hd.globals]
      simp [globalTypes, htype, Except.toOption]
    · rw [functionTypes_append]
      show B.types = _
      rw [hd.types]
      simp [functionTypes]
  · cases h

/-! ## Into a function -/

/-- What `enterFunction` does. -/
theorem enterFunction_cases {d : FunDeclaration} (h : enterFunction d B = .ok B') :
    ∃ s, B.scope.push d.id (.function d.id) = some s ∧
      B' = { B with
        types := (d.id, d.functionType) :: B.types
        functions := B.functions ++ [B.fn]
        fn := newFunc d.id d.functionType
        bb := 0
        scope := Scope.enter s
        enterInFunDecl := true } := by
  unfold enterFunction at h
  dsimp only at h
  split at h
  · rename_i s hpush
    split_ifs at h
    exact ⟨s, hpush, (Except.ok.inj h).symm⟩
  · cases h

/-- The scopes around a function, and what it may use of the program. -/
structure Outer (B B' : Builder) : Prop where
  tail : B'.scope.tail = B.scope.tail
  globals : B'.globals = B.globals
  types : B'.types = B.types

theorem visitParam_outer {p : Param × Nat} (h : visitParam B p = .ok B') : Outer B B' := by
  obtain ⟨B₁, t, s, -, hk, -, hpush, hB'⟩ := visitParam_ok h
  obtain ⟨C, hC⟩ : ∃ C : Builder, C = { B₁.createAlloca t with scope := s } := ⟨_, rfl⟩
  have hpushed : C.scope = s ∧ C.globals = B₁.globals ∧ C.types = B₁.types := by
    rw [hC]
    exact ⟨rfl, rfl, rfl⟩
  obtain ⟨hscope, hglobals, htypes⟩ := hpushed
  rw [← hC] at hB'
  have hend := (createStore_keeps C (.arg p.2) (B₁.createAlloca t).val).trans
    (setVal_keeps _ (B₁.createAlloca t).emitted)
  rw [← hB'] at hend
  refine ⟨?_, (hend.globals.trans hglobals).trans hk.globals,
    (hend.types.trans htypes).trans hk.types⟩
  rw [hend.scope, hscope, push_tail hpush, hk.scope]

theorem visitParams_outer (l : List (Param × Nat)) : ∀ {B B' : Builder},
    l.foldlM visitParam B = .ok B' → Outer B B' := by
  induction l with
  | nil =>
    intro B B' h
    cases h
    exact ⟨rfl, rfl, rfl⟩
  | cons p l ih =>
    intro B B' h
    rw [List.foldlM_cons] at h
    obtain ⟨B₁, h₁, h₂⟩ := bind_ok.mp h
    have ho := visitParam_outer h₁
    have ho' := ih h₂
    exact ⟨ho'.tail.trans ho.tail, ho'.globals.trans ho.globals, ho'.types.trans ho.types⟩

/-- What is in scope in front of the body of a function. -/
theorem prologue_outer {d : FunDeclaration} (hd : Declares ds B) (h : prologue d B = .ok B') :
    B'.scope.tail = [programScope (ds ++ [.fn d])] ∧
      ((programScope (ds ++ [.fn d])).map Prod.fst).Nodup ∧ B'.globals = globalTypes ds ∧
      B'.types = (functionTypes (ds ++ [.fn d])).reverse ++ predefined ∧ B'.returnType = d.type := by
  obtain ⟨B₁, h₁, h⟩ := bind_ok.mp h
  obtain ⟨B₂, h₂, h⟩ := bind_ok.mp h
  have ho := visitParams_outer _ h₂
  obtain ⟨htail, hnodup, hglobals, htypes⟩ : B₁.scope.tail = [programScope (ds ++ [.fn d])] ∧
      ((programScope (ds ++ [.fn d])).map Prod.fst).Nodup ∧ B₁.globals = B.globals ∧
      B₁.types = (d.id, d.functionType) :: B.types := by
    obtain ⟨s, hpush, rfl⟩ := enterFunction_cases h₁
    rw [hd.scope] at hpush
    obtain ⟨rfl, hnodup⟩ := push_distinct hd.distinct hpush
    rw [programScope_append]
    exact ⟨rfl, hnodup, rfl, rfl⟩
  have hfunctions : (functionTypes (ds ++ [.fn d])).reverse ++ predefined = B₁.types := by
    rw [htypes, hd.types, functionTypes_append]
    simp [functionTypes]
  obtain ⟨B₃, hB₃⟩ : ∃ B₃ : Builder, B₃ = { B₂ with bbCounter := 0, returnType := d.type } :=
    ⟨_, rfl⟩
  have hreset : B₃.scope = B₂.scope ∧ B₃.globals = B₂.globals ∧ B₃.types = B₂.types ∧
      B₃.returnType = d.type := by
    subst hB₃
    exact ⟨rfl, rfl, rfl, rfl⟩
  obtain ⟨hscope₃, hglobals₃, htypes₃, hreturn₃⟩ := hreset
  rw [hfunctions, ← hd.globals, ← hglobals, ← ho.globals, ← ho.types, ← hglobals₃, ← htypes₃,
    ← htail, ← ho.tail, ← hscope₃]
  simp only [← hB₃] at h
  split_ifs at h
  · cases h
    refine ⟨?_, hnodup, rfl, rfl, hreturn₃⟩
    cases hpush : (B₃.createAlloca d.type.type).scope.push "" (B₃.createAlloca d.type.type).val with
    | none => rfl
    | some s => exact push_tail hpush
  · cases h
    exact ⟨rfl, hnodup, rfl, rfl, hreturn₃⟩

theorem visitFunDeclaration_declares {d : FunDeclaration} (ht : TopLevel B) (hd : Declares ds B)
    (h : visitFunDeclaration d B = .ok B') : Declares (ds ++ [.fn d]) B' := by
  obtain ⟨B₁, h₁⟩ : ∃ B₁, prologue d B = .ok B₁ := by
    rw [visitFunDeclaration_eq] at h
    obtain ⟨B₁, h₁, -⟩ := bind_ok.mp h
    exact ⟨B₁, h₁⟩
  have he := prologue_entering ht h₁
  have hall := visitFunDeclaration_keeps he h₁ h
  obtain ⟨htail, hnodup, hglobals, htypes, -⟩ := prologue_outer hd h₁
  refine ⟨?_, hnodup, ?_, hall.types.trans htypes⟩
  · rw [hall.scope]
    show B₁.enterScope.scope.tail = _
    rw [he.enterScope, htail]
  · rw [hall.globals, globalTypes_append]
    show B₁.globals = _
    rw [hglobals]
    simp [globalTypes]

/-! ## Parameters -/

theorem Param.variableType_eq (p : Param) :
    p.variableType = if p.isarray then .pointer p.type.type else p.type.type := by
  simp only [variableType, type_valueType]

/-- A parameter: its slot `C`, and the store of the argument. -/
theorem visitParam_slot {p : Param × Nat} (h : visitParam B p = .ok B') :
    ∃ A C s, Grows B A ∧ (∀ b, Calm b B → Calm b A) ∧
      A.fn = { B.fn with names := A.fn.names } ∧ A.bb = B.bb ∧
      B.scope.push p.1.id (.instr B.fn.next) = some s ∧
      C = { A.createAlloca p.1.variableType with scope := s } ∧
      B' = (C.createStore (.arg p.2) (.instr B.fn.next)).setVal C.emitted := by
  unfold visitParam at h
  dsimp only at h
  split at h
  · rename_i s hpush
    rw [Param.variableType_eq]
    exact ⟨{ B with fn := { B.fn with names := Function.update B.fn.names (.arg p.2) p.1.id } }, _, s,
      B.edges_grows rfl rfl rfl rfl rfl rfl,
      fun _ hB => ⟨hB.inBranch, hB.returnInBranch, hB.preReturns, hB.addressOnly⟩, rfl, rfl, hpush,
      rfl, (Except.ok.inj h).symm⟩
  · cases h

/-- The state while the arguments are stored. -/
structure Storing (B : Builder) (fs : Frames Val) (st : State Val World) : Prop where
  frames : Matches B st B.scope fs
  unnamed : ∀ m ∈ B.scope.head?, m.lookup "" = none

theorem Entering.known (he : Entering B) : ∀ m ∈ B.scope, ∀ id i,
    m.lookup id = some (.instr i) → i < B.fn.next := fun m hm id i hi =>
  (he.declared.scope m hm (id, .instr i) (lookup_mem hi)).known i rfl

/-- A slot that is pushed. -/
theorem push_eq {s s' : Scope} {id : String} {v : Value} (h : s.push id v = some s') :
    ∃ m rest, s = m :: rest ∧ s' = ((id, v) :: m) :: rest := by
  cases s with
  | nil => cases h
  | cons m rest => exact ⟨m, rest, rfl, push_cases h⟩

/-- Inside a function there is a scope around the innermost one. -/
theorem Entering.scopes (he : Entering B) : ∃ m rest, B.scope = m :: rest ∧ rest ≠ [] := by
  obtain ⟨top, htop, -⟩ := he.outer
  cases hB : B.scope with
  | nil =>
    rw [hB] at htop
    cases htop
  | cons m rest =>
    rw [hB, List.tail_cons] at htop
    exact ⟨m, rest, rfl, htop ▸ List.cons_ne_nil _ _⟩

theorem Param.variableType_isArray (p : Param) : p.variableType.isArray = false := by
  unfold Param.variableType
  split_ifs
  · rfl
  · cases p.type <;> rfl

/-- The slot in scope. -/
theorem slot_wf {A C : Builder} {t : Ty} {s : Scope} (hA : Wf A)
    (hC : C = { A.createAlloca t with scope := s }) : Wf C := by
  have hgrows : Grows A C :=
    (create_grows A .alloca (.pointer t) [] .EQ).same (by rw [hC]; rfl) (by rw [hC]; rfl)
  exact (hgrows hA).1

/-- The slot of a parameter. -/
theorem visitParam_alloca {p : Param × Nat} (hw : Wf B) (h : visitParam B p = .ok B') :
    B.fn.next < B'.fn.next ∧ (B'.fn.instr B.fn.next).op = .alloca ∧
      (B'.fn.instr B.fn.next).ty = .pointer p.1.variableType := by
  obtain ⟨A, C, s, hgrows, -, hA, -, -, hC, hB'⟩ := visitParam_slot h
  have hnext : A.fn.next = B.fn.next := by rw [hA]
  have hfnC : C.fn = (A.createAlloca p.1.variableType).fn := by rw [hC]
  obtain ⟨hnextC, hinstrC⟩ := createAlloca_emits A p.1.variableType
  rw [← hfnC, hnext] at hnextC hinstrC
  have hx : Extends C.fn B'.fn :=
    hB' ▸ (createStore_grows C _ _ (slot_wf (hgrows hw).1 hC)).2
  have hlt : B.fn.next < C.fn.next := by
    rw [hnextC]
    exact Nat.lt_succ_self _
  rw [hx.instr _ hlt, hinstrC]
  exact ⟨Nat.lt_of_lt_of_le hlt hx.next, rfl, rfl⟩

/-- **A parameter is stored.** -/
theorem visitParam_trace {p : Param × Nat} {fs : Frames Val} (he : Entering B)
    (h : visitParam B p = .ok B') (hid : p.1.id ≠ "") (hF : Extends B'.fn F)
    (hst : Storing B fs st) : ∃ tr st', F.Trace M (here B) st tr (here B') st' ∧
      st'.world = st.world ∧
      Storing B' (fs.declare p.1.id ⟨p.1.variableType, some (M.const (.arg p.2))⟩) st' := by
  obtain ⟨hlt, hop, hty⟩ := visitParam_alloca he.wf h
  obtain ⟨A, C, s, hgrows, -, hA, hbb, hpush, hC, hB'⟩ := visitParam_slot h
  obtain ⟨m, rest, hscope, rfl⟩ := push_eq hpush
  have hknown := he.known
  have hrest : rest ≠ [] := by
    obtain ⟨m', rest', hscope', hrest'⟩ := he.scopes
    rw [hscope] at hscope'
    exact (List.cons.inj hscope').2 ▸ hrest'
  rw [hscope] at hknown
  have hnext : A.fn.next = B.fn.next := by rw [hA]
  have hhereA : here A = here B := by rw [here, here, hbb, hA]
  have hfnC : C.fn = (A.createAlloca p.1.variableType).fn := by rw [hC]
  have hscopeC : C.scope = ((p.1.id, .instr B.fn.next) :: m) :: rest := by rw [hC]
  have hhereC : here C = here (A.createAlloca p.1.variableType) := by rw [hC]; rfl
  -- the alloca
  have hstore : Extends (C.createStore (.arg p.2) (.instr B.fn.next)).fn F := by
    rw [hB'] at hF
    exact hF
  have hxC : Extends C.fn F :=
    (createStore_grows C _ _ (slot_wf (hgrows he.wf).1 hC)).2.trans hstore
  have htr := createAlloca_trace (M := M) (hfnC ▸ hxC) st
  -- the store
  have hslot : ∀ st : State Val World, st.slots B.fn.next = M.const (.arg p.2) →
      SlotOf B' st ⟨p.1.variableType, some (M.const (.arg p.2))⟩ B.fn.next := by
    intro st hval
    refine ⟨hlt, hop, hty, fun _ v hv => hval.trans (Option.some.inj hv), fun harr => ?_⟩
    rw [p.1.variableType_isArray] at harr
    cases harr
  have hcell : F.cell (.instr B.fn.next) = some B.fn.next := by
    simp [Func.cell, hF.instr _ hlt, hop, hty, Ty.pointerElementType, p.1.variableType_isArray]
  obtain ⟨-, hstoreInstr⟩ := emit_stands hstore
  have hexec' := Func.execInstr_store (M := M) (by rw [hstoreInstr]) (by rw [hstoreInstr]) hcell
    (setReg st A.fn.next (M.addr A.fn.next))
  have htr' := emit_trace hstore rfl hexec'
  have hhereB' : here B' = here (C.createStore (.arg p.2) (.instr B.fn.next)) := by rw [hB']; rfl
  have hscopeB' : B'.scope = ((p.1.id, .instr B.fn.next) :: m) :: rest := by rw [hB', ← hscopeC]; rfl
  rw [← hhereC, hhereA] at htr
  have hall : F.Trace M (here B) st _ (here (C.createStore (.arg p.2) (.instr B.fn.next))) _ :=
    htr.trans htr'
  rw [← hhereB'] at hall
  refine ⟨_, _, hall, rfl, ?_, ?_⟩
  · rw [hscopeB']
    refine Matches.declare ?_ hrest (fun m' hm' id i hi => Nat.ne_of_lt (hknown m' hm' id i hi))
      (hslot _ ?_)
    · have hframes := hst.frames
      rw [hscope] at hframes
      refine hframes.mono (visitParam_grows h he.wf).2 (fun i hi => ?_) fun m' hm' id i hi => ?_
      · rw [Func.setSlot_regs, Func.setReg_regs, hnext, Function.update_of_ne (Nat.ne_of_lt hi)]
      · rw [Func.setSlot_slots, Function.update_of_ne (Nat.ne_of_lt (hknown m' hm' id i hi))]
        rfl
    · rw [Func.setSlot_slots, Function.update_self]
      rfl
  · rw [hscopeB']
    rintro m' ⟨⟩
    rw [lookup_cons_ne (Ne.symm hid)]
    exact hst.unnamed m (by rw [hscope]; rfl)

theorem visitParams_trace (l : List (Param × Nat)) : ∀ {B B' : Builder} {fs : Frames Val}
    {st : State Val World}, Entering B → l.foldlM visitParam B = .ok B' →
      (∀ p ∈ l, p.1.id ≠ "") → Extends B'.fn F → Storing B fs st →
      ∃ tr st', F.Trace M (here B) st tr (here B') st' ∧ st'.world = st.world ∧
        Storing B' (parameters M l fs) st' := by
  induction l with
  | nil =>
    intro B B' fs st _ h _ _ hst
    cases h
    exact ⟨[], st, .refl _ _, rfl, hst⟩
  | cons p l ih =>
    intro B B' fs st he h hids hF hst
    rw [List.foldlM_cons] at h
    obtain ⟨B₁, h₁, h₂⟩ := bind_ok.mp h
    obtain ⟨hid, hids⟩ := List.forall_mem_cons.mp hids
    have he₁ := visitParam_entering he h₁
    have hx : Extends B₁.fn B'.fn :=
      (foldlM_grows (fun _ _ _ => visitParam_grows) l B₁ B' h₂ he₁.wf).2
    obtain ⟨tr, st₁, htr, hworld, hst₁⟩ := visitParam_trace (M := M) he h₁ hid (hx.trans hF) hst
    obtain ⟨tr', st₂, htr', hworld', hst₂⟩ := ih he₁ h₂ hids hF hst₁
    exact ⟨_, st₂, htr.trans htr', hworld'.trans hworld, hst₂⟩

/-! ## In front of the body -/

/-- Frames that agree on what has a name. -/
theorem Matches.congr {m : List (String × Value)} {rest : Scope}
    {fr fr' : String → Option (Typed Val)} {frames : Frames Val}
    (h : Matches B st (m :: rest) (fr :: frames)) (heq : ∀ id, id ≠ "" → fr' id = fr id) :
    Matches B st (m :: rest) (fr' :: frames) := by
  cases h with
  | scope hm hown hapart hrest =>
    exact .scope (fun id hid => by rw [heq id hid]; exact hm id hid) hown hapart hrest

/-- The slot of the result. -/
theorem result_trace {t : Ty} {fs : Frames Val} (he : Entering B)
    (hB' : B' = { B.createAlloca t with
      scope := ((B.createAlloca t).scope.push "" (B.createAlloca t).val).getD
        (B.createAlloca t).scope })
    (hF : Extends B'.fn F) (hst : Storing B fs st) :
    ∃ tr st', F.Trace M (here B) st tr (here B') st' ∧ st'.world = st.world ∧
      Matches B' st' B'.scope fs ∧ B'.scope.find "" = some (.instr B.fn.next) ∧
        B.fn.next < B'.fn.next ∧ (B'.fn.instr B.fn.next).op = .alloca ∧
          (B'.fn.instr B.fn.next).ty = .pointer t := by
  obtain ⟨m, rest, hscope, hrest⟩ := he.scopes
  have hknown := he.known
  rw [hscope] at hknown
  have hnone : m.lookup "" = none := hst.unnamed m (by rw [hscope]; rfl)
  have hpush : (B.createAlloca t).scope.push "" (B.createAlloca t).val =
      some ((("", .instr B.fn.next) :: m) :: rest) := by
    have hscope' : (B.createAlloca t).scope = m :: rest := hscope
    rw [hscope', Scope.push, hnone]
    rfl
  rw [hpush, Option.getD_some] at hB'
  have hfn : B'.fn = (B.createAlloca t).fn := by rw [hB']
  have hscopeB' : B'.scope = (("", .instr B.fn.next) :: m) :: rest := by rw [hB']
  have hhere : here B' = here (B.createAlloca t) := by rw [hB']; rfl
  have hall := createAlloca_trace (M := M) (hfn ▸ hF) st
  have hx : Extends B.fn B'.fn := hfn ▸ (create_grows B .alloca (.pointer t) [] .EQ he.wf).2
  have hinstrB' : B'.fn.instr B.fn.next =
      { op := .alloca, ty := .pointer t, operands := [], parent := B.bb } := by
    rw [hfn]
    exact (createAlloca_emits B t).2
  have hlt : B.fn.next < B'.fn.next := by
    rw [hfn, (createAlloca_emits B t).1]
    exact Nat.lt_succ_self _
  rw [← hhere] at hall
  refine ⟨_, _, hall, rfl, ?_, ?_, hlt, by rw [hinstrB'], by rw [hinstrB']⟩
  · have hframes := hst.frames
    rw [hscope] at hframes
    have hmono : Matches B' (setReg st B.fn.next (M.addr B.fn.next)) (m :: rest) fs :=
      hframes.mono hx (setReg_next st _) fun _ _ _ _ _ => rfl
    have hslot : SlotOf B' (setReg st B.fn.next (M.addr B.fn.next)) ⟨t, none⟩ B.fn.next :=
      ⟨hlt, by rw [hinstrB'], by rw [hinstrB'], fun _ _ hv => absurd hv (by simp),
        fun _ _ hv => absurd hv (by simp)⟩
    have hdeclare : Matches B' _ ((("", .instr B.fn.next) :: m) :: rest)
        (fs.declare "" ⟨t, none⟩) := hmono.declare hrest
      (fun m' hm' id i hi => Nat.ne_of_lt (hknown m' hm' id i hi)) hslot
    rw [hscopeB']
    cases hmono with
    | globals g => exact absurd rfl hrest
    | scope hm hown hapart hmatch =>
      exact hdeclare.congr fun id hid => (Function.update_of_ne hid _ _).symm
  · rw [hscopeB', Scope.find, List.lookup_cons_self]
    rfl

/-- No function of a program has the name of the function for negative subscripts. -/
theorem lookup_except (hnodup : ((programScope ds).map Prod.fst).Nodup) :
    (functionTypes ds).reverse.lookup "neg_idx_except" = none := by
  cases hl : (functionTypes ds).reverse.lookup "neg_idx_except" with
  | none => rfl
  | some t =>
    rw [programScope, List.map_append, List.nodup_append] at hnodup
    have hmem := mem_entries (List.mem_reverse.mp (lookup_mem hl))
    have hname : "neg_idx_except" ∈ ((ds.map Declaration.entry).reverse).map Prod.fst :=
      List.mem_map.mpr ⟨_, List.mem_reverse.mpr hmem, rfl⟩
    exact absurd rfl (hnodup.2.2 _ hname _ (by simp [predefined]))

/-- The tables of the text are those of the builder. -/
theorem variables_eq (ds : List Declaration) :
    ds.filterMap Declaration.variable = globalTypes ds := by
  induction ds with
  | nil => rfl
  | cons d ds ih =>
    cases d with
    | fn d => exact ih
    | var d =>
      rw [globalTypes, ← ih]
      cases ht : variableType d with
      | ok t => simp [Declaration.variable, variableType_ok ht, Except.toOption]
      | error e => simp [Declaration.variable, variableType_error ht, Except.toOption]

theorem signature_eq (d : FunDeclaration) : d.signature = d.functionType := by
  simp only [FunDeclaration.signature, FunDeclaration.functionType, type_valueType]
  rfl

theorem signatures_eq (ds : List Declaration) :
    ds.filterMap Declaration.signature = functionTypes ds := by
  induction ds with
  | nil => rfl
  | cons d ds ih =>
    cases d with
    | var d => exact ih
    | fn d => rw [functionTypes, ← ih, ← signature_eq]; rfl

/-- What the text says is in scope. -/
theorem visible_of {d : FunDeclaration} (hscope : B.scope.tail = [programScope (ds ++ [.fn d])])
    (hnodup : ((programScope (ds ++ [.fn d])).map Prod.fst).Nodup)
    (hglobals : B.globals = globalTypes ds)
    (htypes : B.types = (functionTypes (ds ++ [.fn d])).reverse ++ predefined)
    (hreturn : B.returnType = d.type)
    (hresult : d.type.type ≠ .void → ∃ a, B.scope.find "" = some (.instr a) ∧ a < B.fn.next ∧
      (B.fn.instr a).op = .alloca ∧ (B.fn.instr a).ty = .pointer d.type.type) :
    Visible (Context.of ds d) B := by
  have hlast : ∀ id, B.scope.getGlobal id = (programScope (ds ++ [.fn d])).lookup id := by
    intro id
    cases hB : B.scope with
    | nil => rw [hB] at hscope; cases hscope
    | cons m rest =>
      rw [hB, List.tail_cons] at hscope
      rw [hscope]
      rfl
  have hcallee : ∀ id t, B.types.lookup id = some t → B.callee id = .ok (id, t) := by
    intro id t ht
    have hmem := lookup_mem ht
    rw [htypes] at hmem
    have hfound := lookup_of_nodup hnodup (mem_functionTypes hmem)
    unfold Builder.callee
    rw [hlast, hfound]
    dsimp only
    rw [ht]
  have hresult' : (Context.of ds d).returnType = d.type.type := (type_valueType d.type).symm
  refine ⟨fun id t ht => ?_, fun id t ht => ?_, ?_, ?_, hresult' ▸ hresult⟩
  · replace ht : (globalTypes ds).lookup id = some t := variables_eq ds ▸ ht
    refine ⟨?_, by simp only [typeOf, hglobals, ht, Option.getD_some]⟩
    rw [hlast]
    have hmem : (id, t) ∈ globalTypes (ds ++ [.fn d]) := by
      rw [globalTypes_append]
      exact List.mem_append_left _ (lookup_mem ht)
    exact lookup_of_nodup hnodup (mem_globalTypes hmem)
  · refine hcallee id t ?_
    rw [htypes, ← signatures_eq]
    exact ht
  · refine hcallee _ _ ?_
    rw [htypes, List.lookup_append, lookup_except hnodup]
    rfl
  · rw [hreturn, hresult']

theorem visible_enterScope (h : Visible Γ B) (he : B.enterInFunDecl = true) :
    Visible Γ B.enterScope := by
  have hscope : B.enterScope.scope = B.scope := by simp [enterScope, he]
  exact h.scope (Extends.refl _) rfl rfl rfl (fun id => by rw [hscope]) (by rw [hscope])

/-- No argument has been stored. -/
theorem enterFunction_storing {d : FunDeclaration} (hd : Declares ds B)
    (h : enterFunction d B = .ok B') (st : State Val World) : Storing B' [fun _ => none] st := by
  obtain ⟨m, hm⟩ : ∃ m, B'.scope = [[], m] := by
    obtain ⟨s, hpush, rfl⟩ := enterFunction_cases h
    rw [hd.scope] at hpush
    exact ⟨_, congrArg Scope.enter (push_cases hpush)⟩
  refine ⟨?_, ?_⟩
  · rw [hm]
    exact (Matches.globals _).empty
  · rw [hm]
    rintro m' ⟨⟩
    rfl

theorem zipIdx_named {ps : List Param} (h : "" ∉ ps.map Param.id) :
    ∀ p ∈ ps.zipIdx, p.1.id ≠ "" := by
  rintro p hp heq
  obtain ⟨i, hi⟩ := List.mem_iff_getElem?.mp hp
  rw [List.getElem?_zipIdx] at hi
  obtain ⟨q, hq, rfl⟩ := Option.map_eq_some_iff.mp hi
  exact h (heq ▸ List.mem_map_of_mem (List.mem_of_getElem? hq))

/-- **In front of the body** the parameters hold the arguments. -/
theorem prologue_trace {d : FunDeclaration} (ht : TopLevel B) (hd : Declares ds B)
    (h : prologue d B = .ok B') (hids : "" ∉ d.params.map Param.id) (hF : Extends B'.fn F)
    (st : State Val World) :
    ∃ tr st', F.Trace M ⟨0, 0⟩ st tr (here B') st' ∧
      Corresponds (Context.of ds d) B'.enterScope
        ⟨parameters M d.params.zipIdx [fun _ => none], st.world⟩ st' := by
  have he := prologue_entering ht h
  obtain ⟨htail, hnodup, hglobals, htypes, hreturn⟩ := prologue_outer hd h
  have hvisible := visible_of htail hnodup hglobals htypes hreturn
  have hscope := he.enterScope
  -- it is enough to get to the end with the parameters in their slots
  have hdone : ∀ st' : State Val World, st'.world = st.world →
      Matches B' st' B'.scope (parameters M d.params.zipIdx [fun _ => none]) →
      Visible (Context.of ds d) B' → Corresponds (Context.of ds d) B'.enterScope
        ⟨parameters M d.params.zipIdx [fun _ => none], st.world⟩ st' := by
    intro st' hworld hmatch hv
    refine ⟨visible_enterScope hv he.enterInFunDecl, hworld, ?_⟩
    rw [hscope]
    exact hmatch.mono (Extends.refl _) (fun _ _ => rfl) fun _ _ _ _ _ => rfl
  obtain ⟨B₁, h₁, h⟩ := bind_ok.mp h
  obtain ⟨B₂, h₂, h⟩ := bind_ok.mp h
  have he₁ := enterFunction_entering ht h₁
  have he₂ := visitParams_entering _ he₁ h₂
  obtain ⟨hfn, hbb, -⟩ := enterFunction_ok h₁
  have hstart : here B₁ = ⟨0, 0⟩ := by rw [here, hbb, hfn]; rfl
  have hempty : Storing B₁ [fun _ => none] st := enterFunction_storing hd h₁ st
  have hparams := zipIdx_named hids
  obtain ⟨B₃, hB₃⟩ : ∃ B₃ : Builder, B₃ = { B₂ with bbCounter := 0, returnType := d.type } :=
    ⟨_, rfl⟩
  have hreset : Entering B₃ := by
    subst hB₃
    exact he₂.reset (Grows.of_same rfl rfl) rfl rfl rfl rfl rfl rfl
  have hhere : here B₃ = here B₂ := by rw [hB₃]; rfl
  have hfn₃ : B₃.fn = B₂.fn := by rw [hB₃]
  have hscope₃ : B₃.scope = B₂.scope := by rw [hB₃]
  simp only [← hB₃] at h
  split_ifs at h with hvoid
  · -- a result
    obtain ⟨D, hD⟩ : ∃ D : Builder, D = { B₃.createAlloca d.type.type with
        scope := ((B₃.createAlloca d.type.type).scope.push ""
          (B₃.createAlloca d.type.type).val).getD (B₃.createAlloca d.type.type).scope } := ⟨_, rfl⟩
    obtain rfl : D = B' := by
      rw [hD]
      exact Except.ok.inj h
    have hx : Extends B₃.fn D.fn := by
      have hfnD : D.fn = (B₃.createAlloca d.type.type).fn := by rw [hD]
      exact hfnD ▸ (create_grows B₃ .alloca (.pointer d.type.type) [] .EQ hreset.wf).2
    obtain ⟨tr, st₂, htr, hworld, hst₂⟩ := visitParams_trace (M := M) _ he₁ h₂ hparams
      (hfn₃ ▸ hx.trans hF) hempty
    have hst₃ : Storing B₃ (parameters M d.params.zipIdx [fun _ => none]) st₂ := by
      refine ⟨?_, by rw [hscope₃]; exact hst₂.unnamed⟩
      rw [hscope₃]
      exact hst₂.frames.mono (hfn₃ ▸ Extends.refl _) (fun _ _ => rfl) fun _ _ _ _ _ => rfl
    obtain ⟨tr', st₃, htr', hworld', hmatch, hresult⟩ := result_trace (M := M) hreset hD hF hst₃
    rw [hhere] at htr'
    refine ⟨_, st₃, hstart ▸ htr.trans htr', hdone st₃ (hworld'.trans hworld) hmatch ?_⟩
    exact hvisible fun _ => ⟨_, hresult⟩
  · obtain rfl : B₃ = B' := Except.ok.inj h
    obtain ⟨tr, st₂, htr, hworld, hst₂⟩ := visitParams_trace (M := M) _ he₁ h₂ hparams
      (hfn₃ ▸ hF) hempty
    rw [← hhere, hstart] at htr
    refine ⟨_, st₂, htr, hdone st₂ hworld ?_ ?_⟩
    · rw [hscope₃]
      exact hst₂.frames.mono (hfn₃ ▸ Extends.refl _) (fun _ _ => rfl) fun _ _ _ _ _ => rfl
    · refine hvisible fun hne => absurd ?_ hne
      rw [not_not] at hvoid
      rw [hvoid]
      rfl

/-! ## Quiet functions -/

/-- No `return` is visited in a branch. -/
def FunDeclaration.quiet (d : FunDeclaration) : Bool := d.statementList.quiet false

/-- The functions of a program are quiet. -/
def Declaration.quiet : Declaration → Bool
  | .var _ => true
  | .fn d => d.quiet

theorem branchAfter_false {k : Kind} (a : Ast k) : a.branchAfter false = false := by
  induction a with
  | compoundStmt ds ss ih => exact ih
  | stmt s rest ihs ihrest => rw [Ast.branchAfter, ihs, ihrest]
  | _ => rfl

theorem visitParam_calm {b : Bool} {p : Param × Nat} (h : visitParam B p = .ok B')
    (hB : Calm b B) : Calm b B' := by
  obtain ⟨A, C, s, -, hcalm, -, -, -, hC, hB'⟩ := visitParam_slot h
  have hA := hcalm b hB
  have hpushed : Calm b C := by
    rw [hC]
    exact ⟨hA.inBranch, hA.returnInBranch, hA.preReturns, hA.addressOnly⟩
  rw [hB']
  exact ⟨hpushed.inBranch, hpushed.returnInBranch, hpushed.preReturns, hpushed.addressOnly⟩

theorem prologue_calm {b : Bool} {d : FunDeclaration} (h : prologue d B = .ok B')
    (hB : Calm b B) : Calm b B' := by
  obtain ⟨B₁, h₁, h⟩ := bind_ok.mp h
  obtain ⟨B₂, h₂, h⟩ := bind_ok.mp h
  have h₁' : Calm b B₁ := by
    obtain ⟨s, -, rfl⟩ := enterFunction_cases h₁
    exact ⟨hB.inBranch, hB.returnInBranch, hB.preReturns, hB.addressOnly⟩
  have h₂' : Calm b B₂ :=
    @Fallible.foldlM_keeps _ _ _ visitParam (Calm b) _
      (fun p _ s s' hs hp => visitParam_calm hp hs) _ _ h₁' h₂
  dsimp only at h
  split_ifs at h
  · rw [← Except.ok.inj h]
    exact ⟨h₂'.inBranch, h₂'.returnInBranch, h₂'.preReturns, h₂'.addressOnly⟩
  · rw [← Except.ok.inj h]
    exact ⟨h₂'.inBranch, h₂'.returnInBranch, h₂'.preReturns, h₂'.addressOnly⟩

theorem visitFunDeclaration_calm {d : FunDeclaration} (h : visitFunDeclaration d B = .ok B')
    (hq : d.quiet = true) (hB : Calm false B) : Calm false B' := by
  rw [visitFunDeclaration_eq] at h
  obtain ⟨B₁, h₁, h⟩ := bind_ok.mp h
  obtain ⟨B₂, h₂, h⟩ := bind_ok.mp h
  have h₂' := visit_calm (.compoundStmt d.localDeclarations d.statementList) B₁ B₂ h₂ rfl hq
    (prologue_calm h₁ hB)
  rw [branchAfter_false] at h₂'
  split_ifs at h
  · rwa [← Except.ok.inj h]
  · exact visit_calm .returnVoidStmt B₂ B' h rfl rfl h₂'

/-! ## What is emitted for a function -/

/-- Every block may be written. -/
def anyBlock (_ : BlockId) : Prop := True

theorem visitParam_assembled {p : Param × Nat} {f : Func} (h : visitParam B p = .ok B')
    (hA : Assembled anyBlock f B) : Assembled anyBlock f B' := by
  obtain ⟨A, C, s, hgrows, -, hfn, -, -, hC, hB'⟩ := visitParam_slot h
  have hname : Assembled anyBlock f A :=
    hA.of_grows hgrows (hfn ▸ hA.builds.names _) trivial
  have hslot : Assembled anyBlock f (A.createAlloca p.1.variableType) := hname.create nofun
  have hpushed : Assembled anyBlock f C := hslot.same (by rw [hC]) (by rw [hC])
  exact (hpushed.createStore (.arg p.2) (.instr B.fn.next)).same (by rw [hB']; rfl)
    (by rw [hB']; rfl)

theorem prologue_assembled {d : FunDeclaration} (h : prologue d B = .ok B') :
    Assembled anyBlock (newFunc d.id d.functionType) B' := by
  obtain ⟨B₁, h₁, h⟩ := bind_ok.mp h
  obtain ⟨B₂, h₂, h⟩ := bind_ok.mp h
  obtain ⟨hfn, -, -⟩ := enterFunction_ok h₁
  rw [← hfn]
  have hA₁ : Assembled anyBlock B₁.fn B₁ := ⟨enterFunction_wf h₁, .refl, trivial, fun _ _ => trivial⟩
  have hA₂ : Assembled anyBlock B₁.fn B₂ :=
    @Fallible.foldlM_keeps _ _ _ visitParam (Assembled anyBlock B₁.fn) _
      (fun p _ s s' hs hp => visitParam_assembled hp hs) _ _ hA₁ h₂
  obtain ⟨B₃, hB₃⟩ : ∃ B₃ : Builder, B₃ = { B₂ with bbCounter := 0, returnType := d.type } :=
    ⟨_, rfl⟩
  have hA₃ : Assembled anyBlock B₁.fn B₃ := hA₂.same (by rw [hB₃]) (by rw [hB₃])
  simp only [← hB₃] at h
  split_ifs at h
  · have hslot : Assembled anyBlock B₁.fn (B₃.createAlloca d.type.type) := hA₃.create nofun
    rw [← Except.ok.inj h]
    exact hslot.same rfl rfl
  · rwa [← Except.ok.inj h]

theorem visitFunDeclaration_assembled {d : FunDeclaration} (h : visitFunDeclaration d B = .ok B') :
    Assembled anyBlock (newFunc d.id d.functionType) B' := by
  rw [visitFunDeclaration_eq] at h
  obtain ⟨B₁, h₁, h⟩ := bind_ok.mp h
  obtain ⟨B₂, h₂, h⟩ := bind_ok.mp h
  have hA₁ := prologue_assembled h₁
  have hA₂ := visit_assembled (.compoundStmt d.localDeclarations d.statementList) B₁ B₂ h₂ hA₁
    (.inl fun _ => trivial)
  split_ifs at h
  · rwa [← Except.ok.inj h]
  · exact visit_assembled .returnVoidStmt B₂ B' h hA₂ (.inl fun _ => trivial)

/-- **There are no phis.** -/
theorem visitFunDeclaration_phiFree {d : FunDeclaration} (h : visitFunDeclaration d B = .ok B') :
    B'.fn.PhiFree := by
  have hA := visitFunDeclaration_assembled h
  intro b i hi
  exact hA.builds.op (fun j hj => absurd hj (Nat.not_lt_zero j)) i (hA.wf.body b i hi)

/-! ## Functions -/

/-- The number of the local declarations of a function. -/
def FunDeclaration.decls (d : FunDeclaration) : Nat :=
  d.localDeclarations.length + d.statementList.decls

/-- What follows the body of a function. -/
theorem visitFunDeclaration_end {d : FunDeclaration} (h : visitFunDeclaration d B = .ok B')
    (h₁ : prologue d B = .ok B₁) (hcalm : Calm false B₁) (hq : d.quiet = true) :
    ∃ D₁ D₂, d.localDeclarations.foldlM visitVarDeclaration B₁.enterScope = .ok D₁ ∧
      visit d.statementList D₁ = .ok D₂ ∧ Calm false D₁ ∧
      ((D₂.fn.terminator D₂.bb).isSome = true ∧ B'.fn = D₂.fn ∨
        B'.fn = (D₂.exitScope.createRet none).fn) := by
  rw [visitFunDeclaration_eq] at h
  obtain ⟨B₁', h₁', h⟩ := bind_ok.mp h
  obtain rfl := Except.ok.inj (h₁.symm.trans h₁')
  obtain ⟨B₂, h₂, h⟩ := bind_ok.mp h
  have hcalm₂ := visit_calm (.compoundStmt d.localDeclarations d.statementList) B₁ B₂ h₂ rfl hq hcalm
  rw [branchAfter_false] at hcalm₂
  obtain ⟨D₁, hD₁, h₂⟩ := bind_ok.mp h₂
  obtain ⟨D₂, hD₂, h₂⟩ := bind_ok.mp h₂
  obtain rfl := Except.ok.inj h₂
  have hlocals : Calm false D₁ :=
    @Fallible.foldlM_keeps _ _ _ visitVarDeclaration (Calm false) d.localDeclarations
      (fun d _ s s' hs hd => visitVarDeclaration_calm hd hs) B₁.enterScope D₁
      ⟨hcalm.inBranch, hcalm.returnInBranch, hcalm.preReturns, hcalm.addressOnly⟩ hD₁
  refine ⟨D₁, D₂, hD₁, hD₂, hlocals, ?_⟩
  split_ifs at h with hterm
  · exact .inl ⟨hterm, by rw [← Except.ok.inj h]; rfl⟩
  · right
    have hret : D₂.exitScope.finishReturn false = .ok B' := h
    unfold finishReturn at hret
    rw [if_neg Bool.false_ne_true, hcalm₂.inBranch, if_neg Bool.false_ne_true,
      enterReturnBlock_eq hcalm₂.preReturns] at hret
    rw [← Except.ok.inj hret]

/-- Behind a `br` or a `ret` no execution goes on in the block. -/
theorem not_reached {tr : List InstrId} (hterm : (B.fn.terminator B.bb).isSome = true)
    (h : B.fn.Trace M ⟨0, 0⟩ st tr (here B) st') : False := by
  unfold Func.terminator at hterm
  cases hlast : (B.fn.body B.bb).getLast? with
  | none => simp [hlast] at hterm
  | some i =>
    rw [hlast] at hterm
    dsimp only at hterm
    split_ifs at hterm with hi
    · have hne : B.fn.body B.bb ≠ [] := fun hnil => by
        rw [hnil] at hlast
        cases hlast
      have hpos : (B.fn.body B.bb).length ≠ 0 := fun h => hne (List.length_eq_zero_iff.mp h)
      rcases h.behind with hq | hq | ⟨j, hj, hnot⟩
      · exact hpos hq
      · exact hpos (congrArg Point.index hq)
      · rw [List.getLast?_eq_getElem?] at hlast
        obtain rfl := Option.some.inj (hlast.symm.trans hj)
        rw [hi] at hnot
        cases hnot
    · cases hterm

/-- A function behaves as its text says, with the local arrays at the addresses of allocas, where the
code does not depart from the meaning. -/
theorem visitFunDeclaration_denotes {d : FunDeclaration} (ht : TopLevel B) (hd : Declares ds B)
    (hcalm : Calm false B) (hq : d.quiet = true) (h : visitFunDeclaration d B = .ok B') :
    ∃ l : List InstrId, l.length = d.decls ∧ l.Pairwise (· < ·) ∧
      (∀ i ∈ l, i < B'.fn.next ∧ (B'.fn.instr i).op = .alloca) ∧
      ∀ (Val World : Type) (M : Machine Val World), Lawful M →
        ∀ arb n w addr, Numbered M addr 0 l →
          B'.fn.Behaves M arb n w (d.denote true M (Context.of ds d) addr n w) := by
  obtain ⟨B₁, h₁⟩ : ∃ B₁, prologue d B = .ok B₁ := by
    have h' := h
    rw [visitFunDeclaration_eq] at h'
    obtain ⟨B₁, h₁, -⟩ := bind_ok.mp h'
    exact ⟨B₁, h₁⟩
  obtain ⟨D₁, D₂, hD₁, hD₂, hcalm₁, hend⟩ := visitFunDeclaration_end h h₁ (prologue_calm h₁ hcalm) hq
  have he := prologue_entering ht h₁
  have htail : B₁.enterScope.scope.tail ≠ [] := by
    obtain ⟨m, hm, -⟩ := he.outer
    rw [he.enterScope, hm]
    exact List.cons_ne_nil _ _
  obtain ⟨l, hlen, hslots, hx, hcompute⟩ :=
    @declarations_compute (Context.of ds d) d.localDeclarations _ _ he.ready htail hD₁
  have hr₁ := visitVarDeclarations_ready _ he.ready htail hD₁
  have hs₂ := visitStatement_step (by simp) hD₂ hr₁
  have hacts : Acts (Context.of ds d) d.statementList fun M addr n =>
    d.statementList.denote true M (Context.of ds d) addr n := visitStatement_correct d.statementList
  obtain ⟨l', hlen', hslots', hcompute'⟩ := hacts false D₁ D₂ hD₂ hr₁ hcalm₁ hq
  have hF : Extends D₂.fn B'.fn := by
    rcases hend with ⟨-, hend⟩ | hend
    · exact hend ▸ Extends.refl _
    · have hgrows : Grows D₂ D₂.exitScope := Grows.of_same rfl rfl
      have hexit := (hgrows hs₂.ready.wf).1
      exact hend ▸ (createRet_grows D₂.exitScope none hexit).2
  have hall := (hslots.append hslots' hx hs₂.ext).mono (Extends.refl _) hF
  refine ⟨l ++ l', ?_, hall.sorted, fun i hi => ⟨(hall.range i hi).2, hall.op i hi⟩, ?_⟩
  · rw [List.length_append, hlen, hlen']
    rfl
  intro Val World M hM arb n w addr hnum
  have hphi := visitFunDeclaration_phiFree h
  have hentry : B'.fn.entry = 0 := (visitFunDeclaration_linked h).1.entry_eq
  unfold FunDeclaration.denote
  split_ifs with hids
  · trivial
  have hF₁ : Extends B₁.fn B'.fn := (hx.trans hs₂.ext).trans hF
  obtain ⟨tr, st₁, htr, hcorr⟩ := prologue_trace (M := M) ht hd h₁ hids hF₁ (B'.fn.start M w).st
  have hbody : B'.fn.Computes M n ⟨B'.fn.entry, 0⟩ (B'.fn.start M w).st
      (do
        let σ ← declarations addr d.localDeclarations 0
          ⟨parameters M d.params.zipIdx [fun _ => none], w⟩
        d.statementList.denote true M (Context.of ds d) addr n d.localDeclarations.length σ)
      (fun σ q st' => q = here D₂ ∧ st'.world = σ.world) := by
    rw [hentry]
    refine Computes.after ?_ htr
    refine (hcompute Val World M n B'.fn _ st₁ addr 0 (hs₂.ext.trans hF) hcorr hnum.left).bind ?_
    rintro σ q st₂ hσ
    obtain rfl := hσ.point
    have hright := hnum.right
    rw [Nat.zero_add, hlen] at hright
    refine (hcompute' Val World M hM n B'.fn σ st₂ addr _ hF hσ.corr hright).mono (Nat.le_refl n) ?_
    exact fun σ' q st' h => ⟨h.point, h.corr.world⟩
  dsimp only
  revert hbody
  generalize (do
    let σ ← declarations addr d.localDeclarations 0
      (⟨parameters M d.params.zipIdx [fun _ => none], w⟩ : Store Val World)
    d.statementList.denote true M (Context.of ds d) addr n d.localDeclarations.length σ) = r
  intro hbody
  cases r with
  | error h => exact hbody.behaves arb hphi
  | ok σ =>
    obtain ⟨tr, q, st', htr, rfl, hworld⟩ := hbody
    rcases hend with ⟨hterm, hfn⟩ | hfn
    · rw [hentry, hfn] at htr
      exact absurd htr (not_reached hterm)
    · have hfinish := @createRet_finishes _ _ M D₂.exitScope B'.fn none (hfn ▸ Extends.refl _) st'
      rw [Option.map_none, hworld] at hfinish
      have hdone : B'.fn.Computes M n ⟨B'.fn.entry, 0⟩ (B'.fn.start M w).st
          (.error (.done (.returned none σ.world)) : Run Val World Unit) (fun _ _ _ => True) :=
        ⟨tr, _, st', htr, hfinish⟩
      exact hdone.behaves arb hphi

/-- **A function behaves as its text says** where the code agrees with the language document. -/
theorem visitFunDeclaration_correct {d : FunDeclaration} (ht : TopLevel B) (hd : Declares ds B)
    (hcalm : Calm false B) (hq : d.quiet = true) (hagreed : d.agreed (Context.of ds d) = true)
    (h : visitFunDeclaration d B = .ok B') :
    ∃ l : List InstrId, l.length = d.decls ∧ l.Pairwise (· < ·) ∧
      (∀ i ∈ l, i < B'.fn.next ∧ (B'.fn.instr i).op = .alloca) ∧
      ∀ (Val World : Type) (M : Machine Val World), Lawful M →
        ∀ arb n w addr, Numbered M addr 0 l →
          B'.fn.Behaves M arb n w (d.meaning M (Context.of ds d) addr n w) := by
  obtain ⟨l, hlen, hsorted, hslots, hbehaves⟩ := visitFunDeclaration_denotes ht hd hcalm hq h
  refine ⟨l, hlen, hsorted, hslots, fun Val World M hM arb n w addr hnum => ?_⟩
  rcases FunDeclaration.denote_agreed hagreed w with hundefined | heq
  · rw [hundefined]
    trivial
  · exact heq ▸ hbehaves Val World M hM arb n w addr hnum

/-! ## Programs -/

theorem freshBuilder_calm : Calm false freshBuilder := ⟨rfl, rfl, rfl, rfl⟩

/-- What is known behind the declarations `ds ++ ds'`. -/
theorem visitProgram_declares (ds' : List Declaration) : ∀ {ds : List Declaration} {B B' : Builder},
    TopLevel B → Declares ds B → Calm false B → (∀ e ∈ ds', e.quiet = true) →
      visitProgram ds' B = .ok B' → Declares (ds ++ ds') B' ∧ Calm false B' := by
  induction ds' with
  | nil =>
    intro ds B B' _ hd hcalm _ h
    cases h
    exact ⟨by rwa [List.append_nil], hcalm⟩
  | cons e ds' ih =>
    intro ds B B' ht hd hcalm hq h
    obtain ⟨he, hrest⟩ := List.forall_mem_cons.mp hq
    simp only [visitProgram, List.foldlM_cons] at h
    obtain ⟨B₁, h₁, h₂⟩ := bind_ok.mp h
    rw [List.append_cons ds e ds']
    cases e with
    | var d =>
      exact ih (visitVarDeclaration_topLevel ht h₁) (visitVarDeclaration_declares hd h₁).1
        (visitVarDeclaration_calm h₁ hcalm) hrest h₂
    | fn d =>
      exact ih (visitFunDeclaration_topLevel ht h₁) (visitFunDeclaration_declares ht hd h₁)
        (visitFunDeclaration_calm h₁ he hcalm) hrest h₂

/-- A global variable is no part of a function. -/
theorem visitVarDeclaration_fn {d : VarDeclaration} (ht : TopLevel B)
    (h : B.visitVarDeclaration d = .ok B') : B'.fn = B.fn := by
  obtain ⟨m, hm, -⟩ := ht.scope
  have hin : B.scope.inGlobal = true := by simp [Scope.inGlobal, hm]
  obtain ⟨t, -, h⟩ := bind_ok.mp h
  simp only [hin, if_true] at h
  split at h
  · rw [← Except.ok.inj h]
    rfl
  · cases h

/-- The functions of the module stay as they are. -/
theorem visitProgram_functions (ds : List Declaration) : ∀ {B B' : Builder}, TopLevel B →
    visitProgram ds B = .ok B' → ∃ l, B'.functions ++ [B'.fn] = B.functions ++ [B.fn] ++ l ∧
      l.length = (functionTypes ds).length := by
  induction ds with
  | nil =>
    intro B B' _ h
    cases h
    exact ⟨[], by simp, rfl⟩
  | cons e ds ih =>
    intro B B' ht h
    simp only [visitProgram, List.foldlM_cons] at h
    obtain ⟨B₁, h₁, h₂⟩ := bind_ok.mp h
    cases e with
    | var d =>
      obtain ⟨l, hl, hlen⟩ := ih (visitVarDeclaration_topLevel ht h₁) h₂
      rw [visitVarDeclaration_functions h₁, visitVarDeclaration_fn ht h₁] at hl
      exact ⟨l, hl, hlen⟩
    | fn d =>
      obtain ⟨l, hl, hlen⟩ := ih (visitFunDeclaration_topLevel ht h₁) h₂
      rw [(visitFunDeclaration_linked h₁).2] at hl
      exact ⟨B₁.fn :: l, by rw [hl]; simp, by simp [functionTypes, hlen]⟩

/-- The visit of a definition, behind quiet declarations. -/
theorem visitProgram_split {ds' : List Declaration} {d : FunDeclaration}
    (h : visitProgram (ds ++ .fn d :: ds') freshBuilder = .ok B)
    (hq : ∀ e ∈ ds, e.quiet = true) :
    ∃ B₀ B₁, TopLevel B₀ ∧ Declares ds B₀ ∧ Calm false B₀ ∧ visitFunDeclaration d B₀ = .ok B₁ ∧
      (B.functions ++ [B.fn])[(functionTypes ds).length + 1]? = some B₁.fn ∧
      B₁.fn.name = d.id := by
  simp only [visitProgram, List.foldlM_append, List.foldlM_cons] at h
  obtain ⟨B₀, h₀, h⟩ := bind_ok.mp h
  obtain ⟨B₁, h₁, h₂⟩ := bind_ok.mp h
  have ht := visitProgram_topLevel ds freshBuilder_topLevel h₀
  obtain ⟨hd, hcalm⟩ := visitProgram_declares ds freshBuilder_topLevel freshBuilder_declares
    freshBuilder_calm hq h₀
  obtain ⟨l, hl, hlen⟩ := visitProgram_functions ds freshBuilder_topLevel h₀
  obtain ⟨l', hl', -⟩ := visitProgram_functions ds' (visitFunDeclaration_topLevel ht h₁) h₂
  refine ⟨B₀, B₁, ht, hd, hcalm, h₁, ?_, (visitFunDeclaration_assembled h₁).builds.name⟩
  have hindex : (B₀.functions ++ [B₀.fn]).length = (functionTypes ds).length + 1 := by
    rw [hl, List.length_append, hlen]
    exact Nat.add_comm _ _
  rw [hl', (visitFunDeclaration_linked h₁).2, List.append_assoc,
    List.getElem?_append_right (Nat.le_of_eq hindex), hindex, Nat.sub_self]
  rfl

/-- **Every function of a program behaves as its text says**, where no `return` is visited in a
branch in it and in the functions in front of it, and the code agrees with the language document on
comparisons and assignments. -/
theorem program_correct {ds' : List Declaration} {d : FunDeclaration}
    (h : visitProgram (ds ++ .fn d :: ds') freshBuilder = .ok B)
    (hq : ∀ e ∈ ds ++ [.fn d], e.quiet = true) (hagreed : d.agreed (Context.of ds d) = true) :
    ∃ f, (B.functions ++ [B.fn])[(functionTypes ds).length + 1]? = some f ∧ f.name = d.id ∧
      ∃ l : List InstrId, l.length = d.decls ∧ l.Pairwise (· < ·) ∧
        (∀ i ∈ l, (f.instr i).op = .alloca) ∧
        ∀ (Val World : Type) (M : Machine Val World), Lawful M →
          ∀ arb n w addr, Numbered M addr 0 l →
            f.Behaves M arb n w (d.meaning M (Context.of ds d) addr n w) := by
  obtain ⟨hqds, hqd⟩ := List.forall_mem_append.mp hq
  obtain ⟨B₀, B₁, ht, hd, hcalm, h₁, hindex, hname⟩ := visitProgram_split h hqds
  obtain ⟨slots, hcount, hsorted, hslots, hbehaves⟩ :=
    visitFunDeclaration_correct ht hd hcalm (hqd _ (List.mem_singleton_self _)) hagreed h₁
  exact ⟨B₁.fn, hindex, hname, slots, hcount, hsorted, fun i hi => (hslots i hi).2, hbehaves⟩

/-- The value of a variable. -/
def variableNamed (id : String) : Ast .term := .factor (.var (.ident id))

/-- `int main(void) { int s; int i; s = 0; i = 3; while (i > 0) { s = s + i; i = i - 1; }
return s; }`. -/
def summation : FunDeclaration where
  type := .int
  id := "main"
  params := []
  localDeclarations := [⟨.int, "s", none⟩, ⟨.int, "i", none⟩]
  statementList :=
    .stmt (.expressionStmt (.assign (.ident "s") (constant 0))) <|
    .stmt (.expressionStmt (.assign (.ident "i") (constant 3))) <|
    .stmt (.iterationStmt (.relation (.term (variableNamed "i")) .gt (.term (.factor (.intNum 0))))
      (.compoundStmt [] (
        .stmt (.expressionStmt (.assign (.ident "s")
          (.simple (.additive (.term (variableNamed "s")) .plus (variableNamed "i"))))) <|
        .stmt (.expressionStmt (.assign (.ident "i")
          (.simple (.additive (.term (variableNamed "i")) .minus (.factor (.intNum 1))))))
        .noStmts))) <|
    .stmt (.returnStmt (.simple (.term (variableNamed "s")))) .noStmts

/-- What is returned. -/
def returnedValue : Halt Val World → Option Val
  | .done (.returned v _) => v
  | _ => none

theorem eq_of_returnedValue {h : Halt Val Unit} {v : Val} (hv : returnedValue h = some v) :
    h = .done (.returned (some v) ()) := by
  unfold returnedValue at hv
  split at hv
  · rw [hv]
  · cases hv

/-- Nothing reaches beyond a function on this machine. -/
theorem intMachine_lawful : Lawful (Codegen.Canonical.intMachine 0 fun _ => 0) :=
  ⟨fun _ _ _ _ _ => rfl, fun _ _ _ _ _ => rfl, fun _ => rfl⟩

/-- The sum is returned. -/
theorem program_correct_summation : ∃ B f, visitProgram [.fn summation] freshBuilder = .ok B ∧
    (B.functions ++ [B.fn])[1]? = some f ∧ ∃ m, ∀ m' ≥ m,
      f.observe (Codegen.Canonical.intMachine 0 fun _ => 0) (fun _ _ => 0) () m' =
        .inr (.returned (some 6) ()) := by
  obtain ⟨M, hM⟩ : ∃ M, M = Codegen.Canonical.intMachine 0 fun _ => 0 := ⟨_, rfl⟩
  have hok : (visitProgram [.fn summation] freshBuilder).toOption.isSome = true := by
    decide +kernel
  have hmeaning : summation.meaning M (Context.of [] summation) (fun _ => 0) 10 () =
      .done (.returned (some 6) ()) := by
    rw [hM]
    exact eq_of_returnedValue (by decide +kernel)
  rw [← hM]
  cases h : visitProgram [.fn summation] freshBuilder with
  | error e =>
    rw [h] at hok
    cases hok
  | ok B =>
    obtain ⟨f, hf, -, l, -, -, -, hbehaves⟩ :=
      @program_correct B [] [] summation h (by decide) (by decide)
    have haddr : Numbered M (fun _ => 0) 0 l := fun _ _ _ => by rw [hM]; rfl
    have hlaw : Lawful M := hM ▸ intMachine_lawful
    have hrun := hbehaves (BitVec 32) Unit M hlaw (fun _ _ => 0) 10 () (fun _ => 0) haddr
    rw [hmeaning] at hrun
    exact ⟨B, f, rfl, hf, hrun⟩

end Cminusfc.Frontend
