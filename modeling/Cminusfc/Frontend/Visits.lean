import Cminusfc.Frontend.Branches

/-!
# Visits add to functions that are formed

By induction on the tree: a visit of an expression leads on from the insert block, with a value that
stands there (`visit_delivers`), and so does a visit of a statement without a `return`
(`visit_walked`). Each node with parts has a lemma of its own, about any visits of the parts.

About `src/cminusfc/cminusf_builder.cpp` 90-407. Out of scope: a `return` in front of other code.
-/

namespace Cminusfc.Frontend

open LightIR
open Dominance (Ancestor Nested)
open Fallible (bind_ok)
open Builder

variable {p p' p'' : BlockId → BlockId} {Q W : Set BlockId} {B B' B₁ B₂ B₃ C D : Builder}
  {v : Value} {c t e : BlockId} {k : Kind}

/-! ## The check of a subscript -/

/-- Two blocks, and the branch to them. -/
theorem Raised.fork (h : Raised p Q B p' B' W) (hB : Placed p Q B) (hv : Rand p' B' v) (ht : t ∈ W)
    (he : e ∈ W) (hne : t ≠ e) : Waiting p Q B p' (B'.createCondBr v t e) W :=
  h.close hB (h.placed.condBr hv (h.ahead ht) (h.ahead he) hne) (createCondBr_grows _ _ _ _)
    (createCondBr_keeps _ _ _ _)

/-- The check of a subscript, and the block for a negative one in between. -/
theorem checkIndex_onward {offset : Value} (h : B.checkIndex offset = .ok B')
    (hB : Placed p Q B) (hoffset : Rand p B offset) : ∃ p', Onward p Q B p' B' := by
  obtain ⟨n, ret, rfl⟩ := callExcept_ok h
  obtain ⟨B₁, hB₁⟩ : ∃ B₁, B₁ = B.create .cmp .int1 [offset, .int32 0] .GE := ⟨_, rfl⟩
  have hcmp : Gives p Q B p B₁ := by
    rw [hB₁]
    refine hB.operation rfl (fun v hv => ?_) (Nat.zero_le _)
    rcases List.mem_cons.mp hv with rfl | hv
    · exact hoffset
    · obtain rfl := List.mem_singleton.mp hv
      exact rand_int32 _
  have hnew : B.newBlock = B₁.newBlock := by
    rw [hB₁]
    exact (create_length B _ _ _ _).symm
  obtain ⟨p₁, h₁⟩ := (Raised.none hcmp.placed).createNumbered "true"
  obtain ⟨p₂, h₂⟩ := h₁.createNumbered "false"
  obtain ⟨f, hf⟩ : ∃ f, f = (B₁.createNumbered "true").newBlock := ⟨_, rfl⟩
  have hne : f ≠ B₁.newBlock := by
    rw [hf, createNumbered_newBlock]
    exact Nat.succ_ne_self _
  rw [← hf] at h₂
  have hfork := h₂.fork hcmp.placed (hcmp.rand.mono hcmp.placed h₂.leads)
    (.inr (Set.mem_insert _ _)) (Set.mem_insert _ _) hne.symm
  obtain ⟨C, hC⟩ : ∃ C, C = ((B₁.createNumbered "true").createNumbered "false").createCondBr
    B₁.val B₁.newBlock f := ⟨_, rfl⟩
  have hcompare : B.compareIndex offset = C.setInsertPoint f := by
    rw [hC, hf, hB₁]
    rfl
  rw [← hC] at hfork
  have hout : f ∉ insert B₁.newBlock (∅ : Set BlockId) := by
    rintro (heq | hmem)
    · exact hne heq
    · exact hmem
  have hnegative := hfork.resume hcmp.placed hout
  rw [hcompare, hnew]
  have hcall : Onward p₂ (insert B₁.newBlock ∅ ∪ Q) (C.setInsertPoint f) p₂
      ((C.setInsertPoint f).create .call ret [.function n] .EQ) := by
    refine hnegative.placed.ordinary rfl fun v hv => ?_
    obtain rfl := List.mem_singleton.mp hv
    exact .const nofun rfl (Nat.zero_le _)
  have hback := hfork.leave hcmp.placed hout hcall (create_keeps _ _ _ _ _)
    (hcall.placed.br (hfork.ahead hcmp.placed hout hcall (.inr (Set.mem_insert _ _))))
    (createBr_grows _ _) (createBr_keeps _ _)
  have hend := hback.resume hcmp.placed (Set.notMem_empty _)
  rw [Set.empty_union] at hend
  exact ⟨p₂, hcmp.toOnward.trans hend⟩

/-! ## The end of a variable -/

/-- The address of an element. -/
theorem elementAddress_target {ptr : Option Value} {offset : Value}
    (h : B.elementAddress ptr offset = .ok B') (hB : Placed p Q B)
    (hptr : ∀ v, ptr = some v → Target p B v) (hoffset : Rand p B offset) :
    Onward p Q B p B' ∧ Target p B' B'.val := by
  unfold elementAddress at h
  split at h
  · cases h
  · rename_i v
    have hv := hptr v rfl
    have hgep : ∀ {B₁ B₂ : Builder} {w : Value} {l : List Value}, B₁.createGep w l = .ok B₂ →
        Addressable B₂.fn B₂.val := by
      intro B₁ B₂ w l hgep
      obtain ⟨e, t, -, -, rfl⟩ := createGep_ok hgep
      refine .inr (.inl ?_)
      simp [Func.isGep]
    split at h
    · rename_i t m hty
      have hg := hB.gep h (hv.toStands.rand hB fun e he => ?_) fun w hw => ?_
      · exact ⟨hg.toOnward, hg.rand.toStands, fun _ => hgep h⟩
      · rw [hty] at he
        cases he
        rfl
      · rcases List.mem_cons.mp hw with rfl | hw
        · exact rand_int32 _
        · obtain rfl := List.mem_singleton.mp hw
          exact hoffset
    · rename_i t hty
      obtain ⟨B₁, h₁, h₂⟩ := bind_ok.mp h
      have hpointer : (B.typeOf v).isPointer = true := by
        cases ht : B.typeOf v with
        | pointer e => rfl
        | _ =>
          rw [ht] at hty
          cases hty
      have hload := hB.load h₁ hv.toStands (hv.target hpointer)
      have hg := hload.placed.gep h₂ hload.rand fun w hw => ?_
      · exact ⟨hload.toOnward.trans hg.toOnward, hg.rand.toStands, fun _ => hgep h₂⟩
      · obtain rfl := List.mem_singleton.mp hw
        exact hoffset.mono hB hload.leads
    · cases h
      have hsame := setVal_onward hB v
      exact ⟨hsame, hv.mono hB hsame.leads⟩
    · cases h

/-- What the visit of a part of an expression leads to. -/
structure Delivers (k : Kind) (p : BlockId → BlockId) (Q : Set BlockId) (B : Builder)
    (p' : BlockId → BlockId) (B' : Builder) : Prop extends Onward p Q B p' B' where
  stands : k.isValue = true → Stands p' B' B'.val
  rand : k.isValue = true → B.addressOnly = false → Rand p' B' B'.val
  target : k = .var → B.addressOnly = true → Target p' B' B'.val

theorem finishVar_delivers {ptr : Value} (h : B.finishVar ptr = .ok B') (hB : Placed p Q B)
    (hptr : Target p B ptr) : Delivers .var p Q B p B' := by
  unfold finishVar at h
  split_ifs at h with haddress
  · cases h
    have hsame := setVal_onward hB ptr
    have htarget := hptr.mono hB hsame.leads
    exact ⟨hsame, fun _ => htarget.toStands, fun _ hf => absurd haddress (by simp [hf]),
      fun _ _ => htarget⟩
  · obtain ⟨t, ht, -⟩ := createLoad_ok h
    have hload := hB.load h hptr.toStands (hptr.target (by rw [ht]; rfl))
    exact ⟨hload.toOnward, fun _ => hload.rand.toStands, fun _ _ => hload.rand,
      fun _ htrue => absurd htrue haddress⟩

theorem subscript_delivers {ptr : Option Value} (h : B.subscript ptr = .ok B') (hB : Placed p Q B)
    (hval : Stands p B B.val) (hptr : ∀ v, ptr = some v → Target p B v) :
    ∃ p', Delivers .var p Q B p' B' := by
  obtain ⟨B₁, h₁, h⟩ := bind_ok.mp h
  obtain ⟨B₂, h₂, h⟩ := bind_ok.mp h
  obtain ⟨B₃, h₃, h₄⟩ := bind_ok.mp h
  have hoffset := hB.convert h₁ hval
  obtain ⟨p₂, hcheck⟩ := checkIndex_onward h₂ hoffset.placed hoffset.rand
  have hon := hoffset.toOnward.trans hcheck
  obtain ⟨helement, htarget⟩ := elementAddress_target h₃ hcheck.placed
    (fun v hv => (hptr v hv).mono hB hon.leads) (hoffset.rand.mono hoffset.placed hcheck.leads)
  have hend := finishVar_delivers h₄ helement.placed htarget
  have haddress : B₃.addressOnly = B.addressOnly := (elementAddress_addressOnly h₃).trans
    ((checkIndex_addressOnly h₂).trans (convert_addressOnly h₁))
  refine ⟨p₂, (hon.trans helement).trans hend.toOnward, hend.stands, ?_, ?_⟩
  · exact fun hk hf => hend.rand hk (haddress.trans hf)
  · exact fun hk ht => hend.target hk (haddress.trans ht)

/-- A store. -/
theorem Placed.store {ptr : Value} (hB : Placed p Q B) (hv : Rand p B v) (hptr : Stands p B ptr)
    (haddr : Addressable B.fn ptr) : Onward p Q B p (B.createStore v ptr) := by
  refine hB.emit rfl (fun w hw => ?_) ?_
  · rcases List.mem_cons.mp hw with rfl | hw
    · exact hv.defined
    · obtain rfl := List.mem_singleton.mp hw
      exact hptr.defined
  · refine ⟨nofun, nofun, fun _ => ⟨_, _, rfl, hv.noBlock, haddr⟩, nofun, ?_⟩
    intro no w hw hcell
    match no, hw with
    | 0, hw =>
      cases hw
      rw [hv.cell] at hcell
      cases hcell
    | 1, _ => exact .inr ⟨rfl, rfl⟩

/-- The store of an assignment. -/
theorem assignTo_onward {rhs : Value} (h : B.assignTo rhs = .ok B') (hB : Placed p Q B)
    (htarget : Target p B B.val) (hrhs : Stands p B rhs) :
    Onward p Q B p B' ∧ B'.val = rhs := by
  unfold assignTo at h
  split at h
  · cases h
  · rename_i t ht
    obtain ⟨B₁, h₁, h⟩ := bind_ok.mp h
    cases h
    have hvalue := hB.convert h₁ hrhs
    have hto := htarget.mono hB hvalue.leads
    have hpointer : (B.typeOf B.val).isPointer = true := by
      cases hty : B.typeOf B.val with
      | pointer e => rfl
      | _ =>
        rw [hty] at ht
        cases ht
    have haddr := (htarget.target hpointer).mono fun i hi =>
      hvalue.leads.ext.instr i (htarget.defined.known hB.wf i hi)
    have hstore := hvalue.placed.store hvalue.rand hto.toStands haddr
    refine ⟨hvalue.toOnward.trans (hstore.trans (hstore.placed.same rfl rfl ?_)), rfl⟩
    exact (setVal_keeps _ _).trans (setAddressOnly_keeps _ _)

/-! ## Expressions -/

theorem Placed.find {id : String} (hB : Placed p Q B) (h : B.scope.find id = some v) :
    Target p B v := by
  obtain ⟨m, hm, q, hq, rfl⟩ := find_mem h
  exact hB.scope m hm q hq

/-- Another call. -/
theorem Placed.setFrame (hB : Placed p Q B) {c : CallFrame} (hargs : ∀ v ∈ c.args, Rand p B v) :
    Onward p Q B p (B.setFrame c) := by
  have hl : Leads p B p (B.setFrame c) := ⟨fun _ _ => rfl, .refl, Extends.refl _, rfl⟩
  exact ⟨⟨(setFrame_grows B c hB.wf).1, hB.formed, hB.apart, hB.globals, hB.types,
    fun m hm q hq => (hB.scope m hm q hq).mono hB hl, fun v hv => (hargs v hv).mono hB hl⟩, hl⟩

/-- The value of a part is the value of the whole. -/
theorem Delivers.part {k' : Kind} (h : Delivers k p Q B p' B') (hk : k.isValue = true)
    (hne : k' ≠ .var) : Delivers k' p Q B p' B' :=
  ⟨h.toOnward, fun _ => h.stands hk, fun _ => h.rand hk, fun hvar => absurd hvar hne⟩

theorem Gives.delivers (h : Gives p Q B p' B') (hne : k ≠ .var) : Delivers k p Q B p' B' :=
  ⟨h.toOnward, fun _ => h.rand.toStands, fun _ _ => h.rand, fun hvar => absurd hvar hne⟩

/-- Wherever a visit of `a` starts, it adds instructions and leaves a value that stands there. -/
def Supplies {k : Kind} (a : Ast k) : Prop :=
  ∀ p Q B B', visit a B = .ok B' → Placed p Q B → ∃ p', Delivers k p Q B p' B'

/-- Two operands and the operation behind them. -/
theorem binary_delivers {kl kr : Kind} {l : Ast kl} {r : Ast kr} {intOp floatOp : OpID}
    {intTy floatTy : Ty} {cmpOp : CmpOp} (hkl : kl.isValue = true) (hkr : kr.isValue = true)
    (ihl : Supplies l) (ihr : Supplies r)
    (h₁ : visit l B = .ok B₁) (h₂ : visit r B₁ = .ok B₂)
    (h₃ : B₂.binary intOp floatOp intTy floatTy cmpOp B₁.val B₂.val = .ok B')
    (hops : ordinary intOp = true ∧ ordinary floatOp = true)
    (htys : intTy.depth ≤ 1 ∧ floatTy.depth ≤ 1) (hne : k ≠ .var) (hB : Placed p Q B) :
    ∃ p', Delivers k p Q B p' B' := by
  obtain ⟨p₁, hl⟩ := ihl p Q B B₁ h₁ hB
  obtain ⟨p₂, hr⟩ := ihr p₁ Q B₁ B₂ h₂ hl.placed
  have hleft := (hl.stands hkl).mono hl.placed hr.leads
  have hop := hr.placed.binary h₃ hleft (hr.stands hkr) hops htys
  exact ⟨p₂, (hop.after (hl.toOnward.trans hr.toOnward)).delivers hne⟩

theorem setAddressOnly_onward (hB : Placed p Q B) (b : Bool) :
    Onward p Q B p (B.setAddressOnly b) := hB.same rfl rfl (setAddressOnly_keeps _ _)

theorem element_supplies {id : String} {e : Ast .expression} (hindex : Supplies e) :
    Supplies (.element id e) := by
  intro p Q B B' h hB
  obtain ⟨B₁, h₁, h₂⟩ := bind_ok.mp h
  have hset := setAddressOnly_onward hB false
  obtain ⟨p₁, he⟩ := hindex p Q _ B₁ h₁ hset.placed
  have hback := setAddressOnly_onward he.placed B.addressOnly
  have hon := (hset.trans he.toOnward).trans hback
  obtain ⟨p₂, hs⟩ := subscript_delivers h₂ hback.placed ((he.stands rfl).mono he.placed hback.leads)
    fun v hv => (hB.find hv).mono hB hon.leads
  exact ⟨p₂, hon.trans hs.toOnward, hs.stands, hs.rand, hs.target⟩

theorem assign_supplies {v : Ast .var} {e : Ast .expression} (hvar : Supplies v)
    (hexpr : Supplies e) : Supplies (.assign v e) := by
  intro p Q B B' h hB
  obtain ⟨B₁, h₁, h⟩ := bind_ok.mp h
  obtain ⟨B₂, h₂, h₃⟩ := bind_ok.mp h
  obtain ⟨p₁, he⟩ := hexpr p Q B B₁ h₁ hB
  have hset := setAddressOnly_onward he.placed true
  obtain ⟨p₂, hv⟩ := hvar p₁ Q _ B₂ h₂ hset.placed
  have hon := hset.trans hv.toOnward
  obtain ⟨hstore, hval⟩ := assignTo_onward h₃ hv.placed (hv.target rfl rfl)
    ((he.stands rfl).mono he.placed hon.leads)
  have hrest := hon.trans hstore
  refine ⟨p₂, he.toOnward.trans hrest, fun _ => ?_, fun _ hf => ?_, nofun⟩
  · rw [hval]
    exact (he.stands rfl).mono he.placed hrest.leads
  · rw [hval]
    exact (he.rand rfl hf).mono he.placed hrest.leads

theorem callee_depth {id : String} {n : String} {t : FunctionType} (hB : Placed p Q B)
    (h : B.callee id = .ok (n, t)) : t.ret.depth ≤ 1 := by
  unfold Builder.callee at h
  split at h
  · cases h
  · split at h
    · rename_i hlookup
      cases h
      rw [hB.types _ (lookup_mem hlookup)]
      exact Nat.zero_le _
    · cases h
  · cases h

theorem call_supplies {id : String} {args : Ast .args} (hpassed : Supplies args) :
    Supplies (.call id args) := by
  intro p Q B B' h hB
  obtain ⟨⟨n, t⟩, hcallee, h⟩ := bind_ok.mp h
  obtain ⟨B₁, h₁, h⟩ := bind_ok.mp h
  obtain ⟨B₂, h₂, h⟩ := bind_ok.mp h
  cases h
  have hset := hB.setFrame (c := ⟨t.params, []⟩) nofun
  obtain ⟨p₁, hargs⟩ := hpassed p Q _ B₁ h₁ hset.placed
  unfold createCall at h₂
  split_ifs at h₂
  cases h₂
  have hcall : Gives p₁ Q B₁ p₁ (B₁.create .call t.ret (.function n :: B₁.frame.args) .EQ) := by
    refine hargs.placed.operation rfl (fun v hv => ?_) (callee_depth hB hcallee)
    rcases List.mem_cons.mp hv with rfl | hv
    · exact .const nofun rfl (Nat.zero_le _)
    · exact hargs.placed.args v hv
  have hon := (hset.trans hargs.toOnward).trans hcall.toOnward
  have hback := hcall.placed.setFrame (c := B.frame) fun v hv => (hB.args v hv).mono hB hon.leads
  have hgives : Gives p Q B p₁ _ := ⟨hon.trans hback, hcall.rand.mono hcall.placed hback.leads⟩
  exact ⟨p₁, hgives.delivers nofun⟩

theorem arg_supplies {e : Ast .expression} {rest : Ast .args} (hexpr : Supplies e)
    (hargs : Supplies rest) : Supplies (.arg e rest) := by
  intro p Q B B' h hB
  obtain ⟨t, -, h⟩ := bind_ok.mp h
  obtain ⟨B₁, h₁, h⟩ := bind_ok.mp h
  obtain ⟨B₂, h₂, h₃⟩ := bind_ok.mp h
  have hset := setAddressOnly_onward hB t.isPointer
  obtain ⟨p₁, he⟩ := hexpr p Q _ B₁ h₁ hset.placed
  have hclear := setAddressOnly_onward he.placed false
  obtain ⟨C, hC, h₂⟩ := bind_ok.mp h₂
  cases h₂
  have hvalue := hclear.placed.convert hC ((he.stands rfl).mono he.placed hclear.leads)
  have hpush := hvalue.placed.setFrame
    (c := { C.frame with args := C.frame.args ++ [C.val] }) fun v hv => ?_
  · obtain ⟨p₂, hrest⟩ := hargs p₁ Q _ B' h₃ hpush.placed
    exact ⟨p₂, (((hset.trans he.toOnward).trans hclear).trans (hvalue.toOnward.trans hpush)).trans
      hrest.toOnward, nofun, nofun, nofun⟩
  · rcases List.mem_append.mp hv with hv | hv
    · exact hvalue.placed.args v hv
    · obtain rfl := List.mem_singleton.mp hv
      exact hvalue.rand

/-- **A part of an expression** adds instructions, and leaves a value that stands at the insert
point. -/
theorem visit_delivers {k : Kind} (a : Ast k) : k.inExpression = true → Supplies a := by
  induction a with
  | intNum i =>
    intro _ p Q B B' h hB
    cases h
    have hsame := setVal_onward hB (.int32 i)
    have hgives : Gives p Q B p (B.setVal (.int32 i)) := ⟨hsame, rand_int32 i⟩
    exact ⟨p, hgives.delivers nofun⟩
  | floatNum x =>
    intro _ p Q B B' h hB
    cases h
    have hsame := setVal_onward hB (.fp x)
    have hgives : Gives p Q B p (B.setVal (.fp x)) := ⟨hsame, rand_fp x⟩
    exact ⟨p, hgives.delivers nofun⟩
  | group e ih | var v ih | simple l ih | term t ih | factor f ih =>
    intro _ p Q B B' h hB
    obtain ⟨p', hv⟩ := ih rfl p Q B B' h hB
    exact ⟨p', hv.part rfl nofun⟩
  | noArgs =>
    intro _ p Q B B' h hB
    cases h
    exact ⟨p, ⟨hB, .refl p B⟩, nofun, nofun, nofun⟩
  | relation l op r ihl ihr =>
    intro _ p Q B B' h hB
    obtain ⟨B₁, h₁, h⟩ := bind_ok.mp h
    obtain ⟨B₂, h₂, h₃⟩ := bind_ok.mp h
    exact binary_delivers rfl rfl (ihl rfl) (ihr rfl) h₁ h₂ h₃ ⟨rfl, rfl⟩
      ⟨Nat.zero_le _, Nat.zero_le _⟩ nofun hB
  | additive l op r ihl ihr | multiplicative l op r ihl ihr =>
    intro _ p Q B B' h hB
    obtain ⟨B₁, h₁, h⟩ := bind_ok.mp h
    obtain ⟨B₂, h₂, h₃⟩ := bind_ok.mp h
    have hops : ordinary op.intOp = true ∧ ordinary op.floatOp = true := by
      cases op <;> exact ⟨rfl, rfl⟩
    exact binary_delivers rfl rfl (ihl rfl) (ihr rfl) h₁ h₂ h₃ hops
      ⟨Nat.zero_le _, Nat.zero_le _⟩ nofun hB
  | ident id =>
    intro _ p Q B B' h hB
    unfold visit at h
    split at h
    · cases h
    · rename_i ptr hptr
      exact ⟨p, finishVar_delivers h hB (hB.find hptr)⟩
  | element id e ih => exact fun _ => element_supplies (ih rfl)
  | assign v e ihv ihe => exact fun _ => assign_supplies (ihv rfl) (ihe rfl)
  | call id args ih => exact fun _ => call_supplies (ih rfl)
  | arg e rest ihe ihrest => exact fun _ => arg_supplies (ihe rfl) (ihrest rfl)
  | compoundStmt | emptyStmt | expressionStmt | selectionStmt | selectionElseStmt | iterationStmt
  | returnVoidStmt | returnStmt | noStmts | stmt => exact fun h => nomatch h

/-! ## Declarations -/

/-- The scopes with another slot. -/
theorem Placed.push {id : String} {s : Scope} (hB : Placed p Q B)
    (hpush : B.scope.push id v = some s) (hv : Target p B v) :
    Onward p Q B p { B with scope := s } := by
  have hl : Leads p B p { B with scope := s } := ⟨fun _ _ => rfl, .refl, Extends.refl _, rfl⟩
  have hgrows : Grows B { B with scope := s } := Grows.of_same rfl rfl
  refine ⟨⟨(hgrows hB.wf).1, hB.formed, hB.apart, hB.globals, hB.types, fun m hm q hq => ?_,
    fun w hw => (hB.args w hw).mono hB hl⟩, hl⟩
  refine Target.mono hB hl ?_
  rcases hscope : B.scope with _ | ⟨m', rest⟩
  · rw [hscope] at hpush
    cases hpush
  · rw [hscope] at hpush
    obtain rfl := push_cases hpush
    have hold := hB.scope
    rw [hscope] at hold
    rcases List.mem_cons.mp hm with rfl | hm
    · rcases List.mem_cons.mp hq with rfl | hq
      · exact hv
      · exact hold m' List.mem_cons_self q hq
    · exact hold m (List.mem_cons_of_mem _ hm) q hq

/-- The slot of a variable. -/
theorem createAlloca_target (hB : Placed p Q B) {ty : Ty} (hty : ty.depth ≤ 1) :
    Onward p Q B p (B.createAlloca ty) ∧ Target p (B.createAlloca ty) (B.createAlloca ty).val := by
  have hon : Onward p Q B p (B.createAlloca ty) := by
    refine hB.create rfl nofun ⟨nofun, nofun, nofun, fun _ => ⟨rfl, rfl⟩, ?_⟩
    intro no v hv
    cases hv
  have haddr : Addressable (B.createAlloca ty).fn (B.createAlloca ty).val := by
    refine .inr (.inr ⟨B.fn.next, rfl, ?_⟩)
    simp [createAlloca]
  have htype : (B.createAlloca ty).typeOf (B.createAlloca ty).val = .pointer ty := create_type ..
  refine ⟨hon, ⟨?_, rfl, ?_, fun _ => haddr⟩, fun _ => haddr⟩
  · rintro j ⟨⟩
    refine ⟨B.bb, .refl, ?_⟩
    simp [createAlloca]
  · rw [htype]
    exact Nat.succ_le_succ hty

theorem type_depth (c : CminusType) : c.type.depth = 0 := by cases c <;> rfl

theorem variableType_depth {d : VarDeclaration} {ty : Ty} (h : variableType d = .ok ty) :
    ty.depth = 0 := by
  unfold variableType at h
  split at h
  · cases h
    exact type_depth _
  · split_ifs at h
    cases h
    exact type_depth _

theorem visitVarDeclaration_onward {d : VarDeclaration} (h : B.visitVarDeclaration d = .ok B')
    (hs : B.scope.tail ≠ []) (hB : Placed p Q B) :
    Onward p Q B p B' ∧ B'.scope.tail ≠ [] := by
  have hlocal : B.scope.inGlobal = false := by
    rcases hscope : B.scope with _ | ⟨m, _ | ⟨m', rest⟩⟩
    · rw [hscope] at hs
      exact absurd rfl hs
    · rw [hscope] at hs
      exact absurd rfl hs
    · simp [Scope.inGlobal]
  have htail := (visitVarDeclaration_keeps h hs).2
  obtain ⟨ty, htype, h⟩ := bind_ok.mp h
  have hty := variableType_depth htype
  simp only [hlocal, Bool.false_eq_true, if_false] at h
  split at h
  · rename_i s hpush
    cases h
    obtain ⟨hon, hslot⟩ := createAlloca_target hB (hty ▸ Nat.zero_le _ : ty.depth ≤ 1)
    exact ⟨hon.trans (hon.placed.push hpush hslot), htail ▸ hs⟩
  · cases h

theorem visitVarDeclarations_onward (ds : List VarDeclaration) :
    ∀ {B B' : Builder}, ds.foldlM visitVarDeclaration B = .ok B' → B.scope.tail ≠ [] →
      Placed p Q B → Onward p Q B p B' ∧ B'.scope.tail ≠ [] := by
  induction ds with
  | nil =>
    intro B B' h hs hB
    cases h
    exact ⟨⟨hB, .refl p B⟩, hs⟩
  | cons d ds ih =>
    intro B B' h hs hB
    rw [List.foldlM_cons] at h
    obtain ⟨B₁, h₁, h₂⟩ := bind_ok.mp h
    obtain ⟨hon, hs₁⟩ := visitVarDeclaration_onward h₁ hs hB
    obtain ⟨hrest, hs'⟩ := ih h₂ hs₁ hon.placed
    exact ⟨hon.trans hrest, hs'⟩

theorem enterScope_onward (hB : Placed p Q B) : Onward p Q B p B.enterScope := by
  have hl : Leads p B p B.enterScope := ⟨fun _ _ => rfl, .refl, Extends.refl _, rfl⟩
  have hgrows : Grows B B.enterScope := Grows.of_same rfl rfl
  refine ⟨⟨(hgrows hB.wf).1, hB.formed, hB.apart, hB.globals, hB.types, fun m hm q hq => ?_,
    fun v hv => (hB.args v hv).mono hB hl⟩, hl⟩
  refine Target.mono hB hl ?_
  unfold enterScope at hm
  split_ifs at hm
  · exact hB.scope m hm q hq
  · rcases List.mem_cons.mp hm with rfl | hm
    · cases hq
    · exact hB.scope m hm q hq

theorem exitScope_onward (hB : Placed p Q B) : Onward p Q B p B.exitScope := by
  have hl : Leads p B p B.exitScope := ⟨fun _ _ => rfl, .refl, Extends.refl _, rfl⟩
  have hgrows : Grows B B.exitScope := Grows.of_same rfl rfl
  exact ⟨⟨(hgrows hB.wf).1, hB.formed, hB.apart, hB.globals, hB.types,
    fun m hm q hq => (hB.scope m (List.mem_of_mem_tail hm) q hq).mono hB hl,
    fun v hv => (hB.args v hv).mono hB hl⟩, hl⟩

theorem Inside.enterScope_tail (h : Inside B) : B.enterScope.scope.tail ≠ [] := by
  have hscope : B.enterScope.scope = [] :: B.scope := by
    simp [Builder.enterScope, Scope.enter, h.enterInFunDecl]
  rw [hscope]
  exact h.scope

/-- The scope of a block and its declarations. -/
theorem enterBlock_onward {ds : List VarDeclaration} {b : Bool}
    (h : ds.foldlM visitVarDeclaration B.enterScope = .ok B') (hs : B.enterScope.scope.tail ≠ [])
    (hcalm : Calm b B) (hB : Placed p Q B) : Onward p Q B p B' ∧ Calm b B' ∧ Inside B' := by
  have hopen := enterScope_onward hB
  obtain ⟨hds, hs'⟩ := visitVarDeclarations_onward ds h hs hopen.placed
  have hcalm₀ : Calm b B.enterScope :=
    ⟨hcalm.inBranch, hcalm.returnInBranch, hcalm.preReturns, hcalm.addressOnly⟩
  have hcalm' : Calm b B' :=
    @Fallible.foldlM_keeps _ _ _ visitVarDeclaration (Calm b) ds
      (fun d _ s s' hs hd => visitVarDeclaration_calm hd hs) _ _ hcalm₀ h
  refine ⟨hopen.trans hds, hcalm', fun hnil => hs' (by rw [hnil]; rfl), ?_⟩
  exact (visitVarDeclarations_keeps ds _ B' h hs).1.enterInFunDecl

/-! ## Branches -/

/-- The blocks of `visit(ASTSelectionStmt)` without an else branch. -/
theorem openSelection_waiting (hB : Placed p Q B) (hval : Rand p B B.val) :
    ∃ p' C, B.openSelection = C.setInsertPoint B.newBlock ∧
      Waiting p Q B p' C (insert B.newBlock {B.newBlock + 1}) := by
  have htruth := hB.truth hval
  have hlen : B.truth.newBlock = B.newBlock := truth_length B
  have hs := truth_straight B
  unfold openSelection
  obtain ⟨T, hT⟩ : ∃ T, T = B.truth := ⟨_, rfl⟩
  simp only [← hT] at htruth hlen hs ⊢
  obtain ⟨p₁, h₁⟩ := (Raised.none htruth.placed).createNumbered "true"
  obtain ⟨p₂, h₂⟩ := h₁.createNumbered "out"
  have hfork := h₂.fork htruth.placed (htruth.rand.mono htruth.placed h₂.leads)
    (.inr (Set.mem_insert _ _)) (Set.mem_insert _ _) (by
      rw [createNumbered_newBlock]
      exact (Nat.succ_ne_self _).symm)
  have hwait := (hfork.setInBranch true).before htruth.toOnward hs.bb (hT ▸ truth_keeps B)
  simp only [insert_empty_eq, createNumbered_newBlock, hlen] at hwait ⊢
  rw [Set.pair_comm] at hwait
  exact ⟨p₂, _, rfl, hwait⟩

/-- The blocks of `visit(ASTSelectionStmt)` with an else branch. -/
theorem openSelectionElse_waiting (hB : Placed p Q B) (hval : Rand p B B.val) :
    ∃ p' C, B.openSelectionElse = C.setInsertPoint B.newBlock ∧
      Waiting p Q B p' C (insert B.newBlock (insert (B.newBlock + 1) {B.newBlock + 2})) := by
  have htruth := hB.truth hval
  have hlen : B.truth.newBlock = B.newBlock := truth_length B
  have hs := truth_straight B
  unfold openSelectionElse
  obtain ⟨T, hT⟩ : ∃ T, T = B.truth := ⟨_, rfl⟩
  simp only [← hT] at htruth hlen hs ⊢
  obtain ⟨p₁, h₁⟩ := (Raised.none htruth.placed).createNumbered "true"
  obtain ⟨p₂, h₂⟩ := h₁.createNumbered "false"
  obtain ⟨p₃, h₃⟩ := h₂.createNumbered "out"
  have hfork := h₃.fork htruth.placed (htruth.rand.mono htruth.placed h₃.leads)
    (.inr (.inr (Set.mem_insert _ _))) (.inr (Set.mem_insert _ _)) (by
      rw [createNumbered_newBlock]
      exact (Nat.succ_ne_self _).symm)
  have hwait := (hfork.setInBranch true).before htruth.toOnward hs.bb (hT ▸ truth_keeps B)
  simp only [insert_empty_eq, createNumbered_newBlock, hlen] at hwait ⊢
  rw [Set.insert_comm, Set.pair_comm, Set.insert_comm] at hwait
  exact ⟨p₃, _, rfl, hwait⟩

/-- The blocks of `visit(ASTIterationStmt)`. -/
theorem openIteration_waiting (hB : Placed p Q B) :
    ∃ p' C, B.openIteration = C.setInsertPoint B.newBlock ∧
      Waiting p Q B p' C (insert B.newBlock (insert (B.newBlock + 1) {B.newBlock + 2})) := by
  obtain ⟨p₁, h₁⟩ := (Raised.none hB).createNumbered "predicate"
  obtain ⟨p₂, h₂⟩ := h₁.createNumbered "body"
  obtain ⟨p₃, h₃⟩ := h₂.createNumbered "out"
  have hwait := h₃.close hB (h₃.placed.br (h₃.ahead (.inr (.inr (Set.mem_insert _ _)))))
    (createBr_grows _ _) (createBr_keeps _ _)
  simp only [insert_empty_eq, createNumbered_newBlock] at hwait
  rw [Set.insert_comm, Set.pair_comm, Set.insert_comm] at hwait
  exact ⟨p₃, _, rfl, hwait⟩

theorem first_notMem (n : BlockId) : n ∉ ({n + 1, n + 2} : Set BlockId) := by
  rintro (heq | heq)
  · exact Nat.succ_ne_self _ heq.symm
  · exact Nat.ne_of_lt (Nat.lt_add_of_pos_right Nat.two_pos) heq

theorem setReturnInBranch_onward (hB : Placed p Q B) (b : Bool) :
    Onward p Q B p (B.setReturnInBranch b) := hB.same rfl rfl (setReturnInBranch_keeps _ _)

theorem setInBranch_onward (hB : Placed p Q B) (b : Bool) : Onward p Q B p (B.setInBranch b) :=
  hB.same rfl rfl (setInBranch_keeps _ _)

/-- What the visit of a statement without a `return` leads to. -/
structure Walked (p : BlockId → BlockId) (Q : Set BlockId) (B : Builder) (p' : BlockId → BlockId)
    (B' : Builder) : Prop extends Onward p Q B p' B' where
  keeps : Keeps B B'

/-- The end of a branch: the visit goes on in another block. -/
theorem Waiting.pass (h : Waiting p Q B p' C (insert c W)) (hB : Placed p Q B) (hc : c ∉ W)
    (hD : Walked p' (W ∪ Q) (C.setInsertPoint c) p'' D) (ht : Ahead p'' D t) :
    Waiting p Q B p'' (D.createBr t) W :=
  h.leave hB hc hD.toOnward hD.keeps (hD.placed.br ht) (createBr_grows _ _) (createBr_keeps _ _)

/-! ## Statements -/

/-- No `return` inside. -/
def Ast.noReturn : {k : Kind} → Ast k → Bool
  | _, .compoundStmt _ ss => ss.noReturn
  | _, .stmt s rest => s.noReturn && rest.noReturn
  | _, .selectionStmt _ s => s.noReturn
  | _, .selectionElseStmt _ s t => s.noReturn && t.noReturn
  | _, .iterationStmt _ s => s.noReturn
  | _, .returnVoidStmt => false
  | _, .returnStmt _ => false
  | _, _ => true

theorem quiet_of_noReturn {k : Kind} (a : Ast k) : ∀ b, a.noReturn = true → a.quiet b = true := by
  induction a with
  | compoundStmt ds ss ih => exact fun b h => ih b h
  | stmt s rest ihs ihrest =>
    intro b h
    obtain ⟨hs, hrest⟩ := Bool.and_eq_true_iff.mp h
    exact Bool.and_eq_true_iff.mpr ⟨ihs b hs, ihrest _ hrest⟩
  | selectionStmt e s ihe ihs => exact fun b h => ihs true h
  | selectionElseStmt e s t ihe ihs iht =>
    intro b h
    obtain ⟨hs, ht⟩ := Bool.and_eq_true_iff.mp h
    exact Bool.and_eq_true_iff.mpr ⟨ihs true hs, iht _ ht⟩
  | iterationStmt e s ihe ihs => exact fun b h => ihs true h
  | returnVoidStmt | returnStmt => exact fun _ h => absurd h Bool.false_ne_true
  | _ => exact fun _ _ => rfl

/-- A visit of a statement leaves the declarations as they are. -/
theorem Onward.walked {s : Ast k} (h : Onward p Q B p' B') (hv : visit s B = .ok B')
    (hk : k.inExpression = false) (hin : Inside B) : Walked p Q B p' B' := by
  refine ⟨h, ?_⟩
  have hstays := visit_stays s B B' hv hin
  cases k <;> first | exact hstays | cases hk

/-- Wherever a visit of `a` starts, it leads on to a block below. -/
def Walks {k : Kind} (a : Ast k) : Prop :=
  ∀ (b : Bool) p Q B B', visit a B = .ok B' → Calm b B → Inside B → Placed p Q B →
    ∃ p', Walked p Q B p' B'

theorem stmt_walks {s : Ast .statement} {rest : Ast .statements} (hno : s.noReturn = true)
    (hfirst : Walks s) (hlater : Walks rest) : Walks (.stmt s rest) := by
  intro b p Q B B' h hcalm hin hB
  obtain ⟨B₁, h₁, h₂⟩ := bind_ok.mp h
  obtain ⟨p₁, hs⟩ := hfirst b p Q B B₁ h₁ hcalm hin hB
  have hcalm₁ := visit_calm s B B₁ h₁ rfl (quiet_of_noReturn s b hno) hcalm
  obtain ⟨p₂, hrest⟩ := hlater _ p₁ Q B₁ B' h₂ hcalm₁ (hin.of_keeps hs.keeps) hs.placed
  exact ⟨p₂, hs.toOnward.trans hrest.toOnward, hs.keeps.trans hrest.keeps⟩

theorem compoundStmt_walks {ds : List VarDeclaration} {ss : Ast .statements} (hss : Walks ss) :
    Walks (.compoundStmt ds ss) := by
  intro b p Q B B' h hcalm hin hB
  have hall := h
  obtain ⟨B₁, h₁, h⟩ := bind_ok.mp h
  obtain ⟨B₂, h₂, h⟩ := bind_ok.mp h
  cases h
  obtain ⟨hopen, hcalm₁, hin₁⟩ := enterBlock_onward h₁ hin.enterScope_tail hcalm hB
  obtain ⟨p₂, hs⟩ := hss b p Q B₁ B₂ h₂ hcalm₁ hin₁ hopen.placed
  have hon := (hopen.trans hs.toOnward).trans (exitScope_onward hs.placed)
  exact ⟨p₂, hon.walked hall rfl hin⟩

theorem selectionStmt_walks {e : Ast .expression} {s : Ast .statement} (hno : s.noReturn = true)
    (hbody : Walks s) : Walks (.selectionStmt e s) := by
  intro b p Q B B' h hcalm hin hB
  have hall := h
  obtain ⟨B₁, h₁, h⟩ := bind_ok.mp h
  obtain ⟨B₂, h₂, h⟩ := bind_ok.mp h
  cases h
  obtain ⟨p₁, he⟩ := visit_delivers e rfl p Q B B₁ h₁ hB
  have hin₁ : Inside B₁ := hin.of_keeps (visit_stays e B B₁ h₁ hin)
  obtain ⟨p₂, C, hopen, hwait⟩ := openSelection_waiting he.placed (he.rand rfl hcalm.addressOnly)
  have hcalm₁ := openSelection_calm (@Calm.expression _ _ b _ e rfl h₁ hcalm)
  rw [hopen] at h₂ hcalm₁
  have hnot : B₁.newBlock ∉ ({B₁.newBlock + 1} : Set BlockId) := (Nat.succ_ne_self _).symm
  have hstart := hwait.resume he.placed hnot
  obtain ⟨p₃, hs⟩ := hbody _ p₂ _ _ B₂ h₂ hcalm₁
    (hin₁.of_keeps (hwait.keeps.trans (setInsertPoint_keeps _ _))) hstart.placed
  have hcalm₂ := visit_calm s _ B₂ h₂ rfl (quiet_of_noReturn s _ hno) hcalm₁
  have hback := hwait.pass he.placed hnot hs (hwait.ahead he.placed hnot hs.toOnward (.inr rfl))
  have hend := hback.last he.placed
  rw [leaveBranch_eq hcalm₂.returnInBranch] at hall ⊢
  have hreset := setReturnInBranch_onward hend.placed false
  have hflags := hreset.trans (setInBranch_onward hreset.placed false)
  exact ⟨p₃, ((he.toOnward.trans hend).trans hflags).walked hall rfl hin⟩

theorem selectionElseStmt_walks {e : Ast .expression} {s t : Ast .statement}
    (hnos : s.noReturn = true) (hnot : t.noReturn = true) (hthen : Walks s) (helse : Walks t) :
    Walks (.selectionElseStmt e s t) := by
  intro b p Q B B' h hcalm hin hB
  have hall := h
  obtain ⟨B₁, h₁, h⟩ := bind_ok.mp h
  obtain ⟨B₂, h₂, h⟩ := bind_ok.mp h
  obtain ⟨B₃, h₃, h⟩ := bind_ok.mp h
  obtain ⟨p₁, he⟩ := visit_delivers e rfl p Q B B₁ h₁ hB
  have hin₁ : Inside B₁ := hin.of_keeps (visit_stays e B B₁ h₁ hin)
  obtain ⟨p₂, C, hopen, hwait⟩ :=
    openSelectionElse_waiting he.placed (he.rand rfl hcalm.addressOnly)
  have hcalm₁ := openSelectionElse_calm (@Calm.expression _ _ b _ e rfl h₁ hcalm)
  rw [hopen] at h₂ hcalm₁
  obtain ⟨n, hn⟩ : ∃ n, n = B₁.newBlock := ⟨_, rfl⟩
  simp only [← hn] at hwait h₂ hcalm₁ h₃ h
  have htrue := first_notMem n
  have hfalse : n + 1 ∉ ({n + 2} : Set BlockId) := (Nat.succ_ne_self _).symm
  have hstart := hwait.resume he.placed htrue
  obtain ⟨p₃, hs⟩ := hthen _ p₂ _ _ B₂ h₂ hcalm₁
    (hin₁.of_keeps (hwait.keeps.trans (setInsertPoint_keeps _ _))) hstart.placed
  have hcalm₂ := visit_calm s _ B₂ h₂ rfl (quiet_of_noReturn s _ hnos) hcalm₁
  rw [leaveBranch_eq hcalm₂.returnInBranch] at h₃ h
  have hnext := hwait.pass he.placed htrue hs
    (hwait.ahead he.placed htrue hs.toOnward (.inr (.inr rfl)))
  have hresume := hnext.resume he.placed hfalse
  have hclear := setReturnInBranch_onward hresume.placed false
  obtain ⟨p₄, ht⟩ := helse _ p₃ _ _ B₃ h₃ (nextBranch_calm hcalm₂ _ _)
    (hin₁.of_keeps ((hnext.keeps.trans (setInsertPoint_keeps _ _)).trans
      (setReturnInBranch_keeps _ _))) hclear.placed
  have hcalm₃ := visit_calm t _ B₃ h₃ rfl (quiet_of_noReturn t _ hnot) (nextBranch_calm hcalm₂ _ _)
  have hpass : Walked p₃ ({n + 2} ∪ Q) ((B₂.createBr (n + 2)).setInsertPoint (n + 1)) p₄ B₃ :=
    ⟨hclear.trans ht.toOnward, (setReturnInBranch_keeps _ _).trans ht.keeps⟩
  have hback := hnext.pass he.placed hfalse hpass
    (hnext.ahead he.placed hfalse hpass.toOnward (.inr rfl))
  have hend := hback.last he.placed
  have hreturn : (B₂.createBr (n + 2)).returnInBranch = false := hcalm₂.returnInBranch
  rw [hreturn, Bool.false_and, if_neg Bool.false_ne_true, leaveBranch_eq hcalm₃.returnInBranch] at h
  rw [← Except.ok.inj h] at hall ⊢
  have hreset := setReturnInBranch_onward hend.placed false
  have hflags := hreset.trans (setInBranch_onward hreset.placed false)
  exact ⟨p₄, ((he.toOnward.trans hend).trans hflags).walked hall rfl hin⟩

theorem iterationStmt_walks {e : Ast .expression} {s : Ast .statement} (hno : s.noReturn = true)
    (hloop : Walks s) : Walks (.iterationStmt e s) := by
  intro b p Q B B' h hcalm hin hB
  have hall := h
  obtain ⟨B₁, h₁, h⟩ := bind_ok.mp h
  obtain ⟨B₂, h₂, h⟩ := bind_ok.mp h
  cases h
  obtain ⟨p₁, C, hopen, hwait⟩ := openIteration_waiting hB
  have hcalm₀ := openIteration_calm hcalm
  obtain ⟨n, hn⟩ : ∃ n, n = B.newBlock := ⟨_, rfl⟩
  simp only [← hn] at hwait hopen h₂ hall ⊢
  rw [hopen] at h₁ hcalm₀
  have hnot := first_notMem n
  have hbody : n + 1 ∉ ({n + 2} : Set BlockId) := (Nat.succ_ne_self _).symm
  have hstart := hwait.resume hB hnot
  obtain ⟨p₂, he⟩ := visit_delivers e rfl p₁ _ _ B₁ h₁ hstart.placed
  have htruth := he.placed.truth (he.rand rfl hcalm₀.addressOnly)
  have hcond := he.toOnward.trans htruth.toOnward
  have hin₀ : Inside (C.setInsertPoint n) :=
    hin.of_keeps (hwait.keeps.trans (setInsertPoint_keeps _ _))
  have hcalm₁ := enterBody_calm (@Calm.expression _ _ b _ e rfl h₁ hcalm₀) (n + 1) (n + 2)
  obtain ⟨D, hD⟩ : ∃ D, D = B₁.truth.createCondBr B₁.truth.val (n + 1) (n + 2) := ⟨_, rfl⟩
  have hgrows : Grows B₁.truth D := hD ▸ createCondBr_grows _ _ _ _
  have hfork : Waiting p Q B p₂ D {n + 1, n + 2} :=
    hwait.leave hB hnot hcond ((visit_stays e _ B₁ h₁ hin₀).trans (truth_keeps B₁))
      (hD ▸ htruth.placed.condBr htruth.rand (hwait.ahead hB hnot hcond (.inr (.inl rfl)))
        (hwait.ahead hB hnot hcond (.inr (.inr rfl))) (Nat.succ_ne_self _).symm)
      hgrows (hD ▸ createCondBr_keeps _ _ _ _)
  have henter : B₁.enterBody (n + 1) (n + 2) = (D.setInsertPoint (n + 1)).setInBranch true := by
    rw [hD]
    rfl
  rw [henter] at h₂ hcalm₁
  have hinside := hfork.resume hB hbody
  have hbranch := setInBranch_onward hinside.placed true
  obtain ⟨p₃, hs⟩ := hloop _ p₂ _ _ B₂ h₂ hcalm₁
    (hin.of_keeps ((hfork.keeps.trans (setInsertPoint_keeps _ _)).trans (setInBranch_keeps _ _)))
    hbranch.placed
  have hcalm₂ := visit_calm s _ B₂ h₂ rfl (quiet_of_noReturn s _ hno) hcalm₁
  have hpass : Walked p₂ ({n + 2} ∪ Q) (D.setInsertPoint (n + 1)) p₃ (B₂.setInBranch false) :=
    ⟨(hbranch.trans hs.toOnward).trans (setInBranch_onward hs.placed false),
      ((setInBranch_keeps _ _).trans hs.keeps).trans (setInBranch_keeps _ _)⟩
  -- the jump back: the predicate is a child of the block in front of the loop
  obtain ⟨hne, hchild⟩ := hwait.children n (Set.mem_insert _ _)
  have hmem := (hwait.formed.unended n (.inl (Set.mem_insert _ _))).1
  have hmemD : n ∈ D.fn.blocks :=
    (hgrows htruth.placed.wf).2.mem_blocks (hcond.leads.ext.mem_blocks hmem)
  have hahead : Ahead p₂ (D.setInsertPoint (n + 1)) n :=
    hinside.leads.ahead hmemD hne ((hcond.leads.parents n hmem).trans hchild)
  have hback := hfork.pass hB hbody hpass (hahead.mono hinside.placed hpass.leads)
  have hreturn : (B₂.setInBranch false).returnInBranch = false := hcalm₂.returnInBranch
  rw [leaveBranch_eq hreturn] at hall ⊢
  exact ⟨p₃, (hback.last hB).walked hall rfl hin⟩

/-- **A statement without a `return`** leads on to a block below. -/
theorem visit_walked {k : Kind} (a : Ast k) :
    k.inExpression = false → a.noReturn = true → Walks a := by
  induction a with
  | emptyStmt | noStmts =>
    intro _ _ b p Q B B' h _ _ hB
    cases h
    exact ⟨p, ⟨hB, .refl p B⟩, .refl B⟩
  | expressionStmt e ih =>
    intro _ _ b p Q B B' h _ hin hB
    obtain ⟨p', he⟩ := visit_delivers e rfl p Q B B' h hB
    exact ⟨p', he.toOnward, visit_stays e B B' h hin⟩
  | stmt s rest ihs ihrest =>
    intro _ hno
    obtain ⟨hs, hrest⟩ := Bool.and_eq_true_iff.mp hno
    exact stmt_walks hs (ihs rfl hs) (ihrest rfl hrest)
  | compoundStmt ds ss ih => exact fun _ hno => compoundStmt_walks (ih rfl hno)
  | selectionStmt e s ihe ihs => exact fun _ hno => selectionStmt_walks hno (ihs rfl hno)
  | selectionElseStmt e s t ihe ihs iht =>
    intro _ hno
    obtain ⟨hs, ht⟩ := Bool.and_eq_true_iff.mp hno
    exact selectionElseStmt_walks hs ht (ihs rfl hs) (iht rfl ht)
  | iterationStmt e s ihe ihs => exact fun _ hno => iterationStmt_walks hno (ihs rfl hno)
  | returnVoidStmt | returnStmt => exact fun _ h => absurd h Bool.false_ne_true
  | _ => exact fun hk => absurd hk.symm Bool.false_ne_true

end Cminusfc.Frontend
