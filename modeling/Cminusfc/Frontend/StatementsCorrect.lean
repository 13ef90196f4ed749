import Cminusfc.Frontend.ExpressionsCorrect
import Cminusfc.Frontend.Assembly

/-!
# Statements mean what is emitted for them

For quiet statements, in which `return` closes no blocks. A statement starts and ends at the end of
the insert block, with the store in the slots of the variables.

* The blocks that a statement creates for its parts stay empty until the part is visited
  (`visit_untouched`), so that a branch to one leads to where its instructions begin.
* The allocas of the local declarations are listed in the order of the declarations (`Slots`).

Result: `visitStatement_correct`, by induction over the nodes.

About `src/cminusfc/cminusf_builder.cpp` 26-41 and 90-273. Out of scope: a `return` in a branch.
-/

namespace Cminusfc.Frontend

open LightIR
open LightIR.Func (eval setReg Computes)
open LightIR.Run (defined)
open Fallible (bind_ok)
open Builder

variable {Val World : Type} {M : Machine Val World} {Γ : Context} {addr : Nat → Val} {n : Nat}
  {B B' B₁ B₂ : Builder} {F : Func} {σ σ' : Store Val World} {st st' : State Val World}

/-! ## Scopes -/

/-- The variables of the function change. -/
theorem Visible.scope (h : Visible Γ B) (hx : Extends B.fn B'.fn) (hglobals : B'.globals = B.globals)
    (htypes : B'.types = B.types) (hreturn : B'.returnType = B.returnType)
    (hlast : ∀ id, B'.scope.getGlobal id = B.scope.getGlobal id)
    (hresult : B'.scope.find "" = B.scope.find "") : Visible Γ B' where
  globals id t ht := by
    obtain ⟨hg, hty⟩ := h.globals id t ht
    refine ⟨(hlast id).trans hg, ?_⟩
    simp only [typeOf, hglobals] at hty ⊢
    exact hty
  callee id t ht := by
    have hc := h.callee id t ht
    unfold Builder.callee at hc ⊢
    rw [hlast, htypes]
    exact hc
  except := by
    have hc := h.except
    unfold Builder.callee at hc ⊢
    rw [hlast, htypes]
    exact hc
  returnType := by rw [hreturn]; exact h.returnType
  result hvoid := by
    obtain ⟨a, ha, hlt, hop, hty⟩ := h.result hvoid
    rw [hresult]
    exact ⟨a, ha, Nat.lt_of_lt_of_le hlt hx.next, by rw [hx.instr a hlt]; exact ⟨hop, hty⟩⟩

theorem getGlobal_cons {m m' : List (String × Value)} {rest : Scope} (h : rest ≠ []) (id : String) :
    Scope.getGlobal (m :: rest) id = Scope.getGlobal (m' :: rest) id := by
  cases rest with
  | nil => exact absurd rfl h
  | cons m'' rest => rfl

theorem lookup_cons_ne {m : List (String × Value)} {id id' : String} {v : Value} (h : id' ≠ id) :
    List.lookup id' ((id, v) :: m) = m.lookup id' := by
  have hne : (id' == id) = false := by simpa using h
  rw [List.lookup_cons, hne]

/-- A scope without variables. -/
theorem Matches.empty {s : Scope} {fs : Frames Val} (h : Matches B st s fs) :
    Matches B st ([] :: s) ((fun _ => none) :: fs) := by
  refine .scope (fun id _ => .absent) (fun id id' a ha => ?_) (fun id a ha => ?_) h
  · cases ha
  · cases ha

/-- Another variable in a fresh slot. -/
theorem Matches.declare {m : List (String × Value)} {rest : Scope} {fs : Frames Val}
    (h : Matches B st (m :: rest) fs) (hrest : rest ≠ []) {a : InstrId} {id : String}
    {x : Typed Val} (hfresh : ∀ m' ∈ m :: rest, ∀ id' i, m'.lookup id' = some (.instr i) → i ≠ a)
    (hslot : SlotOf B st x a) : Matches B st (((id, .instr a) :: m) :: rest) (fs.declare id x) := by
  obtain ⟨hfreshHead, hfreshRest⟩ := List.forall_mem_cons.mp hfresh
  cases h with
  | globals g => exact absurd rfl hrest
  | @scope _ fr _ frames hm hown hapart hmatch =>
    refine .scope (fun id' hid' => ?_) (fun id' id'' b hb hb' => ?_)
      (fun id' b hb m' hm' id'' hb' => ?_)
      hmatch
    · by_cases heq : id' = id
      · subst heq
        rw [List.lookup_cons_self, Function.update_self]
        exact .slot hslot
      · rw [lookup_cons_ne heq, Function.update_of_ne heq]
        exact hm id' hid'
    · by_cases heq : id' = id
      · by_cases heq' : id'' = id
        · rw [heq, heq']
        · subst heq
          rw [List.lookup_cons_self, Option.some.injEq, Value.instr.injEq] at hb
          rw [lookup_cons_ne heq'] at hb'
          exact absurd hb.symm (hfreshHead id'' b hb')
      · rw [lookup_cons_ne heq] at hb
        by_cases heq' : id'' = id
        · subst heq'
          rw [List.lookup_cons_self, Option.some.injEq, Value.instr.injEq] at hb'
          exact absurd hb'.symm (hfreshHead id' b hb)
        · rw [lookup_cons_ne heq'] at hb'
          exact hown id' id'' b hb hb'
    · by_cases heq : id' = id
      · subst heq
        rw [List.lookup_cons_self, Option.some.injEq, Value.instr.injEq] at hb
        exact absurd hb.symm (hfreshRest m' hm' id'' b hb')
      · rw [lookup_cons_ne heq] at hb
        exact hapart id' b hb m' hm' id'' hb'

/-- The scopes of an earlier state, in which they were known. -/
theorem Matches.back {s : Scope} {fs : Frames Val} (h : Matches B' st s fs)
    (hx : Extends B.fn B'.fn) (hknown : ∀ m ∈ s, ∀ id i, m.lookup id = some (.instr i) → i < B.fn.next) :
    Matches B st s fs := by
  induction h with
  | globals g => exact .globals g
  | @scope m fr rest frames hm hown hapart _ ih =>
    obtain ⟨hhead, hrest⟩ := List.forall_mem_cons.mp hknown
    refine .scope (fun id hid => ?_) hown hapart (ih hrest)
    have hrep := hm id hid
    have hlt := hhead id
    revert hrep hlt
    generalize m.lookup id = v, fr id = x
    intro hrep hlt
    cases hrep with
    | absent => exact .absent
    | @slot x a hs =>
      have hinstr := hx.instr a (hlt a rfl)
      exact .slot ⟨hlt a rfl, hinstr ▸ hs.op, hinstr ▸ hs.ty, hs.scalar, hs.array⟩

/-- What is in scope has been created. -/
theorem Ready.known (hr : Ready B) : ∀ m ∈ B.scope, ∀ id i,
    m.lookup id = some (.instr i) → i < B.fn.next := fun m hm id i hi =>
  (hr.declared.scope m hm (id, .instr i) (lookup_mem hi)).known i rfl

/-- The state corresponds to an earlier builder with the same declarations. -/
theorem Corresponds.back (h : Corresponds Γ B' σ st') (hv : Visible Γ B) (hr : Ready B)
    (hx : Extends B.fn B'.fn) (hk : Keeps B B') : Corresponds Γ B σ st' where
  visible := hv
  world := h.world
  frames := by
    have hframes := h.frames
    rw [hk.scope] at hframes
    exact hframes.back hx hr.known

/-! ## Declarations -/

/-- What a local declaration does to the builder. -/
theorem visitVarDeclaration_ok {d : VarDeclaration} (h : B.visitVarDeclaration d = .ok B')
    (hs : B.scope.tail ≠ []) : ∃ t m rest, variableType d = .ok t ∧ B.scope = m :: rest ∧
      B' = { B.createAlloca t with scope := ((d.id, .instr B.fn.next) :: m) :: rest } := by
  rcases hB : B.scope with _ | ⟨m, rest⟩
  · rw [hB] at hs
    exact absurd rfl hs
  · have hlocal : B.scope.inGlobal = false := by
      rw [hB] at hs ⊢
      cases rest with
      | nil => exact absurd rfl hs
      | cons m' rest => simp [Scope.inGlobal]
    obtain ⟨t, ht, h⟩ := bind_ok.mp h
    simp only [hlocal, Bool.false_eq_true, if_false] at h
    have hscope : (B.createAlloca t).scope = m :: rest := hB
    rw [hscope, Scope.push] at h
    split_ifs at h
    exact ⟨t, m, rest, ht, rfl, (Except.ok.inj h).symm⟩

/-- The slot of a variable. -/
theorem createAlloca_emits (B : Builder) (t : Ty) : (B.createAlloca t).fn.next = B.fn.next + 1 ∧
    (B.createAlloca t).fn.instr B.fn.next =
      { op := .alloca, ty := .pointer t, operands := [], parent := B.bb } := by
  simp [createAlloca, create]

theorem createAlloca_trace {t : Ty} (hF : Extends (B.createAlloca t).fn F)
    (st : State Val World) : F.Trace M (here B) st [B.fn.next] (here (B.createAlloca t))
      (setReg st B.fn.next (M.addr B.fn.next)) := by
  obtain ⟨-, hinstr⟩ := emit_stands hF
  exact emit_trace hF rfl (Func.execInstr_alloca (by rw [hinstr]) st)

theorem setReg_next (st : State Val World) (v : Val) (i : InstrId) (hi : i < B.fn.next) :
    (setReg st B.fn.next v).regs i = st.regs i := by
  rw [Func.setReg_regs, Function.update_of_ne (Nat.ne_of_lt hi)]

theorem variableType_ok {d : VarDeclaration} {t : Ty} (h : variableType d = .ok t) :
    d.variableType = some t := by
  unfold Builder.variableType at h
  unfold VarDeclaration.variableType
  rw [← type_valueType]
  cases hnum : d.num with
  | none =>
    rw [hnum] at h
    exact congrArg some (Except.ok.inj h)
  | some m =>
    simp only [hnum] at h ⊢
    split_ifs at h ⊢
    exact congrArg some (Except.ok.inj h)

theorem variableType_error {d : VarDeclaration} {e : Fault} (h : variableType d = .error e) :
    d.variableType = none := by
  unfold Builder.variableType at h
  unfold VarDeclaration.variableType
  cases hnum : d.num with
  | none =>
    rw [hnum] at h
    cases h
  | some m =>
    simp only [hnum] at h ⊢
    split_ifs at h ⊢
    rfl

/-- **A declaration.** -/
theorem declaration_computes {d : VarDeclaration} {k : Nat} (hr : Ready B) (hs : B.scope.tail ≠ [])
    (h : B.visitVarDeclaration d = .ok B') (hF : Extends B'.fn F) (hc : Corresponds Γ B σ st)
    (haddr : addr k = M.addr B.fn.next) :
    F.Computes M n (here B) st (d.meaning addr k σ) (Arrived Γ B B' st) := by
  unfold VarDeclaration.meaning
  split_ifs with hid
  · trivial
  obtain ⟨t, m, rest, ht, hscope, rfl⟩ := visitVarDeclaration_ok h hs
  have hrest : rest ≠ [] := by
    rw [hscope] at hs
    exact hs
  have hgrows := (create_grows B .alloca (.pointer t) [] .EQ hr.wf).2
  have hregs := setReg_next (B := B) st (M.addr B.fn.next)
  obtain ⟨hnext, hinstr⟩ := createAlloca_emits B t
  have hFalloca : Extends (B.createAlloca t).fn F := hF
  have htrace := createAlloca_trace (M := M) hFalloca st
  rw [variableType_ok ht]
  refine ⟨_, _, _, htrace, rfl, ⟨?_, hc.world, ?_⟩, hregs⟩
  · refine hc.visible.scope hgrows rfl rfl rfl (fun id => ?_) ?_
    · rw [hscope]
      exact getGlobal_cons hrest id
    · rw [hscope, Scope.find, Scope.find, lookup_cons_ne (Ne.symm hid)]
  · have hmatch : Matches (B.createAlloca t) _ B.scope σ.frames :=
      hc.frames.mono hgrows hregs fun _ _ _ _ _ => rfl
    rw [hscope] at hmatch
    have hknown := hr.known
    rw [hscope] at hknown
    refine Matches.mono (Matches.declare hmatch hrest
      (fun m' hm' id i hi => Nat.ne_of_lt (hknown m' hm' id i hi)) ?_) (Extends.refl _)
      (fun _ _ => rfl) fun _ _ _ _ _ => rfl
    refine ⟨hnext ▸ Nat.lt_succ_self _, congrArg Instr.op hinstr, congrArg Instr.ty hinstr,
      fun harr v hv => ?_, fun harr v hv => ?_⟩
    · simp [harr] at hv
    · simp only [harr, if_true, Option.some.injEq] at hv
      rw [Func.setReg_regs, Function.update_self, ← hv, haddr]

/-! ## The slots of declarations -/

/-- Allocas that are emitted on the way from `B` to `B'`, in that order. -/
structure Slots (B B' : Builder) (l : List InstrId) : Prop where
  sorted : l.Pairwise (· < ·)
  range : ∀ i ∈ l, B.fn.next ≤ i ∧ i < B'.fn.next
  op : ∀ i ∈ l, (B'.fn.instr i).op = .alloca

theorem Slots.nil : Slots B B' [] := ⟨.nil, nofun, nofun⟩

theorem Slots.mono {C C' : Builder} {l : List InstrId} (h : Slots B B' l) (hx : Extends C.fn B.fn)
    (hx' : Extends B'.fn C'.fn) : Slots C C' l where
  sorted := h.sorted
  range i hi := ⟨Nat.le_trans hx.next (h.range i hi).1, Nat.lt_of_lt_of_le (h.range i hi).2 hx'.next⟩
  op i hi := by rw [hx'.instr i (h.range i hi).2]; exact h.op i hi

theorem Slots.append {l l' : List InstrId} (h : Slots B B₁ l) (h' : Slots B₁ B' l')
    (hx : Extends B.fn B₁.fn) (hx' : Extends B₁.fn B'.fn) : Slots B B' (l ++ l') where
  sorted := List.pairwise_append.mpr ⟨h.sorted, h'.sorted, fun i hi j hj =>
    Nat.lt_of_lt_of_le (h.range i hi).2 (h'.range j hj).1⟩
  range i hi := by
    rcases List.mem_append.mp hi with hi | hi
    · exact (h.mono (Extends.refl _) hx').range i hi
    · exact (h'.mono hx (Extends.refl _)).range i hi
  op i hi := by
    rcases List.mem_append.mp hi with hi | hi
    · exact (h.mono (Extends.refl _) hx').op i hi
    · exact h'.op i hi

/-- The local arrays from number `k` on are at the addresses that the allocas `l` yield. -/
def Numbered (M : Machine Val World) (addr : Nat → Val) (k : Nat) (l : List InstrId) : Prop :=
  ∀ j i, l[j]? = some i → addr (k + j) = M.addr i

theorem Numbered.left {k : Nat} {l l' : List InstrId} (h : Numbered M addr k (l ++ l')) :
    Numbered M addr k l := fun j i hi => h j i <| by
  obtain ⟨hj, rfl⟩ := List.getElem?_eq_some_iff.mp hi
  rw [List.getElem?_append_left hj, List.getElem?_eq_getElem hj]

theorem Numbered.right {k : Nat} {l l' : List InstrId} (h : Numbered M addr k (l ++ l')) :
    Numbered M addr (k + l.length) l' := fun j i hi => by
  rw [Nat.add_assoc]
  exact h _ i (by rw [List.getElem?_append_right (Nat.le_add_right _ _), Nat.add_sub_cancel_left, hi])

theorem visitVarDeclaration_next {d : VarDeclaration} (h : B.visitVarDeclaration d = .ok B')
    (hs : B.scope.tail ≠ []) : B'.fn.next = B.fn.next + 1 ∧
      (B'.fn.instr B.fn.next).op = .alloca := by
  obtain ⟨t, m, rest, -, -, rfl⟩ := visitVarDeclaration_ok h hs
  obtain ⟨hnext, hinstr⟩ := createAlloca_emits B t
  exact ⟨hnext, by rw [hinstr]⟩

/-- **The declarations of a compound statement.** -/
theorem declarations_compute (ds : List VarDeclaration) : ∀ {B B' : Builder}, Ready B →
    B.scope.tail ≠ [] → ds.foldlM visitVarDeclaration B = .ok B' →
    ∃ l, l.length = ds.length ∧ Slots B B' l ∧ Extends B.fn B'.fn ∧
      ∀ (Val World : Type) (M : Machine Val World) n F σ st addr k, Extends B'.fn F →
        Corresponds Γ B σ st → Numbered M addr k l →
          F.Computes M n (here B) st (declarations addr ds k σ) (Arrived Γ B B' st) := by
  induction ds with
  | nil =>
    intro B B' _ _ h
    cases h
    exact ⟨[], rfl, .nil, Extends.refl _,
      fun _ _ _ _ F σ st addr k _ hc _ => .pure ⟨rfl, hc, fun _ _ => rfl⟩⟩
  | cons d ds ih =>
    intro B B' hr hs h
    rw [List.foldlM_cons] at h
    obtain ⟨B₁, h₁, h₂⟩ := bind_ok.mp h
    obtain ⟨hr₁, htail⟩ := visitVarDeclaration_ready hr hs h₁
    have hx := (visitVarDeclaration_grows h₁ hr.wf).2
    obtain ⟨l, hlen, hslots, hx', hcompute⟩ := ih hr₁ (htail ▸ hs) h₂
    obtain ⟨hnext, hop⟩ := visitVarDeclaration_next h₁ hs
    have hslot : Slots B B₁ [B.fn.next] :=
      ⟨List.pairwise_singleton _ _, by simp [hnext], by simpa using hop⟩
    refine ⟨B.fn.next :: l, by simp [hlen], hslot.append hslots hx hx', hx.trans hx', ?_⟩
    intro Val World M n F σ st addr k hF hc hnum
    refine (declaration_computes hr hs h₁ (hx'.trans hF) hc (hnum 0 _ rfl)).bind ?_
    rintro σ' q st' hd
    obtain rfl := hd.point
    refine (hcompute Val World M n F σ' st' addr (k + 1) hF hd.corr
      (Numbered.right (l := [B.fn.next]) hnum)).mono (Nat.le_refl n) ?_
    intro σ'' q st'' hds
    exact ⟨hds.point, hds.corr, fun i hi =>
      (hds.regs i (Nat.lt_of_lt_of_le hi hx.next)).trans (hd.regs i hi)⟩

/-! ## Blocks -/

/-- **A visit writes no block that was there before**, apart from the insert block. -/
theorem visit_untouched {k : Kind} {a : Ast k} {c : BlockId} (h : visit a B = .ok B') (hw : Wf B)
    (hq : k.inExpression = true ∨ ∃ b, Calm b B ∧ a.quiet b = true)
    (hc : c < B.fn.blocks.length) (hne : B.bb ≠ c) : B'.fn.body c = B.fn.body c ∧ B'.bb ≠ c := by
  have hA : Assembled (· ≠ c) B.fn B :=
    ⟨hw, .refl, hne, fun b hb => Nat.ne_of_gt (Nat.lt_of_lt_of_le hc hb)⟩
  have hA' := visit_assembled a B B' h hA (.inr hq)
  exact ⟨hA'.builds.body (fun h => h rfl), hA'.bb⟩

/-- The blocks behind the insert block stay empty. -/
theorem visit_later {k : Kind} {a : Ast k} {t m : BlockId} (h : visit a B = .ok B') (hw : Wf B)
    (hq : k.inExpression = true ∨ ∃ b, Calm b B ∧ a.quiet b = true) (hbb : B.bb = t)
    (hlen : m ≤ B.fn.blocks.length) (hempty : ∀ c, t ≤ c → B.fn.body c = []) (c : BlockId)
    (hc : t < c) (hm : c < m) : B'.fn.body c = [] ∧ B'.bb ≠ c := by
  obtain ⟨hbody, hne⟩ := visit_untouched h hw hq (Nat.lt_of_lt_of_le hm hlen)
    (by rw [hbb]; exact Nat.ne_of_lt hc)
  exact ⟨hbody.trans (hempty c (Nat.le_of_lt hc)), hne⟩

theorem createBr_untouched {c t : BlockId} (h : B.bb ≠ c) :
    (B.createBr t).fn.body c = B.fn.body c := by
  simp [createBr, emit, Function.update_of_ne h.symm, Func.addSuccBasicBlock, Func.addPreBasicBlock]

theorem createCondBr_untouched {c t e : BlockId} {v : Value} (h : B.bb ≠ c) :
    (B.createCondBr v t e).fn.body c = B.fn.body c := by
  simp [createCondBr, emit, Function.update_of_ne h.symm, Func.addSuccBasicBlock,
    Func.addPreBasicBlock]

/-! ## Conditions -/

theorem truth_step (hr : Ready B) : Step B B.truth :=
  hr.step (truth_grows B) (truth_keeps B).stays

/-- **A condition.** -/
theorem truth_computes {x : Typed Val} (hr : Ready B) (hc : Corresponds Γ B σ st)
    (hF : Extends B.truth.fn F) (hx : Holds M B st B.val x) :
    F.Computes M n (here B) st (Semantics.truth M x) fun b q st' => q = here B.truth ∧
      Corresponds Γ B.truth σ st' ∧ M.isTrue (eval M st' B.truth.val) = b ∧
      ∀ i < B.fn.next, st'.regs i = st.regs i := by
  refine Computes.defined fun v hv => ?_
  have hval := hx.value v hv
  have htype := hx.type
  split
  · rename_i hint
    have htruth : B.truth = B := by simp [truth, htype, hint, Ty.size]
    rw [htruth]
    exact .pure ⟨rfl, hc, by rw [hval], fun _ _ => rfl⟩
  · rename_i hint
    have htruth : B.truth = B.create .cmp .int1 [B.val, .int32 0] .NE := by
      simp [truth, htype, hint, Ty.size, Ty.isInteger]
    rw [htruth] at hF ⊢
    obtain ⟨tr, q, st₁, htr, hdone⟩ := @create_operation _ _ M Γ n B F σ st .cmp .int1
      [B.val, .int32 0] .NE hr hc hF (.inl rfl) (.inl rfl)
    refine ⟨tr, q, st₁, htr, hdone.point, hdone.corr, ?_, hdone.regs⟩
    rw [hdone.holds.value _ rfl, List.map_cons, List.map_cons, List.map_nil, hval]
    rfl
  · rename_i hfloat
    have htruth : B.truth = B.create .fcmp .int1 [B.val, .fp 0] .NE := by
      simp [truth, htype, hfloat, Ty.size, Ty.isInteger]
    rw [htruth] at hF ⊢
    obtain ⟨tr, q, st₁, htr, hdone⟩ := @create_operation _ _ M Γ n B F σ st .fcmp .int1
      [B.val, .fp 0] .NE hr hc hF (.inl rfl) (.inl rfl)
    refine ⟨tr, q, st₁, htr, hdone.point, hdone.corr, ?_, hdone.regs⟩
    rw [hdone.holds.value _ rfl, List.map_cons, List.map_cons, List.map_nil, hval]
    rfl
  · trivial

theorem createNumbered_body (B : Builder) (kind : String) :
    (B.createNumbered kind).fn.body = B.fn.body := rfl

theorem here_createNumbered (B : Builder) (kind : String) :
    here (B.createNumbered kind) = here B := rfl

/-- The blocks behind a branch are empty when they are created. -/
theorem fork_empty {E : Builder} {v : Value} {t f c : BlockId} (hw : Wf B)
    (hbody : E.fn.body = B.fn.body) (hbb : E.bb = B.bb) (hc : B.fn.blocks.length ≤ c) :
    (E.createCondBr v t f).fn.body c = [] := by
  have hne : E.bb ≠ c := Nat.ne_of_lt (Nat.lt_of_lt_of_le (hbb ▸ hw.bb) hc)
  rw [createCondBr_untouched hne, hbody]
  exact hw.fresh c hc

/-- In `O` a condition of `B` has been tested, and `t` is where it holds. -/
structure Forks (B O : Builder) (t f : BlockId) : Prop where
  point : here O = ⟨t, 0⟩
  branch : ∃ E, Step B.truth E ∧ here E = here B.truth ∧
    O.fn = (E.createCondBr B.truth.val t f).fn ∧ Keeps E O

theorem openSelection_forks (hr : Ready B) : Forks B B.openSelection B.newBlock (B.newBlock + 1) ∧
    ∀ c, B.newBlock ≤ c → B.openSelection.fn.body c = [] := by
  have hsT := truth_step hr
  obtain ⟨E, hE⟩ : ∃ E, E = (B.truth.createNumbered "true").createNumbered "out" := ⟨_, rfl⟩
  have hsE : Step B.truth E := hE ▸ hsT.ready.step
    ((createNumbered_grows _ _).trans (createNumbered_grows _ _))
    ((createNumbered_keeps _ _).trans (createNumbered_keeps _ _)).stays
  have hopen : B.openSelection =
      ((E.createCondBr B.truth.val B.newBlock (B.newBlock + 1)).setInBranch true).setInsertPoint
        B.newBlock := by
    subst hE
    simp [openSelection]
  have hfn : B.openSelection.fn =
      (E.createCondBr B.truth.val B.newBlock (B.newBlock + 1)).fn := by rw [hopen]; rfl
  have hempty : ∀ c, B.newBlock ≤ c → B.openSelection.fn.body c = [] := fun c hc => by
    rw [hfn]
    refine fork_empty hsT.ready.wf ?_ ?_ (by rw [truth_length]; exact hc)
    · simp only [hE, createNumbered_body]
    · simp only [hE, createNumbered_bb]
  refine ⟨⟨?_, E, hsE, by simp only [hE, here_createNumbered], hfn, ?_⟩, hempty⟩
  · have hbb : B.openSelection.bb = B.newBlock := by rw [hopen]; rfl
    rw [here, hbb, hempty _ (Nat.le_refl _)]
    rfl
  · rw [hopen]
    exact ((createCondBr_keeps _ _ _ _).trans (setInBranch_keeps _ _)).trans
      (setInsertPoint_keeps _ _)

theorem openSelectionElse_forks (hr : Ready B) :
    Forks B B.openSelectionElse B.newBlock (B.newBlock + 1) ∧
      ∀ c, B.newBlock ≤ c → B.openSelectionElse.fn.body c = [] := by
  have hsT := truth_step hr
  obtain ⟨E, hE⟩ : ∃ E, E = ((B.truth.createNumbered "true").createNumbered
    "false").createNumbered "out" := ⟨_, rfl⟩
  have hsE : Step B.truth E := hE ▸ hsT.ready.step
    (((createNumbered_grows _ _).trans (createNumbered_grows _ _)).trans (createNumbered_grows _ _))
    (((createNumbered_keeps _ _).trans (createNumbered_keeps _ _)).trans
      (createNumbered_keeps _ _)).stays
  have hopen : B.openSelectionElse =
      ((E.createCondBr B.truth.val B.newBlock (B.newBlock + 1)).setInBranch true).setInsertPoint
        B.newBlock := by
    subst hE
    simp [openSelectionElse]
  have hfn : B.openSelectionElse.fn =
      (E.createCondBr B.truth.val B.newBlock (B.newBlock + 1)).fn := by rw [hopen]; rfl
  have hempty : ∀ c, B.newBlock ≤ c → B.openSelectionElse.fn.body c = [] := fun c hc => by
    rw [hfn]
    refine fork_empty hsT.ready.wf ?_ ?_ (by rw [truth_length]; exact hc)
    · simp only [hE, createNumbered_body]
    · simp only [hE, createNumbered_bb]
  refine ⟨⟨?_, E, hsE, by simp only [hE, here_createNumbered], hfn, ?_⟩, hempty⟩
  · have hbb : B.openSelectionElse.bb = B.newBlock := by rw [hopen]; rfl
    rw [here, hbb, hempty _ (Nat.le_refl _)]
    rfl
  · rw [hopen]
    exact ((createCondBr_keeps _ _ _ _).trans (setInBranch_keeps _ _)).trans
      (setInsertPoint_keeps _ _)

theorem truth_untouched {c : BlockId} (h : B.bb ≠ c) : B.truth.fn.body c = B.fn.body c := by
  unfold truth
  dsimp only
  split_ifs
  · simp [create, Function.update_of_ne h.symm]
  · simp [create, Function.update_of_ne h.symm]
  · rfl

theorem enterBody_untouched {body out c : BlockId} (h : B.bb ≠ c) :
    (B.enterBody body out).fn.body c = B.fn.body c := by
  have hne : B.truth.bb ≠ c := by rw [(truth_straight B).bb]; exact h
  have hbranch : (B.truth.createCondBr B.truth.val body out).fn.body c = B.truth.fn.body c :=
    createCondBr_untouched hne
  exact hbranch.trans (truth_untouched h)

/-- The body of a loop. -/
theorem enterBody_forks {body out : BlockId} (hr : Ready B) (hbb : B.bb ≠ body)
    (hempty : B.fn.body body = []) : Forks B (B.enterBody body out) body out := by
  have hsT := truth_step hr
  refine ⟨?_, B.truth, ⟨Extends.refl _, Keeps.refl _, hsT.ready⟩, rfl, rfl, ?_⟩
  · have hbody : (B.enterBody body out).fn.body body = [] :=
      (enterBody_untouched hbb).trans hempty
    show (⟨body, ((B.enterBody body out).fn.body body).length⟩ : Point) = _
    rw [hbody]
    rfl
  · exact ((createCondBr_keeps _ _ _ _).trans (setInsertPoint_keeps _ _)).trans
      (setInBranch_keeps _ _)

/-- **A condition and the branch behind it.** -/
theorem condition_computes {e : Ast .expression} {O : Builder} {t f : BlockId}
    {m : Store Val World → Run Val World (Typed Val × Store Val World)}
    (he : Evaluates M Γ n e m) (h₁ : visit e B = .ok B₁) (hr : Ready B)
    (haddr : B.addressOnly = false) (hO : Forks B₁ O t f) (hF : Extends O.fn F)
    (hc : Corresponds Γ B σ st) :
    F.Computes M n (here B) st (Semantics.condition M m σ) fun r q st' => ∃ tr q' st'',
      F.Trace M q st' tr q' st'' ∧ 0 < F.jumps tr ∧ q' = ⟨if r.1 then t else f, 0⟩ ∧
        Corresponds Γ O r.2 st'' ∧ ∀ i < B.fn.next, st''.regs i = st.regs i := by
  obtain ⟨-, E, hsE, hE, hfn, hk⟩ := hO
  have hs₁ := visit_step rfl h₁ hr
  have hsT := truth_step hs₁.ready
  have hbr := (createCondBr_grows E B₁.truth.val t f hsE.ready.wf).2
  rw [hfn] at hF
  have hFT : Extends B₁.truth.fn F := hsE.ext.trans (hbr.trans hF)
  refine (he B B₁ h₁ hr haddr F σ st (hsT.ext.trans hFT) hc).bind ?_
  rintro r q st₁ hr₁
  obtain rfl := hr₁.point
  refine (truth_computes hs₁.ready hr₁.corr hFT hr₁.holds).bind ?_
  rintro b q st₂ ⟨rfl, hcorr, hb, hregs⟩
  obtain ⟨hjump, hone⟩ := @createCondBr_trace _ _ M E F B₁.truth.val t f hF st₂
  rw [hE, hb] at hjump
  refine .pure ⟨_, _, _, hjump, by omega, rfl, ?_, fun i hi => ?_⟩
  · exact hcorr.keep (hfn ▸ hsE.ext.trans hbr) (hsE.keeps.trans hk)
  · exact (hregs i (Nat.lt_of_lt_of_le hi hs₁.ext.next)).trans (hr₁.regs i hi)

/-! ## What is shown of a statement -/

/-- The meaning of an expression on every machine, from the addresses of the arrays and the fuel. -/
abbrev Evaluation := ∀ {Val World : Type}, Machine Val World → (Nat → Val) → Nat →
  Store Val World → Run Val World (Typed Val × Store Val World)

/-- The meaning of a statement on every machine. -/
abbrev Action := ∀ {Val World : Type}, Machine Val World → (Nat → Val) → Nat → Nat →
  Store Val World → Run Val World (Store Val World)

/-- The visit of `e` emits what computes `m` on every lawful machine. -/
def Yields (Γ : Context) (e : Ast .expression) (m : Evaluation) : Prop :=
  ∀ (Val World : Type) (M : Machine Val World), Lawful M →
    ∀ addr n, Evaluates M Γ n e (m M addr n)

theorem visit_yields (e : Ast .expression) :
    Yields Γ e fun M addr n => e.denote true M Γ addr n := fun _ _ _ hM _ _ => visit_correct hM e

/-- The visit of `a` emits what computes `m` on every lawful machine, where the local declarations of
`a` are at the addresses that its allocas yield. -/
def Acts (Γ : Context) {k : Kind} (a : Ast k) (m : Action) : Prop :=
  ∀ b B B', visit a B = .ok B' → Ready B → Calm b B → a.quiet b = true →
    ∃ l, l.length = a.decls ∧ Slots B B' l ∧
      ∀ (Val World : Type) (M : Machine Val World), Lawful M → ∀ n F σ st addr k,
        Extends B'.fn F → Corresponds Γ B σ st → Numbered M addr k l →
          F.Computes M n (here B) st (m M addr n k σ) (Arrived Γ B B' st)

/-- What is shown of a node. -/
def Kind.Performs (Γ : Context) : (k : Kind) → Ast k → Prop
  | .statement, a => Acts Γ a fun M addr n => a.denote true M Γ addr n
  | .statements, a => Acts Γ a fun M addr n => a.denote true M Γ addr n
  | _, _ => True

/-- Behind another step. -/
theorem Arrived.behind {q : Point} {st₁ : State Val World} (h : Arrived Γ B₁ B' st₁ σ q st')
    (hx : Extends B.fn B₁.fn) (hregs : ∀ i < B.fn.next, st₁.regs i = st.regs i) :
    Arrived Γ B B' st σ q st' :=
  ⟨h.point, h.corr, fun i hi => (h.regs i (Nat.lt_of_lt_of_le hi hx.next)).trans (hregs i hi)⟩

/-! ## Sequences and returns -/

theorem expressionStmt_acts {e : Ast .expression}
    {m : Evaluation} (he : Yields Γ e m) :
    Acts Γ (.expressionStmt e) (fun M addr n _ σ => do
      let r ← m M addr n σ
      .ok r.2) := by
  intro b B B' h hr hcalm _
  refine ⟨[], rfl, .nil, fun Val World M hM n F σ st addr k hF hc _ => ?_⟩
  refine (he Val World M hM addr n B B' h hr hcalm.addressOnly F σ st hF hc).bind ?_
  exact fun r q st' h => .pure ⟨h.point, h.corr, h.regs⟩

theorem stmt_acts {s : Ast .statement} {rest : Ast .statements}
    {m m' : Action}
    (hs : Acts Γ s m) (hrest : Acts Γ rest m') :
    Acts Γ (.stmt s rest) (fun M addr n k σ => do
      let σ ← m M addr n k σ
      m' M addr n (k + s.decls) σ) := by
  intro b B B' h hr hcalm hq
  obtain ⟨hqs, hqrest⟩ := Bool.and_eq_true_iff.mp hq
  obtain ⟨B₁, h₁, h₂⟩ := bind_ok.mp h
  have hs₁ := visitStatement_step (by simp) h₁ hr
  have hs₂ := visitStatement_step (by simp) h₂ hs₁.ready
  obtain ⟨l, hlen, hslots, hcompute⟩ := hs b B B₁ h₁ hr hcalm hqs
  obtain ⟨l', hlen', hslots', hcompute'⟩ :=
    hrest _ B₁ B' h₂ hs₁.ready (visit_calm s B B₁ h₁ rfl hqs hcalm) hqrest
  refine ⟨l ++ l', ?_, hslots.append hslots' hs₁.ext hs₂.ext,
    fun Val World M hM n F σ st addr k hF hc hnum => ?_⟩
  · rw [List.length_append, hlen, hlen']
    rfl
  refine (hcompute Val World M hM n F σ st addr k (hs₂.ext.trans hF) hc hnum.left).bind ?_
  rintro σ' q st' hσ
  obtain rfl := hσ.point
  refine (hcompute' Val World M hM n F σ' st' addr _ hF hσ.corr (hlen ▸ hnum.right)).mono
    (Nat.le_refl n) ?_
  exact fun σ'' q st'' h => h.behind hs₁.ext hσ.regs

/-- The end of a function. -/
theorem createRet_finishes {v : Option Value} (hF : Extends (B.createRet v).fn F)
    (st : State Val World) :
    F.Finishes M (here B) st (.returned (v.map (eval M st)) st.world) := by
  obtain ⟨hbody, hinstr⟩ := emit_stands hF
  refine ⟨B.fn.next, hbody, .inl ?_⟩
  rw [hinstr]
  cases v <;> exact ⟨rfl, rfl⟩

theorem returnVoidStmt_acts : Acts Γ .returnVoidStmt
    (fun _ _ _ _ σ => .error (.done (.returned none σ.world))) := by
  intro b B B' h hr hcalm hq
  obtain rfl : b = false := by simpa [Ast.quiet] using hq
  refine ⟨[], rfl, .nil, fun Val World M hM n F σ st addr k hF hc _ => ?_⟩
  have hB : B' = B.createRet none := by
    have hret : B.finishReturn false = .ok B' := h
    unfold finishReturn at hret
    rw [if_neg Bool.false_ne_true, hcalm.inBranch, if_neg Bool.false_ne_true,
      enterReturnBlock_eq hcalm.preReturns] at hret
    exact (Except.ok.inj hret).symm
  rw [hB] at hF
  dsimp only
  rw [← hc.world]
  exact ⟨[], _, st, .refl _ _, createRet_finishes hF st⟩

/-- A returned value is stored and loaded again. -/
theorem finishReturn_ok {ptr : Value} (h : B.finishReturn true = .ok B') (hcalm : Calm false B)
    (hptr : B.scope.find "" = some ptr) :
    ∃ B₁ B₂, B.convert B.val B.returnType.type = .ok B₁ ∧
      ((B₁.createStore B₁.val ptr).setVal B.val).createLoad ptr = .ok B₂ ∧
      B' = B₂.createRet (some B₂.val) := by
  unfold finishReturn at h
  rw [if_pos rfl, hptr] at h
  obtain ⟨B₁, h₁, h⟩ := bind_ok.mp h
  have hflags := convert_flags h₁
  have hbranch : ((B₁.createStore B₁.val ptr).setVal B.val).inBranch = false :=
    hflags.inBranch.trans hcalm.inBranch
  have hpre : ((B₁.createStore B₁.val ptr).setVal B.val).preReturns = false :=
    hflags.preReturns.trans hcalm.preReturns
  dsimp only at h
  rw [hbranch, if_neg Bool.false_ne_true, enterReturnBlock_eq hpre] at h
  obtain ⟨B₂, h₂, h⟩ := bind_ok.mp h
  exact ⟨B₁, B₂, h₁, h₂, (Except.ok.inj h).symm⟩

theorem convert_void (t : Ty) (a : Val) :
    @Semantics.convert Val World M true t .void a = .error .undefined := by
  cases t <;> rfl

/-- **A returned value.** -/
theorem finishReturn_computes {r : Typed Val} (hr : Ready B) (hcalm : Calm false B)
    (h : B.finishReturn true = .ok B') (hF : Extends B'.fn F) (hc : Corresponds Γ B σ st)
    (hval : Holds M B st B.val r) :
    F.Computes M n (here B) st
      (do
        let a ← defined r.value
        let v ← Semantics.convert M true r.type Γ.returnType a
        .error (.done (.returned (some v) σ.world)))
      (Arrived Γ B B' st) := by
  refine Computes.defined fun a ha => ?_
  by_cases hvoid : Γ.returnType = .void
  · rw [hvoid, convert_void]
    trivial
  obtain ⟨slot, hptr, hlt, hop, hty⟩ := hc.visible.result hvoid
  obtain ⟨B₁, B₂, h₁, h₂, hB⟩ := finishReturn_ok h hcalm hptr
  rw [hc.visible.returnType] at h₁
  have hs₁ := convert_step hr h₁
  obtain ⟨t, ht, rfl⟩ := createLoad_ok h₂
  obtain ⟨D, hD⟩ : ∃ D, D = (B₁.createStore B₁.val (.instr slot)).setVal B.val := ⟨_, rfl⟩
  rw [← hD] at hB ht
  have hsD : Step B₁ D := by
    rw [hD]
    exact hs₁.ready.step ((createStore_grows B₁ _ _).same rfl rfl)
      ((createStore_keeps B₁ _ _).trans (setVal_keeps _ _)).stays
  have hload := (create_grows D .load t [.instr slot] .EQ hsD.ready.wf).2
  have hret := (createRet_grows (D.create .load t [.instr slot] .EQ)
    (some (D.create .load t [.instr slot] .EQ).val) (create_grows D .load t [.instr slot] .EQ
      hsD.ready.wf).1).2
  rw [hB] at hF
  have hFload : Extends (D.create .load t [.instr slot] .EQ).fn F := hret.trans hF
  have hFD : Extends D.fn F := hload.trans hFload
  have hFstore : Extends (B₁.createStore B₁.val (.instr slot)).fn F := by
    rw [hD] at hFD
    exact hFD
  have hslot : SlotOf B st ⟨Γ.returnType, none⟩ slot := ⟨hlt, hop, hty, nofun, nofun⟩
  have harr : Γ.returnType.isArray = false := by
    rw [← hc.visible.returnType]
    cases B.returnType <;> rfl
  have hcell := cell_slot hslot harr ((hs₁.trans hsD).ext.trans hFD)
  refine (convert_computes hr hc (hsD.ext.trans hFD) h₁ (hval.some ha)).bind ?_
  rintro v q st₁ hconv
  obtain rfl := hconv.point
  -- the store, the load and the end
  obtain ⟨-, hstoreInstr⟩ := emit_stands hFstore
  have hstore := Func.execInstr_store (M := M) (by rw [hstoreInstr]) (by rw [hstoreInstr]) hcell st₁
  obtain ⟨-, hloadInstr⟩ := emit_stands hFload
  have hexec := Func.execInstr_load (M := M) (by rw [hloadInstr]) (by rw [hloadInstr]) hcell
    (Func.setSlot st₁ slot (eval M st₁ B₁.val))
  have htr₁ := emit_trace hFstore rfl hstore
  have htr₂ := emit_trace hFload rfl hexec
  have hhere : here (B₁.createStore B₁.val (.instr slot)) = here D := by rw [hD]; rfl
  have hfinish := createRet_finishes (M := M) hF
    (setReg (Func.setSlot st₁ slot (eval M st₁ B₁.val)) D.fn.next
      ((Func.setSlot st₁ slot (eval M st₁ B₁.val)).slots slot))
  have heval : eval M (setReg (Func.setSlot st₁ slot (eval M st₁ B₁.val)) D.fn.next
      ((Func.setSlot st₁ slot (eval M st₁ B₁.val)).slots slot))
      (D.create .load t [.instr slot] .EQ).val = v := by
    have hreg : (setReg (Func.setSlot st₁ slot (eval M st₁ B₁.val)) D.fn.next
        ((Func.setSlot st₁ slot (eval M st₁ B₁.val)).slots slot)).regs D.fn.next = v := by
      rw [Func.setReg_regs, Function.update_self, Func.setSlot_slots, Function.update_self]
      exact hconv.holds.value v rfl
    exact hreg
  rw [Option.map_some, heval] at hfinish
  have hworld : st₁.world = σ.world := hconv.corr.world
  rw [← hworld]
  exact ⟨_, _, _, htr₁.trans (hhere ▸ htr₂), hfinish⟩

theorem returnStmt_acts {e : Ast .expression}
    {m : Evaluation} (he : Yields Γ e m) :
    Acts Γ (.returnStmt e) (fun M addr n _ σ => do
      let r ← m M addr n σ
      let a ← defined r.1.value
      let v ← Semantics.convert M true r.1.type Γ.returnType a
      .error (.done (.returned (some v) r.2.world))) := by
  intro b B B' h hr hcalm hq
  obtain rfl : b = false := by simpa [Ast.quiet] using hq
  obtain ⟨B₁, h₁, h₂⟩ := bind_ok.mp h
  have hs₁ := visit_step rfl h₁ hr
  have hcalm₁ := @Calm.expression _ _ false _ e rfl h₁ hcalm
  have hx := (finishReturn_grows h₂ hs₁.ready.wf).2
  refine ⟨[], rfl, .nil, fun Val World M hM n F σ st addr k hF hc _ => ?_⟩
  refine (he Val World M hM addr n B B₁ h₁ hr hcalm.addressOnly F σ st (hx.trans hF) hc).bind ?_
  rintro r q st₁ hr₁
  obtain rfl := hr₁.point
  refine (finishReturn_computes hs₁.ready hcalm₁ h₂ hF hr₁.corr hr₁.holds).mono (Nat.le_refl n) ?_
  exact fun σ' q st' h => h.behind hs₁.ext hr₁.regs

/-! ## Compound statements -/

theorem enterScope_scope (hr : Ready B) : B.enterScope.scope = [] :: B.scope := by
  simp [enterScope, Scope.enter, hr.inside.enterInFunDecl]

/-- An empty scope. -/
theorem Corresponds.enter (hc : Corresponds Γ B σ st) (hr : Ready B) :
    Corresponds Γ B.enterScope σ.enter st where
  visible := by
    refine hc.visible.scope (Extends.refl _) rfl rfl rfl (fun id => ?_) ?_
    · rw [enterScope_scope hr]
      cases hscope : B.scope with
      | nil => exact absurd hscope hr.inside.scope
      | cons m rest => rfl
    · rw [enterScope_scope hr]
      simp [Scope.find]
  world := hc.world
  frames := by
    rw [enterScope_scope hr]
    have hmatch : Matches B.enterScope st B.scope σ.frames :=
      hc.frames.mono (Extends.refl _) (fun _ _ => rfl) fun _ _ _ _ _ => rfl
    exact hmatch.empty

/-- The scope is left. -/
theorem Corresponds.exit {C : Builder} (h : Corresponds Γ B' σ' st') (hv : Visible Γ C)
    (hscope : C.scope = B'.scope.tail) (hfn : C.fn = B'.fn) (hs : B'.scope.tail ≠ []) :
    Corresponds Γ C σ'.exit st' where
  visible := hv
  world := h.world
  frames := by
    have hframes := h.frames
    have hexit : σ'.exit.frames = σ'.frames.tail := rfl
    rw [hscope, hexit]
    revert hframes hs
    generalize B'.scope = s, σ'.frames = fs
    intro hs hframes
    cases hframes with
    | globals g => exact absurd rfl hs
    | scope hm hown hapart hrest =>
      exact hrest.mono (hfn ▸ Extends.refl _) (fun _ _ => rfl) fun _ _ _ _ _ => rfl

theorem compoundStmt_acts {ds : List VarDeclaration} {ss : Ast .statements}
    {m : Action}
    (hss : Acts Γ ss m) : Acts Γ (.compoundStmt ds ss) (fun M addr n k σ => do
      let σ ← declarations addr ds k σ.enter
      let σ ← m M addr n (k + ds.length) σ
      .ok σ.exit) := by
  intro b B B' h hr hcalm hq
  have hs := visitStatement_step (a := Ast.compoundStmt ds ss) (by simp) h hr
  obtain ⟨B₁, h₁, h⟩ := bind_ok.mp h
  obtain ⟨B₂, h₂, h⟩ := bind_ok.mp h
  obtain rfl := Except.ok.inj h
  obtain ⟨hrE, htailE⟩ := enterScope_ready hr
  obtain ⟨l, hlen, hslots, hx, hcompute⟩ := @declarations_compute Γ ds _ _ hrE htailE h₁
  have hr₁ := visitVarDeclarations_ready ds hrE htailE h₁
  have hs₂ := visitStatement_step (by simp) h₂ hr₁
  have hcalm₁ : Calm b B₁ :=
    @Fallible.foldlM_keeps _ _ _ visitVarDeclaration (Calm b) ds
      (fun d _ s s' hs hd => visitVarDeclaration_calm hd hs) B.enterScope B₁
      ⟨hcalm.inBranch, hcalm.returnInBranch, hcalm.preReturns, hcalm.addressOnly⟩ h₁
  obtain ⟨l', hlen', hslots', hcompute'⟩ := hss b B₁ B₂ h₂ hr₁ hcalm₁ hq
  have htail : B₂.scope.tail = B.scope := by
    rw [hs₂.keeps.scope, (visitVarDeclarations_keeps ds _ _ h₁ htailE).2, enterScope_scope hr]
    rfl
  refine ⟨l ++ l', ?_, ?_, fun Val World M hM n F σ st addr k hF hc hnum => ?_⟩
  · rw [List.length_append, hlen, hlen']
    rfl
  · exact (hslots.append hslots' hx hs₂.ext).mono (Extends.refl _) (Extends.refl _)
  refine (hcompute Val World M n F σ.enter st addr k (hs₂.ext.trans hF) (hc.enter hr) hnum.left).bind ?_
  rintro σ₁ q st₁ hds
  obtain rfl := hds.point
  refine (hcompute' Val World M hM n F σ₁ st₁ addr _ hF hds.corr (hlen ▸ hnum.right)).bind ?_
  rintro σ₂ q st₂ hstmts
  refine .pure ⟨hstmts.point, ?_, fun i hi => ?_⟩
  · refine hstmts.corr.exit (hc.visible.keeps hs.ext hs.keeps) rfl rfl ?_
    rw [htail]
    exact hr.inside.scope
  · exact (hstmts.regs i (Nat.lt_of_lt_of_le hi hx.next)).trans (hds.regs i hi)

/-! ## Branches -/

/-- The jump at the end of a part, to a block in which nothing stands yet. -/
theorem leave_arrived {C D : Builder} {out : BlockId} {q : Point} (hw : Wf C)
    (hx : Extends (C.createBr out).fn D.fn) (hk : Keeps C D) (hpoint : here D = ⟨out, 0⟩)
    (hF : Extends D.fn F) (h : Arrived Γ B C st σ q st') :
    ∃ tr q' st'', F.Trace M q st' tr q' st'' ∧ Arrived Γ B D st σ q' st'' := by
  obtain rfl := h.point
  obtain ⟨hjump, -⟩ := @createBr_trace _ _ M C F out (hx.trans hF) st'
  refine ⟨_, _, _, hjump, hpoint.symm, ?_, h.regs⟩
  exact h.corr.keep ((createBr_grows C out hw).2.trans hx) hk

/-- The end of a statement with branches, in a block in which nothing stands yet. -/
theorem endBranches_point {out : BlockId} (hbb : B.bb ≠ out) (hempty : B.fn.body out = [])
    (hB' : B' = (((B.createBr out).setInsertPoint out).setReturnInBranch false).setInBranch false) :
    B'.fn = (B.createBr out).fn ∧ Keeps B B' ∧ here B' = ⟨out, 0⟩ := by
  have hfn : B'.fn = (B.createBr out).fn := by rw [hB']; rfl
  have hend : B'.bb = out := by rw [hB']; rfl
  refine ⟨hfn, ?_, ?_⟩
  · rw [hB']
    exact (((createBr_keeps _ _).trans (setInsertPoint_keeps _ _)).trans
      (setReturnInBranch_keeps _ _)).trans (setInBranch_keeps _ _)
  · rw [here, hend, hfn, createBr_untouched hbb, hempty]
    rfl

theorem selectionStmt_acts {e : Ast .expression} {s : Ast .statement}
    {m : Evaluation} {m' : Action} (he : Yields Γ e m) (hs : Acts Γ s m') :
    Acts Γ (.selectionStmt e s) (fun M addr n k σ => do
      let r ← Semantics.condition M (m M addr n) σ
      if r.1 then m' M addr n k r.2 else .ok r.2) := by
  intro b B B' h hr hcalm hq
  obtain ⟨B₁, h₁, h⟩ := bind_ok.mp h
  obtain ⟨B₂, h₂, h⟩ := bind_ok.mp h
  obtain ⟨t, ht⟩ : ∃ t, t = B₁.newBlock := ⟨_, rfl⟩
  have hs₁ := visit_step rfl h₁ hr
  obtain ⟨hfork, hempty⟩ := openSelection_forks hs₁.ready
  have hsO := hs₁.ready.step (openSelection_grows B₁) (openSelection_keeps B₁).stays
  have hcalmO := openSelection_calm (@Calm.expression _ _ b _ e rfl h₁ hcalm)
  have hs₂ := visitStatement_step (by simp) h₂ hsO.ready
  have hcalm₂ := visit_calm s _ B₂ h₂ rfl hq hcalmO
  obtain ⟨l, hlen, hslots, hcompute⟩ := hs true _ B₂ h₂ hsO.ready hcalmO hq
  rw [← ht] at hfork hempty
  rw [leaveBranch_eq hcalm₂.returnInBranch, ← ht] at h
  -- the block behind the statement is empty to the end
  have hbbO : B₁.openSelection.bb = t := congrArg Point.block hfork.point
  have hlenO : t + 2 ≤ B₁.openSelection.fn.blocks.length := by
    rw [openSelection_length, ht]
    exact Nat.le_refl _
  obtain ⟨hout, hbb₂⟩ := visit_later h₂ hsO.ready.wf (.inr ⟨true, hcalmO, hq⟩) hbbO hlenO hempty
    (t + 1) (Nat.lt_succ_self _) (Nat.lt_succ_self _)
  obtain ⟨hfn, hkeeps, hpoint⟩ := endBranches_point hbb₂ hout (Except.ok.inj h).symm
  have hx₂ : Extends B₂.fn B'.fn := hfn ▸ (createBr_grows B₂ _ hs₂.ready.wf).2
  have hxO := hs₂.ext.trans hx₂
  refine ⟨l, hlen, hslots.mono (hs₁.ext.trans hsO.ext) hx₂,
    fun Val World M hM n F σ st addr k hF hc hnum => ?_⟩
  refine (condition_computes (he Val World M hM addr n) h₁ hr hcalm.addressOnly hfork
    (hxO.trans hF) hc).bind ?_
  rintro ⟨b, σ'⟩ q st₁ ⟨tr, q', st₂, htr, -, rfl, hcorr, hregs⟩
  refine Computes.after ?_ htr
  cases b with
  | false => exact .pure ⟨hpoint.symm, hcorr.keep hxO (hs₂.keeps.trans hkeeps), hregs⟩
  | true =>
    rw [if_pos rfl, if_pos rfl, ← hfork.point]
    refine (hcompute Val World M hM n F σ' st₂ addr k (hx₂.trans hF) hcorr hnum).extend
      fun σ'' q st' hs => ?_
    exact leave_arrived hs₂.ready.wf (hfn ▸ Extends.refl _) hkeeps hpoint hF
      (hs.behind (hs₁.ext.trans hsO.ext) hregs)

theorem selectionElseStmt_acts {e : Ast .expression} {s s' : Ast .statement}
    {m : Evaluation} {ms ms' : Action} (he : Yields Γ e m) (hs : Acts Γ s ms)
    (hs' : Acts Γ s' ms') :
    Acts Γ (.selectionElseStmt e s s') (fun M addr n k σ => do
      let r ← Semantics.condition M (m M addr n) σ
      if r.1 then ms M addr n k r.2 else ms' M addr n (k + s.decls) r.2) := by
  intro b B B' h hr hcalm hq
  obtain ⟨hqs, hqs'⟩ := Bool.and_eq_true_iff.mp hq
  obtain ⟨B₁, h₁, h⟩ := bind_ok.mp h
  obtain ⟨B₂, h₂, h⟩ := bind_ok.mp h
  obtain ⟨B₃, h₃, h⟩ := bind_ok.mp h
  obtain ⟨t, ht⟩ : ∃ t, t = B₁.newBlock := ⟨_, rfl⟩
  have hs₁ := visit_step rfl h₁ hr
  obtain ⟨hfork, hempty⟩ := openSelectionElse_forks hs₁.ready
  have hsO := hs₁.ready.step (openSelectionElse_grows B₁) (openSelectionElse_keeps B₁).stays
  have hcalmO := openSelectionElse_calm (@Calm.expression _ _ b _ e rfl h₁ hcalm)
  have hs₂ := visitStatement_step (by simp) h₂ hsO.ready
  have hcalm₂ := visit_calm s _ B₂ h₂ rfl hqs hcalmO
  obtain ⟨l, hlen, hslots, hcompute⟩ := hs true _ B₂ h₂ hsO.ready hcalmO hqs
  rw [← ht] at hfork hempty h h₃
  rw [leaveBranch_eq hcalm₂.returnInBranch] at h h₃
  -- the other two blocks are empty behind the first branch
  have hbbO : B₁.openSelectionElse.bb = t := congrArg Point.block hfork.point
  have hlenO : t + 2 < B₁.openSelectionElse.fn.blocks.length := by
    rw [openSelectionElse_length, ht]
    exact Nat.lt_succ_self _
  have hlater := visit_later h₂ hsO.ready.wf (.inr ⟨true, hcalmO, hqs⟩) hbbO hlenO hempty
  obtain ⟨hfalse, hbb₂⟩ := hlater (t + 1) (Nat.lt_succ_self t) (Nat.lt_succ_of_lt (Nat.lt_succ_self _))
  obtain ⟨hout, hbb₂'⟩ := hlater (t + 2) (Nat.lt_add_of_pos_right (by decide)) (Nat.lt_succ_self _)
  obtain ⟨D, hD⟩ : ∃ D, D = ((B₂.createBr (t + 2)).setInsertPoint (t + 1)).setReturnInBranch false :=
    ⟨_, rfl⟩
  rw [← hD] at h₃
  have hfnD : D.fn = (B₂.createBr (t + 2)).fn := by rw [hD]; rfl
  have hlenD : D.fn.blocks.length = B₂.fn.blocks.length := by rw [hfnD, createBr_length]
  have hlen₂ := hs₂.ext.blocks
  have hsD : Step B₂ D := by
    rw [hD]
    refine hs₂.ready.step ((insertAt_grows (createBr_grows B₂ _) ?_).trans
      (setReturnInBranch_grows _ _)) (((createBr_keeps _ _).trans (setInsertPoint_keeps _ _)).trans
        (setReturnInBranch_keeps _ _)).stays
    rw [createBr_length]
    exact Nat.lt_of_lt_of_le (Nat.lt_trans (Nat.lt_succ_self _) hlenO) hlen₂
  have hcalmD : Calm (s.branchAfter true) D := hD ▸ nextBranch_calm hcalm₂ _ _
  have hpointD : here D = ⟨t + 1, 0⟩ := by
    have hbb : D.bb = t + 1 := by rw [hD]; rfl
    rw [here, hbb, hfnD, createBr_untouched hbb₂, hfalse]
    rfl
  have hs₃ := visitStatement_step (by simp) h₃ hsD.ready
  have hcalm₃ := visit_calm s' D B₃ h₃ rfl hqs' hcalmD
  obtain ⟨l', hlen', hslots', hcompute'⟩ := hs' _ D B₃ h₃ hsD.ready hcalmD hqs'
  obtain ⟨hout₃, hbb₃⟩ := visit_untouched (c := t + 2) h₃ hsD.ready.wf (.inr ⟨_, hcalmD, hqs'⟩)
    (by rw [hlenD]; exact Nat.lt_of_lt_of_le hlenO hlen₂)
    (by rw [show D.bb = t + 1 from congrArg Point.block hpointD]
        exact Nat.ne_of_lt (Nat.lt_succ_self _))
  have hreturn : (B₂.createBr (t + 2)).returnInBranch = false := hcalm₂.returnInBranch
  dsimp only at h
  rw [hreturn, Bool.false_and, if_neg Bool.false_ne_true, leaveBranch_eq hcalm₃.returnInBranch] at h
  have hempty₃ : B₃.fn.body (t + 2) = [] := by
    rw [hout₃, hfnD, createBr_untouched hbb₂', hout]
  obtain ⟨hfn, hkeeps, hpoint⟩ := endBranches_point hbb₃ hempty₃ (Except.ok.inj h).symm
  have hx₃ : Extends B₃.fn B'.fn := hfn ▸ (createBr_grows B₃ _ hs₃.ready.wf).2
  have hxD := hs₃.ext.trans hx₃
  have hx₂ : Extends (B₂.createBr (t + 2)).fn B'.fn := hfnD ▸ hxD
  have hkD : Keeps D B' := hs₃.keeps.trans hkeeps
  have hxO := hs₂.ext.trans (hsD.ext.trans hxD)
  refine ⟨l ++ l', ?_, ?_, fun Val World M hM n F σ st addr k hF hc hnum => ?_⟩
  · rw [List.length_append, hlen, hlen']
    rfl
  · exact (hslots.append (hslots'.mono hsD.ext (Extends.refl _)) hs₂.ext
      (hsD.ext.trans hs₃.ext)).mono (hs₁.ext.trans hsO.ext) hx₃
  refine (condition_computes (he Val World M hM addr n) h₁ hr hcalm.addressOnly hfork
    (hxO.trans hF) hc).bind ?_
  rintro ⟨b, σ'⟩ q st₁ ⟨tr, q', st₂, htr, -, rfl, hcorr, hregs⟩
  refine Computes.after ?_ htr
  cases b with
  | false =>
    rw [if_neg Bool.false_ne_true, if_neg Bool.false_ne_true, ← hpointD]
    have hcorrD := hcorr.keep (hs₂.ext.trans hsD.ext) (hs₂.keeps.trans hsD.keeps)
    refine (hcompute' Val World M hM n F σ' st₂ addr _ (hx₃.trans hF) hcorrD (hlen ▸ hnum.right)).extend
      fun σ'' q st' hs => ?_
    exact leave_arrived hs₃.ready.wf (hfn ▸ Extends.refl _) hkeeps hpoint hF
      (hs.behind (hs₁.ext.trans (hsO.ext.trans (hs₂.ext.trans hsD.ext))) hregs)
  | true =>
    rw [if_pos rfl, if_pos rfl, ← hfork.point]
    refine (hcompute Val World M hM n F σ' st₂ addr k ((hsD.ext.trans hxD).trans hF) hcorr
      hnum.left).extend
      fun σ'' q st' hs => ?_
    exact leave_arrived hs₂.ready.wf hx₂ (hsD.keeps.trans hkD) hpoint hF
      (hs.behind (hs₁.ext.trans hsO.ext) hregs)

/-! ## Loops -/

/-- The jump to the condition of a loop. -/
theorem openIteration_enters (hr : Ready B) : here B.openIteration = ⟨B.newBlock, 0⟩ ∧
    (∀ c, B.newBlock ≤ c → B.openIteration.fn.body c = []) ∧
      ∃ E, Step B E ∧ here E = here B ∧ B.openIteration.fn = (E.createBr B.newBlock).fn := by
  obtain ⟨E, hE⟩ : ∃ E, E = ((B.createNumbered "predicate").createNumbered "body").createNumbered
    "out" := ⟨_, rfl⟩
  have hsE : Step B E := hE ▸ hr.step
    (((createNumbered_grows _ _).trans (createNumbered_grows _ _)).trans (createNumbered_grows _ _))
    (((createNumbered_keeps _ _).trans (createNumbered_keeps _ _)).trans
      (createNumbered_keeps _ _)).stays
  have hopen : B.openIteration = (E.createBr B.newBlock).setInsertPoint B.newBlock := by
    subst hE
    rfl
  have hfn : B.openIteration.fn = (E.createBr B.newBlock).fn := by rw [hopen]; rfl
  have hbb : B.openIteration.bb = B.newBlock := by rw [hopen]; rfl
  have hempty : ∀ c, B.newBlock ≤ c → B.openIteration.fn.body c = [] := fun c hc => by
    have hne : E.bb ≠ c := by
      simp only [hE, createNumbered_bb]
      exact Nat.ne_of_lt (Nat.lt_of_lt_of_le hr.wf.bb hc)
    rw [hfn, createBr_untouched hne]
    simp only [hE, createNumbered_body]
    exact hr.wf.fresh c hc
  refine ⟨?_, hempty, E, hsE, by simp only [hE, here_createNumbered], hfn⟩
  rw [here, hbb, hempty _ (Nat.le_refl _)]
  rfl

theorem iterationStmt_acts {e : Ast .expression} {s : Ast .statement}
    {m : Evaluation} {m' : Action} (he : Yields Γ e m) (hs : Acts Γ s m') :
    Acts Γ (.iterationStmt e s) (fun M addr n k σ =>
      Run.loop (Semantics.condition M (m M addr n)) (m' M addr n k) n σ) := by
  intro b B B' h hr hcalm hq
  obtain ⟨B₁, h₁, h⟩ := bind_ok.mp h
  obtain ⟨B₂, h₂, h⟩ := bind_ok.mp h
  obtain ⟨hpointP, hemptyP, E, hsE, hE, hfnP⟩ := openIteration_enters hr
  have hsP := hr.step (openIteration_grows B) (openIteration_keeps B).stays
  have hcalmP := openIteration_calm hcalm
  have hlenP : B.openIteration.fn.blocks.length = B.newBlock + 3 := openIteration_length B
  obtain ⟨p, hp⟩ : ∃ p, p = B.newBlock := ⟨_, rfl⟩
  obtain ⟨P, hP⟩ : ∃ P, P = B.openIteration := ⟨_, rfl⟩
  rw [← hp] at hpointP hemptyP hfnP h₂ h
  rw [← hp] at hlenP
  rw [← hP] at hpointP hemptyP hfnP h₁ hsP hcalmP hlenP
  have hbbP : P.bb = p := congrArg Point.block hpointP
  -- the condition, the body and the block behind the loop
  have hs₁ := visit_step rfl h₁ hsP.ready
  have hcalm₁ := @Calm.expression _ _ b _ e rfl h₁ hcalmP
  have hlater := visit_later h₁ hsP.ready.wf (.inl rfl) hbbP (Nat.le_of_eq hlenP.symm) hemptyP
  obtain ⟨hbody, hbb₁⟩ := hlater (p + 1) (Nat.lt_succ_self p) (Nat.lt_succ_of_lt (Nat.lt_succ_self _))
  obtain ⟨hout, hbb₁'⟩ := hlater (p + 2) (Nat.lt_add_of_pos_right (by decide)) (Nat.lt_succ_self _)
  have hlen₁ : p + 3 ≤ B₁.fn.blocks.length := hlenP ▸ hs₁.ext.blocks
  have hlt : p + 1 < B₁.fn.blocks.length :=
    Nat.lt_of_lt_of_le (Nat.lt_succ_of_lt (Nat.lt_succ_self _)) hlen₁
  obtain ⟨O, hO⟩ : ∃ O, O = B₁.enterBody (p + 1) (p + 2) := ⟨_, rfl⟩
  have hfork := @enterBody_forks _ _ (p + 2) hs₁.ready hbb₁ hbody
  have hsO := hs₁.ready.step (enterBody_grows hlt) (enterBody_keeps B₁ (p + 1) (p + 2)).stays
  have hcalmO := enterBody_calm hcalm₁ (p + 1) (p + 2)
  have houtO : (B₁.enterBody (p + 1) (p + 2)).fn.body (p + 2) = [] :=
    (enterBody_untouched hbb₁').trans hout
  rw [← hO] at hfork hsO hcalmO houtO h₂
  have hbbO : O.bb = p + 1 := congrArg Point.block hfork.point
  have hs₂ := visitStatement_step (by simp) h₂ hsO.ready
  have hcalm₂ := visit_calm s O B₂ h₂ rfl hq hcalmO
  obtain ⟨l, hlen, hslots, hcompute⟩ := hs true O B₂ h₂ hsO.ready hcalmO hq
  obtain ⟨hout₂, hbb₂⟩ := visit_untouched (c := p + 2) h₂ hsO.ready.wf (.inr ⟨true, hcalmO, hq⟩)
    (Nat.lt_of_lt_of_le (Nat.lt_of_lt_of_le (Nat.lt_succ_self _) hlen₁) hsO.ext.blocks)
    (by rw [hbbO]; exact Nat.ne_of_lt (Nat.lt_succ_self _))
  have hreturn : (B₂.setInBranch false).returnInBranch = false := hcalm₂.returnInBranch
  rw [leaveBranch_eq hreturn] at h
  have hB' := (Except.ok.inj h).symm
  have hfn : B'.fn = (B₂.createBr p).fn := by rw [hB']; rfl
  have hbb' : B'.bb = p + 2 := by rw [hB']; rfl
  have hpoint : here B' = ⟨p + 2, 0⟩ := by
    rw [here, hbb', hfn, createBr_untouched hbb₂, hout₂, houtO]
    rfl
  have hkeeps : Keeps B₂ B' := by
    rw [hB']
    exact ((setInBranch_keeps _ _).trans (createBr_keeps _ _)).trans (setInsertPoint_keeps _ _)
  have hx₂ : Extends B₂.fn B'.fn := hfn ▸ (createBr_grows B₂ _ hs₂.ready.wf).2
  have hxO := hs₂.ext.trans hx₂
  have hPO := hs₁.trans hsO
  have hP₂ := hPO.trans hs₂
  refine ⟨l, hlen, hslots.mono (hsP.ext.trans hPO.ext) hx₂,
    fun Val World M hM n F σ st addr k hF hc hnum => ?_⟩
  have hFP : Extends P.fn F := hP₂.ext.trans (hx₂.trans hF)
  obtain ⟨hjump, -⟩ := @createBr_trace _ _ M E F p (hfnP ▸ hFP) st
  rw [hE, ← hpointP] at hjump
  refine Computes.after ?_ hjump
  have hloop := @Computes.loop _ _ M F _ n (here P) (Arrived Γ B B' st)
    (Semantics.condition M (m M addr n)) (m' M addr n k)
    (fun σ st' => Corresponds Γ P σ st' ∧ ∀ i < B.fn.next, st'.regs i = st.regs i) ?_
  · exact hloop n (Nat.le_refl n) σ st ⟨hc.keep hsP.ext hsP.keeps, fun _ _ => rfl⟩
  rintro σ₁ st₁ ⟨hcorr₁, hregs₁⟩
  refine (condition_computes (he Val World M hM addr n) h₁ hsP.ready hcalmP.addressOnly hfork
    (hxO.trans hF) hcorr₁).mono (Nat.le_refl n) ?_
  rintro ⟨b, σ₂⟩ q st₂ ⟨tr, q', st₃, htr, hpos, rfl, hcorr, hregs⟩
  refine ⟨tr, _, st₃, htr, hpos, ?_⟩
  have hregs' : ∀ i < B.fn.next, st₃.regs i = st.regs i := fun i hi =>
    (hregs i (Nat.lt_of_lt_of_le hi hsP.ext.next)).trans (hregs₁ i hi)
  cases b with
  | false => exact ⟨hpoint.symm, hcorr.keep hxO (hs₂.keeps.trans hkeeps), hregs'⟩
  | true =>
    rw [if_pos rfl, if_pos rfl, ← hfork.point]
    refine (hcompute Val World M hM n F σ₂ st₃ addr k (hx₂.trans hF) hcorr hnum).extend
      fun σ₃ q st₄ hbody => ?_
    obtain rfl := hbody.point
    obtain ⟨hback, -⟩ := @createBr_trace _ _ M B₂ F p (hfn ▸ hF) st₄
    refine ⟨_, _, _, hback, hpointP.symm, ?_, fun i hi => ?_⟩
    · exact hbody.corr.back hcorr₁.visible hsP.ready hP₂.ext hP₂.keeps
    · exact (hbody.regs i (Nat.lt_of_lt_of_le hi (hsP.ext.trans hPO.ext).next)).trans (hregs' i hi)

/-! ## All of them -/

/-- **Quiet statements mean what is emitted for them.** -/
theorem visitStatement_correct {k : Kind} (a : Ast k) : k.Performs Γ a := by
  induction a with
  | emptyStmt | noStmts =>
    intro b B B' h hr hcalm _
    cases h
    exact ⟨[], rfl, .nil, fun Val World M hM n F σ st addr k hF hc _ => .pure ⟨rfl, hc, fun _ _ => rfl⟩⟩
  | expressionStmt e => exact expressionStmt_acts (visit_yields e)
  | compoundStmt ds ss ih => exact compoundStmt_acts ih
  | selectionStmt e s _ ih => exact selectionStmt_acts (visit_yields e) ih
  | selectionElseStmt e s t _ ihs iht => exact selectionElseStmt_acts (visit_yields e) ihs iht
  | iterationStmt e s _ ih => exact iterationStmt_acts (visit_yields e) ih
  | returnVoidStmt => exact returnVoidStmt_acts
  | returnStmt e => exact returnStmt_acts (visit_yields e)
  | stmt s rest ihs ihrest => exact stmt_acts ihs ihrest
  | _ => trivial

end Cminusfc.Frontend
