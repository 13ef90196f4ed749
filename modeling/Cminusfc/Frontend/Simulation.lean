import Cminusfc.Frontend.Stores
import Cminusfc.Frontend.Effects
import Cminusfc.Frontend.Reach

/-!
# The emitted code and the meaning

* `Corresponds`: the slots of the variables hold what the store says, and the scope has the globals and
  functions of the text.
* `Evaluated` is what an expression leaves, `Located` what a variable on the left does.
* Of each piece of code that a visit puts together there is one lemma: it computes the operation of
  `Semantics` from operands that have been computed.

The instructions are found in any function `F` that goes on from the builder (`Extends B.fn F`), so
that what comes behind does not matter.

About the instructions of `src/cminusfc/cminusf_builder.cpp` 275-407 and `src/cminusfc/utils.cpp`
20-44.
-/

namespace Cminusfc.Frontend

open LightIR
open LightIR.Func (eval setReg setSlot Computes)
open LightIR.Run (defined)
open Fallible (bind_ok)
open Builder

variable {Val World : Type} {M : Machine Val World} {Γ : Context} {addr : Nat → Val} {n : Nat}
  {B B' B₁ B₂ : Builder} {F : Func} {σ σ' : Store Val World} {st st' : State Val World}

/-! ## Variables -/

/-- The alloca `a` is the slot of a variable. -/
structure SlotOf (B : Builder) (st : State Val World) (x : Typed Val) (a : InstrId) : Prop where
  known : a < B.fn.next
  op : (B.fn.instr a).op = .alloca
  ty : (B.fn.instr a).ty = .pointer x.type
  scalar : x.type.isArray = false → ∀ v, x.value = some v → st.slots a = v
  array : x.type.isArray = true → ∀ v, x.value = some v → st.regs a = v

/-- A scope has the variable, or neither has. -/
inductive Represents (B : Builder) (st : State Val World) :
    Option Value → Option (Typed Val) → Prop
  | absent : Represents B st none none
  | slot {x : Typed Val} {a : InstrId} (h : SlotOf B st x a) :
      Represents B st (some (.instr a)) (some x)

/-- The scopes in a function are the frames, and no two variables share a slot. -/
inductive Matches (B : Builder) (st : State Val World) : Scope → Frames Val → Prop
  | globals (g : List (String × Value)) : Matches B st [g] []
  | scope {m : List (String × Value)} {fr : String → Option (Typed Val)} {rest : Scope}
      {frames : Frames Val} (hm : ∀ id, id ≠ "" → Represents B st (m.lookup id) (fr id))
      (hown : ∀ id id' a, m.lookup id = some (.instr a) → m.lookup id' = some (.instr a) → id = id')
      (hapart : ∀ id a, m.lookup id = some (.instr a) →
        ∀ m' ∈ rest, ∀ id', m'.lookup id' ≠ some (.instr a))
      (hrest : Matches B st rest frames) : Matches B st (m :: rest) (fr :: frames)

/-- What the text says about the program is what the builder has in scope. -/
structure Visible (Γ : Context) (B : Builder) : Prop where
  globals : ∀ id t, Γ.globals id = some t →
    B.scope.getGlobal id = some (.global id) ∧ B.typeOf (.global id) = .pointer t
  callee : ∀ id t, Γ.callee id = some t → B.callee id = .ok (id, t)
  except : B.callee "neg_idx_except" = .ok ("neg_idx_except", ⟨.void, []⟩)
  returnType : B.returnType.type = Γ.returnType
  result : Γ.returnType ≠ .void → ∃ a, B.scope.find "" = some (.instr a) ∧ a < B.fn.next ∧
    (B.fn.instr a).op = .alloca ∧ (B.fn.instr a).ty = .pointer Γ.returnType

/-- The store and the state of the execution. -/
structure Corresponds (Γ : Context) (B : Builder) (σ : Store Val World) (st : State Val World) :
    Prop where
  visible : Visible Γ B
  world : st.world = σ.world
  frames : Matches B st B.scope σ.frames

theorem SlotOf.mono {x : Typed Val} {a : InstrId} (h : SlotOf B st x a) (hx : Extends B.fn B'.fn)
    (hregs : st'.regs a = st.regs a) (hslots : st'.slots a = st.slots a) :
    SlotOf B' st' x a where
  known := Nat.lt_of_lt_of_le h.known hx.next
  op := by rw [hx.instr a h.known]; exact h.op
  ty := by rw [hx.instr a h.known]; exact h.ty
  scalar harr v hv := hslots.trans (h.scalar harr v hv)
  array harr v hv := hregs.trans (h.array harr v hv)

theorem Represents.mono {v : Option Value} {x : Option (Typed Val)} (h : Represents B st v x)
    (hx : Extends B.fn B'.fn) (hregs : ∀ i < B.fn.next, st'.regs i = st.regs i)
    (hslots : ∀ i, v = some (.instr i) → st'.slots i = st.slots i) : Represents B' st' v x := by
  cases h with
  | absent => exact .absent
  | slot hs => exact .slot (hs.mono hx (hregs _ hs.known) (hslots _ rfl))

/-- Instructions are added, the old registers stay as they are, and the slots of the variables do. -/
theorem Matches.mono {s : Scope} {fs : Frames Val} (h : Matches B st s fs)
    (hx : Extends B.fn B'.fn) (hregs : ∀ i < B.fn.next, st'.regs i = st.regs i)
    (hslots : ∀ m ∈ s, ∀ id i, m.lookup id = some (.instr i) → st'.slots i = st.slots i) :
    Matches B' st' s fs := by
  induction h with
  | globals g => exact .globals g
  | @scope m fr rest frames hm hown hapart _ ih =>
    obtain ⟨hhead, hrest⟩ := List.forall_mem_cons.mp hslots
    exact .scope (fun id hid => (hm id hid).mono hx hregs (hhead id)) hown hapart (ih hrest)

/-- A variable is found in its slot, another name among the globals. -/
theorem Matches.find {s : Scope} {fs : Frames Val} (h : Matches B st s fs) {id : String}
    (hid : id ≠ "") :
    (∃ a x, s.find id = some (.instr a) ∧ fs.find id = some x ∧ SlotOf B st x a) ∨
      fs.find id = none ∧ s.find id = s.getGlobal id := by
  induction h with
  | globals g => exact .inr ⟨rfl, by simp [Scope.find, Scope.getGlobal]⟩
  | @scope m fr rest frames hm _ _ hrest ih =>
    have hlast : Scope.getGlobal (m :: rest) id = Scope.getGlobal rest id := by
      cases hrest <;> simp [Scope.getGlobal]
    have hrep := hm id hid
    rw [Scope.find, Frames.find, hlast]
    revert hrep
    generalize m.lookup id = v, fr id = x
    intro hrep
    cases hrep with
    | absent => simpa using ih
    | slot hs => exact .inl ⟨_, _, rfl, rfl, hs⟩

theorem mem_of_find {s : Scope} {id : String} {v : Value} (h : s.find id = some v) :
    ∃ m ∈ s, m.lookup id = some v := by
  induction s with
  | nil => cases h
  | cons m s ih =>
    rw [Scope.find, Option.or_eq_some_iff] at h
    rcases h with h | ⟨-, h⟩
    · exact ⟨m, List.mem_cons_self, h⟩
    · obtain ⟨m', hm', hv⟩ := ih h
      exact ⟨m', List.mem_cons_of_mem _ hm', hv⟩

/-- **A variable is set**: its slot changes and no other. -/
theorem Matches.set {s : Scope} {fs : Frames Val} (h : Matches B st s fs) {id : String}
    (hid : id ≠ "") {a : InstrId} {x : Typed Val} (ha : s.find id = some (.instr a))
    (hx : fs.find id = some x) (hscalar : x.type.isArray = false) (v : Val) :
    Matches B (setSlot st a v) s (fs.set id v) := by
  induction h with
  | globals g => cases hx
  | @scope m fr rest frames hm hown hapart hrest ih =>
    have hrep := hm id hid
    rw [Scope.find] at ha
    rw [Frames.find] at hx
    rw [Frames.set]
    revert hrep ha hx
    generalize hv : m.lookup id = v', hy : fr id = y
    intro ha hx hrep
    cases hrep with
    | @slot x' a' hs =>
      obtain rfl : a' = a := by simpa using ha
      obtain rfl : x' = x := by simpa using hx
      dsimp only
      refine .scope (fun id' hid' => ?_) hown hapart ?_
      · by_cases heq : id' = id
        · subst heq
          rw [Function.update_self, hv]
          refine .slot ⟨hs.known, hs.op, hs.ty, fun _ u hu => ?_, fun harr => ?_⟩
          · rw [Func.setSlot_slots, Function.update_self]
            exact Option.some.inj hu
          · rw [hscalar] at harr
            cases harr
        · rw [Function.update_of_ne heq]
          refine (hm id' hid').mono (Extends.refl _) (fun _ _ => rfl) fun i hi => ?_
          have hne : i ≠ a' := fun h => heq (hown id' id a' (h ▸ hi) hv)
          rw [Func.setSlot_slots, Function.update_of_ne hne]
      · refine hrest.mono (Extends.refl _) (fun _ _ => rfl) fun m' hm' id' i hi => ?_
        have hne : i ≠ a' := fun h => hapart id a' hv m' hm' id' (h ▸ hi)
        rw [Func.setSlot_slots, Function.update_of_ne hne]
    | absent =>
      dsimp only
      have ha' : Scope.find rest id = some (.instr a) := by simpa using ha
      have hx' : Frames.find frames id = some x := by simpa using hx
      refine .scope (fun id' hid' => ?_) hown hapart (ih ha' hx')
      obtain ⟨m', hm', hmem⟩ := mem_of_find ha'
      refine (hm id' hid').mono (Extends.refl _) (fun _ _ => rfl) fun i hi => ?_
      have hne : i ≠ a := fun h => hapart id' a (h ▸ hi) m' hm' id hmem
      rw [Func.setSlot_slots, Function.update_of_ne hne]

/-! ## States -/

/-- What stays as it is in a visit. -/
theorem Visible.keeps (h : Visible Γ B) (hx : Extends B.fn B'.fn) (hk : Keeps B B') :
    Visible Γ B' where
  globals id t ht := by
    obtain ⟨hg, hty⟩ := h.globals id t ht
    refine ⟨hk.scope ▸ hg, ?_⟩
    simp only [typeOf, hk.globals] at hty ⊢
    exact hty
  callee id t ht := by
    have hc := h.callee id t ht
    unfold Builder.callee at hc ⊢
    rw [hk.scope, hk.types]
    exact hc
  except := by
    have hc := h.except
    unfold Builder.callee at hc ⊢
    rw [hk.scope, hk.types]
    exact hc
  returnType := by rw [hk.returnType]; exact h.returnType
  result hvoid := by
    obtain ⟨a, ha, hlt, hop, hty⟩ := h.result hvoid
    rw [hk.scope]
    exact ⟨a, ha, Nat.lt_of_lt_of_le hlt hx.next, by rw [hx.instr a hlt]; exact ⟨hop, hty⟩⟩

/-- Instructions are executed that change no slot. -/
theorem Corresponds.mono (h : Corresponds Γ B σ st) (hx : Extends B.fn B'.fn) (hk : Keeps B B')
    (hregs : ∀ i < B.fn.next, st'.regs i = st.regs i) (hslots : st'.slots = st.slots)
    (hworld : st'.world = σ'.world) (hframes : σ'.frames = σ.frames) : Corresponds Γ B' σ' st' where
  visible := h.visible.keeps hx hk
  world := hworld
  frames := by
    rw [hk.scope, hframes]
    exact h.frames.mono hx hregs fun _ _ _ i _ => congrFun hslots i

/-- A later builder with the same declarations. -/
theorem Corresponds.keep (h : Corresponds Γ B σ st) (hx : Extends B.fn B'.fn) (hk : Keeps B B') :
    Corresponds Γ B' σ st :=
  h.mono hx hk (fun _ _ => rfl) rfl h.world rfl

/-! ## One instruction -/

/-- The execution of the instruction that leads from `B` to `B'` has left the value `r.1` and the
store `r.2`. -/
structure Executed (Γ : Context) (B B' : Builder) (st : State Val World)
    (r : Val × Store Val World) (q : Point) (st' : State Val World) : Prop where
  point : q = here B'
  corr : Corresponds Γ B' r.2 st'
  value : st'.regs B.fn.next = r.1
  regs : ∀ i < B.fn.next, st'.regs i = st.regs i

/-- Where an instruction stands once it is emitted. -/
theorem emit_stands {x : Instr} (hF : Extends (B.emit x).fn F) :
    (F.body B.bb)[(B.fn.body B.bb).length]? = some B.fn.next ∧
      F.instr B.fn.next = { x with parent := B.bb } := by
  have hbody : ((B.emit x).fn.body B.bb)[(B.fn.body B.bb).length]? = some B.fn.next := by
    rw [emit_fn_body, Function.update_self, List.getElem?_concat_length]
  refine ⟨hF.getElem hbody, ?_⟩
  rw [hF.instr _ (by simp), emit_fn_instr, Function.update_self]

theorem here_emit (B : Builder) (x : Instr) :
    here (B.emit x) = ⟨B.bb, (B.fn.body B.bb).length + 1⟩ := by simp [here]

/-- The execution of an instruction. -/
theorem emit_trace {x : Instr} (hF : Extends (B.emit x).fn F) (hx : x.isTerminator = false)
    (hexec : F.execInstr M B.fn.next st = some st') :
    F.Trace M (here B) st [B.fn.next] (here (B.emit x)) st' := by
  obtain ⟨hbody, hinstr⟩ := emit_stands hF
  have hterm : (F.instr B.fn.next).isTerminator = false := by
    rw [hinstr]
    exact hx
  rw [here_emit]
  exact .instr hbody hterm hexec (.refl _ _)

/-- An instruction that ends the run. -/
theorem emit_finishes {x : Instr} (hF : Extends (B.emit x).fn F) (hx : x.isTerminator = false)
    (hexec : F.execInstr M B.fn.next st = none) :
    F.Finishes M (here B) st (.fault st.world) := by
  obtain ⟨hbody, hinstr⟩ := emit_stands hF
  refine ⟨B.fn.next, hbody, .inr ⟨?_, hexec, rfl⟩⟩
  rw [hinstr]
  exact hx

/-- A branch. -/
theorem createBr_trace {t : BlockId} (hF : Extends (B.createBr t).fn F) (st : State Val World) :
    F.Trace M (here B) st [B.fn.next] ⟨t, 0⟩ st ∧ F.jumps [B.fn.next] = 1 := by
  have hstands := @emit_stands
    { B with fn := (B.fn.addPreBasicBlock t B.bb).addSuccBasicBlock B.bb t } F _ hF
  obtain ⟨hbody, hinstr⟩ : (F.body B.bb)[(B.fn.body B.bb).length]? = some B.fn.next ∧
      F.instr B.fn.next = { op := .br, ty := .void, operands := [.block t], parent := B.bb } :=
    hstands
  have hterm : (F.instr B.fn.next).isTerminator = true := by rw [hinstr]; rfl
  refine ⟨.jump hbody hterm ?_ (.refl _ _), by simp [Func.jumps, hterm]⟩
  rw [hinstr]
  rfl

/-- A branch on a condition. -/
theorem createCondBr_trace {v : Value} {t e : BlockId} (hF : Extends (B.createCondBr v t e).fn F)
    (st : State Val World) :
    F.Trace M (here B) st [B.fn.next] ⟨if M.isTrue (eval M st v) then t else e, 0⟩ st ∧
      F.jumps [B.fn.next] = 1 := by
  have hstands := @emit_stands
    { B with
      fn := (((B.fn.addPreBasicBlock t B.bb).addPreBasicBlock e B.bb).addSuccBasicBlock B.bb
        e).addSuccBasicBlock B.bb t } F _ hF
  obtain ⟨hbody, hinstr⟩ : (F.body B.bb)[(B.fn.body B.bb).length]? = some B.fn.next ∧
      F.instr B.fn.next =
        { op := .br, ty := .void, operands := [v, .block t, .block e], parent := B.bb } := hstands
  have hterm : (F.instr B.fn.next).isTerminator = true := by rw [hinstr]; rfl
  refine ⟨.jump hbody hterm ?_ (.refl _ _), by simp [Func.jumps, hterm]⟩
  rw [hinstr]
  rfl

theorem emit_step (hr : Ready B) (x : Instr) : Step B (B.emit x) :=
  hr.step (emit_grows B x) (emit_keeps B x).stays

/-- An instruction that leaves a value in its register. -/
theorem emit_reg {x : Instr} {v : Val} (hr : Ready B) (hc : Corresponds Γ B σ st)
    (hF : Extends (B.emit x).fn F) (hx : x.isTerminator = false)
    (hexec : F.execInstr M B.fn.next st = some (setReg st B.fn.next v)) :
    F.Computes M n (here B) st (.ok (v, σ)) (Executed Γ B (B.emit x) st) := by
  have hs := emit_step hr x
  have hregs : ∀ i < B.fn.next, (setReg st B.fn.next v).regs i = st.regs i := fun i hi => by
    rw [Func.setReg_regs, Function.update_of_ne (Nat.ne_of_lt hi)]
  refine ⟨_, _, _, emit_trace hF hx hexec, rfl, ?_, ?_, hregs⟩
  · exact hc.mono hs.ext hs.keeps hregs rfl hc.world rfl
  · rw [Func.setReg_regs, Function.update_self]

/-- An instruction that reaches beyond the function. -/
theorem emit_beyond {x : Instr} (hr : Ready B) (hc : Corresponds Γ B σ st)
    (hF : Extends (B.emit x).fn F) (hx : x.isTerminator = false)
    (hexec : F.execInstr M B.fn.next st = F.execEffect M B.fn.next st) :
    F.Computes M n (here B) st (Semantics.effect M x.op x.ty (x.operands.map (eval M st)) σ)
      (Executed Γ B (B.emit x) st) := by
  obtain ⟨-, hinstr⟩ := emit_stands hF
  rw [Func.execEffect_eq, hinstr] at hexec
  dsimp only at hexec
  unfold Semantics.effect
  rw [← hc.world]
  cases heff : M.effect x.op x.ty (x.operands.map (eval M st)) st.world with
  | none =>
    rw [heff] at hexec
    exact ⟨[], _, st, .refl _ _, emit_finishes hF hx hexec⟩
  | some r =>
    rw [heff] at hexec
    have hs := emit_step hr x
    have hregs : ∀ i < B.fn.next,
        ({ setReg st B.fn.next r.1 with world := r.2 } : State Val World).regs i = st.regs i :=
      fun i hi => by rw [Func.setReg_regs, Function.update_of_ne (Nat.ne_of_lt hi)]
    refine ⟨_, _, _, emit_trace hF hx hexec, rfl, ?_, ?_, hregs⟩
    · exact hc.mono hs.ext hs.keeps hregs rfl rfl rfl
    · rw [Func.setReg_regs, Function.update_self]

/-! ## Values -/

/-- The value `v` of the IR is the value `x` of the program. -/
structure Holds (M : Machine Val World) (B : Builder) (st : State Val World) (v : Value)
    (x : Typed Val) : Prop where
  usable : B.Usable v
  type : B.typeOf v = x.type
  value : ∀ a, x.value = some a → eval M st v = a

/-- Registers that are there already keep their values. -/
theorem eval_known {v : Value} (hv : B.Known v) (hregs : ∀ i < B.fn.next, st'.regs i = st.regs i) :
    eval M st' v = eval M st v := by
  cases v with
  | instr i => exact hregs i (hv i rfl)
  | _ => rfl

theorem Holds.step {v : Value} {x : Typed Val} (h : Holds M B st v x) (hs : Step B B')
    (hregs : ∀ i < B.fn.next, st'.regs i = st.regs i) : Holds M B' st' v x where
  usable := hs.usable h.usable
  type := (hs.typeOf h.usable.known).trans h.type
  value a ha := (eval_known h.usable.known hregs).trans (h.value a ha)

/-- The execution of what leads from `B` to `B'` has left the value `r.1`, which is `B'.val`, and the
store `r.2`. -/
structure Evaluated (M : Machine Val World) (Γ : Context) (B B' : Builder) (st : State Val World)
    (r : Typed Val × Store Val World) (q : Point) (st' : State Val World) : Prop where
  point : q = here B'
  corr : Corresponds Γ B' r.2 st'
  holds : Holds M B' st' B'.val r.1
  regs : ∀ i < B.fn.next, st'.regs i = st.regs i

/-- Behind another step. -/
theorem Evaluated.behind {r : Typed Val × Store Val World} {q : Point} {st₁ : State Val World}
    (h : Evaluated M Γ B₁ B' st₁ r q st') (hx : Extends B.fn B₁.fn)
    (hregs : ∀ i < B.fn.next, st₁.regs i = st.regs i) : Evaluated M Γ B B' st r q st' :=
  ⟨h.point, h.corr, h.holds, fun i hi =>
    (h.regs i (Nat.lt_of_lt_of_le hi hx.next)).trans (hregs i hi)⟩

/-- A type of the result of an instruction. -/
def IsResult (t : Ty) : Prop := t = .int1 ∨ t.isDeclared = true

theorem create_usable {op : OpID} {ty : Ty} {l : List Value} {c : CmpOp} (hty : IsResult ty) :
    (B.create op ty l c).Usable (B.create op ty l c).val := by
  refine ⟨create_known B op ty l c, ?_⟩
  rw [create_type]
  rcases hty with rfl | hty
  · exact .inl ⟨⟨_, rfl⟩, rfl⟩
  · exact .inr hty

theorem Executed.create {op : OpID} {ty : Ty} {l : List Value} {c : CmpOp} (hty : IsResult ty)
    {r : Val × Store Val World} {q : Point}
    (h : Executed Γ B (B.emit { op := op, ty := ty, operands := l, parent := B.bb, cmpOp := c }) st
      r q st') :
    Evaluated M Γ B (B.create op ty l c) st (⟨ty, some r.1⟩, r.2) q st' where
  point := h.point
  corr := h.corr.keep (Extends.refl _) (setVal_keeps _ _)
  holds := ⟨create_usable hty, create_type B op ty l c,
    fun _ ha => h.value.trans (Option.some.inj ha)⟩
  regs := h.regs

/-- The instruction of an operation. -/
theorem operation_executed {op : OpID} {ty : Ty} {l : List Value} {c : CmpOp} (hr : Ready B)
    (hc : Corresponds Γ B σ st) (hF : Extends (B.create op ty l c).fn F)
    (hop : op.isPure = true ∨ op = .sdiv ∨ op = .call) :
    F.Computes M n (here B) st (Semantics.operation M op c ty (l.map (eval M st)) σ)
      (Executed Γ B (B.emit { op := op, ty := ty, operands := l, parent := B.bb, cmpOp := c })
        st) := by
  have hx : ({ op := op, ty := ty, operands := l, parent := B.bb, cmpOp := c } :
      Instr).isTerminator = false := by
    rcases hop with hop | rfl | rfl
    · cases op <;> simp_all [Instr.isTerminator, OpID.isPure]
    · rfl
    · rfl
  obtain ⟨-, hinstr⟩ := emit_stands hF
  unfold Semantics.operation
  by_cases hpure : op.isPure = true
  · rw [if_pos hpure]
    refine emit_reg hr hc hF hx ?_
    rw [Func.execInstr_pure (by rw [hinstr]; exact hpure), hinstr]
  · rw [if_neg hpure]
    refine emit_beyond hr hc hF hx (Func.execInstr_beyond ?_ st)
    rw [hinstr]
    exact hop.resolve_left hpure

/-- **An operation.** -/
theorem create_operation {op : OpID} {ty : Ty} {l : List Value} {c : CmpOp} (hr : Ready B)
    (hc : Corresponds Γ B σ st) (hF : Extends (B.create op ty l c).fn F) (hty : IsResult ty)
    (hop : op.isPure = true ∨ op = .sdiv ∨ op = .call) :
    F.Computes M n (here B) st
      (do
        let v ← Semantics.operation M op c ty (l.map (eval M st)) σ
        .ok (⟨ty, some v.1⟩, v.2))
      (Evaluated M Γ B (B.create op ty l c) st) :=
  (operation_executed hr hc hF hop).bind fun _ _ _ h => .pure (h.create hty)

/-- An instruction that converts. -/
theorem create_conversion {op : OpID} {ty : Ty} {v : Value} (hr : Ready B)
    (hc : Corresponds Γ B σ st) (hF : Extends (B.create op ty [v] .EQ).fn F) (hty : IsResult ty)
    (hop : op.isPure = true) :
    F.Computes M n (here B) st (.ok (M.pure op .EQ ty [eval M st v]))
      fun a => Evaluated M Γ B (B.create op ty [v] .EQ) st (⟨ty, some a⟩, σ) := by
  have h := @create_operation _ _ M Γ n B F σ st op ty [v] .EQ hr hc hF hty (.inl hop)
  unfold Semantics.operation at h
  rw [if_pos hop] at h
  exact h

/-- **A conversion.** -/
theorem convert_computes {v : Value} {t ty : Ty} {a : Val} (hr : Ready B)
    (hc : Corresponds Γ B σ st) (hF : Extends B'.fn F) (h : B.convert v ty = .ok B')
    (hv : Holds M B st v ⟨t, some a⟩) :
    F.Computes M n (here B) st (Semantics.convert M true t ty a)
      fun a' => Evaluated M Γ B B' st (⟨ty, some a'⟩, σ) := by
  have ht : B.typeOf v = t := hv.type
  have ha : eval M st v = a := hv.value a rfl
  have hsame (hB : B' = B.setVal v) (hty : ty = t) :
      F.Computes M n (here B) st (.ok a) fun a' => Evaluated M Γ B B' st (⟨ty, some a'⟩, σ) := by
    subst hB hty
    exact .pure ⟨rfl, hc.keep (Extends.refl _) (setVal_keeps _ _), ⟨⟨hv.usable.known, hv.usable.type⟩,
      hv.type, hv.value⟩, fun _ _ => rfl⟩
  subst ha
  unfold Semantics.convert
  split
  · refine hsame ?_ rfl
    simpa [Builder.convert, ht, Ty.isInteger, Ty.isFloat, Ty.size] using h.symm
  · refine hsame ?_ rfl
    simpa [Builder.convert, ht, Ty.isInteger, Ty.isFloat, Ty.size] using h.symm
  · have hB : B' = B.create .zext .int32 [v] .EQ := by
      simpa [Builder.convert, ht, Ty.isInteger, Ty.isFloat, Ty.size] using h.symm
    subst hB
    exact create_conversion hr hc hF (.inr rfl) rfl
  · trivial
  · have hB : B' = B.create .sitofp .float [v] .EQ := by
      simpa [Builder.convert, ht, Ty.isInteger, Ty.isFloat, Ty.size] using h.symm
    subst hB
    exact create_conversion hr hc hF (.inr rfl) rfl
  · have hB : B' = B.create .fptosi .int32 [v] .EQ := by
      simpa [Builder.convert, ht, Ty.isInteger, Ty.isFloat, Ty.size] using h.symm
    subst hB
    exact create_conversion hr hc hF (.inr rfl) rfl
  · trivial

/-- A value that is there. -/
theorem Holds.some {v : Value} {x : Typed Val} {a : Val} (h : Holds M B st v x)
    (ha : x.value = Option.some a) : Holds M B st v ⟨x.type, Option.some a⟩ :=
  ⟨h.usable, h.type, fun b hb => h.value b (ha.trans hb)⟩

/-- Two conversions and an operation. -/
theorem operateAt_computes {op : OpID} {t ty : Ty} {c : CmpOp} {lhs rhs : Value} {l r : Typed Val}
    (hr : Ready B) (hc : Corresponds Γ B σ st) (h₁ : B.convert lhs t = .ok B₁)
    (h₂ : B₁.convert rhs t = .ok B₂) (hF : Extends (B₂.create op ty [B₁.val, B₂.val] c).fn F)
    (hlhs : Holds M B st lhs l) (hrhs : Holds M B st rhs r) (hty : IsResult ty)
    (hop : op.isPure = true ∨ op = .sdiv ∨ op = .call) :
    F.Computes M n (here B) st (Semantics.operateAt M true t op c ty l r σ)
      (Evaluated M Γ B (B₂.create op ty [B₁.val, B₂.val] c) st) := by
  have hs₁ := convert_step hr h₁
  have hs₂ := convert_step hs₁.ready h₂
  have hx := (create_grows B₂ op ty [B₁.val, B₂.val] c hs₂.ready.wf).2
  have hF₂ := hx.trans hF
  refine Computes.defined fun a ha => ?_
  refine (convert_computes hr hc (hs₂.ext.trans hF₂) h₁ (hlhs.some ha)).bind ?_
  rintro a' q st₁ hconv
  obtain rfl := hconv.point
  refine Computes.defined fun b hb => ?_
  have hrhs₁ := (hrhs.step hs₁ hconv.regs).some hb
  refine (convert_computes hs₁.ready hconv.corr hF₂ h₂ hrhs₁).bind ?_
  rintro b' q st₂ hconv'
  obtain rfl := hconv'.point
  have hvals : [B₁.val, B₂.val].map (eval M st₂) = [a', b'] := by
    have ha₂ := (hconv.holds.step hs₂ hconv'.regs).value a' rfl
    rw [List.map_cons, List.map_cons, List.map_nil, ha₂, hconv'.holds.value b' rfl]
  have hdone := @create_operation _ _ M Γ n B₂ F σ st₂ op ty [B₁.val, B₂.val] c hs₂.ready
    hconv'.corr hF hty hop
  rw [hvals] at hdone
  refine hdone.mono (Nat.le_refl n) fun r q st' h => ?_
  exact (h.behind hs₂.ext hconv'.regs).behind hs₁.ext hconv.regs

/-! The tables of the builder are those of the meaning. -/

theorem relOp_relation (op : RelOp) : op.cmpOp = op.relation := by cases op <;> rfl

theorem addOp_onIntegers (op : AddOp) : op.intOp = op.onIntegers := by cases op <;> rfl

theorem addOp_onFloats (op : AddOp) : op.floatOp = op.onFloats := by cases op <;> rfl

theorem mulOp_onIntegers (op : MulOp) : op.intOp = op.onIntegers := by cases op <;> rfl

theorem mulOp_onFloats (op : MulOp) : op.floatOp = op.onFloats := by cases op <;> rfl

theorem type_valueType (t : CminusType) : t.type = t.valueType := by cases t <;> rfl

/-- **An operation with two operands.** -/
theorem binary_computes {intOp floatOp : OpID} {intTy floatTy : Ty} {c : CmpOp}
    {lhs rhs : Value} {l r : Typed Val} (hr : Ready B) (hc : Corresponds Γ B σ st)
    (hF : Extends B'.fn F) (h : B.binary intOp floatOp intTy floatTy c lhs rhs = .ok B')
    (hlhs : Holds M B st lhs l) (hrhs : Holds M B st rhs r) (hintTy : IsResult intTy)
    (hfloatTy : IsResult floatTy) (hint : intOp.isPure = true ∨ intOp = .sdiv ∨ intOp = .call)
    (hfloat : floatOp.isPure = true ∨ floatOp = .sdiv ∨ floatOp = .call) :
    F.Computes M n (here B) st
      (Semantics.operate M true intOp floatOp intTy floatTy c l r σ) (Evaluated M Γ B B' st) := by
  obtain ⟨t, op, ty, B₁, B₂, h₁, h₂, rfl, hcase⟩ := binary_ok h
  unfold Semantics.operate
  rw [← hlhs.type, ← hrhs.type]
  rcases hcase with ⟨hnum, rfl, rfl, rfl⟩ | ⟨hnum, rfl, rfl, rfl⟩
  · rw [if_pos hnum]
    exact operateAt_computes hr hc h₁ h₂ hF hlhs hrhs hintTy hint
  · rw [if_neg (by simp [hnum])]
    exact operateAt_computes hr hc h₁ h₂ hF hlhs hrhs hfloatTy hfloat

/-! ## Variables and elements -/

/-- The value `ptr` of the IR is the address of what is on the left of an assignment. -/
inductive Locates (M : Machine Val World) (B : Builder) (st : State Val World)
    (σ : Store Val World) : Value → LValue Val → Prop
  | named {id : String} {a : InstrId} {x : Typed Val} (hid : id ≠ "")
      (hscope : B.scope.find id = some (.instr a)) (hfind : σ.frames.find id = some x) :
      Locates M B st σ (.instr a) (.variable id x.type)
  | memory {ptr : Value} {t : Ty} {a : Val} (hplain : B.Plain ptr)
      (hty : B.typeOf ptr = .pointer t) (hval : eval M st ptr = a)
      (hcell : ∀ i, ptr = .instr i → (B.fn.instr i).op ≠ .alloca) :
      Locates M B st σ ptr (.memory t a)

/-- The values of an array and of its address. -/
structure ArrayAt (M : Machine Val World) (B : Builder) (st : State Val World) (ptr : Value)
    (t : Ty) (a : Val) : Prop where
  plain : B.Plain ptr
  type : B.typeOf ptr = .pointer t
  array : t.isArray = true → eval M st ptr = a
  pointer : t.isArray = false → ∃ i, ptr = .instr i ∧ SlotOf B st ⟨t, some a⟩ i

theorem getGlobal_named (hr : Ready B) {id : String} {v : Value}
    (h : B.scope.getGlobal id = some v) : B.Named v := by
  obtain ⟨m, hm, hv⟩ := Option.bind_eq_some_iff.mp h
  exact hr.declared.scope m (List.mem_of_getLast? hm) (id, v) (lookup_mem hv)

theorem SlotOf.typeOf {x : Typed Val} {a : InstrId} (h : SlotOf B st x a) :
    B.typeOf (.instr a) = .pointer x.type := h.ty

/-- **A name**: the builder has the address of the variable. -/
theorem find_computes {p : Point} {id : String} {ptr : Value} (hr : Ready B)
    (hc : Corresponds Γ B σ st) (hptr : B.scope.find id = some ptr) :
    F.Computes M n p st (Semantics.find M Γ id σ)
      fun x q st' => q = p ∧ st' = st ∧ Locates M B st σ ptr x := by
  unfold Semantics.find
  split_ifs with hid
  · trivial
  · rcases hc.frames.find hid with ⟨a, x, hs, hf, hslot⟩ | ⟨hf, hs⟩
    · rw [hf]
      obtain rfl := Option.some.inj (hs.symm.trans hptr)
      exact .pure ⟨rfl, rfl, .named hid hs hf⟩
    · rw [hf]
      dsimp only
      cases ht : Γ.globals id with
      | none => trivial
      | some t =>
        obtain ⟨hg, hty⟩ := hc.visible.globals id t ht
        obtain rfl := Option.some.inj (hg.symm.trans (hs.symm.trans hptr))
        exact .pure ⟨rfl, rfl, .memory (getGlobal_named hr hg).toPlain hty rfl nofun⟩

/-- The slot of a variable that is located. -/
theorem Corresponds.slot (hc : Corresponds Γ B σ st) {id : String} (hid : id ≠ "") {a : InstrId}
    {x : Typed Val} (hs : B.scope.find id = some (.instr a)) (hx : σ.frames.find id = some x) :
    SlotOf B st x a := by
  rcases hc.frames.find hid with ⟨a', x', hs', hx', hslot⟩ | ⟨hf, -⟩
  · obtain rfl := Value.instr.inj (Option.some.inj (hs'.symm.trans hs))
    obtain rfl := Option.some.inj (hx'.symm.trans hx)
    exact hslot
  · rw [hf] at hx
    cases hx

theorem array_computes {p : Point} {id : String} {ptr : Value} (hr : Ready B)
    (hc : Corresponds Γ B σ st) (hptr : B.scope.find id = some ptr) :
    F.Computes M n p st (Semantics.array M Γ id σ)
      fun a q st' => q = p ∧ st' = st ∧ ArrayAt M B st ptr a.1 a.2 := by
  refine (find_computes hr hc hptr).bind ?_
  rintro x q st' ⟨rfl, rfl, hloc⟩
  cases hloc with
  | @named id a x hid hs hx =>
    have hslot := hc.slot hid hs hx
    have hplain : B.Plain (.instr a) := (hr.declared.find hs).toPlain
    dsimp only
    rw [hx]
    refine Computes.defined fun v hv => .pure ⟨rfl, rfl, hplain, hslot.ty, ?_, ?_⟩
    · exact fun harr => hslot.array harr v hv
    · refine fun harr => ⟨a, rfl, hslot.known, hslot.op, hslot.ty, fun _ u hu => ?_, fun h => ?_⟩
      · exact hslot.scalar harr u (hv.trans hu)
      · rw [harr] at h
        cases h
  | @memory ptr t a hplain hty hval hcell =>
    dsimp only
    split_ifs with harr
    · exact .pure ⟨rfl, rfl, hplain, hty, fun _ => hval, fun h => by rw [harr] at h; cases h⟩
    · trivial

/-- A load or a store that names a slot reaches it. -/
theorem cell_slot {x : Typed Val} {a : InstrId} (h : SlotOf B st x a) (hs : x.type.isArray = false)
    (hF : Extends B.fn F) : F.cell (.instr a) = some a := by
  have hinstr := hF.instr a h.known
  simp [Func.cell, hinstr, h.op, h.ty, Ty.pointerElementType, hs]

theorem cell_none {ptr : Value} (hknown : B.Known ptr)
    (hcell : ∀ i, ptr = .instr i → (B.fn.instr i).op ≠ .alloca) (hF : Extends B.fn F) :
    F.cell ptr = none := by
  cases ptr with
  | instr i =>
    have hinstr := hF.instr i (hknown i rfl)
    simp [Func.cell, hinstr, hcell i rfl]
  | _ => rfl

theorem isResult_of_pointer {v : Value} {t : Ty} (hplain : B.Plain v)
    (hty : B.typeOf v = .pointer t) : IsResult t := by
  have hd := hplain.type
  rw [hty] at hd
  exact .inr hd

/-- The load of a variable. -/
theorem load_slot {x : Typed Val} {a : InstrId} (hr : Ready B) (hc : Corresponds Γ B σ st)
    (hF : Extends (B.create .load x.type [.instr a] .EQ).fn F) (h : SlotOf B st x a)
    (hs : x.type.isArray = false) (hty : IsResult x.type) :
    F.Computes M n (here B) st (.ok (x, σ))
      (Evaluated M Γ B (B.create .load x.type [.instr a] .EQ) st) := by
  have hx := (create_grows B .load x.type [.instr a] .EQ hr.wf).2
  have hcell := cell_slot h hs (hx.trans hF)
  obtain ⟨-, hinstr⟩ := emit_stands hF
  have hexec := Func.execInstr_load (M := M) (by rw [hinstr]) (by rw [hinstr]) hcell st
  obtain ⟨tr, q, st', htr, hdone⟩ := @emit_reg _ _ M Γ n B F σ st _ _ hr hc hF rfl hexec
  refine ⟨tr, q, st', htr, hdone.point, hdone.corr.keep (Extends.refl _) (setVal_keeps _ _), ?_,
    hdone.regs⟩
  exact ⟨create_usable hty, create_type B _ _ _ _, fun v hv => hdone.value.trans (h.scalar hs v hv)⟩

/-- The load of a global variable or an element. -/
theorem load_beyond {ptr : Value} {t : Ty} (hr : Ready B) (hc : Corresponds Γ B σ st)
    (hF : Extends (B.create .load t [ptr] .EQ).fn F) (hplain : B.Plain ptr)
    (hty : B.typeOf ptr = .pointer t)
    (hcell : ∀ i, ptr = .instr i → (B.fn.instr i).op ≠ .alloca) :
    F.Computes M n (here B) st
      (do
        let v ← Semantics.effect M .load t [eval M st ptr] σ
        .ok (⟨t, some v.1⟩, v.2))
      (Evaluated M Γ B (B.create .load t [ptr] .EQ) st) := by
  have hx := (create_grows B .load t [ptr] .EQ hr.wf).2
  have hnone := cell_none hplain.known hcell (hx.trans hF)
  obtain ⟨-, hinstr⟩ := emit_stands hF
  have hexec := Func.execInstr_load_beyond (M := M) (by rw [hinstr]) (by rw [hinstr]) hnone st
  have heffect := @emit_beyond _ _ M Γ n B F σ st _ hr hc hF rfl hexec
  exact heffect.bind fun r q st' h => .pure (h.create (isResult_of_pointer hplain hty))

/-- **The value of a variable.** -/
theorem read_computes {ptr : Value} {x : LValue Val} (hr : Ready B) (hc : Corresponds Γ B σ st)
    (hF : Extends B'.fn F) (h : B.createLoad ptr = .ok B') (hloc : Locates M B st σ ptr x) :
    F.Computes M n (here B) st (Semantics.read M x σ) (Evaluated M Γ B B' st) := by
  obtain ⟨t, ht, rfl⟩ := createLoad_ok h
  cases hloc with
  | @named id a x hid hs hx =>
    have hslot := hc.slot hid hs hx
    have hplain : B.Plain (.instr a) := (hr.declared.find hs).toPlain
    obtain rfl : x.type = t := Ty.pointer.inj (hslot.ty.symm.trans ht)
    unfold Semantics.read
    dsimp only
    split_ifs with harr
    · trivial
    · rw [hx]
      exact load_slot hr hc hF hslot (by simpa using harr) (isResult_of_pointer hplain ht)
  | @memory ptr t' a hplain hty hval hcell =>
    obtain rfl : t' = t := Ty.pointer.inj (hty.symm.trans ht)
    unfold Semantics.read
    dsimp only
    split_ifs
    · trivial
    · rw [← hval]
      exact load_beyond hr hc hF hplain ht hcell

/-- The execution of what leads from `B` to `B'` has left the address `ptr` of `r.1` and the store
`r.2`. -/
structure Located (M : Machine Val World) (Γ : Context) (B B' : Builder) (ptr : Value)
    (st : State Val World) (r : LValue Val × Store Val World) (q : Point) (st' : State Val World) :
    Prop where
  point : q = here B'
  corr : Corresponds Γ B' r.2 st'
  loc : Locates M B' st' r.2 ptr r.1
  regs : ∀ i < B.fn.next, st'.regs i = st.regs i

theorem Located.behind {ptr : Value} {r : LValue Val × Store Val World} {q : Point}
    {st₁ : State Val World} (h : Located M Γ B₁ B' ptr st₁ r q st') (hx : Extends B.fn B₁.fn)
    (hregs : ∀ i < B.fn.next, st₁.regs i = st.regs i) : Located M Γ B B' ptr st r q st' :=
  ⟨h.point, h.corr, h.loc, fun i hi =>
    (h.regs i (Nat.lt_of_lt_of_le hi hx.next)).trans (hregs i hi)⟩

/-- The address of an element. -/
theorem gep_computes {t : Ty} {l : List Value} {vals : List Val} (hr : Ready B)
    (hc : Corresponds Γ B σ st) (hF : Extends (B.create .getelementptr (.pointer t) l .EQ).fn F)
    (hty : t.isDeclared = true) (hvals : l.map (eval M st) = vals) :
    F.Computes M n (here B) st
      (.ok (.memory t (M.pure .getelementptr .EQ (.pointer t) vals), σ))
      (Located M Γ B (B.create .getelementptr (.pointer t) l .EQ)
        (B.create .getelementptr (.pointer t) l .EQ).val st) := by
  obtain ⟨tr, q, st', htr, h⟩ := @create_operation _ _ M Γ n B F σ st .getelementptr (.pointer t) l
    .EQ hr hc hF (.inr hty) (.inl rfl)
  rw [hvals] at h
  refine ⟨tr, q, st', htr, h.point, h.corr, .memory (create_plain B hty) (create_type B _ _ _ _)
    (h.holds.value _ rfl) ?_, h.regs⟩
  rintro i ⟨⟩
  simp

theorem elementType_single {i : Value} {e t : Ty} (h : elementType [i] e = some t) : t = e := by
  unfold elementType at h
  split at h
  · simpa using h.symm
  · split_ifs at h
    exact (Option.some.inj h).symm

theorem elementAddress_computes {id : String} {ptr offset : Value} {i : Val} (hr : Ready B)
    (hc : Corresponds Γ B σ st) (hF : Extends B'.fn F) (hptr : B.scope.find id = some ptr)
    (h : B.elementAddress (some ptr) offset = .ok B')
    (hoff : Holds M B st offset ⟨.int32, some i⟩) :
    F.Computes M n (here B) st
      (do
        let x ← Semantics.elementAt M Γ id i σ
        .ok (x, σ))
      (Located M Γ B B' B'.val st) := by
  have harray : F.Computes M n (here B) st (Semantics.elementAt M Γ id i σ)
      fun x q st' => Located M Γ B B' B'.val st (x, σ) q st' := by
    refine (array_computes hr hc hptr).bind ?_
    rintro ⟨t, a⟩ q st' ⟨rfl, rfl, harr⟩
    have hty : B.typeOf ptr = .pointer t := harr.type
    have hdeclared : t.isDeclared = true := by
      have hd := harr.plain.type
      rw [hty] at hd
      exact hd
    unfold elementAddress at h
    simp only [hty, Ty.pointerElementType] at h
    dsimp only
    split
    · rename_i e m
      obtain ⟨e', t', he', ht', rfl⟩ := createGep_ok h
      rw [hty, Ty.pointerElementType, Option.some.injEq] at he'
      subst he'
      cases ht'
      have hvals : (ptr :: [.int32 0, offset]).map (eval M st') = [a, M.const (.int32 0), i] := by
        rw [List.map_cons, List.map_cons, List.map_cons, List.map_nil, harr.array rfl,
          hoff.value i rfl]
        rfl
      exact gep_computes (n := n) hr hc hF hdeclared hvals
    · rename_i e
      obtain ⟨B₁, h₁, h₂⟩ := bind_ok.mp h
      obtain ⟨j, rfl, hslot⟩ := harr.pointer rfl
      obtain ⟨t', ht', rfl⟩ := createLoad_ok h₁
      obtain rfl : Ty.pointer e = t' := Ty.pointer.inj (hty.symm.trans ht')
      obtain ⟨e', t'', he', ht'', rfl⟩ := createGep_ok h₂
      rw [create_type, Ty.pointerElementType, Option.some.injEq] at he'
      subst he'
      obtain rfl := elementType_single ht''
      have hs := hr.step (create_grows B .load (.pointer t'') [.instr j] .EQ)
        (create_keeps B _ _ _ _).stays
      have hx := (create_grows (B.create .load (.pointer t'') [.instr j] .EQ) .getelementptr
        (.pointer t'') [(B.create .load (.pointer t'') [.instr j] .EQ).val, offset] .EQ
        hs.ready.wf).2
      have hload := @load_slot _ _ M Γ n B F σ st' ⟨.pointer t'', some a⟩ j hr hc (hx.trans hF) hslot
        rfl (.inr hdeclared)
      obtain ⟨tr, q, st₁, htr, hdone⟩ := hload
      obtain rfl := hdone.point
      have hvals : [(B.create .load (.pointer t'') [.instr j] .EQ).val, offset].map (eval M st₁) =
          [a, i] := by
        rw [List.map_cons, List.map_cons, List.map_nil, hdone.holds.value a rfl,
          (hoff.step hs hdone.regs).value i rfl]
      have hgep := @gep_computes _ _ M Γ n _ F σ st₁ t''
        [(B.create .load (.pointer t'') [.instr j] .EQ).val, offset] _ hs.ready hdone.corr hF
        hdeclared hvals
      exact Computes.after (hgep.mono (Nat.le_refl n) fun r q st' h => h.behind hs.ext hdone.regs) htr
    · trivial
  exact harray.bind fun x q st' h => .pure h

/-- The execution of what leads from `B` to `B'` has left the store `σ`. -/
structure Arrived (Γ : Context) (B B' : Builder) (st : State Val World) (σ : Store Val World)
    (q : Point) (st' : State Val World) : Prop where
  point : q = here B'
  corr : Corresponds Γ B' σ st'
  regs : ∀ i < B.fn.next, st'.regs i = st.regs i

theorem callExcept_eq (hv : Visible Γ B) (t : BlockId) :
    B.callExcept t = .ok (((B.create .call .void [.function "neg_idx_except"] .EQ).createBr
      t).setInsertPoint t) := by
  have h := hv.except
  unfold Builder.callee at h
  unfold callExcept
  cases hg : B.scope.getGlobal "neg_idx_except" with
  | none => simp [hg] at h
  | some v =>
    rw [hg] at h
    cases v with
    | function m =>
      cases ht : B.types.lookup m with
      | none => simp [ht] at h
      | some t' =>
        simp only [ht, Except.ok.injEq, Prod.mk.injEq] at h
        obtain ⟨rfl, rfl⟩ := h
        dsimp only
        rw [ht]
    | _ => simp at h

/-- Whether a subscript is not negative. -/
abbrev Nonnegative (M : Machine Val World) (i : Val) : Prop :=
  M.isTrue (M.pure .cmp .GE .int1 [i, M.const (.int32 0)]) = true

/-- The comparison of a subscript and the branch behind it. -/
theorem compareIndex_trace {offset : Value} (hr : Ready B)
    (hF : Extends (B.compareIndex offset).fn F) (st : State Val World) :
    ∃ tr v, F.Trace M (here B) st tr
      ⟨if M.isTrue (M.pure .cmp .GE .int1 [eval M st offset, M.const (.int32 0)]) then B.newBlock
        else B.newBlock + 1, 0⟩ (setReg st B.fn.next v) := by
  obtain ⟨C, hC⟩ : ∃ C, C = B.create .cmp .int1 [offset, .int32 0] .GE := ⟨_, rfl⟩
  obtain ⟨E, hE⟩ : ∃ E, E = (C.createNumbered "true").createNumbered "false" := ⟨_, rfl⟩
  have hD : B.compareIndex offset =
      (E.createCondBr E.val B.newBlock (B.newBlock + 1)).setInsertPoint (B.newBlock + 1) := by
    subst hE hC
    simp [compareIndex]
  have hsC : Step B C := hC ▸ hr.step (create_grows B _ _ _ _) (create_keeps B _ _ _ _).stays
  have hsE : Step C E := hE ▸ hsC.ready.step
    ((createNumbered_grows C _).trans (createNumbered_grows _ _))
    ((createNumbered_keeps C _).trans (createNumbered_keeps _ _)).stays
  have hbr := createCondBr_grows E E.val B.newBlock (B.newBlock + 1)
  rw [hD] at hF
  have hFC : Extends C.fn F := hsE.ext.trans ((hbr hsE.ready.wf).2.trans hF)
  obtain ⟨-, hinstr⟩ := emit_stands (hC ▸ hFC)
  have hexec := Func.execInstr_pure (M := M) (f := F) (by rw [hinstr]; rfl) st
  rw [hinstr] at hexec
  have htr := emit_trace (hC ▸ hFC) rfl hexec
  have hval : E.val = .instr B.fn.next := by
    subst hE hC
    rfl
  have hhere : here E = here C := by subst hE; rfl
  obtain ⟨hjump, -⟩ := @createCondBr_trace _ _ M E F E.val B.newBlock (B.newBlock + 1) hF
    (setReg st B.fn.next (M.pure .cmp .GE .int1 ([offset, .int32 0].map (eval M st))))
  rw [hval, Func.eval, Func.setReg_regs, Function.update_self, hhere, hC] at hjump
  exact ⟨_, _, htr.trans hjump⟩

/-- The builder behind the check of a subscript. -/
theorem checkIndex_shape {offset : Value} (hr : Ready B) (hv : Visible Γ B)
    (h : B.checkIndex offset = .ok B') :
    ∃ D C, D = B.compareIndex offset ∧ C = D.create .call .void [.function "neg_idx_except"] .EQ ∧
      B' = (C.createBr B.newBlock).setInsertPoint B.newBlock ∧ Step B D ∧ Step D C ∧
      here D = ⟨B.newBlock + 1, 0⟩ ∧ here B' = ⟨B.newBlock, 0⟩ := by
  obtain ⟨D, hD⟩ : ∃ D, D = B.compareIndex offset := ⟨_, rfl⟩
  have hsD : Step B D :=
    hD ▸ hr.step (compareIndex_grows B offset) (compareIndex_keeps B offset).stays
  obtain ⟨C, hC⟩ : ∃ C, C = D.create .call .void [.function "neg_idx_except"] .EQ := ⟨_, rfl⟩
  have hB : B' = (C.createBr B.newBlock).setInsertPoint B.newBlock := by
    unfold checkIndex at h
    rw [← hD, callExcept_eq (hv.keeps hsD.ext hsD.keeps), ← hC] at h
    exact (Except.ok.inj h).symm
  have hsC : Step D C := hC ▸ hsD.ready.step (create_grows D _ _ _ _) (create_keeps D _ _ _ _).stays
  -- both blocks are empty when the check begins
  have hne : B.bb ≠ B.newBlock := Nat.ne_of_lt hr.wf.bb
  have hne' : B.bb ≠ B.newBlock + 1 := Nat.ne_of_lt (Nat.lt_succ_of_lt hr.wf.bb)
  refine ⟨D, C, hD, hC, hB, hsD, hsC, ?_, ?_⟩
  · have hfresh : B.fn.body (B.newBlock + 1) = [] := hr.wf.fresh _ (Nat.le_succ _)
    simp only [newBlock_eq] at hfresh hne' ⊢
    simp [hD, here, compareIndex_body, compareIndex_bb, hne'.symm, hfresh]
  · have hfresh : B.fn.body B.newBlock = [] := hr.wf.fresh _ (Nat.le_refl _)
    simp only [newBlock_eq] at hfresh hne ⊢
    simp [hB, hC, hD, here, compareIndex_body, compareIndex_bb, hne.symm, hfresh]

/-- **The execution of the check of a subscript**: it goes on, or the program is over. -/
theorem checkIndex_trace (hM : Lawful M) {offset : Value} (hr : Ready B) (hv : Visible Γ B)
    (hF : Extends B'.fn F) (h : B.checkIndex offset = .ok B') (st : State Val World) :
    (Nonnegative M (eval M st offset) ∧
        ∃ tr v, F.Trace M (here B) st tr (here B') (setReg st B.fn.next v)) ∨
      (¬ Nonnegative M (eval M st offset) ∧
        ∃ tr q st', F.Trace M (here B) st tr q st' ∧ F.Finishes M q st' (.fault st.world)) := by
  obtain ⟨D, C, hD, hC, hB, -, hsC, hhereD, hhere⟩ := checkIndex_shape hr hv h
  have hbr := (createBr_grows C B.newBlock hsC.ready.wf).2
  have hFC : Extends C.fn F := by
    rw [hB] at hF
    exact hbr.trans hF
  have hFD : Extends D.fn F := hsC.ext.trans hFC
  obtain ⟨tr, v, htr⟩ := @compareIndex_trace _ _ M B F offset hr (hD ▸ hFD) st
  by_cases hpos : Nonnegative M (eval M st offset)
  · rw [if_pos hpos, ← hhere] at htr
    exact .inl ⟨hpos, tr, v, htr⟩
  · rw [if_neg hpos, ← hhereD] at htr
    obtain ⟨-, hinstr⟩ := emit_stands (hC ▸ hFC)
    have hexec : F.execInstr M D.fn.next (setReg st B.fn.next v) = none := by
      rw [Func.execInstr_beyond (.inr (by rw [hinstr])), Func.execEffect_eq, hinstr]
      exact Option.map_eq_none_iff.mpr (hM.exits _)
    exact .inr ⟨hpos, tr, _, _, htr, emit_finishes (hC ▸ hFC) rfl hexec⟩

/-- **The check of a subscript.** -/
theorem checkIndex_computes (hM : Lawful M) {offset : Value} {i : Val} (hr : Ready B)
    (hc : Corresponds Γ B σ st) (hF : Extends B'.fn F) (h : B.checkIndex offset = .ok B')
    (hoff : Holds M B st offset ⟨.int32, some i⟩) :
    F.Computes M n (here B) st (Semantics.checkIndex M i σ) (Arrived Γ B B' st) := by
  have hs := checkIndex_step hr h
  have hval : eval M st offset = i := hoff.value i rfl
  unfold Semantics.checkIndex
  rcases checkIndex_trace hM hr hc.visible hF h st with ⟨hpos, tr, v, htr⟩ | ⟨hneg, hover⟩
  · rw [hval] at hpos
    rw [if_pos hpos]
    have hregs : ∀ j < B.fn.next, (setReg st B.fn.next v).regs j = st.regs j := fun j hj => by
      rw [Func.setReg_regs, Function.update_of_ne (Nat.ne_of_lt hj)]
    exact ⟨tr, _, _, htr, rfl, hc.mono hs.ext hs.keeps hregs rfl hc.world rfl, hregs⟩
  · rw [hval] at hneg
    rw [if_neg hneg, ← hc.world]
    exact hover

/-! ## Assignments and arguments -/

theorem Locates.type {ptr : Value} {x : LValue Val} (hc : Corresponds Γ B σ st)
    (h : Locates M B st σ ptr x) : B.typeOf ptr = .pointer x.type := by
  cases h with
  | named hid hs hx => exact (hc.slot hid hs hx).ty
  | memory hplain hty hval hcell => exact hty

/-- The store of a variable. -/
theorem store_slot {id : String} {a : InstrId} {x : Typed Val} {v : Value} (hr : Ready B)
    (hc : Corresponds Γ B σ st) (hF : Extends (B.createStore v (.instr a)).fn F) (hid : id ≠ "")
    (hs : B.scope.find id = some (.instr a)) (hx : σ.frames.find id = some x)
    (harr : x.type.isArray = false) :
    F.Computes M n (here B) st (.ok { σ with frames := σ.frames.set id (eval M st v) })
      (Arrived Γ B (B.createStore v (.instr a)) st) := by
  have hstep := emit_step hr { op := .store, ty := .void, operands := [v, .instr a], parent := B.bb }
  have hcell := cell_slot (hc.slot hid hs hx) harr (hstep.ext.trans hF)
  obtain ⟨-, hinstr⟩ := emit_stands hF
  have hexec := Func.execInstr_store (M := M) (by rw [hinstr]) (by rw [hinstr]) hcell st
  have hset := hc.frames.set hid hs hx harr (eval M st v)
  refine ⟨_, _, _, emit_trace hF rfl hexec, rfl, ⟨hc.visible.keeps hstep.ext hstep.keeps, hc.world, ?_⟩,
    fun _ _ => rfl⟩
  exact hset.mono hstep.ext (fun _ _ => rfl) fun _ _ _ _ _ => rfl

/-- The store of a global variable or an element. -/
theorem store_beyond {v ptr : Value} (hr : Ready B) (hc : Corresponds Γ B σ st)
    (hF : Extends (B.createStore v ptr).fn F) (hknown : B.Known ptr)
    (hcell : ∀ i, ptr = .instr i → (B.fn.instr i).op ≠ .alloca) :
    F.Computes M n (here B) st
      (do
        let u ← Semantics.effect M .store .void [eval M st v, eval M st ptr] σ
        .ok u.2)
      (Arrived Γ B (B.createStore v ptr) st) := by
  have hstep := emit_step hr { op := .store, ty := .void, operands := [v, ptr], parent := B.bb }
  have hnone := cell_none hknown hcell (hstep.ext.trans hF)
  obtain ⟨-, hinstr⟩ := emit_stands hF
  have hexec := Func.execInstr_store_beyond (M := M) (by rw [hinstr]) (by rw [hinstr]) hnone st
  have heffect := @emit_beyond _ _ M Γ n B F σ st _ hr hc hF rfl hexec
  exact heffect.bind fun r q st' h => .pure ⟨h.point, h.corr, h.regs⟩

theorem assignTo_ok {rhs : Value} (h : B.assignTo rhs = .ok B') :
    ∃ t B₁, B.typeOf B.val = .pointer t ∧ B.convert rhs t = .ok B₁ ∧
      B' = ((B₁.createStore B₁.val B.val).setVal rhs).setAddressOnly false := by
  unfold assignTo at h
  split at h
  · cases h
  · rename_i t ht
    obtain ⟨B₁, h₁, h⟩ := bind_ok.mp h
    refine ⟨t, B₁, ?_, h₁, (Except.ok.inj h).symm⟩
    revert ht
    cases B.typeOf B.val <;> simp [Ty.pointerElementType]

theorem convert_array {t t' : Ty} (h : t'.isArray = true) (a : Val) :
    @Semantics.convert Val World M true t t' a = .error .undefined := by
  cases t' with
  | array e m => cases t <;> rfl
  | _ => cases h

/-- **An assignment.** -/
theorem write_computes {x : LValue Val} {rhs : Value} {r : Typed Val} (hr : Ready B)
    (hc : Corresponds Γ B σ st) (hF : Extends B'.fn F) (h : B.assignTo rhs = .ok B')
    (hloc : Locates M B st σ B.val x) (hrhs : Holds M B st rhs r) :
    F.Computes M n (here B) st (Semantics.write M true x r σ) (Evaluated M Γ B B' st) := by
  obtain ⟨t, B₁, ht, h₁, hB⟩ := assignTo_ok h
  obtain rfl : x.type = t := Ty.pointer.inj ((hloc.type hc).symm.trans ht)
  have hs₁ := convert_step hr h₁
  have hsB : Step B₁ B' := by
    rw [hB]
    exact hs₁.ready.step ((createStore_grows B₁ _ _).same rfl rfl)
      (((createStore_keeps B₁ _ _).trans (setVal_keeps _ _)).trans (setAddressOnly_keeps _ _)).stays
  have hFstore : Extends (B₁.createStore B₁.val B.val).fn F := by
    rw [hB] at hF
    exact hF
  refine Computes.defined fun a ha => ?_
  by_cases harr : x.type.isArray = true
  · rw [convert_array harr]
    trivial
  have hconverted := convert_computes (n := n) hr hc (hsB.ext.trans hF) h₁ (hrhs.some ha)
  rcases hrun : Semantics.convert M true r.type x.type a with e | v
  · obtain rfl := Semantics.convert_undefined hrun
    trivial
  rw [hrun] at hconverted
  obtain ⟨tr, q, st₁, htr, hconv⟩ := hconverted
  obtain rfl := hconv.point
  refine Computes.after ?_ htr
  have hval : eval M st₁ B₁.val = v := hconv.holds.value v rfl
  -- what holds once the value is stored
  have hdone : ∀ (σ' : Store Val World) (q : Point) (st' : State Val World),
      Arrived Γ B₁ (B₁.createStore B₁.val B.val) st₁ σ' q st' →
      F.Computes M n q st' (.ok (if true ∧ r.type ≠ x.type then ⟨r.type, none⟩ else ⟨x.type, some v⟩, σ'))
        (Evaluated M Γ B B' st) := by
    intro σ' q st' harrived
    have hregs : ∀ i < B.fn.next, st'.regs i = st.regs i := fun i hi =>
      (harrived.regs i (Nat.lt_of_lt_of_le hi hs₁.ext.next)).trans (hconv.regs i hi)
    have hrhs' := hrhs.step (hs₁.trans hsB) hregs
    have hpoint : q = here B' := by rw [harrived.point, hB]; rfl
    refine .pure ⟨hpoint, ?_, ?_, hregs⟩
    · rw [hB]
      exact harrived.corr.keep (Extends.refl _) ((setVal_keeps _ _).trans (setAddressOnly_keeps _ _))
    · have hrhsB : B'.val = rhs := by rw [hB]; rfl
      rw [hrhsB]
      by_cases hsame : r.type = x.type
      · rw [if_neg fun hne => hne.2 hsame]
        rw [hsame] at hrun
        refine ⟨hrhs'.usable, hrhs'.type.trans hsame, fun b hb => ?_⟩
        rw [← Option.some.inj hb, Semantics.convert_same hrun]
        exact hrhs'.value a ha
      · rw [if_pos ⟨rfl, hsame⟩]
        exact ⟨hrhs'.usable, hrhs'.type, nofun⟩
  have hfind : B₁.scope = B.scope := hs₁.keeps.scope
  generalize hptr : B.val = ptr at hloc hFstore hdone
  cases hloc with
  | @named id slot y hid hs hx =>
    have hstored := store_slot (M := M) (n := n) hs₁.ready hconv.corr hFstore hid (hfind ▸ hs) hx
      (Bool.not_eq_true _ ▸ harr)
    rw [hval] at hstored
    exact hstored.bind hdone
  | @memory ptr t address hplain hty haddr hcell =>
    have hknown : B₁.Known ptr := hplain.known.mono hs₁.ext
    have hcell' : ∀ i, ptr = .instr i → (B₁.fn.instr i).op ≠ .alloca := fun i hi => by
      rw [hs₁.ext.instr i (hplain.known i hi)]
      exact hcell i hi
    have hstored := store_beyond (M := M) (n := n) hs₁.ready hconv.corr hFstore hknown hcell'
    rw [hval, eval_known hplain.known hconv.regs, haddr] at hstored
    exact hstored.bind hdone

/-- **What is passed for an array.** -/
theorem passArray_computes {id : String} {ptr : Value} {t : Ty} (hr : Ready B)
    (hc : Corresponds Γ B σ st) (hF : Extends B'.fn F) (hptr : B.scope.find id = some ptr)
    (h : B.convert ptr t = .ok B') (ht : t.isPointer = true) :
    F.Computes M n (here B) st (Semantics.passArray M Γ id σ)
      fun v q st' => ∃ ty, Evaluated M Γ B B' st (⟨ty, some v⟩, σ) q st' := by
  refine (array_computes hr hc hptr).bind ?_
  rintro ⟨e, a⟩ q st' ⟨rfl, rfl, harr⟩
  have hty : B.typeOf ptr = .pointer e := harr.type
  have hdeclared : e.isDeclared = true := by
    have hd := harr.plain.type
    rw [hty] at hd
    exact hd
  obtain ⟨t', rfl⟩ : ∃ t', t = .pointer t' := by
    revert ht
    cases t <;> simp [Ty.isPointer]
  dsimp only
  split
  · rename_i e m
    simp only [Builder.convert, hty, Ty.isInteger, Ty.isFloat, Ty.pointerElementType, Ty.isArray,
      Ty.isPointer, Bool.false_and, Bool.or_false, Bool.and_self, Bool.false_eq_true, if_false,
      if_true] at h
    obtain ⟨e', t', he', ht', rfl⟩ := createGep_ok h
    rw [hty, Ty.pointerElementType, Option.some.injEq] at he'
    subst he'
    cases ht'
    have hvals : (ptr :: [.int32 0, .int32 0]).map (eval M st') =
        [a, M.const (.int32 0), M.const (.int32 0)] := by
      rw [List.map_cons, List.map_cons, List.map_cons, List.map_nil, harr.array rfl]
      rfl
    have hgep := @create_operation _ _ M Γ n B F σ st' .getelementptr (.pointer e)
      (ptr :: [.int32 0, .int32 0]) .EQ hr hc hF (.inr hdeclared) (.inl rfl)
    rw [hvals] at hgep
    obtain ⟨tr, q, st₁, htr, hdone⟩ := hgep
    exact ⟨tr, q, st₁, htr, _, hdone⟩
  · rename_i e
    simp only [Builder.convert, hty, Ty.isInteger, Ty.isFloat, Ty.pointerElementType, Ty.isArray,
      Ty.isPointer, Bool.false_and, Bool.or_false, Bool.and_self, Bool.false_eq_true, if_false,
      if_true] at h
    obtain ⟨j, rfl, hslot⟩ := harr.pointer rfl
    obtain ⟨t', ht', rfl⟩ := createLoad_ok h
    obtain rfl : Ty.pointer e = t' := Ty.pointer.inj (hty.symm.trans ht')
    obtain ⟨tr, q, st₁, htr, hdone⟩ := @load_slot _ _ M Γ n B F σ st' ⟨.pointer e, some a⟩ j hr hc hF
      hslot rfl (.inr hdeclared)
    exact ⟨tr, q, st₁, htr, _, hdone⟩
  · trivial

end Cminusfc.Frontend
