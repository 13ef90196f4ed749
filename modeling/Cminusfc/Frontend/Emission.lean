import Cminusfc.Frontend.Builder
import Cminusfc.LightIR.Edit
import Cminusfc.Lib.Fallible

/-!
# What the builder adds to a function

The builder only ever appends: a block gets instructions at its end, a function gets blocks at its
end. `Extends f g` says that `g` is `f` with more of both, `Wf` what the numbering of blocks and
instructions keeps true, `Grows` that a step keeps both.

Result:
* `visit_grows`: every visit only appends.

About `src/cminusfc/cminusf_builder.cpp` 11-407.
-/

namespace Cminusfc.Frontend

open LightIR
open Fallible (bind_ok)

/-- `g` is `f` with more blocks and with more instructions at the end of its blocks. -/
structure Extends (f g : Func) : Prop where
  next : f.next ≤ g.next
  instr : ∀ i, i < f.next → g.instr i = f.instr i
  body : ∀ b, ∃ l, g.body b = f.body b ++ l ∧ ∀ i ∈ l, f.next ≤ i
  entry : g.entry = f.entry
  rest : f.rest <+: g.rest
  args : g.args = f.args

theorem Extends.refl (f : Func) : Extends f f :=
  ⟨Nat.le_refl _, fun _ _ => rfl, fun b => ⟨[], by simp⟩, rfl, List.prefix_rfl, rfl⟩

theorem Extends.trans {f g h : Func} (hfg : Extends f g) (hgh : Extends g h) : Extends f h := by
  refine ⟨Nat.le_trans hfg.next hgh.next, fun i hi => ?_, fun b => ?_, hgh.entry.trans hfg.entry,
    hfg.rest.trans hgh.rest, hgh.args.trans hfg.args⟩
  · rw [hgh.instr i (Nat.lt_of_lt_of_le hi hfg.next), hfg.instr i hi]
  · obtain ⟨l, hl, hlow⟩ := hfg.body b
    obtain ⟨l', hl', hlow'⟩ := hgh.body b
    refine ⟨l ++ l', by rw [hl', hl, List.append_assoc], fun i hi => ?_⟩
    rcases List.mem_append.mp hi with hi | hi
    · exact hlow i hi
    · exact Nat.le_trans hfg.next (hlow' i hi)

theorem Extends.blocks {f g : Func} (h : Extends f g) : f.blocks.length ≤ g.blocks.length := by
  simp only [Cfg.blocks, List.length_cons]
  exact Nat.succ_le_succ h.rest.length_le

/-- An instruction that is there stays where it is. -/
theorem Extends.getElem {f g : Func} (h : Extends f g) {b : BlockId} {k : Nat} {i : InstrId}
    (hi : (f.body b)[k]? = some i) : (g.body b)[k]? = some i := by
  obtain ⟨l, hl, -⟩ := h.body b
  rw [hl, List.getElem?_append_left (List.getElem?_eq_some_iff.mp hi).1, hi]

/-- Blocks are numbered in the order of their creation, instructions are older than `next`, and
the insert block is a block of the function. -/
structure Wf (B : Builder) : Prop where
  blocks : B.fn.blocks = List.range B.fn.blocks.length
  bb : B.bb < B.fn.blocks.length
  body : ∀ b, ∀ i ∈ B.fn.body b, i < B.fn.next
  fresh : ∀ b, B.fn.blocks.length ≤ b → B.fn.body b = []

/-- A step of the builder that only appends. -/
def Grows (B B' : Builder) : Prop := Wf B → Wf B' ∧ Extends B.fn B'.fn

theorem Grows.trans {B₁ B₂ B₃ : Builder} (h : Grows B₁ B₂) (h' : Grows B₂ B₃) : Grows B₁ B₃ := by
  intro hw
  obtain ⟨hw₂, he⟩ := h hw
  obtain ⟨hw₃, he'⟩ := h' hw₂
  exact ⟨hw₃, he.trans he'⟩

/-- Only the function and the insert block matter. -/
theorem Grows.of_same {B B' : Builder} (hfn : B'.fn = B.fn) (hbb : B'.bb = B.bb) : Grows B B' := by
  intro hw
  refine ⟨⟨?_, ?_, ?_, ?_⟩, hfn ▸ Extends.refl _⟩
  · rw [hfn]
    exact hw.blocks
  · rw [hfn, hbb]
    exact hw.bb
  · rw [hfn]
    exact hw.body
  · rw [hfn]
    exact hw.fresh

theorem Grows.refl (B : Builder) : Grows B B := Grows.of_same rfl rfl

/-- A later state in place of the last one. -/
theorem Grows.same {B₁ B₂ B₃ : Builder} (h : Grows B₁ B₂) (hfn : B₃.fn = B₂.fn)
    (hbb : B₃.bb = B₂.bb) : Grows B₁ B₃ := h.trans (Grows.of_same hfn hbb)

/-- A step that appends to the insert block only. -/
structure Straight (B B' : Builder) : Prop where
  grows : Grows B B'
  toCfg : B'.fn.toCfg = B.fn.toCfg
  bb : B'.bb = B.bb

theorem Straight.of_same {B B' : Builder} (hfn : B'.fn = B.fn) (hbb : B'.bb = B.bb) :
    Straight B B' := ⟨Grows.of_same hfn hbb, congrArg Func.toCfg hfn, hbb⟩

theorem Straight.refl (B : Builder) : Straight B B := .of_same rfl rfl

theorem Straight.trans {B₁ B₂ B₃ : Builder} (h : Straight B₁ B₂) (h' : Straight B₂ B₃) :
    Straight B₁ B₃ :=
  ⟨h.grows.trans h'.grows, h'.toCfg.trans h.toCfg, h'.bb.trans h.bb⟩

theorem Straight.same {B₁ B₂ B₃ : Builder} (h : Straight B₁ B₂) (hfn : B₃.fn = B₂.fn)
    (hbb : B₃.bb = B₂.bb) : Straight B₁ B₃ := h.trans (.of_same hfn hbb)

/-! ## The operations of `IRBuilder` -/

namespace Builder

variable (B : Builder)

@[simp] theorem emit_fn_toCfg (x : Instr) : (B.emit x).fn.toCfg = B.fn.toCfg := by
  simp [emit]

@[simp] theorem emit_fn_body (x : Instr) :
    (B.emit x).fn.body = Function.update B.fn.body B.bb (B.fn.body B.bb ++ [B.fn.next]) := by
  simp [emit]

@[simp] theorem emit_fn_instr (x : Instr) :
    (B.emit x).fn.instr = Function.update B.fn.instr B.fn.next { x with parent := B.bb } := by
  simp [emit]

@[simp] theorem emit_fn_next (x : Instr) : (B.emit x).fn.next = B.fn.next + 1 := by
  simp [emit]

theorem foldl_addUse_args (f : Func) (l : List (Value × Nat)) (i : InstrId) :
    (l.foldl (fun g v => g.addUse v.1 (i, v.2)) f).args = f.args := by
  induction l generalizing f with
  | nil => rfl
  | cons v l ih => rw [List.foldl_cons, ih]; rfl

@[simp] theorem emit_fn_args (x : Instr) : (B.emit x).fn.args = B.fn.args :=
  foldl_addUse_args _ _ _

@[simp] theorem emit_bb (x : Instr) : (B.emit x).bb = B.bb := rfl

@[simp] theorem emit_val (x : Instr) : (B.emit x).val = B.val := rfl

@[simp] theorem setVal_fn (v : Value) : (B.setVal v).fn = B.fn := rfl

@[simp] theorem setVal_bb (v : Value) : (B.setVal v).bb = B.bb := rfl

@[simp] theorem setVal_val (v : Value) : (B.setVal v).val = v := rfl

@[simp] theorem setAddressOnly_fn (b : Bool) : (B.setAddressOnly b).fn = B.fn := rfl

@[simp] theorem setAddressOnly_bb (b : Bool) : (B.setAddressOnly b).bb = B.bb := rfl

@[simp] theorem setInBranch_fn (b : Bool) : (B.setInBranch b).fn = B.fn := rfl

@[simp] theorem setInBranch_bb (b : Bool) : (B.setInBranch b).bb = B.bb := rfl

@[simp] theorem setReturnInBranch_fn (b : Bool) : (B.setReturnInBranch b).fn = B.fn := rfl

@[simp] theorem setReturnInBranch_bb (b : Bool) : (B.setReturnInBranch b).bb = B.bb := rfl

@[simp] theorem setFrame_fn (c : CallFrame) : (B.setFrame c).fn = B.fn := rfl

@[simp] theorem setFrame_bb (c : CallFrame) : (B.setFrame c).bb = B.bb := rfl

@[simp] theorem setInsertPoint_fn (b : BlockId) : (B.setInsertPoint b).fn = B.fn := rfl

@[simp] theorem setInsertPoint_bb (b : BlockId) : (B.setInsertPoint b).bb = b := rfl

@[simp] theorem createNumbered_bb (kind : String) : (B.createNumbered kind).bb = B.bb := rfl

@[simp] theorem newBlock_eq : B.newBlock = B.fn.blocks.length := rfl

theorem createBlock_length (f : Func) (name : String) :
    (f.createBlock name).blocks.length = f.blocks.length + 1 := by
  simp [Func.createBlock, Cfg.blocks]

@[simp] theorem createNumbered_length (kind : String) :
    (B.createNumbered kind).fn.blocks.length = B.fn.blocks.length + 1 :=
  createBlock_length _ _

@[simp] theorem createNumbered_fn_body (kind : String) :
    (B.createNumbered kind).fn.body = B.fn.body := rfl

@[simp] theorem createNumbered_fn_instr (kind : String) :
    (B.createNumbered kind).fn.instr = B.fn.instr := rfl

@[simp] theorem createNumbered_fn_next (kind : String) :
    (B.createNumbered kind).fn.next = B.fn.next := rfl

@[simp] theorem createNumbered_val (kind : String) :
    (B.createNumbered kind).val = B.val := rfl

@[simp] theorem create_fn_body (op : OpID) (ty : Ty) (l : List Value) (c : CmpOp) :
    (B.create op ty l c).fn.body =
      Function.update B.fn.body B.bb (B.fn.body B.bb ++ [B.fn.next]) := emit_fn_body _ _

@[simp] theorem create_fn_instr (op : OpID) (ty : Ty) (l : List Value) (c : CmpOp) :
    (B.create op ty l c).fn.instr =
      Function.update B.fn.instr B.fn.next
        { op := op, ty := ty, operands := l, parent := B.bb, cmpOp := c } := emit_fn_instr _ _

@[simp] theorem create_fn_next (op : OpID) (ty : Ty) (l : List Value) (c : CmpOp) :
    (B.create op ty l c).fn.next = B.fn.next + 1 := emit_fn_next _ _

@[simp] theorem create_bb (op : OpID) (ty : Ty) (l : List Value) (c : CmpOp) :
    (B.create op ty l c).bb = B.bb := rfl

@[simp] theorem create_val (op : OpID) (ty : Ty) (l : List Value) (c : CmpOp) :
    (B.create op ty l c).val = .instr B.fn.next := rfl

@[simp] theorem createBr_fn_body (t : BlockId) :
    (B.createBr t).fn.body =
      Function.update B.fn.body B.bb (B.fn.body B.bb ++ [B.fn.next]) := emit_fn_body _ _

@[simp] theorem createBr_fn_instr (t : BlockId) :
    (B.createBr t).fn.instr =
      Function.update B.fn.instr B.fn.next
        { op := .br, ty := .void, operands := [.block t], parent := B.bb } := emit_fn_instr _ _

@[simp] theorem createBr_fn_next (t : BlockId) :
    (B.createBr t).fn.next = B.fn.next + 1 := emit_fn_next _ _

@[simp] theorem createCondBr_fn_body (v : Value) (t e : BlockId) :
    (B.createCondBr v t e).fn.body =
      Function.update B.fn.body B.bb (B.fn.body B.bb ++ [B.fn.next]) := emit_fn_body _ _

@[simp] theorem createCondBr_fn_instr (v : Value) (t e : BlockId) :
    (B.createCondBr v t e).fn.instr =
      Function.update B.fn.instr B.fn.next
        { op := .br, ty := .void, operands := [v, .block t, .block e], parent := B.bb } :=
  emit_fn_instr _ _

@[simp] theorem createCondBr_fn_next (v : Value) (t e : BlockId) :
    (B.createCondBr v t e).fn.next = B.fn.next + 1 := emit_fn_next _ _

theorem emit_grows (x : Instr) : Grows B (B.emit x) := by
  intro hw
  have hblocks : (B.emit x).fn.blocks = B.fn.blocks := congrArg Cfg.blocks (B.emit_fn_toCfg x)
  refine ⟨⟨by rw [hblocks]; exact hw.blocks, by rw [hblocks]; exact hw.bb, fun b i hi => ?_,
    fun b hb => ?_⟩, ?_⟩
  · rw [emit_fn_body] at hi
    rw [emit_fn_next]
    by_cases hbb : b = B.bb
    · subst hbb
      rw [Function.update_self, List.mem_append, List.mem_singleton] at hi
      rcases hi with hi | rfl
      · exact Nat.lt_succ_of_lt (hw.body _ i hi)
      · exact Nat.lt_succ_self _
    · rw [Function.update_of_ne hbb] at hi
      exact Nat.lt_succ_of_lt (hw.body _ i hi)
  · rw [hblocks] at hb
    have hne : b ≠ B.bb := Nat.ne_of_gt (Nat.lt_of_lt_of_le hw.bb hb)
    rw [emit_fn_body, Function.update_of_ne hne]
    exact hw.fresh b hb
  · refine ⟨by simp, fun i hi => ?_, fun b => ?_, congrArg Cfg.entry (B.emit_fn_toCfg x), ?_,
      B.emit_fn_args x⟩
    · rw [emit_fn_instr, Function.update_of_ne (Nat.ne_of_lt hi)]
    · by_cases hbb : b = B.bb
      · subst hbb
        exact ⟨[B.fn.next], by simp, by simp⟩
      · exact ⟨[], by simp [Function.update_of_ne hbb], by simp⟩
    · have hrest : (B.emit x).fn.rest = B.fn.rest := congrArg Cfg.rest (B.emit_fn_toCfg x)
      exact hrest ▸ List.prefix_rfl

theorem createBlock_grows (name : String) : Grows B (B.createBlock name) := by
  intro hw
  have hlen := createBlock_length B.fn name
  refine ⟨⟨?_, ?_, hw.body, fun b hb => ?_⟩, ⟨Nat.le_refl _, fun _ _ => rfl, fun b => ⟨[], ?_, ?_⟩,
    rfl, ?_, rfl⟩⟩
  · have hblocks : (B.createBlock name).fn.blocks = B.fn.blocks ++ [B.fn.blocks.length] := rfl
    rw [show (B.createBlock name).fn.blocks.length = B.fn.blocks.length + 1 from hlen, hblocks,
      List.range_succ, ← hw.blocks]
  · exact Nat.lt_of_lt_of_le hw.bb (by rw [show (B.createBlock name).fn.blocks.length = _ from hlen]; omega)
  · rw [show (B.createBlock name).fn.blocks.length = B.fn.blocks.length + 1 from hlen] at hb
    exact hw.fresh b (by omega)
  · simp [createBlock, Func.createBlock]
  · simp
  · exact List.prefix_append _ _

theorem createNumbered_grows (kind : String) : Grows B (B.createNumbered kind) :=
  (B.createBlock_grows _).same rfl rfl

theorem setAddressOnly_grows (b : Bool) : Grows B (B.setAddressOnly b) := Grows.of_same rfl rfl

theorem setInBranch_grows (b : Bool) : Grows B (B.setInBranch b) := Grows.of_same rfl rfl

theorem setReturnInBranch_grows (b : Bool) : Grows B (B.setReturnInBranch b) :=
  Grows.of_same rfl rfl

theorem setFrame_grows (c : CallFrame) : Grows B (B.setFrame c) := Grows.of_same rfl rfl

/-- The insert block is changed to a block of the function. -/
theorem setInsertPoint_grows {b : BlockId} (hb : b < B.fn.blocks.length) :
    Grows B (B.setInsertPoint b) :=
  fun hw => ⟨⟨hw.blocks, hb, hw.body, hw.fresh⟩, Extends.refl _⟩

/-- Edges take no part. -/
theorem edges_grows {f : Func} (hentry : f.entry = B.fn.entry) (hrest : f.rest = B.fn.rest)
    (hbody : f.body = B.fn.body) (hinstr : f.instr = B.fn.instr) (hnext : f.next = B.fn.next)
    (hargs : f.args = B.fn.args) : Grows B { B with fn := f } := by
  intro hw
  have hblocks : f.blocks = B.fn.blocks := by simp only [Cfg.blocks, hentry, hrest]
  refine ⟨⟨?_, ?_, ?_, ?_⟩, ⟨Nat.le_of_eq hnext.symm, fun i _ => by rw [hinstr],
    fun b => ⟨[], by simp [hbody]⟩, hentry, hrest ▸ List.prefix_rfl, hargs⟩⟩
  · show f.blocks = List.range f.blocks.length
    rw [hblocks]
    exact hw.blocks
  · show B.bb < f.blocks.length
    rw [hblocks]
    exact hw.bb
  · intro b i hi
    show i < f.next
    rw [hnext]
    exact hw.body b i (hbody ▸ hi)
  · intro b hb
    show f.body b = []
    rw [hbody]
    exact hw.fresh b (hblocks ▸ hb)

theorem createBr_grows (t : BlockId) : Grows B (B.createBr t) := by
  have hedges : Grows B
      { B with fn := (B.fn.addPreBasicBlock t B.bb).addSuccBasicBlock B.bb t } :=
    B.edges_grows rfl rfl rfl rfl rfl rfl
  exact hedges.trans (emit_grows _ _)

theorem createCondBr_grows (c : Value) (t e : BlockId) : Grows B (B.createCondBr c t e) := by
  have hedges : Grows B
      { B with
        fn := (((B.fn.addPreBasicBlock t B.bb).addPreBasicBlock e B.bb).addSuccBasicBlock B.bb
          e).addSuccBasicBlock B.bb t } :=
    B.edges_grows rfl rfl rfl rfl rfl rfl
  exact hedges.trans (emit_grows _ _)

theorem emit_straight (x : Instr) : Straight B (B.emit x) :=
  ⟨B.emit_grows x, B.emit_fn_toCfg x, rfl⟩

theorem create_straight (op : OpID) (ty : Ty) (operands : List Value) (cmpOp : CmpOp) :
    Straight B (B.create op ty operands cmpOp) := (B.emit_straight _).same rfl rfl

theorem create_grows (op : OpID) (ty : Ty) (operands : List Value) (cmpOp : CmpOp) :
    Grows B (B.create op ty operands cmpOp) := (B.create_straight op ty operands cmpOp).grows

theorem createStore_straight (v ptr : Value) : Straight B (B.createStore v ptr) :=
  B.emit_straight _

theorem createStore_grows (v ptr : Value) : Grows B (B.createStore v ptr) := B.emit_grows _

theorem createRet_straight (v : Option Value) : Straight B (B.createRet v) := B.emit_straight _

theorem createRet_grows (v : Option Value) : Grows B (B.createRet v) := B.emit_grows _

variable {B} {B' : Builder}

theorem createLoad_ok {ptr : Value} (h : B.createLoad ptr = .ok B') :
    ∃ t, B.typeOf ptr = .pointer t ∧ B' = B.create .load t [ptr] .EQ := by
  unfold createLoad at h
  cases ht : B.typeOf ptr with
  | pointer t =>
    simp only [ht] at h
    exact ⟨t, rfl, (Except.ok.inj h).symm⟩
  | _ => simp [ht] at h

theorem createGep_ok {ptr : Value} {idxs : List Value} (h : B.createGep ptr idxs = .ok B') :
    ∃ e t, (B.typeOf ptr).pointerElementType = some e ∧ elementType idxs e = some t ∧
      B' = B.create .getelementptr (.pointer t) (ptr :: idxs) .EQ := by
  unfold createGep at h
  cases ht : (B.typeOf ptr).pointerElementType.bind (elementType idxs) with
  | none => simp [ht] at h
  | some t =>
    obtain ⟨e, he, het⟩ := Option.bind_eq_some_iff.mp ht
    simp only [ht] at h
    exact ⟨e, t, he, het, (Except.ok.inj h).symm⟩

/-- **What a conversion is**: nothing, or one instruction. -/
theorem convert_ok {n : Value} {ty : Ty} (h : B.convert n ty = .ok B') :
    B' = B.setVal n ∧ ((B.typeOf n).isInteger ∧ ty.isInteger ∨ (B.typeOf n).isFloat ∧ ty.isFloat) ∧
        ¬ (B.typeOf n).size < ty.size ∨
      (∃ op, B' = B.create op ty [n] .EQ ∧
        (op = .zext ∧ ((B.typeOf n).isInteger ∧ ty.isInteger ∨ (B.typeOf n).isFloat ∧ ty.isFloat) ∧
            (B.typeOf n).size < ty.size ∨
          op = .sitofp ∧ (B.typeOf n).isInteger ∧ ty.isFloat ∨
          op = .fptosi ∧ (B.typeOf n).isFloat ∧ ty.isInteger)) ∨
      (∃ e, (B.typeOf n).pointerElementType = some e ∧ ty.isPointer ∧
        (B.createGep n [.int32 0, .int32 0] = .ok B' ∨ B.createLoad n = .ok B')) := by
  unfold convert at h
  dsimp only at h
  split_ifs at h with hsame hsize hint hfloat
  · refine .inr (.inl ⟨.zext, (Except.ok.inj h).symm, .inl ⟨rfl, ?_, hsize⟩⟩)
    simpa using hsame
  · refine .inl ⟨(Except.ok.inj h).symm, ?_, hsize⟩
    simpa using hsame
  · refine .inr (.inl ⟨.sitofp, (Except.ok.inj h).symm, .inr (.inl ⟨rfl, ?_⟩)⟩)
    simpa using hint
  · refine .inr (.inl ⟨.fptosi, (Except.ok.inj h).symm, .inr (.inr ⟨rfl, ?_⟩)⟩)
    simpa using hfloat
  · cases he : (B.typeOf n).pointerElementType with
    | none => simp [he] at h
    | some e =>
      simp only [he] at h
      split_ifs at h with harray hptr
      · exact .inr (.inr ⟨e, rfl, (Bool.and_eq_true _ _ ▸ harray).2, .inl h⟩)
      · exact .inr (.inr ⟨e, rfl, (Bool.and_eq_true _ _ ▸ hptr).2, .inr h⟩)

@[simp] theorem emit_length (B : Builder) (x : Instr) :
    (B.emit x).fn.blocks.length = B.fn.blocks.length := by
  rw [show (B.emit x).fn.blocks = B.fn.blocks from congrArg Cfg.blocks (B.emit_fn_toCfg x)]

@[simp] theorem create_length (B : Builder) (op : OpID) (ty : Ty) (l : List Value) (c : CmpOp) :
    (B.create op ty l c).fn.blocks.length = B.fn.blocks.length := B.emit_length _

@[simp] theorem createBr_length (B : Builder) (t : BlockId) :
    (B.createBr t).fn.blocks.length = B.fn.blocks.length := emit_length _ _

@[simp] theorem createCondBr_length (B : Builder) (c : Value) (t e : BlockId) :
    (B.createCondBr c t e).fn.blocks.length = B.fn.blocks.length := emit_length _ _

/-- The insert block moves to a block that is there by then. -/
theorem insertAt_grows {b : BlockId} (h : Grows B B') (hb : b < B'.fn.blocks.length) :
    Grows B (B'.setInsertPoint b) := h.trans (setInsertPoint_grows _ hb)

/-! ## The parts of the visits -/

theorem createLoad_straight {ptr : Value} (h : B.createLoad ptr = .ok B') : Straight B B' := by
  obtain ⟨t, -, rfl⟩ := createLoad_ok h
  exact create_straight _ _ _ _ _

theorem createLoad_grows {ptr : Value} (h : B.createLoad ptr = .ok B') : Grows B B' :=
  (createLoad_straight h).grows

theorem createGep_straight {ptr : Value} {idxs : List Value} (h : B.createGep ptr idxs = .ok B') :
    Straight B B' := by
  obtain ⟨e, t, -, -, rfl⟩ := createGep_ok h
  exact create_straight _ _ _ _ _

theorem convert_straight {n : Value} {ty : Ty} (h : B.convert n ty = .ok B') : Straight B B' := by
  rcases convert_ok h with ⟨rfl, -⟩ | ⟨op, rfl, -⟩ | ⟨e, -, -, h | h⟩
  · exact Straight.of_same rfl rfl
  · exact create_straight _ _ _ _ _
  · exact createGep_straight h
  · exact createLoad_straight h

theorem convert_grows {n : Value} {ty : Ty} (h : B.convert n ty = .ok B') : Grows B B' :=
  (convert_straight h).grows

theorem binary_straight {intOp floatOp : OpID} {intTy floatTy : Ty} {c : CmpOp} {lhs rhs : Value}
    (h : B.binary intOp floatOp intTy floatTy c lhs rhs = .ok B') : Straight B B' := by
  unfold binary at h
  split_ifs at h
  all_goals
    obtain ⟨B₁, h₁, h⟩ := bind_ok.mp h
    obtain ⟨B₂, h₂, h⟩ := bind_ok.mp h
    cases h
    exact ((convert_straight h₁).trans (convert_straight h₂)).trans (create_straight _ _ _ _ _)

theorem binary_grows {intOp floatOp : OpID} {intTy floatTy : Ty} {c : CmpOp} {lhs rhs : Value}
    (h : B.binary intOp floatOp intTy floatTy c lhs rhs = .ok B') : Grows B B' :=
  (binary_straight h).grows

theorem truth_straight (B : Builder) : Straight B B.truth := by
  unfold truth
  dsimp only
  split_ifs
  · exact create_straight _ _ _ _ _
  · exact create_straight _ _ _ _ _
  · exact Straight.refl B

theorem truth_grows (B : Builder) : Grows B B.truth := (truth_straight B).grows

@[simp] theorem compareIndex_length (B : Builder) (offset : Value) :
    (B.compareIndex offset).fn.blocks.length = B.fn.blocks.length + 2 := by
  simp [compareIndex]

theorem compareIndex_grows (B : Builder) (offset : Value) : Grows B (B.compareIndex offset) := by
  unfold compareIndex
  refine insertAt_grows ((((create_grows _ _ _ _ _).trans (createNumbered_grows _ _)).trans
    (createNumbered_grows _ _)).trans (createCondBr_grows _ _ _ _)) ?_
  simp

theorem callExcept_ok {t : BlockId} (h : B.callExcept t = .ok B') :
    ∃ n ret, B' = ((B.create .call ret [.function n] .EQ).createBr t).setInsertPoint t := by
  unfold callExcept at h
  split at h
  · split at h
    · exact ⟨_, _, (Except.ok.inj h).symm⟩
    · cases h
  · cases h

theorem checkIndex_grows {offset : Value} (h : B.checkIndex offset = .ok B') : Grows B B' := by
  obtain ⟨n, ret, rfl⟩ := callExcept_ok h
  refine insertAt_grows (((compareIndex_grows B offset).trans (create_grows _ _ _ _ _)).trans
    (createBr_grows _ _)) ?_
  simp

theorem elementAddress_straight {ptr : Option Value} {offset : Value}
    (h : B.elementAddress ptr offset = .ok B') : Straight B B' := by
  unfold elementAddress at h
  split at h
  · cases h
  · split at h
    · exact createGep_straight h
    · obtain ⟨B₁, h₁, h₂⟩ := bind_ok.mp h
      exact (createLoad_straight h₁).trans (createGep_straight h₂)
    · cases h
      exact Straight.of_same rfl rfl
    · cases h

theorem elementAddress_grows {ptr : Option Value} {offset : Value}
    (h : B.elementAddress ptr offset = .ok B') : Grows B B' := (elementAddress_straight h).grows

theorem finishVar_straight {ptr : Value} (h : B.finishVar ptr = .ok B') : Straight B B' := by
  unfold finishVar at h
  split_ifs at h
  · cases h
    exact Straight.of_same rfl rfl
  · exact createLoad_straight h

theorem finishVar_grows {ptr : Value} (h : B.finishVar ptr = .ok B') : Grows B B' :=
  (finishVar_straight h).grows

theorem subscript_grows {ptr : Option Value} (h : B.subscript ptr = .ok B') : Grows B B' := by
  obtain ⟨B₁, h₁, h⟩ := bind_ok.mp h
  obtain ⟨B₂, h₂, h⟩ := bind_ok.mp h
  obtain ⟨B₃, h₃, h₄⟩ := bind_ok.mp h
  exact (((convert_grows h₁).trans (checkIndex_grows h₂)).trans (elementAddress_grows h₃)).trans
    (finishVar_grows h₄)

theorem assignTo_straight {rhs : Value} (h : B.assignTo rhs = .ok B') : Straight B B' := by
  unfold assignTo at h
  split at h
  · cases h
  · obtain ⟨B₁, h₁, h⟩ := bind_ok.mp h
    cases h
    have hstored : Straight B ((B₁.createStore B₁.val B.val).setVal rhs) :=
      ((convert_straight h₁).trans (createStore_straight _ _ _)).same rfl rfl
    exact hstored.same rfl rfl

theorem assignTo_grows {rhs : Value} (h : B.assignTo rhs = .ok B') : Grows B B' :=
  (assignTo_straight h).grows

theorem createCall_straight {n : String} {t : FunctionType} {args : List Value}
    (h : B.createCall n t args = .ok B') : Straight B B' := by
  unfold createCall at h
  split_ifs at h
  cases h
  exact create_straight _ _ _ _ _

theorem createCall_grows {n : String} {t : FunctionType} {args : List Value}
    (h : B.createCall n t args = .ok B') : Grows B B' := (createCall_straight h).grows

theorem pushArg_straight {t : Ty} (h : B.pushArg t = .ok B') : Straight B B' := by
  obtain ⟨B₁, h₁, h⟩ := bind_ok.mp h
  cases h
  have hflag : Straight B (B.setAddressOnly false) := .of_same rfl rfl
  exact (hflag.trans (convert_straight h₁)).same rfl rfl

theorem pushArg_grows {t : Ty} (h : B.pushArg t = .ok B') : Grows B B' := (pushArg_straight h).grows

theorem visitVarDeclaration_straight {d : VarDeclaration} (h : B.visitVarDeclaration d = .ok B') :
    Straight B B' := by
  obtain ⟨t, -, h⟩ := bind_ok.mp h
  dsimp only at h
  split at h
  · cases h
    split_ifs
    · exact Straight.of_same rfl rfl
    · exact (create_straight _ _ _ _ _).same rfl rfl
  · cases h

theorem visitVarDeclaration_grows {d : VarDeclaration} (h : B.visitVarDeclaration d = .ok B') :
    Grows B B' := (visitVarDeclaration_straight h).grows

theorem foldlM_grows {α : Type} {step : Builder → α → Except Fault Builder}
    (hstep : ∀ B B' a, step B a = .ok B' → Grows B B') (l : List α) :
    ∀ B B', l.foldlM step B = .ok B' → Grows B B' := by
  induction l with
  | nil =>
    intro B B' h
    cases h
    exact Grows.refl B
  | cons a l ih =>
    intro B B' h
    rw [List.foldlM_cons] at h
    obtain ⟨B₁, h₁, h₂⟩ := bind_ok.mp h
    exact (hstep B B₁ a h₁).trans (ih B₁ B' h₂)

/-- Blocks without a terminator are closed. -/
theorem closeBlocks_grows (returnBB : BlockId) (l : List BlockId) :
    ∀ B : Builder, (∀ b ∈ l, b < B.fn.blocks.length) →
      Grows B (l.foldl (fun B bb => B.closeBlock returnBB bb) B) := by
  induction l with
  | nil => exact fun B _ => Grows.refl B
  | cons b l ih =>
    intro B hl
    rw [List.foldl_cons]
    have hlen : (B.closeBlock returnBB b).fn.blocks.length = B.fn.blocks.length := by
      unfold closeBlock
      split_ifs
      · rfl
      · exact createBr_length _ _
    have hclose : Grows B (B.closeBlock returnBB b) := by
      unfold closeBlock
      split_ifs
      · exact Grows.refl B
      · exact (setInsertPoint_grows _ (hl b List.mem_cons_self)).trans (createBr_grows _ _)
    refine hclose.trans (ih _ fun b' hb' => ?_)
    rw [hlen]
    exact hl b' (List.mem_cons_of_mem _ hb')

theorem enterReturnBlock_grows (B : Builder) : Grows B B.enterReturnBlock := by
  intro hw
  unfold enterReturnBlock
  split_ifs
  · have hopen : Grows B ((B.createBlock "return").createBr B.newBlock) :=
      (createBlock_grows _ _).trans (createBr_grows _ _)
    have hlen : ((B.createBlock "return").createBr B.newBlock).fn.blocks.length =
        B.fn.blocks.length + 1 := (createBr_length _ _).trans (createBlock_length _ _)
    have hall : ∀ b ∈ ((B.createBlock "return").createBr B.newBlock).fn.blocks,
        b < ((B.createBlock "return").createBr B.newBlock).fn.blocks.length := by
      intro b hb
      rw [(hopen hw).1.blocks] at hb
      exact List.mem_range.mp hb
    have hclosed := hopen.trans (closeBlocks_grows B.newBlock _ _ hall)
    refine insertAt_grows hclosed ?_ hw
    refine Nat.lt_of_lt_of_le ?_ ((closeBlocks_grows B.newBlock _ _ hall) (hopen hw).1).2.blocks
    rw [hlen]
    exact Nat.lt_succ_self _
  · exact Grows.refl B hw

theorem finishReturn_grows {value : Bool} (h : B.finishReturn value = .ok B') : Grows B B' := by
  unfold finishReturn at h
  split_ifs at h
  · split at h
    · cases h
    · rename_i ptr hptr
      obtain ⟨B₁, h₁, h⟩ := bind_ok.mp h
      have hstore : Grows B ((B₁.createStore B₁.val ptr).setVal B.val) :=
        ((convert_grows h₁).trans (createStore_grows _ _ _)).same rfl rfl
      dsimp only at h
      split_ifs at h
      · cases h
        exact hstore.same rfl rfl
      · obtain ⟨B₂, h₂, h⟩ := bind_ok.mp h
        cases h
        exact ((hstore.trans (enterReturnBlock_grows _)).trans
          (createLoad_grows h₂)).trans (createRet_grows _ _)
  · cases h
    exact Grows.of_same rfl rfl
  · cases h
    exact (enterReturnBlock_grows _).trans (createRet_grows _ _)

theorem leaveBranch_grows (B : Builder) (out : BlockId) : Grows B (B.leaveBranch out) := by
  unfold leaveBranch
  split_ifs
  · exact Grows.refl B
  · exact createBr_grows _ _

theorem returnStored_straight (h : B.returnStored = .ok B') : Straight B B' := by
  unfold returnStored at h
  split_ifs at h
  · split at h
    · cases h
    · obtain ⟨B₁, h₁, h⟩ := bind_ok.mp h
      cases h
      exact (createLoad_straight h₁).trans (createRet_straight _ _)
  · cases h
    exact createRet_straight _ _

theorem returnStored_grows (h : B.returnStored = .ok B') : Grows B B' :=
  (returnStored_straight h).grows

@[simp] theorem leaveBranch_length (B : Builder) (out : BlockId) :
    (B.leaveBranch out).fn.blocks.length = B.fn.blocks.length := by
  unfold leaveBranch
  split_ifs
  · rfl
  · exact createBr_length _ _

@[simp] theorem truth_length (B : Builder) : B.truth.fn.blocks.length = B.fn.blocks.length := by
  unfold truth
  dsimp only
  split_ifs <;> simp

@[simp] theorem openSelection_length (B : Builder) :
    B.openSelection.fn.blocks.length = B.fn.blocks.length + 2 := by
  simp [openSelection]

theorem openSelection_grows (B : Builder) : Grows B B.openSelection := by
  unfold openSelection
  refine insertAt_grows (((((truth_grows B).trans (createNumbered_grows _ _)).trans
    (createNumbered_grows _ _)).trans (createCondBr_grows _ _ _ _)).trans
    (setInBranch_grows _ _)) ?_
  calc B.truth.newBlock = B.fn.blocks.length := by simp
    _ < B.fn.blocks.length + 1 + 1 := by omega
    _ = _ := by simp

@[simp] theorem openSelectionElse_length (B : Builder) :
    B.openSelectionElse.fn.blocks.length = B.fn.blocks.length + 3 := by
  simp [openSelectionElse]

theorem openSelectionElse_grows (B : Builder) : Grows B B.openSelectionElse := by
  unfold openSelectionElse
  refine insertAt_grows ((((((truth_grows B).trans (createNumbered_grows _ _)).trans
    (createNumbered_grows _ _)).trans (createNumbered_grows _ _)).trans
    (createCondBr_grows _ _ _ _)).trans (setInBranch_grows _ _)) ?_
  have h : B.fn.blocks.length < B.fn.blocks.length + 1 + 1 + 1 := by omega
  simpa using h

@[simp] theorem openIteration_length (B : Builder) :
    B.openIteration.fn.blocks.length = B.fn.blocks.length + 3 := by
  simp [openIteration]

theorem openIteration_grows (B : Builder) : Grows B B.openIteration := by
  unfold openIteration
  refine insertAt_grows ((((createNumbered_grows _ _).trans (createNumbered_grows _ _)).trans
    (createNumbered_grows _ _)).trans (createBr_grows _ _)) ?_
  have h : B.fn.blocks.length < B.fn.blocks.length + 1 + 1 + 1 := by omega
  simpa using h

theorem enterBody_grows {b out : BlockId} (hb : b < B.fn.blocks.length) :
    Grows B (B.enterBody b out) := by
  unfold enterBody
  refine (insertAt_grows ((truth_grows B).trans (createCondBr_grows _ _ _ _)) ?_).trans
    (setInBranch_grows _ _)
  simpa using hb

theorem joinReturns_grows {t f out : BlockId} (h : B.joinReturns t f out = .ok B')
    (ht : t < B.fn.blocks.length) (hf : f < B.fn.blocks.length) (hout : out < B.fn.blocks.length) :
    Grows B B' := by
  intro hw
  obtain ⟨B₁, h₁, h⟩ := bind_ok.mp h
  cases h
  obtain ⟨hw₁, he₁⟩ := returnStored_grows h₁ hw
  have hlen := he₁.blocks
  have hrest : Grows B₁ ((((B₁.setInsertPoint t).createBr out).setInsertPoint f).createBr
      out |>.setInsertPoint out) := by
    refine insertAt_grows ((insertAt_grows ((insertAt_grows (Grows.refl B₁) ?_).trans
      (createBr_grows _ _)) ?_).trans (createBr_grows _ _)) ?_
    · exact Nat.lt_of_lt_of_le ht hlen
    · rw [createBr_length, setInsertPoint_fn]
      exact Nat.lt_of_lt_of_le hf hlen
    · rw [createBr_length, setInsertPoint_fn, createBr_length, setInsertPoint_fn]
      exact Nat.lt_of_lt_of_le hout hlen
  obtain ⟨hw₂, he₂⟩ := hrest hw₁
  exact ⟨hw₂, he₁.trans he₂⟩

end Builder

open Builder

/-- **A visit only appends.** -/
theorem visit_grows {k : Kind} (a : Ast k) : ∀ B B', visit a B = .ok B' → Grows B B' := by
  induction a with
  | intNum i | floatNum x =>
    intro B B' h
    cases h
    exact Grows.of_same rfl rfl
  | group e ih | var v ih | simple l ih | term t ih | factor f ih | expressionStmt e ih => exact ih
  | noArgs | emptyStmt | noStmts =>
    intro B B' h
    cases h
    exact Grows.refl B
  | relation l op r ihl ihr =>
    intro B B' h
    obtain ⟨B₁, h₁, h⟩ := bind_ok.mp h
    obtain ⟨B₂, h₂, h₃⟩ := bind_ok.mp h
    exact ((ihl B B₁ h₁).trans (ihr B₁ B₂ h₂)).trans (binary_grows h₃)
  | additive l op t ihl iht =>
    intro B B' h
    obtain ⟨B₁, h₁, h⟩ := bind_ok.mp h
    obtain ⟨B₂, h₂, h₃⟩ := bind_ok.mp h
    exact ((ihl B B₁ h₁).trans (iht B₁ B₂ h₂)).trans (binary_grows h₃)
  | multiplicative l op f ihl ihf =>
    intro B B' h
    obtain ⟨B₁, h₁, h⟩ := bind_ok.mp h
    obtain ⟨B₂, h₂, h₃⟩ := bind_ok.mp h
    exact ((ihl B B₁ h₁).trans (ihf B₁ B₂ h₂)).trans (binary_grows h₃)
  | ident id =>
    intro B B' h
    unfold visit at h
    split at h
    · cases h
    · exact finishVar_grows h
  | element id e ih =>
    intro B B' h
    obtain ⟨B₁, h₁, h₂⟩ := bind_ok.mp h
    exact (((setAddressOnly_grows B false).trans (ih _ B₁ h₁)).trans
      (setAddressOnly_grows _ _)).trans (subscript_grows h₂)
  | assign v e ihv ihe =>
    intro B B' h
    obtain ⟨B₁, h₁, h⟩ := bind_ok.mp h
    obtain ⟨B₂, h₂, h₃⟩ := bind_ok.mp h
    exact ((ihe B B₁ h₁).trans ((setAddressOnly_grows B₁ true).trans (ihv _ B₂ h₂))).trans
      (assignTo_grows h₃)
  | call id args ih =>
    intro B B' h
    obtain ⟨⟨n, t⟩, -, h⟩ := bind_ok.mp h
    obtain ⟨B₁, h₁, h⟩ := bind_ok.mp h
    obtain ⟨B₂, h₂, h⟩ := bind_ok.mp h
    cases h
    exact (((setFrame_grows B _).trans (ih _ B₁ h₁)).trans (createCall_grows h₂)).trans
      (setFrame_grows _ _)
  | arg e rest ihe ihrest =>
    intro B B' h
    obtain ⟨t, -, h⟩ := bind_ok.mp h
    obtain ⟨B₁, h₁, h⟩ := bind_ok.mp h
    obtain ⟨B₂, h₂, h₃⟩ := bind_ok.mp h
    exact (((setAddressOnly_grows B t.isPointer).trans (ihe _ B₁ h₁)).trans
      (pushArg_grows h₂)).trans (ihrest B₂ B' h₃)
  | compoundStmt ds ss ih =>
    intro B B' h
    obtain ⟨B₁, h₁, h⟩ := bind_ok.mp h
    obtain ⟨B₂, h₂, h⟩ := bind_ok.mp h
    cases h
    have hscope : Grows B B.enterScope := Grows.of_same rfl rfl
    exact ((hscope.trans (foldlM_grows (fun _ _ _ => visitVarDeclaration_grows) ds _ B₁ h₁)).trans
      (ih B₁ B₂ h₂)).same rfl rfl
  | stmt s rest ihs ihrest =>
    intro B B' h
    obtain ⟨B₁, h₁, h₂⟩ := bind_ok.mp h
    exact (ihs B B₁ h₁).trans (ihrest B₁ B' h₂)
  | returnVoidStmt => exact fun B B' h => finishReturn_grows h
  | returnStmt e ih =>
    intro B B' h
    obtain ⟨B₁, h₁, h₂⟩ := bind_ok.mp h
    exact (ih B B₁ h₁).trans (finishReturn_grows h₂)
  | selectionStmt e s ihe ihs =>
    intro B B' h hw
    obtain ⟨B₁, h₁, h⟩ := bind_ok.mp h
    obtain ⟨B₂, h₂, h⟩ := bind_ok.mp h
    cases h
    obtain ⟨hw₁, he₁⟩ := ihe B B₁ h₁ hw
    obtain ⟨hwo, heo⟩ := openSelection_grows B₁ hw₁
    obtain ⟨hw₂, he₂⟩ := ihs _ B₂ h₂ hwo
    have hlen := he₂.blocks
    rw [openSelection_length] at hlen
    have hout : B₁.fn.blocks.length + 1 < B₂.fn.blocks.length := by omega
    have hend := ((insertAt_grows (leaveBranch_grows B₂ (B₁.newBlock + 1))
      (b := B₁.newBlock + 1) (by rw [leaveBranch_length]; exact hout)).trans
      (setReturnInBranch_grows _ false)).trans (setInBranch_grows _ false)
    obtain ⟨hw₃, he₃⟩ := hend hw₂
    exact ⟨hw₃, ((he₁.trans heo).trans he₂).trans he₃⟩
  | selectionElseStmt e s t ihe ihs iht =>
    intro B B' h hw
    obtain ⟨B₁, h₁, h⟩ := bind_ok.mp h
    obtain ⟨B₂, h₂, h⟩ := bind_ok.mp h
    obtain ⟨B₃, h₃, h⟩ := bind_ok.mp h
    obtain ⟨hw₁, he₁⟩ := ihe B B₁ h₁ hw
    obtain ⟨hwo, heo⟩ := openSelectionElse_grows B₁ hw₁
    obtain ⟨hw₂, he₂⟩ := ihs _ B₂ h₂ hwo
    have hlen := he₂.blocks
    rw [openSelectionElse_length] at hlen
    have hfalse : B₁.fn.blocks.length + 1 < B₂.fn.blocks.length := by omega
    obtain ⟨hwe, hee⟩ := ((insertAt_grows (leaveBranch_grows B₂ (B₁.newBlock + 2))
      (b := B₁.newBlock + 1) (by rw [leaveBranch_length]; exact hfalse)).trans
      (setReturnInBranch_grows _ false)) hw₂
    obtain ⟨hw₃, he₃⟩ := iht _ B₃ h₃ hwe
    have hlen₃ := (hee.trans he₃).blocks
    have hout : B₁.fn.blocks.length + 2 < B₃.fn.blocks.length := by omega
    obtain ⟨hw₄, he₄⟩ := (((insertAt_grows (leaveBranch_grows B₃ (B₁.newBlock + 2))
      (b := B₁.newBlock + 2) (by rw [leaveBranch_length]; exact hout)).trans
      (setReturnInBranch_grows _ false)).trans (setInBranch_grows _ false)) hw₃
    have hall := ((((he₁.trans heo).trans he₂).trans hee).trans he₃).trans he₄
    dsimp only at h
    split_ifs at h
    · have hlen₄ := he₄.blocks
      have ht₄ := Nat.lt_of_lt_of_le (Nat.lt_of_le_of_lt (Nat.le_add_right _ 2) hout) hlen₄
      have hf₄ := Nat.lt_of_lt_of_le (Nat.lt_of_le_of_lt (Nat.le_succ _) hout) hlen₄
      obtain ⟨hw₅, he₅⟩ := joinReturns_grows h ht₄ hf₄ (Nat.lt_of_lt_of_le hout hlen₄) hw₄
      exact ⟨hw₅, hall.trans he₅⟩
    · cases h
      exact ⟨hw₄, hall⟩
  | iterationStmt e s ihe ihs =>
    intro B B' h hw
    obtain ⟨B₁, h₁, h⟩ := bind_ok.mp h
    obtain ⟨B₂, h₂, h⟩ := bind_ok.mp h
    cases h
    obtain ⟨hwo, heo⟩ := openIteration_grows B hw
    obtain ⟨hw₁, he₁⟩ := ihe _ B₁ h₁ hwo
    have hlen₁ := he₁.blocks
    rw [openIteration_length] at hlen₁
    have hbody : B.fn.blocks.length + 1 < B₁.fn.blocks.length := by omega
    obtain ⟨hwb, heb⟩ := @enterBody_grows _ _ (B.newBlock + 2) hbody hw₁
    obtain ⟨hw₂, he₂⟩ := ihs _ B₂ h₂ hwb
    have hlen₂ := (heb.trans he₂).blocks
    have hout : B.fn.blocks.length + 2 < B₂.fn.blocks.length := by omega
    obtain ⟨hw₃, he₃⟩ := insertAt_grows ((setInBranch_grows B₂ false).trans
      (leaveBranch_grows _ B.newBlock)) (b := B.newBlock + 2)
      (by rw [leaveBranch_length]; exact hout) hw₂
    exact ⟨hw₃, (((heo.trans he₁).trans heb).trans he₂).trans he₃⟩

/-! ## Programs -/

/-- A function as it is created. -/
theorem newFunc_wf {B : Builder} {name : String} {t : FunctionType} (hfn : B.fn = newFunc name t)
    (hbb : B.bb = 0) : Wf B := by
  refine ⟨?_, ?_, ?_, ?_⟩
  · rw [hfn]
    rfl
  · rw [hfn, hbb]
    exact Nat.zero_lt_one
  · intro b i hi
    rw [hfn] at hi
    exact nomatch hi
  · rw [hfn]
    exact fun _ _ => rfl

theorem freshBuilder_wf : Wf freshBuilder := newFunc_wf rfl rfl

theorem enterFunction_wf {d : FunDeclaration} {B B' : Builder} (h : enterFunction d B = .ok B') :
    Wf B' := by
  unfold enterFunction at h
  dsimp only at h
  split at h
  · split_ifs at h
    cases h
    exact newFunc_wf rfl rfl
  · cases h

theorem visitParam_straight {B B' : Builder} {p : Param × Nat} (h : visitParam B p = .ok B') :
    Straight B B' := by
  unfold visitParam at h
  dsimp only at h
  split at h
  · cases h
    have hname : Straight B
        { B with fn := { B.fn with names := Function.update B.fn.names (.arg p.2) p.1.id } } :=
      ⟨B.edges_grows rfl rfl rfl rfl rfl rfl, rfl, rfl⟩
    have hstore := ((hname.trans (create_straight _ .alloca
      (.pointer (if p.1.isarray then Ty.pointer p.1.type.type else p.1.type.type)) []
      .EQ)).trans (createStore_straight _ (.arg p.2) (.instr B.fn.next)))
    exact hstore.same rfl rfl
  · cases h

theorem visitParam_grows {B B' : Builder} {p : Param × Nat} (h : visitParam B p = .ok B') :
    Grows B B' := (visitParam_straight h).grows

/-- The state in which the body of a function is visited, and the one behind the function. -/
theorem visitFunDeclaration_wf {d : FunDeclaration} {B B' : Builder}
    (h : visitFunDeclaration d B = .ok B') : Wf B' := by
  obtain ⟨B₁, h₁, h⟩ := bind_ok.mp h
  obtain ⟨B₂, h₂, h⟩ := bind_ok.mp h
  obtain ⟨B₃, h₃, h⟩ := bind_ok.mp h
  have hparams := foldlM_grows (fun _ _ _ => visitParam_grows) _ B₁ B₂ h₂
  have hreset : Grows B₁ { B₂ with bbCounter := 0, returnType := d.type } :=
    hparams.same rfl rfl
  have hbody := visit_grows _ _ B₃ h₃
  have hopen : Grows B₁
      (if d.type ≠ .void then
        let B := ({ B₂ with bbCounter := 0, returnType := d.type } : Builder).createAlloca d.type.type
        { B with scope := (B.scope.push "" B.val).getD B.scope }
      else { B₂ with bbCounter := 0, returnType := d.type }) := by
    split_ifs
    · exact (hreset.trans (create_grows _ .alloca (.pointer d.type.type) [] .EQ)).same rfl rfl
    · exact hreset
  have hend : Grows B₃ B' := by
    split_ifs at h
    · cases h
      exact Grows.refl _
    · exact visit_grows .returnVoidStmt B₃ B' h
  exact ((hopen.trans hbody).trans hend (enterFunction_wf h₁)).1

/-- **Every state of a program** meets `Wf`. -/
theorem visitProgram_wf (ds : List Declaration) :
    ∀ {B B' : Builder}, Wf B → visitProgram ds B = .ok B' → Wf B' := by
  induction ds with
  | nil =>
    intro B B' hw h
    cases h
    exact hw
  | cons d ds ih =>
    intro B B' hw h
    simp only [visitProgram, List.foldlM_cons] at h
    obtain ⟨B₁, h₁, h₂⟩ := bind_ok.mp h
    refine ih ?_ h₂
    cases d with
    | var d => exact (visitVarDeclaration_grows h₁ hw).1
    | fn d => exact visitFunDeclaration_wf h₁

/-- In a function without parameters, behind local declarations. -/
def openMain (ds : List VarDeclaration) : Except Fault Builder := do
  let B ← enterFunction ⟨.int, "main", [], [], .noStmts⟩ freshBuilder
  ds.foldlM Builder.visitVarDeclaration B.enterScope

end Cminusfc.Frontend
