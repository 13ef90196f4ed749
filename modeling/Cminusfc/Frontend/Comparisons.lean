import Cminusfc.Frontend.Reach

/-!
# The values of comparisons

A comparison leaves a value of the type `i1`, and whatever uses it next widens it. `widened` is
what LLVM makes of it: `zext` reads the bit as unsigned, `sitofp` as signed, so that the bit 1
becomes −1.0. The language document gives a comparison the value 1 or 0.

Result:
* `comparisons_iff`: every use of a comparison in the code of an expression has the value 1 or 0
  exactly when no comparison in it is converted to `float`.

About `src/cminusfc/utils.cpp` 20-44 and `src/cminusfc/cminusf_builder.cpp` 275-407; the value of a
comparison is in `Documentations/common/cminusf.md`, line 147.
-/

namespace Cminusfc.Frontend

open LightIR
open Fallible (bind_ok)

/-! ## What uses of a comparison mean -/

/-- A value of the IR as LLVM reads it; a float is its bits. -/
inductive LlvmValue where
  | i1 (b : BitVec 1)
  | i32 (v : BitVec 32)
  | float (bits : BitVec 32)
  deriving Repr, DecidableEq

/-- The floats 0.0, 1.0 and −1.0. -/
def floatBits : Int → BitVec 32
  | 0 => 0
  | 1 => 0x3F800000
  | _ => 0xBF800000

/-- What an instruction makes of its operand `b` of the type `i1`. -/
def widened (x : Instr) (b : BitVec 1) : Option LlvmValue :=
  match x.op, x.ty with
  | .br, _ => some (.i1 b)
  | .zext, .int32 => some (.i32 (b.setWidth 32))
  | .sitofp, .float => some (.float (floatBits b.toInt))
  | _, _ => none

/-- The value 1 or 0 of a comparison in the type of the instruction that uses it. -/
def meant (x : Instr) (b : Bool) : LlvmValue :=
  match x.ty with
  | .int32 => .i32 (if b then 1 else 0)
  | .float => .float (floatBits (if b then 1 else 0))
  | _ => .i1 (if b then 1 else 0)

/-- The instruction `i` takes every comparison among its operands for 1 or 0. -/
def TakesRight (f : Func) (i : InstrId) : Prop :=
  ∀ j, .instr j ∈ (f.instr i).operands → (f.instr j).ty = .int1 →
    ∀ b : Bool, widened (f.instr i) (BitVec.ofBool b) = some (meant (f.instr i) b)

/-- Between `B` and `B'` only instructions are added that take comparisons right if `c` holds, and
one that does not otherwise. -/
def Adds (B B' : Builder) (c : Prop) : Prop :=
  Extends B.fn B'.fn ∧ ∀ F, Extends B'.fn F →
    ((∀ i, B.fn.next ≤ i → i < B'.fn.next → TakesRight F i) ↔ c)

theorem Adds.trans {B₁ B₂ B₃ : Builder} {c c' : Prop} (h : Adds B₁ B₂ c) (h' : Adds B₂ B₃ c') :
    Adds B₁ B₃ (c ∧ c') := by
  refine ⟨h.1.trans h'.1, fun F hF => ?_⟩
  rw [← h.2 F (h'.1.trans hF), ← h'.2 F hF]
  constructor
  · exact fun hall => ⟨fun i hi hlt => hall i hi (Nat.lt_of_lt_of_le hlt h'.1.next),
      fun i hi hlt => hall i (Nat.le_trans h.1.next hi) hlt⟩
  · rintro ⟨hleft, hright⟩ i hi hlt
    rcases Nat.lt_or_ge i B₂.fn.next with hlt₂ | hge₂
    · exact hleft i hi hlt₂
    · exact hright i hge₂ hlt

theorem Adds.congr {B B' : Builder} {c c' : Prop} (h : Adds B B' c) (hc : c ↔ c') :
    Adds B B' c' := ⟨h.1, fun F hF => (h.2 F hF).trans hc⟩

/-- No instruction is added. -/
theorem Adds.none {B B' : Builder} (hx : Extends B.fn B'.fn) (hnext : B'.fn.next = B.fn.next) :
    Adds B B' True := by
  refine ⟨hx, fun F _ => ⟨fun _ => trivial, fun _ i hi hlt => ?_⟩⟩
  rw [hnext] at hlt
  exact absurd hlt (Nat.not_lt.mpr hi)

theorem Adds.of_same {B B' : Builder} (hfn : B'.fn = B.fn) : Adds B B' True :=
  Adds.none (hfn ▸ Extends.refl _) (congrArg Func.next hfn)

/-- Two steps that take all comparisons right. -/
theorem Adds.then {B₁ B₂ B₃ : Builder} (h : Adds B₁ B₂ True) (h' : Adds B₂ B₃ True) :
    Adds B₁ B₃ True := (h.trans h').congr (and_self_iff)

/-- A step that takes all comparisons right behind another one. -/
theorem Adds.right {B₁ B₂ B₃ : Builder} {c : Prop} (h : Adds B₁ B₂ c) (h' : Adds B₂ B₃ True) :
    Adds B₁ B₃ c := (h.trans h').congr (and_iff_left trivial)

/-- A later state in place of the last one. -/
theorem Adds.same {B₁ B₂ B₃ : Builder} {c : Prop} (h : Adds B₁ B₂ c) (hfn : B₃.fn = B₂.fn) :
    Adds B₁ B₃ c := h.right (.of_same hfn)

/-- An earlier state in place of the first one. -/
theorem Adds.from {B₁ B₂ B₃ : Builder} {c : Prop} (h : Adds B₂ B₃ c) (hfn : B₂.fn = B₁.fn) :
    Adds B₁ B₃ c := ((Adds.of_same hfn).trans h).congr (and_iff_right trivial)

/-! ## The operations of `IRBuilder` -/

namespace Builder

variable {B B' : Builder}

/-- No comparison. -/
def NotBit (B : Builder) (v : Value) : Prop :=
  ∀ j, v = .instr j → j < B.fn.next ∧ (B.fn.instr j).ty ≠ .int1

theorem Plain.notBit {v : Value} (h : B.Plain v) : B.NotBit v := by
  rintro j rfl
  refine ⟨h.known j rfl, fun hty => ?_⟩
  have hdeclared : (B.fn.instr j).ty.isDeclared = true := h.type
  rw [hty] at hdeclared
  cases hdeclared

theorem notBit_of_type {v : Value} (h : B.Known v) (hty : B.typeOf v ≠ .int1) : B.NotBit v := by
  rintro j rfl
  exact ⟨h j rfl, hty⟩

/-- One instruction. -/
theorem emit_adds (B : Builder) (x : Instr) {c : Prop}
    (h : ∀ F, Extends (B.emit x).fn F → F.instr B.fn.next = { x with parent := B.bb } →
      (TakesRight F B.fn.next ↔ c)) (hw : Wf B) : Adds B (B.emit x) c := by
  refine ⟨(B.emit_grows x hw).2, fun F hF => ?_⟩
  have hinstr : F.instr B.fn.next = { x with parent := B.bb } := by
    rw [hF.instr _ (by simp), emit_fn_instr, Function.update_self]
  rw [← h F hF hinstr]
  constructor
  · exact fun hall => hall _ (Nat.le_refl _) (by simp)
  · intro hright i hi hlt
    rw [emit_fn_next] at hlt
    obtain rfl := Nat.le_antisymm hi (Nat.le_of_lt_succ hlt)
    exact hright

/-- An instruction without comparisons among its operands. -/
theorem emit_plain (hw : Wf B) {x : Instr} (h : ∀ v ∈ x.operands, B.NotBit v) :
    Adds B (B.emit x) True := by
  refine emit_adds B x (fun F hF hinstr => iff_true_intro fun j hj hty => ?_) hw
  rw [hinstr] at hj
  obtain ⟨hlt, hne⟩ := h _ hj j rfl
  have hx := (B.emit_grows x hw).2
  rw [(hx.trans hF).instr j hlt] at hty
  exact absurd hty hne

/-- A branch takes comparisons right. -/
theorem emit_br (hw : Wf B) {x : Instr} (hop : x.op = .br) (hty : x.ty = .void) :
    Adds B (B.emit x) True := by
  refine emit_adds B x (fun F hF hinstr => iff_true_intro fun j hj _ b => ?_) hw
  rw [hinstr]
  simp only [widened, meant, hop, hty]
  cases b <;> rfl

theorem create_adds (hw : Wf B) {op : OpID} {ty : Ty} {l : List Value} {c : CmpOp}
    (h : ∀ v ∈ l, B.NotBit v) : Adds B (B.create op ty l c) True :=
  (emit_plain hw h).same rfl

theorem createStore_adds (hw : Wf B) {v ptr : Value} (hv : B.NotBit v) (hptr : B.NotBit ptr) :
    Adds B (B.createStore v ptr) True :=
  emit_plain hw (List.forall_mem_cons.mpr ⟨hv, List.forall_mem_singleton.mpr hptr⟩)

theorem createLoad_adds (hw : Wf B) {ptr : Value} (h : B.createLoad ptr = .ok B')
    (hk : B.Known ptr) : Adds B B' True := by
  obtain ⟨t, ht, rfl⟩ := createLoad_ok h
  exact create_adds hw (List.forall_mem_singleton.mpr (notBit_of_type hk (by simp [ht])))

theorem createGep_adds (hw : Wf B) {ptr : Value} {idxs : List Value}
    (h : B.createGep ptr idxs = .ok B') (hk : B.Known ptr) (hidxs : ∀ v ∈ idxs, B.NotBit v) :
    Adds B B' True := by
  obtain ⟨e, t, he, -, rfl⟩ := createGep_ok h
  refine create_adds hw (List.forall_mem_cons.mpr ⟨notBit_of_type hk fun hty => ?_, hidxs⟩)
  rw [hty] at he
  cases he

theorem notBit_const {v : Value} (h : v.asInstr = none) : B.NotBit v := by
  rintro j rfl
  cases h

/-- An unsigned extension takes a comparison right. -/
theorem zext_adds (hw : Wf B) (n : Value) : Adds B (B.create .zext .int32 [n] .EQ) True := by
  refine (emit_adds B _ (fun F hF hinstr => iff_true_intro fun j hj _ b => ?_) hw).same rfl
  rw [hinstr]
  simp only [widened, meant]
  cases b <;> rfl

/-- A signed conversion to `float` makes −1.0 of it. -/
theorem sitofp_adds (hw : Wf B) {n : Value} (hn : B.Usable n) :
    Adds B (B.create .sitofp .float [n] .EQ) (B.typeOf n ≠ .int1) := by
  refine (emit_adds B _ (fun F hF hinstr => ?_) hw).same rfl
  have hx := (B.emit_grows { op := .sitofp, ty := .float, operands := [n], parent := B.bb } hw).2
  constructor
  · intro hright hbit
    rcases hn.type with ⟨⟨j, rfl⟩, -⟩ | hdeclared
    · have hj : (F.instr j).ty = .int1 := by
        rw [(hx.trans hF).instr j (hn.known j rfl)]
        exact hbit
      have htrue := hright j (by rw [hinstr]; exact List.mem_singleton_self _) hj true
      rw [hinstr] at htrue
      simp only [widened, meant] at htrue
      revert htrue
      decide
    · rw [hbit] at hdeclared
      cases hdeclared
  · intro hnot j hj hty
    rw [hinstr] at hj
    obtain rfl := List.mem_singleton.mp hj
    rw [(hx.trans hF).instr j (hn.known j rfl)] at hty
    exact absurd hty hnot

/-- **Where a conversion goes wrong**: from a comparison to `float`. -/
theorem convert_adds (hw : Wf B) {n : Value} {ty : Ty} (h : B.convert n ty = .ok B')
    (hn : B.Usable n) (hty : ty.isDeclared = true) :
    Adds B B' ¬(B.typeOf n = .int1 ∧ ty = .float) := by
  rcases convert_ok h with ⟨rfl, hsame, -⟩ | ⟨op, rfl, hop⟩ | ⟨e, he, hptr, h⟩
  · refine (Adds.of_same rfl).congr (iff_of_true trivial ?_)
    rintro ⟨hbit, rfl⟩
    rw [hbit] at hsame
    rcases hsame with ⟨-, hsame⟩ | ⟨hsame, -⟩ <;> cases hsame
  · rcases hop with ⟨rfl, hsame, hsize⟩ | ⟨rfl, hint, hfloat⟩ | ⟨rfl, hfloat, hint⟩
    · have hword : ty = .int32 := by
        rcases hsame with ⟨-, hint⟩ | ⟨hfloat, hfloat'⟩
        · revert hint hty
          cases ty <;> simp [Ty.isInteger, Ty.isDeclared]
        · revert hfloat hfloat' hsize
          cases B.typeOf n <;> cases ty <;> simp [Ty.isFloat, Ty.size]
      subst hword
      exact (zext_adds hw n).congr (iff_of_true trivial (by simp))
    · have hsingle : ty = .float := by
        cases ty <;> first | rfl | cases hfloat
      subst hsingle
      exact (sitofp_adds hw hn).congr (by simp)
    · have hnot : B.typeOf n ≠ .int1 := fun hbit => by
        rw [hbit] at hfloat
        cases hfloat
      exact (create_adds hw (List.forall_mem_singleton.mpr (notBit_of_type hn.known hnot))).congr
        (iff_of_true trivial fun hboth => hnot hboth.1)
  · have hnot : B.typeOf n ≠ .int1 := fun hbit => by
      rw [hbit] at he
      cases he
    refine Adds.congr ?_ (iff_of_true trivial fun hboth => hnot hboth.1)
    rcases h with h | h
    · exact createGep_adds hw h hn.known (List.forall_mem_cons.mpr ⟨notBit_const rfl,
        List.forall_mem_singleton.mpr (notBit_const rfl)⟩)
    · exact createLoad_adds hw h hn.known

/-! ## The parts of the visits -/

theorem numberType_declared {t : Ty} (h : t = .int32 ∨ t = .float) :
    t.isDeclared = true ∧ t.isPointer = false := by
  rcases h with rfl | rfl <;> exact ⟨rfl, rfl⟩

theorem binary_adds (hr : Ready B) {intOp floatOp : OpID} {intTy floatTy : Ty} {c : CmpOp}
    {lhs rhs : Value} (h : B.binary intOp floatOp intTy floatTy c lhs rhs = .ok B')
    (hlhs : B.Usable lhs) (hrhs : B.Usable rhs) :
    Adds B B' (((B.typeOf lhs).isInteger && (B.typeOf rhs).isInteger) = true ∨
      B.typeOf lhs ≠ .int1 ∧ B.typeOf rhs ≠ .int1) := by
  obtain ⟨t, op, ty, B₁, B₂, h₁, h₂, rfl, hcase⟩ := binary_ok h
  have hnumber : t = .int32 ∨ t = .float := by
    rcases hcase with ⟨-, rfl, -⟩ | ⟨-, rfl, -⟩
    · exact .inl rfl
    · exact .inr rfl
  obtain ⟨hdeclared, hnotPointer⟩ := numberType_declared hnumber
  have hs₁ := convert_step hr h₁
  have hs₂ := convert_step hs₁.ready h₂
  have hplain₁ := (convert_type h₁ hlhs hdeclared).1
  have hplain₂ := (convert_type h₂ (hs₁.usable hrhs) hdeclared).1
  have hoperands : ∀ v ∈ [B₁.val, B₂.val], B₂.NotBit v :=
    List.forall_mem_cons.mpr ⟨(hplain₁.mono hs₂.ext hs₂.keeps.globals).notBit,
      List.forall_mem_singleton.mpr hplain₂.notBit⟩
  refine (((convert_adds hr.wf h₁ hlhs hdeclared).trans (convert_adds hs₁.ready.wf h₂
    (hs₁.usable hrhs) hdeclared)).right (create_adds hs₂.ready.wf hoperands)).congr ?_
  rw [hs₁.typeOf hrhs.known]
  rcases hcase with ⟨hint, rfl, -⟩ | ⟨hint, rfl, -⟩
  · simp [hint]
  · simp [hint]

theorem createNumbered_adds (hw : Wf B) (kind : String) : Adds B (B.createNumbered kind) True :=
  Adds.none (createNumbered_grows B kind hw).2 rfl

theorem createBr_adds (hw : Wf B) (t : BlockId) : Adds B (B.createBr t) True := by
  have hedges : Grows B
      { B with fn := (B.fn.addPreBasicBlock t B.bb).addSuccBasicBlock B.bb t } :=
    B.edges_grows rfl rfl rfl rfl rfl rfl
  obtain ⟨hw', hx⟩ := hedges hw
  exact (Adds.none hx rfl).then (emit_br hw' rfl rfl)

theorem createCondBr_adds (hw : Wf B) (v : Value) (t e : BlockId) :
    Adds B (B.createCondBr v t e) True := by
  have hedges : Grows B
      { B with
        fn := (((B.fn.addPreBasicBlock t B.bb).addPreBasicBlock e B.bb).addSuccBasicBlock B.bb
          e).addSuccBasicBlock B.bb t } :=
    B.edges_grows rfl rfl rfl rfl rfl rfl
  obtain ⟨hw', hx⟩ := hedges hw
  exact (Adds.none hx rfl).then (emit_br hw' rfl rfl)

theorem truth_adds (hw : Wf B) (hval : B.Usable B.val) : Adds B B.truth True := by
  unfold truth
  dsimp only
  split_ifs with hsize hint
  · refine create_adds hw (List.forall_mem_cons.mpr ⟨notBit_of_type hval.known fun hbit => ?_,
      List.forall_mem_singleton.mpr (notBit_const rfl)⟩)
    rw [hbit] at hsize
    exact absurd hsize (by decide)
  · refine create_adds hw (List.forall_mem_cons.mpr ⟨notBit_of_type hval.known fun hbit => ?_,
      List.forall_mem_singleton.mpr (notBit_const rfl)⟩)
    rw [hbit] at hsize
    exact absurd hsize (by decide)
  · exact .of_same rfl

theorem compareIndex_adds (hw : Wf B) {offset : Value} (hoffset : B.NotBit offset) :
    Adds B (B.compareIndex offset) True := by
  have hcmp : Adds B (B.create .cmp .int1 [offset, .int32 0] .GE) True :=
    create_adds hw (List.forall_mem_cons.mpr ⟨hoffset,
      List.forall_mem_singleton.mpr (notBit_const rfl)⟩)
  obtain ⟨hw₁, -⟩ := B.create_grows .cmp .int1 [offset, .int32 0] .GE hw
  obtain ⟨hw₂, -⟩ := createNumbered_grows _ "true" hw₁
  obtain ⟨hw₃, -⟩ := createNumbered_grows _ "false" hw₂
  refine Adds.same ?_ (setInsertPoint_fn _ _)
  refine Adds.then ?_ (createCondBr_adds hw₃ _ _ _)
  exact (hcmp.then (createNumbered_adds hw₁ _)).then (createNumbered_adds hw₂ _)

theorem checkIndex_adds (hw : Wf B) {offset : Value} (h : B.checkIndex offset = .ok B')
    (hoffset : B.NotBit offset) : Adds B B' True := by
  obtain ⟨name, ret, rfl⟩ := callExcept_ok h
  obtain ⟨hw₁, -⟩ := compareIndex_grows B offset hw
  obtain ⟨hw₂, -⟩ := create_grows (B.compareIndex offset) .call ret [.function name] .EQ hw₁
  have hcall := @create_adds _ hw₁ .call ret [.function name] .EQ
    (List.forall_mem_singleton.mpr (notBit_const rfl))
  refine Adds.same ?_ (setInsertPoint_fn _ _)
  exact ((compareIndex_adds hw hoffset).then hcall).then (createBr_adds hw₂ _)

theorem elementAddress_adds (hr : Ready B) {ptr offset : Value}
    (h : B.elementAddress (some ptr) offset = .ok B') (hptr : B.Plain ptr)
    (hoffset : B.Plain offset) : Adds B B' True := by
  unfold elementAddress at h
  dsimp only at h
  split at h
  · exact createGep_adds hr.wf h hptr.known (List.forall_mem_cons.mpr ⟨notBit_const rfl,
      List.forall_mem_singleton.mpr hoffset.notBit⟩)
  · obtain ⟨B₁, h₁, h₂⟩ := bind_ok.mp h
    have hs := hr.step (createLoad_grows h₁) (createLoad_keeps h₁).stays
    exact (createLoad_adds hr.wf h₁ hptr.known).then (createGep_adds hs.ready.wf h₂
      (createLoad_plain h₁ hptr.type).known (List.forall_mem_singleton.mpr
        (hoffset.mono hs.ext hs.keeps.globals).notBit))
  · cases h
    exact .of_same rfl
  · cases h

theorem finishVar_adds (hw : Wf B) {ptr : Value} (h : B.finishVar ptr = .ok B')
    (hptr : B.Known ptr) : Adds B B' True := by
  unfold finishVar at h
  split_ifs at h
  · cases h
    exact .of_same rfl
  · exact createLoad_adds hw h hptr

/-- A subscript is converted to `int`. -/
theorem subscript_adds (hr : Ready B) {ptr : Option Value} (h : B.subscript ptr = .ok B')
    (hval : B.Usable B.val) (hptr : ∀ v, ptr = some v → B.Named v) : Adds B B' True := by
  obtain ⟨B₁, h₁, h⟩ := bind_ok.mp h
  obtain ⟨B₂, h₂, h⟩ := bind_ok.mp h
  obtain ⟨B₃, h₃, h₄⟩ := bind_ok.mp h
  have hs₁ := convert_step hr h₁
  have hs₂ := checkIndex_step hs₁.ready h₂
  have hoffset := (convert_type h₁ hval rfl).1
  have hs := hs₁.trans hs₂
  cases ptr with
  | none => cases h₃
  | some v =>
    have hv := hptr v rfl
    have hplain := hv.toPlain.mono hs.ext hs.keeps.globals
    have hs₃ := hs₂.ready.step (elementAddress_grows h₃) (elementAddress_keeps h₃).stays
    obtain ⟨t, ht⟩ : ∃ t, B.typeOf v = .pointer t := by
      rcases hv.address with hp | hvoid
      · revert hp
        cases B.typeOf v <;> simp [Ty.isPointer]
      · unfold elementAddress at h₃
        simp [hs.typeOf hv.known, hvoid, Ty.pointerElementType] at h₃
    obtain ⟨haddress, -⟩ := elementAddress_type h₃ hplain ((hs.typeOf hv.known).trans ht)
    have hconvert := (convert_adds hr.wf h₁ hval rfl).congr (iff_of_true (by simp) trivial)
    exact ((hconvert.then (checkIndex_adds hs₁.ready.wf h₂ hoffset.notBit)).then
      (elementAddress_adds hs₂.ready h₃ hplain (hoffset.mono hs₂.ext hs₂.keeps.globals))).then
      (finishVar_adds hs₃.ready.wf h₄ haddress.known)

theorem assignTo_adds (hr : Ready B) {rhs : Value} {t : Ty} (h : B.assignTo rhs = .ok B')
    (hrhs : B.Usable rhs) (hval : B.Plain B.val) (ht : B.typeOf B.val = .pointer t) :
    Adds B B' ¬(B.typeOf rhs = .int1 ∧ t = .float) := by
  unfold assignTo at h
  simp only [ht, Ty.pointerElementType] at h
  obtain ⟨B₁, h₁, h⟩ := bind_ok.mp h
  cases h
  have hdeclared : t.isDeclared = true := by
    have hpointer := hval.type
    rw [ht] at hpointer
    exact hpointer
  have hs := convert_step hr h₁
  have hstore := createStore_adds hs.ready.wf (convert_type h₁ hrhs hdeclared).1.notBit
    (hval.mono hs.ext hs.keeps.globals).notBit
  exact ((convert_adds hr.wf h₁ hrhs hdeclared).right hstore).same rfl

theorem createCall_adds (hr : Ready B) {n : String} {t : FunctionType}
    (h : B.createCall n t B.frame.args = .ok B') : Adds B B' True := by
  unfold createCall at h
  split_ifs at h
  cases h
  exact create_adds hr.wf (List.forall_mem_cons.mpr ⟨notBit_const rfl,
    fun v hv => (hr.declared.args v hv).notBit⟩)

theorem pushArg_adds (hr : Ready B) {t : Ty} (h : B.pushArg t = .ok B') (hval : B.Usable B.val)
    (ht : t.isDeclared = true) : Adds B B' ¬(B.typeOf B.val = .int1 ∧ t = .float) := by
  obtain ⟨B₁, h₁, h⟩ := bind_ok.mp h
  cases h
  have hs := setAddressOnly_step hr false
  have hconvert : Adds B B₁ ¬(B.typeOf B.val = .int1 ∧ t = .float) :=
    (convert_adds hs.ready.wf h₁ (hs.usable hval) ht).from rfl
  exact hconvert.same rfl

end Builder

open Builder

/-! ## Comparisons that are converted to `float` -/

namespace Ast

/-- The operands are converted to `float`, and one of them is a comparison. -/
def clash (tl tr : Ty) : Bool := !(tl.isInteger && tr.isInteger) && (tl = .int1 || tr = .int1)

/-- Somewhere in the expression a comparison, or an assignment of one, is converted to `float`: as
an operand next to a `float`, as an argument for a `float` parameter, or on the right of a `float`
variable. `params` are the types of the parameters the arguments are for. -/
def mixes (B : Builder) : {k : Kind} → Ast k → List Ty → Bool
  | _, .group e, _ => e.mixes B []
  | _, .var v, _ => v.mixes B []
  | _, .simple l, _ => l.mixes B []
  | _, .term t, _ => t.mixes B []
  | _, .factor f, _ => f.mixes B []
  | _, .relation l _ r, _ => (l.mixes B [] || r.mixes B []) || clash (l.typeIn B) (r.typeIn B)
  | _, .additive l _ r, _ => (l.mixes B [] || r.mixes B []) || clash (l.typeIn B) (r.typeIn B)
  | _, .multiplicative l _ r, _ =>
    (l.mixes B [] || r.mixes B []) || clash (l.typeIn B) (r.typeIn B)
  | _, .element _ e, _ => e.mixes B []
  | _, .assign v e, _ =>
    (e.mixes B [] || v.mixes B []) || (e.typeIn B = .int1 && v.typeIn B = .float)
  | _, .call id args, _ =>
    match B.callee id with
    | .ok (_, t) => args.mixes B t.params
    | .error _ => false
  | _, .arg e rest, t :: ts =>
    (e.mixes B [] || (e.typeIn B = .int1 && t = .float)) || rest.mixes B ts
  | _, _, _ => false

end Ast

theorem mixes_params {k : Kind} (hk : k.isValue = true) (a : Ast k) (B : Builder) (ts : List Ty) :
    a.mixes B ts = a.mixes B [] := by
  cases a <;> first | rfl | cases hk

theorem Sees.mixes {B B' : Builder} (h : Sees B B') {k : Kind} (a : Ast k) :
    ∀ ts, a.mixes B' ts = a.mixes B ts := by
  induction a with
  | group e ih | var v ih | simple l ih | term t ih | factor f ih => exact fun _ => ih []
  | relation l op r ihl ihr | additive l op r ihl ihr | multiplicative l op r ihl ihr =>
    intro ts
    simp only [Ast.mixes, ihl, ihr, h.typeIn]
  | element id e ih => exact fun _ => ih []
  | assign v e ihv ihe =>
    intro ts
    simp only [Ast.mixes, ihv, ihe, h.typeIn]
  | call id args ih =>
    intro ts
    simp only [Ast.mixes, h.callee, ih]
  | arg e rest ihe ihrest =>
    intro ts
    cases ts with
    | nil => rfl
    | cons t ts => simp only [Ast.mixes, ihe, ihrest, h.typeIn]
  | _ => exact fun _ => rfl

theorem mixes_step {B B' : Builder} (hr : Ready B) (h : Step B B') {k : Kind} (a : Ast k)
    (ts : List Ty) : a.mixes B' ts = a.mixes B ts := (h.sees hr).mixes a ts

/-- The arguments of a call are visited with a frame of their own. -/
theorem setFrame_sees (B : Builder) (c : CallFrame) : Sees B (B.setFrame c) :=
  ⟨rfl, rfl, fun _ v _ => by cases v <;> rfl⟩

theorem clash_eq_false {tl tr : Ty} :
    Ast.clash tl tr = false ↔
      (tl.isInteger && tr.isInteger) = true ∨ tl ≠ .int1 ∧ tr ≠ .int1 := by
  simp only [Ast.clash, Bool.and_eq_false_iff, Bool.not_eq_false', Bool.or_eq_false_iff,
    decide_eq_false_iff_not]

/-- An operation with two operands. -/
theorem operands_adds {kl kr : Kind} {l : Ast kl} {r : Ast kr} {intOp floatOp : OpID}
    {intTy floatTy : Ty} {c : CmpOp} {B B₁ B₂ B' : Builder} (hkl : kl.isValue = true)
    (hkr : kr.isValue = true) (h₁ : visit l B = .ok B₁) (h₂ : visit r B₁ = .ok B₂)
    (h₃ : B₂.binary intOp floatOp intTy floatTy c B₁.val B₂.val = .ok B') (hr : Ready B)
    (hl : Adds B B₁ (l.mixes B [] = false)) (hr' : Adds B₁ B₂ (r.mixes B₁ [] = false)) :
    Adds B B' (((l.mixes B [] || r.mixes B []) ||
      Ast.clash (l.typeIn B) (r.typeIn B)) = false) := by
  have hs₁ := visit_step hkl h₁ hr
  have hs₂ := visit_step hkr h₂ hs₁.ready
  obtain ⟨hlhs, hltype⟩ := visit_type l hkl B B₁ h₁ hr
  obtain ⟨hrhs, hrtype⟩ := visit_type r hkr B₁ B₂ h₂ hs₁.ready
  rw [← hs₂.typeOf hlhs.known] at hltype
  rw [typeIn_step hr hs₁] at hrtype
  obtain ⟨-, -, htl, htr⟩ := binary_type hs₂.ready h₃ hltype hrtype hrhs.known
  have hbinary := binary_adds hs₂.ready h₃ (hs₂.usable hlhs) hrhs
  rw [htl, htr] at hbinary
  rw [mixes_step hr hs₁] at hr'
  refine ((hl.trans hr').trans hbinary).congr ?_
  rw [Bool.or_eq_false_iff, Bool.or_eq_false_iff, clash_eq_false]

theorem setFrame_ready {B : Builder} {id n : String} {t : FunctionType} (hr : Ready B)
    (h : B.callee id = .ok (n, t)) : Ready (B.setFrame ⟨t.params, []⟩) := by
  have hd := hr.declared
  refine ⟨(setFrame_grows B _ hr.wf).1, ⟨hr.inside.scope, hr.inside.enterInFunDecl⟩,
    fun m hm p hp => (hd.scope m hm p hp).mono (Extends.refl _) rfl, hd.globals, hd.types,
    (hd.callee h).2, nofun⟩

/-- The parameter an argument is for is the first one that has no argument yet. -/
theorem nextParam_ok {B : Builder} {t : Ty} (h : B.nextParam = .ok t) :
    ∃ ts, B.frame.params.drop B.frame.args.length = t :: ts := by
  unfold Builder.nextParam at h
  split at h
  · rename_i t' hsome
    cases h
    obtain ⟨hlt, hget⟩ := List.getElem?_eq_some_iff.mp hsome
    exact ⟨_, by rw [List.drop_eq_getElem_cons hlt, hget]⟩
  · cases h

/-- **When the code of an expression takes all comparisons right.** -/
theorem visit_adds {k : Kind} (a : Ast k) :
    (k.isValue = true ∨ k = .args) → ∀ B B', visit a B = .ok B' → Ready B →
      Adds B B' (a.mixes B (B.frame.params.drop B.frame.args.length) = false) ∧ Ready B' := by
  induction a with
  | intNum i | floatNum x =>
    intro _ B B' h hr
    have hr' := (visit_step rfl h hr).ready
    cases h
    exact ⟨(Adds.of_same rfl).congr (iff_of_true trivial rfl), hr'⟩
  | group e ih | var v ih | simple l ih | term t ih | factor f ih =>
    intro _ B B' h hr
    obtain ⟨hadds, hr'⟩ := ih (.inl rfl) B B' h hr
    rw [mixes_params rfl] at hadds
    exact ⟨hadds, hr'⟩
  | noArgs =>
    intro _ B B' h hr
    cases h
    refine ⟨(Adds.of_same rfl).congr (iff_of_true trivial ?_), hr⟩
    cases B.frame.params.drop B.frame.args.length <;> rfl
  | relation l op r ihl ihr | additive l op r ihl ihr | multiplicative l op r ihl ihr =>
    intro _ B B' h hr
    have hready := (visit_step rfl h hr).ready
    obtain ⟨B₁, h₁, h⟩ := bind_ok.mp h
    obtain ⟨B₂, h₂, h₃⟩ := bind_ok.mp h
    have hl := (ihl (.inl rfl) B B₁ h₁ hr).1
    have hr' := (ihr (.inl rfl) B₁ B₂ h₂ (visit_step rfl h₁ hr).ready).1
    rw [mixes_params rfl] at hl hr'
    exact ⟨operands_adds rfl rfl h₁ h₂ h₃ hr hl hr', hready⟩
  | ident id =>
    intro _ B B' h hr
    have hready := (visit_step rfl h hr).ready
    unfold visit at h
    split at h
    · cases h
    · rename_i ptr hfind
      exact ⟨(finishVar_adds hr.wf h (hr.declared.find hfind).known).congr
        (iff_of_true trivial rfl), hready⟩
  | element id e ih =>
    intro _ B B' h hr
    have hready := (visit_step rfl h hr).ready
    obtain ⟨B₁, h₁, h₂⟩ := bind_ok.mp h
    have hs := setAddressOnly_step hr false
    have hs₁ := visit_step rfl h₁ hs.ready
    have hs₂ := setAddressOnly_step hs₁.ready B.addressOnly
    have hval := (visit_type e rfl _ B₁ h₁ hs.ready).1
    have hindex := (ih (.inl rfl) _ B₁ h₁ hs.ready).1
    rw [mixes_params rfl, mixes_step hr hs] at hindex
    have hall := (hs.trans hs₁).trans hs₂
    have hsubscript := subscript_adds hs₂.ready h₂ (hs₂.usable hval) fun v hv =>
      (hr.declared.find hv).mono hall.ext hall.keeps.globals
    have hsubscript' : Adds B₁ B' True := hsubscript.from rfl
    have hindex' : Adds B B₁ (e.mixes B [] = false) := hindex.from rfl
    exact ⟨hindex'.right hsubscript', hready⟩
  | assign v e ihv ihe =>
    intro _ B B' h hr
    have hready := (visit_step rfl h hr).ready
    obtain ⟨B₁, h₁, h⟩ := bind_ok.mp h
    obtain ⟨B₂, h₂, h₃⟩ := bind_ok.mp h
    have hs₁ := visit_step rfl h₁ hr
    have hs := setAddressOnly_step hs₁.ready true
    have hs₂ := visit_step rfl h₂ hs.ready
    obtain ⟨hrhs, hrtype⟩ := visit_type e rfl B B₁ h₁ hr
    obtain ⟨hplain, htype⟩ := visitVar_type h₂ hs.ready
    have hpointer : B₂.typeOf B₂.val = .pointer (v.typeIn B) := by
      rcases htype with htype | ⟨hvoid, -⟩
      · have haddress : (B₁.setAddressOnly true).addressOnly = true := rfl
        rw [htype, if_pos haddress, typeIn_step hs₁.ready hs, typeIn_step hr hs₁]
      · unfold Builder.assignTo at h₃
        simp [hvoid, Ty.pointerElementType] at h₃
    have hsource := (ihe (.inl rfl) B B₁ h₁ hr).1
    have htarget := (ihv (.inl rfl) _ B₂ h₂ hs.ready).1
    rw [mixes_params rfl] at hsource htarget
    rw [mixes_step hs₁.ready hs, mixes_step hr hs₁] at htarget
    have htarget' : Adds B₁ B₂ (v.mixes B [] = false) := htarget.from rfl
    have hback := hs.trans hs₂
    have hstore := assignTo_adds hs₂.ready h₃ (hback.usable hrhs) hplain hpointer
    rw [hback.typeOf hrhs.known, typeOf_eq_int1 hrhs hrtype] at hstore
    refine ⟨((hsource.trans htarget').trans hstore).congr ?_, hready⟩
    simp only [Ast.mixes, Bool.or_eq_false_iff, Bool.and_eq_false_iff, decide_eq_false_iff_not,
      not_and_or]
  | call id args ih =>
    intro _ B B' h hr
    have hready := (visit_step rfl h hr).ready
    obtain ⟨⟨n, t⟩, hcallee, h⟩ := bind_ok.mp h
    obtain ⟨B₁, h₁, h⟩ := bind_ok.mp h
    obtain ⟨B₂, h₂, h⟩ := bind_ok.mp h
    cases h
    obtain ⟨hargs, hr₁⟩ := ih (.inr rfl) _ B₁ h₁ (setFrame_ready hr hcallee)
    rw [(setFrame_sees B ⟨t.params, []⟩).mixes] at hargs
    have hargs' : Adds B B₁ (args.mixes B t.params = false) := hargs.from rfl
    have hcall : Adds B (B₂.setFrame B.frame) _ :=
      (hargs'.right (createCall_adds hr₁ h₂)).same rfl
    refine ⟨hcall.congr ?_, hready⟩
    rw [Ast.mixes, hcallee]
  | arg e rest ihe ihrest =>
    intro _ B B' h hr
    obtain ⟨t, ht, h⟩ := bind_ok.mp h
    obtain ⟨B₁, h₁, h⟩ := bind_ok.mp h
    obtain ⟨B₂, h₂, h₃⟩ := bind_ok.mp h
    obtain ⟨ts, hparams⟩ := nextParam_ok ht
    have hdeclared : t.isDeclared = true := by
      refine hr.declared.params t (List.mem_of_mem_drop (i := B.frame.args.length) ?_)
      rw [hparams]
      exact List.mem_cons_self
    have hs := setAddressOnly_step hr t.isPointer
    have hs₁ := hs.trans (visit_step rfl h₁ hs.ready)
    obtain ⟨hval, htype⟩ := visit_type e rfl _ B₁ h₁ hs.ready
    rw [typeIn_step hr hs] at htype
    have harg := (ihe (.inl rfl) _ B₁ h₁ hs.ready).1
    rw [mixes_params rfl, mixes_step hr hs] at harg
    have harg' : Adds B B₁ (e.mixes B [] = false) := harg.from rfl
    have hpush := pushArg_adds hs₁.ready h₂ hval hdeclared
    rw [typeOf_eq_int1 hval htype] at hpush
    obtain ⟨hr₂, hx₂, hk₂, v, hframe⟩ := pushArg_ready hs₁.ready h₂ hval hdeclared
    have hsees : Sees B B₂ := by
      refine ⟨hk₂.scope.trans hs₁.keeps.scope, hk₂.types.trans hs₁.keeps.types, fun id w hw => ?_⟩
      have hknown := (hr.declared.find hw).known
      rw [(hknown.mono hs₁.ext).typeOf hx₂ hk₂.globals, hs₁.typeOf hknown]
    obtain ⟨hrest, hr'⟩ := ihrest (.inr rfl) B₂ B' h₃ hr₂
    have hparams₂ : B₂.frame.params.drop B₂.frame.args.length = ts := by
      rw [hframe, hs₁.keeps.frame, List.length_append, ← List.drop_drop, hparams]
      rfl
    rw [hparams₂, hsees.mixes] at hrest
    refine ⟨((harg'.trans hpush).trans hrest).congr ?_, hr'⟩
    rw [hparams]
    simp only [Ast.mixes, Bool.or_eq_false_iff, Bool.and_eq_false_iff, decide_eq_false_iff_not,
      not_and_or]
  | compoundStmt | emptyStmt | expressionStmt | selectionStmt | selectionElseStmt | iterationStmt
  | returnVoidStmt | returnStmt | noStmts | stmt => exact fun h => by rcases h with h | h <;> cases h

/-! ## Where expressions stand -/

theorem closeBlock_adds {B : Builder} (hw : Wf B) {returnBB b : BlockId}
    (hb : b < B.fn.blocks.length) : Adds B (B.closeBlock returnBB b) True := by
  unfold Builder.closeBlock
  split_ifs
  · exact .of_same rfl
  · have hbr := createBr_adds (setInsertPoint_grows B hb hw).1 returnBB
    exact hbr.from rfl

theorem closeBlocks_adds (returnBB : BlockId) (l : List BlockId) :
    ∀ B : Builder, Wf B → (∀ b ∈ l, b < B.fn.blocks.length) →
      Adds B (l.foldl (fun B bb => B.closeBlock returnBB bb) B) True := by
  induction l with
  | nil => exact fun B _ _ => .of_same rfl
  | cons b l ih =>
    intro B hw hl
    obtain ⟨hb, hrest⟩ := List.forall_mem_cons.mp hl
    obtain ⟨hw', hx⟩ := closeBlocks_grows returnBB [b] B (List.forall_mem_singleton.mpr hb) hw
    exact (closeBlock_adds hw hb).then
      (ih _ hw' fun b' hb' => Nat.lt_of_lt_of_le (hrest b' hb') hx.blocks)

theorem enterReturnBlock_adds {B : Builder} (hw : Wf B) : Adds B B.enterReturnBlock True := by
  unfold Builder.enterReturnBlock
  split_ifs
  · obtain ⟨hw₁, hx₁⟩ := createBlock_grows B "return" hw
    obtain ⟨hw₂, -⟩ := createBr_grows (B.createBlock "return") B.newBlock hw₁
    have hopen := (Adds.none hx₁ rfl).then (createBr_adds hw₁ B.newBlock)
    have hclose := closeBlocks_adds B.newBlock
      ((B.createBlock "return").createBr B.newBlock).fn.blocks _ hw₂ fun b hb => by
        rw [hw₂.blocks] at hb
        exact List.mem_range.mp hb
    exact (hopen.then hclose).same (setInsertPoint_fn _ _)
  · exact .of_same rfl

theorem type_declared (t : CminusType) : t.type.isDeclared = true := by
  cases t <;> rfl

theorem finishReturn_adds {B B' : Builder} (hr : Ready B) (hval : B.Usable B.val)
    (h : B.finishReturn true = .ok B') :
    Adds B B' ¬(B.typeOf B.val = .int1 ∧ B.returnType = .float) := by
  have htype : B.returnType = .float ↔ B.returnType.type = .float := by
    cases B.returnType <;> simp [CminusType.type]
  rw [htype]
  unfold Builder.finishReturn at h
  rw [if_pos rfl] at h
  split at h
  · cases h
  · rename_i ptr hfind
    obtain ⟨B₁, h₁, h⟩ := bind_ok.mp h
    have hptr := hr.declared.find hfind
    have hs := convert_step hr h₁
    have hstore := createStore_adds hs.ready.wf
      (convert_type h₁ hval (type_declared B.returnType)).1.notBit
      (hptr.mono hs.ext hs.keeps.globals).notBit
    have hs' := hs.trans (hs.ready.step (createStore_grows B₁ B₁.val ptr)
      (createStore_keeps B₁ B₁.val ptr).stays)
    have hadds := (convert_adds hr.wf h₁ hval (type_declared B.returnType)).right hstore
    dsimp only at h
    split_ifs at h
    · cases h
      exact hadds.same rfl
    · obtain ⟨B₂, h₂, h⟩ := bind_ok.mp h
      cases h
      obtain ⟨hw₁, -⟩ := @Grows.of_same (B₁.createStore B₁.val ptr)
        ((B₁.createStore B₁.val ptr).setVal B.val) rfl rfl hs'.ready.wf
      obtain ⟨hw₂, hx₂⟩ := enterReturnBlock_grows _ hw₁
      obtain ⟨hw₃, hx₃⟩ := createLoad_grows h₂ hw₂
      have hstored := @Builder.Named.mono _ ((B₁.createStore B₁.val ptr).setVal B.val) _
        (hptr.mono hs'.ext hs'.keeps.globals) (Extends.refl _) rfl
      have hnamed := hstored.mono hx₂ (enterReturnBlock_keeps _).globals
      have hload := createLoad_adds hw₂ h₂ hnamed.known
      have hret : Adds B₂ (B₂.createRet (some B₂.val)) True :=
        emit_plain hw₃ (List.forall_mem_singleton.mpr (createLoad_plain h₂ hnamed.type).notBit)
      exact (((@Adds.same _ _ ((B₁.createStore B₁.val ptr).setVal B.val) _ hadds rfl).right
        (enterReturnBlock_adds hw₁)).right hload).right hret

/-- A comparison is converted to `float`, in the expression or when it is returned. -/
def mixesAt (e : Ast .expression) (B : Builder) : Place → Bool
  | .returned => e.mixes B [] || (e.typeIn B = .int1 && B.returnType = .float)
  | _ => e.mixes B []

theorem openSelection_adds {B : Builder} (hw : Wf B) (hval : B.Usable B.val) :
    Adds B B.openSelection True := by
  obtain ⟨hw₁, -⟩ := truth_grows B hw
  obtain ⟨hw₂, -⟩ := createNumbered_grows _ "true" hw₁
  obtain ⟨hw₃, -⟩ := createNumbered_grows _ "out" hw₂
  refine Adds.same ?_ (setInsertPoint_fn _ _)
  refine Adds.same ?_ (setInBranch_fn _ _)
  refine Adds.then ?_ (createCondBr_adds hw₃ _ _ _)
  exact ((truth_adds hw hval).then (createNumbered_adds hw₁ _)).then (createNumbered_adds hw₂ _)

theorem openSelectionElse_adds {B : Builder} (hw : Wf B) (hval : B.Usable B.val) :
    Adds B B.openSelectionElse True := by
  obtain ⟨hw₁, -⟩ := truth_grows B hw
  obtain ⟨hw₂, -⟩ := createNumbered_grows _ "true" hw₁
  obtain ⟨hw₃, -⟩ := createNumbered_grows _ "false" hw₂
  obtain ⟨hw₄, -⟩ := createNumbered_grows _ "out" hw₃
  refine Adds.same ?_ (setInsertPoint_fn _ _)
  refine Adds.same ?_ (setInBranch_fn _ _)
  refine Adds.then ?_ (createCondBr_adds hw₄ _ _ _)
  exact (((truth_adds hw hval).then (createNumbered_adds hw₁ _)).then
    (createNumbered_adds hw₂ _)).then (createNumbered_adds hw₃ _)

theorem enterBody_adds {B : Builder} (hw : Wf B) (hval : B.Usable B.val) (body out : BlockId) :
    Adds B (B.enterBody body out) True := by
  refine Adds.same ?_ (setInBranch_fn _ _)
  refine Adds.same ?_ (setInsertPoint_fn _ _)
  exact (truth_adds hw hval).then (createCondBr_adds (truth_grows B hw).1 _ _ _)

/-- When the code of an expression and of the use of its value takes all comparisons right. -/
theorem visitAt_adds {p : Place} {e : Ast .expression} {B B' : Builder}
    (h : visitAt e B p = .ok B') (hr : Ready B) : Adds B B' (mixesAt e B p = false) := by
  have hvisit : ∀ B₁, visit e B = .ok B₁ →
      Adds B B₁ (e.mixes B [] = false) ∧ Step B B₁ ∧ B₁.Usable B₁.val := by
    intro B₁ h₁
    have hadds := (visit_adds e (.inl rfl) B B₁ h₁ hr).1
    rw [mixes_params rfl] at hadds
    exact ⟨hadds, visit_step rfl h₁ hr, (visit_type e rfl B B₁ h₁ hr).1⟩
  cases p with
  | statement => exact (hvisit B' h).1
  | returned =>
    obtain ⟨B₁, h₁, h₂⟩ := bind_ok.mp h
    obtain ⟨hadds, hs, hval⟩ := hvisit B₁ h₁
    have hreturn := finishReturn_adds hs.ready hval h₂
    rw [typeOf_eq_int1 hval (visit_type e rfl B B₁ h₁ hr).2, hs.keeps.returnType] at hreturn
    refine (hadds.trans hreturn).congr ?_
    simp only [mixesAt, Bool.or_eq_false_iff, Bool.and_eq_false_iff, decide_eq_false_iff_not,
      not_and_or]
  | selection =>
    obtain ⟨B₁, h₁, h₂⟩ := bind_ok.mp h
    obtain ⟨hadds, hs, hval⟩ := hvisit B₁ h₁
    cases h₂
    exact hadds.right (openSelection_adds hs.ready.wf hval)
  | selectionElse =>
    obtain ⟨B₁, h₁, h₂⟩ := bind_ok.mp h
    obtain ⟨hadds, hs, hval⟩ := hvisit B₁ h₁
    cases h₂
    exact hadds.right (openSelectionElse_adds hs.ready.wf hval)
  | iteration body out =>
    obtain ⟨B₁, h₁, h₂⟩ := bind_ok.mp h
    obtain ⟨hadds, hs, hval⟩ := hvisit B₁ h₁
    cases h₂
    exact hadds.right (enterBody_adds hs.ready.wf hval body out)

/-- **Every use of a comparison in the code of an expression takes it for 1 or 0, exactly when no
comparison is converted to `float`.** -/
theorem comparisons_iff {p : Place} {e : Ast .expression} {B B' : Builder} {F : Func}
    (h : visitAt e B p = .ok B') (hr : Ready B) (hF : Extends B'.fn F) :
    (∀ i, B.fn.next ≤ i → i < B'.fn.next → TakesRight F i) ↔ mixesAt e B p = false :=
  (visitAt_adds h hr).2 F hF

/-- `x = 1 < 2`. -/
def assignLess : Ast .expression :=
  .assign (.ident "x") (.relation (.term (.factor (.intNum 1))) .lt (.term (.factor (.intNum 2))))

theorem comparisons_iff_int :
    ∃ B B', openMain [⟨.int, "x", none⟩] = .ok B ∧ visitAt assignLess B .statement = .ok B' ∧
      ∀ i, B.fn.next ≤ i → i < B'.fn.next → TakesRight B'.fn i :=
  ⟨_, _, rfl, rfl, (comparisons_iff (p := .statement) (e := assignLess) rfl
    (@openMain_ready [⟨.int, "x", none⟩] _ rfl) (Extends.refl _)).mpr (by decide +kernel)⟩

/-- A `float` variable is set to −1.0 by a comparison that holds. -/
theorem float_takes_wrong :
    ∃ B B', openMain [⟨.float, "x", none⟩] = .ok B ∧ visitAt assignLess B .statement = .ok B' ∧
      ¬ ∀ i, B.fn.next ≤ i → i < B'.fn.next → TakesRight B'.fn i := by
  obtain ⟨B, hB⟩ : ∃ B, openMain [⟨.float, "x", none⟩] = .ok B := ⟨_, rfl⟩
  have hvisit : ∃ B', visitAt assignLess B .statement = .ok B' ∧
      mixesAt assignLess B .statement = true := by
    cases hB
    exact ⟨_, rfl, by decide +kernel⟩
  obtain ⟨B', hB', hmixes⟩ := hvisit
  refine ⟨B, B', hB, hB', fun hall => ?_⟩
  have hnot := ((visitAt_adds hB' (openMain_ready hB)).2 B'.fn (Extends.refl _)).mp hall
  rw [hmixes] at hnot
  cases hnot

end Cminusfc.Frontend
