import Cminusfc.Frontend.Formed
import Cminusfc.Frontend.Flags
import Cminusfc.Frontend.Reach

/-!
# Values at the insert point

`Placed p Q B`: the builder adds to the insert block, which has no terminator yet, and neither have
the blocks `Q` that wait for the visitor. The definitions of what is in scope stand above the insert
block.

* `Stands p B v`: the definition of `v` stands above the insert point. `Rand` is no scalar alloca in
  addition, `Target` is what may be loaded from and stored to.
* A pointer to a pointer is a variable or an element: `Ty.depth` counts the pointers in a type.

One lemma for each piece of code that a visit of an expression puts together: it is `Onward`, below
the insert block it started from.

About the expressions of `src/cminusfc/cminusf_builder.cpp` 275-407.
-/

namespace Cminusfc.LightIR.Ty

/-- The pointers of a type. -/
def depth : Ty → Nat
  | .pointer t => t.depth + 1
  | .array t _ => t.depth
  | _ => 0

end Cminusfc.LightIR.Ty

namespace Cminusfc.Frontend

open LightIR
open Dominance (Ancestor Nested)
open Fallible (bind_ok)
open Builder

variable {p p' p'' : BlockId → BlockId} {Q : Set BlockId} {B B' B₁ B₂ B₃ : Builder} {v w : Value}
  {op : OpID} {ty : Ty} {l : List Value} {c : CmpOp}

/-! ## Values -/

/-- A value that can be used at the insert point. -/
structure Stands (p : BlockId → BlockId) (B : Builder) (v : Value) : Prop where
  defined : Defined p B.fn B.bb v
  noBlock : v.asBlock = none
  depth : (B.typeOf v).depth ≤ 2
  address : (B.typeOf v).depth = 2 → Addressable B.fn v

/-- An operand other than the address of a load or a store. -/
structure Rand (p : BlockId → BlockId) (B : Builder) (v : Value) : Prop extends Stands p B v where
  cell : B.fn.cell v = none

/-- The address of a load or a store. -/
structure Target (p : BlockId → BlockId) (B : Builder) (v : Value) : Prop extends Stands p B v where
  target : (B.typeOf v).isPointer = true → Addressable B.fn v

/-- The builder at an insert block without a terminator. -/
structure Placed (p : BlockId → BlockId) (Q : Set BlockId) (B : Builder) : Prop where
  wf : Wf B
  formed : Formed p (insert B.bb Q) B.fn
  apart : B.bb ∉ Q
  globals : ∀ q ∈ B.globals, q.2.depth = 0
  types : ∀ q ∈ B.types, q.2.ret.depth = 0
  scope : ∀ m ∈ B.scope, ∀ q ∈ m, Target p B q.2
  args : ∀ v ∈ B.frame.args, Rand p B v

/-- From `B` to `B'`, whose insert block is below that of `B`. -/
structure Leads (p : BlockId → BlockId) (B : Builder) (p' : BlockId → BlockId) (B' : Builder) :
    Prop where
  parents : ∀ b ∈ B.fn.blocks, p' b = p b
  under : Ancestor p' B.fn.entry B.bb B'.bb
  ext : Extends B.fn B'.fn
  globals : B'.globals = B.globals

/-- A step of the builder to a place below. -/
structure Onward (p : BlockId → BlockId) (Q : Set BlockId) (B : Builder) (p' : BlockId → BlockId)
    (B' : Builder) : Prop where
  placed : Placed p' Q B'
  leads : Leads p B p' B'

theorem Placed.mem (h : Placed p Q B) : B.bb ∈ B.fn.blocks :=
  (h.formed.unended _ (Set.mem_insert _ _)).1

theorem Leads.refl (p : BlockId → BlockId) (B : Builder) : Leads p B p B :=
  ⟨fun _ _ => rfl, .refl, Extends.refl _, rfl⟩

theorem Extends.mem_blocks {f g : Func} (h : Extends f g) {b : BlockId} (hb : b ∈ f.blocks) :
    b ∈ g.blocks := by
  rcases List.mem_cons.mp hb with rfl | hb
  · exact h.entry ▸ List.mem_cons_self
  · exact List.mem_cons_of_mem _ (h.rest.subset hb)

theorem Leads.trans {Q' : Set BlockId} (hB' : Placed p' Q' B₂) (h : Leads p B₁ p' B₂)
    (h' : Leads p' B₂ p'' B₃) : Leads p B₁ p'' B₃ where
  parents b hb := (h'.parents b (h.ext.mem_blocks hb)).trans (h.parents b hb)
  under := by
    have hup := h'.under
    rw [h.ext.entry] at hup
    refine Ancestor.trans ?_ hup
    have htree := hB'.formed.tree
    rw [h.ext.entry] at htree
    exact h.under.mono htree h'.parents hB'.mem
  ext := h.ext.trans h'.ext
  globals := h'.globals.trans h.globals

theorem Onward.trans (h : Onward p Q B₁ p' B₂) (h' : Onward p' Q B₂ p'' B₃) :
    Onward p Q B₁ p'' B₃ := ⟨h'.placed, h.leads.trans h.placed h'.leads⟩

/-- What is defined has been created. -/
theorem Defined.known {b : BlockId} (h : Defined p B.fn b v) (hw : Wf B) : B.Known v := by
  intro i hi
  obtain ⟨a, -, hmem⟩ := h i hi
  exact hw.body a i hmem

section Leads

variable (hB : Placed p Q B) (hl : Leads p B p' B')

include hB hl

theorem Stands.mono (h : Stands p B v) : Stands p' B' v where
  defined := (h.defined.mono hB.formed hB.mem hl.parents hl.ext).above
    (by rw [hl.ext.entry]; exact hl.under)
  noBlock := h.noBlock
  depth := by rw [(h.defined.known hB.wf).typeOf hl.ext hl.globals]; exact h.depth
  address hd := by
    rw [(h.defined.known hB.wf).typeOf hl.ext hl.globals] at hd
    exact (h.address hd).mono fun i hi => hl.ext.instr i (h.defined.known hB.wf i hi)

theorem Rand.mono (h : Rand p B v) : Rand p' B' v where
  toStands := h.toStands.mono hB hl
  cell := by
    rw [cell_eq fun i hi => hl.ext.instr i (h.defined.known hB.wf i hi)]
    exact h.cell

theorem Target.mono (h : Target p B v) : Target p' B' v where
  toStands := h.toStands.mono hB hl
  target hp := by
    rw [(h.defined.known hB.wf).typeOf hl.ext hl.globals] at hp
    exact (h.target hp).mono fun i hi => hl.ext.instr i (h.defined.known hB.wf i hi)

/-- The declarations stay as they are. -/
theorem Placed.next {Q' : Set BlockId} (hw : Wf B') (hF : Formed p' (insert B'.bb Q') B'.fn)
    (hapart : B'.bb ∉ Q') (hk : Keeps B B') : Placed p' Q' B' where
  wf := hw
  formed := hF
  apart := hapart
  globals := by rw [hk.globals]; exact hB.globals
  types := by rw [hk.types]; exact hB.types
  scope m hm q hq := (hB.scope m (hk.scope ▸ hm) q hq).mono hB hl
  args v hv := (hB.args v (hk.frame ▸ hv)).mono hB hl

end Leads

/-- Only the function and the declarations matter. -/
theorem Placed.same (h : Placed p Q B) (hfn : B'.fn = B.fn) (hbb : B'.bb = B.bb) (hk : Keeps B B') :
    Onward p Q B p B' := by
  have hl : Leads p B p B' := ⟨fun _ _ => rfl, hbb ▸ .refl, hfn ▸ Extends.refl _, hk.globals⟩
  refine ⟨h.next hl ?_ (by rw [hfn, hbb]; exact h.formed) (hbb ▸ h.apart) hk, hl⟩
  exact (Grows.of_same hfn hbb h.wf).1

theorem setVal_onward (hB : Placed p Q B) (v : Value) : Onward p Q B p (B.setVal v) :=
  hB.same rfl rfl (setVal_keeps _ _)

theorem Rand.const (hconst : ∀ i, v ≠ .instr i) (hblock : v.asBlock = none)
    (hd : (B.typeOf v).depth ≤ 1) : Rand p B v where
  defined j hj := absurd hj (hconst j)
  noBlock := hblock
  depth := Nat.le_succ_of_le hd
  address h := absurd (h ▸ hd) (by decide)
  cell := by
    cases v with
    | instr i => exact absurd rfl (hconst i)
    | _ => rfl

theorem rand_int32 (i : BitVec 32) : Rand p B (.int32 i) := .const nofun rfl (Nat.zero_le _)

theorem rand_fp (x : BitVec 32) : Rand p B (.fp x) := .const nofun rfl (Nat.zero_le _)

/-- What has no pointer type is no alloca. -/
theorem Stands.rand (hB : Placed p Q B) (h : Stands p B v)
    (hty : ∀ e, (B.typeOf v).pointerElementType = some e → e.isArray = true) : Rand p B v := by
  refine ⟨h, ?_⟩
  cases v with
  | instr i =>
    obtain ⟨a, -, hmem⟩ := h.defined i rfl
    unfold Func.cell
    refine if_neg ?_
    rintro ⟨hop, hne⟩
    have hptr := (hB.formed.proper a i hmem).alloca hop
    have htype : B.typeOf (.instr i) = (B.fn.instr i).ty := rfl
    cases ht : (B.fn.instr i).ty with
    | pointer e =>
      rw [ht] at htype hne
      exact hne (by rw [Ty.pointerElementType, Option.map_some, hty e (by rw [htype]; rfl)])
    | _ =>
      rw [ht] at hptr
      cases hptr.2
  | _ => rfl

/-! ## Another instruction -/

/-- Instructions other than memory accesses and terminators. -/
def ordinary (op : OpID) : Bool :=
  op ≠ .ret && op ≠ .br && op ≠ .alloca && op ≠ .load && op ≠ .store && op ≠ .phi

theorem ordinary_proper (hop : ordinary op = true) (hl : ∀ v ∈ l, B.fn.cell v = none)
    (b : BlockId) : Proper B.fn { op := op, ty := ty, operands := l, parent := b, cmpOp := c } := by
  have hne : op ≠ .alloca ∧ op ≠ .load ∧ op ≠ .store ∧ op ≠ .phi := by
    revert hop
    cases op <;> decide
  obtain ⟨halloca, hload, hstore, hphi⟩ := hne
  refine ⟨hphi, fun h => absurd h hload, fun h => absurd h hstore, fun h => absurd h halloca, ?_⟩
  intro no v hv hcell
  rw [hl v (List.mem_of_getElem? hv)] at hcell
  cases hcell

theorem ordinary_terminator (hop : ordinary op = true) (b : BlockId) :
    ({ op := op, ty := ty, operands := l, parent := b, cmpOp := c } : Instr).isTerminator = false := by
  revert hop
  cases op <;> simp [ordinary, Instr.isTerminator]

section Emit

variable (hB : Placed p Q B)

include hB

/-- An instruction that is no terminator. -/
theorem Placed.emit {x : Instr} (hterm : x.isTerminator = false)
    (hops : ∀ v ∈ x.operands, Defined p B.fn B.bb v) (hx : Proper B.fn x) :
    Onward p Q B p (B.emit x) := by
  obtain ⟨hw, hext⟩ := B.emit_grows x hB.wf
  have hl : Leads p B p (B.emit x) := ⟨fun _ _ => rfl, .refl, hext, rfl⟩
  have hcfg := B.emit_fn_toCfg x
  have hbr : x.op ≠ .br := by
    intro hop
    rw [Instr.isTerminator, hop] at hterm
    cases hterm
  have htargets : ({ x with parent := B.bb } : Instr).targets = [] := by
    rw [Instr.targets, if_neg hbr]
  have hF := @Formed.emit p (insert B.bb Q) B.fn (B.emit x).fn B.bb { x with parent := B.bb }
    hB.formed hB.wf.body (B.fn.appends _ B.bb) (Set.mem_insert _ _)
    (fun a d => by rw [congrArg Cfg.succ hcfg, htargets]; simp) rfl
    (fun d hd => by rw [htargets] at hd; cases hd) hops
    ⟨hx.op, hx.load, hx.store, hx.alloca, hx.scalars⟩
  have hnot : ¬ ({ x with parent := B.bb } : Instr).isTerminator = true := by
    show ¬ x.isTerminator = true
    rw [hterm]
    exact Bool.false_ne_true
  rw [if_neg hnot] at hF
  exact ⟨hB.next hl hw hF hB.apart (B.emit_keeps x), hl⟩

theorem Placed.create
    (hterm : Instr.isTerminator { op := op, ty := ty, operands := l, parent := B.bb, cmpOp := c } =
      false) (hops : ∀ v ∈ l, Defined p B.fn B.bb v)
    (hx : Proper B.fn { op := op, ty := ty, operands := l, parent := B.bb, cmpOp := c }) :
    Onward p Q B p (B.create op ty l c) := by
  have hemit := hB.emit hterm hops hx
  exact hemit.trans (setVal_onward hemit.placed _)

/-- An instruction that computes a value. -/
theorem Placed.ordinary (hop : ordinary op = true) (hl : ∀ v ∈ l, Rand p B v) :
    Onward p Q B p (B.create op ty l c) :=
  hB.create (ordinary_terminator hop _) (fun v hv => (hl v hv).defined)
    (ordinary_proper hop (fun v hv => (hl v hv).cell) _)

end Emit

/-- The value of an instruction. -/
theorem create_rand (hop : op ≠ .alloca) (hd : ty.depth ≤ 1 ∨ op = .getelementptr ∧ ty.depth ≤ 2) :
    Rand p (B.create op ty l c) (B.create op ty l c).val where
  defined := by
    rintro j ⟨⟩
    refine ⟨B.bb, .refl, ?_⟩
    rw [create_fn_body, Function.update_self]
    exact List.mem_append_right _ (List.mem_singleton_self _)
  noBlock := rfl
  depth := by
    rw [create_type]
    rcases hd with hd | ⟨-, hd⟩
    · exact Nat.le_succ_of_le hd
    · exact hd
  address h := by
    rw [create_type] at h
    rcases hd with hd | ⟨rfl, -⟩
    · rw [h] at hd
      exact absurd hd (by decide)
    · refine .inr (.inl ?_)
      simp [Func.isGep]
  cell := by
    rw [create_val, Func.cell, create_fn_instr, Function.update_self]
    exact if_neg fun h => hop h.1

theorem depth_pointee {t e : Ty} (h : t.pointerElementType = some e) : t.depth = e.depth + 1 := by
  cases t <;> cases h
  rfl

theorem elementType_depth {idxs : List Value} {e t : Ty} (h : elementType idxs e = some t) :
    t.depth ≤ e.depth := by
  unfold elementType at h
  split at h
  · cases h
    split_ifs
    · exact Nat.le_refl _
    · exact Nat.le_refl _
  · split_ifs at h
    cases h
    exact Nat.le_refl _

/-- What a conversion of a pointer is. -/
theorem convert_pointer {n : Value} {e : Ty} (h : B.convert n ty = .ok B')
    (he : (B.typeOf n).pointerElementType = some e) :
    e.isArray = true ∧ B.createGep n [.int32 0, .int32 0] = .ok B' ∨
      e.isPointer = true ∧ B.createLoad n = .ok B' := by
  cases ht : B.typeOf n with
  | pointer e' =>
    rw [ht] at he
    cases he
    unfold Builder.convert at h
    simp only [ht, Ty.isInteger, Ty.isFloat, Ty.pointerElementType, Bool.false_and, Bool.or_false,
      Bool.false_eq_true, if_false] at h
    split_ifs at h with harray hptr
    · exact .inl ⟨(Bool.and_eq_true_iff.mp harray).1, h⟩
    · exact .inr ⟨(Bool.and_eq_true_iff.mp hptr).1, h⟩
  | _ =>
    rw [ht] at he
    cases he

theorem depth_of_numeric {t : Ty} (h : t.isInteger = true ∨ t.isFloat = true) : t.depth = 0 := by
  cases t <;> simp_all [Ty.isInteger, Ty.isFloat, Ty.depth]

/-- A value to go on with, and the step that leads to it. -/
structure Gives (p : BlockId → BlockId) (Q : Set BlockId) (B : Builder) (p' : BlockId → BlockId)
    (B' : Builder) : Prop extends Onward p Q B p' B' where
  rand : Rand p' B' B'.val

theorem Gives.after (h : Gives p' Q B₂ p'' B₃) (h' : Onward p Q B₁ p' B₂) : Gives p Q B₁ p'' B₃ :=
  ⟨h'.trans h.toOnward, h.rand⟩

section Emit

variable (hB : Placed p Q B)

include hB

/-- The value of an operation. -/
theorem Placed.operation (hop : Frontend.ordinary op = true) (hl : ∀ v ∈ l, Rand p B v)
    (hd : ty.depth ≤ 1) : Gives p Q B p (B.create op ty l c) := by
  refine ⟨hB.ordinary hop hl, create_rand ?_ (.inl hd)⟩
  rintro rfl
  cases hop

theorem Placed.load {ptr : Value} (h : B.createLoad ptr = .ok B') (hptr : Stands p B ptr)
    (ha : Addressable B.fn ptr) : Gives p Q B p B' := by
  obtain ⟨t, ht, rfl⟩ := createLoad_ok h
  have hd := hptr.depth
  rw [ht] at hd
  refine ⟨hB.create rfl (fun v hv => ?_) ⟨nofun, fun _ => ⟨ptr, rfl, ha⟩, nofun, nofun, ?_⟩,
    create_rand nofun (.inl (Nat.le_of_succ_le_succ hd))⟩
  · obtain rfl := List.mem_singleton.mp hv
    exact hptr.defined
  · intro no v hv _
    obtain ⟨hno, -⟩ := List.getElem?_eq_some_iff.mp hv
    exact .inl ⟨rfl, Nat.lt_one_iff.mp hno⟩

theorem Placed.gep {ptr : Value} {idxs : List Value} (h : B.createGep ptr idxs = .ok B')
    (hptr : Rand p B ptr) (hidxs : ∀ v ∈ idxs, Rand p B v) : Gives p Q B p B' := by
  obtain ⟨e, t, he, ht, rfl⟩ := createGep_ok h
  refine ⟨hB.ordinary rfl ?_, create_rand nofun (.inr ⟨rfl, ?_⟩)⟩
  · intro v hv
    rcases List.mem_cons.mp hv with rfl | hv
    · exact hptr
    · exact hidxs v hv
  · have hd := hptr.depth
    rw [depth_pointee he] at hd
    exact Nat.le_trans (Nat.succ_le_succ (elementType_depth ht)) hd

/-- A converted value. -/
theorem Placed.convert {n : Value} (h : B.convert n ty = .ok B') (hn : Stands p B n) :
    Gives p Q B p B' := by
  cases he : (B.typeOf n).pointerElementType with
  | some e =>
    rcases convert_pointer h he with ⟨harray, h⟩ | ⟨hptr, h⟩
    · refine hB.gep h (hn.rand hB fun e' he' => ?_) fun v hv => ?_
      · rw [he] at he'
        cases he'
        exact harray
      · simp only [List.mem_cons, List.not_mem_nil, or_false, or_self] at hv
        rw [hv]
        exact rand_int32 _
    · refine hB.load h hn (hn.address ?_)
      have hd := hn.depth
      rw [depth_pointee he] at hd ⊢
      cases e with
      | pointer e' =>
        have hd' : e'.depth = 0 := by
          simp only [Ty.depth] at hd
          omega
        simp only [Ty.depth, hd']
      | _ => cases hptr
  | none =>
    have hrand : Rand p B n := hn.rand hB fun e he' => by rw [he] at he'; cases he'
    rcases convert_ok h with ⟨rfl, -, -⟩ | ⟨op, rfl, hop⟩ | ⟨e, he', -, -⟩
    · have hsame := setVal_onward hB n
      exact ⟨hsame, hrand.mono hB hsame.leads⟩
    · refine hB.operation ?_ ?_ ?_
      · rcases hop with ⟨rfl, -⟩ | ⟨rfl, -⟩ | ⟨rfl, -⟩ <;> rfl
      · intro v hv
        obtain rfl := List.mem_singleton.mp hv
        exact hrand
      · have hnum : ty.isInteger = true ∨ ty.isFloat = true := by
          rcases hop with ⟨-, ⟨-, h⟩ | ⟨-, h⟩, -⟩ | ⟨-, -, h⟩ | ⟨-, -, h⟩
          · exact .inl h
          · exact .inr h
          · exact .inr h
          · exact .inl h
        rw [depth_of_numeric hnum]
        exact Nat.zero_le _
    · rw [he] at he'
      cases he'

/-- A binary operation behind its operands. -/
theorem Placed.binary {intOp floatOp : OpID} {intTy floatTy : Ty} {lhs rhs : Value}
    (h : B.binary intOp floatOp intTy floatTy c lhs rhs = .ok B') (hl : Stands p B lhs)
    (hr : Stands p B rhs) (hops : Frontend.ordinary intOp = true ∧ Frontend.ordinary floatOp = true)
    (htys : intTy.depth ≤ 1 ∧ floatTy.depth ≤ 1) : Gives p Q B p B' := by
  obtain ⟨t, op, ty, B₁, B₂, h₁, h₂, rfl, hcase⟩ := binary_ok h
  have hl' := hB.convert h₁ hl
  have hr' := hl'.placed.convert h₂ (hr.mono hB hl'.leads)
  have hcase' : Frontend.ordinary op = true ∧ ty.depth ≤ 1 := by
    rcases hcase with ⟨-, -, rfl, rfl⟩ | ⟨-, -, rfl, rfl⟩
    · exact ⟨hops.1, htys.1⟩
    · exact ⟨hops.2, htys.2⟩
  refine (hr'.placed.operation hcase'.1 (fun v hv => ?_) hcase'.2).after
    (hl'.toOnward.trans hr'.toOnward)
  rcases List.mem_cons.mp hv with rfl | hv
  · exact hl'.rand.mono hl'.placed hr'.leads
  · obtain rfl := List.mem_singleton.mp hv
    exact hr'.rand

/-- The test of a condition. -/
theorem Placed.truth (hval : Rand p B B.val) : Gives p Q B p B.truth := by
  have htwo : ∀ w, Rand p B w → ∀ v ∈ [B.val, w], Rand p B v := by
    intro w hw v hv
    rcases List.mem_cons.mp hv with rfl | hv
    · exact hval
    · obtain rfl := List.mem_singleton.mp hv
      exact hw
  unfold Builder.truth
  dsimp only
  split_ifs
  · exact hB.operation rfl (htwo _ (rand_int32 _)) (Nat.zero_le _)
  · exact hB.operation rfl (htwo _ (rand_fp _)) (Nat.zero_le _)
  · exact ⟨⟨hB, .refl p B⟩, hval⟩

end Emit

end Cminusfc.Frontend
