import Mathlib.Data.List.Forall2
import Cminusfc.Codegen.CodegenSpec

/-!
# What the routines of the code generator print

One account of every routine, kept along its steps: the text it adds, the float constants it
appends to `local_floats` with the labels it refers to them by, and when the immediates of the text
are in range.

* `InRange c`: the immediates of `addi`, `andi`, `xori`, loads and stores are 12-bit, that of `lui`
  is 20-bit. A shift amount is not looked at.
* `Emits f s s' cs cond`: from `s` to `s'` the constants `cs` are appended, and the text added is in
  range exactly when `cond` holds.
* `Bounded s`: the frame is small enough for its size and its slots to be immediates.

Results:
* `assign_emits`, `save_emits`, …: the routines one by one.
* `genInstr_emits`: **an instruction**, by `assigned`, the operands that are assigned to registers,
  and `Reachable`, the offset of a constant-indexed access.

About all routines of `src/codegen/codegen.cpp` 111-740. Out of scope: what the lines do.
-/

namespace Cminusfc.Codegen

open Cminusfc.LightIR
open Fallible (bind_ok)
open RegAlloc (hasFcalls typeOf)

/-! ## Lines -/

/-- The immediate of a line is in its range. -/
def InRange : Code → Prop
  | .opImm .slli _ _ _ => True
  | .opImm _ _ _ i => isImm i = true
  | .lui _ i => 0 ≤ i ∧ i ≤ 1048575
  | .load _ _ i _ => isImm i = true
  | .store _ _ i _ => isImm i = true
  | _ => True

instance (c : Code) : Decidable (InRange c) := by
  unfold InRange
  split <;> infer_instance

/-- The label of a float constant; no name of the source starts with a dot. -/
def isLabel (l : String) : Bool := l.toList.take 3 = ['.', 'L', 'C']

/-- The label that a line loads the address of, if it is that of a float constant. -/
def labelOf : Code → Option String
  | .la _ l => if isLabel l then some l else none
  | _ => none

/-- The labels of float constants in a text, in order. -/
def floatLabels (cs : List Code) : List String := cs.filterMap labelOf

/-- The labels of `k` constants from number `n` on. -/
def labelsFrom (n k : Nat) : List String := (List.range' n k).map fun i => ".LC" ++ toString i

theorem isLabel_constant (i : Nat) : isLabel (".LC" ++ toString i) = true := by
  simp [isLabel, String.toList_append]

theorem labelsFrom_append (n k k' : Nat) :
    labelsFrom n (k + k') = labelsFrom n k ++ labelsFrom (n + k) k' := by
  rw [labelsFrom, labelsFrom, labelsFrom, ← List.map_append, List.range'_append_1]

/-- No global that an instruction names is taken for a float constant. -/
def Named (f : Func) : Prop :=
  ∀ i, ∀ v ∈ (f.instr i).operands, ∀ n, asGlobal v = some n → isLabel n = false

/-! ## States -/

/-- Constants have no registers. -/
def NoConst (s : St) : Prop :=
  ∀ v, (s.regMapping v).isSome = true → asConstantInt v = none ∧ asConstantFP v = none

/-- The slots and the save slots lie at most 2048 bytes below `s0`, and the size of the frame is an
immediate. -/
structure Bounded (s : St) : Prop where
  slots : ∀ v, -2048 ≤ s.stackAt v ∧ s.stackAt v ≤ 0
  saves : ∀ r, isImm (s.offsetAt r) = true
  frame : 8 ≤ s.stackSize ∧ s.stackSize ≤ 2047

/-- The text from `s` to `s'`, the float constants appended, and when the text is in range. -/
structure Emits (s s' : St) (cs : List (BitVec 32)) (cond : Prop) : Prop where
  text : ∃ text, s'.ss = s.ss ++ text ∧
    floatLabels text = labelsFrom s.localFloats.length cs.length ∧
      (Bounded s → ((∀ c ∈ text, InRange c) ↔ cond))
  floats : s'.localFloats = s.localFloats ++ cs
  stackSize : s'.stackSize = s.stackSize
  stackAt : s'.stackAt = s.stackAt
  offsetAt : s'.offsetAt = s.offsetAt
  noConst : NoConst s → NoConst s'

namespace Emits

variable {s s₁ s' : St} {cs cs' : List (BitVec 32)} {c c' : Prop}

theorem bounded (h : Emits s s' cs c) (hb : Bounded s) : Bounded s' := by
  refine ⟨?_, ?_, ?_⟩
  · rw [h.stackAt]
    exact hb.slots
  · rw [h.offsetAt]
    exact hb.saves
  · rw [h.stackSize]
    exact hb.frame

theorem trans (h : Emits s s₁ cs c) (h' : Emits s₁ s' cs' c') :
    Emits s s' (cs ++ cs') (c ∧ c') := by
  obtain ⟨t, ht, hl, hr⟩ := h.text
  obtain ⟨t', ht', hl', hr'⟩ := h'.text
  refine ⟨⟨t ++ t', ?_, ?_, fun hb => ?_⟩, ?_, h'.stackSize.trans h.stackSize,
    h'.stackAt.trans h.stackAt, h'.offsetAt.trans h.offsetAt, fun hk => h'.noConst (h.noConst hk)⟩
  · rw [ht', ht, List.append_assoc]
  · have happend : floatLabels (t ++ t') = floatLabels t ++ floatLabels t' :=
      List.filterMap_append
    rw [happend, hl, hl', h.floats, List.length_append, List.length_append, ← labelsFrom_append]
  · rw [← hr hb, ← hr' (h.bounded hb), List.forall_mem_append]
  · rw [h'.floats, h.floats, List.append_assoc]

theorem congr (h : Emits s s' cs c) (hcs : cs = cs') (hc : Bounded s → (c ↔ c')) :
    Emits s s' cs' c' := by
  subst hcs
  obtain ⟨t, ht, hl, hr⟩ := h.text
  exact ⟨⟨t, ht, hl, fun hb => (hr hb).trans (hc hb)⟩, h.floats, h.stackSize, h.stackAt,
    h.offsetAt, h.noConst⟩

/-- Two pieces, where the second appends no constant and is in range. -/
theorem andThen (h : Emits s s₁ cs c) (h' : Emits s₁ s' [] True) : Emits s s' cs c :=
  (h.trans h').congr (List.append_nil _) fun _ => and_iff_left trivial

/-- Two pieces, where the first appends no constant and is in range. -/
theorem after (h : Emits s s₁ [] True) (h' : Emits s₁ s' cs c) : Emits s s' cs c :=
  (h.trans h').congr (List.nil_append _) fun _ => and_iff_right trivial

/-- Two pieces without constants. -/
theorem both (h : Emits s s₁ [] c) (h' : Emits s₁ s' [] c') : Emits s s' [] (c ∧ c') := h.trans h'

/-- A change of members that leaves text, constants and slots. -/
theorem of_members (hss : s'.ss = s.ss) (hfloats : s'.localFloats = s.localFloats)
    (hsize : s'.stackSize = s.stackSize) (hstack : s'.stackAt = s.stackAt)
    (hoffset : s'.offsetAt = s.offsetAt) (hconst : NoConst s → NoConst s') :
    Emits s s' [] True := by
  refine ⟨⟨[], ?_, ?_, fun _ => ?_⟩, ?_, hsize, hstack, hoffset, hconst⟩
  · rw [hss, List.append_nil]
  · rfl
  · simp
  · rw [hfloats, List.append_nil]

theorem refl (s : St) : Emits s s [] True := of_members rfl rfl rfl rfl rfl id

theorem put {i : Code} (hl : labelOf i = none) : Emits s (s.put i) [] (InRange i) := by
  refine ⟨⟨[i], rfl, ?_, fun _ => ?_⟩, ?_, rfl, rfl, rfl, id⟩
  · simp [floatLabels, hl, labelsFrom]
  · simp
  · exact (List.append_nil _).symm

theorem erase (s : St) (r : Reg) : Emits s (s.erase r) [] True :=
  of_members rfl rfl rfl rfl rfl id

theorem insert (s : St) (r : Reg) : Emits s (s.insert r) [] True :=
  of_members rfl rfl rfl rfl rfl id

theorem setFresh (s : St) (r : Reg) (b : Bool) : Emits s (s.setFresh r b) [] True :=
  of_members rfl rfl rfl rfl rfl id

theorem touchStack (s : St) (v : Value) : Emits s (s.touchStack v) [] True := by
  refine of_members rfl rfl rfl ?_ rfl id
  funext w
  by_cases hw : w = v
  · subst hw
    simp [St.stackAt, St.touchStack]
  · simp [St.stackAt, St.touchStack, hw]

theorem touchOffset (s : St) (r : Reg) : Emits s (s.touchOffset r) [] True := by
  refine of_members rfl rfl rfl rfl ?_ id
  funext q
  by_cases hq : q = r
  · subst hq
    simp [St.offsetAt, St.touchOffset]
  · simp [St.offsetAt, St.touchOffset, hq]

/-- An entry of a value that is no constant. -/
theorem mapReg (s : St) {v : Value} (hv : asConstantInt v = none) (hv' : asConstantFP v = none)
    (r : RegRef) :
    Emits s { s with regMapping := Function.update s.regMapping v (some r) } [] True := by
  refine of_members rfl rfl rfl rfl rfl fun hk w hw => ?_
  by_cases hwv : w = v
  · subst hwv
    exact ⟨hv, hv'⟩
  · have hsome : (Function.update s.regMapping v (some r) w).isSome = true := hw
    rw [Function.update_of_ne hwv] at hsome
    exact hk w hsome

theorem touchReg (s : St) {v : Value} (hv : asConstantInt v = none)
    (hv' : asConstantFP v = none) : Emits s (s.touchReg v) [] True := mapReg s hv hv' _

end Emits

/-! ## Printing -/

section

variable {f : Func} {s s' : St} {dst src : RegRef} {v : Value}

theorem print_emits {cond : Bool} {rs : List RegRef} {c : Code}
    (h : print (Instgen.line cond rs c) s = .ok s') (hl : labelOf c = none) :
    Emits s s' [] (InRange c) := by
  obtain ⟨-, rfl⟩ := print_line h
  exact .put hl

/-- A line without an immediate, or with one that is in range. -/
theorem print_fine {cond : Bool} {rs : List RegRef} {c : Code}
    (h : print (Instgen.line cond rs c) s = .ok s') (hl : labelOf c = none) (hc : InRange c) :
    Emits s s' [] True :=
  (print_emits h hl).congr rfl fun _ => iff_true_intro hc

theorem la_emits {n : String} (h : print (Instgen.la dst n) s = .ok s') (hn : isLabel n = false) :
    Emits s s' [] True :=
  print_fine h (by simp [labelOf, hn]) trivial

theorem save_emits (h : save f dst s = .ok s') : Emits s s' [] True := by
  have hfree := (Emits.erase s dst.reg).after (Emits.setFresh (s.erase dst.reg) dst.reg true)
  unfold save at h
  dsimp only at h
  split_ifs at h
  · cases h
    exact hfree
  · exact hfree.after ((print_emits h rfl).congr rfl fun hb => iff_true_intro (hb.saves dst.reg))
  · exact hfree.after ((print_emits h rfl).congr rfl fun hb => iff_true_intro (hb.saves dst.reg))

/-! ## Moving values -/

/-- The constants whose parts are in range. -/
def ConstOk (v : Value) : Prop := ∀ i, asConstantInt v = some i → -2048 ≤ i

instance (v : Value) : Decidable (ConstOk v) := by
  unfold ConstOk
  cases h : asConstantInt v with
  | none => exact .isTrue nofun
  | some c => exact decidable_of_iff (-2048 ≤ c) ⟨fun hc i hi => by cases hi; exact hc, fun hc => hc c rfl⟩

/-- A constant is a signed 32-bit integer. -/
theorem asConstantInt_fits {i : Int} (h : asConstantInt v = some i) : Riscv.Fits i := by
  cases v with
  | int32 b =>
    cases h
    exact Riscv.fits_toInt b
  | int1 b =>
    cases h
    cases b <;> decide
  | _ => cases h

/-- The float constant that `assign` loads. -/
def floatOf (v : Value) : List (BitVec 32) := (asConstantFP v).toList

theorem floatOf_int {i : Int} (h : asConstantInt v = some i) : floatOf v = [] := by
  cases v <;> simp_all [asConstantInt, floatOf, asConstantFP]

/-- **Constants**: an integer is in range down to -2048, a float takes the next label. -/
theorem assignConst_emits (h : assignConst dst v s = .ok s') :
    Emits s s' (floatOf v) (ConstOk v) := by
  unfold assignConst at h
  cases hi : asConstantInt v with
  | some i =>
    simp only [hi] at h
    rw [floatOf_int hi]
    obtain ⟨hlow, hhigh⟩ := asConstantInt_fits hi
    have hok : ConstOk v ↔ -2048 ≤ i :=
      ⟨fun hc => hc i hi, fun hc j hj => by rw [hi] at hj; cases hj; exact hc⟩
    by_cases himm : isImm i = true
    · rw [if_pos himm] at h
      refine (print_emits h rfl).congr rfl fun _ => ?_
      rw [hok]
      simp only [InRange, himm, true_iff]
      simp only [isImm, Bool.and_eq_true, decide_eq_true_eq] at himm
      omega
    · rw [if_neg himm] at h
      obtain ⟨s₁, h₁, h₂⟩ := bind_ok.mp h
      refine ((print_emits h₁ rfl).both (print_emits h₂ rfl)).congr rfl fun _ => ?_
      rw [hok]
      simp only [InRange, isImm, Bool.and_eq_true, decide_eq_true_eq] at himm ⊢
      split_ifs <;> omega
  | none =>
    simp only [hi] at h
    have hok : ConstOk v := fun i he => by rw [hi] at he; cases he
    cases hfp : asConstantFP v with
    | none =>
      simp only [hfp] at h
      cases h
      rw [floatOf, hfp]
      exact (Emits.refl s).congr rfl fun _ => (iff_true_intro hok).symm
    | some bits =>
      simp only [hfp] at h
      obtain ⟨temp, -, h⟩ := bind_ok.mp h
      obtain ⟨s₁, h₁, h₂⟩ := bind_ok.mp h
      obtain ⟨-, rfl⟩ := print_line h₁
      obtain ⟨-, rfl⟩ := print_line h₂
      rw [floatOf, hfp]
      refine ⟨⟨_, List.append_assoc _ _ _, ?_, fun _ => ?_⟩, rfl, rfl, rfl, rfl, id⟩
      · have hlen : (s.localFloats ++ [bits]).length - 1 = s.localFloats.length := by simp
        have hl : labelOf (.la temp.reg (".LC" ++ toString s.localFloats.length)) =
            some (".LC" ++ toString s.localFloats.length) := if_pos (isLabel_constant _)
        rw [hlen, List.singleton_append, floatLabels, List.filterMap_cons_some hl]
        rfl
      · refine iff_of_true (fun c hc => ?_) hok
        simp only [List.mem_append, List.mem_singleton] at hc
        rcases hc with rfl | rfl <;> simp [InRange, isImm]

theorem assignReg_emits (h : assignReg f dst src v s = .ok s') : Emits s s' [] True := by
  have htouch := Emits.touchOffset s src.reg
  have hslot : Bounded (s.touchOffset src.reg) → isImm (s.offsetAt src.reg) = true :=
    fun hb => htouch.offsetAt ▸ hb.saves src.reg
  unfold assignReg at h
  dsimp only at h
  split_ifs at h
  · cases h
    exact .refl s
  · exact print_fine h rfl trivial
  · exact htouch.after ((print_emits h rfl).congr rfl fun hb => iff_true_intro (hslot hb))
  · exact print_fine h rfl trivial
  · exact htouch.after ((print_emits h rfl).congr rfl fun hb => iff_true_intro (hslot hb))
  · exact print_fine h rfl trivial
  · exact htouch.after ((print_emits h rfl).congr rfl fun hb => iff_true_intro (hslot hb))

theorem asGep_spec {x : Instr} (h : asGep f v = some x) : ∃ i, v = .instr i ∧ x = f.instr i := by
  unfold asGep at h
  cases v with
  | instr i =>
    simp only at h
    split_ifs at h
    cases h
    exact ⟨i, rfl, rfl⟩
  | _ => cases h

theorem const_of_name (h : nameOf f v ≠ "") : asConstantInt v = none ∧ asConstantFP v = none := by
  cases v <;> simp_all [nameOf, asConstantInt, asConstantFP]

theorem constOk_of_none (h : asConstantInt v = none) : ConstOk v :=
  fun i hi => by rw [h] at hi; cases hi

/-- **`assign`**: a constant is in range down to -2048, whatever else is moved is in range. -/
theorem assign_emits (hn : Named f) (h : assign f dst v s = .ok s') :
    Emits s s' (floatOf v) (ConstOk v) := by
  unfold assign at h
  by_cases hname : nameOf f v = ""
  · rw [if_pos hname] at h
    exact assignConst_emits h
  · rw [if_neg hname] at h
    obtain ⟨hi, hfp⟩ := const_of_name hname
    suffices hfine : Emits s s' [] True by
      rw [floatOf, hfp]
      exact hfine.congr rfl fun _ => (iff_true_intro (constOk_of_none hi)).symm
    cases hgep : asGep f v with
    | some gep =>
      simp only [hgep] at h
      obtain ⟨i, -, rfl⟩ := asGep_spec hgep
      cases hbase : (f.instr i).operands.head? with
      | none => simp [hbase] at h
      | some base =>
        simp only [hbase] at h
        cases hglobal : asGlobal base with
        | some n =>
          simp only [hglobal] at h
          exact la_emits h (hn i base (List.mem_of_mem_head? hbase) n hglobal)
        | none =>
          simp only [hglobal] at h
          refine (Emits.touchStack s base).after ((print_emits h rfl).congr rfl fun hb => ?_)
          have hat := hb.slots base
          rw [(Emits.touchStack s base).stackAt] at hat
          simp only [InRange, isImm, Bool.and_eq_true, decide_eq_true_eq, iff_true]
          omega
    | none =>
      cases hreg : s.regMapping v with
      | some src =>
        simp only [hgep, hreg] at h
        exact assignReg_emits h
      | none =>
        simp only [hgep, hreg] at h
        split_ifs at h

/-- A value with a register is moved without constants. -/
theorem assign_mapped (hn : Named f) (hk : NoConst s) (hv : (s.regMapping v).isSome = true)
    (h : assign f dst v s = .ok s') : Emits s s' [] True := by
  obtain ⟨hi, hfp⟩ := hk v hv
  have := assign_emits hn h
  rw [floatOf, hfp] at this
  exact this.congr rfl fun _ => iff_true_intro (constOk_of_none hi)

/-! ## Memory -/

theorem printLoad_emits {fl : Bool} {offset : Int} {base : RegRef}
    (h : printLoad fl dst offset base s = .ok s') : Emits s s' [] (isImm offset = true) := by
  unfold printLoad at h
  cases fl with
  | true => exact print_emits h rfl
  | false => exact print_emits h rfl

theorem printStore_emits {fl : Bool} {offset : Int} {base : RegRef}
    (h : printStore fl src offset base s = .ok s') : Emits s s' [] (isImm offset = true) := by
  unfold printStore at h
  cases fl with
  | true => exact print_emits h rfl
  | false => exact print_emits h rfl

theorem loadInto_emits {fl : Bool} {offset : Int} {base : RegRef}
    (h : loadInto f fl dst offset base s = .ok s') : Emits s s' [] (isImm offset = true) := by
  unfold loadInto at h
  split_ifs at h with hreal
  obtain ⟨s₁, h₁, h₂⟩ := bind_ok.mp h
  exact (printLoad_emits h₁).andThen (save_emits h₂)

/-- The offset of a constant-indexed access from its base is in range. -/
def OffsetOk (f : Func) (stackAt : Value → Int) (ptr : Value) : Prop :=
  (access f ptr).constIndexed = true → ∀ b, (access f ptr).base = some b →
    isImm (4 * (access f ptr).offset + stackAt b) = true

theorem stackAt_none (h : s.stackMapping v = none) : s.stackAt v = 0 := by
  simp [St.stackAt, h]

theorem stackAt_some {off : Int} (h : s.stackMapping v = some off) : s.stackAt v = off := by
  simp [St.stackAt, h]

/-- Where a constant-indexed access goes: to a slot, to a global itself, or to an address that
stands in a register. -/
theorem access_base {ptr : Value} {n : String} (h : (access f ptr).globalPtr = some n) :
    (access f ptr).base = none := by
  cases ptr <;> simp_all [access, asGlobal, isAlloca, asGep]

theorem access_global (hn : Named f) {ptr b : Value} {n : String}
    (hb : (access f ptr).base = some b) (hg : asGlobal b = some n) : isLabel n = false := by
  unfold access at hb
  dsimp only at hb
  split_ifs at hb with halloca
  · cases hb
    cases ptr <;> simp_all [isAlloca, asGlobal]
  · cases hgep : asGep f ptr with
    | none => simp [hgep] at hb
    | some x =>
      simp only [hgep, Option.bind_some] at hb
      obtain ⟨i, -, rfl⟩ := asGep_spec hgep
      exact hn i b (List.mem_of_mem_head? hb) n hg

variable {ptr : Value} {fl : Bool} {stackAt : Value → Int}

theorem offset_of_base {off : Int} {b : Value} (hc : (access f ptr).constIndexed = true)
    (hb : (access f ptr).base = some b) (hat : stackAt b = off) :
    OffsetOk f stackAt ptr ↔ isImm (4 * (access f ptr).offset + off) = true := by
  unfold OffsetOk
  constructor
  · intro h
    rw [← hat]
    exact h hc b hb
  · rintro h - b' hb'
    obtain rfl := Option.some.inj (hb.symm.trans hb')
    rw [hat]
    exact h

theorem loadConst_emits (hn : Named f) (hp : ∀ n, asGlobal ptr = some n → isLabel n = false)
    (hc : (access f ptr).constIndexed = true)
    (h : loadConst f (access f ptr) fl dst s = .ok s') :
    Emits s s' [] (OffsetOk f s.stackAt ptr) := by
  unfold loadConst at h
  cases hslot : (access f ptr).base.bind s.stackMapping with
  | some off =>
    simp only [hslot] at h
    obtain ⟨b, hb, hoff⟩ := Option.bind_eq_some_iff.mp hslot
    refine (loadInto_emits h).congr rfl fun _ => ?_
    rw [offset_of_base hc hb (stackAt_some hoff), Int.mul_comm]
  | none =>
    simp only [hslot] at h
    cases hg : (access f ptr).globalPtr with
    | some n =>
      simp only [hg] at h
      obtain ⟨temp, -, h⟩ := bind_ok.mp h
      obtain ⟨s₁, h₁, h₂⟩ := bind_ok.mp h
      refine ((la_emits h₁ (hp n hg)).after (loadInto_emits h₂)).congr rfl fun _ => ?_
      refine iff_of_true (by decide) fun _ b hb => ?_
      rw [access_base hg] at hb
      cases hb
    | none =>
      simp only [hg] at h
      have hat : ∀ b, (access f ptr).base = some b → s.stackAt b = 0 := fun b hb =>
        stackAt_none (by simpa [hb] using hslot)
      cases hgb : (access f ptr).base.bind asGlobal with
      | some n =>
        simp only [hgb] at h
        obtain ⟨b, hb, hbn⟩ := Option.bind_eq_some_iff.mp hgb
        obtain ⟨temp, -, h⟩ := bind_ok.mp h
        obtain ⟨s₁, h₁, h₂⟩ := bind_ok.mp h
        refine ((la_emits h₁ (access_global hn hb hbn)).after (loadInto_emits h₂)).congr rfl
          fun _ => ?_
        rw [offset_of_base hc hb (hat b hb), Int.add_zero]
      | none =>
        simp only [hgb] at h
        cases hreg : (access f ptr).base.bind s.regMapping with
        | none => simp [hreg] at h
        | some addr =>
          simp only [hreg] at h
          obtain ⟨b, hb, -⟩ := Option.bind_eq_some_iff.mp hreg
          refine (loadInto_emits h).congr rfl fun _ => ?_
          rw [offset_of_base hc hb (hat b hb), Int.add_zero]

/-- The address of an indexed access; the index has a register. -/
theorem scaleIndex_emits {base index : RegRef} (hn : Named f) (hk : NoConst s)
    (hv : (s.regMapping v).isSome = true) (h : scaleIndex f base index v s = .ok s') :
    Emits s s' [] True := by
  unfold scaleIndex at h
  obtain ⟨s₁, h₁, h⟩ := bind_ok.mp h
  obtain ⟨s₂, h₂, h₃⟩ := bind_ok.mp h
  exact ((assign_mapped hn hk hv h₁).after (print_fine h₂ rfl trivial)).after
    (print_fine h₃ rfl trivial)

theorem loadVar_emits (hn : Named f) (hk : NoConst s)
    (hptr : asConstantInt ptr = none ∧ asConstantFP ptr = none)
    (h : loadVar f (access f ptr) ptr fl dst s = .ok s') : Emits s s' [] True := by
  unfold loadVar at h
  split_ifs at h with hgep hreal
  cases hslot : (access f ptr).base.bind s.stackMapping with
  | some off =>
    simp only [hslot] at h
    obtain ⟨b, hb, hoff⟩ := Option.bind_eq_some_iff.mp hslot
    obtain ⟨⟨w, r⟩, -, h⟩ := bind_ok.mp h
    obtain ⟨s₁, h₁, h₂⟩ := bind_ok.mp h
    refine (((printLoad_emits h₁).andThen (save_emits h₂))).congr rfl fun hbound => ?_
    have hat := hbound.slots b
    rw [stackAt_some hoff] at hat
    simp only [isImm, Bool.and_eq_true, decide_eq_true_eq, iff_true]
    omega
  | none =>
    simp only [hslot] at h
    cases hreg : (access f ptr).base.bind s.regMapping with
    | some _ =>
      simp only [hreg] at h
      obtain ⟨⟨base, baseReg⟩, hbase, h⟩ := bind_ok.mp h
      obtain ⟨⟨index, indexReg⟩, hindex, h⟩ := bind_ok.mp h
      obtain ⟨s₁, h₁, h⟩ := bind_ok.mp h
      obtain ⟨s₂, h₂, h⟩ := bind_ok.mp h
      obtain ⟨s₃, h₃, h₄⟩ := bind_ok.mp h
      obtain ⟨-, hb⟩ := regAtOrThrow_ok hbase
      obtain ⟨-, hi⟩ := regAtOrThrow_ok hindex
      have he₁ := assign_mapped hn hk (by simp [hb]) h₁
      have hi₁ : (s₁.regMapping index).isSome = true := by rw [(assign_kept h₁).regMapping, hi]; rfl
      have he₂ := he₁.after (scaleIndex_emits hn (he₁.noConst hk) hi₁ h₂)
      have he₃ := he₂.after ((printLoad_emits h₃).congr rfl fun _ => iff_true_intro (by decide))
      exact ((he₃.after (Emits.setFresh _ _ _)).after (Emits.setFresh _ _ _)).after (save_emits h₄)
    | none =>
      simp only [hreg] at h
      obtain ⟨temp, -, h⟩ := bind_ok.mp h
      obtain ⟨s₁, h₁, h⟩ := bind_ok.mp h
      obtain ⟨⟨index, indexReg⟩, hindex, h⟩ := bind_ok.mp h
      obtain ⟨s₂, h₂, h⟩ := bind_ok.mp h
      obtain ⟨s₃, h₃, h₄⟩ := bind_ok.mp h
      obtain ⟨-, hi⟩ := regAtOrThrow_ok hindex
      have he₁ : Emits s s₁ [] True := by
        refine (assign_emits hn h₁).congr ?_ fun _ => iff_true_intro (constOk_of_none hptr.1)
        rw [floatOf, hptr.2]
        rfl
      have he₂ := he₁.after (scaleIndex_emits hn (he₁.noConst hk) (by simp [hi]) h₂)
      have he₃ := he₂.after ((printLoad_emits h₃).congr rfl fun _ => iff_true_intro (by decide))
      exact (he₃.after (Emits.setFresh _ _ _)).after (save_emits h₄)

/-- The operand of an access without a constant index has a subscript, so it is no constant. -/
theorem isGep_not_const (h : (access f ptr).isGep = true) :
    asConstantInt ptr = none ∧ asConstantFP ptr = none := by
  cases ptr <;> simp_all [access, asGep, asConstantInt, asConstantFP]

theorem load_emits {i : InstrId} (hn : Named f) (hk : NoConst s)
    (hp : ∀ n, asGlobal ptr = some n → isLabel n = false) (h : load f i ptr s = .ok s') :
    Emits s s' [] (OffsetOk f s.stackAt ptr) := by
  have htouch := Emits.touchReg s (v := .instr i) rfl rfl
  unfold load at h
  dsimp only at h
  split_ifs at h with hc
  · have he := htouch.after (loadConst_emits hn hp hc h)
    rwa [htouch.stackAt] at he
  · have hgep : (access f ptr).isGep = true := by
      unfold loadVar at h
      split_ifs at h with hgep
      · simpa using hgep
    refine (htouch.after (loadVar_emits hn (htouch.noConst hk) (isGep_not_const hgep) h)).congr rfl
      fun _ => (iff_true_intro fun hc' => absurd hc' hc).symm

theorem storeConst_emits (hn : Named f) (hp : ∀ n, asGlobal ptr = some n → isLabel n = false)
    (hc : (access f ptr).constIndexed = true) (h : storeConst (access f ptr) fl src s = .ok s') :
    Emits s s' [] (OffsetOk f s.stackAt ptr) := by
  unfold storeConst at h
  cases hslot : (access f ptr).base.bind s.stackMapping with
  | some off =>
    simp only [hslot] at h
    obtain ⟨b, hb, hoff⟩ := Option.bind_eq_some_iff.mp hslot
    refine (printStore_emits h).congr rfl fun _ => ?_
    rw [offset_of_base hc hb (stackAt_some hoff), Int.add_comm]
  | none =>
    simp only [hslot] at h
    cases hg : (access f ptr).globalPtr with
    | some n =>
      simp only [hg] at h
      obtain ⟨temp, -, h⟩ := bind_ok.mp h
      obtain ⟨s₁, h₁, h₂⟩ := bind_ok.mp h
      refine ((la_emits h₁ (hp n hg)).after (printStore_emits h₂)).congr rfl fun _ => ?_
      refine iff_of_true (by decide) fun _ b hb => ?_
      rw [access_base hg] at hb
      cases hb
    | none =>
      simp only [hg] at h
      cases hgb : (access f ptr).base.bind asGlobal with
      | none => simp [hgb] at h
      | some n =>
        simp only [hgb] at h
        obtain ⟨b, hb, hbn⟩ := Option.bind_eq_some_iff.mp hgb
        obtain ⟨temp, -, h⟩ := bind_ok.mp h
        obtain ⟨s₁, h₁, h₂⟩ := bind_ok.mp h
        have hat : s.stackAt b = 0 := stackAt_none (by simpa [hb] using hslot)
        refine ((la_emits h₁ (access_global hn hb hbn)).after (printStore_emits h₂)).congr rfl
          fun _ => ?_
        rw [offset_of_base hc hb hat, Int.add_zero]

/-- Where the base stands in a register, the value is assigned once more. -/
theorem storeVar_emits {rval : Value} (hn : Named f) (hk : NoConst s)
    (h : storeVar f (access f ptr) ptr rval fl src s = .ok s') :
    ∃ cs cond, (cs = [] ∨ cs = floatOf rval) ∧ (ConstOk rval → cond) ∧ Emits s s' cs cond := by
  unfold storeVar at h
  split_ifs at h with hgep
  have hptr := @isGep_not_const f ptr (by simpa using hgep)
  cases hslot : (access f ptr).base.bind s.stackMapping with
  | some off =>
    simp only [hslot] at h
    obtain ⟨b, hb, hoff⟩ := Option.bind_eq_some_iff.mp hslot
    obtain ⟨⟨w, r⟩, -, h⟩ := bind_ok.mp h
    refine ⟨[], True, .inl rfl, fun _ => trivial, (printStore_emits h).congr rfl fun hbound => ?_⟩
    have hat := hbound.slots b
    rw [stackAt_some hoff] at hat
    simp only [isImm, Bool.and_eq_true, decide_eq_true_eq, iff_true]
    omega
  | none =>
    simp only [hslot] at h
    cases hreg : (access f ptr).base.bind s.regMapping with
    | some _ =>
      simp only [hreg] at h
      obtain ⟨⟨base, baseReg⟩, hbase, h⟩ := bind_ok.mp h
      obtain ⟨⟨index, indexReg⟩, hindex, h⟩ := bind_ok.mp h
      obtain ⟨s₁, h₁, h⟩ := bind_ok.mp h
      obtain ⟨s₂, h₂, h⟩ := bind_ok.mp h
      obtain ⟨s₃, h₃, h⟩ := bind_ok.mp h
      obtain ⟨s₄, h₄, h⟩ := bind_ok.mp h
      cases h
      obtain ⟨-, hb⟩ := regAtOrThrow_ok hbase
      obtain ⟨-, hi⟩ := regAtOrThrow_ok hindex
      have he₁ := assign_mapped hn hk (by simp [hb]) h₁
      have hi₁ : (s₁.regMapping index).isSome = true := by rw [(assign_kept h₁).regMapping, hi]; rfl
      have he₂ := he₁.after (scaleIndex_emits hn (he₁.noConst hk) hi₁ h₂)
      have he₃ := he₂.after (assign_emits hn h₃)
      have he₄ := he₃.andThen
        ((printStore_emits h₄).congr rfl fun _ => iff_true_intro (by decide))
      exact ⟨_, _, .inr rfl, id, (he₄.andThen (Emits.setFresh _ _ _)).andThen
        (Emits.setFresh _ _ _)⟩
    | none =>
      simp only [hreg] at h
      obtain ⟨temp, -, h⟩ := bind_ok.mp h
      obtain ⟨s₁, h₁, h⟩ := bind_ok.mp h
      obtain ⟨⟨index, indexReg⟩, hindex, h⟩ := bind_ok.mp h
      obtain ⟨s₂, h₂, h₃⟩ := bind_ok.mp h
      obtain ⟨-, hi⟩ := regAtOrThrow_ok hindex
      have he₁ : Emits s s₁ [] True := by
        refine (assign_emits hn h₁).congr ?_ fun _ => iff_true_intro (constOk_of_none hptr.1)
        rw [floatOf, hptr.2]
        rfl
      have he₂ := he₁.after (scaleIndex_emits hn (he₁.noConst hk) (by simp [hi]) h₂)
      exact ⟨[], True, .inl rfl, fun _ => trivial,
        he₂.after ((printStore_emits h₃).congr rfl fun _ => iff_true_intro (by decide))⟩

/-- A store: the constants it loads are one constant, once or twice. -/
theorem store_emits {rval : Value} (hn : Named f) (hk : NoConst s)
    (hp : ∀ n, asGlobal ptr = some n → isLabel n = false) (h : store f ptr rval s = .ok s') :
    ∃ cs, (cs = floatOf rval ∨ cs = floatOf rval ++ floatOf rval) ∧
      Emits s s' cs (ConstOk rval ∧ OffsetOk f s.stackAt ptr) := by
  unfold store at h
  obtain ⟨r, -, h⟩ := bind_ok.mp h
  obtain ⟨s₁, h₁, h⟩ := bind_ok.mp h
  obtain ⟨s₂, h₂, h⟩ := bind_ok.mp h
  cases h
  have he₁ := (assign_emits hn h₁).andThen (Emits.erase s₁ r.reg)
  unfold storeTo at h₂
  split_ifs at h₂ with hc
  · have he₂ := storeConst_emits hn hp hc h₂
    rw [he₁.stackAt] at he₂
    refine ⟨_, .inl rfl, ((he₁.trans he₂).congr (List.append_nil _) fun _ => Iff.rfl).andThen
      (Emits.insert s₂ r.reg)⟩
  · obtain ⟨cs, cond, hcs, hcond, he₂⟩ := storeVar_emits hn (he₁.noConst hk) h₂
    refine ⟨floatOf rval ++ cs, ?_, (he₁.trans he₂).andThen (Emits.insert s₂ r.reg) |>.congr rfl
      fun _ => and_congr_right fun hok => iff_of_true (hcond hok) fun hc' => absurd hc' hc⟩
    rcases hcs with rfl | rfl
    · exact .inl (List.append_nil _)
    · exact .inr rfl

/-- The offset of an array of the frame: it does not depend on the frame. -/
theorem gep_emits {i : InstrId} (hn : Named f) (hk : NoConst s) (h : gep f i s = .ok s') :
    Emits s s' [] True := by
  unfold gep at h
  cases hlast : (f.instr i).operands.getLast? with
  | none => simp [hlast] at h
  | some index =>
    simp only [hlast] at h
    split_ifs at h with hconst hreal hreal'
    · cases h
      exact .refl s
    · -- a real register is one of the map, so the index is no constant
      have hsome : (s.regMapping index).isSome = true := by
        cases hr : s.regMapping index with
        | none => simp [St.regAt, hr, Reg.isReal] at hreal
        | some r => rfl
      obtain ⟨hi, hfp⟩ := hk index hsome
      obtain ⟨s₁, h₁, h⟩ := bind_ok.mp h
      obtain ⟨s₂, h₂, h⟩ := bind_ok.mp h
      obtain ⟨temp, -, h⟩ := bind_ok.mp h
      obtain ⟨s₃, h₃, h₄⟩ := bind_ok.mp h
      have he₁ := (Emits.touchReg s hi hfp).after
        (Emits.touchReg (s.touchReg index) (v := .instr i) rfl rfl)
      have hassign : Emits ((s.touchReg index).touchReg (.instr i)) s₁ [] True := by
        refine (assign_emits hn h₁).congr ?_ fun _ => iff_true_intro (constOk_of_none hi)
        rw [floatOf, hfp]
        rfl
      have he₂ := (he₁.after hassign).after (Emits.mapReg s₁ (v := .instr i) rfl rfl
        ⟨((s.touchReg index).regAt (.instr i)).reg, true⟩)
      have he₃ := he₂.after (print_fine h₂ rfl trivial)
      have he₄ := he₃.after (print_fine h₃ rfl (show isImm (-16) = true from rfl))
      exact he₄.after (print_fine h₄ rfl trivial)
    · obtain ⟨s₁, -, h⟩ := bind_ok.mp h
      cases h

/-! ## Control -/

theorem branch_emits {x : Instr} (h : branch x s = .ok s') : Emits s s' [] True := by
  unfold branch at h
  split at h
  · split at h
    · obtain ⟨s₁, h₁, h₂⟩ := bind_ok.mp h
      exact (print_fine h₁ rfl trivial).after (print_fine h₂ rfl trivial)
    · cases h
  · exact print_fine h rfl trivial
  · cases h

theorem moveRetVal_emits {x : Instr} (hn : Named f) (h : moveRetVal f x s = .ok s') :
    Emits s s' ((x.operands.take 1).flatMap floatOf) (∀ v ∈ x.operands.take 1, ConstOk v) := by
  unfold moveRetVal at h
  cases hops : x.operands with
  | nil =>
    rw [hops] at h
    cases h
    exact (Emits.refl s).congr rfl fun _ => by simp
  | cons v l =>
    rw [hops] at h
    obtain ⟨r, -, h⟩ := bind_ok.mp h
    obtain ⟨s₁, h₁, h₂⟩ := bind_ok.mp h
    have hmove : Emits s₁ s' [] True := by
      split_ifs at h₂
      · exact print_fine h₂ rfl trivial
      · exact print_fine h₂ rfl trivial
    exact ((assign_emits hn h₁).andThen hmove).congr (by simp) fun _ => by simp

theorem Bounded.imm (hb : Bounded s) {k : Int} (h0 : 0 ≤ k) (h16 : k ≤ 16) :
    isImm (s.stackSize - k) = true := by
  obtain ⟨hlow, hhigh⟩ := hb.frame
  simp only [isImm, Bool.and_eq_true, decide_eq_true_eq]
  omega

theorem restoreFrame_emits (h : restoreFrame f s = .ok s') : Emits s s' [] True := by
  unfold restoreFrame at h
  split_ifs at h
  · obtain ⟨s₁, h₁, h₂⟩ := bind_ok.mp h
    refine Emits.after ((print_emits h₁ rfl).congr rfl fun hb => iff_true_intro ?_)
      ((print_emits h₂ rfl).congr rfl fun hb => iff_true_intro ?_)
    · exact hb.imm (by decide) (by decide)
    · exact hb.imm (by decide) (by decide)
  · refine (print_emits h rfl).congr rfl fun hb => iff_true_intro ?_
    exact hb.imm (by decide) (by decide)

theorem funEpilogue_emits {x : Instr} (hn : Named f) (h : funEpilogue f x s = .ok s') :
    Emits s s' ((x.operands.take 1).flatMap floatOf) (∀ v ∈ x.operands.take 1, ConstOk v) := by
  unfold funEpilogue at h
  obtain ⟨s₁, h₁, h⟩ := bind_ok.mp h
  obtain ⟨s₂, h₂, h⟩ := bind_ok.mp h
  obtain ⟨s₃, h₃, h₄⟩ := bind_ok.mp h
  have he := (moveRetVal_emits hn h₁).andThen (restoreFrame_emits h₂)
  refine (he.andThen ((print_emits h₃ rfl).congr rfl fun hb => iff_true_intro ?_)).andThen
    (print_fine h₄ rfl trivial)
  have himm := hb.imm (Int.le_refl 0) (by decide)
  rwa [Int.sub_zero] at himm

theorem callArg_emits {c c' : CallArgs} {arg : Value} (hn : Named f)
    (h : callArg f c arg = .ok c') : Emits c.st c'.st (floatOf arg) (ConstOk arg) := by
  unfold callArg at h
  split_ifs at h
  · split at h
    · cases h
    · obtain ⟨s₁, h₁, h⟩ := bind_ok.mp h
      cases h
      exact ((Emits.erase _ _).after (assign_emits hn h₁)).andThen (Emits.setFresh _ _ _)
  · split at h
    · cases h
    · obtain ⟨s₁, h₁, h⟩ := bind_ok.mp h
      cases h
      exact ((Emits.erase _ _).after (Emits.setFresh _ _ _)).after (assign_emits hn h₁)

theorem callArgs_emits (hn : Named f) {l : List Value} :
    ∀ {c c' : CallArgs}, l.foldlM (callArg f) c = .ok c' →
      Emits c.st c'.st (l.flatMap floatOf) (∀ v ∈ l, ConstOk v) := by
  induction l with
  | nil =>
    intro c c' h
    cases h
    exact (Emits.refl _).congr rfl fun _ => by simp
  | cons v l ih =>
    intro c c' h
    rw [List.foldlM_cons] at h
    obtain ⟨c₁, h₁, h⟩ := bind_ok.mp h
    refine ((callArg_emits hn h₁).trans (ih h)).congr (List.flatMap_cons ..).symm fun _ => ?_
    rw [List.forall_mem_cons]

theorem setFreshAll_emits (rs : List Reg) (s : St) :
    Emits s (rs.foldl (fun s r => s.setFresh r false) s) [] True := by
  induction rs generalizing s with
  | nil => exact .refl s
  | cons r rs ih => exact (Emits.setFresh s r false).after (ih _)

theorem call_emits {i : InstrId} (hn : Named f) (h : call f i s = .ok s') :
    Emits s s' ((f.instr i).operands.tail.flatMap floatOf)
      (∀ v ∈ (f.instr i).operands.tail, ConstOk v) := by
  unfold call at h
  cases hops : (f.instr i).operands with
  | nil => simp [hops] at h
  | cons callee l =>
    simp only [hops] at h
    obtain ⟨c, h₁, h⟩ := bind_ok.mp h
    obtain ⟨s₂, h₂, h⟩ := bind_ok.mp h
    have he := ((callArgs_emits hn h₁).andThen (print_fine h₂ rfl trivial)).andThen
      (setFreshAll_emits callerSavedRegs s₂)
    simp only [List.tail_cons]
    generalize callerSavedRegs.foldl (fun s r => s.setFresh r false) s₂ = s₃ at h he
    by_cases hvoid : (f.instr i).ty = .void
    · rw [if_pos hvoid] at h
      cases h
      exact he
    · rw [if_neg hvoid] at h
      cases hreg : s₃.regMapping (.instr i) with
      | some r =>
        simp only [hreg] at h
        obtain ⟨s₄, h₃, h₄⟩ := bind_ok.mp h
        have hmove : Emits s₃ s₄ [] True := by
          by_cases hfloat : (f.instr i).ty.isFloat = true
          · rw [if_pos hfloat] at h₃
            exact print_fine h₃ rfl trivial
          · rw [if_neg hfloat] at h₃
            exact print_fine h₃ rfl trivial
        exact (he.andThen hmove).andThen (save_emits h₄)
      | none =>
        simp only [hreg] at h
        cases hslot : s₃.stackMapping (.instr i) with
        | none => simp [hslot] at h
        | some off =>
          simp only [hslot] at h
          refine he.andThen ((print_emits h rfl).congr rfl fun hb => iff_true_intro ?_)
          have hat := hb.slots (.instr i)
          rw [stackAt_some hslot] at hat
          simp only [InRange, isImm, Bool.and_eq_true, decide_eq_true_eq]
          omega

/-! ## Arithmetic -/

theorem printImm_emits {op : OpID} {i : Int} (h : printImm op dst i s = .ok s')
    (hi : isImm i = true) : Emits s s' [] (¬ (op = .sub ∧ i = -2048)) := by
  simp only [isImm, Bool.and_eq_true, decide_eq_true_eq] at hi
  unfold printImm at h
  split at h
  · refine (print_emits h rfl).congr rfl fun _ => iff_of_true ?_ (by simp)
    simpa [InRange, isImm] using hi
  · refine (print_emits h rfl).congr rfl fun _ => ?_
    simp only [InRange, isImm, Bool.and_eq_true, decide_eq_true_eq, true_and]
    omega
  · next hsub =>
    cases h
    exact (Emits.refl s).congr rfl fun _ => iff_of_true trivial fun he => hsub he.1

theorem binInstImm_emits {dest : InstrId} {op : OpID} {i : Int} (hn : Named f)
    (h : binInstImm f dest op v i s = .ok s') (hi : isImm i = true) :
    Emits s s' (floatOf v) (ConstOk v ∧ ¬ (op = .sub ∧ i = -2048)) := by
  unfold binInstImm at h
  cases hreg : s.regMapping (.instr dest) with
  | none => simp [hreg] at h
  | some r =>
    simp only [hreg] at h
    obtain ⟨s₁, h₁, h⟩ := bind_ok.mp h
    obtain ⟨s₂, h₂, h₃⟩ := bind_ok.mp h
    have he := ((Emits.erase s r.reg).after (assign_emits hn h₁)).trans (printImm_emits h₂ hi)
    exact (he.congr (List.append_nil _) fun _ => Iff.rfl).andThen (save_emits h₃)

theorem printBin_emits {op : OpID} {rhs : RegRef} (h : printBin op fl dst rhs s = .ok s') :
    Emits s s' [] True := by
  unfold printBin at h
  split_ifs at h <;> split at h <;> first
    | exact print_fine h rfl trivial
    | (cases h; exact .refl s)

theorem binInstReg_emits {dest : InstrId} {op : OpID} {lhs rhs : Value} (hn : Named f)
    (h : binInstReg f dest op lhs rhs fl s = .ok s') :
    Emits s s' (floatOf lhs ++ floatOf rhs) (ConstOk lhs ∧ ConstOk rhs) := by
  unfold binInstReg at h
  obtain ⟨⟨w, r⟩, -, h⟩ := bind_ok.mp h
  obtain ⟨s₁, h₁, h⟩ := bind_ok.mp h
  obtain ⟨q, -, h⟩ := bind_ok.mp h
  obtain ⟨s₂, h₂, h⟩ := bind_ok.mp h
  obtain ⟨s₃, h₃, h₄⟩ := bind_ok.mp h
  have he := ((Emits.erase s r.reg).after (assign_emits hn h₁)).trans (assign_emits hn h₂)
  exact (he.andThen (printBin_emits h₃)).andThen (save_emits h₄)

theorem immOf_spec {i : Int} (h : immOf v = some i) :
    asConstantInt v = some i ∧ isImm i = true := by
  unfold immOf at h
  rwa [Option.filter_eq_some_iff] at h

theorem constOk_of_imm {i : Int} (h : immOf v = some i) : ConstOk v := by
  obtain ⟨hv, hi⟩ := immOf_spec h
  intro j hj
  rw [hv] at hj
  cases hj
  simp only [isImm, Bool.and_eq_true, decide_eq_true_eq] at hi
  exact hi.1

/-- Neither operand needs more than its range, and no subtraction has -2048 on its right. -/
def BinOk (op : OpID) (lhs rhs : Value) : Prop :=
  ConstOk lhs ∧ ConstOk rhs ∧ ¬ (op = .sub ∧ asConstantInt rhs = some (-2048))

theorem not_sub_of_no_imm {op : OpID} (h : immOf v = none) :
    ¬ (op = .sub ∧ asConstantInt v = some (-2048)) := by
  rintro ⟨-, hv⟩
  rw [immOf, hv] at h
  revert h
  decide

theorem binInst_emits {dest : InstrId} {op : OpID} {lhs rhs : Value} {l : List Value}
    (hn : Named f) (hops : (f.instr dest).operands = lhs :: rhs :: l) (hfl : fl = true → op ≠ .sub)
    (h : binInst f dest op fl s = .ok s') :
    Emits s s' (floatOf lhs ++ floatOf rhs) (BinOk op lhs rhs) := by
  have hreg : (¬ (op = .sub ∧ asConstantInt rhs = some (-2048))) →
      binInstReg f dest op lhs rhs fl s = .ok s' →
      Emits s s' (floatOf lhs ++ floatOf rhs) (BinOk op lhs rhs) := fun hsub h =>
    (binInstReg_emits hn h).congr rfl fun _ => by
      rw [BinOk, and_iff_left hsub]
  unfold binInst at h
  simp only [hops] at h
  by_cases hint : (!fl && (op = .add || op = .sub)) = true
  · rw [if_pos hint] at h
    cases hr : immOf rhs with
    | some i =>
      simp only [hr] at h
      obtain ⟨hri, hi⟩ := immOf_spec hr
      refine (binInstImm_emits hn h hi).congr ?_ fun _ => ?_
      · rw [floatOf_int hri, List.append_nil]
      · rw [BinOk, and_iff_right (constOk_of_imm hr), hri, Option.some_inj]
    | none =>
      have hsub := @not_sub_of_no_imm _ op hr
      cases hl : immOf lhs with
      | some i =>
        simp only [hr, hl] at h
        by_cases hop : op ≠ .sub
        · rw [if_pos hop] at h
          obtain ⟨hli, hi⟩ := immOf_spec hl
          refine (binInstImm_emits hn h hi).congr ?_ fun _ => ?_
          · rw [floatOf_int hli, List.nil_append]
          · rw [BinOk, and_iff_right (constOk_of_imm hl)]
            exact and_congr_right fun _ => iff_of_true (fun he => hop he.1) hsub
        · rw [if_neg hop] at h
          exact hreg hsub h
      | none =>
        simp only [hr, hl] at h
        exact hreg hsub h
  · rw [if_neg hint] at h
    refine hreg ?_ h
    rintro ⟨rfl, -⟩
    cases fl with
    | true => exact hfl rfl rfl
    | false => exact hint rfl

theorem sext_emits {dest : InstrId} (hn : Named f) (h : sext f dest v s = .ok s') :
    Emits s s' (floatOf v) (ConstOk v) := by
  unfold sext at h
  cases hreg : s.regMapping (.instr dest) with
  | none => simp [hreg] at h
  | some r =>
    simp only [hreg] at h
    obtain ⟨s₁, h₁, h⟩ := bind_ok.mp h
    obtain ⟨s₂, h₂, h⟩ := bind_ok.mp h
    obtain ⟨s₃, h₃, h₄⟩ := bind_ok.mp h
    have he := ((Emits.erase s r.reg).after (assign_emits hn h₁)).andThen
      (print_fine h₂ rfl (show isImm 255 = true from rfl))
    exact (he.andThen (print_fine h₃ rfl trivial)).andThen (save_emits h₄)

theorem printCmp_emits {op : CmpOp} {rhs : RegRef} (h : printCmp op dst rhs s = .ok s') :
    Emits s s' [] True := by
  have hone : isImm 1 = true := rfl
  unfold printCmp at h
  cases op with
  | GT => exact print_fine h rfl trivial
  | LT => exact print_fine h rfl trivial
  | _ =>
    obtain ⟨s₁, h₁, h₂⟩ := bind_ok.mp h
    first
      | exact (print_fine h₁ rfl trivial).after (print_fine h₂ rfl trivial)
      | exact (print_fine h₁ rfl trivial).after (print_fine h₂ rfl hone)

theorem icmp_emits {dest : InstrId} {lhs rhs : Value} (hn : Named f)
    (h : icmp f dest lhs rhs s = .ok s') :
    Emits s s' (floatOf lhs ++ floatOf rhs) (ConstOk lhs ∧ ConstOk rhs) := by
  unfold icmp at h
  cases hreg : s.regMapping (.instr dest) with
  | none => simp [hreg] at h
  | some r =>
    simp only [hreg] at h
    obtain ⟨s₁, h₁, h⟩ := bind_ok.mp h
    obtain ⟨q, -, h⟩ := bind_ok.mp h
    obtain ⟨s₂, h₂, h₃⟩ := bind_ok.mp h
    have he := ((Emits.erase s r.reg).after (assign_emits hn h₁)).trans (assign_emits hn h₂)
    exact he.andThen (printCmp_emits h₃)

theorem printFcmp_emits {op : CmpOp} {lhs rhs : RegRef} (h : printFcmp op dst lhs rhs s = .ok s') :
    Emits s s' [] True := by
  unfold printFcmp at h
  obtain ⟨s₁, h₁, h₂⟩ := bind_ok.mp h
  have he₁ : Emits s s₁ [] True := by
    unfold printFcmpLine at h₁
    cases op <;> exact print_fine h₁ rfl trivial
  refine he₁.after ?_
  split_ifs at h₂
  · exact print_fine h₂ rfl trivial
  · exact print_fine h₂ rfl trivial

theorem fcmp_emits {dest : InstrId} {lhs rhs : Value} (hn : Named f)
    (h : fcmp f dest lhs rhs s = .ok s') :
    Emits s s' (floatOf lhs ++ floatOf rhs) (ConstOk lhs ∧ ConstOk rhs) := by
  unfold fcmp at h
  cases hreg : s.regMapping (.instr dest) with
  | none => simp [hreg] at h
  | some r =>
    simp only [hreg] at h
    obtain ⟨p, -, h⟩ := bind_ok.mp h
    obtain ⟨s₁, h₁, h⟩ := bind_ok.mp h
    obtain ⟨q, -, h⟩ := bind_ok.mp h
    obtain ⟨s₂, h₂, h⟩ := bind_ok.mp h
    obtain ⟨s₃, h₃, h₄⟩ := bind_ok.mp h
    have he₁ := ((Emits.erase s r.reg).after (assign_emits hn h₁)).andThen (Emits.erase s₁ p.reg)
    have he₂ := (he₁.trans (assign_emits hn h₂)).andThen (Emits.insert s₂ p.reg)
    exact (he₂.andThen (printFcmp_emits h₃)).andThen (save_emits h₄)

theorem fptosi_emits {dest : InstrId} (hn : Named f) (h : fptosi f dest v s = .ok s') :
    Emits s s' (floatOf v) (ConstOk v) := by
  unfold fptosi at h
  obtain ⟨q, -, h⟩ := bind_ok.mp h
  obtain ⟨s₁, h₁, h⟩ := bind_ok.mp h
  cases hreg : s₁.regMapping (.instr dest) with
  | none =>
    simp only [hreg] at h
    split_ifs at h
  | some r =>
    simp only [hreg] at h
    obtain ⟨s₂, h₂, h⟩ := bind_ok.mp h
    obtain ⟨s₃, h₃, h₄⟩ := bind_ok.mp h
    exact (((assign_emits hn h₁).andThen (print_fine h₂ rfl trivial)).andThen
      (print_fine h₃ rfl trivial)).andThen (save_emits h₄)

/-- The operand is a constant, or a value with a register; a line with any other is refused. -/
theorem sitofp_emits {dest : InstrId} (hn : Named f) (hk : NoConst s)
    (h : sitofp f dest v s = .ok s') : Emits s s' (floatOf v) (ConstOk v) := by
  unfold sitofp at h
  obtain ⟨⟨ireg, s₁⟩, h₁, h⟩ := bind_ok.mp h
  cases hreg : s₁.regMapping (.instr dest) with
  | none =>
    simp only [hreg] at h
    split_ifs at h
  | some r =>
    simp only [hreg] at h
    obtain ⟨s₂, h₂, h⟩ := bind_ok.mp h
    obtain ⟨s₃, h₃, h⟩ := bind_ok.mp h
    cases h
    have hrest : Emits s₁ (s₃.erase r.reg) [] True :=
      ((print_fine h₂ rfl trivial).after (save_emits h₃)).after (Emits.erase s₃ r.reg)
    refine Emits.andThen ?_ hrest
    unfold sitofpOperand at h₁
    split_ifs at h₁ with hconst hslot
    · obtain ⟨q, -, h₁⟩ := bind_ok.mp h₁
      obtain ⟨s₄, h₄, h₁⟩ := bind_ok.mp h₁
      cases h₁
      exact assign_emits hn h₄
    · cases hv : s.regMapping v with
      | none => simp [hv] at h₁
      | some q =>
        simp only [hv] at h₁
        cases h₁
        obtain ⟨hi, hfp⟩ := hk v (by simp [hv])
        rw [floatOf, hfp]
        exact (Emits.refl s).congr rfl fun _ => (iff_true_intro (constOk_of_none hi)).symm
    · cases hv : s.regMapping v with
      | none =>
        simp only [hv] at h₁
        cases h₁
        -- `Reg(-1)` has no name
        obtain ⟨i, hi, -⟩ := print_ok.mp h₂
        obtain ⟨-, hnamed, -⟩ := Instgen.line_ok.mp hi
        have hbad := hnamed ⟨⟨-1, false⟩, false⟩ (by simp)
        exact absurd hbad (by decide)
      | some q =>
        simp only [hv] at h₁
        cases h₁
        obtain ⟨hi, hfp⟩ := hk v (by simp [hv])
        rw [floatOf, hfp]
        exact (Emits.refl s).congr rfl fun _ => (iff_true_intro (constOk_of_none hi)).symm

/-! ## Instructions -/

/-- The operands that are assigned to registers. -/
def assigned (x : Instr) : List Value :=
  match x.op with
  | .call => x.operands.tail
  | .add | .sub | .mul | .sdiv | .fadd | .fsub | .fmul | .fdiv | .cmp | .fcmp => x.operands.take 2
  | .ret | .fptosi | .sitofp | .zext | .store => x.operands.take 1
  | .alloca | .phi | .br | .getelementptr | .load => []

/-- The float constants that an instruction loads. -/
def floatsOf (x : Instr) : List (BitVec 32) := (assigned x).flatMap floatOf

/-- The immediates of an instruction are in range: its constants are, it does not subtract -2048,
and the offset of a constant-indexed access is. -/
def InstrOk (f : Func) (stackAt : Value → Int) (x : Instr) : Prop :=
  (∀ v ∈ assigned x, ConstOk v) ∧
    (x.op = .sub → ∀ v, x.operands[1]? = some v → asConstantInt v ≠ some (-2048)) ∧
    (x.op = .load → ∀ v, x.operands[0]? = some v → OffsetOk f stackAt v) ∧
    (x.op = .store → ∀ v, x.operands[1]? = some v → OffsetOk f stackAt v)

/-- What an instruction prints: its constants once, or twice for a store. -/
def EmitsInstr (f : Func) (x : Instr) (s s' : St) : Prop :=
  ∃ cs, (cs = floatsOf x ∨ x.op = .store ∧ cs = floatsOf x ++ floatsOf x) ∧
    Emits s s' cs (InstrOk f s.stackAt x)

/-- An instruction that is neither a subtraction nor an access. -/
theorem emitsInstr_of {x : Instr} {cs : List (BitVec 32)} {c : Prop} (he : Emits s s' cs c)
    (hcs : cs = floatsOf x) (hc : c ↔ ∀ v ∈ assigned x, ConstOk v) (hsub : x.op ≠ .sub)
    (hload : x.op ≠ .load) (hstore : x.op ≠ .store) : EmitsInstr f x s s' :=
  ⟨cs, .inl hcs, he.congr rfl fun _ => hc.trans
    ⟨fun h => ⟨h, fun h => absurd h hsub, fun h => absurd h hload, fun h => absurd h hstore⟩,
      And.left⟩⟩

/-- One operand. -/
theorem emitsInstr_one {x : Instr} {v : Value} {l : List Value} (hops : x.operands = v :: l)
    (ha : assigned x = x.operands.take 1) (he : Emits s s' (floatOf v) (ConstOk v))
    (hsub : x.op ≠ .sub) (hload : x.op ≠ .load) (hstore : x.op ≠ .store) :
    EmitsInstr f x s s' := by
  have ha' : assigned x = [v] := by rw [ha, hops]; rfl
  exact emitsInstr_of he (by simp [floatsOf, ha']) (by simp [ha']) hsub hload hstore

/-- Two operands. -/
theorem emitsInstr_two {x : Instr} {v w : Value} {l : List Value} (hops : x.operands = v :: w :: l)
    (ha : assigned x = x.operands.take 2)
    (he : Emits s s' (floatOf v ++ floatOf w) (ConstOk v ∧ ConstOk w))
    (hsub : x.op ≠ .sub) (hload : x.op ≠ .load) (hstore : x.op ≠ .store) :
    EmitsInstr f x s s' := by
  have ha' : assigned x = [v, w] := by rw [ha, hops]; rfl
  exact emitsInstr_of he (by simp [floatsOf, ha']) (by simp [ha']) hsub hload hstore

/-- An instruction that assigns nothing. -/
theorem emitsInstr_nil {x : Instr} (ha : assigned x = []) (he : Emits s s' [] True)
    (hsub : x.op ≠ .sub) (hload : x.op ≠ .load) (hstore : x.op ≠ .store) : EmitsInstr f x s s' :=
  emitsInstr_of he (by simp [floatsOf, ha]) (by simp [ha]) hsub hload hstore

theorem binInst_instr {i : InstrId} (hn : Named f) (hfl : fl = true → (f.instr i).op ≠ .sub)
    (ha : assigned (f.instr i) = (f.instr i).operands.take 2)
    (hload : (f.instr i).op ≠ .load) (hstore : (f.instr i).op ≠ .store)
    (h : binInst f i (f.instr i).op fl s = .ok s') : EmitsInstr f (f.instr i) s s' := by
  match hops : (f.instr i).operands with
  | [] => simp [binInst, hops] at h
  | [v] => simp [binInst, hops] at h
  | lhs :: rhs :: l =>
    have ha' : assigned (f.instr i) = [lhs, rhs] := by rw [ha, hops]; rfl
    refine ⟨_, .inl ?_, (binInst_emits hn hops hfl h).congr rfl fun _ => ?_⟩
    · simp [floatsOf, ha']
    · unfold InstrOk BinOk
      rw [ha', hops]
      simp only [List.mem_cons, List.not_mem_nil, or_false, forall_eq_or_imp, forall_eq,
        List.getElem?_cons_succ, List.getElem?_cons_zero, Option.some_inj, forall_eq', hload,
        hstore, false_implies, and_true, and_assoc]
      tauto

/-- **An instruction**: its text is in range exactly when its constants are, it does not subtract
-2048 and the offset of its access is in range; and it refers to its float constants, in order. -/
theorem genInstr_emits {i : InstrId} (hn : Named f) (hk : NoConst s)
    (h : genInstr f i s = .ok s') : EmitsInstr f (f.instr i) s s' := by
  have hglobal : ∀ v ∈ (f.instr i).operands, ∀ n, asGlobal v = some n → isLabel n = false := hn i
  unfold genInstr at h
  dsimp only at h
  cases hop : (f.instr i).op with
  | ret =>
    simp only [hop] at h
    have ha : assigned (f.instr i) = (f.instr i).operands.take 1 := by simp [assigned, hop]
    exact emitsInstr_of (funEpilogue_emits hn h) (by rw [floatsOf, ha]) (by rw [ha])
      (by simp [hop]) (by simp [hop]) (by simp [hop])
  | call =>
    simp only [hop] at h
    have ha : assigned (f.instr i) = (f.instr i).operands.tail := by simp [assigned, hop]
    exact emitsInstr_of (call_emits hn h) (by rw [floatsOf, ha]) (by rw [ha])
      (by simp [hop]) (by simp [hop]) (by simp [hop])
  | alloca =>
    simp only [hop] at h
    cases h
    exact emitsInstr_nil (by simp [assigned, hop]) (.refl s) (by simp [hop]) (by simp [hop])
      (by simp [hop])
  | phi =>
    simp only [hop] at h
    cases h
    exact emitsInstr_nil (by simp [assigned, hop]) (.refl s) (by simp [hop]) (by simp [hop])
      (by simp [hop])
  | br =>
    simp only [hop] at h
    exact emitsInstr_nil (by simp [assigned, hop]) (branch_emits h) (by simp [hop]) (by simp [hop])
      (by simp [hop])
  | getelementptr =>
    simp only [hop] at h
    exact emitsInstr_nil (by simp [assigned, hop]) (gep_emits hn hk h) (by simp [hop])
      (by simp [hop]) (by simp [hop])
  | add | sub | mul | sdiv =>
    simp only [hop] at h
    refine @binInst_instr _ _ _ false _ hn nofun (by simp [assigned, hop]) (by simp [hop])
      (by simp [hop]) ?_
    rwa [hop]
  | fadd | fsub | fmul | fdiv =>
    simp only [hop] at h
    refine @binInst_instr _ _ _ true _ hn (by simp [hop]) (by simp [assigned, hop]) (by simp [hop])
      (by simp [hop]) ?_
    rwa [hop]
  | fptosi =>
    match hops : (f.instr i).operands with
    | [] => simp [hop, hops] at h
    | v :: l =>
      simp only [hop, hops] at h
      exact emitsInstr_one hops (by simp [assigned, hop]) (fptosi_emits hn h) (by simp [hop])
        (by simp [hop]) (by simp [hop])
  | sitofp =>
    match hops : (f.instr i).operands with
    | [] => simp [hop, hops] at h
    | v :: l =>
      simp only [hop, hops] at h
      exact emitsInstr_one hops (by simp [assigned, hop]) (sitofp_emits hn hk h) (by simp [hop])
        (by simp [hop]) (by simp [hop])
  | zext =>
    match hops : (f.instr i).operands with
    | [] => simp [hop, hops] at h
    | v :: l =>
      simp only [hop, hops] at h
      exact emitsInstr_one hops (by simp [assigned, hop]) (sext_emits hn h) (by simp [hop])
        (by simp [hop]) (by simp [hop])
  | cmp =>
    match hops : (f.instr i).operands with
    | [] => simp [hop, hops] at h
    | [v] => simp [hop, hops] at h
    | v :: w :: l =>
      simp only [hop, hops] at h
      exact emitsInstr_two hops (by simp [assigned, hop]) (icmp_emits hn h) (by simp [hop])
        (by simp [hop]) (by simp [hop])
  | fcmp =>
    match hops : (f.instr i).operands with
    | [] => simp [hop, hops] at h
    | [v] => simp [hop, hops] at h
    | v :: w :: l =>
      simp only [hop, hops] at h
      exact emitsInstr_two hops (by simp [assigned, hop]) (fcmp_emits hn h) (by simp [hop])
        (by simp [hop]) (by simp [hop])
  | load =>
    match hops : (f.instr i).operands with
    | [] => simp [hop, hops] at h
    | v :: l =>
      simp only [hop, hops] at h
      refine ⟨[], .inl (by simp [floatsOf, assigned, hop]),
        (load_emits hn hk (hglobal v (by simp [hops])) h).congr rfl fun _ => ?_⟩
      simp [InstrOk, assigned, hop, hops]
  | store =>
    match hops : (f.instr i).operands with
    | [] => simp [hop, hops] at h
    | [v] => simp [hop, hops] at h
    | v :: w :: l =>
      simp only [hop, hops] at h
      have ha : assigned (f.instr i) = [v] := by simp [assigned, hop, hops]
      have hf : floatsOf (f.instr i) = floatOf v := by simp [floatsOf, ha]
      obtain ⟨cs, hcs, he⟩ := store_emits hn hk (hglobal w (by simp [hops])) h
      refine ⟨cs, ?_, he.congr rfl fun _ => ?_⟩
      · rw [hf]
        exact hcs.imp id fun hcs => ⟨hop, hcs⟩
      · simp [InstrOk, ha, hop, hops]

/-! ## Functions -/

/-- The pieces of a block, one for each instruction. -/
def Pieces (P : InstrId → List Code → Prop) (l : List InstrId) (pieces : List (List Code)) : Prop :=
  List.Forall₂ P l pieces

/-- The pieces of a text, block by block. -/
def TextPieces (f : Func) (P : InstrId → List Code → Prop) (T : Text) : Prop :=
  List.Forall₂ (fun b p => p.1 = b ∧ Pieces P (f.body b) p.2) f.blocks T.blocks

/-- What an instruction does to an invariant of the generator, and to what is known of the pieces
that stand already. -/
def StepKeeps (f : Func) (I : St → Prop) (P : St → InstrId → List Code → Prop) : Prop :=
  ∀ i s s', I s → genInstr f i { s with ss := [] } = .ok s' →
    I s' ∧ P s' i s'.ss ∧ ∀ j code, P s j code → P s' j code

section Functions

variable {I : St → Prop} {P : St → InstrId → List Code → Prop}

theorem genBb_keeps (hstep : StepKeeps f I P) {l : List InstrId} :
    ∀ {acc pieces : List (List Code)} {s s' : St}, I s →
      l.foldlM (genPiece f) (acc, s) = .ok (pieces, s') →
        I s' ∧ (∀ j code, P s j code → P s' j code) ∧
          ∃ new, pieces = acc ++ new ∧ Pieces (P s') l new := by
  induction l with
  | nil =>
    intro acc pieces s s' hs h
    cases h
    exact ⟨hs, fun _ _ => id, [], (List.append_nil _).symm, .nil⟩
  | cons i l ih =>
    intro acc pieces s s' hs h
    rw [List.foldlM_cons] at h
    obtain ⟨c, hc, h⟩ := bind_ok.mp h
    obtain ⟨s₁, hs₁, hc⟩ := bind_ok.mp hc
    cases hc
    obtain ⟨hi, hp, hkeep⟩ := hstep i s s₁ hs hs₁
    obtain ⟨hi', hkeep', new, hnew, hpieces⟩ := ih hi h
    refine ⟨hi', fun j code hj => hkeep' j code (hkeep j code hj), s₁.ss :: new, ?_,
      .cons (hkeep' i _ hp) hpieces⟩
    rw [hnew, List.append_assoc, List.singleton_append]

theorem genBlocks_keep (hstep : StepKeeps f I P) {l : List BlockId} :
    ∀ {T T' : Text} {s s' : St}, I s → l.foldlM (genBlock f) (T, s) = .ok (T', s') →
      I s' ∧ (∀ j code, P s j code → P s' j code) ∧ T'.prologue = T.prologue ∧
        ∃ new, T'.blocks = T.blocks ++ new ∧
          List.Forall₂ (fun b (p : BlockId × List (List Code)) =>
            p.1 = b ∧ Pieces (P s') (f.body b) p.2) l new := by
  induction l with
  | nil =>
    intro T T' s s' hs h
    cases h
    exact ⟨hs, fun _ _ => id, rfl, [], (List.append_nil _).symm, .nil⟩
  | cons b l ih =>
    intro T T' s s' hs h
    rw [List.foldlM_cons] at h
    obtain ⟨c, hc, h⟩ := bind_ok.mp h
    obtain ⟨⟨pieces, s₁⟩, hbb, hc⟩ := bind_ok.mp hc
    cases hc
    obtain ⟨hi, hkeep, new, hnew, hpieces⟩ := genBb_keeps hstep hs hbb
    rw [List.nil_append] at hnew
    subst hnew
    obtain ⟨hi', hkeep', hpro, rest, hrest, hall⟩ := ih hi h
    refine ⟨hi', fun j code hj => hkeep' j code (hkeep j code hj), hpro, (b, pieces) :: rest, ?_,
      .cons ⟨rfl, hpieces.imp fun i code hp => hkeep' i code hp⟩ hall⟩
    rw [hrest, List.append_assoc, List.singleton_append]

/-- The state in front of the blocks. -/
def bodyState (f : Func) (keys : List Value) (s : St) : Except Failure St :=
  funPrologue f keys (allocateStack f keys { initState f s with s0Offset := fun _ => none })

/-- **An invariant of the generator, and what it says of each piece.** -/
theorem genFunction_keeps (hstep : StepKeeps f I P) {keys : List Value} {T : Text}
    (h : genFunction f keys s = .ok (T, s')) :
    ∃ s₁, bodyState f keys s = .ok s₁ ∧ T.prologue = s₁.ss ∧
      (I s₁ → I s' ∧ (∀ j code, P s₁ j code → P s' j code) ∧ TextPieces f (P s') T) := by
  obtain ⟨s₁, hpro, h⟩ := bind_ok.mp h
  refine ⟨s₁, hpro, ?_, fun hs => ?_⟩
  · have hkeep : StepKeeps f (fun _ => True) (fun _ _ _ => True) :=
      fun _ _ _ _ _ => ⟨trivial, trivial, fun _ _ => id⟩
    exact (genBlocks_keep hkeep trivial h).2.2.1
  · obtain ⟨hi, hkeep, -, new, hnew, hall⟩ := genBlocks_keep hstep hs h
    refine ⟨hi, hkeep, ?_⟩
    rw [TextPieces, hnew, List.nil_append]
    exact hall

end Functions

/-! ## The prologue -/

/-- What `gen_function` does before the text is a change of registers. -/
theorem initState_members (f : Func) (s : St) :
    (initState f s).localFloats = s.localFloats ∧ (initState f s).stackSize = s.stackSize ∧
      (initState f s).stackMapping = s.stackMapping ∧ (initState f s).ss = [] ∧
        (NoConst s → NoConst (initState f s)) := by
  have herase : ∀ (l : List Nat) (s : St),
      let s' := (l.map Value.arg).foldl St.eraseArg s
      s'.localFloats = s.localFloats ∧ s'.stackSize = s.stackSize ∧
        s'.stackMapping = s.stackMapping ∧ s'.ss = s.ss ∧ (NoConst s → NoConst s') := by
    intro l
    induction l with
    | nil => exact fun s => ⟨rfl, rfl, rfl, rfl, id⟩
    | cons no l ih =>
      intro s
      obtain ⟨h1, h2, h3, h4, h5⟩ := ih (s.eraseArg (.arg no))
      exact ⟨h1, h2, h3, h4, fun hk => h5 ((Emits.touchReg s (v := .arg no) rfl rfl).noConst hk)⟩
  have hfresh : ∀ (l : List Nat) (s : St),
      let s' := (l.map Value.arg).foldl St.freshArg s
      s'.localFloats = s.localFloats ∧ s'.stackSize = s.stackSize ∧
        s'.stackMapping = s.stackMapping ∧ s'.ss = s.ss ∧ (NoConst s → NoConst s') := by
    intro l
    induction l with
    | nil => exact fun s => ⟨rfl, rfl, rfl, rfl, id⟩
    | cons no l ih =>
      intro s
      obtain ⟨h1, h2, h3, h4, h5⟩ := ih (s.freshArg (.arg no))
      exact ⟨h1, h2, h3, h4, h5⟩
  unfold initState
  dsimp only
  obtain ⟨h1, h2, h3, h4, h5⟩ := hfresh (List.range f.args.length) _
  rw [h1, h2, h3, h4]
  obtain ⟨k1, k2, k3, k4, k5⟩ := herase (List.range f.args.length) _
  rw [k1, k2, k3, k4]
  exact ⟨rfl, rfl, rfl, rfl, fun hk => h5 (k5 hk)⟩

/-- Nothing but lines is added. -/
def OnlyText (s s' : St) (text : List Code) : Prop := s' = { s with ss := s.ss ++ text }

theorem OnlyText.refl (s : St) : OnlyText s s [] := by simp [OnlyText]

theorem OnlyText.trans {s₁ : St} {t t' : List Code} (h : OnlyText s s₁ t)
    (h' : OnlyText s₁ s' t') : OnlyText s s' (t ++ t') := by
  subst h
  subst h'
  simp [OnlyText, List.append_assoc]

theorem print_onlyText {cond : Bool} {rs : List RegRef} {c : Code}
    (h : print (Instgen.line cond rs c) s = .ok s') : OnlyText s s' [c] := (print_line h).2

/-- The line that saves a register in front of the body. -/
def pushLine (r : RegRef) (offset : Int) : Code :=
  .store (if r.reg.f then .single else if r.d then .double else .word) r.reg offset s0.reg

theorem pushCallerSavedReg_text {offsets : Reg → Option Int} {ds : Reg → Bool} {r : Reg}
    (h : pushCallerSavedReg offsets ds s r = .ok s') :
    OnlyText s s' (if s.fresh r = true then
      ((offsets r).map (pushLine ⟨r, ds r⟩)).toList else []) := by
  unfold pushCallerSavedReg at h
  cases ho : offsets r with
  | none =>
    simp only [ho] at h
    cases h
    simp [OnlyText.refl]
  | some off =>
    simp only [ho] at h
    split_ifs at h with hfresh hf hd
    · rw [if_pos hfresh]
      have := print_onlyText h
      simpa [pushLine, hf] using this
    · rw [if_pos hfresh]
      have := print_onlyText h
      simpa [pushLine, hf, hd] using this
    · rw [if_pos hfresh]
      have := print_onlyText h
      simpa [pushLine, hf, hd] using this
    · cases h
      rw [if_neg hfresh]
      exact .refl _

/-- The registers saved in front of the body. -/
theorem pushes_text {offsets : Reg → Option Int} {ds : Reg → Bool} {l : List Reg} :
    ∀ {s : St}, l.foldlM (pushCallerSavedReg offsets ds) s = .ok s' →
      OnlyText s s' (l.flatMap fun r => if s.fresh r = true then
        ((offsets r).map (pushLine ⟨r, ds r⟩)).toList else []) := by
  induction l with
  | nil =>
    intro s h
    cases h
    exact .refl _
  | cons r l ih =>
    intro s h
    rw [List.foldlM_cons] at h
    obtain ⟨s₁, h₁, h⟩ := bind_ok.mp h
    have ht := pushCallerSavedReg_text h₁
    have hfresh : s₁.fresh = s.fresh := by
      rw [ht]
    have hrest := ih h
    rw [hfresh] at hrest
    rw [List.flatMap_cons]
    exact ht.trans hrest

/-- The lines that save `ra` and `s0`. -/
def saveLines (f : Func) (size : Int) : List Code :=
  if hasFcalls f then
    [.store .double ra.reg (size - 8) sp.reg, .store .double s0.reg (size - 16) sp.reg]
  else [.store .double s0.reg (size - 8) sp.reg]

theorem saveFrame_text (h : saveFrame f s = .ok s') :
    OnlyText s s' (saveLines f s.stackSize) := by
  unfold saveFrame at h
  unfold saveLines
  split_ifs at h ⊢
  · obtain ⟨s₁, h₁, h₂⟩ := bind_ok.mp h
    have ht := print_onlyText h₁
    have hsize : s₁.stackSize = s.stackSize := by rw [ht]
    have := ht.trans (print_onlyText h₂)
    rwa [hsize] at this
  · exact print_onlyText h

/-- The lines that save the registers of the arguments. -/
def pushLines (f : Func) (keys : List Value) (s : St) : List Code :=
  if hasFcalls f then
    callerSavedRegs.flatMap fun r => if s.fresh r = true then
      ((s.s0Offset r).map (pushLine ⟨r, ((keys.find? fun v => (s.regAt v).reg = r).map
        fun v => (s.regAt v).d).getD false⟩)).toList else []
  else []

/-- **The prologue**: the frame is entered, `ra` and `s0` are saved, `s0` is set, and the registers
of the arguments are saved. -/
theorem funPrologue_text {keys : List Value} (h : funPrologue f keys s = .ok s') :
    OnlyText s s' ([.opImm .addi sp.reg sp.reg (-s.stackSize)] ++ saveLines f s.stackSize ++
      [.opImm .addi s0.reg sp.reg s.stackSize] ++ pushLines f keys s) := by
  unfold funPrologue at h
  obtain ⟨s₁, h₁, h⟩ := bind_ok.mp h
  obtain ⟨s₂, h₂, h⟩ := bind_ok.mp h
  obtain ⟨s₃, h₃, h⟩ := bind_ok.mp h
  have ht₁ := print_onlyText h₁
  have ht₂ := saveFrame_text h₂
  have hsize₁ : s₁.stackSize = s.stackSize := by rw [ht₁]
  rw [hsize₁] at ht₂
  have hsize₂ : s₂.stackSize = s.stackSize := by rw [ht₂, ht₁]
  have ht₃ := print_onlyText h₃
  rw [hsize₂] at ht₃
  have ht := (ht₁.trans ht₂).trans ht₃
  refine ht.trans ?_
  unfold pushLines
  split_ifs at h ⊢
  · have hpush := pushes_text h
    rw [ht] at hpush ⊢
    exact hpush
  · cases h
    exact .refl _

/-- The size of the save slot that a value asks for. -/
def saveSize (f : Func) (v : Value) : Int :=
  if (valueType f v).size < 4 then 4 else (valueType f v).size

/-- The body of the loop of `allocate_stack`. -/
def reserve (f : Func) (s : St) (v : Value) : St :=
  if (s.regAt v).reg ∈ callerSavedRegs then
    { s with
      stackSize := s.stackSize + saveSize f v
      s0Offset := Function.update s.s0Offset (s.regAt v).reg (some (-(s.stackSize + saveSize f v))) }
  else s

theorem allocateStack_eq (f : Func) (keys : List Value) (s : St) :
    allocateStack f keys s = if hasFcalls f then keys.foldl (reserve f) s else s := rfl

/-- The loop of `allocate_stack` changes the frame only. -/
theorem reserve_members (f : Func) (s : St) (v : Value) :
    (reserve f s v).localFloats = s.localFloats ∧
      (reserve f s v).stackMapping = s.stackMapping ∧
        (reserve f s v).regMapping = s.regMapping ∧ (reserve f s v).ss = s.ss ∧
          (reserve f s v).fresh = s.fresh := by
  unfold reserve
  split_ifs <;> exact ⟨rfl, rfl, rfl, rfl, rfl⟩

/-- What `allocate_stack` leaves alone. -/
theorem allocateStack_members (f : Func) (keys : List Value) (s : St) :
    (allocateStack f keys s).localFloats = s.localFloats ∧
      (allocateStack f keys s).stackMapping = s.stackMapping ∧
        (allocateStack f keys s).regMapping = s.regMapping ∧ (allocateStack f keys s).ss = s.ss ∧
          (allocateStack f keys s).fresh = s.fresh := by
  rw [allocateStack_eq]
  split_ifs
  · induction keys generalizing s with
    | nil => exact ⟨rfl, rfl, rfl, rfl, rfl⟩
    | cons v keys ih =>
      obtain ⟨h1, h2, h3, h4, h5⟩ := reserve_members f s v
      obtain ⟨k1, k2, k3, k4, k5⟩ := ih (reserve f s v)
      exact ⟨k1.trans h1, k2.trans h2, k3.trans h3, k4.trans h4, k5.trans h5⟩
  · exact ⟨rfl, rfl, rfl, rfl, rfl⟩

/-- The state in front of the blocks: the constants so far, and no constant in a register. -/
theorem bodyState_floats {keys : List Value} (h : bodyState f keys s = .ok s') :
    s'.localFloats = s.localFloats ∧ (NoConst s → NoConst s') := by
  have ht := funPrologue_text h
  obtain ⟨h1, -, -, -, h5⟩ := initState_members f s
  obtain ⟨k1, -, k3, -, -⟩ :=
    allocateStack_members f keys { initState f s with s0Offset := fun _ => none }
  constructor
  · rw [ht]
    exact k1.trans h1
  · intro hk v hv
    have hreg : s'.regMapping = (initState f s).regMapping := by
      rw [ht]
      exact k3
    rw [hreg] at hv
    exact h5 hk v hv

end

end Cminusfc.Codegen
