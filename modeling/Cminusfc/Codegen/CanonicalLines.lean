import Cminusfc.Codegen.Canonical

/-!
# 32-bit values in 64-bit registers: the lines

What the code of one instruction does to the machine (`binInst_runs`, `icmp_runs`, `sext_runs`,
`branch_runs`) and to the generator (`genInstr_defines`).

About `src/codegen/codegen.cpp` 306-370 (`branch`, `sext`, `icmp`), 413-508 (`bin_inst_imm`,
`bin_inst`) and 602-660 (`assign`). Out of scope: floats, loads and stores, calls, spilled values.
-/

namespace Cminusfc.Codegen.Canonical

open Cminusfc.LightIR
open Fallible (bind_ok)
open RegAlloc (LiveAt hasFcalls)

/-! ## The routines -/

section

variable {W : Type} {t : Target W} {f : Func} {m₀ m : Riscv.State Reg W} {s s' : St}
  {dest rhsReg : RegRef} {lhs rhs : Value} {i : InstrId}

theorem printBin_runs {op : OpID} {o : Riscv.Op} (ho : binOp op = some o)
    (h : printBin op false dest rhsReg s = .ok s') (hr : Runs t m₀ s m) (hd : dest.reg ∈ intRegs)
    (hs : rhsReg.reg ∈ intRegs) :
    Runs t m₀ s' (m.set dest.reg (o.eval (m.regs dest.reg) (m.regs rhsReg.reg))) := by
  obtain ⟨hdf, hdz, -⟩ := intRegs_spec hd
  obtain ⟨hsf, hsz, -⟩ := intRegs_spec hs
  have hget : t.machine.get m dest.reg = m.regs dest.reg := Riscv.Machine.get_of_ne hdz
  have hget' : t.machine.get m rhsReg.reg = m.regs rhsReg.reg := Riscv.Machine.get_of_ne hsz
  rw [← hget, ← hget']
  cases op <;> simp only [binOp, Option.some.injEq, reduceCtorEq] at ho <;> subst ho <;>
    simp only [printBin, Bool.not_false, if_true] at h
  · exact add_runs h hr hdf hdf hsf
  · exact int3_runs h hr
  · exact int3_runs h hr
  · exact int3_runs h hr

/-- `bin_inst` with both operands in registers. -/
theorem binInstReg_runs {op : OpID} {o : Riscv.Op} (ho : binOp op = some o)
    (h : binInstReg f i op lhs rhs false s = .ok s') (hr : Runs t m₀ s m)
    (hcalls : hasFcalls f = false) (hreg : s.regMapping (.instr i) = some dest)
    (hl : Operand f s lhs) (hrhs : Operand f s rhs) (hd : dest.reg ∈ intRegs) (hdd : dest.d = false)
    (hne : ∀ r, s.regMapping rhs = some r → r.reg ≠ dest.reg ∨ rhs = lhs)
    (hconst : asConstantInt rhs ≠ none → s.regMapping rhs = none)
    (hfree : ∀ r ∈ s.freeRegs, r.f = false → r ∈ intRegs) :
    ∃ m', Runs t m₀ s' m' ∧ Writes s dest.reg m m' ∧
      m'.regs dest.reg = o.eval (valueIn s m lhs) (valueIn s m rhs) := by
  obtain ⟨⟨v, r⟩, hat, h⟩ := bind_ok.mp h
  simp only [St.regAtOrThrow, hreg] at hat
  cases hat
  obtain ⟨s₁, h₁, h⟩ := bind_ok.mp h
  obtain ⟨rhsReg, h₂, h⟩ := bind_ok.mp h
  obtain ⟨s₂, h₃, h⟩ := bind_ok.mp h
  obtain ⟨s₃, h₄, h₅⟩ := bind_ok.mp h
  obtain ⟨m₂, hr₂, hX, hY, hint, hw⟩ :=
    Taken.runs ⟨s₁, h₁, h₂, h₃⟩ hr hcalls hl hrhs hd hdd hne hconst hfree
  have hr₃ := (printBin_runs ho h₄ hr₂ hd hint).save h₅ hcalls
  refine ⟨_, hr₃, hw.set _, ?_⟩
  rw [Riscv.State.set_regs, Function.update_self, hX, hY]

/-- `bin_inst_imm`: the immediate is added, or its negation. -/
theorem binInstImm_runs {op : OpID} {c : Int} (hop : op = .add ∨ op = .sub)
    (h : binInstImm f i op lhs c s = .ok s') (hr : Runs t m₀ s m) (hcalls : hasFcalls f = false)
    (hreg : s.regMapping (.instr i) = some dest) (hl : Operand f s lhs) (hd : dest.reg ∈ intRegs)
    (hdd : dest.d = false) (hc : isImm c = true) (hneg : op = .sub → c ≠ -2048) :
    ∃ m', Runs t m₀ s' m' ∧ Writes s dest.reg m m' ∧
      m'.regs dest.reg =
        valueIn s m lhs + BitVec.ofInt 64 (if op = .sub then -c else c) := by
  obtain ⟨hdf, hdz, -⟩ := intRegs_spec hd
  unfold binInstImm at h
  simp only [hreg] at h
  obtain ⟨s₁, h₁, h⟩ := bind_ok.mp h
  obtain ⟨s₂, h₂, h₃⟩ := bind_ok.mp h
  have hr₁ := assign_runs h₁ (hr.congr (St.erase_ss s dest.reg)) hcalls
    (hl.kept (St.erase_regMapping s _) (St.erase_fresh s _)) hd hdd
  have himm : isImm (if op = .sub then -c else c) = true := by
    simp only [isImm, Bool.and_eq_true, decide_eq_true_eq] at hc ⊢
    split_ifs with hsub
    · have := hneg hsub
      omega
    · exact hc
  have hline : print (Instgen.addi dest dest (if op = .sub then -c else c)) s₁ = .ok s₂ := by
    rcases hop with rfl | rfl
    · simpa [printImm] using h₂
    · simpa [printImm] using h₂
  have hr₂ := (addi_runs hline hr₁ hdf hdf himm).save h₃ hcalls
  rw [Riscv.Machine.get_set hdz, set_set] at hr₂
  exact ⟨_, hr₂, Writes.set ⟨fun _ _ _ => rfl, rfl, rfl⟩ _,
    by rw [Riscv.State.set_regs, Function.update_self]; rfl⟩

theorem immOf_some {v : Value} {c : Int} (h : immOf v = some c) :
    asConstantInt v = some c ∧ isImm c = true := by
  simpa [immOf, Option.filter_eq_some_iff] using h

/-- **`bin_inst`** computes the operation on the values of its operands. -/
theorem binInst_runs {op : OpID} {o : Riscv.Op} (ho : binOp op = some o)
    (hops : (f.instr i).operands = [lhs, rhs]) (h : binInst f i op false s = .ok s')
    (hr : Runs t m₀ s m) (hcalls : hasFcalls f = false)
    (hreg : s.regMapping (.instr i) = some dest) (hl : Operand f s lhs) (hrhs : Operand f s rhs)
    (hd : dest.reg ∈ intRegs) (hdd : dest.d = false)
    (hne : ∀ r, s.regMapping rhs = some r → r.reg ≠ dest.reg ∨ rhs = lhs)
    (hconst : asConstantInt rhs ≠ none → s.regMapping rhs = none)
    (hfree : ∀ r ∈ s.freeRegs, r.f = false → r ∈ intRegs)
    (hneg : op = .sub → asConstantInt rhs ≠ some (-2048)) :
    ∃ m', Runs t m₀ s' m' ∧ Writes s dest.reg m m' ∧
      m'.regs dest.reg = o.eval (valueIn s m lhs) (valueIn s m rhs) := by
  have hboth : binInstReg f i op lhs rhs false s = .ok s' → _ := fun h =>
    binInstReg_runs ho h hr hcalls hreg hl hrhs hd hdd hne hconst hfree
  unfold binInst at h
  simp only [hops, Bool.not_false, Bool.true_and] at h
  by_cases hadd : op = .add ∨ op = .sub
  · rw [if_pos (by simpa using hadd)] at h
    cases hri : immOf rhs with
    | some c =>
      simp only [hri] at h
      obtain ⟨hrc, himm⟩ := immOf_some hri
      obtain ⟨m', hr', hw, hX⟩ := binInstImm_runs hadd h hr hcalls hreg hl hd hdd himm
        fun hsub he => hneg hsub (he ▸ hrc)
      refine ⟨m', hr', hw, ?_⟩
      rw [hX]
      rcases hadd with rfl | rfl
      · cases ho
        simp [Riscv.Op.eval, valueIn, hrc]
      · cases ho
        simp [Riscv.Op.eval, valueIn, hrc, BitVec.sub_eq_add_neg, BitVec.ofInt_neg]
    | none =>
      cases hli : immOf lhs with
      | none =>
        simp only [hri, hli] at h
        exact hboth h
      | some c =>
        simp only [hri, hli] at h
        by_cases hsub : op = .sub
        · rw [if_neg (by simpa using hsub)] at h
          exact hboth h
        · rw [if_pos hsub] at h
          obtain ⟨hlc, himm⟩ := immOf_some hli
          obtain ⟨m', hr', hw, hX⟩ := binInstImm_runs hadd h hr hcalls hreg hrhs hd hdd himm
            fun he => absurd he hsub
          refine ⟨m', hr', hw, ?_⟩
          obtain rfl := hadd.resolve_right hsub
          cases ho
          rw [hX]
          simp [Riscv.Op.eval, valueIn, hlc, BitVec.add_comm]
  · rw [if_neg (by simpa using hadd)] at h
    exact hboth h

theorem slt_sext (a b : BitVec 32) : (Riscv.sext a).slt (Riscv.sext b) = a.slt b := by
  simp only [BitVec.slt_eq_decide, Riscv.sext_toInt]

theorem sub_sext_eq_zero {a b : BitVec 32} : Riscv.sext a - Riscv.sext b = 0 ↔ a = b := by
  rw [← Riscv.sext_inj]
  constructor
  · intro h
    have := congrArg (· + Riscv.sext b) h
    simpa [BitVec.sub_add_cancel] using this
  · intro h
    rw [h]
    exact BitVec.sub_self _

/-- What the lines of a comparison compute. -/
def compareWords (op : CmpOp) (x y : Riscv.Word) : Riscv.Word :=
  match op with
  | .EQ => Riscv.OpOne.seqz.eval (x - y)
  | .NE => Riscv.OpOne.snez.eval (x - y)
  | .GE => Riscv.OpImm.xori.eval (Riscv.Op.slt.eval x y) 1
  | .LE => Riscv.OpImm.xori.eval (Riscv.Op.sgt.eval x y) 1
  | .GT => Riscv.Op.sgt.eval x y
  | .LT => Riscv.Op.slt.eval x y

/-- **The comparisons are exact on sign extensions.** -/
theorem compareWords_sext (op : CmpOp) (a b : BitVec 32) :
    compareWords op (Riscv.sext a) (Riscv.sext b) = Riscv.sext (if compare op a b then 1 else 0) := by
  cases op with
  | EQ =>
    by_cases h : a = b
    · simp only [compareWords, Riscv.OpOne.eval, compare, if_pos (sub_sext_eq_zero.mpr h),
        decide_eq_true h]
      rfl
    · simp only [compareWords, Riscv.OpOne.eval, compare, if_neg (mt sub_sext_eq_zero.mp h),
        decide_eq_false h]
      rfl
  | NE =>
    by_cases h : a = b
    · simp only [compareWords, Riscv.OpOne.eval, compare, if_pos (sub_sext_eq_zero.mpr h), ne_eq,
        decide_eq_false (not_not.mpr h)]
      rfl
    · simp only [compareWords, Riscv.OpOne.eval, compare, if_neg (mt sub_sext_eq_zero.mp h), h,
        ne_eq, not_false_eq_true, decide_true]
      rfl
  | GE | LT =>
    simp only [compareWords, Riscv.OpImm.eval, Riscv.Op.eval, slt_sext, compare]
    by_cases h : a.slt b = true <;> simp only [h] <;> rfl
  | LE | GT =>
    simp only [compareWords, Riscv.OpImm.eval, Riscv.Op.eval, slt_sext, compare]
    by_cases h : b.slt a = true <;> simp only [h] <;> rfl

/-- The lines of a comparison. -/
theorem printCmp_runs {op : CmpOp} (h : printCmp op dest rhsReg s = .ok s')
    (hr : Runs t m₀ s m) (hd : dest.reg ∈ intRegs) (hs : rhsReg.reg ∈ intRegs) :
    Runs t m₀ s' (m.set dest.reg (compareWords op (m.regs dest.reg) (m.regs rhsReg.reg))) := by
  obtain ⟨-, hdz, -⟩ := intRegs_spec hd
  obtain ⟨-, hsz, -⟩ := intRegs_spec hs
  have hget : t.machine.get m dest.reg = m.regs dest.reg := Riscv.Machine.get_of_ne hdz
  have hget' : t.machine.get m rhsReg.reg = m.regs rhsReg.reg := Riscv.Machine.get_of_ne hsz
  rw [← hget, ← hget']
  cases op with
  | EQ | NE =>
    obtain ⟨s₁, h₁, h₂⟩ := bind_ok.mp h
    have := int2_runs h₂ (int3_runs h₁ hr)
    rwa [Riscv.Machine.get_set hdz, set_set] at this
  | GE | LE =>
    obtain ⟨s₁, h₁, h₂⟩ := bind_ok.mp h
    have := intImm_runs h₂ (int3_runs h₁ hr) (by decide)
    rwa [Riscv.Machine.get_set hdz, set_set] at this
  | GT | LT => exact int3_runs h hr

/-- **`icmp`** decides as the 32-bit comparison does. -/
theorem icmp_runs {a b : BitVec 32} (h : icmp f i lhs rhs s = .ok s')
    (hr : Runs t m₀ s m) (hcalls : hasFcalls f = false)
    (hreg : s.regMapping (.instr i) = some dest) (hl : Operand f s lhs) (hrhs : Operand f s rhs)
    (hd : dest.reg ∈ intRegs) (hdd : dest.d = false)
    (hne : ∀ r, s.regMapping rhs = some r → r.reg ≠ dest.reg ∨ rhs = lhs)
    (hconst : asConstantInt rhs ≠ none → s.regMapping rhs = none)
    (hfree : ∀ r ∈ s.freeRegs, r.f = false → r ∈ intRegs)
    (ha : valueIn s m lhs = Riscv.sext a) (hb : valueIn s m rhs = Riscv.sext b) :
    ∃ m', Runs t m₀ s' m' ∧ Writes s dest.reg m m' ∧
      m'.regs dest.reg = Riscv.sext (if compare (f.instr i).cmpOp a b then 1 else 0) := by
  unfold icmp at h
  simp only [hreg] at h
  obtain ⟨s₁, h₁, h⟩ := bind_ok.mp h
  obtain ⟨rhsReg, h₂, h⟩ := bind_ok.mp h
  obtain ⟨s₂, h₃, h⟩ := bind_ok.mp h
  obtain ⟨m₂, hr₂, hX, hY, hint, hw⟩ :=
    Taken.runs ⟨s₁, h₁, h₂, h₃⟩ hr hcalls hl hrhs hd hdd hne hconst hfree
  have hr₃ := printCmp_runs h hr₂ hd hint
  rw [hX, hY, ha, hb, compareWords_sext] at hr₃
  exact ⟨_, hr₃, hw.set _, by rw [Riscv.State.set_regs, Function.update_self]⟩

/-- **`sext`** keeps an `i1`. -/
theorem sext_runs {a : BitVec 32} (h : sext f i lhs s = .ok s') (hr : Runs t m₀ s m)
    (hcalls : hasFcalls f = false) (hreg : s.regMapping (.instr i) = some dest)
    (hl : Operand f s lhs) (hd : dest.reg ∈ intRegs) (hdd : dest.d = false)
    (ha : valueIn s m lhs = Riscv.sext a) (hbool : a = 0 ∨ a = 1) :
    ∃ m', Runs t m₀ s' m' ∧ Writes s dest.reg m m' ∧ m'.regs dest.reg = Riscv.sext a := by
  obtain ⟨hdf, hdz, -⟩ := intRegs_spec hd
  unfold sext at h
  simp only [hreg] at h
  obtain ⟨s₁, h₁, h⟩ := bind_ok.mp h
  obtain ⟨s₂, h₂, h⟩ := bind_ok.mp h
  obtain ⟨s₃, h₃, h₄⟩ := bind_ok.mp h
  have hr₁ := assign_runs h₁ (hr.congr (St.erase_ss s dest.reg)) hcalls
    (hl.kept (St.erase_regMapping s _) (St.erase_fresh s _)) hd hdd
  have hr₃ := (int2_runs h₃ (intImm_runs h₂ hr₁ (by decide))).save h₄ hcalls
  have hX : valueIn (s.erase dest.reg) m lhs = Riscv.sext a := ha
  rw [Riscv.Machine.get_set hdz, Riscv.Machine.get_set hdz, set_set, set_set, hX] at hr₃
  refine ⟨_, hr₃, Writes.set ⟨fun _ _ _ => rfl, rfl, rfl⟩ _, ?_⟩
  rw [Riscv.State.set_regs, Function.update_self]
  rcases hbool with rfl | rfl <;> decide

/-- **`branch`** changes no register. -/
theorem branch_cond_runs {x : Instr} {c : Value} {a e : BlockId} {r : RegRef}
    (hops : x.operands = [c, .block a, .block e]) (h : branch x s = .ok s') (hss : s.ss = [])
    (hreg : s.regMapping c = some r) (hr : r.reg ∈ intRegs) :
    t.machine.run s'.ss m = .jump (some (if m.regs r.reg ≠ 0 then a else e)) m := by
  obtain ⟨hf, hz, -⟩ := intRegs_spec hr
  unfold branch at h
  simp only [hops, hreg] at h
  obtain ⟨s₁, h₁, h₂⟩ := bind_ok.mp h
  obtain ⟨-, rfl⟩ := print_line h₁
  obtain ⟨-, rfl⟩ := print_line h₂
  have hget : t.machine.get m r.reg = m.regs r.reg := Riscv.Machine.get_of_ne hz
  have hexec : t.machine.exec (.bnez r.reg (Value.block a).asBlock : Code) m =
      if m.regs r.reg = 0 then .next m else .jump (some a) m := by
    rw [Riscv.Machine.exec_of_accepts (by simp [Riscv.Machine.accepts, hf])]
    simp [Riscv.Machine.effect, hget, Value.asBlock]
  simp only [St.put_ss, hss, List.nil_append, List.cons_append, Riscv.Machine.run, hexec]
  by_cases h0 : m.regs r.reg = 0
  · simp [h0, Riscv.Machine.exec, Riscv.Machine.accepts, Riscv.Machine.effect, Value.asBlock]
  · rw [if_neg h0, if_pos h0]

theorem branch_jump_runs {x : Instr} {a : BlockId} (hops : x.operands = [.block a])
    (h : branch x s = .ok s') (hss : s.ss = []) :
    t.machine.run s'.ss m = .jump (some a) m := by
  unfold branch at h
  simp only [hops] at h
  obtain ⟨-, rfl⟩ := print_line h
  simp [hss, Riscv.Machine.run, Riscv.Machine.exec, Riscv.Machine.accepts, Riscv.Machine.effect,
    Value.asBlock]

/-! ## The generator -/

theorem printBin_kept {op : OpID} {fl : Bool} (h : printBin op fl dest rhsReg s = .ok s') :
    Kept s s' := by
  cases fl <;> cases op <;> simp only [printBin, Bool.not_true, Bool.not_false, if_true,
    Bool.false_eq_true, if_false] at h <;>
    first
      | exact print_kept h
      | (cases h; exact Kept.refl s)

theorem printImm_kept {op : OpID} {c : Int} (h : printImm op dest c s = .ok s') : Kept s s' := by
  cases op <;> simp only [printImm] at h <;>
    first
      | exact print_kept h
      | (cases h; exact Kept.refl s)

theorem printCmp_kept {op : CmpOp} (h : printCmp op dest rhsReg s = .ok s') : Kept s s' := by
  cases op with
  | EQ | NE | GE | LE =>
    obtain ⟨s₁, h₁, h₂⟩ := bind_ok.mp h
    exact (print_kept h₁).trans (print_kept h₂)
  | GT | LT => exact print_kept h

theorem branch_kept {x : Instr} (h : branch x s = .ok s') : Kept s s' := by
  unfold branch at h
  split at h
  · split at h
    · obtain ⟨s₁, h₁, h₂⟩ := bind_ok.mp h
      exact (print_kept h₁).trans (print_kept h₂)
    · cases h
  · exact print_kept h
  · cases h

theorem funEpilogue_kept {x : Instr} (h : funEpilogue f x s = .ok s') : Kept s s' := by
  obtain ⟨s₁, h₁, h⟩ := bind_ok.mp h
  obtain ⟨s₂, h₂, h⟩ := bind_ok.mp h
  obtain ⟨s₃, h₃, h₄⟩ := bind_ok.mp h
  have hval : Kept s s₁ := by
    unfold moveRetVal at h₁
    cases hops : x.operands with
    | nil =>
      rw [hops] at h₁
      cases h₁
      exact Kept.refl s
    | cons v l =>
      rw [hops] at h₁
      obtain ⟨r, -, h₁⟩ := bind_ok.mp h₁
      obtain ⟨s₅, h₅, h₁⟩ := bind_ok.mp h₁
      exact (assign_kept h₅).trans (print_kept h₁)
  have hframe : Kept s₁ s₂ := by
    unfold restoreFrame at h₂
    by_cases hcalls : hasFcalls f = true
    · rw [if_pos hcalls] at h₂
      obtain ⟨s₅, h₅, h₂⟩ := bind_ok.mp h₂
      exact (print_kept h₅).trans (print_kept h₂)
    · rw [if_neg hcalls] at h₂
      exact print_kept h₂
  exact hval.trans (hframe.trans ((print_kept h₃).trans (print_kept h₄)))

theorem binInstReg_defines {op : OpID} (h : binInstReg f i op lhs rhs false s = .ok s')
    (hcalls : hasFcalls f = false) :
    ∃ d, s.regMapping (.instr i) = some d ∧ Defines s s' d.reg true := by
  obtain ⟨⟨v, d⟩, hat, h⟩ := bind_ok.mp h
  cases hreg : s.regMapping (.instr i) with
  | none => simp [St.regAtOrThrow, hreg] at hat
  | some r =>
    simp only [St.regAtOrThrow, hreg] at hat
    cases hat
    obtain ⟨s₁, h₁, h⟩ := bind_ok.mp h
    obtain ⟨rhsReg, h₂, h⟩ := bind_ok.mp h
    obtain ⟨s₂, h₃, h⟩ := bind_ok.mp h
    obtain ⟨s₃, h₄, h₅⟩ := bind_ok.mp h
    have htaken : Taken f d rhsReg lhs rhs s s₂ := ⟨s₁, h₁, h₂, h₃⟩
    exact ⟨d, rfl, (htaken.defines.kept (printBin_kept h₄)).save h₅ hcalls⟩

theorem binInstImm_defines {op : OpID} {c : Int} (h : binInstImm f i op lhs c s = .ok s')
    (hcalls : hasFcalls f = false) :
    ∃ d, s.regMapping (.instr i) = some d ∧ Defines s s' d.reg true := by
  unfold binInstImm at h
  cases hreg : s.regMapping (.instr i) with
  | none => simp [hreg] at h
  | some d =>
    simp only [hreg] at h
    obtain ⟨s₁, h₁, h⟩ := bind_ok.mp h
    obtain ⟨s₂, h₂, h₃⟩ := bind_ok.mp h
    exact ⟨d, rfl, (((erase_defines s d.reg).kept (assign_kept h₁)).kept (printImm_kept h₂)).save h₃
      hcalls⟩

theorem binInst_defines {op : OpID} (h : binInst f i op false s = .ok s')
    (hcalls : hasFcalls f = false) :
    ∃ d, s.regMapping (.instr i) = some d ∧ Defines s s' d.reg true := by
  unfold binInst at h
  split at h
  · split at h
    · split at h
      · exact binInstImm_defines h hcalls
      · split at h
        · exact binInstImm_defines h hcalls
        · exact binInstReg_defines h hcalls
      · exact binInstReg_defines h hcalls
    · exact binInstReg_defines h hcalls
  · cases h

theorem icmp_defines (h : icmp f i lhs rhs s = .ok s') :
    ∃ d, s.regMapping (.instr i) = some d ∧ Defines s s' d.reg false := by
  unfold icmp at h
  cases hreg : s.regMapping (.instr i) with
  | none => simp [hreg] at h
  | some d =>
    simp only [hreg] at h
    obtain ⟨s₁, h₁, h⟩ := bind_ok.mp h
    obtain ⟨rhsReg, h₂, h⟩ := bind_ok.mp h
    obtain ⟨s₂, h₃, h⟩ := bind_ok.mp h
    have htaken : Taken f d rhsReg lhs rhs s s₂ := ⟨s₁, h₁, h₂, h₃⟩
    exact ⟨d, rfl, htaken.defines.kept (printCmp_kept h)⟩

theorem sext_defines (h : sext f i lhs s = .ok s') (hcalls : hasFcalls f = false) :
    ∃ d, s.regMapping (.instr i) = some d ∧ Defines s s' d.reg true := by
  unfold sext at h
  cases hreg : s.regMapping (.instr i) with
  | none => simp [hreg] at h
  | some d =>
    simp only [hreg] at h
    obtain ⟨s₁, h₁, h⟩ := bind_ok.mp h
    obtain ⟨s₂, h₂, h⟩ := bind_ok.mp h
    obtain ⟨s₃, h₃, h₄⟩ := bind_ok.mp h
    have hkept := (assign_kept h₁).trans ((print_kept h₂).trans (print_kept h₃))
    exact ⟨d, rfl, ((erase_defines s d.reg).kept hkept).save h₄ hcalls⟩

/-- **What an instruction does to the generator**: it defines its register, and saves it unless it
holds an `i1`. -/
theorem genInstr_defines (h : genInstr f i s = .ok s') (hx : WellTyped f (f.instr i))
    (hcalls : hasFcalls f = false) :
    (f.instr i).ty = .void ∧ Kept s s' ∨
      (f.instr i).ty ≠ .void ∧ ∃ d, s.regMapping (.instr i) = some d ∧
        Defines s s' d.reg ((f.instr i).ty = .int32) := by
  cases hx with
  | bin hop hops ha hb hty =>
    have hbin : binInst f i (f.instr i).op false s = .ok s' := by
      unfold genInstr at h
      cases hkind : (f.instr i).op <;> simp only [hkind, binOp, reduceCtorEq] at hop h ⊢ <;> exact h
    exact Or.inr ⟨by simp [hty], by simpa [hty] using binInst_defines hbin hcalls⟩
  | cmp hop hops ha hb hty =>
    simp only [genInstr, hop, hops] at h
    exact Or.inr ⟨by simp [hty], by simpa [hty] using icmp_defines h⟩
  | zext hop hops ha hty =>
    simp only [genInstr, hop, hops] at h
    exact Or.inr ⟨by simp [hty], by simpa [hty] using sext_defines h hcalls⟩
  | jump hop hops hty | cond hop hops hc hty =>
    simp only [genInstr, hop] at h
    exact Or.inl ⟨hty, branch_kept h⟩
  | retVoid hop hops hty | ret hop hops ha hty =>
    simp only [genInstr, hop] at h
    exact Or.inl ⟨hty, funEpilogue_kept h⟩

end

end Cminusfc.Codegen.Canonical
