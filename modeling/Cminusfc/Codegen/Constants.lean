import Cminusfc.Codegen.CodegenSpec

/-!
# Loading integer constants

What the lines that `assign` prints for a `ConstantInt` leave in a register, for every 32-bit
integer. The meaning of the lines is that of RV64: `lui` shifts the low 20 bits of its operand and
sign-extends the result to 64 bits, `addi` adds in 64 bits (`Riscv.Machine.effects`).

* Whether an assembler takes the operands is another question (`Riscv.Machine.accepts`): below
  -2048 the operand of the `lui` is written as a negative number.

Results:
* `assign_int`: the lines of a constant, of which there are one or two.
* `assign_loads_iff`: **the destination holds the constant exactly up to 2147481599**. From
  2147481600 on the carry out of the low part makes the operand of `lui` 524288, whose shift has
  bit 31 set.

About `assign`, `src/codegen/codegen.cpp` 602-660, of which lines 605-619 are the case of a
`ConstantInt`. Out of scope: float constants (`FloatData`).
-/

namespace Cminusfc.Codegen

open Cminusfc.LightIR
open Fallible (ok_bind)

/-- The lines of a constant. -/
def constantLines (dst : Reg) (i : Int) : List Code :=
  if isImm i then [.opImm .addi dst zero.reg i]
  else [.lui dst (if i % 4096 ≥ 2048 then i / 4096 + 1 else i / 4096),
    .opImm .addi dst dst (if i % 4096 ≥ 2048 then i % 4096 - 4096 else i % 4096)]

section

variable {f : Func} {dst : RegRef} {s : St} {W : Type} {t : Target W} {m : Riscv.State Reg W}

/-- A line that is accepted by its printer. -/
theorem print_accepted {cond : Bool} {rs : List RegRef} {c : Code} (hcond : cond = true)
    (hrs : ∀ r ∈ rs, r.reg.isNamed = true) : print (Instgen.line cond rs c) s = .ok (s.put c) :=
  print_ok.mpr ⟨c, Instgen.line_ok.mpr ⟨hcond, hrs, rfl⟩, rfl⟩

/-- **`assign` prints the lines of the constant**, into every integer register. -/
theorem assign_int (i : BitVec 32) (hd : dst.reg.isNamed = true) (hf : dst.reg.f = false) :
    assign f dst (.int32 i) s = .ok { s with ss := s.ss ++ constantLines dst.reg i.toInt } := by
  have hname : nameOf f (.int32 i) = "" := rfl
  rw [assign, if_pos hname, assignConst]
  simp only [asConstantInt, constantLines]
  by_cases himm : isImm i.toInt = true
  · have hrs : ∀ r ∈ [dst, zero], r.reg.isNamed = true := by
      simp only [List.mem_cons, List.not_mem_nil, or_false, forall_eq_or_imp, forall_eq]
      exact ⟨hd, rfl⟩
    rw [if_pos himm, if_pos himm, Instgen.addi, print_accepted rfl hrs]
    rfl
  · have hone : ∀ r ∈ [dst], r.reg.isNamed = true := by simpa using hd
    have htwo : ∀ r ∈ [dst, dst], r.reg.isNamed = true := by simpa using hd
    rw [if_neg himm, if_neg himm, Instgen.lui, print_accepted (by simp [hf]) hone, ok_bind,
      Instgen.addi, print_accepted rfl htwo]
    simp [St.put]

/-- One `addi` from zero. -/
theorem constantLines_small {i : Int} (hi : isImm i = true) :
    t.machine.effects (constantLines dst.reg i) m = .next (m.set dst.reg (BitVec.ofInt 64 i)) := by
  have hzero : t.machine.get m zero.reg = 0 := Riscv.Machine.get_zero
  rw [constantLines, if_pos hi, Riscv.Machine.effects_cons rfl, Riscv.Machine.effects_nil, hzero]
  simp [Riscv.OpImm.eval]

/-- A `lui`, and an `addi` to what it left. -/
theorem constantLines_large {i : Int} (hi : isImm i = false) (hz : dst.reg ≠ zero.reg) :
    t.machine.effects (constantLines dst.reg i) m =
      .next (m.set dst.reg
        (Riscv.luiValue (if i % 4096 ≥ 2048 then i / 4096 + 1 else i / 4096) +
          BitVec.ofInt 64 (if i % 4096 ≥ 2048 then i % 4096 - 4096 else i % 4096))) := by
  rw [constantLines, if_neg (by simp [hi]), Riscv.Machine.effects_cons rfl,
    Riscv.Machine.effects_cons rfl, Riscv.Machine.effects_nil, Riscv.Machine.get_set hz, set_set]
  rfl

/-- The two parts, where the upper one stays below bit 31. -/
theorem parts_sum {i : Int} (hlow : -2147483648 ≤ i) (hhigh : i ≤ 2147481599) :
    Riscv.luiValue (if i % 4096 ≥ 2048 then i / 4096 + 1 else i / 4096) +
        BitVec.ofInt 64 (if i % 4096 ≥ 2048 then i % 4096 - 4096 else i % 4096) =
      BitVec.ofInt 64 i := by
  split_ifs with h
  · rw [Riscv.luiValue_add (by unfold Riscv.Fits; omega)]
    congr 1
    omega
  · rw [Riscv.luiValue_add (by unfold Riscv.Fits; omega)]
    congr 1
    omega

/-- The operand 524288 sets bit 31, and its sign-extension takes 2^32 off. -/
theorem parts_carry {i : Int} (hlow : 2147481600 ≤ i) (hhigh : i ≤ 2147483647) :
    Riscv.luiValue (if i % 4096 ≥ 2048 then i / 4096 + 1 else i / 4096) +
        BitVec.ofInt 64 (if i % 4096 ≥ 2048 then i % 4096 - 4096 else i % 4096) =
      BitVec.ofInt 64 (i - 4294967296) := by
  have hmod : i % 4096 ≥ 2048 := by omega
  have hdiv : i / 4096 + 1 = 524288 := by omega
  have hlui : Riscv.luiValue 524288 = BitVec.ofInt 64 (-2147483648) := by decide
  rw [if_pos hmod, if_pos hmod, hdiv, hlui, ← BitVec.ofInt_add]
  congr 1
  omega

/-- What the lines of a constant leave in their register. -/
def loaded (i : Int) : Riscv.Word :=
  if i ≤ 2147481599 then BitVec.ofInt 64 i else BitVec.ofInt 64 (i - 4294967296)

/-- **The lines of a constant**: from 2147481600 on the result is 2^32 too small. -/
theorem constantLines_effects (i : BitVec 32) (hz : dst.reg ≠ zero.reg) :
    t.machine.effects (constantLines dst.reg i.toInt) m =
      .next (m.set dst.reg (loaded i.toInt)) := by
  obtain ⟨hlow, hhigh⟩ := Riscv.fits_toInt i
  by_cases himm : isImm i.toInt = true
  · have hsmall : i.toInt ≤ 2147481599 := by
      simp only [isImm, Bool.and_eq_true, decide_eq_true_eq] at himm
      omega
    rw [constantLines_small himm, loaded, if_pos hsmall]
  · rw [constantLines_large (by simpa using himm) hz, loaded]
    by_cases hc : i.toInt ≤ 2147481599
    · rw [parts_sum hlow hc, if_pos hc]
    · rw [parts_carry (by omega) hhigh, if_neg hc]

theorem loaded_eq_iff (i : BitVec 32) : loaded i.toInt = Riscv.sext i ↔ i.toInt ≤ 2147481599 := by
  have hsext : Riscv.sext i = BitVec.ofInt 64 i.toInt := by
    rw [← Riscv.sext_ofInt (Riscv.fits_toInt i), BitVec.ofInt_toInt]
  obtain ⟨hlow, hhigh⟩ := Riscv.fits_toInt i
  unfold loaded
  rw [hsext]
  by_cases hc : i.toInt ≤ 2147481599
  · simp only [hc, if_true]
  · rw [if_neg hc]
    refine ⟨fun h => ?_, fun h => absurd h hc⟩
    have h' := congrArg BitVec.toInt h
    rw [BitVec.toInt_ofInt, BitVec.toInt_ofInt, Riscv.bmod_of_bound (by omega),
      Riscv.bmod_of_bound (by omega)] at h'
    omega

/-- The code that `assign` prints for `i` leaves the sign extension of `i` in `dst`. -/
def Loads (t : Target W) (f : Func) (dst : RegRef) (i : BitVec 32) (s : St)
    (m : Riscv.State Reg W) : Prop :=
  ∃ s' cs m', assign f dst (.int32 i) s = .ok s' ∧ s'.ss = s.ss ++ cs ∧
    t.machine.effects cs m = .next m' ∧ m'.regs dst.reg = Riscv.sext i

/-- **Constants are loaded exactly up to 2147481599**, whatever the state of the generator and of
the machine. -/
theorem assign_loads_iff (t : Target W) (f : Func) (dst : RegRef) (i : BitVec 32) (s : St)
    (m : Riscv.State Reg W) (hd : dst.reg.isNamed = true) (hf : dst.reg.f = false)
    (hz : dst.reg ≠ zero.reg) : Loads t f dst i s m ↔ i.toInt ≤ 2147481599 := by
  rw [← loaded_eq_iff]
  constructor
  · rintro ⟨s', cs, m', hs, hcs, hm, hreg⟩
    rw [assign_int i hd hf] at hs
    cases hs
    obtain rfl : cs = constantLines dst.reg i.toInt := (List.append_cancel_left hcs).symm
    rw [constantLines_effects i hz] at hm
    cases hm
    rwa [Riscv.State.set_regs, Function.update_self] at hreg
  · intro h
    refine ⟨_, _, _, assign_int i hd hf, rfl, constantLines_effects i hz, ?_⟩
    rw [Riscv.State.set_regs, Function.update_self, h]

end

/-- A machine whose calls do nothing and whose single-precision unit yields zero. -/
def plainTarget : Target Unit where
  fpu := ⟨fun _ _ _ => 0, fun _ _ _ => false, fun _ => 0, fun _ => 0⟩
  symbol := fun _ => 0
  callee := fun _ m => m

/-- A function without parameters and code. -/
def emptyFunc : Func where
  entry := 0
  rest := []
  pre := fun _ => []
  succ := fun _ => []
  body := fun _ => []
  instr := fun _ => { op := .ret, ty := .void, operands := [], parent := 0 }
  uses := fun _ => []
  names := fun _ => ""

/-- A generator without registers, and a machine whose registers and memory are zero. -/
def emptySt : St := ⟨fun _ => none, fun _ => none, fun _ => none, [], fun _ => false, [], 0, []⟩

def zeroState : Riscv.State Reg Unit := ⟨fun _ => 0, fun _ => 0, ()⟩

/-- The largest constant that is loaded, in the register `t0`. -/
theorem assign_loads_iff_largest :
    Loads plainTarget emptyFunc ⟨⟨5, false⟩, false⟩ 2147481599 emptySt zeroState :=
  (assign_loads_iff plainTarget emptyFunc ⟨⟨5, false⟩, false⟩ 2147481599 emptySt zeroState rfl rfl
    (by decide)).mpr (by decide)

/-- The next one is not: `lui t0, 524288` and `addi t0, t0, -2048` leave it minus 2^32. -/
theorem next_not_loaded :
    ¬ Loads plainTarget emptyFunc ⟨⟨5, false⟩, false⟩ 2147481600 emptySt zeroState := by
  rintro ⟨s', cs, m', hs, hcs, hm, hreg⟩
  cases hs
  obtain rfl := @List.append_cancel_left _ [] _ _ hcs
  cases hm
  exact absurd hreg (by decide)

end Cminusfc.Codegen
