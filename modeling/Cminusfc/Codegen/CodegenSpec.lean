import Cminusfc.Codegen.Codegen
import Cminusfc.Lib.Fallible

/-!
# What the routines of the code generator leave

* `Kept`: what `assign` never changes.
* `Runs M m₀ s m`: the text in `s` takes a machine from `m₀` to `m`. A routine is specified by the
  states it leaves, one of the generator and one of the machine.
* `valueIn`: where `assign` finds an operand in a function without calls.

Results:
* `assign_kept`, `assign_runs`: the two sides of `assign`.
* `Taken.runs`, `Taken.defines`: the two operands of `bin_inst` and `icmp`.

About `assign`, `load`, `store` and the two operands of the arithmetic, `src/codegen/codegen.cpp`
119-281, 335-508 and 602-660. Out of scope: functions with calls.
-/

namespace Cminusfc.Codegen

open Cminusfc.LightIR
open Fallible (bind_ok)
open RegAlloc (hasFcalls)

/-! ## Lines -/

theorem print_line {cond : Bool} {rs : List RegRef} {c : Code} {s s' : St}
    (h : print (Instgen.line cond rs c) s = .ok s') : cond = true ∧ s' = s.put c := by
  obtain ⟨i, hi, rfl⟩ := print_ok.mp h
  obtain ⟨hcond, -, rfl⟩ := Instgen.line_ok.mp hi
  exact ⟨hcond, rfl⟩

/-- Printing keeps every member but the text. -/
theorem print_members {c : Except Failure Code} {s s' : St} (h : print c s = .ok s') :
    ∃ i, s' = s.put i := by
  obtain ⟨i, -, rfl⟩ := print_ok.mp h
  exact ⟨i, rfl⟩

namespace St

variable (s : St)

@[simp] theorem put_regMapping (c : Code) : (s.put c).regMapping = s.regMapping := rfl
@[simp] theorem put_stackMapping (c : Code) : (s.put c).stackMapping = s.stackMapping := rfl
@[simp] theorem put_s0Offset (c : Code) : (s.put c).s0Offset = s.s0Offset := rfl
@[simp] theorem put_freeRegs (c : Code) : (s.put c).freeRegs = s.freeRegs := rfl
@[simp] theorem put_fresh (c : Code) : (s.put c).fresh = s.fresh := rfl
@[simp] theorem put_stackSize (c : Code) : (s.put c).stackSize = s.stackSize := rfl
@[simp] theorem put_ss (c : Code) : (s.put c).ss = s.ss ++ [c] := rfl

@[simp] theorem erase_regMapping (r : Reg) : (s.erase r).regMapping = s.regMapping := rfl
@[simp] theorem erase_stackMapping (r : Reg) : (s.erase r).stackMapping = s.stackMapping := rfl
@[simp] theorem erase_fresh (r : Reg) : (s.erase r).fresh = s.fresh := rfl
@[simp] theorem erase_stackSize (r : Reg) : (s.erase r).stackSize = s.stackSize := rfl
@[simp] theorem erase_ss (r : Reg) : (s.erase r).ss = s.ss := rfl

@[simp] theorem setFresh_regMapping (r : Reg) (b : Bool) :
    (s.setFresh r b).regMapping = s.regMapping := rfl
@[simp] theorem setFresh_stackMapping (r : Reg) (b : Bool) :
    (s.setFresh r b).stackMapping = s.stackMapping := rfl
@[simp] theorem setFresh_s0Offset (r : Reg) (b : Bool) :
    (s.setFresh r b).s0Offset = s.s0Offset := rfl
@[simp] theorem setFresh_freeRegs (r : Reg) (b : Bool) :
    (s.setFresh r b).freeRegs = s.freeRegs := rfl
@[simp] theorem setFresh_stackSize (r : Reg) (b : Bool) :
    (s.setFresh r b).stackSize = s.stackSize := rfl
@[simp] theorem setFresh_ss (r : Reg) (b : Bool) : (s.setFresh r b).ss = s.ss := rfl

@[simp] theorem mem_erase {r q : Reg} : q ∈ (s.erase r).freeRegs ↔ q ∈ s.freeRegs ∧ q ≠ r := by
  simp [erase]

end St

theorem mem_insertReg {l : List Reg} {q r : Reg} : q ∈ insertReg l r ↔ q = r ∨ q ∈ l := by
  unfold insertReg
  by_cases h : r ∈ l
  · rw [if_pos h]
    exact ⟨.inr, fun hq => hq.elim (fun he => he ▸ h) id⟩
  · rw [if_neg h, List.mem_append, List.mem_cons, ← or_left_comm, ← List.mem_append,
      List.takeWhile_append_dropWhile]

/-- What `assign` never changes. -/
structure Kept (s s' : St) : Prop where
  regMapping : s'.regMapping = s.regMapping
  freeRegs : s'.freeRegs = s.freeRegs
  fresh : s'.fresh = s.fresh
  stackSize : s'.stackSize = s.stackSize

theorem Kept.refl (s : St) : Kept s s := ⟨rfl, rfl, rfl, rfl⟩

theorem Kept.trans {s₁ s₂ s₃ : St} (h : Kept s₁ s₂) (h' : Kept s₂ s₃) : Kept s₁ s₃ :=
  ⟨h'.regMapping.trans h.regMapping, h'.freeRegs.trans h.freeRegs, h'.fresh.trans h.fresh,
    h'.stackSize.trans h.stackSize⟩

theorem regAtOrThrow_ok {s : St} {o : Option Value} {p : Value × RegRef}
    (h : s.regAtOrThrow o = .ok p) : o = some p.1 ∧ s.regMapping p.1 = some p.2 := by
  unfold St.regAtOrThrow at h
  cases o with
  | none => cases h
  | some v =>
    simp only at h
    cases hr : s.regMapping v with
    | none => simp [hr] at h
    | some r =>
      rw [hr] at h
      cases h
      exact ⟨rfl, hr⟩

theorem print_kept {c : Except Failure Code} {s s' : St} (h : print c s = .ok s') : Kept s s' := by
  obtain ⟨i, rfl⟩ := print_members h
  exact ⟨rfl, rfl, rfl, rfl⟩

section

variable {f : Func} {dst src : RegRef} {v : Value} {s s' : St}

theorem assignConst_kept (h : assignConst dst v s = .ok s') : Kept s s' := by
  unfold assignConst at h
  cases hi : asConstantInt v with
  | some i =>
    simp only [hi] at h
    by_cases himm : isImm i = true
    · rw [if_pos himm] at h
      exact print_kept h
    · rw [if_neg himm] at h
      obtain ⟨s₁, h₁, h₂⟩ := bind_ok.mp h
      exact (print_kept h₁).trans (print_kept h₂)
  | none =>
    cases hfp : asConstantFP v with
    | none =>
      simp only [hi, hfp] at h
      cases h
      exact Kept.refl s
    | some bits =>
      simp only [hi, hfp] at h
      obtain ⟨temp, -, h⟩ := bind_ok.mp h
      obtain ⟨s₁, h₁, h₂⟩ := bind_ok.mp h
      obtain ⟨hreg, hfree, hfresh, hsize⟩ := (print_kept h₁).trans (print_kept h₂)
      exact ⟨hreg, hfree, hfresh, hsize⟩

theorem touchOffset_kept (s : St) (r : Reg) : Kept s (s.touchOffset r) := ⟨rfl, rfl, rfl, rfl⟩

theorem assignReg_kept (h : assignReg f dst src v s = .ok s') : Kept s s' := by
  unfold assignReg at h
  dsimp only at h
  split_ifs at h
  · cases h
    exact Kept.refl s
  all_goals first
    | exact print_kept h
    | exact (touchOffset_kept s _).trans (print_kept h)

/-- **`assign` keeps the registers**: it changes slots, constants and the text only. -/
theorem assign_kept (h : assign f dst v s = .ok s') : Kept s s' := by
  unfold assign at h
  by_cases hname : nameOf f v = ""
  · rw [if_pos hname] at h
    exact assignConst_kept h
  · rw [if_neg hname] at h
    cases hgep : asGep f v with
    | some gep =>
      simp only [hgep] at h
      cases hbase : gep.operands.head? with
      | none => simp [hbase] at h
      | some base =>
        simp only [hbase] at h
        cases hglobal : asGlobal base with
        | some n =>
          simp only [hglobal] at h
          exact print_kept h
        | none =>
          simp only [hglobal] at h
          have htouch : Kept s (s.touchStack base) := ⟨rfl, rfl, rfl, rfl⟩
          exact htouch.trans (print_kept h)
    | none =>
      cases hreg : s.regMapping v with
      | some src =>
        simp only [hgep, hreg] at h
        exact assignReg_kept h
      | none =>
        simp only [hgep, hreg] at h
        split_ifs at h

end

/-! ## Running the text -/

variable {W : Type}

/-- What surrounds the code: the single-precision unit, the addresses of symbols, the callees. -/
structure Target (W : Type) where
  fpu : Riscv.Fpu
  symbol : String → Riscv.Word
  callee : String → Riscv.State Reg W → Riscv.State Reg W

/-- The machine the code is for. -/
def Target.machine (t : Target W) : Riscv.Machine Reg W where
  zero := zero.reg
  isFp := Reg.f
  fpu := t.fpu
  symbol := t.symbol
  callee := t.callee

@[simp] theorem Target.machine_isFp (t : Target W) (r : Reg) : t.machine.isFp r = r.f := rfl

@[simp] theorem Target.machine_zero (t : Target W) : t.machine.zero = zero.reg := rfl

@[simp] theorem Target.machine_fpu (t : Target W) : t.machine.fpu = t.fpu := rfl

@[simp] theorem Target.machine_symbol (t : Target W) : t.machine.symbol = t.symbol := rfl

@[simp] theorem Target.machine_callee (t : Target W) : t.machine.callee = t.callee := rfl

/-- The integer registers values may have. -/
def intRegs : List Reg := args ++ temps

theorem intRegs_spec {r : Reg} (h : r ∈ intRegs) :
    r.f = false ∧ r ≠ zero.reg ∧ r ≠ sp.reg ∧ r ≠ s0.reg ∧ r.isReal = true ∧ 0 ≤ r.id ∧ r.id < 32 := by
  revert r
  decide

/-- The text in `s` takes the machine from `m₀` to `m`. -/
def Runs (t : Target W) (m₀ : Riscv.State Reg W) (s : St) (m : Riscv.State Reg W) : Prop :=
  t.machine.run s.ss m₀ = .next m

section

variable {t : Target W} {m₀ m m' : Riscv.State Reg W} {s s' : St}

theorem Runs.put {c : Code} (h : Runs t m₀ s m) (ha : t.machine.accepts c = true)
    (he : t.machine.effect m c = .next m') : Runs t m₀ (s.put c) m' := by
  have := Riscv.Machine.run_concat h c
  rw [Riscv.Machine.exec_of_accepts ha, he] at this
  exact this

/-- The text alone decides. -/
theorem Runs.congr (h : Runs t m₀ s m) (hss : s'.ss = s.ss) : Runs t m₀ s' m := by
  unfold Runs
  rw [hss]
  exact h

theorem isImm_eq (i : Int) : Riscv.isImm12 i = isImm i := rfl

/-- An `addi` in range. -/
theorem addi_runs {d a : RegRef} {i : Int} (h : print (Instgen.addi d a i) s = .ok s')
    (hr : Runs t m₀ s m) (hd : d.reg.f = false) (ha : a.reg.f = false) (hi : isImm i = true) :
    Runs t m₀ s' (m.set d.reg (t.machine.get m a.reg + BitVec.ofInt 64 i)) := by
  obtain ⟨-, rfl⟩ := print_line h
  refine hr.put ?_ rfl
  simp [Riscv.Machine.accepts, Riscv.OpImm.isImm, isImm_eq, hd, ha, hi]

/-- A line on three integer registers. -/
theorem int3_runs {o : Riscv.Op} {d a b : RegRef} (h : print (Instgen.int3 o d a b) s = .ok s')
    (hr : Runs t m₀ s m) :
    Runs t m₀ s' (m.set d.reg (o.eval (t.machine.get m a.reg) (t.machine.get m b.reg))) := by
  obtain ⟨hcond, rfl⟩ := print_line h
  refine hr.put ?_ rfl
  simpa [Riscv.Machine.accepts] using hcond

theorem add_runs {d a b : RegRef} (h : print (Instgen.add d a b) s = .ok s')
    (hr : Runs t m₀ s m) (hd : d.reg.f = false) (ha : a.reg.f = false) (hb : b.reg.f = false) :
    Runs t m₀ s' (m.set d.reg (t.machine.get m a.reg + t.machine.get m b.reg)) := by
  obtain ⟨-, rfl⟩ := print_line h
  refine hr.put ?_ rfl
  simp [Riscv.Machine.accepts, hd, ha, hb]

/-- A line on two integer registers. -/
theorem int2_runs {o : Riscv.OpOne} {d a : RegRef} (h : print (Instgen.int2 o d a) s = .ok s')
    (hr : Runs t m₀ s m) : Runs t m₀ s' (m.set d.reg (o.eval (t.machine.get m a.reg))) := by
  obtain ⟨hcond, rfl⟩ := print_line h
  refine hr.put ?_ rfl
  simpa [Riscv.Machine.accepts] using hcond

/-- A line on two integer registers and an immediate. -/
theorem intImm_runs {o : Riscv.OpImm} {d a : RegRef} {i : Int}
    (h : print (Instgen.intImm o d a i) s = .ok s') (hr : Runs t m₀ s m) (hi : o.isImm i = true) :
    Runs t m₀ s' (m.set d.reg (o.eval (t.machine.get m a.reg) i)) := by
  obtain ⟨hcond, rfl⟩ := print_line h
  refine hr.put ?_ rfl
  simpa [Riscv.Machine.accepts, hi] using hcond

theorem lui_runs {d : RegRef} {i : Int} (h : print (Instgen.lui d i) s = .ok s')
    (hr : Runs t m₀ s m) (hi : 0 ≤ i) (hi' : i ≤ 1048575) :
    Runs t m₀ s' (m.set d.reg (Riscv.luiValue i)) := by
  obtain ⟨hcond, rfl⟩ := print_line h
  refine hr.put ?_ rfl
  simpa [Riscv.Machine.accepts, hi, hi'] using hcond

theorem set_set {r : Reg} {x y : Riscv.Word} : (m.set r x).set r y = m.set r y := by
  simp [Riscv.State.set]

theorem set_self {r : Reg} : m.set r (m.regs r) = m := by
  simp [Riscv.State.set]

/-! ## Operands -/

/-- The constants `assign` loads as they are. -/
def Loadable (c : Int) : Prop := -2048 ≤ c ∧ c ≤ 2147481599

instance (c : Int) : Decidable (Loadable c) := inferInstanceAs (Decidable (_ ∧ _))

/-- **A constant is loaded**, when the two parts do not reach bit 31. -/
theorem assignConst_runs {dst : RegRef} {v : Value} {c : Int} (h : assignConst dst v s = .ok s')
    (hr : Runs t m₀ s m) (hv : asConstantInt v = some c) (hc : Loadable c) (hd : dst.reg ∈ intRegs) :
    Runs t m₀ s' (m.set dst.reg (BitVec.ofInt 64 c)) := by
  obtain ⟨hdf, hdz, -⟩ := intRegs_spec hd
  unfold assignConst at h
  simp only [hv] at h
  by_cases himm : isImm c = true
  · rw [if_pos himm] at h
    have := addi_runs h hr hdf rfl himm
    rwa [show t.machine.get m zero.reg = 0 from Riscv.Machine.get_zero,
      show (0 : Riscv.Word) + BitVec.ofInt 64 c = BitVec.ofInt 64 c from by simp] at this
  · rw [if_neg himm] at h
    obtain ⟨s₁, h₁, h₂⟩ := bind_ok.mp h
    obtain ⟨hlow, hhigh⟩ := hc
    have hbig : 2048 ≤ c := by
      by_contra hlt
      exact himm (by simp only [isImm, Bool.and_eq_true, decide_eq_true_eq]; omega)
    generalize hx : (if c % 4096 ≥ 2048 then c / 4096 + 1 else c / 4096) = x at h₁
    generalize hy : (if c % 4096 ≥ 2048 then c % 4096 - 4096 else c % 4096) = y at h₂
    have hsum : c = x * 4096 + y := by split_ifs at hx hy <;> omega
    have hlui := lui_runs h₁ hr (by split_ifs at hx <;> omega) (by split_ifs at hx <;> omega)
    have himm' : isImm y = true := by
      simp only [isImm, Bool.and_eq_true, decide_eq_true_eq]
      split_ifs at hy <;> omega
    have := addi_runs h₂ hlui hdf hdf himm'
    rwa [Riscv.Machine.get_set hdz, set_set, Riscv.luiValue_add (by unfold Riscv.Fits; omega),
      ← hsum] at this

/-- What `assign` takes an integer operand to be, in a function without calls. -/
def valueIn (s : St) (m : Riscv.State Reg W) (v : Value) : Riscv.Word :=
  match asConstantInt v with
  | some c => BitVec.ofInt 64 c
  | none => m.regs (s.regAt v).reg

variable {f : Func} {dst src : RegRef} {v : Value}

/-- Without calls a register that is fresh, or holds an `i1`, is copied. -/
theorem assignReg_runs (h : assignReg f dst src v s = .ok s') (hr : Runs t m₀ s m)
    (hcalls : hasFcalls f = false) (hfresh : s.fresh src.reg = true ∨ (valueType f v).size = 1)
    (hd : dst.reg ∈ intRegs) (hdd : dst.d = false) (hs : src.reg ∈ intRegs) :
    Runs t m₀ s' (m.set dst.reg (m.regs src.reg)) := by
  obtain ⟨hdf, -⟩ := intRegs_spec hd
  obtain ⟨-, hsz, -⟩ := intRegs_spec hs
  have hmv : ∀ {s'}, print (Instgen.mv dst src) s = .ok s' →
      Runs t m₀ s' (m.set dst.reg (m.regs src.reg)) := by
    intro s' h
    have := int2_runs h hr
    rwa [show t.machine.get m src.reg = m.regs src.reg from Riscv.Machine.get_of_ne hsz] at this
  unfold assignReg at h
  simp only [hcalls, Bool.not_false, Bool.and_true, hdf, hdd, Bool.false_eq_true, if_false] at h
  split_ifs at h with h₁ h₂
  · simp only [Bool.and_eq_true, decide_eq_true_eq] at h₁
    cases h
    rw [← h₁.1, set_self]
    exact hr
  · exact hmv h
  · exact absurd (by simpa using hfresh) h₂

/-- An integer operand that is read from where it is, in a function without calls: a loadable
constant, or a value whose register is fresh or holds an `i1`. -/
inductive Operand (f : Func) (s : St) (v : Value) : Prop
  | const {c : Int} (hv : asConstantInt v = some c) (hc : Loadable c)
  | reg {r : RegRef} (hv : asConstantInt v = none) (hname : nameOf f v ≠ "")
      (hgep : asGep f v = none) (hreg : s.regMapping v = some r) (hr : r.reg ∈ intRegs)
      (hd : r.d = false) (hfresh : s.fresh r.reg = true ∨ (valueType f v).size = 1)

theorem Operand.kept (h : Operand f s v) (hreg : s'.regMapping = s.regMapping)
    (hfresh : s'.fresh = s.fresh) : Operand f s' v := by
  cases h with
  | const hv hc => exact .const hv hc
  | reg hv hname hgep hr hmem hd hf =>
    exact .reg hv hname hgep (by rw [hreg, hr]) hmem hd (by rw [hfresh]; exact hf)

theorem valueIn_reg {r : RegRef} (hv : asConstantInt v = none) (hr : s.regMapping v = some r) :
    valueIn s m v = m.regs r.reg := by
  simp [valueIn, hv, St.regAt, hr]

theorem nameOf_const {c : Int} (h : asConstantInt v = some c) : nameOf f v = "" := by
  cases v <;> simp_all [asConstantInt, nameOf]

/-- **`assign` without calls**: the destination takes the value of the operand. -/
theorem assign_runs (h : assign f dst v s = .ok s') (hr : Runs t m₀ s m)
    (hcalls : hasFcalls f = false) (hv : Operand f s v) (hd : dst.reg ∈ intRegs)
    (hdd : dst.d = false) : Runs t m₀ s' (m.set dst.reg (valueIn s m v)) := by
  cases hv with
  | const hv hc =>
    rw [assign, if_pos (nameOf_const hv)] at h
    have := assignConst_runs h hr hv hc hd
    simpa [valueIn, hv] using this
  | reg hv hname hgep hreg hmem _ hfresh =>
    rw [assign, if_neg hname, hgep] at h
    simp only [hreg] at h
    rw [valueIn_reg hv hreg]
    exact assignReg_runs h hr hcalls hfresh hd hdd hmem

theorem getTemp_spec {fl d : Bool} {r : RegRef} (h : getTemp s fl d = .ok r) :
    r.reg ∈ s.freeRegs ∧ r.reg.f = fl ∧ r.d = d := by
  unfold getTemp at h
  by_cases hnil : s.freeRegs = []
  · rw [if_pos hnil] at h
    cases h
  · rw [if_neg hnil] at h
    cases hfind : s.freeRegs.find? (·.f = fl) with
    | none => simp [hfind] at h
    | some q =>
      rw [hfind] at h
      cases h
      exact ⟨List.mem_of_find?_eq_some hfind, by simpa using List.find?_some hfind, rfl⟩

/-- The code from `m` to `m'` writes `d` and free registers only. -/
structure Writes (s : St) (d : Reg) (m m' : Riscv.State Reg W) : Prop where
  regs : ∀ r, r ≠ d → r ∉ s.freeRegs → m'.regs r = m.regs r
  mem : m'.mem = m.mem
  world : m'.world = m.world

theorem Writes.set (h : Writes s d m m') (x : Riscv.Word) : Writes s d m (m'.set d x) :=
  ⟨fun r hr hfree => by rw [Riscv.State.set_regs, Function.update_of_ne hr, h.regs r hr hfree],
    h.mem, h.world⟩

variable {lhs rhs : Value} {dest rhsReg : RegRef} {s₁ s₂ : St}

/-- The common start of `bin_inst` and `icmp`. -/
def Taken (f : Func) (dest rhsReg : RegRef) (lhs rhs : Value) (s s₂ : St) : Prop :=
  ∃ s₁, assign f dest lhs (s.erase dest.reg) = .ok s₁ ∧ regOrTemp s₁ rhs false = .ok rhsReg ∧
    assign f rhsReg rhs s₁ = .ok s₂

/-- **Two operands are taken**: `dest` holds the first, the other register the second. The second
must not stand in `dest`, which the first is moved to before. -/
theorem Taken.runs (h : Taken f dest rhsReg lhs rhs s s₂) (hr : Runs t m₀ s m)
    (hcalls : hasFcalls f = false) (hl : Operand f s lhs) (hrhs : Operand f s rhs)
    (hd : dest.reg ∈ intRegs) (hdd : dest.d = false)
    (hne : ∀ r, s.regMapping rhs = some r → r.reg ≠ dest.reg ∨ rhs = lhs)
    (hconst : asConstantInt rhs ≠ none → s.regMapping rhs = none)
    (hfree : ∀ r ∈ s.freeRegs, r.f = false → r ∈ intRegs) :
    ∃ m₂, Runs t m₀ s₂ m₂ ∧ m₂.regs dest.reg = valueIn s m lhs ∧
      m₂.regs rhsReg.reg = valueIn s m rhs ∧ rhsReg.reg ∈ intRegs ∧ Writes s dest.reg m m₂ := by
  obtain ⟨s₁, h₁, h₂, h₃⟩ := h
  have hk₁ := assign_kept h₁
  have hr₁ := assign_runs h₁ (hr.congr (St.erase_ss s dest.reg)) hcalls
    (hl.kept (St.erase_regMapping s _) (St.erase_fresh s _)) hd hdd
  set m₁ := m.set dest.reg (valueIn (s.erase dest.reg) m lhs) with hm₁
  have hreg₁ : s₁.regMapping = s.regMapping := hk₁.regMapping
  have hfresh₁ : s₁.fresh = s.fresh := hk₁.fresh
  have hw₁ : Writes s dest.reg m m₁ := Writes.set ⟨fun _ _ _ => rfl, rfl, rfl⟩ _
  have hdest₁ : m₁.regs dest.reg = valueIn s m lhs := by
    rw [hm₁, Riscv.State.set_regs, Function.update_self]
    rfl
  have hrhs₁ := hrhs.kept hreg₁ hfresh₁
  cases hrhs with
  | const hv hc =>
    have hnone : s₁.regMapping rhs = none := by rw [hreg₁, hconst (by simp [hv])]
    rw [regOrTemp, hnone] at h₂
    obtain ⟨hmem, hf, hdf⟩ := getTemp_spec h₂
    rw [hk₁.freeRegs, St.mem_erase] at hmem
    have hint := hfree _ hmem.1 hf
    have hr₂ := assign_runs h₃ hr₁ hcalls hrhs₁ hint hdf
    refine ⟨_, hr₂, ?_, ?_, hint, ?_⟩
    · rw [Riscv.State.set_regs, Function.update_of_ne hmem.2.symm, hdest₁]
    · rw [Riscv.State.set_regs, Function.update_self]
      simp [valueIn, hv]
    · refine ⟨fun r hr hfr => ?_, hw₁.mem, hw₁.world⟩
      have hne : r ≠ rhsReg.reg := fun he => hfr (he ▸ hmem.1)
      rw [Riscv.State.set_regs, Function.update_of_ne hne, hw₁.regs r hr hfr]
  | reg hv hname hgep hreg hmem hdf hfresh =>
    have hsome : s₁.regMapping rhs = some _ := hreg₁ ▸ hreg
    rw [regOrTemp, hsome] at h₂
    cases h₂
    have hr₂ := assign_runs h₃ hr₁ hcalls hrhs₁ hmem hdf
    rw [valueIn_reg hv hsome, set_self] at hr₂
    refine ⟨_, hr₂, hdest₁, ?_, hmem, hw₁⟩
    rw [valueIn_reg hv hreg]
    rcases hne _ hreg with hne | rfl
    · rw [hm₁, Riscv.State.set_regs, Function.update_of_ne hne]
    · by_cases he : rhsReg.reg = dest.reg
      · rw [he, hdest₁, valueIn_reg hv hreg, he]
      · rw [hm₁, Riscv.State.set_regs, Function.update_of_ne he]

/-- What an instruction does to the state of the generator when it defines a value in `r`, and
saves it or not. -/
structure Defines (s s' : St) (r : Reg) (saved : Bool) : Prop where
  regMapping : s'.regMapping = s.regMapping
  freeRegs : ∀ q, q ∈ s'.freeRegs ↔ q ∈ s.freeRegs ∧ q ≠ r
  fresh : s'.fresh = if saved then Function.update s.fresh r true else s.fresh
  stackSize : s'.stackSize = s.stackSize

theorem erase_defines (s : St) (r : Reg) : Defines s (s.erase r) r false :=
  ⟨rfl, fun _ => St.mem_erase s, rfl, rfl⟩

theorem Defines.kept {r : Reg} (h : Defines s s₁ r false) (hk : Kept s₁ s₂) :
    Defines s s₂ r false := by
  refine ⟨hk.regMapping.trans h.regMapping, fun q => ?_, hk.fresh.trans h.fresh,
    hk.stackSize.trans h.stackSize⟩
  rw [hk.freeRegs]
  exact h.freeRegs q

theorem save_no_calls {r : RegRef} (h : save f r s = .ok s') (hcalls : hasFcalls f = false) :
    s' = (s.erase r.reg).setFresh r.reg true := by
  unfold save at h
  simp only [hcalls, Bool.and_false, Bool.false_eq_true, if_false, Bool.not_false, if_true] at h
  exact (Except.ok.inj h).symm

theorem Defines.save {r : RegRef} (hd : Defines s s₁ r.reg false) (h : save f r s₁ = .ok s')
    (hcalls : hasFcalls f = false) : Defines s s' r.reg true := by
  obtain rfl := save_no_calls h hcalls
  refine ⟨hd.regMapping, fun q => ?_, ?_, hd.stackSize⟩
  · rw [St.setFresh_freeRegs, St.mem_erase, hd.freeRegs]
    tauto
  · have hfresh : s₁.fresh = s.fresh := hd.fresh
    simp [St.setFresh, hfresh]

theorem Runs.save {r : RegRef} (hr : Runs t m₀ s m) (h : save f r s = .ok s')
    (hcalls : hasFcalls f = false) : Runs t m₀ s' m := by
  obtain rfl := save_no_calls h hcalls
  exact hr.congr rfl

theorem Taken.defines (h : Taken f dest rhsReg lhs rhs s s₂) : Defines s s₂ dest.reg false := by
  obtain ⟨s₁, h₁, -, h₃⟩ := h
  exact (erase_defines s dest.reg).kept ((assign_kept h₁).trans (assign_kept h₃))

end

end Cminusfc.Codegen
