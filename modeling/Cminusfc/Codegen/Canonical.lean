import Cminusfc.Codegen.Text
import Cminusfc.LightIR.Exec

/-!
# 32-bit values in 64-bit registers

The functions without calls that compute on `i32`: what they mean on 32-bit words, what their code
does on 64-bit registers, and when the two agree.

* `intMachine` is the 32-bit meaning, with `i1` as 0 and 1. `step` runs one instruction of the IR,
  `Text.step` the piece of code it leaves.
* `Canonical` is the law: after as many steps the code stands at the same point, and the register of
  a value that is live, or has just been defined, holds the sign extension of its 32 bits.
* `Meets` is what a step must meet: the exact result of the operation fits in 32 bits
  (`NoWrap`), constants are loaded as they are (`Loads`), and the allocation and the layout of the
  blocks are as the generator takes them to be (`Laid`).

The code is that of `sext`, `icmp`, `bin_inst` and `branch`, `src/codegen/codegen.cpp` 306-370 and
413-508. Out of scope: floats, loads and stores, calls.
-/

namespace Cminusfc.Codegen.Canonical

open Cminusfc.LightIR
open RegAlloc (LiveAt hasFcalls)

/-! ## The functions -/

/-- `v` is a constant, an argument or an instruction of type `ty`. -/
def Typed (f : Func) (ty : Ty) (v : Value) : Prop :=
  valueType f v = ty ∧
    match v with
    | .int32 _ | .int1 _ => True
    | .arg no => ty = .int32 ∧ no < f.args.length ∧ f.names v ≠ ""
    | .instr j => j ∈ f.instrs ∧ f.names v ≠ ""
    | _ => False

/-- The operations on two `i32`. -/
def binOp : OpID → Option Riscv.Op
  | .add => some .add
  | .sub => some .sub
  | .mul => some .mul
  | .sdiv => some .div
  | _ => none

/-- The instructions of these functions. -/
inductive WellTyped (f : Func) (x : Instr) : Prop
  | bin {o : Riscv.Op} {a b : Value} (hop : binOp x.op = some o) (hops : x.operands = [a, b])
      (ha : Typed f .int32 a) (hb : Typed f .int32 b) (hty : x.ty = .int32)
  | cmp {a b : Value} (hop : x.op = .cmp) (hops : x.operands = [a, b])
      (ha : Typed f .int32 a) (hb : Typed f .int32 b) (hty : x.ty = .int1)
  | zext {a : Value} (hop : x.op = .zext) (hops : x.operands = [a])
      (ha : Typed f .int1 a) (hty : x.ty = .int32)
  | jump {t : BlockId} (hop : x.op = .br) (hops : x.operands = [.block t]) (hty : x.ty = .void)
  | cond {c : Value} {t e : BlockId} (hop : x.op = .br)
      (hops : x.operands = [c, .block t, .block e]) (hc : Typed f .int1 c) (hty : x.ty = .void)
  | retVoid (hop : x.op = .ret) (hops : x.operands = []) (hty : x.ty = .void)
  | ret {a : Value} (hop : x.op = .ret) (hops : x.operands = [a]) (ha : Typed f .int32 a)
      (hty : x.ty = .void)

/-- A function without calls on `i32` and `i1`. -/
structure InScope (f : Func) : Prop where
  valid : f.Valid
  nodup : f.blocks.Nodup
  terminated : f.WellTerminated
  typed : ∀ i ∈ f.instrs, WellTyped f (f.instr i)
  targets : ∀ b ∈ f.blocks, ∀ c ∈ (f.instr (f.termOf b)).targets, c ∈ f.succ b
  /-- No value is used before it is defined. -/
  strict : ∀ i, ¬ LiveAt f (.instr i) f.entry 0

/-- What the register allocator gives: integer registers, to arguments and instructions. An operand
without a register would make the generator throw. -/
structure Allocated (f : Func) (regs : Value → Option RegRef) : Prop where
  reg : ∀ v r, regs v = some r → r.reg ∈ intRegs ∧ r.d = false
  used : ∀ i ∈ f.instrs, ∀ v ∈ (f.instr i).operands, asConstantInt v = none → v.asBlock = none →
    ∃ r, regs v = some r
  value : ∀ v r, regs v = some r → (∃ no < f.args.length, v = .arg no) ∨ ∃ i ∈ f.instrs, v = .instr i

/-! ## The 32-bit meaning -/

/-- A 32-bit comparison. -/
def compare (op : CmpOp) (a b : BitVec 32) : Bool :=
  match op with
  | .EQ => a = b
  | .NE => a ≠ b
  | .GT => b.slt a
  | .GE => !a.slt b
  | .LT => a.slt b
  | .LE => !b.slt a

/-- 32-bit arithmetic; a division by zero traps. -/
def intMachine (undef : BitVec 32) (argv : Nat → BitVec 32) : Machine (BitVec 32) Unit where
  undef := undef
  const
    | .int32 v => v
    | .int1 b => if b then 1 else 0
    | .arg no => argv no
    | _ => undef
  addr _ := undef
  isTrue v := v ≠ 0
  pure op cmp _ vals :=
    match op, vals with
    | .add, [a, b] => a + b
    | .sub, [a, b] => a - b
    | .mul, [a, b] => a * b
    | .cmp, [a, b] => if compare cmp a b then 1 else 0
    | .zext, [a] => a
    | _, _ => undef
  effect op _ vals w :=
    match op, vals with
    | .sdiv, [a, b] => if b = 0 then none else some (a.sdiv b, w)
    | _, _ => none

/-- In front of the `index`-th instruction of `block`. -/
structure Conf where
  block : BlockId
  index : Nat
  st : State (BitVec 32) Unit

/-- Run one instruction. -/
def step (M : Machine (BitVec 32) Unit) (f : Func) (_ : Nat) (c : Conf) :
    Conf ⊕ Outcome (BitVec 32) Unit :=
  match (f.body c.block)[c.index]? with
  | none => .inr (.fault c.st.world)
  | some i =>
    if (f.instr i).isTerminator then
      match Func.execTerminator M (f.instr i) c.st with
      | .jump b st => .inl ⟨b, 0, st⟩
      | .done o => .inr o
    else
      match f.execInstr M i c.st with
      | some st => .inl ⟨c.block, c.index + 1, st⟩
      | none => .inr (.fault c.st.world)

/-- The start of a run. -/
def start (M : Machine (BitVec 32) Unit) (f : Func) : Conf :=
  ⟨f.entry, 0, ⟨fun _ => M.undef, fun _ => M.undef, ()⟩⟩

/-! ## The law -/

/-- `v` has a value at the point of `b` in front of its `k`-th instruction: it is live there, or the
instruction before has defined it. -/
def Current (f : Func) (v : Value) (b : BlockId) (k : Nat) : Prop :=
  LiveAt f v b k ∨ ∃ j i, k = j + 1 ∧ (f.body b)[j]? = some i ∧ v = .instr i

/-- **The code agrees with the meaning**: both stand at the same point, and registers hold sign
extensions. -/
structure Agree {W : Type} (f : Func) (M : Machine (BitVec 32) Unit) (regs : Value → Option RegRef)
    (c : Conf) (d : CodeConf W) : Prop where
  block : d.block = c.block
  index : d.index = c.index
  regs : ∀ v r, regs v = some r → Current f v c.block c.index →
    d.st.regs r.reg = Riscv.sext (Func.eval M c.st v)

/-- The machine enters the function with its arguments sign-extended. -/
def Arrives {W : Type} (f : Func) (regs : Value → Option RegRef) (argv : Nat → BitVec 32)
    (m : Riscv.State Reg W) : Prop :=
  ∀ no r, no < f.args.length → regs (.arg no) = some r → m.regs r.reg = Riscv.sext (argv no)

/-- The law, for the run of `n` steps: the text, entered through its prologue, agrees. -/
def Canonical {W : Type} (t : Target W) (f : Func) (regs : Value → Option RegRef) (T : Text)
    (undef : BitVec 32) (argv : Nat → BitVec 32) (n : Nat) : Prop :=
  ∀ m c, Arrives f regs argv m →
    Lockstep.run (step (intMachine undef argv) f) 0 n (start (intMachine undef argv) f) = .inl c →
    ∃ m₁ d, t.machine.run T.prologue m = .next m₁ ∧
      Lockstep.run (T.step t) 0 n ⟨f.entry, 0, m₁⟩ = .inl d ∧
        Agree f (intMachine undef argv) regs c d

/-! ## The condition -/

/-- The operands `assign` loads, and the immediates, are in their ranges. -/
def Loads (x : Instr) : Prop :=
  (∀ v ∈ x.operands, ∀ c, asConstantInt v = some c → Loadable c) ∧
    (x.op = .sub → ∀ v, x.operands.getLast? = some v → asConstantInt v ≠ some (-2048))

/-- The registers and the layout at the instruction `i`: its register is apart from those of the
values live after it and from that of a second operand, and the values live in front of it are
defined above it in the text. -/
structure Laid (f : Func) (regs : Value → Option RegRef) (b : BlockId) (k : Nat) (i : InstrId) :
    Prop where
  apart : ∀ v r d, regs v = some r → regs (.instr i) = some d → v ≠ .instr i →
    LiveAt f v b (k + 1) → r.reg ≠ d.reg
  second : ∀ x y r d, (f.instr i).operands = [x, y] → regs y = some r → regs (.instr i) = some d →
    r.reg ≠ d.reg ∨ y = x
  above : ∀ j, LiveAt f (.instr j) b k → ∃ pre post, f.instrs = pre ++ i :: post ∧ j ∈ pre

/-- The operation does not wrap. -/
def NoWrap (M : Machine (BitVec 32) Unit) (x : Instr) (st : State (BitVec 32) Unit) : Prop :=
  ∀ o a b, binOp x.op = some o → x.operands = [a, b] →
    Riscv.Fits (o.exact (Func.eval M st a) (Func.eval M st b))

/-- What a step must meet. -/
structure Meets (f : Func) (M : Machine (BitVec 32) Unit) (regs : Value → Option RegRef)
    (c : Conf) (i : InstrId) : Prop where
  loads : Loads (f.instr i)
  laid : Laid f regs c.block c.index i
  noWrap : NoWrap M (f.instr i) c.st

/-- Every step of the run of `n` steps meets the condition. -/
def AllMeet (f : Func) (M : Machine (BitVec 32) Unit) (regs : Value → Option RegRef) (n : Nat) :
    Prop :=
  ∀ m < n, ∀ c, Lockstep.run (step M f) 0 m (start M f) = .inl c →
    ∀ i, (f.body c.block)[c.index]? = some i → Meets f M regs c i

end Cminusfc.Codegen.Canonical
