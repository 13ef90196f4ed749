import Cminusfc.Codegen.Moves

/-!
# Loads and stores: what they should access

`Codegen::gep`, `Codegen::load` and `Codegen::store` (`src/codegen/codegen.cpp`, lines 119-304) share
the address of an element with a variable index: `gep` leaves `s0 - 16 + 4 * index` in the register of
the pointer, and the access adds the offset of the array and 16. An access may stand behind other
code, so there are two states of the generator: `s₀` in front of the `getelementptr`, `s` in front of
the access.

* `element f s ptr` reads a pointer operand: where its base lives (`Base`) and which element it names
  (`Index`). `address` is the address this means.
* `Current` and `Consistent` say what the current values of the operands are: `env v` is in the
  register of `v` where the generator takes it to be there, in a function with calls in its slot.
  `Pointed` says that the code of `gep` has run and that its register has been left alone since.
* `Computes` is the law of `gep`; `Loads`, `Stores` and `ReadsBack` are the three parts of the law of
  the access: `load` and `store` emit code, the code accesses the element, and a load after a store
  finds the stored value.
* `Supplied` and `Accessible` are the condition, on the pool and the registers. `GepReady`,
  `LoadReady` and `StoreReady` are what the register allocator and the frame give: registers of the
  right class that differ where two operands of one instruction do, and offsets in range.

Out of scope: what lies between `gep` and the access, but for the register of the pointer, which it
leaves alone.
-/

namespace Cminusfc.Codegen.Elements

open Cminusfc.LightIR
open Fallible (bind_ok)
open RegAlloc (hasFcalls)

/-! ## Pointer operands -/

/-- Where the base of an element lives. -/
inductive Base where
  | slot (offset : Int)
  | global (name : String)
  | param (v : Value)

/-- Which element it is. -/
inductive Index where
  | const (c : Int)
  | var (v : Value)

/-- What a pointer operand points to. -/
structure Element where
  base : Base
  index : Index

/-- The base operand of a `getelementptr`. -/
def baseOf (s : St) (v : Value) : Option Base :=
  match s.stackMapping v with
  | some offset => some (.slot offset)
  | none =>
    match asGlobal v with
    | some n => some (.global n)
    | none => (s.regMapping v).map fun _ => .param v

/-- The index operand of a `getelementptr`. -/
def indexOf (v : Value) : Index :=
  match asConstantInt v with
  | some c => .const c
  | none => .var v

/-- A pointer operand: a scalar alloca, a scalar global, or an element. -/
def element (f : Func) (s : St) (ptr : Value) : Option Element :=
  if isAlloca f ptr then (s.stackMapping ptr).map fun offset => ⟨.slot offset, .const 0⟩
  else
    match asGlobal ptr, asGep f ptr with
    | some n, _ => some ⟨.global n, .const 0⟩
    | none, some gep =>
      match gep.operands.head?, gep.operands.getLast? with
      | some base, some index => (baseOf s base).map fun b => ⟨b, indexOf index⟩
      | _, _ => none
    | none, none => none

/-! ## The law -/

variable {W : Type}

/-- The current values the code of an access depends on. -/
def Element.uses (e : Element) (rval : Value) : List Value :=
  match e.base, e.index with
  | .param v, .var i => [v, i, rval]
  | .param v, .const _ => [v, rval]
  | .global _, .var i => [i, rval]
  | _, _ => [rval]

/-- The address an element has. -/
def Element.address (t : Target W) (m : Riscv.State Reg W) (env : Value → Riscv.Word)
    (e : Element) : Riscv.Word :=
  (match e.base with
    | .slot offset => m.regs s0.reg + BitVec.ofInt 64 offset
    | .global n => t.symbol n
    | .param v => env v) +
  4 * match e.index with
    | .const c => BitVec.ofInt 64 c
    | .var i => env i

/-- `env` gives the current values of `vs`: in registers where the generator takes them to be there,
and in slots where the function has calls. -/
structure Current (f : Func) (s : St) (vs : List Value) (m : Riscv.State Reg W)
    (env : Value → Riscv.Word) : Prop where
  regs : hasFcalls f = false → ∀ v ∈ vs, ∀ r, s.regMapping v = some r → s.fresh r.reg = true →
    m.regs r.reg = env v
  slots : hasFcalls f = true → ∀ v ∈ vs, ∀ r, s.regMapping v = some r →
    m.mem.load (slotWidth r) (m.regs s0.reg + BitVec.ofInt 64 (s.offsetAt r.reg)) = env v

/-- `env` gives the current values of the operands of an access, and the constant pool holds what
`assign` adds to it. -/
structure Consistent (t : Target W) (f : Func) (s : St) (rval : Value) (e : Element)
    (m : Riscv.State Reg W) (env : Value → Riscv.Word) : Prop
    extends Current f s (e.uses rval) m env where
  pool : ∀ bits, asConstantFP rval = some bits → ∀ k < 2,
    m.mem.readWord (t.symbol (".LC" ++ toString (s.localFloats.length + k))) = bits

/-- The value of an operand. -/
def valueOf (env : Value → Riscv.Word) (v : Value) : Riscv.Word :=
  match asConstantInt v, asConstantFP v with
  | some c, _ => BitVec.ofInt 64 c
  | none, some bits => Riscv.box bits
  | none, none => env v

/-- The text of an instruction starts empty. -/
def fresh (s : St) : St := { s with ss := [] }

/-- The variable of an index. -/
def Index.uses : Index → List Value
  | .const _ => []
  | .var i => [i]

/-- `gep` emits code. For an element of a local array the code leaves the address, but for the offset
of the array, in the register of the pointer. -/
def Computes (t : Target W) (f : Func) (s₀ : St) (g : InstrId) (e : Element) : Prop :=
  ∃ s', gep f g (fresh s₀) = .ok s' ∧ ∀ m env, Current f s₀ e.index.uses m env →
    ∃ m', t.machine.run s'.ss m = .next m' ∧ ∀ o i, e = ⟨.slot o, .var i⟩ →
      m'.regs (s₀.regAt (.instr g)).reg = m.regs s0.reg + BitVec.ofInt 64 (-16) + 4 * env i

/-- The code of `gep` has run, on the current index, and has left what the register of the pointer
holds now. -/
def Pointed (t : Target W) (f : Func) (s₀ : St) (ptr : Value) (e : Element) (m : Riscv.State Reg W)
    (env : Value → Riscv.Word) : Prop :=
  ∀ o i, e = ⟨.slot o, .var i⟩ → ∃ g s' m₀ m₁, ptr = .instr g ∧ gep f g (fresh s₀) = .ok s' ∧
    Current f s₀ [i] m₀ env ∧ t.machine.run s'.ss m₀ = .next m₁ ∧ m₀.regs s0.reg = m.regs s0.reg ∧
      m.regs (s₀.regAt ptr).reg = m₁.regs (s₀.regAt ptr).reg

/-- `load` reads the element into the register of `dest`. -/
def Loads (t : Target W) (f : Func) (s₀ s : St) (ptr rval : Value) (dest : InstrId) (e : Element)
    (fl : Bool) : Prop :=
  ∃ s', load f dest ptr (fresh s) = .ok s' ∧ ∀ m env, Consistent t f s rval e m env →
    Pointed t f s₀ ptr e m env → ∃ m', t.machine.run s'.ss m = .next m' ∧
      m'.regs (s.regAt (.instr dest)).reg = m.mem.load (elemWidth fl) (e.address t m env)

/-- `store` writes the value to the element, and nothing else. -/
def Stores (t : Target W) (f : Func) (s₀ s : St) (ptr rval : Value) (e : Element) (fl : Bool) :
    Prop :=
  ∃ s', store f ptr rval (fresh s) = .ok s' ∧ ∀ m env, Consistent t f s rval e m env →
    Pointed t f s₀ ptr e m env → ∃ m', t.machine.run s'.ss m = .next m' ∧
      m'.mem = m.mem.store (elemWidth fl) (e.address t m env) (valueOf env rval)

/-- The pool has what the routines ask for. `get_temp` throws when it has not. -/
structure Supplied (f : Func) (s₀ s : St) (rval : Value) (e : Element) (fl : Bool) : Prop where
  gep : ∀ b i, e = ⟨b, .var i⟩ → ∃ q ∈ s₀.freeRegs, q.f = false
  operand : s.regMapping rval = none →
    (∃ q ∈ s.freeRegs, q.f = fl) ∧ ∃ q ∈ s.freeRegs, q.f = false
  address : ∀ n i, e = ⟨.global n, i⟩ → ∀ r, regOrTemp s rval fl = .ok r →
    ∃ q ∈ (s.erase r.reg).freeRegs, q.f = false

/-- Bringing the operand of a store into a register leaves `q` alone. -/
def Spares (s : St) (rval : Value) (fl : Bool) (q : Reg) : Prop :=
  (∀ r, regOrTemp s rval fl = .ok r → r.reg ≠ q) ∧ (asConstantFP rval ≠ none → ¬ HandsOut s q)

/-- The register of an operand of class `fl`. -/
structure Mapped (f : Func) (s : St) (v : Value) (fl d : Bool) (r : RegRef) : Prop where
  reg : s.regMapping v = some r
  int : asConstantInt v = none
  fp : asConstantFP v = none
  name : nameOf f v ≠ ""
  gep : asGep f v = none
  usable : Usable r.reg fl
  isD : r.d = d
  size : (valueType f v).size ≠ 1
  imm : isImm (s.offsetAt r.reg) = true
  slot : HasSlot f s r.reg

/-- What a load needs. -/
structure LoadReady (f : Func) (s : St) (ptr : Value) (dest : InstrId) (e : Element)
    (fl : Bool) : Prop where
  element : element f s ptr = some e
  isFloat : (f.instr dest).ty.isFloat = fl
  dest : ∃ d, s.regMapping (.instr dest) = some d ∧ Usable d.reg fl ∧ d.d = false ∧ HasSlot f s d.reg
  pool : ∀ q ∈ s.freeRegs, Usable q q.f
  slots : ∀ r o, s.s0Offset r = some o → isImm o = true
  slotConst : ∀ o c, e = ⟨.slot o, .const c⟩ → isImm (c * 4 + o) = true
  globalConst : ∀ n c, e = ⟨.global n, .const c⟩ → isImm (4 * c) = true
  slotVar : ∀ o i, e = ⟨.slot o, .var i⟩ → isImm (o + 16) = true ∧
    ∃ g, s.regMapping ptr = some g ∧ Usable g.reg false ∧ g.d = true
  globalVar : ∀ n i, e = ⟨.global n, .var i⟩ → nameOf f ptr ≠ "" ∧
    s.regMapping (.global n) = none ∧ ∃ q, Mapped f s i false false q
  paramVar : ∀ v i, e = ⟨.param v, .var i⟩ → ∃ b q, Mapped f s v false true b ∧
    Mapped f s i false false q ∧ b.reg ≠ q.reg

/-- A constant of the class `fl`. -/
def Literal (v : Value) (fl : Bool) : Prop :=
  (∃ c, asConstantInt v = some c ∧ Loadable c ∧ fl = false) ∨
    ∃ bits, asConstantFP v = some bits ∧ fl = true

/-- What a store needs besides: an operand that is a constant or has a register. The pointer and the
operand are both operands of the store. -/
structure StoreReady (f : Func) (s : St) (ptr rval : Value) (e : Element) (fl : Bool) : Prop where
  isFloat : (valueType f rval).isFloat = fl
  source : (∃ r, Mapped f s rval fl false r) ∨ s.regMapping rval = none ∧ Literal rval fl
  ptr : ∀ o i g r, e = ⟨.slot o, .var i⟩ → s.regMapping ptr = some g →
    s.regMapping rval = some r → r.reg ≠ g.reg

end Cminusfc.Codegen.Elements
