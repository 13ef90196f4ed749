import Cminusfc.Codegen.Instgen

/-!
# Code generation

Model of `Codegen` in `codegen.cpp`, for one function after register allocation.

* `St` holds the members that change while a function is generated. `ss` is the text of the
  instruction under way; comments are left out.
* `reg_mapping[v]`, `stack_mapping[v]` and `s0_offset[r]` insert a default where there is no entry,
  and so do `regAt`, `stackAt` and `offsetAt` together with `touchReg`, `touchStack` and
  `touchOffset`.
* The members `d` of registers in `reg_mapping` are written by `gep`; that of a register in
  `free_regs` is never read.
* The text of a function is a `Text`: the prologue, and for each block the pieces of code its
  instructions leave, in order.

Source: `src/codegen/codegen.cpp` 33-740, `include/codegen/codegen.h` 20-77. Out of scope:
`gen_module` and `gen_local_constants` (`FloatData`), comments in the text.
-/

namespace Cminusfc.Codegen

open Cminusfc.LightIR
open RegAlloc (hasFcalls typeOf)

/-! ## Registers -/

def sp : RegRef := ⟨⟨2, false⟩, true⟩

def s0 : RegRef := ⟨⟨8, false⟩, true⟩

def ra : RegRef := ⟨⟨1, false⟩, true⟩

def zero : RegRef := ⟨⟨0, false⟩, false⟩

def fa0 : RegRef := ⟨⟨10, true⟩, false⟩

def a0 : RegRef := ⟨⟨10, false⟩, false⟩

/-- `temps`. -/
def temps : List Reg := RegAlloc.regs

/-- `ftemps`. -/
def ftemps : List Reg := RegAlloc.fregs

/-- `caller_saved_regs`, in the order of `Reg::operator<`. -/
def callerSavedRegs : List Reg :=
  [1, 5, 6, 7, 10, 11, 12, 13, 14, 15, 16, 17, 28, 29, 30, 31].flatMap fun i =>
    [⟨i, false⟩, ⟨i, true⟩]

/-- `IMM_MIN <= i && i <= IMM_MAX`. -/
def isImm (i : Int) : Bool := -2048 ≤ i && i ≤ 2047

/-! ## Values -/

/-- `dynamic_cast<ConstantInt *>`, with `get_value`. -/
def asConstantInt : Value → Option Int
  | .int32 v => some v.toInt
  | .int1 b => some (if b then 1 else 0)
  | _ => none

/-- `dynamic_cast<ConstantFP *>`, with `get_value`. -/
def asConstantFP : Value → Option (BitVec 32)
  | .fp bits => some bits
  | _ => none

/-- `dynamic_cast<GlobalVariable *>`, with `get_name`. -/
def asGlobal : Value → Option String
  | .global n => some n
  | _ => none

section

variable (f : Func)

/-- `dynamic_cast<GetElementPtrInst *>`. -/
def asGep : Value → Option Instr
  | .instr i => if (f.instr i).op = .getelementptr then some (f.instr i) else none
  | _ => none

/-- `dynamic_cast<AllocaInst *>` succeeds. -/
def isAlloca : Value → Bool
  | .instr i => (f.instr i).op = .alloca
  | _ => false

/-- `get_name`; constants have none. -/
def nameOf : Value → String
  | .global n | .function n => n
  | .int32 _ | .int1 _ | .fp _ | .zero _ => ""
  | v => f.names v

/-- `get_type`; what a global points to is not looked at. -/
def valueType : Value → Ty
  | .int32 _ => .int32
  | .int1 _ => .int1
  | .fp _ => .float
  | .zero t => t
  | .global _ | .function _ => .pointer .void
  | .block _ => .label
  | v => typeOf f v

end

/-! ## State -/

/-- The members of `Codegen` that change within a function. -/
structure St where
  regMapping : Value → Option RegRef
  stackMapping : Value → Option Int
  s0Offset : Reg → Option Int := fun _ => none
  freeRegs : List Reg := []
  fresh : Reg → Bool := fun _ => false
  localFloats : List (BitVec 32) := []
  stackSize : Int := 0
  ss : List Code := []

namespace St

/-- The value of `reg_mapping[v]`. -/
def regAt (s : St) (v : Value) : RegRef := (s.regMapping v).getD ⟨⟨-1, false⟩, false⟩

/-- The entry `reg_mapping[v]` leaves. -/
def touchReg (s : St) (v : Value) : St :=
  { s with regMapping := Function.update s.regMapping v (some (s.regAt v)) }

/-- The value of `stack_mapping[v]`. -/
def stackAt (s : St) (v : Value) : Int := (s.stackMapping v).getD 0

/-- The entry `stack_mapping[v]` leaves. -/
def touchStack (s : St) (v : Value) : St :=
  { s with stackMapping := Function.update s.stackMapping v (some (s.stackAt v)) }

/-- The value of `s0_offset[r]`. -/
def offsetAt (s : St) (r : Reg) : Int := (s.s0Offset r).getD 0

/-- The entry `s0_offset[r]` leaves. -/
def touchOffset (s : St) (r : Reg) : St :=
  { s with s0Offset := Function.update s.s0Offset r (some (s.offsetAt r)) }

/-- `free_regs.erase(r)`. -/
def erase (s : St) (r : Reg) : St := { s with freeRegs := s.freeRegs.filter (· ≠ r) }

/-- `free_regs.insert(r)`. -/
def insert (s : St) (r : Reg) : St := { s with freeRegs := insertReg s.freeRegs r }

/-- `fresh[r] = b`. -/
def setFresh (s : St) (r : Reg) (b : Bool) : St := { s with fresh := Function.update s.fresh r b }

/-- `ss << c`. -/
def put (s : St) (c : Code) : St := { s with ss := s.ss ++ [c] }

end St

/-- `ss << ig.…`. -/
def print (c : Except Failure Code) (s : St) : Except Failure St := c.map s.put

theorem print_ok {c : Except Failure Code} {s s' : St} :
    print c s = .ok s' ↔ ∃ i, c = .ok i ∧ s' = s.put i := by
  cases c <;> simp [print, Except.map, eq_comm]

/-- `get_temp`. -/
def getTemp (s : St) (f : Bool) (d : Bool) : Except Failure RegRef :=
  if s.freeRegs = [] then .error .assertion
  else
    match s.freeRegs.find? (·.f = f) with
    | some r => .ok ⟨r, d⟩
    | none => .error (.runtimeError "no free regs!")

/-- `reg_mapping.contains(v) ? reg_mapping[v] : get_temp(f)`. -/
def regOrTemp (s : St) (v : Value) (f : Bool) : Except Failure RegRef :=
  match s.regMapping v with
  | some r => .ok r
  | none => getTemp s f false

section

variable (f : Func)

/-! ## Moving values -/

/-- `save`. -/
def save (r : RegRef) (s : St) : Except Failure St :=
  let s := s.erase r.reg
  if (s.s0Offset r.reg).isNone && hasFcalls f then .error .assertion
  else
    let s := s.setFresh r.reg true
    if !hasFcalls f then .ok s
    else
      print (if r.reg.f then Instgen.fsw r (s.offsetAt r.reg) s0
        else Instgen.sw r (s.offsetAt r.reg) s0) s

/-- The constants in `assign`. -/
def assignConst (dst : RegRef) (v : Value) (s : St) : Except Failure St :=
  match asConstantInt v with
  | some i =>
    if isImm i then print (Instgen.addi dst zero i) s
    else do
      let upper12 := i / 4096
      let imm := i % 4096
      let s ← print (Instgen.lui dst (if imm ≥ 2048 then upper12 + 1 else upper12)) s
      print (Instgen.addi dst dst (if imm ≥ 2048 then imm - 4096 else imm)) s
  | none =>
    match asConstantFP v with
    | some bits => do
      let s := { s with localFloats := s.localFloats ++ [bits] }
      let temp ← getTemp s false false
      let s ← print (Instgen.lla temp (".LC" ++ toString (s.localFloats.length - 1))) s
      print (Instgen.flw dst 0 temp) s
    | none => .ok s

/-- The values with a register in `assign`. -/
def assignReg (dst src : RegRef) (v : Value) (s : St) : Except Failure St :=
  let a := hasFcalls f
  let stays := s.fresh src.reg && !a
  if src.reg = dst.reg && stays then .ok s
  else if dst.reg.f then
    if stays then print (Instgen.fmvs dst src) s
    else print (Instgen.flw dst (s.offsetAt src.reg) s0) (s.touchOffset src.reg)
  else if dst.d then
    if stays then print (Instgen.mv dst src) s
    else print (Instgen.ld dst (s.offsetAt src.reg) s0) (s.touchOffset src.reg)
  else if stays || (valueType f v).size = 1 then print (Instgen.mv dst src) s
  else print (Instgen.lw dst (s.offsetAt src.reg) s0) (s.touchOffset src.reg)

/-- `assign`. -/
def assign (dst : RegRef) (v : Value) (s : St) : Except Failure St :=
  if nameOf f v = "" then assignConst dst v s
  else
    match asGep f v with
    | some gep =>
      match gep.operands.head? with
      | none => .error .undefined
      | some base =>
        match asGlobal base with
        | some n => print (Instgen.la dst n) s
        | none => print (Instgen.addi dst s0 (s.stackAt base)) (s.touchStack base)
    | none =>
      match s.regMapping v with
      | some src => assignReg f dst src v s
      | none =>
        if (s.stackMapping v).isSome then .error (.runtimeError "stack assign value")
        else .error (.runtimeError "assign???")

/-! ## Memory -/

/-- `ss << (f ? ig.flw(…) : ig.lw(…))`. -/
def printLoad (fl : Bool) (dst : RegRef) (offset : Int) (base : RegRef) (s : St) :
    Except Failure St :=
  print (if fl then Instgen.flw dst offset base else Instgen.lw dst offset base) s

/-- `ss << (f ? ig.fsw(…) : ig.sw(…))`. -/
def printStore (fl : Bool) (src : RegRef) (offset : Int) (base : RegRef) (s : St) :
    Except Failure St :=
  print (if fl then Instgen.fsw src offset base else Instgen.sw src offset base) s

/-- The end of each constant-indexed branch of `load`. -/
def loadInto (fl : Bool) (dest : RegRef) (offset : Int) (base : RegRef) (s : St) :
    Except Failure St :=
  if dest.reg.isReal then do
    let s ← printLoad fl dest offset base s
    save f dest s
  else .error (.runtimeError "instr not in register mapping")

/-- What `load` and `store` look at first. `base` and `gepIndex` may be null. -/
structure Access where
  base : Option Value
  gepIndex : Option Value
  constInt : Option Int
  offset : Int
  globalPtr : Option String
  isGep : Bool
  constIndexed : Bool

/-- The casts at the start of `load` and of `store`. -/
def access (ptr : Value) : Access :=
  let gepPtr := asGep f ptr
  let gepIndex := gepPtr.bind (·.operands.getLast?)
  let constInt := gepIndex.bind asConstantInt
  let allocaPtr := isAlloca f ptr
  let globalPtr := asGlobal ptr
  { base := if allocaPtr then some ptr else gepPtr.bind (·.operands.head?)
    gepIndex := gepIndex
    constInt := constInt
    offset := if allocaPtr then 0 else constInt.getD 2147483647
    globalPtr := globalPtr
    isGep := gepPtr.isSome
    constIndexed := constInt.isSome || allocaPtr || globalPtr.isSome }

/-- The constant-indexed half of `load`. -/
def loadConst (a : Access) (fl : Bool) (dest : RegRef) (s : St) : Except Failure St :=
  match a.base.bind s.stackMapping with
  | some off => loadInto f fl dest (a.offset * 4 + off) s0 s
  | none =>
    match a.globalPtr with
    | some n => do
      let addrTemp ← getTemp s false true
      let s ← print (Instgen.la addrTemp n) s
      loadInto f fl dest 0 addrTemp s
    | none =>
      match a.base.bind asGlobal with
      | some n => do
        let addrTemp ← getTemp s false true
        let s ← print (Instgen.la addrTemp n) s
        loadInto f fl dest (4 * a.offset) addrTemp s
      | none =>
        match a.base.bind s.regMapping with
        | some addr => loadInto f fl dest (4 * a.offset) addr s
        | none => .error (.runtimeError "load: base pointer not in stack")

/-- `reg_mapping.at(v)`. -/
def St.regAtOrThrow (s : St) (v : Option Value) : Except Failure (Value × RegRef) :=
  match v with
  | none => .error .outOfRange
  | some v =>
    match s.regMapping v with
    | some r => .ok (v, r)
    | none => .error .outOfRange

/-- `assign(index_reg, gep_index)`, then the index is scaled and added to the base, in place. -/
def scaleIndex (base index : RegRef) (gepIndex : Value) (s : St) : Except Failure St := do
  let s ← assign f index gepIndex s
  let s ← print (Instgen.slli index index 2) s
  print (Instgen.add base base index) s

/-- The variable-indexed half of `load`. -/
def loadVar (a : Access) (ptr : Value) (fl : Bool) (dest : RegRef) (s : St) : Except Failure St :=
  if !a.isGep then .error (.runtimeError "non const indexed pointer TODO")
  else if !dest.reg.isReal then .error .assertion
  else
    match a.base.bind s.stackMapping with
    | some off => do
      let (_, r) ← s.regAtOrThrow (some ptr)
      let s ← printLoad fl dest (off + 16) r s
      save f dest s
    | none =>
      match a.base.bind s.regMapping with
      | some _ => do
        let (base, baseReg) ← s.regAtOrThrow a.base
        let (gepIndex, indexReg) ← s.regAtOrThrow a.gepIndex
        let s ← assign f baseReg base s
        let s ← scaleIndex f baseReg indexReg gepIndex s
        let s ← printLoad fl dest 0 baseReg s
        save f dest ((s.setFresh indexReg.reg false).setFresh baseReg.reg false)
      | none => do
        let addrTemp ← getTemp s false true
        let s ← assign f addrTemp ptr s
        let (gepIndex, indexReg) ← s.regAtOrThrow a.gepIndex
        let s ← scaleIndex f addrTemp indexReg gepIndex s
        let s ← printLoad fl dest 0 addrTemp s
        save f dest (s.setFresh indexReg.reg false)

/-- `load`. -/
def load (instr : InstrId) (ptr : Value) (s : St) : Except Failure St :=
  let a := access f ptr
  let fl := (f.instr instr).ty.isFloat
  let dest := s.regAt (.instr instr)
  let s := s.touchReg (.instr instr)
  if a.constIndexed then loadConst f a fl dest s else loadVar f a ptr fl dest s

/-- The constant-indexed half of `store`. -/
def storeConst (a : Access) (fl : Bool) (rvalReg : RegRef) (s : St) : Except Failure St :=
  match a.base.bind s.stackMapping with
  | some off => printStore fl rvalReg (off + 4 * a.offset) s0 s
  | none =>
    match a.globalPtr with
    | some n => do
      let addrTemp ← getTemp s false true
      let s ← print (Instgen.la addrTemp n) s
      printStore fl rvalReg 0 addrTemp s
    | none =>
      match a.base.bind asGlobal with
      | some n => do
        let addrTemp ← getTemp s false true
        let s ← print (Instgen.la addrTemp n) s
        printStore fl rvalReg (4 * a.offset) addrTemp s
      | none => .error (.runtimeError "store: base pointer not in stack")

/-- The variable-indexed half of `store`. -/
def storeVar (a : Access) (lval rval : Value) (fl : Bool) (rvalReg : RegRef) (s : St) :
    Except Failure St :=
  if !a.isGep then .error (.runtimeError "non-const index store TODO")
  else
    match a.base.bind s.stackMapping with
    | some off => do
      let (_, r) ← s.regAtOrThrow (some lval)
      printStore fl rvalReg (off + 16) r s
    | none =>
      match a.base.bind s.regMapping with
      | some _ => do
        let (base, baseReg) ← s.regAtOrThrow a.base
        let (gepIndex, indexReg) ← s.regAtOrThrow a.gepIndex
        let s ← assign f baseReg base s
        let s ← scaleIndex f baseReg indexReg gepIndex s
        let s ← assign f rvalReg rval s
        let s ← printStore fl rvalReg 0 baseReg s
        .ok ((s.setFresh indexReg.reg false).setFresh baseReg.reg false)
      | none => do
        let addrTemp ← getTemp s false true
        let s ← assign f addrTemp lval s
        let (gepIndex, indexReg) ← s.regAtOrThrow a.gepIndex
        let s ← scaleIndex f addrTemp indexReg gepIndex s
        printStore fl rvalReg 0 addrTemp s

/-- The two halves of `store`. -/
def storeTo (a : Access) (lval rval : Value) (fl : Bool) (rvalReg : RegRef) (s : St) :
    Except Failure St :=
  if a.constIndexed then storeConst a fl rvalReg s else storeVar f a lval rval fl rvalReg s

/-- `store`. -/
def store (lval rval : Value) (s : St) : Except Failure St := do
  let fl := (valueType f rval).isFloat
  let rvalReg ← regOrTemp s rval fl
  let s ← assign f rvalReg rval s
  let s ← storeTo f (access f lval) lval rval fl rvalReg (s.erase rvalReg.reg)
  .ok (s.insert rvalReg.reg)

/-- `gep`. -/
def gep (dest : InstrId) (s : St) : Except Failure St :=
  match (f.instr dest).operands.getLast? with
  | none => .error .undefined
  | some index =>
    if (asConstantInt index).isSome then .ok s
    else
      let indexReg := s.regAt index
      let s := s.touchReg index
      let destReg := s.regAt (.instr dest)
      let s := s.touchReg (.instr dest)
      if indexReg.reg.isReal then do
        let s ← assign f indexReg index s
        if destReg.reg.isReal then do
          let destReg : RegRef := ⟨destReg.reg, true⟩
          let s :=
            { s with regMapping := Function.update s.regMapping (.instr dest) (some destReg) }
          let s ← print (Instgen.slli destReg indexReg 2) s
          let temp ← getTemp s false false
          let s ← print (Instgen.addi temp s0 (-16)) s
          print (Instgen.add destReg destReg temp) s
        else .error (.runtimeError "dest not in reg: gep")
      else .error (.runtimeError "index not in reg: gep")

/-! ## Control -/

/-- `branch`. -/
def branch (x : Instr) (s : St) : Except Failure St :=
  match x.operands with
  | [cond, trueBB, falseBB] =>
    match s.regMapping cond with
    | some r => do
      let s ← print (Instgen.bnez r trueBB.asBlock) s
      print (Instgen.j falseBB.asBlock) s
    | none => .error (.runtimeError "branch cond stack")
  | unconditional :: _ => print (Instgen.j unconditional.asBlock) s
  | [] => .error .undefined

/-- The body of the loop of `push_caller_saved_regs`. -/
def pushCallerSavedReg (offsets : Reg → Option Int) (ds : Reg → Bool) (s : St) (r : Reg) :
    Except Failure St :=
  match offsets r with
  | none => .ok s
  | some offset =>
    if s.fresh r then
      let r : RegRef := ⟨r, ds r⟩
      if r.reg.f then print (Instgen.fsw r offset s0) s
      else if r.d then print (Instgen.sd r offset s0) s
      else print (Instgen.sw r offset s0) s
    else .ok s

/-- The return value in `fun_epilogue`. -/
def moveRetVal (x : Instr) (s : St) : Except Failure St :=
  match x.operands with
  | [] => .ok s
  | retVal :: _ => do
    let fl := (valueType f retVal).isFloat
    let destReg ← regOrTemp s retVal fl
    let s ← assign f destReg retVal s
    print (if fl then Instgen.fmvs fa0 destReg else Instgen.mv a0 destReg) s

/-- The saved registers in `fun_epilogue`. -/
def restoreFrame (s : St) : Except Failure St :=
  if hasFcalls f then do
    let s ← print (Instgen.ld ra (s.stackSize - 8) sp) s
    print (Instgen.ld s0 (s.stackSize - 16) sp) s
  else print (Instgen.ld s0 (s.stackSize - 8) sp) s

/-- `fun_epilogue`. -/
def funEpilogue (x : Instr) (s : St) : Except Failure St := do
  let s ← moveRetVal f x s
  let s ← restoreFrame f s
  let s ← print (Instgen.addi sp sp s.stackSize) s
  print (Instgen.jr ra) s

/-- The counters of the loop over the operands in `call`. -/
structure CallArgs where
  intArgCounter : Nat := 0
  flArgCounter : Nat := 0
  st : St

/-- The body of that loop. -/
def callArg (c : CallArgs) (arg : Value) : Except Failure CallArgs :=
  if !(valueType f arg).isFloat then
    match args[c.intArgCounter]? with
    | none => .error .undefined
    | some r => do
      let s := c.st.erase r
      let s ← assign f ⟨r, (valueType f arg).isPointer⟩ arg s
      .ok { c with intArgCounter := c.intArgCounter + 1, st := s.setFresh r false }
  else
    match fargs[c.flArgCounter]? with
    | none => .error .undefined
    | some r => do
      let s ← assign f ⟨r, false⟩ arg ((c.st.erase r).setFresh r false)
      .ok { c with flArgCounter := c.flArgCounter + 1, st := s }

/-- `call`. -/
def call (i : InstrId) (s : St) : Except Failure St :=
  match (f.instr i).operands with
  | [] => .error .undefined
  | callee :: operands => do
    let c ← operands.foldlM (callArg f) { st := s }
    let s ← print (Instgen.call (nameOf f callee)) c.st
    let s := callerSavedRegs.foldl (fun s r => s.setFresh r false) s
    if (f.instr i).ty = .void then .ok s
    else
      match s.regMapping (.instr i) with
      | some r => do
        let s ← print (if (f.instr i).ty.isFloat then Instgen.fmvs r fa0 else Instgen.mv r a0) s
        save f (if (f.instr i).ty.size > 4 then ⟨r.reg, true⟩ else r) s
      | none =>
        match s.stackMapping (.instr i) with
        | some off => print (Instgen.sw a0 off sp) s
        | none =>
          .error (.runtimeError "why is this call not (in register or in stack)?")

/-! ## Arithmetic -/

/-- The end of `bin_inst_imm`; another operation prints nothing. -/
def printImm (op : OpID) (dest : RegRef) (i : Int) (s : St) : Except Failure St :=
  match op with
  | .add => print (Instgen.addi dest dest i) s
  | .sub => print (Instgen.addi dest dest (-i)) s
  | _ => .ok s

/-- `bin_inst_imm`. -/
def binInstImm (dest : InstrId) (op : OpID) (val : Value) (i : Int) (s : St) : Except Failure St :=
  match s.regMapping (.instr dest) with
  | some destReg => do
    let s := s.erase destReg.reg
    let s ← assign f destReg val s
    let s ← printImm op destReg i s
    save f destReg s
  | none => .error (.runtimeError "bin imm inst: stack")

/-- The switch over the operation in `bin_inst`; another operation prints nothing. -/
def printBin (op : OpID) (fl : Bool) (dest rhs : RegRef) (s : St) : Except Failure St :=
  if !fl then
    match op with
    | .add => print (Instgen.add dest dest rhs) s
    | .sub => print (Instgen.sub dest dest rhs) s
    | .mul => print (Instgen.mul dest dest rhs) s
    | .sdiv => print (Instgen.div dest dest rhs) s
    | _ => .ok s
  else
    match op with
    | .fadd => print (Instgen.fadds dest dest rhs) s
    | .fsub => print (Instgen.fsubs dest dest rhs) s
    | .fmul => print (Instgen.fmuls dest dest rhs) s
    | .fdiv => print (Instgen.fdivs dest dest rhs) s
    | _ => .ok s

/-- The half of `bin_inst` that takes both operands from registers. -/
def binInstReg (dest : InstrId) (op : OpID) (lhs rhs : Value) (fl : Bool) (s : St) :
    Except Failure St := do
  let (_, destReg) ← s.regAtOrThrow (some (.instr dest))
  let s := s.erase destReg.reg
  let s ← assign f destReg lhs s
  let rhsReg ← regOrTemp s rhs fl
  let s ← assign f rhsReg rhs s
  let s ← printBin op fl destReg rhsReg s
  save f destReg s

/-- An operand that `bin_inst` takes as an immediate. -/
def immOf (v : Value) : Option Int := (asConstantInt v).filter isImm

/-- `bin_inst`. -/
def binInst (dest : InstrId) (op : OpID) (fl : Bool) (s : St) : Except Failure St :=
  match (f.instr dest).operands with
  | lhs :: rhs :: _ =>
    if !fl && (op = .add || op = .sub) then
      match immOf rhs, immOf lhs with
      | some i, _ => binInstImm f dest op lhs i s
      | none, some i =>
        if op ≠ .sub then binInstImm f dest op rhs i s else binInstReg f dest op lhs rhs fl s
      | none, none => binInstReg f dest op lhs rhs fl s
    else binInstReg f dest op lhs rhs fl s
  | _ => .error .undefined

/-- `sext`. -/
def sext (dest : InstrId) (src : Value) (s : St) : Except Failure St :=
  match s.regMapping (.instr dest) with
  | some destReg => do
    let s := s.erase destReg.reg
    let s ← assign f destReg src s
    let s ← print (Instgen.andi destReg destReg 255) s
    let s ← print (Instgen.sextw destReg destReg) s
    save f destReg s
  | none => .error (.runtimeError "sext stack")

/-- The switch over the operation in `icmp`. -/
def printCmp (op : CmpOp) (dest rhs : RegRef) (s : St) : Except Failure St :=
  match op with
  | .EQ => do
    let s ← print (Instgen.sub dest dest rhs) s
    print (Instgen.seqz dest dest) s
  | .GE => do
    let s ← print (Instgen.slt dest dest rhs) s
    print (Instgen.xori dest dest 1) s
  | .GT => print (Instgen.sgt dest dest rhs) s
  | .LE => do
    let s ← print (Instgen.sgt dest dest rhs) s
    print (Instgen.xori dest dest 1) s
  | .LT => print (Instgen.slt dest dest rhs) s
  | .NE => do
    let s ← print (Instgen.sub dest dest rhs) s
    print (Instgen.snez dest dest) s

/-- `icmp`. -/
def icmp (dest : InstrId) (lhs rhs : Value) (s : St) : Except Failure St :=
  match s.regMapping (.instr dest) with
  | some destReg => do
    let s := s.erase destReg.reg
    let s ← assign f destReg lhs s
    let rhsReg ← regOrTemp s rhs false
    let s ← assign f rhsReg rhs s
    printCmp (f.instr dest).cmpOp destReg rhsReg s
  | none => .error (.runtimeError "stack mapping icmp")

/-- The first line of the switch in `fcmp`. -/
def printFcmpLine (op : CmpOp) (dest lhs rhs : RegRef) (s : St) : Except Failure St :=
  match op with
  | .EQ | .NE => print (Instgen.feqs dest lhs rhs) s
  | .GE => print (Instgen.fges dest lhs rhs) s
  | .GT => print (Instgen.fgts dest lhs rhs) s
  | .LE => print (Instgen.fles dest lhs rhs) s
  | .LT => print (Instgen.flts dest lhs rhs) s

/-- The switch over the operation in `fcmp`. -/
def printFcmp (op : CmpOp) (dest lhs rhs : RegRef) (s : St) : Except Failure St := do
  let s ← printFcmpLine op dest lhs rhs s
  print (if op = .NE then Instgen.seqz dest dest else Instgen.snez dest dest) s

/-- `fcmp`. -/
def fcmp (dest : InstrId) (lhs rhs : Value) (s : St) : Except Failure St :=
  match s.regMapping (.instr dest) with
  | some destReg => do
    let s := s.erase destReg.reg
    let lhsReg ← regOrTemp s lhs true
    let s ← assign f lhsReg lhs s
    let s := s.erase lhsReg.reg
    let rhsReg ← regOrTemp s rhs true
    let s ← assign f rhsReg rhs s
    let s := s.insert lhsReg.reg
    let s ← printFcmp (f.instr dest).cmpOp destReg lhsReg rhsReg s
    save f destReg s
  | none => .error (.runtimeError "fcmp stack")

/-- `fptosi`. -/
def fptosi (dest : InstrId) (fval : Value) (s : St) : Except Failure St := do
  let freg ← regOrTemp s fval true
  let s ← assign f freg fval s
  match s.regMapping (.instr dest) with
  | some destReg => do
    let s ← print (Instgen.fcvtws destReg freg) s
    let s ← print (Instgen.sextw destReg destReg) s
    save f destReg s
  | none =>
    if (s.stackMapping (.instr dest)).isSome then .error (.runtimeError "fptosi stack")
    else .error (.runtimeError "not in stack and not in reg")

/-- The register `sitofp` takes its operand from, and the state it leaves. -/
def sitofpOperand (ival : Value) (s : St) : Except Failure (RegRef × St) :=
  if (asConstantInt ival).isSome then do
    let ireg ← getTemp s false false
    let s ← assign f ireg ival s
    .ok (ireg, s)
  else
    match s.regMapping ival with
    | some ireg => .ok (ireg, s)
    | none =>
      if (s.stackMapping ival).isSome then .error (.runtimeError "sitofp stack")
      else .ok (⟨⟨-1, false⟩, false⟩, s)

/-- `sitofp`. -/
def sitofp (dest : InstrId) (ival : Value) (s : St) : Except Failure St := do
  let (ireg, s) ← sitofpOperand f ival s
  match s.regMapping (.instr dest) with
  | some destReg => do
    let s ← print (Instgen.fcvtsw destReg ireg) s
    let s ← save f destReg s
    .ok (s.erase destReg.reg)
  | none =>
    if (s.stackMapping (.instr dest)).isSome then .error (.runtimeError "sitofp stack")
    else .error (.runtimeError "not in stack and not in reg")

/-! ## Functions -/

/-- The switch of `gen_bb`. -/
def genInstr (i : InstrId) (s : St) : Except Failure St :=
  let x := f.instr i
  match x.op, x.operands with
  | .ret, _ => funEpilogue f x s
  | .call, _ => call f i s
  | .alloca, _ | .phi, _ => .ok s
  | .add, _ | .sub, _ | .mul, _ | .sdiv, _ => binInst f i x.op false s
  | .fadd, _ | .fsub, _ | .fmul, _ | .fdiv, _ => binInst f i x.op true s
  | .fptosi, v :: _ => fptosi f i v s
  | .sitofp, v :: _ => sitofp f i v s
  | .cmp, lhs :: rhs :: _ => icmp f i lhs rhs s
  | .fcmp, lhs :: rhs :: _ => fcmp f i lhs rhs s
  | .zext, v :: _ => sext f i v s
  | .br, _ => branch x s
  | .getelementptr, _ => gep f i s
  | .store, rval :: lval :: _ => store f lval rval s
  | .load, ptr :: _ => load f i ptr s
  | _, _ => .error .undefined

/-- The text of a function. -/
structure Text where
  prologue : List Code := []
  /-- For each block the pieces of code of its instructions. -/
  blocks : List (BlockId × List (List Code)) := []

/-- The body of the loop of `gen_bb`: the piece of code of one instruction is taken out of `ss`. -/
def genPiece (c : List (List Code) × St) (i : InstrId) : Except Failure (List (List Code) × St) := do
  let s ← genInstr f i { c.2 with ss := [] }
  .ok (c.1 ++ [s.ss], s)

/-- `gen_bb`. -/
def genBb (bb : BlockId) (s : St) : Except Failure (List (List Code) × St) :=
  (f.body bb).foldlM (genPiece f) ([], s)

/-- `allocate_stack`; `keys` are the keys of `reg_mapping` in the order of the map. -/
def allocateStack (keys : List Value) (s : St) : St :=
  if hasFcalls f then
    keys.foldl (fun s v =>
      let r := (s.regAt v).reg
      if r ∈ callerSavedRegs then
        let size : Int := if (valueType f v).size < 4 then 4 else (valueType f v).size
        { s with
          stackSize := s.stackSize + size
          s0Offset := Function.update s.s0Offset r (some (-(s.stackSize + size))) }
      else s) s
  else s

/-- `push_caller_saved_regs`. The keys of `s0_offset` are the registers of `reg_mapping` as
`allocate_stack` first met them. -/
def pushCallerSavedRegs (keys : List Value) (s : St) : Except Failure St :=
  let ds (r : Reg) : Bool :=
    ((keys.find? fun v => (s.regAt v).reg = r).map fun v => (s.regAt v).d).getD false
  callerSavedRegs.foldlM (pushCallerSavedReg s.s0Offset ds) s

/-- The saved registers in `fun_prologue`. -/
def saveFrame (s : St) : Except Failure St :=
  if hasFcalls f then do
    let s ← print (Instgen.sd ra (s.stackSize - 8) sp) s
    print (Instgen.sd s0 (s.stackSize - 16) sp) s
  else print (Instgen.sd s0 (s.stackSize - 8) sp) s

/-- `fun_prologue`. -/
def funPrologue (keys : List Value) (s : St) : Except Failure St := do
  let s ← print (Instgen.addi sp sp (-s.stackSize)) s
  let s ← saveFrame f s
  let s ← print (Instgen.addi s0 sp s.stackSize) s
  if hasFcalls f then pushCallerSavedRegs keys s else .ok s

/-- The body of the first loop over the arguments in `gen_function`. -/
def St.eraseArg (s : St) (v : Value) : St := (s.touchReg v).erase (s.regAt v).reg

/-- The body of the second. -/
def St.freshArg (s : St) (v : Value) : St := s.setFresh (s.regAt v).reg true

/-- The state `gen_function` starts the text of a function with. -/
def initState (s : St) : St :=
  let argv := (List.range f.args.length).map Value.arg
  let pool := ftemps.foldl insertReg (temps.foldl insertReg (fargs.foldl insertReg
    (args.foldl insertReg [])))
  let s : St :=
    { s with
      freeRegs := pool
      fresh := fun r => if 0 ≤ r.id ∧ r.id < 32 then false else s.fresh r
      ss := [] }
  argv.foldl St.freshArg (argv.foldl St.eraseArg s)

/-- The body of the loop over the blocks in `gen_function`. -/
def genBlock (c : Text × St) (bb : BlockId) : Except Failure (Text × St) := do
  let (pieces, s) ← genBb f bb c.2
  .ok ({ c.1 with blocks := c.1.blocks ++ [(bb, pieces)] }, s)

/-- `gen_function`, after the maps of the register allocator have been moved into `s`. -/
def genFunction (keys : List Value) (s : St) : Except Failure (Text × St) := do
  let s := allocateStack f keys { initState f s with s0Offset := fun _ => none }
  let s ← funPrologue f keys s
  f.blocks.foldlM (genBlock f) (⟨s.ss, []⟩, s)

end

end Cminusfc.Codegen
