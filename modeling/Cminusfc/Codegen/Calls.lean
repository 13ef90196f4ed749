import Cminusfc.Codegen.Codegen
import Cminusfc.Lib.Logged

/-!
# The routines with their calls of `get_temp`

The routines of `codegen.cpp` (`assign` 607–660, `load` 119–207, `store` 209–281, `gep` 283–304,
`bin_inst` 408–502, `icmp`, `fcmp`, `fptosi` and `sitofp` 306–406, `fun_epilogue`) once more, line by
line, with a log: an event for every call of `get_temp`, with the state it is made in and the
register it returns, and one wherever the value of an operand goes into the text, by `assign` or by
a line that reads its register.

* Parts without a call of `get_temp` (`print`, `save`, `assign_reg`, the switches that print one
  operation) are the model's own.
* `call` passes its arguments by `assign`; it is left as it is, since the log is used for functions
  without calls.

`genInstr_res`: **with the log left out, this is the code generator**.

Source: `src/codegen/codegen.cpp` 119-304, 322-508, 525-542, 602-660 and 682-740.
-/

namespace Cminusfc.Codegen.Calls

open Cminusfc.LightIR

/-- What is written down. -/
inductive Event where
  /-- The value of an operand goes into the text. -/
  | read (v : Value)
  /-- `get_temp(fl)` is called in `s` and returns `t`. -/
  | temp (s : St) (fl : Bool) (t : RegRef)

/-- A routine with its log. -/
abbrev Routine (α : Type) := Logged Event Failure α

def reads (l : List Value) : Routine PUnit := Logged.tell (l.map .read)

def fail (e : Failure) : Routine St := Logged.lift (.error e)

/-- `get_temp`. -/
def getTemp (s : St) (fl : Bool) (d : Bool) : Routine RegRef :=
  Logged.logging (Codegen.getTemp s fl d) (.temp s fl)

/-- `reg_mapping.contains(v) ? reg_mapping[v] : get_temp(fl)`. -/
def regOrTemp (s : St) (v : Value) (fl : Bool) : Routine RegRef :=
  match s.regMapping v with
  | some r => pure r
  | none => getTemp s fl false

section

variable (f : Func)

/-- The constants in `assign`. -/
def assignConst (dst : RegRef) (v : Value) (s : St) : Routine St :=
  match asConstantInt v with
  | some i =>
    if isImm i then print (Instgen.addi dst zero i) s
    else do
      let upper12 := i / 4096
      let imm := i % 4096
      let s ← print (Instgen.lui dst (if imm ≥ 2048 then upper12 + 1 else upper12)) s
      print (Instgen.addi dst dst (if imm ≥ 2048 then imm - 4096 else imm)) s
  | none =>
    match asConstantFP v with
    | some bits => do
      let s := { s with localFloats := s.localFloats ++ [bits] }
      let temp ← getTemp s false false
      let s ← print (Instgen.lla temp (".LC" ++ toString (s.localFloats.length - 1))) s
      print (Instgen.flw dst 0 temp) s
    | none => pure s

/-- `assign`. -/
def assign (dst : RegRef) (v : Value) (s : St) : Routine St := do
  reads [v]
  if nameOf f v = "" then assignConst dst v s
  else
    match asGep f v with
    | some gep =>
      match gep.operands.head? with
      | none => fail .undefined
      | some base =>
        match asGlobal base with
        | some n => print (Instgen.la dst n) s
        | none => print (Instgen.addi dst s0 (s.stackAt base)) (s.touchStack base)
    | none =>
      match s.regMapping v with
      | some src => assignReg f dst src v s
      | none =>
        if (s.stackMapping v).isSome then fail (.runtimeError "stack assign value")
        else fail (.runtimeError "assign???")

/-! ## Memory -/

/-- The constant-indexed half of `load`. -/
def loadConst (a : Access) (fl : Bool) (dest : RegRef) (s : St) : Routine St :=
  match a.base.bind s.stackMapping with
  | some off => loadInto f fl dest (a.offset * 4 + off) s0 s
  | none =>
    match a.globalPtr with
    | some n => do
      let addrTemp ← getTemp s false true
      let s ← print (Instgen.la addrTemp n) s
      loadInto f fl dest 0 addrTemp s
    | none =>
      match a.base.bind asGlobal with
      | some n => do
        let addrTemp ← getTemp s false true
        let s ← print (Instgen.la addrTemp n) s
        loadInto f fl dest (4 * a.offset) addrTemp s
      | none =>
        match a.base.bind s.regMapping with
        | some addr => do
          reads a.base.toList
          loadInto f fl dest (4 * a.offset) addr s
        | none => fail (.runtimeError "load: base pointer not in stack")

/-- `assign(index_reg, gep_index)`, then the index is scaled and added to the base, in place. -/
def scaleIndex (base index : RegRef) (gepIndex : Value) (s : St) : Routine St := do
  let s ← assign f index gepIndex s
  reads [gepIndex]
  let s ← print (Instgen.slli index index 2) s
  print (Instgen.add base base index) s

/-- The variable-indexed half of `load`. -/
def loadVar (a : Access) (ptr : Value) (fl : Bool) (dest : RegRef) (s : St) : Routine St :=
  if !a.isGep then fail (.runtimeError "non const indexed pointer TODO")
  else if !dest.reg.isReal then fail .assertion
  else
    match a.base.bind s.stackMapping with
    | some off => do
      let (_, r) ← s.regAtOrThrow (some ptr)
      reads [ptr]
      let s ← printLoad fl dest (off + 16) r s
      save f dest s
    | none =>
      match a.base.bind s.regMapping with
      | some _ => do
        let (base, baseReg) ← s.regAtOrThrow a.base
        let (gepIndex, indexReg) ← s.regAtOrThrow a.gepIndex
        let s ← assign f baseReg base s
        let s ← scaleIndex f baseReg indexReg gepIndex s
        reads [base]
        let s ← printLoad fl dest 0 baseReg s
        save f dest ((s.setFresh indexReg.reg false).setFresh baseReg.reg false)
      | none => do
        let addrTemp ← getTemp s false true
        let s ← assign f addrTemp ptr s
        let (gepIndex, indexReg) ← s.regAtOrThrow a.gepIndex
        let s ← scaleIndex f addrTemp indexReg gepIndex s
        let s ← printLoad fl dest 0 addrTemp s
        save f dest (s.setFresh indexReg.reg false)

/-- `load`. -/
def load (instr : InstrId) (ptr : Value) (s : St) : Routine St :=
  let a := access f ptr
  let fl := (f.instr instr).ty.isFloat
  let dest := s.regAt (.instr instr)
  let s := s.touchReg (.instr instr)
  if a.constIndexed then loadConst f a fl dest s else loadVar f a ptr fl dest s

/-- The constant-indexed half of `store`. -/
def storeConst (a : Access) (rval : Value) (fl : Bool) (rvalReg : RegRef) (s : St) : Routine St :=
  match a.base.bind s.stackMapping with
  | some off => do
    reads [rval]
    printStore fl rvalReg (off + 4 * a.offset) s0 s
  | none =>
    match a.globalPtr with
    | some n => do
      let addrTemp ← getTemp s false true
      let s ← print (Instgen.la addrTemp n) s
      reads [rval]
      printStore fl rvalReg 0 addrTemp s
    | none =>
      match a.base.bind asGlobal with
      | some n => do
        let addrTemp ← getTemp s false true
        let s ← print (Instgen.la addrTemp n) s
        reads [rval]
        printStore fl rvalReg (4 * a.offset) addrTemp s
      | none => fail (.runtimeError "store: base pointer not in stack")

/-- The variable-indexed half of `store`. -/
def storeVar (a : Access) (lval rval : Value) (fl : Bool) (rvalReg : RegRef) (s : St) :
    Routine St :=
  if !a.isGep then fail (.runtimeError "non-const index store TODO")
  else
    match a.base.bind s.stackMapping with
    | some off => do
      let (_, r) ← s.regAtOrThrow (some lval)
      reads [rval, lval]
      printStore fl rvalReg (off + 16) r s
    | none =>
      match a.base.bind s.regMapping with
      | some _ => do
        let (base, baseReg) ← s.regAtOrThrow a.base
        let (gepIndex, indexReg) ← s.regAtOrThrow a.gepIndex
        let s ← assign f baseReg base s
        let s ← scaleIndex f baseReg indexReg gepIndex s
        let s ← assign f rvalReg rval s
        reads [rval, base]
        let s ← printStore fl rvalReg 0 baseReg s
        pure ((s.setFresh indexReg.reg false).setFresh baseReg.reg false)
      | none => do
        let addrTemp ← getTemp s false true
        let s ← assign f addrTemp lval s
        let (gepIndex, indexReg) ← s.regAtOrThrow a.gepIndex
        let s ← scaleIndex f addrTemp indexReg gepIndex s
        reads [rval]
        printStore fl rvalReg 0 addrTemp s

/-- The two halves of `store`. -/
def storeTo (a : Access) (lval rval : Value) (fl : Bool) (rvalReg : RegRef) (s : St) : Routine St :=
  if a.constIndexed then storeConst a rval fl rvalReg s else storeVar f a lval rval fl rvalReg s

/-- `store`. -/
def store (lval rval : Value) (s : St) : Routine St := do
  let fl := (valueType f rval).isFloat
  let rvalReg ← regOrTemp s rval fl
  let s ← assign f rvalReg rval s
  let s ← storeTo f (access f lval) lval rval fl rvalReg (s.erase rvalReg.reg)
  pure (s.insert rvalReg.reg)

/-- `gep`. -/
def gep (dest : InstrId) (s : St) : Routine St :=
  match (f.instr dest).operands.getLast? with
  | none => fail .undefined
  | some index =>
    if (asConstantInt index).isSome then pure s
    else
      let indexReg := s.regAt index
      let s := s.touchReg index
      let destReg := s.regAt (.instr dest)
      let s := s.touchReg (.instr dest)
      if indexReg.reg.isReal then do
        let s ← assign f indexReg index s
        if destReg.reg.isReal then do
          let destReg : RegRef := ⟨destReg.reg, true⟩
          let s :=
            { s with regMapping := Function.update s.regMapping (.instr dest) (some destReg) }
          reads [index]
          let s ← print (Instgen.slli destReg indexReg 2) s
          let temp ← getTemp s false false
          let s ← print (Instgen.addi temp s0 (-16)) s
          print (Instgen.add destReg destReg temp) s
        else fail (.runtimeError "dest not in reg: gep")
      else fail (.runtimeError "index not in reg: gep")

/-! ## Control -/

/-- The return value in `fun_epilogue`. -/
def moveRetVal (x : Instr) (s : St) : Routine St :=
  match x.operands with
  | [] => pure s
  | retVal :: _ => do
    let fl := (valueType f retVal).isFloat
    let destReg ← regOrTemp s retVal fl
    let s ← assign f destReg retVal s
    reads [retVal]
    print (if fl then Instgen.fmvs fa0 destReg else Instgen.mv a0 destReg) s

/-- `fun_epilogue`. -/
def funEpilogue (x : Instr) (s : St) : Routine St := do
  let s ← moveRetVal f x s
  let s ← restoreFrame f s
  let s ← print (Instgen.addi sp sp s.stackSize) s
  print (Instgen.jr ra) s

/-! ## Arithmetic -/

/-- `bin_inst_imm`. -/
def binInstImm (dest : InstrId) (op : OpID) (val : Value) (i : Int) (s : St) : Routine St :=
  match s.regMapping (.instr dest) with
  | some destReg => do
    let s := s.erase destReg.reg
    let s ← assign f destReg val s
    let s ← printImm op destReg i s
    save f destReg s
  | none => fail (.runtimeError "bin imm inst: stack")

/-- The half of `bin_inst` that takes both operands from registers. -/
def binInstReg (dest : InstrId) (op : OpID) (lhs rhs : Value) (fl : Bool) (s : St) :
    Routine St := do
  let (_, destReg) ← s.regAtOrThrow (some (.instr dest))
  let s := s.erase destReg.reg
  let s ← assign f destReg lhs s
  let rhsReg ← regOrTemp s rhs fl
  let s ← assign f rhsReg rhs s
  reads [rhs]
  let s ← printBin op fl destReg rhsReg s
  save f destReg s

/-- `bin_inst`. -/
def binInst (dest : InstrId) (op : OpID) (fl : Bool) (s : St) : Routine St :=
  match (f.instr dest).operands with
  | lhs :: rhs :: _ =>
    if !fl && (op = .add || op = .sub) then
      match immOf rhs, immOf lhs with
      | some i, _ => binInstImm f dest op lhs i s
      | none, some i =>
        if op ≠ .sub then binInstImm f dest op rhs i s else binInstReg f dest op lhs rhs fl s
      | none, none => binInstReg f dest op lhs rhs fl s
    else binInstReg f dest op lhs rhs fl s
  | _ => fail .undefined

/-- `sext`. -/
def sext (dest : InstrId) (src : Value) (s : St) : Routine St :=
  match s.regMapping (.instr dest) with
  | some destReg => do
    let s := s.erase destReg.reg
    let s ← assign f destReg src s
    let s ← print (Instgen.andi destReg destReg 255) s
    let s ← print (Instgen.sextw destReg destReg) s
    save f destReg s
  | none => fail (.runtimeError "sext stack")

/-- `icmp`. -/
def icmp (dest : InstrId) (lhs rhs : Value) (s : St) : Routine St :=
  match s.regMapping (.instr dest) with
  | some destReg => do
    let s := s.erase destReg.reg
    let s ← assign f destReg lhs s
    let rhsReg ← regOrTemp s rhs false
    let s ← assign f rhsReg rhs s
    reads [rhs]
    printCmp (f.instr dest).cmpOp destReg rhsReg s
  | none => fail (.runtimeError "stack mapping icmp")

/-- `fcmp`. -/
def fcmp (dest : InstrId) (lhs rhs : Value) (s : St) : Routine St :=
  match s.regMapping (.instr dest) with
  | some destReg => do
    let s := s.erase destReg.reg
    let lhsReg ← regOrTemp s lhs true
    let s ← assign f lhsReg lhs s
    let s := s.erase lhsReg.reg
    let rhsReg ← regOrTemp s rhs true
    let s ← assign f rhsReg rhs s
    let s := s.insert lhsReg.reg
    reads [lhs, rhs]
    let s ← printFcmp (f.instr dest).cmpOp destReg lhsReg rhsReg s
    save f destReg s
  | none => fail (.runtimeError "fcmp stack")

/-- `fptosi`. -/
def fptosi (dest : InstrId) (fval : Value) (s : St) : Routine St := do
  let freg ← regOrTemp s fval true
  let s ← assign f freg fval s
  match s.regMapping (.instr dest) with
  | some destReg => do
    reads [fval]
    let s ← print (Instgen.fcvtws destReg freg) s
    let s ← print (Instgen.sextw destReg destReg) s
    save f destReg s
  | none =>
    if (s.stackMapping (.instr dest)).isSome then fail (.runtimeError "fptosi stack")
    else fail (.runtimeError "not in stack and not in reg")

/-- The register `sitofp` takes its operand from, and the state it leaves. -/
def sitofpOperand (ival : Value) (s : St) : Routine (RegRef × St) :=
  if (asConstantInt ival).isSome then do
    let ireg ← getTemp s false false
    let s ← assign f ireg ival s
    pure (ireg, s)
  else
    match s.regMapping ival with
    | some ireg => pure (ireg, s)
    | none =>
      if (s.stackMapping ival).isSome then Logged.lift (.error (.runtimeError "sitofp stack"))
      else pure (⟨⟨-1, false⟩, false⟩, s)

/-- `sitofp`. -/
def sitofp (dest : InstrId) (ival : Value) (s : St) : Routine St := do
  let (ireg, s) ← sitofpOperand f ival s
  match s.regMapping (.instr dest) with
  | some destReg => do
    reads [ival]
    let s ← print (Instgen.fcvtsw destReg ireg) s
    let s ← save f destReg s
    pure (s.erase destReg.reg)
  | none =>
    if (s.stackMapping (.instr dest)).isSome then fail (.runtimeError "sitofp stack")
    else fail (.runtimeError "not in stack and not in reg")

/-- The switch of `gen_bb`. -/
def genInstr (i : InstrId) (s : St) : Routine St :=
  let x := f.instr i
  match x.op, x.operands with
  | .ret, _ => funEpilogue f x s
  | .call, _ => call f i s
  | .alloca, _ | .phi, _ => pure s
  | .add, _ | .sub, _ | .mul, _ | .sdiv, _ => binInst f i x.op false s
  | .fadd, _ | .fsub, _ | .fmul, _ | .fdiv, _ => binInst f i x.op true s
  | .fptosi, v :: _ => fptosi f i v s
  | .sitofp, v :: _ => sitofp f i v s
  | .cmp, lhs :: rhs :: _ => icmp f i lhs rhs s
  | .fcmp, lhs :: rhs :: _ => fcmp f i lhs rhs s
  | .zext, v :: _ => sext f i v s
  | .br, _ => do
    reads x.operands.head?.toList
    branch x s
  | .getelementptr, _ => gep f i s
  | .store, rval :: lval :: _ => store f lval rval s
  | .load, ptr :: _ => load f i ptr s
  | _, _ => fail .undefined

end

/-! ## The results are those of the code generator -/

section

variable {f : Func} {s : St} {v w : Value} {fl d : Bool} {dst r : RegRef} {i : InstrId} {a : Access}

@[simp] theorem reads_res (l : List Value) : (reads l).res = .ok ⟨⟩ := rfl

@[simp] theorem fail_res (e : Failure) : (fail e).res = .error e := rfl

@[simp] theorem getTemp_res : (getTemp s fl d).res = Codegen.getTemp s fl d := rfl

@[simp] theorem regOrTemp_res : (regOrTemp s v fl).res = Codegen.regOrTemp s v fl := by
  unfold regOrTemp Codegen.regOrTemp
  cases s.regMapping v <;> rfl

@[simp] theorem assignConst_res : (assignConst dst v s).res = Codegen.assignConst dst v s := by
  unfold assignConst Codegen.assignConst
  cases asConstantInt v with
  | some i => by_cases hi : isImm i = true <;> simp [hi]
  | none => cases asConstantFP v <;> simp

@[simp] theorem assign_res : (assign f dst v s).res = Codegen.assign f dst v s := by
  unfold assign Codegen.assign
  simp only [Logged.res_bind, reads_res, Fallible.ok_bind]
  by_cases hname : nameOf f v = ""
  · simp only [hname, if_true, assignConst_res]
  · simp only [hname, if_false]
    cases asGep f v with
    | some gep =>
      cases hhead : gep.operands.head? with
      | none => simp [hhead]
      | some base => cases h : asGlobal base <;> simp [hhead, h]
    | none =>
      cases s.regMapping v with
      | some src => rfl
      | none => by_cases h : (s.stackMapping v).isSome = true <;> simp [h]

@[simp] theorem loadConst_res : (loadConst f a fl dst s).res = Codegen.loadConst f a fl dst s := by
  unfold loadConst Codegen.loadConst
  cases a.base.bind s.stackMapping with
  | some off => rfl
  | none =>
    cases a.globalPtr with
    | some n => simp
    | none => cases a.base.bind asGlobal <;> cases a.base.bind s.regMapping <;> simp

@[simp] theorem scaleIndex_res : (scaleIndex f dst r v s).res = Codegen.scaleIndex f dst r v s := by
  simp [scaleIndex, Codegen.scaleIndex]

@[simp] theorem loadVar_res : (loadVar f a v fl dst s).res = Codegen.loadVar f a v fl dst s := by
  unfold loadVar Codegen.loadVar
  by_cases hgep : (!a.isGep) = true
  · rw [if_pos hgep, if_pos hgep, fail_res]
  · rw [if_neg hgep, if_neg hgep]
    by_cases hreal : (!dst.reg.isReal) = true
    · rw [if_pos hreal, if_pos hreal, fail_res]
    · rw [if_neg hreal, if_neg hreal]
      cases a.base.bind s.stackMapping <;> cases a.base.bind s.regMapping <;> simp

@[simp] theorem load_res : (load f i v s).res = Codegen.load f i v s := by
  unfold load Codegen.load
  by_cases h : (access f v).constIndexed = true <;> simp [h]

@[simp] theorem storeConst_res : (storeConst a v fl r s).res = Codegen.storeConst a fl r s := by
  unfold storeConst Codegen.storeConst
  cases a.base.bind s.stackMapping with
  | some off => simp
  | none =>
    cases a.globalPtr with
    | some n => simp
    | none => cases a.base.bind asGlobal <;> simp

@[simp] theorem storeVar_res : (storeVar f a v w fl r s).res = Codegen.storeVar f a v w fl r s := by
  unfold storeVar Codegen.storeVar
  by_cases hgep : (!a.isGep) = true
  · rw [if_pos hgep, if_pos hgep, fail_res]
  · rw [if_neg hgep, if_neg hgep]
    cases a.base.bind s.stackMapping <;> cases a.base.bind s.regMapping <;> simp

@[simp] theorem storeTo_res : (storeTo f a v w fl r s).res = Codegen.storeTo f a v w fl r s := by
  unfold storeTo Codegen.storeTo
  by_cases h : a.constIndexed = true <;> simp [h]

@[simp] theorem store_res : (store f v w s).res = Codegen.store f v w s := by
  simp [store, Codegen.store]

@[simp] theorem gep_res : (gep f i s).res = Codegen.gep f i s := by
  unfold gep Codegen.gep
  cases (f.instr i).operands.getLast? with
  | none => rfl
  | some index =>
    by_cases hconst : (asConstantInt index).isSome = true
    · simp [hconst]
    · by_cases hindex : (s.regAt index).reg.isReal = true <;>
        by_cases hdest : ((s.touchReg index).regAt (.instr i)).reg.isReal = true <;>
          simp [hconst, hindex, hdest]

@[simp] theorem moveRetVal_res {x : Instr} : (moveRetVal f x s).res = Codegen.moveRetVal f x s := by
  unfold moveRetVal Codegen.moveRetVal
  cases x.operands <;> simp

@[simp] theorem funEpilogue_res {x : Instr} :
    (funEpilogue f x s).res = Codegen.funEpilogue f x s := by
  simp [funEpilogue, Codegen.funEpilogue]

@[simp] theorem binInstImm_res {op : OpID} {c : Int} :
    (binInstImm f i op v c s).res = Codegen.binInstImm f i op v c s := by
  unfold binInstImm Codegen.binInstImm
  cases s.regMapping (.instr i) <;> simp

@[simp] theorem binInstReg_res {op : OpID} :
    (binInstReg f i op v w fl s).res = Codegen.binInstReg f i op v w fl s := by
  simp [binInstReg, Codegen.binInstReg]

@[simp] theorem binInst_res {op : OpID} : (binInst f i op fl s).res = Codegen.binInst f i op fl s := by
  unfold binInst Codegen.binInst
  match (f.instr i).operands with
  | [] | [_] => rfl
  | lhs :: rhs :: _ =>
    dsimp only
    by_cases himm : (!fl && (op = .add || op = .sub)) = true
    · rw [if_pos himm, if_pos himm]
      cases immOf rhs with
      | some c => simp
      | none =>
        cases immOf lhs with
        | none => simp
        | some c => by_cases hsub : op ≠ .sub <;> simp [hsub]
    · rw [if_neg himm, if_neg himm, binInstReg_res]

@[simp] theorem sext_res : (sext f i v s).res = Codegen.sext f i v s := by
  unfold sext Codegen.sext
  cases s.regMapping (.instr i) <;> simp

@[simp] theorem icmp_res : (icmp f i v w s).res = Codegen.icmp f i v w s := by
  unfold icmp Codegen.icmp
  cases s.regMapping (.instr i) <;> simp

@[simp] theorem fcmp_res : (fcmp f i v w s).res = Codegen.fcmp f i v w s := by
  unfold fcmp Codegen.fcmp
  cases s.regMapping (.instr i) <;> simp

@[simp] theorem fptosi_res : (fptosi f i v s).res = Codegen.fptosi f i v s := by
  simp only [fptosi, Codegen.fptosi, Logged.res_bind, regOrTemp_res, assign_res]
  refine congrArg _ (funext fun r => congrArg _ (funext fun s => ?_))
  cases s.regMapping (.instr i) with
  | some d => simp
  | none => by_cases h : (s.stackMapping (.instr i)).isSome = true <;> simp [h]

@[simp] theorem sitofpOperand_res : (sitofpOperand f v s).res = Codegen.sitofpOperand f v s := by
  unfold sitofpOperand Codegen.sitofpOperand
  by_cases hconst : (asConstantInt v).isSome = true
  · simp [hconst]
  · simp only [hconst]
    cases s.regMapping v with
    | some r => rfl
    | none => by_cases h : (s.stackMapping v).isSome = true <;> simp [h]

@[simp] theorem sitofp_res : (sitofp f i v s).res = Codegen.sitofp f i v s := by
  simp only [sitofp, Codegen.sitofp, Logged.res_bind, sitofpOperand_res]
  refine congrArg _ (funext ?_)
  rintro ⟨r, s⟩
  cases s.regMapping (.instr i) with
  | some d => simp
  | none => by_cases h : (s.stackMapping (.instr i)).isSome = true <;> simp [h]

/-- **With the log left out, this is the code generator.** -/
theorem genInstr_res (f : Func) (i : InstrId) (s : St) :
    (genInstr f i s).res = Codegen.genInstr f i s := by
  unfold genInstr Codegen.genInstr
  cases hop : (f.instr i).op with
  | fptosi | sitofp | zext | load => cases hops : (f.instr i).operands <;> simp [hop, hops]
  | cmp | fcmp | store =>
    rcases hops : (f.instr i).operands with _ | ⟨v, _ | ⟨w, l⟩⟩ <;> simp [hop, hops]
  | _ => simp [hop]

end

end Cminusfc.Codegen.Calls
