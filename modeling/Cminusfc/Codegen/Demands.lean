import Cminusfc.Codegen.Calls
import Cminusfc.Codegen.Pool

/-!
# The demands of an instruction

Which calls of `get_temp` the routine of an instruction makes can be said in front of it, from the
instruction and the two maps alone. `demands` lists them: for each the file of the register, what the
routine has taken out of `free_regs` by then, and the operands it reads afterwards.

* `callsOf`: the calls in the log of a routine, each with the reads that follow it.
* `Meets s c d`: the call `c`, in the routine of an instruction in front of which the state is `s`,
  is the demand `d`.
* `genInstr_calls`: **the calls of `get_temp` are the demands**, in order and one for one.

Calls of functions are out of scope.

About `src/codegen/codegen.cpp` 119-304, 322-508 and 682-740.
-/

namespace Cminusfc.Codegen.Temps

open Cminusfc.LightIR
open Fallible (bind_ok)
open Calls (Event)

/-! ## The calls in a log -/

/-- A call of `get_temp`. -/
structure Call where
  /-- The state it is made in. -/
  st : St
  /-- The file of the register. -/
  fl : Bool
  /-- The register it returns. -/
  temp : RegRef
  /-- The operands that are read afterwards. -/
  pending : List Value

/-- The operands whose values go into the text. -/
def readsOf : List Event → List Value
  | [] => []
  | .read v :: l => v :: readsOf l
  | .temp _ _ _ :: l => readsOf l

/-- The calls of a log behind which the operands `R` are read. -/
def callsOf : List Event → List Value → List Call
  | [], _ => []
  | .read _ :: l, R => callsOf l R
  | .temp s fl t :: l, R => ⟨s, fl, t, readsOf l ++ R⟩ :: callsOf l R

@[simp] theorem readsOf_nil : readsOf [] = [] := rfl

@[simp] theorem callsOf_nil (R : List Value) : callsOf [] R = [] := rfl

@[simp] theorem readsOf_append (l l' : List Event) :
    readsOf (l ++ l') = readsOf l ++ readsOf l' := by
  induction l with
  | nil => rfl
  | cons e l ih => cases e <;> simp [readsOf, ih]

@[simp] theorem callsOf_append (l l' : List Event) (R : List Value) :
    callsOf (l ++ l') R = callsOf l (readsOf l' ++ R) ++ callsOf l' R := by
  induction l with
  | nil => rfl
  | cons e l ih => cases e <;> simp [callsOf, ih]

@[simp] theorem readsOf_reads (l : List Value) : readsOf (Calls.reads l).log = l := by
  show readsOf (l.map .read) = l
  induction l with
  | nil => rfl
  | cons v l ih => rw [List.map_cons, readsOf, ih]

@[simp] theorem callsOf_reads (l R : List Value) : callsOf (Calls.reads l).log R = [] := by
  show callsOf (l.map .read) R = []
  induction l with
  | nil => rfl
  | cons v l ih => rw [List.map_cons, callsOf, ih]

/-! ## The demands -/

/-- A call of `get_temp`, as it is foreseen. -/
structure Demand where
  /-- The file of the register. -/
  fl : Bool := false
  /-- The destination's register, erased before. -/
  dest : Option Reg := none
  /-- The operand whose register has been erased before, and its file. -/
  first : Option (Value × Bool) := none
  /-- The operands that are still to be read. -/
  pending : List Value := []

/-- The state that the call is made in. -/
def Demand.state (d : Demand) (s : St) : St :=
  let s := (d.dest.map s.erase).getD s
  match d.first with
  | none => s
  | some (w, fl) =>
    match regOrTemp s w fl with
    | .ok r => s.erase r.reg
    | .error _ => s

section

variable (f : Func)

/-- The address of a constant in `assign`. -/
def constant (v : Value) (d : Demand) : List Demand :=
  if (asConstantFP v).isSome then [{ d with fl := false }] else []

/-- `reg_mapping.contains(v) ? reg_mapping[v] : get_temp(fl)`, then `assign`. -/
def operand (v : Value) (fl : Bool) (s : St) (d : Demand) : List Demand :=
  (if (s.regMapping v).isNone then [{ d with fl := fl, pending := v :: d.pending }] else []) ++
    constant v d

/-- The address in `load` and `store`; `rval` is the value that is stored. -/
def address (a : Access) (ptr : Value) (rval : Option Value) (s : St) (d : Demand) : List Demand :=
  let rv := rval.toList
  if (a.base.bind s.stackMapping).isSome then []
  else if a.constIndexed then
    if a.globalPtr.isSome || (a.base.bind asGlobal).isSome then
      [{ d with fl := false, pending := rv }]
    else []
  else if (a.base.bind s.regMapping).isSome then
    a.base.toList.flatMap fun base => a.gepIndex.toList.flatMap fun index =>
      constant base { d with pending := [index, index] ++ rv ++ rv ++ [base] } ++
        constant index { d with pending := [index] ++ rv ++ rv ++ [base] } ++
          rv.flatMap fun v => constant v { d with pending := rv ++ [base] }
  else
    a.gepIndex.toList.flatMap fun index =>
      { d with fl := false, pending := [ptr, index, index] ++ rv } ::
        constant index { d with pending := [index] ++ rv }

/-- What `store` reads once its value has a register. -/
def addressReads (a : Access) (lval rval : Value) (s : St) : List Value :=
  if a.constIndexed then [rval]
  else if (a.base.bind s.stackMapping).isSome then [rval, lval]
  else if (a.base.bind s.regMapping).isSome then
    a.base.toList.flatMap fun base => a.gepIndex.toList.flatMap fun index =>
      [base, index, index, rval, rval, base]
  else a.gepIndex.toList.flatMap fun index => [lval, index, index, rval]

/-- What `assign` leaves in `stack_mapping`. -/
def assigned (v : Value) (s : St) : St :=
  if nameOf f v = "" then s
  else
    match (asGep f v).bind (·.operands.head?) with
    | some base => if (asGlobal base).isSome then s else s.touchStack base
    | none => s

/-- The demands of `bin_inst`. -/
def binDemands (op : OpID) (fl : Bool) (lhs rhs : Value) (s : St) (d : Demand) : List Demand :=
  let imm := !fl && (op = .add || op = .sub)
  if imm && (immOf rhs).isSome then constant lhs d
  else if imm && (immOf lhs).isSome && op ≠ .sub then constant rhs d
  else
    constant lhs { d with pending := [rhs, rhs] } ++ operand rhs fl s { d with pending := [rhs] }

/-- The demands of `fcmp`. -/
def fcmpDemands (lhs rhs : Value) (s : St) (d : Demand) : List Demand :=
  operand lhs true s { d with pending := [rhs, lhs, rhs] } ++
    operand rhs true s { d with first := some (lhs, true), pending := [lhs, rhs] }

/-- The demands of `store`. -/
def storeDemands (lval rval : Value) (s : St) : List Demand :=
  let fl := (valueType f rval).isFloat
  let a := access f lval
  operand rval fl s { pending := addressReads a lval rval (assigned f rval s) } ++
    address a lval (some rval) (assigned f rval s) { first := some (rval, fl) }

/-- The demands of `gep`. -/
def gepDemands (index : Value) : List Demand :=
  if (asConstantInt index).isSome then [] else constant index { pending := [index] } ++ [{ fl := false }]

/-- The calls of `get_temp` in the routine of `i`. -/
def demands (i : InstrId) (s : St) : List Demand :=
  let x := f.instr i
  let d : Demand := { dest := some (s.regAt (.instr i)).reg }
  match x.op, x.operands with
  | .ret, v :: _ => operand v (valueType f v).isFloat s { pending := [v] }
  | .add, lhs :: rhs :: _ | .sub, lhs :: rhs :: _ | .mul, lhs :: rhs :: _
  | .sdiv, lhs :: rhs :: _ => binDemands x.op false lhs rhs s d
  | .fadd, lhs :: rhs :: _ | .fsub, lhs :: rhs :: _ | .fmul, lhs :: rhs :: _
  | .fdiv, lhs :: rhs :: _ => binDemands x.op true lhs rhs s d
  | .fptosi, v :: _ => operand v true s { pending := [v] }
  | .sitofp, v :: _ => if (asConstantInt v).isSome then [{ pending := [v, v] }] else []
  | .cmp, lhs :: rhs :: _ =>
    constant lhs { d with pending := [rhs, rhs] } ++ operand rhs false s { d with pending := [rhs] }
  | .fcmp, lhs :: rhs :: _ => fcmpDemands lhs rhs s d
  | .zext, v :: _ => constant v d
  | .getelementptr, l => (l.getLast?.map gepDemands).getD []
  | .store, rval :: lval :: _ => storeDemands f lval rval s
  | .load, ptr :: _ => address (access f ptr) ptr none s {}
  | _, _ => []

end

/-- The text so far does not matter. -/
theorem demands_ss (f : Func) (i : InstrId) (s : St) :
    demands f i { s with ss := [] } = demands f i s := by
  have hassigned : ∀ v, assigned f v { s with ss := [] } = { assigned f v s with ss := [] } := by
    intro v
    unfold assigned
    split
    · rfl
    · split
      · split <;> rfl
      · rfl
  have hstore : ∀ lval rval,
      storeDemands f lval rval { s with ss := [] } = storeDemands f lval rval s := by
    intro lval rval
    unfold storeDemands
    rw [hassigned]
    rfl
  simp only [demands, hstore]
  rfl

/-! ## The calls of the routines -/

/-- The routine of an instruction stands at the demand `d`, with `s` in front of the instruction. -/
structure At (s : St) (d : Demand) (s₁ : St) : Prop where
  pool : s₁.freeRegs = (d.state s).freeRegs
  regs : ∀ v, (s₁.regMapping v).map RegRef.reg = (s.regMapping v).map RegRef.reg

/-- The call `c` is the demand `d`. -/
structure Meets (s : St) (c : Call) (d : Demand) : Prop extends At s d c.st where
  fl : c.fl = d.fl
  pending : c.pending = d.pending
  temp : ∃ b, getTemp c.st c.fl b = .ok c.temp

section

variable {f : Func} {i : InstrId} {v lhs rhs : Value} {s s₁ s₂ s' : St} {r : RegRef} {d : Demand}
  {R : List Value}

theorem At.kept (h : At s d s₁) (hk : Kept s₁ s₂) : At s d s₂ :=
  ⟨hk.freeRegs.trans h.pool, fun v => by rw [hk.regMapping]; exact h.regs v⟩

theorem At.isNone (h : At s d s₁) (v : Value) :
    (s₁.regMapping v).isNone = (s.regMapping v).isNone := by
  have := congrArg Option.isNone (h.regs v)
  rwa [Option.isNone_map, Option.isNone_map] at this

/-- A part of a routine behind which the operands `R` are read: its calls are the demands `D`, and
it reads `rd`. -/
structure Asks (s : St) (l : List Event) (R : List Value) (D : List Demand) (rd : List Value) :
    Prop where
  calls : List.Forall₂ (Meets s) (callsOf l R) D
  reads : readsOf l = rd

theorem Asks.nil : Asks s [] R [] [] := ⟨.nil, rfl⟩

theorem Asks.append {l l' : List Event} {D D' : List Demand} {rd rd' : List Value}
    (h : Asks s l (rd' ++ R) D rd) (h' : Asks s l' R D' rd') :
    Asks s (l ++ l') R (D ++ D') (rd ++ rd') := by
  refine ⟨?_, by rw [readsOf_append, h.reads, h'.reads]⟩
  rw [callsOf_append, h'.reads]
  exact List.rel_append h.calls h'.calls

/-- A sequence, the demands and reads of which are put together in the goal. -/
theorem Asks.bind {α β : Type} {x : Calls.Routine α} {a : α} {k : α → Calls.Routine β}
    {D D' E : List Demand} {rd rd' e : List Value} (hx : x.res = .ok a)
    (h' : Asks s (k a).log R D' rd') (h : Asks s x.log (rd' ++ R) D rd)
    (hE : D ++ D' = E) (he : rd ++ rd' = e) : Asks s (x >>= k).log R E e := by
  rw [Logged.log_bind hx, ← hE, ← he]
  exact h.append h'

/-- A part that neither asks nor reads. -/
theorem Asks.lift {α β : Type} {x : Except Failure α} {a : α} {k : α → Calls.Routine β}
    {D : List Demand} {rd : List Value} (hx : x = .ok a) (h : Asks s (k a).log R D rd) :
    Asks s ((liftM x : Calls.Routine α) >>= k).log R D rd := by
  rwa [Logged.log_liftM_bind hx]

theorem asks_reads (l : List Value) : Asks s (Calls.reads l).log R [] l :=
  ⟨by rw [callsOf_reads]; exact .nil, readsOf_reads l⟩

theorem Asks.reads_bind {β : Type} {k : PUnit → Calls.Routine β} {D : List Demand}
    {l rd : List Value} (h : Asks s (k ⟨⟩).log R D rd) :
    Asks s (Calls.reads l >>= k).log R D (l ++ rd) :=
  Asks.bind (Calls.reads_res l) h (asks_reads l) rfl rfl

theorem getTemp_asks {fl b : Bool} (h : getTemp s₁ fl b = .ok r) (hat : At s d s₁) :
    Asks s (Calls.getTemp s₁ fl b).log R [{ d with fl := fl, pending := R }] [] := by
  rw [Calls.getTemp, Logged.log_logging h]
  exact ⟨.cons ⟨⟨hat.pool, hat.regs⟩, rfl, rfl, b, h⟩ .nil, rfl⟩

/-- The constants in `assign`. -/
theorem assignConst_asks (h : assignConst r v s₁ = .ok s₂) (hat : At s d s₁) :
    Asks s (Calls.assignConst r v s₁).log R (constant v { d with pending := R }) [] := by
  unfold assignConst at h
  unfold Calls.assignConst constant
  cases hint : asConstantInt v with
  | some c =>
    have hfp : asConstantFP v = none := by cases v <;> first | rfl | cases hint
    rw [hfp]
    simp only [hint] at h
    by_cases himm : isImm c = true
    · simp only [himm, if_true]
      exact Asks.nil
    · rw [if_neg himm] at h
      obtain ⟨s₃, h₃, -⟩ := bind_ok.mp h
      dsimp only
      rw [if_neg himm]
      exact Asks.nil.lift h₃
  | none =>
    cases hfp : asConstantFP v with
    | none => exact Asks.nil
    | some bits =>
      simp only [hint, hfp] at h
      obtain ⟨t, ht, h⟩ := bind_ok.mp h
      obtain ⟨s₃, h₃, h₄⟩ := bind_ok.mp h
      refine Asks.bind ht (Asks.lift h₃ Asks.nil) (getTemp_asks (d := d) ht ?_) rfl rfl
      exact ⟨hat.pool, hat.regs⟩

/-- `assign`. -/
theorem assign_asks (h : assign f r v s₁ = .ok s₂) (hat : At s d s₁) :
    Asks s (Calls.assign f r v s₁).log R (constant v { d with pending := R }) [v] := by
  unfold assign at h
  refine Asks.reads_bind (l := [v]) ?_
  by_cases hname : nameOf f v = ""
  · rw [if_pos hname] at h ⊢
    exact assignConst_asks h hat
  · -- what has a name is no constant, and its branch does not ask
    have hconst : constant v { d with pending := R } = [] := by
      cases v <;> first | rfl | exact absurd rfl hname
    rw [if_neg hname] at h ⊢
    rw [hconst]
    cases hgep : asGep f v with
    | some gep =>
      cases hhead : gep.operands.head? with
      | none => simp [hgep, hhead] at h
      | some base => cases hbase : asGlobal base <;> simpa [hhead, hbase] using Asks.nil
    | none =>
      cases hreg : s₁.regMapping v with
      | some src => exact Asks.nil
      | none => by_cases hst : (s₁.stackMapping v).isSome = true <;> simp [hgep, hreg, hst] at h

/-- The register of an operand. -/
theorem regOrTemp_asks {fl : Bool} (h : regOrTemp s₁ v fl = .ok r) (hat : At s d s₁) :
    Asks s (Calls.regOrTemp s₁ v fl).log R
      (if (s.regMapping v).isNone then [{ d with fl := fl, pending := R }] else []) [] := by
  rw [← hat.isNone]
  unfold regOrTemp at h
  unfold Calls.regOrTemp
  cases hreg : s₁.regMapping v with
  | some q => exact Asks.nil
  | none =>
    rw [hreg] at h
    exact getTemp_asks h hat

/-- An operand: its register, then `assign`. -/
theorem operand_asks {fl : Bool} {α : Type} {k : RegRef → St → Calls.Routine α}
    {D E : List Demand} {rd e : List Value} (hr : regOrTemp s₁ v fl = .ok r)
    (h : assign f r v s₁ = .ok s₂) (hat : At s d s₁) (hk : Asks s (k r s₂).log R D rd)
    (hE : operand v fl s { d with pending := rd ++ R } ++ D = E) (he : v :: rd = e) :
    Asks s (Calls.regOrTemp s₁ v fl >>= fun r => Calls.assign f r v s₁ >>= k r).log R E e := by
  have hassign := Asks.bind (Calls.assign_res.trans h) hk (assign_asks h hat) rfl rfl
  exact Asks.bind (Calls.regOrTemp_res.trans hr) hassign (regOrTemp_asks hr hat)
    ((List.append_assoc _ _ _).symm.trans hE) he

/-! ## Arithmetic -/

theorem binInstImm_asks {op : OpID} {c : Int} (h : binInstImm f i op v c s = .ok s') :
    Asks s (Calls.binInstImm f i op v c s).log []
      (constant v { dest := some (s.regAt (.instr i)).reg }) [v] := by
  unfold binInstImm at h
  unfold Calls.binInstImm St.regAt
  cases hreg : s.regMapping (.instr i) with
  | none => simp [hreg] at h
  | some q =>
    simp only [hreg] at h
    obtain ⟨s₁, h₁, h⟩ := bind_ok.mp h
    obtain ⟨s₂, h₂, h₃⟩ := bind_ok.mp h
    have hat : At s { dest := some q.reg } (s.erase q.reg) := ⟨rfl, fun _ => rfl⟩
    exact Asks.bind (Calls.assign_res.trans h₁) (Asks.lift h₂ Asks.nil) (assign_asks h₁ hat)
      (List.append_nil _) rfl

theorem binInstReg_asks {op : OpID} {fl : Bool} (h : binInstReg f i op lhs rhs fl s = .ok s') :
    Asks s (Calls.binInstReg f i op lhs rhs fl s).log []
      (constant lhs { dest := some (s.regAt (.instr i)).reg, pending := [rhs, rhs] } ++
        operand rhs fl s { dest := some (s.regAt (.instr i)).reg, pending := [rhs] })
      [lhs, rhs, rhs] := by
  obtain ⟨⟨v, q⟩, hreg, h⟩ := bind_ok.mp h
  have hq : s.regAt (.instr i) = q := by
    unfold St.regAtOrThrow at hreg
    unfold St.regAt
    cases hr : s.regMapping (.instr i) with
    | none => simp [hr] at hreg
    | some r =>
      simp only [hr] at hreg
      cases hreg
      rfl
  obtain ⟨s₁, h₁, h⟩ := bind_ok.mp h
  obtain ⟨rhsReg, hr, h⟩ := bind_ok.mp h
  obtain ⟨s₂, h₂, h⟩ := bind_ok.mp h
  obtain ⟨s₃, h₃, h₄⟩ := bind_ok.mp h
  have hat : At s { dest := some q.reg } (s.erase q.reg) := ⟨rfl, fun _ => rfl⟩
  rw [hq]
  refine Asks.lift hreg (Asks.bind (Calls.assign_res.trans h₁) ?_ (assign_asks h₁ hat) rfl rfl)
  refine operand_asks hr h₂ (hat.kept (assign_kept h₁)) ?_ (List.append_nil _) rfl
  exact Asks.reads_bind (Asks.lift h₃ Asks.nil)

theorem binInst_asks {op : OpID} {fl : Bool} (h : binInst f i op fl s = .ok s')
    (hops : ∃ l, (f.instr i).operands = lhs :: rhs :: l) :
    ∃ rd, Asks s (Calls.binInst f i op fl s).log []
      (binDemands op fl lhs rhs s { dest := some (s.regAt (.instr i)).reg }) rd := by
  obtain ⟨l, hops⟩ := hops
  unfold binInst at h
  unfold Calls.binInst binDemands
  simp only [hops] at h ⊢
  by_cases himm : (!fl && (op = .add || op = .sub)) = true
  · rw [if_pos himm] at h ⊢
    simp only [himm, Bool.true_and]
    cases hr : immOf rhs with
    | some c =>
      simp only [hr] at h
      exact ⟨_, binInstImm_asks h⟩
    | none =>
      cases hl : immOf lhs with
      | none =>
        simp only [hr, hl] at h
        exact ⟨_, binInstReg_asks h⟩
      | some c =>
        simp only [hr, hl] at h
        by_cases hsub : op = .sub
        · simp only [hsub, ne_eq, not_true_eq_false, if_false] at h ⊢
          exact ⟨_, binInstReg_asks h⟩
        · rw [if_pos hsub] at h
          simp only [ne_eq, hsub, not_false_eq_true, if_true]
          exact ⟨_, binInstImm_asks h⟩
  · rw [if_neg himm] at h ⊢
    simp only [himm, Bool.false_and, Bool.false_eq_true, if_false]
    exact ⟨_, binInstReg_asks h⟩

theorem sext_asks (h : sext f i v s = .ok s') :
    Asks s (Calls.sext f i v s).log []
      (constant v { dest := some (s.regAt (.instr i)).reg }) [v] := by
  unfold sext at h
  unfold Calls.sext St.regAt
  cases hreg : s.regMapping (.instr i) with
  | none => simp [hreg] at h
  | some q =>
    simp only [hreg] at h
    obtain ⟨s₁, h₁, h⟩ := bind_ok.mp h
    obtain ⟨s₂, h₂, h⟩ := bind_ok.mp h
    obtain ⟨s₃, h₃, h₄⟩ := bind_ok.mp h
    have hat : At s { dest := some q.reg } (s.erase q.reg) := ⟨rfl, fun _ => rfl⟩
    exact Asks.bind (Calls.assign_res.trans h₁) (Asks.lift h₂ (Asks.lift h₃ Asks.nil))
      (assign_asks h₁ hat) (List.append_nil _) rfl

theorem icmp_asks (h : icmp f i lhs rhs s = .ok s') :
    Asks s (Calls.icmp f i lhs rhs s).log []
      (constant lhs { dest := some (s.regAt (.instr i)).reg, pending := [rhs, rhs] } ++
        operand rhs false s { dest := some (s.regAt (.instr i)).reg, pending := [rhs] })
      [lhs, rhs, rhs] := by
  unfold icmp at h
  unfold Calls.icmp St.regAt
  cases hreg : s.regMapping (.instr i) with
  | none => simp [hreg] at h
  | some q =>
    simp only [hreg] at h
    obtain ⟨s₁, h₁, h⟩ := bind_ok.mp h
    obtain ⟨rhsReg, hr, h⟩ := bind_ok.mp h
    obtain ⟨s₂, h₂, h₃⟩ := bind_ok.mp h
    have hat : At s { dest := some q.reg } (s.erase q.reg) := ⟨rfl, fun _ => rfl⟩
    refine Asks.bind (Calls.assign_res.trans h₁) ?_ (assign_asks h₁ hat) rfl rfl
    refine operand_asks hr h₂ (hat.kept (assign_kept h₁)) ?_ (List.append_nil _) rfl
    exact Asks.reads_bind Asks.nil

/-- Where the register of the first operand has been erased too. -/
theorem At.aside {fl : Bool} (h : At s d s₁) (hd : d.first = none)
    (hr : regOrTemp s₁ v fl = .ok r) :
    At s { d with first := some (v, fl) } (s₁.erase r.reg) := by
  refine ⟨?_, h.regs⟩
  have hstate : d.state s = (d.dest.map s.erase).getD s := by simp only [Demand.state, hd]
  have hpool : s₁.freeRegs = ((d.dest.map s.erase).getD s).freeRegs := h.pool.trans (by rw [hstate])
  have hbase : ((d.dest.map s.erase).getD s).regMapping = s.regMapping := by cases d.dest <;> rfl
  -- the same register, found in `reg_mapping` or taken from the same pool
  have hsame : ∃ q, regOrTemp ((d.dest.map s.erase).getD s) v fl = .ok q ∧ q.reg = r.reg := by
    unfold regOrTemp at hr ⊢
    have hv := h.regs v
    rw [hbase]
    cases hreg : s₁.regMapping v with
    | some q =>
      rw [hreg] at hr hv
      cases hr
      cases hs : s.regMapping v with
      | none => simp [hs] at hv
      | some q' =>
        rw [hs] at hv
        exact ⟨q', rfl, (Option.some.inj hv).symm⟩
    | none =>
      rw [hreg] at hr hv
      cases hs : s.regMapping v with
      | some q' => simp [hs] at hv
      | none =>
        refine ⟨r, ?_, rfl⟩
        unfold getTemp at hr ⊢
        rwa [← hpool]
  obtain ⟨q, hq, hreg⟩ := hsame
  simp only [Demand.state, hq, St.erase, hpool, hreg]

/-- `fcmp`. -/
theorem fcmp_asks (h : fcmp f i lhs rhs s = .ok s') :
    Asks s (Calls.fcmp f i lhs rhs s).log []
      (fcmpDemands lhs rhs s { dest := some (s.regAt (.instr i)).reg })
      [lhs, rhs, lhs, rhs] := by
  unfold fcmp at h
  unfold Calls.fcmp St.regAt
  cases hreg : s.regMapping (.instr i) with
  | none => simp [hreg] at h
  | some q =>
    simp only [hreg] at h
    obtain ⟨lhsReg, hl, h⟩ := bind_ok.mp h
    obtain ⟨s₁, h₁, h⟩ := bind_ok.mp h
    obtain ⟨rhsReg, hr, h⟩ := bind_ok.mp h
    obtain ⟨s₂, h₂, h⟩ := bind_ok.mp h
    obtain ⟨s₃, h₃, h₄⟩ := bind_ok.mp h
    have hat : At s { dest := some q.reg } (s.erase q.reg) := ⟨rfl, fun _ => rfl⟩
    have hk := assign_kept h₁
    have haside : At s { dest := some q.reg, first := some (lhs, true) }
        (s₁.erase lhsReg.reg) := by
      obtain ⟨hpool, hregs⟩ := hat.aside rfl hl
      refine ⟨?_, fun v => ?_⟩
      · rw [← hpool]
        simp only [St.erase, hk.freeRegs]
      · rw [← hregs v]
        simp only [St.erase, hk.regMapping]
    dsimp only
    refine operand_asks hl h₁ hat ?_ rfl rfl
    refine operand_asks hr h₂ haside ?_ (List.append_nil _) rfl
    exact Asks.reads_bind (Asks.lift h₃ Asks.nil)

theorem at_start (s : St) : At s {} s := ⟨rfl, fun _ => rfl⟩

/-- `fptosi`. -/
theorem fptosi_asks (h : fptosi f i v s = .ok s') :
    Asks s (Calls.fptosi f i v s).log [] (operand v true s { pending := [v] }) [v, v] := by
  obtain ⟨freg, hr, h⟩ := bind_ok.mp h
  obtain ⟨s₁, h₁, h⟩ := bind_ok.mp h
  refine operand_asks hr h₁ (at_start s) ?_ (List.append_nil _) rfl
  cases hreg : s₁.regMapping (.instr i) with
  | none =>
    simp only [hreg] at h
    split_ifs at h
  | some d =>
    simp only [hreg] at h
    obtain ⟨s₂, h₂, h⟩ := bind_ok.mp h
    obtain ⟨s₃, h₃, h₄⟩ := bind_ok.mp h
    exact Asks.reads_bind (Asks.lift h₂ (Asks.lift h₃ Asks.nil))

/-- The operand of `sitofp`, which is read once more. -/
theorem sitofpOperand_asks (h : sitofpOperand f v s = .ok (r, s')) :
    ∃ rd, Asks s (Calls.sitofpOperand f v s).log [v]
      (if (asConstantInt v).isSome then [{ pending := [v, v] }] else []) rd := by
  unfold sitofpOperand at h
  unfold Calls.sitofpOperand
  by_cases hconst : (asConstantInt v).isSome = true
  · rw [if_pos hconst] at h
    rw [if_pos hconst, if_pos hconst]
    obtain ⟨ireg, hr, h⟩ := bind_ok.mp h
    obtain ⟨s₁, h₁, -⟩ := bind_ok.mp h
    have hnone : ∀ d, constant v d = [] := fun d => by
      cases v <;> first | rfl | cases hconst
    have hassign : Asks s (Calls.assign f ireg v s).log [v] [] [v] := by
      rw [← hnone { pending := [v] }]
      exact assign_asks h₁ (at_start s)
    have hrest := Asks.bind (k := fun s => (pure (ireg, s) : Calls.Routine _))
      (Calls.assign_res.trans h₁) Asks.nil hassign rfl rfl
    exact ⟨_, Asks.bind hr hrest (getTemp_asks hr (at_start s)) rfl rfl⟩
  · rw [if_neg hconst] at h
    rw [if_neg hconst, if_neg hconst]
    cases hreg : s.regMapping v with
    | some ireg => exact ⟨_, Asks.nil⟩
    | none => by_cases hst : (s.stackMapping v).isSome = true <;> exact ⟨_, by simpa [hst] using Asks.nil⟩

/-- `sitofp`. -/
theorem sitofp_asks (h : sitofp f i v s = .ok s') :
    ∃ rd, Asks s (Calls.sitofp f i v s).log []
      (if (asConstantInt v).isSome then [{ pending := [v, v] }] else []) rd := by
  obtain ⟨⟨ireg, s₁⟩, hr, h⟩ := bind_ok.mp h
  obtain ⟨rd, hoperand⟩ := sitofpOperand_asks hr
  refine ⟨rd ++ [v], Asks.bind (Calls.sitofpOperand_res.trans hr) ?_ hoperand
    (List.append_nil _) rfl⟩
  dsimp only at h ⊢
  cases hreg : s₁.regMapping (.instr i) with
  | none =>
    simp only [hreg] at h
    split_ifs at h
  | some d =>
    simp only [hreg] at h
    obtain ⟨s₂, h₂, h⟩ := bind_ok.mp h
    obtain ⟨s₃, h₃, h₄⟩ := bind_ok.mp h
    exact Asks.reads_bind (Asks.lift h₂ (Asks.lift h₃ Asks.nil))

/-- The return value. -/
theorem funEpilogue_asks (h : funEpilogue f (f.instr i) s = .ok s') :
    ∃ rd, Asks s (Calls.funEpilogue f (f.instr i) s).log []
      (match (f.instr i).operands with
        | [] => []
        | v :: _ => operand v (valueType f v).isFloat s { pending := [v] }) rd := by
  obtain ⟨s₁, h₁, h⟩ := bind_ok.mp h
  obtain ⟨s₂, h₂, h⟩ := bind_ok.mp h
  obtain ⟨s₃, h₃, h₄⟩ := bind_ok.mp h
  have hret : ∃ rd, Asks s (Calls.moveRetVal f (f.instr i) s).log []
      (match (f.instr i).operands with
        | [] => []
        | v :: _ => operand v (valueType f v).isFloat s { pending := [v] }) rd := by
    unfold moveRetVal at h₁
    unfold Calls.moveRetVal
    cases hops : (f.instr i).operands with
    | nil => exact ⟨_, Asks.nil⟩
    | cons v l =>
      simp only [hops] at h₁
      obtain ⟨r, hr, h₁⟩ := bind_ok.mp h₁
      obtain ⟨s₄, h₄, h₅⟩ := bind_ok.mp h₁
      dsimp only
      refine ⟨[v, v], operand_asks hr h₄ (at_start s) ?_ (List.append_nil _) rfl⟩
      exact Asks.reads_bind Asks.nil
  obtain ⟨rd, hret⟩ := hret
  exact ⟨_, Asks.bind (Calls.moveRetVal_res.trans h₁) (Asks.lift h₂ (Asks.lift h₃ Asks.nil)) hret
    (List.append_nil _) rfl⟩

/-! ## Memory -/

/-- `gep`. -/
theorem gep_asks (h : gep f i s = .ok s') :
    ∃ rd, Asks s (Calls.gep f i s).log []
      (((f.instr i).operands.getLast?.map gepDemands).getD []) rd := by
  unfold gep at h
  unfold Calls.gep
  cases hlast : (f.instr i).operands.getLast? with
  | none => simp [hlast] at h
  | some index =>
    simp only [hlast] at h
    rw [Option.map_some, Option.getD_some, gepDemands]
    by_cases hconst : (asConstantInt index).isSome = true
    · simp only [hconst, if_true]
      exact ⟨_, Asks.nil⟩
    · rw [if_neg hconst] at h
      simp only [hconst, Bool.false_eq_true, if_false]
      by_cases hindex : (s.regAt index).reg.isReal = true
      · rw [touchReg_real hindex, if_pos hindex] at h
        rw [touchReg_real hindex, if_pos hindex]
        obtain ⟨s₁, h₁, h⟩ := bind_ok.mp h
        by_cases hdest : (s.regAt (.instr i)).reg.isReal = true
        · rw [touchReg_real hdest] at h₁ ⊢
          rw [if_pos hdest] at h
          obtain ⟨s₂, h₂, h⟩ := bind_ok.mp h
          obtain ⟨temp, ht, h⟩ := bind_ok.mp h
          obtain ⟨s₃, h₃, h₄⟩ := bind_ok.mp h
          have hk₁ := assign_kept h₁
          -- only the member `d` of the result's register is changed
          have hat : At s {} { s₁ with
              regMapping :=
                Function.update s₁.regMapping (.instr i) (some ⟨(s.regAt (.instr i)).reg, true⟩) } := by
            refine ⟨hk₁.freeRegs, fun v => ?_⟩
            dsimp only
            by_cases hv : v = .instr i
            · subst hv
              rw [Function.update_self, Option.map_some]
              unfold St.regAt at hdest ⊢
              cases hreg : s.regMapping (.instr i) with
              | none =>
                rw [hreg] at hdest
                cases hdest
              | some r => rfl
            · rw [Function.update_of_ne hv, hk₁.regMapping]
          refine ⟨[index, index],
            Asks.bind (Calls.assign_res.trans h₁) ?_ (assign_asks h₁ (at_start s)) rfl rfl⟩
          rw [if_pos hdest]
          refine Asks.reads_bind (l := [index]) (Asks.lift h₂ ?_)
          exact Asks.bind ht (Asks.lift h₃ Asks.nil) (getTemp_asks ht (hat.kept (print_kept h₂)))
            rfl rfl
        · rw [if_neg hdest] at h
          cases h
      · rw [if_neg hindex] at h
        cases h

/-- The index in place. -/
theorem scaleIndex_asks {base index : RegRef} (h : scaleIndex f base index v s₁ = .ok s₂)
    (hat : At s d s₁) :
    Asks s (Calls.scaleIndex f base index v s₁).log R (constant v { d with pending := v :: R })
      [v, v] := by
  obtain ⟨s₃, h₃, h⟩ := bind_ok.mp h
  obtain ⟨s₄, h₄, h₅⟩ := bind_ok.mp h
  exact Asks.bind (Calls.assign_res.trans h₃) (Asks.reads_bind (l := [v]) (Asks.lift h₄ Asks.nil))
    (assign_asks h₃ hat) (List.append_nil _) rfl

variable {a : Access} {ptr lval rval : Value} {fl : Bool} {dest : RegRef}

theorem loadConst_asks (h : loadConst f a fl dest s = .ok s') (hconst : a.constIndexed = true) :
    ∃ rd, Asks s (Calls.loadConst f a fl dest s).log [] (address a ptr none s {}) rd := by
  unfold loadConst at h
  unfold Calls.loadConst address
  simp only [hconst, if_true]
  cases hst : a.base.bind s.stackMapping with
  | some off => exact ⟨_, Asks.nil⟩
  | none =>
    simp only [hst] at h
    cases hg : a.globalPtr with
    | some n =>
      simp only [hg] at h
      obtain ⟨t, ht, h⟩ := bind_ok.mp h
      obtain ⟨s₁, h₁, h₂⟩ := bind_ok.mp h
      exact ⟨[], Asks.bind ht (Asks.lift h₁ Asks.nil) (getTemp_asks ht (at_start s)) rfl rfl⟩
    | none =>
      simp only [hg] at h
      cases hb : a.base.bind asGlobal with
      | some n =>
        simp only [hb] at h
        obtain ⟨t, ht, h⟩ := bind_ok.mp h
        obtain ⟨s₁, h₁, h₂⟩ := bind_ok.mp h
        exact ⟨[], Asks.bind ht (Asks.lift h₁ Asks.nil) (getTemp_asks ht (at_start s)) rfl rfl⟩
      | none =>
        simp only [hb] at h
        cases hr : a.base.bind s.regMapping with
        | some q => exact ⟨_, Asks.reads_bind Asks.nil⟩
        | none => simp [hr] at h

/-- A pointer that is a `getelementptr` is no constant. -/
theorem constant_gep (hptr : a = access f ptr) (hgep : ¬(!a.isGep) = true) : constant ptr d = [] := by
  subst hptr
  cases ptr <;> first | rfl | exact absurd rfl hgep

theorem loadVar_asks (h : loadVar f a ptr fl dest s = .ok s') (hptr : a = access f ptr)
    (hconst : a.constIndexed = false) :
    ∃ rd, Asks s (Calls.loadVar f a ptr fl dest s).log [] (address a ptr none s {}) rd := by
  unfold loadVar at h
  unfold Calls.loadVar address
  by_cases hgep : (!a.isGep) = true
  · rw [if_pos hgep] at h
    cases h
  · by_cases hreal : (!dest.reg.isReal) = true
    · rw [if_neg hgep, if_pos hreal] at h
      cases h
    · rw [if_neg hgep, if_neg hreal] at h
      rw [if_neg hgep, if_neg hreal]
      simp only [hconst, Bool.false_eq_true, if_false]
      cases hst : a.base.bind s.stackMapping with
      | some off =>
        simp only [hst] at h
        obtain ⟨⟨w, q⟩, hq, h⟩ := bind_ok.mp h
        obtain ⟨s₁, h₁, h₂⟩ := bind_ok.mp h
        exact ⟨_, Asks.lift hq (Asks.reads_bind (Asks.lift h₁ Asks.nil))⟩
      | none =>
        simp only [hst] at h
        cases hr : a.base.bind s.regMapping with
        | some q =>
          simp only [hr] at h
          obtain ⟨⟨base, baseReg⟩, hbase, h⟩ := bind_ok.mp h
          obtain ⟨⟨index, indexReg⟩, hindex, h⟩ := bind_ok.mp h
          obtain ⟨s₁, h₁, h⟩ := bind_ok.mp h
          obtain ⟨s₂, h₂, h⟩ := bind_ok.mp h
          obtain ⟨s₃, h₃, h₄⟩ := bind_ok.mp h
          have hat : At s {} s := at_start s
          refine ⟨[base, index, index, base], Asks.lift hbase (Asks.lift hindex ?_)⟩
          rw [(regAtOrThrow_ok hbase).1, (regAtOrThrow_ok hindex).1]
          refine Asks.bind (Calls.assign_res.trans h₁) (Asks.bind (Calls.scaleIndex_res.trans h₂)
            (Asks.reads_bind (l := [base]) (Asks.lift h₃ Asks.nil))
            (scaleIndex_asks h₂ (hat.kept (assign_kept h₁))) rfl rfl) (assign_asks h₁ hat) ?_ rfl
          simp
        | none =>
          simp only [hr] at h
          obtain ⟨t, ht, h⟩ := bind_ok.mp h
          obtain ⟨s₁, h₁, h⟩ := bind_ok.mp h
          obtain ⟨⟨index, indexReg⟩, hindex, h⟩ := bind_ok.mp h
          obtain ⟨s₂, h₂, h⟩ := bind_ok.mp h
          obtain ⟨s₃, h₃, h₄⟩ := bind_ok.mp h
          have hat : At s {} s := at_start s
          refine ⟨[ptr, index, index], ?_⟩
          have hgi := (regAtOrThrow_ok hindex).1
          rw [hgi] at hindex ⊢
          refine Asks.bind ht (Asks.bind (Calls.assign_res.trans h₁) (Asks.lift hindex
            (Asks.bind (Calls.scaleIndex_res.trans h₂) (Asks.lift h₃ Asks.nil)
              (scaleIndex_asks h₂ (hat.kept (assign_kept h₁))) rfl rfl)) (assign_asks h₁ hat) rfl rfl)
            (getTemp_asks ht hat) ?_ rfl
          simp [constant_gep hptr hgep]

theorem load_asks (h : load f i ptr s = .ok s') (hcalls : RegAlloc.hasFcalls f = false) :
    ∃ rd, Asks s (Calls.load f i ptr s).log [] (address (access f ptr) ptr none s {}) rd := by
  have htouch : s.touchReg (.instr i) = s := by
    refine touchReg_real ?_
    unfold load at h
    dsimp only at h
    split_ifs at h
    · exact (loadConst_moves h hcalls).1
    · exact (loadVar_moves h hcalls).1
  unfold load at h
  unfold Calls.load
  dsimp only at h ⊢
  rw [htouch] at h ⊢
  by_cases hconst : (access f ptr).constIndexed = true
  · rw [if_pos hconst] at h ⊢
    exact loadConst_asks h hconst
  · rw [if_neg hconst] at h ⊢
    exact loadVar_asks h rfl (Bool.eq_false_iff.mpr hconst)

/-! ### The store -/

theorem storeConst_asks {r : RegRef} (h : storeConst a fl r s₁ = .ok s₂) (hat : At s d s₁)
    (hs : s₁.stackMapping = s'.stackMapping) (hconst : a.constIndexed = true) :
    Asks s (Calls.storeConst a rval fl r s₁).log []
      (address a lval (some rval) s' d) (addressReads a lval rval s') := by
  unfold storeConst at h
  unfold Calls.storeConst address addressReads
  simp only [hconst, if_true, ← hs]
  cases hst : a.base.bind s₁.stackMapping with
  | some off => exact Asks.reads_bind Asks.nil
  | none =>
    simp only [hst] at h
    cases hg : a.globalPtr with
    | some n =>
      simp only [hg] at h
      obtain ⟨t, ht, h⟩ := bind_ok.mp h
      obtain ⟨s₃, h₃, h₄⟩ := bind_ok.mp h
      exact Asks.bind ht (Asks.lift h₃ (Asks.reads_bind (l := [rval]) Asks.nil))
        (getTemp_asks ht hat) rfl rfl
    | none =>
      simp only [hg] at h
      cases hb : a.base.bind asGlobal with
      | some n =>
        simp only [hb] at h
        obtain ⟨t, ht, h⟩ := bind_ok.mp h
        obtain ⟨s₃, h₃, h₄⟩ := bind_ok.mp h
        exact Asks.bind ht (Asks.lift h₃ (Asks.reads_bind (l := [rval]) Asks.nil))
          (getTemp_asks ht hat) rfl rfl
      | none => simp [hb] at h

theorem storeVar_asks {r : RegRef} (h : storeVar f a lval rval fl r s₁ = .ok s₂) (hat : At s d s₁)
    (hs : s₁.stackMapping = s'.stackMapping) (hregs : s'.regMapping = s₁.regMapping)
    (hptr : a = access f lval) (hconst : a.constIndexed = false) :
    Asks s (Calls.storeVar f a lval rval fl r s₁).log []
      (address a lval (some rval) s' d) (addressReads a lval rval s') := by
  unfold storeVar at h
  unfold Calls.storeVar address addressReads
  by_cases hgep : (!a.isGep) = true
  · rw [if_pos hgep] at h
    cases h
  · rw [if_neg hgep] at h
    rw [if_neg hgep]
    simp only [hconst, Bool.false_eq_true, if_false, ← hs, hregs]
    cases hst : a.base.bind s₁.stackMapping with
    | some off =>
      simp only [hst] at h
      obtain ⟨⟨w, q⟩, hq, h⟩ := bind_ok.mp h
      exact Asks.lift hq (Asks.reads_bind Asks.nil)
    | none =>
      simp only [hst] at h
      cases hr : a.base.bind s₁.regMapping with
      | some q =>
        simp only [hr] at h
        obtain ⟨⟨base, baseReg⟩, hbase, h⟩ := bind_ok.mp h
        obtain ⟨⟨index, indexReg⟩, hindex, h⟩ := bind_ok.mp h
        obtain ⟨s₃, h₃, h⟩ := bind_ok.mp h
        obtain ⟨s₄, h₄, h⟩ := bind_ok.mp h
        obtain ⟨s₅, h₅, h⟩ := bind_ok.mp h
        obtain ⟨s₆, h₆, h⟩ := bind_ok.mp h
        have hat₃ := hat.kept (assign_kept h₃)
        have hat₄ := hat₃.kept (scaleIndex_kept h₄)
        refine Asks.lift hbase (Asks.lift hindex ?_)
        rw [(regAtOrThrow_ok hbase).1, (regAtOrThrow_ok hindex).1]
        refine Asks.bind (Calls.assign_res.trans h₃) (Asks.bind (Calls.scaleIndex_res.trans h₄)
          (Asks.bind (Calls.assign_res.trans h₅)
            (Asks.reads_bind (l := [rval, base]) (Asks.lift h₆ Asks.nil)) (assign_asks h₅ hat₄) rfl rfl)
          (scaleIndex_asks h₄ hat₃) rfl rfl) (assign_asks h₃ hat) ?_ rfl
        simp
      | none =>
        simp only [hr] at h
        obtain ⟨t, ht, h⟩ := bind_ok.mp h
        obtain ⟨s₃, h₃, h⟩ := bind_ok.mp h
        obtain ⟨⟨index, indexReg⟩, hindex, h⟩ := bind_ok.mp h
        obtain ⟨s₄, h₄, h₅⟩ := bind_ok.mp h
        have hgi := (regAtOrThrow_ok hindex).1
        rw [hgi] at hindex ⊢
        refine Asks.bind ht (Asks.bind (Calls.assign_res.trans h₃) (Asks.lift hindex
          (Asks.bind (Calls.scaleIndex_res.trans h₄) (Asks.reads_bind (l := [rval]) Asks.nil)
            (scaleIndex_asks h₄ (hat.kept (assign_kept h₃))) rfl rfl)) (assign_asks h₃ hat) rfl rfl)
          (getTemp_asks ht hat) ?_ rfl
        simp [constant_gep hptr hgep]

theorem print_stackMapping {c : Except Failure Code} (h : print c s₁ = .ok s₂) :
    s₂.stackMapping = s₁.stackMapping := by
  obtain ⟨c, -, rfl⟩ := print_ok.mp h
  rfl

/-- `assign` inserts the base of a `getelementptr` into `stack_mapping`, and nothing else. -/
theorem assign_stackMapping (h : assign f r v s₁ = .ok s₂) :
    s₂.stackMapping = (assigned f v s₁).stackMapping := by
  unfold assign at h
  unfold assigned
  by_cases hname : nameOf f v = ""
  · rw [if_pos hname] at h ⊢
    unfold assignConst at h
    split at h
    · split_ifs at h
      · exact print_stackMapping h
      · obtain ⟨s₃, h₃, h₄⟩ := bind_ok.mp h
        exact (print_stackMapping h₄).trans (print_stackMapping h₃)
    · split at h
      · obtain ⟨t, -, h⟩ := bind_ok.mp h
        obtain ⟨s₃, h₃, h₄⟩ := bind_ok.mp h
        exact (print_stackMapping h₄).trans ((print_stackMapping h₃).trans rfl)
      · cases h
        rfl
  · rw [if_neg hname] at h ⊢
    cases hgep : asGep f v with
    | some gep =>
      simp only [hgep] at h
      cases hhead : gep.operands.head? with
      | none => simp [hhead] at h
      | some base =>
        simp only [hhead] at h
        cases hbase : asGlobal base with
        | some n =>
          simp only [hbase] at h
          simpa [hhead, hbase] using print_stackMapping h
        | none =>
          simp only [hbase] at h
          simpa [hhead, hbase] using print_stackMapping h
    | none =>
      simp only [hgep] at h
      cases hreg : s₁.regMapping v with
      | some src =>
        simp only [hreg] at h
        show s₂.stackMapping = s₁.stackMapping
        unfold assignReg at h
        dsimp only at h
        split_ifs at h <;> first
          | exact congrArg St.stackMapping (Except.ok.inj h).symm
          | exact (print_stackMapping h).trans rfl
      | none =>
        simp only [hreg] at h
        split_ifs at h

@[simp] theorem assigned_regMapping (v : Value) (s : St) :
    (assigned f v s).regMapping = s.regMapping := by
  unfold assigned
  split
  · rfl
  · split
    · split <;> rfl
    · rfl

theorem store_asks (h : store f lval rval s = .ok s') :
    ∃ rd, Asks s (Calls.store f lval rval s).log [] (storeDemands f lval rval s) rd := by
  obtain ⟨r, hr, h⟩ := bind_ok.mp h
  obtain ⟨s₁, h₁, h⟩ := bind_ok.mp h
  obtain ⟨s₂, h₂, h⟩ := bind_ok.mp h
  have hk := assign_kept h₁
  have haside : At s { first := some (rval, (valueType f rval).isFloat) } (s₁.erase r.reg) := by
    obtain ⟨hpool, hregs⟩ := (at_start s).aside rfl hr
    refine ⟨?_, fun v => ?_⟩
    · rw [← hpool]
      simp only [St.erase, hk.freeRegs]
    · rw [← hregs v]
      simp only [St.erase, hk.regMapping]
  have hstack : (s₁.erase r.reg).stackMapping = (assigned f rval s).stackMapping := by
    rw [← assign_stackMapping h₁, St.erase_stackMapping]
  have hregs : (assigned f rval s).regMapping = (s₁.erase r.reg).regMapping := by
    rw [assigned_regMapping]
    exact hk.regMapping.symm
  have hto : Asks s (Calls.storeTo f (access f lval) lval rval (valueType f rval).isFloat r
      (s₁.erase r.reg)).log []
      (address (access f lval) lval (some rval) (assigned f rval s)
        { first := some (rval, (valueType f rval).isFloat) })
      (addressReads (access f lval) lval rval (assigned f rval s)) := by
    unfold storeTo at h₂
    unfold Calls.storeTo
    by_cases hconst : (access f lval).constIndexed = true
    · rw [if_pos hconst] at h₂ ⊢
      exact storeConst_asks h₂ haside hstack hconst
    · rw [if_neg hconst] at h₂ ⊢
      exact storeVar_asks h₂ haside hstack hregs rfl (Bool.eq_false_iff.mpr hconst)
  have hrest := Asks.bind
    (k := fun s => (pure (s.insert r.reg) : Calls.Routine St)) (Calls.storeTo_res.trans h₂) Asks.nil
    hto (List.append_nil _) (List.append_nil _)
  exact ⟨_, operand_asks hr h₁ (at_start s) hrest (by simp [storeDemands]) rfl⟩

/-- **The calls of `get_temp` in the routine of an instruction are its demands.** -/
theorem genInstr_calls (h : genInstr f i s = .ok s') (hcalls : RegAlloc.hasFcalls f = false)
    (hcall : (f.instr i).op ≠ .call) :
    List.Forall₂ (Meets s) (callsOf (Calls.genInstr f i s).log []) (demands f i s) := by
  suffices hasks : ∃ rd, Asks s (Calls.genInstr f i s).log [] (demands f i s) rd from
    hasks.elim fun _ hrd => hrd.calls
  unfold genInstr at h
  unfold Calls.genInstr demands
  cases hop : (f.instr i).op with
  | call => exact absurd hop hcall
  | ret =>
    simp only [hop] at h ⊢
    obtain ⟨rd, hret⟩ := funEpilogue_asks h
    cases hops : (f.instr i).operands <;> exact ⟨rd, by simpa [hops] using hret⟩
  | alloca | phi =>
    simp only [hop]
    exact ⟨_, Asks.nil⟩
  | br =>
    simp only [hop]
    exact ⟨_, Asks.reads_bind Asks.nil⟩
  | add | sub | mul | sdiv | fadd | fsub | fmul | fdiv =>
    simp only [hop] at h ⊢
    match hops : (f.instr i).operands with
    | [] | [_] => simp [binInst, hops] at h
    | lhs :: rhs :: l => exact binInst_asks h ⟨l, hops⟩
  | getelementptr =>
    simp only [hop] at h ⊢
    exact gep_asks h
  | fptosi =>
    cases hops : (f.instr i).operands with
    | nil => simp [hop, hops] at h
    | cons v l =>
      simp only [hop, hops] at h ⊢
      exact ⟨_, fptosi_asks h⟩
  | sitofp =>
    cases hops : (f.instr i).operands with
    | nil => simp [hop, hops] at h
    | cons v l =>
      simp only [hop, hops] at h ⊢
      exact sitofp_asks h
  | zext =>
    cases hops : (f.instr i).operands with
    | nil => simp [hop, hops] at h
    | cons v l =>
      simp only [hop, hops] at h ⊢
      exact ⟨_, sext_asks h⟩
  | load =>
    cases hops : (f.instr i).operands with
    | nil => simp [hop, hops] at h
    | cons v l =>
      simp only [hop, hops] at h ⊢
      exact load_asks h hcalls
  | cmp =>
    match hops : (f.instr i).operands with
    | [] | [_] => simp [hop, hops] at h
    | lhs :: rhs :: l =>
      simp only [hop, hops] at h ⊢
      exact ⟨_, icmp_asks h⟩
  | fcmp =>
    match hops : (f.instr i).operands with
    | [] | [_] => simp [hop, hops] at h
    | lhs :: rhs :: l =>
      simp only [hop, hops] at h ⊢
      exact ⟨_, fcmp_asks h⟩
  | store =>
    match hops : (f.instr i).operands with
    | [] | [_] => simp [hop, hops] at h
    | rval :: lval :: l =>
      simp only [hop, hops] at h ⊢
      exact store_asks h

theorem forall₂_left {α β : Type} {P : α → β → Prop} {l : List α} {l' : List β}
    (h : List.Forall₂ P l l') : ∀ x ∈ l, ∃ y ∈ l', P x y := by
  induction h with
  | nil => exact fun x hx => absurd hx List.not_mem_nil
  | cons hxy _ ih =>
    intro x hx
    rcases List.mem_cons.mp hx with rfl | hx
    · exact ⟨_, List.mem_cons_self, hxy⟩
    · obtain ⟨y, hy, hP⟩ := ih x hx
      exact ⟨y, List.mem_cons_of_mem _ hy, hP⟩

theorem forall₂_right {α β : Type} {P : α → β → Prop} {l : List α} {l' : List β}
    (h : List.Forall₂ P l l') : ∀ y ∈ l', ∃ x ∈ l, P x y :=
  forall₂_left (List.Forall₂.flip (R := flip P) h)

end

end Cminusfc.Codegen.Temps
