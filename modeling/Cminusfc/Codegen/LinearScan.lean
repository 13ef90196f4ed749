import Cminusfc.Codegen.RegAlloc

/-!
# Register allocation: the linear scan

Model of `pre_allocate_args`, `LinearScanRegisterAllocation`, `ExpireOldIntervals`,
`SpillAtInterval`, `assign_reg` and `free_reg` in `regalloc.cpp`, with the register pools of
`regalloc.h` and `all_kinds_of_regs.cpp`.

* A `std::set<Reg>` is a list in the order of `Reg::operator<`. The member `d` of a `Reg` takes no
  part in its comparisons, so it stands beside the register in `reg_mappings`.
* `active` is a list in the order of `ActiveLess`. That order ends in the comparison `less` of two
  pointers, which no code controls.
* The scan takes the set `intervals` as a list in the order of `IntervalLess`.
* Reading `args[8]` or `fargs[8]` is `Fault.undefined`.

Source: `src/codegen/regalloc.cpp` 24-75 and 149-195, `include/codegen/regalloc.h` 50-76, `reg.h`
12-59.
-/

namespace Cminusfc.Codegen

open Cminusfc.LightIR

/-- The number and the file of a `Reg`; `Reg(-1)` is the default and no register. -/
structure Reg where
  id : Int
  f : Bool := false
  deriving Repr, DecidableEq

namespace Reg

/-- `operator<`. -/
def less (l r : Reg) : Bool := l.id < r.id || (l.id = r.id && !l.f && r.f)

/-- `explicit operator bool`. -/
def isReal (r : Reg) : Bool := r.id ≠ -1

end Reg

/-- A `Reg` as `reg_mappings` holds it. -/
structure RegRef where
  reg : Reg
  d : Bool := false
  deriving Repr, DecidableEq

/-- `std::set<Reg>::insert`. -/
def insertReg (l : List Reg) (r : Reg) : List Reg :=
  if r ∈ l then l else l.takeWhile (·.less r) ++ r :: l.dropWhile (·.less r)

/-- `args`. -/
def args : List Reg := [⟨10, false⟩, ⟨11, false⟩, ⟨12, false⟩, ⟨13, false⟩, ⟨14, false⟩,
  ⟨15, false⟩, ⟨16, false⟩, ⟨17, false⟩]

/-- `fargs`. -/
def fargs : List Reg := [⟨10, true⟩, ⟨11, true⟩, ⟨12, true⟩, ⟨13, true⟩, ⟨14, true⟩, ⟨15, true⟩,
  ⟨16, true⟩, ⟨17, true⟩]

namespace RegAlloc

/-- The member `regs`. -/
def regs : List Reg :=
  [⟨5, false⟩, ⟨6, false⟩, ⟨7, false⟩, ⟨28, false⟩, ⟨29, false⟩, ⟨30, false⟩, ⟨31, false⟩]

/-- The member `fregs`. -/
def fregs : List Reg :=
  [⟨5, true⟩, ⟨6, true⟩, ⟨7, true⟩, ⟨28, true⟩, ⟨29, true⟩, ⟨30, true⟩, ⟨31, true⟩]

/-- `available_regs` as `init_func` leaves it. -/
def allRegs : List Reg := fargs.foldl insertReg (args.foldl insertReg (fregs.foldl insertReg regs))

/-- `val->get_type()`, for the values that have intervals: arguments and instructions. -/
def typeOf (f : Func) : Value → Ty
  | .arg no => f.args.getD no .void
  | .instr i => (f.instr i).ty
  | _ => .void

/-- `val->get_type()->is_float_type()`. -/
def isFloat (f : Func) (v : Value) : Bool := (typeOf f v).isFloat

/-- An element of `intervals`: the value and its interval. -/
abbrev ValInterval := Value × Interval

/-- The members the scan writes. -/
structure Alloc where
  availableRegs : List Reg
  active : List ValInterval
  regMappings : Value → Option RegRef
  stackMappings : Value → Option Int
  stackSize : Int

/-- `reg_mappings[v] = r`. -/
def Alloc.setReg (s : Alloc) (v : Value) (r : RegRef) : Alloc :=
  { s with regMappings := Function.update s.regMappings v (some r) }

/-- `reg_mappings[v]`, which is `Reg(-1)` for a value without an entry. -/
def Alloc.regOf (s : Alloc) (v : Value) : RegRef := (s.regMappings v).getD ⟨⟨-1, false⟩, false⟩

/-- The counters of `pre_allocate_args` beside the members. -/
structure ArgState where
  alloc : Alloc
  intArgCounter : Nat := 0
  flArgCounter : Nat := 0

/-- The body of the loop of `pre_allocate_args`; `used` is `val2interval.contains(arg)`. -/
def preAllocateArg (used : Value → Bool) (s : ArgState) (arg : Ty × Nat) : Except Fault ArgState :=
  let v := Value.arg arg.2
  if !arg.1.isFloat then
    if used v then
      match args[s.intArgCounter]? with
      | none => .error .undefined
      | some r =>
        let a := s.alloc.setReg v ⟨r, arg.1.isPointer⟩
        .ok { s with
          alloc := { a with availableRegs := a.availableRegs.filter (· ≠ r) }
          intArgCounter := s.intArgCounter + 1 }
    else .ok { s with intArgCounter := s.intArgCounter + 1 }
  else
    if used v then
      match fargs[s.flArgCounter]? with
      | none => .error .undefined
      | some r =>
        let a := s.alloc.setReg v ⟨r, false⟩
        .ok { s with
          alloc := { a with availableRegs := a.availableRegs.filter (· ≠ r) }
          flArgCounter := s.flArgCounter + 1 }
    else .ok { s with flArgCounter := s.flArgCounter + 1 }

/-- `pre_allocate_args`. -/
def preAllocateArgs (f : Func) (used : Value → Bool) (s : Alloc) : Except Fault Alloc :=
  (f.args.zipIdx.foldlM (preAllocateArg used) { alloc := s }).map ArgState.alloc

/-- `pre_allocated`. -/
def preAllocated (f : Func) : Value → Bool
  | .arg no => no < f.args.length
  | _ => false

/-- `free_reg`. -/
def freeReg (s : Alloc) (i : ValInterval) : Alloc :=
  { s with availableRegs := insertReg s.availableRegs (s.regOf i.1).reg }

/-- `ExpireOldIntervals`: the loop stops at the first interval that has not ended. -/
def expireOldIntervals (s : Alloc) (i : ValInterval) : Alloc :=
  let deleteList := s.active.takeWhile fun j => j.2.stop < i.2.start
  deleteList.foldl
    (fun s j => freeReg { s with active := s.active.filter (·.1 ≠ j.1) } j) s

/-- `ActiveLess`. -/
def activeLess (less : Value → Value → Bool) (l r : ValInterval) : Bool :=
  if l.2.stop < r.2.stop then true
  else if r.2.stop < l.2.stop then false
  else less l.1 r.1

/-- `active.insert(i)`. -/
def insertActive (less : Value → Value → Bool) (l : List ValInterval) (i : ValInterval) :
    List ValInterval :=
  l.takeWhile (activeLess less · i) ++ i :: l.dropWhile (activeLess less · i)

/-- `SpillAtInterval`. -/
def spillAtInterval (f : Func) (less : Value → Value → Bool) (s : Alloc) (i : ValInterval) :
    Except Fault Alloc :=
  match s.active.getLast? with
  | none => .error .undefined
  | some spill =>
    if i.2.stop < spill.2.stop then
      let s := s.setReg i.1 (s.regOf spill.1)
      let spillSize : Int := (typeOf f spill.1).size
      .ok { s with
        stackSize := s.stackSize + spillSize
        stackMappings := Function.update s.stackMappings spill.1 (some (-spillSize))
        active := insertActive less (s.active.filter (·.1 ≠ spill.1)) i }
    else
      let iSize : Int := (typeOf f i.1).size
      .ok { s with
        stackSize := s.stackSize + iSize
        stackMappings := Function.update s.stackMappings i.1 (some (-iSize)) }

/-- `assign_reg`: the first available register of the class of the value; `Reg(-1)` if there is
none. -/
def assignReg (f : Func) (s : Alloc) (i : ValInterval) : Except Fault Alloc :=
  if s.availableRegs = [] then .error .assertion
  else if (s.regMappings i.1).isSome then .error .assertion
  else
    let r := (s.availableRegs.find? fun avai => avai.f = isFloat f i.1).getD ⟨-1, false⟩
    let s := s.setReg i.1 ⟨r, false⟩
    .ok { s with availableRegs := s.availableRegs.filter (· ≠ r) }

/-- The body of the loop of `LinearScanRegisterAllocation`. -/
def scanInterval (f : Func) (less : Value → Value → Bool) (s : Alloc) (i : ValInterval) :
    Except Fault Alloc :=
  let s := expireOldIntervals s i
  if preAllocated f i.1 then .ok s
  else if s.active.length = regs.length + fregs.length then spillAtInterval f less s i
  else (assignReg f s i).map fun s => { s with active := insertActive less s.active i }

/-- `LinearScanRegisterAllocation`. -/
def linearScanRegisterAllocation (f : Func) (less : Value → Value → Bool)
    (intervals : List ValInterval) (s : Alloc) : Except Fault Alloc :=
  intervals.foldlM (scanInterval f less) s

/-- What `RegAlloc::run` does to one function after `init_func`, which leaves the stack slots of the
allocas and the intervals. -/
def allocate (f : Func) (less : Value → Value → Bool) (m : Members)
    (intervals : List ValInterval) : Except Fault Alloc := do
  let s ← preAllocateArgs f (fun v => intervals.any (·.1 = v))
    ⟨allRegs, [], fun _ => none, m.stackMappings, m.stackSize⟩
  linearScanRegisterAllocation f less intervals s

end RegAlloc

end Cminusfc.Codegen
