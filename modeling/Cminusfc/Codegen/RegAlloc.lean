import Cminusfc.LightIR.Ir
import Cminusfc.Lib.DepthFirst

/-!
# Register allocation: block order and intervals

Model of `RegAlloc::dfs` and `RegAlloc::init_func` in `regalloc.cpp`: the blocks are numbered by a
depth-first search, from the number of blocks downwards, and one walk over the numbered blocks
gives every named value an interval and every alloca a stack slot.

* `int2bb` is a map from numbers, enumerated upwards. The search inserts ever smaller numbers, so
  the list `int2bb` is built at its front.
* `intervals` holds the same shared intervals as `val2interval`, in another order, and is left out,
  as are the members that `init_func` only clears.

Source: `src/codegen/regalloc.cpp` 77-147, `include/codegen/regalloc.h` 19-48. Out of scope:
`print_stats`.
-/

namespace Cminusfc.Codegen.RegAlloc

open Cminusfc.LightIR

/-- `RegAlloc::point`. -/
@[ext] structure Point where
  bbindex : Int
  lineNo : Nat
  deriving Repr, DecidableEq

namespace Point

/-- `operator<`. -/
instance : LT Point :=
  ⟨fun l r => l.bbindex < r.bbindex ∨ l.bbindex = r.bbindex ∧ l.lineNo < r.lineNo⟩

/-- `operator<=`, defined as `!(*this > rhs)`. -/
instance : LE Point := ⟨fun l r => ¬ r < l⟩

instance (l r : Point) : Decidable (l < r) :=
  inferInstanceAs (Decidable (l.bbindex < r.bbindex ∨ l.bbindex = r.bbindex ∧ l.lineNo < r.lineNo))

instance (l r : Point) : Decidable (l ≤ r) := inferInstanceAs (Decidable (¬ r < l))

end Point

/-- `RegAlloc::interval`; both ends are inclusive. -/
structure Interval where
  start : Point
  stop : Point
  deriving Repr, DecidableEq

/-- The members `dfs` writes. -/
structure Order where
  c : Int
  int2bb : List (Int × BlockId)
  bb2int : BlockId → Int

/-- The end of `dfs`: `int2bb[c] = s; bb2int[s] = c--;` -/
def number (o : Order) (s : BlockId) : Order :=
  { c := o.c - 1, int2bb := (o.c, s) :: o.int2bb, bb2int := Function.update o.bb2int s o.c }

/-- `dfs`, started on the entry block of `f`. -/
def dfs (f : Func) (fuel : Nat) : Option Order :=
  (DepthFirst.visit f.succ number fuel f.entry ⟨[], ⟨f.blocks.length, [], fun _ => 0⟩⟩).map
    DepthFirst.State.acc

/-- The members the walk of `init_func` writes. -/
structure Members where
  stackSize : Int
  stackMappings : Value → Option Int
  val2interval : Value → Option Interval

/-- Replace the entry of a value in `val2interval`. -/
def Members.setInterval (m : Members) (v : Value) (o : Option Interval) : Members :=
  { m with val2interval := Function.update m.val2interval v o }

/-- `val2interval.insert({v, …})`, which leaves an entry that exists. -/
def insertInterval (m : Members) (v : Value) (iv : Interval) : Members :=
  m.setInterval v ((m.val2interval v).or (some iv))

/-- The body of the loop over the operands: the end of an interval that exists is moved here. -/
def touch (srcloc : Point) (m : Members) (rand : Value) : Members :=
  m.setInterval rand ((m.val2interval rand).map fun iv => { iv with stop := srcloc })

/-- The body of the loop over the instructions. -/
def scanInstr (f : Func) (m : Members) (srcloc : Point) (i : InstrId) : Members :=
  let instr := f.instr i
  if instr.op = .alloca then
    let size := m.stackSize + ((instr.ty.pointerElementType.map Ty.size).getD 0 : Nat)
    { m with
      stackSize := size
      stackMappings := Function.update m.stackMappings (.instr i) (some (-size)) }
  else
    let m := if f.names (.instr i) ≠ "" then insertInterval m (.instr i) ⟨srcloc, srcloc⟩ else m
    instr.operands.foldl (touch srcloc) m

/-- The body of the loop over `int2bb`; `instr_counter` starts at 1 for the first instruction. -/
def scanBlock (f : Func) (m : Members) (bb : Int × BlockId) : Members :=
  ((f.body bb.2).zipIdx 1).foldl (fun m i => scanInstr f m ⟨bb.1, i.2⟩ i.1) m

/-- The loop over the arguments: the used ones are given intervals. -/
def scanArgs (f : Func) (m : Members) : Members :=
  (List.range f.args.length).foldl
    (fun m no => if f.uses (.arg no) = [] then m else insertInterval m (.arg no) ⟨⟨0, 0⟩, ⟨0, 0⟩⟩) m

/-- `Function::has_fcalls`. -/
def hasFcalls (f : Func) : Bool := f.instrs.any fun i => (f.instr i).op = .call

/-- `init_func`: the block order, and the members the walk leaves. -/
def initFunc (f : Func) (fuel : Nat) : Except Fault (Order × Members) :=
  match dfs f fuel with
  | none => .error .fuel
  | some o =>
    let m : Members := ⟨if hasFcalls f then 16 else 8, fun _ => none, fun _ => none⟩
    .ok (o, o.int2bb.foldl (scanBlock f) (scanArgs f m))

/-! ## Liveness -/

/-- `v` is live at the point of `b` where `k` of its instructions have been executed: a path leads
from there to an instruction that has `v` as an operand, and does not execute the definition of
`v` before. -/
inductive LiveAt (f : Func) (v : Value) : BlockId → Nat → Prop
  | use {b : BlockId} {k : Nat} {i : InstrId} (hi : (f.body b)[k]? = some i)
      (hv : v ∈ (f.instr i).operands) : LiveAt f v b k
  | step {b : BlockId} {k : Nat} {i : InstrId} (hi : (f.body b)[k]? = some i)
      (hv : v ≠ .instr i) (h : LiveAt f v b (k + 1)) : LiveAt f v b k
  | edge {b s : BlockId} (hs : s ∈ f.succ b) (h : LiveAt f v s 0) :
      LiveAt f v b (f.body b).length

end Cminusfc.Codegen.RegAlloc
