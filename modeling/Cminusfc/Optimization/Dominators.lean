import Cminusfc.Lib.DepthFirst
import Cminusfc.LightIR.Cfg

/-!
# The dominator pass

Model of `Dominators.cpp`: the post-order numbering, the iteration that computes immediate
dominators by intersecting chains of a partially built tree, the dominance frontiers and the
children lists of the dominator tree.

* A loop of the source is a function of `fuel`; running out of it is `Fault.fuel`, never a result.
* An `assert` that fails is `Fault.assertion`.
* `idom_[bb]` is an `Option BlockId`, `none` for the null pointer. Blocks of other functions may
  have entries of their own, so the map before `create_idom` is arbitrary (`old`).

Source: `src/optimization/Dominators.cpp` 5-27 and 71-192. Out of scope: `create_doms`, which
nothing calls, and the printing.
-/

namespace Cminusfc.Optimization.Dominators

open Cminusfc.LightIR

/-- `reverse_post_order_` before it is reversed, and `post_order_id_`. -/
abbrev Numbering := List BlockId × (BlockId → Nat)

/-- The end of `post_order_visit`: number the block, then append it. -/
def number (acc : Numbering) (bb : BlockId) : Numbering :=
  (acc.1 ++ [bb], Function.update acc.2 bb acc.1.length)

/-- `post_order_visit`. -/
def postOrderVisit (g : Cfg) (fuel : Nat) (bb : BlockId) (s : DepthFirst.State BlockId Numbering) :
    Option (DepthFirst.State BlockId Numbering) :=
  DepthFirst.visit g.succ number fuel bb s

/-- `create_reverse_post_order`: the blocks in reverse post-order, and their post-order ids. -/
def createReversePostOrder (g : Cfg) (fuel : Nat) : Except Fault Numbering :=
  match postOrderVisit g fuel g.entry ⟨[], ([], fun _ => 0)⟩ with
  | some s => .ok (s.acc.1.reverse, s.acc.2)
  | none => .error .fuel

/-- `idom_`. -/
abbrev IdomMap := BlockId → Option BlockId

section Intersect

variable (id : BlockId → Nat) (idom : IdomMap)

/-- `while (post_order_id_[b] < post_order_id_[target]) b = get_idom(b);` -/
def climb : Nat → BlockId → BlockId → Except Fault BlockId
  | 0, _, _ => .error .fuel
  | n + 1, b, target =>
    if id b < id target then
      match idom b with
      | none => .error .assertion
      | some d => climb n d target
    else .ok b

/-- The outer loop of `intersect`. -/
def intersectLoop (fuel : Nat) : Nat → BlockId → BlockId → Except Fault BlockId
  | 0, _, _ => .error .fuel
  | n + 1, b1, b2 =>
    if b1 = b2 then .ok b1
    else do
      let b1 ← climb id idom fuel b1 b2
      let b2 ← climb id idom fuel b2 b1
      intersectLoop fuel n b1 b2

/-- `intersect`. -/
def intersect (fuel : Nat) (b1 b2 : BlockId) : Except Fault BlockId :=
  intersectLoop id idom fuel fuel b1 b2

/-- The inner loop over the predecessors: fold `intersect` over those that have an idom. -/
def newIdom (fuel : Nat) (pred : BlockId) (pre : List BlockId) : Except Fault BlockId :=
  pre.foldlM
    (fun new p =>
      if p = pred then .ok new
      else if (idom p).isSome then intersect id idom fuel p new
      else .ok new)
    pred

end Intersect

/-- The body of the loop over `reverse_post_order_`. -/
def visitBlock (g : Cfg) (id : BlockId → Nat) (fuel : Nat) (s : IdomMap × Bool) (bb : BlockId) :
    Except Fault (IdomMap × Bool) :=
  if bb = g.entry then .ok s
  else
    match (g.pre bb).find? fun p => (s.1 p).isSome with
    | none => .error .assertion
    | some pred => do
      let new ← newIdom id s.1 fuel pred (g.pre bb)
      .ok (if s.1 bb = some new then s else (Function.update s.1 bb (some new), true))

/-- One round of `while (changed)`. -/
def idomPass (g : Cfg) (num : Numbering) (fuel : Nat) (idom : IdomMap) :
    Except Fault (IdomMap × Bool) :=
  num.1.foldlM (visitBlock g num.2 fuel) (idom, false)

/-- `while (changed)`. -/
def idomLoop (g : Cfg) (num : Numbering) (fuel : Nat) : Nat → IdomMap → Except Fault IdomMap
  | 0, _ => .error .fuel
  | n + 1, idom => do
    let (idom, changed) ← idomPass g num fuel idom
    if changed then idomLoop g num fuel n idom else .ok idom

/-- The initialisation of `create_idom`. -/
def initIdom (g : Cfg) (old : IdomMap) : IdomMap :=
  Function.update (fun b => if b ∈ g.blocks then none else old b) g.entry (some g.entry)

/-- `create_idom`. -/
def createIdom (g : Cfg) (num : Numbering) (fuel : Nat) (old : IdomMap) : Except Fault IdomMap :=
  idomLoop g num fuel fuel (initIdom g old)

/-- `dom_frontier_` and `dom_tree_succ_blocks_`: a set of blocks for each block. -/
abbrev BlockSets := BlockId → List BlockId

/-- `sets[bb].insert(x)`. -/
def BlockSets.add (sets : BlockSets) (bb x : BlockId) : BlockSets :=
  Function.update sets bb ((sets bb).insert x)

/-- `while (runner != get_idom(bb))`. A null runner stays null, as `idom_[nullptr]` is. -/
def runnerLoop (idom : IdomMap) (bb : BlockId) :
    Nat → Option BlockId → BlockSets → Except Fault BlockSets
  | 0, _, _ => .error .fuel
  | n + 1, runner, df =>
    if runner = idom bb then .ok df
    else
      match runner with
      | some r => runnerLoop idom bb n (idom r) (df.add r bb)
      | none => runnerLoop idom bb n none df

/-- `create_dominance_frontier`, from the empty sets `run` inserts. -/
def createDominanceFrontier (g : Cfg) (idom : IdomMap) (fuel : Nat) : Except Fault BlockSets :=
  g.blocks.foldlM
    (fun df bb =>
      if 2 ≤ (g.pre bb).length then
        (g.pre bb).foldlM (fun df p => runnerLoop idom bb fuel (some p) df) df
      else .ok df)
    (fun _ => [])

/-- `create_dom_tree_succ`; the child of a null idom goes to the entry of the null pointer, which
nothing reads. -/
def createDomTreeSucc (g : Cfg) (idom : IdomMap) : BlockSets :=
  g.blocks.foldl
    (fun sets bb =>
      if idom bb ≠ some bb then
        match idom bb with
        | some d => sets.add d bb
        | none => sets
      else sets)
    (fun _ => [])

/-- What `run` leaves for one function. -/
structure Result where
  idom : IdomMap
  domFrontier : BlockSets
  domTreeSucc : BlockSets

/-- The body of the loop of `run`, for a function with blocks. -/
def run (g : Cfg) (fuel : Nat) (old : IdomMap) : Except Fault Result := do
  let num ← createReversePostOrder g fuel
  let idom ← createIdom g num fuel old
  let df ← createDominanceFrontier g idom fuel
  .ok ⟨idom, df, createDomTreeSucc g idom⟩

end Cminusfc.Optimization.Dominators
