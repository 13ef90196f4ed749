import Mathlib.Data.List.Dedup
import Cminusfc.LightIR.Cfg
import Cminusfc.Lib.NaturalLoop
import Cminusfc.Lib.Tarjan

/-!
# The loop search

Model of `LoopSearch.cpp` for one function: the strongly connected components of the graph are taken as
loops, the base of each is removed, and so on until no component of two blocks is left. Tarjan's
algorithm itself is `Tarjan.components`.

* A `CFGNode *` is its block. The sets `succs` and `prevs` of a node, which `run` erases from, are
  lists; `nodes` and `reserved` are lists as well.
* The code enumerates `std::unordered_set`s; `Orders` stands for any such enumerations.
* The output for `dump` is left out, and `func2loop`, which is `loopSet` of the one function.

Source: `src/optimization/LoopSearch.cpp` 17-192, `include/optimization/LoopSearch.hpp` 12-71. Out
of scope: `dump_graph`, `get_parent_loop`.
-/

namespace Cminusfc.Optimization.LoopSearch

open Cminusfc.LightIR

/-- A `BBset_t *` with its `loop2base`. -/
structure Loop where
  base : BlockId
  blocks : List BlockId
  deriving Repr, DecidableEq

/-- The enumerations of the unordered sets. -/
structure Orders where
  nodes : SetOrder BlockId
  succs : BlockId → SetOrder BlockId
  prevs : BlockId → SetOrder BlockId
  members : SetOrder BlockId
  reserved : SetOrder BlockId
  sccs : SetOrder (List BlockId)

/-- The locals of `run` for one function, the members of its nodes, and the members of the pass. -/
structure Search where
  nodes : List BlockId
  succs : BlockId → List BlockId
  prevs : BlockId → List BlockId
  marks : Tarjan.Marks BlockId
  reserved : List BlockId := []
  loopSet : List Loop := []
  base2loop : BlockId → Option Loop := fun _ => none
  bb2base : BlockId → Option BlockId := fun _ => none

/-- `build_cfg`. -/
def buildCfg (f : Cfg) : Search where
  nodes := f.blocks
  succs bb := (f.succ bb).dedup
  prevs bb := (f.pre bb).dedup
  marks := ⟨fun _ => -1, fun _ => -1, fun _ => false⟩

section Run

variable (o : Orders)

/-- `strongly_connected_components`: the new marks and the components. -/
def stronglyConnectedComponents (fuel : Nat) (s : Search) : Option (Tarjan.State BlockId) :=
  Tarjan.components (fun n => (o.succs n).enum (s.succs n)) fuel (o.nodes.enum s.nodes) s.marks

/-- `find_loop_base`: `base` is overwritten, so the last find counts. -/
def findLoopBase (s : Search) (set : List BlockId) : Option BlockId :=
  let entries := (o.members.enum set).flatMap fun n =>
    ((o.prevs n).enum (s.prevs n)).filterMap fun prev => if prev ∉ set then some n else none
  match entries.getLast? with
  | some base => some base
  | none =>
    ((o.reserved.enum s.reserved).flatMap fun res =>
      ((o.succs res).enum (s.succs res)).filter fun succ => succ ∈ set).getLast?

/-- Steps 4 and 5: the component is recorded as a loop. -/
def record (s : Search) (base : BlockId) (scc : List BlockId) : Search :=
  let loop := ⟨base, scc⟩
  { s with
    loopSet := s.loopSet ++ [loop]
    base2loop := Function.update s.base2loop base ((s.base2loop base).or (some loop))
    bb2base := fun bb => if bb ∈ scc then some base else s.bb2base bb }

/-- Step 6: the base is removed. -/
def removeBase (s : Search) (base : BlockId) : Search :=
  let prevs := fun su => if su ∈ s.succs base then (s.prevs su).filter (· ≠ base) else s.prevs su
  { s with
    reserved := if base ∈ s.reserved then s.reserved else s.reserved ++ [base]
    nodes := s.nodes.filter (· ≠ base)
    prevs := prevs
    succs := fun prev =>
      if prev ∈ prevs base then (s.succs prev).filter (· ≠ base) else s.succs prev }

/-- The body of the loop over the components. -/
def visitScc (s : Search) (scc : List BlockId) : Except Fault Search :=
  match findLoopBase o s scc with
  | none => .error .undefined
  | some base => .ok (removeBase (record s base scc) base)

/-- The marks of the remaining nodes are cleared. -/
def reset (s : Search) : Search :=
  { s with
    marks := ⟨fun n => if n ∈ s.nodes then -1 else s.marks.index n,
      fun n => if n ∈ s.nodes then -1 else s.marks.lowlink n,
      fun n => if n ∈ s.nodes then false else s.marks.onStack n⟩ }

/-- `while (strongly_connected_components(nodes, sccs))`. -/
def rounds : Nat → Search → Except Fault Search
  | 0, _ => .error .fuel
  | n + 1, s =>
    match stronglyConnectedComponents o (n + 1) s with
    | none => .error .fuel
    | some t =>
      if t.comps = [] then .ok { s with marks := t.toMarks }
      else do
        let s ← (o.sccs.enum t.comps).foldlM (visitScc o) { s with marks := t.toMarks }
        rounds n (reset s)

/-- The body of the loop over the functions in `LoopSearch::run`. -/
def run (f : Cfg) (fuel : Nat) : Except Fault Search := rounds o fuel (buildCfg f)

end Run

/-- `get_inner_loop`. -/
def getInnerLoop (s : Search) (bb : BlockId) : Option Loop := (s.bb2base bb).bind s.base2loop

/-! ## Natural loops -/

/-- A reducible CFG with all blocks reachable, no edge into the entry and no block that is its own
successor. -/
structure Input (f : FlowGraph) : Prop where
  reducible : Dominance.Reducible f.Edge f.entry
  reach : ∀ b ∈ f.blocks, f.Reach b
  entry : ∀ a, ¬ f.Edge a f.entry
  noSelf : ∀ b ∈ f.blocks, b ∉ f.succ b
  nodup : f.blocks.Nodup

/-- `h` is the target of a back edge. -/
def IsHead (f : Cfg) (h : BlockId) : Prop := ∃ a ∈ f.blocks, Dominance.BackEdge f.Edge f.entry a h

/-- `b` is in the union of the natural loops of the back edges into `h`. -/
def InLoop (f : Cfg) (h b : BlockId) : Prop := Dominance.InLoop f.Edge f.entry h b

/-- The loops of `s` are those of `f`. -/
structure Found (f : Cfg) (s : Search) : Prop where
  /-- One recorded set for each target of a back edge. -/
  heads : ∀ h, IsHead f h ↔ h ∈ s.loopSet.map Loop.base
  once : (s.loopSet.map Loop.base).Nodup
  blocks : ∀ loop ∈ s.loopSet, ∀ b, b ∈ loop.blocks ↔ InLoop f loop.base b
  /-- `get_inner_loop` gives the smallest recorded loop with the block, if there is one. -/
  inner : ∀ b loop, getInnerLoop s b = some loop →
    loop ∈ s.loopSet ∧ b ∈ loop.blocks ∧
      ∀ other ∈ s.loopSet, b ∈ other.blocks → loop.blocks ⊆ other.blocks
  inner_none : ∀ b, getInnerLoop s b = none → ∀ loop ∈ s.loopSet, b ∉ loop.blocks

end Cminusfc.Optimization.LoopSearch
