import Mathlib.Data.Finset.Card
import Mathlib.Data.Finset.SDiff
import Cminusfc.LightIR.Ir

/-!
# The liveness pass

Model of `ActiveVars.cpp`: the textual walk that collects `use`, `def` and `phiuses` of a block,
and the do-while loop that updates `live_in` and `live_out` in place, in reverse list order, until
no `live_out` grows in a round.

* A `std::set<Value *>` is a `Finset Value`; `phiuses[bb]`, a map from a predecessor to the values
  a phi takes from it, is the set of its pairs.
* The do-while loop is a function of `fuel`; running out of it is `Fault.fuel`.

Source: `src/optimization/ActiveVars.cpp` 4-50 and 104-131, `include/optimization/ActiveVars.hpp`
19-37. Out of scope: the JSON text of `print`.
-/

namespace Cminusfc.Optimization.ActiveVars

open Cminusfc.LightIR

/-- `bb2vals`. -/
abbrev Bb2Vals := BlockId → Finset Value

/-- `use`, `def` and `phiuses`. -/
structure Sets where
  use : Bb2Vals
  defs : Bb2Vals
  phiUses : BlockId → Finset (BlockId × Value)

/-- `!rand->get_name().empty() && !rand->get_type()->is_label_type()`. -/
def isVariable (f : Func) (rand : Value) : Bool :=
  f.names rand ≠ "" && rand.asBlock.isNone

/-- What the loop over the operands of an instruction adds to `uses`. -/
def operandUses (f : Func) (defs : Finset Value) (rands : List Value) : Finset Value :=
  (rands.filter fun rand => rand ∉ defs && isVariable f rand).toFinset

/-- The body of the loop over the instructions of `bb` in `calc_def_and_use`. -/
def scanInstr (f : Func) (bb : BlockId) (t : Sets) (i : InstrId) : Sets :=
  let x := f.instr i
  let uses := t.use bb ∪ operandUses f (t.defs bb) x.operands
  let phiUses :=
    if x.op = .phi then
      Function.update t.phiUses bb
        (t.phiUses bb ∪ (x.phiPairs.map fun p => (p.2, p.1)).toFinset)
    else t.phiUses
  -- the operand 0 of a call is the callee
  let uses := if x.op = .call then (x.operands.head?.map uses.erase).getD uses else uses
  { use := Function.update t.use bb uses
    defs :=
      if .instr i ∉ uses ∧ x.ty ≠ .void then
        Function.update t.defs bb (insert (.instr i) (t.defs bb))
      else t.defs
    phiUses := phiUses }

/-- `calc_def_and_use`. -/
def calcDefAndUse (f : Func) : Sets :=
  f.blocks.foldl (fun t bb => (f.body bb).foldl (scanInstr f bb) t)
    ⟨fun _ => ∅, fun _ => ∅, fun _ => ∅⟩

/-- `live_in` and `live_out`. -/
structure Live where
  liveIn : Bb2Vals
  liveOut : Bb2Vals

/-- The two maps after `clear`. -/
def Live.empty : Live := ⟨fun _ => ∅, fun _ => ∅⟩

section Loop

variable (g : Cfg) (t : Sets)

/-- The condition under which a variable of `live_in[suc]` goes to the `live_out` of `bb`. -/
def through (bb suc : BlockId) (var : Value) : Bool :=
  let varFromPhi : Bool := decide (∃ p ∈ t.phiUses suc, p.2 = var)
  !varFromPhi || (varFromPhi && decide ((bb, var) ∈ t.phiUses suc))

/-- The loop over the successors of `bb`, which inserts into `live_out[bb]`. -/
def outOf (s : Live) (bb : BlockId) : Finset Value :=
  (g.succ bb).foldl (fun out suc => out ∪ (s.liveIn suc).filter fun var => through t bb suc var)
    (s.liveOut bb)

/-- `(out - def[bb]) ∪ use[bb]`. -/
def inOf (out : Finset Value) (bb : BlockId) : Finset Value := (out \ t.defs bb) ∪ t.use bb

/-- The body of the loop over the blocks, with the flag `changed`. -/
def visitBlock (s : Live × Bool) (bb : BlockId) : Live × Bool :=
  let out := outOf g t s.1 bb
  (⟨Function.update s.1.liveIn bb (inOf t out bb), Function.update s.1.liveOut bb out⟩,
    s.2 || decide (out.card ≠ (s.1.liveOut bb).card))

/-- One round of the do-while loop. -/
def round (s : Live) : Live × Bool := g.blocks.reverse.foldl (visitBlock g t) (s, false)

/-- `do { … } while (changed);` -/
def rounds : Nat → Live → Except Fault Live
  | 0, _ => .error .fuel
  | n + 1, s =>
    let r := round g t s
    if r.2 then rounds n r.1 else .ok r.1

end Loop

/-- The body of the loop over the functions in `ActiveVars::run`: what ends up in `f2avin` and
`f2avout`. -/
def run (f : Func) (fuel : Nat) : Except Fault Live :=
  let f := f.setInstrName
  rounds f.toCfg (calcDefAndUse f) fuel Live.empty

/-! ## The equations -/

/-- The two maps solve the dataflow equations. -/
structure IsFixpoint (g : Cfg) (t : Sets) (s : Live) : Prop where
  out : ∀ bb ∈ g.blocks, ∀ var,
    var ∈ s.liveOut bb ↔ ∃ suc ∈ g.succ bb, var ∈ s.liveIn suc ∧ through t bb suc var = true
  into : ∀ bb ∈ g.blocks, s.liveIn bb = inOf t (s.liveOut bb) bb

/-- Some variable that `suc` uses flows into `bb`. -/
def Feeds (t : Sets) (suc bb : BlockId) : Prop := ∃ var ∈ t.use suc, through t bb suc var = true

instance (t : Sets) (suc bb : BlockId) : Decidable (Feeds t suc bb) :=
  inferInstanceAs (Decidable (∃ var ∈ t.use suc, through t bb suc var = true))

end Cminusfc.Optimization.ActiveVars
