import Mathlib.Data.List.Basic
import Cminusfc.Lib.Dominance

/-!
# The control-flow graph of a function

A `Function` with a body keeps its blocks in the list `basic_blocks_`, whose first element is the
entry, and every `BasicBlock` keeps the lists `pre_bbs_` and `succ_bbs_` (`BasicBlock.h`). `Cfg` is
that data and nothing else; `FlowGraph` is a `Cfg` whose two lists agree, the state in which the
IR builder leaves them.

A `BasicBlock *` is a `BlockId`. A `std::set` of pointers is enumerated by address, which no code
controls: `SetOrder` stands for any such enumeration.

Source: `include/lightir/BasicBlock.h`, lines 33-39 and 68-69. Out of scope:
`remove_pre_basic_block` and `remove_succ_basic_block`, which nothing calls.
-/

namespace Cminusfc

/-- Why a run of a pass does not return: a failed `assert`, a null pointer or an empty container
that is used, or a loop of the source that was given too little fuel. -/
inductive Fault where
  | assertion
  | undefined
  | fuel
  deriving Repr, DecidableEq

namespace LightIR

/-- A `BasicBlock *`. -/
abbrev BlockId := Nat

/-- The blocks of a function and their edges. -/
structure Cfg where
  /-- `get_entry_block`, the first of `basic_blocks_`. -/
  entry : BlockId
  /-- The blocks after the entry, in list order. -/
  rest : List BlockId
  /-- `get_pre_basic_blocks`. -/
  pre : BlockId → List BlockId
  /-- `get_succ_basic_blocks`. -/
  succ : BlockId → List BlockId

/-- `get_basic_blocks`. -/
def Cfg.blocks (g : Cfg) : List BlockId := g.entry :: g.rest

/-- The edge relation. -/
def Cfg.Edge (g : Cfg) (a b : BlockId) : Prop := b ∈ g.succ a

instance (g : Cfg) (a b : BlockId) : Decidable (g.Edge a b) :=
  inferInstanceAs (Decidable (b ∈ g.succ a))

/-- `b` is reachable from the entry. -/
def Cfg.Reach (g : Cfg) (b : BlockId) : Prop := Dominance.Reachable g.Edge g.entry b

/-- `d` dominates `b`. -/
def Cfg.Dominates (g : Cfg) (d b : BlockId) : Prop := Dominance.Dom g.Edge g.entry d b

/-- `d` strictly dominates `b`. -/
def Cfg.StrictlyDominates (g : Cfg) (d b : BlockId) : Prop := Dominance.SDom g.Edge g.entry d b

/-- A control-flow graph: the edge lists are mutually inverse and stay among the blocks. -/
structure FlowGraph extends Cfg where
  inverse : ∀ a b, b ∈ succ a ↔ a ∈ pre b
  closed : ∀ a ∈ toCfg.blocks, ∀ b ∈ succ a, b ∈ toCfg.blocks
  pre_closed : ∀ b ∈ toCfg.blocks, ∀ a ∈ pre b, a ∈ toCfg.blocks

theorem FlowGraph.reach_mem (g : FlowGraph) {b : BlockId} (h : g.Reach b) : b ∈ g.blocks := by
  obtain ⟨p, hp⟩ := h
  induction hp with
  | start => exact List.mem_cons_self
  | step _ he ih => exact g.closed _ ih _ he

/-- An enumeration of sets given as lists, standing for the address order of a `std::set`. -/
structure SetOrder (α : Type) where
  enum : List α → List α
  perm : ∀ l, (enum l).Perm l

theorem SetOrder.mem_enum {α : Type} (o : SetOrder α) {l : List α} {x : α} :
    x ∈ o.enum l ↔ x ∈ l :=
  (o.perm l).mem_iff

end LightIR

end Cminusfc
