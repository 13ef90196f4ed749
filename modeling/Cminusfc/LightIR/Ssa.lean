import Cminusfc.LightIR.Exec

/-!
# SSA form

`SsaForm`: the definition of an operand dominates its use; the definition of an incoming value of a
phi dominates the end of the incoming block. A walk through the blocks gives the dynamic reading,
`Executed`: what is available at a point has been executed on the way to it
(`Available.executed`, `SsaForm.incoming_executed`).

About the blocks and operands of `include/lightir/BasicBlock.h` and `User.h`; no function of the
source checks this form.
-/

namespace Cminusfc.LightIR.Func

open Dominance

/-- `get_type`, for the values whose type does not depend on the module. -/
def typeOf (f : Func) : Value → Option Ty
  | .int32 _ => some .int32
  | .int1 _ => some .int1
  | .fp _ => some .float
  | .zero ty => some ty
  | .arg no => f.args[no]?
  | .block _ => some .label
  | .instr i => some (f.instr i).ty
  | .global _ | .function _ => none

/-- `j` stands in front of the point behind `pre` in `b`: earlier in the block or in a strict
dominator. -/
def Available (f : Func) (b : BlockId) (pre : List InstrId) (j : InstrId) : Prop :=
  j ∈ pre ∨ ∃ a ∈ f.blocks, f.StrictlyDominates a b ∧ j ∈ f.body a

/-- Definitions dominate uses. -/
structure SsaForm (f : Func) : Prop where
  operand : ∀ b ∈ f.blocks, ∀ pre i post, f.body b = pre ++ i :: post → (f.instr i).op ≠ .phi →
    ∀ j, Value.instr j ∈ (f.instr i).operands → f.Available b pre j
  incoming : ∀ b ∈ f.blocks, ∀ i ∈ f.body b, (f.instr i).op = .phi →
    ∀ j c, (Value.instr j, c) ∈ (f.instr i).phiPairs →
      ∃ a ∈ f.blocks, f.Dominates a c ∧ j ∈ f.body a

/-- `j` has been executed on the way through the blocks `p` and the instructions `pre` of the next
block. -/
def Executed (f : Func) (pre : List InstrId) (p : List BlockId) (j : InstrId) : Prop :=
  j ∈ pre ∨ ∃ q ∈ p, j ∈ f.body q

variable {f : Func} {b c : BlockId} {pre : List InstrId} {p : List BlockId} {i j : InstrId}

theorem Executed.concat : f.Executed (pre ++ [i]) p j ↔ f.Executed pre p j ∨ j = i := by
  simp only [Executed, List.mem_append, List.mem_singleton]
  exact or_right_comm

/-- Going on to the next block. -/
theorem executed_cons : f.Executed [] (b :: p) j ↔ f.Executed (f.body b) p j := by
  simp [Executed]

theorem Available.executed (h : f.Available b pre j) (hw : Walk f.Edge f.entry b (b :: p)) :
    f.Executed pre p j := by
  cases h with
  | inl h => exact Or.inl h
  | inr h =>
    obtain ⟨a, -, ⟨hdom, hne⟩, hj⟩ := h
    exact Or.inr ⟨a, (List.mem_cons.mp (hdom _ hw)).resolve_left hne, hj⟩

/-- What dominates the end of a block has been executed there. -/
theorem executed_of_dominates {a : BlockId} (h : f.Dominates a b) (hj : j ∈ f.body a)
    (hw : Walk f.Edge f.entry b (b :: p)) : f.Executed (f.body b) p j := by
  rcases List.mem_cons.mp (h _ hw) with rfl | ha
  · exact Or.inl hj
  · exact Or.inr ⟨a, ha, hj⟩

theorem SsaForm.incoming_executed (h : f.SsaForm) (hb : b ∈ f.blocks) (hi : i ∈ f.body b)
    (hop : (f.instr i).op = .phi) (hq : (Value.instr j, c) ∈ (f.instr i).phiPairs)
    (hw : Walk f.Edge f.entry c (c :: p)) : f.Executed (f.body c) p j := by
  obtain ⟨a, -, ha, hj⟩ := h.incoming b hb i hi hop j c hq
  exact executed_of_dominates ha hj hw

end Cminusfc.LightIR.Func
