import Cminusfc.LightIR.Ir

/-!
# Elimination of phis

Model of `PhiElim::run` in `phi_elim.cpp`, for one function: every phi gets an alloca in the entry
block, a load in its place, and a store of each incoming value in front of the terminator of the
block the value comes from.

`phi2alloca` is a map keyed by pointers; the loop over it takes an order `ord`.

Source: `src/codegen/phi_elim.cpp` 15-60.
-/

namespace Cminusfc.Codegen.PhiElim

open Cminusfc.LightIR

/-- The function, and `phi2alloca` in the order of its insertions. -/
structure St where
  f : Func
  phi2alloca : List (InstrId × InstrId)

/-- `instr->is_phi()`. -/
def isPhi (f : Func) (i : InstrId) : Bool := (f.instr i).op = .phi

/-- `AllocaInst::create_alloca(phi->get_type(), entry)` and the insertion into `phi2alloca`. -/
def createAlloca (entry : BlockId) (s : St) (phi : InstrId) : St :=
  let alloca := s.f.next
  let x : Instr :=
    { op := .alloca, ty := .pointer (s.f.instr phi).ty, operands := [], parent := entry }
  ⟨(s.f.newInstr x).addInstruction entry alloca, s.phi2alloca ++ [(phi, alloca)]⟩

/-- The body of the loop over `its`: a load takes the place of the phi, in the list and in the
operands that use it. -/
def replacePhi (bb : BlockId) (s : St) (phi : InstrId) : St :=
  match s.phi2alloca.lookup phi with
  | none => s
  | some alloca =>
    let load := s.f.next
    let x : Instr :=
      { op := .load, ty := (s.f.instr phi).ty, operands := [.instr alloca], parent := bb }
    let f := (s.f.newInstr x).replaceAllUseWith (.instr phi) (.instr load)
    { s with f := f.setBody bb ((f.body bb).map fun i => if i = phi then load else i) }

/-- The body of the loop over the blocks. -/
def visitBlock (entry : BlockId) (s : St) (bb : BlockId) : St :=
  let its := (s.f.body bb).filter (isPhi s.f)
  its.foldl (replacePhi bb) (its.foldl (createAlloca entry) s)

/-- The body of the loop over the pairs of a phi: `alloca` takes the value at the end of `bb`. -/
def storePair (alloca : InstrId) (f : Func) (p : Value × BlockId) : Except Fault Func :=
  match f.terminator p.2 with
  | none => .error .undefined
  | some bbTerm =>
    let f := f.deleteInstr p.2 bbTerm
    let x : Instr :=
      { op := .store, ty := .void, operands := [p.1, .instr alloca], parent := p.2 }
    .ok (((f.newInstr x).addInstruction p.2 f.next).addInstruction p.2 bbTerm)

/-- The body of the loop over `phi2alloca`. -/
def storePhi (f : Func) (p : InstrId × InstrId) : Except Fault Func :=
  (f.instr p.1).phiPairs.foldlM (storePair p.2) f

/-- `PhiElim::run` for one function. -/
def run (ord : SetOrder (InstrId × InstrId)) (f : Func) : Except Fault Func :=
  match f.terminator f.entry with
  | none => .error .undefined
  | some entryTerminator =>
    let s := f.blocks.foldl (visitBlock f.entry) ⟨f.deleteInstr f.entry entryTerminator, []⟩
    (ord.enum s.phi2alloca).foldlM storePhi (s.f.addInstruction f.entry entryTerminator)

end Cminusfc.Codegen.PhiElim
