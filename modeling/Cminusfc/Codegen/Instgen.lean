import Cminusfc.Codegen.LinearScan
import Cminusfc.Lib.Riscv

/-!
# Printing of assembly lines

Model of `Instgen` (`instgen.cpp`) and of `Reg::get_name` (`reg.h`): a line is what its text says,
without its text. Every function checks its own assertion and then the names of its registers,
which `alts.at(id)` refuses outside `0..31`.

* The labels `.LBB<i>_<j>` differ from block to block, so a label is the block it names. `none` is
  the empty label that `bbmap[nullptr]` yields.
* `ret` and `subi` are not called and are left out.

Source: `src/codegen/instgen.cpp` 11-201, `include/codegen/reg.h` 12-59.
-/

namespace Cminusfc.Codegen

open Cminusfc.LightIR

/-- How the code generator stops without a result. -/
inductive Failure where
  | assertion
  | outOfRange
  | runtimeError (what : String)
  | undefined
  deriving Repr, DecidableEq

/-- A label of a block. -/
abbrev Label := Option BlockId

/-- A line of the output. -/
abbrev Code := Riscv.Line Reg Label

/-- `get_name` finds the register. -/
def Reg.isNamed (r : Reg) : Bool := 0 ≤ r.id && r.id ≤ 31

namespace Instgen

/-- A line whose assertion is `cond` and whose registers are `rs`. -/
def line (cond : Bool) (rs : List RegRef) (c : Code) : Except Failure Code :=
  if cond then
    if rs.all fun r => r.reg.isNamed then .ok c else .error .outOfRange
  else .error .assertion

theorem line_ok {cond : Bool} {rs : List RegRef} {c c' : Code} :
    line cond rs c = .ok c' ↔
      cond = true ∧ (∀ r ∈ rs, r.reg.isNamed = true) ∧ c' = c := by
  have hnames : (rs.all fun r => r.reg.isNamed) = true ↔ ∀ r ∈ rs, r.reg.isNamed = true :=
    List.all_eq_true
  unfold line
  split_ifs with h h'
  · exact ⟨fun e => ⟨h, hnames.mp h', (Except.ok.inj e).symm⟩, fun e => congrArg _ e.2.2.symm⟩
  · exact ⟨(nomatch ·), fun e => absurd (hnames.mpr e.2.1) h'⟩
  · exact ⟨(nomatch ·), fun e => absurd e.1 h⟩

/-- A line on three integer registers. -/
def int3 (o : Riscv.Op) (dst rs1 rs2 : RegRef) : Except Failure Code :=
  line (!dst.reg.f && !rs1.reg.f && !rs2.reg.f) [dst, rs1, rs2] (.op o dst.reg rs1.reg rs2.reg)

/-- A line on two integer registers. -/
def int2 (o : Riscv.OpOne) (dst src : RegRef) : Except Failure Code :=
  line (!dst.reg.f && !src.reg.f) [dst, src] (.opOne o dst.reg src.reg)

/-- A line on two integer registers and an immediate. -/
def intImm (o : Riscv.OpImm) (dst src : RegRef) (imm : Int) : Except Failure Code :=
  line (!dst.reg.f && !src.reg.f) [dst, src] (.opImm o dst.reg src.reg imm)

/-- A line on three floating-point registers. -/
def float3 (o : Riscv.FOp) (dst rs1 rs2 : RegRef) : Except Failure Code :=
  line (dst.reg.f && rs1.reg.f && rs2.reg.f) [dst, rs1, rs2] (.fop o dst.reg rs1.reg rs2.reg)

/-- A comparison of two floating-point registers. -/
def floatCmp (o : Riscv.FCmp) (dst rs1 rs2 : RegRef) : Except Failure Code :=
  line (!dst.reg.f && rs1.reg.f && rs2.reg.f) [dst, rs1, rs2] (.fcmp o dst.reg rs1.reg rs2.reg)

def addi (dst rs1 : RegRef) (imm : Int) : Except Failure Code :=
  line true [dst, rs1] (.opImm .addi dst.reg rs1.reg imm)

def add (dst rs1 rs2 : RegRef) : Except Failure Code :=
  line true [dst, rs1, rs2] (.op .add dst.reg rs1.reg rs2.reg)

def sd (src : RegRef) (offset : Int) (base : RegRef) : Except Failure Code :=
  line (!src.reg.f && !base.reg.f && src.d && base.d) [src, base]
    (.store .double src.reg offset base.reg)

def sw (src : RegRef) (offset : Int) (base : RegRef) : Except Failure Code :=
  line (!src.reg.f && !base.reg.f && !src.d && base.d) [src, base]
    (.store .word src.reg offset base.reg)

def ld (dst : RegRef) (offset : Int) (base : RegRef) : Except Failure Code :=
  line (!dst.reg.f && !base.reg.f && dst.d && base.d) [dst, base]
    (.load .double dst.reg offset base.reg)

def lw (dst : RegRef) (offset : Int) (base : RegRef) : Except Failure Code :=
  line (!dst.reg.f && !base.reg.f && !dst.d && base.d) [dst, base]
    (.load .word dst.reg offset base.reg)

def flw (dst : RegRef) (offset : Int) (base : RegRef) : Except Failure Code :=
  line (dst.reg.f && !base.reg.f) [dst, base] (.load .single dst.reg offset base.reg)

def fsw (src : RegRef) (offset : Int) (base : RegRef) : Except Failure Code :=
  line (src.reg.f && !base.reg.f) [src, base] (.store .single src.reg offset base.reg)

def jr (ret : RegRef) : Except Failure Code := line true [ret] (.jr ret.reg)

def call (f : String) : Except Failure Code := line true [] (.call f)

def lla (dst : RegRef) (label : String) : Except Failure Code := line true [dst] (.la dst.reg label)

def la (dst : RegRef) (var : String) : Except Failure Code := line (!dst.reg.f) [dst] (.la dst.reg var)

def lui (dst : RegRef) (imm : Int) : Except Failure Code := line (!dst.reg.f) [dst] (.lui dst.reg imm)

def mv (dst src : RegRef) : Except Failure Code := int2 .mv dst src

def seqz (dst src : RegRef) : Except Failure Code := int2 .seqz dst src

def snez (dst src : RegRef) : Except Failure Code := int2 .snez dst src

def sextw (dst src : RegRef) : Except Failure Code := int2 .sextw dst src

def sub (dst rs1 rs2 : RegRef) : Except Failure Code := int3 .sub dst rs1 rs2

def mul (dst rs1 rs2 : RegRef) : Except Failure Code := int3 .mul dst rs1 rs2

def div (dst rs1 rs2 : RegRef) : Except Failure Code := int3 .div dst rs1 rs2

def slt (dst rs1 rs2 : RegRef) : Except Failure Code := int3 .slt dst rs1 rs2

def sgt (dst rs1 rs2 : RegRef) : Except Failure Code := int3 .sgt dst rs1 rs2

def xori (dst src : RegRef) (imm : Int) : Except Failure Code := intImm .xori dst src imm

def andi (dst src : RegRef) (imm : Int) : Except Failure Code := intImm .andi dst src imm

def slli (dst src : RegRef) (n : Int) : Except Failure Code := intImm .slli dst src n

def fmvs (dst src : RegRef) : Except Failure Code :=
  line (dst.reg.f && src.reg.f) [dst, src] (.fmvs dst.reg src.reg)

def fcvtsw (dst src : RegRef) : Except Failure Code :=
  line (dst.reg.f && !src.reg.f) [dst, src] (.fcvtsw dst.reg src.reg)

def fcvtws (dst src : RegRef) : Except Failure Code :=
  line (!dst.reg.f && src.reg.f) [dst, src] (.fcvtws dst.reg src.reg)

def fadds (dst rs1 rs2 : RegRef) : Except Failure Code := float3 .fadds dst rs1 rs2

def fsubs (dst rs1 rs2 : RegRef) : Except Failure Code := float3 .fsubs dst rs1 rs2

def fmuls (dst rs1 rs2 : RegRef) : Except Failure Code := float3 .fmuls dst rs1 rs2

def fdivs (dst rs1 rs2 : RegRef) : Except Failure Code := float3 .fdivs dst rs1 rs2

def feqs (dst rs1 rs2 : RegRef) : Except Failure Code := floatCmp .feqs dst rs1 rs2

def flts (dst rs1 rs2 : RegRef) : Except Failure Code := floatCmp .flts dst rs1 rs2

def fgts (dst rs1 rs2 : RegRef) : Except Failure Code := floatCmp .fgts dst rs1 rs2

def fles (dst rs1 rs2 : RegRef) : Except Failure Code := floatCmp .fles dst rs1 rs2

def fges (dst rs1 rs2 : RegRef) : Except Failure Code := floatCmp .fges dst rs1 rs2

def bnez (cond : RegRef) (label : Label) : Except Failure Code :=
  line (!cond.reg.f) [cond] (.bnez cond.reg label)

def j (label : Label) : Except Failure Code := line true [] (.j label)

end Instgen

end Cminusfc.Codegen
