import Cminusfc.Lib.Lockstep
import Cminusfc.LightIR.Ir

/-!
# What the IR means

A `Machine` is everything the meaning of a function depends on besides its text: the constants and
arguments, the addresses of its arrays, what the operations compute, and what the other
instructions (division, calls, loads and stores of globals and array elements) do to a `World`.
A world holds whatever can be observed: memory and the trace of calls, reads and writes.

* The cell of a scalar alloca is a slot of the frame. Only a load or a store that names the alloca
  reaches it, so it is not part of the world.
* The phis of a block are read at once, from the registers left by the block the edge comes from.
  A phi without a pair for that block takes what the oracle `arb` says.
* The instructions of a block run in list order; the block is left at the first `br` or `ret`.

The instructions are those of `include/lightir/Instruction.h`, lines 13-42; their meaning is that of
`Documentations/common/lightir.md`. Out of scope: what a float operation rounds to and what memory
looks like, which the machine says.
-/

namespace Cminusfc.LightIR

/-- The surroundings of a function. -/
structure Machine (Val World : Type) where
  /-- What a register or a slot holds before it is written. -/
  undef : Val
  /-- Constants, arguments, globals and functions. -/
  const : Value → Val
  /-- The address an alloca yields. -/
  addr : InstrId → Val
  isTrue : Val → Bool
  /-- The operations that neither touch the world nor fail. -/
  pure : OpID → CmpOp → Ty → List Val → Val
  /-- The others; `none` when the instruction traps. -/
  effect : OpID → Ty → List Val → World → Option (Val × World)

/-- The operations `Machine.pure` is about. -/
def OpID.isPure : OpID → Bool
  | .add | .sub | .mul | .fadd | .fsub | .fmul | .fdiv | .cmp | .fcmp | .getelementptr | .zext
  | .fptosi | .sitofp => true
  | _ => false

/-- Registers, slots and the world. -/
structure State (Val World : Type) where
  regs : InstrId → Val
  slots : InstrId → Val
  world : World

/-- How a run of a function ends. -/
inductive Outcome (Val World : Type) where
  | returned (v : Option Val) (w : World)
  | fault (w : World)

/-- How the execution of a block ends. -/
inductive BlockEnd (Val World : Type) where
  | jump (b : BlockId) (st : State Val World)
  | done (o : Outcome Val World)

namespace Func

/-- `v` is a scalar alloca. -/
def cell (f : Func) : Value → Option InstrId
  | .instr a =>
    if (f.instr a).op = .alloca ∧ ((f.instr a).ty.pointerElementType.map Ty.isArray) ≠ some true
    then some a else none
  | _ => none

section Semantics

variable {Val World : Type} (M : Machine Val World) (f : Func)

/-- The value of an operand. -/
def eval (st : State Val World) : Value → Val
  | .instr i => st.regs i
  | v => M.const v

/-- Write a register. -/
def setReg (st : State Val World) (i : InstrId) (v : Val) : State Val World :=
  { st with regs := Function.update st.regs i v }

/-- Write a slot. -/
def setSlot (st : State Val World) (a : InstrId) (v : Val) : State Val World :=
  { st with slots := Function.update st.slots a v }

@[simp] theorem setReg_regs (st : State Val World) (i : InstrId) (v : Val) :
    (setReg st i v).regs = Function.update st.regs i v := rfl

@[simp] theorem setReg_slots (st : State Val World) (i : InstrId) (v : Val) :
    (setReg st i v).slots = st.slots := rfl

@[simp] theorem setSlot_regs (st : State Val World) (a : InstrId) (v : Val) :
    (setSlot st a v).regs = st.regs := rfl

@[simp] theorem setSlot_slots (st : State Val World) (a : InstrId) (v : Val) :
    (setSlot st a v).slots = Function.update st.slots a v := rfl

/-- An instruction that reaches beyond the frame. -/
def execEffect (i : InstrId) (st : State Val World) : Option (State Val World) :=
  let x := f.instr i
  (M.effect x.op x.ty (x.operands.map (eval M st)) st.world).map fun r =>
    { setReg st i r.1 with world := r.2 }

/-- One instruction other than `br` and `ret`. -/
def execInstr (i : InstrId) (st : State Val World) : Option (State Val World) :=
  let x := f.instr i
  match x.op with
  | .phi => some st
  | .alloca => some (setReg st i (M.addr i))
  | .load =>
    match x.operands.head?.bind f.cell with
    | some a => some (setReg st i (st.slots a))
    | none => f.execEffect M i st
  | .store =>
    match x.operands with
    | [v, l] =>
      match f.cell l with
      | some a => some (setSlot st a (eval M st v))
      | none => f.execEffect M i st
    | _ => f.execEffect M i st
  | op =>
    if op.isPure then some (setReg st i (M.pure op x.cmpOp x.ty (x.operands.map (eval M st))))
    else f.execEffect M i st

/-- A `br` or a `ret`. -/
def execTerminator (x : Instr) (st : State Val World) : BlockEnd Val World :=
  if x.op = .ret then .done (.returned (x.operands.head?.map (eval M st)) st.world)
  else
    match x.operands with
    | [t] =>
      match t.asBlock with
      | some b => .jump b st
      | none => .done (.fault st.world)
    | [c, t, e] =>
      match t.asBlock, e.asBlock with
      | some t, some e => .jump (if M.isTrue (eval M st c) then t else e) st
      | _, _ => .done (.fault st.world)
    | _ => .done (.fault st.world)

/-- The instructions of a block from some point on. -/
def execBody : List InstrId → State Val World → BlockEnd Val World
  | [], st => .done (.fault st.world)
  | i :: is, st =>
    if (f.instr i).isTerminator then execTerminator M (f.instr i) st
    else
      match f.execInstr M i st with
      | some st' => execBody is st'
      | none => .done (.fault st.world)

variable {M f}

theorem execBody_terminator {i : InstrId} (h : (f.instr i).isTerminator = true)
    (is : List InstrId) (st : State Val World) :
    f.execBody M (i :: is) st = execTerminator M (f.instr i) st := by
  simp [execBody, h]

theorem execBody_some {i : InstrId} {st st' : State Val World}
    (h : (f.instr i).isTerminator = false) (hi : f.execInstr M i st = some st')
    (is : List InstrId) : f.execBody M (i :: is) st = f.execBody M is st' := by
  simp [execBody, h, hi]

theorem execBody_none {i : InstrId} {st : State Val World}
    (h : (f.instr i).isTerminator = false) (hi : f.execInstr M i st = none)
    (is : List InstrId) : f.execBody M (i :: is) st = .done (.fault st.world) := by
  simp [execBody, h, hi]

theorem execInstr_phi {i : InstrId} (h : (f.instr i).op = .phi) (st : State Val World) :
    f.execInstr M i st = some st := by
  simp [execInstr, h]

theorem execInstr_alloca {i : InstrId} (h : (f.instr i).op = .alloca) (st : State Val World) :
    f.execInstr M i st = some (setReg st i (M.addr i)) := by
  simp [execInstr, h]

theorem execInstr_load {i a : InstrId} {v : Value} (h : (f.instr i).op = .load)
    (ho : (f.instr i).operands = [v]) (hv : f.cell v = some a) (st : State Val World) :
    f.execInstr M i st = some (setReg st i (st.slots a)) := by
  simp [execInstr, h, ho, hv]

theorem execInstr_store {i a : InstrId} {v l : Value} (h : (f.instr i).op = .store)
    (ho : (f.instr i).operands = [v, l]) (hl : f.cell l = some a) (st : State Val World) :
    f.execInstr M i st = some (setSlot st a (eval M st v)) := by
  simp [execInstr, h, ho, hl]

theorem cell_some {v : Value} {a : InstrId} (h : f.cell v = some a) : v = .instr a := by
  cases v <;> simp_all [cell]

theorem cell_op {v : Value} {a : InstrId} (h : f.cell v = some a) : (f.instr a).op = .alloca := by
  obtain rfl := cell_some h
  by_contra hop
  simp [cell, hop] at h

variable (M f)

/-- What the phi `i` reads along the edge from `pred`. -/
def phiValue (arb : InstrId → Val) (pred : Option BlockId) (st : State Val World) (i : InstrId) :
    Val :=
  match (f.instr i).phiPairs.find? fun p => some p.2 = pred with
  | some p => eval M st p.1
  | none => arb i

/-- Enter `b` along the edge from `pred`: all its phis are read at once. -/
def enter (arb : InstrId → Val) (pred : Option BlockId) (b : BlockId) (st : State Val World) :
    State Val World :=
  { st with regs := fun i =>
      if i ∈ f.body b ∧ (f.instr i).op = .phi then f.phiValue M arb pred st i else st.regs i }

/-- Where a run stands: in front of a block, with the block it comes from. -/
structure Config (Val World : Type) where
  pred : Option BlockId
  block : BlockId
  st : State Val World

/-- The execution of one block; `arb k` is the oracle of the `k`-th. -/
def stepBlock (arb : Nat → InstrId → Val) (k : Nat) (c : Config Val World) :
    Config Val World ⊕ Outcome Val World :=
  match f.execBody M (f.body c.block) (f.enter M (arb k) c.pred c.block c.st) with
  | .jump b st => .inl ⟨some c.block, b, st⟩
  | .done o => .inr o

/-- The start of a run. -/
def start (w : World) : Config Val World :=
  ⟨none, f.entry, ⟨fun _ => M.undef, fun _ => M.undef, w⟩⟩

/-- What can be seen of a run after `n` blocks: the world, and the outcome once there is one. -/
def observe (arb : Nat → InstrId → Val) (w : World) (n : Nat) : World ⊕ Outcome Val World :=
  (Lockstep.run (f.stepBlock M arb) 0 n (f.start M w)).map (fun c => c.st.world) id

end Semantics

section Matched

variable {Val World : Type} {M : Machine Val World} {f : Func}

theorem execEffect_eq (i : InstrId) (st : State Val World) :
    f.execEffect M i st =
      (M.effect (f.instr i).op (f.instr i).ty ((f.instr i).operands.map (eval M st)) st.world).map
        fun r => { setReg st i r.1 with world := r.2 } := rfl

/-- What one instruction does to corresponding states. -/
inductive Matched (M : Machine Val World) (f g : Func) (i : InstrId) (c d : State Val World) : Prop
  | fault (hf : f.execInstr M i c = none) (hg : g.execInstr M i d = none)
  | reg (v : Val) (w : World) (hf : f.execInstr M i c = some { setReg c i v with world := w })
      (hg : g.execInstr M i d = some { setReg d i v with world := w })
  | slot (a : InstrId) (v : Val) (l : Value) (hl : l ∈ (f.instr i).operands)
      (ha : f.cell l = some a) (hf : f.execInstr M i c = some (setSlot c a v))
      (hg : g.execInstr M i d = some (setSlot d a v))

variable {g : Func} {i : InstrId} {c d : State Val World}

theorem matched_effect (hop : (g.instr i).op = (f.instr i).op) (hty : (g.instr i).ty = (f.instr i).ty)
    (hargs : (g.instr i).operands.map (eval M d) = (f.instr i).operands.map (eval M c))
    (hw : d.world = c.world)
    (hf : f.execInstr M i c = f.execEffect M i c) (hg : g.execInstr M i d = g.execEffect M i d) :
    Matched M f g i c d := by
  rw [execEffect_eq] at hf hg
  rw [hop, hty, hargs, hw] at hg
  cases he : M.effect (f.instr i).op (f.instr i).ty ((f.instr i).operands.map (eval M c)) c.world with
  | none =>
    rw [he] at hf hg
    exact .fault hf hg
  | some r =>
    rw [he] at hf hg
    exact .reg r.1 r.2 hf hg

/-- **Corresponding states take an instruction alike**, when its operands have the same values and
name the same cells. -/
theorem execInstr_matched (hop : (g.instr i).op = (f.instr i).op)
    (hcmp : (g.instr i).cmpOp = (f.instr i).cmpOp) (hty : (g.instr i).ty = (f.instr i).ty)
    (hargs : (g.instr i).operands.map (eval M d) = (f.instr i).operands.map (eval M c))
    (hcells : (g.instr i).operands.map g.cell = (f.instr i).operands.map f.cell)
    (hslots : ∀ l ∈ (f.instr i).operands, ∀ a, f.cell l = some a → d.slots a = c.slots a)
    (hw : d.world = c.world) (hphi : (f.instr i).op ≠ .phi) : Matched M f g i c d := by
  have hreg : ∀ v, f.execInstr M i c = some (setReg c i v) → g.execInstr M i d = some (setReg d i v) →
      Matched M f g i c d := by
    intro v hf hg
    refine .reg v c.world hf ?_
    rw [hg]
    simp [setReg, hw]
  have heffect := matched_effect hop hty hargs hw
  cases hkind : (f.instr i).op with
  | phi => exact absurd hkind hphi
  | alloca => exact hreg (M.addr i) (execInstr_alloca hkind c) (execInstr_alloca (hop.trans hkind) d)
  | load =>
    have hhead : (g.instr i).operands.head?.bind g.cell = (f.instr i).operands.head?.bind f.cell := by
      have := congrArg List.head? hcells
      rw [List.head?_map, List.head?_map] at this
      cases hg : (g.instr i).operands.head? <;> cases hf : (f.instr i).operands.head? <;>
        simp_all
    cases hcell : (f.instr i).operands.head?.bind f.cell with
    | none =>
      refine heffect ?_ ?_
      · simp [execInstr, hkind, hcell]
      · simp [execInstr, hop, hkind, hhead, hcell]
    | some a =>
      obtain ⟨l, hl, hla⟩ := Option.bind_eq_some_iff.mp hcell
      have hslot := hslots l (List.mem_of_mem_head? hl) a hla
      refine hreg (c.slots a) ?_ ?_
      · simp [execInstr, hkind, hcell]
      · simp [execInstr, hop, hkind, hhead, hcell, hslot]
  | store =>
    match hfo : (f.instr i).operands, hgo : (g.instr i).operands with
    | [v, l], [v', l'] =>
      rw [hfo, hgo] at hargs hcells
      simp only [List.map_cons, List.map_nil, List.cons.injEq, and_true] at hargs hcells
      cases hcell : f.cell l with
      | none =>
        refine heffect ?_ ?_
        · simp [execInstr, hkind, hfo, hcell]
        · simp [execInstr, hop, hkind, hgo, hcells.2, hcell]
      | some a =>
        refine .slot a (eval M c v) l (by simp [hfo]) hcell ?_ ?_
        · simp [execInstr, hkind, hfo, hcell]
        · simp [execInstr, hop, hkind, hgo, hcells.2, hcell, hargs.1]
    | [], [] | [_], [_] | _ :: _ :: _ :: _, _ :: _ :: _ :: _ =>
      refine heffect ?_ ?_
      · simp [execInstr, hkind, hfo]
      · simp [execInstr, hop, hkind, hgo]
    | [], _ :: _ | _ :: _, [] | [_], _ :: _ :: _ | _ :: _ :: _, [_] | [_, _], _ :: _ :: _ :: _
    | _ :: _ :: _ :: _, [_, _] =>
      rw [hfo, hgo] at hargs
      simp at hargs
  | add | sub | mul | fadd | fsub | fmul | fdiv | cmp | fcmp | getelementptr | zext | fptosi | sitofp =>
    refine hreg _ (by simp [execInstr, hkind, OpID.isPure]; rfl) ?_
    simp [execInstr, hop, hkind, OpID.isPure, hcmp, hty, hargs]
  | sdiv | call | ret | br =>
    refine heffect ?_ ?_
    · simp [execInstr, hkind, OpID.isPure]
    · simp [execInstr, hop, hkind, OpID.isPure]

/-- **Corresponding states leave a block alike**, when the operands of the terminator have the same
values and are the same blocks. -/
theorem execTerminator_matched {x y : Instr} (hx : x.isTerminator = true) (hop : y.op = x.op)
    (hargs : y.operands.map (eval M d) = x.operands.map (eval M c))
    (hblocks : y.operands.map Value.asBlock = x.operands.map Value.asBlock)
    (hw : d.world = c.world) :
    (∃ o, execTerminator M x c = .done o ∧ execTerminator M y d = .done o) ∨
      ∃ t ∈ x.targets, execTerminator M x c = .jump t c ∧ execTerminator M y d = .jump t d := by
  by_cases hret : x.op = .ret
  · refine Or.inl ⟨.returned (x.operands.head?.map (eval M c)) c.world, by simp [execTerminator, hret], ?_⟩
    have hhead := congrArg List.head? hargs
    rw [List.head?_map, List.head?_map] at hhead
    simp [execTerminator, hop, hret, hhead, hw]
  · have hbr : x.op = .br := by
      simp only [Instr.isTerminator, Bool.or_eq_true, decide_eq_true_eq] at hx
      exact hx.resolve_right hret
    have hlen := congrArg List.length hargs
    rw [List.length_map, List.length_map] at hlen
    match hxo : x.operands, hyo : y.operands with
    | [t], [t'] =>
      rw [hxo, hyo] at hblocks
      simp only [List.map_cons, List.map_nil, List.cons.injEq, and_true] at hblocks
      cases ht : t.asBlock with
      | none => exact Or.inl ⟨.fault c.world, by simp [execTerminator, hbr, hxo, ht],
          by simp [execTerminator, hop, hbr, hyo, hblocks, ht, hw]⟩
      | some b => exact Or.inr ⟨b, by simp [Instr.targets, hbr, hxo, ht],
          by simp [execTerminator, hbr, hxo, ht],
          by simp [execTerminator, hop, hbr, hyo, hblocks, ht]⟩
    | [v, t, e], [v', t', e'] =>
      rw [hxo, hyo] at hblocks hargs
      simp only [List.map_cons, List.map_nil, List.cons.injEq, and_true] at hblocks hargs
      cases ht : t.asBlock with
      | none => exact Or.inl ⟨.fault c.world, by simp [execTerminator, hbr, hxo, ht],
          by simp [execTerminator, hop, hbr, hyo, hblocks, ht, hw]⟩
      | some b =>
        cases he : e.asBlock with
        | none => exact Or.inl ⟨.fault c.world, by simp [execTerminator, hbr, hxo, ht, he],
            by simp [execTerminator, hop, hbr, hyo, hblocks, ht, he, hw]⟩
        | some b' =>
          refine Or.inr ⟨if M.isTrue (eval M c v) then b else b', ?_,
            by simp [execTerminator, hbr, hxo, ht, he],
            by simp [execTerminator, hop, hbr, hyo, hblocks, ht, he, hargs]⟩
          simp only [Instr.targets, hbr, hxo, if_true, List.mem_filterMap]
          split
          · exact ⟨t, by simp, ht⟩
          · exact ⟨e, by simp, he⟩
    | [], [] | [_, _], [_, _] | _ :: _ :: _ :: _ :: _, _ :: _ :: _ :: _ :: _ =>
      exact Or.inl ⟨.fault c.world, by simp [execTerminator, hbr, hxo],
        by simp [execTerminator, hop, hbr, hyo, hw]⟩
    | [], _ :: _ | _ :: _, [] | [_], _ :: _ :: _ | _ :: _ :: _, [_] | [_, _], _ :: _ :: _ :: _
    | _ :: _ :: _ :: _, [_, _] | [_, _, _], _ :: _ :: _ :: _ :: _
    | _ :: _ :: _ :: _ :: _, [_, _, _] =>
      rw [hxo, hyo] at hlen
      simp at hlen

end Matched

end Func

end Cminusfc.LightIR
