import Mathlib.Tactic.FinCases
import Cminusfc.LightIR.UseLists
import Cminusfc.Optimization.ConstFold

/-!
# Folding constants preserves the meaning of a function

**`folding_preserves`**: a function over `i32` and `i1` in SSA form does the same to the world block by
block and ends alike before and after `ConstPropagation::run`, in any module; and no instruction
that stays has an operand that went.

`Sim` relates the two frames at a point of the way through the blocks: all registers but those of
the folded instructions are equal, and in the original a folded instruction that has been executed
holds its constant. The deleted instruction is a step of the original alone (`Sim.deleted`); any
other reads equal operands, because its definition has been executed (`Sim.eval`).

About `src/optimization/ConstPropagation.cpp` 7-30, 67-96 and 147-234. Out of scope: floats, loads
and stores.
-/

namespace Cminusfc.Optimization.ConstPropagation

open Cminusfc.LightIR Dominance

/-! ## Arithmetic -/

/-- What a comparison says of two integers. -/
def holds (op : CmpOp) (a b : Int) : Bool :=
  match op with
  | .EQ => a = b
  | .NE => a ≠ b
  | .GT => b < a
  | .GE => b ≤ a
  | .LT => a < b
  | .LE => a ≤ b

theorem compare_eq (op : CmpOp) (a b : BitVec 32) : compare op a b = holds op a.toInt b.toInt := by
  cases op with
  | EQ => simp [compare, holds, BitVec.toInt_inj, Bool.beq_eq_decide_eq]
  | NE => simp [compare, holds, BitVec.toInt_inj]; rfl
  | _ => rfl

/-- The machine computes with 32-bit integers; where `f` compares truth values, they count as 0
and 1. -/
structure Arithmetic {Val World : Type} (M : Machine Val World) (f : Func) : Prop where
  add : ∀ c a b, M.pure .add c .int32 [M.const (.int32 a), M.const (.int32 b)] =
    M.const (.int32 (a + b))
  sub : ∀ c a b, M.pure .sub c .int32 [M.const (.int32 a), M.const (.int32 b)] =
    M.const (.int32 (a - b))
  mul : ∀ c a b, M.pure .mul c .int32 [M.const (.int32 a), M.const (.int32 b)] =
    M.const (.int32 (a * b))
  cmp : ∀ (c : CmpOp) (a b : BitVec 32), M.pure .cmp c .int1 [M.const (.int32 a), M.const (.int32 b)] =
    M.const (.int1 (holds c a.toInt b.toInt))
  cmp1 : ∀ i ∈ f.instrs, (f.instr i).op = .cmp →
    (f.instr i).operands.map f.typeOf = [some .int1, some .int1] → ∀ a b : Bool,
    M.pure .cmp (f.instr i).cmpOp .int1 [M.const (.int1 a), M.const (.int1 b)] =
      M.const (.int1 (holds (f.instr i).cmpOp a.toInt b.toInt))

variable {f g : Func} {cst : InstrId → Option Value} {x : Instr} {l : List Value} {v w a : Value}
  {i j u : InstrId} {b t : BlockId} {p : List BlockId} {pre post : List InstrId}
  {Val World : Type} {M : Machine Val World} {c d : State Val World}

theorem boolValue_toInt (a : Bool) : (boolValue a).toInt = a.toInt := by
  cases a <;> rfl

/-- Where an instruction folds, the machine computes the same constant. -/
theorem FoldsTo.pure_eq (h : FoldsTo (f.instr i) ((f.instr i).operands.map (subst cst)) v)
    (hf : Folding f cst g) (hin : Input f) (hi : i ∈ f.instrs) (hM : Arithmetic M f) :
    (f.instr i).op.isPure = true ∧
      M.pure (f.instr i).op (f.instr i).cmpOp (f.instr i).ty
        (((f.instr i).operands.map (subst cst)).map M.const) = M.const v := by
  obtain ⟨harith, hcmp⟩ := hin.typed i hi
  generalize hl : (f.instr i).operands.map (subst cst) = l at h
  cases h with
  | @binary a b v hop hv =>
    rw [(harith hop).1]
    rcases hop with hop | hop | hop <;> rw [hop] at hv ⊢ <;> cases hv
    · exact ⟨rfl, hM.add _ a b⟩
    · exact ⟨rfl, hM.sub _ a b⟩
    · exact ⟨rfl, hM.mul _ a b⟩
  | @compare a b hop =>
    rw [(hcmp hop).1, hop, compare_eq]
    exact ⟨rfl, hM.cmp _ a b⟩
  | @compare1 a b hop =>
    rw [(hcmp hop).1, compare_eq, boolValue_toInt, boolValue_toInt]
    refine ⟨by rw [hop]; rfl, ?_⟩
    rw [hop]
    refine hM.cmp1 i hi hop ?_ a b
    have htypes : ((f.instr i).operands.map (subst cst)).map f.typeOf =
        (f.instr i).operands.map f.typeOf := by
      rw [List.map_map]
      exact List.map_congr_left fun a _ => hf.typeOf_subst hin a
    rw [← htypes, hl]
    rfl

/-! ## The relation -/

/-- The frames of `f` and of the result behind the instructions `pre` of a block, with the blocks `p`
behind them. -/
structure Sim (M : Machine Val World) (f : Func) (cst : InstrId → Option Value)
    (pre : List InstrId) (p : List BlockId) (c d : State Val World) : Prop where
  world : d.world = c.world
  slots : d.slots = c.slots
  regs : ∀ i, cst i = none → d.regs i = c.regs i
  folded : ∀ i v, cst i = some v → f.Executed pre p i → c.regs i = M.const v

theorem eval_const (h : (castConstantInt v).isSome = true) : Func.eval M c v = M.const v := by
  cases v with
  | instr i => cases h
  | _ => rfl

section Step

variable (h : Folded f cst g) (hin : Input f)
include h

theorem Folded.blocks_eq : g.blocks = f.blocks := by
  unfold Cfg.blocks
  rw [h.cfg]

/-- An operand whose definition has been executed. -/
theorem Sim.eval (hs : Sim M f cst pre p c d) (ha : ∀ j, a = .instr j → f.Executed pre p j) :
    Func.eval M d (subst cst a) = Func.eval M c a := by
  cases a with
  | instr j =>
    cases hc : cst j with
    | none =>
      simp only [subst, hc, Option.getD_none]
      exact hs.regs j hc
    | some v =>
      simp only [subst, hc, Option.getD_some]
      rw [eval_const (h.folded j v hc).2.const]
      exact (hs.folded j v hc (ha j rfl)).symm
  | _ => rfl

theorem Folded.phiPairs_eq (hi : i ∈ f.instrs) :
    (g.instr i).phiPairs = (f.instr i).phiPairs.map fun q => (subst cst q.1, q.2) := by
  have hgen : ∀ l : List Value, Instr.pairsOf (l.map (subst cst)) =
      (Instr.pairsOf l).map fun q => (subst cst q.1, q.2) := by
    intro l
    induction l using Instr.pairsOf.induct with
    | case1 v b rest ih => simp [Instr.pairsOf, subst, ih]
    | case2 l hl =>
      have hnone : Instr.pairsOf l = [] := by
        unfold Instr.pairsOf
        split
        · exact (hl _ _ _ rfl).elim
        · rfl
      rw [hnone]
      unfold Instr.pairsOf
      split
      · rename_i v b rest hmap
        obtain ⟨v', l', rfl, -, hl'⟩ := List.map_eq_cons_iff.mp hmap
        obtain ⟨b', rest', rfl, hb', -⟩ := List.map_eq_cons_iff.mp hl'
        cases b' with
        | block c => exact (hl _ _ _ rfl).elim
        | instr k =>
          cases hc : cst k with
          | none => simp [subst, hc] at hb'
          | some w =>
            have hconst := (h.folded k w hc).2.const
            simp only [subst, hc, Option.getD_some] at hb'
            subst hb'
            cases hconst
        | _ => cases hb'
      · rfl
  show Instr.pairsOf (g.instr i).operands = _
  rw [h.instr i hi, hgen]
  rfl

include hin

/-- The folded instruction: a step of the original alone. -/
theorem Sim.deleted (hM : Arithmetic M f) (hs : Sim M f cst pre p c d) (hi : i ∈ f.instrs)
    (hv : cst i = some v) (hops : ∀ j, Value.instr j ∈ (f.instr i).operands → f.Executed pre p j) :
    ∃ c', f.execInstr M i c = some c' ∧ Sim M f cst (pre ++ [i]) p c' d := by
  obtain ⟨-, hf⟩ := h.folded i v hv
  obtain ⟨hpure, hval⟩ := hf.pure_eq h.toFolding hin hi hM
  have hargs : (f.instr i).operands.map (Func.eval M c) =
      ((f.instr i).operands.map (subst cst)).map M.const := by
    rw [List.map_map]
    refine List.map_congr_left fun a ha => ?_
    have hconst := hf.operand_const (List.mem_map_of_mem (f := subst cst) ha)
    rw [← hs.eval h (fun j hj => hops j (hj ▸ ha)), eval_const hconst]
    rfl
  refine ⟨Func.setReg c i (M.const v), ?_, ⟨hs.world, hs.slots, fun j hj => ?_, fun j w hj hex => ?_⟩⟩
  · rw [← hval, ← hargs]
    rcases hf.op with hop | hop | hop | hop <;> simp [Func.execInstr, hop, OpID.isPure]
  · have hji : j ≠ i := by
      rintro rfl
      rw [hv] at hj
      cases hj
    rw [Func.setReg_regs, Function.update_of_ne hji]
    exact hs.regs j hj
  · rw [Func.setReg_regs]
    by_cases hji : j = i
    · subst hji
      rw [hv] at hj
      cases hj
      exact Function.update_self _ _ _
    · rw [Function.update_of_ne hji]
      exact hs.folded j w hj ((Func.Executed.concat.mp hex).resolve_right hji)

omit h in
/-- The way to a point leads through instructions of the function. -/
theorem Input.executed_mem (hb : b ∈ f.blocks) (hbody : f.body b = pre ++ post)
    (hw : Walk f.Edge f.entry b (b :: p)) (hj : f.Executed pre p j) : j ∈ f.instrs := by
  cases hj with
  | inl hj => exact Func.mem_instrs hb (by rw [hbody]; exact List.mem_append_left _ hj)
  | inr hj =>
    obtain ⟨q, hq, hj⟩ := hj
    obtain ⟨r, hr⟩ := hw.reachable_mem (List.mem_cons_of_mem _ hq)
    have hmem : q ∈ f.blocks := by
      clear hj hq
      induction hr with
      | start => exact List.mem_cons_self
      | step _ he ih => exact hin.closed _ ih _ he
    exact Func.mem_instrs hmem hj

/-- An operand names no cell, before and after. -/
theorem Folded.cell_eq (ha : ∀ j, a = .instr j → j ∈ f.instrs) :
    f.cell a = none ∧ g.cell (subst cst a) = none := by
  cases a with
  | instr j =>
    have hj := ha j rfl
    have hne : (f.instr j).op ≠ .alloca := by
      intro hop
      have := hin.ops j hj
      rw [hop] at this
      cases this
    have hop : (g.instr j).op = (f.instr j).op := by rw [h.instr j hj]
    refine ⟨by simp [Func.cell, hne], ?_⟩
    cases hc : cst j with
    | none => simp [subst, hc, Func.cell, hop, hne]
    | some v =>
      have hconst := (h.folded j v hc).2.const
      simp only [subst, hc, Option.getD_some]
      cases v <;> first | rfl | cases hconst
  | _ => exact ⟨rfl, rfl⟩

omit h hin in
/-- A write to a register that is not folded, in both frames. -/
theorem Sim.setReg (hs : Sim M f cst pre p c d) (hi : cst i = none) (v : Val) (w : World) :
    Sim M f cst (pre ++ [i]) p { Func.setReg c i v with world := w }
      { Func.setReg d i v with world := w } where
  world := rfl
  slots := hs.slots
  regs j hj := by
    show Function.update d.regs i v j = Function.update c.regs i v j
    by_cases hji : j = i
    · subst hji
      rw [Function.update_self, Function.update_self]
    · rw [Function.update_of_ne hji, Function.update_of_ne hji]
      exact hs.regs j hj
  folded j w hj hex := by
    have hji : j ≠ i := by
      rintro rfl
      rw [hi] at hj
      cases hj
    show Function.update c.regs i v j = _
    rw [Function.update_of_ne hji]
    exact hs.folded j w hj ((Func.Executed.concat.mp hex).resolve_right hji)

/-- An instruction that stays: both frames take it alike. -/
theorem Sim.kept (hs : Sim M f cst pre p c d) (hi : i ∈ f.instrs) (hnone : cst i = none)
    (hops : (f.instr i).op ≠ .phi → ∀ j, Value.instr j ∈ (f.instr i).operands →
      f.Executed pre p j ∧ j ∈ f.instrs) :
    (f.execInstr M i c = none ∧ g.execInstr M i d = none) ∨
      ∃ c' d', f.execInstr M i c = some c' ∧ g.execInstr M i d = some d' ∧
        Sim M f cst (pre ++ [i]) p c' d' := by
  have hx := h.instr i hi
  by_cases hphi : (f.instr i).op = .phi
  · refine Or.inr ⟨c, d, Func.execInstr_phi hphi c, Func.execInstr_phi (by rw [hx]; exact hphi) d,
      hs.world, hs.slots, hs.regs, fun j w hj hex => ?_⟩
    have hji : j ≠ i := by
      rintro rfl
      rw [hnone] at hj
      cases hj
    exact hs.folded j w hj ((Func.Executed.concat.mp hex).resolve_right hji)
  · have hcell : ∀ a ∈ (f.instr i).operands, f.cell a = none ∧ g.cell (subst cst a) = none :=
      fun a ha => h.cell_eq hin fun j hj => (hops hphi j (hj ▸ ha)).2
    have hmatch := Func.execInstr_matched (M := M) (f := f) (g := g) (i := i) (c := c) (d := d)
      (by rw [hx]) (by rw [hx]) (by rw [hx])
      (by
        rw [hx, List.map_map]
        exact List.map_congr_left fun a ha => hs.eval h fun j hj => (hops hphi j (hj ▸ ha)).1)
      (by
        rw [hx, List.map_map]
        exact List.map_congr_left fun a ha => (hcell a ha).2.trans (hcell a ha).1.symm)
      (fun l hl a ha => by
        rw [(hcell l hl).1] at ha
        cases ha)
      hs.world hphi
    cases hmatch with
    | fault hf hg => exact Or.inl ⟨hf, hg⟩
    | reg v w hf hg => exact Or.inr ⟨_, _, hf, hg, hs.setReg hnone v w⟩
    | slot a v l hl ha =>
      rw [(hcell l hl).1] at ha
      cases ha

/-- The instructions of a block, up to the rest `post` of it. -/
theorem Sim.block (hM : Arithmetic M f) (hb : b ∈ f.blocks) (hw : Walk f.Edge f.entry b (b :: p))
    (post : List InstrId) : ∀ (is pre : List InstrId) (c d : State Val World),
      f.body b = pre ++ (is ++ post) → (∀ i ∈ is, (f.instr i).isTerminator = false) →
      Sim M f cst pre p c d →
      (∃ w, f.execBody M (is ++ post) c = .done (.fault w) ∧
        g.execBody M ((is.filter fun i => (cst i).isNone) ++ post) d = .done (.fault w)) ∨
      ∃ c' d', f.execBody M (is ++ post) c = f.execBody M post c' ∧
        g.execBody M ((is.filter fun i => (cst i).isNone) ++ post) d = g.execBody M post d' ∧
        Sim M f cst (pre ++ is) p c' d' := by
  intro is
  induction is with
  | nil => exact fun pre c d _ _ hs => Or.inr ⟨c, d, rfl, rfl, by simpa using hs⟩
  | cons i is ih =>
    intro pre c d hbody hterm hs
    have hnext : f.body b = (pre ++ [i]) ++ (is ++ post) := by
      rw [hbody, List.append_assoc, List.singleton_append, List.cons_append]
    have hi : i ∈ f.instrs := Func.mem_instrs hb (by rw [hbody]; simp)
    have hti := hterm i List.mem_cons_self
    have hrest := fun c d hs' => ih (pre ++ [i]) c d hnext
      (fun j hj => hterm j (List.mem_cons_of_mem _ hj)) hs'
    have hops : (f.instr i).op ≠ .phi → ∀ j, Value.instr j ∈ (f.instr i).operands →
        f.Executed pre p j ∧ j ∈ f.instrs := by
      intro hphi j hj
      have hex := (hin.ssa.operand b hb pre i (is ++ post) hbody hphi j hj).executed hw
      exact ⟨hex, hin.executed_mem hb hbody hw hex⟩
    cases hc : cst i with
    | some v =>
      have hphi : (f.instr i).op ≠ .phi := by
        intro hop
        have := (h.folded i v hc).2.op
        rw [hop] at this
        simp at this
      obtain ⟨c', hc', hs'⟩ := hs.deleted h hin hM hi hc fun j hj => (hops hphi j hj).1
      rw [List.filter_cons_of_neg (by simp [hc]), List.cons_append, Func.execBody_some hti hc']
      simpa using hrest c' d hs'
    | none =>
      have htg : (g.instr i).isTerminator = false := by
        rw [h.instr i hi]
        exact hti
      rw [List.filter_cons_of_pos (by simp [hc]), List.cons_append, List.cons_append]
      rcases hs.kept h hin hi hc hops with ⟨hf, hg⟩ | ⟨c', d', hf, hg, hs'⟩
      · rw [Func.execBody_none hti hf, Func.execBody_none htg hg, hs.world]
        exact Or.inl ⟨_, rfl, rfl⟩
      · rw [Func.execBody_some hti hf, Func.execBody_some htg hg]
        simpa using hrest c' d' hs'

theorem Folded.termOf_stays (hb : b ∈ f.blocks) : cst (f.termOf b) = none := by
  by_contra hne
  obtain ⟨v, hv⟩ := Option.ne_none_iff_exists'.mp hne
  have hop := (h.folded _ v hv).2.op
  have hterm := (hin.terminated b hb).2.1
  simp only [Instr.isTerminator, Bool.or_eq_true, decide_eq_true_eq] at hterm
  rcases hterm with hterm | hterm <;> rw [hterm] at hop <;> simp at hop

/-- The end of a block: both runs end alike, or go on to the same successor. -/
theorem Sim.leave (hM : Arithmetic M f) (hb : b ∈ f.blocks) (hw : Walk f.Edge f.entry b (b :: p))
    (hs : Sim M f cst [] p c d) :
    (∃ o, f.execBody M (f.body b) c = .done o ∧ g.execBody M (g.body b) d = .done o) ∨
      ∃ t ∈ f.succ b, ∃ c' d', f.execBody M (f.body b) c = .jump t c' ∧
        g.execBody M (g.body b) d = .jump t d' ∧ Sim M f cst (f.body b) p c' d' := by
  obtain ⟨hbody, hterm, hinit⟩ := hin.terminated b hb
  have ht : f.termOf b ∈ f.instrs := Func.mem_instrs hb (by rw [hbody]; simp)
  have hstay := h.termOf_stays hin hb
  have hx := h.instr _ ht
  have hgb : g.body b = ((f.initOf b).filter fun i => (cst i).isNone) ++ [f.termOf b] := by
    rw [h.body b hb, hbody, List.filter_append, List.filter_singleton, hstay]
    rfl
  rw [hgb, hbody]
  rcases hs.block h hin hM hb hw [f.termOf b] (f.initOf b) [] c d (by simpa using hbody) hinit with
    ⟨w, hf, hg⟩ | ⟨c', d', hf, hg, hs'⟩
  · exact Or.inl ⟨_, hf, hg⟩
  · have htg : (g.instr (f.termOf b)).isTerminator = true := by
      rw [hx]
      exact hterm
    have hphi : (f.instr (f.termOf b)).op ≠ .phi := by
      intro hop
      simp [Instr.isTerminator, hop] at hterm
    rw [List.nil_append] at hs'
    rw [Func.execBody_terminator hterm] at hf
    rw [Func.execBody_terminator htg] at hg
    have hsub : ∀ a ∈ (f.instr (f.termOf b)).operands, Func.eval M d' (subst cst a) =
        Func.eval M c' a := fun a ha => hs'.eval h fun j hj =>
      (hin.ssa.operand b hb _ _ [] hbody hphi j (hj ▸ ha)).executed hw
    have hblock : ∀ a, (subst cst a).asBlock = a.asBlock := by
      intro a
      cases a with
      | instr j =>
        cases hc : cst j with
        | none => simp [subst, hc]
        | some v =>
          have hconst := (h.folded j v hc).2.const
          simp only [subst, hc, Option.getD_some]
          cases v <;> first | rfl | cases hconst
      | _ => rfl
    rcases Func.execTerminator_matched (M := M) (c := c') (d := d') (y := g.instr (f.termOf b)) hterm
      (by rw [hx])
      (by
        rw [hx, List.map_map]
        exact List.map_congr_left hsub)
      (by
        rw [hx, List.map_map]
        exact List.map_congr_left fun a _ => hblock a)
      hs'.world with ⟨o, ho, ho'⟩ | ⟨t, htt, ho, ho'⟩
    · exact Or.inl ⟨o, hf.trans ho, hg.trans ho'⟩
    · refine Or.inr ⟨t, (hin.targets b hb t).mpr htt, c', d', hf.trans ho, hg.trans ho', hs'.world,
        hs'.slots, hs'.regs, fun j w hj hex => ?_⟩
      have hjt : j ≠ f.termOf b := by
        rintro rfl
        rw [hstay] at hj
        cases hj
      exact hs'.folded j w hj ((Func.Executed.concat.mp hex).resolve_right hjt)

omit hin in
/-- Entering a block: phis are not folded, and read equal values. -/
theorem Sim.enter (arb : InstrId → Val) {pred : Option BlockId} (ht : t ∈ f.blocks)
    (hs : Sim M f cst [] p c d)
    (hread : ∀ i ∈ f.body t, (f.instr i).op = .phi → ∀ q ∈ (f.instr i).phiPairs,
      some q.2 = pred → ∀ j, q.1 = .instr j → f.Executed [] p j) :
    Sim M f cst [] p (f.enter M arb pred t c) (g.enter M arb pred t d) := by
  have hnotphi : ∀ i v, cst i = some v → (f.instr i).op ≠ .phi := by
    intro i v hi hop
    have := (h.folded i v hi).2.op
    rw [hop] at this
    simp at this
  have hvalue : ∀ i ∈ f.body t, (f.instr i).op = .phi →
      g.phiValue M arb pred d i = f.phiValue M arb pred c i := by
    intro i hi hop
    have hif := Func.mem_instrs ht hi
    unfold Func.phiValue
    rw [h.phiPairs_eq hif, List.find?_map]
    cases hq : (f.instr i).phiPairs.find? ((fun q => decide (some q.2 = pred)) ∘
        fun q => (subst cst q.1, q.2)) with
    | none =>
      have hq' : (f.instr i).phiPairs.find? (fun q => decide (some q.2 = pred)) = none := hq
      simp [hq']
    | some q =>
      have hq' : (f.instr i).phiPairs.find? (fun q => decide (some q.2 = pred)) = some q := hq
      simp only [hq', Option.map_some]
      exact hs.eval h (hread i hi hop q (List.mem_of_find?_eq_some hq)
        (by simpa using List.find?_some hq))
  refine ⟨hs.world, hs.slots, fun i hi => ?_, fun i v hi hex => ?_⟩
  · have hiff : (i ∈ g.body t ∧ (g.instr i).op = .phi) ↔ (i ∈ f.body t ∧ (f.instr i).op = .phi) := by
      constructor
      · rintro ⟨hmem, hop⟩
        rw [h.body t ht] at hmem
        have hmem := (List.mem_filter.mp hmem).1
        rw [h.instr i (Func.mem_instrs ht hmem)] at hop
        exact ⟨hmem, hop⟩
      · rintro ⟨hmem, hop⟩
        rw [h.body t ht, h.instr i (Func.mem_instrs ht hmem)]
        exact ⟨List.mem_filter.mpr ⟨hmem, by simp [hi]⟩, hop⟩
    show (if i ∈ g.body t ∧ (g.instr i).op = .phi then _ else _) =
      if i ∈ f.body t ∧ (f.instr i).op = .phi then _ else _
    by_cases hphi : i ∈ f.body t ∧ (f.instr i).op = .phi
    · rw [if_pos (hiff.mpr hphi), if_pos hphi]
      exact hvalue i hphi.1 hphi.2
    · rw [if_neg (mt hiff.mp hphi), if_neg hphi]
      exact hs.regs i hi
  · refine Eq.trans (if_neg fun hphi => ?_) (hs.folded i v hi hex)
    exact hnotphi i v hi hphi.2

/-! ## A run -/

omit h hin in
/-- The two runs in front of a block. -/
inductive Linked (M : Machine Val World) (f g : Func) (cst : InstrId → Option Value) :
    Func.Config Val World → Func.Config Val World → Prop
  | start (w : World) : Linked M f g cst (f.start M w) (g.start M w)
  | edge {b t : BlockId} {p : List BlockId} {c d : State Val World} (hb : b ∈ f.blocks)
      (ht : t ∈ f.succ b) (hw : Walk f.Edge f.entry b (b :: p))
      (hs : Sim M f cst (f.body b) p c d) : Linked M f g cst ⟨some b, t, c⟩ ⟨some b, t, d⟩

/-- Both runs go through a block alike. -/
theorem Linked.step (hM : Arithmetic M f) {k : Nat} {c d : Func.Config Val World}
    (hc : Linked M f g cst c d) (arb : Nat → InstrId → Val) :
    Sum.LiftRel (Linked M f g cst) Eq (f.stepBlock M arb k c) (g.stepBlock M arb k d) := by
  obtain ⟨b, p, hb, hw, hcb, hdb, hs⟩ : ∃ b p, b ∈ f.blocks ∧ Walk f.Edge f.entry b (b :: p) ∧
      c.block = b ∧ d.block = b ∧ Sim M f cst [] p (f.enter M (arb k) c.pred b c.st)
        (g.enter M (arb k) d.pred b d.st) := by
    cases hc with
    | start w =>
      have hentry : g.entry = f.entry := by rw [h.cfg]
      refine ⟨f.entry, [], List.mem_cons_self, .start, rfl, hentry, ?_⟩
      refine Sim.enter h (arb k) List.mem_cons_self ⟨rfl, rfl, fun _ _ => rfl, fun i v _ hex => ?_⟩
        fun i _ _ q _ hq => by cases hq
      simp [Func.Executed] at hex
    | @edge b t p c d hb ht hw hs =>
      have htb := hin.closed b hb t ht
      refine ⟨t, b :: p, htb, hw.step ht, rfl, rfl, ?_⟩
      refine Sim.enter h (arb k) htb ⟨hs.world, hs.slots, hs.regs, fun i v hi hex =>
        hs.folded i v hi (Func.executed_cons.mp hex)⟩ fun i hi hop q hq hpred j hj => ?_
      obtain ⟨a, e⟩ := q
      cases hpred
      cases hj
      exact Func.executed_cons.mpr (hin.ssa.incoming_executed htb hi hop hq hw)
  simp only [Func.stepBlock, hcb, hdb]
  rcases hs.leave h hin hM hb hw with ⟨o, ho, ho'⟩ | ⟨t, ht, c', d', ho, ho', hs'⟩
  · rw [ho, ho']
    exact Sum.LiftRel.inr rfl
  · rw [ho, ho']
    exact Sum.LiftRel.inl (Linked.edge hb ht hw hs')

theorem Folded.observe_eq (hM : Arithmetic M f) (arb : Nat → InstrId → Val) (w : World) (n : Nat) :
    g.observe M arb w n = f.observe M arb w n := by
  have hlift := Lockstep.run_lockstep (fun _ => Linked M f g cst)
    (fun k c d hcd => hcd.step h hin hM (k := k) arb) n 0 _ _ (Linked.start w)
  unfold Func.observe
  generalize Lockstep.run (f.stepBlock M arb) 0 n (f.start M w) = r at hlift ⊢
  generalize Lockstep.run (g.stepBlock M arb) 0 n (g.start M w) = r' at hlift ⊢
  cases hlift with
  | inl hc =>
    cases hc with
    | start => rfl
    | edge _ _ _ hs => exact congrArg Sum.inl hs.world
  | inr ho => rw [ho]

omit hin in
/-- No operand of what stays is an instruction that went. -/
theorem Folded.operand_stays (hi : i ∈ g.instrs) (hj : Value.instr j ∈ (g.instr i).operands)
    (hjf : j ∈ f.instrs) : j ∈ g.instrs := by
  have hmem : ∀ k, k ∈ g.instrs ↔ k ∈ f.instrs ∧ cst k = none := by
    intro k
    simp only [Func.instrs, h.blocks_eq, List.mem_flatMap]
    constructor
    · rintro ⟨b, hb, hk⟩
      rw [h.body b hb, List.mem_filter, Option.isNone_iff_eq_none] at hk
      exact ⟨⟨b, hb, hk.1⟩, hk.2⟩
    · rintro ⟨⟨b, hb, hk⟩, hnone⟩
      exact ⟨b, hb, by rw [h.body b hb, List.mem_filter, Option.isNone_iff_eq_none]; exact ⟨hk, hnone⟩⟩
  rw [h.instr i ((hmem i).mp hi).1] at hj
  obtain ⟨a, -, ha⟩ := List.mem_map.mp hj
  refine (hmem j).mpr ⟨hjf, ?_⟩
  cases a with
  | instr k =>
    cases hc : cst k with
    | none =>
      simp only [subst, hc, Option.getD_none, Value.instr.injEq] at ha
      exact ha ▸ hc
    | some v =>
      simp only [subst, hc, Option.getD_some] at ha
      exact absurd ha (instr_ne_const (h.folded k v hc).2.const)
  | _ => cases ha

end Step

/-- **Constant propagation preserves the meaning of a function over `i32` and `i1`** that neither
loads nor stores, whatever the other functions of its module are and in whatever order its blocks are
listed: whatever its calls do, it does the same to the world block by block and ends alike; and no
instruction left in a block has one as an operand that is not. When all functions of the module are
of this kind, the pass returns. -/
theorem folding_preserves (host : Host) {m : Module} {n : Nat} {f : Func}
    (hn : m.functions[n]? = some f) (hin : Input f) :
    (∀ m', run host m = .ok m' → ∃ g, m'.functions[n]? = some g ∧
      (∀ (Val World : Type) (M : Machine Val World), Arithmetic M f →
        ∀ (arb : Nat → InstrId → Val) (w : World) (k : Nat),
          g.observe M arb w k = f.observe M arb w k) ∧
      ∀ i ∈ g.instrs, ∀ j ∈ f.instrs, Value.instr j ∈ (g.instr i).operands → j ∈ g.instrs) ∧
    ((∀ f ∈ m.functions, Input f) → ∃ m', run host m = .ok m') := by
  refine ⟨fun m' hrun => ?_, run_ok host⟩
  obtain ⟨cst, g, hg, h⟩ := run_folded hin hn hrun
  exact ⟨g, hg, fun Val World M hM arb w k => h.observe_eq hin hM arb w k,
    fun i hi j hj ho => h.operand_stays hi ho hj⟩

/-! ## A chain through three blocks

`int f(int n) { int c; c = 1 + 2; if (c < 5) r = c * 4; else r = c - n; output(r); return r; }`, with
the block behind the branches listed in front of them. -/

/-- The blocks: entry, the two branches, the block behind. -/
def chainCfg : Cfg where
  entry := 0
  rest := [3, 1, 2]
  pre bb := match bb with
    | 1 | 2 => [0]
    | 3 => [1, 2]
    | _ => []
  succ bb := match bb with
    | 0 => [2, 1]
    | 1 | 2 => [3]
    | _ => []

def chainInstr (i : InstrId) : Instr := match i with
  | 0 => { op := .add, ty := .int32, operands := [.int32 1, .int32 2], parent := 0 }
  | 1 => { op := .cmp, ty := .int1, operands := [.instr 0, .int32 5], parent := 0, cmpOp := .LT }
  | 2 => { op := .br, ty := .void, operands := [.instr 1, .block 1, .block 2], parent := 0 }
  | 3 => { op := .mul, ty := .int32, operands := [.instr 0, .int32 4], parent := 1 }
  | 4 => { op := .br, ty := .void, operands := [.block 3], parent := 1 }
  | 5 => { op := .sub, ty := .int32, operands := [.instr 0, .arg 0], parent := 2 }
  | 6 => { op := .br, ty := .void, operands := [.block 3], parent := 2 }
  | 7 =>
    { op := .phi, ty := .int32, operands := [.instr 3, .block 1, .instr 5, .block 2], parent := 3 }
  | 8 => { op := .call, ty := .void, operands := [.function "output", .instr 7], parent := 3 }
  | _ => { op := .ret, ty := .void, operands := [.instr 7], parent := 3 }

/-- `f`. -/
def chain : Func where
  toCfg := chainCfg
  name := "f"
  retTy := .int32
  args := [.int32]
  body bb := match bb with
    | 0 => [0, 1, 2]
    | 1 => [3, 4]
    | 2 => [5, 6]
    | 3 => [7, 8, 9]
    | _ => []
  instr := chainInstr
  uses := Func.slotsOf chainInstr (List.range 10)
  next := 10

theorem chain_ssa : chain.SsaForm where
  operand := by
    have hplace : ∀ b ∈ chain.blocks, ∀ n < (chain.body b).length, ∀ i ∈ (chain.body b)[n]?,
        (chain.instr i).op ≠ .phi → ∀ v ∈ (chain.instr i).operands, ∀ j ∈ v.asInstr,
          j ∈ (chain.body b).take n ∨ (b ≠ chain.entry ∧ j ∈ chain.body chain.entry) := by decide
    intro b hb pre i post hbody hphi j hj
    have hn : pre.length < (chain.body b).length := by
      rw [hbody]
      simp
    have hget : (chain.body b)[pre.length]? = some i := by
      rw [hbody]
      simp
    rcases hplace b hb pre.length hn i hget hphi _ hj j rfl with hmem | ⟨hne, hmem⟩
    · rw [hbody, List.take_left] at hmem
      exact Or.inl hmem
    · exact Or.inr ⟨chain.entry, List.mem_cons_self, ⟨Dom.root, hne.symm⟩, hmem⟩
  incoming := by
    have hplace : ∀ b ∈ chain.blocks, ∀ i ∈ chain.body b, (chain.instr i).op = .phi →
        ∀ q ∈ (chain.instr i).phiPairs, ∀ j ∈ q.1.asInstr, q.2 ∈ chain.blocks ∧ j ∈ chain.body q.2 := by
      decide
    intro b hb i hi hop j c hq
    obtain ⟨hc, hj⟩ := hplace b hb i hi hop _ hq j rfl
    exact ⟨c, hc, Dom.refl, hj⟩

theorem chain_input : Input chain where
  ops := by decide
  typed := by
    have hall : ∀ i ∈ chain.instrs,
        (((chain.instr i).op = .add ∨ (chain.instr i).op = .sub ∨ (chain.instr i).op = .mul) →
          (chain.instr i).ty = .int32 ∧
            (chain.instr i).operands.map chain.typeOf = [some .int32, some .int32]) ∧
        ((chain.instr i).op = .cmp → (chain.instr i).ty = .int1 ∧
          ((chain.instr i).operands.map chain.typeOf = [some .int32, some .int32] ∨
            (chain.instr i).operands.map chain.typeOf = [some .int1, some .int1])) := by decide
    exact hall
  nodup := by decide
  closed := by decide
  terminated := by decide
  targets := by
    -- `create_cond_br` lists the false branch first
    have hsucc : ∀ b ∈ chain.blocks,
        chain.succ b = (chain.instr (chain.termOf b)).targets.reverse := by decide
    intro b hb c
    rw [hsucc b hb, List.mem_reverse]
  ssa := chain_ssa
  recorded := by
    have hlt : ∀ u ∈ chain.instrs, u ∈ List.range 10 := by decide
    exact fun u hu no x => Func.mem_slotsOf.trans (and_iff_right (hlt u hu))

/-- A machine the compiler could run on, as far as `f` is concerned. -/
def someHost : Host where
  fadd a _ := a
  fsub a _ := a
  fmul a _ := a
  fdiv a _ := a
  fcompare _ _ _ := false
  toInt a := a
  toFloat a := a

/-- The theorem at `f`. -/
theorem run_chain_preserves :
    ∃ m' g, run someHost { functions := [chain] } = .ok m' ∧ m'.functions[0]? = some g ∧
      (∀ (Val World : Type) (M : Machine Val World), Arithmetic M chain →
        ∀ (arb : Nat → InstrId → Val) (w : World) (k : Nat),
          g.observe M arb w k = chain.observe M arb w k) ∧
      ∀ i ∈ g.instrs, ∀ j ∈ chain.instrs, Value.instr j ∈ (g.instr i).operands → j ∈ g.instrs := by
  obtain ⟨hkeep, hok⟩ := folding_preserves someHost (m := { functions := [chain] }) (n := 0) rfl chain_input
  obtain ⟨m', hrun⟩ := hok fun f hf => List.mem_singleton.mp hf ▸ chain_input
  obtain ⟨g, hg, h⟩ := hkeep m' hrun
  exact ⟨m', g, hrun, hg, h⟩

/-- Three instructions of `f` fold, one of them in a block listed behind its use. -/
example : ((run someHost { functions := [chain] }).toOption.bind fun m => m.functions[0]?).map
    (fun g => (g.instrs, (g.instr 7).operands)) =
      some ([2, 7, 8, 9, 4, 5, 6], [.int32 12, .block 1, .instr 5, .block 2]) := by
  decide +kernel

end Cminusfc.Optimization.ConstPropagation
