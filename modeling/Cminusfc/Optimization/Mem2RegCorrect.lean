import Cminusfc.Optimization.Mem2RegResult

/-!
# `Mem2Reg::run` preserves the meaning of a function

`run_preserves`: whenever the pass completes on a function in SSA form, the result and the function
do the same to the world and end alike, whatever a phi without a pair reads.

The simulation goes block by block and instruction by instruction. `Sim` relates the two frames at a
point. The registers of the instructions that stay are equal; the register of a load that has been
deleted holds what its value evaluates to; and the slot of a variable that has been stored to on the
way holds what the value that reaches the point evaluates to. An edge into a block with a phi for the
variable moves that value into the phi; into any other block the value comes from a block that
strictly dominates it (`Sim.enter`), so that no phi read on the edge can change it.

About `src/optimization/Mem2Reg.cpp` 9-196. Out of scope: runs that do not complete
(`Mem2RegComplete`).
-/

namespace Cminusfc.Optimization.Mem2Reg

open Cminusfc.LightIR Dominance
open Dominators (InFrontier enoughFuel)

variable {f g G : Func} {phis : BlockId → List InstrId} {b P : BlockId} {v x a : Value}
  {i j l : InstrId} {pre post : List InstrId} {p : List BlockId}
  {Val World : Type} {M : Machine Val World} {c d : State Val World}

/-! ## Values -/

section Values

variable (h : Renamed f g G phis)
include h

theorem Renamed.cell_eq (hi : i ∈ f.instrs) (ha : a ∈ (f.instr i).operands) :
    g.cell a = f.cell a := by
  cases a with
  | instr j =>
    have hlt := (h.input.allocated i hi).2 j ha
    simp [Func.cell, h.old j hlt]
  | _ => rfl

theorem Renamed.rval_eq (hi : i ∈ f.instrs) : rval g i = rval f i := by
  rw [rval, rval, h.instr_eq h.input.toInput hi]

/-- The first operand of a store is its value and not its address. -/
theorem Renamed.rval_plain (hi : i ∈ f.instrs) (hs : storeOf f i = some v) :
    f.cell (rval f i) = none ∧ (rval f i).asBlock = none := by
  refine ⟨?_, h.input.values i hi v hs⟩
  have hop := storeOf_op hs
  have hhead : (f.instr i).operands[0]? = some (rval f i) := by
    unfold storeOf at hs
    split at hs
    · simp [rval, *]
    · cases hs
  by_contra hcell
  rcases h.input.scalars i hi 0 _ hhead (Option.isSome_iff_ne_none.mpr hcell) with ⟨hl, -⟩ | ⟨-, h1⟩
  · rw [hop] at hl
    cases hl
  · cases h1

/-- The values that reach a point are no scalar allocas and no blocks. -/
theorem Renamed.reaches_plain (hr : Reaches g b pre v x) (hb : b ∈ g.blocks)
    (hpre : ∃ post, g.body b = pre ++ post) : g.cell x = none ∧ x.asBlock = none := by
  refine hr.rec_values (P := fun x => g.cell x = none ∧ x.asBlock = none) h.placing hb hpre
    (fun i _ v hi => ⟨by simp [Func.cell, phiOf_op hi], rfl⟩) fun i hi v hs => ?_
  have hif := h.mem_old hi (by simp [isPhi, storeOf_op hs])
  have hmem : rval g i ∈ (f.instr i).operands := by
    rw [← h.instr_eq h.input.toInput hif]
    exact rval_mem hs
  rw [h.cell_eq hif hmem, h.rval_eq hif]
  rw [h.storeOf_eq h.input.toInput hif] at hs
  exact h.rval_plain hif hs

/-- An operand that stays: what replaces it names the same cell and the same block. -/
theorem Renamed.resolves_plain (hi : i ∈ f.instrs) (ha : a ∈ (f.instr i).operands)
    (hcell : f.cell a = none) (hr : Resolves g a x) : g.cell x = none ∧ x.asBlock = a.asBlock := by
  cases hr with
  | self => exact ⟨(h.cell_eq hi ha).trans hcell, rfl⟩
  | load _ hb hbody hr =>
    obtain ⟨h₁, h₂⟩ := h.reaches_plain hr hb ⟨_, hbody⟩
    exact ⟨h₁, h₂⟩

end Values

/-! ## The relation -/

/-- The frames of `f` and of the result after the instructions `pre` of `b`, with the blocks `p`
behind them. -/
structure Sim (M : Machine Val World) (f g : Func) (b : BlockId) (pre : List InstrId)
    (p : List BlockId) (c d : State Val World) : Prop where
  world : d.world = c.world
  regs : ∀ i ∈ f.instrs, loadOf f i = none → isScalarAlloca f i = false → d.regs i = c.regs i
  loads : ∀ l, (loadOf g l).isSome = true → Avail g b pre l → ∀ x, Resolves g (.instr l) x →
    Func.eval M d x = c.regs l
  slots : ∀ v a, f.cell v = some a →
    (∃ q ∈ p, Stores f v q) ∨ (∃ j ∈ pre, storeOf g j = some v) → ∀ x, Reaches g b pre v x →
      Func.eval M d x = c.slots a

theorem cell_of_scalar (h : isScalarAlloca f i = true) : f.cell (.instr i) = some i := by
  unfold isScalarAlloca at h
  rw [Bool.and_eq_true, decide_eq_true_eq] at h
  have harr : ((f.instr i).ty.pointerElementType.map Ty.isArray) ≠ some true := by
    cases hty : (f.instr i).ty.pointerElementType with
    | none => simp
    | some t =>
      rw [hty] at h
      cases t <;> simp_all [Ty.isInteger, Ty.isFloat, Ty.isArray]
  exact if_pos ⟨h.1, harr⟩

section Step

variable (h : Renamed f g G phis)
include h

/-- The operand of an instruction that stays, or of a store, evaluates alike. -/
theorem Sim.eval (hs : Sim M f g b pre p c d) (hb : b ∈ g.blocks)
    (hbody : g.body b = pre ++ i :: post) (hi : i ∈ f.instrs) (ha : a ∈ (f.instr i).operands)
    (hcell : f.cell a = none) (hr : Resolves g a x) : Func.eval M d x = Func.eval M c a := by
  cases a with
  | instr j =>
    have ha' : Value.instr j ∈ (g.instr i).operands := by
      rwa [h.instr_eq h.input.toInput hi]
    have hav := h.ssa b hb pre i post hbody j ha'
    have hj : j ∈ g.instrs := by
      cases hav with
      | inl hpre => exact Func.mem_instrs hb (by rw [hbody]; exact List.mem_append_left _ hpre)
      | inr habove =>
        obtain ⟨e, he, hje⟩ := habove
        exact Func.mem_instrs ((h.placing.reach e).mp
          (he.1.reachable ((h.placing.reach b).mpr hb))) hje
    cases hload : loadOf g j with
    | some w => exact hs.loads j (by rw [hload]; rfl) hav x hr
    | none =>
      obtain rfl := (Resolves.self_iff (fun l hl => by cases hl; exact hload)).mp hr
      have hjf := h.mem_old_of_lt hj ((h.input.allocated i hi).2 j ha)
      refine hs.regs j hjf (by rwa [h.loadOf_eq h.input.toInput hjf] at hload) ?_
      by_contra hsc
      rw [cell_of_scalar (by simpa using hsc)] at hcell
      cases hcell
  | _ =>
    obtain rfl := (Resolves.self_iff (fun l hl => by cases hl)).mp hr
    rfl

/-- An instruction that stays has no scalar alloca among its operands. -/
theorem Renamed.kept_cells (hi : i ∈ f.instrs) (hkeep : keep f i = true) :
    ∀ a ∈ (f.instr i).operands, f.cell a = none := by
  intro a ha
  by_contra hcell
  obtain ⟨no, hno⟩ := List.getElem?_of_mem ha
  have haddr := h.input.scalars i hi no a hno (Option.isSome_iff_ne_none.mpr hcell)
  obtain ⟨k, hk⟩ := Option.ne_none_iff_exists'.mp hcell
  have hvar : isVar f a = true := by
    obtain rfl := Func.cell_some hk
    simp [isVar, Value.isGlobal, Func.isGep, Func.cell_op hk]
  have haccess : access f i = true := by
    obtain ⟨hload, hstore⟩ := h.input.shape i hi
    rcases haddr with ⟨hop, rfl⟩ | ⟨hop, rfl⟩
    · obtain ⟨l, hops⟩ := List.length_eq_one_iff.mp (hload hop)
      rw [hops] at hno
      obtain rfl : l = a := by simpa using hno
      simp [access, loadOf, hop, hops, hvar]
    · obtain ⟨r, l, hops⟩ := List.length_eq_two.mp (hstore hop)
      rw [hops] at hno
      obtain rfl : l = a := by simpa using hno
      simp [access, storeOf, hop, hops, hvar]
  simp [keep, haccess] at hkeep

/-- The operands of an instruction that stays, one by one. -/
theorem Renamed.map_operands {β : Type} {φ ψ : Value → β} (hi : i ∈ f.instrs)
    (hφ : ∀ a ∈ (f.instr i).operands, ∀ x, Resolves g a x → φ x = ψ a) :
    (G.instr i).operands.map φ = (f.instr i).operands.map ψ := by
  apply List.ext_getElem?
  intro no
  rw [List.getElem?_map, List.getElem?_map]
  cases ha : (f.instr i).operands[no]? with
  | none =>
    have hlen := List.getElem?_eq_none_iff.mp ha
    rw [← h.length i hi] at hlen
    rw [List.getElem?_eq_none_iff.mpr hlen]
    rfl
  | some a =>
    obtain ⟨x, hx, hr⟩ := h.operand i hi no a ha
    rw [hx]
    exact congrArg some (hφ a (List.mem_of_getElem? ha) x hr)

theorem Renamed.cell_result (x : Value) : G.cell x = g.cell x := by
  cases x with
  | instr j => simp [Func.cell, h.kind j]
  | _ => rfl

/-- An instruction that stays is executed alike. -/
theorem Sim.matched (hs : Sim M f g b pre p c d) (hb : b ∈ g.blocks)
    (hbody : g.body b = pre ++ i :: post) (hi : i ∈ f.instrs) (hkeep : keep f i = true) :
    Func.Matched M f G i c d := by
  have hcells := h.kept_cells hi hkeep
  have hins := h.result_instr i (h.mem_instrs hi)
  have hphi : (f.instr i).op ≠ .phi := by simpa [isPhi] using h.input.no_phi i hi
  rw [h.instr_eq h.input.toInput hi] at hins
  refine Func.execInstr_matched (by rw [hins]) (by rw [hins]) (by rw [hins]) ?_ ?_ ?_ hs.world hphi
  · exact h.map_operands hi fun a ha x hr => hs.eval h hb hbody hi ha (hcells a ha) hr
  · refine h.map_operands hi fun a ha x hr => ?_
    rw [hcells a ha, h.cell_result, (h.resolves_plain hi ha (hcells a ha) hr).1]
  · intro l hl a ha
    rw [hcells l hl] at ha
    cases ha

/-! ## One instruction -/

omit h in
theorem Placing.not_avail (hg : Placing g) (hb : b ∈ g.blocks) (hbody : g.body b = pre ++ i :: post) :
    ¬ Avail g b pre i := by
  have hi : i ∈ g.body b := by
    rw [hbody]
    simp
  rintro (hpre | ⟨e, he, hie⟩)
  · have hnd := (List.nodup_flatMap.mp hg.nodup).1 b hb
    rw [hbody] at hnd
    exact (List.nodup_append.mp hnd).2.2 i hpre i List.mem_cons_self rfl
  · have heb := (hg.reach e).mp (he.1.reachable ((hg.reach b).mpr hb))
    exact he.2 (Func.block_unique hg.nodup heb hb hie hi)

omit h in
theorem avail_concat (hl : l ≠ i) (hav : Avail g b (pre ++ [i]) l) : Avail g b pre l :=
  hav.imp (fun hmem => (List.mem_append.mp hmem).resolve_right fun hli =>
    hl (List.mem_singleton.mp hli)) id

omit h in
theorem eval_setReg (v : Val) (hx : ∀ j, x = .instr j → j ≠ i) :
    Func.eval M (Func.setReg d i v) x = Func.eval M d x := by
  cases x with
  | instr j => exact Function.update_of_ne (hx j rfl) _ _
  | _ => rfl

omit h in
theorem reaches_concat (hdef : defOf g i = none) :
    Reaches g b (pre ++ [i]) v x ↔ Reaches g b pre v x := by
  have hs : storeOf g i = none := by
    cases hs : storeOf g i with
    | none => rfl
    | some w => rw [defOf_of_store hs] at hdef; cases hdef
  have hp : phiOf g i = none := by
    cases hp : phiOf g i with
    | none => rfl
    | some w => rw [defOf_of_phi hp] at hdef; cases hdef
  rw [Reaches.concat_iff, hdef, hs, hp]
  simp

omit h in
theorem exists_store_concat (hdef : defOf g i = none) :
    (∃ j ∈ pre ++ [i], storeOf g j = some v) ↔ ∃ j ∈ pre, storeOf g j = some v := by
  refine ⟨fun ⟨j, hj, hs⟩ => ⟨j, ?_, hs⟩, fun ⟨j, hj, hs⟩ => ⟨j, List.mem_append_left _ hj, hs⟩⟩
  refine (List.mem_append.mp hj).resolve_right fun hji => ?_
  obtain rfl := List.mem_singleton.mp hji
  rw [defOf_of_store hs] at hdef
  cases hdef

/-- An instruction whose register both frames write, or which traps in both. -/
theorem Sim.kept (hs : Sim M f g b pre p c d) (hb : b ∈ g.blocks)
    (hbody : g.body b = pre ++ i :: post) (hi : i ∈ f.instrs) (hkeep : keep f i = true) :
    (f.execInstr M i c = none ∧ G.execInstr M i d = none) ∨ ∃ c' d', f.execInstr M i c = some c' ∧
      G.execInstr M i d = some d' ∧ Sim M f g b (pre ++ [i]) p c' d' := by
  have hacc : access g i = false := by
    rw [h.access_eq h.input.toInput hi]
    simp only [keep, Bool.and_eq_true, Bool.not_eq_true'] at hkeep
    exact hkeep.1
  simp only [access, Bool.or_eq_false_iff, Option.isSome_eq_false_iff, Option.isNone_iff_eq_none] at hacc
  have hphi : phiOf g i = none := by
    have := h.isPhi_old h.input.toInput hi
    simp [phiOf, this]
  have hdef : defOf g i = none := by simp [defOf, hacc.2, hphi]
  have hpre : ∃ post, g.body b = pre ++ post := ⟨_, hbody⟩
  have hself := h.placing.not_avail hb hbody
  cases hs.matched h hb hbody hi hkeep with
  | fault hf hg => exact Or.inl ⟨hf, hg⟩
  | slot k v l hl hk hf hg =>
    rw [h.kept_cells hi hkeep l hl] at hk
    cases hk
  | reg v w hf hg =>
    refine Or.inr ⟨_, _, hf, hg, rfl, fun j hj hload hsc => ?_, fun l hl hav x hx => ?_,
      fun u k hu hst x hx => ?_⟩
    · simp only [Func.setReg_regs]
      by_cases hji : j = i
      · subst hji
        simp
      · rw [Function.update_of_ne hji, Function.update_of_ne hji, hs.regs j hj hload hsc]
    · have hli : l ≠ i := by
        rintro rfl
        rw [hacc.1] at hl
        cases hl
      have hav' := avail_concat hli hav
      have hxi : ∀ j, x = .instr j → j ≠ i := by
        rintro j hj rfl
        exact hself (hx.avail h.placing h.ssa hb hpre (fun l' hl' => by cases hl'; exact hav') j hj)
      show Func.eval M (Func.setReg d i v) x = Function.update c.regs i v l
      rw [eval_setReg v hxi, Function.update_of_ne hli, hs.loads l hl hav' x hx]
    · rw [reaches_concat hdef] at hx
      rw [exists_store_concat hdef] at hst
      have hxi : ∀ j, x = .instr j → j ≠ i := by
        rintro j hj rfl
        exact hself (hx.avail h.placing h.ssa hb hpre j hj)
      show Func.eval M (Func.setReg d i v) x = c.slots k
      rw [eval_setReg v hxi, hs.slots u k hu hst x hx]

omit h in
/-- An instruction that only writes a register of `f`, one the other frame does not have. -/
theorem Sim.gone (hs : Sim M f g b pre p c d) (hdef : defOf g i = none) (w : Val)
    (hreg : loadOf f i ≠ none ∨ isScalarAlloca f i = true)
    (hload : (loadOf g i).isSome = true → ∀ x, Resolves g (.instr i) x → Func.eval M d x = w) :
    Sim M f g b (pre ++ [i]) p (Func.setReg c i w) d := by
  refine ⟨hs.world, fun j hj hl hsc => ?_, fun l hl hav x hx => ?_, fun u k hu hst x hx => ?_⟩
  · have hji : j ≠ i := by
      rintro rfl
      cases hreg with
      | inl hreg => exact hreg hl
      | inr hreg =>
        rw [hsc] at hreg
        cases hreg
    rw [Func.setReg_regs, Function.update_of_ne hji, hs.regs j hj hl hsc]
  · by_cases hli : l = i
    · subst hli
      simpa using hload hl x hx
    · rw [Func.setReg_regs, Function.update_of_ne hli, hs.loads l hl (avail_concat hli hav) x hx]
  · rw [reaches_concat hdef] at hx
    rw [exists_store_concat hdef] at hst
    exact hs.slots u k hu hst x hx

omit h in
/-- An instruction that is no access and is not executed. -/
theorem Sim.idle (hs : Sim M f g b pre p c d) (hdef : defOf g i = none) (hload : loadOf g i = none) :
    Sim M f g b (pre ++ [i]) p c d := by
  refine ⟨hs.world, hs.regs, fun l hl hav x hx => ?_, fun u k hu hst x hx => ?_⟩
  · have hli : l ≠ i := by
      rintro rfl
      rw [hload] at hl
      cases hl
    exact hs.loads l hl (avail_concat hli hav) x hx
  · rw [reaches_concat hdef] at hx
    rw [exists_store_concat hdef] at hst
    exact hs.slots u k hu hst x hx

/-- The variable of a load or a store is a scalar alloca. -/
theorem Renamed.var_cell (hi : i ∈ f.instrs) {no : Nat} (haddr : Address f i no)
    (hno : (f.instr i).operands[no]? = some v) (hvar : isVar f v = true) :
    ∃ k, f.cell v = some k := by
  simp only [isVar, Bool.and_eq_true, Bool.not_eq_true'] at hvar
  rcases h.input.address i hi no haddr v hno with hg | hg | hc
  · rw [hvar.1] at hg
    cases hg
  · rw [hvar.2] at hg
    cases hg
  · exact Option.isSome_iff_exists.mp hc

/-- A deleted load. -/
theorem Sim.load (hs : Sim M f g b pre p c d) (hb : b ∈ g.blocks)
    (hbody : g.body b = pre ++ i :: post) (hi : i ∈ f.instrs) (hl : loadOf f i = some v)
    (hst : (∃ q ∈ p, Stores f v q) ∨ ∃ j ∈ pre, storeOf g j = some v) :
    ∃ c', f.execInstr M i c = some c' ∧ Sim M f g b (pre ++ [i]) p c' d := by
  obtain ⟨hop, hops, hvar⟩ : (f.instr i).op = .load ∧ (f.instr i).operands = [v] ∧
      isVar f v = true := by
    unfold loadOf at hl
    split at hl
    · split at hl
      · cases hl
        exact ⟨by assumption, by assumption, by assumption⟩
      · cases hl
    · cases hl
  obtain ⟨k, hk⟩ := h.var_cell hi (Or.inl ⟨hop, rfl⟩) (by rw [hops]; rfl) hvar
  refine ⟨_, Func.execInstr_load hop hops hk c, hs.gone ?_ _ (Or.inl (by simp [hl])) ?_⟩
  · have hopg : (g.instr i).op = .load := by rw [h.instr_eq h.input.toInput hi, hop]
    simp [defOf, storeOf_eq_none (g := g) (i := i) (by simp [hopg]),
      phiOf_eq_none (g := g) (i := i) (by simp [hopg])]
  · intro hload x hx
    cases hx with
    | self hself =>
      rw [hself i rfl] at hload
      cases hload
    | load hl' hb' hbody' hx =>
      obtain ⟨rfl, rfl⟩ := h.placing.place_unique hb hb' hbody hbody'
      rw [h.loadOf_eq h.input.toInput hi, hl] at hl'
      cases hl'
      exact hs.slots v k hk hst x hx

/-- A deleted store. -/
theorem Sim.store (hs : Sim M f g b pre p c d) (hb : b ∈ g.blocks)
    (hbody : g.body b = pre ++ i :: post) (hi : i ∈ f.instrs) (hst : storeOf f i = some v) :
    ∃ c', f.execInstr M i c = some c' ∧ Sim M f g b (pre ++ [i]) p c' d := by
  obtain ⟨r, hop, hops, hvar⟩ : ∃ r, (f.instr i).op = .store ∧ (f.instr i).operands = [r, v] ∧
      isVar f v = true := by
    unfold storeOf at hst
    split at hst
    · split at hst
      · cases hst
        exact ⟨_, by assumption, by assumption, by assumption⟩
      · cases hst
    · cases hst
  obtain ⟨k, hk⟩ := h.var_cell hi (Or.inr ⟨hop, rfl⟩) (by rw [hops]; rfl) hvar
  have hr : rval f i = r := by simp [rval, hops]
  have hrcell := (h.rval_plain hi hst).1
  rw [hr] at hrcell
  have hstg : storeOf g i = some v := by rw [h.storeOf_eq h.input.toInput hi, hst]
  have hil : loadOf g i = none := loadOf_eq_none (by simp [storeOf_op hstg])
  refine ⟨_, Func.execInstr_store hop hops hk c, hs.world, hs.regs, fun l hl hav x hx => ?_,
    fun u m hu hstored x hx => ?_⟩
  · have hli : l ≠ i := by
      rintro rfl
      rw [hil] at hl
      cases hl
    exact hs.loads l hl (avail_concat hli hav) x hx
  · rcases Reaches.concat_iff.mp hx with ⟨hne, hx'⟩ | ⟨hp, -⟩ | ⟨hs', hres⟩
    · have huv : u ≠ v := by
        rintro rfl
        exact hne (defOf_of_store hstg)
      have hmk : m ≠ k := by
        rintro rfl
        exact huv ((Func.cell_some hu).trans (Func.cell_some hk).symm)
      have hstored' : (∃ q ∈ p, Stores f u q) ∨ ∃ j ∈ pre, storeOf g j = some u := by
        refine hstored.imp id ?_
        rintro ⟨j, hj, hju⟩
        refine ⟨j, ?_, hju⟩
        refine (List.mem_append.mp hj).resolve_right fun hji => ?_
        obtain rfl := List.mem_singleton.mp hji
        rw [hstg, Option.some.injEq] at hju
        exact huv hju.symm
      rw [Func.setSlot_slots, Function.update_of_ne hmk, hs.slots u m hu hstored' x hx']
    · rw [phiOf_eq_none (by simp [storeOf_op hstg])] at hp
      cases hp
    · rw [hstg, Option.some.injEq] at hs'
      subst hs'
      rw [hk, Option.some.injEq] at hu
      subst hu
      rw [h.rval_eq hi, hr] at hres
      rw [Func.setSlot_slots, Function.update_self]
      exact hs.eval h hb hbody hi (by rw [hops]; simp) hrcell hres

/-! ## Into a block -/

theorem Renamed.phi_iff (hb : b ∈ f.blocks) :
    i ∈ G.body b ∧ (G.instr i).op = .phi ↔ i ∈ phis b := by
  rw [h.result_body b hb, (h.kind i).1, List.mem_append]
  constructor
  · rintro ⟨hi | hi, hop⟩
    · exact hi
    · have hif := Func.mem_instrs hb (List.mem_filter.mp hi).1
      have := h.isPhi_old h.input.toInput hif
      simp [isPhi, hop] at this
  · intro hi
    exact ⟨Or.inl hi, isPhi_op (h.phi_facts hi).1⟩

/-- A value computed above a block is none of its phis. -/
theorem Renamed.not_phi_of_above {e : BlockId} (hb : b ∈ f.blocks) (he : g.StrictlyDominates e b)
    (hav : Avail g e (g.body e) j) : j ∉ phis b := by
  intro hj
  have hbg : b ∈ g.blocks := by rwa [h.blocks_eq]
  have hreach := (h.placing.reach b).mpr hbg
  have heb := (h.placing.reach e).mp (he.1.reachable hreach)
  have hjb : j ∈ g.body b := by
    rw [h.body]
    exact List.mem_append_left _ hj
  cases hav with
  | inl hje => exact he.2 (Func.block_unique h.placing.nodup heb hbg hje hjb)
  | inr habove =>
    obtain ⟨e', he', hje⟩ := habove
    have heb' := (h.placing.reach e').mp (he'.1.reachable ((h.placing.reach e).mpr heb))
    obtain rfl := Func.block_unique h.placing.nodup heb' hbg hje hjb
    exact he.2 (Dom.antisymm hreach he.1 he'.1)

theorem Renamed.eval_enter (hb : b ∈ f.blocks) (arb : InstrId → Val) (pred : Option BlockId)
    (hx : ∀ j, x = .instr j → j ∉ phis b) :
    Func.eval M (G.enter M arb pred b d) x = Func.eval M d x := by
  cases x with
  | instr j => exact if_neg fun hj => hx j rfl ((h.phi_iff hb).mp hj)
  | _ => rfl

/-- The phi of `v` in a block gives it its value behind the phis. -/
theorem Renamed.reaches_phi (hi : i ∈ phis b) (hv : phiOf g i = some v) :
    Reaches g b (phis b) v (.instr i) := by
  obtain ⟨s, t, hst⟩ := List.append_of_mem hi
  have hnd := h.toPhied.nodup b
  rw [hst, List.append_cons]
  rw [hst] at hnd
  refine (Reaches.phi hv).skip_all fun j hj hdef => ?_
  have hjp : j ∈ phis b := by
    rw [hst]
    simp [hj]
  have hsame : (g.instr i).lval = (g.instr j).lval := by
    have hj' : phiOf g j = some v := by
      rcases defOf_cases hdef with hs | hp
      · rw [(h.phi_facts hjp).2.2.2] at hs
        cases hs
      · exact hp
    simp only [phiOf, (h.phi_facts hi).1, (h.phi_facts hjp).1, if_true] at hv hj'
    rw [hv, hj']
  obtain rfl := h.unique b i hi j hjp hsame
  exact (List.nodup_cons.mp (List.nodup_append.mp hnd).2.1).1 hj

/-- **Across an edge.** -/
theorem Sim.enter (hs : Sim M f g P (g.body P) p c d) (hP : P ∈ f.blocks) (hPb : b ∈ f.succ P)
    (hw : Walk f.Edge f.entry P (P :: p)) (arb : InstrId → Val) :
    Sim M f g b (phis b) (P :: p) c (G.enter M arb (some P) b d) := by
  have hin := h.input.toInput
  have hb := hin.closed P hP b hPb
  have hedge : g.Edge P b := by rwa [h.toCfg]
  have hPg : P ∈ g.blocks := by rwa [h.blocks_eq]
  have hbg : b ∈ g.blocks := by rwa [h.blocks_eq]
  refine ⟨hs.world, fun i hi hl hsc => ?_, fun l hl hav x hx => ?_, fun v k hk hst x hx => ?_⟩
  · have hnot : i ∉ phis b := fun hmem =>
      InstrId.ne_of_lt_of_le (hin.allocated i hi).1 (h.phi b i hmem).1 rfl
    rw [← hs.regs i hi hl hsc]
    exact if_neg fun hj => hnot ((h.phi_iff hb).mp hj)
  · cases hav with
    | inl hmem =>
      rw [(h.phi_facts hmem).2.2.1] at hl
      cases hl
    | inr habove =>
      obtain ⟨e, he, hle⟩ := habove
      have heg := (h.placing.reach e).mp (he.1.reachable ((h.placing.reach b).mpr hbg))
      rw [h.eval_enter hb arb (some P) fun j hj => h.not_phi_of_above hb he
        (hx.avail h.placing h.ssa heg ⟨[], by simp⟩ (fun l' hl' => by cases hl'; exact Or.inl hle) j hj)]
      refine hs.loads l hl ?_ x hx
      rcases dominates_iff.mp (he.pred hedge) with rfl | hsd
      · exact Or.inl hle
      · exact Or.inr ⟨e, hsd, hle⟩
  · have hstored : ∃ q ∈ P :: p, Stores f v q := by
      refine hst.resolve_right ?_
      rintro ⟨j, hj, hjs⟩
      rw [(h.phi_facts hj).2.2.2] at hjs
      cases hjs
    have hstP : (∃ q ∈ p, Stores f v q) ∨ ∃ j ∈ g.body P, storeOf g j = some v := by
      obtain ⟨q, hq, j, hj, hjs⟩ := hstored
      rcases List.mem_cons.mp hq with rfl | hq
      · refine Or.inr ⟨j, by rw [h.body]; exact List.mem_append_right _ hj, ?_⟩
        rw [h.storeOf_eq hin (Func.mem_instrs hP hj), hjs]
      · exact Or.inl ⟨q, hq, j, hj, hjs⟩
    by_cases hphi : ∃ i ∈ phis b, phiOf g i = some v
    · -- the value moves into the phi
      obtain ⟨i, hi, hv⟩ := hphi
      obtain rfl := hx.unique h.placing hbg (h.reaches_phi hi hv)
      have hdom : ∃ e, f.Dominates e P ∧ Defines f v e := by
        obtain ⟨q, hq, hqs⟩ := hstored
        have hno : ∀ a, ¬ f.Edge a f.entry := by
          intro a ha
          have := (hin.inverse a f.entry).mp ha
          rw [h.input.entry_pre] at this
          cases this
        obtain ⟨e, he, hed⟩ := frontier_cover hin.frontier_closed hw (hw.once hno)
          ⟨q, hq, (hin.reach_iff q).mp (hw.reachable_mem hq), Or.inl hqs⟩
        exact ⟨e, hed, he.2⟩
      obtain ⟨x, hx, hfind⟩ := h.pairs b hb i hi v hv P hP hPb hdom
      have henter : Func.eval M (G.enter M arb (some P) b d) (.instr i) =
          G.phiValue M arb (some P) d i := if_pos ((h.phi_iff hb).mpr hi)
      rw [henter, Func.phiValue]
      simp only [Option.some.injEq]
      rw [hfind]
      exact hs.slots v k hk hstP x hx
    · -- the value comes from a strict dominator
      have hnone : ∀ i ∈ phis b, defOf g i ≠ some v := by
        intro i hi hdef
        rcases defOf_cases hdef with hs' | hp
        · rw [(h.phi_facts hi).2.2.2] at hs'
          cases hs'
        · exact hphi ⟨i, hi, hp⟩
      have hx' : Reaches g b [] v x := Reaches.strip (l := phis b) hnone (by simpa using hx)
      obtain ⟨e, he, hx'⟩ := Reaches.nil_iff.mp hx'
      have heP : g.Dominates e P := he.1.pred hedge
      have hdown : Reaches g P (g.body P) v x := by
        refine hx'.down h.placing hPg heP fun q hq hqe hgive => hphi ?_
        have hqf : f.Dominates q P := by rwa [h.toCfg] at hq
        have hqb := (hin.reach_iff q).mp (hqf.reachable (hin.reach P hP))
        have hnsd : ¬ f.StrictlyDominates q b := by
          intro hsd
          refine hqe (he.2 q ?_)
          rwa [h.toCfg]
        have hfr : Frontier f.Edge f.entry q b := ⟨⟨P, hin.reach P hP, hPb, hqf⟩, hnsd⟩
        have hbe : b ≠ f.entry := by
          rintro rfl
          have := (hin.inverse P f.entry).mp hPb
          rw [h.input.entry_pre] at this
          cases this
        have hinf : InFrontier f.toCfg q b := ⟨hfr, fun heq => absurd heq hbe⟩
        have hphiat : PhiAt f v b := by
          cases (h.gives_iff hin h.at_iff hqb).mp hgive with
          | inl hstore => exact .store hqb hstore hb hinf
          | inr hp => exact .phi hp hb hinf
        obtain ⟨i, hi, hlv⟩ := (h.at_iff b v).mpr hphiat
        exact ⟨i, hi, by simp [phiOf, (h.phi_facts hi).1, hlv]⟩
      have heg := h.placing.idom_mem he hbg
      rw [h.eval_enter hb arb (some P) fun j hj => h.not_phi_of_above hb he.1
        (hx'.avail h.placing h.ssa heg ⟨[], by simp⟩ j hj)]
      exact hs.slots v k hk hstP x hdown

/-! ## A block -/

/-- What a deleted instruction does to the frames. -/
theorem Sim.deleted (hs : Sim M f g b (phis b ++ pre) p c d) (hb : b ∈ f.blocks)
    (hbody : f.body b = pre ++ i :: post) (hw : Walk f.Edge f.entry b (b :: p))
    (hkeep : keep f i = false) :
    ∃ c', f.execInstr M i c = some c' ∧ Sim M f g b (phis b ++ pre ++ [i]) p c' d := by
  have hi : i ∈ f.instrs := Func.mem_instrs hb (by rw [hbody]; simp)
  have hbg : b ∈ g.blocks := by rwa [h.blocks_eq]
  have hbody' : g.body b = phis b ++ pre ++ i :: post := by
    rw [h.body, hbody, List.append_assoc]
  simp only [keep, access, Bool.and_eq_false_iff, Bool.not_eq_false', Bool.or_eq_true,
    Option.isSome_iff_exists] at hkeep
  rcases hkeep with (⟨v, hl⟩ | ⟨v, hst⟩) | hsc
  · refine hs.load h hbg hbody' hi hl ?_
    rcases h.input.stored b hb pre i post v hbody hl with ⟨j, hj, hjs⟩ | hall
    · have hjf := Func.mem_instrs hb (hbody ▸ List.mem_append_left _ hj)
      exact Or.inr ⟨j, List.mem_append_right _ hj, by rw [h.storeOf_eq h.input.toInput hjf, hjs]⟩
    · exact Or.inl (hall p hw)
  · exact hs.store h hbg hbody' hi hst
  · have hop : (f.instr i).op = .alloca := Func.cell_op (cell_of_scalar hsc)
    have hopg : (g.instr i).op = .alloca := by rw [h.instr_eq h.input.toInput hi, hop]
    refine ⟨_, Func.execInstr_alloca hop c, hs.gone ?_ _ (Or.inr hsc) fun hl => ?_⟩
    · simp [defOf, storeOf_eq_none (g := g) (i := i) (by simp [hopg]),
        phiOf_eq_none (g := g) (i := i) (by simp [hopg])]
    · rw [loadOf_eq_none (by simp [hopg])] at hl
      cases hl

theorem Renamed.isTerminator_eq (hi : i ∈ f.instrs) :
    (G.instr i).isTerminator = (f.instr i).isTerminator := by
  simp [Instr.isTerminator, (h.kind i).1, h.instr_eq h.input.toInput hi]

/-- The instructions of a block, up to the rest `post` of it. -/
theorem Sim.block (hb : b ∈ f.blocks) (hw : Walk f.Edge f.entry b (b :: p)) (post : List InstrId) :
    ∀ (is pre : List InstrId) (c d : State Val World), f.body b = pre ++ (is ++ post) →
      (∀ i ∈ is, (f.instr i).isTerminator = false) → Sim M f g b (phis b ++ pre) p c d →
      (∃ w, f.execBody M (is ++ post) c = .done (.fault w) ∧
        G.execBody M (is.filter (keep f) ++ post) d = .done (.fault w)) ∨
      ∃ c' d', f.execBody M (is ++ post) c = f.execBody M post c' ∧
        G.execBody M (is.filter (keep f) ++ post) d = G.execBody M post d' ∧
        Sim M f g b (phis b ++ (pre ++ is)) p c' d' := by
  intro is
  induction is with
  | nil => exact fun pre c d _ _ hs => Or.inr ⟨c, d, rfl, rfl, by simpa using hs⟩
  | cons i is ih =>
    intro pre c d hbody hterm hs
    have hnext : f.body b = (pre ++ [i]) ++ (is ++ post) := by
      rw [hbody, List.append_assoc, List.singleton_append, List.cons_append]
    have hi : i ∈ f.instrs := Func.mem_instrs hb (by rw [hbody]; simp)
    have hti := hterm i List.mem_cons_self
    have hrest := fun c d hs' => ih (pre ++ [i]) c d hnext
      (fun j hj => hterm j (List.mem_cons_of_mem _ hj)) hs'
    cases hkeep : keep f i with
    | false =>
      obtain ⟨c', hc', hs'⟩ := hs.deleted h hb hbody hw hkeep
      rw [List.append_assoc] at hs'
      rw [List.filter_cons_of_neg (by simp [hkeep]), List.cons_append, Func.execBody_some hti hc']
      simpa using hrest c' d hs'
    | true =>
      have hbg : b ∈ g.blocks := by rwa [h.blocks_eq]
      have hbody' : g.body b = phis b ++ pre ++ i :: (is ++ post) := by
        rw [h.body, hbody, List.append_assoc, List.cons_append]
      have htG := (h.isTerminator_eq hi).trans hti
      rw [List.filter_cons_of_pos hkeep, List.cons_append, List.cons_append]
      rcases hs.kept h hbg hbody' hi hkeep with ⟨hf, hG⟩ | ⟨c', d', hf, hG, hs'⟩
      · rw [Func.execBody_none hti hf, Func.execBody_none htG hG, hs.world]
        exact Or.inl ⟨_, rfl, rfl⟩
      · rw [List.append_assoc] at hs'
        rw [Func.execBody_some hti hf, Func.execBody_some htG hG]
        simpa using hrest c' d' hs'

omit h in
/-- The phis at the head of a block have been read when it is entered. -/
theorem execBody_phis (rest : List InstrId) (d : State Val World) :
    ∀ l : List InstrId, (∀ i ∈ l, (G.instr i).op = .phi) →
      G.execBody M (l ++ rest) d = G.execBody M rest d := by
  intro l
  induction l with
  | nil => exact fun _ => rfl
  | cons i l ih =>
    intro hl
    have hi := hl i List.mem_cons_self
    rw [List.cons_append, Func.execBody_some (by simp [Instr.isTerminator, hi])
      (Func.execInstr_phi hi d), ih fun j hj => hl j (List.mem_cons_of_mem _ hj)]

/-- The end of a block: both runs end alike, or go on to the same successor. -/
theorem Sim.leave (hb : b ∈ f.blocks) (hw : Walk f.Edge f.entry b (b :: p))
    (hs : Sim M f g b (phis b) p c d) :
    (∃ o, f.execBody M (f.body b) c = .done o ∧ G.execBody M (G.body b) d = .done o) ∨
      ∃ t ∈ f.succ b, ∃ c' d', f.execBody M (f.body b) c = .jump t c' ∧
        G.execBody M (G.body b) d = .jump t d' ∧ Sim M f g b (g.body b) p c' d' := by
  obtain ⟨hbody, hterm, hinit⟩ := h.input.terminated b hb
  have ht : f.termOf b ∈ f.instrs := Func.mem_instrs hb (by rw [hbody]; simp)
  have hbr : (f.instr (f.termOf b)).op = .br ∨ (f.instr (f.termOf b)).op = .ret := by
    simpa [Instr.isTerminator] using hterm
  have hkeep : keep f (f.termOf b) = true := by
    have hnone : loadOf f (f.termOf b) = none ∧ storeOf f (f.termOf b) = none ∧
        isScalarAlloca f (f.termOf b) = false := by
      rcases hbr with hop | hop <;> exact ⟨loadOf_eq_none (by simp [hop]),
        storeOf_eq_none (by simp [hop]), by simp [isScalarAlloca, hop]⟩
    simp [keep, access, hnone]
  have hG : G.body b = phis b ++ ((f.initOf b).filter (keep f) ++ [f.termOf b]) := by
    rw [h.result_body b hb, hbody, List.filter_append, List.filter_singleton, hkeep]
    rfl
  rw [hG, execBody_phis _ _ _ fun i hi => ((h.phi_iff hb).mpr hi).2]
  rw [hbody]
  rcases Sim.block h hb hw [f.termOf b] (f.initOf b) [] c d (by simpa using hbody) hinit
    (by simpa using hs) with ⟨w, hf, hd⟩ | ⟨c', d', hf, hd, hs'⟩
  · exact Or.inl ⟨_, hf, hd⟩
  · have hgt : g.body b = phis b ++ f.initOf b ++ f.termOf b :: [] := by
      rw [h.body, List.append_assoc, ← hbody]
    have hbg : b ∈ g.blocks := by rwa [h.blocks_eq]
    have hcells := h.kept_cells ht hkeep
    rw [List.nil_append] at hs'
    have htG := (h.isTerminator_eq ht).trans hterm
    rw [Func.execBody_terminator hterm] at hf
    rw [Func.execBody_terminator htG] at hd
    have hop : (G.instr (f.termOf b)).op = (f.instr (f.termOf b)).op := by
      rw [(h.kind _).1, h.instr_eq h.input.toInput ht]
    rcases Func.execTerminator_matched (M := M) (c := c') (d := d') hterm hop
      (h.map_operands ht fun a ha x hr => hs'.eval h hbg hgt ht ha (hcells a ha) hr)
      (h.map_operands ht fun a ha x hr => (h.resolves_plain ht ha (hcells a ha) hr).2)
      hs'.world with ⟨o, ho, ho'⟩ | ⟨t, htt, ho, ho'⟩
    · exact Or.inl ⟨o, hf.trans ho, hd.trans ho'⟩
    · refine Or.inr ⟨t, (h.input.targets b hb t).mpr htt, c', d', hf.trans ho, hd.trans ho', ?_⟩
      have hopg : (g.instr (f.termOf b)).op = (f.instr (f.termOf b)).op := by
        rw [h.instr_eq h.input.toInput ht]
      have hne : ∀ op : OpID, op ≠ .br → op ≠ .ret → (g.instr (f.termOf b)).op ≠ op := by
        rintro op h₁ h₂ rfl
        rw [hopg] at h₁ h₂
        exact hbr.elim h₁ h₂
      rw [hgt]
      refine hs'.idle ?_ (loadOf_eq_none (hne _ (by decide) (by decide)))
      simp [defOf, storeOf_eq_none (hne .store (by decide) (by decide)),
        phiOf_eq_none (hne .phi (by decide) (by decide))]

/-! ## A run -/

omit h in
/-- The two runs in front of a block. -/
inductive Linked (M : Machine Val World) (f g G : Func) :
    Func.Config Val World → Func.Config Val World → Prop
  | start (w : World) : Linked M f g G (f.start M w) (G.start M w)
  | edge {P b : BlockId} {p : List BlockId} {c d : State Val World} (hP : P ∈ f.blocks)
      (hPb : b ∈ f.succ P) (hw : Walk f.Edge f.entry P (P :: p))
      (hs : Sim M f g P (g.body P) p c d) : Linked M f g G ⟨some P, b, c⟩ ⟨some P, b, d⟩

/-- A function without phis enters a block unchanged. -/
theorem Renamed.enter_eq (hb : b ∈ f.blocks) (arb : InstrId → Val) (pred : Option BlockId) :
    f.enter M arb pred b c = c := by
  have hno : ∀ i, ¬ (i ∈ f.body b ∧ (f.instr i).op = .phi) := by
    rintro i ⟨hi, hop⟩
    simpa [isPhi, hop] using h.input.no_phi i (Func.mem_instrs hb hi)
  simp [Func.enter, hno]

/-- In front of the first block. -/
theorem Sim.start (w : World) (arb : InstrId → Val) :
    Sim M f g f.entry (phis f.entry) [] ⟨fun _ => M.undef, fun _ => M.undef, w⟩
      (G.enter M arb none f.entry ⟨fun _ => M.undef, fun _ => M.undef, w⟩) := by
  have hb : f.entry ∈ f.blocks := List.mem_cons_self
  refine ⟨rfl, fun i hi _ _ => ?_, fun l hl hav _ _ => ?_, fun v k _ hst _ _ => ?_⟩
  · refine if_neg fun hj => ?_
    have hmem := (h.phi_iff hb).mp hj
    exact InstrId.ne_of_lt_of_le (h.input.allocated i hi).1 (h.phi _ i hmem).1 rfl
  · rcases hav with hmem | ⟨e, he, -⟩
    · rw [(h.phi_facts hmem).2.2.1] at hl
      cases hl
    · have hroot : g.entry = f.entry := by rw [h.toCfg]
      rw [← hroot] at he
      exact absurd he.1.eq_root he.2
  · rcases hst with ⟨q, hq, -⟩ | ⟨j, hj, hjs⟩
    · cases hq
    · rw [(h.phi_facts hj).2.2.2] at hjs
      cases hjs

/-- Both runs go through a block alike. -/
theorem Linked.step {k : Nat} {c d : Func.Config Val World} (hc : Linked M f g G c d)
    (arb arb' : Nat → InstrId → Val) :
    Sum.LiftRel (Linked M f g G) Eq (f.stepBlock M arb' k c) (G.stepBlock M arb k d) := by
  obtain ⟨b, p, hb, hw, hcb, hdb, hs⟩ : ∃ b p, b ∈ f.blocks ∧ Walk f.Edge f.entry b (b :: p) ∧
      c.block = b ∧ d.block = b ∧ Sim M f g b (phis b) p (f.enter M (arb' k) c.pred b c.st)
        (G.enter M (arb k) d.pred b d.st) := by
    cases hc with
    | start w =>
      have hentry : G.entry = f.entry := by rw [h.result_cfg]
      refine ⟨f.entry, [], List.mem_cons_self, .start, rfl, hentry, ?_⟩
      rw [h.enter_eq List.mem_cons_self]
      exact Sim.start h w (arb k)
    | @edge P b p c d hP hPb hw hs =>
      have hb := h.input.closed P hP b hPb
      refine ⟨b, P :: p, hb, hw.step hPb, rfl, rfl, ?_⟩
      rw [h.enter_eq hb]
      exact hs.enter h hP hPb hw (arb k)
  simp only [Func.stepBlock, hcb, hdb]
  rcases hs.leave h hb hw with ⟨o, ho, ho'⟩ | ⟨t, ht, c', d', ho, ho', hs'⟩
  · rw [ho, ho']
    exact Sum.LiftRel.inr rfl
  · rw [ho, ho']
    exact Sum.LiftRel.inl (Linked.edge hb ht hw hs')

/-- Both do the same to the world and end alike. -/
theorem Renamed.observe_eq (arb arb' : Nat → InstrId → Val) (w : World) (n : Nat) :
    G.observe M arb w n = f.observe M arb' w n := by
  have hlift := Lockstep.run_lockstep (fun _ => Linked M f g G)
    (fun k c d hcd => hcd.step h (k := k) arb arb') n 0 _ _ (Linked.start w)
  unfold Func.observe
  generalize Lockstep.run (f.stepBlock M arb') 0 n (f.start M w) = r at hlift ⊢
  generalize Lockstep.run (G.stepBlock M arb) 0 n (G.start M w) = r' at hlift ⊢
  cases hlift with
  | inl hc =>
    cases hc with
    | start => rfl
    | edge _ _ _ hs => exact congrArg Sum.inl hs.world
  | inr ho => rw [ho]

end Step

/-- **`Mem2Reg::run` preserves the meaning of a function**: whatever the operations compute and
whatever a phi without a pair reads, both do the same to the world block by block and end alike. -/
theorem run_preserves (h : SsaInput f) (vars : SetOrder Value) (blocks : SetOrder BlockId)
    (old : Dominators.IdomMap) {fuel : Nat} (hfuel : enoughFuel f.toCfg ≤ fuel)
    (hrun : run vars blocks fuel old f = .ok G) (M : Machine Val World)
    (arb arb' : Nat → InstrId → Val) (w : World) (n : Nat) :
    G.observe M arb w n = f.observe M arb' w n := by
  obtain ⟨g, phis, hren⟩ := run_renamed h vars blocks old hfuel hrun
  exact hren.observe_eq arb arb' w n

/-! ## A counting loop

`int f(int n) { int i; i = 0; while (i < n) i = i + 1; return i; }`. -/

/-- The blocks: entry, condition, body, the block behind. -/
def countingCfg : Cfg where
  entry := 0
  rest := [1, 2, 3]
  pre bb := match bb with
    | 1 => [0, 2]
    | 2 | 3 => [1]
    | _ => []
  succ bb := match bb with
    | 0 | 2 => [1]
    | 1 => [3, 2]
    | _ => []

/-- `f`. -/
def counting : Func where
  toCfg := countingCfg
  name := "f"
  retTy := .int32
  args := [.int32]
  body bb := match bb with
    | 0 => [0, 1, 2]
    | 1 => [3, 4, 5]
    | 2 => [6, 7, 8, 9]
    | 3 => [10, 11]
    | _ => []
  instr i := match i with
    | 0 => { op := .alloca, ty := .pointer .int32, operands := [], parent := 0 }
    | 1 => { op := .store, ty := .void, operands := [.int32 0, .instr 0], parent := 0 }
    | 2 => { op := .br, ty := .void, operands := [.block 1], parent := 0 }
    | 3 => { op := .load, ty := .int32, operands := [.instr 0], parent := 1 }
    | 4 => { op := .cmp, ty := .int1, operands := [.instr 3, .arg 0], parent := 1, cmpOp := .LT }
    | 5 => { op := .br, ty := .void, operands := [.instr 4, .block 2, .block 3], parent := 1 }
    | 6 => { op := .load, ty := .int32, operands := [.instr 0], parent := 2 }
    | 7 => { op := .add, ty := .int32, operands := [.instr 6, .int32 1], parent := 2 }
    | 8 => { op := .store, ty := .void, operands := [.instr 7, .instr 0], parent := 2 }
    | 9 => { op := .br, ty := .void, operands := [.block 1], parent := 2 }
    | 10 => { op := .load, ty := .int32, operands := [.instr 0], parent := 3 }
    | 11 => { op := .ret, ty := .void, operands := [.instr 10], parent := 3 }
    | _ => { op := .ret, ty := .void, operands := [], parent := 0 }
  uses v := match v with
    | .instr 0 => [(1, 1), (3, 0), (6, 0), (8, 1), (10, 0)]
    | .instr 3 => [(4, 0)]
    | .instr 4 => [(5, 0)]
    | .instr 6 => [(7, 0)]
    | .instr 7 => [(8, 0)]
    | .instr 10 => [(11, 0)]
    | _ => []
  next := 12

theorem counting_reach : ∀ b ∈ counting.blocks, counting.Reach b := by
  have h₁ : counting.Reach 1 := Reachable.refl.step (by decide)
  intro b hb
  fin_cases hb
  · exact Reachable.refl
  · exact h₁
  · exact h₁.step (by decide)
  · exact h₁.step (by decide)

/-- A walk to another block starts in the entry. -/
theorem entry_mem_walk {f : Func} {b : BlockId} {p : List BlockId}
    (hw : Walk f.Edge f.entry b (b :: p)) (hb : b ≠ f.entry) : f.entry ∈ p := by
  cases hw with
  | start => exact absurd rfl hb
  | step hw _ => exact hw.root_mem

theorem counting_input : SsaInput counting where
  reach := counting_reach
  inverse a b := by
    rcases a with _ | _ | _ | _ | a <;> rcases b with _ | _ | _ | _ | b <;>
      simp [counting, countingCfg]
  closed := by decide
  pre_closed := by decide
  allocated := by
    have hlt : ∀ i ∈ counting.instrs, i < counting.next ∧
        ∀ v ∈ (counting.instr i).operands, ∀ j ∈ v.asInstr, j < counting.next := by decide
    exact fun i hi => ⟨(hlt i hi).1, fun j hj => (hlt i hi).2 _ hj j rfl⟩
  no_phi := by decide
  address := by
    have hcell : ∀ i ∈ counting.instrs,
        ((counting.instr i).op = .load → ∀ v ∈ (counting.instr i).operands[0]?,
          (counting.cell v).isSome = true) ∧
        ((counting.instr i).op = .store → ∀ v ∈ (counting.instr i).operands[1]?,
          (counting.cell v).isSome = true) := by decide
    rintro i hi no (⟨hop, rfl⟩ | ⟨hop, rfl⟩) v hv
    · exact Or.inr (Or.inr ((hcell i hi).1 hop v hv))
    · exact Or.inr (Or.inr ((hcell i hi).2 hop v hv))
  uses := by
    intro l u hu
    by_cases hl : l < 12
    · have huses : ∀ l < 12, ∀ u ∈ counting.uses (.instr l), u.1 ∈ counting.instrs ∧
          (counting.instr u.1).operands[u.2]? = some (.instr l) := by decide
      exact huses l hl u hu
    · have hnil : counting.uses (.instr l) = [] := by
        unfold counting
        dsimp only
        split <;> simp_all
      rw [hnil] at hu
      cases hu
  stored := by
    have hplace : ∀ b ∈ counting.blocks, ∀ i ∈ counting.body b, ∀ v ∈ loadOf counting i,
        b ≠ counting.entry ∧ ∃ j ∈ counting.body counting.entry, storeOf counting j = some v := by
      decide
    intro b hb l₁ i l₂ v hbody hload
    obtain ⟨hne, hst⟩ := hplace b hb i (by rw [hbody]; simp) v hload
    exact Or.inr fun p hw => ⟨counting.entry, entry_mem_walk hw hne, hst⟩
  nodup := by decide
  terminated := by decide
  targets := by
    have hsucc : ∀ b ∈ counting.blocks,
        counting.succ b = (counting.instr (counting.termOf b)).targets.reverse := by decide
    intro b hb c
    rw [hsucc b hb, List.mem_reverse]
  entry_pre := rfl
  users := by
    have huses : ∀ u ∈ counting.instrs, ∀ no < (counting.instr u).operands.length,
        ∀ v ∈ (counting.instr u).operands[no]?, v.asInstr.isSome = true →
          (u, no) ∈ counting.uses v := by decide
    intro u hu no l hno
    exact huses u hu no (List.getElem?_eq_some_iff.mp hno).1 _ hno rfl
  ssa := by
    have hplace : ∀ b ∈ counting.blocks, ∀ n < (counting.body b).length,
        ∀ i ∈ (counting.body b)[n]?, ∀ v ∈ (counting.instr i).operands, ∀ j ∈ v.asInstr,
          j ∈ (counting.body b).take n ∨
            (b ≠ counting.entry ∧ j ∈ counting.body counting.entry) := by decide
    intro b hb pre i post hbody j hj
    have hn : pre.length < (counting.body b).length := by
      rw [hbody]
      simp
    have hget : (counting.body b)[pre.length]? = some i := by
      rw [hbody]
      simp
    rcases hplace b hb pre.length hn i hget _ hj j rfl with hmem | ⟨hne, hmem⟩
    · rw [hbody, List.take_left] at hmem
      exact Or.inl hmem
    · exact Or.inr ⟨counting.entry, ⟨Dom.root, hne.symm⟩, hmem⟩
  shape := by decide
  scalars := by
    have hplace : ∀ i ∈ counting.instrs, ∀ no < (counting.instr i).operands.length,
        ∀ v ∈ (counting.instr i).operands[no]?, (counting.cell v).isSome = true →
          ((counting.instr i).op = .load ∧ no = 0) ∨ ((counting.instr i).op = .store ∧ no = 1) := by
      decide
    intro i hi no v hno hcell
    exact hplace i hi no (List.getElem?_eq_some_iff.mp hno).1 v hno hcell
  values := by
    have hplace : ∀ i ∈ counting.instrs, ∀ v ∈ storeOf counting i,
        (rval counting i).asBlock = none := by decide
    exact hplace

/-- The theorem at `f`. -/
theorem run_counting_preserves :
    ∃ G, run ⟨id, fun l => .refl l⟩ ⟨id, fun l => .refl l⟩ 25 (fun _ => none) counting = .ok G ∧
      ∀ (M : Machine Int Nat) (arb arb' : Nat → InstrId → Int) (w n : Nat),
        G.observe M arb w n = counting.observe M arb' w n := by
  have hok : (match run ⟨id, fun l => .refl l⟩ ⟨id, fun l => .refl l⟩ 25 (fun _ => none)
      counting with
    | .error _ => false
    | .ok _ => true) = true := by
    decide +kernel
  cases hrun : run ⟨id, fun l => .refl l⟩ ⟨id, fun l => .refl l⟩ 25 (fun _ => none) counting with
  | error e =>
    rw [hrun] at hok
    cases hok
  | ok G =>
    exact ⟨G, rfl, run_preserves counting_input ⟨id, fun l => .refl l⟩ ⟨id, fun l => .refl l⟩
      (fun _ => none) (by decide) hrun⟩

end Cminusfc.Optimization.Mem2Reg
