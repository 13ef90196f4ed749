import Cminusfc.Frontend.UsesExact
import Cminusfc.Frontend.WellFormed
import Cminusfc.Optimization.Mem2RegCorrect

/-!
# From the text to the result of `Mem2Reg`

`main` hands what the builder leaves to `Mem2Reg`. The pass expects SSA form, exact use lists and
edges that fit the terminators (`SsaInput`); the functions of the builder are like that where the
only `return` is the last statement (`ssaInput_of_formed`). So what the text says is what the
function does behind the pass (`mem2reg_correct`).

Two conditions are left to the text. A scalar must be assigned on every way to a use, for otherwise
the pass finds no value; and no array may be read as a whole, as in the statement `a;`: the pass
takes its slot for a scalar.

About `src/cminusfc/cminusfc.cpp`, `src/cminusfc/cminusf_builder.cpp` 5-407 and
`src/optimization/Mem2Reg.cpp` 9-196. Out of scope: the other passes and the code generator, which
`main` runs behind these.
-/

namespace Cminusfc.LightIR.Func

variable {Val World : Type} {M : Machine Val World} {f g : Func}

/-- Only the blocks and their instructions are executed. -/
theorem observe_congr (hentry : g.entry = f.entry) (hbody : g.body = f.body)
    (hinstr : g.instr = f.instr) (arb : Nat → InstrId → Val) (w : World) (n : Nat) :
    g.observe M arb w n = f.observe M arb w n := by
  have hcell : g.cell = f.cell := by
    funext v
    cases v with
    | instr a => simp only [cell, hinstr]
    | _ => rfl
  have hexec : ∀ i (st : State Val World), g.execInstr M i st = f.execInstr M i st := by
    intro i st
    simp only [execInstr, execEffect, hinstr, hcell]
  have hrest : ∀ l (st : State Val World), g.execBody M l st = f.execBody M l st := by
    intro l
    induction l with
    | nil => exact fun _ => rfl
    | cons i l ih =>
      intro st
      simp only [execBody, hinstr, hexec, ih]
  have hstep : g.stepBlock M arb = f.stepBlock M arb := by
    funext k c
    simp only [stepBlock, enter, phiValue, hbody, hinstr, hrest]
  have hstart : g.start M w = f.start M w := by simp only [start, hentry]
  rw [observe, observe, hstep, hstart]

end Cminusfc.LightIR.Func

namespace Cminusfc.Pipeline

open LightIR Frontend
open Optimization.Mem2Reg (SsaInput StoredBefore Address loadOf storeOf rval isVar)
open Optimization.Dominators (enoughFuel)

variable {f : Func} {p : BlockId → BlockId} {b : BlockId} {i : InstrId}

/-- No load or store goes to a whole array. -/
def ScalarAccesses (f : Func) : Prop :=
  ∀ i ∈ f.instrs, ∀ no, Address f i no → ∀ a, (f.instr i).operands[no]? = some (.instr a) →
    ∀ e, (f.instr a).ty = .pointer e → e.isArray = false

/-- What a load or a store goes to. -/
theorem address_of_formed (h : Formed p ∅ f) (hi : i ∈ f.body b) {no : Nat} (ha : Address f i no)
    {v : Value} (hv : (f.instr i).operands[no]? = some v) : Addressable f v := by
  rcases ha with ⟨hop, rfl⟩ | ⟨hop, rfl⟩
  · obtain ⟨a, hops, haddr⟩ := (h.proper b i hi).load hop
    rw [hops] at hv
    cases hv
    exact haddr
  · obtain ⟨w, a, hops, -, haddr⟩ := (h.proper b i hi).store hop
    rw [hops] at hv
    cases hv
    exact haddr

/-- **What the builder leaves is what `Mem2Reg` expects.** -/
theorem ssaInput_of_formed (h : Formed p ∅ f) (hj : Joined ∅ f.toCfg) (hr : f.Recorded)
    (hblocks : f.blocks.Nodup) (harray : ScalarAccesses f) (hstored : StoredBefore f) :
    SsaInput f where
  reach b hb := (hj.reach b hb).resolve_left id
  inverse a b := by
    rw [← List.count_pos_iff, ← List.count_pos_iff, hj.inverse]
  closed a _ b hb := h.closed a b hb
  pre_closed b _ a ha := by
    have hedge : b ∈ f.succ a := by
      rw [← List.count_pos_iff, hj.inverse, List.count_pos_iff]
      exact ha
    exact (hj.closed a b hedge).1
  allocated i hi := by
    obtain ⟨b, -, hib⟩ := List.mem_flatMap.mp hi
    exact ⟨hr.body b i hib, fun j hj => h.lt_next hr.body hib hj⟩
  no_phi i hi := by
    obtain ⟨b, -, hib⟩ := List.mem_flatMap.mp hi
    simpa [Optimization.Mem2Reg.isPhi] using (h.proper b i hib).op
  address i hi no ha v hv := by
    obtain ⟨b, -, hib⟩ := List.mem_flatMap.mp hi
    rcases address_of_formed h hib ha hv with hglobal | hgep | ⟨a, rfl, hop⟩
    · exact .inl hglobal
    · exact .inr (.inl hgep)
    · refine .inr (.inr ?_)
      have hmem : .instr a ∈ (f.instr i).operands := List.mem_of_getElem? hv
      obtain ⟨pre, post, hsplit⟩ := List.append_of_mem hib
      obtain ⟨c, hac⟩ : ∃ c, a ∈ f.body c := by
        rcases h.operands b pre i post hsplit a hmem with hpre | ⟨c, -, -, hc⟩
        · exact ⟨b, by rw [hsplit]; exact List.mem_append_left _ hpre⟩
        · exact ⟨c, hc⟩
      have hptr := ((h.proper c a hac).alloca hop).2
      have hscalar := harray i hi no ha a hv
      cases hty : (f.instr a).ty with
      | pointer e => simp [Func.cell, hop, hty, Ty.pointerElementType, hscalar e hty]
      | _ =>
        rw [hty] at hptr
        cases hptr
  uses l u hu := by
    obtain ⟨hlt, hop⟩ := (hr.uses (.instr l) u).mp hu
    exact ⟨hr.mem_instrs.mpr hlt, hop⟩
  stored := hstored
  nodup := h.instrs_nodup hblocks
  terminated := h.wellTerminated
  targets b hb := h.succ_iff hb
  entry_pre := hj.entry
  users u hu no l hop := (hr.uses (.instr l) (u, no)).mpr ⟨hr.mem_instrs.mp hu, hop⟩
  ssa b hb pre i post hsplit j hj := by
    rcases h.operands b pre i post hsplit j hj with hmem | ⟨a, hne, habove, hmem⟩
    · exact .inl hmem
    · exact .inr ⟨a, habove.sdom h.nested hne, hmem⟩
  shape i hi := by
    obtain ⟨b, -, hib⟩ := List.mem_flatMap.mp hi
    refine ⟨fun hop => ?_, fun hop => ?_⟩
    · obtain ⟨a, hops, -⟩ := (h.proper b i hib).load hop
      rw [hops]
      rfl
    · obtain ⟨w, a, hops, -⟩ := (h.proper b i hib).store hop
      rw [hops]
      rfl
  scalars i hi := by
    obtain ⟨b, -, hib⟩ := List.mem_flatMap.mp hi
    exact (h.proper b i hib).scalars
  values i hi v hv := by
    obtain ⟨b, -, hib⟩ := List.mem_flatMap.mp hi
    have hop := Optimization.Mem2Reg.storeOf_op hv
    obtain ⟨w, a, hops, hblock, -⟩ := (h.proper b i hib).store hop
    rw [rval, hops]
    exact hblock

/-! ## The names -/

theorem SsaInput.setInstrName (h : SsaInput f) : SsaInput f.setInstrName :=
  ⟨⟨h.reach, h.inverse, h.closed, h.pre_closed, h.allocated, h.no_phi, h.address, h.uses, h.stored⟩,
    h.nodup, h.terminated, h.targets, h.entry_pre, h.users, h.ssa, h.shape, h.scalars, h.values⟩

/-! ## The pass -/

/-- What is seen of a function is how it behaves. -/
theorem behaves_of_observe {Val World : Type} {M : Machine Val World} {G : Func}
    {arb : Nat → InstrId → Val} {n : Nat} {w : World} {o : Halt Val World}
    (h : f.Behaves M arb n w o) (hobs : ∀ m, G.observe M arb w m = f.observe M arb w m) :
    G.Behaves M arb n w o := by
  cases o with
  | done r =>
    obtain ⟨m, hm⟩ := h
    exact ⟨m, fun m' hm' => (hobs m').trans (hm m' hm')⟩
  | undefined => trivial
  | outOfFuel =>
    obtain ⟨w', hw'⟩ := h
    exact ⟨w', (hobs n).trans hw'⟩

/-- **The text and the result of `Mem2Reg`**: what `main` has after the builder, `set_print_name`
and the pass does what the text of the function says. -/
theorem mem2reg_correct {ds ds' : List Declaration} {d : FunDeclaration} {B : Builder}
    (h : visitProgram (ds ++ .fn d :: ds') freshBuilder = .ok B)
    (hq : ∀ e ∈ ds, e.quiet = true) (hlast : d.returnsLast = true)
    (hagreed : d.agreed (Context.of ds d) = true) :
    ∃ f, (B.functions ++ [B.fn])[(functionTypes ds).length + 1]? = some f ∧ f.name = d.id ∧
      ∃ l : List InstrId, l.length = d.decls ∧ l.Pairwise (· < ·) ∧
        (∀ i ∈ l, (f.instr i).op = .alloca) ∧
        (ScalarAccesses f → StoredBefore f → ∀ vars blocks old fuel G, enoughFuel f.toCfg ≤ fuel →
          Optimization.Mem2Reg.run vars blocks fuel old f.setInstrName = .ok G →
            ∀ (Val World : Type) (M : Machine Val World), Lawful M →
              ∀ arb n w addr, Numbered M addr 0 l →
                G.Behaves M arb n w (d.meaning M (Context.of ds d) addr n w)) := by
  obtain ⟨B₀, B₁, ht, hd, hcalm, h₁, hindex, hname⟩ := visitProgram_split h hq
  obtain ⟨l, hcount, hsorted, hslots, hbehaves⟩ := visitFunDeclaration_correct ht hd hcalm
    (quiet_of_returnsLast d.statementList hlast) hagreed h₁
  obtain ⟨p, hF⟩ := visitFunDeclaration_formed ht hd hcalm hlast h₁
  have hwf := visitFunDeclaration_wf h₁
  have hblocks : B₁.fn.blocks.Nodup := by
    rw [hwf.blocks]
    exact List.nodup_range
  have hrecorded := (visitFunDeclaration_assembled h₁).builds.recorded (newFunc_recorded _ _)
  refine ⟨B₁.fn, hindex, hname, l, hcount, hsorted, fun i hi => (hslots i hi).2, ?_⟩
  intro harray hstored vars blocks old fuel G hfuel hrun Val World M hM arb n w addr haddr
  have hinput := ssaInput_of_formed hF (visitFunDeclaration_linked h₁).1.joined hrecorded hblocks
    harray hstored
  obtain ⟨g, phis, hren⟩ := Optimization.Mem2Reg.run_renamed (SsaInput.setInstrName hinput) vars
    blocks old hfuel hrun
  refine behaves_of_observe (hbehaves Val World M hM arb n w addr haddr) fun m => ?_
  exact (hren.observe_eq arb arb w m).trans
    (@Func.observe_congr _ _ M B₁.fn B₁.fn.setInstrName rfl rfl rfl arb w m)

/-! ## A sum -/

/-- Every load follows a store in its block, or one in the entry block. -/
def storesFirst (f : Func) : Bool :=
  f.blocks.all fun b => (List.range (f.body b).length).all fun n =>
    match (f.body b)[n]?.bind (loadOf f) with
    | none => true
    | some v => ((f.body b).take n).any (fun j => storeOf f j = some v) ||
        b != f.entry && (f.body f.entry).any fun j => storeOf f j = some v

theorem storedBefore_of_storesFirst (h : storesFirst f = true) : StoredBefore f := by
  intro b hb l₁ i l₂ v hbody hload
  have hblock := List.all_eq_true.mp h b hb
  have hlen : l₁.length < (f.body b).length := by
    rw [hbody]
    simp
  have hhere := List.all_eq_true.mp hblock l₁.length (List.mem_range.mpr hlen)
  have hget : (f.body b)[l₁.length]? = some i := by
    rw [hbody]
    simp
  have htake : (f.body b).take l₁.length = l₁ := by rw [hbody, List.take_left]
  rw [hget, Option.bind_some, hload, htake] at hhere
  rcases Bool.or_eq_true_iff.mp hhere with hfirst | hentry
  · obtain ⟨j, hj, hs⟩ := List.any_eq_true.mp hfirst
    exact .inl ⟨j, hj, of_decide_eq_true hs⟩
  · obtain ⟨hne, hany⟩ := Bool.and_eq_true_iff.mp hentry
    obtain ⟨j, hj, hs⟩ := List.any_eq_true.mp hany
    exact .inr fun p hw => ⟨f.entry, Optimization.Mem2Reg.entry_mem_walk hw (bne_iff_ne.mp hne),
      ⟨j, hj, of_decide_eq_true hs⟩⟩

/-- No load or store goes to a whole array. -/
def scalarsOnly (f : Func) : Bool :=
  f.instrs.all fun i => (f.instr i).operands.all fun v =>
    (f.typeOf v).bind Ty.pointerElementType |>.all fun e => !e.isArray

theorem scalarAccesses_of_scalarsOnly (h : scalarsOnly f = true) : ScalarAccesses f := by
  intro i hi no _ a hv e hty
  have hall := List.all_eq_true.mp (List.all_eq_true.mp h i hi) _ (List.mem_of_getElem? hv)
  simpa [Func.typeOf, hty, Ty.pointerElementType] using hall

/-- The first function of a program. -/
def firstFunction (ds : List Declaration) : Option Func :=
  (visitProgram ds freshBuilder).toOption.bind fun B => (B.functions ++ [B.fn])[1]?

/-- The sum is returned. -/
theorem mem2reg_correct_summation : ∃ f G, firstFunction [.fn summation] = some f ∧
    Optimization.Mem2Reg.run ⟨id, fun l => .refl l⟩ ⟨id, fun l => .refl l⟩ 40 (fun _ => none)
      f.setInstrName = .ok G ∧
    ∃ m, ∀ m' ≥ m, G.observe (Codegen.Canonical.intMachine 0 fun _ => 0) (fun _ _ => 0) () m' =
      .inr (.returned (some 6) ()) := by
  obtain ⟨M, hM⟩ : ∃ M, M = Codegen.Canonical.intMachine 0 fun _ => 0 := ⟨_, rfl⟩
  have hchecks : (firstFunction [.fn summation]).any (fun f => storesFirst f && scalarsOnly f &&
      decide (enoughFuel f.toCfg ≤ 40) &&
      (Optimization.Mem2Reg.run ⟨id, fun l => .refl l⟩ ⟨id, fun l => .refl l⟩ 40 (fun _ => none)
        f.setInstrName).toOption.isSome) = true := by
    decide +kernel
  have hmeaning : summation.meaning M (Context.of [] summation) (fun _ => 0) 10 () =
      .done (.returned (some 6) ()) := by
    rw [hM]
    exact eq_of_returnedValue (by decide +kernel)
  rw [← hM]
  cases h : visitProgram [.fn summation] freshBuilder with
  | error e =>
    rw [firstFunction, h] at hchecks
    cases hchecks
  | ok B =>
    obtain ⟨f, hf, -, l, -, -, -, hbehaves⟩ :=
      @mem2reg_correct [] [] summation B h nofun (by decide) (by decide)
    have hfirst : firstFunction [.fn summation] = some f := by
      rw [firstFunction, h]
      exact hf
    rw [hfirst] at hchecks
    simp only [Option.any_some, Bool.and_eq_true, decide_eq_true_eq] at hchecks
    obtain ⟨⟨⟨hstores, hscalars⟩, hfuel⟩, hsome⟩ := hchecks
    obtain ⟨G, hrun⟩ : ∃ G, Optimization.Mem2Reg.run ⟨id, fun l => .refl l⟩
        ⟨id, fun l => .refl l⟩ 40 (fun _ => none) f.setInstrName = .ok G := by
      cases hrun : Optimization.Mem2Reg.run ⟨id, fun l => .refl l⟩ ⟨id, fun l => .refl l⟩ 40
          (fun _ => none) f.setInstrName with
      | error e =>
        rw [hrun] at hsome
        cases hsome
      | ok G => exact ⟨G, rfl⟩
    have haddr : Numbered M (fun _ => 0) 0 l := fun _ _ _ => by rw [hM]; rfl
    have hend := hbehaves (scalarAccesses_of_scalarsOnly hscalars)
      (storedBefore_of_storesFirst hstores) _ _ _ _ G hfuel hrun (BitVec 32) Unit M
      (hM ▸ intMachine_lawful) (fun _ _ => 0) 10 () (fun _ => 0) haddr
    rw [hmeaning] at hend
    exact ⟨f, G, hfirst, hrun, hend⟩

end Cminusfc.Pipeline
