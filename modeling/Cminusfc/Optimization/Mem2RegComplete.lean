import Mathlib.Tactic.FinCases
import Cminusfc.LightIR.Exec
import Cminusfc.Optimization.Mem2RegOrder

/-!
# On which functions `Mem2Reg::run` completes

`Input` is a function as the IR builder leaves it, in which a store precedes every load of a
variable on every path. A load then never finds an empty stack (`Input.covered`, by the frontier
cover). A phi may: `Safe` says for which functions and orders it does not, and `run_completes_iff`
that the pass completes exactly then.

The pass fails on a variable that lives in one branch of a conditional only, if that branch is
walked first (`run_scopedStore_fails`).

About `src/optimization/Mem2Reg.cpp` 9-196.
-/

namespace Cminusfc.Optimization.Mem2Reg

open Cminusfc.LightIR Dominance
open Dominators (InFrontier enoughFuel)

/-- A store to its variable stands in front of every load on every path from the entry. -/
def StoredBefore (f : Func) : Prop :=
  ∀ b ∈ f.blocks, ∀ l₁ i l₂ v, f.body b = l₁ ++ i :: l₂ → loadOf f i = some v →
    (∃ j ∈ l₁, storeOf f j = some v) ∨ ∀ p, Walk f.Edge f.entry b (b :: p) → ∃ a ∈ p, Stores f v a

/-- The functions the pass is run on. -/
structure Input (f : Func) : Prop where
  reach : ∀ b ∈ f.blocks, f.Reach b
  inverse : ∀ a b, b ∈ f.succ a ↔ a ∈ f.pre b
  closed : ∀ a ∈ f.blocks, ∀ b ∈ f.succ a, b ∈ f.blocks
  pre_closed : ∀ b ∈ f.blocks, ∀ a ∈ f.pre b, a ∈ f.blocks
  allocated : ∀ i ∈ f.instrs, i < f.next ∧ ∀ j, Value.instr j ∈ (f.instr i).operands → j < f.next
  no_phi : ∀ i ∈ f.instrs, isPhi f i = false
  /-- Loads and stores go to globals, array elements and scalar allocas. -/
  address : ∀ i ∈ f.instrs, ∀ no, Address f i no → ∀ v, (f.instr i).operands[no]? = some v →
    v.isGlobal = true ∨ f.isGep v = true ∨ (f.cell v).isSome = true
  /-- A recorded use is one. -/
  uses : ∀ l, ∀ u ∈ f.uses (.instr l), u.1 ∈ f.instrs ∧
    (f.instr u.1).operands[u.2]? = some (.instr l)
  stored : StoredBefore f

/-- Along the order in which the blocks are entered: where an edge leads to a phi whose variable some
block entered earlier gives a value, a dominator of the edge's source gives it one. -/
def Safe (f : Func) (order : List BlockId) : Prop :=
  ∀ pre b post, order = pre ++ b :: post → ∀ S ∈ f.succ b, ∀ v, PhiAt f v S →
    (∃ a ∈ pre, Defines f v a) → ∃ a, f.Dominates a b ∧ Defines f v a

variable {f g : Func} {phis : BlockId → List InstrId} {b d : BlockId} {v : Value} {i : InstrId}

/-- The graph of the function. -/
def Input.flowGraph (h : Input f) : FlowGraph := ⟨f.toCfg, h.inverse, h.closed, h.pre_closed⟩

theorem Input.reach_iff (h : Input f) (b : BlockId) : f.Reach b ↔ b ∈ f.blocks :=
  ⟨h.flowGraph.reach_mem, h.reach b⟩

/-- The blocks that define a variable contain the dominance frontier of each of them, but for the
entry. -/
theorem Input.frontier_closed (h : Input f) (a c : BlockId) (ha : a ∈ f.blocks ∧ Defines f v a)
    (hfr : Frontier f.Edge f.entry a c) (hne : c ≠ f.entry) : c ∈ f.blocks ∧ Defines f v c := by
  obtain ⟨P, hP, hPc, -⟩ := hfr.1
  have hc := h.closed P ((h.reach_iff P).mp hP) c hPc
  have hin : InFrontier f.toCfg a c := ⟨hfr, fun heq => absurd heq hne⟩
  cases ha.2 with
  | inl hstore => exact ⟨hc, Or.inr (.store ha.1 hstore hc hin)⟩
  | inr hphi => exact ⟨hc, Or.inr (.phi hphi hc hin)⟩

/-- A walk from the entry to a load meets, before the load, a block that defines the variable and
dominates the load: the block itself by a phi, or a strict dominator. -/
theorem Input.covered (h : Input f) (hb : b ∈ f.blocks)
    (hs : ∀ p, Walk f.Edge f.entry b (b :: p) → ∃ a ∈ p, Stores f v a) :
    PhiAt f v b ∨ ∃ a, f.StrictlyDominates a b ∧ Defines f v a := by
  obtain ⟨p, hp, honce⟩ := (h.reach b hb).once
  cases hp with
  | start =>
    obtain ⟨a, ha, -⟩ := hs [] .start
    cases ha
  | @step P _ p hw he =>
    have hnil := List.ne_nil_of_mem hw.last_mem
    rw [List.dropLast_cons_of_ne_nil hnil, List.mem_cons, not_or] at honce
    obtain ⟨a, ha, hsa⟩ := hs p (hw.step he)
    have hra := (h.reach_iff a).mp (hw.reachable_mem ha)
    obtain ⟨x, hx, hdom⟩ := frontier_cover h.frontier_closed hw honce.2 ⟨a, ha, hra, Or.inl hsa⟩
    by_cases hsd : f.StrictlyDominates x b
    · exact Or.inr ⟨x, hsd, hx.2⟩
    · have hfr : Frontier f.Edge f.entry x b := ⟨⟨P, ⟨p, hw⟩, he, hdom⟩, hsd⟩
      have hin : InFrontier f.toCfg x b := ⟨hfr, fun heq => absurd heq.symm honce.1⟩
      cases hx.2 with
      | inl hstore => exact Or.inl (.store hx.1 hstore hb hin)
      | inr hphi => exact Or.inl (.phi hphi hb hin)

/-! ## The function with its phis -/

section Phied

variable (h : Input f) (hP : Phied f g phis)
include h hP

theorem Phied.instr_eq (hi : i ∈ f.instrs) : g.instr i = f.instr i :=
  hP.old i (h.allocated i hi).1

theorem Phied.isGep_eq (hi : i ∈ f.instrs) (hv : v ∈ (f.instr i).operands) :
    g.isGep v = f.isGep v := by
  cases v with
  | instr j => simp [Func.isGep, hP.old j ((h.allocated i hi).2 j hv)]
  | _ => rfl

theorem Phied.storeOf_eq (hi : i ∈ f.instrs) : storeOf g i = storeOf f i := by
  unfold storeOf
  rw [hP.instr_eq h hi]
  match hop : (f.instr i).op, hops : (f.instr i).operands with
  | .store, [_, l] =>
    have hgep := hP.isGep_eq h hi (v := l) (by simp [hops])
    simp [isVar, hgep]
  | .store, [] | .store, [_] | .store, _ :: _ :: _ :: _ => rfl
  | .ret, _ | .br, _ | .add, _ | .sub, _ | .mul, _ | .sdiv, _ | .fadd, _ | .fsub, _ | .fmul, _
  | .fdiv, _ | .alloca, _ | .load, _ | .cmp, _ | .fcmp, _ | .phi, _ | .call, _
  | .getelementptr, _ | .zext, _ | .fptosi, _ | .sitofp, _ => rfl

theorem Phied.loadOf_eq (hi : i ∈ f.instrs) : loadOf g i = loadOf f i := by
  unfold loadOf
  rw [hP.instr_eq h hi]
  match hop : (f.instr i).op, hops : (f.instr i).operands with
  | .load, [l] =>
    have hgep := hP.isGep_eq h hi (v := l) (by simp [hops])
    simp [isVar, hgep]
  | .load, [] | .load, _ :: _ :: _ => rfl
  | .ret, _ | .br, _ | .add, _ | .sub, _ | .mul, _ | .sdiv, _ | .fadd, _ | .fsub, _ | .fmul, _
  | .fdiv, _ | .alloca, _ | .store, _ | .cmp, _ | .fcmp, _ | .phi, _ | .call, _
  | .getelementptr, _ | .zext, _ | .fptosi, _ | .sitofp, _ => rfl

theorem Phied.isPhi_old (hi : i ∈ f.instrs) : isPhi g i = false := by
  rw [isPhi, hP.instr_eq h hi]
  exact h.no_phi i hi

omit h in
theorem Phied.phi_facts (hi : i ∈ phis b) :
    isPhi g i = true ∧ (g.instr i).lval.isSome = true ∧ loadOf g i = none ∧ storeOf g i = none := by
  obtain ⟨-, -, v, ty, hx⟩ := hP.phi b i hi
  simp [isPhi, loadOf, storeOf, hx]

omit h in
theorem Phied.mem_body (hb : b ∈ f.blocks) :
    i ∈ g.body b ↔ i ∈ phis b ∨ i ∈ f.body b ∧ i ∈ f.instrs := by
  rw [hP.body, List.mem_append]
  exact or_congr_right ⟨fun hi => ⟨hi, Func.mem_instrs hb hi⟩, And.left⟩

variable (hat : ∀ b v, (∃ i ∈ phis b, (g.instr i).lval = some v) ↔ PhiAt f v b)
include hat

/-- The phis of the function are the iterated frontier. -/
theorem Phied.phiOf_iff (hb : b ∈ f.blocks) :
    (∃ i ∈ g.body b, phiOf g i = some v) ↔ PhiAt f v b := by
  rw [← hat]
  constructor
  · rintro ⟨i, hi, hv⟩
    have hphi := isPhi_of_phiOf hv
    rcases (hP.mem_body hb).mp hi with hi | ⟨-, hi⟩
    · simp only [phiOf, hphi, if_true] at hv
      exact ⟨i, hi, hv⟩
    · rw [hP.isPhi_old h hi] at hphi
      cases hphi
  · rintro ⟨i, hi, hv⟩
    exact ⟨i, (hP.mem_body hb).mpr (Or.inl hi), by simp [phiOf, (hP.phi_facts hi).1, hv]⟩

theorem Phied.gives_iff (hb : b ∈ f.blocks) : Gives g v b ↔ Defines f v b := by
  unfold Gives Defines
  rw [← hP.phiOf_iff h hat hb]
  constructor
  · rintro ⟨i, hi, hv⟩
    cases defOf_cases hv with
    | inr hphi => exact Or.inr ⟨i, hi, hphi⟩
    | inl hs =>
      rcases (hP.mem_body hb).mp hi with hi' | ⟨hi', hif⟩
      · rw [(hP.phi_facts hi').2.2.2] at hs
        cases hs
      · rw [hP.storeOf_eq h hif] at hs
        exact Or.inl ⟨i, hi', hs⟩
  · rintro (⟨i, hi, hs⟩ | ⟨i, hi, hphi⟩)
    · have hif := Func.mem_instrs hb hi
      refine ⟨i, (hP.mem_body hb).mpr (Or.inr ⟨hi, hif⟩), ?_⟩
      simp [defOf, hP.storeOf_eq h hif, hs]
    · exact ⟨i, hi, defOf_of_phi hphi⟩

theorem Phied.ready : Ready g := by
  have hblocks : g.blocks = f.blocks := by
    unfold Cfg.blocks
    rw [hP.toCfg]
  refine ⟨?_, ?_, ?_, ?_⟩
  · rw [hblocks, hP.toCfg]
    exact h.closed
  · intro b hb i hi hphi
    rw [hblocks] at hb
    rcases (hP.mem_body hb).mp hi with hi | ⟨-, hi⟩
    · exact (hP.phi_facts hi).2.1
    · rw [hP.isPhi_old h hi] at hphi
      cases hphi
  · intro l hl u hu haddr
    rw [hP.uses] at hu
    obtain ⟨huf, hop⟩ := h.uses l u hu
    have hlt := (h.allocated u.1 huf).2 l (List.mem_of_getElem? hop)
    rw [hP.old l hlt] at hl
    have haddr' : Address f u.1 u.2 := by
      unfold Address at haddr ⊢
      rwa [hP.instr_eq h huf] at haddr
    rcases h.address u.1 huf u.2 haddr' _ hop with hv | hv | hv
    · simp [Value.isGlobal] at hv
    · simp [Func.isGep, hl] at hv
    · simp [Func.cell, hl] at hv
  · intro b hb l₁ i l₂ v hbody hload
    rw [hblocks] at hb
    rw [hP.body] at hbody
    have hi : i ∈ f.instrs := by
      have hmem : i ∈ phis b ++ f.body b := by
        rw [hbody]
        simp
      rcases List.mem_append.mp hmem with hmem | hmem
      · rw [(hP.phi_facts hmem).2.2.1] at hload
        cases hload
      · exact Func.mem_instrs hb hmem
    -- the load stands behind the phis
    obtain ⟨l, hl₁, hfl⟩ : ∃ l, l₁ = phis b ++ l ∧ f.body b = l ++ i :: l₂ := by
      rcases List.append_eq_append_iff.mp hbody with ⟨l, hl, hr⟩ | ⟨l, hl, hr⟩
      · exact ⟨l, hl, hr⟩
      · cases l with
        | nil => exact ⟨[], by simpa using hl.symm, by simpa using hr.symm⟩
        | cons j l =>
          obtain ⟨rfl, -⟩ := List.cons.inj hr
          have : i ∈ phis b := by
            rw [hl]
            simp
          rw [(hP.phi_facts this).2.2.1] at hload
          cases hload
    rw [hP.loadOf_eq h hi] at hload
    have hdef : ∀ j ∈ l, storeOf f j = some v → ∃ j ∈ l₁, defOf g j = some v := by
      intro j hj hjv
      have hjf : j ∈ f.instrs := Func.mem_instrs hb (by rw [hfl]; exact List.mem_append_left _ hj)
      refine ⟨j, ?_, by simp [defOf, hP.storeOf_eq h hjf, hjv]⟩
      rw [hl₁]
      exact List.mem_append_right _ hj
    cases h.stored b hb l i l₂ v hfl hload with
    | inl hj =>
      obtain ⟨j, hj, hjv⟩ := hj
      exact Or.inl (hdef j hj hjv)
    | inr hwalk =>
      cases h.covered hb hwalk with
      | inl hphi =>
        obtain ⟨j, hj, hjv⟩ := (hat b v).mpr hphi
        obtain ⟨hjp, -, -, hjs⟩ := hP.phi_facts hj
        refine Or.inl ⟨j, ?_, by simp [defOf, hjs, phiOf, hjp, hjv]⟩
        rw [hl₁]
        exact List.mem_append_left _ hj
      | inr hdom =>
        obtain ⟨a, ha, hav⟩ := hdom
        have hab := (h.reach_iff a).mp (ha.1.reachable (h.reach b hb))
        refine Or.inr ⟨a, ?_, (hP.gives_iff h hat hab).mpr hav⟩
        rw [hP.toCfg]
        exact ha

theorem Phied.fine_iff {W : List BlockId} (hb : b ∈ f.blocks) (hW : ∀ a ∈ W, a ∈ f.blocks) :
    Fine g W b ↔ ∀ S ∈ f.succ b, ∀ v, PhiAt f v S → (∃ a ∈ W, Defines f v a) →
      ∃ a, f.Dominates a b ∧ Defines f v a := by
  unfold Fine
  rw [hP.toCfg]
  refine forall₂_congr fun S hS => ?_
  have hgiven : ∀ v, (∃ a ∈ W, Gives g v a) ↔ ∃ a ∈ W, Defines f v a := fun v =>
    exists_congr fun a => and_congr_right fun ha => hP.gives_iff h hat (hW a ha)
  have habove : ∀ v, (∃ a, f.Dominates a b ∧ Gives g v a) ↔ ∃ a, f.Dominates a b ∧ Defines f v a :=
    fun v => exists_congr fun a => and_congr_right fun ha =>
      hP.gives_iff h hat ((h.reach_iff a).mp (ha.reachable (h.reach b hb)))
  constructor
  · intro hfine v hphi hW'
    obtain ⟨i, hi, hv⟩ := (hP.phiOf_iff h hat (h.closed b hb S hS)).mpr hphi
    exact (habove v).mp (hfine i hi v hv ((hgiven v).mpr hW'))
  · intro hsafe i hi v hv hW'
    have hphi := (hP.phiOf_iff h hat (h.closed b hb S hS)).mp ⟨i, hi, hv⟩
    exact (habove v).mpr (hsafe v hphi ((hgiven v).mp hW'))

theorem Phied.along_iff {order : List BlockId} (ho : ∀ b ∈ order, b ∈ f.blocks) :
    Fallible.Along (Fine g) [] order ↔ Safe f order := by
  rw [Fallible.along_iff]
  unfold Safe
  refine forall₄_congr fun pre b post horder => ?_
  rw [List.nil_append]
  refine hP.fine_iff h hat (ho b (by simp [horder])) fun a ha => ho a ?_
  rw [horder]
  exact List.mem_append_left _ ha

end Phied

/-! ## The pass -/

/-- What the three phases of the pass find, and when the last completes. -/
theorem run_phases (h : Input f) (vars : SetOrder Value) (blocks : SetOrder BlockId)
    (old : Dominators.IdomMap) {fuel : Nat} (hfuel : enoughFuel f.toCfg ≤ fuel) :
    ∃ dom g phis, Dominators.run f.toCfg fuel old = .ok dom ∧
      IsTree f.toCfg (fun bb => blocks.enum (dom.domTreeSucc bb)) ∧
      generatePhi vars blocks dom fuel f = .ok g ∧ Phied f g phis ∧
      (∀ b v, (∃ i ∈ phis b, (g.instr i).lval = some v) ↔ PhiAt f v b) ∧
      f.blocks.length < fuel := by
  obtain ⟨dom, hrun, hD⟩ := Dominators.run_spec h.flowGraph h.reach old hfuel
  have hlen : 2 * f.blocks.length < fuel := by
    unfold enoughFuel at hfuel
    omega
  obtain ⟨g, phis, hgen, hP, hat⟩ := generatePhi_spec blocks vars hD hlen
  exact ⟨dom, g, phis, hrun, DomTree.isTree hD h.reach_iff blocks, hgen, hP, hat, by omega⟩

/-- The start of the walk. -/
theorem ctx_entry (g : Func) : Ctx g [] g.entry fun _ => none := by
  refine ⟨fun v => ?_, by simp [HasKey]⟩
  simp only [Option.getD_none, ne_eq, not_true_eq_false, false_iff, not_exists, not_and]
  intro a ha
  exact absurd ha.1.eq_root ha.2

/-- **`Mem2Reg::run` completes exactly on the functions that are safe** for the order in which the
blocks are entered, the preorder of the dominator tree. It never takes the back of an empty stack
for a load; the assertion on the stack of a phi is what fails otherwise. -/
theorem run_completes_iff (h : Input f) (vars : SetOrder Value) (blocks : SetOrder BlockId)
    (old : Dominators.IdomMap) {fuel : Nat} (hfuel : enoughFuel f.toCfg ≤ fuel) :
    ∃ dom, Dominators.run f.toCfg fuel old = .ok dom ∧
      ((∃ g, run vars blocks fuel old f = .ok g) ↔
        Safe f (visitOrder (fun bb => blocks.enum (dom.domTreeSucc bb)) fuel f.entry)) := by
  obtain ⟨dom, g, phis, hdom, hT, hgen, hP, hat, hlen⟩ := run_phases h vars blocks old hfuel
  refine ⟨dom, hdom, ?_⟩
  have hT' : IsTree g.toCfg fun bb => blocks.enum (dom.domTreeSucc bb) := by rwa [hP.toCfg]
  have hentry : g.entry = f.entry := by rw [hP.toCfg]
  have hctx : Ctx g [] f.entry fun _ => none := hentry ▸ ctx_entry g
  obtain ⟨hiff, -⟩ := reName_spec (hP.ready h hat) hT' fuel f.entry [] [] [] g (fun _ => none)
    (by rw [← hentry]; exact List.mem_cons_self) (by rw [← hentry]; exact room_entry (by
      unfold Cfg.blocks at hlen ⊢
      rwa [hP.toCfg])) (hP.ready h hat).kept hctx (by simp)
  rw [hP.along_iff h hat fun b hb =>
    (hT.of_mem_visitOrder fuel f.entry List.mem_cons_self b hb).1] at hiff
  rw [← hiff]
  simp only [run, hdom, hgen, Fallible.ok_bind, Fallible.bind_ok, hentry]
  exact ⟨fun ⟨_, s, hs, _⟩ => ⟨s, hs⟩, fun ⟨s, hs⟩ => ⟨_, s, hs, rfl⟩⟩

/-! ## A variable of one branch

`int main(void) { if (input()) { int x; x = 1; } else { } return 0; }`: the stores to `x` have the
block behind the conditional in their frontier. With the true branch walked first, the key of `x` is
there and its stack empty when the false branch fills the phi. -/

/-- The blocks of `main`: entry, true branch, false branch, the block behind. -/
def scopedStoreCfg : Cfg where
  entry := 0
  rest := [1, 2, 3]
  pre bb := match bb with
    | 1 | 2 => [0]
    | 3 => [1, 2]
    | _ => []
  succ bb := match bb with
    | 0 => [2, 1]
    | 1 | 2 => [3]
    | _ => []

/-- `main`. -/
def scopedStore : Func where
  toCfg := scopedStoreCfg
  name := "main"
  retTy := .int32
  body bb := match bb with
    | 0 => [0, 1, 2]
    | 1 => [3, 4, 5]
    | 2 => [6]
    | 3 => [7]
    | _ => []
  instr i := match i with
    | 0 => { op := .call, ty := .int32, operands := [.function "input"], parent := 0 }
    | 1 =>
      { op := .cmp, ty := .int1, operands := [.instr 0, .int32 0], parent := 0, cmpOp := .NE }
    | 2 => { op := .br, ty := .void, operands := [.instr 1, .block 1, .block 2], parent := 0 }
    | 3 => { op := .alloca, ty := .pointer .int32, operands := [], parent := 1 }
    | 4 => { op := .store, ty := .void, operands := [.int32 1, .instr 3], parent := 1 }
    | 5 => { op := .br, ty := .void, operands := [.block 3], parent := 1 }
    | 6 => { op := .br, ty := .void, operands := [.block 3], parent := 2 }
    | 7 => { op := .ret, ty := .void, operands := [.int32 0], parent := 3 }
    | _ => { op := .ret, ty := .void, operands := [], parent := 0 }
  uses v := match v with
    | .instr 0 => [(1, 0)]
    | .instr 1 => [(2, 0)]
    | .instr 3 => [(4, 1)]
    | _ => []
  next := 8

theorem scopedStore_input : Input scopedStore where
  reach := by
    have h₁ : scopedStore.Reach 1 := Reachable.refl.step (by decide)
    have h₂ : scopedStore.Reach 2 := Reachable.refl.step (by decide)
    have h₃ : scopedStore.Reach 3 := h₁.step (by decide)
    intro b hb
    fin_cases hb
    · exact Reachable.refl
    · exact h₁
    · exact h₂
    · exact h₃
  inverse a b := by
    rcases a with _ | _ | _ | _ | a <;> rcases b with _ | _ | _ | _ | b <;>
      simp [scopedStore, scopedStoreCfg]
  closed := by decide
  pre_closed := by decide
  allocated := by
    have hlt : ∀ i ∈ scopedStore.instrs, i < scopedStore.next ∧
        ∀ v ∈ (scopedStore.instr i).operands, ∀ j ∈ v.asInstr, j < scopedStore.next := by decide
    exact fun i hi => ⟨(hlt i hi).1, fun j hj => (hlt i hi).2 _ hj j rfl⟩
  no_phi := by decide
  address := by
    rintro i hi no (⟨hop, rfl⟩ | ⟨hop, rfl⟩) v hv
    · exact absurd hop ((by decide : ∀ i ∈ scopedStore.instrs, (scopedStore.instr i).op ≠ .load) i hi)
    · have hcell : ∀ i ∈ scopedStore.instrs, (scopedStore.instr i).op = .store →
          ∀ v ∈ (scopedStore.instr i).operands[1]?, (scopedStore.cell v).isSome = true := by decide
      exact Or.inr (Or.inr (hcell i hi hop v hv))
  uses := by
    intro l u hu
    by_cases hl : l < 4
    · have huses : ∀ l < 4, ∀ u ∈ scopedStore.uses (.instr l), u.1 ∈ scopedStore.instrs ∧
          (scopedStore.instr u.1).operands[u.2]? = some (.instr l) := by decide
      exact huses l hl u hu
    · rcases l with _ | _ | _ | _ | l
      · exact absurd (by decide) hl
      · exact absurd (by decide) hl
      · exact absurd (by decide) hl
      · exact absurd (by decide) hl
      · simp [scopedStore] at hu
  stored := by
    intro b hb l₁ i l₂ v hbody hload
    have hi : i ∈ scopedStore.instrs := Func.mem_instrs hb (by rw [hbody]; simp)
    have hnone : ∀ i ∈ scopedStore.instrs, loadOf scopedStore i = none := by decide
    rw [hnone i hi] at hload
    cases hload

/-- The order of the block set in which the first children of the entry come first. -/
def childrenUp : SetOrder BlockId := ⟨List.reverse, List.reverse_perm⟩

/-- The theorem at `main`. -/
theorem run_scopedStore_iff :
    ∃ dom, Dominators.run scopedStore.toCfg 25 (fun _ => none) = .ok dom ∧
      ((∃ g, run ⟨id, fun l => .refl l⟩ childrenUp 25 (fun _ => none) scopedStore = .ok g) ↔
        Safe scopedStore
          (visitOrder (fun bb => childrenUp.enum (dom.domTreeSucc bb)) 25 scopedStore.entry)) :=
  run_completes_iff scopedStore_input ⟨id, fun l => .refl l⟩ childrenUp (fun _ => none) (by decide)

/-- **The assertion of `re_name` fails on `main`** when the true branch is walked first. -/
theorem run_scopedStore_fails :
    Input scopedStore ∧
      (∀ dom, Dominators.run scopedStore.toCfg 25 (fun _ => none) = .ok dom →
        childrenUp.enum (dom.domTreeSucc 0) = [1, 2, 3]) ∧
      run ⟨id, fun l => .refl l⟩ childrenUp 25 (fun _ => none) scopedStore =
        .error .assertion := by
  refine ⟨scopedStore_input, fun dom hdom => ?_, ?_⟩
  · have hkids : (Dominators.run scopedStore.toCfg 25 (fun _ => none)).toOption.map
        (fun dom => childrenUp.enum (dom.domTreeSucc 0)) = some [1, 2, 3] := by
      decide +kernel
    rw [hdom] at hkids
    exact Option.some.inj hkids
  have hfail : (match run ⟨id, fun l => .refl l⟩ childrenUp 25 (fun _ => none) scopedStore with
    | .error e => some e
    | .ok _ => none) = some Fault.assertion := by
    decide +kernel
  split at hfail
  · rename_i e he
    rw [he, Option.some.inj hfail]
  · cases hfail

end Cminusfc.Optimization.Mem2Reg
