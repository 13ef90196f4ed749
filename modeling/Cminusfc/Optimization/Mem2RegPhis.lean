import Cminusfc.Optimization.DomTree
import Cminusfc.Optimization.Mem2Reg

/-!
# Where `generate_phi` puts phis

`Iterated df f v b` is the iterated dominance frontier for a map `df` of frontiers: the least set of
blocks that holds the frontiers of the blocks that store `v` and the frontiers of its own members.
`PhiAt f v b` is the same for the frontiers of the function.

The loop over the work list keeps `Work`: what has a phi belongs to the iterated frontier, and a
block that defines the variable is on the work list or has its whole frontier covered.

Results:
* `generatePhi_places`: whatever the frontiers are, the pass ends and puts exactly one phi for `v` in
  front of each block of the iterated frontier, and changes nothing else (`Phied`).
* `generatePhi_spec`: the same for the frontiers that `Dominators` computes.
* `generatePhi_iterated`: how many phis a block has afterwards.

About `generate_phi`, `src/optimization/Mem2Reg.cpp` 26-77.
-/

namespace Cminusfc.Optimization.Mem2Reg

open Cminusfc.LightIR Dominance
open Dominators (InFrontier)

/-- Some instruction of `b` stores to `v`. -/
def Stores (f : Func) (v : Value) (b : BlockId) : Prop := ∃ i ∈ f.body b, storeOf f i = some v

/-- `b` is in the iterated dominance frontier of the stores to `v`. -/
inductive PhiAt (f : Func) (v : Value) : BlockId → Prop
  | store {a b : BlockId} (ha : a ∈ f.blocks) (hs : Stores f v a) (hb : b ∈ f.blocks)
      (hab : InFrontier f.toCfg a b) : PhiAt f v b
  | phi {a b : BlockId} (ha : PhiAt f v a) (hb : b ∈ f.blocks) (hab : InFrontier f.toCfg a b) :
      PhiAt f v b

/-- `b` is in the iterated frontier of the stores to `v`, for the frontiers `df`. -/
inductive Iterated (df : BlockId → List BlockId) (f : Func) (v : Value) : BlockId → Prop
  | store {a b : BlockId} (ha : a ∈ f.blocks) (hs : Stores f v a) (hb : b ∈ df a) :
      Iterated df f v b
  | phi {a b : BlockId} (ha : Iterated df f v a) (hb : b ∈ df a) : Iterated df f v b

/-- `b` gives `v` a value, by a store or by a phi. -/
def Defines (f : Func) (v : Value) (b : BlockId) : Prop := Stores f v b ∨ PhiAt f v b

theorem PhiAt.mem_blocks {f : Func} {v : Value} {b : BlockId} (h : PhiAt f v b) : b ∈ f.blocks := by
  cases h <;> assumption

/-- `g` is `f` with the phis `phis b` in front of each block `b`. -/
structure Phied (f g : Func) (phis : BlockId → List InstrId) : Prop where
  toCfg : g.toCfg = f.toCfg
  old : ∀ i < f.next, g.instr i = f.instr i
  body : ∀ b, g.body b = phis b ++ f.body b
  uses : g.uses = f.uses
  next : f.next ≤ g.next
  phi : ∀ b, ∀ i ∈ phis b, f.next ≤ i ∧ i < g.next ∧ ∃ v ty,
    g.instr i = { op := .phi, ty := ty, operands := [], parent := b, lval := some v }
  unique : ∀ b, ∀ i ∈ phis b, ∀ j ∈ phis b, (g.instr i).lval = (g.instr j).lval → i = j
  nodup : ∀ b, (phis b).Nodup

variable {f : Func} {s : PhiSt} {phis : BlockId → List InstrId} {v w : Value} {a b d : BlockId}

theorem Phied.refl (f : Func) : Phied f f fun _ => [] := by
  constructor <;> simp

/-- The state of the loops: the phis that are there are those `bb_has_var_phi` knows of. -/
structure Placed (f : Func) (s : PhiSt) (phis : BlockId → List InstrId) : Prop
    extends Phied f s.f phis where
  known : ∀ b v, (b, v) ∈ s.bbHasVarPhi ↔ ∃ i ∈ phis b, (s.f.instr i).lval = some v

theorem newInstr_uses_nil (f : Func) {x : Instr} (hx : x.operands = []) :
    (f.newInstr x).uses = f.uses := by
  funext w
  exact Func.newInstr_uses f x (by simp [hx])

/-- What one call of `insertPhi` changes. -/
theorem insertPhi_new (hnew : (d, v) ∉ s.bbHasVarPhi) :
    ∃ ty, (insertPhi v s d).f.toCfg = s.f.toCfg ∧
      (insertPhi v s d).f.instr = Function.update s.f.instr s.f.next
        { op := .phi, ty := ty, operands := [], parent := d, lval := some v } ∧
      (insertPhi v s d).f.body = Function.update s.f.body d (s.f.next :: s.f.body d) ∧
      (insertPhi v s d).f.uses = s.f.uses ∧ (insertPhi v s d).f.next = s.f.next + 1 ∧
      (insertPhi v s d).bbHasVarPhi = (d, v) :: s.bbHasVarPhi ∧
      (insertPhi v s d).workList = s.workList ++ [d] := by
  unfold insertPhi
  rw [if_neg hnew]
  refine ⟨((typeOf s.f v).bind Ty.pointerElementType).getD .void, ?_⟩
  simp [Func.addInstrBegin, newInstr_uses_nil]

/-- One phi more. -/
theorem Placed.insert (hP : Placed f s phis) (hnew : (d, v) ∉ s.bbHasVarPhi) :
    Placed f (insertPhi v s d) (Function.update phis d (s.f.next :: phis d)) := by
  obtain ⟨ty, hcfg, hinstr, hbody, huses, hnext, hknown, -⟩ := insertPhi_new hnew
  have hfresh : ∀ b, ∀ i ∈ phis b, i ≠ s.f.next := fun b i hi =>
    InstrId.ne_of_lt_of_le (hP.phi b i hi).2.1 (Nat.le_refl _)
  have hold : ∀ b, ∀ i ∈ phis b, (insertPhi v s d).f.instr i = s.f.instr i := by
    intro b i hi
    rw [hinstr, Function.update_of_ne (hfresh b i hi)]
  have hself : (insertPhi v s d).f.instr s.f.next =
      { op := .phi, ty := ty, operands := [], parent := d, lval := some v } := by
    rw [hinstr, Function.update_self]
  have hmem : ∀ b i, i ∈ Function.update phis d (s.f.next :: phis d) b ↔
      b = d ∧ i = s.f.next ∨ i ∈ phis b := by
    intro b i
    by_cases hb : b = d
    · subst hb
      simp
    · simp [hb]
  have hlval : ∀ i ∈ phis d, (s.f.instr i).lval ≠ some v := fun i hi h =>
    hnew ((hP.known d v).mpr ⟨i, hi, h⟩)
  refine ⟨⟨hcfg.trans hP.toCfg, ?_, ?_, huses.trans hP.uses, ?_, ?_, ?_, ?_⟩, ?_⟩
  · intro i hi
    rw [hinstr, Function.update_of_ne (InstrId.ne_of_lt_of_le hi hP.next), hP.old i hi]
  · intro b
    rw [hbody]
    by_cases hb : b = d
    · subst hb
      simp [hP.body]
    · simp [hb, hP.body]
  · rw [hnext]
    exact Nat.le_succ_of_le hP.next
  · intro b i hi
    rw [hnext]
    rcases (hmem b i).mp hi with ⟨rfl, rfl⟩ | hi
    · exact ⟨hP.next, Nat.lt_succ_self _, v, ty, hself⟩
    · obtain ⟨h₁, h₂, h₃⟩ := hP.phi b i hi
      rw [hold b i hi]
      exact ⟨h₁, Nat.lt_succ_of_lt h₂, h₃⟩
  · intro b i hi j hj hij
    rw [hmem] at hi hj
    rcases hi with ⟨rfl, rfl⟩ | hi <;> rcases hj with ⟨hb, rfl⟩ | hj
    · rfl
    · rw [hself, hold b j hj] at hij
      exact absurd hij.symm (hlval j hj)
    · subst hb
      rw [hself, hold b i hi] at hij
      exact absurd hij (hlval i hi)
    · rw [hold b i hi, hold b j hj] at hij
      exact hP.unique b i hi j hj hij
  · intro b
    by_cases hb : b = d
    · subst hb
      rw [Function.update_self, List.nodup_cons]
      exact ⟨fun h => hfresh b _ h rfl, hP.nodup b⟩
    · rw [Function.update_of_ne hb]
      exact hP.nodup b
  · intro b w
    rw [hknown, List.mem_cons, hP.known]
    constructor
    · rintro (h | ⟨i, hi, hw⟩)
      · cases h
        exact ⟨s.f.next, (hmem d _).mpr (Or.inl ⟨rfl, rfl⟩), by rw [hself]⟩
      · exact ⟨i, (hmem b i).mpr (Or.inr hi), by rw [hold b i hi, hw]⟩
    · rintro ⟨i, hi, hw⟩
      rcases (hmem b i).mp hi with ⟨rfl, rfl⟩ | hi
      · rw [hself] at hw
        exact Or.inl (by rw [Option.some.inj hw])
      · rw [hold b i hi] at hw
        exact Or.inr ⟨i, hi, hw⟩

/-! ## The work list -/

/-- The blocks that have a phi for `v`. -/
def marked (s : PhiSt) (v : Value) : List BlockId :=
  (s.bbHasVarPhi.filter (·.2 = v)).map Prod.fst

theorem mem_marked : b ∈ marked s v ↔ (b, v) ∈ s.bbHasVarPhi := by
  simp [marked]

/-- What is still to be done at most: the blocks on the work list and those of `U` that may come. -/
def pending (U : List BlockId) (s : PhiSt) (v : Value) : Nat :=
  s.workList.length + DepthFirst.unmarked U (marked s v)

/-- The loop over a dominance frontier: every block of it gets a phi, and a block that gets its phi
here goes on the work list. -/
theorem foldl_insertPhi (v : Value) {U : List BlockId} :
    ∀ (ds : List BlockId) (s : PhiSt) (phis : BlockId → List InstrId), Placed f s phis →
      (∀ d ∈ ds, d ∈ U) → ∃ phis', Placed f (ds.foldl (insertPhi v) s) phis' ∧
        pending U (ds.foldl (insertPhi v) s) v ≤ pending U s v ∧
        (∀ b w, (b, w) ∈ (ds.foldl (insertPhi v) s).bbHasVarPhi ↔
          (b, w) ∈ s.bbHasVarPhi ∨ w = v ∧ b ∈ ds) ∧
        ∀ b, b ∈ (ds.foldl (insertPhi v) s).workList ↔
          b ∈ s.workList ∨ b ∈ ds ∧ (b, v) ∉ s.bbHasVarPhi := by
  intro ds
  induction ds with
  | nil => exact fun s phis hP _ => ⟨phis, hP, Nat.le_refl _, by simp, by simp⟩
  | cons d ds ih =>
    intro s phis hP hds
    have hds' := fun x hx => hds x (List.mem_cons_of_mem d hx)
    simp only [List.foldl_cons]
    by_cases hd : (d, v) ∈ s.bbHasVarPhi
    · have hkeep : insertPhi v s d = s := by
        unfold insertPhi
        rw [if_pos hd]
      rw [hkeep]
      obtain ⟨phis', h₁, h₂, h₃, h₄⟩ := ih s phis hP hds'
      refine ⟨phis', h₁, h₂, fun b w => ?_, fun b => ?_⟩
      · rw [h₃, List.mem_cons]
        by_cases hb : b = d
        · subst hb
          by_cases hw : w = v
          · subst hw
            tauto
          · tauto
        · tauto
      · rw [h₄, List.mem_cons]
        by_cases hb : b = d
        · subst hb
          tauto
        · tauto
    · obtain ⟨phis', h₁, h₂, h₃, h₄⟩ := ih (insertPhi v s d) _ (hP.insert hd) hds'
      obtain ⟨-, -, -, -, -, -, hknown, hwork⟩ := insertPhi_new hd
      refine ⟨phis', h₁, Nat.le_trans h₂ ?_, fun b w => ?_, fun b => ?_⟩
      · have hmark : marked (insertPhi v s d) v = d :: marked s v := by
          simp [marked, hknown]
        have hlt := DepthFirst.unmarked_cons_lt (hds d List.mem_cons_self)
          (fun h => hd (mem_marked.mp h))
        unfold pending
        rw [hmark, hwork, List.length_append, List.length_singleton]
        omega
      · rw [h₃, hknown]
        simp only [List.mem_cons, Prod.mk.injEq]
        tauto
      · rw [h₄, hknown, hwork]
        simp only [List.mem_cons, List.mem_append, List.not_mem_nil, or_false, Prod.mk.injEq,
          and_true]
        by_cases hb : b = d
        · subst hb
          tauto
        · tauto

/-- The state of the loop over the work list of `v`. -/
structure Work (df : BlockId → List BlockId) (f : Func) (v : Value) (s : PhiSt) : Prop where
  sound : ∀ b, (b, v) ∈ s.bbHasVarPhi → Iterated df f v b
  defines : ∀ b ∈ s.workList, b ∈ f.blocks ∧ Stores f v b ∨ Iterated df f v b
  covered : ∀ a, a ∈ f.blocks ∧ Stores f v a ∨ (a, v) ∈ s.bbHasVarPhi →
    a ∈ s.workList ∨ ∀ b ∈ df a, (b, v) ∈ s.bbHasVarPhi

/-- With an empty work list the phis are the iterated frontier. -/
theorem Work.done {df : BlockId → List BlockId} (hW : Work df f v s) (hs : s.workList = [])
    (b : BlockId) : (b, v) ∈ s.bbHasVarPhi ↔ Iterated df f v b := by
  refine ⟨hW.sound b, fun h => ?_⟩
  have hclosed : ∀ a, a ∈ f.blocks ∧ Stores f v a ∨ (a, v) ∈ s.bbHasVarPhi →
      ∀ b ∈ df a, (b, v) ∈ s.bbHasVarPhi := fun a hdef =>
    (hW.covered a hdef).resolve_left (by simp [hs])
  induction h with
  | store ha hs hb => exact hclosed _ (Or.inl ⟨ha, hs⟩) _ hb
  | phi ha hb ih => exact hclosed _ (Or.inr ih) _ hb

section Orders

variable (blocks : SetOrder BlockId) {dom : Dominators.Result} {U : List BlockId}

/-- The loop over the work list ends, and what it marks is the iterated frontier. -/
theorem workLoop_spec (hU : ∀ a, ∀ b ∈ dom.domFrontier a, b ∈ U) :
    ∀ (n : Nat) (s : PhiSt) (phis : BlockId → List InstrId), Placed f s phis →
      Work dom.domFrontier f v s → pending U s v < n →
      ∃ s' phis', workLoop blocks dom v n s = .ok s' ∧ Placed f s' phis' ∧
        (∀ b, (b, v) ∈ s'.bbHasVarPhi ↔ Iterated dom.domFrontier f v b) ∧
        ∀ b w, w ≠ v → ((b, w) ∈ s'.bbHasVarPhi ↔ (b, w) ∈ s.bbHasVarPhi) := by
  intro n
  induction n with
  | zero => exact fun s phis _ _ h => absurd h (Nat.not_lt_zero _)
  | succ n ih =>
    intro s phis hP hW hlt
    cases hwork : s.workList with
    | nil =>
      exact ⟨s, phis, by simp [workLoop, hwork], hP, hW.done hwork, fun _ _ _ => Iff.rfl⟩
    | cons bb rest =>
      have hfr : ∀ d, d ∈ blocks.enum (dom.domFrontier bb) ↔ d ∈ dom.domFrontier bb :=
        fun d => blocks.mem_enum
      have hP' : Placed f { s with workList := rest } phis := ⟨hP.toPhied, hP.known⟩
      obtain ⟨phis₁, hP₁, hle, hmarks, hlist⟩ :=
        foldl_insertPhi v (blocks.enum (dom.domFrontier bb)) _ phis hP' fun d hd =>
          hU bb d ((hfr d).mp hd)
      generalize hs₁ : (blocks.enum (dom.domFrontier bb)).foldl (insertPhi v)
        { s with workList := rest } = s₁ at hP₁ hle hmarks hlist
      have hbb := hW.defines bb (by simp [hwork])
      have hphi : ∀ d ∈ blocks.enum (dom.domFrontier bb), Iterated dom.domFrontier f v d := by
        intro d hd
        cases hbb with
        | inl hs => exact .store hs.1 hs.2 ((hfr d).mp hd)
        | inr hp => exact .phi hp ((hfr d).mp hd)
      have hW₁ : Work dom.domFrontier f v s₁ := by
        constructor
        · intro b hb
          rcases (hmarks b v).mp hb with h | ⟨-, h⟩
          · exact hW.sound b h
          · exact hphi b h
        · intro b hb
          rcases (hlist b).mp hb with h | ⟨h, -⟩
          · exact hW.defines b (by rw [hwork]; exact List.mem_cons_of_mem _ h)
          · exact Or.inr (hphi b h)
        · intro a hdef
          by_cases hold : a ∈ f.blocks ∧ Stores f v a ∨ (a, v) ∈ s.bbHasVarPhi
          · cases hW.covered a hold with
            | inl hmem =>
              rw [hwork] at hmem
              rcases List.mem_cons.mp hmem with rfl | hmem
              · exact Or.inr fun b hb => (hmarks b v).mpr (Or.inr ⟨rfl, (hfr b).mpr hb⟩)
              · exact Or.inl ((hlist a).mpr (Or.inl hmem))
            | inr hcov => exact Or.inr fun b hb => (hmarks b v).mpr (Or.inl (hcov b hb))
          · rw [not_or] at hold
            have hnew := ((hmarks a v).mp (hdef.resolve_left hold.1)).resolve_left hold.2
            exact Or.inl ((hlist a).mpr (Or.inr ⟨hnew.2, hold.2⟩))
      have hlt₁ : pending U s₁ v < n := by
        refine Nat.lt_of_le_of_lt hle ?_
        unfold pending at hlt ⊢
        rw [hwork, List.length_cons] at hlt
        exact Nat.lt_of_succ_lt_succ (by simp only [marked] at hlt ⊢; omega)
      obtain ⟨s', phis', hrun, hP₂, hdone, hother⟩ := ih s₁ phis₁ hP₁ hW₁ hlt₁
      refine ⟨s', phis', ?_, hP₂, hdone, fun b w hw => ?_⟩
      · simp only [workLoop, hwork, hs₁]
        exact hrun
      · rw [hother b w hw, hmarks b w]
        simp [hw]

theorem mem_liveVar2Blocks : b ∈ liveVar2Blocks f v ↔ b ∈ f.blocks ∧ Stores f v b := by
  simp [liveVar2Blocks, Stores]

theorem mem_globalLiveVarName : v ∈ globalLiveVarName f ↔ ∃ b ∈ f.blocks, Stores f v b := by
  simp only [globalLiveVarName, List.mem_dedup, List.mem_filterMap, Func.instrs, List.mem_flatMap,
    Stores]
  exact ⟨fun ⟨i, ⟨b, hb, hi⟩, hv⟩ => ⟨b, hb, i, hi, hv⟩,
    fun ⟨b, hb, i, hi, hv⟩ => ⟨i, ⟨b, hb, hi⟩, hv⟩⟩

/-- Only a variable that is stored somewhere has a phi. -/
theorem PhiAt.stored (h : PhiAt f v b) : ∃ a ∈ f.blocks, Stores f v a := by
  induction h with
  | store ha hs _ _ => exact ⟨_, ha, hs⟩
  | phi _ _ _ ih => exact ih

theorem Iterated.stored {df : BlockId → List BlockId} (h : Iterated df f v b) :
    ∃ a ∈ f.blocks, Stores f v a := by
  induction h with
  | store ha hs _ => exact ⟨_, ha, hs⟩
  | phi _ _ ih => exact ih

/-- The frontiers of the function. -/
theorem iterated_iff (hD : Dominators.DomTree f.toCfg dom) :
    Iterated dom.domFrontier f v b ↔ PhiAt f v b := by
  constructor
  · intro h
    induction h with
    | store ha hs hb =>
      obtain ⟨hbb, hab⟩ := (hD.frontier _ _).mp hb
      exact .store ha hs hbb hab
    | phi _ hb ih =>
      obtain ⟨hbb, hab⟩ := (hD.frontier _ _).mp hb
      exact .phi ih hbb hab
  · intro h
    induction h with
    | store ha hs hb hab => exact .store ha hs ((hD.frontier _ _).mpr ⟨hb, hab⟩)
    | phi _ hb hab ih => exact .phi ih ((hD.frontier _ _).mpr ⟨hb, hab⟩)

/-- The loop over the variables. -/
theorem foldlM_placePhis (hU : ∀ a, ∀ b ∈ dom.domFrontier a, b ∈ U) {fuel : Nat}
    (hf : f.blocks.length + U.length < fuel) :
    ∀ (vs : List Value) (s : PhiSt) (phis : BlockId → List InstrId), Placed f s phis → vs.Nodup →
      (∀ v ∈ vs, ∀ b, (b, v) ∉ s.bbHasVarPhi) →
      ∃ s' phis', vs.foldlM (placePhis blocks dom f fuel) s = .ok s' ∧ Placed f s' phis' ∧
        ∀ b w, (b, w) ∈ s'.bbHasVarPhi ↔
          (b, w) ∈ s.bbHasVarPhi ∨ w ∈ vs ∧ Iterated dom.domFrontier f w b := by
  intro vs
  induction vs with
  | nil => exact fun s phis hP _ _ => ⟨s, phis, rfl, hP, by simp⟩
  | cons v vs ih =>
    intro s phis hP hnd hnew
    obtain ⟨hv, hnd⟩ := List.nodup_cons.mp hnd
    have hstart : ∀ b, b ∈ blocks.enum (liveVar2Blocks f v) ↔ b ∈ f.blocks ∧ Stores f v b :=
      fun b => blocks.mem_enum.trans mem_liveVar2Blocks
    have hW : Work dom.domFrontier f v { s with workList := blocks.enum (liveVar2Blocks f v) } := by
      constructor
      · exact fun b hb => absurd hb (hnew v List.mem_cons_self b)
      · exact fun b hb => Or.inl ((hstart b).mp hb)
      · exact fun a hdef =>
          Or.inl ((hstart a).mpr (hdef.resolve_right (hnew v List.mem_cons_self a)))
    have hlen : (blocks.enum (liveVar2Blocks f v)).length ≤ f.blocks.length := by
      rw [(blocks.perm _).length_eq]
      exact ((List.dedup_sublist _).trans List.filter_sublist).length_le
    have hlt : pending U { s with workList := blocks.enum (liveVar2Blocks f v) } v < fuel := by
      have : DepthFirst.unmarked U (marked s v) ≤ U.length := List.countP_le_length
      unfold pending
      simp only [marked] at this ⊢
      omega
    obtain ⟨s₁, phis₁, hrun, hP₁, hdone, hother⟩ :=
      workLoop_spec blocks hU fuel { s with workList := blocks.enum (liveVar2Blocks f v) } phis
        ⟨hP.toPhied, hP.known⟩ hW hlt
    obtain ⟨s', phis', hrest, hP', hmarks⟩ := ih s₁ phis₁ hP₁ hnd fun w hw b hb =>
      hnew w (List.mem_cons_of_mem _ hw) b ((hother b w (fun h => hv (h ▸ hw))).mp hb)
    refine ⟨s', phis', ?_, hP', fun b w => ?_⟩
    · simp only [List.foldlM_cons, placePhis, hrun]
      exact hrest
    · rw [hmarks, List.mem_cons]
      by_cases hw : w = v
      · subst hw
        have hnone := hnew w List.mem_cons_self b
        rw [hdone]
        tauto
      · rw [hother b w hw]
        tauto

/-- **`generate_phi` inserts a phi for every variable in the iterated frontier** of its stores, and
nothing else, for any frontiers among finitely many blocks. -/
theorem generatePhi_places (vars : SetOrder Value) (hU : ∀ a, ∀ b ∈ dom.domFrontier a, b ∈ U)
    {fuel : Nat} (hf : f.blocks.length + U.length < fuel) :
    ∃ g phis, generatePhi vars blocks dom fuel f = .ok g ∧ Phied f g phis ∧
      ∀ b v, (∃ i ∈ phis b, (g.instr i).lval = some v) ↔ Iterated dom.domFrontier f v b := by
  have hnd : (vars.enum (globalLiveVarName f)).Nodup :=
    (vars.perm _).nodup_iff.mpr (List.nodup_dedup _)
  obtain ⟨s', phis', hrun, hP, hmarks⟩ := foldlM_placePhis blocks hU hf
    (vars.enum (globalLiveVarName f)) ⟨f, [], []⟩ (fun _ => []) ⟨.refl f, by simp⟩ hnd (by simp)
  refine ⟨s'.f, phis', by simp [generatePhi, hrun, bind, Except.bind], hP.toPhied, fun b v => ?_⟩
  rw [← hP.known, hmarks]
  constructor
  · simp
  · exact fun h => Or.inr ⟨vars.mem_enum.mpr (mem_globalLiveVarName.mpr h.stored), h⟩

/-- The same for the frontiers that `Dominators` computes. -/
theorem generatePhi_spec (vars : SetOrder Value)
    (hD : Dominators.DomTree f.toCfg dom) {fuel : Nat} (hf : 2 * f.blocks.length < fuel) :
    ∃ g phis, generatePhi vars blocks dom fuel f = .ok g ∧ Phied f g phis ∧
      ∀ b v, (∃ i ∈ phis b, (g.instr i).lval = some v) ↔ PhiAt f v b := by
  have hf' : f.blocks.length + f.blocks.length < fuel := by omega
  obtain ⟨g, phis, hrun, hP, hat⟩ := generatePhi_places blocks vars
    (fun a b hb => ((hD.frontier a b).mp hb).1) hf'
  exact ⟨g, phis, hrun, hP, fun b v => (hat b v).trans (iterated_iff hD)⟩

/-! ## The phis of a block -/

/-- The phis for `v` in `b`, in order. -/
def phisFor (g : Func) (v : Value) (b : BlockId) : List InstrId :=
  (g.body b).filter fun i => isPhi g i && (g.instr i).lval = some v

/-- In front of the phis of a block for `v` stands at most one new one. -/
theorem Phied.phisFor_eq {g : Func} (hP : Phied f g phis) (hlt : ∀ i ∈ f.body b, i < f.next) :
    (∀ i ∈ phis b, (g.instr i).lval = some v → phisFor g v b = i :: phisFor f v b) ∧
      ((∀ i ∈ phis b, (g.instr i).lval ≠ some v) → phisFor g v b = phisFor f v b) := by
  have hold : (f.body b).filter (fun i => isPhi g i && (g.instr i).lval = some v) = phisFor f v b :=
    List.filter_congr fun i hi => by simp [isPhi, hP.old i (hlt i hi)]
  have hsplit : phisFor g v b =
      (phis b).filter (fun i => isPhi g i && (g.instr i).lval = some v) ++ phisFor f v b := by
    rw [phisFor, hP.body, List.filter_append, hold]
  have hphi : ∀ i ∈ phis b, isPhi g i = true := by
    intro i hi
    obtain ⟨-, -, w, ty, hinstr⟩ := hP.phi b i hi
    simp [isPhi, hinstr]
  rw [hsplit]
  constructor
  · intro i hi hv
    have hone : (phis b).filter (fun i => isPhi g i && (g.instr i).lval = some v) = [i] := by
      refine List.perm_singleton.mp ((List.perm_ext_iff_of_nodup ((hP.nodup b).filter _)
        (List.nodup_singleton i)).mpr fun j => ?_)
      simp only [List.mem_filter, Bool.and_eq_true, decide_eq_true_eq, List.mem_singleton]
      constructor
      · rintro ⟨hj, -, hjv⟩
        exact hP.unique b j hj i hi (hjv.trans hv.symm)
      · rintro rfl
        exact ⟨hi, hphi j hi, hv⟩
    rw [hone, List.singleton_append]
  · intro hnone
    have hnil : (phis b).filter (fun i => isPhi g i && (g.instr i).lval = some v) = [] := by
      refine List.filter_eq_nil_iff.mpr fun i hi => ?_
      simp [hnone i hi]
    rw [hnil, List.nil_append]

/-- **`generate_phi` computes the iterated frontier**, for every map of frontiers, cyclic ones
included: it ends, a block gets one phi for `v` if it is in the iterated frontier of the stores to
`v` and none otherwise, and the new phis stand in front of everything else. -/
theorem generatePhi_iterated (vars : SetOrder Value) (hU : ∀ a, ∀ b ∈ dom.domFrontier a, b ∈ U)
    (hlt : ∀ b, ∀ i ∈ f.body b, i < f.next) :
    ∃ fuel₀, ∀ fuel, fuel₀ ≤ fuel → ∃ (g : Func) (phis : BlockId → List InstrId),
      generatePhi vars blocks dom fuel f = .ok g ∧
      (∀ b, g.body b = phis b ++ f.body b ∧ (∀ i ∈ phis b, isPhi g i = true) ∧
        ∀ i ∈ f.body b, g.instr i = f.instr i) ∧
      ∀ b v, (Iterated dom.domFrontier f v b → ∃ i ∈ phis b, phisFor g v b = i :: phisFor f v b) ∧
        (¬ Iterated dom.domFrontier f v b → phisFor g v b = phisFor f v b) := by
  refine ⟨f.blocks.length + U.length + 1, fun fuel hfuel => ?_⟩
  obtain ⟨g, phis, hrun, hP, hat⟩ := generatePhi_places blocks vars hU hfuel
  refine ⟨g, phis, hrun, fun b => ⟨hP.body b, fun i hi => ?_, fun i hi => hP.old i (hlt b i hi)⟩,
    fun b v => ⟨fun h => ?_, fun h => ?_⟩⟩
  · obtain ⟨-, -, w, ty, hinstr⟩ := hP.phi b i hi
    simp [isPhi, hinstr]
  · obtain ⟨i, hi, hv⟩ := (hat b v).mpr h
    exact ⟨i, hi, (hP.phisFor_eq (hlt b)).1 i hi hv⟩
  · exact (hP.phisFor_eq (hlt b)).2 fun i hi hv => h ((hat b v).mp ⟨i, hi, hv⟩)

end Orders

/-! ## A cyclic frontier -/

/-- `i = 5; while (1) i = 6;`, the two blocks only. -/
def spin : Func where
  entry := 0
  rest := [1]
  pre bb := if bb = 1 then [0, 1] else []
  succ bb := if bb = 0 ∨ bb = 1 then [1] else []
  name := "f"
  retTy := .void
  args := []
  body bb := match bb with
    | 0 => [0, 1, 2]
    | 1 => [3, 4]
    | _ => []
  instr i := match i with
    | 0 => { op := .alloca, ty := .pointer .int32, operands := [], parent := 0 }
    | 1 => { op := .store, ty := .void, operands := [.int32 5, .instr 0], parent := 0 }
    | 3 => { op := .store, ty := .void, operands := [.int32 6, .instr 0], parent := 1 }
    | _ => { op := .br, ty := .void, operands := [.block 1], parent := 0 }
  uses v := if v = .instr 0 then [(1, 1), (3, 1)] else []
  next := 5

/-- The two blocks are in each other's frontier: both get a phi. -/
theorem generatePhi_iterated_spin :
    ∃ fuel₀, ∀ fuel, fuel₀ ≤ fuel → ∃ (g : Func) (phis : BlockId → List InstrId),
      generatePhi ⟨id, fun l => .refl l⟩ ⟨id, fun l => .refl l⟩
        ⟨fun _ => none, fun b => [1 - b], fun _ => []⟩ fuel spin = .ok g ∧
      (∀ b, g.body b = phis b ++ spin.body b ∧ (∀ i ∈ phis b, isPhi g i = true) ∧
        ∀ i ∈ spin.body b, g.instr i = spin.instr i) ∧
      ∀ b v, (Iterated (fun b => [1 - b]) spin v b →
          ∃ i ∈ phis b, phisFor g v b = i :: phisFor spin v b) ∧
        (¬ Iterated (fun b => [1 - b]) spin v b → phisFor g v b = phisFor spin v b) :=
  generatePhi_iterated (U := [0, 1]) ⟨id, fun l => .refl l⟩ ⟨id, fun l => .refl l⟩
    (by
      intro a b hb
      obtain rfl := List.mem_singleton.mp hb
      rcases a with _ | a <;> simp)
    (by
      have hlt : (∀ i ∈ spin.body 0, i < spin.next) ∧ ∀ i ∈ spin.body 1, i < spin.next := by decide
      intro b
      rcases b with _ | _ | b
      · exact hlt.1
      · exact hlt.2
      · exact fun i hi => by cases hi)

end Cminusfc.Optimization.Mem2Reg
