import Cminusfc.Optimization.Mem2RegValues

/-!
# What `re_name` writes

`Vals g R Q F`: in `F` the loads `R` have been replaced by the values that reach them, and the phis
have their pairs for the blocks `Q`. `reName_vals` is the step for one call: from the blocks `W`
entered before to these and the ones entered in the call. The top of each stack is the value that
reaches the point the walk is at (`TopAt`).

About `re_name`, `src/optimization/Mem2Reg.cpp` 79-171.
-/

namespace Cminusfc.Optimization.Mem2Reg

open Cminusfc.LightIR Dominance

/-- The operands of a phi with the pairs `ps`. -/
def pairOperands (ps : List (Value × BlockId)) : List Value := ps.flatMap fun q => [q.1, .block q.2]

/-- The function while `re_name` runs, the loads `R` replaced and the phis filled from `Q`. -/
structure Vals (g : Func) (R : InstrId → Prop) (Q : List BlockId) (F : Func) : Prop where
  rest : ∀ u ∈ g.instrs, F.instr u = { g.instr u with operands := (F.instr u).operands }
  operand : ∀ u ∈ g.instrs, isPhi g u = false → ∀ (no : Nat) (a : Value),
    (g.instr u).operands[no]? = some a →
    ∃ c, (F.instr u).operands[no]? = some c ∧
      ((∃ l, a = .instr l ∧ R l) ∧ Resolves g a c ∨ (∀ l, a = .instr l → ¬ R l) ∧ c = a)
  uses : ∀ l, (loadOf g l).isSome = true → ¬ R l → ∀ (u : InstrId) (no : Nat),
    (u, no) ∈ F.uses (.instr l) ↔
    u ∈ g.instrs ∧ isPhi g u = false ∧ (F.instr u).operands[no]? = some (.instr l)
  pairs : ∀ i ∈ g.instrs, isPhi g i = true → ∃ ps, (F.instr i).operands = pairOperands ps ∧
    (∀ q ∈ ps, q.2 ∈ Q) ∧ ∀ b v, i ∈ g.body b → phiOf g i = some v → ∀ P ∈ Q, b ∈ g.succ P →
      (∃ a, g.Dominates a P ∧ Gives g v a) →
        ∃ x, Reaches g P (g.body P) v x ∧ ps.find? (·.2 = P) = some (x, P)

/-- The top of a stack. -/
def top (st : Stacks) (v : Value) : Option Value := ((st v).getD []).head?

/-- The tops of the stacks are the values that reach the point. -/
def TopAt (g : Func) (st : Stacks) (b : BlockId) (pre : List InstrId) : Prop :=
  ∀ v x, top st v = some x ↔ Reaches g b pre v x

variable {g F F' : Func} {R R' : InstrId → Prop} {Q W closed : List BlockId} {st st' : Stacks}
  {b c : BlockId} {pre post l : List InstrId} {i j u : InstrId} {v x a : Value}

theorem top_push (st : Stacks) (v x w : Value) :
    top (st.push v x) w = if w = v then some x else top st w := by
  unfold top Stacks.push
  by_cases hw : w = v
  · subst hw
    simp
  · simp [hw]

/-! ## One edit -/

/-- Replacing the load `i` by the value that reaches it. -/
theorem Vals.replace (h : Vals g R Q F)
    (hload : (loadOf g i).isSome = true) (hi : ¬ R i) (hx : Resolves g (.instr i) x) :
    Vals g (fun l => R l ∨ l = i) Q (F.replaceAllUseWith (.instr i) x) := by
  have hxl := hx.not_load
  have hins := F.replaceAllUseWith_instr (.instr i) x
  have hslot : ∀ (u : InstrId) (no : Nat), (u, no) ∈ F.uses (.instr i) ↔
      u ∈ g.instrs ∧ isPhi g u = false ∧ (F.instr u).operands[no]? = some (.instr i) :=
    h.uses i hload hi
  have hget : ∀ (u : InstrId) (no : Nat), ((F.replaceAllUseWith (.instr i) x).instr u).operands[no]? =
      ((F.instr u).operands[no]?).map fun c => if (u, no) ∈ F.uses (.instr i) then x else c := by
    intro u no
    rw [hins]
    simp [Func.replaceSlots, List.getElem?_mapIdx]
  constructor
  · intro u hu
    rw [hins, h.rest u hu]
  · intro u hu hphi no a ha
    obtain ⟨c, hc, hcase⟩ := h.operand u hu hphi no a ha
    by_cases hci : c = .instr i
    · -- an operand that is the load itself
      have hai : a = .instr i := by
        cases hcase with
        | inr hkeep => rw [← hkeep.2, hci]
        | inl hres =>
          rw [hres.2.not_load i hci] at hload
          cases hload
      refine ⟨x, ?_, Or.inl ⟨⟨i, hai, Or.inr rfl⟩, hai ▸ hx⟩⟩
      rw [hget, hc, hci, Option.map_some, if_pos ((hslot u no).mpr ⟨hu, hphi, hci ▸ hc⟩)]
    · refine ⟨c, ?_, ?_⟩
      · have hnot : (u, no) ∉ F.uses (.instr i) := by
          intro hmem
          have := ((hslot u no).mp hmem).2.2
          rw [hc, Option.some.injEq] at this
          exact hci this
        rw [hget, hc, Option.map_some, if_neg hnot]
      · cases hcase with
        | inl hres =>
          obtain ⟨⟨l, hl, hRl⟩, hr⟩ := hres
          exact Or.inl ⟨⟨l, hl, Or.inl hRl⟩, hr⟩
        | inr hkeep =>
          refine Or.inr ⟨fun l hl => ?_, hkeep.2⟩
          rintro (hRl | rfl)
          · exact hkeep.1 l hl hRl
          · exact hci (hkeep.2.trans hl)
  · intro l hl hRl u no
    rw [not_or] at hRl
    have hxl' : x ≠ .instr l := by
      intro h
      rw [hxl l h] at hl
      cases hl
    rw [Func.replaceAllUseWith_uses F (Ne.symm hxl'), h.uses l hl hRl.1, hget]
    refine and_congr_right fun hu => and_congr_right fun hphi => ?_
    cases hc : (F.instr u).operands[no]? with
    | none => simp
    | some c =>
      simp only [Option.map_some, Option.some.injEq]
      by_cases hmem : (u, no) ∈ F.uses (.instr i)
      · have hci := ((hslot u no).mp hmem).2.2
        rw [hc, Option.some.injEq] at hci
        rw [if_pos hmem, hci, Value.instr.injEq]
        exact ⟨fun h => absurd h.symm hRl.2, fun h => absurd h hxl'⟩
      · rw [if_neg hmem]
  · intro j hj hphi
    have hnone : ∀ no, (j, no) ∉ F.uses (.instr i) := by
      intro no hmem
      rw [((hslot j no).mp hmem).2.1] at hphi
      cases hphi
    rw [hins, Func.replaceSlots_of_none hnone]
    exact h.pairs j hj hphi

/-- Deleting an instruction whose operands hold no load that is still to be replaced. -/
theorem Vals.delete (h : Vals g R Q F) (bb : BlockId) (i : InstrId)
    (hi : ∀ l, (loadOf g l).isSome = true → ¬ R l → Value.instr l ∉ (F.instr i).operands) :
    Vals g R Q (F.deleteInstr bb i) := by
  refine ⟨?_, ?_, fun l hl hRl u no => ?_, ?_⟩
  · rw [Func.deleteInstr_instr]
    exact h.rest
  · rw [Func.deleteInstr_instr]
    exact h.operand
  · rw [Func.mem_deleteInstr_uses, Func.deleteInstr_instr, ← h.uses l hl hRl]
    exact ⟨And.left, fun hu => ⟨hu, fun hmem => absurd hmem (hi l hl hRl)⟩⟩
  · rw [Func.deleteInstr_instr]
    exact h.pairs

/-! ## Filling the phis -/

/-- What step 6 adds when it has seen the instructions `is` of the successors of `b`. -/
structure Filled (g : Func) (b : BlockId) (st : Stacks) (is : List InstrId) (F F' : Func) : Prop where
  instr : ∀ u, ∃ ps,
    F'.instr u = { F.instr u with operands := (F.instr u).operands ++ pairOperands ps } ∧
      (∀ q ∈ ps, q.2 = b ∧ ∃ v, phiOf g u = some v ∧ top st v = some q.1) ∧
      ∀ v x, u ∈ is → phiOf g u = some v → top st v = some x → ps ≠ []
  uses : ∀ l, (loadOf g l).isSome = true → F'.uses (.instr l) = F.uses (.instr l)

theorem Filled.refl (g : Func) (b : BlockId) (st : Stacks) (F : Func) : Filled g b st [] F F :=
  ⟨fun _ => ⟨[], by simp [pairOperands], by simp, by simp⟩, fun _ _ => rfl⟩

theorem Filled.trans {F'' : Func} {is is' : List InstrId} (h : Filled g b st is F F')
    (h' : Filled g b st is' F' F'') : Filled g b st (is ++ is') F F'' := by
  refine ⟨fun u => ?_, fun l hl => by rw [h'.uses l hl, h.uses l hl]⟩
  obtain ⟨ps, hu, hps, hne⟩ := h.instr u
  obtain ⟨ps', hu', hps', hne'⟩ := h'.instr u
  refine ⟨ps ++ ps', ?_, fun q hq => ?_, fun v x hmem hv hx hnil => ?_⟩
  · rw [hu', hu]
    simp [pairOperands]
  · exact (List.mem_append.mp hq).elim (hps q) (hps' q)
  · obtain ⟨h₁, h₂⟩ := List.append_eq_nil_iff.mp hnil
    cases List.mem_append.mp hmem with
    | inl hmem => exact hne v x hmem hv hx h₁
    | inr hmem => exact hne' v x hmem hv hx h₂

theorem Filled.same (h : Filled g b st l F F') (hF : SameAddresses g F) (u : InstrId) :
    (F'.instr u).op = (g.instr u).op ∧ (F'.instr u).lval = (g.instr u).lval := by
  obtain ⟨ps, hu, -⟩ := h.instr u
  rw [hu]
  exact ⟨hF.op u, hF.lval u⟩

/-- The values on the stacks are no loads of variables. -/
def NoLoads (g : Func) (st : Stacks) : Prop :=
  ∀ v x, top st v = some x → ∀ l, x = .instr l → loadOf g l = none

theorem addPhiPairOperand_filled (hst : NoLoads g st) (hv : phiOf g i = some v)
    (hx : top st v = some x) : Filled g b st [i] F (addPhiPairOperand F i x b) := by
  refine ⟨fun u => ?_, fun l hl => ?_⟩
  · by_cases hu : u = i
    · subst hu
      refine ⟨[(x, b)], ?_, ?_, by simp⟩
      · simp [addPhiPairOperand, addOperand_instr, pairOperands]
      · rintro q hq
        obtain rfl := List.mem_singleton.mp hq
        exact ⟨rfl, v, hv, hx⟩
    · refine ⟨[], ?_, by simp, by simp [hu]⟩
      simp [addPhiPairOperand, addOperand_instr, pairOperands, hu]
  · have hne : Value.instr l ≠ x := by
      intro h
      rw [hst v x hx l h.symm] at hl
      cases hl
    simp [addPhiPairOperand, Func.addOperand, Func.addUse, Func.setInstr, hne]

/-- Step 6, for a list of instructions of one successor. -/
theorem foldlM_fillPhi (hst : NoLoads g st) :
    ∀ (l : List InstrId) (F F' : Func), (∀ u, (F.instr u).op = (g.instr u).op ∧
      (F.instr u).lval = (g.instr u).lval) → l.foldlM (fillPhi b st) F = .ok F' →
      Filled g b st l F F' := by
  intro l
  induction l with
  | nil =>
    intro F F' _ h
    cases h
    exact .refl g b st F
  | cons i l ih =>
    intro F F' hF h
    rw [List.foldlM_cons] at h
    obtain ⟨F₁, h₁, h⟩ := Fallible.bind_ok.mp h
    have hphi : phiOf g i = if isPhi F i then (F.instr i).lval else none := by
      simp [phiOf, isPhi, hF i]
    have hstep : Filled g b st [i] F F₁ := by
      unfold fillPhi at h₁
      have hkeep : (∀ v x, phiOf g i = some v → top st v ≠ some x) → Filled g b st [i] F F := by
        intro hno
        refine ⟨fun u => ⟨[], by simp [pairOperands], by simp, fun v x hu hv hx => ?_⟩, fun _ _ => rfl⟩
        obtain rfl := List.mem_singleton.mp hu
        exact absurd hx (hno v x hv)
      split at h₁
      · rename_i hi
        rw [if_pos hi] at hphi
        split at h₁
        · cases h₁
        · rename_i v hv
          rw [hv] at hphi
          split at h₁
          · rename_i hnone
            cases h₁
            refine hkeep fun w x hw => ?_
            rw [hphi, Option.some.injEq] at hw
            simp [top, ← hw, hnone]
          · cases h₁
          · rename_i x rest hsome
            cases h₁
            exact addPhiPairOperand_filled hst hphi (by simp [top, hsome])
      · rename_i hi
        rw [if_neg hi] at hphi
        cases h₁
        exact hkeep fun v x hv => by simp [hphi] at hv
    have hF₁ : ∀ u, (F₁.instr u).op = (g.instr u).op ∧ (F₁.instr u).lval = (g.instr u).lval := by
      intro u
      obtain ⟨ps, hu, -⟩ := hstep.instr u
      rw [hu]
      exact hF u
    exact hstep.trans (ih F₁ F' hF₁ h)

/-- Step 6, for a list of successors. -/
theorem foldlM_fillSucc_filled (hst : NoLoads g st) (hR : Ready g) :
    ∀ (succs : List BlockId) (F F' : Func), (∀ S ∈ succs, S ∈ g.blocks) → Kept g closed F →
      succs.foldlM (fillSucc b st) F = .ok F' →
        ∃ is, Filled g b st is F F' ∧ ∀ S ∈ succs, ∀ i ∈ g.body S, isPhi g i = true → i ∈ is := by
  intro succs
  induction succs with
  | nil =>
    intro F F' _ _ h
    cases h
    exact ⟨[], .refl g b st F, by simp⟩
  | cons S succs ih =>
    intro F F' hS hF h
    obtain ⟨hS, hsuccs⟩ := List.forall_mem_cons.mp hS
    rw [List.foldlM_cons] at h
    obtain ⟨F₁, h₁, h⟩ := Fallible.bind_ok.mp h
    have hstep := foldlM_fillPhi hst _ F F₁ (fun u => ⟨hF.op u, hF.lval u⟩) h₁
    obtain ⟨-, hkeep⟩ := @fillSucc_steps _ closed b st _ (hR.lval S hS) F hF
    obtain ⟨is, hrest, hmem⟩ := ih F₁ F' hsuccs (hkeep F₁ h₁) h
    refine ⟨_, hstep.trans hrest, fun T hT i hi hphi => ?_⟩
    rcases List.mem_cons.mp hT with rfl | hT
    · exact List.mem_append_left _ (hF.mem_phis.mpr ⟨hi, hphi⟩).1
    · exact List.mem_append_right _ (hmem T hT i hi hphi)

/-- Filling the phis of the successors of `b` at the end of `b`. -/
theorem Vals.fill (h : Vals g R Q F) {is : List InstrId} (hfill : Filled g b st is F F')
    (hb : b ∉ Q)
    (his : ∀ S ∈ g.succ b, ∀ i ∈ g.body S, isPhi g i = true → i ∈ is)
    (htop : TopAt g st b (g.body b))
    (hsome : ∀ v, (∃ a, g.Dominates a b ∧ Gives g v a) → ∃ x, top st v = some x) :
    Vals g R (b :: Q) F' := by
  have hold : ∀ u, isPhi g u = false → (F'.instr u).operands = (F.instr u).operands := by
    intro u hphi
    obtain ⟨ps, hu, hps, -⟩ := hfill.instr u
    have hnil : ps = [] := by
      rw [List.eq_nil_iff_forall_not_mem]
      intro q hq
      obtain ⟨-, v, hv, -⟩ := hps q hq
      rw [isPhi_of_phiOf hv] at hphi
      cases hphi
    rw [hu, hnil]
    simp [pairOperands]
  refine ⟨fun u hu => ?_, fun u hu hphi => ?_, fun l hl hRl u no => ?_, fun i hi hphi => ?_⟩
  · obtain ⟨ps, hu', -⟩ := hfill.instr u
    rw [hu', h.rest u hu]
  · rw [hold u hphi]
    exact h.operand u hu hphi
  · rw [hfill.uses l hl, h.uses l hl hRl]
    refine and_congr_right fun hu => and_congr_right fun hphi => ?_
    rw [hold u hphi]
  · obtain ⟨ps, hops, hQ, hfind⟩ := h.pairs i hi hphi
    obtain ⟨ps', hi', hps', hne⟩ := hfill.instr i
    refine ⟨ps ++ ps', ?_, fun q hq => ?_, fun c v hc hv P hP hPc hgive => ?_⟩
    · rw [hi', hops]
      simp [pairOperands]
    · cases List.mem_append.mp hq with
      | inl hq => exact List.mem_cons_of_mem _ (hQ q hq)
      | inr hq => exact (hps' q hq).1 ▸ List.mem_cons_self
    · rcases List.mem_cons.mp hP with rfl | hP
      · obtain ⟨x, hx⟩ := hsome v hgive
        have hnone : ps.find? (·.2 = P) = none := by
          rw [List.find?_eq_none]
          intro q hq
          simp only [decide_eq_true_eq]
          rintro rfl
          exact hb (hQ q hq)
        have hfirst : ps'.find? (·.2 = P) = some (x, P) := by
          cases ps' with
          | nil => exact absurd rfl (hne v x (his c hPc i hc hphi) hv hx)
          | cons q ps' =>
            obtain ⟨hqP, w, hw, hwx⟩ := hps' q List.mem_cons_self
            rw [hv, Option.some.injEq] at hw
            rw [← hw, hx, Option.some.injEq] at hwx
            rw [List.find?_cons_of_pos (by simpa using hqP)]
            exact congrArg some (Prod.ext hwx.symm hqP)
        exact ⟨x, (htop v x).mp hx, by rw [List.find?_append, hnone, Option.none_or, hfirst]⟩
      · obtain ⟨x, hx, hfound⟩ := hfind c v hc hv P hP hPc hgive
        exact ⟨x, hx, by rw [List.find?_append, hfound, Option.some_or]⟩

/-! ## One block -/

/-- What the walk relies on besides `Ready`. -/
structure Ordered (g : Func) : Prop extends Placing g where
  ready : Ready g
  ssa : Ssa g
  phis_first : ∀ b ∈ g.blocks, ∃ ps l, g.body b = ps ++ l ∧ (∀ i ∈ ps, isPhi g i = true) ∧
    ∀ i ∈ l, isPhi g i = false

/-- The loads of the blocks `W` and of the instructions `pre`. -/
def Done (g : Func) (W : List BlockId) (pre : List InstrId) (l : InstrId) : Prop :=
  (loadOf g l).isSome = true ∧ (l ∈ pre ∨ ∃ a ∈ W, l ∈ g.body a)

theorem Vals.congr (h : Vals g R Q F) {Q' : List BlockId} (hR : ∀ l, R l ↔ R' l)
    (hQ : ∀ P, P ∈ Q ↔ P ∈ Q') : Vals g R' Q' F := by
  obtain rfl : R = R' := funext fun l => propext (hR l)
  refine ⟨h.rest, h.operand, h.uses, fun i hi hphi => ?_⟩
  obtain ⟨ps, hops, hmem, hfind⟩ := h.pairs i hi hphi
  exact ⟨ps, hops, fun q hq => (hQ _).mp (hmem q hq), fun b v hb hv P hP =>
    hfind b v hb hv P ((hQ P).mpr hP)⟩

/-- Step 3 over phis. -/
theorem foldlM_pushPhi_top (hF : SameAddresses g F) :
    ∀ (l pre : List InstrId) (st st' : Stacks), (∀ i ∈ l, isPhi g i = true) → TopAt g st b pre →
      l.foldlM (pushPhi F) st = .ok st' → TopAt g st' b (pre ++ l) := by
  intro l
  induction l with
  | nil =>
    intro pre st st' _ htop h
    cases h
    simpa using htop
  | cons i l ih =>
    intro pre st st' hl htop h
    obtain ⟨hi, hl⟩ := List.forall_mem_cons.mp hl
    rw [List.foldlM_cons] at h
    obtain ⟨st₁, h₁, h⟩ := Fallible.bind_ok.mp h
    rw [List.append_cons]
    refine ih _ st₁ st' hl ?_ h
    simp only [pushPhi, hF.isPhi, hF.lval, hi, if_true] at h₁
    split at h₁
    · cases h₁
    · rename_i v hv
      cases h₁
      have hphi : phiOf g i = some v := by simp [phiOf, hi, hv]
      have hstore : storeOf g i = none := storeOf_eq_none (by simp [phiOf_op hphi])
      intro w x
      rw [top_push, Reaches.concat_iff, defOf_of_phi hphi, hphi, hstore]
      by_cases hw : w = v
      · subst hw
        simp [eq_comm]
      · simp [hw, Ne.symm hw, htop w x]

/-- Step 3 over instructions that are no phis. -/
theorem foldlM_pushPhi_rest (hF : SameAddresses g F) :
    ∀ (l : List InstrId) (st st' : Stacks), (∀ i ∈ l, isPhi g i = false) →
      l.foldlM (pushPhi F) st = .ok st' → st' = st := by
  intro l
  induction l with
  | nil =>
    intro st st' _ h
    cases h
    rfl
  | cons i l ih =>
    intro st st' hl h
    obtain ⟨hi, hl⟩ := List.forall_mem_cons.mp hl
    rw [List.foldlM_cons] at h
    obtain ⟨st₁, h₁, h⟩ := Fallible.bind_ok.mp h
    simp only [pushPhi, hF.isPhi, hi] at h₁
    cases h₁
    exact ih st st' hl h

/-- Steps 4 and 5 over phis. -/
theorem foldlM_renameInstr_phis (hF : Kept g closed F) {w : List InstrId} {rest : List InstrId}
    {r : St × List InstrId} :
    ∀ (ps : List InstrId), (∀ i ∈ ps, isPhi g i = true) → LoadsFind g st (ps ++ rest) →
      (ps ++ rest).foldlM renameInstr (⟨F, st⟩, w) = .ok r →
        rest.foldlM renameInstr (⟨F, st⟩, w) = .ok r ∧ LoadsFind g st rest := by
  intro ps
  induction ps with
  | nil => exact fun _ hfind h => ⟨h, hfind⟩
  | cons i ps ih =>
    intro hps hfind h
    obtain ⟨hi, hps⟩ := List.forall_mem_cons.mp hps
    have hop := isPhi_op hi
    obtain ⟨F₁, st₁, w₁, hstep, hren, hfind₁⟩ := renameInstr_step (w := w) hF hfind
    rw [List.cons_append, List.foldlM_cons, hstep, Fallible.ok_bind] at h
    cases hren with
    | load hl => simp [loadOf_op hl] at hop
    | store hs => simp [storeOf_op hs] at hop
    | other => exact ih hps hfind₁ h

/-- The stored value in the current function is the one that takes the place of the operand. -/
theorem Vals.rval (h : Vals g (Done g W pre) Q F) (hg : Ordered g) (hb : b ∈ g.blocks)
    (hbody : g.body b = pre ++ i :: post) (hW : ∀ a, g.StrictlyDominates a b → a ∈ W)
    (hs : storeOf g i = some v) : Resolves g (rval g i) (rval F i) := by
  have hi : i ∈ g.instrs := Func.mem_instrs hb (by rw [hbody]; simp)
  have hphi : isPhi g i = false := by simp [isPhi, storeOf_op hs]
  have hhead : (g.instr i).operands[0]? = some (Mem2Reg.rval g i) := by
    unfold storeOf at hs
    split at hs
    · simp [Mem2Reg.rval, *]
    · cases hs
  obtain ⟨c, hc, hcase⟩ := h.operand i hi hphi 0 _ hhead
  have hrval : Mem2Reg.rval F i = c := by
    rw [← List.head?_eq_getElem?] at hc
    simp [Mem2Reg.rval, List.headD_eq_head?_getD, hc]
  rw [hrval]
  cases hcase with
  | inl hres => exact hres.2
  | inr hkeep =>
    rw [hkeep.2]
    refine .self fun l hl => ?_
    by_contra hload
    refine hkeep.1 l hl ⟨Option.isSome_iff_ne_none.mpr hload, ?_⟩
    cases hg.ssa b hb pre i post hbody l (hl ▸ rval_mem hs) with
    | inl hpre => exact Or.inl hpre
    | inr habove =>
      obtain ⟨a, ha, hla⟩ := habove
      exact Or.inr ⟨a, hW a ha, hla⟩

/-- Steps 4 and 5 over the other instructions. -/
theorem foldlM_renameInstr_vals (hg : Ordered g) (hb : b ∈ g.blocks)
    (hW : ∀ a, g.StrictlyDominates a b → a ∈ W) (hbW : b ∉ W) (hWb : ∀ a ∈ W, a ∈ g.blocks) :
    ∀ (l pre : List InstrId) (F : Func) (st : Stacks) (w : List InstrId) (r : St × List InstrId),
      g.body b = pre ++ l → (∀ i ∈ l, isPhi g i = false) → Kept g closed F → LoadsFind g st l →
      TopAt g st b pre → Vals g (Done g W pre) Q F → l.foldlM renameInstr (⟨F, st⟩, w) = .ok r →
      TopAt g r.1.varValStack b (g.body b) ∧ Vals g (Done g W (g.body b)) Q r.1.f := by
  intro l
  induction l with
  | nil =>
    intro pre F st w r hbody _ _ _ htop hvals h
    rw [List.append_nil] at hbody
    rw [hbody]
    cases h
    exact ⟨htop, hvals⟩
  | cons i l ih =>
    intro pre F st w r hbody hl hF hfind htop hvals h
    obtain ⟨hi, hl⟩ := List.forall_mem_cons.mp hl
    obtain ⟨F₁, st₁, w₁, hstep, hren, hfind₁⟩ := renameInstr_step (w := w) hF hfind
    rw [List.foldlM_cons, hstep, Fallible.ok_bind] at h
    refine ih (pre ++ [i]) F₁ st₁ w₁ r (by rw [hbody, List.append_assoc]; rfl) hl (hren.kept hF).1
      hfind₁ ?_ ?_ h
    · have hphi : phiOf g i = none := phiOf_eq_none (by simpa [isPhi] using hi)
      intro v x
      rw [Reaches.concat_iff, hphi]
      cases hren with
      | load hload hst =>
        have hs : storeOf g i = none := storeOf_eq_none (by simp [loadOf_op hload])
        simp [defOf, hs, hphi, htop v x]
      | @store u hs =>
        rw [top_push, hs, defOf_of_store hs]
        by_cases hv : v = u
        · subst hv
          have hres := hvals.rval hg hb hbody hW hs
          simp only [if_true, Option.some.injEq, ne_eq, not_true_eq_false, false_and, reduceCtorEq,
            true_and, false_or]
          exact ⟨fun hx => hx ▸ hres, fun hx => hres.unique hg.toPlacing hx⟩
        · simp [hv, Ne.symm hv, htop v x]
      | other _ hs => simp [defOf, hs, hphi, htop v x]
    · have hi' : i ∈ g.body b := by
        rw [hbody]
        simp
      have hdone : ∀ l, Done g W (pre ++ [i]) l ↔
          Done g W pre l ∨ l = i ∧ (loadOf g i).isSome = true := by
        intro l
        simp only [Done, List.mem_append, List.mem_singleton]
        by_cases hl : l = i
        · subst hl
          tauto
        · simp [hl]
      cases hren with
      | @load v x _ hload hst =>
        have hnot : ¬ Done g W pre i := by
          rintro ⟨-, hpre | ⟨a, ha, hia⟩⟩
          · have hnd := (List.nodup_flatMap.mp hg.nodup).1 b hb
            rw [hbody] at hnd
            exact (List.nodup_append.mp hnd).2.2 i hpre i List.mem_cons_self rfl
          · exact hbW (Func.block_unique hg.nodup (hWb a ha) hb hia hi' ▸ ha)
        have hsome : (loadOf g i).isSome = true := by rw [hload]; rfl
        have hx := (htop v x).mp (by simp [top, hst])
        refine (hvals.replace hsome hnot (.load hload hb hbody hx)).congr (fun l => ?_)
          fun _ => Iff.rfl
        rw [hdone, hsome]
        simp
      | store hs =>
        have hnone : loadOf g i = none := loadOf_eq_none (by simp [storeOf_op hs])
        exact hvals.congr (fun l => by rw [hdone, hnone]; simp) fun _ => Iff.rfl
      | other hnone _ =>
        exact hvals.congr (fun l => by rw [hdone, hnone]; simp) fun _ => Iff.rfl

/-- `re_name` up to its recursive calls. -/
theorem enterBlock_vals (hg : Ordered g) (hb : b ∈ g.blocks) (hF : Kept g closed F)
    (hclosed : b ∉ closed) (hW : ∀ a, g.StrictlyDominates a b → a ∈ W) (hbW : b ∉ W)
    (hWb : ∀ a ∈ W, a ∈ g.blocks) (hctx : Ctx g W b st) (hvals : Vals g (Done g W []) W F)
    (htop : TopAt g st b []) {r : St × List InstrId} (h : enterBlock b ⟨F, st⟩ = .ok r) :
    Vals g (Done g (W ++ [b]) []) (W ++ [b]) r.1.f ∧ TopAt g r.1.varValStack b (g.body b) := by
  have habove : ∀ v a, g.StrictlyDominates a b → Gives g v a → (st v).getD [] ≠ [] :=
    fun v a ha hav => (hctx.stack v).mpr ⟨a, ha, hav⟩
  obtain ⟨-, hlift, -, -⟩ := (enterBlock_spec hg.ready hb hF hclosed habove).2 r h
  have hbody : F.body b = g.body b := by rw [hF.body, if_neg hclosed]
  obtain ⟨ps, l, hsplit, hps, hl⟩ := hg.phis_first b hb
  simp only [enterBlock, hbody] at h
  obtain ⟨st₁, hpush, h⟩ := Fallible.bind_ok.mp h
  obtain ⟨⟨⟨F₂, st₂⟩, w⟩, hrename, h⟩ := Fallible.bind_ok.mp h
  obtain ⟨F₃, hfill, h⟩ := Fallible.bind_ok.mp h
  cases h
  -- step 3
  obtain ⟨st₁', hpush', hlift₁, -⟩ :=
    foldlM_pushPhi hF.toSameAddresses (g.body b) (hg.ready.lval b hb) st
  obtain rfl : st₁' = st₁ := Except.ok.inj (hpush'.symm.trans hpush)
  have hfind := hg.ready.loadsFind hb hlift₁ habove
  rw [hsplit, List.foldlM_append] at hpush
  obtain ⟨st', hpush₁, hpush₂⟩ := Fallible.bind_ok.mp hpush
  obtain rfl := foldlM_pushPhi_rest hF.toSameAddresses l st' st₁' hl hpush₂
  have htop₁ := foldlM_pushPhi_top hF.toSameAddresses ps [] st st₁' hps htop hpush₁
  rw [List.nil_append] at htop₁
  -- steps 4 and 5
  rw [hsplit] at hfind hrename
  obtain ⟨hrename', hfind'⟩ := foldlM_renameInstr_phis hF ps hps hfind hrename
  have hvals₁ : Vals g (Done g W ps) W F := by
    refine hvals.congr (fun i => ?_) fun _ => Iff.rfl
    unfold Done
    refine and_congr_right fun hi => or_congr_left ⟨fun h => absurd h (by simp), fun hmem => ?_⟩
    have hop := isPhi_op (hps i hmem)
    rw [loadOf_eq_none (by simp [hop])] at hi
    cases hi
  obtain ⟨htop₂, hvals₂⟩ := foldlM_renameInstr_vals hg hb hW hbW hWb l ps F st₁' [] _ hsplit hl hF
    hfind' htop₁ hvals₁ hrename'
  obtain ⟨F₂', st₂', hrename'', hF₂, -⟩ := @foldlM_renameInstr _ closed l F st₁' [] hF hfind'
  obtain ⟨rfl, rfl⟩ : F₂' = F₂ ∧ st₂' = st₂ := by
    have heq := Except.ok.inj (hrename''.symm.trans hrename')
    simp only [Prod.mk.injEq, St.mk.injEq] at heq
    exact heq.1
  -- step 6
  have hst : NoLoads g st₂' := fun v x hx => ((htop₂ v x).mp hx).not_load
  have hsucc : F₂'.succ b = g.succ b := by rw [hF₂.toCfg]
  rw [hsucc] at hfill
  obtain ⟨is, hfilled, his⟩ := foldlM_fillSucc_filled hst hg.ready (g.succ b) F₂' F₃
    (hg.ready.closed b hb) hF₂ hfill
  have hsome : ∀ v, (∃ a, g.Dominates a b ∧ Gives g v a) → ∃ x, top st₂' v = some x := by
    rintro v ⟨a, ha, hav⟩
    obtain ⟨above, hlen, heq⟩ := hlift v
    have hne : (st₂' v).getD [] ≠ [] := by
      rw [heq]
      rcases dominates_iff.mp ha with rfl | hs
      · have hpos : 0 < count (defOf g) (g.body a) v := count_pos.mpr hav
        rw [← hlen] at hpos
        exact List.append_ne_nil_of_left_ne_nil (List.ne_nil_of_length_pos hpos) _
      · exact List.append_ne_nil_of_right_ne_nil _ (habove v a hs hav)
    obtain ⟨x, rest, hx⟩ := getD_ne_nil hne
    exact ⟨x, by simp [top, hx]⟩
  refine ⟨(hvals₂.fill hfilled hbW his htop₂ hsome).congr (fun i => ?_) fun P => ?_, htop₂⟩
  · simp only [Done, List.not_mem_nil, false_or, List.mem_append, List.mem_singleton, or_and_right,
      exists_or, exists_eq_left, or_comm]
  · rw [List.mem_cons, List.mem_append, List.mem_singleton, or_comm]

/-- The instructions of a block that has been renamed hold no load that is still to be replaced. -/
theorem Vals.no_load (h : Vals g (Done g W []) Q F) (hg : Ordered g) (hF : SameAddresses g F)
    (hb : b ∈ g.blocks) (hbW : b ∈ W) (hW : ∀ a, g.StrictlyDominates a b → a ∈ W)
    (hi : i ∈ g.body b) (hphi : isPhi g i = false) :
    ∀ l, (loadOf g l).isSome = true → ¬ Done g W [] l → Value.instr l ∉ (F.instr i).operands := by
  intro l hl hnot hmem
  obtain ⟨no, hno⟩ := List.getElem?_of_mem hmem
  have hlen := hF.length i (by simpa [isPhi] using hphi)
  obtain ⟨hlt, -⟩ := List.getElem?_eq_some_iff.mp hno
  rw [hlen] at hlt
  obtain ⟨c, hc, hcase⟩ := h.operand i (Func.mem_instrs hb hi) hphi no _
    (List.getElem?_eq_getElem hlt)
  obtain rfl := Option.some.inj (hno.symm.trans hc)
  cases hcase with
  | inl hres =>
    rw [hres.2.not_load l rfl] at hl
    cases hl
  | inr hkeep =>
    refine hnot ⟨hl, Or.inr ?_⟩
    obtain ⟨pre, post, hbody⟩ := List.append_of_mem hi
    have hop : Value.instr l ∈ (g.instr i).operands := by
      rw [hkeep.2]
      exact List.getElem_mem hlt
    cases hg.ssa b hb pre i post hbody l hop with
    | inl hpre => exact ⟨b, hbW, by rw [hbody]; exact List.mem_append_left _ hpre⟩
    | inr habove =>
      obtain ⟨a, ha, hla⟩ := habove
      exact ⟨a, hW a ha, hla⟩

/-- `re_name` after its recursive calls. -/
theorem leaveBlock_vals (hg : Ordered g) {s s' : St} (hF : SameAddresses g s.f) (hb : b ∈ g.blocks)
    (hbW : b ∈ W) (hW : ∀ a, g.StrictlyDominates a b → a ∈ W)
    (hvals : Vals g (Done g W []) Q s.f)
    (h : leaveBlock b ((g.body b).filter (access g)) s = .ok s') :
    Vals g (Done g W []) Q s'.f := by
  obtain ⟨st', -, h⟩ := Fallible.bind_ok.mp h
  cases h
  have hloop : ∀ (w : List InstrId) (F : Func), (∀ i ∈ w, ∀ l, (loadOf g l).isSome = true →
      ¬ Done g W [] l → Value.instr l ∉ (F.instr i).operands) → Vals g (Done g W []) Q F →
      Vals g (Done g W []) Q (w.foldl (fun f i => f.deleteInstr b i) F) := by
    intro w
    induction w with
    | nil => exact fun F _ h => h
    | cons i w ih =>
      intro F hw h
      obtain ⟨hi, hw⟩ := List.forall_mem_cons.mp hw
      exact ih _ (by simpa using hw) (h.delete b i hi)
  refine hloop _ s.f (fun i hi => ?_) hvals
  obtain ⟨hib, hacc⟩ := List.mem_filter.mp hi
  exact hvals.no_load hg hF hb hbW hW hib (access_not_phi hacc)

/-! ## The walk -/

variable {kids : BlockId → List BlockId} {n : Nat}

/-- What is to be shown of `re_name` with fuel `n` at `b`. -/
def ValSpec (g : Func) (kids : BlockId → List BlockId) (n : Nat) (b : BlockId) : Prop :=
  ∀ path W closed F st s', b ∈ g.blocks → Room g.toCfg path n b → Kept g closed F →
    Ctx g W b st → (∀ x ∈ visitOrder kids n b, x ∉ closed ∧ x ∉ W) →
    (∀ a, g.StrictlyDominates a b → a ∈ W) → (∀ a ∈ W, a ∈ g.blocks) →
    Vals g (Done g W []) W F → TopAt g st b [] → reName kids n b ⟨F, st⟩ = .ok s' →
    Vals g (Done g (W ++ visitOrder kids n b) []) (W ++ visitOrder kids n b) s'.f

/-- The loop over the children of `b`. -/
theorem foldlM_reName_vals (hg : Ordered g) (hT : IsTree g.toCfg kids) (hb : b ∈ g.blocks)
    {path : List BlockId} (hroom : Room g.toCfg path (n + 1) b) (hspec : ∀ c, ValSpec g kids n c) :
    ∀ (cs W closed : List BlockId) (F : Func) (st : Stacks) (s' : St), (∀ c ∈ cs, c ∈ kids b) →
      Kept g closed F → (∀ v, (st v).getD [] ≠ [] ↔ ∃ a, g.Dominates a b ∧ Gives g v a) →
      (∀ v, HasKey st v ↔ ∃ a ∈ W, Gives g v a) →
      (∀ x ∈ cs.flatMap (visitOrder kids n), x ∉ closed ∧ x ∉ W) → cs.Nodup →
      (∀ a, g.Dominates a b → a ∈ W) → (∀ a ∈ W, a ∈ g.blocks) →
      Vals g (Done g W []) W F → TopAt g st b (g.body b) →
      cs.foldlM (fun s kid => reName kids n kid s) ⟨F, st⟩ = .ok s' →
      Vals g (Done g (W ++ cs.flatMap (visitOrder kids n)) [])
        (W ++ cs.flatMap (visitOrder kids n)) s'.f := by
  intro cs
  induction cs with
  | nil =>
    intro W closed F st s' _ _ _ _ _ _ _ _ hvals _ h
    cases h
    simpa using hvals
  | cons c cs ih =>
    intro W closed F st s' hcs hF hstack hkey hopen hnd hW hWb hvals htop h
    obtain ⟨hc, hcs⟩ := List.forall_mem_cons.mp hcs
    obtain ⟨hcnot, hnd⟩ := List.nodup_cons.mp hnd
    rw [List.flatMap_cons] at hopen ⊢
    rw [List.foldlM_cons] at h
    obtain ⟨s₁, h₁, h⟩ := Fallible.bind_ok.mp h
    have hopen₁ := fun x hx => hopen x (List.mem_append_left _ hx)
    have hctx : Ctx g W c st := by
      refine ⟨fun v => ?_, hkey⟩
      rw [hstack]
      exact exists_congr fun a => and_congr_left' (hT.sdom_kid_iff hc).symm
    have htopc : TopAt g st c [] := by
      intro v x
      rw [htop, Reaches.nil_iff]
      obtain ⟨hcb, hidom⟩ := (hT.mem b c).mp hc
      refine ⟨fun hx => ⟨b, hidom, hx⟩, ?_⟩
      rintro ⟨d, hd, hx⟩
      rwa [IDom.unique ((hg.reach c).mpr hcb) hidom hd]
    have hroomc := hroom.kid hT hb hc
    have hWc : ∀ a, g.StrictlyDominates a c → a ∈ W := fun a ha => hW a ((hT.sdom_kid_iff hc).mp ha)
    have hvals₁ := hspec c _ W closed F st s₁ (hT.kid hc).1 hroomc hF hctx hopen₁ hWc hWb hvals
      htopc h₁
    have hL := (reName_spec hg.ready hT n c _ W closed F st (hT.kid hc).1 hroomc hF hctx
      fun x hx => (hopen₁ x hx).1).2 s₁ h₁
    have hsub := fun x hx => (hT.of_mem_visitOrder n c (hT.kid hc).1 x hx)
    rw [← List.append_assoc]
    refine ih (W ++ visitOrder kids n c) (visitOrder kids n c ++ closed) s₁.f s₁.varValStack s' hcs
      hL.kept (fun v => by rw [hL.stack, hstack]) hL.key (fun x hx => ?_) hnd
      (fun a ha => List.mem_append_left _ (hW a ha)) (fun a ha => ?_) hvals₁ (fun v x => ?_) h
    · have hnew : x ∉ visitOrder kids n c := by
        intro hmem
        obtain ⟨c', hc', hx⟩ := List.mem_flatMap.mp hx
        have hdom' := hT.of_mem_visitOrder n c' (hT.kid (hcs c' hc')).1 x hx
        obtain rfl := hT.kids_disjoint hc (hcs c' hc') (hsub x hmem).1 (hsub x hmem).2 hdom'.2
        exact hcnot hc'
      have hx' := hopen x (List.mem_append_right _ hx)
      simp only [List.mem_append, not_or]
      exact ⟨⟨hnew, hx'.1⟩, hx'.2, hnew⟩
    · exact (List.mem_append.mp ha).elim (hWb a) fun ha => (hsub a ha).1
    · rw [← htop, top, top, hL.stack]

/-- **One call of `re_name`**: the loads of the blocks it enters are replaced by the values that
reach them, and the phis are filled from these blocks. -/
theorem reName_vals (hg : Ordered g) (hT : IsTree g.toCfg kids) : ∀ n b, ValSpec g kids n b := by
  intro n
  induction n with
  | zero => exact fun b path W closed F st s' hb hroom => absurd rfl (hroom.pos hb)
  | succ n ih =>
    intro b path W closed F st s' hb hroom hF hctx hopen hW hWb hvals htop h
    have hbnew := hopen b List.mem_cons_self
    obtain ⟨r, henter, h⟩ := Fallible.bind_ok.mp h
    obtain ⟨s₁, hkids, hleave⟩ := Fallible.bind_ok.mp h
    obtain ⟨hF₁, hlift, hkey, hwait⟩ := (enterBlock_spec hg.ready hb hF hbnew.1 fun v a ha hav =>
      (hctx.stack v).mpr ⟨a, ha, hav⟩).2 r henter
    obtain ⟨hstack, hkey'⟩ := hctx.enter hlift hkey
    obtain ⟨hvals₁, htop₁⟩ := enterBlock_vals hg hb hF hbnew.1 hW hbnew.2 hWb hctx hvals htop henter
    have hnd := List.nodup_cons.mp (hT.nodup_visitOrder (n + 1) b hb)
    have hopen₁ : ∀ x ∈ (kids b).flatMap (visitOrder kids n), x ∉ closed ∧ x ∉ W ++ [b] := by
      intro x hx
      obtain ⟨h₁, h₂⟩ := hopen x (List.mem_cons_of_mem _ hx)
      refine ⟨h₁, fun hmem => ?_⟩
      rcases List.mem_append.mp hmem with hmem | hmem
      · exact h₂ hmem
      · obtain rfl := List.mem_singleton.mp hmem
        exact hnd.1 hx
    have hW₁ : ∀ a, g.Dominates a b → a ∈ W ++ [b] := by
      intro a ha
      rcases dominates_iff.mp ha with rfl | hs
      · simp
      · exact List.mem_append_left _ (hW a hs)
    have hWb₁ : ∀ a ∈ W ++ [b], a ∈ g.blocks := by
      intro a ha
      rcases List.mem_append.mp ha with ha | ha
      · exact hWb a ha
      · exact List.mem_singleton.mp ha ▸ hb
    have hvals₂ := foldlM_reName_vals hg hT hb hroom ih (kids b) (W ++ [b]) closed r.1.f r.1.varValStack s₁
      (fun _ h => h) hF₁ hstack hkey' hopen₁ (hT.nodup b) hW₁ hWb₁ hvals₁ htop₁ hkids
    have hL := (foldlM_reName hT hb hroom (reName_spec hg.ready hT n) (kids b) (W ++ [b]) closed r.1.f
      r.1.varValStack (fun _ h => h) hF₁ hstack hkey' (fun x hx => (hopen₁ x hx).1) (hT.nodup b)).2 s₁ hkids
    have hvals₃ := leaveBlock_vals hg hL.kept.toSameAddresses hb (by simp)
      (fun a ha => List.mem_append_left _ (hW₁ a ha.1)) hvals₂ (hwait ▸ hleave)
    have horder : visitOrder kids (n + 1) b = b :: (kids b).flatMap (visitOrder kids n) := rfl
    rw [horder, List.append_cons]
    exact hvals₃

end Cminusfc.Optimization.Mem2Reg
