import Cminusfc.Optimization.ActiveVarsCorrect

/-!
# Liveness along paths

`LiveOut` is liveness at the end of a block along the paths of the CFG, with two parameters: the edges
a path may cross and the edges on which a phi may read. `PathLive` is liveness proper: every edge, and
the edge from the block a phi has an operand for.

The least solution of the equations of `ActiveVars` is the same predicate with fewer edges
(`IsLeast.mem_liveOut`): the filter drops an edge into a block that has the variable as a phi operand
for other blocks only, and a phi operand that an instruction in front of the phi defines is no
`use`. `least_liveness_iff`: so the solution is liveness exactly when no variable depends on these.

About `src/optimization/ActiveVars.cpp` 18-40 and 104-131. Out of scope: whether the loop comes to
the solution, the subject of `ActiveVarsCorrect`.
-/

namespace Cminusfc.Optimization.ActiveVars

open Cminusfc.LightIR

variable {f : Func} {t : Sets} {s : Live} {v : Value} {bb suc : BlockId} {i : InstrId}
  {l : List InstrId}

/-! ## Paths -/

/-- The operands an instruction reads as variables: a call does not read its callee. -/
def reads (f : Func) (i : InstrId) : List Value :=
  if (f.instr i).op = .call then (f.instr i).operands.tail else (f.instr i).operands

/-- `i` stands in `l` and reads `v`, and nothing in front of it defines `v`. -/
def Exposed (f : Func) (l : List InstrId) (v : Value) (i : InstrId) : Prop :=
  ∃ l₁ l₂, l = l₁ ++ i :: l₂ ∧ v ∈ reads f i ∧ v ∉ l₁.map Value.instr

/-- A phi of `suc` has the operand `v` for `bb`. -/
def PhiOperand (f : Func) (v : Value) (bb suc : BlockId) : Prop :=
  ∃ i ∈ f.body suc, (f.instr i).op = .phi ∧ (v, bb) ∈ (f.instr i).phiPairs

/-- A path from the end of a block to a use of `v` that does not pass the definition of `v`. It crosses
the edges of `crosses` and may end in a phi on those of `onEdge`. -/
inductive LiveOut (f : Func) (v : Value) (crosses onEdge : BlockId → BlockId → Prop) :
    BlockId → Prop
  | phi {bb suc : BlockId} (hs : suc ∈ f.succ bb) (h : onEdge bb suc) :
      LiveOut f v crosses onEdge bb
  | use {bb suc : BlockId} {i : InstrId} (hs : suc ∈ f.succ bb) (hc : crosses bb suc)
      (hi : Exposed f (f.body suc) v i) (hphi : (f.instr i).op ≠ .phi) :
      LiveOut f v crosses onEdge bb
  | step {bb suc : BlockId} (hs : suc ∈ f.succ bb) (hc : crosses bb suc)
      (hdef : v ∉ (f.body suc).map Value.instr) (h : LiveOut f v crosses onEdge suc) :
      LiveOut f v crosses onEdge bb

/-- `v` is live at the end of `bb`: a phi operand is used on the edge from its own block. -/
def PathLive (f : Func) (v : Value) : BlockId → Prop :=
  LiveOut f v (fun _ _ => True) (PhiOperand f v)

/-- If `v` is a phi operand of `suc` at all, it is one for `bb`. -/
def Passes (f : Func) (v : Value) (bb suc : BlockId) : Prop :=
  PhiOperand f v bb suc ∨ ∀ p, ¬ PhiOperand f v p suc

/-- `v` is a phi operand of `suc` for `bb`, and some phi of `suc` reads it in front of its
definition. -/
def EarlyPhiOperand (f : Func) (v : Value) (bb suc : BlockId) : Prop :=
  PhiOperand f v bb suc ∧ ∃ i, Exposed f (f.body suc) v i ∧ (f.instr i).op = .phi

/-- `v` is live at the end of `bb` along a path whose edges all pass, which does not end in a phi
behind the definition of `v`. -/
def PassLive (f : Func) (v : Value) : BlockId → Prop :=
  LiveOut f v (Passes f v) (EarlyPhiOperand f v)

theorem PassLive.pathLive (h : PassLive f v bb) : PathLive f v bb := by
  induction h with
  | phi hs h => exact .phi hs h.1
  | use hs _ hi hphi => exact .use hs trivial hi hphi
  | step hs _ hdef _ ih => exact .step hs trivial hdef ih

/-! ## The sets -/

/-- The functions `ActiveVars` is called on. -/
structure Input (f : Func) : Prop where
  closed : ∀ a ∈ f.blocks, ∀ b ∈ f.succ a, b ∈ f.blocks
  blocks_nodup : f.blocks.Nodup
  /-- The operands of a phi are its pairs. -/
  pairs : ∀ i ∈ f.instrs, (f.instr i).op = .phi →
    (f.instr i).operands = (f.instr i).phiPairs.flatMap fun q => [q.1, .block q.2]
  /-- An instruction with a name has a value. -/
  typed : ∀ i ∈ f.instrs, isVariable f (.instr i) = true → (f.instr i).ty ≠ .void
  /-- A callee is nothing but a callee. -/
  callee : ∀ i ∈ f.instrs, (f.instr i).op = .call → ∀ c ∈ (f.instr i).operands.head?,
    ∀ j ∈ f.instrs, c ∉ reads f j

/-- The sets of `bb` when its instructions `l` have been scanned. -/
structure Scanned (f : Func) (bb : BlockId) (l : List InstrId) (t : Sets) : Prop where
  use : ∀ v, v ∈ t.use bb ↔ isVariable f v = true ∧ ∃ i, Exposed f l v i
  defs : ∀ v ∈ t.defs bb, v ∈ l.map Value.instr
  defined : ∀ v ∈ l.map Value.instr, isVariable f v = true → v ∈ t.defs bb ∨ v ∈ t.use bb
  phiUses : ∀ p v, (p, v) ∈ t.phiUses bb ↔
    ∃ i ∈ l, (f.instr i).op = .phi ∧ (v, p) ∈ (f.instr i).phiPairs

theorem Exposed.mem (h : Exposed f l v i) : i ∈ l ∧ v ∈ reads f i := by
  obtain ⟨l₁, l₂, rfl, hv, -⟩ := h
  exact ⟨by simp, hv⟩

theorem exposed_concat {j : InstrId} :
    (∃ i, Exposed f (l ++ [j]) v i) ↔
      (∃ i, Exposed f l v i) ∨ v ∈ reads f j ∧ v ∉ l.map Value.instr := by
  constructor
  · rintro ⟨i, l₁, l₂, heq, hv, hdef⟩
    rcases List.eq_nil_or_concat l₂ with rfl | ⟨l₂, k, rfl⟩
    · obtain ⟨rfl, hji⟩ := List.append_inj' heq rfl
      cases hji
      exact Or.inr ⟨hv, hdef⟩
    · rw [List.concat_eq_append, ← List.cons_append, ← List.append_assoc] at heq
      obtain ⟨rfl, -⟩ := List.append_inj' heq rfl
      exact Or.inl ⟨i, l₁, l₂, rfl, hv, hdef⟩
  · rintro (⟨i, l₁, l₂, rfl, hv, hdef⟩ | ⟨hv, hdef⟩)
    · exact ⟨i, l₁, l₂ ++ [j], by simp, hv, hdef⟩
    · exact ⟨j, l, [], rfl, hv, hdef⟩

/-- A new operand is a use when nothing in front of it defines it. -/
theorem mem_operandUses {defs : Finset Value} {rands : List Value} :
    v ∈ operandUses f defs rands ↔ v ∈ rands ∧ v ∉ defs ∧ isVariable f v = true := by
  simp [operandUses]

/-- One instruction. -/
theorem Scanned.scanInstr (hf : Input f) (h : Scanned f bb l t) (hl : ∀ j ∈ l, j ∈ f.instrs)
    (hi : i ∈ f.instrs) : Scanned f bb (l ++ [i]) (scanInstr f bb t i) := by
  generalize hu : (ActiveVars.scanInstr f bb t i).use bb = uses
  -- the callee of a call is a variable of no use
  have huses : ∀ v, v ∈ uses ↔ v ∈ t.use bb ∨
      v ∈ reads f i ∧ v ∉ t.defs bb ∧ isVariable f v = true := by
    intro v
    have hcase : uses = if (f.instr i).op = .call then
        ((f.instr i).operands.head?.map (t.use bb ∪ operandUses f (t.defs bb)
          (f.instr i).operands).erase).getD (t.use bb ∪ operandUses f (t.defs bb)
          (f.instr i).operands)
        else t.use bb ∪ operandUses f (t.defs bb) (f.instr i).operands := by
      rw [← hu]
      simp [ActiveVars.scanInstr]
    rw [hcase]
    by_cases hcall : (f.instr i).op = .call
    · have hcallee := hf.callee i hi hcall
      rw [if_pos hcall]
      unfold reads
      rw [if_pos hcall]
      cases hops : (f.instr i).operands with
      | nil => simp [operandUses]
      | cons c rest =>
        rw [hops] at hcallee
        simp only [List.head?_cons, Option.map_some, Option.getD_some, Finset.mem_erase,
          Finset.mem_union, mem_operandUses, List.mem_cons, List.tail_cons]
        by_cases hvc : v = c
        · subst hvc
          have hno := hcallee v rfl
          have hnotUse : v ∉ t.use bb := fun hmem => by
            obtain ⟨-, j, hj⟩ := (h.use v).mp hmem
            exact hno j (hl j hj.mem.1) hj.mem.2
          have hnotRead : v ∉ rest := by
            have := hno i hi
            unfold reads at this
            rwa [if_pos hcall, hops] at this
          simp [hnotUse, hnotRead]
        · simp [hvc]
    · rw [if_neg hcall]
      unfold reads
      rw [if_neg hcall, Finset.mem_union, mem_operandUses]
  have huse : ∀ v, v ∈ uses ↔ isVariable f v = true ∧ ∃ k, Exposed f (l ++ [i]) v k := by
    intro v
    rw [huses, exposed_concat, h.use]
    by_cases hv : isVariable f v = true
    · simp only [hv, true_and, and_true]
      constructor
      · rintro (hk | ⟨hr, hd⟩)
        · exact Or.inl hk
        · by_cases hex : ∃ k, Exposed f l v k
          · exact Or.inl hex
          · refine Or.inr ⟨hr, fun hmem => ?_⟩
            rcases h.defined v hmem hv with hd' | hu'
            · exact hd hd'
            · exact hex ((h.use v).mp hu').2
      · rintro (hk | ⟨hr, hd⟩)
        · exact Or.inl hk
        · exact Or.inr ⟨hr, fun hmem => hd (h.defs v hmem)⟩
    · simp [hv]
  have hdefs : (ActiveVars.scanInstr f bb t i).defs bb =
      if .instr i ∉ uses ∧ (f.instr i).ty ≠ .void then insert (.instr i) (t.defs bb)
      else t.defs bb := by
    have hu' : uses = (ActiveVars.scanInstr f bb t i).use bb := hu.symm
    simp only [ActiveVars.scanInstr, Function.update_self] at hu' ⊢
    rw [← hu']
    split <;> simp
  refine ⟨fun v => by rw [hu, huse], fun v hv => ?_, fun v hv hvar => ?_, fun p v => ?_⟩
  · rw [hdefs] at hv
    rw [List.map_append, List.mem_append]
    split at hv
    · rcases Finset.mem_insert.mp hv with rfl | hv
      · exact Or.inr (by simp)
      · exact Or.inl (h.defs v hv)
    · exact Or.inl (h.defs v hv)
  · rw [hu, hdefs]
    rw [List.map_append, List.mem_append] at hv
    rcases hv with hv | hv
    · refine (h.defined v hv hvar).imp (fun hd => ?_) fun hd => (huses v).mpr (Or.inl hd)
      split
      · exact Finset.mem_insert_of_mem hd
      · exact hd
    · obtain rfl := List.mem_singleton.mp hv
      by_cases hmem : Value.instr i ∈ uses
      · exact Or.inr hmem
      · rw [if_pos ⟨hmem, hf.typed i hi hvar⟩]
        exact Or.inl (Finset.mem_insert_self _ _)
  · have hphi : (ActiveVars.scanInstr f bb t i).phiUses bb = if (f.instr i).op = .phi then
        t.phiUses bb ∪ ((f.instr i).phiPairs.map fun p => (p.2, p.1)).toFinset
        else t.phiUses bb := by
      simp only [ActiveVars.scanInstr]
      split <;> simp
    rw [hphi]
    split
    · rename_i hop
      rw [Finset.mem_union, h.phiUses]
      simp [or_and_right, exists_or, hop]
    · rename_i hop
      rw [h.phiUses]
      simp [or_and_right, exists_or, hop]

theorem Scanned.foldl (hf : Input f) : ∀ (l₂ l : List InstrId) (t : Sets), Scanned f bb l t →
    (∀ j ∈ l, j ∈ f.instrs) → (∀ j ∈ l₂, j ∈ f.instrs) →
    Scanned f bb (l ++ l₂) (l₂.foldl (ActiveVars.scanInstr f bb) t) := by
  intro l₂
  induction l₂ with
  | nil => exact fun l t h _ _ => by rwa [List.append_nil]
  | cons i l₂ ih =>
    intro l t h hl hl₂
    have hi := hl₂ i List.mem_cons_self
    rw [List.foldl_cons, List.append_cons]
    refine ih _ _ (h.scanInstr hf hl hi) (fun j hj => ?_) fun j hj => hl₂ j (List.mem_cons_of_mem _ hj)
    rcases List.mem_append.mp hj with hj | hj
    · exact hl j hj
    · exact List.mem_singleton.mp hj ▸ hi

theorem ite_update_of_ne {α : Type} {b : BlockId} (h : b ≠ bb) (c : Prop) [Decidable c]
    (m : BlockId → α) (x : α) : (if c then Function.update m bb x else m) b = m b := by
  split
  · exact Function.update_of_ne h x m
  · rfl

/-- The sets of `bb` and those of another block are apart. -/
theorem scanInstr_of_ne {b : BlockId} (h : b ≠ bb) :
    (scanInstr f bb t i).use b = t.use b ∧ (scanInstr f bb t i).defs b = t.defs b ∧
      (scanInstr f bb t i).phiUses b = t.phiUses b := by
  refine ⟨by simp [scanInstr, h], ?_, ?_⟩
  · exact ite_update_of_ne h _ _ _
  · exact ite_update_of_ne h _ _ _

theorem foldl_scanInstr_of_ne {b : BlockId} (h : b ≠ bb) (l : List InstrId) (t : Sets) :
    (l.foldl (scanInstr f bb) t).use b = t.use b ∧ (l.foldl (scanInstr f bb) t).defs b = t.defs b ∧
      (l.foldl (scanInstr f bb) t).phiUses b = t.phiUses b := by
  induction l generalizing t with
  | nil => exact ⟨rfl, rfl, rfl⟩
  | cons i l ih =>
    obtain ⟨h₁, h₂, h₃⟩ := scanInstr_of_ne (f := f) (t := t) (i := i) h
    rw [List.foldl_cons, (ih _).1, (ih _).2.1, (ih _).2.2]
    exact ⟨h₁, h₂, h₃⟩

theorem Scanned.congr {t' : Sets} (h : Scanned f bb l t) (huse : t'.use bb = t.use bb)
    (hdefs : t'.defs bb = t.defs bb) (hphi : t'.phiUses bb = t.phiUses bb) : Scanned f bb l t' where
  use v := by rw [huse, h.use]
  defs v hv := h.defs v (hdefs ▸ hv)
  defined v hv hvar := by
    rw [huse, hdefs]
    exact h.defined v hv hvar
  phiUses p v := by rw [hphi, h.phiUses]

/-- **What `calc_def_and_use` collects.** -/
theorem calcDefAndUse_scanned (hf : Input f) (hbb : bb ∈ f.blocks) :
    Scanned f bb (f.body bb) (calcDefAndUse f) := by
  have hstart : ∀ b, Scanned f b [] ⟨fun _ => ∅, fun _ => ∅, fun _ => ∅⟩ := fun b =>
    ⟨by simp [Exposed], by simp, by simp, by simp⟩
  have hgen : ∀ (bs : List BlockId) (t : Sets), bs.Nodup → (∀ b ∈ bs, b ∈ f.blocks) →
      (∀ b ∈ bs, Scanned f b [] t) → ∀ b, b ∈ bs ∨ Scanned f b (f.body b) t →
      Scanned f b (f.body b) (bs.foldl (fun t bb => (f.body bb).foldl (scanInstr f bb) t) t) := by
    intro bs
    induction bs with
    | nil => exact fun t _ _ _ b hb => hb.resolve_left List.not_mem_nil
    | cons c bs ih =>
      intro t hnd hblk hs b hb
      obtain ⟨hc, hnd⟩ := List.nodup_cons.mp hnd
      have hkept : ∀ {b : BlockId} {l : List InstrId}, b ≠ c → Scanned f b l t →
          Scanned f b l ((f.body c).foldl (ActiveVars.scanInstr f c) t) := fun hbc h =>
        h.congr (foldl_scanInstr_of_ne hbc _ _).1 (foldl_scanInstr_of_ne hbc _ _).2.1
          (foldl_scanInstr_of_ne hbc _ _).2.2
      rw [List.foldl_cons]
      refine ih _ hnd (fun d hd => hblk d (List.mem_cons_of_mem _ hd))
        (fun d hd => hkept (fun he => hc (he ▸ hd)) (hs d (List.mem_cons_of_mem _ hd))) b ?_
      by_cases hbc : b = c
      · subst hbc
        refine Or.inr ?_
        have := (hs b List.mem_cons_self).foldl hf (f.body b) [] t (by simp) fun j hj =>
          Func.mem_instrs (hblk b List.mem_cons_self) hj
        simpa using this
      · refine hb.imp (fun hb => (List.mem_cons.mp hb).resolve_left hbc) (hkept hbc)
  exact hgen f.blocks _ hf.blocks_nodup (fun _ hb => hb) (fun b _ => hstart b) bb (Or.inl hbb)

/-- The filter, on the edge from `bb` to `suc`. -/
theorem through_iff (hf : Input f) (hsuc : suc ∈ f.blocks) :
    through (calcDefAndUse f) bb suc v = true ↔ Passes f v bb suc := by
  have hs := calcDefAndUse_scanned hf hsuc
  have hmem : ∀ p, (p, v) ∈ (calcDefAndUse f).phiUses suc ↔ PhiOperand f v p suc :=
    fun p => hs.phiUses p v
  have hany : (∃ q ∈ (calcDefAndUse f).phiUses suc, q.2 = v) ↔ ∃ p, PhiOperand f v p suc := by
    constructor
    · rintro ⟨q, hq, rfl⟩
      exact ⟨q.1, (hmem q.1).mp hq⟩
    · rintro ⟨p, hp⟩
      exact ⟨(p, v), (hmem p).mpr hp, rfl⟩
  unfold through Passes
  simp only [Bool.or_eq_true, Bool.not_eq_true', Bool.and_eq_true, decide_eq_true_eq,
    decide_eq_false_iff_not, hany, hmem, ← not_exists]
  tauto

/-- A phi operand that is exposed is one of a pair. -/
theorem Exposed.phiOperand (hf : Input f) (hsuc : suc ∈ f.blocks) (hv : isVariable f v = true)
    (h : Exposed f (f.body suc) v i) (hop : (f.instr i).op = .phi) : ∃ p, PhiOperand f v p suc := by
  obtain ⟨hi, hread⟩ := h.mem
  unfold reads at hread
  rw [if_neg (by rw [hop]; decide), hf.pairs i (Func.mem_instrs hsuc hi) hop] at hread
  obtain ⟨q, hq, hvq⟩ := List.mem_flatMap.mp hread
  rcases List.mem_cons.mp hvq with rfl | hvq
  · exact ⟨q.2, i, hi, hop, hq⟩
  · rw [List.mem_singleton.mp hvq] at hv
    simp [isVariable, Value.asBlock] at hv

/-! ## The least solution -/

/-- The least solution of the equations. -/
structure IsLeast (g : Cfg) (t : Sets) (s : Live) : Prop where
  fixpoint : IsFixpoint g t s
  least : ∀ s', IsFixpoint g t s' → ∀ bb ∈ g.blocks, s.liveOut bb ⊆ s'.liveOut bb

/-- What flows into `bb` from `suc`, given what is live out of `suc`. -/
theorem mem_liveIn_iff (hf : Input f) (hsuc : suc ∈ f.blocks) {out : Finset Value} :
    v ∈ inOf (calcDefAndUse f) out suc ∧ Passes f v bb suc ↔
      (isVariable f v = true ∧ EarlyPhiOperand f v bb suc) ∨
        Passes f v bb suc ∧ ((isVariable f v = true ∧
          ∃ i, Exposed f (f.body suc) v i ∧ (f.instr i).op ≠ .phi) ∨
            v ∈ out ∧ v ∉ (calcDefAndUse f).defs suc) := by
  have hs := calcDefAndUse_scanned hf hsuc
  rw [mem_inOf, hs.use]
  constructor
  · rintro ⟨hout | ⟨hv, i, hi⟩, hp⟩
    · exact Or.inr ⟨hp, Or.inr hout⟩
    · by_cases hop : (f.instr i).op = .phi
      · -- an exposed phi operand passes on the edge from its own block only
        refine Or.inl ⟨hv, ?_, i, hi, hop⟩
        obtain ⟨p, hpo⟩ := hi.phiOperand hf hsuc hv hop
        exact hp.resolve_right fun hno => hno p hpo
      · exact Or.inr ⟨hp, Or.inl ⟨hv, i, hi, hop⟩⟩
  · rintro (⟨hv, hpo, i, hi, -⟩ | ⟨hp, ⟨hv, i, hi, -⟩ | hout⟩)
    · exact ⟨Or.inr ⟨hv, i, hi⟩, Or.inl hpo⟩
    · exact ⟨Or.inr ⟨hv, i, hi⟩, hp⟩
    · exact ⟨Or.inl hout, hp⟩

/-- Every solution has what `PassLive` says. -/
theorem IsFixpoint.passLive (hf : Input f) (hs : IsFixpoint f.toCfg (calcDefAndUse f) s)
    (hv : isVariable f v = true) (hbb : bb ∈ f.blocks) (h : PassLive f v bb) : v ∈ s.liveOut bb := by
  induction h with
  | @phi bb suc hsuc h =>
    have hblk := hf.closed _ hbb _ hsuc
    have := (@mem_liveIn_iff _ _ _ _ hf hblk (s.liveOut suc)).mpr (Or.inl ⟨hv, h⟩)
    rw [← hs.into _ hblk, ← through_iff hf hblk] at this
    exact (hs.out _ hbb v).mpr ⟨suc, hsuc, this⟩
  | @use bb suc i hsuc hc hi hphi =>
    have hblk := hf.closed _ hbb _ hsuc
    have := (@mem_liveIn_iff _ _ _ _ hf hblk (s.liveOut suc)).mpr
      (Or.inr ⟨hc, Or.inl ⟨hv, i, hi, hphi⟩⟩)
    rw [← hs.into _ hblk, ← through_iff hf hblk] at this
    exact (hs.out _ hbb v).mpr ⟨suc, hsuc, this⟩
  | @step bb suc hsuc hc hdef _ ih =>
    have hblk := hf.closed _ hbb _ hsuc
    have := (@mem_liveIn_iff _ _ _ _ hf hblk (s.liveOut suc)).mpr
      (Or.inr ⟨hc, Or.inr ⟨ih hblk, fun hd => hdef ((calcDefAndUse_scanned hf hblk).defs v hd)⟩⟩)
    rw [← hs.into _ hblk, ← through_iff hf hblk] at this
    exact (hs.out _ hbb v).mpr ⟨suc, hsuc, this⟩

open Classical in
/-- The solution `PassLive` describes. -/
noncomputable def passSolution (f : Func) : Live :=
  let out bb := (f.blocks.toFinset.biUnion (calcDefAndUse f).use).filter fun v => PassLive f v bb
  ⟨fun bb => inOf (calcDefAndUse f) (out bb) bb, out⟩

theorem mem_passSolution : v ∈ (passSolution f).liveOut bb ↔
    (∃ b ∈ f.blocks, v ∈ (calcDefAndUse f).use b) ∧ PassLive f v bb := by
  simp [passSolution]

/-- It is one. -/
theorem passSolution_fixpoint (hf : Input f) :
    IsFixpoint f.toCfg (calcDefAndUse f) (passSolution f) where
  into _ _ := rfl
  out bb hbb v := by
    have hedge : ∀ suc ∈ f.succ bb, (v ∈ (passSolution f).liveIn suc ∧
        through (calcDefAndUse f) bb suc v = true ↔
          (isVariable f v = true ∧ EarlyPhiOperand f v bb suc) ∨
            Passes f v bb suc ∧ ((isVariable f v = true ∧
              ∃ i, Exposed f (f.body suc) v i ∧ (f.instr i).op ≠ .phi) ∨
                v ∈ (passSolution f).liveOut suc ∧ v ∉ (calcDefAndUse f).defs suc)) := by
      intro suc hsuc
      have hblk := hf.closed bb hbb suc hsuc
      rw [through_iff hf hblk]
      exact mem_liveIn_iff hf hblk
    constructor
    · intro hv
      obtain ⟨⟨b, hb, hused⟩, h⟩ := mem_passSolution.mp hv
      have hvar := ((calcDefAndUse_scanned hf hb).use v).mp hused
      cases h with
      | phi hsuc h => exact ⟨_, hsuc, (hedge _ hsuc).mpr (Or.inl ⟨hvar.1, h⟩)⟩
      | use hsuc hc hi hphi =>
        exact ⟨_, hsuc, (hedge _ hsuc).mpr (Or.inr ⟨hc, Or.inl ⟨hvar.1, _, hi, hphi⟩⟩)⟩
      | step hsuc hc hdef h =>
        have hblk := hf.closed bb hbb _ hsuc
        exact ⟨_, hsuc, (hedge _ hsuc).mpr (Or.inr ⟨hc, Or.inr
          ⟨mem_passSolution.mpr ⟨⟨b, hb, hused⟩, h⟩,
            fun hd => hdef ((calcDefAndUse_scanned hf hblk).defs v hd)⟩⟩)⟩
    · rintro ⟨suc, hsuc, hin⟩
      have hblk := hf.closed bb hbb suc hsuc
      have hs := calcDefAndUse_scanned hf hblk
      -- an exposed read in `suc` is a use, and ends a path that passes
      have hexposed : ∀ i, isVariable f v = true → Passes f v bb suc → Exposed f (f.body suc) v i →
          v ∈ (passSolution f).liveOut bb := by
        intro i hvar hp hi
        refine mem_passSolution.mpr ⟨⟨suc, hblk, (hs.use v).mpr ⟨hvar, i, hi⟩⟩, ?_⟩
        by_cases hop : (f.instr i).op = .phi
        · obtain ⟨p, hpo⟩ := hi.phiOperand hf hblk hvar hop
          exact .phi hsuc ⟨hp.resolve_right fun hno => hno p hpo, i, hi, hop⟩
        · exact .use hsuc hp hi hop
      rcases (hedge suc hsuc).mp hin with ⟨hvar, hpo, i, hi, -⟩ | ⟨hp, ⟨hvar, i, hi, -⟩ | ⟨hv, hd⟩⟩
      · exact hexposed i hvar (Or.inl hpo) hi
      · exact hexposed i hvar hp hi
      · obtain ⟨⟨b, hb, hused⟩, h⟩ := mem_passSolution.mp hv
        have hvar := (((calcDefAndUse_scanned hf hb).use v).mp hused).1
        by_cases hdef : v ∈ (f.body suc).map Value.instr
        · obtain ⟨-, i, hi⟩ := (hs.use v).mp ((hs.defined v hdef hvar).resolve_left hd)
          exact hexposed i hvar hp hi
        · exact mem_passSolution.mpr ⟨⟨b, hb, hused⟩, .step hsuc hp hdef h⟩

/-- **The least solution** is liveness along the paths that pass. -/
theorem IsLeast.mem_liveOut (hf : Input f) (hs : IsLeast f.toCfg (calcDefAndUse f) s)
    (hbb : bb ∈ f.blocks) (hv : isVariable f v = true) : v ∈ s.liveOut bb ↔ PassLive f v bb :=
  ⟨fun h => (mem_passSolution.mp (hs.least _ (passSolution_fixpoint hf) bb hbb h)).2,
    hs.fixpoint.passLive hf hv hbb⟩

theorem exists_isLeast (hf : Input f) : ∃ s, IsLeast f.toCfg (calcDefAndUse f) s := by
  refine ⟨passSolution f, passSolution_fixpoint hf, fun s' hs' bb hbb v hv => ?_⟩
  obtain ⟨⟨b, hb, hused⟩, h⟩ := mem_passSolution.mp hv
  exact hs'.passLive hf (((calcDefAndUse_scanned hf hb).use v).mp hused).1 hbb h

/-- An edge on which the equations lose `v`: a phi of `suc` reads `v` there behind the definition of
`v`, or the edge does not pass and `v` is used in `suc` or live beyond it. -/
def Drops (f : Func) (v : Value) (bb suc : BlockId) : Prop :=
  (PhiOperand f v bb suc ∧ ¬ EarlyPhiOperand f v bb suc) ∨
    ¬ Passes f v bb suc ∧ ((∃ i, Exposed f (f.body suc) v i ∧ (f.instr i).op ≠ .phi) ∨
      v ∉ (f.body suc).map Value.instr ∧ PathLive f v suc)

theorem Drops.pathLive (hs : suc ∈ f.succ bb) (h : Drops f v bb suc) : PathLive f v bb := by
  rcases h with ⟨h, -⟩ | ⟨-, ⟨i, hi, hphi⟩ | ⟨hdef, h⟩⟩
  · exact .phi hs h
  · exact .use hs trivial hi hphi
  · exact .step hs trivial hdef h

/-- Where another path makes up for every dropped edge, paths that pass are enough. -/
theorem PathLive.passLive (hf : Input f) (hdrops : ∀ bb ∈ f.blocks, ∀ suc ∈ f.succ bb,
    Drops f v bb suc → PassLive f v bb) (hbb : bb ∈ f.blocks) (h : PathLive f v bb) :
    PassLive f v bb := by
  induction h with
  | @phi bb suc hs h =>
    by_cases he : EarlyPhiOperand f v bb suc
    · exact .phi hs he
    · exact hdrops bb hbb suc hs (Or.inl ⟨h, he⟩)
  | @use bb suc i hs _ hi hphi =>
    by_cases hp : Passes f v bb suc
    · exact .use hs hp hi hphi
    · exact hdrops bb hbb suc hs (Or.inr ⟨hp, Or.inl ⟨i, hi, hphi⟩⟩)
  | @step bb suc hs _ hdef h ih =>
    by_cases hp : Passes f v bb suc
    · exact .step hs hp hdef (ih (hf.closed bb hbb suc hs))
    · exact hdrops bb hbb suc hs (Or.inr ⟨hp, Or.inr ⟨hdef, h⟩⟩)

/-- **When the least solution is liveness**: when for every edge on which it loses a variable, the
variable is live at the end of the same block along a path that passes. -/
theorem least_liveness_iff (hf : Input f) : ∃ s, IsLeast f.toCfg (calcDefAndUse f) s ∧
    ((∀ bb ∈ f.blocks, ∀ v, isVariable f v = true → (v ∈ s.liveOut bb ↔ PathLive f v bb)) ↔
      ∀ bb ∈ f.blocks, ∀ suc ∈ f.succ bb, ∀ v, isVariable f v = true →
        Drops f v bb suc → PassLive f v bb) := by
  obtain ⟨s, hs⟩ := exists_isLeast hf
  refine ⟨s, hs, fun h bb hbb suc hsuc v hv hd => ?_, fun h bb hbb v hv => ?_⟩
  · rw [← hs.mem_liveOut hf hbb hv, h bb hbb v hv]
    exact hd.pathLive hsuc
  · rw [hs.mem_liveOut hf hbb hv]
    exact ⟨PassLive.pathLive, fun hp => hp.passLive hf (fun b hb c hc => h b hb c hc v hv) hbb⟩

/-! ## A value that is merged and read

`int f(int x, int c) { int y; if (c) y = x; else y = 0; return x + y; }` after `Mem2Reg`: the phi of
`y` reads `x` for the true branch `1`, and the join block `3` reads `x` as well. -/

/-- The blocks of `f`. -/
def mergedCfg : Cfg where
  entry := 0
  rest := [1, 2, 3]
  pre bb := match bb with
    | 1 | 2 => [0]
    | 3 => [1, 2]
    | _ => []
  succ bb := match bb with
    | 0 => [2, 1]
    | 1 | 2 => [3]
    | _ => []

/-- The function `f`, with the names of `set_instr_name`. -/
def merged : Func where
  toCfg := mergedCfg
  name := "f"
  retTy := .int32
  args := [.int32, .int32]
  body bb := match bb with
    | 0 => [0, 1]
    | 1 => [2]
    | 2 => [3]
    | 3 => [4, 5, 6]
    | _ => []
  instr i := match i with
    | 0 => { op := .cmp, ty := .int1, operands := [.arg 1, .int32 0], parent := 0, cmpOp := .NE }
    | 1 => { op := .br, ty := .void, operands := [.instr 0, .block 1, .block 2], parent := 0 }
    | 2 => { op := .br, ty := .void, operands := [.block 3], parent := 1 }
    | 3 => { op := .br, ty := .void, operands := [.block 3], parent := 2 }
    | 4 =>
      { op := .phi, ty := .int32, parent := 3
        operands := [.arg 0, .block 1, .int32 0, .block 2] }
    | 5 => { op := .add, ty := .int32, operands := [.arg 0, .instr 4], parent := 3 }
    | _ => { op := .ret, ty := .void, operands := [.instr 5], parent := 3 }
  names v := match v with
    | .arg 0 => "arg0"
    | .arg 1 => "arg1"
    | .instr 0 => "op3"
    | .instr 4 => "op7"
    | .instr 5 => "op8"
    | .block 0 => "label2"
    | .block 1 => "label4"
    | .block 2 => "label5"
    | .block 3 => "label6"
    | _ => ""
  next := 7

theorem merged_input : Input merged where
  closed := by decide
  blocks_nodup := by decide
  pairs := by decide
  typed := by decide
  callee := by decide

/-- The theorem at `f`. -/
theorem least_liveness_merged :
    ∃ s, IsLeast merged.toCfg (calcDefAndUse merged) s ∧
      ((∀ bb ∈ merged.blocks, ∀ v, isVariable merged v = true →
          (v ∈ s.liveOut bb ↔ PathLive merged v bb)) ↔
        ∀ bb ∈ merged.blocks, ∀ suc ∈ merged.succ bb, ∀ v, isVariable merged v = true →
          Drops merged v bb suc → PassLive merged v bb) :=
  least_liveness_iff merged_input

/-- **`x` is live at the end of the false branch**, and the least solution does not have it there. -/
theorem merged_not_live :
    ∃ s, IsLeast merged.toCfg (calcDefAndUse merged) s ∧ PathLive merged (.arg 0) 2 ∧
      Value.arg 0 ∉ s.liveOut 2 := by
  obtain ⟨s, hs⟩ := exists_isLeast merged_input
  have hphi : PhiOperand merged (.arg 0) 1 3 := ⟨4, by decide, rfl, by decide⟩
  have hno : ¬ PhiOperand merged (.arg 0) 2 3 := by
    rintro ⟨i, hi, hop, hpair⟩
    simp only [merged, List.mem_cons, List.not_mem_nil, or_false] at hi
    rcases hi with rfl | rfl | rfl
    · revert hpair
      decide
    · cases hop
    · cases hop
  have hpass : ¬ Passes merged (.arg 0) 2 3 := fun h => h.elim hno fun h => h 1 hphi
  have hread : Exposed merged (merged.body 3) (.arg 0) 5 := ⟨[4], [6], rfl, by decide, by decide⟩
  have hblk : (2 : BlockId) ∈ merged.blocks := by decide
  refine ⟨s, hs, .use (by decide) trivial hread (by decide), fun hmem => ?_⟩
  have h := (hs.mem_liveOut merged_input hblk (by decide)).mp hmem
  have hsuc : ∀ {suc : BlockId}, suc ∈ merged.succ 2 → suc = 3 := fun hs => List.mem_singleton.mp hs
  cases h with
  | phi hs h => exact hno (hsuc hs ▸ h.1)
  | use hs hc => exact hpass (hsuc hs ▸ hc)
  | step hs hc => exact hpass (hsuc hs ▸ hc)

end Cminusfc.Optimization.ActiveVars
