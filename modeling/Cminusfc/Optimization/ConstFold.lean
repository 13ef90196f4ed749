import Cminusfc.Lib.Fallible
import Cminusfc.LightIR.Edit
import Cminusfc.LightIR.Ssa
import Cminusfc.Optimization.ConstPropagation

/-!
# Folding integer constants

What `ConstPropagation::run` does to a function over `i32` and `i1` without loads and stores
(`Input`), in a module whose other functions are arbitrary.

`Folding f cst g`: on the way from `f` to `g` the instructions `i` with `cst i = some v` have been
found to fold to the constant `v`, and `v` stands wherever `i` was an operand. One lemma for each
thing the pass does: `Folding.replace` for a folded instruction, whatever its block and whatever has
been visited before, `Folding.deleteInstr` and `Folding.removeUseOfOps` for an entry of
`delete_list`, however often it comes up.

* `run_folded`: at the end exactly the folded instructions are gone, and none of them is an operand.
* `run_ok`: in a module of such functions the pass returns.

About `src/optimization/ConstPropagation.cpp` 7-30, 67-96 and 147-234.
-/

namespace Cminusfc.Optimization.ConstPropagation

open Cminusfc.LightIR

/-! ## The functions -/

/-- The opcodes of a function over `i32` and `i1`. -/
def isListed : OpID → Bool
  | .add | .sub | .mul | .cmp | .zext | .phi | .call | .br | .ret => true
  | _ => false

/-- Arithmetic is on `i32`; a comparison has two operands of one integer type. -/
def WellTyped (f : Func) (x : Instr) : Prop :=
  ((x.op = .add ∨ x.op = .sub ∨ x.op = .mul) →
    x.ty = .int32 ∧ x.operands.map f.typeOf = [some .int32, some .int32]) ∧
  (x.op = .cmp → x.ty = .int1 ∧ (x.operands.map f.typeOf = [some .int32, some .int32] ∨
    x.operands.map f.typeOf = [some .int1, some .int1]))

/-- A function over `i32` and `i1` in SSA form whose use lists record every operand slot. -/
structure Input (f : Func) : Prop where
  ops : ∀ i ∈ f.instrs, isListed (f.instr i).op = true
  typed : ∀ i ∈ f.instrs, WellTyped f (f.instr i)
  nodup : f.instrs.Nodup
  closed : ∀ a ∈ f.blocks, ∀ b ∈ f.succ a, b ∈ f.blocks
  terminated : f.WellTerminated
  targets : ∀ b ∈ f.blocks, ∀ c, c ∈ f.succ b ↔ c ∈ (f.instr (f.termOf b)).targets
  ssa : f.SsaForm
  recorded : ∀ u ∈ f.instrs, ∀ (no : Nat) (x : InstrId),
    (u, no) ∈ f.uses (.instr x) ↔ (f.instr u).operands[no]? = some (.instr x)

/-- An instruction with the operands `l` folds to a constant. -/
inductive FoldsTo (x : Instr) : List Value → Value → Prop
  | binary {a b : BitVec 32} {v : Value} (hop : x.op = .add ∨ x.op = .sub ∨ x.op = .mul)
      (h : computeI x.op a b = .ok v) : FoldsTo x [.int32 a, .int32 b] v
  | compare {a b : BitVec 32} (hop : x.op = .cmp) :
      FoldsTo x [.int32 a, .int32 b] (.int1 (compare x.cmpOp a b))
  | compare1 {a b : Bool} (hop : x.op = .cmp) :
      FoldsTo x [.int1 a, .int1 b] (.int1 (ConstPropagation.compare x.cmpOp (boolValue a) (boolValue b)))

variable {f g : Func} {cst : InstrId → Option Value} {x : Instr} {l : List Value} {v w a : Value}
  {i j u : InstrId}

theorem computeI_ok {op : OpID} (hop : op = .add ∨ op = .sub ∨ op = .mul) (a b : BitVec 32) :
    ∃ r, computeI op a b = .ok (.int32 r) := by
  rcases hop with rfl | rfl | rfl <;> exact ⟨_, rfl⟩

theorem FoldsTo.const (h : FoldsTo x l v) : (castConstantInt v).isSome = true := by
  cases h with
  | @binary a b _ hop hc =>
    obtain ⟨r, hr⟩ := computeI_ok hop a b
    rw [hr] at hc
    cases hc
    rfl
  | compare | compare1 => rfl

theorem FoldsTo.operand_const (h : FoldsTo x l v) (ha : a ∈ l) :
    (castConstantInt a).isSome = true := by
  cases h <;> simp only [List.mem_cons, List.not_mem_nil, or_false] at ha <;>
    rcases ha with rfl | rfl <;> rfl

theorem FoldsTo.typeOf (h : FoldsTo x l v) (hx : WellTyped f x) : f.typeOf v = some x.ty := by
  cases h with
  | @binary a b _ hop hc =>
    obtain ⟨r, hr⟩ := computeI_ok hop a b
    rw [hr] at hc
    cases hc
    rw [(hx.1 hop).1]
    rfl
  | compare hop | compare1 hop =>
    rw [(hx.2 hop).1]
    rfl

theorem FoldsTo.op (h : FoldsTo x l v) : x.op = .add ∨ x.op = .sub ∨ x.op = .mul ∨ x.op = .cmp := by
  cases h with
  | binary hop => tauto
  | compare hop | compare1 hop => tauto

theorem instr_ne_const (h : (castConstantInt v).isSome = true) : v ≠ .instr i := by
  rintro rfl
  cases h

/-! ## Substitution -/

/-- The operand that has taken the place of `a`. -/
def subst (cst : InstrId → Option Value) : Value → Value
  | .instr i => (cst i).getD (.instr i)
  | v => v

/-- One more instruction folds. -/
theorem subst_update (hi : cst i = none) (hcst : ∀ j w, cst j = some w → w ≠ .instr i) (a : Value) :
    subst (Function.update cst i (some v)) a =
      if subst cst a = .instr i then v else subst cst a := by
  cases a with
  | instr j =>
    by_cases hj : j = i
    · subst hj
      simp [subst, hi]
    · simp only [subst, Function.update_of_ne hj]
      rcases Option.eq_none_or_eq_some (cst j) with hc | ⟨w, hc⟩
      · simp [hc, hj]
      · simp [hc, hcst j w hc]
  | _ => simp [subst]

/-! ## The invariant -/

/-- The function while the pass runs. -/
structure Folding (f : Func) (cst : InstrId → Option Value) (g : Func) : Prop where
  cfg : g.toCfg = f.toCfg
  instr : ∀ u ∈ f.instrs,
    g.instr u = { f.instr u with operands := (f.instr u).operands.map (subst cst) }
  uses : ∀ x, cst x = none → ∀ u ∈ f.instrs, ∀ no : Nat,
    (u, no) ∈ g.uses (.instr x) ↔ (g.instr u).operands[no]? = some (.instr x)
  folded : ∀ i v, cst i = some v → i ∈ f.instrs ∧
    FoldsTo (f.instr i) ((f.instr i).operands.map (subst cst)) v

/-- The start. -/
theorem Input.folding (h : Input f) : Folding f (fun _ => none) f where
  cfg := rfl
  instr u _ := by
    have hid : subst (fun _ => none) = id := by
      funext a
      cases a <;> rfl
    simp [hid]
  uses x _ u hu no := h.recorded u hu no x
  folded _ _ h := by cases h

theorem Folding.typeOf_subst (h : Folding f cst g) (hin : Input f) (a : Value) :
    f.typeOf (subst cst a) = f.typeOf a := by
  cases a with
  | instr i =>
    cases hc : cst i with
    | none => simp [subst, hc]
    | some v =>
      obtain ⟨hi, hf⟩ := h.folded i v hc
      simpa [subst, hc, Func.typeOf] using hf.typeOf (hin.typed i hi)
  | _ => rfl

/-- `replace_all_use_with` the constant an instruction folds to. -/
theorem Folding.replace (h : Folding f cst g) (hi : i ∈ f.instrs) (hnone : cst i = none)
    (hv : FoldsTo (f.instr i) ((f.instr i).operands.map (subst cst)) v) :
    Folding f (Function.update cst i (some v)) (g.replaceAllUseWith (.instr i) v) := by
  have hcst : ∀ j w, cst j = some w → w ≠ .instr i := fun j w hj =>
    instr_ne_const (h.folded j w hj).2.const
  have hsub := subst_update (v := v) hnone hcst
  have hslots : ∀ u ∈ f.instrs, ∀ no : Nat,
      ((g.replaceAllUseWith (.instr i) v).instr u).operands[no]? =
        ((g.instr u).operands[no]?).map fun a => if a = .instr i then v else a := by
    intro u hu no
    rw [Func.replaceAllUseWith_instr, Func.replaceSlots, List.getElem?_mapIdx]
    cases hno : (g.instr u).operands[no]? with
    | none => rfl
    | some a =>
      have hmem := h.uses i hnone u hu no
      rw [hno, Option.some_inj] at hmem
      simp only [Option.map_some, hmem]
  refine ⟨(Func.replaceAllUseWith_toCfg g _ _).trans h.cfg, fun u hu => ?_, fun y hy u hu no => ?_,
    fun j w hj => ?_⟩
  · have hops : ((g.replaceAllUseWith (.instr i) v).instr u).operands =
        (f.instr u).operands.map (subst (Function.update cst i (some v))) := by
      apply List.ext_getElem?
      intro no
      rw [hslots u hu, h.instr u hu, List.getElem?_map, List.getElem?_map, Option.map_map]
      congr 1
      funext a
      exact (hsub a).symm
    rw [Func.replaceAllUseWith_instr] at hops ⊢
    rw [h.instr u hu] at hops ⊢
    exact congrArg (fun l => ({ f.instr u with operands := l } : Instr)) hops
  · have hyi : y ≠ i := by
      rintro rfl
      simp at hy
    rw [Function.update_of_ne hyi] at hy
    rw [Func.replaceAllUseWith_uses _ (fun he => instr_ne_const hv.const he.symm), h.uses y hy u hu no,
      hslots u hu]
    cases (g.instr u).operands[no]? with
    | none => simp
    | some a =>
      by_cases ha : a = .instr i
      · subst ha
        have hne : v ≠ .instr y := instr_ne_const hv.const
        simp [hne, Ne.symm hyi]
      · simp [ha]
  · have hstay : ∀ k w, FoldsTo (f.instr k) ((f.instr k).operands.map (subst cst)) w →
        (f.instr k).operands.map (subst (Function.update cst i (some v))) =
          (f.instr k).operands.map (subst cst) := by
      intro k w hk
      refine List.map_congr_left fun a ha => ?_
      rw [hsub, if_neg (instr_ne_const (hk.operand_const (List.mem_map_of_mem ha)))]
    by_cases hji : j = i
    · subst hji
      rw [Function.update_self, Option.some_inj] at hj
      subst hj
      exact ⟨hi, by rwa [hstay j v hv]⟩
    · rw [Function.update_of_ne hji] at hj
      obtain ⟨hjf, hf⟩ := h.folded j w hj
      exact ⟨hjf, by rwa [hstay j w hf]⟩

/-- A folded instruction has constant operands; dropping its uses leaves the others alone. -/
theorem Folding.drop (h : Folding f cst g) (hi : (cst i).isSome = true) {g' : Func}
    (hcfg : g'.toCfg = g.toCfg) (hinstr : g'.instr = g.instr)
    (huses : ∀ w x, x ∈ g'.uses w ↔ x ∈ g.uses w ∧ (w ∈ (g.instr i).operands → x.1 ≠ i)) :
    Folding f cst g' := by
  obtain ⟨v, hv⟩ := Option.isSome_iff_exists.mp hi
  obtain ⟨hif, hf⟩ := h.folded i v hv
  refine ⟨hcfg.trans h.cfg, fun u hu => by rw [hinstr, h.instr u hu], fun y hy u hu no => ?_, h.folded⟩
  rw [huses, hinstr, h.uses y hy u hu no]
  refine and_iff_left fun hmem => ?_
  rw [h.instr i hif] at hmem
  exact absurd rfl (instr_ne_const (hf.operand_const hmem))

theorem Folding.deleteInstr (h : Folding f cst g) (hi : (cst i).isSome = true) (bb : BlockId) :
    Folding f cst (g.deleteInstr bb i) :=
  h.drop hi (g.deleteInstr_toCfg bb i) (g.deleteInstr_instr bb i) fun w x =>
    Func.mem_deleteInstr_uses (f := g) bb i (w := w) (x := x)

theorem Folding.removeUseOfOps (h : Folding f cst g) (hi : (cst i).isSome = true) :
    Folding f cst (g.removeUseOfOps i) := by
  obtain ⟨h₁, -, h₃, -, h₅⟩ := Func.foldl_removeUse g i (g.instr i).operands
  exact h.drop hi h₁ h₃ h₅

/-! ## One instruction -/

section Visit

variable (host : Host)

theorem int32_of_typeOf {p : BitVec 32} (h : castConstantInt a = some p)
    (ht : f.typeOf a = some .int32) : a = .int32 p := by
  cases a <;> simp_all [castConstantInt, Func.typeOf]

theorem int1_of_typeOf {p : BitVec 32} (h : castConstantInt a = some p)
    (ht : f.typeOf a = some .int1) : ∃ b, a = .int1 b ∧ p = boolValue b := by
  cases a <;> simp_all [castConstantInt, Func.typeOf]

theorem map_eq_pair {α β : Type} {h : α → β} {l : List α} {y z : β} (he : l.map h = [y, z]) :
    ∃ a b, l = [a, b] ∧ h a = y ∧ h b = z := by
  match l, he with
  | [a, b], he => exact ⟨a, b, rfl, by simpa using he⟩

/-- What the arithmetic branches find: nothing, or the constant the instruction folds to. -/
theorem folded_cases (h : Folding f cst g) (hin : Input f) (hi : i ∈ f.instrs) :
    folded host (g.instr i) = .ok none ∨
      ∃ v, folded host (g.instr i) = .ok (some v) ∧
        FoldsTo (f.instr i) ((f.instr i).operands.map (subst cst)) v := by
  have hx := h.instr i hi
  have hops := hin.ops i hi
  obtain ⟨harith, hcmp⟩ := hin.typed i hi
  have hpair : ∀ {s t : Option Ty}, (f.instr i).operands.map f.typeOf = [s, t] →
      ∃ a b, (f.instr i).operands.map (subst cst) = [a, b] ∧ f.typeOf a = s ∧ f.typeOf b = t := by
    intro s t hst
    obtain ⟨a, b, hab, ha, hb⟩ := map_eq_pair hst
    exact ⟨subst cst a, subst cst b, by rw [hab]; rfl, (h.typeOf_subst hin a).trans ha,
      (h.typeOf_subst hin b).trans hb⟩
  have hbinary : ((f.instr i).op = .add ∨ (f.instr i).op = .sub ∨ (f.instr i).op = .mul) →
      folded host (g.instr i) = .ok none ∨ ∃ v, folded host (g.instr i) = .ok (some v) ∧
        FoldsTo (f.instr i) ((f.instr i).operands.map (subst cst)) v := by
    intro hop
    obtain ⟨a, b, hab, ha, hb⟩ := hpair (harith hop).2
    cases hca : castConstantInt a with
    | none =>
      left
      rw [hx, hab]
      rcases hop with hop | hop | hop <;> simp [folded, hop, operand, hca]
    | some p =>
      cases hcb : castConstantInt b with
      | none =>
        left
        rw [hx, hab]
        rcases hop with hop | hop | hop <;> simp [folded, hop, operand, hca, hcb]
      | some q =>
        obtain ⟨r, hr⟩ := computeI_ok hop p q
        have hfold : folded host (g.instr i) = (computeI (f.instr i).op p q).map some := by
          rw [hx, hab]
          rcases hop with hop | hop | hop <;> simp [folded, hop, operand, hca, hcb]
        refine Or.inr ⟨.int32 r, by rw [hfold, hr]; rfl, ?_⟩
        rw [hab, int32_of_typeOf hca ha, int32_of_typeOf hcb hb]
        exact .binary hop hr
  cases hop : (f.instr i).op with
  | add | sub | mul => exact hbinary (by simp [hop])
  | cmp =>
    obtain ⟨a, b, hab, ha, hb⟩ | ⟨a, b, hab, ha, hb⟩ := (hcmp hop).2.imp hpair hpair
    all_goals
      cases hca : castConstantInt a with
      | none =>
        left
        rw [hx, hab]
        simp [folded, hop, operand, hca]
      | some p =>
        cases hcb : castConstantInt b with
        | none =>
          left
          rw [hx, hab]
          simp [folded, hop, operand, hca, hcb]
        | some q =>
          have hfold : folded host (g.instr i) =
              .ok (some (.int1 (compare (f.instr i).cmpOp p q))) := by
            rw [hx, hab]
            simp [folded, hop, operand, hca, hcb]
          refine Or.inr ⟨_, hfold, ?_⟩
          rw [hab]
          first
          | rw [int32_of_typeOf hca ha, int32_of_typeOf hcb hb]
            exact .compare hop
          | obtain ⟨p', rfl, rfl⟩ := int1_of_typeOf hca ha
            obtain ⟨q', rfl, rfl⟩ := int1_of_typeOf hcb hb
            exact .compare1 hop
  | zext | phi | call | br | ret =>
    left
    rw [hx]
    simp [folded, hop]
  | _ => simp [isListed, hop] at hops

/-- **One instruction** is left alone, or replaced by the constant it folds to. -/
theorem visitInstr_cases {t : St} (h : Folding f cst t.f) (hin : Input f) (hi : i ∈ f.instrs) :
    visitInstr host t i = .ok t ∨ ∃ v, visitInstr host t i = .ok (t.replace i v) ∧
      FoldsTo (f.instr i) ((f.instr i).operands.map (subst cst)) v := by
  have hop : (t.f.instr i).op = (f.instr i).op := by rw [h.instr i hi]
  have hops := hin.ops i hi
  rcases folded_cases host h hin hi with hf | ⟨v, hf, hv⟩
  · left
    unfold visitInstr
    cases hk : (f.instr i).op <;> simp_all [isListed]
  · refine Or.inr ⟨v, ?_, hv⟩
    unfold visitInstr
    cases hk : (f.instr i).op <;> simp_all [isListed]

/-- **The instructions of a block.** -/
theorem visitInstrs (hin : Input f) : ∀ (is : List InstrId) (cst : InstrId → Option Value) (t : St),
    Folding f cst t.f → (∀ i ∈ is, i ∈ f.instrs ∧ cst i = none) → is.Nodup →
    ∃ t' cst' new, is.foldlM (visitInstr host) t = .ok t' ∧ Folding f cst' t'.f ∧
      t'.f.body = t.f.body ∧ t'.deleteList = t.deleteList ++ new ∧ (∀ i ∈ new, i ∈ is) ∧
      ∀ i, (cst' i).isSome = true ↔ (cst i).isSome = true ∨ i ∈ new := by
  intro is
  induction is with
  | nil => exact fun cst t h _ _ => ⟨t, cst, [], rfl, h, rfl, by simp, by simp, by simp⟩
  | cons i is ih =>
    intro cst t h his hnd
    obtain ⟨hi, hnone⟩ := his i List.mem_cons_self
    obtain ⟨hnot, hnd⟩ := List.nodup_cons.mp hnd
    have hrest := fun j hj => his j (List.mem_cons_of_mem _ hj)
    rw [List.foldlM_cons]
    rcases visitInstr_cases host h hin hi with hv | ⟨v, hv, hf⟩
    · obtain ⟨t', cst', new, hrun, h', hbody, hdel, hnew, hsome⟩ := ih cst t h hrest hnd
      rw [hv]
      exact ⟨t', cst', new, hrun, h', hbody, hdel, fun j hj => List.mem_cons_of_mem _ (hnew j hj),
        hsome⟩
    · obtain ⟨t', cst', new, hrun, h', hbody, hdel, hnew, hsome⟩ :=
        ih (Function.update cst i (some v)) (t.replace i v) (h.replace hi hnone hf) (fun j hj => by
          have hji : j ≠ i := fun he => hnot (he ▸ hj)
          rw [Function.update_of_ne hji]
          exact hrest j hj) hnd
      rw [hv]
      refine ⟨t', cst', i :: new, hrun, h', ?_, ?_, fun j hj => ?_, fun j => ?_⟩
      · rw [hbody]
        exact Func.replaceAllUseWith_body _ _ _
      · rw [hdel, St.replace, List.append_assoc, List.singleton_append]
      · rcases List.mem_cons.mp hj with rfl | hj
        · exact List.mem_cons_self
        · exact List.mem_cons_of_mem _ (hnew j hj)
      · rw [hsome, List.mem_cons]
        by_cases hji : j = i
        · subst hji
          simp
        · simp [hji]

end Visit

/-! ## `delete_list` -/

/-- What the entries of `delete_list` do to one function. -/
theorem foldl_deleteIn (k : Nat) (bb : BlockId) (n : Nat) : ∀ (l : List (Nat × InstrId))
    (fs : List Func), (l.foldl (deleteIn k bb) fs)[n]? =
      (fs[n]?).map fun g => ((l.filter fun d => d.1 = n).map Prod.snd).foldl
        (fun g i => if n = k then g.deleteInstr bb i else g.removeUseOfOps i) g := by
  intro l
  induction l with
  | nil => simp
  | cons d l ih =>
    intro fs
    rw [List.foldl_cons, ih, deleteIn, List.getElem?_modify]
    by_cases hd : d.1 = n
    · subst hd
      simp [Function.comp_def]
    · simp [hd]

theorem Folding.foldl_removeUseOfOps : ∀ (l : List InstrId) (g : Func), Folding f cst g →
    (∀ i ∈ l, (cst i).isSome = true) →
    Folding f cst (l.foldl (fun g i => g.removeUseOfOps i) g) ∧
      (l.foldl (fun g i => g.removeUseOfOps i) g).body = g.body := by
  intro l
  induction l with
  | nil => exact fun g h _ => ⟨h, rfl⟩
  | cons i l ih =>
    intro g h hl
    obtain ⟨h', hbody⟩ := ih _ (h.removeUseOfOps (hl i List.mem_cons_self))
      fun j hj => hl j (List.mem_cons_of_mem _ hj)
    exact ⟨h', hbody.trans (Func.foldl_removeUse g i _).2.1⟩

theorem Folding.foldl_deleteInstr (bb : BlockId) : ∀ (l : List InstrId) (g : Func), Folding f cst g →
    (∀ i ∈ l, (cst i).isSome = true) →
    Folding f cst (l.foldl (fun g i => g.deleteInstr bb i) g) ∧
      (l.foldl (fun g i => g.deleteInstr bb i) g).body =
        Function.update g.body bb ((g.body bb).filter fun i => decide (i ∉ l)) := by
  intro l
  induction l with
  | nil => exact fun g h _ => ⟨h, by simp⟩
  | cons i l ih =>
    intro g h hl
    obtain ⟨h', hbody⟩ := ih _ (h.deleteInstr (hl i List.mem_cons_self) bb)
      fun j hj => hl j (List.mem_cons_of_mem _ hj)
    refine ⟨h', hbody.trans ?_⟩
    rw [Func.deleteInstr_body, Function.update_self, Function.update_idem, List.filter_filter]
    congr 1
    refine List.filter_congr fun j _ => ?_
    simp [Bool.and_comm]

/-! ## One function of the module -/

/-- The function number `n` after the blocks `done`, the whole run being at `s`. -/
structure Tracks (f : Func) (n : Nat) (done : List BlockId) (cst : InstrId → Option Value)
    (s : RunSt) (g : Func) : Prop where
  found : s.functions[n]? = some g
  folding : Folding f cst g
  body : ∀ b ∈ f.blocks,
    g.body b = if b ∈ done then (f.body b).filter fun i => (cst i).isNone else f.body b
  listed : ∀ i, (n, i) ∈ s.deleteList ↔ (cst i).isSome = true
  place : ∀ i, (cst i).isSome = true → ∃ b ∈ done, i ∈ f.body b

variable {n k : Nat} {done : List BlockId} {s s' : RunSt} {bb : BlockId} {host : Host}

theorem mem_own {n : Nat} {l : List (Nat × InstrId)} :
    i ∈ (l.filter fun d => d.1 = n).map Prod.snd ↔ (n, i) ∈ l := by
  simp [List.mem_map, List.mem_filter]

/-- A block of another function. -/
theorem Tracks.visitBlock_other (h : Tracks f n done cst s g) (hk : n ≠ k)
    (hrun : visitBlock host k s bb = .ok s') : ∃ g', Tracks f n done cst s' g' := by
  unfold visitBlock at hrun
  split at hrun
  · cases hrun
  · split at hrun
    · cases hrun
    · rename_i t _
      cases hrun
      have hlist : ∀ i, (n, i) ∈ s.deleteList ++ t.deleteList.map (fun i => (k, i)) ↔
          (n, i) ∈ s.deleteList := by
        simp [Ne.symm hk]
      obtain ⟨h', hbody⟩ := h.folding.foldl_removeUseOfOps
        (((s.deleteList ++ t.deleteList.map fun i => (k, i)).filter fun d => d.1 = n).map Prod.snd)
        g fun i hi => (h.listed i).mp ((hlist i).mp (mem_own.mp hi))
      refine ⟨_, ?_, h', fun b hb => by rw [hbody, h.body b hb], fun i => ?_, h.place⟩
      · show (List.foldl _ _ _)[n]? = _
        rw [foldl_deleteIn, List.getElem?_set_ne hk.symm, h.found]
        simp only [hk, if_false, Option.map_some]
      · exact (hlist i).trans (h.listed i)

/-- **A block of the function itself.** -/
theorem Tracks.visitBlock (host : Host) (h : Tracks f n done cst s g) (hin : Input f) (hbb : bb ∈ f.blocks)
    (hnew : bb ∉ done) (hdone : ∀ b ∈ done, b ∈ f.blocks) :
    ∃ s' cst' g', visitBlock host n s bb = .ok s' ∧ Tracks f n (done ++ [bb]) cst' s' g' := by
  have hgb : g.body bb = f.body bb := by rw [h.body bb hbb, if_neg hnew]
  have hfresh : ∀ i ∈ f.body bb, cst i = none := by
    intro i hi
    by_contra hc
    obtain ⟨b, hb, hib⟩ := h.place i (Option.isSome_iff_ne_none.mpr hc)
    exact hnew (Func.block_unique hin.nodup hbb (hdone b hb) hi hib ▸ hb)
  obtain ⟨t, cst', new, hrun, ht, hbody, hdel, hsub, hsome⟩ := visitInstrs host hin (f.body bb) cst
    ⟨g, s.map, []⟩ h.folding (fun i hi => ⟨Func.mem_instrs hbb hi, hfresh i hi⟩)
    ((List.nodup_flatMap.mp hin.nodup).1 bb hbb)
  rw [List.nil_append] at hdel
  have hvisit : visitBody host g s.map bb = .ok t := by rw [visitBody, hgb, hrun]
  have hlist : ∀ i, (n, i) ∈ s.deleteList ++ t.deleteList.map (fun i => (n, i)) ↔
      (cst' i).isSome = true := by
    intro i
    rw [hsome, ← h.listed, hdel]
    simp
  obtain ⟨h', hbody'⟩ := ht.foldl_deleteInstr bb
    (((s.deleteList ++ t.deleteList.map fun i => (n, i)).filter fun d => d.1 = n).map Prod.snd)
    t.f fun i hi => (hlist i).mp (mem_own.mp hi)
  have hstay : ∀ b ∈ f.blocks, b ≠ bb → ∀ i ∈ f.body b, (cst' i).isNone = (cst i).isNone := by
    intro b hb hne i hi
    have hni : i ∉ new := fun hmem => hne (Func.block_unique hin.nodup hb hbb hi (hsub i hmem))
    have := hsome i
    simp only [hni, or_false] at this
    rw [← Option.not_isSome, ← Option.not_isSome, Bool.eq_iff_iff.mpr this]
  refine ⟨⟨(s.deleteList ++ t.deleteList.map fun i => (n, i)).foldl (deleteIn n bb)
      (s.functions.set n t.f), fun _ => none, s.deleteList ++ t.deleteList.map fun i => (n, i)⟩, cst',
    _, ?_, ?_, h', fun b hb => ?_, hlist, fun i hi => ?_⟩
  · simp only [ConstPropagation.visitBlock, h.found, hvisit]
  · show (List.foldl _ _ _)[n]? = _
    rw [foldl_deleteIn, List.getElem?_set_self (List.getElem?_eq_some_iff.mp h.found).1]
    simp only [if_true, Option.map_some]
  · rw [hbody', hbody]
    by_cases hbe : b = bb
    · subst hbe
      rw [Function.update_self, if_pos (by simp), hgb]
      refine List.filter_congr fun i _ => ?_
      rw [Bool.eq_iff_iff, decide_eq_true_eq, Option.isNone_iff_eq_none, mem_own.trans (hlist i)]
      simp
    · rw [Function.update_of_ne hbe, h.body b hb]
      simp only [List.mem_append, List.mem_singleton, hbe, or_false]
      split
      · exact List.filter_congr fun i hi => (hstay b hb hbe i hi).symm
      · rfl
  · rcases (hsome i).mp hi with hi | hi
    · obtain ⟨b, hb, hib⟩ := h.place i hi
      exact ⟨b, List.mem_append_left _ hb, hib⟩
    · exact ⟨bb, by simp, hsub i hi⟩

/-! ## The run -/

theorem Input.blocks_nodup (h : Input f) : f.blocks.Nodup := by
  refine List.Pairwise.imp_of_mem (fun {a b} ha _ hdis hab => ?_) (List.nodup_flatMap.mp h.nodup).2
  subst hab
  have hmem : f.termOf a ∈ f.body a := by
    rw [(h.terminated a ha).1]
    simp
  exact hdis hmem hmem

theorem Tracks.foldlM_other (hk : n ≠ k) : ∀ (bbs : List BlockId) (s s' : RunSt) (g : Func),
    Tracks f n done cst s g → bbs.foldlM (ConstPropagation.visitBlock host k) s = .ok s' →
    ∃ g', Tracks f n done cst s' g' := by
  intro bbs
  induction bbs with
  | nil =>
    intro s s' g h hrun
    cases hrun
    exact ⟨g, h⟩
  | cons bb bbs ih =>
    intro s s' g h hrun
    obtain ⟨s₁, h₁, hrun⟩ := Fallible.bind_ok.mp hrun
    obtain ⟨g₁, h'⟩ := h.visitBlock_other hk h₁
    exact ih s₁ s' g₁ h' hrun

/-- The blocks of the function, in the order of its list. -/
theorem Tracks.foldlM_blocks (host : Host) (hin : Input f) :
    ∀ (bbs done : List BlockId) (cst : InstrId → Option Value) (s : RunSt) (g : Func),
      f.blocks = done ++ bbs → Tracks f n done cst s g →
      ∃ s' cst' g', bbs.foldlM (ConstPropagation.visitBlock host n) s = .ok s' ∧
        Tracks f n f.blocks cst' s' g' := by
  intro bbs
  induction bbs with
  | nil =>
    intro done cst s g hbbs h
    rw [List.append_nil] at hbbs
    exact ⟨s, cst, g, rfl, hbbs ▸ h⟩
  | cons bb bbs ih =>
    intro done cst s g hbbs h
    have hnew : bb ∉ done := by
      have hnd := hin.blocks_nodup
      rw [hbbs] at hnd
      exact fun hd => (List.nodup_append.mp hnd).2.2 bb hd bb List.mem_cons_self rfl
    obtain ⟨s₁, cst₁, g₁, h₁, h'⟩ := h.visitBlock host hin (by rw [hbbs]; simp) hnew
      fun b hb => by rw [hbbs]; exact List.mem_append_left _ hb
    obtain ⟨s', cst', g', hrun, h''⟩ := ih (done ++ [bb]) cst₁ s₁ g₁ (by rw [hbbs]; simp) h'
    exact ⟨s', cst', g', by rw [List.foldlM_cons, h₁]; exact hrun, h''⟩

theorem Tracks.visitFunction_other (hk : n ≠ k) (h : Tracks f n done cst s g)
    (hrun : visitFunction host s k = .ok s') : ∃ g', Tracks f n done cst s' g' := by
  unfold visitFunction at hrun
  split at hrun
  · cases hrun
  · exact Tracks.foldlM_other hk _ _ _ _ h hrun

theorem Tracks.visitFunction (host : Host) (hin : Input f) (h : Tracks f n [] cst s g) :
    ∃ s' cst' g', ConstPropagation.visitFunction host s n = .ok s' ∧
      Tracks f n f.blocks cst' s' g' := by
  have hblocks : g.blocks = f.blocks := by
    unfold Cfg.blocks
    rw [h.folding.cfg]
  simp only [ConstPropagation.visitFunction, h.found, hblocks]
  exact Tracks.foldlM_blocks host hin f.blocks [] cst s g rfl h

theorem Tracks.foldlM_others : ∀ (ks : List Nat) (s s' : RunSt) (g : Func), n ∉ ks →
    Tracks f n done cst s g → ks.foldlM (ConstPropagation.visitFunction host) s = .ok s' →
    ∃ g', Tracks f n done cst s' g' := by
  intro ks
  induction ks with
  | nil =>
    intro s s' g _ h hrun
    cases hrun
    exact ⟨g, h⟩
  | cons k ks ih =>
    intro s s' g hn h hrun
    obtain ⟨hk, hn⟩ := not_or.mp (mt List.mem_cons.mpr hn)
    obtain ⟨s₁, h₁, hrun⟩ := Fallible.bind_ok.mp hrun
    obtain ⟨g₁, h'⟩ := h.visitFunction_other hk h₁
    exact ih s₁ s' g₁ hn h' hrun

/-- The result: exactly the folded instructions are gone, and their constants stand in their
places. -/
structure Folded (f : Func) (cst : InstrId → Option Value) (g : Func) : Prop
    extends Folding f cst g where
  body : ∀ b ∈ f.blocks, g.body b = (f.body b).filter fun i => (cst i).isNone

variable {m m' : Module}

theorem Input.tracks (h : Input f) (hn : m.functions[n]? = some f) :
    Tracks f n [] (fun _ => none) ⟨m.functions, initMap m, []⟩ f where
  found := hn
  folding := h.folding
  body b _ := by simp
  listed i := by simp
  place i hi := by cases hi

/-- **What the pass does to a function without loads and stores**, whatever the other functions of
the module are. -/
theorem run_folded (hin : Input f) (hn : m.functions[n]? = some f) (hrun : run host m = .ok m') :
    ∃ cst g, m'.functions[n]? = some g ∧ Folded f cst g := by
  unfold run at hrun
  obtain ⟨s, hs, hrun⟩ := Fallible.bind_ok.mp hrun
  cases hrun
  have hmem : n ∈ List.range m.functions.length :=
    List.mem_range.mpr (List.getElem?_eq_some_iff.mp hn).1
  obtain ⟨l₁, l₂, hl⟩ := List.append_of_mem hmem
  have hnd := List.nodup_range (n := m.functions.length)
  rw [hl] at hs hnd
  obtain ⟨-, hnd₂, hdis⟩ := List.nodup_append.mp hnd
  rw [List.foldlM_append] at hs
  obtain ⟨s₁, h₁, hs⟩ := Fallible.bind_ok.mp hs
  obtain ⟨s₂, h₂, hs⟩ := Fallible.bind_ok.mp hs
  obtain ⟨g₁, ht₁⟩ := Tracks.foldlM_others l₁ _ _ _ (fun h => hdis n h n List.mem_cons_self rfl)
    (hin.tracks hn) h₁
  obtain ⟨s₂', cst, g₂, h₂', ht₂⟩ := ht₁.visitFunction host hin
  rw [h₂] at h₂'
  cases h₂'
  obtain ⟨g, ht⟩ := Tracks.foldlM_others l₂ _ _ _ (List.nodup_cons.mp hnd₂).1 ht₂ hs
  exact ⟨cst, g, ht.found, ht.folding, fun b hb => by rw [ht.body b hb, if_pos hb]⟩

/-- **The pass returns**, when all functions are of this kind. -/
theorem run_ok (host : Host) (hin : ∀ f ∈ m.functions, Input f) : ∃ m', run host m = .ok m' := by
  have hgen : ∀ (ks : List Nat) (s : RunSt), ks.Nodup →
      (∀ k ∈ ks, ∃ f g, Input f ∧ Tracks f k [] (fun _ => none) s g) →
      ∃ s', ks.foldlM (visitFunction host) s = .ok s' := by
    intro ks
    induction ks with
    | nil => exact fun s _ _ => ⟨s, rfl⟩
    | cons k ks ih =>
      intro s hnd h
      obtain ⟨f, g, hf, ht⟩ := h k List.mem_cons_self
      obtain ⟨s₁, -, -, h₁, -⟩ := ht.visitFunction host hf
      obtain ⟨hk, hnd⟩ := List.nodup_cons.mp hnd
      obtain ⟨s', hrun⟩ := ih s₁ hnd fun j hj => by
        obtain ⟨f, g, hf, ht⟩ := h j (List.mem_cons_of_mem _ hj)
        obtain ⟨g', ht'⟩ := ht.visitFunction_other (fun he : j = k => hk (he ▸ hj)) h₁
        exact ⟨f, g', hf, ht'⟩
      exact ⟨s', by rw [List.foldlM_cons, h₁]; exact hrun⟩
  obtain ⟨s, hs⟩ := hgen (List.range m.functions.length) ⟨m.functions, initMap m, []⟩
    List.nodup_range fun k hk => by
      have hlt := List.mem_range.mp hk
      exact ⟨m.functions[k], _, hin _ (List.getElem_mem hlt),
        (hin _ (List.getElem_mem hlt)).tracks (List.getElem?_eq_getElem hlt)⟩
  exact ⟨{ m with functions := s.functions }, by rw [run, hs]; rfl⟩

end Cminusfc.Optimization.ConstPropagation
