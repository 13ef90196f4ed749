import Mathlib.Data.List.Sort
import Cminusfc.Frontend.Emission
import Cminusfc.LightIR.Path

/-!
# What a step of the builder emits

Between two states the builder emits a path (`Func.Path`): instructions that every execution runs
through in their order, and guards, the blocks for negative subscripts, beside it.

* `Emits B B' ids gs`: the path `ids` with the guards `gs`.
* `Does B B' effs`: a path with the instructions `effs` on it, in this order.
* `reads B B'`: the loads and the branches on a subscript among the instructions that are emitted
  between the states.

Results:
* One lemma for every operation of `src/cminusfc/cminusf_builder.cpp`, lines 275-407, and of
  `convert` in `utils.cpp`. The statements are left to `Emission`.
* `Does.performs`: the instructions on a path are performed in their order.
* `Does.sorted`: no others are.
-/

namespace Cminusfc.Frontend

open LightIR
open Fallible (bind_ok)

/-! ## What a step emits -/

/-- Where the next instruction goes. -/
def here (B : Builder) : Point := ⟨B.bb, (B.fn.body B.bb).length⟩

/-- A load, or a branch that has a choice. -/
def isRead (x : Instr) : Bool := x.op = .load || (x.op = .br && x.operands.length = 3)

/-- Between `B` and `B'` the builder has emitted the path `ids` with the guards `gs`. -/
structure Emits (B B' : Builder) (ids gs : List InstrId) : Prop where
  ext : Extends B.fn B'.fn
  path : ∀ F, Extends B'.fn F → F.Path (here B) (here B') ids gs
  sorted : ids.Pairwise (· < ·)
  low : ∀ i ∈ ids ++ gs, B.fn.next ≤ i
  high : ∀ i ∈ ids ++ gs, i < B'.fn.next
  apart : ∀ g ∈ gs, g ∉ ids
  all : ∀ i, B.fn.next ≤ i → i < B'.fn.next → i ∈ ids ++ gs
  silent : ∀ g ∈ gs, isRead (B'.fn.instr g) = false

/-- A step that emits a path, the instructions `effs` on it in this order. -/
def Does (B B' : Builder) (effs : List InstrId) : Prop :=
  Wf B → Wf B' ∧ ∃ ids gs, Emits B B' ids gs ∧ effs.Sublist ids

theorem Emits.trans {B₁ B₂ B₃ : Builder} {ids gs ids' gs' : List InstrId}
    (h : Emits B₁ B₂ ids gs) (h' : Emits B₂ B₃ ids' gs') :
    Emits B₁ B₃ (ids ++ ids') (gs ++ gs') := by
  have hbelow : ∀ i ∈ ids ++ gs, ∀ j ∈ ids' ++ gs', i < j := fun i hi j hj =>
    Nat.lt_of_lt_of_le (h.high i hi) (h'.low j hj)
  refine ⟨h.ext.trans h'.ext, fun F hF => (h.path F (h'.ext.trans hF)).trans (h'.path F hF),
    List.pairwise_append.mpr ⟨h.sorted, h'.sorted, fun i hi j hj => ?_⟩, fun i hi => ?_,
    fun i hi => ?_, fun g hg hi => ?_, fun i hlow hhigh => ?_, fun g hg => ?_⟩
  · exact hbelow i (List.mem_append_left _ hi) j (List.mem_append_left _ hj)
  · have hi' : i ∈ ids ++ gs ∨ i ∈ ids' ++ gs' := by
      simp only [List.mem_append] at hi ⊢
      tauto
    rcases hi' with hi | hi
    · exact h.low i hi
    · exact Nat.le_trans h.ext.next (h'.low i hi)
  · have hi' : i ∈ ids ++ gs ∨ i ∈ ids' ++ gs' := by
      simp only [List.mem_append] at hi ⊢
      tauto
    rcases hi' with hi | hi
    · exact Nat.lt_of_lt_of_le (h.high i hi) h'.ext.next
    · exact h'.high i hi
  · rcases List.mem_append.mp hg with hg | hg <;> rcases List.mem_append.mp hi with hi | hi
    · exact h.apart g hg hi
    · exact Nat.lt_irrefl _ (hbelow g (List.mem_append_right _ hg) g (List.mem_append_left _ hi))
    · exact Nat.lt_irrefl _ (hbelow g (List.mem_append_left _ hi) g (List.mem_append_right _ hg))
    · exact h'.apart g hg hi
  · have hmem : i ∈ ids ++ gs ∨ i ∈ ids' ++ gs' := by
      rcases Nat.lt_or_ge i B₂.fn.next with hi | hi
      · exact .inl (h.all i hlow hi)
      · exact .inr (h'.all i hi hhigh)
    simp only [List.mem_append] at hmem ⊢
    tauto
  · rcases List.mem_append.mp hg with hg | hg
    · rw [h'.ext.instr g (h.high g (List.mem_append_right _ hg))]
      exact h.silent g hg
    · exact h'.silent g hg

theorem Does.trans {B₁ B₂ B₃ : Builder} {effs effs' : List InstrId} (h : Does B₁ B₂ effs)
    (h' : Does B₂ B₃ effs') : Does B₁ B₃ (effs ++ effs') := by
  intro hw
  obtain ⟨hw₂, ids, gs, hemits, hsub⟩ := h hw
  obtain ⟨hw₃, ids', gs', hemits', hsub'⟩ := h' hw₂
  exact ⟨hw₃, ids ++ ids', gs ++ gs', hemits.trans hemits', hsub.append hsub'⟩

/-- Only the function and the insert block matter. -/
theorem Does.of_same {B B' : Builder} (hfn : B'.fn = B.fn) (hbb : B'.bb = B.bb) :
    Does B B' [] := by
  intro hw
  obtain ⟨hw', hext⟩ := Grows.of_same hfn hbb hw
  have hhere : here B' = here B := by simp only [here, hfn, hbb]
  refine ⟨hw', [], [], ⟨hext, fun F _ => hhere ▸ .done _, .nil, ?_, ?_, ?_, fun i hlow hhigh => ?_,
    ?_⟩, List.Sublist.refl _⟩
  · simp
  · simp
  · simp
  · exact absurd (Nat.lt_of_lt_of_le (hfn ▸ hhigh) hlow) (Nat.lt_irrefl _)
  · simp

theorem Does.refl (B : Builder) : Does B B [] := .of_same rfl rfl

/-- A later state in place of the last one. -/
theorem Does.same {B₁ B₂ B₃ : Builder} {effs : List InstrId} (h : Does B₁ B₂ effs)
    (hfn : B₃.fn = B₂.fn) (hbb : B₃.bb = B₂.bb) : Does B₁ B₃ effs := by
  have hall := h.trans (.of_same hfn hbb)
  rwa [List.append_nil] at hall

/-- An earlier state in place of the first one. -/
theorem Does.from {B₁ B₂ B₃ : Builder} {effs : List InstrId} (h : Does B₂ B₃ effs)
    (hfn : B₂.fn = B₁.fn) (hbb : B₂.bb = B₁.bb) : Does B₁ B₃ effs :=
  (Does.of_same hfn hbb).trans h

/-- Instructions without an effect behind the others. -/
theorem Does.then {B₁ B₂ B₃ : Builder} {effs : List InstrId} (h : Does B₁ B₂ effs)
    (h' : Does B₂ B₃ []) : Does B₁ B₃ effs := by
  have hall := h.trans h'
  rwa [List.append_nil] at hall

/-- Fewer of the instructions. -/
theorem Does.sublist {B B' : Builder} {effs effs' : List InstrId} (h : Does B B' effs)
    (hsub : effs'.Sublist effs) : Does B B' effs' := by
  intro hw
  obtain ⟨hw', ids, gs, hemits, hids⟩ := h hw
  exact ⟨hw', ids, gs, hemits, hsub.trans hids⟩

/-- The loads and the branches that have a choice among the instructions from `B` to `B'`. -/
def reads (B B' : Builder) : List InstrId :=
  (List.range B'.fn.next).filter fun i => B.fn.next ≤ i && isRead (B'.fn.instr i)

theorem mem_reads {B B' : Builder} {i : InstrId} :
    i ∈ reads B B' ↔ (B.fn.next ≤ i ∧ i < B'.fn.next) ∧ isRead (B'.fn.instr i) = true := by
  rw [reads, List.mem_filter, List.mem_range, Bool.and_eq_true, decide_eq_true_iff, ← and_assoc]
  exact and_congr_left fun _ => and_comm

theorem reads_sorted (B B' : Builder) : (reads B B').Pairwise (· < ·) :=
  List.pairwise_lt_range.filter _

/-- Of two lists in order, one is a part of the other if its instructions are. -/
theorem sublist_of_subset {l ids : List InstrId} (hl : l.Pairwise (· < ·))
    (hids : ids.Pairwise (· < ·)) (hsub : ∀ i ∈ l, i ∈ ids) : l.Sublist ids :=
  have hnodup : l.Nodup := hl.imp fun h => Nat.ne_of_lt h
  List.sublist_of_subperm_of_pairwise (List.subperm_of_subset hnodup hsub) hl hids

/-- What is read on the way is on the path. -/
theorem Does.reads {B B' : Builder} {effs : List InstrId} (h : Does B B' effs) :
    Does B B' (reads B B') := by
  intro hw
  obtain ⟨hw', ids, gs, hemits, -⟩ := h hw
  refine ⟨hw', ids, gs, hemits, sublist_of_subset (reads_sorted B B') hemits.sorted fun i hi => ?_⟩
  obtain ⟨⟨hlow, hhigh⟩, hread⟩ := mem_reads.mp hi
  rcases List.mem_append.mp (hemits.all i hlow hhigh) with hids | hgs
  · exact hids
  · rw [hemits.silent i hgs] at hread
    cases hread

/-! ## The operations of `IRBuilder` -/

namespace Builder

variable {B B' : Builder}

/-- One instruction, which may count as an effect. -/
theorem emit_does (B : Builder) {x : Instr} (hx : x.isTerminator = false) :
    Does B (B.emit x) [B.fn.next] := by
  intro hw
  obtain ⟨hw', hext⟩ := B.emit_grows x hw
  refine ⟨hw', [B.fn.next], [], ⟨hext, fun F hF => ?_, List.pairwise_singleton _ _, by simp,
    by simp, by simp, fun i hlow hhigh => ?_, by simp⟩, List.Sublist.refl _⟩
  · have hbody : ((B.emit x).fn.body B.bb)[(B.fn.body B.bb).length]? = some B.fn.next := by
      rw [emit_fn_body, Function.update_self, List.getElem?_concat_length]
    have hinstr : (F.instr B.fn.next).isTerminator = false := by
      rw [hF.instr _ (by simp), emit_fn_instr, Function.update_self]
      exact hx
    have hhere : here (B.emit x) = ⟨B.bb, (B.fn.body B.bb).length + 1⟩ := by simp [here]
    rw [hhere]
    exact .instr (hF.getElem hbody) hinstr (.done _)
  · rw [emit_fn_next] at hhigh
    simp [Nat.le_antisymm (Nat.le_of_lt_succ hhigh) hlow]

theorem create_does (B : Builder) {op : OpID} {ty : Ty} {l : List Value} {c : CmpOp}
    (hop : op ≠ .br ∧ op ≠ .ret) : Does B (B.create op ty l c) [B.fn.next] :=
  (emit_does B (by simp [Instr.isTerminator, hop])).same rfl rfl

/-- An instruction that is no effect. -/
theorem create_silent (B : Builder) {op : OpID} {ty : Ty} {l : List Value} {c : CmpOp}
    (hop : op ≠ .br ∧ op ≠ .ret) : Does B (B.create op ty l c) [] :=
  (B.create_does hop).sublist (List.nil_sublist _)

theorem createStore_does (B : Builder) (v ptr : Value) :
    Does B (B.createStore v ptr) [B.fn.next] := emit_does B rfl

theorem createLoad_does {ptr : Value} (h : B.createLoad ptr = .ok B') : Does B B' [] := by
  obtain ⟨t, -, rfl⟩ := createLoad_ok h
  exact create_silent B (by simp)

theorem createGep_does {ptr : Value} {idxs : List Value} (h : B.createGep ptr idxs = .ok B') :
    Does B B' [] := by
  obtain ⟨e, t, -, -, rfl⟩ := createGep_ok h
  exact create_silent B (by simp)

theorem convert_does {n : Value} {ty : Ty} (h : B.convert n ty = .ok B') : Does B B' [] := by
  rcases convert_ok h with ⟨rfl, -⟩ | ⟨op, rfl, hop⟩ | ⟨e, -, -, h | h⟩
  · exact .of_same rfl rfl
  · refine create_silent B ?_
    rcases hop with ⟨rfl, -⟩ | ⟨rfl, -⟩ | ⟨rfl, -⟩ <;> simp
  · exact createGep_does h
  · exact createLoad_does h

theorem binary_does {intOp floatOp : OpID} {intTy floatTy : Ty} {c : CmpOp} {lhs rhs : Value}
    (hint : intOp ≠ .br ∧ intOp ≠ .ret) (hfloat : floatOp ≠ .br ∧ floatOp ≠ .ret)
    (h : B.binary intOp floatOp intTy floatTy c lhs rhs = .ok B') : Does B B' [] := by
  unfold binary at h
  split_ifs at h
  · obtain ⟨B₁, h₁, h⟩ := bind_ok.mp h
    obtain ⟨B₂, h₂, h⟩ := bind_ok.mp h
    cases h
    exact ((convert_does h₁).then (convert_does h₂)).then (create_silent _ hint)
  · obtain ⟨B₁, h₁, h⟩ := bind_ok.mp h
    obtain ⟨B₂, h₂, h⟩ := bind_ok.mp h
    cases h
    exact ((convert_does h₁).then (convert_does h₂)).then (create_silent _ hfloat)

/-- The comparison of a subscript and the branch behind it. -/
theorem compareIndex_body (B : Builder) (offset : Value) :
    (B.compareIndex offset).fn.body =
      Function.update B.fn.body B.bb (B.fn.body B.bb ++ [B.fn.next, B.fn.next + 1]) := by
  simp [compareIndex]

theorem compareIndex_next (B : Builder) (offset : Value) :
    (B.compareIndex offset).fn.next = B.fn.next + 2 := by
  simp [compareIndex]

theorem compareIndex_bb (B : Builder) (offset : Value) :
    (B.compareIndex offset).bb = B.fn.blocks.length + 1 := by
  simp [compareIndex]

theorem compareIndex_instr (B : Builder) (offset : Value) :
    (B.compareIndex offset).fn.instr =
      Function.update (Function.update B.fn.instr B.fn.next
        { op := .cmp, ty := .int1, operands := [offset, .int32 0], parent := B.bb, cmpOp := .GE })
        (B.fn.next + 1)
        { op := .br, ty := .void, operands := [.instr B.fn.next, .block B.fn.blocks.length,
            .block (B.fn.blocks.length + 1)], parent := B.bb } := by
  simp [compareIndex]

/-- The branch of a check on the subscript, in front of it the comparison, behind it the call. -/
theorem checkIndex_does {offset : Value} (h : B.checkIndex offset = .ok B') : Does B B' [] := by
  intro hw
  obtain ⟨hw', hext⟩ := checkIndex_grows h hw
  obtain ⟨name, ret, hB'⟩ := callExcept_ok h
  obtain ⟨n, hn⟩ : ∃ n, n = B.fn.next := ⟨_, rfl⟩
  obtain ⟨t, ht⟩ : ∃ t, t = B.fn.blocks.length := ⟨_, rfl⟩
  have hbt : B.bb ≠ t := ht ▸ Nat.ne_of_lt hw.bb
  have hbe : B.bb ≠ t + 1 := ht ▸ Nat.ne_of_lt (Nat.lt_succ_of_lt hw.bb)
  have hte : t ≠ t + 1 := Nat.ne_of_lt (Nat.lt_succ_self t)
  have hfresh : B.fn.body t = [] := hw.fresh t (Nat.le_of_eq ht.symm)
  have hfresh' : B.fn.body (t + 1) = [] := hw.fresh _ (ht ▸ Nat.le_succ _)
  have hnext : B'.fn.next = n + 4 := by simp [hB', compareIndex_next, hn]
  have hbb : B'.bb = t := by simp [hB', ht]
  have hbody : B'.fn.body B.bb = B.fn.body B.bb ++ [n, n + 1] := by
    simp [hB', compareIndex_body, compareIndex_bb, ← ht, hbe, hn]
  have hbodyt : B'.fn.body t = [] := by
    simp [hB', compareIndex_body, compareIndex_bb, ← ht, hbt.symm, hfresh]
  have hbodye : B'.fn.body (t + 1) = [n + 2, n + 3] := by
    simp [hB', compareIndex_body, compareIndex_bb, compareIndex_next, ← ht, hbe.symm, hfresh', hn]
  have h₀₂ : n ≠ n + 2 := Nat.ne_of_lt (Nat.lt_add_of_pos_right (by decide))
  have h₀₃ : n ≠ n + 2 + 1 := Nat.ne_of_lt (Nat.lt_add_of_pos_right (k := 3) (by decide))
  have h₁₂ : n + 1 ≠ n + 2 := Nat.ne_of_lt (Nat.lt_succ_self (n + 1))
  have h₁₃ : n + 1 ≠ n + 2 + 1 := Nat.ne_of_lt (Nat.lt_add_of_pos_right (k := 2) (by decide))
  have hcmp : (B'.fn.instr n).op = .cmp := by
    simp [hB', compareIndex_instr, compareIndex_next, ← hn, h₀₃]
  have hbr : B'.fn.instr (n + 1) =
      { op := .br, ty := .void, operands := [.instr n, .block t, .block (t + 1)],
        parent := B.bb } := by
    simp [hB', compareIndex_instr, compareIndex_next, ← hn, ht]
  have hcall : (B'.fn.instr (n + 2)).op = .call := by
    simp [hB', compareIndex_next, ← hn]
  have hon : B'.fn.instr (n + 3) =
      { op := .br, ty := .void, operands := [.block t], parent := t + 1 } := by
    simp [hB', compareIndex_next, compareIndex_bb, ← hn, ht]
  have hhere : here B' = ⟨t, 0⟩ := by simp [here, hbb, hbodyt]
  refine ⟨hw', [n, n + 1], [n + 2, n + 3], ⟨hext, fun F hF => ?_, ?_, ?_, ?_, ?_,
    fun i hlow hhigh => ?_, ?_⟩, List.nil_sublist _⟩
  · have hat : (B'.fn.body B.bb)[(B.fn.body B.bb).length]? = some n := by simp [hbody]
    have hat₁ : (B'.fn.body B.bb)[(B.fn.body B.bb).length + 1]? = some (n + 1) := by simp [hbody]
    have hat₂ : (B'.fn.body (t + 1))[0]? = some (n + 2) := by simp [hbodye]
    have hat₃ : (B'.fn.body (t + 1))[1]? = some (n + 3) := by simp [hbodye]
    have hsame (k : Nat) (hk : k < 4) : F.instr (n + k) = B'.fn.instr (n + k) :=
      hF.instr _ (hnext ▸ Nat.add_lt_add_left hk n)
    rw [hhere]
    refine .instr (hF.getElem hat) ?_ (.guard (x := .instr n) (hF.getElem hat₁) ?_ ?_
      (hF.getElem hat₂) ?_ (hF.getElem hat₃) ?_ ?_ (.done _))
    · rw [show F.instr n = B'.fn.instr n from hsame 0 (by decide)]
      simp [Instr.isTerminator, hcmp]
    · rw [hsame 1 (by decide), hbr]
    · rw [hsame 1 (by decide), hbr]
    · rw [hsame 2 (by decide)]
      simp [Instr.isTerminator, hcall]
    · rw [hsame 3 (by decide), hon]
    · rw [hsame 3 (by decide), hon]
  · exact List.pairwise_pair.mpr (Nat.lt_succ_self n)
  · rw [← hn]
    simp
  · rw [hnext]
    simp
  · simp
  · obtain ⟨d, rfl⟩ := Nat.exists_eq_add_of_le (hn ▸ hlow)
    have hd : d < 4 := Nat.lt_of_add_lt_add_left (hnext ▸ hhigh)
    have hcases : d = 0 ∨ d = 1 ∨ d = 2 ∨ d = 3 := by omega
    rcases hcases with rfl | rfl | rfl | rfl <;> simp
  · simp [isRead, hcall, hon]

theorem elementAddress_does {ptr : Option Value} {offset : Value}
    (h : B.elementAddress ptr offset = .ok B') : Does B B' [] := by
  unfold elementAddress at h
  split at h
  · cases h
  · split at h
    · exact createGep_does h
    · obtain ⟨B₁, h₁, h₂⟩ := bind_ok.mp h
      exact (createLoad_does h₁).then (createGep_does h₂)
    · cases h
      exact .of_same rfl rfl
    · cases h

theorem finishVar_does {ptr : Value} (h : B.finishVar ptr = .ok B') : Does B B' [] := by
  unfold finishVar at h
  split_ifs at h
  · cases h
    exact .of_same rfl rfl
  · exact createLoad_does h

theorem subscript_does {ptr : Option Value} (h : B.subscript ptr = .ok B') : Does B B' [] := by
  obtain ⟨B₁, h₁, h⟩ := bind_ok.mp h
  obtain ⟨B₂, h₂, h⟩ := bind_ok.mp h
  obtain ⟨B₃, h₃, h₄⟩ := bind_ok.mp h
  exact (((convert_does h₁).then (checkIndex_does h₂)).then (elementAddress_does h₃)).then
    (finishVar_does h₄)

/-- The store of an assignment is the instruction that is emitted last. -/
theorem assignTo_does {rhs : Value} (h : B.assignTo rhs = .ok B') :
    Does B B' [B'.fn.next - 1] := by
  unfold assignTo at h
  split at h
  · cases h
  · obtain ⟨B₁, h₁, h⟩ := bind_ok.mp h
    cases h
    have hlast : (B₁.createStore B₁.val B.val).fn.next - 1 = B₁.fn.next := by simp [createStore]
    have hstore := createStore_does B₁ B₁.val B.val
    rw [← hlast] at hstore
    exact ((convert_does h₁).trans hstore).same rfl rfl

/-- So is a call. -/
theorem createCall_does {n : String} {t : FunctionType} {args : List Value}
    (h : B.createCall n t args = .ok B') : Does B B' [B'.fn.next - 1] := by
  unfold createCall at h
  split_ifs at h
  cases h
  have hlast : (B.create .call t.ret (.function n :: args) .EQ).fn.next - 1 = B.fn.next := by simp
  exact hlast ▸ B.create_does (by simp)

theorem pushArg_does {t : Ty} (h : B.pushArg t = .ok B') : Does B B' [] := by
  obtain ⟨B₁, h₁, h⟩ := bind_ok.mp h
  cases h
  have hconvert : Does B B₁ [] := (convert_does h₁).from rfl rfl
  exact hconvert.same rfl rfl

end Builder

/-! ## Executions -/

/-- Every execution from `p` executes the instructions `effs` in this order and no others of them
before it stands at `q`, and in front of `q` a part of them from the start. -/
def PerformsInOrder (f : Func) (p q : Point) (effs : List InstrId) : Prop :=
  ∀ (Val World : Type) (M : Machine Val World) (st st' : State Val World) (tr : List InstrId)
    (r : Point), f.Trace M p st tr r st' →
      (∃ tr₁ tr₂ st₁, tr = tr₁ ++ tr₂ ∧ f.Trace M p st tr₁ q st₁ ∧
        tr₁.filter (· ∈ effs) = effs) ∨
      (r ≠ q ∧ tr.filter (· ∈ effs) <+: effs)

/-- Part of an ordered list, taken out of it again. -/
theorem filter_mem_of_sublist {l ids : List InstrId} (h : l.Sublist ids) :
    ids.Pairwise (· < ·) → ids.filter (· ∈ l) = l := by
  induction h with
  | slnil => exact fun _ => rfl
  | @cons l ids i hsub ih =>
    intro hsorted
    obtain ⟨hi, hrest⟩ := List.pairwise_cons.mp hsorted
    have hnot : i ∉ l := fun hmem => Nat.lt_irrefl _ (hi i (hsub.subset hmem))
    rw [List.filter_cons_of_neg (by simpa using hnot), ih hrest]
  | @cons_cons l ids i hsub ih =>
    intro hsorted
    obtain ⟨hi, hrest⟩ := List.pairwise_cons.mp hsorted
    rw [List.filter_cons_of_pos (by simp)]
    have hsame : ids.filter (· ∈ i :: l) = ids.filter (· ∈ l) := by
      refine List.filter_congr fun j hj => ?_
      have hne : j ≠ i := (Nat.ne_of_lt (hi j hj)).symm
      simp [hne]
    rw [hsame, ih hrest]

/-- At the end of a path there is no instruction of it. -/
theorem Emits.at_end {B B' : Builder} {ids gs : List InstrId} {F : Func}
    (h : Emits B B' ids gs) (hF : Extends B'.fn F) {i : InstrId} (hi : i ∈ ids ++ gs) :
    (F.body (here B').block)[(here B').index]? ≠ some i := by
  intro hat
  obtain ⟨l, hl, hlow⟩ := hF.body B'.bb
  have hmem : i ∈ l := by
    simp only [here] at hat
    rw [hl, List.getElem?_append_right (Nat.le_refl _), Nat.sub_self] at hat
    exact List.mem_of_getElem? hat
  exact Nat.lt_irrefl _ (Nat.lt_of_lt_of_le (h.high i hi) (hlow i hmem))

/-- The instructions of the guards are not on the path. -/
theorem Emits.not_mem {B B' : Builder} {ids gs effs : List InstrId} (h : Emits B B' ids gs)
    (hsub : effs.Sublist ids) : ∀ g ∈ gs, decide (g ∈ effs) = false := by
  intro g hg
  have hnot : g ∉ effs := fun hmem => h.apart g hg (hsub.subset hmem)
  simpa using hnot

/-- **The instructions on a path are performed in its order.** -/
theorem Does.performs {B B' : Builder} {effs : List InstrId} {F : Func} (h : Does B B' effs)
    (hw : Wf B) (hF : Extends B'.fn F) : PerformsInOrder F (here B) (here B') effs := by
  obtain ⟨-, ids, gs, hemits, hsub⟩ := h hw
  have hguards := hemits.not_mem hsub
  have hids := filter_mem_of_sublist hsub hemits.sorted
  intro Val World M st st' tr r htr
  rcases (hemits.path F hF).follows htr with ⟨tr₁, tr₂, st₁, rfl, htr₁, hfol⟩ | ⟨hat, hpre⟩
  · exact .inl ⟨tr₁, tr₂, st₁, rfl, htr₁, (hfol _ hguards).trans hids⟩
  · have hpart := hpre _ hguards
    rw [hids] at hpart
    refine .inr ⟨?_, hpart⟩
    rintro rfl
    obtain ⟨i, hi, hat⟩ := hat
    exact hemits.at_end hF hi hat

/-- A machine that never traps. -/
def unitMachine : Machine Unit Unit where
  undef := ()
  const _ := ()
  addr _ := ()
  isTrue _ := true
  pure _ _ _ _ := ()
  effect _ _ _ _ := some ((), ())

theorem unitMachine_complete (f : Func) (i : InstrId) (st : State Unit Unit) :
    ∃ st', f.execInstr unitMachine i st = some st' := by
  have heffect : ∃ st', f.execEffect unitMachine i st = some st' := ⟨_, rfl⟩
  unfold Func.execInstr
  dsimp only
  split
  · exact ⟨_, rfl⟩
  · exact ⟨_, rfl⟩
  · split
    · exact ⟨_, rfl⟩
    · exact heffect
  · split
    · split
      · exact ⟨_, rfl⟩
      · exact heffect
    · exact heffect
  · split_ifs
    · exact ⟨_, rfl⟩
    · exact heffect

/-- **Instructions of a path that are performed in some order are in the order of the path.** -/
theorem Does.sorted {B B' : Builder} {effs effs' : List InstrId} {F : Func}
    (h : Does B B' effs) (hw : Wf B) (hF : Extends B'.fn F) (hsub' : ∀ i ∈ effs', i ∈ effs)
    (h' : PerformsInOrder F (here B) (here B') effs') : effs'.Pairwise (· < ·) := by
  obtain ⟨-, ids, gs, hemits, hsub⟩ := h hw
  have hguards : ∀ g ∈ gs, decide (g ∈ effs') = false := by
    intro g hg
    have hnot : g ∉ effs' := fun hmem => hemits.apart g hg (hsub.subset (hsub' g hmem))
    simpa using hnot
  obtain ⟨tr, st', htr, hfol⟩ :=
    (hemits.path F hF).complete (M := unitMachine) (unitMachine_complete F)
      ⟨fun _ => (), fun _ => (), ()⟩
  rcases h' Unit Unit unitMachine _ st' tr _ htr with ⟨tr₁, tr₂, st₁, rfl, -, heq⟩ | ⟨hne, -⟩
  · have hall := hfol _ hguards
    rw [List.filter_append, heq] at hall
    exact (hemits.sorted.filter _).sublist (hall ▸ List.sublist_append_left _ _)
  · exact absurd rfl hne

/-! ## Expressions -/

/-- The nodes of expressions. -/
def Kind.inExpression : Kind → Bool
  | .statement | .statements => false
  | _ => true

/-- The state after a visit. -/
def after {k : Kind} (a : Ast k) (B : Builder) : Builder :=
  match visit a B with
  | .ok B' => B'
  | .error _ => B

theorem after_ok {k : Kind} {a : Ast k} {B B' : Builder} (h : visit a B = .ok B') :
    after a B = B' := by
  simp [after, h]

end Cminusfc.Frontend
