import Cminusfc.LightIR.Edit

/-!
# Complete use lists

A use list is complete when it has every operand slot that holds its value (`UsesComplete`). The
constructors of instructions and `set_operand` record the slots they write; `delete_instr` drops all
uses of the instruction, and `add_instruction` does not bring them back.

`Tracked f D g` follows a pass that started on `f`, with `D` the instructions it has taken out of a
block at some time: all other instructions have their uses recorded, those of `D` have none. One
lemma for each edit; `Tracked.complete_iff` reads off the end.

Source: `src/lightir/User.cpp` 17-39, `Value.cpp` 12-31, `BasicBlock.cpp` 30-34.
-/

namespace Cminusfc.LightIR.Func

/-- Every operand of an instruction in a block is in the use list of its value. -/
def UsesComplete (f : Func) : Prop :=
  ∀ i ∈ f.instrs, ∀ (no : Nat) (v : Value), (f.instr i).operands[no]? = some v → (i, no) ∈ f.uses v

/-- The operand slots of the instructions `is` that hold `v`. -/
def slotsOf (instr : InstrId → Instr) (is : List InstrId) (v : Value) : List Use :=
  is.flatMap fun i => (instr i).operands.zipIdx.filterMap fun p =>
    if p.1 = v then some (i, p.2) else none

theorem mem_slotsOf {instr : InstrId → Instr} {is : List InstrId} {v : Value} {i : InstrId}
    {no : Nat} : (i, no) ∈ slotsOf instr is v ↔ i ∈ is ∧ (instr i).operands[no]? = some v := by
  simp only [slotsOf, List.mem_flatMap, List.mem_filterMap]
  constructor
  · rintro ⟨k, hk, ⟨a, m⟩, hmem, hif⟩
    by_cases ha : a = v
    · rw [if_pos ha] at hif
      cases hif
      exact ⟨hk, ha ▸ List.mk_mem_zipIdx_iff_getElem?.mp hmem⟩
    · rw [if_neg ha] at hif
      cases hif
  · rintro ⟨hi, hno⟩
    exact ⟨i, hi, (v, no), List.mk_mem_zipIdx_iff_getElem?.mpr hno, if_pos rfl⟩

variable {f g : Func} {D : InstrId → Prop} {v w old new : Value} {u : Use} {b : BlockId}
  {i j : InstrId} {x : Instr}

/-! ## Use lists after an edit -/

theorem mem_foldl_addUse (i : InstrId) : ∀ (l : List (Value × Nat)) (f : Func),
    u ∈ (l.foldl (fun g v => g.addUse v.1 (i, v.2)) f).uses w ↔
      u ∈ f.uses w ∨ u.1 = i ∧ (w, u.2) ∈ l := by
  intro l
  induction l with
  | nil => simp
  | cons a l ih =>
    intro f
    rw [List.foldl_cons, ih, List.mem_cons, addUse]
    obtain ⟨v, no⟩ := a
    obtain ⟨j, k⟩ := u
    by_cases hw : w = v
    · subst hw
      simp only [Function.update_self, List.mem_append, List.mem_singleton, Prod.mk.injEq, true_and]
      tauto
    · simp only [Function.update_of_ne hw, Prod.mk.injEq, hw, false_and, false_or]

/-- The constructor of an instruction records its operands. -/
theorem mem_newInstr_uses : u ∈ (f.newInstr x).uses w ↔
    u ∈ f.uses w ∨ u.1 = f.next ∧ x.operands[u.2]? = some w := by
  unfold newInstr
  rw [mem_foldl_addUse, List.mk_mem_zipIdx_iff_getElem?]
  rfl

theorem mem_foldl_setOperand : ∀ (slots : List Use) (f : Func),
    u ∈ (slots.foldl (fun f u => f.setOperand u.1 u.2 new) f).uses w ↔
      u ∈ f.uses w ∨ w = new ∧ u ∈ slots := by
  intro slots
  induction slots with
  | nil => simp
  | cons a slots ih =>
    intro f
    rw [List.foldl_cons, ih, List.mem_cons]
    show u ∈ Function.update f.uses new (f.uses new ++ [(a.1, a.2)]) w ∨ _ ↔ _
    by_cases hw : w = new
    · subst hw
      simp only [Function.update_self, List.mem_append, List.mem_singleton, true_and]
      tauto
    · simp [hw]

/-- `replace_all_use_with` records the slots it writes. -/
theorem mem_replaceAllUseWith_uses : u ∈ (f.replaceAllUseWith old new).uses w ↔
    u ∈ f.uses w ∨ w = new ∧ u ∈ f.uses old :=
  mem_foldl_setOperand _ _

/-! ## Arguments after an edit -/

theorem foldl_args {α : Type} {step : Func → α → Func} (h : ∀ g a, (step g a).args = g.args) :
    ∀ (l : List α) (f : Func), (l.foldl step f).args = f.args := by
  intro l
  induction l with
  | nil => exact fun _ => rfl
  | cons a l ih => exact fun f => (ih _).trans (h f a)

@[simp] theorem newInstr_args : (f.newInstr x).args = f.args := by
  rw [newInstr, foldl_args (by exact fun _ _ => rfl)]
  rfl

@[simp] theorem deleteInstr_args : (f.deleteInstr b i).args = f.args := by
  rw [deleteInstr, removeUseOfOps, foldl_args (by exact fun _ _ => rfl)]
  rfl

@[simp] theorem replaceAllUseWith_args : (f.replaceAllUseWith old new).args = f.args := by
  rw [replaceAllUseWith, foldl_args (by exact fun _ _ => rfl)]

/-! ## Following a pass -/

/-- A pass started on `f` has taken the instructions `D` out and put them back. -/
structure Tracked (f : Func) (D : InstrId → Prop) (g : Func) : Prop where
  args : g.args = f.args
  next : f.next ≤ g.next
  placed : ∀ b ∈ f.blocks, ∀ i ∈ g.body b, (i ∈ f.instrs ∨ f.next ≤ i) ∧ i < g.next
  recorded : ∀ i, (i ∈ f.instrs ∨ f.next ≤ i) → i < g.next → ¬ D i → ∀ (no : Nat) (v : Value),
    (g.instr i).operands[no]? = some v → (i, no) ∈ g.uses v
  dropped : ∀ i, D i → i < g.next ∧ ∀ (no : Nat) (v : Value),
    (g.instr i).operands[no]? = some v → (i, no) ∉ g.uses v

/-- The start of a pass. -/
theorem UsesComplete.tracked (h : f.UsesComplete) (hlt : ∀ i ∈ f.instrs, i < f.next) :
    Tracked f (fun _ => False) f where
  args := rfl
  next := Nat.le_refl _
  placed b hb i hi := ⟨Or.inl (mem_instrs hb hi), hlt i (mem_instrs hb hi)⟩
  recorded i hi hilt _ := by
    cases hi with
    | inl hi => exact h i hi
    | inr hi => exact absurd (Nat.lt_of_lt_of_le hilt hi) (Nat.lt_irrefl _)
  dropped _ h := h.elim

theorem Tracked.deleteInstr (h : Tracked f D g) (b : BlockId) (hi : i < g.next) :
    Tracked f (fun j => D j ∨ j = i) (g.deleteInstr b i) where
  args := deleteInstr_args.trans h.args
  next := by
    rw [deleteInstr_next]
    exact h.next
  placed c hc j hj := by
    rw [deleteInstr_next]
    rw [deleteInstr_body] at hj
    refine h.placed c hc j ?_
    by_cases hcb : c = b
    · subst hcb
      rw [Function.update_self] at hj
      exact (List.mem_filter.mp hj).1
    · rwa [Function.update_of_ne hcb] at hj
  recorded j hj hlt hD no v hv := by
    rw [not_or] at hD
    rw [deleteInstr_next] at hlt
    rw [deleteInstr_instr] at hv
    exact (mem_deleteInstr_uses _ _ _).mpr ⟨h.recorded j hj hlt hD.1 no v hv, fun _ => hD.2⟩
  dropped j hj := by
    rw [deleteInstr_next, deleteInstr_instr]
    cases hj with
    | inl hj =>
      refine ⟨(h.dropped j hj).1, fun no v hv hmem => ?_⟩
      exact (h.dropped j hj).2 no v hv ((mem_deleteInstr_uses _ _ _).mp hmem).1
    | inr hj =>
      subst hj
      refine ⟨hi, fun no v hv hmem => ?_⟩
      exact ((mem_deleteInstr_uses _ _ _).mp hmem).2 (List.mem_of_getElem? hv) rfl

theorem Tracked.addInstruction (h : Tracked f D g) (b : BlockId)
    (hi : (i ∈ f.instrs ∨ f.next ≤ i) ∧ i < g.next) : Tracked f D (g.addInstruction b i) where
  args := h.args
  next := h.next
  placed c hc j hj := by
    rw [addInstruction_body] at hj
    by_cases hcb : c = b
    · subst hcb
      rw [Function.update_self] at hj
      rcases List.mem_append.mp hj with hj | hj
      · exact h.placed c hc j hj
      · obtain rfl := List.mem_singleton.mp hj
        exact hi
    · rw [Function.update_of_ne hcb] at hj
      exact h.placed c hc j hj
  recorded := h.recorded
  dropped := h.dropped

theorem Tracked.setBody (h : Tracked f D g) (b : BlockId) {l : List InstrId}
    (hl : ∀ i ∈ l, i ∈ g.body b ∨ f.next ≤ i ∧ i < g.next) (hb : b ∈ f.blocks) :
    Tracked f D (g.setBody b l) where
  args := h.args
  next := h.next
  placed c hc j hj := by
    rw [setBody_body] at hj
    by_cases hcb : c = b
    · subst hcb
      rw [Function.update_self] at hj
      exact (hl j hj).elim (h.placed c hb j) fun hj => ⟨Or.inr hj.1, hj.2⟩
    · rw [Function.update_of_ne hcb] at hj
      exact h.placed c hc j hj
  recorded := h.recorded
  dropped := h.dropped

theorem Tracked.newInstr (h : Tracked f D g) (x : Instr) : Tracked f D (g.newInstr x) where
  args := newInstr_args.trans h.args
  next := by
    rw [newInstr_next]
    exact Nat.le_succ_of_le h.next
  placed b hb i hi := by
    rw [newInstr_body] at hi
    rw [newInstr_next]
    exact ⟨(h.placed b hb i hi).1, Nat.lt_succ_of_lt (h.placed b hb i hi).2⟩
  recorded i hi hlt hD no v hv := by
    rw [newInstr_next] at hlt
    rw [newInstr_instr] at hv
    rw [mem_newInstr_uses]
    by_cases hin : i = g.next
    · subst hin
      rw [Function.update_self] at hv
      exact Or.inr ⟨rfl, hv⟩
    · rw [Function.update_of_ne hin] at hv
      exact Or.inl (h.recorded i hi (Nat.lt_of_le_of_ne (Nat.le_of_lt_succ hlt) hin) hD no v hv)
  dropped i hD := by
    obtain ⟨hlt, hno⟩ := h.dropped i hD
    have hin : i ≠ g.next := Nat.ne_of_lt hlt
    rw [newInstr_next, newInstr_instr, Function.update_of_ne hin]
    refine ⟨Nat.lt_succ_of_lt hlt, fun no v hv hmem => ?_⟩
    exact (mem_newInstr_uses.mp hmem).elim (hno no v hv) fun hmem => hin hmem.1

/-- A replacement that reaches no instruction of `D`. -/
theorem Tracked.replaceAllUseWith (h : Tracked f D g) (new : Value)
    (hold : ∀ u ∈ g.uses old, ¬ D u.1) : Tracked f D (g.replaceAllUseWith old new) where
  args := replaceAllUseWith_args.trans h.args
  next := by
    rw [replaceAllUseWith_next]
    exact h.next
  placed b hb i hi := by
    rw [replaceAllUseWith_body] at hi
    rw [replaceAllUseWith_next]
    exact h.placed b hb i hi
  recorded i hi hlt hD no v hv := by
    rw [replaceAllUseWith_next] at hlt
    rw [replaceAllUseWith_instr, replaceSlots, List.getElem?_mapIdx, Option.map_eq_some_iff] at hv
    obtain ⟨a, ha, hav⟩ := hv
    rw [mem_replaceAllUseWith_uses]
    split at hav
    · exact Or.inr ⟨hav.symm, by assumption⟩
    · subst hav
      exact Or.inl (h.recorded i hi hlt hD no a ha)
  dropped i hD := by
    obtain ⟨hlt, hno⟩ := h.dropped i hD
    have hslots : ∀ no, (i, no) ∉ g.uses old := fun no hmem => hold _ hmem hD
    rw [replaceAllUseWith_next, replaceAllUseWith_instr, replaceSlots_of_none hslots]
    refine ⟨hlt, fun no v hv hmem => ?_⟩
    exact (mem_replaceAllUseWith_uses.mp hmem).elim (hno no v hv) fun hmem => hslots no hmem.2

/-- An edit of what the operands of an instruction do not depend on. -/
theorem Tracked.setInstr (h : Tracked f D g) (hx : x.operands = (g.instr i).operands) :
    Tracked f D (g.setInstr i x) := by
  have hops : ∀ j, ((g.setInstr i x).instr j).operands = (g.instr j).operands := by
    intro j
    unfold Func.setInstr
    by_cases hj : j = i
    · subst hj
      simpa using hx
    · simp [hj]
  refine ⟨h.args, h.next, h.placed, fun j hj hlt hD no v hv => ?_,
    fun j hD => ⟨(h.dropped j hD).1, ?_⟩⟩
  · rw [hops] at hv
    exact h.recorded j hj hlt hD no v hv
  · intro no v hv
    rw [hops] at hv
    exact (h.dropped j hD).2 no v hv

/-- **When the use lists are complete at the end**: when nothing with operands has been taken out. -/
theorem Tracked.complete_iff (h : Tracked f D g) (hblocks : g.blocks = f.blocks)
    (hin : ∀ i, D i → i ∈ g.instrs) :
    g.UsesComplete ↔ ∀ i, D i → (g.instr i).operands = [] := by
  constructor
  · intro hc i hD
    by_contra hne
    obtain ⟨v, hv⟩ := List.exists_mem_of_ne_nil _ hne
    obtain ⟨no, hno⟩ := List.getElem?_of_mem hv
    exact (h.dropped i hD).2 no v hno (hc i (hin i hD) no v hno)
  · intro hnil i hi no v hv
    obtain ⟨b, hb, hib⟩ := List.mem_flatMap.mp hi
    obtain ⟨hold, hlt⟩ := h.placed b (hblocks ▸ hb) i hib
    refine h.recorded i hold hlt (fun hD => ?_) no v hv
    rw [hnil i hD] at hv
    simp at hv

end Cminusfc.LightIR.Func
