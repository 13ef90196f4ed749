import Cminusfc.LightIR.UseLists
import Cminusfc.Frontend.Formed
import Cminusfc.Frontend.FunctionsCorrect

/-!
# The use lists the builder leaves

The constructor of an instruction enters it in the use lists of its operands, slot by slot, and the
builder never changes an operand. So the use lists are exact: what a pass finds in `use_list_` is
every use, once, and nothing else (`uses_exact`).

About `src/lightir/User.cpp` 17-30 and `Value.cpp` 12-14, as `src/cminusfc/cminusf_builder.cpp` uses
them.
-/

namespace Cminusfc.LightIR.Func

variable {f : Func} {x : Instr} {v w : Value} {u : Use} {i : InstrId}

/-- The use list of an operand, behind the entries it had. -/
theorem foldl_addUse_uses (l : List (Value × Nat)) : ∀ f : Func,
    (l.foldl (fun g v => g.addUse v.1 (i, v.2)) f).uses w =
      f.uses w ++ (l.filter fun p => p.1 = w).map fun p => (i, p.2) := by
  induction l with
  | nil => simp
  | cons a l ih =>
    intro f
    rw [List.foldl_cons, ih, addUse]
    by_cases hw : a.1 = w
    · subst hw
      simp
    · simp [Function.update_of_ne (Ne.symm hw), hw]

/-- The slots of an instruction differ. -/
theorem slots_nodup (l : List Value) (i : InstrId) :
    ((l.zipIdx.filter fun p => p.1 = w).map fun p => (i, p.2)).Nodup := by
  have hidx : (l.zipIdx.map Prod.snd).Nodup := by
    rw [List.zipIdx_map_snd]
    exact List.nodup_range'
  have hsub : ((l.zipIdx.filter fun p => p.1 = w).map Prod.snd).Nodup :=
    hidx.sublist (List.filter_sublist.map _)
  have hmap : ((l.zipIdx.filter fun p => p.1 = w).map fun p => (i, p.2)) =
      ((l.zipIdx.filter fun p => p.1 = w).map Prod.snd).map fun n => (i, n) := by
    rw [List.map_map]
    rfl
  rw [hmap]
  exact hsub.map fun m n h => congrArg Prod.snd h

/-- The entries of the use lists are the operands, once each, and every instruction stands in a
block. -/
structure Recorded (f : Func) : Prop where
  placed : ∀ i < f.next, ∃ b ∈ f.blocks, i ∈ f.body b
  body : ∀ b, ∀ i ∈ f.body b, i < f.next
  uses : ∀ v u, u ∈ f.uses v ↔ u.1 < f.next ∧ (f.instr u.1).operands[u.2]? = some v
  nodup : ∀ v, (f.uses v).Nodup

theorem Recorded.mem_instrs (h : Recorded f) : i ∈ f.instrs ↔ i < f.next := by
  constructor
  · intro hi
    obtain ⟨b, -, hib⟩ := List.mem_flatMap.mp hi
    exact h.body b i hib
  · intro hi
    obtain ⟨b, hb, hib⟩ := h.placed i hi
    exact Func.mem_instrs hb hib

/-- Another instruction. -/
theorem Recorded.emit (h : Recorded f) {b : BlockId} (hb : b ∈ f.blocks) :
    Recorded ((f.newInstr x).addInstruction b f.next) := by
  have happ := f.appends x b
  obtain ⟨g, hg⟩ : ∃ g, g = (f.newInstr x).addInstruction b f.next := ⟨_, rfl⟩
  rw [← hg] at happ ⊢
  have hnext : g.next = f.next + 1 := hg ▸ newInstr_next f x
  constructor
  case placed =>
    intro i hi
    rw [happ.blocks]
    rcases Nat.lt_succ_iff_lt_or_eq.mp (hnext ▸ hi) with hi | rfl
    · obtain ⟨c, hc, hic⟩ := h.placed i hi
      exact ⟨c, hc, happ.mem_of_mem hic⟩
    · exact ⟨b, hb, happ.next_mem⟩
  case body =>
    intro c i hi
    rw [hnext]
    rcases happ.old_or_new hi with hi | ⟨-, rfl⟩
    · exact Nat.lt_succ_of_lt (h.body c i hi)
    · exact Nat.lt_succ_self _
  case uses =>
    intro v u
    have hmem : u ∈ g.uses v ↔ u ∈ f.uses v ∨ u.1 = f.next ∧ x.operands[u.2]? = some v :=
      hg ▸ mem_newInstr_uses
    rw [hmem, h.uses, hnext, happ.instr]
    by_cases hu : u.1 = f.next
    · rw [hu, Function.update_self]
      exact ⟨fun hor => ⟨Nat.lt_succ_self _, hor.elim (fun h => absurd h.1 (Nat.lt_irrefl _)) (·.2)⟩,
        fun hand => .inr ⟨rfl, hand.2⟩⟩
    · rw [Function.update_of_ne hu]
      refine ⟨fun hor => ?_, fun hand => .inl ⟨?_, hand.2⟩⟩
      · obtain ⟨hlt, hop⟩ := hor.resolve_right fun h => hu h.1
        exact ⟨Nat.lt_succ_of_lt hlt, hop⟩
      · exact Nat.lt_of_le_of_ne (Nat.le_of_lt_succ hand.1) hu
  case nodup =>
    intro v
    have huses : g.uses v = f.uses v ++
        (x.operands.zipIdx.filter fun p => p.1 = v).map fun p => (f.next, p.2) :=
      hg ▸ foldl_addUse_uses _ _
    rw [huses, List.nodup_append]
    refine ⟨h.nodup v, slots_nodup _ _, fun u hu u' hu' heq => ?_⟩
    obtain ⟨p, -, rfl⟩ := List.mem_map.mp hu'
    have hlt := ((h.uses v u).mp hu).1
    rw [heq] at hlt
    exact Nat.lt_irrefl _ hlt

/-- Another block. -/
theorem Recorded.createBlock (h : Recorded f) (name : String) : Recorded (f.createBlock name) where
  placed i hi := by
    obtain ⟨b, hb, hib⟩ := h.placed i hi
    exact ⟨b, List.mem_append_left _ hb, hib⟩
  body := h.body
  uses := h.uses
  nodup := h.nodup

end Cminusfc.LightIR.Func

namespace Cminusfc.Frontend

open LightIR
open Fallible (bind_ok)
open Builder

variable {B B' : Builder}

/-- The steps of the builder keep the use lists exact. -/
theorem Builds.recorded {own : BlockId → Prop} {f g : Func} (h : Builds own f g)
    (hf : f.Recorded) : g.Recorded := by
  induction h with
  | refl => exact hf
  | emit _ hb _ _ _ ih => exact ih.emit hb
  | block _ name ih => exact ih.createBlock name
  | edges _ _ _ ih => exact ⟨ih.placed, ih.body, ih.uses, ih.nodup⟩
  | names _ _ ih => exact ⟨ih.placed, ih.body, ih.uses, ih.nodup⟩

theorem newFunc_recorded (name : String) (t : FunctionType) : (newFunc name t).Recorded where
  placed _ hi := absurd hi (Nat.not_lt_zero _)
  body _ _ hi := absurd hi List.not_mem_nil
  uses _ _ := ⟨fun hu => absurd hu List.not_mem_nil, fun hu => absurd hu.1 (Nat.not_lt_zero _)⟩
  nodup _ := List.nodup_nil

/-- What holds of every function that is emitted holds of the functions of a program. -/
theorem visitProgram_all {P : Func → Prop} (hfn : ∀ d B B', TopLevel B →
    visitFunDeclaration d B = .ok B' → P B'.fn) (ds : List Declaration) : ∀ {B B' : Builder},
      TopLevel B → (∀ f ∈ B.functions ++ [B.fn], P f) → visitProgram ds B = .ok B' →
        ∀ f ∈ B'.functions ++ [B'.fn], P f := by
  induction ds with
  | nil =>
    intro B B' _ hB h
    cases h
    exact hB
  | cons d ds ih =>
    intro B B' ht hB h
    simp only [visitProgram, List.foldlM_cons] at h
    obtain ⟨B₁, h₁, h₂⟩ := bind_ok.mp h
    cases d with
    | var d =>
      refine ih (visitVarDeclaration_topLevel ht h₁) ?_ h₂
      rwa [visitVarDeclaration_functions h₁, visitVarDeclaration_fn ht h₁]
    | fn d =>
      refine ih (visitFunDeclaration_topLevel ht h₁) ?_ h₂
      intro f hf
      rw [(visitFunDeclaration_linked h₁).2] at hf
      rcases List.mem_append.mp hf with hf | hf
      · exact hB f hf
      · rw [List.mem_singleton.mp hf]
        exact hfn d B B₁ ht h₁

theorem visitProgram_recorded {ds : List Declaration} (h : visitProgram ds freshBuilder = .ok B) :
    ∀ f ∈ B.functions ++ [B.fn], f.Recorded := by
  refine visitProgram_all (fun d B B' _ hd => ?_) ds freshBuilder_topLevel ?_ h
  · exact (visitFunDeclaration_assembled hd).builds.recorded (newFunc_recorded _ _)
  · intro f hf
    rw [List.mem_singleton.mp hf]
    exact newFunc_recorded _ _

/-- **The use lists of every function of a program are exact**: each operand slot of each instruction
is entered once in the list of its operand, and nothing else is. -/
theorem uses_exact {ds : List Declaration} (h : visitProgram ds freshBuilder = .ok B) :
    ∀ f ∈ B.functions ++ [B.fn], ∀ v i no, (f.uses v).count (i, no) =
      if i ∈ f.instrs ∧ (f.instr i).operands[no]? = some v then 1 else 0 := by
  intro f hf v i no
  have hr := visitProgram_recorded h f hf
  have huse : (i, no) ∈ f.uses v ↔ i ∈ f.instrs ∧ (f.instr i).operands[no]? = some v :=
    (hr.uses v (i, no)).trans (and_congr_left' hr.mem_instrs.symm)
  split_ifs with hu
  · exact List.count_eq_one_of_mem (hr.nodup v) (huse.mpr hu)
  · exact List.count_eq_zero.mpr fun hmem => hu (huse.mp hmem)

theorem uses_exact_summation : ∃ B, visitProgram [.fn summation] freshBuilder = .ok B ∧
    ∀ v i no, (B.fn.uses v).count (i, no) =
      if i ∈ B.fn.instrs ∧ (B.fn.instr i).operands[no]? = some v then 1 else 0 := by
  have hok : (visitProgram [.fn summation] freshBuilder).toOption.isSome = true := by
    decide +kernel
  cases h : visitProgram [.fn summation] freshBuilder with
  | error e =>
    rw [h] at hok
    cases hok
  | ok B => exact ⟨B, rfl, uses_exact h B.fn (by simp)⟩

end Cminusfc.Frontend
