import Mathlib.Tactic.IntervalCases
import Cminusfc.Codegen.CanonicalLines

/-!
# Registers hold sign extensions as long as nothing wraps

* `Inv` is what the generator knows in front of an instruction: the registers of the values defined
  above it are taken, and those of the `i32` are fresh.
* `Linked` relates a state of the IR and a state of the machine in front of an instruction.
* `Linked.step` carries it over one step that meets the condition, `run_canonical` over a run.
* `sum_not_canonical`: an addition that wraps leaves a register that is no sign extension, and the
  comparison after it decides otherwise.

About `src/codegen/codegen.cpp` 33-109, 306-370 and 413-508. Out of scope: floats, loads and stores,
calls.
-/

namespace Cminusfc.Codegen.Canonical

open Cminusfc.LightIR
open Fallible (bind_ok)
open RegAlloc (LiveAt hasFcalls)

variable {W : Type} {t : Target W} {f : Func} {regs : Value → Option RegRef}

/-! ## The functions -/

theorem InScope.no_calls (hf : InScope f) : hasFcalls f = false := by
  simp only [hasFcalls, List.any_eq_false, decide_eq_true_eq]
  intro i hi hcall
  cases hf.typed i hi with
  | bin hop => simp [hcall, binOp] at hop
  | cmp hop | zext hop | jump hop | cond hop | retVoid hop | ret hop => simp [hcall] at hop

/-- A value that is live is an operand. -/
theorem InScope.live_typed (hf : InScope f) {v : Value} {b : BlockId} {k : Nat}
    (hb : b ∈ f.blocks) (h : LiveAt f v b k) : ∃ i ∈ f.instrs, v ∈ (f.instr i).operands := by
  induction h with
  | use hi hv => exact ⟨_, Func.mem_instrs hb (List.mem_of_getElem? hi), hv⟩
  | step _ _ _ ih => exact ih hb
  | edge hs _ ih => exact ih (hf.valid.closed _ hb _ hs)

/-- An operand other than a block is typed. -/
theorem WellTyped.operand {x : Instr} (hx : WellTyped f x) {v : Value} (hv : v ∈ x.operands) :
    (∃ b, v = .block b) ∨ Typed f .int32 v ∨ Typed f .int1 v := by
  cases hx with
  | bin _ hops ha hb | cmp _ hops ha hb =>
    rw [hops] at hv
    rcases List.mem_pair.mp hv with rfl | rfl
    · exact Or.inr (Or.inl ha)
    · exact Or.inr (Or.inl hb)
  | zext _ hops ha =>
    rw [hops] at hv
    obtain rfl := List.mem_singleton.mp hv
    exact Or.inr (Or.inr ha)
  | jump _ hops =>
    rw [hops] at hv
    exact Or.inl ⟨_, List.mem_singleton.mp hv⟩
  | cond _ hops hc =>
    rw [hops] at hv
    simp only [List.mem_cons, List.not_mem_nil, or_false] at hv
    rcases hv with rfl | rfl | rfl
    · exact Or.inr (Or.inr hc)
    · exact Or.inl ⟨_, rfl⟩
    · exact Or.inl ⟨_, rfl⟩
  | retVoid _ hops => simp [hops] at hv
  | ret _ hops ha =>
    rw [hops] at hv
    obtain rfl := List.mem_singleton.mp hv
    exact Or.inr (Or.inl ha)

theorem Typed.instr_ty {ty : Ty} {j : InstrId} (h : Typed f ty (.instr j)) :
    (f.instr j).ty = ty := h.1

/-- A live instruction yields a value. -/
theorem InScope.live_ty (hf : InScope f) {j : InstrId} {b : BlockId} {k : Nat}
    (hb : b ∈ f.blocks) (h : LiveAt f (.instr j) b k) : (f.instr j).ty ≠ .void := by
  obtain ⟨i, hi, hv⟩ := hf.live_typed hb h
  rcases (hf.typed i hi).operand hv with ⟨b, hb⟩ | ht | ht
  · cases hb
  · rw [ht.instr_ty]
    decide
  · rw [ht.instr_ty]
    decide

/-- An instruction stands in one place of the text. -/
theorem InScope.split_unique (hf : InScope f) {i : InstrId} {pre post pre' post' : List InstrId}
    (h : f.instrs = pre ++ i :: post) (h' : f.instrs = pre' ++ i :: post') : pre = pre' := by
  have hnodup := hf.valid.nodup
  rw [h] at hnodup
  obtain ⟨-, hcons, hne⟩ := List.nodup_append.mp hnodup
  exact ((List.append_cons_inj_of_notMem (fun hin => hne i hin i List.mem_cons_self rfl)
    (List.nodup_cons.mp hcons).1).mp (h.symm.trans h')).1

/-! ## The generator in front of an instruction -/

/-- `v` is an argument, or a value defined by an instruction of `pre`. -/
def Above (f : Func) (pre : List InstrId) (v : Value) : Prop :=
  (∃ no < f.args.length, v = .arg no) ∨ ∃ j ∈ pre, v = .instr j ∧ (f.instr j).ty ≠ .void

/-- The generator in front of an instruction, after those of `pre`. -/
structure Inv (f : Func) (regs : Value → Option RegRef) (pre : List InstrId) (s : St) : Prop where
  mapped : ∀ v r, regs v = some r → s.regMapping v = some r
  unmapped : ∀ v, regs v = none → (∀ no, v ≠ .arg no) → s.regMapping v = none
  pool : ∀ r ∈ s.freeRegs, r.f = false → r ∈ intRegs
  taken : ∀ v r, Above f pre v → regs v = some r → r.reg ∉ s.freeRegs
  fresh : ∀ v r, Above f pre v → regs v = some r → valueType f v = .int32 → s.fresh r.reg = true

theorem Inv.clear {pre : List InstrId} {s : St} (h : Inv f regs pre s) :
    Inv f regs pre { s with ss := [] } := ⟨h.mapped, h.unmapped, h.pool, h.taken, h.fresh⟩

theorem Inv.kept {pre : List InstrId} {s s' : St} (h : Inv f regs pre s) (hk : Kept s s') :
    Inv f regs pre s' := by
  refine ⟨?_, ?_, ?_, ?_, ?_⟩
  · rw [hk.regMapping]
    exact h.mapped
  · rw [hk.regMapping]
    exact h.unmapped
  · rw [hk.freeRegs]
    exact h.pool
  · rw [hk.freeRegs]
    exact h.taken
  · rw [hk.fresh]
    exact h.fresh

theorem above_append {pre : List InstrId} {i : InstrId} {v : Value} (h : Above f (pre ++ [i]) v) :
    Above f pre v ∨ v = .instr i ∧ (f.instr i).ty ≠ .void := by
  rcases h with h | ⟨j, hj, rfl, hty⟩
  · exact Or.inl (Or.inl h)
  · rcases List.mem_append.mp hj with hj | hj
    · exact Or.inl (Or.inr ⟨j, hj, rfl, hty⟩)
    · obtain rfl := List.mem_singleton.mp hj
      exact Or.inr ⟨rfl, hty⟩

/-- **The generator keeps the invariant.** -/
theorem Inv.step {pre : List InstrId} {i : InstrId} {s s' : St} (h : Inv f regs pre s)
    (hx : WellTyped f (f.instr i)) (hcalls : hasFcalls f = false)
    (hi : genInstr f i { s with ss := [] } = .ok s') : Inv f regs (pre ++ [i]) s' := by
  rcases genInstr_defines hi hx hcalls with ⟨hty, hk⟩ | ⟨-, d, hd, hdef⟩
  · have hk' := h.clear.kept hk
    refine ⟨hk'.mapped, hk'.unmapped, hk'.pool, fun v r hv => ?_, fun v r hv => ?_⟩
    · exact hk'.taken v r ((above_append hv).resolve_right fun he => he.2 hty)
    · exact hk'.fresh v r ((above_append hv).resolve_right fun he => he.2 hty)
  · have hown : ∀ r, regs (.instr i) = some r → r = d := fun r hr =>
      Option.some.inj ((h.mapped _ r hr).symm.trans hd)
    refine ⟨?_, ?_, ?_, ?_, ?_⟩
    · rw [hdef.regMapping]
      exact h.mapped
    · rw [hdef.regMapping]
      exact h.unmapped
    · intro r hr
      exact h.pool r ((hdef.freeRegs r).mp hr).1
    · intro v r hv hr hfree
      obtain ⟨hfree, hne⟩ := (hdef.freeRegs _).mp hfree
      rcases above_append hv with hv | ⟨rfl, -⟩
      · exact h.taken v r hv hr hfree
      · exact hne (by rw [hown r hr])
    · intro v r hv hr hty
      rw [hdef.fresh]
      rcases above_append hv with hv | ⟨rfl, -⟩
      · have hfr := h.fresh v r hv hr hty
        split_ifs
        · by_cases hrd : r.reg = d.reg
          · rw [hrd, Function.update_self]
          · rw [Function.update_of_ne hrd]
            exact hfr
        · exact hfr
      · have hti : (f.instr i).ty = .int32 := hty
        rw [if_pos (by simpa using hti), hown r hr, Function.update_self]

/-! ## The prologue -/

/-- What the loops over the arguments in `gen_function` leave. -/
structure ArgsErased (l : List Value) (s s' : St) : Prop where
  regAt : ∀ v, s'.regAt v = s.regAt v
  mapped : ∀ v r, s.regMapping v = some r → s'.regMapping v = some r
  other : ∀ v, v ∉ l → s'.regMapping v = s.regMapping v
  freeRegs : ∀ q, q ∈ s'.freeRegs ↔ q ∈ s.freeRegs ∧ ∀ v ∈ l, q ≠ (s.regAt v).reg

theorem touchReg_regAt (s : St) (v w : Value) : (s.touchReg v).regAt w = s.regAt w := by
  by_cases h : w = v
  · rw [h]
    simp [St.regAt, St.touchReg]
  · simp [St.regAt, St.touchReg, h]

theorem eraseArgs (l : List Value) (s : St) :
    ArgsErased l s (l.foldl St.eraseArg s) := by
  induction l generalizing s with
  | nil => exact ⟨fun _ => rfl, fun _ _ h => h, fun _ _ => rfl, fun q => by simp⟩
  | cons a l ih =>
    rw [List.foldl_cons]
    have h := ih (s.eraseArg a)
    have hat : ∀ v, (s.eraseArg a).regAt v = s.regAt v := touchReg_regAt s a
    refine ⟨fun v => (h.regAt v).trans (hat v), fun v r hv => h.mapped v r ?_, fun v hv => ?_,
      fun q => ?_⟩
    · by_cases hva : v = a
      · subst hva
        simp [St.eraseArg, St.touchReg, St.regAt, hv]
      · simp [St.eraseArg, St.touchReg, hva, hv]
    · have hva : v ≠ a := fun he => hv (he ▸ List.mem_cons_self)
      rw [h.other v fun hvl => hv (List.mem_cons_of_mem _ hvl)]
      simp [St.eraseArg, St.touchReg, hva]
    · rw [h.freeRegs]
      simp only [hat, List.forall_mem_cons]
      exact (and_congr_left' (St.mem_erase _)).trans and_assoc

/-- The second loop marks the arguments. -/
theorem freshArgs (l : List Value) (s : St) :
    (l.foldl St.freshArg s).regMapping = s.regMapping ∧
      (l.foldl St.freshArg s).freeRegs = s.freeRegs ∧
        ∀ r, (s.fresh r = true ∨ ∃ v ∈ l, (s.regAt v).reg = r) →
          (l.foldl St.freshArg s).fresh r = true := by
  induction l generalizing s with
  | nil => exact ⟨rfl, rfl, fun r hr => hr.resolve_right (by simp)⟩
  | cons a l ih =>
    rw [List.foldl_cons]
    obtain ⟨hreg, hfree, hfresh⟩ := ih (s.freshArg a)
    refine ⟨hreg, hfree, fun r hr => hfresh r ?_⟩
    by_cases hra : r = (s.regAt a).reg
    · exact Or.inl (by rw [hra]; simp [St.freshArg, St.setFresh])
    · rcases hr with hr | ⟨v, hv, hvr⟩
      · exact Or.inl (by simp [St.freshArg, St.setFresh, hra, hr])
      · rcases List.mem_cons.mp hv with rfl | hv
        · exact absurd hvr.symm hra
        · exact Or.inr ⟨v, hv, hvr⟩

/-- The generator at the start of the text. -/
theorem initState_inv {s : St} (hregs : s.regMapping = regs) : Inv f regs [] (initState f s) := by
  set argv := (List.range f.args.length).map Value.arg with hargv
  have hmem : ∀ no, no < f.args.length → Value.arg no ∈ argv := fun no hno =>
    List.mem_map.mpr ⟨no, List.mem_range.mpr hno, rfl⟩
  unfold initState
  dsimp only
  set s₀ : St := { s with
    freeRegs := ftemps.foldl insertReg (temps.foldl insertReg (fargs.foldl insertReg
      (args.foldl insertReg [])))
    fresh := fun r => if 0 ≤ r.id ∧ r.id < 32 then false else s.fresh r
    ss := [] } with hs₀
  have herase := eraseArgs argv s₀
  set s₁ := argv.foldl St.eraseArg s₀
  obtain ⟨hreg, hfree, hfresh⟩ := freshArgs argv s₁
  have hat : ∀ v r, regs v = some r → s₀.regAt v = r := fun v r hv => by
    simp [St.regAt, hs₀, hregs, hv]
  have hclosed : ∀ r ∈ ftemps.foldl insertReg (temps.foldl insertReg (fargs.foldl insertReg
      (args.foldl insertReg []))), r.f = false → r ∈ intRegs := by decide
  have hpool : ∀ r ∈ s₀.freeRegs, r.f = false → r ∈ intRegs := hclosed
  refine ⟨fun v r hv => ?_, fun v hv hne => ?_, fun r hr => ?_, fun v r hv hr => ?_,
    fun v r hv hr _ => ?_⟩
  · rw [hreg]
    exact herase.mapped v r (by rw [← hv, ← hregs])
  · have hnot : v ∉ argv := fun hin => by
      obtain ⟨no, -, he⟩ := List.mem_map.mp hin
      exact hne no he.symm
    rw [hreg, herase.other v hnot, ← hv, ← hregs]
  · rw [hfree, herase.freeRegs] at hr
    exact hpool r hr.1
  · rcases hv with ⟨no, hno, rfl⟩ | ⟨j, hj, -⟩
    · rw [hfree, herase.freeRegs]
      intro hfr
      exact hfr.2 _ (hmem no hno) (by rw [hat _ _ hr])
    · cases hj
  · rcases hv with ⟨no, hno, rfl⟩ | ⟨j, hj, -⟩
    · refine hfresh r.reg (Or.inr ⟨_, hmem no hno, ?_⟩)
      rw [herase.regAt, hat _ _ hr]
    · cases hj

/-- The frame has room for the offsets of the prologue. -/
def FrameFits (s : St) : Prop := 0 ≤ s.stackSize ∧ s.stackSize ≤ 2047

theorem foldl_keeps {α : Type} (g : St → α) (next : St → Value → St)
    (h : ∀ s v, g (next s v) = g s) (l : List Value) (s : St) : g (l.foldl next s) = g s := by
  induction l generalizing s with
  | nil => rfl
  | cons a l ih => rw [List.foldl_cons, ih, h]

theorem initState_members (s : St) :
    (initState f s).stackSize = s.stackSize ∧ (initState f s).ss = [] := by
  unfold initState
  dsimp only
  constructor
  · rw [foldl_keeps St.stackSize St.freshArg fun _ _ => rfl,
      foldl_keeps St.stackSize St.eraseArg fun _ _ => rfl]
  · rw [foldl_keeps St.ss St.freshArg fun _ _ => rfl, foldl_keeps St.ss St.eraseArg fun _ _ => rfl]

/-- **The prologue** of a function without calls writes `sp` and `s0` only. -/
theorem prologue_runs {keys : List Value} {s s₁ : St} {T : Text} (h : Prologue f keys s T s₁)
    (hcalls : hasFcalls f = false) (hregs : s.regMapping = regs) (hfits : FrameFits s)
    (m : Riscv.State Reg W) :
    Inv f regs [] s₁ ∧ ∃ m₁, t.machine.run T.prologue m = .next m₁ ∧
      ∀ r ∈ intRegs, m₁.regs r = m.regs r := by
  obtain ⟨h, hT⟩ := h
  obtain ⟨hlow, hhigh⟩ := hfits
  have hinv : Inv f regs [] (initState f s) := initState_inv hregs
  obtain ⟨hsize, hss⟩ := initState_members (f := f) s
  set s₀ : St := { initState f s with s0Offset := fun _ => none } with hs₀
  have hinv₀ : Inv f regs [] s₀ := ⟨hinv.mapped, hinv.unmapped, hinv.pool, hinv.taken, hinv.fresh⟩
  have hsize₀ : s₀.stackSize = s.stackSize := hsize
  rw [allocateStack, if_neg (by simp [hcalls])] at h
  obtain ⟨s₂, h₂, h⟩ := bind_ok.mp h
  obtain ⟨s₃, h₃, h⟩ := bind_ok.mp h
  obtain ⟨s₄, h₄, h⟩ := bind_ok.mp h
  rw [if_neg (by simp [hcalls])] at h
  cases h
  rw [saveFrame, if_neg (by simp [hcalls])] at h₃
  have hk₂ := print_kept h₂
  have hk₃ := print_kept h₃
  have hk₄ := print_kept h₄
  refine ⟨hinv₀.kept (hk₂.trans (hk₃.trans hk₄)), ?_⟩
  have hr₀ : Runs t m s₀ m := by
    rw [Runs, hs₀, hss]
    rfl
  have hr₂ := addi_runs h₂ hr₀ rfl rfl (by simp only [isImm, hsize₀]; simp; omega)
  have hsize₂ : s₂.stackSize = s.stackSize := hk₂.stackSize.trans hsize₀
  obtain ⟨-, rfl⟩ := print_line h₃
  have hacc : t.machine.accepts
      (.store .double s0.reg (s₂.stackSize - 8) sp.reg : Code) = true := by
    simp [Riscv.Machine.accepts, Riscv.isImm12, hsize₂, s0, sp]
    omega
  have hr₃ := hr₂.put hacc rfl
  have hsize₃ := hk₃.stackSize.trans hsize₂
  have hr₄ := addi_runs h₄ hr₃ rfl rfl (by simp only [isImm, hsize₃]; simp; omega)
  refine ⟨_, by rw [hT]; exact hr₄, fun r hr => ?_⟩
  obtain ⟨-, -, hsp, hs0, -⟩ := intRegs_spec hr
  rw [Riscv.State.set_regs, Function.update_of_ne hs0]
  simp only [Riscv.State.set_regs]
  rw [Function.update_of_ne hsp]

/-! ## One step -/

/-- The text, piece by piece, with what the generator knew in front of each. -/
def Emitted (f : Func) (regs : Value → Option RegRef) (T : Text) : Prop :=
  ∀ b ∈ f.blocks, ∀ k i, (f.body b)[k]? = some i → ∃ pre post s₂ s₃,
    f.instrs = pre ++ i :: post ∧ Inv f regs pre s₂ ∧
      genInstr f i { s₂ with ss := [] } = .ok s₃ ∧ T.piece b k = some s₃.ss

theorem genFunction_emitted (hf : InScope f) {keys : List Value} {s s' : St} {T : Text}
    (h : genFunction f keys s = .ok (T, s')) (hregs : s.regMapping = regs) (hfits : FrameFits s)
    (t : Target W) (m : Riscv.State Reg W) :
    Emitted f regs T ∧ ∃ m₁, t.machine.run T.prologue m = .next m₁ ∧
      ∀ r ∈ intRegs, m₁.regs r = m.regs r := by
  obtain ⟨s₁, hpro, hpieces⟩ := genFunction_piece h hf.nodup
  obtain ⟨hinv, hrun⟩ := prologue_runs (t := t) hpro hf.no_calls hregs hfits m
  refine ⟨fun b hb k i hk => ?_, hrun⟩
  obtain ⟨pre, post, s₂, s₃, hsplit, hup, hgen, hpiece⟩ := hpieces b hb k i hk
  refine ⟨pre, post, s₂, s₃, hsplit, ?_, hgen, hpiece⟩
  refine hup.induct hinv fun pre' j s₄ s₅ hj hinv' hj' => hinv'.step (hf.typed j ?_) hf.no_calls hj'
  rw [hsplit]
  exact List.mem_append_left _ hj

variable {undef : BitVec 32} {argv : Nat → BitVec 32}

/-- A constant stands for its value. -/
theorem const_eval {v : Value} {c : Int} (h : asConstantInt v = some c)
    (st : State (BitVec 32) Unit) :
    BitVec.ofInt 64 c = Riscv.sext (Func.eval (intMachine undef argv) st v) := by
  cases v with
  | int32 x =>
    obtain rfl := Option.some.inj h
    rw [← Riscv.sext_ofInt (Riscv.fits_toInt x), BitVec.ofInt_toInt]
    rfl
  | int1 b =>
    obtain rfl := Option.some.inj h
    cases b <;> rfl
  | _ => simp [asConstantInt] at h

theorem execInstr_bin {i : InstrId} {o : Riscv.Op} {a b : Value} {st st' : State (BitVec 32) Unit}
    (hop : binOp (f.instr i).op = some o) (hops : (f.instr i).operands = [a, b])
    (h : f.execInstr (intMachine undef argv) i st = some st') :
    (o = .div → Func.eval (intMachine undef argv) st b ≠ 0) ∧
      st' = Func.setReg st i (o.eval32 (Func.eval (intMachine undef argv) st a)
        (Func.eval (intMachine undef argv) st b)) := by
  cases hkind : (f.instr i).op <;> simp only [hkind, binOp, reduceCtorEq, Option.some.injEq] at hop
  all_goals subst hop
  case add | sub | mul =>
    refine ⟨(fun h => by cases h), ?_⟩
    simp only [Func.execInstr, hkind, OpID.isPure, if_true, hops, List.map_cons, List.map_nil] at h
    rw [← Option.some.inj h]
    simp only [Riscv.Op.eval32_add, Riscv.Op.eval32_sub, Riscv.Op.eval32_mul]
    rfl
  case sdiv =>
    simp only [Func.execInstr, hkind, OpID.isPure, Bool.false_eq_true, if_false, Func.execEffect,
      hops, List.map_cons, List.map_nil] at h
    obtain ⟨r, hr, rfl⟩ := Option.map_eq_some_iff.mp h
    by_cases hz : Func.eval (intMachine undef argv) st b = 0
    · exact absurd (show (none : Option (BitVec 32 × Unit)) = some r from (if_pos hz).symm.trans hr)
        (by simp)
    · obtain rfl := Option.some.inj ((if_neg hz).symm.trans hr)
      rw [Riscv.Op.eval32_div]
      exact ⟨fun _ => hz, rfl⟩

theorem execInstr_cmp {i : InstrId} {a b : Value} {st st' : State (BitVec 32) Unit}
    (hop : (f.instr i).op = .cmp) (hops : (f.instr i).operands = [a, b])
    (h : f.execInstr (intMachine undef argv) i st = some st') :
    st' = Func.setReg st i (if compare (f.instr i).cmpOp (Func.eval (intMachine undef argv) st a)
      (Func.eval (intMachine undef argv) st b) then 1 else 0) := by
  simp only [Func.execInstr, hop, OpID.isPure, if_true, hops, List.map_cons, List.map_nil] at h
  exact (Option.some.inj h).symm

theorem execInstr_zext {i : InstrId} {a : Value} {st st' : State (BitVec 32) Unit}
    (hop : (f.instr i).op = .zext) (hops : (f.instr i).operands = [a])
    (h : f.execInstr (intMachine undef argv) i st = some st') :
    st' = Func.setReg st i (Func.eval (intMachine undef argv) st a) := by
  simp only [Func.execInstr, hop, OpID.isPure, if_true, hops, List.map_cons, List.map_nil] at h
  exact (Option.some.inj h).symm

/-- Corresponding points of the two runs. -/
structure Linked (f : Func) (M : Machine (BitVec 32) Unit) (regs : Value → Option RegRef)
    (c : Conf) (d : CodeConf W) : Prop where
  agree : Agree f M regs c d
  mem : c.block ∈ f.blocks
  bool : ∀ j, Current f (.instr j) c.block c.index → (f.instr j).ty = .int1 →
    c.st.regs j = 0 ∨ c.st.regs j = 1

section Step

variable {c : Conf} {d : CodeConf W} {i : InstrId} {pre post : List InstrId} {s s' : St}

/-- An operand is read from where it is. -/
theorem Linked.operand (h : Linked f (intMachine undef argv) regs c d) (hf : InScope f)
    (ha : Allocated f regs) (hi : (f.body c.block)[c.index]? = some i)
    (hm : Meets f (intMachine undef argv) regs c i) (hsplit : f.instrs = pre ++ i :: post)
    (hinv : Inv f regs pre s) {v : Value} {ty : Ty} (hv : v ∈ (f.instr i).operands)
    (ht : Typed f ty v) (hty : ty = .int32 ∨ ty = .int1) :
    Operand f { s with ss := [] } v ∧
      valueIn s d.st v = Riscv.sext (Func.eval (intMachine undef argv) c.st v) := by
  have hlive : LiveAt f v c.block c.index := .use hi hv
  cases hc : asConstantInt v with
  | some x =>
    refine ⟨.const hc (hm.loads.1 v hv x hc), ?_⟩
    simp only [valueIn, hc]
    exact const_eval hc c.st
  | none =>
    have hmem := Func.mem_instrs h.mem (List.mem_of_getElem? hi)
    have hkind : (∃ no, v = .arg no ∧ no < f.args.length ∧ f.names v ≠ "") ∨
        ∃ j, v = .instr j ∧ f.names v ≠ "" := by
      obtain ⟨-, ht⟩ := ht
      cases v with
      | arg no => exact Or.inl ⟨no, rfl, ht.2⟩
      | instr j => exact Or.inr ⟨j, rfl, ht.2⟩
      | int32 | int1 => simp [asConstantInt] at hc
      | fp | zero | global | function | block => exact ht.elim
    have hblock : v.asBlock = none := by
      rcases hkind with ⟨no, rfl, -⟩ | ⟨j, rfl, -⟩ <;> rfl
    obtain ⟨r, hr⟩ := ha.used i hmem v hv hc hblock
    have hmap := hinv.mapped v r hr
    have hname : nameOf f v ≠ "" := by
      rcases hkind with ⟨no, rfl, -, hn⟩ | ⟨j, rfl, hn⟩
      · exact hn
      · exact hn
    have hgep : asGep f v = none := by
      rcases hkind with ⟨no, rfl, -⟩ | ⟨j, rfl, -⟩
      · rfl
      · have hj := hf.typed j ht.2.1
        cases hj with
        | bin hop =>
          refine if_neg fun hg => ?_
          simp [hg, binOp] at hop
        | cmp hop | zext hop | jump hop | cond hop | retVoid hop | ret hop =>
          exact if_neg (by rw [hop]; decide)
    have habove : Above f pre v := by
      rcases hkind with ⟨no, rfl, hno, -⟩ | ⟨j, rfl, -⟩
      · exact Or.inl ⟨no, hno, rfl⟩
      · obtain ⟨pre', post', hsplit', hj⟩ := hm.laid.above j hlive
        exact Or.inr ⟨j, hf.split_unique hsplit' hsplit ▸ hj, rfl, hf.live_ty h.mem hlive⟩
    refine ⟨.reg hc hname hgep hmap (ha.reg v r hr).1 (ha.reg v r hr).2 ?_, ?_⟩
    · rcases hty with rfl | rfl
      · exact Or.inl (hinv.fresh v r habove hr ht.1)
      · exact Or.inr (by rw [ht.1]; rfl)
    · rw [valueIn_reg hc hmap]
      exact h.agree.regs v r hr (Or.inl hlive)

/-- The register of a value is the one the allocator gave it. -/
theorem Inv.dest (hinv : Inv f regs pre s) {r : RegRef} (hr : s.regMapping (.instr i) = some r) :
    regs (.instr i) = some r := by
  cases hreg : regs (.instr i) with
  | none => rw [hinv.unmapped _ hreg fun no => by simp] at hr; cases hr
  | some r' => rw [← hinv.mapped _ r' hreg, hr]

theorem Inv.const (hinv : Inv f regs pre s) (ha : Allocated f regs) {v : Value}
    (hv : asConstantInt v ≠ none) : s.regMapping v = none := by
  have hshape : (∀ no, v ≠ .arg no) ∧ ∀ i, v ≠ .instr i := by
    cases v <;> simp_all [asConstantInt]
  refine hinv.unmapped v ?_ hshape.1
  cases hreg : regs v with
  | none => rfl
  | some r =>
    rcases ha.value v r hreg with ⟨no, -, he⟩ | ⟨j, -, he⟩
    · exact absurd he (hshape.1 no)
    · exact absurd he (hshape.2 j)

/-- A second operand does not stand in the register of the result. -/
theorem Inv.second (hinv : Inv f regs pre s) (ha : Allocated f regs) {x y : Value} {r : RegRef}
    (hi : i ∈ f.instrs) (hl : Laid f regs c.block c.index i) (hops : (f.instr i).operands = [x, y])
    (hr : regs (.instr i) = some r) (hy : y.asBlock = none) :
    ∀ q, s.regMapping y = some q → q.reg ≠ r.reg ∨ y = x := by
  intro q hq
  cases hc : asConstantInt y with
  | some n =>
    rw [hinv.const ha (by simp [hc])] at hq
    cases hq
  | none =>
    obtain ⟨q', hq'⟩ := ha.used i hi y (by simp [hops]) hc hy
    obtain rfl : q' = q := Option.some.inj ((hinv.mapped y q' hq').symm.trans hq)
    exact hl.second x y q' r hops hq' hr

theorem Typed.asBlock {ty : Ty} {v : Value} (h : Typed f ty v) : v.asBlock = none := by
  cases v with
  | block b => exact h.2.elim
  | _ => rfl

/-- **An instruction computes its value** into its register. -/
theorem Linked.value_runs (h : Linked f (intMachine undef argv) regs c d) (hf : InScope f)
    (ha : Allocated f regs) (hi : (f.body c.block)[c.index]? = some i)
    (hm : Meets f (intMachine undef argv) regs c i) (hsplit : f.instrs = pre ++ i :: post)
    (hinv : Inv f regs pre s) (hgen : genInstr f i { s with ss := [] } = .ok s')
    (hterm : (f.instr i).isTerminator = false) {st' : State (BitVec 32) Unit}
    (hst : f.execInstr (intMachine undef argv) i c.st = some st') :
    ∃ r m' x, regs (.instr i) = some r ∧ t.machine.run s'.ss d.st = .next m' ∧
      Writes { s with ss := [] } r.reg d.st m' ∧ st' = Func.setReg c.st i x ∧ m'.regs r.reg = Riscv.sext x ∧
        ((f.instr i).ty = .int1 → x = 0 ∨ x = 1) := by
  have hmem := Func.mem_instrs h.mem (List.mem_of_getElem? hi)
  have hx := hf.typed i hmem
  have hcalls := hf.no_calls
  have hr₀ : Runs t d.st { s with ss := [] } d.st := rfl
  have hpool := hinv.pool
  have hterm' : (f.instr i).op ≠ .br ∧ (f.instr i).op ≠ .ret := by
    simpa [Instr.isTerminator] using hterm
  have hoperand {v : Value} {ty : Ty} (hv : v ∈ (f.instr i).operands) (ht : Typed f ty v)
      (hty : ty = .int32 ∨ ty = .int1) := h.operand hf ha hi hm hsplit hinv hv ht hty
  rcases genInstr_defines hgen hx hcalls with ⟨hvoid, -⟩ | ⟨-, r, hr, -⟩
  · cases hx with
    | bin _ _ _ _ hty | cmp _ _ _ _ hty | zext _ _ _ hty => simp [hty] at hvoid
    | jump hop | cond hop => exact absurd hop hterm'.1
    | retVoid hop | ret hop => exact absurd hop hterm'.2
  · have hreg := hinv.dest hr
    obtain ⟨hint, hd⟩ := ha.reg _ r hreg
    cases hx with
    | @bin o x y hop hops htx hty hres =>
      obtain ⟨hox, hvx⟩ := hoperand (by simp [hops]) htx (Or.inl rfl)
      obtain ⟨hoy, hvy⟩ := hoperand (by simp [hops]) hty (Or.inl rfl)
      have hbin : binInst f i (f.instr i).op false { s with ss := [] } = .ok s' := by
        unfold genInstr at hgen
        cases hkind : (f.instr i).op <;>
          simp only [hkind, binOp, reduceCtorEq] at hop hgen ⊢ <;> exact hgen
      obtain ⟨hdiv, rfl⟩ := execInstr_bin hop hops hst
      have hneg : (f.instr i).op = .sub → asConstantInt y ≠ some (-2048) := fun hsub =>
        hm.loads.2 hsub y (by simp [hops])
      obtain ⟨m', hrun, hw, hval⟩ := binInst_runs hop hops hbin hr₀ hcalls hr hox hoy hint hd
        (hinv.second ha hmem hm.laid hops hreg hty.asBlock) (hinv.const ha) hpool hneg
      refine ⟨r, m', _, hreg, hrun, hw, rfl, ?_, fun h1 => by simp [hres] at h1⟩
      rw [hval]
      refine (congrArg₂ _ hvx hvy).trans ?_
      exact (Riscv.Op.eval_sext_iff o _ hdiv).mpr (hm.noWrap o x y hop hops)
    | @cmp x y hop hops htx hty hres =>
      obtain ⟨hox, hvx⟩ := hoperand (by simp [hops]) htx (Or.inl rfl)
      obtain ⟨hoy, hvy⟩ := hoperand (by simp [hops]) hty (Or.inl rfl)
      simp only [genInstr, hop, hops] at hgen
      obtain rfl := execInstr_cmp hop hops hst
      obtain ⟨m', hrun, hw, hval⟩ := icmp_runs hgen hr₀ hcalls hr hox hoy hint hd
        (hinv.second ha hmem hm.laid hops hreg hty.asBlock) (hinv.const ha) hpool hvx hvy
      refine ⟨r, m', _, hreg, hrun, hw, rfl, hval, fun _ => ?_⟩
      split_ifs
      · exact Or.inr rfl
      · exact Or.inl rfl
    | @zext x hop hops htx hres =>
      obtain ⟨hox, hvx⟩ := hoperand (by simp [hops]) htx (Or.inr rfl)
      simp only [genInstr, hop, hops] at hgen
      obtain rfl := execInstr_zext hop hops hst
      have hbool : Func.eval (intMachine undef argv) c.st x = 0 ∨
          Func.eval (intMachine undef argv) c.st x = 1 := by
        cases x with
        | int1 b => cases b <;> simp [Func.eval, intMachine]
        | instr j => exact h.bool j (Or.inl (.use hi (by simp [hops]))) htx.1
        | arg no => exact absurd htx.2.1 (by decide)
        | int32 v => exact absurd htx.1 (by simp [valueType])
        | fp | zero | global | function | block => exact htx.2.elim
      obtain ⟨m', hrun, hw, hval⟩ := sext_runs hgen hr₀ hcalls hr hox hint hd hvx hbool
      exact ⟨r, m', _, hreg, hrun, hw, rfl, hval, fun h1 => by simp [hres] at h1⟩
    | jump hop | cond hop => exact absurd hop hterm'.1
    | retVoid hop | ret hop => exact absurd hop hterm'.2

/-- A jump reaches a successor. -/
theorem InScope.terminator (hf : InScope f) {b : BlockId} {k : Nat} (hb : b ∈ f.blocks)
    (hi : (f.body b)[k]? = some i) (hterm : (f.instr i).isTerminator = true) :
    k + 1 = (f.body b).length ∧ i = f.termOf b := by
  obtain ⟨hbody, hlast, hinit⟩ := hf.terminated b hb
  have hnodup : (f.initOf b).length + 1 = (f.body b).length := by
    conv_rhs => rw [hbody]
    simp
  have hk : k < (f.body b).length := (List.getElem?_eq_some_iff.mp hi).1
  rw [hbody] at hi
  by_cases hlt : k < (f.initOf b).length
  · rw [List.getElem?_append_left hlt] at hi
    have := hinit i (List.mem_of_getElem? hi)
    rw [hterm] at this
    cases this
  · have hk' : k = (f.initOf b).length := by omega
    subst hk'
    refine ⟨hnodup, ?_⟩
    simpa using hi.symm

/-- **A branch goes the same way.** -/
theorem Linked.branch_runs (h : Linked f (intMachine undef argv) regs c d) (hf : InScope f)
    (ha : Allocated f regs) (hi : (f.body c.block)[c.index]? = some i)
    (hinv : Inv f regs pre s) (hgen : genInstr f i { s with ss := [] } = .ok s')
    (hterm : (f.instr i).isTerminator = true) {b : BlockId} {st' : State (BitVec 32) Unit}
    (hst : Func.execTerminator (intMachine undef argv) (f.instr i) c.st = .jump b st') :
    st' = c.st ∧ b ∈ (f.instr i).targets ∧ t.machine.run s'.ss d.st = .jump (some b) d.st := by
  have hmem := Func.mem_instrs h.mem (List.mem_of_getElem? hi)
  cases hf.typed i hmem with
  | bin hop =>
    cases hkind : (f.instr i).op <;> simp_all [binOp, Instr.isTerminator]
  | cmp hop | zext hop => simp [Instr.isTerminator, hop] at hterm
  | retVoid hop | ret hop => simp [Func.execTerminator, hop] at hst
  | @jump a hop hops =>
    simp only [Func.execTerminator, hop, hops, Value.asBlock, reduceCtorEq, if_false,
      BlockEnd.jump.injEq] at hst
    simp only [genInstr, hop] at hgen
    obtain ⟨rfl, rfl⟩ := hst
    exact ⟨rfl, by simp [Instr.targets, hop, hops, Value.asBlock],
      branch_jump_runs hops hgen rfl⟩
  | @cond v a e hop hops hv =>
    simp only [Func.execTerminator, hop, hops, Value.asBlock, reduceCtorEq, if_false,
      BlockEnd.jump.injEq] at hst
    simp only [genInstr, hop] at hgen
    obtain ⟨hb, rfl⟩ := hst
    have hlive : LiveAt f v c.block c.index := .use hi (by simp [hops])
    have hconst : asConstantInt v = none := by
      cases hc : asConstantInt v with
      | none => rfl
      | some n =>
        unfold branch at hgen
        simp [hops, hinv.const ha (show asConstantInt v ≠ none by simp [hc])] at hgen
    obtain ⟨r, hr⟩ := ha.used i hmem v (by simp [hops]) hconst hv.asBlock
    have hval := h.agree.regs v r hr (Or.inl hlive)
    have hrun := branch_cond_runs (t := t) (m := d.st) hops hgen rfl (hinv.mapped v r hr)
      (ha.reg v r hr).1
    have hzero : d.st.regs r.reg ≠ 0 ↔ (intMachine undef argv).isTrue
        (Func.eval (intMachine undef argv) c.st v) = true := by
      rw [hval]
      have : Riscv.sext (Func.eval (intMachine undef argv) c.st v) = 0 ↔
          Func.eval (intMachine undef argv) c.st v = 0 :=
        Riscv.sext_inj (x := Func.eval (intMachine undef argv) c.st v) (y := 0)
      have htrue : (intMachine undef argv).isTrue (Func.eval (intMachine undef argv) c.st v) = true ↔
          Func.eval (intMachine undef argv) c.st v ≠ 0 := decide_eq_true_iff
      rw [htrue, ne_eq, this]
    refine ⟨rfl, ?_, ?_⟩
    · rw [← hb]
      simp only [Instr.targets, hop, if_true, hops]
      split_ifs <;> simp [Value.asBlock]
    · rw [hrun, ← hb]
      by_cases hne : d.st.regs r.reg ≠ 0
      · rw [if_pos hne, if_pos (hzero.mp hne)]
      · rw [if_neg hne, if_neg (mt hzero.mpr hne)]

end Step

/-- **One step.** -/
theorem Linked.step {c c' : Conf} {d : CodeConf W} {T : Text} (hf : InScope f)
    (ha : Allocated f regs) (hT : Emitted f regs T) (h : Linked f (intMachine undef argv) regs c d)
    (hm : ∀ i, (f.body c.block)[c.index]? = some i → Meets f (intMachine undef argv) regs c i)
    {n : Nat} (hs : step (intMachine undef argv) f n c = .inl c') :
    ∃ d', T.step t n d = .inl d' ∧ Linked f (intMachine undef argv) regs c' d' := by
  cases hi : (f.body c.block)[c.index]? with
  | none => simp [Canonical.step, hi] at hs
  | some i =>
    obtain ⟨pre, post, s, s', hsplit, hinv, hgen, hpiece⟩ := hT _ h.mem _ i hi
    have hmem := Func.mem_instrs h.mem (List.mem_of_getElem? hi)
    have hpiece' : T.piece d.block d.index = some s'.ss := by
      rw [h.agree.block, h.agree.index, hpiece]
    simp only [Canonical.step, hi] at hs
    by_cases hterm : (f.instr i).isTerminator = true
    · rw [if_pos hterm] at hs
      cases hst : Func.execTerminator (intMachine undef argv) (f.instr i) c.st with
      | done o => simp [hst] at hs
      | jump b st' =>
        rw [hst] at hs
        cases hs
        obtain ⟨rfl, hb, hrun⟩ := h.branch_runs (t := t) hf ha hi hinv hgen hterm hst
        obtain ⟨hlen, hlast⟩ := hf.terminator h.mem hi hterm
        have hedge : b ∈ f.succ c.block := hf.targets _ h.mem b (hlast ▸ hb)
        -- what is live at the start of `b` was live in front of the branch
        have hback : ∀ v, Current f v b 0 → v ≠ .instr i → Current f v c.block c.index := by
          rintro v (hv | ⟨j, -, hj, -⟩) hne
          · exact Or.inl (.step hi hne (hlen ▸ .edge hedge hv))
          · omega
        have hnot : ∀ v, Current f v b 0 → v ≠ .instr i := by
          rintro v (hv | ⟨j, -, hj, -⟩) rfl
          · have hty := hf.live_ty (hf.valid.closed _ h.mem _ hedge) hv
            cases hf.typed i hmem with
            | jump _ _ hv | cond _ _ _ hv | retVoid _ _ hv | ret _ _ _ hv => exact hty hv
            | bin hop => cases hkind : (f.instr i).op <;> simp_all [binOp, Instr.isTerminator]
            | cmp hop | zext hop => simp [Instr.isTerminator, hop] at hterm
          · omega
        refine ⟨⟨b, 0, d.st⟩, by simp [Text.step, hpiece', hrun], ⟨rfl, rfl, ?_⟩,
          hf.valid.closed _ h.mem _ hedge, ?_⟩
        · exact fun v r hr hv => h.agree.regs v r hr (hback v hv (hnot v hv))
        · exact fun j hv hty => h.bool j (hback _ hv (hnot _ hv)) hty
    · rw [if_neg hterm] at hs
      cases hst : f.execInstr (intMachine undef argv) i c.st with
      | none => simp [hst] at hs
      | some st' =>
        rw [hst] at hs
        cases hs
        have hmi := hm i hi
        obtain ⟨r, m', x, hr, hrun, hw, rfl, hval, hbool⟩ :=
          h.value_runs (t := t) hf ha hi hmi hsplit hinv hgen (by simpa using hterm) hst
        have hself : Func.eval (intMachine undef argv) (Func.setReg c.st i x) (.instr i) = x := by
          simp [Func.eval]
        have hother : ∀ v, v ≠ .instr i → Func.eval (intMachine undef argv) (Func.setReg c.st i x) v =
            Func.eval (intMachine undef argv) c.st v := by
          intro v hv
          cases v with
          | instr j =>
            have hj : j ≠ i := fun he => hv (he ▸ rfl)
            simp [Func.eval, hj]
          | _ => rfl
        have hnext : ∀ v, Current f v c.block (c.index + 1) →
            v = .instr i ∨ v ≠ .instr i ∧ LiveAt f v c.block (c.index + 1) := by
          rintro v (hv | ⟨j, i', hj, hi', rfl⟩)
          · by_cases hvi : v = .instr i
            · exact Or.inl hvi
            · exact Or.inr ⟨hvi, hv⟩
          · obtain rfl : j = c.index := by omega
            rw [hi] at hi'
            exact Or.inl (by rw [Option.some.inj hi'])
        refine ⟨⟨d.block, d.index + 1, m'⟩, by simp [Text.step, hpiece', hrun],
          ⟨h.agree.block, by simp [h.agree.index], ?_⟩, h.mem, ?_⟩
        · intro v q hq hv
          rcases hnext v hv with rfl | ⟨hvi, hlive⟩
          · obtain rfl : r = q := Option.some.inj (hr.symm.trans hq)
            rw [hself]
            exact hval
          · have hlive' : LiveAt f v c.block c.index := .step hi hvi hlive
            have hne := hmi.laid.apart v q r hq hr hvi hlive
            have hfree : q.reg ∉ ({ s with ss := [] } : St).freeRegs := by
              refine hinv.taken v q ?_ hq
              rcases ha.value v q hq with hv | ⟨j, -, rfl⟩
              · exact Or.inl hv
              · obtain ⟨pre', post', hsplit', hj⟩ := hmi.laid.above j hlive'
                exact Or.inr ⟨j, hf.split_unique hsplit' hsplit ▸ hj, rfl,
                  hf.live_ty h.mem hlive'⟩
            rw [hother v hvi]
            exact (hw.regs _ hne hfree).trans (h.agree.regs v q hq (Or.inl hlive'))
        · intro j hv hty
          rcases hnext _ hv with he | ⟨hvi, hlive⟩
          · obtain rfl : j = i := by simpa using he
            rw [Func.setReg_regs, Function.update_self]
            exact hbool hty
          · have hj : j ≠ i := fun he => hvi (he ▸ rfl)
            rw [Func.setReg_regs, Function.update_of_ne hj]
            exact h.bool j (Or.inl (.step hi hvi hlive)) hty

/-- **Registers hold sign extensions**: in every run whose steps all meet the condition, whatever
its length, the code stands where the meaning stands, and the register of every value that is live
or has just been computed holds the sign extension of its 32 bits. -/
theorem run_canonical (t : Target W) {keys : List Value} {s s' : St} {T : Text} (hf : InScope f)
    (ha : Allocated f s.regMapping) (hgen : genFunction f keys s = .ok (T, s')) (hfits : FrameFits s)
    {n : Nat} (hmeet : AllMeet f (intMachine undef argv) s.regMapping n) :
    Canonical t f s.regMapping T undef argv n := by
  intro m c harrives hrun
  obtain ⟨hT, m₁, hm₁, hkeep⟩ := genFunction_emitted hf hgen rfl hfits t m
  have hstart : Linked f (intMachine undef argv) s.regMapping (start (intMachine undef argv) f)
      ⟨f.entry, 0, m₁⟩ := by
    have hnone : ∀ j, ¬ Current f (.instr j) f.entry 0 := by
      rintro j (hv | ⟨k, -, hk, -⟩)
      · exact hf.strict j hv
      · omega
    refine ⟨⟨rfl, rfl, fun v r hr hv => ?_⟩, List.mem_cons_self, fun j hv => absurd hv (hnone j)⟩
    rcases ha.value v r hr with ⟨no, hno, rfl⟩ | ⟨j, -, rfl⟩
    · exact (hkeep _ (ha.reg _ r hr).1).trans (harrives no r hno hr)
    · exact absurd hv (hnone j)
  have hsteps : ∀ k u d u', Linked f (intMachine undef argv) s.regMapping u d →
      (∀ i, (f.body u.block)[u.index]? = some i → Meets f (intMachine undef argv) s.regMapping u i) →
        step (intMachine undef argv) f k u = .inl u' →
          ∃ d', T.step t k d = .inl d' ∧ Linked f (intMachine undef argv) s.regMapping u' d' :=
    fun _ _ _ _ hR hQ hs => hR.step hf ha hT hQ hs
  obtain ⟨d, hd, hlinked⟩ := Lockstep.run_simulates _ _ hsteps n 0 _ _ c hstart hmeet hrun
  exact ⟨m₁, d, hm₁, hd, hlinked.agree⟩

/-! ## A sum and a comparison -/

/-- `int sum(int a, int b) { return a + b > a; }`. -/
def sum : Func where
  entry := 0
  rest := []
  pre _ := []
  succ _ := []
  name := "sum"
  retTy := .int32
  args := [.int32, .int32]
  body b := if b = 0 then [0, 1, 2, 3] else []
  instr
    | 0 => { op := .add, ty := .int32, operands := [.arg 0, .arg 1], parent := 0 }
    | 1 => { op := .cmp, ty := .int1, operands := [.instr 0, .arg 0], parent := 0, cmpOp := .GT }
    | 2 => { op := .zext, ty := .int32, operands := [.instr 1], parent := 0 }
    | _ => { op := .ret, ty := .void, operands := [.instr 2], parent := 0 }
  names
    | .arg 0 => "arg0"
    | .arg _ => "arg1"
    | .instr 0 => "op2"
    | .instr 1 => "op3"
    | .instr 2 => "op4"
    | _ => ""

/-- The registers `RegAlloc` gives to the values of `sum`. -/
def sumRegs : Value → Option RegRef
  | .arg 0 => some ⟨⟨10, false⟩, false⟩
  | .arg 1 => some ⟨⟨11, false⟩, false⟩
  | .instr 0 => some ⟨⟨5, false⟩, false⟩
  | .instr 1 => some ⟨⟨6, false⟩, false⟩
  | .instr 2 => some ⟨⟨5, false⟩, false⟩
  | _ => none

def sumState : St where
  regMapping := sumRegs
  stackMapping _ := none
  stackSize := 8

/-- Nothing but arithmetic on integer registers is used. -/
def bare : Target Unit where
  fpu := ⟨fun _ _ _ => 0, fun _ _ _ => false, id, id⟩
  symbol _ := 0
  callee _ st := st

/-- The code of `sum`. -/
def sumText : Text :=
  match genFunction sum [] sumState with
  | .ok r => r.1
  | .error _ => {}

theorem sum_generated : ∃ s', genFunction sum [] sumState = .ok (sumText, s') := by
  have h : (genFunction sum [] sumState).toOption.isSome = true := by decide +kernel
  unfold sumText
  cases hgen : genFunction sum [] sumState with
  | error e => simp [hgen, Except.toOption] at h
  | ok r => exact ⟨r.2, rfl⟩

/-- The values live in front of an instruction of `sum`. -/
def sumLive : Nat → List Value
  | 0 => [.arg 0, .arg 1]
  | 1 => [.instr 0, .arg 0]
  | 2 => [.instr 1]
  | 3 => [.instr 2]
  | _ => []

theorem sum_body {b : BlockId} {k : Nat} {i : InstrId} (h : (sum.body b)[k]? = some i) :
    b = 0 ∧ k < 4 ∧ i = k := by
  by_cases hb : b = 0
  · subst hb
    have hk : k < 4 := (List.getElem?_eq_some_iff.mp h).1
    refine ⟨rfl, hk, ?_⟩
    interval_cases k <;> exact (Option.some.inj h).symm
  · simp [sum, hb] at h

theorem sum_live {v : Value} {b : BlockId} {k : Nat} (h : LiveAt sum v b k) : v ∈ sumLive k := by
  induction h with
  | @use b k i hi hv =>
    obtain ⟨rfl, hk, rfl⟩ := sum_body hi
    interval_cases i <;> exact hv
  | @step b k i hi hne h ih =>
    obtain ⟨rfl, hk, rfl⟩ := sum_body hi
    interval_cases i <;> simp_all [sumLive]
  | edge hs => cases hs

theorem sum_inScope : InScope sum where
  valid := ⟨by decide, by decide, by decide⟩
  nodup := by decide
  terminated := by decide
  typed := by
    have harg : ∀ no < 2, Typed sum .int32 (.arg no) := by
      intro no hno
      interval_cases no <;> exact ⟨rfl, rfl, by decide, by decide⟩
    intro i hi
    have hi : i = 0 ∨ i = 1 ∨ i = 2 ∨ i = 3 := by simpa [Func.instrs, Cfg.blocks, sum] using hi
    rcases hi with rfl | rfl | rfl | rfl
    · exact .bin (o := .add) rfl rfl (harg 0 (by decide)) (harg 1 (by decide)) rfl
    · exact .cmp rfl rfl ⟨rfl, by decide, by decide⟩ (harg 0 (by decide)) rfl
    · exact .zext rfl rfl ⟨rfl, by decide, by decide⟩ rfl
    · exact .ret rfl rfl ⟨rfl, by decide, by decide⟩ rfl
  targets := by decide
  strict i h := by
    have := sum_live h
    simp [sumLive] at this

theorem sum_allocated : Allocated sum sumRegs where
  reg v r h := by
    have : v = .arg 0 ∨ v = .arg 1 ∨ v = .instr 0 ∨ v = .instr 1 ∨ v = .instr 2 := by
      by_contra hne
      unfold sumRegs at h
      split at h <;> simp_all
    rcases this with rfl | rfl | rfl | rfl | rfl <;> cases h <;> decide
  used := by
    have h : ∀ i ∈ sum.instrs, ∀ v ∈ (sum.instr i).operands, asConstantInt v = none →
        v.asBlock = none → (sumRegs v).isSome = true := by decide
    exact fun i hi v hv hc hb => Option.isSome_iff_exists.mp (h i hi v hv hc hb)
  value v r h := by
    unfold sumRegs at h
    split at h
    · exact Or.inl ⟨0, by decide, rfl⟩
    · exact Or.inl ⟨1, by decide, rfl⟩
    · exact Or.inr ⟨0, by decide, rfl⟩
    · exact Or.inr ⟨1, by decide, rfl⟩
    · exact Or.inr ⟨2, by decide, rfl⟩
    · cases h

/-- The arguments on entry. -/
def sumEntry (argv : Nat → BitVec 32) : Riscv.State Reg Unit where
  regs r := if r = ⟨10, false⟩ then Riscv.sext (argv 0) else Riscv.sext (argv 1)
  mem _ := 0
  world := ()

theorem sum_arrives (argv : Nat → BitVec 32) : Arrives sum sumRegs argv (sumEntry argv) := by
  intro no r hno hr
  have hno : no < 2 := hno
  interval_cases no <;> cases hr <;> rfl

/-- What `t0` holds after the addition. -/
def sumRegister (argv : Nat → BitVec 32) : Option Riscv.Word :=
  match bare.machine.run sumText.prologue (sumEntry argv) with
  | .next m =>
    match Lockstep.run (sumText.step bare) 0 1 ⟨0, 0, m⟩ with
    | .inl d => some (d.st.regs ⟨5, false⟩)
    | .inr _ => none
  | _ => none

/-- `INT_MAX + 1 > INT_MAX`: `t0` holds `2147483648`, which is no sign extension, so that the
comparison says yes. -/
theorem sum_not_canonical :
    InScope sum ∧ Allocated sum sumRegs ∧ (∃ s', genFunction sum [] sumState = .ok (sumText, s')) ∧
      ¬ Canonical bare sum sumRegs sumText 0 (fun no => if no = 0 then 2147483647 else 1) 1 := by
  refine ⟨sum_inScope, sum_allocated, sum_generated, fun h => ?_⟩
  obtain ⟨m, d, hm, hd, hagree⟩ := h _ _ (sum_arrives _) rfl
  have hreg : sumRegister (fun no => if no = 0 then 2147483647 else 1) = some 2147483648 := by
    decide +kernel
  rw [sumRegister, hm] at hreg
  simp only [show Lockstep.run (sumText.step bare) 0 1 ⟨0, 0, m⟩ = .inl d from hd,
    Option.some.injEq] at hreg
  have := hagree.regs (.instr 0) _ rfl (Or.inr ⟨0, 0, rfl, rfl, rfl⟩)
  rw [show (⟨⟨5, false⟩, false⟩ : RegRef).reg = ⟨5, false⟩ from rfl, hreg] at this
  revert this
  decide

/-- `run_canonical` on `3 + 4 > 3`. -/
theorem run_canonical_sum :
    Canonical bare sum sumRegs sumText 0 (fun no => if no = 0 then 3 else 4) 3 := by
  obtain ⟨s', hgen⟩ := sum_generated
  refine run_canonical bare sum_inScope sum_allocated hgen ⟨by decide, by decide⟩ ?_
  intro m hm c hc i hi
  have hc' : c.index = m ∧ (m = 0 → c = start (intMachine 0 fun no => if no = 0 then 3 else 4) sum) := by
    interval_cases m <;> cases hc <;> exact ⟨rfl, by simp⟩
  obtain ⟨hindex, hstart⟩ := hc'
  obtain ⟨hb, hk, rfl⟩ := sum_body hi
  refine ⟨?_, ⟨?_, ?_, ?_⟩, ?_⟩
  · interval_cases hki : c.index <;> exact ⟨by decide, by decide⟩
  · intro v r d hr hd hne hlive
    have hregs : ∀ k < 4, ∀ v ∈ sumLive (k + 1), v ≠ .instr k →
        (sumRegs v).map RegRef.reg ≠ (sumRegs (.instr k)).map RegRef.reg := by decide
    have := hregs _ hk v (sum_live hlive) hne
    rw [show sumRegs v = some r from hr, show sumRegs (.instr c.index) = some d from hd] at this
    exact fun he => this (by simp [he])
  · intro x y r d hops hr hd
    have hregs : ∀ k < 4, ∀ y ∈ (sum.instr k).operands.tail,
        (sumRegs y).map RegRef.reg ≠ (sumRegs (.instr k)).map RegRef.reg := by decide
    have := hregs _ hk y (by simp [hops])
    rw [show sumRegs y = some r from hr, show sumRegs (.instr c.index) = some d from hd] at this
    exact Or.inl fun he => this (by simp [he])
  · intro j hlive
    have hlt : ∀ k < 4, ∀ v ∈ sumLive k, ∀ j, v = .instr j → j = k - 1 ∧ 0 < k := by
      intro k hk v hv j hj
      interval_cases k <;> simp_all [sumLive]
    obtain ⟨rfl, hpos⟩ := hlt _ hk _ (sum_live hlive) j rfl
    interval_cases hki : c.index
    · exact ⟨[0], [2, 3], rfl, by decide⟩
    · exact ⟨[0, 1], [3], rfl, by decide⟩
    · exact ⟨[0, 1, 2], [], rfl, by decide⟩
  · intro o a b hop hops
    interval_cases hki : c.index
    · rw [hstart hindex.symm]
      cases hop
      cases hops
      decide
    · cases hop
    · cases hop
    · cases hop

end Cminusfc.Codegen.Canonical
