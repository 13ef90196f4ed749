import Mathlib.Tactic.SplitIfs
import Cminusfc.Lib.Layout
import Cminusfc.Codegen.FloatData
import Cminusfc.Codegen.Spills

/-!
# The stack frame

Offsets in a frame are handed out in three places: `init_func` gives the allocas theirs,
`SpillAtInterval` the spilled values, and `allocate_stack` the registers that are saved around calls.
All of them count `stack_size` up from the words of `ra` and `s0`. `FrameOk` says that no two of these
places meet, that all lie in the frame, and that `fun_epilogue` finds what `fun_prologue` left.

`SpillAtInterval` counts `stack_size` up as the others do, but enters the size of the value and not the
new `stack_size`, so a spilled value lies on the saved words.

Results:
* `initFunc_laid`: the slots of the allocas.
* `allocateStack_reserved`: the register save slots, below them.
* `prologue_effects`, `epilogue_effects`: what is saved is restored.
* `frame_iff`: **the frame is in order exactly when no interval starts while fourteen are open**.

About `src/codegen/regalloc.cpp` 90-147 and 161-175, and `fun_prologue`, `fun_epilogue`,
`allocate_stack` and `push_caller_saved_regs`, `src/codegen/codegen.cpp` 510-557 and 669-680.
-/

namespace Cminusfc.Codegen

open Cminusfc.LightIR
open Fallible (bind_ok)
open Layout (Range Laid)
open RegAlloc (hasFcalls typeOf ValInterval Members Alloc initFunc scanInstr scanBlock scanArgs
  scanInterval expireOldIntervals openAt ByEnd IsIntervals preAllocated)

/-! ## Places -/

/-- What a frame has a place for. -/
inductive Place where
  | ra
  | s0
  | slot (v : Value)
  | save (r : Reg)
  deriving DecidableEq

/-- The size of the stack slot of a value: an alloca has that of what it allocates. -/
def slotSize (f : Func) (v : Value) : Int :=
  match v with
  | .instr i =>
    if (f.instr i).op = .alloca then ((f.instr i).ty.pointerElementType.map Ty.size).getD 0
    else (typeOf f v).size
  | _ => (typeOf f v).size

/-- The words of `ra` and `s0`. -/
def savedSize (f : Func) : Int := if hasFcalls f then 16 else 8

/-- The bytes of the places, counted from `s0`. -/
def places (f : Func) (slots : Value → Option Int) (saves : Reg → Option Range) :
    Place → Option Range
  | .ra => if hasFcalls f then some ⟨-8, 8⟩ else none
  | .s0 => some ⟨-savedSize f, 8⟩
  | .slot v => (slots v).map fun off => ⟨off, slotSize f v⟩
  | .save r => saves r

/-- The size that `allocate_stack` reserves for a register last. -/
def lastSize (f : Func) (regOf : Value → Reg) (keys : List Value) (r : Reg) : Int :=
  ((keys.filter fun v => regOf v = r).getLast?.map (saveSize f)).getD 0

/-- The bytes of the register save slots. -/
def saves (f : Func) (regOf : Value → Reg) (offsets : Reg → Option Int) (keys : List Value)
    (r : Reg) : Option Range :=
  (offsets r).map fun off => ⟨off, lastSize f regOf keys r⟩

/-- The register a value has. -/
def St.regOf (s : St) (v : Value) : Reg := (s.regAt v).reg

section

variable {f : Func}

theorem slotSize_nonneg (f : Func) (v : Value) : 0 ≤ slotSize f v := by
  unfold slotSize
  split
  · split_ifs <;> exact Int.natCast_nonneg _
  · exact Int.natCast_nonneg _

theorem slotSize_eq {v : Value} (h : isAlloca f v = false) : slotSize f v = (typeOf f v).size := by
  unfold slotSize
  split
  · exact if_neg (by simpa [isAlloca] using h)
  · rfl

/-- The words of `ra` and `s0` come first. -/
theorem places_laid (f : Func) :
    Laid (-savedSize f) 0 (places f (fun _ => none) (fun _ => none)) := by
  have hempty : Laid 0 0 (fun _ : Place => none) := .empty (Int.le_refl 0)
  cases hc : hasFcalls f with
  | true =>
    have hlaid := (hempty.push (n := 8) (by decide) .ra).push (n := 8) (by decide) .s0
    have hplaces : places f (fun _ => none) (fun _ => none) = Function.update
        (Function.update (fun _ => none) .ra (some ⟨0 - 8, 8⟩)) .s0 (some ⟨0 - 8 - 8, 8⟩) := by
      funext p
      cases p <;> simp [places, savedSize, hc]
    rw [hplaces, savedSize, if_pos hc]
    exact hlaid
  | false =>
    have hlaid := hempty.push (n := 8) (by decide) .s0
    have hplaces : places f (fun _ => none) (fun _ => none) =
        Function.update (fun _ => none) .s0 (some ⟨0 - 8, 8⟩) := by
      funext p
      cases p <;> simp [places, savedSize, hc]
    rw [hplaces, savedSize, hc]
    exact hlaid

theorem places_slot (slots : Value → Option Int) (saves : Reg → Option Range) (v : Value)
    (off : Int) : places f (Function.update slots v (some off)) saves =
      Function.update (places f slots saves) (.slot v) (some ⟨off, slotSize f v⟩) := by
  funext p
  cases p with
  | slot w =>
    by_cases hw : w = v
    · subst hw
      rw [Function.update_self, places, Function.update_self]
      rfl
    · rw [Function.update_of_ne (by simpa using hw), places, Function.update_of_ne hw]
      rfl
  | ra => rfl
  | s0 => rfl
  | save r => rfl

theorem places_save (slots : Value → Option Int) (saves : Reg → Option Range) (r : Reg)
    (q : Range) : places f slots (Function.update saves r (some q)) =
      Function.update (places f slots saves) (.save r) (some q) := by
  funext p
  cases p with
  | save w =>
    by_cases hw : w = r
    · subst hw
      rw [Function.update_self, places, Function.update_self]
    · rw [Function.update_of_ne (by simpa using hw), places, Function.update_of_ne hw]
      rfl
  | ra => rfl
  | s0 => rfl
  | slot v => rfl

/-! ## The slots of the allocas -/

/-- What the walk of `init_func` keeps. -/
structure AllocasLaid (f : Func) (m : Members) : Prop where
  laid : Laid (-m.stackSize) 0 (places f m.stackMappings (fun _ => none))
  base : savedSize f ≤ m.stackSize
  intervals : ∀ v, (m.val2interval v).isSome = true →
    isAlloca f v = false ∧ asConstantInt v = none ∧ asConstantFP v = none

theorem AllocasLaid.touch {m : Members} (h : AllocasLaid f m) (p : RegAlloc.Point) (v : Value) :
    AllocasLaid f (RegAlloc.touch p m v) := by
  refine { h with intervals := fun w hw => h.intervals w ?_ }
  by_cases hv : w = v
  · subst hv
    simpa [RegAlloc.touch, Members.setInterval] using hw
  · simpa [RegAlloc.touch, Members.setInterval, Function.update_of_ne hv] using hw

theorem AllocasLaid.insert {m : Members} (h : AllocasLaid f m) {v : Value}
    (hv : isAlloca f v = false ∧ asConstantInt v = none ∧ asConstantFP v = none) (iv : RegAlloc.Interval) :
    AllocasLaid f (RegAlloc.insertInterval m v iv) := by
  refine { h with intervals := fun w hw => ?_ }
  by_cases hwv : w = v
  · exact hwv ▸ hv
  · refine h.intervals w ?_
    simpa [RegAlloc.insertInterval, Members.setInterval, Function.update_of_ne hwv] using hw

/-- One instruction: an alloca gets the bytes below all others. -/
theorem AllocasLaid.scanInstr {m : Members} (h : AllocasLaid f m) (p : RegAlloc.Point)
    (i : InstrId) : AllocasLaid f (scanInstr f m p i) := by
  have hrands : ∀ m, AllocasLaid f m →
      AllocasLaid f ((f.instr i).operands.foldl (RegAlloc.touch p) m) := fun m hm =>
    List.foldlRecOn _ _ hm fun m hm v _ => hm.touch p v
  unfold RegAlloc.scanInstr
  dsimp only
  split_ifs with hop hname
  · have hsize : slotSize f (.instr i) =
        (((f.instr i).ty.pointerElementType.map Ty.size).getD 0 : Nat) := if_pos hop
    have hpush := h.laid.push (slotSize_nonneg f (.instr i)) (.slot (.instr i))
    have hneg : ∀ x y : Int, -x - y = -(x + y) := fun x y => by omega
    rw [hneg, ← places_slot, hsize] at hpush
    refine ⟨hpush, ?_, h.intervals⟩
    have := h.base
    dsimp only
    omega
  · exact hrands _ (h.insert ⟨by simpa [isAlloca] using hop, rfl, rfl⟩ _)
  · exact hrands _ h

/-- **The allocas.** -/
theorem initFunc_laid {fuel : Nat} {o : RegAlloc.Order} {m : Members}
    (h : initFunc f fuel = .ok (o, m)) : AllocasLaid f m := by
  have hblock : ∀ m b, AllocasLaid f m → AllocasLaid f (scanBlock f m b) := fun m b hm =>
    List.foldlRecOn _ _ hm fun m hm i _ => hm.scanInstr _ i.1
  have hargs : ∀ m, AllocasLaid f m → AllocasLaid f (scanArgs f m) := fun m hm => by
    refine List.foldlRecOn _ _ hm fun m hm no _ => ?_
    split_ifs
    · exact hm
    · exact hm.insert ⟨rfl, rfl, rfl⟩ _
  unfold RegAlloc.initFunc at h
  split at h
  · cases h
  · cases h
    exact List.foldlRecOn _ _ (hargs _ ⟨places_laid f, Int.le_refl _, nofun⟩)
      fun m hm b _ => hblock m b hm

/-! ## The register save slots -/

/-- What the loop of `allocate_stack` keeps, started on `s₀`, when `done` are the values it has seen. -/
structure Reserved (f : Func) (s₀ : St) (done : List Value) (s : St) : Prop where
  regs : s.regMapping = s₀.regMapping
  laid : Laid (-s.stackSize) 0 (places f s₀.stackMapping (saves f s₀.regOf s.s0Offset done))
  grows : s₀.stackSize ≤ s.stackSize
  caller : ∀ r, (s.s0Offset r).isSome = true → r ∈ callerSavedRegs
  owner : ∀ r, (s.s0Offset r).isSome = true → ∃ v ∈ done, s₀.regOf v = r
  entry : ∀ v ∈ done, s₀.regOf v ∈ callerSavedRegs → (s.s0Offset (s₀.regOf v)).isSome = true
  room : ∀ r off, s.s0Offset r = some off → -s.stackSize ≤ off ∧
    ∀ v ∈ done, s₀.regOf v = r → off + saveSize f v ≤ -s₀.stackSize

theorem saveSize_ge (f : Func) (v : Value) : 4 ≤ saveSize f v ∧ (valueType f v).size ≤ saveSize f v := by
  unfold saveSize
  split_ifs <;> omega

theorem lastSize_concat (f : Func) (regOf : Value → Reg) (done : List Value) (v : Value) (r : Reg) :
    lastSize f regOf (done ++ [v]) r =
      if regOf v = r then saveSize f v else lastSize f regOf done r := by
  unfold lastSize
  rw [List.filter_append, List.filter_singleton]
  by_cases h : regOf v = r <;> simp [h]

/-- A value in a caller-saved register. -/
theorem reserve_spec {s : St} {v : Value} {r : Reg} (hv : s.regOf v = r) :
    (reserve f s v).regMapping = s.regMapping ∧
      (r ∈ callerSavedRegs → (reserve f s v).stackSize = s.stackSize + saveSize f v ∧
        (reserve f s v).s0Offset =
          Function.update s.s0Offset r (some (-s.stackSize - saveSize f v))) ∧
      (r ∉ callerSavedRegs → reserve f s v = s) := by
  subst hv
  unfold reserve St.regOf
  refine ⟨by split_ifs <;> rfl, fun hr => ?_, fun hr => if_neg hr⟩
  rw [if_pos hr]
  refine ⟨rfl, congrArg (Function.update s.s0Offset _) (congrArg some ?_)⟩
  omega

theorem saves_push (regOf : Value → Reg) (offsets : Reg → Option Int) (done : List Value) (v : Value)
    (off : Int) : saves f regOf (Function.update offsets (regOf v) (some off)) (done ++ [v]) =
      Function.update (saves f regOf offsets done) (regOf v) (some ⟨off, saveSize f v⟩) := by
  funext q
  unfold saves
  rw [lastSize_concat]
  by_cases hq : q = regOf v
  · subst hq
    rw [Function.update_self, Function.update_self, if_pos rfl]
    rfl
  · rw [Function.update_of_ne hq, Function.update_of_ne hq, if_neg (Ne.symm hq)]

/-- A value whose register is not saved. -/
theorem saves_skip {regOf : Value → Reg} {offsets : Reg → Option Int} {done : List Value} {v : Value}
    (h : offsets (regOf v) = none) :
    saves f regOf offsets (done ++ [v]) = saves f regOf offsets done := by
  funext q
  unfold saves
  rw [lastSize_concat]
  by_cases hq : regOf v = q
  · rw [← hq, h]
    rfl
  · rw [if_neg hq]

/-- One value: its register gets the bytes below all others. -/
theorem Reserved.step {s₀ s : St} {done : List Value} (h : Reserved f s₀ done s) (v : Value) :
    Reserved f s₀ (done ++ [v]) (reserve f s v) := by
  have hat : s.regOf v = s₀.regOf v := by
    rw [St.regOf, St.regOf, St.regAt, St.regAt, h.regs]
  obtain ⟨hregs, hyes, hno⟩ := reserve_spec (f := f) hat
  have hmem : ∀ w ∈ done ++ [v], w ∈ done ∨ w = v := fun w hw =>
    (List.mem_append.mp hw).imp id List.mem_singleton.mp
  by_cases hr : s₀.regOf v ∈ callerSavedRegs
  · obtain ⟨hsize, hoff⟩ := hyes hr
    obtain ⟨hge, -⟩ := saveSize_ge f v
    have hgrows := h.grows
    have hpush := h.laid.push (n := saveSize f v) (by omega) (.save (s₀.regOf v))
    rw [← places_save, ← saves_push, ← hoff] at hpush
    have hneg : -s.stackSize - saveSize f v = -(reserve f s v).stackSize := by omega
    -- an entry is the new one or an old one
    have hcases : ∀ r off, (reserve f s v).s0Offset r = some off →
        r = s₀.regOf v ∧ off = -s.stackSize - saveSize f v ∨
          r ≠ s₀.regOf v ∧ s.s0Offset r = some off := by
      intro r off ho
      rw [hoff] at ho
      by_cases hq : r = s₀.regOf v
      · rw [hq, Function.update_self] at ho
        cases ho
        exact Or.inl ⟨hq, rfl⟩
      · rw [Function.update_of_ne hq] at ho
        exact Or.inr ⟨hq, ho⟩
    refine ⟨hregs.trans h.regs, hneg ▸ hpush, by omega, fun r hs => ?_, fun r hs => ?_,
      fun w hw hwr => ?_, fun r off ho => ?_⟩
    · obtain ⟨off, ho⟩ := Option.isSome_iff_exists.mp hs
      rcases hcases r off ho with ⟨rfl, -⟩ | ⟨-, ho⟩
      · exact hr
      · exact h.caller r (by rw [ho]; rfl)
    · obtain ⟨off, ho⟩ := Option.isSome_iff_exists.mp hs
      rcases hcases r off ho with ⟨rfl, -⟩ | ⟨-, ho⟩
      · exact ⟨v, by simp, rfl⟩
      · obtain ⟨w, hw, hwr⟩ := h.owner r (by rw [ho]; rfl)
        exact ⟨w, List.mem_append_left _ hw, hwr⟩
    · rw [hoff]
      by_cases hq : s₀.regOf w = s₀.regOf v
      · rw [hq, Function.update_self]
        rfl
      · rw [Function.update_of_ne hq]
        refine h.entry w ((hmem w hw).resolve_right fun heq => hq (heq ▸ rfl)) hwr
    · rcases hcases r off ho with ⟨rfl, rfl⟩ | ⟨hne, ho⟩
      · refine ⟨by omega, fun w hw hwr => ?_⟩
        rcases hmem w hw with hw | rfl
        · cases hso : s.s0Offset (s₀.regOf v) with
          | some off =>
            have := (h.room _ off hso).2 w hw hwr
            have := (h.room _ off hso).1
            omega
          | none =>
            have hentry := h.entry w hw (hwr ▸ hr)
            rw [hwr, hso] at hentry
            cases hentry
        · omega
      · obtain ⟨hlow, hroom⟩ := h.room r off ho
        refine ⟨by omega, fun w hw hwr => ?_⟩
        rcases hmem w hw with hw | rfl
        · exact hroom w hw hwr
        · exact absurd hwr.symm hne
  · have hnone : s.s0Offset (s₀.regOf v) = none := by
      cases ho : s.s0Offset (s₀.regOf v) with
      | none => rfl
      | some off => exact absurd (h.caller _ (by rw [ho]; rfl)) hr
    rw [hno hr]
    refine ⟨h.regs, ?_, h.grows, h.caller, fun r hs => ?_, fun w hw hwr => ?_, fun r off ho => ?_⟩
    · rw [saves_skip hnone]
      exact h.laid
    · obtain ⟨w, hw, hwr⟩ := h.owner r hs
      exact ⟨w, List.mem_append_left _ hw, hwr⟩
    · rcases hmem w hw with hw | rfl
      · exact h.entry w hw hwr
      · exact absurd hwr hr
    · obtain ⟨hlow, hroom⟩ := h.room r off ho
      refine ⟨hlow, fun w hw hwr => ?_⟩
      rcases hmem w hw with hw | rfl
      · exact hroom w hw hwr
      · rw [hwr, ho] at hnone
        cases hnone

/-- **The loop of `allocate_stack`**, from a layout of the stack slots. -/
theorem allocateStack_reserved {s₀ : St} {keys : List Value} (hnone : s₀.s0Offset = fun _ => none)
    (hlaid : Laid (-s₀.stackSize) 0 (places f s₀.stackMapping (fun _ => none))) :
    Reserved f s₀ (if hasFcalls f then keys else []) (allocateStack f keys s₀) := by
  have hstart : Reserved f s₀ [] s₀ := by
    refine ⟨rfl, ?_, Int.le_refl _, fun r hr => ?_, fun r hr => ?_, nofun, fun r off ho => ?_⟩
    · have hsaves : saves f s₀.regOf s₀.s0Offset [] = fun _ => none := by
        funext r
        rw [saves, hnone]
        rfl
      rwa [hsaves]
    · rw [hnone] at hr
      cases hr
    · rw [hnone] at hr
      cases hr
    · rw [hnone] at ho
      cases ho
  have hloop : ∀ (l done : List Value) (s : St), Reserved f s₀ done s →
      Reserved f s₀ (done ++ l) (l.foldl (reserve f) s) := by
    intro l
    induction l with
    | nil =>
      intro done s hs
      rwa [List.append_nil]
    | cons v l ih =>
      intro done s hs
      have := ih (done ++ [v]) _ (hs.step v)
      rwa [List.append_assoc, List.singleton_append] at this
  rw [allocateStack_eq]
  split_ifs
  · have := hloop keys [] s₀ hstart
    rwa [List.nil_append] at this
  · exact hstart

end

/-! ## Entering and leaving -/

section

variable {f : Func} {W : Type} {t : Target W} {st : Riscv.State Reg W} {n : Int} {fp : Riscv.Word}

/-- The lines of `fun_epilogue` that restore the registers and return. -/
def epilogue (f : Func) (n : Int) : List Code :=
  (if hasFcalls f then
    [.load .double ra.reg (n - 8) sp.reg, .load .double s0.reg (n - 16) sp.reg]
  else [.load .double s0.reg (n - 8) sp.reg]) ++ [.opImm .addi sp.reg sp.reg n, .jr ra.reg]

/-- Stores below `hi` leave the bytes above. -/
theorem stores_effects {hi : Int} (hhi : hi ≤ 0) {lines : List Code} :
    ∀ {st : Riscv.State Reg W}, (∀ c ∈ lines, ∃ w r off, c = .store w r off s0.reg ∧
        -2147483648 ≤ off ∧ off + w.bytes ≤ hi) → st.regs s0.reg = fp →
      ∃ st', t.machine.effects lines st = .next st' ∧ st'.regs = st.regs ∧
        ∀ b : Int, hi ≤ b → b < 0 → st'.mem (fp + BitVec.ofInt 64 b) = st.mem (fp + BitVec.ofInt 64 b) := by
  induction lines with
  | nil => exact fun _ _ => ⟨_, rfl, rfl, fun _ _ _ => rfl⟩
  | cons c lines ih =>
    intro st hc hfp
    obtain ⟨⟨w, r, off, rfl, hlow, hoff⟩, hrest⟩ := List.forall_mem_cons.mp hc
    have hget : t.machine.get st s0.reg = fp := by
      rw [Riscv.Machine.get_of_ne (show s0.reg ≠ zero.reg by decide), hfp]
    obtain ⟨st', hst', hregs, hmem⟩ := @ih
      { st with mem := st.mem.store w (fp + BitVec.ofInt 64 off) (t.machine.get st r) } hrest hfp
    refine ⟨st', ?_, hregs, fun b hb hb0 => ?_⟩
    · rw [Riscv.Machine.effects_cons (by rw [Riscv.Machine.effect, hget])]
      exact hst'
    · rw [hmem b hb hb0]
      refine Riscv.Mem.store_of_ne _ _ fun k hk => ?_
      rw [BitVec.add_assoc, ← BitVec.ofInt_natCast, ← BitVec.ofInt_add]
      exact Riscv.add_ofInt_ne fp (by omega) (by omega) (by omega)

/-- The bytes of a double word in the frame. -/
theorem frame_double {m m' : Riscv.Mem} {off : Int}
    (h : ∀ b : Int, off ≤ b → b < off + 8 →
      m' (fp + BitVec.ofInt 64 b) = m (fp + BitVec.ofInt 64 b)) :
    m'.readDouble (fp + BitVec.ofInt 64 off) = m.readDouble (fp + BitVec.ofInt 64 off) := by
  refine Riscv.Mem.readDouble_congr fun k hk => ?_
  have := h (off + k) (by omega) (by omega)
  rwa [BitVec.ofInt_add, BitVec.ofInt_natCast, ← BitVec.add_assoc] at this

/-- A word of the frame, from the two ends of it. -/
theorem sp_offset (fp : Riscv.Word) (n off : Int) :
    fp + BitVec.ofInt 64 (-n) + BitVec.ofInt 64 (n - off) = fp + BitVec.ofInt 64 (-off) := by
  rw [BitVec.add_assoc, ← BitVec.ofInt_add]
  exact congrArg (fun x => fp + BitVec.ofInt 64 x) (by omega)

/-- Save a register from `sp`. -/
theorem sd_effect {r : Reg} (off : Int)
    (hsp : st.regs sp.reg = fp + BitVec.ofInt 64 (-n)) (hr : r ≠ zero.reg) :
    t.machine.effect st (.store .double r (n - off) sp.reg : Code) =
      .next { st with mem := st.mem.writeDouble (fp + BitVec.ofInt 64 (-off)) (st.regs r) } := by
  have hget : t.machine.get st sp.reg = fp + BitVec.ofInt 64 (-n) := by
    rw [Riscv.Machine.get_of_ne (show sp.reg ≠ zero.reg by decide), hsp]
  rw [Riscv.Machine.effect, hget, sp_offset, Riscv.Machine.get_of_ne hr]
  rfl

/-- Load a register from `sp`. -/
theorem ld_effect {r : Reg} (off : Int)
    (hsp : st.regs sp.reg = fp + BitVec.ofInt 64 (-n)) :
    t.machine.effect st (.load .double r (n - off) sp.reg : Code) =
      .next (st.set r (st.mem.readDouble (fp + BitVec.ofInt 64 (-off)))) := by
  have hget : t.machine.get st sp.reg = fp + BitVec.ofInt 64 (-n) := by
    rw [Riscv.Machine.get_of_ne (show sp.reg ≠ zero.reg by decide), hsp]
  rw [Riscv.Machine.effect, hget, sp_offset]
  rfl

/-- Add to `sp`. -/
theorem addi_sp_effect (r : Reg) :
    t.machine.effect st (.opImm .addi r sp.reg n : Code) =
      .next (st.set r (st.regs sp.reg + BitVec.ofInt 64 n)) := by
  rw [Riscv.Machine.effect, Riscv.Machine.get_of_ne (show sp.reg ≠ zero.reg by decide)]
  rfl

theorem sp_back (fp : Riscv.Word) (n : Int) :
    fp + BitVec.ofInt 64 (-n) + BitVec.ofInt 64 n = fp := by
  rw [BitVec.add_assoc, ← BitVec.ofInt_add]
  simp

/-- The words that the prologue saves. -/
structure Saved (f : Func) (entry body : Riscv.State Reg W) : Prop where
  ra : hasFcalls f = true →
    body.mem.readDouble (entry.regs sp.reg + BitVec.ofInt 64 (-8)) = entry.regs ra.reg
  s0 : body.mem.readDouble (entry.regs sp.reg + BitVec.ofInt 64 (-savedSize f)) = entry.regs s0.reg

/-- What holds of the saved words, above the other places of the frame. -/
theorem Saved.keep {entry st st' : Riscv.State Reg W} (h : Saved f entry st)
    (hmem : ∀ b : Int, -savedSize f ≤ b → b < 0 →
      st'.mem (entry.regs sp.reg + BitVec.ofInt 64 b) =
        st.mem (entry.regs sp.reg + BitVec.ofInt 64 b)) : Saved f entry st' := by
  have hsize : 8 ≤ savedSize f := by
    unfold savedSize
    split_ifs <;> decide
  constructor
  · intro hc
    rw [← h.ra hc]
    exact frame_double fun b hb hb' => hmem b (by omega) (by omega)
  · rw [← h.s0]
    exact frame_double fun b hb hb' => hmem b (by omega) (by omega)

/-- The first lines of the prologue. -/
theorem saveLines_effects (hst : st.regs sp.reg = fp + BitVec.ofInt 64 (-n)) :
    ∃ st', t.machine.effects (saveLines f n) st = .next st' ∧ st'.regs = st.regs ∧
      (hasFcalls f = true → st'.mem.readDouble (fp + BitVec.ofInt 64 (-8)) = st.regs ra.reg) ∧
      st'.mem.readDouble (fp + BitVec.ofInt 64 (-savedSize f)) = st.regs s0.reg := by
  have hra : ra.reg ≠ zero.reg := by decide
  have hs0 : s0.reg ≠ zero.reg := by decide
  unfold saveLines savedSize
  cases hc : hasFcalls f with
  | true =>
    let st₁ : Riscv.State Reg W :=
      { st with mem := st.mem.writeDouble (fp + BitVec.ofInt 64 (-8)) (st.regs ra.reg) }
    have hst₁ : st₁.regs sp.reg = fp + BitVec.ofInt 64 (-n) := hst
    rw [if_pos rfl, if_pos rfl, Riscv.Machine.effects_cons (sd_effect 8 hst hra),
      Riscv.Machine.effects_cons (sd_effect 16 hst₁ hs0)]
    refine ⟨_, rfl, rfl, fun _ => ?_, Riscv.Mem.readDouble_writeDouble _ _ _⟩
    rw [← Riscv.Mem.readDouble_writeDouble st.mem (fp + BitVec.ofInt 64 (-8)) (st.regs ra.reg)]
    refine frame_double fun b hb hb' => Riscv.Mem.writeDouble_of_ne _ _ fun k hk => ?_
    rw [BitVec.add_assoc, ← BitVec.ofInt_natCast, ← BitVec.ofInt_add]
    exact Riscv.add_ofInt_ne fp (by omega) (by omega) (by omega)
  | false =>
    rw [if_neg Bool.false_ne_true, if_neg Bool.false_ne_true,
      Riscv.Machine.effects_cons (sd_effect 8 hst hs0)]
    exact ⟨_, rfl, rfl, nofun, Riscv.Mem.readDouble_writeDouble _ _ _⟩

/-- **Entering**: `ra` and `s0` are saved at the top of the frame, and `s0` is its end. -/
theorem prologue_effects {pushes : List Code} {hi : Int} (hhi : hi ≤ -savedSize f)
    (hpush : ∀ c ∈ pushes, ∃ w r off, c = .store w r off s0.reg ∧
      -2147483648 ≤ off ∧ off + w.bytes ≤ hi) :
    ∃ body, t.machine.effects ([.opImm .addi sp.reg sp.reg (-n)] ++ saveLines f n ++
        [.opImm .addi s0.reg sp.reg n] ++ pushes) st = .next body ∧
      body.regs sp.reg = st.regs sp.reg + BitVec.ofInt 64 (-n) ∧
      body.regs s0.reg = st.regs sp.reg ∧ Saved f st body := by
  have hne : s0.reg ≠ sp.reg := by decide
  have hsize : 0 ≤ savedSize f := by
    unfold savedSize
    split_ifs <;> decide
  -- the frame is entered
  let st₁ := st.set sp.reg (st.regs sp.reg + BitVec.ofInt 64 (-n))
  have hsp₁ : st₁.regs sp.reg = st.regs sp.reg + BitVec.ofInt 64 (-n) := by
    rw [Riscv.State.set_regs, Function.update_self]
  obtain ⟨st₂, hst₂, hregs₂, hra₂, hs0₂⟩ := saveLines_effects (t := t) (f := f) hsp₁
  have hsp₂ : st₂.regs sp.reg = st.regs sp.reg + BitVec.ofInt 64 (-n) := by rw [hregs₂, hsp₁]
  let st₃ := st₂.set s0.reg (st₂.regs sp.reg + BitVec.ofInt 64 n)
  have hs0₃ : st₃.regs s0.reg = st.regs sp.reg := by
    rw [Riscv.State.set_regs, Function.update_self, hsp₂, sp_back]
  have hsaved : Saved f st st₃ := by
    refine ⟨fun hc => (hra₂ hc).trans ?_, hs0₂.trans ?_⟩
    · rw [Riscv.State.set_regs, Function.update_of_ne (show ra.reg ≠ sp.reg by decide)]
    · rw [Riscv.State.set_regs, Function.update_of_ne hne]
  obtain ⟨body, hbody, hregs, hmem⟩ := stores_effects (t := t) (by omega) hpush hs0₃
  refine ⟨body, ?_, ?_, ?_, hsaved.keep fun b hb hb' => hmem b (by omega) hb'⟩
  · rw [List.append_assoc, List.append_assoc, List.singleton_append,
      Riscv.Machine.effects_cons (addi_sp_effect sp.reg), Riscv.Machine.effects_append hst₂,
      List.singleton_append, Riscv.Machine.effects_cons (addi_sp_effect s0.reg)]
    exact hbody
  · rw [hregs, Riscv.State.set_regs, Function.update_of_ne hne.symm, hsp₂]
  · rw [hregs, hs0₃]

/-- **Leaving**: what was saved is restored. -/
theorem epilogue_effects {entry st : Riscv.State Reg W}
    (hsp : st.regs sp.reg = entry.regs sp.reg + BitVec.ofInt 64 (-n)) (hs : Saved f entry st)
    (hra : hasFcalls f = false → st.regs ra.reg = entry.regs ra.reg) :
    ∃ st', t.machine.effects (epilogue f n) st = .ret st' ∧ st'.regs ra.reg = entry.regs ra.reg ∧
      st'.regs s0.reg = entry.regs s0.reg ∧ st'.regs sp.reg = entry.regs sp.reg := by
  have hrs : ra.reg ≠ s0.reg ∧ ra.reg ≠ sp.reg ∧ s0.reg ≠ sp.reg := by decide
  -- the words are loaded
  obtain ⟨st₁, hst₁, hra₁, hs0₁, hsp₁⟩ : ∃ st₁, t.machine.effects (epilogue f n) st =
      t.machine.effects [.opImm .addi sp.reg sp.reg n, .jr ra.reg] st₁ ∧
      st₁.regs ra.reg = entry.regs ra.reg ∧ st₁.regs s0.reg = entry.regs s0.reg ∧
        st₁.regs sp.reg = st.regs sp.reg := by
    have hs0 := hs.s0
    unfold epilogue
    unfold savedSize at hs0
    cases hc : hasFcalls f with
    | true =>
      rw [if_pos hc] at hs0
      let st₁ := st.set ra.reg (st.mem.readDouble (entry.regs sp.reg + BitVec.ofInt 64 (-8)))
      have hsp₁ : st₁.regs sp.reg = entry.regs sp.reg + BitVec.ofInt 64 (-n) := by
        rw [Riscv.State.set_regs, Function.update_of_ne hrs.2.1.symm, hsp]
      rw [if_pos rfl, List.cons_append, Riscv.Machine.effects_cons (ld_effect 8 hsp),
        List.cons_append, Riscv.Machine.effects_cons (ld_effect 16 hsp₁)]
      refine ⟨_, rfl, ?_, ?_, ?_⟩
      · rw [Riscv.State.set_regs, Function.update_of_ne hrs.1, Riscv.State.set_regs,
          Function.update_self, hs.ra hc]
      · rw [Riscv.State.set_regs, Function.update_self]
        exact hs0
      · rw [Riscv.State.set_regs, Function.update_of_ne hrs.2.2.symm, hsp₁, hsp]
    | false =>
      rw [hc, if_neg Bool.false_ne_true] at hs0
      rw [if_neg Bool.false_ne_true, List.cons_append, Riscv.Machine.effects_cons (ld_effect 8 hsp)]
      refine ⟨_, rfl, ?_, ?_, ?_⟩
      · rw [Riscv.State.set_regs, Function.update_of_ne hrs.1, hra hc]
      · rw [Riscv.State.set_regs, Function.update_self, hs0]
      · rw [Riscv.State.set_regs, Function.update_of_ne hrs.2.2.symm]
  rw [hst₁, Riscv.Machine.effects_cons (addi_sp_effect sp.reg)]
  refine ⟨_, rfl, ?_, ?_, ?_⟩
  · rw [Riscv.State.set_regs, Function.update_of_ne hrs.2.1, hra₁]
  · rw [Riscv.State.set_regs, Function.update_of_ne hrs.2.2, hs0₁]
  · rw [Riscv.State.set_regs, Function.update_self, hsp₁, hsp, sp_back]

end

/-! ## The frame of a function -/

/-- The types of values that are kept in registers. -/
def Scalar : Ty → Prop
  | .int1 | .int32 | .float => True
  | .pointer t => t.isArray = false
  | _ => False

theorem Scalar.size_pos {ty : Ty} (h : Scalar ty) : 0 < ty.size := by
  cases ty with
  | pointer t => simp [Ty.size, (show t.isArray = false from h)]
  | int1 => decide
  | int32 => decide
  | float => decide
  | _ => exact absurd h id

theorem Scalar.size_pointer {ty : Ty} (h : Scalar ty) (hp : ty.isPointer = true) : ty.size = 8 := by
  cases ty with
  | pointer t => simp [Ty.size, (show t.isArray = false from h)]
  | _ => cases hp

/-- `a` is what the register allocator hands over; `intervals` is its set of intervals. -/
def Allocated (a : FuncAlloc) (intervals : List ValInterval) : Prop :=
  ∃ fuel less o m s, initFunc a.f fuel = .ok (o, m) ∧ IsIntervals m intervals ∧
    (∀ i ∈ intervals, m.val2interval i.1 = some i.2) ∧
    RegAlloc.allocate a.f less m intervals = .ok s ∧ a.regMapping = s.regMappings ∧
    a.stackMapping = s.stackMappings ∧ a.stackSize = s.stackSize

/-- The members `allocate_stack` starts on. -/
def openSt (a : FuncAlloc) (s : St) : St :=
  { initState a.f (a.enter s) with s0Offset := fun _ => none }

/-- The members the prologue is written with. -/
def frameSt (a : FuncAlloc) (s : St) : St := allocateStack a.f a.keys (openSt a s)

/-- The places of the frame. -/
def framePlaces (a : FuncAlloc) (s : St) : Place → Option Range :=
  places a.f (frameSt a s).stackMapping
    (saves a.f (frameSt a s).regOf (frameSt a s).s0Offset a.keys)

/-- A text that restores at each return what its prologue saved, if the body leaves `sp` and the
places of `ra` and `s0` alone, and `ra` where it calls nothing. -/
def Restores (a : FuncAlloc) (s : St) (T : Text) : Prop :=
  ∀ (W : Type) (t : Target W) (entry : Riscv.State Reg W), ∃ body,
    t.machine.effects T.prologue entry = .next body ∧ body.regs s0.reg = entry.regs sp.reg ∧
    TextPieces a.f (fun i code => (a.f.instr i).op = .ret →
      ∃ value, code = value ++ epilogue a.f (frameSt a s).stackSize ∧
        ∀ st : Riscv.State Reg W, st.regs sp.reg = body.regs sp.reg →
          (∀ p r b, p = .ra ∨ p = .s0 → framePlaces a s p = some r → r.Has b →
            st.mem (body.regs s0.reg + BitVec.ofInt 64 b) =
              body.mem (body.regs s0.reg + BitVec.ofInt 64 b)) →
          (hasFcalls a.f = false → st.regs ra.reg = entry.regs ra.reg) →
          ∃ st', t.machine.effects (epilogue a.f (frameSt a s).stackSize) st = .ret st' ∧
            st'.regs ra.reg = entry.regs ra.reg ∧ st'.regs s0.reg = entry.regs s0.reg ∧
              st'.regs sp.reg = entry.regs sp.reg) T

/-- The frame of a function is in order. -/
structure FrameOk (a : FuncAlloc) (s : St) : Prop where
  laid : Laid (-(frameSt a s).stackSize) 0 (framePlaces a s)
  restores : ∀ T s', genFunction a.f a.keys (a.enter s) = .ok (T, s') → Restores a s T

section

variable {a : FuncAlloc} {intervals : List ValInterval} {s : St}

/-- What `gen_function` does before the frame leaves the registers of values alone. -/
theorem initState_regAt (f : Func) (s : St) : (initState f s).regAt = s.regAt := by
  have herase : ∀ (l : List Nat) (s : St), ((l.map Value.arg).foldl St.eraseArg s).regAt = s.regAt := by
    intro l
    induction l with
    | nil => exact fun s => rfl
    | cons no l ih =>
      intro s
      rw [List.map_cons, List.foldl_cons, ih]
      funext v
      by_cases hv : v = .arg no
      · subst hv
        simp [St.eraseArg, St.erase, St.touchReg, St.regAt]
      · simp [St.eraseArg, St.erase, St.touchReg, St.regAt, Function.update_of_ne hv]
  have hfresh : ∀ (l : List Nat) (s : St), ((l.map Value.arg).foldl St.freshArg s).regAt = s.regAt := by
    intro l
    induction l with
    | nil => exact fun s => rfl
    | cons no l ih =>
      intro s
      rw [List.map_cons, List.foldl_cons, ih]
      rfl
  unfold initState
  dsimp only
  rw [hfresh, herase]
  rfl

theorem openSt_members (a : FuncAlloc) (s : St) : (openSt a s).stackSize = a.stackSize ∧
    (openSt a s).stackMapping = a.stackMapping ∧ (openSt a s).regAt = (a.enter s).regAt := by
  obtain ⟨-, hsize, hslots, -⟩ := initState_members a.f (a.enter s)
  exact ⟨hsize, hslots, initState_regAt a.f (a.enter s)⟩

/-- **Allocas, save slots and saved words**, without spills. -/
theorem frame_reserved (h : Allocated a intervals) (hroomy : RegAlloc.Roomy a.f intervals) :
    Reserved a.f (openSt a s) (if hasFcalls a.f then a.keys else []) (frameSt a s) ∧
      savedSize a.f ≤ a.stackSize ∧ ∀ v, ((a.enter s).regAt v).d = true →
        v ∈ intervals.map Prod.fst ∧ (typeOf a.f v).isPointer = true := by
  obtain ⟨fuel, less, o, m, al, hinit, hI, -, hal, hregs, hslots, hsize⟩ := h
  obtain ⟨hslots', hsize', hmarked⟩ := RegAlloc.allocate_roomy hI hal hroomy
  have hlaid := initFunc_laid hinit
  obtain ⟨k1, k2, -⟩ := openSt_members a s
  refine ⟨allocateStack_reserved rfl ?_, ?_, fun v hd => ?_⟩
  · rw [k1, k2, hslots, hsize, hslots', hsize']
    exact hlaid.laid
  · rw [hsize, hsize']
    exact hlaid.base
  · cases hv : a.regMapping v with
    | none =>
      have hnone : (a.enter s).regAt v = ⟨⟨-1, false⟩, false⟩ := congrArg (Option.getD · _) hv
      rw [hnone] at hd
      cases hd
    | some r =>
      have hsome : (a.enter s).regAt v = r := congrArg (Option.getD · _) hv
      rw [hsome] at hd
      exact hmarked v r (hregs ▸ hv) hd

/-- The places of the frame, in the terms of the loop of `allocate_stack`. -/
theorem framePlaces_eq (h : Reserved a.f (openSt a s) (if hasFcalls a.f then a.keys else [])
    (frameSt a s)) : framePlaces a s = places a.f (openSt a s).stackMapping
      (saves a.f (openSt a s).regOf (frameSt a s).s0Offset
        (if hasFcalls a.f then a.keys else [])) := by
  have hreg : (frameSt a s).regOf = (openSt a s).regOf := by
    funext v
    rw [St.regOf, St.regOf, St.regAt, St.regAt, h.regs]
  have hslots : (frameSt a s).stackMapping = (openSt a s).stackMapping :=
    (allocateStack_members a.f a.keys (openSt a s)).2.1
  have hsaves : saves a.f (openSt a s).regOf (frameSt a s).s0Offset a.keys =
      saves a.f (openSt a s).regOf (frameSt a s).s0Offset
        (if hasFcalls a.f then a.keys else []) := by
    cases hc : hasFcalls a.f with
    | true => rfl
    | false =>
      funext r
      cases ho : (frameSt a s).s0Offset r with
      | none =>
        rw [saves, saves, ho]
        rfl
      | some off =>
        obtain ⟨v, hv, -⟩ := h.owner r (by rw [ho]; rfl)
        rw [hc] at hv
        cases hv
  rw [framePlaces, hreg, hslots, hsaves]

theorem valueType_of_pointer {f : Func} {v : Value} (h : (typeOf f v).isPointer = true) :
    valueType f v = typeOf f v := by
  cases v <;> first | rfl | cases h

/-- The stores of the prologue lie below the stack slots. -/
theorem pushLines_low (h : Reserved a.f (openSt a s) (if hasFcalls a.f then a.keys else [])
      (frameSt a s))
    (hmarked : ∀ v, ((a.enter s).regAt v).d = true → (valueType a.f v).size = 8)
    (hint : (frameSt a s).stackSize ≤ 2147483647) :
    ∀ c ∈ pushLines a.f a.keys (frameSt a s), ∃ w r off, c = .store w r off s0.reg ∧
      -2147483648 ≤ off ∧ off + (Riscv.Width.bytes w : Int) ≤ -a.stackSize := by
  intro c hc
  obtain ⟨hopen, -, hat⟩ := openSt_members a s
  unfold pushLines at hc
  split_ifs at hc with hcalls
  · rw [if_pos hcalls] at h
    obtain ⟨r, -, hc⟩ := List.mem_flatMap.mp hc
    split_ifs at hc
    · cases ho : (frameSt a s).s0Offset r with
      | none =>
        rw [ho] at hc
        cases hc
      | some off =>
        rw [ho] at hc
        obtain rfl := List.mem_singleton.mp hc
        obtain ⟨hlow, hroom⟩ := h.room r off ho
        rw [hopen] at hroom
        refine ⟨_, r, off, rfl, by omega, ?_⟩
        obtain ⟨v, hv, hvr⟩ := h.owner r (by rw [ho]; rfl)
        have hfour := hroom v hv hvr
        have hge := (saveSize_ge a.f v).1
        split_ifs with hf hd
        · show off + 4 ≤ _
          omega
        · cases hfind : a.keys.find? fun v => ((frameSt a s).regAt v).reg = r with
          | none =>
            rw [hfind] at hd
            cases hd
          | some w =>
            rw [hfind] at hd
            have hregs : (frameSt a s).regAt w = (openSt a s).regAt w := by
              rw [St.regAt, St.regAt, h.regs]
            have hwr : ((frameSt a s).regAt w).reg = r := by
              simpa using List.find?_some hfind
            have height := hmarked w (by rw [← hat, ← hregs]; exact hd)
            have hw := hroom w (List.mem_of_find?_eq_some hfind) (by rw [St.regOf, ← hregs, hwr])
            have hge := (saveSize_ge a.f w).2
            rw [height] at hge
            show off + 8 ≤ _
            omega
        · show off + 4 ≤ _
          omega
    · cases hc
  · cases hc

/-- The text of a return ends in the lines that restore the registers. -/
theorem funEpilogue_text {f : Func} {x : Instr} {s s' : St} (hn : Named f)
    (h : funEpilogue f x s = .ok s') : ∃ value, s'.ss = s.ss ++ (value ++ epilogue f s.stackSize) := by
  unfold funEpilogue at h
  obtain ⟨s₁, h₁, h⟩ := bind_ok.mp h
  obtain ⟨s₂, h₂, h⟩ := bind_ok.mp h
  obtain ⟨s₃, h₃, h₄⟩ := bind_ok.mp h
  have hval := moveRetVal_emits hn h₁
  obtain ⟨value, hss, -⟩ := hval.text
  have hsize := hval.stackSize
  have ht₂ : OnlyText s₁ s₂ (if hasFcalls f then
      [.load .double ra.reg (s₁.stackSize - 8) sp.reg, .load .double s0.reg (s₁.stackSize - 16) sp.reg]
      else [.load .double s0.reg (s₁.stackSize - 8) sp.reg]) := by
    unfold restoreFrame at h₂
    split_ifs at h₂ ⊢
    · obtain ⟨s₄, h₅, h₆⟩ := bind_ok.mp h₂
      have ht := print_onlyText h₅
      have hsize₄ : s₄.stackSize = s₁.stackSize := by rw [ht]
      have := ht.trans (print_onlyText h₆)
      rwa [hsize₄] at this
    · exact print_onlyText h₂
  have hsize₂ : s₂.stackSize = s₁.stackSize := by rw [ht₂]
  have ht := (ht₂.trans (print_onlyText h₃)).trans (print_onlyText h₄)
  rw [hsize₂, hsize] at ht
  refine ⟨value, ?_⟩
  rw [ht, epilogue, List.append_assoc]
  show s₁.ss ++ _ = _
  rw [hss, List.append_assoc]
  rfl

/-- Every return of a text ends so. -/
theorem genFunction_epilogues {T : Text} {s' : St} (hwf : a.Wf)
    (h : genFunction a.f a.keys (a.enter s) = .ok (T, s')) :
    ∃ s₁, funPrologue a.f a.keys (frameSt a s) = .ok s₁ ∧ T.prologue = s₁.ss ∧
      TextPieces a.f (fun i code => (a.f.instr i).op = .ret →
        ∃ value, code = value ++ epilogue a.f (frameSt a s).stackSize) T := by
  let I : St → Prop := fun s₁ => s₁.stackSize = (frameSt a s).stackSize ∧ NoConst s₁
  have hstep : StepKeeps a.f I fun _ i code => (a.f.instr i).op = .ret →
      ∃ value, code = value ++ epilogue a.f (frameSt a s).stackSize := by
    rintro i s₁ s₂ ⟨hsize, hk⟩ hgen
    obtain ⟨cs, -, he⟩ := genInstr_emits hwf.named (s := { s₁ with ss := [] }) hk hgen
    refine ⟨⟨he.stackSize.trans hsize, he.noConst hk⟩, fun hret => ?_, fun _ _ => id⟩
    have hepi : funEpilogue a.f (a.f.instr i) { s₁ with ss := [] } = .ok s₂ := by
      unfold genInstr at hgen
      simpa only [hret] using hgen
    obtain ⟨value, hss⟩ := funEpilogue_text hwf.named hepi
    exact ⟨value, hsize ▸ hss⟩
  obtain ⟨s₁, hpro, hT, hrest⟩ := genFunction_keeps hstep h
  refine ⟨s₁, hpro, hT, (hrest ⟨?_, ?_⟩).2.2⟩
  · have ht : OnlyText (frameSt a s) s₁ _ := funPrologue_text hpro
    rw [ht]
  · exact (bodyState_floats hpro).2 hwf.noConst

/-- Constants have no registers. -/
theorem Allocated.wf (h : Allocated a intervals) (hn : Named a.f) : a.Wf := by
  obtain ⟨fuel, less, o, m, al, hinit, -, hval, hal, hregs, -⟩ := h
  refine ⟨hn, fun v hv => ?_⟩
  obtain ⟨i, hi, rfl⟩ := List.mem_map.mp (RegAlloc.allocate_keyed hal v (hregs ▸ hv))
  exact ((initFunc_laid hinit).intervals i.1 (by rw [hval i hi]; rfl)).2

/-- **Without a spill the frame is in order.** -/
theorem frame_of_roomy (h : Allocated a intervals) (hn : Named a.f)
    (hty : ∀ i ∈ intervals, Scalar (typeOf a.f i.1)) (hint : (frameSt a s).stackSize ≤ 2147483647)
    (hroomy : RegAlloc.Roomy a.f intervals) : FrameOk a s := by
  obtain ⟨hres, hbase, hmarked⟩ := frame_reserved (s := s) h hroomy
  obtain ⟨hopen, hslots, -⟩ := openSt_members a s
  refine ⟨?_, fun T s' hgen W t entry => ?_⟩
  · rw [framePlaces_eq hres]
    exact hres.laid
  · obtain ⟨s₁, hpro, hT, hpieces⟩ := genFunction_epilogues (h.wf hn) hgen
    have hlow := pushLines_low hres (fun v hd => ?_) hint
    · have ht := funPrologue_text hpro
      have hss : (frameSt a s).ss = [] := by
        have h₁ := (allocateStack_members a.f a.keys (openSt a s)).2.2.2.1
        have h₂ := (initState_members a.f (a.enter s)).2.2.2.1
        exact h₁.trans h₂
      obtain ⟨body, hbody, hsp, hs0, hsaved⟩ := @prologue_effects a.f W t entry
        (frameSt a s).stackSize _ _ (Int.neg_le_neg hbase) hlow
      refine ⟨body, ?_, hs0, ?_⟩
      · rw [hT, ht, hss]
        exact hbody
      · refine TextPieces.imp (fun i code hp hret => ?_) hpieces
        obtain ⟨value, hcode⟩ := hp hret
        refine ⟨value, hcode, fun st hst hmem hra => ?_⟩
        rw [hsp] at hst
        refine epilogue_effects hst (hsaved.keep fun b hb hb' => ?_) hra
        rw [← hs0]
        -- the byte belongs to one of the two words
        cases hc : hasFcalls a.f with
        | true =>
          rw [savedSize, if_pos hc] at hb
          by_cases hb8 : b < -8
          · exact hmem .s0 ⟨-16, 8⟩ b (Or.inr rfl) (by rw [framePlaces, places, savedSize, if_pos hc])
              ⟨hb, by dsimp only; omega⟩
          · exact hmem .ra ⟨-8, 8⟩ b (Or.inl rfl) (by rw [framePlaces, places, if_pos hc])
              ⟨by dsimp only; omega, by dsimp only; omega⟩
        | false =>
          have hsize : savedSize a.f = 8 := by
            rw [savedSize, hc]
            rfl
          exact hmem .s0 ⟨-8, 8⟩ b (Or.inr rfl) (by rw [framePlaces, places, hsize])
            ⟨by dsimp only; omega, by dsimp only; omega⟩
    · obtain ⟨hmem, hp⟩ := hmarked v hd
      obtain ⟨i, hi, rfl⟩ := List.mem_map.mp hmem
      rw [valueType_of_pointer hp]
      exact (hty i hi).size_pointer hp

/-- **A spilled value lies on the saved words.** -/
theorem not_laid_of_spill (h : Allocated a intervals)
    (hty : ∀ i ∈ intervals, Scalar (typeOf a.f i.1)) (hroomy : ¬ RegAlloc.Roomy a.f intervals) :
    ¬ Laid (-(frameSt a s).stackSize) 0 (framePlaces a s) := by
  obtain ⟨fuel, less, o, m, al, hinit, hI, hval, hal, -, hslots, -⟩ := h
  obtain ⟨i, hi, hslot⟩ := RegAlloc.allocate_spills hI hal hroomy
  obtain ⟨halloca, -⟩ := (initFunc_laid hinit).intervals i.1 (by rw [hval i hi]; rfl)
  have hpos := (hty i hi).size_pos
  have hplace : framePlaces a s (.slot i.1) =
      some ⟨-((typeOf a.f i.1).size : Int), (typeOf a.f i.1).size⟩ := by
    have hmem : (frameSt a s).stackMapping = a.stackMapping :=
      (allocateStack_members a.f a.keys (openSt a s)).2.1.trans (openSt_members a s).2.1
    rw [framePlaces, places, hmem, hslots, hslot, Option.map_some, slotSize_eq halloca]
  have htop : (⟨-((typeOf a.f i.1).size : Int), (typeOf a.f i.1).size⟩ : Range).Has (-1) := by
    constructor <;> dsimp only <;> omega
  cases hc : hasFcalls a.f with
  | true =>
    have hra : framePlaces a s .ra = some ⟨-8, 8⟩ := by
      rw [framePlaces, places, if_pos hc]
    exact Laid.not_of_meet (i := .slot i.1) (j := .ra) nofun hplace hra htop ⟨by decide, by decide⟩
  | false =>
    have hs0 : framePlaces a s .s0 = some ⟨-8, 8⟩ := by
      rw [framePlaces, places, savedSize, hc]
      rfl
    exact Laid.not_of_meet (i := .slot i.1) (j := .s0) nofun hplace hs0 htop ⟨by decide, by decide⟩

/-- **The frame is in order exactly when nothing is spilled**: no interval but those of arguments
starts while fourteen of the others are open. -/
theorem frame_iff (h : Allocated a intervals) (hn : Named a.f)
    (hty : ∀ i ∈ intervals, Scalar (typeOf a.f i.1))
    (hint : (frameSt a s).stackSize ≤ 2147483647) :
    FrameOk a s ↔ RegAlloc.Roomy a.f intervals := by
  constructor
  · intro hok
    by_contra hroomy
    exact not_laid_of_spill h hty hroomy hok.laid
  · exact frame_of_roomy h hn hty hint

end

/-! ## Two functions -/

/-- The allocation of a function, if it goes through. -/
def handOver (f : Func) (fuel : Nat) (less : Value → Value → Bool) (keys : List Value)
    (intervals : List ValInterval) : Option FuncAlloc :=
  match initFunc f fuel with
  | .error _ => none
  | .ok (_, m) =>
    if (intervals.map Prod.fst).Nodup ∧
        (intervals.Pairwise fun i j => ¬ j.2.start < i.2.start) ∧
        ∀ i ∈ intervals, m.stackMappings i.1 = none ∧ m.val2interval i.1 = some i.2 then
      match RegAlloc.allocate f less m intervals with
      | .error _ => none
      | .ok s => some ⟨f, keys, s.regMappings, s.stackMappings, s.stackSize⟩
    else none

theorem handOver_allocated {f : Func} {fuel : Nat} {less : Value → Value → Bool} {keys : List Value}
    {intervals : List ValInterval} {a : FuncAlloc}
    (h : handOver f fuel less keys intervals = some a) : Allocated a intervals := by
  unfold handOver at h
  split at h
  · cases h
  · rename_i o m hinit
    split_ifs at h with hcheck
    obtain ⟨hnd, hsorted, hall⟩ := hcheck
    split at h
    · cases h
    · rename_i s hal
      cases h
      exact ⟨fuel, less, o, m, s, hinit, ⟨hnd, hsorted, fun i hi => (hall i hi).1⟩,
        fun i hi => (hall i hi).2, hal, rfl, rfl, rfl⟩

/-- `int f(int a) { int x; x = a; return f(a) + a; }`. -/
def caller : Func where
  entry := 0
  rest := []
  pre _ := []
  succ _ := []
  name := "f"
  retTy := .int32
  args := [.int32]
  body bb := if bb = 0 then List.range 5 else []
  instr i :=
    match i with
    | 0 => { op := .alloca, ty := .pointer .int32, operands := [], parent := 0 }
    | 1 => { op := .store, ty := .void, operands := [.arg 0, .instr 0], parent := 0 }
    | 2 => { op := .call, ty := .int32, operands := [.function "f", .arg 0], parent := 0 }
    | 3 => { op := .add, ty := .int32, operands := [.instr 2, .arg 0], parent := 0 }
    | _ => { op := .ret, ty := .void, operands := [.instr 3], parent := 0 }
  uses v := if v = .arg 0 then [(1, 0), (2, 1), (3, 1)] else []
  names v := match v with
    | .arg _ => "arg0"
    | .instr 2 | .instr 3 => "op"
    | _ => ""
  next := 5

def callerIntervals : List ValInterval :=
  [(.arg 0, ⟨⟨0, 0⟩, ⟨1, 4⟩⟩), (.instr 2, ⟨⟨1, 3⟩, ⟨1, 4⟩⟩), (.instr 3, ⟨⟨1, 4⟩, ⟨1, 5⟩⟩)]

/-- What is handed over for it: an alloca, and registers to save around the call. -/
def callerAlloc : FuncAlloc :=
  (handOver caller 3 (fun _ _ => false) [.arg 0, .instr 2, .instr 3] callerIntervals).getD
    ⟨caller, [], fun _ => none, fun _ => none, 0⟩

/-- What is handed over for fourteen sums that are all used later. -/
def sumsAlloc : FuncAlloc :=
  (handOver RegAlloc.sums 3 (fun _ _ => false) (RegAlloc.sumsIntervals.map Prod.fst)
    RegAlloc.sumsIntervals).getD ⟨RegAlloc.sums, [], fun _ => none, fun _ => none, 0⟩

theorem handOver_getD {f : Func} {fuel : Nat} {less : Value → Value → Bool} {keys : List Value}
    {intervals : List ValInterval} {a : FuncAlloc}
    (h : (handOver f fuel less keys intervals).isSome = true) :
    Allocated ((handOver f fuel less keys intervals).getD a) intervals ∧
      ((handOver f fuel less keys intervals).getD a).f = f := by
  obtain ⟨b, hb⟩ := Option.isSome_iff_exists.mp h
  rw [hb]
  refine ⟨handOver_allocated hb, ?_⟩
  unfold handOver at hb
  split at hb
  · cases hb
  · split_ifs at hb
    split at hb
    · cases hb
    · cases hb
      rfl

theorem caller_named : Named caller := by
  intro i v hv n hn
  match i with
  | 0 => cases hv
  | 1 => revert hn; revert v; simp [caller, asGlobal]
  | 2 => revert hn; revert v; simp [caller, asGlobal]
  | 3 => revert hn; revert v; simp [caller, asGlobal]
  | i + 4 => revert hn; revert v; simp [caller, asGlobal]

/-- The theorem at a function that calls. -/
theorem frame_iff_caller : FrameOk callerAlloc startSt ↔ RegAlloc.Roomy callerAlloc.f callerIntervals := by
  obtain ⟨hal, hf⟩ : Allocated callerAlloc callerIntervals ∧ callerAlloc.f = caller :=
    handOver_getD (by decide +kernel)
  refine frame_iff hal (hf ▸ caller_named) (hf ▸ ?_) (by decide +kernel)
  have hint : ∀ i ∈ callerIntervals, typeOf caller i.1 = .int32 := by decide +kernel
  intro i hi
  rw [hint i hi]
  trivial

/-- **Fourteen sums** that are all used later: the next value is spilled onto the saved `s0`. -/
theorem sums_spilled_on_saved :
    Allocated sumsAlloc RegAlloc.sumsIntervals ∧ ¬ FrameOk sumsAlloc startSt := by
  obtain ⟨hal, hf⟩ : Allocated sumsAlloc RegAlloc.sumsIntervals ∧ sumsAlloc.f = RegAlloc.sums :=
    handOver_getD (by decide +kernel)
  refine ⟨hal, fun hok => not_laid_of_spill hal (hf ▸ ?_) (hf ▸ ?_) hok.laid⟩
  · have hint : ∀ i ∈ RegAlloc.sumsIntervals, typeOf RegAlloc.sums i.1 = .int32 := by decide +kernel
    intro i hi
    rw [hint i hi]
    trivial
  · decide +kernel

end Cminusfc.Codegen
