import Cminusfc.Codegen.Demands
import Cminusfc.Codegen.RegAlloc
import Cminusfc.Codegen.Text

/-!
# Temporaries

`get_temp` (`src/codegen/codegen.cpp` 682–691) hands out the first register of a file that is in
`free_regs`, one set that the routines of all instructions share (`gen_function`, 33–54, sets it up).
`store` (209–281) puts the register of the stored value in, whatever stands there, and `fcmp`
(372–383) that of its left operand; `load` and `gep` ask for a temporary while their own register is
still in the set.

* `Emits`: the generator stands in front of an instruction, and emits it. Functions with calls are
  out of scope: there operands are read from slots.
* `Spared` speaks of the calls of `get_temp` that the routine of an instruction makes, read off the
  log of the routine.
* `Free`: the registers in `free_regs` after a list of instructions, from the instructions alone:
  the last of them that defines or releases the register decides.

Results:
* `spared_iff`: in a function without calls the temporaries spare all live values and pending
  operands, exactly when no such value stands in the smallest free register of a demand.
* `tripled_not_spared`: a store releases the register of a value that is still used.
-/

namespace Cminusfc.Codegen.Temps

open Cminusfc.LightIR
open Fallible (bind_ok)
open RegAlloc (hasFcalls LiveAt)

/-! ## The law -/

section

variable (f : Func)

/-- The generator has emitted `pre` and emits `i` next, the `k`-th instruction of `b`, from `s`. -/
structure Emits (keys : List Value) (s₀ : St) (pre : List InstrId) (b : BlockId) (k : Nat)
    (i : InstrId) (s : St) : Prop where
  order : ∃ bs bs', f.blocks = bs ++ b :: bs' ∧ pre = bs.flatMap f.body ++ (f.body b).take k
  here : (f.body b)[k]? = some i
  reached : ∃ s₁, funPrologue f keys (allocateStack f keys
    { initState f s₀ with s0Offset := fun _ => none }) = .ok s₁ ∧ GenUpTo f s₁ pre s
  emitted : ∃ s', genInstr f i { s with ss := [] } = .ok s'

/-- **Temporaries spare what is needed**: a register that `get_temp` returns is in `reg_mapping`
for no value that is live after the instruction and for no operand that is still to be read. -/
def Spared (keys : List Value) (s₀ : St) : Prop :=
  ∀ pre b k i s, Emits f keys s₀ pre b k i s →
    ∀ c ∈ callsOf (Calls.genInstr f i { s with ss := [] }).log [], ∀ v,
      LiveAt f v b (k + 1) ∨ v ∈ c.pending → ∀ r, c.st.regMapping v = some r → r.reg ≠ c.temp.reg

/-! ## The pool from the instructions alone -/

/-- The registers in the pool after a list of instructions, the last of them in front. -/
def Free (regs : Value → Option Reg) (pool : List Reg) : List InstrId → Reg → Prop
  | [], q => q ∈ pool
  | i :: is, q => defined f regs i ≠ some q ∧ (released f regs i = some q ∨ Free regs pool is q)

/-- The registers of the pool `P` that are left for a demand. -/
def Demand.Left (d : Demand) (regs : Value → Option Reg) (P : Reg → Prop) (q : Reg) : Prop :=
  (P q ∧ d.dest ≠ some q) ∧ ∀ w fl, d.first = some (w, fl) →
    match regs w with
    | some r => q ≠ r
    | none => ¬ Smallest (fun q => P q ∧ d.dest ≠ some q) fl q

/-- The registers of the values in front of the text. -/
def regsOf (s₀ : St) (v : Value) : Option Reg :=
  ((initState f s₀).regMapping v).map RegRef.reg

/-- **No value that is needed stands in the smallest register** that is left for a demand. -/
def Apart (keys : List Value) (s₀ : St) : Prop :=
  ∀ pre b k i s, Emits f keys s₀ pre b k i s → ∀ d ∈ demands f i s, ∀ v,
    LiveAt f v b (k + 1) ∨ v ∈ d.pending → ∀ r, regsOf f s₀ v = some r →
      ¬ Smallest (d.Left (regsOf f s₀)
        (Free f (regsOf f s₀) (initState f s₀).freeRegs pre.reverse)) d.fl r

end

section

variable {f : Func} {i : InstrId} {s s₁ s' : St}

/-! ## The pool of a demand -/

theorem erase_sorted (h : Sorted s.freeRegs) (q : Reg) : Sorted (s.erase q).freeRegs := h.filter _

theorem Demand.state_sorted (d : Demand) (h : Sorted s.freeRegs) :
    Sorted (d.state s).freeRegs := by
  have hdest : Sorted ((d.dest.map s.erase).getD s).freeRegs := by
    cases d.dest with
    | none => exact h
    | some q => exact erase_sorted h q
  unfold Demand.state
  cases d.first with
  | none => exact hdest
  | some w =>
    dsimp only
    split
    · exact erase_sorted hdest _
    · exact hdest

/-- What `get_temp` finds in the pool for a demand. -/
theorem Demand.state_free (d : Demand) (h : Sorted s.freeRegs) (q : Reg) :
    q ∈ (d.state s).freeRegs ↔
      d.Left (fun v => (s.regMapping v).map RegRef.reg) (· ∈ s.freeRegs) q := by
  set s₁ := (d.dest.map s.erase).getD s with hs₁
  have hdest : ∀ q, q ∈ s₁.freeRegs ↔ q ∈ s.freeRegs ∧ d.dest ≠ some q := by
    intro q
    rw [hs₁]
    cases d.dest with
    | none => simp
    | some r => simp [eq_comm]
  have hregs : s₁.regMapping = s.regMapping := by
    rw [hs₁]
    cases d.dest <;> rfl
  have hsorted : Sorted s₁.freeRegs := by
    rw [hs₁]
    cases d.dest with
    | none => exact h
    | some r => exact erase_sorted h r
  unfold Demand.state Demand.Left
  rw [← hs₁]
  cases hfirst : d.first with
  | none => simpa using hdest q
  | some w =>
    obtain ⟨w, fl⟩ := w
    have hall : ∀ X : Value → Bool → Prop,
        (∀ w' fl', some (w, fl) = some (w', fl') → X w' fl') ↔ X w fl := fun X =>
      ⟨fun h => h w fl rfl, fun h w' fl' he => by cases he; exact h⟩
    refine Iff.trans ?_ (and_congr_right' (hall _).symm)
    unfold regOrTemp
    dsimp only
    rw [hregs]
    cases hw : s.regMapping w with
    | some r =>
      simp only [Option.map_some]
      rw [St.mem_erase, hdest]
    | none =>
      simp only [Option.map_none]
      have hsmall := Smallest.congr hdest fl
      cases htemp : getTemp s₁ fl false with
      | ok r =>
        have hr := (hsmall r.reg).mp ((getTemp_iff hsorted r).mp htemp).1
        simp only
        rw [St.mem_erase, hdest]
        refine and_congr_right fun _ => not_congr ?_
        exact ⟨fun he => he ▸ hr, fun hq => hq.unique hr⟩
      | error e =>
        simp only
        rw [hdest]
        refine (and_iff_left fun hq => ?_).symm
        have := (getTemp_iff hsorted ⟨q, false⟩).mpr ⟨(hsmall q).mpr hq, rfl⟩
        rw [htemp] at this
        cases this

/-! ## The pool along the text -/

theorem foldl_insertReg_sorted (l : List Reg) :
    ∀ pool : List Reg, Sorted pool → Sorted (l.foldl insertReg pool) := by
  induction l with
  | nil => exact fun _ h => h
  | cons a l ih => exact fun pool h => ih _ (h.insertReg a)

theorem foldl_sorted (next : St → Value → St)
    (h : ∀ s v, Sorted s.freeRegs → Sorted (next s v).freeRegs) (l : List Value) :
    ∀ s : St, Sorted s.freeRegs → Sorted (l.foldl next s).freeRegs := by
  induction l with
  | nil => exact fun _ hs => hs
  | cons a l ih => exact fun s hs => ih _ (h s a hs)

theorem initState_sorted (s : St) : Sorted (initState f s).freeRegs := by
  unfold initState
  dsimp only
  refine foldl_sorted St.freshArg (fun _ _ h => h) _ _ ?_
  refine foldl_sorted St.eraseArg (fun s v h => erase_sorted (s := s.touchReg v) h _) _ _ ?_
  exact foldl_insertReg_sorted _ _ (foldl_insertReg_sorted _ _ (foldl_insertReg_sorted _ _
    (foldl_insertReg_sorted _ _ List.Pairwise.nil)))

/-- The pool in front of an instruction is what the instructions in front of it make of it. -/
structure Tracked (f : Func) (s₀ : St) (pre : List InstrId) (s : St) : Prop where
  regs : ∀ v, (s.regMapping v).map RegRef.reg = regsOf f s₀ v
  free : ∀ q, q ∈ s.freeRegs ↔
    Free f (regsOf f s₀) (initState f s₀).freeRegs pre.reverse q
  sorted : Sorted s.freeRegs

theorem Tracked.kept {s₀ : St} {pre : List InstrId} (h : Tracked f s₀ pre s) (hk : Kept s s') :
    Tracked f s₀ pre s' :=
  ⟨by rw [hk.regMapping]; exact h.regs, by rw [hk.freeRegs]; exact h.free,
    by rw [hk.freeRegs]; exact h.sorted⟩

/-- One instruction. -/
theorem Tracked.step {s₀ : St} {pre : List InstrId} (h : Tracked f s₀ pre s)
    (hgen : genInstr f i { s with ss := [] } = .ok s') (hcalls : hasFcalls f = false)
    (hcall : (f.instr i).op ≠ .call) : Tracked f s₀ (pre ++ [i]) s' := by
  obtain ⟨hregs, hfree, hsorted⟩ := genInstr_moves hgen hcalls hcall
  have heq : (fun v => (s.regMapping v).map RegRef.reg) = regsOf f s₀ := funext h.regs
  refine ⟨fun v => (hregs v).trans (h.regs v), fun q => ?_, hsorted h.sorted⟩
  dsimp only at hfree
  rw [hfree, heq, h.free, List.reverse_append, List.reverse_singleton, List.singleton_append, Free]

theorem prologue_tracked {keys : List Value} {s₀ : St} (hcalls : hasFcalls f = false)
    (h : funPrologue f keys (allocateStack f keys
      { initState f s₀ with s0Offset := fun _ => none }) = .ok s) : Tracked f s₀ [] s := by
  have hstart : Tracked f s₀ [] { initState f s₀ with s0Offset := fun _ => none } :=
    ⟨fun _ => rfl, fun _ => Iff.rfl, initState_sorted s₀⟩
  rw [allocateStack, if_neg (by simp [hcalls])] at h
  obtain ⟨s₂, h₂, h⟩ := bind_ok.mp h
  obtain ⟨s₃, h₃, h⟩ := bind_ok.mp h
  obtain ⟨s₄, h₄, h⟩ := bind_ok.mp h
  rw [if_neg (by simp [hcalls])] at h
  cases h
  rw [saveFrame, if_neg (by simp [hcalls])] at h₃
  exact hstart.kept ((print_kept h₂).trans ((print_kept h₃).trans (print_kept h₄)))

theorem not_call (hcalls : hasFcalls f = false) (hi : i ∈ f.instrs) : (f.instr i).op ≠ .call := by
  intro hop
  have : hasFcalls f = true := List.any_eq_true.mpr ⟨i, hi, by simp [hop]⟩
  rw [hcalls] at this
  cases this

variable {keys : List Value} {s₀ : St} {pre : List InstrId} {b : BlockId} {k : Nat}

/-- The instructions in front are the function's. -/
theorem Emits.mem_instrs (h : Emits f keys s₀ pre b k i s) : ∀ j ∈ pre, j ∈ f.instrs := by
  obtain ⟨bs, bs', hblocks, rfl⟩ := h.order
  intro j hj
  rw [Func.instrs, hblocks]
  rcases List.mem_append.mp hj with hj | hj
  · rw [List.flatMap_append]
    exact List.mem_append_left _ hj
  · exact List.mem_flatMap.mpr ⟨b, by simp, List.mem_of_mem_take hj⟩

/-- **The invariant** at every instruction. -/
theorem Emits.tracked (h : Emits f keys s₀ pre b k i s) (hcalls : hasFcalls f = false) :
    Tracked f s₀ pre s := by
  obtain ⟨s₁, hpro, hup⟩ := h.reached
  refine hup.induct (P := Tracked f s₀) (prologue_tracked hcalls hpro) ?_
  intro pre' j s₂ s₃ hj htracked hgen
  exact htracked.step hgen hcalls (not_call hcalls (h.mem_instrs j hj))

/-- The calls of `get_temp` in the routine of the instruction are its demands. -/
theorem Emits.calls (h : Emits f keys s₀ pre b k i s) (hcalls : hasFcalls f = false) :
    List.Forall₂ (Meets { s with ss := [] }) (callsOf (Calls.genInstr f i { s with ss := [] }).log [])
      (demands f i s) := by
  obtain ⟨s', hgen⟩ := h.emitted
  have hi : i ∈ f.instrs := by
    obtain ⟨bs, bs', hblocks, -⟩ := h.order
    exact List.mem_flatMap.mpr ⟨b, by simp [hblocks], List.mem_of_getElem? h.here⟩
  rw [← demands_ss]
  exact genInstr_calls hgen hcalls (not_call hcalls hi)

/-- What `get_temp` returns for a demand, from the instructions in front. -/
theorem Emits.smallest (h : Emits f keys s₀ pre b k i s) (hcalls : hasFcalls f = false) {c : Call}
    {d : Demand} (hc : Meets { s with ss := [] } c d) :
    Smallest (d.Left (regsOf f s₀)
      (Free f (regsOf f s₀) (initState f s₀).freeRegs pre.reverse)) d.fl c.temp.reg := by
  have htracked := h.tracked hcalls
  have hregs : (fun v => (s.regMapping v).map RegRef.reg) = regsOf f s₀ := funext htracked.regs
  have hfree : (· ∈ s.freeRegs) = Free f (regsOf f s₀) (initState f s₀).freeRegs pre.reverse :=
    funext fun q => propext (htracked.free q)
  have hsorted : Sorted ({ s with ss := [] } : St).freeRegs := htracked.sorted
  obtain ⟨p, htemp⟩ := hc.temp
  have hcsorted : Sorted c.st.freeRegs := by
    rw [hc.pool]
    exact d.state_sorted hsorted
  have hsmall := ((getTemp_iff hcsorted c.temp).mp htemp).1
  rwa [hc.fl, hc.pool, Smallest.congr (d.state_free hsorted), hregs, hfree] at hsmall

/-- The registers of the values where `get_temp` is called. -/
theorem Emits.call_regs (h : Emits f keys s₀ pre b k i s) (hcalls : hasFcalls f = false) {c : Call}
    {d : Demand} (hc : Meets { s with ss := [] } c d) (v : Value) :
    (c.st.regMapping v).map RegRef.reg = regsOf f s₀ v :=
  (hc.regs v).trans ((h.tracked hcalls).regs v)

/-- **When temporaries spare what is needed.** -/
theorem spared_iff (hcalls : hasFcalls f = false) : Spared f keys s₀ ↔ Apart f keys s₀ := by
  constructor
  · intro h pre b k i s hem d hd v hv r hr hsmall
    obtain ⟨c, hc, hmeets⟩ := forall₂_right (hem.calls hcalls) d hd
    have hreg : r = c.temp.reg := hsmall.unique (hem.smallest hcalls hmeets)
    rw [← hem.call_regs hcalls hmeets v] at hr
    obtain ⟨q, hq, rfl⟩ := Option.map_eq_some_iff.mp hr
    exact h pre b k i s hem c hc v (hmeets.pending ▸ hv) q hq hreg
  · intro h pre b k i s hem c hc v hv r hr hreg
    obtain ⟨d, hd, hmeets⟩ := forall₂_left (hem.calls hcalls) c hc
    refine h pre b k i s hem d hd v (hmeets.pending ▸ hv) r.reg ?_ ?_
    · rw [← hem.call_regs hcalls hmeets v, hr, Option.map_some]
    · rw [hreg]
      exact hem.smallest hcalls hmeets

/-! ## Every instruction of a generated text is emitted -/

theorem genBlocks_upTo {l : List BlockId} :
    ∀ {T T' : Text} {s s' : St}, l.foldlM (genBlock f) (T, s) = .ok (T', s') →
      GenUpTo f s (l.flatMap f.body) s' := by
  induction l with
  | nil =>
    intro T T' s s' h
    cases h
    exact .start
  | cons a l ih =>
    intro T T' s s' h
    rw [List.foldlM_cons] at h
    obtain ⟨c, hc, h⟩ := bind_ok.mp h
    obtain ⟨⟨pieces, s₁⟩, hbb, hc⟩ := bind_ok.mp hc
    cases hc
    exact (genPieces hbb).1.append (ih h)

/-- **Every instruction is emitted** when the function is. -/
theorem generated_emits {T : Text} {bs bs' : List BlockId}
    (h : genFunction f keys s₀ = .ok (T, s')) (hblocks : f.blocks = bs ++ b :: bs')
    (hi : (f.body b)[k]? = some i) :
    ∃ s, Emits f keys s₀ (bs.flatMap f.body ++ (f.body b).take k) b k i s := by
  obtain ⟨s₁, hpro, h⟩ := bind_ok.mp h
  rw [hblocks, List.foldlM_append] at h
  obtain ⟨⟨T₂, s₂⟩, hfront, h⟩ := bind_ok.mp h
  rw [List.foldlM_cons] at h
  obtain ⟨c, hc, -⟩ := bind_ok.mp h
  obtain ⟨⟨pieces, s₃⟩, hbb, -⟩ := bind_ok.mp hc
  obtain ⟨-, new, -, -, hget⟩ := genPieces hbb
  obtain ⟨s₄, s₅, hup, hgen, -⟩ := hget k i hi
  exact ⟨s₄, ⟨bs, bs', hblocks, rfl⟩, hi, ⟨s₁, hpro, (genBlocks_upTo hfront).append hup⟩, s₅, hgen⟩

end

/-! ## A product that is returned -/

/-- In the last block, what is live is read further down. -/
theorem live_below {f : Func} {v : Value} {b : BlockId} {k : Nat} (h : LiveAt f v b k)
    (hsucc : f.succ b = []) : ∃ j i, k ≤ j ∧ (f.body b)[j]? = some i ∧ v ∈ (f.instr i).operands := by
  induction h with
  | @use b k i hi hv => exact ⟨k, i, le_refl k, hi, hv⟩
  | step hi hv _ ih =>
    obtain ⟨j, i, hj, hread⟩ := ih hsucc
    exact ⟨j, i, by omega, hread⟩
  | edge hs _ _ =>
    rw [hsucc] at hs
    cases hs

/-- `return x * 3;` in a function of `x`. -/
def scaled : Func where
  entry := 0
  rest := []
  pre _ := []
  succ _ := []
  name := "scaled"
  retTy := .int32
  args := [.int32]
  body b := if b = 0 then [0, 1] else []
  instr
    | 0 => { op := .mul, ty := .int32, operands := [.arg 0, .int32 3], parent := 0 }
    | _ => { op := .ret, ty := .void, operands := [.instr 0], parent := 0 }
  names
    | .arg 0 => "arg0"
    | .instr 0 => "op1"
    | _ => ""

def scaledState : St where
  regMapping
    | .arg 0 => some ⟨⟨10, false⟩, false⟩
    | .instr 0 => some ⟨⟨5, false⟩, false⟩
    | _ => none
  stackMapping _ := none
  stackSize := 8

/-- `spared_iff` on `scaled`: the product's register is erased before the `3` is loaded. -/
theorem spared_iff_scaled : Spared scaled [] scaledState := by
  refine (spared_iff (by decide)).mpr ?_
  intro pre b k i s hem d hd v hv r hr hsmall
  have hregs := (hem.tracked (by decide)).regs
  obtain ⟨p, hp, hpreg⟩ : ∃ p, s.regMapping (.instr 0) = some p ∧ p.reg = ⟨5, false⟩ :=
    Option.map_eq_some_iff.mp (hregs (.instr 0))
  have hb : b = 0 := by
    obtain ⟨bs, bs', hblocks, -⟩ := hem.order
    have : b ∈ scaled.blocks := by rw [hblocks]; simp
    exact List.mem_singleton.mp this
  subst hb
  have hk : k < 2 := (List.getElem?_eq_some_iff.mp hem.here).1
  have hread : v ∈ d.pending ∨ k = 0 ∧ v = .instr 0 := by
    refine hv.symm.imp_right fun hlive => ?_
    obtain ⟨j, i, hj, hi, hmem⟩ := live_below hlive rfl
    have hj2 : j < 2 := (List.getElem?_eq_some_iff.mp hi).1
    obtain ⟨rfl, rfl⟩ : k = 0 ∧ j = 1 := by omega
    cases hi
    exact ⟨rfl, List.mem_singleton.mp hmem⟩
  have hhere := hem.here
  obtain rfl | rfl : k = 0 ∨ k = 1 := by omega
  · cases hhere
    have hd : d ∈ demands scaled 0 s := hd
    have : demands scaled 0 s =
        binDemands .mul false (.arg 0) (.int32 3) s { dest := some (s.regAt (.instr 0)).reg } := rfl
    rw [this] at hd
    have hpending : (∀ w ∈ d.pending, w = .int32 3) ∧ d.dest = some ⟨5, false⟩ := by
      simp only [binDemands, operand, constant, St.regAt, hp, hpreg, Option.getD_some] at hd
      split_ifs at hd <;> simp_all [asConstantFP, immOf, asConstantInt]
    rcases hread with hread | ⟨-, rfl⟩
    · obtain rfl := hpending.1 v hread
      cases hr
    · have hr : some (⟨5, false⟩ : Reg) = some r := hr
      exact hsmall.1.1.2 (hpending.2.trans hr)
  · cases hhere
    have hd : d ∈ operand (.instr 0) (valueType scaled (.instr 0)).isFloat s
        { pending := [.instr 0] } := hd
    simp [operand, hp, constant, asConstantFP] at hd

/-! ## A value in a released register -/

/-- Values that are live together have different registers. -/
def Separate (f : Func) (s₀ : St) : Prop :=
  ∀ b k v w r q, LiveAt f v b k → LiveAt f w b k → v ≠ w →
    s₀.regMapping v = some r → s₀.regMapping w = some q → r.reg ≠ q.reg

/-- `y = x + 1; g = y; return y * 3 + y;` in a function of `x`, after `Mem2Reg`. -/
def tripled : Func where
  entry := 0
  rest := []
  pre _ := []
  succ _ := []
  name := "tripled"
  retTy := .int32
  args := [.int32]
  body b := if b = 0 then [0, 1, 2, 3, 4] else []
  instr
    | 0 => { op := .add, ty := .int32, operands := [.arg 0, .int32 1], parent := 0 }
    | 1 => { op := .store, ty := .void, operands := [.instr 0, .global "g"], parent := 0 }
    | 2 => { op := .mul, ty := .int32, operands := [.instr 0, .int32 3], parent := 0 }
    | 3 => { op := .add, ty := .int32, operands := [.instr 2, .instr 0], parent := 0 }
    | _ => { op := .ret, ty := .void, operands := [.instr 3], parent := 0 }
  names
    | .arg 0 => "arg0"
    | .instr 0 => "op1"
    | .instr 2 => "op2"
    | .instr 3 => "op3"
    | _ => ""

def tripledState : St where
  regMapping
    | .arg 0 => some ⟨⟨10, false⟩, false⟩
    | .instr 0 => some ⟨⟨5, false⟩, false⟩
    | .instr 2 => some ⟨⟨6, false⟩, false⟩
    | .instr 3 => some ⟨⟨7, false⟩, false⟩
    | _ => none
  stackMapping _ := none
  stackSize := 8

theorem tripled_separate : Separate tripled tripledState := by
  intro b k v w r q _ _ hne hr hq he
  unfold tripledState at hr hq
  dsimp only at hr hq
  split at hr <;> split at hq <;> cases hr <;> cases hq <;> first
    | exact hne rfl
    | cases he

/-- How the text of `tripled` is generated. -/
theorem tripled_generated : ∃ T s', genFunction tripled [] tripledState = .ok (T, s') := by
  have hok : (genFunction tripled [] tripledState).isOk = true := by decide +kernel
  cases h : genFunction tripled [] tripledState with
  | error e =>
    rw [h] at hok
    cases hok
  | ok c => exact ⟨c.1, c.2, rfl⟩

/-- The store of `y` makes its register free, and the `3` of the product is put there, while the
sum still needs `y`. -/
theorem tripled_not_spared :
    hasFcalls tripled = false ∧ Separate tripled tripledState ∧
      ¬ Spared tripled [] tripledState := by
  refine ⟨by decide, tripled_separate, fun h => ?_⟩
  obtain ⟨T, s', hgen⟩ := tripled_generated
  obtain ⟨s, hem⟩ := @generated_emits _ 2 _ _ _ 0 2 _ [] [] hgen rfl rfl
  have hregs := (hem.tracked (by decide)).regs
  obtain ⟨d, hd, hdest⟩ : ∃ d, s.regMapping (.instr 2) = some d ∧ d.reg = ⟨6, false⟩ :=
    Option.map_eq_some_iff.mp (hregs (.instr 2))
  obtain ⟨y, hy, hyreg⟩ : ∃ y, s.regMapping (.instr 0) = some y ∧ y.reg = ⟨5, false⟩ :=
    Option.map_eq_some_iff.mp (hregs (.instr 0))
  have hthree : s.regMapping (.int32 3) = none := Option.map_eq_none_iff.mp (hregs (.int32 3))
  obtain ⟨c, hc, hmeets⟩ : ∃ c ∈ callsOf (Calls.genInstr tripled 2 { s with ss := [] }).log [],
      Meets { s with ss := [] } c
        ⟨false, some ⟨6, false⟩, none, [.int32 3, .int32 3]⟩ := by
    refine forall₂_right (hem.calls (by decide)) _ ?_
    have : demands tripled 2 s =
        binDemands .mul false (.instr 0) (.int32 3) s { dest := some (s.regAt (.instr 2)).reg } := rfl
    rw [this]
    simp only [binDemands, operand, St.regAt, hd, hdest, Option.getD_some, Bool.not_false,
      Bool.true_and, reduceCtorEq, decide_false, Bool.or_false, Bool.false_and, if_false,
      List.mem_append, Bool.false_eq_true]
    exact .inr (.inl (by rw [hthree]; exact List.mem_singleton_self _))
  obtain ⟨q, hq, hqreg⟩ : ∃ q, c.st.regMapping (.instr 0) = some q ∧ q.reg = ⟨5, false⟩ :=
    Option.map_eq_some_iff.mp (hem.call_regs (by decide) hmeets (.instr 0))
  -- `y` is live: the sum reads it
  refine h _ _ _ _ _ hem c hc (.instr 0) (.inl (.use (i := 3) rfl (by decide))) q hq ?_
  rw [hqreg]
  refine Smallest.unique ?_ (hem.smallest (by decide) hmeets)
  have hnone : defined tripled (regsOf tripled tripledState) 1 = none := rfl
  refine ⟨⟨⟨?_, ?_⟩, by rintro _ _ ⟨⟩⟩, rfl, fun q hq _ => ?_⟩
  · exact ⟨fun he => absurd he (by simp [hnone]), .inl rfl⟩
  · decide
  · have hpool : ∀ q ∈ (initState tripled tripledState).freeRegs, q.less ⟨5, false⟩ = false := by
      decide
    obtain ⟨⟨⟨-, hfree⟩, -⟩, -⟩ := hq
    rcases hfree with hq | ⟨-, hq | hq⟩
    · cases hq
      rfl
    · cases hq
    · exact hpool q hq

end Cminusfc.Codegen.Temps
