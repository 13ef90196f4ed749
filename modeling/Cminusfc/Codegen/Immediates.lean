import Cminusfc.Codegen.Frame

/-!
# Immediates

What the assembler asks of a text: twelve bits for the immediates of `addi`, `andi`, `xori`, loads and
stores, twenty bits for that of `lui`.

`assign` and `bin_inst` look whether a constant is an immediate before they print it; the size of the
frame, the offsets of constant-indexed accesses, the upper part of a negative constant and a negated
constant are printed as they are. Offsets are unbounded integers here: where one does not fit an `int`,
the sum of the source overflows.

Results:
* `Allocated.slots`, `frameSt_offsets`: slots and save slots lie in the frame.
* `prologue_inRange_iff`: the prologue asks for a frame of at most 2047 bytes.
* `immediates_iff`: **all immediates of a module are in range exactly when the frames are that small
  and no instruction needs more**.

About `src/codegen/codegen.cpp` 111-740. Out of scope: the size of branches and calls.
-/

namespace Cminusfc.Codegen

open Cminusfc.LightIR
open Fallible (bind_ok map_ok)
open RegAlloc (hasFcalls typeOf ValInterval Members Alloc initFunc scanInstr scanBlock scanArgs scanInterval
  expireOldIntervals expireOldIntervals_members)

/-- The immediates of a text are in their ranges. -/
def Text.Assembles (T : Text) : Prop :=
  (∀ c ∈ T.prologue, InRange c) ∧ ∀ b ∈ T.blocks, ∀ code ∈ b.2, ∀ c ∈ code, InRange c

instance (T : Text) : Decidable T.Assembles := inferInstanceAs (Decidable (_ ∧ _))

/-- The register of a value. -/
def FuncAlloc.regAt (a : FuncAlloc) (v : Value) : RegRef := (a.regMapping v).getD ⟨⟨-1, false⟩, false⟩

/-- The slot of a value, or 0. -/
def FuncAlloc.stackAt (a : FuncAlloc) (v : Value) : Int := (a.stackMapping v).getD 0

/-- The size of the frame: allocas and spilled values, and in a function that calls a save slot for
each value in a caller-saved register. -/
def frameSize (a : FuncAlloc) : Int :=
  if hasFcalls a.f then
    a.keys.foldl (fun n v =>
      if (a.regAt v).reg ∈ callerSavedRegs then n + saveSize a.f v else n) a.stackSize
  else a.stackSize

/-- What the code of a function needs is an immediate: the size of its frame, its negative constants,
the negation of the constants it subtracts, and the offsets of its constant-indexed accesses. -/
structure Encodable (a : FuncAlloc) : Prop where
  frame : frameSize a ≤ 2047
  instrs : ∀ b ∈ a.f.blocks, ∀ i ∈ a.f.body b, InstrOk a.f a.stackAt (a.f.instr i)

/-! ## Slots -/

section Slots

variable {ι : Type} {n : Int} {slots : ι → Option Int}

/-- All slots lie in the first `n` bytes below `s0`. -/
def SlotsIn (n : Int) (slots : ι → Option Int) : Prop :=
  ∀ i off, slots i = some off → -n ≤ off ∧ off ≤ 0

theorem SlotsIn.set [DecidableEq ι] (h : SlotsIn n slots) {k : Int} (hk : n ≤ k) {i : ι} {off : Int}
    (hlow : -k ≤ off) (hhigh : off ≤ 0) : SlotsIn k (Function.update slots i (some off)) := by
  intro j o hj
  by_cases hji : j = i
  · rw [hji, Function.update_self] at hj
    cases hj
    exact ⟨hlow, hhigh⟩
  · rw [Function.update_of_ne hji] at hj
    have := h j o hj
    omega

/-- The next slot, below the others. -/
theorem SlotsIn.push [DecidableEq ι] (h : SlotsIn n slots) (hn : 0 ≤ n) {k : Int} (hk : 0 ≤ k)
    (i : ι) : SlotsIn (n + k) (Function.update slots i (some (-(n + k)))) :=
  h.set (by omega) (by omega) (by omega)

/-- A slot, or the default. -/
theorem SlotsIn.getD (h : SlotsIn n slots) (hn : 0 ≤ n) (i : ι) :
    -n ≤ (slots i).getD 0 ∧ (slots i).getD 0 ≤ 0 := by
  cases hi : slots i with
  | none => exact ⟨by show -n ≤ 0; omega, Int.le_refl 0⟩
  | some off => exact h i off hi

end Slots

section

variable {f : Func}

/-- **The allocas.** -/
theorem initFunc_slots {fuel : Nat} {o : RegAlloc.Order} {m : Members}
    (h : initFunc f fuel = .ok (o, m)) : 0 ≤ m.stackSize ∧ SlotsIn m.stackSize m.stackMappings := by
  let I : Members → Prop := fun m => 0 ≤ m.stackSize ∧ SlotsIn m.stackSize m.stackMappings
  have hinstr : ∀ m p i, I m → I (scanInstr f m p i) := by
    intro m p i ⟨h0, hin⟩
    have hrands : ∀ m', I m' → I ((f.instr i).operands.foldl (RegAlloc.touch p) m') := fun m' hm =>
      List.foldlRecOn _ _ hm fun _ hm _ _ => hm
    unfold RegAlloc.scanInstr
    dsimp only
    split_ifs
    · have hsize := Int.natCast_nonneg (((f.instr i).ty.pointerElementType.map Ty.size).getD 0)
      exact ⟨Int.add_nonneg h0 hsize, hin.push h0 hsize _⟩
    · exact hrands _ ⟨h0, hin⟩
    · exact hrands _ ⟨h0, hin⟩
  have hblock : ∀ m b, I m → I (scanBlock f m b) := fun m b hm =>
    List.foldlRecOn _ _ hm fun m hm i _ => hinstr m _ i.1 hm
  have hargs : ∀ m, I m → I (scanArgs f m) := fun m hm => by
    refine List.foldlRecOn _ _ hm fun m hm no _ => ?_
    split_ifs
    · exact hm
    · exact hm
  unfold RegAlloc.initFunc at h
  split at h
  · cases h
  · cases h
    refine List.foldlRecOn _ _ (hargs _ ⟨?_, fun v off hv => by cases hv⟩)
      fun m hm b _ => hblock m b hm
    dsimp only
    split_ifs <;> decide

/-- One interval: a spilled value gets a slot of its size. -/
theorem scanInterval_in {less : Value → Value → Bool} {i : ValInterval} {s s' : Alloc}
    (hs : 0 ≤ s.stackSize ∧ SlotsIn s.stackSize s.stackMappings)
    (h : scanInterval f less s i = .ok s') :
    s.stackSize ≤ s'.stackSize ∧ SlotsIn s'.stackSize s'.stackMappings := by
  obtain ⟨-, hslots, hsize⟩ := expireOldIntervals_members s i
  unfold RegAlloc.scanInterval at h
  dsimp only at h
  split_ifs at h
  · cases h
    rw [hslots, hsize]
    exact ⟨Int.le_refl _, hs.2⟩
  · unfold RegAlloc.spillAtInterval at h
    split at h
    · cases h
    · rename_i spill _
      have hspill : ∀ v, s.stackSize ≤ (expireOldIntervals s i).stackSize + (typeOf f v).size ∧
          SlotsIn ((expireOldIntervals s i).stackSize + (typeOf f v).size)
            (Function.update (expireOldIntervals s i).stackMappings v
              (some (-((typeOf f v).size : Int)))) := by
        intro v
        rw [hslots, hsize]
        exact ⟨by omega, hs.2.set (by omega) (by omega) (by omega)⟩
      split_ifs at h
      · cases h
        exact hspill spill.1
      · cases h
        exact hspill i.1
  · obtain ⟨s₁, h₁, rfl⟩ := map_ok.mp h
    obtain ⟨-, hslots₁, hsize₁, -⟩ := RegAlloc.assignReg_members h₁
    dsimp only
    rw [hslots₁, hsize₁, hslots, hsize]
    exact ⟨Int.le_refl _, hs.2⟩

/-- **The slots that the allocator hands over**, below the saved words. -/
theorem Allocated.slots {a : FuncAlloc} {intervals : List ValInterval} (h : Allocated a intervals) :
    savedSize a.f ≤ a.stackSize ∧ SlotsIn a.stackSize a.stackMapping := by
  obtain ⟨fuel, less, o, m, s, hinit, -, -, hal, -, hslots, hsize⟩ := h
  obtain ⟨h0, hin⟩ := initFunc_slots hinit
  have hbase := (initFunc_laid hinit).base
  obtain ⟨s₀, hargs, hscan⟩ := bind_ok.mp hal
  obtain ⟨-, hslots₀, hsize₀, -⟩ := RegAlloc.preAllocateArgs_members hargs
  rw [hslots, hsize]
  have hkeep := Fallible.foldlM_keeps
    (I := fun s : Alloc => m.stackSize ≤ s.stackSize ∧ SlotsIn s.stackSize s.stackMappings)
    (fun i _ s s' hs hstep => ?_) (by rw [hslots₀, hsize₀]; exact ⟨Int.le_refl _, hin⟩) hscan
  · exact ⟨by omega, hkeep.2⟩
  · obtain ⟨hgrow, hin'⟩ := scanInterval_in ⟨by omega, hs.2⟩ hstep
    exact ⟨by omega, hin'⟩

/-- **The loop of `allocate_stack`**, for any frame in front of it. -/
theorem reserve_offsets {keys : List Value} (regAt : Value → RegRef) :
    ∀ {s : St}, s.regAt = regAt → 0 ≤ s.stackSize → SlotsIn s.stackSize s.s0Offset →
      s.stackSize ≤ (keys.foldl (reserve f) s).stackSize ∧
        (keys.foldl (reserve f) s).stackSize = keys.foldl (fun n v =>
          if (regAt v).reg ∈ callerSavedRegs then n + saveSize f v else n) s.stackSize ∧
        SlotsIn (keys.foldl (reserve f) s).stackSize (keys.foldl (reserve f) s).s0Offset := by
  induction keys with
  | nil => exact fun _ _ hin => ⟨Int.le_refl _, rfl, hin⟩
  | cons v keys ih =>
    intro s hat h0 hin
    obtain ⟨hge, -⟩ := saveSize_ge f v
    have hregs : (reserve f s v).regAt = regAt := by
      rw [← hat]
      funext w
      rw [St.regAt, St.regAt, (reserve_members f s v).2.2.1]
    have hstep : s.stackSize ≤ (reserve f s v).stackSize ∧
        (reserve f s v).stackSize =
          (if (regAt v).reg ∈ callerSavedRegs then s.stackSize + saveSize f v else s.stackSize) ∧
        SlotsIn (reserve f s v).stackSize (reserve f s v).s0Offset := by
      unfold reserve
      rw [hat]
      split_ifs
      · exact ⟨Int.le_add_of_nonneg_right (by omega), rfl, hin.push h0 (by omega) _⟩
      · exact ⟨Int.le_refl _, rfl, hin⟩
    obtain ⟨hle, hsum, hin'⟩ := ih hregs (by omega) hstep.2.2
    rw [List.foldl_cons, List.foldl_cons, ← hstep.2.1]
    exact ⟨by omega, hsum, hin'⟩

/-- **The frame** that the prologue enters. -/
theorem frameSt_offsets {a : FuncAlloc} {intervals : List ValInterval} (h : Allocated a intervals)
    (s : St) : (frameSt a s).stackSize = frameSize a ∧ a.stackSize ≤ frameSize a ∧
      SlotsIn (frameSize a) (frameSt a s).s0Offset := by
  obtain ⟨hbase, -⟩ := h.slots
  have h0 : 0 ≤ a.stackSize := by
    have : 0 ≤ savedSize a.f := by unfold savedSize; split_ifs <;> decide
    omega
  obtain ⟨hsize, -, hat⟩ := openSt_members a s
  have hnone : SlotsIn (openSt a s).stackSize (openSt a s).s0Offset := fun r off hr => by cases hr
  obtain ⟨hle, hsum, hin⟩ := @reserve_offsets a.f a.keys a.regAt _ hat (by rw [hsize]; exact h0) hnone
  rw [hsize] at hle hsum hnone
  unfold frameSt frameSize
  rw [allocateStack_eq]
  split_ifs
  · rw [← hsum]
    exact ⟨rfl, hle, hin⟩
  · exact ⟨hsize, Int.le_refl _, hnone⟩

end

/-! ## The text -/

section

variable {a : FuncAlloc} {intervals : List ValInterval} {s s' : St} {T : Text}

theorem savedSize_cases (f : Func) : savedSize f = 16 ∧ hasFcalls f = true ∨
    savedSize f = 8 ∧ hasFcalls f = false := by
  unfold savedSize
  cases hasFcalls f
  · exact Or.inr ⟨rfl, rfl⟩
  · exact Or.inl ⟨rfl, rfl⟩

/-- The lines that save the registers of the arguments are stores to their slots. -/
theorem mem_pushLines {f : Func} {keys : List Value} {c : Code} (h : c ∈ pushLines f keys s) :
    ∃ r off, s.s0Offset r.reg = some off ∧ c = pushLine r off := by
  unfold pushLines at h
  split_ifs at h
  · obtain ⟨r, -, hc⟩ := List.mem_flatMap.mp h
    split_ifs at hc
    · cases ho : s.s0Offset r with
      | none =>
        rw [ho] at hc
        cases hc
      | some off =>
        rw [ho] at hc
        exact ⟨_, off, ho, List.mem_singleton.mp hc⟩
    · cases hc
  · cases h

/-- **The prologue** asks for a small frame, and for nothing else. -/
theorem prologue_inRange_iff (h : Allocated a intervals)
    (hpro : bodyState a.f a.keys (a.enter s) = .ok s') :
    (∀ c ∈ s'.ss, InRange c) ↔ frameSize a ≤ 2047 := by
  obtain ⟨hsize, hle, hoffsets⟩ := frameSt_offsets h s
  obtain ⟨hbase, -⟩ := h.slots
  have ht : OnlyText (frameSt a s) s' _ := funPrologue_text hpro
  have hss : (frameSt a s).ss = [] :=
    (allocateStack_members a.f a.keys (openSt a s)).2.2.2.1.trans
      (initState_members a.f (a.enter s)).2.2.2.1
  rw [ht]
  simp only [hss, List.nil_append, hsize, List.forall_mem_append, List.forall_mem_singleton]
  constructor
  · rintro ⟨⟨-, hframe⟩, -⟩
    simp only [InRange, isImm, Bool.and_eq_true, decide_eq_true_eq] at hframe
    exact hframe.2
  · intro hsmall
    refine ⟨⟨⟨?_, ?_⟩, ?_⟩, ?_⟩
    · simp only [InRange, isImm, Bool.and_eq_true, decide_eq_true_eq]
      have := savedSize_cases a.f
      omega
    · intro c hc
      unfold saveLines at hc
      obtain ⟨hsaved, hcalls⟩ | ⟨hsaved, hcalls⟩ := savedSize_cases a.f
      · simp only [hcalls, if_true, List.mem_cons, List.not_mem_nil, or_false] at hc
        rcases hc with rfl | rfl <;>
        · simp only [InRange, isImm, Bool.and_eq_true, decide_eq_true_eq]
          omega
      · simp only [hcalls, Bool.false_eq_true, if_false, List.mem_singleton] at hc
        subst hc
        simp only [InRange, isImm, Bool.and_eq_true, decide_eq_true_eq]
        omega
    · simp only [InRange, isImm, Bool.and_eq_true, decide_eq_true_eq]
      have := savedSize_cases a.f
      omega
    · intro c hc
      obtain ⟨r, off, ho, rfl⟩ := mem_pushLines hc
      have hin := hoffsets r.reg off ho
      simp only [pushLine, InRange, isImm, Bool.and_eq_true, decide_eq_true_eq]
      omega

/-- A small frame keeps the slots at most 2048 bytes below `s0`. -/
theorem bodyState_bounded (h : Allocated a intervals) (hsmall : frameSize a ≤ 2047)
    (hpro : bodyState a.f a.keys (a.enter s) = .ok s') : Bounded s' ∧ s'.stackAt = a.stackAt := by
  obtain ⟨hsize, hle, hoffsets⟩ := frameSt_offsets h s
  obtain ⟨hbase, hslots⟩ := h.slots
  have hsaved := savedSize_cases a.f
  have ht : OnlyText (frameSt a s) s' _ := funPrologue_text hpro
  have hmapping : (frameSt a s).stackMapping = a.stackMapping :=
    (allocateStack_members a.f a.keys (openSt a s)).2.1.trans (openSt_members a s).2.1
  have hat : s'.stackAt = a.stackAt := by
    funext v
    rw [ht, St.stackAt, FuncAlloc.stackAt]
    dsimp only
    rw [hmapping]
  refine ⟨⟨fun v => ?_, fun r => ?_, ?_⟩, hat⟩
  · rw [hat]
    have := hslots.getD (by omega) v
    unfold FuncAlloc.stackAt
    omega
  · rw [ht]
    have := hoffsets.getD (by omega) r
    show isImm (((frameSt a s).s0Offset r).getD 0) = true
    simp only [isImm, Bool.and_eq_true, decide_eq_true_eq]
    omega
  · rw [ht]
    dsimp only
    omega

/-- Pieces that are in range one by one. -/
theorem forall₂_all_iff {α β : Type} {A : α → Prop} {B : β → Prop} {l : List α} {l' : List β}
    (h : List.Forall₂ (fun a b => B b ↔ A a) l l') : (∀ b ∈ l', B b) ↔ ∀ a ∈ l, A a := by
  induction h with
  | nil => simp
  | cons hab _ ih => rw [List.forall_mem_cons, List.forall_mem_cons, hab, ih]

/-- **One function.** -/
theorem genFunction_assembles_iff (h : Allocated a intervals) (hn : Named a.f)
    (hgen : genFunction a.f a.keys (a.enter s) = .ok (T, s')) : T.Assembles ↔ Encodable a := by
  have hwf := h.wf hn
  -- in a small frame each piece is in range by itself
  have hstep : StepKeeps a.f (fun s₁ => Bounded s₁ ∧ s₁.stackAt = a.stackAt ∧ NoConst s₁)
      fun _ i code => (∀ c ∈ code, InRange c) ↔ InstrOk a.f a.stackAt (a.f.instr i) := by
    rintro i s₁ s₂ ⟨hbound, hat, hk⟩ hinstr
    obtain ⟨cs, -, he⟩ := genInstr_emits hwf.named (s := { s₁ with ss := [] }) hk hinstr
    refine ⟨⟨he.bounded ⟨hbound.slots, hbound.saves, hbound.frame⟩, he.stackAt.trans hat,
      he.noConst hk⟩, ?_, fun _ _ => id⟩
    obtain ⟨text, htext, -, hrange⟩ := he.text
    rw [htext]
    refine (hrange ⟨hbound.slots, hbound.saves, hbound.frame⟩).trans ?_
    show InstrOk a.f s₁.stackAt (a.f.instr i) ↔ _
    rw [hat]
  obtain ⟨s₁, hpro, hprologue, hrest⟩ := genFunction_keeps hstep hgen
  have hframe := prologue_inRange_iff h hpro
  have hblocks : frameSize a ≤ 2047 → ((∀ b ∈ T.blocks, ∀ code ∈ b.2, ∀ c ∈ code, InRange c) ↔
      ∀ b ∈ a.f.blocks, ∀ i ∈ a.f.body b, InstrOk a.f a.stackAt (a.f.instr i)) := fun hsmall => by
    obtain ⟨hbound, hat⟩ := bodyState_bounded h hsmall hpro
    obtain ⟨-, -, hpieces⟩ := hrest ⟨hbound, hat, (bodyState_floats hpro).2 hwf.noConst⟩
    exact forall₂_all_iff (List.Forall₂.imp (fun b p hp => forall₂_all_iff hp.2) hpieces)
  unfold Text.Assembles
  rw [hprologue, hframe]
  exact ⟨fun ⟨hsmall, hall⟩ => ⟨hsmall, (hblocks hsmall).mp hall⟩,
    fun hok => ⟨hok.frame, (hblocks hok.frame).mpr hok.instrs⟩⟩

/-- **A module**: its immediates are in range exactly when the frame of each function is at most 2047
bytes, no instruction is given a constant below -2048 or subtracts -2048, and each constant-indexed
access lies at most that far from its base. -/
theorem immediates_iff {fs : List FuncAlloc} {texts : List Text}
    (hal : ∀ a ∈ fs, ∃ intervals, Allocated a intervals) (hn : ∀ a ∈ fs, Named a.f)
    (hgen : genModule fs s = .ok (texts, s')) :
    (∀ T ∈ texts, T.Assembles) ↔ ∀ a ∈ fs, Encodable a := by
  suffices hloop : ∀ (fs : List FuncAlloc) (acc : List Text) (s : St),
      (∀ a ∈ fs, ∃ intervals, Allocated a intervals) → (∀ a ∈ fs, Named a.f) →
      fs.foldlM genModuleStep (acc, s) = .ok (texts, s') →
      ∃ new, texts = acc ++ new ∧ ((∀ T ∈ new, T.Assembles) ↔ ∀ a ∈ fs, Encodable a) by
    obtain ⟨new, rfl, hiff⟩ := hloop fs [] s hal hn hgen
    exact hiff
  intro fs
  induction fs with
  | nil =>
    intro acc s _ _ h
    cases h
    exact ⟨[], (List.append_nil _).symm, by simp⟩
  | cons a fs ih =>
    intro acc s hal hn h
    obtain ⟨⟨intervals, ha⟩, hal⟩ := List.forall_mem_cons.mp hal
    obtain ⟨hna, hn⟩ := List.forall_mem_cons.mp hn
    rw [List.foldlM_cons] at h
    obtain ⟨c, hc, h⟩ := bind_ok.mp h
    obtain ⟨⟨T, s₁⟩, hfun, hc⟩ := bind_ok.mp hc
    cases hc
    obtain ⟨new, hnew, hiff⟩ := ih _ _ hal hn h
    refine ⟨T :: new, ?_, ?_⟩
    · rw [hnew, List.append_assoc, List.singleton_append]
    · rw [List.forall_mem_cons, List.forall_mem_cons, hiff, genFunction_assembles_iff ha hna hfun]

end

/-- The theorem at a function that calls. -/
theorem immediates_iff_caller : ∃ texts s', genModule [callerAlloc] startSt = .ok (texts, s') ∧
    ((∀ T ∈ texts, T.Assembles) ↔ ∀ a ∈ [callerAlloc], Encodable a) := by
  obtain ⟨hal, hf⟩ : Allocated callerAlloc callerIntervals ∧ callerAlloc.f = caller :=
    handOver_getD (by decide +kernel)
  have hsome : (genModule [callerAlloc] startSt).toOption.isSome = true := by decide +kernel
  cases hgen : genModule [callerAlloc] startSt with
  | error e =>
    rw [hgen] at hsome
    cases hsome
  | ok c =>
    refine ⟨c.1, c.2, rfl, immediates_iff (fun a ha => ?_) (fun a ha => ?_) hgen⟩
    · obtain rfl := List.mem_singleton.mp ha
      exact ⟨_, hal⟩
    · obtain rfl := List.mem_singleton.mp ha
      exact hf ▸ caller_named

/-- `int main(void) { int a[1000]; return 0; }`. -/
def bigLocal : Func where
  entry := 0
  rest := []
  pre _ := []
  succ _ := []
  name := "main"
  retTy := .int32
  args := []
  body bb := if bb = 0 then [0, 1] else []
  instr i :=
    if i = 0 then { op := .alloca, ty := .pointer (.array .int32 1000), operands := [], parent := 0 }
    else { op := .ret, ty := .void, operands := [.int32 0], parent := 0 }
  uses _ := []
  names _ := ""
  next := 2

/-- What is handed over for it. -/
def bigLocalAlloc : FuncAlloc :=
  (handOver bigLocal 3 (fun _ _ => false) [] []).getD ⟨bigLocal, [], fun _ => none, fun _ => none, 0⟩

/-- **An array of 1000 integers**: the prologue adds -4008 to `sp`. -/
theorem bigLocal_out_of_range : Allocated bigLocalAlloc [] ∧
    ∃ texts s', genModule [bigLocalAlloc] startSt = .ok (texts, s') ∧ ¬ ∀ T ∈ texts, T.Assembles := by
  obtain ⟨hal, -⟩ : Allocated bigLocalAlloc [] ∧ bigLocalAlloc.f = bigLocal :=
    handOver_getD (by decide +kernel)
  refine ⟨hal, ?_⟩
  have hall : (genModule [bigLocalAlloc] startSt).toOption.all
      (fun c => decide (¬ ∀ T ∈ c.1, T.Assembles)) = true := by decide +kernel
  have hsome : (genModule [bigLocalAlloc] startSt).toOption.isSome = true := by decide +kernel
  cases hgen : genModule [bigLocalAlloc] startSt with
  | error e =>
    rw [hgen] at hsome
    cases hsome
  | ok c =>
    rw [hgen] at hall
    exact ⟨c.1, c.2, rfl, of_decide_eq_true hall⟩

end Cminusfc.Codegen
