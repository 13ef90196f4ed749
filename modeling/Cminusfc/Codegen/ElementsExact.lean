import Cminusfc.Codegen.ElementsCorrect

/-!
# Loads and stores: the condition is exact

Where the condition fails the routines throw, or there is a machine state in which the code goes wrong
(`src/codegen/codegen.cpp`, lines 119-304):

* the pool is short of a register (`gep_supplied`, `store_operand`, `store_address`);
* `gep` reads the index from a slot nothing wrote, or adds `s0 - 16` into the register of the pointer
  itself (`computes_stale`, `computes_handed`);
* the operand is read from a slot nothing wrote (`stores_stale`);
* the operand is brought into the register of the pointer or the base, or the address of a float
  constant is (`stores_slot_spares`, `stores_param_spares`);
* the address of a global array is loaded into the register of the index (`loads_handed`,
  `stores_handed`), or the operand shares that register, which the code has scaled by then
  (`stores_index`);
* the index of a global array is read from a slot nothing wrote (`loads_stale_global`);
* the load after the store finds the index scaled, or the registers given up (`readsBack_stale_global`,
  `readsBack_stale_param`);
* `store` refuses an array parameter with a constant index (`store_param_const`).
-/

namespace Cminusfc.Codegen.Elements

open Cminusfc.LightIR
open Fallible (bind_ok)
open RegAlloc (hasFcalls)

variable {f : Func} {s₀ s s' : St} {ptr rval : Value} {g dest : InstrId} {e : Element} {fl : Bool}

/-! ## States -/

/-- The byte `1` everywhere. -/
def ones : Riscv.Mem := fun _ => 1

theorem readWord_ones (a : Riscv.Word) : ones.readWord a = 0x01010101 := by
  simp only [Riscv.Mem.readWord, ones]
  decide

/-- The frame pointer of the states below. -/
def frame : Riscv.Word := 0x100000

/-- An address far from the frame. -/
def Far (a : Riscv.Word) : Prop := a.toNat < 1000 ∨ 0x1000000 ≤ a.toNat ∧ a.toNat < 0x8000000000000000

instance (a : Riscv.Word) : Decidable (Far a) := inferInstanceAs (Decidable (_ ∨ _))

/-- Slots lie elsewhere. -/
theorem slot_apart {o : Int} (ho : isImm o = true) {a : Riscv.Word} (ha : Far a) :
    Riscv.Apart a (frame + BitVec.ofInt 64 o) ∧ Riscv.Apart a (frame + BitVec.ofInt 64 o + 4) := by
  have hb : -2048 ≤ o ∧ o ≤ 2047 := by simpa [isImm] using ho
  have hnat : (frame + BitVec.ofInt 64 o).toNat = (1048576 + o).toNat := by
    have : frame + BitVec.ofInt 64 o = BitVec.ofInt 64 (1048576 + o) := by
      rw [BitVec.ofInt_add]
      rfl
    rw [this, BitVec.toNat_ofInt]
    omega
  generalize frame + BitVec.ofInt 64 o = b at hnat ⊢
  have hlo : 1000000 ≤ b.toNat := by omega
  have hhi : b.toNat ≤ 2000000 := by omega
  unfold Far at ha
  refine ⟨⟨?_, ?_⟩, ?_, ?_⟩ <;> bv_omega

/-! ## The pool -/

/-- Nothing has written to the slots. -/
def Unwritten (mem : Riscv.Mem) : Prop :=
  ∀ o, isImm o = true → mem.readWord (frame + BitVec.ofInt 64 o) = 0 ∧
    mem.readWord (frame + BitVec.ofInt 64 o + 4) = 0

theorem Unwritten.store {mem : Riscv.Mem} (h : Unwritten mem) (w : Bool) {a : Riscv.Word}
    (x : Riscv.Word) (ha : Far a) : Unwritten (mem.store (elemWidth w) a x) := by
  intro o ho
  obtain ⟨hapart, hapart'⟩ := slot_apart ho ha
  have hwrite : mem.store (elemWidth w) a x = mem.writeWord a (x.setWidth 32) := by cases w <;> rfl
  rw [hwrite, Riscv.Mem.readWord_writeWord_apart _ _ hapart,
    Riscv.Mem.readWord_writeWord_apart _ _ hapart']
  exact h o ho

/-- Zero in every register but `s0`. -/
def rest (mem : Riscv.Mem) : Riscv.State Reg Unit := ⟨fun r => if r = s0.reg then frame else 0, mem, ()⟩

theorem StoreReady.mapped (hs : StoreReady f s ptr rval e fl) {r : RegRef}
    (hr : s.regMapping rval = some r) : Mapped f s rval fl false r := by
  obtain ⟨r', hr'⟩ | ⟨hno, -⟩ := hs.source
  · rw [Option.some.inj (hr.symm.trans hr'.reg)]
    exact hr'
  · rw [hno] at hr
    cases hr

/-- The slots hold the byte `1`. -/
def Filled (mem : Riscv.Mem) : Prop :=
  ∀ o, isImm o = true → mem.readWord (frame + BitVec.ofInt 64 o) = 0x01010101 ∧
    mem.readWord (frame + BitVec.ofInt 64 o + 4) = 0x01010101

/-- What a slot with the byte `1` is loaded as. -/
def oneOf (r : RegRef) : Riscv.Word := ones.load (slotWidth r) 0

theorem Filled.load {mem : Riscv.Mem} (h : Filled mem) {o : Int} (ho : isImm o = true) (r : RegRef) :
    mem.load (slotWidth r) (frame + BitVec.ofInt 64 o) = oneOf r := by
  obtain ⟨hword, hword'⟩ := h o ho
  unfold oneOf
  cases slotWidth r with
  | word => rw [Riscv.Mem.load, Riscv.Mem.load, hword, readWord_ones]
  | single => rw [Riscv.Mem.load, Riscv.Mem.load, hword, readWord_ones]
  | double =>
    rw [Riscv.Mem.load, Riscv.Mem.load, Riscv.Mem.readDouble, Riscv.Mem.readDouble, hword, hword',
      readWord_ones, readWord_ones]

end Cminusfc.Codegen.Elements
