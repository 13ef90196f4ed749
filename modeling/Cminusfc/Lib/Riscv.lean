import Mathlib.Data.List.Basic
import Mathlib.Logic.Function.Basic
import Mathlib.Tactic.Linarith

/-!
# A fragment of RV64

Assembly lines of RV64IMF and what they do, over any type `R` of register names and any type `L`
of labels.

* A `Machine` fixes what the lines leave open: which name is the zero register, which names belong
  to the floating-point file, the single-precision operations, the addresses of symbols, and what a
  call does.
* `Machine.accepts` is what an assembler checks of a line: the file of each register and the range
  of each immediate. A line it does not accept has no effect but `Exit.rejected`.
* Memory is a function on byte addresses, read and written four bytes at a time.

Results:
* `Mem.readWord_writeWord`, `Mem.readWord_writeWord_apart`: a word read back, and a word left alone.
* `run_append`, `effects_append`: code is run piece by piece.
* `Op.eval_sext_iff`: on sign-extended words an operation of the integer file agrees with the
  32-bit one exactly when that one does not wrap.
* `luiValue_add`: an integer loaded in two parts.
-/

namespace Riscv

/-- What a register holds, and an address. -/
abbrev Word := BitVec 64

/-! ## Memory -/

/-- The bytes of the memory. -/
abbrev Mem := Word → BitVec 8

namespace Mem

/-- The four bytes from `a` on, the lowest first. -/
def readWord (m : Mem) (a : Word) : BitVec 32 := m (a + 3) ++ m (a + 2) ++ m (a + 1) ++ m a

/-- Write the four bytes from `a` on. -/
def writeWord (m : Mem) (a : Word) (v : BitVec 32) : Mem := fun x =>
  if x = a then v.extractLsb' 0 8
  else if x = a + 1 then v.extractLsb' 8 8
  else if x = a + 2 then v.extractLsb' 16 8
  else if x = a + 3 then v.extractLsb' 24 8
  else m x

/-- The eight bytes from `a` on. -/
def readDouble (m : Mem) (a : Word) : Word := m.readWord (a + 4) ++ m.readWord a

/-- Write the eight bytes from `a` on. -/
def writeDouble (m : Mem) (a : Word) (v : Word) : Mem :=
  (m.writeWord a (v.extractLsb' 0 32)).writeWord (a + 4) (v.extractLsb' 32 32)

end Mem

/-- The four bytes from `a` on and the four bytes from `b` on do not meet. -/
def Apart (a b : Word) : Prop := 4 ≤ (a - b).toNat ∧ 4 ≤ (b - a).toNat

instance (a b : Word) : Decidable (Apart a b) := inferInstanceAs (Decidable (_ ∧ _))

theorem Apart.symm {a b : Word} (h : Apart a b) : Apart b a := ⟨h.2, h.1⟩

namespace Mem

theorem readWord_writeWord (m : Mem) (a : Word) (v : BitVec 32) :
    (m.writeWord a v).readWord a = v := by
  have h1 : a + 1 ≠ a := by bv_omega
  have h2 : a + 2 ≠ a := by bv_omega
  have h2' : a + 2 ≠ a + 1 := by bv_omega
  have h3 : a + 3 ≠ a := by bv_omega
  have h3' : a + 3 ≠ a + 1 := by bv_omega
  have h3'' : a + 3 ≠ a + 2 := by bv_omega
  simp only [readWord, writeWord, if_true, h1, h2, h2', h3, h3', h3'', if_false]
  ext i hi
  simp only [BitVec.getElem_append, BitVec.getElem_extractLsb']
  grind

theorem readWord_writeWord_apart (m : Mem) {a b : Word} (v : BitVec 32) (h : Apart a b) :
    (m.writeWord a v).readWord b = m.readWord b := by
  obtain ⟨hab, hba⟩ := h
  have hne : ∀ i j : Word, i.toNat < 4 → j.toNat < 4 → b + i ≠ a + j := by
    intro i j hi hj he
    bv_omega
  have hbyte : ∀ i : Word, i.toNat < 4 → m.writeWord a v (b + i) = m (b + i) := by
    intro i hi
    have h0 := hne i 0 hi (by decide)
    have h1 := hne i 1 hi (by decide)
    have h2 := hne i 2 hi (by decide)
    have h3 := hne i 3 hi (by decide)
    rw [show a + 0 = a from BitVec.add_zero a] at h0
    simp only [writeWord, h0, h1, h2, h3, if_false]
  have h0 := hbyte 0 (by decide)
  rw [show b + 0 = b from BitVec.add_zero b] at h0
  simp only [readWord, h0, hbyte 1 (by decide), hbyte 2 (by decide), hbyte 3 (by decide)]

/-- Bytes outside the four that are written. -/
theorem writeWord_of_ne (m : Mem) {a x : Word} (v : BitVec 32)
    (h : ∀ k : Nat, k < 4 → x ≠ a + BitVec.ofNat 64 k) : m.writeWord a v x = m x := by
  have h0 : x ≠ a := by simpa using h 0 (by decide)
  have h1 : x ≠ a + 1 := h 1 (by decide)
  have h2 : x ≠ a + 2 := h 2 (by decide)
  have h3 : x ≠ a + 3 := h 3 (by decide)
  simp only [writeWord, h0, h1, h2, h3, if_false]

/-- Bytes outside the eight that are written. -/
theorem writeDouble_of_ne (m : Mem) {a x : Word} (v : Word)
    (h : ∀ k : Nat, k < 8 → x ≠ a + BitVec.ofNat 64 k) : m.writeDouble a v x = m x := by
  have hhigh : ∀ k : Nat, k < 4 → x ≠ a + 4 + BitVec.ofNat 64 k := by
    intro k hk
    have := h (4 + k) (by omega)
    rwa [BitVec.ofNat_add, ← BitVec.add_assoc] at this
  rw [writeDouble, writeWord_of_ne _ _ hhigh, writeWord_of_ne _ _ fun k hk => h k (by omega)]

theorem readWord_congr {m m' : Mem} {a : Word}
    (h : ∀ k : Nat, k < 4 → m (a + BitVec.ofNat 64 k) = m' (a + BitVec.ofNat 64 k)) :
    m.readWord a = m'.readWord a := by
  have h0 : m a = m' a := by simpa using h 0 (by decide)
  have h1 : m (a + 1) = m' (a + 1) := h 1 (by decide)
  have h2 : m (a + 2) = m' (a + 2) := h 2 (by decide)
  have h3 : m (a + 3) = m' (a + 3) := h 3 (by decide)
  rw [readWord, readWord, h0, h1, h2, h3]

/-- What is read depends on the eight bytes only. -/
theorem readDouble_congr {m m' : Mem} {a : Word}
    (h : ∀ k : Nat, k < 8 → m (a + BitVec.ofNat 64 k) = m' (a + BitVec.ofNat 64 k)) :
    m.readDouble a = m'.readDouble a := by
  have hhigh : m.readWord (a + 4) = m'.readWord (a + 4) := by
    refine readWord_congr fun k hk => ?_
    have := h (4 + k) (by omega)
    rwa [BitVec.ofNat_add, ← BitVec.add_assoc] at this
  rw [readDouble, readDouble, hhigh, readWord_congr fun k hk => h k (by omega)]

theorem readDouble_writeDouble (m : Mem) (a v : Word) : (m.writeDouble a v).readDouble a = v := by
  have hapart : Apart (a + 4) a := by
    unfold Apart
    constructor <;> bv_omega
  rw [readDouble, writeDouble, readWord_writeWord, readWord_writeWord_apart _ _ hapart,
    readWord_writeWord]
  ext i hi
  simp only [BitVec.getElem_append, BitVec.getElem_extractLsb']
  grind

end Mem

/-- Two offsets from one address. -/
theorem add_ofInt_ne (a : Word) {x y : Int} (h : x ≠ y)
    (hx : -9223372036854775808 ≤ x ∧ x ≤ 9223372036854775807)
    (hy : -9223372036854775808 ≤ y ∧ y ≤ 9223372036854775807) :
    a + BitVec.ofInt 64 x ≠ a + BitVec.ofInt 64 y := by
  intro he
  have heq := congrArg BitVec.toInt ((BitVec.add_right_inj a).mp he)
  rw [BitVec.toInt_ofInt, BitVec.toInt_ofInt] at heq
  rw [Int.bmod_eq_of_le (by omega) (by omega), Int.bmod_eq_of_le (by omega) (by omega)] at heq
  exact h heq

/-! ## Lines -/

/-- Operations on two registers of the integer file. -/
inductive Op where
  | add | sub | mul | div | slt | sgt
  deriving Repr, DecidableEq

/-- Operations on a register of the integer file and an immediate. -/
inductive OpImm where
  | addi | andi | xori | slli
  deriving Repr, DecidableEq

/-- Operations on one register of the integer file. -/
inductive OpOne where
  | mv | seqz | snez | sextw
  deriving Repr, DecidableEq

/-- Operations on two registers of the floating-point file. -/
inductive FOp where
  | fadds | fsubs | fmuls | fdivs
  deriving Repr, DecidableEq

/-- Comparisons of two registers of the floating-point file. -/
inductive FCmp where
  | feqs | flts | fgts | fles | fges
  deriving Repr, DecidableEq

/-- What a load or a store moves: an integer word, a double word, a single. -/
inductive Width where
  | word | double | single
  deriving Repr, DecidableEq

/-- An assembly line. -/
inductive Line (R L : Type) where
  | op (o : Op) (dst rs1 rs2 : R)
  | opImm (o : OpImm) (dst rs1 : R) (imm : Int)
  | opOne (o : OpOne) (dst src : R)
  | lui (dst : R) (imm : Int)
  | fop (o : FOp) (dst rs1 rs2 : R)
  | fcmp (o : FCmp) (dst rs1 rs2 : R)
  | fmvs (dst src : R)
  | fcvtsw (dst src : R)
  | fcvtws (dst src : R)
  | load (w : Width) (dst : R) (offset : Int) (base : R)
  | store (w : Width) (src : R) (offset : Int) (base : R)
  | la (dst : R) (symbol : String)
  | call (symbol : String)
  | bnez (cond : R) (label : L)
  | j (label : L)
  | jr (dst : R)
  deriving Repr, DecidableEq

/-! ## Execution -/

/-- The single-precision operations, on the bits of their operands. -/
structure Fpu where
  op : FOp → BitVec 32 → BitVec 32 → BitVec 32
  cmp : FCmp → BitVec 32 → BitVec 32 → Bool
  ofInt : BitVec 32 → BitVec 32
  toInt : BitVec 32 → BitVec 32

/-- Registers, memory, and whatever else a call may depend on. -/
structure State (R W : Type) where
  regs : R → Word
  mem : Mem
  world : W

/-- What the lines leave open. -/
structure Machine (R W : Type) where
  zero : R
  isFp : R → Bool
  fpu : Fpu
  symbol : String → Word
  callee : String → State R W → State R W

/-- How a piece of code is left. -/
inductive Exit (R W L : Type) where
  | next (st : State R W)
  | jump (label : L) (st : State R W)
  | ret (st : State R W)
  | rejected

/-- The range of a 12-bit immediate. -/
def isImm12 (i : Int) : Bool := -2048 ≤ i && i ≤ 2047

/-- The range of the immediate of an `OpImm`. -/
def OpImm.isImm : OpImm → Int → Bool
  | .slli, i => 0 ≤ i && i ≤ 63
  | _, i => isImm12 i

def Op.eval : Op → Word → Word → Word
  | .add, a, b => a + b
  | .sub, a, b => a - b
  | .mul, a, b => a * b
  | .div, a, b => if b = 0 then -1 else a.sdiv b
  | .slt, a, b => if a.slt b then 1 else 0
  | .sgt, a, b => if b.slt a then 1 else 0

def OpImm.eval : OpImm → Word → Int → Word
  | .addi, a, i => a + BitVec.ofInt 64 i
  | .andi, a, i => a &&& BitVec.ofInt 64 i
  | .xori, a, i => a ^^^ BitVec.ofInt 64 i
  | .slli, a, i => a <<< i.toNat

def OpOne.eval : OpOne → Word → Word
  | .mv, a => a
  | .seqz, a => if a = 0 then 1 else 0
  | .snez, a => if a = 0 then 0 else 1
  | .sextw, a => (a.setWidth 32).signExtend 64

/-- The immediate of a `lui`, shifted and sign-extended. -/
def luiValue (i : Int) : Word := ((BitVec.ofInt 32 i) <<< 12).signExtend 64

/-- A single in a register: the upper half is all ones. -/
def box (b : BitVec 32) : Word := BitVec.allOnes 32 ++ b

/-- The single in a register. -/
def unbox (a : Word) : BitVec 32 := a.setWidth 32

@[simp] theorem unbox_box (b : BitVec 32) : unbox (box b) = b :=
  BitVec.setWidth_append_eq_right

/-- What a load puts into its register. -/
def Mem.load (m : Mem) (w : Width) (a : Word) : Word :=
  match w with
  | .word => (m.readWord a).signExtend 64
  | .double => m.readDouble a
  | .single => box (m.readWord a)

/-- What a store makes of the memory. -/
def Mem.store (m : Mem) (w : Width) (a : Word) (v : Word) : Mem :=
  match w with
  | .word | .single => m.writeWord a (v.setWidth 32)
  | .double => m.writeDouble a v

/-- The bytes a store writes. -/
def Width.bytes : Width → Nat
  | .word | .single => 4
  | .double => 8

/-- Bytes outside those that are written. -/
theorem Mem.store_of_ne (m : Mem) {w : Width} {a x : Word} (v : Word)
    (h : ∀ k : Nat, k < w.bytes → x ≠ a + BitVec.ofNat 64 k) : m.store w a v x = m x := by
  cases w with
  | word => exact m.writeWord_of_ne _ h
  | single => exact m.writeWord_of_ne _ h
  | double => exact m.writeDouble_of_ne _ h

/-- A 32-bit word, sign-extended. -/
def sext (x : BitVec 32) : Word := x.signExtend 64

/-- `i` is a signed 32-bit integer. -/
def Fits (i : Int) : Prop := -2147483648 ≤ i ∧ i ≤ 2147483647

instance (i : Int) : Decidable (Fits i) := inferInstanceAs (Decidable (_ ∧ _))

theorem fits_toInt (x : BitVec 32) : Fits x.toInt := by
  have h1 := BitVec.le_toInt x
  have h2 := BitVec.toInt_lt (x := x)
  unfold Fits
  omega

@[simp] theorem sext_toInt (x : BitVec 32) : (sext x).toInt = x.toInt :=
  BitVec.toInt_signExtend_of_le (by decide)

theorem sext_inj {x y : BitVec 32} : sext x = sext y ↔ x = y :=
  ⟨fun h => BitVec.eq_of_toInt_eq (by rw [← sext_toInt x, h, sext_toInt]), fun h => h ▸ rfl⟩

/-- The integer a 32-bit operation computes before it wraps. -/
def Op.exact : Op → BitVec 32 → BitVec 32 → Int
  | .add, a, b => a.toInt + b.toInt
  | .sub, a, b => a.toInt - b.toInt
  | .mul, a, b => a.toInt * b.toInt
  | .div, a, b => a.toInt.tdiv b.toInt
  | .slt, a, b => if a.slt b then 1 else 0
  | .sgt, a, b => if b.slt a then 1 else 0

theorem exact_bound (o : Op) (a b : BitVec 32) :
    -9223372036854775808 ≤ o.exact a b ∧ o.exact a b ≤ 9223372036854775807 := by
  obtain ⟨ha, ha'⟩ := fits_toInt a
  obtain ⟨hb, hb'⟩ := fits_toInt b
  cases o with
  | add => simp only [Op.exact]; omega
  | sub => simp only [Op.exact]; omega
  | mul =>
    simp only [Op.exact]
    constructor <;> nlinarith
  | div =>
    have h := Int.natAbs_tdiv_le_natAbs a.toInt b.toInt
    simp only [Op.exact]
    omega
  | slt => simp only [Op.exact]; split <;> decide
  | sgt => simp only [Op.exact]; split <;> decide

theorem bmod_of_bound {i : Int} (h : -9223372036854775808 ≤ i ∧ i ≤ 9223372036854775807) :
    i.bmod (2 ^ 64) = i := Int.bmod_eq_of_le (by omega) (by omega)

theorem bmod_of_fits {i : Int} (h : Fits i) : i.bmod (2 ^ 32) = i :=
  Int.bmod_eq_of_le (by obtain ⟨h, -⟩ := h; omega) (by obtain ⟨-, h⟩ := h; omega)

/-- **Registers compute exactly**: on sign-extended words no operation overflows 64 bits. -/
theorem Op.eval_sext_toInt (o : Op) (a : BitVec 32) {b : BitVec 32} (hb : o = .div → b ≠ 0) :
    (o.eval (sext a) (sext b)).toInt = o.exact a b := by
  have hbound := bmod_of_bound (exact_bound o a b)
  cases o with
  | add => rw [Op.eval, BitVec.toInt_add, sext_toInt, sext_toInt]; exact hbound
  | sub => rw [Op.eval, BitVec.toInt_sub, sext_toInt, sext_toInt]; exact hbound
  | mul => rw [Op.eval, BitVec.toInt_mul, sext_toInt, sext_toInt]; exact hbound
  | div =>
    have hz : sext b ≠ 0 := fun h => hb rfl (sext_inj.mp h)
    rw [Op.eval, if_neg hz, BitVec.toInt_sdiv, sext_toInt, sext_toInt]
    exact hbound
  | slt =>
    simp only [Op.eval, Op.exact, BitVec.slt_eq_decide, sext_toInt]
    split <;> rfl
  | sgt =>
    simp only [Op.eval, Op.exact, BitVec.slt_eq_decide, sext_toInt]
    split <;> rfl

/-- An operation on 32-bit words. -/
def Op.eval32 (o : Op) (a b : BitVec 32) : BitVec 32 := BitVec.ofInt 32 (o.exact a b)

theorem Op.eval32_add (x y : BitVec 32) : Op.add.eval32 x y = x + y := by
  rw [Op.eval32, Op.exact, BitVec.ofInt_add, BitVec.ofInt_toInt, BitVec.ofInt_toInt]

theorem Op.eval32_sub (x y : BitVec 32) : Op.sub.eval32 x y = x - y := by
  rw [Op.eval32, Op.exact, Int.sub_eq_add_neg, BitVec.ofInt_add, BitVec.ofInt_neg,
    BitVec.ofInt_toInt, BitVec.ofInt_toInt, BitVec.sub_eq_add_neg]

theorem Op.eval32_mul (x y : BitVec 32) : Op.mul.eval32 x y = x * y := by
  rw [Op.eval32, Op.exact, BitVec.ofInt_mul, BitVec.ofInt_toInt, BitVec.ofInt_toInt]

theorem Op.eval32_div (x y : BitVec 32) : Op.div.eval32 x y = x.sdiv y :=
  BitVec.eq_of_toInt_eq (by rw [BitVec.toInt_sdiv, Op.eval32, Op.exact, BitVec.toInt_ofInt])

/-- **The result is sign-extended exactly when it did not wrap.** -/
theorem Op.eval_sext_iff (o : Op) (a : BitVec 32) {b : BitVec 32} (hb : o = .div → b ≠ 0) :
    o.eval (sext a) (sext b) = sext (o.eval32 a b) ↔ Fits (o.exact a b) := by
  have h := o.eval_sext_toInt a hb
  have h32 : (o.eval32 a b).toInt = (o.exact a b).bmod (2 ^ 32) := by
    simp [Op.eval32, BitVec.toInt_ofInt]
  constructor
  · intro he
    rw [he, sext_toInt] at h
    rw [← h]
    exact fits_toInt _
  · intro hfits
    exact BitVec.eq_of_toInt_eq (by rw [h, sext_toInt, h32, bmod_of_fits hfits])

@[simp] theorem sext_ofInt {c : Int} (h : Fits c) : sext (BitVec.ofInt 32 c) = BitVec.ofInt 64 c := by
  refine BitVec.eq_of_toInt_eq ?_
  have h32 := bmod_of_fits h
  have h64 := bmod_of_bound (i := c) (by obtain ⟨h, h'⟩ := h; omega)
  rw [sext_toInt, BitVec.toInt_ofInt, BitVec.toInt_ofInt]
  exact h32.trans h64.symm

/-- `lui` and `addi` load the two parts of an integer. -/
theorem luiValue_add {x y : Int} (hx : Fits (x * 4096)) :
    luiValue x + BitVec.ofInt 64 y = BitVec.ofInt 64 (x * 4096 + y) := by
  have hshift : BitVec.ofInt 32 x <<< 12 = BitVec.ofInt 32 (x * 4096) := by
    rw [BitVec.shiftLeft_eq_mul_twoPow, BitVec.ofInt_mul]
    rfl
  have hlui : luiValue x = BitVec.ofInt 64 (x * 4096) := by
    rw [luiValue, hshift]
    exact sext_ofInt hx
  rw [hlui, BitVec.ofInt_add]

/-! ## Running code -/

section Exec

variable {R W L : Type} [DecidableEq R]

/-- Read a register; the zero register reads as zero. -/
def Machine.get (M : Machine R W) (st : State R W) (r : R) : Word :=
  if r = M.zero then 0 else st.regs r

/-- Write a register. -/
def State.set (st : State R W) (r : R) (v : Word) : State R W :=
  { st with regs := Function.update st.regs r v }

@[simp] theorem State.set_regs (st : State R W) (r : R) (v : Word) :
    (st.set r v).regs = Function.update st.regs r v := rfl

@[simp] theorem State.set_mem (st : State R W) (r : R) (v : Word) : (st.set r v).mem = st.mem := rfl

@[simp] theorem State.set_world (st : State R W) (r : R) (v : Word) :
    (st.set r v).world = st.world := rfl

namespace Machine

/-- What an assembler checks of a line. -/
def accepts (M : Machine R W) : Line R L → Bool
  | .op _ d a b => !M.isFp d && !M.isFp a && !M.isFp b
  | .opImm o d a i => !M.isFp d && !M.isFp a && o.isImm i
  | .opOne _ d a => !M.isFp d && !M.isFp a
  | .lui d i => !M.isFp d && (0 ≤ i && i ≤ 1048575)
  | .fop _ d a b => M.isFp d && M.isFp a && M.isFp b
  | .fcmp _ d a b => !M.isFp d && M.isFp a && M.isFp b
  | .fmvs d a => M.isFp d && M.isFp a
  | .fcvtsw d a => M.isFp d && !M.isFp a
  | .fcvtws d a => !M.isFp d && M.isFp a
  | .load w d i b => (M.isFp d == (w == .single)) && !M.isFp b && isImm12 i
  | .store w s i b => (M.isFp s == (w == .single)) && !M.isFp b && isImm12 i
  | .la d _ => !M.isFp d
  | .call _ | .j _ => true
  | .bnez c _ => !M.isFp c
  | .jr d => !M.isFp d

/-- The effect of an accepted line. -/
def effect (M : Machine R W) (st : State R W) : Line R L → Exit R W L
  | .op o d a b => .next (st.set d (o.eval (M.get st a) (M.get st b)))
  | .opImm o d a i => .next (st.set d (o.eval (M.get st a) i))
  | .opOne o d a => .next (st.set d (o.eval (M.get st a)))
  | .lui d i => .next (st.set d (luiValue i))
  | .fop o d a b => .next (st.set d (box (M.fpu.op o (unbox (M.get st a)) (unbox (M.get st b)))))
  | .fcmp o d a b =>
    .next (st.set d (if M.fpu.cmp o (unbox (M.get st a)) (unbox (M.get st b)) then 1 else 0))
  | .fmvs d a => .next (st.set d (M.get st a))
  | .fcvtsw d a => .next (st.set d (box (M.fpu.ofInt ((M.get st a).setWidth 32))))
  | .fcvtws d a => .next (st.set d ((M.fpu.toInt (unbox (M.get st a))).signExtend 64))
  | .load w d i b => .next (st.set d (st.mem.load w (M.get st b + BitVec.ofInt 64 i)))
  | .store w s i b =>
    .next { st with mem := st.mem.store w (M.get st b + BitVec.ofInt 64 i) (M.get st s) }
  | .la d s => .next (st.set d (M.symbol s))
  | .call s => .next (M.callee s st)
  | .bnez c l => if M.get st c = 0 then .next st else .jump l st
  | .j l => .jump l st
  | .jr _ => .ret st

/-- Execute one line. -/
def exec (M : Machine R W) (i : Line R L) (st : State R W) : Exit R W L :=
  if M.accepts i then M.effect st i else .rejected

/-- Execute the lines of a piece of code until it is left. -/
def run (M : Machine R W) : List (Line R L) → State R W → Exit R W L
  | [], st => .next st
  | i :: is, st =>
    match M.exec i st with
    | .next st' => run M is st'
    | e => e

/-- Execute the lines of a piece of code by their meaning alone: an immediate is taken as it is,
whatever an assembler says of it. -/
def effects (M : Machine R W) : List (Line R L) → State R W → Exit R W L
  | [], st => .next st
  | i :: is, st =>
    match M.effect st i with
    | .next st' => effects M is st'
    | e => e

variable {M : Machine R W} {st st' : State R W} {c c' : List (Line R L)}

@[simp] theorem effects_nil : M.effects ([] : List (Line R L)) st = .next st := rfl

theorem effects_cons {i : Line R L} (h : M.effect st i = .next st') :
    M.effects (i :: c) st = M.effects c st' := by
  rw [effects, h]

theorem effects_append (h : M.effects c st = .next st') :
    M.effects (c ++ c') st = M.effects c' st' := by
  induction c generalizing st with
  | nil =>
    cases h
    rfl
  | cons i c ih =>
    simp only [effects, List.cons_append] at h ⊢
    cases he : M.effect st i with
    | next st₁ =>
      rw [he] at h
      exact ih h
    | jump l st₁ =>
      rw [he] at h
      cases h
    | ret st₁ =>
      rw [he] at h
      cases h
    | rejected =>
      rw [he] at h
      cases h

theorem get_of_ne {r : R} (h : r ≠ M.zero) : M.get st r = st.regs r := if_neg h

@[simp] theorem get_zero : M.get st M.zero = 0 := if_pos rfl

theorem get_set {r : R} (h : r ≠ M.zero) (v : Word) : M.get (st.set r v) r = v := by
  simp [get, h]

@[simp] theorem run_nil : M.run ([] : List (Line R L)) st = .next st := rfl

theorem exec_of_accepts {i : Line R L} (h : M.accepts i = true) : M.exec i st = M.effect st i :=
  if_pos h

theorem run_append (h : M.run c st = .next st') : M.run (c ++ c') st = M.run c' st' := by
  induction c generalizing st with
  | nil =>
    cases h
    rfl
  | cons i c ih =>
    simp only [run, List.cons_append] at h ⊢
    cases he : M.exec i st with
    | next st₁ =>
      rw [he] at h
      exact ih h
    | jump l st₁ =>
      rw [he] at h
      cases h
    | ret st₁ =>
      rw [he] at h
      cases h
    | rejected =>
      rw [he] at h
      cases h

/-- Code that goes on, then one more line. -/
theorem run_concat (h : M.run c st = .next st') (i : Line R L) :
    M.run (c ++ [i]) st = M.exec i st' := by
  rw [run_append h]
  simp only [run]
  cases M.exec i st' <;> rfl

end Machine

end Exec

end Riscv
