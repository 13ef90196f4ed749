import Cminusfc.Codegen.Lines
import Cminusfc.Lib.Decimal

/-!
# The data of float constants

Model of `gen_module` and `gen_local_constants` (`codegen.cpp`): `local_floats` grows while all
functions are generated, and one `.float` line for each of its entries is printed at the end.

* `std::ostream << float` is modelled for integers below 2^24, where it prints the general format
  with six significant digits; for all other values it is a parameter.
* Directives (`.text`, `.globl`, `.comm`) refer to no constant and are left out.
* `gen_function` skips a function without blocks; a `Func` has an entry block.

Results:
* `genInstr_pieceFloats`: in the text of one instruction the constants it loads have the labels of
  their places in `local_floats`.
* `constants_denote_iff`: **the data line under the label of every load denotes the constant exactly
  when every loaded constant has at most six significant digits**.

Source: `src/codegen/codegen.cpp` 24-54, 602-627 and 662-667.
-/

namespace Cminusfc.Codegen

open Cminusfc.LightIR
open Fallible (bind_ok)
open Decimal (Significant general)

/-! ## Floats -/

/-- The value of a single; infinities and NaNs have none. -/
def floatValue (b : BitVec 32) : Option ℚ :=
  let e : Nat := b.toNat / 2 ^ 23 % 256
  let m : Nat := b.toNat % 2 ^ 23
  let sign : ℚ := if b.msb then -1 else 1
  if e = 255 then none
  else if e = 0 then some (sign * m / 2 ^ 149)
  else some (sign * ((2 ^ 23 + m : Nat) : ℚ) * 2 ^ e / 2 ^ 150)

/-- Sign and magnitude of a float whose value is an integer below 2^24. -/
def asInteger (b : BitVec 32) : Option (Bool × Nat) :=
  let e := b.toNat / 2 ^ 23 % 256
  let m := b.toNat % 2 ^ 23
  if e = 0 ∧ m = 0 then some (b.msb, 0)
  else if 127 ≤ e ∧ e ≤ 150 ∧ 2 ^ (150 - e) ∣ 2 ^ 23 + m then
    some (b.msb, (2 ^ 23 + m) / 2 ^ (150 - e))
  else none

/-- An integer with its sign. -/
def signed (neg : Bool) (n : ℚ) : ℚ := if neg then -n else n

/-- `asInteger` reads the value off. -/
theorem asInteger_value {b : BitVec 32} {neg : Bool} {n : Nat} (h : asInteger b = some (neg, n)) :
    floatValue b = some (signed neg n) := by
  unfold asInteger at h
  unfold floatValue
  dsimp only at h ⊢
  generalize b.toNat / 2 ^ 23 % 256 = e at h ⊢
  generalize b.toNat % 2 ^ 23 = m at h ⊢
  split_ifs at h with hzero hrange
  · obtain ⟨rfl, rfl⟩ := hzero
    cases h
    rw [if_neg (show ¬ (0 : Nat) = 255 by decide), if_pos rfl]
    cases b.msb <;> simp [signed]
  · obtain ⟨hlow, hhigh, q, hq⟩ := hrange
    cases h
    rw [if_neg (by omega), if_neg (by omega), hq, Nat.mul_div_cancel_left _ (by positivity)]
    have hpow : (2 : ℚ) ^ 150 = 2 ^ (150 - e) * 2 ^ e := by
      rw [← pow_add, Nat.sub_add_cancel hhigh]
    have hvalue : ((2 ^ (150 - e) * q : Nat) : ℚ) * 2 ^ e / 2 ^ 150 = q := by
      rw [hpow]
      push_cast
      field_simp
    cases b.msb
    · simpa [signed] using hvalue
    · simpa [signed, neg_div, neg_mul] using hvalue

/-- `std::ostream << float`, with the formatting of all other values as `other`. -/
def streamText (other : BitVec 32 → List Char) (b : BitVec 32) : List Char :=
  match asInteger b with
  | some (true, n) => '-' :: general 6 n
  | some (false, n) => general 6 n
  | none => other b

/-- A decimal text with an optional sign. -/
def readFloat : List Char → Option ℚ
  | '-' :: cs => (Decimal.read cs).map Neg.neg
  | cs => Decimal.read cs

/-- A text without a sign is read as it is. -/
theorem readFloat_general (n : Nat) : readFloat (general 6 n) = Decimal.read (general 6 n) := by
  obtain ⟨c, cs, hcs, hdigit⟩ := Decimal.general_head 6 n
  rw [hcs]
  unfold readFloat
  split
  · next h =>
    obtain ⟨rfl, -⟩ := List.cons.inj h
    cases hdigit
  · rfl

/-- **The text of an integer stands for its value exactly when it has at most six significant
digits.** -/
theorem readFloat_streamText_iff {other : BitVec 32 → List Char} {b : BitVec 32} {neg : Bool}
    {n : Nat} (h : asInteger b = some (neg, n)) :
    readFloat (streamText other b) = floatValue b ↔ Significant 6 n := by
  rw [asInteger_value h, streamText, h, ← Decimal.read_general_iff (by decide)]
  obtain ⟨q, hq⟩ := Decimal.read_general_isSome 6 n
  cases neg with
  | false =>
    simp only [readFloat_general, signed, Bool.false_eq_true, if_false]
  | true =>
    simp only [readFloat, signed, if_true, hq, Option.map_some, Option.some_inj, neg_inj]

/-! ## A module -/

/-- What the register allocator hands over for a function. -/
structure FuncAlloc where
  f : Func
  keys : List Value
  regMapping : Value → Option RegRef
  stackMapping : Value → Option Int
  stackSize : Int

/-- The maps of the register allocator are moved into the generator. -/
def FuncAlloc.enter (a : FuncAlloc) (s : St) : St :=
  { s with regMapping := a.regMapping, stackMapping := a.stackMapping, stackSize := a.stackSize }

/-- The body of the loop of `gen_module`. -/
def genModuleStep (c : List Text × St) (a : FuncAlloc) : Except Failure (List Text × St) := do
  let (T, s) ← genFunction a.f a.keys (a.enter c.2)
  .ok (c.1 ++ [T], s)

/-- The functions of `gen_module`. -/
def genModule (fs : List FuncAlloc) (s : St) : Except Failure (List Text × St) :=
  fs.foldlM genModuleStep ([], s)

/-- `gen_local_constants`: the labels with the texts of their lines. -/
def genLocalConstants (other : BitVec 32 → List Char) (floats : List (BitVec 32)) :
    List (String × List Char) :=
  floats.zipIdx.map fun p => (".LC" ++ toString p.2, streamText other p.1)

theorem label_inj {i j : Nat} : ".LC" ++ toString i = ".LC" ++ toString j ↔ i = j := by
  refine ⟨fun h => ?_, fun h => h ▸ rfl⟩
  have hlist := congrArg String.toList h
  rw [String.toList_append, String.toList_append] at hlist
  have hdigits := List.append_cancel_left hlist
  rw [Nat.toString_eq_repr, Nat.toString_eq_repr, Nat.toList_repr, Nat.toList_repr] at hdigits
  rw [← Nat.ofDigitChars_ten_toDigits (n := i), hdigits, Nat.ofDigitChars_ten_toDigits]

/-- The line under a label is that of its constant. -/
theorem genLocalConstants_lookup {other : BitVec 32 → List Char} {floats : List (BitVec 32)}
    {i : Nat} {b : BitVec 32} (h : floats[i]? = some b) :
    (genLocalConstants other floats).lookup (".LC" ++ toString i) = some (streamText other b) := by
  suffices hfrom : ∀ (floats : List (BitVec 32)) (n k : Nat), floats[k]? = some b →
      ((floats.zipIdx n).map fun p => (".LC" ++ toString p.2, streamText other p.1)).lookup
        (".LC" ++ toString (n + k)) = some (streamText other b) by
    have := hfrom floats 0 i h
    rwa [Nat.zero_add] at this
  intro floats
  induction floats with
  | nil => intro n k hk; cases hk
  | cons a floats ih =>
    intro n k hk
    rw [List.zipIdx_cons, List.map_cons, List.lookup_cons]
    cases k with
    | zero =>
      cases hk
      rw [Nat.add_zero, beq_self_eq_true]
    | succ k =>
      have hne : (".LC" ++ toString (n + (k + 1)) == ".LC" ++ toString n) = false := by
        rw [beq_eq_false_iff_ne]
        intro he
        have := label_inj.mp he
        omega
      have hnext := ih (n + 1) k hk
      rw [show n + 1 + k = n + (k + 1) from by omega] at hnext
      simp only [hne]
      exact hnext

/-! ## Loads -/

/-- The labels of the text of an instruction are those of places that hold its constants, in
order; a store may load its constant twice. -/
def PieceFloats (f : Func) (floats : List (BitVec 32)) (i : InstrId) (code : List Code) : Prop :=
  ∃ n cs, (cs = floatsOf (f.instr i) ∨ cs = floatsOf (f.instr i) ++ floatsOf (f.instr i)) ∧
    floatLabels code = labelsFrom n cs.length ∧ cs <+: floats.drop n

theorem PieceFloats.mono {f : Func} {floats floats' : List (BitVec 32)} {i : InstrId}
    {code : List Code} (h : PieceFloats f floats i code) (hle : floats <+: floats') :
    PieceFloats f floats' i code := by
  obtain ⟨n, cs, hcs, hl, hdrop⟩ := h
  obtain ⟨rest, rfl⟩ := hle
  refine ⟨n, cs, hcs, hl, hdrop.trans ?_⟩
  rw [List.drop_append]
  exact List.prefix_append _ _

/-- **One instruction.** -/
theorem genInstr_pieceFloats {f : Func} {i : InstrId} {s s' : St} (hn : Named f) (hk : NoConst s)
    (h : genInstr f i { s with ss := [] } = .ok s') :
    s.localFloats <+: s'.localFloats ∧ NoConst s' ∧ PieceFloats f s'.localFloats i s'.ss := by
  obtain ⟨cs, hcs, he⟩ := genInstr_emits hn (s := { s with ss := [] }) hk h
  obtain ⟨text, hss, hl, -⟩ := he.text
  have hfloats : s'.localFloats = s.localFloats ++ cs := he.floats
  refine ⟨⟨cs, hfloats.symm⟩, he.noConst hk, s.localFloats.length, cs, hcs.imp id And.right, ?_, ?_⟩
  · rw [hss, List.nil_append]
    exact hl
  · rw [hfloats]
    have hdrop : (s.localFloats ++ cs).drop s.localFloats.length = cs := List.drop_left
    exact ⟨[], by rw [List.append_nil, hdrop]⟩

/-- An input of the generator: names of globals are no labels, and constants have no registers. -/
structure FuncAlloc.Wf (a : FuncAlloc) : Prop where
  named : Named a.f
  noConst : ∀ v, (a.regMapping v).isSome = true → asConstantInt v = none ∧ asConstantFP v = none

/-- A function: the constants of every piece stand in `local_floats` from now on. -/
theorem genFunction_floats {a : FuncAlloc} {s s' : St} {T : Text} (ha : a.Wf)
    (h : genFunction a.f a.keys (a.enter s) = .ok (T, s')) :
    s.localFloats <+: s'.localFloats ∧ TextPieces a.f (PieceFloats a.f s'.localFloats) T := by
  let I : St → Prop := fun s₁ => s.localFloats <+: s₁.localFloats ∧ NoConst s₁
  have hstep : StepKeeps a.f I (fun s => PieceFloats a.f s.localFloats) := by
    rintro i s₁ s₂ ⟨hle, hk⟩ hgen
    obtain ⟨hgrow, hk', hpiece⟩ := genInstr_pieceFloats ha.named hk hgen
    exact ⟨⟨hle.trans hgrow, hk'⟩, hpiece, fun j code hj => hj.mono hgrow⟩
  obtain ⟨s₁, hbody, -, hrest⟩ := genFunction_keeps hstep h
  obtain ⟨hfloats, hconst⟩ := bodyState_floats hbody
  have hs₁ : I s₁ := ⟨⟨[], (List.append_nil _).trans hfloats.symm⟩, hconst ha.noConst⟩
  obtain ⟨⟨hle, -⟩, -, htext⟩ := hrest hs₁
  exact ⟨hle, htext⟩

theorem TextPieces.imp {f : Func} {P Q : InstrId → List Code → Prop} {T : Text}
    (hPQ : ∀ i code, P i code → Q i code) (h : TextPieces f P T) : TextPieces f Q T :=
  List.Forall₂.imp (fun _ _ hp => ⟨hp.1, hp.2.imp hPQ⟩) h

/-- **A module**: the constants of every piece of every function stand in the final list. -/
theorem genModule_floats {fs : List FuncAlloc} (hfs : ∀ a ∈ fs, a.Wf) :
    ∀ {Ts Ts' : List Text} {s s' : St}, fs.foldlM genModuleStep (Ts, s) = .ok (Ts', s') →
      s.localFloats <+: s'.localFloats ∧ ∃ new, Ts' = Ts ++ new ∧
        List.Forall₂ (fun (a : FuncAlloc) T =>
          TextPieces a.f (PieceFloats a.f s'.localFloats) T) fs new := by
  induction fs with
  | nil =>
    intro Ts Ts' s s' h
    cases h
    exact ⟨List.prefix_rfl, [], (List.append_nil _).symm, .nil⟩
  | cons a fs ih =>
    intro Ts Ts' s s' h
    obtain ⟨ha, hfs⟩ := List.forall_mem_cons.mp hfs
    rw [List.foldlM_cons] at h
    obtain ⟨c, hc, h⟩ := bind_ok.mp h
    obtain ⟨⟨T, s₁⟩, hT, hc⟩ := bind_ok.mp hc
    cases hc
    obtain ⟨hle, htext⟩ := genFunction_floats ha hT
    obtain ⟨hle', new, hnew, hall⟩ := ih hfs h
    refine ⟨hle.trans hle', T :: new, ?_, .cons ?_ hall⟩
    · rw [hnew, List.append_assoc, List.singleton_append]
    · exact htext.imp fun i code hp => hp.mono hle'

/-- In the text of the module an instruction refers to its constant `b` by `label`: it is the
`j`-th label of the piece, and the `j`-th constant. A store may refer to its constant twice. -/
def LoadsFrom (fs : List FuncAlloc) (Ts : List Text) (label : String) (b : BitVec 32) : Prop :=
  ∃ a T, (a, T) ∈ fs.zip Ts ∧ ∃ blk pieces, (blk, pieces) ∈ a.f.blocks.zip T.blocks ∧
    ∃ i code, (i, code) ∈ (a.f.body blk).zip pieces.2 ∧ ∃ j : Nat,
      (floatLabels code)[j]? = some label ∧
        (floatsOf (a.f.instr i) ++ floatsOf (a.f.instr i))[j]? = some b

theorem exists_zip {α β : Type} {R : α → β → Prop} {l : List α} {l' : List β}
    (h : List.Forall₂ R l l') {x : α} (hx : x ∈ l) : ∃ y, (x, y) ∈ l.zip l' ∧ R x y := by
  induction h with
  | nil => cases hx
  | @cons a b l l' hab _ ih =>
    rcases List.mem_cons.mp hx with rfl | hx
    · exact ⟨b, List.mem_cons_self, hab⟩
    · obtain ⟨y, hy, hr⟩ := ih hx
      exact ⟨y, List.mem_cons_of_mem _ hy, hr⟩

/-- The place that a label of a piece names. -/
theorem PieceFloats.label {f : Func} {floats : List (BitVec 32)} {i : InstrId} {code : List Code}
    (h : PieceFloats f floats i code) {j : Nat} {l : String} {b : BitVec 32}
    (hl : (floatLabels code)[j]? = some l)
    (hb : (floatsOf (f.instr i) ++ floatsOf (f.instr i))[j]? = some b) :
    ∃ k : Nat, l = ".LC" ++ toString k ∧ floats[k]? = some b := by
  obtain ⟨n, cs, hcs, hlabels, hdrop⟩ := h
  rw [hlabels, labelsFrom, List.getElem?_map] at hl
  have hj : j < cs.length := by
    by_contra hge
    rw [List.getElem?_eq_none (by simpa using hge)] at hl
    cases hl
  have hcsj : cs[j]? = some b := by
    rcases hcs with rfl | rfl
    · rwa [List.getElem?_append_left hj] at hb
    · exact hb
  rw [List.getElem?_range' (by simpa using hj)] at hl
  refine ⟨n + j, ?_, ?_⟩
  · simpa using hl.symm
  · obtain ⟨rest, hrest⟩ := hdrop
    rw [← List.getElem?_drop, ← hrest, List.getElem?_append_left hj, hcsj]

/-- Every constant of an instruction is referred to. -/
theorem PieceFloats.loaded {f : Func} {floats : List (BitVec 32)} {i : InstrId} {code : List Code}
    (h : PieceFloats f floats i code) {b : BitVec 32} (hb : b ∈ floatsOf (f.instr i)) :
    ∃ (j : Nat) (l : String), (floatLabels code)[j]? = some l ∧
      (floatsOf (f.instr i) ++ floatsOf (f.instr i))[j]? = some b := by
  obtain ⟨n, cs, hcs, hlabels, -⟩ := h
  obtain ⟨j, hj⟩ := List.mem_iff_getElem?.mp hb
  have hlt := (List.getElem?_eq_some_iff.mp hj).1
  have hle : (floatsOf (f.instr i)).length ≤ cs.length := by
    rcases hcs with rfl | rfl
    · exact Nat.le_refl _
    · rw [List.length_append]
      exact Nat.le_add_right _ _
  have hlen : j < (floatLabels code).length := by
    rw [hlabels, labelsFrom, List.length_map, List.length_range']
    exact Nat.lt_of_lt_of_le hlt hle
  refine ⟨j, (floatLabels code)[j], List.getElem?_eq_getElem hlen, ?_⟩
  rw [List.getElem?_append_left hlt, hj]

section

variable {fs : List FuncAlloc} {Ts : List Text} {s s' : St}

theorem genModule_pieces (hfs : ∀ a ∈ fs, a.Wf) (h : genModule fs s = .ok (Ts, s')) :
    List.Forall₂ (fun (a : FuncAlloc) T =>
      TextPieces a.f (PieceFloats a.f s'.localFloats) T) fs Ts := by
  obtain ⟨-, new, hnew, hall⟩ := genModule_floats hfs h
  rw [List.nil_append] at hnew
  exact hnew ▸ hall

/-- **Labels**: a load refers to the place of its constant, across all functions. -/
theorem loadsFrom_label (hfs : ∀ a ∈ fs, a.Wf) (h : genModule fs s = .ok (Ts, s')) {l : String}
    {b : BitVec 32} (hl : LoadsFrom fs Ts l b) :
    ∃ k : Nat, l = ".LC" ++ toString k ∧ s'.localFloats[k]? = some b := by
  obtain ⟨a, T, haT, blk, pieces, hblk, i, code, hi, j, hj, hb⟩ := hl
  have htext := List.forall₂_zip (genModule_pieces hfs h) haT
  obtain ⟨-, hpieces⟩ := List.forall₂_zip htext hblk
  exact (List.forall₂_zip hpieces hi).label hj hb

/-- Every constant that an instruction needs is loaded somewhere. -/
theorem loadsFrom_of_mem (hfs : ∀ a ∈ fs, a.Wf) (h : genModule fs s = .ok (Ts, s')) {a : FuncAlloc}
    (ha : a ∈ fs) {i : InstrId} (hi : i ∈ a.f.instrs) {b : BitVec 32}
    (hb : b ∈ floatsOf (a.f.instr i)) : ∃ l, LoadsFrom fs Ts l b := by
  obtain ⟨T, haT, htext⟩ := exists_zip (genModule_pieces hfs h) ha
  obtain ⟨blk, hblk, hib⟩ := List.mem_flatMap.mp hi
  obtain ⟨pieces, hp, -, hpieces⟩ := exists_zip htext hblk
  obtain ⟨code, hcode, hpiece⟩ := exists_zip hpieces hib
  obtain ⟨j, l, hj, hj'⟩ := hpiece.loaded hb
  exact ⟨l, a, T, haT, blk, pieces, hp, i, code, hcode, j, hj, hj'⟩

/-- The data line under `label` denotes the value of `b`. -/
def Denotes (data : List (String × List Char)) (label : String) (b : BitVec 32) : Prop :=
  ∃ text, data.lookup label = some text ∧ readFloat text = floatValue b

/-- **The data of a module denotes its constants exactly when each of them has at most six
significant digits.** -/
theorem constants_denote_iff (other : BitVec 32 → List Char) (hfs : ∀ a ∈ fs, a.Wf)
    (h : genModule fs s = .ok (Ts, s'))
    (hint : ∀ a ∈ fs, ∀ i ∈ a.f.instrs, ∀ b ∈ floatsOf (a.f.instr i), (asInteger b).isSome = true) :
    (∀ l b, LoadsFrom fs Ts l b → Denotes (genLocalConstants other s'.localFloats) l b) ↔
      ∀ a ∈ fs, ∀ i ∈ a.f.instrs, ∀ b ∈ floatsOf (a.f.instr i), ∀ neg n,
        asInteger b = some (neg, n) → Significant 6 n := by
  constructor
  · intro hall a ha i hi b hb neg n hn
    obtain ⟨l, hl⟩ := loadsFrom_of_mem hfs h ha hi hb
    obtain ⟨k, rfl, hk⟩ := loadsFrom_label hfs h hl
    obtain ⟨text, htext, hread⟩ := hall _ b hl
    rw [genLocalConstants_lookup hk] at htext
    cases htext
    exact (readFloat_streamText_iff hn).mp hread
  · intro hsig l b hl
    obtain ⟨k, rfl, hk⟩ := loadsFrom_label hfs h hl
    refine ⟨streamText other b, genLocalConstants_lookup hk, ?_⟩
    obtain ⟨a, T, haT, blk, pieces, hblk, i, code, hi, j, -, hb⟩ := hl
    have ha := (List.of_mem_zip haT).1
    have hins : i ∈ a.f.instrs :=
      List.mem_flatMap.mpr ⟨blk, (List.of_mem_zip hblk).1, (List.of_mem_zip hi).1⟩
    have hmem : b ∈ floatsOf (a.f.instr i) := by
      have := List.mem_of_getElem? hb
      rwa [List.mem_append, or_self] at this
    obtain ⟨⟨neg, n⟩, hn⟩ := Option.isSome_iff_exists.mp (hint a ha i hins b hmem)
    exact (readFloat_streamText_iff hn).mpr (hsig a ha i hins b hmem neg n hn)

end

/-- `float f(void) { return b; }`. -/
def returning (b : BitVec 32) : Func where
  entry := 0
  rest := []
  pre _ := []
  succ _ := []
  name := "f"
  retTy := .float
  body blk := if blk = 0 then [0] else []
  instr _ := { op := .ret, ty := .void, operands := [.fp b], parent := 0 }

/-- What the allocator hands over for it. -/
def returningAlloc (b : BitVec 32) : FuncAlloc := ⟨returning b, [], fun _ => none, fun _ => none, 8⟩

/-- The generator before the first function. -/
def startSt : St := ⟨fun _ => none, fun _ => none, fun _ => none, [], fun _ => false, [], 0, []⟩

theorem returning_wf (b : BitVec 32) : ∀ a ∈ [returningAlloc b], a.Wf := by
  intro a ha
  obtain rfl := List.mem_singleton.mp ha
  refine ⟨fun i v hv n hn => ?_, nofun⟩
  obtain rfl := List.mem_singleton.mp hv
  cases hn

/-- What is generated for a module, if it is generated. -/
def generated (fs : List FuncAlloc) : List Text × St :=
  match genModule fs startSt with
  | .ok c => c
  | .error _ => ([], startSt)

theorem generated_eq {fs : List FuncAlloc} (h : (genModule fs startSt).isOk = true) :
    genModule fs startSt = .ok ((generated fs).1, (generated fs).2) := by
  unfold generated
  cases hg : genModule fs startSt with
  | ok c => rfl
  | error e =>
    rw [hg] at h
    cases h

/-- `float sum(float x) { return x + a + b; }`. -/
def summing (a b : BitVec 32) : Func where
  entry := 0
  rest := []
  pre _ := []
  succ _ := []
  name := "sum"
  retTy := .float
  args := [.float]
  body blk := if blk = 0 then [0, 1, 2] else []
  instr
    | 0 => { op := .fadd, ty := .float, operands := [.arg 0, .fp a], parent := 0 }
    | 1 => { op := .fadd, ty := .float, operands := [.instr 0, .fp b], parent := 0 }
    | _ => { op := .ret, ty := .void, operands := [.instr 1], parent := 0 }
  names
    | .arg 0 => "arg0"
    | .instr 0 => "op1"
    | .instr 1 => "op2"
    | _ => ""

/-- `fa0` holds `x`, `ft0` and `ft1` the sums. -/
def summingAlloc (a b : BitVec 32) : FuncAlloc where
  f := summing a b
  keys := []
  regMapping
    | .arg 0 => some ⟨⟨10, true⟩, false⟩
    | .instr 0 => some ⟨⟨0, true⟩, false⟩
    | .instr 1 => some ⟨⟨1, true⟩, false⟩
    | _ => none
  stackMapping _ := none
  stackSize := 8

/-- `1.0` and `100000.0` in the first function, `-3.0` and `999999.0` in the second. -/
def sums : List FuncAlloc :=
  [summingAlloc 0x3F800000 0x47C35000, summingAlloc 0xC0400000 0x497423F0]

theorem summing_wf (a b : BitVec 32) : (summingAlloc a b).Wf where
  named i v hv n hn := by
    match i with
    | 0 | 1 =>
      rcases List.mem_cons.mp hv with rfl | hv
      · cases hn
      · obtain rfl := List.mem_singleton.mp hv
        cases hn
    | _ + 2 =>
      obtain rfl := List.mem_singleton.mp hv
      cases hn
  noConst v hv := by
    cases v with
    | int32 c => cases hv
    | int1 c => cases hv
    | fp c => cases hv
    | zero ty => cases hv
    | _ => exact ⟨rfl, rfl⟩

/-- The theorem at two functions with two constants each: `.LC0` to `.LC3`. -/
theorem constants_denote_iff_sums :
    (∀ l b, LoadsFrom sums (generated sums).1 l b →
        Denotes (genLocalConstants (fun _ => []) (generated sums).2.localFloats) l b) ∧
      (generated sums).2.localFloats = [0x3F800000, 0x47C35000, 0xC0400000, 0x497423F0] := by
  have hfloats : (sums.flatMap fun a => a.f.instrs.flatMap fun i => floatsOf (a.f.instr i)) =
      [0x3F800000, 0x47C35000, 0xC0400000, 0x497423F0] := by decide
  have hints : [0x3F800000, 0x47C35000, 0xC0400000, 0x497423F0].map asInteger =
      [(false, 1), (false, 100000), (true, 3), (false, 999999)].map some := rfl
  have hsix : ∀ n ∈ [1, 100000, 3, 999999],
      (Decimal.rounded 6 n).1 * 10 ^ (Decimal.rounded 6 n).2 = n := by decide
  have hint : ∀ a ∈ sums, ∀ i ∈ a.f.instrs, ∀ b ∈ floatsOf (a.f.instr i), ∃ c,
      asInteger b = some c ∧ c ∈ [(false, 1), (false, 100000), (true, 3), (false, 999999)] := by
    intro a ha i hi b hb
    have hmem : asInteger b ∈ [(false, 1), (false, 100000), (true, 3), (false, 999999)].map some :=
      hints ▸ List.mem_map_of_mem
        (hfloats ▸ List.mem_flatMap.mpr ⟨a, ha, List.mem_flatMap.mpr ⟨i, hi, hb⟩⟩)
    obtain ⟨c, hc, he⟩ := List.mem_map.mp hmem
    exact ⟨c, he.symm, hc⟩
  refine ⟨(constants_denote_iff (fun _ => []) ?_ (generated_eq (by decide +kernel)) ?_).mpr ?_,
    by decide +kernel⟩
  · intro a ha
    rcases List.mem_cons.mp ha with rfl | ha
    · exact summing_wf _ _
    · rw [List.mem_singleton.mp ha]
      exact summing_wf _ _
  · intro a ha i hi b hb
    obtain ⟨c, hc, -⟩ := hint a ha i hi b hb
    rw [hc, Option.isSome_some]
  · intro a ha i hi b hb neg n hn
    obtain ⟨c, hc, hmem⟩ := hint a ha i hi b hb
    obtain rfl : c = (neg, n) := Option.some.inj (hc.symm.trans hn)
    have hn : n ∈ [1, 100000, 3, 999999] := List.mem_map_of_mem (f := Prod.snd) hmem
    exact (Decimal.rounded_eq_iff (by decide)).mp (hsix n hn)

/-- `return 16777215.0;`: the data line is `1.67772e+07`. -/
theorem sixteen_million_lost :
    ¬ ∀ l b, LoadsFrom [returningAlloc 0x4B7FFFFF] (generated [returningAlloc 0x4B7FFFFF]).1 l b →
      Denotes (genLocalConstants (fun _ => []) (generated [returningAlloc 0x4B7FFFFF]).2.localFloats)
        l b := by
  intro hall
  have hgen := @generated_eq [returningAlloc 0x4B7FFFFF] (by decide +kernel)
  have hwf := returning_wf 0x4B7FFFFF
  obtain ⟨l, hl⟩ := loadsFrom_of_mem hwf hgen List.mem_cons_self (i := 0) List.mem_cons_self
    (b := 0x4B7FFFFF) List.mem_cons_self
  obtain ⟨k, rfl, hk⟩ := loadsFrom_label hwf hgen hl
  obtain ⟨text, htext, hread⟩ := hall _ _ hl
  rw [genLocalConstants_lookup hk] at htext
  cases htext
  have hsig := (@readFloat_streamText_iff _ _ false 16777215 (by decide)).mp hread
  exact absurd ((Decimal.rounded_eq_iff (by decide)).mpr hsig) (by decide)

end Cminusfc.Codegen
