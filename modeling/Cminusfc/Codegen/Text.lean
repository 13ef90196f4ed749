import Cminusfc.Codegen.CodegenSpec
import Cminusfc.Lib.Lockstep

/-!
# Running the text of a function

A run of the text stands in front of a piece of code: the code of the `index`-th instruction of a
block. `Text.step` runs one piece.

Results:
* `genFunction_piece`: the piece at a point is what `genInstr` leaves there, in the state that the
  instructions in front of it in the text have left (`GenUpTo`).
* `GenUpTo.induct`: an invariant of the generator, instruction by instruction.

About `gen_function` and `gen_bb`, `src/codegen/codegen.cpp` 33-109. Out of scope: the directives in
front of the label.
-/

namespace Cminusfc.Codegen

open Cminusfc.LightIR
open Fallible (bind_ok)

/-! ## The machine -/

/-- In front of the `index`-th piece of `block`. -/
structure CodeConf (W : Type) where
  block : BlockId
  index : Nat
  st : Riscv.State Reg W

/-- How a run of the text ends. -/
inductive CodeOutcome (W : Type) where
  | returned (st : Riscv.State Reg W)
  | fault

/-- The code of the `k`-th instruction of `b`. -/
def pieceOf (blocks : List (BlockId × List (List Code))) (b : BlockId) (k : Nat) :
    Option (List Code) :=
  (blocks.lookup b).bind fun pieces => pieces[k]?

/-- The code of the `k`-th instruction of `b`. -/
def Text.piece (T : Text) (b : BlockId) (k : Nat) : Option (List Code) := pieceOf T.blocks b k

/-- Run one piece of code. -/
def Text.step {W : Type} (T : Text) (t : Target W) (_ : Nat) (c : CodeConf W) :
    CodeConf W ⊕ CodeOutcome W :=
  match T.piece c.block c.index with
  | none => .inr .fault
  | some code =>
    match t.machine.run code c.st with
    | .next st => .inl ⟨c.block, c.index + 1, st⟩
    | .jump (some b) st => .inl ⟨b, 0, st⟩
    | .jump none _ => .inr .fault
    | .ret st => .inr (.returned st)
    | .rejected => .inr .fault

/-! ## The state at a point -/

/-- The generator takes the instructions of `l` from `s` to `s'`. -/
inductive GenUpTo (f : Func) (s : St) : List InstrId → St → Prop
  | start : GenUpTo f s [] s
  | step {l : List InstrId} {i : InstrId} {s₁ s₂ : St} (h : GenUpTo f s l s₁)
      (hi : genInstr f i { s₁ with ss := [] } = .ok s₂) : GenUpTo f s (l ++ [i]) s₂

theorem GenUpTo.append {f : Func} {s s₁ s₂ : St} {l l' : List InstrId} (h : GenUpTo f s l s₁)
    (h' : GenUpTo f s₁ l' s₂) : GenUpTo f s (l ++ l') s₂ := by
  induction h' with
  | start => rwa [List.append_nil]
  | step _ hi ih =>
    rw [← List.append_assoc]
    exact ih.step hi

/-- **Invariants of the generator.** -/
theorem GenUpTo.induct {f : Func} {s s' : St} {l : List InstrId} {P : List InstrId → St → Prop}
    (h : GenUpTo f s l s') (h0 : P [] s)
    (hstep : ∀ pre i s₁ s₂, i ∈ l → P pre s₁ → genInstr f i { s₁ with ss := [] } = .ok s₂ →
      P (pre ++ [i]) s₂) : P l s' := by
  induction h with
  | start => exact h0
  | @step pre i s₁ s₂ _ hi ih =>
    have hpre := ih fun pre' j s₃ s₄ hj => hstep pre' j s₃ s₄ (List.mem_append_left _ hj)
    exact hstep pre i s₁ s₂ (by simp) hpre hi

section

variable {f : Func}

theorem genPieces {l : List InstrId} {acc pieces : List (List Code)} {s s' : St}
    (h : l.foldlM (genPiece f) (acc, s) = .ok (pieces, s')) :
    GenUpTo f s l s' ∧ ∃ new, pieces = acc ++ new ∧ new.length = l.length ∧
      ∀ k i, l[k]? = some i → ∃ s₁ s₂, GenUpTo f s (l.take k) s₁ ∧
        genInstr f i { s₁ with ss := [] } = .ok s₂ ∧ new[k]? = some s₂.ss := by
  induction l generalizing acc s with
  | nil =>
    cases h
    exact ⟨.start, [], by simp⟩
  | cons j l ih =>
    rw [List.foldlM_cons] at h
    obtain ⟨c, hc, h⟩ := bind_ok.mp h
    obtain ⟨s₁, hs₁, hc⟩ := bind_ok.mp hc
    cases hc
    obtain ⟨hup, new, hpieces, hlen, hget⟩ := ih h
    have hj : GenUpTo f s [j] s₁ := GenUpTo.start.step hs₁
    refine ⟨hj.append hup, s₁.ss :: new, by simp [hpieces], by simp [hlen], ?_⟩
    intro k i hk
    cases k with
    | zero =>
      obtain rfl : j = i := by simpa using hk
      exact ⟨s, s₁, .start, hs₁, rfl⟩
    | succ k =>
      obtain ⟨s₂, s₃, hup', hgen, hnew⟩ := hget k i (by simpa using hk)
      exact ⟨s₂, s₃, hj.append hup', hgen, by simpa using hnew⟩

theorem genBlocks {l : List BlockId} (hl : l.Nodup) {T T' : Text} {s s' : St}
    (h : l.foldlM (genBlock f) (T, s) = .ok (T', s')) :
    T'.prologue = T.prologue ∧ ∃ new : List (BlockId × List (List Code)), T'.blocks = T.blocks ++ new ∧ (new.map Prod.fst) = l ∧
      ∀ b ∈ l, ∀ k i, (f.body b)[k]? = some i → ∃ pre post s₁ s₂,
        l.flatMap f.body = pre ++ i :: post ∧ GenUpTo f s pre s₁ ∧
          genInstr f i { s₁ with ss := [] } = .ok s₂ ∧
            pieceOf new b k = some s₂.ss := by
  induction l generalizing T s with
  | nil =>
    cases h
    exact ⟨rfl, [], by simp⟩
  | cons a l ih =>
    rw [List.foldlM_cons] at h
    obtain ⟨c, hc, h⟩ := bind_ok.mp h
    obtain ⟨⟨pieces, s₁⟩, hbb, hc⟩ := bind_ok.mp hc
    cases hc
    obtain ⟨ha, hl⟩ := List.nodup_cons.mp hl
    obtain ⟨hup, newp, hpieces, -, hget⟩ := genPieces hbb
    rw [List.nil_append] at hpieces
    obtain ⟨hpro, new, hblocks, hfst, hrest⟩ := ih hl h
    refine ⟨hpro, (a, pieces) :: new, by simp [hblocks], by simp [hfst], ?_⟩
    intro b hb k i hk
    rcases List.mem_cons.mp hb with rfl | hmem
    · obtain ⟨s₂, s₃, hup', hgen, hnew⟩ := hget k i hk
      obtain ⟨hlt, hki⟩ := List.getElem?_eq_some_iff.mp hk
      refine ⟨(f.body b).take k, (f.body b).drop (k + 1) ++ l.flatMap f.body, s₂, s₃, ?_, hup',
        hgen, ?_⟩
      · rw [List.flatMap_cons, ← List.cons_append, ← List.append_assoc, ← hki,
          List.getElem_cons_drop, List.take_append_drop]
      · rw [pieceOf, List.lookup_cons_self, Option.bind_some, hpieces, hnew]
    · obtain ⟨pre, post, s₂, s₃, hsplit, hup', hgen, hnew⟩ := hrest b hmem k i hk
      refine ⟨f.body a ++ pre, post, s₂, s₃, ?_, hup.append hup', hgen, ?_⟩
      · rw [List.flatMap_cons, hsplit, List.append_assoc]
      · have hne : (b == a) = false := by
          rw [beq_eq_false_iff_ne]
          rintro rfl
          exact ha hmem
        rw [pieceOf, List.lookup_cons, hne]
        exact hnew

/-- The state the text of a function starts with. -/
def Prologue (f : Func) (keys : List Value) (s : St) (T : Text) (s₁ : St) : Prop :=
  funPrologue f keys (allocateStack f keys { initState f s with s0Offset := fun _ => none }) =
    .ok s₁ ∧ T.prologue = s₁.ss

/-- **A piece of the text**, and the state it was generated in. -/
theorem genFunction_piece {keys : List Value} {s s' : St} {T : Text}
    (h : genFunction f keys s = .ok (T, s')) (hnodup : f.blocks.Nodup) :
    ∃ s₁, Prologue f keys s T s₁ ∧ ∀ b ∈ f.blocks, ∀ k i, (f.body b)[k]? = some i →
      ∃ pre post s₂ s₃, f.instrs = pre ++ i :: post ∧ GenUpTo f s₁ pre s₂ ∧
        genInstr f i { s₂ with ss := [] } = .ok s₃ ∧ T.piece b k = some s₃.ss := by
  obtain ⟨s₁, hpro, h⟩ := bind_ok.mp h
  obtain ⟨hT, new, hblocks, -, hpieces⟩ := genBlocks hnodup h
  refine ⟨s₁, ⟨hpro, hT⟩, ?_⟩
  intro b hb k i hk
  obtain ⟨pre, post, s₂, s₃, hsplit, hup, hgen, hnew⟩ := hpieces b hb k i hk
  refine ⟨pre, post, s₂, s₃, hsplit, hup, hgen, ?_⟩
  rw [Text.piece, hblocks]
  exact hnew

end

end Cminusfc.Codegen
