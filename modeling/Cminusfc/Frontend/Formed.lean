import Mathlib.Data.Set.Insert
import Cminusfc.Frontend.Emission
import Cminusfc.Lib.ParentTree
import Cminusfc.LightIR.Exec

/-!
# The function in the making

What stays true of a function while the builder adds to it: `Formed p P f`, where `p` gives every
block the block that was open when it was created, and the blocks `P` have no terminator yet.

* Every edge leads to a child of an ancestor of its source, so ancestors dominate (`Ancestor.dom`).
* The definition of an operand stands earlier in the block or in an ancestor.
* Blocks other than those in `P` end in their only terminator, and the edges are those of the
  terminators.
* Loads and stores go to globals, elements and allocas, and the address of a scalar alloca is used
  for nothing else (`Proper`).

`Formed.emit`, `Formed.createBlock`: an instruction at the end of a block, and another block.

About the functions that `src/cminusfc/cminusf_builder.cpp` leaves; no function of the source checks
this.
-/

namespace Cminusfc.LightIR.Func

variable {f g : Func} {b c : BlockId} {x : Instr} {i : InstrId}

/-- `g` is `f` with the new instruction `x` at the end of the block `b`. -/
structure Appends (f : Func) (b : BlockId) (x : Instr) (g : Func) : Prop where
  body : g.body = Function.update f.body b (f.body b ++ [f.next])
  instr : g.instr = Function.update f.instr f.next x
  blocks : g.blocks = f.blocks
  entry : g.entry = f.entry

namespace Appends

variable (h : Appends f b x g)

include h

theorem body_self : g.body b = f.body b ++ [f.next] := by rw [h.body, Function.update_self]

theorem body_other (hc : c ≠ b) : g.body c = f.body c := by rw [h.body, Function.update_of_ne hc]

theorem instr_new : g.instr f.next = x := by rw [h.instr, Function.update_self]

theorem instr_old (hi : i < f.next) : g.instr i = f.instr i := by
  rw [h.instr, Function.update_of_ne (Nat.ne_of_lt hi)]

theorem next_mem : f.next ∈ g.body b := by
  rw [h.body_self]
  exact List.mem_append_right _ (List.mem_singleton_self _)

theorem mem_of_mem (hi : i ∈ f.body c) : i ∈ g.body c := by
  by_cases hc : c = b
  · subst hc
    rw [h.body_self]
    exact List.mem_append_left _ hi
  · rwa [h.body_other hc]

/-- An instruction of a block is an old one, or the new one. -/
theorem old_or_new (hi : i ∈ g.body c) : i ∈ f.body c ∨ c = b ∧ i = f.next := by
  by_cases hc : c = b
  · subst hc
    rw [h.body_self, List.mem_append, List.mem_singleton] at hi
    exact hi.imp_right fun hi => ⟨rfl, hi⟩
  · rw [h.body_other hc] at hi
    exact .inl hi

end Appends

theorem appends (f : Func) (x : Instr) (b : BlockId) :
    Appends f b x ((f.newInstr x).addInstruction b f.next) where
  body := by rw [addInstruction, setBody, newInstr_body]
  instr := newInstr_instr f x
  blocks := congrArg Cfg.blocks (newInstr_toCfg f x)
  entry := congrArg Cfg.entry (newInstr_toCfg f x)

end Cminusfc.LightIR.Func

namespace Cminusfc.Frontend

open LightIR
open Dominance (Ancestor Nested)

/-- What loads and stores go to. -/
def Addressable (f : Func) (v : Value) : Prop :=
  v.isGlobal = true ∨ f.isGep v = true ∨ ∃ i, v = .instr i ∧ (f.instr i).op = .alloca

/-- What an instruction of the builder is like. -/
structure Proper (f : Func) (x : Instr) : Prop where
  op : x.op ≠ .phi
  load : x.op = .load → ∃ a, x.operands = [a] ∧ Addressable f a
  store : x.op = .store → ∃ v a, x.operands = [v, a] ∧ v.asBlock = none ∧ Addressable f a
  alloca : x.op = .alloca → x.operands = [] ∧ x.ty.isPointer = true
  /-- A scalar alloca is the address of loads and stores and nothing else. -/
  scalars : ∀ (no : Nat) (v : Value), x.operands[no]? = some v → (f.cell v).isSome = true →
    x.op = .load ∧ no = 0 ∨ x.op = .store ∧ no = 1

/-- The definition of `v` stands in `b` or in an ancestor of `b`. -/
def Defined (p : BlockId → BlockId) (f : Func) (b : BlockId) (v : Value) : Prop :=
  ∀ j, v = .instr j → ∃ a, Ancestor p f.entry a b ∧ j ∈ f.body a

/-- A function whose blocks have the parents `p`; those in `P` have no terminator yet. -/
structure Formed (p : BlockId → BlockId) (P : Set BlockId) (f : Func) : Prop where
  blocks : ∀ b, f.body b ≠ [] → b ∈ f.blocks
  tree : ∀ b ∈ f.blocks, b ≠ f.entry → p b ∈ f.blocks
  closed : ∀ b, ∀ c ∈ f.succ b, c ∈ f.blocks
  nested : Nested f.Edge p f.entry
  targets : ∀ b c, c ∈ f.succ b ↔ ∃ i ∈ f.body b, c ∈ (f.instr i).targets
  unended : ∀ b ∈ P, b ∈ f.blocks ∧ ∀ i ∈ f.body b, (f.instr i).isTerminator = false
  ended : ∀ b ∈ f.blocks, b ∉ P → ∃ pre t, f.body b = pre ++ [t] ∧
    (f.instr t).isTerminator = true ∧ ∀ i ∈ pre, (f.instr i).isTerminator = false
  parent : ∀ b, ∀ i ∈ f.body b, (f.instr i).parent = b
  nodup : ∀ b, (f.body b).Nodup
  operands : ∀ b pre i post, f.body b = pre ++ i :: post →
    ∀ j, Value.instr j ∈ (f.instr i).operands →
      j ∈ pre ∨ ∃ a, a ≠ b ∧ Ancestor p f.entry a b ∧ j ∈ f.body a
  proper : ∀ b, ∀ i ∈ f.body b, Proper f (f.instr i)

variable {p p' : BlockId → BlockId} {P : Set BlockId} {f g : Func} {a b c : BlockId} {v : Value}
  {x : Instr} {i j : InstrId}

/-! ## Functions with more instructions -/

theorem Addressable.mono (h : Addressable f v) (hsame : ∀ i, v = .instr i → g.instr i = f.instr i) :
    Addressable g v := by
  rcases h with h | h | ⟨i, rfl, h⟩
  · exact .inl h
  · refine .inr (.inl ?_)
    cases v with
    | instr i =>
      have hop : (f.instr i).op = .getelementptr := by simpa [Func.isGep] using h
      simpa [Func.isGep, hsame i rfl] using hop
    | _ => cases h
  · exact .inr (.inr ⟨i, rfl, by rw [hsame i rfl]; exact h⟩)

theorem cell_eq (hsame : ∀ i, v = .instr i → g.instr i = f.instr i) : g.cell v = f.cell v := by
  cases v with
  | instr i => simp only [Func.cell, hsame i rfl]
  | _ => rfl

theorem Proper.mono (h : Proper f x)
    (hsame : ∀ i, .instr i ∈ x.operands → g.instr i = f.instr i) : Proper g x where
  op := h.op
  load hop := by
    obtain ⟨a, ha, haddr⟩ := h.load hop
    exact ⟨a, ha, haddr.mono fun i hi => hsame i (by simp [ha, hi])⟩
  store hop := by
    obtain ⟨w, a, ha, hblock, haddr⟩ := h.store hop
    exact ⟨w, a, ha, hblock, haddr.mono fun i hi => hsame i (by simp [ha, hi])⟩
  alloca := h.alloca
  scalars no w hw hcell := by
    refine h.scalars no w hw ?_
    rwa [cell_eq fun i hi => hsame i (hi ▸ List.mem_of_getElem? hw)] at hcell

theorem Defined.above (h : Defined p f a v) (hab : Ancestor p f.entry a b) : Defined p f b v := by
  intro j hj
  obtain ⟨c, hc, hmem⟩ := h j hj
  exact ⟨c, hc.trans hab, hmem⟩

/-- A definition stays where it is. -/
theorem Defined.mono (h : Defined p f b v) (hF : Formed p P f) (hb : b ∈ f.blocks)
    (hp : ∀ c ∈ f.blocks, p' c = p c) (hx : Extends f g) : Defined p' g b v := by
  intro j hj
  obtain ⟨a, ha, hmem⟩ := h j hj
  obtain ⟨l, hl, -⟩ := hx.body a
  refine ⟨a, ?_, by rw [hl]; exact List.mem_append_left _ hmem⟩
  rw [hx.entry]
  exact ha.mono hF.tree hp hb

/-- An operand has been created. -/
theorem Formed.lt_next (h : Formed p P f) (hbody : ∀ b, ∀ i ∈ f.body b, i < f.next)
    (hi : i ∈ f.body b) (hj : Value.instr j ∈ (f.instr i).operands) : j < f.next := by
  obtain ⟨pre, post, hsplit⟩ := List.append_of_mem hi
  rcases h.operands b pre i post hsplit j hj with hmem | ⟨a, -, -, hmem⟩
  · exact hbody b j (by rw [hsplit]; exact List.mem_append_left _ hmem)
  · exact hbody a j hmem

/-! ## Another instruction -/

section Emit

variable (h : Formed p P f) (hbody : ∀ b, ∀ i ∈ f.body b, i < f.next) (hg : f.Appends b x g)

include h hbody hg

/-- The edges are those of the terminators. -/
theorem Formed.emit_targets (hsucc : ∀ a c, c ∈ g.succ a ↔ c ∈ f.succ a ∨ a = b ∧ c ∈ x.targets)
    (a c : BlockId) : c ∈ g.succ a ↔ ∃ i ∈ g.body a, c ∈ (g.instr i).targets := by
  rw [hsucc, h.targets]
  constructor
  · rintro (⟨i, hi, hc⟩ | ⟨rfl, hc⟩)
    · exact ⟨i, hg.mem_of_mem hi, by rwa [hg.instr_old (hbody a i hi)]⟩
    · exact ⟨f.next, hg.next_mem, by rwa [hg.instr_new]⟩
  · rintro ⟨i, hi, hc⟩
    rcases hg.old_or_new hi with hi | ⟨rfl, rfl⟩
    · exact .inl ⟨i, hi, by rwa [hg.instr_old (hbody a i hi)] at hc⟩
    · exact .inr ⟨rfl, by rwa [hg.instr_new] at hc⟩

/-- The blocks that wait for a terminator. -/
theorem Formed.emit_unended (c : BlockId) (hc : c ∈ if x.isTerminator then P \ {b} else P) :
    c ∈ f.blocks ∧ ∀ i ∈ g.body c, (g.instr i).isTerminator = false := by
  have hcP : c ∈ P := by
    split_ifs at hc
    · exact hc.1
    · exact hc
  refine ⟨(h.unended c hcP).1, fun i hi => ?_⟩
  rcases hg.old_or_new hi with hi | ⟨rfl, rfl⟩
  · rw [hg.instr_old (hbody c i hi)]
    exact (h.unended c hcP).2 i hi
  · rw [hg.instr_new]
    split_ifs at hc with hterm
    · exact absurd rfl hc.2
    · simpa using hterm

/-- The blocks that have got theirs, the last one by `x`. -/
theorem Formed.emit_ended (hb : b ∈ P) (c : BlockId) (hc : c ∈ f.blocks)
    (hnot : c ∉ if x.isTerminator then P \ {b} else P) : ∃ pre t, g.body c = pre ++ [t] ∧
      (g.instr t).isTerminator = true ∧ ∀ i ∈ pre, (g.instr i).isTerminator = false := by
  by_cases hcb : c = b
  · subst hcb
    have hterm : x.isTerminator = true := by
      by_contra hne
      rw [if_neg hne] at hnot
      exact hnot hb
    refine ⟨f.body c, f.next, hg.body_self, by rwa [hg.instr_new], fun i hi => ?_⟩
    rw [hg.instr_old (hbody c i hi)]
    exact (h.unended c hb).2 i hi
  · have hcP : c ∉ P := by
      intro hcP
      refine hnot ?_
      split_ifs
      · exact ⟨hcP, hcb⟩
      · exact hcP
    obtain ⟨pre, t, hsplit, ht, hpre⟩ := h.ended c hc hcP
    have hlt : ∀ i ∈ pre ++ [t], i < f.next := fun i hi => hbody c i (hsplit ▸ hi)
    refine ⟨pre, t, (hg.body_other hcb).trans hsplit, ?_, fun i hi => ?_⟩
    · rwa [hg.instr_old (hlt t (by simp))]
    · rw [hg.instr_old (hlt i (List.mem_append_left _ hi))]
      exact hpre i hi

/-- The definition of an operand stands above the instruction. -/
theorem Formed.emit_operands (hops : ∀ v ∈ x.operands, Defined p f b v) (c : BlockId)
    (pre : List InstrId) (i : InstrId) (post : List InstrId) (hsplit : g.body c = pre ++ i :: post)
    (k : InstrId) (hk : Value.instr k ∈ (g.instr i).operands) :
    k ∈ pre ∨ ∃ a, a ≠ c ∧ Ancestor p g.entry a c ∧ k ∈ g.body a := by
  have habove : (k ∈ pre ∨ ∃ a, a ≠ c ∧ Ancestor p f.entry a c ∧ k ∈ f.body a) →
      k ∈ pre ∨ ∃ a, a ≠ c ∧ Ancestor p g.entry a c ∧ k ∈ g.body a := by
    rintro (hk | ⟨a, hne, ha, hk⟩)
    · exact .inl hk
    · exact .inr ⟨a, hne, hg.entry ▸ ha, hg.mem_of_mem hk⟩
  by_cases hcb : c = b
  · subst hcb
    rw [hg.body_self] at hsplit
    rcases List.eq_nil_or_concat post with rfl | ⟨post', t, rfl⟩
    · obtain ⟨rfl, hi⟩ := List.append_inj' hsplit rfl
      obtain rfl : f.next = i := by simpa using hi
      rw [hg.instr_new] at hk
      obtain ⟨a, ha, hmem⟩ := hops _ hk k rfl
      refine habove ?_
      by_cases hac : a = c
      · exact .inl (hac ▸ hmem)
      · exact .inr ⟨a, hac, ha, hmem⟩
    · rw [List.concat_eq_append, ← List.cons_append, ← List.append_assoc] at hsplit
      obtain ⟨hsplit, -⟩ := List.append_inj' hsplit rfl
      have hi : i ∈ f.body c := by rw [hsplit]; simp
      rw [hg.instr_old (hbody c i hi)] at hk
      exact habove (h.operands c pre i post' hsplit k hk)
  · rw [hg.body_other hcb] at hsplit
    have hi : i ∈ f.body c := by rw [hsplit]; simp
    rw [hg.instr_old (hbody c i hi)] at hk
    exact habove (h.operands c pre i post hsplit k hk)

/-- **An instruction at the end of a block.** -/
theorem Formed.emit (hb : b ∈ P)
    (hsucc : ∀ a c, c ∈ g.succ a ↔ c ∈ f.succ a ∨ a = b ∧ c ∈ x.targets) (hparent : x.parent = b)
    (htargets : ∀ c ∈ x.targets, c ∈ f.blocks ∧ c ≠ f.entry ∧ Ancestor p f.entry (p c) b)
    (hops : ∀ v ∈ x.operands, Defined p f b v) (hx : Proper f x) :
    Formed p (if x.isTerminator then P \ {b} else P) g := by
  constructor
  case blocks =>
    intro c hc
    rw [hg.blocks]
    by_cases hcb : c = b
    · exact hcb ▸ (h.unended b hb).1
    · exact h.blocks c (hg.body_other hcb ▸ hc)
  case tree =>
    rw [hg.blocks, hg.entry]
    exact h.tree
  case closed =>
    intro a c hac
    rw [hg.blocks]
    rcases (hsucc a c).mp hac with hac | ⟨rfl, hc⟩
    · exact h.closed a c hac
    · exact (htargets c hc).1
  case nested =>
    intro a c hac
    rw [hg.entry]
    rcases (hsucc a c).mp hac with hac | ⟨rfl, hc⟩
    · exact h.nested a c hac
    · exact (htargets c hc).2
  case targets => exact h.emit_targets hbody hg hsucc
  case unended => exact hg.blocks ▸ h.emit_unended hbody hg
  case ended => exact hg.blocks ▸ h.emit_ended hbody hg hb
  case parent =>
    intro c i hi
    rcases hg.old_or_new hi with hi | ⟨rfl, rfl⟩
    · rw [hg.instr_old (hbody c i hi)]
      exact h.parent c i hi
    · rwa [hg.instr_new]
  case nodup =>
    intro c
    by_cases hcb : c = b
    · subst hcb
      rw [hg.body_self]
      refine List.nodup_append.mpr ⟨h.nodup c, List.nodup_singleton _, fun i hi k hk => ?_⟩
      rw [List.mem_singleton.mp hk]
      exact Nat.ne_of_lt (hbody c i hi)
    · rw [hg.body_other hcb]
      exact h.nodup c
  case operands => exact h.emit_operands hbody hg hops
  case proper =>
    intro c i hi
    rcases hg.old_or_new hi with hi | ⟨rfl, rfl⟩
    · rw [hg.instr_old (hbody c i hi)]
      exact (h.proper c i hi).mono fun k hk => hg.instr_old (h.lt_next hbody hi hk)
    · rw [hg.instr_new]
      refine hx.mono fun k hk => ?_
      obtain ⟨a, -, hmem⟩ := hops _ hk k rfl
      exact hg.instr_old (hbody a k hmem)

end Emit

/-! ## Another block -/

/-- **Another block**, below `a`. -/
theorem Formed.createBlock (h : Formed p P f) (hblocks : f.blocks = List.range f.blocks.length)
    (ha : a ∈ f.blocks) (name : String) :
    Formed (Function.update p f.blocks.length a) (insert f.blocks.length P)
      (f.createBlock name) := by
  have hmem : ∀ b, b ∈ f.blocks ↔ b < f.blocks.length := fun b => by
    rw [hblocks, List.length_range]
    exact List.mem_range
  have hnew : f.blocks.length ∉ f.blocks := fun h => Nat.lt_irrefl _ ((hmem _).mp h)
  have hall : (f.createBlock name).blocks = f.blocks ++ [f.blocks.length] := rfl
  have hsame : ∀ c ∈ f.blocks, Function.update p f.blocks.length a c = p c := by
    intro c hc
    refine Function.update_of_ne ?_ _ _
    rintro rfl
    exact hnew hc
  have hempty : f.body f.blocks.length = [] := by
    by_contra hne
    exact hnew (h.blocks _ hne)
  have hmono : ∀ {c d}, Ancestor p f.entry c d → d ∈ f.blocks →
      Ancestor (Function.update p f.blocks.length a) f.entry c d :=
    fun hcd hd => hcd.mono h.tree hsame hd
  constructor
  case blocks => exact fun b hb => hall ▸ List.mem_append_left _ (h.blocks b hb)
  case tree =>
    intro b hb hne
    rw [hall] at hb ⊢
    rcases List.mem_append.mp hb with hb | hb
    · rw [hsame b hb]
      exact List.mem_append_left _ (h.tree b hb hne)
    · rw [List.mem_singleton.mp hb, Function.update_self]
      exact List.mem_append_left _ ha
  case closed => exact fun b c hc => hall ▸ List.mem_append_left _ (h.closed b c hc)
  case nested =>
    intro b c hbc
    obtain ⟨hne, habove⟩ := h.nested b c hbc
    obtain ⟨i, hi, -⟩ := (h.targets b c).mp hbc
    have hb := h.blocks b (List.ne_nil_of_mem hi)
    refine ⟨hne, ?_⟩
    rw [hsame c (h.closed b c hbc)]
    exact hmono habove hb
  case targets => exact h.targets
  case unended =>
    intro b hb
    rcases Set.mem_insert_iff.mp hb with rfl | hb
    · refine ⟨by rw [hall]; simp, fun i hi => ?_⟩
      rw [show (f.createBlock name).body = f.body from rfl, hempty] at hi
      cases hi
    · exact ⟨hall ▸ List.mem_append_left _ (h.unended b hb).1, (h.unended b hb).2⟩
  case ended =>
    intro b hb hnot
    rw [hall] at hb
    rcases List.mem_append.mp hb with hb | hb
    · exact h.ended b hb fun hP => hnot (Set.mem_insert_of_mem _ hP)
    · exact absurd (Set.mem_insert_iff.mpr (.inl (List.mem_singleton.mp hb))) hnot
  case parent => exact h.parent
  case nodup => exact h.nodup
  case operands =>
    intro b pre i post hsplit k hk
    rcases h.operands b pre i post hsplit k hk with hk | ⟨c, hne, hc, hk⟩
    · exact .inl hk
    · have hb := h.blocks b (by rw [show f.body b = _ from hsplit]; simp)
      exact .inr ⟨c, hne, hmono hc hb, hk⟩
  case proper => exact fun b i hi => (h.proper b i hi).mono fun _ _ => rfl

end Cminusfc.Frontend
