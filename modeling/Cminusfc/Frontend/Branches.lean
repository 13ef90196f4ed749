import Mathlib.Order.BooleanAlgebra.Set
import Cminusfc.Frontend.Connected
import Cminusfc.Frontend.Placed

/-!
# Blocks that wait

A branch of the visitor creates its blocks at the insert block, ends that with a terminator and goes
through the new blocks one by one. Each of them is a child of the block where it was created.

* `Raised p Q B p' B' W`: the blocks `W` have been created.
* `Waiting p Q B p' C W`: the block with the terminator is behind the visitor, `W` still wait.
* `Waiting.resume` goes on in one of them, `Waiting.leave` comes back from it.

The check of a subscript is the first use.

About `src/cminusfc/cminusf_builder.cpp` 109-204 and 285-292.
-/

namespace Cminusfc.Frontend

open LightIR
open Dominance (Ancestor Nested)
open Fallible (bind_ok)
open Builder

variable {p p' p'' : BlockId → BlockId} {Q W : Set BlockId} {B B' C D D' : Builder}
  {v : Value} {c t e : BlockId}

/-- A block that a branch at the insert point may lead to. -/
def Ahead (p : BlockId → BlockId) (B : Builder) (c : BlockId) : Prop :=
  c ∈ B.fn.blocks ∧ c ≠ B.fn.entry ∧ Ancestor p B.fn.entry (p c) B.bb

theorem Ahead.mono (h : Ahead p B c) (hB : Placed p Q B) (hl : Leads p B p' B') :
    Ahead p' B' c := by
  obtain ⟨hc, hne, habove⟩ := h
  refine ⟨hl.ext.mem_blocks hc, by rwa [hl.ext.entry], ?_⟩
  rw [hl.ext.entry, hl.parents c hc]
  exact (habove.mono hB.formed.tree hl.parents hB.mem).trans hl.under

/-- A child of an earlier insert block. -/
theorem Leads.ahead (h : Leads p B p' D) (hc : c ∈ D.fn.blocks) (hne : c ≠ B.fn.entry)
    (hp : p' c = B.bb) : Ahead p' D c := by
  refine ⟨hc, by rwa [h.ext.entry], ?_⟩
  rw [hp, h.ext.entry]
  exact h.under

theorem Placed.mem_iff (h : Placed p Q B) : c ∈ B.fn.blocks ↔ c < B.fn.blocks.length := by
  rw [h.wf.blocks, List.length_range]
  exact List.mem_range

theorem Placed.entry_eq (h : Placed p Q B) : B.fn.entry = 0 := by
  have hmem : B.fn.blocks.head? = (List.range B.fn.blocks.length).head? := congrArg _ h.wf.blocks
  rw [show B.fn.blocks.length = B.fn.rest.length + 1 from rfl, List.range_succ_eq_map] at hmem
  exact Option.some.inj hmem

theorem Placed.newBlock_notMem (h : Placed p Q B) : B.newBlock ∉ B.fn.blocks :=
  fun hc => Nat.lt_irrefl _ (h.mem_iff.mp hc)

/-! ## Terminators -/

section Terminators

variable (hB : Placed p Q B)

include hB

/-- A terminator at the end of the insert block. -/
theorem Placed.closes {x : Instr} {g : Func} (hterm : x.isTerminator = true)
    (hg : B.fn.Appends B.bb x g)
    (hsucc : ∀ a c, g.Edge a c ↔ B.fn.Edge a c ∨ a = B.bb ∧ c ∈ x.targets)
    (hparent : x.parent = B.bb) (htargets : ∀ c ∈ x.targets, Ahead p B c)
    (hops : ∀ v ∈ x.operands, Rand p B v ∨ v.asBlock.isSome = true) (hop : x.op ≠ .phi) :
    Formed p Q g := by
  have hx : Proper B.fn x := by
    have hne : x.op ≠ .load ∧ x.op ≠ .store ∧ x.op ≠ .alloca := by
      refine ⟨?_, ?_, ?_⟩
      all_goals
        intro hop
        rw [Instr.isTerminator, hop] at hterm
        cases hterm
    refine ⟨hop, fun h => absurd h hne.1, fun h => absurd h hne.2.1, fun h => absurd h hne.2.2, ?_⟩
    intro no v hv hcell
    rcases hops v (List.mem_of_getElem? hv) with hrand | hblock
    · rw [hrand.cell] at hcell
      cases hcell
    · cases v with
      | block b => cases hcell
      | _ => cases hblock
  have h := hB.formed.emit hB.wf.body hg (Set.mem_insert _ _) hsucc hparent htargets
    (fun v hv => ?_) hx
  · rwa [if_pos hterm, Set.insert_sdiff_self_of_notMem hB.apart] at h
  · rcases hops v hv with hrand | hblock
    · exact hrand.defined
    · rintro j rfl
      cases hblock

theorem Placed.br (ht : Ahead p B t) : Formed p Q (B.createBr t).fn := by
  have hcfg := createBr_toCfg B t
  have htargets : ({ op := .br, ty := .void, operands := [.block t], parent := B.bb } :
      Instr).targets = [t] := rfl
  have hblocks : (B.createBr t).fn.blocks = B.fn.blocks := (congrArg Cfg.blocks hcfg).trans rfl
  have hentry : (B.createBr t).fn.entry = B.fn.entry := (congrArg Cfg.entry hcfg).trans rfl
  have happ : B.fn.Appends B.bb _ (B.createBr t).fn :=
    ⟨B.createBr_fn_body t, B.createBr_fn_instr t, hblocks, hentry⟩
  refine hB.closes rfl happ (fun a c => ?_) rfl ?_ ?_ nofun
  · rw [htargets, List.mem_singleton, show (B.createBr t).fn.Edge a c ↔ _ from
      (congrArg (fun g : Cfg => g.Edge a c) hcfg).to_iff]
    exact Cfg.link_edge
  · intro c hc
    rw [htargets, List.mem_singleton] at hc
    exact hc ▸ ht
  · intro v hv
    rw [List.mem_singleton.mp hv]
    exact .inr rfl

theorem Placed.condBr (hv : Rand p B v) (ht : Ahead p B t) (he : Ahead p B e) (hne : t ≠ e) :
    Formed p Q (B.createCondBr v t e).fn := by
  have hcfg := createCondBr_toCfg B v hne
  have htargets : ({ op := .br, ty := .void, operands := [v, .block t, .block e], parent := B.bb } :
      Instr).targets = [t, e] := by
    cases v with
    | block b => cases hv.noBlock
    | _ => rfl
  have hblocks : (B.createCondBr v t e).fn.blocks = B.fn.blocks :=
    (congrArg Cfg.blocks hcfg).trans rfl
  have hentry : (B.createCondBr v t e).fn.entry = B.fn.entry := (congrArg Cfg.entry hcfg).trans rfl
  have happ : B.fn.Appends B.bb _ (B.createCondBr v t e).fn :=
    ⟨B.createCondBr_fn_body v t e, B.createCondBr_fn_instr v t e, hblocks, hentry⟩
  refine hB.closes rfl happ (fun a c => ?_) rfl ?_ ?_ nofun
  · rw [htargets, show (B.createCondBr v t e).fn.Edge a c ↔ _ from
      (congrArg (fun g : Cfg => g.Edge a c) hcfg).to_iff, Cfg.link_edge, Cfg.link_edge]
    simp only [List.mem_cons, List.not_mem_nil, or_false]
    tauto
  · intro c hc
    simp only [htargets, List.mem_cons, List.not_mem_nil, or_false] at hc
    rcases hc with rfl | rfl
    · exact ht
    · exact he
  · intro w hw
    simp only [List.mem_cons, List.not_mem_nil, or_false] at hw
    rcases hw with rfl | rfl | rfl
    · exact .inl hv
    · exact .inr rfl
    · exact .inr rfl

theorem Placed.ret {o : Option Value} (ho : ∀ v, o = some v → Rand p B v) :
    Formed p Q (B.createRet o).fn := by
  have hcfg : (B.createRet o).fn.toCfg = B.fn.toCfg := B.emit_fn_toCfg _
  refine hB.closes rfl (B.fn.appends _ B.bb) (fun a c => ?_) rfl ?_ ?_ nofun
  · rw [show (B.createRet o).fn.Edge a c ↔ _ from
      (congrArg (fun g : Cfg => g.Edge a c) hcfg).to_iff]
    simp [Instr.targets]
  · intro c hc
    simp [Instr.targets] at hc
  · intro v hv
    exact .inl (ho v (Option.mem_toList.mp hv))

end Terminators

/-! ## Blocks -/

/-- The blocks `W` have been created at the insert block. -/
structure Raised (p : BlockId → BlockId) (Q : Set BlockId) (B : Builder) (p' : BlockId → BlockId)
    (B' : Builder) (W : Set BlockId) : Prop extends Onward p (W ∪ Q) B p' B' where
  bb : B'.bb = B.bb
  keeps : Keeps B B'
  children : ∀ c ∈ W, c ≠ B.fn.entry ∧ p' c = B.bb
  new : ∀ c ∈ W, c ∉ B.fn.blocks

theorem Raised.none (h : Placed p Q B) : Raised p Q B p B ∅ where
  placed := by rwa [Set.empty_union]
  leads := .refl p B
  bb := rfl
  keeps := .refl B
  children _ hc := hc.elim
  new _ hc := hc.elim

/-- Another block. -/
theorem Raised.createNumbered (h : Raised p Q B p' B' W) (kind : String) :
    ∃ p'', Raised p Q B p'' (B'.createNumbered kind) (insert B'.newBlock W) := by
  have hnew := h.placed.newBlock_notMem
  have hF := h.placed.formed.createBlock h.placed.wf.blocks h.placed.mem
    (kind ++ toString B'.bbCounter)
  obtain ⟨hw, hext⟩ := B'.createNumbered_grows kind h.placed.wf
  obtain ⟨p'', hp''⟩ : ∃ p'', p'' = Function.update p' B'.newBlock B'.bb := ⟨_, rfl⟩
  have hsame : ∀ c ∈ B'.fn.blocks, p'' c = p' c := by
    intro c hc
    rw [hp'']
    refine Function.update_of_ne ?_ _ _
    rintro rfl
    exact hnew hc
  have hl : Leads p' B' p'' (B'.createNumbered kind) := ⟨hsame, .refl, hext, rfl⟩
  have hW : ∀ c ∈ W ∪ Q, c ∈ B'.fn.blocks := fun c hc =>
    (h.placed.formed.unended c (Set.mem_insert_of_mem _ hc)).1
  refine ⟨p'', ⟨?_, h.leads.trans h.placed hl⟩, h.bb,
    h.keeps.trans (createNumbered_keeps _ _), ?_, ?_⟩
  · refine h.placed.next hl hw ?_ ?_ (createNumbered_keeps _ _)
    · rw [Set.insert_union, createNumbered_bb, Set.insert_comm, hp'']
      exact hF
    · rw [Set.insert_union, createNumbered_bb]
      rintro (heq | hc)
      · exact hnew (heq ▸ h.placed.mem)
      · exact h.placed.apart hc
  · intro c hc
    rcases Set.mem_insert_iff.mp hc with rfl | hc
    · refine ⟨?_, by rw [hp'', Function.update_self, h.bb]⟩
      rw [← h.leads.ext.entry]
      rintro heq
      exact hnew (heq ▸ List.mem_cons_self)
    · obtain ⟨hne, hp⟩ := h.children c hc
      exact ⟨hne, (hsame c (hW c (.inl hc))).trans hp⟩
  · intro c hc
    rcases Set.mem_insert_iff.mp hc with rfl | hc
    · exact fun hc => hnew (h.leads.ext.mem_blocks hc)
    · exact h.new c hc

/-- The insert block has its terminator, and the blocks `W` below it wait. -/
structure Waiting (p : BlockId → BlockId) (Q : Set BlockId) (B : Builder) (p' : BlockId → BlockId)
    (C : Builder) (W : Set BlockId) : Prop where
  wf : Wf C
  formed : Formed p' (W ∪ Q) C.fn
  parents : ∀ b ∈ B.fn.blocks, p' b = p b
  ext : Extends B.fn C.fn
  keeps : Keeps B C
  children : ∀ c ∈ W, c ≠ B.fn.entry ∧ p' c = B.bb
  apart : ∀ c ∈ W, c ∉ Q

theorem Raised.ahead (h : Raised p Q B p' B' W) (hc : c ∈ W) : Ahead p' B' c := by
  obtain ⟨hne, hp⟩ := h.children c hc
  exact h.leads.ahead (h.placed.formed.unended c (.inr (.inl hc))).1 hne hp

/-- The terminator of the block where they were created. -/
theorem Raised.close (h : Raised p Q B p' B' W) (hB : Placed p Q B)
    (hF : Formed p' (W ∪ Q) C.fn) (hg : Grows B' C) (hk : Keeps B' C) : Waiting p Q B p' C W where
  wf := (hg h.placed.wf).1
  formed := hF
  parents := h.leads.parents
  ext := h.leads.ext.trans (hg h.placed.wf).2
  keeps := h.keeps.trans hk
  children := h.children
  apart c hc hQ := h.new c hc (hB.formed.unended c (.inr hQ)).1

/-- Only the function and the declarations matter. -/
theorem Waiting.same (h : Waiting p Q B p' C W) (hfn : D.fn = C.fn) (hbb : D.bb = C.bb)
    (hk : Keeps C D) : Waiting p Q B p' D W where
  wf := (Grows.of_same hfn hbb h.wf).1
  formed := hfn ▸ h.formed
  parents := h.parents
  ext := hfn ▸ h.ext
  keeps := h.keeps.trans hk
  children := h.children
  apart := h.apart

theorem Waiting.setInBranch (h : Waiting p Q B p' C W) (b : Bool) :
    Waiting p Q B p' (C.setInBranch b) W := h.same rfl rfl (setInBranch_keeps _ _)

/-- Instructions in front. -/
theorem Waiting.before (h : Waiting p Q B' p' C W) (hB : Onward p Q B p B') (hbb : B'.bb = B.bb)
    (hk : Keeps B B') : Waiting p Q B p' C W where
  wf := h.wf
  formed := h.formed
  parents b hb := h.parents b (hB.leads.ext.mem_blocks hb)
  ext := hB.leads.ext.trans h.ext
  keeps := hk.trans h.keeps
  children c hc := by
    obtain ⟨hne, hp⟩ := h.children c hc
    exact ⟨by rwa [← hB.leads.ext.entry], hp.trans hbb⟩
  apart := h.apart

/-- On with one of the blocks. -/
theorem Waiting.resume (h : Waiting p Q B p' C (insert c W)) (hB : Placed p Q B) (hc : c ∉ W) :
    Onward p (W ∪ Q) B p' (C.setInsertPoint c) := by
  obtain ⟨hne, hp⟩ := h.children c (Set.mem_insert _ _)
  have hF := h.formed
  rw [Set.insert_union] at hF
  have hmem := (hF.unended c (Set.mem_insert _ _)).1
  have hl : Leads p B p' (C.setInsertPoint c) :=
    ⟨h.parents, Ancestor.child hne hp, h.ext, h.keeps.globals⟩
  refine ⟨hB.next hl ?_ hF ?_ (h.keeps.trans (setInsertPoint_keeps _ _)), hl⟩
  · rw [h.wf.blocks] at hmem
    exact (setInsertPoint_grows C (List.mem_range.mp hmem) h.wf).1
  · rintro (hW | hQ)
    · exact hc hW
    · exact h.apart c (Set.mem_insert _ _) hQ

/-- On with the last one. -/
theorem Waiting.last (h : Waiting p Q B p' C {c}) (hB : Placed p Q B) :
    Onward p Q B p' (C.setInsertPoint c) := by
  rw [← insert_empty_eq] at h
  have hend := h.resume hB (Set.notMem_empty _)
  rwa [Set.empty_union] at hend

/-- The blocks stay ahead. -/
theorem Waiting.ahead (h : Waiting p Q B p' C (insert c W)) (hB : Placed p Q B) (hc : c ∉ W)
    (hD : Onward p' (W ∪ Q) (C.setInsertPoint c) p'' D) (ht : t ∈ insert c W) : Ahead p'' D t := by
  have hon := h.resume hB hc
  obtain ⟨hne, hp⟩ := h.children t ht
  have hmem := (h.formed.unended t (.inl ht)).1
  exact (hon.leads.trans hon.placed hD.leads).ahead (hD.leads.ext.mem_blocks hmem) hne
    ((hD.leads.parents t hmem).trans hp)

/-- Back from one of the blocks. -/
theorem Waiting.leave (h : Waiting p Q B p' C (insert c W)) (hB : Placed p Q B) (hc : c ∉ W)
    (hD : Onward p' (W ∪ Q) (C.setInsertPoint c) p'' D) (hk : Keeps (C.setInsertPoint c) D)
    (hF : Formed p'' (W ∪ Q) D'.fn) (hg : Grows D D') (hk' : Keeps D D') :
    Waiting p Q B p'' D' W where
  wf := (hg hD.placed.wf).1
  formed := hF
  parents := ((h.resume hB hc).leads.trans (h.resume hB hc).placed hD.leads).parents
  ext := (h.ext.trans hD.leads.ext).trans (hg hD.placed.wf).2
  keeps := ((h.keeps.trans (setInsertPoint_keeps C c)).trans hk).trans hk'
  children d hd := by
    obtain ⟨hne, hp⟩ := h.children d (Set.mem_insert_of_mem _ hd)
    refine ⟨hne, ?_⟩
    rw [hD.leads.parents d (h.formed.unended d (.inl (Set.mem_insert_of_mem _ hd))).1]
    exact hp
  apart d hd := h.apart d (Set.mem_insert_of_mem _ hd)

end Cminusfc.Frontend
