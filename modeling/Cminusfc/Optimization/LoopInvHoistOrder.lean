import Mathlib.Data.List.Nodup
import Cminusfc.LightIR.Ssa
import Cminusfc.Optimization.LoopInvHoist

/-!
# Where `moveout` puts the invariants of a loop

`moveout` appends the collected instructions to the pre-header in the order of a `std::set` of
pointers. `Moved` is the shape of the result.

* **`run_placed_iff`**: in every run, for every loop: the moved instructions stand behind the moved
  instructions they use, in front of the terminator, and dominate all their uses, exactly when the
  order of the set puts operands first and the pre-header dominates the uses that stay
  (`Hoistable`).
* `hoistable_iff_order`: in SSA form the second half holds of itself for a loop that is entered
  through its base from one block outside.
* `moveout_powers_not_placed`: two multiplications and the order that swaps them.

About `moveout`, `src/optimization/LoopInvHoist.cpp` 43-58.
-/

namespace Cminusfc.Optimization.LoopInvHoist

open Cminusfc.LightIR Dominance
open LoopSearch (Loop)

/-! ## What should hold, and when -/

/-- `i` is an operand of `u`. -/
def Uses (f : Func) (u i : InstrId) : Prop := Value.instr i ∈ (f.instr u).operands

instance (f : Func) (u i : InstrId) : Decidable (Uses f u i) :=
  inferInstanceAs (Decidable (Value.instr i ∈ (f.instr u).operands))

/-- `j` stands in front of `i`. -/
def Before (l : List InstrId) (j i : InstrId) : Prop := ∃ l₁ l₂, l = l₁ ++ i :: l₂ ∧ j ∈ l₁

/-- The instructions `invs` stand in the block `pre` behind those of them that they use and in front
of the terminator `term`, and their definitions dominate their uses. -/
structure Placed (g : Func) (pre : BlockId) (term : InstrId) (invs : List InstrId) : Prop where
  before : ∀ i ∈ invs, ∃ l₁ l₂, g.body pre = l₁ ++ i :: l₂ ∧ term ∈ l₂ ∧
    ∀ j ∈ invs, Uses g i j → j ∈ l₁
  dominates : ∀ i ∈ invs, ∀ b ∈ g.blocks, ∀ l₁ u l₂, g.body b = l₁ ++ u :: l₂ →
    (g.instr u).op ≠ .phi → Uses g u i → g.Available b l₁ i
  incoming : ∀ i ∈ invs, ∀ b ∈ g.blocks, ∀ u ∈ g.body b, (g.instr u).op = .phi →
    ∀ c, (Value.instr i, c) ∈ (g.instr u).phiPairs →
      ∃ a ∈ g.blocks, g.Dominates a c ∧ i ∈ g.body a

/-- The pre-header dominates the uses of `invs` by the instructions that stay. -/
structure UsesBelow (f : Func) (pre : BlockId) (invs : List InstrId) : Prop where
  uses : ∀ i ∈ invs, ∀ b ∈ f.blocks, ∀ u ∈ f.body b, u ∉ invs → (f.instr u).op ≠ .phi →
    Uses f u i → f.StrictlyDominates pre b ∨ u = f.termOf pre
  incoming : ∀ i ∈ invs, ∀ b ∈ f.blocks, ∀ u ∈ f.body b, (f.instr u).op = .phi →
    ∀ c, (Value.instr i, c) ∈ (f.instr u).phiPairs → f.Dominates pre c

/-- The order `order` of `invs` puts operands first. -/
def OperandsFirst (f : Func) (order : List InstrId) : Prop :=
  ∀ i ∈ order, ∀ j ∈ order, Uses f i j → Before order j i

/-- The condition. -/
def Hoistable (f : Func) (pre : BlockId) (order : List InstrId) : Prop :=
  OperandsFirst f order ∧ UsesBelow f pre order

/-! ## The shape of the result -/

/-- Well-terminated blocks, instructions that know their block, and loops among the blocks. -/
structure Site (f : Func) (loops : List Loop) : Prop where
  nodup : f.instrs.Nodup
  parent : ∀ b ∈ f.blocks, ∀ i ∈ f.body b, (f.instr i).parent = b
  terminated : f.WellTerminated
  loops : ∀ loop ∈ loops, (∀ bb ∈ loop.blocks, bb ∈ f.blocks) ∧
    ∀ a ∈ f.pre loop.base, a ∈ f.blocks

/-- `moveout` has got as far as `done`; the terminator of the pre-header is out. -/
structure Moving (f : Func) (pre : BlockId) (done : List InstrId) (h : Func) : Prop where
  cfg : h.toCfg = f.toCfg
  body_pre : h.body pre = f.initOf pre ++ done
  body : ∀ b ∈ f.blocks, b ≠ pre → h.body b = (f.body b).filter fun i => decide (i ∉ done)
  instr : ∀ i, h.instr i = { f.instr i with parent := if i ∈ done then pre else (f.instr i).parent }

/-- The result: the instructions `order` have moved to the pre-header. -/
structure Moved (f : Func) (pre : BlockId) (order : List InstrId) (g : Func) : Prop where
  pre_mem : pre ∈ f.blocks
  nodup : order.Nodup
  plain : ∀ i ∈ order, (f.instr i).isTerminator = false
  outside : ∀ i ∈ order, ∃ b ∈ f.blocks, b ≠ pre ∧ i ∈ f.body b
  cfg : g.toCfg = f.toCfg
  body_pre : g.body pre = f.initOf pre ++ (order ++ [f.termOf pre])
  body : ∀ b ∈ f.blocks, b ≠ pre → g.body b = (f.body b).filter fun i => decide (i ∉ order)
  instr : ∀ i, g.instr i = { f.instr i with parent := if i ∈ order then pre else (f.instr i).parent }

variable {f g h : Func} {loops : List Loop} {loop : Loop} {ord : SetOrder InstrId}
  {pre b c : BlockId} {order done invs : List InstrId} {i j u : InstrId}

/-- The start: the terminator is out. -/
theorem Site.moving (hf : Site f loops) (hpre : pre ∈ f.blocks) :
    Moving f pre [] (f.deleteInstr pre (f.termOf pre)) where
  cfg := Func.deleteInstr_toCfg _ _ _
  body_pre := by
    obtain ⟨hbody, -, -⟩ := hf.terminated pre hpre
    have hnd := (List.nodup_flatMap.mp hf.nodup).1 pre hpre
    rw [hbody] at hnd
    have hnot : ∀ i ∈ f.initOf pre, i ≠ f.termOf pre := fun i hi =>
      (List.nodup_append.mp hnd).2.2 i hi _ List.mem_cons_self
    rw [Func.deleteInstr_body, Function.update_self, hbody, List.filter_append,
      List.filter_eq_self.mpr fun i hi => by simpa using hnot i hi]
    simp
  body b _ hne := by
    rw [Func.deleteInstr_body, Function.update_of_ne hne]
    simp
  instr i := by
    rw [Func.deleteInstr_instr]
    simp

/-- One invariant. -/
theorem Moving.moveInv (hf : Site f loops) (hm : Moving f pre done h) (hb : b ∈ f.blocks)
    (hbp : b ≠ pre) (hi : i ∈ f.body b) (hnew : i ∉ done) :
    Moving f pre (done ++ [i]) (moveInv pre h i) := by
  have hparent : (h.instr i).parent = b := by
    rw [hm.instr]
    simpa [hnew] using hf.parent b hb i hi
  have hbody : (LoopInvHoist.moveInv pre h i).body =
      Function.update (Function.update h.body b ((h.body b).filter (· ≠ i))) pre
        (h.body pre ++ [i]) := by
    show Function.update (h.deleteInstr (h.instr i).parent i).body pre
      ((h.deleteInstr (h.instr i).parent i).body pre ++ [i]) = _
    rw [Func.deleteInstr_body, hparent, Function.update_of_ne hbp.symm]
  refine ⟨?_, ?_, fun d hd hdp => ?_, fun k => ?_⟩
  · show (h.deleteInstr (h.instr i).parent i).toCfg = _
    rw [Func.deleteInstr_toCfg, hm.cfg]
  · rw [hbody, Function.update_self, hm.body_pre, List.append_assoc]
  · rw [hbody, Function.update_of_ne hdp]
    have hfilter : (f.body d).filter (fun k => decide (k ∉ done ++ [i])) =
        ((f.body d).filter fun k => decide (k ∉ done)).filter (· ≠ i) := by
      rw [List.filter_filter]
      refine List.filter_congr fun k _ => ?_
      by_cases hk : k = i <;> simp [hk]
    by_cases hdb : d = b
    · subst hdb
      rw [Function.update_self, hm.body d hd hdp, hfilter]
    · rw [Function.update_of_ne hdb, hm.body d hd hdp, hfilter, eq_comm, List.filter_eq_self]
      intro k hk
      have hki : k ≠ i := by
        rintro rfl
        exact hdb (Func.block_unique hf.nodup hd hb (List.mem_filter.mp hk).1 hi)
      simpa using hki
  · show Function.update (h.deleteInstr (h.instr i).parent i).instr i
      { (h.deleteInstr (h.instr i).parent i).instr i with parent := pre } k = _
    rw [Func.deleteInstr_instr]
    by_cases hk : k = i
    · subst hk
      rw [Function.update_self, hm.instr]
      simp
    · rw [Function.update_of_ne hk, hm.instr]
      simp [hk]

theorem Moving.foldl_moveInv (hf : Site f loops) : ∀ (l done : List InstrId) (h : Func),
    Moving f pre done h → (done ++ l).Nodup → (∀ i ∈ l, ∃ b ∈ f.blocks, b ≠ pre ∧ i ∈ f.body b) →
    Moving f pre (done ++ l) (l.foldl (LoopInvHoist.moveInv pre) h) := by
  intro l
  induction l with
  | nil =>
    intro done h hm _ _
    rwa [List.append_nil]
  | cons i l ih =>
    intro done h hm hnd hl
    obtain ⟨b, hb, hbp, hi⟩ := hl i List.mem_cons_self
    have hnew : i ∉ done := fun hd =>
      (List.nodup_append.mp hnd).2.2 i hd i List.mem_cons_self rfl
    have := ih (done ++ [i]) _ (hm.moveInv hf hb hbp hi hnew) (by simpa using hnd)
      fun k hk => hl k (List.mem_cons_of_mem _ hk)
    simpa using this

/-- What is collected is collected once. -/
theorem nodup_collect (f : Func) (loop : Loop) : (collect f loop []).1.Nodup := by
  have hinstrs : ∀ (l : List InstrId) (s : List InstrId × Bool), s.1.Nodup →
      (l.foldl (collectInstr f loop) s).1.Nodup := by
    intro l
    induction l with
    | nil => exact fun _ h => h
    | cons i l ih =>
      intro s hs
      refine ih _ ?_
      unfold collectInstr
      split
      · show (if i ∈ s.1 then s.1 else s.1 ++ [i]).Nodup
        split
        · exact hs
        · rename_i hi
          exact List.nodup_append.mpr ⟨hs, List.nodup_singleton i, fun a ha c hc hac =>
            hi (List.mem_singleton.mp hc ▸ hac ▸ ha)⟩
      · exact hs
  have hblocks : ∀ (bbs : List BlockId) (s : List InstrId × Bool), s.1.Nodup →
      (bbs.foldl (fun s bb => (f.body bb).foldl (collectInstr f loop) s) s).1.Nodup := by
    intro bbs
    induction bbs with
    | nil => exact fun _ h => h
    | cons bb bbs ih => exact fun s hs => ih _ (hinstrs _ s hs)
  exact hblocks _ _ List.nodup_nil

/-- What is collected has passed `inv_in_loop`. -/
theorem forall_collect {P : InstrId → Prop}
    (h : ∀ invs i, invInLoop f loop invs i = true → P i) : ∀ i ∈ (collect f loop []).1, P i := by
  have hinstrs : ∀ (l : List InstrId) (s : List InstrId × Bool), (∀ i ∈ s.1, P i) →
      ∀ i ∈ (l.foldl (collectInstr f loop) s).1, P i := by
    intro l
    induction l with
    | nil => exact fun _ h => h
    | cons i l ih =>
      intro s hs
      refine ih _ ?_
      unfold collectInstr
      split
      · rename_i hinv
        show ∀ j ∈ (if i ∈ s.1 then s.1 else s.1 ++ [i]), P j
        split
        · exact hs
        · intro j hj
          rcases List.mem_append.mp hj with hj | hj
          · exact hs j hj
          · exact List.mem_singleton.mp hj ▸ h _ i hinv
      · exact hs
  have hblocks : ∀ (bbs : List BlockId) (s : List InstrId × Bool), (∀ i ∈ s.1, P i) →
      ∀ i ∈ (bbs.foldl (fun s bb => (f.body bb).foldl (collectInstr f loop) s) s).1, P i := by
    intro bbs
    induction bbs with
    | nil => exact fun _ h => h
    | cons bb bbs ih => exact fun s hs => ih _ (hinstrs _ s hs)
  exact hblocks _ _ (fun _ h => absurd h List.not_mem_nil)

/-- Terminators are not collected. -/
theorem collect_plain : ∀ i ∈ (collect f loop []).1, (f.instr i).isTerminator = false :=
  forall_collect fun invs i h => by
    unfold invInLoop at h
    simp only at h
    split at h
    · cases h
    · rename_i hop
      simp only [not_or] at hop
      simp [Instr.isTerminator, hop]

/-- **The result of `moveout`.** -/
theorem moveout_moved (hf : Site f loops) (hloop : loop ∈ loops) (hpre : predPre f loop = some pre)
    (ord : SetOrder InstrId) :
    ∃ g, moveout ord (collect f loop []).1 loop f = .ok g ∧
      Moved f pre (ord.enum (collect f loop []).1) g := by
  obtain ⟨hblocks, hpreds⟩ := hf.loops loop hloop
  obtain ⟨hmem, hout⟩ := List.mem_filter.mp (List.mem_of_getLast? hpre)
  have hpb := hpreds pre hmem
  obtain ⟨hbody, -, -⟩ := hf.terminated pre hpb
  have hlast : (f.body pre).getLast? = some (f.termOf pre) := by
    rw [hbody, List.getLast?_concat]
  have hnd : (ord.enum (collect f loop []).1).Nodup :=
    (ord.perm _).nodup_iff.mpr (nodup_collect f loop)
  have houtside : ∀ i ∈ ord.enum (collect f loop []).1, ∃ b ∈ f.blocks, b ≠ pre ∧ i ∈ f.body b := by
    intro i hi
    obtain ⟨bb, hbb, hib⟩ := (mem_collect (ord.mem_enum.mp hi)).resolve_left List.not_mem_nil
    refine ⟨bb, hblocks bb hbb, ?_, hib⟩
    rintro rfl
    simp [hbb] at hout
  have hm := Moving.foldl_moveInv hf (ord.enum (collect f loop []).1) [] _ (hf.moving hpb)
    (by simpa using hnd) houtside
  rw [List.nil_append] at hm
  refine ⟨((ord.enum (collect f loop []).1).foldl (LoopInvHoist.moveInv pre)
    (f.deleteInstr pre (f.termOf pre))).addInstruction pre (f.termOf pre),
    by simp only [moveout, hpre, hlast], hpb, hnd,
    fun i hi => collect_plain i (ord.mem_enum.mp hi), houtside, hm.cfg, ?_, fun b hb hne => ?_, hm.instr⟩
  · rw [Func.addInstruction_body, Function.update_self, hm.body_pre, List.append_assoc]
  · rw [Func.addInstruction_body, Function.update_of_ne hne, hm.body b hb hne]

/-! ## Reading the result -/

section Result

variable (hf : Site f loops) (hm : Moved f pre order g)
include hf hm

omit hf in
theorem Moved.blocks_eq : g.blocks = f.blocks := by
  unfold Cfg.blocks
  rw [hm.cfg]

omit hf in
theorem Moved.op_eq (i : InstrId) : (g.instr i).op = (f.instr i).op := by rw [hm.instr]

omit hf in
theorem Moved.operands_eq (i : InstrId) : (g.instr i).operands = (f.instr i).operands := by
  rw [hm.instr]

omit hf in
theorem Moved.uses_iff : Uses g u i ↔ Uses f u i := by rw [Uses, hm.operands_eq]; rfl

omit hf in
theorem Moved.phiPairs_eq (i : InstrId) : (g.instr i).phiPairs = (f.instr i).phiPairs := by
  rw [Instr.phiPairs, hm.operands_eq]
  rfl

omit hf in
theorem Moved.mem_pre (hi : i ∈ order) : i ∈ g.body pre := by
  rw [hm.body_pre]
  simp [hi]

/-- A moved instruction does not come from the pre-header. -/
theorem Moved.not_mem_pre (hi : i ∈ order) : i ∉ f.body pre := by
  obtain ⟨b, hb, hne, hib⟩ := hm.outside i hi
  exact fun hip => hne (Func.block_unique hf.nodup hb hm.pre_mem hib hip)

omit hf in
/-- A moved instruction stands in the pre-header only. -/
theorem Moved.block_eq (hi : i ∈ order) (hb : b ∈ f.blocks) (hib : i ∈ g.body b) : b = pre := by
  by_contra hne
  rw [hm.body b hb hne] at hib
  simpa [hi] using (List.mem_filter.mp hib).2

theorem Moved.nodup_pre : (g.body pre).Nodup := by
  obtain ⟨hbody, -, -⟩ := hf.terminated pre hm.pre_mem
  have hnd := (List.nodup_flatMap.mp hf.nodup).1 pre hm.pre_mem
  rw [hbody] at hnd
  obtain ⟨hinit, -, hdis⟩ := List.nodup_append.mp hnd
  have hin : ∀ k ∈ order, k ∉ f.initOf pre ∧ k ≠ f.termOf pre := by
    intro k hk
    have hno := hm.not_mem_pre hf hk
    rw [hbody, List.mem_append, List.mem_singleton, not_or] at hno
    exact hno
  rw [hm.body_pre]
  refine List.nodup_append.mpr ⟨hinit, List.nodup_append.mpr ⟨hm.nodup, List.nodup_singleton _,
    fun a ha c hc => List.mem_singleton.mp hc ▸ (hin a ha).2⟩, fun a ha c hc => ?_⟩
  rcases List.mem_append.mp hc with hc | hc
  · exact fun hac => (hin c hc).1 (hac ▸ ha)
  · exact hdis a ha c hc

omit hf hm in
theorem split_unique {α : Type} {l a b a' b' : List α} {i : α} (hnd : l.Nodup)
    (h : l = a ++ i :: b) (h' : l = a' ++ i :: b') : a = a' ∧ b = b' := by
  rw [h] at hnd
  obtain ⟨-, hnd₂, hdis⟩ := List.nodup_append.mp hnd
  have ha : i ∉ a := fun hi => hdis i hi i List.mem_cons_self rfl
  obtain ⟨h₁, -, h₂⟩ := (List.append_cons_inj_of_notMem ha (List.nodup_cons.mp hnd₂).1).mp
    (h.symm.trans h')
  exact ⟨h₁, h₂⟩

/-- The place of a moved instruction in the pre-header. -/
theorem Moved.place {l₁ l₂ e₁ e₂ : List InstrId} (he : order = e₁ ++ i :: e₂)
    (hb : g.body pre = l₁ ++ i :: l₂) :
    l₁ = f.initOf pre ++ e₁ ∧ l₂ = e₂ ++ [f.termOf pre] := by
  refine split_unique (hm.nodup_pre hf) hb ?_
  rw [hm.body_pre, he]
  simp

/-- Among the instructions in front of a moved one, the moved ones come from the order. -/
theorem Moved.mem_front {e₁ : List InstrId} (hj : j ∈ order) :
    j ∈ f.initOf pre ++ e₁ ↔ j ∈ e₁ := by
  obtain ⟨hbody, -, -⟩ := hf.terminated pre hm.pre_mem
  have hno := hm.not_mem_pre hf hj
  rw [hbody, List.mem_append, not_or] at hno
  rw [List.mem_append, or_iff_right hno.1]

/-- An instruction stands in a block after the move if it did before. -/
theorem Moved.mem_instrs (hb : b ∈ f.blocks) (hu : u ∈ f.body b) :
    ∃ c ∈ g.blocks, u ∈ g.body c := by
  rw [hm.blocks_eq]
  by_cases hmem : u ∈ order
  · exact ⟨pre, hm.pre_mem, hm.mem_pre hmem⟩
  · refine ⟨b, hb, ?_⟩
    by_cases hbp : b = pre
    · subst hbp
      rw [(hf.terminated b hb).1] at hu
      rw [hm.body_pre]
      rcases List.mem_append.mp hu with hu | hu
      · exact List.mem_append_left _ hu
      · exact List.mem_append_right _ (List.mem_append_right _ hu)
    · rw [hm.body b hb hbp]
      exact List.mem_filter.mpr ⟨hu, by simpa using hmem⟩

/-- An instruction that stays. -/
theorem Moved.mem_body (hb : b ∈ f.blocks) (hu : u ∉ order) : u ∈ g.body b ↔ u ∈ f.body b := by
  by_cases hbp : b = pre
  · subst hbp
    rw [(hf.terminated b hb).1, hm.body_pre]
    simp [hu]
  · rw [hm.body b hb hbp]
    simp [hu]

omit hf in
/-- What is available where, of the moved instructions. -/
theorem Moved.available_iff (hi : i ∈ order) {l : List InstrId} :
    g.Available b l i ↔ i ∈ l ∨ f.StrictlyDominates pre b := by
  have hsdom : ∀ a, g.StrictlyDominates a b ↔ f.StrictlyDominates a b := by
    intro a
    unfold Cfg.StrictlyDominates Cfg.Edge
    rw [hm.cfg]
  unfold Func.Available
  constructor
  · rintro (h | ⟨a, ha, hdom, hia⟩)
    · exact Or.inl h
    · rw [hm.blocks_eq] at ha
      exact Or.inr ((hm.block_eq hi ha hia) ▸ (hsdom a).mp hdom)
  · rintro (h | h)
    · exact Or.inl h
    · exact Or.inr ⟨pre, hm.blocks_eq ▸ hm.pre_mem, (hsdom pre).mpr h, hm.mem_pre hi⟩

omit hf in
theorem Moved.incoming_iff (hi : i ∈ order) :
    (∃ a ∈ g.blocks, g.Dominates a c ∧ i ∈ g.body a) ↔ f.Dominates pre c := by
  have hdom : ∀ a, g.Dominates a c ↔ f.Dominates a c := by
    intro a
    unfold Cfg.Dominates Cfg.Edge
    rw [hm.cfg]
  constructor
  · rintro ⟨a, ha, h, hia⟩
    rw [hm.blocks_eq] at ha
    exact (hm.block_eq hi ha hia) ▸ (hdom a).mp h
  · exact fun h => ⟨pre, hm.blocks_eq ▸ hm.pre_mem, (hdom pre).mpr h, hm.mem_pre hi⟩

/-- The uses by instructions that stay, where the definitions dominate. -/
theorem Moved.uses_of_dominates (h : ∀ i ∈ order, ∀ b ∈ g.blocks, ∀ l₁ u l₂,
    g.body b = l₁ ++ u :: l₂ → (g.instr u).op ≠ .phi → Uses g u i → g.Available b l₁ i)
    (hi : i ∈ order) (hb : b ∈ f.blocks) (hu : u ∈ f.body b) (hstay : u ∉ order)
    (hop : (f.instr u).op ≠ .phi) (huse : Uses f u i) :
    f.StrictlyDominates pre b ∨ u = f.termOf pre := by
  obtain ⟨l₁, l₂, hsplit⟩ := List.append_of_mem ((hm.mem_body hf hb hstay).mpr hu)
  have hav := h i hi b (hm.blocks_eq ▸ hb) l₁ u l₂ hsplit (by rwa [hm.op_eq]) (hm.uses_iff.mpr huse)
  rcases (hm.available_iff hi).mp hav with hil | hdom
  · have hbp := hm.block_eq hi hb (by rw [hsplit]; exact List.mem_append_left _ hil)
    subst hbp
    right
    have hbody := (hf.terminated b hb).1
    rw [hbody, List.mem_append, List.mem_singleton] at hu
    refine hu.resolve_left fun hinit => ?_
    obtain ⟨m₁, m₂, hm₁⟩ := List.append_of_mem hinit
    obtain ⟨rfl, -⟩ := split_unique (hm.nodup_pre hf) hsplit
      (show g.body b = m₁ ++ u :: (m₂ ++ (order ++ [f.termOf b])) by rw [hm.body_pre, hm₁]; simp)
    refine hm.not_mem_pre hf hi ?_
    rw [hbody, hm₁]
    simp [hil]
  · exact Or.inl hdom

/-- **When the moved instructions stand well.** -/
theorem Moved.placed_iff : Placed g pre (f.termOf pre) order ↔ Hoistable f pre order := by
  constructor
  · intro h
    refine ⟨fun i hi j hj huse => ?_, ⟨fun i hi b hb u hu hstay hop huse =>
      hm.uses_of_dominates hf h.dominates hi hb hu hstay hop huse, fun i hi b hb u hu hop c hc => ?_⟩⟩
    · obtain ⟨l₁, l₂, hsplit, -, hfront⟩ := h.before i hi
      obtain ⟨e₁, e₂, he⟩ := List.append_of_mem hi
      have hjl := hfront j hj (hm.uses_iff.mpr huse)
      rw [(hm.place hf he hsplit).1] at hjl
      exact ⟨e₁, e₂, he, (hm.mem_front hf hj).mp hjl⟩
    · obtain ⟨d, hd, hud⟩ := hm.mem_instrs hf hb hu
      exact (hm.incoming_iff hi).mp (h.incoming i hi d hd u hud (by rwa [hm.op_eq]) c
        (by rwa [hm.phiPairs_eq]))
  · rintro ⟨horder, huses, hincoming⟩
    refine ⟨fun i hi => ?_, fun i hi b hb l₁ u l₂ hsplit hop huse => ?_,
      fun i hi b hb u hu hop c hc => ?_⟩
    · obtain ⟨e₁, e₂, he⟩ := List.append_of_mem hi
      refine ⟨f.initOf pre ++ e₁, e₂ ++ [f.termOf pre], by rw [hm.body_pre, he]; simp, by simp,
        fun j hj huse => ?_⟩
      obtain ⟨e₁', e₂', he', hje⟩ := horder i hi j hj (hm.uses_iff.mp huse)
      obtain ⟨rfl, -⟩ := split_unique hm.nodup he he'
      exact List.mem_append_right _ hje
    · rw [hm.blocks_eq] at hb
      rw [hm.op_eq] at hop
      have huse' := hm.uses_iff.mp huse
      have hub : u ∈ g.body b := by
        rw [hsplit]
        simp
      refine (hm.available_iff hi).mpr ?_
      by_cases hu : u ∈ order
      · have hbp := hm.block_eq hu hb hub
        subst hbp
        obtain ⟨e₁, e₂, he, hie⟩ := horder u hu i hi huse'
        rw [(hm.place hf he hsplit).1]
        exact Or.inl (List.mem_append_right _ hie)
      · have huf := (hm.mem_body hf hb hu).mp hub
        rcases huses i hi b hb u huf hu hop huse' with hdom | rfl
        · exact Or.inr hdom
        · have hbp : b = pre := by
            refine Func.block_unique hf.nodup hb hm.pre_mem huf ?_
            rw [(hf.terminated pre hm.pre_mem).1]
            simp
          subst hbp
          obtain ⟨rfl, -⟩ := split_unique (hm.nodup_pre hf) hsplit
            (show g.body b = (f.initOf b ++ order) ++ f.termOf b :: [] by rw [hm.body_pre]; simp)
          exact Or.inl (List.mem_append_right _ hi)
    · rw [hm.blocks_eq] at hb
      rw [hm.op_eq] at hop
      rw [hm.phiPairs_eq] at hc
      refine (hm.incoming_iff hi).mpr ?_
      by_cases hu' : u ∈ order
      · obtain ⟨d, hd, -, hud⟩ := hm.outside u hu'
        exact hincoming i hi d hd u hud hop c hc
      · exact hincoming i hi b hb u ((hm.mem_body hf hb hu').mp hu) hop c hc

omit hf hm in
/-- A block that ends in its only terminator. -/
theorem ends_of_concat {h : Func} {t : InstrId} {l : List InstrId} (hbody : h.body b = l ++ [t])
    (ht : (h.instr t).isTerminator = true) (hl : ∀ i ∈ l, (h.instr i).isTerminator = false) :
    h.body b = h.initOf b ++ [h.termOf b] ∧ (h.instr (h.termOf b)).isTerminator = true ∧
      ∀ i ∈ h.initOf b, (h.instr i).isTerminator = false := by
  have hinit : h.initOf b = l := by simp [Func.initOf, hbody]
  have hterm : h.termOf b = t := by simp [Func.termOf, hbody]
  rw [hinit, hterm]
  exact ⟨hbody, ht, hl⟩

/-- The next loop finds a function of the same kind. -/
theorem Moved.site : Site g loops where
  nodup := by
    refine List.nodup_flatMap.mpr ⟨fun b hb => ?_, ?_⟩
    · rw [hm.blocks_eq] at hb
      by_cases hbp : b = pre
      · subst hbp
        exact hm.nodup_pre hf
      · rw [hm.body b hb hbp]
        exact ((List.nodup_flatMap.mp hf.nodup).1 b hb).filter _
    · rw [hm.blocks_eq]
      refine List.Pairwise.imp_of_mem (fun {a c} ha hc hdis => ?_) (List.nodup_flatMap.mp hf.nodup).2
      intro x hxa hxc
      by_cases hx : x ∈ order
      · have hap := hm.block_eq hx ha hxa
        have hcp := hm.block_eq hx hc hxc
        subst hap
        subst hcp
        have ht : f.termOf c ∈ f.body c := by
          rw [(hf.terminated c hc).1]
          simp
        exact hdis ht ht
      · exact hdis ((hm.mem_body hf ha hx).mp hxa) ((hm.mem_body hf hc hx).mp hxc)
  parent b hb i hi := by
    rw [hm.blocks_eq] at hb
    rw [hm.instr]
    by_cases hio : i ∈ order
    · simp [hio, hm.block_eq hio hb hi]
    · simpa [hio] using hf.parent b hb i ((hm.mem_body hf hb hio).mp hi)
  terminated := by
    intro b hb
    rw [hm.blocks_eq] at hb
    obtain ⟨hbody, hterm, hinit⟩ := hf.terminated b hb
    have heq : ∀ i, (g.instr i).isTerminator = (f.instr i).isTerminator := by
      intro i
      rw [hm.instr]
      rfl
    by_cases hbp : b = pre
    · subst hbp
      refine ends_of_concat (by rw [hm.body_pre, ← List.append_assoc]) ((heq _).trans hterm)
        fun i hi => (heq i).trans ?_
      rcases List.mem_append.mp hi with hi | hi
      · exact hinit i hi
      · exact hm.plain i hi
    · have hto : f.termOf b ∉ order := fun ho => by
        have hplain := hm.plain _ ho
        rw [hterm] at hplain
        cases hplain
      refine ends_of_concat (l := (f.initOf b).filter fun i => decide (i ∉ order))
        (t := f.termOf b) ?_ ((heq _).trans hterm) fun i hi => (heq i).trans ?_
      · rw [hm.body b hb hbp]
        conv_lhs => rw [hbody]
        rw [List.filter_append, List.filter_singleton]
        simp [hto]
      · exact hinit i (List.mem_filter.mp hi).1
  loops loop hl := by
    rw [hm.blocks_eq, hm.cfg]
    exact hf.loops loop hl

end Result

/-! ## A run -/

theorem collect_of_flag (h : (collect f loop []).2 = false) : collect f loop [] = ([], false) := by
  by_cases hinv : HasInvariant f loop
  · rw [collect_flag hinv] at h
    cases h
  · exact collect_none hinv

/-- One loop: the function stays of this kind, and nothing stays collected. -/
theorem Site.visitLoop (hf : Site f loops) (hloop : loop ∈ loops) {s : Func × List InstrId}
    (hrun : visitLoop ord (f, []) loop = .ok s) : Site s.1 loops ∧ s.2 = [] := by
  unfold LoopInvHoist.visitLoop at hrun
  simp only at hrun
  split at hrun
  · cases hpre : predPre f loop with
    | none =>
      simp only [moveout, hpre] at hrun
      cases hrun
    | some pre =>
      obtain ⟨g, hg, hm⟩ := moveout_moved hf hloop hpre ord
      rw [hg] at hrun
      cases hrun
      exact ⟨hm.site hf, rfl⟩
  · rename_i hflag
    cases hrun
    rw [collect_of_flag (by simpa using hflag)]
    exact ⟨hf, rfl⟩

theorem Site.foldlM : ∀ (l : List Loop) (f : Func), (∀ loop ∈ l, loop ∈ loops) → Site f loops →
    ∀ {s : Func × List InstrId}, l.foldlM (LoopInvHoist.visitLoop ord) (f, []) = .ok s →
      Site s.1 loops ∧ s.2 = [] := by
  intro l
  induction l with
  | nil =>
    intro f _ hf s hrun
    cases hrun
    exact ⟨hf, rfl⟩
  | cons loop l ih =>
    intro f hl hf s hrun
    obtain ⟨⟨g, invs⟩, h₁, hrun⟩ := Fallible.bind_ok.mp hrun
    obtain ⟨hg, hinvs⟩ := hf.visitLoop (hl loop List.mem_cons_self) h₁
    simp only at hg hinvs
    subst hinvs
    exact ih g (fun k hk => hl k (List.mem_cons_of_mem _ hk)) hg hrun

theorem Placed.subset {term : InstrId} {l l' : List InstrId} (h : Placed g pre term l)
    (hl : ∀ i ∈ l', i ∈ l) : Placed g pre term l' where
  before i hi := by
    obtain ⟨l₁, l₂, hsplit, hterm, hfront⟩ := h.before i (hl i hi)
    exact ⟨l₁, l₂, hsplit, hterm, fun j hj => hfront j (hl j hj)⟩
  dominates i hi := h.dominates i (hl i hi)
  incoming i hi := h.incoming i (hl i hi)

/-- **Where the instructions of a loop are put**, in every run, whatever loops have been treated
before: behind the moved instructions they use, in front of the terminator and above all their uses,
exactly when the order of the set puts operands first and the pre-header dominates the uses by the
instructions that stay. -/
theorem run_placed_iff (hf : Site f loops) (ord : SetOrder InstrId) {front back : List Loop}
    (hl : loops = front ++ loop :: back) (hrun : front.foldlM (visitLoop ord) (f, []) = .ok (g, invs))
    (hpre : predPre g loop = some pre) :
    ∃ g', visitLoop ord (g, invs) loop = .ok (g', []) ∧
      (Placed g' pre (g.termOf pre) (collect g loop []).1 ↔
        Hoistable g pre (ord.enum (collect g loop []).1)) := by
  have hloop : loop ∈ loops := by
    rw [hl]
    simp
  obtain ⟨hg, hinvs⟩ := Site.foldlM front f
    (fun k hk => by rw [hl]; exact List.mem_append_left _ hk) hf hrun
  simp only at hg hinvs
  subst hinvs
  cases hflag : (collect g loop []).2 with
  | false =>
    have hnil : ord.enum ([] : List InstrId) = [] := (ord.perm []).eq_nil
    refine ⟨g, by simp [visitLoop, collect_of_flag hflag], ?_⟩
    rw [collect_of_flag hflag, hnil]
    have hno : ∀ i, i ∉ ([] : List InstrId) := fun _ => List.not_mem_nil
    exact ⟨fun _ => ⟨fun i hi => absurd hi (hno i), fun i hi => absurd hi (hno i),
        fun i hi => absurd hi (hno i)⟩,
      fun _ => ⟨fun i hi => absurd hi (hno i), fun i hi => absurd hi (hno i),
        fun i hi => absurd hi (hno i)⟩⟩
  | true =>
    obtain ⟨g', hg', hm⟩ := moveout_moved hg hloop hpre ord
    refine ⟨g', by simp [visitLoop, hflag, hg', Except.map], ?_⟩
    rw [← hm.placed_iff hg]
    exact ⟨fun h => h.subset fun i hi => ord.mem_enum.mp hi,
      fun h => h.subset fun i hi => ord.mem_enum.mpr hi⟩

/-- **In SSA form**, for a loop whose base dominates it and is entered from one block outside, it is
the order alone. -/
theorem hoistable_iff_order (hf : Site f loops) (hssa : f.SsaForm)
    (hreach : ∀ b ∈ f.blocks, f.Reach b) (hedge : ∀ a, f.Edge a loop.base → a ∈ f.pre loop.base)
    (hbase : loop.base ≠ f.entry) (hdom : ∀ bb ∈ loop.blocks, f.Dominates loop.base bb)
    (hblocks : ∀ bb ∈ loop.blocks, bb ∈ f.blocks) (hout : pre ∉ loop.blocks)
    (hentry : ∀ a ∈ f.pre loop.base, a ∉ loop.blocks → a = pre)
    (horder : ∀ i ∈ order, ∃ bb ∈ loop.blocks, i ∈ f.body bb) :
    Hoistable f pre order ↔ OperandsFirst f order := by
  have hpre : f.Dominates pre loop.base := by
    refine Dom.of_entries hbase fun a ha hnot => ?_
    have hap : a = pre := hentry a (hedge a ha) fun hin => hnot (hdom a hin)
    exact hap ▸ Dom.refl
  have hsdom : ∀ bb ∈ loop.blocks, f.StrictlyDominates pre bb := fun bb hbb =>
    ⟨hpre.trans (hdom bb hbb), fun he => hout (he ▸ hbb)⟩
  refine ⟨And.left, fun h => ⟨h, fun i hi b hb u hu _ hop huse => Or.inl ?_,
    fun i hi b hb u hu hop c hc => ?_⟩⟩
  · obtain ⟨d, hd, hid⟩ := horder i hi
    obtain ⟨l₁, l₂, hsplit⟩ := List.append_of_mem hu
    rcases hssa.operand b hb l₁ u l₂ hsplit hop i huse with hil | ⟨a, ha, hab, hia⟩
    · have hbd : b = d := Func.block_unique hf.nodup hb (hblocks d hd)
        (by rw [hsplit]; exact List.mem_append_left _ hil) hid
      exact hbd ▸ hsdom d hd
    · have had : a = d := Func.block_unique hf.nodup ha (hblocks d hd) hia hid
      subst had
      exact hab.trans_dom (hreach b hb) (hsdom a hd).1
  · obtain ⟨d, hd, hid⟩ := horder i hi
    obtain ⟨a, ha, hac, hia⟩ := hssa.incoming b hb u hu hop i c hc
    have had : a = d := Func.block_unique hf.nodup ha (hblocks d hd) hia hid
    subst had
    exact (hsdom a hd).1.trans hac

/-! ## Two multiplications

`int f(int n) { int s; s = 0; while (s < n) s = s + n * n * n; return s; }` after `Mem2Reg`. -/

/-- The blocks: entry, condition, body, the block behind. -/
def powersCfg : Cfg where
  entry := 0
  rest := [1, 2, 3]
  pre bb := match bb with
    | 1 => [0, 2]
    | 2 | 3 => [1]
    | _ => []
  succ bb := match bb with
    | 0 | 2 => [1]
    | 1 => [3, 2]
    | _ => []

/-- `f`. -/
def powers : Func where
  toCfg := powersCfg
  name := "f"
  retTy := .int32
  args := [.int32]
  body bb := match bb with
    | 0 => [0]
    | 1 => [1, 2, 3]
    | 2 => [4, 5, 6, 7]
    | 3 => [8]
    | _ => []
  instr i := match i with
    | 0 => { op := .br, ty := .void, operands := [.block 1], parent := 0 }
    | 1 =>
      { op := .phi, ty := .int32, operands := [.int32 0, .block 0, .instr 6, .block 2], parent := 1 }
    | 2 => { op := .cmp, ty := .int1, operands := [.instr 1, .arg 0], parent := 1, cmpOp := .LT }
    | 3 => { op := .br, ty := .void, operands := [.instr 2, .block 2, .block 3], parent := 1 }
    | 4 => { op := .mul, ty := .int32, operands := [.arg 0, .arg 0], parent := 2 }
    | 5 => { op := .mul, ty := .int32, operands := [.instr 4, .arg 0], parent := 2 }
    | 6 => { op := .add, ty := .int32, operands := [.instr 1, .instr 5], parent := 2 }
    | 7 => { op := .br, ty := .void, operands := [.block 1], parent := 2 }
    | _ => { op := .ret, ty := .void, operands := [.instr 1], parent := 3 }
  next := 9

/-- The loop `LoopSearch` finds. -/
def powersLoop : Loop where
  base := 1
  blocks := [1, 2]

theorem powers_site : Site powers [powersLoop] where
  nodup := by decide
  parent := by decide
  terminated := by decide
  loops := by decide

/-- The order that puts the later address first. -/
def downwards : SetOrder InstrId := ⟨List.reverse, List.reverse_perm⟩

/-- The theorem at `f`, in the order of creation. -/
theorem run_powers_placed_iff :
    ∃ g', visitLoop ⟨id, fun l => .refl l⟩ (powers, []) powersLoop = .ok (g', []) ∧
      (Placed g' 0 0 [4, 5] ↔ Hoistable powers 0 [4, 5]) :=
  run_placed_iff powers_site ⟨id, fun l => .refl l⟩ (show [powersLoop] = [] ++ powersLoop :: [] from rfl)
    rfl (show predPre powers powersLoop = some 0 from rfl)

/-- **In the order `downwards`, the product that is used comes behind its use.** -/
theorem moveout_powers_not_placed :
    ∃ g', visitLoop downwards (powers, []) powersLoop = .ok (g', []) ∧
      g'.body 0 = [5, 4, 0] ∧ ¬ Placed g' 0 0 (collect powers powersLoop []).1 := by
  refine ⟨_, rfl, rfl, fun h => ?_⟩
  obtain ⟨l₁, l₂, hsplit, -, hfront⟩ := h.before 5 (by decide)
  have hbody : [5, 4, 0] = l₁ ++ 5 :: l₂ := hsplit
  obtain ⟨rfl, -⟩ := split_unique (by decide) hbody (show [5, 4, 0] = [] ++ 5 :: [4, 0] from rfl)
  exact absurd (hfront 4 (by decide) (by decide)) List.not_mem_nil

end Cminusfc.Optimization.LoopInvHoist
