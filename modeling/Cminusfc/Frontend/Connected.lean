import Mathlib.Data.Set.Insert
import Cminusfc.Frontend.Emission
import Cminusfc.Optimization.DomTree

/-!
# The graphs the builder leaves

Blocks are created before it is known what branches to them, branches are left out behind a
return, and a sweep over the blocks adds edges later. `Joined P` is what stays true of the graph
meanwhile: every block is reachable, or it is one of the blocks in `P` that nothing branches to
yet. `Linked P` adds that the insert block is reachable.

Results:
* `visit_connects`: every visit keeps `Linked P`, whatever `P` is, and what is reachable.
* `visitProgram_joined`: nothing waits when a function is finished.
* **`connected`**: the lists of a function are inverse, its entry has no predecessor and its blocks
  are reachable; hence `create_idom` and `create_dominance_frontier` end on it, with an immediate
  dominator for every block and every runner.

About the blocks and edges of `src/cminusfc/cminusf_builder.cpp` 43-79, 109-273 and 285-292, and the
passes of `src/optimization/Dominators.cpp` 71-192.
-/

namespace Cminusfc.LightIR

/-! ## Edges -/

/-- The edge from `a` to `b`, behind the others. -/
def Cfg.link (g : Cfg) (a b : BlockId) : Cfg :=
  { g with
    pre := Function.update g.pre b (g.pre b ++ [a])
    succ := Function.update g.succ a (g.succ a ++ [b]) }

/-- The lists are inverse, and every block that is not in `P` is reachable. -/
structure Joined (P : Set BlockId) (g : Cfg) : Prop where
  inverse : ∀ a b, (g.succ a).count b = (g.pre b).count a
  entry : g.pre g.entry = []
  closed : ∀ a, ∀ b ∈ g.succ a, a ∈ g.blocks ∧ b ∈ g.blocks
  reach : ∀ b ∈ g.blocks, b ∈ P ∨ g.Reach b

variable {g : Cfg} {a b c : BlockId} {P Q : Set BlockId}

theorem Cfg.link_edge {x y : BlockId} : (g.link a b).Edge x y ↔ g.Edge x y ∨ x = a ∧ y = b := by
  simp only [Cfg.Edge, Cfg.link]
  by_cases hx : x = a
  · subst hx
    simp
  · simp [hx]

theorem Cfg.Reach.link (h : g.Reach c) : (g.link a b).Reach c :=
  Dominance.Reachable.mono (fun _ _ he => Cfg.link_edge.mpr (.inl he)) h

theorem Cfg.Reach.link_target (h : g.Reach a) : (g.link a b).Reach b :=
  Dominance.Reachable.step (h.link) (Cfg.link_edge.mpr (.inr ⟨rfl, rfl⟩))

theorem Cfg.link_comm {t e : BlockId} (hne : t ≠ e) :
    (g.link a e).link a t =
      { g with
        pre := Function.update (Function.update g.pre t (g.pre t ++ [a])) e (g.pre e ++ [a])
        succ := Function.update g.succ a (g.succ a ++ [e] ++ [t]) } := by
  simp [Cfg.link, Function.update_of_ne hne, Function.update_comm hne]

/-- A block that is reachable by now is not waiting any longer. -/
theorem Joined.settle (h : Joined Q g) (hQ : ∀ b ∈ Q, b ∈ P ∨ g.Reach b) : Joined P g := by
  refine { h with reach := fun c hc => ?_ }
  rcases h.reach c hc with hc | hc
  · exact hQ c hc
  · exact .inr hc

/-- **An edge between two blocks keeps the lists inverse.** -/
theorem Joined.link (h : Joined P g) (ha : a ∈ g.blocks) (hb : b ∈ g.blocks) (hne : b ≠ g.entry) :
    Joined P (g.link a b) where
  inverse x y := by
    have hxy := h.inverse x y
    simp only [Cfg.link]
    by_cases hx : x = a
    · by_cases hy : y = b
      · subst hx hy
        simp [hxy]
      · subst hx
        simp [Function.update_of_ne hy, Ne.symm hy, hxy]
    · by_cases hy : y = b
      · subst hy
        simp [Function.update_of_ne hx, Ne.symm hx, hxy]
      · simp [Function.update_of_ne hx, Function.update_of_ne hy, hxy]
  entry := by
    show Function.update g.pre b (g.pre b ++ [a]) g.entry = []
    rw [Function.update_of_ne (Ne.symm hne), h.entry]
  closed x y hy := by
    rcases Cfg.link_edge.mp hy with hy | ⟨rfl, rfl⟩
    · exact h.closed x y hy
    · exact ⟨ha, hb⟩
  reach c hc := (h.reach c hc).imp_right Cfg.Reach.link

/-- What is reachable is a block. -/
theorem Joined.reach_mem (h : Joined P g) (hb : g.Reach b) : b ∈ g.blocks := by
  obtain ⟨p, hp⟩ := hb
  cases hp with
  | start => exact List.mem_cons_self
  | step _ he => exact (h.closed _ _ he).2

/-- The lists of a graph that is joined, as a flow graph. -/
def Joined.flowGraph (h : Joined P g) : FlowGraph where
  toCfg := g
  inverse a b := by rw [← List.count_pos_iff, h.inverse a b, List.count_pos_iff]
  closed _ _ b hb := (h.closed _ b hb).2
  pre_closed b _ a ha := by
    rw [← List.count_pos_iff, ← h.inverse a b, List.count_pos_iff] at ha
    exact (h.closed a b ha).1

/-- A new block waits for an edge. -/
theorem Joined.create (h : Joined P g) :
    Joined (insert b P) { g with rest := g.rest ++ [b] } where
  inverse := h.inverse
  entry := h.entry
  closed x y hy := by
    obtain ⟨hx, hy⟩ := h.closed x y hy
    exact ⟨List.mem_append_left [b] hx, List.mem_append_left [b] hy⟩
  reach c hc := by
    rcases List.mem_append.mp (show c ∈ g.blocks ++ [b] from hc) with hc | hc
    · exact (h.reach c hc).imp_left (Set.mem_insert_of_mem b)
    · exact .inl (.inl (List.mem_singleton.mp hc))

end Cminusfc.LightIR

namespace Cminusfc.Frontend

open LightIR
open Fallible (bind_ok)
open Optimization.Dominators

/-! ## Steps of the builder -/

/-- The graph is joined, and the insert block reachable. -/
structure Linked (P : Set BlockId) (B : Builder) : Prop where
  wf : Wf B
  joined : Joined P B.fn.toCfg
  reach : B.fn.toCfg.Reach B.bb

/-- What is reachable stays reachable. -/
def KeepsReach (B B' : Builder) : Prop := ∀ c, B.fn.toCfg.Reach c → B'.fn.toCfg.Reach c

/-- A step that keeps the graph linked, whatever waits for an edge meanwhile. -/
def Connects (B B' : Builder) : Prop := ∀ P, Linked P B → Linked P B' ∧ KeepsReach B B'

variable {B B' B₁ B₂ B₃ : Builder} {P : Set BlockId} {b t e : BlockId}

theorem KeepsReach.trans (h : KeepsReach B₁ B₂) (h' : KeepsReach B₂ B₃) : KeepsReach B₁ B₃ :=
  fun c hc => h' c (h c hc)

/-- Only the function matters. -/
theorem KeepsReach.of_fn (h : KeepsReach B₁ B₂) (hfn : B₃.fn = B₂.fn) : KeepsReach B₁ B₃ := by
  intro c hc
  rw [hfn]
  exact h c hc

theorem Connects.trans (h : Connects B₁ B₂) (h' : Connects B₂ B₃) : Connects B₁ B₃ := by
  intro P hP
  obtain ⟨hP, hk⟩ := h P hP
  obtain ⟨hP, hk'⟩ := h' P hP
  exact ⟨hP, hk.trans hk'⟩

theorem Straight.linked (h : Straight B B') (hP : Linked P B) : Linked P B' :=
  ⟨(h.grows hP.wf).1, h.toCfg ▸ hP.joined, by
    rw [h.toCfg, h.bb]
    exact hP.reach⟩

theorem Linked.of_same (h : Linked P B) (hfn : B'.fn = B.fn) (hbb : B'.bb = B.bb) : Linked P B' :=
  (Straight.of_same hfn hbb).linked h

theorem Straight.keepsReach (h : Straight B B') : KeepsReach B B' := fun _ hc => h.toCfg ▸ hc

theorem Straight.connects (h : Straight B B') : Connects B B' :=
  fun _ hP => ⟨h.linked hP, h.keepsReach⟩

theorem Connects.of_same (hfn : B'.fn = B.fn) (hbb : B'.bb = B.bb) : Connects B B' :=
  (Straight.of_same hfn hbb).connects

theorem Connects.refl (B : Builder) : Connects B B := (Straight.refl B).connects

theorem Connects.same (h : Connects B₁ B₂) (hfn : B₃.fn = B₂.fn) (hbb : B₃.bb = B₂.bb) :
    Connects B₁ B₃ := h.trans (.of_same hfn hbb)

theorem Linked.start (hw : Wf B) (hj : Joined P B.fn.toCfg) (hb : B.fn.toCfg.Reach b) :
    Linked P (B.setInsertPoint b) := by
  have hmem := hj.reach_mem hb
  rw [hw.blocks, List.mem_range] at hmem
  exact ⟨⟨hw.blocks, hmem, hw.body, hw.fresh⟩, hj, hb⟩

namespace Linked

variable (h : Linked P B)
include h

theorem entry_eq : B.fn.entry = 0 := by
  have hblocks := h.wf.blocks
  simp only [Cfg.blocks, List.length_cons, List.range_succ_eq_map, List.cons.injEq] at hblocks
  exact hblocks.1

theorem ne_entry (hpos : 0 < b) : b ≠ B.fn.entry := by
  rw [h.entry_eq]
  exact Nat.ne_of_gt hpos

theorem mem_iff : b ∈ B.fn.blocks ↔ b < B.fn.blocks.length := by
  conv_lhs => rw [h.wf.blocks]
  exact List.mem_range

theorem at_block (hb : B.fn.toCfg.Reach b) : Linked P (B.setInsertPoint b) :=
  .start h.wf h.joined hb

theorem create (name : String) : Linked (insert B.newBlock P) (B.createBlock name) :=
  ⟨(B.createBlock_grows name h.wf).1, h.joined.create, h.reach⟩

theorem createNumbered (kind : String) : Linked (insert B.newBlock P) (B.createNumbered kind) :=
  (h.create (kind ++ toString B.bbCounter)).of_same rfl rfl

end Linked

theorem Linked.settle {Q : Set BlockId} (h : Linked Q B)
    (hQ : ∀ b ∈ Q, b ∈ P ∨ B.fn.toCfg.Reach b) : Linked P B :=
  ⟨h.wf, h.joined.settle hQ, h.reach⟩

theorem createBr_toCfg (B : Builder) (t : BlockId) :
    (B.createBr t).fn.toCfg = B.fn.toCfg.link B.bb t := Builder.emit_fn_toCfg _ _

theorem createCondBr_toCfg (B : Builder) (v : Value) (hne : t ≠ e) :
    (B.createCondBr v t e).fn.toCfg = (B.fn.toCfg.link B.bb e).link B.bb t := by
  rw [Cfg.link_comm hne]
  refine (Builder.emit_fn_toCfg _ _).trans ?_
  simp [Func.addPreBasicBlock, Func.addSuccBasicBlock, Function.update_of_ne hne.symm]

/-- A branch to a block behind the entry. -/
theorem Linked.br (h : Linked P B) (ht : t < B.fn.blocks.length) (hpos : 0 < t) :
    Linked P (B.createBr t) ∧ (B.createBr t).fn.toCfg.Reach t := by
  refine ⟨⟨(B.createBr_grows t h.wf).1, ?_, ?_⟩, ?_⟩
  · rw [createBr_toCfg]
    exact h.joined.link (h.mem_iff.mpr h.wf.bb) (h.mem_iff.mpr ht) (h.ne_entry hpos)
  · rw [createBr_toCfg]
    exact h.reach.link
  · rw [createBr_toCfg]
    exact h.reach.link_target

theorem createBr_reach (B : Builder) (t : BlockId) : KeepsReach B (B.createBr t) := by
  intro c hc
  rw [createBr_toCfg]
  exact hc.link

/-- A branch to two blocks behind the entry. -/
theorem Linked.condBr (h : Linked P B) (v : Value) (ht : t < B.fn.blocks.length)
    (he : e < B.fn.blocks.length) (hpos : 0 < t) (hlt : t < e) :
    Linked P (B.createCondBr v t e) ∧ (B.createCondBr v t e).fn.toCfg.Reach t ∧
      (B.createCondBr v t e).fn.toCfg.Reach e := by
  have hcfg := createCondBr_toCfg B v (Nat.ne_of_lt hlt)
  have hbb := h.mem_iff.mpr h.wf.bb
  have hlink := h.joined.link hbb (h.mem_iff.mpr he) (h.ne_entry (Nat.lt_trans hpos hlt))
  have hreach : (B.fn.toCfg.link B.bb e).Reach B.bb := h.reach.link
  refine ⟨⟨(B.createCondBr_grows v t e h.wf).1, ?_, ?_⟩, ?_, ?_⟩
  · rw [hcfg]
    exact hlink.link hbb (h.mem_iff.mpr ht) (h.ne_entry hpos)
  · rw [hcfg]
    exact hreach.link
  · rw [hcfg]
    exact hreach.link_target
  · rw [hcfg]
    exact h.reach.link_target.link

theorem createCondBr_reach (B : Builder) (v : Value) (hne : t ≠ e) :
    KeepsReach B (B.createCondBr v t e) := by
  intro c hc
  rw [createCondBr_toCfg B v hne]
  exact hc.link.link

/-! ## The parts of the visits -/

theorem foldlM_straight {α : Type} {step : Builder → α → Except Fault Builder}
    (hstep : ∀ B B' a, step B a = .ok B' → Straight B B') (l : List α) :
    ∀ B B', l.foldlM step B = .ok B' → Straight B B' := by
  induction l with
  | nil =>
    intro B B' h
    cases h
    exact Straight.refl B
  | cons a l ih =>
    intro B B' h
    rw [List.foldlM_cons] at h
    obtain ⟨B₁, h₁, h₂⟩ := bind_ok.mp h
    exact (hstep B B₁ a h₁).trans (ih B₁ B' h₂)

namespace Builder

theorem newBlock_pos (B : Builder) : 0 < B.newBlock := Nat.succ_pos _

theorem createNumbered_newBlock (B : Builder) (kind : String) :
    (B.createNumbered kind).newBlock = B.newBlock + 1 := createNumbered_length B kind

/-- Two new blocks and a branch to them. -/
theorem fork_linked (h : Linked P B) (k k' : String) (v : Value) :
    let B' := ((B.createNumbered k).createNumbered k').createCondBr v B.newBlock (B.newBlock + 1)
    Linked P B' ∧ KeepsReach B B' ∧ B'.fn.toCfg.Reach B.newBlock ∧
      B'.fn.toCfg.Reach (B.newBlock + 1) := by
  have h' := (h.createNumbered k).createNumbered k'
  rw [createNumbered_newBlock] at h'
  have hlen : ((B.createNumbered k).createNumbered k').fn.blocks.length = B.newBlock + 1 + 1 := by
    simp
  have hlt : B.newBlock + 1 < ((B.createNumbered k).createNumbered k').fn.blocks.length := by
    rw [hlen]
    exact Nat.lt_succ_self _
  have hkeep : KeepsReach B ((B.createNumbered k).createNumbered k') := fun _ hc => hc
  obtain ⟨hl, ht, he⟩ := h'.condBr v (Nat.lt_of_succ_lt hlt) hlt B.newBlock_pos (Nat.lt_succ_self _)
  refine ⟨hl.settle ?_,
    hkeep.trans (createCondBr_reach _ v (Nat.ne_of_lt (Nat.lt_succ_self _))), ht, he⟩
  rintro b (rfl | rfl | hb)
  · exact .inr he
  · exact .inr ht
  · exact .inl hb

theorem compareIndex_connects (offset : Value) : Connects B (B.compareIndex offset) := by
  intro P hP
  have hs := B.create_straight .cmp .int1 [offset, .int32 0] .GE
  obtain ⟨hl, hk, -, he⟩ := fork_linked (hs.linked hP) "true" "false" (.instr B.fn.next)
  rw [← createNumbered_newBlock _ "true"] at hl hk he
  exact ⟨hl.at_block he, (hs.keepsReach.trans hk).of_fn rfl⟩

theorem callExcept_connects {t : BlockId} (h : B.callExcept t = .ok B')
    (ht : t < B.fn.blocks.length) (hpos : 0 < t) : Connects B B' := by
  intro P hP
  obtain ⟨n, ret, rfl⟩ := callExcept_ok h
  have hs := B.create_straight .call ret [.function n] .EQ
  obtain ⟨hbr, hr⟩ := (hs.linked hP).br (by rwa [create_length]) hpos
  exact ⟨hbr.at_block hr, (hs.keepsReach.trans (createBr_reach _ _)).of_fn rfl⟩

theorem checkIndex_connects {offset : Value} (h : B.checkIndex offset = .ok B') :
    Connects B B' := by
  intro P hP
  obtain ⟨hl, hk⟩ := compareIndex_connects offset P hP
  obtain ⟨hl', hk'⟩ := callExcept_connects h (by
    rw [compareIndex_length]
    exact Nat.lt_add_of_pos_right Nat.two_pos) B.newBlock_pos P hl
  exact ⟨hl', hk.trans hk'⟩

theorem subscript_connects {ptr : Option Value} (h : B.subscript ptr = .ok B') :
    Connects B B' := by
  obtain ⟨B₁, h₁, h⟩ := bind_ok.mp h
  obtain ⟨B₂, h₂, h⟩ := bind_ok.mp h
  obtain ⟨B₃, h₃, h₄⟩ := bind_ok.mp h
  exact (((convert_straight h₁).connects.trans (checkIndex_connects h₂)).trans
    (elementAddress_straight h₃).connects).trans (finishVar_straight h₄).connects

/-- The sweep over the blocks: an edge more keeps the graph joined. -/
theorem closeBlocks_joined {returnBB : BlockId} (hpos : 0 < returnBB) (l : List BlockId) :
    ∀ B : Builder, Wf B → Joined P B.fn.toCfg → B.fn.entry = 0 →
      (∀ b ∈ l, b < B.fn.blocks.length) → returnBB < B.fn.blocks.length →
      Joined P (l.foldl (fun B bb => B.closeBlock returnBB bb) B).fn.toCfg ∧
        ∀ c, B.fn.toCfg.Reach c →
          (l.foldl (fun B bb => B.closeBlock returnBB bb) B).fn.toCfg.Reach c := by
  induction l with
  | nil => exact fun B _ h _ _ _ => ⟨h, fun _ hc => hc⟩
  | cons b l ih =>
    intro B hw h hentry hl hret
    have hb := hl b List.mem_cons_self
    obtain ⟨hw', hext⟩ := closeBlocks_grows returnBB [b] B (by simpa using hb) hw
    simp only [List.foldl_cons, List.foldl_nil] at hw' hext
    have hmem : ∀ x, x < B.fn.blocks.length → x ∈ B.fn.blocks := by
      intro x hx
      rw [hw.blocks]
      exact List.mem_range.mpr hx
    have hstep : Joined P (B.closeBlock returnBB b).fn.toCfg ∧
        ∀ c, B.fn.toCfg.Reach c → (B.closeBlock returnBB b).fn.toCfg.Reach c := by
      unfold closeBlock
      split_ifs
      · exact ⟨h, fun _ hc => hc⟩
      · rw [createBr_toCfg]
        refine ⟨h.link (hmem b hb) (hmem _ hret) ?_, fun _ hc => hc.link⟩
        rw [hentry]
        exact Nat.ne_of_gt hpos
    obtain ⟨hj, hr⟩ := ih (B.closeBlock returnBB b) hw' hstep.1 (hext.entry.trans hentry)
      (fun x hx => Nat.lt_of_lt_of_le (hl x (List.mem_cons_of_mem _ hx)) hext.blocks)
      (Nat.lt_of_lt_of_le hret hext.blocks)
    exact ⟨hj, fun c hc => hr c (hstep.2 c hc)⟩

theorem enterReturnBlock_connects (B : Builder) : Connects B B.enterReturnBlock := by
  intro P hP
  unfold enterReturnBlock
  split_ifs
  · have hcreate := hP.create "return"
    have hlen : (B.createBlock "return").fn.blocks.length = B.newBlock + 1 := createBlock_length _ _
    obtain ⟨hbr, hr⟩ := hcreate.br (t := B.newBlock) (by rw [hlen]; exact Nat.lt_succ_self _)
      B.newBlock_pos
    have hopen : Linked P ((B.createBlock "return").createBr B.newBlock) := hbr.settle (by
      rintro b (rfl | hb)
      · exact .inr hr
      · exact .inl hb)
    have hnew : KeepsReach B (B.createBlock "return") := fun _ hc => hc
    have hkeep := hnew.trans (createBr_reach (B.createBlock "return") B.newBlock)
    have hall : ∀ b ∈ ((B.createBlock "return").createBr B.newBlock).fn.blocks,
        b < ((B.createBlock "return").createBr B.newBlock).fn.blocks.length :=
      fun b hb => hopen.mem_iff.mp hb
    obtain ⟨hj, hk⟩ := closeBlocks_joined B.newBlock_pos _ _ hopen.wf hopen.joined hopen.entry_eq
      hall (hopen.mem_iff.mp (hopen.joined.reach_mem hr))
    have hw := (closeBlocks_grows B.newBlock _ _ hall hopen.wf).1
    have hclosed : Linked P ((((B.createBlock "return").createBr B.newBlock).fn.blocks.foldl
        (fun B' bb => B'.closeBlock B.newBlock bb)
        ((B.createBlock "return").createBr B.newBlock)).setInsertPoint B.newBlock) := by
      refine ⟨⟨hw.blocks, ?_, hw.body, hw.fresh⟩, hj, hk _ hr⟩
      have hmem := hj.reach_mem (hk _ hr)
      rw [hw.blocks] at hmem
      exact List.mem_range.mp hmem
    exact ⟨hclosed, (hkeep.trans hk).of_fn rfl⟩
  · exact ⟨hP, fun _ hc => hc⟩

theorem finishReturn_connects {value : Bool} (h : B.finishReturn value = .ok B') :
    Connects B B' := by
  unfold finishReturn at h
  split_ifs at h
  · split at h
    · cases h
    · rename_i ptr hptr
      obtain ⟨B₁, h₁, h⟩ := bind_ok.mp h
      have hstore : Straight B ((B₁.createStore B₁.val ptr).setVal B.val) :=
        ((convert_straight h₁).trans (createStore_straight _ _ _)).same rfl rfl
      dsimp only at h
      split_ifs at h
      · cases h
        exact hstore.connects.trans (Connects.of_same rfl rfl)
      · obtain ⟨B₂, h₂, h⟩ := bind_ok.mp h
        cases h
        exact ((hstore.connects.trans (enterReturnBlock_connects _)).trans
          (createLoad_straight h₂).connects).trans (createRet_straight _ _).connects
  · cases h
    exact Connects.of_same rfl rfl
  · cases h
    exact (enterReturnBlock_connects _).trans (createRet_straight _ _).connects

/-- A branch that does not return reaches the block behind it. -/
theorem leaveBranch_linked {out : BlockId} (h : Linked P B) (hout : out < B.fn.blocks.length)
    (hpos : 0 < out) : Linked P (B.leaveBranch out) ∧ KeepsReach B (B.leaveBranch out) ∧
      (B.returnInBranch = false → (B.leaveBranch out).fn.toCfg.Reach out) := by
  unfold leaveBranch
  split_ifs with hret
  · exact ⟨h, fun _ hc => hc, fun hfalse => by rw [hret] at hfalse; cases hfalse⟩
  · obtain ⟨hbr, hr⟩ := h.br hout hpos
    exact ⟨hbr, createBr_reach _ _, fun _ => hr⟩

theorem openSelection_linked (h : Linked P B) : Linked P B.openSelection ∧
    KeepsReach B B.openSelection ∧ B.openSelection.fn.toCfg.Reach (B.newBlock + 1) := by
  have hs := truth_straight B
  have hnew : B.truth.newBlock = B.newBlock := truth_length B
  obtain ⟨hl, hk, ht, he⟩ := fork_linked (hs.linked h) "true" "out" B.truth.val
  rw [← createNumbered_newBlock _ "true"] at hl hk ht he
  refine ⟨(hl.at_block ht).of_same rfl rfl, (hs.keepsReach.trans hk).of_fn rfl, ?_⟩
  rw [← hnew, ← createNumbered_newBlock _ "true"]
  exact he

/-- The block behind both branches waits for one of them. -/
theorem openSelectionElse_linked (h : Linked P B) :
    Linked (insert (B.newBlock + 2) P) B.openSelectionElse ∧ KeepsReach B B.openSelectionElse ∧
      B.openSelectionElse.fn.toCfg.Reach B.newBlock ∧
      B.openSelectionElse.fn.toCfg.Reach (B.newBlock + 1) := by
  unfold openSelectionElse
  dsimp only
  have hs := truth_straight B
  have hnew : B.truth.newBlock = B.newBlock := truth_length B
  have h' := (((hs.linked h).createNumbered "true").createNumbered "false").createNumbered "out"
  simp only [createNumbered_newBlock] at h'
  have hlen : (((B.truth.createNumbered "true").createNumbered "false").createNumbered
      "out").fn.blocks.length = B.truth.newBlock + 1 + 1 + 1 := by simp
  have hlt : B.truth.newBlock + 1 < (((B.truth.createNumbered "true").createNumbered
      "false").createNumbered "out").fn.blocks.length := by
    rw [hlen]
    exact Nat.lt_succ_of_lt (Nat.lt_succ_self _)
  obtain ⟨hl, ht, he⟩ := h'.condBr B.truth.val (Nat.lt_of_succ_lt hlt) hlt B.truth.newBlock_pos
    (Nat.lt_succ_self _)
  have hkeep : KeepsReach B (((B.truth.createNumbered "true").createNumbered "false").createNumbered
      "out") := hs.keepsReach.trans fun _ hc => hc
  have hne : B.truth.newBlock ≠ B.truth.newBlock + 1 := Nat.ne_of_lt (Nat.lt_succ_self _)
  have hk := hkeep.trans (createCondBr_reach _ B.truth.val hne)
  have hsettled := hl.settle (P := insert (B.truth.newBlock + 2) P) (by
    rintro b (rfl | rfl | rfl | hb)
    · exact .inl (.inl rfl)
    · exact .inr he
    · exact .inr ht
    · exact .inl (.inr hb))
  rw [← hnew, createNumbered_newBlock]
  simp only [createNumbered_val, setInsertPoint_fn, setInBranch_fn]
  exact ⟨(hsettled.at_block ht).of_same rfl rfl, hk.of_fn rfl, ht, he⟩

/-- The body and the block behind the loop wait for the condition. -/
theorem openIteration_linked (h : Linked P B) :
    Linked (insert (B.newBlock + 2) (insert (B.newBlock + 1) P)) B.openIteration ∧
      KeepsReach B B.openIteration ∧ B.openIteration.fn.toCfg.Reach B.newBlock := by
  have h' := ((h.createNumbered "predicate").createNumbered "body").createNumbered "out"
  simp only [createNumbered_newBlock] at h'
  have hlen : (((B.createNumbered "predicate").createNumbered "body").createNumbered
      "out").fn.blocks.length = B.newBlock + 1 + 1 + 1 := by simp
  obtain ⟨hl, hr⟩ := h'.br (t := B.newBlock) (by
    rw [hlen]
    exact Nat.lt_succ_of_lt (Nat.lt_succ_of_lt (Nat.lt_succ_self _))) B.newBlock_pos
  have hkeep : KeepsReach B (((B.createNumbered "predicate").createNumbered "body").createNumbered
      "out") := fun _ hc => hc
  have hsettled := hl.settle (P := insert (B.newBlock + 2) (insert (B.newBlock + 1) P)) (by
    rintro b (rfl | rfl | rfl | hb)
    · exact .inl (.inl rfl)
    · exact .inl (.inr (.inl rfl))
    · exact .inr hr
    · exact .inl (.inr (.inr hb)))
  exact ⟨hsettled.at_block hr, (hkeep.trans (createBr_reach _ B.newBlock)).of_fn rfl, hr⟩

theorem enterBody_linked (body out : BlockId) (h : Linked (insert out (insert body P)) B)
    (hbody : 0 < body) (hlt : body < out) (hout : out < B.fn.blocks.length) :
    Linked P (B.enterBody body out) ∧ KeepsReach B (B.enterBody body out) ∧
      (B.enterBody body out).fn.toCfg.Reach out := by
  have hs := truth_straight B
  rw [← truth_length B] at hout
  obtain ⟨hl, ht, he⟩ := (hs.linked h).condBr B.truth.val (Nat.lt_trans hlt hout) hout hbody hlt
  have hsettled := hl.settle (P := P) (by
    rintro b (rfl | rfl | hb)
    · exact .inr he
    · exact .inr ht
    · exact .inl hb)
  exact ⟨(hsettled.at_block ht).of_same rfl rfl,
    (hs.keepsReach.trans (createCondBr_reach _ _ (Nat.ne_of_lt hlt))).of_fn rfl, he⟩

/-- The common exit of two branches that return: nothing reaches it before. -/
theorem joinReturns_linked {f out : BlockId} (h : B.joinReturns t f out = .ok B') (hw : Wf B)
    (hj : Joined (insert out P) B.fn.toCfg) (ht : B.fn.toCfg.Reach t) (hf : B.fn.toCfg.Reach f)
    (hout : out < B.fn.blocks.length) (hpos : 0 < out) : Linked P B' ∧ KeepsReach B B' := by
  obtain ⟨B₁, h₁, h⟩ := bind_ok.mp h
  cases h
  have hs := returnStored_straight h₁
  have hlen : out < B₁.fn.blocks.length := by
    rw [Cfg.blocks, hs.toCfg]
    exact hout
  have hopen : Linked (insert out P) (B₁.setInsertPoint t) :=
    .start (hs.grows hw).1 (hs.toCfg ▸ hj) (hs.keepsReach t ht)
  obtain ⟨h₂, -⟩ := hopen.br hlen hpos
  have hk₂ : KeepsReach B ((B₁.setInsertPoint t).createBr out) :=
    (hs.keepsReach.of_fn rfl).trans (createBr_reach (B₁.setInsertPoint t) out)
  have hlen₂ : out < ((B₁.setInsertPoint t).createBr out).fn.blocks.length := by
    rw [createBr_length]
    exact hlen
  obtain ⟨h₃, hr₃⟩ := (h₂.at_block (hk₂ f hf)).br hlen₂ hpos
  have hk₃ := (hk₂.of_fn rfl).trans
    (createBr_reach (((B₁.setInsertPoint t).createBr out).setInsertPoint f) out)
  have hsettled := h₃.settle (P := P) (by
    rintro b (rfl | hb)
    · exact .inr hr₃
    · exact .inl hb)
  exact ⟨hsettled.at_block hr₃, hk₃.of_fn rfl⟩

theorem leaveBranch_returnInBranch (B : Builder) (out : BlockId) :
    (B.leaveBranch out).returnInBranch = B.returnInBranch := by
  unfold leaveBranch
  split_ifs <;> rfl

end Builder

open Builder

/-- **A visit keeps the graph linked**, whatever waits for an edge meanwhile. -/
theorem visit_connects {k : Kind} (a : Ast k) : ∀ B B', visit a B = .ok B' → Connects B B' := by
  induction a with
  | intNum i | floatNum x =>
    intro B B' h
    cases h
    exact Connects.of_same rfl rfl
  | group e ih | var v ih | simple l ih | term t ih | factor f ih | expressionStmt e ih => exact ih
  | noArgs | emptyStmt | noStmts =>
    intro B B' h
    cases h
    exact Connects.refl B
  | relation l op r ihl ihr =>
    intro B B' h
    obtain ⟨B₁, h₁, h⟩ := bind_ok.mp h
    obtain ⟨B₂, h₂, h₃⟩ := bind_ok.mp h
    exact ((ihl B B₁ h₁).trans (ihr B₁ B₂ h₂)).trans (binary_straight h₃).connects
  | additive l op t ihl iht =>
    intro B B' h
    obtain ⟨B₁, h₁, h⟩ := bind_ok.mp h
    obtain ⟨B₂, h₂, h₃⟩ := bind_ok.mp h
    exact ((ihl B B₁ h₁).trans (iht B₁ B₂ h₂)).trans (binary_straight h₃).connects
  | multiplicative l op f ihl ihf =>
    intro B B' h
    obtain ⟨B₁, h₁, h⟩ := bind_ok.mp h
    obtain ⟨B₂, h₂, h₃⟩ := bind_ok.mp h
    exact ((ihl B B₁ h₁).trans (ihf B₁ B₂ h₂)).trans (binary_straight h₃).connects
  | ident id =>
    intro B B' h
    unfold visit at h
    split at h
    · cases h
    · exact (finishVar_straight h).connects
  | element id e ih =>
    intro B B' h
    obtain ⟨B₁, h₁, h₂⟩ := bind_ok.mp h
    have hflag : Connects B (B.setAddressOnly false) := .of_same rfl rfl
    have hback : Connects B₁ (B₁.setAddressOnly B.addressOnly) := .of_same rfl rfl
    exact ((hflag.trans (ih _ B₁ h₁)).trans hback).trans (subscript_connects h₂)
  | assign v e ihv ihe =>
    intro B B' h
    obtain ⟨B₁, h₁, h⟩ := bind_ok.mp h
    obtain ⟨B₂, h₂, h₃⟩ := bind_ok.mp h
    have hflag : Connects B₁ (B₁.setAddressOnly true) := .of_same rfl rfl
    exact (((ihe B B₁ h₁).trans hflag).trans (ihv _ B₂ h₂)).trans (assignTo_straight h₃).connects
  | call id args ih =>
    intro B B' h
    obtain ⟨⟨n, t⟩, -, h⟩ := bind_ok.mp h
    obtain ⟨B₁, h₁, h⟩ := bind_ok.mp h
    obtain ⟨B₂, h₂, h⟩ := bind_ok.mp h
    cases h
    have hframe : Connects B (B.setFrame ⟨t.params, []⟩) := .of_same rfl rfl
    exact ((hframe.trans (ih _ B₁ h₁)).trans (createCall_straight h₂).connects).same rfl rfl
  | arg e rest ihe ihrest =>
    intro B B' h
    obtain ⟨t, -, h⟩ := bind_ok.mp h
    obtain ⟨B₁, h₁, h⟩ := bind_ok.mp h
    obtain ⟨B₂, h₂, h₃⟩ := bind_ok.mp h
    have hflag : Connects B (B.setAddressOnly t.isPointer) := .of_same rfl rfl
    exact ((hflag.trans (ihe _ B₁ h₁)).trans (pushArg_straight h₂).connects).trans
      (ihrest B₂ B' h₃)
  | compoundStmt ds ss ih =>
    intro B B' h
    obtain ⟨B₁, h₁, h⟩ := bind_ok.mp h
    obtain ⟨B₂, h₂, h⟩ := bind_ok.mp h
    cases h
    have hscope : Connects B B.enterScope := .of_same rfl rfl
    have hds := foldlM_straight (fun _ _ _ => visitVarDeclaration_straight) ds _ B₁ h₁
    exact ((hscope.trans hds.connects).trans (ih B₁ B₂ h₂)).same rfl rfl
  | stmt s rest ihs ihrest =>
    intro B B' h
    obtain ⟨B₁, h₁, h₂⟩ := bind_ok.mp h
    exact (ihs B B₁ h₁).trans (ihrest B₁ B' h₂)
  | returnVoidStmt => exact fun B B' h => finishReturn_connects h
  | returnStmt e ih =>
    intro B B' h
    obtain ⟨B₁, h₁, h₂⟩ := bind_ok.mp h
    exact (ih B B₁ h₁).trans (finishReturn_connects h₂)
  | selectionStmt e s ihe ihs =>
    intro B B' h P hP
    obtain ⟨B₁, h₁, h⟩ := bind_ok.mp h
    obtain ⟨B₂, h₂, h⟩ := bind_ok.mp h
    cases h
    obtain ⟨hP₁, hk₁⟩ := ihe B B₁ h₁ P hP
    obtain ⟨hPo, hko, hout⟩ := openSelection_linked hP₁
    obtain ⟨hP₂, hk₂⟩ := ihs _ B₂ h₂ P hPo
    have hreach := hk₂ _ hout
    obtain ⟨hP₃, hk₃, -⟩ := leaveBranch_linked hP₂
      (hP₂.mem_iff.mp (hP₂.joined.reach_mem hreach)) (Nat.succ_pos _)
    exact ⟨(hP₃.at_block (hk₃ _ hreach)).of_same rfl rfl,
      (((hk₁.trans hko).trans hk₂).trans hk₃).of_fn rfl⟩
  | selectionElseStmt e s t ihe ihs iht =>
    intro B B' h P hP
    obtain ⟨B₁, h₁, h⟩ := bind_ok.mp h
    obtain ⟨B₂, h₂, h⟩ := bind_ok.mp h
    obtain ⟨B₃, h₃, h⟩ := bind_ok.mp h
    obtain ⟨hP₁, hk₁⟩ := ihe B B₁ h₁ P hP
    obtain ⟨hPo, hko, hto, hfo⟩ := openSelectionElse_linked hP₁
    obtain ⟨hP₂, hk₂⟩ := ihs _ B₂ h₂ _ hPo
    -- the first branch
    have hlen₂ : B₁.newBlock + 2 < B₂.fn.blocks.length := by
      have hlen := (visit_grows s _ B₂ h₂ hPo.wf).2.blocks
      rw [openSelectionElse_length] at hlen
      exact Nat.lt_of_succ_le hlen
    obtain ⟨hPt, hkt, hrt⟩ := leaveBranch_linked hP₂ hlen₂ (Nat.succ_pos _)
    have hother : Linked (insert (B₁.newBlock + 2) P)
        (((B₂.leaveBranch (B₁.newBlock + 2)).setInsertPoint (B₁.newBlock + 1)).setReturnInBranch
          false) := (hPt.at_block (hkt _ (hk₂ _ hfo))).of_same rfl rfl
    -- the second one
    obtain ⟨hP₃, hk₃⟩ := iht _ B₃ h₃ _ hother
    have hlen₃ : B₁.newBlock + 2 < B₃.fn.blocks.length := by
      have hlen := (visit_grows t _ B₃ h₃ hother.wf).2.blocks
      rw [setReturnInBranch_fn, setInsertPoint_fn, leaveBranch_length] at hlen
      exact Nat.lt_of_lt_of_le hlen₂ hlen
    obtain ⟨hPe, hke, hre⟩ := leaveBranch_linked hP₃ hlen₃ (Nat.succ_pos _)
    have hlater : KeepsReach (B₂.leaveBranch (B₁.newBlock + 2)) (B₃.leaveBranch (B₁.newBlock + 2)) :=
      KeepsReach.trans (fun _ hc => hk₃ _ hc) hke
    have hopened := (hk₂.trans hkt).trans hlater
    have hall := (hk₁.trans hko).trans hopened
    dsimp only at h
    split_ifs at h with hboth
    · have hlen : B₁.newBlock + 2 < (B₃.leaveBranch (B₁.newBlock + 2)).fn.blocks.length := by
        rw [leaveBranch_length]
        exact hlen₃
      obtain ⟨hjoin, hk⟩ := joinReturns_linked h ⟨hPe.wf.blocks, hlen, hPe.wf.body, hPe.wf.fresh⟩
        hPe.joined (hopened _ hto) (hopened _ hfo) hlen (Nat.succ_pos _)
      exact ⟨hjoin, hall.trans hk⟩
    · cases h
      have hout : (B₃.leaveBranch (B₁.newBlock + 2)).fn.toCfg.Reach (B₁.newBlock + 2) := by
        rw [leaveBranch_returnInBranch, leaveBranch_returnInBranch, Bool.and_eq_true, not_and_or,
          Bool.not_eq_true, Bool.not_eq_true] at hboth
        rcases hboth with hret | hret
        · exact hlater _ (hrt hret)
        · exact hre hret
      have hsettled := hPe.settle (P := P) (by
        rintro b (rfl | hb)
        · exact .inr hout
        · exact .inl hb)
      exact ⟨(hsettled.at_block hout).of_same rfl rfl, hall.of_fn rfl⟩
  | iterationStmt e s ihe ihs =>
    intro B B' h P hP
    obtain ⟨B₁, h₁, h⟩ := bind_ok.mp h
    obtain ⟨B₂, h₂, h⟩ := bind_ok.mp h
    cases h
    obtain ⟨hPo, hko, hpred⟩ := openIteration_linked hP
    obtain ⟨hP₁, hk₁⟩ := ihe _ B₁ h₁ _ hPo
    have hlen₁ : B.newBlock + 2 < B₁.fn.blocks.length := by
      have hlen := (visit_grows e _ B₁ h₁ hPo.wf).2.blocks
      rw [openIteration_length] at hlen
      exact Nat.lt_of_succ_le hlen
    obtain ⟨hPb, hkb, hout⟩ := enterBody_linked (B.newBlock + 1) (B.newBlock + 2) hP₁
      (Nat.succ_pos _) (Nat.lt_succ_self _) hlen₁
    obtain ⟨hP₂, hk₂⟩ := ihs _ B₂ h₂ P hPb
    have hpred₂ := hk₂ _ (hkb _ (hk₁ _ hpred))
    have hout₂ := hk₂ _ hout
    have hbranch : Linked P (B₂.setInBranch false) := hP₂.of_same rfl rfl
    obtain ⟨hP₃, hk₃, -⟩ := leaveBranch_linked hbranch
      (hP₂.mem_iff.mp (hP₂.joined.reach_mem hpred₂)) B.newBlock_pos
    exact ⟨hP₃.at_block (hk₃ _ hout₂),
      ((((hko.trans hk₁).trans hkb).trans hk₂).trans hk₃).of_fn rfl⟩

/-! ## The functions in front -/

namespace Builder

@[simp] theorem setInsertPoint_functions (B : Builder) (b : BlockId) :
    (B.setInsertPoint b).functions = B.functions := rfl

@[simp] theorem setInBranch_functions (B : Builder) (b : Bool) :
    (B.setInBranch b).functions = B.functions := rfl

@[simp] theorem setVal_functions (B : Builder) (v : Value) :
    (B.setVal v).functions = B.functions := rfl

@[simp] theorem createStore_functions (B : Builder) (v ptr : Value) :
    (B.createStore v ptr).functions = B.functions := rfl

@[simp] theorem create_functions (B : Builder) (op : OpID) (ty : Ty) (l : List Value) (c : CmpOp) :
    (B.create op ty l c).functions = B.functions := rfl

@[simp] theorem createBr_functions (B : Builder) (t : BlockId) :
    (B.createBr t).functions = B.functions := rfl

@[simp] theorem createCondBr_functions (B : Builder) (v : Value) (t e : BlockId) :
    (B.createCondBr v t e).functions = B.functions := rfl

@[simp] theorem createNumbered_functions (B : Builder) (kind : String) :
    (B.createNumbered kind).functions = B.functions := rfl

theorem createLoad_functions {ptr : Value} (h : B.createLoad ptr = .ok B') :
    B'.functions = B.functions := by
  obtain ⟨t, -, rfl⟩ := createLoad_ok h
  rfl

theorem createGep_functions {ptr : Value} {idxs : List Value} (h : B.createGep ptr idxs = .ok B') :
    B'.functions = B.functions := by
  obtain ⟨e, t, -, -, rfl⟩ := createGep_ok h
  rfl

theorem convert_functions {n : Value} {ty : Ty} (h : B.convert n ty = .ok B') :
    B'.functions = B.functions := by
  rcases convert_ok h with ⟨rfl, -⟩ | ⟨op, rfl, -⟩ | ⟨e, -, -, h | h⟩
  · rfl
  · rfl
  · exact createGep_functions h
  · exact createLoad_functions h

theorem binary_functions {intOp floatOp : OpID} {intTy floatTy : Ty} {c : CmpOp} {lhs rhs : Value}
    (h : B.binary intOp floatOp intTy floatTy c lhs rhs = .ok B') :
    B'.functions = B.functions := by
  unfold binary at h
  split_ifs at h
  all_goals
    obtain ⟨B₁, h₁, h⟩ := bind_ok.mp h
    obtain ⟨B₂, h₂, h⟩ := bind_ok.mp h
    cases h
    exact (convert_functions h₂).trans (convert_functions h₁)

theorem truth_functions (B : Builder) : B.truth.functions = B.functions := by
  unfold truth
  dsimp only
  split_ifs <;> rfl

theorem finishVar_functions {ptr : Value} (h : B.finishVar ptr = .ok B') :
    B'.functions = B.functions := by
  unfold finishVar at h
  split_ifs at h
  · cases h
    rfl
  · exact createLoad_functions h

theorem elementAddress_functions {ptr : Option Value} {offset : Value}
    (h : B.elementAddress ptr offset = .ok B') : B'.functions = B.functions := by
  unfold elementAddress at h
  split at h
  · cases h
  · split at h
    · exact createGep_functions h
    · obtain ⟨B₁, h₁, h₂⟩ := bind_ok.mp h
      exact (createGep_functions h₂).trans (createLoad_functions h₁)
    · cases h
      rfl
    · cases h

theorem subscript_functions {ptr : Option Value} (h : B.subscript ptr = .ok B') :
    B'.functions = B.functions := by
  obtain ⟨B₁, h₁, h⟩ := bind_ok.mp h
  obtain ⟨B₂, h₂, h⟩ := bind_ok.mp h
  obtain ⟨B₃, h₃, h₄⟩ := bind_ok.mp h
  have hcheck : B₂.functions = B₁.functions := by
    obtain ⟨n, ret, rfl⟩ := callExcept_ok h₂
    simp only [setInsertPoint_functions, createBr_functions, create_functions, compareIndex,
      createCondBr_functions, createNumbered_functions]
  rw [finishVar_functions h₄, elementAddress_functions h₃, hcheck, convert_functions h₁]

theorem assignTo_functions {rhs : Value} (h : B.assignTo rhs = .ok B') :
    B'.functions = B.functions := by
  unfold assignTo at h
  split at h
  · cases h
  · obtain ⟨B₁, h₁, h⟩ := bind_ok.mp h
    cases h
    change B₁.functions = B.functions
    exact convert_functions h₁

theorem visitVarDeclaration_functions {d : VarDeclaration} (h : B.visitVarDeclaration d = .ok B') :
    B'.functions = B.functions := by
  obtain ⟨t, -, h⟩ := bind_ok.mp h
  dsimp only at h
  split at h
  · cases h
    split_ifs <;> rfl
  · cases h

theorem foldlM_functions {α : Type} {step : Builder → α → Except Fault Builder}
    (hstep : ∀ B B' a, step B a = .ok B' → B'.functions = B.functions) (l : List α) :
    ∀ B B', l.foldlM step B = .ok B' → B'.functions = B.functions := by
  induction l with
  | nil =>
    intro B B' h
    cases h
    rfl
  | cons a l ih =>
    intro B B' h
    rw [List.foldlM_cons] at h
    obtain ⟨B₁, h₁, h₂⟩ := bind_ok.mp h
    exact (ih B₁ B' h₂).trans (hstep B B₁ a h₁)

theorem enterReturnBlock_functions (B : Builder) : B.enterReturnBlock.functions = B.functions := by
  have hclose : ∀ (l : List BlockId) (returnBB : BlockId) (B : Builder),
      (l.foldl (fun B bb => B.closeBlock returnBB bb) B).functions = B.functions := by
    intro l returnBB
    induction l with
    | nil => exact fun _ => rfl
    | cons b l ih =>
      intro B
      rw [List.foldl_cons, ih]
      unfold closeBlock
      split_ifs <;> rfl
  unfold enterReturnBlock
  split_ifs
  · exact hclose _ _ _
  · rfl

theorem finishReturn_functions {value : Bool} (h : B.finishReturn value = .ok B') :
    B'.functions = B.functions := by
  unfold finishReturn at h
  split_ifs at h
  · split at h
    · cases h
    · obtain ⟨B₁, h₁, h⟩ := bind_ok.mp h
      dsimp only at h
      split_ifs at h
      · cases h
        change B₁.functions = B.functions
        exact convert_functions h₁
      · obtain ⟨B₂, h₂, h⟩ := bind_ok.mp h
        cases h
        change B₂.functions = B.functions
        rw [createLoad_functions h₂, enterReturnBlock_functions]
        change B₁.functions = B.functions
        exact convert_functions h₁
  · cases h
    rfl
  · cases h
    exact enterReturnBlock_functions B

theorem leaveBranch_functions (B : Builder) (out : BlockId) :
    (B.leaveBranch out).functions = B.functions := by
  unfold leaveBranch
  split_ifs <;> rfl

theorem openSelection_functions (B : Builder) : B.openSelection.functions = B.functions := by
  simp [openSelection, truth_functions]

theorem openSelectionElse_functions (B : Builder) :
    B.openSelectionElse.functions = B.functions := by
  simp [openSelectionElse, truth_functions]

theorem openIteration_functions (B : Builder) : B.openIteration.functions = B.functions := by
  simp [openIteration]

theorem enterBody_functions (B : Builder) (body out : BlockId) :
    (B.enterBody body out).functions = B.functions := by
  simp [enterBody, truth_functions]

theorem joinReturns_functions {f out : BlockId} (h : B.joinReturns t f out = .ok B') :
    B'.functions = B.functions := by
  obtain ⟨B₁, h₁, h⟩ := bind_ok.mp h
  cases h
  show B₁.functions = B.functions
  unfold returnStored at h₁
  split_ifs at h₁
  · split at h₁
    · cases h₁
    · obtain ⟨B₂, h₂, h₁⟩ := bind_ok.mp h₁
      cases h₁
      change B₂.functions = B.functions
      exact createLoad_functions h₂
  · cases h₁
    rfl

end Builder

/-- A visit leaves the functions in front alone. -/
theorem visit_functions {k : Kind} (a : Ast k) :
    ∀ B B', visit a B = .ok B' → B'.functions = B.functions := by
  induction a with
  | intNum i | floatNum x =>
    intro B B' h
    cases h
    rfl
  | group e ih | var v ih | simple l ih | term t ih | factor f ih | expressionStmt e ih => exact ih
  | noArgs | emptyStmt | noStmts =>
    intro B B' h
    cases h
    rfl
  | relation l op r ihl ihr =>
    intro B B' h
    obtain ⟨B₁, h₁, h⟩ := bind_ok.mp h
    obtain ⟨B₂, h₂, h₃⟩ := bind_ok.mp h
    exact (binary_functions h₃).trans ((ihr B₁ B₂ h₂).trans (ihl B B₁ h₁))
  | additive l op t ihl iht =>
    intro B B' h
    obtain ⟨B₁, h₁, h⟩ := bind_ok.mp h
    obtain ⟨B₂, h₂, h₃⟩ := bind_ok.mp h
    exact (binary_functions h₃).trans ((iht B₁ B₂ h₂).trans (ihl B B₁ h₁))
  | multiplicative l op f ihl ihf =>
    intro B B' h
    obtain ⟨B₁, h₁, h⟩ := bind_ok.mp h
    obtain ⟨B₂, h₂, h₃⟩ := bind_ok.mp h
    exact (binary_functions h₃).trans ((ihf B₁ B₂ h₂).trans (ihl B B₁ h₁))
  | ident id =>
    intro B B' h
    unfold visit at h
    split at h
    · cases h
    · exact finishVar_functions h
  | element id e ih =>
    intro B B' h
    obtain ⟨B₁, h₁, h₂⟩ := bind_ok.mp h
    have he := ih _ B₁ h₁
    exact (subscript_functions h₂).trans he
  | assign v e ihv ihe =>
    intro B B' h
    obtain ⟨B₁, h₁, h⟩ := bind_ok.mp h
    obtain ⟨B₂, h₂, h₃⟩ := bind_ok.mp h
    have hv := ihv _ B₂ h₂
    have he := ihe B B₁ h₁
    exact ((assignTo_functions h₃).trans hv).trans he
  | call id args ih =>
    intro B B' h
    obtain ⟨⟨n, t⟩, -, h⟩ := bind_ok.mp h
    obtain ⟨B₁, h₁, h⟩ := bind_ok.mp h
    obtain ⟨B₂, h₂, h⟩ := bind_ok.mp h
    cases h
    unfold createCall at h₂
    split_ifs at h₂
    cases h₂
    have hargs := ih _ B₁ h₁
    exact hargs
  | arg e rest ihe ihrest =>
    intro B B' h
    obtain ⟨t, -, h⟩ := bind_ok.mp h
    obtain ⟨B₁, h₁, h⟩ := bind_ok.mp h
    obtain ⟨B₂, h₂, h₃⟩ := bind_ok.mp h
    have hpush : B₂.functions = B₁.functions := by
      obtain ⟨B₃, hconv, h₂⟩ := bind_ok.mp h₂
      cases h₂
      have := convert_functions hconv
      exact this
    have he := ihe _ B₁ h₁
    exact (ihrest B₂ B' h₃).trans (hpush.trans he)
  | compoundStmt ds ss ih =>
    intro B B' h
    obtain ⟨B₁, h₁, h⟩ := bind_ok.mp h
    obtain ⟨B₂, h₂, h⟩ := bind_ok.mp h
    cases h
    have hds := foldlM_functions (fun _ _ _ => visitVarDeclaration_functions) ds _ B₁ h₁
    change B₂.functions = B.functions
    exact (ih B₁ B₂ h₂).trans hds
  | stmt s rest ihs ihrest =>
    intro B B' h
    obtain ⟨B₁, h₁, h₂⟩ := bind_ok.mp h
    exact (ihrest B₁ B' h₂).trans (ihs B B₁ h₁)
  | returnVoidStmt => exact fun B B' h => finishReturn_functions h
  | returnStmt e ih =>
    intro B B' h
    obtain ⟨B₁, h₁, h₂⟩ := bind_ok.mp h
    exact (finishReturn_functions h₂).trans (ih B B₁ h₁)
  | selectionStmt e s ihe ihs =>
    intro B B' h
    obtain ⟨B₁, h₁, h⟩ := bind_ok.mp h
    obtain ⟨B₂, h₂, h⟩ := bind_ok.mp h
    cases h
    change (B₂.leaveBranch _).functions = B.functions
    rw [leaveBranch_functions, ihs _ B₂ h₂, openSelection_functions, ihe B B₁ h₁]
  | selectionElseStmt e s t ihe ihs iht =>
    intro B B' h
    obtain ⟨B₁, h₁, h⟩ := bind_ok.mp h
    obtain ⟨B₂, h₂, h⟩ := bind_ok.mp h
    obtain ⟨B₃, h₃, h⟩ := bind_ok.mp h
    have hs : (B₂.leaveBranch (B₁.newBlock + 2)).functions = B.functions := by
      rw [leaveBranch_functions, ihs _ B₂ h₂, openSelectionElse_functions, ihe B B₁ h₁]
    have ht := iht _ B₃ h₃
    have hall := (leaveBranch_functions B₃ (B₁.newBlock + 2)).trans (ht.trans hs)
    dsimp only at h
    split_ifs at h
    · have hjoin := joinReturns_functions h
      exact hjoin.trans hall
    · cases h
      exact hall
  | iterationStmt e s ihe ihs =>
    intro B B' h
    obtain ⟨B₁, h₁, h⟩ := bind_ok.mp h
    obtain ⟨B₂, h₂, h⟩ := bind_ok.mp h
    cases h
    rw [setInsertPoint_functions, leaveBranch_functions, setInBranch_functions, ihs _ B₂ h₂,
      enterBody_functions, ihe _ B₁ h₁, openIteration_functions]

/-! ## Programs -/

theorem newFunc_linked {name : String} {t : FunctionType} (hfn : B.fn = newFunc name t)
    (hbb : B.bb = 0) : Linked ∅ B := by
  refine ⟨newFunc_wf hfn hbb, ?_, ?_⟩
  · rw [hfn]
    refine ⟨fun _ _ => rfl, rfl, fun a b hb => ?_, fun b hb => Or.inr ?_⟩
    · cases hb
    · obtain rfl := List.mem_singleton.mp hb
      exact Dominance.Reachable.refl
  · rw [hfn, hbb]
    exact Dominance.Reachable.refl

/-- The functions so far are joined. -/
def AllJoined (B : Builder) : Prop := ∀ f ∈ B.functions ++ [B.fn], Joined ∅ f.toCfg

theorem visitParam_functions {p : Param × Nat} (h : visitParam B p = .ok B') :
    B'.functions = B.functions := by
  unfold visitParam at h
  dsimp only at h
  split at h
  · cases h
    simp only [setVal_functions, createStore_functions]
    exact create_functions _ _ _ _ _
  · cases h

theorem enterFunction_ok {d : FunDeclaration} (h : enterFunction d B = .ok B') :
    B'.fn = newFunc d.id d.functionType ∧ B'.bb = 0 ∧ B'.functions = B.functions ++ [B.fn] := by
  unfold enterFunction at h
  dsimp only at h
  split at h
  · split_ifs at h
    cases h
    exact ⟨rfl, rfl, rfl⟩
  · cases h

theorem visitFunDeclaration_linked {d : FunDeclaration} (h : visitFunDeclaration d B = .ok B') :
    Linked ∅ B' ∧ B'.functions = B.functions ++ [B.fn] := by
  obtain ⟨B₁, h₁, h⟩ := bind_ok.mp h
  obtain ⟨B₂, h₂, h⟩ := bind_ok.mp h
  obtain ⟨B₃, h₃, h⟩ := bind_ok.mp h
  obtain ⟨hfn, hbb, hfs⟩ := enterFunction_ok h₁
  have hparams := foldlM_straight (fun _ _ _ => visitParam_straight) _ B₁ B₂ h₂
  have hfs₂ := foldlM_functions (fun _ _ _ => visitParam_functions) _ B₁ B₂ h₂
  have hreset : Straight B₁ { B₂ with bbCounter := 0, returnType := d.type } :=
    hparams.same rfl rfl
  have hopen : Straight B₁
      (if d.type ≠ .void then
        let B := ({ B₂ with bbCounter := 0, returnType := d.type } : Builder).createAlloca d.type.type
        { B with scope := (B.scope.push "" B.val).getD B.scope }
      else { B₂ with bbCounter := 0, returnType := d.type }) := by
    split_ifs
    · exact (hreset.trans (create_straight _ .alloca (.pointer d.type.type) [] .EQ)).same rfl rfl
    · exact hreset
  have hfs₃ := visit_functions _ _ B₃ h₃
  have hbody := visit_connects _ _ B₃ h₃
  have hfs₁ : B₃.functions = B₁.functions := by
    rw [hfs₃, ← hfs₂]
    split_ifs <;> rfl
  have hend : Connects B₃ B' ∧ B'.functions = B₃.functions := by
    split_ifs at h
    · cases h
      exact ⟨Connects.refl _, rfl⟩
    · exact ⟨visit_connects .returnVoidStmt B₃ B' h, visit_functions .returnVoidStmt B₃ B' h⟩
  exact ⟨((hopen.connects.trans (hbody.trans hend.1)) ∅ (newFunc_linked hfn hbb)).1,
    hend.2.trans (hfs₁.trans hfs)⟩

/-- **Every function of a program is joined.** -/
theorem visitProgram_joined (ds : List Declaration) : ∀ {B B' : Builder}, Linked ∅ B →
    AllJoined B → visitProgram ds B = .ok B' → AllJoined B' := by
  induction ds with
  | nil =>
    intro B B' _ hB h
    cases h
    exact hB
  | cons d ds ih =>
    intro B B' hl hB h
    simp only [visitProgram, List.foldlM_cons] at h
    obtain ⟨B₁, h₁, h₂⟩ := bind_ok.mp h
    cases d with
    | var d =>
      have hs := visitVarDeclaration_straight h₁
      refine ih (hs.linked hl) ?_ h₂
      intro f hf
      rw [visitVarDeclaration_functions h₁] at hf
      rcases List.mem_append.mp hf with hf | hf
      · exact hB f (List.mem_append_left _ hf)
      · obtain rfl := List.mem_singleton.mp hf
        exact (hs.linked hl).joined
    | fn d =>
      obtain ⟨hl₁, hfs⟩ := visitFunDeclaration_linked h₁
      refine ih hl₁ ?_ h₂
      intro f hf
      rw [hfs] at hf
      rcases List.mem_append.mp hf with hf | hf
      · exact hB f hf
      · obtain rfl := List.mem_singleton.mp hf
        exact hl₁.joined

/-- **The graphs the builder leaves**: for every function of every program it accepts, the lists are
inverse, nothing precedes the entry and every block is reachable. On such a graph no assertion of
`create_idom` fails, and every runner has an immediate dominator. -/
theorem connected {ds : List Declaration} (h : visitProgram ds freshBuilder = .ok B) :
    ∀ f ∈ B.functions ++ [B.fn],
      (∀ a b, (f.succ a).count b = (f.pre b).count a) ∧ f.pre f.entry = [] ∧
      (∀ b ∈ f.blocks, f.Reach b) ∧
      ∀ old fuel, enoughFuel f.toCfg ≤ fuel →
        ∃ num idom df, createReversePostOrder f.toCfg fuel = .ok num ∧
          createIdom f.toCfg num fuel old = .ok idom ∧
          createDominanceFrontier f.toCfg idom fuel = .ok df ∧
          (∀ b ∈ f.blocks, (idom b).isSome) ∧
          ∀ b ∈ f.blocks, ∀ p ∈ f.pre b, ∀ runner, Up idom p runner → (idom runner).isSome := by
  have hl := newFunc_linked (B := freshBuilder) rfl rfl
  have hB : AllJoined freshBuilder := by
    intro f hf
    obtain rfl := List.mem_singleton.mp hf
    exact hl.joined
  intro f hf
  have hj := visitProgram_joined ds hl hB h f hf
  have hreach : ∀ b ∈ f.blocks, f.Reach b := fun b hb => (hj.reach b hb).resolve_left id
  refine ⟨hj.inverse, hj.entry, hreach, fun old fuel hfuel => ?_⟩
  obtain ⟨num, idom, hnum, hidom, hN, hI, hst⟩ := createIdom_spec hj.flowGraph old hfuel
  have htop : num.2 f.entry < fuel := by
    have hbound := hN.bound f.entry Dominance.Reachable.refl
    unfold enoughFuel at hfuel
    have hlen : hj.flowGraph.blocks.length = f.blocks.length := rfl
    omega
  obtain ⟨df, hdf, -⟩ := createDominanceFrontier_spec hN hI hst hreach htop
  have hsome : ∀ b ∈ f.blocks, (idom b).isSome := fun b hb => hI.isSome_of_reach hN (hreach b hb)
  refine ⟨num, idom, df, hnum, hidom, hdf, hsome, fun b hb p hp runner hup => ?_⟩
  have hpf := hj.flowGraph.pre_closed b hb p hp
  exact hI.toTree.isSome_up (hreach p hpf) (hsome p hpf) hup

/-- The expression that is the constant `i`. -/
def constant (i : BitVec 32) : Ast .expression := .simple (.term (.factor (.intNum i)))

/-- `int main(void) { if (1) return 1; else return 2; while (3) ; return 4; }`: the loop is dead. -/
def deadLoop : List Declaration :=
  [.fn ⟨.int, "main", [], [], .stmt (.selectionElseStmt (constant 1) (.returnStmt (constant 1))
    (.returnStmt (constant 2))) (.stmt (.iterationStmt (constant 3) .emptyStmt)
    (.stmt (.returnStmt (constant 4)) .noStmts))⟩]

theorem connected_deadLoop : ∃ B, visitProgram deadLoop freshBuilder = .ok B ∧
    B.fn.blocks.length = 8 ∧ ∀ b ∈ B.fn.blocks, B.fn.Reach b := by
  have hlen : (visitProgram deadLoop freshBuilder).toOption.map (fun B => B.fn.blocks.length) =
      some 8 := by decide +kernel
  cases h : visitProgram deadLoop freshBuilder with
  | error e =>
    rw [h] at hlen
    cases hlen
  | ok B =>
    rw [h] at hlen
    exact ⟨B, rfl, Option.some_inj.mp hlen, (connected h B.fn (by simp)).2.2.1⟩

end Cminusfc.Frontend
