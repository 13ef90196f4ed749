import Cminusfc.Lib.Fallible
import Cminusfc.LightIR.UseLists
import Cminusfc.Optimization.LoopSearch

/-!
# Hoisting of loop invariants

Model of `LoopInvHoist.cpp` on top of what `LoopSearch` has found: the loops of a function, each with
its base, in the order in which the unordered sets are enumerated. Nothing here depends on which
sets these are. `invariants` is a `std::set` of pointers; `moveout` takes an order `ord` for it.

`run_complete_iff`: the use lists are complete after the pass exactly when it has moved nothing.

Source: `src/optimization/LoopInvHoist.cpp` 6-58.
-/

namespace Cminusfc.Optimization.LoopInvHoist

open Cminusfc.LightIR
open LoopSearch (Loop)

/-- `inv_in_loop`, without the insertion. -/
def invInLoop (f : Func) (loop : Loop) (invariants : List InstrId) (instr : InstrId) : Bool :=
  let x := f.instr instr
  if x.op = .call ∨ x.op = .ret ∨ x.op = .br ∨ x.op = .phi then false
  else x.operands.all fun rand =>
    match rand.asInstr with
    | some temp => (f.instr temp).parent ∉ loop.blocks || temp ∈ invariants
    | none => true

/-- The body of the loop over the instructions: `inv |= inv_in_loop(instr, loop)`. -/
def collectInstr (f : Func) (loop : Loop) (s : List InstrId × Bool) (instr : InstrId) :
    List InstrId × Bool :=
  if invInLoop f loop s.1 instr then (if instr ∈ s.1 then s.1 else s.1 ++ [instr], true) else s

/-- The loops over the blocks and their instructions, with `invariants` and the flag `inv`. -/
def collect (f : Func) (loop : Loop) (invariants : List InstrId) : List InstrId × Bool :=
  loop.blocks.foldl (fun s bb => (f.body bb).foldl (collectInstr f loop) s) (invariants, false)

/-- The body of the loop of `moveout` over `invariants`. -/
def moveInv (predPre : BlockId) (f : Func) (inv : InstrId) : Func :=
  let f := (f.deleteInstr (f.instr inv).parent inv).addInstruction predPre inv
  f.setInstr inv { f.instr inv with parent := predPre }

/-- The last predecessor of the base outside the loop. -/
def predPre (f : Func) (loop : Loop) : Option BlockId :=
  ((f.pre loop.base).filter fun prev => prev ∉ loop.blocks).getLast?

/-- `moveout`. -/
def moveout (ord : SetOrder InstrId) (invariants : List InstrId) (loop : Loop) (f : Func) :
    Except Fault Func :=
  match predPre f loop with
  | none => .error .undefined
  | some pre =>
    match (f.body pre).getLast? with
    | none => .error .undefined
    | some last =>
      let f := (ord.enum invariants).foldl (moveInv pre) (f.deleteInstr pre last)
      .ok (f.addInstruction pre last)

/-- The body of the loop over the loops, with the member `invariants`. -/
def visitLoop (ord : SetOrder InstrId) (s : Func × List InstrId) (loop : Loop) :
    Except Fault (Func × List InstrId) :=
  let r := collect s.1 loop s.2
  if r.2 then (moveout ord r.1 loop s.1).map fun f => (f, []) else .ok (s.1, r.1)

/-- The body of the loop over the functions in `LoopInvHoist::run`. -/
def run (ord : SetOrder InstrId) (loops : List Loop) (f : Func) : Except Fault Func :=
  (loops.foldlM (visitLoop ord) (f, [])).map Prod.fst

/-! ## What is moved -/

variable {f g : Func} {loop : Loop} {ord : SetOrder InstrId} {D : InstrId → Prop} {i : InstrId}

/-- The loop has an instruction that the first call of `inv_in_loop` on it takes. -/
def HasInvariant (f : Func) (loop : Loop) : Prop :=
  ∃ bb ∈ loop.blocks, ∃ i ∈ f.body bb, invInLoop f loop [] i = true

instance (f : Func) (loop : Loop) : Decidable (HasInvariant f loop) :=
  inferInstanceAs (Decidable (∃ bb ∈ loop.blocks, ∃ i ∈ f.body bb, invInLoop f loop [] i = true))

/-- Without an invariant nothing is collected. -/
theorem foldl_collectInstr_none {l : List InstrId} (h : ∀ i ∈ l, invInLoop f loop [] i = false) :
    l.foldl (collectInstr f loop) ([], false) = ([], false) := by
  induction l with
  | nil => rfl
  | cons i l ih =>
    have hi : collectInstr f loop ([], false) i = ([], false) := by
      simp [collectInstr, h i List.mem_cons_self]
    rw [List.foldl_cons, hi]
    exact ih fun j hj => h j (List.mem_cons_of_mem _ hj)

theorem collect_none (h : ¬ HasInvariant f loop) : collect f loop [] = ([], false) := by
  unfold collect
  have hall : ∀ bb ∈ loop.blocks, ∀ i ∈ f.body bb, invInLoop f loop [] i = false := by
    intro bb hbb i hi
    by_contra hinv
    exact h ⟨bb, hbb, i, hi, by simpa using hinv⟩
  generalize loop.blocks = bbs at hall
  induction bbs with
  | nil => rfl
  | cons bb bbs ih =>
    rw [List.foldl_cons, foldl_collectInstr_none (hall bb List.mem_cons_self)]
    exact ih fun c hc => hall c (List.mem_cons_of_mem _ hc)

theorem collectInstr_flag {s : List InstrId × Bool} (h : s.2 = true) :
    (collectInstr f loop s i).2 = true := by
  unfold collectInstr
  split
  · rfl
  · exact h

theorem foldl_collectInstr_flag {l : List InstrId} {s : List InstrId × Bool}
    (h : s.2 = true ∨ ∃ i ∈ l, invInLoop f loop [] i = true) :
    (l.foldl (collectInstr f loop) s).2 = true := by
  induction l generalizing s with
  | nil => exact h.resolve_right (by simp)
  | cons i l ih =>
    rw [List.foldl_cons]
    apply ih
    rcases h with h | ⟨j, hj, hinv⟩
    · exact Or.inl (collectInstr_flag h)
    · rcases List.mem_cons.mp hj with rfl | hj
      · refine Or.inl ?_
        -- a larger set of invariants takes the instruction as well
        have hmono : invInLoop f loop s.1 j = true := by
          unfold invInLoop at hinv ⊢
          simp only at hinv ⊢
          split at hinv
          · cases hinv
          · rename_i hop
            rw [if_neg hop]
            refine List.all_eq_true.mpr fun rand hrand => ?_
            have := List.all_eq_true.mp hinv rand hrand
            split at this <;> simp_all
        simp [collectInstr, hmono]
      · exact Or.inr ⟨j, hj, hinv⟩

theorem collect_flag (h : HasInvariant f loop) (invariants : List InstrId) :
    (collect f loop invariants).2 = true := by
  obtain ⟨bb, hbb, hi⟩ := h
  unfold collect
  have hgen : ∀ (bbs : List BlockId) (s : List InstrId × Bool), (s.2 = true ∨ bb ∈ bbs) →
      (bbs.foldl (fun s bb => (f.body bb).foldl (collectInstr f loop) s) s).2 = true := by
    intro bbs
    induction bbs with
    | nil => exact fun s hs => hs.resolve_right List.not_mem_nil
    | cons c bbs ih =>
      intro s hs
      rw [List.foldl_cons]
      apply ih
      rcases hs with hs | hs
      · exact Or.inl (foldl_collectInstr_flag (Or.inl hs))
      · rcases List.mem_cons.mp hs with rfl | hs
        · exact Or.inl (foldl_collectInstr_flag (Or.inr hi))
        · exact Or.inr hs
  exact hgen _ _ (Or.inr hbb)

/-! ## What a move does to the use lists -/

/-- The pass on `f` has come to `g`, and has taken the instructions `D` out on the way; `gone` is out
at the moment. -/
structure Hoisting (f : Func) (D : InstrId → Prop) (gone : Option InstrId) (g : Func) : Prop where
  tracked : Func.Tracked f D g
  cfg : g.toCfg = f.toCfg
  instrs : ∀ i ∈ f.instrs, gone = some i ∨ i ∈ g.instrs
  operands : ∀ i, (g.instr i).operands = (f.instr i).operands

theorem Hoisting.blocks {gone : Option InstrId} (h : Hoisting f D gone g) : g.blocks = f.blocks := by
  unfold Cfg.blocks
  rw [h.cfg]

theorem mem_instrs_update {g' : Func} (hblocks : g'.blocks = g.blocks)
    (hbody : ∀ b ∈ g.blocks, i ∈ g.body b → i ∈ g'.body b) (hi : i ∈ g.instrs) : i ∈ g'.instrs := by
  obtain ⟨b, hb, hib⟩ := List.mem_flatMap.mp hi
  exact Func.mem_instrs (hblocks ▸ hb) (hbody b hb hib)

/-- One invariant. -/
theorem Hoisting.moveInv {pre : BlockId} {gone : Option InstrId} (h : Hoisting f D gone g)
    (hpre : pre ∈ f.blocks) {inv : InstrId} (hinv : (inv ∈ f.instrs ∨ f.next ≤ inv) ∧ inv < g.next) :
    Hoisting f (fun j => D j ∨ j = inv) gone (moveInv pre g inv) := by
  have hcfg : (LoopInvHoist.moveInv pre g inv).toCfg = g.toCfg := by
    show (g.deleteInstr _ inv).toCfg = _
    rw [Func.deleteInstr_toCfg]
  have hblocks : (LoopInvHoist.moveInv pre g inv).blocks = g.blocks := by
    unfold Cfg.blocks
    rw [hcfg]
  have hbody : (LoopInvHoist.moveInv pre g inv).body =
      Function.update (g.deleteInstr (g.instr inv).parent inv).body pre
        ((g.deleteInstr (g.instr inv).parent inv).body pre ++ [inv]) := rfl
  refine ⟨?_, hcfg.trans h.cfg, fun i hi => (h.instrs i hi).imp_right fun hig => ?_, fun i => ?_⟩
  · refine Func.Tracked.setInstr ?_ rfl
    refine (h.tracked.deleteInstr _ hinv.2).addInstruction pre ⟨hinv.1, ?_⟩
    rw [Func.deleteInstr_next]
    exact hinv.2
  · by_cases hii : i = inv
    · subst hii
      refine Func.mem_instrs (hblocks.symm ▸ h.blocks.symm ▸ hpre) ?_
      rw [hbody, Function.update_self]
      simp
    · refine mem_instrs_update hblocks (fun b _ hib => ?_) hig
      have hkeep : i ∈ (g.deleteInstr (g.instr inv).parent inv).body b := by
        rw [Func.deleteInstr_body]
        by_cases hb : b = (g.instr inv).parent
        · subst hb
          rw [Function.update_self]
          exact List.mem_filter.mpr ⟨hib, by simpa using hii⟩
        · rwa [Function.update_of_ne hb]
      rw [hbody]
      by_cases hb : b = pre
      · subst hb
        rw [Function.update_self]
        exact List.mem_append_left _ hkeep
      · rwa [Function.update_of_ne hb]
  · rw [← h.operands i]
    show (Function.update (g.deleteInstr _ inv).instr inv _ i).operands = _
    by_cases hii : i = inv
    · subst hii
      rw [Function.update_self]
      show ((g.deleteInstr _ i).instr i).operands = _
      rw [Func.deleteInstr_instr]
    · rw [Function.update_of_ne hii, Func.deleteInstr_instr]

theorem Hoisting.foldl_moveInv {pre : BlockId} {gone : Option InstrId} (hpre : pre ∈ f.blocks) :
    ∀ (invs : List InstrId) (D : InstrId → Prop) (g : Func), Hoisting f D gone g →
      (∀ i ∈ invs, (i ∈ f.instrs ∨ f.next ≤ i) ∧ i < g.next) →
      ∃ D', (∀ i, D i → D' i) ∧ Hoisting f D' gone (invs.foldl (LoopInvHoist.moveInv pre) g) := by
  intro invs
  induction invs with
  | nil => exact fun D g h _ => ⟨D, fun _ => id, h⟩
  | cons inv invs ih =>
    intro D g h hinvs
    have hnext : (LoopInvHoist.moveInv pre g inv).next = g.next := by
      show (g.deleteInstr _ inv).next = _
      rw [Func.deleteInstr_next]
    obtain ⟨D', hD, h'⟩ := ih _ _ (h.moveInv hpre (hinvs inv List.mem_cons_self)) fun i hi => by
      rw [hnext]
      exact hinvs i (List.mem_cons_of_mem _ hi)
    exact ⟨D', fun i hi => hD i (Or.inl hi), h'⟩

/-- `moveout`: the last instruction of the block it moves to is among those taken out. -/
theorem Hoisting.moveout (h : Hoisting f D none g) {invs : List InstrId}
    (hinvs : ∀ i ∈ invs, (i ∈ f.instrs ∨ f.next ≤ i) ∧ i < g.next)
    (hpre : ∀ a ∈ f.pre loop.base, a ∈ f.blocks) {g' : Func}
    (hrun : moveout ord invs loop g = .ok g') :
    ∃ pre last D', predPre f loop = some pre ∧ (g.body pre).getLast? = some last ∧ D' last ∧
      (∀ i, D i → D' i) ∧ Hoisting f D' none g' := by
  have hpp : predPre g loop = predPre f loop := by
    unfold predPre
    rw [h.cfg]
  unfold LoopInvHoist.moveout at hrun
  rw [hpp] at hrun
  split at hrun
  · cases hrun
  · rename_i pre hp
    split at hrun
    · cases hrun
    · rename_i last hlast
      cases hrun
      have hpb : pre ∈ f.blocks := hpre pre (List.mem_filter.mp (List.mem_of_getLast? hp)).1
      have hmem : last ∈ g.body pre := List.mem_of_getLast? hlast
      obtain ⟨hold, hlt⟩ := h.tracked.placed pre hpb last hmem
      have hout : Hoisting f (fun j => D j ∨ j = last) (some last) (g.deleteInstr pre last) := by
        refine ⟨h.tracked.deleteInstr pre hlt, by rw [Func.deleteInstr_toCfg, h.cfg], fun i hi => ?_,
          fun i => by rw [Func.deleteInstr_instr, h.operands]⟩
        by_cases hil : i = last
        · exact Or.inl (by rw [hil])
        · refine Or.inr (mem_instrs_update (g := g) ?_ (fun b _ hib => ?_)
            ((h.instrs i hi).resolve_left (by simp)))
          · unfold Cfg.blocks
            rw [Func.deleteInstr_toCfg]
          · rw [Func.deleteInstr_body]
            by_cases hb : b = pre
            · subst hb
              rw [Function.update_self]
              exact List.mem_filter.mpr ⟨hib, by simpa using hil⟩
            · rwa [Function.update_of_ne hb]
      obtain ⟨D', hD, h'⟩ := Hoisting.foldl_moveInv hpb (ord.enum invs) _ _ hout fun i hi => by
        rw [Func.deleteInstr_next]
        exact hinvs i (ord.mem_enum.mp hi)
      have hlast' := h'.tracked.dropped last (hD last (Or.inr rfl))
      refine ⟨pre, last, D', hp, hlast, hD last (Or.inr rfl), fun i hi => hD i (Or.inl hi), ?_, h'.cfg,
        fun i hi => Or.inr ?_, h'.operands⟩
      · exact h'.tracked.addInstruction pre ⟨hold, hlast'.1⟩
      · have hblocks := h'.blocks
        rcases h'.instrs i hi with hil | hi'
        · cases hil
          refine Func.mem_instrs (b := pre) (hblocks.symm ▸ hpb) ?_
          rw [Func.addInstruction_body, Function.update_self]
          simp
        · refine mem_instrs_update (g := (ord.enum invs).foldl (LoopInvHoist.moveInv pre)
            (g.deleteInstr pre last)) rfl (fun b _ hib => ?_) hi'
          rw [Func.addInstruction_body]
          by_cases hb : b = pre
          · subst hb
            rw [Function.update_self]
            exact List.mem_append_left _ hib
          · rwa [Function.update_of_ne hb]

/-! ## The pass -/

/-- Well-terminated blocks whose predecessors branch to them, and loops among the blocks. -/
structure Input (f : Func) (loops : List Loop) : Prop where
  allocated : ∀ i ∈ f.instrs, i < f.next
  terminated : f.WellTerminated
  pre : ∀ b ∈ f.blocks, ∀ a ∈ f.pre b, a ∈ f.blocks ∧ b ∈ (f.instr (f.termOf a)).targets
  loops : ∀ loop ∈ loops, loop.base ∈ f.blocks ∧ ∀ bb ∈ loop.blocks, bb ∈ f.blocks

variable {loops : List Loop}

theorem mem_foldl_collectInstr {l : List InstrId} {s : List InstrId × Bool}
    (h : i ∈ (l.foldl (collectInstr f loop) s).1) : i ∈ s.1 ∨ i ∈ l := by
  induction l generalizing s with
  | nil => exact Or.inl h
  | cons j l ih =>
    rw [List.foldl_cons] at h
    rcases ih h with h | h
    · unfold collectInstr at h
      split at h
      · simp only at h
        split at h
        · exact Or.inl h
        · rcases List.mem_append.mp h with h | h
          · exact Or.inl h
          · rw [List.mem_singleton.mp h]
            exact Or.inr List.mem_cons_self
      · exact Or.inl h
    · exact Or.inr (List.mem_cons_of_mem _ h)

theorem mem_collect {invariants : List InstrId} (h : i ∈ (collect f loop invariants).1) :
    i ∈ invariants ∨ ∃ bb ∈ loop.blocks, i ∈ f.body bb := by
  unfold collect at h
  have hgen : ∀ (bbs : List BlockId) (s : List InstrId × Bool),
      i ∈ (bbs.foldl (fun s bb => (f.body bb).foldl (collectInstr f loop) s) s).1 →
      i ∈ s.1 ∨ ∃ bb ∈ bbs, i ∈ f.body bb := by
    intro bbs
    induction bbs with
    | nil => exact fun s hs => Or.inl hs
    | cons c bbs ih =>
      intro s hs
      rw [List.foldl_cons] at hs
      rcases ih _ hs with hs | ⟨bb, hbb, hi⟩
      · exact (mem_foldl_collectInstr hs).imp_right fun hi => ⟨c, List.mem_cons_self, hi⟩
      · exact Or.inr ⟨bb, List.mem_cons_of_mem _ hbb, hi⟩
  exact hgen _ _ h

/-- What has been collected is part of the function. -/
theorem Hoisting.collect (h : Hoisting f D none g) {invs : List InstrId}
    (hinvs : ∀ i ∈ invs, (i ∈ f.instrs ∨ f.next ≤ i) ∧ i < g.next)
    (hloop : ∀ bb ∈ loop.blocks, bb ∈ f.blocks) :
    ∀ i ∈ (collect g loop invs).1, (i ∈ f.instrs ∨ f.next ≤ i) ∧ i < g.next := by
  intro i hi
  rcases mem_collect hi with hi | ⟨bb, hbb, hi⟩
  · exact hinvs i hi
  · exact h.tracked.placed bb (hloop bb hbb) i hi

/-- What has been taken out stays in the record. -/
theorem Hoisting.visitLoop {invs : List InstrId} (h : Hoisting f D none g)
    (hinvs : ∀ i ∈ invs, (i ∈ f.instrs ∨ f.next ≤ i) ∧ i < g.next)
    (hpre : ∀ a ∈ f.pre loop.base, a ∈ f.blocks) (hloop : ∀ bb ∈ loop.blocks, bb ∈ f.blocks)
    {s : Func × List InstrId} (hrun : visitLoop ord (g, invs) loop = .ok s) :
    ∃ D', (∀ i, D i → D' i) ∧ Hoisting f D' none s.1 ∧
      ∀ i ∈ s.2, (i ∈ f.instrs ∨ f.next ≤ i) ∧ i < s.1.next := by
  unfold LoopInvHoist.visitLoop at hrun
  simp only at hrun
  split at hrun
  · cases hm : LoopInvHoist.moveout ord (LoopInvHoist.collect g loop invs).1 loop g with
    | error e =>
      rw [hm] at hrun
      cases hrun
    | ok g' =>
      rw [hm] at hrun
      cases hrun
      obtain ⟨-, -, D', -, -, -, hD, h'⟩ := h.moveout (h.collect hinvs hloop) hpre hm
      exact ⟨D', hD, h', by simp⟩
  · cases hrun
    exact ⟨D, fun _ => id, h, h.collect hinvs hloop⟩

theorem Hoisting.foldlM (hin : Input f loops) : ∀ (l : List Loop) (D : InstrId → Prop) (g : Func)
    (invs : List InstrId), (∀ loop ∈ l, loop ∈ loops) → Hoisting f D none g →
    (∀ i ∈ invs, (i ∈ f.instrs ∨ f.next ≤ i) ∧ i < g.next) → ∀ {s : Func × List InstrId},
    l.foldlM (LoopInvHoist.visitLoop ord) (g, invs) = .ok s →
    ∃ D', (∀ i, D i → D' i) ∧ Hoisting f D' none s.1 := by
  intro l
  induction l with
  | nil =>
    intro D g invs _ h _ s hrun
    cases hrun
    exact ⟨D, fun _ => id, h⟩
  | cons loop l ih =>
    intro D g invs hl h hinvs s hrun
    obtain ⟨hbase, hblk⟩ := hin.loops loop (hl loop List.mem_cons_self)
    rw [List.foldlM_cons] at hrun
    obtain ⟨⟨g', invs'⟩, h₁, hrun⟩ := Fallible.bind_ok.mp hrun
    obtain ⟨D₁, hD₁, h', hinvs'⟩ := h.visitLoop hinvs (fun a ha => (hin.pre _ hbase a ha).1) hblk h₁
    obtain ⟨D₂, hD₂, h''⟩ := ih D₁ g' invs' (fun k hk => hl k (List.mem_cons_of_mem _ hk)) h' hinvs'
      hrun
    exact ⟨D₂, fun i hi => hD₂ i (hD₁ i hi), h''⟩

theorem visitLoop_none (h : ¬ HasInvariant f loop) : visitLoop ord (f, []) loop = .ok (f, []) := by
  simp [visitLoop, collect_none h]

/-- From the first loop with an invariant on, the branch in front of that loop has lost its uses. -/
theorem foldlM_some (hin : Input f loops) (hc : f.UsesComplete) : ∀ (l : List Loop),
    (∀ loop ∈ l, loop ∈ loops) → (∃ loop ∈ l, HasInvariant f loop) → ∀ {s : Func × List InstrId},
    l.foldlM (visitLoop ord) (f, []) = .ok s →
    ∃ D t, D t ∧ t ∈ f.instrs ∧ (f.instr t).operands ≠ [] ∧ Hoisting f D none s.1 := by
  have hstart : Hoisting f (fun _ => False) none f :=
    ⟨hc.tracked hin.allocated, rfl, fun i hi => Or.inr hi, fun _ => rfl⟩
  intro l
  induction l with
  | nil => exact fun _ ⟨_, h, _⟩ => absurd h List.not_mem_nil
  | cons loop l ih =>
    intro hl hex s hrun
    rw [List.foldlM_cons] at hrun
    by_cases hinv : HasInvariant f loop
    · obtain ⟨hbase, hblk⟩ := hin.loops loop (hl loop List.mem_cons_self)
      obtain ⟨⟨g, invs⟩, h₁, hrun⟩ := Fallible.bind_ok.mp hrun
      simp only [visitLoop, collect_flag hinv, if_true] at h₁
      cases hm : moveout ord (collect f loop []).1 loop f with
      | error e =>
        rw [hm] at h₁
        cases h₁
      | ok g' =>
        rw [hm] at h₁
        cases h₁
        obtain ⟨pre, last, D, hpp, hlast, hD, -, h'⟩ := hstart.moveout
          (hstart.collect (by simp) hblk) (fun a ha => (hin.pre _ hbase a ha).1) hm
        obtain ⟨D', hD', h''⟩ := h'.foldlM hin l _ _ [] (fun k hk => hl k (List.mem_cons_of_mem _ hk))
          (by simp) hrun
        obtain ⟨hpb, htarget⟩ := hin.pre _ hbase pre (List.mem_filter.mp (List.mem_of_getLast? hpp)).1
        have hterm : f.termOf pre = last := by
          rw [Func.termOf, List.getLastD_eq_getLast?, hlast]
          rfl
        rw [hterm] at htarget
        refine ⟨D', last, hD' last hD, Func.mem_instrs hpb (List.mem_of_getLast? hlast), ?_, h''⟩
        intro hnil
        simp [Instr.targets, hnil] at htarget
    · obtain ⟨k, hk, hkinv⟩ := hex
      rw [visitLoop_none hinv, Fallible.ok_bind] at hrun
      have hkl : k ∈ l := (List.mem_cons.mp hk).resolve_left fun heq => hinv (heq ▸ hkinv)
      exact ih (fun k hk => hl k (List.mem_cons_of_mem _ hk)) ⟨k, hkl, hkinv⟩ hrun

theorem foldlM_none : ∀ (l : List Loop), (∀ loop ∈ l, ¬ HasInvariant f loop) →
    l.foldlM (visitLoop ord) (f, []) = .ok (f, []) := by
  intro l
  induction l with
  | nil => exact fun _ => rfl
  | cons loop l ih =>
    intro hl
    rw [List.foldlM_cons, visitLoop_none (hl loop List.mem_cons_self), Fallible.ok_bind]
    exact ih fun k hk => hl k (List.mem_cons_of_mem _ hk)

/-- **When `LoopInvHoist::run` keeps the use lists complete**: when no loop has an invariant. -/
theorem run_complete_iff (hin : Input f loops) (hc : f.UsesComplete)
    (hrun : run ord loops f = .ok g) :
    g.UsesComplete ↔ ∀ loop ∈ loops, ¬ HasInvariant f loop := by
  unfold run at hrun
  cases hs : loops.foldlM (visitLoop ord) (f, []) with
  | error e =>
    rw [hs] at hrun
    cases hrun
  | ok s =>
    rw [hs] at hrun
    cases hrun
    constructor
    · intro hg loop hloop hinv
      obtain ⟨D, t, hD, ht, hne, h⟩ := foldlM_some hin hc loops (fun _ => id) ⟨loop, hloop, hinv⟩ hs
      rw [← h.operands t] at hne
      obtain ⟨v, hv⟩ := List.exists_mem_of_ne_nil _ hne
      obtain ⟨no, hno⟩ := List.getElem?_of_mem hv
      exact (h.tracked.dropped t hD).2 no v hno
        (hg t ((h.instrs t ht).resolve_left (by simp)) no v hno)
    · intro hnone
      rw [foldlM_none loops hnone] at hs
      cases hs
      exact hc

end Cminusfc.Optimization.LoopInvHoist
