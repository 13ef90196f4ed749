import Cminusfc.LightIR.UseLists
import Cminusfc.Codegen.PhiElimCorrect

/-!
# `PhiElim::run` and the use lists

The pass takes the terminator of the entry out and puts it back, and then the terminator of a block
for every store it adds there. `run_tracked`: these are the instructions without recorded uses at
the end.

About `src/codegen/phi_elim.cpp` 15-60 and the use lists of `src/lightir/BasicBlock.cpp` 30-34.
-/

namespace Cminusfc.Codegen.PhiElim

open Cminusfc.LightIR

variable {f f₁ g : Func} {s : St} {D : InstrId → Prop}

/-! ## The first loop -/

/-- The first loop, started on `f₁`, at `s`. -/
structure Keeps (f f₁ : Func) (D : InstrId → Prop) (s : St) : Prop where
  tracked : Func.Tracked f D s.f
  cfg : s.f.toCfg = f.toCfg
  next : f₁.next ≤ s.f.next
  uses : ∀ j < f₁.next, s.f.uses (.instr j) = f₁.uses (.instr j)
  allocas : ∀ p ∈ s.phi2alloca, f₁.next ≤ p.2
  phis : ∀ b ∈ f.blocks, ∀ i ∈ s.f.body b, isPhi s.f i = true →
    i < f₁.next ∧ ∀ u ∈ f₁.uses (.instr i), ¬ D u.1
  args : ∀ no, s.f.uses (.arg no) = f₁.uses (.arg no)

theorem Keeps.createAlloca (h : Keeps f f₁ D s) (hn : f.next ≤ f₁.next) (p : InstrId) :
    Keeps f f₁ D (createAlloca f.entry s p) := by
  have hph : ∀ {i : InstrId}, isPhi (PhiElim.createAlloca f.entry s p).f i = true →
      i ≠ s.f.next ∧ isPhi s.f i = true := by
    intro i hi
    simp only [isPhi, PhiElim.createAlloca, Func.addInstruction_instr, Func.newInstr_instr,
      decide_eq_true_eq] at hi ⊢
    by_cases hin : i = s.f.next
    · subst hin
      rw [Function.update_self] at hi
      cases hi
    · rw [Function.update_of_ne hin] at hi
      exact ⟨hin, hi⟩
  refine ⟨?_, ?_, ?_, fun j hj => ?_, fun q hq => ?_, fun b hb i hi hphi => ?_, fun no => ?_⟩
  · refine (h.tracked.newInstr _).addInstruction _ ⟨Or.inr (Nat.le_trans hn h.next), ?_⟩
    rw [Func.newInstr_next]
    exact Nat.lt_succ_self _
  · rw [PhiElim.createAlloca, Func.addInstruction_toCfg, Func.newInstr_toCfg, h.cfg]
  · rw [PhiElim.createAlloca, Func.addInstruction_next, Func.newInstr_next]
    exact Nat.le_succ_of_le h.next
  · rw [PhiElim.createAlloca, Func.addInstruction_uses, Func.newInstr_uses _ _ List.not_mem_nil]
    exact h.uses j hj
  · rcases List.mem_append.mp hq with hq | hq
    · exact h.allocas q hq
    · rw [List.mem_singleton.mp hq]
      exact h.next
  · obtain ⟨hne, hphi⟩ := hph hphi
    refine h.phis b hb i ?_ hphi
    simp only [PhiElim.createAlloca, Func.addInstruction_body, Func.newInstr_body] at hi
    by_cases hbe : b = f.entry
    · subst hbe
      rw [Function.update_self] at hi
      exact (List.mem_append.mp hi).resolve_right fun hi => hne (List.mem_singleton.mp hi)
    · rwa [Function.update_of_ne hbe] at hi
  · rw [PhiElim.createAlloca, Func.addInstruction_uses, Func.newInstr_uses _ _ List.not_mem_nil]
    exact h.args no

theorem Keeps.replacePhi (h : Keeps f f₁ D s) (hn : f.next ≤ f₁.next) {bb : BlockId}
    (hbb : bb ∈ f.blocks) {p : InstrId} (hp : p < f₁.next)
    (husers : ∀ u ∈ f₁.uses (.instr p), ¬ D u.1) : Keeps f f₁ D (replacePhi bb s p) := by
  unfold PhiElim.replacePhi
  split
  · exact h
  · rename_i a hlook
    have ha : f₁.next ≤ a := by
      obtain ⟨l₁, l₂, hsplit, -⟩ := List.lookup_eq_some_iff.mp hlook
      exact h.allocas (p, a) (by rw [hsplit]; simp)
    generalize hx : ({ op := .load, ty := (s.f.instr p).ty, operands := [.instr a], parent := bb } : Instr) = x
    have hops : x.operands = [.instr a] := by rw [← hx]
    have hop : x.op = .load := by rw [← hx]
    have huses : ∀ v, v ≠ .instr a → v ≠ .instr s.f.next →
        ((s.f.newInstr x).replaceAllUseWith (.instr p) (.instr s.f.next)).uses v = s.f.uses v := by
      intro v hva hvn
      rw [Func.replaceAllUseWith_uses _ hvn, Func.newInstr_uses _ _ (by rw [hops]; simpa using hva)]
    have hphi : ∀ {i : InstrId},
        isPhi ((s.f.newInstr x).replaceAllUseWith (.instr p) (.instr s.f.next)) i = true →
          i ≠ s.f.next ∧ isPhi s.f i = true := by
      intro i hi
      simp only [isPhi, Func.replaceAllUseWith_instr, Func.newInstr_instr, decide_eq_true_eq] at hi ⊢
      by_cases hin : i = s.f.next
      · subst hin
        rw [Function.update_self, hop] at hi
        cases hi
      · rw [Function.update_of_ne hin] at hi
        exact ⟨hin, hi⟩
    refine ⟨?_, ?_, ?_, fun j hj => ?_, h.allocas, fun b hb i hi hi' => ?_, fun no => ?_⟩ <;>
      simp only at *
    · refine ((h.tracked.newInstr x).replaceAllUseWith _ fun u hu => ?_).setBody bb (fun i hi => ?_) hbb
      · rw [Func.newInstr_uses _ _ (by rw [hops]; simpa using InstrId.ne_of_lt_of_le hp ha),
          h.uses p hp] at hu
        exact husers u hu
      · rw [Func.replaceAllUseWith_body, Func.newInstr_body, Func.replaceAllUseWith_next,
          Func.newInstr_next]
        rw [Func.replaceAllUseWith_body, Func.newInstr_body] at hi
        obtain ⟨j, hj, rfl⟩ := List.mem_map.mp hi
        split
        · exact Or.inr ⟨Nat.le_trans hn h.next, Nat.lt_succ_self _⟩
        · exact Or.inl hj
    · rw [Func.setBody_toCfg, Func.replaceAllUseWith_toCfg, Func.newInstr_toCfg, h.cfg]
    · rw [Func.setBody_next, Func.replaceAllUseWith_next, Func.newInstr_next]
      exact Nat.le_succ_of_le h.next
    · rw [Func.setBody_uses, huses _ (by simpa using InstrId.ne_of_lt_of_le hj ha)
        (by simpa using InstrId.ne_of_lt_of_le hj h.next), h.uses j hj]
    · have hi'' := hphi (i := i) hi'
      refine h.phis b hb i ?_ hi''.2
      rw [Func.setBody_body] at hi
      by_cases hbe : b = bb
      · subst hbe
        rw [Function.update_self, Func.replaceAllUseWith_body, Func.newInstr_body] at hi
        obtain ⟨j, hj, rfl⟩ := List.mem_map.mp hi
        split at hi''
        · exact absurd rfl hi''.1
        · split
          · contradiction
          · exact hj
      · rwa [Function.update_of_ne hbe, Func.replaceAllUseWith_body, Func.newInstr_body] at hi
    · rw [Func.setBody_uses, huses _ (by simp) (by simp), h.args no]

/-- The first loop. -/
theorem Keeps.foldl_visitBlock (hn : f.next ≤ f₁.next) : ∀ (bbs : List BlockId) (s : St),
    (∀ bb ∈ bbs, bb ∈ f.blocks) → Keeps f f₁ D s → Keeps f f₁ D (bbs.foldl (visitBlock f.entry) s) := by
  intro bbs
  induction bbs with
  | nil => exact fun s _ h => h
  | cons bb bbs ih =>
    intro s hbbs h
    rw [List.foldl_cons]
    refine ih _ (fun c hc => hbbs c (List.mem_cons_of_mem _ hc)) ?_
    have hbb := hbbs bb List.mem_cons_self
    have hits : ∀ p ∈ (s.f.body bb).filter (isPhi s.f),
        p < f₁.next ∧ ∀ u ∈ f₁.uses (.instr p), ¬ D u.1 := fun p hp =>
      h.phis bb hbb p (List.mem_filter.mp hp).1 (List.mem_filter.mp hp).2
    unfold visitBlock
    simp only
    generalize (s.f.body bb).filter (isPhi s.f) = its at hits
    have hallocas : Keeps f f₁ D (its.foldl (PhiElim.createAlloca f.entry) s) := by
      clear hits
      induction its generalizing s with
      | nil => exact h
      | cons p its ih' => exact ih' _ (h.createAlloca hn p)
    generalize its.foldl (PhiElim.createAlloca f.entry) s = s' at hallocas
    clear h
    induction its generalizing s' with
    | nil => exact hallocas
    | cons p its ih' =>
      obtain ⟨hp, husers⟩ := hits p List.mem_cons_self
      exact ih' (fun q hq => hits q (List.mem_cons_of_mem _ hq)) _
        (hallocas.replacePhi hn hbb hp husers)

/-! ## The second loop -/

variable {f₂ : Func} {base : BlockId → List InstrId} {term : BlockId → InstrId} {moves : List Move}

/-- One store: the terminator of its block loses its uses. -/
theorem Moved.storePair_tracked (hb : Bases f₂ base term) (h : Moved f₂ g base term moves)
    (hblocks : f₂.blocks = f.blocks) (ht : Func.Tracked f D g) (alloca : InstrId)
    {p : Value × BlockId} (hp : p.2 ∈ f₂.blocks) :
    ∃ g', PhiElim.storePair alloca g p = .ok g' ∧
      Moved f₂ g' base term (moves ++ [(alloca, p.1, p.2)]) ∧
      Func.Tracked f (fun t => D t ∨ t = term p.2) g' ∧
      ∀ no, g'.uses (.arg no) ≠ [] → g.uses (.arg no) ≠ [] ∨ p.1 = .arg no := by
  obtain ⟨g', hrun, hmoved⟩ := h.storePair hb alloca hp
  refine ⟨g', hrun, hmoved, ?_⟩
  have hterm := h.terminator hb hp
  have hmem : term p.2 ∈ g.body p.2 := by
    rw [h.body p.2 hp]
    simp
  obtain ⟨hold, hlt⟩ := ht.placed p.2 (hblocks ▸ hp) _ hmem
  unfold PhiElim.storePair at hrun
  rw [hterm] at hrun
  cases hrun
  have hdel := ht.deleteInstr p.2 hlt
  constructor
  · refine ((hdel.newInstr _).addInstruction _ ⟨Or.inr hdel.next, ?_⟩).addInstruction _ ⟨hold, ?_⟩
    · rw [Func.newInstr_next]
      exact Nat.lt_succ_self _
    · rw [Func.addInstruction_next, Func.newInstr_next, Func.deleteInstr_next]
      exact Nat.lt_succ_of_lt hlt
  · intro no hne
    obtain ⟨u, hu⟩ := List.exists_mem_of_ne_nil _ hne
    rw [Func.addInstruction_uses, Func.addInstruction_uses, Func.mem_newInstr_uses] at hu
    rcases hu with hu | ⟨-, hu⟩
    · exact Or.inl (List.ne_nil_of_mem ((Func.mem_deleteInstr_uses _ _ _).mp hu).1)
    · have hargs := List.mem_of_getElem? hu
      simp only [List.mem_cons, List.not_mem_nil, or_false, reduceCtorEq] at hargs
      exact Or.inr hargs.symm

theorem foldlM_storePair_tracked (hb : Bases f₂ base term) (hblocks : f₂.blocks = f.blocks)
    (alloca : InstrId) : ∀ (ps : List (Value × BlockId)) (moves : List Move) (D : InstrId → Prop)
    (g : Func), (∀ p ∈ ps, p.2 ∈ f₂.blocks) → Moved f₂ g base term moves → Func.Tracked f D g →
    ∃ g' moves', ps.foldlM (storePair alloca) g = .ok g' ∧ Moved f₂ g' base term moves' ∧
      Func.Tracked f (fun t => D t ∨ ∃ p ∈ ps, t = term p.2) g' ∧
      ∀ no, g'.uses (.arg no) ≠ [] → g.uses (.arg no) ≠ [] ∨ ∃ p ∈ ps, p.1 = .arg no := by
  intro ps
  induction ps with
  | nil => exact fun moves D g _ h ht => ⟨g, moves, rfl, h, by simpa using ht, fun no hno => Or.inl hno⟩
  | cons p ps ih =>
    intro moves D g hps h ht
    obtain ⟨g₁, h₁, hm₁, ht₁, ha₁⟩ := h.storePair_tracked hb hblocks ht alloca (hps p List.mem_cons_self)
    obtain ⟨g₂, moves₂, h₂, hm₂, ht₂, ha₂⟩ := ih _ _ g₁
      (fun q hq => hps q (List.mem_cons_of_mem _ hq)) hm₁ ht₁
    refine ⟨g₂, moves₂, ?_, hm₂, ?_, fun no hno => ?_⟩
    · rw [List.foldlM_cons, h₁]
      exact h₂
    · simpa [or_assoc] using ht₂
    · rcases ha₂ no hno with hno | ⟨q, hq, hqa⟩
      · exact (ha₁ no hno).imp_right fun hpa => ⟨p, List.mem_cons_self, hpa⟩
      · exact Or.inr ⟨q, List.mem_cons_of_mem _ hq, hqa⟩

theorem foldlM_storePhi_tracked (hb : Bases f₂ base term) (hblocks : f₂.blocks = f.blocks) :
    ∀ (pa : List (InstrId × InstrId)) (moves : List Move) (D : InstrId → Prop) (g : Func),
    (∀ p ∈ pa, p.1 < f₂.next ∧ ∀ q ∈ (f₂.instr p.1).phiPairs, q.2 ∈ f₂.blocks) →
    Moved f₂ g base term moves → Func.Tracked f D g →
    ∃ g', pa.foldlM storePhi g = .ok g' ∧
      Func.Tracked f (fun t => D t ∨ ∃ p ∈ pa, ∃ q ∈ (f₂.instr p.1).phiPairs, t = term q.2) g' ∧
      ∀ no, g'.uses (.arg no) ≠ [] → g.uses (.arg no) ≠ [] ∨
        ∃ p ∈ pa, ∃ q ∈ (f₂.instr p.1).phiPairs, q.1 = .arg no := by
  intro pa
  induction pa with
  | nil => exact fun moves D g _ h ht => ⟨g, rfl, by simpa using ht, fun no hno => Or.inl hno⟩
  | cons p pa ih =>
    intro moves D g hpa h ht
    obtain ⟨hlt, hblk⟩ := hpa p List.mem_cons_self
    obtain ⟨g₁, moves₁, h₁, hm₁, ht₁, ha₁⟩ := foldlM_storePair_tracked hb hblocks p.2 _ _ _ _ hblk h ht
    obtain ⟨g₂, h₂, ht₂, ha₂⟩ := ih _ _ g₁ (fun q hq => hpa q (List.mem_cons_of_mem _ hq)) hm₁ ht₁
    refine ⟨g₂, ?_, ?_, fun no hno => ?_⟩
    · rw [List.foldlM_cons, storePhi, h.old p.1 hlt, h₁]
      exact h₂
    · simpa [or_assoc] using ht₂
    · rcases ha₂ no hno with hno | ⟨q, hq, hqa⟩
      · exact (ha₁ no hno).imp_right fun hpa => ⟨p, List.mem_cons_self, hpa⟩
      · exact Or.inr ⟨q, List.mem_cons_of_mem _ hq, hqa⟩

/-! ## The pass -/

/-- The instructions `PhiElim::run` takes out and puts back. -/
def TakenOut (f : Func) (t : InstrId) : Prop :=
  t = f.termOf f.entry ∨
    ∃ p ∈ f.instrs, isPhi f p = true ∧ ∃ q ∈ (f.instr p).phiPairs, t = f.termOf q.2

/-- An instruction of `f` reads argument `no`. -/
def UsesArg (f : Func) (no : Nat) : Prop := ∃ i ∈ f.instrs, Value.arg no ∈ (f.instr i).operands

/-- Renaming changes no argument and yields none. -/
theorem renameSlot_arg {f : Func} {L : Renaming} {u : InstrId} {k no : Nat} {v : Value} :
    renameSlot f L u k v = .arg no ↔ v = .arg no := by
  cases v with
  | instr j =>
    show (if _ then Value.instr _ else Value.instr _) = _ ↔ _
    split <;> simp
  | _ => simp [renameSlot]

/-- Renaming a phi keeps the blocks of its pairs and the arguments among its values. -/
theorem pairsOf_renamed_arg (hf : Input f) {f₁ : Func} (hins : f₁.instr = f.instr) (L : Renaming)
    {p : InstrId} (hp : p ∈ f.instrs) (hphi : isPhi f p = true) :
    (Instr.pairsOf (renamed f₁ L p)).map Prod.snd = (f.instr p).phiPairs.map Prod.snd ∧
      ∀ no, (∃ q ∈ Instr.pairsOf (renamed f₁ L p), q.1 = .arg no) ↔
        ∃ q ∈ (f.instr p).phiPairs, q.1 = .arg no := by
  obtain ⟨hops, -, -⟩ := hf.pairs p hp hphi
  have hpairs : Instr.pairsOf (renamed f₁ L p) =
      (f.instr p).phiPairs.mapIdx fun k q => (renameSlot f₁ L p (2 * k) q.1, q.2) := by
    unfold renamed
    rw [hins, hops, mapIdx_flatMap_pairs _ (fun _ _ => rfl), pairsOf_flatMap]
  constructor
  · rw [hpairs]
    apply List.ext_getElem?
    intro k
    rw [List.getElem?_map, List.getElem?_map, List.getElem?_mapIdx]
    cases (f.instr p).phiPairs[k]? <;> rfl
  · intro no
    simp only [hpairs, List.mem_mapIdx]
    constructor
    · rintro ⟨q, ⟨k, hk, rfl⟩, hq⟩
      exact ⟨_, List.getElem_mem hk, renameSlot_arg.mp hq⟩
    · rintro ⟨q, hq, hqa⟩
      obtain ⟨k, hk, rfl⟩ := List.getElem_of_mem hq
      exact ⟨_, ⟨k, hk, rfl⟩, renameSlot_arg.mpr hqa⟩

/-- **What `PhiElim::run` takes out, and nothing else, has lost its uses.** -/
theorem run_tracked (ord : SetOrder (InstrId × InstrId)) (hf : Input f) (hc : f.UsesComplete)
    (hargs : ∀ no, f.uses (.arg no) ≠ [] → UsesArg f no) :
    ∃ g, run ord f = .ok g ∧ Func.Tracked f (TakenOut f) g ∧
      ∀ no, g.uses (.arg no) ≠ [] → UsesArg f no := by
  have hentry : f.entry ∈ f.blocks := List.mem_cons_self
  have hterm₀ := hf.terminated.terminator hentry
  have hold : ∀ b ∈ f.blocks, f.termOf b ∈ f.instrs := fun b hb =>
    Func.mem_instrs hb (by rw [(hf.terminated b hb).1]; simp)
  have hlt := (hf.allocated _ (hold _ hentry)).1
  obtain ⟨s, L, hs, hinv, hkeys, hbase, hphi_lt, hpairs, hblk⟩ := run_phases hf
  have hstart := (hc.tracked fun i hi => (hf.allocated i hi).1).deleteInstr f.entry hlt
  have hu := PhiUses.of_input hf (f.termOf f.entry)
  generalize hf₁ : f.deleteInstr f.entry (f.termOf f.entry) = f₁ at *
  have hins₁ : f₁.instr = f.instr := by rw [← hf₁, Func.deleteInstr_instr]
  have hcfg₁ : f₁.toCfg = f.toCfg := by rw [← hf₁, Func.deleteInstr_toCfg]
  have hnext₁ : f₁.next = f.next := by rw [← hf₁, Func.deleteInstr_next]
  have hblocks₁ : f₁.blocks = f.blocks := by unfold Cfg.blocks; rw [hcfg₁]
  have hkeeps : Keeps f f₁ (fun j => False ∨ j = f.termOf f.entry) ⟨f₁, []⟩ := by
    refine ⟨hstart, hcfg₁, Nat.le_refl _, fun _ _ => rfl, fun p hp => by simp at hp,
      fun b hb i hi hphi => ⟨hu.lt b (by rwa [hblocks₁]) i hi, fun u hmem hD => ?_⟩, fun _ => rfl⟩
    -- a recorded use of a phi is a use, so the terminator of the entry has none left
    have hsound := hu.sound b (by rwa [hblocks₁]) i hi hphi u hmem
    rw [← hf₁] at hmem
    rw [hins₁, hD.resolve_left id] at hsound
    exact ((Func.mem_deleteInstr_uses _ _ _).mp hmem).2 (List.mem_of_getElem? hsound)
      (hD.resolve_left id)
  have hend := Keeps.foldl_visitBlock (Nat.le_of_eq hnext₁.symm) f.blocks _ (fun _ hb => hb) hkeeps
  rw [hs] at hend
  have hblocks₂ : (s.f.addInstruction f.entry (f.termOf f.entry)).blocks = f.blocks := by
    unfold Cfg.blocks
    rw [Func.addInstruction_toCfg, hend.cfg]
  obtain ⟨g, hrun, ht, ha⟩ := foldlM_storePhi_tracked hbase hblocks₂ (ord.enum s.phi2alloca) [] _ _
    (fun p hp => by
      have hp' := ord.mem_enum.mp hp
      refine ⟨Nat.lt_of_lt_of_le (hphi_lt p hp') hinv.next, fun q hq => ?_⟩
      rw [hpairs p hp'] at hq
      rw [hblocks₂]
      exact hblk p hp' q hq)
    (Moved.start hbase)
    (hend.tracked.addInstruction f.entry
      ⟨Or.inl (hold _ hentry), Nat.lt_of_lt_of_le (hnext₁ ▸ hlt) hend.next⟩)
  have hphis : ∀ p, p ∈ s.phi2alloca.map Prod.fst ↔ p ∈ f.instrs ∧ isPhi f p = true := fun p => by
    rw [hkeys, List.mem_filter]
  refine ⟨g, ?_, ?_, fun no hno => ?_⟩
  · unfold run
    rw [hterm₀]
    simp only [hf₁, hs]
    exact hrun
  · have hD : (fun t => (False ∨ t = f.termOf f.entry) ∨ ∃ p ∈ ord.enum s.phi2alloca,
        ∃ q ∈ ((s.f.addInstruction f.entry (f.termOf f.entry)).instr p.1).phiPairs,
          t = f.termOf q.2) = TakenOut f := by
      funext t
      rw [false_or]
      refine propext (or_congr Iff.rfl ⟨?_, ?_⟩)
      · rintro ⟨p, hp, q, hq, rfl⟩
        have hp' := ord.mem_enum.mp hp
        obtain ⟨hpi, hphi⟩ := (hphis p.1).mp (List.mem_map_of_mem hp')
        have hmem := List.mem_map_of_mem (f := Prod.snd) (hpairs p hp' ▸ hq)
        rw [(pairsOf_renamed_arg hf hins₁ L hpi hphi).1] at hmem
        obtain ⟨q', hq', hqq⟩ := List.mem_map.mp hmem
        exact ⟨p.1, hpi, hphi, q', hq', by rw [hqq]⟩
      · rintro ⟨p, hpi, hphi, q, hq, rfl⟩
        obtain ⟨p', hp', rfl⟩ := List.mem_map.mp ((hphis p).mpr ⟨hpi, hphi⟩)
        have hmem := List.mem_map_of_mem (f := Prod.snd) hq
        rw [← (pairsOf_renamed_arg hf hins₁ L hpi hphi).1, ← hpairs p' hp'] at hmem
        obtain ⟨q', hq', hqq⟩ := List.mem_map.mp hmem
        exact ⟨p', ord.mem_enum.mpr hp', q', hq', by rw [hqq]⟩
    exact hD ▸ ht
  · rcases ha no hno with hno | ⟨p, hp, q, hq, hqa⟩
    · rw [Func.addInstruction_uses, hend.args no] at hno
      obtain ⟨u, hu'⟩ := List.exists_mem_of_ne_nil _ hno
      rw [← hf₁] at hu'
      exact hargs no (List.ne_nil_of_mem ((Func.mem_deleteInstr_uses _ _ _).mp hu').1)
    · have hp' := ord.mem_enum.mp hp
      obtain ⟨hpi, hphi⟩ := (hphis p.1).mp (List.mem_map_of_mem hp')
      rw [hpairs p hp'] at hq
      obtain ⟨q', hq', hqa'⟩ := ((pairsOf_renamed_arg hf hins₁ L hpi hphi).2 no).mp ⟨q, hq, hqa⟩
      refine ⟨p.1, hpi, ?_⟩
      rw [(hf.pairs p.1 hpi hphi).1]
      exact List.mem_flatMap.mpr ⟨q', hq', by simp [hqa']⟩

end Cminusfc.Codegen.PhiElim
