import Cminusfc.LightIR.Exec
import Cminusfc.Codegen.PhiElimShape

/-!
# When `PhiElim::run` is correct

A phi is replaced through its use list, so an operand that holds a phi without being recorded there
keeps the erased phi. `Recorded` says that there is no such operand; `run_eliminates_iff` says that
this is exactly when the result is what it should be, a function without phis that behaves the same.

The simulation goes block by block. `Same` relates the frames: the register of a phi is that of its
load. On an edge the cells of the phis behind it hold what the phis are about to read (`Pending`);
at any other time a cell means nothing, so it does not matter that cells are also written on the way
to blocks that do not hold the phi.

About `src/codegen/phi_elim.cpp` 15-60. Out of scope: what the code generator makes of the result.
-/

namespace Cminusfc.Codegen.PhiElim

open Cminusfc.LightIR

/-- Every operand that holds a phi is in the use list of the phi, and the entry's terminator, whose
uses are dropped first, has none. -/
def Recorded (f : Func) : Prop :=
  ∀ u ∈ f.instrs, ∀ no p, (f.instr u).operands[no]? = some (.instr p) → p ∈ f.instrs →
    isPhi f p = true → (u, no) ∈ f.uses (.instr p) ∧ u ≠ f.termOf f.entry

/-- `g` has no phi, names none of the phis of `f`, and every run of `g` is a run of `f` for some
choice of the values that `f` leaves open. -/
structure Eliminates (f g : Func) : Prop where
  no_phi : ∀ b ∈ g.blocks, ∀ i ∈ g.body b, isPhi g i = false ∧
    ∀ p ∈ f.instrs, isPhi f p = true → Value.instr p ∉ (g.instr i).operands
  same : ∀ (Val World : Type) (M : Machine Val World) (w : World) (arb' : Nat → InstrId → Val),
    ∃ arb, ∀ n, f.observe M arb w n = g.observe M arb' w n

variable {f g : Func} {n : InstrId} {L : Renaming} {pa : List (InstrId × InstrId)}
  {moves : List Move} {b : BlockId}

/-- The shape of the result. -/
abbrev Result (f g : Func) (n : InstrId) (L : Renaming) (pa : List (InstrId × InstrId))
    (moves : List Move) : Prop :=
  Shape f (f.deleteInstr f.entry (f.termOf f.entry)) g n L pa moves

/-! ## What is recorded -/

/-- The slot of a user that holds a phi is still recorded when the first loop starts. -/
theorem recorded_iff {u p : InstrId} {no : Nat}
    (hu : (f.instr u).operands[no]? = some (.instr p)) :
    (u, no) ∈ (f.deleteInstr f.entry (f.termOf f.entry)).uses (.instr p) ↔
      (u, no) ∈ f.uses (.instr p) ∧ u ≠ f.termOf f.entry := by
  rw [Func.mem_deleteInstr_uses]
  refine and_congr_right fun _ => ⟨fun h hut => ?_, fun h _ => h⟩
  subst hut
  exact h (List.mem_of_getElem? hu) rfl

/-- The renaming of operands. -/
def renameValue (L : Renaming) : Value → Value
  | .instr i => .instr (rename L i)
  | v => v

theorem Shape.rename_of_not_phi (hs : Result f g n L pa moves) {i : InstrId}
    (h : ¬ (i ∈ f.instrs ∧ isPhi f i = true)) : L i = none := by
  cases hl : L i with
  | none => rfl
  | some l => exact absurd ((hs.dom i).mp (by rw [hl]; rfl)) h

theorem Shape.renamed_eq (hs : Result f g n L pa moves) (hrec : Recorded f) {u : InstrId}
    (hu : u ∈ f.instrs) :
    renamed (f.deleteInstr f.entry (f.termOf f.entry)) L u =
      (f.instr u).operands.map (renameValue L) := by
  unfold renamed
  apply List.ext_getElem?
  intro no
  rw [Func.deleteInstr_instr, List.getElem?_mapIdx, List.getElem?_map]
  cases hv : (f.instr u).operands[no]? with
  | none => rfl
  | some v =>
    cases v with
    | instr p =>
      simp only [Option.map_some, renameSlot, renameValue]
      by_cases hp : p ∈ f.instrs ∧ isPhi f p = true
      · rw [if_pos ((recorded_iff hv).mpr (hrec u hu no p hv hp.1 hp.2))]
      · have hid : rename L p = p := by simp [rename, hs.rename_of_not_phi hp]
        rw [hid, ite_self]
    | _ => rfl

/-- A slot that is not recorded keeps its phi. -/
theorem renamed_of_not_recorded {u p : InstrId} {no : Nat}
    (hu : (f.instr u).operands[no]? = some (.instr p))
    (hnot : ¬ ((u, no) ∈ f.uses (.instr p) ∧ u ≠ f.termOf f.entry)) :
    (renamed (f.deleteInstr f.entry (f.termOf f.entry)) L u)[no]? = some (.instr p) := by
  unfold renamed
  rw [Func.deleteInstr_instr, List.getElem?_mapIdx, hu]
  simp only [Option.map_some, renameSlot]
  rw [if_neg fun h => hnot ((recorded_iff hu).mp h)]

theorem Input.lt (hf : Input f) {i : InstrId} (hb : b ∈ f.blocks) (hi : i ∈ f.body b) :
    i < f.next :=
  (hf.allocated i (Func.mem_instrs hb hi)).1

theorem Shape.blocks (hs : Result f g n L pa moves) : g.blocks = f.blocks := by
  unfold Cfg.blocks
  rw [hs.cfg]

/-- Store number `j` stands in the block of move number `j`. -/
theorem Shape.store_mem (hs : Result f g n L pa moves) {j : Nat} (hj : j < moves.length)
    (hb : moves[j].2.2 ∈ f.blocks) : n + j ∈ g.body moves[j].2.2 := by
  rw [hs.body _ hb]
  refine List.mem_append_left _ (List.mem_append_right _ ?_)
  unfold storeIds
  refine List.mem_map.mpr ⟨(moves[j], n + j), List.mem_filter.mpr ⟨?_, by simp⟩, rfl⟩
  rw [List.mk_mem_zipIdx_iff_le_and_getElem?_sub]
  refine ⟨Nat.le_add_right _ _, ?_⟩
  rw [Nat.add_sub_cancel_left, List.getElem?_eq_getElem hj]

/-- **Nothing but recorded phis can be eliminated.** -/
theorem Shape.recorded_of_no_phi (hf : Input f) (hs : Result f g n L pa moves)
    (h : ∀ b ∈ g.blocks, ∀ i ∈ g.body b, isPhi g i = false ∧
      ∀ p ∈ f.instrs, isPhi f p = true → Value.instr p ∉ (g.instr i).operands) : Recorded f := by
  intro u hu no p hno hp hphi
  by_contra hnot
  have hkept := renamed_of_not_recorded (L := L) hno hnot
  obtain ⟨b, hb, hub⟩ := List.mem_flatMap.mp hu
  have hult := hf.lt hb hub
  by_cases huphi : isPhi f u = true
  · -- the phi `u` reads `p` along some edge, and a store of `p` was made for it
    obtain ⟨hops, -, hblk⟩ := hf.pairs u hu huphi
    have hpairs : ∃ q ∈ Instr.pairsOf (renamed (f.deleteInstr f.entry (f.termOf f.entry)) L u),
        q.1 = .instr p ∧ q.2 ∈ f.blocks := by
      unfold renamed at hkept ⊢
      rw [Func.deleteInstr_instr, hops, mapIdx_flatMap_pairs _ (fun _ _ => rfl)] at hkept ⊢
      rw [pairsOf_flatMap]
      obtain ⟨q, hq, hmem⟩ := List.mem_flatMap.mp (List.mem_of_getElem? hkept)
      refine ⟨q, hq, ?_, ?_⟩
      · simp only [List.mem_cons, List.not_mem_nil, or_false, reduceCtorEq] at hmem
        exact hmem.symm
      · obtain ⟨k, hk, rfl⟩ := List.mem_mapIdx.mp hq
        exact hblk (f.instr u).phiPairs[k] (List.getElem_mem hk)
    obtain ⟨q, hq, hqv, hqb⟩ := hpairs
    obtain ⟨⟨u', a⟩, hua, rfl⟩ := List.mem_map.mp ((hs.keys u).mpr ⟨hu, huphi⟩)
    have hmove : (a, q.1, q.2) ∈ moves :=
      hs.moves_perm.mem_iff.mpr (List.mem_flatMap.mpr
        ⟨(u', a), hua, List.mem_map.mpr ⟨q, hq, rfl⟩⟩)
    obtain ⟨j, hj, hjm⟩ := List.getElem_of_mem hmove
    have hmem := hs.store_mem hj (by rw [hjm]; exact hqb)
    rw [hjm] at hmem
    refine (h q.2 (by rwa [hs.blocks]) (n + j) hmem).2 p hp hphi ?_
    rw [hs.store j hj, hjm, hqv]
    exact List.mem_cons_self
  · rw [Bool.not_eq_true] at huphi
    have hid : rename L u = u := by
      simp [rename, hs.rename_of_not_phi fun h => by rw [huphi] at h; cases h.2]
    have hmem : u ∈ g.body b := by
      rw [hs.body b hb]
      rw [(hf.terminated b hb).1] at hub
      rcases List.mem_append.mp hub with hub | hub
      · refine List.mem_append_left _ (List.mem_append_left _ (List.mem_append_left _ ?_))
        exact List.mem_map.mpr ⟨u, hub, hid⟩
      · exact List.mem_append_right _ hub
    refine (h b (by rwa [hs.blocks]) u hmem).2 p hp hphi ?_
    rw [hs.old u hult]
    exact List.mem_of_getElem? hkept

/-! ## The renaming -/

theorem Shape.rename_old (hs : Result f g n L pa moves) {i : InstrId}
    (h : isPhi f i = false) : rename L i = i := by
  simp [rename, hs.rename_of_not_phi fun h' => by rw [h] at h'; cases h'.2]

/-- The load of a phi. -/
theorem Shape.rename_phi (hs : Result f g n L pa moves) {p : InstrId} (hp : p ∈ f.instrs)
    (hphi : isPhi f p = true) : ∃ a b, (p, a) ∈ pa ∧ f.next ≤ rename L p ∧ rename L p < n ∧
      g.instr (rename L p) =
        { op := .load, ty := (f.instr p).ty, operands := [.instr a], parent := b } := by
  obtain ⟨l, hl⟩ := Option.isSome_iff_exists.mp ((hs.dom p).mpr ⟨hp, hphi⟩)
  obtain ⟨h1, h2, a, b, ha, hi⟩ := hs.load p l hl
  have hid : rename L p = l := by simp [rename, hl]
  rw [hid]
  exact ⟨a, b, ha, h1, h2, hi⟩

theorem Shape.alloca_unique (hs : Result f g n L pa moves) {p a a' : InstrId}
    (h : (p, a) ∈ pa) (h' : (p, a') ∈ pa) : a = a' :=
  (Prod.mk.inj (List.inj_on_of_nodup_map hs.keys_nodup h h' rfl)).2

theorem Shape.key_unique (hs : Result f g n L pa moves) {p p' a : InstrId}
    (h : (p, a) ∈ pa) (h' : (p', a) ∈ pa) : p = p' :=
  (Prod.mk.inj (List.inj_on_of_nodup_map hs.ids h h' rfl)).1

theorem Shape.rename_inj (hs : Result f g n L pa moves) {i j : InstrId} (hi : i < f.next)
    (hj : j < f.next) (h : rename L i = rename L j) : i = j := by
  have hlow : ∀ k l, L k = some l → f.next ≤ rename L k := by
    intro k l hl
    simpa [rename, hl] using (hs.load k l hl).1
  cases hli : L i with
  | none =>
    have hi' : rename L i = i := by simp [rename, hli]
    cases hlj : L j with
    | none => simpa [rename, hli, hlj] using h
    | some l =>
      have := hlow j l hlj
      rw [← h, hi'] at this
      exact absurd hi (Nat.not_lt.mpr this)
  | some l =>
    cases hlj : L j with
    | none =>
      have hj' : rename L j = j := by simp [rename, hlj]
      have := hlow i l hli
      rw [h, hj'] at this
      exact absurd hj (Nat.not_lt.mpr this)
    | some l' =>
      obtain rfl : l = l' := by simpa [rename, hli, hlj] using h
      obtain ⟨-, -, a, b, ha, hins⟩ := hs.load i l hli
      obtain ⟨-, -, a', b', ha', hins'⟩ := hs.load j l hlj
      rw [hins] at hins'
      obtain rfl : a = a' := by simpa using congrArg Instr.operands hins'
      exact hs.key_unique ha ha'

/-- An alloca of the pass is no register of the frame that `f` knows. -/
theorem Shape.rename_ne_alloca (hs : Result f g n L pa moves) {p a i : InstrId}
    (ha : (p, a) ∈ pa) (hi : i < f.next) : rename L i ≠ a := by
  obtain ⟨h1, -, hins⟩ := hs.alloca p a ha
  cases hl : L i with
  | none =>
    have hid : rename L i = i := by simp [rename, hl]
    rw [hid]
    exact InstrId.ne_of_lt_of_le hi h1
  | some l =>
    have hid : rename L i = l := by simp [rename, hl]
    rw [hid]
    rintro rfl
    obtain ⟨-, -, a', b, -, hins'⟩ := hs.load i l hl
    rw [hins] at hins'
    cases congrArg Instr.op hins'

/-- An alloca of the pass is a cell of its own. -/
theorem Shape.cell_alloca (hf : Input f) (hs : Result f g n L pa moves) {p a : InstrId}
    (ha : (p, a) ∈ pa) : g.cell (.instr a) = some a := by
  obtain ⟨-, -, hins⟩ := hs.alloca p a ha
  obtain ⟨hp, hphi⟩ := (hs.keys p).mp (List.mem_map_of_mem ha)
  simp [Func.cell, hins, Ty.pointerElementType, hf.scalar p hp hphi]

/-- Renaming keeps the cells an operand names. -/
theorem Shape.cell_rename (hs : Result f g n L pa moves) {v : Value}
    (hv : ∀ j, v = .instr j → j < f.next) : g.cell (renameValue L v) = f.cell v := by
  cases v with
  | instr j =>
    have hj := hv j rfl
    by_cases hphi : j ∈ f.instrs ∧ isPhi f j = true
    · obtain ⟨a, b, -, -, -, hins⟩ := hs.rename_phi hphi.1 hphi.2
      have hop : (f.instr j).op = .phi := by simpa [isPhi] using hphi.2
      simp [Func.cell, renameValue, hins, hop]
    · have hid : rename L j = j := by simp [rename, hs.rename_of_not_phi hphi]
      simp [Func.cell, renameValue, hid, hs.old j hj]
  | _ => rfl

/-! ## Related frames -/

section Simulation

variable {Val World : Type} {M : Machine Val World}

/-- The frame `d` of `g` stands for the frame `c` of `f`. -/
structure Same (f : Func) (L : Renaming) (c d : State Val World) : Prop where
  world : d.world = c.world
  regs : ∀ i < f.next, d.regs (rename L i) = c.regs i
  slots : ∀ a < f.next, d.slots a = c.slots a

variable {c d : State Val World}

theorem Same.eval (h : Same f L c d) {v : Value} (hv : ∀ j, v = .instr j → j < f.next) :
    Func.eval M d (renameValue L v) = Func.eval M c v := by
  cases v with
  | instr j => exact h.regs j (hv j rfl)
  | _ => rfl

theorem Same.map_eval (h : Same f L c d) {vs : List Value}
    (hvs : ∀ j, Value.instr j ∈ vs → j < f.next) :
    (vs.map (renameValue L)).map (Func.eval M d) = vs.map (Func.eval M c) := by
  rw [List.map_map]
  refine List.map_congr_left fun v hv => ?_
  exact h.eval fun j hj => hvs j (hj ▸ hv)

theorem Same.setReg (hs : Result f g n L pa moves) (h : Same f L c d) {i : InstrId}
    (hi : i < f.next) (v : Val) (w : World) :
    Same f L { Func.setReg c i v with world := w }
      { Func.setReg d (rename L i) v with world := w } := by
  refine ⟨rfl, fun j hj => ?_, h.slots⟩
  simp only [Func.setReg]
  by_cases hij : j = i
  · subst hij
    simp
  · have hne : rename L j ≠ rename L i := fun he => hij (hs.rename_inj hj hi he)
    rw [Function.update_of_ne hij, Function.update_of_ne hne]
    exact h.regs j hj

theorem Same.setSlot (h : Same f L c d) (a : InstrId) (v : Val) :
    Same f L (Func.setSlot c a v) (Func.setSlot d a v) := by
  refine ⟨h.world, h.regs, fun j hj => ?_⟩
  simp only [Func.setSlot]
  by_cases hja : j = a
  · subst hja
    simp
  · rw [Function.update_of_ne hja, Function.update_of_ne hja]
    exact h.slots j hj

/-- One old instruction other than a phi and a terminator. -/
theorem Same.execInstr (hf : Input f) (hs : Result f g n L pa moves) (hrec : Recorded f)
    (h : Same f L c d) {i : InstrId} (hi : i ∈ f.instrs) (hphi : isPhi f i = false) :
    (f.execInstr M i c = none ∧ g.execInstr M i d = none) ∨
      ∃ c' d', f.execInstr M i c = some c' ∧ g.execInstr M i d = some d' ∧ Same f L c' d' := by
  obtain ⟨hlt, hops⟩ := hf.allocated i hi
  have hins : g.instr i = { f.instr i with operands := (f.instr i).operands.map (renameValue L) } := by
    rw [hs.old i hlt, hs.renamed_eq hrec hi]
  have hmatched : Func.Matched M f g i c d := by
    refine Func.execInstr_matched (by rw [hins]) (by rw [hins]) (by rw [hins]) ?_ ?_ ?_ h.world ?_
    · rw [hins]
      exact h.map_eval hops
    · rw [hins, List.map_map]
      refine List.map_congr_left fun v hv => ?_
      exact hs.cell_rename fun j hj => hops j (hj ▸ hv)
    · intro l hl a ha
      rw [Func.cell_some ha] at hl
      exact h.slots a (hops a hl)
    · simpa [isPhi] using hphi
  cases hmatched with
  | fault hc hd => exact Or.inl ⟨hc, hd⟩
  | reg v w hc hd =>
    have hsame := h.setReg hs hlt v w
    rw [hs.rename_old hphi] at hsame
    exact Or.inr ⟨_, _, hc, hd, hsame⟩
  | slot a v l hl ha hc hd => exact Or.inr ⟨_, _, hc, hd, h.setSlot a v⟩

/-- The part of a block behind its phis, up to the terminator. -/
theorem Same.execBody (hf : Input f) (hs : Result f g n L pa moves) (hrec : Recorded f)
    {is : List InstrId} (his : ∀ i ∈ is, i ∈ f.instrs ∧ isPhi f i = false ∧
      (f.instr i).isTerminator = false) (h : Same f L c d) (tail tail' : List InstrId) :
    (∃ w, f.execBody M (is ++ tail) c = .done (.fault w) ∧
      g.execBody M (is ++ tail') d = .done (.fault w)) ∨
      ∃ c' d', f.execBody M (is ++ tail) c = f.execBody M tail c' ∧
        g.execBody M (is ++ tail') d = g.execBody M tail' d' ∧ Same f L c' d' := by
  induction is generalizing c d with
  | nil => exact Or.inr ⟨c, d, rfl, rfl, h⟩
  | cons i is ih =>
    obtain ⟨hi, hphi, hterm⟩ := his i List.mem_cons_self
    have hterm' : (g.instr i).isTerminator = false := by
      rw [hs.old i (hf.allocated i hi).1]
      exact hterm
    rw [List.cons_append, List.cons_append]
    rcases h.execInstr hf hs hrec hi hphi with ⟨hc, hd⟩ | ⟨c', d', hc, hd, h'⟩
    · refine Or.inl ⟨c.world, Func.execBody_none hterm hc _, ?_⟩
      rw [Func.execBody_none hterm' hd, h.world]
    · rw [Func.execBody_some hterm hc, Func.execBody_some hterm' hd]
      exact ih (fun j hj => his j (List.mem_cons_of_mem _ hj)) h'

/-- The allocas of the pass leave the frame as it is. -/
theorem Same.execAllocas (hs : Result f g n L pa moves) (as : List InstrId)
    (has : ∀ a ∈ as, a ∈ pa.map Prod.snd) (h : Same f L c d) (tail : List InstrId) :
    ∃ d', g.execBody M (as ++ tail) d = g.execBody M tail d' ∧ Same f L c d' := by
  induction as generalizing d with
  | nil => exact ⟨d, rfl, h⟩
  | cons a as ih =>
    obtain ⟨⟨p, a⟩, hpa, rfl⟩ := List.mem_map.mp (has a List.mem_cons_self)
    obtain ⟨-, -, hins⟩ := hs.alloca p a hpa
    have hstep : Same f L c (Func.setReg d a (M.addr a)) := by
      refine ⟨h.world, fun i hi => ?_, h.slots⟩
      rw [← h.regs i hi]
      exact Function.update_of_ne (hs.rename_ne_alloca hpa hi) _ _
    obtain ⟨d', hd', h'⟩ := ih (fun x hx => has x (List.mem_cons_of_mem _ hx)) hstep
    refine ⟨d', ?_, h'⟩
    rw [List.cons_append, Func.execBody_some (by simp [hins, Instr.isTerminator])
      (Func.execInstr_alloca (by rw [hins]) d)]
    exact hd'

/-- The loads in the place of phis. -/
theorem execLoads (hf : Input f) (hs : Result f g n L pa moves) {ps : List InstrId}
    (hps : ∀ p ∈ ps, p ∈ f.instrs ∧ isPhi f p = true) (d : State Val World) (tail : List InstrId) :
    ∃ d', g.execBody M (ps.map (rename L) ++ tail) d = g.execBody M tail d' ∧
      d'.world = d.world ∧ d'.slots = d.slots ∧
      (∀ i < f.next, i ∉ ps → d'.regs (rename L i) = d.regs (rename L i)) ∧
      ∀ p ∈ ps, ∀ a, (p, a) ∈ pa → d'.regs (rename L p) = d.slots a := by
  induction ps generalizing d with
  | nil => exact ⟨d, rfl, rfl, rfl, fun _ _ _ => rfl, by simp⟩
  | cons p ps ih =>
    obtain ⟨hp, hphi⟩ := hps p List.mem_cons_self
    obtain ⟨a, b, ha, hle, -, hins⟩ := hs.rename_phi hp hphi
    have hplt := (hf.allocated p hp).1
    obtain ⟨d', h1, h2, h3, h4, h5⟩ := ih (fun q hq => hps q (List.mem_cons_of_mem _ hq))
      (Func.setReg d (rename L p) (d.slots a))
    refine ⟨d', ?_, h2, h3, fun i hi hnot => ?_, fun q hq a' ha' => ?_⟩
    · rw [List.map_cons, List.cons_append,
        Func.execBody_some (by simp [hins, Instr.isTerminator])
          (Func.execInstr_load (by rw [hins]) (by rw [hins]) (hs.cell_alloca hf ha) d)]
      exact h1
    · rw [List.mem_cons, not_or] at hnot
      rw [h4 i hi hnot.2]
      exact Function.update_of_ne (fun he => hnot.1 (hs.rename_inj hi hplt he)) _ _
    · by_cases hqp : q ∈ ps
      · exact h5 q hqp a' ha'
      · obtain rfl : q = p := (List.mem_cons.mp hq).resolve_right hqp
        rw [h4 q hplt hqp, hs.alloca_unique ha' ha]
        simp [Func.setReg]

/-- The stores in front of a terminator. -/
theorem execStores (hf : Input f) (hs : Result f g n L pa moves) {ms : List (Move × InstrId)}
    (hms : ∀ m ∈ ms, (g.instr m.2).op = .store ∧
      (g.instr m.2).operands = [m.1.2.1, .instr m.1.1] ∧ m.1.1 ∈ pa.map Prod.snd)
    (hnd : (ms.map fun m => m.1.1).Nodup) (d : State Val World) (tail : List InstrId) :
    ∃ d', g.execBody M (ms.map Prod.snd ++ tail) d = g.execBody M tail d' ∧
      d'.world = d.world ∧ d'.regs = d.regs ∧
      (∀ a, a ∉ (ms.map fun m => m.1.1) → d'.slots a = d.slots a) ∧
      ∀ m ∈ ms, d'.slots m.1.1 = Func.eval M d m.1.2.1 := by
  induction ms generalizing d with
  | nil => exact ⟨d, rfl, rfl, rfl, fun _ _ => rfl, by simp⟩
  | cons m ms ih =>
    obtain ⟨hop, hargs, hma⟩ := hms m List.mem_cons_self
    obtain ⟨⟨p, a⟩, hpa, ha⟩ := List.mem_map.mp hma
    rw [List.map_cons] at hnd
    obtain ⟨hfresh, hnd'⟩ := List.nodup_cons.mp hnd
    have hcell : g.cell (.instr m.1.1) = some m.1.1 := ha ▸ hs.cell_alloca hf hpa
    obtain ⟨d', h1, h2, h3, h4, h5⟩ := ih (fun x hx => hms x (List.mem_cons_of_mem _ hx)) hnd'
      (Func.setSlot d m.1.1 (Func.eval M d m.1.2.1))
    have heval : ∀ v, Func.eval M (Func.setSlot d m.1.1 (Func.eval M d m.1.2.1)) v =
        Func.eval M d v := by
      intro v
      cases v <;> rfl
    refine ⟨d', ?_, h2, h3, fun x hx => ?_, fun x hx => ?_⟩
    · rw [List.map_cons, List.cons_append,
        Func.execBody_some (by simp [hop, Instr.isTerminator]) (Func.execInstr_store hop hargs hcell d)]
      exact h1
    · rw [List.map_cons, List.mem_cons, not_or] at hx
      rw [h4 x hx.2]
      exact Function.update_of_ne hx.1 _ _
    · rcases List.mem_cons.mp hx with rfl | hx
      · rw [h4 _ hfresh]
        simp [Func.setSlot]
      · rw [h5 x hx, heval]

end Simulation

/-! ## The moves of a block -/

theorem pairsOf_renamed (hf : Input f) (hs : Result f g n L pa moves) (hrec : Recorded f)
    {p : InstrId} (hp : p ∈ f.instrs) (hphi : isPhi f p = true) :
    Instr.pairsOf (renamed (f.deleteInstr f.entry (f.termOf f.entry)) L p) =
      (f.instr p).phiPairs.map fun q => (renameValue L q.1, q.2) := by
  have hmap : (f.instr p).operands.map (renameValue L) =
      ((f.instr p).phiPairs.map fun q => (renameValue L q.1, q.2)).flatMap
        fun q => [q.1, .block q.2] := by
    rw [(hf.pairs p hp hphi).1, List.map_flatMap, List.flatMap_map]
    rfl
  rw [hs.renamed_eq hrec hp, hmap, pairsOf_flatMap]

/-- A phi with a pair for `b` has its move in `b`. -/
theorem Shape.mem_moves (hf : Input f) (hs : Result f g n L pa moves) (hrec : Recorded f)
    {p a : InstrId} (ha : (p, a) ∈ pa) {q : Value × BlockId} (hq : q ∈ (f.instr p).phiPairs) :
    (a, renameValue L q.1, q.2) ∈ moves := by
  obtain ⟨hp, hphi⟩ := (hs.keys p).mp (List.mem_map_of_mem ha)
  refine hs.moves_perm.mem_iff.mpr (List.mem_flatMap.mpr ⟨(p, a), ha, ?_⟩)
  rw [pairsOf_renamed hf hs hrec hp hphi]
  exact List.mem_map.mpr ⟨_, List.mem_map_of_mem hq, rfl⟩

/-- In one block every cell is written at most once, since a phi has one pair for it. -/
theorem Shape.moves_nodup (hf : Input f) (hs : Result f g n L pa moves) (hrec : Recorded f)
    (b : BlockId) : ((moves.filter fun m => m.2.2 = b).map Prod.fst).Nodup := by
  refine ((hs.moves_perm.filter _).map Prod.fst).nodup_iff.mpr ?_
  rw [List.filter_flatMap, List.map_flatMap]
  refine List.nodup_flatMap.mpr ⟨fun p hp => ?_, ?_⟩
  · obtain ⟨p, a⟩ := p
    obtain ⟨hpi, hphi⟩ := (hs.keys p).mp (List.mem_map_of_mem hp)
    rw [pairsOf_renamed hf hs hrec hpi hphi, List.map_map, List.filter_map, List.map_map]
    have hlen : ((f.instr p).phiPairs.filter fun q => q.2 = b).length ≤ 1 := by
      have hcount : ((f.instr p).phiPairs.map Prod.snd).count b ≤ 1 :=
        List.nodup_iff_count_le_one.mp (hf.pairs p hpi hphi).2.1 b
      rw [List.count, List.countP_map] at hcount
      rw [← List.countP_eq_length_filter]
      refine Nat.le_trans (Nat.le_of_eq (List.countP_congr fun q _ => ?_)) hcount
      simp
    have hconst : ∀ l : List (Value × BlockId), l.length ≤ 1 →
        (l.map fun _ => a).Nodup := by
      intro l hl
      match l with
      | [] => exact List.nodup_nil
      | [_] => exact List.nodup_singleton _
    exact hconst _ hlen
  · have hids := List.nodup_iff_pairwise_ne.mp hs.ids
    rw [List.pairwise_map] at hids
    refine hids.imp fun {p q} hne => ?_
    intro x hx hy
    obtain ⟨m, hm, rfl⟩ := List.mem_map.mp hx
    obtain ⟨m', hm', heq⟩ := List.mem_map.mp hy
    obtain ⟨k, -, rfl⟩ := List.mem_map.mp (List.mem_filter.mp hm).1
    obtain ⟨k', -, rfl⟩ := List.mem_map.mp (List.mem_filter.mp hm').1
    exact hne heq.symm

/-! ## One block -/

/-- A block is phis, then other instructions, then the terminator. -/
theorem Input.split (hf : Input f) (hb : b ∈ f.blocks) :
    ∃ phis rest, f.initOf b = phis ++ rest ∧ (∀ i ∈ phis, i ∈ f.instrs ∧ isPhi f i = true) ∧
      ∀ i ∈ rest, i ∈ f.instrs ∧ isPhi f i = false ∧ (f.instr i).isTerminator = false := by
  obtain ⟨hbody, hterm, hinit⟩ := hf.terminated b hb
  have hsplit : f.body b = (f.body b).takeWhile (isPhi f) ++ (f.body b).dropWhile (isPhi f) :=
    (List.takeWhile_append_dropWhile).symm
  have hphis : ∀ i ∈ (f.body b).takeWhile (isPhi f), isPhi f i = true :=
    List.all_eq_true.mp List.all_takeWhile
  have hrest := hf.phis_first b hb
  generalize (f.body b).takeWhile (isPhi f) = phis at hsplit hphis
  generalize (f.body b).dropWhile (isPhi f) = rest at hsplit hrest
  have hmem : ∀ i, i ∈ f.body b → i ∈ f.instrs := fun i => Func.mem_instrs hb
  rcases List.eq_nil_or_concat rest with rfl | ⟨rest, t, rfl⟩
  · -- the terminator would be a phi
    rw [List.append_nil] at hsplit
    have ht := hphis (f.termOf b) (by rw [← hsplit, hbody]; simp)
    rw [isPhi_not_terminator ht] at hterm
    cases hterm
  · rw [List.concat_eq_append] at hsplit hrest
    have hcat : f.initOf b ++ [f.termOf b] = (phis ++ rest) ++ [t] := by
      rw [← hbody, hsplit, List.append_assoc]
    obtain ⟨hi, -⟩ := List.append_inj' hcat rfl
    refine ⟨phis, rest, hi, fun i hip => ⟨hmem i ?_, hphis i hip⟩, fun i hir => ⟨hmem i ?_,
      hrest i (List.mem_append_left _ hir), hinit i ?_⟩⟩
    · rw [hsplit]
      exact List.mem_append_left _ hip
    · rw [hsplit]
      exact List.mem_append_right _ (List.mem_append_left _ hir)
    · rw [hi]
      exact List.mem_append_right _ hir

section Block

variable {Val World : Type} {M : Machine Val World} {c d : Func.Config Val World}

/-- What the cells of the phis of a block hold when it is entered from `pred`: the values the phis
read along this edge. -/
def Pending (M : Machine Val World) (f : Func) (pa : List (InstrId × InstrId))
    (c d : Func.Config Val World) : Prop :=
  ∀ p ∈ f.body c.block, isPhi f p = true → ∀ q ∈ (f.instr p).phiPairs, some q.2 = c.pred →
    ∀ a, (p, a) ∈ pa → d.st.slots a = Func.eval M c.st q.1

/-- Where `f` stands and where `g` stands correspond. -/
structure Related (M : Machine Val World) (f : Func) (L : Renaming)
    (pa : List (InstrId × InstrId)) (c d : Func.Config Val World) : Prop where
  block : d.block = c.block
  mem : c.block ∈ f.blocks
  same : Same f L c.st d.st
  pending : Pending M f pa c d

/-- No instruction of the result is a phi. -/
theorem Shape.no_phi (hf : Input f) (hs : Result f g n L pa moves) (hrec : Recorded f)
    (hb : b ∈ f.blocks) {i : InstrId} (hi : i ∈ g.body b) : isPhi g i = false ∧
      ∀ p ∈ f.instrs, isPhi f p = true → Value.instr p ∉ (g.instr i).operands := by
  have hren : ∀ v p, p ∈ f.instrs → isPhi f p = true → renameValue L v ≠ .instr p := by
    rintro v p hp hphi heq
    cases v with
    | instr q =>
      have hq : rename L q = p := Value.instr.inj heq
      have hplt := (hf.allocated p hp).1
      by_cases hqphi : q ∈ f.instrs ∧ isPhi f q = true
      · obtain ⟨a, b, -, hle, -, -⟩ := hs.rename_phi hqphi.1 hqphi.2
        rw [hq] at hle
        exact absurd hplt (Nat.not_lt.mpr hle)
      · have hid : rename L q = q := by simp [rename, hs.rename_of_not_phi hqphi]
        rw [hid] at hq
        exact hqphi (hq ▸ ⟨hp, hphi⟩)
    | _ => cases heq
  have hold : ∀ i ∈ f.body b, isPhi f i = false → isPhi g i = false ∧
      ∀ p ∈ f.instrs, isPhi f p = true → Value.instr p ∉ (g.instr i).operands := by
    intro i hi hphi
    have hins := hs.old i (hf.lt hb hi)
    rw [hs.renamed_eq hrec (Func.mem_instrs hb hi)] at hins
    refine ⟨by simpa [isPhi, hins] using hphi, fun p hp hpp hmem => ?_⟩
    rw [hins] at hmem
    obtain ⟨v, -, hv⟩ := List.mem_map.mp hmem
    exact hren v p hp hpp hv
  have hlow : ∀ a p, f.next ≤ a → p ∈ f.instrs → p ≠ a := fun a p ha hp =>
    InstrId.ne_of_lt_of_le (hf.allocated p hp).1 ha
  obtain ⟨hbody, hterm, -⟩ := hf.terminated b hb
  rw [hs.body b hb] at hi
  rcases List.mem_append.mp hi with hi | hi
  · rcases List.mem_append.mp hi with hi | hi
    · rcases List.mem_append.mp hi with hi | hi
      · obtain ⟨j, hj, rfl⟩ := List.mem_map.mp hi
        have hjb : j ∈ f.body b := by rw [hbody]; exact List.mem_append_left _ hj
        by_cases hphi : isPhi f j = true
        · obtain ⟨a, b', ha, -, -, hins⟩ := hs.rename_phi (Func.mem_instrs hb hjb) hphi
          refine ⟨by simp [isPhi, hins], fun p hp _ hmem => ?_⟩
          rw [hins] at hmem
          exact hlow a p (hs.alloca j a ha).1 hp (by simpa using hmem)
        · rw [Bool.not_eq_true] at hphi
          rw [hs.rename_old hphi]
          exact hold j hjb hphi
      · split at hi
        · obtain ⟨⟨p, a⟩, hpa, rfl⟩ := List.mem_map.mp hi
          obtain ⟨-, -, hins⟩ := hs.alloca p a hpa
          simp [isPhi, hins]
        · exact absurd hi List.not_mem_nil
    · unfold storeIds at hi
      obtain ⟨⟨m, j⟩, hm, rfl⟩ := List.mem_map.mp hi
      obtain ⟨hle, hget⟩ := List.mk_mem_zipIdx_iff_le_and_getElem?_sub.mp (List.mem_filter.mp hm).1
      obtain ⟨hj, hmj⟩ := List.getElem?_eq_some_iff.mp hget
      have hins := hs.store (j - n) hj
      rw [Nat.add_sub_cancel' hle, hmj] at hins
      refine ⟨by simp [isPhi, hins], fun p hp hpp hmem => ?_⟩
      have hmove : m ∈ moves := hmj ▸ List.getElem_mem hj
      obtain ⟨⟨r, a⟩, hra, hmr⟩ := List.mem_flatMap.mp (hs.moves_perm.mem_iff.mp hmove)
      obtain ⟨hr, hrphi⟩ := (hs.keys r).mp (List.mem_map_of_mem hra)
      rw [pairsOf_renamed hf hs hrec hr hrphi, List.map_map] at hmr
      obtain ⟨q, -, rfl⟩ := List.mem_map.mp hmr
      rw [hins] at hmem
      rcases List.mem_cons.mp hmem with hmem | hmem
      · exact hren q.1 p hp hpp hmem.symm
      · exact hlow a p (hs.alloca r a hra).1 hp (by simpa using hmem)
  · obtain rfl := List.mem_singleton.mp hi
    refine hold _ (by rw [hbody]; simp) ?_
    by_contra hphi
    rw [Bool.not_eq_false] at hphi
    rw [isPhi_not_terminator hphi] at hterm
    cases hterm

/-- The terminators of corresponding frames lead to the same place. -/
theorem Same.execTerminator (hf : Input f) (hs : Result f g n L pa moves) (hrec : Recorded f)
    {st st' : State Val World} (h : Same f L st st') (hb : b ∈ f.blocks) :
    (∃ o, Func.execTerminator M (f.instr (f.termOf b)) st = .done o ∧
      Func.execTerminator M (g.instr (f.termOf b)) st' = .done o) ∨
      ∃ t, t ∈ f.blocks ∧ Func.execTerminator M (f.instr (f.termOf b)) st = .jump t st ∧
        Func.execTerminator M (g.instr (f.termOf b)) st' = .jump t st' := by
  obtain ⟨hbody, hterm, -⟩ := hf.terminated b hb
  have hmem : f.termOf b ∈ f.body b := by rw [hbody]; simp
  have hi := Func.mem_instrs hb hmem
  obtain ⟨hlt, hops⟩ := hf.allocated _ hi
  have htargets := hf.targets b hb _ hmem
  have hins := hs.old _ hlt
  rw [hs.renamed_eq hrec hi] at hins
  generalize hx : f.instr (f.termOf b) = x at hterm hops htargets hins
  rw [hins]
  have hblocks : (x.operands.map (renameValue L)).map Value.asBlock =
      x.operands.map Value.asBlock := by
    rw [List.map_map]
    refine List.map_congr_left fun v _ => ?_
    cases v <;> rfl
  obtain ⟨o, h1, h2⟩ | ⟨t, ht, h1, h2⟩ :=
    Func.execTerminator_matched hterm (show x.op = x.op from rfl) (h.map_eval hops) hblocks h.world
      (y := { x with operands := x.operands.map (renameValue L) })
  · exact Or.inl ⟨o, h1, h2⟩
  · exact Or.inr ⟨t, htargets t ht, h1, h2⟩

theorem execPhis {ps : List InstrId} (hps : ∀ p ∈ ps, isPhi f p = true) (st : State Val World)
    (tail : List InstrId) : f.execBody M (ps ++ tail) st = f.execBody M tail st := by
  induction ps with
  | nil => rfl
  | cons p ps ih =>
    have hp := hps p List.mem_cons_self
    rw [List.cons_append, Func.execBody_some (isPhi_not_terminator hp)
      (Func.execInstr_phi (by simpa [isPhi] using hp) st)]
    exact ih fun q hq => hps q (List.mem_cons_of_mem _ hq)

/-- Where there is no phi, entering a block changes nothing. -/
theorem enter_of_no_phi {arb : InstrId → Val} {pred : Option BlockId} {st : State Val World}
    (h : ∀ i ∈ g.body b, isPhi g i = false) : g.enter M arb pred b st = st := by
  unfold Func.enter
  have hregs : (fun i => if i ∈ g.body b ∧ (g.instr i).op = .phi then g.phiValue M arb pred st i
      else st.regs i) = st.regs := by
    funext i
    refine if_neg fun hi => ?_
    have := h i hi.1
    simp [isPhi, hi.2] at this
  rw [hregs]

/-- **The loads read what the phis read.** -/
theorem Related.enter (hf : Input f) (hs : Result f g n L pa moves) (h : Related M f L pa c d)
    {arb : InstrId → Val} (harb : ∀ p a, (p, a) ∈ pa → arb p = d.st.slots a)
    {phis rest : List InstrId} (hinit : f.initOf c.block = phis ++ rest)
    (hphis : ∀ p ∈ phis, p ∈ f.instrs ∧ isPhi f p = true)
    (hrest : ∀ i ∈ rest, isPhi f i = false) (tail : List InstrId) :
    ∃ d', g.execBody M (phis.map (rename L) ++ tail) d.st = g.execBody M tail d' ∧
      Same f L (f.enter M arb c.pred c.block c.st) d' := by
  obtain ⟨d', h1, h2, h3, h4, h5⟩ := execLoads hf hs hphis d.st tail
  refine ⟨d', h1, ⟨h2.trans h.same.world, fun i hi => ?_, fun a ha => ?_⟩⟩
  · simp only [Func.enter]
    by_cases hphi : i ∈ f.body c.block ∧ (f.instr i).op = .phi
    · rw [if_pos hphi]
      have hip : isPhi f i = true := by simp [isPhi, hphi.2]
      have himem := Func.mem_instrs h.mem hphi.1
      have hiphis : i ∈ phis := by
        obtain ⟨hbody, hterm, -⟩ := hf.terminated _ h.mem
        have hi' := hphi.1
        rw [hbody, hinit] at hi'
        rcases List.mem_append.mp hi' with hi' | hi'
        · rcases List.mem_append.mp hi' with hi' | hi'
          · exact hi'
          · rw [hrest i hi'] at hip
            cases hip
        · rw [List.mem_singleton.mp hi'] at hip
          rw [isPhi_not_terminator hip] at hterm
          cases hterm
      obtain ⟨⟨p, a⟩, hpa, rfl⟩ := List.mem_map.mp ((hs.keys i).mpr ⟨himem, hip⟩)
      rw [h5 p hiphis a hpa]
      unfold Func.phiValue
      cases hfind : (f.instr p).phiPairs.find? fun q => some q.2 = c.pred with
      | none => exact (harb p a hpa).symm
      | some q =>
        exact h.pending p hphi.1 hip q (List.mem_of_find?_eq_some hfind)
          (by simpa using List.find?_some hfind) a hpa
    · rw [if_neg hphi]
      have hnot : i ∉ phis := by
        intro hi'
        obtain ⟨hbody, -, -⟩ := hf.terminated _ h.mem
        refine hphi ⟨?_, by simpa [isPhi] using (hphis i hi').2⟩
        rw [hbody, hinit]
        exact List.mem_append_left _ (List.mem_append_left _ hi')
      rw [h4 i hi hnot]
      exact h.same.regs i hi
  · rw [h3]
    exact h.same.slots a ha

/-- **The stores in front of a terminator leave in the cells what the phis will read.** -/
theorem Same.execMoves (hf : Input f) (hs : Result f g n L pa moves) (hrec : Recorded f)
    {st st' : State Val World} (h : Same f L st st') (b : BlockId) (tail : List InstrId) :
    ∃ st₁, g.execBody M (storeIds n moves b ++ tail) st' = g.execBody M tail st₁ ∧
      Same f L st st₁ ∧ ∀ p a, (p, a) ∈ pa → ∀ q ∈ (f.instr p).phiPairs, q.2 = b →
        st₁.slots a = Func.eval M st q.1 := by
  have hms : ∀ m ∈ (moves.zipIdx n).filter fun m => m.1.2.2 = b,
      (g.instr m.2).op = .store ∧ (g.instr m.2).operands = [m.1.2.1, .instr m.1.1] ∧
        m.1.1 ∈ pa.map Prod.snd := by
    rintro ⟨m, j⟩ hm
    obtain ⟨hle, hget⟩ := List.mk_mem_zipIdx_iff_le_and_getElem?_sub.mp (List.mem_filter.mp hm).1
    obtain ⟨hj, hmj⟩ := List.getElem?_eq_some_iff.mp hget
    have hins := hs.store (j - n) hj
    rw [Nat.add_sub_cancel' hle, hmj] at hins
    obtain ⟨p, hp, hmp⟩ := List.mem_flatMap.mp
      (hs.moves_perm.mem_iff.mp (hmj ▸ List.getElem_mem hj))
    obtain ⟨q, -, rfl⟩ := List.mem_map.mp hmp
    exact ⟨by rw [hins], by rw [hins], List.mem_map_of_mem hp⟩
  have hnd : (((moves.zipIdx n).filter fun m => m.1.2.2 = b).map fun m => m.1.1).Nodup := by
    have := hs.moves_nodup hf hrec b
    rw [← List.zipIdx_map_fst n moves, List.filter_map, List.map_map] at this
    exact this
  obtain ⟨st₁, h1, hworld, hregs, hslots, hcells⟩ := execStores (M := M) hf hs hms hnd st' tail
  refine ⟨st₁, h1, ⟨hworld.trans h.world, fun i hi => ?_, fun a ha => ?_⟩, fun p a ha q hq hqb => ?_⟩
  · rw [hregs]
    exact h.regs i hi
  · rw [hslots a fun hmem => ?_]
    · exact h.slots a ha
    · obtain ⟨m, hm, rfl⟩ := List.mem_map.mp hmem
      obtain ⟨p, hp, hpa⟩ := List.mem_map.mp (hms m hm).2.2
      exact InstrId.ne_of_lt_of_le ha (hs.alloca p.1 p.2 hp).1 hpa.symm
  · obtain ⟨hpi, hphi⟩ := (hs.keys p).mp (List.mem_map_of_mem ha)
    obtain ⟨j, hj, hjm⟩ := List.getElem_of_mem (hs.mem_moves hf hrec ha hq)
    have hmem : ((a, renameValue L q.1, q.2), n + j) ∈
        (moves.zipIdx n).filter fun m => m.1.2.2 = b := by
      refine List.mem_filter.mpr ⟨?_, by simp [hqb]⟩
      rw [List.mk_mem_zipIdx_iff_le_and_getElem?_sub]
      refine ⟨Nat.le_add_right _ _, ?_⟩
      rw [Nat.add_sub_cancel_left, List.getElem?_eq_getElem hj, hjm]
    have hqop : q.1 ∈ (f.instr p).operands := by
      rw [(hf.pairs p hpi hphi).1]
      exact List.mem_flatMap.mpr ⟨q, hq, List.mem_cons_self⟩
    rw [hcells _ hmem]
    exact h.eval fun j hj => (hf.allocated p hpi).2 j (hj ▸ hqop)

/-- **One block of `f` and the same block of `g`.** -/
theorem Related.step (hf : Input f) (hs : Result f g n L pa moves) (hrec : Recorded f)
    (h : Related M f L pa c d) (arb arb' : Nat → InstrId → Val) (k : Nat)
    (harb : ∀ p a, (p, a) ∈ pa → arb k p = d.st.slots a) :
    Sum.LiftRel (Related M f L pa) Eq (f.stepBlock M arb k c) (g.stepBlock M arb' k d) := by
  have hb := h.mem
  obtain ⟨hbody, -, -⟩ := hf.terminated _ hb
  obtain ⟨phis, rest, hinit, hphis, hrest⟩ := hf.split hb
  have henter : g.enter M (arb' k) d.pred c.block d.st = d.st :=
    enter_of_no_phi fun i hi => (hs.no_phi hf hrec hb hi).1
  unfold Func.stepBlock
  rw [h.block, henter, hs.body _ hb, hbody, hinit]
  simp only [List.map_append, List.append_assoc]
  rw [execPhis fun p hp => (hphis p hp).2]
  obtain ⟨d₁, hd₁, hsame₁⟩ := h.enter hf hs harb hinit hphis (fun i hi => (hrest i hi).2.1)
    (rest.map (rename L) ++ ((if c.block = f.entry then pa.map Prod.snd else []) ++
      (storeIds n moves c.block ++ [f.termOf c.block])))
  rw [hd₁]
  have hrename : rest.map (rename L) = rest := by
    refine (List.map_congr_left fun i hi => hs.rename_old (hrest i hi).2.1).trans (List.map_id _)
  rw [hrename]
  obtain ⟨w, hw, hw'⟩ | ⟨c₂, d₂, hc₂, hd₂, hsame₂⟩ := hsame₁.execBody (M := M) hf hs hrec hrest
    [f.termOf c.block] ((if c.block = f.entry then pa.map Prod.snd else []) ++
      (storeIds n moves c.block ++ [f.termOf c.block]))
  · rw [hw, hw']
    exact Sum.LiftRel.inr rfl
  · rw [hc₂, hd₂]
    obtain ⟨d₃, hd₃, hsame₃⟩ := hsame₂.execAllocas (M := M) hs
      (if c.block = f.entry then pa.map Prod.snd else []) (fun a ha => by
        split at ha
        · exact ha
        · exact absurd ha List.not_mem_nil) (storeIds n moves c.block ++ [f.termOf c.block])
    rw [hd₃]
    obtain ⟨d₄, hd₄, hsame₄, hcells⟩ := hsame₃.execMoves (M := M) hf hs hrec c.block
      [f.termOf c.block]
    rw [hd₄]
    have hterm := (hf.terminated _ hb).2.1
    have hterm' : (g.instr (f.termOf c.block)).isTerminator = true := by
      rw [hs.old _ (hf.lt hb (by rw [hbody]; simp))]
      exact hterm
    rw [Func.execBody_terminator hterm, Func.execBody_terminator hterm']
    obtain ⟨o, h1, h2⟩ | ⟨t, ht, h1, h2⟩ := hsame₄.execTerminator (M := M) hf hs hrec hb
    · rw [h1, h2]
      exact Sum.LiftRel.inr rfl
    · rw [h1, h2]
      refine Sum.LiftRel.inl ⟨rfl, ht, hsame₄, fun p _ _ q hq hpred a ha => ?_⟩
      exact hcells p a ha q hq (Option.some.inj hpred)

end Block

/-! ## The whole run -/

/-- The result behaves as `f` does when every phi without a pair reads what is left in its cell. -/
theorem Shape.same (hf : Input f) (hs : Result f g n L pa moves) (hrec : Recorded f)
    {Val World : Type} (M : Machine Val World) (w : World) (arb' : Nat → InstrId → Val) :
    ∃ arb, ∀ m, f.observe M arb w m = g.observe M arb' w m := by
  let arb : Nat → InstrId → Val := fun k p =>
    match Lockstep.run (g.stepBlock M arb') 0 k (g.start M w) with
    | .inl d => d.st.slots ((pa.lookup p).getD 0)
    | .inr _ => M.undef
  refine ⟨arb, fun m => ?_⟩
  have hlookup : ∀ p a, (p, a) ∈ pa → (pa.lookup p).getD 0 = a := by
    intro p a ha
    cases hl : pa.lookup p with
    | none =>
      have := List.lookup_eq_none_iff.mp hl (p, a) ha
      simp at this
    | some a' =>
      obtain ⟨l₁, l₂, rfl, -⟩ := List.lookup_eq_some_iff.mp hl
      exact hs.alloca_unique (by simp) ha
  have hstart : Related M f L pa (f.start M w) (g.start M w) := by
    refine ⟨?_, List.mem_cons_self, ⟨rfl, fun _ _ => rfl, fun _ _ => rfl⟩, ?_⟩
    · show g.entry = f.entry
      rw [hs.cfg]
    · intro p _ _ q _ hpred
      cases hpred
  -- the oracle looks at where `g` stands, so the relation remembers it
  have hrun : Sum.LiftRel (fun c d => Related M f L pa c d ∧
      Lockstep.run (g.stepBlock M arb') 0 (0 + m) (g.start M w) = .inl d) Eq
      (Lockstep.run (f.stepBlock M arb) 0 m (f.start M w))
      (Lockstep.run (g.stepBlock M arb') 0 m (g.start M w)) := by
    refine Lockstep.run_lockstep (fun k c d => Related M f L pa c d ∧
      Lockstep.run (g.stepBlock M arb') 0 k (g.start M w) = .inl d)
      (fun k c d ⟨hrel, hd⟩ => ?_) m 0 _ _ ⟨hstart, rfl⟩
    have harb : ∀ p a, (p, a) ∈ pa → arb k p = d.st.slots a := by
      intro p a ha
      simp only [arb, hd, hlookup p a ha]
    have hstep := hrel.step hf hs hrec arb arb' k harb
    cases hc : f.stepBlock M arb k c with
    | inl c' =>
      rw [hc] at hstep
      cases hd' : g.stepBlock M arb' k d with
      | inl d' =>
        rw [hd'] at hstep
        refine Sum.LiftRel.inl ⟨Sum.liftRel_inl_inl.mp hstep, ?_⟩
        rw [Lockstep.run_add hd, Nat.zero_add, Lockstep.run_succ, hd']
        rfl
      | inr o =>
        rw [hd'] at hstep
        cases hstep
    | inr o =>
      rw [hc] at hstep
      cases hd' : g.stepBlock M arb' k d with
      | inl d' =>
        rw [hd'] at hstep
        cases hstep
      | inr o' =>
        rw [hd'] at hstep
        exact Sum.LiftRel.inr (Sum.liftRel_inr_inr.mp hstep)
  unfold Func.observe
  cases hc : Lockstep.run (f.stepBlock M arb) 0 m (f.start M w) with
  | inl c =>
    rw [hc] at hrun
    cases hd : Lockstep.run (g.stepBlock M arb') 0 m (g.start M w) with
    | inl d =>
      rw [hd] at hrun
      have := (Sum.liftRel_inl_inl.mp hrun).1.same.world
      simp [this]
    | inr o =>
      rw [hd] at hrun
      cases hrun
  | inr o =>
    rw [hc] at hrun
    cases hd : Lockstep.run (g.stepBlock M arb') 0 m (g.start M w) with
    | inl d =>
      rw [hd] at hrun
      cases hrun
    | inr o' =>
      rw [hd] at hrun
      rw [Sum.liftRel_inr_inr.mp hrun]

/-- **`PhiElim::run` ends, and what it leaves is a function without phis that behaves the same
exactly when the uses of the phis are recorded.** -/
theorem run_eliminates_iff (ord : SetOrder (InstrId × InstrId)) (hf : Input f) :
    ∃ g, run ord f = .ok g ∧ (Eliminates f g ↔ Recorded f) := by
  obtain ⟨g, n, L, pa, moves, hrun, hs⟩ := run_shape ord hf
  refine ⟨g, hrun, fun h => hs.recorded_of_no_phi hf h.no_phi, fun hrec => ⟨fun b hb i hi => ?_, ?_⟩⟩
  · rw [hs.blocks] at hb
    exact hs.no_phi hf hrec hb hi
  · intro Val World M w arb'
    exact hs.same hf hrec M w arb'

/-! ## A use that a hoisted instruction has lost

`void main(void) { int i; int j; int a; i = 0; while (i < 10) { j = 0; while (j < 10) {
a = i + 1; output(a); j = j + 1; } i = i + 1; } }` after `Mem2Reg` and `LoopInvHoist`, which moves
`i + 1` in front of the inner loop with `delete_instr` and `add_instruction`, so that its use of the
phi of `i` is recorded no more. -/

/-- The blocks of `main`: entry; condition, body and exit of the outer loop are 1, 2 and 6, those of
the inner loop 3, 4 and 5. -/
def hoistedCfg : Cfg where
  entry := 0
  rest := [1, 2, 6, 3, 4, 5]
  pre bb := match bb with
    | 1 => [0, 5]
    | 2 | 6 => [1]
    | 3 => [2, 4]
    | 4 | 5 => [3]
    | _ => []
  succ bb := match bb with
    | 0 | 5 => [1]
    | 1 => [6, 2]
    | 2 | 4 => [3]
    | 3 => [5, 4]
    | _ => []

/-- The function `main`. -/
def hoisted : Func where
  toCfg := hoistedCfg
  name := "main"
  body bb := match bb with
    | 0 => [0]
    | 1 => [1, 2, 3, 4, 5, 6, 7]
    | 2 => [8, 9]
    | 3 => [10, 11, 12, 13, 14, 15]
    | 4 => [16, 17, 18]
    | 5 => [19, 20]
    | 6 => [21]
    | _ => []
  instr i := match i with
    | 0 => { op := .br, ty := .void, operands := [.block 1], parent := 0 }
    | 1 =>
      { op := .phi, ty := .int32, parent := 1
        operands := [.int32 0, .block 0, .instr 19, .block 5] }
    | 2 => { op := .phi, ty := .int32, parent := 1, operands := [.instr 10, .block 5] }
    | 3 => { op := .phi, ty := .int32, parent := 1, operands := [.instr 11, .block 5] }
    | 4 => { op := .cmp, ty := .int1, operands := [.instr 1, .int32 10], parent := 1, cmpOp := .LT }
    | 5 => { op := .zext, ty := .int32, operands := [.instr 4], parent := 1 }
    | 6 => { op := .cmp, ty := .int1, operands := [.instr 5, .int32 0], parent := 1, cmpOp := .NE }
    | 7 => { op := .br, ty := .void, operands := [.instr 6, .block 2, .block 6], parent := 1 }
    | 8 => { op := .add, ty := .int32, operands := [.instr 1, .int32 1], parent := 4 }
    | 9 => { op := .br, ty := .void, operands := [.block 3], parent := 2 }
    | 10 =>
      { op := .phi, ty := .int32, parent := 3
        operands := [.int32 0, .block 2, .instr 17, .block 4] }
    | 11 =>
      { op := .phi, ty := .int32, parent := 3
        operands := [.instr 3, .block 2, .instr 8, .block 4] }
    | 12 =>
      { op := .cmp, ty := .int1, operands := [.instr 10, .int32 10], parent := 3, cmpOp := .LT }
    | 13 => { op := .zext, ty := .int32, operands := [.instr 12], parent := 3 }
    | 14 =>
      { op := .cmp, ty := .int1, operands := [.instr 13, .int32 0], parent := 3, cmpOp := .NE }
    | 15 => { op := .br, ty := .void, operands := [.instr 14, .block 4, .block 5], parent := 3 }
    | 16 => { op := .call, ty := .void, operands := [.function "output", .instr 8], parent := 4 }
    | 17 => { op := .add, ty := .int32, operands := [.instr 10, .int32 1], parent := 4 }
    | 18 => { op := .br, ty := .void, operands := [.block 3], parent := 4 }
    | 19 => { op := .add, ty := .int32, operands := [.instr 1, .int32 1], parent := 5 }
    | 20 => { op := .br, ty := .void, operands := [.block 1], parent := 5 }
    | _ => { op := .ret, ty := .void, operands := [], parent := 6 }
  uses v := match v with
    | .instr 1 => [(4, 0), (19, 0)]
    | .instr 3 => [(11, 0)]
    | .instr 4 => [(5, 0)]
    | .instr 5 => [(6, 0)]
    | .instr 6 => [(7, 0)]
    | .instr 8 => [(16, 1), (11, 2)]
    | .instr 10 => [(12, 0), (17, 0), (2, 0)]
    | .instr 11 => [(3, 0)]
    | .instr 12 => [(13, 0)]
    | .instr 13 => [(14, 0)]
    | .instr 14 => [(15, 0)]
    | .instr 17 => [(10, 2)]
    | .instr 19 => [(1, 2)]
    | _ => []
  next := 22

theorem hoisted_input : Input hoisted where
  nodup := by decide
  blocks_nodup := by decide
  terminated := by decide
  targets := by decide
  allocated := by
    have hlt : ∀ i ∈ hoisted.instrs, i < hoisted.next ∧
        ∀ v ∈ (hoisted.instr i).operands, ∀ j ∈ v.asInstr, j < hoisted.next := by decide
    exact fun i hi => ⟨(hlt i hi).1, fun j hj => (hlt i hi).2 _ hj j rfl⟩
  users := by decide
  phis_first := by decide
  pairs := by decide
  scalar := by decide
  recorded := by decide

/-- The theorem at `main`. -/
theorem run_hoisted_iff :
    ∃ g, run ⟨id, fun l => List.Perm.refl l⟩ hoisted = .ok g ∧
      (Eliminates hoisted g ↔ Recorded hoisted) :=
  run_eliminates_iff ⟨id, fun l => List.Perm.refl l⟩ hoisted_input

/-- **`PhiElim::run` leaves the erased phi of `i` in the hoisted addition.** -/
theorem run_hoisted_keeps_phi :
    ∃ g, run ⟨id, fun l => List.Perm.refl l⟩ hoisted = .ok g ∧ ¬ Eliminates hoisted g := by
  obtain ⟨g, n, L, pa, moves, hrun, hs⟩ :=
    run_shape ⟨id, fun l => List.Perm.refl l⟩ hoisted_input
  refine ⟨g, hrun, fun h => ?_⟩
  have hrec := hs.recorded_of_no_phi hoisted_input h.no_phi
  have hlost := (hrec 8 (by decide) 0 1 rfl (by decide) (by decide)).1
  exact absurd hlost (by decide)

end Cminusfc.Codegen.PhiElim
