import Cminusfc.Codegen.Intervals
import Cminusfc.Codegen.LinearScanCorrect
import Cminusfc.Codegen.PhiElimUses
import Cminusfc.Optimization.LoopInvHoistOrder

/-!
# Use lists across the passes

What reads the use lists after `PhiElim::run`: `RegAlloc::init_func` skips an argument whose use list
is empty. `argsServed_iff` says when no used argument is skipped, and `passes_keep_uses_iff` puts the
two passes and this reader together.

About `src/optimization/LoopInvHoist.cpp` 6-58, `src/codegen/phi_elim.cpp` 15-60 and the reader in
`src/codegen/regalloc.cpp` 90-147.
-/

namespace Cminusfc.Codegen

open Cminusfc.LightIR

namespace RegAlloc

variable {f : Func} {o : Order} {m : Members} {no fuel : Nat}

/-! ## The reader of the use lists -/

/-- No instruction starts or ends the interval of an argument that has none. -/
theorem foldl_track_arg (l : List (Point × InstrId)) (iv : Option Interval) :
    (l.foldl (track f (.arg no)) iv).isSome = iv.isSome := by
  induction l generalizing iv with
  | nil => rfl
  | cons p l ih =>
    rw [List.foldl_cons, ih]
    simp only [track, reduceCtorEq, false_and, if_false]
    split
    · rfl
    · split
      · exact Option.isSome_map
      · rfl

theorem foldl_scanArgs_isSome (l : List Nat) (m : Members) :
    ((l.foldl (fun m no => if f.uses (.arg no) = [] then m
      else insertInterval m (.arg no) ⟨⟨0, 0⟩, ⟨0, 0⟩⟩) m).val2interval (.arg no)).isSome = true ↔
      (m.val2interval (.arg no)).isSome = true ∨ no ∈ l ∧ f.uses (.arg no) ≠ [] := by
  induction l generalizing m with
  | nil => simp
  | cons k l ih =>
    rw [List.foldl_cons, ih, List.mem_cons]
    by_cases hk : f.uses (.arg k) = []
    · rw [if_pos hk]
      have hne : f.uses (.arg no) ≠ [] → no ≠ k := fun h he => h (he ▸ hk)
      tauto
    · rw [if_neg hk, insertInterval_val]
      by_cases hno : no = k
      · subst hno
        simp [hk]
      · simp [hno]

/-- The arguments with an interval are those with a recorded use. -/
theorem initFunc_arg (h : initFunc f fuel = .ok (o, m)) :
    (m.val2interval (.arg no)).isSome = true ↔ no < f.args.length ∧ f.uses (.arg no) ≠ [] := by
  unfold initFunc at h
  split at h
  · cases h
  · cases h
    rw [foldl_scanBlock, foldl_scanInstr_val, foldl_track_arg]
    unfold scanArgs
    rw [foldl_scanArgs_isSome]
    simp

/-- `init_func` and `pre_allocate_args` succeed, and every argument that an instruction reads has a
recorded use, an interval and a register. -/
def ArgsServed (f : Func) (fuel : Nat) : Prop :=
  ∃ o m s, initFunc f fuel = .ok (o, m) ∧
    preAllocateArgs f (fun v => (m.val2interval v).isSome)
      ⟨allRegs, [], fun _ => none, m.stackMappings, m.stackSize⟩ = .ok s ∧
    ∀ no < f.args.length, PhiElim.UsesArg f no →
      f.uses (.arg no) ≠ [] ∧ (m.val2interval (.arg no)).isSome = true ∧
        (s.regOf (.arg no)).reg.isReal = true

/-- **When the arguments are served**, if all recorded uses of them are uses: when each has a recorded
use and is one of the first eight of its class. -/
theorem argsServed_iff (hdfs : dfs f fuel = some o)
    (hargs : ∀ no, f.uses (.arg no) ≠ [] → PhiElim.UsesArg f no) :
    ArgsServed f fuel ↔ ∀ no < f.args.length, PhiElim.UsesArg f no →
      f.uses (.arg no) ≠ [] ∧ classIndex f no < 8 := by
  obtain ⟨m, hinit⟩ : ∃ m, initFunc f fuel = .ok (o, m) := ⟨_, by rw [initFunc, hdfs]⟩
  have hused := @preAllocate_take f (fun v => (m.val2interval v).isSome)
    ⟨allRegs, [], fun _ => none, m.stackMappings, m.stackSize⟩ rfl rfl f.args.length
    (Nat.le_refl _)
  rw [List.take_length] at hused
  obtain ⟨hiff, hdone⟩ := hused
  simp only [mem_usedBelow, initFunc_arg hinit] at hiff
  constructor
  · rintro ⟨o', m', s, hinit', hpre, hserved⟩
    obtain ⟨rfl, rfl⟩ : o = o' ∧ m = m' := by
      rw [hinit] at hinit'
      cases hinit'
      exact ⟨rfl, rfl⟩
    intro no hlt huse
    refine ⟨(hserved no hlt huse).1, hiff.mp ?_ no ⟨hlt, hlt, (hserved no hlt huse).1⟩⟩
    unfold preAllocateArgs at hpre
    cases ht : f.args.zipIdx.foldlM (preAllocateArg fun v => (m.val2interval v).isSome)
        { alloc := ⟨allRegs, [], fun _ => none, m.stackMappings, m.stackSize⟩ } with
    | error e =>
      rw [ht] at hpre
      cases hpre
    | ok t => exact ⟨t, rfl⟩
  · intro h
    obtain ⟨t, ht⟩ := hiff.mpr fun no hno => (h no hno.1 (hargs no hno.2.2)).2
    have hready := ArgsReady.of_done (Nat.le_refl _) (hdone t ht)
    refine ⟨o, m, t.alloc, hinit, by rw [preAllocateArgs, ht]; rfl, fun no hlt huse => ?_⟩
    have hne := (h no hlt huse).1
    have hsome := (initFunc_arg hinit).mpr ⟨hlt, hne⟩
    obtain ⟨r, hr, hreal, -⟩ := hready.entry no (mem_usedBelow.mpr ⟨hlt, hsome⟩)
    rw [Alloc.regOf_of_some hr]
    exact ⟨hne, hsome, hreal⟩

end RegAlloc

namespace PhiElim

variable {f g : Func} {n : InstrId} {L : Renaming} {pa : List (InstrId × InstrId)}
  {moves : List Move} {t : InstrId} {no : Nat}

/-! ## The use lists after `PhiElim::run` -/

/-- Renaming the operands of an instruction keeps the arguments among them. -/
theorem mem_renamed_arg {f₁ : Func} (hins : f₁.instr = f.instr) {i : InstrId} :
    Value.arg no ∈ renamed f₁ L i ↔ Value.arg no ∈ (f.instr i).operands := by
  unfold renamed
  rw [hins, List.mem_mapIdx]
  constructor
  · rintro ⟨k, hk, heq⟩
    rw [← renameSlot_arg.mp heq]
    exact List.getElem_mem hk
  · intro hmem
    obtain ⟨k, hk, heq⟩ := List.getElem_of_mem hmem
    exact ⟨k, hk, renameSlot_arg.mpr heq⟩

/-- The arguments a phi reads are the values of its pairs. -/
theorem mem_phi_arg (hf : Input f) {p : InstrId} (hp : p ∈ f.instrs) (hphi : isPhi f p = true) :
    Value.arg no ∈ (f.instr p).operands ↔ ∃ q ∈ (f.instr p).phiPairs, q.1 = .arg no := by
  rw [(hf.pairs p hp hphi).1, List.mem_flatMap]
  refine exists_congr fun q => and_congr_right fun _ => ?_
  simp [eq_comm]

/-- The pass moves the reads of an argument, and keeps them. -/
theorem Shape.usesArg (hf : Input f)
    (hs : Shape f (f.deleteInstr f.entry (f.termOf f.entry)) g n L pa moves) :
    UsesArg g no ↔ UsesArg f no := by
  have hins : (f.deleteInstr f.entry (f.termOf f.entry)).instr = f.instr := Func.deleteInstr_instr _ _ _
  have hold : ∀ i ∈ f.instrs, (Value.arg no ∈ (g.instr i).operands ↔
      Value.arg no ∈ (f.instr i).operands) := by
    intro i hi
    rw [hs.old i (hf.allocated i hi).1]
    exact mem_renamed_arg hins
  have hmove : ∀ m, m ∈ moves ↔ ∃ p a, (p, a) ∈ pa ∧ ∃ q ∈ Instr.pairsOf
      (renamed (f.deleteInstr f.entry (f.termOf f.entry)) L p), (a, q.1, q.2) = m := by
    intro m
    rw [hs.moves_perm.mem_iff, List.mem_flatMap]
    simp
  constructor
  · rintro ⟨i, hi, harg⟩
    obtain ⟨b, hb, hib⟩ := List.mem_flatMap.mp hi
    rw [hs.blocks] at hb
    have hmem : ∀ j ∈ f.initOf b, j ∈ f.instrs := fun j hj =>
      Func.mem_instrs hb (by rw [(hf.terminated b hb).1]; exact List.mem_append_left _ hj)
    rw [hs.body b hb] at hib
    rcases List.mem_append.mp hib with hib | hib
    · rcases List.mem_append.mp hib with hib | hib
      · rcases List.mem_append.mp hib with hib | hib
        · -- an old instruction, or the load of a phi
          obtain ⟨j, hj, rfl⟩ := List.mem_map.mp hib
          unfold rename at harg
          cases hl : L j with
          | none =>
            rw [hl, Option.getD_none] at harg
            exact ⟨j, hmem j hj, (hold j (hmem j hj)).mp harg⟩
          | some l =>
            obtain ⟨-, -, a, c, -, hload⟩ := hs.load j l hl
            rw [hl, Option.getD_some, hload] at harg
            simp at harg
        · split at hib
          · obtain ⟨⟨p, a⟩, hpa, rfl⟩ := List.mem_map.mp hib
            rw [(hs.alloca p a hpa).2.2] at harg
            exact absurd harg List.not_mem_nil
          · exact absurd hib List.not_mem_nil
      · -- a store of a value of a phi
        obtain ⟨⟨m, k⟩, hm, rfl⟩ := List.mem_map.mp hib
        obtain ⟨hk, hget⟩ := List.mk_mem_zipIdx_iff_le_and_getElem?_sub.mp (List.mem_filter.mp hm).1
        obtain ⟨hj, hjm⟩ := List.getElem?_eq_some_iff.mp hget
        have hstore := hs.store (k - n) hj
        rw [Nat.add_sub_cancel' hk, hjm] at hstore
        obtain ⟨p, a, hpa, q, hq, rfl⟩ := (hmove m).mp (hjm ▸ List.getElem_mem hj)
        obtain ⟨hp, hphi⟩ := (hs.keys p).mp (List.mem_map_of_mem hpa)
        have hqa : q.1 = .arg no := by
          rw [hstore] at harg
          simpa [eq_comm] using harg
        exact ⟨p, hp, (mem_phi_arg hf hp hphi).mpr
          (((pairsOf_renamed_arg hf hins L hp hphi).2 no).mp ⟨q, hq, hqa⟩)⟩
    · have hterm : f.termOf b ∈ f.instrs :=
        Func.mem_instrs hb (by rw [(hf.terminated b hb).1]; simp)
      rw [List.mem_singleton.mp hib] at harg
      exact ⟨_, hterm, (hold _ hterm).mp harg⟩
  · rintro ⟨i, hi, harg⟩
    obtain ⟨b, hb, hib⟩ := List.mem_flatMap.mp hi
    by_cases hphi : isPhi f i = true
    · obtain ⟨⟨p, a⟩, hpa, rfl⟩ := List.mem_map.mp ((hs.keys i).mpr ⟨hi, hphi⟩)
      obtain ⟨q, hq, hqa⟩ := ((pairsOf_renamed_arg hf hins L hi hphi).2 no).mpr
        ((mem_phi_arg hf hi hphi).mp harg)
      obtain ⟨j, hj, hjm⟩ := List.getElem_of_mem ((hmove (a, q.1, q.2)).mpr ⟨p, a, hpa, q, hq, rfl⟩)
      have hqb : q.2 ∈ f.blocks := by
        have hmem := List.mem_map_of_mem (f := Prod.snd) hq
        rw [(pairsOf_renamed_arg hf hins L hi hphi).1] at hmem
        obtain ⟨q', hq', heq⟩ := List.mem_map.mp hmem
        exact heq ▸ (hf.pairs p hi hphi).2.2 q' hq'
      have hmem := hs.store_mem hj (by rw [hjm]; exact hqb)
      refine ⟨n + j, Func.mem_instrs (by rw [hs.blocks, hjm]; exact hqb) hmem, ?_⟩
      rw [hs.store j hj, hjm, hqa]
      exact List.mem_cons_self
    · rw [Bool.not_eq_true] at hphi
      refine ⟨i, Func.mem_instrs (hs.blocks ▸ hb) ?_, (hold i hi).mpr harg⟩
      rw [hs.body b hb]
      rw [(hf.terminated b hb).1] at hib
      rcases List.mem_append.mp hib with hib | hib
      · refine List.mem_append_left _ (List.mem_append_left _ (List.mem_append_left _ ?_))
        exact List.mem_map.mpr ⟨i, hib, hs.rename_old hphi⟩
      · exact List.mem_append_right _ hib

/-- **When the use lists are complete after `PhiElim::run`**: when no terminator it takes out has an
operand. -/
theorem run_complete_iff (ord : SetOrder (InstrId × InstrId)) (hf : Input f) (hc : f.UsesComplete)
    (hargs : ∀ no, f.uses (.arg no) ≠ [] → UsesArg f no) :
    ∃ g, run ord f = .ok g ∧ g.toCfg = f.toCfg ∧ g.args = f.args ∧
      (∀ no, UsesArg g no ↔ UsesArg f no) ∧ (∀ no, g.uses (.arg no) ≠ [] → UsesArg f no) ∧
      (g.UsesComplete ↔ ∀ t, TakenOut f t → (f.instr t).operands = []) := by
  obtain ⟨g, hrun, ht, hargs'⟩ := run_tracked ord hf hc hargs
  obtain ⟨g', n, L, pa, moves, hrun', hs⟩ := run_shape ord hf
  rw [hrun] at hrun'
  cases hrun'
  have htaken : ∀ t, TakenOut f t → t ∈ g.instrs ∧
      ((g.instr t).operands = [] ↔ (f.instr t).operands = []) := by
    intro t ht
    have hb : ∃ b ∈ f.blocks, t = f.termOf b := by
      rcases ht with h | ⟨p, hp, hphi, q, hq, h⟩
      · exact ⟨f.entry, List.mem_cons_self, h⟩
      · exact ⟨q.2, (hf.pairs p hp hphi).2.2 q hq, h⟩
    obtain ⟨b, hb, rfl⟩ := hb
    have hmem : f.termOf b ∈ f.instrs :=
      Func.mem_instrs hb (by rw [(hf.terminated b hb).1]; simp)
    refine ⟨Func.mem_instrs (hs.blocks ▸ hb) (by rw [hs.body b hb]; simp), ?_⟩
    rw [hs.old _ (hf.allocated _ hmem).1]
    simp [renamed]
  refine ⟨g, hrun, hs.cfg, ht.args, fun no => hs.usesArg hf, hargs', ?_⟩
  rw [ht.complete_iff hs.blocks fun t h => (htaken t h).1]
  exact forall₂_congr fun t h => (htaken t h).2

end PhiElim

/-! ## Both passes -/

open Optimization in
/-- **When the passes keep the use lists complete, so that every used argument gets a register**: when
no terminator that `PhiElim::run` takes out has an operand, no loop has an invariant, and every used
argument is one of the first eight of its class. -/
theorem passes_keep_uses_iff {f h : Func} {loops : List LoopSearch.Loop} {fuel : Nat}
    (ordP : SetOrder (InstrId × InstrId)) (ordL : SetOrder InstrId) (hf : PhiElim.Input f)
    (hv : f.Valid) (hc : f.UsesComplete) (hargs : ∀ no, f.uses (.arg no) ≠ [] → PhiElim.UsesArg f no)
    (hin : LoopInvHoist.Input f loops) (hrun : LoopInvHoist.run ordL loops f = .ok h)
    (hfuel : f.blocks.length ≤ fuel) :
    ∃ g, PhiElim.run ordP f = .ok g ∧
      (g.UsesComplete ∧ h.UsesComplete ∧ RegAlloc.ArgsServed g fuel ↔
        (∀ t, PhiElim.TakenOut f t → (f.instr t).operands = []) ∧
          (∀ loop ∈ loops, ¬ LoopInvHoist.HasInvariant f loop) ∧
            ∀ no < f.args.length, PhiElim.UsesArg f no → RegAlloc.classIndex f no < 8) := by
  obtain ⟨g, hg, hcfg, hargsEq, huses, hrec, hcomplete⟩ := PhiElim.run_complete_iff ordP hf hc hargs
  obtain ⟨o, ho, -⟩ := RegAlloc.dfs_ordered hv hfuel
  have hog : RegAlloc.dfs g fuel = some o := by
    rw [← ho]
    unfold RegAlloc.dfs Cfg.blocks
    rw [hcfg]
  have hclass : RegAlloc.classIndex g = RegAlloc.classIndex f := by
    funext no
    unfold RegAlloc.classIndex RegAlloc.isFloat RegAlloc.typeOf
    rw [hargsEq]
  refine ⟨g, hg, ?_⟩
  rw [RegAlloc.argsServed_iff hog fun no hno => (huses no).mpr (hrec no hno), hclass, hargsEq,
    LoopInvHoist.run_complete_iff hin hc hrun, ← hcomplete]
  constructor
  · rintro ⟨hgc, hloops, hserved⟩
    exact ⟨hgc, hloops, fun no hlt huse => (hserved no hlt ((huses no).mpr huse)).2⟩
  · rintro ⟨hgc, hloops, hfit⟩
    refine ⟨hgc, hloops, fun no hlt huse => ⟨?_, hfit no hlt ((huses no).mp huse)⟩⟩
    -- a read of the argument is recorded
    obtain ⟨i, hi, harg⟩ := huse
    obtain ⟨k, hk⟩ := List.getElem?_of_mem harg
    exact List.ne_nil_of_mem (hgc i hi k _ hk)

/-! ## A loop with invariants

`int f(int n) { int s; s = 0; while (s < n) s = s + n * n * n; return s; }` after `Mem2Reg`: the
branches that are taken out have operands, and the two products of the body are moved. -/

section Powers

open Optimization.LoopInvHoist (powers powersLoop downwards)

/-- `f` with its use lists. -/
def usedPowers : Func := { powers with uses := Func.slotsOf powers.instr (List.range 9) }

theorem usedPowers_slots {i : InstrId} (hi : i ∈ usedPowers.instrs) (no : Nat) (v : Value) :
    (i, no) ∈ usedPowers.uses v ↔ (usedPowers.instr i).operands[no]? = some v :=
  Func.mem_slotsOf.trans
    (and_iff_right ((by decide : ∀ i ∈ usedPowers.instrs, i ∈ List.range 9) i hi))

theorem usedPowers_complete : usedPowers.UsesComplete :=
  fun _ hi no v => (usedPowers_slots hi no v).mpr

theorem usedPowers_input : PhiElim.Input usedPowers where
  nodup := by decide
  blocks_nodup := by decide
  terminated := by decide
  targets := by decide
  allocated := by
    have hlt : ∀ i ∈ usedPowers.instrs, i < usedPowers.next ∧
        ∀ v ∈ (usedPowers.instr i).operands, ∀ j ∈ v.asInstr, j < usedPowers.next := by decide
    exact fun i hi => ⟨(hlt i hi).1, fun j hj => (hlt i hi).2 _ hj j rfl⟩
  users := by decide
  phis_first := by decide
  pairs := by decide
  scalar := by decide
  recorded := by decide

theorem usedPowers_valid : usedPowers.Valid where
  closed := by decide
  nodup := by decide
  alloca_operands := by decide

theorem usedPowers_args (no : Nat) (h : usedPowers.uses (.arg no) ≠ []) :
    PhiElim.UsesArg usedPowers no := by
  obtain ⟨⟨i, k⟩, hu⟩ := List.exists_mem_of_ne_nil _ h
  obtain ⟨hi, hk⟩ := Func.mem_slotsOf.mp hu
  have hall : ∀ i ∈ List.range 9, i ∈ usedPowers.instrs := by decide
  exact ⟨i, hall i hi, List.mem_of_getElem? hk⟩

theorem usedPowers_loops : Optimization.LoopInvHoist.Input usedPowers [powersLoop] where
  allocated := by decide
  terminated := by decide
  pre := by decide
  loops := by decide

/-- The theorem at `f`: `PhiElim` lowers a phi, `LoopInvHoist` empties the loop of its products. -/
theorem passes_powers_iff :
    ∃ g h, PhiElim.run ⟨id, fun l => List.Perm.refl l⟩ usedPowers = .ok g ∧
      Optimization.LoopInvHoist.run downwards [powersLoop] usedPowers = .ok h ∧
      h.body 0 = [5, 4, 0] ∧ h.body 2 = [6, 7] ∧
      (g.UsesComplete ∧ h.UsesComplete ∧ RegAlloc.ArgsServed g 4 ↔
        (∀ t, PhiElim.TakenOut usedPowers t → (usedPowers.instr t).operands = []) ∧
          (∀ loop ∈ [powersLoop], ¬ Optimization.LoopInvHoist.HasInvariant usedPowers loop) ∧
          ∀ no < usedPowers.args.length, PhiElim.UsesArg usedPowers no →
            RegAlloc.classIndex usedPowers no < 8) := by
  have hhoist : ∃ h, Optimization.LoopInvHoist.run downwards [powersLoop] usedPowers = .ok h ∧
      h.body 0 = [5, 4, 0] ∧ h.body 2 = [6, 7] := ⟨_, rfl, rfl, rfl⟩
  obtain ⟨h, hrun, hpre, hbody⟩ := hhoist
  obtain ⟨g, hg, hiff⟩ := passes_keep_uses_iff ⟨id, fun l => List.Perm.refl l⟩ downwards
    usedPowers_input usedPowers_valid usedPowers_complete usedPowers_args usedPowers_loops hrun
    (show usedPowers.blocks.length ≤ 4 by decide)
  exact ⟨g, h, hg, hrun, hpre, hbody, hiff⟩

end Powers

/-! ## An argument that is returned

`int f(int x) { return x; }` after `Mem2Reg` is one `ret`. `PhiElim::run` takes it out of the entry
and puts it back, and the argument has no interval and no register. -/

/-- `f`. -/
def identity : Func where
  entry := 0
  rest := []
  pre _ := []
  succ _ := []
  name := "f"
  retTy := .int32
  args := [.int32]
  body bb := if bb = 0 then [0] else []
  instr _ := { op := .ret, ty := .void, operands := [.arg 0], parent := 0 }
  uses v := if v = .arg 0 then [(0, 0)] else []
  next := 1

theorem identity_complete : identity.UsesComplete := by
  intro i hi no v hv
  obtain rfl : i = 0 := by simpa [Func.instrs, Cfg.blocks, identity] using hi
  match no with
  | 0 =>
    cases hv
    decide
  | no + 1 => simp [identity] at hv

/-- **The argument that is returned has no recorded use, no interval and no register.** -/
theorem identity_unserved :
    identity.UsesComplete ∧ PhiElim.UsesArg identity 0 ∧
      ∃ g, PhiElim.run ⟨id, fun l => List.Perm.refl l⟩ identity = .ok g ∧
        g.uses (.arg 0) = [] ∧ ¬ g.UsesComplete ∧ ¬ RegAlloc.ArgsServed g 1 := by
  refine ⟨identity_complete, ⟨0, by decide, by decide⟩, _, rfl, by decide, fun hg => ?_, ?_⟩
  · exact absurd (hg 0 (by decide) 0 (.arg 0) (by decide)) (by decide)
  · rintro ⟨o, m, s, -, -, hserved⟩
    exact absurd (hserved 0 (by decide) ⟨0, by decide, by decide⟩).1 (by decide)

end Cminusfc.Codegen
