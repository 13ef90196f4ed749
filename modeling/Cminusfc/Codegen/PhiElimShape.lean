import Mathlib.Data.List.Nodup
import Cminusfc.LightIR.Edit
import Cminusfc.Codegen.PhiElim

/-!
# What `PhiElim::run` builds

The first loop of `PhiElim::run` gives every phi an alloca and a load (`Inv`, one lemma for each of
its two inner loops). The second one appends the stores, one at a time (`Moved`): store number `j`
is the instruction `n + j`, so the stores of a block are found by position.

`run_shape` collects the result: the block lists, the new instructions, and the operands of the old
ones. An operand changes exactly when it is a recorded use of a phi.

About `src/codegen/phi_elim.cpp` 15-60.
-/

namespace Cminusfc.Codegen.PhiElim

open Cminusfc.LightIR

/-- The functions `PhiElim::run` is called on. -/
structure Input (f : Func) : Prop where
  nodup : f.instrs.Nodup
  blocks_nodup : f.blocks.Nodup
  terminated : f.WellTerminated
  targets : ∀ b ∈ f.blocks, ∀ i ∈ f.body b, ∀ c ∈ (f.instr i).targets, c ∈ f.blocks
  allocated : ∀ i ∈ f.instrs, i < f.next ∧ ∀ j, Value.instr j ∈ (f.instr i).operands → j < f.next
  users : ∀ j < f.next, ∀ u ∈ f.uses (.instr j), u.1 < f.next
  phis_first : ∀ b ∈ f.blocks, ∀ i ∈ (f.body b).dropWhile (isPhi f), isPhi f i = false
  /-- A phi has at most one pair for each predecessor. -/
  pairs : ∀ p ∈ f.instrs, isPhi f p = true →
    (f.instr p).operands = (f.instr p).phiPairs.flatMap (fun q => [q.1, .block q.2]) ∧
      ((f.instr p).phiPairs.map Prod.snd).Nodup ∧ ∀ q ∈ (f.instr p).phiPairs, q.2 ∈ f.blocks
  scalar : ∀ p ∈ f.instrs, isPhi f p = true → (f.instr p).ty.isArray = false
  /-- A use recorded for a phi is one. -/
  recorded : ∀ p ∈ f.instrs, isPhi f p = true → ∀ u ∈ f.uses (.instr p),
    (f.instr u.1).operands[u.2]? = some (.instr p)

/-! ## Renaming -/

/-- A partial renaming of instructions: the loads of the phis that are done. -/
abbrev Renaming := InstrId → Option InstrId

/-- The instruction in the place of `i`. -/
def rename (L : Renaming) (i : InstrId) : InstrId := (L i).getD i

/-- What operand `no` of `u` has become, given that it was `v`. -/
def renameSlot (f : Func) (L : Renaming) (u : InstrId) (no : Nat) : Value → Value
  | .instr p => if (u, no) ∈ f.uses (.instr p) then .instr (rename L p) else .instr p
  | v => v

/-- The operands of `u` after the recorded uses have been renamed. -/
def renamed (f : Func) (L : Renaming) (u : InstrId) : List Value :=
  (f.instr u).operands.mapIdx (renameSlot f L u)

variable {f f₁ : Func} {s : St} {L : Renaming} {done : List InstrId}

/-! ## The first loop -/

/-- The state of the first loop, started on `f₁`, when the phis `done` have been replaced. -/
structure Inv (f₁ : Func) (s : St) (L : Renaming) (done : List InstrId) : Prop where
  cfg : s.f.toCfg = f₁.toCfg
  next : f₁.next ≤ s.f.next
  old : ∀ u < f₁.next, s.f.instr u = { f₁.instr u with operands := renamed f₁ L u }
  uses : ∀ j < f₁.next, s.f.uses (.instr j) = f₁.uses (.instr j)
  body : ∀ b ∈ f₁.blocks, s.f.body b = (f₁.body b).map (rename L) ++
    if b = f₁.entry then s.phi2alloca.map Prod.snd else []
  dom : ∀ p, (L p).isSome = true ↔ p ∈ done
  load : ∀ p l, L p = some l → f₁.next ≤ l ∧ l < s.f.next ∧ ∃ a b, (p, a) ∈ s.phi2alloca ∧
    s.f.instr l =
      { op := .load, ty := (f₁.instr p).ty, operands := [.instr a], parent := b }
  alloca : ∀ p a, (p, a) ∈ s.phi2alloca → f₁.next ≤ a ∧ a < s.f.next ∧
    s.f.instr a =
      { op := .alloca, ty := .pointer (f₁.instr p).ty, operands := [], parent := f₁.entry }
  keys : (s.phi2alloca.map Prod.fst).Nodup
  ids : (s.phi2alloca.map Prod.snd).Nodup

theorem renamed_none (f : Func) (u : InstrId) :
    renamed f (fun _ => none) u = (f.instr u).operands := by
  unfold renamed
  apply List.ext_getElem?
  intro no
  rw [List.getElem?_mapIdx]
  cases (f.instr u).operands[no]? with
  | none => rfl
  | some v => cases v <;> simp [renameSlot, rename]

theorem rename_none (i : InstrId) : rename (fun _ => none) i = i := rfl

theorem Inv.start (f₁ : Func) : Inv f₁ ⟨f₁, []⟩ (fun _ => none) [] where
  cfg := rfl
  next := Nat.le_refl _
  old u _ := by rw [renamed_none]
  uses _ _ := rfl
  body b _ := by
    have hid : rename (fun _ => none) = id := by
      funext i
      exact rename_none i
    simp [hid]
  dom p := by simp
  load p l h := by simp at h
  alloca p a h := by simp at h
  keys := List.nodup_nil
  ids := List.nodup_nil

/-- A new alloca. -/
theorem Inv.createAlloca (h : Inv f₁ s L done) {p : InstrId} (hp : p < f₁.next)
    (hkey : p ∉ s.phi2alloca.map Prod.fst) : Inv f₁ (createAlloca f₁.entry s p) L done := by
  have hty : (s.f.instr p).ty = (f₁.instr p).ty := by rw [h.old p hp]
  have hne : ∀ i, i < s.f.next → Function.update s.f.instr s.f.next
      { op := .alloca, ty := .pointer (s.f.instr p).ty, operands := [], parent := f₁.entry } i =
      s.f.instr i := fun i hi => Function.update_of_ne (Nat.ne_of_lt hi) _ _
  refine ⟨?_, ?_, ?_, ?_, ?_, h.dom, ?_, ?_, ?_, ?_⟩ <;> simp only [PhiElim.createAlloca]
  · rw [Func.addInstruction_toCfg, Func.newInstr_toCfg, h.cfg]
  · rw [Func.addInstruction_next, Func.newInstr_next]
    exact Nat.le_succ_of_le h.next
  · intro u hu
    rw [Func.addInstruction_instr, Func.newInstr_instr, hne u (Nat.lt_of_lt_of_le hu h.next)]
    exact h.old u hu
  · intro j hj
    rw [Func.addInstruction_uses, Func.newInstr_uses _ _ List.not_mem_nil]
    exact h.uses j hj
  · intro b hbb
    rw [Func.addInstruction_body, Func.newInstr_body]
    by_cases hb : b = f₁.entry
    · subst hb
      rw [Function.update_self, h.body f₁.entry hbb]
      simp
    · rw [Function.update_of_ne hb, h.body b hbb]
      simp [hb]
  · intro q l hl
    obtain ⟨h1, h2, a, b, ha, hi⟩ := h.load q l hl
    rw [Func.addInstruction_next, Func.newInstr_next, Func.addInstruction_instr,
      Func.newInstr_instr, hne l h2]
    exact ⟨h1, Nat.lt_succ_of_lt h2, a, b, List.mem_append_left _ ha, hi⟩
  · intro q a hqa
    rw [Func.addInstruction_next, Func.newInstr_next, Func.addInstruction_instr,
      Func.newInstr_instr]
    rcases List.mem_append.mp hqa with hqa | hqa
    · obtain ⟨h1, h2, hi⟩ := h.alloca q a hqa
      rw [hne a h2]
      exact ⟨h1, Nat.lt_succ_of_lt h2, hi⟩
    · obtain ⟨rfl, rfl⟩ := Prod.mk.inj (List.mem_singleton.mp hqa)
      rw [Function.update_self, hty]
      exact ⟨h.next, Nat.lt_succ_self _, rfl⟩
  · rw [List.map_append]
    exact List.nodup_append.mpr ⟨h.keys, List.nodup_singleton _, fun x hx y hy hxy =>
      hkey (by
        rw [List.map_singleton, List.mem_singleton] at hy
        obtain rfl : x = p := hxy.trans hy
        exact hx)⟩
  · rw [List.map_append]
    refine List.nodup_append.mpr ⟨h.ids, List.nodup_singleton _, fun x hx y hy hxy => ?_⟩
    obtain ⟨⟨q, a⟩, hqa, rfl⟩ := List.mem_map.mp hx
    rw [List.map_singleton, List.mem_singleton] at hy
    exact Nat.ne_of_lt (h.alloca q a hqa).2.1 (hxy.trans hy)

theorem foldl_createAlloca (its : List InstrId) (h : Inv f₁ s L done)
    (hlt : ∀ p ∈ its, p < f₁.next) (hnd : (s.phi2alloca.map Prod.fst ++ its).Nodup) :
    Inv f₁ (its.foldl (createAlloca f₁.entry) s) L done ∧
      (its.foldl (createAlloca f₁.entry) s).phi2alloca.map Prod.fst =
        s.phi2alloca.map Prod.fst ++ its := by
  induction its generalizing s with
  | nil => exact ⟨h, (List.append_nil _).symm⟩
  | cons p its ih =>
    have hkey : p ∉ s.phi2alloca.map Prod.fst := fun hp =>
      (List.nodup_append.mp hnd).2.2 p hp p List.mem_cons_self rfl
    have hmap : (createAlloca f₁.entry s p).phi2alloca.map Prod.fst =
        s.phi2alloca.map Prod.fst ++ [p] := by simp [createAlloca]
    obtain ⟨h1, h2⟩ := ih (h.createAlloca (hlt p List.mem_cons_self) hkey)
      (fun q hq => hlt q (List.mem_cons_of_mem _ hq)) (by rw [hmap]; simpa using hnd)
    rw [List.foldl_cons]
    exact ⟨h1, by rw [h2, hmap]; simp⟩

/-- What a renamed slot becomes when one more phi is done. -/
theorem renameSlot_update {p l u : InstrId} {no : Nat} {v : Value} (hL : L p = none)
    (hsound : (u, no) ∈ f₁.uses (.instr p) → v = .instr p) :
    (if (u, no) ∈ f₁.uses (.instr p) then Value.instr l else renameSlot f₁ L u no v) =
      renameSlot f₁ (Function.update L p (some l)) u no v := by
  by_cases hu : (u, no) ∈ f₁.uses (.instr p)
  · rw [if_pos hu, hsound hu]
    simp [renameSlot, hu, rename]
  · rw [if_neg hu]
    cases v with
    | instr q =>
      by_cases hq : q = p
      · subst hq
        simp [renameSlot, hu]
      · simp [renameSlot, rename, hq]
    | _ => rfl

/-- A new load in the place of its phi. -/
theorem Inv.replacePhi (h : Inv f₁ s L done) {p : InstrId} {bb : BlockId} (hp : p < f₁.next)
    (hdone : p ∉ done) (hkey : p ∈ s.phi2alloca.map Prod.fst)
    (hbb : bb ∈ f₁.blocks) (hbody : ∀ b ∈ f₁.blocks, p ∈ f₁.body b → b = bb)
    (husers : ∀ u ∈ f₁.uses (.instr p), u.1 < f₁.next)
    (hsound : ∀ u ∈ f₁.uses (.instr p), (f₁.instr u.1).operands[u.2]? = some (.instr p)) :
    ∃ l, Inv f₁ (replacePhi bb s p) (Function.update L p (some l)) (done ++ [p]) ∧
      (replacePhi bb s p).phi2alloca = s.phi2alloca := by
  obtain ⟨⟨q, a⟩, hqa, rfl⟩ := List.mem_map.mp hkey
  simp only at hp hdone hbody husers hsound
  have hlook : s.phi2alloca.lookup q = some a := by
    rw [List.lookup_eq_some_iff]
    obtain ⟨l₁, l₂, hsplit⟩ := List.append_of_mem hqa
    refine ⟨l₁, l₂, hsplit, fun x hx => ?_⟩
    have hnd := h.keys
    rw [hsplit, List.map_append] at hnd
    have := (List.nodup_append.mp hnd).2.2 x.1 (List.mem_map_of_mem hx) q (by simp)
    simpa using fun h => this h.symm
  have hL : L q = none := by
    cases hq : L q with
    | none => rfl
    | some l => exact absurd ((h.dom q).mp (by rw [hq]; rfl)) hdone
  have hty : (s.f.instr q).ty = (f₁.instr q).ty := by rw [h.old q hp]
  obtain ⟨ha1, ha2, hai⟩ := h.alloca q a hqa
  generalize hx : ({ op := .load, ty := (s.f.instr q).ty, operands := [.instr a], parent := bb } : Instr) = x
  have hslots : (s.f.newInstr x).uses (.instr q) = f₁.uses (.instr q) := by
    rw [Func.newInstr_uses, h.uses q hp]
    rw [← hx]
    simpa using InstrId.ne_of_lt_of_le hp ha1
  have hrepl : PhiElim.replacePhi bb s q =
      ⟨((s.f.newInstr x).replaceAllUseWith (.instr q) (.instr s.f.next)).setBody bb
        ((s.f.body bb).map fun i => if i = q then s.f.next else i), s.phi2alloca⟩ := by
    unfold PhiElim.replacePhi
    rw [hlook]
    simp only [hx, Func.replaceAllUseWith_body, Func.newInstr_body]
  have hnew : ∀ u, f₁.next ≤ u →
      ((s.f.newInstr x).replaceAllUseWith (.instr q) (.instr s.f.next)).instr u =
        (s.f.newInstr x).instr u := by
    intro u hu
    rw [Func.replaceAllUseWith_instr, Func.replaceSlots_of_none]
    intro no hno
    rw [hslots] at hno
    exact absurd rfl (InstrId.ne_of_lt_of_le (husers _ hno) hu)
  refine ⟨s.f.next, ?_, by rw [hrepl]⟩
  rw [hrepl]
  refine ⟨?_, ?_, ?_, ?_, ?_, ?_, ?_, ?_, h.keys, h.ids⟩ <;> simp only
  · rw [Func.setBody_toCfg, Func.replaceAllUseWith_toCfg, Func.newInstr_toCfg, h.cfg]
  · rw [Func.setBody_next, Func.replaceAllUseWith_next, Func.newInstr_next]
    exact Nat.le_succ_of_le h.next
  · intro u hu
    have hne : u ≠ s.f.next := Nat.ne_of_lt (Nat.lt_of_lt_of_le hu h.next)
    rw [Func.setBody_instr, Func.replaceAllUseWith_instr, hslots, Func.newInstr_instr,
      Function.update_of_ne hne, h.old u hu]
    simp only [Instr.mk.injEq, true_and, and_true]
    unfold Func.replaceSlots renamed
    apply List.ext_getElem?
    intro no
    simp only [List.getElem?_mapIdx, Option.map_map]
    cases hv : (f₁.instr u).operands[no]? with
    | none => rfl
    | some v =>
      simp only [Option.map_some, Function.comp_apply, Option.some.injEq]
      refine renameSlot_update hL fun hu => ?_
      have := hsound _ hu
      rw [hv] at this
      exact Option.some.inj this
  · intro j hj
    rw [Func.setBody_uses, Func.replaceAllUseWith_uses, Func.newInstr_uses, h.uses j hj]
    · rw [← hx]
      simpa using InstrId.ne_of_lt_of_le hj ha1
    · simpa using InstrId.ne_of_lt_of_le hj h.next
  · intro b hbf
    have hren : ∀ i, i ≠ q → rename (Function.update L q (some s.f.next)) i = rename L i := by
      intro i hi
      simp [rename, hi]
    have hrenq : rename (Function.update L q (some s.f.next)) q = s.f.next := by simp [rename]
    have hlow : ∀ i, i ≠ q → rename L i ≠ q := by
      intro i hi
      unfold rename
      cases hl : L i with
      | none => exact hi
      | some l =>
        exact (InstrId.ne_of_lt_of_le hp (h.load i l hl).1).symm
    rw [Func.setBody_body]
    by_cases hb : b = bb
    · subst hb
      rw [Function.update_self, h.body b hbf, List.map_append, List.map_map]
      congr 1
      · refine List.map_congr_left fun i _ => ?_
        by_cases hi : i = q
        · subst hi
          simp [rename, hL]
        · simp [hren i hi, hlow i hi]
      · split
        · rw [List.map_map]
          refine List.map_congr_left fun y hy => ?_
          obtain ⟨y1, y2⟩ := y
          simp [(InstrId.ne_of_lt_of_le hp (h.alloca y1 y2 hy).1).symm]
        · rfl
    · rw [Function.update_of_ne hb, Func.replaceAllUseWith_body, Func.newInstr_body, h.body b hbf]
      congr 1
      refine List.map_congr_left fun i hi => (hren i ?_).symm
      rintro rfl
      exact hb (hbody b hbf hi)
  · intro r
    by_cases hr : r = q
    · subst hr
      simp
    · simp [hr, h.dom r]
  · intro r l hl
    rw [Func.setBody_next, Func.replaceAllUseWith_next, Func.newInstr_next, Func.setBody_instr]
    by_cases hr : r = q
    · subst hr
      rw [Function.update_self] at hl
      obtain rfl := Option.some.inj hl
      refine ⟨h.next, Nat.lt_succ_self _, a, bb, hqa, ?_⟩
      rw [hnew _ h.next, Func.newInstr_instr, Function.update_self, ← hx, hty]
    · rw [Function.update_of_ne hr] at hl
      obtain ⟨h1, h2, a', b', ha', hi⟩ := h.load r l hl
      refine ⟨h1, Nat.lt_succ_of_lt h2, a', b', ha', ?_⟩
      rw [hnew l h1, Func.newInstr_instr, Function.update_of_ne (Nat.ne_of_lt h2), hi]
  · intro r a' hra
    obtain ⟨h1, h2, hi⟩ := h.alloca r a' hra
    rw [Func.setBody_next, Func.replaceAllUseWith_next, Func.newInstr_next, Func.setBody_instr,
      hnew a' h1, Func.newInstr_instr, Function.update_of_ne (Nat.ne_of_lt h2)]
    exact ⟨h1, Nat.lt_succ_of_lt h2, hi⟩

/-- What the first loop relies on: phis are allocated instructions that stand in one block, and
the uses recorded for them are uses. -/
structure PhiUses (f₁ : Func) : Prop where
  one : ∀ b ∈ f₁.blocks, ∀ p ∈ f₁.body b, isPhi f₁ p = true → ∀ c ∈ f₁.blocks,
    p ∈ f₁.body c → c = b
  lt : ∀ b ∈ f₁.blocks, ∀ p ∈ f₁.body b, p < f₁.next
  users : ∀ j < f₁.next, ∀ u ∈ f₁.uses (.instr j), u.1 < f₁.next
  sound : ∀ b ∈ f₁.blocks, ∀ p ∈ f₁.body b, isPhi f₁ p = true → ∀ u ∈ f₁.uses (.instr p),
    (f₁.instr u.1).operands[u.2]? = some (.instr p)

theorem foldl_replacePhi (hu : PhiUses f₁) {bb : BlockId} (hbb : bb ∈ f₁.blocks)
    {its : List InstrId} (h : Inv f₁ s L done)
    (hits : ∀ p ∈ its, p ∈ f₁.body bb ∧ isPhi f₁ p = true ∧ p ∈ s.phi2alloca.map Prod.fst)
    (hnd : (done ++ its).Nodup) :
    ∃ L', Inv f₁ (its.foldl (replacePhi bb) s) L' (done ++ its) ∧
      (its.foldl (replacePhi bb) s).phi2alloca = s.phi2alloca := by
  induction its generalizing s L done with
  | nil => exact ⟨L, by rwa [List.append_nil], rfl⟩
  | cons p its ih =>
    obtain ⟨hp, hphi, hkey⟩ := hits p List.mem_cons_self
    have hlt := hu.lt bb hbb p hp
    have hdone : p ∉ done := fun hd =>
      (List.nodup_append.mp hnd).2.2 p hd p List.mem_cons_self rfl
    obtain ⟨l, h1, h2⟩ := h.replacePhi hlt hdone hkey hbb (hu.one bb hbb p hp hphi) (hu.users p hlt)
      (hu.sound bb hbb p hp hphi)
    obtain ⟨L', h3, h4⟩ := ih h1 (fun q hq => by
      rw [h2]
      exact hits q (List.mem_cons_of_mem _ hq)) (by simpa using hnd)
    refine ⟨L', ?_, h4.trans h2⟩
    rw [List.foldl_cons]
    simpa using h3

/-- The phis of a block. -/
def phisOf (f : Func) (bb : BlockId) : List InstrId := (f.body bb).filter (isPhi f)

/-- One round of the first loop, when the phis of the earlier blocks are done. -/
theorem Inv.visitBlock (hu : PhiUses f₁) {bb : BlockId} (hbb : bb ∈ f₁.blocks)
    (h : Inv f₁ s L done) (hkeys : s.phi2alloca.map Prod.fst = done)
    (hnd : (done ++ phisOf f₁ bb).Nodup) :
    ∃ L', Inv f₁ (visitBlock f₁.entry s bb) L' (done ++ phisOf f₁ bb) ∧
      (visitBlock f₁.entry s bb).phi2alloca.map Prod.fst = done ++ phisOf f₁ bb := by
  have hphi : ∀ i, i < f₁.next → isPhi s.f i = isPhi f₁ i := by
    intro i hi
    unfold isPhi
    rw [h.old i hi]
  have hits : (s.f.body bb).filter (isPhi s.f) = phisOf f₁ bb := by
    have hallocas : (if bb = f₁.entry then s.phi2alloca.map Prod.snd else []).filter
        (isPhi s.f) = [] := by
      refine List.filter_eq_nil_iff.mpr fun a ha => ?_
      split at ha
      · obtain ⟨⟨q, a⟩, hqa, rfl⟩ := List.mem_map.mp ha
        unfold isPhi
        rw [(h.alloca q a hqa).2.2]
        simp
      · exact absurd ha List.not_mem_nil
    rw [h.body bb hbb, List.filter_append, hallocas, List.append_nil, List.filter_map]
    unfold phisOf
    have hcomp : (f₁.body bb).filter (isPhi s.f ∘ rename L) = (f₁.body bb).filter (isPhi f₁) := by
      refine List.filter_congr fun i hi => ?_
      have hlt := hu.lt bb hbb i hi
      rw [Function.comp_apply]
      unfold rename
      cases hl : L i with
      | none => exact hphi i hlt
      | some l =>
        obtain ⟨h1, h2, a, b, ha, hins⟩ := h.load i l hl
        have hdone := (h.dom i).mp (by rw [hl]; rfl)
        have hni : isPhi f₁ i = false := by
          by_contra hip
          rw [Bool.not_eq_false] at hip
          exact (List.nodup_append.mp hnd).2.2 i hdone i (List.mem_filter.mpr ⟨hi, hip⟩) rfl
        rw [hni]
        simp [isPhi, hins]
    rw [hcomp]
    refine (List.map_congr_left fun i hi => ?_).trans (List.map_id _)
    unfold rename
    cases hl : L i with
    | none => rfl
    | some l =>
      have hdone := (h.dom i).mp (by rw [hl]; rfl)
      exact absurd rfl ((List.nodup_append.mp hnd).2.2 i hdone i hi)
  unfold PhiElim.visitBlock
  rw [hits]
  obtain ⟨h1, h2⟩ := foldl_createAlloca (phisOf f₁ bb) h
    (fun p hp => hu.lt bb hbb p (List.mem_filter.mp hp).1) (by rw [hkeys]; exact hnd)
  obtain ⟨L', h3, h4⟩ := foldl_replacePhi hu hbb h1 (fun p hp => ⟨(List.mem_filter.mp hp).1,
    (List.mem_filter.mp hp).2, by rw [h2]; exact List.mem_append_right _ hp⟩) hnd
  exact ⟨L', h3, (congrArg (List.map Prod.fst) h4).trans (by rw [h2, hkeys])⟩

/-- The first loop over the blocks `bbs`. -/
theorem foldl_visitBlock (hu : PhiUses f₁) (bbs : List BlockId) (hbbs : ∀ bb ∈ bbs, bb ∈ f₁.blocks)
    (h : Inv f₁ s L done) (hkeys : s.phi2alloca.map Prod.fst = done)
    (hnd : (done ++ bbs.flatMap (phisOf f₁)).Nodup) :
    ∃ L', Inv f₁ (bbs.foldl (visitBlock f₁.entry) s) L' (done ++ bbs.flatMap (phisOf f₁)) ∧
      (bbs.foldl (visitBlock f₁.entry) s).phi2alloca.map Prod.fst =
        done ++ bbs.flatMap (phisOf f₁) := by
  induction bbs generalizing s L done with
  | nil => exact ⟨L, by simpa using h, by simpa using hkeys⟩
  | cons bb bbs ih =>
    rw [List.flatMap_cons, ← List.append_assoc] at hnd ⊢
    obtain ⟨L₁, h1, h2⟩ := h.visitBlock hu (hbbs bb List.mem_cons_self) hkeys
      (List.nodup_append.mp hnd).1
    exact ih (fun b hb => hbbs b (List.mem_cons_of_mem _ hb)) h1 h2 hnd

/-! ## The second loop -/

/-- A store to make: the alloca, the value, and the block. -/
abbrev Move := InstrId × Value × BlockId

/-- The stores of block `b` among the moves, when store number `j` is instruction `n + j`. -/
def storeIds (n : InstrId) (moves : List Move) (b : BlockId) : List InstrId :=
  ((moves.zipIdx n).filter fun m => m.1.2.2 = b).map Prod.snd

theorem storeIds_concat (n : InstrId) (moves : List Move) (m : Move) (b : BlockId) :
    storeIds n (moves ++ [m]) b =
      storeIds n moves b ++ if m.2.2 = b then [n + moves.length] else [] := by
  unfold storeIds
  rw [List.zipIdx_append, List.filter_append, List.map_append]
  by_cases h : m.2.2 = b <;> simp [h]

theorem le_of_mem_storeIds {n i : InstrId} {moves : List Move} {b : BlockId}
    (h : i ∈ storeIds n moves b) : n ≤ i := by
  unfold storeIds at h
  obtain ⟨⟨m, j⟩, hm, rfl⟩ := List.mem_map.mp h
  exact List.le_snd_of_mem_zipIdx (List.mem_filter.mp hm).1

/-- The state of the second loop, started on `f₂`, after the moves `moves`. -/
structure Moved (f₂ g : Func) (base : BlockId → List InstrId) (term : BlockId → InstrId)
    (moves : List Move) : Prop where
  cfg : g.toCfg = f₂.toCfg
  next : g.next = f₂.next + moves.length
  old : ∀ u < f₂.next, g.instr u = f₂.instr u
  store : ∀ j (hj : j < moves.length), g.instr (f₂.next + j) =
    { op := .store, ty := .void, operands := [moves[j].2.1, .instr moves[j].1],
      parent := moves[j].2.2 }
  body : ∀ b ∈ f₂.blocks, g.body b = base b ++ storeIds f₂.next moves b ++ [term b]

/-- What the second loop starts from. -/
structure Bases (f₂ : Func) (base : BlockId → List InstrId) (term : BlockId → InstrId) : Prop where
  body : ∀ b ∈ f₂.blocks, f₂.body b = base b ++ [term b]
  lt : ∀ b ∈ f₂.blocks, term b < f₂.next
  isTerminator : ∀ b ∈ f₂.blocks, (f₂.instr (term b)).isTerminator = true
  notMem : ∀ b ∈ f₂.blocks, term b ∉ base b

variable {f₂ g : Func} {base : BlockId → List InstrId} {term : BlockId → InstrId}
  {moves : List Move}

theorem Moved.start (hb : Bases f₂ base term) : Moved f₂ f₂ base term [] where
  cfg := rfl
  next := rfl
  old _ _ := rfl
  store j hj := absurd hj (Nat.not_lt_zero j)
  body b hbb := by simp [storeIds, hb.body b hbb]

theorem Moved.terminator (hb : Bases f₂ base term) (h : Moved f₂ g base term moves) {b : BlockId}
    (hbb : b ∈ f₂.blocks) : g.terminator b = some (term b) := by
  unfold Func.terminator
  rw [h.body b hbb, List.getLast?_concat]
  simp [h.old _ (hb.lt b hbb), hb.isTerminator b hbb]

/-- One store. -/
theorem Moved.storePair (hb : Bases f₂ base term) (h : Moved f₂ g base term moves)
    (alloca : InstrId) {p : Value × BlockId} (hp : p.2 ∈ f₂.blocks) :
    ∃ g', storePair alloca g p = .ok g' ∧
      Moved f₂ g' base term (moves ++ [(alloca, p.1, p.2)]) := by
  have hbody := h.body p.2 hp
  have hterm := h.terminator hb hp
  have hkept : (g.body p.2).filter (· ≠ term p.2) = base p.2 ++ storeIds f₂.next moves p.2 := by
    rw [hbody, List.filter_append]
    have hne : ∀ i ∈ base p.2 ++ storeIds f₂.next moves p.2, i ≠ term p.2 := by
      intro i hi
      rcases List.mem_append.mp hi with hi | hi
      · exact fun he => hb.notMem p.2 hp (he ▸ hi)
      · exact (InstrId.ne_of_lt_of_le (hb.lt p.2 hp) (le_of_mem_storeIds hi)).symm
    rw [List.filter_eq_self.mpr fun i hi => by simpa using hne i hi]
    simp
  unfold PhiElim.storePair
  rw [hterm]
  refine ⟨_, rfl, ?_, ?_, ?_, ?_, ?_⟩
  · simp [h.cfg]
  · simp [h.next, Nat.add_assoc]
  · intro u hu
    have hne : u ≠ g.next := by
      rw [h.next]
      exact InstrId.ne_of_lt_of_le hu (Nat.le_add_right _ _)
    simp [hne, h.old u hu]
  · intro j hj
    rw [List.length_append, List.length_singleton] at hj
    by_cases hlt : j < moves.length
    · have hne : f₂.next + j ≠ g.next := by
        rw [h.next]
        exact fun he => Nat.ne_of_lt hlt (Nat.add_left_cancel he)
      rw [List.getElem_append_left hlt]
      simp [hne, h.store j hlt]
    · obtain rfl : j = moves.length := by omega
      simp [h.next]
  · intro b hbb
    rw [storeIds_concat]
    by_cases hbp : b = p.2
    · subst hbp
      simp only [Func.addInstruction_body, Func.newInstr_body, Func.deleteInstr_body,
        Function.update_self, Func.deleteInstr_next, hkept, h.next, if_true]
      simp
    · have hpb : ¬ p.2 = b := fun he => hbp he.symm
      simp only [Func.addInstruction_body, Func.newInstr_body, Func.deleteInstr_body,
        Function.update_of_ne hbp, hpb, if_false, List.append_nil]
      exact h.body b hbb

theorem foldlM_storePair (hb : Bases f₂ base term) (alloca : InstrId)
    {ps : List (Value × BlockId)} (hps : ∀ p ∈ ps, p.2 ∈ f₂.blocks)
    (h : Moved f₂ g base term moves) :
    ∃ g', ps.foldlM (PhiElim.storePair alloca) g = .ok g' ∧
      Moved f₂ g' base term (moves ++ ps.map fun p => (alloca, p.1, p.2)) := by
  induction ps generalizing g moves with
  | nil => exact ⟨g, rfl, by simpa using h⟩
  | cons p ps ih =>
    obtain ⟨g₁, h1, h2⟩ := h.storePair hb alloca (hps p List.mem_cons_self)
    obtain ⟨g₂, h3, h4⟩ := ih (fun q hq => hps q (List.mem_cons_of_mem _ hq)) h2
    refine ⟨g₂, ?_, by simpa using h4⟩
    rw [List.foldlM_cons, h1]
    exact h3

/-- The moves of the phis `pa`. -/
def movesOf (f₂ : Func) (pa : List (InstrId × InstrId)) : List Move :=
  pa.flatMap fun p => (f₂.instr p.1).phiPairs.map fun q => (p.2, q.1, q.2)

theorem foldlM_storePhi (hb : Bases f₂ base term) (pa : List (InstrId × InstrId))
    (hpa : ∀ p ∈ pa, p.1 < f₂.next ∧ ∀ q ∈ (f₂.instr p.1).phiPairs, q.2 ∈ f₂.blocks)
    (h : Moved f₂ g base term moves) :
    ∃ g', pa.foldlM storePhi g = .ok g' ∧ Moved f₂ g' base term (moves ++ movesOf f₂ pa) := by
  induction pa generalizing g moves with
  | nil => exact ⟨g, rfl, by simpa [movesOf] using h⟩
  | cons p pa ih =>
    obtain ⟨hlt, hblk⟩ := hpa p List.mem_cons_self
    obtain ⟨g₁, h1, h2⟩ := foldlM_storePair hb p.2 hblk h
    obtain ⟨g₂, h3, h4⟩ := ih (fun q hq => hpa q (List.mem_cons_of_mem _ hq)) h2
    refine ⟨g₂, ?_, by simpa [movesOf] using h4⟩
    rw [List.foldlM_cons]
    unfold storePhi
    rw [h.old p.1 hlt, h1]
    exact h3

/-! ## Pairs -/

theorem pairsOf_flatMap (ps : List (Value × BlockId)) :
    Instr.pairsOf (ps.flatMap fun q => [q.1, .block q.2]) = ps := by
  induction ps with
  | nil => rfl
  | cons q ps ih =>
    rw [List.flatMap_cons]
    simp [Instr.pairsOf, ih]

/-- Renaming the operands of a phi renames the values of its pairs. -/
theorem mapIdx_flatMap_pairs (r : Nat → Value → Value) (hr : ∀ k b, r k (.block b) = .block b)
    (ps : List (Value × BlockId)) :
    (ps.flatMap fun q => [q.1, .block q.2]).mapIdx r =
      (ps.mapIdx fun k q => (r (2 * k) q.1, q.2)).flatMap fun q => [q.1, .block q.2] := by
  induction ps generalizing r with
  | nil => rfl
  | cons q ps ih =>
    have := ih (fun k => r (k + 1 + 1)) fun k b => hr (k + 2) b
    rw [List.flatMap_cons, List.mapIdx_cons, List.flatMap_cons]
    simp only [List.cons_append, List.nil_append, List.mapIdx_cons, hr]
    rw [this]
    simp [Nat.mul_add, Nat.add_assoc]

/-! ## The result -/

theorem isPhi_not_terminator {i : InstrId} (h : isPhi f i = true) :
    (f.instr i).isTerminator = false := by
  simp only [isPhi, decide_eq_true_eq] at h
  simp [Instr.isTerminator, h]

/-- What `run` makes of `f`; `n` is the first store, `f₁` the function without the terminator of
the entry, whose use lists the first loop reads. -/
structure Shape (f f₁ g : Func) (n : InstrId) (L : Renaming) (pa : List (InstrId × InstrId))
    (moves : List Move) : Prop where
  cfg : g.toCfg = f.toCfg
  old : ∀ u < f.next, g.instr u = { f.instr u with operands := renamed f₁ L u }
  dom : ∀ p, (L p).isSome = true ↔ p ∈ f.instrs ∧ isPhi f p = true
  keys : ∀ p, p ∈ pa.map Prod.fst ↔ p ∈ f.instrs ∧ isPhi f p = true
  keys_nodup : (pa.map Prod.fst).Nodup
  ids : (pa.map Prod.snd).Nodup
  load : ∀ p l, L p = some l → f.next ≤ l ∧ l < n ∧ ∃ a b, (p, a) ∈ pa ∧
    g.instr l = { op := .load, ty := (f.instr p).ty, operands := [.instr a], parent := b }
  alloca : ∀ p a, (p, a) ∈ pa → f.next ≤ a ∧ a < n ∧
    g.instr a =
      { op := .alloca, ty := .pointer (f.instr p).ty, operands := [], parent := f.entry }
  store : ∀ j (hj : j < moves.length), g.instr (n + j) =
    { op := .store, ty := .void, operands := [moves[j].2.1, .instr moves[j].1],
      parent := moves[j].2.2 }
  moves_perm : moves.Perm (pa.flatMap fun p =>
    (Instr.pairsOf (renamed f₁ L p.1)).map fun q => (p.2, q.1, q.2))
  body : ∀ b ∈ f.blocks, g.body b = (f.initOf b).map (rename L) ++
    (if b = f.entry then pa.map Prod.snd else []) ++ storeIds n moves b ++ [f.termOf b]

theorem PhiUses.of_input (hf : Input f) (t : InstrId) : PhiUses (f.deleteInstr f.entry t) := by
  have hsub : ∀ b i, i ∈ (f.deleteInstr f.entry t).body b → i ∈ f.body b := by
    intro b i hi
    rw [Func.deleteInstr_body] at hi
    by_cases hb : b = f.entry
    · subst hb
      rw [Function.update_self] at hi
      exact (List.mem_filter.mp hi).1
    · rwa [Function.update_of_ne hb] at hi
  have hblocks : (f.deleteInstr f.entry t).blocks = f.blocks := by
    unfold Cfg.blocks
    rw [Func.deleteInstr_toCfg]
  refine ⟨fun b hb p hp _ c hc hp' => ?_, fun b hb p hp => ?_, fun j hj u hu => ?_,
    fun b hb p hp hphi u hu => ?_⟩
  · rw [hblocks] at hb hc
    exact Func.block_unique hf.nodup hc hb (hsub c p hp') (hsub b p hp)
  · rw [hblocks] at hb
    rw [Func.deleteInstr_next]
    exact (hf.allocated p (Func.mem_instrs hb (hsub b p hp))).1
  · rw [Func.deleteInstr_next] at hj ⊢
    exact hf.users j hj u ((Func.mem_deleteInstr_uses _ _ _).mp hu).1
  · rw [hblocks] at hb
    rw [Func.deleteInstr_instr]
    have hphi' : isPhi f p = true := by
      unfold isPhi at hphi ⊢
      rwa [Func.deleteInstr_instr] at hphi
    exact hf.recorded p (Func.mem_instrs hb (hsub b p hp)) hphi' u
      ((Func.mem_deleteInstr_uses _ _ _).mp hu).1

/-- What the first loop of `PhiElim::run` leaves in `s`; `f₁` is the function without the terminator of
the entry. -/
structure Phases (f f₁ : Func) (s : St) (L : Renaming) : Prop where
  inv : Inv f₁ s L (f.instrs.filter (isPhi f))
  keys : s.phi2alloca.map Prod.fst = f.instrs.filter (isPhi f)
  bases : Bases (s.f.addInstruction f.entry (f.termOf f.entry))
    (fun b => (f.initOf b).map (rename L) ++ if b = f.entry then s.phi2alloca.map Prod.snd else [])
    f.termOf
  lt : ∀ p ∈ s.phi2alloca, p.1 < f₁.next
  pairs : ∀ p ∈ s.phi2alloca,
    ((s.f.addInstruction f.entry (f.termOf f.entry)).instr p.1).phiPairs =
      Instr.pairsOf (renamed f₁ L p.1)
  pairs_mem : ∀ p ∈ s.phi2alloca, ∀ q ∈ Instr.pairsOf (renamed f₁ L p.1), q.2 ∈ f.blocks

/-- The first loop. -/
theorem run_phases (hf : Input f) : ∃ s L,
    f.blocks.foldl (visitBlock f.entry) ⟨f.deleteInstr f.entry (f.termOf f.entry), []⟩ = s ∧
      Phases f (f.deleteInstr f.entry (f.termOf f.entry)) s L := by
  have hentry : f.entry ∈ f.blocks := List.mem_cons_self
  obtain ⟨hbody₀, ht₀, -⟩ := hf.terminated _ hentry
  generalize hf₁ : f.deleteInstr f.entry (f.termOf f.entry) = f₁
  have hu : PhiUses f₁ := hf₁ ▸ PhiUses.of_input hf _
  have hcfg₁ : f₁.toCfg = f.toCfg := by rw [← hf₁, Func.deleteInstr_toCfg]
  have hins₁ : f₁.instr = f.instr := by rw [← hf₁, Func.deleteInstr_instr]
  have hnext₁ : f₁.next = f.next := by rw [← hf₁, Func.deleteInstr_next]
  have hblocks₁ : f₁.blocks = f.blocks := by unfold Cfg.blocks; rw [hcfg₁]
  have hentry₁ : f₁.entry = f.entry := by rw [hcfg₁]
  have hphi₁ : isPhi f₁ = isPhi f := by
    funext i
    unfold isPhi
    rw [hins₁]
  have hnd_body : ∀ b ∈ f.blocks, (f.body b).Nodup := (List.nodup_flatMap.mp hf.nodup).1
  have hterm_init : ∀ b ∈ f.blocks, f.termOf b ∉ f.initOf b := by
    intro b hb hmem
    have hnd := hnd_body b hb
    rw [(hf.terminated b hb).1] at hnd
    exact (List.nodup_append.mp hnd).2.2 _ hmem _ List.mem_cons_self rfl
  have hinit₁ : ∀ b ∈ f.blocks, f₁.body b = f.initOf b ++ if b = f.entry then [] else [f.termOf b] := by
    intro b hb
    rw [← hf₁, Func.deleteInstr_body]
    by_cases hbe : b = f.entry
    · subst hbe
      rw [Function.update_self, if_pos rfl, List.append_nil, hbody₀, List.filter_append]
      rw [List.filter_eq_self.mpr fun i hi => by
        simpa using fun he : i = f.termOf f.entry => hterm_init _ hb (he ▸ hi)]
      simp
    · rw [Function.update_of_ne hbe, if_neg hbe]
      exact (hf.terminated b hb).1
  have hphis : f.blocks.flatMap (phisOf f₁) = f.instrs.filter (isPhi f) := by
    unfold Func.instrs
    rw [List.filter_flatMap]
    refine List.flatMap_congr fun b hb => ?_
    unfold phisOf
    rw [hinit₁ b hb, (hf.terminated b hb).1, hphi₁, List.filter_append, List.filter_append]
    have htp : isPhi f (f.termOf b) = false := by
      by_contra hp
      rw [Bool.not_eq_false] at hp
      have := isPhi_not_terminator hp
      rw [(hf.terminated b hb).2.1] at this
      cases this
    congr 1
    split <;> simp [htp]
  have hmem_phis : ∀ p, p ∈ f.instrs.filter (isPhi f) ↔ p ∈ f.instrs ∧ isPhi f p = true :=
    fun p => List.mem_filter
  obtain ⟨L, hinv, hkeys⟩ := foldl_visitBlock hu f.blocks
    (fun bb hbb => by rwa [hblocks₁]) (Inv.start f₁) rfl (by
      rw [List.nil_append, hphis]
      exact hf.nodup.filter _)
  rw [hentry₁, List.nil_append, hphis] at hkeys hinv
  generalize hs : f.blocks.foldl (visitBlock f.entry) ⟨f₁, []⟩ = s at hinv hkeys
  have hcfg₂ : (s.f.addInstruction f.entry (f.termOf f.entry)).toCfg = f.toCfg := by
    rw [Func.addInstruction_toCfg, hinv.cfg, hcfg₁]
  have hblocks₂ : (s.f.addInstruction f.entry (f.termOf f.entry)).blocks = f.blocks := by
    unfold Cfg.blocks
    rw [hcfg₂]
  have hL : ∀ i, isPhi f i = false → L i = none := by
    intro i hi
    cases hl : L i with
    | none => rfl
    | some l =>
      have := ((hmem_phis i).mp ((hinv.dom i).mp (by rw [hl]; rfl))).2
      rw [hi] at this
      cases this
  have hterm_phi : ∀ b ∈ f.blocks, isPhi f (f.termOf b) = false := by
    intro b hb
    by_contra hp
    rw [Bool.not_eq_false] at hp
    have := isPhi_not_terminator hp
    rw [(hf.terminated b hb).2.1] at this
    cases this
  have hterm_lt : ∀ b ∈ f.blocks, f.termOf b < f₁.next := by
    intro b hb
    rw [hnext₁]
    refine (hf.allocated _ (Func.mem_instrs hb ?_)).1
    rw [(hf.terminated b hb).1]
    simp
  have hbase : Bases (s.f.addInstruction f.entry (f.termOf f.entry))
      (fun b => (f.initOf b).map (rename L) ++
        if b = f.entry then s.phi2alloca.map Prod.snd else []) f.termOf := by
    refine ⟨fun b hb => ?_, fun b hb => ?_, fun b hb => ?_, fun b hb => ?_⟩
    · rw [hblocks₂] at hb
      rw [Func.addInstruction_body]
      by_cases hbe : b = f.entry
      · subst hbe
        rw [Function.update_self, hinv.body _ (by rwa [hblocks₁]), hinit₁ _ hb]
        simp [hentry₁]
      · rw [Function.update_of_ne hbe, hinv.body b (by rwa [hblocks₁]), hinit₁ b hb]
        simp [hbe, hentry₁, rename, hL _ (hterm_phi b hb)]
    · rw [hblocks₂] at hb
      exact Nat.lt_of_lt_of_le (hterm_lt b hb) hinv.next
    · rw [hblocks₂] at hb
      rw [Func.addInstruction_instr, hinv.old _ (hterm_lt b hb), hins₁]
      exact (hf.terminated b hb).2.1
    · rw [hblocks₂] at hb
      intro hmem
      rcases List.mem_append.mp hmem with hmem | hmem
      · obtain ⟨i, hi, heq⟩ := List.mem_map.mp hmem
        unfold rename at heq
        cases hl : L i with
        | none =>
          rw [hl, Option.getD_none] at heq
          exact hterm_init b hb (heq ▸ hi)
        | some l =>
          rw [hl, Option.getD_some] at heq
          exact InstrId.ne_of_lt_of_le (hterm_lt b hb) (hinv.load i l hl).1 heq.symm
      · split at hmem
        · obtain ⟨⟨p, a⟩, hpa, heq⟩ := List.mem_map.mp hmem
          exact InstrId.ne_of_lt_of_le (hterm_lt b hb) (hinv.alloca p a hpa).1 heq.symm
        · exact absurd hmem List.not_mem_nil
  have hphi_lt : ∀ p ∈ s.phi2alloca, p.1 < f₁.next := by
    intro p hp
    have : p.1 ∈ f.instrs.filter (isPhi f) := hkeys ▸ List.mem_map_of_mem hp
    rw [hnext₁]
    exact (hf.allocated _ (List.mem_filter.mp this).1).1
  have hpairs : ∀ p ∈ s.phi2alloca,
      ((s.f.addInstruction f.entry (f.termOf f.entry)).instr p.1).phiPairs =
        Instr.pairsOf (renamed f₁ L p.1) := by
    intro p hp
    rw [Func.addInstruction_instr, hinv.old _ (hphi_lt p hp)]
    rfl
  refine ⟨s, L, rfl, hinv, hkeys, hbase, hphi_lt, hpairs, fun p hp q hq => ?_⟩
  have hmem : p.1 ∈ f.instrs.filter (isPhi f) := hkeys ▸ List.mem_map_of_mem hp
  obtain ⟨hops, -, hblk⟩ := hf.pairs p.1 (List.mem_filter.mp hmem).1 (List.mem_filter.mp hmem).2
  unfold renamed at hq
  rw [hins₁, hops, mapIdx_flatMap_pairs _ (fun _ _ => rfl), pairsOf_flatMap] at hq
  obtain ⟨k, hk, rfl⟩ := List.mem_mapIdx.mp hq
  exact hblk (f.instr p.1).phiPairs[k] (List.getElem_mem hk)

/-- **What `PhiElim::run` builds.** -/
theorem run_shape (ord : SetOrder (InstrId × InstrId)) (hf : Input f) :
    ∃ g n L pa moves, run ord f = .ok g ∧
      Shape f (f.deleteInstr f.entry (f.termOf f.entry)) g n L pa moves := by
  have hterm₀ := hf.terminated.terminator (List.mem_cons_self : f.entry ∈ f.blocks)
  obtain ⟨s, L, hs, hinv, hkeys, hbase, hphi_lt, hpairs, hblk⟩ := run_phases hf
  generalize hf₁ : f.deleteInstr f.entry (f.termOf f.entry) = f₁ at hs hinv hphi_lt hpairs hblk
  have hcfg₁ : f₁.toCfg = f.toCfg := by rw [← hf₁, Func.deleteInstr_toCfg]
  have hins₁ : f₁.instr = f.instr := by rw [← hf₁, Func.deleteInstr_instr]
  have hnext₁ : f₁.next = f.next := by rw [← hf₁, Func.deleteInstr_next]
  have hblocks₁ : f₁.blocks = f.blocks := by unfold Cfg.blocks; rw [hcfg₁]
  have hentry₁ : f₁.entry = f.entry := by rw [hcfg₁]
  have hcfg₂ : (s.f.addInstruction f.entry (f.termOf f.entry)).toCfg = f.toCfg := by
    rw [Func.addInstruction_toCfg, hinv.cfg, hcfg₁]
  have hblocks₂ : (s.f.addInstruction f.entry (f.termOf f.entry)).blocks = f.blocks := by
    unfold Cfg.blocks
    rw [hcfg₂]
  have hmem_phis : ∀ p, p ∈ f.instrs.filter (isPhi f) ↔ p ∈ f.instrs ∧ isPhi f p = true :=
    fun p => List.mem_filter
  obtain ⟨g, hrun, hmoved⟩ := foldlM_storePhi hbase (ord.enum s.phi2alloca) (fun p hp => by
    have hp' := ord.mem_enum.mp hp
    refine ⟨Nat.lt_of_lt_of_le (hphi_lt p hp') hinv.next, fun q hq => ?_⟩
    rw [hpairs p hp'] at hq
    rw [hblocks₂]
    exact hblk p hp' q hq) (Moved.start hbase)
  rw [List.nil_append] at hmoved
  refine ⟨g, s.f.next, L, s.phi2alloca, movesOf (s.f.addInstruction f.entry (f.termOf f.entry))
    (ord.enum s.phi2alloca), ?_, ?_⟩
  · unfold run
    rw [hterm₀]
    simp only [hf₁, hs]
    exact hrun
  · refine ⟨hmoved.cfg.trans hcfg₂, fun u hlt => ?_, fun p => ?_, fun p => ?_, hinv.keys, hinv.ids,
      fun p l hl => ?_, fun p a hpa => ?_, hmoved.store, ?_, fun b hb => ?_⟩
    · rw [← hnext₁] at hlt
      rw [hmoved.old u (Nat.lt_of_lt_of_le hlt hinv.next), Func.addInstruction_instr,
        hinv.old u hlt, hins₁]
    · rw [hinv.dom, hmem_phis]
    · rw [hkeys, hmem_phis]
    · obtain ⟨h1, h2, a, b, ha, hi⟩ := hinv.load p l hl
      rw [hins₁] at hi
      exact ⟨hnext₁ ▸ h1, h2, a, b, ha, (hmoved.old l h2).trans hi⟩
    · obtain ⟨h1, h2, hi⟩ := hinv.alloca p a hpa
      rw [hins₁, hentry₁] at hi
      exact ⟨hnext₁ ▸ h1, h2, (hmoved.old a h2).trans hi⟩
    · unfold movesOf
      refine (List.Perm.flatMap_right _ (ord.perm s.phi2alloca)).trans ?_
      exact List.Perm.of_eq (List.flatMap_congr fun p hp => by rw [hpairs p hp])
    · rw [hmoved.body b (by rwa [hblocks₂]), Func.addInstruction_next]

end Cminusfc.Codegen.PhiElim
