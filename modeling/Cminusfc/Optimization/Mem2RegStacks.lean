import Cminusfc.Optimization.Mem2RegCorrect

/-!
# The stacks behind `re_name`

`reName_restores`: whenever a call of `re_name` returns, the stack of every variable is the one it
had at the call, whatever is on the stacks and whichever loads find a value. A stack without a key
and an empty one count as the same.

A call pushes once for every phi and store of its block and pops once for each of them behind the
calls for the children. The two agree because the calls in between leave the block as it is
(`reName_walk`): they replace uses of loads and fill phis (`Unmoved`), and delete instructions of
their own blocks only.

About `re_name`, `src/optimization/Mem2Reg.cpp` 79-171.
-/

namespace Cminusfc.Optimization.Mem2Reg

open Cminusfc.LightIR
open Fallible (bind_ok)

/-- The alloca that a value is. -/
def isAlloca (g : Func) : Value → Bool
  | .instr a => (g.instr a).op = .alloca
  | _ => false

/-- The contents of the blocks: what is loaded from and stored to is a global, an element of an
array or an alloca, and the use lists hold slots of the instructions. -/
structure SsaContents (g : Func) : Prop where
  address : ∀ u ∈ g.instrs, ∀ no v, Address g u no → (g.instr u).operands[no]? = some v →
    v.isGlobal = true ∨ g.isGep v = true ∨ isAlloca g v = true
  uses : ∀ v, ∀ u ∈ g.uses v, u.1 ∈ g.instrs ∧ (g.instr u.1).operands[u.2]? = some v

variable {g F : Func} {kids : BlockId → List BlockId} {b : BlockId} {st : Stacks} {i : InstrId}

/-- No load is an address. -/
theorem SsaContents.unmoved (h : SsaContents g) : Unmoved g g := by
  refine ⟨.refl g, fun l hl u hu haddr => ?_⟩
  obtain ⟨hmem, hslot⟩ := h.uses _ u hu
  rcases h.address u.1 hmem u.2 _ haddr hslot with hglobal | hgep | halloca
  · simp [Value.isGlobal] at hglobal
  · simp [Func.isGep, hl] at hgep
  · simp [isAlloca, hl] at halloca

/-! ## One call, up to the calls for the children -/

/-- What the loops over a block leave: the same bodies and edges. -/
structure Same (g F F' : Func) : Prop extends Unmoved g F' where
  toCfg : F'.toCfg = F.toCfg
  body : F'.body = F.body

theorem Same.refl (h : Unmoved g F) : Same g F F := ⟨h, rfl, rfl⟩

theorem Same.trans {F' F'' : Func} (h : Same g F F') (h' : Same g F' F'') : Same g F F'' :=
  ⟨h'.toUnmoved, h'.toCfg.trans h.toCfg, h'.body.trans h.body⟩

/-- Step 3 returns for phis with a variable only. -/
theorem foldlM_pushPhi_lval (h : SameAddresses g F) :
    ∀ (l : List InstrId) (st st' : Stacks), l.foldlM (pushPhi F) st = .ok st' →
      ∀ i ∈ l, isPhi g i = true → (g.instr i).lval.isSome = true := by
  intro l
  induction l with
  | nil => exact fun _ _ _ i hi => absurd hi List.not_mem_nil
  | cons j l ih =>
    intro st st' hrun i hi hphi
    rw [List.foldlM_cons] at hrun
    obtain ⟨st₁, hstep, hrest⟩ := bind_ok.mp hrun
    rcases List.mem_cons.mp hi with rfl | hi
    · cases hlval : (g.instr i).lval with
      | none => simp [pushPhi, h.isPhi, h.lval, hphi, hlval] at hstep
      | some v => rfl
    · exact ih st₁ st' hrest i hi hphi

/-- Steps 4 and 5, for one instruction. -/
theorem renameInstr_ok {w : List InstrId} {r : St × List InstrId} (hF : Unmoved g F)
    (h : renameInstr (⟨F, st⟩, w) i = .ok r) :
    Same g F r.1.f ∧
      Lifted st r.1.varValStack fun v => if storeOf g i = some v then 1 else 0 := by
  simp only [renameInstr, hF.loadOf, hF.storeOf] at h
  cases hload : loadOf g i with
  | some v =>
    have hs : storeOf g i = none := storeOf_eq_none (by simp [loadOf_op hload])
    have hlift : Lifted st st fun v => if storeOf g i = some v then 1 else 0 :=
      (Lifted.refl st).congr (by simp [hs])
    simp only [hload] at h
    cases hst : st v with
    | none =>
      simp only [hst] at h
      cases h
      exact ⟨.refl hF, hlift⟩
    | some stack =>
      cases stack with
      | nil => simp [hst] at h
      | cons x rest =>
        simp only [hst] at h
        cases h
        refine ⟨⟨hF.replaceAllUseWith (loadOf_op hload) x, ?_, ?_⟩, hlift⟩
        · exact Func.replaceAllUseWith_toCfg _ _ _
        · exact Func.replaceAllUseWith_body _ _ _
  | none =>
    simp only [hload] at h
    cases hstore : storeOf g i with
    | none =>
      simp only [hstore] at h
      cases h
      exact ⟨.refl hF, (Lifted.refl st).congr (by simp)⟩
    | some v =>
      simp only [hstore] at h
      cases h
      exact ⟨.refl hF, (Lifted.push st v _).congr (by simp)⟩

/-- Steps 4 and 5. -/
theorem foldlM_renameInstr_ok :
    ∀ (l : List InstrId) (F : Func) (st : Stacks) (w : List InstrId) (r : St × List InstrId),
      Unmoved g F → l.foldlM renameInstr (⟨F, st⟩, w) = .ok r →
      Same g F r.1.f ∧ Lifted st r.1.varValStack (count (storeOf g) l) := by
  intro l
  induction l with
  | nil =>
    intro F st w r hF h
    cases h
    exact ⟨.refl hF, .refl st⟩
  | cons i l ih =>
    intro F st w r hF h
    rw [List.foldlM_cons] at h
    obtain ⟨⟨⟨F₁, st₁⟩, w₁⟩, hstep, hrest⟩ := bind_ok.mp h
    obtain ⟨hsame₁, hlift₁⟩ := renameInstr_ok hF hstep
    obtain ⟨hsame, hlift⟩ := ih F₁ st₁ w₁ r hsame₁.toUnmoved hrest
    refine ⟨hsame₁.trans hsame, (hlift₁.trans hlift).congr fun v => ?_⟩
    rw [count_cons, Nat.add_comm]

/-- Step 6 for one instruction. -/
theorem fillPhi_ok {F' : Func} (hF : Unmoved g F) (h : fillPhi b st F i = .ok F') :
    Same g F F' := by
  unfold fillPhi at h
  rw [hF.isPhi, hF.lval] at h
  split at h
  · rename_i hphi
    split at h
    · cases h
    · split at h
      · cases h
        exact .refl hF
      · cases h
      · cases h
        exact ⟨hF.addPhiPairOperand (isPhi_op hphi) _ b, rfl, rfl⟩
  · cases h
    exact .refl hF

/-- Step 6. -/
theorem foldlM_fillSucc_ok {l : List BlockId} {F' : Func} (hF : Unmoved g F)
    (h : l.foldlM (fillSucc b st) F = .ok F') : Same g F F' := by
  refine Fallible.foldlM_keeps (I := Same g F) (fun S _ F₁ F₂ h₁ h₂ => ?_) (.refl hF) h
  refine Fallible.foldlM_keeps (I := Same g F) (fun i _ F₃ F₄ h₃ h₄ => ?_) h₁ h₂
  exact h₃.trans (fillPhi_ok h₃.toUnmoved h₄)

/-- `re_name` up to the calls for the children. -/
theorem enterBlock_ok {r : St × List InstrId} (hF : Unmoved g F) (hbody : F.body b = g.body b)
    (h : enterBlock b ⟨F, st⟩ = .ok r) :
    Same g F r.1.f ∧ Lifted st r.1.varValStack (count (defOf g) (g.body b)) ∧
      ∀ i ∈ g.body b, isPhi g i = true → (g.instr i).lval.isSome = true := by
  obtain ⟨st₁, hpush, h⟩ := bind_ok.mp h
  obtain ⟨⟨⟨F₂, st₂⟩, w⟩, hrename, h⟩ := bind_ok.mp h
  obtain ⟨F₃, hfill, h⟩ := bind_ok.mp h
  cases h
  dsimp only at hpush hrename hfill
  rw [hbody] at hpush hrename
  have hlval := foldlM_pushPhi_lval hF.toSameAddresses _ _ _ hpush
  obtain ⟨st', hpush', hlift₁, -⟩ := foldlM_pushPhi hF.toSameAddresses _ hlval st
  obtain rfl : st' = st₁ := Except.ok.inj (hpush'.symm.trans hpush)
  obtain ⟨hsame₂, hlift₂⟩ := foldlM_renameInstr_ok _ _ _ _ _ hF hrename
  have hsame₃ := foldlM_fillSucc_ok hsame₂.toUnmoved hfill
  refine ⟨hsame₂.trans hsame₃, (hlift₁.trans hlift₂).congr fun v => ?_, hlval⟩
  rw [count_defOf]

/-! ## The walk -/

/-- What a walk leaves that has entered the blocks `L`. -/
structure Walked (g : Func) (L : List BlockId) (F : Func) (st : Stacks) (s' : St) : Prop
    extends Unmoved g s'.f where
  body : ∀ x, x ∉ L → s'.f.body x = F.body x
  stack : ∀ v, (s'.varValStack v).getD [] = (st v).getD []

/-- `re_name` behind the calls for the children. -/
theorem leaveBlock_ok {s s' : St} {w : List InstrId} (hF : Unmoved g s.f)
    (hbody : s.f.body b = g.body b) (hlift : Lifted st s.varValStack (count (defOf g) (g.body b)))
    (hlval : ∀ i ∈ g.body b, isPhi g i = true → (g.instr i).lval.isSome = true)
    (h : leaveBlock b w s = .ok s') : Walked g [b] s.f st s' := by
  obtain ⟨st₁, hpop, h⟩ := bind_ok.mp h
  cases h
  rw [hbody] at hpop
  obtain ⟨st', hpop', hlift', -⟩ := foldlM_popInstr hF.toSameAddresses _ hlval _ hlift
  obtain rfl : st' = st₁ := Except.ok.inj (hpop'.symm.trans hpop)
  obtain ⟨-, hinstr, hbodies, huses⟩ := foldl_deleteInstr b w s.f
  refine ⟨⟨⟨?_, ?_, ?_, ?_, ?_⟩, ?_⟩, fun x hx => ?_, fun v => ?_⟩
  · exact fun i => by rw [hinstr, hF.op]
  · exact fun i => by rw [hinstr, hF.ty]
  · exact fun i => by rw [hinstr, hF.lval]
  · exact fun i hi => by rw [hinstr, hF.length i hi]
  · exact fun u no h => by rw [hinstr, hF.address u no h]
  · exact fun l hl u hu => hF.uses l hl u (huses _ u hu)
  · rw [hbodies, if_neg (by simpa using hx)]
  · obtain ⟨top, hlen, htop⟩ := hlift' v
    rw [htop, List.eq_nil_of_length_eq_zero hlen, List.nil_append]

/-- What is to be shown of `re_name` with fuel `n` at `b`. -/
def Restores (g : Func) (kids : BlockId → List BlockId) (n : Nat) (b : BlockId) : Prop :=
  ∀ F st s', Unmoved g F → (∀ x ∈ visitOrder kids n b, F.body x = g.body x) →
    (visitOrder kids n b).Nodup → reName kids n b ⟨F, st⟩ = .ok s' →
    Walked g (visitOrder kids n b) F st s'

/-- The loop over the children: each of them finds the stacks as they were at the first. -/
theorem foldlM_reName_ok {n : Nat} (hspec : ∀ c, Restores g kids n c) :
    ∀ (cs : List BlockId) (F : Func) (st : Stacks) (s' : St), Unmoved g F →
      (∀ x ∈ cs.flatMap (visitOrder kids n), F.body x = g.body x) →
      (cs.flatMap (visitOrder kids n)).Nodup →
      cs.foldlM (fun s kid => reName kids n kid s) ⟨F, st⟩ = .ok s' →
      Walked g (cs.flatMap (visitOrder kids n)) F st s' := by
  intro cs
  induction cs with
  | nil =>
    intro F st s' hF _ _ h
    cases h
    exact ⟨hF, fun _ _ => rfl, fun _ => rfl⟩
  | cons c cs ih =>
    intro F st s' hF hbody hnd h
    rw [List.flatMap_cons] at hbody hnd ⊢
    obtain ⟨hnd₁, hnd₂, hdisj⟩ := List.nodup_append.mp hnd
    rw [List.foldlM_cons] at h
    obtain ⟨s₁, h₁, h₂⟩ := bind_ok.mp h
    have hW₁ := hspec c F st s₁ hF (fun x hx => hbody x (List.mem_append_left _ hx)) hnd₁ h₁
    have hW₂ := ih s₁.f s₁.varValStack s' hW₁.toUnmoved (fun x hx => ?_) hnd₂ h₂
    · refine ⟨hW₂.toUnmoved, fun x hx => ?_, fun v => by rw [hW₂.stack, hW₁.stack]⟩
      rw [List.mem_append, not_or] at hx
      rw [hW₂.body x hx.2, hW₁.body x hx.1]
    · have hx₁ : x ∉ visitOrder kids n c := fun hmem => hdisj x hmem x hx rfl
      rw [hW₁.body x hx₁]
      exact hbody x (List.mem_append_right _ hx)

/-- **One call** leaves the blocks outside its subtree and all stacks as they were. -/
theorem reName_walk : ∀ n b, Restores g kids n b := by
  intro n
  induction n with
  | zero =>
    intro b F st s' _ _ _ h
    cases h
  | succ n ih =>
    intro b F st s' hF hbody hnd h
    obtain ⟨hb, hnd⟩ := List.nodup_cons.mp hnd
    obtain ⟨⟨s₁, w⟩, henter, h⟩ := bind_ok.mp h
    obtain ⟨s₂, hkids, hleave⟩ := bind_ok.mp h
    obtain ⟨hsame, hlift, hlval⟩ := enterBlock_ok hF (hbody b List.mem_cons_self) henter
    have hbody₁ : ∀ x, s₁.f.body x = F.body x := fun x => congrFun hsame.body x
    have hW := foldlM_reName_ok ih (kids b) s₁.f s₁.varValStack s₂ hsame.toUnmoved
      (fun x hx => by rw [hbody₁, hbody x (List.mem_cons_of_mem _ hx)]) hnd hkids
    have hb₂ : s₂.f.body b = g.body b := by
      rw [hW.body b hb, hbody₁, hbody b List.mem_cons_self]
    have hlift₂ : Lifted st s₂.varValStack (count (defOf g) (g.body b)) := by
      intro v
      rw [hW.stack]
      exact hlift v
    have hL := leaveBlock_ok hW.toUnmoved hb₂ hlift₂ hlval hleave
    refine ⟨hL.toUnmoved, fun x hx => ?_, hL.stack⟩
    rw [visitOrder, List.mem_cons, not_or] at hx
    rw [hL.body x (by simpa using hx.1), hW.body x hx.2, hbody₁]

/-- **`re_name` gives every stack back**, at any block of any tree and from any stacks, and so does
the loop over any of the subtrees in which each finds what its siblings leave. -/
theorem reName_restores (hg : SsaContents g) {n : Nat} :
    (∀ s', (visitOrder kids n b).Nodup → reName kids n b ⟨g, st⟩ = .ok s' →
      ∀ v, (s'.varValStack v).getD [] = (st v).getD []) ∧
    ∀ (cs : List BlockId) (s' : St), (cs.flatMap (visitOrder kids n)).Nodup →
      cs.foldlM (fun s kid => reName kids n kid s) ⟨g, st⟩ = .ok s' →
      ∀ v, (s'.varValStack v).getD [] = (st v).getD [] :=
  ⟨fun s' hnd h => (reName_walk n b g st s' hg.unmoved (fun _ _ => rfl) hnd h).stack,
    fun cs s' hnd h =>
      (foldlM_reName_ok (reName_walk n) cs g st s' hg.unmoved (fun _ _ => rfl) hnd h).stack⟩

/-- The phis of `generate_phi` are no addresses. -/
theorem SsaContents.phied {f : Func} {phis : BlockId → List InstrId} (h : SsaContents f)
    (hP : Phied f g phis) (halloc : ∀ i ∈ f.instrs, i < f.next ∧
      ∀ j, .instr j ∈ (f.instr i).operands → j < f.next) : SsaContents g := by
  have hblocks : g.blocks = f.blocks := by rw [Cfg.blocks, Cfg.blocks, hP.toCfg]
  have hmem : ∀ u ∈ f.instrs, u ∈ g.instrs := by
    intro u hu
    obtain ⟨c, hc, hu⟩ := List.mem_flatMap.mp hu
    exact List.mem_flatMap.mpr
      ⟨c, by rwa [hblocks], by rw [hP.body]; exact List.mem_append_right _ hu⟩
  refine ⟨fun u hu no v haddr hv => ?_, fun v u hu => ?_⟩
  · obtain ⟨c, hc, hu⟩ := List.mem_flatMap.mp hu
    rw [hP.body] at hu
    rcases List.mem_append.mp hu with hphi | hold
    · obtain ⟨-, -, w, ty, hinstr⟩ := hP.phi c u hphi
      rcases haddr with ⟨hop, -⟩ | ⟨hop, -⟩ <;> simp [hinstr] at hop
    · have hu' : u ∈ f.instrs := List.mem_flatMap.mpr ⟨c, by rwa [← hblocks], hold⟩
      obtain ⟨hlt, hops⟩ := halloc u hu'
      have hinstr := hP.old u hlt
      rw [hinstr] at hv
      have hfaddr : Address f u no := by
        unfold Address at haddr ⊢
        rwa [hinstr] at haddr
      have hcases := h.address u hu' no v hfaddr hv
      cases v with
      | instr j =>
        have hj := hP.old j (hops j (List.mem_of_getElem? hv))
        simpa [Func.isGep, isAlloca, hj] using hcases
      | _ => simpa [Func.isGep, isAlloca] using hcases
  · rw [hP.uses] at hu
    obtain ⟨hu', hslot⟩ := h.uses v u hu
    rw [hP.old u.1 (halloc u.1 hu').1]
    exact ⟨hmem u.1 hu', hslot⟩

theorem counting_contents : SsaContents counting where
  address := by
    have haddr : ∀ i ∈ counting.instrs,
        ((counting.instr i).op = .load → ∀ v ∈ (counting.instr i).operands[0]?,
          isAlloca counting v = true) ∧
        ((counting.instr i).op = .store → ∀ v ∈ (counting.instr i).operands[1]?,
          isAlloca counting v = true) := by decide
    rintro i hi no v (⟨hop, rfl⟩ | ⟨hop, rfl⟩) hv
    · exact Or.inr (Or.inr ((haddr i hi).1 hop v hv))
    · exact Or.inr (Or.inr ((haddr i hi).2 hop v hv))
  uses := by
    intro v u hu
    cases v with
    | instr l => exact counting_input.uses l u hu
    | _ => cases hu

/-- The frontiers and the children of the counting loop. -/
def countingDom : Dominators.Result where
  idom := fun _ => none
  domFrontier b := if b = 1 ∨ b = 2 then [1] else []
  domTreeSucc b := if b = 0 then [1] else if b = 1 then [2, 3] else []

/-- The counting loop with its phi, and a value on the stack of its variable. -/
theorem reName_restores_counting :
    ∃ g s', generatePhi ⟨id, fun l => .refl l⟩ ⟨id, fun l => .refl l⟩ countingDom 25 counting =
        .ok g ∧
      reName countingDom.domTreeSucc 4 0
        ⟨g, fun v => if v = .instr 0 then some [.int32 7] else none⟩ = .ok s' ∧
      ∀ v, (s'.varValStack v).getD [] =
        ((fun v => if v = .instr 0 then some [.int32 7] else none : Stacks) v).getD [] := by
  have hok : (match generatePhi ⟨id, fun l => .refl l⟩ ⟨id, fun l => .refl l⟩ countingDom 25
      counting >>= fun g => reName countingDom.domTreeSucc 4 0
        ⟨g, fun v => if v = .instr 0 then some [.int32 7] else none⟩ with
    | .error _ => false
    | .ok _ => true) = true := by
    decide +kernel
  cases hrun : generatePhi ⟨id, fun l => .refl l⟩ ⟨id, fun l => .refl l⟩ countingDom 25
      counting >>= fun g => reName countingDom.domTreeSucc 4 0
        ⟨g, fun v => if v = .instr 0 then some [.int32 7] else none⟩ with
  | error e =>
    rw [hrun] at hok
    cases hok
  | ok s' =>
    obtain ⟨g, hg, hs'⟩ := bind_ok.mp hrun
    have hU : ∀ a, ∀ b ∈ countingDom.domFrontier a, b ∈ [1] := by
      intro a b hb
      by_cases ha : a = 1 ∨ a = 2
      · simpa [countingDom, ha] using hb
      · simp [countingDom, ha] at hb
    have hfuel : counting.blocks.length + [1].length < 25 := by decide
    obtain ⟨g', phis, hg', hP, -⟩ := generatePhi_places ⟨id, fun l => .refl l⟩
      ⟨id, fun l => .refl l⟩ hU hfuel
    obtain rfl := Except.ok.inj (hg.symm.trans hg')
    have hcontents := counting_contents.phied hP counting_input.allocated
    exact ⟨g, s', hg, hs', (reName_restores hcontents).1 s' (by decide) hs'⟩

end Cminusfc.Optimization.Mem2Reg
