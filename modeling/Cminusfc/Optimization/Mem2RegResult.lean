import Cminusfc.Optimization.Mem2RegRename

/-!
# The function `Mem2Reg::run` leaves

`SsaInput` is a function in SSA form as the IR builder leaves it. `run_renamed`: whenever the pass
completes on one, the result has the shape `Renamed`. Loads and stores of variables and the scalar
allocas are gone; every operand has become the value that takes its place; every phi has, for each
predecessor at which its variable has a value, that value as the first pair.

About `src/optimization/Mem2Reg.cpp` 9-196.
-/

namespace Cminusfc.Optimization.Mem2Reg

open Cminusfc.LightIR Dominance
open Dominators (InFrontier enoughFuel)

/-- A function in SSA form, as the IR builder leaves it. -/
structure SsaInput (f : Func) : Prop extends Input f where
  nodup : f.instrs.Nodup
  terminated : f.WellTerminated
  targets : ∀ b ∈ f.blocks, ∀ c, c ∈ f.succ b ↔ c ∈ (f.instr (f.termOf b)).targets
  entry_pre : f.pre f.entry = []
  /-- Every use of an instruction is recorded. -/
  users : ∀ u ∈ f.instrs, ∀ (no : Nat) (l : InstrId), (f.instr u).operands[no]? = some (.instr l) →
    (u, no) ∈ f.uses (.instr l)
  ssa : Ssa f
  shape : ∀ i ∈ f.instrs, ((f.instr i).op = .load → (f.instr i).operands.length = 1) ∧
    ((f.instr i).op = .store → (f.instr i).operands.length = 2)
  /-- A scalar alloca is the address of loads and stores and nothing else. -/
  scalars : ∀ i ∈ f.instrs, ∀ (no : Nat) (v : Value), (f.instr i).operands[no]? = some v →
    (f.cell v).isSome = true → Address f i no
  values : ∀ i ∈ f.instrs, ∀ v, storeOf f i = some v → (rval f i).asBlock = none

variable {f g G : Func} {phis : BlockId → List InstrId} {b c d P : BlockId} {v x : Value}
  {i j l u : InstrId} {pre post : List InstrId}

/-! ## The function with its phis -/

/-- What is known of the function with its phis. -/
structure Phis (f g : Func) (phis : BlockId → List InstrId) : Prop extends Phied f g phis where
  input : SsaInput f
  at_iff : ∀ b v, (∃ i ∈ phis b, (g.instr i).lval = some v) ↔ PhiAt f v b
  idom : ∀ b ∈ f.blocks, b ≠ f.entry → ∃ d, IDom f.Edge f.entry d b

section Phis

variable (h : Phis f g phis)
include h

theorem Phis.blocks_eq : g.blocks = f.blocks := by
  unfold Cfg.blocks
  rw [h.toCfg]

theorem Phis.mem_instrs (hi : i ∈ f.instrs) : i ∈ g.instrs := by
  obtain ⟨b, hb, hib⟩ := List.mem_flatMap.mp hi
  exact List.mem_flatMap.mpr ⟨b, by rwa [h.blocks_eq], by rw [h.body]; exact List.mem_append_right _ hib⟩

theorem Phis.mem_old (hu : u ∈ g.instrs) (hphi : isPhi g u = false) : u ∈ f.instrs := by
  obtain ⟨b, hb, hub⟩ := List.mem_flatMap.mp hu
  rw [h.blocks_eq] at hb
  rcases (h.mem_body hb).mp hub with hmem | ⟨-, hmem⟩
  · rw [(h.phi_facts hmem).1] at hphi
    cases hphi
  · exact hmem

theorem Phis.mem_old_of_lt (hu : u ∈ g.instrs) (hlt : u < f.next) : u ∈ f.instrs := by
  obtain ⟨b, hb, hub⟩ := List.mem_flatMap.mp hu
  rw [h.blocks_eq] at hb
  rcases (h.mem_body hb).mp hub with hmem | ⟨-, hmem⟩
  · exact absurd rfl (InstrId.ne_of_lt_of_le hlt (h.phi b u hmem).1)
  · exact hmem

theorem Phis.blocks_nodup : f.blocks.Nodup := by
  refine (List.nodup_flatMap.mp h.input.nodup).2.imp_of_mem fun {b c} hb _ hdis => ?_
  rintro rfl
  have hbody := (h.input.terminated b hb).1
  have hmem : f.termOf b ∈ f.body b := by
    rw [hbody]
    simp
  exact hdis hmem hmem

theorem Phis.instrs_nodup : g.instrs.Nodup := by
  have hold := List.nodup_flatMap.mp h.input.nodup
  have hlt : ∀ b ∈ f.blocks, ∀ i ∈ f.body b, i < f.next := fun b hb i hi =>
    (h.input.allocated i (Func.mem_instrs hb hi)).1
  unfold Func.instrs
  rw [h.blocks_eq, List.nodup_flatMap]
  constructor
  · intro b hb
    rw [h.body, List.nodup_append]
    exact ⟨h.toPhied.nodup b, hold.1 b hb, fun i hi j hj =>
      (InstrId.ne_of_lt_of_le (hlt b hb j hj) (h.phi b i hi).1).symm⟩
  · refine (h.blocks_nodup.and hold.2).imp_of_mem fun {b c} hb hc hbc i hi hi' => ?_
    rw [h.body, List.mem_append] at hi hi'
    rcases hi with hi | hi <;> rcases hi' with hi' | hi'
    · obtain ⟨-, -, v, ty, hx⟩ := h.phi b i hi
      obtain ⟨-, -, v', ty', hx'⟩ := h.phi c i hi'
      rw [hx] at hx'
      exact hbc.1 (congrArg Instr.parent hx')
    · exact InstrId.ne_of_lt_of_le (hlt c hc i hi') (h.phi b i hi).1 rfl
    · exact InstrId.ne_of_lt_of_le (hlt b hb i hi) (h.phi c i hi').1 rfl
    · exact hbc.2 hi hi'

theorem Phis.placing : Placing g where
  nodup := h.instrs_nodup
  reach b := by
    rw [h.blocks_eq, h.toCfg]
    exact h.input.reach_iff b
  idom b hb hbe := by
    rw [h.toCfg]
    rw [h.toCfg] at hbe
    exact h.idom b (h.blocks_eq ▸ hb) hbe

theorem Phis.ssa : Ssa g := by
  intro b hb pre i post hbody j hj
  rw [h.blocks_eq] at hb
  rw [h.body] at hbody
  have hi : i ∈ f.body b := by
    have hmem : i ∈ phis b ++ f.body b := by
      rw [hbody]
      simp
    refine (List.mem_append.mp hmem).resolve_left fun hi => ?_
    obtain ⟨-, -, v, ty, hx⟩ := h.phi b i hi
    rw [hx] at hj
    cases hj
  obtain ⟨s, t, hst⟩ := List.append_of_mem hi
  have hpre : pre = phis b ++ s := by
    have hbody' : g.body b = (phis b ++ s) ++ i :: t := by rw [h.body, hst, List.append_assoc]
    exact (h.placing.place_unique (h.blocks_eq.symm ▸ hb) (h.blocks_eq.symm ▸ hb)
      ((h.body b).trans hbody) hbody').2
  rw [h.instr_eq h.input.toInput (Func.mem_instrs hb hi)] at hj
  rw [hpre]
  cases h.input.ssa b hb s i t hst j hj with
  | inl hs => exact Or.inl (List.mem_append_right _ hs)
  | inr habove =>
    obtain ⟨a, ha, hja⟩ := habove
    refine Or.inr ⟨a, ?_, ?_⟩
    · rw [h.toCfg]
      exact ha
    · rw [h.body]
      exact List.mem_append_right _ hja

theorem Phis.ordered : Ordered g where
  toPlacing := h.placing
  ready := h.ready h.input.toInput h.at_iff
  ssa := h.ssa
  phis_first b hb := by
    rw [h.blocks_eq] at hb
    exact ⟨phis b, f.body b, h.body b, fun i hi => (h.phi_facts hi).1,
      fun i hi => h.isPhi_old h.input.toInput (Func.mem_instrs hb hi)⟩

/-- The start of the walk. -/
theorem Phis.vals_start : Vals g (Done g [] []) [] g := by
  refine ⟨fun _ _ => rfl, fun u hu hphi no a ha => ⟨a, ha, Or.inr ⟨by simp [Done], rfl⟩⟩, ?_, ?_⟩
  · intro l hl _ u no
    rw [h.uses]
    constructor
    · intro hmem
      obtain ⟨huf, hop⟩ := h.input.uses l (u, no) hmem
      rw [h.instr_eq h.input.toInput huf]
      exact ⟨h.mem_instrs huf, h.isPhi_old h.input.toInput huf, hop⟩
    · rintro ⟨hu, hphi, hop⟩
      have huf := h.mem_old hu hphi
      rw [h.instr_eq h.input.toInput huf] at hop
      exact h.input.users u huf no l hop
  · intro i hi hphi
    obtain ⟨b, hb, hib⟩ := List.mem_flatMap.mp hi
    rw [h.blocks_eq] at hb
    rcases (h.mem_body hb).mp hib with hmem | ⟨-, hmem⟩
    · obtain ⟨-, -, v, ty, hx⟩ := h.phi b i hmem
      exact ⟨[], by simp [hx, pairOperands], by simp, by simp⟩
    · rw [h.isPhi_old h.input.toInput hmem] at hphi
      cases hphi

end Phis

/-! ## The result -/

theorem removeAlloca_spec (F : Func) : (removeAlloca F).toCfg = F.toCfg ∧
    (removeAlloca F).instr = F.instr ∧ ∀ b ∈ F.blocks,
      (removeAlloca F).body b = (F.body b).filter fun i => !isScalarAlloca F i := by
  have hloop : ∀ (bs : List BlockId) (F : Func),
      let F' := bs.foldl (fun f bb =>
        ((f.body bb).filter (isScalarAlloca f)).foldl (fun f i => f.deleteInstr bb i) f) F
      F'.toCfg = F.toCfg ∧ F'.instr = F.instr ∧ ∀ b, F'.body b =
        if b ∈ bs then (F.body b).filter fun i => !isScalarAlloca F i else F.body b := by
    intro bs
    induction bs with
    | nil => simp
    | cons bb bs ih =>
      intro F
      obtain ⟨h₁, h₂, h₃, -⟩ := foldl_deleteInstr bb ((F.body bb).filter (isScalarAlloca F)) F
      obtain ⟨h₁', h₂', h₃'⟩ := ih (((F.body bb).filter (isScalarAlloca F)).foldl
        (fun f i => f.deleteInstr bb i) F)
      have hpred : isScalarAlloca (((F.body bb).filter (isScalarAlloca F)).foldl
          (fun f i => f.deleteInstr bb i) F) = isScalarAlloca F := by
        funext i
        simp [isScalarAlloca, h₂]
      refine ⟨h₁'.trans h₁, h₂'.trans h₂, fun b => ?_⟩
      rw [List.foldl_cons, h₃', h₃, hpred]
      by_cases hb : b = bb
      · subst hb
        have hfilter : (F.body b).filter (· ∉ (F.body b).filter (isScalarAlloca F)) =
            (F.body b).filter fun i => !isScalarAlloca F i := by
          refine List.filter_congr fun i hi => ?_
          simp [hi]
        rw [if_pos rfl, hfilter]
        simp [List.filter_filter]
      · simp [hb]
  obtain ⟨h₁, h₂, h₃⟩ := hloop F.blocks F
  exact ⟨h₁, h₂, fun b hb => (h₃ b).trans (if_pos hb)⟩

/-- An instruction that stays. -/
def keep (f : Func) (i : InstrId) : Bool := !access f i && !isScalarAlloca f i

/-- The result `G` of the pass, with `g` the function after `generate_phi`. -/
structure Renamed (f g G : Func) (phis : BlockId → List InstrId) : Prop extends Phis f g phis where
  result_cfg : G.toCfg = f.toCfg
  result_body : ∀ b ∈ f.blocks, G.body b = phis b ++ (f.body b).filter (keep f)
  kind : ∀ u, (G.instr u).op = (g.instr u).op ∧ (G.instr u).ty = (g.instr u).ty
  result_instr : ∀ u ∈ g.instrs, G.instr u = { g.instr u with operands := (G.instr u).operands }
  length : ∀ u ∈ f.instrs, (G.instr u).operands.length = (f.instr u).operands.length
  operand : ∀ u ∈ f.instrs, ∀ (no : Nat) (a : Value), (f.instr u).operands[no]? = some a →
    ∃ c, (G.instr u).operands[no]? = some c ∧ Resolves g a c
  pairs : ∀ b ∈ f.blocks, ∀ i ∈ phis b, ∀ v, phiOf g i = some v → ∀ P ∈ f.blocks, b ∈ f.succ P →
    (∃ a, f.Dominates a P ∧ Defines f v a) → ∃ x, Reaches g P (g.body P) v x ∧
      (G.instr i).phiPairs.find? (·.2 = P) = some (x, P)

theorem pairsOf_pairOperands (ps : List (Value × BlockId)) :
    Instr.pairsOf (pairOperands ps) = ps := by
  induction ps with
  | nil => rfl
  | cons q ps ih =>
    have hcons : pairOperands (q :: ps) = q.1 :: .block q.2 :: pairOperands ps := rfl
    rw [hcons, Instr.pairsOf, ih]

theorem Phied.access_eq (h : Input f) (hP : Phied f g phis) (hi : i ∈ f.instrs) :
    access g i = access f i := by
  rw [access, access, hP.loadOf_eq h hi, hP.storeOf_eq h hi]

/-- **The shape of the result**, whenever the pass completes. -/
theorem run_renamed (h : SsaInput f) (vars : SetOrder Value) (blocks : SetOrder BlockId)
    (old : Dominators.IdomMap) {fuel : Nat} (hfuel : enoughFuel f.toCfg ≤ fuel)
    (hrun : run vars blocks fuel old f = .ok G) : ∃ g phis, Renamed f g G phis := by
  obtain ⟨dom, g, phis, hdom, hT, hgen, hP, hat, hlen⟩ := run_phases h.toInput vars blocks old hfuel
  have hph : Phis f g phis := ⟨hP, h, hat, fun b hb hbe => by
    obtain ⟨d, hd⟩ := hT.parent b hb hbe
    exact ⟨d, ((hT.mem d b).mp hd).2⟩⟩
  have hentry : g.entry = f.entry := by rw [hP.toCfg]
  simp only [run, hdom, hgen, Fallible.ok_bind] at hrun
  obtain ⟨s, hs, hG⟩ := Fallible.bind_ok.mp hrun
  cases hG
  -- the walk over the dominator tree
  have hT' : IsTree g.toCfg fun bb => blocks.enum (dom.domTreeSucc bb) := by rwa [hP.toCfg]
  have hlen' : g.blocks.length < fuel := by rwa [hph.blocks_eq]
  have hroom := room_entry hlen'
  have hord := hph.ordered
  have hL := (reName_spec hord.ready hT' fuel g.entry [] [] [] g (fun _ => none) List.mem_cons_self
    hroom hord.ready.kept (ctx_entry g) (by simp)).2 s hs
  have htop : TopAt g (fun _ => none) g.entry [] := by
    intro v x
    rw [Reaches.nil_iff]
    simp only [top, Option.getD_none, List.head?_nil, reduceCtorEq, false_iff, not_exists, not_and]
    exact fun d hd => absurd hd.1.1.eq_root hd.1.2
  have hvals := reName_vals hord hT' fuel g.entry [] [] [] g (fun _ => none) s List.mem_cons_self
    hroom hord.ready.kept (ctx_entry g) (by simp) (fun a ha => absurd ha.1.eq_root ha.2) (by simp)
    hph.vals_start htop hs
  have hall : ∀ b, b ∈ visitOrder (fun bb => blocks.enum (dom.domTreeSucc bb)) fuel g.entry ↔
      b ∈ f.blocks := by
    intro b
    rw [← hph.blocks_eq]
    exact ⟨fun hb => (hT'.of_mem_visitOrder fuel g.entry List.mem_cons_self b hb).1,
      fun hb => hT'.mem_visitOrder hlen' hb⟩
  have hkept := hL.kept
  obtain ⟨hcfg, hinstr, hbody⟩ := removeAlloca_spec s.f
  have hsblocks : s.f.blocks = f.blocks := by
    unfold Cfg.blocks
    rw [hkept.toCfg, hP.toCfg]
  have hscalar : ∀ i ∈ g.instrs, isScalarAlloca s.f i = isScalarAlloca g i := by
    intro i hi
    rw [isScalarAlloca, hvals.rest i hi]
    rfl
  refine ⟨g, phis, hph, ?_, fun b hb => ?_, fun u => ?_, ?_, fun u hu => ?_,
    fun u hu no a ha => ?_, ?_⟩
  · rw [hcfg, hkept.toCfg, hP.toCfg]
  · have hb' : b ∈ visitOrder (fun bb => blocks.enum (dom.domTreeSucc bb)) fuel g.entry ++ [] := by
      simpa using (hall b).mpr hb
    rw [hbody b (hsblocks ▸ hb), hkept.body, if_pos hb', List.filter_filter, hP.body,
      List.filter_append]
    congr 1
    · refine List.filter_eq_self.mpr fun i hi => ?_
      obtain ⟨hphi, -, hl, hst⟩ := hP.phi_facts hi
      have hig : i ∈ g.instrs := Func.mem_instrs (hph.blocks_eq.symm ▸ hb)
        (by rw [hP.body]; exact List.mem_append_left _ hi)
      rw [hscalar i hig]
      simp [access, hl, hst, isScalarAlloca, isPhi_op hphi]
    · refine List.filter_congr fun i hi => ?_
      have hif := Func.mem_instrs hb hi
      rw [hscalar i (hph.mem_instrs hif), hP.access_eq h.toInput hif, keep, Bool.and_comm]
      simp only [isScalarAlloca, hP.instr_eq h.toInput hif]
  · rw [hinstr]
    exact ⟨hkept.op u, hkept.ty u⟩
  · rw [hinstr]
    exact hvals.rest
  · have hop : (g.instr u).op ≠ .phi := by
      have := hP.isPhi_old h.toInput hu
      simpa [isPhi] using this
    rw [hinstr, hkept.length u hop, hP.instr_eq h.toInput hu]
  · rw [← hP.instr_eq h.toInput hu] at ha
    obtain ⟨c, hc, hcase⟩ := hvals.operand u (hph.mem_instrs hu) (hP.isPhi_old h.toInput hu) no a ha
    rw [hinstr]
    refine ⟨c, hc, ?_⟩
    cases hcase with
    | inl hres => exact hres.2
    | inr hkeep =>
      rw [hkeep.2]
      refine .self fun l hl => ?_
      by_contra hload
      obtain ⟨b, hb, hub⟩ := List.mem_flatMap.mp (hph.mem_instrs hu)
      obtain ⟨pre, post, hsplit⟩ := List.append_of_mem hub
      refine hkeep.1 l hl ⟨Option.isSome_iff_ne_none.mpr hload, Or.inr ?_⟩
      simp only [List.nil_append, hall]
      cases hord.ssa b hb pre u post hsplit l (hl ▸ List.mem_of_getElem? ha) with
      | inl hpre => exact ⟨b, hph.blocks_eq ▸ hb, by rw [hsplit]; exact List.mem_append_left _ hpre⟩
      | inr habove =>
        obtain ⟨a', ha', hla⟩ := habove
        have := (hord.reach a').mp (ha'.1.reachable ((hord.reach b).mpr hb))
        exact ⟨a', hph.blocks_eq ▸ this, hla⟩
  · intro b hb i hi v hv P hP' hPb hdef
    have hib : i ∈ g.body b := by
      rw [hP.body]
      exact List.mem_append_left _ hi
    obtain ⟨ps, hops, -, hfind⟩ := hvals.pairs i (Func.mem_instrs (hph.blocks_eq.symm ▸ hb) hib)
      (hP.phi_facts hi).1
    rw [Instr.phiPairs, hinstr, hops, pairsOf_pairOperands]
    refine hfind b v hib hv P (by simpa using (hall P).mpr hP') (by rwa [hP.toCfg]) ?_
    obtain ⟨a, ha, hav⟩ := hdef
    refine ⟨a, by rwa [hP.toCfg], (hP.gives_iff h.toInput hat ?_).mpr hav⟩
    exact (h.reach_iff a).mp (ha.reachable (h.reach P hP'))

end Cminusfc.Optimization.Mem2Reg
