import Cminusfc.Optimization.DominatorsCorrect

/-!
# The dominance frontiers and the dominator tree

What `create_dominance_frontier` and `create_dom_tree_succ` leave, for a function whose blocks are
all reachable, in terms of the graph alone (`DomTree`):

* `domTreeSucc d` holds the blocks whose immediate dominator is `d`, each once;
* `domFrontier a` is the dominance frontier of `a` (`InFrontier`). The walk up the chain stops at
  the immediate dominator, which for the entry is the entry itself, and only blocks with two
  predecessors are looked at. So the entry, if it has predecessors, is missing from its own
  frontier, and from every frontier when it has one predecessor only.

About `src/optimization/Dominators.cpp` 162-192.
-/

namespace Cminusfc.Optimization.Dominators

open Cminusfc.LightIR Dominance

/-- `b` is in the dominance frontier of `a`, as the pass computes it. -/
def InFrontier (g : Cfg) (a b : BlockId) : Prop :=
  Frontier g.Edge g.entry a b ∧ (b = g.entry → a ≠ g.entry ∧ 2 ≤ (g.pre g.entry).length)

/-- What the results of the pass mean. -/
structure DomTree (g : Cfg) (r : Result) : Prop where
  kids : ∀ d c, c ∈ r.domTreeSucc d ↔ c ∈ g.blocks ∧ IDom g.Edge g.entry d c
  kids_nodup : ∀ d, (r.domTreeSucc d).Nodup
  parent : ∀ c ∈ g.blocks, c ≠ g.entry → ∃ d, c ∈ r.domTreeSucc d
  frontier : ∀ a b, b ∈ r.domFrontier a ↔ b ∈ g.blocks ∧ InFrontier g a b

variable {g : FlowGraph} {id : BlockId → Nat} {order : List BlockId} {idom : IdomMap}
  {a b bb d p x : BlockId} {sets df : BlockSets}

theorem BlockSets.mem_add {y z : BlockId} : y ∈ sets.add b x z ↔ y ∈ sets z ∨ z = b ∧ y = x := by
  unfold BlockSets.add
  by_cases h : z = b
  · subst h
    rw [Function.update_self, List.mem_insert_iff]
    tauto
  · simp [h]

theorem BlockSets.nodup_add (h : ∀ z, (sets z).Nodup) (z : BlockId) : (sets.add b x z).Nodup := by
  unfold BlockSets.add
  by_cases hz : z = b
  · subst hz
    rw [Function.update_self]
    exact (h z).insert
  · simp [hz, h]

/-! ## The walk up the chain -/

/-- The walk from `p` to the link of `bb` adds `bb` to the frontier of every block on the way. -/
theorem runnerLoop_spec (hT : Tree g id idom) (hbb : idom bb = some d) :
    ∀ (n : Nat) (p : BlockId) (df : BlockSets), g.Reach p → Up idom p d → id d < id p + n →
      ∃ df', runnerLoop idom bb n (some p) df = .ok df' ∧
        ∀ a y, y ∈ df' a ↔ y ∈ df a ∨ y = bb ∧ Up idom p a ∧ ¬ Up idom d a := by
  intro n
  induction n with
  | zero =>
    intro p df hp hup hlt
    have := hT.le_up hp hup
    omega
  | succ n ih =>
    intro p df hp hup hlt
    by_cases hpd : p = d
    · subst hpd
      refine ⟨df, by simp [runnerLoop, hbb], fun a y => ?_⟩
      tauto
    · obtain ⟨q, hq, hqd⟩ := Relation.ReflTransGen.cases_head hup |>.resolve_left hpd
      have hpe : p ≠ g.entry := by
        rintro rfl
        exact hpd (hT.up_entry hup).symm
      have hlt' := hT.lt p q hp hpe hq
      obtain ⟨df', hrun, hdf'⟩ := ih q (df.add p bb) (hT.parent_reach p q hp hq) hqd (by omega)
      refine ⟨df', ?_, fun a y => ?_⟩
      · simp only [runnerLoop, hbb, Option.some.injEq, if_neg hpd, hq]
        exact hrun
      · have hdp : ¬ Up idom d p := by
          intro h
          have h₁ := hT.le_up (hT.reach_up hp hup) h
          have h₂ := hT.le_up (hT.parent_reach p q hp hq) hqd
          omega
        have hpa : Up idom p a ↔ a = p ∨ Up idom q a := by
          constructor
          · intro h
            by_cases hap : a = p
            · exact Or.inl hap
            · exact Or.inr (h.tail hap hq)
          · rintro (rfl | h)
            · exact Up.refl
            · exact (Up.link hq).trans h
        rw [hdf', BlockSets.mem_add, hpa]
        by_cases hap : a = p
        · subst hap
          tauto
        · tauto

/-- The loop over some predecessors of `bb`. -/
theorem foldlM_runnerLoop (hN : Numbered g id order) (hT : Tree g id idom) (hbb : idom bb = some d)
    {fuel : Nat} (hf : id g.entry < fuel) :
    ∀ (ps : List BlockId) (df : BlockSets), (∀ p ∈ ps, g.Reach p ∧ Up idom p d) →
      ∃ df', ps.foldlM (fun df p => runnerLoop idom bb fuel (some p) df) df = .ok df' ∧
        ∀ a y, y ∈ df' a ↔ y ∈ df a ∨ y = bb ∧ ∃ p ∈ ps, Up idom p a ∧ ¬ Up idom d a := by
  intro ps
  induction ps with
  | nil => exact fun df _ => ⟨df, rfl, by simp⟩
  | cons p ps ih =>
    intro df hps
    obtain ⟨hp, hup⟩ := hps p List.mem_cons_self
    have hle := hN.le_top (hT.reach_up hp hup)
    obtain ⟨df₁, hrun, hdf₁⟩ := runnerLoop_spec hT hbb fuel p df hp hup (by omega)
    obtain ⟨df', hrest, hdf'⟩ := ih df₁ fun q hq => hps q (List.mem_cons_of_mem _ hq)
    refine ⟨df', ?_, fun a y => ?_⟩
    · rw [List.foldlM_cons, hrun]
      exact hrest
    · rw [hdf', hdf₁, List.exists_mem_cons_iff]
      tauto

/-! ## The frontiers -/

/-- What the loop over the predecessors of `bb` finds, in terms of the links. -/
def Runs (g : Cfg) (idom : IdomMap) (bb a : BlockId) : Prop :=
  2 ≤ (g.pre bb).length ∧ ∃ p ∈ g.pre bb, Up idom p a ∧ ∀ d, idom bb = some d → ¬ Up idom d a

theorem createDominanceFrontier_spec (hN : Numbered g id order) (hI : Inv g id idom order)
    (hst : ∀ b ∈ order, Stable g idom b) (hall : ∀ b ∈ g.blocks, g.Reach b)
    {fuel : Nat} (hf : id g.entry < fuel) :
    ∃ df, createDominanceFrontier g.toCfg idom fuel = .ok df ∧
      ∀ a y, y ∈ df a ↔ y ∈ g.blocks ∧ Runs g.toCfg idom y a := by
  have hloop : ∀ (bs : List BlockId) (df : BlockSets), (∀ b ∈ bs, b ∈ g.blocks) →
      ∃ df', bs.foldlM (fun df bb =>
        if 2 ≤ (g.pre bb).length then
          (g.pre bb).foldlM (fun df p => runnerLoop idom bb fuel (some p) df) df
        else .ok df) df = .ok df' ∧
        ∀ a y, y ∈ df' a ↔ y ∈ df a ∨ y ∈ bs ∧ Runs g.toCfg idom y a := by
    intro bs
    induction bs with
    | nil => exact fun df _ => ⟨df, rfl, by simp⟩
    | cons bb bs ih =>
      intro df hbs
      have hbb := hall bb (hbs bb List.mem_cons_self)
      obtain ⟨d, hd⟩ := Option.isSome_iff_exists.mp (hI.isSome_of_reach hN hbb)
      have hpreds : ∀ p ∈ g.pre bb, g.Reach p ∧ Up idom p d := by
        intro p hp
        have hpr := hall p (g.pre_closed bb (hbs bb List.mem_cons_self) p hp)
        refine ⟨hpr, ?_⟩
        by_cases hne : bb = g.entry
        · rw [hne, hI.root] at hd
          cases hd
          exact (up_iff_dominates hN hI hst hpr).mpr Dom.root
        · exact hst bb ((hN.mem_iff bb).mpr hbb) hne d hd p hp (hI.isSome_of_reach hN hpr)
      obtain ⟨df₁, hrun, hdf₁⟩ : ∃ df₁, (if 2 ≤ (g.pre bb).length then
          (g.pre bb).foldlM (fun df p => runnerLoop idom bb fuel (some p) df) df
        else Except.ok df) = .ok df₁ ∧
          ∀ a y, y ∈ df₁ a ↔ y ∈ df a ∨ y = bb ∧ Runs g.toCfg idom bb a := by
        by_cases hlen : 2 ≤ (g.pre bb).length
        · obtain ⟨df₁, hrun, hdf₁⟩ := foldlM_runnerLoop hN hI.toTree hd hf (g.pre bb) df hpreds
          refine ⟨df₁, by rw [if_pos hlen]; exact hrun, fun a y => ?_⟩
          rw [hdf₁]
          simp [Runs, hlen, hd]
        · refine ⟨df, by rw [if_neg hlen], fun a y => ?_⟩
          simp [Runs, hlen]
      obtain ⟨df', hrest, hdf'⟩ := ih df₁ fun b hb => hbs b (List.mem_cons_of_mem _ hb)
      refine ⟨df', ?_, fun a y => ?_⟩
      · rw [List.foldlM_cons, hrun]
        exact hrest
      · rw [hdf', hdf₁, List.mem_cons]
        by_cases hy : y = bb
        · subst hy
          tauto
        · tauto
  obtain ⟨df, hrun, hdf⟩ := hloop g.blocks (fun _ => []) fun _ h => h
  refine ⟨df, hrun, fun a y => ?_⟩
  rw [hdf]
  simp

/-- The chain of the link of `b` holds the strict dominators of `b`, for the entry the entry. -/
theorem up_link_iff (hN : Numbered g id order) (hI : Inv g id idom order)
    (hst : ∀ b ∈ order, Stable g idom b) (hb : g.Reach b) (hd : idom b = some d) :
    Up idom d a ↔ if b = g.entry then a = g.entry else g.StrictlyDominates a b := by
  by_cases hne : b = g.entry
  · subst hne
    rw [hI.root] at hd
    cases hd
    rw [if_pos rfl]
    exact ⟨hI.up_entry, fun h => h ▸ Up.refl⟩
  · obtain ⟨d', hd', hidom⟩ := idom_of_stable hN hI hst hb hne
    obtain rfl : d' = d := Option.some.inj (hd'.symm.trans hd)
    rw [if_neg hne, up_iff_dominates hN hI hst (hI.parent_reach b d' hb hd)]
    exact ⟨fun h => hidom.1.trans_dom hb h, fun h => hidom.2 a h⟩

theorem runs_iff (hN : Numbered g id order) (hI : Inv g id idom order)
    (hst : ∀ b ∈ order, Stable g idom b) (hall : ∀ b ∈ g.blocks, g.Reach b)
    (hb : b ∈ g.blocks) : Runs g.toCfg idom b a ↔ InFrontier g.toCfg a b := by
  obtain ⟨d, hd⟩ := Option.isSome_iff_exists.mp (hI.isSome_of_reach hN (hall b hb))
  have hlink := fun a => up_link_iff (a := a) hN hI hst (hall b hb) hd
  have hpred : ∀ p ∈ g.pre b, ∀ a, Up idom p a ↔ g.Dominates a p := fun p hp a =>
    up_iff_dominates hN hI hst (hall p (g.pre_closed b hb p hp))
  simp only [Runs, hd, Option.some.injEq, forall_eq', InFrontier, Frontier]
  constructor
  · rintro ⟨hlen, p, hp, hup, hnot⟩
    have hdom := (hpred p hp a).mp hup
    refine ⟨⟨⟨p, hall p (g.pre_closed b hb p hp), (g.inverse p b).mpr hp, hdom⟩, fun hs => ?_⟩,
      fun hbe => ?_⟩
    · by_cases hbe : b = g.entry
      · subst hbe
        exact hs.2 hs.1.eq_root
      · exact hnot ((hlink a).mpr (by rw [if_neg hbe]; exact hs))
    · subst hbe
      exact ⟨fun hae => hnot ((hlink a).mpr (by rw [if_pos rfl]; exact hae)), hlen⟩
  · rintro ⟨⟨⟨p, hpr, he, hdom⟩, hs⟩, hentry⟩
    have hp := (g.inverse p b).mp he
    have hnot : ¬ Up idom d a := by
      rw [hlink]
      by_cases hbe : b = g.entry
      · rw [if_pos hbe]
        exact (hentry hbe).1
      · rw [if_neg hbe]
        exact hs
    refine ⟨?_, p, hp, (hpred p hp a).mpr hdom, hnot⟩
    by_cases hbe : b = g.entry
    · rw [hbe]
      exact (hentry hbe).2
    · -- with a single predecessor every dominator of it dominates the block strictly
      by_contra hlen
      have hone : ∀ q ∈ g.pre b, q = p := by
        match hpre : g.pre b with
        | [] => simp
        | [q] =>
          rw [hpre, List.mem_singleton] at hp
          rw [hp]
          exact fun q hq => List.mem_singleton.mp hq
        | _ :: _ :: _ =>
          rw [hpre, List.length_cons, List.length_cons] at hlen
          omega
      have hdb : g.Dominates a b :=
        Dom.of_preds hbe fun q hq _ => hone q ((g.inverse q b).mp hq) ▸ hdom
      by_cases hab : a = b
      · subst hab
        obtain ⟨q, -, hq, hnd⟩ := exists_pred_not_dom (hall a hb) hbe
        exact hnd (hone q ((g.inverse q a).mp hq) ▸ hdom)
      · exact hs ⟨hdb, hab⟩

/-! ## The tree -/

theorem foldl_domTreeSucc (idom : IdomMap) :
    ∀ (bs : List BlockId) (sets : BlockSets), (∀ z, (sets z).Nodup) →
      let sets' := bs.foldl
        (fun sets bb =>
          if idom bb ≠ some bb then
            match idom bb with
            | some d => sets.add d bb
            | none => sets
          else sets) sets
      (∀ z, (sets' z).Nodup) ∧
        ∀ d c, c ∈ sets' d ↔ c ∈ sets d ∨ c ∈ bs ∧ idom c = some d ∧ c ≠ d := by
  intro bs
  induction bs with
  | nil => exact fun sets h => ⟨h, by simp⟩
  | cons bb bs ih =>
    intro sets hnd
    simp only [List.foldl_cons]
    cases hbb : idom bb with
    | none =>
      obtain ⟨h₁, h₂⟩ := ih sets hnd
      refine ⟨by simpa [hbb] using h₁, fun d c => ?_⟩
      simp only [ne_eq, reduceCtorEq, not_false_eq_true, if_true]
      rw [h₂, List.mem_cons]
      by_cases hc : c = bb
      · subst hc
        simp [hbb]
      · tauto
    | some e =>
      by_cases he : e = bb
      · subst he
        obtain ⟨h₁, h₂⟩ := ih sets hnd
        refine ⟨by simpa [hbb] using h₁, fun d c => ?_⟩
        simp only [ne_eq, not_true_eq_false, if_false]
        rw [h₂, List.mem_cons]
        by_cases hc : c = e
        · subst hc
          simp only [hbb, Option.some.injEq]
          tauto
        · tauto
      · obtain ⟨h₁, h₂⟩ := ih (sets.add e bb) (BlockSets.nodup_add hnd)
        refine ⟨by simpa [hbb, he] using h₁, fun d c => ?_⟩
        simp only [ne_eq, Option.some.injEq, he, not_false_eq_true, if_true]
        rw [h₂, BlockSets.mem_add, List.mem_cons]
        by_cases hc : c = bb
        · subst hc
          simp only [hbb, Option.some.injEq]
          constructor
          · rintro ((h | ⟨rfl, -⟩) | h)
            · exact Or.inl h
            · exact Or.inr ⟨Or.inl trivial, rfl, Ne.symm he⟩
            · exact Or.inr ⟨Or.inl trivial, h.2⟩
          · rintro (h | ⟨-, rfl, -⟩)
            · exact Or.inl (Or.inl h)
            · exact Or.inl (Or.inr ⟨rfl, trivial⟩)
        · tauto

theorem createDomTreeSucc_spec (g : Cfg) (idom : IdomMap) :
    (∀ d, (createDomTreeSucc g idom d).Nodup) ∧
      ∀ d c, c ∈ createDomTreeSucc g idom d ↔ c ∈ g.blocks ∧ idom c = some d ∧ c ≠ d := by
  obtain ⟨h₁, h₂⟩ := foldl_domTreeSucc idom g.blocks (fun _ => []) fun _ => List.nodup_nil
  exact ⟨h₁, fun d c => (h₂ d c).trans (by simp)⟩

/-- **The pass computes the dominator tree and the dominance frontiers** of a function whose blocks
are all reachable. -/
theorem run_spec (g : FlowGraph) (hall : ∀ b ∈ g.blocks, g.Reach b) (old : IdomMap) {fuel : Nat}
    (hf : enoughFuel g.toCfg ≤ fuel) : ∃ r, run g.toCfg fuel old = .ok r ∧ DomTree g.toCfg r := by
  obtain ⟨num, idom, hnum, hr, hN, hI, hst⟩ := createIdom_spec g old hf
  have htop : num.2 g.entry < fuel := by
    have := hN.bound g.entry Reachable.refl
    unfold enoughFuel at hf
    omega
  obtain ⟨df, hdf, hfr⟩ := createDominanceFrontier_spec hN hI hst hall htop
  obtain ⟨hnd, hkids⟩ := createDomTreeSucc_spec g.toCfg idom
  refine ⟨⟨idom, df, createDomTreeSucc g.toCfg idom⟩, ?_, ?_, hnd, ?_, ?_⟩
  · simp [run, hnum, hr, hdf, bind, Except.bind]
  · intro d c
    rw [hkids]
    refine and_congr_right fun hc => ?_
    have hcr := hall c hc
    constructor
    · rintro ⟨hd, hne⟩
      have hce : c ≠ g.entry := by
        rintro rfl
        rw [hI.root] at hd
        exact hne (Option.some.inj hd)
      obtain ⟨d', hd', hidom⟩ := idom_of_stable hN hI hst hcr hce
      rwa [Option.some.inj (hd.symm.trans hd')]
    · intro hidom
      have hce : c ≠ g.entry := by
        rintro rfl
        exact hidom.1.2 hidom.1.1.eq_root
      obtain ⟨d', hd', hidom'⟩ := idom_of_stable hN hI hst hcr hce
      rw [IDom.unique hcr hidom hidom']
      exact ⟨hd', hidom'.1.2.symm⟩
  · intro c hc hce
    obtain ⟨d, hd, hidom⟩ := idom_of_stable hN hI hst (hall c hc) hce
    exact ⟨d, (hkids d c).mpr ⟨hc, hd, hidom.1.2.symm⟩⟩
  · intro a b
    rw [hfr]
    exact and_congr_right fun hb => runs_iff hN hI hst hall hb

/-! ## From the immediate dominators alone -/

/-- `idom` holds the immediate dominators of the blocks. -/
structure IsIdom (g : Cfg) (idom : IdomMap) : Prop where
  root : idom g.entry = some g.entry
  link : ∀ b ∈ g.blocks, b ≠ g.entry → ∃ d, idom b = some d ∧ IDom g.Edge g.entry d b

/-- The lists of children are one tree over the blocks, rooted at the entry. -/
structure SpanningTree (g : Cfg) (kids : BlockSets) : Prop where
  child : ∀ d c, c ∈ kids d ↔ c ∈ g.blocks ∧ IDom g.Edge g.entry d c
  nodup : ∀ d, (kids d).Nodup
  root : ∀ d, g.entry ∉ kids d
  parent : ∀ c ∈ g.blocks, c ≠ g.entry → ∃! d, c ∈ kids d
  spans : ∀ b ∈ g.blocks, Relation.ReflTransGen (fun d c => c ∈ kids d) g.entry b

variable {idom' : IdomMap}

/-- The walk up the chain looks at links of blocks only. -/
theorem runnerLoop_congr (hbb : bb ∈ g.blocks) (heq : ∀ b ∈ g.blocks, idom b = idom' b)
    (hin : ∀ b ∈ g.blocks, ∀ d, idom b = some d → d ∈ g.blocks) :
    ∀ (n : Nat) (runner : Option BlockId) (df : BlockSets), (∀ r, runner = some r → r ∈ g.blocks) →
      runnerLoop idom bb n runner df = runnerLoop idom' bb n runner df := by
  intro n
  induction n with
  | zero => exact fun _ _ _ => rfl
  | succ n ih =>
    intro runner df hr
    unfold runnerLoop
    rw [heq bb hbb]
    split_ifs
    · rfl
    · cases runner with
      | none => exact ih none df hr
      | some r =>
        have hrb := hr r rfl
        simp only
        rw [heq r hrb]
        exact ih _ _ fun d hd => hin r hrb d ((heq r hrb).trans hd)

theorem foldlM_congr_mem {σ α : Type} {k k' : σ → α → Except Fault σ} :
    ∀ (l : List α) (s : σ), (∀ x ∈ l, ∀ s, k s x = k' s x) → l.foldlM k s = l.foldlM k' s := by
  intro l
  induction l with
  | nil => exact fun _ _ => rfl
  | cons x l ih =>
    intro s h
    rw [List.foldlM_cons, List.foldlM_cons, h x List.mem_cons_self s]
    exact congrArg _ (funext fun s => ih s fun y hy => h y (List.mem_cons_of_mem _ hy))

theorem createDominanceFrontier_congr (heq : ∀ b ∈ g.blocks, idom b = idom' b)
    (hin : ∀ b ∈ g.blocks, ∀ d, idom b = some d → d ∈ g.blocks) (fuel : Nat) :
    createDominanceFrontier g.toCfg idom fuel = createDominanceFrontier g.toCfg idom' fuel := by
  refine foldlM_congr_mem _ _ fun bb hbb df => ?_
  split_ifs
  · refine foldlM_congr_mem _ _ fun p hp df => runnerLoop_congr hbb heq hin _ _ _ ?_
    rintro r ⟨⟩
    exact g.pre_closed bb hbb _ hp
  · rfl

/-- **`create_dominance_frontier` and `create_dom_tree_succ` are exact**: from the immediate
dominators of a graph whose blocks are all reachable and whose entry has no predecessors. -/
theorem createDominanceFrontier_exact (g : FlowGraph) (hall : ∀ b ∈ g.blocks, g.Reach b)
    (hentry : g.pre g.entry = []) {idom : IdomMap} (hidom : IsIdom g.toCfg idom) {fuel : Nat}
    (hf : g.blocks.length ≤ fuel) :
    ∃ df, createDominanceFrontier g.toCfg idom fuel = .ok df ∧
      (∀ n b, b ∈ df n ↔ b ∈ g.blocks ∧ Frontier g.Edge g.entry n b) ∧
        SpanningTree g.toCfg (createDomTreeSucc g.toCfg idom) := by
  obtain ⟨num, idom', -, -, hN, hI, hst⟩ := createIdom_spec g idom (Nat.le_refl _)
  have heq : ∀ b ∈ g.blocks, idom b = idom' b := by
    intro b hb
    by_cases hne : b = g.entry
    · rw [hne, hidom.root, hI.root]
    · obtain ⟨d, hd, hdom⟩ := hidom.link b hb hne
      obtain ⟨d', hd', hdom'⟩ := idom_of_stable hN hI hst (hall b hb) hne
      rw [hd, hd', IDom.unique (hall b hb) hdom hdom']
  have hin : ∀ b ∈ g.blocks, ∀ d, idom b = some d → d ∈ g.blocks := fun b hb d hd =>
    g.reach_mem (hI.parent_reach b d (hall b hb) ((heq b hb).symm.trans hd))
  obtain ⟨df, hrun, hdf⟩ := createDominanceFrontier_spec hN hI hst hall
    (Nat.lt_of_lt_of_le (hN.bound g.entry Reachable.refl) hf)
  refine ⟨df, by rw [createDominanceFrontier_congr heq hin]; exact hrun, fun n b => ?_, ?_⟩
  · rw [hdf]
    refine and_congr_right fun hb => (runs_iff hN hI hst hall hb).trans ?_
    refine ⟨And.left, fun hfr => ⟨hfr, ?_⟩⟩
    rintro rfl
    obtain ⟨p, -, he, -⟩ := hfr.1
    have hp := (g.inverse p g.entry).mp he
    rw [hentry] at hp
    exact absurd hp List.not_mem_nil
  · obtain ⟨hnd, hkids⟩ := createDomTreeSucc_spec g.toCfg idom
    have hchild : ∀ d c, c ∈ createDomTreeSucc g.toCfg idom d ↔
        c ∈ g.blocks ∧ IDom g.Edge g.entry d c := by
      intro d c
      rw [hkids]
      refine and_congr_right fun hc => ⟨fun ⟨hd, hne⟩ => ?_, fun hdom => ?_⟩
      · have hce : c ≠ g.entry := by
          rintro rfl
          exact hne (Option.some.inj (hidom.root.symm.trans hd))
        obtain ⟨d', hd', hdom⟩ := hidom.link c hc hce
        rwa [Option.some.inj (hd.symm.trans hd')]
      · have hce : c ≠ g.entry := by
          rintro rfl
          exact hdom.1.2 hdom.1.1.eq_root
        obtain ⟨d', hd', hdom'⟩ := hidom.link c hc hce
        rw [IDom.unique (hall c hc) hdom hdom']
        exact ⟨hd', hdom'.1.2.symm⟩
    refine ⟨hchild, hnd, fun d hd => ?_, fun c hc hce => ?_, fun b hb => ?_⟩
    · have hdom := ((hchild d g.entry).mp hd).2
      exact hdom.1.2 hdom.1.1.eq_root
    · obtain ⟨d, -, hdom⟩ := hidom.link c hc hce
      exact ⟨d, (hchild d c).mpr ⟨hc, hdom⟩, fun d' hd' =>
        IDom.unique (hall c hc) ((hchild d' c).mp hd').2 hdom⟩
    · -- the chain of links from the block leads to the entry
      have hup : Up idom' b g.entry := (up_iff_dominates hN hI hst (hall b hb)).mpr Dom.root
      induction hup using Relation.ReflTransGen.head_induction_on with
      | refl => exact Relation.ReflTransGen.refl
      | @head c d hcd _ ih =>
        by_cases hce : c = g.entry
        · rw [hce]
        · have hd : idom c = some d := (heq c hb).trans hcd
          obtain ⟨d', hd', hdom⟩ := hidom.link c hb hce
          obtain rfl := Option.some.inj (hd.symm.trans hd')
          exact (ih (hin c hb d hd)).tail ((hchild d c).mpr ⟨hb, hdom⟩)

/-! ## A diamond -/

/-- Two branches that meet. -/
def diamond : FlowGraph where
  entry := 0
  rest := [1, 2, 3]
  pre bb := match bb with
    | 1 => [0]
    | 2 => [0]
    | 3 => [1, 2]
    | _ => []
  succ bb := match bb with
    | 0 => [1, 2]
    | 1 => [3]
    | 2 => [3]
    | _ => []
  inverse a b := by
    match a, b with
    | 0, b | 1, b | 2, b | n + 3, b =>
      match b with
      | 0 | 1 | 2 | 3 | m + 4 => simp
  closed := by decide
  pre_closed := by decide

theorem diamond_idom : IsIdom diamond.toCfg fun _ => some 0 := by
  refine ⟨rfl, fun b hb hne => ⟨0, rfl, ⟨Dom.root, Ne.symm hne⟩, fun z hz => ?_⟩⟩
  have hwalk : ∀ a, a ∈ diamond.succ 0 → Walk diamond.Edge 0 a [a, 0] := fun a ha =>
    .step .start ha
  have hz0 : z = 0 := by
    have hb : b = 0 ∨ b = 1 ∨ b = 2 ∨ b = 3 := by simpa [Cfg.blocks, diamond] using hb
    obtain rfl | rfl | rfl | rfl := hb
    · exact absurd rfl hne
    · have := hz.1 _ (hwalk 1 (by decide))
      simpa [hz.2] using this
    · have := hz.1 _ (hwalk 2 (by decide))
      simpa [hz.2] using this
    · have h₁ := hz.1 _ ((hwalk 1 (by decide)).step (show diamond.Edge 1 3 by decide))
      have h₂ := hz.1 _ ((hwalk 2 (by decide)).step (show diamond.Edge 2 3 by decide))
      simp only [List.mem_cons, hz.2, false_or, List.not_mem_nil, or_false] at h₁ h₂
      obtain rfl | hz0 := h₁
      · exact absurd h₂ (by decide)
      · exact hz0
  rw [hz0]
  exact Dom.refl

theorem diamond_reach : ∀ b ∈ diamond.blocks, diamond.Reach b := by
  have h₁ : diamond.Reach 1 := Reachable.refl.step (show diamond.Edge 0 1 by decide)
  intro b hb
  have hb : b = 0 ∨ b = 1 ∨ b = 2 ∨ b = 3 := by simpa [Cfg.blocks, diamond] using hb
  obtain rfl | rfl | rfl | rfl := hb
  · exact Reachable.refl
  · exact h₁
  · exact Reachable.refl.step (show diamond.Edge 0 2 by decide)
  · exact h₁.step (show diamond.Edge 1 3 by decide)

/-- `createDominanceFrontier_exact` at the diamond. -/
theorem createDominanceFrontier_exact_diamond :
    ∃ df, createDominanceFrontier diamond.toCfg (fun _ => some 0) 4 = .ok df ∧
      (∀ n b, b ∈ df n ↔ b ∈ diamond.blocks ∧ Frontier diamond.Edge diamond.entry n b) ∧
        SpanningTree diamond.toCfg (createDomTreeSucc diamond.toCfg fun _ => some 0) :=
  createDominanceFrontier_exact diamond diamond_reach rfl diamond_idom (by decide)

end Cminusfc.Optimization.Dominators
