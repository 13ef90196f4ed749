import Cminusfc.Lib.Fallible
import Cminusfc.Optimization.LoopSearch

/-!
# The loop search finds the natural loops

`Inv`: between two components. What is removed is a set of heads that is closed outwards: with a head
it has the head of every loop around it. So a loop whose head is left is whole, and it is a component
(`Inv.component`); its head is what `find_loop_base` finds (`findLoopBase_eq`).

`run_found`: the search ends and has found the natural loops.

About `src/optimization/LoopSearch.cpp` 46-192.
-/

namespace Cminusfc.Optimization.LoopSearch

open Cminusfc.LightIR

variable {f : FlowGraph} {o : Orders} {s : Search} {scc : List BlockId} {a b d h r : BlockId}

/-! ## The graph -/

/-- The remaining graph: the edges between remaining blocks, and those from removed blocks to remaining
ones. -/
structure Graph (f : FlowGraph) (s : Search) : Prop where
  nodes : ∀ n, n ∈ s.nodes ↔ n ∈ f.blocks ∧ n ∉ s.reserved
  reserved : ∀ n ∈ s.reserved, n ∈ f.blocks
  succs : ∀ m ∈ f.blocks, ∀ x, x ∉ s.reserved → (x ∈ s.succs m ↔ x ∈ f.succ m)
  live : ∀ m ∈ s.nodes, ∀ x ∈ s.succs m, x ∉ s.reserved
  sub : ∀ m ∈ f.blocks, ∀ x ∈ s.succs m, x ∈ f.succ m
  prevs : ∀ m ∈ s.nodes, ∀ x, x ∈ s.prevs m ↔ x ∈ f.pre m ∧ x ∉ s.reserved

theorem Graph.start (f : FlowGraph) : Graph f (buildCfg f.toCfg) where
  nodes n := by simp [buildCfg]
  reserved n hn := absurd hn List.not_mem_nil
  succs m _ x _ := by simp [buildCfg]
  live m _ x _ := List.not_mem_nil
  sub m _ x hx := by simpa [buildCfg] using hx
  prevs m _ x := by simp [buildCfg]

/-- An edge of the remaining graph. -/
theorem Graph.succs_iff (h : Graph f s) (ha : a ∈ s.nodes) :
    b ∈ s.succs a ↔ f.Edge a b ∧ b ∈ s.nodes := by
  have haf := ((h.nodes a).mp ha).1
  constructor
  · intro hb
    have he := h.sub a haf b hb
    exact ⟨he, (h.nodes b).mpr ⟨f.closed a haf b he, h.live a ha b hb⟩⟩
  · rintro ⟨he, hb⟩
    exact (h.succs a haf b ((h.nodes b).mp hb).2).mpr he

theorem mem_removeBase_reserved : b ∈ (removeBase s d).reserved ↔ b ∈ s.reserved ∨ b = d := by
  unfold removeBase
  split
  · rename_i hd
    exact ⟨Or.inl, fun hb => hb.elim id fun hb => hb ▸ hd⟩
  · simp

theorem Graph.removeBase (hf : Input f) (h : Graph f s) (hd : d ∈ s.nodes) :
    Graph f (removeBase s d) := by
  obtain ⟨hdf, hdr⟩ := (h.nodes d).mp hd
  have hself : d ∉ s.succs d := fun hmem => hf.noSelf d hdf (h.sub d hdf d hmem)
  have hprevs : ∀ m, (LoopSearch.removeBase s d).prevs m =
      if m ∈ s.succs d then (s.prevs m).filter (· ≠ d) else s.prevs m := fun _ => rfl
  have hsuccs : ∀ m, (LoopSearch.removeBase s d).succs m =
      if m ∈ s.prevs d then (s.succs m).filter (· ≠ d) else s.succs m := by
    intro m
    show (if m ∈ (LoopSearch.removeBase s d).prevs d then _ else _) = _
    rw [hprevs, if_neg hself]
  have hmem : ∀ m x, x ∈ (LoopSearch.removeBase s d).succs m → x ∈ s.succs m := by
    intro m x hx
    rw [hsuccs] at hx
    split at hx
    · exact (List.mem_filter.mp hx).1
    · exact hx
  have hnodes : ∀ n, n ∈ (LoopSearch.removeBase s d).nodes ↔ n ∈ s.nodes ∧ n ≠ d := by
    intro n
    simp [LoopSearch.removeBase]
  refine ⟨fun n => ?_, fun n hn => ?_, fun m hm x hx => ?_, fun m hm x hx => ?_, fun m hm x hx => ?_,
    fun m hm x => ?_⟩
  · rw [hnodes, mem_removeBase_reserved, h.nodes, not_or, and_assoc]
  · exact (mem_removeBase_reserved.mp hn).elim (h.reserved n) fun hn => hn ▸ hdf
  · rw [mem_removeBase_reserved, not_or] at hx
    rw [← h.succs m hm x hx.1, hsuccs]
    split
    · simp [hx.2]
    · rfl
  · obtain ⟨hms, hmd⟩ := (hnodes m).mp hm
    rw [mem_removeBase_reserved, not_or]
    refine ⟨h.live m hms x (hmem m x hx), ?_⟩
    rintro rfl
    have hmf := (h.nodes m).mp hms
    have hpre : m ∈ s.prevs x :=
      (h.prevs x hd m).mpr ⟨(f.inverse m x).mp (h.sub m hmf.1 x (hmem m x hx)), hmf.2⟩
    rw [hsuccs, if_pos hpre] at hx
    simp at hx
  · exact h.sub m hm x (hmem m x hx)
  · obtain ⟨hms, hmd⟩ := (hnodes m).mp hm
    have hmf := (h.nodes m).mp hms
    rw [mem_removeBase_reserved, not_or, ← and_assoc, ← h.prevs m hms x, hprevs]
    split
    · simp
    · rename_i hno
      refine ⟨fun hx => ⟨hx, ?_⟩, And.left⟩
      rintro rfl
      have he := (f.inverse x m).mpr ((h.prevs m hms x).mp hx).1
      exact hno ((h.succs x hdf m hmf.2).mpr he)

/-! ## The invariant -/

/-- Between two components. -/
structure Inv (f : FlowGraph) (s : Search) : Prop where
  graph : Graph f s
  heads : ∀ r ∈ s.reserved, InLoop f.toCfg r r
  /-- The head of a loop around a removed head is removed. -/
  outer : ∀ r ∈ s.reserved, ∀ d, InLoop f.toCfg d r → d ∈ s.reserved
  bases : ∀ h, h ∈ s.loopSet.map Loop.base ↔ h ∈ s.reserved
  once : (s.loopSet.map Loop.base).Nodup
  blocks : ∀ loop ∈ s.loopSet, ∀ b, b ∈ loop.blocks ↔ InLoop f.toCfg loop.base b
  base2loop : ∀ loop ∈ s.loopSet, s.base2loop loop.base = some loop
  base2loop_none : ∀ h, h ∉ s.reserved → s.base2loop h = none
  inner : ∀ b d, s.bb2base b = some d → d ∈ s.reserved ∧ InLoop f.toCfg d b ∧
    ∀ r ∈ s.reserved, InLoop f.toCfg r b → ∀ y, InLoop f.toCfg d y → InLoop f.toCfg r y
  inner_none : ∀ b, s.bb2base b = none → ∀ r ∈ s.reserved, ¬ InLoop f.toCfg r b

theorem Inv.start (f : FlowGraph) : Inv f (buildCfg f.toCfg) where
  graph := Graph.start f
  heads r hr := absurd hr List.not_mem_nil
  outer r hr := absurd hr List.not_mem_nil
  bases h := by simp [buildCfg]
  once := List.nodup_nil
  blocks loop hl := absurd hl List.not_mem_nil
  base2loop loop hl := absurd hl List.not_mem_nil
  base2loop_none _ _ := rfl
  inner b d hd := by simp [buildCfg] at hd
  inner_none b _ r hr := absurd hr List.not_mem_nil

/-- `scc` is the loop of `d`, whose head is left, inside removed loops only. -/
structure IsLoop (f : FlowGraph) (s : Search) (scc : List BlockId) (d : BlockId) : Prop where
  mem : d ∈ s.nodes
  head : InLoop f.toCfg d d
  blocks : ∀ b, b ∈ scc ↔ InLoop f.toCfg d b
  outer : ∀ e, InLoop f.toCfg e d → e = d ∨ e ∈ s.reserved

/-! ## Components are loops -/

/-- The blocks of a loop are blocks. -/
theorem mem_blocks_of_inLoop (hd : d ∈ f.blocks) (hb : InLoop f.toCfg d b) : b ∈ f.blocks := by
  have hpred : ∀ {x y : BlockId}, f.Edge x y → y ∈ f.blocks → x ∈ f.blocks := fun he hy =>
    f.pre_closed _ hy _ ((f.inverse _ _).mp he)
  obtain ⟨a, ha, rfl | ⟨-, hav⟩⟩ := hb
  · exact hd
  · induction hav using Relation.ReflTransGen.head_induction_on with
    | refl => exact hpred ha.1 hd
    | head he _ ih => exact hpred he.1 ih

theorem mem_blocks_of_head (hf : Input f) (hb : b ∈ f.blocks) (hd : InLoop f.toCfg d b) :
    d ∈ f.blocks :=
  f.reach_mem (hd.dom.reachable (hf.reach b hb))

/-- A loop whose head is left is whole. -/
theorem Inv.mem_nodes (h : Inv f s) (hd : d ∈ s.nodes) (hb : InLoop f.toCfg d b) : b ∈ s.nodes := by
  obtain ⟨hdf, hdr⟩ := (h.graph.nodes d).mp hd
  exact (h.graph.nodes b).mpr ⟨mem_blocks_of_inLoop hdf hb, fun hr => hdr (h.outer b hr d hb)⟩

/-- The successors as the search enumerates them. -/
abbrev succsOf (o : Orders) (s : Search) (n : BlockId) : List BlockId := (o.succs n).enum (s.succs n)

theorem Inv.mem_succsOf (h : Inv f s) (ha : a ∈ s.nodes) :
    b ∈ succsOf o s a ↔ f.Edge a b ∧ b ∈ s.nodes := by
  rw [SetOrder.mem_enum, h.graph.succs_iff ha]

/-- A loop whose head is left is strongly connected in what is left. -/
theorem Inv.mutual (hf : Input f) (h : Inv f s) (hd : d ∈ s.nodes) (hb : InLoop f.toCfg d b) :
    Tarjan.Mutual (succsOf o s) d b := by
  have hstep : ∀ x y, Dominance.Inside f.Edge (InLoop f.toCfg d) x y →
      Tarjan.Reach (succsOf o s) x y := by
    intro x y hxy
    refine Relation.ReflTransGen.mono (fun u v huv => ?_) _ _ hxy
    exact (h.mem_succsOf (h.mem_nodes hd huv.2.1)).mpr ⟨huv.1, h.mem_nodes hd huv.2.2⟩
  have hbf := ((h.graph.nodes b).mp (h.mem_nodes hd hb)).1
  exact ⟨hstep d b (hb.from_head (hf.reach b hbf)), hstep b d hb.to_head⟩

/-- **A component is the loop of one of its blocks.** -/
theorem Inv.component (hf : Input f) (h : Inv f s) (hc : Tarjan.IsComp (succsOf o s) scc)
    (hmem : ∀ x ∈ scc, x ∈ s.nodes) : ∃ d ∈ scc, IsLoop f s scc d := by
  have hconn : ∀ x ∈ scc, ∀ y ∈ scc, Dominance.Inside f.Edge (· ∈ scc) x y := by
    intro x hx y hy
    have hxy := ((hc.mem_iff x hx y).mp hy).1
    induction hxy using Relation.ReflTransGen.head_induction_on with
    | refl => exact Relation.ReflTransGen.refl
    | @head x z he hzy ih =>
      have hyx := ((hc.mem_iff x hx y).mp hy).2
      have hz : z ∈ scc := (hc.mem_iff x hx z).mpr
        ⟨Relation.ReflTransGen.single he, hzy.trans hyx⟩
      exact Relation.ReflTransGen.head ⟨((h.mem_succsOf (hmem x hx)).mp he).1, hx, hz⟩ (ih hz)
  obtain ⟨d, hd, hin⟩ := Dominance.region_inLoop hf.reducible hc.nodup hc.two hconn
  have hds := hmem d hd
  have hdf := ((h.graph.nodes d).mp hds).1
  refine ⟨d, hd, hds, hin d hd, fun b => ⟨hin b, fun hb => ?_⟩, fun e he => ?_⟩
  · exact (hc.mem_iff d hd b).mpr (h.mutual hf hds hb)
  · by_contra hno
    rw [not_or] at hno
    have hes : e ∈ s.nodes := (h.graph.nodes e).mpr ⟨mem_blocks_of_head hf hdf he, hno.2⟩
    have hmut := h.mutual (o := o) hf hes he
    have hec : e ∈ scc := (hc.mem_iff d hd e).mpr ⟨hmut.2, hmut.1⟩
    exact hno.1 (Dominance.Dom.antisymm (hf.reach d hdf) he.dom (hin e hec).dom)

/-! ## The base -/

theorem getLast?_eq_of_forall {l : List BlockId} (hall : ∀ x ∈ l, x = d) (hne : l ≠ []) :
    l.getLast? = some d := by
  rw [List.getLast?_eq_some_getLast hne, hall _ (List.getLast_mem hne)]

/-- **`find_loop_base` finds the head.** -/
theorem findLoopBase_eq (hf : Input f) (h : Inv f s) (hl : IsLoop f s scc d) :
    findLoopBase o s scc = some d := by
  obtain ⟨hdf, hdr⟩ := (h.graph.nodes d).mp hl.mem
  have hnodes : ∀ n ∈ scc, n ∈ s.nodes := fun n hn => h.mem_nodes hl.mem ((hl.blocks n).mp hn)
  have hentry : ∀ u n, f.Edge u n → u ∉ scc → n ∈ scc → n = d := fun u n he hu hn =>
    ((hl.blocks n).mp hn).entry he fun hin => hu ((hl.blocks u).mpr hin)
  -- the head is entered from outside
  obtain ⟨u, hur, hud, hnd⟩ : ∃ u, f.Reach u ∧ f.Edge u d ∧ ¬ f.Dominates d u := by
    refine Dominance.exists_pred_not_dom (hf.reach d hdf) ?_
    rintro rfl
    obtain ⟨a, ha, -⟩ := hl.head
    exact hf.entry a ha.1
  have husc : u ∉ scc := fun hu => hnd ((hl.blocks u).mp hu).dom
  have hdscc : d ∈ scc := (hl.blocks d).mpr hl.head
  unfold findLoopBase
  generalize hent : ((o.members.enum scc).flatMap fun n =>
    ((o.prevs n).enum (s.prevs n)).filterMap fun prev => if prev ∉ scc then some n else none) =
      entries
  have hmem : ∀ n, n ∈ entries ↔ n ∈ scc ∧ ∃ prev ∈ s.prevs n, prev ∉ scc := by
    intro n
    rw [← hent]
    simp only [List.mem_flatMap, SetOrder.mem_enum, List.mem_filterMap]
    constructor
    · rintro ⟨m, hm, prev, hp, heq⟩
      split at heq
      · obtain rfl := Option.some.inj heq
        exact ⟨hm, prev, hp, by assumption⟩
      · cases heq
    · rintro ⟨hn, prev, hp, hps⟩
      exact ⟨n, hn, prev, hp, by rw [if_pos hps]⟩
  have hall : ∀ n ∈ entries, n = d := by
    intro n hn
    obtain ⟨hns, prev, hp, hps⟩ := (hmem n).mp hn
    have hpre := ((h.graph.prevs n (hnodes n hns) prev).mp hp).1
    exact hentry prev n ((f.inverse prev n).mpr hpre) hps hns
  simp only
  by_cases hne : entries = []
  · rw [hne, List.getLast?_nil]
    refine getLast?_eq_of_forall (fun n hn => ?_) (List.ne_nil_of_mem (a := d) ?_)
    · obtain ⟨res, hres, hn⟩ := List.mem_flatMap.mp hn
      obtain ⟨hn, hns⟩ := List.mem_filter.mp hn
      rw [SetOrder.mem_enum] at hres hn
      have hns' : n ∈ scc := by simpa using hns
      refine hentry res n (h.graph.sub res (h.graph.reserved res hres) n hn) (fun hr => ?_) hns'
      exact ((h.graph.nodes res).mp (hnodes res hr)).2 hres
    · have hres : u ∈ s.reserved := by
        by_contra hno
        have hpre : u ∈ s.prevs d := (h.graph.prevs d hl.mem u).mpr ⟨(f.inverse u d).mp hud, hno⟩
        have : d ∈ entries := (hmem d).mpr ⟨hdscc, u, hpre, husc⟩
        rw [hne] at this
        exact List.not_mem_nil this
      refine List.mem_flatMap.mpr ⟨u, (SetOrder.mem_enum _).mpr hres, List.mem_filter.mpr ⟨?_, ?_⟩⟩
      · rw [SetOrder.mem_enum]
        exact (h.graph.succs u (h.graph.reserved u hres) d hdr).mpr hud
      · simpa using hdscc
  · rw [getLast?_eq_of_forall hall hne]

/-! ## One component -/

theorem Inv.removeBase (hf : Input f) (h : Inv f s) (hl : IsLoop f s scc d) :
    Inv f (removeBase (record s d scc) d) := by
  obtain ⟨hdf, hdr⟩ := (h.graph.nodes d).mp hl.mem
  generalize hs' : LoopSearch.removeBase (record s d scc) d = s'
  have hgraph : Graph f (record s d scc) :=
    ⟨h.graph.nodes, h.graph.reserved, h.graph.succs, h.graph.live, h.graph.sub, h.graph.prevs⟩
  have hres : ∀ r, r ∈ s'.reserved ↔ r ∈ s.reserved ∨ r = d := fun r => by
    rw [← hs', mem_removeBase_reserved]
    rfl
  have hloops : s'.loopSet = s.loopSet ++ [⟨d, scc⟩] := by rw [← hs']; rfl
  have hmap : s'.loopSet.map Loop.base = s.loopSet.map Loop.base ++ [d] := by rw [hloops]; simp
  have hbase : s'.base2loop = Function.update s.base2loop d (some ⟨d, scc⟩) := by
    rw [← hs']
    show Function.update _ _ _ = _
    rw [h.base2loop_none d hdr]
    rfl
  have hbb : ∀ b, s'.bb2base b = if b ∈ scc then some d else s.bb2base b := fun b => by rw [← hs']; rfl
  have hold : ∀ loop ∈ s.loopSet, loop.base ≠ d := fun loop hloop he =>
    hdr ((h.bases d).mp (he ▸ List.mem_map_of_mem hloop))
  refine ⟨hs' ▸ hgraph.removeBase hf hl.mem, fun r hr => ?_, fun r hr e he => ?_, fun r => ?_, ?_,
    fun loop hloop b => ?_, fun loop hloop => ?_, fun r hr => ?_, fun b e hb => ?_,
    fun b hb r hr => ?_⟩
  · rcases (hres r).mp hr with hr | rfl
    · exact h.heads r hr
    · exact hl.head
  · rw [hres]
    rcases (hres r).mp hr with hr | rfl
    · exact Or.inl (h.outer r hr e he)
    · exact (hl.outer e he).symm
  · rw [hmap, hres, List.mem_append, h.bases, List.mem_singleton]
  · rw [hmap]
    refine List.nodup_append.mpr ⟨h.once, List.nodup_singleton _, fun x hx y hy hxy => ?_⟩
    rw [List.mem_singleton.mp hy] at hxy
    exact hdr ((h.bases d).mp (hxy ▸ hx))
  · rw [hloops] at hloop
    rcases List.mem_append.mp hloop with hloop | hloop
    · exact h.blocks loop hloop b
    · rw [List.mem_singleton.mp hloop]
      exact hl.blocks b
  · rw [hbase]
    rw [hloops] at hloop
    rcases List.mem_append.mp hloop with hloop | hloop
    · rw [Function.update_of_ne (hold loop hloop)]
      exact h.base2loop loop hloop
    · rw [List.mem_singleton.mp hloop, Function.update_self]
  · rw [hres, not_or] at hr
    rw [hbase, Function.update_of_ne hr.2]
    exact h.base2loop_none r hr.1
  · rw [hbb] at hb
    split at hb
    · rename_i hbs
      obtain rfl := Option.some.inj hb
      have hdb := (hl.blocks b).mp hbs
      have hbr := hf.reach b (mem_blocks_of_inLoop hdf hdb)
      refine ⟨(hres d).mpr (Or.inr rfl), hdb, fun r hr hrb y hy => ?_⟩
      rcases (hres r).mp hr with hr | rfl
      · -- a removed loop around `b` is outside the loop of `d`
        rcases Dominance.Dom.total hbr hrb.dom hdb.dom with hdom | hdom
        · exact hdb.subset hrb hbr hdom hy
        · exact absurd (h.outer r hr d (hrb.subset hdb hbr hdom (h.heads r hr))) hdr
      · exact hy
    · rename_i hbs
      obtain ⟨he, heb, hmin⟩ := h.inner b e hb
      refine ⟨(hres e).mpr (Or.inl he), heb, fun r hr hrb => ?_⟩
      rcases (hres r).mp hr with hr | rfl
      · exact hmin r hr hrb
      · exact absurd ((hl.blocks b).mpr hrb) hbs
  · rw [hbb] at hb
    split at hb
    · cases hb
    · rename_i hbs
      rcases (hres r).mp hr with hr | rfl
      · exact h.inner_none b hb r hr
      · exact fun hrb => hbs ((hl.blocks b).mpr hrb)

/-- One component. -/
theorem Inv.visitScc (hf : Input f) (h : Inv f s) (hl : IsLoop f s scc d) :
    ∃ s', visitScc o s scc = .ok s' ∧ Inv f s' ∧ s'.marks = s.marks ∧
      s'.nodes = s.nodes.filter (· ≠ d) ∧ ∀ r ∈ s.reserved, r ∈ s'.reserved := by
  refine ⟨LoopSearch.removeBase (record s d scc) d, ?_, h.removeBase hf hl, rfl, rfl, fun r hr => ?_⟩
  · unfold LoopSearch.visitScc
    rw [findLoopBase_eq hf h hl]
  · exact mem_removeBase_reserved.mpr (Or.inl hr)

/-- All components of a round. -/
theorem Inv.foldlM (hf : Input f) : ∀ (sccs : List (List BlockId)) (s : Search),
    sccs.Pairwise List.Disjoint → (∀ c ∈ sccs, ∃ d ∈ c, IsLoop f s c d) → Inv f s →
    ∃ s', sccs.foldlM (LoopSearch.visitScc o) s = .ok s' ∧ Inv f s' ∧ s'.marks = s.marks ∧
      s'.nodes.length + sccs.length ≤ s.nodes.length := by
  intro sccs
  induction sccs with
  | nil => exact fun s _ _ h => ⟨s, rfl, h, rfl, Nat.le_refl _⟩
  | cons c sccs ih =>
    intro s hdisj hloops h
    obtain ⟨hc, hdisj⟩ := List.pairwise_cons.mp hdisj
    obtain ⟨d, hd, hl⟩ := hloops c List.mem_cons_self
    obtain ⟨s₁, h₁, hinv, hmarks, hnodes, hres⟩ := h.visitScc (o := o) hf hl
    obtain ⟨s₂, h₂, hinv₂, hmarks₂, hlen⟩ := ih s₁ hdisj (fun c' hc' => by
      obtain ⟨d', hd', hl'⟩ := hloops c' (List.mem_cons_of_mem _ hc')
      refine ⟨d', hd', ?_, hl'.head, hl'.blocks, fun e he => (hl'.outer e he).imp_right (hres e)⟩
      rw [hnodes]
      refine List.mem_filter.mpr ⟨hl'.mem, ?_⟩
      have hne : d' ≠ d := fun heq => hc c' hc' hd (heq ▸ hd')
      simpa using hne) hinv
    have hlt : s₁.nodes.length < s.nodes.length := by
      rw [hnodes]
      refine List.length_filter_lt_length_iff_exists.mpr ⟨d, hl.mem, by simp⟩
    refine ⟨s₂, ?_, hinv₂, hmarks₂.trans hmarks, ?_⟩
    · rw [List.foldlM_cons, h₁, Fallible.ok_bind]
      exact h₂
    · rw [List.length_cons]
      omega

/-! ## The rounds -/

theorem Inv.reset (h : Inv f s) : Inv f (reset s) :=
  ⟨⟨h.graph.nodes, h.graph.reserved, h.graph.succs, h.graph.live, h.graph.sub, h.graph.prevs⟩,
    h.heads, h.outer, h.bases, h.once, h.blocks, h.base2loop, h.base2loop_none, h.inner,
    h.inner_none⟩

/-- Without a component every head has been removed. -/
theorem Inv.found (hf : Input f) (h : Inv f s)
    (hnone : ∀ x ∈ s.nodes, ∀ y, Tarjan.Mutual (succsOf o s) x y → y = x) : Found f.toCfg s := by
  have hheads : ∀ r, IsHead f.toCfg r ↔ r ∈ s.reserved := by
    intro r
    constructor
    · rintro ⟨a, ha, hback⟩
      by_contra hr
      have hrf : r ∈ f.blocks := f.closed a ha r hback.1
      have hrs : r ∈ s.nodes := (h.graph.nodes r).mpr ⟨hrf, hr⟩
      have hne : a ≠ r := by
        rintro rfl
        exact hf.noSelf a ha hback.1
      have hin : InLoop f.toCfg r a := ⟨a, hback, Or.inr ⟨hne, Relation.ReflTransGen.refl⟩⟩
      exact hne (hnone r hrs a (h.mutual hf hrs hin))
    · intro hr
      obtain ⟨a, hback, -⟩ := h.heads r hr
      exact ⟨a, f.pre_closed r (h.graph.reserved r hr) a ((f.inverse a r).mp hback.1), hback⟩
  refine ⟨fun r => by rw [hheads, h.bases], h.once, h.blocks, fun b loop hb => ?_,
    fun b hb loop hloop hbl => ?_⟩
  · obtain ⟨d, hd, hloop⟩ := Option.bind_eq_some_iff.mp hb
    obtain ⟨hdr, hdb, hmin⟩ := h.inner b d hd
    obtain ⟨loop', hmem, rfl⟩ := List.mem_map.mp ((h.bases d).mpr hdr)
    rw [h.base2loop loop' hmem] at hloop
    obtain rfl := Option.some.inj hloop
    refine ⟨hmem, (h.blocks _ hmem b).mpr hdb, fun other hother hbo y hy => ?_⟩
    have hor : other.base ∈ s.reserved := (h.bases _).mp (List.mem_map_of_mem hother)
    exact (h.blocks _ hother y).mpr (hmin _ hor ((h.blocks _ hother b).mp hbo) y
      ((h.blocks _ hmem y).mp hy))
  · have hlr : loop.base ∈ s.reserved := (h.bases _).mp (List.mem_map_of_mem hloop)
    have hbl' := (h.blocks _ hloop b).mp hbl
    cases hd : s.bb2base b with
    | none => exact h.inner_none b hd _ hlr hbl'
    | some d =>
      obtain ⟨loop', hmem, rfl⟩ := List.mem_map.mp ((h.bases d).mpr (h.inner b d hd).1)
      rw [getInnerLoop, hd, Option.bind_some, h.base2loop loop' hmem] at hb
      cases hb

theorem rounds_found (hf : Input f) : ∀ (n : Nat) (s : Search), s.nodes.length < n → Inv f s →
    (∀ x ∈ s.nodes, s.marks.index x = -1 ∧ s.marks.onStack x = false) →
    ∃ s', rounds o n s = .ok s' ∧ Found f.toCfg s' := by
  intro n
  induction n with
  | zero => exact fun s hlt => absurd hlt (Nat.not_lt_zero _)
  | succ n ih =>
    intro s hlt h hm
    have hclosed : ∀ x ∈ s.nodes, ∀ y ∈ succsOf o s x, y ∈ s.nodes := fun x hx y hy =>
      ((h.mem_succsOf hx).mp hy).2
    obtain ⟨t, ht, hcomp, hdisj, hall⟩ := Tarjan.components_spec hclosed (Nat.le_of_lt hlt) hm
      (fun x => SetOrder.mem_enum o.nodes)
    have hmarks : ∀ m, Inv f { s with marks := m } := fun m =>
      ⟨⟨h.graph.nodes, h.graph.reserved, h.graph.succs, h.graph.live, h.graph.sub, h.graph.prevs⟩,
        h.heads, h.outer, h.bases, h.once, h.blocks, h.base2loop, h.base2loop_none, h.inner,
        h.inner_none⟩
    unfold rounds stronglyConnectedComponents
    rw [ht]
    simp only
    by_cases hnil : t.comps = []
    · rw [if_pos hnil]
      refine ⟨_, rfl, (hmarks _).found (o := o) hf fun x hx => ?_⟩
      exact (hall x hx).resolve_right fun ⟨c, hc, _⟩ => by
        rw [hnil] at hc
        exact List.not_mem_nil hc
    · rw [if_neg hnil]
      have hsymm : Std.Symm (List.Disjoint : List BlockId → List BlockId → Prop) :=
        ⟨fun _ _ hd => hd.symm⟩
      obtain ⟨s₁, h₁, hinv, -, hlen⟩ := Inv.foldlM (o := o) hf (o.sccs.enum t.comps)
        { s with marks := t.toMarks } ((o.sccs.perm t.comps).pairwise_iff (fun hd => hd.symm) |>.mpr hdisj)
        (fun c hc => by
          obtain ⟨hc₁, hc₂⟩ := hcomp c ((SetOrder.mem_enum _).mp hc)
          exact (hmarks _).component (o := o) hf hc₁ hc₂) (hmarks _)
      have hpos : 0 < (o.sccs.enum t.comps).length := by
        rw [(o.sccs.perm t.comps).length_eq]
        exact List.length_pos_of_ne_nil hnil
      obtain ⟨s₂, h₂, hfound⟩ := ih (LoopSearch.reset s₁) (by
        show s₁.nodes.length < n
        simp only at hlen
        omega) hinv.reset (fun x hx => by
          have hx' : x ∈ s₁.nodes := hx
          simp [LoopSearch.reset, hx'])
      exact ⟨s₂, by rw [h₁, Fallible.ok_bind]; exact h₂, hfound⟩

/-- **`LoopSearch::run` ends and finds the natural loops**, in whatever order the sets are enumerated. -/
theorem run_found (o : Orders) (hf : Input f) {fuel : Nat} (hfuel : f.blocks.length < fuel) :
    ∃ s, run o f.toCfg fuel = .ok s ∧ Found f.toCfg s :=
  rounds_found hf fuel (buildCfg f.toCfg) hfuel (Inv.start f) fun _ _ => ⟨rfl, rfl⟩

/-! ## The components of any graph -/

/-- Two nodes reach each other. -/
def Connected (s : Search) (n m : BlockId) : Prop :=
  Relation.ReflTransGen (fun a b => b ∈ s.succs a) n m ∧
    Relation.ReflTransGen (fun a b => b ∈ s.succs a) m n

/-- A strongly connected component of two or more nodes. -/
structure IsScc (s : Search) (c : Finset BlockId) : Prop where
  nodes : ∀ n ∈ c, n ∈ s.nodes
  two : 2 ≤ c.card
  mem_iff : ∀ n ∈ c, ∀ m, m ∈ c ↔ Connected s n m

theorem mutual_iff_connected {n m : BlockId} :
    Tarjan.Mutual (fun n => (o.succs n).enum (s.succs n)) n m ↔ Connected s n m := by
  have hedge : (fun a b => b ∈ (o.succs a).enum (s.succs a)) = fun a b => b ∈ s.succs a := by
    funext a b
    exact propext (SetOrder.mem_enum _)
  unfold Tarjan.Mutual Tarjan.Reach Connected
  rw [hedge]

/-- **`strongly_connected_components` finds exactly the components**, each once, and leaves the stack
empty, in whatever order the sets are enumerated. -/
theorem stronglyConnectedComponents_exact (o : Orders) (s : Search)
    (hclosed : ∀ n ∈ s.nodes, ∀ su ∈ s.succs n, su ∈ s.nodes)
    (hmarks : ∀ n ∈ s.nodes, s.marks.index n = -1 ∧ s.marks.onStack n = false) {fuel : Nat}
    (hfuel : s.nodes.length ≤ fuel) :
    ∃ t, stronglyConnectedComponents o fuel s = some t ∧ t.stack = [] ∧
      (∀ n ∈ s.nodes, t.onStack n = false) ∧ (t.comps.map List.toFinset).Nodup ∧
        ∀ c, c ∈ t.comps.map List.toFinset ↔ IsScc s c := by
  have hclosed' : ∀ n ∈ s.nodes, ∀ su ∈ (o.succs n).enum (s.succs n), su ∈ s.nodes :=
    fun n hn su hsu => hclosed n hn su ((SetOrder.mem_enum _).mp hsu)
  obtain ⟨t, ht, hinv, hall⟩ := Tarjan.components_inv hclosed' hfuel hmarks
    (fun x => SetOrder.mem_enum o.nodes)
  have hstack := hinv.stack_nil
  have hscc : ∀ c ∈ t.comps, IsScc s c.toFinset := by
    intro c hc
    obtain ⟨hcomp, hmem⟩ := hinv.comp c hc
    refine ⟨fun n hn => (hmem n (List.mem_toFinset.mp hn)).1, ?_, fun n hn m => ?_⟩
    · rw [List.toFinset_card_of_nodup hcomp.nodup]
      exact hcomp.two
    · rw [List.mem_toFinset, hcomp.mem_iff n (List.mem_toFinset.mp hn), mutual_iff_connected]
  refine ⟨t, ht, hstack, fun n hn => ?_, ?_, fun c => ⟨fun hc => ?_, fun hc => ?_⟩⟩
  · have hon := (hinv.onStack n hn).not.mpr (by rw [hstack]; exact List.not_mem_nil)
    simpa using hon
  · refine List.pairwise_map.mpr (hinv.disjoint.imp_of_mem fun {c d} hc _ hdisj he => ?_)
    obtain ⟨n, hn⟩ := List.exists_mem_of_length_pos (Nat.lt_of_lt_of_le (by decide) (hinv.comp c hc).1.two)
    have hd : n ∈ d := List.mem_toFinset.mp (he ▸ List.mem_toFinset.mpr hn)
    exact hdisj hn hd
  · obtain ⟨d, hd, rfl⟩ := List.mem_map.mp hc
    exact hscc d hd
  · -- a component of two nodes is not one of a single node, so the search has it
    obtain ⟨n, hn, m, hm, hne⟩ := Finset.one_lt_card.mp hc.two
    obtain halone | ⟨d, hd, hnd⟩ := hinv.complete n (hc.nodes n hn) (hall n (hc.nodes n hn))
      (by rw [hstack]; exact List.not_mem_nil)
    · exact absurd (halone m (mutual_iff_connected.mpr ((hc.mem_iff n hn m).mp hm))).symm hne
    · refine List.mem_map.mpr ⟨d, hd, Finset.ext fun x => ?_⟩
      rw [(hscc d hd).mem_iff n (List.mem_toFinset.mpr hnd), hc.mem_iff n hn]

/-! ## Two nested loops -/

/-- The loop with head 1 has the blocks 1, 2 and 3, the one inside it 2 and 3. -/
def nested : FlowGraph where
  entry := 0
  rest := [1, 2, 3, 4]
  pre bb := match bb with
    | 1 => [0, 3]
    | 2 => [1, 3]
    | 3 => [2]
    | 4 => [1]
    | _ => []
  succ bb := match bb with
    | 0 => [1]
    | 1 => [2, 4]
    | 2 => [3]
    | 3 => [2, 1]
    | _ => []
  inverse a b := by
    match a, b with
    | 0, b | 1, b | 2, b | 3, b | n + 4, b =>
      match b with
      | 0 | 1 | 2 | 3 | 4 | m + 5 => simp
  closed := by decide
  pre_closed := by decide

theorem nested_input : Input nested where
  reducible := by
    have hdom : ∀ b, b ≠ 0 → nested.Dominates 1 b := by
      intro b hb p hp
      induction hp with
      | start => exact absurd rfl hb
      | @step a b p hp he ih =>
        match a, he with
        | 0, he =>
          rw [List.mem_singleton.mp he]
          exact List.mem_cons_self
        | a + 1, _ => exact List.mem_cons_of_mem _ (ih (Nat.succ_ne_zero a))
    have hdom₂ : nested.Dominates 2 3 := by
      refine Dominance.Dom.of_preds (by decide) fun a he _ => ?_
      have ha : a ∈ nested.pre 3 := (nested.inverse a 3).mp he
      rw [List.mem_singleton.mp ha]
      exact Dominance.Dom.refl
    -- every edge that is no back edge leads to a larger number
    have hlt : ∀ a b, nested.Edge a b ∧ ¬ nested.Dominates b a → a < b := by
      rintro a b ⟨he, hno⟩
      have ha : a ∈ nested.pre b := (nested.inverse a b).mp he
      match b, ha with
      | 1, ha =>
        rcases List.mem_cons.mp ha with rfl | ha
        · decide
        · exact absurd (hdom a (by rw [List.mem_singleton.mp ha]; decide)) hno
      | 2, ha =>
        rcases List.mem_cons.mp ha with rfl | ha
        · decide
        · exact absurd (List.mem_singleton.mp ha ▸ hdom₂) hno
      | 3, ha => rw [List.mem_singleton.mp ha]; decide
      | 4, ha => rw [List.mem_singleton.mp ha]; decide
    intro a ha
    have hle : ∀ b, Relation.TransGen (fun a b => nested.Edge a b ∧ ¬ nested.Dominates b a) a b →
        a < b := by
      intro b hb
      induction hb with
      | single h => exact hlt a _ h
      | tail _ h ih => exact Nat.lt_trans ih (hlt _ _ h)
    exact Nat.lt_irrefl a (hle a ha)
  reach := by
    have h₀ : nested.Reach 0 := Dominance.Reachable.refl
    have h₁ : nested.Reach 1 := h₀.step (by decide)
    have h₂ : nested.Reach 2 := h₁.step (by decide)
    have h₃ : nested.Reach 3 := h₂.step (by decide)
    have h₄ : nested.Reach 4 := h₁.step (by decide)
    intro b hb
    simp only [Cfg.blocks, nested, List.mem_cons, List.not_mem_nil, or_false] at hb
    rcases hb with rfl | rfl | rfl | rfl | rfl <;> assumption
  entry a he := by
    have ha : a ∈ nested.pre 0 := (nested.inverse a 0).mp he
    exact List.not_mem_nil ha
  noSelf := by decide
  nodup := by decide

/-- The order of the lists. -/
def listOrders : Orders :=
  let o {α : Type} : SetOrder α := ⟨id, fun l => List.Perm.refl l⟩
  ⟨o, fun _ => o, fun _ => o, o, o, o⟩

/-- The theorem at the nested loops. -/
theorem run_nested_found : ∃ s, run listOrders nested.toCfg 6 = .ok s ∧ Found nested.toCfg s :=
  run_found listOrders nested_input (by decide)

/-- The outer loop is found first. -/
example : (match run listOrders nested.toCfg 6 with
    | .ok s => s.loopSet
    | .error _ => []) = [⟨1, [3, 2, 1]⟩, ⟨2, [3, 2]⟩] := by
  decide +kernel

/-- `stronglyConnectedComponents_exact` at the nested loops. -/
theorem stronglyConnectedComponents_exact_nested :
    ∃ t, stronglyConnectedComponents listOrders 6 (buildCfg nested.toCfg) = some t ∧ t.stack = [] ∧
      (∀ n ∈ (buildCfg nested.toCfg).nodes, t.onStack n = false) ∧
        (t.comps.map List.toFinset).Nodup ∧
          ∀ c, c ∈ t.comps.map List.toFinset ↔ IsScc (buildCfg nested.toCfg) c :=
  stronglyConnectedComponents_exact listOrders (buildCfg nested.toCfg)
    (by decide) (fun _ _ => ⟨rfl, rfl⟩) (by decide)

end Cminusfc.Optimization.LoopSearch
