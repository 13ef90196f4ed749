import Cminusfc.Optimization.Mem2RegWalk

/-!
# When `re_name` completes

`re_name` enters the blocks in the preorder of the dominator tree (`visitOrder`). At a block the
stack of a variable holds what the strict dominators give it (`Ctx`), and the variable has a key as
soon as some block entered before gives it a value, in whatever subtree. A phi that finds an empty
stack with a key fails the assertion, so a call completes exactly when `Fine` holds along the order
(`reName_spec`).

About `re_name`, `src/optimization/Mem2Reg.cpp` 79-171. Out of scope: what it writes
(`Mem2RegRename`).
-/

namespace Cminusfc.Optimization.Mem2Reg

open Cminusfc.LightIR Dominance

/-- The children lists are those of the dominator tree. -/
structure IsTree (g : Cfg) (kids : BlockId → List BlockId) : Prop where
  reach : ∀ b, g.Reach b ↔ b ∈ g.blocks
  mem : ∀ d c, c ∈ kids d ↔ c ∈ g.blocks ∧ IDom g.Edge g.entry d c
  nodup : ∀ d, (kids d).Nodup
  parent : ∀ c ∈ g.blocks, c ≠ g.entry → ∃ d, c ∈ kids d

theorem DomTree.isTree {g : Cfg} {dom : Dominators.Result} (h : Dominators.DomTree g dom)
    (hall : ∀ b, g.Reach b ↔ b ∈ g.blocks) (blocks : SetOrder BlockId) :
    IsTree g fun b => blocks.enum (dom.domTreeSucc b) where
  reach := hall
  mem d c := blocks.mem_enum.trans (h.kids d c)
  nodup d := (blocks.perm _).nodup_iff.mpr (h.kids_nodup d)
  parent c hc hne := (h.parent c hc hne).imp fun _ h => blocks.mem_enum.mpr h

/-- The blocks in the order in which `re_name` enters them. -/
def visitOrder (kids : BlockId → List BlockId) : Nat → BlockId → List BlockId
  | 0, _ => []
  | n + 1, b => b :: (kids b).flatMap (visitOrder kids n)

variable {g : Cfg} {kids : BlockId → List BlockId} {b c d x : BlockId} {n : Nat}

theorem IsTree.kid (h : IsTree g kids) (hc : c ∈ kids b) :
    c ∈ g.blocks ∧ g.StrictlyDominates b c :=
  ⟨((h.mem b c).mp hc).1, ((h.mem b c).mp hc).2.1⟩

/-- The strict dominators of a child are the dominators of its parent. -/
theorem IsTree.sdom_kid_iff (h : IsTree g kids) (hc : c ∈ kids b) :
    g.StrictlyDominates x c ↔ g.Dominates x b := by
  obtain ⟨hcb, hidom⟩ := (h.mem b c).mp hc
  exact ⟨hidom.2 x, hidom.1.trans_dom ((h.reach c).mpr hcb)⟩

theorem IsTree.of_mem_visitOrder (h : IsTree g kids) :
    ∀ n b, b ∈ g.blocks → ∀ x ∈ visitOrder kids n b, x ∈ g.blocks ∧ g.Dominates b x := by
  intro n
  induction n with
  | zero => simp [visitOrder]
  | succ n ih =>
    intro b hb x hx
    rcases List.mem_cons.mp hx with rfl | hx
    · exact ⟨hb, Dom.refl⟩
    · obtain ⟨c, hc, hx⟩ := List.mem_flatMap.mp hx
      obtain ⟨hcb, hs⟩ := h.kid hc
      obtain ⟨hxb, hcx⟩ := ih c hcb x hx
      exact ⟨hxb, hs.1.trans hcx⟩

/-- Two children of a block dominate no block in common. -/
theorem IsTree.kids_disjoint (h : IsTree g kids) {c' : BlockId} (hc : c ∈ kids b) (hc' : c' ∈ kids b)
    (hx : x ∈ g.blocks) (hcx : g.Dominates c x) (hcx' : g.Dominates c' x) : c = c' := by
  have hsub : ∀ c c', c ∈ kids b → c' ∈ kids b → g.Dominates c c' → c = c' := by
    intro c c' hc hc' hdom
    by_contra hne
    have hcb := (h.sdom_kid_iff hc').mp ⟨hdom, hne⟩
    obtain ⟨hmem, hs⟩ := h.kid hc
    exact hs.2 (Dom.antisymm ((h.reach c).mpr hmem) hs.1 hcb)
  cases Dom.total ((h.reach x).mpr hx) hcx hcx' with
  | inl hdom => exact hsub c c' hc hc' hdom
  | inr hdom => exact (hsub c' c hc' hc hdom).symm

theorem IsTree.nodup_visitOrder (h : IsTree g kids) :
    ∀ n b, b ∈ g.blocks → (visitOrder kids n b).Nodup := by
  intro n
  induction n with
  | zero => simp [visitOrder]
  | succ n ih =>
    intro b hb
    refine List.nodup_cons.mpr ⟨fun hmem => ?_, List.nodup_flatMap.mpr ⟨fun c hc => ?_, ?_⟩⟩
    · obtain ⟨c, hc, hbc⟩ := List.mem_flatMap.mp hmem
      obtain ⟨hcb, hs⟩ := h.kid hc
      exact hs.2 (Dom.antisymm ((h.reach b).mpr hb) (h.of_mem_visitOrder n c hcb b hbc).2 hs.1).symm
    · exact ih c (h.kid hc).1
    · refine (h.nodup b).imp_of_mem fun {c c'} hc hc' hne x hx hx' => hne ?_
      have hdom := h.of_mem_visitOrder n c (h.kid hc).1 x hx
      exact h.kids_disjoint hc hc' hdom.1 hdom.2 (h.of_mem_visitOrder n c' (h.kid hc').1 x hx').2

/-! ## Enough fuel -/

/-- The recursion at depth `path.length` has fuel for every block that is not above `b`. -/
structure Room (g : Cfg) (path : List BlockId) (n : Nat) (b : BlockId) : Prop where
  nodup : path.Nodup
  above : ∀ a ∈ path, a ∈ g.blocks ∧ g.StrictlyDominates a b
  fuel : g.blocks.length < path.length + n

theorem Room.pos {path : List BlockId} (h : Room g path n b) (hb : b ∈ g.blocks) : n ≠ 0 := by
  have hnd : (b :: path).Nodup :=
    List.nodup_cons.mpr ⟨fun hmem => (h.above b hmem).2.2 rfl, h.nodup⟩
  have hle : (b :: path).length ≤ g.blocks.length := by
    refine (hnd.subperm fun a ha => ?_).length_le
    rcases List.mem_cons.mp ha with rfl | ha
    · exact hb
    · exact (h.above a ha).1
  have hfuel := h.fuel
  rw [List.length_cons] at hle
  rintro rfl
  omega

theorem Room.kid {path : List BlockId} (h : Room g path (n + 1) b) (hT : IsTree g kids)
    (hb : b ∈ g.blocks) (hc : c ∈ kids b) : Room g (b :: path) n c := by
  refine ⟨List.nodup_cons.mpr ⟨fun hmem => (h.above b hmem).2.2 rfl, h.nodup⟩, fun a ha => ?_, ?_⟩
  · rcases List.mem_cons.mp ha with rfl | ha
    · exact ⟨hb, (hT.kid hc).2⟩
    · exact ⟨(h.above a ha).1, (hT.sdom_kid_iff hc).mpr (h.above a ha).2.1⟩
  · have := h.fuel
    rw [List.length_cons]
    omega

/-- A block that is visited has its children visited. -/
theorem IsTree.visitOrder_closed (hT : IsTree g kids) :
    ∀ n b path, b ∈ g.blocks → Room g path n b → ∀ d ∈ visitOrder kids n b, ∀ c ∈ kids d,
      c ∈ visitOrder kids n b := by
  intro n
  induction n with
  | zero => simp [visitOrder]
  | succ n ih =>
    intro b path hb hroom d hd c hc
    refine List.mem_cons_of_mem _ (List.mem_flatMap.mpr ?_)
    rcases List.mem_cons.mp hd with rfl | hd
    · obtain ⟨m, rfl⟩ := Nat.exists_eq_succ_of_ne_zero ((hroom.kid hT hb hc).pos (hT.kid hc).1)
      exact ⟨c, hc, List.mem_cons_self⟩
    · obtain ⟨e, he, hd⟩ := List.mem_flatMap.mp hd
      exact ⟨e, he, ih e _ (hT.kid he).1 (hroom.kid hT hb he) d hd c hc⟩

theorem room_entry (hn : g.blocks.length < n) : Room g [] n g.entry :=
  ⟨List.nodup_nil, by simp, by simpa using hn⟩

/-- Every block is visited. -/
theorem IsTree.mem_visitOrder (hT : IsTree g kids) (hn : g.blocks.length < n) (hb : b ∈ g.blocks) :
    b ∈ visitOrder kids n g.entry := by
  have descend : ∀ k (p : List BlockId) b, p.length ≤ k → b ∈ g.blocks → Walk g.Edge g.entry b p →
      b ∈ visitOrder kids n g.entry := by
    intro k
    induction k with
    | zero =>
      intro p b hlen _ hp
      have := List.length_pos_of_mem hp.last_mem
      omega
    | succ k ih =>
      intro p b hlen hb hp
      by_cases hbe : b = g.entry
      · obtain ⟨m, rfl⟩ := Nat.exists_eq_succ_of_ne_zero
          ((room_entry hn).pos (g := g) List.mem_cons_self)
        rw [hbe]
        exact List.mem_cons_self
      · obtain ⟨d, hd⟩ := hT.parent b hb hbe
        obtain ⟨-, hs⟩ := hT.kid hd
        obtain ⟨q, hq, hqp⟩ := hp.cut (hs.1 p hp)
        have hlt : q.length < p.length := by
          refine Nat.lt_of_le_of_ne hqp.length_le fun heq => ?_
          obtain rfl := hqp.eq_of_length heq
          cases hq <;> cases hp <;> exact hs.2 rfl
        have hdb := (hT.reach d).mp ⟨q, hq⟩
        exact hT.visitOrder_closed n g.entry [] List.mem_cons_self (room_entry hn) d
          (ih q d (by omega) hdb hq) b hd
  obtain ⟨p, hp⟩ := (hT.reach b).mpr hb
  exact descend p.length p b (Nat.le_refl _) hb hp

/-! ## The state along the walk -/

section Walk

variable {g : Func} {W closed : List BlockId} {st : Stacks} {F : Func}

/-- At `b` with the blocks `W` entered before. -/
structure Ctx (g : Func) (W : List BlockId) (b : BlockId) (st : Stacks) : Prop where
  stack : ∀ v, (st v).getD [] ≠ [] ↔ ∃ a, g.StrictlyDominates a b ∧ Gives g v a
  key : ∀ v, HasKey st v ↔ ∃ a ∈ W, Gives g v a

/-- No phi of a successor of `b` finds an empty stack with a key, if the blocks `W` have been
entered before `b`. -/
def Fine (g : Func) (W : List BlockId) (b : BlockId) : Prop :=
  ∀ S ∈ g.succ b, ∀ i ∈ g.body S, ∀ v, phiOf g i = some v → (∃ a ∈ W, Gives g v a) →
    ∃ a, g.Dominates a b ∧ Gives g v a

/-- What a call leaves that has entered the blocks `L`. -/
structure Left (g : Func) (closed W L : List BlockId) (st : Stacks) (s' : St) : Prop where
  kept : Kept g (L ++ closed) s'.f
  stack : ∀ v, (s'.varValStack v).getD [] = (st v).getD []
  key : ∀ v, HasKey s'.varValStack v ↔ ∃ a ∈ W ++ L, Gives g v a

theorem dominates_iff {g : Cfg} {a b : BlockId} :
    g.Dominates a b ↔ a = b ∨ g.StrictlyDominates a b := by
  constructor
  · intro h
    by_cases hab : a = b
    · exact Or.inl hab
    · exact Or.inr ⟨h, hab⟩
  · rintro (rfl | h)
    · exact Dom.refl
    · exact h.1

theorem Kept.perm {closed' : List BlockId} (h : Kept g closed F) (hp : ∀ b, b ∈ closed ↔ b ∈ closed') :
    Kept g closed' F :=
  ⟨h.toSameAddresses, h.toCfg, fun b => by rw [h.body]; simp [hp], h.uses⟩

/-- The stacks and keys after a block has been entered. -/
theorem Ctx.enter (h : Ctx g W b st) {st' : Stacks}
    (hlift : Lifted st st' (count (defOf g) (g.body b)))
    (hkey : ∀ v, HasKey st' v ↔ HasKey st v ∨ Gives g v b) :
    (∀ v, (st' v).getD [] ≠ [] ↔ ∃ a, g.Dominates a b ∧ Gives g v a) ∧
      ∀ v, HasKey st' v ↔ ∃ a ∈ W ++ [b], Gives g v a := by
  constructor
  · intro v
    obtain ⟨top, hlen, htop⟩ := hlift v
    have htop' : top ≠ [] ↔ Gives g v b := by
      rw [← List.length_pos_iff, hlen]
      exact count_pos
    rw [htop, ne_eq, List.append_eq_nil_iff, not_and_or, ← ne_eq, ← ne_eq, htop', h.stack]
    simp only [dominates_iff, or_and_right, exists_or, exists_eq_left]
  · intro v
    rw [hkey, h.key]
    simp only [List.mem_append, List.mem_singleton, or_and_right, exists_or, exists_eq_left]

/-- What is to be shown of `re_name` with fuel `n` at `b`. -/
def Spec (g : Func) (kids : BlockId → List BlockId) (n : Nat) (b : BlockId) : Prop :=
  ∀ path W closed F st, b ∈ g.blocks → Room g.toCfg path n b → Kept g closed F → Ctx g W b st →
    (∀ x ∈ visitOrder kids n b, x ∉ closed) →
    ((∃ s', reName kids n b ⟨F, st⟩ = .ok s') ↔
      Fallible.Along (Fine g) W (visitOrder kids n b)) ∧
    ∀ s', reName kids n b ⟨F, st⟩ = .ok s' → Left g closed W (visitOrder kids n b) st s'

/-- The loop over the children of `b`, from the state in which it stands in front of `cs`. -/
theorem foldlM_reName (hT : IsTree g.toCfg kids) (hb : b ∈ g.blocks) {path : List BlockId}
    (hroom : Room g.toCfg path (n + 1) b) (hspec : ∀ c, Spec g kids n c) :
    ∀ (cs W closed : List BlockId) (F : Func) (st : Stacks), (∀ c ∈ cs, c ∈ kids b) →
      Kept g closed F → (∀ v, (st v).getD [] ≠ [] ↔ ∃ a, g.Dominates a b ∧ Gives g v a) →
      (∀ v, HasKey st v ↔ ∃ a ∈ W, Gives g v a) →
      (∀ x ∈ cs.flatMap (visitOrder kids n), x ∉ closed) → cs.Nodup →
      ((∃ s', cs.foldlM (fun s kid => reName kids n kid s) ⟨F, st⟩ = .ok s') ↔
        Fallible.Along (Fine g) W (cs.flatMap (visitOrder kids n))) ∧
      ∀ s', cs.foldlM (fun s kid => reName kids n kid s) ⟨F, st⟩ = .ok s' →
        Left g closed W (cs.flatMap (visitOrder kids n)) st s' := by
  intro cs
  induction cs with
  | nil =>
    intro W closed F st _ hF _ hkey _ _
    refine ⟨by simp [Fallible.Along, pure, Except.pure], fun s' h => ?_⟩
    cases h
    exact ⟨hF, fun _ => rfl, by simpa using hkey⟩
  | cons c cs ihcs =>
    intro W closed F st hcs hF hstack hkey hopen hnd
    obtain ⟨hc, hcs⟩ := List.forall_mem_cons.mp hcs
    obtain ⟨hcnot, hnd⟩ := List.nodup_cons.mp hnd
    rw [List.flatMap_cons] at hopen ⊢
    have hctx : Ctx g W c st := by
      refine ⟨fun v => ?_, hkey⟩
      rw [hstack]
      exact exists_congr fun a => and_congr_left' (hT.sdom_kid_iff hc).symm
    obtain ⟨hiff₁, hleft₁⟩ := hspec c _ W closed F st (hT.kid hc).1 (hroom.kid hT hb hc) hF hctx
      fun x hx => hopen x (List.mem_append_left _ hx)
    have hnext : ∀ s₁, reName kids n c ⟨F, st⟩ = .ok s₁ →
        ((∃ s', cs.foldlM (fun s kid => reName kids n kid s) s₁ = .ok s') ↔
          Fallible.Along (Fine g) (W ++ visitOrder kids n c) (cs.flatMap (visitOrder kids n))) ∧
        ∀ s', cs.foldlM (fun s kid => reName kids n kid s) s₁ = .ok s' →
          Left g (visitOrder kids n c ++ closed) (W ++ visitOrder kids n c)
            (cs.flatMap (visitOrder kids n)) s₁.varValStack s' := by
      intro s₁ h₁
      have hL := hleft₁ s₁ h₁
      refine ihcs (W ++ visitOrder kids n c) (visitOrder kids n c ++ closed) s₁.f s₁.varValStack hcs
        hL.kept (fun v => by rw [hL.stack, hstack]) hL.key (fun x hx hmem => ?_) hnd
      rcases List.mem_append.mp hmem with hmem | hmem
      · obtain ⟨c', hc', hx⟩ := List.mem_flatMap.mp hx
        have hdom := hT.of_mem_visitOrder n c (hT.kid hc).1 x hmem
        have hdom' := hT.of_mem_visitOrder n c' (hT.kid (hcs c' hc')).1 x hx
        obtain rfl := hT.kids_disjoint hc (hcs c' hc') hdom.1 hdom.2 hdom'.2
        exact hcnot hc'
      · exact hopen x (List.mem_append_right _ hx) hmem
    rw [List.foldlM_cons, Fallible.along_append, ← hiff₁]
    refine ⟨⟨?_, ?_⟩, fun s' h => ?_⟩
    · rintro ⟨s', h⟩
      obtain ⟨s₁, h₁, h⟩ := Fallible.bind_ok.mp h
      exact ⟨⟨s₁, h₁⟩, (hnext s₁ h₁).1.mp ⟨s', h⟩⟩
    · rintro ⟨⟨s₁, h₁⟩, hrest⟩
      obtain ⟨s', h⟩ := (hnext s₁ h₁).1.mpr hrest
      exact ⟨s', Fallible.bind_ok.mpr ⟨s₁, h₁, h⟩⟩
    · obtain ⟨s₁, h₁, h⟩ := Fallible.bind_ok.mp h
      have hL := (hnext s₁ h₁).2 s' h
      have hL₁ := hleft₁ s₁ h₁
      refine ⟨hL.kept.perm fun b => ?_, fun v => by rw [hL.stack, hL₁.stack], fun v => ?_⟩
      · simp only [List.mem_append]
        tauto
      · rw [hL.key, List.append_assoc]

/-- **One call of `re_name`** completes exactly when `Fine` holds along the blocks it enters. -/
theorem reName_spec (hR : Ready g) (hT : IsTree g.toCfg kids) : ∀ n b, Spec g kids n b := by
  intro n
  induction n with
  | zero => exact fun b path W closed F st hb hroom => absurd rfl (hroom.pos hb)
  | succ n ih =>
    intro b path W closed F st hb hroom hF hctx hopen
    have hbnot : b ∉ closed := hopen b List.mem_cons_self
    obtain ⟨hiff, hafter⟩ := @enterBlock_spec _ _ _ _ hR hb hF hbnot st fun v a ha hav =>
      (hctx.stack v).mpr ⟨a, ha, hav⟩
    have hfine : (∃ r, enterBlock b ⟨F, st⟩ = .ok r) ↔ Fine g W b := by
      rw [hiff]
      refine forall₂_congr fun S hS => forall₂_congr fun i hi => forall₂_congr fun v hv => ?_
      rw [hctx.key, hctx.stack]
      refine imp_congr_right fun _ => ?_
      simp only [dominates_iff, or_and_right, exists_or, exists_eq_left]
      exact Or.comm
    have hrest : ∀ r, enterBlock b ⟨F, st⟩ = .ok r →
        ((∃ s', (kids b).foldlM (fun s kid => reName kids n kid s) r.1 = .ok s') ↔
          Fallible.Along (Fine g) (W ++ [b]) ((kids b).flatMap (visitOrder kids n))) ∧
        ∀ s', (kids b).foldlM (fun s kid => reName kids n kid s) r.1 = .ok s' →
          ∃ s'', leaveBlock b r.2 s' = .ok s'' ∧
            Left g closed W (visitOrder kids (n + 1) b) st s'' := by
      intro r hr
      obtain ⟨hF₁, hlift, hkey, hwait⟩ := hafter r hr
      obtain ⟨hstack, hkey'⟩ := hctx.enter hlift hkey
      obtain ⟨h₁, h₂⟩ := foldlM_reName hT hb hroom ih (kids b) (W ++ [b]) closed r.1.f r.1.varValStack
        (fun _ h => h) hF₁ hstack hkey' (fun x hx => hopen x (List.mem_cons_of_mem _ hx))
        (hT.nodup b)
      refine ⟨h₁, fun s' hs' => ?_⟩
      have hL := h₂ s' hs'
      have hbnot' : b ∉ (kids b).flatMap (visitOrder kids n) ++ closed := by
        rw [List.mem_append, not_or]
        exact ⟨(List.nodup_cons.mp (hT.nodup_visitOrder (n + 1) b hb)).1, hbnot⟩
      have hlift' : Lifted st s'.varValStack (count (defOf g) (g.body b)) := by
        intro v
        rw [hL.stack]
        exact hlift v
      obtain ⟨s'', hleave, hkept, hback, hkey''⟩ := leaveBlock_spec hR hb hL.kept hbnot' hlift'
      refine ⟨s'', by rw [hwait]; exact hleave, hkept.perm fun x => ?_, hback, fun v => ?_⟩
      · simp [visitOrder]
      · rw [hkey'', hL.key]
        simp [visitOrder]
    have hrun : ∀ s'', reName kids (n + 1) b ⟨F, st⟩ = .ok s'' ↔ ∃ r, enterBlock b ⟨F, st⟩ = .ok r ∧
        ∃ s', (kids b).foldlM (fun s kid => reName kids n kid s) r.1 = .ok s' ∧
          leaveBlock b r.2 s' = .ok s'' := by
      intro s''
      simp only [reName, Fallible.bind_ok]
    have horder : visitOrder kids (n + 1) b = b :: (kids b).flatMap (visitOrder kids n) := rfl
    rw [horder]
    simp only [Fallible.Along, ← hfine]
    refine ⟨⟨?_, ?_⟩, fun s'' h => ?_⟩
    · rintro ⟨s'', h⟩
      obtain ⟨r, hr, s', hs', -⟩ := (hrun s'').mp h
      exact ⟨⟨r, hr⟩, (hrest r hr).1.mp ⟨s', hs'⟩⟩
    · rintro ⟨⟨r, hr⟩, h⟩
      obtain ⟨s', hs'⟩ := (hrest r hr).1.mpr h
      obtain ⟨s'', hs'', -⟩ := (hrest r hr).2 s' hs'
      exact ⟨s'', (hrun s'').mpr ⟨r, hr, s', hs', hs''⟩⟩
    · obtain ⟨r, hr, s', hs', hs''⟩ := (hrun s'').mp h
      obtain ⟨t, ht, hL⟩ := (hrest r hr).2 s' hs'
      obtain rfl : t = s'' := Except.ok.inj (ht.symm.trans hs'')
      exact hL

end Walk

end Cminusfc.Optimization.Mem2Reg
