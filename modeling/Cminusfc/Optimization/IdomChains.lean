import Mathlib.Data.List.Pairwise
import Mathlib.Logic.Relation
import Cminusfc.Optimization.Dominators

/-!
# Chains of `idom_` links

`create_idom` works on a partially built tree: `idom_` links each block that has an entry to a
block with a larger post-order id, up to the entry block, which links to itself. This file says
what that tree is (`Tree`), what the chain of a block is (`Up`), that `intersect` returns the
lowest block on two chains (`intersect_spec`), and how a single `set_idom` changes the chains
(`up_update_*`).

About `create_idom` and `intersect`, `src/optimization/Dominators.cpp` 92-160.
-/

namespace Cminusfc.Optimization.Dominators

open Cminusfc.LightIR

/-- The post-order numbering `create_reverse_post_order` leaves: `order` lists the reachable
blocks by falling id. -/
structure Numbered (g : FlowGraph) (id : BlockId → Nat) (order : List BlockId) : Prop where
  mem_iff : ∀ b, b ∈ order ↔ g.Reach b
  sorted : order.Pairwise fun a b => id b < id a
  bound : ∀ b, g.Reach b → id b < g.blocks.length
  top : ∀ b, g.Reach b → b ≠ g.entry → id b < id g.entry
  /-- The predecessor from which the search reached the block ends later. -/
  parent : ∀ b, g.Reach b → b ≠ g.entry → ∃ a, g.Reach a ∧ b ∈ g.succ a ∧ id b < id a

/-- The chain of `b`: the blocks the `idom_` links lead to from `b`. -/
def Up (idom : IdomMap) (b z : BlockId) : Prop :=
  Relation.ReflTransGen (fun x y => idom x = some y) b z

/-- `idom_` is a tree over some of the reachable blocks, rooted at the entry. -/
structure Tree (g : FlowGraph) (id : BlockId → Nat) (idom : IdomMap) : Prop where
  root : idom g.entry = some g.entry
  reach : ∀ b ∈ g.blocks, (idom b).isSome → g.Reach b
  parent_reach : ∀ b d, g.Reach b → idom b = some d → g.Reach d
  parent_isSome : ∀ b d, g.Reach b → idom b = some d → (idom d).isSome
  lt : ∀ b d, g.Reach b → b ≠ g.entry → idom b = some d → id b < id d

variable {g : FlowGraph} {id : BlockId → Nat} {order : List BlockId} {idom : IdomMap}
  {b d x y z new : BlockId}

theorem Numbered.le_top (hN : Numbered g id order) (hb : g.Reach b) : id b ≤ id g.entry := by
  by_cases h : b = g.entry
  · exact Nat.le_of_eq (congrArg id h)
  · exact Nat.le_of_lt (hN.top b hb h)

theorem Numbered.inj (hN : Numbered g id order) (hx : g.Reach x) (hy : g.Reach y)
    (h : id x = id y) : x = y := by
  by_contra hne
  have hpw : order.Pairwise fun a b => id a ≠ id b := hN.sorted.imp fun h => Nat.ne_of_gt h
  have : Std.Symm fun a b : BlockId => id a ≠ id b := ⟨fun _ _ => Ne.symm⟩
  exact hpw.forall ((hN.mem_iff x).mpr hx) ((hN.mem_iff y).mpr hy) hne h

/-! ## Chains -/

theorem Up.refl : Up idom b b := Relation.ReflTransGen.refl

theorem Up.trans (h₁ : Up idom b x) (h₂ : Up idom x z) : Up idom b z :=
  Relation.ReflTransGen.trans h₁ h₂

theorem Up.link (h : idom b = some d) : Up idom b d := Relation.ReflTransGen.single h

/-- A chain is a line. -/
theorem Up.total (h₁ : Up idom b x) (h₂ : Up idom b z) : Up idom x z ∨ Up idom z x := by
  refine Relation.ReflTransGen.total_of_right_unique ?_ h₁ h₂
  intro a c e hc he
  rw [hc] at he
  exact Option.some.inj he

/-- Beyond its first block, the chain of `b` is the chain of the block `b` links to. -/
theorem Up.tail (h : Up idom b z) (hne : z ≠ b) (hd : idom b = some d) : Up idom d z := by
  rcases Relation.ReflTransGen.cases_head h with heq | ⟨y, hy, hz⟩
  · exact absurd heq.symm hne
  · rw [hd] at hy
    obtain rfl := Option.some.inj hy
    exact hz

/-- Chains that do not meet `b` stay. -/
theorem up_update_of_not (h : ¬ Up idom x b) :
    Up (Function.update idom b (some new)) x z ↔ Up idom x z := by
  constructor
  · intro hz
    induction hz using Relation.ReflTransGen.head_induction_on with
    | refl => exact Up.refl
    | @head a c hac _ ih =>
      have ha : a ≠ b := by rintro rfl; exact h Up.refl
      rw [Function.update_of_ne ha] at hac
      exact (Up.link hac).trans (ih fun hc => h ((Up.link hac).trans hc))
  · intro hz
    induction hz using Relation.ReflTransGen.head_induction_on with
    | refl => exact Up.refl
    | @head a c hac _ ih =>
      have ha : a ≠ b := by rintro rfl; exact h Up.refl
      exact (Up.link (by rw [Function.update_of_ne ha]; exact hac)).trans
        (ih fun hc => h ((Up.link hac).trans hc))

section Tree

variable (hT : Tree g id idom)

include hT

theorem Tree.entry_isSome : (idom g.entry).isSome := by rw [hT.root]; rfl

theorem Tree.reach_up (hb : g.Reach b) (h : Up idom b z) : g.Reach z := by
  induction h with
  | refl => exact hb
  | tail _ hs ih => exact hT.parent_reach _ _ ih hs

theorem Tree.isSome_up (hb : g.Reach b) (hs : (idom b).isSome) (h : Up idom b z) :
    (idom z).isSome := by
  induction h with
  | refl => exact hs
  | tail hup hl _ => exact hT.parent_isSome _ _ (hT.reach_up hb hup) hl

/-- Ids rise along a chain. -/
theorem Tree.le_up (hb : g.Reach b) (h : Up idom b z) : id b ≤ id z := by
  induction h with
  | refl => exact Nat.le_refl _
  | @tail x y hup hl ih =>
    by_cases hx : x = g.entry
    · subst hx
      rw [hT.root] at hl
      obtain rfl := Option.some.inj hl
      exact ih
    · exact Nat.le_trans ih (Nat.le_of_lt (hT.lt _ _ (hT.reach_up hb hup) hx hl))

/-- The chain of the entry is the entry. -/
theorem Tree.up_entry (h : Up idom g.entry z) : z = g.entry := by
  induction h with
  | refl => rfl
  | tail _ hl ih =>
    rw [ih, hT.root] at hl
    exact (Option.some.inj hl).symm

/-! ## `intersect` -/

/-- `climb` stops at the first block of the chain whose id reaches the target's. -/
theorem climb_spec (hN : Numbered g id order) {target : BlockId} (ht : g.Reach target) :
    ∀ (n : Nat) (b : BlockId), g.Reach b → (idom b).isSome → id target - id b < n →
      ∃ r, climb id idom n b target = .ok r ∧ Up idom b r ∧ id target ≤ id r ∧
        ∀ z, Up idom b z → id target ≤ id z → Up idom r z
  | 0, _, _, _, hn => absurd hn (Nat.not_lt_zero _)
  | n + 1, b, hb, hs, hn => by
    unfold climb
    by_cases hlt : id b < id target
    · obtain ⟨d, hd⟩ := Option.isSome_iff_exists.mp hs
      have hne : b ≠ g.entry := by
        rintro rfl
        have := hN.le_top ht
        omega
      have hbd := hT.lt b d hb hne hd
      obtain ⟨r, hr, hup, hle, hlow⟩ := climb_spec hN ht n d (hT.parent_reach b d hb hd)
        (hT.parent_isSome b d hb hd) (by omega)
      rw [if_pos hlt, hd]
      refine ⟨r, hr, (Up.link hd).trans hup, hle, fun z hz hzt => hlow z (hz.tail ?_ hd) hzt⟩
      rintro rfl
      omega
    · rw [if_neg hlt]
      exact ⟨b, rfl, Up.refl, by omega, fun z hz _ => hz⟩

/-- **`intersect` returns the lowest common block of two chains**, and asserts nothing false. -/
theorem intersectLoop_spec (hN : Numbered g id order) {fuel : Nat} (hf : id g.entry < fuel) :
    ∀ (n : Nat) (b1 b2 : BlockId), g.Reach b1 → (idom b1).isSome → g.Reach b2 → (idom b2).isSome →
      2 * id g.entry - id b1 - id b2 < n →
      ∃ r, intersectLoop id idom fuel n b1 b2 = .ok r ∧ Up idom b1 r ∧ Up idom b2 r ∧
        ∀ z, Up idom b1 z → Up idom b2 z → Up idom r z
  | 0, _, _, _, _, _, _, hn => absurd hn (Nat.not_lt_zero _)
  | n + 1, b1, b2, h1, s1, h2, s2, hn => by
    unfold intersectLoop
    by_cases heq : b1 = b2
    · subst heq
      rw [if_pos rfl]
      exact ⟨b1, rfl, Up.refl, Up.refl, fun z hz _ => hz⟩
    · have t1 := hN.le_top h1
      have t2 := hN.le_top h2
      obtain ⟨c1, hc1, u1, l1, m1⟩ := climb_spec hT hN h2 fuel b1 h1 s1 (by omega)
      have hr1 := hT.reach_up h1 u1
      have t1' := hN.le_top hr1
      obtain ⟨c2, hc2, u2, l2, m2⟩ := climb_spec hT hN hr1 fuel b2 h2 s2 (by omega)
      have hr2 := hT.reach_up h2 u2
      have t2' := hN.le_top hr2
      have e1 := hT.le_up h1 u1
      have e2 := hT.le_up h2 u2
      have hne : id b1 ≠ id b2 := fun h => heq (hN.inj h1 h2 h)
      obtain ⟨r, hr, v1, v2, m⟩ := intersectLoop_spec hN hf n c1 c2 hr1 (hT.isSome_up h1 s1 u1)
        hr2 (hT.isSome_up h2 s2 u2) (by omega)
      rw [if_neg heq, hc1]
      refine ⟨r, ?_, u1.trans v1, u2.trans v2, fun z hz1 hz2 => ?_⟩
      · show (climb id idom fuel b2 c1 >>= fun b2 => intersectLoop id idom fuel n c1 b2) = .ok r
        rw [hc2]
        exact hr
      · have hz1' := m1 z hz1 (hT.le_up h2 hz2)
        exact m z hz1' (m2 z hz2 (hT.le_up hr1 hz1'))

theorem intersect_spec (hN : Numbered g id order) {fuel : Nat} (hf : 2 * id g.entry < fuel)
    {b1 b2 : BlockId} (h1 : g.Reach b1) (s1 : (idom b1).isSome) (h2 : g.Reach b2)
    (s2 : (idom b2).isSome) :
    ∃ r, intersect id idom fuel b1 b2 = .ok r ∧ Up idom b1 r ∧ Up idom b2 r ∧
      ∀ z, Up idom b1 z → Up idom b2 z → Up idom r z :=
  intersectLoop_spec hT hN (by omega) fuel b1 b2 h1 s1 h2 s2 (by omega)

/-- The fold over the predecessors returns the lowest common block of all their chains. -/
theorem newIdom_spec (hN : Numbered g id order) {fuel : Nat} (hf : 2 * id g.entry < fuel)
    {pred : BlockId} (hp : g.Reach pred) (sp : (idom pred).isSome) :
    ∀ (pre : List BlockId) (acc : BlockId), (∀ p ∈ pre, (idom p).isSome → g.Reach p) →
      Up idom pred acc →
      ∃ r, pre.foldlM (fun new p =>
          if p = pred then .ok new
          else if (idom p).isSome then intersect id idom fuel p new
          else .ok new) acc = Except.ok (ε := Fault) r ∧
        Up idom acc r ∧ (∀ p ∈ pre, (idom p).isSome → Up idom p r) ∧
        ∀ z, Up idom acc z → (∀ p ∈ pre, (idom p).isSome → Up idom p z) → Up idom r z
  | [], acc, _, _ => by
    refine ⟨acc, rfl, Up.refl, ?_, fun z hz _ => hz⟩
    simp
  | p :: pre, acc, hpre, hacc => by
    have hpre' : ∀ q ∈ pre, (idom q).isSome → g.Reach q :=
      fun q hq => hpre q (List.mem_cons_of_mem _ hq)
    rw [List.foldlM_cons]
    by_cases heq : p = pred
    · subst heq
      rw [if_pos rfl]
      obtain ⟨r, hr, hup, hall, hlow⟩ := newIdom_spec hN hf hp sp pre acc hpre' hacc
      refine ⟨r, hr, hup, fun q hq hs => ?_, fun z hz hzall => ?_⟩
      · rcases List.mem_cons.mp hq with rfl | hq
        · exact hacc.trans hup
        · exact hall q hq hs
      · exact hlow z hz fun q hq => hzall q (List.mem_cons_of_mem _ hq)
    · rw [if_neg heq]
      by_cases hs : (idom p).isSome
      · have hpr := hpre p List.mem_cons_self hs
        obtain ⟨c, hc, u1, u2, m⟩ := intersect_spec hT hN hf hpr hs (hT.reach_up hp hacc)
          (hT.isSome_up hp sp hacc)
        obtain ⟨r, hr, hup, hall, hlow⟩ := newIdom_spec hN hf hp sp pre c hpre' (hacc.trans u2)
        rw [if_pos hs, hc]
        refine ⟨r, hr, u2.trans hup, fun q hq hqs => ?_, fun z hz hzall => ?_⟩
        · rcases List.mem_cons.mp hq with rfl | hq
          · exact u1.trans hup
          · exact hall q hq hqs
        · exact hlow z (m z (hzall p List.mem_cons_self hs) hz)
            fun q hq => hzall q (List.mem_cons_of_mem _ hq)
      · obtain ⟨r, hr, hup, hall, hlow⟩ := newIdom_spec hN hf hp sp pre acc hpre' hacc
        rw [if_neg hs]
        refine ⟨r, hr, hup, fun q hq hqs => ?_, fun z hz hzall => ?_⟩
        · rcases List.mem_cons.mp hq with rfl | hq
          · exact absurd hqs hs
          · exact hall q hq hqs
        · exact hlow z hz fun q hq => hzall q (List.mem_cons_of_mem _ hq)

/-! ## One `set_idom` -/

/-- The part of a chain below `b` stays. -/
theorem up_update_below (hb : g.Reach b) (hne : b ≠ g.entry) (hx : g.Reach x) (h : Up idom x z)
    (hz : Up idom z b) : Up (Function.update idom b (some new)) x z := by
  induction h using Relation.ReflTransGen.head_induction_on with
  | refl => exact Up.refl
  | @head a c hac hcz ih =>
    have hc := hT.parent_reach a c hx hac
    have ha : a ≠ b := by
      rintro rfl
      have h1 := hT.lt a c hx hne hac
      have h2 := hT.le_up hc (Up.trans hcz hz)
      omega
    exact (Up.link (by rw [Function.update_of_ne ha]; exact hac)).trans (ih hc)

/-- A chain that meets `b` is its part below `b`, then the chain of the new link. -/
theorem up_update_through (hne : b ≠ g.entry) (hnew : g.Reach new) (hlt : id b < id new)
    (hx : g.Reach x) (hxb : Up idom x b) (h : Up (Function.update idom b (some new)) x z) :
    (Up idom x z ∧ Up idom z b) ∨ Up idom new z := by
  have hnb : ¬ Up idom new b := fun h => by
    have := hT.le_up hnew h
    omega
  induction h using Relation.ReflTransGen.head_induction_on with
  | refl => exact Or.inl ⟨Up.refl, hxb⟩
  | @head a c hac hcz ih =>
    by_cases ha : a = b
    · subst ha
      rw [Function.update_self] at hac
      obtain rfl := Option.some.inj hac
      exact Or.inr ((up_update_of_not hnb).mp hcz)
    · rw [Function.update_of_ne ha] at hac
      rcases ih (hT.parent_reach a c hx hac) (hxb.tail (Ne.symm ha) hac) with ⟨h1, h2⟩ | h
      · exact Or.inl ⟨(Up.link hac).trans h1, h2⟩
      · exact Or.inr h

/-- Raising a link to a block on the old chain shrinks every chain. -/
theorem up_update_mono (hne : b ≠ g.entry) (hnew : g.Reach new) (hlt : id b < id new)
    (hup : Up idom b new) (hx : g.Reach x) (h : Up (Function.update idom b (some new)) x z) :
    Up idom x z := by
  by_cases hxb : Up idom x b
  · rcases up_update_through hT hne hnew hlt hx hxb h with ⟨h, -⟩ | h
    · exact h
    · exact hxb.trans (hup.trans h)
  · exact (up_update_of_not hxb).mp h

theorem Tree.update (hb : g.Reach b) (hne : b ≠ g.entry) (hnew : g.Reach new)
    (hs : (idom new).isSome) (hlt : id b < id new) :
    Tree g id (Function.update idom b (some new)) where
  root := by rw [Function.update_of_ne (Ne.symm hne)]; exact hT.root
  reach x hx h := by
    by_cases hxb : x = b
    · rw [hxb]; exact hb
    · rw [Function.update_of_ne hxb] at h
      exact hT.reach x hx h
  parent_reach x d hx h := by
    by_cases hxb : x = b
    · rw [hxb, Function.update_self] at h
      obtain rfl := Option.some.inj h
      exact hnew
    · rw [Function.update_of_ne hxb] at h
      exact hT.parent_reach x d hx h
  parent_isSome x d hx h := by
    have hd : (idom d).isSome := by
      by_cases hxb : x = b
      · rw [hxb, Function.update_self] at h
        obtain rfl := Option.some.inj h
        exact hs
      · rw [Function.update_of_ne hxb] at h
        exact hT.parent_isSome x d hx h
    by_cases hdb : d = b
    · rw [hdb, Function.update_self]; rfl
    · rw [Function.update_of_ne hdb]; exact hd
  lt x d hx hxe h := by
    by_cases hxb : x = b
    · rw [hxb, Function.update_self] at h
      obtain rfl := Option.some.inj h
      rw [hxb]; exact hlt
    · rw [Function.update_of_ne hxb] at h
      exact hT.lt x d hx hxe h

end Tree

end Cminusfc.Optimization.Dominators
