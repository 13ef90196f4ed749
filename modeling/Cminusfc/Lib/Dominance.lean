import Mathlib.Data.List.Basic
import Mathlib.Order.Basic
import Mathlib.Tactic.Tauto

/-!
# Dominance in a directed graph with a root

Walks, dominators, the immediate dominator and the dominance frontier of an arbitrary relation
`E` over an arbitrary type of vertices. Nothing here is finite or decidable.

* `Walk E r b p`: a walk from `r` to `b` whose vertices are `p`, last vertex first.
* `Dom E r d b`: every walk from `r` to `b` passes through `d`.
* `Dom.antisymm`, `Dom.total`: the dominators of a reachable vertex are linearly ordered.
* `exists_pred_not_dom`: a vertex is entered for the first time from somewhere.
* `frontier_cover`: on every walk that meets a set closed under dominance frontiers, some member
  of the set dominates the end of the walk.
-/

namespace Dominance

variable {V : Type*} (E : V → V → Prop)

/-- A walk from `r` to `b`, its vertices listed last first. -/
inductive Walk (r : V) : V → List V → Prop
  | start : Walk r r [r]
  | step {a b : V} {p : List V} : Walk r a p → E a b → Walk r b (b :: p)

/-- Some walk leads from `r` to `b`. -/
def Reachable (r b : V) : Prop := ∃ p, Walk E r b p

/-- Every walk from `r` to `b` passes through `d`. -/
def Dom (r d b : V) : Prop := ∀ p, Walk E r b p → d ∈ p

/-- Strict dominance. -/
def SDom (r d b : V) : Prop := Dom E r d b ∧ d ≠ b

/-- The strict dominator of `b` that every strict dominator of `b` dominates. -/
def IDom (r d b : V) : Prop := SDom E r d b ∧ ∀ z, SDom E r z b → Dom E r z d

/-- `n` dominates a reachable predecessor of `b` and does not strictly dominate `b`. -/
def Frontier (r n b : V) : Prop :=
  (∃ p, Reachable E r p ∧ E p b ∧ Dom E r n p) ∧ ¬ SDom E r n b

variable {E} {r a b c d : V} {p q : List V}

/-! ## Walks -/

theorem Walk.last_mem (h : Walk E r b p) : b ∈ p := by
  cases h <;> exact List.mem_cons_self

theorem Walk.root_mem (h : Walk E r b p) : r ∈ p := by
  induction h with
  | start => exact List.mem_cons_self
  | step _ _ ih => exact List.mem_cons_of_mem _ ih

theorem Reachable.refl : Reachable E r r := ⟨[r], .start⟩

theorem Reachable.step (h : Reachable E r a) (he : E a b) : Reachable E r b := by
  obtain ⟨p, hp⟩ := h
  exact ⟨_, hp.step he⟩

/-- A walk along fewer edges. -/
theorem Reachable.mono {E' : V → V → Prop} (hE : ∀ x y, E x y → E' x y) (h : Reachable E r b) :
    Reachable E' r b := by
  obtain ⟨p, hp⟩ := h
  induction hp with
  | start => exact .refl
  | step _ he ih => exact ih.step (hE _ _ he)

/-- Two walks that meet are one walk. -/
theorem Walk.trans (h₁ : Walk E r a p) (h₂ : Walk E a b q) :
    ∃ s, Walk E r b s ∧ ∀ x, x ∈ s → x ∈ p ∨ x ∈ q := by
  induction h₂ with
  | start => exact ⟨p, h₁, fun x hx => Or.inl hx⟩
  | step _ he ih =>
    obtain ⟨s, hs, hmem⟩ := ih
    refine ⟨_, hs.step he, fun x hx => ?_⟩
    rcases List.mem_cons.mp hx with rfl | hx
    · exact Or.inr List.mem_cons_self
    · rcases hmem x hx with h | h
      · exact Or.inl h
      · exact Or.inr (List.mem_cons_of_mem _ h)

theorem Reachable.trans (h₁ : Reachable E r a) (h₂ : Reachable E a b) : Reachable E r b := by
  obtain ⟨_, h₁⟩ := h₁
  obtain ⟨_, h₂⟩ := h₂
  obtain ⟨s, hs, -⟩ := h₁.trans h₂
  exact ⟨s, hs⟩

/-- A walk cut at one of its vertices. -/
theorem Walk.cut (h : Walk E r b p) : d ∈ p → ∃ q, Walk E r d q ∧ q <:+ p := by
  induction h with
  | start =>
    intro hd
    obtain rfl := List.mem_singleton.mp hd
    exact ⟨_, .start, List.suffix_refl _⟩
  | @step a b p hw he ih =>
    intro hd
    rcases List.mem_cons.mp hd with rfl | hd
    · exact ⟨_, hw.step he, List.suffix_refl _⟩
    · obtain ⟨q, hq, hs⟩ := ih hd
      exact ⟨q, hq, hs.trans (List.suffix_cons _ _)⟩

theorem Walk.reachable_mem (h : Walk E r b p) (hd : d ∈ p) : Reachable E r d := by
  obtain ⟨q, hq, -⟩ := h.cut hd
  exact ⟨q, hq⟩

/-- The part of a walk after its last vertex satisfying `P`. -/
theorem Walk.last_split {P : V → Prop} (h : Walk E r b p) (hP : ∃ x ∈ p, P x) :
    ∃ x q, P x ∧ x ∈ p ∧ Walk E x b q ∧ ∀ y ∈ q, P y → y = x := by
  induction h with
  | start =>
    obtain ⟨x, hx, hPx⟩ := hP
    obtain rfl := List.mem_singleton.mp hx
    exact ⟨x, [x], hPx, List.mem_cons_self, .start, fun y hy _ => List.mem_singleton.mp hy⟩
  | @step a b p hw he ih =>
    by_cases hb : P b
    · exact ⟨b, [b], hb, List.mem_cons_self, .start, fun y hy _ => List.mem_singleton.mp hy⟩
    · have hP' : ∃ x ∈ p, P x := by
        obtain ⟨x, hx, hPx⟩ := hP
        rcases List.mem_cons.mp hx with rfl | hx
        · exact absurd hPx hb
        · exact ⟨x, hx, hPx⟩
      obtain ⟨x, q, hPx, hx, hq, hlast⟩ := ih hP'
      refine ⟨x, _, hPx, List.mem_cons_of_mem _ hx, hq.step he, fun y hy hPy => ?_⟩
      rcases List.mem_cons.mp hy with rfl | hy
      · exact absurd hPy hb
      · exact hlast y hy hPy

/-! ## Dominance is a partial order on the reachable vertices -/

theorem Dom.refl : Dom E r b b := fun _ h => h.last_mem

theorem Dom.root : Dom E r r b := fun _ h => h.root_mem

theorem Dom.trans (h₁ : Dom E r a b) (h₂ : Dom E r b c) : Dom E r a c := by
  intro p hp
  obtain ⟨q, hq, hs⟩ := hp.cut (h₂ p hp)
  exact hs.subset (h₁ q hq)

/-- Only the root dominates the root. -/
theorem Dom.eq_root (h : Dom E r d r) : d = r := List.mem_singleton.mp (h [r] .start)

theorem Dom.reachable (h : Dom E r d b) (hb : Reachable E r b) : Reachable E r d := by
  obtain ⟨p, hp⟩ := hb
  exact hp.reachable_mem (h p hp)

/-- A walk that avoids `d` refutes dominance. -/
theorem not_dom_iff : ¬ Dom E r d b ↔ ∃ p, Walk E r b p ∧ d ∉ p := by
  unfold Dom
  push Not
  exact Iff.rfl

theorem Dom.antisymm (hb : Reachable E r b) (h₁ : Dom E r a b) (h₂ : Dom E r b a) : a = b := by
  by_contra hne
  -- each of the two would have to be met first on a walk to the other
  have descend : ∀ n (p : List V), p.length ≤ n → ¬ Walk E r b p := by
    intro n
    induction n with
    | zero =>
      intro p hlen hp
      have := List.length_pos_of_mem hp.last_mem
      omega
    | succ n ih =>
      intro p hlen hp
      obtain ⟨q, hq, hqp⟩ := hp.cut (h₁ p hp)
      obtain ⟨s, hs, hsq⟩ := hq.cut (h₂ q hq)
      have hlt : s.length < p.length := by
        by_contra hge
        have hle : q.length ≤ p.length := hqp.length_le
        have hle' : s.length ≤ q.length := hsq.length_le
        obtain rfl := hqp.eq_of_length (by omega)
        obtain rfl := hsq.eq_of_length (by omega)
        cases hq <;> cases hs <;> exact hne rfl
      exact ih s (by omega) hs
  obtain ⟨p, hp⟩ := hb
  exact descend p.length p (Nat.le_refl _) hp

/-- The dominators of a reachable vertex are comparable. -/
theorem Dom.total (hc : Reachable E r c) (ha : Dom E r a c) (hb : Dom E r b c) :
    Dom E r a b ∨ Dom E r b a := by
  by_contra hno
  rw [not_or, not_dom_iff, not_dom_iff] at hno
  obtain ⟨⟨q₁, hq₁, ha₁⟩, ⟨q₂, hq₂, hb₂⟩⟩ := hno
  obtain ⟨p, hp⟩ := hc
  have hne : a ≠ b := by
    rintro rfl
    exact ha₁ hq₁.last_mem
  obtain ⟨x, s, hx, -, hs, hlast⟩ :=
    hp.last_split (P := fun x => x = a ∨ x = b) ⟨a, ha p hp, Or.inl rfl⟩
  rcases hx with rfl | rfl
  · -- after `a` the walk no longer meets `b`
    obtain ⟨w, hw, hmem⟩ := hq₂.trans hs
    rcases hmem b (hb w hw) with h | h
    · exact hb₂ h
    · exact hne (hlast b h (Or.inr rfl)).symm
  · obtain ⟨w, hw, hmem⟩ := hq₁.trans hs
    rcases hmem a (ha w hw) with h | h
    · exact ha₁ h
    · exact hne (hlast a h (Or.inl rfl))

theorem SDom.trans_dom (hb : Reachable E r b) (h₁ : SDom E r a b) (h₂ : Dom E r c a) :
    SDom E r c b := by
  refine ⟨h₂.trans h₁.1, ?_⟩
  rintro rfl
  exact h₁.2 (Dom.antisymm hb h₁.1 h₂)

/-- A strict dominator dominates every predecessor. -/
theorem SDom.pred (h : SDom E r d b) (he : E a b) : Dom E r d a := by
  intro p hp
  rcases List.mem_cons.mp (h.1 _ (hp.step he)) with heq | hd
  · exact absurd heq h.2
  · exact hd

/-- A vertex other than `b` that dominates every predecessor of `b` dominates `b`. -/
theorem Dom.of_preds (hr : b ≠ r) (h : ∀ a, E a b → Reachable E r a → Dom E r d a) :
    Dom E r d b := by
  intro p hp
  cases hp with
  | start => exact absurd rfl hr
  | step hw he => exact List.mem_cons_of_mem _ (h _ he ⟨_, hw⟩ _ hw)

/-- A vertex that dominates every predecessor of `b` that `b` does not dominate dominates `b`. -/
theorem Dom.of_entries (hr : b ≠ r) (h : ∀ a, E a b → ¬ Dom E r b a → Dom E r d a) :
    Dom E r d b := by
  have descend : ∀ n (p : List V), p.length ≤ n → Walk E r b p → d ∈ p := by
    intro n
    induction n with
    | zero =>
      intro p hlen hp
      have := List.length_pos_of_mem hp.last_mem
      omega
    | succ n ih =>
      intro p hlen hp
      cases hp with
      | start => exact absurd rfl hr
      | @step a _ p hw he =>
        by_cases hmem : b ∈ p
        · obtain ⟨q, hq, hs⟩ := hw.cut hmem
          have hle : q.length ≤ p.length := hs.length_le
          rw [List.length_cons] at hlen
          exact List.mem_cons_of_mem _ (hs.subset (ih q (by omega) hq))
        · exact List.mem_cons_of_mem _ (h a he (not_dom_iff.mpr ⟨p, hw, hmem⟩) p hw)
  exact fun p hp => descend p.length p (Nat.le_refl _) hp

theorem IDom.unique (hb : Reachable E r b) (h₁ : IDom E r a b) (h₂ : IDom E r c b) : a = c :=
  Dom.antisymm (h₂.1.1.reachable hb) (h₂.2 a h₁.1) (h₁.2 c h₂.1)

/-- A reachable vertex other than the root has a reachable predecessor it does not dominate. -/
theorem exists_pred_not_dom (hb : Reachable E r b) (hr : b ≠ r) :
    ∃ a, Reachable E r a ∧ E a b ∧ ¬ Dom E r b a := by
  have descend : ∀ n (p : List V), p.length ≤ n → Walk E r b p →
      ∃ a, Reachable E r a ∧ E a b ∧ ¬ Dom E r b a := by
    intro n
    induction n with
    | zero =>
      intro p hlen hp
      have := List.length_pos_of_mem hp.last_mem
      omega
    | succ n ih =>
      intro p hlen hp
      cases hp with
      | start => exact absurd rfl hr
      | @step a _ p hw he =>
        by_cases hmem : b ∈ p
        · obtain ⟨q, hq, hs⟩ := hw.cut hmem
          have hle : q.length ≤ p.length := hs.length_le
          rw [List.length_cons] at hlen
          exact ih q (by omega) hq
        · exact ⟨a, ⟨p, hw⟩, he, not_dom_iff.mpr ⟨p, hw, hmem⟩⟩
  obtain ⟨p, hp⟩ := hb
  exact descend p.length p (Nat.le_refl _) hp

/-! ## Dominance frontiers cover every walk -/

/-- A reachable vertex has a walk that does not come back to the root. -/
theorem Reachable.once (h : Reachable E r b) : ∃ p, Walk E r b p ∧ r ∉ p.dropLast := by
  obtain ⟨p, hp⟩ := h
  induction hp with
  | start => exact ⟨[r], .start, by simp⟩
  | @step a b p _ he ih =>
    obtain ⟨q, hq, hr⟩ := ih
    by_cases hb : b = r
    · subst hb
      exact ⟨[b], .start, by simp⟩
    · refine ⟨b :: q, hq.step he, ?_⟩
      rw [List.dropLast_cons_of_ne_nil (List.ne_nil_of_mem hq.last_mem)]
      simp [hr, Ne.symm hb]

/-- Where no edge leads to the root no walk comes back to it. -/
theorem Walk.once (h : Walk E r b p) (hr : ∀ a, ¬ E a r) : r ∉ p.dropLast := by
  induction h with
  | start => simp
  | @step a b p hw he ih =>
    rw [List.dropLast_cons_of_ne_nil (List.ne_nil_of_mem hw.last_mem), List.mem_cons, not_or]
    refine ⟨?_, ih⟩
    rintro rfl
    exact hr a he

/-- **Frontier cover.** Let `D` contain the frontier of each of its members, but for the root.
Whenever a walk that does not come back to the root meets `D`, some member of `D` dominates the end
of the walk. -/
theorem frontier_cover {D : V → Prop} (hD : ∀ a b, D a → Frontier E r a b → b ≠ r → D b)
    (h : Walk E r b p) (hr : r ∉ p.dropLast) (hp : ∃ x ∈ p, D x) : ∃ x, D x ∧ Dom E r x b := by
  induction h with
  | start =>
    obtain ⟨x, hx, hDx⟩ := hp
    obtain rfl := List.mem_singleton.mp hx
    exact ⟨x, hDx, Dom.refl⟩
  | @step a b p hw he ih =>
    rw [List.dropLast_cons_of_ne_nil (List.ne_nil_of_mem hw.last_mem), List.mem_cons, not_or] at hr
    by_cases hb : D b
    · exact ⟨b, hb, Dom.refl⟩
    · have hp' : ∃ x ∈ p, D x := by
        obtain ⟨x, hx, hDx⟩ := hp
        rcases List.mem_cons.mp hx with rfl | hx
        · exact absurd hDx hb
        · exact ⟨x, hx, hDx⟩
      obtain ⟨x, hDx, hdom⟩ := ih hr.2 hp'
      by_cases hs : SDom E r x b
      · exact ⟨x, hDx, hs.1⟩
      · exact absurd (hD x b hDx ⟨⟨a, ⟨p, hw⟩, he, hdom⟩, hs⟩ (Ne.symm hr.1)) hb

end Dominance
