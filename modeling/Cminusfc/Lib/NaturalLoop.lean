import Mathlib.Data.Finite.Defs
import Mathlib.Data.Fintype.EquivFin
import Mathlib.Data.Set.Finite.Basic
import Mathlib.Logic.Relation
import Mathlib.Order.WellFounded
import Cminusfc.Lib.Dominance

/-!
# Natural loops

A back edge leads to a vertex that dominates its source; `InLoop E r h` is the union of the natural
loops of the back edges into `h`. A graph is reducible when every cycle has a back edge.

* `InLoop.from_head`, `InLoop.to_head`: a loop is strongly connected.
* `InLoop.entry`: a loop is entered at its head only.
* `InLoop.subset`: two loops that meet are nested.
* `region_inLoop`: a strongly connected set of a reducible graph lies in the loop of one of its
  vertices.
-/

namespace Dominance

variable {V : Type*} (E : V → V → Prop)

/-- An edge to a dominator. -/
def BackEdge (r a h : V) : Prop := E a h ∧ Dom E r h a

/-- A path that does not come to `h` behind its first vertex. -/
def Avoids (h : V) : V → V → Prop := Relation.ReflTransGen fun a b => E a b ∧ b ≠ h

/-- `b` is in the natural loop of a back edge into `h`. -/
def InLoop (r h b : V) : Prop := ∃ a, BackEdge E r a h ∧ (b = h ∨ b ≠ h ∧ Avoids E h b a)

/-- A path inside a set. -/
def Inside (S : V → Prop) : V → V → Prop := Relation.ReflTransGen fun a b => E a b ∧ S a ∧ S b

/-- Every cycle has a back edge. -/
def Reducible (r : V) : Prop := ∀ a, ¬ Relation.TransGen (fun a b => E a b ∧ ¬ Dom E r b a) a a

variable {E} {r a b c d h e : V} {S : V → Prop}

theorem InLoop.head (hb : InLoop E r h b) : InLoop E r h h :=
  hb.imp fun _ ha => ⟨ha.1, Or.inl rfl⟩

theorem Avoids.dom (hav : Avoids E h b a) (hd : Dom E r h a) : Dom E r h b := by
  induction hav using Relation.ReflTransGen.head_induction_on with
  | refl => exact hd
  | head he _ ih => exact SDom.pred ⟨ih, he.2.symm⟩ he.1

/-- The head dominates its loop. -/
theorem InLoop.dom (hb : InLoop E r h b) : Dom E r h b := by
  obtain ⟨a, ha, rfl | ⟨-, hav⟩⟩ := hb
  · exact Dom.refl
  · exact hav.dom ha.2

/-- **A loop is entered at its head only.** -/
theorem InLoop.pred (hb : InLoop E r h b) (he : E a b) (hbh : b ≠ h) : InLoop E r h a := by
  obtain ⟨x, hx, hb | ⟨-, hav⟩⟩ := hb
  · exact absurd hb hbh
  · by_cases hah : a = h
    · exact ⟨x, hx, Or.inl hah⟩
    · exact ⟨x, hx, Or.inr ⟨hah, Relation.ReflTransGen.head ⟨he, hbh⟩ hav⟩⟩

theorem InLoop.entry (hb : InLoop E r h b) (he : E a b) (ha : ¬ InLoop E r h a) : b = h := by
  by_contra hbh
  exact ha (hb.pred he hbh)

theorem Inside.mono {T : V → Prop} (hp : Inside E S a b) (hST : ∀ x, S x → T x) : Inside E T a b :=
  Relation.ReflTransGen.mono (fun x y hxy => ⟨hxy.1, hST x hxy.2.1, hST y hxy.2.2⟩) _ _ hp

/-- Inside its loop every vertex comes to the head. -/
theorem InLoop.to_head (hb : InLoop E r h b) : Inside E (InLoop E r h) b h := by
  obtain ⟨a, ha, rfl | ⟨hbh, hav⟩⟩ := hb
  · exact Relation.ReflTransGen.refl
  · have hloop : ∀ y, y ≠ h → Avoids E h y a → InLoop E r h y := fun y hy hya => ⟨a, ha, Or.inr ⟨hy, hya⟩⟩
    have hhead : InLoop E r h h := ⟨a, ha, Or.inl rfl⟩
    induction hav using Relation.ReflTransGen.head_induction_on with
    | refl =>
      exact Relation.ReflTransGen.single ⟨ha.1, hloop a hbh Relation.ReflTransGen.refl, hhead⟩
    | @head x y he hya ih =>
      exact Relation.ReflTransGen.head ⟨he.1, hloop x hbh (Relation.ReflTransGen.head he hya),
        hloop y he.2 hya⟩ (ih he.2)

/-- Inside its loop the head comes to every vertex. -/
theorem InLoop.from_head (hb : InLoop E r h b) (hr : Reachable E r b) :
    Inside E (InLoop E r h) h b := by
  obtain ⟨p, hp⟩ := hr
  induction hp with
  | start =>
    rw [hb.dom.eq_root]
    exact Relation.ReflTransGen.refl
  | @step a b p _ he ih =>
    by_cases hbh : b = h
    · rw [hbh]
      exact Relation.ReflTransGen.refl
    · have ha := hb.pred he hbh
      exact (ih ha).tail ⟨he, ha, hb⟩

/-- **Two loops that meet are nested.** -/
theorem InLoop.subset (hd : InLoop E r d b) (he : InLoop E r e b) (hb : Reachable E r b)
    (hed : Dom E r e d) {y : V} (hy : InLoop E r d y) : InLoop E r e y := by
  by_cases heq : e = d
  · rwa [heq]
  -- the vertices of the loop of `d` are no dominators of `d`, and `e` is one
  have hne : ∀ z, InLoop E r d z → z ≠ e := by
    rintro z hz rfl
    exact heq (Dom.antisymm (hd.dom.reachable hb) hed hz.dom)
  obtain ⟨x, hx, hbe | ⟨-, hav⟩⟩ := he
  · exact absurd hbe (hne b hd)
  · refine ⟨x, hx, Or.inr ⟨hne y hy, ?_⟩⟩
    have hpath : Inside E (InLoop E r d) y b := hy.to_head.trans (hd.from_head hb)
    have hyb : Avoids E e y b :=
      Relation.ReflTransGen.mono (fun u v huv => ⟨huv.1, hne v huv.2.2⟩) _ _ hpath
    exact hyb.trans hav

/-! ## Strongly connected sets -/

/-- A finite nonempty set has a vertex that only back edges lead to. -/
theorem Reducible.exists_head (hred : Reducible E r) {l : List V} (hl : l ≠ []) :
    ∃ d ∈ l, ∀ a ∈ l, E a d → Dom E r d a := by
  let R : {x // x ∈ l} → {x // x ∈ l} → Prop := fun x y =>
    Relation.TransGen (fun a b => E a b ∧ ¬ Dom E r b a) x.1 y.1
  have hfin : Finite {x // x ∈ l} := (List.finite_toSet l).to_subtype
  have htrans : IsTrans {x // x ∈ l} R := ⟨fun _ _ _ h₁ h₂ => Relation.TransGen.trans h₁ h₂⟩
  have hirr : Std.Irrefl R := ⟨fun x => hred x.1⟩
  have hwf : WellFounded R := Finite.wellFounded_of_trans_of_irrefl R
  obtain ⟨x, hx⟩ := List.exists_mem_of_ne_nil l hl
  obtain ⟨⟨d, hd⟩, -, hmin⟩ := hwf.has_min Set.univ ⟨⟨x, hx⟩, trivial⟩
  refine ⟨d, hd, fun a ha he => ?_⟩
  by_contra hdom
  exact hmin ⟨a, ha⟩ trivial (Relation.TransGen.single ⟨he, hdom⟩)

/-- A path inside a set meets its end for the first time from the set. -/
theorem Inside.last_edge (hp : Inside E S b d) (hb : b ≠ d) :
    ∃ a, S a ∧ E a d ∧ Avoids E d b a := by
  induction hp using Relation.ReflTransGen.head_induction_on with
  | refl => exact absurd rfl hb
  | @head x y he _ ih =>
    by_cases hy : y = d
    · exact ⟨x, he.2.1, hy ▸ he.1, Relation.ReflTransGen.refl⟩
    · obtain ⟨a, ha, had, hav⟩ := ih hy
      exact ⟨a, ha, had, Relation.ReflTransGen.head ⟨he.1, hy⟩ hav⟩

/-- **A strongly connected set of a reducible graph lies in the loop of one of its vertices.** -/
theorem region_inLoop (hred : Reducible E r) {l : List V} (hnd : l.Nodup) (hlen : 2 ≤ l.length)
    (hconn : ∀ x ∈ l, ∀ y ∈ l, Inside E (· ∈ l) x y) : ∃ d ∈ l, ∀ b ∈ l, InLoop E r d b := by
  have hne : l ≠ [] := by
    rintro rfl
    simp at hlen
  obtain ⟨d, hd, hback⟩ := hred.exists_head hne
  obtain ⟨x, hx, hxd⟩ : ∃ x ∈ l, x ≠ d := by
    match l, hnd, hlen with
    | x :: y :: l, hnd, _ =>
      by_cases hxd : x = d
      · refine ⟨y, by simp, fun hyd => ?_⟩
        exact (List.nodup_cons.mp hnd).1 (by rw [hxd, ← hyd]; exact List.mem_cons_self)
      · exact ⟨x, by simp, hxd⟩
  refine ⟨d, hd, fun b hb => ?_⟩
  by_cases hbd : b = d
  · obtain ⟨a, ha, had, -⟩ := (hconn x hx d hd).last_edge hxd
    exact ⟨a, ⟨had, hback a ha had⟩, Or.inl hbd⟩
  · obtain ⟨a, ha, had, hav⟩ := (hconn b hb d hd).last_edge hbd
    exact ⟨a, ⟨had, hback a ha had⟩, Or.inr ⟨hbd, hav⟩⟩

end Dominance
