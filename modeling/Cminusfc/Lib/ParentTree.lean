import Cminusfc.Lib.Dominance

/-!
# Dominators from a tree of parents

A graph is built up vertex by vertex, and every vertex but the root gets a parent when it is made.
If every edge leads to a child of an ancestor of its source (`Nested`), the ancestors of a vertex
dominate it (`Ancestor.dom`), however the walks go. What is known of the ancestors of a vertex does
not change when others are added (`Ancestor.mono`).
-/

namespace Dominance

variable {V : Type*} {E : V → V → Prop} {p p' : V → V} {r a b c : V}

/-- `a` is `b` or stands above it, where `p` gives the parent of every vertex but `r`. -/
inductive Ancestor (p : V → V) (r a : V) : V → Prop
  | refl : Ancestor p r a a
  | up {b : V} (hb : b ≠ r) (h : Ancestor p r a (p b)) : Ancestor p r a b

/-- Every edge leads to a child of an ancestor of its source. -/
def Nested (E : V → V → Prop) (p : V → V) (r : V) : Prop :=
  ∀ a b, E a b → b ≠ r ∧ Ancestor p r (p b) a

theorem Ancestor.trans (h₁ : Ancestor p r a b) (h₂ : Ancestor p r b c) : Ancestor p r a c := by
  induction h₂ with
  | refl => exact h₁
  | up hb _ ih => exact .up hb ih

/-- A child. -/
theorem Ancestor.child (hb : b ≠ r) (h : p b = a) : Ancestor p r a b := .up hb (h ▸ .refl)

/-- Other vertices get parents. -/
theorem Ancestor.mono {S : V → Prop} (hclosed : ∀ c, S c → c ≠ r → S (p c))
    (hsame : ∀ c, S c → p' c = p c) (h : Ancestor p r a b) (hb : S b) : Ancestor p' r a b := by
  induction h with
  | refl => exact .refl
  | @up b hne _ ih =>
    refine .up hne ?_
    rw [hsame b hb]
    exact ih (hclosed b hb hne)

/-- **The ancestors of a vertex dominate it.** -/
theorem Ancestor.dom (hE : Nested E p r) (h : Ancestor p r a b) : Dom E r a b := by
  intro q hq
  induction hq generalizing a with
  | start =>
    cases h with
    | refl => exact List.mem_cons_self
    | up hne _ => exact absurd rfl hne
  | @step c d q hwalk hedge ih =>
    obtain ⟨-, habove⟩ := hE c d hedge
    cases h with
    | refl => exact List.mem_cons_self
    | up _ h => exact List.mem_cons_of_mem _ (ih (h.trans habove))

/-- What dominates strictly. -/
theorem Ancestor.sdom (hE : Nested E p r) (h : Ancestor p r a b) (hne : a ≠ b) : SDom E r a b :=
  ⟨h.dom hE, hne⟩

end Dominance
