import Mathlib.Data.List.Basic
import Mathlib.Data.List.Nodup
import Mathlib.Data.List.Count
import Cminusfc.Lib.Dominance

/-!
# Depth-first search in post-order

`visit succ finish` is the recursive depth-first search over successor lists: mark the vertex,
recurse into the successors that are not marked yet, then apply `finish` to the vertex. `finish`
acts on an arbitrary accumulator, so the search can number, list or record the vertices in the
order in which their visits end.

* `Forest`: what a search adds, the new vertices in post-order. Every one of them other than the
  roots has a predecessor that ends later.
* `visit_forest`: with as much fuel as there are unmarked vertices the search ends, and what it
  adds is a `Forest`.
* `Postorder`, `search_postorder`: the search from the root of a graph lists exactly the
  reachable vertices, each once, the root last.
-/

namespace DepthFirst

open Dominance

variable {V σ : Type*}

/-- The marked vertices and the accumulator. -/
structure State (V σ : Type*) where
  visited : List V
  acc : σ

/-- The search from `v`; `none` when the fuel, which bounds the depth, runs out. -/
def visit [DecidableEq V] (succ : V → List V) (finish : σ → V → σ) : Nat → V → State V σ → Option (State V σ)
  | 0, _, _ => none
  | n + 1, v, s => do
    let s ← (succ v).foldlM
      (fun s w => if w ∈ s.visited then some s else visit succ finish n w s)
      { s with visited := v :: s.visited }
    some { s with acc := finish s.acc v }

/-- The search adds the vertices `new`, in post-order, for the roots `roots`. -/
structure Forest (succ : V → List V) (vis vis' new roots : List V) : Prop where
  visited : ∀ x, x ∈ vis' ↔ x ∈ vis ∨ x ∈ new
  nodup : new.Nodup
  fresh : ∀ x ∈ new, x ∉ vis
  closed : ∀ x ∈ new, ∀ y ∈ succ x, y ∈ vis'
  done : ∀ x ∈ roots, x ∈ vis'
  /-- A vertex that is not a root ends before one of its predecessors. -/
  parent : ∀ x ∈ new, x ∈ roots ∨ ∃ a, x ∈ succ a ∧ [x, a].Sublist new

variable {succ : V → List V} {finish : σ → V → σ} {vis vis' vis'' new new' roots roots' U : List V}

theorem Forest.nil : Forest succ vis vis [] [] where
  visited x := by simp
  nodup := List.nodup_nil
  fresh x hx := absurd hx List.not_mem_nil
  closed x hx := absurd hx List.not_mem_nil
  done x hx := absurd hx List.not_mem_nil
  parent x hx := absurd hx List.not_mem_nil

/-- A root that is marked already adds nothing. -/
theorem Forest.skip {v : V} (h : Forest succ vis vis' new roots) (hv : v ∈ vis) :
    Forest succ vis vis' new (v :: roots) where
  visited := h.visited
  nodup := h.nodup
  fresh := h.fresh
  closed := h.closed
  done x hx := by
    rcases List.mem_cons.mp hx with rfl | hx
    · exact (h.visited x).mpr (Or.inl hv)
    · exact h.done x hx
  parent x hx := (h.parent x hx).imp (List.mem_cons_of_mem _) id

/-- One search after another. -/
theorem Forest.append (h₁ : Forest succ vis vis' new roots)
    (h₂ : Forest succ vis' vis'' new' roots') :
    Forest succ vis vis'' (new ++ new') (roots ++ roots') where
  visited x := by rw [h₂.visited, h₁.visited, List.mem_append, or_assoc]
  nodup := by
    refine List.nodup_append.mpr ⟨h₁.nodup, h₂.nodup, ?_⟩
    rintro x hx y hy rfl
    exact h₂.fresh x hy ((h₁.visited x).mpr (Or.inr hx))
  fresh x hx := by
    rcases List.mem_append.mp hx with hx | hx
    · exact h₁.fresh x hx
    · exact fun hv => h₂.fresh x hx ((h₁.visited x).mpr (Or.inl hv))
  closed x hx y hy := by
    rcases List.mem_append.mp hx with hx | hx
    · exact (h₂.visited y).mpr (Or.inl (h₁.closed x hx y hy))
    · exact h₂.closed x hx y hy
  done x hx := by
    rcases List.mem_append.mp hx with hx | hx
    · exact (h₂.visited x).mpr (Or.inl (h₁.done x hx))
    · exact h₂.done x hx
  parent x hx := by
    rcases List.mem_append.mp hx with hx | hx
    · rcases h₁.parent x hx with hr | ⟨a, ha, hs⟩
      · exact Or.inl (List.mem_append_left _ hr)
      · exact Or.inr ⟨a, ha, hs.trans (List.sublist_append_left _ _)⟩
    · rcases h₂.parent x hx with hr | ⟨a, ha, hs⟩
      · exact Or.inl (List.mem_append_right _ hr)
      · exact Or.inr ⟨a, ha, hs.trans (List.sublist_append_right _ _)⟩

/-- The searches from the successors of `v`, then `v` itself. -/
theorem Forest.close {v : V} (hv : v ∉ vis) (h : Forest succ (v :: vis) vis' new (succ v)) :
    Forest succ vis vis' (new ++ [v]) [v] where
  visited x := by
    rw [h.visited, List.mem_cons, List.mem_append, List.mem_singleton]
    tauto
  nodup := by
    refine List.nodup_append.mpr ⟨h.nodup, List.nodup_singleton v, ?_⟩
    rintro x hx y hy rfl
    obtain rfl := List.mem_singleton.mp hy
    exact h.fresh x hx List.mem_cons_self
  fresh x hx := by
    rcases List.mem_append.mp hx with hx | hx
    · exact fun hin => h.fresh x hx (List.mem_cons_of_mem _ hin)
    · obtain rfl := List.mem_singleton.mp hx
      exact hv
  closed x hx y hy := by
    rcases List.mem_append.mp hx with hx | hx
    · exact h.closed x hx y hy
    · obtain rfl := List.mem_singleton.mp hx
      exact h.done y hy
  done x hx := by
    obtain rfl := List.mem_singleton.mp hx
    exact (h.visited x).mpr (Or.inl List.mem_cons_self)
  parent x hx := by
    rcases List.mem_append.mp hx with hx | hx
    · refine Or.inr ?_
      rcases h.parent x hx with hr | ⟨a, ha, hs⟩
      · have hsub := (List.singleton_sublist.mpr hx).append (List.Sublist.refl [v])
        exact ⟨v, hr, hsub⟩
      · exact ⟨a, ha, hs.trans (List.sublist_append_left _ _)⟩
    · exact Or.inl hx

/-- Everything a forest adds is reachable from the roots: follow the parents. -/
theorem Forest.reachable {r : V} (h : Forest succ vis vis' new [r]) (hr : r ∈ new) :
    ∀ x ∈ new, Reachable (fun a b => b ∈ succ a) r x := by
  -- by induction on the number of vertices that end after `x`
  have key : ∀ (l₂ l₁ : List V), new = l₁ ++ l₂ →
      ∀ x ∈ l₂, Reachable (fun a b => b ∈ succ a) r x := by
    intro l₂
    induction l₂ with
    | nil => exact fun _ _ x hx => absurd hx List.not_mem_nil
    | cons y l₂ ih =>
      intro l₁ hnew x hx
      have ih' := ih (l₁ ++ [y]) (by rw [hnew, List.append_assoc]; rfl)
      rcases List.mem_cons.mp hx with rfl | hx
      · have hxnew : x ∈ new := by rw [hnew]; exact List.mem_append_right _ List.mem_cons_self
        rcases h.parent x hxnew with hroot | ⟨a, ha, hs⟩
        · obtain rfl := List.mem_singleton.mp hroot
          exact Reachable.refl
        · have hnd := h.nodup
          rw [hnew] at hs hnd
          have ha₂ : a ∈ l₂ := by
            have hx₁ : x ∉ l₁ := fun hx₁ =>
              (List.nodup_append.mp hnd).2.2 x hx₁ x List.mem_cons_self rfl
            obtain ⟨s₁, s₂, heq, hs₁, hs₂⟩ := List.sublist_append_iff.mp hs
            cases s₁ with
            | nil =>
              rw [List.nil_append] at heq
              rw [← heq] at hs₂
              exact List.singleton_sublist.mp (List.cons_sublist_cons.mp hs₂)
            | cons z s₁ =>
              obtain rfl : x = z := (List.cons.inj heq).1
              exact absurd (hs₁.subset List.mem_cons_self) hx₁
          exact (ih' a ha₂).step ha
      · exact ih' x hx
  exact key new [] rfl

/-! ## Fuel -/

variable [DecidableEq V]

/-- The vertices of `U` that are not marked. -/
def unmarked (U vis : List V) : Nat := U.countP (· ∉ vis)

theorem unmarked_mono (h : ∀ x, x ∈ vis → x ∈ vis') : unmarked U vis' ≤ unmarked U vis := by
  unfold unmarked
  refine List.countP_mono_left fun x _ hx => ?_
  simp only [decide_eq_true_eq] at hx ⊢
  exact fun hv => hx (h x hv)

theorem unmarked_cons_lt {v : V} (hU : v ∈ U) (hv : v ∉ vis) :
    unmarked U (v :: vis) < unmarked U vis := by
  unfold unmarked
  induction U with
  | nil => exact absurd hU List.not_mem_nil
  | cons u U ih =>
    have hle : unmarked U (v :: vis) ≤ unmarked U vis :=
      unmarked_mono fun x hx => List.mem_cons_of_mem _ hx
    unfold unmarked at hle
    rw [List.countP_cons, List.countP_cons]
    rcases List.mem_cons.mp hU with rfl | hU'
    · simp only [List.mem_cons_self, not_true_eq_false, decide_false, Bool.false_eq_true, if_false,
        hv, not_false_eq_true, decide_true, if_true]
      omega
    · have := ih hU'
      by_cases hu : u ∈ vis
      · have hu' : u ∈ v :: vis := List.mem_cons_of_mem _ hu
        simp only [hu, hu', not_true_eq_false, decide_false, Bool.false_eq_true, if_false]
        omega
      · simp only [hu, not_false_eq_true, decide_true, if_true]
        split <;> omega

/-- What a search from the vertices `roots` does to the state. -/
def Adds (succ : V → List V) (finish : σ → V → σ) (s s' : State V σ) (roots new : List V) : Prop :=
  Forest succ s.visited s'.visited new roots ∧ s'.acc = new.foldl finish s.acc

/-- The loop over a list of successors, given the specification of one search. -/
theorem foldlM_forest {n : Nat}
    (ih : ∀ (v : V) (s : State V σ), v ∈ U → v ∉ s.visited → unmarked U s.visited ≤ n →
      ∃ s' new, visit succ finish n v s = some s' ∧ Adds succ finish s s' [v] (new ++ [v])) :
    ∀ (ws : List V) (s : State V σ), (∀ w ∈ ws, w ∈ U) → unmarked U s.visited ≤ n →
      ∃ s' new, ws.foldlM (fun s w => if w ∈ s.visited then some s else visit succ finish n w s) s =
        some s' ∧ Adds succ finish s s' ws new
  | [], s, _, _ => ⟨s, [], rfl, Forest.nil, rfl⟩
  | w :: ws, s, hU, hn => by
    have hws : ∀ x ∈ ws, x ∈ U := fun x hx => hU x (List.mem_cons_of_mem _ hx)
    rw [List.foldlM_cons]
    by_cases hw : w ∈ s.visited
    · obtain ⟨s', new, hs, hF, hacc⟩ := foldlM_forest ih ws s hws hn
      rw [if_pos hw]
      exact ⟨s', new, hs, hF.skip hw, hacc⟩
    · obtain ⟨s₁, new₁, hv, hF₁, hacc₁⟩ := ih w s (hU w List.mem_cons_self) hw hn
      have hn₁ : unmarked U s₁.visited ≤ n :=
        Nat.le_trans (unmarked_mono fun x hx => (hF₁.visited x).mpr (Or.inl hx)) hn
      obtain ⟨s₂, new₂, hs, hF₂, hacc₂⟩ := foldlM_forest ih ws s₁ hws hn₁
      rw [if_neg hw, hv]
      refine ⟨s₂, (new₁ ++ [w]) ++ new₂, hs, hF₁.append hF₂, ?_⟩
      rw [hacc₂, hacc₁, ← List.foldl_append]

/-- **The search ends**, given as much fuel as there are unmarked vertices, and adds a forest. -/
theorem visit_forest (hU : ∀ x ∈ U, ∀ y ∈ succ x, y ∈ U) :
    ∀ (n : Nat) (v : V) (s : State V σ), v ∈ U → v ∉ s.visited → unmarked U s.visited ≤ n →
      ∃ s' new, visit succ finish n v s = some s' ∧ Adds succ finish s s' [v] (new ++ [v])
  | 0, v, s, hvU, hv, hn => by
    have := unmarked_cons_lt hvU hv
    omega
  | n + 1, v, s, hvU, hv, hn => by
    have hlt := unmarked_cons_lt hvU hv
    obtain ⟨s', new, hs, hF, hacc⟩ := foldlM_forest (visit_forest hU n) (succ v)
      { s with visited := v :: s.visited } (hU v hvU) (by simp only; omega)
    refine ⟨{ s' with acc := finish s'.acc v }, new, ?_, hF.close hv, ?_⟩
    · unfold visit
      rw [hs]
      rfl
    · rw [List.foldl_append, ← hacc]
      rfl

/-! ## The search from the root of a graph -/

/-- `post` lists the vertices reachable from `r` in the order in which their visits end. -/
structure Postorder (succ : V → List V) (r : V) (post : List V) : Prop where
  nodup : post.Nodup
  mem_iff : ∀ x, x ∈ post ↔ Reachable (fun a b => b ∈ succ a) r x
  root_last : post.getLast? = some r
  /-- Every vertex other than the root ends before one of its predecessors. -/
  parent : ∀ x ∈ post, x ≠ r → ∃ a, x ∈ succ a ∧ [x, a].Sublist post

/-- **Specification of the search from a root.** -/
theorem search_postorder (finish : σ → V → σ) {r : V} (hU : ∀ x ∈ U, ∀ y ∈ succ x, y ∈ U) (hr : r ∈ U) (a₀ : σ)
    {n : Nat} (hn : U.length ≤ n) :
    ∃ s' post, visit succ finish n r ⟨[], a₀⟩ = some s' ∧ s'.acc = post.foldl finish a₀ ∧
      Postorder succ r post := by
  obtain ⟨s', new, hs, hF, hacc⟩ := visit_forest hU n r ⟨[], a₀⟩ hr
    List.not_mem_nil (Nat.le_trans List.countP_le_length hn)
  have hmem : r ∈ new ++ [r] := by simp
  have hvis : ∀ x, x ∈ s'.visited ↔ x ∈ new ++ [r] := fun x => by
    rw [hF.visited]; simp
  refine ⟨s', new ++ [r], hs, hacc, hF.nodup, fun x => ⟨hF.reachable hmem x, ?_⟩, by simp, ?_⟩
  · rintro ⟨p, hp⟩
    induction hp with
    | start => exact hmem
    | step _ he ih => exact (hvis _).mp (hF.closed _ ih _ he)
  · intro x hx hne
    rcases hF.parent x hx with h | h
    · exact absurd (List.mem_singleton.mp h) hne
    · exact h

end DepthFirst
