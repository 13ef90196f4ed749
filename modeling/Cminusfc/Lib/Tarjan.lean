import Mathlib.Data.Finset.Card
import Mathlib.Data.Int.Order.Basic
import Mathlib.Data.List.Pairwise
import Mathlib.Data.List.TakeWhile
import Mathlib.Logic.Function.Basic
import Mathlib.Logic.Relation
import Cminusfc.Lib.Fallible

/-!
# Strongly connected components

Tarjan's algorithm over successor lists, in its form with marks that are written in place: the index
of a vertex is `-1` until it is visited, `lowlink` is the smallest index seen from it so far, and a
vertex whose two numbers agree at the end takes its component off the stack. Components of one vertex
are thrown away.

* `Inv`: the state between two calls; `path` are the vertices whose visits have not ended.
* `traverse_spec`: one visit, with as much fuel as there are unvisited vertices.
* `components_spec`: the search finds exactly the components with two or more vertices.
-/

namespace Tarjan

variable {V : Type} [DecidableEq V]

/-- What is written on the vertices. -/
structure Marks (V : Type) where
  index : V → Int
  lowlink : V → Int
  onStack : V → Bool

/-- The search: the marks, the next index, the stack with its top first, the components found. -/
structure State (V : Type) extends Marks V where
  count : Int
  stack : List V
  comps : List (List V)

/-- The visit of `n` begins. -/
def State.enter (s : State V) (n : V) : State V :=
  { s with
    index := Function.update s.index n s.count
    lowlink := Function.update s.lowlink n s.count
    onStack := Function.update s.onStack n true
    count := s.count + 1
    stack := n :: s.stack }

/-- Write `lowlink`. -/
def State.setLow (s : State V) (n : V) (l : Int) : State V :=
  { s with lowlink := Function.update s.lowlink n l }

/-- Take the stack down to `n` off, as a component. -/
def State.pop (s : State V) (n : V) : State V :=
  let comp := s.stack.takeWhile (· ≠ n) ++ [n]
  { s with
    onStack := fun x => if x ∈ comp then false else s.onStack x
    stack := (s.stack.dropWhile (· ≠ n)).tail
    comps := if comp.length = 1 then s.comps else s.comps ++ [comp] }

/-- One successor of `n`. -/
def visitEdge (traverse : V → State V → Option (State V)) (n : V) (s : State V) (su : V) :
    Option (State V) :=
  if s.index su = -1 then
    (traverse su s).map fun s => s.setLow n (min (s.lowlink su) (s.lowlink n))
  else if s.onStack su then some (s.setLow n (min (s.index su) (s.lowlink n)))
  else some s

/-- The visit of `n` ends. -/
def State.leave (s : State V) (n : V) : State V :=
  if s.index n = s.lowlink n then s.pop n else s

/-- The visit of `n`; `none` when the fuel, which bounds the depth, runs out. -/
def traverse (succ : V → List V) : Nat → V → State V → Option (State V)
  | 0, _, _ => none
  | fuel + 1, n, s =>
    ((succ n).foldlM (visitEdge (traverse succ fuel) n) (s.enter n)).map (State.leave · n)

/-- The search from every vertex of `nodes` that has not been visited. -/
def components (succ : V → List V) (fuel : Nat) (nodes : List V) (m : Marks V) :
    Option (State V) :=
  nodes.foldlM (fun s n => if s.index n = -1 then traverse succ fuel n s else some s)
    ⟨m, 0, [], []⟩

/-! ## The invariant -/

/-- A path leads from the first vertex to the second. -/
def Reach (succ : V → List V) : V → V → Prop := Relation.ReflTransGen fun a b => b ∈ succ a

/-- Two vertices of one component. -/
def Mutual (succ : V → List V) (x y : V) : Prop := Reach succ x y ∧ Reach succ y x

/-- A component with two or more vertices, without repetition. -/
structure IsComp (succ : V → List V) (c : List V) : Prop where
  two : 2 ≤ c.length
  nodup : c.Nodup
  mem_iff : ∀ x ∈ c, ∀ y, y ∈ c ↔ Mutual succ x y

/-- The state of the search on the vertices `nodes`; the visits of `path` have not ended. -/
structure Inv (succ : V → List V) (nodes path : List V) (s : State V) : Prop where
  count : 0 ≤ s.count
  index : ∀ x ∈ nodes, s.index x = -1 ∨ 0 ≤ s.index x ∧ s.index x < s.count
  stack_mem : ∀ x ∈ s.stack, x ∈ nodes ∧ s.index x ≠ -1
  sorted : s.stack.Pairwise fun x y => s.index y < s.index x
  onStack : ∀ x ∈ nodes, s.onStack x = true ↔ x ∈ s.stack
  path_mem : ∀ x ∈ path, x ∈ s.stack
  /-- The stack can be climbed. -/
  up : ∀ x ∈ s.stack, ∀ y ∈ s.stack, s.index x ≤ s.index y → Reach succ x y
  /-- From every vertex of the stack one comes down to a visit that has not ended. -/
  down : ∀ y ∈ s.stack, ∃ g ∈ path, s.index g ≤ s.index y ∧ Reach succ y g
  closed : ∀ x ∈ nodes, s.index x ≠ -1 → x ∉ path → ∀ y ∈ succ x, s.index y ≠ -1
  popped : ∀ x ∈ nodes, s.index x ≠ -1 → x ∉ s.stack →
    ∀ y ∈ succ x, s.index y ≠ -1 ∧ y ∉ s.stack
  comp : ∀ c ∈ s.comps, IsComp succ c ∧ ∀ x ∈ c, x ∈ nodes ∧ s.index x ≠ -1 ∧ x ∉ s.stack
  disjoint : s.comps.Pairwise List.Disjoint
  complete : ∀ x ∈ nodes, s.index x ≠ -1 → x ∉ s.stack →
    (∀ y, Mutual succ x y → y = x) ∨ ∃ c ∈ s.comps, x ∈ c

variable {succ : V → List V} {nodes path new done : List V} {s s' s₀ : State V} {n su : V} {m : Marks V}

@[simp] theorem State.enter_index_self : (s.enter n).index n = s.count := Function.update_self _ _ _

theorem State.enter_index_of_ne {x : V} (h : x ≠ n) : (s.enter n).index x = s.index x :=
  Function.update_of_ne h _ _

theorem State.mem_enter_stack {x : V} : x ∈ (s.enter n).stack ↔ x = n ∨ x ∈ s.stack :=
  List.mem_cons

/-- What is left to visit. -/
def room (nodes : List V) (s : State V) : Nat := (nodes.toFinset.filter fun x => s.index x = -1).card

theorem room_le (h : ∀ x, s.index x ≠ -1 → s'.index x ≠ -1) : room nodes s' ≤ room nodes s := by
  refine Finset.card_le_card fun x hx => ?_
  rw [Finset.mem_filter] at hx ⊢
  exact ⟨hx.1, by_contra fun hne => h x hne hx.2⟩

theorem room_enter (hn : n ∈ nodes) (hi : s.index n = -1) (hc : 0 ≤ s.count) :
    room nodes (s.enter n) < room nodes s := by
  refine Finset.card_lt_card (Finset.ssubset_iff_of_subset ?_ |>.mpr ⟨n, ?_, ?_⟩)
  · intro x hx
    rw [Finset.mem_filter] at hx ⊢
    refine ⟨hx.1, ?_⟩
    by_cases hxn : x = n
    · rw [hxn, hi]
    · rw [← hx.2, State.enter_index_of_ne hxn]
  · simp [hn, hi]
  · rw [Finset.mem_filter, State.enter_index_self]
    omega

theorem Inv.setLow (h : Inv succ nodes path s) (l : Int) : Inv succ nodes path (s.setLow n l) :=
  ⟨h.count, h.index, h.stack_mem, h.sorted, h.onStack, h.path_mem, h.up, h.down, h.closed, h.popped,
    h.comp, h.disjoint, h.complete⟩

omit [DecidableEq V] in
theorem Inv.stack_nodup (h : Inv succ nodes path s) : s.stack.Nodup :=
  List.nodup_iff_pairwise_ne.mpr (h.sorted.imp fun hlt he => by rw [he] at hlt; omega)

omit [DecidableEq V] in
theorem Inv.start (m : Marks V) (hm : ∀ x ∈ nodes, m.index x = -1 ∧ m.onStack x = false) :
    Inv succ nodes [] ⟨m, 0, [], []⟩ where
  count := Int.le_refl 0
  index x hx := Or.inl (hm x hx).1
  stack_mem x hx := absurd hx List.not_mem_nil
  sorted := List.Pairwise.nil
  onStack x hx := by simp [(hm x hx).2]
  path_mem x hx := absurd hx List.not_mem_nil
  up x hx := absurd hx List.not_mem_nil
  down y hy := absurd hy List.not_mem_nil
  closed x hx hi := absurd (hm x hx).1 hi
  popped x hx hi := absurd (hm x hx).1 hi
  comp c hc := absurd hc List.not_mem_nil
  disjoint := List.Pairwise.nil
  complete x hx hi := absurd (hm x hx).1 hi

/-- The visit of `n` begins, at the end of a path. -/
theorem Inv.enter (h : Inv succ nodes path s) (hn : n ∈ nodes) (hi : s.index n = -1)
    (hpath : ∀ g ∈ path, Reach succ g n) : Inv succ nodes (n :: path) (s.enter n) := by
  have hne : ∀ x, s.index x ≠ -1 → x ≠ n := fun x hx he => hx (he ▸ hi)
  have hold : ∀ x, s.index x ≠ -1 → (s.enter n).index x = s.index x := fun x hx =>
    State.enter_index_of_ne (hne x hx)
  have hself : (s.enter n).index n = s.count := State.enter_index_self
  have hstack : ∀ x, x ∈ (s.enter n).stack ↔ x = n ∨ x ∈ s.stack := fun x => State.mem_enter_stack
  have hvis : ∀ x, s.index x ≠ -1 → (s.enter n).index x ≠ -1 := fun x hx => by rwa [hold x hx]
  have hback : ∀ x, (s.enter n).index x ≠ -1 → x ≠ n → s.index x ≠ -1 := fun x hx hxn => by
    rwa [State.enter_index_of_ne hxn] at hx
  have hlt : ∀ x ∈ s.stack, s.index x < s.count := fun x hx =>
    ((h.index x (h.stack_mem x hx).1).resolve_left (h.stack_mem x hx).2).2
  have hc := h.count
  refine ⟨?_, fun x hx => ?_, fun x hx => ?_, ?_, fun x hx => ?_, fun x hx => ?_,
    fun x hx y hy hxy => ?_, fun y hy => ?_, fun x hx hxi hxp y hy => ?_,
    fun x hx hxi hxs y hy => ?_, fun c hcm => ?_, h.disjoint, fun x hx hxi hxs => ?_⟩
  · show 0 ≤ s.count + 1
    omega
  · show _ ∨ _ ∧ _ < s.count + 1
    by_cases hxn : x = n
    · rw [hxn, hself]
      exact Or.inr ⟨hc, by omega⟩
    · rw [State.enter_index_of_ne hxn]
      exact (h.index x hx).imp id fun hx => ⟨hx.1, by omega⟩
  · rcases (hstack x).mp hx with rfl | hx
    · exact ⟨hn, by rw [hself]; omega⟩
    · exact ⟨(h.stack_mem x hx).1, hvis x (h.stack_mem x hx).2⟩
  · refine List.pairwise_cons.mpr ⟨fun x hx => ?_, h.sorted.imp_of_mem fun ha hb hab => ?_⟩
    · rw [hself, hold x (h.stack_mem x hx).2]
      exact hlt x hx
    · rwa [hold _ (h.stack_mem _ ha).2, hold _ (h.stack_mem _ hb).2]
  · rw [hstack]
    by_cases hxn : x = n
    · simp [State.enter, hxn]
    · simp only [State.enter, Function.update_of_ne hxn, hxn, false_or]
      exact h.onStack x hx
  · rcases List.mem_cons.mp hx with rfl | hx
    · exact (hstack x).mpr (Or.inl rfl)
    · exact (hstack x).mpr (Or.inr (h.path_mem x hx))
  · rcases (hstack x).mp hx with rfl | hx
    · rcases (hstack y).mp hy with rfl | hy
      · exact Relation.ReflTransGen.refl
      · rw [hself, hold y (h.stack_mem y hy).2] at hxy
        have := hlt y hy
        omega
    · rcases (hstack y).mp hy with heq | hy
      · obtain ⟨g, hg, -, hr⟩ := h.down x hx
        rw [heq]
        exact hr.trans (hpath g hg)
      · rw [hold x (h.stack_mem x hx).2, hold y (h.stack_mem y hy).2] at hxy
        exact h.up x hx y hy hxy
  · rcases (hstack y).mp hy with rfl | hy
    · exact ⟨y, List.mem_cons_self, Int.le_refl _, Relation.ReflTransGen.refl⟩
    · obtain ⟨g, hg, hle, hr⟩ := h.down y hy
      refine ⟨g, List.mem_cons_of_mem _ hg, ?_, hr⟩
      rwa [hold g (h.stack_mem g (h.path_mem g hg)).2, hold y (h.stack_mem y hy).2]
  · rw [List.mem_cons, not_or] at hxp
    exact hvis y (h.closed x hx (hback x hxi hxp.1) hxp.2 y hy)
  · rw [hstack, not_or] at hxs
    obtain ⟨hy₁, hy₂⟩ := h.popped x hx (hback x hxi hxs.1) hxs.2 y hy
    refine ⟨hvis y hy₁, ?_⟩
    rw [hstack, not_or]
    exact ⟨hne y hy₁, hy₂⟩
  · obtain ⟨hcomp, hmem⟩ := h.comp c hcm
    refine ⟨hcomp, fun x hx => ?_⟩
    obtain ⟨h₁, h₂, h₃⟩ := hmem x hx
    refine ⟨h₁, hvis x h₂, ?_⟩
    rw [hstack, not_or]
    exact ⟨hne x h₂, h₃⟩
  · rw [hstack, not_or] at hxs
    exact h.complete x hx (hback x hxi hxs.1) hxs.2

/-! ## One visit -/

/-- The visit of `n`, begun in `s₀`, has gone through the successors `done`; `new` has come onto the
stack above `n`. -/
structure Loop (succ : V → List V) (nodes path : List V) (s₀ : State V) (n : V) (done : List V)
    (s : State V) (new : List V) : Prop where
  inv : Inv succ nodes (n :: path) s
  stack : s.stack = new ++ n :: s₀.stack
  kept : ∀ x, s₀.index x ≠ -1 → s.index x = s₀.index x ∧ s.lowlink x = s₀.lowlink x
  index : s.index n = s₀.count
  count : s₀.count < s.count
  low_le : s.lowlink n ≤ s₀.count
  low : ∃ y ∈ s.stack, s.index y = s.lowlink n ∧ Reach succ n y
  cross : ∀ z ∈ new, ∀ y ∈ succ z, y ∈ n :: s₀.stack → s.lowlink n ≤ s.index y
  seen : ∀ y ∈ done, s.index y ≠ -1 ∧ (y ∈ s.stack → s.lowlink n ≤ s.index y)

/-- The visit of `n`, begun in `s₀`, has ended in `s`: `new` stays on the stack, and either nothing
does or the lowlink of `n` is the index of a vertex of the stack. -/
structure Visited (succ : V → List V) (nodes path : List V) (s₀ : State V) (n : V) (s : State V)
    (new : List V) : Prop where
  inv : Inv succ nodes path s
  stack : s.stack = new ++ s₀.stack
  kept : ∀ x, s₀.index x ≠ -1 → s.index x = s₀.index x ∧ s.lowlink x = s₀.lowlink x
  index : s.index n = s₀.count
  count : s₀.count < s.count
  fresh : ∀ z ∈ new, s₀.count ≤ s.index z
  low_le : s.lowlink n ≤ s₀.count
  low : (new = [] ∧ s.lowlink n = s₀.count) ∨
    ∃ y ∈ s.stack, s.index y = s.lowlink n ∧ Reach succ n y
  cross : ∀ z ∈ new, ∀ y ∈ succ z, y ∈ s₀.stack → s.lowlink n ≤ s.index y

theorem Loop.start (h : Inv succ nodes path s₀) (hn : n ∈ nodes) (hi : s₀.index n = -1)
    (hpath : ∀ g ∈ path, Reach succ g n) : Loop succ nodes path s₀ n [] (s₀.enter n) [] where
  inv := h.enter hn hi hpath
  stack := rfl
  kept x hx := by
    have hne : x ≠ n := fun he => hx (he ▸ hi)
    exact ⟨State.enter_index_of_ne hne, Function.update_of_ne hne _ _⟩
  index := State.enter_index_self
  count := by
    show s₀.count < s₀.count + 1
    omega
  low_le := by simp [State.enter]
  low := ⟨n, State.mem_enter_stack.mpr (Or.inl rfl), by simp [State.enter], Relation.ReflTransGen.refl⟩
  cross z hz := absurd hz List.not_mem_nil
  seen y hy := absurd hy List.not_mem_nil

/-- A smaller lowlink, when it is attained. -/
theorem Loop.setLow (h : Loop succ nodes path s₀ n done s new) (hn : s₀.index n = -1) {l : Int}
    (hl : ∃ y ∈ s.stack, s.index y = l ∧ Reach succ n y) :
    Loop succ nodes path s₀ n done (s.setLow n (min l (s.lowlink n))) new := by
  have hlow : (s.setLow n (min l (s.lowlink n))).lowlink n = min l (s.lowlink n) :=
    Function.update_self _ _ _
  have hle := h.low_le
  refine ⟨h.inv.setLow _, h.stack, fun x hx => ?_, h.index, h.count, ?_, ?_, fun z hz y hy hys => ?_,
    fun y hy => ⟨(h.seen y hy).1, fun hys => ?_⟩⟩
  · have hne : x ≠ n := fun he => hx (he ▸ hn)
    exact ⟨(h.kept x hx).1, (Function.update_of_ne hne _ _).trans (h.kept x hx).2⟩
  · rw [hlow]
    omega
  · rw [hlow]
    rcases min_choice l (s.lowlink n) with hm | hm <;> rw [hm]
    · exact hl
    · exact h.low
  · have := h.cross z hz y hy hys
    rw [hlow]
    show _ ≤ s.index y
    omega
  · have := (h.seen y hy).2 hys
    rw [hlow]
    show _ ≤ s.index y
    omega

/-- `rec` visits a vertex at the end of any path, when at most `fuel` vertices are unvisited. -/
def Visits (succ : V → List V) (nodes : List V) (fuel : Nat) (rec : V → State V → Option (State V)) :
    Prop :=
  ∀ (n : V) (s : State V) (path : List V), n ∈ nodes → s.index n = -1 → Inv succ nodes path s →
    (∀ g ∈ path, Reach succ g n) → room nodes s ≤ fuel →
    ∃ s' new, rec n s = some s' ∧ Visited succ nodes path s n s' new

/-- A successor that has not been visited. -/
theorem Loop.visit (h : Loop succ nodes path s₀ n done s new) (hn : s₀.index n = -1)
    {new₁ : List V} (hv : Visited succ nodes (n :: path) s su s' new₁) (hsu : su ∈ succ n) :
    Loop succ nodes path s₀ n (done ++ [su]) (s'.setLow n (min (s'.lowlink su) (s'.lowlink n)))
      (new₁ ++ new) := by
  have hnvis : s.index n ≠ -1 := (h.inv.stack_mem n (by rw [h.stack]; simp)).2
  have hlown : s'.lowlink n = s.lowlink n := (hv.kept n hnvis).2
  have hlow : (s'.setLow n (min (s'.lowlink su) (s'.lowlink n))).lowlink n =
      min (s'.lowlink su) (s.lowlink n) := by
    rw [← hlown]
    exact Function.update_self _ _ _
  have hkept : ∀ y ∈ s.stack, s'.index y = s.index y := fun y hy =>
    (hv.kept y (h.inv.stack_mem y hy).2).1
  have hbelow : ∀ y ∈ n :: s₀.stack, y ∈ s.stack := fun y hy => by
    rw [h.stack]
    exact List.mem_append_right _ hy
  have hle := h.low_le
  have hcount := h.count
  have hcount' := hv.count
  have hlsu := hv.low_le
  have hpos := h.inv.count
  refine ⟨hv.inv.setLow _, ?_, fun x hx => ?_, ?_, ?_, ?_, ?_, fun z hz y hy hys => ?_,
    fun y hy => ?_⟩
  · show s'.stack = _
    rw [hv.stack, h.stack, List.append_assoc]
  · have hne : x ≠ n := fun he => hx (he ▸ hn)
    obtain ⟨h₁, h₂⟩ := h.kept x hx
    obtain ⟨h₃, h₄⟩ := hv.kept x (by rwa [h₁])
    exact ⟨h₃.trans h₁, (Function.update_of_ne hne _ _).trans (h₄.trans h₂)⟩
  · exact (hv.kept n hnvis).1.trans h.index
  · show s₀.count < s'.count
    omega
  · rw [hlow]
    omega
  · rw [hlow]
    obtain ⟨y, hy, hyl, hr⟩ := h.low
    have hold : ∃ y ∈ s'.stack, s'.index y = s.lowlink n ∧ Reach succ n y :=
      ⟨y, by rw [hv.stack]; exact List.mem_append_right _ hy, (hkept y hy).trans hyl, hr⟩
    show ∃ y ∈ s'.stack, s'.index y = min (s'.lowlink su) (s.lowlink n) ∧ Reach succ n y
    rcases hv.low with ⟨-, hl⟩ | ⟨y', hy', hyl', hr'⟩
    · rw [min_eq_right (by omega)]
      exact hold
    · rcases min_choice (s'.lowlink su) (s.lowlink n) with hm | hm <;> rw [hm]
      · exact ⟨y', hy', hyl', Relation.ReflTransGen.head hsu hr'⟩
      · exact hold
  · rw [hlow]
    show _ ≤ s'.index y
    rcases List.mem_append.mp hz with hz | hz
    · have := hv.cross z hz y hy (hbelow y hys)
      omega
    · have := h.cross z hz y hy hys
      rw [hkept y (hbelow y hys)]
      omega
  · rw [hlow]
    show s'.index y ≠ -1 ∧ (y ∈ s'.stack → _ ≤ s'.index y)
    rcases List.mem_append.mp hy with hy | hy
    · obtain ⟨hyi, hyl⟩ := h.seen y hy
      have hyk := (hv.kept y hyi).1
      refine ⟨by rwa [hyk], fun hys => ?_⟩
      have hynodes := (hv.inv.stack_mem y hys).1
      rw [hv.stack] at hys
      rcases List.mem_append.mp hys with hys | hys
      · have h₁ := hv.fresh y hys
        have h₂ := ((h.inv.index y hynodes).resolve_left hyi).2
        omega
      · have := hyl hys
        omega
    · rw [List.mem_singleton.mp hy, hv.index]
      exact ⟨by omega, fun _ => by omega⟩

/-- One successor. -/
theorem Loop.visitEdge {fuel : Nat} {rec : V → State V → Option (State V)}
    (hrec : Visits succ nodes fuel rec) (h : Loop succ nodes path s₀ n done s new)
    (hn : s₀.index n = -1) (hpath : ∀ g ∈ path, Reach succ g n) (hsu : su ∈ succ n)
    (hnodes : su ∈ nodes) (hroom : room nodes s ≤ fuel) :
    ∃ s' new', visitEdge rec n s su = some s' ∧ Loop succ nodes path s₀ n (done ++ [su]) s' new' ∧
      room nodes s' ≤ fuel := by
  have hpath' : ∀ g ∈ n :: path, Reach succ g su := by
    intro g hg
    rcases List.mem_cons.mp hg with rfl | hg
    · exact Relation.ReflTransGen.single hsu
    · exact (hpath g hg).tail hsu
  unfold Tarjan.visitEdge
  split
  · rename_i hi
    obtain ⟨s', new', hrun, hv⟩ := hrec su s (n :: path) hnodes hi h.inv hpath' hroom
    refine ⟨_, _, by rw [hrun]; rfl, h.visit hn hv hsu, ?_⟩
    exact Nat.le_trans (room_le fun x hx => (hv.kept x hx).1.symm ▸ hx) hroom
  · rename_i hi
    split
    · rename_i hon
      have hmem := (h.inv.onStack su hnodes).mp hon
      have hl := h.setLow hn ⟨su, hmem, rfl, Relation.ReflTransGen.single hsu⟩
      refine ⟨_, _, rfl, ⟨hl.inv, hl.stack, hl.kept, hl.index, hl.count, hl.low_le, hl.low, hl.cross,
        fun y hy => ?_⟩, hroom⟩
      rcases List.mem_append.mp hy with hy | hy
      · exact hl.seen y hy
      · rw [List.mem_singleton.mp hy]
        refine ⟨hi, fun _ => ?_⟩
        show Function.update s.lowlink n _ n ≤ s.index su
        rw [Function.update_self]
        exact min_le_left _ _
    · rename_i hon
      refine ⟨_, _, rfl, ⟨h.inv, h.stack, h.kept, h.index, h.count, h.low_le, h.low, h.cross,
        fun y hy => ?_⟩, hroom⟩
      rcases List.mem_append.mp hy with hy | hy
      · exact h.seen y hy
      · rw [List.mem_singleton.mp hy]
        exact ⟨hi, fun hys => absurd ((h.inv.onStack su hnodes).mpr hys) hon⟩

/-- All successors. -/
theorem Loop.foldlM {fuel : Nat} {rec : V → State V → Option (State V)}
    (hrec : Visits succ nodes fuel rec) (hn : s₀.index n = -1) (hpath : ∀ g ∈ path, Reach succ g n)
    (l : List V) (hl : ∀ su ∈ l, su ∈ succ n ∧ su ∈ nodes)
    (h : Loop succ nodes path s₀ n done s new) (hroom : room nodes s ≤ fuel) :
    ∃ s' new', l.foldlM (Tarjan.visitEdge rec n) s = some s' ∧
      Loop succ nodes path s₀ n (done ++ l) s' new' := by
  induction l generalizing done s new with
  | nil => exact ⟨s, new, rfl, by rwa [List.append_nil]⟩
  | cons su l ih =>
    obtain ⟨hsu, hnodes⟩ := hl su List.mem_cons_self
    obtain ⟨s₁, new₁, h₁, hloop, hroom₁⟩ := h.visitEdge hrec hn hpath hsu hnodes hroom
    obtain ⟨s₂, new₂, h₂, hloop₂⟩ := ih (fun x hx => hl x (List.mem_cons_of_mem _ hx)) hloop hroom₁
    refine ⟨s₂, new₂, ?_, by rwa [List.append_assoc] at hloop₂⟩
    rw [List.foldlM_cons, h₁]
    exact h₂

/-- The visit ends and `n` stays on the stack. -/
theorem Loop.stay (h : Loop succ nodes path s₀ n (succ n) s new) (hne : s.index n ≠ s.lowlink n) :
    Visited succ nodes path s₀ n s (new ++ [n]) := by
  have hlt : s.lowlink n < s.index n := by
    have := h.low_le
    rw [← h.index] at this
    omega
  have hnstack : n ∈ s.stack := by rw [h.stack]; simp
  have hcount := h.count
  have hnew : ∀ z ∈ new, s₀.count < s.index z := by
    intro z hz
    have hs := h.inv.sorted
    rw [h.stack] at hs
    have := (List.pairwise_append.mp hs).2.2 z hz n List.mem_cons_self
    rwa [h.index] at this
  refine ⟨⟨h.inv.count, h.inv.index, h.inv.stack_mem, h.inv.sorted, h.inv.onStack,
      fun x hx => h.inv.path_mem x (List.mem_cons_of_mem _ hx), h.inv.up, fun y hy => ?_,
      fun x hx hxi hxp y hy => ?_, h.inv.popped, h.inv.comp, h.inv.disjoint, h.inv.complete⟩,
    ?_, h.kept, h.index, h.count, fun z hz => ?_, h.low_le, Or.inr h.low, fun z hz y hy hys => ?_⟩
  · obtain ⟨g, hg, hle, hr⟩ := h.inv.down y hy
    rcases List.mem_cons.mp hg with rfl | hg
    · -- `g` has come below itself, and from there to a visit that began earlier
      obtain ⟨w, hw, hwl, hrw⟩ := h.low
      obtain ⟨g', hg', hle', hr'⟩ := h.inv.down w hw
      rcases List.mem_cons.mp hg' with rfl | hg'
      · omega
      · exact ⟨g', hg', by omega, hr.trans (hrw.trans hr')⟩
    · exact ⟨g, hg, hle, hr⟩
  · by_cases hxn : x = n
    · exact (h.seen y (hxn ▸ hy)).1
    · exact h.inv.closed x hx hxi (fun hx' => (List.mem_cons.mp hx').elim hxn hxp) y hy
  · rw [h.stack]
    simp
  · rcases List.mem_append.mp hz with hz | hz
    · exact Int.le_of_lt (hnew z hz)
    · rw [List.mem_singleton.mp hz, h.index]
  · rcases List.mem_append.mp hz with hz | hz
    · exact h.cross z hz y hy (List.mem_cons_of_mem _ hys)
    · rw [List.mem_singleton.mp hz] at hy
      exact (h.seen y hy).2 (by rw [h.stack]; simp [hys])

/-- What a pop leaves on the stack. -/
theorem Loop.split (h : Loop succ nodes path s₀ n done s new) :
    s.stack.takeWhile (· ≠ n) ++ [n] = new ++ [n] ∧ (s.stack.dropWhile (· ≠ n)).tail = s₀.stack := by
  have hnd := h.inv.stack_nodup
  rw [h.stack] at hnd ⊢
  have hnew : ∀ z ∈ new, decide (z ≠ n) = true := by
    intro z hz
    have := (List.nodup_append.mp hnd).2.2 z hz n List.mem_cons_self
    simpa using this
  rw [List.takeWhile_append_of_pos hnew, List.dropWhile_append_of_pos hnew]
  simp

/-- The component on top of the stack. -/
theorem Loop.mutual_iff (h : Loop succ nodes path s₀ n (succ n) s new)
    (hpath : ∀ g ∈ path, Reach succ g n) (hclosed : ∀ x ∈ nodes, ∀ y ∈ succ x, y ∈ nodes)
    (hpathmem : ∀ x ∈ path, x ∈ s₀.stack) (heq : s.index n = s.lowlink n) :
    (∀ x ∈ new ++ [n], ∀ y ∈ succ x, s.index y ≠ -1 ∧ y ∉ s₀.stack) ∧
      ∀ x ∈ new ++ [n], ∀ y, y ∈ new ++ [n] ↔ Mutual succ x y := by
  have hmem : ∀ x, x ∈ s.stack ↔ x ∈ new ++ [n] ∨ x ∈ s₀.stack := fun x => by
    rw [h.stack, ← List.mem_append]
    simp
  have hnstack : n ∈ s.stack := (hmem n).mpr (Or.inl (by simp))
  have hsorted := h.inv.sorted
  rw [h.stack, List.append_cons] at hsorted
  obtain ⟨htop, -, hbelow⟩ := List.pairwise_append.mp hsorted
  have hge : ∀ x ∈ new ++ [n], s.index n ≤ s.index x := by
    intro x hx
    rcases List.mem_append.mp hx with hx | hx
    · exact Int.le_of_lt ((List.pairwise_append.mp htop).2.2 x hx n List.mem_cons_self)
    · rw [List.mem_singleton.mp hx]
  have hlt : ∀ y ∈ s₀.stack, s.index y < s.index n := fun y hy => hbelow n (by simp) y hy
  have hdisj : ∀ x ∈ new ++ [n], x ∉ s₀.stack := fun x hx hx' => by
    have h₁ := hge x hx
    have h₂ := hlt x hx'
    omega
  -- no edge leads from the component to the rest of the stack
  have hout : ∀ x ∈ new ++ [n], ∀ y ∈ succ x, s.index y ≠ -1 ∧ y ∉ s₀.stack := by
    intro x hx y hy
    have hxs := (hmem x).mpr (Or.inl hx)
    obtain ⟨hxn, hxi⟩ := h.inv.stack_mem x hxs
    rcases List.mem_append.mp hx with hx' | hx'
    · have hxp : x ∉ n :: path := by
        intro hxp
        rcases List.mem_cons.mp hxp with rfl | hxp
        · have := List.nodup_append.mp (h.stack ▸ h.inv.stack_nodup)
          exact this.2.2 x hx' x List.mem_cons_self rfl
        · exact hdisj x hx (hpathmem x hxp)
      refine ⟨h.inv.closed x hxn hxi hxp y hy, fun hys => ?_⟩
      have h₁ := h.cross x hx' y hy (List.mem_cons_of_mem _ hys)
      have h₂ := hlt y hys
      omega
    · rw [List.mem_singleton.mp hx'] at hy
      refine ⟨(h.seen y hy).1, fun hys => ?_⟩
      have h₁ := (h.seen y hy).2 ((hmem y).mpr (Or.inr hys))
      have h₂ := hlt y hys
      omega
  refine ⟨hout, fun x hx y => ⟨fun hy => ?_, fun hm => ?_⟩⟩
  · have hto : ∀ z ∈ new ++ [n], Reach succ z n ∧ Reach succ n z := by
      intro z hz
      have hzs := (hmem z).mpr (Or.inl hz)
      refine ⟨?_, h.inv.up n hnstack z hzs (hge z hz)⟩
      obtain ⟨g, hg, -, hr⟩ := h.inv.down z hzs
      rcases List.mem_cons.mp hg with rfl | hg
      · exact hr
      · exact hr.trans (hpath g hg)
    exact ⟨(hto x hx).1.trans (hto y hy).2, (hto y hy).1.trans (hto x hx).2⟩
  · -- what is reached from the component is in it or has been popped, and leads on to such vertices
    have hstays : ∀ z, Reach succ x z → z ∈ nodes ∧ s.index z ≠ -1 ∧ z ∉ s₀.stack := by
      intro z hz
      induction hz with
      | refl =>
        obtain ⟨h₁, h₂⟩ := h.inv.stack_mem x ((hmem x).mpr (Or.inl hx))
        exact ⟨h₁, h₂, hdisj x hx⟩
      | @tail w z _ he ih =>
        obtain ⟨h₁, h₂, h₃⟩ := ih
        refine ⟨hclosed w h₁ z he, ?_⟩
        by_cases hw : w ∈ new ++ [n]
        · exact hout w hw z he
        · have hws : w ∉ s.stack := fun hws => ((hmem w).mp hws).elim hw h₃
          obtain ⟨h₄, h₅⟩ := h.inv.popped w h₁ h₂ hws z he
          exact ⟨h₄, fun hz => h₅ ((hmem z).mpr (Or.inr hz))⟩
    obtain ⟨h₁, h₂, h₃⟩ := hstays y hm.1
    by_contra hy
    have hys : y ∉ s.stack := fun hys => ((hmem y).mp hys).elim hy h₃
    have hpop : ∀ z, Reach succ y z → z ∈ nodes ∧ s.index z ≠ -1 ∧ z ∉ s.stack := by
      intro z hz
      induction hz with
      | refl => exact ⟨h₁, h₂, hys⟩
      | @tail w z _ he ih =>
        obtain ⟨h₄, h₅, h₆⟩ := ih
        exact ⟨hclosed w h₄ z he, h.inv.popped w h₄ h₅ h₆ z he⟩
    exact (hpop x hm.2).2.2 ((hmem x).mpr (Or.inl hx))

/-- The visit ends and its component is taken off. -/
theorem Loop.pop (h : Loop succ nodes path s₀ n (succ n) s new) (h₀ : Inv succ nodes path s₀)
    (hpath : ∀ g ∈ path, Reach succ g n) (hclosed : ∀ x ∈ nodes, ∀ y ∈ succ x, y ∈ nodes)
    (heq : s.index n = s.lowlink n) : Visited succ nodes path s₀ n (s.pop n) [] := by
  obtain ⟨hout, hmutual⟩ := h.mutual_iff hpath hclosed h₀.path_mem heq
  obtain ⟨htake, hdrop⟩ := h.split
  have hmem : ∀ x, x ∈ s.stack ↔ x ∈ new ++ [n] ∨ x ∈ s₀.stack := fun x => by
    rw [h.stack, ← List.mem_append]
    simp
  have hnd := h.inv.stack_nodup
  rw [h.stack, List.append_cons] at hnd
  obtain ⟨hcnd, -, hdisj⟩ := List.nodup_append.mp hnd
  have hnot : ∀ x ∈ new ++ [n], x ∉ s₀.stack := fun x hx hx' => hdisj x hx x hx' rfl
  have hsorted := h.inv.sorted
  rw [h.stack, List.append_cons] at hsorted
  obtain ⟨-, hsorted₀, hbelow⟩ := List.pairwise_append.mp hsorted
  generalize hc : new ++ [n] = c at *
  have hnc : n ∈ c := by rw [← hc]; simp
  have hstack : (s.pop n).stack = s₀.stack := hdrop
  have hon : ∀ x, (s.pop n).onStack x = if x ∈ c then false else s.onStack x := fun x => by
    rw [← htake]
    rfl
  have hcomps : (s.pop n).comps = if c.length = 1 then s.comps else s.comps ++ [c] := by
    rw [← htake]
    rfl
  have hold : ∀ x, x ∉ s.stack → x ∉ s₀.stack := fun x hx hx' => hx ((hmem x).mpr (Or.inr hx'))
  have hlow := h.low_le
  refine ⟨⟨h.inv.count, h.inv.index, fun x hx => ?_, ?_, fun x hx => ?_, fun x hx => ?_,
      fun x hx y hy hxy => ?_, fun y hy => ?_, fun x hx hxi hxp y hy => ?_,
      fun x hx hxi hxs y hy => ?_, fun d hd => ?_, ?_, fun x hx hxi hxs => ?_⟩,
    hstack, h.kept, h.index, h.count, fun z hz => absurd hz List.not_mem_nil, hlow,
    Or.inl ⟨rfl, ?_⟩, fun z hz => absurd hz List.not_mem_nil⟩
  · rw [hstack] at hx
    exact h.inv.stack_mem x ((hmem x).mpr (Or.inr hx))
  · rw [hstack]
    exact hsorted₀
  · rw [hon, hstack]
    by_cases hxc : x ∈ c
    · simp [hxc, hnot x hxc]
    · rw [if_neg hxc, h.inv.onStack x hx, hmem]
      simp [hxc]
  · rw [hstack]
    exact h₀.path_mem x hx
  · rw [hstack] at hx hy
    exact h.inv.up x ((hmem x).mpr (Or.inr hx)) y ((hmem y).mpr (Or.inr hy)) hxy
  · rw [hstack] at hy
    obtain ⟨g, hg, hle, hr⟩ := h.inv.down y ((hmem y).mpr (Or.inr hy))
    rcases List.mem_cons.mp hg with rfl | hg
    · have := hbelow g hnc y hy
      omega
    · exact ⟨g, hg, hle, hr⟩
  · by_cases hxn : x = n
    · exact (h.seen y (hxn ▸ hy)).1
    · exact h.inv.closed x hx hxi (fun hx' => (List.mem_cons.mp hx').elim hxn hxp) y hy
  · rw [hstack] at hxs ⊢
    by_cases hxc : x ∈ c
    · exact hout x hxc y hy
    · obtain ⟨h₁, h₂⟩ := h.inv.popped x hx hxi (fun hx' => ((hmem x).mp hx').elim hxc hxs) y hy
      exact ⟨h₁, hold y h₂⟩
  · have hcase : d ∈ s.comps ∨ c.length ≠ 1 ∧ d = c := by
      rw [hcomps] at hd
      split at hd
      · exact Or.inl hd
      · rename_i hlen
        exact (List.mem_append.mp hd).imp_right fun hd => ⟨hlen, List.mem_singleton.mp hd⟩
    rw [hstack]
    rcases hcase with hd | ⟨hlen, rfl⟩
    · obtain ⟨hcomp, hd⟩ := h.inv.comp d hd
      exact ⟨hcomp, fun x hx => ⟨(hd x hx).1, (hd x hx).2.1, hold x (hd x hx).2.2⟩⟩
    · have hpos := List.length_pos_of_mem hnc
      refine ⟨⟨by omega, hcnd, hmutual⟩, fun x hx => ?_⟩
      obtain ⟨h₁, h₂⟩ := h.inv.stack_mem x ((hmem x).mpr (Or.inl hx))
      exact ⟨h₁, h₂, hnot x hx⟩
  · rw [hcomps]
    split
    · exact h.inv.disjoint
    · refine List.pairwise_append.mpr ⟨h.inv.disjoint, List.pairwise_singleton _ _, fun d hd e he => ?_⟩
      rw [List.mem_singleton.mp he]
      exact fun x hx hxc => ((h.inv.comp d hd).2 x hx).2.2 ((hmem x).mpr (Or.inl hxc))
  · rw [hstack] at hxs
    rw [hcomps]
    by_cases hxc : x ∈ c
    · split
      · rename_i hlen
        obtain ⟨z, hz⟩ := List.length_eq_one_iff.mp hlen
        refine Or.inl fun y hy => ?_
        have hyc := (hmutual x hxc y).mpr hy
        rw [hz] at hxc hyc
        rw [List.mem_singleton.mp hyc, List.mem_singleton.mp hxc]
      · exact Or.inr ⟨c, by simp, hxc⟩
    · refine (h.inv.complete x hx hxi fun hx' => ((hmem x).mp hx').elim hxc hxs).imp_right ?_
      rintro ⟨d, hd, hxd⟩
      refine ⟨d, ?_, hxd⟩
      split
      · exact hd
      · exact List.mem_append_left _ hd
  · show s.lowlink n = s₀.count
    rw [← heq, h.index]

/-- **One visit**, with as much fuel as there are unvisited vertices. -/
theorem traverse_spec (hclosed : ∀ x ∈ nodes, ∀ y ∈ succ x, y ∈ nodes) (fuel : Nat) :
    Visits succ nodes fuel (traverse succ fuel) := by
  induction fuel with
  | zero =>
    intro n s path hn hi _ _ hroom
    have : n ∈ nodes.toFinset.filter fun x => s.index x = -1 := by simp [hn, hi]
    rw [Finset.card_eq_zero.mp (Nat.le_zero.mp hroom)] at this
    exact absurd this (Finset.notMem_empty n)
  | succ fuel ih =>
    intro n s path hn hi h hpath hroom
    obtain ⟨s', new, hrun, hloop⟩ := (Loop.start h hn hi hpath).foldlM ih hi hpath (succ n)
      (fun su hsu => ⟨hsu, hclosed n hn su hsu⟩)
      (Nat.le_of_lt_succ (Nat.lt_of_lt_of_le (room_enter hn hi h.count) hroom))
    rw [List.nil_append] at hloop
    unfold traverse
    rw [hrun]
    by_cases heq : s'.index n = s'.lowlink n
    · refine ⟨s'.leave n, [], rfl, ?_⟩
      rw [State.leave, if_pos heq]
      exact hloop.pop h hpath hclosed heq
    · refine ⟨s'.leave n, new ++ [n], rfl, ?_⟩
      rw [State.leave, if_neg heq]
      exact hloop.stay heq

omit [DecidableEq V] in
theorem Inv.stack_nil (h : Inv succ nodes [] s) : s.stack = [] := by
  refine List.eq_nil_iff_forall_not_mem.mpr fun x hx => ?_
  obtain ⟨g, hg, -⟩ := h.down x hx
  exact List.not_mem_nil hg

/-- The search ends with every vertex visited and no visit under way. -/
theorem components_inv (hclosed : ∀ x ∈ nodes, ∀ y ∈ succ x, y ∈ nodes) {fuel : Nat}
    (hfuel : nodes.length ≤ fuel) (hm : ∀ x ∈ nodes, m.index x = -1 ∧ m.onStack x = false)
    {order : List V} (horder : ∀ x, x ∈ order ↔ x ∈ nodes) :
    ∃ s, components succ fuel order m = some s ∧ Inv succ nodes [] s ∧
      ∀ x ∈ nodes, s.index x ≠ -1 := by
  have hroom : ∀ s : State V, room nodes s ≤ fuel := fun s =>
    Nat.le_trans (Finset.card_filter_le _ _) (Nat.le_trans (List.toFinset_card_le _) hfuel)
  have hgen : ∀ (l : List V) (s : State V), (∀ x ∈ l, x ∈ nodes) → Inv succ nodes [] s →
      ∃ s', l.foldlM (fun s n => if s.index n = -1 then traverse succ fuel n s else some s) s =
        some s' ∧ Inv succ nodes [] s' ∧ (∀ x, s.index x ≠ -1 → s'.index x ≠ -1) ∧
          ∀ x ∈ l, s'.index x ≠ -1 := by
    intro l
    induction l with
    | nil => exact fun s _ h => ⟨s, rfl, h, fun _ => id, fun x hx => absurd hx List.not_mem_nil⟩
    | cons n l ih =>
      intro s hl h
      have hstep : ∃ s₁, (if s.index n = -1 then traverse succ fuel n s else some s) = some s₁ ∧
          Inv succ nodes [] s₁ ∧ (∀ x, s.index x ≠ -1 → s₁.index x ≠ -1) ∧ s₁.index n ≠ -1 := by
        split
        · rename_i hi
          obtain ⟨s₁, new, hrun, hv⟩ := traverse_spec hclosed fuel n s [] (hl n List.mem_cons_self) hi
            h (fun g hg => absurd hg List.not_mem_nil) (hroom s)
          have hc := h.count
          exact ⟨s₁, hrun, hv.inv, fun x hx => (hv.kept x hx).1.symm ▸ hx, by rw [hv.index]; omega⟩
        · rename_i hi
          exact ⟨s, rfl, h, fun _ => id, hi⟩
      obtain ⟨s₁, h₁, hinv, hmono, hn⟩ := hstep
      obtain ⟨s₂, h₂, hinv₂, hmono₂, hl₂⟩ := ih s₁ (fun x hx => hl x (List.mem_cons_of_mem _ hx)) hinv
      refine ⟨s₂, by rw [List.foldlM_cons, h₁]; exact h₂, hinv₂, fun x hx => hmono₂ x (hmono x hx),
        fun x hx => ?_⟩
      rcases List.mem_cons.mp hx with rfl | hx
      · exact hmono₂ x hn
      · exact hl₂ x hx
  obtain ⟨s, hrun, hinv, -, hall⟩ := hgen order ⟨m, 0, [], []⟩ (fun x hx => (horder x).mp hx)
    (Inv.start m hm)
  exact ⟨s, hrun, hinv, fun x hx => hall x ((horder x).mpr hx)⟩

/-- **The search finds the components.** -/
theorem components_spec (hclosed : ∀ x ∈ nodes, ∀ y ∈ succ x, y ∈ nodes) {fuel : Nat}
    (hfuel : nodes.length ≤ fuel) (hm : ∀ x ∈ nodes, m.index x = -1 ∧ m.onStack x = false)
    {order : List V} (horder : ∀ x, x ∈ order ↔ x ∈ nodes) :
    ∃ s, components succ fuel order m = some s ∧
      (∀ c ∈ s.comps, IsComp succ c ∧ ∀ x ∈ c, x ∈ nodes) ∧ s.comps.Pairwise List.Disjoint ∧
        ∀ x ∈ nodes, (∀ y, Mutual succ x y → y = x) ∨ ∃ c ∈ s.comps, x ∈ c := by
  obtain ⟨s, hrun, hinv, hall⟩ := components_inv hclosed hfuel hm horder
  refine ⟨s, hrun, fun c hc => ⟨(hinv.comp c hc).1, fun x hx => ((hinv.comp c hc).2 x hx).1⟩,
    hinv.disjoint, fun x hx => ?_⟩
  exact hinv.complete x hx (hall x hx) (by rw [hinv.stack_nil]; exact List.not_mem_nil)

end Tarjan
