import Mathlib.Algebra.GroupWithZero.Nat
import Mathlib.Algebra.Order.BigOperators.Group.List
import Mathlib.Algebra.Order.Group.Nat
import Mathlib.Data.Finset.Union
import Cminusfc.Optimization.ActiveVars

/-!
# What the liveness loop leaves

`rounds` stops on a round in which no `live_out` grew. Such a round is `Quiet`
(`round_quiet_iff`), and it leaves `live_out` alone and rewrites `live_in` from it.

* From the second round on (`Settled`) a quiet round means the equations hold: every `live_in` it
  read is the one it leaves.
* The first round reads an empty `live_in` for the blocks that come earlier in the list. It is quiet
  exactly when no block feeds on a block behind it (`quiet_empty_iff`), and then `live_out` stays
  empty.

`run_fixpoint_iff` puts the two together: the loop always ends, and it ends in a solution exactly
when the first round finds something, or there is nothing to find.

About the loop of `ActiveVars::run`, `src/optimization/ActiveVars.cpp` 11-48.
-/

namespace Cminusfc.Optimization.ActiveVars

open Cminusfc.LightIR

variable {g : Cfg} {t : Sets}

/-! ## One block -/

theorem mem_foldl_union {α β : Type} [DecidableEq β] (f : α → Finset β) (l : List α)
    (init : Finset β) (x : β) :
    x ∈ l.foldl (fun acc a => acc ∪ f a) init ↔ x ∈ init ∨ ∃ a ∈ l, x ∈ f a := by
  induction l generalizing init with
  | nil => simp
  | cons a l ih =>
    rw [List.foldl_cons, ih, Finset.mem_union]
    simp only [List.mem_cons, exists_eq_or_imp, or_assoc]

theorem mem_outOf {s : Live} {bb : BlockId} {var : Value} :
    var ∈ outOf g t s bb ↔
      var ∈ s.liveOut bb ∨
        ∃ suc ∈ g.succ bb, var ∈ s.liveIn suc ∧ through t bb suc var = true := by
  unfold outOf
  rw [mem_foldl_union (fun suc => (s.liveIn suc).filter fun var => through t bb suc var)]
  simp only [Finset.mem_filter]

theorem liveOut_subset_outOf (s : Live) (bb : BlockId) : s.liveOut bb ⊆ outOf g t s bb :=
  fun _ h => mem_outOf.mpr (Or.inl h)

theorem mem_inOf {out : Finset Value} {bb : BlockId} {var : Value} :
    var ∈ inOf t out bb ↔ (var ∈ out ∧ var ∉ t.defs bb) ∨ var ∈ t.use bb := by
  simp [inOf]

theorem inOf_mono {out out' : Finset Value} (h : out ⊆ out') (bb : BlockId) :
    inOf t out bb ⊆ inOf t out' bb := by
  intro var hv
  rw [mem_inOf] at hv ⊢
  exact hv.imp_left fun hv => ⟨h hv.1, hv.2⟩

/-- `live_out` did not grow at `bb`. -/
def Still (g : Cfg) (t : Sets) (s : Live) (bb : BlockId) : Prop :=
  ∀ suc ∈ g.succ bb, ∀ var ∈ s.liveIn suc, through t bb suc var = true → var ∈ s.liveOut bb

theorem outOf_eq_iff {s : Live} {bb : BlockId} :
    outOf g t s bb = s.liveOut bb ↔ Still g t s bb := by
  constructor
  · intro h suc hsuc var hvar hthr
    rw [← h]
    exact mem_outOf.mpr (Or.inr ⟨suc, hsuc, hvar, hthr⟩)
  · intro h
    refine Finset.Subset.antisymm ?_ (liveOut_subset_outOf s bb)
    intro var hvar
    obtain hvar | ⟨suc, hsuc, hvar, hthr⟩ := mem_outOf.mp hvar
    · exact hvar
    · exact h suc hsuc var hvar hthr

/-- The size test is an equality test, since `live_out` only grows. -/
theorem card_outOf_iff {s : Live} {bb : BlockId} :
    (outOf g t s bb).card = (s.liveOut bb).card ↔ Still g t s bb := by
  rw [← outOf_eq_iff]
  constructor
  · intro h
    exact (Finset.eq_of_subset_of_card_le (liveOut_subset_outOf s bb) (Nat.le_of_eq h)).symm
  · intro h
    rw [h]

/-- `live_in[bb]` rewritten from `live_out[bb]`. -/
def settle (t : Sets) (s : Live) (bb : BlockId) : Live :=
  ⟨Function.update s.liveIn bb (inOf t (s.liveOut bb) bb), s.liveOut⟩

/-- A visit that finds nothing new. -/
theorem visitBlock_still {s : Live} {c : Bool} {bb : BlockId} (h : Still g t s bb) :
    visitBlock g t (s, c) bb = (settle t s bb, c) := by
  unfold visitBlock settle
  rw [outOf_eq_iff.mpr h]
  simp

theorem visitBlock_flag {s : Live} {c : Bool} {bb : BlockId} :
    (visitBlock g t (s, c) bb).2 = false ↔ c = false ∧ Still g t s bb := by
  unfold visitBlock
  simp [card_outOf_iff]

/-! ## One round -/

/-- No visit of the list grows a `live_out`. -/
def Quiet (g : Cfg) (t : Sets) : Live → List BlockId → Prop
  | _, [] => True
  | s, bb :: l => Still g t s bb ∧ Quiet g t (settle t s bb) l

theorem foldl_visitBlock_quiet {l : List BlockId} {s : Live} {c : Bool} (h : Quiet g t s l) :
    l.foldl (visitBlock g t) (s, c) = (l.foldl (settle t) s, c) := by
  induction l generalizing s with
  | nil => rfl
  | cons bb l ih =>
    rw [List.foldl_cons, visitBlock_still h.1, ih h.2]
    rfl

theorem foldl_visitBlock_flag {l : List BlockId} {s : Live} {c : Bool} :
    (l.foldl (visitBlock g t) (s, c)).2 = false ↔ c = false ∧ Quiet g t s l := by
  induction l generalizing s c with
  | nil => simp [Quiet]
  | cons bb l ih =>
    rw [List.foldl_cons]
    by_cases hs : Still g t s bb
    · rw [visitBlock_still hs, ih]
      simp [Quiet, hs]
    · have hflag : (visitBlock g t (s, c) bb).2 ≠ false := fun h => hs (visitBlock_flag.mp h).2
      rw [← Prod.mk.eta (p := visitBlock g t (s, c) bb), ih]
      simp [hflag, Quiet, hs]

theorem round_quiet_iff {s : Live} : (round g t s).2 = false ↔ Quiet g t s g.blocks.reverse := by
  unfold round
  rw [foldl_visitBlock_flag]
  simp

theorem rounds_quiet {s : Live} (h : (round g t s).2 = false) (n : Nat) :
    rounds g t (n + 1) s = .ok (round g t s).1 := by
  simp [rounds, h]

theorem rounds_moved {s : Live} (h : ¬ Quiet g t s g.blocks.reverse) (n : Nat) :
    rounds g t (n + 1) s = rounds g t n (round g t s).1 := by
  have hmoved : (round g t s).2 = true := by
    rw [← Bool.not_eq_false, round_quiet_iff]
    exact h
  simp [rounds, hmoved]

theorem foldl_settle_liveOut (l : List BlockId) (s : Live) :
    (l.foldl (settle t) s).liveOut = s.liveOut := by
  induction l generalizing s with
  | nil => rfl
  | cons bb l ih => rw [List.foldl_cons, ih]; rfl

theorem foldl_settle_liveIn (l : List BlockId) (s : Live) (bb : BlockId) :
    (l.foldl (settle t) s).liveIn bb =
      if bb ∈ l then inOf t (s.liveOut bb) bb else s.liveIn bb := by
  induction l generalizing s with
  | nil => simp
  | cons a l ih =>
    rw [List.foldl_cons, ih]
    by_cases hl : bb ∈ l
    · simp [hl, settle]
    · by_cases ha : bb = a
      · subst ha
        simp [hl, settle]
      · simp [hl, ha, settle]

/-! ## The invariant of the rounds -/

/-- What every visit keeps. -/
structure Inv (g : Cfg) (t : Sets) (s : Live) : Prop where
  into : ∀ bb, s.liveIn bb ⊆ inOf t (s.liveOut bb) bb
  source : ∀ bb, ∀ var ∈ s.liveOut bb,
    ∃ suc ∈ g.succ bb, var ∈ s.liveIn suc ∧ through t bb suc var = true
  outside : ∀ bb ∉ g.blocks, s.liveIn bb = ∅

theorem Inv.empty : Inv g t Live.empty where
  into bb := by simp [Live.empty]
  source bb := by simp [Live.empty]
  outside bb _ := rfl

theorem Inv.visit {s : Live} {c : Bool} (h : Inv g t s) {bb : BlockId} (hbb : bb ∈ g.blocks) :
    Inv g t (visitBlock g t (s, c) bb).1 := by
  have hgrow : ∀ b, s.liveIn b ⊆ (visitBlock g t (s, c) bb).1.liveIn b := by
    intro b
    by_cases hb : b = bb
    · subst hb
      simp only [visitBlock, Function.update_self]
      exact (h.into b).trans (inOf_mono (liveOut_subset_outOf s b) b)
    · simp [visitBlock, hb]
  refine ⟨fun b => ?_, fun b var hvar => ?_, fun b hb => ?_⟩
  · by_cases hb : b = bb
    · subst hb
      simp [visitBlock]
    · simp only [visitBlock, Function.update_of_ne hb]
      exact h.into b
  · have hvar' : ∃ suc ∈ g.succ b, var ∈ s.liveIn suc ∧ through t b suc var = true := by
      by_cases hb : b = bb
      · subst hb
        simp only [visitBlock, Function.update_self] at hvar
        exact (mem_outOf.mp hvar).elim (h.source b var) id
      · simp only [visitBlock, Function.update_of_ne hb] at hvar
        exact h.source b var hvar
    obtain ⟨suc, hsuc, hin, hthr⟩ := hvar'
    exact ⟨suc, hsuc, hgrow suc hin, hthr⟩
  · have hne : b ≠ bb := fun he => hb (he ▸ hbb)
    simp [visitBlock, hne, h.outside b hb]

theorem Inv.foldl {l : List BlockId} (hl : ∀ bb ∈ l, bb ∈ g.blocks) {s : Live} {c : Bool}
    (h : Inv g t s) : Inv g t (l.foldl (visitBlock g t) (s, c)).1 := by
  induction l generalizing s c with
  | nil => exact h
  | cons bb l ih =>
    rw [List.foldl_cons]
    exact ih (fun b hb => hl b (List.mem_cons_of_mem _ hb)) (h.visit (hl bb List.mem_cons_self))

/-- Every `live_in` is the one its `live_out` gives. -/
def Settled (g : Cfg) (t : Sets) (s : Live) : Prop :=
  ∀ bb ∈ g.blocks, s.liveIn bb = inOf t (s.liveOut bb) bb

theorem settled_foldl {l : List BlockId} {s : Live} {c : Bool} (done : BlockId → Prop)
    (h : ∀ bb, done bb → s.liveIn bb = inOf t (s.liveOut bb) bb) (bb : BlockId)
    (hbb : done bb ∨ bb ∈ l) :
    (l.foldl (visitBlock g t) (s, c)).1.liveIn bb =
      inOf t ((l.foldl (visitBlock g t) (s, c)).1.liveOut bb) bb := by
  induction l generalizing s c done with
  | nil => exact h bb (hbb.resolve_right List.not_mem_nil)
  | cons a l ih =>
    rw [List.foldl_cons]
    refine ih (fun b => done b ∨ b = a) (fun b hb => ?_) ?_
    · by_cases ha : b = a
      · subst ha
        simp only [Function.update_self]
      · simp only [Function.update_of_ne ha]
        exact h b (hb.resolve_right ha)
    · rcases hbb with hbb | hbb
      · exact Or.inl (Or.inl hbb)
      · rcases List.mem_cons.mp hbb with rfl | hbb
        · exact Or.inl (Or.inr rfl)
        · exact Or.inr hbb

theorem settled_round (s : Live) : Settled g t (round g t s).1 := fun bb hbb =>
  settled_foldl (fun _ => False) (fun _ h => h.elim) bb (Or.inr (List.mem_reverse.mpr hbb))

theorem Inv.round {s : Live} (h : Inv g t s) : Inv g t (round g t s).1 :=
  h.foldl fun _ hb => List.mem_reverse.mp hb

/-! ## Quiet rounds -/

theorem settle_settled {s : Live} {bb : BlockId} (h : s.liveIn bb = inOf t (s.liveOut bb) bb) :
    settle t s bb = s := by
  unfold settle
  rw [← h, Function.update_eq_self]

/-- A quiet round over settled maps read what it left. -/
theorem quiet_settled_iff {s : Live} {l : List BlockId}
    (h : ∀ bb ∈ l, s.liveIn bb = inOf t (s.liveOut bb) bb) :
    Quiet g t s l ↔ ∀ bb ∈ l, Still g t s bb := by
  induction l with
  | nil => simp [Quiet]
  | cons bb l ih =>
    rw [Quiet, settle_settled (h bb List.mem_cons_self),
      ih fun b hb => h b (List.mem_cons_of_mem _ hb)]
    simp

theorem isFixpoint_iff_still {s : Live} (hi : Inv g t s) (hs : Settled g t s) :
    IsFixpoint g t s ↔ ∀ bb ∈ g.blocks, Still g t s bb := by
  constructor
  · intro h bb hbb suc hsuc var hvar hthr
    exact (h.out bb hbb var).mpr ⟨suc, hsuc, hvar, hthr⟩
  · intro h
    refine ⟨fun bb hbb var => ⟨hi.source bb var, ?_⟩, hs⟩
    rintro ⟨suc, hsuc, hvar, hthr⟩
    exact h bb hbb suc hsuc var hvar hthr

/-- No `live_out` yet, and `live_in` is `use` for the blocks `done`. -/
structure Fresh (t : Sets) (done : List BlockId) (s : Live) : Prop where
  out : ∀ bb, s.liveOut bb = ∅
  into : ∀ bb, s.liveIn bb = if bb ∈ done then t.use bb else ∅

theorem Fresh.empty : Fresh t [] Live.empty := ⟨fun _ => rfl, fun _ => by simp [Live.empty]⟩

theorem Fresh.settle {done : List BlockId} {s : Live} (h : Fresh t done s) (bb : BlockId) :
    Fresh t (bb :: done) (settle t s bb) := by
  refine ⟨h.out, fun b => ?_⟩
  by_cases hb : b = bb
  · subst hb
    simp [ActiveVars.settle, inOf, h.out b]
  · simp [ActiveVars.settle, hb, h.into b]

theorem Fresh.still_iff {done : List BlockId} {s : Live} (h : Fresh t done s) {bb : BlockId} :
    Still g t s bb ↔ ∀ suc ∈ g.succ bb, suc ∈ done → ¬ Feeds t suc bb := by
  constructor
  · rintro hs suc hsuc hdone ⟨var, hvar, hthr⟩
    have : var ∈ s.liveIn suc := by rw [h.into, if_pos hdone]; exact hvar
    have := hs suc hsuc var this hthr
    rw [h.out] at this
    exact absurd this (Finset.notMem_empty _)
  · intro hs suc hsuc var hvar hthr
    rw [h.into] at hvar
    by_cases hdone : suc ∈ done
    · rw [if_pos hdone] at hvar
      exact absurd ⟨var, hvar, hthr⟩ (hs suc hsuc hdone)
    · rw [if_neg hdone] at hvar
      exact absurd hvar (Finset.notMem_empty _)

/-- A first round over `l` is quiet when no block of `l` feeds on one visited before it. -/
theorem Fresh.quiet_iff {done l : List BlockId} {s : Live} (h : Fresh t done s) :
    Quiet g t s l ↔
      ∀ bb suc, suc ∈ g.succ bb →
        (bb ∈ l ∧ suc ∈ done) ∨ [suc, bb].Sublist l → ¬ Feeds t suc bb := by
  induction l generalizing done s with
  | nil => simp [Quiet]
  | cons a l ih =>
    rw [Quiet, h.still_iff, ih (h.settle a)]
    have hsub : ∀ bb suc, [suc, bb].Sublist (a :: l) ↔
        [suc, bb].Sublist l ∨ (suc = a ∧ bb ∈ l) := by
      intro bb suc
      rw [List.sublist_cons_iff]
      simp
    constructor
    · rintro ⟨h1, h2⟩ bb suc hsuc hcase
      rw [hsub] at hcase
      rcases hcase with ⟨hbb, hdone⟩ | hcase | ⟨rfl, hbb⟩
      · rcases List.mem_cons.mp hbb with rfl | hbb
        · exact h1 suc hsuc hdone
        · exact h2 bb suc hsuc (Or.inl ⟨hbb, List.mem_cons_of_mem _ hdone⟩)
      · exact h2 bb suc hsuc (Or.inr hcase)
      · exact h2 bb suc hsuc (Or.inl ⟨hbb, List.mem_cons_self⟩)
    · intro hall
      refine ⟨fun suc hsuc hdone => hall a suc hsuc (Or.inl ⟨List.mem_cons_self, hdone⟩), ?_⟩
      intro bb suc hsuc hcase
      refine hall bb suc hsuc ?_
      rw [hsub]
      rcases hcase with ⟨hbb, hdone⟩ | hcase
      · rcases List.mem_cons.mp hdone with rfl | hdone
        · exact Or.inr (Or.inr ⟨rfl, hbb⟩)
        · exact Or.inl ⟨List.mem_cons_of_mem _ hbb, hdone⟩
      · exact Or.inr (Or.inl hcase)

/-- The first round is quiet exactly when no block feeds on a block behind it in the list. -/
theorem quiet_empty_iff :
    Quiet g t Live.empty g.blocks.reverse ↔
      ∀ bb suc, suc ∈ g.succ bb → [bb, suc].Sublist g.blocks → ¬ Feeds t suc bb := by
  rw [Fresh.empty.quiet_iff]
  have hrev : ∀ bb suc, [suc, bb].Sublist g.blocks.reverse ↔ [bb, suc].Sublist g.blocks := by
    intro bb suc
    rw [← List.reverse_sublist]
    simp
  simp [hrev]

/-! ## The rounds end -/

/-- Everything is among the variables `U`. -/
def Bounded (U : Finset Value) (s : Live) : Prop := ∀ bb, s.liveIn bb ⊆ U ∧ s.liveOut bb ⊆ U

theorem Bounded.visit {U : Finset Value} (hU : ∀ bb ∈ g.blocks, t.use bb ⊆ U) {s : Live} {c : Bool}
    (h : Bounded U s) {bb : BlockId} (hbb : bb ∈ g.blocks) :
    Bounded U (visitBlock g t (s, c) bb).1 := by
  have hout : outOf g t s bb ⊆ U := by
    intro var hvar
    obtain hvar | ⟨suc, -, hvar, -⟩ := mem_outOf.mp hvar
    · exact (h bb).2 hvar
    · exact (h suc).1 hvar
  have hin : inOf t (outOf g t s bb) bb ⊆ U := by
    intro var hvar
    obtain ⟨hvar, -⟩ | hvar := mem_inOf.mp hvar
    · exact hout hvar
    · exact hU bb hbb hvar
  intro b
  by_cases hb : b = bb
  · subst hb
    simp only [visitBlock, Function.update_self]
    exact ⟨hin, hout⟩
  · simp only [visitBlock, Function.update_of_ne hb]
    exact h b

/-- The sizes of the `live_out` sets. -/
def weight (g : Cfg) (s : Live) : Nat := (g.blocks.map fun bb => (s.liveOut bb).card).sum

theorem weight_visit_le {s : Live} {c : Bool} (bb : BlockId) :
    weight g s ≤ weight g (visitBlock g t (s, c) bb).1 := by
  refine List.sum_le_sum fun b _ => ?_
  by_cases hb : b = bb
  · subst hb
    simp only [visitBlock, Function.update_self]
    exact Finset.card_le_card (liveOut_subset_outOf s b)
  · simp only [visitBlock, Function.update_of_ne hb, Nat.le_refl]

theorem weight_visit_lt {s : Live} {c : Bool} {bb : BlockId} (hbb : bb ∈ g.blocks)
    (hs : ¬ Still g t s bb) : weight g s < weight g (visitBlock g t (s, c) bb).1 := by
  refine List.sum_lt_sum _ _ (fun b _ => ?_) ⟨bb, hbb, ?_⟩
  · by_cases hb : b = bb
    · subst hb
      simp only [visitBlock, Function.update_self]
      exact Finset.card_le_card (liveOut_subset_outOf s b)
    · simp only [visitBlock, Function.update_of_ne hb, Nat.le_refl]
  · simp only [visitBlock, Function.update_self]
    have hle := Finset.card_le_card (liveOut_subset_outOf (g := g) (t := t) s bb)
    exact Nat.lt_of_le_of_ne hle fun he => hs (card_outOf_iff.mp he.symm)

theorem foldl_visitBlock_bounded {U : Finset Value} (hU : ∀ bb ∈ g.blocks, t.use bb ⊆ U)
    {l : List BlockId} (hl : ∀ bb ∈ l, bb ∈ g.blocks) {s : Live} {c : Bool} (h : Bounded U s) :
    Bounded U (l.foldl (visitBlock g t) (s, c)).1 ∧
      weight g s ≤ weight g (l.foldl (visitBlock g t) (s, c)).1 ∧
      (¬ Quiet g t s l → weight g s < weight g (l.foldl (visitBlock g t) (s, c)).1) := by
  induction l generalizing s c with
  | nil => exact ⟨h, Nat.le_refl _, fun hq => absurd trivial hq⟩
  | cons bb l ih =>
    have hbb := hl bb List.mem_cons_self
    obtain ⟨h1, h2, h3⟩ := ih (fun b hb => hl b (List.mem_cons_of_mem _ hb))
      (s := (visitBlock g t (s, c) bb).1) (c := (visitBlock g t (s, c) bb).2) (h.visit hU hbb)
    rw [List.foldl_cons]
    have hle := weight_visit_le (g := g) (t := t) (s := s) (c := c) bb
    refine ⟨h1, Nat.le_trans hle h2, fun hq => ?_⟩
    by_cases hs : Still g t s bb
    · have hv := visitBlock_still (c := c) hs
      rw [hv] at h3 hle ⊢
      exact Nat.lt_of_le_of_lt hle (h3 fun hq' => hq ⟨hs, hq'⟩)
    · exact Nat.lt_of_lt_of_le (weight_visit_lt hbb hs) h2

theorem weight_le {U : Finset Value} {s : Live} (h : Bounded U s) :
    weight g s ≤ g.blocks.length * U.card := by
  unfold weight
  have := List.sum_le_card_nsmul (g.blocks.map fun bb => (s.liveOut bb).card) U.card (by
    intro n hn
    obtain ⟨bb, -, rfl⟩ := List.mem_map.mp hn
    exact Finset.card_le_card (h bb).2)
  simpa using this

/-- A quiet round over settled maps changes nothing. -/
theorem round_of_settled {s : Live} (hs : Settled g t s) (hq : Quiet g t s g.blocks.reverse) :
    (round g t s).1 = s := by
  unfold ActiveVars.round
  rw [foldl_visitBlock_quiet hq]
  have hin : (g.blocks.reverse.foldl (settle t) s).liveIn = s.liveIn := by
    funext bb
    rw [foldl_settle_liveIn]
    split
    · rename_i hbb
      exact (hs bb (List.mem_reverse.mp hbb)).symm
    · rfl
  have hout := foldl_settle_liveOut (t := t) g.blocks.reverse s
  cases s
  exact congrArg₂ Live.mk hin hout

/-- From settled maps the rounds end in a solution. -/
theorem rounds_settled {U : Finset Value} (hU : ∀ bb ∈ g.blocks, t.use bb ⊆ U) {s : Live}
    (hi : Inv g t s) (hs : Settled g t s) (hb : Bounded U s) :
    ∃ s', IsFixpoint g t s' ∧
      ∀ fuel, g.blocks.length * U.card < weight g s + fuel → rounds g t fuel s = .ok s' := by
  induction hm : g.blocks.length * U.card - weight g s using Nat.strong_induction_on generalizing s
    with
  | _ m ih =>
    by_cases hq : Quiet g t s g.blocks.reverse
    · have hround := round_of_settled hs hq
      have hstill := (quiet_settled_iff fun bb hbb => hs bb (List.mem_reverse.mp hbb)).mp hq
      refine ⟨s, (isFixpoint_iff_still hi hs).mpr fun bb hbb =>
        hstill bb (List.mem_reverse.mpr hbb), fun fuel hfuel => ?_⟩
      have hle := weight_le (g := g) hb
      obtain ⟨n, rfl⟩ : ∃ n, fuel = n + 1 := ⟨fuel - 1, by omega⟩
      rw [rounds_quiet (round_quiet_iff.mpr hq), hround]
    · obtain ⟨hb', -, hlt⟩ := foldl_visitBlock_bounded hU
        (fun bb hbb => List.mem_reverse.mp hbb) (c := false) hb
      have hlt := hlt hq
      have hle := weight_le (g := g) hb'
      obtain ⟨s', hfix, hrun⟩ := ih _ (by unfold ActiveVars.round; omega) hi.round (settled_round s) hb' rfl
      refine ⟨s', hfix, fun fuel hfuel => ?_⟩
      have hle' := weight_le (g := g) hb
      obtain ⟨n, rfl⟩ : ∃ n, fuel = n + 1 := ⟨fuel - 1, by omega⟩
      rw [rounds_moved hq]
      exact hrun n (by unfold ActiveVars.round; omega)

/-- The first round finds something: `bb` feeds on a block behind it in the list. -/
def FirstRoundMoves (g : Cfg) (t : Sets) : Prop :=
  ∃ bb suc, suc ∈ g.succ bb ∧ [bb, suc].Sublist g.blocks ∧ Feeds t suc bb

/-- No block feeds on another. -/
def NothingFlows (g : Cfg) (t : Sets) : Prop :=
  ∀ bb ∈ g.blocks, ∀ suc ∈ g.succ bb, suc ∈ g.blocks → ¬ Feeds t suc bb

/-- A quiet first round leaves `live_out` empty and `live_in` equal to `use`. -/
theorem Fresh.foldl {l done : List BlockId} {s : Live} (h : Fresh t done s) :
    Fresh t (l.reverse ++ done) (l.foldl (ActiveVars.settle t) s) := by
  induction l generalizing done s with
  | nil => exact h
  | cons bb l ih => simpa using ih (h.settle bb)

/-- **The do-while loop ends, and it ends in a solution exactly when its first round finds
something or there is nothing to find.** -/
theorem rounds_fixpoint_iff (g : Cfg) (t : Sets) :
    ∃ n s, (∀ fuel, n ≤ fuel → rounds g t fuel Live.empty = .ok s) ∧
      (IsFixpoint g t s ↔ FirstRoundMoves g t ∨ NothingFlows g t) := by
  have hmoves : Quiet g t Live.empty g.blocks.reverse ↔ ¬ FirstRoundMoves g t := by
    rw [quiet_empty_iff]
    unfold FirstRoundMoves
    push Not
    rfl
  by_cases hq : Quiet g t Live.empty g.blocks.reverse
  · have hround : (round g t Live.empty).1 = g.blocks.reverse.foldl (settle t) Live.empty := by
      unfold ActiveVars.round
      rw [foldl_visitBlock_quiet hq]
    refine ⟨1, g.blocks.reverse.foldl (settle t) Live.empty, fun fuel hfuel => ?_, ?_⟩
    · obtain ⟨n, rfl⟩ : ∃ n, fuel = n + 1 := ⟨fuel - 1, by omega⟩
      rw [rounds_quiet (round_quiet_iff.mpr hq), hround]
    · have hfresh := (Fresh.empty (t := t)).foldl (l := g.blocks.reverse)
      rw [← hround, isFixpoint_iff_still Inv.empty.round (settled_round _), hround]
      have hstill : (∀ bb ∈ g.blocks, Still g t (g.blocks.reverse.foldl (settle t) Live.empty) bb) ↔
          NothingFlows g t := by
        refine forall₂_congr fun bb _ => ?_
        rw [hfresh.still_iff]
        simp
      rw [hstill]
      exact ⟨Or.inr, fun h => h.resolve_left (hmoves.mp hq)⟩
  · obtain ⟨s, hfix, hrun⟩ := rounds_settled (g := g) (t := t)
      (U := g.blocks.toFinset.biUnion t.use)
      (fun bb hbb => Finset.subset_biUnion_of_mem t.use (List.mem_toFinset.mpr hbb))
      Inv.empty.round (settled_round _)
      (foldl_visitBlock_bounded
        (fun bb hbb => Finset.subset_biUnion_of_mem t.use (List.mem_toFinset.mpr hbb))
        (fun bb hbb => List.mem_reverse.mp hbb) fun bb => by simp [Live.empty]).1
    refine ⟨g.blocks.length * (g.blocks.toFinset.biUnion t.use).card + 2, s, fun fuel hfuel => ?_,
      iff_of_true hfix (Or.inl (not_not.mp fun h => hq (hmoves.mpr h)))⟩
    obtain ⟨n, rfl⟩ : ∃ n, fuel = n + 1 := ⟨fuel - 1, by omega⟩
    rw [rounds_moved hq]
    exact hrun n (by omega)

/-- **What `ActiveVars::run` leaves for a function** is a solution of the dataflow equations
exactly when its first round finds something or there is nothing to find. -/
theorem run_fixpoint_iff (f : Func) :
    ∃ n s, (∀ fuel, n ≤ fuel → run f fuel = .ok s) ∧
      (IsFixpoint f.toCfg (calcDefAndUse f.setInstrName) s ↔
        FirstRoundMoves f.toCfg (calcDefAndUse f.setInstrName) ∨
          NothingFlows f.toCfg (calcDefAndUse f.setInstrName)) :=
  rounds_fixpoint_iff f.toCfg (calcDefAndUse f.setInstrName)

/-! ## A join block in front of its predecessors

`int f(int x) { if (1) { if (1) ; } else { if (1) ; } return x; }` after `Mem2Reg`: the builder
puts the join block `3` of the outer `if` in front of the blocks nested in its branches. -/

/-- The blocks of `f`, in the order the builder creates them. -/
def nestedIfsCfg : Cfg where
  entry := 0
  rest := [1, 2, 3, 4, 5, 6, 7]
  pre bb := match bb with
    | 1 | 2 => [0]
    | 3 => [5, 7]
    | 4 => [1]
    | 5 => [1, 4]
    | 6 => [2]
    | 7 => [2, 6]
    | _ => []
  succ bb := match bb with
    | 0 => [2, 1]
    | 1 => [5, 4]
    | 2 => [7, 6]
    | 4 => [5]
    | 5 | 7 => [3]
    | 6 => [7]
    | _ => []

/-- The function `f`. -/
def nestedIfs : Func where
  toCfg := nestedIfsCfg
  name := "f"
  retTy := .int32
  args := [.int32]
  body bb := match bb with
    | 0 => [0, 1]
    | 1 => [2, 3]
    | 2 => [4, 5]
    | 3 => [6]
    | 4 => [7]
    | 5 => [8]
    | 6 => [9]
    | 7 => [10]
    | _ => []
  instr i := match i with
    | 0 => { op := .cmp, ty := .int1, operands := [.int32 1, .int32 0], parent := 0, cmpOp := .NE }
    | 1 => { op := .br, ty := .void, operands := [.instr 0, .block 1, .block 2], parent := 0 }
    | 2 => { op := .cmp, ty := .int1, operands := [.int32 1, .int32 0], parent := 1, cmpOp := .NE }
    | 3 => { op := .br, ty := .void, operands := [.instr 2, .block 4, .block 5], parent := 1 }
    | 4 => { op := .cmp, ty := .int1, operands := [.int32 1, .int32 0], parent := 2, cmpOp := .NE }
    | 5 => { op := .br, ty := .void, operands := [.instr 4, .block 6, .block 7], parent := 2 }
    | 6 => { op := .ret, ty := .void, operands := [.arg 0], parent := 3 }
    | 7 => { op := .br, ty := .void, operands := [.block 5], parent := 4 }
    | 8 => { op := .br, ty := .void, operands := [.block 3], parent := 5 }
    | 9 => { op := .br, ty := .void, operands := [.block 7], parent := 6 }
    | _ => { op := .br, ty := .void, operands := [.block 3], parent := 7 }
  next := 11

/-- **`run` ends on `f` without a solution**: the argument is live into `3` and not out of `7`. -/
theorem run_nestedIfs_not_fixpoint :
    ∃ s, (∀ fuel, run nestedIfs (fuel + 1) = .ok s) ∧
      ¬ IsFixpoint nestedIfs.toCfg (calcDefAndUse nestedIfs.setInstrName) s := by
  have hquiet : (round nestedIfsCfg (calcDefAndUse nestedIfs.setInstrName) Live.empty).2 = false := by
    decide +kernel
  refine ⟨(round nestedIfsCfg (calcDefAndUse nestedIfs.setInstrName) Live.empty).1,
    fun fuel => ?_, fun h => ?_⟩
  · exact rounds_quiet hquiet fuel
  · have hin : Value.arg 0 ∈
        (round nestedIfsCfg (calcDefAndUse nestedIfs.setInstrName) Live.empty).1.liveIn 3 ∧
        through (calcDefAndUse nestedIfs.setInstrName) 7 3 (.arg 0) = true := by
      decide +kernel
    have hout := (h.out 7 (by decide) (.arg 0)).mpr ⟨3, by decide, hin⟩
    revert hout
    decide +kernel

end Cminusfc.Optimization.ActiveVars
