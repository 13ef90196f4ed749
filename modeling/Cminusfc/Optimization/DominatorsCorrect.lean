import Mathlib.Algebra.GroupWithZero.Nat
import Mathlib.Algebra.Order.BigOperators.Group.List
import Mathlib.Algebra.Order.Group.Nat
import Mathlib.Data.List.Induction
import Mathlib.Data.List.Nodup
import Mathlib.Data.List.Perm.Subperm
import Cminusfc.Optimization.IdomChains

/-!
# `create_idom` computes immediate dominators

`create_reverse_post_order` numbers the reachable blocks (`createReversePostOrder_numbered`). The
rounds of `create_idom` keep `Inv`, whose fields are about the chains of the partially built tree:

* `complete`: the chain of a block holds all its dominators;
* `forward`: a link is witnessed by a path along which the ids fall;
* `settled`: along an edge to a lower id the chain of the target, the target aside, is part of the
  chain of the source, for the targets this round is done with;
* `low`: no block common to the chains of the predecessors is below the link.

`low`, `settled` and `forward` make every `set_idom` raise the link along the old chain, so the
chains only shrink and `weight` rises: the rounds end. A round without a change leaves chains that
solve the dominance equations exactly (`up_iff_dominates`).

About `src/optimization/Dominators.cpp` 71-160.
-/

namespace Cminusfc.Optimization.Dominators

open Cminusfc.LightIR Dominance

/-! ## The numbering -/

/-- Numbering a list of distinct blocks gives each its position. -/
theorem foldl_number (post : List BlockId) (hnd : post.Nodup) :
    (post.foldl number ([], fun _ => 0)).1 = post ∧
      post.Pairwise (fun a b => (post.foldl number ([], fun _ => 0)).2 a <
        (post.foldl number ([], fun _ => 0)).2 b) ∧
      ∀ b ∈ post, (post.foldl number ([], fun _ => 0)).2 b < post.length := by
  induction post using List.reverseRecOn with
  | nil => simp
  | append_singleton post x ih =>
    obtain ⟨hnd', -, hdisj⟩ := List.nodup_append.mp hnd
    have hx : ∀ b ∈ post, b ≠ x := fun b hb => hdisj b hb x List.mem_cons_self
    obtain ⟨h1, h2, h3⟩ := ih hnd'
    rw [List.foldl_append]
    simp only [List.foldl_cons, List.foldl_nil, number, h1, true_and]
    refine ⟨List.pairwise_append.mpr ⟨?_, List.pairwise_singleton _ _, ?_⟩, ?_⟩
    · refine h2.imp_of_mem fun {a b} ha hb hab => ?_
      rw [Function.update_of_ne (hx a ha), Function.update_of_ne (hx b hb)]
      exact hab
    · intro a ha b hb
      rw [List.mem_singleton.mp hb, Function.update_of_ne (hx a ha), Function.update_self]
      exact h3 a ha
    · intro b hb
      rw [List.length_append, List.length_singleton]
      rcases List.mem_append.mp hb with hb | hb
      · rw [Function.update_of_ne (hx b hb)]
        exact Nat.lt_succ_of_lt (h3 b hb)
      · rw [List.mem_singleton.mp hb, Function.update_self]
        exact Nat.lt_succ_self _

/-- **`create_reverse_post_order` ends and numbers the reachable blocks.** -/
theorem createReversePostOrder_numbered (g : FlowGraph) {fuel : Nat}
    (hf : g.blocks.length ≤ fuel) :
    ∃ num, createReversePostOrder g.toCfg fuel = .ok num ∧ Numbered g num.2 num.1 := by
  obtain ⟨s, post, hs, hacc, hP⟩ := DepthFirst.search_postorder number g.closed
    (List.mem_cons_self : g.entry ∈ g.blocks) ([], fun _ => 0) hf
  obtain ⟨h1, h2, h3⟩ := foldl_number post hP.nodup
  rw [← hacc] at h1 h2 h3
  have hsub : post ⊆ g.blocks := fun b hb => g.reach_mem ((hP.mem_iff b).mp hb)
  refine ⟨(s.acc.1.reverse, s.acc.2), ?_, ?_, ?_, ?_, ?_, ?_⟩
  · unfold createReversePostOrder postOrderVisit
    rw [hs]
  · intro b
    rw [List.mem_reverse, h1]
    exact hP.mem_iff b
  · rw [h1]
    exact List.pairwise_reverse.mpr h2
  · intro b hb
    exact Nat.lt_of_lt_of_le (h3 b ((hP.mem_iff b).mpr hb)) (hP.nodup.subperm hsub).length_le
  · intro b hb hne
    obtain ⟨l, rfl⟩ := List.getLast?_eq_some_iff.mp hP.root_last
    have hbl : b ∈ l := by
      rcases List.mem_append.mp ((hP.mem_iff b).mpr hb) with h | h
      · exact h
      · exact absurd (List.mem_singleton.mp h) hne
    exact (List.pairwise_append.mp h2).2.2 b hbl _ List.mem_cons_self
  · intro b hb hne
    obtain ⟨a, ha, hsub'⟩ := hP.parent b ((hP.mem_iff b).mpr hb) hne
    refine ⟨a, (hP.mem_iff a).mp (hsub'.subset (by simp)), ha, ?_⟩
    exact (List.pairwise_cons.mp (h2.sublist hsub')).1 a List.mem_cons_self

/-! ## The invariant of the rounds -/

/-- A path along which the ids fall. -/
def Forward (g : Cfg) (id : BlockId → Nat) (d b : BlockId) : Prop :=
  Relation.ReflTransGen (fun u v => v ∈ g.succ u ∧ id v < id u) d b

/-- The state between two steps of a round that is done with the blocks `done`. -/
structure Inv (g : FlowGraph) (id : BlockId → Nat) (idom : IdomMap) (done : List BlockId) : Prop
    extends Tree g id idom where
  done_isSome : ∀ b ∈ done, (idom b).isSome
  complete : ∀ b z, g.Reach b → (idom b).isSome → g.Dominates z b → Up idom b z
  forward : ∀ b d, g.Reach b → b ≠ g.entry → idom b = some d → Forward g.toCfg id d b
  settled : ∀ u v z, v ∈ done → v ≠ g.entry → g.Reach u → v ∈ g.succ u → id v < id u →
    Up idom v z → z = v ∨ Up idom u z
  low : ∀ b n z, g.Reach b → b ≠ g.entry → idom b = some n →
    (∀ p ∈ g.pre b, (idom p).isSome → Up idom p z) → id n ≤ id z

/-- The link of `b` is on the chain of every predecessor that has one. -/
def Stable (g : FlowGraph) (idom : IdomMap) (b : BlockId) : Prop :=
  b ≠ g.entry → ∀ n, idom b = some n → ∀ p ∈ g.pre b, (idom p).isSome → Up idom p n

variable {g : FlowGraph} {id : BlockId → Nat} {order done todo : List BlockId} {idom : IdomMap}
  {b d x y z new : BlockId}

theorem Forward.reach (h : Forward g.toCfg id d b) (hd : g.Reach d) : g.Reach b := by
  induction h with
  | refl => exact hd
  | tail _ he ih => exact ih.step he.1

theorem Forward.le (h : Forward g.toCfg id d b) : id b ≤ id d := by
  induction h with
  | refl => exact Nat.le_refl _
  | tail _ he ih => exact Nat.le_trans (Nat.le_of_lt he.2) ih

/-- A walk prolonged by a falling path. -/
theorem Forward.walk (h : Forward g.toCfg id b x) {p : List BlockId}
    (hp : Walk g.Edge g.entry b p) :
    ∃ q, Walk g.Edge g.entry x q ∧ ∀ y ∈ q, y ∈ p ∨ id y ≤ id b := by
  induction h with
  | refl => exact ⟨p, hp, fun y hy => Or.inl hy⟩
  | @tail u v hu he ih =>
    obtain ⟨q, hq, hmem⟩ := ih
    refine ⟨v :: q, hq.step he.1, fun y hy => ?_⟩
    rcases List.mem_cons.mp hy with rfl | hy
    · exact Or.inr (Nat.le_trans (Nat.le_of_lt he.2) (Forward.le hu))
    · exact hmem y hy

theorem Inv.forward_of_up (hI : Inv g id idom done) (hx : g.Reach x) (h : Up idom x z) :
    Forward g.toCfg id z x := by
  induction h using Relation.ReflTransGen.head_induction_on with
  | refl => exact Relation.ReflTransGen.refl
  | @head a c hac _ ih =>
    by_cases ha : a = g.entry
    · subst ha
      rw [hI.root] at hac
      obtain rfl := Option.some.inj hac
      exact ih hx
    · exact Relation.ReflTransGen.trans (ih (hI.parent_reach a c hx hac))
        (hI.forward a c hx ha hac)

/-- A new round starts from the end of the last. -/
theorem Inv.restart (hI : Inv g id idom done) : Inv g id idom [] :=
  { hI with
    done_isSome := by simp
    settled := by simp }

theorem not_entry_of_lt (hN : Numbered g id order) (hx : g.Reach x) (hlt : id y < id x) : y ≠ g.entry := by
  rintro rfl
  have := hN.le_top hx
  omega

section Step

variable (hN : Numbered g id order) (hI : Inv g id idom done) (ho : order = done ++ b :: todo)

include hN ho

theorem mem_done_iff (hx : g.Reach x) : x ∈ done ↔ id b < id x := by
  have hs := hN.sorted
  rw [ho] at hs
  obtain ⟨-, h2, h3⟩ := List.pairwise_append.mp hs
  constructor
  · exact fun hd => h3 x hd b List.mem_cons_self
  · intro hlt
    have hmem := (hN.mem_iff x).mpr hx
    rw [ho] at hmem
    rcases List.mem_append.mp hmem with h | h
    · exact h
    · rcases List.mem_cons.mp h with rfl | h
      · omega
      · have := (List.pairwise_cons.mp h2).1 x h
        omega

theorem current_reach : g.Reach b := by
  rw [← hN.mem_iff, ho]
  simp

include hI

/-- The predecessors that have a link are reachable. -/
theorem Inv.pred_reach : ∀ p ∈ g.pre b, (idom p).isSome → g.Reach p := fun p hp hs =>
  hI.reach p (g.pre_closed b (g.reach_mem (current_reach hN ho)) p hp) hs

/-- **A new link is on the old chain**: the block `intersect` finds for `b` is not below the old
link `n` (`low`), and it climbs the falling path from `n` to `b` edge by edge (`settled`). -/
theorem Inv.up_old (hne : b ≠ g.entry) {n : BlockId} (hn : idom b = some n)
    (hcommon : ∀ p ∈ g.pre b, (idom p).isSome → Up idom p new) : Up idom n new := by
  have hb := current_reach hN ho
  have hle := hI.low b n new hb hne hn hcommon
  have hnr := hI.parent_reach b n hb hn
  have climbs : ∀ u, Forward g.toCfg id n u → id b < id u → Up idom u new → Up idom n new := by
    intro u hu
    induction hu with
    | refl => exact fun _ h => h
    | @tail c u hc he ih =>
      intro hlt hup
      have hcr := Forward.reach hc hnr
      have hur : g.Reach u := hcr.step he.1
      have hcn := Forward.le hc
      rcases hI.settled c u new ((mem_done_iff hN ho hur).mpr hlt)
        (not_entry_of_lt hN hcr he.2) hcr he.1 he.2 hup with rfl | h
      · omega
      · exact ih (Nat.lt_trans hlt he.2) h
  rcases Relation.ReflTransGen.cases_tail (hI.forward b n hb hne hn) with heq | ⟨u, hu, he⟩
  · have := hI.lt b n hb hne hn
    rw [heq] at this
    omega
  · have hur := Forward.reach hu hnr
    refine climbs u hu he.2 (hcommon u ((g.inverse u b).mp he.1) ?_)
    exact hI.done_isSome u ((mem_done_iff hN ho hur).mpr he.2)

/-- Chains only shrink. -/
theorem Inv.mono (hne : b ≠ g.entry) (hnew : g.Reach new) (hlt : id b < id new)
    (hcommon : ∀ p ∈ g.pre b, (idom p).isSome → Up idom p new) (hx : g.Reach x)
    (hs : (idom x).isSome) (h : Up (Function.update idom b (some new)) x z) : Up idom x z := by
  cases hb : idom b with
  | none =>
    refine (up_update_of_not fun hxb => ?_).mp h
    have := hI.isSome_up hx hs hxb
    rw [hb] at this
    exact Bool.false_ne_true this
  | some n =>
    exact up_update_mono hI.toTree hne hnew hlt
      ((Up.link hb).trans (hI.up_old hN ho hne hb hcommon)) hx h

/-- **One `set_idom` keeps the invariant.** -/
theorem Inv.update (hne : b ≠ g.entry) (hnew : g.Reach new) (hs : (idom new).isSome)
    (hlt : id b < id new) (hcommon : ∀ p ∈ g.pre b, (idom p).isSome → Up idom p new)
    (hlow : ∀ z, (∀ p ∈ g.pre b, (idom p).isSome → Up idom p z) → Up idom new z) :
    Inv g id (Function.update idom b (some new)) (done ++ [b]) := by
  have hb := current_reach hN ho
  have hnb : ¬ Up idom new b := fun h => by
    have := hI.le_up hnew h
    omega
  have hlink : Up (Function.update idom b (some new)) b new :=
    Up.link (Function.update_self _ _ _)
  have hmono : ∀ x z, g.Reach x → (idom x).isSome →
      Up (Function.update idom b (some new)) x z → Up idom x z :=
    fun x z hx hsx h => hI.mono hN ho hne hnew hlt hcommon hx hsx h
  have hsome : ∀ x, (idom x).isSome → (Function.update idom b (some new) x).isSome := by
    intro x hsx
    by_cases hxb : x = b
    · rw [hxb, Function.update_self]; rfl
    · rw [Function.update_of_ne hxb]; exact hsx
  -- the strict dominators of `b` are on the chain of `new`
  have hsdom : ∀ z, z ≠ b → g.Dominates z b → Up idom new z := fun z hz hdom =>
    hlow z fun p hp hps => hI.complete p z (hI.pred_reach hN ho p hp hps) hps
      (SDom.pred ⟨hdom, hz⟩ ((g.inverse p b).mpr hp))
  refine
    { toTree := hI.toTree.update hb hne hnew hs hlt
      done_isSome := fun x hx => ?_
      complete := fun x z hx hsx hdom => ?_
      forward := fun x d hx hxe hd => ?_
      settled := fun u v z hv hve hu huv huvlt hup => ?_
      low := fun x n z hx hxe hn hz => ?_ }
  · rcases List.mem_append.mp hx with hx | hx
    · exact hsome x (hI.done_isSome x hx)
    · rw [List.mem_singleton.mp hx, Function.update_self]; rfl
  · by_cases hxb : x = b
    · subst hxb
      by_cases hzx : z = x
      · rw [hzx]; exact Up.refl
      · exact hlink.trans ((up_update_of_not hnb).mpr (hsdom z hzx hdom))
    · rw [Function.update_of_ne hxb] at hsx
      have hup := hI.complete x z hx hsx hdom
      by_cases hub : Up idom x b
      · rcases hup.total hub with hzb | hbz
        · exact up_update_below hI.toTree hb hne hx hup hzb
        · by_cases hzb : z = b
          · subst hzb
            exact up_update_below hI.toTree hb hne hx hub Up.refl
          · obtain ⟨n, hn⟩ := Option.isSome_iff_exists.mp (hI.isSome_up hx hsx hub)
            have hbn := hI.lt b n hb hne hn
            have hnz := hI.le_up (hI.parent_reach b n hb hn) (hbz.tail hzb hn)
            -- a walk to `b` that avoids `z` continues along falling ids to `x`
            have hzdom : g.Dominates z b := by
              by_contra hno
              obtain ⟨p, hp, hzp⟩ := not_dom_iff.mp hno
              obtain ⟨q, hq, hmem⟩ := (hI.forward_of_up hx hub).walk hp
              rcases hmem z (hdom q hq) with h | h
              · exact hzp h
              · omega
            exact (up_update_below hI.toTree hb hne hx hub Up.refl).trans
              (hlink.trans ((up_update_of_not hnb).mpr (hsdom z hzb hzdom)))
      · exact (up_update_of_not hub).mpr hup
  · by_cases hxb : x = b
    · subst hxb
      rw [Function.update_self] at hd
      obtain rfl := Option.some.inj hd
      obtain ⟨a, ha, hedge, halt⟩ := hN.parent x hb hne
      have hsa := hI.done_isSome a ((mem_done_iff hN ho ha).mpr halt)
      have hup := hcommon a ((g.inverse a x).mp hedge) hsa
      exact (hI.forward_of_up ha hup).tail ⟨hedge, halt⟩
    · rw [Function.update_of_ne hxb] at hd
      exact hI.forward x d hx hxe hd
  · have huv' : id b < id u := by
      rcases List.mem_append.mp hv with hv | hv
      · have := (mem_done_iff hN ho (hu.step huv)).mp hv
        omega
      · rw [List.mem_singleton.mp hv] at huvlt
        exact huvlt
    have hub : ¬ Up idom u b := fun h => by
      have := hI.le_up hu h
      omega
    rcases List.mem_append.mp hv with hv | hv
    · have hvr : g.Reach v := hu.step huv
      have hvb : ¬ Up idom v b := fun h => by
        have h1 := hI.le_up hvr h
        have h2 := (mem_done_iff hN ho hvr).mp hv
        omega
      rcases hI.settled u v z hv hve hu huv huvlt ((up_update_of_not hvb).mp hup) with h | h
      · exact Or.inl h
      · exact Or.inr ((up_update_of_not hub).mpr h)
    · obtain rfl := List.mem_singleton.mp hv
      by_cases hzv : z = v
      · exact Or.inl hzv
      · have hz := (up_update_of_not hnb).mp (hup.tail hzv (Function.update_self _ _ _))
        have hsu := hI.done_isSome u ((mem_done_iff hN ho hu).mpr huvlt)
        have hun := hcommon u ((g.inverse u v).mp huv) hsu
        exact Or.inr ((up_update_of_not hub).mpr (hun.trans hz))
  · by_cases hxb : x = b
    · subst hxb
      rw [Function.update_self] at hn
      obtain rfl := Option.some.inj hn
      exact hI.le_up hnew (hlow z fun p hp hps =>
        hmono p z (hI.pred_reach hN ho p hp hps) hps (hz p hp (hsome p hps)))
    · rw [Function.update_of_ne hxb] at hn
      refine hI.low x n z hx hxe hn fun p hp hps => ?_
      exact hmono p z (hI.reach p (g.pre_closed x (g.reach_mem hx) p hp) hps) hps
        (hz p hp (hsome p hps))

/-- A step that changes nothing is done with `b`. -/
theorem Inv.keep (hs : (idom b).isSome) (hst : Stable g idom b) :
    Inv g id idom (done ++ [b]) :=
  { hI with
    done_isSome := fun x hx => by
      rcases List.mem_append.mp hx with hx | hx
      · exact hI.done_isSome x hx
      · rw [List.mem_singleton.mp hx]; exact hs
    settled := fun u v z hv hve hu huv huvlt hup => by
      rcases List.mem_append.mp hv with hv | hv
      · exact hI.settled u v z hv hve hu huv huvlt hup
      · obtain rfl := List.mem_singleton.mp hv
        by_cases hzv : z = v
        · exact Or.inl hzv
        · obtain ⟨n, hn⟩ := Option.isSome_iff_exists.mp hs
          have hsu := hI.done_isSome u ((mem_done_iff hN ho hu).mpr huvlt)
          have hun := hst hve n hn u ((g.inverse u v).mp huv) hsu
          exact Or.inr (hun.trans (hup.tail hzv hn)) }

end Step

/-! ## The rounds end -/

/-- How high the links point. -/
def weight (id : BlockId → Nat) (order : List BlockId) (idom : IdomMap) : Nat :=
  (order.map fun b => (idom b).elim 0 fun d => id d + 1).sum

theorem weight_le (hN : Numbered g id order) (hT : Tree g id idom) :
    weight id order idom ≤ order.length * g.blocks.length := by
  unfold weight
  have : ∀ l : List BlockId, (∀ b ∈ l, g.Reach b) →
      (l.map fun b => (idom b).elim 0 fun d => id d + 1).sum ≤ l.length * g.blocks.length := by
    intro l
    induction l with
    | nil => simp
    | cons b l ih =>
      intro hl
      have hrest := ih fun x hx => hl x (List.mem_cons_of_mem _ hx)
      have hhead : ((idom b).elim 0 fun d => id d + 1) ≤ g.blocks.length := by
        cases hb : idom b with
        | none => exact Nat.zero_le _
        | some d => exact hN.bound d (hT.parent_reach b d (hl b List.mem_cons_self) hb)
      rw [List.map_cons, List.sum_cons, List.length_cons, Nat.succ_mul]
      omega
  exact this order fun b hb => (hN.mem_iff b).mp hb

theorem weight_lt (hb : b ∈ order) (h : ∀ n, idom b = some n → id n < id new) :
    weight id order idom < weight id order (Function.update idom b (some new)) := by
  have hpt : ((idom b).elim 0 fun d => id d + 1) <
      ((Function.update idom b (some new) b).elim 0 fun d => id d + 1) := by
    rw [Function.update_self]
    cases hn : idom b with
    | none => exact Nat.succ_pos _
    | some n => exact Nat.succ_lt_succ (h n hn)
  refine List.sum_lt_sum _ _ (fun x _ => ?_) ⟨b, hb, hpt⟩
  by_cases hxb : x = b
  · rw [hxb]; exact Nat.le_of_lt hpt
  · rw [Function.update_of_ne hxb]

/-- **One step of a round.** -/
theorem visitBlock_spec (hN : Numbered g id order) {fuel : Nat} (hf : 2 * id g.entry < fuel)
    (hI : Inv g id idom done) (ho : order = done ++ b :: todo) (changed : Bool) :
    (visitBlock g.toCfg id fuel (idom, changed) b = .ok (idom, changed) ∧
      Inv g id idom (done ++ [b]) ∧ Stable g idom b) ∨
    ∃ idom', visitBlock g.toCfg id fuel (idom, changed) b = .ok (idom', true) ∧
      Inv g id idom' (done ++ [b]) ∧ weight id order idom < weight id order idom' := by
  have hb := current_reach hN ho
  by_cases hne : b = g.entry
  · subst hne
    have hst : Stable g idom g.entry := fun h => absurd rfl h
    exact Or.inl ⟨if_pos rfl, hI.keep hN ho hI.entry_isSome hst, hst⟩
  · obtain ⟨a, ha, hedge, hlt⟩ := hN.parent b hb hne
    have hapre := (g.inverse a b).mp hedge
    have hsa := hI.done_isSome a ((mem_done_iff hN ho ha).mpr hlt)
    have hpre := hI.pred_reach hN ho
    obtain ⟨pred, hfind⟩ : ∃ pred, (g.pre b).find? (fun p => (idom p).isSome) = some pred :=
      Option.isSome_iff_exists.mp (List.find?_isSome.mpr ⟨a, hapre, hsa⟩)
    have hpred := List.mem_of_find?_eq_some hfind
    have hps : (idom pred).isSome := by simpa using List.find?_some hfind
    have hpr := hpre pred hpred hps
    obtain ⟨new, hr, hup, hall, hlow⟩ :=
      newIdom_spec hI.toTree hN hf hpr hps (g.pre b) pred hpre Up.refl
    have hnewr := hI.reach_up hpr hup
    have hnews := hI.isSome_up hpr hps hup
    have hbnew : id b < id new := Nat.lt_of_lt_of_le hlt (hI.le_up ha (hall a hapre hsa))
    have hrun : visitBlock g.toCfg id fuel (idom, changed) b =
        .ok (if idom b = some new then (idom, changed)
          else (Function.update idom b (some new), true)) := by
      unfold visitBlock
      rw [if_neg hne, hfind]
      show (newIdom id idom fuel pred (g.pre b) >>= _) = _
      unfold newIdom
      rw [hr]
      rfl
    rw [hrun]
    by_cases heq : idom b = some new
    · rw [if_pos heq]
      have hst : Stable g idom b := fun _ n hn => by
        rw [heq] at hn
        obtain rfl := Option.some.inj hn
        exact hall
      exact Or.inl ⟨rfl, hI.keep hN ho (by rw [heq]; rfl) hst, hst⟩
    · rw [if_neg heq]
      refine Or.inr ⟨_, rfl, ?_, weight_lt ((hN.mem_iff b).mpr hb) fun n hn => ?_⟩
      · exact hI.update hN ho hne hnewr hnews hbnew hall
          fun z hz => hlow z (hz pred hpred hps) hz
      · have hnn := hI.up_old hN ho hne hn hall
        have hnr := hI.parent_reach b n hb hn
        refine Nat.lt_of_le_of_ne (hI.le_up hnr hnn) fun hid => heq ?_
        rw [hn, hN.inj hnr hnewr hid]

/-- **One round.** -/
theorem idomPass_spec (hN : Numbered g id order) {fuel : Nat} (hf : 2 * id g.entry < fuel) :
    ∀ (todo done : List BlockId) (idom : IdomMap) (changed : Bool), order = done ++ todo →
      Inv g id idom done →
      ∃ idom' changed', todo.foldlM (visitBlock g.toCfg id fuel) (idom, changed) =
          .ok (idom', changed') ∧ Inv g id idom' order ∧
        ((idom' = idom ∧ changed' = changed ∧ ∀ b ∈ todo, Stable g idom b) ∨
          (changed' = true ∧ weight id order idom < weight id order idom'))
  | [], done, idom, changed, ho, hI => by
    rw [List.append_nil] at ho
    subst ho
    exact ⟨idom, changed, rfl, hI, Or.inl ⟨rfl, rfl, by simp⟩⟩
  | b :: todo, done, idom, changed, ho, hI => by
    have ho' : order = (done ++ [b]) ++ todo := by rw [ho, List.append_assoc]; rfl
    rw [List.foldlM_cons]
    rcases visitBlock_spec hN hf hI ho changed with ⟨hv, hI', hst⟩ | ⟨idom₁, hv, hI', hw⟩
    · obtain ⟨idom', changed', hr, hI'', h⟩ := idomPass_spec hN hf todo _ idom changed ho' hI'
      rw [hv]
      refine ⟨idom', changed', hr, hI'', h.imp (fun ⟨h1, h2, h3⟩ => ⟨h1, h2, ?_⟩) fun h => h⟩
      intro x hx
      rcases List.mem_cons.mp hx with rfl | hx
      · exact hst
      · exact h3 x hx
    · obtain ⟨idom', changed', hr, hI'', h⟩ := idomPass_spec hN hf todo _ idom₁ true ho' hI'
      rw [hv]
      refine ⟨idom', changed', hr, hI'', Or.inr ?_⟩
      rcases h with ⟨rfl, h2, -⟩ | ⟨h2, hw'⟩
      · exact ⟨h2, hw⟩
      · exact ⟨h2, Nat.lt_trans hw hw'⟩

/-- **The rounds end**, in a state in which every link is stable. -/
theorem idomLoop_spec (hN : Numbered g id order) {fuel : Nat} (hf : 2 * id g.entry < fuel) :
    ∀ (n : Nat) (idom : IdomMap), Inv g id idom [] →
      order.length * g.blocks.length - weight id order idom < n →
      ∃ idom', idomLoop g.toCfg (order, id) fuel n idom = .ok idom' ∧ Inv g id idom' order ∧
        ∀ b ∈ order, Stable g idom' b
  | 0, _, _, hn => absurd hn (Nat.not_lt_zero _)
  | n + 1, idom, hI, hn => by
    obtain ⟨idom₁, changed, hr, hI₁, h⟩ := idomPass_spec hN hf order [] idom false rfl hI
    have hle := weight_le hN hI₁.toTree
    have hpass : idomPass g.toCfg (order, id) fuel idom = .ok (idom₁, changed) := hr
    unfold idomLoop
    rw [hpass]
    show ∃ idom', (if changed = true then idomLoop g.toCfg (order, id) fuel n idom₁
      else .ok idom₁) = .ok idom' ∧ _
    rcases h with ⟨rfl, rfl, hst⟩ | ⟨rfl, hw⟩
    · rw [if_neg Bool.false_ne_true]
      exact ⟨idom₁, rfl, hI₁, hst⟩
    · rw [if_pos rfl]
      exact idomLoop_spec hN hf n idom₁ hI₁.restart (by omega)

/-! ## What the links are when the rounds end -/

theorem Inv.isSome_of_reach (hN : Numbered g id order) (hI : Inv g id idom order)
    (hb : g.Reach b) : (idom b).isSome :=
  hI.done_isSome b ((hN.mem_iff b).mpr hb)

/-- **Chains are dominators**: with every link stable, the chain of a reachable block holds
exactly its dominators. -/
theorem up_iff_dominates (hN : Numbered g id order) (hI : Inv g id idom order)
    (hst : ∀ b ∈ order, Stable g idom b) (hb : g.Reach b) :
    Up idom b z ↔ g.Dominates z b := by
  refine ⟨fun h p hp => ?_, hI.complete b z hb (hI.isSome_of_reach hN hb)⟩
  induction hp with
  | start => rw [hI.up_entry h]; exact List.mem_cons_self
  | @step a b p hw he ih =>
    have ha : g.Reach a := ⟨p, hw⟩
    have hb : g.Reach b := ha.step he
    by_cases hne : b = g.entry
    · subst hne
      rw [hI.up_entry h]
      exact List.mem_cons_self
    · by_cases hzb : z = b
      · rw [hzb]; exact List.mem_cons_self
      · obtain ⟨n, hn⟩ := Option.isSome_iff_exists.mp (hI.isSome_of_reach hN hb)
        have hup := hst b ((hN.mem_iff b).mpr hb) hne n hn a ((g.inverse a b).mp he)
          (hI.isSome_of_reach hN ha)
        exact List.mem_cons_of_mem _ (ih ha (hup.trans (h.tail hzb hn)))

/-- A stable link is the immediate dominator. -/
theorem idom_of_stable (hN : Numbered g id order) (hI : Inv g id idom order)
    (hst : ∀ b ∈ order, Stable g idom b) (hb : g.Reach b) (hne : b ≠ g.entry) :
    ∃ d, idom b = some d ∧ IDom g.Edge g.entry d b := by
  obtain ⟨d, hd⟩ := Option.isSome_iff_exists.mp (hI.isSome_of_reach hN hb)
  have hdr := hI.parent_reach b d hb hd
  have hlt := hI.lt b d hb hne hd
  refine ⟨d, hd, ⟨(up_iff_dominates hN hI hst hb).mp (Up.link hd), ?_⟩, fun z hz => ?_⟩
  · rintro rfl
    omega
  · have hup := (up_iff_dominates hN hI hst hb).mpr hz.1
    exact (up_iff_dominates hN hI hst hdr).mp (hup.tail hz.2 hd)

/-- The tree `create_idom` starts from: the entry alone. -/
theorem inv_initIdom (g : FlowGraph) (id : BlockId → Nat) (old : IdomMap) :
    Inv g id (initIdom g.toCfg old) [] := by
  have hroot : initIdom g.toCfg old g.entry = some g.entry := Function.update_self _ _ _
  have hnone : ∀ b ∈ g.blocks, b ≠ g.entry → initIdom g.toCfg old b = none := fun b hb hne => by
    unfold initIdom
    rw [Function.update_of_ne hne, if_pos hb]
  have hsome : ∀ b ∈ g.blocks, (initIdom g.toCfg old b).isSome → b = g.entry := by
    intro b hb hs
    by_contra hne
    rw [hnone b hb hne] at hs
    exact Bool.false_ne_true hs
  have hlink : ∀ b d, g.Reach b → initIdom g.toCfg old b = some d → b = g.entry ∧ d = g.entry := by
    intro b d hb hd
    obtain rfl := hsome b (g.reach_mem hb) (by rw [hd]; rfl)
    rw [hroot] at hd
    exact ⟨rfl, (Option.some.inj hd).symm⟩
  refine
    { root := hroot
      reach := fun b hb hs => ?_
      parent_reach := fun b d hb hd => ?_
      parent_isSome := fun b d hb hd => ?_
      lt := fun b d hb hne hd => absurd (hlink b d hb hd).1 hne
      done_isSome := by simp
      complete := fun b z hb hs hdom => ?_
      forward := fun b d hb hne hd => absurd (hlink b d hb hd).1 hne
      settled := by simp
      low := fun b n z hb hne hn => absurd (hlink b n hb hn).1 hne }
  · rw [hsome b hb hs]
    exact Reachable.refl
  · rw [(hlink b d hb hd).2]
    exact Reachable.refl
  · rw [(hlink b d hb hd).2, hroot]
    rfl
  · obtain rfl := hsome b (g.reach_mem hb) hs
    rw [hdom.eq_root]
    exact Up.refl

/-- Fuel that suffices for every loop of the pass. -/
def enoughFuel (g : Cfg) : Nat := g.blocks.length * g.blocks.length + 2 * g.blocks.length + 1

/-- What the later steps of the pass rely on: the final state of `create_idom`. -/
theorem createIdom_spec (g : FlowGraph) (old : IdomMap) {fuel : Nat}
    (hf : enoughFuel g.toCfg ≤ fuel) :
    ∃ num idom, createReversePostOrder g.toCfg fuel = .ok num ∧
      createIdom g.toCfg num fuel old = .ok idom ∧ Numbered g num.2 num.1 ∧
      Inv g num.2 idom num.1 ∧ ∀ b ∈ num.1, Stable g idom b := by
  unfold enoughFuel at hf
  obtain ⟨⟨order, id⟩, hnum, hN⟩ := createReversePostOrder_numbered g (show g.blocks.length ≤ fuel by omega)
  have htop : id g.entry < g.blocks.length := hN.bound g.entry Reachable.refl
  have hnd : order.Nodup := hN.sorted.imp fun {a b} h => by rintro rfl; omega
  have hlen : order.length ≤ g.blocks.length :=
    (hnd.subperm fun b hb => g.reach_mem ((hN.mem_iff b).mp hb)).length_le
  have hmul := Nat.mul_le_mul_right g.blocks.length hlen
  obtain ⟨idom, hr, hI, hst⟩ := idomLoop_spec hN (show 2 * id g.entry < fuel by omega) fuel
    (initIdom g.toCfg old) (inv_initIdom g id old) (by simp only; omega)
  exact ⟨(order, id), idom, hnum, hr, hN, hI, hst⟩

/-- **`create_reverse_post_order` and `create_idom` compute the immediate dominators.** With
enough fuel both end without a failing assertion, whatever `idom_` held before; the entry links to
itself and every other reachable block to its immediate dominator. -/
theorem createIdom_computes_idom (g : FlowGraph) (old : IdomMap) :
    ∃ fuel₀, ∀ fuel, fuel₀ ≤ fuel →
      ∃ num idom, createReversePostOrder g.toCfg fuel = .ok num ∧
        createIdom g.toCfg num fuel old = .ok idom ∧ idom g.entry = some g.entry ∧
        ∀ b, g.Reach b → b ≠ g.entry →
          ∃ d, idom b = some d ∧ IDom g.Edge g.entry d b := by
  refine ⟨enoughFuel g.toCfg, fun fuel hf => ?_⟩
  obtain ⟨num, idom, hnum, hr, hN, hI, hst⟩ := createIdom_spec g old hf
  exact ⟨num, idom, hnum, hr, hI.root, fun b hb hne => idom_of_stable hN hI hst hb hne⟩

end Cminusfc.Optimization.Dominators
