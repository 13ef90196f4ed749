import Cminusfc.Optimization.Mem2RegComplete

/-!
# The values that reach a point

`Reaches g b pre v x`: after the instructions `pre` of block `b`, `re_name` has the value `x` for
the variable `v`: what the nearest phi or store above in the dominator tree gives it, a loaded value
being replaced by the value that reached the load. `Resolves g a x` is that replacement.

* `Reaches.unique`: there is at most one such value.
* `Reaches.avail`: the instruction that computes it stands in front of the point.
* `Reaches.down`: it is the same further down where no block on the way gives the variable a value.

About the stacks of `re_name`, `src/optimization/Mem2Reg.cpp` 79-171.
-/

namespace Cminusfc.Optimization.Mem2Reg

open Cminusfc.LightIR Dominance
open Dominators (InFrontier)

/-- The value of `v` after the instructions `pre` of `b`. -/
inductive Reaches (g : Func) : BlockId → List InstrId → Value → Value → Prop
  | above {d b : BlockId} {v x : Value} (hd : IDom g.Edge g.entry d b)
      (h : Reaches g d (g.body d) v x) : Reaches g b [] v x
  | phi {b : BlockId} {pre : List InstrId} {i : InstrId} {v : Value} (hi : phiOf g i = some v) :
      Reaches g b (pre ++ [i]) v (.instr i)
  | skip {b : BlockId} {pre : List InstrId} {i : InstrId} {v x : Value} (hi : defOf g i ≠ some v)
      (h : Reaches g b pre v x) : Reaches g b (pre ++ [i]) v x
  | store {b : BlockId} {pre : List InstrId} {i : InstrId} {v : Value} (hi : storeOf g i = some v)
      (hr : ∀ l, rval g i = .instr l → loadOf g l = none) : Reaches g b (pre ++ [i]) v (rval g i)
  | loaded {b b' : BlockId} {pre pre' post : List InstrId} {i l : InstrId} {v w x : Value}
      (hi : storeOf g i = some v) (hr : rval g i = .instr l) (hl : loadOf g l = some w)
      (hb' : b' ∈ g.blocks) (hbody : g.body b' = pre' ++ l :: post) (h : Reaches g b' pre' w x) :
      Reaches g b (pre ++ [i]) v x

/-- The value that takes the place of the operand `a`. -/
inductive Resolves (g : Func) : Value → Value → Prop
  | self {a : Value} (h : ∀ l, a = .instr l → loadOf g l = none) : Resolves g a a
  | load {b : BlockId} {pre post : List InstrId} {l : InstrId} {v x : Value}
      (hl : loadOf g l = some v) (hb : b ∈ g.blocks) (hbody : g.body b = pre ++ l :: post)
      (h : Reaches g b pre v x) : Resolves g (.instr l) x

variable {g : Func} {b c d : BlockId} {pre pre' post post' : List InstrId} {i j l : InstrId}
  {v w x y a : Value}

/-- One more instruction, in terms of the value it stores. -/
theorem Reaches.of_store (hi : storeOf g i = some v) (h : Resolves g (rval g i) x) :
    Reaches g b (pre ++ [i]) v x := by
  generalize hr : rval g i = r at h
  cases h with
  | self h => exact hr ▸ .store hi (hr ▸ h)
  | load hl hb hbody h => exact .loaded hi hr hl hb hbody h

theorem Reaches.nil_iff : Reaches g b [] v x ↔
    ∃ d, IDom g.Edge g.entry d b ∧ Reaches g d (g.body d) v x := by
  constructor
  · intro h
    generalize hp : ([] : List InstrId) = p at h
    cases h with
    | above hd h => exact ⟨_, hd, h⟩
    | phi | skip | store | loaded => simp at hp
  · rintro ⟨d, hd, h⟩
    exact .above hd h

/-- What an instruction does to the value of `v`. -/
theorem Reaches.concat_iff : Reaches g b (pre ++ [i]) v x ↔
    (defOf g i ≠ some v ∧ Reaches g b pre v x) ∨ (phiOf g i = some v ∧ x = .instr i) ∨
      (storeOf g i = some v ∧ Resolves g (rval g i) x) := by
  constructor
  · intro h
    generalize hp : pre ++ [i] = p at h
    cases h with
    | above => simp at hp
    | phi hi =>
      obtain ⟨rfl, hij⟩ := List.append_inj' hp rfl
      obtain rfl := List.singleton_inj.mp hij
      exact Or.inr (Or.inl ⟨hi, rfl⟩)
    | skip hi h =>
      obtain ⟨rfl, hij⟩ := List.append_inj' hp rfl
      obtain rfl := List.singleton_inj.mp hij
      exact Or.inl ⟨hi, h⟩
    | store hi hr =>
      obtain ⟨rfl, hij⟩ := List.append_inj' hp rfl
      obtain rfl := List.singleton_inj.mp hij
      exact Or.inr (Or.inr ⟨hi, .self hr⟩)
    | loaded hi hr hl hb' hbody h =>
      obtain ⟨rfl, hij⟩ := List.append_inj' hp rfl
      obtain rfl := List.singleton_inj.mp hij
      exact Or.inr (Or.inr ⟨hi, hr ▸ .load hl hb' hbody h⟩)
  · rintro (⟨hi, h⟩ | ⟨hi, rfl⟩ | ⟨hi, h⟩)
    · exact .skip hi h
    · exact .phi hi
    · exact .of_store hi h

theorem Resolves.self_iff (h : ∀ l, a = .instr l → loadOf g l = none) : Resolves g a x ↔ x = a := by
  constructor
  · intro hx
    cases hx with
    | self => rfl
    | load hl => rw [h _ rfl] at hl; cases hl
  · rintro rfl
    exact .self h

/-- No value that reaches a point is a load of a variable. -/
theorem Reaches.not_load (h : Reaches g b pre v x) : ∀ l, x = .instr l → loadOf g l = none := by
  induction h with
  | above _ _ ih => exact ih
  | phi hi =>
    rintro l hl
    cases hl
    exact loadOf_eq_none (by simp [phiOf_op hi])
  | skip _ _ ih => exact ih
  | store _ hr => exact hr
  | loaded _ _ _ _ _ _ ih => exact ih

theorem Resolves.not_load (h : Resolves g a x) : ∀ l, x = .instr l → loadOf g l = none := by
  cases h with
  | self h => exact h
  | load _ _ _ h => exact h.not_load

/-! ## Uniqueness -/

/-- Every instruction stands in one place, every block can be reached, and those other than the
entry have an immediate dominator. -/
structure Placing (g : Func) : Prop where
  nodup : g.instrs.Nodup
  reach : ∀ b, g.Reach b ↔ b ∈ g.blocks
  idom : ∀ b ∈ g.blocks, b ≠ g.entry → ∃ d, IDom g.Edge g.entry d b

theorem Placing.place_unique (h : Placing g) (hb : b ∈ g.blocks) (hc : c ∈ g.blocks)
    (hbody : g.body b = pre ++ i :: post) (hbody' : g.body c = pre' ++ i :: post') :
    b = c ∧ pre = pre' := by
  have hi : i ∈ g.body b := by
    rw [hbody]
    simp
  have hi' : i ∈ g.body c := by
    rw [hbody']
    simp
  have hbc : b = c := Func.block_unique h.nodup hb hc hi hi'
  subst hbc
  refine ⟨rfl, ?_⟩
  have hnd : (g.body b).Nodup := (List.nodup_flatMap.mp h.nodup).1 b hb
  have hnot : i ∉ pre ∧ i ∉ pre' := by
    constructor
    · intro hi
      rw [hbody] at hnd
      exact (List.nodup_append.mp hnd).2.2 i hi i List.mem_cons_self rfl
    · intro hi
      rw [hbody'] at hnd
      exact (List.nodup_append.mp hnd).2.2 i hi i List.mem_cons_self rfl
  rw [hbody] at hbody'
  rcases List.append_eq_append_iff.mp hbody' with ⟨l, hl, hr⟩ | ⟨l, hl, hr⟩
  · cases l with
    | nil => simpa using hl.symm
    | cons k l =>
      obtain ⟨rfl, -⟩ := List.cons.inj hr
      exact absurd (by rw [hl]; simp) hnot.2
  · cases l with
    | nil => simpa using hl
    | cons k l =>
      obtain ⟨rfl, -⟩ := List.cons.inj hr
      exact absurd (by rw [hl]; simp) hnot.1

theorem Placing.idom_mem (h : Placing g) (hd : IDom g.Edge g.entry d b) (hb : b ∈ g.blocks) :
    d ∈ g.blocks := (h.reach d).mp (hd.1.1.reachable ((h.reach b).mpr hb))

/-- **At most one value reaches a point.** -/
theorem Reaches.unique (hg : Placing g) (h : Reaches g b pre v x) (hb : b ∈ g.blocks) :
    ∀ {y}, Reaches g b pre v y → x = y := by
  induction h with
  | above hd _ ih =>
    intro y hy
    obtain ⟨d', hd', hy⟩ := Reaches.nil_iff.mp hy
    obtain rfl := IDom.unique ((hg.reach _).mpr hb) hd hd'
    exact ih (hg.idom_mem hd hb) hy
  | phi hi =>
    intro y hy
    rcases Reaches.concat_iff.mp hy with ⟨hne, -⟩ | ⟨-, rfl⟩ | ⟨hs, -⟩
    · exact absurd (defOf_of_phi hi) hne
    · rfl
    · rw [storeOf_eq_none (by simp [phiOf_op hi])] at hs
      cases hs
  | skip hi _ ih =>
    intro y hy
    rcases Reaches.concat_iff.mp hy with ⟨-, hy⟩ | ⟨hp, -⟩ | ⟨hs, -⟩
    · exact ih hb hy
    · exact absurd (defOf_of_phi hp) hi
    · exact absurd (defOf_of_store hs) hi
  | store hi hr =>
    intro y hy
    rcases Reaches.concat_iff.mp hy with ⟨hne, -⟩ | ⟨hp, -⟩ | ⟨-, hy⟩
    · exact absurd (defOf_of_store hi) hne
    · rw [phiOf_eq_none (by simp [storeOf_op hi])] at hp
      cases hp
    · exact ((Resolves.self_iff hr).mp hy).symm
  | loaded hi hr hl hb' hbody _ ih =>
    intro y hy
    rcases Reaches.concat_iff.mp hy with ⟨hne, -⟩ | ⟨hp, -⟩ | ⟨-, hy⟩
    · exact absurd (defOf_of_store hi) hne
    · rw [phiOf_eq_none (by simp [storeOf_op hi])] at hp
      cases hp
    · rw [hr] at hy
      cases hy with
      | self h =>
        rw [h _ rfl] at hl
        cases hl
      | load hl' hb'' hbody'' h =>
        obtain ⟨rfl, rfl⟩ := hg.place_unique hb' hb'' hbody hbody''
        rw [hl] at hl'
        cases hl'
        exact ih hb' h

theorem Resolves.unique (hg : Placing g) (h : Resolves g a x) (h' : Resolves g a y) : x = y := by
  cases h with
  | self h => exact ((Resolves.self_iff h).mp h').symm
  | load hl hb hbody h =>
    cases h' with
    | self h' =>
      rw [h' _ rfl] at hl
      cases hl
    | load hl' hb' hbody' h' =>
      obtain ⟨rfl, rfl⟩ := hg.place_unique hb hb' hbody hbody'
      rw [hl] at hl'
      cases hl'
      exact h.unique hg hb h'

/-- A property of the stored values and of the phis is one of every value that reaches a point. -/
theorem Reaches.rec_values {P : Value → Prop} (hg : Placing g) (h : Reaches g b pre v x)
    (hb : b ∈ g.blocks) (hpre : ∃ post, g.body b = pre ++ post)
    (hphi : ∀ i ∈ g.instrs, ∀ v, phiOf g i = some v → P (.instr i))
    (hstore : ∀ i ∈ g.instrs, ∀ v, storeOf g i = some v → P (rval g i)) : P x := by
  have hlast : ∀ {b pre} {i : InstrId}, b ∈ g.blocks → (∃ post, g.body b = pre ++ [i] ++ post) →
      i ∈ g.instrs := by
    rintro b pre i hb ⟨post, hpost⟩
    refine Func.mem_instrs hb ?_
    rw [hpost]
    simp
  induction h with
  | above hd _ ih => exact ih (hg.idom_mem hd hb) ⟨[], by simp⟩
  | phi hi => exact hphi _ (hlast hb hpre) _ hi
  | skip _ _ ih =>
    obtain ⟨post, hpost⟩ := hpre
    exact ih hb ⟨_, by rw [hpost, List.append_assoc]⟩
  | store hi _ => exact hstore _ (hlast hb hpre) _ hi
  | loaded _ _ _ hb' hbody _ ih => exact ih hb' ⟨_, hbody⟩

/-! ## Availability -/

/-- `j` stands in front of the point: earlier in the block or in a strict dominator. -/
def Avail (g : Func) (b : BlockId) (pre : List InstrId) (j : InstrId) : Prop :=
  j ∈ pre ∨ ∃ a, g.StrictlyDominates a b ∧ j ∈ g.body a

/-- The definition of an operand dominates its use. -/
def Ssa (g : Func) : Prop :=
  ∀ b ∈ g.blocks, ∀ pre i post, g.body b = pre ++ i :: post →
    ∀ j, Value.instr j ∈ (g.instr i).operands → Avail g b pre j

theorem rval_mem (h : storeOf g i = some v) : rval g i ∈ (g.instr i).operands := by
  unfold storeOf at h
  split at h
  · simp [rval, *]
  · cases h

theorem Avail.concat (h : Avail g b pre j) : Avail g b (pre ++ [i]) j :=
  h.imp (List.mem_append_left _) id

/-- What is available in a dominator is available below. -/
theorem Avail.below (hg : Placing g) (hb : b ∈ g.blocks) (hd : g.StrictlyDominates d b)
    (h : Avail g d pre' j) (hpre : ∃ post, g.body d = pre' ++ post) : Avail g b pre j := by
  cases h with
  | inl h =>
    obtain ⟨post, hbody⟩ := hpre
    refine Or.inr ⟨d, hd, ?_⟩
    rw [hbody]
    exact List.mem_append_left _ h
  | inr h =>
    obtain ⟨a, ha, hj⟩ := h
    exact Or.inr ⟨a, hd.trans_dom ((hg.reach b).mpr hb) ha.1, hj⟩

theorem Avail.trans (hg : Placing g) (hb : b ∈ g.blocks) (hpre : ∃ post, g.body b = pre ++ post)
    (h : Avail g b pre l) (hc : c ∈ g.blocks) (hbody : g.body c = pre' ++ l :: post')
    (h' : Avail g c pre' j) : Avail g b pre j := by
  have hl : l ∈ g.body c := by
    rw [hbody]
    simp
  cases h with
  | inl h =>
    -- the two stand in one block
    obtain ⟨post, hpost⟩ := hpre
    obtain ⟨s, t, hst⟩ := List.append_of_mem h
    have hbody' : g.body b = s ++ l :: (t ++ post) := by rw [hpost, hst]; simp
    obtain ⟨rfl, rfl⟩ := hg.place_unique hb hc hbody' hbody
    rw [hst]
    exact h'.imp (List.mem_append_left _) id
  | inr h =>
    obtain ⟨a, ha, hla⟩ := h
    have hab := (hg.reach a).mp (ha.1.reachable ((hg.reach b).mpr hb))
    obtain rfl := Func.block_unique hg.nodup hab hc hla hl
    exact h'.below hg hb ha ⟨_, hbody⟩

/-- **The instruction that computes a value stands in front of the points it reaches.** -/
theorem Reaches.avail (hg : Placing g) (hssa : Ssa g) (h : Reaches g b pre v x) (hb : b ∈ g.blocks)
    (hpre : ∃ post, g.body b = pre ++ post) : ∀ j, x = .instr j → Avail g b pre j := by
  induction h with
  | above hd _ ih =>
    intro j hj
    exact (ih (hg.idom_mem hd hb) ⟨[], by simp⟩ j hj).below hg hb hd.1 ⟨[], by simp⟩
  | phi hi =>
    rintro j hj
    cases hj
    exact Or.inl (by simp)
  | skip hi _ ih =>
    obtain ⟨post, hpost⟩ := hpre
    exact fun j hj => (ih hb ⟨_, by rw [hpost, List.append_assoc]⟩ j hj).concat
  | store hi hr =>
    intro j hj
    obtain ⟨post, hpost⟩ := hpre
    rw [List.append_assoc] at hpost
    exact (hssa _ hb _ _ _ hpost j (hj ▸ rval_mem hi)).concat
  | loaded hi hr hl hb' hbody _ ih =>
    intro j hj
    obtain ⟨post, hpost⟩ := hpre
    rw [List.append_assoc] at hpost
    have hav := hssa _ hb _ _ _ hpost _ (hr ▸ rval_mem hi)
    exact (hav.trans hg hb ⟨_, hpost⟩ hb' hbody (ih hb' ⟨_, hbody⟩ j hj)).concat

theorem Resolves.avail (hg : Placing g) (hssa : Ssa g) (hb : b ∈ g.blocks)
    (hpre : ∃ post, g.body b = pre ++ post) (ha : ∀ l, a = .instr l → Avail g b pre l)
    (h : Resolves g a x) : ∀ j, x = .instr j → Avail g b pre j := by
  cases h with
  | self => exact ha
  | load _ hb' hbody h =>
    exact fun j hj => (ha _ rfl).trans hg hb hpre hb' hbody (h.avail hg hssa hb' ⟨_, hbody⟩ j hj)

/-! ## Down the dominator tree -/

theorem Reaches.skip_all (h : Reaches g b pre v x) :
    ∀ {l : List InstrId}, (∀ i ∈ l, defOf g i ≠ some v) → Reaches g b (pre ++ l) v x := by
  intro l
  induction l generalizing pre with
  | nil =>
    intro _
    simpa using h
  | cons i l ih =>
    intro hl
    obtain ⟨hi, hl⟩ := List.forall_mem_cons.mp hl
    rw [List.append_cons]
    exact ih (.skip hi h) hl

theorem Reaches.strip :
    ∀ {l : List InstrId}, (∀ i ∈ l, defOf g i ≠ some v) → Reaches g b (pre ++ l) v x →
      Reaches g b pre v x := by
  intro l
  induction l generalizing pre with
  | nil =>
    intro _ h
    simpa using h
  | cons i l ih =>
    intro hl h
    obtain ⟨hi, hl⟩ := List.forall_mem_cons.mp hl
    rw [List.append_cons] at h
    rcases Reaches.concat_iff.mp (ih hl h) with ⟨-, h⟩ | ⟨hp, -⟩ | ⟨hs, -⟩
    · exact h
    · exact absurd (defOf_of_phi hp) hi
    · exact absurd (defOf_of_store hs) hi

/-- A value that reaches the end of `d` reaches the end of `b` below it when no block between gives
the variable a value. -/
theorem Reaches.down (hg : Placing g) (hb : b ∈ g.blocks) (hd : g.Dominates d b)
    (h : Reaches g d (g.body d) v x)
    (hno : ∀ e, g.Dominates e b → ¬ g.Dominates e d → ¬ Gives g v e) :
    Reaches g b (g.body b) v x := by
  have descend : ∀ n (p : List BlockId) b, p.length ≤ n → Walk g.Edge g.entry b p → b ∈ g.blocks →
      g.Dominates d b → (∀ e, g.Dominates e b → ¬ g.Dominates e d → ¬ Gives g v e) →
      Reaches g b (g.body b) v x := by
    intro n
    induction n with
    | zero =>
      intro p b hlen hp
      have := List.length_pos_of_mem hp.last_mem
      omega
    | succ n ih =>
      intro p b hlen hp hb hd hno
      by_cases hdb : d = b
      · exact hdb ▸ h
      · have hbe : b ≠ g.entry := by
          rintro rfl
          exact hdb hd.eq_root
        obtain ⟨c, hc⟩ := hg.idom b hb hbe
        obtain ⟨q, hq, hqp⟩ := hp.cut (hc.1.1 p hp)
        have hlt : q.length < p.length := by
          refine Nat.lt_of_le_of_ne hqp.length_le fun heq => ?_
          obtain rfl := hqp.eq_of_length heq
          cases hq <;> cases hp <;> exact hc.1.2 rfl
        have hrc := ih q c (by omega) hq (hg.idom_mem hc hb) (hc.2 d ⟨hd, hdb⟩)
          fun e he => hno e (he.trans hc.1.1)
        have hbd : ¬ g.Dominates b d := fun hbd =>
          hdb (Dom.antisymm ((hg.reach b).mpr hb) hd hbd)
        have hnone := hno b Dom.refl hbd
        have := (Reaches.above hc hrc).skip_all (l := g.body b) fun i hi hdef =>
          hnone ⟨i, hi, hdef⟩
        simpa using this
  obtain ⟨p, hp⟩ := (hg.reach b).mpr hb
  exact descend p.length p b (Nat.le_refl _) hp hb hd hno

end Cminusfc.Optimization.Mem2Reg
