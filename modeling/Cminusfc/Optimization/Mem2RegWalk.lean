import Cminusfc.Lib.Fallible
import Cminusfc.Optimization.Mem2RegPhis

/-!
# The walk of `re_name`

What every run of `re_name` that completes does to the shape of things, whatever the values on the
stacks are.

* `Kept`: apart from the operands of users, only loads and stores of variables disappear, from the
  blocks that have been left (`closed`).
* `Unmoved`: the part of it that has nothing to do with the bodies of the blocks.
* `Lifted st st' n`: `st'` has `n v` values more than `st` on the stack of `v`.
* `enterBlock_spec`, `leaveBlock_spec`: what a call does before and after it calls itself.

About `re_name`, `src/optimization/Mem2Reg.cpp` 79-171: lines 81-140 stand in front of the calls for
the children, 146-170 behind them. Out of scope: which values are on the stacks (`Mem2RegValues`)
and whether the walk completes (`Mem2RegOrder`).
-/

namespace Cminusfc.Optimization.Mem2Reg

open Cminusfc.LightIR Dominance

/-- The variable of a phi. -/
def phiOf (g : Func) (i : InstrId) : Option Value := if isPhi g i then (g.instr i).lval else none

/-- The variable that gets a value from `i`. -/
def defOf (g : Func) (i : InstrId) : Option Value := (storeOf g i).or (phiOf g i)

/-- Operand `no` of `u` is the address of a load or a store. -/
def Address (g : Func) (u : InstrId) (no : Nat) : Prop :=
  (g.instr u).op = .load ∧ no = 0 ∨ (g.instr u).op = .store ∧ no = 1

theorem loadOf_op {g : Func} {i : InstrId} {v : Value} (h : loadOf g i = some v) :
    (g.instr i).op = .load := by
  unfold loadOf at h
  split at h <;> simp_all

theorem storeOf_op {g : Func} {i : InstrId} {v : Value} (h : storeOf g i = some v) :
    (g.instr i).op = .store := by
  unfold storeOf at h
  split at h <;> simp_all

theorem isPhi_op {g : Func} {i : InstrId} (h : isPhi g i = true) : (g.instr i).op = .phi := by
  simpa [isPhi] using h

theorem phiOf_op {g : Func} {i : InstrId} {v : Value} (h : phiOf g i = some v) :
    (g.instr i).op = .phi := by
  unfold phiOf at h
  split at h
  · exact isPhi_op ‹_›
  · cases h

theorem loadOf_eq_none {g : Func} {i : InstrId} (h : (g.instr i).op ≠ .load) :
    loadOf g i = none := by
  cases hl : loadOf g i with
  | none => rfl
  | some v => exact absurd (loadOf_op hl) h

theorem storeOf_eq_none {g : Func} {i : InstrId} (h : (g.instr i).op ≠ .store) :
    storeOf g i = none := by
  cases hs : storeOf g i with
  | none => rfl
  | some v => exact absurd (storeOf_op hs) h

theorem phiOf_eq_none {g : Func} {i : InstrId} (h : (g.instr i).op ≠ .phi) : phiOf g i = none := by
  cases hp : phiOf g i with
  | none => rfl
  | some v => exact absurd (phiOf_op hp) h

theorem defOf_of_store {g : Func} {i : InstrId} {v : Value} (h : storeOf g i = some v) :
    defOf g i = some v := by
  simp [defOf, h]

theorem defOf_of_phi {g : Func} {i : InstrId} {v : Value} (h : phiOf g i = some v) :
    defOf g i = some v := by
  simp [defOf, storeOf_eq_none (i := i) (g := g) (by simp [phiOf_op h]), h]

/-- `i` is a load or a store of a variable. -/
def access (g : Func) (i : InstrId) : Bool := (loadOf g i).isSome || (storeOf g i).isSome

theorem access_not_phi {g : Func} {i : InstrId} (h : access g i = true) : isPhi g i = false := by
  unfold access at h
  rw [Bool.or_eq_true] at h
  cases h with
  | inl h =>
    obtain ⟨v, hv⟩ := Option.isSome_iff_exists.mp h
    simp [isPhi, loadOf_op hv]
  | inr h =>
    obtain ⟨v, hv⟩ := Option.isSome_iff_exists.mp h
    simp [isPhi, storeOf_op hv]

/-- The operations, the types and the phis' variables are the same, and so are the addresses. -/
structure SameAddresses (g F : Func) : Prop where
  op : ∀ i, (F.instr i).op = (g.instr i).op
  ty : ∀ i, (F.instr i).ty = (g.instr i).ty
  lval : ∀ i, (F.instr i).lval = (g.instr i).lval
  length : ∀ i, (g.instr i).op ≠ .phi → (F.instr i).operands.length = (g.instr i).operands.length
  address : ∀ u no, Address g u no → (F.instr u).operands[no]? = (g.instr u).operands[no]?

variable {g F : Func} {closed : List BlockId} {i : InstrId} {v x : Value} {b bb : BlockId}

theorem SameAddresses.refl (g : Func) : SameAddresses g g := by
  constructor <;> simp

theorem SameAddresses.isVar (h : SameAddresses g F) (v : Value) : isVar F v = isVar g v := by
  cases v <;> simp [Mem2Reg.isVar, Func.isGep, h.op]

theorem SameAddresses.isPhi (h : SameAddresses g F) (i : InstrId) : isPhi F i = isPhi g i := by
  simp [Mem2Reg.isPhi, h.op]

theorem SameAddresses.loadOf (h : SameAddresses g F) (i : InstrId) : loadOf F i = loadOf g i := by
  unfold Mem2Reg.loadOf
  by_cases hop : (g.instr i).op = .load
  · have hlen := h.length i (by simp [hop])
    have haddr := h.address i 0 (Or.inl ⟨hop, rfl⟩)
    rw [h.op, hop]
    match hF : (F.instr i).operands, hg : (g.instr i).operands with
    | [], [] => rfl
    | [l], [l'] =>
      rw [hF, hg] at haddr
      obtain rfl : l = l' := by simpa using haddr
      simp [h.isVar]
    | _ :: _ :: _, _ :: _ :: _ => rfl
    | [], _ :: _ | _ :: _, [] | [_], _ :: _ :: _ | _ :: _ :: _, [_] =>
      rw [hF, hg] at hlen
      simp at hlen
  · rw [h.op]
    cases hcase : (g.instr i).op <;> first | exact absurd hcase hop | rfl

theorem SameAddresses.storeOf (h : SameAddresses g F) (i : InstrId) :
    storeOf F i = storeOf g i := by
  unfold Mem2Reg.storeOf
  by_cases hop : (g.instr i).op = .store
  · have hlen := h.length i (by simp [hop])
    have haddr := h.address i 1 (Or.inr ⟨hop, rfl⟩)
    rw [h.op, hop]
    match hF : (F.instr i).operands, hg : (g.instr i).operands with
    | [], [] | [_], [_] => rfl
    | [_, l], [_, l'] =>
      rw [hF, hg] at haddr
      obtain rfl : l = l' := by simpa using haddr
      simp [h.isVar]
    | _ :: _ :: _ :: _, _ :: _ :: _ :: _ => rfl
    | [], _ :: _ | _ :: _, [] | [_], _ :: _ :: _ | _ :: _ :: _, [_] | [_, _], _ :: _ :: _ :: _
    | _ :: _ :: _ :: _, [_, _] =>
      rw [hF, hg] at hlen
      simp at hlen
  · rw [h.op]
    cases hcase : (g.instr i).op <;> first | exact absurd hcase hop | rfl

theorem SameAddresses.phiOf (h : SameAddresses g F) (i : InstrId) : phiOf F i = phiOf g i := by
  unfold Mem2Reg.phiOf
  rw [h.isPhi, h.lval]

/-- No use of a load is an address. -/
def LoadUses (g F : Func) : Prop :=
  ∀ l, (g.instr l).op = .load → ∀ u ∈ F.uses (.instr l), ¬ Address g u.1 u.2

/-- What operands of users may change, and nothing else outside the bodies of the blocks. -/
structure Unmoved (g F : Func) : Prop extends SameAddresses g F where
  uses : LoadUses g F

/-- The function while `re_name` runs; the blocks `closed` have been left. -/
structure Kept (g : Func) (closed : List BlockId) (F : Func) : Prop extends SameAddresses g F where
  toCfg : F.toCfg = g.toCfg
  body : ∀ b, F.body b = if b ∈ closed then (g.body b).filter (fun i => !access g i) else g.body b
  uses : LoadUses g F

theorem Kept.unmoved (h : Kept g closed F) : Unmoved g F := ⟨h.toSameAddresses, h.uses⟩

/-! ## One edit -/

theorem setOperand_mem_uses {u : InstrId} {no : Nat} {y : Use} (h : y ∈ (F.setOperand u no x).uses v) :
    y ∈ F.uses v ∨ v = x ∧ y = (u, no) := by
  unfold Func.setOperand Func.addUse at h
  by_cases hv : v = x
  · subst hv
    simpa [Func.setInstr] using h
  · exact Or.inl (by simpa [Func.setInstr, hv] using h)

theorem foldl_setOperand_mem_uses (slots : List Use) :
    ∀ (F : Func) {y : Use}, y ∈ (slots.foldl (fun f u => f.setOperand u.1 u.2 x) F).uses v →
      y ∈ F.uses v ∨ v = x ∧ y ∈ slots := by
  induction slots with
  | nil => exact fun F y h => Or.inl h
  | cons a slots ih =>
    intro F y h
    rcases ih _ h with h | ⟨rfl, hmem⟩
    · rcases setOperand_mem_uses h with h | ⟨rfl, rfl⟩
      · exact Or.inl h
      · exact Or.inr ⟨rfl, List.mem_cons_self⟩
    · exact Or.inr ⟨rfl, List.mem_cons_of_mem _ hmem⟩

theorem Unmoved.replaceAllUseWith (h : Unmoved g F) (hi : (g.instr i).op = .load) (x : Value) :
    Unmoved g (F.replaceAllUseWith (.instr i) x) := by
  constructor
  · constructor
    · exact fun j => by rw [Func.replaceAllUseWith_instr, h.op]
    · exact fun j => by rw [Func.replaceAllUseWith_instr, h.ty]
    · exact fun j => by rw [Func.replaceAllUseWith_instr, h.lval]
    · intro j hj
      rw [Func.replaceAllUseWith_instr, ← h.length j hj]
      exact List.length_mapIdx
    · intro u no hno
      have hnot : (u, no) ∉ F.uses (.instr i) := fun hmem => h.uses i hi _ hmem hno
      rw [Func.replaceAllUseWith_instr, ← h.address u no hno]
      simp [Func.replaceSlots, List.getElem?_mapIdx, hnot]
  · intro l hl u hu
    rcases foldl_setOperand_mem_uses _ _ hu with hu | ⟨-, hu⟩
    · exact h.uses l hl u hu
    · exact h.uses i hi u hu

theorem Kept.replaceAllUseWith (h : Kept g closed F) (hi : (g.instr i).op = .load) (x : Value) :
    Kept g closed (F.replaceAllUseWith (.instr i) x) := by
  have hU := h.unmoved.replaceAllUseWith hi x
  refine ⟨hU.toSameAddresses, ?_, ?_, hU.uses⟩
  · simpa using h.toCfg
  · simpa using h.body

theorem addOperand_mem_uses {u : InstrId} {y : Use} (h : y ∈ (F.addOperand u x).uses v) :
    y ∈ F.uses v ∨ v = x ∧ y = (u, (F.instr u).operands.length) := by
  unfold Func.addOperand Func.addUse at h
  by_cases hv : v = x
  · subst hv
    simpa [Func.setInstr] using h
  · exact Or.inl (by simpa [Func.setInstr, hv] using h)

theorem addOperand_instr (F : Func) (u : InstrId) (x : Value) :
    (F.addOperand u x).instr =
      Function.update F.instr u { F.instr u with operands := (F.instr u).operands ++ [x] } := rfl

theorem Unmoved.addOperand (h : Unmoved g F) (hi : (g.instr i).op = .phi) (x : Value) :
    Unmoved g (F.addOperand i x) := by
  have hne : ∀ u no, Address g u no → u ≠ i := by
    rintro u no (⟨hop, -⟩ | ⟨hop, -⟩) rfl <;> simp [hop] at hi
  constructor
  · constructor
    · intro j
      rw [addOperand_instr, ← h.op j]
      by_cases hj : j = i
      · subst hj
        simp
      · simp [hj]
    · intro j
      rw [addOperand_instr, ← h.ty j]
      by_cases hj : j = i
      · subst hj
        simp
      · simp [hj]
    · intro j
      rw [addOperand_instr, ← h.lval j]
      by_cases hj : j = i
      · subst hj
        simp
      · simp [hj]
    · intro j hj
      have hji : j ≠ i := by
        rintro rfl
        exact hj hi
      rw [addOperand_instr, Function.update_of_ne hji, h.length j hj]
    · intro u no hno
      rw [addOperand_instr, Function.update_of_ne (hne u no hno), h.address u no hno]
  · intro l hl u hu hadd
    rcases addOperand_mem_uses hu with hu | ⟨-, rfl⟩
    · exact h.uses l hl u hu hadd
    · exact hne _ _ hadd rfl

theorem Unmoved.addPhiPairOperand (h : Unmoved g F) (hi : (g.instr i).op = .phi) (x : Value)
    (bb : BlockId) : Unmoved g (addPhiPairOperand F i x bb) :=
  (h.addOperand hi x).addOperand hi (.block bb)

theorem Kept.addPhiPairOperand (h : Kept g closed F) (hi : (g.instr i).op = .phi) (x : Value)
    (bb : BlockId) : Kept g closed (addPhiPairOperand F i x bb) := by
  have hU := h.unmoved.addPhiPairOperand hi x bb
  exact ⟨hU.toSameAddresses, h.toCfg, h.body, hU.uses⟩

theorem foldl_deleteInstr (bb : BlockId) (w : List InstrId) :
    ∀ F : Func, (w.foldl (fun f i => f.deleteInstr bb i) F).toCfg = F.toCfg ∧
      (w.foldl (fun f i => f.deleteInstr bb i) F).instr = F.instr ∧
      (∀ b, (w.foldl (fun f i => f.deleteInstr bb i) F).body b =
        if b = bb then (F.body b).filter (· ∉ w) else F.body b) ∧
      ∀ v, ∀ u ∈ (w.foldl (fun f i => f.deleteInstr bb i) F).uses v, u ∈ F.uses v := by
  induction w with
  | nil => simp
  | cons i w ih =>
    intro F
    obtain ⟨h₁, h₂, h₃, h₄⟩ := ih (F.deleteInstr bb i)
    simp only [List.foldl_cons]
    refine ⟨by rw [h₁, Func.deleteInstr_toCfg], by rw [h₂, Func.deleteInstr_instr], fun b => ?_,
      fun v u hu => (Func.mem_deleteInstr_uses F bb i).mp (h₄ v u hu) |>.1⟩
    rw [h₃, Func.deleteInstr_body]
    by_cases hb : b = bb
    · subst hb
      simp only [if_true, Function.update_self, List.filter_filter]
      refine List.filter_congr fun j _ => ?_
      simp [not_or, Bool.and_comm]
    · simp [hb]

/-! ## The stacks -/

/-- `st'` has `n v` values more on the stack of `v` than `st`. -/
def Lifted (st st' : Stacks) (n : Value → Nat) : Prop :=
  ∀ v, ∃ top, top.length = n v ∧ (st' v).getD [] = top ++ (st v).getD []

/-- How often `p` takes the value `v` in `l`. -/
def count (p : InstrId → Option Value) (l : List InstrId) (v : Value) : Nat :=
  l.countP fun i => p i = some v

theorem count_cons (p : InstrId → Option Value) (i : InstrId) (l : List InstrId) (v : Value) :
    count p (i :: l) v = count p l v + if p i = some v then 1 else 0 := by
  simp [count, List.countP_cons]

theorem count_pos {p : InstrId → Option Value} {l : List InstrId} :
    0 < count p l v ↔ ∃ i ∈ l, p i = some v := by
  simp [count, List.countP_pos_iff]

theorem count_defOf (g : Func) (l : List InstrId) (v : Value) :
    count (defOf g) l v = count (phiOf g) l v + count (storeOf g) l v := by
  induction l with
  | nil => rfl
  | cons i l ih =>
    rw [count_cons, count_cons, count_cons, ih]
    cases hs : storeOf g i with
    | none =>
      simp [defOf, hs]
      omega
    | some w =>
      have hphi : phiOf g i = none := phiOf_eq_none (by simp [storeOf_op hs])
      simp [defOf, hs, hphi]
      omega

variable {st st' st'' : Stacks} {n m : Value → Nat}

theorem Lifted.refl (st : Stacks) : Lifted st st fun _ => 0 := fun _ => ⟨[], rfl, rfl⟩

theorem Lifted.trans (h : Lifted st st' n) (h' : Lifted st' st'' m) :
    Lifted st st'' fun v => n v + m v := by
  intro v
  obtain ⟨top, hlen, htop⟩ := h v
  obtain ⟨top', hlen', htop'⟩ := h' v
  refine ⟨top' ++ top, ?_, ?_⟩
  · rw [List.length_append, hlen, hlen', Nat.add_comm]
  · rw [htop', htop, List.append_assoc]

theorem Lifted.congr (h : Lifted st st' n) (hnm : ∀ v, n v = m v) : Lifted st st' m := by
  rwa [← (funext hnm : n = m)]

theorem Lifted.push (st : Stacks) (v x : Value) :
    Lifted st (st.push v x) fun w => if some v = some w then 1 else 0 := by
  intro w
  unfold Stacks.push
  by_cases hw : w = v
  · subst hw
    exact ⟨[x], by simp, by simp⟩
  · exact ⟨[], by simp [Ne.symm hw], by simp [hw]⟩

/-- Taking off what has been pushed. -/
theorem Lifted.pop (h : Lifted st st' n) (hv : 0 < n v) :
    ∃ st'', st'.pop v = .ok st'' ∧ (∀ w, (st'' w).isSome = (st' w).isSome) ∧
      Lifted st st'' fun w => n w - if some v = some w then 1 else 0 := by
  obtain ⟨top, hlen, htop⟩ := h v
  cases top with
  | nil =>
    rw [← hlen] at hv
    exact absurd hv (Nat.lt_irrefl _)
  | cons x top =>
    have hsome : (st' v).isSome = true := by
      cases hst : st' v with
      | none => simp [hst] at htop
      | some l => rfl
    refine ⟨Function.update st' v (some (top ++ (st v).getD [])), ?_, fun w => ?_, fun w => ?_⟩
    · simp [Stacks.pop, htop]
    · by_cases hw : w = v
      · subst hw
        simp [hsome]
      · simp [hw]
    · by_cases hw : w = v
      · subst hw
        exact ⟨top, by simp [← hlen], by simp⟩
      · obtain ⟨top', hlen', htop'⟩ := h w
        exact ⟨top', by simp [hlen', Ne.symm hw], by simpa [hw] using htop'⟩

theorem push_isSome (st : Stacks) (v x w : Value) :
    (st.push v x w).isSome = true ↔ (st w).isSome = true ∨ w = v := by
  unfold Stacks.push
  by_cases hw : w = v
  · subst hw
    simp
  · simp [hw]

/-! ## The phases of one call -/

/-- The variables that have a key. -/
def HasKey (st : Stacks) (v : Value) : Prop := (st v).isSome = true

/-- Step 3. -/
theorem foldlM_pushPhi (h : SameAddresses g F) :
    ∀ (l : List InstrId), (∀ i ∈ l, isPhi g i = true → (g.instr i).lval.isSome = true) →
      ∀ st, ∃ st', l.foldlM (pushPhi F) st = .ok st' ∧ Lifted st st' (count (phiOf g) l) ∧
        ∀ v, HasKey st' v ↔ HasKey st v ∨ 0 < count (phiOf g) l v := by
  intro l
  induction l with
  | nil => exact fun _ st => ⟨st, rfl, .refl st, by simp [count]⟩
  | cons i l ih =>
    intro hl st
    obtain ⟨hi, hl⟩ := List.forall_mem_cons.mp hl
    cases hphi : isPhi g i with
    | false =>
      have hnone : phiOf g i = none := by simp [phiOf, hphi]
      obtain ⟨st', hrun, hlift, hkey⟩ := ih hl st
      refine ⟨st', ?_, hlift.congr fun v => by simp [count_cons, hnone], fun v => ?_⟩
      · rw [List.foldlM_cons]
        simpa [pushPhi, h.isPhi, hphi] using hrun
      · rw [hkey, count_cons]
        simp [hnone]
    | true =>
      obtain ⟨v, hv⟩ := Option.isSome_iff_exists.mp (hi hphi)
      have hsome : phiOf g i = some v := by simp [phiOf, hphi, hv]
      obtain ⟨st', hrun, hlift, hkey⟩ := ih hl (st.push v (.instr i))
      refine ⟨st', ?_, ((Lifted.push st v (.instr i)).trans hlift).congr fun w => ?_, fun w => ?_⟩
      · rw [List.foldlM_cons]
        simpa [pushPhi, h.isPhi, h.lval, hphi, hv] using hrun
      · rw [count_cons, hsome, Nat.add_comm]
      · rw [hkey, HasKey, push_isSome, count_cons, hsome, HasKey]
        by_cases hw : w = v
        · subst hw
          simp
        · simp [hw, Ne.symm hw]

/-- Every load of the list finds a value: one that was there, or one stored in front of it. -/
def LoadsFind (g : Func) (st : Stacks) (l : List InstrId) : Prop :=
  ∀ l₁ i l₂ v, l = l₁ ++ i :: l₂ → loadOf g i = some v →
    (st v).getD [] ≠ [] ∨ ∃ j ∈ l₁, storeOf g j = some v

/-- What steps 4 and 5 do with one instruction: from `F`, `st` and `wait_delete` to the second
three. -/
inductive Renames (g F : Func) (st : Stacks) (w : List InstrId) (i : InstrId) :
    Func → Stacks → List InstrId → Prop
  | load {v x : Value} {rest : List Value} (hi : loadOf g i = some v) (hst : st v = some (x :: rest)) :
      Renames g F st w i (F.replaceAllUseWith (.instr i) x) st (w ++ [i])
  | store {v : Value} (hi : storeOf g i = some v) :
      Renames g F st w i F (st.push v (rval F i)) (w ++ [i])
  | other (hl : loadOf g i = none) (hs : storeOf g i = none) : Renames g F st w i F st w

theorem getD_ne_nil {o : Option (List Value)} (h : o.getD [] ≠ []) : ∃ x rest, o = some (x :: rest) := by
  match o, h with
  | none, h => exact absurd rfl h
  | some [], h => exact absurd rfl h
  | some (x :: rest), _ => exact ⟨x, rest, rfl⟩

/-- Steps 4 and 5, for one instruction. -/
theorem renameInstr_step {l w : List InstrId} (hF : Kept g closed F)
    (hfind : LoadsFind g st (i :: l)) :
    ∃ F' st' w', renameInstr (⟨F, st⟩, w) i = .ok (⟨F', st'⟩, w') ∧ Renames g F st w i F' st' w' ∧
      LoadsFind g st' l := by
  have hrest : ∀ st' : Stacks, (∀ v, (st v).getD [] ≠ [] ∨ storeOf g i = some v →
      (st' v).getD [] ≠ []) → LoadsFind g st' l := by
    intro st' hst' l₁ j l₂ v hl hj
    rcases hfind (i :: l₁) j l₂ v (by rw [hl]; rfl) hj with h | ⟨k, hk, hkv⟩
    · exact Or.inl (hst' v (Or.inl h))
    · rcases List.mem_cons.mp hk with rfl | hk
      · exact Or.inl (hst' v (Or.inr hkv))
      · exact Or.inr ⟨k, hk, hkv⟩
  cases hload : loadOf g i with
  | some v =>
    have hstore : storeOf g i = none := storeOf_eq_none (by simp [loadOf_op hload])
    have hne : (st v).getD [] ≠ [] := by
      cases hfind [] i l v rfl hload with
      | inl h => exact h
      | inr h =>
        obtain ⟨j, hj, -⟩ := h
        cases hj
    obtain ⟨x, rest, hst⟩ := getD_ne_nil hne
    refine ⟨_, st, _, ?_, .load hload hst, hrest st (by simp [hstore])⟩
    simp [renameInstr, hF.loadOf, hload, hst]
  | none =>
    cases hstore : storeOf g i with
    | none =>
      refine ⟨F, st, w, ?_, .other hload hstore, hrest st (by simp [hstore])⟩
      simp [renameInstr, hF.loadOf, hF.storeOf, hload, hstore]
    | some v =>
      refine ⟨F, _, _, ?_, .store hstore, hrest _ fun u hu => ?_⟩
      · simp [renameInstr, hF.loadOf, hF.storeOf, hload, hstore]
      · by_cases huv : u = v
        · subst huv
          simp [Stacks.push]
        · rw [hstore, Option.some.injEq] at hu
          simpa [Stacks.push, huv] using hu.resolve_right (Ne.symm huv)

/-- What that means for the shape of things. -/
theorem Renames.kept {F' : Func} {w w' : List InstrId} (h : Renames g F st w i F' st' w')
    (hF : Kept g closed F) : Kept g closed F' ∧
      Lifted st st' (fun v => if storeOf g i = some v then 1 else 0) ∧
      (∀ v, HasKey st' v ↔ HasKey st v ∨ storeOf g i = some v) ∧
      w' = w ++ if access g i = true then [i] else [] := by
  cases h with
  | load hi hst =>
    have hs : storeOf g i = none := storeOf_eq_none (by simp [loadOf_op hi])
    exact ⟨hF.replaceAllUseWith (loadOf_op hi) _, (Lifted.refl st).congr (by simp [hs]), by simp [hs],
      by simp [access, hi]⟩
  | @store v hi =>
    refine ⟨hF, (Lifted.push st v _).congr (by simp [hi]), fun u => ?_, by simp [access, hi]⟩
    rw [HasKey, push_isSome, hi, HasKey, Option.some.injEq, eq_comm (a := v)]
  | other hl hs =>
    exact ⟨hF, (Lifted.refl st).congr (by simp [hs]), by simp [hs], by simp [access, hl, hs]⟩

/-- Steps 4 and 5. -/
theorem foldlM_renameInstr :
    ∀ (l : List InstrId) (F : Func) (st : Stacks) (w : List InstrId), Kept g closed F →
      LoadsFind g st l → ∃ F' st', l.foldlM renameInstr (⟨F, st⟩, w) =
          .ok (⟨F', st'⟩, w ++ l.filter (access g)) ∧ Kept g closed F' ∧
        Lifted st st' (count (storeOf g) l) ∧
        ∀ v, HasKey st' v ↔ HasKey st v ∨ 0 < count (storeOf g) l v := by
  intro l
  induction l with
  | nil => exact fun F st w hF _ => ⟨F, st, by simp [pure, Except.pure], hF, .refl st, by simp [count]⟩
  | cons i l ih =>
    intro F st w hF hfind
    obtain ⟨F₁, st₁, w₁, hstep, hren, hfind₁⟩ := renameInstr_step (w := w) hF hfind
    obtain ⟨hF₁, hlift₁, hkey₁, hw₁⟩ := hren.kept hF
    obtain ⟨F', st', hrun, hF', hlift, hkey⟩ := ih F₁ st₁ w₁ hF₁ hfind₁
    refine ⟨F', st', ?_, hF', (hlift₁.trans hlift).congr fun v => ?_, fun v => ?_⟩
    · rw [List.foldlM_cons, hstep, Fallible.ok_bind, hrun, hw₁, List.append_assoc]
      cases hacc : access g i <;> simp [hacc]
    · rw [count_cons, Nat.add_comm]
    · rw [hkey, hkey₁, count_cons]
      by_cases hv : storeOf g i = some v
      · simp [hv]
      · simp [hv]

/-- The phis of a block are those of the source, also when the block has been left. -/
theorem Kept.mem_phis (h : Kept g closed F) :
    (i ∈ F.body b ∧ isPhi F i = true) ↔ i ∈ g.body b ∧ isPhi g i = true := by
  rw [h.body, h.isPhi]
  split
  · rw [List.mem_filter]
    refine ⟨fun ⟨h₁, h₂⟩ => ⟨h₁.1, h₂⟩, fun ⟨h₁, h₂⟩ => ⟨⟨h₁, ?_⟩, h₂⟩⟩
    cases ha : access g i with
    | true =>
      rw [access_not_phi ha] at h₂
      cases h₂
    | false => rfl
  · exact Iff.rfl

theorem isPhi_of_phiOf (h : phiOf g i = some v) : isPhi g i = true := by
  by_contra hi
  simp [phiOf, hi] at h

/-- Step 6 for one phi. -/
theorem fillPhi_steps (st : Stacks) (hlval : isPhi g i = true → (g.instr i).lval.isSome = true) :
    Fallible.Steps (Kept g closed) (∀ v, phiOf g i = some v → st v ≠ some [])
      (fillPhi bb st · i) := by
  intro F hF
  simp only [fillPhi, phiOf]
  rw [hF.isPhi, hF.lval]
  cases hi : isPhi g i with
  | false =>
    simp only [Bool.false_eq_true, if_false]
    exact ⟨by simp, fun F' h => by cases h; exact hF⟩
  | true =>
    obtain ⟨v, hv⟩ := Option.isSome_iff_exists.mp (hlval hi)
    simp only [if_true, hv, Option.some.injEq, forall_eq']
    cases hst : st v with
    | none => exact ⟨by simp, fun F' h => by cases h; exact hF⟩
    | some stack =>
      cases stack with
      | nil => exact ⟨by simp, fun F' h => by cases h⟩
      | cons x rest =>
        refine ⟨by simp, fun F' h => ?_⟩
        cases h
        exact hF.addPhiPairOperand (isPhi_op hi) x bb

/-- Step 6 for one successor. -/
theorem fillSucc_steps (st : Stacks) {S : BlockId}
    (hlval : ∀ i ∈ g.body S, isPhi g i = true → (g.instr i).lval.isSome = true) :
    Fallible.Steps (Kept g closed) (∀ i ∈ g.body S, ∀ v, phiOf g i = some v → st v ≠ some [])
      (fillSucc bb st · S) := by
  intro F hF
  have hmem : ∀ i v, phiOf g i = some v → (i ∈ F.body S ↔ i ∈ g.body S) := by
    intro i v hv
    have := hF.mem_phis (b := S) (i := i)
    rw [hF.isPhi] at this
    simpa [isPhi_of_phiOf hv] using this
  have hfold : Fallible.Steps (Kept g closed)
      (∀ i ∈ F.body S, ∀ v, phiOf g i = some v → st v ≠ some [])
      (fun F' => (F.body S).foldlM (fillPhi bb st) F') :=
    Fallible.foldlM_steps fun i hi => fillPhi_steps st fun hp =>
      hlval i (hF.mem_phis.mp ⟨hi, by rw [hF.isPhi, hp]⟩).1 hp
  obtain ⟨hiff, hkeep⟩ := hfold F hF
  refine ⟨hiff.trans ?_, hkeep⟩
  exact ⟨fun h i hi v hv => h i ((hmem i v hv).mpr hi) v hv,
    fun h i hi v hv => h i ((hmem i v hv).mp hi) v hv⟩

/-- Step 7. -/
theorem foldlM_popInstr (h : SameAddresses g F) :
    ∀ (l : List InstrId), (∀ i ∈ l, isPhi g i = true → (g.instr i).lval.isSome = true) →
      ∀ st', Lifted st st' (count (defOf g) l) → ∃ st'', l.foldlM (popInstr F) st' = .ok st'' ∧
        Lifted st st'' (fun _ => 0) ∧ ∀ v, HasKey st'' v ↔ HasKey st' v := by
  intro l
  induction l with
  | nil => exact fun _ st' hl => ⟨st', rfl, hl, fun _ => Iff.rfl⟩
  | cons i l ih =>
    intro hl st' hlift
    obtain ⟨hi, hl⟩ := List.forall_mem_cons.mp hl
    have hpop : ∀ v, defOf g i = some v → popInstr F st' i = st'.pop v →
        ∃ st'', (i :: l).foldlM (popInstr F) st' = .ok st'' ∧ Lifted st st'' (fun _ => 0) ∧
          ∀ v, HasKey st'' v ↔ HasKey st' v := by
      intro v hv hstep
      obtain ⟨st₁, hst₁, hkey₁, hlift₁⟩ := hlift.pop (v := v) (by rw [count_cons, hv]; simp)
      obtain ⟨st'', hrun, hlift', hkey⟩ := ih hl st₁ (hlift₁.congr fun w => by
        rw [count_cons, hv, Nat.add_sub_cancel])
      refine ⟨st'', ?_, hlift', fun w => ?_⟩
      · rw [List.foldlM_cons, hstep, hst₁]
        exact hrun
      · rw [hkey, HasKey, hkey₁, HasKey]
    cases hs : storeOf g i with
    | some v => exact hpop v (by simp [defOf, hs]) (by simp [popInstr, h.storeOf, hs])
    | none =>
      cases hp : isPhi g i with
      | true =>
        obtain ⟨v, hv⟩ := Option.isSome_iff_exists.mp (hi hp)
        have hdef : defOf g i = some v := by simp [defOf, hs, phiOf, hp, hv]
        have hkey : (st' v).isSome = true := by
          obtain ⟨top, hlen, htop⟩ := hlift v
          rw [count_cons, hdef, if_pos rfl] at hlen
          cases hst : st' v with
          | none =>
            rw [hst, Option.getD_none] at htop
            rw [(List.append_eq_nil_iff.mp htop.symm).1] at hlen
            simp at hlen
          | some stack => rfl
        exact hpop v hdef (by simp [popInstr, h.storeOf, h.isPhi, h.lval, hs, hp, hv, hkey])
      | false =>
        have hdef : defOf g i = none := by simp [defOf, hs, phiOf, hp]
        obtain ⟨st'', hrun, hlift', hkey⟩ := ih hl st' (hlift.congr fun w => by
          simp [count_cons, hdef])
        refine ⟨st'', ?_, hlift', hkey⟩
        rw [List.foldlM_cons]
        simpa [popInstr, h.storeOf, h.isPhi, hs, hp] using hrun

/-! ## Entering and leaving a block -/

/-- Some phi or store of `b` gives `v` a value. -/
def Gives (g : Func) (v : Value) (b : BlockId) : Prop := ∃ j ∈ g.body b, defOf g j = some v

/-- What the walk relies on: the phis have variables, loads are used as values only, and every load
finds a value that was given earlier in its block or in a strict dominator. -/
structure Ready (g : Func) : Prop where
  closed : ∀ a ∈ g.blocks, ∀ b ∈ g.succ a, b ∈ g.blocks
  lval : ∀ b ∈ g.blocks, ∀ i ∈ g.body b, isPhi g i = true → (g.instr i).lval.isSome = true
  uses : LoadUses g g
  loads : ∀ b ∈ g.blocks, ∀ l₁ i l₂ v, g.body b = l₁ ++ i :: l₂ → loadOf g i = some v →
    (∃ j ∈ l₁, defOf g j = some v) ∨ ∃ a, g.StrictlyDominates a b ∧ Gives g v a

theorem Ready.kept (h : Ready g) : Kept g [] g := ⟨.refl g, rfl, by simp, h.uses⟩

theorem defOf_cases (h : defOf g i = some v) : storeOf g i = some v ∨ phiOf g i = some v := by
  unfold defOf at h
  rw [Option.or_eq_some_iff] at h
  exact h.imp id And.right

/-- With the phis pushed every load of the block finds a value. -/
theorem Ready.loadsFind (hR : Ready g) (hb : b ∈ g.blocks) {st st₁ : Stacks}
    (hlift : Lifted st st₁ (count (phiOf g) (g.body b)))
    (habove : ∀ v a, g.StrictlyDominates a b → Gives g v a → (st v).getD [] ≠ []) :
    LoadsFind g st₁ (g.body b) := by
  intro l₁ i l₂ v hl hi
  obtain ⟨top, hlen, htop⟩ := hlift v
  rcases hR.loads b hb l₁ i l₂ v hl hi with ⟨j, hj, hjv⟩ | ⟨a, ha, hav⟩
  · cases defOf_cases hjv with
    | inl hs => exact Or.inr ⟨j, hj, hs⟩
    | inr hp =>
      have hpos : 0 < count (phiOf g) (g.body b) v :=
        count_pos.mpr ⟨j, by rw [hl]; exact List.mem_append_left _ hj, hp⟩
      rw [← hlen] at hpos
      rw [htop]
      exact Or.inl (List.append_ne_nil_of_left_ne_nil (List.ne_nil_of_length_pos hpos) _)
  · rw [htop]
    exact Or.inl (List.append_ne_nil_of_right_ne_nil _ (habove v a ha hav))

/-- `re_name` up to its recursive calls. -/
theorem enterBlock_spec (hR : Ready g) (hb : b ∈ g.blocks) (hF : Kept g closed F)
    (hnot : b ∉ closed) {st : Stacks}
    (habove : ∀ v a, g.StrictlyDominates a b → Gives g v a → (st v).getD [] ≠ []) :
    ((∃ r, enterBlock b ⟨F, st⟩ = .ok r) ↔ ∀ S ∈ g.succ b, ∀ i ∈ g.body S, ∀ v,
      phiOf g i = some v → HasKey st v → (st v).getD [] ≠ [] ∨ Gives g v b) ∧
    ∀ r, enterBlock b ⟨F, st⟩ = .ok r → Kept g closed r.1.f ∧
      Lifted st r.1.varValStack (count (defOf g) (g.body b)) ∧
      (∀ v, HasKey r.1.varValStack v ↔ HasKey st v ∨ Gives g v b) ∧
      r.2 = (g.body b).filter (access g) := by
  have hbody : F.body b = g.body b := by rw [hF.body, if_neg hnot]
  obtain ⟨st₁, hpush, hlift₁, hkey₁⟩ :=
    foldlM_pushPhi hF.toSameAddresses (g.body b) (hR.lval b hb) st
  have hfind := hR.loadsFind hb hlift₁ habove
  obtain ⟨F₂, st₂, hrename, hF₂, hlift₂, hkey₂⟩ :=
    foldlM_renameInstr (g.body b) F st₁ [] hF hfind
  have hlift : Lifted st st₂ (count (defOf g) (g.body b)) :=
    (hlift₁.trans hlift₂).congr fun v => (count_defOf g (g.body b) v).symm
  have hgives : ∀ v, 0 < count (defOf g) (g.body b) v ↔ Gives g v b := fun v => count_pos
  have hkey : ∀ v, HasKey st₂ v ↔ HasKey st v ∨ Gives g v b := by
    intro v
    rw [hkey₂, hkey₁, ← hgives, count_defOf, or_assoc, Nat.add_pos_iff_pos_or_pos]
  have hempty : ∀ v, st₂ v ≠ some [] ↔ (HasKey st v → (st v).getD [] ≠ [] ∨ Gives g v b) := by
    intro v
    obtain ⟨top, hlen, htop⟩ := hlift v
    have hnil : (st₂ v).getD [] = [] ↔ ¬ Gives g v b ∧ (st v).getD [] = [] := by
      rw [htop, List.append_eq_nil_iff, ← List.length_eq_zero_iff, hlen, ← hgives,
        Nat.pos_iff_ne_zero, not_not]
    have hsome : st₂ v = some [] ↔ HasKey st₂ v ∧ (st₂ v).getD [] = [] := by
      unfold HasKey
      cases st₂ v <;> simp
    rw [ne_eq, hsome, hkey, hnil]
    tauto
  have hsteps : Fallible.Steps (Kept g closed)
      (∀ S ∈ g.succ b, ∀ i ∈ g.body S, ∀ v, phiOf g i = some v → st₂ v ≠ some [])
      (fun F' => (g.succ b).foldlM (fillSucc b st₂) F') :=
    Fallible.foldlM_steps fun S hS => fillSucc_steps st₂ fun i hi =>
      hR.lval S (hR.closed b hb S hS) i hi
  obtain ⟨hiff, hkeep⟩ := hsteps F₂ hF₂
  have hsucc : F₂.succ b = g.succ b := by rw [hF₂.toCfg]
  have henter : ∀ r, enterBlock b ⟨F, st⟩ = .ok r ↔ ∃ F₃,
      (g.succ b).foldlM (fillSucc b st₂) F₂ = .ok F₃ ∧
        r = (⟨F₃, st₂⟩, (g.body b).filter (access g)) := by
    intro r
    simp only [enterBlock, hbody, hpush, hrename, hsucc, Fallible.ok_bind, List.nil_append,
      Fallible.bind_ok, Except.ok.injEq]
    exact exists_congr fun F₃ => and_congr_right' eq_comm
  simp only [← hempty]
  refine ⟨Iff.trans ?_ hiff, fun r hr => ?_⟩
  · simp only [henter]
    exact ⟨fun ⟨r, F₃, h, _⟩ => ⟨F₃, h⟩, fun ⟨F₃, h⟩ => ⟨_, F₃, h, rfl⟩⟩
  · obtain ⟨F₃, h, rfl⟩ := (henter r).mp hr
    exact ⟨hkeep F₃ h, hlift, hkey, rfl⟩

/-- `re_name` after its recursive calls. -/
theorem leaveBlock_spec (hR : Ready g) (hb : b ∈ g.blocks) {s : St} (hF : Kept g closed s.f)
    (hnot : b ∉ closed) {st : Stacks} (hlift : Lifted st s.varValStack (count (defOf g) (g.body b))) :
    ∃ s', leaveBlock b ((g.body b).filter (access g)) s = .ok s' ∧ Kept g (b :: closed) s'.f ∧
      (∀ v, (s'.varValStack v).getD [] = (st v).getD []) ∧ ∀ v, HasKey s'.varValStack v ↔ HasKey s.varValStack v := by
  have hbody : s.f.body b = g.body b := by rw [hF.body, if_neg hnot]
  obtain ⟨st', hpop, hlift', hkey⟩ :=
    foldlM_popInstr hF.toSameAddresses (g.body b) (hR.lval b hb) s.varValStack hlift
  obtain ⟨hcfg, hinstr, hbodies, huses⟩ :=
    foldl_deleteInstr b ((g.body b).filter (access g)) s.f
  refine ⟨⟨((g.body b).filter (access g)).foldl (fun f i => f.deleteInstr b i) s.f, st'⟩, ?_, ?_,
    fun v => ?_, hkey⟩
  · simp only [leaveBlock, hbody, hpop, Fallible.ok_bind]
  · refine ⟨⟨?_, ?_, ?_, ?_, ?_⟩, hcfg.trans hF.toCfg, fun c => ?_, ?_⟩
    · exact fun i => by rw [hinstr, hF.op]
    · exact fun i => by rw [hinstr, hF.ty]
    · exact fun i => by rw [hinstr, hF.lval]
    · exact fun i hi => by rw [hinstr, hF.length i hi]
    · exact fun u no h => by rw [hinstr, hF.address u no h]
    · rw [hbodies]
      by_cases hc : c = b
      · subst hc
        rw [if_pos rfl, hbody, if_pos List.mem_cons_self]
        refine List.filter_congr fun i hi => ?_
        simp [hi]
      · rw [if_neg hc, hF.body]
        simp [hc]
    · exact fun l hl u hu => hF.uses l hl u (huses _ u hu)
  · obtain ⟨top, hlen, htop⟩ := hlift' v
    rw [htop, List.eq_nil_of_length_eq_zero hlen, List.nil_append]

end Cminusfc.Optimization.Mem2Reg
