import Cminusfc.Frontend.Builder
import Cminusfc.LightIR.UseLists
import Cminusfc.Optimization.ConstFoldCorrect

/-!
# Divisions while constants are folded

`compute_i` divides on the machine the compiler runs on. `Facts` is what forward evaluation of the
constants knows of a function as it is written: no instruction is replaced or deleted, an operand is
read through the values found so far. `DividesAll` says that no division this evaluation comes to is
undefined.

* `Mirrors`: the function while the pass runs, and the facts.
* `run_divides_iff`: the pass performs no undefined division exactly if `DividesAll` holds.
* `run_minOverMinusOne`: a division that no execution reaches stops the compiler.

About `src/optimization/ConstPropagation.cpp` 7-30 and 147-234.
-/

namespace Cminusfc.Optimization.ConstPropagation

open Cminusfc.LightIR

/-! ## Forward evaluation -/

/-- The values that stand for instructions, and what the stores of the block have left. -/
structure Facts where
  known : InstrId → Option Value := fun _ => none
  map : Map

/-- An instruction with its operands read through what is known. -/
def Facts.read (K : Facts) (x : Instr) : Instr :=
  { x with operands := x.operands.map (subst K.known) }

/-- `v` stands for `i`. -/
def Facts.learn (K : Facts) (i : InstrId) (v : Value) : Facts :=
  { K with
    known := fun j =>
      if j = i then some v else (K.known j).map fun w => if w = .instr i then v else w }

/-- Behind the instruction `i`. -/
def Facts.step (host : Host) (f : Func) (K : Facts) (i : InstrId) : Facts :=
  let x := K.read (f.instr i)
  match x.op with
  | .store => { K with map := Function.update K.map (key (operand x 1)) (some (operand x 0)) }
  | .load =>
    match K.map (key (operand x 0)) with
    | some v => K.learn i v
    | none => K
  | _ =>
    match folded host x with
    | .ok (some v) => K.learn i v
    | _ => K

/-- Behind the block `bb`. -/
def Facts.block (host : Host) (f : Func) (K : Facts) (bb : BlockId) : Facts :=
  { (f.body bb).foldl (Facts.step host f) K with map := fun _ => none }

/-- If the instruction divides two constants, C++ defines the quotient. -/
def Divisible (x : Instr) : Prop :=
  x.op = .sdiv → ∀ a ∈ castConstantInt (operand x 0), ∀ b ∈ castConstantInt (operand x 1),
    ¬ (b = 0 ∨ a = BitVec.intMin 32 ∧ b = -1)

instance (x : Instr) : Decidable (Divisible x) :=
  inferInstanceAs (Decidable (x.op = .sdiv → ∀ a ∈ castConstantInt (operand x 0),
    ∀ b ∈ castConstantInt (operand x 1), ¬ (b = 0 ∨ a = BitVec.intMin 32 ∧ b = -1)))

/-- Along the instructions of a block. -/
def DividesIn (host : Host) (f : Func) : List InstrId → Facts → Prop
  | [], _ => True
  | i :: is, K => Divisible (K.read (f.instr i)) ∧ DividesIn host f is (K.step host f i)

/-- Along the blocks of a function. -/
def DividesBlocks (host : Host) (f : Func) : List BlockId → Facts → Prop
  | [], _ => True
  | bb :: bbs, K => DividesIn host f (f.body bb) K ∧ DividesBlocks host f bbs (K.block host f bb)

/-- Along the functions of a module. -/
def DividesAll (host : Host) : List Func → Map → Prop
  | [], _ => True
  | f :: fs, map => DividesBlocks host f f.blocks { map := map } ∧ DividesAll host fs fun _ => none

instance DividesIn.decidable (host : Host) (f : Func) :
    ∀ (is : List InstrId) (K : Facts), Decidable (DividesIn host f is K)
  | [], _ => isTrue trivial
  | i :: is, K =>
    have := DividesIn.decidable host f is (K.step host f i)
    inferInstanceAs (Decidable (_ ∧ DividesIn host f is (K.step host f i)))

instance DividesBlocks.decidable (host : Host) (f : Func) :
    ∀ (bbs : List BlockId) (K : Facts), Decidable (DividesBlocks host f bbs K)
  | [], _ => isTrue trivial
  | bb :: bbs, K =>
    have := DividesBlocks.decidable host f bbs (K.block host f bb)
    inferInstanceAs (Decidable (_ ∧ DividesBlocks host f bbs (K.block host f bb)))

instance DividesAll.decidable (host : Host) :
    ∀ (fs : List Func) (map : Map), Decidable (DividesAll host fs map)
  | [], _ => isTrue trivial
  | _ :: fs, _ =>
    have := DividesAll.decidable host fs fun _ => none
    inferInstanceAs (Decidable (_ ∧ DividesAll host fs fun _ => none))

/-- A block and an instruction stand in one place, and the use lists record the operand slots. -/
structure Tidy (f : Func) : Prop where
  blocks : f.blocks.Nodup
  nodup : f.instrs.Nodup
  recorded : ∀ x ∈ f.instrs, ∀ u ∈ f.instrs, ∀ no : Nat,
    (u, no) ∈ f.uses (.instr x) ↔ (f.instr u).operands[no]? = some (.instr x)

variable {f g : Func} {K : Facts} {i u : InstrId} {v : Value} {host : Host} {x : Instr}

theorem divisible_iff (hop : x.op = .sdiv) {a b : BitVec 32} (ha : castConstantInt (operand x 0) = some a)
    (hb : castConstantInt (operand x 1) = some b) :
    Divisible x ↔ ¬ (b = 0 ∨ a = BitVec.intMin 32 ∧ b = -1) := by
  unfold Divisible
  rw [ha, hb]
  constructor
  · exact fun h => h hop a rfl b rfl
  · rintro h - _ ⟨⟩ _ ⟨⟩
    exact h

/-- The arithmetic branches return on everything but an undefined division. -/
theorem folded_divisible (host : Host) (hdiv : Divisible x) : ∃ r, folded host x = .ok r := by
  cases hop : x.op with
  | sdiv =>
    cases ha : castConstantInt (operand x 0) with
    | none => exact ⟨none, by simp [folded, hop, ha]⟩
    | some a =>
      cases hb : castConstantInt (operand x 1) with
      | none => exact ⟨none, by simp [folded, hop, ha, hb]⟩
      | some b =>
        have hdef := (divisible_iff hop ha hb).mp hdiv
        refine ⟨some (.int32 (a.sdiv b)), ?_⟩
        simp only [folded, hop, ha, hb, computeI]
        rw [if_neg hdef]
        rfl
  | add | sub | mul =>
    simp only [folded, hop, computeI]
    split <;> exact ⟨_, rfl⟩
  | fadd | fsub | fmul | fdiv =>
    simp only [folded, hop, computeF]
    split <;> exact ⟨_, rfl⟩
  | cmp | fcmp =>
    simp only [folded, hop]
    split <;> exact ⟨_, rfl⟩
  | _ =>
    simp only [folded, hop]
    exact ⟨_, rfl⟩

theorem folded_not_divisible (host : Host) (hdiv : ¬ Divisible x) :
    x.op = .sdiv ∧ folded host x = .error .undefined := by
  have hop : x.op = .sdiv := by
    by_contra hop
    exact hdiv fun h => absurd h hop
  refine ⟨hop, ?_⟩
  cases ha : castConstantInt (operand x 0) with
  | none =>
    refine absurd (fun _ a h => ?_) hdiv
    rw [ha] at h
    cases h
  | some a =>
    cases hb : castConstantInt (operand x 1) with
    | none =>
      refine absurd (fun _ _ _ b h => ?_) hdiv
      rw [hb] at h
      cases h
    | some b =>
      have hundef := not_not.mp (mt (divisible_iff hop ha hb).mpr hdiv)
      simp only [folded, hop, ha, hb, computeI]
      rw [if_pos hundef]
      rfl

/-! ## The function while the pass runs -/

/-- Instructions that nothing stands for are there, with their operands read, and the use lists of
such instructions record the slots of such instructions. -/
structure Mirrors (f : Func) (known : InstrId → Option Value) (g : Func) : Prop where
  cfg : g.toCfg = f.toCfg
  instr : ∀ u ∈ f.instrs, known u = none →
    g.instr u = { f.instr u with operands := (f.instr u).operands.map (subst known) }
  uses : ∀ x ∈ f.instrs, known x = none → ∀ u ∈ f.instrs, known u = none → ∀ no : Nat,
    (u, no) ∈ g.uses (.instr x) ↔ (g.instr u).operands[no]? = some (.instr x)

theorem Tidy.mirrors (h : Tidy f) : Mirrors f (fun _ => none) f where
  cfg := rfl
  instr u _ _ := by
    have hid : subst (fun _ => none) = id := by
      funext a
      cases a <;> rfl
    simp [hid]
  uses x hx _ u hu _ no := h.recorded x hx u hu no

theorem learn_eq_none {j : InstrId} (h : (K.learn i v).known j = none) :
    j ≠ i ∧ K.known j = none := by
  by_cases hj : j = i
  · simp [Facts.learn, hj] at h
  · simpa [Facts.learn, hj] using h

/-- The value that stands for an operand after one more is known. -/
theorem subst_learn (hi : K.known i = none) (a : Value) :
    subst (K.learn i v).known a =
      if subst K.known a = .instr i then v else subst K.known a := by
  cases a with
  | instr j =>
    by_cases hj : j = i
    · subst hj
      simp [subst, Facts.learn, hi]
    · simp only [subst, Facts.learn, hj, if_false]
      rcases Option.eq_none_or_eq_some (K.known j) with hc | ⟨w, hc⟩
      · simp [hc, hj]
      · simp [hc]
  | _ => simp [subst]

/-- `replace_all_use_with`, whatever takes the place of the instruction. -/
theorem Mirrors.replace (h : Mirrors f K.known g) (hi : i ∈ f.instrs) (hnone : K.known i = none)
    (v : Value) : Mirrors f (K.learn i v).known (g.replaceAllUseWith (.instr i) v) := by
  have hslots : ∀ u ∈ f.instrs, K.known u = none → ∀ no : Nat,
      ((g.replaceAllUseWith (.instr i) v).instr u).operands[no]? =
        ((g.instr u).operands[no]?).map fun a => if a = .instr i then v else a := by
    intro u hu hu' no
    rw [Func.replaceAllUseWith_instr, Func.replaceSlots, List.getElem?_mapIdx]
    cases hno : (g.instr u).operands[no]? with
    | none => rfl
    | some a =>
      have hmem := h.uses i hi hnone u hu hu' no
      rw [hno, Option.some_inj] at hmem
      simp only [Option.map_some, hmem]
  refine ⟨(Func.replaceAllUseWith_toCfg g _ _).trans h.cfg, fun u hu hu' => ?_,
    fun y hy hy' u hu hu' no => ?_⟩
  · obtain ⟨-, hold⟩ := learn_eq_none hu'
    have hops : ((g.replaceAllUseWith (.instr i) v).instr u).operands =
        (f.instr u).operands.map (subst (K.learn i v).known) := by
      apply List.ext_getElem?
      intro no
      rw [hslots u hu hold, h.instr u hu hold, List.getElem?_map, List.getElem?_map, Option.map_map]
      congr 1
      funext a
      exact (subst_learn hnone a).symm
    rw [Func.replaceAllUseWith_instr] at hops ⊢
    rw [h.instr u hu hold] at hops ⊢
    exact congrArg (fun l => ({ f.instr u with operands := l } : Instr)) hops
  · obtain ⟨hyi, hy'⟩ := learn_eq_none hy'
    obtain ⟨-, hu'⟩ := learn_eq_none hu'
    rw [Func.mem_replaceAllUseWith_uses, h.uses y hy hy' u hu hu', h.uses i hi hnone u hu hu',
      hslots u hu hu']
    cases (g.instr u).operands[no]? with
    | none => simp
    | some a =>
      by_cases ha : a = .instr i
      · subst ha
        simp [Ne.symm hyi, eq_comm]
      · simp [ha]

/-- Dropping the uses by an instruction that something stands for. -/
theorem Mirrors.drop (h : Mirrors f K.known g) (hi : (K.known i).isSome = true) {g' : Func}
    (hcfg : g'.toCfg = g.toCfg) (hinstr : g'.instr = g.instr)
    (huses : ∀ w x, x ∈ g'.uses w ↔ x ∈ g.uses w ∧ (w ∈ (g.instr i).operands → x.1 ≠ i)) :
    Mirrors f K.known g' := by
  refine ⟨hcfg.trans h.cfg, fun u hu hu' => by rw [hinstr, h.instr u hu hu'],
    fun y hy hy' u hu hu' no => ?_⟩
  rw [huses, hinstr, h.uses y hy hy' u hu hu']
  refine and_iff_left fun _ hui => ?_
  obtain rfl : u = i := hui
  rw [hu'] at hi
  cases hi

/-- The entries of `delete_list` that belong to the function, in one of its blocks. -/
theorem Mirrors.foldl_deleteInstr (bb : BlockId) : ∀ (l : List InstrId) (g : Func),
    Mirrors f K.known g → (∀ i ∈ l, (K.known i).isSome = true) →
    Mirrors f K.known (l.foldl (fun g i => g.deleteInstr bb i) g) ∧
      ∀ b, b ≠ bb → (l.foldl (fun g i => g.deleteInstr bb i) g).body b = g.body b := by
  intro l
  induction l with
  | nil => exact fun g h _ => ⟨h, fun _ _ => rfl⟩
  | cons i l ih =>
    intro g h hl
    have hdel : Mirrors f K.known (g.deleteInstr bb i) :=
      h.drop (hl i List.mem_cons_self) (g.deleteInstr_toCfg bb i) (g.deleteInstr_instr bb i)
        fun w x => Func.mem_deleteInstr_uses (f := g) bb i (w := w) (x := x)
    obtain ⟨h', hbody⟩ := ih _ hdel fun j hj => hl j (List.mem_cons_of_mem _ hj)
    refine ⟨h', fun b hb => (hbody b hb).trans ?_⟩
    rw [Func.deleteInstr_body, Function.update_of_ne hb]

/-! ## One block -/

theorem learn_isSome {j : InstrId} (h : (K.known j).isSome = true) :
    ((K.learn i v).known j).isSome = true := by
  by_cases hj : j = i
  · simp [Facts.learn, hj]
  · simpa [Facts.learn, hj] using h

/-- A step learns the value of its instruction, or nothing. -/
theorem step_known (host : Host) (f : Func) (K : Facts) (i : InstrId) : (K.step host f i).known = K.known ∨
    ∃ v, (K.step host f i).known = (K.learn i v).known := by
  simp only [Facts.step]
  split
  · exact Or.inl rfl
  · split
    · exact Or.inr ⟨_, rfl⟩
    · exact Or.inl rfl
  · split
    · exact Or.inr ⟨_, rfl⟩
    · exact Or.inl rfl

theorem step_isSome {j : InstrId} (h : (K.known j).isSome = true) :
    ((K.step host f i).known j).isSome = true := by
  rcases step_known host f K i with hk | ⟨v, hk⟩ <;> rw [hk]
  · exact h
  · exact learn_isSome h

theorem step_none {j : InstrId} (hj : j ≠ i) (h : K.known j = none) :
    (K.step host f i).known j = none := by
  rcases step_known host f K i with hk | ⟨v, hk⟩ <;> rw [hk]
  · exact h
  · simp [Facts.learn, hj, h]

theorem foldl_step_isSome {j : InstrId} : ∀ (is : List InstrId) (K : Facts),
    (K.known j).isSome = true → ((is.foldl (Facts.step host f) K).known j).isSome = true
  | [], _, h => h
  | _ :: is, _, h => foldl_step_isSome is _ (step_isSome h)

theorem foldl_step_none {j : InstrId} : ∀ (is : List InstrId) (K : Facts), j ∉ is →
    K.known j = none → (is.foldl (Facts.step host f) K).known j = none
  | [], _, _, h => h
  | i :: is, _, hj, h => by
    obtain ⟨hne, hj⟩ := List.ne_and_not_mem_of_not_mem_cons hj
    exact foldl_step_none is _ hj (step_none hne h)

theorem step_folded {r : Option Value} (hst : (K.read (f.instr i)).op ≠ .store)
    (hld : (K.read (f.instr i)).op ≠ .load) (h : folded host (K.read (f.instr i)) = .ok r) :
    K.step host f i = r.elim K (K.learn i) := by
  cases hop : (K.read (f.instr i)).op with
  | store => exact absurd hop hst
  | load => exact absurd hop hld
  | _ =>
    simp only [Facts.step, hop, h]
    cases r <;> rfl

theorem visitInstr_folded {t : St} {r : Option Value} (hst : (t.f.instr i).op ≠ .store)
    (hld : (t.f.instr i).op ≠ .load) (h : folded host (t.f.instr i) = .ok r) :
    visitInstr host t i = .ok (r.elim t (t.replace i)) := by
  cases hop : (t.f.instr i).op with
  | store => exact absurd hop hst
  | load => exact absurd hop hld
  | _ =>
    simp only [visitInstr, hop, h]
    cases r <;> rfl

/-- The pass inside a block, and the facts. -/
structure Follows (f : Func) (K : Facts) (t : St) : Prop where
  mirrors : Mirrors f K.known t.f
  map : t.map = K.map
  listed : ∀ i ∈ t.deleteList, (K.known i).isSome = true

theorem Follows.replace {t : St} (h : Follows f K t) (hi : i ∈ f.instrs) (hnone : K.known i = none)
    (v : Value) : Follows f (K.learn i v) (t.replace i v) where
  mirrors := h.mirrors.replace hi hnone v
  map := h.map
  listed j hj := by
    rcases List.mem_append.mp hj with hj | hj
    · exact learn_isSome (h.listed j hj)
    · obtain rfl := List.mem_singleton.mp hj
      simp [Facts.learn]

/-- **One instruction.** -/
theorem Follows.visitInstr (host : Host) {t : St} (h : Follows f K t) (hi : i ∈ f.instrs) (hnone : K.known i = none) :
    (Divisible (K.read (f.instr i)) → ∃ t', visitInstr host t i = .ok t' ∧
      Follows f (K.step host f i) t' ∧ t'.f.body = t.f.body) ∧
    (¬ Divisible (K.read (f.instr i)) → visitInstr host t i = .error .undefined) := by
  have hx : t.f.instr i = K.read (f.instr i) := h.mirrors.instr i hi hnone
  have hbody : ∀ v, (t.replace i v).f.body = t.f.body := fun v =>
    Func.replaceAllUseWith_body t.f (.instr i) v
  constructor
  · intro hdiv
    by_cases hst : (K.read (f.instr i)).op = .store
    · simp only [ConstPropagation.visitInstr, Facts.step, hx, h.map, hst]
      exact ⟨_, rfl, ⟨h.mirrors, rfl, h.listed⟩, rfl⟩
    · by_cases hld : (K.read (f.instr i)).op = .load
      · simp only [ConstPropagation.visitInstr, Facts.step, hx, h.map, hld]
        cases K.map (key (operand (K.read (f.instr i)) 0)) with
        | none => exact ⟨t, rfl, h, rfl⟩
        | some v => exact ⟨_, rfl, h.replace hi hnone v, hbody v⟩
      · obtain ⟨r, hr⟩ := folded_divisible host hdiv
        rw [visitInstr_folded (hx ▸ hst) (hx ▸ hld) (hx ▸ hr), step_folded hst hld hr]
        cases r with
        | none => exact ⟨t, rfl, h, rfl⟩
        | some v => exact ⟨_, rfl, h.replace hi hnone v, hbody v⟩
  · intro hdiv
    obtain ⟨hop, hf⟩ := folded_not_divisible host hdiv
    simp only [ConstPropagation.visitInstr, hx, hop, hf]

/-- **The instructions of a block.** -/
theorem Follows.foldlM (host : Host) : ∀ (is : List InstrId) (K : Facts) (t : St), Follows f K t →
    is.Nodup → (∀ i ∈ is, i ∈ f.instrs ∧ K.known i = none) →
    (DividesIn host f is K → ∃ t', is.foldlM (ConstPropagation.visitInstr host) t = .ok t' ∧
      Follows f (is.foldl (Facts.step host f) K) t' ∧ t'.f.body = t.f.body) ∧
    (¬ DividesIn host f is K →
      is.foldlM (ConstPropagation.visitInstr host) t = .error .undefined) := by
  intro is
  induction is with
  | nil => exact fun K t h _ _ => ⟨fun _ => ⟨t, rfl, h, rfl⟩, fun hd => absurd trivial hd⟩
  | cons i is ih =>
    intro K t h hnd hfresh
    obtain ⟨hni, hnd⟩ := List.nodup_cons.mp hnd
    obtain ⟨⟨hi, hnone⟩, hfresh⟩ := List.forall_mem_cons.mp hfresh
    obtain ⟨hok, herr⟩ := h.visitInstr host hi hnone
    by_cases hdiv : Divisible (K.read (f.instr i))
    · obtain ⟨t₁, h₁, hf₁, hb₁⟩ := hok hdiv
      have hfresh₁ : ∀ j ∈ is, j ∈ f.instrs ∧ (K.step host f i).known j = none := fun j hj =>
        ⟨(hfresh j hj).1, step_none (by rintro rfl; exact hni hj) (hfresh j hj).2⟩
      obtain ⟨hok', herr'⟩ := ih _ t₁ hf₁ hnd hfresh₁
      simp only [List.foldlM_cons, h₁, Fallible.ok_bind, DividesIn, hdiv, true_and, List.foldl_cons]
      refine ⟨fun hd => ?_, herr'⟩
      obtain ⟨t', h', hf', hb'⟩ := hok' hd
      exact ⟨t', h', hf', hb'.trans hb₁⟩
    · simp only [List.foldlM_cons, herr hdiv, DividesIn, hdiv, false_and]
      exact ⟨fun hd => absurd hd id, fun _ => rfl⟩

/-! ## One function -/

/-- In front of the blocks `bbs` of the function number `k`, which has been `f`. -/
structure Sees (fs : List Func) (k : Nat) (f : Func) (bbs : List BlockId) (K : Facts)
    (s : RunSt) : Prop where
  found : ∃ g, s.functions[k]? = some g ∧ Mirrors f K.known g ∧ ∀ b ∈ bbs, g.body b = f.body b
  map : s.map = K.map
  fresh : ∀ b ∈ bbs, ∀ i ∈ f.body b, K.known i = none
  listed : ∀ d ∈ s.deleteList, d.1 ≤ k ∧ (d.1 = k → (K.known d.2).isSome = true)
  later : ∀ n, k < n → s.functions[n]? = fs[n]?

variable {fs : List Func} {k : Nat} {bb : BlockId} {bbs : List BlockId} {s : RunSt}

/-- **One block.** -/
theorem Sees.visitBlock (host : Host) (h : Sees fs k f (bb :: bbs) K s) (hin : Tidy f)
    (hsub : ∀ b ∈ bb :: bbs, b ∈ f.blocks) (hnd : (bb :: bbs).Nodup) :
    (DividesIn host f (f.body bb) K → ∃ s', visitBlock host k s bb = .ok s' ∧
      Sees fs k f bbs (K.block host f bb) s') ∧
    (¬ DividesIn host f (f.body bb) K → visitBlock host k s bb = .error .undefined) := by
  obtain ⟨g, hg, hmir, hbody⟩ := h.found
  obtain ⟨hbb, hsub⟩ := List.forall_mem_cons.mp hsub
  obtain ⟨hnb, -⟩ := List.nodup_cons.mp hnd
  have hbodyNodup : (f.body bb).Nodup := (List.nodup_flatMap.mp hin.nodup).1 bb hbb
  have hfresh : ∀ i ∈ f.body bb, i ∈ f.instrs ∧ K.known i = none := fun i hi =>
    ⟨Func.mem_instrs hbb hi, h.fresh bb List.mem_cons_self i hi⟩
  have hstart : Follows f K ⟨g, s.map, []⟩ := ⟨hmir, h.map, by simp⟩
  obtain ⟨hok, herr⟩ := Follows.foldlM host (f.body bb) K _ hstart hbodyNodup hfresh
  simp only [ConstPropagation.visitBlock, hg, visitBody, hbody bb List.mem_cons_self]
  constructor
  · intro hd
    obtain ⟨t, ht, hft, htb⟩ := hok hd
    rw [ht]
    refine ⟨_, rfl, ?_⟩
    have hlisted : ∀ d ∈ s.deleteList ++ t.deleteList.map fun i => (k, i),
        d.1 ≤ k ∧ (d.1 = k → ((K.block host f bb).known d.2).isSome = true) := by
      intro d hd
      rcases List.mem_append.mp hd with hd | hd
      · obtain ⟨hle, hk⟩ := h.listed d hd
        exact ⟨hle, fun he => foldl_step_isSome (f.body bb) K (hk he)⟩
      · obtain ⟨i, hi, rfl⟩ := List.mem_map.mp hd
        exact ⟨Nat.le_refl k, fun _ => hft.listed i hi⟩
    obtain ⟨hmir', hbody'⟩ := Mirrors.foldl_deleteInstr (K := K.block host f bb) bb
      (((s.deleteList ++ t.deleteList.map fun i => (k, i)).filter fun d => d.1 = k).map Prod.snd)
      t.f hft.mirrors fun i hi => by
        obtain ⟨d, hd, rfl⟩ := List.mem_map.mp hi
        obtain ⟨hd, hdk⟩ := List.mem_filter.mp hd
        exact (hlisted d hd).2 (by simpa using hdk)
    refine ⟨⟨_, ?_, hmir', fun b hb => ?_⟩, rfl, fun b hb i hi => ?_, hlisted, fun n hn => ?_⟩
    · rw [foldl_deleteIn, List.getElem?_set_self (List.getElem?_eq_some_iff.mp hg).1]
      simp only [if_true, Option.map_some]
    · have hne : b ≠ bb := by
        rintro rfl
        exact hnb hb
      rw [hbody' b hne, htb]
      exact hbody b (List.mem_cons_of_mem _ hb)
    · refine foldl_step_none (f.body bb) K (fun hmem => ?_) (h.fresh b (List.mem_cons_of_mem _ hb) i hi)
      exact hnb (Func.block_unique hin.nodup (hsub b hb) hbb hi hmem ▸ hb)
    · have hnone : (s.deleteList ++ t.deleteList.map fun i => (k, i)).filter
          (fun d => d.1 = n) = [] := by
        refine List.filter_eq_nil_iff.mpr fun d hd => ?_
        have := (hlisted d hd).1
        simp only [decide_eq_true_eq]
        omega
      rw [foldl_deleteIn, hnone, List.getElem?_set_ne (Nat.ne_of_lt hn), h.later n hn]
      cases fs[n]? <;> rfl
  · intro hd
    rw [herr hd]

/-- **The blocks of a function.** -/
theorem Sees.foldlM (host : Host) (hin : Tidy f) : ∀ (bbs : List BlockId) (K : Facts) (s : RunSt),
    Sees fs k f bbs K s → (∀ b ∈ bbs, b ∈ f.blocks) → bbs.Nodup →
    (DividesBlocks host f bbs K → ∃ s', bbs.foldlM (ConstPropagation.visitBlock host k) s = .ok s' ∧
      Sees fs k f [] (bbs.foldl (Facts.block host f) K) s') ∧
    (¬ DividesBlocks host f bbs K →
      bbs.foldlM (ConstPropagation.visitBlock host k) s = .error .undefined) := by
  intro bbs
  induction bbs with
  | nil => exact fun K s h _ _ => ⟨fun _ => ⟨s, rfl, h⟩, fun hd => absurd trivial hd⟩
  | cons bb bbs ih =>
    intro K s h hsub hnd
    obtain ⟨hok, herr⟩ := h.visitBlock host hin hsub hnd
    by_cases hdiv : DividesIn host f (f.body bb) K
    · obtain ⟨s₁, h₁, hs₁⟩ := hok hdiv
      simp only [List.foldlM_cons, h₁, Fallible.ok_bind, DividesBlocks, hdiv, true_and,
        List.foldl_cons]
      exact ih _ s₁ hs₁ (fun b hb => hsub b (List.mem_cons_of_mem _ hb)) (List.nodup_cons.mp hnd).2
    · simp only [List.foldlM_cons, herr hdiv, DividesBlocks, hdiv, false_and]
      exact ⟨fun hd => absurd hd id, fun _ => rfl⟩

/-! ## The module -/

/-- Behind a block the map is empty. -/
theorem foldl_block_map : ∀ (bbs : List BlockId) (K : Facts), bbs ≠ [] →
    (bbs.foldl (Facts.block host f) K).map = fun _ => none := by
  intro bbs K hne
  obtain ⟨pre, bb, rfl⟩ := List.eq_nil_or_concat' bbs |>.resolve_left hne
  rw [List.foldl_append]
  rfl

/-- **The functions from number `k` on.** -/
theorem foldlM_visitFunction (host : Host) (fs : List Func) : ∀ (rest : List Func) (k : Nat) (s : RunSt),
    fs.drop k = rest → (∀ f ∈ rest, Tidy f) → (∀ n, k ≤ n → s.functions[n]? = fs[n]?) →
    (∀ d ∈ s.deleteList, d.1 < k) →
    (DividesAll host rest s.map →
      ∃ s', (List.range' k rest.length).foldlM (visitFunction host) s = .ok s') ∧
    (¬ DividesAll host rest s.map →
      (List.range' k rest.length).foldlM (visitFunction host) s = .error .undefined) := by
  intro rest
  induction rest with
  | nil => exact fun k s _ _ _ _ => ⟨fun _ => ⟨s, rfl⟩, fun hd => absurd trivial hd⟩
  | cons f rest ih =>
    intro k s hdrop hin hsame hlist
    obtain ⟨hf, hin⟩ := List.forall_mem_cons.mp hin
    have hk : fs[k]? = some f := by
      have := congrArg (fun l : List Func => l[0]?) hdrop
      simpa using this
    have hrest : fs.drop (k + 1) = rest := by
      rw [← List.tail_drop, hdrop, List.tail_cons]
    have hsk : s.functions[k]? = some f := (hsame k (Nat.le_refl k)).trans hk
    have hstart : Sees fs k f f.blocks { map := s.map } s :=
      ⟨⟨f, hsk, hf.mirrors, fun _ _ => rfl⟩, rfl, fun _ _ _ _ => rfl,
        fun d hd => ⟨Nat.le_of_lt (hlist d hd), fun he => absurd he (Nat.ne_of_lt (hlist d hd))⟩,
        fun n hn => hsame n (Nat.le_of_lt hn)⟩
    obtain ⟨hok, herr⟩ := Sees.foldlM host hf f.blocks _ s hstart (fun _ h => h)
      hf.blocks
    simp only [List.length_cons, List.range'_succ, List.foldlM_cons, visitFunction, hsk, DividesAll]
    by_cases hdiv : DividesBlocks host f f.blocks { map := s.map }
    · obtain ⟨s₁, h₁, hs₁⟩ := hok hdiv
      have hmap : s₁.map = fun _ => none := hs₁.map.trans (foldl_block_map _ _ (List.cons_ne_nil _ _))
      rw [h₁]
      simp only [Fallible.ok_bind, hdiv, true_and, ← hmap]
      exact ih (k + 1) s₁ hrest hin (fun n hn => hs₁.later n hn) fun d hd =>
        Nat.lt_succ_of_le (hs₁.listed d hd).1
    · rw [herr hdiv]
      simp only [hdiv, false_and]
      exact ⟨fun hd => absurd hd id, fun _ => rfl⟩

/-- The outcome of the pass. -/
theorem run_outcome (host : Host) {m : Module} (hin : ∀ f ∈ m.functions, Tidy f) :
    (DividesAll host m.functions (initMap m) → ∃ m', run host m = .ok m') ∧
      (¬ DividesAll host m.functions (initMap m) → run host m = .error .undefined) := by
  obtain ⟨hok, herr⟩ := foldlM_visitFunction host m.functions m.functions 0
    ⟨m.functions, initMap m, []⟩ rfl hin (fun _ _ => rfl) (by simp)
  rw [← List.range_eq_range'] at hok herr
  refine ⟨fun hd => ?_, fun hd => ?_⟩
  · obtain ⟨s', hs'⟩ := hok hd
    exact ⟨{ m with functions := s'.functions }, by simp only [run, hs', Fallible.ok_bind]⟩
  · simp only [run, herr hd]
    rfl

/-- **The pass performs no undefined division, and returns, exactly if forward evaluation comes to
none**; otherwise the compiler performs one. -/
theorem run_divides_iff (host : Host) {m : Module} (hin : ∀ f ∈ m.functions, Tidy f) :
    (run host m ≠ .error .undefined ↔ DividesAll host m.functions (initMap m)) ∧
      ((∃ m', run host m = .ok m') ↔ DividesAll host m.functions (initMap m)) := by
  obtain ⟨hok, herr⟩ := run_outcome host hin
  by_cases hdiv : DividesAll host m.functions (initMap m)
  · obtain ⟨m', hm'⟩ := hok hdiv
    simp [hm', hdiv]
  · simp [herr hdiv, hdiv]

/-! ## A division that no execution reaches

`int main(void) { if (0) output((0 - 2147483647 - 1) / (0 - n)); return 0; }`, as the front end
emits it: undefined for `n = 1`, defined for `n = 2`. -/

section Unreached

open Cminusfc.Frontend

def int (n : BitVec 32) : Ast .term := .factor (.intNum n)

/-- `(0 - 2147483647 - 1) / (0 - 1)`. -/
def minOverMinusOne : Ast .expression :=
  .simple (.term (.multiplicative
    (.factor (.group (.simple
      (.additive (.additive (.term (int 0)) .minus (int 2147483647)) .minus (int 1)))))
    .div (.group (.simple (.additive (.term (int 0)) .minus (int 1))))))

/-- The source. -/
def unreached : List Declaration :=
  [.fn ⟨.int, "main", [], [],
    .stmt (.selectionStmt (.simple (.term (int 0))) (.expressionStmt
      (.simple (.term (.factor (.call "output" (.arg minOverMinusOne .noArgs)))))))
    (.stmt (.returnStmt (.simple (.term (int 0)))) .noStmts)⟩]

def unreachedInstr (n : BitVec 32) (i : InstrId) : Instr := match i with
  | 0 => { op := .alloca, ty := .pointer .int32, operands := [], parent := 0 }
  | 1 => { op := .cmp, ty := .int1, operands := [.int32 0, .int32 0], parent := 0, cmpOp := .NE }
  | 2 => { op := .br, ty := .void, operands := [.instr 1, .block 1, .block 2], parent := 0 }
  | 3 => { op := .sub, ty := .int32, operands := [.int32 0, .int32 2147483647], parent := 1 }
  | 4 => { op := .sub, ty := .int32, operands := [.instr 3, .int32 1], parent := 1 }
  | 5 => { op := .sub, ty := .int32, operands := [.int32 0, .int32 n], parent := 1 }
  | 6 => { op := .sdiv, ty := .int32, operands := [.instr 4, .instr 5], parent := 1 }
  | 7 => { op := .call, ty := .void, operands := [.function "output", .instr 6], parent := 1 }
  | 8 => { op := .br, ty := .void, operands := [.block 2], parent := 1 }
  | 9 => { op := .store, ty := .void, operands := [.int32 0, .instr 0], parent := 2 }
  | 10 => { op := .load, ty := .int32, operands := [.instr 0], parent := 2 }
  | _ => { op := .ret, ty := .void, operands := [.instr 10], parent := 2 }

/-- `main`. -/
def unreachedMain (n : BitVec 32) : Func where
  entry := 0
  rest := [1, 2]
  pre bb := match bb with
    | 1 => [0]
    | 2 => [0, 1]
    | _ => []
  succ bb := match bb with
    | 0 => [2, 1]
    | 1 => [2]
    | _ => []
  name := "main"
  retTy := .int32
  body bb := match bb with
    | 0 => [0, 1, 2]
    | 1 => [3, 4, 5, 6, 7, 8]
    | 2 => [9, 10, 11]
    | _ => []
  instr := unreachedInstr n
  uses := Func.slotsOf (unreachedInstr n) (List.range 12)
  next := 12

theorem unreachedMain_instrs (n : BitVec 32) : (unreachedMain n).instrs = List.range 12 := rfl

theorem unreachedMain_tidy (n : BitVec 32) : Tidy (unreachedMain n) where
  blocks := (by decide : ([0, 1, 2] : List BlockId).Nodup)
  nodup := by
    rw [unreachedMain_instrs]
    exact List.nodup_range
  recorded := by
    rw [unreachedMain_instrs]
    exact fun x _ u hu no => Func.mem_slotsOf.trans (and_iff_right hu)

/-- The theorem at `n = 2`: every fold is defined, and the pass returns. -/
theorem run_divides_iff_unreached :
    ((run someHost { functions := [unreachedMain 2] } ≠ .error .undefined ↔
          DividesAll someHost [unreachedMain 2] fun _ => none) ∧
        ((∃ m', run someHost { functions := [unreachedMain 2] } = .ok m') ↔
          DividesAll someHost [unreachedMain 2] fun _ => none)) ∧
      DividesAll someHost [unreachedMain 2] fun _ => none := by
  have hiff := run_divides_iff someHost (m := { functions := [unreachedMain 2] })
    (by simpa using unreachedMain_tidy 2)
  have hsome : (run someHost { functions := [unreachedMain 2] }).toOption.isSome = true := by
    decide +kernel
  refine ⟨hiff, hiff.2.mp ?_⟩
  cases hrun : run someHost { functions := [unreachedMain 2] } with
  | ok m' => exact ⟨m', rfl⟩
  | error e =>
    rw [hrun] at hsome
    cases hsome

/-- **A division that no execution reaches stops the compiler.** -/
theorem run_minOverMinusOne :
    (∃ B, visitProgram unreached freshBuilder = .ok B ∧ B.fn.blocks = (unreachedMain 1).blocks ∧
        B.fn.blocks.map B.fn.body = (unreachedMain 1).blocks.map (unreachedMain 1).body ∧
        B.fn.instrs.map B.fn.instr = (unreachedMain 1).instrs.map (unreachedMain 1).instr) ∧
      Tidy (unreachedMain 1) ∧ run someHost { functions := [unreachedMain 1] } = .error .undefined := by
  refine ⟨?_, unreachedMain_tidy 1, ?_⟩
  · have hemit : (visitProgram unreached freshBuilder).toOption.map (fun B => (B.fn.blocks,
        B.fn.blocks.map B.fn.body, B.fn.instrs.map B.fn.instr)) =
        some ((unreachedMain 1).blocks, (unreachedMain 1).blocks.map (unreachedMain 1).body,
          (unreachedMain 1).instrs.map (unreachedMain 1).instr) := by decide +kernel
    cases hB : visitProgram unreached freshBuilder with
    | ok B =>
      rw [hB] at hemit
      simp only [Except.toOption, Option.map_some, Option.some.injEq, Prod.mk.injEq] at hemit
      exact ⟨B, rfl, hemit⟩
    | error e =>
      rw [hB] at hemit
      cases hemit
  · have hnone : (run someHost { functions := [unreachedMain 1] }).toOption.isNone = true := by
      decide +kernel
    obtain ⟨hok, herr⟩ := run_outcome someHost (m := { functions := [unreachedMain 1] })
      (by simpa using unreachedMain_tidy 1)
    refine herr fun hdiv => ?_
    obtain ⟨m', hm'⟩ := hok hdiv
    rw [hm'] at hnone
    cases hnone

end Unreached

end Cminusfc.Optimization.ConstPropagation
