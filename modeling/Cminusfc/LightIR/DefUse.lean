import Cminusfc.LightIR.UseLists
import Cminusfc.Lib.Fallible

/-!
# Exact use lists

Model of the operand operations of `User` and `Value` (`User.cpp`, `Value.cpp`) by themselves, over
any users `U` and values `V`: operands may be null, as the constructor leaves them, and an index
may be out of range.

* `registered u` is no member of the source. It says that `u` has not been through
  `remove_use_of_ops`, which drops its uses and leaves its operands.
* A list of uses that grows while `replace_all_use_with` walks it, because the new value is the old
  one, is never walked to its end: `Fault.fuel`.
* Reading a null operand or an operand out of range is `Fault.undefined`.

Results:
* `step_exact_iff`: from exact lists a step leaves exact lists exactly when it is one of those that
  `Keeps` describes.
* `exact_throughout_iff`: **so does a run, in every state of it**.
* `Exact.replace`: with exact lists `replace_all_use_with` changes the operands that hold the value.
* `heap_*`: the operations on a `Func` are these.

Source: `src/lightir/User.cpp` 5-49, `Value.cpp` 12-31. Out of scope: the destructors.
-/

namespace Cminusfc.LightIR.DefUse

open Fallible (bind_ok Throughout EachStep throughout_iff)

variable {U V : Type} [DecidableEq U] [DecidableEq V]

/-- The members `operands_` of all users and `use_list_` of all values. -/
@[ext] structure Heap (U V : Type) where
  operands : U → List (Option V)
  uses : V → List (U × Nat)
  registered : U → Bool := fun _ => true

namespace Heap

/-- `User`s with null operands, as the constructor leaves them. -/
def start (numOps : U → Nat) : Heap U V where
  operands u := List.replicate (numOps u) none
  uses _ := []

/-- `Value::add_use`. -/
def addUse (h : Heap U V) (v : V) (u : U × Nat) : Heap U V :=
  { h with uses := Function.update h.uses v (h.uses v ++ [u]) }

/-- `Value::remove_use`: every use by `u`. -/
def removeUse (h : Heap U V) (v : V) (u : U) : Heap U V :=
  { h with uses := Function.update h.uses v ((h.uses v).filter (·.1 ≠ u)) }

/-- Replace `operands_` of a user. -/
def setOperands (h : Heap U V) (u : U) (l : List (Option V)) : Heap U V :=
  { h with operands := Function.update h.operands u l }

/-- `User::set_operand`. -/
def setOperand (h : Heap U V) (u : U) (i : Nat) (v : V) : Except Fault (Heap U V) :=
  if i < (h.operands u).length then
    .ok ((h.setOperands u ((h.operands u).set i (some v))).addUse v (u, i))
  else .error .assertion

/-- `User::add_operand`. -/
def addOperand (h : Heap U V) (u : U) (v : V) : Heap U V :=
  (h.setOperands u (h.operands u ++ [some v])).addUse v (u, (h.operands u).length)

/-- The body of the loops over operands: `op->remove_use(this)`. -/
def dropUse (u : U) (h : Heap U V) (op : Option V) : Except Fault (Heap U V) :=
  match op with
  | some v => .ok (h.removeUse v u)
  | none => .error .undefined

/-- `User::remove_use_of_ops`. -/
def removeUseOfOps (h : Heap U V) (u : U) : Except Fault (Heap U V) := do
  let h ← (h.operands u).foldlM (dropUse u) h
  .ok { h with registered := Function.update h.registered u false }

/-- `User::remove_operands`. -/
def removeOperands (h : Heap U V) (u : U) (index1 index2 : Int) : Except Fault (Heap U V) :=
  let l := h.operands u
  if 0 ≤ index1 ∧ index1 ≤ index2 + 1 ∧ index2 < l.length then do
    let h ← ((l.take (index2 + 1).toNat).drop index1.toNat).foldlM (dropUse u) h
    .ok (h.setOperands u (l.take index1.toNat ++ l.drop (index2 + 1).toNat))
  else .error .undefined

/-- The loop of `replace_all_use_with`. -/
def setSlots (h : Heap U V) (slots : List (U × Nat)) (new : V) : Except Fault (Heap U V) :=
  slots.foldlM (fun h u => h.setOperand u.1 u.2 new) h

/-- `Value::replace_all_use_with`. -/
def replaceAllUseWith (h : Heap U V) (old new : V) : Except Fault (Heap U V) :=
  if old = new then (if h.uses old = [] then .ok h else .error .fuel)
  else h.setSlots (h.uses old) new

end Heap

/-- The operand operations. -/
inductive Op (U V : Type) where
  | setOperand (u : U) (i : Nat) (v : V)
  | addOperand (u : U) (v : V)
  | removeUseOfOps (u : U)
  | removeOperands (u : U) (index1 index2 : Int)
  | replaceAllUseWith (old new : V)
  deriving Repr, DecidableEq

/-- One operation. -/
def step (h : Heap U V) : Op U V → Except Fault (Heap U V)
  | .setOperand u i v => h.setOperand u i v
  | .addOperand u v => .ok (h.addOperand u v)
  | .removeUseOfOps u => h.removeUseOfOps u
  | .removeOperands u i j => h.removeOperands u i j
  | .replaceAllUseWith v w => h.replaceAllUseWith v w

/-- The use lists are exact: a slot of a user that has its operands registered is in the list of
the value it holds, once, and in no other. -/
def Exact (h : Heap U V) : Prop :=
  ∀ v u i, h.registered u = true →
    (h.uses v).count (u, i) = if (h.operands u)[i]? = some (some v) then 1 else 0

/-- The operations that keep exact lists exact. -/
def Keeps (h : Heap U V) : Op U V → Prop
  | .setOperand u i _ => h.registered u = true → (h.operands u)[i]? = some none
  | .addOperand _ _ => True
  | .removeUseOfOps _ => True
  | .removeOperands u i j => h.registered u = true → i = j + 1 ∨
      (∀ (k : Nat) (v : V), j < k → (h.operands u)[k]? ≠ some (some v)) ∧
        ∀ (l k : Nat) (v : V), l < i → i ≤ k → k ≤ j → (h.operands u)[l]? = some (some v) →
          (h.operands u)[k]? ≠ some (some v)
  | .replaceAllUseWith v _ => ∀ u, h.registered u = true → some v ∉ h.operands u

/-! ## What the loops leave -/

section

variable {h h' : Heap U V} {u x : U} {v w : V} {i : Nat}

namespace Heap

omit [DecidableEq U] in
@[simp] theorem addUse_operands (p : U × Nat) : (h.addUse v p).operands = h.operands := rfl
omit [DecidableEq U] in
@[simp] theorem addUse_registered (p : U × Nat) : (h.addUse v p).registered = h.registered := rfl
@[simp] theorem removeUse_operands : (h.removeUse v u).operands = h.operands := rfl
@[simp] theorem removeUse_registered : (h.removeUse v u).registered = h.registered := rfl
omit [DecidableEq V] in
@[simp] theorem setOperands_uses (l : List (Option V)) : (h.setOperands u l).uses = h.uses := rfl
omit [DecidableEq V] in
@[simp] theorem setOperands_registered (l : List (Option V)) :
    (h.setOperands u l).registered = h.registered := rfl

omit [DecidableEq V] in
@[simp] theorem setOperands_self (l : List (Option V)) : (h.setOperands u l).operands u = l :=
  Function.update_self _ _ _

omit [DecidableEq V] in
theorem setOperands_of_ne (hx : x ≠ u) (l : List (Option V)) :
    (h.setOperands u l).operands x = h.operands x :=
  Function.update_of_ne hx _ _

theorem addUse_count (p q : U × Nat) :
    ((h.addUse v p).uses w).count q =
      (h.uses w).count q + if w = v ∧ p = q then 1 else 0 := by
  unfold addUse
  by_cases hw : w = v
  · subst hw
    by_cases hp : p = q
    · simp [hp]
    · simp [hp]
  · simp [hw]

theorem removeUse_count :
    ((h.removeUse v u).uses w).count (x, i) =
      if w = v ∧ x = u then 0 else (h.uses w).count (x, i) := by
  unfold removeUse
  by_cases hw : w = v
  · subst hw
    by_cases hx : x = u
    · subst hx
      simp [List.count_eq_zero]
    · rw [if_neg (fun h => hx h.2)]
      simp only [Function.update_self]
      exact List.count_filter (by simpa using hx)
  · simp [hw]

/-- Dropping the uses of `u` in the lists of `l`. -/
theorem foldlM_dropUse {l : List (Option V)} :
    ∀ {h : Heap U V}, l.foldlM (dropUse u) h = .ok h' →
      h'.operands = h.operands ∧ h'.registered = h.registered ∧
        ∀ w x i, (h'.uses w).count (x, i) =
          if x = u ∧ some w ∈ l then 0 else (h.uses w).count (x, i) := by
  induction l with
  | nil =>
    intro h hl
    cases hl
    simp
  | cons op l ih =>
    intro h hl
    rw [List.foldlM_cons] at hl
    obtain ⟨h₁, h₁eq, hl⟩ := bind_ok.mp hl
    cases op with
    | none => cases h₁eq
    | some v =>
      cases h₁eq
      obtain ⟨hops, hreg, hcount⟩ := ih hl
      refine ⟨hops, hreg, fun w x i => ?_⟩
      rw [hcount, removeUse_count]
      by_cases hx : x = u <;> by_cases hw : w = v <;> by_cases hl : some w ∈ l <;>
        simp [hx, hw, hl]

/-- Setting the slots `slots` to one value. -/
theorem setSlots_ok {slots : List (U × Nat)} :
    ∀ {h : Heap U V}, h.setSlots slots w = .ok h' →
      h'.registered = h.registered ∧ (∀ x, x ≠ w → h'.uses x = h.uses x) ∧
        h'.uses w = h.uses w ++ slots ∧
          ∀ u i, (h'.operands u)[i]? =
            if (u, i) ∈ slots then some (some w) else (h.operands u)[i]? := by
  induction slots with
  | nil =>
    intro h hs
    cases hs
    simp
  | cons p slots ih =>
    intro h hs
    rw [setSlots, List.foldlM_cons] at hs
    obtain ⟨h₁, h₁eq, hs⟩ := bind_ok.mp hs
    rw [setOperand] at h₁eq
    split_ifs at h₁eq with hlt
    cases h₁eq
    obtain ⟨hreg, hother, huses, hops⟩ := ih hs
    refine ⟨hreg, fun x hx => ?_, ?_, fun u i => ?_⟩
    · rw [hother x hx]
      exact Function.update_of_ne hx _ _
    · rw [huses]
      simp [addUse]
    · rw [hops]
      by_cases hmem : (u, i) ∈ slots
      · simp [hmem]
      · by_cases hp : (u, i) = p
        · subst hp
          simp [hlt]
        · simp only [List.mem_cons, hmem, hp, or_self, if_false, addUse_operands]
          by_cases hu : u = p.1
          · subst hu
            have hi : p.2 ≠ i := fun he => hp (by rw [← he])
            rw [setOperands_self, List.getElem?_set_ne hi]
          · rw [setOperands_of_ne hu]

omit [DecidableEq V] in
/-- The operands that `remove_operands` leaves, in front of the removed ones. -/
theorem cut_front {l : List (Option V)} {a b m : Nat} (ha : a ≤ l.length) (hm : m < a) :
    (l.take a ++ l.drop b)[m]? = l[m]? := by
  have hlen : (l.take a).length = a := List.length_take_of_le ha
  rw [List.getElem?_append_left (by omega), List.getElem?_take_of_lt hm]

omit [DecidableEq V] in
/-- And behind them. -/
theorem cut_back {l : List (Option V)} {a b m : Nat} (ha : a ≤ l.length) (hm : a ≤ m) :
    (l.take a ++ l.drop b)[m]? = l[m - a + b]? := by
  have hlen : (l.take a).length = a := List.length_take_of_le ha
  rw [List.getElem?_append_right (by omega), hlen, List.getElem?_drop, Nat.add_comm]

end Heap

end

open Heap

section

variable {h h' : Heap U V} {u x : U} {v w : V} {i : Nat}

/-- What exact lists say of one slot. -/
theorem Exact.count_one (hex : Exact h) (hu : h.registered u = true)
    (hv : (h.operands u)[i]? = some (some v)) : (h.uses v).count (u, i) = 1 := by
  rw [hex v u i hu, if_pos hv]

theorem Exact.holds (hex : Exact h) (hu : h.registered u = true) (hv : (u, i) ∈ h.uses v) :
    (h.operands u)[i]? = some (some v) := by
  by_contra hne
  have := hex v u i hu
  rw [if_neg hne] at this
  exact List.count_eq_zero.mp this hv

/-! ## One step -/

theorem addOperand_exact (hex : Exact h) : Exact (h.addOperand u v) := by
  intro w x i hx
  rw [addOperand, addUse_count, setOperands_uses, addUse_operands, hex w x i hx]
  by_cases hxu : x = u
  · subst hxu
    rw [setOperands_self]
    rcases Nat.lt_trichotomy i (h.operands x).length with hi | rfl | hi
    · have hne : ¬ (w = v ∧ (x, (h.operands x).length) = (x, i)) := by
        rintro ⟨-, he⟩
        cases he
        exact Nat.lt_irrefl _ hi
      rw [if_neg hne, List.getElem?_append_left hi, Nat.add_zero]
    · by_cases hw : w = v
      · simp [hw]
      · simp [hw, Ne.symm hw]
    · have hne : ¬ (w = v ∧ (x, (h.operands x).length) = (x, i)) := by
        rintro ⟨-, he⟩
        cases he
        exact Nat.lt_irrefl _ hi
      have hnone : (h.operands x)[i]? = none := List.getElem?_eq_none (by omega)
      have hnone' : (h.operands x ++ [some v])[i]? = none :=
        List.getElem?_eq_none (by simp; omega)
      rw [if_neg hne, hnone, hnone', Nat.add_zero]
  · have hne : ¬ (w = v ∧ (u, (h.operands u).length) = (x, i)) := by
      rintro ⟨-, he⟩
      cases he
      exact hxu rfl
    rw [if_neg hne, setOperands_of_ne hxu, Nat.add_zero]

theorem setOperand_exact_iff (hex : Exact h) (hs : h.setOperand u i v = .ok h') :
    Exact h' ↔ (h.registered u = true → (h.operands u)[i]? = some none) := by
  rw [setOperand] at hs
  split_ifs at hs with hi
  cases hs
  obtain ⟨o, ho⟩ : ∃ o, (h.operands u)[i]? = some o := ⟨_, List.getElem?_eq_getElem hi⟩
  constructor
  · intro hex' hu
    cases o with
    | none => exact ho
    | some x =>
      -- the use of the value that was there stays, or stands twice
      have hafter := hex' x u i hu
      rw [addUse_count, setOperands_uses, hex.count_one hu ho, addUse_operands, setOperands_self,
        List.getElem?_set_self hi] at hafter
      by_cases hxv : x = v
      · simp [hxv] at hafter
      · simp [hxv, Ne.symm hxv] at hafter
  · intro hfresh w x j hx
    rw [addUse_count, setOperands_uses, addUse_operands, hex w x j hx]
    by_cases hxu : x = u
    · subst hxu
      rw [setOperands_self]
      by_cases hij : i = j
      · subst hij
        rw [hfresh hx, List.getElem?_set_self hi]
        by_cases hw : w = v
        · simp [hw]
        · simp [hw, Ne.symm hw]
      · rw [List.getElem?_set_ne hij]
        simp [hij]
    · rw [setOperands_of_ne hxu]
      simp [Ne.symm hxu]

theorem removeUseOfOps_exact (hex : Exact h) (hs : h.removeUseOfOps u = .ok h') : Exact h' := by
  obtain ⟨h₁, hl, hs⟩ := bind_ok.mp hs
  cases hs
  obtain ⟨hops, hreg, hcount⟩ := foldlM_dropUse hl
  intro w x i hx
  have hxu : x ≠ u := by
    rintro rfl
    simp at hx
  have hx' : h.registered x = true := by
    rw [← hreg]
    simpa [hxu] using hx
  show (h₁.uses w).count (x, i) = _
  rw [hcount, if_neg (fun he => hxu he.1), hex w x i hx', hops]

/-- The slots behind a removed range are null, or the recorded numbers are wrong afterwards: the
last one that is not is still recorded under its old number. -/
theorem null_behind {l : List (Option V)} {a b : Nat} (hl : h.operands u = l) (hab : a < b)
    (hb : b ≤ l.length) (hex : Exact h) (hu : h.registered u = true) (hex' : Exact h')
    (hu' : h'.registered u = true)
    (hcount : ∀ w i, (h'.uses w).count (u, i) =
      if some w ∈ (l.take b).drop a then 0 else (h.uses w).count (u, i))
    (hops : h'.operands u = l.take a ++ l.drop b) :
    ∀ (n k : Nat) (v : V), l.length - k ≤ n → b ≤ k → l[k]? ≠ some (some v) := by
  intro n
  induction n with
  | zero =>
    intro k v hn _ hk
    have hlt := (List.getElem?_eq_some_iff.mp hk).1
    omega
  | succ n ih =>
    intro k v hn hbk hk
    have hlt := (List.getElem?_eq_some_iff.mp hk).1
    have hold := hex.count_one hu (hl ▸ hk)
    by_cases hmem : some v ∈ (l.take b).drop a
    · have hafter := hex' v u (k - b + a) hu'
      rw [hcount, if_pos hmem, hops, cut_back (by omega) (by omega),
        show k - b + a - a + b = k from by omega, hk, if_pos rfl] at hafter
      exact absurd hafter (by decide)
    · have hafter := hex' v u k hu'
      rw [hcount, if_neg hmem, hold, hops, cut_back (by omega) (by omega)] at hafter
      have hnext : l[k - a + b]? = some (some v) := by
        by_contra hne
        rw [if_neg hne] at hafter
        cases hafter
      exact ih (k - a + b) v (by omega) (by omega) hnext

omit [DecidableEq V] in
theorem mem_range {l : List (Option V)} {a b : Nat} {o : Option V} :
    o ∈ (l.take b).drop a ↔ ∃ k, a ≤ k ∧ k < b ∧ l[k]? = some o := by
  rw [List.mem_iff_getElem?]
  simp only [List.getElem?_drop]
  constructor
  · rintro ⟨i, hi⟩
    have hlt : a + i < b := by
      have := (List.getElem?_eq_some_iff.mp hi).1
      rw [List.length_take] at this
      omega
    exact ⟨a + i, by omega, hlt, by rwa [List.getElem?_take_of_lt hlt] at hi⟩
  · rintro ⟨k, hak, hkb, hk⟩
    refine ⟨k - a, ?_⟩
    rw [show a + (k - a) = k from by omega, List.getElem?_take_of_lt hkb, hk]

theorem removeOperands_exact_iff {index1 index2 : Int} (hex : Exact h)
    (hs : h.removeOperands u index1 index2 = .ok h') :
    Exact h' ↔ Keeps h (.removeOperands u index1 index2) := by
  unfold removeOperands at hs
  dsimp only at hs
  split_ifs at hs with hrange
  obtain ⟨h0, h12, hlen⟩ := hrange
  obtain ⟨h₁, hl, hs⟩ := bind_ok.mp hs
  cases hs
  obtain ⟨hops, hreg, hcount⟩ := foldlM_dropUse hl
  obtain ⟨a, rfl⟩ : ∃ a : Nat, index1 = a := ⟨_, (Int.toNat_of_nonneg h0).symm⟩
  obtain ⟨b, hb⟩ : ∃ b : Nat, index2 + 1 = b := ⟨_, (Int.toNat_of_nonneg (by omega)).symm⟩
  generalize hlu : h.operands u = l at *
  rw [hb, Int.toNat_natCast] at hcount
  simp only [hb, Int.toNat_natCast]
  have hal : a ≤ l.length := by omega
  have hother : ∀ x, x ≠ u → (h₁.setOperands u (l.take a ++ l.drop b)).operands x = h.operands x :=
    fun x hx => by rw [setOperands_of_ne hx, hops]
  have hself : (h₁.setOperands u (l.take a ++ l.drop b)).operands u = l.take a ++ l.drop b :=
    setOperands_self _
  constructor
  · intro hex' hu
    have hu' : (h₁.setOperands u (l.take a ++ l.drop b)).registered u = true := by
      rw [setOperands_registered, hreg, hu]
    have hcount' : ∀ w i, ((h₁.setOperands u (l.take a ++ l.drop b)).uses w).count (u, i) =
        if some w ∈ (l.take b).drop a then 0 else (h.uses w).count (u, i) := by
      intro w i
      rw [setOperands_uses, hcount]
      simp
    rw [or_iff_not_imp_left]
    intro hne
    have hab : a < b := by omega
    refine ⟨fun k v hk => ?_, fun m k v hm hk hk' hv hv' => ?_⟩
    · rw [hlu]
      exact null_behind hlu hab (by omega) hex hu hex' hu' hcount' hself _ k v (Nat.le_refl _)
        (by omega)
    · -- the slot in front of the range keeps its value and loses its use
      rw [hlu] at hv hv'
      have hmem : some v ∈ (l.take b).drop a := mem_range.mpr ⟨k, by omega, by omega, hv'⟩
      have hafter := hex' v u m hu'
      rw [hcount', if_pos hmem, hself, cut_front hal (by omega), hv, if_pos rfl] at hafter
      exact absurd hafter (by decide)
  · intro hkeeps w x i hx
    rw [setOperands_registered, hreg] at hx
    rw [setOperands_uses, hcount]
    by_cases hxu : x = u
    · subst hxu
      rw [hself]
      have hold := hex w x i hx
      rw [hlu] at hold
      rcases hkeeps hx with hempty | ⟨hbehind, hfront⟩
      · have hab : a = b := by omega
        subst hab
        have hnil : some w ∉ (l.take a).drop a := by simp
        rw [if_neg (fun he => hnil he.2), List.take_append_drop, hold]
      · rw [hlu] at hbehind hfront
        have hback : ∀ {i : Nat}, b ≤ i → l[i]? ≠ some (some w) :=
          fun {i} hi => hbehind i w (by omega)
        by_cases hi : i < a
        · rw [cut_front hal hi]
          by_cases hmem : some w ∈ (l.take b).drop a
          · obtain ⟨k, hak, hkb, hk⟩ := mem_range.mp hmem
            rw [if_pos ⟨rfl, hmem⟩,
              if_neg (fun hv => hfront i k w (by omega) (by omega) (by omega) hv hk)]
          · rw [if_neg (fun he => hmem he.2), hold]
        · rw [cut_back hal (by omega), if_neg (hback (by omega))]
          by_cases hmem : some w ∈ (l.take b).drop a
          · rw [if_pos ⟨rfl, hmem⟩]
          · rw [if_neg (fun he => hmem he.2), hold, if_neg]
            intro hv
            by_cases hib : i < b
            · exact hmem (mem_range.mpr ⟨i, by omega, hib, hv⟩)
            · exact hback (by omega) hv
    · rw [hother x hxu, if_neg (fun he => hxu he.1), hex w x i hx]

/-- Slots without a registered user are not looked at. -/
theorem replace_exact_iff (hex : Exact h) (hs : h.replaceAllUseWith v w = .ok h') :
    Exact h' ↔ ∀ u, h.registered u = true → some v ∉ h.operands u := by
  rw [replaceAllUseWith] at hs
  by_cases hvw : v = w
  · rw [if_pos hvw] at hs
    split_ifs at hs with hnil
    cases hs
    refine ⟨fun _ u hu hmem => ?_, fun _ => hex⟩
    obtain ⟨i, hi⟩ := List.mem_iff_getElem?.mp hmem
    have := hex.count_one hu hi
    simp [hnil] at this
  · rw [if_neg hvw] at hs
    obtain ⟨hreg, hother, huses, hops⟩ := setSlots_ok hs
    constructor
    · intro hex' u hu hmem
      obtain ⟨i, hi⟩ := List.mem_iff_getElem?.mp hmem
      have hone := hex.count_one hu hi
      have hslot : (u, i) ∈ h.uses v := List.count_pos_iff.mp (by omega)
      have hafter := hex' v u i (hreg ▸ hu)
      rw [hother v hvw, hone, hops, if_pos hslot] at hafter
      simp [Ne.symm hvw] at hafter
    · intro hnone x u i hu
      rw [hreg] at hu
      have hslot : (u, i) ∉ h.uses v := fun hmem =>
        hnone u hu (List.mem_iff_getElem?.mpr ⟨i, hex.holds hu hmem⟩)
      rw [hops, if_neg hslot, ← hex x u i hu]
      by_cases hx : x = w
      · rw [hx, huses, List.count_append, List.count_eq_zero.mpr hslot, Nat.add_zero]
      · rw [hother x hx]

/-- **One step**: exact lists stay exact exactly when the operation is one that keeps them. -/
theorem step_exact_iff (op : Op U V) (hex : Exact h) (hs : step h op = .ok h') :
    Exact h' ↔ Keeps h op := by
  cases op with
  | setOperand u i v => exact setOperand_exact_iff hex hs
  | addOperand u v =>
    cases hs
    exact iff_of_true (addOperand_exact hex) trivial
  | removeUseOfOps u => exact iff_of_true (removeUseOfOps_exact hex hs) trivial
  | removeOperands u i j => exact removeOperands_exact_iff hex hs
  | replaceAllUseWith v w => exact replace_exact_iff hex hs

/-- **With exact lists `replace_all_use_with` changes precisely the operands that hold the
value.** -/
theorem Exact.replace (hex : Exact h) (hvw : v ≠ w) (hs : h.replaceAllUseWith v w = .ok h')
    (hu : h.registered u = true) :
    h'.operands u = (h.operands u).map fun o => if o = some v then some w else o := by
  rw [replaceAllUseWith, if_neg hvw] at hs
  obtain ⟨-, -, -, hops⟩ := setSlots_ok hs
  apply List.ext_getElem?
  intro i
  rw [hops, List.getElem?_map]
  by_cases hmem : (u, i) ∈ h.uses v
  · rw [if_pos hmem, hex.holds hu hmem]
    simp
  · rw [if_neg hmem]
    cases ho : (h.operands u)[i]? with
    | none => rfl
    | some o =>
      have hne : o ≠ some v := by
        rintro rfl
        have := hex.count_one hu ho
        rw [List.count_eq_zero.mpr hmem] at this
        cases this
      simp [hne]

/-- The lists are exact, and a replacement changes precisely the operands that hold the value. -/
def Sound (h : Heap U V) : Prop :=
  Exact h ∧ ∀ v w h', v ≠ w → h.replaceAllUseWith v w = .ok h' → ∀ u, h.registered u = true →
    h'.operands u = (h.operands u).map fun o => if o = some v then some w else o

theorem sound_iff : Sound h ↔ Exact h :=
  ⟨And.left, fun hex => ⟨hex, fun _ _ _ hvw hs _ hu => hex.replace hvw hs hu⟩⟩

theorem start_exact (numOps : U → Nat) : Exact (start numOps : Heap U V) := by
  intro v u i _
  have hne : (List.replicate (numOps u) (none : Option V))[i]? ≠ some (some v) := by
    rw [List.getElem?_replicate]
    split_ifs <;> simp
  exact (if_neg hne).symm

/-- **The def-use lists are exact in every state of a run exactly when every step of it is one that
keeps them**: a null slot is set, an operand is added, the uses of a user are dropped, a range
without operands behind it and without a value in front of it is removed, a value without uses is
replaced. -/
theorem exact_throughout_iff (numOps : U → Nat) (ops : List (Op U V)) :
    Throughout step Sound (start numOps) ops ↔ EachStep step Keeps (start numOps) ops := by
  refine throughout_iff (fun h op h' hs hstep => ?_) (sound_iff.mpr (start_exact numOps))
  rw [sound_iff] at hs ⊢
  exact step_exact_iff op hs hstep

end

/-- An operand is replaced, and the old value still lists the slot. -/
theorem stale_after_replace :
    ¬ Throughout step Sound (start fun _ : Unit => 1)
      [.setOperand () 0 false, .replaceAllUseWith false true] := by
  intro hall
  have hstep := hall.2 _ rfl
  have hexact := (hstep.2 _ rfl).1
  have hcount := hexact false () 0 rfl
  exact absurd hcount (by decide)

/-! ## The operations on a function -/

section

variable {f : Func} {u : InstrId} {no : Nat} {v w : Value}

/-- The operands and use lists of a function. -/
def heapOf (f : Func) : Heap InstrId Value where
  operands u := (f.instr u).operands.map some
  uses := f.uses

theorem heapOf_setInstr {x : Instr} :
    heapOf (f.setInstr u x) = (heapOf f).setOperands u (x.operands.map some) := by
  ext1
  · funext y
    by_cases hy : y = u
    · subst hy
      simp [heapOf, Func.setInstr]
    · rw [setOperands_of_ne hy]
      simp [heapOf, Func.setInstr, hy]
  · rfl
  · rfl

theorem heap_setOperand (hno : no < (f.instr u).operands.length) :
    (heapOf f).setOperand u no v = .ok (heapOf (f.setOperand u no v)) := by
  have hlt : no < ((heapOf f).operands u).length := by simpa [heapOf] using hno
  have hset := heapOf_setInstr (f := f) (u := u)
    (x := { f.instr u with operands := (f.instr u).operands.set no v })
  rw [setOperand, if_pos hlt]
  show Except.ok (((heapOf f).setOperands u (((f.instr u).operands.map some).set no (some v))).addUse
    v (u, no)) = _
  rw [← List.map_set, ← hset]
  rfl

theorem heap_addOperand : (heapOf f).addOperand u v = heapOf (f.addOperand u v) := by
  have hset := heapOf_setInstr (f := f) (u := u)
    (x := { f.instr u with operands := (f.instr u).operands ++ [v] })
  have hlen : ((heapOf f).operands u).length = (f.instr u).operands.length := List.length_map _
  rw [addOperand, hlen]
  show ((heapOf f).setOperands u ((f.instr u).operands.map some ++ [some v])).addUse v _ = _
  rw [show (f.instr u).operands.map some ++ [some v] = ((f.instr u).operands ++ [v]).map some from by
    simp, ← hset]
  rfl

theorem heap_setSlots {slots : List Use} :
    ∀ {f : Func}, (∀ p ∈ slots, p.2 < (f.instr p.1).operands.length) →
      (heapOf f).setSlots slots w =
        .ok (heapOf (slots.foldl (fun f u => f.setOperand u.1 u.2 w) f)) := by
  induction slots with
  | nil => exact fun _ => rfl
  | cons p slots ih =>
    intro f hp
    obtain ⟨hhead, htail⟩ := List.forall_mem_cons.mp hp
    rw [setSlots, List.foldlM_cons, heap_setOperand hhead]
    refine ih fun q hq => ?_
    have hlen : ((f.setOperand p.1 p.2 w).instr q.1).operands.length =
        (f.instr q.1).operands.length := by
      rw [Func.setOperand_instr]
      by_cases hpq : q.1 = p.1
      · rw [hpq, Function.update_self, List.length_set]
      · rw [Function.update_of_ne hpq]
    rw [hlen]
    exact htail q hq

/-- A replacement on a function, where the recorded slots exist. -/
theorem heap_replaceAllUseWith (hvw : v ≠ w)
    (hslots : ∀ p ∈ f.uses v, p.2 < (f.instr p.1).operands.length) :
    (heapOf f).replaceAllUseWith v w = .ok (heapOf (f.replaceAllUseWith v w)) := by
  rw [replaceAllUseWith, if_neg hvw]
  exact heap_setSlots hslots

theorem heap_removeUseOfOps :
    (heapOf f).removeUseOfOps u =
      .ok { heapOf (f.removeUseOfOps u) with registered := Function.update (fun _ => true) u false } := by
  have hfold : ∀ (l : List Value) (g : Func), (l.map some).foldlM (dropUse u) (heapOf g) =
      Except.ok (ε := Fault) (heapOf (l.foldl (fun f v => f.removeUse v u) g)) := by
    intro l
    induction l with
    | nil => exact fun _ => rfl
    | cons v l ih => exact fun g => ih (g.removeUse v u)
  rw [removeUseOfOps]
  show ((f.instr u).operands.map some).foldlM (dropUse u) (heapOf f) >>= _ = _
  rw [hfold]
  rfl

end

end Cminusfc.LightIR.DefUse
