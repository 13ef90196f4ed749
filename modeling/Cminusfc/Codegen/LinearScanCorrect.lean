import Mathlib.Data.List.Nodup
import Mathlib.Data.List.Perm.Basic
import Mathlib.Data.List.TakeWhile
import Cminusfc.Lib.Fallible
import Cminusfc.Codegen.LinearScan

/-!
# What the linear scan guarantees

`Sound` is what the allocation is for: real registers of the right class, different ones for
overlapping intervals, and no register beside a stack slot. `allocate_sound_iff` says when it holds.
It depends on the intervals only: `Fits` counts, at the start of each interval, those kept in
registers that are still open.

The invariant of the scan (`Scanned`) divides the pool: every register of it is available, or taken
by an argument, or that of an active interval (`Scanned.pool`). The active intervals are the kept
ones that are still open (`Scanned.open`).

About `src/codegen/regalloc.cpp` 38-75 and 149-195. Out of scope: whether the intervals cover what
is live, the subject of `Intervals`.
-/

namespace Cminusfc.Codegen.RegAlloc

open Cminusfc.LightIR

/-- Two intervals have a point in common; both ends are inclusive. -/
def Interval.Overlaps (i j : Interval) : Prop := ¬ i.stop < j.start ∧ ¬ j.stop < i.start

/-- What the scan is for. -/
structure Sound (f : Func) (intervals : List ValInterval) (s : Alloc) : Prop where
  real : ∀ v r, s.regMappings v = some r → r.reg.isReal = true ∧ r.reg.f = isFloat f v
  apart : ∀ i ∈ intervals, ∀ j ∈ intervals, i.1 ≠ j.1 → i.2.Overlaps j.2 →
    ∀ r r', s.regMappings i.1 = some r → s.regMappings j.1 = some r' → r.reg ≠ r'.reg
  /-- A value in a stack slot has no register. -/
  spilled : ∀ i ∈ intervals, (s.stackMappings i.1).isSome = true → s.regMappings i.1 = none

/-- The set `intervals` as `init_func` leaves it: one interval for a value, in the order of the
starts, none for an alloca. -/
structure IsIntervals (m : Members) (intervals : List ValInterval) : Prop where
  nodup : (intervals.map Prod.fst).Nodup
  sorted : intervals.Pairwise fun i j => ¬ j.2.start < i.2.start
  noSlot : ∀ i ∈ intervals, m.stackMappings i.1 = none

/-! ## The condition -/

/-- The arguments with an interval. -/
def usedArgs (f : Func) (used : Value → Bool) : List Nat :=
  (List.range f.args.length).filter fun no => used (.arg no)

/-- The number of arguments of the class of `no` in front of it. -/
def classIndex (f : Func) (no : Nat) : Nat :=
  ((f.args.take no).filter fun ty => ty.isFloat = isFloat f (.arg no)).length

/-- Every used argument is one of the first eight of its class. -/
def ArgsFit (f : Func) (used : Value → Bool) : Prop :=
  ∀ no ∈ usedArgs f used, classIndex f no < 8

/-- The intervals of `kept` that have not ended at `t`. -/
def openAt (kept : List ValInterval) (t : Point) : List ValInterval :=
  kept.filter fun j => !decide (j.2.stop < t)

/-- `rest` fits beside the intervals `kept` in registers. An interval is kept unless as many are open
at its start as there are temporaries.

* Where that many are open, none of them ends after the new one.
* A kept one finds fewer than the fifteen registers of its class taken by open ones and arguments. -/
def Fits (f : Func) (argNos : List Nat) (kept : List ValInterval) : List ValInterval → Prop
  | [] => True
  | i :: rest =>
    if (openAt kept i.2.start).length = regs.length + fregs.length then
      (∀ j ∈ openAt kept i.2.start, ¬ i.2.stop < j.2.stop) ∧ Fits f argNos kept rest
    else
      ((openAt kept i.2.start).filter fun j => isFloat f j.1 = isFloat f i.1).length +
        (argNos.filter fun no => isFloat f (.arg no) = isFloat f i.1).length < 15 ∧
      Fits f argNos (kept ++ [i]) rest

variable {f : Func} {used : Value → Bool} {less : Value → Value → Bool}

/-! ## The pool -/

theorem allRegs_nodup : allRegs.Nodup := by decide

theorem allRegs_real : ∀ r ∈ allRegs, r.isReal = true := by decide

theorem allRegs_class : ∀ c : Bool, (allRegs.filter fun r => r.f = c).length = 15 := by decide

/-- The argument registers of a class. -/
def bank (c : Bool) : List Reg := if c then fargs else args

theorem bank_nodup : ∀ c, (bank c).Nodup := by decide

theorem bank_class : ∀ c, ∀ r ∈ bank c, r.f = c := by decide

theorem bank_subset : ∀ c, ∀ r ∈ bank c, r ∈ allRegs := by decide

theorem bank_length : ∀ c, (bank c).length = 8 := by decide

theorem insertReg_perm {l : List Reg} {r : Reg} (h : r ∉ l) : (insertReg l r).Perm (r :: l) := by
  unfold insertReg
  rw [if_neg h]
  refine List.perm_middle.trans ?_
  rw [List.takeWhile_append_dropWhile]

theorem filter_ne_perm {l : List Reg} {r : Reg} (hnd : l.Nodup) (h : r ∈ l) :
    (r :: l.filter (· ≠ r)).Perm l := by
  have herase : l.filter (· ≠ r) = l.erase r := by
    rw [hnd.erase_eq_filter]
    exact List.filter_congr fun x _ => by simp [bne, beq_eq_decide]
  rw [herase]
  exact (List.perm_cons_erase h).symm

theorem insertActive_perm (l : List ValInterval) (i : ValInterval) :
    (insertActive less l i).Perm (i :: l) := by
  unfold insertActive
  refine List.perm_middle.trans ?_
  rw [List.takeWhile_append_dropWhile]

/-- `active` in the order of the ends. -/
def ByEnd (l : List ValInterval) : Prop := l.Pairwise fun i j => ¬ j.2.stop < i.2.stop

theorem Point.lt_def (a b : Point) :
    a < b ↔ a.bbindex < b.bbindex ∨ a.bbindex = b.bbindex ∧ a.lineNo < b.lineNo := Iff.rfl

theorem Point.not_lt_trans {a b c : Point} (h : ¬ b < a) (h' : ¬ c < b) : ¬ c < a := by
  rw [Point.lt_def] at *
  omega

theorem insertActive_byEnd {l : List ValInterval} (h : ByEnd l) (i : ValInterval) :
    ByEnd (insertActive less l i) := by
  unfold insertActive
  have hsplit : ByEnd (l.takeWhile (activeLess less · i) ++ l.dropWhile (activeLess less · i)) := by
    rwa [List.takeWhile_append_dropWhile]
  obtain ⟨h₁, h₂, h₃⟩ := List.pairwise_append.mp hsplit
  have hbefore : ∀ j ∈ l.takeWhile (activeLess less · i), ¬ i.2.stop < j.2.stop := by
    intro j hj hlt
    have := List.mem_takeWhile_imp hj
    unfold activeLess at this
    split at this
    · rename_i hji
      rw [Point.lt_def] at hji hlt
      omega
    · cases this
  have hafter : ∀ j ∈ l.dropWhile (activeLess less · i), ¬ j.2.stop < i.2.stop := by
    cases hd : l.dropWhile (activeLess less · i) with
    | nil => simp
    | cons k rest =>
      have hk : activeLess less k i = false := by
        have := List.head?_dropWhile_not (activeLess less · i) l
        rw [hd] at this
        simpa using this
      have hki : ¬ k.2.stop < i.2.stop := by
        intro hlt
        simp [activeLess, hlt] at hk
      rw [hd] at h₂
      intro j hj
      rcases List.mem_cons.mp hj with rfl | hj
      · exact hki
      · exact Point.not_lt_trans hki ((List.pairwise_cons.mp h₂).1 j hj)
  refine List.pairwise_append.mpr ⟨h₁, List.pairwise_cons.mpr ⟨hafter, h₂⟩, fun j hj k hk => ?_⟩
  rcases List.mem_cons.mp hk with rfl | hk
  · exact hbefore j hj
  · exact h₃ j hj k hk

@[simp] theorem Alloc.setReg_self (s : Alloc) (v : Value) (r : RegRef) :
    (s.setReg v r).regMappings v = some r := Function.update_self _ _ _

theorem Alloc.setReg_of_ne {v w : Value} (h : w ≠ v) (s : Alloc) (r : RegRef) :
    (s.setReg v r).regMappings w = s.regMappings w := Function.update_of_ne h _ _

theorem Alloc.regOf_of_some {s : Alloc} {v : Value} {r : RegRef} (h : s.regMappings v = some r) :
    s.regOf v = r := by
  rw [Alloc.regOf, h]
  rfl

/-! ## The arguments -/

/-- The counter of a class. -/
def ArgState.counter (s : ArgState) (c : Bool) : Nat := if c then s.flArgCounter else s.intArgCounter

/-- The next argument of class `c`. -/
def ArgState.bump (s : ArgState) (c : Bool) : ArgState :=
  if c then { s with flArgCounter := s.flArgCounter + 1 }
  else { s with intArgCounter := s.intArgCounter + 1 }

@[simp] theorem ArgState.bump_alloc (s : ArgState) (c : Bool) : (s.bump c).alloc = s.alloc := by
  cases c <;> rfl

theorem ArgState.bump_counter (s : ArgState) (c c' : Bool) :
    (s.bump c).counter c' = s.counter c' + if c = c' then 1 else 0 := by
  cases c <;> cases c' <;> rfl

/-- Both branches of the loop of `pre_allocate_args` at once. -/
theorem preAllocateArg_eq (s : ArgState) (ty : Ty) (no : Nat) :
    preAllocateArg used s (ty, no) =
      if used (.arg no) = true then
        match (bank ty.isFloat)[s.counter ty.isFloat]? with
        | none => .error .undefined
        | some r =>
          let a := s.alloc.setReg (.arg no) ⟨r, ty.isPointer⟩
          .ok { s.bump ty.isFloat with
            alloc := { a with availableRegs := a.availableRegs.filter (· ≠ r) } }
      else .ok (s.bump ty.isFloat) := by
  cases hty : ty.isFloat with
  | false =>
    unfold preAllocateArg
    rw [hty]
    rfl
  | true =>
    have hptr : ty.isPointer = false := by cases ty <;> simp_all [Ty.isFloat, Ty.isPointer]
    unfold preAllocateArg
    rw [hty, hptr]
    rfl

/-- The used arguments among the first `n`. -/
def usedBelow (used : Value → Bool) (n : Nat) : List Nat :=
  (List.range n).filter fun no => used (.arg no)

theorem usedBelow_succ (n : Nat) :
    usedBelow used (n + 1) = usedBelow used n ++ if used (.arg n) = true then [n] else [] := by
  unfold usedBelow
  rw [List.range_succ, List.filter_append, List.filter_singleton]
  cases used (.arg n) <;> rfl

/-- The registers of some arguments. -/
def argRegs (s : Alloc) (nos : List Nat) : List Reg := nos.map fun no => (s.regOf (.arg no)).reg

/-- The members after the first `n` arguments, started on `s₀`. -/
structure ArgsDone (f : Func) (used : Value → Bool) (s₀ : Alloc) (n : Nat) (s : ArgState) :
    Prop where
  counter : ∀ c, s.counter c = ((f.args.take n).filter fun ty => ty.isFloat = c).length
  entry : ∀ no ∈ usedBelow used n, ∃ r, s.alloc.regMappings (.arg no) = some r ∧
    (bank (isFloat f (.arg no)))[classIndex f no]? = some r.reg
  only : ∀ v, (∀ no ∈ usedBelow used n, v ≠ .arg no) → s.alloc.regMappings v = none
  pool : (s.alloc.availableRegs ++ argRegs s.alloc (usedBelow used n)).Perm allRegs
  rest : s.alloc.active = s₀.active ∧ s.alloc.stackMappings = s₀.stackMappings ∧
    s.alloc.stackSize = s₀.stackSize

theorem mem_usedBelow {n no : Nat} : no ∈ usedBelow used n ↔ no < n ∧ used (.arg no) = true := by
  simp [usedBelow]

theorem isFloat_arg {no : Nat} {ty : Ty} (h : f.args[no]? = some ty) :
    isFloat f (.arg no) = ty.isFloat := by
  simp [isFloat, typeOf, List.getD, h]

/-- Two arguments of one class have different positions in it. -/
theorem classIndex_lt {n no : Nat} (hn : n ≤ f.args.length) (hno : no < n)
    (h : isFloat f (.arg no) = isFloat f (.arg n)) : classIndex f no < classIndex f n := by
  unfold classIndex
  rw [h]
  have hsub : f.args.take (no + 1) <+: f.args.take n := List.take_prefix_take_left hno
  have hget : f.args[no]? = some f.args[no] := List.getElem?_eq_getElem (by omega)
  rw [isFloat_arg hget] at h
  have hle := (hsub.filter fun ty => ty.isFloat = isFloat f (.arg n)).length_le
  rw [List.take_add_one, hget, List.filter_append, List.length_append] at hle
  simp only [Option.toList_some, List.filter_singleton, h, decide_true, cond_true,
    List.length_singleton] at hle
  omega

/-- An argument that is not used. -/
theorem ArgsDone.skip {s₀ : Alloc} {n : Nat} {s : ArgState} (h : ArgsDone f used s₀ n s) {ty : Ty}
    (hget : f.args[n]? = some ty) (hused : used (.arg n) = false) :
    ArgsDone f used s₀ (n + 1) (s.bump ty.isFloat) := by
  have hbelow : usedBelow used (n + 1) = usedBelow used n := by simp [usedBelow_succ, hused]
  refine ⟨fun c => ?_, ?_, ?_, ?_, ?_⟩
  · rw [ArgState.bump_counter, h.counter, List.take_add_one, hget, List.filter_append,
      List.length_append]
    simp only [Option.toList_some, List.filter_singleton]
    split <;> simp_all
  all_goals rw [ArgState.bump_alloc]
  · rw [hbelow]
    exact h.entry
  · rw [hbelow]
    exact h.only
  · rw [hbelow]
    exact h.pool
  · exact h.rest

/-- The next argument register is still available. -/
theorem ArgsDone.fresh {s₀ : Alloc} {n : Nat} {s : ArgState} (h : ArgsDone f used s₀ n s)
    (hn : n < f.args.length) {r : Reg} (hr : (bank (isFloat f (.arg n)))[classIndex f n]? = some r) :
    r ∈ s.alloc.availableRegs ∧ r ∉ argRegs s.alloc (usedBelow used n) := by
  have hmem := List.mem_of_getElem? hr
  have hnot : r ∉ argRegs s.alloc (usedBelow used n) := by
    intro hin
    obtain ⟨no, hno, rfl⟩ := List.mem_map.mp hin
    obtain ⟨q, hq, hbank⟩ := h.entry no hno
    rw [Alloc.regOf_of_some hq] at hr hmem
    have hclass : isFloat f (.arg no) = isFloat f (.arg n) := by
      rw [← bank_class _ _ (List.mem_of_getElem? hbank), bank_class _ _ hmem]
    rw [hclass] at hbank
    have hlt := classIndex_lt (Nat.le_of_lt hn) (mem_usedBelow.mp hno).1 hclass
    have heq := (List.getElem?_inj (List.getElem?_eq_some_iff.mp hbank).1 (bank_nodup _)).mp
      (hbank.trans hr.symm)
    omega
  exact ⟨(List.mem_append.mp (h.pool.mem_iff.mpr (bank_subset _ _ hmem))).resolve_right hnot, hnot⟩

/-- A used argument gets its register. -/
theorem ArgsDone.take {s₀ : Alloc} {n : Nat} {s : ArgState} (h : ArgsDone f used s₀ n s) {ty : Ty}
    (hget : f.args[n]? = some ty) (hused : used (.arg n) = true) {r : Reg}
    (hr : (bank (isFloat f (.arg n)))[classIndex f n]? = some r) (d : Bool) :
    ArgsDone f used s₀ (n + 1) { s.bump ty.isFloat with
      alloc := { s.alloc.setReg (.arg n) ⟨r, d⟩ with
        availableRegs := s.alloc.availableRegs.filter (· ≠ r) } } := by
  have hlt := (List.getElem?_eq_some_iff.mp hget).1
  obtain ⟨havail, hnot⟩ := h.fresh hlt hr
  have hbelow : usedBelow used (n + 1) = usedBelow used n ++ [n] := by simp [usedBelow_succ, hused]
  have hne : ∀ no ∈ usedBelow used n, Value.arg no ≠ .arg n := by
    intro no hno heq
    cases heq
    exact Nat.lt_irrefl _ (mem_usedBelow.mp hno).1
  refine ⟨fun c => ?_, fun no hno => ?_, fun v hv => ?_, ?_, h.rest⟩
  · have hcounter := ArgState.bump_counter s ty.isFloat c
    show (s.bump ty.isFloat).counter c = _
    rw [hcounter, h.counter, List.take_add_one, hget, List.filter_append, List.length_append]
    simp only [Option.toList_some, List.filter_singleton]
    split <;> simp_all
  · rw [hbelow] at hno
    rcases List.mem_append.mp hno with hno | hno
    · show ∃ q, (s.alloc.setReg _ _).regMappings _ = some q ∧ _
      rw [Alloc.setReg_of_ne (hne no hno)]
      exact h.entry no hno
    · obtain rfl := List.mem_singleton.mp hno
      exact ⟨⟨r, d⟩, Alloc.setReg_self _ _ _, hr⟩
  · rw [hbelow] at hv
    show (s.alloc.setReg _ _).regMappings _ = none
    rw [Alloc.setReg_of_ne (hv n (by simp))]
    exact h.only v fun no hno => hv no (List.mem_append_left _ hno)
  · have hregs : argRegs (s.alloc.setReg (.arg n) ⟨r, d⟩) (usedBelow used n) =
        argRegs s.alloc (usedBelow used n) := by
      refine List.map_congr_left fun no hno => ?_
      rw [Alloc.regOf, Alloc.regOf, Alloc.setReg_of_ne (hne no hno)]
    have hlast : argRegs (s.alloc.setReg (.arg n) ⟨r, d⟩) [n] = [r] := by
      simp [argRegs, Alloc.regOf_of_some (Alloc.setReg_self s.alloc (.arg n) ⟨r, d⟩)]
    have hnd : s.alloc.availableRegs.Nodup :=
      (List.nodup_append.mp (h.pool.nodup_iff.mpr allRegs_nodup)).1
    show ((s.alloc.availableRegs.filter (· ≠ r)) ++
      argRegs (s.alloc.setReg (.arg n) ⟨r, d⟩) (usedBelow used (n + 1))).Perm allRegs
    have happ : argRegs (s.alloc.setReg (.arg n) ⟨r, d⟩) (usedBelow used (n + 1)) =
        argRegs s.alloc (usedBelow used n) ++ [r] := by
      rw [hbelow, argRegs, List.map_append]
      exact congrArg₂ (· ++ ·) hregs hlast
    rw [happ]
    refine List.Perm.trans ?_ h.pool
    refine (List.perm_append_comm.trans ?_).trans (List.perm_append_comm)
    rw [List.append_assoc]
    exact List.Perm.append_left _ (filter_ne_perm hnd havail)

/-- The loop of `pre_allocate_args`. -/
theorem preAllocate_take {s₀ : Alloc} (hs₀ : s₀.availableRegs = allRegs)
    (hmap : s₀.regMappings = fun _ => none) :
    ∀ n ≤ f.args.length,
      ((∃ s, (f.args.take n).zipIdx.foldlM (preAllocateArg used) { alloc := s₀ } = .ok s) ↔
        ∀ no ∈ usedBelow used n, classIndex f no < 8) ∧
      ∀ s, (f.args.take n).zipIdx.foldlM (preAllocateArg used) { alloc := s₀ } = .ok s →
        ArgsDone f used s₀ n s := by
  intro n
  induction n with
  | zero =>
    intro _
    refine ⟨by simp [usedBelow]; exact ⟨_, rfl⟩, fun s hs => ?_⟩
    cases hs
    refine ⟨fun c => by cases c <;> rfl, by simp [usedBelow], fun v _ => by simp [hmap], ?_,
      rfl, rfl, rfl⟩
    simp [usedBelow, argRegs, hs₀]
  | succ n ih =>
    intro hn
    obtain ⟨hiff, hdone⟩ := ih (Nat.le_of_succ_le hn)
    have hget : f.args[n]? = some f.args[n] := List.getElem?_eq_getElem hn
    have hzip : (f.args.take (n + 1)).zipIdx = (f.args.take n).zipIdx ++ [(f.args[n], n)] := by
      rw [List.take_add_one, hget, List.zipIdx_append]
      simp [Nat.min_eq_left (Nat.le_of_succ_le hn)]
    have hcount : ∀ s, ArgsDone f used s₀ n s →
        s.counter f.args[n].isFloat = classIndex f n := by
      intro s hs
      rw [hs.counter, classIndex, isFloat_arg hget]
    simp only [hzip, List.foldlM_append, List.foldlM_cons, List.foldlM_nil, Fallible.bind_ok]
    cases hused : used (.arg n) with
    | false =>
      have hbelow : usedBelow used (n + 1) = usedBelow used n := by simp [usedBelow_succ, hused]
      simp only [preAllocateArg_eq, hused, Bool.false_eq_true, if_false, hbelow, ← hiff]
      refine ⟨⟨fun ⟨_, s, hs, _⟩ => ⟨s, hs⟩, fun ⟨s, hs⟩ => ⟨_, s, hs, _, rfl, rfl⟩⟩, ?_⟩
      rintro s' ⟨s, hs, s₁, hs₁, hs'⟩
      cases hs₁
      cases hs'
      exact (hdone s hs).skip hget hused
    | true =>
      have hbelow : usedBelow used (n + 1) = usedBelow used n ++ [n] := by
        simp [usedBelow_succ, hused]
      have hbank : (∃ r, (bank (isFloat f (.arg n)))[classIndex f n]? = some r) ↔
          classIndex f n < 8 := by
        rw [← Option.isSome_iff_exists, ← bank_length (isFloat f (.arg n))]
        simp
      simp only [preAllocateArg_eq, hused, if_true, hbelow, List.forall_mem_append,
        List.forall_mem_singleton, ← hiff, ← hbank]
      constructor
      · constructor
        · rintro ⟨_, s, hs, s₁, hs₁, -⟩
          rw [hcount s (hdone s hs), ← isFloat_arg hget] at hs₁
          refine ⟨⟨s, hs⟩, ?_⟩
          split at hs₁
          · cases hs₁
          · exact ⟨_, by assumption⟩
        · rintro ⟨⟨s, hs⟩, r, hr⟩
          exact ⟨_, s, hs, _, by rw [hcount s (hdone s hs), ← isFloat_arg hget, hr], rfl⟩
      · rintro s' ⟨s, hs, s₁, hs₁, hs'⟩
        cases hs'
        rw [hcount s (hdone s hs), ← isFloat_arg hget] at hs₁
        split at hs₁
        · cases hs₁
        · rename_i r hr
          cases hs₁
          have := (hdone s hs).take hget hused hr f.args[n].isPointer
          rwa [← isFloat_arg hget] at this

/-! ## The scan -/

variable {intervals kept done : List ValInterval} {s s₀ : Alloc} {i : ValInterval} {nos : List Nat}

/-- The registers of the active intervals. -/
def activeRegs (s : Alloc) : List Reg := s.active.map fun j => (s.regOf j.1).reg

/-- The members when the intervals `done` have been scanned and those of `kept` are in registers;
`s₀` is what `pre_allocate_args` has left for the arguments `nos`. -/
structure Scanned (f : Func) (nos : List Nat) (s₀ : Alloc) (kept done : List ValInterval)
    (s : Alloc) : Prop where
  opened : ∀ t, (∀ j ∈ done, ¬ t < j.2.start) → (openAt s.active t).Perm (openAt kept t)
  byEnd : ByEnd s.active
  sub : ∀ j ∈ s.active, j ∈ kept
  nodup : (s.active.map Prod.fst).Nodup
  scanned : ∀ j ∈ kept, j ∈ done ∧ preAllocated f j.1 = false
  /-- Every register of the pool is available, taken by an argument or by an active interval. -/
  pool : (s.availableRegs ++ (argRegs s₀ nos ++ activeRegs s)).Perm allRegs
  entry : ∀ j ∈ kept, ∃ r, s.regMappings j.1 = some r ∧ r.reg ∈ allRegs ∧
    r.reg.f = isFloat f j.1 ∧ r.reg ∉ argRegs s₀ nos
  only : ∀ v, (∀ j ∈ kept, v ≠ j.1) → s.regMappings v = s₀.regMappings v
  apart : ∀ i ∈ kept, ∀ j ∈ kept, i.1 ≠ j.1 → i.2.Overlaps j.2 →
    (s.regOf i.1).reg ≠ (s.regOf j.1).reg
  slots : ∀ v, s.stackMappings v = s₀.stackMappings v ∨
    (∃ j ∈ done, j.1 = v ∧ preAllocated f v = false) ∧ ∀ j ∈ kept, v ≠ j.1

/-! ### Expiry -/

theorem dropWhile_eq_openAt {l : List ValInterval} (h : ByEnd l) (t : Point) :
    l.dropWhile (fun j => decide (j.2.stop < t)) = openAt l t := by
  induction l with
  | nil => rfl
  | cons j l ih =>
    obtain ⟨hj, hl⟩ := List.pairwise_cons.mp h
    unfold openAt at ih ⊢
    by_cases hlt : j.2.stop < t
    · rw [List.dropWhile_cons_of_pos (by simpa using hlt), List.filter_cons_of_neg (by simpa using hlt),
        ih hl]
    · rw [List.dropWhile_cons_of_neg (by simpa using hlt), List.filter_cons_of_pos (by simpa using hlt),
        List.filter_eq_self.mpr]
      intro k hk
      simpa using Point.not_lt_trans hlt (hj k hk)

theorem openAt_openAt {l : List ValInterval} {t t' : Point} (h : ¬ t' < t) :
    openAt (openAt l t) t' = openAt l t' := by
  unfold openAt
  rw [List.filter_filter]
  refine List.filter_congr fun j _ => ?_
  by_cases hj : j.2.stop < t'
  · simp [hj]
  · have : ¬ j.2.stop < t := Point.not_lt_trans h hj
    simp [hj, this]

/-- The loop over `delete_list`. -/
theorem foldl_expire (X : List Reg) (rest : List ValInterval) :
    ∀ (D : List ValInterval) (s : Alloc), s.active = D ++ rest → (s.active.map Prod.fst).Nodup →
      (s.availableRegs ++ (X ++ activeRegs s)).Perm allRegs →
      let s' := D.foldl (fun s j => freeReg { s with active := s.active.filter (·.1 ≠ j.1) } j) s
      s'.active = rest ∧ s'.regMappings = s.regMappings ∧ s'.stackMappings = s.stackMappings ∧
        (s'.availableRegs ++ (X ++ activeRegs s')).Perm allRegs := by
  intro D
  induction D with
  | nil => exact fun s hs _ hp => ⟨hs, rfl, rfl, hp⟩
  | cons j D ih =>
    intro s hs hnd hp
    have hfilter : s.active.filter (·.1 ≠ j.1) = D ++ rest := by
      rw [hs, List.map_append, List.map_cons, List.cons_append, List.nodup_cons] at hnd
      rw [hs, List.cons_append, List.filter_cons_of_neg (by simp), List.filter_eq_self]
      intro k hk
      have hne : k.1 ≠ j.1 := by
        intro heq
        refine hnd.1 (heq ▸ ?_)
        rw [← List.map_append]
        exact List.mem_map_of_mem hk
      simpa using hne
    have hmem : (s.regOf j.1).reg ∉ s.availableRegs := by
      have hdis := (List.nodup_append.mp (hp.nodup_iff.mpr allRegs_nodup)).2.2
      intro hav
      refine hdis _ hav _ (List.mem_append_right _ ?_) rfl
      exact List.mem_map.mpr ⟨j, by rw [hs]; simp, rfl⟩
    obtain ⟨h₁, h₂, h₃, h₄⟩ := ih
      (freeReg { s with active := s.active.filter (·.1 ≠ j.1) } j) hfilter (by
        show ((s.active.filter (·.1 ≠ j.1)).map Prod.fst).Nodup
        rw [hfilter]
        rw [hs] at hnd
        exact (List.nodup_cons.mp hnd).2) (by
        refine List.Perm.trans ?_ hp
        show (insertReg s.availableRegs (s.regOf j.1).reg ++ (X ++ (s.active.filter (·.1 ≠ j.1)).map
          fun k => (s.regOf k.1).reg)).Perm (s.availableRegs ++ (X ++ s.active.map
            fun k => (s.regOf k.1).reg))
        rw [hfilter, hs, List.cons_append, List.map_cons]
        refine ((insertReg_perm hmem).append_right _).trans ?_
        rw [List.cons_append]
        refine (@List.perm_middle _ _ s.availableRegs _).symm.trans ?_
        exact List.Perm.append_left _ List.perm_middle.symm)
    exact ⟨h₁, h₂, h₃, h₄⟩

theorem expireOldIntervals_eq (s : Alloc) (i : ValInterval) :
    expireOldIntervals s i =
      (s.active.takeWhile fun j => decide (j.2.stop < i.2.start)).foldl
        (fun s j => freeReg { s with active := s.active.filter (·.1 ≠ j.1) } j) s := rfl

/-- `ExpireOldIntervals` leaves the open intervals active. -/
theorem Scanned.expire (h : Scanned f nos s₀ kept done s) (hi : ∀ j ∈ done, ¬ i.2.start < j.2.start) :
    Scanned f nos s₀ kept (done ++ [i]) (expireOldIntervals s i) ∧
      (expireOldIntervals s i).active.Perm (openAt kept i.2.start) ∧
      (expireOldIntervals s i).stackMappings = s.stackMappings ∧
      (expireOldIntervals s i).regMappings = s.regMappings := by
  have hsplit : s.active = (s.active.takeWhile fun j => decide (j.2.stop < i.2.start)) ++
      openAt s.active i.2.start := by
    rw [← dropWhile_eq_openAt h.byEnd, List.takeWhile_append_dropWhile]
  obtain ⟨hact, hreg, hstack, hpool⟩ := foldl_expire _ _ _ s hsplit h.nodup h.pool
  rw [← expireOldIntervals_eq] at hact hreg hstack hpool
  have hsub : (openAt s.active i.2.start).Sublist s.active := List.filter_sublist
  refine ⟨⟨fun t ht => ?_, ?_, fun j hj => ?_, ?_, fun j hj => ?_, hpool, fun j hj => ?_,
    fun v hv => ?_, fun a ha b hb hne hov => ?_, fun v => ?_⟩, ?_, hstack, hreg⟩
  · have hit : ¬ t < i.2.start := ht i (by simp)
    rw [hact, openAt_openAt hit]
    exact h.opened t fun j hj => ht j (List.mem_append_left _ hj)
  · rw [hact]
    exact h.byEnd.sublist hsub
  · rw [hact] at hj
    exact h.sub j (hsub.subset hj)
  · rw [hact]
    exact h.nodup.sublist (hsub.map _)
  · exact ⟨List.mem_append_left _ (h.scanned j hj).1, (h.scanned j hj).2⟩
  · rw [hreg]
    exact h.entry j hj
  · rw [hreg]
    exact h.only v hv
  · simp only [Alloc.regOf, hreg]
    exact h.apart a ha b hb hne hov
  · rw [hstack]
    refine (h.slots v).imp id fun ⟨⟨j, hj, hjv⟩, hk⟩ => ⟨⟨j, List.mem_append_left _ hj, hjv⟩, hk⟩
  · rw [hact]
    exact h.opened _ hi

/-! ### Registers -/

/-- The registers of a class, counted. -/
theorem Scanned.count (h : Scanned f nos s₀ kept done s) (hnos : ∀ no ∈ nos,
    (s₀.regOf (.arg no)).reg.f = isFloat f (.arg no)) (c : Bool) :
    (s.availableRegs.filter fun r => r.f = c).length +
      ((s.active.filter fun j => isFloat f j.1 = c).length +
        (nos.filter fun no => isFloat f (.arg no) = c).length) = 15 := by
  have hcount := (h.pool.filter fun r => r.f = c).length_eq
  rw [allRegs_class, List.filter_append, List.filter_append, List.length_append,
    List.length_append] at hcount
  have hargs : ((argRegs s₀ nos).filter fun r => r.f = c).length =
      (nos.filter fun no => isFloat f (.arg no) = c).length := by
    rw [argRegs, List.filter_map, List.length_map]
    exact congrArg List.length (List.filter_congr fun no hno => by simp [hnos no hno])
  have hact : ((activeRegs s).filter fun r => r.f = c).length =
      (s.active.filter fun j => isFloat f j.1 = c).length := by
    rw [activeRegs, List.filter_map, List.length_map]
    refine congrArg List.length (List.filter_congr fun j hj => ?_)
    obtain ⟨r, hr, -, hclass, -⟩ := h.entry j (h.sub j hj)
    simp [Alloc.regOf_of_some hr, hclass]
  omega

/-- A free register for a new interval. -/
theorem Scanned.assign (h : Scanned f nos s₀ kept (done ++ [i]) s)
    (hact : s.active.Perm (openAt kept i.2.start)) (hnew : ∀ j ∈ kept, j.1 ≠ i.1)
    (hpre : preAllocated f i.1 = false) (hslot : s.stackMappings i.1 = s₀.stackMappings i.1)
    {r : Reg} (hr : r ∈ s.availableRegs)
    (hclass : r.f = isFloat f i.1) :
    Scanned f nos s₀ (kept ++ [i]) (done ++ [i]) { s.setReg i.1 ⟨r, false⟩ with
      availableRegs := s.availableRegs.filter (· ≠ r)
      active := insertActive less s.active i } := by
  have hperm : (insertActive less s.active i).Perm (i :: s.active) := insertActive_perm _ _
  have hold : ∀ j ∈ kept, (s.setReg i.1 ⟨r, false⟩).regMappings j.1 = s.regMappings j.1 :=
    fun j hj => Alloc.setReg_of_ne (hnew j hj) _ _
  have hregOf : ∀ j ∈ kept, (s.setReg i.1 ⟨r, false⟩).regOf j.1 = s.regOf j.1 := fun j hj => by
    rw [Alloc.regOf, Alloc.regOf, hold j hj]
  have hself : (s.setReg i.1 ⟨r, false⟩).regOf i.1 = ⟨r, false⟩ :=
    Alloc.regOf_of_some (Alloc.setReg_self _ _ _)
  have hpnd := h.pool.nodup_iff.mpr allRegs_nodup
  obtain ⟨hand, -, hdis⟩ := List.nodup_append.mp hpnd
  have hnotArg : r ∉ argRegs s₀ nos := fun hmem => hdis r hr r (List.mem_append_left _ hmem) rfl
  have hnotAct : ∀ j ∈ s.active, (s.regOf j.1).reg ≠ r := fun j hj heq =>
    hdis r hr r (List.mem_append_right _ (List.mem_map.mpr ⟨j, hj, heq⟩)) rfl
  -- an interval that overlaps the new one is active
  have hoverlap : ∀ j ∈ kept, ¬ j.2.stop < i.2.start → j ∈ s.active := fun j hj hstop =>
    hact.mem_iff.mpr (List.mem_filter.mpr ⟨hj, by simpa using hstop⟩)
  refine ⟨fun t ht => ?_, insertActive_byEnd h.byEnd i, fun j hj => ?_, ?_, fun j hj => ?_, ?_,
    fun j hj => ?_, fun v hv => ?_, fun a ha b hb hne hov => ?_, fun v => ?_⟩
  · have hopen := h.opened t ht
    have happ : openAt (kept ++ [i]) t = openAt kept t ++ openAt [i] t := List.filter_append _ _
    rw [happ]
    refine (hperm.filter _).trans ?_
    show (openAt ([i] ++ s.active) t).Perm _
    rw [openAt, List.filter_append]
    exact List.perm_append_comm.trans (hopen.append_right _)
  · rcases List.mem_cons.mp (hperm.mem_iff.mp hj) with rfl | hj
    · simp
    · exact List.mem_append_left _ (h.sub j hj)
  · rw [(hperm.map Prod.fst).nodup_iff, List.map_cons, List.nodup_cons]
    refine ⟨fun hmem => ?_, h.nodup⟩
    obtain ⟨j, hj, hji⟩ := List.mem_map.mp hmem
    exact hnew j (h.sub j hj) hji
  · rcases List.mem_append.mp hj with hj | hj
    · exact h.scanned j hj
    · obtain rfl := List.mem_singleton.mp hj
      exact ⟨by simp, hpre⟩
  · have hregs : ((insertActive less s.active i).map fun j =>
        ((s.setReg i.1 ⟨r, false⟩).regOf j.1).reg).Perm (r :: activeRegs s) := by
      refine (hperm.map _).trans ?_
      rw [List.map_cons, hself]
      refine List.Perm.cons _ (List.Perm.of_eq ?_)
      exact List.map_congr_left fun j hj => by rw [hregOf j (h.sub j hj)]
    refine List.Perm.trans ?_ h.pool
    show (s.availableRegs.filter (· ≠ r) ++ (argRegs s₀ nos ++
      (insertActive less s.active i).map fun j =>
        ((s.setReg i.1 ⟨r, false⟩).regOf j.1).reg)).Perm _
    refine ((hregs.append_left _).append_left _).trans ?_
    refine (List.Perm.append_left _ List.perm_middle).trans ?_
    refine List.perm_middle.trans ?_
    rw [← List.cons_append]
    exact (filter_ne_perm hand hr).append_right _
  · rcases List.mem_append.mp hj with hj | hj
    · obtain ⟨q, hq, hrest⟩ := h.entry j hj
      exact ⟨q, (hold j hj).trans hq, hrest⟩
    · obtain rfl := List.mem_singleton.mp hj
      exact ⟨⟨r, false⟩, Alloc.setReg_self _ _ _, h.pool.mem_iff.mp (List.mem_append_left _ hr),
        hclass, hnotArg⟩
  · have hvi : v ≠ i.1 := hv i (by simp)
    show (s.setReg i.1 _).regMappings v = _
    rw [Alloc.setReg_of_ne hvi]
    exact h.only v fun j hj => hv j (List.mem_append_left _ hj)
  · show ((s.setReg i.1 _).regOf a.1).reg ≠ ((s.setReg i.1 _).regOf b.1).reg
    rcases List.mem_append.mp ha with ha' | ha' <;> rcases List.mem_append.mp hb with hb' | hb'
    · rw [hregOf a ha', hregOf b hb']
      exact h.apart a ha' b hb' hne hov
    · obtain rfl := List.mem_singleton.mp hb'
      rw [hregOf a ha', hself]
      exact hnotAct a (hoverlap a ha' hov.1)
    · obtain rfl := List.mem_singleton.mp ha'
      rw [hregOf b hb', hself]
      exact (hnotAct b (hoverlap b hb' hov.2)).symm
    · exact absurd (by rw [List.mem_singleton.mp ha', List.mem_singleton.mp hb']) hne
  · by_cases hvi : v = i.1
    · subst hvi
      exact Or.inl hslot
    · refine (h.slots v).imp id fun ⟨hd, hk⟩ => ⟨hd, fun j hj => ?_⟩
      rcases List.mem_append.mp hj with hj | hj
      · exact hk j hj
      · obtain rfl := List.mem_singleton.mp hj
        exact hvi

/-- An interval that ends after all active ones gets a stack slot. -/
theorem Scanned.slot (h : Scanned f nos s₀ kept (done ++ [i]) s) (hnew : ∀ j ∈ kept, j.1 ≠ i.1)
    (hpre : preAllocated f i.1 = false) (n off : Int) :
    Scanned f nos s₀ kept (done ++ [i]) { s with
      stackSize := n
      stackMappings := Function.update s.stackMappings i.1 (some off) } := by
  refine { h with slots := fun v => ?_ }
  by_cases hv : v = i.1
  · subst hv
    exact Or.inr ⟨⟨i, by simp, rfl, hpre⟩, fun j hj => (hnew j hj).symm⟩
  · show Function.update s.stackMappings i.1 (some off) v = _ ∨ _
    rw [Function.update_of_ne hv]
    exact h.slots v

/-! ### What later intervals leave alone -/

/-- Entries of other values stay, and so do stack slots. -/
structure Stays (v : Value) (s s' : Alloc) : Prop where
  reg : s'.regMappings v = s.regMappings v
  slot : (s.stackMappings v).isSome = true → (s'.stackMappings v).isSome = true

theorem Stays.refl (v : Value) (s : Alloc) : Stays v s s := ⟨rfl, id⟩

theorem Stays.trans {v : Value} {s s' s'' : Alloc} (h : Stays v s s') (h' : Stays v s' s'') :
    Stays v s s'' := ⟨h'.reg.trans h.reg, fun hs => h'.slot (h.slot hs)⟩

theorem expire_stays (v : Value) (s : Alloc) (i : ValInterval) : Stays v s (expireOldIntervals s i) := by
  rw [expireOldIntervals_eq]
  generalize (s.active.takeWhile fun j => decide (j.2.stop < i.2.start)) = D
  induction D generalizing s with
  | nil => exact Stays.refl v s
  | cons j D ih =>
    have hj : Stays v s (freeReg { s with active := s.active.filter (·.1 ≠ j.1) } j) := ⟨rfl, id⟩
    exact hj.trans (ih _)

theorem slot_isSome_update {v w : Value} {m : Value → Option Int} {off : Int}
    (h : (m v).isSome = true) : (Function.update m w (some off) v).isSome = true := by
  by_cases hv : v = w
  · subst hv
    simp
  · rwa [Function.update_of_ne hv]

theorem scanInterval_stays {v : Value} {s' : Alloc} (hv : v ≠ i.1)
    (h : scanInterval f less s i = .ok s') : Stays v s s' := by
  refine (expire_stays v s i).trans ?_
  unfold scanInterval at h
  simp only at h
  generalize expireOldIntervals s i = s₁ at h ⊢
  split at h
  · cases h
    exact Stays.refl v _
  · split at h
    · unfold spillAtInterval at h
      split at h
      · cases h
      · split at h
        · cases h
          exact ⟨Alloc.setReg_of_ne hv _ _, slot_isSome_update⟩
        · cases h
          exact ⟨rfl, slot_isSome_update⟩
    · unfold assignReg at h
      split at h
      · cases h
      · split at h
        · cases h
        · cases h
          exact ⟨Alloc.setReg_of_ne hv _ _, id⟩

theorem foldlM_stays {v : Value} {rest : List ValInterval} (hv : ∀ i ∈ rest, v ≠ i.1) {s' : Alloc}
    (h : rest.foldlM (scanInterval f less) s = .ok s') : Stays v s s' := by
  induction rest generalizing s with
  | nil =>
    cases h
    exact Stays.refl v _
  | cons i rest ih =>
    rw [List.foldlM_cons] at h
    obtain ⟨s₁, h₁, h₂⟩ := Fallible.bind_ok.mp h
    exact (scanInterval_stays (hv i List.mem_cons_self) h₁).trans
      (ih (fun j hj => hv j (List.mem_cons_of_mem _ hj)) h₂)

/-! ### The end -/

/-- What `pre_allocate_args` has done for the arguments `nos`. -/
structure ArgsReady (f : Func) (nos : List Nat) (s₀ : Alloc) : Prop where
  lt : ∀ no ∈ nos, no < f.args.length
  entry : ∀ no ∈ nos, ∃ r, s₀.regMappings (.arg no) = some r ∧ r.reg.isReal = true ∧
    r.reg.f = isFloat f (.arg no)
  only : ∀ v, (∀ no ∈ nos, v ≠ .arg no) → s₀.regMappings v = none
  nodup : (argRegs s₀ nos).Nodup

theorem ArgsReady.of_done {n : Nat} {s₁ : Alloc} {t : ArgState} (hn : n ≤ f.args.length)
    (h : ArgsDone f used s₁ n t) : ArgsReady f (usedBelow used n) t.alloc where
  lt no hno := Nat.lt_of_lt_of_le (mem_usedBelow.mp hno).1 hn
  entry no hno := by
    obtain ⟨r, hr, hbank⟩ := h.entry no hno
    have hmem := List.mem_of_getElem? hbank
    exact ⟨r, hr, allRegs_real _ (bank_subset _ _ hmem), bank_class _ _ hmem⟩
  only := h.only
  nodup := (List.nodup_append.mp (h.pool.nodup_iff.mpr allRegs_nodup)).2.1

theorem Scanned.sound (h : Scanned f nos s₀ kept intervals s) (ha : ArgsReady f nos s₀)
    (hnd : (intervals.map Prod.fst).Nodup) (hslot : ∀ i ∈ intervals, s₀.stackMappings i.1 = none) :
    Sound f intervals s := by
  -- a value with an entry is a kept one or an argument
  have hcases : ∀ v r, s.regMappings v = some r → (∃ j ∈ kept, v = j.1) ∨
      ∃ no ∈ nos, v = .arg no ∧ s₀.regMappings v = some r := by
    intro v r hr
    by_cases hk : ∃ j ∈ kept, v = j.1
    · exact Or.inl hk
    · rw [h.only v fun j hj hv => hk ⟨j, hj, hv⟩] at hr
      by_cases hn : ∃ no ∈ nos, v = .arg no
      · obtain ⟨no, hno, rfl⟩ := hn
        exact Or.inr ⟨no, hno, rfl, hr⟩
      · rw [ha.only v fun no hno hv => hn ⟨no, hno, hv⟩] at hr
        cases hr
  have hkept : ∀ i ∈ intervals, ∀ j ∈ kept, i.1 = j.1 → i = j := fun i hi j hj hij =>
    List.inj_on_of_nodup_map hnd hi (h.scanned j hj).1 hij
  have hinArgs : ∀ no ∈ nos, ∀ r, s₀.regMappings (.arg no) = some r → r.reg ∈ argRegs s₀ nos :=
    fun no hno r hr => List.mem_map.mpr ⟨no, hno, by rw [Alloc.regOf_of_some hr]⟩
  refine ⟨fun v r hr => ?_, fun i hi j hj hne hov r r' hr hr' => ?_, fun i hi hs => ?_⟩
  · rcases hcases v r hr with ⟨j, hj, rfl⟩ | ⟨no, hno, rfl, hr₀⟩
    · obtain ⟨q, hq, hmem, hclass, -⟩ := h.entry j hj
      rw [hr] at hq
      cases hq
      exact ⟨allRegs_real _ hmem, hclass⟩
    · obtain ⟨q, hq, hreal⟩ := ha.entry no hno
      rw [hr₀] at hq
      cases hq
      exact hreal
  · rcases hcases _ r hr with ⟨a, hak, hia⟩ | ⟨no, hno, hia, hr₀⟩ <;>
      rcases hcases _ r' hr' with ⟨b, hbk, hjb⟩ | ⟨no', hno', hjb, hr₀'⟩
    · obtain rfl := hkept i hi a hak hia
      obtain rfl := hkept j hj b hbk hjb
      have := h.apart i hak j hbk hne hov
      rwa [Alloc.regOf_of_some hr, Alloc.regOf_of_some hr'] at this
    · obtain ⟨q, hq, -, -, hnot⟩ := h.entry a hak
      rw [← hia, hr] at hq
      cases hq
      intro heq
      rw [hjb] at hr₀'
      exact hnot (heq ▸ hinArgs no' hno' r' hr₀')
    · obtain ⟨q, hq, -, -, hnot⟩ := h.entry b hbk
      rw [← hjb, hr'] at hq
      cases hq
      intro heq
      rw [hia] at hr₀
      exact hnot (heq ▸ hinArgs no hno r hr₀)
    · intro heq
      rw [hia] at hr₀ hne
      rw [hjb] at hr₀' hne
      refine hne (congrArg Value.arg (List.inj_on_of_nodup_map ha.nodup hno hno' ?_))
      show (s₀.regOf (.arg no)).reg = (s₀.regOf (.arg no')).reg
      rw [Alloc.regOf_of_some hr₀, Alloc.regOf_of_some hr₀', heq]
  · rcases h.slots i.1 with hsame | ⟨⟨j, hj, hji, hpre⟩, hk⟩
    · rw [hsame, hslot i hi] at hs
      cases hs
    · rw [h.only _ hk, ha.only]
      rintro no hno heq
      rw [heq] at hpre
      simp [preAllocated, ha.lt no hno] at hpre

/-! ### One interval -/

theorem scanInterval_preAllocated (hpre : preAllocated f i.1 = true) :
    scanInterval f less s i = .ok (expireOldIntervals s i) := by
  simp [scanInterval, hpre]

theorem scanInterval_full (hpre : preAllocated f i.1 = false)
    (hfull : (expireOldIntervals s i).active.length = regs.length + fregs.length) :
    scanInterval f less s i = spillAtInterval f less (expireOldIntervals s i) i := by
  simp [scanInterval, hpre, hfull]

theorem scanInterval_assign (hpre : preAllocated f i.1 = false)
    (hfull : (expireOldIntervals s i).active.length ≠ regs.length + fregs.length)
    (hav : (expireOldIntervals s i).availableRegs ≠ [])
    (hnone : (expireOldIntervals s i).regMappings i.1 = none) :
    scanInterval f less s i =
      let s₁ := expireOldIntervals s i
      let r := (s₁.availableRegs.find? fun avai => avai.f = isFloat f i.1).getD ⟨-1, false⟩
      .ok { s₁.setReg i.1 ⟨r, false⟩ with
        availableRegs := s₁.availableRegs.filter (· ≠ r)
        active := insertActive less s₁.active i } := by
  simp only [scanInterval, hpre, Bool.false_eq_true, if_false, hfull, assignReg, hav, hnone,
    Option.isSome_none]
  rfl

theorem ByEnd.le_getLast {l : List ValInterval} (h : ByEnd l) {last : ValInterval}
    (hl : l.getLast? = some last) : ∀ j ∈ l, ¬ last.2.stop < j.2.stop := by
  obtain ⟨front, rfl⟩ := List.getLast?_eq_some_iff.mp hl
  intro j hj
  rcases List.mem_append.mp hj with hj | hj
  · exact (List.pairwise_append.mp h).2.2 j hj last (by simp)
  · obtain rfl := List.mem_singleton.mp hj
    rw [Point.lt_def]
    omega

/-! ### The whole scan -/

/-- From a state of the scan on, the result is sound exactly when the rest fits. -/
theorem scan_sound_iff (ha : ArgsReady f nos s₀) (hnd : (intervals.map Prod.fst).Nodup)
    (hsorted : intervals.Pairwise fun i j => ¬ j.2.start < i.2.start)
    (hslot : ∀ i ∈ intervals, s₀.stackMappings i.1 = none) :
    ∀ (rest done kept : List ValInterval) (s : Alloc), intervals = done ++ rest →
      Scanned f nos s₀ kept done s →
      ((∃ s', rest.foldlM (scanInterval f less) s = .ok s' ∧ Sound f intervals s') ↔
        Fits f nos kept (rest.filter fun i => !preAllocated f i.1)) := by
  intro rest
  induction rest with
  | nil =>
    intro done kept s hsplit h
    rw [List.append_nil] at hsplit
    subst hsplit
    exact ⟨fun _ => trivial, fun _ => ⟨s, rfl, h.sound ha hnd hslot⟩⟩
  | cons i rest ih =>
    intro done kept s hsplit h
    have hnext : intervals = (done ++ [i]) ++ rest := by rw [hsplit, List.append_assoc]; rfl
    have hmem : ∀ j ∈ done ++ [i], j ∈ intervals := fun j hj => by
      rw [hnext]
      exact List.mem_append_left _ hj
    have hbefore : ∀ j ∈ done, ¬ i.2.start < j.2.start := fun j hj => by
      rw [hsplit] at hsorted
      exact (List.pairwise_append.mp hsorted).2.2 j hj i List.mem_cons_self
    have hvals : ∀ j ∈ done, j.1 ≠ i.1 ∧ ∀ k ∈ rest, j.1 ≠ k.1 := fun j hj => by
      rw [hsplit, List.map_append] at hnd
      have hdis := (List.nodup_append.mp hnd).2.2 j.1 (List.mem_map_of_mem hj)
      exact ⟨hdis _ (by simp), fun k hk => hdis _ (by simp; exact Or.inr ⟨_, hk⟩)⟩
    have hival : ∀ k ∈ rest, i.1 ≠ k.1 := fun k hk heq => by
      rw [hsplit, List.map_append, List.map_cons] at hnd
      refine (List.nodup_cons.mp (List.nodup_append.mp hnd).2.1).1 ?_
      rw [heq]
      exact List.mem_map_of_mem hk
    have hnew : ∀ j ∈ kept, j.1 ≠ i.1 := fun j hj => (hvals j (h.scanned j hj).1).1
    obtain ⟨h₁, hact, hstack, hreg⟩ := h.expire hbefore
    rw [List.foldlM_cons]
    cases hpre : preAllocated f i.1 with
    | true =>
      rw [List.filter_cons_of_neg (by simp [hpre]), scanInterval_preAllocated hpre]
      exact ih _ _ _ hnext h₁
    | false =>
      rw [List.filter_cons_of_pos (by simp [hpre])]
      have hnone : (expireOldIntervals s i).regMappings i.1 = none := by
        rw [hreg, h.only _ fun j hj => (hnew j hj).symm, ha.only]
        rintro no hno heq
        rw [heq] at hpre
        simp [preAllocated, ha.lt no hno] at hpre
      have hlen := hact.length_eq
      generalize hs₁ : expireOldIntervals s i = s₁ at *
      by_cases hfull : s₁.active.length = regs.length + fregs.length
      · -- no register is left for one more
        rw [Fits, if_pos (hlen ▸ hfull), scanInterval_full hpre (hs₁ ▸ hfull), hs₁]
        obtain ⟨last, hlast⟩ : ∃ last, s₁.active.getLast? = some last := by
          cases hl : s₁.active.getLast? with
          | none =>
            rw [List.getLast?_eq_none_iff] at hl
            rw [hl] at hfull
            cases hfull
          | some last => exact ⟨last, rfl⟩
        have hlastAct : last ∈ s₁.active := List.mem_of_getLast? hlast
        have hlastKept := h₁.sub last hlastAct
        rw [spillAtInterval, hlast]
        by_cases hsteal : i.2.stop < last.2.stop
        · refine iff_of_false ?_ fun hfit => ?_
          · -- the spilled interval keeps its entry
            rintro ⟨s', hrun, hsound⟩
            simp only [hsteal, if_true, Fallible.ok_bind] at hrun
            have hdone := (h.scanned last hlastKept).1
            have hstays := foldlM_stays (hvals last hdone).2 hrun
            obtain ⟨r, hr, -⟩ := h₁.entry last hlastKept
            have hspilled := hsound.spilled last (hmem last (List.mem_append_left _ hdone))
              (hstays.slot (by simp))
            rw [hstays.reg] at hspilled
            have hkeep := Alloc.setReg_of_ne (hnew last hlastKept) s₁ (s₁.regOf last.1)
            exact absurd (hkeep.symm.trans hspilled) (by simp [hr])
          · exact hfit.1 last (hact.mem_iff.mp hlastAct) hsteal
        · simp only [hsteal, if_false, Fallible.ok_bind]
          rw [ih _ _ _ hnext (h₁.slot hnew hpre _ _)]
          refine ⟨fun hfit => ⟨fun j hj => ?_, hfit⟩, And.right⟩
          exact Point.not_lt_trans (h₁.byEnd.le_getLast hlast j (hact.mem_iff.mpr hj)) hsteal
      · rw [Fits, if_neg (hlen ▸ hfull)]
        have hcount := h₁.count (fun no hno => by
          obtain ⟨r, hr, -, hclass⟩ := ha.entry no hno
          rw [Alloc.regOf_of_some hr, hclass]) (isFloat f i.1)
        rw [(hact.filter _).length_eq] at hcount
        cases hfind : s₁.availableRegs.find? fun avai => avai.f = isFloat f i.1 with
        | none =>
          -- the value gets `Reg(-1)`
          have hno : (s₁.availableRegs.filter fun r => r.f = isFloat f i.1) = [] := by
            refine List.filter_eq_nil_iff.mpr fun r hr => ?_
            simpa using List.find?_eq_none.mp hfind r hr
          rw [hno, List.length_nil] at hcount
          refine iff_of_false ?_ fun hfit => ?_
          · rintro ⟨s', hrun, hsound⟩
            obtain ⟨s₂, hs₂, hrun⟩ := Fallible.bind_ok.mp hrun
            by_cases hav : s₁.availableRegs = []
            · simp [scanInterval, hpre, hs₁, hfull, assignReg, hav, Except.map] at hs₂
            · rw [scanInterval_assign hpre (hs₁ ▸ hfull) (hs₁ ▸ hav) (hs₁ ▸ hnone)] at hs₂
              simp only [hs₁, hfind] at hs₂
              cases hs₂
              have hstays := foldlM_stays hival hrun
              have hentry := hstays.reg.trans (Alloc.setReg_self s₁ i.1 ⟨⟨-1, false⟩, false⟩)
              exact absurd (hsound.real _ _ hentry).1 (by decide)
          · have := hfit.1
            omega
        | some r =>
          have hr := List.mem_of_find?_eq_some hfind
          have hclass : r.f = isFloat f i.1 := by simpa using List.find?_some hfind
          have hav : s₁.availableRegs ≠ [] := List.ne_nil_of_mem hr
          have hpos : 0 < (s₁.availableRegs.filter fun r => r.f = isFloat f i.1).length :=
            List.length_pos_of_mem (List.mem_filter.mpr ⟨hr, by simpa using hclass⟩)
          rw [scanInterval_assign hpre (hs₁ ▸ hfull) (hs₁ ▸ hav) (hs₁ ▸ hnone)]
          simp only [hs₁, hfind, Option.getD_some, Fallible.ok_bind]
          have hslot' : s₁.stackMappings i.1 = s₀.stackMappings i.1 := by
            rw [hstack]
            refine (h.slots i.1).resolve_right ?_
            rintro ⟨⟨j, hj, hji, -⟩, -⟩
            exact (hvals j hj).1 hji
          rw [ih _ _ _ hnext (h₁.assign hact hnew hpre hslot' hr hclass)]
          exact ⟨fun hfit => ⟨by omega, hfit⟩, And.right⟩

/-- **When the linear scan is sound**: exactly when every used argument is one of the first eight of
its class and the other intervals fit. -/
theorem allocate_sound_iff (f : Func) (less : Value → Value → Bool) (m : Members)
    {intervals : List ValInterval} (hI : IsIntervals m intervals) :
    (∃ s, allocate f less m intervals = .ok s ∧ Sound f intervals s) ↔
      ArgsFit f (fun v => intervals.any (·.1 = v)) ∧
        Fits f (usedArgs f fun v => intervals.any (·.1 = v)) []
          (intervals.filter fun i => !preAllocated f i.1) := by
  have hargs := @preAllocate_take f (fun v => intervals.any (·.1 = v))
    ⟨allRegs, [], fun _ => none, m.stackMappings, m.stackSize⟩ rfl rfl f.args.length
    (Nat.le_refl _)
  rw [List.take_length] at hargs
  obtain ⟨hiff, hdone⟩ := hargs
  have hscan : ∀ t, f.args.zipIdx.foldlM (preAllocateArg fun v => intervals.any (·.1 = v))
      { alloc := ⟨allRegs, [], fun _ => none, m.stackMappings, m.stackSize⟩ } = .ok t →
      ((∃ s, intervals.foldlM (scanInterval f less) t.alloc = .ok s ∧ Sound f intervals s) ↔
        Fits f (usedArgs f fun v => intervals.any (·.1 = v)) []
          (intervals.filter fun i => !preAllocated f i.1)) := by
    intro t ht
    have hd := hdone t ht
    obtain ⟨hact, hstack, -⟩ := hd.rest
    refine scan_sound_iff (ArgsReady.of_done (Nat.le_refl _) hd) hI.nodup hI.sorted
      (fun i hi => by rw [hstack]; exact hI.noSlot i hi) intervals [] [] _ rfl
      ⟨fun _ _ => by simp [hact, openAt], by simp [hact, ByEnd], by simp [hact], by simp [hact],
        by simp, ?_, by simp, fun _ _ => rfl, by simp, fun _ => Or.inl rfl⟩
    simpa [activeRegs, hact] using hd.pool
  simp only [allocate, preAllocateArgs, linearScanRegisterAllocation]
  constructor
  · rintro ⟨s, hs, hsound⟩
    obtain ⟨a, ha, hs⟩ := Fallible.bind_ok.mp hs
    cases ht : f.args.zipIdx.foldlM (preAllocateArg fun v => intervals.any (·.1 = v))
      { alloc := ⟨allRegs, [], fun _ => none, m.stackMappings, m.stackSize⟩ } with
    | error e =>
      rw [ht] at ha
      cases ha
    | ok t =>
      rw [ht] at ha
      cases ha
      exact ⟨hiff.mp ⟨t, ht⟩, (hscan t ht).mp ⟨s, hs, hsound⟩⟩
  · rintro ⟨hfit, hfits⟩
    obtain ⟨t, ht⟩ := hiff.mpr hfit
    obtain ⟨s, hs, hsound⟩ := (hscan t ht).mpr hfits
    refine ⟨s, ?_, hsound⟩
    rw [ht]
    exact hs

/-! ## Fourteen sums

`int f(int a, int b)` with fourteen values `a + b` that are all used later: the arguments take two of
the fifteen integer registers, thirteen of the sums the others, and the last one gets `Reg(-1)`. -/

/-- `f`: fourteen sums of the arguments, then the sum of the sums. -/
def sums : Func where
  entry := 0
  rest := []
  pre _ := []
  succ _ := []
  name := "f"
  retTy := .int32
  args := [.int32, .int32]
  body bb := if bb = 0 then List.range 28 else []
  instr i :=
    if i < 14 then { op := .add, ty := .int32, operands := [.arg 0, .arg 1], parent := 0 }
    else if i = 14 then
      { op := .add, ty := .int32, operands := [.instr 0, .instr 1], parent := 0 }
    else if i < 27 then
      { op := .add, ty := .int32, operands := [.instr (i - 1), .instr (i - 13)], parent := 0 }
    else { op := .ret, ty := .void, operands := [.instr 26], parent := 0 }
  uses v := match v with
    | .arg no => (List.range 14).map fun i => (i, no)
    | _ => []
  names v := match v with
    | .arg _ => "arg"
    | .instr i => if i < 27 then "op" else ""
    | _ => ""
  next := 28

/-- The members `init_func` leaves, one instruction a line. -/
def sumsIntervals : List ValInterval :=
  [(.arg 0, ⟨⟨0, 0⟩, ⟨1, 14⟩⟩), (.arg 1, ⟨⟨0, 0⟩, ⟨1, 14⟩⟩), (.instr 0, ⟨⟨1, 1⟩, ⟨1, 15⟩⟩)] ++
    ((List.range 13).map fun k => (.instr (k + 1), ⟨⟨1, k + 2⟩, ⟨1, k + 15⟩⟩)) ++
    (List.range 13).map fun k => (.instr (k + 14), ⟨⟨1, k + 15⟩, ⟨1, k + 16⟩⟩)

/-- The members beside the intervals. -/
def sumsMembers : Members := ⟨8, fun _ => none, fun _ => none⟩

theorem sums_intervals : IsIntervals sumsMembers sumsIntervals where
  nodup := by decide
  sorted := by decide +kernel
  noSlot _ _ := rfl

/-- The intervals are those of `init_func`. -/
example : (match initFunc sums 3 with
    | .ok o => sumsIntervals.all fun i => o.2.val2interval i.1 = some i.2
    | .error _ => false) = true := by
  decide +kernel

/-- The theorem at `f`. -/
theorem allocate_sums_iff :
    (∃ s, allocate sums (fun _ _ => false) sumsMembers sumsIntervals = .ok s ∧
        Sound sums sumsIntervals s) ↔
      ArgsFit sums (fun v => sumsIntervals.any (·.1 = v)) ∧
        Fits sums (usedArgs sums fun v => sumsIntervals.any (·.1 = v)) []
          (sumsIntervals.filter fun i => !preAllocated sums i.1) :=
  allocate_sound_iff sums (fun _ _ => false) sumsMembers sums_intervals

/-- **The last sum gets no register.** -/
theorem allocate_sums_unsound :
    IsIntervals sumsMembers sumsIntervals ∧
      ∃ s, allocate sums (fun _ _ => false) sumsMembers sumsIntervals = .ok s ∧
        s.regMappings (.instr 13) = some ⟨⟨-1, false⟩, false⟩ ∧ ¬ Sound sums sumsIntervals s := by
  refine ⟨sums_intervals, ?_⟩
  have hrun : (match allocate sums (fun _ _ => false) sumsMembers sumsIntervals with
      | .ok s => s.regMappings (.instr 13)
      | .error _ => none) = some ⟨⟨-1, false⟩, false⟩ := by
    decide +kernel
  cases ha : allocate sums (fun _ _ => false) sumsMembers sumsIntervals with
  | error e =>
    rw [ha] at hrun
    cases hrun
  | ok s =>
    rw [ha] at hrun
    exact ⟨s, rfl, hrun, fun hsound => absurd (hsound.real _ _ hrun).1 (by decide)⟩

end Cminusfc.Codegen.RegAlloc
