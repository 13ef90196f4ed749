import Cminusfc.Codegen.LinearScanCorrect

/-!
# When the linear scan spills

`SpillAtInterval` runs when as many intervals are active as there are temporaries. Which intervals are
active depends on the intervals alone as long as nothing has been spilled, whatever registers they
got (`Tracked`).

Results:
* `slots_own_size`: an entry that the scan makes in `stack_mappings` is the size of the value.
* `allocate_keyed`: only values with an interval have registers.
* `allocate_roomy`: without a spill the slots are those of the allocas.
* `allocate_spills`: else some value with an interval gets a slot.

About `src/codegen/regalloc.cpp` 58-69 and 149-195.
-/

namespace Cminusfc.Codegen.RegAlloc

open Cminusfc.LightIR
open Fallible (bind_ok map_ok Along)

variable {f : Func} {less : Value → Value → Bool} {m : Members}
  {intervals kept : List ValInterval} {now : Point} {i : ValInterval} {s s' s₀ : Alloc}

/-- At the start of an interval fewer of the earlier ones `kept` are open than there are
temporaries. -/
def Room (kept : List ValInterval) (i : ValInterval) : Prop :=
  (openAt kept i.2.start).length < regs.length + fregs.length

instance (kept : List ValInterval) (i : ValInterval) : Decidable (Room kept i) :=
  inferInstanceAs (Decidable (_ < _))

/-- There is room for every interval that is not one of an argument. -/
def Roomy (f : Func) (intervals : List ValInterval) : Prop :=
  Along Room [] (intervals.filter fun i => !preAllocated f i.1)

instance (f : Func) (intervals : List ValInterval) : Decidable (Roomy f intervals) :=
  inferInstanceAs (Decidable (Along _ _ _))

/-! ## Slots -/

/-- What the scan makes of the slots `slots`. -/
structure SlotsFrom (f : Func) (slots : Value → Option Int) (s : Alloc) : Prop where
  own : ∀ v, s.stackMappings v = slots v ∨ s.stackMappings v = some (-((typeOf f v).size : Int))

theorem SlotsFrom.spill {slots : Value → Option Int} (h : SlotsFrom f slots s) (v : Value)
    {s' : Alloc} (hs : s'.stackMappings =
      Function.update s.stackMappings v (some (-((typeOf f v).size : Int)))) :
    SlotsFrom f slots s' := by
  refine ⟨fun w => ?_⟩
  rw [hs]
  by_cases hw : w = v
  · subst hw
    exact Or.inr (Function.update_self _ _ _)
  · rw [Function.update_of_ne hw]
    exact h.own w

/-- What `ExpireOldIntervals` leaves alone. -/
theorem expireOldIntervals_members (s : Alloc) (i : ValInterval) :
    (expireOldIntervals s i).regMappings = s.regMappings ∧
      (expireOldIntervals s i).stackMappings = s.stackMappings ∧
        (expireOldIntervals s i).stackSize = s.stackSize := by
  rw [expireOldIntervals_eq]
  exact List.foldlRecOn (motive := fun t : Alloc => t.regMappings = s.regMappings ∧
    t.stackMappings = s.stackMappings ∧ t.stackSize = s.stackSize) _ _ ⟨rfl, rfl, rfl⟩
    fun _ ht _ _ => ht

theorem spillAtInterval_slots {slots : Value → Option Int} (hs : SlotsFrom f slots s)
    (h : spillAtInterval f less s i = .ok s') :
    SlotsFrom f slots s' ∧ ∃ w, (w = i.1 ∨ w ∈ s.active.map Prod.fst) ∧
      (s'.stackMappings w).isSome = true := by
  unfold spillAtInterval at h
  split at h
  · cases h
  · rename_i spill hlast
    split_ifs at h with hsteal
    · cases h
      refine ⟨hs.spill spill.1 rfl, spill.1, Or.inr ?_, by simp⟩
      exact List.mem_map_of_mem (List.mem_of_getLast? hlast)
    · cases h
      exact ⟨hs.spill i.1 rfl, i.1, Or.inl rfl, by simp⟩

/-- The other branch gives a register. -/
theorem assignReg_members (h : assignReg f s i = .ok s') :
    s'.active = s.active ∧ s'.stackMappings = s.stackMappings ∧ s'.stackSize = s.stackSize ∧
      ∃ r, s'.regMappings = Function.update s.regMappings i.1 (some ⟨r, false⟩) := by
  unfold assignReg at h
  split_ifs at h
  cases h
  exact ⟨rfl, rfl, rfl, _, rfl⟩

theorem scanInterval_slots {slots : Value → Option Int} (hs : SlotsFrom f slots s)
    (h : scanInterval f less s i = .ok s') : SlotsFrom f slots s' := by
  have hexp : SlotsFrom f slots (expireOldIntervals s i) :=
    ⟨fun v => by rw [(expireOldIntervals_members s i).2.1]; exact hs.own v⟩
  unfold scanInterval at h
  dsimp only at h
  split_ifs at h
  · cases h
    exact hexp
  · exact (spillAtInterval_slots hexp h).1
  · obtain ⟨s₁, h₁, rfl⟩ := map_ok.mp h
    exact ⟨fun v => by
      show s₁.stackMappings v = _ ∨ _
      rw [(assignReg_members h₁).2.1]
      exact hexp.own v⟩

/-- **Every entry the scan makes is the size of the value.** -/
theorem slots_own_size {slots : Value → Option Int} {l : List ValInterval}
    (hs : SlotsFrom f slots s) (h : l.foldlM (scanInterval f less) s = .ok s') :
    SlotsFrom f slots s' :=
  Fallible.foldlM_keeps (fun _ _ _ _ => scanInterval_slots) hs h

/-! ## The active intervals -/

/-- The active intervals while nothing has been spilled: those of `kept` that are open from `now`
on. -/
structure Tracked (kept : List ValInterval) (now : Point) (s : Alloc) : Prop where
  opened : ∀ t, ¬ t < now → (openAt s.active t).Perm (openAt kept t)
  byEnd : ByEnd s.active
  sub : ∀ j ∈ s.active, j ∈ kept
  nodup : (s.active.map Prod.fst).Nodup
  small : s.active.length ≤ regs.length + fregs.length

/-- The loop over `delete_list`, of the active intervals only. -/
theorem foldl_expire_active (rest : List ValInterval) :
    ∀ (D : List ValInterval) (s : Alloc), s.active = D ++ rest → (s.active.map Prod.fst).Nodup →
      (D.foldl (fun s j => freeReg { s with active := s.active.filter (·.1 ≠ j.1) } j) s).active =
        rest := by
  intro D
  induction D with
  | nil => exact fun s hs _ => hs
  | cons j D ih =>
    intro s hs hnd
    rw [hs, List.map_append, List.map_cons, List.cons_append, List.nodup_cons] at hnd
    have hfilter : s.active.filter (·.1 ≠ j.1) = D ++ rest := by
      rw [hs, List.cons_append, List.filter_cons_of_neg (by simp), List.filter_eq_self]
      intro k hk
      have hne : k.1 ≠ j.1 := by
        intro heq
        refine hnd.1 (heq ▸ ?_)
        rw [← List.map_append]
        exact List.mem_map_of_mem hk
      simpa using hne
    refine ih (freeReg { s with active := s.active.filter (·.1 ≠ j.1) } j) hfilter ?_
    show ((s.active.filter (·.1 ≠ j.1)).map Prod.fst).Nodup
    rw [hfilter, List.map_append]
    exact hnd.2

theorem Tracked.expire (h : Tracked kept now s) (hi : ¬ i.2.start < now) :
    Tracked kept i.2.start (expireOldIntervals s i) ∧
      (expireOldIntervals s i).active.Perm (openAt kept i.2.start) := by
  have hsplit : s.active = (s.active.takeWhile fun j => decide (j.2.stop < i.2.start)) ++
      openAt s.active i.2.start := by
    rw [← dropWhile_eq_openAt h.byEnd, List.takeWhile_append_dropWhile]
  have hact := foldl_expire_active _ _ s hsplit h.nodup
  rw [← expireOldIntervals_eq] at hact
  have hsub : (openAt s.active i.2.start).Sublist s.active := List.filter_sublist
  refine ⟨⟨fun t ht => ?_, ?_, fun j hj => ?_, ?_, ?_⟩, ?_⟩
  · rw [hact, openAt_openAt ht]
    exact h.opened t (Point.not_lt_trans hi ht)
  · rw [hact]
    exact h.byEnd.sublist hsub
  · rw [hact] at hj
    exact h.sub j (hsub.subset hj)
  · rw [hact]
    exact h.nodup.sublist (hsub.map _)
  · rw [hact]
    exact hsub.length_le.trans h.small
  · rw [hact]
    exact h.opened _ hi

/-- A new active interval. -/
theorem Tracked.insert (h : Tracked kept now s) (hnew : ∀ j ∈ kept, j.1 ≠ i.1)
    (hroom : s.active.length < regs.length + fregs.length)
    (hs : s'.active = insertActive less s.active i) : Tracked (kept ++ [i]) now s' := by
  have hperm : (insertActive less s.active i).Perm (i :: s.active) := insertActive_perm _ _
  rw [← hs] at hperm
  refine ⟨fun t ht => ?_, hs ▸ insertActive_byEnd h.byEnd i, fun j hj => ?_, ?_, ?_⟩
  · have happ : openAt (kept ++ [i]) t = openAt kept t ++ openAt [i] t := List.filter_append _ _
    rw [happ]
    refine (hperm.filter _).trans ?_
    show (openAt ([i] ++ s.active) t).Perm _
    rw [openAt, List.filter_append]
    exact List.perm_append_comm.trans ((h.opened t ht).append_right _)
  · rcases List.mem_cons.mp (hperm.mem_iff.mp hj) with rfl | hj
    · simp
    · exact List.mem_append_left _ (h.sub j hj)
  · rw [(hperm.map Prod.fst).nodup_iff, List.map_cons, List.nodup_cons]
    refine ⟨fun hmem => ?_, h.nodup⟩
    obtain ⟨j, hj, hji⟩ := List.mem_map.mp hmem
    exact hnew j (h.sub j hj) hji
  · rw [hperm.length_eq, List.length_cons]
    exact hroom

/-- What holds of the registers: only those of pointer arguments are marked. -/
def Marked (f : Func) (intervals : List ValInterval) (s : Alloc) : Prop :=
  ∀ v r, s.regMappings v = some r → r.d = true →
    v ∈ intervals.map Prod.fst ∧ (typeOf f v).isPointer = true

/-- **One interval with room for it**: it becomes active, and no slot changes. -/
theorem Tracked.scan (intervals : List ValInterval) (h : Tracked kept now s) (hi : ¬ i.2.start < now)
    (hnew : ∀ j ∈ kept, j.1 ≠ i.1) (hpre : preAllocated f i.1 = false) (hroom : Room kept i)
    (hs : scanInterval f less s i = .ok s') :
    Tracked (kept ++ [i]) i.2.start s' ∧ s'.stackMappings = s.stackMappings ∧
      s'.stackSize = s.stackSize ∧ (Marked f intervals s → Marked f intervals s') := by
  obtain ⟨ht, hact⟩ := h.expire hi
  obtain ⟨hreg, hslots, hsize⟩ := expireOldIntervals_members s i
  have hlt : (expireOldIntervals s i).active.length < regs.length + fregs.length := by
    rw [hact.length_eq]
    exact hroom
  unfold scanInterval at hs
  dsimp only at hs
  rw [if_neg (by rw [hpre]; exact Bool.false_ne_true), if_neg (Nat.ne_of_lt hlt)] at hs
  obtain ⟨s₁, h₁, rfl⟩ := map_ok.mp hs
  obtain ⟨hact₁, hslots₁, hsize₁, r, hr⟩ := assignReg_members h₁
  refine ⟨ht.insert hnew hlt (by rw [hact₁]), hslots₁.trans hslots, hsize₁.trans hsize, ?_⟩
  intro hmarked v q hv hd
  change s₁.regMappings v = some q at hv
  rw [hr] at hv
  by_cases hvi : v = i.1
  · rw [hvi, Function.update_self] at hv
    cases hv
    cases hd
  · rw [Function.update_of_ne hvi, hreg] at hv
    exact hmarked v q hv hd

/-- **One interval without room**: some value with an interval gets a slot. -/
theorem Tracked.spill (h : Tracked kept now s) (hi : ¬ i.2.start < now)
    (hpre : preAllocated f i.1 = false) (hroom : ¬ Room kept i)
    (hs : scanInterval f less s i = .ok s') :
    ∃ w, (w = i.1 ∨ w ∈ kept.map Prod.fst) ∧ (s'.stackMappings w).isSome = true := by
  obtain ⟨ht, hact⟩ := h.expire hi
  have hfull : (expireOldIntervals s i).active.length = regs.length + fregs.length := by
    have hle := ht.small
    have hge := hroom
    unfold Room at hge
    rw [← hact.length_eq] at hge
    omega
  rw [scanInterval_full hpre hfull] at hs
  have hown : SlotsFrom f (expireOldIntervals s i).stackMappings (expireOldIntervals s i) :=
    ⟨fun _ => Or.inl rfl⟩
  obtain ⟨-, w, hw, hslot⟩ := spillAtInterval_slots hown hs
  refine ⟨w, hw.imp id fun hmem => ?_, hslot⟩
  obtain ⟨j, hj, rfl⟩ := List.mem_map.mp hmem
  exact List.mem_map_of_mem (ht.sub j hj)

/-! ## The whole scan -/

/-- What the scan leaves: nothing new in the slots, or a slot for a value that has an interval. -/
theorem scan_roomy_or (intervals : List ValInterval) {l : List ValInterval} :
    ∀ {kept : List ValInterval} {now : Point} {s : Alloc}, Tracked kept now s →
      (∀ j ∈ kept, j ∈ intervals) → (∀ j ∈ l, j ∈ intervals) → (l.map Prod.fst).Nodup →
      (∀ j ∈ kept, ∀ i ∈ l, j.1 ≠ i.1) → (∀ i ∈ l, ¬ i.2.start < now) →
      l.Pairwise (fun i j => ¬ j.2.start < i.2.start) →
      l.foldlM (scanInterval f less) s = .ok s' →
      (Along Room kept (l.filter fun i => !preAllocated f i.1) →
        s'.stackMappings = s.stackMappings ∧ s'.stackSize = s.stackSize ∧
          (Marked f intervals s → Marked f intervals s')) ∧
      (¬ Along Room kept (l.filter fun i => !preAllocated f i.1) →
        ∃ w ∈ intervals.map Prod.fst, (s'.stackMappings w).isSome = true) := by
  induction l with
  | nil =>
    intro kept now s _ _ _ _ _ _ _ h
    cases h
    exact ⟨fun _ => ⟨rfl, rfl, id⟩, fun hn => absurd trivial hn⟩
  | cons i l ih =>
    intro kept now s ht hkept hl hnd hne hnow hsorted h
    rw [List.foldlM_cons] at h
    obtain ⟨s₁, h₁, h⟩ := bind_ok.mp h
    obtain ⟨hi, hl'⟩ := List.forall_mem_cons.mp hl
    obtain ⟨hsi, hsorted'⟩ := List.pairwise_cons.mp hsorted
    rw [List.map_cons, List.nodup_cons] at hnd
    have hilt := hnow i List.mem_cons_self
    cases hpre : preAllocated f i.1 with
    | true =>
      rw [List.filter_cons_of_neg (by simp [hpre])]
      rw [scanInterval_preAllocated hpre] at h₁
      cases h₁
      obtain ⟨hreg, hslots, hsize⟩ := expireOldIntervals_members s i
      have hrest := ih (ht.expire hilt).1 hkept hl' hnd.2
        (fun j hj k hk => hne j hj k (List.mem_cons_of_mem _ hk)) hsi hsorted' h
      rw [hslots, hsize] at hrest
      refine ⟨fun ha => ?_, hrest.2⟩
      obtain ⟨k1, k2, k3⟩ := hrest.1 ha
      refine ⟨k1, k2, fun hm => k3 fun v r hv hd => hm v r (hreg ▸ hv) hd⟩
    | false =>
      rw [List.filter_cons_of_pos (by simp [hpre])]
      by_cases hroom : Room kept i
      · obtain ⟨ht₁, hslots, hsize, hmarked⟩ := ht.scan intervals hilt
          (fun j hj => hne j hj i List.mem_cons_self) hpre hroom h₁
        have hrest := ih ht₁ (List.forall_mem_append.mpr ⟨hkept, by simpa using hi⟩) hl' hnd.2
          (fun j hj k hk => ?_) hsi hsorted' h
        · rw [hslots, hsize] at hrest
          refine ⟨fun ha => ?_, fun hn => hrest.2 fun ha => hn ⟨hroom, ha⟩⟩
          obtain ⟨k1, k2, k3⟩ := hrest.1 ha.2
          exact ⟨k1, k2, fun hm => k3 (hmarked hm)⟩
        · rcases List.mem_append.mp hj with hj | hj
          · exact hne j hj k (List.mem_cons_of_mem _ hk)
          · obtain rfl := List.mem_singleton.mp hj
            intro heq
            exact hnd.1 (heq ▸ List.mem_map_of_mem hk)
      · refine ⟨fun ha => absurd ha.1 hroom, fun _ => ?_⟩
        obtain ⟨w, hw, hslot⟩ := ht.spill hilt hpre hroom h₁
        have hwmem : w ∈ (i :: kept).map Prod.fst := by
          rw [List.map_cons]
          exact List.mem_cons.mpr hw
        refine ⟨w, ?_, ?_⟩
        · obtain ⟨j, hj, rfl⟩ := List.mem_map.mp hwmem
          refine List.mem_map_of_mem ?_
          rcases List.mem_cons.mp hj with rfl | hj
          · exact hi
          · exact hkept j hj
        · refine (foldlM_stays (v := w) (fun k hk heq => ?_) h).slot hslot
          rcases hw with rfl | hw
          · exact hnd.1 (heq ▸ List.mem_map_of_mem hk)
          · obtain ⟨j, hj, rfl⟩ := List.mem_map.mp hw
            exact hne j hj k (List.mem_cons_of_mem _ hk) heq

/-- What `pre_allocate_args` leaves. -/
theorem preAllocateArgs_members
    (h : preAllocateArgs f (fun v => intervals.any (·.1 = v))
      ⟨allRegs, [], fun _ => none, m.stackMappings, m.stackSize⟩ = .ok s) :
    s.active = [] ∧ s.stackMappings = m.stackMappings ∧ s.stackSize = m.stackSize ∧
      Marked f intervals s := by
  obtain ⟨t, ht, rfl⟩ := map_ok.mp h
  refine Fallible.foldlM_keeps (I := fun t : ArgState => t.alloc.active = [] ∧
    t.alloc.stackMappings = m.stackMappings ∧ t.alloc.stackSize = m.stackSize ∧
      Marked f intervals t.alloc) ?_ ⟨rfl, rfl, rfl, fun _ _ hv => by cases hv⟩ ht
  rintro ⟨ty, no⟩ hmem t t' ⟨h1, h2, h3, h4⟩ hstep
  have hget : f.args[no]? = some ty := List.mk_mem_zipIdx_iff_getElem?.mp hmem
  have htype : typeOf f (.arg no) = ty := by simp [typeOf, List.getD, hget]
  rw [preAllocateArg_eq] at hstep
  split_ifs at hstep with hused
  · cases hr : (bank ty.isFloat)[t.counter ty.isFloat]? with
    | none =>
      rw [hr] at hstep
      cases hstep
    | some r =>
      rw [hr] at hstep
      cases hstep
      refine ⟨h1, h2, h3, fun v q hv hd => ?_⟩
      change (t.alloc.setReg (.arg no) ⟨r, ty.isPointer⟩).regMappings v = some q at hv
      by_cases hvi : v = .arg no
      · subst hvi
        rw [Alloc.setReg_self] at hv
        cases hv
        rw [htype]
        obtain ⟨i, hi, hiv⟩ := List.any_eq_true.mp hused
        exact ⟨List.mem_map.mpr ⟨i, hi, of_decide_eq_true hiv⟩, hd⟩
      · rw [Alloc.setReg_of_ne hvi] at hv
        exact h4 v q hv hd
  · cases hstep
    rw [ArgState.bump_alloc]
    exact ⟨h1, h2, h3, h4⟩

/-- Only values with an interval have registers. -/
def Keyed (intervals : List ValInterval) (s : Alloc) : Prop :=
  ∀ v, (s.regMappings v).isSome = true → v ∈ intervals.map Prod.fst

theorem Keyed.set {v : Value} {o : Option RegRef} (h : Keyed intervals s)
    (hv : v ∈ intervals.map Prod.fst) (hs : s'.regMappings = Function.update s.regMappings v o) :
    Keyed intervals s' := by
  intro w hw
  rw [hs] at hw
  by_cases hwv : w = v
  · exact hwv ▸ hv
  · rw [Function.update_of_ne hwv] at hw
    exact h w hw

theorem preAllocateArgs_keyed
    (h : preAllocateArgs f (fun v => intervals.any (·.1 = v))
      ⟨allRegs, [], fun _ => none, m.stackMappings, m.stackSize⟩ = .ok s) : Keyed intervals s := by
  obtain ⟨t, ht, rfl⟩ := map_ok.mp h
  refine Fallible.foldlM_keeps (I := fun t : ArgState => Keyed intervals t.alloc) ?_
    (fun v hv => by cases hv) ht
  rintro ⟨ty, no⟩ - t t' hkeyed hstep
  rw [preAllocateArg_eq] at hstep
  split_ifs at hstep with hused
  · cases hr : (bank ty.isFloat)[t.counter ty.isFloat]? with
    | none =>
      rw [hr] at hstep
      cases hstep
    | some r =>
      rw [hr] at hstep
      cases hstep
      obtain ⟨i, hi, hiv⟩ := List.any_eq_true.mp hused
      exact hkeyed.set (List.mem_map.mpr ⟨i, hi, of_decide_eq_true hiv⟩) rfl
  · cases hstep
    rwa [ArgState.bump_alloc]

theorem allocate_keyed (h : allocate f less m intervals = .ok s') : Keyed intervals s' := by
  obtain ⟨s, hargs, hscan⟩ := bind_ok.mp h
  refine Fallible.foldlM_keeps ?_ (preAllocateArgs_keyed hargs) hscan
  intro i hi s₁ s₂ hkeyed hstep
  have hexp : Keyed intervals (expireOldIntervals s₁ i) := fun v hv =>
    hkeyed v ((expireOldIntervals_members s₁ i).1 ▸ hv)
  have hmem : i.1 ∈ intervals.map Prod.fst := List.mem_map_of_mem hi
  unfold scanInterval at hstep
  dsimp only at hstep
  split_ifs at hstep
  · cases hstep
    exact hexp
  · unfold spillAtInterval at hstep
    split at hstep
    · cases hstep
    · split_ifs at hstep
      · cases hstep
        exact hexp.set hmem rfl
      · cases hstep
        exact hexp
  · obtain ⟨s₃, h₃, rfl⟩ := map_ok.mp hstep
    obtain ⟨-, -, -, r, hr⟩ := assignReg_members h₃
    exact hexp.set hmem hr

/-- The scan, started with no active interval. -/
theorem allocate_scan (hI : IsIntervals m intervals) (h : allocate f less m intervals = .ok s') :
    ∃ s : Alloc, s.stackMappings = m.stackMappings ∧ s.stackSize = m.stackSize ∧
      Marked f intervals s ∧ intervals.foldlM (scanInterval f less) s = .ok s' ∧
      (Roomy f intervals → s'.stackMappings = m.stackMappings ∧ s'.stackSize = m.stackSize ∧
        Marked f intervals s') ∧
      (¬ Roomy f intervals →
        ∃ w ∈ intervals.map Prod.fst, (s'.stackMappings w).isSome = true) := by
  obtain ⟨s, hargs, hscan⟩ := bind_ok.mp h
  obtain ⟨hact, hslots, hsize, hmarked⟩ := preAllocateArgs_members hargs
  -- no point is in front of the first start
  obtain ⟨now, hnow⟩ : ∃ now, ∀ i ∈ intervals, ¬ i.2.start < now := by
    cases hl : intervals with
    | nil => exact ⟨⟨0, 0⟩, nofun⟩
    | cons i l =>
      refine ⟨i.2.start, fun j hj => ?_⟩
      rcases List.mem_cons.mp hj with rfl | hj
      · rw [Point.lt_def]
        omega
      · exact (List.pairwise_cons.mp (hl ▸ hI.sorted)).1 j hj
  have ht : Tracked [] now s := by
    refine ⟨fun t _ => ?_, ?_, ?_, ?_, ?_⟩
    · rw [hact]
    · rw [hact]
      exact List.Pairwise.nil
    · rw [hact]
      exact nofun
    · rw [hact]
      exact List.nodup_nil
    · rw [hact]
      exact Nat.zero_le _
  have hrun := scan_roomy_or intervals ht nofun (fun _ => id) hI.nodup nofun hnow
    hI.sorted hscan
  refine ⟨s, hslots, hsize, hmarked, hscan, fun hr => ?_, hrun.2⟩
  obtain ⟨k1, k2, k3⟩ := hrun.1 hr
  exact ⟨k1.trans hslots, k2.trans hsize, k3 hmarked⟩

/-- **Without a spill** the slots are those of the allocas. -/
theorem allocate_roomy (hI : IsIntervals m intervals) (h : allocate f less m intervals = .ok s')
    (hroomy : Roomy f intervals) : s'.stackMappings = m.stackMappings ∧
      s'.stackSize = m.stackSize ∧ Marked f intervals s' := by
  obtain ⟨-, -, -, -, -, hr, -⟩ := allocate_scan hI h
  exact hr hroomy

/-- **With a spill** some value with an interval has a slot at minus its own size. -/
theorem allocate_spills (hI : IsIntervals m intervals) (h : allocate f less m intervals = .ok s')
    (hroomy : ¬ Roomy f intervals) : ∃ i ∈ intervals,
      s'.stackMappings i.1 = some (-((typeOf f i.1).size : Int)) := by
  obtain ⟨s, hslots, -, -, hscan, -, hn⟩ := allocate_scan hI h
  obtain ⟨w, hw, hslot⟩ := hn hroomy
  obtain ⟨i, hi, rfl⟩ := List.mem_map.mp hw
  have hown : SlotsFrom f m.stackMappings s := ⟨fun v => Or.inl (by rw [hslots])⟩
  refine ⟨i, hi, ((slots_own_size hown hscan).own i.1).resolve_left fun heq => ?_⟩
  rw [heq, hI.noSlot i hi] at hslot
  cases hslot

end Cminusfc.Codegen.RegAlloc
