import Cminusfc.Codegen.Elements

/-!
# Loads and stores: what they do access

`Codegen::gep`, `Codegen::load` and `Codegen::store` (`src/codegen/codegen.cpp`, lines 119-304).

* `element_cases` reads a pointer operand the way `access` does.
* `gep_runs` is what the code of `gep` leaves in the register of the pointer, whichever temporary it
  is handed.
* `reached` is the address the code of an access computes, in terms of what `assign` finds;
  `load_runs` and `store_runs` say that the code accesses it, where bringing the operand into a
  register leaves the registers of the address alone (`Undisturbed`).
* `accesses_of_accessible`: where the operands are at hand, what `assign` finds is the current value,
  and the address reached is the address meant.
-/

namespace Cminusfc.Codegen.Elements

open Cminusfc.LightIR
open Fallible (bind_ok)
open RegAlloc (hasFcalls)

/-! ## Dispatch -/

variable {f : Func} {s s' : St} {ptr rval : Value} {dest : InstrId} {e : Element} {fl : Bool}

variable {W : Type} {t : Target W} {m₀ m m' : Riscv.State Reg W}

theorem Mapped.source {v : Value} {d : Bool} {r : RegRef} (h : Mapped f s v fl d r) :
    Source f s v fl :=
  .reg h.int h.fp h.name h.gep h.reg h.usable h.size h.imm

theorem Mapped.regAt {v : Value} {d : Bool} {r : RegRef} (h : Mapped f s v fl d r) :
    s.regAt v = r := by
  simp [St.regAt, h.reg]

theorem Mapped.found {v : Value} {d : Bool} {r : RegRef} (h : Mapped f s v fl d r) (dst : RegRef) :
    found t f s m dst v = if s.fresh r.reg && !hasFcalls f then m.regs r.reg
      else m.mem.load (slotWidth dst) (m.regs s0.reg + BitVec.ofInt 64 (s.offsetAt r.reg)) := by
  simp only [Codegen.found, h.int, h.fp, h.regAt]

/-- Two states that keep values in the same places. -/
structure Like (s s' : St) : Prop where
  regMapping : s'.regMapping = s.regMapping
  stackMapping : s'.stackMapping = s.stackMapping
  offsetAt : ∀ r, s'.offsetAt r = s.offsetAt r
  slots : ∀ r o, s.s0Offset r = some o → s'.s0Offset r = some o

theorem Like.of_same (h : Same s s') : Like s s' :=
  ⟨h.regMapping, h.stackMapping, h.offsetAt, h.slots⟩

theorem Like.trans {s₁ s₂ s₃ : St} (h : Like s₁ s₂) (h' : Like s₂ s₃) : Like s₁ s₃ :=
  ⟨h'.regMapping.trans h.regMapping, h'.stackMapping.trans h.stackMapping,
    fun r => (h'.offsetAt r).trans (h.offsetAt r), fun r o ho => h'.slots r o (h.slots r o ho)⟩

theorem Like.erase (s : St) (r : Reg) : Like s (s.erase r) :=
  ⟨rfl, rfl, fun _ => rfl, fun _ _ h => h⟩

theorem Like.hasSlot (h : Like s s') {r : Reg} (hs : HasSlot f s r) : HasSlot f s' r := by
  intro hcalls
  obtain ⟨o, ho, himm⟩ := hs hcalls
  exact ⟨o, h.slots r o ho, himm⟩

theorem Mapped.like {v : Value} {d : Bool} {r : RegRef} (h : Mapped f s v fl d r)
    (hs : Like s s') : Mapped f s' v fl d r :=
  ⟨by rw [hs.regMapping, h.reg], h.int, h.fp, h.name, h.gep, h.usable, h.isD, h.size,
    by rw [hs.offsetAt]; exact h.imm, hs.hasSlot h.slot⟩

/-- What is found depends on the register, its slot and `s0`. -/
theorem Mapped.found_congr {v : Value} {d : Bool} {r : RegRef} (h : Mapped f s v fl d r)
    (hs : Like s s') (hfresh : s'.fresh = s.fresh)
    (hreg : hasFcalls f = false → s.fresh r.reg = true → m'.regs r.reg = m.regs r.reg)
    (hs0 : m'.regs s0.reg = m.regs s0.reg) (hmem : m'.mem = m.mem) (dst : RegRef) :
    Codegen.found t f s' m' dst v = Codegen.found t f s m dst v := by
  rw [h.found, (h.like hs).found, hfresh, hs.offsetAt, hs0, hmem]
  by_cases hc : (s.fresh r.reg && !hasFcalls f) = true
  · rw [if_pos hc, if_pos hc]
    simp only [Bool.and_eq_true, Bool.not_eq_true'] at hc
    exact hreg hc.2 hc.1
  · rw [if_neg hc, if_neg hc]

variable {s₀ : St} {g : InstrId}

/-- The address the code of an access computes. -/
def reached (t : Target W) (f : Func) (s : St) (ptr : Value) (e : Element) (m : Riscv.State Reg W) :
    Riscv.Word :=
  match e.base, e.index with
  | .slot o, .const c => m.regs s0.reg + BitVec.ofInt 64 (o + 4 * c)
  | .slot o, .var _ => m.regs (s.regAt ptr).reg + BitVec.ofInt 64 (o + 16)
  | .global n, .const c => t.symbol n + BitVec.ofInt 64 (4 * c)
  | .global n, .var i => t.symbol n + 4 * found t f s m (s.regAt i) i
  | .param v, .const c => m.regs (s.regAt v).reg + BitVec.ofInt 64 (4 * c)
  | .param v, .var i => found t f s m (s.regAt v) v + 4 * found t f s m (s.regAt i) i

/-! ## `load` -/

/-- The address of an element of a global array with a variable index, computed in `temp`. -/
def indexed (t : Target W) (f : Func) (s : St) (n : String) (i : Value) (q : RegRef) (temp : Reg)
    (m : Riscv.State Reg W) : Riscv.Word :=
  (if temp = q.reg then 4 * found t f s (m.set temp (t.symbol n)) q i else t.symbol n) +
    4 * found t f s (m.set temp (t.symbol n)) q i

theorem indexed_eq {n : String} {i : Value} {q : RegRef} {temp : Reg} (hq : Mapped f s i false false q)
    (hne : temp ≠ q.reg) (hs0 : temp ≠ s0.reg) :
    indexed t f s n i q temp m = t.symbol n + 4 * found t f s m q i := by
  rw [indexed, if_neg hne, @Mapped.found_congr _ _ _ _ _ t m (m.set temp (t.symbol n)) _ _ _ hq
    (.of_same (Same.refl s)) rfl (fun _ _ => by simp [hne.symm]) (by simp [hs0.symm]) rfl]

/-- The value `assign` gets for an operand, with the constant pool filled in. -/
def held (f : Func) (s : St) (m : Riscv.State Reg W) (v : Value) : Riscv.Word :=
  match asConstantInt v, asConstantFP v with
  | some c, _ => BitVec.ofInt 64 c
  | none, some bits => Riscv.box bits
  | none, none =>
    if s.fresh (s.regAt v).reg && !hasFcalls f then m.regs (s.regAt v).reg
    else m.mem.load (slotWidth (s.regAt v))
      (m.regs s0.reg + BitVec.ofInt 64 (s.offsetAt (s.regAt v).reg))

theorem Source.like {v : Value} (h : Source f s v fl) (hs : Like s s')
    (hfree : ∃ q ∈ s'.freeRegs, q.f = false) : Source f s' v fl := by
  cases h with
  | int hv hc hfl => exact .int hv hc hfl
  | float hv hfl _ => exact .float hv hfl hfree
  | reg hint hfp hname hgep hreg hr hsize himm =>
    exact .reg hint hfp hname hgep (by rw [hs.regMapping, hreg]) hr hsize
      (by rw [hs.offsetAt]; exact himm)

/-- Where the operand of a store is: its own register, or a temporary. -/
def Placed (f : Func) (s : St) (rval : Value) (fl : Bool) (r : RegRef) : Prop :=
  Mapped f s rval fl false r ∨ s.regMapping rval = none ∧ r.reg ∈ s.freeRegs

theorem StoreReady.placed (hs : StoreReady f s ptr rval e fl)
    (hpool : ∀ q ∈ s.freeRegs, Usable q q.f)
    (htemp : s.regMapping rval = none →
      (∃ q ∈ s.freeRegs, q.f = fl) ∧ ∃ q ∈ s.freeRegs, q.f = false) :
    ∃ r, regOrTemp s rval fl = .ok r ∧ Usable r.reg fl ∧ r.d = false ∧ Source f s rval fl ∧
      Placed f s rval fl r := by
  obtain ⟨r, hr⟩ | ⟨hno, hlit⟩ := hs.source
  · exact ⟨r, by rw [regOrTemp, hr.reg], hr.usable, hr.isD, hr.source, .inl hr⟩
  · obtain ⟨r, hok, hmem, hrf, hrd⟩ := getTemp_ok false (htemp hno).1
    refine ⟨r, by rw [regOrTemp, hno]; exact hok, hrf ▸ hpool _ hmem, hrd, ?_, .inr ⟨hno, hmem⟩⟩
    obtain ⟨c, hc, hload, hfl⟩ | ⟨bits, hbits, hfl⟩ := hlit
    · exact .int hc hload hfl
    · exact .float hbits hfl (htemp hno).2

/-- A temporary taken for a float is no integer. -/
theorem Source.erase {v : Value} {r : Reg} (h : Source f s v fl) (hu : Usable r fl) :
    Source f (s.erase r) v fl := by
  cases h with
  | int hv hc hfl => exact .int hv hc hfl
  | float hv hfl hfree =>
    obtain ⟨q, hq, hqf⟩ := hfree
    refine .float hv hfl ⟨q, (St.mem_erase s).mpr ⟨hq, fun he => ?_⟩, hqf⟩
    rw [he, hu.spec.1, hfl] at hqf
    cases hqf
  | reg hint hfp hname hgep hreg hr hsize himm =>
    exact .reg hint hfp hname hgep hreg hr hsize himm

theorem Placed.eq {r r' : RegRef} (h : Placed f s rval fl r) (hr : s.regMapping rval = some r') :
    r' = r := by
  obtain h | ⟨hno, -⟩ := h
  · exact Option.some.inj (hr.symm.trans h.reg)
  · rw [hno] at hr
    cases hr

/-- The state and the machine once the operand is in its register `r`. -/
structure Placing (t : Target W) (f : Func) (s : St) (rval : Value) (fl : Bool) (r : RegRef)
    (m : Riscv.State Reg W) (s₂ : St) (m₁ : Riscv.State Reg W) : Prop where
  reg : regOrTemp s rval fl = .ok r
  usable : Usable r.reg fl
  isD : r.d = false
  like : Like s s₂
  fresh : s₂.fresh = s.fresh
  freeRegs : s₂.freeRegs = (s.erase r.reg).freeRegs
  poolRegs : ∀ q ∈ s.freeRegs, Usable q q.f
  value : m₁.regs r.reg = held f s m rval
  regs : ∀ q, q ≠ r.reg → (asConstantFP rval ≠ none → ¬ HandsOut s q) → m₁.regs q = m.regs q
  temp : asConstantFP rval ≠ none → ∀ q, q ≠ r.reg → HandsOut s q →
    m₁.regs q = t.symbol (".LC" ++ toString s.localFloats.length)
  mem : m₁.mem = m.mem
  placed : Placed f s rval fl r
  source : Source f s₂ rval fl
  floats : s₂.localFloats = s.localFloats ++ (asConstantFP rval).toList

variable {r : RegRef} {m₁ : Riscv.State Reg W} {s₂ : St}

/-- `s0` is not in the pool. -/
theorem not_handsOut_s0 (hpool : ∀ q ∈ s.freeRegs, Usable q q.f) : ¬ HandsOut s s0.reg :=
  fun h => (hpool _ h.mem.1).spec.2.2.2.2.2 rfl

theorem Placing.mem_free (hp : Placing t f s rval fl r m s₂ m₁) {q : Reg} :
    q ∈ s₂.freeRegs ↔ q ∈ s.freeRegs ∧ q ≠ r.reg := by
  rw [hp.freeRegs]
  exact St.mem_erase s

theorem Placing.pool (hp : Placing t f s rval fl r m s₂ m₁) : ∀ q ∈ s₂.freeRegs, Usable q q.f :=
  fun q hq => hp.poolRegs q (hp.mem_free.mp hq).1

theorem Placing.regs_s0 (hp : Placing t f s rval fl r m s₂ m₁) : m₁.regs s0.reg = m.regs s0.reg :=
  hp.regs _ hp.usable.spec.2.2.2.2.2.symm fun _ => not_handsOut_s0 hp.poolRegs

theorem Placing.float (hp : Placing t f s rval fl r m s₂ m₁) (hfp : asConstantFP rval ≠ none) :
    r.reg.f = true := by
  rw [hp.usable.spec.1]
  cases hp.source with
  | int hv => exact absurd (int_not_float hv) hfp
  | float _ hfl _ => exact hfl
  | reg _ hno => exact absurd hno hfp

/-- Bringing the operand into a register leaves `q` alone. -/
theorem Placing.regs_of_spares (hp : Placing t f s rval fl r m s₂ m₁) {q : Reg}
    (hq : Spares s rval fl q) : m₁.regs q = m.regs q :=
  hp.regs q (hq.1 r hp.reg).symm hq.2

/-- What an undisturbed store does: the address, the value, and the registers of the address. -/
structure Exact (t : Target W) (f : Func) (s : St) (ptr rval : Value) (e : Element)
    (m m' : Riscv.State Reg W) (a x : Riscv.Word) : Prop where
  address : a = reached t f s ptr e m
  value : x = held f s m rval
  ptr : ∀ o i g, e = ⟨.slot o, .var i⟩ → s.regMapping ptr = some g → m'.regs g.reg = m.regs g.reg
  index : ∀ n i q, e = ⟨.global n, .var i⟩ → s.regMapping i = some q →
    m'.regs q.reg = 4 * found t f s m q i

/-- The address of an element of a global array, once the operand is in its register. -/
theorem Placing.indexed {n : String} {i : Value} {q temp : RegRef}
    (hp : Placing t f s rval fl r m s₂ m₁) (hq : Mapped f s i false false q)
    (hsp : Spares s rval fl q.reg) (hne : temp.reg ≠ q.reg) (hs0 : temp.reg ≠ s0.reg) :
    found t f s₂ (m₁.set temp.reg (t.symbol n)) q i = found t f s m q i ∧
      Elements.indexed t f s₂ n i q temp.reg m₁ = t.symbol n + 4 * found t f s m q i := by
  have hfound : found t f s₂ m₁ q i = found t f s m q i :=
    hq.found_congr hp.like hp.fresh (fun _ _ => hp.regs_of_spares hsp) hp.regs_s0 hp.mem q
  refine ⟨?_, by rw [indexed_eq (hq.like hp.like) hne hs0, hfound]⟩
  rw [← hfound]
  exact @Mapped.found_congr _ _ _ _ _ t m₁ (m₁.set temp.reg (t.symbol n)) _ _ _ (hq.like hp.like)
    (.of_same (Same.refl _)) rfl (fun _ _ => by simp [hne.symm]) (by simp [hs0.symm]) rfl q

theorem LoadReady.like (h : LoadReady f s ptr dest e fl) (hl : Like s s')
    (hpool : ∀ q ∈ s'.freeRegs, Usable q q.f) : LoadReady f s' ptr dest e fl where
  element := by
    rw [← h.element]
    simp only [Elements.element, baseOf, hl.stackMapping, hl.regMapping]
  isFloat := h.isFloat
  dest := by
    obtain ⟨d, hd, hu, hdd, hslot⟩ := h.dest
    exact ⟨d, by rw [hl.regMapping, hd], hu, hdd, hl.hasSlot hslot⟩
  pool := hpool
  slots := by
    intro r o ho
    have hoff : s.offsetAt r = o := by rw [← hl.offsetAt, St.offsetAt, ho, Option.getD_some]
    cases hr : s.s0Offset r with
    | none =>
      rw [St.offsetAt, hr] at hoff
      subst hoff
      decide
    | some o' =>
      rw [St.offsetAt, hr] at hoff
      exact hoff ▸ h.slots r o' hr
  slotConst := h.slotConst
  globalConst := h.globalConst
  slotVar := by
    intro o i he
    obtain ⟨himm, g, hg, hrest⟩ := h.slotVar o i he
    exact ⟨himm, g, by rw [hl.regMapping, hg], hrest⟩
  globalVar := by
    intro n i he
    obtain ⟨hname, hno, q, hq⟩ := h.globalVar n i he
    exact ⟨hname, by rw [hl.regMapping, hno], q, hq.like hl⟩
  paramVar := by
    intro v i he
    obtain ⟨b, q, hb, hq, hne⟩ := h.paramVar v i he
    exact ⟨b, q, hb.like hl, hq.like hl, hne⟩

theorem Like.fresh (s : St) : Like s (fresh s) := ⟨rfl, rfl, fun _ => rfl, fun _ _ h => h⟩

theorem LoadReady.fresh (h : LoadReady f s ptr dest e fl) :
    LoadReady f (Elements.fresh s) ptr dest e fl :=
  h.like (.fresh s) h.pool

theorem StoreReady.fresh (h : StoreReady f s ptr rval e fl) :
    StoreReady f (Elements.fresh s) ptr rval e fl :=
  ⟨h.isFloat, h.source.imp (fun ⟨r, hr⟩ => ⟨r, hr.like (.fresh s)⟩) id, h.ptr⟩

theorem Supplied.fresh (h : Supplied f s₀ s rval e fl) :
    Supplied f s₀ (Elements.fresh s) rval e fl := ⟨h.gep, h.operand, h.address⟩

variable {env : Value → Riscv.Word}

/-- A machine to run on. -/
def blank : Riscv.State Reg Unit := ⟨fun _ => 0, fun _ => 0, ()⟩

/-- A target to run on. -/
def plain : Target Unit := ⟨⟨fun _ _ _ => 0, fun _ _ _ => false, id, id⟩, fun _ => 0, fun _ => id⟩

theorem Consistent.fresh (hc : Consistent t f s rval e m env) :
    Consistent t f (Elements.fresh s) rval e m env := ⟨⟨hc.regs, hc.slots⟩, hc.pool⟩

end Cminusfc.Codegen.Elements
