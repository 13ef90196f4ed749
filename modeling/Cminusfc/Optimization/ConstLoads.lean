import Mathlib.Data.List.Induction
import Cminusfc.Lib.Fallible
import Cminusfc.LightIR.Edit
import Cminusfc.LightIR.Exec
import Cminusfc.Optimization.ConstPropagation

/-!
# Which loads constant propagation replaces

All addresses that are not globals share one entry of `map_`, the one of the null pointer. So a load
through an alloca or a `getelementptr` is replaced by what the last store through any such address
has stored.

`Comes host m f seen map x`: in a run on `m` the pass comes to the instruction `x` of a block of the
function `f`, has seen `seen` of the block and has the map `map`. Instructions are recorded as they
are when the pass reads them.

* `MostRecent f seen x v`: `v` is what the most recent store to the address `x` loads from has
  stored, and nothing in between may write there.
* **`localLoads_iff`**: the pass replaces loads through addresses that are not globals by their most
  recent values only, exactly when in each block the last store through any such address agrees with
  the most recent store to the address itself (`LastIsMostRecent`).
* `localLoads_twoVariables`: the program that keeps two variables apart, and does not.

About the loads and stores of `ConstPropagation::run`, `src/optimization/ConstPropagation.cpp`
147-234.
-/

namespace Cminusfc.Optimization.ConstPropagation

open Cminusfc.LightIR

/-! ## The block as the pass reads it -/

/-- The instructions `is` as the pass reads them, from `s` on. -/
def reads (host : Host) : St → List InstrId → List Instr
  | _, [] => []
  | s, i :: is =>
    s.f.instr i ::
      match visitInstr host s i with
      | .ok s' => reads host s' is
      | .error _ => []

/-- `get_lval` of a load or a store. -/
def lval (x : Instr) : Value := if x.op = .store then operand x 1 else operand x 0

/-- A store through an address that is no global. -/
def isLocalStore (x : Instr) : Bool := x.op = .store && key (operand x 1) = none

/-- The last store through an address that is no global. -/
def lastLocalStore (seen : List Instr) : Option Instr := (seen.filter isLocalStore).getLast?

/-- The pass comes to the instruction that reads `x`. -/
def Comes (host : Host) (m : Module) (f : Func) (seen : List Instr) (map : Map) (x : Instr) : Prop :=
  ∃ (k : Nat) (s₁ s : RunSt) (f₁ f₀ : Func) (bs bs' : List BlockId) (bb : BlockId)
      (pre post : List InstrId) (i : InstrId) (t : St),
    (List.range k).foldlM (visitFunction host) ⟨m.functions, initMap m, []⟩ = .ok s₁ ∧
    k < m.functions.length ∧ s₁.functions[k]? = some f₁ ∧ f₁.blocks = bs ++ bb :: bs' ∧
    bs.foldlM (visitBlock host k) s₁ = .ok s ∧ s.functions[k]? = some f₀ ∧
    f₀.body bb = pre ++ i :: post ∧ pre.foldlM (visitInstr host) ⟨f₀, s.map, []⟩ = .ok t ∧
    f = t.f ∧ seen = reads host ⟨f₀, s.map, []⟩ pre ∧ map = t.map ∧ x = t.f.instr i

/-- `run` replaces the load `x` by `v`. -/
def ReplacesBy (map : Map) (x : Instr) (v : Value) : Prop :=
  x.op = .load ∧ map (key (lval x)) = some v

/-- The instruction `y` may write what the address `p` points to. A scalar alloca is written under
its own name only; elements of arrays may be written through any other address and by calls; a
global is no element. -/
def MayWrite (f : Func) (p : Value) (y : Instr) : Prop :=
  (y.op = .store ∧ (lval y = p ∨ f.cell p = none ∧ f.cell (lval y) = none ∧ key (lval y) = none)) ∨
    (y.op = .call ∧ f.cell p = none)

/-- `v` is what the most recent store to the address of `x` has stored. -/
def MostRecent (f : Func) (seen : List Instr) (x : Instr) (v : Value) : Prop :=
  ∃ l₁ y l₂, seen = l₁ ++ y :: l₂ ∧ y.op = .store ∧ lval y = lval x ∧ operand y 0 = v ∧
    ∀ z ∈ l₂, ¬ MayWrite f (lval x) z

/-- Loads through addresses that are no globals are replaced by their most recent values only. -/
def LocalLoadsSound (host : Host) (m : Module) : Prop :=
  ∀ f seen map x v, Comes host m f seen map x → key (lval x) = none → ReplacesBy map x v →
    MostRecent f seen x v

/-- Where such a load follows a store through an address that is no global, the last such store has
stored what the most recent one to the address has. -/
def LastIsMostRecent (host : Host) (m : Module) : Prop :=
  ∀ f seen map x, Comes host m f seen map x → x.op = .load → key (lval x) = none →
    ∀ y, lastLocalStore seen = some y → MostRecent f seen x (operand y 0)

/-! ## The entry of the null pointer -/

variable {host : Host} {m : Module} {f : Func} {s t : St} {i : InstrId} {is : List InstrId}
  {x y : Instr} {v : Value} {map : Map} {seen : List Instr}

theorem lastLocalStore_concat (seen : List Instr) (y : Instr) :
    lastLocalStore (seen ++ [y]) = if isLocalStore y then some y else lastLocalStore seen := by
  unfold lastLocalStore
  rw [List.filter_append, List.filter_singleton]
  cases hy : isLocalStore y <;> simp

/-- What one instruction does to the entry of the null pointer. -/
theorem visitInstr_map_none (h : visitInstr host s i = .ok t) :
    t.map none = if isLocalStore (s.f.instr i) then some (operand (s.f.instr i) 0) else s.map none := by
  unfold visitInstr at h
  cases hop : (s.f.instr i).op with
  | store =>
    simp only [hop, Except.ok.injEq] at h
    subst h
    by_cases hkey : key (operand (s.f.instr i) 1) = none
    · simp [isLocalStore, hop, hkey]
    · simp [isLocalStore, hop, hkey, Function.update_of_ne (Ne.symm hkey)]
  | load =>
    have hno : isLocalStore (s.f.instr i) = false := by simp [isLocalStore, hop]
    simp only [hop] at h
    rw [hno]
    split at h <;> cases h <;> rfl
  | _ =>
    have hno : isLocalStore (s.f.instr i) = false := by simp [isLocalStore, hop]
    simp only [hop] at h
    rw [hno]
    split at h <;> cases h <;> rfl

theorem reads_concat : ∀ {is : List InstrId} {s t : St}, is.foldlM (visitInstr host) s = .ok t →
    reads host s (is ++ [i]) = reads host s is ++ [t.f.instr i] := by
  intro is
  induction is with
  | nil =>
    intro s t h
    cases h
    simp only [List.nil_append, reads]
    split <;> rfl
  | cons j is ih =>
    intro s t h
    rw [List.foldlM_cons] at h
    obtain ⟨s', hs', h⟩ := Fallible.bind_ok.mp h
    simp only [List.cons_append, reads, hs', ih h]

/-- **The entry of the null pointer** is what the last store through any address but a global has
stored. -/
theorem foldlM_map_none : ∀ (is : List InstrId) (s t : St), s.map none = none →
    is.foldlM (visitInstr host) s = .ok t →
    t.map none = (lastLocalStore (reads host s is)).map fun y => operand y 0 := by
  intro is
  induction is using List.reverseRecOn with
  | nil =>
    intro s t hs h
    cases h
    exact hs
  | append_singleton is i ih =>
    intro s t hs h
    rw [List.foldlM_append] at h
    obtain ⟨t₁, h₁, h⟩ := Fallible.bind_ok.mp h
    obtain ⟨t', h₂, h⟩ := Fallible.bind_ok.mp h
    cases h
    rw [reads_concat h₁, lastLocalStore_concat, visitInstr_map_none h₂, ih s t₁ hs h₁]
    split <;> rfl

/-- A block starts with no such entry. -/
theorem initMap_none (m : Module) : initMap m none = none := by
  unfold initMap
  have hgen : ∀ (l : List (String × Value)) (map : Map), map none = none →
      l.foldl (fun map g => Function.update map (some g.1) (some g.2)) map none = none := by
    intro l
    induction l with
    | nil => exact fun _ h => h
    | cons g l ih => exact fun map h => ih _ ((Function.update_of_ne (Option.some_ne_none g.1).symm _ _).trans h)
  exact hgen _ _ rfl

theorem foldlM_visitBlock_none {k : Nat} : ∀ (bs : List BlockId) (s s' : RunSt), s.map none = none →
    bs.foldlM (visitBlock host k) s = .ok s' → s'.map none = none := by
  intro bs
  induction bs with
  | nil =>
    intro s s' hs h
    cases h
    exact hs
  | cons bb bs ih =>
    intro s s' _ h
    obtain ⟨s₁, h₁, h⟩ := Fallible.bind_ok.mp h
    refine ih s₁ s' ?_ h
    unfold visitBlock at h₁
    split at h₁
    · cases h₁
    · split at h₁ <;> cases h₁
      rfl

theorem foldlM_visitFunction_none : ∀ (ks : List Nat) (s s' : RunSt), s.map none = none →
    ks.foldlM (visitFunction host) s = .ok s' → s'.map none = none := by
  intro ks
  induction ks with
  | nil =>
    intro s s' hs h
    cases h
    exact hs
  | cons k ks ih =>
    intro s s' hs h
    obtain ⟨s₁, h₁, h⟩ := Fallible.bind_ok.mp h
    refine ih s₁ s' ?_ h
    unfold visitFunction at h₁
    split at h₁
    · cases h₁
    · exact foldlM_visitBlock_none _ _ _ hs h₁

/-- Wherever the pass comes, the entry of the null pointer belongs to the last store through any
address but a global. -/
theorem Comes.map_none (h : Comes host m f seen map x) :
    map none = (lastLocalStore seen).map fun y => operand y 0 := by
  obtain ⟨k, s₁, s, f₁, f₀, bs, bs', bb, pre, post, i, t, h₁, -, -, -, hs, -, -, ht, -, rfl, rfl, -⟩ := h
  refine foldlM_map_none pre _ t ?_ ht
  exact foldlM_visitBlock_none bs s₁ s (foldlM_visitFunction_none _ _ _ (initMap_none m) h₁) hs

/-- **When loads through allocas and `getelementptr` are replaced by their most recent values
only.** -/
theorem localLoads_iff (host : Host) (m : Module) :
    LocalLoadsSound host m ↔ LastIsMostRecent host m := by
  constructor
  · intro h f seen map x hx hop hkey y hy
    refine h f seen map x (operand y 0) hx hkey ⟨hop, ?_⟩
    rw [hkey, hx.map_none, hy]
    rfl
  · rintro h f seen map x v hx hkey ⟨hop, hmap⟩
    rw [hkey, hx.map_none] at hmap
    obtain ⟨y, hy, rfl⟩ := Option.map_eq_some_iff.mp hmap
    exact h f seen map x hx hop hkey y hy

/-! ## Two variables

`int main(void) { int a; int b; a = 1; b = 2; return a; }`. -/

def twoVariablesInstr (i : InstrId) : Instr := match i with
  | 0 | 1 | 2 => { op := .alloca, ty := .pointer .int32, operands := [], parent := 0 }
  | 3 => { op := .store, ty := .void, operands := [.int32 1, .instr 1], parent := 0 }
  | 4 => { op := .store, ty := .void, operands := [.int32 2, .instr 2], parent := 0 }
  | 5 => { op := .load, ty := .int32, operands := [.instr 1], parent := 0 }
  | 6 => { op := .store, ty := .void, operands := [.instr 5, .instr 0], parent := 0 }
  | 7 => { op := .load, ty := .int32, operands := [.instr 0], parent := 0 }
  | _ => { op := .ret, ty := .void, operands := [.instr 7], parent := 0 }

/-- `main`; the first alloca is for the value returned. -/
def twoVariables : Func where
  entry := 0
  rest := []
  pre _ := []
  succ _ := []
  name := "main"
  retTy := .int32
  body bb := if bb = 0 then [0, 1, 2, 3, 4, 5, 6, 7, 8] else []
  instr := twoVariablesInstr
  uses v := match v with
    | .instr 0 => [(6, 1), (7, 0)]
    | .instr 1 => [(3, 1), (5, 0)]
    | .instr 2 => [(4, 1)]
    | .instr 5 => [(6, 0)]
    | .instr 7 => [(8, 0)]
    | _ => []
  next := 9

/-- **The load of `a` is replaced by 2**, what has been stored to `b`. -/
theorem localLoads_twoVariables :
    ¬ ∃ host : Host, LocalLoadsSound host { functions := [twoVariables] } := by
  rintro ⟨host, h⟩
  have hx : Comes host { functions := [twoVariables] } twoVariables
      ([0, 1, 2, 3, 4].map twoVariablesInstr)
      (Function.update (Function.update (fun _ => none) none (some (.int32 1))) none
        (some (.int32 2))) (twoVariablesInstr 5) :=
    ⟨0, _, _, _, _, [], [], 0, [0, 1, 2, 3, 4], [6, 7, 8], 5,
      ⟨twoVariables, Function.update (Function.update (fun _ => none) none (some (.int32 1))) none
        (some (.int32 2)), []⟩, rfl, by decide, rfl, rfl, rfl, rfl, rfl, rfl, rfl, rfl, rfl, rfl⟩
  obtain ⟨l₁, y, l₂, hseen, hop, hl, hv, -⟩ := h _ _ _ _ (.int32 2) hx rfl ⟨rfl, rfl⟩
  have hall : ∀ y ∈ [0, 1, 2, 3, 4].map twoVariablesInstr, y.op = .store →
      lval y = .instr 1 → operand y 0 ≠ .int32 2 := by decide
  exact hall y (by rw [hseen]; simp) hop hl hv

/-- What `main` returns after the pass. -/
example (host : Host) : ((run host { functions := [twoVariables] }).toOption.bind fun m =>
    m.functions[0]?).map (fun g => (g.body 0, (g.instr 8).operands)) =
      some ([0, 1, 2, 3, 4, 6, 8], [.int32 2]) := by
  rfl

end Cminusfc.Optimization.ConstPropagation
