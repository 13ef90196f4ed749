import Cminusfc.LightIR.Exec

/-!
# Executions, instruction by instruction

`Trace M f p st tr q st'`: an execution that stands at the point `p` of `f` executes the
instructions `tr` one after the other and stands at `q` then. Phis are passed over, so that traces
are for functions without them.

Result:
* `execBody_trace`: the execution of a block is such a trace.

About `Exec`; no function of the source is modelled here.
-/

namespace Cminusfc.LightIR

/-- In front of the `index`-th instruction of `block`. -/
structure Point where
  block : BlockId
  index : Nat
  deriving Repr, DecidableEq

namespace Func

variable {Val World : Type} (M : Machine Val World) (f : Func)

/-- The execution of a list of instructions. -/
inductive Trace : Point → State Val World → List InstrId → Point → State Val World → Prop
  | refl (p : Point) (st : State Val World) : Trace p st [] p st
  | instr {b : BlockId} {k : Nat} {i : InstrId} {st st₁ st₂ : State Val World}
      {tr : List InstrId} {q : Point} (hi : (f.body b)[k]? = some i)
      (hterm : (f.instr i).isTerminator = false) (hexec : f.execInstr M i st = some st₁)
      (rest : Trace ⟨b, k + 1⟩ st₁ tr q st₂) : Trace ⟨b, k⟩ st (i :: tr) q st₂
  | jump {b c : BlockId} {k : Nat} {i : InstrId} {st st₁ st₂ : State Val World}
      {tr : List InstrId} {q : Point} (hi : (f.body b)[k]? = some i)
      (hterm : (f.instr i).isTerminator = true)
      (hjump : execTerminator M (f.instr i) st = .jump c st₁)
      (rest : Trace ⟨c, 0⟩ st₁ tr q st₂) : Trace ⟨b, k⟩ st (i :: tr) q st₂

variable {M f}

theorem Trace.trans {p q r : Point} {st st₁ st₂ : State Val World} {tr tr' : List InstrId}
    (h : f.Trace M p st tr q st₁) (h' : f.Trace M q st₁ tr' r st₂) :
    f.Trace M p st (tr ++ tr') r st₂ := by
  induction h with
  | refl => exact h'
  | instr hi hterm hexec _ ih => exact .instr hi hterm hexec (ih h')
  | jump hi hterm hjump _ ih => exact .jump hi hterm hjump (ih h')

/-- **The execution of a block is a trace** that ends in front of the next block. -/
theorem execBody_trace {b c : BlockId} {st' : State Val World} (l : List InstrId) :
    ∀ (k : Nat) (st : State Val World), (f.body b).drop k = l → f.execBody M l st = .jump c st' →
      ∃ tr, f.Trace M ⟨b, k⟩ st tr ⟨c, 0⟩ st' := by
  induction l with
  | nil =>
    intro k st _ h
    cases h
  | cons i l ih =>
    intro k st hl h
    have hi : (f.body b)[k]? = some i := by
      rw [← List.head?_drop, hl, List.head?_cons]
    have hdrop : (f.body b).drop (k + 1) = l := by
      rw [← List.drop_drop, hl, List.drop_one, List.tail_cons]
    cases hterm : (f.instr i).isTerminator with
    | true =>
      rw [execBody_terminator hterm] at h
      exact ⟨[i], .jump hi hterm h (.refl _ _)⟩
    | false =>
      cases hexec : f.execInstr M i st with
      | none =>
        rw [execBody_none hterm hexec] at h
        cases h
      | some st₁ =>
        rw [execBody_some hterm hexec] at h
        obtain ⟨tr, htr⟩ := ih (k + 1) st₁ hdrop h
        exact ⟨i :: tr, .instr hi hterm hexec htr⟩

end Func

end Cminusfc.LightIR
