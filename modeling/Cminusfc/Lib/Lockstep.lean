import Mathlib.Data.Sum.Basic

/-!
# Deterministic machines in lockstep

`run step k n s` makes `n` steps of a machine from `s`. The step function may depend on the number
`k` of steps made before, so that a nondeterministic choice can be an oracle. A step ends the run
with a result or continues it.

* `run_add`: a run in two parts.
* `run_lockstep`: a relation that every pair of steps keeps is kept by runs, and related runs end
  together with equal results.
* `run_simulates`: the same for as long as the states of a run meet a condition.
-/

namespace Lockstep

variable {σ τ ρ : Type*}

/-- `n` steps from `s`, the first of which is step number `k`. -/
def run (step : Nat → σ → σ ⊕ ρ) : Nat → Nat → σ → σ ⊕ ρ
  | _, 0, s => .inl s
  | k, n + 1, s =>
    match step k s with
    | .inl s' => run step (k + 1) n s'
    | .inr r => .inr r

variable {step : Nat → σ → σ ⊕ ρ} {step' : Nat → τ → τ ⊕ ρ}

@[simp] theorem run_zero (k : Nat) (s : σ) : run step k 0 s = .inl s := rfl

theorem run_succ (k n : Nat) (s : σ) :
    run step k (n + 1) s =
      match step k s with
      | .inl s' => run step (k + 1) n s'
      | .inr r => .inr r := rfl

theorem run_add {k n m : Nat} {s s' : σ} (h : run step k n s = .inl s') :
    run step k (n + m) s = run step (k + n) m s' := by
  induction n generalizing k s with
  | zero =>
    obtain rfl : s = s' := Sum.inl.inj h
    rw [Nat.zero_add, Nat.add_zero]
  | succ n ih =>
    rw [run_succ] at h
    rw [Nat.add_right_comm, run_succ]
    cases hs : step k s with
    | inl s₁ =>
      rw [hs] at h
      have := ih h
      rw [Nat.add_right_comm, Nat.add_assoc] at this
      exact this
    | inr r =>
      rw [hs] at h
      cases h

/-- **Lockstep simulation.** -/
theorem run_lockstep (R : Nat → σ → τ → Prop)
    (hstep : ∀ k s t, R k s t → Sum.LiftRel (R (k + 1)) Eq (step k s) (step' k t)) :
    ∀ n k s t, R k s t → Sum.LiftRel (R (k + n)) Eq (run step k n s) (run step' k n t) := by
  intro n
  induction n with
  | zero => exact fun k s t h => Sum.LiftRel.inl h
  | succ n ih =>
    intro k s t h
    rw [run_succ, run_succ]
    have hs := hstep k s t h
    cases hl : step k s with
    | inl s' =>
      rw [hl] at hs
      cases hr : step' k t with
      | inl t' =>
        rw [hr] at hs
        have := ih (k + 1) s' t' (Sum.liftRel_inl_inl.mp hs)
        rw [Nat.add_right_comm, Nat.add_assoc] at this
        exact this
      | inr r =>
        rw [hr] at hs
        cases hs
    | inr r =>
      rw [hl] at hs
      cases hr : step' k t with
      | inl t' =>
        rw [hr] at hs
        cases hs
      | inr r' =>
        rw [hr] at hs
        exact Sum.LiftRel.inr (Sum.liftRel_inr_inr.mp hs)

/-- **Simulation along a run**: the steps of the first machine are matched as long as the states it
reaches meet `Q`. -/
theorem run_simulates {ρ' : Type*} {step' : Nat → τ → τ ⊕ ρ'} (R : σ → τ → Prop) (Q : σ → Prop)
    (hstep : ∀ k s t s', R s t → Q s → step k s = .inl s' → ∃ t', step' k t = .inl t' ∧ R s' t') :
    ∀ n k s t s', R s t → (∀ m < n, ∀ u, run step k m s = .inl u → Q u) →
      run step k n s = .inl s' → ∃ t', run step' k n t = .inl t' ∧ R s' t' := by
  intro n
  induction n with
  | zero =>
    intro k s t s' hR _ h
    cases h
    exact ⟨t, rfl, hR⟩
  | succ n ih =>
    intro k s t s' hR hQ h
    rw [run_succ] at h
    cases hs : step k s with
    | inr r => simp [hs] at h
    | inl s₁ =>
      rw [hs] at h
      obtain ⟨t₁, ht, hR₁⟩ := hstep k s t s₁ hR (hQ 0 (Nat.succ_pos n) s rfl) hs
      obtain ⟨t', ht', hR'⟩ := ih (k + 1) s₁ t₁ s' hR₁
        (fun m hm u hu => hQ (m + 1) (by omega) u (by rw [run_succ, hs]; exact hu)) h
      exact ⟨t', by rw [run_succ, ht]; exact ht', hR'⟩

end Lockstep
