import Mathlib.Data.List.Basic

/-!
# Loops that may fail

Rules for `Except` computations and for `List.foldlM` over them.

* `bind_ok`: a sequence succeeds when both parts do.
* `foldlM_keeps`: an invariant of a loop.
* `foldlM_steps`: a loop whose body succeeds, from every state that meets an invariant, exactly on
  the elements with a property, succeeds exactly on the lists all of whose elements have it.
* `Along P W l`: every element `c` of `l` meets `P` of what stands in front of it, `W` included.
* `throughout_iff`: where each step from a state with `P` keeps `P` exactly when it meets `Q`, every
  state of a run has `P` exactly when every step of it meets `Q`.
-/

namespace Fallible

universe u

variable {ε α β σ : Type u}

theorem bind_ok {x : Except ε α} {f : α → Except ε β} {r : β} :
    (x >>= f) = .ok r ↔ ∃ a, x = .ok a ∧ f a = .ok r := by
  cases x <;> simp [bind, Except.bind]

theorem map_ok {x : Except ε α} {g : α → β} {r : β} :
    x.map g = .ok r ↔ ∃ a, x = .ok a ∧ g a = r := by
  cases x <;> simp [Except.map]

@[simp] theorem ok_bind (a : α) (f : α → Except ε β) : (Except.ok a >>= f) = f a := rfl

/-- An invariant of a loop that may fail. -/
theorem foldlM_keeps {f : σ → α → Except ε σ} {I : σ → Prop} {l : List α}
    (h : ∀ a ∈ l, ∀ s s', I s → f s a = .ok s' → I s') :
    ∀ {s s' : σ}, I s → l.foldlM f s = .ok s' → I s' := by
  induction l with
  | nil =>
    intro s s' hs hl
    cases hl
    exact hs
  | cons a l ih =>
    intro s s' hs hl
    obtain ⟨ha, hrest⟩ := List.forall_mem_cons.mp h
    rw [List.foldlM_cons] at hl
    obtain ⟨s₁, h₁, hl⟩ := bind_ok.mp hl
    exact ih hrest (ha s s₁ hs h₁) hl

/-- A fallible step that keeps the invariant `I` and, from a state that meets it, succeeds exactly
when `c` holds. -/
def Steps (I : σ → Prop) (c : Prop) (f : σ → Except ε σ) : Prop :=
  ∀ s, I s → ((∃ s', f s = .ok s') ↔ c) ∧ ∀ s', f s = .ok s' → I s'

/-- One invariant, one condition on the element: when a loop succeeds. -/
theorem foldlM_steps {f : σ → α → Except ε σ} {I : σ → Prop} {c : α → Prop} {l : List α}
    (h : ∀ a ∈ l, Steps I (c a) (f · a)) : Steps I (∀ a ∈ l, c a) (fun s => l.foldlM f s) := by
  induction l with
  | nil =>
    intro s hs
    refine ⟨⟨fun _ => by simp, fun _ => ⟨s, rfl⟩⟩, fun s' h => ?_⟩
    cases h
    exact hs
  | cons a l ih =>
    obtain ⟨ha, hl⟩ := List.forall_mem_cons.mp h
    intro s hs
    obtain ⟨hiff, hkeep⟩ := ha s hs
    simp only [List.foldlM_cons, List.forall_mem_cons]
    constructor
    · constructor
      · rintro ⟨s', h⟩
        obtain ⟨s₁, h₁, h⟩ := bind_ok.mp h
        exact ⟨hiff.mp ⟨s₁, h₁⟩, (ih hl s₁ (hkeep s₁ h₁)).1.mp ⟨s', h⟩⟩
      · rintro ⟨hc, hc'⟩
        obtain ⟨s₁, h₁⟩ := hiff.mpr hc
        obtain ⟨s', h⟩ := (ih hl s₁ (hkeep s₁ h₁)).1.mpr hc'
        exact ⟨s', bind_ok.mpr ⟨s₁, h₁, h⟩⟩
    · intro s' h
      obtain ⟨s₁, h₁, h⟩ := bind_ok.mp h
      exact (ih hl s₁ (hkeep s₁ h₁)).2 s' h

/-- Every element meets `P` of the elements in front of it, those of `W` included. -/
def Along (P : List α → α → Prop) : List α → List α → Prop
  | _, [] => True
  | W, c :: l => P W c ∧ Along P (W ++ [c]) l

variable {P : List α → α → Prop}

instance Along.decidable [∀ W c, Decidable (P W c)] : ∀ W l, Decidable (Along P W l)
  | _, [] => isTrue trivial
  | W, c :: l =>
    have := Along.decidable (W ++ [c]) l
    inferInstanceAs (Decidable (P W c ∧ Along P (W ++ [c]) l))

theorem along_append {l l' : List α} :
    ∀ {W : List α}, Along P W (l ++ l') ↔ Along P W l ∧ Along P (W ++ l) l' := by
  induction l with
  | nil => simp [Along]
  | cons c l ih =>
    intro W
    simp [Along, ih, and_assoc]

theorem along_iff {l : List α} :
    ∀ {W : List α}, Along P W l ↔ ∀ pre c post, l = pre ++ c :: post → P (W ++ pre) c := by
  induction l with
  | nil => simp [Along]
  | cons a l ih =>
    intro W
    simp only [Along, ih]
    constructor
    · rintro ⟨ha, hl⟩ pre c post h
      cases pre with
      | nil =>
        obtain ⟨rfl, -⟩ := List.cons.inj h
        simpa using ha
      | cons b pre =>
        obtain ⟨rfl, hrest⟩ := List.cons.inj h
        simpa using hl pre c post hrest
    · intro h
      refine ⟨by simpa using h [] a l rfl, fun pre c post hl => ?_⟩
      simpa using h (a :: pre) c post (by rw [hl]; rfl)

/-! ## Runs -/

section Runs

variable {step : σ → α → Except ε σ} {P : σ → Prop} {Q : σ → α → Prop}

/-- `P` holds in every state of the run that takes the steps `l` from `s`, as far as it gets. -/
def Throughout (step : σ → α → Except ε σ) (P : σ → Prop) : σ → List α → Prop
  | s, [] => P s
  | s, a :: l => P s ∧ ∀ s', step s a = .ok s' → Throughout step P s' l

/-- Every step of the run that succeeds meets `Q` of the state in front of it. -/
def EachStep (step : σ → α → Except ε σ) (Q : σ → α → Prop) : σ → List α → Prop
  | _, [] => True
  | s, a :: l => ∀ s', step s a = .ok s' → Q s a ∧ EachStep step Q s' l

theorem Throughout.head {s : σ} {l : List α} (h : Throughout step P s l) : P s := by
  cases l with
  | nil => exact h
  | cons a l => exact h.1

/-- **One step decides a run.** -/
theorem throughout_iff
    (h : ∀ s a s', P s → step s a = .ok s' → (P s' ↔ Q s a)) {l : List α} :
    ∀ {s : σ}, P s → (Throughout step P s l ↔ EachStep step Q s l) := by
  induction l with
  | nil => exact fun hs => ⟨fun _ => trivial, fun _ => hs⟩
  | cons a l ih =>
    intro s hs
    constructor
    · rintro ⟨-, hrest⟩ s' hstep
      have hs' := (hrest s' hstep).head
      exact ⟨(h s a s' hs hstep).mp hs', (ih hs').mp (hrest s' hstep)⟩
    · intro heach
      refine ⟨hs, fun s' hstep => ?_⟩
      obtain ⟨hq, hrest⟩ := heach s' hstep
      exact (ih ((h s a s' hs hstep).mpr hq)).mpr hrest

end Runs

end Fallible
