import Mathlib.Logic.Function.Basic

/-!
# Ranges handed out downwards

A layout gives some places of any type `ι` a range of integers, the bytes of the place. `Laid lo hi L`
says that all of them lie in `[lo, hi)` and that two places share no byte. Places are added below the
lowest one, as a stack grows.

Results:
* `Laid.empty`: a layout without places.
* `Laid.push`: the next place, directly below the others.
* `Laid.weaken`: room below the lowest place.
-/

namespace Layout

/-- The integers from `lo` on, `size` of them. -/
structure Range where
  lo : Int
  size : Int
  deriving Repr, DecidableEq

/-- `b` is one of the integers of the range. -/
def Range.Has (r : Range) (b : Int) : Prop := r.lo ≤ b ∧ b < r.lo + r.size

universe u

variable {ι : Type u} {lo hi n : Int} {L : ι → Option Range}

/-- The places lie in `[lo, hi)`, and no two of them meet. -/
structure Laid (lo hi : Int) (L : ι → Option Range) : Prop where
  le : lo ≤ hi
  within : ∀ i r b, L i = some r → r.Has b → lo ≤ b ∧ b < hi
  apart : ∀ i j r q b, i ≠ j → L i = some r → L j = some q → r.Has b → ¬ q.Has b

theorem Laid.empty (h : lo ≤ hi) : Laid lo hi (fun _ : ι => none) := ⟨h, nofun, nofun⟩

theorem Laid.weaken (h : Laid lo hi L) (hn : 0 ≤ n) : Laid (lo - n) hi L := by
  refine ⟨by have := h.le; omega, fun i r b hi hb => ?_, h.apart⟩
  obtain ⟨hlo, hhi⟩ := h.within i r b hi hb
  exact ⟨by omega, hhi⟩

/-- **The next place**, directly below the others. A place handed out again is moved. -/
theorem Laid.push [DecidableEq ι] (h : Laid lo hi L) (hn : 0 ≤ n) (i : ι) :
    Laid (lo - n) hi (Function.update L i (some ⟨lo - n, n⟩)) := by
  have hlow := h.le
  refine ⟨by omega, fun j r b hj hb => ?_, fun j k r q b hjk hj hk hr hq => ?_⟩
  · by_cases hji : j = i
    · subst hji
      rw [Function.update_self] at hj
      cases hj
      obtain ⟨h₁, h₂⟩ := hb
      dsimp only at h₁ h₂
      omega
    · rw [Function.update_of_ne hji] at hj
      exact (h.weaken hn).within j r b hj hb
  · by_cases hji : j = i
    · subst hji
      rw [Function.update_self] at hj
      rw [Function.update_of_ne hjk.symm] at hk
      cases hj
      have hb := (h.within k q b hk hq).1
      obtain ⟨-, h₂⟩ := hr
      dsimp only at h₂
      omega
    · rw [Function.update_of_ne hji] at hj
      by_cases hki : k = i
      · subst hki
        rw [Function.update_self] at hk
        cases hk
        have hb := (h.within j r b hj hr).1
        obtain ⟨-, h₂⟩ := hq
        dsimp only at h₂
        omega
      · rw [Function.update_of_ne hki] at hk
        exact h.apart j k r q b hjk hj hk hr hq

/-- Two places with a byte in common. -/
theorem Laid.not_of_meet {i j : ι} {r q : Range} {b : Int} (hij : i ≠ j) (hi' : L i = some r)
    (hj : L j = some q) (hr : r.Has b) (hq : q.Has b) : ¬ Laid lo hi L :=
  fun h => h.apart i j r q b hij hi' hj hr hq

end Layout
