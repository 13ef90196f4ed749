import Mathlib.Algebra.Order.Field.Rat
import Mathlib.Data.List.DropRight
import Mathlib.Tactic.FieldSimp
import Mathlib.Tactic.Ring

/-!
# Decimal texts of natural numbers

The general format with `p` significant digits, as `%g` has it, for natural numbers, and the
reading of a decimal text.

* `general p n`: the digits of `n` where there are at most `p`; else `n` rounded to `p` digits, to
  even on a tie, in exponent form and without trailing zeros.
* `read`: digits, a fraction and an exponent, the last two optional.

Results:
* `rounded_eq_iff`: rounding is exact exactly on numbers of at most `p` significant digits.
* `read_general_iff`: **so is the round trip through the text**.
-/

namespace Decimal

open Nat (toDigits ofDigitChars)

/-! ## Significant digits -/

/-- `n` has at most `p` significant digits. -/
def Significant (p n : Nat) : Prop := ∃ m k, m < 10 ^ p ∧ n = m * 10 ^ k

/-- `n` rounded to `p` significant digits, as a number and an exponent; a tie goes to even. -/
def rounded (p n : Nat) : Nat × Nat :=
  let k := (toDigits 10 n).length - p
  let q := n / 10 ^ k
  let r := n % 10 ^ k
  (if 2 * r > 10 ^ k ∨ (2 * r = 10 ^ k ∧ q % 2 = 1) then q + 1 else q, k)

theorem significant_of_lt {p n : Nat} (h : n < 10 ^ p) : Significant p n := ⟨n, 0, h, by simp⟩

/-- The last digits of a number of few significant digits are zeros. -/
theorem Significant.dvd {p n : Nat} (h : Significant p n) :
    10 ^ ((toDigits 10 n).length - p) ∣ n := by
  obtain ⟨m, k, hm, rfl⟩ := h
  rcases Nat.eq_zero_or_pos m with rfl | hpos
  · simp
  · have hlt : m * 10 ^ k < 10 ^ (p + k) := by
      rw [Nat.pow_add]
      exact Nat.mul_lt_mul_of_pos_right hm (Nat.pow_pos (by decide))
    have hlen : (toDigits 10 (m * 10 ^ k)).length ≤ p + k := by
      rcases Nat.eq_zero_or_pos (p + k) with h0 | h0
      · rw [h0, Nat.pow_zero, Nat.lt_one_iff] at hlt
        have := Nat.mul_pos hpos (Nat.pow_pos (n := k) (show 0 < 10 by decide))
        omega
      · exact (Nat.length_toDigits_le_iff (by decide) h0).mpr hlt
    exact Nat.dvd_mul_left_of_dvd (Nat.pow_dvd_pow 10 (by omega)) m

/-- **Rounding is exact exactly on numbers of few significant digits.** -/
theorem rounded_eq_iff {p n : Nat} (hp : 0 < p) :
    (rounded p n).1 * 10 ^ (rounded p n).2 = n ↔ Significant p n := by
  set k := (toDigits 10 n).length - p with hk
  have hpow : 0 < 10 ^ k := Nat.pow_pos (by decide)
  have hdiv := Nat.div_add_mod n (10 ^ k)
  have hmod : n % 10 ^ k < 10 ^ k := Nat.mod_lt _ hpow
  have hsnd : (rounded p n).2 = k := rfl
  have hfst : (rounded p n).1 = n / 10 ^ k ∨ (rounded p n).1 = n / 10 ^ k + 1 := by
    unfold rounded
    dsimp only
    split_ifs
    · exact .inr rfl
    · exact .inl rfl
  rw [hsnd]
  constructor
  · intro h
    have hexact : n = n / 10 ^ k * 10 ^ k := by
      rcases hfst with h1 | h1
      · rw [h1] at h
        exact h.symm
      · rw [h1, Nat.add_mul, Nat.one_mul, Nat.mul_comm] at h
        omega
    refine ⟨n / 10 ^ k, k, ?_, hexact⟩
    have hn : n < 10 ^ (p + k) :=
      (Nat.length_toDigits_le_iff (by decide) (by omega)).mp (by omega)
    exact Nat.div_lt_of_lt_mul (by rwa [← Nat.pow_add, Nat.add_comm k p])
  · intro h
    have hzero : n % 10 ^ k = 0 := Nat.mod_eq_zero_of_dvd h.dvd
    have hdown : (rounded p n).1 = n / 10 ^ k := by
      unfold rounded
      dsimp only
      rw [← hk, hzero, if_neg (by omega)]
    rw [hdown]
    exact Nat.div_mul_cancel (Nat.dvd_of_mod_eq_zero hzero)

/-! ## Texts -/

/-- `m * 10 ^ k` in exponent form: one digit, a fraction without trailing zeros, an exponent of at
least two digits. -/
def scientific (m k : Nat) : List Char :=
  let ds := toDigits 10 m
  let frac := ds.tail.rdropWhile (· = '0')
  let e := k + (ds.length - 1)
  ds.take 1 ++ (if frac = [] then [] else '.' :: frac) ++
    ('e' :: '+' :: (if e < 10 then '0' :: toDigits 10 e else toDigits 10 e))

/-- The general format with `p` significant digits. -/
def general (p n : Nat) : List Char :=
  if n < 10 ^ p then toDigits 10 n else scientific (rounded p n).1 (rounded p n).2

/-- The fraction and what stands behind it. -/
def splitFraction : List Char → List Char × List Char
  | '.' :: cs => (cs.takeWhile Char.isDigit, cs.dropWhile Char.isDigit)
  | cs => ([], cs)

/-- The power of ten that an exponent stands for. -/
def readExponent : List Char → Option ℚ
  | [] => some 1
  | 'e' :: '+' :: cs =>
    if cs ≠ [] ∧ cs.all Char.isDigit then some (10 ^ ofDigitChars 10 cs 0) else none
  | 'e' :: '-' :: cs =>
    if cs ≠ [] ∧ cs.all Char.isDigit then some ((10 ^ ofDigitChars 10 cs 0)⁻¹) else none
  | _ => none

/-- The number a decimal text without a sign stands for. -/
def read (cs : List Char) : Option ℚ :=
  let int := cs.takeWhile Char.isDigit
  let (frac, rest) := splitFraction (cs.dropWhile Char.isDigit)
  if int = [] ∧ frac = [] then none
  else
    (readExponent rest).map fun e =>
      (ofDigitChars 10 (int ++ frac) 0 : ℚ) / 10 ^ frac.length * e

/-! ## Reading a text -/

theorem takeWhile_digits {ds : List Char} (cs : List Char) (hds : ∀ c ∈ ds, c.isDigit = true)
    (hcs : ∀ c ∈ cs.head?, c.isDigit = false) : (ds ++ cs).takeWhile Char.isDigit = ds := by
  rw [List.takeWhile_append_of_pos hds]
  cases cs with
  | nil => simp
  | cons c cs => simp [hcs c rfl]

theorem dropWhile_digits {ds : List Char} (cs : List Char) (hds : ∀ c ∈ ds, c.isDigit = true)
    (hcs : ∀ c ∈ cs.head?, c.isDigit = false) : (ds ++ cs).dropWhile Char.isDigit = cs := by
  rw [List.dropWhile_append_of_pos hds]
  cases cs with
  | nil => rfl
  | cons c cs => simp [hcs c rfl]

theorem toDigits_isDigit {n : Nat} {c : Char} (h : c ∈ toDigits 10 n) : c.isDigit = true :=
  Nat.isDigit_of_mem_toDigits (by decide) (by decide) h

/-- A text of digits. -/
theorem read_digits (n : Nat) : read (toDigits 10 n) = some (n : ℚ) := by
  have hds : ∀ c ∈ toDigits 10 n, c.isDigit = true := fun c hc => toDigits_isDigit hc
  have htake := takeWhile_digits [] hds (by simp)
  have hdrop := dropWhile_digits [] hds (by simp)
  rw [List.append_nil] at htake hdrop
  have hsplit : splitFraction [] = ([], []) := rfl
  simp only [read, htake, hdrop, hsplit, Nat.toDigits_ne_nil, false_and, if_false, readExponent,
    Option.map_some, List.append_nil, Nat.ofDigitChars_ten_toDigits, List.length_nil, pow_zero,
    div_one, mul_one]

/-- A text in exponent form. -/
theorem read_exponent {d : Char} {frac ex : List Char} (hd : d.isDigit = true)
    (hfrac : ∀ c ∈ frac, c.isDigit = true) (hex : ∀ c ∈ ex, c.isDigit = true) (hne : ex ≠ []) :
    read (d :: ((if frac = [] then [] else '.' :: frac) ++ ('e' :: '+' :: ex))) =
      some ((ofDigitChars 10 (d :: frac) 0 : ℚ) / 10 ^ frac.length *
        10 ^ ofDigitChars 10 ex 0) := by
  have hd' : ∀ c ∈ [d], c.isDigit = true := by simpa using hd
  have hexp : readExponent ('e' :: '+' :: ex) = some (10 ^ ofDigitChars 10 ex 0) := by
    rw [readExponent, if_pos ⟨hne, List.all_eq_true.mpr hex⟩]
  by_cases hnil : frac = []
  · subst hnil
    have htake := takeWhile_digits ('e' :: '+' :: ex) hd' (by simp)
    have hdrop := dropWhile_digits ('e' :: '+' :: ex) hd' (by simp)
    rw [List.singleton_append] at htake hdrop
    have hsplit : splitFraction ('e' :: '+' :: ex) = ([], 'e' :: '+' :: ex) := rfl
    simp only [read, if_true, List.nil_append, htake, hdrop, hsplit, hexp, List.cons_ne_nil,
      false_and, if_false, Option.map_some, List.append_nil]
  · have htake := takeWhile_digits ('.' :: (frac ++ 'e' :: '+' :: ex)) hd' (by simp)
    have hdrop := dropWhile_digits ('.' :: (frac ++ 'e' :: '+' :: ex)) hd' (by simp)
    rw [List.singleton_append] at htake hdrop
    have htake' := takeWhile_digits ('e' :: '+' :: ex) hfrac (by simp)
    have hdrop' := dropWhile_digits ('e' :: '+' :: ex) hfrac (by simp)
    have hsplit : splitFraction ('.' :: (frac ++ 'e' :: '+' :: ex)) = (frac, 'e' :: '+' :: ex) := by
      rw [splitFraction, htake', hdrop']
    simp only [read, if_neg hnil, List.cons_append, htake, hdrop, hsplit, hexp, List.cons_ne_nil,
      false_and, if_false, Option.map_some, List.nil_append]

/-- Dropping trailing zeros. -/
theorem rdropWhile_zeros (l : List Char) :
    ∃ z, l = l.rdropWhile (· = '0') ++ List.replicate z '0' := by
  refine ⟨(l.reverse.takeWhile (· = '0')).length, ?_⟩
  have hzeros : l.reverse.takeWhile (· = '0') =
      List.replicate (l.reverse.takeWhile (· = '0')).length '0' := by
    refine List.eq_replicate_iff.mpr ⟨rfl, fun c hc => ?_⟩
    simpa using List.mem_takeWhile_imp hc
  have hsplit := List.takeWhile_append_dropWhile (p := (· = '0')) (l := l.reverse)
  have hrev := congrArg List.reverse hsplit
  rw [List.reverse_append, List.reverse_reverse, hzeros, List.reverse_replicate] at hrev
  rw [List.rdropWhile]
  exact hrev.symm

theorem ofDigitChars_zeros (l : List Char) (z : Nat) :
    ofDigitChars 10 (l ++ List.replicate z '0') 0 = ofDigitChars 10 l 0 * 10 ^ z := by
  rw [Nat.ofDigitChars_append, Nat.ofDigitChars_replicate_zero, Nat.mul_comm]

/-- **The text in exponent form stands for the number.** -/
theorem read_scientific (m k : Nat) : read (scientific m k) = some ((m * 10 ^ k : Nat) : ℚ) := by
  obtain ⟨d, tail, hds⟩ : ∃ d tail, toDigits 10 m = d :: tail := by
    cases h : toDigits 10 m with
    | nil => exact absurd h Nat.toDigits_ne_nil
    | cons d tail => exact ⟨d, tail, rfl⟩
  have hdigit : ∀ c ∈ d :: tail, c.isDigit = true := fun c hc => toDigits_isDigit (hds ▸ hc)
  obtain ⟨hd, htail⟩ := List.forall_mem_cons.mp hdigit
  obtain ⟨z, hz⟩ := rdropWhile_zeros tail
  generalize hfr : tail.rdropWhile (· = '0') = frac at hz
  have hfrac : ∀ c ∈ frac, c.isDigit = true := fun c hc => htail c (by rw [hz]; simp [hc])
  have hm : ofDigitChars 10 (d :: frac) 0 * 10 ^ z = m := by
    rw [← ofDigitChars_zeros, List.cons_append, ← hz, ← hds, Nat.ofDigitChars_ten_toDigits]
  have hlen : tail.length = frac.length + z := by
    rw [hz, List.length_append, List.length_replicate]
  set e := k + tail.length with he
  obtain ⟨ex, hex, hval⟩ : ∃ ex, ex = (if e < 10 then '0' :: toDigits 10 e else toDigits 10 e) ∧
      (∀ c ∈ ex, c.isDigit = true) ∧ ex ≠ [] ∧ ofDigitChars 10 ex 0 = e := by
    refine ⟨_, rfl, ?_⟩
    split_ifs
    · refine ⟨?_, List.cons_ne_nil _ _, ?_⟩
      · simp only [List.mem_cons, forall_eq_or_imp]
        exact ⟨rfl, fun c hc => toDigits_isDigit hc⟩
      · rw [Nat.ofDigitChars_cons]
        simp
    · exact ⟨fun c hc => toDigits_isDigit hc, Nat.toDigits_ne_nil, Nat.ofDigitChars_ten_toDigits⟩
  obtain ⟨hexd, hexne, hexv⟩ := hval
  have htext : scientific m k =
      d :: ((if frac = [] then [] else '.' :: frac) ++ ('e' :: '+' :: ex)) := by
    rw [hex]
    simp only [scientific, hds, List.tail_cons, hfr, List.length_cons, Nat.add_sub_cancel, ← he]
    simp
  rw [htext, read_exponent hd hfrac hexd hexne, hexv]
  congr 1
  rw [← hm, he, hlen]
  push_cast
  rw [pow_add, pow_add]
  field_simp

/-- **The round trip through the text is exact exactly on numbers of few significant digits.** -/
theorem read_general_iff {p n : Nat} (hp : 0 < p) :
    read (general p n) = some (n : ℚ) ↔ Significant p n := by
  unfold general
  split_ifs with h
  · exact iff_of_true (read_digits n) (significant_of_lt h)
  · rw [read_scientific, Option.some_inj, Nat.cast_inj]
    exact rounded_eq_iff hp

/-- Every text of a number stands for some number. -/
theorem read_general_isSome (p n : Nat) : ∃ q, read (general p n) = some q := by
  unfold general
  split_ifs with h
  · exact ⟨_, read_digits n⟩
  · exact ⟨_, read_scientific _ _⟩

/-- The text of a number starts with a digit. -/
theorem general_head (p n : Nat) : ∃ c cs, general p n = c :: cs ∧ c.isDigit = true := by
  have hhead : ∀ n, ∃ c cs, toDigits 10 n = c :: cs ∧ c.isDigit = true := by
    intro n
    cases h : toDigits 10 n with
    | nil => exact absurd h Nat.toDigits_ne_nil
    | cons c cs => exact ⟨c, cs, rfl, toDigits_isDigit (h ▸ List.mem_cons_self)⟩
  unfold general
  split_ifs
  · exact hhead n
  · obtain ⟨c, cs, hcs, hc⟩ := hhead (rounded p n).1
    refine ⟨c, (scientific (rounded p n).1 (rounded p n).2).tail, ?_, hc⟩
    simp only [scientific, hcs, List.take_succ_cons, List.take_zero, List.cons_append,
      List.nil_append, List.tail_cons]

example : String.ofList (general 6 16777215) = "1.67772e+07" := by decide +kernel

end Decimal
