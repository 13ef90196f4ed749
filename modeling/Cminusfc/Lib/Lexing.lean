import Mathlib.Computability.Language

/-!
# Regular expressions and the longest match

Regular expressions over classes of characters, and the way a scanner generated from a list of rules
cuts a text into lexemes: the longest prefix that some rule matches, by the first rule that matches
it.

* `accepts_iff`: `accepts` decides the language of an expression.
* `Cuts rules u v b`: in front of `v`, the scanner takes `u` for a lexeme of the rule `b`.
* `scan_append`: so it does, and goes on with `v`.
* `scan_cut`: the lexemes of a text are cuts, and make up the text.
-/

namespace Lexing

universe u v

variable {α : Type u} {β : Type v}

/-- Regular expressions; `char p` is a class of characters. -/
inductive Regex (α : Type u) where
  | empty
  | epsilon
  | char (p : α → Bool)
  | alt (r s : Regex α)
  | seq (r s : Regex α)
  | star (r : Regex α)

namespace Regex

/-- The words an expression stands for. -/
def language : Regex α → Language α
  | empty => 0
  | epsilon => 1
  | char p => {w | ∃ c, p c = true ∧ w = [c]}
  | alt r s => r.language + s.language
  | seq r s => r.language * s.language
  | star r => KStar.kstar r.language

/-- One or more. -/
def plus (r : Regex α) : Regex α := seq r (star r)

/-- One word. -/
def word [DecidableEq α] : List α → Regex α
  | [] => epsilon
  | c :: w => seq (char fun d => d = c) (word w)

/-- Does the expression match the empty word? -/
def nullable : Regex α → Bool
  | empty | char _ => false
  | epsilon | star _ => true
  | alt r s => r.nullable || s.nullable
  | seq r s => r.nullable && s.nullable

/-- What is left to match behind `c`. -/
def deriv : Regex α → α → Regex α
  | empty, _ | epsilon, _ => empty
  | char p, c => if p c then epsilon else empty
  | alt r s, c => alt (r.deriv c) (s.deriv c)
  | seq r s, c =>
    if r.nullable then alt (seq (r.deriv c) s) (s.deriv c) else seq (r.deriv c) s
  | star r, c => seq (r.deriv c) (star r)

/-- Does the expression match the word? -/
def accepts : Regex α → List α → Bool
  | r, [] => r.nullable
  | r, c :: w => (r.deriv c).accepts w

variable {r s : Regex α} {w : List α} {c : α}

@[simp] theorem mem_empty : w ∈ (empty : Regex α).language ↔ False := iff_of_eq rfl

@[simp] theorem mem_epsilon : w ∈ (epsilon : Regex α).language ↔ w = [] := Iff.rfl

@[simp] theorem mem_char {p : α → Bool} : w ∈ (char p).language ↔ ∃ c, p c = true ∧ w = [c] :=
  Iff.rfl

@[simp] theorem mem_alt : w ∈ (alt r s).language ↔ w ∈ r.language ∨ w ∈ s.language := Iff.rfl

theorem mem_seq : w ∈ (seq r s).language ↔ ∃ a ∈ r.language, ∃ b ∈ s.language, a ++ b = w :=
  Iff.rfl

theorem mem_star : w ∈ (star r).language ↔ ∃ L : List (List α), w = L.flatten ∧
    ∀ y ∈ L, y ∈ r.language := Language.mem_kstar

theorem nil_mem_star : [] ∈ (star r).language := Language.nil_mem_kstar _

/-- One round of a repetition. -/
theorem star_step {a b : List α} (ha : a ∈ r.language) (hb : b ∈ (star r).language) :
    a ++ b ∈ (star r).language := by
  obtain ⟨L, rfl, hL⟩ := mem_star.mp hb
  exact mem_star.mpr ⟨a :: L, rfl, List.forall_mem_cons.mpr ⟨ha, hL⟩⟩

/-- Induction on the rounds of a repetition. -/
theorem star_induction {P : List α → Prop} (hnil : P [])
    (hstep : ∀ a b, a ∈ r.language → P b → P (a ++ b)) (h : w ∈ (star r).language) : P w := by
  obtain ⟨L, rfl, hL⟩ := mem_star.mp h
  clear h
  induction L with
  | nil => exact hnil
  | cons a L ih =>
    obtain ⟨ha, hL⟩ := List.forall_mem_cons.mp hL
    exact hstep a L.flatten ha (ih hL)

@[simp] theorem mem_word [DecidableEq α] {u : List α} : w ∈ (word u).language ↔ w = u := by
  induction u generalizing w with
  | nil => rfl
  | cons c u ih =>
    simp only [word, mem_seq, mem_char, decide_eq_true_eq, ih]
    constructor
    · rintro ⟨-, ⟨_, rfl, rfl⟩, _, rfl, rfl⟩
      rfl
    · rintro rfl
      exact ⟨[c], ⟨c, rfl, rfl⟩, u, rfl, rfl⟩

theorem nullable_iff : ∀ r : Regex α, r.nullable = true ↔ [] ∈ r.language
  | empty => by simp [nullable]
  | epsilon => by simp [nullable]
  | char p => by simp [nullable]
  | alt r s => by simp [nullable, nullable_iff r, nullable_iff s]
  | seq r s => by simp [nullable, mem_seq, nullable_iff r, nullable_iff s]
  | star r => by simp [nullable, nil_mem_star]

theorem cons_mem_seq : c :: w ∈ (seq r s).language ↔
    (∃ a b, c :: a ∈ r.language ∧ b ∈ s.language ∧ a ++ b = w) ∨
      [] ∈ r.language ∧ c :: w ∈ s.language := by
  rw [mem_seq]
  constructor
  · rintro ⟨a, ha, b, hb, hab⟩
    cases a with
    | nil =>
      obtain rfl : b = c :: w := hab
      exact Or.inr ⟨ha, hb⟩
    | cons d a =>
      obtain ⟨rfl, rfl⟩ := List.cons.inj hab
      exact Or.inl ⟨a, b, ha, hb, rfl⟩
  · rintro (⟨a, b, ha, hb, rfl⟩ | ⟨hr, hs⟩)
    · exact ⟨c :: a, ha, b, hb, rfl⟩
    · exact ⟨[], hr, c :: w, hs, rfl⟩

theorem cons_mem_star : c :: w ∈ (star r).language ↔
    ∃ a b, c :: a ∈ r.language ∧ b ∈ (star r).language ∧ a ++ b = w := by
  constructor
  · intro h
    obtain ⟨L, hw, hL⟩ := mem_star.mp h
    clear h
    induction L with
    | nil => cases hw
    | cons a L ih =>
      obtain ⟨ha, hrest⟩ := List.forall_mem_cons.mp hL
      cases a with
      | nil => exact ih hw hrest
      | cons d a =>
        obtain ⟨rfl, rfl⟩ := List.cons.inj hw
        exact ⟨a, L.flatten, ha, mem_star.mpr ⟨L, rfl, hrest⟩, rfl⟩
  · rintro ⟨a, b, ha, hb, rfl⟩
    exact star_step ha hb

theorem mem_deriv : ∀ (r : Regex α) {c : α} {w : List α},
    w ∈ (r.deriv c).language ↔ c :: w ∈ r.language
  | empty, _, _ => Iff.rfl
  | epsilon, _, _ => by simp [deriv]
  | char p, c, w => by
    by_cases hp : p c = true <;> simp [deriv, hp]
  | alt r s, c, w => by simp [deriv, mem_deriv r, mem_deriv s]
  | seq r s, c, w => by
    rw [cons_mem_seq, ← nullable_iff]
    by_cases hr : r.nullable = true
    · simp only [deriv, hr, if_true, mem_alt, mem_seq, mem_deriv r, mem_deriv s, true_and]
      exact or_congr_left ⟨fun ⟨a, ha, b, hb, h⟩ => ⟨a, b, ha, hb, h⟩,
        fun ⟨a, b, ha, hb, h⟩ => ⟨a, ha, b, hb, h⟩⟩
    · have hd : deriv (seq r s) c = seq (r.deriv c) s := if_neg hr
      simp only [hd, hr, mem_seq, mem_deriv r, Bool.false_eq_true, false_and, or_false]
      exact ⟨fun ⟨a, ha, b, hb, h⟩ => ⟨a, b, ha, hb, h⟩, fun ⟨a, b, ha, hb, h⟩ => ⟨a, ha, b, hb, h⟩⟩
  | star r, c, w => by
    rw [cons_mem_star]
    simp only [deriv, mem_seq, mem_deriv r]
    exact ⟨fun ⟨a, ha, b, hb, h⟩ => ⟨a, b, ha, hb, h⟩, fun ⟨a, b, ha, hb, h⟩ => ⟨a, ha, b, hb, h⟩⟩

/-- **`accepts` decides the language.** -/
theorem accepts_iff : ∀ {w : List α} {r : Regex α}, r.accepts w = true ↔ w ∈ r.language
  | [], r => nullable_iff r
  | c :: _, r => (accepts_iff (r := r.deriv c)).trans (mem_deriv r)

/-- The classes of an expression hold only characters with `P`. -/
def Within (P : α → Prop) : Regex α → Prop
  | empty | epsilon => True
  | char p => ∀ c, p c = true → P c
  | alt r s | seq r s => r.Within P ∧ s.Within P
  | star r => r.Within P

/-- So do its words. -/
theorem Within.all {P : α → Prop} : ∀ {r : Regex α}, r.Within P → ∀ {w}, w ∈ r.language →
    ∀ c ∈ w, P c
  | empty, _, _, hw => (mem_empty.mp hw).elim
  | epsilon, _, _, hw => by
    obtain rfl := mem_epsilon.mp hw
    simp
  | char p, h, _, hw => by
    obtain ⟨c, hc, rfl⟩ := hw
    simpa using h c hc
  | alt r s, h, _, hw => hw.elim h.1.all h.2.all
  | seq r s, h, _, hw => by
    obtain ⟨a, ha, b, hb, rfl⟩ := mem_seq.mp hw
    exact fun c hc => (List.mem_append.mp hc).elim (h.1.all ha c) (h.2.all hb c)
  | star r, h, _, hw => by
    have hr : r.Within P := h
    exact star_induction (P := fun w => ∀ c ∈ w, P c) (by simp)
      (fun a b ha hb c hc => (List.mem_append.mp hc).elim (hr.all ha c) (hb c)) hw

theorem within_word [DecidableEq α] {P : α → Prop} {u : List α} (h : ∀ c ∈ u, P c) :
    (word u).Within P := by
  induction u with
  | nil => trivial
  | cons c u ih =>
    obtain ⟨hc, hu⟩ := List.forall_mem_cons.mp h
    refine ⟨fun d hd => ?_, ih hu⟩
    obtain rfl := of_decide_eq_true hd
    exact hc

end Regex

/-! ## The longest match -/

/-- The first rule that matches a word. -/
def matched (rules : List (Regex α × β)) (w : List α) : Option β :=
  (rules.find? fun r => r.1.accepts w).map Prod.snd

/-- The longest prefix of `w` of at most `n` characters that is matched. -/
def longest (rules : List (Regex α × β)) (w : List α) : Nat → Option (β × Nat)
  | 0 => none
  | n + 1 =>
    match matched rules (w.take (n + 1)) with
    | some b => some (b, n + 1)
    | none => longest rules w n

/-- The lexemes of a text, at most `fuel` of them. -/
def scanFrom (rules : List (Regex α × β)) : Nat → List α → List (β × List α)
  | 0, _ => []
  | fuel + 1, w =>
    match longest rules w w.length with
    | some (b, n) => (b, w.take n) :: scanFrom rules fuel (w.drop n)
    | none => []

/-- The lexemes of a text. -/
def scan (rules : List (Regex α × β)) (w : List α) : List (β × List α) :=
  scanFrom rules w.length w

/-- In front of `v`, the lexeme is `u`, by the rule `b`. -/
structure Cuts (rules : List (Regex α × β)) (u v : List α) (b : β) : Prop where
  ne_nil : u ≠ []
  matched : matched rules u = some b
  longest : ∀ x, x <+: v → x ≠ [] → ∀ r ∈ rules, u ++ x ∉ r.1.language

variable {rules : List (Regex α × β)} {w x : List α} {b : β} {n : Nat}

theorem matched_none : matched rules w = none ↔ ∀ r ∈ rules, w ∉ r.1.language := by
  simp [matched, ← Regex.accepts_iff]

theorem matched_some (h : matched rules w = some b) : ∃ r ∈ rules, r.2 = b ∧ w ∈ r.1.language := by
  obtain ⟨r, hr, hb⟩ := Option.map_eq_some_iff.mp h
  have hacc : r.1.accepts w = true := by simpa using List.find?_some hr
  exact ⟨r, List.mem_of_find?_eq_some hr, hb, Regex.accepts_iff.mp hacc⟩

/-- What `longest` finds. -/
theorem longest_some {m : Nat} (h : longest rules w n = some (b, m)) :
    0 < m ∧ m ≤ n ∧ matched rules (w.take m) = some b ∧
      ∀ k, m < k → k ≤ n → matched rules (w.take k) = none := by
  induction n with
  | zero => cases h
  | succ n ih =>
    rw [longest] at h
    split at h
    · rename_i b' hm
      simp only [Option.some.injEq, Prod.mk.injEq] at h
      obtain ⟨rfl, rfl⟩ := h
      exact ⟨Nat.succ_pos n, Nat.le_refl _, hm, fun k hk hk' => absurd hk (Nat.not_lt.mpr hk')⟩
    · rename_i hm
      obtain ⟨hpos, hle, hmatch, hmax⟩ := ih h
      refine ⟨hpos, Nat.le_succ_of_le hle, hmatch, fun k hk hk' => ?_⟩
      rcases Nat.lt_or_eq_of_le hk' with hlt | rfl
      · exact hmax k hk (Nat.le_of_lt_succ hlt)
      · exact hm

theorem longest_eq {m : Nat} (hpos : 0 < m) (hle : m ≤ n) (hmatch : matched rules (w.take m) = some b)
    (hmax : ∀ k, m < k → k ≤ n → matched rules (w.take k) = none) :
    longest rules w n = some (b, m) := by
  induction n with
  | zero => omega
  | succ n ih =>
    rw [longest]
    rcases Nat.lt_or_eq_of_le hle with hlt | rfl
    · rw [hmax (n + 1) hlt (Nat.le_refl _)]
      exact ih (Nat.le_of_lt_succ hlt) fun k hk hk' => hmax k hk (Nat.le_succ_of_le hk')
    · rw [hmatch]

/-- The longest match in front of a text. -/
theorem longest_append {u v : List α} :
    longest rules (u ++ v) (u ++ v).length = some (b, u.length) ↔ Cuts rules u v b := by
  have htake : (u ++ v).take u.length = u := List.take_left
  constructor
  · intro h
    obtain ⟨hpos, -, hmatch, hmax⟩ := longest_some h
    rw [htake] at hmatch
    refine ⟨List.ne_nil_of_length_pos hpos, hmatch, fun x hx hne r hr hmem => ?_⟩
    obtain ⟨y, rfl⟩ := hx
    have hlen := hmax (u ++ x).length (by simpa using List.length_pos_of_ne_nil hne) (by simp)
    rw [← List.append_assoc, List.take_left, matched_none] at hlen
    exact hlen r hr hmem
  · intro h
    refine longest_eq (List.length_pos_of_ne_nil h.ne_nil) (by simp) (htake.symm ▸ h.matched)
      fun k hk hk' => ?_
    obtain ⟨j, rfl⟩ := Nat.exists_eq_add_of_lt hk
    rw [List.length_append] at hk'
    rw [Nat.add_assoc, List.take_length_add_append, matched_none]
    refine fun r hr => h.longest _ (List.take_prefix _ _) (fun hnil => ?_) r hr
    have := congrArg List.length hnil
    rw [List.length_take, List.length_nil] at this
    omega

/-! ## The lexemes -/

theorem scanFrom_fuel : ∀ (fuel fuel' : Nat) (w : List α), w.length ≤ fuel → w.length ≤ fuel' →
    scanFrom rules fuel w = scanFrom rules fuel' w := by
  intro fuel
  induction fuel with
  | zero =>
    intro fuel' w hw _
    obtain rfl := List.length_eq_zero_iff.mp (Nat.le_zero.mp hw)
    cases fuel' <;> rfl
  | succ fuel ih =>
    intro fuel' w hw hw'
    cases fuel' with
    | zero =>
      obtain rfl := List.length_eq_zero_iff.mp (Nat.le_zero.mp hw')
      rfl
    | succ fuel' =>
      simp only [scanFrom]
      split
      · rename_i b n hn
        have hpos := (longest_some hn).1
        rw [ih fuel' (w.drop n)]
        · rw [List.length_drop]
          omega
        · rw [List.length_drop]
          omega
      · rfl

/-- **A cut is the next lexeme.** -/
theorem scan_append {u v : List α} (h : Cuts rules u v b) :
    scan rules (u ++ v) = (b, u) :: scan rules v := by
  have hpos := List.length_pos_of_ne_nil h.ne_nil
  have hlen : (u ++ v).length = (u ++ v).length - 1 + 1 := by
    rw [List.length_append]
    omega
  rw [scan, hlen, scanFrom, longest_append.mpr h]
  simp only [List.take_left, List.drop_left]
  rw [scanFrom_fuel _ v.length v _ (Nat.le_refl _), scan]
  rw [List.length_append]
  omega

/-- The text of lexemes. -/
def text (l : List (β × List α)) : List α := l.flatMap Prod.snd

/-- Every lexeme is a cut in front of the text of those behind it. -/
def Cut (rules : List (Regex α × β)) : List (β × List α) → Prop
  | [] => True
  | (b, u) :: l => Cuts rules u (text l) b ∧ Cut rules l

theorem Cut.matched : ∀ {l : List (β × List α)}, Cut rules l →
    ∀ m ∈ l, m.2 ≠ [] ∧ matched rules m.2 = some m.1
  | (b, u) :: l, ⟨h, hl⟩, m, hm => by
    rcases List.mem_cons.mp hm with rfl | hm
    · exact ⟨h.ne_nil, h.matched⟩
    · exact hl.matched m hm

/-- Cuts are the lexemes of their text. -/
theorem scan_text : ∀ {l : List (β × List α)}, Cut rules l → scan rules (text l) = l
  | [], _ => rfl
  | (b, u) :: l, ⟨h, hl⟩ => by
    have htext : text ((b, u) :: l) = u ++ text l := rfl
    rw [htext, scan_append h, scan_text hl]

theorem longest_isSome {c : α} (hc : (matched rules [c]).isSome = true) :
    (longest rules (c :: w) (n + 1)).isSome = true := by
  induction n with
  | zero =>
    obtain ⟨b, hb⟩ := Option.isSome_iff_exists.mp hc
    simp [longest, hb]
  | succ n ih =>
    rw [longest]
    split
    · rfl
    · exact ih

/-- **The lexemes of a text are cuts**, and make up the text, if every character is matched. -/
theorem scan_cut (hall : ∀ c, (matched rules [c]).isSome = true) (w : List α) :
    text (scan rules w) = w ∧ Cut rules (scan rules w) := by
  induction hn : w.length using Nat.strongRecOn generalizing w with
  | ind n ih =>
    subst hn
    cases w with
    | nil => exact ⟨rfl, trivial⟩
    | cons c w =>
      obtain ⟨⟨b, m⟩, hm⟩ := Option.isSome_iff_exists.mp
        (longest_isSome (w := w) (n := w.length) (hall c))
      obtain ⟨hpos, hle, -⟩ := longest_some hm
      have hcuts : Cuts rules ((c :: w).take m) ((c :: w).drop m) b := by
        rw [← longest_append, List.take_append_drop, List.length_take,
          Nat.min_eq_left (by simpa using hle)]
        exact hm
      have hscan := scan_append hcuts
      rw [List.take_append_drop] at hscan
      obtain ⟨htext, hcut⟩ := ih ((c :: w).drop m).length
        (by rw [List.length_drop, List.length_cons]; omega) _ rfl
      rw [hscan]
      refine ⟨?_, ?_, hcut⟩
      · show (c :: w).take m ++ text (scan rules ((c :: w).drop m)) = c :: w
        rw [htext, List.take_append_drop]
      · rwa [htext]

end Lexing
