import Cminusfc.Frontend.Positions

/-!
# Comments

The rule of a block comment, `\/\*([^*]|[\r\n]|(\*+([^*/]|[\r\n])))*\*+\/`, and what a comment does to
the tokens around it.

* `mem_commentBody`: the part of the expression behind the opening matches exactly the texts that end
  with their first `*` `/`.
* `cuts_blockComment`: such a comment is the next match of the lexer.
* `Cut.blankOut`: comments may be replaced by blanks without a change to the other matches.
* `comments_read`: so the tokens stay the same, and the lines are counted.

About `src/parser/lexical_analyzer.l` 23-30 and 82-83.
-/

namespace Cminusfc.Frontend.Lexer

open Lexing (Regex Cut Cuts scan text)
open Lexing.Regex

/-! ## The first closing pair -/

/-- The text up to the first `*` `/`. -/
def closes : List Char → Option (List Char)
  | [] => none
  | c :: t => if c = '*' ∧ t.head? = some '/' then some ['*', '/'] else (closes t).map (c :: ·)

/-- The text `t` has its first `*` `/` behind `a`. -/
def ClosesBehind (t a : List Char) : Prop :=
  (∃ b, t = a ++ '*' :: '/' :: b) ∧ ∀ a' b', t = a' ++ '*' :: '/' :: b' → a.length ≤ a'.length

variable {t u v w x : List Char} {c : Char} {n : Nat}

theorem closes_cons (hc : c ≠ '*') : closes (c :: t) = (closes t).map (c :: ·) := by
  rw [closes, if_neg fun h => hc h.1]

theorem closes_closesBehind : ∀ {t u : List Char}, closes t = some u →
    ∃ a, ClosesBehind t a ∧ u = a ++ ['*', '/']
  | [], _, h => by cases h
  | c :: t, u, h => by
    rw [closes] at h
    split at h
    · rename_i hpair
      obtain ⟨rfl, ht⟩ := hpair
      cases h
      obtain ⟨b, rfl⟩ : ∃ b, t = '/' :: b := by
        cases t with
        | nil => cases ht
        | cons d t =>
          cases ht
          exact ⟨t, rfl⟩
      exact ⟨[], ⟨⟨b, rfl⟩, fun _ _ _ => Nat.zero_le _⟩, rfl⟩
    · rename_i hpair
      obtain ⟨u', hu', rfl⟩ := Option.map_eq_some_iff.mp h
      obtain ⟨a, ⟨⟨b, rfl⟩, hmin⟩, rfl⟩ := closes_closesBehind hu'
      refine ⟨c :: a, ⟨⟨b, rfl⟩, fun a' b' hab => ?_⟩, rfl⟩
      cases a' with
      | nil =>
        obtain ⟨rfl, hrest⟩ := List.cons.inj hab
        exact absurd ⟨rfl, by rw [hrest]; rfl⟩ hpair
      | cons d a' =>
        obtain ⟨rfl, hrest⟩ := List.cons.inj hab
        exact Nat.succ_le_succ (hmin a' b' hrest)

theorem closes_isSome : ∀ (a b : List Char), (closes (a ++ '*' :: '/' :: b)).isSome = true
  | [], b => by simp [closes]
  | c :: a, b => by
    rw [List.cons_append, closes]
    split
    · rfl
    · rw [Option.isSome_map]
      exact closes_isSome a b

theorem closes_of_closesBehind {a : List Char} (h : ClosesBehind t a) :
    closes t = some (a ++ ['*', '/']) := by
  obtain ⟨⟨b, rfl⟩, hmin⟩ := h
  obtain ⟨u, hu⟩ := Option.isSome_iff_exists.mp (closes_isSome a b)
  obtain ⟨a', ⟨⟨b', hb'⟩, hmin'⟩, rfl⟩ := closes_closesBehind hu
  have hlen : a.length = a'.length := Nat.le_antisymm (hmin a' b' hb') (hmin' a b rfl)
  rw [hu, (List.append_inj hb' hlen).1]

/-! ## The expression -/

/-- `([^*]|[\r\n]|(\*+([^*/]|[\r\n])))*\*+\/`. -/
def commentBody : Regex Char := seq (star commentPart) commentEnd

theorem mem_one : w ∈ (one c).language ↔ w = [c] := by
  simp [one]

/-- `\*+`. -/
theorem mem_stars : w ∈ (plus (one '*')).language ↔ ∃ n, w = List.replicate (n + 1) '*' := by
  rw [plus, mem_seq]
  constructor
  · rintro ⟨a, ha, b, hb, rfl⟩
    obtain rfl := mem_one.mp ha
    obtain ⟨n, rfl⟩ : ∃ n, b = List.replicate n '*' := by
      refine star_induction (P := fun w => ∃ n, w = List.replicate n '*') ⟨0, rfl⟩ ?_ hb
      rintro a b ha ⟨n, rfl⟩
      obtain rfl := mem_one.mp ha
      exact ⟨n + 1, rfl⟩
    exact ⟨n, rfl⟩
  · rintro ⟨n, rfl⟩
    refine ⟨['*'], mem_one.mpr rfl, List.replicate n '*', ?_, rfl⟩
    induction n with
    | zero => exact nil_mem_star
    | succ n ih => exact star_step (mem_one.mpr rfl) ih

/-- A run of stars in front of a character. -/
theorem closes_stars (hc : c ≠ '*') : closes (List.replicate (n + 1) '*' ++ c :: t) =
    if c = '/' then some (List.replicate (n + 1) '*' ++ ['/'])
    else (closes t).map ((List.replicate (n + 1) '*' ++ [c]) ++ ·) := by
  induction n with
  | zero =>
    by_cases hslash : c = '/'
    · subst hslash
      rfl
    · have hpair : ¬ ('*' = '*' ∧ (c :: t).head? = some '/') := by simpa using hslash
      rw [if_neg hslash]
      show closes ('*' :: c :: t) = _
      rw [closes, if_neg hpair, closes_cons hc, Option.map_map]
      rfl
  | succ n ih =>
    rw [List.replicate_succ, List.cons_append, closes, if_neg (by simp [List.replicate_succ]), ih]
    by_cases hslash : c = '/'
    · simp [hslash]
    · simp only [if_neg hslash, Option.map_map]
      rfl

theorem closes_only_stars : closes (List.replicate n '*') = none := by
  induction n with
  | zero => rfl
  | succ n ih =>
    have hpair : ¬ ('*' = '*' ∧ (List.replicate n '*').head? = some '/') := by
      cases n <;> simp [List.replicate_succ]
    rw [List.replicate_succ, closes, if_neg hpair, ih]
    rfl

/-- The parts of a comment: a character other than `*`, or stars and a character other than `/`. -/
theorem mem_commentPart : w ∈ commentPart.language ↔
    (∃ c, c ≠ '*' ∧ w = [c]) ∨
      ∃ n c, c ≠ '*' ∧ c ≠ '/' ∧ w = List.replicate (n + 1) '*' ++ [c] := by
  have hline : ∀ w, w ∈ lineEnd.language → ∃ c, c ≠ '*' ∧ c ≠ '/' ∧ w = [c] := by
    rintro w ⟨c, hc, rfl⟩
    simp only [Bool.or_eq_true, decide_eq_true_eq] at hc
    rcases hc with rfl | rfl <;> exact ⟨_, by decide, by decide, rfl⟩
  simp only [commentPart, mem_alt, mem_seq, mem_stars, mem_char, decide_eq_true_eq, Bool.and_eq_true]
  constructor
  · rintro (h | h | ⟨_, ⟨n, rfl⟩, b, hb, rfl⟩)
    · exact Or.inl h
    · obtain ⟨c, hc, -, rfl⟩ := hline w h
      exact Or.inl ⟨c, hc, rfl⟩
    · obtain ⟨c, hc, hc', rfl⟩ : ∃ c, c ≠ '*' ∧ c ≠ '/' ∧ b = [c] := by
        rcases hb with ⟨c, ⟨hc, hc'⟩, rfl⟩ | hb
        · exact ⟨c, hc, hc', rfl⟩
        · exact hline b hb
      exact Or.inr ⟨n, c, hc, hc', rfl⟩
  · rintro (h | ⟨n, c, hc, hc', rfl⟩)
    · exact Or.inl h
    · exact Or.inr (Or.inr ⟨_, ⟨n, rfl⟩, [c], Or.inl ⟨c, ⟨hc, hc'⟩, rfl⟩, rfl⟩)

theorem mem_commentEnd : w ∈ commentEnd.language ↔ ∃ n, w = List.replicate (n + 1) '*' ++ ['/'] := by
  simp only [commentEnd, mem_seq, mem_stars, mem_one]
  constructor
  · rintro ⟨_, ⟨n, rfl⟩, _, rfl, rfl⟩
    exact ⟨n, rfl⟩
  · rintro ⟨n, rfl⟩
    exact ⟨_, ⟨n, rfl⟩, _, rfl, rfl⟩

/-- A part holds no closing pair, nor does it end with the first half of one. -/
theorem closes_part (hw : w ∈ commentPart.language) :
    closes (w ++ t) = (closes t).map (w ++ ·) := by
  rcases mem_commentPart.mp hw with ⟨c, hc, rfl⟩ | ⟨n, c, hc, hc', rfl⟩
  · exact closes_cons hc
  · rw [List.append_assoc, List.singleton_append, closes_stars hc, if_neg hc']

/-- What the expression matches closes where it ends. -/
theorem closes_of_mem (h : v ∈ commentBody.language) (t : List Char) : closes (v ++ t) = some v := by
  obtain ⟨a, ha, e, he, rfl⟩ := mem_seq.mp h
  refine star_induction (P := fun a => closes (a ++ e ++ t) = some (a ++ e)) ?_ ?_ ha
  · obtain ⟨n, rfl⟩ := mem_commentEnd.mp he
    rw [List.nil_append, List.append_assoc, List.singleton_append, closes_stars (by decide),
      if_pos rfl]
  · intro p b hp hb
    rw [List.append_assoc, List.append_assoc, closes_part hp, ← List.append_assoc, hb]
    simp

theorem commentBody_part (hw : w ∈ commentPart.language) (hv : v ∈ commentBody.language) :
    w ++ v ∈ commentBody.language := by
  obtain ⟨a, ha, e, he, rfl⟩ := mem_seq.mp hv
  exact mem_seq.mpr ⟨w ++ a, star_step hw ha, e, he, List.append_assoc _ _ _⟩

/-- A text up to its first closing pair is matched; the induction is on what is behind a run of
stars. -/
theorem mem_of_closes : ∀ (t : List Char) (n : Nat) (u : List Char),
    closes (List.replicate n '*' ++ t) = some u → u ∈ commentBody.language := by
  intro t
  induction t with
  | nil =>
    intro n u h
    rw [List.append_nil, closes_only_stars] at h
    cases h
  | cons c t ih =>
    intro n u h
    by_cases hstar : c = '*'
    · subst hstar
      refine ih (n + 1) u ?_
      rwa [List.replicate_succ', List.append_assoc]
    · cases n with
      | zero =>
        rw [List.replicate_zero, List.nil_append, closes_cons hstar] at h
        obtain ⟨u', hu', rfl⟩ := Option.map_eq_some_iff.mp h
        exact commentBody_part (mem_commentPart.mpr (Or.inl ⟨c, hstar, rfl⟩)) (ih 0 u' hu')
      | succ n =>
        rw [closes_stars hstar] at h
        by_cases hslash : c = '/'
        · rw [if_pos hslash] at h
          cases h
          exact mem_seq.mpr ⟨[], nil_mem_star, _, mem_commentEnd.mpr ⟨n, rfl⟩, rfl⟩
        · rw [if_neg hslash] at h
          obtain ⟨u', hu', rfl⟩ := Option.map_eq_some_iff.mp h
          exact commentBody_part (mem_commentPart.mpr (Or.inr ⟨n, c, hstar, hslash, rfl⟩)) (ih 0 u' hu')

/-- **What is matched behind the opening** is the text up to its first closing pair. -/
theorem mem_commentBody (hv : v <+: t) : v ∈ commentBody.language ↔ closes t = some v := by
  obtain ⟨r, rfl⟩ := hv
  refine ⟨fun h => closes_of_mem h r, fun h => ?_⟩
  exact mem_of_closes (v ++ r) 0 v h

theorem mem_blockComment : w ∈ blockComment.language ↔
    ∃ v ∈ commentBody.language, w = '/' :: '*' :: v := by
  simp only [blockComment, commentBody, lit, mem_seq, mem_word]
  constructor
  · rintro ⟨_, rfl, v, hv, rfl⟩
    exact ⟨v, hv, rfl⟩
  · rintro ⟨v, hv, rfl⟩
    exact ⟨_, rfl, v, hv, rfl⟩

theorem mem_lineComment : w ∈ lineComment.language ↔
    ∃ v, newlineChar ∉ v ∧ w = '/' :: '/' :: v := by
  simp only [lineComment, lit, mem_seq, mem_word]
  constructor
  · rintro ⟨_, rfl, v, hv, rfl⟩
    refine ⟨v, ?_, rfl⟩
    refine star_induction (P := fun v => newlineChar ∉ v) List.not_mem_nil ?_ hv
    rintro _ b ⟨c, hc, rfl⟩ hb
    simp only [List.singleton_append, List.mem_cons, not_or]
    exact ⟨Ne.symm (of_decide_eq_true hc), hb⟩
  · rintro ⟨v, hv, rfl⟩
    refine ⟨_, rfl, v, ?_, rfl⟩
    induction v with
    | nil => exact nil_mem_star
    | cons c v ih =>
      rw [List.mem_cons, not_or] at hv
      exact star_step (a := [c]) ⟨c, by simpa using Ne.symm hv.1, rfl⟩ (ih hv.2)

/-! ## Words of the rules -/

theorem one_no_slash (hc : c ≠ '/') : (one c).Within (· ≠ '/') := by
  intro d hd
  obtain rfl := of_decide_eq_true hd
  exact hc

/-- **Only one token has a slash.** -/
theorem tokenRules_slash : ∀ r ∈ tokenRules, r.1 = lit "/" ∨ r.1.Within (· ≠ '/') := by
  have hlit : ∀ s : String, s.toList.all (fun c => decide (c ≠ '/')) = true →
      (lit s).Within (· ≠ '/') := fun s h =>
    within_word fun c hc => of_decide_eq_true (List.all_eq_true.mp h c hc)
  have hdigit : digit.Within (· ≠ '/') := by
    rintro c hc rfl
    exact absurd hc (by decide)
  have hletter : letter.Within (· ≠ '/') := by
    rintro c hc rfl
    exact absurd hc (by decide)
  have hplus : (plus digit).Within (· ≠ '/') := ⟨hdigit, hdigit⟩
  have hpoint : (one '.').Within (· ≠ '/') := one_no_slash (by decide)
  intro r hr
  simp only [tokenRules, List.mem_cons, List.not_mem_nil, or_false] at hr
  rcases hr with rfl | rfl | rfl | rfl | rfl | rfl | rfl | rfl | rfl | rfl | rfl | rfl | rfl | rfl |
    rfl | rfl | rfl | rfl | rfl | rfl | rfl | rfl | rfl | rfl | rfl | rfl | rfl | rfl | rfl
  all_goals first
    | exact Or.inr (hlit _ (by decide))
    | exact Or.inl rfl
    | exact Or.inr ⟨hletter, hletter⟩
    | exact Or.inr ⟨⟨hplus, hpoint⟩, hdigit, hpoint, hplus⟩
    | exact Or.inr hplus

/-- **The words of the rules.** One of more than one character is a token without blanks and slashes,
or a comment. -/
theorem rule_word {r : Regex Char × Action} (hr : r ∈ rules) (hw : w ∈ r.1.language) :
    w.length = 1 ∨ ((∀ c ∈ w, Solid c) ∧ '/' ∉ w) ∨ w ∈ blockComment.language ∨
      w ∈ lineComment.language := by
  simp only [rules, List.cons_append, List.mem_cons, List.mem_append, List.mem_map,
    List.not_mem_nil, or_false] at hr
  rcases hr with rfl | ⟨r, hr, rfl⟩ | rfl | rfl | rfl | rfl
  · obtain ⟨c, -, rfl⟩ := hw
    exact Or.inl rfl
  · rcases tokenRules_slash r hr with hslash | hslash
    · have hw' : w ∈ (lit "/").language := hslash ▸ hw
      rw [lit, mem_word] at hw'
      subst hw'
      exact Or.inl rfl
    · exact Or.inr (Or.inl ⟨(tokenRules_solid r hr).all hw, fun h => hslash.all hw _ h rfl⟩)
  · exact Or.inr (Or.inr (Or.inl hw))
  · exact Or.inr (Or.inr (Or.inr hw))
  · obtain ⟨c, -, rfl⟩ := hw
    exact Or.inl rfl
  · obtain ⟨c, -, rfl⟩ := hw
    exact Or.inl rfl

/-- A word of a rule that opens a block comment is one. -/
theorem rule_block {r : Regex Char × Action} (hr : r ∈ rules) (hw : '/' :: '*' :: v ∈ r.1.language) :
    v ∈ commentBody.language := by
  rcases rule_word hr hw with h | ⟨-, h⟩ | h | h
  · simp at h
  · simp at h
  · obtain ⟨v', hv', h⟩ := mem_blockComment.mp h
    cases h
    exact hv'
  · obtain ⟨v', -, h⟩ := mem_lineComment.mp h
    cases h

/-- **A block comment is the next match**, up to its first closing pair. -/
theorem cuts_blockComment {rest : List Char} (h : closes (v ++ rest) = some v) :
    Cuts rules ('/' :: '*' :: v) rest .comments := by
  have hv : v ∈ commentBody.language := (mem_commentBody (List.prefix_append v rest)).mpr h
  have hblock : '/' :: '*' :: v ∈ blockComment.language := mem_blockComment.mpr ⟨v, hv, rfl⟩
  refine ⟨List.cons_ne_nil _ _, ?_, fun x hx hne r hr hmem => ?_⟩
  · cases hm : Lexing.matched rules ('/' :: '*' :: v) with
    | none =>
      exact absurd hblock (Lexing.matched_none.mp hm (blockComment, .comments) (by simp [rules]))
    | some b =>
      rcases matched_cases hm with ⟨-, hw⟩ | ⟨r, hr, -, hw⟩ | ⟨rfl, -⟩ | ⟨-, c, -, hw⟩ | ⟨-, c, -, hw⟩
      · cases hw
      · rcases tokenRules_slash r hr with hslash | hslash
        · rw [hslash, lit, mem_word] at hw
          cases hw
        · exact absurd rfl (hslash.all hw '/' List.mem_cons_self)
      · rfl
      · cases hw
      · cases hw
  · have hbody : v ++ x ∈ commentBody.language := rule_block hr hmem
    have hlong := closes_of_mem hbody []
    have hshort := closes_of_mem hv x
    rw [List.append_nil, hshort, Option.some_inj] at hlong
    exact hne (by simpa using hlong)

/-! ## Blanks for comments -/

/-- Some of the comments replaced by one blank each. -/
def blankOut (p : List Char → Bool) (ms : List Match) : List Match :=
  ms.map fun m => if m.1 = .comments ∧ p m.2 = true then (.blank, [' ']) else m

theorem tokens_blankOut (p : List Char → Bool) (ms : List Match) :
    tokens (blankOut p ms) = tokens ms := by
  simp only [tokens, blankOut, List.filterMap_map]
  refine List.filterMap_congr fun m _ => ?_
  obtain ⟨b, w⟩ := m
  cases b with
  | comments =>
    by_cases hp : p w = true <;> simp [hp]
  | _ => rfl

variable {p : List Char → Bool} {ms : List Match} {m : Match}

theorem text_cons (m : Match) (ms : List Match) : text (m :: ms) = m.2 ++ text ms := rfl

theorem blankOut_cons (m : Match) (ms : List Match) : blankOut p (m :: ms) =
    (if m.1 = .comments ∧ p m.2 = true then (.blank, [' ']) else m) :: blankOut p ms := rfl

/-- A text without blanks is as it was. -/
theorem unblanked : ∀ (ms : List Match) (x : List Char), x <+: text (blankOut p ms) →
    ' ' ∉ x → x <+: text ms
  | [], _, h, _ => h
  | m :: ms, x, h, hx => by
    rw [blankOut_cons, text_cons] at h
    obtain ⟨y, hy⟩ := h
    split at hy
    · cases x with
      | nil => exact List.nil_prefix
      | cons c x =>
        obtain ⟨rfl, -⟩ := List.cons.inj hy
        exact absurd List.mem_cons_self hx
    · rw [text_cons]
      rcases List.append_eq_append_iff.mp hy with ⟨a, ha, -⟩ | ⟨a, rfl, ha⟩
      · rw [ha, List.append_assoc]
        exact List.prefix_append x _
      · have hrest := unblanked ms a ⟨y, ha.symm⟩ fun h => hx (List.mem_append_right _ h)
        exact (List.prefix_append_right_inj m.2).mpr hrest

/-- A closing pair is one of the input. -/
theorem closing_of_blankOut : ∀ (ms : List Match) (z a b : List Char),
    z ++ text (blankOut p ms) = a ++ '*' :: '/' :: b →
    ∃ a' b', z ++ text ms = a' ++ '*' :: '/' :: b'
  | [], z, a, b, h => ⟨a, b, h⟩
  | m :: ms, z, a, b, h => by
    rw [blankOut_cons, text_cons] at h
    rw [text_cons]
    split at h
    · rcases List.append_eq_append_iff.mp h with ⟨y, rfl, hy⟩ | ⟨y, rfl, hy⟩
      · -- the pair is behind `z`, and behind the blank
        have hne : y ≠ [] := by
          rintro rfl
          cases hy
        obtain ⟨c, y, rfl⟩ := List.exists_cons_of_ne_nil hne
        obtain ⟨-, hy⟩ := List.cons.inj hy
        obtain ⟨a', b', hab⟩ := closing_of_blankOut ms [] y b hy
        rw [List.nil_append] at hab
        exact ⟨z ++ m.2 ++ a', b', by rw [hab]; simp⟩
      · -- the pair begins in `z`
        rcases y with - | ⟨c, - | ⟨d, y⟩⟩
        · cases hy
        · cases hy
        · simp only [List.cons_append, List.cons.injEq] at hy
          obtain ⟨rfl, rfl, -⟩ := hy
          exact ⟨a, y ++ (m.2 ++ text ms), by simp⟩
    · obtain ⟨a', b', hab⟩ := closing_of_blankOut ms (z ++ m.2) a b (by rwa [List.append_assoc])
      exact ⟨a', b', by rwa [List.append_assoc] at hab⟩

theorem comment_head (hm : Lexing.matched rules m.2 = some m.1) (hc : m.1 = .comments) :
    ∃ w, m.2 = '/' :: w := by
  rcases matched_cases hm with ⟨h, -⟩ | ⟨r, -, h, -⟩ | ⟨-, h | h⟩ | ⟨h, -⟩ | ⟨h, -⟩
  · rw [hc] at h
    cases h
  · rw [hc] at h
    cases h
  · obtain ⟨v, -, hv⟩ := mem_blockComment.mp h
    exact ⟨_, hv⟩
  · obtain ⟨v, -, hv⟩ := mem_lineComment.mp h
    exact ⟨_, hv⟩
  · rw [hc] at h
    cases h
  · rw [hc] at h
    cases h

/-- The first match is as it was, unless the text begins with a slash. -/
theorem blankOut_head (h : Cut rules (m :: ms)) (hc : ∀ w, m.2 ≠ '/' :: w) :
    blankOut p (m :: ms) = m :: blankOut p ms := by
  rw [blankOut_cons, if_neg]
  rintro ⟨hm, -⟩
  obtain ⟨w, hw⟩ := comment_head (h.matched m List.mem_cons_self).2 hm
  exact hc w hw

/-- A blank is a match of its own. -/
theorem cuts_blank (v : List Char) : Cuts rules [' '] v .blank := by
  refine ⟨List.cons_ne_nil _ _, by decide, fun x hx hne r hr hmem => ?_⟩
  rcases rule_word hr hmem with h | ⟨h, -⟩ | h | h
  · rw [List.length_append] at h
    have := List.length_pos_of_ne_nil hne
    simp only [List.length_singleton] at h
    omega
  · exact (h ' ' List.mem_cons_self).2.2 rfl
  · obtain ⟨v, -, hv⟩ := mem_blockComment.mp h
    cases hv
  · obtain ⟨v, -, hv⟩ := mem_lineComment.mp h
    cases hv

/-- A line comment ends with its line. -/
theorem line_end {u : List Char} {b : Action} (h : Cuts rules u v b) (hu : u ∈ lineComment.language) :
    v = [] ∨ ∃ w, v = newlineChar :: w := by
  rcases v with - | ⟨c, v⟩
  · exact Or.inl rfl
  · by_cases hc : c = newlineChar
    · exact Or.inr ⟨v, by rw [hc]⟩
    · obtain ⟨w, hw, rfl⟩ := mem_lineComment.mp hu
      refine absurd (mem_lineComment.mpr ⟨w ++ [c], ?_, rfl⟩) (h.longest [c] ⟨v, rfl⟩
        (List.cons_ne_nil _ _) (lineComment, .comments) (by simp [rules]))
      simp [hw, Ne.symm hc]

/-- **A match stays the longest** when comments behind it become blanks. -/
theorem Cuts.blankOut {b : Action} (h : Cuts rules u (text ms) b) (hms : Cut rules ms) :
    Cuts rules u (text (blankOut p ms)) b := by
  refine ⟨h.ne_nil, h.matched, fun x hx hne r hr hmem => ?_⟩
  have hsolid : ' ' ∉ x → u ++ x ∉ r.1.language := fun hx' =>
    h.longest x (unblanked ms x hx hx') hne r hr
  obtain ⟨c, x, rfl⟩ := List.exists_cons_of_ne_nil hne
  have hupos := List.length_pos_of_ne_nil h.ne_nil
  rcases rule_word hr hmem with hlen | ⟨hall, -⟩ | hblock | hline
  · rw [List.length_append, List.length_cons] at hlen
    omega
  · exact hsolid (fun hmem' => (hall ' ' (List.mem_append_right _ hmem')).2.2 rfl) hmem
  · -- a block comment
    obtain ⟨v, hv, huv⟩ := mem_blockComment.mp hblock
    rcases u with - | ⟨d, - | ⟨e, u⟩⟩
    · cases hupos
    · -- `u` is the slash; what follows closes in the input
      simp only [List.cons_append, List.nil_append, List.cons.injEq] at huv
      obtain ⟨rfl, rfl, rfl⟩ := huv
      obtain ⟨a, ⟨⟨z, hz⟩, -⟩, hv'⟩ := closes_closesBehind (closes_of_mem hv [])
      rw [List.append_nil] at hz
      obtain ⟨y, hy⟩ := hx
      rcases ms with - | ⟨m, ms⟩
      · cases hy
      · have hcut : Cut rules (m :: ms) := hms
        have hnil := (hcut.matched m List.mem_cons_self).1
        have hstar : text (m :: ms) = '*' :: (m.2.tail ++ text ms) ∧
            text (Lexer.blankOut p (m :: ms)) = '*' :: (m.2.tail ++ text (Lexer.blankOut p ms)) := by
          obtain ⟨d, w, hw⟩ := List.exists_cons_of_ne_nil hnil
          have hsame : Lexer.blankOut p (m :: ms) = m :: Lexer.blankOut p ms := by
            rw [blankOut_cons, if_neg]
            rintro ⟨hm, hpm⟩
            rw [blankOut_cons, if_pos ⟨hm, hpm⟩, text_cons] at hy
            cases hy
          rw [hsame, text_cons, hw] at hy
          obtain ⟨rfl, -⟩ := List.cons.inj hy
          rw [hsame, text_cons, text_cons, hw]
          exact ⟨rfl, rfl⟩
        rw [hstar.2] at hy
        obtain ⟨-, hy⟩ := List.cons.inj hy
        have hocc : m.2.tail ++ text (Lexer.blankOut p ms) = a ++ '*' :: '/' :: (z ++ y) := by
          rw [← hy, hz]
          simp
        obtain ⟨a', b', hab⟩ := closing_of_blankOut ms m.2.tail a (z ++ y) hocc
        obtain ⟨v', hv'⟩ := Option.isSome_iff_exists.mp (closes_isSome a' b')
        obtain ⟨a₀, ⟨⟨b₀, hb₀⟩, -⟩, rfl⟩ := closes_closesBehind hv'
        have hmatch : a₀ ++ ['*', '/'] ∈ commentBody.language :=
          (mem_commentBody ⟨b₀, by rw [hb₀]; simp⟩).mpr hv'
        refine h.longest ('*' :: (a₀ ++ ['*', '/'])) ⟨b₀, ?_⟩ (List.cons_ne_nil _ _)
          (blockComment, .comments) (by simp [rules]) (mem_blockComment.mpr ⟨_, hmatch, rfl⟩)
        rw [hstar.1, hab, hb₀]
        simp
    · -- `u` is a comment itself
      simp only [List.cons_append, List.cons.injEq] at huv
      obtain ⟨rfl, rfl, huv⟩ := huv
      obtain ⟨r', hr', -, hu⟩ := Lexing.matched_some h.matched
      have hbody : u ∈ commentBody.language := rule_block hr' hu
      have hshort := closes_of_mem hbody (c :: x)
      have hlong := closes_of_mem hv []
      rw [List.append_nil, ← huv, hshort, Option.some_inj] at hlong
      simp at hlong
  · -- a comment up to the end of the line
    obtain ⟨v, hv, huv⟩ := mem_lineComment.mp hline
    rcases u with - | ⟨d, - | ⟨e, u⟩⟩
    · cases hupos
    · simp only [List.cons_append, List.nil_append, List.cons.injEq] at huv
      obtain ⟨rfl, rfl, rfl⟩ := huv
      have hslash : ['/'] <+: text ms :=
        unblanked ms ['/'] ((List.prefix_append ['/'] x).trans hx) (by decide)
      exact h.longest ['/'] hslash (List.cons_ne_nil _ _) (lineComment, .comments) (by simp [rules])
        (mem_lineComment.mpr ⟨[], List.not_mem_nil, rfl⟩)
    · simp only [List.cons_append, List.cons.injEq] at huv
      obtain ⟨rfl, rfl, rfl⟩ := huv
      have hu : '/' :: '/' :: u ∈ lineComment.language :=
        mem_lineComment.mpr ⟨u, fun hmem' => hv (List.mem_append_left _ hmem'), rfl⟩
      have hc : c ≠ newlineChar := by
        rintro rfl
        exact hv (by simp)
      rcases ms with - | ⟨m, ms⟩
      · exact hne (List.prefix_nil.mp hx)
      · have hcut : Cut rules (m :: ms) := hms
        rcases line_end h hu with hnil | ⟨w, hw⟩
        · rw [text_cons] at hnil
          exact (hcut.matched m List.mem_cons_self).1 (List.append_eq_nil_iff.mp hnil).1
        · have hm : ∃ w', m.2 = newlineChar :: w' := by
            obtain ⟨d, w', hw'⟩ := List.exists_cons_of_ne_nil (hcut.matched m List.mem_cons_self).1
            rw [text_cons, hw'] at hw
            obtain ⟨rfl, -⟩ := List.cons.inj hw
            exact ⟨w', hw'⟩
          obtain ⟨w', hw'⟩ := hm
          have hhead : ∀ w, m.2 ≠ '/' :: w := by
            intro w h
            rw [hw'] at h
            cases h
          rw [blankOut_head hcut hhead, text_cons, hw'] at hx
          obtain ⟨y, hy⟩ := hx
          exact hc (List.cons.inj hy).1

/-- **Comments may be blanks.** -/
theorem Cut.blankOut : ∀ {ms : List Match}, Cut rules ms → Cut rules (Lexer.blankOut p ms)
  | [], _ => trivial
  | m :: ms, ⟨h, hms⟩ => by
    rw [blankOut_cons]
    split
    · exact ⟨cuts_blank _, Cut.blankOut hms⟩
    · exact ⟨Cuts.blankOut h hms, Cut.blankOut hms⟩

/-- The lines of a comment. -/
theorem foldl_commentChar_lines : ∀ (u : List Char) (c : Counters),
    (u.foldl commentChar c).lines = c.lines + newlines u
  | [], _ => rfl
  | x :: u, c => by
    rw [List.foldl_cons, foldl_commentChar_lines u, newlines, newlines, List.count_cons]
    unfold commentChar
    split
    · subst x
      simp only [newLine, beq_self_eq_true, if_true]
      omega
    · rename_i hx
      simp [hx]

/-- **Comments.** Behind an opening, the rule of a block comment matches if and only if there is a
closing pair, and then up to the first one; so does the lexer. The lines of a comment are counted, and
the tokens are those of the input with a blank in place of each comment, whichever are replaced. -/
theorem comments_read :
    (∀ t, (∃ w, w <+: '/' :: '*' :: t ∧ w ∈ blockComment.language) ↔
      ∃ a b, t = a ++ '*' :: '/' :: b) ∧
    (∀ t w, w <+: '/' :: '*' :: t → (w ∈ blockComment.language ↔
      ∃ a, ClosesBehind t a ∧ w = '/' :: '*' :: (a ++ ['*', '/']))) ∧
    (∀ a b, ClosesBehind (a ++ '*' :: '/' :: b) a →
      lexemes ('/' :: '*' :: (a ++ '*' :: '/' :: b)) =
        (.comments, '/' :: '*' :: (a ++ ['*', '/'])) :: lexemes b) ∧
    (∀ c w, nul ∉ w → (comments c w).lines = c.lines + newlines w) ∧
    ∀ p input, tokens (lexemes (text (blankOut p (lexemes input)))) = tokens (lexemes input) := by
  have hmatch : ∀ t w, w <+: '/' :: '*' :: t → (w ∈ blockComment.language ↔
      ∃ a, ClosesBehind t a ∧ w = '/' :: '*' :: (a ++ ['*', '/'])) := by
    intro t w hw
    rw [mem_blockComment]
    constructor
    · rintro ⟨v, hv, rfl⟩
      obtain ⟨y, hy⟩ := hw
      simp only [List.cons_append, List.cons.injEq, true_and] at hy
      obtain ⟨a, ha, rfl⟩ := closes_closesBehind ((mem_commentBody ⟨y, hy⟩).mp hv)
      exact ⟨a, ha, rfl⟩
    · rintro ⟨a, ha, rfl⟩
      obtain ⟨y, hy⟩ := hw
      simp only [List.cons_append, List.cons.injEq, true_and] at hy
      exact ⟨_, (mem_commentBody ⟨y, hy⟩).mpr (closes_of_closesBehind ha), rfl⟩
  refine ⟨fun t => ⟨?_, ?_⟩, hmatch, fun a b h => ?_, fun c w hw => ?_, fun p input => ?_⟩
  · rintro ⟨w, hw, hmem⟩
    obtain ⟨a, ⟨hb, -⟩, -⟩ := (hmatch t w hw).mp hmem
    exact ⟨a, hb⟩
  · rintro ⟨a, b, rfl⟩
    obtain ⟨v, hv⟩ := Option.isSome_iff_exists.mp (closes_isSome a b)
    obtain ⟨a', ha', rfl⟩ := closes_closesBehind hv
    obtain ⟨b', hb'⟩ := ha'.1
    have hpre : '/' :: '*' :: (a' ++ ['*', '/']) <+: '/' :: '*' :: (a ++ '*' :: '/' :: b) :=
      ⟨b', by rw [hb']; simp⟩
    exact ⟨_, hpre, (hmatch _ _ hpre).mpr ⟨a', ha', rfl⟩⟩
  · have hclose := closes_of_closesBehind h
    have htext : a ++ '*' :: '/' :: b = (a ++ ['*', '/']) ++ b := by simp
    rw [htext] at hclose ⊢
    exact Lexing.scan_append (cuts_blockComment hclose)
  · rw [comments, cText_of_nul hw, foldl_commentChar_lines]
  · have hcut := Cut.blankOut (p := p) (lexemes_cut input).2
    show tokens (scan rules (text (blankOut p (lexemes input)))) = _
    rw [Lexing.scan_text hcut, tokens_blankOut]

/-- Stars and slashes in a comment, and a second comment behind it. -/
theorem comments_read_stars :
    lexemes ('/' :: '*' :: (['/', '*', '*', ' '] ++ '*' :: '/' :: ['/', '*', '*', '/'])) =
      (.comments, '/' :: '*' :: (['/', '*', '*', ' '] ++ ['*', '/'])) :: lexemes ['/', '*', '*', '/'] := by
  refine comments_read.2.2.1 ['/', '*', '*', ' '] ['/', '*', '*', '/'] ⟨⟨_, rfl⟩, ?_⟩
  intro a' b' h
  rcases a' with - | ⟨_, - | ⟨_, - | ⟨_, - | ⟨_, a'⟩⟩⟩⟩ <;> simp_all

end Cminusfc.Frontend.Lexer
