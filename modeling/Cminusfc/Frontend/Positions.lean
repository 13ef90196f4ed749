import Cminusfc.Frontend.Lexer
import Mathlib.Data.List.TakeWhile

/-!
# Where a token stands

The lexer keeps `lines`, `pos_start` and `pos_end` while it reads. `seen` is the text as the actions
see it: `comments` stops at a NUL, and the rest of the comment is not counted.

* `Match.act_behind`: an action keeps the counters behind what has been seen.
* `mem_calls`: what `yylex` returns.
* `positions_iff`: the positions of the tokens count from one origin exactly if no token stands on
  the first line with another behind it, or the first column is 0 as on the other lines.
* `parse_two_lines`: `parse` sets it to 1.

About `src/parser/lexical_analyzer.l` 15-34 and 44-86.
-/

namespace Cminusfc.Frontend.Lexer

open Lexing (Regex Cut scan text)
open Lexing.Regex

/-! ## Lines and columns -/

/-- The number of newlines. -/
def newlines (s : List Char) : Nat := s.count newlineChar

/-- The number of characters behind the last newline. -/
def column (s : List Char) : Nat := (s.reverse.takeWhile (· ≠ newlineChar)).length

theorem newlines_append (s u : List Char) : newlines (s ++ u) = newlines s + newlines u :=
  List.count_append

theorem newlines_eq_zero {s : List Char} : newlines s = 0 ↔ newlineChar ∉ s := List.count_eq_zero

theorem column_concat (s : List Char) (x : Char) :
    column (s ++ [x]) = if x = newlineChar then 0 else column s + 1 := by
  by_cases hx : x = newlineChar <;> simp [column, hx]

theorem column_append {s u : List Char} (hu : newlineChar ∉ u) :
    column (s ++ u) = column s + u.length := by
  induction u using List.reverseRecOn with
  | nil => simp
  | append_singleton u x ih =>
    have hx : x ≠ newlineChar := by
      rintro rfl
      simp at hu
    have hu' : newlineChar ∉ u := fun h => hu (List.mem_append_left _ h)
    rw [← List.append_assoc, column_concat, if_neg hx, ih hu']
    simp [Nat.add_assoc]

/-! ## Matches -/

/-- What is known of a match. -/
def Valid (m : Match) : Prop :=
  match m.1 with
  | .newLine => m.2 = [newlineChar]
  | .routine _ | .blank => nul ∉ m.2 ∧ newlineChar ∉ m.2
  | .unknown => ∃ x, x ≠ newlineChar ∧ m.2 = [x]
  | .comments => True

/-- The characters of a token. -/
def Solid (c : Char) : Prop := c ≠ nul ∧ c ≠ newlineChar ∧ c ≠ ' '

instance : DecidablePred Solid := fun c =>
  inferInstanceAs (Decidable (c ≠ nul ∧ c ≠ newlineChar ∧ c ≠ ' '))

theorem solid_of {p : Char → Bool} (h₁ : p nul = false) (h₂ : p newlineChar = false)
    (h₃ : p ' ' = false) {c : Char} (hc : p c = true) : Solid c := by
  refine ⟨?_, ?_, ?_⟩ <;> rintro rfl <;> simp_all

theorem letter_solid : letter.Within Solid := fun _ => solid_of (by decide) (by decide) (by decide)

theorem digit_solid : digit.Within Solid := fun _ => solid_of (by decide) (by decide) (by decide)

theorem one_solid {c : Char} (h : Solid c) : (one c).Within Solid := by
  intro d hd
  obtain rfl := of_decide_eq_true hd
  exact h

theorem lit_solid {s : String} (h : s.toList.all (fun c => decide (Solid c)) = true) :
    (lit s).Within Solid :=
  within_word fun c hc => of_decide_eq_true (List.all_eq_true.mp h c hc)

/-- **A token has neither a NUL nor a newline nor a blank.** -/
theorem tokenRules_solid : ∀ r ∈ tokenRules, r.1.Within Solid := by
  have hplus : (plus digit).Within Solid := ⟨digit_solid, digit_solid⟩
  have hpoint : (one '.').Within Solid := one_solid (by decide)
  intro r hr
  simp only [tokenRules, List.mem_cons, List.not_mem_nil, or_false] at hr
  rcases hr with rfl | rfl | rfl | rfl | rfl | rfl | rfl | rfl | rfl | rfl | rfl | rfl | rfl | rfl |
    rfl | rfl | rfl | rfl | rfl | rfl | rfl | rfl | rfl | rfl | rfl | rfl | rfl | rfl | rfl
  all_goals first
    | exact lit_solid (by decide)
    | exact ⟨letter_solid, letter_solid⟩
    | exact ⟨⟨hplus, hpoint⟩, digit_solid, hpoint, hplus⟩
    | exact hplus

/-- The rule behind a match. -/
theorem matched_cases {w : List Char} {b : Action} (h : Lexing.matched rules w = some b) :
    (b = .newLine ∧ w = [newlineChar]) ∨
      (∃ r ∈ tokenRules, b = .routine r.2 ∧ w ∈ r.1.language) ∨
      (b = .comments ∧ (w ∈ blockComment.language ∨ w ∈ lineComment.language)) ∨
      (b = .blank ∧ ∃ c, (c = ' ' ∨ c = Char.ofNat 9 ∨ c = Char.ofNat 13) ∧ w = [c]) ∨
      b = .unknown ∧ ∃ c, c ≠ newlineChar ∧ w = [c] := by
  obtain ⟨r, hr, rfl, hw⟩ := Lexing.matched_some h
  simp only [rules, List.cons_append, List.mem_cons, List.mem_append, List.mem_map,
    List.not_mem_nil, or_false] at hr
  rcases hr with rfl | ⟨r, hr, rfl⟩ | rfl | rfl | rfl | rfl
  · obtain ⟨c, hc, rfl⟩ := hw
    obtain rfl := of_decide_eq_true hc
    exact Or.inl ⟨rfl, rfl⟩
  · exact Or.inr (Or.inl ⟨r, hr, rfl, hw⟩)
  · exact Or.inr (Or.inr (Or.inl ⟨rfl, Or.inl hw⟩))
  · exact Or.inr (Or.inr (Or.inl ⟨rfl, Or.inr hw⟩))
  · obtain ⟨c, hc, rfl⟩ := hw
    simp only [Bool.or_eq_true, decide_eq_true_eq] at hc
    exact Or.inr (Or.inr (Or.inr (Or.inl ⟨rfl, c, by tauto, rfl⟩)))
  · obtain ⟨c, hc, rfl⟩ := hw
    exact Or.inr (Or.inr (Or.inr (Or.inr ⟨rfl, c, of_decide_eq_true hc, rfl⟩)))

theorem valid_of_matched {m : Match} (h : Lexing.matched rules m.2 = some m.1) : Valid m := by
  obtain ⟨b, w⟩ := m
  rcases matched_cases h with ⟨rfl, hw⟩ | ⟨r, hr, rfl, hw⟩ | ⟨rfl, -⟩ | ⟨rfl, c, hc, hw⟩ | ⟨rfl, c, hc, hw⟩
  · exact hw
  · have hsolid := (tokenRules_solid r hr).all hw
    exact ⟨fun hmem => (hsolid _ hmem).1 rfl, fun hmem => (hsolid _ hmem).2.1 rfl⟩
  · trivial
  · obtain rfl : w = [c] := hw
    rcases hc with rfl | rfl | rfl <;> exact ⟨by decide, by decide⟩
  · exact ⟨c, hc, hw⟩

/-- Every character is matched. -/
theorem rules_total (c : Char) : (Lexing.matched rules [c]).isSome = true := by
  rw [Option.isSome_iff_ne_none, ne_eq, Lexing.matched_none]
  intro hnone
  by_cases hc : c = newlineChar
  · exact hnone (one newlineChar, .newLine) (by simp [rules]) ⟨c, by simpa using hc, rfl⟩
  · exact hnone (dot, .unknown) (by simp [rules]) ⟨c, by simpa using hc, rfl⟩

/-- **The matches make up the input**, and each is the longest. -/
theorem lexemes_cut (input : List Char) :
    text (lexemes input) = input ∧ Cut rules (lexemes input) :=
  Lexing.scan_cut rules_total input

theorem lexemes_valid {input : List Char} {m : Match} (hm : m ∈ lexemes input) : Valid m :=
  valid_of_matched ((lexemes_cut input).2.matched m hm).2

/-! ## Counters -/

/-- What the actions see of a match. -/
def Match.seen (m : Match) : List Char := if m.1 = .comments then cText m.2 else m.2

/-- What they have seen of the input. -/
def seen (ms : List Match) : List Char := ms.flatMap Match.seen

/-- The first column of the line behind `s`, when that of the first line is `start`. -/
def origin (start : Nat) (s : List Char) : Nat := if newlines s = 0 then start else 0

/-- The counters behind the text `s`. -/
structure Behind (start : Nat) (s : List Char) (c : Counters) : Prop where
  lines : c.lines = 1 + newlines s
  posEnd : c.posEnd = origin start s + column s

variable {start : Nat} {s u : List Char} {c c' : Counters} {m : Match}

theorem cText_of_nul (h : nul ∉ u) : cText u = u := by
  refine List.takeWhile_eq_self_iff.mpr fun x hx => ?_
  simp only [ne_eq, decide_eq_true_eq]
  rintro rfl
  exact h hx

theorem origin_append (h : newlineChar ∉ u) : origin start (s ++ u) = origin start s := by
  simp only [origin, newlines_append, newlines_eq_zero.mpr h, Nat.add_zero]

/-- Characters other than newlines. -/
theorem Behind.advance (h : Behind start s c) (hu : newlineChar ∉ u) (hlines : c'.lines = c.lines)
    (hpos : c'.posEnd = c.posEnd + u.length) : Behind start (s ++ u) c' where
  lines := by rw [hlines, h.lines, newlines_append, newlines_eq_zero.mpr hu, Nat.add_zero]
  posEnd := by rw [hpos, h.posEnd, origin_append hu, column_append hu, Nat.add_assoc]

/-- A newline. -/
theorem Behind.newLine (h : Behind start s c) :
    Behind start (s ++ [newlineChar]) (Lexer.newLine c) where
  lines := by
    rw [newlines_append]
    show c.lines + 1 = _
    rw [h.lines]
    rfl
  posEnd := by
    rw [column_concat, if_pos rfl, origin, newlines_append]
    rfl

/-- The loop of `comments`. -/
theorem Behind.foldl_commentChar : ∀ (u s : List Char) (c : Counters), Behind start s c →
    Behind start (s ++ u) (u.foldl commentChar c)
  | [], s, c, h => by rwa [List.append_nil]
  | x :: u, s, c, h => by
    have hx : Behind start (s ++ [x]) (commentChar c x) := by
      unfold commentChar
      split
      · subst x
        exact h.newLine
      · exact h.advance (by simpa using Ne.symm ‹_›) rfl rfl
    have hu := Behind.foldl_commentChar u _ _ hx
    rwa [List.append_assoc] at hu

/-- **One action.** -/
theorem Behind.act (h : Behind start s c) (hm : Valid m) :
    Behind start (s ++ m.seen) (Lexer.act c m) := by
  obtain ⟨b, w⟩ := m
  have hroutine : nul ∉ w ∧ newlineChar ∉ w → Behind start (s ++ w) (routine c w) := fun hw =>
    h.advance hw.2 rfl (by rw [routine, cText_of_nul hw.1])
  cases b with
  | newLine =>
    obtain rfl : w = [newlineChar] := hm
    exact h.newLine
  | routine t => exact hroutine hm
  | blank => exact hroutine hm
  | comments =>
    have hc : Behind start s { c with posStart := c.posEnd } := ⟨h.lines, h.posEnd⟩
    exact hc.foldl_commentChar (cText w) s _
  | unknown =>
    obtain ⟨x, hx, rfl⟩ := hm
    exact h.advance (u := [x]) (by simpa using Ne.symm hx) rfl rfl

/-- **A sequence of actions.** -/
theorem Behind.foldl_act : ∀ (ms : List Match) {s : List Char} {c : Counters}, Behind start s c →
    (∀ m ∈ ms, Valid m) → Behind start (s ++ seen ms) (ms.foldl Lexer.act c)
  | [], s, c, h, _ => by simpa [seen] using h
  | m :: ms, s, c, h, hms => by
    obtain ⟨hm, hms⟩ := List.forall_mem_cons.mp hms
    have hrest := Behind.foldl_act ms (h.act hm) hms
    rwa [List.append_assoc] at hrest

/-! ## What `yylex` returns -/

theorem yylex_eq {ms : List Match} {r : Return} : yylex c ms = some r ↔
    ∃ pre t w, ms = pre ++ (.routine t, w) :: r.rest ∧ tokens pre = [] ∧ r.token = t ∧
      r.yytext = w ∧ r.counters = routine (pre.foldl act c) w := by
  induction ms generalizing c with
  | nil => simp [yylex]
  | cons m ms ih =>
    obtain ⟨b, u⟩ := m
    by_cases hb : ∃ t, b = .routine t
    · obtain ⟨t, rfl⟩ := hb
      simp only [yylex, Option.some.injEq]
      constructor
      · rintro rfl
        exact ⟨[], t, u, rfl, rfl, rfl, rfl, rfl⟩
      · rintro ⟨pre, t', w, hms, hpre, ht, hw, hc⟩
        cases pre with
        | nil =>
          simp only [List.nil_append, List.cons.injEq, Prod.mk.injEq, Action.routine.injEq] at hms
          obtain ⟨⟨rfl, rfl⟩, hrest⟩ := hms
          cases r
          simp_all [act]
        | cons p pre =>
          obtain ⟨rfl, -⟩ := List.cons.inj hms
          simp [tokens] at hpre
    · have hstep : yylex c ((b, u) :: ms) = yylex (act c (b, u)) ms := by
        cases b with
        | routine t => exact absurd ⟨t, rfl⟩ hb
        | _ => rfl
      have htok : ∀ pre, tokens ((b, u) :: pre) = tokens pre := by
        intro pre
        cases b with
        | routine t => exact absurd ⟨t, rfl⟩ hb
        | _ => rfl
      rw [hstep, ih]
      constructor
      · rintro ⟨pre, t, w, hms, hpre, hr⟩
        exact ⟨(b, u) :: pre, t, w, by rw [hms]; rfl, (htok pre).trans hpre, hr⟩
      · rintro ⟨pre, t, w, hms, hpre, hr⟩
        cases pre with
        | nil =>
          obtain ⟨h, -⟩ := List.cons.inj hms
          exact absurd ⟨t, (Prod.mk.inj h).1⟩ hb
        | cons p pre =>
          obtain ⟨rfl, hrest⟩ := List.cons.inj hms
          exact ⟨pre, t, w, hrest, (htok pre).symm.trans hpre, hr⟩

theorem yylex_none : ∀ (ms : List Match) {c : Counters}, yylex c ms = none →
    ∀ t w, (Action.routine t, w) ∉ ms
  | [], _, _, _, _ => List.not_mem_nil
  | (b, u) :: ms, c, h, t, w => by
    cases b with
    | routine t' => cases h
    | _ =>
      have hrest := yylex_none ms h t w
      simpa using hrest

/-- `pre` stands in front of one of the first `n` tokens. -/
def Front (n : Nat) (ms pre : List Match) : Prop :=
  ∃ t w rest, ms = pre ++ (.routine t, w) :: rest ∧ (tokens pre).length < n

theorem tokens_append (l l' : List Match) : tokens (l ++ l') = tokens l ++ tokens l' :=
  List.filterMap_append

/-- A token and what is in front of it, behind the first token or as this. -/
theorem split_token {pre pre' rest rest' : List Match} {t t' : Token} {w w' : List Char}
    (hpre : tokens pre = [])
    (h : pre ++ (.routine t, w) :: rest = pre' ++ (.routine t', w') :: rest') :
    (pre = pre' ∧ t = t' ∧ w = w' ∧ rest = rest') ∨
      ∃ mid, pre' = pre ++ (.routine t, w) :: mid ∧ rest = mid ++ (.routine t', w') :: rest' := by
  rcases List.append_eq_append_iff.mp h with ⟨mid, rfl, hmid⟩ | ⟨mid, rfl, hmid⟩
  · cases mid with
    | nil =>
      simp only [List.nil_append, List.cons.injEq, Prod.mk.injEq, Action.routine.injEq] at hmid
      obtain ⟨⟨rfl, rfl⟩, rfl⟩ := hmid
      exact Or.inl ⟨(List.append_nil _).symm, rfl, rfl, rfl⟩
    | cons p mid =>
      obtain ⟨rfl, hrest⟩ := List.cons.inj hmid
      exact Or.inr ⟨mid, rfl, hrest⟩
  · cases mid with
    | nil =>
      simp only [List.nil_append, List.cons.injEq, Prod.mk.injEq, Action.routine.injEq] at hmid
      obtain ⟨⟨rfl, rfl⟩, rfl⟩ := hmid
      exact Or.inl ⟨List.append_nil _, rfl, rfl, rfl⟩
    | cons p mid =>
      obtain ⟨rfl, -⟩ := List.cons.inj hmid
      rw [tokens_append] at hpre
      simp [tokens] at hpre

theorem tokens_routine (pre mid : List Match) (t : Token) (w : List Char) (hpre : tokens pre = []) :
    (tokens (pre ++ (.routine t, w) :: mid)).length = (tokens mid).length + 1 := by
  rw [tokens_append, hpre]
  rfl

/-- **What the first `n` calls of `yylex` return.** -/
theorem mem_calls : ∀ (n : Nat) {c : Counters} {ms : List Match} {r : Return}, r ∈ calls n c ms ↔
    ∃ pre, ms = pre ++ (.routine r.token, r.yytext) :: r.rest ∧ (tokens pre).length < n ∧
      r.counters = routine (pre.foldl act c) r.yytext := by
  intro n
  induction n with
  | zero => simp [calls]
  | succ n ih =>
    intro c ms r
    rw [calls]
    cases hy : yylex c ms with
    | none =>
      refine iff_of_false List.not_mem_nil ?_
      rintro ⟨pre, hms, -⟩
      exact yylex_none ms hy r.token r.yytext (by rw [hms]; simp)
    | some r₁ =>
      obtain ⟨pre, t, w, hms, hpre, ht, hw, hc⟩ := yylex_eq.mp hy
      simp only [List.mem_cons, ih]
      constructor
      · rintro (rfl | ⟨pre', hms', hlt, hc'⟩)
        · subst ht hw
          exact ⟨pre, hms, by simp [hpre], hc⟩
        · refine ⟨pre ++ (.routine t, w) :: pre', ?_, ?_, ?_⟩
          · rw [hms, hms', List.append_assoc, List.cons_append]
          · rw [tokens_routine pre pre' t w hpre]
            omega
          · rw [hc', List.foldl_append, List.foldl_cons, hc]
            rfl
      · rintro ⟨pre', hms', hlt, hc'⟩
        rcases split_token hpre (hms.symm.trans hms') with ⟨rfl, rfl, rfl, hrest⟩ | ⟨mid, rfl, hrest⟩
        · left
          cases r
          cases r₁
          simp_all
        · right
          refine ⟨mid, hrest, ?_, ?_⟩
          · rw [tokens_routine pre mid t w hpre] at hlt
            omega
          · rw [hc', List.foldl_append, List.foldl_cons, hc]
            rfl

/-! ## Positions -/

/-- A token is where the counters say, columns counted from `o`. -/
def At (o : Nat) (input : List Char) (r : Return) : Prop :=
  ∃ before, input = before ++ r.yytext ++ text r.rest ∧ r.counters.lines = 1 + newlines before ∧
    r.counters.posStart = o + column before ∧
    r.counters.posEnd = o + column before + r.yytext.length

theorem Driver.behind (d : Driver) : Behind d.start.posEnd [] d.start := by
  cases d <;> exact ⟨rfl, rfl⟩

/-- The counters of the token behind `pre`. -/
theorem at_iff {input : List Char} {pre rest : List Match} {t : Token} {w : List Char} (d : Driver)
    (h : lexemes input = pre ++ (.routine t, w) :: rest) (o : Nat) :
    At o input ⟨t, w, routine (pre.foldl act d.start) w, rest⟩ ↔
      newlines (seen pre) = newlines (text pre) ∧
        origin d.start.posEnd (seen pre) + column (seen pre) = o + column (text pre) := by
  have hvalid : ∀ m ∈ pre ++ (Action.routine t, w) :: rest, Valid m := fun m hm =>
    lexemes_valid (h ▸ hm)
  have hb := d.behind.foldl_act pre fun m hm => hvalid m (List.mem_append_left _ hm)
  have hw : nul ∉ w ∧ newlineChar ∉ w := hvalid (.routine t, w) (by simp)
  have htext : input = text pre ++ w ++ text rest := by
    have := (lexemes_cut input).1
    rw [h] at this
    simpa [text] using this.symm
  have hstart : (routine (pre.foldl act d.start) w).posStart = (pre.foldl act d.start).posEnd := rfl
  have hend : (routine (pre.foldl act d.start) w).posEnd =
      (pre.foldl act d.start).posEnd + w.length := by rw [routine, cText_of_nul hw.1]
  have hlines : (routine (pre.foldl act d.start) w).lines = (pre.foldl act d.start).lines := rfl
  rw [List.nil_append] at hb
  constructor
  · rintro ⟨before, hbefore, hl, hs, -⟩
    obtain rfl : text pre = before := by
      have := hbefore.symm.trans htext
      rw [List.append_assoc, List.append_assoc] at this
      exact (List.append_cancel_right this).symm
    rw [hlines, hb.lines] at hl
    rw [hstart, hb.posEnd] at hs
    exact ⟨by omega, hs⟩
  · rintro ⟨hl, hs⟩
    refine ⟨text pre, htext, ?_, ?_, ?_⟩
    · rw [hlines, hb.lines, hl]
    · rw [hstart, hb.posEnd, hs]
    · rw [hend, hb.posEnd, hs]

/-- The columns of the first `n` tokens count from `o`. -/
def Aligned (d : Driver) (n o : Nat) (input : List Char) : Prop :=
  ∀ pre, Front n (lexemes input) pre → newlines (seen pre) = newlines (text pre) ∧
    origin d.start.posEnd (seen pre) + column (seen pre) = o + column (text pre)

theorem calls_at_iff (d : Driver) (n o : Nat) (input : List Char) :
    (∀ r ∈ calls n d.start (lexemes input), At o input r) ↔ Aligned d n o input := by
  constructor
  · rintro h pre ⟨t, w, rest, hms, hlt⟩
    exact (at_iff d hms o).mp (h _ ((mem_calls n).mpr ⟨pre, hms, hlt, rfl⟩))
  · intro h r hr
    obtain ⟨pre, hms, hlt, hc⟩ := (mem_calls n).mp hr
    have hat := (at_iff d hms o).mpr (h pre ⟨_, _, _, hms, hlt⟩)
    rwa [← hc] at hat

theorem seen_eq_text {ms : List Match} (h : ∀ m ∈ ms, m.1 = .comments → nul ∉ m.2) :
    seen ms = text ms := by
  induction ms with
  | nil => rfl
  | cons m ms ih =>
    obtain ⟨hm, hms⟩ := List.forall_mem_cons.mp h
    have hseen : m.seen = m.2 := by
      unfold Match.seen
      split
      · exact cText_of_nul (hm ‹_›)
      · rfl
    show m.seen ++ seen ms = m.2 ++ text ms
    rw [hseen, ih hms]

/-- **Where the tokens stand.** In front of the first `n` tokens, the lines are right and the columns
count from one origin exactly if they do for the text as the actions see it. Where no comment holds a
NUL, this is so exactly if the lexer is driven by the stand-alone driver, or the tokens are not both
on the first line and behind it. -/
theorem positions_iff (d : Driver) (n : Nat) (input : List Char) :
    ((∃ o, ∀ r ∈ calls n d.start (lexemes input), At o input r) ↔ ∃ o, Aligned d n o input) ∧
      ((∀ m ∈ lexemes input, m.1 = .comments → nul ∉ m.2) →
        ((∃ o, ∀ r ∈ calls n d.start (lexemes input), At o input r) ↔
          d = .lexer ∨ ¬ ∃ pre pre', Front n (lexemes input) pre ∧ Front n (lexemes input) pre' ∧
            newlines (text pre) = 0 ∧ newlines (text pre') ≠ 0)) := by
  refine ⟨exists_congr fun o => calls_at_iff d n o input, fun hnul => ?_⟩
  have hseen : ∀ pre, Front n (lexemes input) pre → seen pre = text pre := by
    rintro pre ⟨t, w, rest, hms, -⟩
    exact seen_eq_text fun m hm => hnul m (by rw [hms]; exact List.mem_append_left _ hm)
  simp only [calls_at_iff]
  have haligned : ∀ o, Aligned d n o input ↔
      ∀ pre, Front n (lexemes input) pre → origin d.start.posEnd (text pre) = o := by
    intro o
    refine forall_congr' fun pre => ⟨fun h hf => ?_, fun h hf => ?_⟩
    · have := (h hf).2
      rw [hseen pre hf] at this
      omega
    · rw [hseen pre hf, h hf]
      exact ⟨rfl, rfl⟩
  simp only [haligned]
  cases d with
  | lexer =>
    refine iff_of_true ⟨0, fun pre _ => ?_⟩ (Or.inl rfl)
    simp [origin, Driver.start, lexerStart]
  | parse =>
    have horigin : ∀ pre : List Match, origin Driver.parse.start.posEnd (text pre) =
        if newlines (text pre) = 0 then 1 else 0 := fun _ => rfl
    simp only [horigin, reduceCtorEq, false_or]
    constructor
    · rintro ⟨o, ho⟩ ⟨pre, pre', hf, hf', hz, hnz⟩
      have h₁ := ho pre hf
      have h₂ := ho pre' hf'
      rw [if_pos hz] at h₁
      rw [if_neg hnz] at h₂
      omega
    · intro h
      by_cases hz : ∃ pre, Front n (lexemes input) pre ∧ newlines (text pre) = 0
      · obtain ⟨pre, hf, hz⟩ := hz
        refine ⟨1, fun pre' hf' => if_pos ?_⟩
        by_contra hnz
        exact h ⟨pre, pre', hf, hf', hz, hnz⟩
      · exact ⟨0, fun pre hf => if_neg fun h => hz ⟨pre, hf, h⟩⟩

/-- The theorem at `x`, a comment and `y` on one line. -/
theorem positions_iff_one_line :
    (∃ o, ∀ r ∈ calls 2 Driver.parse.start (lexemes "x/**/y".toList), At o "x/**/y".toList r) ↔
      Driver.parse = .lexer ∨ ¬ ∃ pre pre', Front 2 (lexemes "x/**/y".toList) pre ∧
        Front 2 (lexemes "x/**/y".toList) pre' ∧ newlines (text pre) = 0 ∧ newlines (text pre') ≠ 0 :=
  (positions_iff .parse 2 "x/**/y".toList).2 (by decide +kernel)

/-- **`parse` counts the columns of the first line from 1**, those of the others from 0. -/
theorem parse_two_lines : ¬ ∃ o, ∀ r ∈ calls 2 Driver.parse.start (lexemes ['x', newlineChar, 'y']),
    At o ['x', newlineChar, 'y'] r := by
  have hlex : lexemes ['x', newlineChar, 'y'] =
      [(.routine .ID, ['x']), (.newLine, [newlineChar]), (.routine .ID, ['y'])] := by decide +kernel
  have hcalls : calls 2 Driver.parse.start (lexemes ['x', newlineChar, 'y']) =
      [⟨.ID, ['x'], ⟨1, 1, 2⟩, [(.newLine, [newlineChar]), (.routine .ID, ['y'])]⟩,
        ⟨.ID, ['y'], ⟨2, 0, 1⟩, []⟩] := by
    rw [hlex]
    decide
  rintro ⟨o, ho⟩
  rw [hcalls] at ho
  obtain ⟨s, hs, -, hx, -⟩ := ho _ List.mem_cons_self
  obtain ⟨s', -, -, hy, -⟩ := ho _ (List.mem_cons_of_mem _ List.mem_cons_self)
  have hnil : s = [] := by
    have hlen := congrArg List.length hs
    rw [List.length_append, List.length_append] at hlen
    have htext : (text [((Action.newLine, [newlineChar]) : Match), (.routine .ID, ['y'])]).length = 2 :=
      rfl
    rw [htext] at hlen
    exact List.length_eq_zero_iff.mp (by simpa using hlen.symm)
  subst hnil
  have hcol : column [] = 0 := rfl
  simp only [hcol] at hx hy
  omega

end Cminusfc.Frontend.Lexer
