import Cminusfc.Frontend.Comparisons
import Cminusfc.Frontend.Flags
import Cminusfc.Frontend.Semantics

/-!
# The order of evaluation

Mirrors the visitors of `src/cminusfc/cminusf_builder.cpp`, lines 275-407, against the language
document (`Documentations/common/cminusf.md`, line 136).

An event of an expression is a call, a store, a load or the branch on a subscript. Calls and stores
are effects. A branch on a subscript is the last step of its evaluation: behind it the program goes
on, or ends in `neg_idx_except`. `events` lists the events of an expression in the order of the
language document or in the order of the calls of `accept`.

The two differ in one place. The document evaluates the subscript of the variable on the left of
an assignment before the right-hand side, `visit(ASTAssignExpression)` visits it afterwards.

Two events may change places if neither is an effect: loads and branches change nothing, and the
program ends in the same way on each negative subscript. Of any others the order counts.

Results:
* `visit_does`: a visit emits a path (`Func.Path`), with the events on it in the order of the
  calls of `accept`.
* `performs_iff`: every execution performs the effects in the order of the document, among each
  other and with all other events, exactly when no assignment has a subscript on its left and a
  right-hand side of which one has an effect and the other an event.

Out of scope: the values. `Semantics` has their meaning, in the order of the document, and
`ExpressionsCorrect` shows of two sides without effects that they may change places.
-/

namespace Cminusfc.Frontend

open LightIR
open Fallible (bind_ok)
open Builder

/-! ## Events -/

/-- A step that counts: an instruction, and whether it is an effect. -/
structure Event where
  id : InstrId
  effect : Bool
  deriving DecidableEq, Repr

/-- The loads and the branches on subscripts from `B` to `B'`. -/
def readEvents (B B' : Builder) : List Event := (reads B B').map fun i => ⟨i, false⟩

/-- The call or the store that `B` has emitted last. -/
def lastEffect (B : Builder) : Event := ⟨B.fn.next - 1, true⟩

/-- The events of an expression that is visited from `B`. With `addressFirst` they are in the order
of the document: the subscript on the left of an assignment is in front of the right-hand side. -/
def events (addressFirst : Bool) : {k : Kind} → Ast k → Builder → List Event
  | _, .group e, B => events addressFirst e B
  | _, .var v, B => events addressFirst v B
  | _, .simple l, B => events addressFirst l B
  | _, .term t, B => events addressFirst t B
  | _, .factor f, B => events addressFirst f B
  | _, .relation l _ r, B => events addressFirst l B ++ events addressFirst r (after l B)
  | _, .additive l _ t, B => events addressFirst l B ++ events addressFirst t (after l B)
  | _, .multiplicative l _ f, B => events addressFirst l B ++ events addressFirst f (after l B)
  | _, .ident id, B => readEvents B (after (.ident id) B)
  | _, .element id e, B =>
    let B₁ := B.setAddressOnly false
    events addressFirst e B₁ ++ readEvents (after e B₁) (after (.element id e) B)
  | _, .assign v e, B =>
    let target := events addressFirst v ((after e B).setAddressOnly true)
    let source := events addressFirst e B
    (if addressFirst then target ++ source else source ++ target) ++
      [lastEffect (after (.assign v e) B)]
  | _, .call id args, B =>
    match B.callee id with
    | .ok (_, t) =>
      events addressFirst args (B.setFrame ⟨t.params, []⟩) ++ [lastEffect (after (.call id args) B)]
    | .error _ => []
  | _, .arg e rest, B =>
    match B.nextParam with
    | .ok t =>
      let B := B.setAddressOnly t.isPointer
      match (after e B).pushArg t with
      | .ok B' =>
        events addressFirst e B ++ readEvents (after e B) B' ++ events addressFirst rest B'
      | .error _ => []
    | .error _ => []
  | _, _, _ => []

namespace Ast

/-- The expression reads a variable, has a subscript or has an effect. A variable is read unless
its address is asked for. -/
def hasEvent : {k : Kind} → Ast k → (addressOnly : Bool) → Bool
  | _, .group e, b => e.hasEvent b
  | _, .var v, b => v.hasEvent b
  | _, .simple l, b => l.hasEvent b
  | _, .term t, b => t.hasEvent b
  | _, .factor f, b => f.hasEvent b
  | _, .relation l _ r, b => l.hasEvent b || r.hasEvent (l.addressAfter b)
  | _, .additive l _ t, b => l.hasEvent b || t.hasEvent (l.addressAfter b)
  | _, .multiplicative l _ f, b => l.hasEvent b || f.hasEvent (l.addressAfter b)
  | _, .ident _, b => !b
  | _, .element _ _, _ => true
  | _, .assign _ _, _ => true
  | _, .call _ _, _ => true
  | _, _, _ => false

/-- The subscript on the left of an assignment or the right-hand side has an effect, the other one
an event. -/
def conflict (v : Ast .var) (e : Ast .expression) (addressOnly : Bool) : Bool :=
  (v.hasEffect && e.hasEvent addressOnly) || (v.hasEvent true && e.hasEffect)

/-- In no assignment the order of the subscript and the right-hand side counts. `B` has the types of
the parameters. -/
def ordered (B : Builder) : {k : Kind} → Ast k → (addressOnly : Bool) → (params : List Ty) → Bool
  | _, .group e, b, _ => e.ordered B b []
  | _, .var v, b, _ => v.ordered B b []
  | _, .simple l, b, _ => l.ordered B b []
  | _, .term t, b, _ => t.ordered B b []
  | _, .factor f, b, _ => f.ordered B b []
  | _, .relation l _ r, b, _ => l.ordered B b [] && r.ordered B (l.addressAfter b) []
  | _, .additive l _ t, b, _ => l.ordered B b [] && t.ordered B (l.addressAfter b) []
  | _, .multiplicative l _ f, b, _ => l.ordered B b [] && f.ordered B (l.addressAfter b) []
  | _, .element _ e, _, _ => e.ordered B false []
  | _, .assign v e, b, _ => !conflict v e b && (v.ordered B true [] && e.ordered B b [])
  | _, .call id args, b, _ =>
    match B.callee id with
    | .ok (_, t) => args.ordered B b t.params
    | .error _ => true
  | _, .arg e rest, _, t :: ts => e.ordered B t.isPointer [] && rest.ordered B false ts
  | _, _, _, _ => true

end Ast

/-- Only arguments look at the parameters. -/
theorem ordered_params {k : Kind} (hk : k.isValue = true) (a : Ast k) (B : Builder) (b : Bool)
    (ts : List Ty) : a.ordered B b ts = a.ordered B b [] := by
  cases a <;> first | rfl | cases hk

theorem Sees.ordered {B B' : Builder} (h : Sees B B') {k : Kind} (a : Ast k) :
    ∀ b ts, a.ordered B' b ts = a.ordered B b ts := by
  induction a with
  | group e ih | var v ih | simple l ih | term t ih | factor f ih => exact fun b _ => ih b []
  | relation l op r ihl ihr | additive l op r ihl ihr | multiplicative l op r ihl ihr =>
    intro b ts
    simp only [Ast.ordered, ihl, ihr]
  | element id e ih => exact fun _ _ => ih false []
  | assign v e ihv ihe =>
    intro b ts
    simp only [Ast.ordered, ihv, ihe]
  | call id args ih =>
    intro b ts
    simp only [Ast.ordered, h.callee, ih]
  | arg e rest ihe ihrest =>
    intro b ts
    cases ts with
    | nil => rfl
    | cons t ts => simp only [Ast.ordered, ihe, ihrest]
  | _ => exact fun _ _ => rfl

/-! ## The events are on the path -/

theorem map_readEvents (B B' : Builder) : (readEvents B B').map Event.id = reads B B' := by
  simp [readEvents, Function.comp_def]

/-- **A visit of an expression emits a path**, with the events on it in the order of the calls of
`accept`. -/
theorem visit_does {k : Kind} (a : Ast k) :
    k.inExpression = true → ∀ B B', visit a B = .ok B' →
      Does B B' ((events false a B).map Event.id) := by
  induction a with
  | intNum i | floatNum x =>
    intro _ B B' h
    cases h
    exact .of_same rfl rfl
  | group e ih | var v ih | simple l ih | term t ih | factor f ih => exact ih
  | noArgs =>
    intro _ B B' h
    cases h
    exact .refl B
  | relation l op r ihl ihr =>
    intro _ B B' h
    obtain ⟨B₁, h₁, h⟩ := bind_ok.mp h
    obtain ⟨B₂, h₂, h₃⟩ := bind_ok.mp h
    rw [events, after_ok h₁, List.map_append]
    exact ((ihl rfl B B₁ h₁).trans (ihr rfl B₁ B₂ h₂)).then (binary_does (by simp) (by simp) h₃)
  | additive l op t ihl iht =>
    intro _ B B' h
    obtain ⟨B₁, h₁, h⟩ := bind_ok.mp h
    obtain ⟨B₂, h₂, h₃⟩ := bind_ok.mp h
    rw [events, after_ok h₁, List.map_append]
    exact ((ihl rfl B B₁ h₁).trans (iht rfl B₁ B₂ h₂)).then
      (binary_does (by cases op <;> simp [AddOp.intOp]) (by cases op <;> simp [AddOp.floatOp]) h₃)
  | multiplicative l op f ihl ihf =>
    intro _ B B' h
    obtain ⟨B₁, h₁, h⟩ := bind_ok.mp h
    obtain ⟨B₂, h₂, h₃⟩ := bind_ok.mp h
    rw [events, after_ok h₁, List.map_append]
    exact ((ihl rfl B B₁ h₁).trans (ihf rfl B₁ B₂ h₂)).then
      (binary_does (by cases op <;> simp [MulOp.intOp]) (by cases op <;> simp [MulOp.floatOp]) h₃)
  | ident id =>
    intro _ B B' h
    rw [events, after_ok h, map_readEvents]
    unfold visit at h
    split at h
    · cases h
    · exact (finishVar_does h).reads
  | element id e ih =>
    intro _ B B' h
    have hafter := after_ok h
    obtain ⟨B₁, h₁, h₂⟩ := bind_ok.mp h
    rw [events, hafter, after_ok h₁, List.map_append, map_readEvents]
    have hinner : Does B B₁ ((events false e (B.setAddressOnly false)).map Event.id) :=
      (ih rfl _ B₁ h₁).from rfl rfl
    have hsubscript : Does B₁ B' [] := (subscript_does h₂).from rfl rfl
    exact hinner.trans hsubscript.reads
  | assign v e ihv ihe =>
    intro _ B B' h
    have hafter := after_ok h
    obtain ⟨B₁, h₁, h⟩ := bind_ok.mp h
    obtain ⟨B₂, h₂, h₃⟩ := bind_ok.mp h
    rw [events, hafter, after_ok h₁, if_neg Bool.false_ne_true, List.map_append, List.map_append]
    have hvar : Does B₁ B₂ ((events false v (B₁.setAddressOnly true)).map Event.id) :=
      (ihv rfl _ B₂ h₂).from rfl rfl
    exact ((ihe rfl B B₁ h₁).trans hvar).trans (assignTo_does h₃)
  | call id args ih =>
    intro _ B B' h
    have hafter := after_ok h
    obtain ⟨⟨n, t⟩, hcallee, h⟩ := bind_ok.mp h
    obtain ⟨B₁, h₁, h⟩ := bind_ok.mp h
    obtain ⟨B₂, h₂, h⟩ := bind_ok.mp h
    cases h
    rw [events, hafter, hcallee]
    dsimp only
    rw [List.map_append]
    have hargs : Does B B₁ ((events false args (B.setFrame ⟨t.params, []⟩)).map Event.id) :=
      (ih rfl _ B₁ h₁).from rfl rfl
    exact (hargs.trans (createCall_does h₂)).same rfl rfl
  | arg e rest ihe ihrest =>
    intro _ B B' h
    obtain ⟨t, ht, h⟩ := bind_ok.mp h
    obtain ⟨B₁, h₁, h⟩ := bind_ok.mp h
    obtain ⟨B₂, h₂, h₃⟩ := bind_ok.mp h
    rw [events, ht]
    dsimp only
    rw [after_ok h₁, h₂]
    dsimp only
    rw [List.map_append, List.map_append, map_readEvents]
    have harg : Does B B₁ ((events false e (B.setAddressOnly t.isPointer)).map Event.id) :=
      (ihe rfl _ B₁ h₁).from rfl rfl
    exact (harg.trans (pushArg_does h₂).reads).trans (ihrest rfl B₂ B' h₃)
  | compoundStmt | emptyStmt | expressionStmt | selectionStmt | selectionElseStmt | iterationStmt
  | returnVoidStmt | returnStmt | noStmts | stmt => exact fun h => nomatch h

/-- The two orders are about the same events. -/
theorem events_perm {k : Kind} (a : Ast k) :
    ∀ B, (events true a B).Perm (events false a B) := by
  induction a with
  | group e ih | var v ih | simple l ih | term t ih | factor f ih => exact ih
  | relation l op r ihl ihr => exact fun B => (ihl B).append (ihr _)
  | additive l op t ihl iht => exact fun B => (ihl B).append (iht _)
  | multiplicative l op f ihl ihf => exact fun B => (ihl B).append (ihf _)
  | element id e ih => exact fun B => (ih _).append_right _
  | assign v e ihv ihe =>
    intro B
    exact (((ihv _).append (ihe B)).trans List.perm_append_comm).append_right _
  | call id args ih =>
    intro B
    unfold events
    split
    · exact (ih _).append_right _
    · exact .refl _
  | arg e rest ihe ihrest =>
    intro B
    unfold events
    split
    · dsimp only
      split
      · exact ((ihe _).append_right _).append (ihrest _)
      · exact .refl _
    · exact .refl _
  | _ => exact fun B => .refl _

/-- The events of an expression are emitted during its visit. -/
theorem events_between {k : Kind} {a : Ast k} {B B' : Builder} (hk : k.inExpression = true)
    (h : visit a B = .ok B') (hw : Wf B) {s : Event} (hs : s ∈ events true a B) :
    B.fn.next ≤ s.id ∧ s.id < B'.fn.next := by
  obtain ⟨-, ids, gs, hemits, hsub⟩ := visit_does a hk B B' h hw
  have hmem : s.id ∈ ids :=
    hsub.subset (List.mem_map_of_mem ((events_perm a B).mem_iff.mp hs))
  exact ⟨hemits.low _ (List.mem_append_left _ hmem), hemits.high _ (List.mem_append_left _ hmem)⟩

/-! ## Which expressions have events -/

theorem exists_effect_append (l r : List Event) :
    (∃ s ∈ l ++ r, s.effect = true) ↔
      (∃ s ∈ l, s.effect = true) ∨ ∃ s ∈ r, s.effect = true := by
  simp only [List.mem_append, or_and_right, exists_or]

theorem no_effect_readEvents (B B' : Builder) :
    ¬ ∃ s ∈ readEvents B B', s.effect = true := by
  rintro ⟨s, hs, heffect⟩
  obtain ⟨i, -, rfl⟩ := List.mem_map.mp hs
  cases heffect

/-- An expression that is compiled has an effect if it looks as if it had one. -/
theorem events_effect {k : Kind} (a : Ast k) :
    k.inExpression = true → ∀ B B', visit a B = .ok B' →
      ((∃ s ∈ events true a B, s.effect = true) ↔ a.hasEffect = true) := by
  induction a with
  | intNum | floatNum | noArgs => simp [events, Ast.hasEffect]
  | ident id =>
    exact fun _ B B' _ => iff_of_false (no_effect_readEvents _ _) (Bool.false_ne_true)
  | group e ih | var v ih | simple l ih | term t ih | factor f ih => exact ih
  | relation l op r ihl ihr | additive l op r ihl ihr | multiplicative l op r ihl ihr =>
    intro _ B B' h
    obtain ⟨B₁, h₁, h⟩ := bind_ok.mp h
    obtain ⟨B₂, h₂, h₃⟩ := bind_ok.mp h
    rw [events, after_ok h₁, exists_effect_append, ihl rfl B B₁ h₁, ihr rfl B₁ B₂ h₂,
      Ast.hasEffect, Bool.or_eq_true]
  | element id e ih =>
    intro _ B B' h
    obtain ⟨B₁, h₁, h₂⟩ := bind_ok.mp h
    rw [events, exists_effect_append, ih rfl _ B₁ h₁]
    exact or_iff_left (no_effect_readEvents _ _)
  | assign v e ihv ihe =>
    intro _ B B' _
    refine iff_of_true ⟨lastEffect (after (.assign v e) B), ?_, rfl⟩ rfl
    exact List.mem_append_right _ List.mem_cons_self
  | call id args ih =>
    intro _ B B' h
    obtain ⟨⟨n, t⟩, hcallee, h⟩ := bind_ok.mp h
    refine iff_of_true ⟨lastEffect (after (.call id args) B), ?_, rfl⟩ rfl
    rw [events, hcallee]
    exact List.mem_append_right _ List.mem_cons_self
  | arg e rest ihe ihrest =>
    intro _ B B' h
    obtain ⟨t, ht, h⟩ := bind_ok.mp h
    obtain ⟨B₁, h₁, h⟩ := bind_ok.mp h
    obtain ⟨B₂, h₂, h₃⟩ := bind_ok.mp h
    rw [events, ht]
    dsimp only
    rw [after_ok h₁, h₂]
    dsimp only
    rw [exists_effect_append, exists_effect_append, ihe rfl _ B₁ h₁, ihrest rfl B₂ B' h₃,
      Ast.hasEffect, Bool.or_eq_true]
    exact or_congr_left (or_iff_left (no_effect_readEvents _ _))
  | compoundStmt | emptyStmt | expressionStmt | selectionStmt | selectionElseStmt | iterationStmt
  | returnVoidStmt | returnStmt | noStmts | stmt => exact fun h => nomatch h

theorem reads_eq_nil_of_same {B B' : Builder} (h : B'.fn = B.fn) : reads B B' = [] := by
  refine List.filter_eq_nil_iff.mpr fun i hi => ?_
  have hnot : ¬ B.fn.next ≤ i := Nat.not_le.mpr (h ▸ List.mem_range.mp hi)
  simp [hnot]

/-- A variable is read unless its address is asked for. -/
theorem finishVar_reads {B B' : Builder} {ptr : Value} (h : B.finishVar ptr = .ok B') :
    reads B B' = [] ↔ B.addressOnly = true := by
  unfold finishVar at h
  split_ifs at h with hb
  · cases h
    exact iff_of_true (reads_eq_nil_of_same rfl) hb
  · obtain ⟨t, -, rfl⟩ := createLoad_ok h
    have hload : B.fn.next ∈ reads B (B.create .load t [ptr] .EQ) :=
      mem_reads.mpr ⟨by simp, by simp [isRead]⟩
    exact iff_of_false (List.ne_nil_of_mem hload) hb

/-- The branch of a check is among what is read. -/
theorem checkIndex_reads {B B' : Builder} {offset : Value} (h : B.checkIndex offset = .ok B') :
    B.fn.next + 1 ∈ reads B B' := by
  obtain ⟨name, ret, rfl⟩ := callExcept_ok h
  refine mem_reads.mpr ⟨⟨Nat.le_succ _, ?_⟩, ?_⟩
  · simp [compareIndex_next]
  · simp [compareIndex_instr, compareIndex_next, isRead]

/-- Steps in front and behind read no less. -/
theorem reads_mono {B B₁ B₂ B' : Builder} {i : InstrId} (h : Extends B.fn B₁.fn)
    (h' : Extends B₂.fn B'.fn) (hi : i ∈ reads B₁ B₂) : i ∈ reads B B' := by
  obtain ⟨⟨hlow, hhigh⟩, hread⟩ := mem_reads.mp hi
  refine mem_reads.mpr ⟨⟨Nat.le_trans h.next hlow, Nat.lt_of_lt_of_le hhigh h'.next⟩, ?_⟩
  rw [h'.instr i hhigh]
  exact hread

/-- A subscript is checked. -/
theorem subscript_reads {B B' : Builder} {ptr : Option Value} (h : B.subscript ptr = .ok B')
    (hw : Wf B) : reads B B' ≠ [] := by
  obtain ⟨B₁, h₁, h⟩ := bind_ok.mp h
  obtain ⟨B₂, h₂, h⟩ := bind_ok.mp h
  obtain ⟨B₃, h₃, h₄⟩ := bind_ok.mp h
  obtain ⟨hw₁, hx₁⟩ := convert_grows h₁ hw
  obtain ⟨hw₂, hx₂⟩ := checkIndex_grows h₂ hw₁
  obtain ⟨hw₃, hx₃⟩ := elementAddress_grows h₃ hw₂
  have hx₄ := (finishVar_grows h₄ hw₃).2
  exact List.ne_nil_of_mem (reads_mono hx₁ (hx₃.trans hx₄) (checkIndex_reads h₂))

/-- An expression that is compiled has an event if it looks as if it had one. -/
theorem events_eq_nil {k : Kind} (a : Ast k) :
    k.isValue = true → ∀ B B', visit a B = .ok B' → Wf B →
      (events true a B = [] ↔ a.hasEvent B.addressOnly = false) := by
  induction a with
  | intNum | floatNum => simp [events, Ast.hasEvent]
  | ident id =>
    intro _ B B' h _
    rw [events, after_ok h]
    unfold visit at h
    split at h
    · cases h
    · simp [readEvents, finishVar_reads h, Ast.hasEvent]
  | group e ih | var v ih | simple l ih | term t ih | factor f ih => exact fun _ => ih rfl
  | relation l op r ihl ihr | additive l op r ihl ihr | multiplicative l op r ihl ihr =>
    intro _ B B' h hw
    obtain ⟨B₁, h₁, h⟩ := bind_ok.mp h
    obtain ⟨B₂, h₂, h₃⟩ := bind_ok.mp h
    have hw₁ := (visit_grows l B B₁ h₁ hw).1
    rw [events, after_ok h₁, List.append_eq_nil_iff, ihl rfl B B₁ h₁ hw, ihr rfl B₁ B₂ h₂ hw₁,
      visit_addressAfter l rfl B B₁ h₁, Ast.hasEvent, Bool.or_eq_false_iff]
  | element id e ih =>
    intro _ B B' h hw
    have hafter := after_ok h
    obtain ⟨B₁, h₁, h₂⟩ := bind_ok.mp h
    have hw₁ := (visit_grows e _ B₁ h₁ (setAddressOnly_grows B false hw).1).1
    have hreads := subscript_reads h₂ (setAddressOnly_grows B₁ _ hw₁).1
    rw [events, hafter, after_ok h₁]
    refine iff_of_false (fun hnil => hreads ?_) (by simp [Ast.hasEvent])
    exact List.map_eq_nil_iff.mp (List.append_eq_nil_iff.mp hnil).2
  | assign v e ihv ihe => simp [events, Ast.hasEvent]
  | call id args ih =>
    intro _ B B' h _
    obtain ⟨⟨n, t⟩, hcallee, h⟩ := bind_ok.mp h
    simp [events, hcallee, Ast.hasEvent]
  | _ => exact fun h => nomatch h

/-! ## When the order of the document is that of the instructions -/

/-- Two events in order, if their order counts. -/
def Event.InOrder (s t : Event) : Prop := (s.effect || t.effect) = true → s.id < t.id

/-- The events of one part are in front of those of the next. -/
theorem pairwise_append {l r : List Event} (h : ∀ s ∈ l, ∀ t ∈ r, s.id < t.id) :
    (l ++ r).Pairwise Event.InOrder ↔
      l.Pairwise Event.InOrder ∧ r.Pairwise Event.InOrder := by
  rw [List.pairwise_append]
  exact ⟨fun hall => ⟨hall.1, hall.2.1⟩, fun hall => ⟨hall.1, hall.2, fun s hs t ht _ => h s hs t ht⟩⟩

/-- No event of `l` or `r` is an effect unless the other list is empty. -/
theorem no_effects_iff {l r : List Event} :
    (∀ s ∈ l, ∀ t ∈ r, (s.effect || t.effect) = false) ↔
      ¬ ((∃ s ∈ l, s.effect = true) ∧ r ≠ []) ∧ ¬ (l ≠ [] ∧ ∃ t ∈ r, t.effect = true) := by
  constructor
  · intro h
    refine ⟨fun ⟨⟨s, hs, heff⟩, hr⟩ => ?_, fun ⟨hl, t, ht, heff⟩ => ?_⟩
    · obtain ⟨t, ht⟩ := List.exists_mem_of_ne_nil r hr
      simpa [heff] using h s hs t ht
    · obtain ⟨s, hs⟩ := List.exists_mem_of_ne_nil l hl
      simpa [heff] using h s hs t ht
  · intro ⟨hl, hr⟩ s hs t ht
    rw [Bool.or_eq_false_iff, ← Bool.not_eq_true, ← Bool.not_eq_true]
    exact ⟨fun heff => hl ⟨⟨s, hs, heff⟩, List.ne_nil_of_mem ht⟩,
      fun heff => hr ⟨List.ne_nil_of_mem hs, t, ht, heff⟩⟩

/-- Two parts in the wrong order: none of the pairs may count. -/
theorem pairwise_swap {l r : List Event} (h : ∀ s ∈ l, ∀ t ∈ r, t.id < s.id) :
    (l ++ r).Pairwise Event.InOrder ↔
      (∀ s ∈ l, ∀ t ∈ r, (s.effect || t.effect) = false) ∧
        l.Pairwise Event.InOrder ∧ r.Pairwise Event.InOrder := by
  rw [List.pairwise_append]
  constructor
  · intro ⟨hl, hr, hcross⟩
    refine ⟨fun s hs t ht => Bool.eq_false_iff.mpr fun hcounts => ?_, hl, hr⟩
    exact Nat.lt_asymm (h s hs t ht) (hcross s hs t ht hcounts)
  · intro ⟨hnone, hl, hr⟩
    refine ⟨hl, hr, fun s hs t ht hcounts => ?_⟩
    rw [hnone s hs t ht] at hcounts
    cases hcounts

theorem readEvents_inOrder (B B' : Builder) : (readEvents B B').Pairwise Event.InOrder := by
  have hpair : ∀ {i j : InstrId}, i < j → Event.InOrder ⟨i, false⟩ ⟨j, false⟩ :=
    fun hlt _ => hlt
  exact List.pairwise_map.mpr ((reads_sorted B B').imp hpair)

/-- A single event behind others. -/
theorem pairwise_concat {l : List Event} {t : Event} (h : ∀ s ∈ l, s.id < t.id) :
    (l ++ [t]).Pairwise Event.InOrder ↔ l.Pairwise Event.InOrder := by
  rw [pairwise_append fun s hs t' ht' => List.mem_singleton.mp ht' ▸ h s hs]
  exact and_iff_left (List.pairwise_singleton _ _)

/-- The effect at the end of a step is behind everything in front of the step. -/
theorem lastEffect_le {B B' : Builder} (h : Does B B' [B'.fn.next - 1]) (hw : Wf B) :
    B.fn.next ≤ (lastEffect B').id := by
  obtain ⟨-, ids, gs, hemits, hsub⟩ := h hw
  exact hemits.low _ (List.mem_append_left _ (hsub.subset List.mem_cons_self))

/-- The subscript and the right-hand side of an assignment, in the order of the document. -/
theorem assign_inOrder {v : Ast .var} {e : Ast .expression} {B B₁ B₂ : Builder}
    (h₁ : visit e B = .ok B₁) (h₂ : visit v (B₁.setAddressOnly true) = .ok B₂) (hw : Wf B) :
    (events true v (B₁.setAddressOnly true) ++ events true e B).Pairwise Event.InOrder ↔
      Ast.conflict v e B.addressOnly = false ∧
        (events true v (B₁.setAddressOnly true)).Pairwise Event.InOrder ∧
        (events true e B).Pairwise Event.InOrder := by
  have hw₁ := (setAddressOnly_grows B₁ true (visit_grows e B B₁ h₁ hw).1).1
  have hlt : ∀ s ∈ events true v (B₁.setAddressOnly true), ∀ t ∈ events true e B, t.id < s.id :=
    fun s hs t ht => Nat.lt_of_lt_of_le (events_between rfl h₁ hw ht).2
      (events_between rfl h₂ hw₁ hs).1
  rw [pairwise_swap hlt, no_effects_iff, events_effect v rfl _ B₂ h₂, events_effect e rfl B B₁ h₁,
    Ne, Ne, events_eq_nil v rfl _ B₂ h₂ hw₁, events_eq_nil e rfl B B₁ h₁ hw, Ast.conflict,
    Bool.or_eq_false_iff, Bool.and_eq_false_iff, Bool.and_eq_false_iff]
  refine and_congr_left' (and_congr ?_ ?_)
  · cases v.hasEffect <;> simp
  · cases e.hasEffect <;> simp [Builder.setAddressOnly]

/-- **When the events of an expression in the order of the document are in the order of the
instructions.** -/
theorem events_inOrder_iff {k : Kind} (a : Ast k) :
    (k.isValue = true ∨ k = .args) → ∀ B B', visit a B = .ok B' → Ready B →
      ((events true a B).Pairwise Event.InOrder ↔
        a.ordered B B.addressOnly (B.frame.params.drop B.frame.args.length) = true) := by
  induction a with
  | intNum | floatNum | noArgs => simp [events, Ast.ordered]
  | ident id => exact fun _ B B' _ _ => iff_of_true (readEvents_inOrder _ _) rfl
  | group e ih | var v ih | simple l ih | term t ih | factor f ih =>
    intro _ B B' h hr
    have hinner := ih (.inl rfl) B B' h hr
    rw [ordered_params rfl] at hinner
    exact hinner
  | relation l op r ihl ihr | additive l op r ihl ihr | multiplicative l op r ihl ihr =>
    intro _ B B' h hr
    obtain ⟨B₁, h₁, h⟩ := bind_ok.mp h
    obtain ⟨B₂, h₂, h₃⟩ := bind_ok.mp h
    have hs := visit_step rfl h₁ hr
    have hl := ihl (.inl rfl) B B₁ h₁ hr
    have hr' := ihr (.inl rfl) B₁ B₂ h₂ hs.ready
    rw [ordered_params rfl] at hl hr'
    rw [(hs.sees hr).ordered, visit_addressAfter l rfl B B₁ h₁] at hr'
    have hlt : ∀ s ∈ events true l B, ∀ t ∈ events true r B₁, s.id < t.id := fun s hs' t ht =>
      Nat.lt_of_lt_of_le (events_between rfl h₁ hr.wf hs').2
        (events_between rfl h₂ hs.ready.wf ht).1
    rw [events, after_ok h₁, pairwise_append hlt, hl, hr', Ast.ordered, Bool.and_eq_true]
  | element id e ih =>
    intro _ B B' h hr
    have hafter := after_ok h
    obtain ⟨B₁, h₁, h₂⟩ := bind_ok.mp h
    have hs := setAddressOnly_step hr false
    have he := ih (.inl rfl) _ B₁ h₁ hs.ready
    rw [ordered_params rfl, (hs.sees hr).ordered] at he
    have hlt : ∀ s ∈ events true e (B.setAddressOnly false), ∀ t ∈ readEvents B₁ B',
        s.id < t.id := by
      intro s hs' t ht
      obtain ⟨i, hi, rfl⟩ := List.mem_map.mp ht
      exact Nat.lt_of_lt_of_le (events_between rfl h₁ hs.ready.wf hs').2 (mem_reads.mp hi).1.1
    rw [events, hafter, after_ok h₁, pairwise_append hlt, he]
    exact and_iff_left (readEvents_inOrder _ _)
  | assign v e ihv ihe =>
    intro _ B B' h hr
    have hafter := after_ok h
    obtain ⟨B₁, h₁, h⟩ := bind_ok.mp h
    obtain ⟨B₂, h₂, h₃⟩ := bind_ok.mp h
    have hs₁ := visit_step rfl h₁ hr
    have hs := setAddressOnly_step hs₁.ready true
    have hs₂ := visit_step rfl h₂ hs.ready
    have hsource := ihe (.inl rfl) B B₁ h₁ hr
    have htarget := ihv (.inl rfl) _ B₂ h₂ hs.ready
    rw [ordered_params rfl] at hsource htarget
    rw [(hs.sees hs₁.ready).ordered, (hs₁.sees hr).ordered] at htarget
    have hbelow : ∀ s ∈ events true v (B₁.setAddressOnly true) ++ events true e B,
        s.id < (lastEffect B').id := by
      intro s hs'
      have hlast := lastEffect_le (assignTo_does h₃) hs₂.ready.wf
      rcases List.mem_append.mp hs' with hs' | hs'
      · exact Nat.lt_of_lt_of_le (events_between rfl h₂ hs.ready.wf hs').2 hlast
      · exact Nat.lt_of_lt_of_le (events_between rfl h₁ hr.wf hs').2
          (Nat.le_trans hs₂.ext.next hlast)
    rw [events, hafter, after_ok h₁, if_pos rfl, pairwise_concat hbelow,
      assign_inOrder h₁ h₂ hr.wf, hsource, htarget, Ast.ordered, Bool.and_eq_true, Bool.and_eq_true,
      Bool.not_eq_true']
    exact .rfl
  | call id args ih =>
    intro _ B B' h hr
    have hafter := after_ok h
    obtain ⟨⟨n, t⟩, hcallee, h⟩ := bind_ok.mp h
    obtain ⟨B₁, h₁, h⟩ := bind_ok.mp h
    obtain ⟨B₂, h₂, h⟩ := bind_ok.mp h
    have hframe := setFrame_ready hr hcallee
    have hargs := ih (.inr rfl) _ B₁ h₁ hframe
    rw [(setFrame_sees B ⟨t.params, []⟩).ordered] at hargs
    have hbelow : ∀ s ∈ events true args (B.setFrame ⟨t.params, []⟩), s.id < (lastEffect B').id := by
      intro s hs'
      have hlast := lastEffect_le (createCall_does h₂) (visit_grows args _ B₁ h₁ hframe.wf).1
      cases h
      exact Nat.lt_of_lt_of_le (events_between rfl h₁ hframe.wf hs').2 hlast
    rw [events, hafter, hcallee]
    dsimp only
    rw [pairwise_concat hbelow, hargs, Ast.ordered, hcallee]
    rfl
  | arg e rest ihe ihrest =>
    intro _ B B' h hr
    obtain ⟨t, ht, h⟩ := bind_ok.mp h
    obtain ⟨B₁, h₁, h⟩ := bind_ok.mp h
    obtain ⟨B₂, h₂, h₃⟩ := bind_ok.mp h
    obtain ⟨ts, hparams⟩ := nextParam_ok ht
    have hdeclared : t.isDeclared = true := by
      refine hr.declared.params t (List.mem_of_mem_drop (i := B.frame.args.length) ?_)
      rw [hparams]
      exact List.mem_cons_self
    have hs := setAddressOnly_step hr t.isPointer
    have hs₁ := hs.trans (visit_step rfl h₁ hs.ready)
    have hval := (visit_type e rfl _ B₁ h₁ hs.ready).1
    obtain ⟨hr₂, hx₂, hk₂, v, hframe⟩ := pushArg_ready hs₁.ready h₂ hval hdeclared
    have hsees : Sees B B₂ := by
      refine ⟨hk₂.scope.trans hs₁.keeps.scope, hk₂.types.trans hs₁.keeps.types, fun id w hw => ?_⟩
      have hknown := (hr.declared.find hw).known
      rw [(hknown.mono hs₁.ext).typeOf hx₂ hk₂.globals, hs₁.typeOf hknown]
    have he := ihe (.inl rfl) _ B₁ h₁ hs.ready
    have hrest := ihrest (.inr rfl) B₂ B' h₃ hr₂
    have hparams₂ : B₂.frame.params.drop B₂.frame.args.length = ts := by
      rw [hframe, hs₁.keeps.frame, List.length_append, ← List.drop_drop, hparams]
      rfl
    rw [ordered_params rfl, (hs.sees hr).ordered] at he
    rw [hparams₂, hsees.ordered, (pushArg_flags h₂).2] at hrest
    have hreads : ∀ s ∈ readEvents B₁ B₂, B₁.fn.next ≤ s.id ∧ s.id < B₂.fn.next := by
      intro s hs'
      obtain ⟨i, hi, rfl⟩ := List.mem_map.mp hs'
      exact (mem_reads.mp hi).1
    have hbehind : ∀ s ∈ events true e (B.setAddressOnly t.isPointer), ∀ t ∈ readEvents B₁ B₂,
        s.id < t.id := fun s hs' t' ht' =>
      Nat.lt_of_lt_of_le (events_between rfl h₁ hs.ready.wf hs').2 (hreads t' ht').1
    have hnext : ∀ s ∈ events true e (B.setAddressOnly t.isPointer) ++ readEvents B₁ B₂,
        ∀ t ∈ events true rest B₂, s.id < t.id := by
      intro s hs' t' ht'
      have hlow := (events_between rfl h₃ hr₂.wf ht').1
      rcases List.mem_append.mp hs' with hs' | hs'
      · exact Nat.lt_of_lt_of_le (events_between rfl h₁ hs.ready.wf hs').2
          (Nat.le_trans hx₂.next hlow)
      · exact Nat.lt_of_lt_of_le (hreads s hs').2 hlow
    rw [events, ht]
    dsimp only
    rw [after_ok h₁, h₂]
    dsimp only
    rw [pairwise_append hnext, pairwise_append hbehind, he, hrest, hparams, Ast.ordered,
      Bool.and_eq_true]
    exact and_congr_left' (and_iff_left (readEvents_inOrder _ _))
  | compoundStmt | emptyStmt | expressionStmt | selectionStmt | selectionElseStmt | iterationStmt
  | returnVoidStmt | returnStmt | noStmts | stmt => exact fun h => by rcases h with h | h <;> cases h

/-! ## Executions -/

/-- Every execution from `p` to `q` performs the events in this order, as far as it counts: any
choice of events of which each two have an effect among them is performed in this order. -/
def PerformsEvents (f : Func) (p q : Point) (l : List Event) : Prop :=
  ∀ l' : List Event, l'.Sublist l → l'.Pairwise (fun s t => (s.effect || t.effect) = true) →
    PerformsInOrder f p q (l'.map Event.id)

/-- **The events are performed in the order of the document exactly when this is the order of the
instructions.** -/
theorem performsEvents_iff {e : Ast .expression} {B B' : Builder} {F : Func}
    (h : visit e B = .ok B') (hw : Wf B) (hF : Extends B'.fn F) :
    PerformsEvents F (here B) (here B') (events true e B) ↔
      (events true e B).Pairwise Event.InOrder := by
  have hdoes := visit_does e rfl B B' h
  have hmem : ∀ {l' : List Event}, l'.Sublist (events true e B) →
      ∀ i ∈ l'.map Event.id, i ∈ (events false e B).map Event.id := by
    intro l' hsub i hi
    obtain ⟨s, hs, rfl⟩ := List.mem_map.mp hi
    exact List.mem_map_of_mem ((events_perm e B).mem_iff.mp (hsub.subset hs))
  constructor
  · intro hall
    refine List.pairwise_iff_forall_sublist.mpr fun {s t} hsub hcounts => ?_
    have hpair := hdoes.sorted hw hF (hmem hsub)
      (hall [s, t] hsub (List.pairwise_pair.mpr hcounts))
    exact List.pairwise_pair.mp hpair
  · intro hsorted l' hsub hcounts
    have hids : (l'.map Event.id).Pairwise (· < ·) :=
      List.pairwise_map.mpr ((hsorted.sublist hsub).imp₂ (fun s t h hc => h hc) hcounts)
    refine Does.performs ?_ hw hF
    intro hw'
    obtain ⟨hw'', ids, gs, hemits, hids'⟩ := hdoes hw'
    exact ⟨hw'', ids, gs, hemits, sublist_of_subset hids hemits.sorted
      fun i hi => hids'.subset (hmem hsub i hi)⟩

/-- **Every execution performs the effects of an expression in the order of the document, among each
other and with everything that is read, exactly when in no assignment the order of the subscript
and the right-hand side counts.** -/
theorem performs_iff {e : Ast .expression} {B B' : Builder} {F : Func}
    (h : visit e B = .ok B') (hr : Ready B) (hF : Extends B'.fn F) :
    PerformsEvents F (here B) (here B') (events true e B) ↔
      e.ordered B B.addressOnly [] = true := by
  rw [performsEvents_iff h hr.wf hF, events_inOrder_iff e (.inl rfl) B B' h hr, ordered_params rfl]

/-- `int main(void) { int a[10]; int i; ... }`. -/
def arrayAndIndex : List VarDeclaration := [⟨.int, "a", some 10⟩, ⟨.int, "i", none⟩]

/-- A factor as an expression. -/
def ofFactor (f : Ast .factor) : Ast .expression := .simple (.term (.factor f))

/-- `i`. -/
def readIndex : Ast .factor := .var (.ident "i")

/-- `input()`. -/
def readInput : Ast .expression := ofFactor (.call "input" .noArgs)

/-- `a[e] = e'`. -/
def setElement (e e' : Ast .expression) : Ast .expression := .assign (.element "a" e) e'

/-- `a[a[i] = i + 1] = 3`. -/
def nestedAssign : Ast .expression :=
  setElement
    (setElement (ofFactor readIndex)
      (.simple (.additive (.term (.factor readIndex)) .plus (.factor (.intNum 1)))))
    (ofFactor (.intNum 3))

theorem performs_iff_nested :
    ∃ B B', openMain arrayAndIndex = .ok B ∧ visit nestedAssign B = .ok B' ∧
      PerformsEvents B'.fn (here B) (here B') (events true nestedAssign B) :=
  ⟨_, _, rfl, rfl, (performs_iff rfl (@openMain_ready arrayAndIndex _ rfl)
    (Extends.refl _)).mpr rfl⟩

/-- The code of an expression in `main` performs the events in another order. -/
def Swapped (e : Ast .expression) : Prop :=
  ∃ B B', openMain arrayAndIndex = .ok B ∧ visit e B = .ok B' ∧
    ¬ PerformsEvents B'.fn (here B) (here B') (events true e B)

theorem swapped_of {e : Ast .expression} {B B' : Builder} (hB : openMain arrayAndIndex = .ok B)
    (h : visit e B = .ok B') (hswap : e.ordered B B.addressOnly [] = false) : Swapped e := by
  have hr := openMain_ready hB
  refine ⟨B, B', hB, h, ?_⟩
  rw [performsEvents_iff h hr.wf (Extends.refl _), events_inOrder_iff e (.inl rfl) B B' h hr,
    ordered_params rfl, hswap]
  exact Bool.false_ne_true

/-- The right-hand sides come first: `a[input()] = input()`, `a[i] = input()`, `a[i] = (i = 2)` and
`a[i = 1] = i`. -/
theorem assignments_swapped :
    Swapped (setElement readInput readInput) ∧
    Swapped (setElement (ofFactor readIndex) readInput) ∧
    Swapped (setElement (ofFactor readIndex)
      (ofFactor (.group (.assign (.ident "i") (ofFactor (.intNum 2)))))) ∧
    Swapped (setElement (.assign (.ident "i") (ofFactor (.intNum 1))) (ofFactor readIndex)) :=
  ⟨swapped_of rfl rfl rfl, swapped_of rfl rfl rfl, swapped_of rfl rfl rfl, swapped_of rfl rfl rfl⟩

end Cminusfc.Frontend
