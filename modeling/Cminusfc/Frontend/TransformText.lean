import Cminusfc.Frontend.TransformCorrect
import Cminusfc.Frontend.NodeNames

/-!
# The abstract syntax tree has the text of the syntax tree

Results:
* `transformed_*`: each branch, where the recursive calls do what they should.
* `collapse_spec`: only the parentheses around a single number are lost.
* **`transform_works`**: every node is transformed to an abstract syntax tree with its text.
* **`transform_text`**: so is a program.

About `src/common/ast.cpp` 33-529. Out of scope: leaves of thirty characters and more, which
`NodeNames` shows to be cut.
-/

namespace Cminusfc.Frontend

open LightIR
open Fallible (ok_bind)

variable {e : Nonterminal} {c : Node} {cs : List Node}

/-! ## Branches -/

/-- What `rec` makes of a node: it succeeds, with the text of the node. -/
def Transformed (rec : Node → Except Fault AstNode) (n : Node) : Nonterminal → Prop
  | .program => ∃ ds, rec n = .ok (.program ds) ∧ programText ds = n.text
  | .declaration | .funDeclaration => ∃ d, rec n = .ok (.declaration d) ∧ d.text = n.text
  | .varDeclaration => ∃ d, rec n = .ok (.declaration (.var d)) ∧ d.text = n.text
  | .param => ∃ p, rec n = .ok (.param p) ∧ p.text = n.text
  | .compoundStmt =>
    ∃ ds ss, rec n = .ok (.ast (.compoundStmt ds ss)) ∧ (Ast.compoundStmt ds ss).text = n.text
  | .statement | .expressionStmt | .selectionStmt | .iterationStmt | .returnStmt =>
    ∃ s : Ast .statement, rec n = .ok (.ast s) ∧ s.text = n.text
  | .expression | .simpleExpression =>
    ∃ e : Ast .expression, rec n = .ok (.ast e) ∧ e.text = n.text
  | .var => ∃ v : Ast .var, rec n = .ok (.ast v) ∧ v.text = n.text
  | .additiveExpression => ∃ l : Ast .additive, rec n = .ok (.ast l) ∧ l.text = n.text
  | .term => ∃ t : Ast .term, rec n = .ok (.ast t) ∧ t.text = n.text
  | .factor => ∃ a f, rec n = .ok a ∧ a.toFactor = .ok f ∧ f.text = n.text
  | .call => ∃ f : Ast .factor, rec n = .ok (.ast f) ∧ f.text = n.text
  | _ => True

/-- `rec` transforms what stands below `n`. -/
def Handles (rec : Node → Except Fault AstNode) (n : Node) : Prop :=
  ∀ c, Node.Sub c n → c.size < n.size → ∀ m, Derives (.n m) c → Transformed rec c m

section Branches

attribute [local simp] Ast.text

variable {rec : Node → Except Fault AstNode} {m : Nonterminal} {n : Node}

theorem Handles.child {name : String} (h : Handles rec (.mk name cs)) (hmem : c ∈ cs)
    (hc : Derives (.n m) c) : Transformed rec c m :=
  h c (.child hmem .refl) (Node.size_lt hmem) m hc

theorem statementsOf_text (ss : List (Ast .statement)) :
    (statementsOf ss).text = ss.flatMap Ast.text := by
  induction ss with
  | nil => rfl
  | cons s ss ih => rw [statementsOf, Ast.text, ih, List.flatMap_cons]

theorem argsOf_text (es : List (Ast .expression)) :
    (argsOf es).text = commaText (es.map Ast.text) := by
  induction es with
  | nil => rfl
  | cons e es ih =>
    cases es with
    | nil => rfl
    | cons e' es =>
      show e.text ++ Lexeme.word "," :: (argsOf (e' :: es)).text = _
      rw [ih]
      rfl

/-- The loop over the elements of a list. -/
theorem mapM_spec {α : Type} {f : Node → Except Fault α} {text : α → List Lexeme} {xs : List Node}
    (h : ∀ x ∈ xs, ∃ a, f x = .ok a ∧ text a = x.text) :
    ∃ as, xs.mapM f = .ok as ∧ as.map text = xs.map Node.text := by
  induction xs with
  | nil => exact ⟨[], rfl, rfl⟩
  | cons x xs ih =>
    obtain ⟨⟨a, ha, hta⟩, hxs⟩ := List.forall_mem_cons.mp h
    obtain ⟨as, has, htas⟩ := ih hxs
    refine ⟨a :: as, ?_, by rw [List.map_cons, List.map_cons, hta, htas]⟩
    rw [List.mapM_cons, ha, ok_bind, has, ok_bind]
    rfl

/-- The elements of a list that stands below `n`. -/
theorem Elements.mapM {α : Type} {name : String} {xs : List Node} (hel : Elements e c xs)
    (hrec : Handles rec (.mk name cs)) (hmem : c ∈ cs) (cast : AstNode → Except Fault α)
    (text : α → List Lexeme) (hcast : ∀ x, Transformed rec x e →
      ∃ a, (do let a ← rec x; cast a) = .ok a ∧ text a = x.text) :
    ∃ as, (xs.mapM fun x => do let a ← rec x; cast a) = .ok as ∧
      as.map text = xs.map Node.text := by
  have hall : Elements e (.mk name cs) xs := hel.child hmem
  exact mapM_spec fun x hx => hcast x (hrec x (hall.sub x hx) (hall.size x hx) e (hall.derives x hx))

theorem transformed_program (hrec : Handles rec n) (h : Derives (.n .program) n) :
    Transformed (transformBranch rec) n .program := by
  obtain ⟨rhs, hrhs, cs, hcs, rfl⟩ := derives_rule h
  obtain rfl := List.mem_singleton.mp hrhs
  obtain _ | ⟨h₁, ⟨⟩⟩ := hcs
  obtain ⟨xs, hun, hel, htext⟩ := declarations_spec h₁
  obtain ⟨ds, hds, htds⟩ := hel.mapM hrec (by simp) AstNode.toDeclaration Declaration.text
    fun x hx => by
      obtain ⟨d, hd, htd⟩ := hx
      exact ⟨d, by rw [hd]; rfl, htd⟩
  refine ⟨ds, ?_, ?_⟩
  · show transformProgram rec (.mk _ [_]) = _
    simp [transformProgram, hun, hds]
  · rw [Node.text_rule (by simp) (by decide), programText, List.flatMap_def, htds]
    simp [htext, List.flatMap_def]

theorem transformed_declaration (hrec : Handles rec n) (h : Derives (.n .declaration) n) :
    Transformed (transformBranch rec) n .declaration := by
  obtain ⟨rhs, hrhs, cs, hcs, rfl⟩ := derives_rule h
  simp only [productions, List.mem_cons, List.not_mem_nil, or_false] at hrhs
  rcases hrhs with rfl | rfl
  · obtain _ | ⟨h₁, ⟨⟩⟩ := hcs
    obtain ⟨d, hd, htd⟩ := Handles.child (m := .varDeclaration) hrec (by simp) h₁
    refine ⟨.var d, hd, ?_⟩
    rw [Node.text_rule (by simp) (by decide)]
    simpa [Declaration.text] using htd
  · obtain _ | ⟨h₁, ⟨⟩⟩ := hcs
    obtain ⟨d, hd, htd⟩ := Handles.child (m := .funDeclaration) hrec (by simp) h₁
    refine ⟨d, hd, ?_⟩
    rw [Node.text_rule (by simp) (by decide)]
    simpa using htd

theorem transformed_varDeclaration (hfits : Fits n) (h : Derives (.n .varDeclaration) n) :
    Transformed (transformBranch rec) n .varDeclaration := by
  obtain ⟨rhs, hrhs, cs, hcs, rfl⟩ := derives_rule h
  simp only [productions, List.mem_cons, List.not_mem_nil, or_false] at hrhs
  rcases hrhs with rfl | rfl
  · obtain _ | ⟨h₁, _ | ⟨h₂, _ | ⟨h₃, ⟨⟩⟩⟩⟩ := hcs
    obtain ⟨o, rfl, hto, hvoid⟩ := derives_typeSpecifier h₁
    obtain ⟨s, rfl, hts⟩ := derives_id h₂
    have hsemi := derives_word h₃ (by decide)
    have hne := hfits.declared _ _ _ .refl (.inl rfl) o (List.mem_singleton_self o)
    refine ⟨⟨variableTypeOf o.name, s, none⟩, rfl, ?_⟩
    rw [Node.text_rule (by simp) (by decide)]
    simp [VarDeclaration.text, hvoid hne, hto, hts, hsemi, Token.word]
  · obtain _ | ⟨h₁, _ | ⟨h₂, _ | ⟨h₃, _ | ⟨h₄, _ | ⟨h₅, _ | ⟨h₆, ⟨⟩⟩⟩⟩⟩⟩⟩ := hcs
    obtain ⟨o, rfl, hto, hvoid⟩ := derives_typeSpecifier h₁
    obtain ⟨s, rfl, hts⟩ := derives_id h₂
    have hopen := derives_word h₃ (by decide)
    obtain ⟨num, hnum, rfl⟩ := derives_token h₄
    have hclose := derives_word h₅ (by decide)
    have hsemi := derives_word h₆ (by decide)
    have hne := hfits.declared _ _ _ .refl (.inl rfl) o (List.mem_singleton_self o)
    have hstoi := stoi_integer hnum (hfits.integers num (.child (by simp) .refl) hnum)
    refine ⟨⟨variableTypeOf o.name, s, some (decimal num.toList)⟩, ?_, ?_⟩
    · show transformVarDeclaration (.mk _ [_, _, _, _, _, _]) = _
      simp [transformVarDeclaration, hstoi]
    · rw [Node.text_rule (by simp) (by decide)]
      simp [VarDeclaration.text, hvoid hne, hto, hts, hopen, hclose, hsemi, Token.word,
        Node.text_leaf num, lexeme_integer hnum]

theorem transformed_param (hfits : Fits n) (h : Derives (.n .param) n) :
    Transformed (transformBranch rec) n .param := by
  obtain ⟨rhs, hrhs, cs, hcs, rfl⟩ := derives_rule h
  simp only [productions, List.mem_cons, List.not_mem_nil, or_false] at hrhs
  rcases hrhs with rfl | rfl
  · obtain _ | ⟨h₁, _ | ⟨h₂, ⟨⟩⟩⟩ := hcs
    obtain ⟨o, rfl, hto, hvoid⟩ := derives_typeSpecifier h₁
    obtain ⟨s, rfl, hts⟩ := derives_id h₂
    have hne := hfits.declared _ _ _ .refl (.inr rfl) o (List.mem_singleton_self o)
    refine ⟨⟨variableTypeOf o.name, s, false⟩, rfl, ?_⟩
    rw [Node.text_rule (by simp) (by decide)]
    simp [Param.text, hvoid hne, hto, hts]
  · obtain _ | ⟨h₁, _ | ⟨h₂, _ | ⟨h₃, _ | ⟨h₄, ⟨⟩⟩⟩⟩⟩ := hcs
    obtain ⟨o, rfl, hto, hvoid⟩ := derives_typeSpecifier h₁
    obtain ⟨s, rfl, hts⟩ := derives_id h₂
    have hopen := derives_word h₃ (by decide)
    have hclose := derives_word h₄ (by decide)
    have hne := hfits.declared _ _ _ .refl (.inr rfl) o (List.mem_singleton_self o)
    refine ⟨⟨variableTypeOf o.name, s, true⟩, rfl, ?_⟩
    rw [Node.text_rule (by simp) (by decide)]
    simp [Param.text, hvoid hne, hto, hts, hopen, hclose, Token.word]

theorem transformed_funDeclaration (hrec : Handles rec n) (h : Derives (.n .funDeclaration) n) :
    Transformed (transformBranch rec) n .funDeclaration := by
  obtain ⟨rhs, hrhs, cs, hcs, rfl⟩ := derives_rule h
  obtain rfl := List.mem_singleton.mp hrhs
  obtain _ | ⟨h₁, _ | ⟨h₂, _ | ⟨h₃, _ | ⟨h₄, _ | ⟨h₅, _ | ⟨h₆, ⟨⟩⟩⟩⟩⟩⟩⟩ := hcs
  obtain ⟨o, rfl, hto, -⟩ := derives_typeSpecifier h₁
  obtain ⟨s, rfl, hts⟩ := derives_id h₂
  have hopen := derives_word h₃ (by decide)
  have hclose := derives_word h₅ (by decide)
  obtain ⟨list, xs, hlist, hxs, hel, htext⟩ := params_spec h₄
  obtain ⟨ds, ss, hbody, htbody⟩ := Handles.child (m := .compoundStmt) hrec (by simp) h₆
  obtain ⟨ps, hps, htps⟩ := hel.mapM hrec (by simp) AstNode.toParam Param.text
    fun x hx => by
      obtain ⟨p, hp, htp⟩ := hx
      exact ⟨p, by rw [hp]; rfl, htp⟩
  refine ⟨.fn ⟨functionTypeOf o.name, s, ps, ds, ss⟩, ?_, ?_⟩
  · show transformFunDeclaration rec (.mk _ [_, _, _, _, _, _]) = _
    simp [transformFunDeclaration, hlist, hxs, hps, hbody, AstNode.toCompoundStmt]
  · rw [Node.text_rule (by simp) (by decide)]
    simp [Declaration.text, FunDeclaration.text, hto, hts, hopen, hclose, htext, htps, ← htbody,
      Token.word]

theorem transformed_compoundStmt (hrec : Handles rec n) (h : Derives (.n .compoundStmt) n) :
    Transformed (transformBranch rec) n .compoundStmt := by
  obtain ⟨rhs, hrhs, cs, hcs, rfl⟩ := derives_rule h
  obtain rfl := List.mem_singleton.mp hrhs
  obtain _ | ⟨h₁, _ | ⟨h₂, _ | ⟨h₃, _ | ⟨h₄, ⟨⟩⟩⟩⟩⟩ := hcs
  have hopen := derives_word h₁ (by decide)
  have hclose := derives_word h₄ (by decide)
  obtain ⟨held, htextd⟩ := listNodes_spec (e := .varDeclaration) rfl (by decide) (.inl rfl) h₂
  obtain ⟨hels, htexts⟩ := listNodes_spec (e := .statement) rfl (by decide) (.inr rfl) h₃
  obtain ⟨ds, hds, htds⟩ := held.mapM hrec (by simp) AstNode.toVarDeclaration VarDeclaration.text
    fun x hx => by
      obtain ⟨d, hd, htd⟩ := hx
      exact ⟨d, by rw [hd]; rfl, htd⟩
  obtain ⟨ss, hss, htss⟩ := hels.mapM hrec (by simp) AstNode.toStatement Ast.text
    fun x hx => by
      obtain ⟨s, hs, hts⟩ := hx
      exact ⟨s, by rw [hs]; rfl, hts⟩
  refine ⟨ds, statementsOf ss, ?_, ?_⟩
  · show transformCompoundStmt rec (.mk _ [_, _, _, _]) = _
    simp [transformCompoundStmt, hds, hss]
  · rw [Node.text_rule (by simp) (by decide)]
    simp [hopen, hclose, htextd, htexts, statementsOf_text, List.flatMap_def, htds, htss,
      Token.word]

theorem transformed_statement (hrec : Handles rec n) (h : Derives (.n .statement) n) :
    Transformed (transformBranch rec) n .statement := by
  obtain ⟨rhs, hrhs, cs, hcs, rfl⟩ := derives_rule h
  simp only [productions, List.mem_cons, List.not_mem_nil, or_false] at hrhs
  suffices hchild : ∃ c m, cs = [c] ∧ Derives (.n m) c ∧
      ∃ s : Ast .statement, rec c = .ok (.ast s) ∧ s.text = c.text by
    obtain ⟨c, m, rfl, -, s, hs, hts⟩ := hchild
    refine ⟨s, hs, ?_⟩
    rw [Node.text_rule (by simp) (by decide)]
    simpa using hts
  rcases hrhs with rfl | rfl | rfl | rfl | rfl <;> obtain _ | ⟨h₁, ⟨⟩⟩ := hcs
  · exact ⟨_, _, rfl, h₁, Handles.child (m := .expressionStmt) hrec (by simp) h₁⟩
  · obtain ⟨ds, ss, hs⟩ := Handles.child (m := .compoundStmt) hrec (by simp) h₁
    exact ⟨_, _, rfl, h₁, _, hs⟩
  · exact ⟨_, _, rfl, h₁, Handles.child (m := .selectionStmt) hrec (by simp) h₁⟩
  · exact ⟨_, _, rfl, h₁, Handles.child (m := .iterationStmt) hrec (by simp) h₁⟩
  · exact ⟨_, _, rfl, h₁, Handles.child (m := .returnStmt) hrec (by simp) h₁⟩

theorem transformed_expressionStmt (hrec : Handles rec n) (h : Derives (.n .expressionStmt) n) :
    Transformed (transformBranch rec) n .expressionStmt := by
  obtain ⟨rhs, hrhs, cs, hcs, rfl⟩ := derives_rule h
  simp only [productions, List.mem_cons, List.not_mem_nil, or_false] at hrhs
  rcases hrhs with rfl | rfl
  · obtain _ | ⟨h₁, _ | ⟨h₂, ⟨⟩⟩⟩ := hcs
    have hsemi := derives_word h₂ (by decide)
    obtain ⟨e, he, hte⟩ := Handles.child (m := .expression) hrec (by simp) h₁
    refine ⟨.expressionStmt e, ?_, ?_⟩
    · show transformExpressionStmt rec (.mk _ [_, _]) = _
      simp [transformExpressionStmt, he, AstNode.toExpression]
    · rw [Node.text_rule (by simp) (by decide)]
      simp [hte, hsemi, Token.word]
  · obtain _ | ⟨h₁, ⟨⟩⟩ := hcs
    refine ⟨.emptyStmt, rfl, ?_⟩
    rw [Node.text_rule (by simp) (by decide)]
    simp [derives_word h₁ (by decide), Token.word]

theorem transformed_selectionStmt (hrec : Handles rec n) (h : Derives (.n .selectionStmt) n) :
    Transformed (transformBranch rec) n .selectionStmt := by
  obtain ⟨rhs, hrhs, cs, hcs, rfl⟩ := derives_rule h
  simp only [productions, List.mem_cons, List.not_mem_nil, or_false] at hrhs
  rcases hrhs with rfl | rfl
  · obtain _ | ⟨h₁, _ | ⟨h₂, _ | ⟨h₃, _ | ⟨h₄, _ | ⟨h₅, ⟨⟩⟩⟩⟩⟩⟩ := hcs
    have hif := derives_word h₁ (by decide)
    have hopen := derives_word h₂ (by decide)
    have hclose := derives_word h₄ (by decide)
    obtain ⟨e, he, hte⟩ := Handles.child (m := .expression) hrec (by simp) h₃
    obtain ⟨s, hs, hts⟩ := Handles.child (m := .statement) hrec (by simp) h₅
    refine ⟨.selectionStmt e s, ?_, ?_⟩
    · show transformSelectionStmt rec (.mk _ [_, _, _, _, _]) = _
      simp [transformSelectionStmt, he, hs, AstNode.toExpression, AstNode.toStatement]
    · rw [Node.text_rule (by simp) (by decide)]
      simp [hif, hopen, hclose, hte, hts, Token.word]
  · obtain _ | ⟨h₁, _ | ⟨h₂, _ | ⟨h₃, _ | ⟨h₄, _ | ⟨h₅, _ | ⟨h₆, _ | ⟨h₇, ⟨⟩⟩⟩⟩⟩⟩⟩⟩ := hcs
    have hif := derives_word h₁ (by decide)
    have hopen := derives_word h₂ (by decide)
    have hclose := derives_word h₄ (by decide)
    have helse := derives_word h₆ (by decide)
    obtain ⟨e, he, hte⟩ := Handles.child (m := .expression) hrec (by simp) h₃
    obtain ⟨s, hs, hts⟩ := Handles.child (m := .statement) hrec (by simp) h₅
    obtain ⟨t, ht, htt⟩ := Handles.child (m := .statement) hrec (by simp) h₇
    refine ⟨.selectionElseStmt e s t, ?_, ?_⟩
    · show transformSelectionStmt rec (.mk _ [_, _, _, _, _, _, _]) = _
      simp [transformSelectionStmt, he, hs, ht, AstNode.toExpression, AstNode.toStatement]
    · rw [Node.text_rule (by simp) (by decide)]
      simp [hif, hopen, hclose, helse, hte, hts, htt, Token.word]

theorem transformed_iterationStmt (hrec : Handles rec n) (h : Derives (.n .iterationStmt) n) :
    Transformed (transformBranch rec) n .iterationStmt := by
  obtain ⟨rhs, hrhs, cs, hcs, rfl⟩ := derives_rule h
  obtain rfl := List.mem_singleton.mp hrhs
  obtain _ | ⟨h₁, _ | ⟨h₂, _ | ⟨h₃, _ | ⟨h₄, _ | ⟨h₅, ⟨⟩⟩⟩⟩⟩⟩ := hcs
  have hwhile := derives_word h₁ (by decide)
  have hopen := derives_word h₂ (by decide)
  have hclose := derives_word h₄ (by decide)
  obtain ⟨e, he, hte⟩ := Handles.child (m := .expression) hrec (by simp) h₃
  obtain ⟨s, hs, hts⟩ := Handles.child (m := .statement) hrec (by simp) h₅
  refine ⟨.iterationStmt e s, ?_, ?_⟩
  · show transformIterationStmt rec (.mk _ [_, _, _, _, _]) = _
    simp [transformIterationStmt, he, hs, AstNode.toExpression, AstNode.toStatement]
  · rw [Node.text_rule (by simp) (by decide)]
    simp [hwhile, hopen, hclose, hte, hts, Token.word]

theorem transformed_returnStmt (hrec : Handles rec n) (h : Derives (.n .returnStmt) n) :
    Transformed (transformBranch rec) n .returnStmt := by
  obtain ⟨rhs, hrhs, cs, hcs, rfl⟩ := derives_rule h
  simp only [productions, List.mem_cons, List.not_mem_nil, or_false] at hrhs
  rcases hrhs with rfl | rfl
  · obtain _ | ⟨h₁, _ | ⟨h₂, ⟨⟩⟩⟩ := hcs
    have hreturn := derives_word h₁ (by decide)
    have hsemi := derives_word h₂ (by decide)
    refine ⟨.returnVoidStmt, rfl, ?_⟩
    rw [Node.text_rule (by simp) (by decide)]
    simp [hreturn, hsemi, Token.word]
  · obtain _ | ⟨h₁, _ | ⟨h₂, _ | ⟨h₃, ⟨⟩⟩⟩⟩ := hcs
    have hreturn := derives_word h₁ (by decide)
    have hsemi := derives_word h₃ (by decide)
    obtain ⟨e, he, hte⟩ := Handles.child (m := .expression) hrec (by simp) h₂
    refine ⟨.returnStmt e, ?_, ?_⟩
    · show transformReturnStmt rec (.mk _ [_, _, _]) = _
      simp [transformReturnStmt, he, AstNode.toExpression]
    · rw [Node.text_rule (by simp) (by decide)]
      simp [hreturn, hsemi, hte, Token.word]

theorem transformed_expression (hrec : Handles rec n) (h : Derives (.n .expression) n) :
    Transformed (transformBranch rec) n .expression := by
  obtain ⟨rhs, hrhs, cs, hcs, rfl⟩ := derives_rule h
  simp only [productions, List.mem_cons, List.not_mem_nil, or_false] at hrhs
  rcases hrhs with rfl | rfl
  · obtain _ | ⟨h₁, _ | ⟨h₂, _ | ⟨h₃, ⟨⟩⟩⟩⟩ := hcs
    have hassign := derives_word h₂ (by decide)
    obtain ⟨v, hv, htv⟩ := Handles.child (m := .var) hrec (by simp) h₁
    obtain ⟨e, he, hte⟩ := Handles.child (m := .expression) hrec (by simp) h₃
    refine ⟨.assign v e, ?_, ?_⟩
    · show transformExpression rec (.mk _ [_, _, _]) = _
      simp [transformExpression, hv, he, AstNode.toVar, AstNode.toExpression]
    · rw [Node.text_rule (by simp) (by decide)]
      simp [hassign, htv, hte, Token.word]
  · obtain _ | ⟨h₁, ⟨⟩⟩ := hcs
    obtain ⟨e, he, hte⟩ := Handles.child (m := .simpleExpression) hrec (by simp) h₁
    refine ⟨e, he, ?_⟩
    rw [Node.text_rule (by simp) (by decide)]
    simpa using hte

theorem transformed_var (hrec : Handles rec n) (h : Derives (.n .var) n) :
    Transformed (transformBranch rec) n .var := by
  obtain ⟨rhs, hrhs, cs, hcs, rfl⟩ := derives_rule h
  simp only [productions, List.mem_cons, List.not_mem_nil, or_false] at hrhs
  rcases hrhs with rfl | rfl
  · obtain _ | ⟨h₁, ⟨⟩⟩ := hcs
    obtain ⟨s, rfl, hts⟩ := derives_id h₁
    refine ⟨.ident s, rfl, ?_⟩
    rw [Node.text_rule (by simp) (by decide)]
    simp [hts]
  · obtain _ | ⟨h₁, _ | ⟨h₂, _ | ⟨h₃, _ | ⟨h₄, ⟨⟩⟩⟩⟩⟩ := hcs
    obtain ⟨s, rfl, hts⟩ := derives_id h₁
    have hopen := derives_word h₂ (by decide)
    have hclose := derives_word h₄ (by decide)
    obtain ⟨e, he, hte⟩ := Handles.child (m := .expression) hrec (by simp) h₃
    refine ⟨.element s e, ?_, ?_⟩
    · show transformVar rec (.mk _ [_, _, _, _]) = _
      simp [transformVar, he, AstNode.toExpression]
    · rw [Node.text_rule (by simp) (by decide)]
      simp [hts, hopen, hclose, hte, Token.word]

theorem transformed_simpleExpression (hrec : Handles rec n) (h : Derives (.n .simpleExpression) n) :
    Transformed (transformBranch rec) n .simpleExpression := by
  obtain ⟨rhs, hrhs, cs, hcs, rfl⟩ := derives_rule h
  simp only [productions, List.mem_cons, List.not_mem_nil, or_false] at hrhs
  rcases hrhs with rfl | rfl
  · obtain _ | ⟨h₁, _ | ⟨h₂, _ | ⟨h₃, ⟨⟩⟩⟩⟩ := hcs
    obtain ⟨o, rfl, hto⟩ := derives_relop h₂
    obtain ⟨l, hl, htl⟩ := Handles.child (m := .additiveExpression) hrec (by simp) h₁
    obtain ⟨r, hr, htr⟩ := Handles.child (m := .additiveExpression) hrec (by simp) h₃
    refine ⟨.relation l (relOpOf o.name) r, ?_, ?_⟩
    · show transformSimpleExpression rec (.mk _ [_, _, _]) = _
      simp [transformSimpleExpression, hl, hr, AstNode.toAdditive]
    · rw [Node.text_rule (by simp) (by decide)]
      simp [hto, htl, htr]
  · obtain _ | ⟨h₁, ⟨⟩⟩ := hcs
    obtain ⟨l, hl, htl⟩ := Handles.child (m := .additiveExpression) hrec (by simp) h₁
    refine ⟨.simple l, ?_, ?_⟩
    · show transformSimpleExpression rec (.mk _ [_]) = _
      simp [transformSimpleExpression, hl, AstNode.toAdditive]
    · rw [Node.text_rule (by simp) (by decide)]
      simp [htl]

theorem transformed_additiveExpression (hrec : Handles rec n)
    (h : Derives (.n .additiveExpression) n) :
    Transformed (transformBranch rec) n .additiveExpression := by
  obtain ⟨rhs, hrhs, cs, hcs, rfl⟩ := derives_rule h
  simp only [productions, List.mem_cons, List.not_mem_nil, or_false] at hrhs
  rcases hrhs with rfl | rfl
  · obtain _ | ⟨h₁, _ | ⟨h₂, _ | ⟨h₃, ⟨⟩⟩⟩⟩ := hcs
    obtain ⟨o, rfl, hto⟩ := derives_addop h₂
    obtain ⟨l, hl, htl⟩ := Handles.child (m := .additiveExpression) hrec (by simp) h₁
    obtain ⟨t, ht, htt⟩ := Handles.child (m := .term) hrec (by simp) h₃
    refine ⟨.additive l (addOpOf o.name) t, ?_, ?_⟩
    · show transformAdditiveExpression rec (.mk _ [_, _, _]) = _
      simp [transformAdditiveExpression, hl, ht, AstNode.toAdditive, AstNode.toTerm]
    · rw [Node.text_rule (by simp) (by decide)]
      simp [hto, htl, htt]
  · obtain _ | ⟨h₁, ⟨⟩⟩ := hcs
    obtain ⟨t, ht, htt⟩ := Handles.child (m := .term) hrec (by simp) h₁
    refine ⟨.term t, ?_, ?_⟩
    · show transformAdditiveExpression rec (.mk _ [_]) = _
      simp [transformAdditiveExpression, ht, AstNode.toTerm]
    · rw [Node.text_rule (by simp) (by decide)]
      simp [htt]

theorem transformed_term (hrec : Handles rec n) (h : Derives (.n .term) n) :
    Transformed (transformBranch rec) n .term := by
  obtain ⟨rhs, hrhs, cs, hcs, rfl⟩ := derives_rule h
  simp only [productions, List.mem_cons, List.not_mem_nil, or_false] at hrhs
  rcases hrhs with rfl | rfl
  · obtain _ | ⟨h₁, _ | ⟨h₂, _ | ⟨h₃, ⟨⟩⟩⟩⟩ := hcs
    obtain ⟨o, rfl, hto⟩ := derives_mulop h₂
    obtain ⟨t, ht, htt⟩ := Handles.child (m := .term) hrec (by simp) h₁
    obtain ⟨a, f, ha, hf, htf⟩ := Handles.child (m := .factor) hrec (by simp) h₃
    refine ⟨.multiplicative t (mulOpOf o.name) f, ?_, ?_⟩
    · show transformTerm rec (.mk _ [_, _, _]) = _
      simp [transformTerm, ht, ha, hf, AstNode.toTerm]
    · rw [Node.text_rule (by simp) (by decide)]
      simp [hto, htt, htf]
  · obtain _ | ⟨h₁, ⟨⟩⟩ := hcs
    obtain ⟨a, f, ha, hf, htf⟩ := Handles.child (m := .factor) hrec (by simp) h₁
    refine ⟨.factor f, ?_, ?_⟩
    · show transformTerm rec (.mk _ [_]) = _
      simp [transformTerm, ha, hf]
    · rw [Node.text_rule (by simp) (by decide)]
      simp [htf]

theorem isNumber_of_word {w : String} {ts : List Lexeme} (h : .word w ∈ ts) :
    isNumber ts = false := by
  unfold isNumber
  split
  · cases List.mem_singleton.mp h
  · cases List.mem_singleton.mp h
  · rfl

theorem RelOp.text_word (op : RelOp) : ∃ w, op.text = .word w := by
  cases op <;> exact ⟨_, rfl⟩

theorem AddOp.text_word (op : AddOp) : ∃ w, op.text = .word w := by
  cases op <;> exact ⟨_, rfl⟩

theorem MulOp.text_word (op : MulOp) : ∃ w, op.text = .word w := by
  cases op <;> exact ⟨_, rfl⟩

/-- An expression that is no single number has a word in its text, and stays in its parentheses. -/
theorem collapse_spec (e : Ast .expression) : ∃ f, (collapse (.ast e)).toFactor = .ok f ∧
    f.text = if isNumber e.text then e.text else .word "(" :: e.text ++ [.word ")"] := by
  have hgroup : ∀ w, .word w ∈ e.text → (Ast.group e).text =
      if isNumber e.text then e.text else .word "(" :: e.text ++ [.word ")"] := by
    intro w hw
    rw [isNumber_of_word hw]
    rfl
  cases e with
  | assign v e => exact ⟨_, rfl, hgroup "=" (by simp)⟩
  | relation l op r =>
    obtain ⟨w, hw⟩ := op.text_word
    exact ⟨_, rfl, hgroup w (by simp [hw])⟩
  | simple l =>
    cases l with
    | additive l op t =>
      obtain ⟨w, hw⟩ := op.text_word
      exact ⟨_, rfl, hgroup w (by simp [hw])⟩
    | term t =>
      cases t with
      | multiplicative l op f =>
        obtain ⟨w, hw⟩ := op.text_word
        exact ⟨_, rfl, hgroup w (by simp [hw])⟩
      | factor f =>
        cases f with
        | intNum i => exact ⟨.intNum i, rfl, rfl⟩
        | floatNum x => exact ⟨.floatNum x, rfl, rfl⟩
        | group e => exact ⟨_, rfl, hgroup "(" (by simp)⟩
        | call id args => exact ⟨_, rfl, hgroup "(" (by simp)⟩
        | var v =>
          cases v with
          | ident id => exact ⟨_, rfl, hgroup id (by simp)⟩
          | element id e => exact ⟨_, rfl, hgroup id (by simp)⟩

theorem derives_name (h : Derives (.n m) c) : c.name = m.name := by
  obtain ⟨rhs, hrhs, cs, hcs, rfl⟩ := derives_rule h
  rfl

/-- The leaves of a factor that is one node. -/
theorem Node.text_factor (c : Node) : (node Nonterminal.factor.name [c]).text = c.text := by
  have hnode : node Nonterminal.factor.name [c] = .mk "factor" [c] := rfl
  have hmarker : isMarker "factor" [c] = false := isMarker_of_ne (by decide)
  simp [hnode, Node.text, Node.texts, joinText, hmarker]

theorem transformed_factor (hfits : Fits n) (hrec : Handles rec n) (h : Derives (.n .factor) n) :
    Transformed (transformBranch rec) n .factor := by
  obtain ⟨rhs, hrhs, cs, hcs, rfl⟩ := derives_rule h
  simp only [productions, List.mem_cons, List.not_mem_nil, or_false] at hrhs
  rcases hrhs with rfl | rfl | rfl | rfl | rfl
  · obtain _ | ⟨h₁, _ | ⟨h₂, _ | ⟨h₃, ⟨⟩⟩⟩⟩ := hcs
    rename_i c₁ c₂ c₃
    have hopen := derives_word h₁ (by decide)
    have hclose := derives_word h₃ (by decide)
    have hname : c₂.name = "expression" := derives_name h₂
    obtain ⟨e, he, hte⟩ := Handles.child (m := .expression) hrec (by simp) h₂
    obtain ⟨f, hf, htf⟩ := collapse_spec e
    refine ⟨collapse (.ast e), f, ?_, hf, ?_⟩
    · show transformFactor rec (.mk _ [_, _, _]) = _
      simp [transformFactor, hname, he]
    · have hnode : node Nonterminal.factor.name [c₁, c₂, c₃] = .mk "factor" [c₁, c₂, c₃] := rfl
      have hmarker : isMarker "factor" [c₁, c₂, c₃] = false := isMarker_of_ne (by decide)
      rw [htf, hte]
      simp [hnode, Node.text, Node.texts, joinText, hmarker, hopen, hclose, Token.word]
  · obtain _ | ⟨h₁, ⟨⟩⟩ := hcs
    have hname := derives_name h₁
    obtain ⟨v, hv, htv⟩ := Handles.child (m := .var) hrec (by simp) h₁
    refine ⟨.ast v, .var v, ?_, rfl, by rw [Node.text_factor, ← htv, Ast.text]⟩
    show transformFactor rec (.mk _ [_]) = _
    simp [transformFactor, hname, Nonterminal.name, hv]
  · obtain _ | ⟨h₁, ⟨⟩⟩ := hcs
    have hname := derives_name h₁
    obtain ⟨f, hf, htf⟩ := Handles.child (m := .call) hrec (by simp) h₁
    refine ⟨.ast f, f, ?_, rfl, by rw [Node.text_factor, htf]⟩
    show transformFactor rec (.mk _ [_]) = _
    simp [transformFactor, hname, Nonterminal.name, hf]
  · obtain _ | ⟨h₁, ⟨⟩⟩ := hcs
    obtain ⟨rhs, hrhs, cs, hcs, rfl⟩ := derives_rule h₁
    obtain rfl := List.mem_singleton.mp hrhs
    obtain _ | ⟨h₂, ⟨⟩⟩ := hcs
    obtain ⟨s, hs, rfl⟩ := derives_token h₂
    have hsub : Node.Sub (.mk s []) (.mk "integer" [.mk s []]) := .child (by simp) .refl
    have hlt := hfits.integers s (.child (List.mem_singleton_self _) hsub) hs
    have hstoi := stoi_integer hs hlt
    have hnat : (BitVec.ofNat 32 (decimal s.toList)).toNat = decimal s.toList :=
      Nat.mod_eq_of_lt (Nat.lt_trans hlt (by decide))
    refine ⟨.ast (.intNum (BitVec.ofNat 32 (decimal s.toList))), _, ?_, rfl, ?_⟩
    · show transformFactor rec (.mk _ [.mk "integer" [_]]) = _
      simp [transformFactor, hstoi]
    · rw [Node.text_factor, Node.text_rule (by simp) (by decide), Ast.text, hnat]
      simp [Node.text_leaf s, lexeme_integer hs]
  · obtain _ | ⟨h₁, ⟨⟩⟩ := hcs
    obtain ⟨rhs, hrhs, cs, hcs, rfl⟩ := derives_rule h₁
    obtain rfl := List.mem_singleton.mp hrhs
    obtain _ | ⟨h₂, ⟨⟩⟩ := hcs
    obtain ⟨s, hs, rfl⟩ := derives_token h₂
    have hsub : Node.Sub (.mk s []) (.mk "float" [.mk s []]) := .child (by simp) .refl
    obtain ⟨x, hx⟩ := stof_floatpoint hs (hfits.short s (.child (List.mem_singleton_self _) hsub))
    refine ⟨.ast (.floatNum x), _, ?_, rfl, ?_⟩
    · show transformFactor rec (.mk _ [.mk "float" [_]]) = _
      simp [transformFactor, hx]
    · rw [Node.text_factor, Node.text_rule (by simp) (by decide), Ast.text]
      simp [Node.text_leaf s, lexeme_floatpoint hs hx]

theorem transformed_call (hrec : Handles rec n) (h : Derives (.n .call) n) :
    Transformed (transformBranch rec) n .call := by
  obtain ⟨rhs, hrhs, cs, hcs, rfl⟩ := derives_rule h
  obtain rfl := List.mem_singleton.mp hrhs
  obtain _ | ⟨h₁, _ | ⟨h₂, _ | ⟨h₃, _ | ⟨h₄, ⟨⟩⟩⟩⟩⟩ := hcs
  obtain ⟨s, rfl, hts⟩ := derives_id h₁
  have hopen := derives_word h₂ (by decide)
  have hclose := derives_word h₄ (by decide)
  obtain ⟨rhs, hrhs, cs, hcs, rfl⟩ := derives_rule h₃
  simp only [productions, List.mem_cons, List.not_mem_nil, or_false] at hrhs
  rcases hrhs with rfl | rfl
  · obtain _ | ⟨h₅, ⟨⟩⟩ := hcs
    rename_i list
    have hname : list.name = "arg-list" := derives_name h₅
    obtain ⟨xs, hun, hel, htext⟩ := commaList_spec (e := .expression) rfl (by decide) (by decide) h₅
    have hel : Elements .expression (.mk "args" [list]) xs := hel.child (List.mem_singleton_self _)
    obtain ⟨es, hes, htes⟩ := hel.mapM hrec (by simp [node, Nonterminal.name]) AstNode.toExpression
      Ast.text fun x hx => by
      obtain ⟨e, he, hte⟩ := hx
      exact ⟨e, by rw [he]; rfl, hte⟩
    refine ⟨.call s (argsOf es), ?_, ?_⟩
    · show transformCall rec (.mk _ [_, _, .mk "args" [_], _]) = _
      simp [transformCall, hname, hun, hes]
    · have hne : list.children ≠ [] := by
        obtain ⟨rhs, hrhs, cs, hcs, rfl⟩ := derives_rule h₅
        simp only [productions, List.mem_cons, List.not_mem_nil, or_false] at hrhs
        rcases hrhs with rfl | rfl <;> cases hcs <;> exact List.cons_ne_nil _ _
      have hargs : (node Nonterminal.args.name [list]).text = list.text := by
        rw [Node.text_node (by simp) (isMarker_of_children (by simpa using hne)) (by decide)]
        simp
      rw [Node.text_rule (by simp) (by decide)]
      simp [hts, hopen, hclose, hargs, argsOf_text, htes, htext, Token.word]
  · cases hcs
    refine ⟨.call s .noArgs, rfl, ?_⟩
    have hargs : (node Nonterminal.args.name []).text = [] := by decide
    rw [Node.text_rule (by simp) (by decide)]
    simp [hts, hopen, hclose, hargs, Token.word]

end Branches

/-! ## Trees -/

/-- **Every node is transformed**, given fuel for its size. -/
theorem transform_works (fuel : Nat) : ∀ n m, n.size ≤ fuel → Derives (.n m) n → Fits n →
    Transformed (transform fuel) n m := by
  induction fuel with
  | zero =>
    intro n m hsize
    cases n
    exact absurd hsize (Nat.not_succ_le_zero _)
  | succ fuel ih =>
    intro n m hsize h hfits
    have hrec : Handles (transform fuel) n := fun c hsub hlt m hc =>
      ih c m (Nat.le_of_lt_succ (Nat.lt_of_lt_of_le hlt hsize)) hc (hfits.sub hsub)
    show Transformed (transformBranch (transform fuel)) n m
    cases m with
    | program => exact transformed_program hrec h
    | declaration => exact transformed_declaration hrec h
    | varDeclaration => exact transformed_varDeclaration hfits h
    | funDeclaration => exact transformed_funDeclaration hrec h
    | param => exact transformed_param hfits h
    | compoundStmt => exact transformed_compoundStmt hrec h
    | statement => exact transformed_statement hrec h
    | expressionStmt => exact transformed_expressionStmt hrec h
    | selectionStmt => exact transformed_selectionStmt hrec h
    | iterationStmt => exact transformed_iterationStmt hrec h
    | returnStmt => exact transformed_returnStmt hrec h
    | expression => exact transformed_expression hrec h
    | var => exact transformed_var hrec h
    | simpleExpression => exact transformed_simpleExpression hrec h
    | additiveExpression => exact transformed_additiveExpression hrec h
    | term => exact transformed_term hrec h
    | factor => exact transformed_factor hfits hrec h
    | call => exact transformed_call hrec h
    | _ => exact trivial

/-- **The abstract syntax tree of a program has the text of its syntax tree**, whose names
`transform_node_iter` reads from the arrays of the nodes. -/
theorem transform_text {t : Node} {fuel : Nat} (h : Derives (.n .program) t) (hfits : Fits t)
    (hfuel : t.size ≤ fuel) (old : NameArray) :
    ∃ ds, transformStored fuel (t.store old) = .ok (.program ds) ∧ programText ds = t.text := by
  obtain ⟨ds, hds, htext⟩ := transform_works fuel t .program hfuel h hfits
  refine ⟨ds, ?_, htext⟩
  rw [transformStored, Node.read_store old h hfits.short, ok_bind, hds]

/-! ## A program -/

mutual

/-- `p` holds of every node of the tree. -/
def Node.all (p : Node → Bool) : Node → Bool
  | .mk name cs => p (.mk name cs) && Node.allOf p cs

/-- `p` holds of every node of the trees. -/
def Node.allOf (p : Node → Bool) : List Node → Bool
  | [] => true
  | c :: cs => c.all p && Node.allOf p cs

end

theorem Node.allOf_iff {p : Node → Bool} : Node.allOf p cs = true ↔ ∀ d ∈ cs, d.all p = true := by
  induction cs with
  | nil => exact iff_of_true rfl nofun
  | cons d cs ih => rw [Node.allOf, Bool.and_eq_true, ih, List.forall_mem_cons]

theorem Node.of_all {p : Node → Bool} {n t : Node} (hn : Node.Sub n t) (h : t.all p = true) :
    p n = true := by
  induction hn with
  | refl =>
    cases n
    exact (Bool.and_eq_true_iff.mp h).1
  | child hc _ ih => exact ih (Node.allOf_iff.mp (Bool.and_eq_true_iff.mp h).2 _ hc)

/-- What `Fits` asks of a node. -/
def Node.fits : Node → Bool
  | .mk s [] => (!decide (IsInteger s) || decimal s.toList < 2 ^ 31) && s.length < nodeNameMax
  | .mk name (specifier :: _) =>
    !(name = "var-declaration" || name = "param") ||
      specifier.children.all fun c => c.name ≠ "void"

theorem fits_of_all {t : Node} (h : t.all Node.fits = true) : Fits t := by
  have hleaf : ∀ s, Node.Sub (.mk s []) t →
      (IsInteger s → decimal s.toList < 2 ^ 31) ∧ s.length < nodeNameMax := by
    intro s hs
    have hfits := Node.of_all hs h
    simpa [Node.fits, imp_iff_not_or] using hfits
  refine ⟨fun name specifier rest hs hname => ?_, fun s hs => (hleaf s hs).1,
    fun s hs => (hleaf s hs).2⟩
  have hfits := Node.of_all hs h
  simp only [Node.fits, Bool.or_eq_true, Bool.not_eq_true', Bool.or_eq_false_iff,
    decide_eq_false_iff_not, List.all_eq_true, decide_eq_true_iff] at hfits
  rcases hfits with ⟨hvar, hparam⟩ | hall
  · rcases hname with hname | hname
    · exact absurd hname hvar
    · exact absurd hname hparam
  · exact hall

namespace SampleProgram

/-- A token. -/
def leaf (s : String) : Node := .mk s []

/-- `int`, `float` or `void`. -/
def specifier (s : String) : Node := .mk "type-specifier" [leaf s]

/-- A factor as a term. -/
def ofFactor (f : Node) : Node := .mk "term" [.mk "factor" [f]]

/-- A term as an additive expression. -/
def ofTerm (t : Node) : Node := .mk "additive-expression" [t]

/-- An additive expression as an expression. -/
def ofAdditive (l : Node) : Node := .mk "expression" [.mk "simple-expression" [l]]

/-- An integer. -/
def number (s : String) : Node := .mk "integer" [leaf s]

/-- A variable. -/
def var (s : String) : Node := .mk "var" [leaf s]

/-- A factor as an expression. -/
def value (f : Node) : Node := ofAdditive (ofTerm (ofFactor f))

/-- An assignment as a statement. -/
def assign (v e : Node) : Node :=
  .mk "statement" [.mk "expression-stmt" [.mk "expression" [v, leaf "=", e], leaf ";"]]

/-- `1 - 2 - 3`. -/
def differences : Node :=
  .mk "additive-expression"
    [.mk "additive-expression"
      [ofTerm (ofFactor (number "1")), .mk "addop" [leaf "-"], ofFactor (number "2")],
      .mk "addop" [leaf "-"], ofFactor (number "3")]

/-- `f(z * 2.5, y)`. -/
def call : Node :=
  .mk "call" [leaf "f", leaf "(", .mk "args" [.mk "arg-list"
    [.mk "arg-list" [ofAdditive (ofTerm (.mk "term"
      [ofFactor (var "z"), .mk "mulop" [leaf "*"], .mk "factor" [.mk "float" [leaf "2.5"]]]))],
      leaf ",", value (var "y")]], leaf ")"]

/-- The statements
`z = 1 - 2 - 3; w[0] = (5); while (z < x) z = f(z * 2.5, y); if (z) return z; else ;`. -/
def statements : List Node :=
  [assign (var "z") (ofAdditive differences),
    assign (.mk "var" [leaf "w", leaf "[", value (number "0"), leaf "]"])
      (ofAdditive (ofTerm (.mk "term"
        [.mk "factor" [leaf "(", value (number "5"), leaf ")"]]))),
    .mk "statement" [.mk "iteration-stmt" [leaf "while", leaf "(",
      .mk "expression" [.mk "simple-expression"
        [ofTerm (ofFactor (var "z")), .mk "relop" [leaf "<"], ofTerm (ofFactor (var "x"))]],
      leaf ")", assign (var "z") (value call)]],
    .mk "statement" [.mk "selection-stmt" [leaf "if", leaf "(", value (var "z"), leaf ")",
      .mk "statement" [.mk "return-stmt" [leaf "return", value (var "z"), leaf ";"]],
      leaf "else", .mk "statement" [.mk "expression-stmt" [leaf ";"]]]]]

/-- The left-recursive list of some elements. -/
def listOf (name : String) (elements : List Node) : Node :=
  elements.foldl (fun l c => .mk name [l, c]) (.mk name [.mk "epsilon" []])

/-- `int f(int x, float y[])` with the locals `int z; int w[2];` and the statements. -/
def function : Node :=
  .mk "fun-declaration" [specifier "int", leaf "f", leaf "(",
    .mk "params" [.mk "param-list"
      [.mk "param-list" [.mk "param" [specifier "int", leaf "x"]], leaf ",",
        .mk "param" [specifier "float", leaf "y", leaf "[", leaf "]"]]],
    leaf ")",
    .mk "compound-stmt" [leaf "\x7b",
      listOf "local-declarations"
        [.mk "var-declaration" [specifier "int", leaf "z", leaf ";"],
          .mk "var-declaration"
            [specifier "int", leaf "w", leaf "[", leaf "2", leaf "]", leaf ";"]],
      listOf "statement-list" statements, leaf "\x7d"]]

/-- `float b[10];` and the function. -/
def program : Node :=
  .mk "program" [.mk "declaration-list"
    [.mk "declaration-list" [.mk "declaration" [.mk "var-declaration"
      [specifier "float", leaf "b", leaf "[", leaf "10", leaf "]", leaf ";"]]],
      .mk "declaration" [function]]]

end SampleProgram

/-- The theorem at a program with lists, a chain of operators and parentheses. -/
theorem transform_text_sample :
    ∃ ds, transformStored SampleProgram.program.size
        (SampleProgram.program.store ⟨List.replicate nodeNameMax 'x', List.length_replicate⟩) =
          .ok (.program ds) ∧ programText ds = SampleProgram.program.text :=
  transform_text (by decide +kernel) (fits_of_all (by decide +kernel)) (Nat.le_refl _) _

end Cminusfc.Frontend
