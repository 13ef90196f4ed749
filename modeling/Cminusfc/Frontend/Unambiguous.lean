import Cminusfc.Lib.Grammar
import Cminusfc.Frontend.TransformCorrect

/-!
# The grammar is unambiguous

The productions of `syntax_analyzer.y` leave one thing open: an `else` may belong to any `if` in front
of it that could take it. `Nearest` trees give it to the nearest one.

* `tables_sound`, `apart`: the tables of `Lib/Grammar` for this grammar. Four pairs of productions
  cannot be told apart by the next token: `expression_apart`, `factor_apart`, `declaration_apart`,
  `params_apart`.
* `tree_unique`: a sequence of tokens has at most one nearest tree of a symbol.
* `isExpression_of`: how the expressions are grouped.
* `derives_iff`: the trees are the parse trees of `SyntaxTree`.
* `parse_unique`: the result.

About `src/parser/syntax_analyzer.y` 72-183. Out of scope: the automaton that bison makes of the
grammar.
-/

namespace Cminusfc.Frontend

open Grammar (Rules Tables Chain Same Follows headKind)
open Grammar.Tree

/-- The parse trees of the grammar. -/
abbrev Tree := Grammar.Tree Token Nonterminal String

abbrev Sym := Grammar.Sym Token Nonterminal

/-- A symbol. -/
def Symbol.toSym : Symbol → Sym
  | .t k => .t k
  | .n m => .n m

/-- An `if` without `else`. -/
def isShort : Nonterminal → List Sym → Bool
  | .selectionStmt, rhs => rhs.length = 5
  | _, _ => false

/-- The grammar. -/
def grammar : Rules Token Nonterminal where
  prod n := (productions n).map fun rhs => rhs.map Symbol.toSym
  short := isShort
  late := .ELSE

/-! ## Tables -/

def types : List Token := [.INT_T, .VOID_T, .FLOAT_T]

def relops : List Token := [.LE, .LT, .GT, .GE, .EQ, .NEQ]

def addops : List Token := [.ADD, .MINUS]

def mulops : List Token := [.MUL, .DIV]

/-- The first tokens of an expression. -/
def exprFirst : List Token := [.LPAREN, .ID, .INTEGER, .FLOATPOINT]

/-- The first tokens of a statement. -/
def stmtFirst : List Token := exprFirst ++ [.SEMICOLON, .LCURLY, .IF, .WHILE, .RETURN]

/-- The first tokens of a nonterminal. -/
def first : Nonterminal → List Token
  | .program | .declarationList | .declaration | .varDeclaration | .typeSpecifier | .funDeclaration
  | .params | .paramList | .param | .localDeclarations => types
  | .compoundStmt => [.LCURLY]
  | .statementList | .statement => stmtFirst
  | .expressionStmt => .SEMICOLON :: exprFirst
  | .selectionStmt => [.IF]
  | .iterationStmt => [.WHILE]
  | .returnStmt => [.RETURN]
  | .var | .call => [.ID]
  | .relop => relops
  | .addop => addops
  | .mulop => mulops
  | .integer => [.INTEGER]
  | .float => [.FLOATPOINT]
  | .expression | .simpleExpression | .additiveExpression | .term | .factor | .args | .argList =>
    exprFirst

/-- The tokens that go on with a term. -/
def termExcl : List Token := mulops ++ [.LBRACKET, .LPAREN, .ELSE]

/-- The tokens that go on with an expression. -/
def exprExcl : List Token := .ASSIGN :: relops ++ addops ++ termExcl

/-- The tokens that would go on with a nonterminal. -/
def excl : Nonterminal → List Token
  | .program | .declarationList | .localDeclarations => .ELSE :: types
  | .params => [.ID, .COLON, .LBRACKET, .ELSE]
  | .paramList => [.COLON, .LBRACKET, .ELSE]
  | .param | .var => [.LBRACKET]
  | .statementList => .ELSE :: stmtFirst
  | .expression => exprExcl
  | .simpleExpression => relops ++ addops ++ termExcl
  | .additiveExpression => addops ++ termExcl
  | .term => termExcl
  | .factor => [.LBRACKET, .LPAREN]
  | .args => exprFirst ++ .COLON :: exprExcl
  | .argList => .COLON :: exprExcl
  | _ => []

/-- The tables. -/
def tables : Tables Token Nonterminal where
  first := first
  nullable n := n = .localDeclarations ∨ n = .statementList ∨ n = .args
  excl := excl

theorem tables_sound : tables.Sound grammar where
  first n := by cases n <;> decide
  nullable n := by cases n <;> decide

/-- Productions the next token cannot tell apart. -/
def special : List (Nonterminal × List Sym × List Sym) :=
  [(.expression, [.n .var, .t .ASSIGN, .n .expression], [.n .simpleExpression]),
    (.factor, [.n .var], [.n .call]), (.declaration, [.n .varDeclaration], [.n .funDeclaration]),
    (.params, [.n .paramList], [.t .VOID_T])]

def declarationListChain : Chain grammar .declarationList :=
  ⟨[.n .declaration], [.n .declaration], rfl, by decide⟩

def localDeclarationsChain : Chain grammar .localDeclarations :=
  ⟨[.n .varDeclaration], [], rfl, by decide⟩

def statementListChain : Chain grammar .statementList := ⟨[.n .statement], [], rfl, by decide⟩

def paramListChain : Chain grammar .paramList :=
  ⟨[.t .COLON, .n .param], [.n .param], rfl, by decide⟩

def argListChain : Chain grammar .argList :=
  ⟨[.t .COLON, .n .expression], [.n .expression], rfl, by decide⟩

def additiveChain : Chain grammar .additiveExpression :=
  ⟨[.n .addop, .n .term], [.n .term], rfl, by decide⟩

def termChain : Chain grammar .term := ⟨[.n .mulop, .n .factor], [.n .factor], rfl, by decide⟩

/-- **Seven nonterminals are lists; of the others, the productions can be told apart.** -/
theorem apart (n : Nonterminal) : (∃ C : Chain grammar n, C.Ok tables) ∨
    Grammar.Apart grammar tables (fun n rhs rhs' => (n, rhs, rhs') ∈ special) n := by
  cases n with
  | declarationList =>
    exact Or.inl ⟨declarationListChain, by decide, by decide, by decide, by decide, by decide, by decide⟩
  | localDeclarations =>
    exact Or.inl ⟨localDeclarationsChain, by decide, by decide, by decide, by decide, by decide, by decide⟩
  | statementList =>
    exact Or.inl ⟨statementListChain, by decide, by decide, by decide, by decide, by decide, by decide⟩
  | paramList =>
    exact Or.inl ⟨paramListChain, by decide, by decide, by decide, by decide, by decide, by decide⟩
  | argList =>
    exact Or.inl ⟨argListChain, by decide, by decide, by decide, by decide, by decide, by decide⟩
  | additiveExpression =>
    exact Or.inl ⟨additiveChain, by decide, by decide, by decide, by decide, by decide, by decide⟩
  | term =>
    exact Or.inl ⟨termChain, by decide, by decide, by decide, by decide, by decide, by decide⟩
  | _ => exact Or.inr (by unfold Grammar.Apart; decide)

/-! ## Pairs of productions -/

section Pairs

variable {n : Nonterminal} {c d : Tree} {cs : List Tree} {r r' w : List (Token × String)}

theorem parses_node (h : Parses grammar (.node n cs)) :
    cs.map sym ∈ grammar.prod n ∧ ∀ c ∈ cs, Parses grammar c := by
  cases h with
  | node hrhs hcs => exact ⟨hrhs, hcs⟩

theorem nearest_node (h : Nearest grammar (.node n cs)) : ∀ c ∈ cs, Nearest grammar c := by
  cases h with
  | node _ hcs => exact hcs

theorem map_eq_one {x : Sym} (h : cs.map sym = [x]) : ∃ c, cs = [c] ∧ c.sym = x := by
  obtain ⟨c, l, rfl, hc, hl⟩ := List.map_eq_cons_iff.mp h
  obtain rfl := List.map_eq_nil_iff.mp hl
  exact ⟨c, rfl, hc⟩

theorem map_eq_cons {x : Sym} {xs : List Sym} (h : cs.map sym = x :: xs) :
    ∃ c l, cs = c :: l ∧ c.sym = x ∧ l.map sym = xs := by
  obtain ⟨c, l, rfl, hc, hl⟩ := List.map_eq_cons_iff.mp h
  exact ⟨c, l, rfl, hc, hl⟩

/-- A variable is a name, or a name and a bracket. -/
theorem var_kinds (h : Parses grammar c) (hsym : c.sym = .n .var) :
    (∃ s, c.yield = [(.ID, s)]) ∨ ∃ s s' w, c.yield = (.ID, s) :: (.LBRACKET, s') :: w := by
  obtain ⟨cs, rfl⟩ := sym_eq_n hsym
  obtain ⟨hrhs, -⟩ := parses_node h
  have hcases : cs.map sym = [.t .ID] ∨
      cs.map sym = [.t .ID, .t .LBRACKET, .n .expression, .t .RBRACKET] := by
    simpa only [grammar, productions, Symbol.toSym, List.map_cons, List.map_nil, List.mem_cons,
      List.not_mem_nil, or_false] using hrhs
  rcases hcases with hcs | hcs
  · obtain ⟨c, rfl, hc⟩ := map_eq_one hcs
    obtain ⟨s, rfl⟩ := sym_eq_t hc
    exact Or.inl ⟨s, rfl⟩
  · obtain ⟨c, l, rfl, hc, hl⟩ := map_eq_cons hcs
    obtain ⟨s, rfl⟩ := sym_eq_t hc
    obtain ⟨c, l, rfl, hc, hl⟩ := map_eq_cons hl
    obtain ⟨s', rfl⟩ := sym_eq_t hc
    exact Or.inr ⟨s, s', yields l, rfl⟩

/-- A call is a name and a parenthesis. -/
theorem call_kinds (h : Parses grammar c) (hsym : c.sym = .n .call) :
    ∃ s s' w, c.yield = (.ID, s) :: (.LPAREN, s') :: w := by
  obtain ⟨cs, rfl⟩ := sym_eq_n hsym
  obtain ⟨hrhs, -⟩ := parses_node h
  have hcs : cs.map sym = [.t .ID, .t .LPAREN, .n .args, .t .RPAREN] := by
    simpa only [grammar, productions, Symbol.toSym, List.map_cons, List.map_nil, List.mem_cons,
      List.not_mem_nil, or_false] using hrhs
  obtain ⟨c, l, rfl, hc, hl⟩ := map_eq_cons hcs
  obtain ⟨s, rfl⟩ := sym_eq_t hc
  obtain ⟨c, l, rfl, hc, hl⟩ := map_eq_cons hl
  obtain ⟨s', rfl⟩ := sym_eq_t hc
  exact ⟨s, s', yields l, rfl⟩

/-- A variable in front of anything but a parenthesis is no call. -/
theorem var_ne_call (hc : Parses grammar c) (hsym : c.sym = .n .var) (hd : Parses grammar d)
    (hsym' : d.sym = .n .call) (he : c.yield ++ r = d.yield ++ r') :
    headKind r = some .LPAREN := by
  obtain ⟨t, t', w', hd'⟩ := call_kinds hd hsym'
  rw [hd'] at he
  rcases var_kinds hc hsym with ⟨s, hs⟩ | ⟨s, s', w, hs⟩
  · rw [hs] at he
    simp only [List.cons_append, List.nil_append, List.cons.injEq] at he
    rw [he.2]
    rfl
  · rw [hs] at he
    simp at he

/-- The factor an expression begins with, and what is behind it. -/
theorem leftmost_factor (h : Parses grammar c) : Nearest grammar c →
    c.sym = .n .simpleExpression ∨ c.sym = .n .additiveExpression ∨ c.sym = .n .term →
    ∃ f w, c.yield = f.yield ++ w ∧ f.sym = .n .factor ∧ Parses grammar f ∧ Nearest grammar f ∧
      f.size < c.size ∧ ∀ k, headKind w = some k → k ∈ relops ++ addops ++ mulops := by
  induction h with
  | leaf =>
    intro _ h
    rcases h with h | h | h <;> cases h
  | @node n cs hrhs hcs ih =>
    intro hnear hsym
    have hcases : ∃ l rest, cs = l :: rest ∧
        (l.sym = .n .factor ∨ l.sym = .n .simpleExpression ∨ l.sym = .n .additiveExpression ∨
          l.sym = .n .term) ∧
        ((rest.map sym).all tables.nullableSym = true → rest = []) ∧
        ∀ k ∈ tables.next (rest.map sym), k ∈ relops ++ addops ++ mulops := by
      have hlist : cs.map sym ∈ ([[.n .additiveExpression, .n .relop, .n .additiveExpression],
          [.n .additiveExpression], [.n .additiveExpression, .n .addop, .n .term], [.n .term],
          [.n .term, .n .mulop, .n .factor], [.n .factor]] : List (List Sym)) := by
        rcases hsym with h | h | h <;> cases h <;>
          simp only [grammar, productions, Symbol.toSym, List.map_cons, List.map_nil, List.mem_cons,
            List.not_mem_nil, or_false] at hrhs <;>
          rcases hrhs with h | h <;> rw [h] <;> decide
      simp only [List.mem_cons, List.not_mem_nil, or_false] at hlist
      rcases hlist with h | h | h | h | h | h <;>
        obtain ⟨l, rest, rfl, hl, hrest⟩ := map_eq_cons h <;>
        refine ⟨l, rest, rfl, by simp [hl], ?_, by rw [hrest]; decide⟩ <;>
        rw [hrest] <;> first
          | exact fun h => absurd h (by decide)
          | exact fun _ => List.map_eq_nil_iff.mp hrest
    obtain ⟨l, rest, rfl, hl, hnull, hnext⟩ := hcases
    have hnl := nearest_node hnear l List.mem_cons_self
    have hpl := hcs l List.mem_cons_self
    have hlt := size_lt (n := n) (List.mem_cons_self (a := l) (l := rest))
    obtain ⟨f, w, hy, hf, hpf, hnf, hsize, hw⟩ : ∃ f w, l.yield = f.yield ++ w ∧
        f.sym = .n .factor ∧ Parses grammar f ∧ Nearest grammar f ∧ f.size ≤ l.size ∧
        ∀ k, headKind w = some k → k ∈ relops ++ addops ++ mulops := by
      rcases hl with hl | hl
      · exact ⟨l, [], (List.append_nil _).symm, hl, hpl, hnl, Nat.le_refl _, fun k hk => by cases hk⟩
      · obtain ⟨f, w, h₁, h₂, h₃, h₄, h₅, h₆⟩ := ih l List.mem_cons_self hnl hl
        exact ⟨f, w, h₁, h₂, h₃, h₄, Nat.le_of_lt h₅, h₆⟩
    refine ⟨f, w ++ yields rest, ?_, hf, hpf, hnf, Nat.lt_of_le_of_lt hsize hlt, fun k hk => ?_⟩
    · rw [yield, yields, hy, List.append_assoc]
    · cases w with
      | cons a w => exact hw k hk
      | nil =>
        rcases Grammar.begins_all tables_sound rest
          (fun d hd => hcs d (List.mem_cons_of_mem _ hd)) with ⟨hnil, hall⟩ | ⟨k', hk', hhead⟩
        · rw [List.nil_append, hnil] at hk
          cases hk
        · rw [List.nil_append, hhead] at hk
          cases hk
          exact hnext _ hk'

/-- The first two tokens of a list of parameters. -/
theorem paramList_kinds (h : Parses grammar c) : c.sym = .n .paramList →
    ∃ k s s' w, c.yield = (k, s) :: (.ID, s') :: w := by
  induction h with
  | leaf =>
    intro h
    cases h
  | @node n cs hrhs hcs ih =>
    rintro ⟨⟩
    have hcases : cs.map sym = [.n .paramList, .t .COLON, .n .param] ∨ cs.map sym = [.n .param] := by
      simpa only [grammar, productions, Symbol.toSym, List.map_cons, List.map_nil, List.mem_cons,
        List.not_mem_nil, or_false] using hrhs
    rcases hcases with h | h
    · obtain ⟨l, rest, rfl, hl, -⟩ := map_eq_cons h
      obtain ⟨k, s, s', w, hw⟩ := ih l List.mem_cons_self hl
      exact ⟨k, s, s', w ++ yields rest, by rw [yield, yields, hw]; rfl⟩
    · obtain ⟨p, rfl, hp⟩ := map_eq_one h
      obtain ⟨ds, rfl⟩ := sym_eq_n hp
      obtain ⟨hds, hparse⟩ := parses_node (hcs _ List.mem_cons_self)
      obtain ⟨rest, hrest⟩ : ∃ rest, ds.map sym = .n .typeSpecifier :: .t .ID :: rest := by
        simp only [grammar, productions, Symbol.toSym, List.map_cons, List.map_nil, List.mem_cons,
          List.not_mem_nil, or_false] at hds
        rcases hds with h | h <;> exact ⟨_, h⟩
      obtain ⟨t, l, rfl, ht, hl⟩ := map_eq_cons hrest
      obtain ⟨i, l, rfl, hi, -⟩ := map_eq_cons hl
      obtain ⟨s', rfl⟩ := sym_eq_t hi
      obtain ⟨es, rfl⟩ := sym_eq_n ht
      obtain ⟨hes, -⟩ := parses_node (hparse _ List.mem_cons_self)
      obtain ⟨k, hk⟩ : ∃ k, es.map sym = [.t k] := by
        simp only [grammar, productions, Symbol.toSym, List.map_cons, List.map_nil, List.mem_cons,
          List.not_mem_nil, or_false] at hes
        rcases hes with h | h | h <;> exact ⟨_, h⟩
      obtain ⟨e, rfl, he⟩ := map_eq_one hk
      obtain ⟨s, rfl⟩ := sym_eq_t he
      exact ⟨k, s, s', yields l, by simp [yield, yields]⟩

/-- A factor that begins with a name is a variable or a call. -/
theorem factor_cases {f : Tree} (h : Parses grammar f) (hsym : f.sym = .n .factor)
    (hhead : headKind (f.yield ++ r) = some .ID) :
    ∃ v, f = .node .factor [v] ∧ Parses grammar v ∧ (v.sym = .n .var ∨ v.sym = .n .call) := by
  obtain ⟨cs, rfl⟩ := sym_eq_n hsym
  obtain ⟨hrhs, hcs⟩ := parses_node h
  simp only [grammar, productions, Symbol.toSym, List.map_cons, List.map_nil, List.mem_cons,
    List.not_mem_nil, or_false] at hrhs
  have hone : ∀ x, cs.map sym = [x] → x = .n .var ∨ x = .n .call →
      ∃ v, Grammar.Tree.node .factor cs = .node .factor [v] ∧ Parses grammar v ∧
        (v.sym = .n .var ∨ v.sym = .n .call) := by
    intro x hx hor
    obtain ⟨v, rfl, hv⟩ := map_eq_one hx
    exact ⟨v, rfl, hcs v List.mem_cons_self, hv ▸ hor⟩
  have hother : (cs.map sym).all tables.nullableSym = false →
      (∀ k ∈ tables.next (cs.map sym), k ≠ .ID) → False := by
    intro hnull hne
    rcases Grammar.headKind_append tables_sound hcs r with ⟨k, hk, hh⟩ | ⟨hall, -⟩
    · rw [yield] at hhead
      rw [hh] at hhead
      cases hhead
      exact hne _ hk rfl
    · rw [hnull] at hall
      cases hall
  rcases hrhs with h | h | h | h | h
  · exact (hother (by rw [h]; decide) (by rw [h]; decide)).elim
  · exact hone _ h (Or.inl rfl)
  · exact hone _ h (Or.inr rfl)
  · exact (hother (by rw [h]; decide) (by rw [h]; decide)).elim
  · exact (hother (by rw [h]; decide) (by rw [h]; decide)).elim

/-- The trees of the induction hypothesis. -/
def Below (m : Nat) : Prop :=
  ∀ d d' : Tree, d.size + d'.size < m → Parses grammar d → Parses grammar d' →
    Nearest grammar d → Nearest grammar d' → d.sym = d'.sym → Same grammar tables d d'

variable {cs' : List Tree}

/-- A variable in front of `=` begins no simple expression that ends there. -/
theorem expression_apart (hcs : cs.map sym = [.n .var, .t .ASSIGN, .n .expression])
    (hcs' : cs'.map sym = [.n .simpleExpression]) (h : Parses grammar (.node .expression cs))
    (h' : Parses grammar (.node .expression cs')) (hn : Nearest grammar (.node .expression cs))
    (hn' : Nearest grammar (.node .expression cs'))
    (ih : Below (size (.node .expression cs : Tree) + size (.node .expression cs' : Tree)))
    (he : yields cs ++ r = yields cs' ++ r')
    (hr' : Follows grammar tables (.node .expression cs') r') : False := by
  obtain ⟨v, l, rfl, hv, hl⟩ := map_eq_cons hcs
  obtain ⟨a, l, rfl, ha, -⟩ := map_eq_cons hl
  obtain ⟨p, rfl⟩ := sym_eq_t ha
  obtain ⟨s, rfl, hs⟩ := map_eq_one hcs'
  have hvp := (parses_node h).2 v List.mem_cons_self
  have hvn := nearest_node hn v List.mem_cons_self
  obtain ⟨f, w, hy, hf, hfp, hfn, hlt, hw⟩ := leftmost_factor
    ((parses_node h').2 s List.mem_cons_self) (nearest_node hn' s List.mem_cons_self) (Or.inl hs)
  simp only [yields, yield, hy, List.append_nil, List.append_assoc, List.cons_append,
    List.nil_append] at he
  -- what follows the factor goes on with an expression, or follows it
  have hrest : ∀ k, headKind (w ++ r') = some k →
      k ∈ relops ++ addops ++ mulops ∨ k ∉ exprExcl := by
    intro k hk
    cases w with
    | nil => exact Or.inr (hr'.1 k hk)
    | cons x w => exact Or.inl (hw k hk)
  have hhead : headKind (f.yield ++ (w ++ r')) = some .ID := by
    rw [← he]
    rcases var_kinds hvp hv with ⟨t, ht⟩ | ⟨t, t', u, ht⟩ <;> rw [ht] <;> rfl
  obtain ⟨v', rfl, hvp', hv'⟩ := factor_cases hfp hf hhead
  simp only [yield, yields, List.append_nil] at he
  rcases hv' with hv' | hv'
  · have hsize : v.size + v'.size < size (.node .expression (v :: .leaf .ASSIGN p :: l) : Tree) +
        size (.node .expression [s] : Tree) :=
      Nat.add_lt_add (size_lt List.mem_cons_self)
        (Nat.lt_trans (Nat.lt_trans (size_lt List.mem_cons_self) hlt) (size_lt List.mem_cons_self))
    obtain ⟨-, hend⟩ := ih v v' hsize hvp hvp' hvn (nearest_node hfn v' List.mem_cons_self)
      (hv.trans hv'.symm) _ _ he
      ⟨fun k hk => by
        rw [hv, ← Option.some_inj.mp hk]
        change Token.ASSIGN ∉ excl .var
        decide, fun _ hk => by cases hk⟩
      ⟨fun k hk hmem => by
        rw [hv'] at hmem
        rw [List.mem_singleton.mp hmem] at hk
        rcases hrest _ hk with hk | hk <;> revert hk <;> decide, fun _ hk => by
        rcases hrest _ hk with hk | hk <;> revert hk <;> decide⟩
    rcases hrest .ASSIGN (by rw [← hend]; rfl) with hk | hk <;> revert hk <;> decide
  · have := var_ne_call hvp hv hvp' hv' he
    cases this

/-- A call is no variable: that would be in front of a parenthesis. -/
theorem factor_apart (hcs : cs.map sym = [.n .var]) (hcs' : cs'.map sym = [.n .call])
    (h : Parses grammar (.node .factor cs)) (h' : Parses grammar (.node .factor cs'))
    (he : yields cs ++ r = yields cs' ++ r') (hr : Follows grammar tables (.node .factor cs) r) :
    False := by
  obtain ⟨v, rfl, hv⟩ := map_eq_one hcs
  obtain ⟨d, rfl, hd⟩ := map_eq_one hcs'
  simp only [yields, List.append_nil] at he
  exact hr.1 _ (var_ne_call ((parses_node h).2 v List.mem_cons_self) hv
    ((parses_node h').2 d List.mem_cons_self) hd he)
    (show Token.LPAREN ∈ excl .factor by decide)

/-- What follows a tree follows its only child. -/
theorem follows_child (hr : Follows grammar tables (.node n [c]) r)
    (hexcl : ∀ k ∈ tables.exclSym c.sym, k ∈ excl n) : Follows grammar tables c r :=
  ⟨fun k hk hmem => hr.1 k hk (hexcl k hmem), fun hopen => hr.2 (.last hopen rfl)⟩

/-- A variable's declaration and a function's differ behind the name. -/
theorem declaration_apart (hcs : cs.map sym = [.n .varDeclaration])
    (hcs' : cs'.map sym = [.n .funDeclaration]) (h : Parses grammar (.node .declaration cs))
    (h' : Parses grammar (.node .declaration cs')) (hn : Nearest grammar (.node .declaration cs))
    (hn' : Nearest grammar (.node .declaration cs'))
    (ih : Below (size (.node .declaration cs : Tree) + size (.node .declaration cs' : Tree)))
    (he : yields cs ++ r = yields cs' ++ r')
    (hr : Follows grammar tables (.node .declaration cs) r)
    (hr' : Follows grammar tables (.node .declaration cs') r') : False := by
  obtain ⟨d, rfl, hd⟩ := map_eq_one hcs
  obtain ⟨d', rfl, hd'⟩ := map_eq_one hcs'
  have hlt := size_lt (n := Nonterminal.declaration) (List.mem_cons_self (a := d) (l := []))
  have hlt' := size_lt (n := Nonterminal.declaration) (List.mem_cons_self (a := d') (l := []))
  have hp := (parses_node h).2 d List.mem_cons_self
  have hp' := (parses_node h').2 d' List.mem_cons_self
  have hnd := nearest_node hn d List.mem_cons_self
  have hnd' := nearest_node hn' d' List.mem_cons_self
  have hf := follows_child hr (by rw [hd]; decide)
  have hf' := follows_child hr' (by rw [hd']; decide)
  obtain ⟨ds, rfl⟩ := sym_eq_n hd
  obtain ⟨ds', rfl⟩ := sym_eq_n hd'
  simp only [yields, yield, List.append_nil] at he
  have hds : ds.map sym = [.n .typeSpecifier, .t .ID, .t .SEMICOLON] ∨ ds.map sym =
      [.n .typeSpecifier, .t .ID, .t .LBRACKET, .t .INTEGER, .t .RBRACKET, .t .SEMICOLON] := by
    simpa only [grammar, productions, Symbol.toSym, List.map_cons, List.map_nil, List.mem_cons,
      List.not_mem_nil, or_false] using (parses_node hp).1
  have hds' : ds'.map sym = [.n .typeSpecifier, .t .ID, .t .LPAREN, .n .params, .t .RPAREN,
      .n .compoundStmt] := by
    simpa only [grammar, productions, Symbol.toSym, List.map_cons, List.map_nil, List.mem_cons,
      List.not_mem_nil, or_false] using (parses_node hp').1
  have hsame : ∀ c ∈ ds, ∀ c' ∈ ds', c.sym = c'.sym → Same grammar tables c c' :=
    fun c hc c' hc' hsym => ih c c'
      (Nat.add_lt_add (Nat.lt_trans (size_lt hc) hlt) (Nat.lt_trans (size_lt hc') hlt'))
      ((parses_node hp).2 c hc) ((parses_node hp').2 c' hc') (nearest_node hnd c hc)
      (nearest_node hnd' c' hc') hsym
  have hrow' := Grammar.row_of_node hp' hnd' (by rw [hds']; decide) hf'
  rcases hds with hds | hds
  · have hrow := Grammar.row_of_node hp hnd (by rw [hds]; decide) hf
    obtain ⟨rfl, -⟩ := Grammar.pair_same tables_sound ds ds' r r' hsame
      (by rw [hds, hds']; decide) hrow hrow' he
    rw [hds] at hds'
    cases hds'
  · have hrow := Grammar.row_of_node hp hnd (by rw [hds]; decide) hf
    obtain ⟨rfl, -⟩ := Grammar.pair_same tables_sound ds ds' r r' hsame
      (by rw [hds, hds']; decide) hrow hrow' he
    rw [hds] at hds'
    cases hds'

/-- `void` alone is followed by no name. -/
theorem params_apart (hcs : cs.map sym = [.n .paramList]) (hcs' : cs'.map sym = [.t .VOID_T])
    (h : Parses grammar (.node .params cs)) (he : yields cs ++ r = yields cs' ++ r')
    (hr' : Follows grammar tables (.node .params cs') r') : False := by
  obtain ⟨l, rfl, hl⟩ := map_eq_one hcs
  obtain ⟨v, rfl, hv⟩ := map_eq_one hcs'
  obtain ⟨p, rfl⟩ := sym_eq_t hv
  obtain ⟨k, s, s', w, hw⟩ := paramList_kinds ((parses_node h).2 l List.mem_cons_self) hl
  simp only [yields, yield, hw, List.append_nil, List.cons_append, List.nil_append,
    List.cons.injEq] at he
  exact hr'.1 .ID (by rw [← he.2]; rfl) (show Token.ID ∈ excl .params by decide)

/-- **Trees of one symbol whose texts agree are the same.** -/
theorem same (h : Parses grammar c) (h' : Parses grammar d) (hn : Nearest grammar c)
    (hn' : Nearest grammar d) (hsym : c.sym = d.sym) : Same grammar tables c d := by
  refine Grammar.same_of tables_sound apart ?_ c d h h' hn hn' hsym
  intro n cs cs' hsp h h' hn hn' ih r r' he hr hr'
  simp only [special, List.mem_cons, Prod.mk.injEq, List.not_mem_nil, or_false] at hsp
  rcases hsp with ⟨rfl, hcs, hcs'⟩ | ⟨rfl, hcs, hcs'⟩ | ⟨rfl, hcs, hcs'⟩ | ⟨rfl, hcs, hcs'⟩
  · exact expression_apart hcs hcs' h h' hn hn' ih he hr'
  · exact factor_apart hcs hcs' h h' he hr
  · exact declaration_apart hcs hcs' h h' hn hn' ih he hr hr'
  · exact params_apart hcs hcs' h he hr'

/-- **A text has at most one nearest tree.** -/
theorem tree_unique (h : Parses grammar c) (h' : Parses grammar d) (hn : Nearest grammar c)
    (hn' : Nearest grammar d) (hsym : c.sym = d.sym) (hy : c.yield = d.yield) : c = d := by
  have hnil : ∀ e : Tree, Follows grammar tables e [] := by
    intro e
    refine ⟨fun k hk => ?_, fun _ hk => ?_⟩ <;> cases hk
  exact (same h h' hn hn' hsym [] [] (by rw [hy]) (hnil c) (hnil d)).1

end Pairs

/-! ## How expressions are grouped -/

/-- A factor: an expression in parentheses, or one operand. -/
def IsFactor (c : Tree) : Prop :=
  ∃ cs, c = .node .factor cs ∧ (cs.map sym = [.t .LPAREN, .n .expression, .t .RPAREN] ∨
    ∃ x ∈ [Nonterminal.var, .call, .integer, .float], cs.map sym = [.n x])

/-- Operands with operators `op` between them, grouped to the left. -/
def GroupsLeft (n op : Nonterminal) (operand : Tree → Prop) (c : Tree) : Prop :=
  ∃ x segs, c = Grammar.spine n [x] segs ∧ operand x ∧
    ∀ seg ∈ segs, ∃ o y : Tree, seg = [o, y] ∧ o.sym = .n op ∧ operand y

/-- Factors with `*` and `/` between them. -/
def IsTerm : Tree → Prop := GroupsLeft .term .mulop IsFactor

/-- Terms with `+` and `-` between them. -/
def IsSum : Tree → Prop := GroupsLeft .additiveExpression .addop IsTerm

/-- A sum, or two with a relational operator between them. -/
def IsComparison (c : Tree) : Prop :=
  (∃ a, c = .node .simpleExpression [a] ∧ IsSum a) ∨
    ∃ a o b, c = .node .simpleExpression [a, o, b] ∧ IsSum a ∧ o.sym = .n .relop ∧ IsSum b

/-- A comparison, or one assigned to variables, the last of them first. -/
inductive IsExpression : Tree → Prop
  | simple {s : Tree} (h : IsComparison s) : IsExpression (.node .expression [s])
  | assign {v e : Tree} {p : String} (hv : v.sym = .n .var) (he : IsExpression e) :
      IsExpression (.node .expression [v, .leaf .ASSIGN p, e])

section Grouping

variable {c : Tree}

theorem isFactor_of (h : Parses grammar c) (hsym : c.sym = .n .factor) : IsFactor c := by
  obtain ⟨cs, rfl⟩ := sym_eq_n hsym
  refine ⟨cs, rfl, ?_⟩
  have hrhs := (parses_node h).1
  simp only [grammar, productions, Symbol.toSym, List.map_cons, List.map_nil, List.mem_cons,
    List.not_mem_nil, or_false] at hrhs
  rcases hrhs with h | h | h | h | h
  · exact Or.inl h
  all_goals exact Or.inr ⟨_, by decide, h⟩

/-- A left-recursive nonterminal groups to the left. -/
theorem groupsLeft_of {n op m : Nonterminal} {operand : Tree → Prop} (C : Chain grammar n)
    (helem : C.elem = [.n op, .n m]) (hbase : C.base = [.n m])
    (hop : ∀ d : Tree, Parses grammar d → Nearest grammar d → d.sym = .n m → operand d)
    (h : Parses grammar c) (hn : Nearest grammar c) (hsym : c.sym = .n n) :
    GroupsLeft n op operand c := by
  obtain ⟨b, segs, hs⟩ := C.spined h hn hsym
  obtain ⟨x, rfl, hx⟩ := map_eq_one (hs.base.trans hbase)
  obtain ⟨hpx, hnx, -⟩ := hs.parses x (Or.inl List.mem_cons_self)
  refine ⟨x, segs, hs.eq, hop x hpx hnx hx, fun seg hseg => ?_⟩
  obtain ⟨o, l, rfl, ho, hl⟩ := map_eq_cons ((hs.elems seg hseg).trans helem)
  obtain ⟨y, rfl, hy⟩ := map_eq_one hl
  obtain ⟨hpy, hny, -⟩ := hs.parses y
    (Or.inr ⟨_, hseg, List.mem_cons_of_mem _ List.mem_cons_self⟩)
  exact ⟨o, y, rfl, ho, hop y hpy hny hy⟩

theorem isTerm_of (h : Parses grammar c) (hn : Nearest grammar c) (hsym : c.sym = .n .term) :
    IsTerm c :=
  groupsLeft_of termChain rfl rfl (fun _ hd _ hsym => isFactor_of hd hsym) h hn hsym

theorem isSum_of (h : Parses grammar c) (hn : Nearest grammar c)
    (hsym : c.sym = .n .additiveExpression) : IsSum c :=
  groupsLeft_of additiveChain rfl rfl (fun _ => isTerm_of) h hn hsym

theorem isComparison_of (h : Parses grammar c) (hn : Nearest grammar c)
    (hsym : c.sym = .n .simpleExpression) : IsComparison c := by
  obtain ⟨cs, rfl⟩ := sym_eq_n hsym
  obtain ⟨hrhs, hcs⟩ := parses_node h
  have hnear := nearest_node hn
  simp only [grammar, productions, Symbol.toSym, List.map_cons, List.map_nil, List.mem_cons,
    List.not_mem_nil, or_false] at hrhs
  rcases hrhs with h | h
  · obtain ⟨a, l, rfl, ha, hl⟩ := map_eq_cons h
    obtain ⟨o, l, rfl, ho, hl⟩ := map_eq_cons hl
    obtain ⟨b, rfl, hb⟩ := map_eq_one hl
    exact Or.inr ⟨a, o, b, rfl, isSum_of (hcs a (by simp)) (hnear a (by simp)) ha, ho,
      isSum_of (hcs b (by simp)) (hnear b (by simp)) hb⟩
  · obtain ⟨a, rfl, ha⟩ := map_eq_one h
    exact Or.inl ⟨a, rfl, isSum_of (hcs a (by simp)) (hnear a (by simp)) ha⟩

/-- **How an expression is grouped.** -/
theorem isExpression_of (h : Parses grammar c) : Nearest grammar c → c.sym = .n .expression →
    IsExpression c := by
  induction h with
  | leaf =>
    intro _ hsym
    cases hsym
  | @node n cs hrhs hcs ih =>
    rintro hn ⟨⟩
    have hnear := nearest_node hn
    simp only [grammar, productions, Symbol.toSym, List.map_cons, List.map_nil, List.mem_cons,
      List.not_mem_nil, or_false] at hrhs
    rcases hrhs with h | h
    · obtain ⟨v, l, rfl, hv, hl⟩ := map_eq_cons h
      obtain ⟨a, l, rfl, ha, hl'⟩ := map_eq_cons hl
      obtain ⟨p, rfl⟩ := sym_eq_t ha
      obtain ⟨e, rfl, he⟩ := map_eq_one hl'
      exact .assign hv (ih e (by simp) (hnear e (by simp)) he)
    · obtain ⟨s, rfl, hs⟩ := map_eq_one h
      exact .simple (isComparison_of (hcs s (by simp)) (hnear s (by simp)) hs)

end Grouping

/-! ## The trees of `SyntaxTree` -/

mutual

/-- The node that the actions build. -/
def toNode : Tree → Node
  | .leaf _ s => .mk s []
  | .node n cs => node n.name (toNodes cs)

def toNodes : List Tree → List Node
  | [] => []
  | c :: cs => toNode c :: toNodes cs

end

/-- The tokens of the tree have the texts they are read from. -/
def Lexed (c : Tree) : Prop := ∀ p ∈ c.yield, p.1.Lexeme p.2

theorem lexed_node {n : Nonterminal} {cs : List Tree} :
    Lexed (.node n cs) ↔ ∀ c ∈ cs, Lexed c := by
  induction cs with
  | nil => simp [Lexed, yield, yields]
  | cons c cs ih =>
    rw [List.forall_mem_cons, ← ih]
    simp only [Lexed, yield, yields, List.mem_append, or_imp, forall_and]

theorem derives_of_tree {c : Tree} (h : Parses grammar c) : Lexed c → ∀ x : Symbol,
    c.sym = x.toSym → Derives x (toNode c) := by
  induction h with
  | @leaf k s =>
    intro hlex x hx
    cases x with
    | t k' =>
      cases hx
      exact .token (hlex (k, s) List.mem_cons_self)
    | n m => cases hx
  | @node n cs hrhs hcs ih =>
    intro hlex x hx
    cases x with
    | t k => cases hx
    | n m =>
      cases hx
      obtain ⟨rhs, hmem, heq⟩ := List.mem_map.mp hrhs
      rw [toNode]
      refine .rule hmem ?_
      clear hrhs hmem
      rw [lexed_node] at hlex
      induction cs generalizing rhs with
      | nil =>
        obtain rfl := List.map_eq_nil_iff.mp heq
        exact .nil
      | cons c cs ihcs =>
        obtain ⟨y, ys, rfl, hy, hys⟩ := List.map_eq_cons_iff.mp heq
        obtain ⟨hc, hrest⟩ := List.forall_mem_cons.mp hlex
        exact .cons (ih c List.mem_cons_self hc y hy.symm)
          (ihcs (fun d hd => hcs d (List.mem_cons_of_mem _ hd))
            (fun d hd => ih d (List.mem_cons_of_mem _ hd)) hrest ys hys)

theorem exists_tree {x : Symbol} {n : Node} (h : Derives x n) :
    ∃ c, Parses grammar c ∧ Lexed c ∧ c.sym = x.toSym ∧ toNode c = n := by
  induction hk : n.size using Nat.strongRecOn generalizing x n with
  | ind k ih =>
    subst hk
    cases h with
    | @token t s h =>
      refine ⟨.leaf t s, .leaf, fun p hp => ?_, rfl, rfl⟩
      rw [List.mem_singleton.mp hp]
      exact h
    | @rule m rhs ns hrhs hns =>
      have hsize : ∀ d ∈ ns, d.size < (node m.name ns).size := by
        intro d hd
        rw [node, if_neg (by simp [List.ne_nil_of_mem hd])]
        exact Node.size_lt hd
      have hall : ∃ cs : List Tree, (∀ c ∈ cs, Parses grammar c) ∧ (∀ c ∈ cs, Lexed c) ∧
          cs.map sym = rhs.map Symbol.toSym ∧ toNodes cs = ns := by
        clear hrhs
        generalize (node m.name ns).size = b at ih hsize
        induction hns with
        | nil => exact ⟨[], by simp, by simp, rfl, rfl⟩
        | @cons y d ys ds hy hys ihs =>
          obtain ⟨c, hp, hl, hsym, hnode⟩ := ih d.size (hsize d List.mem_cons_self) hy rfl
          obtain ⟨cs, hps, hls, hsyms, hnodes⟩ := ihs fun e he => hsize e (List.mem_cons_of_mem _ he)
          exact ⟨c :: cs, List.forall_mem_cons.mpr ⟨hp, hps⟩, List.forall_mem_cons.mpr ⟨hl, hls⟩,
            by rw [List.map_cons, List.map_cons, hsym, hsyms], by rw [toNodes, hnode, hnodes]⟩
      obtain ⟨cs, hp, hl, hsym, hnode⟩ := hall
      refine ⟨.node m cs, .node ?_ hp, lexed_node.mpr hl, rfl, by rw [toNode, hnode]⟩
      rw [hsym]
      exact List.mem_map_of_mem hrhs

/-- **The parse trees are those of `SyntaxTree`.** -/
theorem derives_iff {x : Symbol} {n : Node} :
    Derives x n ↔ ∃ c, Parses grammar c ∧ Lexed c ∧ c.sym = x.toSym ∧ toNode c = n := by
  refine ⟨exists_tree, ?_⟩
  rintro ⟨c, h, hl, hsym, rfl⟩
  exact derives_of_tree h hl x hsym

/-! ## The result -/

/-- **A sequence of tokens has at most one parse tree whose `else`s belong to the nearest `if`, and
how its expressions are grouped.** -/
theorem parse_unique :
    (∀ c c' : Tree, Parses grammar c → Parses grammar c' → Nearest grammar c → Nearest grammar c' →
      c.sym = c'.sym → c.yield = c'.yield → c = c') ∧
    ∀ c : Tree, Parses grammar c → Nearest grammar c → c.sym = .n .expression → IsExpression c :=
  ⟨fun _ _ => tree_unique, fun _ => isExpression_of⟩

/-- The expression that is the name `s`. -/
def nameTree (s : String) : Tree :=
  .node .expression [.node .simpleExpression [.node .additiveExpression [.node .term [.node .factor
    [.node .var [.leaf .ID s]]]]]]

/-- The statement `;`. -/
def emptyTree : Tree := .node .statement [.node .expressionStmt [.leaf .SEMICOLON ";"]]

/-- The statement `if (s)`, and `rest`. -/
def ifTree (s : String) (rest : List Tree) : Tree :=
  .node .statement [.node .selectionStmt
    ([.leaf .IF "if", .leaf .LPAREN "(", nameTree s, .leaf .RPAREN ")"] ++ rest)]

/-- `if (a) if (b) ; else ;`, the `else` to the second `if`. -/
def nearTree : Tree := ifTree "a" [ifTree "b" [emptyTree, .leaf .ELSE "else", emptyTree]]

/-- The same text, the `else` to the first. -/
def farTree : Tree := ifTree "a" [ifTree "b" [emptyTree], .leaf .ELSE "else", emptyTree]

theorem parse_unique_else : Parses grammar farTree ∧ farTree.yield = nearTree.yield ∧
    ¬ Nearest grammar farTree := by
  have hnear : Parses grammar nearTree := parses_of_check (by decide)
  have hfar : Parses grammar farTree := parses_of_check (by decide)
  refine ⟨hfar, rfl, fun h => ?_⟩
  have heq := parse_unique.1 farTree nearTree hfar hnear h (nearest_of_check (by decide)) rfl rfl
  simp [farTree, nearTree, ifTree] at heq

end Cminusfc.Frontend
