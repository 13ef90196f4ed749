import Mathlib.Data.List.Induction

/-!
# Unambiguous grammars

Parse trees of a context-free grammar, and a way to see that a text has at most one. An operator that
may be left out leaves a grammar ambiguous: `short` productions are those that leave it out, `late` is
the token it begins with. `Nearest` trees have no tree that ends with a short production in front of a
`late`.

Two trees of one symbol whose texts agree as far as the shorter one goes are the same (`Same`) if
neither is followed by a token that could go on with it. Three rules show this by induction on trees.

* `pair_same`: two right-hand sides are compared symbol by symbol; `compat` is the check, with tables
  for the first tokens of a symbol and those that must not follow it.
* `chain_same`: a left-recursive nonterminal is a list.
* `same_of`: all nonterminals at once, some pairs of productions left to an argument of their own.
-/

namespace Grammar

universe u

/-- A token or a nonterminal. -/
inductive Sym (K N : Type u) where
  | t (k : K)
  | n (n : N)
  deriving DecidableEq

/-- Parse trees; a leaf is a token with its text. -/
inductive Tree (K N P : Type u) where
  | leaf (k : K) (p : P)
  | node (n : N) (cs : List (Tree K N P))

/-- A grammar. -/
structure Rules (K N : Type u) where
  prod : N → List (List (Sym K N))
  short : N → List (Sym K N) → Bool
  late : K

variable {K N P : Type u}

namespace Tree

/-- The symbol at the root. -/
def sym : Tree K N P → Sym K N
  | leaf k _ => .t k
  | node n _ => .n n

mutual

/-- The text of a tree. -/
def yield : Tree K N P → List (K × P)
  | leaf k p => [(k, p)]
  | node _ cs => yields cs

/-- The text of a list of trees. -/
def yields : List (Tree K N P) → List (K × P)
  | [] => []
  | c :: cs => c.yield ++ yields cs

end

mutual

/-- The number of nodes. -/
def size : Tree K N P → Nat
  | leaf _ _ => 1
  | node _ cs => sizes cs + 1

/-- The number of nodes of a list of trees. -/
def sizes : List (Tree K N P) → Nat
  | [] => 0
  | c :: cs => c.size + sizes cs

end

/-- The tree is one of the grammar. -/
inductive Parses (R : Rules K N) : Tree K N P → Prop
  | leaf {k : K} {p : P} : Parses R (leaf k p)
  | node {n : N} {cs : List (Tree K N P)} (hrhs : cs.map sym ∈ R.prod n)
      (hcs : ∀ c ∈ cs, Parses R c) : Parses R (node n cs)

/-- The tree ends with a short production. -/
inductive Open (R : Rules K N) : Tree K N P → Prop
  | here {n : N} {cs : List (Tree K N P)} (h : R.short n (cs.map sym) = true) : Open R (node n cs)
  | last {n : N} {cs : List (Tree K N P)} {c : Tree K N P} (h : Open R c)
      (hlast : cs.getLast? = some c) : Open R (node n cs)

/-- Nowhere in the tree a short production ends in front of a `late`. -/
inductive Nearest (R : Rules K N) : Tree K N P → Prop
  | leaf {k : K} {p : P} : Nearest R (leaf k p)
  | node {n : N} {cs : List (Tree K N P)}
      (h : ∀ pre c p post, cs = pre ++ c :: leaf R.late p :: post → ¬ Open R c)
      (hcs : ∀ c ∈ cs, Nearest R c) : Nearest R (node n cs)

variable {R : Rules K N} {c : Tree K N P} {cs : List (Tree K N P)}

theorem size_le_sizes (h : c ∈ cs) : c.size ≤ sizes cs := by
  induction cs with
  | nil => cases h
  | cons d cs ih =>
    rw [sizes]
    rcases List.mem_cons.mp h with rfl | h
    · exact Nat.le_add_right _ _
    · exact Nat.le_trans (ih h) (Nat.le_add_left _ _)

theorem size_lt {n : N} (h : c ∈ cs) : c.size < (node n cs).size :=
  Nat.lt_succ_of_le (size_le_sizes h)

theorem sym_eq_n {n : N} (h : c.sym = .n n) : ∃ cs, c = node n cs := by
  cases c with
  | leaf k p => cases h
  | node m cs =>
    cases h
    exact ⟨cs, rfl⟩

theorem sym_eq_t {k : K} (h : c.sym = .t k) : ∃ p, c = leaf k p := by
  cases c with
  | leaf m p =>
    cases h
    exact ⟨p, rfl⟩
  | node m cs => cases h

mutual

/-- The check for `Open`. -/
def isOpen (R : Rules K N) : Tree K N P → Bool
  | leaf _ _ => false
  | node n cs => R.short n (cs.map sym) || lastOpen R cs

/-- The check for the last tree. -/
def lastOpen (R : Rules K N) : List (Tree K N P) → Bool
  | [] => false
  | c :: cs => if cs.isEmpty then c.isOpen R else lastOpen R cs

end

theorem Open.isOpen (h : c.Open R) : c.isOpen R = true := by
  induction h with
  | here h => rw [Tree.isOpen, h, Bool.true_or]
  | @last n cs c _ hlast ih =>
    have hall : ∀ ds : List (Tree K N P), ds.getLast? = some c → lastOpen R ds = true := by
      intro ds
      induction ds with
      | nil => exact fun h => by cases h
      | cons d ds ihd =>
        intro h
        cases ds with
        | nil =>
          obtain rfl := Option.some_inj.mp h
          exact ih
        | cons e ds => exact ihd (by rwa [List.getLast?_cons_cons] at h)
    rw [Tree.isOpen, hall cs hlast, Bool.or_true]

end Tree

open Grammar.Tree

/-! ## First tokens -/

/-- The tokens a nonterminal begins with, whether it may be empty, and the tokens that must not
follow it. -/
structure Tables (K N : Type u) where
  first : N → List K
  nullable : N → Bool
  excl : N → List K

namespace Tables

variable (T : Tables K N)

/-- The first tokens of a symbol. -/
def firstSym : Sym K N → List K
  | .t k => [k]
  | .n n => T.first n

/-- May the symbol be empty? -/
def nullableSym : Sym K N → Bool
  | .t _ => false
  | .n n => T.nullable n

/-- The tokens that must not follow a symbol. -/
def exclSym : Sym K N → List K
  | .t _ => []
  | .n n => T.excl n

/-- The first tokens of a right-hand side. -/
def next : List (Sym K N) → List K
  | [] => []
  | x :: xs => T.firstSym x ++ if T.nullableSym x then next xs else []

/-- The first tokens are those of the grammar. -/
structure Sound (R : Rules K N) : Prop where
  first : ∀ n, ∀ rhs ∈ R.prod n, ∀ k ∈ T.next rhs, k ∈ T.first n
  nullable : ∀ n, ∀ rhs ∈ R.prod n, rhs.all T.nullableSym = true → T.nullable n = true

end Tables

/-- The first token of a text. -/
def headKind (w : List (K × P)) : Option K := w.head?.map Prod.fst

variable {R : Rules K N} {T : Tables K N} {c : Tree K N P} {cs : List (Tree K N P)}

/-- What a list of trees begins with. -/
def Begins (T : Tables K N) (xs : List (Sym K N)) (w : List (K × P)) : Prop :=
  (w = [] ∧ xs.all T.nullableSym = true) ∨ ∃ k ∈ T.next xs, headKind w = some k

theorem begins_cons (hc : Begins T [c.sym] c.yield) (hcs : Begins T (cs.map sym) (yields cs)) :
    Begins T ((c :: cs).map sym) (yields (c :: cs)) := by
  rw [yields, List.map_cons]
  rcases hc with ⟨hnil, hnull⟩ | ⟨k, hk, hhead⟩
  · have hnull' : T.nullableSym c.sym = true := by simpa using hnull
    rw [hnil, List.nil_append]
    rcases hcs with ⟨hnil', hall⟩ | ⟨k, hk, hhead⟩
    · exact Or.inl ⟨hnil', by rw [List.all_cons, hnull', hall]; rfl⟩
    · exact Or.inr ⟨k, by simp [Tables.next, hnull', hk], hhead⟩
  · have hk' : k ∈ T.firstSym c.sym := by simpa [Tables.next] using hk
    refine Or.inr ⟨k, List.mem_append_left _ hk', ?_⟩
    cases hy : c.yield with
    | nil =>
      rw [hy] at hhead
      cases hhead
    | cons a w =>
      rw [hy] at hhead
      exact hhead

/-- **The first token of a tree.** -/
theorem begins (hT : T.Sound R) (h : c.Parses R) : Begins T [c.sym] c.yield := by
  induction h with
  | @leaf k p => exact Or.inr ⟨k, by simp [Tables.next, Tables.firstSym, sym], rfl⟩
  | @node n cs hrhs hcs ih =>
    have hall : ∀ ds : List (Tree K N P), (∀ d ∈ ds, Begins T [d.sym] d.yield) →
        Begins T (ds.map sym) (yields ds) := by
      intro ds
      induction ds with
      | nil => exact fun _ => Or.inl ⟨rfl, rfl⟩
      | cons d ds ihd =>
        intro hds
        obtain ⟨hd, hds⟩ := List.forall_mem_cons.mp hds
        exact begins_cons hd (ihd hds)
    rcases hall cs ih with ⟨hnil, hnull⟩ | ⟨k, hk, hhead⟩
    · exact Or.inl ⟨hnil, by simpa [Tables.nullableSym, sym] using hT.nullable n _ hrhs hnull⟩
    · refine Or.inr ⟨k, ?_, hhead⟩
      simpa [Tables.next, Tables.firstSym, sym] using Or.inl (hT.first n _ hrhs k hk)

theorem begins_all (hT : T.Sound R) : ∀ cs : List (Tree K N P), (∀ c ∈ cs, c.Parses R) →
    Begins T (cs.map sym) (yields cs)
  | [], _ => Or.inl ⟨rfl, rfl⟩
  | c :: cs, h => by
    obtain ⟨hc, hcs⟩ := List.forall_mem_cons.mp h
    exact begins_cons (begins hT hc) (begins_all hT cs hcs)

/-- What stands in front of `r` decides about the first token, unless it is empty. -/
theorem headKind_append (hT : T.Sound R) (h : ∀ c ∈ cs, c.Parses R) (r : List (K × P)) :
    (∃ k ∈ T.next (cs.map sym), headKind (yields cs ++ r) = some k) ∨
      (cs.map sym).all T.nullableSym = true ∧ headKind (yields cs ++ r) = headKind r := by
  rcases begins_all hT cs h with ⟨hnil, hnull⟩ | ⟨k, hk, hhead⟩
  · exact Or.inr ⟨hnull, by rw [hnil, List.nil_append]⟩
  · refine Or.inl ⟨k, hk, ?_⟩
    cases hy : yields cs with
    | nil =>
      rw [hy] at hhead
      cases hhead
    | cons a w =>
      rw [hy] at hhead
      exact hhead

/-! ## Two trees in front of two texts -/

/-- `r` does not go on with the tree. -/
def Follows (R : Rules K N) (T : Tables K N) (c : Tree K N P) (r : List (K × P)) : Prop :=
  (∀ k, headKind r = some k → k ∉ T.exclSym c.sym) ∧ (c.Open R → headKind r ≠ some R.late)

/-- The texts of the trees agree only if the trees do. -/
def Same (R : Rules K N) (T : Tables K N) (c c' : Tree K N P) : Prop :=
  ∀ r r', c.yield ++ r = c'.yield ++ r' → Follows R T c r → Follows R T c' r' → c = c' ∧ r = r'

theorem Same.symm {c c' : Tree K N P} (h : Same R T c c') : Same R T c' c := by
  intro r r' he hr hr'
  obtain ⟨rfl, rfl⟩ := h r' r he.symm hr' hr
  exact ⟨rfl, rfl⟩

variable [DecidableEq K]

/-- What follows the symbol `x` in front of `xs`, and in front of no token of `F`, may follow it. -/
def followOk (T : Tables K N) (F : List K) (x : Sym K N) (xs : List (Sym K N)) : Bool :=
  (T.next xs).all (fun k => k ∉ T.exclSym x) &&
    (!xs.all T.nullableSym || xs.isEmpty && (T.exclSym x).all (fun k => k ∈ F))

/-- The right-hand side `xs` goes on, in front of none of whose first tokens the other ends. -/
def goesOn (R : Rules K N) (T : Tables K N) (F : List K) (short : Bool) (xs : List (Sym K N)) : Bool :=
  !xs.all T.nullableSym && (T.next xs).all fun k => k ∈ F || k = R.late && short

/-- Trees in front of `r`: they are of the grammar, no open one stands in front of a `late`, and `r`
begins with no token of `F`. -/
structure Row (R : Rules K N) (T : Tables K N) (F : List K) (b : Bool) (cs : List (Tree K N P))
    (r : List (K × P)) : Prop where
  parses : ∀ c ∈ cs, c.Parses R
  guarded : ∀ pre c post, cs = pre ++ c :: post → c.Open R → R.late ∉ T.next (post.map sym)
  excl : ∀ k, headKind r = some k → k ∉ F
  short : b = true → headKind r ≠ some R.late
  last : ∀ c, cs.getLast? = some c → c.Open R → headKind r ≠ some R.late

omit [DecidableEq K] in
theorem Row.tail {F : List K} {b : Bool} {r : List (K × P)} (h : Row R T F b (c :: cs) r) :
    Row R T F b cs r where
  parses d hd := h.parses d (List.mem_cons_of_mem _ hd)
  guarded pre d post he := h.guarded (c :: pre) d post (by rw [he]; rfl)
  excl := h.excl
  short := h.short
  last d hd := by
    cases cs with
    | nil => cases hd
    | cons e cs => exact h.last d (by rwa [List.getLast?_cons_cons])

/-- The first tree of a row, and what follows it. -/
theorem Row.follows {F : List K} {b : Bool} {r : List (K × P)} (hT : T.Sound R)
    (h : Row R T F b (c :: cs) r) (hok : followOk T F c.sym (cs.map sym) = true) :
    Follows R T c (yields cs ++ r) := by
  simp only [followOk, Bool.and_eq_true, Bool.or_eq_true, List.all_eq_true, decide_eq_true_eq,
    Bool.not_eq_true'] at hok
  obtain ⟨hnext, hend⟩ := hok
  have hcs : ∀ d ∈ cs, d.Parses R := fun d hd => h.parses d (List.mem_cons_of_mem _ hd)
  rcases headKind_append hT hcs r with ⟨k, hk, hhead⟩ | ⟨hnull, hhead⟩
  · refine ⟨fun k' hk' => ?_, fun hopen => ?_⟩
    · rw [hhead] at hk'
      cases hk'
      exact hnext k hk
    · rw [hhead]
      rintro ⟨⟩
      exact h.guarded [] c cs rfl hopen hk
  · rcases hend with hnull' | ⟨hempty, hF⟩
    · rw [hnull] at hnull'
      cases hnull'
    · have hnil : cs = [] := by simpa using hempty
      subst hnil
      exact ⟨fun k hk hmem => h.excl k hk (hF k hmem), fun hopen => h.last c rfl hopen⟩

/-- Nothing is left of one row, something of the other. -/
theorem Row.absurd {F : List K} {b b' : Bool} {r r' : List (K × P)} (hT : T.Sound R)
    (h : Row R T F b ([] : List (Tree K N P)) r) (h' : Row R T F b' (c :: cs) r')
    (hok : goesOn R T F b ((c :: cs).map sym) = true) : r ≠ yields (c :: cs) ++ r' := by
  rintro rfl
  simp only [goesOn, Bool.and_eq_true, Bool.not_eq_true', List.all_eq_true, Bool.or_eq_true,
    decide_eq_true_eq] at hok
  obtain ⟨hnull, hnext⟩ := hok
  rcases headKind_append hT h'.parses r' with ⟨k, hk, hhead⟩ | ⟨hnull', -⟩
  · rcases hnext k hk with hF | ⟨rfl, hb⟩
    · exact h.excl k hhead hF
    · exact h.short hb hhead
  · rw [hnull] at hnull'
    cases hnull'

variable [DecidableEq N]

/-- Two right-hand sides can be told apart token by token, or are the same. -/
def compat (R : Rules K N) (T : Tables K N) (F : List K) (b b' : Bool) :
    List (Sym K N) → List (Sym K N) → Bool
  | [], [] => true
  | [], y :: ys => goesOn R T F b (y :: ys)
  | x :: xs, [] => goesOn R T F b' (x :: xs)
  | x :: xs, y :: ys =>
    if x = y then followOk T F x xs && followOk T F x ys && compat R T F b b' xs ys
    else !(x :: xs).all T.nullableSym && !(y :: ys).all T.nullableSym &&
      (T.next (x :: xs)).all fun k => k ∉ T.next (y :: ys)

/-- **Two rows whose texts agree are the same.** -/
theorem pair_same (hT : T.Sound R) {F : List K} {b b' : Bool} : ∀ (cs cs' : List (Tree K N P))
    (r r' : List (K × P)), (∀ c ∈ cs, ∀ c' ∈ cs', c.sym = c'.sym → Same R T c c') →
    compat R T F b b' (cs.map sym) (cs'.map sym) = true → Row R T F b cs r → Row R T F b' cs' r' →
    yields cs ++ r = yields cs' ++ r' → cs = cs' ∧ r = r' := by
  intro cs
  induction cs with
  | nil =>
    intro cs' r r' _ hok h h' he
    cases cs' with
    | nil => exact ⟨rfl, he⟩
    | cons c' cs' => exact absurd he (h.absurd hT h' hok)
  | cons c cs ih =>
    intro cs' r r' hsame hok h h' he
    cases cs' with
    | nil => exact absurd he.symm (h'.absurd hT h hok)
    | cons c' cs' =>
      simp only [List.map_cons, compat] at hok
      split at hok
      · rename_i hsym
        simp only [Bool.and_eq_true] at hok
        obtain ⟨⟨hf, hf'⟩, hrest⟩ := hok
        simp only [yields, List.append_assoc] at he
        obtain ⟨hc, hrow⟩ := hsame c List.mem_cons_self c' List.mem_cons_self hsym _ _ he
          (h.follows hT hf) (h'.follows hT (hsym ▸ hf'))
        obtain ⟨hcs, hr⟩ := ih cs' r r'
          (fun d hd d' hd' => hsame d (List.mem_cons_of_mem _ hd) d' (List.mem_cons_of_mem _ hd'))
          hrest h.tail h'.tail hrow
        exact ⟨by rw [hc, hcs], hr⟩
      · simp only [Bool.and_eq_true, Bool.not_eq_true', List.all_eq_true, decide_eq_true_eq] at hok
        obtain ⟨⟨hn, hn'⟩, hdis⟩ := hok
        rcases headKind_append hT h.parses r with ⟨k, hk, hhead⟩ | ⟨hnull, -⟩
        · rcases headKind_append hT h'.parses r' with ⟨k', hk', hhead'⟩ | ⟨hnull', -⟩
          · rw [he, hhead'] at hhead
            cases hhead
            exact absurd hk' (hdis k hk)
          · rw [List.map_cons, hn'] at hnull'
            cases hnull'
        · rw [List.map_cons, hn] at hnull
          cases hnull

/-! ## Left recursion -/

/-- The list with the elements `segs` behind `b`. -/
def spine (n : N) (b : List (Tree K N P)) (segs : List (List (Tree K N P))) : Tree K N P :=
  segs.foldl (fun l seg => .node n (l :: seg)) (.node n b)

/-- A nonterminal that is a list: what its elements are, and what it starts with. -/
structure Chain (R : Rules K N) (n : N) where
  elem : List (Sym K N)
  base : List (Sym K N)
  prod : R.prod n = [.n n :: elem, base]
  base_ne : base.head? ≠ some (.n n)

omit [DecidableEq K] [DecidableEq N] in
theorem yield_spine (n : N) (b : List (Tree K N P)) (segs : List (List (Tree K N P))) :
    (spine n b segs).yield = yields b ++ segs.flatMap yields := by
  induction segs using List.reverseRecOn with
  | nil => simp [spine, yield]
  | append_singleton segs seg ih =>
    rw [spine, List.foldl_append, List.foldl_cons, List.foldl_nil, yield, yields]
    change (spine n b segs).yield ++ _ = _
    rw [ih]
    simp

/-- The elements of a list. -/
structure Spined (R : Rules K N) {n : N} (C : Chain R n) (c : Tree K N P) (b : List (Tree K N P))
    (segs : List (List (Tree K N P))) : Prop where
  eq : c = spine n b segs
  base : b.map sym = C.base
  elems : ∀ seg ∈ segs, seg.map sym = C.elem
  parses : ∀ d, d ∈ b ∨ (∃ seg ∈ segs, d ∈ seg) → d.Parses R ∧ d.Nearest R ∧ d.size < c.size
  guarded : ∀ l, l = b ∨ l ∈ segs → ∀ pre d p post, l = pre ++ d :: Tree.leaf R.late p :: post →
    ¬ d.Open R

omit [DecidableEq K] [DecidableEq N] in
/-- **Every tree of the nonterminal is such a list.** -/
theorem Chain.spined {n : N} (C : Chain R n) : ∀ {c : Tree K N P}, c.Parses R → c.Nearest R →
    c.sym = .n n → ∃ b segs, Spined R C c b segs := by
  intro c hc
  induction hc with
  | leaf =>
    intro _ h
    cases h
  | @node m cs hrhs hcs ih =>
    intro hnear hsym
    cases hsym
    cases hnear with
    | node hguard hnear =>
      rw [C.prod, List.mem_cons, List.mem_singleton] at hrhs
      rcases hrhs with hrhs | hrhs
      · obtain ⟨l, seg, rfl, hl, hseg⟩ := List.map_eq_cons_iff.mp hrhs
        obtain ⟨b, segs, hspine⟩ := ih l List.mem_cons_self (hnear l List.mem_cons_self) hl
        refine ⟨b, segs ++ [seg], ?_, hspine.base, fun s hs => ?_, fun d hd => ?_, fun s hs => ?_⟩
        · rw [spine, List.foldl_append, List.foldl_cons, List.foldl_nil]
          change _ = Tree.node n (spine n b segs :: seg)
          rw [← hspine.eq]
        · rcases List.mem_append.mp hs with hs | hs
          · exact hspine.elems s hs
          · rw [List.mem_singleton.mp hs]
            exact hseg
        · have hself : ∀ d ∈ seg, d.Parses R ∧ d.Nearest R ∧ d.size < (node n (l :: seg)).size :=
            fun d hd => ⟨hcs d (List.mem_cons_of_mem _ hd), hnear d (List.mem_cons_of_mem _ hd),
              size_lt (List.mem_cons_of_mem _ hd)⟩
          have hold : ∀ d, d ∈ b ∨ (∃ s ∈ segs, d ∈ s) →
              d.Parses R ∧ d.Nearest R ∧ d.size < (node n (l :: seg)).size := by
            intro d hd
            obtain ⟨h₁, h₂, h₃⟩ := hspine.parses d hd
            exact ⟨h₁, h₂, Nat.lt_trans h₃ (size_lt List.mem_cons_self)⟩
          rcases hd with hd | ⟨s, hs, hd⟩
          · exact hold d (Or.inl hd)
          · rcases List.mem_append.mp hs with hs | hs
            · exact hold d (Or.inr ⟨s, hs, hd⟩)
            · exact hself d (List.mem_singleton.mp hs ▸ hd)
        · rcases hs with hs | hs
          · exact hspine.guarded s (Or.inl hs)
          · rcases List.mem_append.mp hs with hs | hs
            · exact hspine.guarded s (Or.inr hs)
            · rw [List.mem_singleton.mp hs]
              exact fun pre d p post he => hguard (l :: pre) d p post (by rw [he]; rfl)
      · refine ⟨cs, [], rfl, hrhs, by simp, fun d hd => ?_, fun s hs => ?_⟩
        · rcases hd with hd | ⟨s, hs, -⟩
          · exact ⟨hcs d hd, hnear d hd, size_lt hd⟩
          · cases hs
        · rcases hs with rfl | hs
          · exact hguard
          · cases hs

/-- A right-hand side has no `late` but as a token of its own. -/
def lateOk (R : Rules K N) (T : Tables K N) : List (Sym K N) → Bool
  | [] => true
  | _ :: xs => (R.late ∉ T.next xs || xs.head? = some (.t R.late)) && lateOk R T xs

theorem guarded_of : ∀ {cs : List (Tree K N P)}, lateOk R T (cs.map sym) = true →
    (∀ pre c p post, cs = pre ++ c :: Tree.leaf R.late p :: post → ¬ c.Open R) →
    ∀ pre c post, cs = pre ++ c :: post → c.Open R → R.late ∉ T.next (post.map sym) := by
  intro cs
  induction cs with
  | nil =>
    intro _ _ pre c post he
    simp at he
  | cons d cs ih =>
    intro hok h pre c post he hopen
    simp only [List.map_cons, lateOk, Bool.and_eq_true, Bool.or_eq_true, decide_eq_true_eq] at hok
    obtain ⟨hlate, hok⟩ := hok
    cases pre with
    | nil =>
      obtain ⟨rfl, rfl⟩ := List.cons.inj he
      rcases hlate with hlate | hlate
      · exact hlate
      · cases cs with
        | nil => cases hlate
        | cons x cs =>
          obtain ⟨p, rfl⟩ := sym_eq_t (Option.some_inj.mp hlate)
          exact absurd hopen (h [] d p cs rfl)
    | cons y pre =>
      obtain ⟨rfl, rfl⟩ := List.cons.inj he
      exact ih hok (fun pre c p post he => h (d :: pre) c p post (by rw [he]; rfl)) pre c post rfl hopen

/-- What the tables have to say about a list. -/
structure Chain.Ok (T : Tables K N) {n : N} (C : Chain R n) : Prop where
  nonempty : C.elem.all T.nullableSym = false
  excl : ∀ k ∈ T.next C.elem, k ∈ T.excl n
  late : R.late ∈ T.excl n ∧ R.late ∉ T.next C.elem
  lateOk : Grammar.lateOk R T C.elem = true ∧ Grammar.lateOk R T C.base = true
  elem : compat R T ((T.excl n).filter (· ∉ T.next C.elem)) false false C.elem C.elem = true
  base : compat R T ((T.excl n).filter (· ∉ T.next C.elem)) false false C.base C.base = true

section Chains

variable {n : N} {C : Chain R n} {segs : List (List (Tree K N P))} {r : List (K × P)}

theorem headKind_elems (hT : T.Sound R) (hC : C.Ok T)
    (h : ∀ seg ∈ segs, seg.map sym = C.elem ∧ ∀ c ∈ seg, c.Parses R) :
    (segs = [] ∧ segs.flatMap yields ++ r = r) ∨
      ∃ k ∈ T.next C.elem, headKind (segs.flatMap yields ++ r) = some k := by
  cases segs with
  | nil => exact Or.inl ⟨rfl, rfl⟩
  | cons seg segs =>
    obtain ⟨hsym, hparse⟩ := h seg List.mem_cons_self
    rw [List.flatMap_cons, List.append_assoc]
    rcases headKind_append hT hparse (segs.flatMap yields ++ r) with ⟨k, hk, hhead⟩ | ⟨hnull, -⟩
    · exact Or.inr ⟨k, hsym ▸ hk, hhead⟩
    · rw [hsym, hC.nonempty] at hnull
      cases hnull

/-- An element, or what stands in front of the first, in front of other elements. -/
theorem row_of_chain (cs : List (Tree K N P)) (hT : T.Sound R) (hC : C.Ok T)
    (h : ∀ seg ∈ segs, seg.map sym = C.elem ∧ ∀ c ∈ seg, c.Parses R)
    (hr : ∀ k, headKind r = some k → k ∉ T.excl n) (hcs : ∀ c ∈ cs, c.Parses R)
    (hlate : lateOk R T (cs.map sym) = true)
    (hguard : ∀ pre c p post, cs = pre ++ c :: Tree.leaf R.late p :: post → ¬ c.Open R) :
    Row R T ((T.excl n).filter (· ∉ T.next C.elem)) false cs (segs.flatMap yields ++ r) where
  parses := hcs
  guarded := guarded_of hlate hguard
  excl k hk := by
    rcases headKind_elems (r := r) hT hC h with ⟨-, he⟩ | ⟨k', hk', hhead⟩
    · rw [he] at hk
      exact fun hmem => hr k hk (List.mem_filter.mp hmem).1
    · rw [hhead] at hk
      cases hk
      simp [hk']
  short hb := by cases hb
  last c _ _ hk := by
    rcases headKind_elems (r := r) hT hC h with ⟨-, he⟩ | ⟨k', hk', hhead⟩
    · rw [he] at hk
      exact hr _ hk hC.late.1
    · rw [hhead] at hk
      cases hk
      exact hC.late.2 hk'

/-- **Two lists of elements whose texts agree are the same.** -/
theorem chain_same (hT : T.Sound R) (hC : C.Ok T) : ∀ (segs segs' : List (List (Tree K N P)))
    (r r' : List (K × P)),
    (∀ seg ∈ segs, seg.map sym = C.elem ∧ ∀ c ∈ seg, c.Parses R) →
    (∀ seg ∈ segs', seg.map sym = C.elem ∧ ∀ c ∈ seg, c.Parses R) →
    (∀ seg, seg ∈ segs ∨ seg ∈ segs' → ∀ pre c p post,
      seg = pre ++ c :: Tree.leaf R.late p :: post → ¬ c.Open R) →
    (∀ seg ∈ segs, ∀ seg' ∈ segs', ∀ c ∈ seg, ∀ c' ∈ seg', c.sym = c'.sym → Same R T c c') →
    (∀ k, headKind r = some k → k ∉ T.excl n) → (∀ k, headKind r' = some k → k ∉ T.excl n) →
    segs.flatMap yields ++ r = segs'.flatMap yields ++ r' → segs = segs' ∧ r = r' := by
  intro segs
  induction segs with
  | nil =>
    intro segs' r r' _ h' _ _ hr hr' he
    rcases headKind_elems (r := r') hT hC h' with ⟨rfl, he'⟩ | ⟨k, hk, hhead⟩
    · exact ⟨rfl, he⟩
    · rw [← he] at hhead
      exact absurd (hC.excl k hk) (hr k hhead)
  | cons seg segs ih =>
    intro segs' r r' h h' hguard hsame hr hr' he
    cases segs' with
    | nil =>
      rcases headKind_elems (r := r) hT hC h with ⟨hnil, -⟩ | ⟨k, hk, hhead⟩
      · cases hnil
      · rw [he] at hhead
        exact absurd (hC.excl k hk) (hr' k hhead)
    | cons seg' segs' =>
      obtain ⟨⟨hsym, hparse⟩, hrest⟩ := List.forall_mem_cons.mp h
      obtain ⟨⟨hsym', hparse'⟩, hrest'⟩ := List.forall_mem_cons.mp h'
      simp only [List.flatMap_cons, List.append_assoc] at he
      have hrow := row_of_chain seg hT hC hrest hr hparse (hsym ▸ hC.lateOk.1)
        (hguard seg (Or.inl List.mem_cons_self))
      have hrow' := row_of_chain seg' hT hC hrest' hr' hparse' (hsym' ▸ hC.lateOk.1)
        (hguard seg' (Or.inr List.mem_cons_self))
      obtain ⟨hseg, he⟩ := pair_same hT seg seg' _ _
        (hsame seg List.mem_cons_self seg' List.mem_cons_self)
        (by rw [hsym, hsym']; exact hC.elem) hrow hrow' he
      obtain ⟨hsegs, hend⟩ := ih segs' r r' hrest hrest'
        (fun s hs => hguard s (hs.imp (List.mem_cons_of_mem _) (List.mem_cons_of_mem _)))
        (fun s hs s' hs' => hsame s (List.mem_cons_of_mem _ hs) s' (List.mem_cons_of_mem _ hs'))
        hr hr' he
      exact ⟨by rw [hseg, hsegs], hend⟩

/-- **Two trees of a nonterminal that is a list.** -/
theorem spined_same (hT : T.Sound R) (hC : C.Ok T) {c c' : Tree K N P} (hc : c.Parses R)
    (hn : c.Nearest R) (hc' : c'.Parses R) (hn' : c'.Nearest R) (hsym : c.sym = .n n)
    (hsym' : c'.sym = .n n)
    (ih : ∀ d d' : Tree K N P, d.size < c.size → d'.size < c'.size → d.Parses R → d'.Parses R →
      d.Nearest R → d'.Nearest R → d.sym = d'.sym → Same R T d d') : Same R T c c' := by
  intro r r' he hr hr'
  obtain ⟨b, segs, hs⟩ := C.spined hc hn hsym
  obtain ⟨b', segs', hs'⟩ := C.spined hc' hn' hsym'
  have hsame : ∀ d d', (d ∈ b ∨ ∃ seg ∈ segs, d ∈ seg) → (d' ∈ b' ∨ ∃ seg ∈ segs', d' ∈ seg) →
      d.sym = d'.sym → Same R T d d' := by
    intro d d' hd hd' hdd
    obtain ⟨h₁, h₂, h₃⟩ := hs.parses d hd
    obtain ⟨h₁', h₂', h₃'⟩ := hs'.parses d' hd'
    exact ih d d' h₃ h₃' h₁ h₁' h₂ h₂' hdd
  have hexcl : ∀ k, headKind r = some k → k ∉ T.excl n := by
    have := hr.1
    rwa [hsym] at this
  have hexcl' : ∀ k, headKind r' = some k → k ∉ T.excl n := by
    have := hr'.1
    rwa [hsym'] at this
  have helems : ∀ seg ∈ segs, seg.map sym = C.elem ∧ ∀ d ∈ seg, d.Parses R := fun seg hseg =>
    ⟨hs.elems seg hseg, fun d hd => (hs.parses d (Or.inr ⟨seg, hseg, hd⟩)).1⟩
  have helems' : ∀ seg ∈ segs', seg.map sym = C.elem ∧ ∀ d ∈ seg, d.Parses R := fun seg hseg =>
    ⟨hs'.elems seg hseg, fun d hd => (hs'.parses d (Or.inr ⟨seg, hseg, hd⟩)).1⟩
  rw [hs.eq, hs'.eq, yield_spine, yield_spine, List.append_assoc, List.append_assoc] at he
  have hrow := row_of_chain b hT hC helems hexcl (fun d hd => (hs.parses d (Or.inl hd)).1)
    (hs.base ▸ hC.lateOk.2) (hs.guarded b (Or.inl rfl))
  have hrow' := row_of_chain b' hT hC helems' hexcl'
    (fun d hd => (hs'.parses d (Or.inl hd)).1) (hs'.base ▸ hC.lateOk.2) (hs'.guarded b' (Or.inl rfl))
  obtain ⟨hb, he⟩ := pair_same hT b b' _ _
    (fun d hd d' hd' => hsame d d' (Or.inl hd) (Or.inl hd'))
    (by rw [hs.base, hs'.base]; exact hC.base) hrow hrow' he
  obtain ⟨hsegs, hend⟩ := chain_same hT hC segs segs' r r' helems helems'
    (fun seg hseg => hseg.elim (fun h => hs.guarded seg (Or.inr h)) fun h => hs'.guarded seg (Or.inr h))
    (fun seg hseg seg' hseg' d hd d' hd' =>
      hsame d d' (Or.inr ⟨seg, hseg, hd⟩) (Or.inr ⟨seg', hseg', hd'⟩)) hexcl hexcl' he
  exact ⟨by rw [hs.eq, hs'.eq, hb, hsegs], hend⟩

end Chains

/-! ## All nonterminals -/

/-- The productions of a nonterminal can be told apart, those with `special` by an argument of their
own. -/
def Apart (R : Rules K N) (T : Tables K N) (special : N → List (Sym K N) → List (Sym K N) → Prop)
    (n : N) : Prop :=
  ∀ rhs ∈ R.prod n, lateOk R T rhs = true ∧ ∀ rhs' ∈ R.prod n,
    compat R T (T.excl n) (R.short n rhs) (R.short n rhs') rhs rhs' = true ∨
      special n rhs rhs' ∨ special n rhs' rhs

theorem row_of_node {n : N} {r : List (K × P)} (h : (node n cs).Parses R)
    (hnear : (node n cs).Nearest R) (hlate : lateOk R T (cs.map sym) = true)
    (hr : Follows R T (node n cs) r) : Row R T (T.excl n) (R.short n (cs.map sym)) cs r := by
  cases h with
  | node hrhs hcs =>
    cases hnear with
    | node hguard hnear =>
      exact ⟨hcs, guarded_of hlate hguard, hr.1, fun hb => hr.2 (.here hb),
        fun c hlast hopen => hr.2 (.last hopen hlast)⟩

/-- **Trees of one symbol whose texts agree are the same.** The induction is on both trees. -/
theorem same_of (hT : T.Sound R) {special : N → List (Sym K N) → List (Sym K N) → Prop}
    (hapart : ∀ n, (∃ C : Chain R n, C.Ok T) ∨ Apart R T special n)
    (hspecial : ∀ (n : N) (cs cs' : List (Tree K N P)), special n (cs.map sym) (cs'.map sym) →
      (node n cs).Parses R → (node n cs').Parses R → (node n cs).Nearest R →
      (node n cs').Nearest R →
      (∀ d d' : Tree K N P, d.size + d'.size < (node n cs).size + (node n cs').size →
        d.Parses R → d'.Parses R → d.Nearest R → d'.Nearest R → d.sym = d'.sym → Same R T d d') →
      ∀ r r', yields cs ++ r = yields cs' ++ r' → Follows R T (node n cs) r →
        ¬ Follows R T (node n cs') r') :
    ∀ c c' : Tree K N P, c.Parses R → c'.Parses R → c.Nearest R → c'.Nearest R →
      c.sym = c'.sym → Same R T c c' := by
  intro c c'
  induction hk : c.size + c'.size using Nat.strongRecOn generalizing c c' with
  | ind k ih =>
    subst hk
    intro hc hc' hn hn' hsym
    have hrec : ∀ d d' : Tree K N P, d.size + d'.size < c.size + c'.size → d.Parses R →
        d'.Parses R → d.Nearest R → d'.Nearest R → d.sym = d'.sym → Same R T d d' :=
      fun d d' hlt hd hd' hdn hdn' hdd => ih _ hlt d d' rfl hd hd' hdn hdn' hdd
    cases c with
    | leaf t p =>
      obtain ⟨p', rfl⟩ := sym_eq_t hsym.symm
      intro r r' he _ _
      simp only [yield, List.singleton_append, List.cons.injEq, Prod.mk.injEq, true_and] at he
      obtain ⟨rfl, rfl⟩ := he
      exact ⟨rfl, rfl⟩
    | node n cs =>
      obtain ⟨cs', rfl⟩ := sym_eq_n hsym.symm
      rcases hapart n with ⟨C, hC⟩ | hapart
      · exact spined_same hT hC hc hn hc' hn' rfl rfl fun d d' hlt hlt' h h' hdn hdn' hdd =>
          hrec d d' (Nat.add_lt_add hlt hlt') h h' hdn hdn' hdd
      · intro r r' he hr hr'
        have hprod : ∀ ds : List (Tree K N P), (node n ds).Parses R →
            ds.map sym ∈ R.prod n ∧ ∀ d ∈ ds, d.Parses R := by
          intro ds h
          cases h with
          | node hrhs hds => exact ⟨hrhs, hds⟩
        have hnear : ∀ ds : List (Tree K N P), (node n ds).Nearest R → ∀ d ∈ ds, d.Nearest R := by
          intro ds h
          cases h with
          | node _ hds => exact hds
        obtain ⟨hrhs, hcs⟩ := hprod cs hc
        obtain ⟨hrhs', hcs'⟩ := hprod cs' hc'
        simp only [yield] at he
        rcases (hapart _ hrhs).2 _ hrhs' with hok | hsp | hsp
        · obtain ⟨rfl, rfl⟩ := pair_same hT cs cs' r r'
            (fun d hd d' hd' hdd => hrec d d' (Nat.add_lt_add (size_lt hd) (size_lt hd')) (hcs d hd)
              (hcs' d' hd') (hnear cs hn d hd) (hnear cs' hn' d' hd') hdd) hok
            (row_of_node hc hn (hapart _ hrhs).1 hr) (row_of_node hc' hn' (hapart _ hrhs').1 hr') he
          exact ⟨rfl, rfl⟩
        · exact absurd hr' (hspecial n cs cs' hsp hc hc' hn hn' hrec r r' he hr)
        · refine absurd hr (hspecial n cs' cs hsp hc' hc hn' hn (fun d d' hlt => ?_) r' r he.symm hr')
          rw [Nat.add_comm (node n cs').size] at hlt
          exact hrec d d' hlt

/-! ## Checks -/

namespace Tree

mutual

/-- Is the tree one of the grammar? -/
def checkParses (R : Rules K N) : Tree K N P → Bool
  | leaf _ _ => true
  | node n cs => cs.map sym ∈ R.prod n && checkAll R cs

/-- Are the trees all of the grammar? -/
def checkAll (R : Rules K N) : List (Tree K N P) → Bool
  | [] => true
  | c :: cs => c.checkParses R && checkAll R cs

end

mutual

/-- Does no short production end in front of a `late`? -/
def checkNearest (R : Rules K N) : Tree K N P → Bool
  | leaf _ _ => true
  | node _ cs => checkRow R cs

/-- The same of trees that stand in a row. -/
def checkRow (R : Rules K N) : List (Tree K N P) → Bool
  | [] => true
  | c :: cs =>
    c.checkNearest R && (!c.isOpen R || cs.head?.map sym ≠ some (.t R.late)) && checkRow R cs

end

mutual

theorem parses_of_check : ∀ {c : Tree K N P}, c.checkParses R = true → c.Parses R
  | leaf _ _, _ => .leaf
  | node n cs, h => by
    simp only [checkParses, Bool.and_eq_true, decide_eq_true_eq] at h
    exact .node h.1 (all_of_check h.2)

theorem all_of_check : ∀ {cs : List (Tree K N P)}, checkAll R cs = true → ∀ c ∈ cs, c.Parses R
  | [], _ => fun _ h => absurd h List.not_mem_nil
  | c :: cs, h => by
    simp only [checkAll, Bool.and_eq_true] at h
    exact List.forall_mem_cons.mpr ⟨parses_of_check h.1, all_of_check h.2⟩

end

theorem checkRow_cons {c : Tree K N P} {cs : List (Tree K N P)} (h : checkRow R (c :: cs) = true) :
    c.checkNearest R = true ∧ (c.Open R → cs.head?.map sym ≠ some (.t R.late)) ∧
      checkRow R cs = true := by
  simp only [checkRow, Bool.and_eq_true, Bool.or_eq_true, Bool.not_eq_true', decide_eq_true_eq] at h
  refine ⟨h.1.1, fun hopen => h.1.2.resolve_left ?_, h.2⟩
  rw [hopen.isOpen]
  decide

mutual

theorem nearest_of_check : ∀ {c : Tree K N P}, c.checkNearest R = true → c.Nearest R
  | leaf _ _, _ => .leaf
  | node n cs, h => by
    rw [checkNearest] at h
    exact .node (row_of_check h).1 (row_of_check h).2

theorem row_of_check : ∀ {cs : List (Tree K N P)}, checkRow R cs = true →
    (∀ pre c p post, cs = pre ++ c :: leaf R.late p :: post → ¬ c.Open R) ∧ ∀ c ∈ cs, c.Nearest R
  | [], _ => ⟨fun pre c p post h => by simp at h, fun _ h => absurd h List.not_mem_nil⟩
  | c :: cs, h => by
    obtain ⟨hc, hlate, hcs⟩ := checkRow_cons h
    refine ⟨fun pre d p post he hopen => ?_, ?_⟩
    · cases pre with
      | nil =>
        simp only [List.nil_append, List.cons.injEq] at he
        obtain ⟨rfl, rfl⟩ := he
        exact hlate hopen rfl
      | cons e pre =>
        simp only [List.cons_append, List.cons.injEq] at he
        exact (row_of_check hcs).1 pre d p post he.2 hopen
    · exact List.forall_mem_cons.mpr ⟨nearest_of_check hc, (row_of_check hcs).2⟩

end

end Tree

end Grammar
