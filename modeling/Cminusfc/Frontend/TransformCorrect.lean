import Mathlib.Data.List.Forall2
import Mathlib.Tactic.NormNum
import Cminusfc.Frontend.Unparse
import Cminusfc.Lib.Fallible

/-!
# Leaves and lists of syntax trees

Results:
* `lexeme_id`, `lexeme_integer`, `lexeme_floatpoint`, `derives_word`: the text of each token.
* `derives_typeSpecifier`, `derives_relop`, `derives_addop`, `derives_mulop`: what is read from a
  node that stands for one word.
* `unroll2_spec`, `unroll3_spec`: the loops over left-recursive lists find all elements, in order.
* `declarations_spec`, `params_spec`, `listNodes_spec`, `commaList_spec`: so do the branches that
  use them, at any length.

About `src/common/ast.cpp` 44-212 and 498-529.
-/

namespace Cminusfc.Frontend

open LightIR
open Fallible (bind_ok ok_bind)

/-! ## Trees -/

theorem Node.Sub.trans {a b c : Node} (h : Node.Sub a b) (h' : Node.Sub b c) : Node.Sub a c := by
  induction h' with
  | refl => exact h
  | child hc _ ih => exact .child hc ih

theorem Node.size_le_sizes {c : Node} {cs : List Node} (h : c ∈ cs) : c.size ≤ Node.sizes cs := by
  induction cs with
  | nil => cases h
  | cons d cs ih =>
    rw [Node.sizes]
    rcases List.mem_cons.mp h with rfl | h
    · exact Nat.le_add_right _ _
    · exact Nat.le_trans (ih h) (Nat.le_add_left _ _)

/-- A child is smaller. -/
theorem Node.size_lt {name : String} {c : Node} {cs : List Node} (h : c ∈ cs) :
    c.size < (Node.mk name cs).size := Nat.lt_succ_of_le (Node.size_le_sizes h)

/-- The variables and the parameters of the tree are `int` or `float`, its integers fit in an
`int`, and its leaves in the array for a name. -/
structure Fits (t : Node) : Prop where
  declared : ∀ name specifier rest, Node.Sub (.mk name (specifier :: rest)) t →
    name = "var-declaration" ∨ name = "param" → ∀ c ∈ specifier.children, c.name ≠ "void"
  integers : ∀ s, Node.Sub (.mk s []) t → IsInteger s → decimal s.toList < 2 ^ 31
  short : ∀ s, Node.Sub (.mk s []) t → s.length < nodeNameMax

theorem Fits.sub {n t : Node} (h : Fits t) (hn : Node.Sub n t) : Fits n :=
  ⟨fun _ _ _ hsub => h.declared _ _ _ (hsub.trans hn), fun _ hsub => h.integers _ (hsub.trans hn),
    fun _ hsub => h.short _ (hsub.trans hn)⟩

theorem Fits.child {name : String} {c : Node} {cs : List Node} (h : Fits (.mk name cs))
    (hc : c ∈ cs) : Fits c := h.sub (.child hc .refl)

/-! ## Leaves -/

theorem all_takeWhile {p : Char → Bool} {l r : List Char} (h : ∀ c ∈ l, p c = true)
    (hr : ∀ c ∈ r.head?, p c = false) : (l ++ r).takeWhile p = l := by
  induction l with
  | nil =>
    cases r with
    | nil => rfl
    | cons c r =>
      have hc := hr c rfl
      simp [hc]
  | cons c l ih =>
    obtain ⟨hc, hl⟩ := List.forall_mem_cons.mp h
    simp [hc, ih hl]

theorem not_isDigit_of_isAlpha {c : Char} (h : c.isAlpha = true) : c.isDigit = false := by
  have h' : (decide ('A'.val ≤ c.val ∧ c.val ≤ 'Z'.val) ||
      decide ('a'.val ≤ c.val) && decide (c.val ≤ 'z'.val)) = true := h
  show (decide ('0'.val ≤ c.val) && decide (c.val ≤ '9'.val)) = false
  simp only [Bool.or_eq_true, Bool.and_eq_true, decide_eq_true_eq, Bool.and_eq_false_iff,
    decide_eq_false_iff_not, UInt32.le_iff_toNat_le] at h' ⊢
  have h0 : '0'.val.toNat = 48 := rfl
  have h9 : '9'.val.toNat = 57 := rfl
  have hA : 'A'.val.toNat = 65 := rfl
  have hZ : 'Z'.val.toNat = 90 := rfl
  have ha : 'a'.val.toNat = 97 := rfl
  have hz : 'z'.val.toNat = 122 := rfl
  omega

theorem lexeme_id {s : String} (h : IsId s) : lexeme s = .word s := by
  obtain ⟨hne, halpha, -⟩ := h
  obtain ⟨c, cs, hcs⟩ : ∃ c cs, s.toList = c :: cs := by
    cases hs : s.toList with
    | nil => exact absurd (String.toList_eq_nil_iff.mp hs) hne
    | cons c cs => exact ⟨c, cs, rfl⟩
  have hc : c.isAlpha = true := halpha c (by simp [hcs])
  have hnot := not_isDigit_of_isAlpha hc
  have hdot : '.' ∉ s.toList := fun hmem => by
    have := halpha _ hmem
    revert this
    decide
  rw [lexeme, if_neg, if_neg hdot]
  rintro ⟨-, hall⟩
  rw [List.all_eq_true.mp hall c (by simp [hcs])] at hnot
  cases hnot

theorem lexeme_integer {s : String} (h : IsInteger s) : lexeme s = .int (decimal s.toList) :=
  if_pos ⟨h.1, List.all_eq_true.mpr h.2⟩

theorem stoi_integer {s : String} (h : IsInteger s) (hfits : decimal s.toList < 2 ^ 31) :
    stoi s = .ok (decimal s.toList) := by
  have htake : s.toList.takeWhile Char.isDigit = s.toList := by
    have happend := all_takeWhile (r := []) h.2 (by simp)
    rwa [List.append_nil] at happend
  have hne : s.toList.isEmpty = false := by
    simp [h.1]
  rw [stoi, htake]
  simp only [hne, Bool.false_eq_true, if_false, if_pos hfits]

theorem digit_lt {c : Char} (h : c.isDigit = true) : c.toNat - '0'.toNat < 10 := by
  simp only [Char.isDigit, Bool.and_eq_true, decide_eq_true_eq, UInt32.le_iff_toNat_le,
    ge_iff_le] at h
  have h0 : '0'.val.toNat = 48 := rfl
  have h9 : '9'.val.toNat = 57 := rfl
  show c.val.toNat - '0'.val.toNat < 10
  omega

/-- The digits bound the number. -/
theorem decimal_lt {cs : List Char} (h : ∀ c ∈ cs, c.isDigit = true) :
    decimal cs < 10 ^ cs.length := by
  suffices hacc : ∀ n, cs.foldl (fun n c => 10 * n + (c.toNat - '0'.toNat)) n <
      (n + 1) * 10 ^ cs.length by simpa [decimal] using hacc 0
  induction cs with
  | nil => intro n; simp
  | cons c cs ih =>
    obtain ⟨hc, hcs⟩ := List.forall_mem_cons.mp h
    intro n
    have hdigit := digit_lt hc
    have hstep := ih hcs (10 * n + (c.toNat - '0'.toNat))
    refine Nat.lt_of_lt_of_le hstep ?_
    rw [List.length_cons, Nat.pow_succ, Nat.mul_comm (10 ^ cs.length), ← Nat.mul_assoc]
    exact Nat.mul_le_mul_right _ (by omega)

/-- A number of at most 30 digits is a normal float, or zero. -/
theorem roundFloat_ok {n k : Nat} (hn : n < 10 ^ 30) (hk : k ≤ 30) :
    ∃ x, roundFloat n (10 ^ k) = .ok x := by
  unfold roundFloat
  split_ifs with hzero hrange
  · exact ⟨_, rfl⟩
  · have hpow : 10 ^ k ≤ 10 ^ 30 := Nat.pow_le_pow_right (by decide) hk
    have hpos : 1 ≤ 10 ^ k := Nat.one_le_pow _ _ (by decide)
    exfalso
    rcases hrange with hsmall | hlarge
    · have hone : 2 ^ 126 ≤ n * 2 ^ 126 := Nat.le_mul_of_pos_left _ (Nat.pos_of_ne_zero hzero)
      have hlimit : (10 : Nat) ^ 30 ≤ 2 ^ 126 := by norm_num
      omega
    · have hmul : 2 ^ 128 - 2 ^ 103 ≤ 10 ^ k * (2 ^ 128 - 2 ^ 103) := Nat.le_mul_of_pos_left _ hpos
      have hlimit : (10 : Nat) ^ 30 ≤ 2 ^ 128 - 2 ^ 103 := by norm_num
      omega
  · exact ⟨_, rfl⟩

theorem stof_floatpoint {s : String} (h : IsFloatpoint s) (hlen : s.length < nodeNameMax) :
    ∃ x, stof s = .ok x := by
  obtain ⟨a, b, hs, ha, hb, hne⟩ := h
  have htake : s.toList.takeWhile Char.isDigit = a := by
    rw [hs]
    refine all_takeWhile ha ?_
    rintro c ⟨⟩
    rfl
  have hdrop : (s.toList.drop (a.length + 1)).takeWhile Char.isDigit = b := by
    have hrest : s.toList.drop (a.length + 1) = b := by
      rw [hs, ← List.drop_drop, List.drop_left, List.drop_one, List.tail_cons]
    have happend := all_takeWhile (r := []) hb (by simp)
    rw [List.append_nil] at happend
    rw [hrest, happend]
  have hdigits : ¬ (a.isEmpty && b.isEmpty) = true := by
    simp only [Bool.and_eq_true, List.isEmpty_iff]
    rintro ⟨rfl, rfl⟩
    simp at hne
  have hcount : (a ++ b).length + 1 = s.length := by
    rw [← String.length_toList, hs]
    simp only [List.length_append, List.length_cons]
    omega
  have hmax : nodeNameMax = 30 := rfl
  have hvalue := decimal_lt (List.forall_mem_append.mpr ⟨ha, hb⟩)
  have hlength : (a ++ b).length ≤ 30 := by omega
  have hlimit : 10 ^ (a ++ b).length ≤ 10 ^ 30 := pow_le_pow_right₀ (by decide) hlength
  have hstof : stof s = roundFloat (decimal (a ++ b)) (10 ^ b.length) := by
    unfold stof
    simp only [htake, hdrop]
    rw [if_neg hdigits]
  rw [List.length_append] at hcount
  have hk : b.length ≤ 30 := by omega
  rw [hstof]
  exact roundFloat_ok (Nat.lt_of_lt_of_le hvalue hlimit) hk

theorem lexeme_floatpoint {s : String} {x : BitVec 32} (h : IsFloatpoint s) (hx : stof s = .ok x) :
    lexeme s = .float x := by
  obtain ⟨a, b, hs, -⟩ := h
  have hdot : '.' ∈ s.toList := by simp [hs]
  rw [lexeme, if_neg, if_pos hdot, hx]
  rintro ⟨-, hall⟩
  exact absurd (List.all_eq_true.mp hall '.' hdot) (by decide)

/-! ## Children -/

namespace Node

variable (name : String) (c : Node) (cs : List Node)

@[simp] theorem name_mk : (mk name cs).name = name := rfl

@[simp] theorem children_mk : (mk name cs).children = cs := rfl

@[simp] theorem child_zero : (mk name (c :: cs)).child 0 = .ok c := rfl

@[simp] theorem child_succ (i : Nat) :
    (mk name (c :: cs)).child (i + 1) = (mk name cs).child i := rfl

end Node

/-! ## Texts -/

theorem Node.texts_eq (cs : List Node) : Node.texts cs = cs.map Node.text := by
  induction cs with
  | nil => rfl
  | cons c cs ih => rw [Node.texts, ih, List.map_cons]

theorem Node.text_leaf (s : String) : (Node.mk s []).text = [lexeme s] := by
  simp only [Node.text, joinText]
  rfl

theorem isMarker_of_ne {name : String} {cs : List Node} (h : name ∉ ["local-declarations",
    "statement-list", "args", "params"]) : isMarker name cs = false := by
  simp only [List.mem_cons, List.not_mem_nil, or_false, not_or] at h
  obtain ⟨h₁, h₂, h₃, h₄⟩ := h
  unfold isMarker
  split
  · simp [h₁, h₂, h₃, h₄]
  · rfl

theorem isMarker_of_children {name : String} {cs : List Node} (h : ∀ c ∈ cs, c.children ≠ []) :
    isMarker name cs = false := by
  unfold isMarker
  split
  · exact absurd rfl (h _ List.mem_cons_self)
  · rfl

/-- The leaves of a node are those of its children. -/
theorem Node.text_mk {name : String} {cs : List Node} (hne : cs ≠ [])
    (hmarker : isMarker name cs = false) (hfactor : name ≠ "factor") :
    (Node.mk name cs).text = cs.flatMap Node.text := by
  simp only [Node.text, Node.texts_eq, joinText, hmarker, List.flatMap_def]
  rw [if_neg (by simpa using hne), if_neg Bool.false_ne_true]
  split
  · rename_i l t r hmap
    simp [hfactor, hmap]
  · rfl

variable {x : Symbol} {n l e : Nonterminal} {t : Token} {c : Node} {cs : List Node}

/-! ## Nodes of the grammar -/

theorem derives_token (h : Derives (.t t) c) : ∃ s, t.Lexeme s ∧ c = .mk s [] := by
  cases h with
  | token h => exact ⟨_, h, rfl⟩

/-- A node of a nonterminal, with the children of one of its rules. -/
theorem derives_rule (h : Derives (.n n) c) :
    ∃ rhs ∈ productions n, ∃ cs, List.Forall₂ Derives rhs cs ∧ c = node n.name cs := by
  cases h with
  | rule hrhs hcs => exact ⟨_, hrhs, _, hcs, rfl⟩

theorem derives_id (h : Derives (.t .ID) c) : ∃ s, c = .mk s [] ∧ c.text = [.word s] := by
  obtain ⟨s, hs, rfl⟩ := derives_token h
  exact ⟨s, rfl, by rw [Node.text_leaf, lexeme_id hs]⟩

/-- The lexeme of a token that has only one. -/
def Token.word : Token → String
  | .INT_T => "int"
  | .VOID_T => "void"
  | .FLOAT_T => "float"
  | .LE => "<="
  | .LT => "<"
  | .GT => ">"
  | .GE => ">="
  | .EQ => "=="
  | .NEQ => "!="
  | .ADD => "+"
  | .MINUS => "-"
  | .MUL => "*"
  | .DIV => "/"
  | .ASSIGN => "="
  | .COLON => ","
  | .SEMICOLON => ";"
  | .LPAREN => "("
  | .RPAREN => ")"
  | .LBRACKET => "["
  | .RBRACKET => "]"
  | .LCURLY => "\x7b"
  | .RCURLY => "\x7d"
  | .IF => "if"
  | .ELSE => "else"
  | .WHILE => "while"
  | .RETURN => "return"
  | .ID | .INTEGER | .FLOATPOINT => ""

theorem derives_word (h : Derives (.t t) c) (ht : t ∉ [Token.ID, .INTEGER, .FLOATPOINT]) :
    c.text = [.word t.word] := by
  obtain ⟨s, hs, rfl⟩ := derives_token h
  rw [Node.text_leaf]
  cases t with
  | ID | INTEGER | FLOATPOINT => exact absurd (by decide) ht
  | _ =>
    obtain rfl : s = _ := hs
    decide

theorem derives_typeSpecifier (h : Derives (.n .typeSpecifier) c) :
    ∃ o, c = .mk "type-specifier" [o] ∧ c.text = [(functionTypeOf o.name).text] ∧
      (o.name ≠ "void" → variableTypeOf o.name = functionTypeOf o.name) := by
  obtain ⟨rhs, hrhs, cs, hcs, rfl⟩ := derives_rule h
  simp only [productions, List.mem_cons, List.not_mem_nil, or_false] at hrhs
  rcases hrhs with rfl | rfl | rfl
  all_goals
    obtain _ | ⟨h₁, ⟨⟩⟩ := hcs
    obtain ⟨s, hs, rfl⟩ := derives_token h₁
    obtain rfl : s = _ := hs
    refine ⟨_, rfl, ?_, by decide⟩
    decide

theorem derives_relop (h : Derives (.n .relop) c) :
    ∃ o, c = .mk "relop" [o] ∧ c.text = [(relOpOf o.name).text] := by
  obtain ⟨rhs, hrhs, cs, hcs, rfl⟩ := derives_rule h
  simp only [productions, List.mem_cons, List.not_mem_nil, or_false] at hrhs
  rcases hrhs with rfl | rfl | rfl | rfl | rfl | rfl
  all_goals
    obtain _ | ⟨h₁, ⟨⟩⟩ := hcs
    obtain ⟨s, hs, rfl⟩ := derives_token h₁
    obtain rfl : s = _ := hs
    exact ⟨_, rfl, by decide⟩

theorem derives_addop (h : Derives (.n .addop) c) :
    ∃ o, c = .mk "addop" [o] ∧ c.text = [(addOpOf o.name).text] := by
  obtain ⟨rhs, hrhs, cs, hcs, rfl⟩ := derives_rule h
  simp only [productions, List.mem_cons, List.not_mem_nil, or_false] at hrhs
  rcases hrhs with rfl | rfl
  all_goals
    obtain _ | ⟨h₁, ⟨⟩⟩ := hcs
    obtain ⟨s, hs, rfl⟩ := derives_token h₁
    obtain rfl : s = _ := hs
    exact ⟨_, rfl, by decide⟩

theorem derives_mulop (h : Derives (.n .mulop) c) :
    ∃ o, c = .mk "mulop" [o] ∧ c.text = [(mulOpOf o.name).text] := by
  obtain ⟨rhs, hrhs, cs, hcs, rfl⟩ := derives_rule h
  simp only [productions, List.mem_cons, List.not_mem_nil, or_false] at hrhs
  rcases hrhs with rfl | rfl
  all_goals
    obtain _ | ⟨h₁, ⟨⟩⟩ := hcs
    obtain ⟨s, hs, rfl⟩ := derives_token h₁
    obtain rfl : s = _ := hs
    exact ⟨_, rfl, by decide⟩

/-! ## Lists -/

theorem commaText_snoc {ts : List (List Lexeme)} {u : List Lexeme} (h : ts ≠ []) :
    commaText (ts ++ [u]) = commaText ts ++ .word "," :: u := by
  induction ts with
  | nil => exact absurd rfl h
  | cons t ts ih =>
    cases ts with
    | nil => rfl
    | cons t' ts =>
      have hstep := ih (by simp)
      simp only [List.cons_append, commaText] at hstep ⊢
      rw [hstep]
      simp

theorem Node.text_node {m : Nonterminal} {cs : List Node} (hne : cs ≠ [])
    (hmarker : isMarker m.name cs = false) (hfactor : m ≠ .factor) :
    (node m.name cs).text = cs.flatMap Node.text := by
  have hnode : node m.name cs = .mk m.name cs := by
    rw [node, if_neg (by simpa using hne)]
  rw [hnode]
  refine Node.text_mk hne hmarker fun h => hfactor ?_
  cases m <;> first | rfl | exact absurd h (by decide)

/-- The same for the rules of all but five nonterminals. -/
theorem Node.text_rule {m : Nonterminal} {cs : List Node} (hne : cs ≠ [])
    (hm : m ∉ [Nonterminal.localDeclarations, .statementList, .args, .params, .factor]) :
    (node m.name cs).text = cs.flatMap Node.text := by
  refine Node.text_node hne (isMarker_of_ne ?_) fun h => hm (by simp [h])
  cases m <;> first | decide | exact absurd (by decide) hm

/-- The elements of a list, with what is known of each. -/
structure Elements (e : Nonterminal) (n : Node) (xs : List Node) : Prop where
  derives : ∀ x ∈ xs, Derives (.n e) x
  sub : ∀ x ∈ xs, Node.Sub x n
  size : ∀ x ∈ xs, x.size < n.size

theorem Elements.nil : Elements e c [] := ⟨by simp, by simp, by simp⟩

theorem Elements.child {name : String} (h : Elements e c cs) {ds : List Node} (hc : c ∈ ds) :
    Elements e (.mk name ds) cs :=
  ⟨h.derives, fun x hx => .child hc (h.sub x hx),
    fun x hx => Nat.lt_trans (h.size x hx) (Node.size_lt hc)⟩

theorem Elements.snoc {name : String} {ds xs : List Node} {y : Node}
    (h : Elements e (.mk name ds) xs) (hy : Derives (.n e) y) (hmem : y ∈ ds) :
    Elements e (.mk name ds) (xs ++ [y]) := by
  refine ⟨fun x hx => ?_, fun x hx => ?_, fun x hx => ?_⟩ <;>
    rcases List.mem_append.mp hx with hx | hx
  · exact h.derives x hx
  · exact List.mem_singleton.mp hx ▸ hy
  · exact h.sub x hx
  · exact List.mem_singleton.mp hx ▸ .child hmem .refl
  · exact h.size x hx
  · exact List.mem_singleton.mp hx ▸ Node.size_lt hmem

/-- The loop over a list without separators, down to a node of the other rule. -/
theorem unroll2_spec {rhs : List Symbol} (hl : productions l = [[.n l, .n e], rhs])
    (hrhs : rhs.length ≤ 1) (hfactor : l ≠ .factor) : ∀ c, Derives (.n l) c →
      ∃ xs base, (∀ s, unroll2 c s = (xs ++ s, .mk l.name base)) ∧ Elements e c xs ∧
        (∃ cs, List.Forall₂ Derives rhs cs ∧ .mk l.name base = node l.name cs) ∧
        (∀ y ∈ base, Node.Sub y c ∧ y.size < c.size) ∧
        c.text = (Node.mk l.name base).text ++ xs.flatMap Node.text := by
  intro c
  induction hm : c.size using Nat.strongRecOn generalizing c with
  | ind m ih =>
    intro h
    obtain ⟨rhs', hrhs', cs, hcs, rfl⟩ := derives_rule h
    subst hm
    simp only [hl, List.mem_cons, List.not_mem_nil, or_false] at hrhs'
    rcases hrhs' with rfl | rfl
    · obtain _ | ⟨h₁, _ | ⟨h₂, ⟨⟩⟩⟩ := hcs
      rename_i c₁ c₂
      have hsize : c₁.size < (Node.mk l.name [c₁, c₂]).size := Node.size_lt (by simp)
      obtain ⟨xs, base, hun, hel, hbase, hsub, htext⟩ := ih _ hsize c₁ rfl h₁
      have hmem : c₁ ∈ [c₁, c₂] := by simp
      refine ⟨xs ++ [c₂], base, fun s => ?_, (hel.child hmem).snoc h₂ (by simp), hbase,
        fun y hy => ⟨.child hmem (hsub y hy).1, Nat.lt_trans (hsub y hy).2 (Node.size_lt hmem)⟩, ?_⟩
      · show unroll2 c₁ (c₂ :: s) = _
        rw [hun, List.append_assoc]
        rfl
      · rw [Node.text_node (by simp) (by simp [isMarker]) hfactor]
        simp [htext]
    · obtain ⟨base, hnode⟩ : ∃ base, node l.name cs = .mk l.name base := ⟨_, rfl⟩
      have hlen : base.length ≤ 1 := by
        rw [node, Node.mk.injEq] at hnode
        obtain ⟨-, rfl⟩ := hnode
        have := hcs.length_eq
        split_ifs
        · exact Nat.le_refl 1
        · omega
      rw [hnode]
      refine ⟨[], base, fun s => ?_, .nil, ⟨cs, hcs, hnode.symm⟩,
        fun y hy => ⟨.child hy .refl, Node.size_lt hy⟩, by simp⟩
      match base, hlen with
      | [], _ | [_], _ => rfl

/-- The loop over a list with commas, down to its first element. -/
theorem unroll3_spec (hl : productions l = [[.n l, .t .COLON, .n e], [.n e]]) (hfactor : l ≠ .factor)
    (hmarker : l.name ∉ ["local-declarations", "statement-list", "args", "params"]) :
    ∀ c, Derives (.n l) c → ∃ x xs, (∀ s, unroll3 c s = (xs ++ s, .mk l.name [x])) ∧
      Elements e c (x :: xs) ∧ c.text = commaText ((x :: xs).map Node.text) := by
  intro c
  induction hm : c.size using Nat.strongRecOn generalizing c with
  | ind m ih =>
    intro h
    obtain ⟨rhs, hrhs, cs, hcs, rfl⟩ := derives_rule h
    subst hm
    simp only [hl, List.mem_cons, List.not_mem_nil, or_false] at hrhs
    rcases hrhs with rfl | rfl
    · obtain _ | ⟨h₁, _ | ⟨h₂, _ | ⟨h₃, ⟨⟩⟩⟩⟩ := hcs
      rename_i c₁ c₂ c₃
      have hsize : c₁.size < (Node.mk l.name [c₁, c₂, c₃]).size := Node.size_lt (by simp)
      obtain ⟨x, xs, hun, hel, htext⟩ := ih _ hsize c₁ rfl h₁
      have hcomma : c₂.text = [.word ","] := derives_word h₂ (by decide)
      refine ⟨x, xs ++ [c₃], fun s => ?_, ?_, ?_⟩
      · show unroll3 c₁ (c₃ :: s) = _
        rw [hun, List.append_assoc]
        rfl
      · exact (hel.child (by simp)).snoc h₃ (by simp)
      · rw [Node.text_node (by simp) (isMarker_of_ne hmarker) hfactor, ← List.cons_append,
          List.map_append]
        simp only [List.flatMap_cons, List.flatMap_nil, htext, hcomma, List.append_nil]
        rw [List.map_singleton, commaText_snoc (by simp)]
        rfl
    · obtain _ | ⟨h₁, ⟨⟩⟩ := hcs
      rename_i c₁
      refine ⟨c₁, [], fun s => rfl, ?_, ?_⟩
      · have hmem : c₁ ∈ [c₁] := by simp
        exact ⟨List.forall_mem_singleton.mpr h₁, List.forall_mem_singleton.mpr (.child hmem .refl),
          List.forall_mem_singleton.mpr (Node.size_lt hmem)⟩
      · rw [Node.text_node (by simp) (isMarker_of_ne hmarker) hfactor]
        simp [commaText]

/-- A list that may be empty. -/
theorem listNodes_spec (hl : productions l = [[.n l, .n e], []]) (hfactor : l ≠ .factor)
    (hmarker : l = .localDeclarations ∨ l = .statementList) (h : Derives (.n l) c) :
    Elements e c (listNodes c) ∧ c.text = (listNodes c).flatMap Node.text := by
  obtain ⟨xs, base, hun, hel, ⟨cs, hcs, hnode⟩, -, htext⟩ :=
    unroll2_spec hl (by simp) hfactor c h
  cases hcs
  have hbase : (Node.mk l.name base).text = [] := by
    rw [hnode]
    rcases hmarker with rfl | rfl <;> decide
  rw [hbase, List.nil_append] at htext
  have hxs : (unroll2 c []).1 = xs := by rw [hun, List.append_nil]
  obtain ⟨rhs, hrhs, cs, hcs, rfl⟩ := derives_rule h
  simp only [hl, List.mem_cons, List.not_mem_nil, or_false] at hrhs
  rcases hrhs with rfl | rfl
  · obtain _ | ⟨h₁, _ | ⟨h₂, ⟨⟩⟩⟩ := hcs
    have hlist : listNodes (node l.name [_, _]) = xs := hxs
    rw [hlist]
    exact ⟨hel, htext⟩
  · cases hcs
    obtain rfl : xs = [] := hxs.symm
    exact ⟨.nil, htext⟩

/-- The declarations of a program. -/
theorem declarations_spec (h : Derives (.n .declarationList) c) :
    ∃ xs, unrolled (unroll2 c []) = .ok xs ∧ Elements .declaration c xs ∧
      c.text = xs.flatMap Node.text := by
  obtain ⟨xs, base, hun, hel, ⟨cs, hcs, hnode⟩, hsub, htext⟩ :=
    unroll2_spec (e := .declaration) rfl (by simp) (by decide) c h
  obtain _ | ⟨h₁, ⟨⟩⟩ := hcs
  rename_i c₁
  obtain rfl : base = [c₁] := (Node.mk.inj hnode).2
  obtain ⟨hsub₁, hsize₁⟩ := hsub c₁ (by simp)
  refine ⟨c₁ :: xs, ?_, ?_, ?_⟩
  · rw [hun, List.append_nil]
    rfl
  · exact ⟨List.forall_mem_cons.mpr ⟨h₁, hel.derives⟩, List.forall_mem_cons.mpr ⟨hsub₁, hel.sub⟩,
      List.forall_mem_cons.mpr ⟨hsize₁, hel.size⟩⟩
  · rw [htext, Node.text_mk (by simp) (isMarker_of_ne (by decide)) (by decide)]
    simp

/-- A list with commas. -/
theorem commaList_spec (hl : productions l = [[.n l, .t .COLON, .n e], [.n e]])
    (hfactor : l ≠ .factor)
    (hmarker : l.name ∉ ["local-declarations", "statement-list", "args", "params"])
    (h : Derives (.n l) c) :
    ∃ xs, unrolled (unroll3 c []) = .ok xs ∧ Elements e c xs ∧
      c.text = commaText (xs.map Node.text) := by
  obtain ⟨x, xs, hun, hel, htext⟩ := unroll3_spec hl hfactor hmarker c h
  refine ⟨x :: xs, ?_, hel, htext⟩
  rw [hun, List.append_nil]
  rfl

/-- The parameters of a function. -/
theorem params_spec (h : Derives (.n .params) c) : ∃ list xs, c.child 0 = .ok list ∧
    paramNodes list = .ok xs ∧ Elements .param c xs ∧ c.text = commaText (xs.map Node.text) := by
  obtain ⟨rhs, hrhs, cs, hcs, rfl⟩ := derives_rule h
  simp only [productions, List.mem_cons, List.not_mem_nil, or_false] at hrhs
  rcases hrhs with rfl | rfl
  · obtain _ | ⟨h₁, ⟨⟩⟩ := hcs
    rename_i list
    obtain ⟨xs, hun, hel, htext⟩ := commaList_spec (e := .param) rfl (by decide) (by decide) h₁
    have hne : list.children ≠ [] := by
      obtain ⟨rhs, hrhs, cs, hcs, rfl⟩ := derives_rule h₁
      simp only [productions, List.mem_cons, List.not_mem_nil, or_false] at hrhs
      rcases hrhs with rfl | rfl <;> cases hcs <;> exact List.cons_ne_nil _ _
    refine ⟨list, xs, rfl, ?_, hel.child (List.mem_singleton_self _), ?_⟩
    · rw [paramNodes, if_neg (by simpa using hne), hun]
    · rw [Node.text_node (by simp) (isMarker_of_children (by simpa using hne)) (by decide)]
      simp [htext]
  · obtain _ | ⟨h₁, ⟨⟩⟩ := hcs
    obtain ⟨s, hs, rfl⟩ := derives_token h₁
    obtain rfl : s = _ := hs
    exact ⟨.mk "void" [], [], rfl, rfl, .nil, by decide⟩

end Cminusfc.Frontend
