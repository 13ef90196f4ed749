import Cminusfc.Frontend.Reach
import Cminusfc.Frontend.TransformCorrect

/-!
# The name of a node

A `syntax_tree_node` has its name in an array of `SYNTAX_TREE_NODE_NAME_MAX` characters. `strncpy`
fills it, and leaves out the final NUL when the text is as long as the array or longer. Everything
behind the parser reads the array as a C string: `AST::transform_node_iter` copies it into the ids,
which are the keys of the builder's scopes.

* `cString_passNode`: a name is read back if and only if it is shorter than the array.
* `Node.read_store`: a parse tree is read back if its tokens are.
* `kept_iff`: two identifiers are kept apart exactly if both are shorter than the array.
* `passNode_merges`: two longer ones share their names.

Source: `src/common/syntax_tree.c` 6-15, `include/syntax_tree.h` 6-15, `pass_node` in
`src/parser/lexical_analyzer.l` 15-17. Out of scope: what a read behind the array finds.
-/

namespace Cminusfc.Frontend

open LightIR

/-! ## The array -/

/-- The character that ends a C string. -/
def nul : Char := Char.ofNat 0

/-- `char name[SYNTAX_TREE_NODE_NAME_MAX]`. -/
structure NameArray where
  chars : List Char
  length_eq : chars.length = nodeNameMax
  deriving DecidableEq

/-- What `strncpy` writes. -/
def strncpy (src : List Char) (n : Nat) : List Char :=
  src.take n ++ List.replicate (n - src.length) nul

theorem strncpy_length (src : List Char) (n : Nat) : (strncpy src n).length = n := by
  simp only [strncpy, List.length_append, List.length_take, List.length_replicate]
  omega

/-- `new_syntax_tree_node`, on memory that holds `old`. -/
def newSyntaxTreeNode (old : NameArray) : Option String → NameArray
  | some name => ⟨strncpy name.toList nodeNameMax, strncpy_length _ _⟩
  | none => ⟨old.chars.set 0 nul, List.length_set.trans old.length_eq⟩

/-- `pass_node`. -/
def passNode (old : NameArray) (text : String) : NameArray := newSyntaxTreeNode old (some text)

/-- The array as a C string. Reading on behind the array is undefined. -/
def NameArray.cString (a : NameArray) : Except Fault String :=
  if nul ∈ a.chars then .ok (String.ofList (a.chars.takeWhile (· ≠ nul))) else .error .undefined

/-! ## Trees -/

/-- `syntax_tree_node`, with its name as it is stored. -/
inductive StoredNode where
  | mk (name : NameArray) (children : List StoredNode)

mutual

/-- The tree the parser builds for `n`. -/
def Node.store (old : NameArray) : Node → StoredNode
  | .mk name cs => .mk (newSyntaxTreeNode old (some name)) (Node.stores old cs)

/-- The children. -/
def Node.stores (old : NameArray) : List Node → List StoredNode
  | [] => []
  | c :: cs => c.store old :: Node.stores old cs

end

mutual

/-- The tree as the names are read. -/
def StoredNode.read : StoredNode → Except Fault Node
  | .mk name cs => do
    let s ← name.cString
    let ns ← StoredNode.reads cs
    .ok (.mk s ns)

/-- The children. -/
def StoredNode.reads : List StoredNode → Except Fault (List Node)
  | [] => .ok []
  | c :: cs => do
    let n ← c.read
    let ns ← StoredNode.reads cs
    .ok (n :: ns)

end

/-- `transform_node_iter` of a stored tree. -/
def transformStored (fuel : Nat) (c : StoredNode) : Except Fault AstNode := do
  let n ← c.read
  transform fuel n

variable {a b s : String} {old : NameArray}

/-! ## What is read back -/

theorem strncpy_of_lt {src : List Char} {n : Nat} (h : src.length < n) :
    strncpy src n = src ++ List.replicate (n - src.length) nul := by
  rw [strncpy, List.take_of_length_le h.le]

theorem nul_mem_strncpy {src : List Char} {n : Nat} (hsrc : nul ∉ src) :
    nul ∈ strncpy src n ↔ src.length < n := by
  simp only [strncpy, List.mem_append, List.mem_replicate, and_true]
  constructor
  · rintro (hmem | hne)
    · exact absurd (List.mem_of_mem_take hmem) hsrc
    · omega
  · intro h
    right
    omega

theorem takeWhile_strncpy {src : List Char} {n : Nat} (hsrc : nul ∉ src) (h : src.length < n) :
    (strncpy src n).takeWhile (· ≠ nul) = src := by
  obtain ⟨k, hk⟩ : ∃ k, n - src.length = k + 1 := ⟨n - src.length - 1, by omega⟩
  rw [strncpy_of_lt h, hk, List.replicate_succ]
  refine all_takeWhile (fun c hc => ?_) (fun c hc => ?_)
  · simp only [ne_eq, decide_eq_true_eq]
    rintro rfl
    exact hsrc hc
  · cases hc
    simp

/-- **A name is read back if and only if it is shorter than the array.** -/
theorem cString_passNode (hs : nul ∉ s.toList) :
    (passNode old s).cString = .ok s ↔ s.length < nodeNameMax := by
  have hlen : s.toList.length = s.length := String.length_toList
  simp only [passNode, newSyntaxTreeNode, NameArray.cString, nul_mem_strncpy hs, hlen]
  by_cases h : s.length < nodeNameMax
  · rw [if_pos h, takeWhile_strncpy hs (by rwa [hlen]), String.ofList_toList]
    exact iff_of_true rfl h
  · rw [if_neg h]
    exact iff_of_false (fun h => by cases h) h

theorem nul_mem_passNode (hs : nul ∉ s.toList) :
    nul ∈ (passNode old s).chars ↔ s.length < nodeNameMax := by
  have hlen : s.toList.length = s.length := String.length_toList
  rw [← hlen]
  exact nul_mem_strncpy hs

/-- The names of a tree are read back. -/
def Short (s : String) : Prop := nul ∉ s.toList ∧ s.length < nodeNameMax

mutual

/-- A tree with short names is read back. -/
theorem Node.read_store_of (old : NameArray) : ∀ n : Node,
    (∀ m, Node.Sub m n → Short m.name) → (n.store old).read = .ok n
  | .mk name cs, h => by
    have hname : Short name := h _ .refl
    have hcs := Node.reads_stores_of old cs fun c hc m hm => h m (.child hc hm)
    simp only [Node.store, StoredNode.read]
    rw [show (newSyntaxTreeNode old (some name)).cString = .ok name from
      (cString_passNode hname.1).mpr hname.2, hcs]
    rfl

theorem Node.reads_stores_of (old : NameArray) : ∀ cs : List Node,
    (∀ c ∈ cs, ∀ m, Node.Sub m c → Short m.name) →
    StoredNode.reads (Node.stores old cs) = .ok cs
  | [], _ => rfl
  | c :: cs, h => by
    obtain ⟨hc, hcs⟩ := List.forall_mem_cons.mp h
    simp only [Node.stores, StoredNode.reads]
    rw [Node.read_store_of old c hc, Node.reads_stores_of old cs hcs]
    rfl

end

/-! ## Lexemes -/

theorem nul_not_mem_of_all {p : Char → Bool} {l : List Char} (h : ∀ c ∈ l, p c = true)
    (hnul : p nul = false) : nul ∉ l := by
  intro hmem
  rw [h nul hmem] at hnul
  cases hnul

theorem nul_not_mem_id (h : IsId s) : nul ∉ s.toList :=
  nul_not_mem_of_all (p := Char.isAlpha) (fun c hc => h.2.1 c hc) (by decide)

/-- No lexeme has a NUL. -/
theorem nul_not_mem_lexeme {t : Token} (h : t.Lexeme s) : nul ∉ s.toList := by
  cases t with
  | ID => exact nul_not_mem_id h
  | INTEGER => exact nul_not_mem_of_all (p := Char.isDigit) (fun c hc => h.2 c hc) (by decide)
  | FLOATPOINT =>
    obtain ⟨l, r, hs, hl, hr, -⟩ := h
    rw [hs]
    simp only [List.mem_append, List.mem_cons, not_or]
    exact ⟨nul_not_mem_of_all (p := Char.isDigit) (fun c hc => hl c hc) (by decide), by decide,
      nul_not_mem_of_all (p := Char.isDigit) (fun c hc => hr c hc) (by decide)⟩
  | _ =>
    obtain rfl : s = _ := h
    decide

theorem Nonterminal.short (n : Nonterminal) : Short n.name := by
  cases n <;> exact ⟨by decide, by decide⟩

/-- The names in a parse tree, those of its tokens apart. -/
theorem Derives.sub_name {m n : Node} (hm : Node.Sub m n) : ∀ {x : Symbol}, Derives x n →
    Short m.name ∨ (∃ t : Token, t.Lexeme m.name) ∧ m.children = [] := by
  induction hm with
  | refl =>
    intro x hn
    cases hn with
    | token h => exact Or.inr ⟨⟨_, h⟩, rfl⟩
    | rule hrhs hcs => exact Or.inl (Nonterminal.short _)
  | @child name cs c hc hm ih =>
    intro x hn
    generalize hk : Node.mk name cs = k at hn
    cases hn with
    | token h =>
      cases hk
      cases hc
    | @rule n rhs cs' hrhs hcs =>
      simp only [node, Node.mk.injEq] at hk
      obtain ⟨-, rfl⟩ := hk
      split at hc
      · obtain rfl := List.mem_singleton.mp hc
        cases hm with
        | refl => exact Or.inl ⟨by decide, by decide⟩
        | child hc' => cases hc'
      · obtain ⟨k, hk, rfl⟩ := List.mem_iff_getElem.mp hc
        have hk' : k < rhs.length := by rwa [hcs.length_eq]
        exact ih (hcs.get hk' hk)

/-- **A parse tree is read back if its tokens are.** -/
theorem Node.read_store (old : NameArray) {x : Symbol} {n : Node} (hn : Derives x n)
    (htokens : ∀ s, Node.Sub (.mk s []) n → s.length < nodeNameMax) :
    (n.store old).read = .ok n := by
  refine Node.read_store_of old n fun m hm => ?_
  rcases hn.sub_name hm with h | ⟨⟨t, ht⟩, hleaf⟩
  · exact h
  · cases m with
    | mk s cs =>
      obtain rfl : cs = [] := hleaf
      exact ⟨nul_not_mem_lexeme ht, htokens s hm⟩

/-! ## Two identifiers -/

/-- What has become of two identifiers `a` and `b`. -/
structure Kept (a b : String) : Prop where
  /-- The names are terminated inside their arrays, -/
  terminated : ∀ old, nul ∈ (passNode old a).chars ∧ nul ∈ (passNode old b).chars
  /-- differ, -/
  differ : ∀ old old', passNode old a ≠ passNode old' b
  /-- and are the lexemes when they are read. -/
  ids : ∀ old, (passNode old a).cString = .ok a ∧ (passNode old b).cString = .ok b
  /-- A program with no other long token has the ids of its source. -/
  transformed : ∀ old x n, Derives x n →
    (∀ s, Node.Sub (.mk s []) n → s = a ∨ s = b ∨ s.length < nodeNameMax) →
      ∀ fuel, transformStored fuel (n.store old) = transform fuel n
  /-- A scope that takes the one for a key finds under the other what it has found before. -/
  keys : ∀ old old' (s s' : Scope) (ia ib : String) (v : Value), (passNode old a).cString = .ok ia →
    (passNode old' b).cString = .ok ib → s.push ia v = some s' → s'.find ib = s.find ib

theorem find_push_ne {s s' : Scope} {v : Value} (hne : a ≠ b) (h : s.push a v = some s') :
    s'.find b = s.find b := by
  cases s with
  | nil => cases h
  | cons m rest =>
    obtain rfl := push_cases h
    have hbeq : (b == a) = false := beq_eq_false_iff_ne.mpr hne.symm
    simp only [Scope.find, List.lookup_cons, hbeq]

/-- **Two identifiers are kept apart exactly if both are shorter than the array**, then under their
own names. -/
theorem kept_iff (ha : IsId a) (hb : IsId b) (hne : a ≠ b) :
    Kept a b ↔ a.length < nodeNameMax ∧ b.length < nodeNameMax := by
  have hna := nul_not_mem_id ha
  have hnb := nul_not_mem_id hb
  constructor
  · intro h
    obtain ⟨h₁, h₂⟩ := h.terminated ⟨List.replicate nodeNameMax nul, List.length_replicate⟩
    exact ⟨(nul_mem_passNode hna).mp h₁, (nul_mem_passNode hnb).mp h₂⟩
  · rintro ⟨hla, hlb⟩
    have hida : ∀ old, (passNode old a).cString = .ok a := fun _ => (cString_passNode hna).mpr hla
    have hidb : ∀ old, (passNode old b).cString = .ok b := fun _ => (cString_passNode hnb).mpr hlb
    refine ⟨fun old => ⟨(nul_mem_passNode hna).mpr hla, (nul_mem_passNode hnb).mpr hlb⟩,
      fun old old' heq => ?_, fun old => ⟨hida old, hidb old⟩, fun old x n hn hlong fuel => ?_,
      fun old old' s s' ia ib v hia hib hpush => ?_⟩
    · have hread := hida old
      rw [heq, hidb old'] at hread
      cases hread
      exact hne rfl
    · have hread := Node.read_store old hn fun s hs => by
        rcases hlong s hs with rfl | rfl | h
        · exact hla
        · exact hlb
        · exact h
      simp only [transformStored, hread, Fallible.ok_bind]
    · rw [hida] at hia
      rw [hidb] at hib
      cases hia
      cases hib
      exact find_push_ne hne hpush

/-- Thirty `a`, and a last letter. -/
def longName (c : Char) : String := String.ofList (List.replicate 30 'a' ++ [c])

theorem isId_of (hne : s ≠ "") (hletters : s.toList.all Char.isAlpha = true) (hkey : s ∉ keywords) :
    IsId s :=
  ⟨hne, List.all_eq_true.mp hletters, hkey⟩

/-- The theorem at two short names. -/
theorem kept_x_y : Kept "x" "y" ↔ "x".length < nodeNameMax ∧ "y".length < nodeNameMax :=
  kept_iff (isId_of (by decide) (by decide) (by decide)) (isId_of (by decide) (by decide) (by decide))
    (by decide)

/-- **Two identifiers that share thirty characters share their names**, which no NUL ends. -/
theorem passNode_merges : IsId (longName 'b') ∧ IsId (longName 'c') ∧ longName 'b' ≠ longName 'c' ∧
    ∀ old, passNode old (longName 'b') = passNode old (longName 'c') ∧
      nul ∉ (passNode old (longName 'b')).chars ∧
      (passNode old (longName 'b')).cString = .error .undefined := by
  refine ⟨isId_of (by decide) (by decide) (by decide), isId_of (by decide) (by decide) (by decide),
    by decide, fun old => ?_⟩
  have hnul : nul ∉ (passNode old (longName 'b')).chars := by
    simp only [passNode, newSyntaxTreeNode]
    decide
  refine ⟨?_, hnul, if_neg hnul⟩
  simp only [passNode, newSyntaxTreeNode]
  decide

end Cminusfc.Frontend
