import Mathlib.Data.List.Induction
import Mathlib.Data.List.Perm.Subperm
import Cminusfc.Codegen.RegAlloc

/-!
# What the intervals of `init_func` cover

The walk of `init_func` is a fold over one list, the `text`: every instruction of a numbered block
with its `point`, in increasing order (`text_sorted`). The interval of a value starts at its
definition and ends at its last use in the text (`init_interval`).

* `dfs_ordered`: the search numbers the reachable blocks, and every block but the entry has a
  predecessor with a smaller number.
* `LiveAt.le_stop`, `LiveAt.entry`: how liveness travels against the order of the text. Nothing is
  lost along edges to larger numbers; along an edge to a smaller one the interval covers only what
  the text shows behind the end of the block.
* `interval_covers_iff`: when the interval of a value covers every point where it is live.

About `RegAlloc::dfs` and `RegAlloc::init_func`, `src/codegen/regalloc.cpp` 77-147.
-/

namespace Cminusfc.Codegen.RegAlloc

open Cminusfc.LightIR

/-! ## Points -/

namespace Point

theorem lt_iff {l r : Point} :
    l < r ↔ l.bbindex < r.bbindex ∨ l.bbindex = r.bbindex ∧ l.lineNo < r.lineNo :=
  Iff.rfl

theorem le_iff {l r : Point} :
    l ≤ r ↔ l.bbindex < r.bbindex ∨ l.bbindex = r.bbindex ∧ l.lineNo ≤ r.lineNo := by
  show ¬ r < l ↔ _
  rw [lt_iff]
  omega

theorem le_refl (l : Point) : l ≤ l := le_iff.mpr (by omega)

theorem le_trans {l r q : Point} (h : l ≤ r) (h' : r ≤ q) : l ≤ q := by
  rw [le_iff] at *
  omega

theorem le_of_lt {l r : Point} (h : l < r) : l ≤ r := by
  rw [lt_iff] at h
  rw [le_iff]
  omega

theorem not_le {l r : Point} : ¬ l ≤ r ↔ r < l := Decidable.not_not

theorem lt_of_lt_of_le {l r q : Point} (h : l < r) (h' : r ≤ q) : l < q := by
  rw [lt_iff] at *
  rw [le_iff] at h'
  omega

end Point

variable {f : Func} {o : Order} {v : Value} {b s : BlockId} {k : Nat}

/-! ## The order of the blocks -/

/-- What `dfs` leaves. -/
structure Ordered (f : Func) (o : Order) : Prop where
  sorted : o.int2bb.Pairwise fun x y => x.1 < y.1
  mem_iff : ∀ n b, (n, b) ∈ o.int2bb ↔ f.Reach b ∧ o.bb2int b = n
  pos : ∀ b, f.Reach b → 0 < o.bb2int b
  parent : ∀ b, f.Reach b → b ≠ f.entry → ∃ a, f.Reach a ∧ b ∈ f.succ a ∧ o.bb2int a < o.bb2int b

/-- Numbering a list of distinct blocks downwards from `c`. -/
theorem foldl_number (c : Int) (post : List BlockId) (hnd : post.Nodup) :
    let o := post.foldl number ⟨c, [], fun _ => 0⟩
    o.c = c - post.length ∧ o.int2bb = (post.map fun b => (o.bb2int b, b)).reverse ∧
      post.Pairwise (fun a b => o.bb2int b < o.bb2int a) ∧
      ∀ b ∈ post, c - post.length < o.bb2int b := by
  induction post using List.reverseRecOn with
  | nil => simp
  | append_singleton post x ih =>
    obtain ⟨hnd', -, hdisj⟩ := List.nodup_append.mp hnd
    have hx : ∀ b ∈ post, b ≠ x := fun b hb => hdisj b hb x List.mem_cons_self
    obtain ⟨h1, h2, h3, h4⟩ := ih hnd'
    generalize hp : post.foldl number ⟨c, [], fun _ => 0⟩ = p at h1 h2 h3 h4
    have hfold : (post ++ [x]).foldl number ⟨c, [], fun _ => 0⟩ = number p x := by
      rw [List.foldl_append, hp]
      rfl
    have hsame : ∀ b ∈ post, (number p x).bb2int b = p.bb2int b := fun b hb => by
      simp [number, Function.update_of_ne (hx b hb)]
    have hself : (number p x).bb2int x = p.c := by simp [number]
    have hlen : (((post ++ [x]).length : Nat) : Int) = post.length + 1 := by simp
    rw [hfold]
    refine ⟨?_, ?_, ?_, ?_⟩
    · rw [hlen]
      simp only [number, h1]
      omega
    · have hmap : (post.map fun b => ((number p x).bb2int b, b)) =
          post.map fun b => (p.bb2int b, b) :=
        List.map_congr_left fun b hb => by rw [hsame b hb]
      rw [List.map_append, hmap, List.reverse_append, ← h2]
      simp [number]
    · refine List.pairwise_append.mpr ⟨?_, List.pairwise_singleton _ _, ?_⟩
      · refine h3.imp_of_mem fun {a b} ha hb hab => ?_
        rw [hsame a ha, hsame b hb]
        exact hab
      · intro a ha y hy
        rw [List.mem_singleton.mp hy, hsame a ha, hself, h1]
        exact h4 a ha
    · intro b hb
      rw [hlen]
      rcases List.mem_append.mp hb with hb | hb
      · rw [hsame b hb]
        have := h4 b hb
        omega
      · rw [List.mem_singleton.mp hb, hself, h1]
        omega

/-- **`dfs` ends and numbers the reachable blocks.** -/
theorem dfs_ordered (hf : f.Valid) {fuel : Nat} (hfuel : f.blocks.length ≤ fuel) :
    ∃ o, dfs f fuel = some o ∧ Ordered f o := by
  obtain ⟨st, post, hs, hacc, hP⟩ := DepthFirst.search_postorder number hf.closed
    (List.mem_cons_self : f.entry ∈ f.blocks) ⟨f.blocks.length, [], fun _ => 0⟩ hfuel
  obtain ⟨-, h2, h3, h4⟩ := foldl_number f.blocks.length post hP.nodup
  rw [← hacc] at h2 h3 h4
  have hsub : post ⊆ f.blocks := fun b hb => hf.reach_mem ((hP.mem_iff b).mp hb)
  have hlen : post.length ≤ f.blocks.length := (hP.nodup.subperm hsub).length_le
  refine ⟨st.acc, by unfold dfs; rw [hs]; rfl, ?_, ?_, ?_, ?_⟩
  · rw [h2]
    refine List.pairwise_reverse.mpr (List.pairwise_map.mpr ?_)
    exact h3
  · intro n b
    rw [h2, List.mem_reverse, List.mem_map]
    constructor
    · rintro ⟨a, ha, heq⟩
      obtain ⟨h5, rfl⟩ := Prod.mk.inj heq
      exact ⟨(hP.mem_iff a).mp ha, h5⟩
    · rintro ⟨hb, rfl⟩
      exact ⟨b, (hP.mem_iff b).mpr hb, rfl⟩
  · intro b hb
    have := h4 b ((hP.mem_iff b).mpr hb)
    omega
  · intro b hb hne
    obtain ⟨a, ha, hsub'⟩ := hP.parent b ((hP.mem_iff b).mpr hb) hne
    refine ⟨a, (hP.mem_iff a).mp (hsub'.subset (by simp)), ha, ?_⟩
    exact (List.pairwise_cons.mp (h3.sublist hsub')).1 a List.mem_cons_self

theorem Ordered.inj (h : Ordered f o) {a b : BlockId} (ha : f.Reach a) (hb : f.Reach b)
    (hab : o.bb2int a = o.bb2int b) : a = b := by
  by_contra hne
  have h1 := (h.mem_iff _ a).mpr ⟨ha, rfl⟩
  have h2 := (h.mem_iff _ b).mpr ⟨hb, rfl⟩
  obtain ⟨i, hi, hi'⟩ := List.getElem_of_mem h1
  obtain ⟨j, hj, hj'⟩ := List.getElem_of_mem h2
  have hij : i ≠ j := by
    rintro rfl
    rw [hi'] at hj'
    exact hne (Prod.mk.inj hj').2
  rcases Nat.lt_or_gt_of_ne hij with hlt | hlt
  · have := List.pairwise_iff_getElem.mp h.sorted i j hi hj hlt
    rw [hi', hj'] at this
    exact absurd this (by simp only; omega)
  · have := List.pairwise_iff_getElem.mp h.sorted j i hj hi hlt
    rw [hi', hj'] at this
    exact absurd this (by simp only; omega)

/-- Induction along the parents of the search. -/
theorem Ordered.induction (h : Ordered f o) {P : BlockId → Prop} (root : P f.entry)
    (child : ∀ a b, f.Reach a → b ∈ f.succ a → o.bb2int a < o.bb2int b → P a → P b) :
    ∀ b, f.Reach b → P b := by
  have key : ∀ (n : Nat) (b : BlockId), f.Reach b → o.bb2int b ≤ n → P b := by
    intro n
    induction n with
    | zero =>
      intro b hb hn
      have := h.pos b hb
      omega
    | succ n ih =>
      intro b hb hn
      by_cases hne : b = f.entry
      · exact hne ▸ root
      · obtain ⟨a, ha, hab, hlt⟩ := h.parent b hb hne
        exact child a b ha hab hlt (ih a ha (by omega))
  exact fun b hb => key (o.bb2int b).toNat b hb (by omega)

theorem Ordered.entry_le (h : Ordered f o) : ∀ b, f.Reach b → o.bb2int f.entry ≤ o.bb2int b :=
  h.induction (Int.le_refl _) fun _ _ _ _ hlt hle => by omega

/-! ## The text -/

/-- The instructions of a numbered block with their points. -/
def blockText (f : Func) (bb : Int × BlockId) : List (Point × InstrId) :=
  ((f.body bb.2).zipIdx 1).map fun i => (⟨bb.1, i.2⟩, i.1)

/-- The instructions in the order of the walk. -/
def text (f : Func) (o : Order) : List (Point × InstrId) := o.int2bb.flatMap (blockText f)

theorem foldl_scanBlock (m : Members) :
    o.int2bb.foldl (scanBlock f) m = (text f o).foldl (fun m p => scanInstr f m p.1 p.2) m := by
  unfold text
  rw [List.foldl_flatMap]
  congr
  funext m bb
  unfold scanBlock blockText
  rw [List.foldl_map]

theorem mem_blockText {n : Int} {p : Point} {i : InstrId} :
    (p, i) ∈ blockText f (n, b) ↔ ∃ k, (f.body b)[k]? = some i ∧ p = ⟨n, k + 1⟩ := by
  unfold blockText
  simp only [List.mem_map, Prod.mk.injEq, Prod.exists, List.mk_mem_zipIdx_iff_le_and_getElem?_sub]
  constructor
  · rintro ⟨i, j, ⟨hj, hi⟩, rfl, rfl⟩
    exact ⟨j - 1, hi, by rw [Nat.sub_add_cancel hj]⟩
  · rintro ⟨k, hk, rfl⟩
    exact ⟨i, k + 1, ⟨Nat.le_add_left 1 k, by simpa using hk⟩, rfl, rfl⟩

theorem mem_text (h : Ordered f o) {p : Point} {i : InstrId} :
    (p, i) ∈ text f o ↔
      ∃ b k, f.Reach b ∧ (f.body b)[k]? = some i ∧ p = ⟨o.bb2int b, k + 1⟩ := by
  unfold text
  rw [List.mem_flatMap]
  constructor
  · rintro ⟨⟨n, b⟩, hn, hp⟩
    obtain ⟨hb, rfl⟩ := (h.mem_iff n b).mp hn
    obtain ⟨k, hk, rfl⟩ := mem_blockText.mp hp
    exact ⟨b, k, hb, hk, rfl⟩
  · rintro ⟨b, k, hb, hk, rfl⟩
    exact ⟨(o.bb2int b, b), (h.mem_iff _ b).mpr ⟨hb, rfl⟩, mem_blockText.mpr ⟨k, hk, rfl⟩⟩

theorem text_sorted (h : Ordered f o) : (text f o).Pairwise fun x y => x.1 < y.1 := by
  unfold text
  refine List.pairwise_flatMap.mpr ⟨?_, h.sorted.imp ?_⟩
  · rintro ⟨n, b⟩ -
    unfold blockText
    refine List.pairwise_map.mpr (List.pairwise_iff_getElem.mpr ?_)
    intro i j hi hj hij
    refine Or.inr ⟨rfl, ?_⟩
    simp only [List.getElem_zipIdx]
    omega
  · rintro ⟨n, a⟩ ⟨m, b⟩ hlt ⟨p, i⟩ hp ⟨q, j⟩ hq
    obtain ⟨k, -, rfl⟩ := mem_blockText.mp hp
    obtain ⟨l, -, rfl⟩ := mem_blockText.mp hq
    exact Or.inl hlt

/-- An instruction stands at one point of the text. -/
theorem text_unique (hf : f.Valid) (h : Ordered f o) {p q : Point} {i : InstrId}
    (hp : (p, i) ∈ text f o) (hq : (q, i) ∈ text f o) : p = q := by
  obtain ⟨a, k, ha, hk, rfl⟩ := (mem_text h).mp hp
  obtain ⟨b, l, hb, hl, rfl⟩ := (mem_text h).mp hq
  have hbody := (List.nodup_flatMap.mp hf.nodup).1
  obtain rfl : a = b := Func.block_unique hf.nodup (hf.reach_mem ha) (hf.reach_mem hb)
    (List.mem_of_getElem? hk) (List.mem_of_getElem? hl)
  obtain ⟨hk', hki⟩ := List.getElem?_eq_some_iff.mp hk
  obtain ⟨hl', hli⟩ := List.getElem?_eq_some_iff.mp hl
  have hkl : k = l :=
    (hbody a (hf.reach_mem ha)).getElem_inj_iff.mp (hki.trans hli.symm)
  rw [hkl]

/-! ## The interval of a value -/

/-- What the walk does to the interval of `v` at one instruction. -/
def track (f : Func) (v : Value) (iv : Option Interval) (p : Point × InstrId) : Option Interval :=
  if (f.instr p.2).op = .alloca then iv
  else
    let iv := if v = .instr p.2 ∧ f.names v ≠ "" then iv.or (some ⟨p.1, p.1⟩) else iv
    if v ∈ (f.instr p.2).operands then iv.map fun iv => { iv with stop := p.1 } else iv

theorem foldl_touch (p : Point) (rands : List Value) (m : Members) (v : Value) :
    (rands.foldl (touch p) m).val2interval v =
      if v ∈ rands then (m.val2interval v).map fun iv => { iv with stop := p }
      else m.val2interval v := by
  induction rands generalizing m with
  | nil => simp
  | cons r rands ih =>
    rw [List.foldl_cons, ih]
    by_cases hr : v = r
    · subst hr
      simp only [touch, Members.setInterval, Function.update_self, List.mem_cons, true_or, if_true]
      split
      · cases m.val2interval v <;> rfl
      · rfl
    · simp only [touch, Members.setInterval, Function.update_of_ne hr, List.mem_cons, hr, false_or]

theorem insertInterval_val (m : Members) (v w : Value) (iv : Interval) :
    (insertInterval m w iv).val2interval v =
      if v = w then (m.val2interval v).or (some iv) else m.val2interval v := by
  unfold insertInterval Members.setInterval
  by_cases h : v = w
  · subst h
    simp
  · simp [h]

theorem scanInstr_val (m : Members) (p : Point) (i : InstrId) :
    (scanInstr f m p i).val2interval v = track f v (m.val2interval v) (p, i) := by
  unfold scanInstr track
  by_cases ha : (f.instr i).op = .alloca
  · simp [ha]
  · simp only [ha, if_false]
    rw [foldl_touch]
    have hins : (if f.names (.instr i) ≠ "" then insertInterval m (.instr i) ⟨p, p⟩
        else m).val2interval v =
        if v = .instr i ∧ f.names v ≠ "" then (m.val2interval v).or (some ⟨p, p⟩)
        else m.val2interval v := by
      by_cases hn : f.names (.instr i) ≠ ""
      · rw [if_pos hn, insertInterval_val]
        by_cases hv : v = .instr i
        · subst hv
          simp [hn]
        · simp [hv]
      · rw [if_neg hn]
        by_cases hv : v = .instr i
        · subst hv
          simp [hn]
        · simp [hv]
    rw [hins]

theorem foldl_scanInstr_val (l : List (Point × InstrId)) (m : Members) :
    (l.foldl (fun m p => scanInstr f m p.1 p.2) m).val2interval v =
      l.foldl (track f v) (m.val2interval v) := by
  induction l generalizing m with
  | nil => rfl
  | cons p l ih => rw [List.foldl_cons, ih, scanInstr_val, List.foldl_cons]

/-- An instruction of the text reads `v`. -/
def Reads (f : Func) (v : Value) (i : InstrId) : Prop :=
  (f.instr i).op ≠ .alloca ∧ v ∈ (f.instr i).operands

/-- `e` is the last point of `l` that reads `v`, or `e₀` when there is none. -/
structure LastRead (f : Func) (v : Value) (l : List (Point × InstrId)) (e₀ e : Point) : Prop where
  read : e = e₀ ∨ ∃ i, (e, i) ∈ l ∧ Reads f v i
  last : ∀ p i, (p, i) ∈ l → Reads f v i → p ≤ e
  le : e₀ ≤ e

/-- Once `v` has an interval, the walk moves its end to the last read. -/
theorem foldl_track_some {l : List (Point × InstrId)} (hs : l.Pairwise fun x y => x.1 < y.1)
    (iv : Interval) (hlt : ∀ x ∈ l, iv.stop < x.1) :
    ∃ e, l.foldl (track f v) (some iv) = some ⟨iv.start, e⟩ ∧ LastRead f v l iv.stop e := by
  induction l generalizing iv with
  | nil => exact ⟨iv.stop, rfl, Or.inl rfl, by simp, Point.le_refl _⟩
  | cons x l ih =>
    obtain ⟨p, i⟩ := x
    obtain ⟨hx, hs'⟩ := List.pairwise_cons.mp hs
    rw [List.foldl_cons]
    by_cases hr : Reads f v i
    · have htrack : track f v (some iv) (p, i) = some ⟨iv.start, p⟩ := by
        unfold track
        simp [hr.1, hr.2]
      obtain ⟨e, he, hlast⟩ := ih hs' ⟨iv.start, p⟩ hx
      rw [htrack]
      refine ⟨e, he, ?_, ?_, Point.le_trans (Point.le_of_lt (hlt _ List.mem_cons_self)) hlast.le⟩
      · rcases hlast.read with rfl | ⟨j, hj, hrj⟩
        · exact Or.inr ⟨i, List.mem_cons_self, hr⟩
        · exact Or.inr ⟨j, List.mem_cons_of_mem _ hj, hrj⟩
      · intro q j hq hrj
        rcases List.mem_cons.mp hq with heq | hq
        · obtain ⟨rfl, rfl⟩ := Prod.mk.inj heq
          exact hlast.le
        · exact hlast.last q j hq hrj
    · have htrack : track f v (some iv) (p, i) = some iv := by
        unfold track
        unfold Reads at hr
        by_cases ha : (f.instr i).op = .alloca
        · simp [ha]
        · have hv : v ∉ (f.instr i).operands := fun hv => hr ⟨ha, hv⟩
          simp [ha, hv]
      obtain ⟨e, he, hlast⟩ := ih hs' iv fun y hy => hlt y (List.mem_cons_of_mem _ hy)
      rw [htrack]
      refine ⟨e, he, ?_, ?_, hlast.le⟩
      · exact hlast.read.imp_right fun ⟨j, hj, hrj⟩ => ⟨j, List.mem_cons_of_mem _ hj, hrj⟩
      · intro q j hq hrj
        rcases List.mem_cons.mp hq with heq | hq
        · obtain ⟨rfl, rfl⟩ := Prod.mk.inj heq
          exact absurd hrj hr
        · exact hlast.last q j hq hrj

/-- A value that has no interval yet gets one at its definition. -/
theorem foldl_track_none {l : List (Point × InstrId)} (hs : l.Pairwise fun x y => x.1 < y.1)
    {iv : Interval} (h : l.foldl (track f v) none = some iv) :
    ∃ i l₁ l₂, l = l₁ ++ (iv.start, i) :: l₂ ∧ v = .instr i ∧
      LastRead f v l₂ iv.start iv.stop := by
  induction l with
  | nil => simp at h
  | cons x l ih =>
    obtain ⟨p, i⟩ := x
    obtain ⟨hx, hs'⟩ := List.pairwise_cons.mp hs
    rw [List.foldl_cons] at h
    by_cases hd : (f.instr i).op ≠ .alloca ∧ v = .instr i ∧ f.names v ≠ ""
    · have htrack : track f v none (p, i) = some ⟨p, p⟩ := by
        unfold track
        simp [hd.1, ← hd.2.1, hd.2.2]
      rw [htrack] at h
      obtain ⟨e, he, hlast⟩ := foldl_track_some (f := f) (v := v) hs' ⟨p, p⟩ hx
      rw [he] at h
      obtain rfl := Option.some.inj h
      exact ⟨i, [], l, rfl, hd.2.1, hlast⟩
    · have htrack : track f v none (p, i) = none := by
        unfold track
        by_cases ha : (f.instr i).op = .alloca
        · simp [ha]
        · have hv : ¬ (v = .instr i ∧ f.names v ≠ "") := fun hv => hd ⟨ha, hv⟩
          simp [ha, hv]
      rw [htrack] at h
      obtain ⟨j, l₁, l₂, rfl, hj, hlast⟩ := ih hs' h
      exact ⟨j, (p, i) :: l₁, l₂, rfl, hj, hlast⟩

/-- What `init_func` leaves for a value with an interval: it starts in front of everything for an
argument and at the definition for an instruction, and ends at the last read behind its start. -/
structure IntervalOf (f : Func) (o : Order) (v : Value) (iv : Interval) : Prop where
  start : (∃ no, v = .arg no ∧ iv.start = ⟨0, 0⟩) ∨ ∃ i, v = .instr i ∧ (iv.start, i) ∈ text f o
  stop : iv.stop = iv.start ∨ ∃ i, (iv.stop, i) ∈ text f o ∧ v ∈ (f.instr i).operands
  last : ∀ p i, (p, i) ∈ text f o → v ∈ (f.instr i).operands → iv.start ≤ p → p ≤ iv.stop
  le : iv.start ≤ iv.stop

theorem foldl_scanArgs_val (l : List Nat) (m : Members)
    (hm : ∀ w iv, m.val2interval w = some iv → (∃ no, w = .arg no) ∧ iv = ⟨⟨0, 0⟩, ⟨0, 0⟩⟩) :
    ∀ w iv, (l.foldl (fun m no => if f.uses (.arg no) = [] then m
      else insertInterval m (.arg no) ⟨⟨0, 0⟩, ⟨0, 0⟩⟩) m).val2interval w = some iv →
      (∃ no, w = .arg no) ∧ iv = ⟨⟨0, 0⟩, ⟨0, 0⟩⟩ := by
  induction l generalizing m with
  | nil => exact hm
  | cons no l ih =>
    rw [List.foldl_cons]
    refine ih _ fun w iv hw => ?_
    split at hw
    · exact hm w iv hw
    · rw [insertInterval_val] at hw
      split at hw
      · rename_i hwno
        cases hmw : m.val2interval w with
        | none =>
          rw [hmw] at hw
          exact ⟨⟨no, hwno⟩, (Option.some.inj hw).symm⟩
        | some iv' =>
          rw [hmw] at hw
          obtain rfl : iv' = iv := Option.some.inj hw
          exact hm w iv' hmw
      · exact hm w iv hw

/-- **The intervals of `init_func`.** -/
theorem init_interval (hf : f.Valid) (fuel : Nat) (hfuel : f.blocks.length ≤ fuel) :
    ∃ o m, initFunc f fuel = .ok (o, m) ∧ Ordered f o ∧
      ∀ v iv, m.val2interval v = some iv → IntervalOf f o v iv := by
  obtain ⟨o, ho, hord⟩ := dfs_ordered hf hfuel
  have hreads : ∀ {i : InstrId} {p : Point} {v : Value}, (p, i) ∈ text f o →
      v ∈ (f.instr i).operands → Reads f v i := by
    intro i p v hp hv
    obtain ⟨b, k, hb, hk, -⟩ := (mem_text hord).mp hp
    have hi : i ∈ f.instrs :=
      List.mem_flatMap.mpr ⟨b, hf.reach_mem hb, List.mem_of_getElem? hk⟩
    refine ⟨fun ha => ?_, hv⟩
    rw [hf.alloca_operands i hi ha] at hv
    exact absurd hv List.not_mem_nil
  generalize hm₀ : scanArgs f ⟨if hasFcalls f then 16 else 8, fun _ => none, fun _ => none⟩ = m₀
  refine ⟨o, o.int2bb.foldl (scanBlock f) m₀, ?_, hord, fun v iv hiv => ?_⟩
  · unfold initFunc
    rw [ho, ← hm₀]
  · rw [foldl_scanBlock, foldl_scanInstr_val] at hiv
    cases hv : m₀.val2interval v with
    | none =>
      rw [hv] at hiv
      obtain ⟨i, l₁, l₂, htext, hvi, hlast⟩ := foldl_track_none (text_sorted hord) hiv
      have hsorted := text_sorted hord
      rw [htext] at hsorted
      have hmem : (iv.start, i) ∈ text f o := by rw [htext]; simp
      refine ⟨Or.inr ⟨i, hvi, hmem⟩, ?_, ?_, hlast.le⟩
      · refine hlast.read.imp_right fun ⟨j, hj, hrj⟩ => ⟨j, ?_, hrj.2⟩
        rw [htext]
        exact List.mem_append_right _ (List.mem_cons_of_mem _ hj)
      · intro p j hp hvj hle
        have hrj := hreads hp hvj
        rw [htext] at hp
        rcases List.mem_append.mp hp with hp | hp
        · have := (List.pairwise_append.mp hsorted).2.2 _ hp _ List.mem_cons_self
          exact absurd hle (Point.not_le.mpr this)
        · rcases List.mem_cons.mp hp with heq | hp
          · obtain ⟨rfl, rfl⟩ := Prod.mk.inj heq
            exact hlast.le
          · exact hlast.last p j hp hrj
    | some iv₀ =>
      rw [hv] at hiv
      obtain ⟨⟨no, rfl⟩, rfl⟩ := foldl_scanArgs_val (f := f) (List.range f.args.length)
        ⟨if hasFcalls f then 16 else 8, fun _ => none, fun _ => none⟩
        (fun w iv hw => by cases hw) v iv₀ (by rw [← hv, ← hm₀]; rfl)
      have hlt : ∀ x ∈ text f o, (⟨0, 0⟩ : Point) < x.1 := by
        rintro ⟨p, i⟩ hp
        obtain ⟨b, k, hb, -, rfl⟩ := (mem_text hord).mp hp
        exact Or.inl (hord.pos b hb)
      obtain ⟨e, he, hlast⟩ := foldl_track_some (text_sorted hord) ⟨⟨0, 0⟩, ⟨0, 0⟩⟩ hlt
      rw [he] at hiv
      obtain rfl := Option.some.inj hiv
      refine ⟨Or.inl ⟨no, rfl, rfl⟩, ?_, ?_, hlast.le⟩
      · exact hlast.read.imp_right fun ⟨j, hj, hrj⟩ => ⟨j, hj, hrj.2⟩
      · exact fun p j hp hvj _ => hlast.last p j hp (hreads hp hvj)

/-! ## Liveness against the text -/

/-- The position of the point of `b` where `k` of its instructions have been executed. -/
def position (o : Order) (b : BlockId) (k : Nat) : Point := ⟨o.bb2int b, k⟩

/-- The interval covers every point of a reachable block at which `v` is live. -/
def Covers (f : Func) (o : Order) (v : Value) (iv : Interval) : Prop :=
  ∀ b k, f.Reach b → LiveAt f v b k → iv.start ≤ position o b k ∧ position o b k ≤ iv.stop

/-- The last instruction of `b`, or an instruction of a block numbered after `b`, defines `v` or
reads it. -/
def OccursFrom (f : Func) (o : Order) (v : Value) (b : BlockId) : Prop :=
  ∃ c k i, f.Reach c ∧ (f.body c)[k]? = some i ∧ (v = .instr i ∨ v ∈ (f.instr i).operands) ∧
    (o.bb2int b < o.bb2int c ∨ c = b ∧ k + 1 = (f.body b).length)

/-- `v` is not live into the function, unless it is an argument, and wherever it is live along an
edge that does not lead to a larger number, the text has an occurrence of `v` at or behind the
end of the block the edge leaves. -/
structure Coverable (f : Func) (o : Order) (v : Value) : Prop where
  entry : (∃ no, v = .arg no) ∨ ¬ LiveAt f v f.entry 0
  retreat : ∀ b s, f.Reach b → s ∈ f.succ b → o.bb2int s ≤ o.bb2int b → LiveAt f v s 0 →
    OccursFrom f o v b

theorem LiveAt.le_length (h : LiveAt f v b k) : k ≤ (f.body b).length := by
  cases h with
  | use hi _ => exact Nat.le_of_lt (List.getElem?_eq_some_iff.mp hi).1
  | step hi _ _ => exact Nat.le_of_lt (List.getElem?_eq_some_iff.mp hi).1
  | edge _ _ => exact Nat.le_refl _

/-- Backwards through a block, as long as the definition is not met. -/
theorem LiveAt.head (h : LiveAt f v b k)
    (hdef : ∀ j i, j < k → (f.body b)[j]? = some i → v ≠ .instr i) : LiveAt f v b 0 := by
  induction k with
  | zero => exact h
  | succ k ih =>
    have hk : k < (f.body b).length := h.le_length
    refine ih (LiveAt.step (List.getElem?_eq_getElem hk) ?_ h) fun j i hj => hdef j i (by omega)
    exact hdef k _ (Nat.lt_succ_self k) (List.getElem?_eq_getElem hk)

/-- A value live in front of its definition is live into the function: go back along the parents
of the search, whose points are smaller still. -/
theorem LiveAt.entry {p : Point} {i : InstrId} (hf : f.Valid) (ho : Ordered f o)
    (hi : (p, i) ∈ text f o) (hv : v = .instr i) (hb : f.Reach b) (h : LiveAt f v b k)
    (hlt : position o b k < p) : LiveAt f v f.entry 0 := by
  have hhead : ∀ b k, f.Reach b → LiveAt f v b k → position o b k < p → LiveAt f v b 0 := by
    intro b k hb h hlt
    refine h.head fun j i' hj hij hvi => ?_
    obtain rfl : i = i' := Value.instr.inj (hv.symm.trans hvi)
    have := text_unique hf ho hi ((mem_text ho).mpr ⟨b, j, hb, hij, rfl⟩)
    subst this
    unfold position at hlt
    rw [Point.lt_iff] at hlt
    simp only at hlt
    omega
  have hback : ∀ b, f.Reach b → o.bb2int b ≤ p.bbindex → LiveAt f v b 0 → LiveAt f v f.entry 0 := by
    refine ho.induction (fun _ h => h) fun a b ha hab hnum ih hle h => ?_
    refine ih (by omega) (hhead a _ ha (LiveAt.edge hab h) (Or.inl ?_))
    show o.bb2int a < p.bbindex
    omega
  refine hback b hb ?_ (hhead b k hb h hlt)
  unfold position at hlt
  rw [Point.lt_iff] at hlt
  simp only at hlt
  omega

/-- Where nothing is live in front of the start, the points of a live range are behind each other
except along edges that do not lead to a larger number. -/
theorem LiveAt.le_stop {iv : Interval} (ho : Ordered f o) (hiv : IntervalOf f o v iv)
    (hstart : ∀ b k, f.Reach b → LiveAt f v b k → iv.start ≤ position o b k)
    (hretreat : ∀ b s, f.Reach b → s ∈ f.succ b → o.bb2int s ≤ o.bb2int b → LiveAt f v s 0 →
      position o b (f.body b).length ≤ iv.stop)
    (hb : f.Reach b) (h : LiveAt f v b k) : position o b k ≤ iv.stop := by
  have hstep : ∀ b k, position o b k ≤ position o b (k + 1) := fun b k =>
    Point.le_iff.mpr (Or.inr ⟨rfl, Nat.le_succ k⟩)
  induction h with
  | @use b k i hi hv =>
    have hmem : (position o b (k + 1), i) ∈ text f o := (mem_text ho).mpr ⟨b, k, hb, hi, rfl⟩
    have hle := hstart b k hb (LiveAt.use hi hv)
    exact Point.le_trans (hstep b k) (hiv.last _ i hmem hv (Point.le_trans hle (hstep b k)))
  | @step b k i hi hv h ih => exact Point.le_trans (hstep b k) (ih hb)
  | @edge b s hs h ih =>
    by_cases hnum : o.bb2int s ≤ o.bb2int b
    · exact hretreat b s hb hs hnum h
    · refine Point.le_trans (Point.le_iff.mpr (Or.inl ?_)) (ih (hb.step hs))
      show o.bb2int b < o.bb2int s
      omega

/-- An occurrence at or behind the end of a block keeps the interval open up to there. -/
theorem OccursFrom.le_stop {iv : Interval} (hf : f.Valid) (ho : Ordered f o)
    (hiv : IntervalOf f o v iv) (h : OccursFrom f o v b) :
    position o b (f.body b).length ≤ iv.stop := by
  obtain ⟨c, k, i, hc, hi, hocc, hpos⟩ := h
  have hmem : (position o c (k + 1), i) ∈ text f o := (mem_text ho).mpr ⟨c, k, hc, hi, rfl⟩
  have hle : position o b (f.body b).length ≤ position o c (k + 1) := by
    rw [Point.le_iff]
    rcases hpos with hpos | ⟨rfl, hk⟩
    · exact Or.inl hpos
    · exact Or.inr ⟨rfl, Nat.le_of_eq hk.symm⟩
  refine Point.le_trans hle ?_
  rcases hocc with hdef | hread
  · rcases hiv.start with ⟨no, harg, -⟩ | ⟨j, hj, hstart⟩
    · rw [harg] at hdef
      cases hdef
    · obtain rfl : i = j := Value.instr.inj (hdef.symm.trans hj)
      rw [text_unique hf ho hmem hstart]
      exact hiv.le
  · by_cases hst : iv.start ≤ position o c (k + 1)
    · exact hiv.last _ i hmem hread hst
    · exact Point.le_trans (Point.le_of_lt (Point.not_le.mp hst)) hiv.le

/-- **When an interval covers the live range of its value.** -/
theorem interval_covers_iff {iv : Interval} (hf : f.Valid) (ho : Ordered f o)
    (hiv : IntervalOf f o v iv) : Covers f o v iv ↔ Coverable f o v := by
  constructor
  · intro hcov
    refine ⟨?_, fun b s hb hs hnum hlive => ?_⟩
    · rcases hiv.start with ⟨no, harg, -⟩ | ⟨i, -, hi⟩
      · exact Or.inl ⟨no, harg⟩
      · refine Or.inr fun hlive => ?_
        have hle := (hcov f.entry 0 Dominance.Reachable.refl hlive).1
        obtain ⟨b, k, hb, -, hp⟩ := (mem_text ho).mp hi
        have := ho.entry_le b hb
        rw [hp, Point.le_iff] at hle
        simp only [position] at hle
        omega
    · have hle := (hcov b _ hb (LiveAt.edge hs hlive)).2
      have hbehind : ∀ i, (iv.stop, i) ∈ text f o →
          (v = .instr i ∨ v ∈ (f.instr i).operands) → OccursFrom f o v b := by
        intro i hi hocc
        obtain ⟨c, k, hc, hk, hp⟩ := (mem_text ho).mp hi
        have hklen := (List.getElem?_eq_some_iff.mp hk).1
        rw [hp, Point.le_iff] at hle
        simp only [position] at hle
        refine ⟨c, k, i, hc, hk, hocc, hle.imp_right fun ⟨heq, hlen⟩ => ?_⟩
        obtain rfl := ho.inj hb hc heq
        exact ⟨rfl, by omega⟩
      rcases hiv.stop with hstop | ⟨i, hi, hread⟩
      · rcases hiv.start with ⟨no, -, hstart⟩ | ⟨i, hdef, hi⟩
        · rw [hstop, hstart, Point.le_iff] at hle
          have := ho.pos b hb
          simp only [position] at hle
          omega
        · exact hbehind i (hstop ▸ hi) (Or.inl hdef)
      · exact hbehind i hi (Or.inr hread)
  · intro hcan
    have hstart : ∀ b k, f.Reach b → LiveAt f v b k → iv.start ≤ position o b k := by
      intro b k hb hlive
      rcases hiv.start with ⟨no, -, hst⟩ | ⟨i, hdef, hi⟩
      · have := ho.pos b hb
        rw [hst, Point.le_iff]
        exact Or.inl this
      · by_contra hlt
        have hent := hlive.entry hf ho hi hdef hb (Point.not_le.mp hlt)
        rcases hcan.entry with ⟨no, harg⟩ | hnot
        · rw [harg] at hdef
          cases hdef
        · exact hnot hent
    intro b k hb hlive
    refine ⟨hstart b k hb hlive, hlive.le_stop ho hiv hstart ?_ hb⟩
    intro b s hb hs hnum hl
    exact (hcan.retreat b s hb hs hnum hl).le_stop hf ho hiv

/-- **What `init_func` guarantees**: it ends, and the interval of a value covers the live range
of the value exactly when `Coverable` holds. -/
theorem initFunc_covers_iff (hf : f.Valid) {fuel : Nat} (hfuel : f.blocks.length ≤ fuel) :
    ∃ o m, initFunc f fuel = .ok (o, m) ∧
      ∀ v iv, m.val2interval v = some iv → (Covers f o v iv ↔ Coverable f o v) := by
  obtain ⟨o, m, hrun, ho, hiv⟩ := init_interval hf fuel hfuel
  exact ⟨o, m, hrun, fun v iv hv => interval_covers_iff hf ho (hiv v iv hv)⟩

/-! ## A value used early in a loop

`int main(void) { int i; int x; x = input(); i = 0; while (i < 10) { i = i + x; i = i + 1; }
return i; }` after `Mem2Reg` and `PhiElim`. -/

/-- The blocks of `main`: entry, condition, body and exit of the loop. -/
def inputLoopCfg : Cfg where
  entry := 0
  rest := [1, 2, 3]
  pre bb := match bb with
    | 1 => [0, 2]
    | 2 | 3 => [1]
    | _ => []
  succ bb := match bb with
    | 0 | 2 => [1]
    | 1 => [3, 2]
    | _ => []

/-- The function `main`. -/
def inputLoop : Func where
  toCfg := inputLoopCfg
  name := "main"
  retTy := .int32
  body bb := match bb with
    | 0 => [0, 1, 2, 3]
    | 1 => [4, 5, 6, 7, 8]
    | 2 => [9, 10, 11, 12]
    | 3 => [13]
    | _ => []
  instr i := match i with
    | 0 => { op := .alloca, ty := .pointer .int32, operands := [], parent := 0 }
    | 1 => { op := .call, ty := .int32, operands := [.function "input"], parent := 0 }
    | 2 => { op := .store, ty := .void, operands := [.int32 0, .instr 0], parent := 0 }
    | 3 => { op := .br, ty := .void, operands := [.block 1], parent := 0 }
    | 4 => { op := .load, ty := .int32, operands := [.instr 0], parent := 1 }
    | 5 => { op := .cmp, ty := .int1, operands := [.instr 4, .int32 10], parent := 1, cmpOp := .LT }
    | 6 => { op := .zext, ty := .int32, operands := [.instr 5], parent := 1 }
    | 7 => { op := .cmp, ty := .int1, operands := [.instr 6, .int32 0], parent := 1, cmpOp := .NE }
    | 8 => { op := .br, ty := .void, operands := [.instr 7, .block 2, .block 3], parent := 1 }
    | 9 => { op := .add, ty := .int32, operands := [.instr 4, .instr 1], parent := 2 }
    | 10 => { op := .add, ty := .int32, operands := [.instr 9, .int32 1], parent := 2 }
    | 11 => { op := .store, ty := .void, operands := [.instr 10, .instr 0], parent := 2 }
    | 12 => { op := .br, ty := .void, operands := [.block 1], parent := 2 }
    | _ => { op := .ret, ty := .void, operands := [.instr 4], parent := 3 }
  names v := match v with
    | .instr 0 => "op0"
    | .instr 1 => "op1"
    | .instr 4 => "op4"
    | .instr 5 => "op5"
    | .instr 6 => "op6"
    | .instr 7 => "op7"
    | .instr 9 => "op9"
    | .instr 10 => "op10"
    | _ => ""
  next := 14

theorem inputLoop_valid : inputLoop.Valid where
  closed := by decide
  nodup := by decide
  alloca_operands := by decide

/-- The theorem at `main`. -/
theorem initFunc_inputLoop :
    ∃ o m, initFunc inputLoop 4 = .ok (o, m) ∧
      ∀ v iv, m.val2interval v = some iv →
        (Covers inputLoop o v iv ↔ Coverable inputLoop o v) :=
  initFunc_covers_iff inputLoop_valid (by decide)

/-- After its use in the body `x` is live along the back edge. -/
theorem inputLoop_live : LiveAt inputLoop (.instr 1) 2 2 := by
  have hbody : LiveAt inputLoop (.instr 1) 2 0 :=
    .use (i := 9) rfl (by decide)
  have hcond : LiveAt inputLoop (.instr 1) 1 0 := by
    refine .step (i := 4) rfl (by decide) (.step (i := 5) rfl (by decide) ?_)
    refine .step (i := 6) rfl (by decide) (.step (i := 7) rfl (by decide) ?_)
    exact .step (i := 8) rfl (by decide) (.edge (s := 2) (by decide) hbody)
  refine .step (i := 11) rfl (by decide) (.step (i := 12) rfl (by decide) ?_)
  exact .edge (s := 1) (by decide) hcond

/-- **The interval of `x` ends at its use in the body**, although `x` is live behind it. -/
theorem inputLoop_not_covered :
    ∃ o m iv, initFunc inputLoop 4 = .ok (o, m) ∧ m.val2interval (.instr 1) = some iv ∧
      ¬ Covers inputLoop o (.instr 1) iv := by
  obtain ⟨o, m, hrun, -⟩ := init_interval inputLoop_valid 4 (by decide)
  have hval : (initFunc inputLoop 4).toOption.map
      (fun r => (r.2.val2interval (.instr 1), r.1.bb2int 2)) =
      some (some ⟨⟨1, 2⟩, ⟨3, 1⟩⟩, 3) := by
    decide +kernel
  rw [hrun] at hval
  obtain ⟨hiv, hnum⟩ := Prod.mk.inj (Option.some.inj hval)
  refine ⟨o, m, _, hrun, hiv, fun hcov => ?_⟩
  have hreach : inputLoop.Reach 2 :=
    (Dominance.Reachable.refl.step (show inputLoop.Edge 0 1 by decide)).step
      (show inputLoop.Edge 1 2 by decide)
  have hle := (hcov 2 2 hreach inputLoop_live).2
  simp only at hnum
  unfold position at hle
  rw [hnum] at hle
  exact absurd hle (by decide)

end Cminusfc.Codegen.RegAlloc
