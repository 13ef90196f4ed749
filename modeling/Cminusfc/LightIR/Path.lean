import Cminusfc.LightIR.Trace

/-!
# Stretches of code

`Path f p q ids gs`: the code from the point `p` to the point `q` is a straight line, but for
guards. A guard is a conditional branch whose one side leads on at once and whose other side
executes one more instruction first. `ids` is the straight line, `gs` the code of the guards.

Results:
* `Path.follows`: an execution from `p` keeps to the path for as long as it lasts.
* `Path.complete`: an execution that does not trap comes to its end.

About `Exec`; the guards are those of `visit(ASTVar)`, `src/cminusfc/cminusf_builder.cpp` 285-292.
-/

namespace Cminusfc.LightIR

namespace Func

variable {Val World : Type} {M : Machine Val World} {f : Func}

/-- A straight line with guards. -/
inductive Path (f : Func) : Point → Point → List InstrId → List InstrId → Prop
  | done (p : Point) : Path f p p [] []
  | instr {b : BlockId} {k : Nat} {i : InstrId} {q : Point} {ids gs : List InstrId}
      (hi : (f.body b)[k]? = some i) (hterm : (f.instr i).isTerminator = false)
      (rest : Path f ⟨b, k + 1⟩ q ids gs) : Path f ⟨b, k⟩ q (i :: ids) gs
  | guard {b t e : BlockId} {k : Nat} {c g j : InstrId} {x : Value} {q : Point}
      {ids gs : List InstrId} (hc : (f.body b)[k]? = some c) (hbr : (f.instr c).op = .br)
      (hsides : (f.instr c).operands = [x, .block t, .block e])
      (hg : (f.body e)[0]? = some g) (hgterm : (f.instr g).isTerminator = false)
      (hj : (f.body e)[1]? = some j) (hjbr : (f.instr j).op = .br)
      (hon : (f.instr j).operands = [.block t]) (rest : Path f ⟨t, 0⟩ q ids gs) :
      Path f ⟨b, k⟩ q (c :: ids) (g :: j :: gs)

theorem Path.trans {p q r : Point} {ids gs ids' gs' : List InstrId} (h : f.Path p q ids gs)
    (h' : f.Path q r ids' gs') : f.Path p r (ids ++ ids') (gs ++ gs') := by
  induction h with
  | done => exact h'
  | instr hi hterm _ ih => exact .instr hi hterm (ih h')
  | guard hc hbr hsides hg hgterm hj hjbr hon _ ih =>
    exact .guard hc hbr hsides hg hgterm hj hjbr hon (ih h')

theorem isTerminator_of_br {x : Instr} (h : x.op = .br) : x.isTerminator = true := by
  simp [Instr.isTerminator, h]

/-- Where a branch with two sides leads. -/
theorem execTerminator_sides {x : Instr} {v : Value} {t e c : BlockId} {st st' : State Val World}
    (hbr : x.op = .br) (hops : x.operands = [v, .block t, .block e])
    (h : execTerminator M x st = .jump c st') : st' = st ∧ (c = t ∨ c = e) := by
  simp only [execTerminator, hbr, hops, Value.asBlock] at h
  cases h
  refine ⟨rfl, ?_⟩
  split_ifs
  · exact .inl rfl
  · exact .inr rfl

/-- Where a branch with one side leads. -/
theorem execTerminator_side {x : Instr} {t : BlockId} {st : State Val World}
    (hbr : x.op = .br) (hops : x.operands = [.block t]) :
    execTerminator M x st = .jump t st := by
  simp [execTerminator, hbr, hops, Value.asBlock]

/-- `tr` are the instructions `ids`, but for those of the guards `gs`. -/
def Follows (tr ids gs : List InstrId) : Prop :=
  ∀ P : InstrId → Bool, (∀ g ∈ gs, P g = false) → tr.filter P = ids.filter P

theorem Follows.cons {tr ids gs : List InstrId} (h : Follows tr ids gs) (i : InstrId) :
    Follows (i :: tr) (i :: ids) gs := by
  intro P hP
  rw [List.filter_cons, List.filter_cons, h P hP]

theorem Follows.guards {tr ids gs : List InstrId} (h : Follows tr ids gs) (g j : InstrId) :
    Follows tr ids (g :: j :: gs) :=
  fun P hP => h P fun i hi => hP i (List.mem_cons_of_mem _ (List.mem_cons_of_mem _ hi))

/-- The instructions of a guard do not count. -/
theorem Follows.through {tr ids gs : List InstrId} (h : Follows tr ids gs) (g j : InstrId) :
    Follows (g :: j :: tr) ids (g :: j :: gs) := by
  intro P hP
  have hg : P g = false := hP g List.mem_cons_self
  have hj : P j = false := hP j (List.mem_cons_of_mem _ List.mem_cons_self)
  rw [List.filter_cons_of_neg (by simp [hg]), List.filter_cons_of_neg (by simp [hj])]
  exact h.guards g j P hP

/-- An execution that has come to the end `q` of a path, and possibly went on from there. -/
def Passed (M : Machine Val World) (f : Func) (p q : Point) (st : State Val World)
    (tr ids gs : List InstrId) : Prop :=
  ∃ tr₁ tr₂ st₁, tr = tr₁ ++ tr₂ ∧ f.Trace M p st tr₁ q st₁ ∧ Follows tr₁ ids gs

/-- An execution that stands at the instruction of a path it comes to next. -/
def Within (f : Func) (r : Point) (tr ids gs : List InstrId) : Prop :=
  (∃ i ∈ ids ++ gs, (f.body r.block)[r.index]? = some i) ∧
    ∀ P : InstrId → Bool, (∀ g ∈ gs, P g = false) → tr.filter P <+: ids.filter P

theorem Within.cons {r : Point} {tr ids gs : List InstrId} (h : Within f r tr ids gs)
    (i : InstrId) : Within f r (i :: tr) (i :: ids) gs := by
  obtain ⟨⟨i', hi', hr⟩, hpre⟩ := h
  refine ⟨⟨i', List.mem_cons_of_mem _ hi', hr⟩, fun P hP => ?_⟩
  rw [List.filter_cons, List.filter_cons]
  split_ifs
  · exact (List.prefix_cons_inj i).mpr (hpre P hP)
  · exact hpre P hP

theorem Within.guards {r : Point} {tr ids gs : List InstrId} (h : Within f r tr ids gs)
    (g j : InstrId) : Within f r tr ids (g :: j :: gs) := by
  obtain ⟨⟨i, hi, hr⟩, hpre⟩ := h
  refine ⟨⟨i, ?_, hr⟩, fun P hP =>
    hpre P fun i hi => hP i (List.mem_cons_of_mem _ (List.mem_cons_of_mem _ hi))⟩
  simp only [List.mem_append, List.mem_cons] at hi ⊢
  tauto

theorem Within.through {r : Point} {tr ids gs : List InstrId} (h : Within f r tr ids gs)
    (g j : InstrId) : Within f r (g :: j :: tr) ids (g :: j :: gs) := by
  refine ⟨(h.guards g j).1, fun P hP => ?_⟩
  have hg : P g = false := hP g List.mem_cons_self
  have hj : P j = false := hP j (List.mem_cons_of_mem _ List.mem_cons_self)
  rw [List.filter_cons_of_neg (by simp [hg]), List.filter_cons_of_neg (by simp [hj])]
  exact (h.guards g j).2 P hP

/-- An execution that stands at an instruction it has not executed anything before. -/
theorem Within.start {r : Point} {i : InstrId} {ids gs : List InstrId}
    (hr : (f.body r.block)[r.index]? = some i) (hi : i ∈ ids ++ gs) : Within f r [] ids gs :=
  ⟨⟨i, hi, hr⟩, fun _ _ => List.nil_prefix⟩

/-- **An execution from the start of a path keeps to it**: either it is still on the way, or it
has come to the end. -/
theorem Path.follows {p q : Point} {ids gs : List InstrId} (h : f.Path p q ids gs) :
    ∀ {st st' : State Val World} {tr : List InstrId} {r : Point}, f.Trace M p st tr r st' →
      Passed M f p q st tr ids gs ∨ Within f r tr ids gs := by
  induction h with
  | done p => exact fun {st _ tr _} _ => .inl ⟨[], tr, st, rfl, .refl p st, fun _ _ => rfl⟩
  | @instr b k i q ids gs hi hterm rest ih =>
    intro st st' tr r htr
    cases htr with
    | refl => exact .inr (.start hi (by simp))
    | instr hi' hterm' hexec hrest =>
      obtain rfl := Option.some.inj (hi.symm.trans hi')
      rcases ih hrest with ⟨tr₁, tr₂, st₁, rfl, htr₁, hfol⟩ | hin
      · exact .inl ⟨i :: tr₁, tr₂, st₁, rfl, .instr hi hterm hexec htr₁, hfol.cons i⟩
      · exact .inr (hin.cons i)
    | jump hi' hterm' _ _ =>
      obtain rfl := Option.some.inj (hi.symm.trans hi')
      rw [hterm] at hterm'
      cases hterm'
  | @guard b t e k c g j x q ids gs hc hbr hsides hg hgterm hj hjbr hon rest ih =>
    intro st st' tr r htr
    cases htr with
    | refl => exact .inr (.start hc (by simp))
    | instr hi' hterm' _ _ =>
      obtain rfl := Option.some.inj (hc.symm.trans hi')
      rw [isTerminator_of_br hbr] at hterm'
      cases hterm'
    | jump hi' hterm' hjump hrest =>
      obtain rfl := Option.some.inj (hc.symm.trans hi')
      obtain ⟨rfl, rfl | rfl⟩ := execTerminator_sides hbr hsides hjump
      · rcases ih hrest with ⟨tr₁, tr₂, st₁, rfl, htr₁, hfol⟩ | hin
        · exact .inl ⟨c :: tr₁, tr₂, st₁, rfl, .jump hc hterm' hjump htr₁,
            (hfol.guards g j).cons c⟩
        · exact .inr ((hin.guards g j).cons c)
      · cases hrest with
        | refl => exact .inr (Within.cons (.start hg (by simp)) c)
        | jump hi'' hterm'' _ _ =>
          obtain rfl := Option.some.inj (hg.symm.trans hi'')
          rw [hgterm] at hterm''
          cases hterm''
        | instr hi'' hterm'' hexec hrest =>
          obtain rfl := Option.some.inj (hg.symm.trans hi'')
          have hpast : ∀ P : InstrId → Bool, (∀ i ∈ g :: j :: gs, P i = false) →
              [g].filter P <+: ids.filter P := by
            intro P hP
            rw [List.filter_cons_of_neg (by simp [hP g List.mem_cons_self])]
            exact List.nil_prefix
          cases hrest with
          | refl => exact .inr (Within.cons ⟨⟨j, by simp, hj⟩, hpast⟩ c)
          | instr hi₃ hterm₃ _ _ =>
            obtain rfl := Option.some.inj (hj.symm.trans hi₃)
            rw [isTerminator_of_br hjbr] at hterm₃
            cases hterm₃
          | jump hi₃ hterm₃ hjump₃ hrest =>
            obtain rfl := Option.some.inj (hj.symm.trans hi₃)
            have hjump₄ := hjump₃
            rw [execTerminator_side hjbr hon] at hjump₄
            cases hjump₄
            rcases ih hrest with ⟨tr₁, tr₂, st₁, rfl, htr₁, hfol⟩ | hin
            · refine .inl ⟨c :: g :: j :: tr₁, tr₂, st₁, rfl, .jump hc hterm' hjump ?_,
                (hfol.through g j).cons c⟩
              exact .instr hg hgterm hexec (.jump hj hterm₃ hjump₃ htr₁)
            · exact .inr ((hin.through g j).cons c)

/-- **An execution that does not trap comes to the end of its path.** -/
theorem Path.complete {p q : Point} {ids gs : List InstrId} (h : f.Path p q ids gs)
    (hM : ∀ i st, ∃ st', f.execInstr M i st = some st') :
    ∀ st, ∃ tr st', f.Trace M p st tr q st' ∧ Follows tr ids gs := by
  induction h with
  | done p => exact fun st => ⟨[], st, .refl p st, fun _ _ => rfl⟩
  | @instr b k i q ids gs hi hterm rest ih =>
    intro st
    obtain ⟨st₁, hexec⟩ := hM i st
    obtain ⟨tr, st', htr, hfol⟩ := ih st₁
    exact ⟨i :: tr, st', .instr hi hterm hexec htr, hfol.cons i⟩
  | @guard b t e k c g j x q ids gs hc hbr hsides hg hgterm hj hjbr hon rest ih =>
    intro st
    have hterm := isTerminator_of_br hbr
    by_cases htrue : M.isTrue (eval M st x)
    · have hjump : execTerminator M (f.instr c) st = .jump t st := by
        simp [execTerminator, hbr, hsides, Value.asBlock, htrue]
      obtain ⟨tr, st', htr, hfol⟩ := ih st
      exact ⟨c :: tr, st', .jump hc hterm hjump htr, (hfol.guards g j).cons c⟩
    · have hjump : execTerminator M (f.instr c) st = .jump e st := by
        simp [execTerminator, hbr, hsides, Value.asBlock, htrue]
      obtain ⟨st₁, hexec⟩ := hM g st
      obtain ⟨tr, st', htr, hfol⟩ := ih st₁
      have hon' := @execTerminator_side _ _ M _ _ st₁ hjbr hon
      refine ⟨c :: g :: j :: tr, st', .jump hc hterm hjump ?_, (hfol.through g j).cons c⟩
      exact .instr hg hgterm hexec (.jump hj (isTerminator_of_br hjbr) hon' htr)

end Func

end Cminusfc.LightIR
