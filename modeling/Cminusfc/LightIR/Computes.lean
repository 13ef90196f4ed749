import Cminusfc.LightIR.Trace

/-!
# Computations beside executions

A `Run` is a computation that may stop before it has a result: the program is over, the language
gives it no meaning, or its fuel is spent. `Computes M f n p st r post` says that the execution of
`f` from the point `p` is the run `r`: it gets to where `post` holds of the result, it is over with
the same outcome, or it goes on for `n` branches when the fuel is spent.

Results:
* `Computes.bind`: a sequence of runs.
* `Computes.loop`: a loop with fuel.
* `Computes.observe_done`, `Computes.observe_outOfFuel`: what is seen of the execution of a whole
  function.

About `Exec`; no function of the source is modelled here.
-/

namespace Cminusfc.LightIR

/-- Why a computation does not go on. -/
inductive Halt (Val World : Type) where
  | done (o : Outcome Val World)
  | undefined
  | outOfFuel

/-- A computation. -/
abbrev Run (Val World α : Type) := Except (Halt Val World) α

namespace Run

variable {Val World α : Type}

/-- The value is used. -/
def defined : Option α → Run Val World α
  | some a => .ok a
  | none => .error .undefined

/-- `while`, with at most `n` tests. -/
def loop (test : α → Run Val World (Bool × α)) (body : α → Run Val World α) :
    Nat → α → Run Val World α
  | 0, _ => .error .outOfFuel
  | n + 1, a => do
    let r ← test a
    if r.1 then do
      let b ← body r.2
      loop test body n b
    else .ok r.2

end Run

namespace Func

variable {Val World : Type} (M : Machine Val World) (f : Func)

/-- The instruction at `q` ends the run. -/
def Finishes (q : Point) (st : State Val World) (o : Outcome Val World) : Prop :=
  ∃ i, (f.body q.block)[q.index]? = some i ∧
    ((f.instr i).isTerminator = true ∧ execTerminator M (f.instr i) st = .done o ∨
      (f.instr i).isTerminator = false ∧ f.execInstr M i st = none ∧ o = .fault st.world)

/-- The branches of a trace. -/
def jumps (tr : List InstrId) : Nat := tr.countP fun i => (f.instr i).isTerminator

/-- The execution from `p` is the computation `r`. -/
def Computes {α : Type} (n : Nat) (p : Point) (st : State Val World) (r : Run Val World α)
    (post : α → Point → State Val World → Prop) : Prop :=
  match r with
  | .ok a => ∃ tr q st', f.Trace M p st tr q st' ∧ post a q st'
  | .error (.done o) => ∃ tr q st', f.Trace M p st tr q st' ∧ f.Finishes M q st' o
  | .error .undefined => True
  | .error .outOfFuel => ∃ tr q st', f.Trace M p st tr q st' ∧ n ≤ f.jumps tr

variable {M f}

/-! ## Instructions -/

theorem execInstr_pure {i : InstrId} (h : (f.instr i).op.isPure = true) (st : State Val World) :
    f.execInstr M i st = some (setReg st i (M.pure (f.instr i).op (f.instr i).cmpOp (f.instr i).ty
      ((f.instr i).operands.map (eval M st)))) := by
  unfold execInstr
  cases hop : (f.instr i).op <;> simp_all [OpID.isPure]

theorem execInstr_beyond {i : InstrId} (h : (f.instr i).op = .sdiv ∨ (f.instr i).op = .call)
    (st : State Val World) : f.execInstr M i st = f.execEffect M i st := by
  rcases h with h | h <;> simp [execInstr, h, OpID.isPure]

theorem execInstr_load_beyond {i : InstrId} {v : Value} (h : (f.instr i).op = .load)
    (ho : (f.instr i).operands = [v]) (hv : f.cell v = none) (st : State Val World) :
    f.execInstr M i st = f.execEffect M i st := by
  simp [execInstr, h, ho, hv]

theorem execInstr_store_beyond {i : InstrId} {v l : Value} (h : (f.instr i).op = .store)
    (ho : (f.instr i).operands = [v, l]) (hl : f.cell l = none) (st : State Val World) :
    f.execInstr M i st = f.execEffect M i st := by
  simp [execInstr, h, ho, hl]

/-- Where a trace ends: at the beginning of a block, where it starts, or behind an instruction that
is no branch. -/
theorem Trace.behind {p q : Point} {st st' : State Val World} {tr : List InstrId}
    (h : f.Trace M p st tr q st') : q.index = 0 ∨ q = p ∨
      ∃ i, (f.body q.block)[q.index - 1]? = some i ∧ (f.instr i).isTerminator = false := by
  induction h with
  | refl => exact .inr (.inl rfl)
  | instr hi hterm hexec rest ih =>
    rcases ih with hq | rfl | hq
    · exact .inl hq
    · exact .inr (.inr ⟨_, hi, hterm⟩)
    · exact .inr (.inr hq)
  | jump hi hterm hjump rest ih =>
    rcases ih with hq | rfl | hq
    · exact .inl hq
    · exact .inl rfl
    · exact .inr (.inr hq)

/-! ## Computations -/

theorem jumps_append (tr tr' : List InstrId) : f.jumps (tr ++ tr') = f.jumps tr + f.jumps tr' :=
  List.countP_append

namespace Computes

variable {α β : Type} {n m : Nat} {p q : Point} {st st₁ : State Val World} {r : Run Val World α}
  {post post' : α → Point → State Val World → Prop}
  {final : β → Point → State Val World → Prop}

/-- A computation that is over when it starts. -/
theorem pure {a : α} (h : post a p st) : f.Computes M n p st (.ok a) post :=
  ⟨[], p, st, .refl p st, h⟩

/-- Some instructions in front. -/
theorem after {tr : List InstrId} (h : f.Computes M n q st₁ r post)
    (htr : f.Trace M p st tr q st₁) : f.Computes M n p st r post := by
  match r, h with
  | .ok a, ⟨tr', q', st', htr', hpost⟩ => exact ⟨_, q', st', htr.trans htr', hpost⟩
  | .error (.done o), ⟨tr', q', st', htr', hfin⟩ => exact ⟨_, q', st', htr.trans htr', hfin⟩
  | .error .undefined, _ => trivial
  | .error .outOfFuel, ⟨tr', q', st', htr', hn⟩ =>
    refine ⟨_, q', st', htr.trans htr', ?_⟩
    rw [jumps_append]
    exact Nat.le_add_left_of_le hn

/-- Some instructions with a branch among them in front. -/
theorem after_branch {tr : List InstrId} (h : f.Computes M n q st₁ r post)
    (htr : f.Trace M p st tr q st₁) (hpos : 0 < f.jumps tr) : f.Computes M (n + 1) p st r post := by
  match r, h with
  | .ok a, ⟨tr', q', st', htr', hpost⟩ => exact ⟨_, q', st', htr.trans htr', hpost⟩
  | .error (.done o), ⟨tr', q', st', htr', hfin⟩ => exact ⟨_, q', st', htr.trans htr', hfin⟩
  | .error .undefined, _ => trivial
  | .error .outOfFuel, ⟨tr', q', st', htr', hn⟩ =>
    refine ⟨_, q', st', htr.trans htr', ?_⟩
    rw [jumps_append]
    omega

/-- Fewer branches are asked for, and less of the result. -/
theorem mono (h : f.Computes M n p st r post) (hm : m ≤ n)
    (himp : ∀ a q st', post a q st' → post' a q st') : f.Computes M m p st r post' := by
  match r, h with
  | .ok a, ⟨tr, q, st', htr, hpost⟩ => exact ⟨tr, q, st', htr, himp a q st' hpost⟩
  | .error (.done o), h => exact h
  | .error .undefined, _ => trivial
  | .error .outOfFuel, ⟨tr, q, st', htr, hn⟩ => exact ⟨tr, q, st', htr, Nat.le_trans hm hn⟩

/-- **A sequence.** -/
theorem bind {g : α → Run Val World β} (h : f.Computes M n p st r post)
    (hg : ∀ a q st', post a q st' → f.Computes M n q st' (g a) final) :
    f.Computes M n p st (r >>= g) final := by
  match r, h with
  | .ok a, ⟨tr, q, st', htr, hpost⟩ => exact (hg a q st' hpost).after htr
  | .error (.done o), h => exact h
  | .error .undefined, _ => trivial
  | .error .outOfFuel, h => exact h

/-- Some instructions behind. -/
theorem extend (h : f.Computes M n p st r post)
    (himp : ∀ a q st', post a q st' → ∃ tr q' st'', f.Trace M q st' tr q' st'' ∧ post' a q' st'') :
    f.Computes M n p st r post' := by
  match r, h with
  | .ok a, ⟨tr, q, st', htr, hpost⟩ =>
    obtain ⟨tr', q', st'', htr', hpost'⟩ := himp a q st' hpost
    exact ⟨_, q', st'', htr.trans htr', hpost'⟩
  | .error (.done o), h => exact h
  | .error .undefined, _ => trivial
  | .error .outOfFuel, h => exact h

/-- A value that is used is there. -/
theorem defined {x : Option α} {g : α → Run Val World β}
    (hg : ∀ a, x = some a → f.Computes M n p st (g a) final) :
    f.Computes M n p st (Run.defined x >>= g) final := by
  cases x with
  | none => trivial
  | some a => exact hg a rfl

/-- **A loop.** `inv` holds in front of every test, which ends with a branch to the body or out. -/
theorem loop {test : α → Run Val World (Bool × α)} {body : α → Run Val World α}
    {inv : α → State Val World → Prop}
    (htest : ∀ a st, inv a st → f.Computes M n p st (test a) fun r q st' => ∃ tr q' st'',
      f.Trace M q st' tr q' st'' ∧ 0 < f.jumps tr ∧
        if r.1 then f.Computes M n q' st'' (body r.2) fun b q'' st₃ => q'' = p ∧ inv b st₃
        else post r.2 q' st'') :
    ∀ m ≤ n, ∀ a st, inv a st → f.Computes M m p st (Run.loop test body m a) post := by
  intro m
  induction m with
  | zero => exact fun _ a st _ => ⟨[], p, st, .refl p st, Nat.zero_le _⟩
  | succ m ih =>
    intro hm a st hinv
    unfold Run.loop
    refine ((htest a st hinv).mono hm fun r q st' h => h).bind ?_
    rintro ⟨b, c⟩ q st' ⟨tr, q', st'', htr, hpos, hbody⟩
    cases b with
    | false => exact ⟨tr, q', st'', htr, hbody⟩
    | true =>
      have hnext : f.Computes M m q' st'' (body c >>= Run.loop test body m) post := by
        refine (hbody.mono (Nat.le_of_succ_le hm) fun b q st h => h).bind ?_
        rintro d q'' st₃ ⟨rfl, hinv'⟩
        exact ih (Nat.le_of_succ_le hm) d st₃ hinv'
      exact hnext.after_branch htr hpos

end Computes

/-! ## What is seen of an execution -/

section Observe

/-- Entering a block changes nothing. -/
def PhiFree (f : Func) : Prop := ∀ b, ∀ i ∈ f.body b, (f.instr i).op ≠ .phi

variable (arb : Nat → InstrId → Val)

theorem enter_of_phiFree (h : f.PhiFree) (arb : InstrId → Val) (pred : Option BlockId)
    (b : BlockId) (st : State Val World) : f.enter M arb pred b st = st := by
  have hregs : (f.enter M arb pred b st).regs = st.regs := by
    funext i
    exact if_neg fun hi => h b i hi.1 hi.2
  cases st
  simpa [enter] using hregs

/-- `n` more blocks behind the block in which `p` stands, which is block number `k`. -/
def runFrom (M : Machine Val World) (f : Func) (k n : Nat) (p : Point) (st : State Val World) :
    Config Val World ⊕ Outcome Val World :=
  match f.execBody M ((f.body p.block).drop p.index) st with
  | .jump b st' => Lockstep.run (f.stepBlock M arb) (k + 1) n ⟨some p.block, b, st'⟩
  | .done o => .inr o

theorem run_eq_runFrom (h : f.PhiFree) (k n : Nat) (pred : Option BlockId) (b : BlockId)
    (st : State Val World) :
    Lockstep.run (f.stepBlock M arb) k (n + 1) ⟨pred, b, st⟩ = runFrom arb M f k n ⟨b, 0⟩ st := by
  rw [Lockstep.run_succ, runFrom, stepBlock, enter_of_phiFree h, List.drop_zero]
  cases f.execBody M (f.body b) st <;> rfl

theorem drop_of_getElem? {b : BlockId} {k : Nat} {i : InstrId} (hi : (f.body b)[k]? = some i) :
    (f.body b).drop k = i :: (f.body b).drop (k + 1) := by
  obtain ⟨hk, rfl⟩ := List.getElem?_eq_some_iff.mp hi
  exact List.drop_eq_getElem_cons hk

theorem runFrom_instr {b : BlockId} {j : Nat} {i : InstrId} {st st₁ : State Val World}
    (hi : (f.body b)[j]? = some i) (hterm : (f.instr i).isTerminator = false)
    (hexec : f.execInstr M i st = some st₁) (k n : Nat) :
    runFrom arb M f k n ⟨b, j⟩ st = runFrom arb M f k n ⟨b, j + 1⟩ st₁ := by
  rw [runFrom, runFrom, drop_of_getElem? hi, execBody_some hterm hexec]

theorem runFrom_jump {b c : BlockId} {j : Nat} {i : InstrId} {st st₁ : State Val World}
    (hi : (f.body b)[j]? = some i) (hterm : (f.instr i).isTerminator = true)
    (hjump : execTerminator M (f.instr i) st = .jump c st₁) (k n : Nat) :
    runFrom arb M f k n ⟨b, j⟩ st =
      Lockstep.run (f.stepBlock M arb) (k + 1) n ⟨some b, c, st₁⟩ := by
  rw [runFrom, drop_of_getElem? hi, execBody_terminator hterm, hjump]

/-- A trace is followed by the rest of the run. -/
theorem runFrom_trace (hphi : f.PhiFree) {p q : Point} {st st' : State Val World}
    {tr : List InstrId} (h : f.Trace M p st tr q st') :
    ∀ k n, runFrom arb M f k (f.jumps tr + n) p st = runFrom arb M f (k + f.jumps tr) n q st' := by
  induction h with
  | refl => exact fun k n => by simp [jumps]
  | instr hi hterm hexec rest ih =>
    intro k n
    rw [runFrom_instr arb hi hterm hexec]
    simpa [jumps, List.countP_cons, hterm] using ih k n
  | @jump b c j i st st₁ st₂ tr q hi hterm hjump rest ih =>
    intro k n
    have hj : f.jumps (i :: tr) = f.jumps tr + 1 := by simp [jumps, hterm]
    have hn : f.jumps tr + 1 + n = (f.jumps tr + n) + 1 := by omega
    have hk : k + (f.jumps tr + 1) = k + 1 + f.jumps tr := by omega
    rw [runFrom_jump arb hi hterm hjump, hj, hn, run_eq_runFrom arb hphi, ih, hk]

/-- A run is not over in front of the branches of a trace. -/
theorem runFrom_running (hphi : f.PhiFree) {p q : Point} {st st' : State Val World}
    {tr : List InstrId} (h : f.Trace M p st tr q st') :
    ∀ k, ∀ m < f.jumps tr, ∃ c, runFrom arb M f k m p st = .inl c := by
  induction h with
  | refl => exact fun k m hm => absurd hm (Nat.not_lt_zero m)
  | instr hi hterm hexec rest ih =>
    intro k m hm
    rw [runFrom_instr arb hi hterm hexec]
    exact ih k m (by simpa [jumps, List.countP_cons, hterm] using hm)
  | @jump b c j i st st₁ st₂ tr q hi hterm hjump rest ih =>
    intro k m hm
    rw [runFrom_jump arb hi hterm hjump]
    cases m with
    | zero => exact ⟨_, rfl⟩
    | succ m =>
      rw [run_eq_runFrom arb hphi]
      refine ih (k + 1) m ?_
      simpa [jumps, List.countP_cons, hterm] using hm

theorem runFrom_finishes {q : Point} {st : State Val World} {o : Outcome Val World}
    (h : f.Finishes M q st o) (k n : Nat) : runFrom arb M f k n q st = .inr o := by
  obtain ⟨i, hi, ⟨hterm, hdone⟩ | ⟨hterm, hnone, rfl⟩⟩ := h
  · rw [runFrom, drop_of_getElem? hi, execBody_terminator hterm, hdone]
  · rw [runFrom, drop_of_getElem? hi, execBody_none hterm hnone]

variable {α : Type} {n : Nat} {w : World} {r : Run Val World α}
  {post : α → Point → State Val World → Prop}

/-- **A computation that is over** is seen to be over, with the same outcome. -/
theorem Computes.observe_done (hphi : f.PhiFree) {o : Outcome Val World}
    (h : f.Computes M n ⟨f.entry, 0⟩ (f.start M w).st (.error (.done o) : Run Val World α) post) :
    ∃ m, ∀ m' ≥ m, f.observe M arb w m' = .inr o := by
  obtain ⟨tr, q, st', htr, hfin⟩ := h
  refine ⟨f.jumps tr + 1, fun m' hm' => ?_⟩
  obtain ⟨k, rfl⟩ := Nat.exists_eq_add_of_le hm'
  have hsplit : f.jumps tr + 1 + k = f.jumps tr + k + 1 := by omega
  have hrun : Lockstep.run (f.stepBlock M arb) 0 (f.jumps tr + 1 + k) (f.start M w) = .inr o := by
    rw [hsplit]
    exact (run_eq_runFrom arb hphi 0 _ none f.entry _).trans
      ((runFrom_trace arb hphi htr 0 k).trans (runFrom_finishes arb hfin _ k))
  rw [observe, hrun]
  rfl

/-- **A computation whose fuel is spent** is not seen to be over for as many blocks. -/
theorem Computes.observe_outOfFuel (hphi : f.PhiFree)
    (h : f.Computes M n ⟨f.entry, 0⟩ (f.start M w).st (.error .outOfFuel : Run Val World α) post) :
    ∃ w', f.observe M arb w n = .inl w' := by
  obtain ⟨tr, q, st', htr, hn⟩ := h
  cases n with
  | zero => exact ⟨w, rfl⟩
  | succ n =>
    obtain ⟨c, hc⟩ := runFrom_running arb hphi htr 0 n hn
    refine ⟨c.st.world, ?_⟩
    have hrun : Lockstep.run (f.stepBlock M arb) 0 (n + 1) (f.start M w) = .inl c :=
      (run_eq_runFrom arb hphi 0 n none f.entry _).trans hc
    rw [observe, hrun]
    rfl

/-- What is seen of the execution from the world `w` is what a computation stops with. -/
def Behaves (f : Func) (M : Machine Val World) (arb : Nat → InstrId → Val) (n : Nat) (w : World) :
    Halt Val World → Prop
  | .done o => ∃ m, ∀ m' ≥ m, f.observe M arb w m' = .inr o
  | .undefined => True
  | .outOfFuel => ∃ w', f.observe M arb w n = .inl w'

/-- **A computation from the beginning of a function** is what is seen of its execution. -/
theorem Computes.behaves (hphi : f.PhiFree) {h : Halt Val World}
    (hc : f.Computes M n ⟨f.entry, 0⟩ (f.start M w).st (.error h : Run Val World α) post) :
    f.Behaves M arb n w h := by
  cases h with
  | done o => exact hc.observe_done arb hphi
  | undefined => trivial
  | outOfFuel => exact hc.observe_outOfFuel arb hphi

end Observe

end Func

end Cminusfc.LightIR
