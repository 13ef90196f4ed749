import Cminusfc.Codegen.CanonicalLines

/-!
# The pool of free registers

`free_regs` (`src/codegen/codegen.cpp` 33–54, 682–691) is one `std::set` in the order of
`Reg::operator<`, shared by the routines of all instructions. `get_temp` hands out the first register
of a file and leaves it in the set; `save` and the routines of the arithmetic take the register of a
definition out; `store` and `fcmp` put the register of a value back that they have set aside.

* `getTemp_iff`: `get_temp` returns the smallest free register of the file.
* `Moves`: what a step does to the set and to the registers of the values; one lemma for each
  routine.
* `genInstr_moves`: what one instruction does, in a function without calls. `call` is out of scope.
-/

namespace Cminusfc.Codegen.Temps

open Cminusfc.LightIR
open Fallible (bind_ok)
open RegAlloc (hasFcalls)
open Canonical (branch_kept funEpilogue_kept printBin_kept printImm_kept printCmp_kept)

section

variable (f : Func)

/-- The register that an instruction takes out of the pool. -/
def defined (regs : Value → Option Reg) (i : InstrId) : Option Reg :=
  match (f.instr i).op with
  | .add | .sub | .mul | .sdiv | .fadd | .fsub | .fmul | .fdiv | .fptosi | .sitofp | .cmp | .fcmp
  | .zext | .load => regs (.instr i)
  | _ => none

/-- The register that an instruction puts into the pool. -/
def released (regs : Value → Option Reg) (i : InstrId) : Option Reg :=
  match (f.instr i).op, (f.instr i).operands with
  | .store, rval :: _ => regs rval
  | .fcmp, lhs :: _ => regs lhs
  | _, _ => none

end

/-- `t` is the smallest register of a file with `P`. -/
def Smallest (P : Reg → Prop) (fl : Bool) (t : Reg) : Prop :=
  P t ∧ t.f = fl ∧ ∀ q, P q → q.f = fl → q.less t = false

/-! ## The order of the pool -/

theorem less_trans {a b c : Reg} (h : a.less b = true) (h' : b.less c = true) :
    a.less c = true := by
  simp only [Reg.less, Bool.or_eq_true, decide_eq_true_eq, Bool.and_eq_true,
    Bool.not_eq_true'] at h h' ⊢
  rcases h with h | ⟨⟨h, ha⟩, hb⟩
  · rcases h' with h' | ⟨⟨h', -⟩, -⟩ <;> exact Or.inl (by omega)
  · rcases h' with h' | ⟨⟨h', hb'⟩, -⟩
    · exact Or.inl (by omega)
    · rw [hb] at hb'
      cases hb'

theorem less_asymm {a b : Reg} (h : a.less b = true) : b.less a = false := by
  by_contra hba
  have haa := less_trans h (by simpa using hba)
  simp [Reg.less] at haa

theorem less_total {a b : Reg} (h : a ≠ b) : a.less b = true ∨ b.less a = true := by
  obtain ⟨i, fa⟩ := a
  obtain ⟨j, fb⟩ := b
  simp only [Reg.less, Bool.or_eq_true, decide_eq_true_eq, Bool.and_eq_true, Bool.not_eq_true']
  rcases lt_trichotomy i j with hij | rfl | hij
  · exact Or.inl (Or.inl hij)
  · cases fa <;> cases fb <;> simp at h ⊢
  · exact Or.inr (Or.inl hij)

/-- In the order of the set. -/
def Sorted (l : List Reg) : Prop := l.Pairwise fun a b => a.less b = true

instance (l : List Reg) : Decidable (Sorted l) :=
  inferInstanceAs (Decidable (l.Pairwise fun a b => a.less b = true))

theorem Sorted.filter {l : List Reg} (h : Sorted l) (p : Reg → Bool) : Sorted (l.filter p) :=
  List.Pairwise.filter p h

/-- Insertion keeps the order. -/
theorem Sorted.insertReg {l : List Reg} (h : Sorted l) (r : Reg) :
    Sorted (Codegen.insertReg l r) := by
  unfold Codegen.insertReg
  by_cases hr : r ∈ l
  · rwa [if_pos hr]
  · rw [if_neg hr]
    have hsplit : Sorted (l.takeWhile (·.less r) ++ l.dropWhile (·.less r)) := by
      rwa [List.takeWhile_append_dropWhile]
    obtain ⟨hfront, hback, hcross⟩ := List.pairwise_append.mp hsplit
    have habove : ∀ q ∈ l.dropWhile (·.less r), r.less q = true := by
      intro q hq
      cases hdrop : l.dropWhile (·.less r) with
      | nil => simp [hdrop] at hq
      | cons a rest =>
        have ha : a.less r = false := by
          have := List.head_dropWhile_not (·.less r) (l := l) (by simp [hdrop])
          simpa [hdrop] using this
        have hal : a ∈ l := (List.dropWhile_suffix _).subset (hdrop ▸ List.mem_cons_self)
        have hne : r ≠ a := fun he => hr (he ▸ hal)
        have hra : r.less a = true := (less_total hne).resolve_right (by simp [ha])
        rw [hdrop] at hq hback
        rcases List.mem_cons.mp hq with rfl | hq
        · exact hra
        · exact less_trans hra ((List.pairwise_cons.mp hback).1 q hq)
    refine List.pairwise_append.mpr ⟨hfront, List.pairwise_cons.mpr ⟨habove, hback⟩, ?_⟩
    intro a ha b hb
    rcases List.mem_cons.mp hb with rfl | hb
    · exact List.all_eq_true.mp List.all_takeWhile a ha
    · exact hcross a ha b hb

theorem Smallest.unique {P : Reg → Prop} {fl : Bool} {t t' : Reg} (h : Smallest P fl t)
    (h' : Smallest P fl t') : t = t' := by
  obtain ⟨hP, hf, hmin⟩ := h
  obtain ⟨hP', hf', hmin'⟩ := h'
  by_contra hne
  rcases less_total hne with hlt | hlt
  · rw [hmin' t hP hf] at hlt
    cases hlt
  · rw [hmin t' hP' hf'] at hlt
    cases hlt

theorem Smallest.congr {P Q : Reg → Prop} (h : ∀ q, P q ↔ Q q) (fl : Bool) (t : Reg) :
    Smallest P fl t ↔ Smallest Q fl t := by
  rw [show P = Q from funext fun q => propext (h q)]

/-- **`get_temp` returns the smallest register** of the file. -/
theorem getTemp_iff {s : St} {fl d : Bool} (hs : Sorted s.freeRegs) (t : RegRef) :
    getTemp s fl d = .ok t ↔ Smallest (· ∈ s.freeRegs) fl t.reg ∧ t.d = d := by
  have hfind : ∀ r, s.freeRegs.find? (·.f = fl) = some r → Smallest (· ∈ s.freeRegs) fl r := by
    intro r hr
    obtain ⟨hrf, front, back, hsplit, hfront⟩ := List.find?_eq_some_iff_append.mp hr
    refine ⟨List.mem_of_find?_eq_some hr, by simpa using hrf, fun q hq hqf => ?_⟩
    rw [hsplit] at hq hs
    rcases List.mem_append.mp hq with hq | hq
    · exact absurd hqf (by simpa using hfront q hq)
    · rcases List.mem_cons.mp hq with rfl | hq
      · simp [Reg.less]
      · have hback := (List.pairwise_append.mp hs).2.1
        exact less_asymm ((List.pairwise_cons.mp hback).1 q hq)
  unfold getTemp
  constructor
  · intro h
    by_cases hnil : s.freeRegs = []
    · rw [if_pos hnil] at h
      cases h
    · rw [if_neg hnil] at h
      cases hr : s.freeRegs.find? (·.f = fl) with
      | none => simp [hr] at h
      | some r =>
        rw [hr] at h
        cases h
        exact ⟨hfind r hr, rfl⟩
  · rintro ⟨ht, hd⟩
    have hne : s.freeRegs ≠ [] := fun hnil => by
      have := ht.1
      rw [hnil] at this
      cases this
    rw [if_neg hne]
    cases hr : s.freeRegs.find? (·.f = fl) with
    | none =>
      have := List.find?_eq_none.mp hr t.reg ht.1
      exact absurd ht.2.1 (by simpa using this)
    | some r =>
      obtain rfl := (hfind r hr).unique ht
      rw [← hd]

/-! ## What an instruction does to the pool -/

/-- The registers of values stay, `dest` leaves the pool and `rel` joins it. -/
structure Moves (s s' : St) (dest rel : Option Reg) : Prop where
  regs : ∀ v, (s'.regMapping v).map RegRef.reg = (s.regMapping v).map RegRef.reg
  free : ∀ q, q ∈ s'.freeRegs ↔ dest ≠ some q ∧ (rel = some q ∨ q ∈ s.freeRegs)
  sorted : Sorted s.freeRegs → Sorted s'.freeRegs

section

variable {f : Func} {i : InstrId} {lhs rhs : Value} {s s₁ s₂ s' : St} {r : RegRef}

theorem Moves.refl (s : St) : Moves s s none none := ⟨fun _ => rfl, fun q => by simp, id⟩

/-- The registers and the pool decide. -/
theorem Moves.keeps {dest rel : Option Reg} (h : Moves s s₁ dest rel)
    (hregs : s₂.regMapping = s₁.regMapping) (hfree : s₂.freeRegs = s₁.freeRegs) :
    Moves s s₂ dest rel :=
  ⟨by rw [hregs]; exact h.regs, by rw [hfree]; exact h.free, by rw [hfree]; exact h.sorted⟩

theorem Moves.kept {dest rel : Option Reg} (h : Moves s s₁ dest rel) (hk : Kept s₁ s₂) :
    Moves s s₂ dest rel := h.keeps hk.regMapping hk.freeRegs

theorem Moves.of_kept (hk : Kept s s') : Moves s s' none none := (Moves.refl s).kept hk

/-- The destination is erased, once or twice. -/
theorem Moves.erase {dest rel : Option Reg} {d : Reg} (h : Moves s s₁ dest rel)
    (hd : ∀ q, dest = some q → q = d) : Moves s (s₁.erase d) (some d) rel := by
  refine ⟨h.regs, fun q => ?_, fun hs => (h.sorted hs).filter _⟩
  rw [St.mem_erase, h.free]
  constructor
  · rintro ⟨⟨-, hq⟩, hne⟩
    exact ⟨fun he => hne (Option.some.inj he).symm, hq⟩
  · rintro ⟨hne, hq⟩
    exact ⟨⟨fun he => hne (congrArg some (hd q he).symm), hq⟩, fun he => hne (congrArg some he.symm)⟩

theorem erase_moves (s : St) (d : Reg) : Moves s (s.erase d) (some d) none :=
  (Moves.refl s).erase (fun _ h => nomatch h)

theorem Moves.save {dest rel : Option Reg} (h : Moves s s₁ dest rel)
    (hd : ∀ q, dest = some q → q = r.reg) (hsave : save f r s₁ = .ok s')
    (hcalls : hasFcalls f = false) : Moves s s' (some r.reg) rel := by
  obtain rfl := save_no_calls hsave hcalls
  exact (h.erase hd).keeps rfl rfl

/-- A step between two erasures of the destination. -/
theorem Moves.erase_again {d : Reg} {rel : Option Reg} (h : Moves s s₁ (some d) none)
    (h' : Moves s₁ s₂ none rel) : Moves s (s₂.erase d) (some d) rel := by
  refine ⟨fun v => (h'.regs v).trans (h.regs v), fun q => ?_,
    fun hs => (h'.sorted (h.sorted hs)).filter _⟩
  rw [St.mem_erase, h'.free, h.free]
  constructor
  · rintro ⟨⟨-, hq⟩, hne⟩
    exact ⟨fun he => hne (Option.some.inj he).symm,
      hq.imp_right fun hq => hq.2.resolve_left (nomatch ·)⟩
  · rintro ⟨hne, hq⟩
    exact ⟨⟨nofun, hq.imp_right fun hq => ⟨hne, .inr hq⟩⟩, fun he => hne (congrArg some he.symm)⟩

/-- The register of an operand, found or taken, is erased and put back. -/
theorem aside_moves {v : Value} {fl : Bool} (hr : regOrTemp s v fl = .ok r)
    (hregs : s₁.regMapping = s.regMapping) (hfree : s₁.freeRegs = (s.erase r.reg).freeRegs) :
    Moves s (s₁.insert r.reg) none ((s.regMapping v).map RegRef.reg) := by
  refine ⟨fun w => congrArg (Option.map RegRef.reg) (congrFun hregs w), fun q => ?_, fun hs => ?_⟩
  · have hinsert : q ∈ (s₁.insert r.reg).freeRegs ↔ q = r.reg ∨ q ∈ s₁.freeRegs := mem_insertReg
    rw [hinsert, hfree, St.mem_erase]
    unfold regOrTemp at hr
    cases hv : s.regMapping v with
    | some r' =>
      rw [hv] at hr
      cases hr
      by_cases hq : q = r.reg <;> simp [hq, eq_comm]
    | none =>
      rw [hv] at hr
      obtain ⟨hmem, -, -⟩ := getTemp_spec hr
      by_cases hq : q = r.reg
      · simp [hq, hmem]
      · simp [hq]
  · have hs₁ : Sorted s₁.freeRegs := by
      rw [hfree]
      exact hs.filter _
    exact hs₁.insertReg _

theorem binInstReg_moves {op : OpID} {fl : Bool} (h : binInstReg f i op lhs rhs fl s = .ok s')
    (hcalls : hasFcalls f = false) :
    Moves s s' ((s.regMapping (.instr i)).map RegRef.reg) none := by
  obtain ⟨⟨v, d⟩, hat, h⟩ := bind_ok.mp h
  cases hreg : s.regMapping (.instr i) with
  | none => simp [St.regAtOrThrow, hreg] at hat
  | some r =>
    simp only [St.regAtOrThrow, hreg] at hat
    cases hat
    obtain ⟨s₁, h₁, h⟩ := bind_ok.mp h
    obtain ⟨rhsReg, -, h⟩ := bind_ok.mp h
    obtain ⟨s₂, h₂, h⟩ := bind_ok.mp h
    obtain ⟨s₃, h₃, h₄⟩ := bind_ok.mp h
    have hkept := (assign_kept h₁).trans ((assign_kept h₂).trans (printBin_kept h₃))
    exact ((erase_moves s d.reg).kept hkept).save (fun _ he => (Option.some.inj he).symm) h₄ hcalls

theorem binInstImm_moves {op : OpID} {c : Int} (h : binInstImm f i op lhs c s = .ok s')
    (hcalls : hasFcalls f = false) :
    Moves s s' ((s.regMapping (.instr i)).map RegRef.reg) none := by
  unfold binInstImm at h
  cases hreg : s.regMapping (.instr i) with
  | none => simp [hreg] at h
  | some d =>
    simp only [hreg] at h
    obtain ⟨s₁, h₁, h⟩ := bind_ok.mp h
    obtain ⟨s₂, h₂, h₃⟩ := bind_ok.mp h
    have hkept := (assign_kept h₁).trans (printImm_kept h₂)
    exact ((erase_moves s d.reg).kept hkept).save (fun _ he => (Option.some.inj he).symm) h₃ hcalls

theorem binInst_moves {op : OpID} {fl : Bool} (h : binInst f i op fl s = .ok s')
    (hcalls : hasFcalls f = false) :
    Moves s s' ((s.regMapping (.instr i)).map RegRef.reg) none := by
  unfold binInst at h
  split at h
  · split at h
    · split at h
      · exact binInstImm_moves h hcalls
      · split at h
        · exact binInstImm_moves h hcalls
        · exact binInstReg_moves h hcalls
      · exact binInstReg_moves h hcalls
    · exact binInstReg_moves h hcalls
  · cases h

theorem sext_moves (h : sext f i lhs s = .ok s') (hcalls : hasFcalls f = false) :
    Moves s s' ((s.regMapping (.instr i)).map RegRef.reg) none := by
  unfold sext at h
  cases hreg : s.regMapping (.instr i) with
  | none => simp [hreg] at h
  | some d =>
    simp only [hreg] at h
    obtain ⟨s₁, h₁, h⟩ := bind_ok.mp h
    obtain ⟨s₂, h₂, h⟩ := bind_ok.mp h
    obtain ⟨s₃, h₃, h₄⟩ := bind_ok.mp h
    have hkept := (assign_kept h₁).trans ((print_kept h₂).trans (print_kept h₃))
    exact ((erase_moves s d.reg).kept hkept).save (fun _ he => (Option.some.inj he).symm) h₄ hcalls

theorem icmp_moves (h : icmp f i lhs rhs s = .ok s') :
    Moves s s' ((s.regMapping (.instr i)).map RegRef.reg) none := by
  unfold icmp at h
  cases hreg : s.regMapping (.instr i) with
  | none => simp [hreg] at h
  | some d =>
    simp only [hreg] at h
    obtain ⟨s₁, h₁, h⟩ := bind_ok.mp h
    obtain ⟨rhsReg, -, h⟩ := bind_ok.mp h
    obtain ⟨s₂, h₂, h₃⟩ := bind_ok.mp h
    exact (erase_moves s d.reg).kept
      ((assign_kept h₁).trans ((assign_kept h₂).trans (printCmp_kept h₃)))

theorem printFcmp_kept {op : CmpOp} {dest a b : RegRef} (h : printFcmp op dest a b s = .ok s') :
    Kept s s' := by
  obtain ⟨s₁, h₁, h₂⟩ := bind_ok.mp h
  refine Kept.trans ?_ (print_kept h₂)
  cases op <;> exact print_kept h₁

/-- **`fcmp` releases its left operand.** -/
theorem fcmp_moves (h : fcmp f i lhs rhs s = .ok s') (hcalls : hasFcalls f = false) :
    Moves s s' ((s.regMapping (.instr i)).map RegRef.reg)
      ((s.regMapping lhs).map RegRef.reg) := by
  unfold fcmp at h
  cases hreg : s.regMapping (.instr i) with
  | none => simp [hreg] at h
  | some d =>
    simp only [hreg] at h
    obtain ⟨lhsReg, hl, h⟩ := bind_ok.mp h
    obtain ⟨s₁, h₁, h⟩ := bind_ok.mp h
    obtain ⟨rhsReg, -, h⟩ := bind_ok.mp h
    obtain ⟨s₂, h₂, h⟩ := bind_ok.mp h
    obtain ⟨s₃, h₃, h₄⟩ := bind_ok.mp h
    have hk₁ := assign_kept h₁
    have hk₂ := assign_kept h₂
    have haside : Moves (s.erase d.reg) (s₂.insert lhsReg.reg) none _ :=
      aside_moves hl (hk₂.regMapping.trans hk₁.regMapping) (by
        rw [hk₂.freeRegs]
        simp only [St.erase, hk₁.freeRegs])
    obtain rfl := save_no_calls h₄ hcalls
    exact ((erase_moves s d.reg).erase_again (haside.kept (printFcmp_kept h₃))).keeps rfl rfl

theorem fptosi_moves (h : fptosi f i lhs s = .ok s') (hcalls : hasFcalls f = false) :
    Moves s s' ((s.regMapping (.instr i)).map RegRef.reg) none := by
  obtain ⟨freg, -, h⟩ := bind_ok.mp h
  obtain ⟨s₁, h₁, h⟩ := bind_ok.mp h
  have hk₁ := assign_kept h₁
  rw [← hk₁.regMapping]
  cases hreg : s₁.regMapping (.instr i) with
  | none =>
    simp only [hreg] at h
    split_ifs at h
  | some d =>
    simp only [hreg] at h
    obtain ⟨s₂, h₂, h⟩ := bind_ok.mp h
    obtain ⟨s₃, h₃, h₄⟩ := bind_ok.mp h
    have hkept := hk₁.trans ((print_kept h₂).trans (print_kept h₃))
    exact (Moves.of_kept hkept).save (fun _ he => nomatch he) h₄ hcalls

theorem sitofpOperand_kept {v : Value} (h : sitofpOperand f v s = .ok (r, s')) : Kept s s' := by
  unfold sitofpOperand at h
  by_cases hconst : (asConstantInt v).isSome = true
  · rw [if_pos hconst] at h
    obtain ⟨ireg, -, h⟩ := bind_ok.mp h
    obtain ⟨s₁, h₁, h⟩ := bind_ok.mp h
    cases h
    exact assign_kept h₁
  · rw [if_neg hconst] at h
    cases hreg : s.regMapping v with
    | some ireg =>
      simp only [hreg] at h
      cases h
      exact Kept.refl s
    | none =>
      simp only [hreg] at h
      split_ifs at h
      cases h
      exact Kept.refl s

theorem sitofp_moves (h : sitofp f i lhs s = .ok s') (hcalls : hasFcalls f = false) :
    Moves s s' ((s.regMapping (.instr i)).map RegRef.reg) none := by
  obtain ⟨⟨ireg, s₁⟩, h₁, h⟩ := bind_ok.mp h
  have hk₁ := sitofpOperand_kept h₁
  rw [← hk₁.regMapping]
  cases hreg : s₁.regMapping (.instr i) with
  | none =>
    simp only [hreg] at h
    split_ifs at h
  | some d =>
    simp only [hreg] at h
    obtain ⟨s₂, h₂, h⟩ := bind_ok.mp h
    obtain ⟨s₃, h₃, h⟩ := bind_ok.mp h
    cases h
    have hsaved := (Moves.of_kept (hk₁.trans (print_kept h₂))).save (fun _ he => nomatch he) h₃
      hcalls
    exact hsaved.erase fun _ he => (Option.some.inj he).symm

/-- A value with a real register has an entry. -/
theorem touchReg_real {v : Value} (h : (s.regAt v).reg.isReal = true) : s.touchReg v = s := by
  unfold St.regAt at h
  cases hv : s.regMapping v with
  | none =>
    rw [hv] at h
    cases h
  | some r =>
    have hat : s.regAt v = r := by rw [St.regAt, hv, Option.getD_some]
    rw [St.touchReg, hat, ← hv, Function.update_eq_self]

/-- **`gep` leaves the pool alone**, its own register included. -/
theorem gep_moves (h : gep f i s = .ok s') : Moves s s' none none := by
  unfold gep at h
  cases hlast : (f.instr i).operands.getLast? with
  | none => simp [hlast] at h
  | some index =>
    simp only [hlast] at h
    by_cases hconst : (asConstantInt index).isSome = true
    · rw [if_pos hconst] at h
      cases h
      exact Moves.refl s
    · rw [if_neg hconst] at h
      by_cases hindex : (s.regAt index).reg.isReal = true
      · rw [touchReg_real hindex, if_pos hindex] at h
        obtain ⟨s₁, h₁, h⟩ := bind_ok.mp h
        by_cases hdest : (s.regAt (.instr i)).reg.isReal = true
        · rw [touchReg_real hdest] at h₁
          rw [if_pos hdest] at h
          obtain ⟨s₂, h₂, h⟩ := bind_ok.mp h
          obtain ⟨temp, -, h⟩ := bind_ok.mp h
          obtain ⟨s₃, h₃, h₄⟩ := bind_ok.mp h
          have hk₁ := assign_kept h₁
          have hk := (print_kept h₂).trans ((print_kept h₃).trans (print_kept h₄))
          refine Moves.kept ⟨fun v => ?_, fun q => ?_, fun hs => ?_⟩ hk
          · dsimp only
            by_cases hv : v = .instr i
            · subst hv
              rw [Function.update_self]
              unfold St.regAt at hdest ⊢
              cases hreg : s.regMapping (.instr i) with
              | none =>
                rw [hreg] at hdest
                cases hdest
              | some r => rfl
            · rw [Function.update_of_ne hv, hk₁.regMapping]
          · show q ∈ s₁.freeRegs ↔ _
            simp [hk₁.freeRegs]
          · show Sorted s₁.freeRegs
            rwa [hk₁.freeRegs]
        · rw [if_neg hdest] at h
          cases h
      · rw [if_neg hindex] at h
        cases h

theorem loadInto_moves {fl : Bool} {dest base : RegRef} {o : Int}
    (h : loadInto f fl dest o base s = .ok s') (hcalls : hasFcalls f = false) :
    dest.reg.isReal = true ∧ Moves s s' (some dest.reg) none := by
  unfold loadInto at h
  by_cases hdest : dest.reg.isReal = true
  · rw [if_pos hdest] at h
    obtain ⟨s₁, h₁, h₂⟩ := bind_ok.mp h
    exact ⟨hdest, (Moves.of_kept (print_kept h₁)).save (fun _ he => nomatch he) h₂ hcalls⟩
  · rw [if_neg hdest] at h
    cases h

/-- A step in front that leaves the pool alone. -/
theorem Moves.after {dest rel : Option Reg} (h : Moves s₁ s₂ dest rel)
    (h' : Moves s s₁ none none) : Moves s s₂ dest rel := by
  refine ⟨fun v => (h.regs v).trans (h'.regs v), fun q => ?_, fun hs => h.sorted (h'.sorted hs)⟩
  rw [h.free, h'.free]
  simp

/-- The address of a global, then the access. -/
theorem laThen_moves {fl : Bool} {dest : RegRef} {o : Int} {n : String}
    (h : (getTemp s false true >>= fun temp => print (Instgen.la temp n) s >>=
      loadInto f fl dest o temp) = .ok s') (hcalls : hasFcalls f = false) :
    dest.reg.isReal = true ∧ Moves s s' (some dest.reg) none := by
  obtain ⟨temp, -, h⟩ := bind_ok.mp h
  obtain ⟨s₁, h₁, h₂⟩ := bind_ok.mp h
  obtain ⟨hdest, hmoves⟩ := loadInto_moves h₂ hcalls
  exact ⟨hdest, hmoves.after (Moves.of_kept (print_kept h₁))⟩

theorem loadConst_moves {a : Access} {fl : Bool} {dest : RegRef}
    (h : loadConst f a fl dest s = .ok s') (hcalls : hasFcalls f = false) :
    dest.reg.isReal = true ∧ Moves s s' (some dest.reg) none := by
  unfold loadConst at h
  split at h
  · exact loadInto_moves h hcalls
  · split at h
    · exact laThen_moves h hcalls
    · split at h
      · exact laThen_moves h hcalls
      · split at h
        · exact loadInto_moves h hcalls
        · cases h

theorem scaleIndex_kept {base index : RegRef} {v : Value}
    (h : scaleIndex f base index v s = .ok s') : Kept s s' := by
  obtain ⟨s₁, h₁, h⟩ := bind_ok.mp h
  obtain ⟨s₂, h₂, h₃⟩ := bind_ok.mp h
  exact (assign_kept h₁).trans ((print_kept h₂).trans (print_kept h₃))

theorem printLoad_kept {fl : Bool} {dst base : RegRef} {o : Int}
    (h : printLoad fl dst o base s = .ok s') : Kept s s' := print_kept h

theorem printStore_kept {fl : Bool} {src base : RegRef} {o : Int}
    (h : printStore fl src o base s = .ok s') : Kept s s' := print_kept h

theorem loadVar_moves {a : Access} {ptr : Value} {fl : Bool} {dest : RegRef}
    (h : loadVar f a ptr fl dest s = .ok s') (hcalls : hasFcalls f = false) :
    dest.reg.isReal = true ∧ Moves s s' (some dest.reg) none := by
  unfold loadVar at h
  by_cases hgep : (!a.isGep) = true
  · rw [if_pos hgep] at h
    cases h
  · rw [if_neg hgep] at h
    by_cases hdest : dest.reg.isReal = true
    · rw [if_neg (by simp [hdest])] at h
      refine ⟨hdest, ?_⟩
      have hnone : ∀ q : Reg, (none : Option Reg) = some q → q = dest.reg := fun _ he => nomatch he
      split at h
      · obtain ⟨⟨_, r⟩, -, h⟩ := bind_ok.mp h
        obtain ⟨s₁, h₁, h₂⟩ := bind_ok.mp h
        exact (Moves.of_kept (printLoad_kept h₁)).save hnone h₂ hcalls
      · split at h
        · obtain ⟨⟨base, baseReg⟩, -, h⟩ := bind_ok.mp h
          obtain ⟨⟨index, indexReg⟩, -, h⟩ := bind_ok.mp h
          obtain ⟨s₁, h₁, h⟩ := bind_ok.mp h
          obtain ⟨s₂, h₂, h⟩ := bind_ok.mp h
          obtain ⟨s₃, h₃, h₄⟩ := bind_ok.mp h
          have hk := (assign_kept h₁).trans ((scaleIndex_kept h₂).trans (printLoad_kept h₃))
          have hmoved : Moves s ((s₃.setFresh indexReg.reg false).setFresh baseReg.reg false)
              none none := (Moves.of_kept hk).keeps rfl rfl
          exact hmoved.save hnone h₄ hcalls
        · obtain ⟨addrTemp, -, h⟩ := bind_ok.mp h
          obtain ⟨s₁, h₁, h⟩ := bind_ok.mp h
          obtain ⟨⟨index, indexReg⟩, -, h⟩ := bind_ok.mp h
          obtain ⟨s₂, h₂, h⟩ := bind_ok.mp h
          obtain ⟨s₃, h₃, h₄⟩ := bind_ok.mp h
          have hk := (assign_kept h₁).trans ((scaleIndex_kept h₂).trans (printLoad_kept h₃))
          have hmoved : Moves s (s₃.setFresh indexReg.reg false) none none :=
            (Moves.of_kept hk).keeps rfl rfl
          exact hmoved.save hnone h₄ hcalls
    · rw [if_pos (by simp [hdest])] at h
      cases h

theorem load_moves {ptr : Value} (h : load f i ptr s = .ok s') (hcalls : hasFcalls f = false) :
    Moves s s' ((s.regMapping (.instr i)).map RegRef.reg) none := by
  have hmoves : (s.regAt (.instr i)).reg.isReal = true ∧
      Moves (s.touchReg (.instr i)) s' (some (s.regAt (.instr i)).reg) none := by
    unfold load at h
    dsimp only at h
    split_ifs at h
    · exact loadConst_moves h hcalls
    · exact loadVar_moves h hcalls
  obtain ⟨hreal, hmoves⟩ := hmoves
  rw [touchReg_real hreal] at hmoves
  cases hreg : s.regMapping (.instr i) with
  | none =>
    rw [St.regAt, hreg] at hreal
    cases hreal
  | some r => simpa [St.regAt, hreg] using hmoves

theorem storeTo_moves {a : Access} {lval rval : Value} {fl : Bool}
    (h : storeTo f a lval rval fl r s = .ok s') :
    s'.regMapping = s.regMapping ∧ s'.freeRegs = s.freeRegs := by
  have of_kept : ∀ {s'}, Kept s s' → s'.regMapping = s.regMapping ∧ s'.freeRegs = s.freeRegs :=
    fun hk => ⟨hk.regMapping, hk.freeRegs⟩
  unfold storeTo at h
  split_ifs at h
  · unfold storeConst at h
    split at h
    · exact of_kept (printStore_kept h)
    · split at h
      · obtain ⟨addrTemp, -, h⟩ := bind_ok.mp h
        obtain ⟨s₁, h₁, h₂⟩ := bind_ok.mp h
        exact of_kept ((print_kept h₁).trans (printStore_kept h₂))
      · split at h
        · obtain ⟨addrTemp, -, h⟩ := bind_ok.mp h
          obtain ⟨s₁, h₁, h₂⟩ := bind_ok.mp h
          exact of_kept ((print_kept h₁).trans (printStore_kept h₂))
        · cases h
  · unfold storeVar at h
    split_ifs at h
    split at h
    · obtain ⟨⟨_, q⟩, -, h⟩ := bind_ok.mp h
      exact of_kept (printStore_kept h)
    · split at h
      · obtain ⟨⟨base, baseReg⟩, -, h⟩ := bind_ok.mp h
        obtain ⟨⟨index, indexReg⟩, -, h⟩ := bind_ok.mp h
        obtain ⟨s₁, h₁, h⟩ := bind_ok.mp h
        obtain ⟨s₂, h₂, h⟩ := bind_ok.mp h
        obtain ⟨s₃, h₃, h⟩ := bind_ok.mp h
        obtain ⟨s₄, h₄, h⟩ := bind_ok.mp h
        cases h
        have hk := (assign_kept h₁).trans ((scaleIndex_kept h₂).trans
          ((assign_kept h₃).trans (printStore_kept h₄)))
        exact ⟨hk.regMapping, hk.freeRegs⟩
      · obtain ⟨addrTemp, -, h⟩ := bind_ok.mp h
        obtain ⟨s₁, h₁, h⟩ := bind_ok.mp h
        obtain ⟨⟨index, indexReg⟩, -, h⟩ := bind_ok.mp h
        obtain ⟨s₂, h₂, h₃⟩ := bind_ok.mp h
        exact of_kept ((assign_kept h₁).trans ((scaleIndex_kept h₂).trans (printStore_kept h₃)))

/-- **`store` releases the value it stores.** -/
theorem store_moves {lval rval : Value} (h : store f lval rval s = .ok s') :
    Moves s s' none ((s.regMapping rval).map RegRef.reg) := by
  obtain ⟨rvalReg, hr, h⟩ := bind_ok.mp h
  obtain ⟨s₁, h₁, h⟩ := bind_ok.mp h
  obtain ⟨s₂, h₂, h⟩ := bind_ok.mp h
  cases h
  have hk := assign_kept h₁
  obtain ⟨hregs, hfree⟩ := storeTo_moves h₂
  refine aside_moves hr (hregs.trans hk.regMapping) ?_
  rw [hfree]
  simp only [St.erase, hk.freeRegs]

/-- **What an instruction does to the pool.** -/
theorem genInstr_moves (h : genInstr f i s = .ok s') (hcalls : hasFcalls f = false)
    (hcall : (f.instr i).op ≠ .call) :
    Moves s s' (defined f (fun v => (s.regMapping v).map RegRef.reg) i)
      (released f (fun v => (s.regMapping v).map RegRef.reg) i) := by
  unfold genInstr at h
  unfold defined released
  cases hop : (f.instr i).op with
  | call => exact absurd hop hcall
  | ret =>
    simp only [hop] at h
    exact Moves.of_kept (funEpilogue_kept h)
  | alloca | phi =>
    simp only [hop] at h
    cases h
    exact Moves.refl s
  | add | sub | mul | sdiv | fadd | fsub | fmul | fdiv =>
    simp only [hop] at h
    exact binInst_moves h hcalls
  | br =>
    simp only [hop] at h
    exact Moves.of_kept (branch_kept h)
  | getelementptr =>
    simp only [hop] at h
    exact gep_moves h
  | fptosi =>
    cases hops : (f.instr i).operands with
    | nil => simp [hop, hops] at h
    | cons v l =>
      simp only [hop, hops] at h
      exact fptosi_moves h hcalls
  | sitofp =>
    cases hops : (f.instr i).operands with
    | nil => simp [hop, hops] at h
    | cons v l =>
      simp only [hop, hops] at h
      exact sitofp_moves h hcalls
  | zext =>
    cases hops : (f.instr i).operands with
    | nil => simp [hop, hops] at h
    | cons v l =>
      simp only [hop, hops] at h
      exact sext_moves h hcalls
  | load =>
    cases hops : (f.instr i).operands with
    | nil => simp [hop, hops] at h
    | cons v l =>
      simp only [hop, hops] at h
      exact load_moves h hcalls
  | cmp =>
    match hops : (f.instr i).operands with
    | [] | [_] => simp [hop, hops] at h
    | lhs :: rhs :: l =>
      simp only [hop, hops] at h
      exact icmp_moves h
  | fcmp =>
    match hops : (f.instr i).operands with
    | [] | [_] => simp [hop, hops] at h
    | lhs :: rhs :: l =>
      simp only [hop, hops] at h
      exact fcmp_moves h hcalls
  | store =>
    match hops : (f.instr i).operands with
    | [] | [_] => simp [hop, hops] at h
    | rval :: lval :: l =>
      simp only [hop, hops] at h
      exact store_moves h

end

end Cminusfc.Codegen.Temps
