import Cminusfc.Lib.Fallible

/-!
# Computations with a log

`Logged ω ε α` is a computation of type `Except ε α` together with the events it went through, up to
the failure if it fails. A routine can be written a second time as a `Logged` computation that also
writes down what a proof needs to know of its course; `res_bind` and its companions then show that
the result is the routine's own.

* `logging x w` runs `x` and writes `w a` for its result `a`.
* `log_bind`: the log of a sequence whose first part succeeds.
-/

universe u

/-- A computation that may fail and writes a log. -/
structure Logged (ω ε α : Type u) where
  log : List ω
  res : Except ε α

namespace Logged

variable {ω ε α β : Type u}

instance : Monad (Logged ω ε) where
  pure a := ⟨[], .ok a⟩
  bind x k :=
    match x.res with
    | .ok a => ⟨x.log ++ (k a).log, (k a).res⟩
    | .error e => ⟨x.log, .error e⟩

/-- A computation without events. -/
def lift (x : Except ε α) : Logged ω ε α := ⟨[], x⟩

instance : MonadLift (Except ε) (Logged ω ε) := ⟨lift⟩

/-- Events without a computation. -/
def tell (l : List ω) : Logged ω ε PUnit := ⟨l, .ok ⟨⟩⟩

/-- A computation whose result is written down. -/
def logging (x : Except ε α) (w : α → ω) : Logged ω ε α :=
  ⟨match x with
    | .ok a => [w a]
    | .error _ => [], x⟩

@[simp] theorem res_pure (a : α) : (pure a : Logged ω ε α).res = .ok a := rfl

@[simp] theorem log_pure (a : α) : (pure a : Logged ω ε α).log = [] := rfl

@[simp] theorem res_lift (x : Except ε α) : (lift x : Logged ω ε α).res = x := rfl

@[simp] theorem log_lift (x : Except ε α) : (lift x : Logged ω ε α).log = [] := rfl

@[simp] theorem res_liftM (x : Except ε α) : (liftM x : Logged ω ε α).res = x := rfl

@[simp] theorem log_liftM (x : Except ε α) : (liftM x : Logged ω ε α).log = [] := rfl

@[simp] theorem res_tell (l : List ω) : (tell l : Logged ω ε PUnit).res = .ok ⟨⟩ := rfl

@[simp] theorem log_tell (l : List ω) : (tell l : Logged ω ε PUnit).log = l := rfl

@[simp] theorem res_logging (x : Except ε α) (w : α → ω) : (logging x w).res = x := rfl

theorem log_logging {x : Except ε α} {a : α} (h : x = .ok a) (w : α → ω) :
    (logging x w).log = [w a] := by
  subst h
  rfl

@[simp] theorem res_bind (x : Logged ω ε α) (k : α → Logged ω ε β) :
    (x >>= k).res = x.res >>= fun a => (k a).res := by
  obtain ⟨l, r⟩ := x
  cases r <;> rfl

theorem log_bind {x : Logged ω ε α} {a : α} (h : x.res = .ok a) (k : α → Logged ω ε β) :
    (x >>= k).log = x.log ++ (k a).log := by
  obtain ⟨l, r⟩ := x
  cases h
  rfl

/-- A part without events in front. -/
theorem log_liftM_bind {x : Except ε α} {a : α} (h : x = .ok a) (k : α → Logged ω ε β) :
    ((liftM x : Logged ω ε α) >>= k).log = (k a).log := by
  subst h
  rfl

end Logged
