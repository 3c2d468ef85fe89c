/-!
# Fallible steps that leave a log

`Logged ω ε α`: an outcome together with the entries appended on the way, kept
whether the step succeeds or fails. The outcome alone composes like `Except`
(`outcome_bind`), so a question that is not about the log is answered there, and
a failed sequence failed either in its first step or in the rest
(`bind_error`).
-/

namespace Rkvc.Lib
set_option autoImplicit false

structure Logged (ω ε α : Type) where
  outcome : Except ε α
  log : List ω

namespace Logged

variable {ω ε α β : Type}

protected def pure (a : α) : Logged ω ε α := ⟨.ok a, []⟩

/-- The second step runs only after a success; its log follows the first one's. -/
protected def bind (x : Logged ω ε α) (f : α → Logged ω ε β) : Logged ω ε β :=
  match x.outcome with
  | .ok a => ⟨(f a).outcome, x.log ++ (f a).log⟩
  | .error e => ⟨.error e, x.log⟩

instance : Monad (Logged ω ε) where
  pure := Logged.pure
  bind := Logged.bind

/-- Append entries. -/
def tell (entries : List ω) : Logged ω ε Unit := ⟨.ok (), entries⟩

/-- Stop. -/
def stop (e : ε) : Logged ω ε α := ⟨.error e, []⟩

/-- Run a step and go on with its outcome, whatever it is. -/
def attempt {ε' : Type} (x : Logged ω ε α) : Logged ω ε' (Except ε α) := ⟨.ok x.outcome, x.log⟩

@[simp] theorem outcome_attempt {ε' : Type} (x : Logged ω ε α) :
    (attempt x : Logged ω ε' (Except ε α)).outcome = .ok x.outcome := rfl

@[simp] theorem outcome_pure (a : α) : (pure a : Logged ω ε α).outcome = .ok a := rfl

@[simp] theorem outcome_tell (entries : List ω) :
    (tell entries : Logged ω ε Unit).outcome = .ok () := rfl

@[simp] theorem outcome_stop (e : ε) : (stop e : Logged ω ε α).outcome = .error e := rfl

/-- **Outcomes compose as in `Except`.** -/
@[simp] theorem outcome_bind (x : Logged ω ε α) (f : α → Logged ω ε β) :
    (x >>= f).outcome = x.outcome >>= fun a => (f a).outcome := by
  change (Logged.bind x f).outcome = _
  unfold Logged.bind
  cases x.outcome <;> rfl

/-- An attempted step and an appended entry always go on. -/
@[simp] theorem outcome_attempt_bind {ε' : Type} (x : Logged ω ε α) (f : Except ε α → Logged ω ε' β) :
    (attempt x >>= f).outcome = (f x.outcome).outcome := rfl

@[simp] theorem outcome_tell_bind (entries : List ω) (f : Unit → Logged ω ε β) :
    (tell entries >>= f).outcome = (f ()).outcome := rfl

/-- A successful sequence is two successes. -/
theorem bind_ok {x : Logged ω ε α} {f : α → Logged ω ε β} {b : β}
    (h : (x >>= f).outcome = .ok b) : ∃ a, x.outcome = .ok a ∧ (f a).outcome = .ok b := by
  rw [outcome_bind] at h
  cases hx : x.outcome with
  | ok a => rw [hx] at h; exact ⟨a, rfl, h⟩
  | error e => rw [hx] at h; cases h

/-- A failed sequence failed at once, or after a first success. -/
theorem bind_error {x : Logged ω ε α} {f : α → Logged ω ε β} {e : ε}
    (h : (x >>= f).outcome = .error e) :
    x.outcome = .error e ∨ ∃ a, x.outcome = .ok a ∧ (f a).outcome = .error e := by
  rw [outcome_bind] at h
  cases hx : x.outcome with
  | ok a => rw [hx] at h; exact .inr ⟨a, rfl, h⟩
  | error e' => rw [hx] at h; cases h; exact .inl rfl

end Logged

end Rkvc.Lib
