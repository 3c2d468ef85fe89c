/-!
# Status codes, diagnostics and results

`rkvc::Status`, `rkvc::Diag` and `rkvc::Result`. Every fallible call takes an
optional `Diag*`; the model passes one always, so a failure carries the status
together with the entries the call has added.
-/

namespace Rkvc
set_option autoImplicit false

inductive Status where
  | ok | nomem | invalid | notFound | io | hw | eof | again | format | negotiate
  | permission | canceled | unsupported | internal | model | license | integrity
  deriving DecidableEq, Repr

/-- `is_flow`: the two statuses that are not errors. -/
def Status.isFlow (s : Status) : Bool := s = .again || s = .eof

/-- A status that ends a session: neither `Ok` nor a flow status. -/
def Status.isHard (s : Status) : Bool := s ≠ .ok && !s.isFlow

structure DiagEntry where
  stage : String
  subject : String
  reason : String
  deriving DecidableEq, Repr

abbrev Diag := List DiagEntry

structure Failure where
  status : Status
  diag : Diag := []
  deriving DecidableEq, Repr

abbrev Result (α : Type) := Except Failure α

namespace Result

variable {α : Type}

/-- `Result::status`. -/
def status : Result α → Status
  | .ok _ => .ok
  | .error e => e.status

/-- Reject with one diagnostic entry. -/
def reject (s : Status) (stage subject reason : String) : Result α :=
  .error ⟨s, [⟨stage, subject, reason⟩]⟩

@[simp] theorem status_ok (a : α) : status (.ok a) = .ok := rfl

@[simp] theorem status_error (e : Failure) : status (.error e : Result α) = e.status := rfl

@[simp] theorem reject_ne_ok {s : Status} {stage subject reason : String} {a : α} :
    (reject s stage subject reason : Result α) ≠ .ok a := nofun

end Result

end Rkvc
