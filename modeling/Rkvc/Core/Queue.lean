import Rkvc.Core.Status

/-!
# Bounded queues

`rkvc::BoundedQueue`: a FIFO that ends once, closed or cancelled. A blocking
call is `none` while its condition does not hold.
-/

namespace Rkvc
set_option autoImplicit false

structure BoundedQueue (α : Type) where
  capacity : Nat
  items : List α := []
  /-- `end_status_`, once `end_` is set. -/
  ended : Option Status := none

namespace BoundedQueue

variable {α : Type}

def ofCapacity (capacity : Nat) : BoundedQueue α where
  capacity := if capacity ≠ 0 then capacity else 1

/-- **`push`** blocks while the queue is full and has not ended. -/
def push (q : BoundedQueue α) (v : α) : Option (BoundedQueue α × Status) :=
  match q.ended with
  | some st => some (q, st)
  | none => if q.items.length < q.capacity then some ({ q with items := q.items ++ [v] }, .ok) else none

def tryPush (q : BoundedQueue α) (v : α) : BoundedQueue α × Status :=
  match q.ended with
  | some st => (q, st)
  | none => if q.items.length ≥ q.capacity then (q, .again) else ({ q with items := q.items ++ [v] }, .ok)

/-- **`pop`** blocks while the queue is empty and has not ended. -/
def pop (q : BoundedQueue α) : Option (BoundedQueue α × Except Status α) :=
  match q.items, q.ended with
  | v :: rest, _ => some ({ q with items := rest }, .ok v)
  | [], some st => some (q, .error st)
  | [], none => none

def tryPop (q : BoundedQueue α) : BoundedQueue α × Except Status α :=
  match q.items, q.ended with
  | v :: rest, _ => ({ q with items := rest }, .ok v)
  | [], some st => (q, .error st)
  | [], none => (q, .error .again)

def close (q : BoundedQueue α) : BoundedQueue α := { q with ended := some (q.ended.getD .eof) }

/-- `cancel` ignores the statuses that are no errors. -/
def cancel (q : BoundedQueue α) (s : Status) : BoundedQueue α :=
  if s.isHard then { q with ended := some (q.ended.getD s) } else q

@[simp] theorem items_close (q : BoundedQueue α) : q.close.items = q.items := rfl

@[simp] theorem ended_close (q : BoundedQueue α) : q.close.ended = some (q.ended.getD .eof) := rfl

@[simp] theorem items_cancel (q : BoundedQueue α) (s : Status) : (q.cancel s).items = q.items := by
  unfold cancel; split <;> rfl

theorem ended_cancel {q : BoundedQueue α} {s : Status} (hs : s.isHard = true) :
    (q.cancel s).ended = some (q.ended.getD s) := by
  unfold cancel; rw [if_pos hs]

/-- Once ended, a queue stays as it ended. -/
theorem ended_cancel_of_some {q : BoundedQueue α} {s st : Status} (h : q.ended = some st) :
    (q.cancel s).ended = some st := by
  unfold cancel; split <;> simp [h]

end BoundedQueue

end Rkvc
