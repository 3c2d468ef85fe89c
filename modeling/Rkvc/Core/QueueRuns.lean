import Rkvc.Core.Queue

/-!
# Runs of a bounded queue

Any number of threads call a queue in any order. A call is one step under the
mutex, a blocking call is taken once its wait condition holds, and a run is the
list of the calls with their answers. What the queue promises is said of that list.
-/

namespace Rkvc
set_option autoImplicit false

namespace BoundedQueue

variable {α τ : Type}

inductive Call (α : Type) where
  | push (v : α)
  | tryPush (v : α)
  | pop
  | tryPop
  | close
  | cancel (s : Status)

inductive Answer (α : Type) where
  | pushed (s : Status)
  | popped (r : Except Status α)
  | done

/-- One call; `none` while it waits. -/
def call (q : BoundedQueue α) : Call α → Option (BoundedQueue α × Answer α)
  | .push v => (q.push v).map fun r => (r.1, .pushed r.2)
  | .tryPush v => some ((q.tryPush v).1, .pushed (q.tryPush v).2)
  | .pop => q.pop.map fun r => (r.1, .popped r.2)
  | .tryPop => some (q.tryPop.1, .popped q.tryPop.2)
  | .close => some (q.close, .done)
  | .cancel s => some (q.cancel s, .done)

/-- A call of a thread, and what it got. -/
structure Event (τ α : Type) where
  thread : τ
  call : Call α
  answer : Answer α

/-- The calls of all threads, in the order in which they took the mutex. -/
inductive Run (start : BoundedQueue α) : List (Event τ α) → BoundedQueue α → Prop where
  | start : Run start [] start
  | call {trace : List (Event τ α)} {q q' : BoundedQueue α} {e : Event τ α} (ran : Run start trace q)
      (taken : q.call e.call = some (q', e.answer)) : Run start (trace ++ [e]) q'

/-- The item that an event has put into the queue. -/
def Event.accepted (e : Event τ α) : Option α :=
  match e.call, e.answer with
  | .push v, .pushed .ok => some v
  | .tryPush v, .pushed .ok => some v
  | _, _ => none

/-- The item that an event has taken out. -/
def Event.delivered (e : Event τ α) : Option α :=
  match e.answer with
  | .popped (.ok v) => some v
  | _ => none

/-- The status with which an event is turned away. -/
def Event.refused (e : Event τ α) : Option Status :=
  match e.answer with
  | .pushed s => if s = .ok then none else some s
  | .popped (.error s) => some s
  | _ => none

/-- The status with which an event ends a queue that has not ended before. -/
def Event.ending (e : Event τ α) : Option Status :=
  match e.call with
  | .close => some .eof
  | .cancel s => if s.isHard then some s else none
  | _ => none

def accepted (trace : List (Event τ α)) : List α := trace.filterMap Event.accepted

def delivered (trace : List (Event τ α)) : List α := trace.filterMap Event.delivered

/-- The first effective `close` or `cancel`. -/
def ending (trace : List (Event τ α)) : Option Status := trace.findSome? Event.ending

/-- A status that a queue may end with. -/
def Terminal (s : Status) : Prop := s = .eof ∨ s.isHard = true

theorem Terminal.ne_ok {s : Status} (h : Terminal s) : s ≠ .ok := by
  rintro rfl
  rcases h with h | h <;> exact absurd h (by decide)

theorem Event.ending_terminal {e : Event τ α} {s : Status} (ends : e.ending = some s) : Terminal s := by
  unfold Event.ending at ends
  split at ends
  · exact Or.inl (Option.some.inj ends).symm
  · split at ends
    · rename_i hard
      cases ends
      exact Or.inr hard
    · cases ends
  · cases ends

/-- What one call does, in terms of its event. -/
structure Stepped (q q' : BoundedQueue α) (e : Event τ α) : Prop where
  conserved : e.delivered.toList ++ q'.items = q.items ++ e.accepted.toList
  room : q.items.length ≤ q.capacity → q'.items.length ≤ q.capacity
  capacity : q'.capacity = q.capacity
  ended : q'.ended = q.ended.or e.ending
  shut : q.ended.isSome → e.accepted = none
  refused : ∀ s, e.refused = some s → q.ended = some s ∨ s = .again ∧ q.ended = none
  drained : ∀ s, e.answer = .popped (.error s) → q.items = []

/-- `push` and `try_push`, whichever way they end. -/
theorem stepped_push {q q' : BoundedQueue α} {e : Event τ α} {v : α} {s : Status}
    (calls : e.call = .push v ∨ e.call = .tryPush v) (answers : e.answer = .pushed s)
    (pushed : q.ended = none ∧ q.items.length < q.capacity ∧ q' = { q with items := q.items ++ [v] } ∧ s = .ok ∨
      q' = q ∧ s ≠ .ok ∧ (q.ended = some s ∨ s = .again ∧ q.ended = none)) :
    Stepped q q' e := by
  have silent : e.ending = none := by
    rcases calls with h | h <;> simp [Event.ending, h]
  have none : e.delivered = none := by simp [Event.delivered, answers]
  rcases pushed with ⟨going, room, rfl, rfl⟩ | ⟨rfl, failed, why⟩
  · have taken : e.accepted = some v := by
      rcases calls with h | h <;> simp [Event.accepted, h, answers]
    constructor
    · simp [none, taken]
    · intro _
      rw [List.length_append]
      exact room
    · rfl
    · simp [silent]
    · simp [going]
    · intro s refused
      simp [Event.refused, answers] at refused
    · intro s popped
      simp [answers] at popped
  · have rejected : e.accepted = Option.none := by
      unfold Event.accepted
      rcases calls with h | h <;> rw [h, answers] <;> cases s <;> first | rfl | exact absurd rfl failed
    constructor
    · simp [none, rejected]
    · exact id
    · rfl
    · simp [silent]
    · exact fun _ => rejected
    · intro s' refused
      simp only [Event.refused, answers, if_neg failed, Option.some.injEq] at refused
      rw [← refused]
      exact why
    · intro s popped
      simp [answers] at popped

/-- `pop` and `try_pop`, whichever way they end. -/
theorem stepped_pop {q q' : BoundedQueue α} {e : Event τ α} {r : Except Status α}
    (calls : e.call = .pop ∨ e.call = .tryPop) (answers : e.answer = .popped r)
    (popped : (∃ v rest, q.items = v :: rest ∧ q' = { q with items := rest } ∧ r = .ok v) ∨
      ∃ s, q.items = [] ∧ q' = q ∧ r = .error s ∧ (q.ended = some s ∨ s = .again ∧ q.ended = none)) :
    Stepped q q' e := by
  have silent : e.ending = none := by
    rcases calls with h | h <;> simp [Event.ending, h]
  have none : e.accepted = none := by
    rcases calls with h | h <;> simp [Event.accepted, h]
  rcases popped with ⟨v, rest, items, rfl, rfl⟩ | ⟨s, empty, rfl, rfl, why⟩
  · constructor
    · simp [Event.delivered, answers, none, items]
    · intro room
      rw [items, List.length_cons] at room
      exact Nat.le_of_succ_le room
    · rfl
    · simp [silent]
    · exact fun _ => none
    · intro s refused
      simp [Event.refused, answers] at refused
    · intro s popped
      simp [answers] at popped
  · constructor
    · simp [Event.delivered, answers, none]
    · exact id
    · rfl
    · simp [silent]
    · exact fun _ => none
    · intro s' refused
      simp only [Event.refused, answers, Option.some.injEq] at refused
      rw [← refused]
      exact why
    · intro _ _
      exact empty

/-- `close` and `cancel`. -/
theorem stepped_end {q q' : BoundedQueue α} {e : Event τ α} (answers : e.answer = .done)
    (items : q'.items = q.items) (capacity : q'.capacity = q.capacity) (taken : e.accepted = none)
    (ended : q'.ended = q.ended.or e.ending) : Stepped q q' e := by
  constructor
  · simp [Event.delivered, answers, taken, items]
  · intro room
    rw [items]
    exact room
  · exact capacity
  · exact ended
  · exact fun _ => taken
  · intro s refused
    simp [Event.refused, answers] at refused
  · intro s popped
    simp [answers] at popped

/-- **One call of any thread** on a queue that has ended, if at all, as queues do. -/
theorem call_stepped {q q' : BoundedQueue α} {e : Event τ α} (sound : ∀ s, q.ended = some s → Terminal s)
    (taken : q.call e.call = some (q', e.answer)) : Stepped q q' e := by
  have rejects : ∀ s, q.ended = some s → s ≠ .ok := fun s h => (sound s h).ne_ok
  cases calls : e.call with
  | push v =>
    rw [calls, call, Option.map_eq_some_iff] at taken
    obtain ⟨⟨after, s⟩, pushed, same⟩ := taken
    obtain ⟨rfl, answers⟩ := Prod.ext_iff.mp same
    apply stepped_push (Or.inl calls) answers.symm
    unfold push at pushed
    cases ended : q.ended with
    | some st =>
      simp only [ended, Option.some.injEq, Prod.mk.injEq] at pushed
      obtain ⟨rfl, rfl⟩ := pushed
      exact Or.inr ⟨rfl, rejects _ ended, Or.inl rfl⟩
    | none =>
      simp only [ended, Option.ite_none_right_eq_some, Option.some.injEq, Prod.mk.injEq] at pushed
      obtain ⟨room, rfl, rfl⟩ := pushed
      exact Or.inl ⟨rfl, room, rfl, rfl⟩
  | tryPush v =>
    rw [calls, call, Option.some.injEq] at taken
    obtain ⟨rfl, answers⟩ := Prod.ext_iff.mp taken
    apply stepped_push (Or.inr calls) answers.symm
    unfold tryPush
    cases ended : q.ended with
    | some st => exact Or.inr ⟨rfl, rejects _ ended, Or.inl rfl⟩
    | none =>
      by_cases full : q.items.length ≥ q.capacity
      · simp [full]
      · simp [full]
        omega
  | pop =>
    rw [calls, call, Option.map_eq_some_iff] at taken
    obtain ⟨⟨after, r⟩, popped, same⟩ := taken
    obtain ⟨rfl, answers⟩ := Prod.ext_iff.mp same
    apply stepped_pop (Or.inl calls) answers.symm
    unfold pop at popped
    cases items : q.items with
    | cons v rest =>
      simp only [items, Option.some.injEq, Prod.mk.injEq] at popped
      obtain ⟨rfl, rfl⟩ := popped
      exact Or.inl ⟨v, rest, rfl, rfl, rfl⟩
    | nil =>
      cases ended : q.ended with
      | none => simp [items, ended] at popped
      | some st =>
        simp only [items, ended, Option.some.injEq, Prod.mk.injEq] at popped
        obtain ⟨rfl, rfl⟩ := popped
        exact Or.inr ⟨st, rfl, rfl, rfl, Or.inl rfl⟩
  | tryPop =>
    rw [calls, call, Option.some.injEq] at taken
    obtain ⟨rfl, answers⟩ := Prod.ext_iff.mp taken
    apply stepped_pop (Or.inr calls) answers.symm
    unfold tryPop
    cases items : q.items with
    | cons v rest => exact Or.inl ⟨v, rest, rfl, rfl, rfl⟩
    | nil =>
      cases ended : q.ended with
      | none => exact Or.inr ⟨.again, rfl, rfl, rfl, Or.inr ⟨rfl, rfl⟩⟩
      | some st => exact Or.inr ⟨st, rfl, rfl, rfl, Or.inl rfl⟩
  | close =>
    rw [calls, call, Option.some.injEq] at taken
    obtain ⟨rfl, answers⟩ := Prod.ext_iff.mp taken
    apply stepped_end answers.symm (items_close q) rfl
    · simp [Event.accepted, calls]
    · cases ended : q.ended <;> simp [Event.ending, calls, close, ended]
  | cancel s =>
    rw [calls, call, Option.some.injEq] at taken
    obtain ⟨rfl, answers⟩ := Prod.ext_iff.mp taken
    apply stepped_end answers.symm (items_cancel q s)
    · unfold cancel
      split <;> rfl
    · simp [Event.accepted, calls]
    · unfold cancel
      cases ended : q.ended <;> by_cases hard : s.isHard <;> simp [Event.ending, calls, ended, hard]

/-- The book of a queue that has been called as `trace` tells. -/
structure Ledger (capacity : Nat) (trace : List (Event τ α)) (q : BoundedQueue α) : Prop where
  conserved : delivered trace ++ q.items = accepted trace
  room : q.items.length ≤ max capacity 1
  capacity : q.capacity = max capacity 1
  ended : q.ended = ending trace

theorem ending_terminal {trace : List (Event τ α)} {s : Status} (ends : ending trace = some s) : Terminal s := by
  obtain ⟨e, -, h⟩ := List.exists_of_findSome?_eq_some ends
  exact e.ending_terminal h

theorem Ledger.sound {capacity : Nat} {trace : List (Event τ α)} {q : BoundedQueue α}
    (book : Ledger capacity trace q) (s : Status) (ended : q.ended = some s) : Terminal s := by
  rw [book.ended] at ended
  exact ending_terminal ended

theorem Ledger.start (capacity : Nat) : Ledger capacity ([] : List (Event τ α)) (ofCapacity capacity) := by
  have one : (ofCapacity capacity : BoundedQueue α).capacity = max capacity 1 := by
    unfold ofCapacity
    dsimp only
    split <;> omega
  constructor
  · rfl
  · exact Nat.zero_le _
  · exact one
  · rfl

/-- **Every call keeps the book.** -/
theorem Ledger.call {capacity : Nat} {trace : List (Event τ α)} {q q' : BoundedQueue α} {e : Event τ α}
    (book : Ledger capacity trace q) (taken : q.call e.call = some (q', e.answer)) :
    Ledger capacity (trace ++ [e]) q' := by
  have step := call_stepped book.sound taken
  have last : ∀ f : Event τ α → Option α, (trace ++ [e]).filterMap f = trace.filterMap f ++ (f e).toList := by
    intro f
    rw [List.filterMap_append]
    cases h : f e <;> simp [h]
  constructor
  · unfold delivered accepted
    rw [last, last, List.append_assoc, step.conserved, ← List.append_assoc]
    exact congrArg (· ++ e.accepted.toList) book.conserved
  · have room := step.room (by rw [book.capacity]; exact book.room)
    rwa [book.capacity] at room
  · rw [step.capacity, book.capacity]
  · rw [step.ended, book.ended]
    simp [ending, List.findSome?_append]

theorem Run.ledger {capacity : Nat} {trace : List (Event τ α)} {q : BoundedQueue α}
    (ran : Run (ofCapacity capacity) trace q) : Ledger capacity trace q := by
  induction ran with
  | start => exact Ledger.start capacity
  | call _ taken ih => exact ih.call taken

/-- The queue before and after a call in the middle of a run. -/
theorem Run.at {start q : BoundedQueue α} {before after : List (Event τ α)} {e : Event τ α}
    (ran : Run start (before ++ e :: after) q) :
    ∃ p p', Run start before p ∧ p.call e.call = some (p', e.answer) ∧ Run start (before ++ [e]) p' := by
  generalize same : before ++ e :: after = trace at ran
  induction ran generalizing after with
  | start => simp at same
  | @call trace p p' last ran taken ih =>
    rcases List.eq_nil_or_concat after with rfl | ⟨front, final, rfl⟩
    · obtain ⟨rfl, rfl⟩ : before = trace ∧ e = last := by simpa using same
      exact ⟨p, p', ran, taken, ran.call taken⟩
    · have cut : (before ++ e :: front) ++ [final] = trace ++ [last] := by simpa using same
      exact ih (List.append_inj' cut rfl).1

/-- A call that comes after the end puts nothing into the queue. -/
theorem Run.shut {capacity : Nat} {q : BoundedQueue α} {before after : List (Event τ α)} {e : Event τ α}
    (ran : Run (ofCapacity capacity) (before ++ e :: after) q) (ended : (ending before).isSome) :
    e.accepted = none := by
  obtain ⟨p, p', earlier, taken, -⟩ := ran.at
  have book := earlier.ledger
  apply (call_stepped book.sound taken).shut
  rw [book.ended]
  exact ended

/-- What every run promises its callers. -/
structure Contract (capacity : Nat) (trace : List (Event τ α)) (q : BoundedQueue α) : Prop where
  /-- What was popped is what was accepted, up to what is still there. -/
  order : delivered trace ++ q.items = accepted trace
  room : q.items.length ≤ max capacity 1
  /-- After a `close` or an effective `cancel` nothing is accepted. -/
  shut : ∀ (before after : List (Event τ α)), trace = before ++ after → (ending before).isSome →
    accepted after = []
  /-- A pop that reports the end has nothing left to deliver, then or later. -/
  drained : ∀ (before after : List (Event τ α)) (e : Event τ α) (s : Status), trace = before ++ e :: after →
    e.answer = .popped (.error s) → s ≠ .again → delivered before = accepted trace
  /-- A call is turned away with the status of the first end, or because it would have to wait. -/
  status : ∀ (before after : List (Event τ α)) (e : Event τ α) (s : Status), trace = before ++ e :: after →
    e.refused = some s → ending before = some s ∨ s = .again ∧ ending before = none
  /-- Once ended, no call waits. -/
  awake : (ending trace).isSome → ∀ c : Call α, (q.call c).isSome

theorem Run.shut_all {capacity : Nat} {q : BoundedQueue α} {before after : List (Event τ α)}
    (ran : Run (ofCapacity capacity) (before ++ after) q) (ended : (ending before).isSome) :
    accepted after = [] := by
  apply List.filterMap_eq_nil_iff.mpr
  intro e he
  obtain ⟨front, rest, rfl⟩ := List.append_of_mem he
  rw [← List.append_assoc] at ran
  apply ran.shut
  rw [ending, List.findSome?_append, Option.isSome_or]
  exact Bool.or_eq_true_iff.mpr (Or.inl ended)

/-- **The contract of a bounded queue**, whatever its threads call. -/
theorem queue_contract {capacity : Nat} {trace : List (Event τ α)} {q : BoundedQueue α}
    (ran : Run (ofCapacity capacity) trace q) : Contract capacity trace q := by
  constructor
  · exact ran.ledger.conserved
  · exact ran.ledger.room
  · rintro before after rfl ended
    exact ran.shut_all ended
  · rintro before after e s rfl popped failed
    obtain ⟨p, p', earlier, taken, -⟩ := ran.at
    have step := call_stepped earlier.ledger.sound taken
    have ended : p.ended = some s := by
      rcases step.refused s (by simp [Event.refused, popped]) with h | ⟨h, -⟩
      · exact h
      · exact absurd h failed
    have closed : (ending before).isSome := by
      rw [← earlier.ledger.ended, ended]
      rfl
    have late : accepted (e :: after) = [] := ran.shut_all closed
    have book := earlier.ledger.conserved
    rw [step.drained s popped, List.append_nil] at book
    have all : accepted (before ++ e :: after) = accepted before ++ accepted (e :: after) :=
      List.filterMap_append
    rw [book, all, late, List.append_nil]
  · rintro before after e s rfl refused
    obtain ⟨p, p', earlier, taken, -⟩ := ran.at
    rw [← earlier.ledger.ended]
    exact (call_stepped earlier.ledger.sound taken).refused s refused
  · intro ended c
    rw [← ran.ledger.ended] at ended
    obtain ⟨s, hs⟩ := Option.isSome_iff_exists.mp ended
    cases c with
    | push v => simp [BoundedQueue.call, push, hs]
    | pop => cases items : q.items <;> simp [BoundedQueue.call, pop, hs, items]
    | tryPush v => rfl
    | tryPop => rfl
    | close => rfl
    | cancel s => rfl

/-- Two threads, a queue of one place: the item put in before `cancel` is delivered first. -/
theorem queue_contract_cancel :
    ∃ q : BoundedQueue Nat, Contract 0
      [⟨0, .push 7, .pushed .ok⟩, ⟨1, .tryPush 8, .pushed .again⟩, ⟨0, .cancel .io, .done⟩,
        ⟨1, .pop, .popped (.ok 7)⟩, ⟨0, .close, .done⟩, ⟨1, .tryPop, .popped (.error .io)⟩] q := by
  have ran : Run (ofCapacity 0 : BoundedQueue Nat) ([] ++ [⟨0, .push 7, .pushed .ok⟩] ++
      [⟨1, .tryPush 8, .pushed .again⟩] ++ [⟨0, .cancel .io, .done⟩] ++ [⟨1, .pop, .popped (.ok 7)⟩] ++
      [⟨0, .close, .done⟩] ++ [⟨1, .tryPop, .popped (.error .io)⟩]) _ :=
    .call (.call (.call (.call (.call (.call .start rfl) rfl) rfl) rfl) rfl) rfl
  exact ⟨_, queue_contract ran⟩

end BoundedQueue

end Rkvc
