import Mathlib.Logic.Function.Basic
import Rkvc.Core.Queue
import Rkvc.Lib.Kahn

/-!
# The executor

One worker thread per node of a linear graph. The queues are numbered along the
graph: queue 0 is the session's input queue, queue `i + 1` is what node `i`
writes, so queues `1 .. n - 1` are the edges and queue `n` is the session's
output queue. Worker `i` reads queue `i` and writes queue `i + 1`, and
`Executor::fail` cancels the queues `0 .. n - 1` in this order.

A node is the code of its `process` and `flush`, a `Prog` each: it may emit into
the queue it writes, and the source may pull from the input queue. `step` is one
atomic step of one thread, the caller's threads included; a worker is at most
one queue operation or one critical section per step. `sent` and `taken` record
what each queue has accepted and delivered; no step reads them.
-/

namespace Rkvc.Executor
set_option autoImplicit false

open Lib.Kahn

instance : Flow Status where
  ok := .ok
  eof := .eof

/-- The code of a node, with its state before `open` returns. -/
structure NodeCode (σ α : Type) where
  init : σ
  process : σ → Option α → Prog σ α Status
  flush : σ → Prog σ α Status

/-- `QueueSourceNode`: frame by frame from the input queue. -/
def queueSource {σ α : Type} (init : σ) : NodeCode σ α where
  init
  process st _ := .pull st fun f => .emit f fun e => .ret st e
  flush st := .ret st .ok

/-- `QueueSinkNode`: frame by frame into the output queue. -/
def queueSink {σ α : Type} (init : σ) : NodeCode σ α where
  init
  process st
    | none => .ret st .invalid
    | some f => .emit f fun e => .ret st e
  flush st := .ret st .ok

/-- What `launch` accepts: at least two nodes, between queues of one capacity. -/
structure Net (σ α : Type) where
  n : Nat
  node : Nat → NodeCode σ α
  capacity : Nat
  two_le : 2 ≤ n

/-- Why a worker has returned: the end of its input and a flush that went well,
or a status it has handed to `fail`. -/
inductive Exit where
  | eof
  | status (st : Status)
  deriving DecidableEq, Repr

/-- Where a worker is. -/
inductive Pc (σ α : Type) where
  /-- At the top of its loop. -/
  | loop (s : σ)
  /-- Inside `process` or `flush`. -/
  | calling (ph : Phase) (p : Prog σ α Status)
  /-- Before the close of its output. -/
  | closing
  /-- Entering `fail`. -/
  | failing (st : Status)
  /-- Inside `fail`, with the error recorded and queue `k` next to be cancelled. -/
  | cancelling (st : Status) (k : Nat)
  /-- Back from `fail`. -/
  | failed (st : Status)
  /-- Returned, before its guard has run. -/
  | leaving (why : Exit)
  | exited (why : Exit)

structure State (σ α : Type) where
  queue : Nat → BoundedQueue α
  pc : Nat → Pc σ α
  error : Status
  active : Nat
  sent : Nat → List α
  taken : Nat → List α

/-- What happens next: a call of the session's owner, or a step of worker `i`.
`shutdown` cancels one queue. -/
inductive Event (α : Type) where
  | push (f : α)
  | pushEos
  | pull
  | shutdown (k : Nat)
  | work (i : Nat)

variable {σ α : Type}

namespace State

def goto (s : State σ α) (i : Nat) (pc : Pc σ α) : State σ α := { s with pc := Function.update s.pc i pc }

def setQueue (s : State σ α) (k : Nat) (q : BoundedQueue α) : State σ α :=
  { s with queue := Function.update s.queue k q }

/-- Queue `k` accepts a frame. -/
def accept (s : State σ α) (k : Nat) (f : α) : State σ α :=
  { s with
    queue := Function.update s.queue k { s.queue k with items := (s.queue k).items ++ [f] }
    sent := Function.update s.sent k (s.sent k ++ [f]) }

/-- Queue `k` delivers its first frame. -/
def take (s : State σ α) (k : Nat) (f : α) : State σ α :=
  { s with
    queue := Function.update s.queue k { s.queue k with items := (s.queue k).items.tail }
    taken := Function.update s.taken k (s.taken k ++ [f]) }

@[simp] theorem goto_pc (s : State σ α) (i : Nat) (pc : Pc σ α) :
    (s.goto i pc).pc = Function.update s.pc i pc := rfl
@[simp] theorem goto_queue (s : State σ α) (i : Nat) (pc : Pc σ α) : (s.goto i pc).queue = s.queue := rfl
@[simp] theorem goto_error (s : State σ α) (i : Nat) (pc : Pc σ α) : (s.goto i pc).error = s.error := rfl
@[simp] theorem goto_active (s : State σ α) (i : Nat) (pc : Pc σ α) : (s.goto i pc).active = s.active := rfl
@[simp] theorem goto_sent (s : State σ α) (i : Nat) (pc : Pc σ α) : (s.goto i pc).sent = s.sent := rfl
@[simp] theorem goto_taken (s : State σ α) (i : Nat) (pc : Pc σ α) : (s.goto i pc).taken = s.taken := rfl

end State

/-- `Executor::launch`: all workers at the top of their loops. -/
def Net.start (net : Net σ α) : State σ α where
  queue _ := .ofCapacity net.capacity
  pc i := .loop (net.node i).init
  error := .ok
  active := net.n
  sent _ := []
  taken _ := []

/-- `NodeEmit::emit`, or the push of `QueueSinkNode`. -/
def emit (s : State σ α) (k : Nat) (f : α) : Option (State σ α × Status) :=
  match (s.queue k).push f with
  | none => none
  | some (_, st) => some (if (s.queue k).ended.isNone then s.accept k f else s, st)

/-- A blocking pop of queue `k`. -/
def pop (s : State σ α) (k : Nat) : Option (State σ α × Except Status α) :=
  match (s.queue k).pop with
  | none => none
  | some (_, .ok f) => some (s.take k f, .ok f)
  | some (_, .error st) => some (s, .error st)

/-- **`Executor::worker`** and the `fail` it calls, one step of worker `i`. -/
def work (net : Net σ α) (s : State σ α) (i : Nat) : Option (State σ α) :=
  match s.pc i with
  | .loop st =>
    if i = 0 then some (s.goto i (.calling .process ((net.node i).process st none)))
    else match pop s i with
      | none => none
      | some (s, .ok f) => some (s.goto i (.calling .process ((net.node i).process st (some f))))
      | some (s, .error e) =>
        some (s.goto i (if e = .eof then .calling .flush ((net.node i).flush st) else .failing e))
  | .calling ph (.emit f k) =>
    match emit s (i + 1) f with
    | none => none
    | some (s, e) => some (s.goto i (.calling ph (k e)))
  | .calling ph (.pull st k) =>
    if i ≠ 0 then none
    else match pop s 0 with
      | none => none
      | some (s, .ok f) => some (s.goto i (.calling ph (k f)))
      | some (s, .error e) => some (s.goto i (.calling ph (.ret st e)))
  | .calling .process (.ret st e) =>
    some (s.goto i
      (if e = .ok then .loop st
        else if i = 0 ∧ e = .eof then .calling .flush ((net.node i).flush st)
        else .failing e))
  | .calling .flush (.ret _ e) => some (s.goto i (if e = .ok then .closing else .failing e))
  | .closing => some ((s.setQueue (i + 1) (s.queue (i + 1)).close).goto i (.leaving .eof))
  | .failing e =>
    if !e.isHard ∨ s.error ≠ .ok then some (s.goto i (.failed e))
    else some ({ s with error := e }.goto i (.cancelling e 0))
  | .cancelling e k =>
    if k < net.n then some ((s.setQueue k ((s.queue k).cancel e)).goto i (.cancelling e (k + 1)))
    else some (s.goto i (.failed e))
  | .failed e =>
    if i + 1 = net.n then
      some ((s.setQueue net.n ((s.queue net.n).cancel e)).goto i (.leaving (.status e)))
    else some (s.goto i (.leaving (.status e)))
  | .leaving why => some ({ s with active := s.active - 1 }.goto i (.exited why))
  | .exited _ => none

/-- **One step of the system.** -/
def step (net : Net σ α) (s : State σ α) : Event α → Option (State σ α)
  | .push f => if ((s.queue 0).tryPush f).2 = .ok then some (s.accept 0 f) else none
  | .pushEos => some (s.setQueue 0 (s.queue 0).close)
  | .pull =>
    match (s.queue net.n).items with
    | f :: _ => some (s.take net.n f)
    | [] => none
  | .shutdown k => if k ≤ net.n then some (s.setQueue k ((s.queue k).cancel .canceled)) else none
  | .work i => if i < net.n then work net s i else none

/-- **The states of runs whose steps are all allowed.** -/
inductive Reach (net : Net σ α) (allowed : State σ α → Event α → Prop) : State σ α → Prop
  | start : Reach net allowed net.start
  | step {s s' : State σ α} {e : Event α} : Reach net allowed s → allowed s e → step net s e = some s' →
      Reach net allowed s'

/-- `Executor::wait`: blocks until no worker is active. -/
def wait (s : State σ α) : Option Status := if s.active = 0 then some s.error else none

/-- Play events one after another, as long as they are allowed and possible. -/
def play (net : Net σ α) (allowed : State σ α → Event α → Bool) :
    State σ α → List (Event α) → Option (State σ α)
  | s, [] => some s
  | s, e :: es => if allowed s e then (step net s e).bind fun s' => play net allowed s' es else none

theorem play_reach {net : Net σ α} (allowed : State σ α → Event α → Bool) (es : List (Event α))
    {s t : State σ α} (hs : Reach net (fun s e => allowed s e = true) s)
    (h : play net allowed s es = some t) : Reach net (fun s e => allowed s e = true) t := by
  induction es generalizing s with
  | nil => cases h; exact hs
  | cons e es ih =>
    unfold play at h
    split at h
    · rename_i hallowed
      obtain ⟨s', hstep, hplay⟩ := Option.bind_eq_some_iff.mp h
      exact ih (hs.step hallowed hstep) hplay
    · cases h

/-- More may be allowed. -/
theorem Reach.mono {net : Net σ α} {allowed allowed' : State σ α → Event α → Prop} {s : State σ α}
    (himp : ∀ s e, allowed s e → allowed' s e) (h : Reach net allowed s) : Reach net allowed' s := by
  induction h with
  | start => exact .start
  | step _ ha hstep ih => exact ih.step (himp _ _ ha) hstep

/-- **Invariants**: what holds at the start, and across every allowed step of a
state in which it holds, holds of every reachable state. -/
theorem Reach.invariant {net : Net σ α} {allowed : State σ α → Event α → Prop} {P : State σ α → Prop}
    (hstart : P net.start)
    (hstep : ∀ s s' e, P s → allowed s e → Executor.step net s e = some s' → P s') {s : State σ α}
    (h : Reach net allowed s) : P s := by
  induction h with
  | start => exact hstart
  | step _ ha hs ih => exact hstep _ _ _ ih ha hs

/-! ## What one step of a worker does -/

/-- The steps of worker `i`. -/
inductive Work (net : Net σ α) (s : State σ α) (i : Nat) : State σ α → Prop
  | call {st} : i = 0 → s.pc i = .loop st →
      Work net s i (s.goto i (.calling .process ((net.node i).process st none)))
  | take {st f rest} : 0 < i → s.pc i = .loop st → (s.queue i).items = f :: rest →
      Work net s i ((s.take i f).goto i (.calling .process ((net.node i).process st (some f))))
  | takeEof {st} : 0 < i → s.pc i = .loop st → (s.queue i).items = [] → (s.queue i).ended = some .eof →
      Work net s i (s.goto i (.calling .flush ((net.node i).flush st)))
  | takeEnd {st e} : 0 < i → s.pc i = .loop st → (s.queue i).items = [] → (s.queue i).ended = some e →
      e ≠ .eof → Work net s i (s.goto i (.failing e))
  | emit {ph f k} : s.pc i = .calling ph (.emit f k) → (s.queue (i + 1)).ended = none →
      (s.queue (i + 1)).items.length < (s.queue (i + 1)).capacity →
      Work net s i ((s.accept (i + 1) f).goto i (.calling ph (k .ok)))
  | emitEnd {ph f k e} : s.pc i = .calling ph (.emit f k) → (s.queue (i + 1)).ended = some e →
      Work net s i (s.goto i (.calling ph (k e)))
  | pull {ph st k f rest} : i = 0 → s.pc i = .calling ph (.pull st k) → (s.queue 0).items = f :: rest →
      Work net s i ((s.take 0 f).goto i (.calling ph (k f)))
  | pullEnd {ph st k e} : i = 0 → s.pc i = .calling ph (.pull st k) → (s.queue 0).items = [] →
      (s.queue 0).ended = some e → Work net s i (s.goto i (.calling ph (.ret st e)))
  | again {st} : s.pc i = .calling .process (.ret st .ok) → Work net s i (s.goto i (.loop st))
  | sourceEof {st} : i = 0 → s.pc i = .calling .process (.ret st .eof) →
      Work net s i (s.goto i (.calling .flush ((net.node i).flush st)))
  | fail {st e} : s.pc i = .calling .process (.ret st e) → e ≠ .ok → ¬(i = 0 ∧ e = .eof) →
      Work net s i (s.goto i (.failing e))
  | flushed {st} : s.pc i = .calling .flush (.ret st .ok) → Work net s i (s.goto i .closing)
  | flushFail {st e} : s.pc i = .calling .flush (.ret st e) → e ≠ .ok → Work net s i (s.goto i (.failing e))
  | close : s.pc i = .closing →
      Work net s i ((s.setQueue (i + 1) (s.queue (i + 1)).close).goto i (.leaving .eof))
  | filtered {e} : s.pc i = .failing e → e.isHard = false → Work net s i (s.goto i (.failed e))
  | second {e} : s.pc i = .failing e → s.error ≠ .ok → Work net s i (s.goto i (.failed e))
  | first {e} : s.pc i = .failing e → e.isHard = true → s.error = .ok →
      Work net s i ({ s with error := e }.goto i (.cancelling e 0))
  | cancel {e k} : s.pc i = .cancelling e k → k < net.n →
      Work net s i ((s.setQueue k ((s.queue k).cancel e)).goto i (.cancelling e (k + 1)))
  | cancelled {e k} : s.pc i = .cancelling e k → net.n ≤ k → Work net s i (s.goto i (.failed e))
  | leaveSink {e} : s.pc i = .failed e → i + 1 = net.n →
      Work net s i ((s.setQueue net.n ((s.queue net.n).cancel e)).goto i (.leaving (.status e)))
  | leave {e} : s.pc i = .failed e → i + 1 ≠ net.n → Work net s i (s.goto i (.leaving (.status e)))
  | exit {why} : s.pc i = .leaving why → Work net s i ({ s with active := s.active - 1 }.goto i (.exited why))

theorem emit_some {s t : State σ α} {k : Nat} {f : α} {e : Status} (h : emit s k f = some (t, e)) :
    ((s.queue k).ended = none ∧ (s.queue k).items.length < (s.queue k).capacity ∧
        t = s.accept k f ∧ e = .ok) ∨
      ((s.queue k).ended = some e ∧ t = s) := by
  unfold emit BoundedQueue.push at h
  cases hend : (s.queue k).ended with
  | some st =>
    simp only [hend, Option.some.injEq, Prod.mk.injEq] at h
    exact .inr ⟨by rw [h.2], h.1.symm⟩
  | none =>
    simp only [hend] at h
    split at h
    · cases h
    · rename_i hpush
      split at hpush
      · rename_i room
        cases hpush
        cases h
        exact .inl ⟨rfl, room, rfl, rfl⟩
      · cases hpush

theorem pop_some {s t : State σ α} {k : Nat} {r : Except Status α} (h : pop s k = some (t, r)) :
    (∃ f rest, (s.queue k).items = f :: rest ∧ t = s.take k f ∧ r = .ok f) ∨
      ∃ e, (s.queue k).items = [] ∧ (s.queue k).ended = some e ∧ t = s ∧ r = .error e := by
  unfold pop BoundedQueue.pop at h
  cases hitems : (s.queue k).items with
  | cons f rest =>
    simp only [hitems] at h
    cases h
    exact .inl ⟨f, rest, rfl, rfl, rfl⟩
  | nil =>
    cases hend : (s.queue k).ended with
    | none => simp [hitems, hend] at h
    | some e =>
      simp only [hitems, hend] at h
      cases h
      exact .inr ⟨e, rfl, rfl, rfl, rfl⟩

/-- **Every step of a worker is one of these.** -/
theorem work_spec {net : Net σ α} {s t : State σ α} {i : Nat} (h : work net s i = some t) : Work net s i t := by
  unfold work at h
  split at h
  case h_1 st hpc =>
    split at h
    · rename_i h0
      cases h
      exact .call h0 hpc
    rename_i h0
    split at h
    · cases h
    · rename_i u f hpop
      obtain ⟨f', rest, hitems, rfl, hr⟩ | ⟨e, -, -, -, hr⟩ := pop_some hpop
      · cases hr
        cases h
        exact .take (by omega) hpc hitems
      · cases hr
    · rename_i u e hpop
      obtain ⟨f', rest, -, -, hr⟩ | ⟨e, hitems, hend, rfl, hr⟩ := pop_some hpop
      · cases hr
      · cases hr
        cases h
        split
        · rename_i he
          exact .takeEof (by omega) hpc hitems (he ▸ hend)
        · rename_i he
          exact .takeEnd (by omega) hpc hitems hend he
  case h_2 ph f k hpc =>
    split at h
    · cases h
    · rename_i u e hemit
      cases h
      obtain ⟨hend, room, rfl, rfl⟩ | ⟨hend, rfl⟩ := emit_some hemit
      · exact .emit hpc hend room
      · exact .emitEnd hpc hend
  case h_3 ph st k hpc =>
    split at h
    · cases h
    rename_i h0
    have h0 : i = 0 := Decidable.not_not.mp h0
    split at h
    · cases h
    · rename_i u f hpop
      obtain ⟨f', rest, hitems, rfl, hr⟩ | ⟨e, -, -, -, hr⟩ := pop_some hpop
      · cases hr
        cases h
        exact .pull h0 hpc hitems
      · cases hr
    · rename_i u e hpop
      obtain ⟨f', rest, -, -, hr⟩ | ⟨e, hitems, hend, rfl, hr⟩ := pop_some hpop
      · cases hr
      · cases hr
        cases h
        exact .pullEnd h0 hpc hitems hend
  case h_4 st e hpc =>
    cases h
    split
    · rename_i he
      exact .again (he ▸ hpc)
    split
    · rename_i he
      exact .sourceEof he.1 (he.2 ▸ hpc)
    · rename_i hok heof
      exact .fail hpc hok heof
  case h_5 st e hpc =>
    cases h
    split
    · rename_i he
      exact .flushed (he ▸ hpc)
    · rename_i he
      exact .flushFail hpc he
  case h_6 hpc =>
    cases h
    exact .close hpc
  case h_7 e hpc =>
    split at h
    · rename_i hfail
      cases h
      rcases hfail with hflow | herr
      · exact .filtered hpc (by simpa using hflow)
      · exact .second hpc herr
    · rename_i hfail
      cases h
      simp only [not_or, Bool.not_eq_true', Bool.not_eq_false, ne_eq, Decidable.not_not] at hfail
      exact .first hpc hfail.1 hfail.2
  case h_8 e k hpc =>
    split at h
    · rename_i hk
      cases h
      exact .cancel hpc hk
    · rename_i hk
      cases h
      exact .cancelled hpc (by omega)
  case h_9 e hpc =>
    split at h
    · rename_i hsink
      cases h
      exact .leaveSink hpc hsink
    · rename_i hsink
      cases h
      exact .leave hpc hsink
  case h_10 why hpc =>
    cases h
    exact .exit hpc
  case h_11 => cases h

end Rkvc.Executor
