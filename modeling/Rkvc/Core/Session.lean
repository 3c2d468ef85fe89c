import Rkvc.Core.Graph

/-!
# Creating and starting a session

`Session::create` and `Session::start` build graphs until one stands: a
rejection of the kind another candidate may avoid moves the blamed step to its
next candidate. The number of fallbacks of a plan bounds both loops.
-/

namespace Rkvc
set_option autoImplicit false

open Lib (Logged)

/-- A session without its queues: `in_` and `out_` belong to the executor. -/
structure Session (σ : Type) where
  req : Request
  plan : Plan σ
  graph : Graph σ
  started : Bool := false
  closed : Bool := false

/-- A failed loop over the candidates: the plan it has got to, and the failure. -/
structure Stuck (σ : Type) where
  plan : Plan σ
  status : Status
  own : Option Diag := none

namespace Session

variable {σ : Type} [PluginNode σ]

/-- A status that makes the planner try another candidate. -/
def retries (s : Status) : Bool := s = .negotiate || s = .internal

/-- The plan to try after a rejection. -/
def fallback (plan : Plan σ) (r : Rejection) : Option (Plan σ) :=
  if retries r.status then plan.advance r.failedStep else none

/-- One round over the candidates; `giveUp` is what it adds when it stops. -/
def tryPlan (ctx : Context σ) (req : Request) (giveUp : Diag)
    (again : Plan σ → Logged DiagEntry (Stuck σ) (Plan σ × Graph σ)) (plan : Plan σ) :
    Logged DiagEntry (Stuck σ) (Plan σ × Graph σ) := do
  match ← (Graph.build plan ctx req).attempt with
  | .ok g => return (plan, g)
  | .error r =>
    match fallback plan r with
    | some moved => do
      Logged.tell [⟨"planner", "candidate", "candidate rejected; trying fallback"⟩]
      again moved
    | none => do
      Logged.tell giveUp
      Logged.stop { plan, status := r.status, own := r.own }

/-- The loop over the candidates, shared by `create` and `start`. It goes round
at most once for every fallback the plan has left; there is no round after that. -/
def settle (ctx : Context σ) (req : Request) (giveUp : Diag) :
    Nat → Plan σ → Logged DiagEntry (Stuck σ) (Plan σ × Graph σ)
  | 0 => tryPlan ctx req giveUp fun moved => Logged.stop { plan := moved, status := .internal }
  | fuel + 1 => tryPlan ctx req giveUp (settle ctx req giveUp fuel)

/-- **`Session::create`**. -/
def create (ctx : Context σ) (req : Request) : Logged DiagEntry (Stuck σ) (Session σ) :=
  match validate req with
  | .error e => do
    Logged.tell (e.diag ++ [⟨"create", "session", "bad request"⟩])
    Logged.stop { plan := {}, status := .invalid }
  | .ok () =>
    match ctx.plan req with
    | .error e => do
      Logged.tell e.diag
      Logged.stop { plan := {}, status := e.status }
    | .ok plan => do
      let (plan, graph) ← settle ctx req [⟨"planner", "candidate", "no further fallback candidate"⟩]
        kMaxFallbacks plan
      return { req, plan, graph }

/-- The loop of `Session::start`: open the graph, and on a hardware failure fall
back to another candidate of the step that did not open. -/
def openGraphs (ctx : Context σ) : Nat → Session σ → Session σ × Status × Diag
  | fuel, s =>
    let (graph, st, added) := Graph.openGraph s.graph
    let s := { s with graph }
    match (if st = .hw then s.plan.advance graph.failureStep else none) with
    | none => (s, st, added)
    | some moved =>
      let rebuilt := settle ctx s.req [] kMaxFallbacks moved
      let added := added ++ [⟨"planner", "candidate", "open failed; trying fallback candidate"⟩] ++ rebuilt.log
      match rebuilt.outcome, fuel with
      | .error stuck, _ => ({ s with plan := stuck.plan }, stuck.status, added)
      | .ok (plan, graph), 0 => ({ s with plan, graph }, st, added)
      | .ok (plan, graph), fuel + 1 =>
        let (s, st, more) := openGraphs ctx fuel { s with plan, graph }
        (s, st, added ++ more)

/-- `Session::start`; the executor is launched on the opened graph. -/
def start (ctx : Context σ) (s : Session σ) : Session σ × Status × Diag :=
  if s.closed then (s, .invalid, [])
  else if s.started then (s, .ok, [])
  else match openGraphs ctx kMaxFallbacks s with
    | (s, .ok, added) => ({ s with started := true }, .ok, added)
    | failed => failed

omit [PluginNode σ] in
/-- What `fallback` moves to. -/
theorem fallback_some {plan moved : Plan σ} {r : Rejection} (h : fallback plan r = some moved) :
    retries r.status = true ∧ plan.advance r.failedStep = some moved := by
  unfold fallback at h
  split at h
  · rename_i hr
    exact ⟨hr, h⟩
  · cases h

section Rounds

variable {ctx : Context σ} {req : Request} {giveUp : Diag} {plan moved : Plan σ} {r : Rejection}
  {again : Plan σ → Logged DiagEntry (Stuck σ) (Plan σ × Graph σ)}

theorem tryPlan_ok {g : Graph σ} (h : (Graph.build plan ctx req).outcome = .ok g) :
    (tryPlan ctx req giveUp again plan).outcome = .ok (plan, g) := by
  rw [tryPlan, Logged.outcome_attempt_bind, h]
  rfl

theorem tryPlan_again (h : (Graph.build plan ctx req).outcome = .error r)
    (hmoved : fallback plan r = some moved) :
    (tryPlan ctx req giveUp again plan).outcome = (again moved).outcome := by
  rw [tryPlan, Logged.outcome_attempt_bind, h]
  simp only [hmoved, Logged.outcome_tell_bind]

theorem tryPlan_giveUp (h : (Graph.build plan ctx req).outcome = .error r) (hnone : fallback plan r = none) :
    (tryPlan ctx req giveUp again plan).outcome = .error { plan, status := r.status, own := r.own } := by
  rw [tryPlan, Logged.outcome_attempt_bind, h]
  simp only [hnone, Logged.outcome_tell_bind, Logged.outcome_stop]

/-- A successful build ends the loop. -/
theorem settle_ok (plan : Plan σ) {g : Graph σ} (h : (Graph.build plan ctx req).outcome = .ok g) (fuel : Nat) :
    (settle ctx req giveUp fuel plan).outcome = .ok (plan, g) := by
  cases fuel <;> exact tryPlan_ok h

/-- A rejection with a fallback goes on with it: the fuel is never what ends the loop. -/
theorem settle_fallback (plan : Plan σ) {moved : Plan σ} (h : (Graph.build plan ctx req).outcome = .error r)
    (hmoved : fallback plan r = some moved) {fuel : Nat} (hfuel : kMaxFallbacks ≤ fuel + plan.fallbacks) :
    ∃ left, (settle ctx req giveUp fuel plan).outcome = (settle ctx req giveUp left moved).outcome ∧
      kMaxFallbacks ≤ left + moved.fallbacks := by
  obtain ⟨st, -, -, -, -, room, hplan⟩ := Plan.advance_some (fallback_some hmoved).2
  cases fuel with
  | zero => omega
  | succ left => exact ⟨left, tryPlan_again h hmoved, by rw [hplan]; dsimp only; omega⟩

/-- A rejection without one ends it. -/
theorem settle_giveUp (giveUp : Diag) (plan : Plan σ) (h : (Graph.build plan ctx req).outcome = .error r)
    (hnone : fallback plan r = none)
    (fuel : Nat) :
    (settle ctx req giveUp fuel plan).outcome = .error { plan, status := r.status, own := r.own } := by
  cases fuel <;> exact tryPlan_giveUp h hnone

end Rounds

end Session

end Rkvc
