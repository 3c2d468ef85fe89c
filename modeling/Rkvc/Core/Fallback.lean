import Rkvc.Core.Blame
import Rkvc.Core.Session

/-!
# Falling back to a candidate that works

A plan of one stage between two queues. `Session::create` reaches a later
candidate only by moving step 1, and `Plan::advance` moves it only when step 1
is blamed. A candidate that is turned down on its edge to the sink, by an
adapter that is left without a format, or behind a bridge is turned down at
another step, and the session gives up (`create_uses_iff`).
-/

namespace Rkvc.Session
set_option autoImplicit false

open Lib (Logged)
open Rkvc.Graph (Culprit.Covers NoBridgeBefore planBridges)

variable {σ : Type} [PluginNode σ] {ctx : Context σ} {req : Request}

/-- One stage with its candidates, at candidate `index`, between two queues. -/
def stagePlan (stage : NodeStage) (candidates : List (Option (Factory σ))) (index : Nat) : Plan σ :=
  .betweenQueues [{ stage, candidates, index }]

/-- **A rejection that the stage answers for**: of its candidate before any
bridge (created, of the wrong arity, configured or bound), of the edge in front
of it, or of the bridge on that edge. -/
def Answers (plan : Plan σ) (req : Request) (c : Culprit) : Prop :=
  match c with
  | .node (.step k) => k = 1 ∧ NoBridgeBefore plan req (.step 1)
  | .node (.bridge k) => k = 0
  | .edge (.step k) _ => k = 0
  | _ => False

/-- The step blamed is step 1 exactly when the stage answers for the rejection. -/
theorem failedStep_eq_one {plan : Plan σ} {r : Rejection}
    (h : (Graph.build plan ctx req).outcome = .error r) : r.failedStep = 1 ↔ Answers plan req r.culprit := by
  have none : planBridges plan req 0 = 0 := (Graph.planBridges_eq_zero plan req (.step 0)).mpr fun _ _ _ hj =>
    absurd hj (Nat.not_lt_zero _)
  cases Graph.build_reported h with
  | request culprit step => simp [culprit, step, Answers]
  | step k culprit step =>
    have first := Graph.planBridges_eq_zero plan req (.step 1)
    simp only [Graph.Origin.first] at first
    simp only [culprit, step, Answers, ← first]
    rcases Nat.lt_trichotomy k 1 with hk | rfl | hk
    · obtain rfl : k = 0 := by omega
      omega
    · omega
    · omega
  | bridge k culprit step =>
    simp only [culprit, step, Answers]
    rcases k with _ | k <;> omega
  | edge k culprit step =>
    simp only [culprit, step, Answers]
    rcases k with _ | k <;> omega

omit [PluginNode σ] in
/-- How a one-stage plan falls back: blame on the stage moves it, all other
blame ends the loop. -/
theorem fallback_stagePlan (stage : NodeStage) (cs : List (Option (Factory σ))) (j : Nat) {r : Rejection}
    (hj : j < kMaxFallbacks) (hcs : j + 1 < cs.length) (hr : retries r.status = true) :
    fallback { stagePlan stage cs j with fallbacks := j } r =
      if r.failedStep = 1 then some { stagePlan stage cs (j + 1) with fallbacks := j + 1 } else none := by
  have room : ¬kMaxFallbacks ≤ j := by omega
  rw [fallback, if_pos hr]
  rcases hstep : r.failedStep with _ | _ | _ | i
  · simp [Plan.advance, room, stagePlan, Plan.betweenQueues, Plan.sourceAdapter]
  · simp [Plan.advance, room, stagePlan, Plan.betweenQueues, Nat.not_le.mpr hcs]
  · simp [Plan.advance, room, stagePlan, Plan.betweenQueues, Plan.sinkAdapter]
  · simp [Plan.advance, room, stagePlan, Plan.betweenQueues]

/-- The rejection of one candidate. -/
def Rejected (ctx : Context σ) (req : Request) (plan : Plan σ) : Prop :=
  ∃ r, (Graph.build plan ctx req).outcome = .error r ∧ retries r.status = true

/-- The stage answers for whatever the build of a plan is rejected for. -/
def StageAnswers (ctx : Context σ) (req : Request) (plan : Plan σ) : Prop :=
  ∀ r, (Graph.build plan ctx req).outcome = .error r → Answers plan req r.culprit

section Candidates

variable {stage : NodeStage} {cs : List (Option (Factory σ))} {k : Nat} {giveUp : Diag}

/-- While the stage answers for the rejections, the loop goes from candidate to
candidate. -/
theorem settle_reaches (hk : k ≤ kMaxFallbacks) (hcs : k < cs.length)
    (rejected : ∀ j < k, Rejected ctx req (stagePlan stage cs j)) {j : Nat} (hj : j ≤ k)
    (answers : ∀ i < j, StageAnswers ctx req (stagePlan stage cs i)) :
    ∃ fuel, (settle ctx req giveUp kMaxFallbacks (stagePlan stage cs 0)).outcome =
        (settle ctx req giveUp fuel { stagePlan stage cs j with fallbacks := j }).outcome ∧
      kMaxFallbacks ≤ fuel + j := by
  induction j with
  | zero => exact ⟨kMaxFallbacks, rfl, Nat.le_refl _⟩
  | succ j ih =>
    obtain ⟨fuel, hfuel, room⟩ := ih (by omega) fun i hi => answers i (by omega)
    obtain ⟨r, hr, retry⟩ := rejected j (by omega)
    have blamed := (failedStep_eq_one hr).mpr (answers j (Nat.lt_succ_self j) r hr)
    have moved := fallback_stagePlan stage cs j (by omega) (by omega) retry
    rw [if_pos blamed] at moved
    obtain ⟨left, hleft, room⟩ := settle_fallback { stagePlan stage cs j with fallbacks := j } hr moved room
    exact ⟨left, hfuel.trans hleft, room⟩

/-- The loop ends at the first candidate whose rejection the stage does not
answer for. -/
theorem settle_uses_iff {g : Graph σ} (hk : k ≤ kMaxFallbacks) (hcs : k < cs.length)
    (built : (Graph.build (stagePlan stage cs k) ctx req).outcome = .ok g)
    (rejected : ∀ j < k, Rejected ctx req (stagePlan stage cs j)) :
    (settle ctx req giveUp kMaxFallbacks (stagePlan stage cs 0)).outcome =
        .ok ({ stagePlan stage cs k with fallbacks := k }, g) ↔
      ∀ j < k, StageAnswers ctx req (stagePlan stage cs j) := by
  constructor
  · intro h j
    induction j using Nat.strongRecOn with
    | _ j ih =>
      intro hj r hr
      by_contra unanswered
      obtain ⟨fuel, hfuel, -⟩ := settle_reaches hk hcs rejected (j := j) (by omega)
        fun i hi => ih i hi (by omega)
      obtain ⟨r', hr', retry⟩ := rejected j hj
      obtain rfl := Except.error.inj (hr'.symm.trans hr)
      have stays := fallback_stagePlan stage cs j (by omega) (by omega) retry
      rw [if_neg ((failedStep_eq_one hr).not.mpr unanswered)] at stays
      have ends := settle_giveUp giveUp { stagePlan stage cs j with fallbacks := j } hr stays fuel
      rw [hfuel, ends] at h
      cases h
  · intro answers
    obtain ⟨fuel, hfuel, -⟩ := settle_reaches hk hcs rejected (Nat.le_refl k) answers
    rw [hfuel]
    exact settle_ok { stagePlan stage cs k with fallbacks := k } built fuel

end Candidates

/-- `create` is the loop, once the request has a plan. -/
theorem create_eq {plan : Plan σ} (hplan : ctx.plan req = .ok plan) :
    (create ctx req).outcome =
      (settle ctx req [⟨"planner", "candidate", "no further fallback candidate"⟩] kMaxFallbacks plan).outcome.map
        fun built => { req, plan := built.1, graph := built.2 } := by
  have valid : validate req = .ok () := by
    unfold Context.plan at hplan
    cases hv : validate req with
    | ok u => rfl
    | error e => rw [hv] at hplan; cases hplan
  unfold create
  simp only [valid, hplan, Logged.outcome_bind]
  cases (settle ctx req [⟨"planner", "candidate", "no further fallback candidate"⟩] kMaxFallbacks plan).outcome
    <;> rfl

/-- **Falling back.** A plan of one stage between two queues whose candidates
before `k` are rejected with a retryable status, and whose candidate `k` builds:
the session is created with candidate `k` exactly when the stage answers for
every one of the rejections. -/
theorem create_uses_iff {stage : NodeStage} {cs : List (Option (Factory σ))} {k : Nat} {g : Graph σ}
    (hplan : ctx.plan req = .ok (stagePlan stage cs 0)) (hk : k ≤ kMaxFallbacks) (hcs : k < cs.length)
    (built : (Graph.build (stagePlan stage cs k) ctx req).outcome = .ok g)
    (rejected : ∀ j < k, Rejected ctx req (stagePlan stage cs j)) :
    (create ctx req).outcome = .ok { req, plan := { stagePlan stage cs k with fallbacks := k }, graph := g } ↔
      ∀ j < k, StageAnswers ctx req (stagePlan stage cs j) := by
  rw [create_eq hplan, ← settle_uses_iff hk hcs built rejected]
  constructor
  · intro h
    cases hsettle : (settle ctx req [⟨"planner", "candidate", "no further fallback candidate"⟩]
        kMaxFallbacks (stagePlan stage cs 0)).outcome with
    | error stuck => rw [hsettle] at h; cases h
    | ok result =>
      rw [hsettle] at h
      obtain ⟨-, hplan', hgraph, -, -⟩ := Session.mk.inj (Except.ok.inj h)
      rw [← hplan', ← hgraph]
  · intro h
    rw [h]
    rfl

/-! ## Two decoders -/

/-- A context with two decoders, the one of format `first` preferred. -/
def decoders (first : Spec) (configured : Status) : Context FixedNode where
  registry.factories := [
    { Factory.always "first" .decode (.stage { fmt := .bitstream } first configured) with priority := 1 },
    .always "second" .decode (.stage { fmt := .bitstream } { fmt := .nv12 })]

/-- Its decoders, in the order of the plan. -/
def decoderCandidates (first : Spec) (configured : Status) : List (Option (Factory FixedNode)) :=
  (decoders first configured).registry.factories.map some

theorem decoders_plan (first : Spec) (configured : Status) :
    (decoders first configured).plan (Graph.decodeRequest { fmt := .nv12 }) =
      .ok (stagePlan .decode (decoderCandidates first configured) 0) := by
  have sorted : (decoders first configured).registry.candidates .decode
      (Graph.decodeRequest { fmt := .nv12 }) {} = (decoders first configured).registry.factories := by
    refine (List.mergeSort_of_pairwise ?_)
    simp [decoders, Factory.always, Factory.ahead]
  have stage : (decoders first configured).stageStep (Graph.decodeRequest { fmt := .nv12 }) .decode =
      some { stage := .decode, candidates := decoderCandidates first configured } := by
    have caps : (decoders first configured).caps = {} := rfl
    rw [Context.stageStep, caps, sorted]
    rfl
  have steps : (Context.middle (Graph.decodeRequest { fmt := .nv12 }).operation).mapM
      ((decoders first configured).stageStep (Graph.decodeRequest { fmt := .nv12 })) =
      some [{ stage := .decode, candidates := decoderCandidates first configured }] := by
    have one : Context.middle (Graph.decodeRequest { fmt := .nv12 }).operation = [.decode] := rfl
    rw [one, List.mapM_cons, stage]
    rfl
  unfold Context.plan
  simp only [steps]
  rfl

/-- The first decoder does not accept its ports, and the second is used. -/
theorem create_uses_second :
    ((create (decoders { fmt := .nv12 } .negotiate) (Graph.decodeRequest { fmt := .nv12 })).outcome.map
      (·.plan.fallbacks)).toOption = some 1 := by
  have plan := decoders_plan { fmt := .nv12 } .negotiate
  have used := (create_uses_iff plan (k := 1) (by decide) (by decide) (by rfl) ?_).mpr ?_
  · rw [used]; rfl
  · intro j hj
    obtain rfl : j = 0 := by omega
    exact ⟨_, rfl, rfl⟩
  · intro j hj r hr
    obtain rfl : j = 0 := by omega
    cases hr
    refine ⟨rfl, ?_⟩
    intro links hlinks i hi
    obtain rfl : i = 0 := by simp [Graph.Origin.first] at hi; exact hi
    cases hlinks
    decide

/-- The first decoder emits RGB, which the sink does not take: the sink is
blamed, and the session gives up although the second decoder builds. -/
theorem sink_mismatch_gives_up :
    (decoders { fmt := .rgb24 } .ok).plan (Graph.decodeRequest { fmt := .nv12 }) =
        .ok (stagePlan .decode (decoderCandidates { fmt := .rgb24 } .ok) 0) ∧
      (Graph.build (stagePlan .decode (decoderCandidates { fmt := .rgb24 } .ok) 0)
        (decoders { fmt := .rgb24 } .ok) (Graph.decodeRequest { fmt := .nv12 })).outcome =
          .error { failedStep := 2, status := .negotiate, culprit := .edge (.step 1) (.step 2) } ∧
      (Graph.build (stagePlan .decode (decoderCandidates { fmt := .rgb24 } .ok) 1)
        (decoders { fmt := .rgb24 } .ok) (Graph.decodeRequest { fmt := .nv12 })).outcome.isOk = true ∧
      (create (decoders { fmt := .rgb24 } .ok) (Graph.decodeRequest { fmt := .nv12 })).outcome.isOk = false := by
  refine ⟨decoders_plan { fmt := .rgb24 } .ok, rfl, rfl, ?_⟩
  rw [create_eq (decoders_plan { fmt := .rgb24 } .ok)]
  rfl

end Rkvc.Session
