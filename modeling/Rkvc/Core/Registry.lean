import Rkvc.Core.Model
import Rkvc.Core.Request

/-!
# Factories, plans and their fallbacks

`Registry::candidates` ranks the factories that match a request, `Context::plan`
lines up one step per stage, and `Plan::advance` moves one step to its next
candidate. A node of a factory is a value of `σ`; what such a node can do is in
`Rkvc.Core.Node`.
-/

namespace Rkvc
set_option autoImplicit false

inductive NodeStage where
  | source | decode | transform | encode | sink
  deriving DecidableEq, Repr

inductive Transport where
  | internal | queue | file
  deriving DecidableEq, Repr

/-- `create` may succeed with a null node; its diagnostics are the entries it adds. -/
structure Factory (σ : Type) where
  id : String
  stage : NodeStage
  transport : Transport := .internal
  priority : Int := 0
  «matches» : Request → DeviceCaps → Bool
  score : Request → DeviceCaps → Int := fun _ _ => 0
  create : Request → Result (Option σ) × Diag

structure Registry (σ : Type) where
  factories : List (Factory σ) := []
  borrowed : List (Factory σ) := []

structure PlanStep (σ : Type) where
  stage : NodeStage := .transform
  /-- Pointers, so possibly null; the planner stores none. -/
  candidates : List (Option (Factory σ)) := []
  index : Nat := 0
  adapterSource : Bool := false
  adapterSink : Bool := false

structure Plan (σ : Type) where
  steps : List (PlanStep σ) := []
  fallbacks : Nat := 0

/-- The registry, the model store and the probed capabilities. -/
structure Context (σ : Type) where
  registry : Registry σ := {}
  models : List Model := []
  caps : DeviceCaps := {}

variable {σ : Type}

/-- The order of `Registry::candidates`: higher rank first, then the smaller id. -/
def Factory.ahead (r : Request) (caps : DeviceCaps) (a b : Factory σ) : Bool :=
  let sa := a.priority + a.score r caps
  let sb := b.priority + b.score r caps
  if sa ≠ sb then sa > sb else !(b.id < a.id)

def Registry.candidates (reg : Registry σ) (stage : NodeStage) (r : Request) (caps : DeviceCaps) :
    List (Factory σ) :=
  ((reg.factories ++ reg.borrowed).filter fun f => f.stage = stage && f.matches r caps).mergeSort
    (Factory.ahead r caps)

namespace Context

def findModel (ctx : Context σ) (id : String) : Option Model := ctx.models.find? (·.id = id)

def firstModel (ctx : Context σ) : Option Model := ctx.models.head?

/-- The step of an endpoint: a queue adapter, or the file factories of its side. -/
def endpointStep (ctx : Context σ) (req : Request) (ep : Endpoint) (source : Bool) :
    Option (PlanStep σ) :=
  let stage := if source then .source else .sink
  match ep.kind with
  | .frameSink => some { stage, adapterSource := source, adapterSink := !source }
  | .file =>
    let files := (ctx.registry.candidates stage req ctx.caps).filter (·.transport = .file)
    if files.isEmpty then none else some { stage, candidates := files.map some }
  | .stream => none

/-- The stages between the endpoints. -/
def middle : Operation → List NodeStage
  | .encode => [.encode]
  | .decode => [.decode]
  | .transcode => [.decode, .encode]
  | .upscale => [.transform]

def stageStep (ctx : Context σ) (req : Request) (stage : NodeStage) : Option (PlanStep σ) :=
  let found := ctx.registry.candidates stage req ctx.caps
  if found.isEmpty then none else some { stage, candidates := found.map some }

/-- **`Context::plan`**: endpoint, stages, endpoint. -/
def plan (ctx : Context σ) (req : Request) : Result (Plan σ) := do
  let reject (s : Status) (reason : String) : Result (Plan σ) :=
    Result.reject s "planner" "request" reason
  validate req
  match ctx.endpointStep req req.input true with
  | none => reject .unsupported "no source for endpoint"
  | some first =>
    match (middle req.operation).mapM (ctx.stageStep req) with
    | none => reject .notFound "required stage has no candidate"
    | some steps =>
      match ctx.endpointStep req req.output false with
      | none => reject .unsupported "no sink for endpoint"
      | some last => return { steps := first :: steps ++ [last] }

end Context

def kMaxFallbacks : Nat := 8

/-- **`Plan::advance`**: `none` when the step has nothing to fall back to. -/
def Plan.advance (p : Plan σ) (failedStep : Nat) : Option (Plan σ) :=
  if p.fallbacks ≥ kMaxFallbacks then none
  else match p.steps[failedStep]? with
    | none => none
    | some st =>
      if st.adapterSource || st.adapterSink then none
      else if st.index + 1 ≥ st.candidates.length then none
      else some { steps := p.steps.set failedStep { st with index := st.index + 1 }
                  fallbacks := p.fallbacks + 1 }

namespace Plan

/-- The step of a queue endpoint. -/
def sourceAdapter : PlanStep σ := { stage := .source, adapterSource := true }

def sinkAdapter : PlanStep σ := { stage := .sink, adapterSink := true }

/-- A plan between two queue endpoints. -/
def betweenQueues (stages : List (PlanStep σ)) : Plan σ where
  steps := sourceAdapter :: stages ++ [sinkAdapter]

/-- What a successful `advance` did. -/
theorem advance_some {p p' : Plan σ} {i : Nat} (h : p.advance i = some p') :
    ∃ st, p.steps[i]? = some st ∧ st.adapterSource = false ∧ st.adapterSink = false ∧
      st.index + 1 < st.candidates.length ∧ p.fallbacks < kMaxFallbacks ∧
      p' = { steps := p.steps.set i { st with index := st.index + 1 }, fallbacks := p.fallbacks + 1 } := by
  unfold advance at h
  split at h
  · cases h
  rename_i room
  split at h
  · cases h
  rename_i st found
  split at h
  · cases h
  rename_i stage
  split at h
  · cases h
  rename_i more
  simp only [Bool.or_eq_true, not_or, Bool.not_eq_true] at stage
  exact ⟨st, found, stage.1, stage.2, by omega, by omega, (Option.some.inj h).symm⟩

/-- `advance` changes the step it is given, and no other. -/
theorem advance_moves {p p' : Plan σ} {i : Nat} (h : p.advance i = some p') (k : Nat) :
    p'.steps[k]? ≠ p.steps[k]? ↔ k = i := by
  obtain ⟨st, found, -, -, -, -, rfl⟩ := advance_some h
  have hi : i < p.steps.length := (List.getElem?_eq_some_iff.mp found).1
  by_cases hk : k = i
  · subst hk
    simp only [List.getElem?_set_self hi, found, ne_eq, Option.some.injEq, iff_true]
    intro heq
    have := congrArg PlanStep.index heq
    simp at this
  · simp [List.getElem?_set_ne (Ne.symm hk), hk]

end Plan

/-- A factory that always has the one node to give. -/
def Factory.always (id : String) (stage : NodeStage) (node : σ) : Factory σ where
  id
  stage
  «matches» _ _ := true
  create _ := (.ok (some node), [])

end Rkvc
