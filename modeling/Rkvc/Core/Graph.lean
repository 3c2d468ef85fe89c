import Rkvc.Core.Node
import Rkvc.Core.Registry
import Rkvc.Lib.Logged

/-!
# Building and opening a graph

`Graph::build` runs in passes over the plan: create a node per step, splice a
download bridge into every edge that only disagrees about the memory domain,
unify the edges, configure the nodes, bind the models. `Graph::open` opens the
nodes in order and closes the opened ones again when one fails. Allocation does
not fail in the model.

A failure reports `failedStep`, as the source does. Beside it the model records
what rejected (`Culprit`): the source keeps no such record, and nothing the
passes compute reads it.
-/

namespace Rkvc
set_option autoImplicit false

open Lib (Logged)

/-- What a node of a graph stands for: step `k` of the plan, or the bridge
spliced behind step `k`. -/
inductive Origin where
  | step (k : Nat)
  | bridge (k : Nat)
  deriving DecidableEq, Repr

def Origin.isStep : Origin → Bool
  | .step _ => true
  | .bridge _ => false

/-- Who rejected: the checks on the arguments, a node, or an edge. -/
inductive Culprit where
  | request
  | node (o : Origin)
  | edge (a b : Origin)
  deriving DecidableEq, Repr

structure Rejection where
  failedStep : Nat
  status : Status
  /-- A candidate's own diagnostics; otherwise the failure carries the caller's. -/
  own : Option Diag := none
  culprit : Culprit
  deriving DecidableEq, Repr

/-- A pass of `Graph::build`, with the entries it adds to the caller's `Diag`. -/
abbrev Build := Logged DiagEntry Rejection

/-- A node with its ports. -/
structure Link (σ : Type) where
  node : Node σ
  ports : List Port
  origin : Origin

/-- Edge `i` is a queue of `queueCapacity` frames from node `i` to node `i + 1`. -/
structure Graph (σ : Type) where
  links : List (Link σ)
  queueCapacity : Nat
  failureStep : Nat := 0

/-! ## Ports of an edge -/

def lastOutput (ports : List Port) : Option Port := (ports.filter (!·.isInput)).getLast?

def firstInput (ports : List Port) : Option Port := ports.find? (·.isInput)

def lastInput (ports : List Port) : Option Port := (ports.filter (·.isInput)).getLast?

/-- Store a resolved spec into the last port that satisfies `p`. -/
def resolveLast (p : Port → Bool) (r : Spec) : List Port → List Port
  | [] => []
  | q :: rest =>
    if rest.any p then q :: resolveLast p r rest
    else if p q then { q with resolved := r } :: rest
    else q :: rest

/-- `needs_download_bridge`: the only conflict is the memory domain. -/
def needsDownloadBridge (out inp : Spec) : Bool :=
  if out.domain ≠ .dmabuf ∨ inp.domain ≠ .host then false
  else if out.fmt = .unknown ∨ !isLinear out then false
  else (unify { out with domain := .host } inp).isOk

namespace Graph

variable {σ : Type}

def failStep {α : Type} (i : Nat) (s : Status) (reason : String) (culprit : Culprit) : Build α := do
  Logged.tell [⟨"build", "graph", reason⟩]
  Logged.stop { failedStep := i, status := s, culprit }

def failChain {α : Type} (i : Nat) (s : Status) (own : Option Diag) (culprit : Culprit) : Build α :=
  Logged.stop { failedStep := i, status := s, own, culprit }

/-- A dimension the caller states, against the one the request demands. -/
def demandDim (stated demanded : Nat) (reason : String) : Build Nat :=
  if demanded ≠ 0 ∧ stated ≠ 0 ∧ stated ≠ demanded then failStep 0 .negotiate reason .request
  else return if demanded ≠ 0 then demanded else stated

/-- The caller's input spec, with the dimensions the request demands. -/
def sourceSpec (req : Request) : Build Spec := do
  let width ← demandDim req.inputSpec.width req.width "width mismatch"
  let height ← demandDim req.inputSpec.height req.height "height mismatch"
  return { req.inputSpec with width, height }

/-! ## The passes -/

def createNode (req : Request) (srcSpec : Spec) (i : Nat) (st : PlanStep σ) : Build (Node σ) :=
  if st.adapterSource then return .queueSource srcSpec
  else if st.adapterSink then return .queueSink req.outputSpec
  else match st.candidates[st.index]? with
    | some (some f) => do
      let (r, added) := f.create req
      Logged.tell added
      match r with
      | .error e => failChain i e.status (some e.diag) (.node (.step i))
      | .ok none => failStep i .internal "null node" (.node (.step i))
      | .ok (some n) => return .plugin n
    | _ => failStep i .notFound "required stage has no candidate" (.node (.step i))

/-- The first node only produces, the last only consumes, the others do both. -/
def arityOk (i n : Nat) (ports : List Port) : Bool :=
  let ins := ports.countP (·.isInput)
  let outs := ports.countP (!·.isInput)
  if i = 0 then ins = 0 && outs = 1
  else if i + 1 = n then ins = 1 && outs = 0
  else ins = 1 && outs = 1

section Passes

variable [PluginNode σ]

/-- Create the nodes of the steps from step `i` on, of a plan of `n` steps. -/
def createNodes (req : Request) (srcSpec : Spec) (n : Nat) :
    Nat → List (PlanStep σ) → Build (List (Link σ))
  | _, [] => return []
  | i, st :: rest => do
    let node ← createNode req srcSpec i st
    let ports := node.makePorts.map fun p => { p with resolved := p.desired }
    if !arityOk i n ports then failStep i .internal "node arity mismatch" (.node (.step i))
    let links ← createNodes req srcSpec n (i + 1) rest
    return ⟨node, ports, .step i⟩ :: links

/-- The bridge spliced behind a node. -/
def bridgeBehind (a : Link σ) : Link σ where
  node := .download ({}, {})
  ports := downloadPorts.map fun p => { p with resolved := p.desired }
  origin := match a.origin with
    | .step k => .bridge k
    | .bridge k => .bridge k

/-- Splice bridges into the edges from node `i` on. -/
def splice : Nat → List (Link σ) → Build (List (Link σ))
  | i, a :: b :: rest =>
    match lastOutput a.ports, firstInput b.ports with
    | some outp, some inp =>
      if needsDownloadBridge outp.resolved inp.resolved then do
        let tail ← splice (i + 2) (b :: rest)
        return a :: bridgeBehind a :: tail
      else do
        let tail ← splice (i + 1) (b :: rest)
        return a :: tail
    | _, _ => failStep (i + 1) .internal "missing edge port" (.edge a.origin b.origin)
  | _, links => return links

/-- Unify the edges from node `i` on, which is `a`. Both ends of an edge exist
here: `splice` has looked them up. -/
def unifyEdges (i : Nat) (a : Link σ) : List (Link σ) → Build (List (Link σ))
  | [] => return [a]
  | b :: rest =>
    match unify ((lastOutput a.ports).getD {}).resolved ((lastInput b.ports).getD {}).resolved with
    | .error e => do
      Logged.tell e.diag
      failChain (i + 1) e.status none (.edge a.origin b.origin)
    | .ok r => do
      let tail ← unifyEdges (i + 1) { b with ports := resolveLast (·.isInput) r b.ports } rest
      return { a with ports := resolveLast (!·.isInput) r a.ports } :: tail

def configureNodes : Nat → List (Link σ) → Build (List (Link σ))
  | _, [] => return []
  | i, a :: rest => do
    let (node, ports, st) := a.node.configure a.ports
    if st ≠ .ok then
      Logged.tell [⟨"build", node.id, "configure rejected"⟩]
      failChain i st none (.node a.origin)
    let tail ← configureNodes (i + 1) rest
    return { a with node, ports } :: tail

/-- The body of the model loop, for node `i`. -/
def bindNode (ctx : Context σ) (req : Request) (i : Nat) (a : Link σ) : Build (Node σ) :=
  if !a.node.wantsModel then return a.node
  else match (if req.modelId = "" then ctx.firstModel else ctx.findModel req.modelId) with
    | none => failStep i .negotiate "no compatible model" (.node a.origin)
    | some m =>
      let (node, st) := a.node.bindModel m
      if st ≠ .ok then failChain i st none (.node a.origin) else return node

def bindModels (ctx : Context σ) (req : Request) : Nat → List (Link σ) → Build (List (Link σ))
  | _, [] => return []
  | i, a :: rest => do
    let node ← bindNode ctx req i a
    let tail ← bindModels ctx req (i + 1) rest
    return { a with node } :: tail

/-- The first pass, up to the nodes of the plan with their desired ports. -/
def create (plan : Plan σ) (req : Request) : Build (List (Link σ)) := do
  let srcSpec ← sourceSpec req
  createNodes req srcSpec plan.steps.length 0 plan.steps

/-- The passes in which ports are settled. -/
def negotiate : List (Link σ) → Build (List (Link σ))
  | [] => return []
  | a :: rest => do
    let links ← unifyEdges 0 a rest
    configureNodes 0 links

/-- **`Graph::build`** (`inQ`, `outQ`: the endpoint queues are not null). -/
def build (plan : Plan σ) (ctx : Context σ) (req : Request) (inQ outQ : Bool := true) :
    Build (Graph σ) :=
  if !inQ || !outQ then failStep 0 .invalid "null endpoint queue" .request
  else if plan.steps.length < 2 then failStep 0 .internal "plan too short" .request
  else do
    let links ← create plan req
    let links ← splice 0 links
    let links ← negotiate links
    let links ← bindModels ctx req 0 links
    return { links, queueCapacity := req.queueCapacity }

/-- Open the nodes from node `i` on; when one fails, those opened before it are
closed on the way back. -/
def openNodes : Nat → List (Link σ) → List (Link σ) × Option (Nat × Status) × Diag
  | _, [] => ([], none, [])
  | i, a :: rest =>
    let (node, st, added) := a.node.openNode
    if st ≠ .ok then ({ a with node } :: rest, some (i, st), added)
    else
      match openNodes (i + 1) rest with
      | (rest, none, more) => ({ a with node } :: rest, none, added ++ more)
      | (rest, some failure, more) =>
        ({ a with node := node.closeNode } :: rest, some failure, added ++ more)

/-- **`Graph::open`**. -/
def openGraph (g : Graph σ) : Graph σ × Status × Diag :=
  match openNodes 0 g.links with
  | (links, none, added) => ({ g with links }, .ok, added)
  | (links, some (i, st), added) => ({ g with links, failureStep := i }, st, added)

end Passes

end Graph

end Rkvc
