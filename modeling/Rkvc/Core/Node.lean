import Rkvc.Core.Model
import Rkvc.Core.Spec

/-!
# Ports and nodes

The nodes a graph is made of: the two queue adapters, the download bridge, and
the nodes that factories create, whose behaviour is the class `PluginNode`.
Only the part of the node contract that planning uses is here: ports,
configuration, model binding, open and close.
-/

namespace Rkvc
set_option autoImplicit false

structure Port where
  name : String := ""
  isInput : Bool := false
  desired : Spec := {}
  resolved : Spec := {}
  deriving DecidableEq, Repr

/-- `rkvc::Node`, for a node with state `σ`. The entries `configure` and
`bind_model` write into the graph's scratch `Diag` are never read. -/
class PluginNode (σ : Type) where
  id : σ → String
  makePorts : σ → List Port
  configure : σ → List Port → σ × List Port × Status
  wantsModel : σ → Bool
  bindModel : σ → Model → σ × Status
  openNode : σ → σ × Status × Diag
  closeNode : σ → σ

/-- `Node::configure`: every port must have a format. -/
def configureBase (ports : List Port) : Status :=
  if ports.any (·.resolved.fmt = .unknown) then .negotiate else .ok

/-- `DownloadNode::make_ports`. -/
def downloadPorts : List Port :=
  [{ name := "in", isInput := true, desired := { domain := .dmabuf } },
    { name := "out", desired := { domain := .host } }]

/-- `DownloadNode::configure`: the verdict and the two specs it keeps. -/
def downloadConfigure (kept : Spec × Spec) (ports : List Port) : (Spec × Spec) × Status :=
  match configureBase ports with
  | .ok =>
    match ports with
    | [a, b] =>
      if !a.isInput || b.isInput then (kept, .internal)
      else
        let inSpec := a.resolved
        let outSpec := b.resolved
        if inSpec.domain ≠ .dmabuf ∨ outSpec.domain ≠ .host ∨ inSpec.fmt = .unknown ∨
            outSpec.fmt = .unknown ∨ inSpec.fmt ≠ outSpec.fmt ∨ !isLinear inSpec then
          ((inSpec, outSpec), .negotiate)
        else ((inSpec, outSpec), .ok)
    | _ => (kept, .internal)
  | st => (kept, st)

/-- The node at a place of the graph. -/
inductive Node (σ : Type) where
  | queueSource (spec : Spec)
  | queueSink (spec : Spec)
  | download (kept : Spec × Spec)
  | plugin (n : σ)

namespace Node

variable {σ : Type} [PluginNode σ]

def id : Node σ → String
  | queueSource _ => "queue.source"
  | queueSink _ => "queue.sink"
  | download _ => "core.download"
  | plugin n => PluginNode.id n

def makePorts : Node σ → List Port
  | queueSource spec => [{ name := "out", desired := spec }]
  | queueSink spec => [{ name := "in", isInput := true, desired := spec }]
  | download _ => downloadPorts
  | plugin n => PluginNode.makePorts n

def configure : Node σ → List Port → Node σ × List Port × Status
  | queueSource spec, ports => (queueSource spec, ports, configureBase ports)
  | queueSink spec, ports => (queueSink spec, ports, configureBase ports)
  | download kept, ports =>
    let (kept, st) := downloadConfigure kept ports
    (download kept, ports, st)
  | plugin n, ports =>
    let (n, ports, st) := PluginNode.configure n ports
    (plugin n, ports, st)

def wantsModel : Node σ → Bool
  | plugin n => PluginNode.wantsModel n
  | _ => false

def bindModel : Node σ → Model → Node σ × Status
  | plugin n, m =>
    let (n, st) := PluginNode.bindModel n m
    (plugin n, st)
  | node, _ => (node, .ok)

/-- `Node::open`. A built graph gives the adapters and the bridge their queue
and their emitter, the only things they check. -/
def openNode : Node σ → Node σ × Status × Diag
  | plugin n =>
    let (n, st, added) := PluginNode.openNode n
    (plugin n, st, added)
  | node => (node, .ok, [])

def closeNode : Node σ → Node σ
  | plugin n => plugin (PluginNode.closeNode n)
  | node => node

end Node

/-- A node that only has ports and two verdicts, of `configure` and of `open`. -/
structure FixedNode where
  ports : List Port
  configured : Status := .ok
  opened : Status := .ok
  deriving DecidableEq, Repr

instance : PluginNode FixedNode where
  id _ := "fixed"
  makePorts n := n.ports
  configure n ports := (n, ports, if configureBase ports = .ok then n.configured else configureBase ports)
  wantsModel _ := false
  bindModel n _ := (n, .ok)
  openNode n := (n, n.opened, [])
  closeNode n := n

/-- A stage that turns `inp` into `out`. -/
def FixedNode.stage (inp out : Spec) (configured opened : Status := .ok) : FixedNode where
  ports := [{ name := "in", isInput := true, desired := inp }, { name := "out", desired := out }]
  configured
  opened

end Rkvc
