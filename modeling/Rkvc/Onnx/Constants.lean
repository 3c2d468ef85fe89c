import Rkvc.Onnx.Graph

/-!
# What is known of a graph

The shapes that a graph declares and the arrays that it holds, as both rewriters look them up.
An array that is no input is the value of its name in every run (`steady_eval`).
-/

namespace Rkvc.Onnx
set_option autoImplicit false
open Lib

variable {K : Type}

/-- The one element of an array. -/
def NdArray.scalar (a : NdArray K) : Option (Val K) :=
  match a.tensor.data with
  | [v] => some v
  | _ => none

/-- The array that a node gives as a constant. -/
def NodeProto.constant (name : String) (n : NodeProto K) : Option (NdArray K) :=
  if n.opType ≠ "Constant" ∨ n.output.head? ≠ some name then none
  else ((⟨n.opType, n.attributes⟩ : Op K).attr "value").bind (·.t)

namespace Graph

variable (g : Graph K)

def findValueInfo (name : String) : Option ValueInfo := (g.input ++ g.valueInfo ++ g.output).find? (·.name = name)

/-- A shape whose extents are all known. -/
def shapeOf (name : String) : Option (List Nat) :=
  (g.findValueInfo name).bind fun vi => vi.dims.mapM fun d => (d.filter (0 < ·)).map Int.toNat

/-- The array of an initializer, or of a node that gives a constant. -/
def constant (name : String) : Option (NdArray K) := (g.init name).or (g.node.findSome? (·.constant name))

def constantScalar (name : String) : Option (Val K) := (g.constant name).bind NdArray.scalar

/-- What is constant, and no input, has its value if it has one. -/
def Steady (env : Flow.Env String (NdArray K)) : Prop :=
  ∀ name arr v, g.constant name = some arr → name ∉ g.inputNames → env name = some v → v = arr

end Graph

variable {g : Graph K} {feed env env₁ : Flow.Env String (NdArray K)} {name : String} {arr : NdArray K}

theorem nodeConstant_some {n : NodeProto K} (valid : g.Valid) (node : n ∈ g.node)
    (gives : n.constant name = some arr) :
    n.opType = "Constant" ∧ n.output = [name] ∧ name ≠ "" ∧
      ((⟨n.opType, n.attributes⟩ : Op K).attr "value").bind (·.t) = some arr := by
  unfold NodeProto.constant at gives
  split at gives
  · cases gives
  · rename_i shape
    rw [not_or, not_not, not_not] at shape
    obtain ⟨-, y, named, output⟩ := valid.plain n node (by rw [shape.1]; decide)
    obtain ⟨op, first⟩ := shape
    rw [output] at first
    obtain rfl : y = name := Option.some.inj first
    exact ⟨op, output, named, gives⟩

/-- Where an array comes from. -/
theorem constant_some (valid : g.Valid) (known : g.constant name = some arr) :
    g.init name = some arr ∨ ∃ n ∈ g.node, n.opType = "Constant" ∧ n.output = [name] ∧
      ((⟨n.opType, n.attributes⟩ : Op K).attr "value").bind (·.t) = some arr := by
  rcases Option.or_eq_some_iff.mp known with init | ⟨-, node⟩
  · exact .inl init
  · obtain ⟨n, listed, gives⟩ := List.exists_of_findSome?_eq_some node
    obtain ⟨op, output, -, value⟩ := nodeConstant_some valid listed gives
    exact .inr ⟨n, listed, op, output, value⟩

/-- What is left out is not constant. -/
theorem constant_named (valid : g.Valid) (known : g.constant name = some arr) : name ≠ "" := by
  rcases Option.or_eq_some_iff.mp known with init | ⟨-, node⟩
  · intro empty
    exact valid.named.2.1 (empty ▸ mem_initNames init)
  · obtain ⟨n, listed, gives⟩ := List.exists_of_findSome?_eq_some node
    exact (nodeConstant_some valid listed gives).2.2.1

theorem steady_start : g.Steady (g.start feed) := by
  intro name arr v known other value
  rw [Graph.start, if_neg other] at value
  rw [Graph.constant, value, Option.some_or] at known
  exact Option.some.inj known

variable [Field K] [LinearOrder K] [FloorRing K] {ext : Flow.Meaning (Op K) (NdArray K)} {n : NodeProto K}

theorem steady_exec (valid : g.Valid) (node : n ∈ g.node) (steady : g.Steady env)
    (done : n.flow.exec (meaning ext) env = some env₁) : g.Steady env₁ := by
  intro name arr v known other value
  by_cases writes : some name ∈ n.flow.writes
  · obtain ⟨named, gives⟩ := mem_writes.mp writes
    rcases constant_some valid known with init | ⟨n', node', op, output, held⟩
    · exact absurd (mem_initNames init) (valid.apart n node name gives named).2
    · have same : n' = n := valid.writer node' node named (by rw [output]; exact List.mem_singleton_self _) gives
      rw [same] at op output held
      have isSome : ((⟨n.opType, n.attributes⟩ : Op K).attr "value").isSome = true := by
        obtain ⟨a, found, -⟩ := Option.bind_eq_some_iff.mp held
        rw [found]
        rfl
      have listed : n.opType ∈ builtins := by
        rw [op]
        decide
      have builtin : (⟨n.opType, n.attributes⟩ : Op K).isBuiltin = true := decide_eq_true ⟨listed, fun _ => isSome⟩
      obtain ⟨args, w, y, -, meant, output', -, rfl⟩ := exec_builtin valid node builtin done
      rw [output] at output'
      obtain rfl : name = y := List.head_eq_of_cons_eq output'
      rw [Flow.Env.set_self] at value
      cases value
      rw [Rkvc.Onnx.builtin, if_pos op, held] at meant
      exact (Option.some.inj meant).symm
  · rw [Flow.exec_other done writes] at value
    exact steady name arr v known other value

/-- **What is constant keeps its value** through a run. -/
theorem steady_eval (valid : g.Valid) (done : g.eval ext feed = some env) : g.Steady env := by
  suffices go : ∀ nodes : List (NodeProto K), (∀ n ∈ nodes, n ∈ g.node) → ∀ env₀, g.Steady env₀ →
      Flow.run (meaning ext) (nodes.map NodeProto.flow) env₀ = some env → g.Steady env from
    go g.node (fun _ node => node) _ steady_start done
  intro nodes
  induction nodes with
  | nil =>
    intro _ env₀ steady run
    cases run
    exact steady
  | cons n nodes ih =>
    intro listed env₀ steady run
    obtain ⟨env₁, first, rest⟩ := Flow.run_cons.mp run
    exact ih (fun m later => listed m (List.mem_cons_of_mem _ later)) env₁
      (steady_exec valid (listed n List.mem_cons_self) steady first) rest

end Rkvc.Onnx
