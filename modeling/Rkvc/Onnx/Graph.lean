import Rkvc.Onnx.Operators

/-!
# Graphs

A graph as the tools load it, and what it computes. A name that is empty stands for an operand
or a result that is left out. An initializer that is also an input is a default.
-/

namespace Rkvc.Onnx
set_option autoImplicit false
open Lib

structure NodeProto (K : Type) where
  opType : String
  name : String := ""
  input : List String := []
  output : List String := []
  attributes : List (Attribute K) := []
  /-- The outer names that the graphs of its attributes read. -/
  captures : List String := []
  deriving DecidableEq

structure ValueInfo where
  name : String
  elemType : Option DType := none
  /-- `dim_value`, where the dimension has one. -/
  dims : List (Option Int) := []
  deriving DecidableEq, Repr

structure Initializer (K : Type) where
  name : String
  value : NdArray K
  deriving DecidableEq

structure Graph (K : Type) where
  node : List (NodeProto K)
  initializer : List (Initializer K) := []
  input : List ValueInfo := []
  output : List ValueInfo := []
  valueInfo : List ValueInfo := []
  deriving DecidableEq

/-- What the tools raise. -/
structure OnnxRewriteError where
  message : String
  deriving DecidableEq, Repr

variable {K : Type}

namespace Graph

variable (g : Graph K)

def initNames : List String := g.initializer.map (·.name)

def inputNames : List String := g.input.map (·.name)

def outputNames : List String := g.output.map (·.name)

/-- `_init_map(model)[name]`. -/
def init (name : String) : Option (NdArray K) := (g.initializer.find? (·.name = name)).map (·.value)

/-- `consumers`: the nodes that read a name, with their places, as often as they do. -/
def consumers (name : String) : List (NodeProto K × Nat) :=
  g.node.zipIdx.flatMap fun (n, i) => (n.input.filter (· = name)).map fun _ => (n, i)

end Graph

theorem mem_initNames {g : Graph K} {name : String} {arr : NdArray K} (init : g.init name = some arr) :
    name ∈ g.initNames := by
  obtain ⟨found, first, -⟩ := Option.map_eq_some_iff.mp init
  have same : found.name = name := by simpa using List.find?_some first
  rw [← same]
  exact List.mem_map_of_mem (List.mem_of_find?_eq_some first)

/-! ## What a graph computes -/

section Eval

/-- An operand or a result, unless it is left out. -/
def slot (name : String) : Option String := if name = "" then none else some name

def NodeProto.flow (n : NodeProto K) : Flow.Node String (Op K) where
  op := ⟨n.opType, n.attributes⟩
  reads := n.input.map slot ++ n.captures.map some
  writes := n.output.map slot

namespace Graph

variable (g : Graph K)

/-- What is given for the inputs, and the initializers. -/
def start (feed : Flow.Env String (NdArray K)) : Flow.Env String (NdArray K) := fun name =>
  if name ∈ g.inputNames then (feed name).or (g.init name) else g.init name

variable [Field K] [LinearOrder K] [FloorRing K]

def eval (ext : Flow.Meaning (Op K) (NdArray K)) (feed : Flow.Env String (NdArray K)) :
    Option (Flow.Env String (NdArray K)) :=
  Flow.run (meaning ext) (g.node.map NodeProto.flow) (g.start feed)

/-- The outputs, under their names. -/
def results (ext : Flow.Meaning (Op K) (NdArray K)) (feed : Flow.Env String (NdArray K)) :
    Option (List (String × NdArray K)) :=
  (g.eval ext feed).bind fun env => g.outputNames.mapM fun name => (env name).map (name, ·)

end Graph

end Eval

theorem mapM_agrees {env env' : Flow.Env String (NdArray K)} {names : List String} {outs : List (String × NdArray K)}
    (same : ∀ name ∈ names, ∀ v, env name = some v → env' name = some v)
    (read : names.mapM (fun name => (env name).map (name, ·)) = some outs) :
    names.mapM (fun name => (env' name).map (name, ·)) = some outs := by
  induction names generalizing outs with
  | nil => exact read
  | cons name names ih =>
    rw [List.mapM_cons] at read ⊢
    obtain ⟨out, first, rest⟩ := Option.bind_eq_some_iff.mp read
    obtain ⟨later, others, eq⟩ := Option.bind_eq_some_iff.mp rest
    obtain ⟨v, value, rfl⟩ := Option.map_eq_some_iff.mp first
    rw [same name List.mem_cons_self v value, ih (fun name listed => same name (List.mem_cons_of_mem _ listed)) others]
    exact eq

theorem mem_writes {n : NodeProto K} {x : String} : some x ∈ n.flow.writes ↔ x ≠ "" ∧ x ∈ n.output := by
  simp only [NodeProto.flow, List.mem_map, slot]
  constructor
  · rintro ⟨y, gives, same⟩
    split at same
    · cases same
    · rename_i named
      cases same
      exact ⟨named, gives⟩
  · rintro ⟨named, gives⟩
    exact ⟨x, gives, if_neg named⟩

theorem mem_reads {n : NodeProto K} {x : String} :
    some x ∈ n.flow.reads ↔ x ≠ "" ∧ x ∈ n.input ∨ x ∈ n.captures := by
  simp only [NodeProto.flow, List.mem_append, List.mem_map, slot, Option.some.injEq, exists_eq_right]
  refine or_congr_left ?_
  constructor
  · rintro ⟨y, reads, same⟩
    split at same
    · cases same
    · rename_i named
      cases same
      exact ⟨named, reads⟩
  · rintro ⟨named, reads⟩
    exact ⟨x, reads, if_neg named⟩

/-! ## Well-formed graphs -/

namespace Graph

variable (g : Graph K)

/-- The names that have a value once a graph has run. -/
def defined : List String := g.inputNames ++ g.initNames ++ g.node.flatMap (·.output)

/-- What is read, and what is listed as an output, is defined. -/
def Closed : Prop :=
  (∀ n ∈ g.node, ∀ name ∈ n.input ++ n.captures, name = "" ∨ name ∈ g.defined) ∧ ∀ name ∈ g.outputNames, name ∈ g.defined

instance decidableClosed : Decidable g.Closed := inferInstanceAs (Decidable (_ ∧ _))

/-- What a graph has to be for the format. -/
structure Valid : Prop where
  /-- Every name is given once. -/
  single : (g.node.flatMap fun n => n.output.filter (· ≠ "")).Nodup
  apart : ∀ n ∈ g.node, ∀ name ∈ n.output, name ≠ "" → name ∉ g.inputNames ∧ name ∉ g.initNames
  inputs : g.inputNames.Nodup
  initializers : g.initNames.Nodup
  named : "" ∉ g.inputNames ∧ "" ∉ g.initNames ∧ "" ∉ g.outputNames
  closed : g.Closed
  plain : ∀ n ∈ g.node, n.opType ∈ builtins → n.captures = [] ∧ ∃ y, y ≠ "" ∧ n.output = [y]
  captures : ∀ n ∈ g.node, "" ∉ n.captures
  attributes : ∀ n ∈ g.node, (n.attributes.map (·.name)).Nodup

end Graph

/-- Nodes that give one name each. -/
theorem plain_of {g : Graph K} (all : ∀ n ∈ g.node, n.captures = [] ∧ n.output.headD "" ≠ "" ∧ n.output = [n.output.headD ""]) :
    ∀ n ∈ g.node, n.opType ∈ builtins → n.captures = [] ∧ ∃ y, y ≠ "" ∧ n.output = [y] := by
  intro n node _
  obtain ⟨captures, named, output⟩ := all n node
  exact ⟨captures, _, named, output⟩

/-! ## Runs of well-formed graphs -/

section Runs

/-- A node under other names. -/
def NodeProto.rename (ρ : String → String) (n : NodeProto K) : NodeProto K :=
  { n with input := n.input.map ρ, output := n.output.map ρ }

theorem slot_map {ρ : String → String} (named : ∀ x, ρ x = "" ↔ x = "") (x : String) :
    slot (ρ x) = (slot x).map ρ := by
  by_cases left : x = ""
  · rw [slot, slot, if_pos left, if_pos ((named x).mpr left)]
    rfl
  · rw [slot, slot, if_neg left, if_neg fun empty => left ((named x).mp empty)]
    rfl

/-- A renaming of names that keeps what is left out. -/
theorem rename_flow {ρ : String → String} {n : NodeProto K} (named : ∀ x, ρ x = "" ↔ x = "")
    (captures : ∀ x ∈ n.captures, ρ x = x) : (n.rename ρ).flow = n.flow.rename ρ := by
  simp only [NodeProto.flow, NodeProto.rename, Flow.Node.rename, Flow.Node.mk.injEq, true_and, List.map_append,
    List.map_map]
  refine ⟨congrArg₂ _ ?_ ?_, ?_⟩
  · exact List.map_congr_left fun x _ => slot_map named x
  · exact List.map_congr_left fun x captured => congrArg some (captures x captured).symm
  · exact List.map_congr_left fun x _ => slot_map named x

variable {g : Graph K} {feed env env₁ : Flow.Env String (NdArray K)}

theorem eq_of_nodup_flatMap {α β : Type} {l : List α} {f : α → List β} (single : (l.flatMap f).Nodup) {a b : α} {x : β}
    (listed : a ∈ l) (listed' : b ∈ l) (gives : x ∈ f a) (gives' : x ∈ f b) : a = b := by
  induction l with
  | nil => cases listed
  | cons c l ih =>
    rw [List.flatMap_cons] at single
    obtain ⟨-, rest, apart⟩ := List.nodup_append.mp single
    rcases List.mem_cons.mp listed with rfl | later <;> rcases List.mem_cons.mp listed' with rfl | later'
    · rfl
    · exact absurd rfl (apart x gives x (List.mem_flatMap.mpr ⟨b, later', gives'⟩))
    · exact absurd rfl (apart x gives' x (List.mem_flatMap.mpr ⟨a, later, gives⟩))
    · exact ih rest later later'

/-- A name is given by one node. -/
theorem Graph.Valid.writer (valid : g.Valid) {n n' : NodeProto K} {x : String} (node : n ∈ g.node) (node' : n' ∈ g.node)
    (named : x ≠ "") (gives : x ∈ n.output) (gives' : x ∈ n'.output) : n = n' := by
  have some : decide (x ≠ "") = true := decide_eq_true named
  exact eq_of_nodup_flatMap valid.single node node' (List.mem_filter.mpr ⟨gives, some⟩) (List.mem_filter.mpr ⟨gives', some⟩)

theorem written_flow (nodes : List (NodeProto K)) :
    Flow.written (nodes.map NodeProto.flow) = nodes.flatMap fun n => n.output.filter (· ≠ "") := by
  have slots (names : List String) : (names.map slot).reduceOption = names.filter (· ≠ "") := by
    induction names with
    | nil => rfl
    | cons x names ih =>
      by_cases left : x = ""
      · rw [List.map_cons, slot, if_pos left, List.reduceOption_cons_of_none, ih, List.filter_cons, if_neg]
        simpa using left
      · rw [List.map_cons, slot, if_neg left, List.reduceOption_cons_of_some, ih, List.filter_cons, if_pos]
        simpa using left
  rw [Flow.written, List.flatMap_map]
  exact congrArg (List.flatMap · nodes) (funext fun n => slots n.output)

/-- What has a value at the start is an input or an initializer. -/
theorem start_known {x : String} {v : NdArray K} (value : g.start feed x = some v) :
    x ∈ g.inputNames ∨ x ∈ g.initNames := by
  by_cases input : x ∈ g.inputNames
  · exact .inl input
  · rw [Graph.start, if_neg input] at value
    exact .inr (mem_initNames value)

/-- What the nodes give has no value at the start. -/
theorem start_none (valid : g.Valid) {n : NodeProto K} {x : String} (node : n ∈ g.node) (gives : x ∈ n.output)
    (named : x ≠ "") : g.start feed x = none := by
  obtain ⟨input, init⟩ := valid.apart n node x gives named
  refine Option.eq_none_iff_forall_ne_some.mpr fun v value => ?_
  exact (start_known value).elim input init

theorem start_fresh (valid : g.Valid) : ∀ x ∈ Flow.written (g.node.map NodeProto.flow), g.start feed x = none := by
  intro x gives
  rw [written_flow] at gives
  obtain ⟨n, node, listed⟩ := List.mem_flatMap.mp gives
  obtain ⟨output, named⟩ := List.mem_filter.mp listed
  exact start_none valid node output (of_decide_eq_true named)

theorem mem_mapM {env : Flow.Env String (NdArray K)} {names : List String} {outs : List (String × NdArray K)}
    (read : names.mapM (fun name => (env name).map (name, ·)) = some outs) {name : String} {v : NdArray K}
    (listed : name ∈ names) (value : env name = some v) : (name, v) ∈ outs := by
  induction names generalizing outs with
  | nil => cases listed
  | cons first names ih =>
    rw [List.mapM_cons] at read
    obtain ⟨out, one, rest⟩ := Option.bind_eq_some_iff.mp read
    obtain ⟨later, others, eq⟩ := Option.bind_eq_some_iff.mp rest
    cases eq
    rcases List.mem_cons.mp listed with rfl | behind
    · rw [value] at one
      cases one
      exact List.mem_cons_self
    · exact List.mem_cons_of_mem _ (ih others behind)

/-- The outputs of another graph, under other names. -/
theorem mapM_rename {env env' : Flow.Env String (NdArray K)} {names : List String} {outs : List (String × NdArray K)}
    {ρ : String → String} {f : String → NdArray K → NdArray K}
    (same : ∀ name ∈ names, ∀ v, env name = some v → env' (ρ name) = some (f name v))
    (read : names.mapM (fun name => (env name).map (name, ·)) = some outs) :
    (names.map ρ).mapM (fun name => (env' name).map (name, ·)) = some (outs.map fun o => (ρ o.1, f o.1 o.2)) := by
  induction names generalizing outs with
  | nil =>
    cases read
    rfl
  | cons name names ih =>
    rw [List.mapM_cons] at read
    obtain ⟨out, first, rest⟩ := Option.bind_eq_some_iff.mp read
    obtain ⟨later, others, eq⟩ := Option.bind_eq_some_iff.mp rest
    obtain ⟨v, value, rfl⟩ := Option.map_eq_some_iff.mp first
    cases eq
    rw [List.map_cons, List.mapM_cons, same name List.mem_cons_self v value,
      ih (fun name listed => same name (List.mem_cons_of_mem _ listed)) others]
    rfl

variable [Field K] [LinearOrder K] [FloorRing K] {ext : Flow.Meaning (Op K) (NdArray K)} {n : NodeProto K}

/-- What an operator does that is given its definition. -/
theorem exec_builtin (valid : g.Valid) (node : n ∈ g.node) (known : (⟨n.opType, n.attributes⟩ : Op K).isBuiltin = true)
    (done : n.flow.exec (meaning ext) env = some env₁) :
    ∃ args v y, env.readAll (n.input.map slot) = some args ∧ builtin ⟨n.opType, n.attributes⟩ args = some v ∧
      n.output = [y] ∧ y ≠ "" ∧ env₁ = env.set y v := by
  obtain ⟨args, vs, read, meant, gives⟩ := Flow.exec_some.mp done
  obtain ⟨none, y, named, output⟩ := valid.plain n node (by simpa [Op.isBuiltin] using (of_decide_eq_true known).1)
  have op : n.flow.op = ⟨n.opType, n.attributes⟩ := rfl
  rw [op, meaning, if_pos known] at meant
  obtain ⟨v, value, rfl⟩ := Option.map_eq_some_iff.mp meant
  refine ⟨args, v, y, ?_, value, output, named, ?_⟩
  · simpa [NodeProto.flow, none] using read
  · simpa [NodeProto.flow, output, slot, named, Flow.Env.writeAll, eq_comm] using gives

/-- What it does to its first operand. -/
theorem exec_operand (valid : g.Valid) (node : n ∈ g.node) (known : (⟨n.opType, n.attributes⟩ : Op K).isBuiltin = true)
    (other : n.opType ≠ "Constant") (done : n.flow.exec (meaning ext) env = some env₁) :
    ∃ src rest a more v y, n.input = src :: rest ∧ src ≠ "" ∧ env src = some a ∧
      env.readAll (rest.map slot) = some more ∧ builtin ⟨n.opType, n.attributes⟩ (some a :: more) = some v ∧
      n.output = [y] ∧ y ≠ "" ∧ env₁ = env.set y v := by
  obtain ⟨args, v, y, read, meant, output, named, gives⟩ := exec_builtin valid node known done
  obtain ⟨a, more, rfl⟩ := builtin_operand other meant
  cases input : n.input with
  | nil =>
    rw [input] at read
    cases read
  | cons src rest =>
    rw [input, List.map_cons] at read
    by_cases left : src = ""
    · rw [slot, if_pos left] at read
      obtain ⟨more', -, same⟩ := Option.map_eq_some_iff.mp read
      cases same
    · rw [slot, if_neg left] at read
      obtain ⟨a', value, behind⟩ := Option.bind_eq_some_iff.mp read
      obtain ⟨more', later, same⟩ := Option.map_eq_some_iff.mp behind
      cases same
      exact ⟨src, rest, a, more, v, y, rfl, left, value, later, meant, output, named, gives⟩

/-- **Every node's equation holds in the end.** -/
theorem eval_fixed (valid : g.Valid) (done : g.eval ext feed = some env) (node : n ∈ g.node) :
    n.flow.exec (meaning ext) env = some env := by
  refine Flow.run_fixed ?_ (start_fresh valid) done n.flow (List.mem_map_of_mem node)
  rw [written_flow]
  exact valid.single

/-- What has a value in the end is defined. -/
theorem eval_defined {name : String} {v : NdArray K} (done : g.eval ext feed = some env) (value : env name = some v) :
    name ∈ g.defined := by
  rw [Graph.defined, List.mem_append, List.mem_append, List.mem_flatMap]
  by_cases gives : ∃ n ∈ g.node, name ∈ n.output
  · exact .inr gives
  · left
    have same := Flow.run_other done fun m listed writes => by
      obtain ⟨n, node, rfl⟩ := List.mem_map.mp listed
      exact gives ⟨n, node, (mem_writes.mp writes).2⟩
    rw [same] at value
    exact start_known value

end Runs

end Rkvc.Onnx
