import Mathlib.Data.Rat.Floor
import Rkvc.Onnx.Replaced

/-!
# The rewritten graph

The nodes that stand for one compute what it did where the numbers that they are given are
right (`Beside.step`), and so the graph that is rewritten computes what it did
(`rewriteNpuOps_spec`). Where they are not, it need not: no integer stands for a half
(`rewriteNpuOps_int32`).
-/

namespace Rkvc.Onnx
set_option autoImplicit false
open Lib

variable {K : Type}

/-! ## Around a node -/

/-- Names and their values. -/
abbrev Reads (env : Flow.Env String (NdArray K)) : List String → List (NdArray K) → Prop :=
  List.Forall₂ fun x a => x ≠ "" ∧ env x = some a

/-- The graph beside the rewritten one, on the way to where it ends. -/
structure Beside (g : Graph K) (added : List (Initializer K)) (final env env' : Flow.Env String (NdArray K)) : Prop where
  agrees : Flow.Agrees id (· ∈ g.allNames) env env'
  arrays : ∀ i ∈ added, i.name ≠ "" ∧ i.name ∉ g.allNames ∧ env' i.name = some i.value
  within : Flow.Agrees id (fun _ => True) env final

section Around

variable {g : Graph K} {np : NumPy K} {added : List (Initializer K)} {temps : List String} {node : NodeProto K}
  {env env' final : Flow.Env String (NdArray K)}

theorem defined_allNames {x : String} (named : x ≠ "") (defined : x ∈ g.defined) : x ∈ g.allNames := by
  apply mem_allNames named
  simp only [Graph.defined, List.mem_append, List.mem_flatMap] at defined
  rcases defined with (input | init) | ⟨n, listed, output⟩
  · exact .inr (.inl input)
  · exact .inl init
  · exact .inr (.inr (.inr ⟨n, listed, .inr output⟩))

theorem rename_id (n : NodeProto K) : n.flow.rename id = n.flow := by
  simp [Flow.Node.rename]

/-- What is constant has its value, as an input too if it is given nothing else. -/
theorem constant_value {k : String} {arr given : NdArray K} (steady : g.Steady final) (constant : g.constant k = some arr)
    (fixed : k ∈ g.inputNames → ∀ given, final k = some given → given = arr) (value : final k = some given) :
    given = arr := by
  by_cases input : k ∈ g.inputNames
  · exact fixed input given value
  · exact steady k arr given constant input value

theorem lastBlocksize_attr (single : (node.attributes.map (·.name)).Nodup) :
    lastBlocksize node = (⟨node.opType, node.attributes⟩ : Op K).attrI "blocksize" := by
  have other : ∀ (attrs : List (Attribute K)) (b : Int), (∀ a ∈ attrs, a.name ≠ "blocksize") →
      attrs.foldl (fun blocksize attr => if attr.name = "blocksize" then attr.i else blocksize) b = b := by
    intro attrs b none
    induction attrs with
    | nil => rfl
    | cons a attrs ih =>
      rw [List.foldl_cons, if_neg (none a List.mem_cons_self)]
      exact ih fun a later => none a (List.mem_cons_of_mem _ later)
  rw [lastBlocksize, Op.attrI, Op.attr]
  dsimp only
  generalize node.attributes = attrs at single
  induction attrs with
  | nil => rfl
  | cons a attrs ih =>
    rw [List.map_cons, List.nodup_cons] at single
    by_cases named : a.name = "blocksize"
    · rw [List.foldl_cons, if_pos named, List.find?_cons_of_pos (by simpa using named)]
      apply other
      intro b later same
      apply single.1
      rw [named, ← same]
      exact List.mem_map_of_mem later
    · rw [List.foldl_cons, if_neg named, List.find?_cons_of_neg (by simpa using named)]
      exact ih single.2

theorem readAll_slots {names : List String} {values : List (NdArray K)}
    (there : Reads env names values) :
    env.readAll (names.map slot) = some (values.map some) := by
  induction there with
  | nil => rfl
  | cons first _ ih =>
    rw [List.map_cons, slot, if_neg first.1, Flow.Env.readAll, first.2, ih]
    rfl

theorem scalar_data {arr : NdArray K} {c : Val K} (scalar : arr.scalar = some c) : arr.tensor.data = [c] := by
  unfold NdArray.scalar at scalar
  split at scalar
  · rename_i v data
    cases scalar
    exact data
  · cases scalar

/-- The side of a `Max` or `Min` that is no constant. -/
theorem bound_operands {x y k data : String} {a b arr v : NdArray K} {f : Val K → Val K → Val K}
    (sides : k = x ∧ data = y ∨ k = y ∧ data = x) (first : x ≠ "" ∧ env x = some a) (second : y ≠ "" ∧ env y = some b)
    (constant : ∀ given, env k = some given → given = arr) (gives : elementwise f a b = some v) :
    ∃ d, data ≠ "" ∧ env data = some d ∧ (elementwise f d arr = some v ∨ elementwise f arr d = some v) := by
  rcases sides with ⟨rfl, rfl⟩ | ⟨rfl, rfl⟩
  · rw [constant a first.2] at gives
    exact ⟨b, second.1, second.2, .inr gives⟩
  · rw [constant b second.2] at gives
    exact ⟨a, first.1, first.2, .inl gives⟩

/-- No dimension is left to be filled in. -/
theorem filled_positive {dims target : List Nat} (allowzero : Bool) (positive : ∀ d ∈ target, 0 < d) :
    ((target.map Int.ofNat).zipIdx.map fun (d, i) =>
      if d = 0 ∧ !allowzero then ((dims.getD i 0 : Nat) : Int) else d) = target.map Int.ofNat := by
  apply List.ext_getElem
  · simp
  · intro i inside inside'
    have below : i < target.length := by simpa using inside'
    have some : 0 < target[i] := positive _ (List.getElem_mem below)
    simp only [List.getElem_map, List.getElem_zipIdx]
    apply if_neg
    rintro ⟨zero, -⟩
    have none : target[i] = 0 := by simpa using zero
    omega

theorem reshapeDims_positive {dims target : List Nat} (allowzero : Bool) (positive : ∀ d ∈ target, 0 < d) :
    reshapeDims allowzero dims (target.map Int.ofNat) = some target := by
  have known : (target.map Int.ofNat).filter (0 ≤ ·) = target.map Int.ofNat := by
    apply List.filter_eq_self.mpr
    simp
  have missing : (target.map Int.ofNat).filter (· < 0) = [] := by
    apply List.filter_eq_nil_iff.mpr
    simp
  rw [reshapeDims]
  dsimp only
  rw [filled_positive allowzero positive, known, missing, if_pos rfl, List.map_map]
  exact congrArg some (List.map_id target)

/-- What a read name has, beside. -/
theorem Beside.operand {x : String} {a : NdArray K} (beside : Beside g added final env env') (listed : node ∈ g.node)
    (reads : x ∈ node.input) (there : x ≠ "" ∧ env x = some a) : x ≠ "" ∧ env' x = some a := by
  have known : x ∈ g.allNames := mem_allNames there.1 (.inr (.inr (.inr ⟨node, listed, .inl reads⟩)))
  exact ⟨there.1, beside.agrees x known a there.2⟩

/-- The two bounds of a `Clip`, in the type of the constant. -/
theorem Beside.bounds {bound other data : String} {c edge : Val K} {arr : NdArray K}
    (beside : Beside g added final env env')
    (apart : Apart g added [⟨bound, scalarTensor np (np.cast .double c) (g.elemTypeOf data .float)⟩,
      ⟨other, scalarTensor np edge (g.elemTypeOf data .float)⟩] temps)
    (dtype : arr.dtype = scalarType (g.elemTypeOf data .float)) (kept : np.cast arr.dtype (np.cast .double c) = c) :
    (bound ≠ "" ∧ env' bound = some (scalarArr arr.dtype c)) ∧
      other ≠ "" ∧ env' other = some (scalarArr arr.dtype (np.cast arr.dtype edge)) := by
  obtain ⟨named, -, array⟩ := beside.arrays _ (apart.own _ List.mem_cons_self)
  obtain ⟨named', -, array'⟩ := beside.arrays _ (apart.own _ (List.mem_cons_of_mem _ List.mem_cons_self))
  have first : scalarTensor np (np.cast .double c) (g.elemTypeOf data .float) = scalarArr arr.dtype c := by
    rw [scalarTensor, ← dtype, kept, scalarArr]
  have second : scalarTensor np edge (g.elemTypeOf data .float) = scalarArr arr.dtype (np.cast arr.dtype edge) := by
    rw [scalarTensor, ← dtype, scalarArr]
  rw [first] at array
  rw [second] at array'
  exact ⟨⟨named, array⟩, named', array'⟩

end Around

variable [Field K] [LinearOrder K]

/-! ## Single nodes -/

section Single

variable [FloorRing K]

theorem builtin_transpose {a : NdArray K} (rank : a.tensor.shape.length = 6) :
    builtin ⟨"Transpose", [{ name := "perm", ints := [0, 3, 5, 1, 2, 4] }]⟩ [some a] =
      some { a with tensor := a.tensor.transpose [0, 3, 5, 1, 2, 4] } := by
  have perm : [0, 3, 5, 1, 2, 4].Perm (List.range 6) := by decide
  simp [builtin, Op.attr, rank, perm]

theorem builtin_max (attributes : List (Attribute K)) (a b : NdArray K) :
    builtin ⟨"Max", attributes⟩ [some a, some b] = elementwise Val.max a b := by
  simp [builtin]

theorem builtin_min (attributes : List (Attribute K)) (a b : NdArray K) :
    builtin ⟨"Min", attributes⟩ [some a, some b] = elementwise Val.min a b := by
  simp [builtin]

theorem builtin_div (attributes : List (Attribute K)) (a b : NdArray K) :
    builtin ⟨"Div", attributes⟩ [some a, some b] =
      elementwise (if a.dtype.isFloat then Val.div else Val.divInt) a b := by
  simp [builtin]

theorem builtin_mul (attributes : List (Attribute K)) (a b : NdArray K) :
    builtin ⟨"Mul", attributes⟩ [some a, some b] = elementwise Val.mul a b := by
  simp [builtin]

/-- The operators that are replaced need both operands. -/
theorem builtin_half {op : String} (replaced : op = "Max" ∨ op = "Min" ∨ op = "Div")
    (attributes : List (Attribute K)) (a : NdArray K) : builtin ⟨op, attributes⟩ [some a, none] = none := by
  rcases replaced with rfl | rfl | rfl <;> simp [builtin]

variable {g : Graph K} {n : NodeProto K} {env env₁ : Flow.Env String (NdArray K)}
  {ext : Flow.Meaning (Op K) (NdArray K)}

/-- What an operator does to two operands. -/
theorem exec_binary (valid : g.Valid) (node : n ∈ g.node) {x y : String} (input : n.input = [x, y])
    (replaced : n.opType = "Max" ∨ n.opType = "Min" ∨ n.opType = "Div")
    (done : n.flow.exec (meaning ext) env = some env₁) :
    ∃ a b v z, (x ≠ "" ∧ env x = some a) ∧ (y ≠ "" ∧ env y = some b) ∧
      builtin ⟨n.opType, n.attributes⟩ [some a, some b] = some v ∧ n.output = [z] ∧ z ≠ "" ∧ env₁ = env.set z v := by
  have known : (⟨n.opType, n.attributes⟩ : Op K).isBuiltin = true := by
    rcases replaced with op | op | op <;> rw [op] <;> rfl
  have other : n.opType ≠ "Constant" := by
    rcases replaced with op | op | op <;> rw [op] <;> decide
  obtain ⟨src, rest, a, more, v, z, input', named, value, read, meant, output, named', rfl⟩ :=
    exec_operand valid node known other done
  rw [input] at input'
  cases input'
  by_cases left : y = ""
  · rw [List.map_cons, slot, if_pos left] at read
    cases read
    rw [builtin_half replaced] at meant
    cases meant
  · rw [List.map_cons, slot, if_neg left] at read
    obtain ⟨b, value', behind⟩ := Option.bind_eq_some_iff.mp read
    cases behind
    exact ⟨a, b, v, z, ⟨named, value⟩, ⟨left, value'⟩, meant, output, named', rfl⟩

/-- What a node does that is put in. -/
theorem exec_gives {args : List (NdArray K)} {v : NdArray K} {y : String}
    (known : (⟨n.opType, n.attributes⟩ : Op K).isBuiltin = true) (free : n.captures = []) (output : n.output = [y])
    (named : y ≠ "") (read : Reads env n.input args)
    (meant : builtin ⟨n.opType, n.attributes⟩ (args.map some) = some v) :
    n.flow.exec (meaning ext) env = some (env.set y v) := by
  refine Flow.exec_some.mpr ⟨args.map some, [v], ?_, ?_, ?_⟩
  · rw [NodeProto.flow, free, List.map_nil, List.append_nil]
    exact readAll_slots read
  · have op : n.flow.op = ⟨n.opType, n.attributes⟩ := rfl
    rw [op, meaning, if_pos known, meant, Option.map_some]
  · rw [NodeProto.flow, output, List.map_singleton, slot, if_neg named]
    rfl

variable [IsStrictOrderedRing K]

theorem i64Tensor_ints (values : List Nat) :
    ∃ t, (i64Tensor values : NdArray K).ints = some t ∧ t.data = values.map Int.ofNat := by
  have whole (v : Nat) : (Val.fin (v : K)).toInt = some (v : Int) := by
    simp [Val.toInt]
  refine ⟨_, if_pos ?_, ?_⟩
  · simp [i64Tensor, whole]
  · simp [i64Tensor, Tensor.map, whole]

theorem builtin_reshape {a : NdArray K} {target : List Nat} {t : Tensor (Val K)} (positive : ∀ d ∈ target, 0 < d)
    (gives : a.tensor.reshape target = some t) :
    builtin ⟨"Reshape", []⟩ [some a, some (i64Tensor target)] = some { a with tensor := t } := by
  obtain ⟨shape, ints, data⟩ := i64Tensor_ints (K := K) target
  simp [builtin, ints, data, reshapeDims_positive _ positive, gives]

end Single

/-! ## The condition -/

/-- The one element that a `Max` or `Min` is a bound of, against what the node reads. -/
structure BoundFits (np : NumPy K) (g : Graph K) (env : Flow.Env String (NdArray K)) (op k data : String)
    (arr : NdArray K) : Prop where
  fixed : k ∈ g.inputNames → ∀ given, env k = some given → given = arr
  dtype : arr.dtype = scalarType (g.elemTypeOf data .float)
  kept : ∀ v ∈ arr.tensor.data, np.cast arr.dtype (np.cast .double v) = v
  rank : ∀ a, env data = some a → arr.tensor.shape.length ≤ a.tensor.shape.length
  /-- Nothing is above the edge. -/
  max : op = "Max" → (∀ v ∈ arr.tensor.data, Val.min v (np.cast arr.dtype (clipEdge np)) = v) ∧
    ∀ a, env data = some a → ∀ v ∈ a.tensor.data, Val.min v (np.cast arr.dtype (clipEdge np)) = v
  /-- Nothing that is left is below the edge. -/
  min : op = "Min" → np.cast arr.dtype (clipEdgeNeg np) ≠ .nan ∧ ∀ a, env data = some a →
    ∀ v ∈ a.tensor.data, ∀ c ∈ arr.tensor.data, Val.min v c = c ∨ Val.max v (np.cast arr.dtype (clipEdgeNeg np)) = v

/-- The divisor of a `Div`: its reciprocals are exact, and of an integer type only units have one. -/
structure DivisorFits (np : NumPy K) (g : Graph K) (env : Flow.Env String (NdArray K)) (rhs : String)
    (arr : NdArray K) : Prop where
  fixed : rhs ∈ g.inputNames → ∀ given, env rhs = some given → given = arr
  dtype : np.dtype arr.dtype = arr.dtype
  real : arr.dtype.isFloat = true → ∀ v ∈ arr.tensor.data, reciprocal np arr.dtype v = Val.div (.fin 1) v
  whole : arr.dtype.isFloat = false → ∀ v ∈ arr.tensor.data,
    (v = .fin 1 ∨ v = .fin (-1)) ∧ reciprocal np arr.dtype v = v

/-- **What a node has to be to be replaced faithfully** in a run. -/
structure Fits (np : NumPy K) (g : Graph K) (env : Flow.Env String (NdArray K)) (node : NodeProto K) : Prop where
  bound : node.opType = "Max" ∨ node.opType = "Min" → ∀ k data arr,
    node.input = [k, data] ∨ node.input = [data, k] → g.constant k = some arr → arr.scalar.isSome = true →
      g.constantScalar data = none → BoundFits np g env node.opType k data arr
  divisor : node.opType = "Div" → ∀ lhs rhs arr, node.input = [lhs, rhs] → g.constant rhs = some arr →
    Val.fin 0 ∉ arr.tensor.data → DivisorFits np g env rhs arr

/-- A run with the shapes that the graph declares, and integers where it has an integer type. -/
structure Typed (g : Graph K) (env : Flow.Env String (NdArray K)) : Prop where
  shapes : ∀ name dims a, g.shapeOf name = some dims → env name = some a → a.tensor.shape = dims
  integers : ∀ name a, env name = some a → a.dtype.isFloat = false → ∀ v ∈ a.tensor.data, ∃ m : Int, v = .fin (m : K)

/-! ## Node by node -/

/-- Nodes give a name its value, and names that nothing has. -/
def Computes [FloorRing K] (ext : Flow.Meaning (Op K) (NdArray K)) (group : List (NodeProto K)) (temps : List String)
    (env : Flow.Env String (NdArray K)) (y : String) (v : NdArray K) : Prop :=
  ∃ env₁, Flow.run (meaning ext) (group.map NodeProto.flow) env = some env₁ ∧ env₁ y = some v ∧
    ∀ x, x ≠ y → x ∉ temps → env₁ x = env x

section Nodes

variable {g : Graph K} {np : NumPy K} {added own : List (Initializer K)} {temps : List String}
  {node : NodeProto K} {group : List (NodeProto K)} {final env env' env₁ : Flow.Env String (NdArray K)}

variable [FloorRing K] {ext : Flow.Meaning (Op K) (NdArray K)}

theorem Beside.within_exec (beside : Beside g added final env env') (fixed : node.flow.exec (meaning ext) final = some final)
    (done : node.flow.exec (meaning ext) env = some env₁) : Flow.Agrees id (fun _ => True) env₁ final := by
  obtain ⟨final', again, within⟩ := Flow.exec_rename beside.within (fun x _ => trivial) (fun x _ y _ same => same) done
  rw [rename_id] at again
  cases fixed.symm.trans again
  exact within

/-- **A node that is left** does what it did. -/
theorem Beside.keep (valid : g.Valid) (beside : Beside g added final env env') (listed : node ∈ g.node)
    (fixed : node.flow.exec (meaning ext) final = some final) (done : node.flow.exec (meaning ext) env = some env₁) :
    ∃ env₁', node.flow.exec (meaning ext) env' = some env₁' ∧ Beside g added final env₁ env₁' := by
  have reads : ∀ x, some x ∈ node.flow.reads → x ∈ g.allNames := by
    intro x reads
    rcases mem_reads.mp reads with ⟨named, input⟩ | captured
    · exact mem_allNames named (.inr (.inr (.inr ⟨node, listed, .inl input⟩)))
    · have named : x ≠ "" := fun empty => valid.captures node listed (empty ▸ captured)
      have closed := valid.closed.1 node listed x (List.mem_append_right _ captured)
      exact defined_allNames named (closed.resolve_left named)
  have writes : ∀ x, some x ∈ node.flow.writes → x ∈ g.allNames := by
    intro x writes
    obtain ⟨named, output⟩ := mem_writes.mp writes
    exact mem_allNames named (.inr (.inr (.inr ⟨node, listed, .inr output⟩)))
  obtain ⟨env₁', done', agrees⟩ := Flow.exec_rename beside.agrees reads (fun x _ y _ same => same) done
  rw [rename_id] at done'
  refine ⟨env₁', done', agrees, fun i own => ?_, beside.within_exec fixed done⟩
  obtain ⟨named, new, value⟩ := beside.arrays i own
  rw [Flow.exec_other done' fun gives => new (writes _ gives)]
  exact ⟨named, new, value⟩

/-- A node that is replaced by others that give what it does. -/
theorem Beside.swap (beside : Beside g added final env env') {y : String} {v : NdArray K} (known : y ∈ g.allNames)
    (apart : Apart g added own temps) (within : Flow.Agrees id (fun _ => True) (env.set y v) final)
    (computes : Computes ext group temps env' y v) :
    ∃ env₁', Flow.run (meaning ext) (group.map NodeProto.flow) env' = some env₁' ∧
      Beside g added final (env.set y v) env₁' := by
  obtain ⟨env₁', run, value, other⟩ := computes
  refine ⟨env₁', run, ?_, ?_, within⟩
  · intro x has u there
    by_cases same : x = y
    · rw [same, Flow.Env.set_self] at there
      rw [id, same, value, there]
    · rw [Flow.Env.set_ne same] at there
      rw [id, other x same fun temp => (apart.temps x temp).2 has]
      exact beside.agrees x has u there
  · intro i listed
    obtain ⟨named, new, array⟩ := beside.arrays i listed
    rw [other i.name (fun same => new (same ▸ known)) (apart.arrays i listed)]
    exact ⟨named, new, array⟩

/-- One node that is put in. -/
theorem computes_one {m : NodeProto K} {args : List (NdArray K)} {v : NdArray K} {y : String}
    (known : (⟨m.opType, m.attributes⟩ : Op K).isBuiltin = true) (free : m.captures = []) (output : m.output = [y])
    (named : y ≠ "") (read : Reads env m.input args)
    (meant : builtin ⟨m.opType, m.attributes⟩ (args.map some) = some v) : Computes ext [m] [] env y v := by
  refine ⟨env.set y v, ?_, Flow.Env.set_self env y v, fun x other _ => Flow.Env.set_ne other⟩
  exact Flow.run_cons.mpr ⟨_, exec_gives known free output named read meant, rfl⟩

/-- `Max` and `Min` with a constant, and what is known of it. -/
theorem Beside.extremum {a b data k dst : String} {more : List String} {c : Val K} {f : Val K → Val K → Val K}
    (valid : g.Valid) (beside : Beside g added final env env') (listed : node ∈ g.node) (steady : g.Steady final)
    (fits : Fits np g final node) (op : node.opType = "Max" ∨ node.opType = "Min")
    (means : ∀ x y : NdArray K, builtin ⟨node.opType, node.attributes⟩ [some x, some y] = elementwise f x y)
    (input : node.input = [a, b]) (output : node.output = dst :: more) (sides : k = a ∧ data = b ∨ k = b ∧ data = a)
    (scalar : g.constantScalar k = some c) (open_ : g.constantScalar data = none)
    (done : node.flow.exec (meaning ext) env = some env₁) :
    ∃ v arr d, node.output = [dst] ∧ dst ≠ "" ∧ env₁ = env.set dst v ∧ arr.tensor.data = [c] ∧
      (data ≠ "" ∧ env' data = some d) ∧ final data = some d ∧ BoundFits np g final node.opType k data arr ∧
      (elementwise f d arr = some v ∨ elementwise f arr d = some v) := by
  obtain ⟨x, y, v, z, first, second, meant, output', named, rfl⟩ :=
    exec_binary valid listed input (op.imp_right .inl) done
  rw [output] at output'
  cases output'
  obtain ⟨arr, constant, one⟩ := Option.bind_eq_some_iff.mp scalar
  have order : node.input = [k, data] ∨ node.input = [data, k] := by
    rw [input]
    rcases sides with ⟨rfl, rfl⟩ | ⟨rfl, rfl⟩
    · exact .inl rfl
    · exact .inr rfl
  have fit := fits.bound op k data arr order constant (by rw [one]; rfl) open_
  have value (given : NdArray K) (there : env k = some given) : given = arr :=
    constant_value steady constant fit.fixed (beside.within k trivial given there)
  rw [means] at meant
  obtain ⟨d, named', there, gives⟩ := bound_operands sides first second value meant
  have reads : data ∈ node.input := by
    rw [input]
    rcases sides with ⟨rfl, rfl⟩ | ⟨rfl, rfl⟩ <;> simp
  exact ⟨v, arr, d, output, named, rfl, scalar_data one, beside.operand listed reads ⟨named', there⟩,
    beside.within data trivial d there, fit, gives⟩

theorem Beside.max {a b data k dst bound other clip : String} {more : List String} {c : Val K}
    (valid : g.Valid) (beside : Beside g added final env env') (listed : node ∈ g.node) (steady : g.Steady final)
    (fits : Fits np g final node) (op : node.opType = "Max") (input : node.input = [a, b])
    (output : node.output = dst :: more) (sides : k = a ∧ data = b ∨ k = b ∧ data = a)
    (scalar : g.constantScalar k = some c) (open_ : g.constantScalar data = none)
    (apart : Apart g added [⟨bound, scalarTensor np (np.cast .double c) (g.elemTypeOf data .float)⟩,
      ⟨other, scalarTensor np (clipEdge np) (g.elemTypeOf data .float)⟩] temps)
    (done : node.flow.exec (meaning ext) env = some env₁) :
    ∃ v, node.output = [dst] ∧ env₁ = env.set dst v ∧ Computes ext
      [{ opType := "Clip", name := clip, input := [data, bound, other], output := [dst] }] [] env' dst v := by
  obtain ⟨v, arr, d, output', named, gives, single, source, ends, fit, meant⟩ :=
    beside.extremum valid listed steady fits (.inl op) (by rw [op]; exact builtin_max node.attributes) input output sides
      scalar open_ done
  obtain ⟨low, high⟩ := beside.bounds apart fit.dtype (fit.kept c (by rw [single]; exact List.mem_cons_self))
  obtain ⟨below, above⟩ := fit.max op
  have reads : Reads env' [data, bound, other] [d, _, _] := .cons source (.cons low (.cons high .nil))
  refine ⟨v, output', gives, computes_one rfl rfl rfl named reads ?_⟩
  apply (builtin_clip [] d _).trans
  exact max_clips single (fit.rank d ends) (above d ends) (below c (by rw [single]; exact List.mem_cons_self)) meant

theorem Beside.min {a b data k dst bound other clip : String} {more : List String} {c : Val K}
    (valid : g.Valid) (beside : Beside g added final env env') (listed : node ∈ g.node) (steady : g.Steady final)
    (fits : Fits np g final node) (op : node.opType = "Min") (input : node.input = [a, b])
    (output : node.output = dst :: more) (sides : k = a ∧ data = b ∨ k = b ∧ data = a)
    (scalar : g.constantScalar k = some c) (open_ : g.constantScalar data = none)
    (apart : Apart g added [⟨bound, scalarTensor np (np.cast .double c) (g.elemTypeOf data .float)⟩,
      ⟨other, scalarTensor np (clipEdgeNeg np) (g.elemTypeOf data .float)⟩] temps)
    (done : node.flow.exec (meaning ext) env = some env₁) :
    ∃ v, node.output = [dst] ∧ env₁ = env.set dst v ∧ Computes ext
      [{ opType := "Clip", name := clip, input := [data, other, bound], output := [dst] }] [] env' dst v := by
  obtain ⟨v, arr, d, output', named, gives, single, source, ends, fit, meant⟩ :=
    beside.extremum valid listed steady fits (.inr op) (by rw [op]; exact builtin_min node.attributes) input output sides
      scalar open_ done
  obtain ⟨high, low⟩ := beside.bounds apart fit.dtype (fit.kept c (by rw [single]; exact List.mem_cons_self))
  obtain ⟨number, below⟩ := fit.min op
  have reads : Reads env' [data, other, bound] [d, _, _] := .cons source (.cons low (.cons high .nil))
  refine ⟨v, output', gives, computes_one rfl rfl rfl named reads ?_⟩
  apply (builtin_clip [] d _).trans
  exact min_clips single (fit.rank d ends) number
    (fun v listed => below d ends v listed c (by rw [single]; exact List.mem_cons_self)) meant

variable [IsStrictOrderedRing K]

/-- `SpaceToDepth` by two changes of shape and a transposition. -/
theorem computes_reorder {src dst s1 s2 t1 t2 r1 tr r2 : String} {a : NdArray K} {t : Tensor (Val K)}
    {n c h w bs : Nat} (source : src ≠ "" ∧ env src = some a) (shape : a.tensor.shape = [n, c, h, w])
    (positive : ∀ d ∈ [n, c, h, w], 0 < d) (large : 0 < bs) (rows : h % bs = 0) (columns : w % bs = 0)
    (gives : spaceToDepth bs a.tensor = some t) (named : dst ≠ "")
    (shape1 : s1 ≠ "" ∧ env s1 = some (i64Tensor [n, c, h / bs, bs, w / bs, bs]))
    (shape2 : s2 ≠ "" ∧ env s2 = some (i64Tensor [n, c * bs * bs, h / bs, w / bs]))
    (temps : t1 ≠ "" ∧ t2 ≠ "") (apart : s2 ≠ t1 ∧ s2 ≠ t2) :
    Computes ext
      [{ opType := "Reshape", name := r1, input := [src, s1], output := [t1] },
        { opType := "Transpose", name := tr, input := [t1], output := [t2],
          attributes := [{ name := "perm", ints := [0, 3, 5, 1, 2, 4] }] },
        { opType := "Reshape", name := r2, input := [t2, s2], output := [dst] }]
      [t1, t2] env dst { a with tensor := t } := by
  obtain ⟨hn, hc, hh, hw, -⟩ : 0 < n ∧ 0 < c ∧ 0 < h ∧ 0 < w ∧ True := by simpa using positive
  have tall : h / bs * bs = h := Nat.div_mul_cancel (Nat.dvd_of_mod_eq_zero rows)
  have wide : w / bs * bs = w := Nat.div_mul_cancel (Nat.dvd_of_mod_eq_zero columns)
  have height : 0 < h / bs := Nat.pos_of_ne_zero (by rintro zero; rw [zero, Nat.zero_mul] at tall; omega)
  have width : 0 < w / bs := Nat.pos_of_ne_zero (by rintro zero; rw [zero, Nat.zero_mul] at wide; omega)
  obtain ⟨split, turned, splitEq, turnedEq, same⟩ := spaceToDepth_transposes (t := a.tensor) (n := n) (c := c)
    (H := h / bs) (W := w / bs) large (by rw [shape, tall, wide])
  cases gives.symm.trans same
  have rank : split.shape.length = 6 := by rw [Tensor.shape_reshape splitEq]; rfl
  let env₁ := env.set t1 { a with tensor := split }
  let env₂ := env₁.set t2 { a with tensor := split.transpose [0, 3, 5, 1, 2, 4] }
  refine ⟨env₂.set dst { a with tensor := t }, ?_, Flow.Env.set_self _ _ _, ?_⟩
  · refine Flow.run_cons.mpr ⟨env₁, ?_, Flow.run_cons.mpr ⟨env₂, ?_, Flow.run_cons.mpr ⟨_, ?_, rfl⟩⟩⟩
    · have reads : Reads env [src, s1] [a, i64Tensor [n, c, h / bs, bs, w / bs, bs]] :=
        .cons source (.cons shape1 .nil)
      apply exec_gives rfl rfl rfl temps.1 reads
      apply builtin_reshape _ splitEq
      simp [hn, hc, height, width, large]
    · have reads : Reads env₁ [t1] [{ a with tensor := split }] :=
        .cons ⟨temps.1, Flow.Env.set_self _ _ _⟩ .nil
      apply exec_gives rfl rfl rfl temps.2 reads
      exact builtin_transpose rank
    · have kept : env₂ s2 = some (i64Tensor [n, c * bs * bs, h / bs, w / bs]) :=
        (Flow.Env.set_ne apart.2).trans ((Flow.Env.set_ne apart.1).trans shape2.2)
      have reads : Reads env₂ [t2, s2]
          [{ a with tensor := split.transpose [0, 3, 5, 1, 2, 4] }, i64Tensor [n, c * bs * bs, h / bs, w / bs]] :=
        .cons ⟨temps.2, Flow.Env.set_self _ _ _⟩ (.cons ⟨shape2.1, kept⟩ .nil)
      apply exec_gives rfl rfl rfl named reads
      apply builtin_reshape _ turnedEq
      simp [hn, hc, height, width, large]
  · intro x other new
    rw [List.mem_cons, List.mem_singleton, not_or] at new
    exact (Flow.Env.set_ne other).trans ((Flow.Env.set_ne new.2).trans (Flow.Env.set_ne new.1))

theorem Beside.spaceToDepth {src dst s1 s2 t1 t2 r1 tr r2 : String} {rest more : List String} {n c h w bs : Nat}
    (valid : g.Valid) (beside : Beside g added final env env') (listed : node ∈ g.node) (typed : Typed g final)
    (op : node.opType = "SpaceToDepth") (input : node.input = src :: rest) (output : node.output = dst :: more)
    (blocks : lastBlocksize node = bs) (large : 2 ≤ bs) (shape : g.shapeOf src = some [n, c, h, w])
    (rows : h % bs = 0) (columns : w % bs = 0)
    (apart : Apart g added [⟨s1, i64Tensor [n, c, h / bs, bs, w / bs, bs]⟩,
      ⟨s2, i64Tensor [n, c * bs * bs, h / bs, w / bs]⟩] [t1, t2])
    (done : node.flow.exec (meaning ext) env = some env₁) :
    ∃ v, node.output = [dst] ∧ env₁ = env.set dst v ∧ Computes ext
      [{ opType := "Reshape", name := r1, input := [src, s1], output := [t1] },
        { opType := "Transpose", name := tr, input := [t1], output := [t2],
          attributes := [{ name := "perm", ints := [0, 3, 5, 1, 2, 4] }] },
        { opType := "Reshape", name := r2, input := [t2, s2], output := [dst] }] [t1, t2] env' dst v := by
  have known : (⟨node.opType, node.attributes⟩ : Op K).isBuiltin = true := by
    rw [op]
    rfl
  obtain ⟨src', rest', a, operands, v, y, input', named, value, -, meant, output', gives, rfl⟩ :=
    exec_operand valid listed known (by rw [op]; decide) done
  rw [input] at input'
  cases input'
  rw [output] at output'
  cases output'
  rw [op, builtin_spaceToDepth, ← op, ← lastBlocksize_attr (valid.attributes node listed), blocks, Int.toNat_natCast]
    at meant
  obtain ⟨t, reordered, rfl⟩ := Option.map_eq_some_iff.mp meant
  have source : env' src = some a :=
    beside.agrees src (mem_allNames named (.inr (.inr (.inr ⟨node, listed, .inl (by rw [input]; exact List.mem_cons_self)⟩)))) a value
  obtain ⟨named1, -, array1⟩ := beside.arrays _ (apart.own _ List.mem_cons_self)
  obtain ⟨named2, -, array2⟩ := beside.arrays _ (apart.own _ (List.mem_cons_of_mem _ List.mem_cons_self))
  have other2 := apart.arrays _ (apart.own _ (List.mem_cons_of_mem _ List.mem_cons_self))
  rw [List.mem_cons, List.mem_singleton, not_or] at other2
  have temp1 := (apart.temps t1 List.mem_cons_self).1
  have temp2 := (apart.temps t2 (List.mem_cons_of_mem _ List.mem_cons_self)).1
  refine ⟨_, output, rfl, ?_⟩
  exact computes_reorder ⟨named, source⟩ (typed.shapes src _ a shape (beside.within src trivial a value))
    (shapeOf_pos shape) (by omega) rows columns reordered gives ⟨named1, array1⟩ ⟨named2, array2⟩ ⟨temp1, temp2⟩ other2

theorem Beside.div {lhs rhs dst quotient mul : String} {more : List String} {arr : NdArray K}
    (valid : g.Valid) (beside : Beside g added final env env') (listed : node ∈ g.node) (steady : g.Steady final)
    (typed : Typed g final) (fits : Fits np g final node) (op : node.opType = "Div") (input : node.input = [lhs, rhs])
    (output : node.output = dst :: more) (constant : g.constant rhs = some arr) (nonzero : Val.fin 0 ∉ arr.tensor.data)
    (apart : Apart g added [⟨quotient, reciprocals np arr⟩] temps)
    (done : node.flow.exec (meaning ext) env = some env₁) :
    ∃ v, node.output = [dst] ∧ env₁ = env.set dst v ∧ Computes ext
      [{ opType := "Mul", name := mul, input := [lhs, quotient], output := [dst] }] [] env' dst v := by
  obtain ⟨a, b, v, z, first, second, meant, output', named, rfl⟩ :=
    exec_binary valid listed input (.inr (.inr op)) done
  rw [output] at output'
  cases output'
  have fit := fits.divisor op lhs rhs arr input constant nonzero
  obtain rfl : b = arr := constant_value steady constant fit.fixed (beside.within rhs trivial b second.2)
  obtain ⟨named', -, array⟩ := beside.arrays _ (apart.own _ List.mem_cons_self)
  have source := beside.operand listed (by rw [input]; exact List.mem_cons_self) first
  have reads : Reads env' [lhs, quotient] [a, reciprocals np b] := .cons source (.cons ⟨named', array⟩ .nil)
  refine ⟨v, output, rfl, computes_one rfl rfl rfl named reads ?_⟩
  rw [op, builtin_div] at meant
  have same : a.dtype = b.dtype := by
    unfold elementwise at meant
    split at meant
    · rename_i typed
      exact typed.1
    · cases meant
  have product : reciprocals np b = { dtype := b.dtype, tensor := b.tensor.map (reciprocal np b.dtype) } := by
    rw [reciprocals, fit.dtype]
  rw [product]
  apply (builtin_mul [] a _).trans
  refine div_multiplies ?_ ?_ meant
  · intro x
    split
    · cases x <;> exact ⟨rfl, rfl⟩
    · cases x <;> exact ⟨rfl, rfl⟩
  · intro x inside w element
    by_cases real : a.dtype.isFloat = true
    · rw [if_pos real, fit.real (same ▸ real) w element]
      exact div_reciprocal fun zero => nonzero (zero ▸ element)
    · rw [Bool.not_eq_true] at real
      obtain ⟨m, rfl⟩ := typed.integers lhs a (beside.within lhs trivial a first.2) real x inside
      obtain ⟨unit, exact_⟩ := fit.whole (same ▸ real) w element
      rw [real, if_neg Bool.false_ne_true, exact_]
      exact divInt_unit unit

/-- **What stands for a node** does what it did. -/
theorem Beside.step {feed : Flow.Env String (NdArray K)} (valid : g.Valid) (run : g.eval ext feed = some final)
    (typed : Typed g final) (fits : Fits np g final node) (listed : node ∈ g.node) (stands : Stands np g added node group)
    (beside : Beside g added final env env') (done : node.flow.exec (meaning ext) env = some env₁) :
    ∃ env₁', Flow.run (meaning ext) (group.map NodeProto.flow) env' = some env₁' ∧ Beside g added final env₁ env₁' := by
  have fixed := eval_fixed valid run listed
  have steady := steady_eval valid run
  have within := beside.within_exec fixed done
  have known {y : String} (output : node.output = [y]) (other : node.opType ∈ builtins) : y ∈ g.allNames := by
    obtain ⟨-, z, named, same⟩ := valid.plain node listed other
    rw [output] at same
    cases same
    exact mem_allNames named (.inr (.inr (.inr ⟨node, listed, .inr (by rw [output]; exact List.mem_cons_self)⟩)))
  cases stands with
  | itself =>
    obtain ⟨env₁', again, after⟩ := beside.keep valid listed fixed done
    exact ⟨env₁', Flow.run_cons.mpr ⟨env₁', again, rfl⟩, after⟩
  | replaced kind apart =>
    cases kind with
    | spaceToDepth op input output blocks large shape rows columns =>
      obtain ⟨v, output', rfl, computes⟩ :=
        beside.spaceToDepth valid listed typed op input output blocks large shape rows columns apart done
      exact beside.swap (known output' (by rw [op]; decide)) apart within computes
    | max op input output sides scalar open_ =>
      obtain ⟨v, output', rfl, computes⟩ :=
        beside.max valid listed steady fits op input output sides scalar open_ apart done
      exact beside.swap (known output' (by rw [op]; decide)) apart within computes
    | min op input output sides scalar open_ =>
      obtain ⟨v, output', rfl, computes⟩ :=
        beside.min valid listed steady fits op input output sides scalar open_ apart done
      exact beside.swap (known output' (by rw [op]; decide)) apart within computes
    | div op input output constant nonzero =>
      obtain ⟨v, output', rfl, computes⟩ :=
        beside.div valid listed steady typed fits op input output constant nonzero apart done
      exact beside.swap (known output' (by rw [op]; decide)) apart within computes

end Nodes

/-! ## Whole graphs -/

section Graphs

variable {g g' : Graph K} {np : NumPy K} {feed env : Flow.Env String (NdArray K)} {added : List (Initializer K)}

omit [Field K] [LinearOrder K] in
theorem init_mem (once : g.initNames.Nodup) {i : Initializer K} (listed : i ∈ g.initializer) :
    g.init i.name = some i.value := by
  cases found : g.initializer.find? (·.name = i.name) with
  | none =>
    have other := List.find?_eq_none.mp found i listed
    rw [decide_eq_true_eq] at other
    exact absurd rfl other
  | some j =>
    have named : j.name = i.name := by simpa using List.find?_some found
    have same : j = i := List.inj_on_of_nodup_map once (List.mem_of_find?_eq_some found) listed named
    rw [Graph.init, found, same, Option.map_some]

omit [Field K] [LinearOrder K] in
/-- A graph with arrays under other names starts beside the one without. -/
theorem beside_start (valid : g.Valid) (initializer : g'.initializer = g.initializer ++ added) (input : g'.input = g.input)
    (other : ∀ i ∈ added, i.name ≠ "" ∧ i.name ∉ g.allNames) (once : (added.map (·.name)).Nodup)
    (within : Flow.Agrees id (fun _ => True) (g.start feed) env) : Beside g added env (g.start feed) (g'.start feed) := by
  have inputs : g'.inputNames = g.inputNames := congrArg (List.map ValueInfo.name) input
  constructor
  · intro x known v value
    have same : g'.init x = g.init x := by
      apply init_append initializer
      rintro i listed rfl
      exact (other i listed).2 known
    rw [id, Graph.start, inputs, same]
    exact value
  · intro i listed
    obtain ⟨named, new⟩ := other i listed
    have unique : g'.initNames.Nodup := by
      rw [Graph.initNames, initializer, List.map_append]
      refine List.nodup_append.mpr ⟨valid.initializers, once, ?_⟩
      rintro x init y again rfl
      obtain ⟨j, listed', rfl⟩ := List.mem_map.mp again
      exact (other j listed').2 (mem_allNames (other j listed').1 (.inl init))
    have apart : i.name ∉ g'.inputNames := by
      rw [inputs]
      exact fun has => new (mem_allNames named (.inr (.inl has)))
    refine ⟨named, new, ?_⟩
    rw [Graph.start, if_neg apart]
    apply init_mem unique
    rw [initializer]
    exact List.mem_append_right _ listed
  · exact within

variable [FloorRing K] [IsStrictOrderedRing K] {ext : Flow.Meaning (Op K) (NdArray K)}

/-- **The rewritten nodes** give what the graph gave. -/
theorem Rewrites.results {groups : List (List (NodeProto K))} {outs : List (String × NdArray K)} (valid : g.Valid)
    (rewrites : Rewrites np g g' groups added) (run : g.eval ext feed = some env) (typed : Typed g env)
    (fits : ∀ node ∈ g.node, Fits np g env node) (read : g.results ext feed = some outs) :
    g'.results ext feed = some outs := by
  have within : Flow.Agrees id (fun _ => True) (g.start feed) env :=
    fun x _ v value => Flow.run_keeps (start_fresh valid) run value
  have start : Beside g added env (g.start feed) (g'.start feed) :=
    beside_start valid rewrites.initializer rewrites.input rewrites.arrays rewrites.once within
  have all : List.Forall₂ (fun node group => node ∈ g.node ∧ Stands np g added node group) g.node groups :=
    (List.forall₂_and_left _ _).mpr ⟨fun _ listed => listed, rewrites.stands⟩
  have step : List.Forall₂ (fun n group => ∀ e e' e₁, Beside g added env e e' → n.exec (meaning ext) e = some e₁ →
      ∃ e₁', Flow.run (meaning ext) group e' = some e₁' ∧ Beside g added env e₁ e₁')
      (g.node.map NodeProto.flow) (groups.map (List.map NodeProto.flow)) :=
    List.forall₂_map_left_iff.mpr (List.forall₂_map_right_iff.mpr (all.imp
      fun node group here e e' e₁ beside done =>
        beside.step valid run typed (fits node here.1) here.1 here.2 done))
  obtain ⟨env', run', beside⟩ := Flow.run_groups step start run
  rw [← List.map_flatten, ← rewrites.node] at run'
  have eval : g'.eval ext feed = some env' := run'
  have outputs : g'.outputNames = g.outputNames := congrArg (List.map ValueInfo.name) rewrites.output
  rw [Graph.results, run, Option.bind_some] at read
  rw [Graph.results, eval, Option.bind_some, outputs]
  refine mapM_agrees (fun name listed v value => ?_) read
  have named : name ≠ "" := fun empty => valid.named.2.2 (empty ▸ listed)
  exact beside.agrees name (mem_allNames named (.inr (.inr (.inl listed)))) v value

/-- **What `rewrite_npu_ops` makes of a graph**: every node is left or replaced by others, and the whole computes
the same where the nodes fit that are replaced. -/
theorem rewriteNpuOps_spec (np : NumPy K) {infer : Infer K} (valid : g.Valid) (lawful : Infer.Lawful infer) :
    ∃ groups added, Rewrites np (g.inferred infer).1 (rewriteNpuOps np g infer).1 groups added ∧
      ∀ (ext : Flow.Meaning (Op K) (NdArray K)) (feed env : Flow.Env String (NdArray K))
        (outs : List (String × NdArray K)), g.eval ext feed = some env → Typed (g.inferred infer).1 env →
          (∀ node ∈ g.node, Fits np (g.inferred infer).1 env node) → g.results ext feed = some outs →
            (rewriteNpuOps np g infer).1.results ext feed = some outs := by
  have like := inferred_like lawful g
  have made : ∃ report, rewriteNpuOps np g infer = rewriteNodes np (g.inferred infer).1 report := by
    unfold rewriteNpuOps Graph.inferred
    cases infer g with
    | ok inferred => exact ⟨_, rfl⟩
    | error exc => exact ⟨_, rfl⟩
  obtain ⟨report, same⟩ := made
  obtain ⟨groups, added, rewrites⟩ := rewriteNodes_spec np (g.inferred infer).1 report
  rw [same]
  refine ⟨groups, added, rewrites, fun ext feed env outs run typed fits read => ?_⟩
  have run' : (g.inferred infer).1.eval ext feed = some env := by
    rw [Graph.eval, like.node, like.start feed]
    exact run
  refine rewrites.results (like.valid valid) run' typed (like.node.symm ▸ fits) ?_
  rw [Graph.results, run', like.outputs]
  rw [Graph.results, run] at read
  exact read

end Graphs

/-! ## A small graph -/

/-- A number of the size of `3.402823466e38` is rounded, any other is kept. -/
def edgeTo (edge rounded x : ℚ) : ℚ := if x = edge then rounded else if x = -edge then -rounded else x

/-- Numbers in other types, as far as the small graph has them. -/
def smallNumPy : NumPy ℚ where
  cast
    | .double, .fin x => .fin (edgeTo (3402823466 * 10 ^ 29) 340282346600000016151267322115014000640 x)
    | .float, .fin x => .fin (edgeTo 340282346600000016151267322115014000640 ((2 ^ 24 - 1) * 2 ^ 104) x)
    | .int32, .fin x => .fin (Val.truncate x)
    | _, v => v
  dtype := id

def halvedType (real : Bool) : DType := if real then .float else .int32

/-- A picture is unshuffled and halved, and bounded if it is of real numbers. -/
def halvedGraph (real : Bool) : Graph ℚ where
  node := { opType := "SpaceToDepth", name := "s2d", input := ["x"], output := ["s"],
            attributes := [{ name := "blocksize", i := 2 }] } ::
    { opType := "Div", name := "half", input := ["s", "two"], output := ["h"] } ::
    if real then [{ opType := "Max", name := "relu", input := ["zero", "h"], output := ["y"] }] else []
  initializer := [{ name := "two", value := ⟨halvedType real, ⟨[1], [.fin 2], rfl⟩⟩ },
    { name := "zero", value := scalarArr (halvedType real) (.fin 0) }]
  input := [{ name := "x", elemType := some (halvedType real), dims := [some 1, some 1, some 2, some 2] }]
  output := [{ name := if real then "y" else "h", elemType := some (halvedType real),
               dims := [some 1, some 4, some 1, some 1] }]
  valueInfo := (if real then ["s", "h"] else ["s"]).map fun name =>
    { name, elemType := some (halvedType real), dims := [some 1, some 4, some 1, some 1] }

theorem halvedGraph_valid (real : Bool) : (halvedGraph real).Valid := by
  constructor
  · cases real <;> decide +kernel
  · cases real <;> decide +kernel
  · cases real <;> decide +kernel
  · cases real <;> decide +kernel
  · cases real <;> decide +kernel
  · cases real <;> decide +kernel
  · apply plain_of
    cases real <;> decide +kernel
  · cases real <;> decide +kernel
  · cases real <;> decide +kernel

def halvedFeed (real : Bool) : Flow.Env String (NdArray ℚ) := fun name =>
  if name = "x" then some ⟨halvedType real, ⟨[1, 1, 2, 2], [.fin (-2), .fin 0, .fin 2, .fin 4], rfl⟩⟩ else none

def fourChannels (real : Bool) (a b c d : ℚ) : NdArray ℚ :=
  ⟨halvedType real, ⟨[1, 4, 1, 1], [.fin a, .fin b, .fin c, .fin d], rfl⟩⟩

/-- No integer stands for a half. -/
theorem rewriteNpuOps_int32 : (halvedGraph false).Valid ∧
    (halvedGraph false).results (fun _ _ => none) (halvedFeed false) = some [("h", fourChannels false (-1) 0 1 2)] ∧
    (rewriteNpuOps smallNumPy (halvedGraph false) keepShapes).1.results (fun _ _ => none) (halvedFeed false) =
      some [("h", fourChannels false 0 0 0 0)] ∧
    fourChannels false (-1) 0 1 2 ≠ fourChannels false 0 0 0 0 := by
  refine ⟨halvedGraph_valid false, ?_, ?_, ?_⟩
  · decide +kernel
  · decide +kernel
  · decide +kernel

/-- A half is a real number, and nothing is near the edge. -/
theorem halvedGraph_fits {env : Flow.Env String (NdArray ℚ)}
    (below : ∀ a, env "h" = some a → ∀ v ∈ a.tensor.data, Val.min v (smallNumPy.cast .float (clipEdge smallNumPy)) = v) :
    ∀ node ∈ (halvedGraph true).node, Fits smallNumPy (halvedGraph true) env node := by
  have two : (halvedGraph true).constant "two" = some ⟨.float, ⟨[1], [.fin 2], rfl⟩⟩ := by decide +kernel
  have zero : (halvedGraph true).constant "zero" = some (scalarArr .float (.fin 0)) := by decide +kernel
  have none : (halvedGraph true).constant "h" = none := by decide +kernel
  intro node listed
  rcases listed with _ | ⟨_, _ | ⟨_, _ | ⟨_, listed⟩⟩⟩
  · constructor
    · intro op
      exact absurd op (by decide)
    · intro op
      exact absurd op (by decide)
  · constructor
    · intro op
      exact absurd op (by decide)
    · intro op lhs rhs arr input constant _
      cases input
      cases two.symm.trans constant
      constructor
      · intro given
        exact absurd given (by decide)
      · rfl
      · intro _
        decide +kernel
      · intro whole
        cases whole
  · constructor
    · intro op k data arr input constant
      rcases input with input | input
      · cases input
        cases zero.symm.trans constant
        intro _ _
        constructor
        · intro given
          exact absurd given (by decide)
        · decide +kernel
        · decide +kernel
        · exact fun a _ => Nat.zero_le _
        · exact fun _ => ⟨by decide +kernel, below⟩
        · intro op
          exact absurd op (by decide)
      · cases input
        cases none.symm.trans constant
    · intro op
      exact absurd op (by decide)
  · cases listed

/-- Real numbers are halved as before. -/
theorem rewriteNpuOps_float :
    (rewriteNpuOps smallNumPy (halvedGraph true) keepShapes).1.results (fun _ _ => none) (halvedFeed true) =
      some [("y", fourChannels true 0 0 1 2)] := by
  obtain ⟨groups, added, -, same⟩ := rewriteNpuOps_spec smallNumPy (halvedGraph_valid true) keepShapes_lawful
  have facts : ((halvedGraph true).eval (fun _ _ => none) (halvedFeed true)).map (fun env =>
      (halvedGraph true).defined.all (fun name => (env name).all fun a => a.dtype.isFloat &&
        ((halvedGraph true).shapeOf name).all fun dims => a.tensor.shape = dims) &&
      (env "h").all fun a => a.tensor.data.all fun v =>
        Val.min v (smallNumPy.cast .float (clipEdge smallNumPy)) = v) = some true := by
    decide +kernel
  obtain ⟨env, run, known⟩ := Option.map_eq_some_iff.mp facts
  rw [Bool.and_eq_true] at known
  have arrays (name : String) (a : NdArray ℚ) (value : env name = some a) := by
    have checked := List.all_eq_true.mp known.1 name (eval_defined run value)
    rw [value, Option.all_some, Bool.and_eq_true] at checked
    exact checked
  apply same (fun _ _ => none) (halvedFeed true) env _ run
  · constructor
    · intro name dims a shape value
      have checked := (arrays name a value).2
      rw [show (halvedGraph true).shapeOf name = some dims from shape, Option.all_some] at checked
      exact of_decide_eq_true checked
    · intro name a value whole
      rw [(arrays name a value).1] at whole
      cases whole
  · apply halvedGraph_fits
    intro a value v listed
    have checked := known.2
    rw [value, Option.all_some, List.all_eq_true] at checked
    exact of_decide_eq_true (checked v listed)
  · decide +kernel

end Rkvc.Onnx
