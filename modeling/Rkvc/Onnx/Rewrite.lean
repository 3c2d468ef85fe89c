import Mathlib.Data.List.Nodup
import Mathlib.Data.List.Perm.Subperm
import Rkvc.Onnx.Extract

/-!
# Operators for the NPU

`rewrite_npu_ops` replaces the operators that the NPU has not: `SpaceToDepth`, `Max` and `Min`
with a constant, and `Div` by one. What NumPy makes of numbers is a parameter. Names that nothing
has are made up for what is added (`unique_fresh`).
-/

namespace Rkvc.Onnx
set_option autoImplicit false
open Lib

structure RewriteReport where
  spaceToDepth : Nat := 0
  maxToClip : Nat := 0
  minToClip : Nat := 0
  divToMul : Nat := 0
  skipped : List String := []
  deriving DecidableEq, Repr

/-- What is used of NumPy: a number in another type, and the type of what `to_array` gives. -/
structure NumPy (K : Type) where
  cast : DType → Val K → Val K
  dtype : DType → DType

/-! ## Names -/

/-- The names that `_unique` tries. -/
def candidate (stem : String) (n : Nat) : String := if n = 0 then stem else s!"{stem}_{n}"

def uniqueFrom (existing : List String) (stem : String) : Nat → Nat → String
  | 0, n => candidate stem n
  | fuel + 1, n => if candidate stem n ∈ existing then uniqueFrom existing stem fuel (n + 1) else candidate stem n

/-- `_unique`; as many names as there are cannot all be taken. -/
def unique (existing : List String) (stem : String) : String := uniqueFrom existing stem existing.length 0

variable {K : Type}

/-- `_all_names`. -/
def Graph.allNames (g : Graph K) : List String :=
  (g.initNames ++ (g.input ++ g.valueInfo ++ g.output).map (·.name) ++
    g.node.flatMap fun n => n.input ++ n.output ++ [n.name]).filter (· ≠ "")

/-! ## The rewriter -/

/-- What changes while the nodes are gone through. -/
structure Rewriting (K : Type) where
  names : List String
  initializer : List (Initializer K)
  report : RewriteReport

namespace Rewriting

variable (st : Rewriting K)

/-- `_unique`, and the name is taken. -/
def fresh (stem : String) : String × Rewriting K :=
  (unique st.names stem, { st with names := unique st.names stem :: st.names })

def append (name : String) (value : NdArray K) : Rewriting K :=
  { st with initializer := st.initializer ++ [⟨name, value⟩] }

def skip (why : String) : Rewriting K := { st with report := { st.report with skipped := st.report.skipped ++ [why] } }

end Rewriting

/-- `_elem_type_of`. -/
def Graph.elemTypeOf (g : Graph K) (name : String) (default : DType) : DType :=
  (((g.input ++ g.valueInfo ++ g.output).find? fun vi => vi.name = name ∧ vi.elemType.isSome).bind (·.elemType)).getD
    default

section Replace

variable [Field K] [LinearOrder K] (np : NumPy K) (g : Graph K)

/-- `_make_i64_tensor`. -/
def i64Tensor (values : List Nat) : NdArray K where
  dtype := .int64
  tensor := ⟨[values.length], values.map fun v : Nat => .fin (v : K), by simp⟩

/-- The block size, the last one if there are several. -/
def lastBlocksize (node : NodeProto K) : Int :=
  node.attributes.foldl (fun blocksize attr => if attr.name = "blocksize" then attr.i else blocksize) 0

/-- `_replace_space_to_depth`. -/
def replaceSpaceToDepth (node : NodeProto K) (st : Rewriting K) : Option (List (NodeProto K)) × Rewriting K :=
  match node.input, node.output with
  | src :: _, dst :: _ =>
    let blocksize := lastBlocksize node
    if blocksize < 2 then (none, st.skip s!"SpaceToDepth {node.name}: 无效 blocksize={blocksize}")
    else
      match g.shapeOf src with
      | some [n, c, h, w] =>
        let bs := blocksize.toNat
        if h % bs ≠ 0 ∨ w % bs ≠ 0 then
          (none, st.skip s!"SpaceToDepth {node.name}: {h}x{w} 不能被 blocksize={blocksize} 整除")
        else
          let shape1 := [n, c, h / bs, bs, w / bs, bs]
          let shape2 := [n, c * bs * bs, h / bs, w / bs]
          let s1 := st.fresh s!"{dst}__std_shape1"
          let s2 := s1.2.fresh s!"{dst}__std_shape2"
          let t1 := s2.2.fresh s!"{dst}__std_r1"
          let t2 := t1.2.fresh s!"{dst}__std_t"
          let st := (t2.2.append s1.1 (i64Tensor shape1)).append s2.1 (i64Tensor shape2)
          let r1 := st.fresh s!"{node.name}__r1"
          let tr := r1.2.fresh s!"{node.name}__tr"
          let r2 := tr.2.fresh s!"{node.name}__r2"
          let st := r2.2
          (some [
            { opType := "Reshape", name := r1.1, input := [src, s1.1], output := [t1.1] },
            { opType := "Transpose", name := tr.1, input := [t1.1], output := [t2.1],
              attributes := [{ name := "perm", ints := [0, 3, 5, 1, 2, 4] }] },
            { opType := "Reshape", name := r2.1, input := [t2.1, s2.1], output := [dst] }],
          { st with report := { st.report with spaceToDepth := st.report.spaceToDepth + 1 } })
      | shape => (none, st.skip s!"SpaceToDepth {node.name}: 无法取得固定 NCHW 形状 {src}={dimsText shape}")
  | _, _ => (none, st.skip s!"SpaceToDepth {node.name}: 缺少 I/O")

/-- The types that a bound can have; `float32` stands for all others. -/
def scalarType : DType → DType
  | .float16 => .float16
  | .double => .double
  | _ => .float

/-- `_make_scalar_tensor`. -/
def scalarTensor (value : Val K) (elem : DType) : NdArray K where
  dtype := scalarType elem
  tensor := ⟨[], [np.cast (scalarType elem) value], rfl⟩

/-- `3.402823466e38`, as the `float` that it is read as. -/
def clipEdge : Val K := np.cast .double (.fin (3402823466 * 10 ^ 29 : Nat))

def clipEdgeNeg : Val K := np.cast .double (.fin (-(3402823466 * 10 ^ 29 : Nat)))

/-- `_clip_nodes`. -/
def clipNodes (dataName : String) (constValue : Val K) (dst : String) (asMin : Bool) (nodeName : String)
    (st : Rewriting K) : List (NodeProto K) × Rewriting K :=
  let bound := st.fresh s!"{dst}__clip_bound"
  let other := bound.2.fresh s!"{dst}__clip_other"
  let elem := g.elemTypeOf dataName .float
  let st := other.2.append bound.1 (scalarTensor np constValue elem)
  let st := st.append other.1 (scalarTensor np (if asMin then clipEdge np else clipEdgeNeg np) elem)
  let inputs := if asMin then [dataName, bound.1, other.1] else [dataName, other.1, bound.1]
  let clip := st.fresh s!"{nodeName}__clip"
  ([{ opType := "Clip", name := clip.1, input := inputs, output := [dst] }], clip.2)

/-- `_replace_minmax`. -/
def replaceMinmax (node : NodeProto K) (scalars : String → Option (Val K)) (st : Rewriting K) (asMin : Bool) :
    Option (List (NodeProto K)) × Rewriting K :=
  match node.input, node.output with
  | [a, b], dst :: _ =>
    let replaced (data : String) (constV : Val K) :=
      let nodes := clipNodes np g data constV dst asMin (if node.name ≠ "" then node.name else node.opType) st
      let report := nodes.2.report
      (some nodes.1, { nodes.2 with
        report := if asMin then { report with maxToClip := report.maxToClip + 1 }
          else { report with minToClip := report.minToClip + 1 } })
    match scalars a, scalars b with
    | some v, none => replaced b v
    | none, some v => replaced a v
    | _, _ => (none, st.skip s!"{node.opType} {node.name}: 两侧都非常量或都是常量")
  | _, _ => (none, st.skip s!"{node.opType} {node.name}: 非二元")

/-- The reciprocal of an element, over `float32`. -/
def reciprocal (dtype : DType) (v : Val K) : Val K :=
  np.cast dtype (np.cast .float (Val.div (.fin 1) (np.cast .float v)))

/-- The reciprocals of an array, in its own type. -/
def reciprocals (arr : NdArray K) : NdArray K where
  dtype := np.dtype arr.dtype
  tensor := arr.tensor.map (reciprocal np (np.dtype arr.dtype))

/-- `_replace_div`. -/
def replaceDiv (node : NodeProto K) (st : Rewriting K) : Option (List (NodeProto K)) × Rewriting K :=
  match node.input, node.output with
  | [lhs, rhs], dst :: _ =>
    match { g with initializer := st.initializer }.constant rhs with
    | none => (none, st.skip s!"Div {node.name}: 除数不是常量")
    | some arr =>
      if (Val.fin 0 : Val K) ∈ arr.tensor.data then (none, st.skip s!"Div {node.name}: 除数含 0")
      else
        let rec_ := st.fresh s!"{dst}__rcp"
        let st := rec_.2.append rec_.1 (reciprocals np arr)
        let st := { st with report := { st.report with divToMul := st.report.divToMul + 1 } }
        let stem := if node.name ≠ "" then node.name else "Div"
        let mul := st.fresh s!"{stem}__mul"
        (some [{ opType := "Mul", name := mul.1, input := [lhs, rec_.1], output := [dst] }], mul.2)
  | _, _ => (none, st.skip s!"Div {node.name}: 非二元")

/-- What a node is replaced by, if it is. -/
def replacement (node : NodeProto K) (scalars : String → Option (Val K)) (st : Rewriting K) :
    Option (List (NodeProto K)) × Rewriting K :=
  if node.opType = "SpaceToDepth" then replaceSpaceToDepth g node st
  else if node.opType = "Max" then replaceMinmax np g node scalars st true
  else if node.opType = "Min" then replaceMinmax np g node scalars st false
  else if node.opType = "Div" then replaceDiv np g node st
  else (none, st)

/-- The nodes that stand for each, and what is added for them. -/
def replacements (scalars : String → Option (Val K)) :
    List (NodeProto K) → Rewriting K → List (List (NodeProto K)) × Rewriting K
  | [], st => ([], st)
  | node :: nodes, st =>
    let one := replacement np g node scalars st
    let rest := replacements scalars nodes one.2
    (one.1.getD [node] :: rest.1, rest.2)

/-- `_constant_scalars`. -/
def constantScalars : String → Option (Val K) := fun name => (g.constantScalar name).map (np.cast .double)

/-- The nodes of a graph whose shapes are inferred. -/
def rewriteNodes (report : RewriteReport) : Graph K × RewriteReport :=
  let all := replacements np g (constantScalars np g) g.node { names := g.allNames, initializer := g.initializer, report }
  ({ g with node := all.1.flatten, initializer := all.2.initializer }, all.2.report)

/-- **`rewrite_npu_ops`.** -/
def rewriteNpuOps (infer : Infer K) : Graph K × RewriteReport :=
  match infer g with
  | .ok inferred => rewriteNodes np inferred {}
  | .error exc => rewriteNodes np g { skipped := [s!"shape_inference failed: {exc}"] }

end Replace

/-! ## Fresh names -/

section Names

theorem candidate_later {stem : String} {n : Nat} (later : n ≠ 0) :
    (candidate stem n).toList = stem.toList ++ '_' :: Nat.toDigits 10 n := by
  rw [candidate, if_neg later]
  simp
  rfl

theorem candidate_inj {stem : String} {m n : Nat} (same : candidate stem m = candidate stem n) : m = n := by
  have chars := congrArg String.toList same
  by_cases first : m = 0 <;> by_cases first' : n = 0
  · rw [first, first']
  · rw [candidate_later first', candidate, if_pos first] at chars
    have lengths := congrArg List.length chars
    rw [List.length_append, List.length_cons] at lengths
    omega
  · rw [candidate_later first, candidate, if_pos first'] at chars
    have lengths := congrArg List.length chars
    rw [List.length_append, List.length_cons] at lengths
    omega
  · rw [candidate_later first, candidate_later first', List.append_cancel_left_eq, List.cons.injEq] at chars
    have digits := congrArg (Nat.ofDigitChars 10 · 0) chars.2
    simpa using digits

theorem uniqueFrom_cases (existing : List String) (stem : String) (fuel n : Nat) :
    uniqueFrom existing stem fuel n ∉ existing ∨ ∀ k ≤ fuel, candidate stem (n + k) ∈ existing := by
  induction fuel generalizing n with
  | zero =>
    by_cases taken : candidate stem n ∈ existing
    · right
      intro k none
      rw [Nat.le_zero.mp none]
      exact taken
    · left
      exact taken
  | succ fuel ih =>
    rw [uniqueFrom]
    by_cases taken : candidate stem n ∈ existing
    · rw [if_pos taken]
      refine (ih (n + 1)).imp_right fun all k le => ?_
      cases k with
      | zero => exact taken
      | succ k =>
        rw [← Nat.add_assoc, Nat.add_right_comm]
        exact all k (by omega)
    · rw [if_neg taken]
      exact .inl taken

/-- **A name that is made up is nobody's.** -/
theorem unique_fresh (existing : List String) (stem : String) : unique existing stem ∉ existing := by
  refine (uniqueFrom_cases existing stem existing.length 0).resolve_right fun all => ?_
  have candidates : ((List.range (existing.length + 1)).map (candidate stem)).Nodup :=
    List.Nodup.map (fun _ _ => candidate_inj) List.nodup_range
  have among : (List.range (existing.length + 1)).map (candidate stem) ⊆ existing := by
    intro name listed
    obtain ⟨k, below, rfl⟩ := List.mem_map.mp listed
    have taken := all k (Nat.lt_succ_iff.mp (List.mem_range.mp below))
    rw [Nat.zero_add] at taken
    exact taken
  have few := (List.subperm_of_subset candidates among).length_le
  rw [List.length_map, List.length_range] at few
  omega
end Names

end Rkvc.Onnx
