import Mathlib.Algebra.Order.Floor.Ring
import Rkvc.Lib.Flow
import Rkvc.Lib.Tensor

/-!
# Tensors and operators

The values that the nodes of an ONNX graph compute, in exact arithmetic: a tensor is a type
of elements, a shape and numbers. The operators that the tools rewrite are given their ONNX
definitions; whatever else a graph uses is a parameter of its meaning.
-/

namespace Rkvc.Onnx
set_option autoImplicit false
open Lib

/-- `TensorProto` types. -/
inductive DType where
  | float | uint8 | int8 | uint16 | int16 | int32 | int64 | bool | float16 | double | uint32 | uint64 | bfloat16
  deriving DecidableEq, Repr

def DType.isFloat : DType → Bool
  | .float | .float16 | .double | .bfloat16 => true
  | _ => false

def DType.numeric (d : DType) : Bool := d ≠ .bool

/-! ## Numbers -/

inductive Val (K : Type) where
  | fin (x : K)
  | posInf
  | negInf
  | nan
  deriving DecidableEq, Repr

instance {K : Type} : Inhabited (Val K) := ⟨.nan⟩

namespace Val

variable {K : Type} [Field K] [LinearOrder K]

def max : Val K → Val K → Val K
  | nan, _ | _, nan => nan
  | posInf, _ | _, posInf => posInf
  | negInf, v | v, negInf => v
  | fin x, fin y => fin (Max.max x y)

def min : Val K → Val K → Val K
  | nan, _ | _, nan => nan
  | negInf, _ | _, negInf => negInf
  | posInf, v | v, posInf => v
  | fin x, fin y => fin (Min.min x y)

/-- An infinity, with the sign of a number. -/
def infinite (x : K) : Val K := if x = 0 then nan else if 0 < x then posInf else negInf

def mul : Val K → Val K → Val K
  | nan, _ | _, nan => nan
  | fin x, fin y => fin (x * y)
  | fin x, posInf | posInf, fin x => infinite x
  | fin x, negInf | negInf, fin x => infinite (-x)
  | posInf, posInf | negInf, negInf => posInf
  | posInf, negInf | negInf, posInf => negInf

def div : Val K → Val K → Val K
  | nan, _ | _, nan => nan
  | fin x, fin y => if y = 0 then infinite x else fin (x / y)
  | fin _, posInf | fin _, negInf => fin 0
  | posInf, fin y => if y < 0 then negInf else posInf
  | negInf, fin y => if y < 0 then posInf else negInf
  | posInf, posInf | posInf, negInf | negInf, posInf | negInf, negInf => nan

variable [FloorRing K]

/-- The integer towards zero. -/
def truncate (x : K) : Int := if x < 0 then ⌈x⌉ else ⌊x⌋

/-- `Div` of integers. -/
def divInt : Val K → Val K → Val K
  | fin x, fin y => if y = 0 then nan else fin (truncate (x / y) : K)
  | _, _ => nan

def toInt : Val K → Option Int
  | fin x => if (⌊x⌋ : K) = x then some ⌊x⌋ else none
  | _ => none

end Val

/-! ## Tensors -/

structure NdArray (K : Type) where
  dtype : DType
  tensor : Tensor (Val K)
  deriving DecidableEq

/-- The fields of an attribute, or their defaults. -/
structure Attribute (K : Type) where
  name : String
  i : Int := 0
  s : String := ""
  ints : List Int := []
  t : Option (NdArray K) := none
  deriving DecidableEq

structure Op (K : Type) where
  opType : String
  attributes : List (Attribute K)
  deriving DecidableEq

variable {K : Type}

def Op.attr (op : Op K) (name : String) : Option (Attribute K) := op.attributes.find? (·.name = name)

/-- The integer of an attribute, if it is there. -/
def Op.attrI (op : Op K) (name : String) : Int := ((op.attr name).map Attribute.i).getD 0

/-! ## Shapes -/

/-- The shape of two that are broadcast against each other, from the last axis on. -/
def broadcastBack : List Nat → List Nat → Option (List Nat)
  | [], shape => some shape
  | shape, [] => some shape
  | n :: shape, k :: shape' =>
    if n = k ∨ k = 1 then (broadcastBack shape shape').map (n :: ·)
    else if n = 1 then (broadcastBack shape shape').map (k :: ·)
    else none

def broadcastShape (s t : List Nat) : Option (List Nat) := (broadcastBack s.reverse t.reverse).map List.reverse

/-- Where an index of the result reads an operand. -/
def operandIndex (shape index : List Nat) : List Nat :=
  (shape.zip (index.drop (index.length - shape.length))).map fun (n, i) => if n = 1 then 0 else i

def broadcast {α β γ : Type} [Inhabited α] [Inhabited β] (f : α → β → γ) (s : Tensor α) (t : Tensor β) :
    Option (Tensor γ) :=
  (broadcastShape s.shape t.shape).map fun shape =>
    Tensor.ofFn shape fun index => f (s.get (operandIndex s.shape index)) (t.get (operandIndex t.shape index))

/-- The extents that the second operand of `Reshape` comes to: 0 keeps an extent, -1 is what is left. -/
def reshapeDims (allowzero : Bool) (dims : List Nat) (target : List Int) : Option (List Nat) :=
  let filled := target.zipIdx.map fun (d, i) => if d = 0 ∧ !allowzero then ((dims.getD i 0 : Nat) : Int) else d
  let known := (filled.filter (0 ≤ ·)).map Int.toNat
  let missing := filled.filter (· < 0)
  if missing = [] then some known
  else if missing = [-1] ∧ known.prod ≠ 0 then
    some (filled.map fun d => if d < 0 then dims.prod / known.prod else d.toNat)
  else none

/-! ## Reordering -/

section Reorder

variable {α : Type} [Inhabited α]

def gather (axis : Nat) (data : Tensor α) (indices : Tensor Int) : Option (Tensor α) :=
  let n := data.shape.getD axis 0
  if axis < data.shape.length ∧ ∀ i ∈ indices.data, -(n : Int) ≤ i ∧ i < n then
    some (Tensor.ofFn (data.shape.take axis ++ indices.shape ++ data.shape.drop (axis + 1)) fun index =>
      let i := indices.get ((index.drop axis).take indices.shape.length)
      data.get (index.take axis ++ (if i < 0 then i + n else i).toNat :: index.drop (axis + indices.shape.length)))
  else none

def spaceToDepth (bs : Nat) (t : Tensor α) : Option (Tensor α) :=
  match t.shape with
  | [n, c, h, w] =>
    if 0 < bs ∧ h % bs = 0 ∧ w % bs = 0 then
      some (Tensor.ofFn [n, c * bs * bs, h / bs, w / bs] fun
        | [b, k, y, x] => t.get [b, k % c, y * bs + k / c / bs, x * bs + k / c % bs]
        | _ => default)
    else none
  | _ => none

def depthToSpace (bs : Nat) (crd : Bool) (t : Tensor α) : Option (Tensor α) :=
  match t.shape with
  | [n, c, h, w] =>
    if 0 < bs ∧ c % (bs * bs) = 0 then
      let oc := c / (bs * bs)
      some (Tensor.ofFn [n, oc, h * bs, w * bs] fun
        | [b, k, y, x] =>
          let cell := y % bs * bs + x % bs
          t.get [b, if crd then k * (bs * bs) + cell else cell * oc + k, y / bs, x / bs]
        | _ => default)
    else none
  | _ => none

end Reorder

/-! ## Operators -/

section Operators

variable [Field K] [LinearOrder K] [FloorRing K]

/-- The numbers of an integer tensor. -/
def NdArray.ints (a : NdArray K) : Option (Tensor Int) :=
  if a.tensor.data.all fun v => v.toInt.isSome then some (a.tensor.map fun v => v.toInt.getD 0) else none

/-- Two tensors of one type. -/
def elementwise (f : Val K → Val K → Val K) (a b : NdArray K) : Option (NdArray K) :=
  if a.dtype = b.dtype ∧ a.dtype.numeric then (broadcast f a.tensor b.tensor).map fun tensor => { dtype := a.dtype, tensor }
  else none

/-- One bound of `Clip`, or none. -/
def clipBound (a : NdArray K) : Option (NdArray K) → Option (Option (Val K))
  | none => some none
  | some bound => if bound.dtype = a.dtype ∧ bound.tensor.shape = [] then some (bound.tensor.data.head?) else none

def clipVal (lo hi : Option (Val K)) (v : Val K) : Val K :=
  let v := match lo with
    | none => v
    | some lo => Val.max v lo
  match hi with
  | none => v
  | some hi => Val.min v hi

def clip (a : NdArray K) (lo hi : Option (NdArray K)) : Option (NdArray K) :=
  if a.dtype.numeric then
    (clipBound a lo).bind fun lo => (clipBound a hi).map fun hi => { a with tensor := a.tensor.map (clipVal lo hi) }
  else none

/-- An axis, counted from the end where it is negative. -/
def axisOf (axis : Int) (rank : Nat) : Nat := (if axis < 0 then axis + rank else axis).toNat

/-- What the operators give that are rewritten, or that they are rewritten to. -/
def builtin (op : Op K) (args : List (Option (NdArray K))) : Option (NdArray K) :=
  let arg (i : Nat) : Option (NdArray K) := (args[i]?).join
  if op.opType = "Constant" then (op.attr "value").bind (·.t)
  else (arg 0).bind fun a =>
    if op.opType = "Gather" then
      (arg 1).bind fun b => b.ints.bind fun indices =>
        (gather (axisOf (op.attrI "axis") a.tensor.shape.length) a.tensor indices).map
          fun tensor => { a with tensor }
    else if op.opType = "SpaceToDepth" then
      (spaceToDepth (op.attrI "blocksize").toNat a.tensor).map fun tensor => { a with tensor }
    else if op.opType = "DepthToSpace" then
      (depthToSpace (op.attrI "blocksize").toNat ((op.attr "mode").map Attribute.s = some "CRD") a.tensor).map
        fun tensor => { a with tensor }
    else if op.opType = "Reshape" then
      (arg 1).bind fun b => b.ints.bind fun shape =>
        (reshapeDims (op.attrI "allowzero" = 1) a.tensor.shape shape.data).bind fun dims =>
        (a.tensor.reshape dims).map fun tensor => { a with tensor }
    else if op.opType = "Transpose" then
      let perm := ((op.attr "perm").map fun p => p.ints.map Int.toNat).getD (List.range a.tensor.shape.length).reverse
      if perm.Perm (List.range a.tensor.shape.length) then some { a with tensor := a.tensor.transpose perm } else none
    else if op.opType = "Clip" then clip a (arg 1) (arg 2)
    else if op.opType = "Max" then (args.drop 1).foldlM (fun a b => b.bind (elementwise Val.max a)) a
    else if op.opType = "Min" then (args.drop 1).foldlM (fun a b => b.bind (elementwise Val.min a)) a
    else if op.opType = "Mul" then (arg 1).bind (elementwise Val.mul a)
    else if op.opType = "Div" then (arg 1).bind (elementwise (if a.dtype.isFloat then Val.div else Val.divInt) a)
    else none

def builtins : List String :=
  ["Constant", "Gather", "SpaceToDepth", "DepthToSpace", "Reshape", "Transpose", "Clip", "Max", "Min", "Mul", "Div"]

/-- `Constant` has forms that are not met. -/
def Op.isBuiltin (op : Op K) : Bool := op.opType ∈ builtins ∧ (op.opType = "Constant" → (op.attr "value").isSome)

/-- The meaning of a graph's operators, where `ext` is that of all others. -/
def meaning (ext : Flow.Meaning (Op K) (NdArray K)) : Flow.Meaning (Op K) (NdArray K) := fun op args =>
  if op.isBuiltin then (builtin op args).map ([·]) else ext op args

/-- All but constants have a first operand. -/
theorem builtin_operand {op : Op K} {args : List (Option (NdArray K))} {v : NdArray K} (other : op.opType ≠ "Constant")
    (gives : builtin op args = some v) : ∃ a more, args = some a :: more := by
  match args, gives with
  | [], gives => simp [builtin, other] at gives
  | none :: _, gives => simp [builtin, other] at gives
  | some a :: more, _ => exact ⟨a, more, rfl⟩

/-! ## What they give -/

theorem builtin_spaceToDepth (attributes : List (Attribute K)) (a : NdArray K) (more : List (Option (NdArray K))) :
    builtin ⟨"SpaceToDepth", attributes⟩ (some a :: more) =
      (spaceToDepth ((⟨"SpaceToDepth", attributes⟩ : Op K).attrI "blocksize").toNat a.tensor).map
        fun tensor => { a with tensor } := by
  simp [builtin]

theorem builtin_depthToSpace (attributes : List (Attribute K)) (a : NdArray K) (more : List (Option (NdArray K))) :
    builtin ⟨"DepthToSpace", attributes⟩ (some a :: more) =
      (depthToSpace ((⟨"DepthToSpace", attributes⟩ : Op K).attrI "blocksize").toNat
        (((⟨"DepthToSpace", attributes⟩ : Op K).attr "mode").map Attribute.s = some "CRD") a.tensor).map
        fun tensor => { a with tensor } := by
  simp [builtin]

theorem builtin_clip (attributes : List (Attribute K)) (a : NdArray K) (more : List (Option (NdArray K))) :
    builtin ⟨"Clip", attributes⟩ (some a :: more) = clip a (more[0]?).join (more[1]?).join := by
  simp [builtin]

end Operators

end Rkvc.Onnx
