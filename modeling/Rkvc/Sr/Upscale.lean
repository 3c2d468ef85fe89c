import Rkvc.Core.FileIo
import Rkvc.Core.Model
import Rkvc.Sr.Bicubic
import Rkvc.Sr.Phase

/-!
# The upscaler node

`SrUpscaleNode` packs a picture for the model, scales it with `bicubic_nv12` and adds
the model's residual onto the result. The runtime that it opens the model with is
`RknnRuntime`, a few calls of `librknnrt` and checks on what they return.
-/

namespace Rkvc.Sr
set_option autoImplicit false
open Lib

def kPhaseOutFactor : Nat := 6
def kPhaseOutCh : Nat := 108
def kMaxDim : Nat := 8192

/-! ## The runtime -/

structure SrGeometry where
  coreW : Nat
  coreH : Nat
  inW : Nat
  inH : Nat
  outW : Nat
  outH : Nat
  deriving DecidableEq, Repr

/-- `ospec` of `process`. -/
def SrGeometry.outSpec (g : SrGeometry) : Spec :=
  { width := g.outW, height := g.outH, fmt := .nv12, stride := g.outW, verStride := g.outH }

/-- A runtime that has a model. Runs are numbered, so a run may end differently each time. -/
structure SrOpened where
  geom : SrGeometry
  /-- `run`, on the packed picture and the size of the residual. -/
  run : Nat → List UInt8 → Nat → Result (List Rat)

/-- `SrRuntime::open`. -/
abbrev SrRuntime := List UInt8 → Result SrOpened

inductive RknnFormat where
  | nchw | nhwc | other
  deriving DecidableEq, Repr

inductive RknnType where
  | uint8 | int8 | float16 | float32 | other
  deriving DecidableEq, Repr

/-- `rknn_tensor_attr`. -/
structure RknnTensorAttr where
  nDims : Nat
  dims : List Nat
  fmt : RknnFormat
  type : RknnType
  /-- `qnt_type` is not `RKNN_TENSOR_QNT_NONE`. -/
  quantized : Bool
  zp : Int
  nElems : Nat
  deriving DecidableEq, Repr

/-- What the calls of `librknnrt` return for a model: `none` and `false` are failures. -/
structure RknnContext where
  inOutNum : Option (Nat × Nat)
  inputAttr : Option RknnTensorAttr
  outputAttr : Option RknnTensorAttr
  inputsSet : Nat → List UInt8 → Bool
  run : Nat → List UInt8 → Bool
  /-- The floats of the output buffer. -/
  outputsGet : Nat → List UInt8 → Option (List Rat)

def rknnHostInputAcceptable (a : RknnTensorAttr) : Bool :=
  a.type = .uint8 || a.type = .float16 || a.type = .float32 || (a.type = .int8 && a.quantized && a.zp = -128)

/-- Channels, height and width. -/
def chw (a : RknnTensorAttr) : Option (Nat × Nat × Nat) :=
  if a.nDims ≠ 4 then none
  else
    let read : Option (Nat × Nat × Nat) :=
      match a.fmt with
      | .nchw => some (a.dims.getD 1 0, a.dims.getD 2 0, a.dims.getD 3 0)
      | .nhwc => some (a.dims.getD 3 0, a.dims.getD 1 0, a.dims.getD 2 0)
      | .other => none
    read.filter fun (c, h, w) => c > 0 ∧ h > 0 ∧ w > 0

/-- `RknnRuntime::run`. -/
def rknnRun (ctx : RknnContext) (inAttr outAttr : RknnTensorAttr) (n : Nat) (packed : List UInt8) (residual : Nat) :
    Result (List Rat) :=
  let bad (reason : String) : Result (List Rat) := Result.reject .hw "process" "rknn.upscale" reason
  if packed.length ≠ inAttr.nElems ∨ residual ≠ outAttr.nElems then bad "bad buffers"
  else if !ctx.inputsSet n packed then bad "inputs_set failed"
  else if !ctx.run n packed then bad "inference failed"
  else
    match ctx.outputsGet n packed with
    | none => bad "output retrieval failed"
    | some out => if out.length < outAttr.nElems then bad "short output" else .ok (out.take outAttr.nElems)

/-- `RknnRuntime::open`, on what `rknn_init` makes of a model. -/
def rknnRuntime (init : List UInt8 → Option RknnContext) : SrRuntime := fun model =>
  let bad (reason : String) : Result SrOpened := Result.reject .hw "open" "rknn.upscale" reason
  if model.length = 0 ∨ model.length > 2 ^ 32 - 1 then bad "empty model"
  else
    match init model with
    | none => bad "rknn_init rejected model/runtime pair"
    | some ctx =>
      if ctx.inOutNum ≠ some (1, 1) then bad "Phase-RLFN needs exactly 1 input and 1 output"
      else
        match ctx.inputAttr, ctx.outputAttr with
        | some inAttr, some outAttr =>
          match chw inAttr, chw outAttr with
          | some (inC, inH, inW), some (outC, outH, outW) =>
            if inAttr.fmt ≠ .nhwc ∨ outAttr.fmt ≠ .nchw ∨ inC ≠ kPhaseInCh ∨ outC ≠ kPhaseOutCh ∨ inW ≠ outW ∨
                inH ≠ outH ∨ inW > kMaxDim / kPhaseOutFactor ∨ inH > kMaxDim / kPhaseOutFactor ∨
                !rknnHostInputAcceptable inAttr ∨ inAttr.nElems ≠ kPhaseInCh * inW * inH ∨
                outAttr.nElems ≠ kPhaseOutCh * inW * inH then bad "tensor contract mismatch"
            else
              .ok
                { geom :=
                    { coreW := inW
                      coreH := inH
                      inW := u32 (inW * kPhaseInFactor)
                      inH := u32 (inH * kPhaseInFactor)
                      outW := u32 (outW * kPhaseOutFactor)
                      outH := u32 (outH * kPhaseOutFactor) }
                  run := rknnRun ctx inAttr outAttr }
          | _, _ => bad "tensor contract mismatch"
        | _, _ => bad "attr query failed"

/-! ## The node -/

/-- A frame. The memory of a DMA buffer is read where it can be mapped. -/
structure SrFrame where
  spec : Spec := {}
  size : Nat := 0
  data : Option (List UInt8) := none
  fd : Int := -1
  mapped : Option (List UInt8) := none
  pts : Int := 0
  dts : Int := 0
  flags : UInt32 := 0
  deriving DecidableEq, Repr

/-- A stride of zero stands for the width, or the height. -/
def SrFrame.stride (f : SrFrame) : Nat := if f.spec.stride ≠ 0 then f.spec.stride else f.spec.width

def SrFrame.vstride (f : SrFrame) : Nat := if f.spec.verStride ≠ 0 then f.spec.verStride else f.spec.height

/-- What is read has the frame's size. -/
def SrFrame.Sized (f : SrFrame) : Prop :=
  (∀ bytes ∈ f.data, bytes.length = f.size) ∧ ∀ bytes ∈ f.mapped, bytes.length = f.size

structure SrUpscaleNode where
  opened : SrOpened
  packed : List UInt8
  residual : List Rat
  /-- How often the model has run. -/
  runs : Nat := 0

namespace SrUpscaleNode

/-- `bind_model`: the bytes that the runtime is given. -/
def bindModel (model : Model) : Result (List UInt8) :=
  if model.role ≠ "upscale" then Result.reject .format "bind" "rknn.upscale" "model role is not upscale"
  else
    match model.find "rknn" with
    | none => Result.reject .format "bind" "rknn.upscale" "missing rknn payload"
    | some rknn =>
      if rknn.data = [] then Result.reject .format "bind" "rknn.upscale" "missing rknn payload" else .ok rknn.data

/-- `open`, of a request for `reqW` times `reqH`; zero asks for nothing. -/
def «open» (rt : Option SrRuntime) (reqW reqH : Nat) (modelBytes : List UInt8) : Result SrUpscaleNode :=
  if modelBytes = [] then Result.reject .format "open" "rknn.upscale" "opened without a bound model"
  else
    match rt with
    | none => .error { status := .hw }
    | some rt =>
      match rt modelBytes with
      | .error e => .error e
      | .ok opened =>
        let geom := opened.geom
        if (reqW ≠ 0 ∧ reqW ≠ geom.inW) ∨ (reqH ≠ 0 ∧ reqH ≠ geom.inH) then
          Result.reject .format "open" "rknn.upscale" "request geometry mismatch"
        else
          .ok
            { opened
              packed := List.replicate (kPhaseInCh * geom.coreW * geom.coreH) 0
              residual := List.replicate (kPhaseOutCh * geom.coreW * geom.coreH) 0 }

def bad {α : Type} (status : Status) (reason : String) : Result α :=
  Result.reject status "process" "rknn.upscale" reason

/-- The pointer that a frame is read through. -/
def base (input : SrFrame) : Result (List UInt8) :=
  if input.spec.domain = .dmabuf then
    if input.fd < 0 ∨ input.spec.modifier ≠ 0 then bad .format "linear dmabuf only"
    else
      match input.mapped with
      | none => bad .io "dmabuf map failed"
      | some bytes => .ok bytes
  else
    match input.data with
    | none => bad .format "null payload"
    | some bytes => .ok bytes

/-- The three kernels, and the model between them: the picture, or a failure. Behind `malloc` the
output holds what it likes. -/
def upscale (s : SrUpscaleNode) (base : List UInt8) (stride vstride : Nat) (out : List UInt8) :
    Option (SrUpscaleNode × Result (List UInt8)) := do
  let geom := s.opened.geom
  let (st, packed) ← phasePackNv12 (some base) stride (some (base.drop (stride * vstride))) stride geom.inW geom.inH
    (some s.packed)
  let s := { s with packed := packed.getD s.packed }
  if st ≠ .ok then return (s, bad st "upscale failed")
  match s.opened.run s.runs s.packed s.residual.length with
  | .error e =>
    return ({ s with runs := s.runs + 1 },
      .error { e with diag := e.diag ++ [⟨"process", "rknn.upscale", "upscale failed"⟩] })
  | .ok residual =>
    let s := { s with residual, runs := s.runs + 1 }
    let (st, out) ← bicubicNv12 (some fun i => base[i]?) geom.inW geom.inH stride vstride (some out) geom.outW geom.outH
    if st ≠ .ok then return (s, bad st "upscale failed")
    let (st, out) ← addPhaseResidual (some s.residual) geom.coreW geom.coreH out geom.outW geom.outH
    if st ≠ .ok then return (s, bad st "upscale failed")
    return (s, .ok (out.getD []))

/-- `process`: the frame that is emitted; `none` when a kernel leaves its arrays. Memory is never short. -/
def process (s : SrUpscaleNode) (input : SrFrame) (malloc : Nat → List UInt8) :
    Option (SrUpscaleNode × Result SrFrame) :=
  let geom := s.opened.geom
  let spec := input.spec
  if spec.fmt ≠ .nv12 then some (s, bad .format "NV12 input only")
  else if spec.width ≠ geom.inW ∨ spec.height ≠ geom.inH then some (s, bad .format "geometry mismatch")
  else
    let stride := input.stride
    let vstride := input.vstride
    if stride < spec.width ∨ vstride < spec.height ∨ input.size < stride * vstride * 3 % 2 ^ 64 / 2 then
      some (s, bad .format "short input")
    else
      match base input with
      | .error e => some (s, .error e)
      | .ok bytes =>
        let outSize := geom.outW * geom.outH * 3 % 2 ^ 64 / 2
        match s.upscale bytes stride vstride (malloc outSize) with
        | none => none
        | some (s, .error e) => some (s, .error e)
        | some (s, .ok out) =>
          let ospec := geom.outSpec
          match borrowHost ospec true outSize with
          | .error e =>
            some (s, .error { e with diag := e.diag ++ [⟨"process", "rknn.upscale", "output frame alloc failed"⟩] })
          | .ok _ =>
            some (s, .ok
              { spec := ospec
                size := outSize
                data := some out
                pts := input.pts
                dts := input.dts
                flags := input.flags })

end SrUpscaleNode

end Rkvc.Sr
