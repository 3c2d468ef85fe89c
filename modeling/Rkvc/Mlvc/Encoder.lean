import Rkvc.Core.Request
import Rkvc.Mlvc.Container
import Rkvc.Mlvc.Npu
import Rkvc.Mlvc.Payload
import Rkvc.Mlvc.RateCtl
import Rkvc.Mlvc.Sample

/-!
# The encoder node

`MlvcEncoderNode`. What `bind_model` and `open` fix is apart from the state that
`process` changes. A call returns its state also where it fails; `run` is what the NPU was
asked for, and is not part of the node.
-/

namespace Rkvc.Mlvc
set_option autoImplicit false
open Lib Pixel

/-! ## Frames in, packets out -/

structure EncodeControl where
  bitrateBps : Int := 0
  gopSize : UInt32 := 0
  forceIdr : Bool := false
  deriving DecidableEq, Repr

/-- A host frame; one without a payload has no data. -/
structure HostFrame where
  spec : Spec := {}
  data : List UInt8 := []
  encode : EncodeControl := {}
  pts : Int := 0
  deriving DecidableEq, Repr

structure Packet where
  data : List UInt8
  keyframe : Bool := false
  pts : Int := 0
  deriving DecidableEq, Repr

/-- The reference slots. -/
inductive Slot where
  | prev | ltr
  deriving DecidableEq, Repr

/-- What the NPU is asked for: the rung, the slot its reference comes from, the QP, and the
inputs. -/
structure NpuRun where
  rung : Nat
  slot : Slot
  qp : Int
  feed : Feed
  deriving DecidableEq

/-! ## Binding -/

structure EncoderBinding where
  qp : Int
  rs : RungSet
  qrows : QRows
  gCoder : RansCoder
  bCoder : RansCoder
  entropy : EntropyConfig
  imgW : UInt32
  imgH : UInt32
  refC : UInt32
  refH : UInt32
  refW : UInt32
  geom : Geometry
  xIn : Nat
  refIn : Nat
  featOut : Nat
  zOut : Nat
  y0Out : Nat
  y1Out : Nat

/-- Elements of a reference slot. -/
def EncoderBinding.refN (b : EncoderBinding) : Nat := u64 (b.refC.toNat * b.refH.toNat * b.refW.toNat)

/-- A failure, reported once more by the node. -/
def also {α : Type} (e : Failure) (stage subject reason : String) : Result α :=
  .error ⟨e.status, e.diag ++ [⟨stage, subject, reason⟩]⟩

/-- The indices of the tensors, and the shapes they must have. -/
def resolveEncGeom (npu : NpuModel) (b : EncoderBinding) : Result EncoderBinding :=
  let bad (reason : String) : Result EncoderBinding := Result.reject .format "bind" "mlvc.encode" reason
  let ins := npu.inputs
  let outs := npu.outputs
  let x := (findInput ins "x").or (findInput ins "New_input_x")
  match x, findInput ins "ref_feature", findOutput outs "feature", findOutput outs "z_raw", findOutput outs "y_raw_0",
    findOutput outs "y_raw_1" with
  | some xIn, some refIn, some featOut, some zOut, some y0Out, some y1Out =>
    let dims (ts : List NpuTensorInfo) (i : Nat) := ((ts[i]?).map (·.dims)).getD []
    let xd := dims ins xIn
    let rd := dims ins refIn
    let zd := dims outs zOut
    let yd := dims outs y0Out
    let fd := dims outs featOut
    if xd.length ≠ 4 ∨ rd.length ≠ 4 ∨ zd.length ≠ 4 ∨ yd.length ≠ 4 ∨ fd.length ≠ 4 then
      bad "tensor rank mismatch"
    else
      let imgH := xd.getD 1 0
      let imgW := xd.getD 2 0
      if imgW = 0 ∨ imgH = 0 ∨ elems fd ≠ elems rd then bad "tensor shape mismatch"
      else
        let geom : Geometry :=
          { ZC := (zd.getD 1 0).toInt32
            ZH := (zd.getD 2 0).toInt32
            ZW := (zd.getD 3 0).toInt32
            YC := (yd.getD 1 0).toInt32
            YH := (yd.getD 2 0).toInt32
            YW := (yd.getD 3 0).toInt32 }
        match resolveEntropyGeometry b.entropy b.qp geom with
        | .error e => also e "bind" "mlvc.encode" "entropy geometry mismatch"
        | .ok entropy =>
          .ok
            { b with
              entropy, imgW, imgH, geom, xIn, refIn, featOut, zOut, y0Out, y1Out
              refH := rd.getD 1 0
              refW := rd.getD 2 0
              refC := rd.getD 3 0 }
  | _, _, _, _, _, _ => bad "tensor contract mismatch"

/-- `bind_model`. A rung set is not empty, so there is an active model. -/
def EncoderBinding.bindModel (quality : Quality) (makeModel : NpuModelFn) (model : Model) : Result EncoderBinding :=
  let subject := "mlvc.encode"
  let qp := if quality.qp ≥ 0 then quality.qp else kDefaultQp
  if model.role ≠ "encoder" then Result.reject .format "bind" subject "model role is not encoder"
  else if qp > 63 then Result.reject .invalid "bind" subject "mlvc qp out of range"
  else
    match initRansCoders model {} with
    | .error e => also e "bind" subject "PMF/rANS init failed"
    | .ok (gCoder, bCoder, entropy) =>
      match collectRungs model qp with
      | .error e => also e "bind" subject "session qp missing from rung set"
      | .ok rungs =>
        match initRungs model rungs makeModel with
        | .error e => also e "bind" subject "NPU init failed"
        | .ok rs =>
          match rs.models[0]? with
          | none => .error { status := .internal }
          | some npu =>
            match setupQrows model npu with
            | .error e => also e "bind" subject "qptab setup failed"
            | .ok qrows =>
              if qrows.present ∧ rs.rungQp.length ≠ 1 then
                Result.reject .format "bind" subject "qp-dynamic forbids qppatch rungs"
              else
                resolveEncGeom npu
                  { qp, rs, qrows, gCoder, bCoder, entropy
                    imgW := 0, imgH := 0, refC := 0, refH := 0, refW := 0, geom := ⟨0, 0, 0, 0, 0, 0⟩
                    xIn := 0, refIn := 0, featOut := 0, zOut := 0, y0Out := 0, y1Out := 0 }

/-- A bound node that has been opened. -/
structure Encoder where
  bound : EncoderBinding
  fps : UInt32
  ltrStartIdx : UInt32
  ltrPeriod : UInt32
  proactiveLtr : Bool

structure EncoderState (K : Type) where
  refPrev : List UInt16
  refLtr : List UInt16
  haveLtr : Bool := false
  zIdx : List Int32
  zIdxQp : Int := -1
  active : Nat := 0
  scales : Scales
  iframePeriod : UInt32
  curFrameIdx : UInt32 := 0
  frameCount : UInt32 := 0
  rc : Option (RateController K) := none
  rcBitrate : Int := 0

/-- `open`. -/
def Encoder.openWith (quality : Quality) (bound : EncoderBinding) : Encoder where
  bound := bound
  fps := if quality.fps ≠ 0 then UInt32.ofNat quality.fps else UInt32.ofNat kMlvcFps
  ltrStartIdx := UInt32.ofNat quality.ltrStartIdx
  ltrPeriod := UInt32.ofNat quality.ltrPeriod
  proactiveLtr := UInt32.ofNat quality.ltrPeriod ≠ 0

/-- What `bind_model` and `open` leave in the state. -/
def EncoderState.fresh (K : Type) (quality : Quality) (bound : EncoderBinding) : EncoderState K where
  refPrev := List.replicate bound.refN 0
  refLtr := List.replicate bound.refN 0
  zIdx := List.replicate bound.geom.zSize 0
  scales := ⟨List.replicate bound.geom.ySize 0, List.replicate bound.geom.ySize 0⟩
  iframePeriod := UInt32.ofNat quality.gopSize

/-! ## What a frame becomes -/

structure FrameKind where
  isIdr : Bool
  markLtr : Bool
  isRecovery : Bool
  deriving DecidableEq, Repr

def FrameKind.recFlags (kind : FrameKind) : UInt32 :=
  (if kind.isIdr then kRecKeyframe else 0) ||| (if kind.markLtr then kRecLtrMark else 0) |||
    (if kind.isRecovery then kRecLtrRecovery else 0)

def FrameKind.rcType (kind : FrameKind) : RcFrameType :=
  if kind.isIdr then .I else if kind.isRecovery then .ltrRecovery else .P

/-- What rate control decides on. -/
inductive Decision where
  | drop
  | code (qIndex : Int)
  deriving DecidableEq, Repr

/-- The outcome of one `process`. -/
structure EncodeStep (K : Type) where
  state : EncoderState K
  result : Result Unit
  packet : Option Packet := none
  run : Option NpuRun := none

section Process

variable {K : Type} [Field K] [LinearOrder K] [FloorRing K]

namespace Encoder

variable (fns : LogExp K) (e : Encoder) (s : EncoderState K)

def bad {α : Type} (status : Status) (reason : String) : Result α :=
  Result.reject status "process" "mlvc.encode" reason

/-- The rate controller and the GOP size a frame asks for. -/
def retarget (control : EncodeControl) : Result (EncoderState K) :=
  let targeted : Result (EncoderState K) :=
    if control.bitrateBps > 0 ∧ control.bitrateBps ≠ s.rcBitrate then
      match s.rc with
      | none =>
        match RateController.create e.bound.imgW.toNat e.bound.imgH.toNat (control.bitrateBps : K) (e.fps.toNat : K) with
        | .error err => also err "process" "mlvc.encode" "rate controller init failed"
        | .ok rc => .ok { s with rc := some rc, rcBitrate := control.bitrateBps }
      | some rc => .ok { s with rc := some (rc.configure (control.bitrateBps : K)), rcBitrate := control.bitrateBps }
    else .ok s
  match targeted with
  | .error err => .error err
  | .ok s => .ok (if control.gopSize > 0 then { s with iframePeriod := control.gopSize } else s)

def frameKind (forceIdr : Bool) : FrameKind :=
  let cur := s.curFrameIdx
  let isIdr : Bool := s.frameCount = 0 ∨ forceIdr ∨ s.iframePeriod ≠ 0 ∧ cur > 0 ∧ cur % s.iframePeriod = 0
  let markLtr : Bool :=
    !isIdr ∧ e.ltrPeriod ≠ 0 ∧ (cur = e.ltrStartIdx ∨ cur > e.ltrStartIdx ∧ cur % e.ltrPeriod = 0)
  { isIdr, markLtr, isRecovery := e.proactiveLtr && markLtr && s.haveLtr }

/-- The QP of a frame, or its drop: a frame that must not be dropped gets 0. -/
def chooseQ (kind : FrameKind) : Option (RateController K) × Decision :=
  match s.rc with
  | none => (none, .code e.bound.qp)
  | some rc =>
    let pt : K := (s.frameCount.toNat : K) / (e.fps.toNat : K)
    let (solved, rc) := rc.solve fns pt kind.rcType (kRecSize * 8)
    if solved = kQDrop then
      if kind.rcType = .P ∧ !kind.markLtr then (some rc, .drop) else (some rc, .code 0)
    else (some rc, .code solved)

/-- The rung of a QP, and the QP that is coded with. -/
def selectRung (qIndex : Int) : Nat × Int :=
  if e.bound.qrows.present then (s.active, qIndex)
  else
    let active := nearestRung e.bound.rs.rungQp qIndex
    (active, e.bound.rs.rungQp.getD active 0)

/-- The state a frame is coded from. -/
def prepare (kind : FrameKind) (qIndex : Int) : EncoderState K :=
  let (active, usedQp) := selectRung e s qIndex
  let s := { s with active }
  let s := if s.zIdxQp ≠ usedQp then { s with zIdx := buildZIdx usedQp e.bound.geom, zIdxQp := usedQp } else s
  if kind.isIdr then
    { s with
      refPrev := List.replicate s.refPrev.length 0
      refLtr := List.replicate s.refLtr.length 0
      haveLtr := false }
  else s

/-- The picture as the NPU takes it. -/
def xNhwc (input : HostFrame) : List UInt16 :=
  let stride := if input.spec.stride ≠ 0 then input.spec.stride else input.spec.width
  let vstride := if input.spec.verStride ≠ 0 then input.spec.verStride else input.spec.height
  yuvToNhwcFp16 input.data stride (stride * vstride) e.bound.imgW.toNat e.bound.imgH.toNat

def slotFor (kind : FrameKind) : Slot := if kind.isRecovery && s.haveLtr then .ltr else .prev

end Encoder

namespace EncoderState

variable (s : EncoderState K)

/-- What a slot holds. -/
def slot : Slot → List UInt16
  | .prev => s.refPrev
  | .ltr => s.refLtr

/-- The feature of a coded frame in the slots. -/
def keep (feat : List UInt16) (mark : Bool) : EncoderState K :=
  if mark then { s with refPrev := feat, refLtr := feat, haveLtr := true } else { s with refPrev := feat }

end EncoderState

/-- A slot as the NPU takes it. -/
def EncoderBinding.refFeed (b : EncoderBinding) (ref : List UInt16) : List UInt16 :=
  nchwF16ToNhwc ref b.refC.toNat b.refH.toNat b.refW.toNat

/-- The inputs of one run. -/
def EncoderBinding.feed (b : EncoderBinding) (x ref : List UInt16) (usedQp : Int) : Feed :=
  (b.xIn, x) :: (b.refIn, b.refFeed ref) :: b.qrows.feed usedQp

/-- Outputs that can be coded. -/
def EncoderBinding.codable (b : EncoderBinding) (output : Nat → List UInt16) (refN : Nat) : Bool :=
  !((output b.zOut).length < b.geom.zSize || (output b.y0Out).length < b.geom.ySize ||
    (output b.y1Out).length < b.geom.ySize || (output b.featOut).length ≠ refN || !allFinite (output b.zOut) ||
    !allFinite (output b.y0Out) || !allFinite (output b.y1Out) || !allFinite (output b.featOut))

/-- `lrintf` of the first `n` halves. -/
def rounded (n : Nat) (t : List UInt16) : List Int32 := (t.take n).map fun h => Int32.ofInt (lrintHalf h 1)

def EncoderBinding.latents (b : EncoderBinding) (output : Nat → List UInt16) : Latents where
  z := rounded b.geom.zSize (output b.zOut)
  y0 := rounded b.geom.ySize (output b.y0Out)
  y1 := rounded b.geom.ySize (output b.y1Out)

namespace Encoder

variable (fns : LogExp K) (e : Encoder) (s : EncoderState K)

/-- The header in front of the first record. -/
def header : Header where
  width := e.bound.imgW
  height := e.bound.imgH
  fpsNum := e.fps
  fpsDen := 1
  qp := UInt32.ofNat (toU32 e.bound.qp)
  iframePeriod := s.iframePeriod
  ltrStartIdx := e.ltrStartIdx
  ltrPeriod := e.ltrPeriod
  flags := (if e.proactiveLtr ∧ e.ltrPeriod ≠ 0 then kHdrProactiveLtr else 0) ||| (if s.rc.isSome then kHdrCbr else 0)
  targetBitrateBps := UInt32.ofNat (toU32 (if s.rcBitrate > 0 then s.rcBitrate else 0))

def leading : List UInt8 := if s.frameCount = 0 then writeHeader (e.header s) else []

/-- A result of `emit`. -/
def emitted (status : Status) : Result Unit := if status = .ok then .ok () else .error { status }

/-- A frame that is dropped. -/
def dropFrame (input : HostFrame) (sink : Status) : EncodeStep K where
  state := { s with frameCount := s.frameCount + 1, curFrameIdx := s.curFrameIdx + 1 }
  result := emitted sink
  packet := some { data := writeRecord 0 kQindexDropped 0, pts := input.pts }

/-- Record a coded frame. -/
def emitFrame (input : HostFrame) (kind : FrameKind) (usedQp : Int) (bits : List UInt8) (sink : Status) :
    EncodeStep K :=
  let head := e.leading s
  let record := head ++ writeRecord (UInt32.ofNat bits.length) (Int32.ofInt usedQp) kind.recFlags ++ bits
  let rc := s.rc.map fun rc => rc.update fns ((record.length - bits.length : Nat) * 8) (bits.length * 8)
  { state :=
      { s with
        rc
        frameCount := s.frameCount + 1
        curFrameIdx := if kind.isIdr then 1 else s.curFrameIdx + 1 }
    result := emitted sink
    packet := some { data := record, keyframe := kind.isIdr, pts := input.pts } }

/-- A frame that is coded, from the prepared state. A rung set holds a model for each rung. -/
def codeFrame (input : HostFrame) (kind : FrameKind) (usedQp : Int) (sink : Status) : EncodeStep K :=
  let slot := slotFor s kind
  let feed := e.bound.feed (e.xNhwc input) (s.slot slot) usedQp
  let run : NpuRun := { rung := s.active, slot, qp := usedQp, feed }
  match e.bound.rs.models[s.active]? with
  | none => { state := s, result := .error { status := .internal } }
  | some npu =>
    let st := npu.play feed
    if st ≠ .ok then { state := s, result := bad st "NPU run failed", run }
    else if !e.bound.codable (npu.output feed) s.refPrev.length then
      { state := s, result := bad .hw "bad NPU outputs", run }
    else
      let latents := e.bound.latents (npu.output feed)
      let s := s.keep (npu.output feed e.bound.featOut) kind.markLtr
      match encodePayload e.bound.gCoder e.bound.bCoder e.bound.entropy e.bound.geom s.zIdx latents s.scales with
      | .error err => { state := s, result := .error err, run }
      | .ok (bits, scales) => { emitFrame fns e { s with scales } input kind usedQp bits sink with run }

/-- `process`; `sink` is what `emit` returns. -/
def process (input : HostFrame) (sink : Status) : EncodeStep K :=
  if input.spec.fmt ≠ .nv12 ∨ input.spec.domain ≠ .host ∨ input.data = [] then
    { state := s, result := bad .format "NV12 host input only" }
  else if input.spec.width ≠ e.bound.imgW.toNat ∨ input.spec.height ≠ e.bound.imgH.toNat then
    { state := s, result := bad .format "geometry mismatch" }
  else
    match e.retarget s input.encode with
    | .error err => { state := s, result := .error err }
    | .ok s =>
      let kind := e.frameKind s input.encode.forceIdr
      let (rc, decision) := e.chooseQ fns s kind
      let s := { s with rc }
      match decision with
      | .drop => dropFrame s input sink
      | .code qIndex => e.codeFrame fns (e.prepare s kind qIndex) input kind (e.selectRung s qIndex).2 sink

end Encoder

end Process

end Rkvc.Mlvc
