import Rkvc.H264h265.Decoder
import Rkvc.H264h265.Roi
import Rkvc.Mlvc.Encoder
import Rkvc.Video.Walk

/-!
# The hardware encoder

`MppEncoderNode` hands one picture after the other to the encoder of the chip and passes on
its packets. The chip writes all of them into one buffer of the node, which the next picture
uses again. Of the chip nothing is known but that it answers (`EncoderApi`).
-/

namespace Rkvc.H264h265
set_option autoImplicit false
open Lib Lib.Driver Video
open Mlvc (EncodeControl)

/-! ## Frames in -/

/-- A raw frame, in host memory or behind a descriptor. -/
structure VideoFrame where
  spec : Spec
  data : Option (List UInt8) := none
  fd : Int := -1
  size : Nat := 0
  pts : Int
  dts : Int
  encode : EncodeControl := {}
  roi : RoiTable := {}

/-! ## The configuration of the chip -/

inductive MppFormat where
  | yuv420sp | yuv420p
  deriving DecidableEq, Repr

/-- `rc:mode`, with the keys that go with it. -/
inductive MppRcMode where
  | fixQp (qpInit qpMin qpMax qpMinI qpMaxI fqpMinI fqpMaxI fqpMinP fqpMaxP : Int)
  | cbr (bpsTarget bpsMax bpsMin : Int)
  deriving DecidableEq, Repr

structure MppEncRc where
  fpsInFlex : Int := 0
  fpsInNum : Int
  fpsInDenom : Int := 1
  fpsOutFlex : Int := 0
  fpsOutNum : Int
  fpsOutDenom : Int := 1
  gop : Int
  mode : MppRcMode
  deriving DecidableEq, Repr

structure MppEncPrep where
  width : Int
  height : Int
  horStride : Int
  verStride : Int
  format : MppFormat
  deriving DecidableEq, Repr

structure MppEncCfg where
  prep : MppEncPrep
  codecType : MppCodingType
  rc : MppEncRc
  deriving DecidableEq, Repr

def kDefaultFps : Int := 30

def kDefaultGop : Nat := 60

/-- The constant bit rate, with a sixteenth to both sides. -/
def MppRcMode.rate (bps : Int) : MppRcMode := .cbr (i32 bps) (i32 ((bps * 17).tdiv 16)) (i32 ((bps * 15).tdiv 16))

/-- One QP for all pictures. -/
def MppRcMode.qp (qp : Int) : MppRcMode := .fixQp qp qp qp qp qp qp qp qp qp

/-! ## Calls -/

inductive EncoderCommand where
  | setCfg (cfg : MppEncCfg) | setHeaderMode | inputTimeout (ms : Int) | outputTimeout (ms : Int) | setIdrFrame
  deriving DecidableEq, Repr

/-- The memory of a picture: the sender's, or a copy. -/
inductive MppInputBuffer where
  | imported (fd : Int) (size : Nat)
  | copied (data : List UInt8)
  deriving DecidableEq, Repr

/-- A picture as the chip gets it, or the end of the stream. -/
structure MppInputFrame where
  width : Nat
  height : Nat
  horStride : Nat
  verStride : Nat
  format : MppFormat
  buffer : Option MppInputBuffer := none
  pts : Int := 0
  eos : Bool := false
  roi : Option (List MppEncRoiRegion) := none
  deriving DecidableEq, Repr

structure MppOutputPacket where
  data : List UInt8
  pts : Int
  dts : Int
  partition : Bool
  eoi : Bool
  eos : Bool
  deriving DecidableEq, Repr

/-- The answer of `encode_get_packet`. -/
inductive GotPacket where
  | packet (packet : MppOutputPacket) | null | nok | failed
  deriving DecidableEq, Repr

/-- A packet of the bit stream, in host memory. -/
structure StreamPacket where
  data : List UInt8
  pts : Int
  dts : Int
  keyframe : Bool := false
  deriving DecidableEq, Repr

/-- What the encoder calls, and what it is answered. -/
inductive EncoderCall where
  | create (ok : Bool)
  | destroy
  | cfgInit (ok : Bool)
  | cfgDeinit
  | init (coding : MppCodingType) (ok : Bool)
  | control (command : EncoderCommand) (ok : Bool)
  | group (dmaHeap ok : Bool)
  | groupPut
  | bufferGet (size : Nat) (memory : Option (List UInt8))
  | bufferImport (fd : Int) (size : Nat) (ok : Bool)
  | bufferPut
  | map (fd : Int) (size : Nat) (memory : Option (List UInt8))
  | unmap
  | frameInit (ok : Bool)
  | frameDeinit
  | packetInit (ok : Bool)
  | metaPacket (ok : Bool)
  | metaRoi (regions : List MppEncRoiRegion) (ok : Bool)
  | packetDeinit
  | putFrame (frame : MppInputFrame) (ok : Bool)
  | getPacket (got : GotPacket)
  | alloc (size : Nat) (ok : Bool)
  | emit (packet : StreamPacket) (st : Status)
  | diag (stage node reason : String)
  deriving DecidableEq, Repr

/-- The library, the kernel and the queue behind the node. -/
structure EncoderApi (W : Type) where
  create : W → Bool × W
  cfgInit : W → Bool × W
  init : MppCodingType → W → Bool × W
  control : EncoderCommand → W → Bool × W
  group : Bool → W → Bool × W
  bufferGet : Nat → W → Option (List UInt8) × W
  bufferImport : Int → Nat → W → Bool × W
  map : Int → Nat → W → Option (List UInt8) × W
  frameInit : W → Bool × W
  packetInit : W → Bool × W
  metaPacket : W → Bool × W
  metaRoi : List MppEncRoiRegion → W → Bool × W
  putFrame : MppInputFrame → W → Bool × W
  getPacket : W → GotPacket × W
  alloc : Nat → W → Bool × W
  emit : StreamPacket → W → Status × W

/-! ## The node -/

/-- `to_mpp_coding` of the encoder. -/
def toMppEncCoding : Codec → MppCodingType
  | .h264 => .avc
  | .hevc => .hevc
  | _ => .unused

/-- What `init_from_spec` leaves in the node. -/
structure MppContext where
  geometry : MppGeometry
  format : MppFormat
  cfg : MppEncCfg
  appliedBps : Int
  appliedGop : Nat
  fixqp : Bool
  deriving DecidableEq, Repr

structure MppEncoderNode where
  request : Request
  inSpec : Spec := {}
  context : Option MppContext := none
  group : Bool := false
  deriving DecidableEq, Repr

/-- The geometry of `init_from_spec`; there is none before both extents are known. -/
def geometryOf (r : Request) (spec : Spec) : Option MppGeometry :=
  let width := if spec.width ≠ 0 then spec.width else r.width
  let height := if spec.height ≠ 0 then spec.height else r.height
  if known : width ≠ 0 ∧ height ≠ 0 then
    some
      { width
        height
        horStride := if spec.stride ≠ 0 then spec.stride else width
        verStride := if spec.verStride ≠ 0 then spec.verStride else height
        wide := known.1
        high := known.2 }
  else none

/-- The configuration that `init_from_spec` fills in. -/
def contextOf (r : Request) (spec : Spec) (geometry : MppGeometry) : MppContext :=
  let format := if spec.fmt = .nv12 then MppFormat.yuv420sp else .yuv420p
  let fps := if r.quality.fps ≠ 0 then i32 r.quality.fps else kDefaultFps
  let gop := if r.quality.gopSize ≠ 0 then r.quality.gopSize else kDefaultGop
  let bps :=
    if 0 < r.quality.bitrateBps then r.quality.bitrateBps else (geometry.width : Int) * geometry.height * 3
  let fixqp := decide (0 ≤ r.quality.qp)
  { geometry
    format
    cfg :=
      { prep :=
          { width := i32 geometry.width
            height := i32 geometry.height
            horStride := i32 geometry.horStride
            verStride := i32 geometry.verStride
            format }
        codecType := toMppEncCoding r.codec
        rc :=
          { fpsInNum := fps
            fpsOutNum := fps
            gop := i32 gop
            mode := if fixqp then .qp r.quality.qp else .rate bps } }
    appliedBps := if fixqp then 0 else i32 bps
    appliedGop := gop
    fixqp }

variable {W : Type}

/-- The end of a failed initialisation. -/
def giveUp (reason : String) : Driver W EncoderCall Unit := do
  tell (.diag "open" "mpp.encode" reason)
  tell .cfgDeinit
  tell .destroy

/-- `mpp_buffer_group_get_internal`, of one heap or of the other. -/
def getGroup (api : EncoderApi W) : Driver W EncoderCall Bool := do
  if ← call (api.group true) (.group true) then pure true
  else call (api.group false) (.group false)

/-- The buffer for all packets, of whole macroblocks. -/
def outSize (geometry : MppGeometry) : Nat :=
  let outW := (geometry.horStride + 63) % 2 ^ 32 / 64 * 64
  let outH := (geometry.verStride + 63) % 2 ^ 32 / 64 * 64
  outW * outH * 3 % 2 ^ 64 / 2

/-- The controls of `init_from_spec`, up to the first that fails. -/
def configure (api : EncoderApi W) : List EncoderCommand → Driver W EncoderCall Bool
  | [] => pure true
  | command :: commands => do
    if ← call (api.control command) (.control command) then configure api commands else pure false

/-- `apply_control`. -/
def applyControl (api : EncoderApi W) (enc : MppContext) (c : EncodeControl) :
    Driver W EncoderCall (Status × MppContext) := do
  let gopSize := c.gopSize.toNat
  let newGop := decide (gopSize ≠ 0 ∧ gopSize ≠ enc.appliedGop)
  let newBps := !enc.fixqp && decide (0 < c.bitrateBps ∧ c.bitrateBps ≠ enc.appliedBps)
  let cfg := if newGop then { enc.cfg with rc := { enc.cfg.rc with gop := i32 gopSize } } else enc.cfg
  let cfg := if newBps then { cfg with rc := { cfg.rc with mode := .rate c.bitrateBps } } else cfg
  let enc := { enc with cfg }
  let set ← (if newGop || newBps then call (api.control (.setCfg cfg)) (.control (.setCfg cfg)) else pure true :
    Driver W EncoderCall Bool)
  if !set then pure (.hw, enc)
  else do
    let idr ← (if c.forceIdr then call (api.control .setIdrFrame) (.control .setIdrFrame) else pure true :
      Driver W EncoderCall Bool)
    if !idr then pure (.hw, enc)
    else
      pure (.ok, { enc with
        appliedGop := if gopSize ≠ 0 then gopSize else enc.appliedGop
        appliedBps := if !enc.fixqp ∧ 0 < c.bitrateBps then c.bitrateBps else enc.appliedBps })

/-- `host_copy`. -/
def hostCopy (api : EncoderApi W) (enc : MppContext) (spec : Spec) (src : List UInt8) :
    Driver W EncoderCall (Option MppInputBuffer) := do
  let need := enc.geometry.horStride * enc.geometry.verStride * 3 % 2 ^ 64 / 2
  match ← call (api.bufferGet need) (.bufferGet need) with
  | none => pure none
  | some memory => pure (some (.copied (copy memory (mppMoves spec enc.geometry) src)))

/-- `dmabuf_wrap`. -/
def dmabufWrap (api : EncoderApi W) (enc : MppContext) (input : VideoFrame) :
    Driver W EncoderCall (Option MppInputBuffer) := do
  if ← call (api.bufferImport input.fd input.size) (.bufferImport input.fd input.size) then
    pure (some (.imported input.fd input.size))
  else do
    match ← call (api.map input.fd input.size) (.map input.fd input.size) with
    | none => pure none
    | some mapped => do
      let buf ← hostCopy api enc input.spec mapped
      tell .unmap
      pure buf

/-- The buffer of a picture, or why there is none. -/
def pictureBuffer (api : EncoderApi W) (enc : MppContext) (input : VideoFrame) :
    Driver W EncoderCall (Except Status MppInputBuffer) := do
  if input.spec.domain = .dmabuf then
    if input.fd < 0 ∨ input.size = 0 then pure (.error .format)
    else do
      let buf ← dmabufWrap api enc input
      pure (buf.elim (.error .nomem) .ok)
  else
    match input.data with
    | none => pure (.error .format)
    | some data => do
      let buf ← hostCopy api enc input.spec data
      pure (buf.elim (.error .nomem) .ok)

/-- `attach_output_packet`. -/
def attachOutputPacket (api : EncoderApi W) : Driver W EncoderCall Status := do
  if !(← call api.packetInit .packetInit) then pure .hw
  else if !(← call api.metaPacket .metaPacket) then do
    tell .packetDeinit
    pure .hw
  else pure .ok

/-- `attach_roi`, with the regions that have been attached. -/
def attachRegions (api : EncoderApi W) (enc : MppContext) (roi : RoiTable) :
    Driver W EncoderCall (Status × Option (List MppEncRoiRegion)) :=
  match attachRoi true enc.geometry.width enc.geometry.height roi with
  | .error st => pure (st, none)
  | .ok none => pure (.ok, none)
  | .ok (some regions) => do
    if ← call (api.metaRoi regions) (.metaRoi regions) then pure (.ok, some regions) else pure (.hw, none)

/-- `emit_packet`. -/
def emitPacket (api : EncoderApi W) (packet : MppOutputPacket) : Driver W EncoderCall Status :=
  if packet.data = [] then pure .ok
  else do
    if !(← call (api.alloc packet.data.length) (.alloc packet.data.length)) then pure .nomem
    else
      let out : StreamPacket := { data := packet.data, pts := packet.pts, dts := packet.dts }
      call (api.emit out) (.emit out)

/-- The last packet of a picture. -/
def MppOutputPacket.last (packet : MppOutputPacket) : Bool := !packet.partition || packet.eoi

/-- `drain_frame_packets`. -/
def drainFramePackets (api : EncoderApi W) : Nat → Driver W EncoderCall Status
  | 0 => stay
  | fuel + 1 => do
    match ← call api.getPacket .getPacket with
    | .packet packet => do
      let st ← emitPacket api packet
      tell .packetDeinit
      if st ≠ .ok ∨ packet.last then pure st else drainFramePackets api fuel
    | _ => pure .hw

/-- `drain_packets`. -/
def drainPackets (api : EncoderApi W) (untilEos : Bool) : Nat → Driver W EncoderCall Status
  | 0 => stay
  | fuel + 1 => do
    match ← call api.getPacket .getPacket with
    | .failed => pure .hw
    | .nok => pure (if untilEos then .hw else .ok)
    | .null => pure (if untilEos then .hw else .ok)
    | .packet packet => do
      let st ← emitPacket api packet
      tell .packetDeinit
      if st ≠ .ok then pure st
      else if packet.eos || !untilEos then pure .ok
      else drainPackets api untilEos fuel

/-- The frame of `process` and `flush`, handed over if all before has succeeded. -/
def handOver (api : EncoderApi W) (frame : MppInputFrame) (rc : Status) : Driver W EncoderCall Status := do
  let rc ← (if rc = .ok then do
      if ← call (api.putFrame frame) (.putFrame frame) then pure .ok else pure .hw
    else pure rc : Driver W EncoderCall Status)
  tell .frameDeinit
  pure rc

namespace MppContext

/-- A frame of the context's geometry. -/
def frame (enc : MppContext) : MppInputFrame where
  width := enc.geometry.width
  height := enc.geometry.height
  horStride := enc.geometry.horStride
  verStride := enc.geometry.verStride
  format := enc.format

/-- `process` from `mpp_frame_init` on. -/
def encode (api : EncoderApi W) (fuel : Nat) (enc : MppContext) (input : VideoFrame) (buf : MppInputBuffer) :
    Driver W EncoderCall Status := do
  if !(← call api.frameInit .frameInit) then do
    tell .bufferPut
    pure .hw
  else do
    let rc ← attachOutputPacket api
    let (rc, roi) ← (if rc = .ok then attachRegions api enc input.roi else pure (rc, none) :
      Driver W EncoderCall (Status × Option (List MppEncRoiRegion)))
    let rc ← handOver api { enc.frame with buffer := some buf, pts := input.pts, roi } rc
    if rc ≠ .ok then do
      tell .bufferPut
      pure rc
    else do
      let rc ← drainFramePackets api fuel
      tell .bufferPut
      pure rc

end MppContext

namespace MppEncoderNode

/-- `init_from_spec`. -/
def initFromSpec (api : EncoderApi W) (enc : MppEncoderNode) (spec : Spec) :
    Driver W EncoderCall (Status × MppEncoderNode) :=
  let coding := toMppEncCoding enc.request.codec
  if coding = .unused then pure (.format, enc)
  else
    match geometryOf enc.request spec with
    | none => pure (.ok, enc)
    | some geometry => do
      let context := contextOf enc.request spec geometry
      if !(← call api.create .create) then pure (.hw, enc)
      else if !(← call api.cfgInit .cfgInit) then do
        tell .destroy
        pure (.hw, enc)
      else if !(← call (api.init coding) (.init coding)) then do
        giveUp "mpp encoder init failed"
        pure (.hw, enc)
      else if !(← configure api [.setCfg context.cfg, .setHeaderMode, .inputTimeout 5000, .outputTimeout 5000]) then do
        giveUp "mpp encoder init failed"
        pure (.hw, enc)
      else if !(← getGroup api) then do
        giveUp "buffer group alloc failed"
        pure (.hw, enc)
      else do
        let enc := { enc with group := true }
        match ← call (api.bufferGet (outSize geometry)) (.bufferGet (outSize geometry)) with
        | none => do
          giveUp "output buffer alloc failed"
          pure (.hw, enc)
        | some _ => pure (.ok, { enc with context := some context })

/-- `open`. -/
def «open» (api : EncoderApi W) (enc : MppEncoderNode) : Driver W EncoderCall (Status × MppEncoderNode) :=
  enc.initFromSpec api enc.inSpec

/-- The context for a frame: it may have waited for one. -/
def ready (api : EncoderApi W) (enc : MppEncoderNode) (spec : Spec) : Driver W EncoderCall (Status × MppEncoderNode) :=
  if enc.context.isSome then pure (.ok, enc)
  else if spec.width = 0 ∨ spec.height = 0 then pure (.format, enc)
  else MppEncoderNode.initFromSpec api { enc with inSpec := spec } spec

/-- `process`. -/
def process (api : EncoderApi W) (fuel : Nat) (enc : MppEncoderNode) (input : VideoFrame) :
    Driver W EncoderCall (Status × MppEncoderNode) :=
  if input.spec.fmt ≠ .nv12 ∧ input.spec.fmt ≠ .yuv420p then pure (.format, enc)
  else do
    let (st, enc) ← enc.ready api input.spec
    if st ≠ .ok then pure (st, enc)
    else
      match enc.context with
      | none => pure (.format, enc)
      | some context =>
        if (input.spec.width ≠ 0 ∧ input.spec.width ≠ context.geometry.width) ∨
            (input.spec.height ≠ 0 ∧ input.spec.height ≠ context.geometry.height) then pure (.format, enc)
        else do
          let (st, context) ← applyControl api context input.encode
          let enc := { enc with context := some context }
          if st ≠ .ok then do
            tell (.diag "process" "mpp.encode" "runtime control failed")
            pure (st, enc)
          else do
            match ← pictureBuffer api context input with
            | .error st => pure (st, enc)
            | .ok buf => do
              let rc ← context.encode api fuel input buf
              pure (rc, enc)

/-- `flush`. -/
def flush (api : EncoderApi W) (fuel : Nat) (enc : MppEncoderNode) : Driver W EncoderCall Status :=
  match enc.context with
  | none => pure .ok
  | some context => do
    if !(← call api.frameInit .frameInit) then pure .hw
    else do
      let rc ← attachOutputPacket api
      let rc ← handOver api { context.frame with eos := true } rc
      if rc ≠ .ok then pure rc else drainPackets api true fuel

/-- `close`. -/
def close (enc : MppEncoderNode) : Driver W EncoderCall Unit := do
  (if enc.context.isSome then do
      tell .bufferPut
      tell .cfgDeinit
      tell .destroy
    else pure () : Driver W EncoderCall Unit)
  if enc.group then tell .groupPut else pure ()

/-- The calls for a stream: one for each frame, up to the first that fails, and `flush` behind the last. -/
def encodeAll (api : EncoderApi W) (fuel : Nat) :
    MppEncoderNode → List VideoFrame → Driver W EncoderCall (Status × MppEncoderNode)
  | enc, [] => do
    let st ← enc.flush api fuel
    pure (st, enc)
  | enc, input :: inputs => do
    let (st, enc) ← enc.process api fuel input
    if st ≠ .ok then pure (st, enc) else encodeAll api fuel enc inputs

/-- The life of a node, from `open` to `close`. -/
def session (api : EncoderApi W) (fuel : Nat) (enc : MppEncoderNode) (inputs : List VideoFrame) :
    Driver W EncoderCall Status := do
  let (st, enc) ← enc.open api
  let (st, enc) ← (if st ≠ .ok then pure (st, enc) else enc.encodeAll api fuel inputs :
    Driver W EncoderCall (Status × MppEncoderNode))
  enc.close
  pure st

end MppEncoderNode

end Rkvc.H264h265
