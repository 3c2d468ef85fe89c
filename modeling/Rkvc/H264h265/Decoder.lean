import Mathlib.Algebra.Group.Int.Defs
import Mathlib.Algebra.Group.Nat.Defs
import Rkvc.Core.Request
import Rkvc.Core.Status
import Rkvc.H264h265.Sniff
import Rkvc.Lib.Driver

/-!
# The hardware decoder

`MppDecoderNode` hands packets to the decoder of the chip and passes on the pictures
that come back, each when it is ready. Of the chip nothing is known but that it answers
(`Mpp`).
-/

namespace Rkvc.H264h265
set_option autoImplicit false
open Lib Lib.Driver

inductive MppCodingType where
  | unused | avc | hevc | av1
  deriving DecidableEq, Repr

inductive MppCommand where
  | parserSplitMode | inputTimeout (ms : Int) | outputTimeout (ms : Int) | outputFormat | infoChangeReady
  deriving DecidableEq, Repr

/-- `MPP_TIMEOUT_NON_BLOCK`. -/
def kNonBlock : Int := 0

/-- `MPP_RET` of `decode_put_packet`. -/
inductive MppRet where
  | ok | bufferFull | failed
  deriving DecidableEq, Repr

structure MppPacket where
  data : List UInt8
  pts : Int
  dts : Int
  eos : Bool := false
  deriving DecidableEq, Repr

/-- The layouts behind `MPP_FRAME_FMT_MASK`. -/
inductive MppLayout where
  | yuv420sp | yuv420sp10bit | other
  deriving DecidableEq, Repr

/-- `mpp_frame_get_fmt`: the layout, and whether it is compressed or tiled. -/
structure MppFrameFormat where
  layout : MppLayout
  fbc : Bool
  tile : Bool
  deriving DecidableEq, Repr

structure MppBuffer where
  fd : Int
  size : Nat
  deriving DecidableEq, Repr

structure MppFrame where
  infoChange : Bool
  eos : Bool
  buffer : Option MppBuffer
  format : MppFrameFormat
  width : Nat
  height : Nat
  horStride : Nat
  verStride : Nat
  errinfo : Bool
  discard : Bool
  pts : Int
  dts : Int
  deriving DecidableEq, Repr

structure DmabufFrame where
  spec : Spec
  fd : Int
  size : Nat
  corrupt : Bool
  pts : Int
  dts : Int
  deriving DecidableEq, Repr

structure Timespec where
  sec : Nat
  nsec : Nat
  deriving DecidableEq, Repr

/-- What the decoder calls, and what it is answered. -/
inductive MppCall where
  | create (ok : Bool)
  | init (coding : MppCodingType) (ok : Bool)
  | control (command : MppCommand) (ok : Bool)
  | packetInit (ok : Bool)
  | packetDeinit
  | putPacket (packet : MppPacket) (ret : MppRet)
  | getFrame (frame : Option (Option MppFrame))
  | frameDeinit
  | dup (fd owned : Int)
  | closeFd (fd : Int)
  | emit (frame : DmabufFrame) (st : Status)
  | clock (now : Timespec)
  | nap
  | diag (stage node reason : String)
  deriving DecidableEq, Repr

/-- The library, the kernel and the queue behind the node. -/
structure Mpp (W : Type) where
  create : W → Bool × W
  init : MppCodingType → W → Bool × W
  control : MppCommand → W → Bool × W
  packetInit : W → Bool × W
  putPacket : MppPacket → W → MppRet × W
  /-- An error, no frame yet, or a frame. -/
  getFrame : W → Option (Option MppFrame) × W
  dup : Int → W → Int × W
  emit : DmabufFrame → W → Status × W
  clock : W → Timespec × W
  nap : W → Unit × W

/-- `mpp_to_pixel`. -/
def mppToPixel (f : MppFrameFormat) : PixelFormat :=
  match f.layout with
  | .yuv420sp => .nv12
  | .yuv420sp10bit => .p010
  | .other => .unknown

/-- `to_mpp_coding`. -/
def toMppCoding : Codec → MppCodingType
  | .h264 => .avc
  | .hevc => .hevc
  | .av1 => .av1
  | _ => .unused

def kTsUnknown : Int := -2 ^ 63

/-- `Frame::borrow_dmabuf`; memory for the frame never runs out. -/
def borrowDmabuf (spec : Spec) (fd : Int) (size : Nat) : Result DmabufFrame :=
  let reject status reason := Result.reject status "wrap" "frame" reason
  if spec.domain ≠ .dmabuf then reject .invalid "dmabuf borrow needs dmabuf domain"
  else if fd < 0 then reject .invalid "bad dmabuf fd"
  else if !isLinear spec then reject .format "non-linear modifier rejected"
  else .ok { spec, fd, size, corrupt := false, pts := kTsUnknown, dts := kTsUnknown }

structure MppDecoderNode where
  operation : Operation
  codec : Codec
  coding : MppCodingType := .unused
  initialized : Bool := false
  emitted : Nat := 0
  deriving DecidableEq, Repr

/-- A frame of the stream to decode. -/
structure StreamFrame where
  spec : Spec
  data : Option (List UInt8)
  pts : Int
  dts : Int
  deriving DecidableEq, Repr

variable {W : Type}

/-- `emit_mpp_frame`. A descriptor that has been wrapped is closed with its frame. -/
def emitMppFrame (mpp : Mpp W) (frame : MppFrame) : Driver W MppCall Status :=
  match frame.buffer with
  | none => pure .unsupported
  | some buffer =>
    if frame.format.fbc || frame.format.tile then pure .unsupported
    else
      let spec : Spec :=
        { width := frame.width
          height := frame.height
          fmt := mppToPixel frame.format
          domain := .dmabuf
          stride := frame.horStride
          verStride := frame.verStride }
      if spec.fmt = .unknown then pure .format
      else if buffer.fd < 0 then pure .format
      else do
        let owned ← call (mpp.dup buffer.fd) (.dup buffer.fd)
        if owned < 0 then pure .io
        else
          match borrowDmabuf spec owned buffer.size with
          | .error e => do
            tell (.closeFd owned)
            pure e.status
          | .ok fr => do
            let fr := { fr with corrupt := frame.errinfo || frame.discard, pts := frame.pts, dts := frame.dts }
            let st ← call (mpp.emit fr) (.emit fr)
            pure (if st = .again then .hw else st)

/-- `drain_decoder`, and how many frames have been emitted. -/
def drainDecoder (mpp : Mpp W) (untilEos : Bool) : Nat → Nat → Driver W MppCall (Status × Nat)
  | 0, _ => stay
  | fuel + 1, emitted => do
    match ← call mpp.getFrame .getFrame with
    | none => pure (.hw, emitted)
    | some none => pure (if untilEos then .hw else .ok, emitted)
    | some (some frame) =>
      if frame.infoChange then do
        let ready ← call (mpp.control .infoChangeReady) (.control .infoChangeReady)
        tell .frameDeinit
        if ready then drainDecoder mpp untilEos fuel emitted else pure (.hw, emitted)
      else do
        let st ← (if frame.buffer.isSome then emitMppFrame mpp frame else pure .ok : Driver W MppCall Status)
        let emitted := if frame.buffer.isSome ∧ st = .ok then emitted + 1 else emitted
        tell .frameDeinit
        if st ≠ .ok then pure (st, emitted)
        else if frame.eos then pure (.ok, emitted)
        else drainDecoder mpp untilEos fuel emitted

/-- The deadline, ten seconds on. -/
def Timespec.later (t : Timespec) : Timespec := { t with sec := t.sec + 10 }

def Timespec.expired (now deadline : Timespec) : Bool :=
  now.sec > deadline.sec || (now.sec = deadline.sec && now.nsec ≥ deadline.nsec)

/-- The loop of `process`: its status, how many frames have been emitted, and whether it is left with a packet. -/
def putLoop (mpp : Mpp W) (packet : MppPacket) : Nat → Timespec → Nat → Driver W MppCall (Status × Nat × Bool)
  | 0, _, _ => stay
  | fuel + 1, deadline, emitted => do
    match ← call (mpp.putPacket packet) (.putPacket packet) with
    | .ok => pure (.ok, emitted, true)
    | .failed => pure (.hw, emitted, true)
    | .bufferFull => do
      tell .packetDeinit
      let made ← call mpp.packetInit .packetInit
      if !made then pure (.nomem, emitted, false)
      else do
        let (ds, after) ← drainDecoder mpp false fuel emitted
        if ds ≠ .ok then pure (ds, after, true)
        else do
          let now ← call mpp.clock .clock
          if after ≠ emitted then putLoop mpp packet fuel now.later after
          else if now.expired deadline then do
            tell (.diag "process" "mpp.decode" "decoder input stays full; hw stall?")
            pure (.hw, after, true)
          else do
            let _ ← call mpp.nap fun _ => .nap
            putLoop mpp packet fuel deadline after

namespace MppDecoderNode

/-- `decoder_init_locked`. -/
def initLocked (mpp : Mpp W) (dec : MppDecoderNode) : Driver W MppCall (Status × MppDecoderNode) := do
  if !(← call (mpp.init dec.coding) (.init dec.coding)) then pure (.hw, dec)
  else if !(← call (mpp.control (.inputTimeout kNonBlock)) (.control (.inputTimeout kNonBlock))) then pure (.hw, dec)
  else if !(← call (mpp.control (.outputTimeout kNonBlock)) (.control (.outputTimeout kNonBlock))) then pure (.hw, dec)
  else if !(← call (mpp.control .outputFormat) (.control .outputFormat)) then pure (.hw, dec)
  else pure (.ok, { dec with initialized := true })

/-- `open`. -/
def «open» (mpp : Mpp W) (dec : MppDecoderNode) : Driver W MppCall (Status × MppDecoderNode) := do
  let dec := { dec with coding := if dec.operation = .decode then toMppCoding dec.codec else dec.coding }
  if !(← call mpp.create .create) then pure (.hw, dec)
  else if !(← call (mpp.control .parserSplitMode) (.control .parserSplitMode)) then
    pure (.hw, { dec with initialized := false })
  else if dec.coding ≠ .unused then do
    let (st, dec) ← dec.initLocked mpp
    if st ≠ .ok then pure (st, { dec with initialized := false }) else pure (.ok, dec)
  else pure (.ok, dec)

/-- `process` behind the initialisation. -/
def feed (mpp : Mpp W) (fuel : Nat) (dec : MppDecoderNode) (packet : MppPacket) :
    Driver W MppCall (Status × MppDecoderNode) := do
  if !(← call mpp.packetInit .packetInit) then pure (.nomem, dec)
  else do
    let start ← call mpp.clock .clock
    let (out, emitted, held) ← putLoop mpp packet fuel start.later dec.emitted
    (if held then tell .packetDeinit else pure () : Driver W MppCall Unit)
    if out ≠ .ok then pure (out, { dec with emitted })
    else do
      let (st, emitted) ← drainDecoder mpp false fuel emitted
      pure (st, { dec with emitted })

/-- `process`. -/
def process (mpp : Mpp W) (fuel : Nat) (dec : MppDecoderNode) (input : StreamFrame) :
    Driver W MppCall (Status × MppDecoderNode) :=
  match input.data with
  | none => pure (.format, dec)
  | some data =>
    if input.spec.fmt ≠ .bitstream ∨ data = [] then pure (.format, dec)
    else
      let packet : MppPacket := { data, pts := input.pts, dts := input.dts }
      if dec.initialized then dec.feed mpp fuel packet
      else
        match sniffAnnexb (some data) with
        | .unknown => do
          tell (.diag "process" "mpp.decode" "cannot sniff codec (pass explicit codec for AV1/non-Annex-B streams)")
          pure (.format, dec)
        | sniffed => do
          let coding := if sniffed = .avc then MppCodingType.avc else .hevc
          let (st, dec) ← MppDecoderNode.initLocked mpp { dec with coding }
          if st ≠ .ok then pure (st, dec) else dec.feed mpp fuel packet

/-- The packet that ends the stream. -/
def eosPacket : MppPacket := { data := [], pts := 0, dts := 0, eos := true }

/-- `flush`. -/
def flush (mpp : Mpp W) (fuel : Nat) (dec : MppDecoderNode) : Driver W MppCall (Status × MppDecoderNode) :=
  if !dec.initialized then pure (.ok, dec)
  else do
    if !(← call (mpp.control (.outputTimeout 5000)) (.control (.outputTimeout 5000))) then pure (.hw, dec)
    else if !(← call mpp.packetInit .packetInit) then pure (.hw, dec)
    else do
      let ret ← call (mpp.putPacket eosPacket) (.putPacket eosPacket)
      tell .packetDeinit
      if ret ≠ .ok then pure (.hw, dec)
      else do
        let (st, emitted) ← drainDecoder mpp true fuel dec.emitted
        pure (st, { dec with emitted })

/-- The calls of a session: one for each frame, up to the first that fails, and `flush` behind the last. -/
def decodeAll (mpp : Mpp W) (fuel : Nat) :
    MppDecoderNode → List StreamFrame → Driver W MppCall (Status × MppDecoderNode)
  | dec, [] => dec.flush mpp fuel
  | dec, input :: inputs => do
    let (st, dec) ← dec.process mpp fuel input
    if st ≠ .ok then pure (st, dec) else decodeAll mpp fuel dec inputs

end MppDecoderNode

end Rkvc.H264h265
