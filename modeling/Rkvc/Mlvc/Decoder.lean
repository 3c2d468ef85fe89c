import Rkvc.Mlvc.Encoder

/-!
# The decoder node

`MlvcDecoderNode`. `bind_model` takes the coders of a bundle; the rungs are made when the
header has been read, with the QP it names (`lazy_init`). `process` polls the demuxer
until it waits. The state carries what has been emitted and what the NPU was asked for.
-/

namespace Rkvc.Mlvc
set_option autoImplicit false
open Lib Pixel

/-- An NV12 picture. -/
structure Picture where
  width : UInt32
  height : UInt32
  data : List UInt8
  keyframe : Bool := false
  deriving DecidableEq, Repr

/-- What `bind_model` fixes. -/
structure Decoder where
  model : Model
  makeModel : NpuModelFn
  gCoder : RansCoder
  bCoder : RansCoder
  entropy : EntropyConfig

/-- What `lazy_init` fixes. -/
structure DecoderBinding where
  rs : RungSet
  qrows : QRows
  entropy : EntropyConfig
  imgW : UInt32
  imgH : UInt32
  refC : UInt32
  refH : UInt32
  refW : UInt32
  geom : Geometry
  zIn : Nat
  y0In : Nat
  y1In : Nat
  refIn : Nat
  xOut : Nat
  refOut : Nat
  /-- The block size of a picture that is to be shuffled, or 0. -/
  xD2sBs : Nat
  xPreC : UInt32
  xPreH : UInt32
  xPreW : UInt32

def DecoderBinding.refN (b : DecoderBinding) : Nat := u64 (b.refC.toNat * b.refH.toNat * b.refW.toNat)

/-- What decoding a record changes, with what has been emitted and what the NPU was asked for. -/
structure DecoderCore where
  active : Nat := 0
  refPrev : List UInt16 := []
  refLtr : List UInt16 := []
  haveLtr : Bool := false
  zIdx : List Int32 := []
  zIdxQp : Int := -1
  latents : Latents := ⟨[], [], []⟩
  scales : Scales := ⟨[], []⟩
  lastNv12 : List UInt8 := []
  haveLastFrame : Bool := false
  frameCount : UInt32 := 0
  emitted : List Picture := []
  runs : List NpuRun := []

structure DecoderState where
  demux : Demuxer := {}
  qp : Int := kDefaultQp
  modelReady : Bool := false
  /-- None as well where `lazy_init` failed behind `model_ready`; no caller comes back then. -/
  bound : Option DecoderBinding := none
  core : DecoderCore := {}

/-! ## Binding -/

def Decoder.bindModel (makeModel : NpuModelFn) (model : Model) : Result Decoder :=
  if model.role ≠ "decoder" then Result.reject .format "bind" "mlvc.decode" "model role is not decoder"
  else
    match initRansCoders model {} with
    | .error e => also e "bind" "mlvc.decode" "PMF/rANS init failed"
    | .ok (gCoder, bCoder, entropy) => .ok { model, makeModel, gCoder, bCoder, entropy }

/-- The largest `b` of `2 ≤ b`, `b * b ≤ t` with `b * b = t`. -/
def blockSize (t : Nat) : Nat := ((List.range' 2 t).find? fun b => b * b = t).getD 0

/-- The picture's extents: of a full picture, or of one that is to be shuffled. -/
structure Shape where
  bs : Nat
  preC : UInt32
  preH : UInt32
  preW : UInt32
  imgH : UInt32
  imgW : UInt32

def resolveShape (xd : List UInt32) : Result Shape :=
  let c := xd.getD 1 0
  let h := xd.getD 2 0
  let w := xd.getD 3 0
  if c = 3 then .ok { bs := 0, preC := 0, preH := 0, preW := 0, imgH := h, imgW := w }
  else if c.toNat < 3 * 2 * 2 ∨ c.toNat % 3 ≠ 0 ∨ h = 0 ∨ w = 0 then
    Result.reject .format "bind" "mlvc.decode" "bad tail tensor shape"
  else
    let bs := blockSize (c.toNat / 3)
    if bs = 0 then Result.reject .format "bind" "mlvc.decode" "tail channels not 3*bs*bs"
    else .ok { bs, preC := c, preH := h, preW := w, imgH := h * UInt32.ofNat bs, imgW := w * UInt32.ofNat bs }

def resolveDecGeom (npu : NpuModel) (rs : RungSet) (qrows : QRows) (entropy : EntropyConfig) : Result DecoderBinding :=
  let bad (reason : String) : Result DecoderBinding := Result.reject .format "bind" "mlvc.decode" reason
  let ins := npu.inputs
  let outs := npu.outputs
  match findInput ins "z_raw", findInput ins "y_raw_0", findInput ins "y_raw_1", findInput ins "ref_feature",
    findOutput outs "x_hat", findOutput outs "feature" with
  | some zIn, some y0In, some y1In, some refIn, some xOut, some refOut =>
    let dims (ts : List NpuTensorInfo) (i : Nat) := ((ts[i]?).map (·.dims)).getD []
    let zd := dims ins zIn
    let yd := dims ins y0In
    let rd := dims ins refIn
    let xd := dims outs xOut
    let fd := dims outs refOut
    if zd.length ≠ 4 ∨ yd.length ≠ 4 ∨ rd.length ≠ 4 ∨ xd.length ≠ 4 ∨ fd.length ≠ 4 then
      bad "tensor rank mismatch"
    else
      match resolveShape xd with
      | .error e => .error e
      | .ok shape =>
        if shape.imgW = 0 ∨ shape.imgH = 0 ∨ elems fd ≠ elems rd then bad "tensor shape mismatch"
        else
          .ok
            { rs, qrows, entropy, zIn, y0In, y1In, refIn, xOut, refOut
              imgW := shape.imgW
              imgH := shape.imgH
              refH := rd.getD 1 0
              refW := rd.getD 2 0
              refC := rd.getD 3 0
              geom :=
                { ZC := (zd.getD 3 0).toInt32
                  ZH := (zd.getD 1 0).toInt32
                  ZW := (zd.getD 2 0).toInt32
                  YC := (yd.getD 3 0).toInt32
                  YH := (yd.getD 1 0).toInt32
                  YW := (yd.getD 2 0).toInt32 }
              xD2sBs := shape.bs
              xPreC := shape.preC
              xPreH := shape.preH
              xPreW := shape.preW }
  | _, _, _, _, _, _ => bad "tensor contract mismatch"

/-- `lazy_init`, up to `model_ready`: the rungs and the rows. A rung set is not empty. -/
def Decoder.initModels (d : Decoder) (qp : Int) : Result (NpuModel × RungSet × QRows) :=
  match collectRungs d.model qp with
  | .error e => .error e
  | .ok rungs =>
    match initRungs d.model rungs d.makeModel with
    | .error e => .error e
    | .ok rs =>
      match rs.models[0]? with
      | none => .error { status := .internal }
      | some npu =>
        match setupQrows d.model npu with
        | .error e => .error e
        | .ok qrows =>
          if qrows.present ∧ rs.rungQp.length ≠ 1 then
            Result.reject .format "bind" "mlvc.decode" "qp-dynamic forbids rungs"
          else .ok (npu, rs, qrows)

/-- `lazy_init`, behind `model_ready`. -/
def Decoder.initGeom (d : Decoder) (qp : Int) (npu : NpuModel) (rs : RungSet) (qrows : QRows) : Result DecoderBinding :=
  match resolveDecGeom npu rs qrows d.entropy with
  | .error e => .error e
  | .ok b =>
    match resolveEntropyGeometry d.entropy qp b.geom with
    | .error e => .error e
    | .ok entropy => .ok { b with entropy }

/-- The arrays of a bound node. -/
def DecoderCore.sized (s : DecoderCore) (b : DecoderBinding) : DecoderCore :=
  { s with
    refPrev := List.replicate b.refN 0
    refLtr := List.replicate b.refN 0
    zIdx := List.replicate b.geom.zSize 0
    zIdxQp := -1
    latents := ⟨List.replicate b.geom.zSize 0, List.replicate b.geom.ySize 0, List.replicate b.geom.ySize 0⟩
    scales := ⟨List.replicate b.geom.ySize 0, List.replicate b.geom.ySize 0⟩ }

def Decoder.lazyInit (d : Decoder) (s : DecoderState) : DecoderState × Result Unit :=
  match d.initModels s.qp with
  | .error e => (s, .error e)
  | .ok (npu, rs, qrows) =>
    let core := { s.core with active := 0 }
    match d.initGeom s.qp npu rs qrows with
    | .error e => ({ s with core, modelReady := true }, .error e)
    | .ok b => ({ s with core := core.sized b, modelReady := true, bound := some b }, .ok ())

/-! ## One record -/

/-- The loop over the rungs: the last of a QP. -/
def findRungLoop (q : Int) : List Int → Nat → Option Nat → Option Nat
  | [], _, found => found
  | rung :: rungs, i, found => findRungLoop q rungs (i + 1) (if rung = q then some i else found)

def findRung (rungQp : List Int) (q : Int) : Option Nat := findRungLoop q rungQp 0 none

namespace DecoderBinding

variable (b : DecoderBinding)

/-- The tables have a row for the QP. -/
def covers (recQ : Int) : Bool := b.qrows.rows.all fun r => !(recQ < 0 || toU32 recQ ≥ r.2.rows)

/-- The rung of a record. A single rung decodes every record. -/
def selectRung (active : Nat) (recQ : Int) : Result Nat :=
  let bad (reason : String) : Result Nat := Result.reject .format "process" "mlvc.decode" reason
  if b.qrows.present then if b.covers recQ then .ok 0 else bad "record q_index outside the qp table"
  else if recQ = b.rs.rungQp.getD active 0 then .ok active
  else
    match findRung b.rs.rungQp recQ with
    | some found => .ok found
    | none => if b.rs.rungQp.length > 1 then bad "record qp has no rung" else .ok active

/-- The QP whose distributions the hyper-latents have. -/
def zQp (active : Nat) (recQ : Int) : Int := if b.qrows.present then recQ else b.rs.rungQp.getD active 0

/-- A slot as the NPU takes it. -/
def refFeed (ref : List UInt16) : List UInt16 := nchwF16ToNhwc ref b.refC.toNat b.refH.toNat b.refW.toNat

/-- The inputs of one run. -/
def feed (latents : Latents) (ref : List UInt16) (recQ : Int) : Feed :=
  let geom := b.geom
  let y (half : List Int32) := nchwI32ToNhwcF16 half geom.YC.toInt.toNat geom.YH.toInt.toNat geom.YW.toInt.toNat
  (b.zIn, nchwI32ToNhwcF16 latents.z geom.ZC.toInt.toNat geom.ZH.toInt.toNat geom.ZW.toInt.toNat) ::
    (b.y0In, y latents.y0) :: (b.y1In, y latents.y1) :: (b.refIn, b.refFeed ref) :: b.qrows.feed recQ

/-- The elements a picture is read from. -/
def pictureN : Nat :=
  if b.xD2sBs > 0 then b.xPreC.toNat * b.xPreH.toNat * b.xPreW.toNat else 3 * b.imgW.toNat * b.imgH.toNat

/-- A picture, shuffled where it has to be. -/
def nv12 (xh : List UInt16) : List UInt8 :=
  let yuv := if b.xD2sBs > 0 then nchwD2sDcrF16 xh 3 b.xPreH.toNat b.xPreW.toNat b.xD2sBs else xh
  nchwYuvFp16ToNv12 yuv b.imgW.toNat b.imgH.toNat

end DecoderBinding

namespace DecoderCore

variable (s : DecoderCore)

def slot : Slot → List UInt16
  | .prev => s.refPrev
  | .ltr => s.refLtr

/-- The slot that a record's flags name. -/
def slotFor (recFlags : UInt32) : Slot := if recFlags &&& kRecLtrRecovery ≠ 0 ∧ s.haveLtr then .ltr else .prev

/-- The state a record is decoded from. -/
def prepare (b : DecoderBinding) (active : Nat) (recQ : Int) (recFlags : UInt32) : DecoderCore :=
  let s := { s with active }
  let zQp := b.zQp active recQ
  let s := if s.zIdxQp ≠ zQp then { s with zIdx := buildZIdx zQp b.geom, zIdxQp := zQp } else s
  if recFlags &&& kRecKeyframe ≠ 0 then
    { s with
      refPrev := List.replicate s.refPrev.length 0
      refLtr := List.replicate s.refLtr.length 0
      haveLtr := false }
  else s

/-- The feature of a decoded frame in the slots. -/
def keep (feat : List UInt16) (recFlags : UInt32) : DecoderCore :=
  if recFlags &&& kRecLtrMark ≠ 0 then { s with refPrev := feat, refLtr := feat, haveLtr := true }
  else { s with refPrev := feat }

/-- Hand a picture on. -/
def emit (b : DecoderBinding) (data : List UInt8) (keyframe : Bool) : DecoderCore :=
  { s with
    emitted := s.emitted ++ [{ width := b.imgW, height := b.imgH, data, keyframe }]
    frameCount := s.frameCount + 1 }

end DecoderCore

namespace Decoder

variable (sink : Nat → Status) (d : Decoder) (b : DecoderBinding) (s : DecoderCore)

def bad {α : Type} (status : Status) (reason : String) : Result α :=
  Result.reject status "process" "mlvc.decode" reason

/-- `decode_frame`, behind the choice of the rung; `sink` is what the emits return. -/
def runFrame (payload : List UInt8) (recQ : Int) (recFlags : UInt32) : DecoderCore × Result Unit :=
  match decodePayload d.gCoder d.bCoder b.entropy b.geom s.zIdx s.latents s.scales payload with
  | .error e => (s, .error e)
  | .ok (latents, scales) =>
    let s := { s with latents, scales }
    let slot := s.slotFor recFlags
    let feed := b.feed latents (s.slot slot) recQ
    let run : NpuRun := { rung := s.active, slot, qp := b.zQp s.active recQ, feed }
    let s := { s with runs := s.runs ++ [run] }
    match b.rs.models[s.active]? with
    | none => (s, .error { status := .internal })
    | some npu =>
      let st := npu.play feed
      if st ≠ .ok then (s, bad st "NPU run failed")
      else
        let xh := npu.output feed b.xOut
        let fv := npu.output feed b.refOut
        if fv.length ≠ s.refPrev.length ∨ !allFinite xh ∨ !allFinite fv then (s, bad .hw "bad NPU outputs")
        else if xh.length < b.pictureN then
          (s, bad .hw (if b.xD2sBs > 0 then "short tail output" else "short image output"))
        else
          let nv12 := b.nv12 xh
          let st := sink s.emitted.length
          let keyframe := recFlags &&& kRecKeyframe ≠ 0 ∨ s.frameCount = 0
          let s := { s.keep fv recFlags with lastNv12 := nv12, haveLastFrame := true }
          (s.emit b nv12 keyframe, if st = .ok then .ok () else .error { status := st })

def decodeFrame (payload : List UInt8) (recQ : Int) (recFlags : UInt32) : DecoderCore × Result Unit :=
  match b.selectRung s.active recQ with
  | .error e => (s, .error e)
  | .ok active => d.runFrame sink b (s.prepare b active recQ recFlags) payload recQ recFlags

/-- A record that says that a frame was dropped: the last picture again. -/
def repeatFrame : DecoderCore × Result Unit :=
  if s.haveLastFrame ∧ s.lastNv12 ≠ [] then
    let st := sink s.emitted.length
    (s.emit b s.lastNv12 false, if st = .ok then .ok () else .error { status := st })
  else (s, .ok ())

/-- One record. -/
def decodeRecord (v : View) : DecoderCore × Result Unit :=
  if v.qIndex = kQindexDropped then repeatFrame sink b s
  else d.decodeFrame sink b s v.data v.qIndex.toInt v.flags

/-! ## Polling -/

variable (s : DecoderState)

def processLoop : Nat → DecoderState → Option (DecoderState × Result Unit)
  | 0, _ => none
  | fuel + 1, s =>
    let (r, demux) := s.demux.next
    let s := { s with demux }
    let init :=
      match d.lazyInit { s with qp := demux.header.qp.toInt32.toInt } with
      | (s, .error e) => some (s, also e "process" "mlvc.decode" "lazy init failed")
      | (s, .ok ()) => processLoop fuel s
    match r with
    | .error e =>
      if e.status = .again ∧ !s.modelReady ∧ demux.haveHeader then init
      else if e.status = .again then some (s, .ok ())
      else some (s, bad .format "malformed .mlvc stream")
    | .ok v =>
      if !s.modelReady then init
      else
        match s.bound with
        | none => some (s, .error { status := .internal })
        | some b =>
          match d.decodeRecord sink b s.core v with
          | (core, .error e) => some ({ s with core }, .error e)
          | (core, .ok ()) => processLoop fuel { s with core, demux := demux.consumeRecord }

/-- `process`. -/
def process (input : HostFrame) : Option (DecoderState × Result Unit) :=
  if input.spec.fmt ≠ .bitstream ∨ input.data = [] then some (s, bad .format "bitstream host input only")
  else
    let (st, demux) := s.demux.append input.data
    let s := { s with demux }
    if st ≠ .ok then some (s, bad .format "demux append failed")
    else d.processLoop sink (s.demux.buf.length + 3) s

end Decoder

end Rkvc.Mlvc
