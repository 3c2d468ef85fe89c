import Rkvc.Core.Frame
import Rkvc.Lib.Copy
import Rkvc.Lib.Word

/-!
# How the encoders walk a host frame

Three encoders read a picture out of a host frame: the learned codec's
(`yuv_to_nhwc_fp16`), SVT's (the copy into `i420`) and MPP's (`host_copy`). Each
takes its extents from its own state and the strides from the frame. A product of
two 32-bit values fits `size_t`, so offsets are exact; the learned codec takes its
extents and its stride as `int`s, and its row counter is exact.
-/

namespace Rkvc.Video
set_option autoImplicit false
open Lib

/-- The stride a consumer walks with: the frame's, or its width. -/
def rowStride (s : Spec) : Nat := if s.stride ≠ 0 then s.stride else s.width

/-- A picture's extents. -/
structure Extent where
  width : Nat
  height : Nat
  deriving DecidableEq, Repr

/-- The extents SVT is initialised with. -/
structure EvenExtent extends Extent where
  wide : width ≠ 0
  high : height ≠ 0
  evenWidth : width % 2 = 0
  evenHeight : height % 2 = 0
  deriving DecidableEq, Repr

/-- The geometry of an MPP context; there is none before both extents are known. -/
structure MppGeometry extends Extent where
  horStride : Nat
  verStride : Nat
  wide : width ≠ 0
  high : height ≠ 0
  deriving DecidableEq, Repr

/-! ## The walks -/

/-- `(size_t)y * stride` for an `int` stride. -/
def rowOffset (y : Nat) (stride : Int) : Int := (y * stride) % 2 ^ 64

/-- The offsets `yuv_to_nhwc_fp16` reads: rows in pairs, and a last one where the height is odd. -/
def mlvcReads (spec : Spec) (img : Extent) : List Int :=
  let W := (i32 img.width).toNat
  let H := (i32 img.height).toNat
  let stride := i32 (rowStride spec)
  let up : Int := (rowStride spec * effVerStride spec : Nat)
  let chroma (y x : Nat) : Int := up + rowOffset (y / 2) stride + (x / 2 * 2 : Nat)
  let pairs := (List.range (H / 2)).flatMap fun k =>
    (List.range W).flatMap fun (x : Nat) =>
      [chroma (2 * k) x, chroma (2 * k) x + 1, rowOffset (2 * k) stride + x,
        rowOffset (2 * k) stride + stride + x]
  let last := if H % 2 = 0 then [] else
    (List.range W).flatMap fun (x : Nat) =>
      [rowOffset (H - 1) stride + x, chroma (H - 1) x, chroma (H - 1) x + 1]
  pairs ++ last

/-- SVT's copy of an NV12 frame: rows of luma, and chroma sample by sample. -/
def svtNv12 (stride vstride w h : Nat) : List (Nat × Nat) :=
  let cw := w / 2
  let ch := h / 2
  moveRows h 0 w 0 stride w ++
    (List.range ch).flatMap fun row => (List.range cw).flatMap fun x =>
      let s := stride * vstride + row * stride
      let u := w * h + row * cw
      [(u + x, s + 2 * x), (u + cw * ch + x, s + 2 * x + 1)]

/-- SVT's copy of a planar frame. -/
def svtPlanar (stride vstride w h : Nat) : List (Nat × Nat) :=
  let cw := w / 2
  let ch := h / 2
  let u := stride * vstride
  let v := u + stride * vstride / 4
  let us := stride / 2
  let du := w * h
  let dv := du + cw * ch
  moveRows h 0 w 0 stride w ++
    (List.range ch).flatMap fun row =>
      moveRow (du + row * cw) (u + row * us) cw ++ moveRow (dv + row * cw) (v + row * us) cw

def svtMoves (spec : Spec) (enc : Extent) : List (Nat × Nat) :=
  if spec.fmt = .nv12 then svtNv12 (rowStride spec) (effVerStride spec) enc.width enc.height
  else svtPlanar (rowStride spec) (effVerStride spec) enc.width enc.height

/-- `host_copy`: chroma in rows of the luma's width, for either format. -/
def mppMoves (spec : Spec) (enc : MppGeometry) : List (Nat × Nat) :=
  let srcRow := rowStride spec
  let srcVer := effVerStride spec
  moveRows enc.height 0 enc.horStride 0 srcRow enc.width ++
    moveRows (enc.height / 2) (enc.horStride * enc.verStride) enc.horStride (srcRow * srcVer) srcRow enc.width

/-! ## What each takes -/

/-- `init_from_spec` of the first frame; its extents are not zero. -/
def initFromSpec (spec : Spec) : Option MppGeometry :=
  if h : spec.width ≠ 0 ∧ spec.height ≠ 0 then
    some ⟨⟨spec.width, spec.height⟩, rowStride spec, effVerStride spec, h.1, h.2⟩
  else none

/-- An encoder, with what it is set to. SVT and MPP may wait for the first frame. -/
inductive Consumer where
  | mlvc (img : Extent)
  | svt (enc : Option EvenExtent)
  | mpp (enc : Option MppGeometry)
  deriving DecidableEq, Repr

/-- The size check of SVT's `process`, which is its initialisation on the first frame. -/
def svtSized (enc : Option EvenExtent) (spec : Spec) : Option Extent :=
  match enc with
  | some enc => if spec.width ≠ enc.width ∨ spec.height ≠ enc.height then none else some enc.toExtent
  | none =>
    if spec.width = 0 ∨ spec.height = 0 ∨ spec.width % 2 = 1 ∨ spec.height % 2 = 1 then none
    else some ⟨spec.width, spec.height⟩

/-- `process` of SVT's node up to the copy. -/
def svtTakes (enc : Option EvenExtent) (spec : Spec) : Option Extent :=
  if spec.fmt = .nv12 ∨ spec.fmt = .yuv420p then svtSized enc spec else none

/-- The context of MPP's node when it looks at a frame. -/
def mppContext (enc : Option MppGeometry) (spec : Spec) : Option MppGeometry :=
  match enc with
  | some enc => some enc
  | none => initFromSpec spec

/-- `process` of MPP's node up to `host_copy`. -/
def mppTakes (enc : Option MppGeometry) (spec : Spec) : Option MppGeometry :=
  if spec.fmt ≠ .nv12 ∧ spec.fmt ≠ .yuv420p then none
  else do
    let enc ← mppContext enc spec
    if (spec.width ≠ 0 ∧ spec.width ≠ enc.width) ∨ (spec.height ≠ 0 ∧ spec.height ≠ enc.height) then none
    else some enc

/-- The geometry check of an encoder, and the offsets it reads of a frame it takes. -/
def Consumer.walk (c : Consumer) (spec : Spec) : Option (List Int) :=
  match c with
  | .mlvc img =>
    if spec.fmt ≠ .nv12 ∨ spec.width ≠ img.width ∨ spec.height ≠ img.height then none
    else some (mlvcReads spec img)
  | .svt enc => (svtTakes enc spec).map fun enc => (svtMoves spec enc).map fun m => (m.2 : Int)
  | .mpp enc => (mppTakes enc spec).map fun enc => (mppMoves spec enc).map fun m => (m.2 : Int)

/-- The offsets an encoder reads of a host frame. -/
def Consumer.reads (c : Consumer) (frame : BorrowedFrame) : Option (List Int) :=
  if frame.spec.domain ≠ .host ∨ frame.data = false then none else c.walk frame.spec

end Rkvc.Video
