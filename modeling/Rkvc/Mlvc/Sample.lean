import Mathlib.Algebra.Group.Nat.Defs
import Rkvc.Core.Status

/-!
# Samples of tensors

The conversions of `pixel.cpp` between the samples of a picture, integers and half
floats, and its reorderings. A finite half is a multiple of `2 ^ -24`. A `float` is met
only as an integer of at most 24 bits, scaled.
-/

namespace Rkvc.Mlvc.Pixel
set_option autoImplicit false

/-! ## Rounding -/

/-- `n / 2 ^ k`, half to even. -/
def shiftRne (n k : Nat) : Nat :=
  let q := n >>> k
  let r := 2 * (n % 2 ^ k)
  if r > 2 ^ k ∨ r = 2 ^ k ∧ q % 2 = 1 then q + 1 else q

/-- `n` rounded to `p` significant bits. -/
def significant (p n : Nat) : Nat :=
  let k := n.log2 + 1 - p
  shiftRne n k <<< k

/-- `f32_to_f16` of `n / 2 ^ s`, in the range of the normal halves. -/
def halfOf (n s : Nat) : UInt16 :=
  let m := significant 11 n
  if m = 0 then 0
  else
    let exp := m.log2 + 15 - s
    if exp ≥ 31 then 0x7c00 else UInt16.ofNat (exp <<< 10 + ((m <<< 10) >>> m.log2 - 1024))

/-- `f32_to_f16((float)v)`. -/
def halfOfInt (v : Int32) : UInt16 :=
  let h := halfOf (significant 24 v.toInt.natAbs) 0
  if v.toInt < 0 then h ||| 0x8000 else h

/-- `fp16_finite`. -/
def fp16Finite (h : UInt16) : Bool := h &&& 0x7c00 ≠ 0x7c00

def allFinite (t : List UInt16) : Bool := t.all fp16Finite

/-- The magnitude of a half, in multiples of `2 ^ -24`. -/
def halfMagnitude (h : UInt16) : Nat :=
  let exp := (h.toNat >>> 10) &&& 0x1f
  let mant := h.toNat &&& 0x3ff
  if exp = 0 then mant else (1024 + mant) <<< (exp - 1)

/-- `lrintf(f16_to_f32(h) * by)`. -/
def lrintHalf (h : UInt16) (scale : Nat) : Int :=
  let mag : Int := shiftRne (halfMagnitude h * scale) 24
  if h &&& 0x8000 ≠ 0 then -mag else mag

/-! ## Reordering -/

/-- From planes to interleaved channels. -/
def nchwToNhwc {α : Type} (sample : α → UInt16) (zero : α) (src : List α) (C H W : Nat) : List UInt16 :=
  (List.range H).flatMap fun y => (List.range W).flatMap fun x => (List.range C).map fun c =>
    sample (src.getD ((c * H + y) * W + x) zero)

def nchwI32ToNhwcF16 (src : List Int32) (C H W : Nat) : List UInt16 := nchwToNhwc halfOfInt 0 src C H W

def nchwF16ToNhwc (src : List UInt16) (C H W : Nat) : List UInt16 := nchwToNhwc id 0 src C H W

/-- Depth to space: `OC * bs * bs` channels of `H * W` to `OC` of `H * bs` by `W * bs`. -/
def nchwD2sDcrF16 (src : List UInt16) (OC H W bs : Nat) : List UInt16 :=
  (List.range OC).flatMap fun c => (List.range (H * bs)).flatMap fun y => (List.range (W * bs)).map fun x =>
    src.getD ((((y % bs * bs + x % bs) * OC + c) * H + y / bs) * W + x / bs) 0

/-- `lut[i]`: `f32_to_f16((float)i * (1.0f / 255.0f))`; the factor is `8421505 / 2 ^ 31`. -/
def lut (i : UInt8) : UInt16 := halfOf (significant 24 (i.toNat * 8421505)) 31

/-- `yuv_to_nhwc_fp16` of an NV12 picture whose chroma starts at `uv`. -/
def yuvToNhwcFp16 (data : List UInt8) (stride uv W H : Nat) : List UInt16 :=
  (List.range H).flatMap fun y => (List.range W).flatMap fun x =>
    let chroma := uv + y / 2 * stride + x / 2 * 2
    [lut (data.getD (y * stride + x) 0), lut (data.getD chroma 0), lut (data.getD (chroma + 1) 0)]

/-- A sample of an NV12 picture. -/
def byteOf (h : UInt16) : UInt8 :=
  let v := lrintHalf h 255
  UInt8.ofNat (if v < 0 then 0 else if v > 255 then 255 else v).toNat

/-- `nchw_yuv_fp16_to_nv12_planes` into one buffer of `W * H * 3 / 2` bytes. What it does not
write, where an extent is odd, is zero here. -/
def nchwYuvFp16ToNv12 (src : List UInt16) (W H : Nat) : List UInt8 :=
  let plane := H * W
  let luma := (List.range plane).map fun i => byteOf (src.getD i 0)
  let chroma := (List.range (W * H * 3 / 2 - plane)).map fun i =>
    let y := i / W
    let x := i % W
    if y < H / 2 ∧ x < W / 2 * 2 then
      byteOf (src.getD ((if x % 2 = 0 then plane else 2 * plane) + y * 2 * W + x / 2 * 2) 0)
    else 0
  luma ++ chroma

end Rkvc.Mlvc.Pixel
