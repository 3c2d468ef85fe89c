import Rkvc.Lib.Loop
import Rkvc.Lib.Store
import Rkvc.Lib.Tensor
import Rkvc.Mlvc.Simd

/-!
# NV12 and tensors

`nchw_yuv_fp16_to_nv12_planes` on both builds, and `yuv_to_nhwc_fp16`, with their
pointers and strides. Counters are `int`s, accesses are checked. A picture comes
back from a tensor on either build exactly where no `int` of the two is too large
(`nv12RoundTrip_iff`).
-/

namespace Rkvc.Mlvc.Pixel
set_option autoImplicit false
open Lib

/-! ## To NV12 -/

def lumaRowScalar (src : List UInt16) (size W sp dp x0 : Nat) : Option (List (Nat × UInt8)) :=
  forInt x0 W 1 fun x => src[sp + x]?.bind fun h => put size (dp + x) (byteOf h)

def lumaRowNeon (src : List UInt16) (size W sp dp : Nat) : Option (List (Nat × UInt8)) :=
  wideInt 0 W 8
    (fun x => (ld1 8 src (sp + x)).bind fun h => st1 size (dp + x) (f16x8ToU8x8Sat255 h))
    (fun x => lumaRowScalar src size W sp dp x)

def chromaRowScalar (src : List UInt16) (size W ur vr dp x0 : Nat) : Option (List (Nat × UInt8)) :=
  forInt x0 (W / 2) 1 fun x =>
    src[ur + x * 2]?.bind fun u => src[vr + x * 2]?.bind fun v =>
      (put size (dp + x * 2) (byteOf u)).bind fun first => (put size (dp + x * 2 + 1) (byteOf v)).map (first ++ ·)

def chromaRowNeon (src : List UInt16) (size W ur vr dp : Nat) : Option (List (Nat × UInt8)) :=
  wideInt 0 (W / 2) 8
    -- `vld2q_u16` and `vst2_u8`
    (fun x => (ld1 16 src (ur + x * 2)).bind fun uu => (ld1 16 src (vr + x * 2)).bind fun vv =>
      st1 size (dp + x * 2) (interleave (f16x8ToU8x8Sat255 (evens uu)) (f16x8ToU8x8Sat255 (evens vv))))
    (fun x => chromaRowScalar src size W ur vr dp x)

/-- The stores of `nchw_yuv_fp16_to_nv12_planes`, to each of the planes. -/
def nv12Stores (neon : Bool) (src : List UInt16) (W H ySize yStride uvSize uvStride : Nat) :
    Option (List (Nat × UInt8) × List (Nat × UInt8)) := do
  let plane := H * W
  let luma ← forInt 0 H 1 fun y =>
    let sp := y * W
    let dp := y * yStride
    if neon then lumaRowNeon src ySize W sp dp else lumaRowScalar src ySize W sp dp 0
  let chroma ← forInt 0 (H / 2) 1 fun y =>
    let ur := plane + y * 2 * W
    let vr := 2 * plane + y * 2 * W
    let dp := y * uvStride
    if neon then chromaRowNeon src uvSize W ur vr dp else chromaRowScalar src uvSize W ur vr dp 0
  return (luma, chroma)

/-- **`nchw_yuv_fp16_to_nv12_planes`**, with or without `MLVC_PX_NEON`; `none` is a fault. -/
def nchwYuvFp16ToNv12Planes (neon : Bool) (src : List UInt16) (W H : Nat) (yp : List UInt8) (yStride : Nat)
    (uv : List UInt8) (uvStride : Nat) : Option (List UInt8 × List UInt8) :=
  (nv12Stores neon src W H yp.length yStride uv.length uvStride).map fun stores =>
    (store yp stores.1, store uv stores.2)

section Rows
variable {src : List UInt16} {size W sp dp ur vr : Nat}

/-- What is stored in a column of luma. -/
def lumaCell (src : List UInt16) (sp dp x : Nat) : List (Nat × UInt8) := [(dp + x, byteOf (src.getD (sp + x) 0))]

/-- What is stored in a column of chroma. -/
def chromaCell (src : List UInt16) (ur vr dp x : Nat) : List (Nat × UInt8) :=
  [(dp + x * 2, byteOf (src.getD (ur + x * 2) 0)), (dp + x * 2 + 1, byteOf (src.getD (vr + x * 2) 0))]

theorem lumaRowScalar_eq (wide : W < 2 ^ 31) (room : sp + W ≤ src.length) (space : dp + W ≤ size) (x0 : Nat) :
    lumaRowScalar src size W sp dp x0 = some ((visits x0 W 1).flatMap (lumaCell src sp dp)) := by
  apply forInt_eq Nat.one_pos
  · intro x visited
    have below := ((mem_visits Nat.one_pos).mp visited).1
    rw [getElem?_getD (by omega) 0, Option.bind_some, put_eq (by omega), lumaCell]
  · intro x visited
    have below := ((mem_visits Nat.one_pos).mp visited).1
    omega

theorem chromaRowScalar_eq (wide : W / 2 < 2 ^ 31) (roomU : ur + W ≤ src.length) (roomV : vr + W ≤ src.length)
    (space : dp + W / 2 * 2 ≤ size) (x0 : Nat) :
    chromaRowScalar src size W ur vr dp x0 = some ((visits x0 (W / 2) 1).flatMap (chromaCell src ur vr dp)) := by
  apply forInt_eq Nat.one_pos
  · intro x visited
    have below := ((mem_visits Nat.one_pos).mp visited).1
    rw [getElem?_getD (by omega) 0, Option.bind_some, getElem?_getD (by omega) 0, Option.bind_some, put_eq (by omega),
      Option.bind_some, put_eq (by omega), Option.map_some, List.singleton_append, chromaCell]
  · intro x visited
    have below := ((mem_visits Nat.one_pos).mp visited).1
    omega

theorem lumaRowNeon_eq (wide : W / 8 * 8 + 8 < 2 ^ 31) (room : sp + W ≤ src.length) (space : dp + W ≤ size) :
    lumaRowNeon src size W sp dp = some ((visits 0 W 1).flatMap (lumaCell src sp dp)) := by
  apply wideInt_eq (by decide) (Nat.zero_le W)
  · intro x _ hx
    rw [ld1_eq (by omega) 0, Option.bind_some, f16x8ToU8x8Sat255_eq, List.map_map, st1_eq (by omega), visits_add,
      List.flatMap_map, List.map_eq_flatMap]
    simp only [lumaCell, Nat.add_assoc, Function.comp_apply]
  · intro x _ hx
    exact lumaRowScalar_eq (by omega) room space x
  · rw [Nat.sub_zero, Nat.zero_add]
    exact wide

theorem chromaRowNeon_eq (wide : W / 2 / 8 * 8 + 8 < 2 ^ 31) (roomU : ur + W ≤ src.length) (roomV : vr + W ≤ src.length)
    (space : dp + W / 2 * 2 ≤ size) :
    chromaRowNeon src size W ur vr dp = some ((visits 0 (W / 2) 1).flatMap (chromaCell src ur vr dp)) := by
  have sixteen : List.range 16 = List.range' 0 (2 * 8) := List.range_eq_range'
  apply wideInt_eq (by decide) (Nat.zero_le _)
  · intro x _ hx
    rw [ld1_eq (by omega) 0, Option.bind_some, ld1_eq (by omega) 0, Option.bind_some, sixteen, evens_range', evens_range',
      f16x8ToU8x8Sat255_eq, f16x8ToU8x8Sat255_eq, List.map_map, List.map_map, interleave_map, st1_pairs (by omega),
      visits_add, List.flatMap_map]
    simp only [chromaCell, Function.comp_apply, Nat.zero_add, Nat.add_assoc, Nat.add_mul, Nat.mul_comm 2]
  · intro x _ hx
    exact chromaRowScalar_eq (by omega) roomU roomV space x
  · rw [Nat.sub_zero, Nat.zero_add]
    exact wide

end Rows

section Planes
variable {src : List UInt16} {W H ySize yStride uvSize uvStride : Nat}

/-- The stores of both builds. -/
def lumaCells (src : List UInt16) (W H yStride : Nat) : List (Nat × UInt8) :=
  (List.range H).flatMap fun y => (List.range W).flatMap (lumaCell src (y * W) (y * yStride))

def chromaCells (src : List UInt16) (W H uvStride : Nat) : List (Nat × UInt8) :=
  (List.range (H / 2)).flatMap fun y =>
    (List.range (W / 2)).flatMap (chromaCell src (H * W + y * 2 * W) (2 * (H * W) + y * 2 * W) (y * uvStride))

/-- Buffers that hold the rows. -/
structure Rows (W H ySize yStride uvSize uvStride : Nat) : Prop where
  luma : ∀ y < H, y * yStride + W ≤ ySize
  chroma : ∀ y < H / 2, y * uvStride + W / 2 * 2 ≤ uvSize

/-- **The planes, on both builds.** -/
theorem nv12Stores_eq {neon : Bool} (ints : W < 2 ^ 31 ∧ H < 2 ^ 31) (fits : neon → 0 < H → WideFits W)
    (room : 3 * (H * W) ≤ src.length) (rows : Rows W H ySize yStride uvSize uvStride) :
    nv12Stores neon src W H ySize yStride uvSize uvStride =
      some (lumaCells src W H yStride, chromaCells src W H uvStride) := by
  have luma : (forInt 0 H 1 fun y => if neon then lumaRowNeon src ySize W (y * W) (y * yStride)
      else lumaRowScalar src ySize W (y * W) (y * yStride) 0) = some (lumaCells src W H yStride) := by
    apply forRange_eq ints.2
    intro y hy
    have last := Nat.mul_le_mul_right W (Nat.succ_le_of_lt hy)
    rw [Nat.succ_mul] at last
    rw [← visits_zero W]
    cases neon with
    | false => exact lumaRowScalar_eq ints.1 (by omega) (rows.luma y hy) 0
    | true => exact lumaRowNeon_eq (fits rfl (by omega)) (by omega) (rows.luma y hy)
  have chroma : (forInt 0 (H / 2) 1 fun y =>
      if neon then chromaRowNeon src uvSize W (H * W + y * 2 * W) (2 * (H * W) + y * 2 * W) (y * uvStride)
        else chromaRowScalar src uvSize W (H * W + y * 2 * W) (2 * (H * W) + y * 2 * W) (y * uvStride) 0) =
      some (chromaCells src W H uvStride) := by
    apply forRange_eq (by omega)
    intro y hy
    have last := Nat.mul_le_mul_right W (show y * 2 + 1 ≤ H by omega)
    rw [Nat.succ_mul] at last
    rw [← visits_zero (W / 2)]
    cases neon with
    | false => exact chromaRowScalar_eq (by omega) (by omega) (by omega) (rows.chroma y hy) 0
    | true =>
      have wide : W / 8 * 8 + 8 < 2 ^ 31 := fits rfl (by omega)
      exact chromaRowNeon_eq (by omega) (by omega) (by omega) (rows.chroma y hy)
  simp only [nv12Stores, luma, chroma, Option.bind_eq_bind, Option.bind_some, Option.pure_def]

/-- A board that writes planes has no sum that is too large. -/
theorem nv12Stores_fits (high : 0 < H) (done : (nv12Stores true src W H ySize yStride uvSize uvStride).isSome) :
    WideFits W := by
  simp only [nv12Stores, if_true, Option.bind_eq_bind, Option.isSome_bind, Option.any_eq_true] at done
  obtain ⟨luma, ran, -⟩ := done
  have last := wideInt_isSome (by decide) (forRange_isSome (Option.isSome_of_eq_some ran) high)
  rw [Nat.sub_zero, Nat.zero_add] at last
  exact last

end Planes

/-! ## From YUV -/

/-- What a pointer reads: a byte at each offset it may be read at. -/
abbrev BytePointer := Nat → Option UInt8

/-- The three stores of a pixel. -/
def putPixel (size d x : Nat) (y u v : UInt16) : Option (List (Nat × UInt16)) :=
  (intMul x 3).bind fun p => (intSum p 1).bind fun p1 => (intSum p 2).bind fun p2 =>
    (put size (d + p) y).bind fun a => (put size (d + p1) u).bind fun b => (put size (d + p2) v).map fun c => a ++ b ++ c

/-- The loops of `yuv_to_nhwc_fp16`. -/
def nhwcStores (yp : BytePointer) (yStride : Nat) (up vp : BytePointer) (uvStride : Nat) (nv12 : Bool) (W H size : Nat) :
    Option (List (Nat × UInt16)) :=
  wideInt 0 H 2
    (fun y =>
      let yr0 := y * yStride
      let yr1 := yr0 + yStride
      let uvr := y / 2 * uvStride
      let d0 := y * W * 3
      let d1 := d0 + W * 3
      forInt 0 W 1 fun x =>
        let uo := (x >>> 1) * (if nv12 then 2 else 1)
        (up (uvr + uo)).bind fun u => (vp (uvr + uo)).bind fun v =>
          (yp (yr0 + x)).bind fun a => (yp (yr1 + x)).bind fun b =>
            (putPixel size d0 x (lut a) (lut u) (lut v)).bind fun first =>
              (putPixel size d1 x (lut b) (lut u) (lut v)).map (first ++ ·))
    (fun y =>
      if y < H then
        let yr0 := y * yStride
        let uvr := y / 2 * uvStride
        let d0 := y * W * 3
        forInt 0 W 1 fun x =>
          let uo := (x >>> 1) * (if nv12 then 2 else 1)
          (yp (yr0 + x)).bind fun a => (up (uvr + uo)).bind fun u => (vp (uvr + uo)).bind fun v =>
            putPixel size d0 x (lut a) (lut u) (lut v)
      else some [])

/-- **`yuv_to_nhwc_fp16`**; `none` is a fault. -/
def yuvToNhwc (yp : BytePointer) (yStride : Nat) (up vp : BytePointer) (uvStride : Nat) (nv12 : Bool) (W H : Nat)
    (nhwc : List UInt16) : Option (List UInt16) :=
  (nhwcStores yp yStride up vp uvStride nv12 W H nhwc.length).map (store nhwc)

/-- The stores of a pixel. -/
def pixelCell (W : Nat) (luma chroma : Nat → Nat → UInt8) (y x : Nat) : List (Nat × UInt16) :=
  [((y * W + x) * 3, lut (luma y x)), ((y * W + x) * 3 + 1, lut (chroma (y / 2) (x / 2 * 2))),
    ((y * W + x) * 3 + 2, lut (chroma (y / 2) (x / 2 * 2 + 1)))]

theorem putPixel_eq {size d x : Nat} (fits : x * 3 + 2 < 2 ^ 31) (inside : d + x * 3 + 2 < size) (y u v : UInt16) :
    putPixel size d x y u v = some [(d + x * 3, y), (d + x * 3 + 1, u), (d + x * 3 + 2, v)] := by
  rw [putPixel, intMul_some (by omega), Option.bind_some, intSum_some (by omega), Option.bind_some,
    intSum_some fits, Option.bind_some, put_eq (by omega), Option.bind_some, put_eq (by omega), Option.bind_some,
    put_eq (by omega)]
  rfl

theorem putPixel_fits {size d x : Nat} {y u v : UInt16} (done : (putPixel size d x y u v).isSome) :
    x * 3 + 2 < 2 ^ 31 := by
  obtain ⟨p, product, done⟩ := bind_isSome done
  obtain ⟨p1, -, done⟩ := bind_isSome done
  obtain ⟨p2, sum, -⟩ := bind_isSome done
  have productIs := intMul_eq product
  have fits := intSum_isSome.1 (Option.isSome_of_eq_some sum)
  omega

/-- An NV12 picture. -/
structure Picture where
  W : Nat
  H : Nat
  luma : Nat → Nat → UInt8
  chroma : Nat → Nat → UInt8

namespace Picture

/-- The plane of luma, of which nothing but samples can be read. -/
def y (p : Picture) (stride : Nat) : BytePointer := fun i =>
  if i % stride < p.W ∧ i / stride < p.H then some (p.luma (i / stride) (i % stride)) else none

/-- The plane of chroma. -/
def uv (p : Picture) (stride : Nat) : BytePointer := fun i =>
  if i % stride < p.W ∧ i / stride < p.H / 2 then some (p.chroma (i / stride) (i % stride)) else none

variable {p : Picture} {stride : Nat}

theorem y_at (wide : p.W ≤ stride) {r c : Nat} (hr : r < p.H) (hc : c < p.W) :
    p.y stride (r * stride + c) = some (p.luma r c) := by
  obtain ⟨row, col⟩ := row_at (r := r) (Nat.lt_of_lt_of_le hc wide)
  rw [y, col, row, if_pos ⟨hc, hr⟩]

theorem uv_at (wide : p.W ≤ stride) {r c : Nat} (hr : r < p.H / 2) (hc : c < p.W) :
    p.uv stride (r * stride + c) = some (p.chroma r c) := by
  obtain ⟨row, col⟩ := row_at (r := r) (Nat.lt_of_lt_of_le hc wide)
  rw [uv, col, row, if_pos ⟨hc, hr⟩]

/-- The stores of the picture's pixels. -/
def cells (p : Picture) : List (Nat × UInt16) :=
  (List.range p.H).flatMap fun y => (List.range p.W).flatMap (pixelCell p.W p.luma p.chroma y)

/-- The column past the last is an `int` behind its product. -/
def ColumnsFit (p : Picture) : Prop := 0 < p.H → 3 * p.W ≤ 2 ^ 31

section Turns
variable {size yStride uvStride : Nat}

theorem putPixel_cell (columns : 3 * p.W ≤ 2 ^ 31) (room : p.H * p.W * 3 ≤ size) {y x d : Nat} (hy : y < p.H)
    (hx : x < p.W) (row : d = y * p.W * 3) :
    putPixel size d x (lut (p.luma y x)) (lut (p.chroma (y / 2) (x / 2 * 2))) (lut (p.chroma (y / 2) (x / 2 * 2 + 1))) =
      some (pixelCell p.W p.luma p.chroma y x) := by
  have last := Nat.mul_le_mul_right 3 (Nat.succ_le_of_lt (row_lt hy hx))
  rw [Nat.succ_mul, Nat.add_mul] at last
  rw [putPixel_eq (by omega) (by omega), pixelCell, Nat.add_mul, row]

/-- Two rows. -/
theorem nhwcPair_eq (evenW : p.W % 2 = 0) (columns : 3 * p.W ≤ 2 ^ 31) (wideY : p.W ≤ yStride) (wideUv : p.W ≤ uvStride)
    (room : p.H * p.W * 3 ≤ size) {k : Nat} (turn : 0 + 2 * k + 2 ≤ p.H) :
    ∃ l, (forInt 0 p.W 1 fun x =>
        (p.uv uvStride ((0 + 2 * k) / 2 * uvStride + (x >>> 1) * (if true then 2 else 1))).bind fun u =>
          (p.uv uvStride ((0 + 2 * k) / 2 * uvStride + (x >>> 1) * (if true then 2 else 1) + 1)).bind fun v =>
            (p.y yStride ((0 + 2 * k) * yStride + x)).bind fun a =>
              (p.y yStride ((0 + 2 * k) * yStride + yStride + x)).bind fun b =>
                (putPixel size ((0 + 2 * k) * p.W * 3) x (lut a) (lut u) (lut v)).bind fun first =>
                  (putPixel size ((0 + 2 * k) * p.W * 3 + p.W * 3) x (lut b) (lut u) (lut v)).map (first ++ ·)) = some l ∧
      Alike l ((visits (0 + 2 * k) (0 + 2 * k + 2) 1).flatMap fun y =>
        (List.range p.W).flatMap (pixelCell p.W p.luma p.chroma y)) := by
  rw [Nat.zero_add] at turn ⊢
  refine ⟨(List.range p.W).flatMap fun x =>
    pixelCell p.W p.luma p.chroma (2 * k) x ++ pixelCell p.W p.luma p.chroma (2 * k + 1) x,
    forRange_eq (by omega) (fun x hx => ?_), ?_⟩
  · have half : x >>> 1 = x / 2 := Nat.shiftRight_eq_div_pow x 1
    have row : 2 * k / 2 = k := Nat.mul_div_cancel_left k (by decide)
    have row' : (2 * k + 1) / 2 = k := by omega
    have next : 2 * k * yStride + yStride + x = (2 * k + 1) * yStride + x := by
      rw [Nat.add_mul (2 * k) 1, Nat.one_mul]
    have first := putPixel_cell columns room (show 2 * k < p.H by omega) hx rfl
    have second := putPixel_cell columns room (show 2 * k + 1 < p.H by omega) hx
      (show 2 * k * p.W * 3 + p.W * 3 = (2 * k + 1) * p.W * 3 by
        rw [Nat.add_mul (2 * k) 1, Nat.one_mul, Nat.add_mul])
    rw [row] at first
    rw [row'] at second
    rw [half, row, if_pos rfl, uv_at wideUv (by omega) (by omega), Option.bind_some, Nat.add_assoc,
      uv_at wideUv (by omega) (by omega), Option.bind_some, y_at wideY (by omega) hx, Option.bind_some, next,
      y_at wideY (by omega) hx, Option.bind_some, first, Option.bind_some, second]
    rfl
  · intro w
    simp only [visits_add, List.flatMap_map, List.mem_flatMap, List.mem_append, List.mem_range]
    constructor
    · rintro ⟨x, hx, cell | cell⟩
      · exact ⟨0, by decide, x, hx, cell⟩
      · exact ⟨1, by decide, x, hx, cell⟩
    · rintro ⟨j, hj, x, hx, cell⟩
      obtain rfl | rfl : j = 0 ∨ j = 1 := by omega
      · exact ⟨x, hx, Or.inl cell⟩
      · exact ⟨x, hx, Or.inr cell⟩

/-- **The tensor of a picture**: what is stored, in some order. -/
theorem nhwcStores_eq (evenW : p.W % 2 = 0) (evenH : p.H % 2 = 0) (columns : p.ColumnsFit) (rows : p.H + 2 < 2 ^ 31)
    (wideY : p.W ≤ yStride) (wideUv : p.W ≤ uvStride) (room : p.H * p.W * 3 ≤ size) :
    ∃ l, nhwcStores (p.y yStride) yStride (p.uv uvStride) (fun i => p.uv uvStride (i + 1)) uvStride true p.W p.H size =
        some l ∧ Alike l p.cells := by
  rw [cells, ← visits_zero p.H]
  apply wideInt_rel appends_alike (by decide) (Nat.zero_le p.H)
  · intro k turn
    exact nhwcPair_eq evenW (columns (by omega)) wideY wideUv room turn
  · intro k below above
    have all : 0 + 2 * k = p.H := by omega
    rw [all, if_neg (Nat.lt_irrefl _), visits_done (Nat.le_refl _) Nat.one_pos]
    exact ⟨[], rfl, fun _ => Iff.rfl⟩
  · omega

/-- A picture that becomes a tensor has no `int` that is too large. -/
theorem nhwcStores_fits (evenH : p.H % 2 = 0) {yp up vp : BytePointer}
    (done : (nhwcStores yp yStride up vp uvStride true p.W p.H size).isSome) : p.ColumnsFit ∧ p.H + 2 < 2 ^ 31 := by
  constructor
  · intro high
    by_cases some : 0 < p.W
    · have pair := wideInt_turn done (show 0 + 2 ≤ p.H by omega)
      have last := forRange_isSome pair (show p.W - 1 < p.W by omega)
      obtain ⟨u, -, last⟩ := bind_isSome last
      obtain ⟨v, -, last⟩ := bind_isSome last
      obtain ⟨a, -, last⟩ := bind_isSome last
      obtain ⟨b, -, last⟩ := bind_isSome last
      obtain ⟨first, ran, -⟩ := bind_isSome last
      have column := putPixel_fits (Option.isSome_of_eq_some ran)
      omega
    · omega
  · have last := wideInt_isSome (by decide) done
    omega

end Turns

/-- The samples of a pixel. -/
def sample (p : Picture) (c y x : Nat) : UInt8 :=
  if c = 0 then p.luma y x else p.chroma (y / 2) (x / 2 * 2 + (c - 1))

theorem mem_cells {w : Nat × UInt16} :
    w ∈ p.cells ↔ ∃ y < p.H, ∃ x < p.W, ∃ c < 3, w = ((y * p.W + x) * 3 + c, lut (p.sample c y x)) := by
  simp only [cells, pixelCell, List.mem_flatMap, List.mem_range, List.mem_cons, List.not_mem_nil, or_false]
  constructor
  · rintro ⟨y, hy, x, hx, rfl | rfl | rfl⟩
    · exact ⟨y, hy, x, hx, 0, by decide, rfl⟩
    · exact ⟨y, hy, x, hx, 1, by decide, rfl⟩
    · exact ⟨y, hy, x, hx, 2, by decide, rfl⟩
  · rintro ⟨y, hy, x, hx, c, hc, rfl⟩
    obtain rfl | rfl | rfl : c = 0 ∨ c = 1 ∨ c = 2 := by omega
    · exact ⟨y, hy, x, hx, Or.inl rfl⟩
    · exact ⟨y, hy, x, hx, Or.inr (Or.inl rfl)⟩
    · exact ⟨y, hy, x, hx, Or.inr (Or.inr rfl)⟩

theorem cells_agree : Agree p.cells := by
  intro w mem w' mem' same
  obtain ⟨y, -, x, hx, c, hc, rfl⟩ := mem_cells.1 mem
  obtain ⟨y', -, x', hx', c', hc', rfl⟩ := mem_cells.1 mem'
  obtain ⟨pixels, rfl⟩ := row_unique hc hc' same
  obtain ⟨rfl, rfl⟩ := row_unique hx hx' pixels
  rfl

/-- A pixel of the tensor. -/
theorem tensor_at {nhwc : List UInt16} (room : p.H * p.W * 3 ≤ nhwc.length) {y x c : Nat} (hy : y < p.H) (hx : x < p.W)
    (hc : c < 3) : (store nhwc p.cells)[(y * p.W + x) * 3 + c]? = some (lut (p.sample c y x)) := by
  apply store_getElem? cells_agree
  · exact mem_cells.2 ⟨y, hy, x, hx, c, hc, rfl⟩
  · exact Nat.lt_of_lt_of_le (row_lt (row_lt hy hx) hc) room

/-- The tensor, one pixel behind the other. -/
theorem store_cells {nhwc : List UInt16} (exact : nhwc.length = p.H * p.W * 3) :
    store nhwc p.cells = (List.range p.H).flatMap fun y => (List.range p.W).flatMap fun x =>
      [lut (p.luma y x), lut (p.chroma (y / 2) (x / 2 * 2)), lut (p.chroma (y / 2) (x / 2 * 2 + 1))] := by
  have three : ∀ k, [k * 3, k * 3 + 1, k * 3 + 2] = (List.range 3).flatMap fun c => [k * 3 + c] := fun _ => rfl
  rw [store_range]
  · simp only [cells, pixelCell, List.map_flatMap, List.map_cons, List.map_nil]
  · simp only [cells, pixelCell, List.map_flatMap, List.map_cons, List.map_nil, three]
    rw [flatMap_rows (fun k => (List.range 3).flatMap fun c => [k * 3 + c]), flatMap_rows (fun k => [k]),
      ← List.map_eq_flatMap, List.map_id', exact]

end Picture

/-- From pixels to planes. -/
def nhwcToNchw (src : List UInt16) (W H : Nat) : List UInt16 :=
  (List.range 3).flatMap fun c => (List.range (H * W)).flatMap fun i => [src.getD (i * 3 + c) 0]

theorem length_nhwcToNchw (src : List UInt16) (W H : Nat) : (nhwcToNchw src W H).length = 3 * (H * W) := by
  simp [nhwcToNchw, List.length_flatMap]
  omega

/-- An element of a plane. -/
theorem nhwcToNchw_at (src : List UInt16) {W H c y x : Nat} (hc : c < 3) (hy : y < H) (hx : x < W) :
    (nhwcToNchw src W H).getD ((c * H + y) * W + x) 0 = src.getD ((y * W + x) * 3 + c) 0 := by
  have place : (c * H + y) * W + x = c * (H * W) + (y * W + x) := by ring
  have plane := @getElem?_flatMap_range UInt16 (fun c => (List.range (H * W)).flatMap fun i => [src.getD (i * 3 + c) 0])
    3 (y * W + x) c (H * W) (by simp [List.length_flatMap]) hc (row_lt hy hx)
  rw [List.getD_eq_getElem?_getD, place, nhwcToNchw, plane, ← List.map_eq_flatMap, List.getElem?_map,
    List.getElem?_range (row_lt hy hx)]
  rfl

/-- **A byte comes back** from the half it becomes. -/
theorem byteOf_lut (b : UInt8) : byteOf (lut b) = b := by
  have all : ∀ n < 256, byteOf (lut (UInt8.ofNat n)) = UInt8.ofNat n := by decide +kernel
  have back := all b.toNat b.toNat_lt
  rwa [UInt8.ofNat_toNat] at back

section Cells
variable {src : List UInt16} {W H stride : Nat}

theorem mem_lumaCells {w : Nat × UInt8} :
    w ∈ lumaCells src W H stride ↔
      ∃ y < H, ∃ x < W, w = (y * stride + x, byteOf (src.getD (y * W + x) 0)) := by
  simp only [lumaCells, lumaCell, List.mem_flatMap, List.mem_range, List.mem_singleton]

theorem mem_chromaCells (even : W % 2 = 0) {w : Nat × UInt8} :
    w ∈ chromaCells src W H stride ↔
      ∃ y < H / 2, ∃ x < W, w =
        (y * stride + x, byteOf (src.getD (((x % 2 + 1) * H + y * 2) * W + x / 2 * 2) 0)) := by
  have planes : ∀ k x y, ((k + 1) * H + y * 2) * W + x = (k + 1) * (H * W) + y * 2 * W + x := by
    intro k x y
    ring
  simp only [chromaCells, chromaCell, List.mem_flatMap, List.mem_range, List.mem_cons, List.not_mem_nil, or_false, planes]
  constructor
  · rintro ⟨y, hy, x, hx, rfl | rfl⟩
    · refine ⟨y, hy, x * 2, by omega, ?_⟩
      rw [Nat.mul_mod_left, Nat.mul_div_cancel _ (by decide), Nat.zero_add, Nat.one_mul]
    · refine ⟨y, hy, x * 2 + 1, by omega, ?_⟩
      have parity : (x * 2 + 1) % 2 = 1 ∧ (x * 2 + 1) / 2 = x := by omega
      rw [parity.1, parity.2, Nat.add_assoc (y * stride)]
  · rintro ⟨y, hy, x, hx, rfl⟩
    refine ⟨y, hy, x / 2, by omega, ?_⟩
    rcases Nat.mod_two_eq_zero_or_one x with zero | one
    · have back : x / 2 * 2 = x := by omega
      rw [zero, back, Nat.zero_add, Nat.one_mul]
      exact Or.inl rfl
    · have back : x / 2 * 2 + 1 = x := by omega
      rw [one, Nat.add_assoc (y * stride), back]
      exact Or.inr rfl

theorem lumaCells_agree (wide : W ≤ stride) : Agree (lumaCells src W H stride) := by
  intro w mem w' mem' same
  obtain ⟨y, -, x, hx, rfl⟩ := mem_lumaCells.1 mem
  obtain ⟨y', -, x', hx', rfl⟩ := mem_lumaCells.1 mem'
  obtain ⟨rfl, rfl⟩ := row_unique (Nat.lt_of_lt_of_le hx wide) (Nat.lt_of_lt_of_le hx' wide) same
  rfl

theorem chromaCells_agree (even : W % 2 = 0) (wide : W ≤ stride) : Agree (chromaCells src W H stride) := by
  intro w mem w' mem' same
  obtain ⟨y, -, x, hx, rfl⟩ := (mem_chromaCells even).1 mem
  obtain ⟨y', -, x', hx', rfl⟩ := (mem_chromaCells even).1 mem'
  obtain ⟨rfl, rfl⟩ := row_unique (Nat.lt_of_lt_of_le hx wide) (Nat.lt_of_lt_of_le hx' wide) same
  rfl

/-- Two planes of one buffer, luma in front, are what the decoder writes. -/
theorem nv12_one_buffer {yp uv : List UInt8} (evenW : W % 2 = 0) (evenH : H % 2 = 0)
    (luma : yp.length = H * W) (chroma : uv.length = H / 2 * W) :
    store yp (lumaCells src W H W) ++ store uv (chromaCells src W H W) = nchwYuvFp16ToNv12 src W H := by
  have rest : W * H * 3 / 2 - H * W = H / 2 * W := by
    obtain ⟨h, rfl⟩ : ∃ h, H = 2 * h := ⟨H / 2, by omega⟩
    have half : 2 * h / 2 = h := by omega
    have all : W * (2 * h) * 3 = 2 * (3 * (h * W)) := by ring
    have two : 2 * h * W = 2 * (h * W) := by ring
    rw [half, all, two]
    omega
  have planeY : store yp (lumaCells src W H W) = (List.range (H * W)).map fun i => byteOf (src.getD i 0) := by
    have cells : lumaCells src W H W = (List.range (H * W)).map fun i => (i, byteOf (src.getD i 0)) := by
      rw [List.map_eq_flatMap, ← flatMap_rows]
      rfl
    rw [cells, store_range]
    · rw [List.map_map]
      rfl
    · rw [List.map_map, luma]
      exact List.map_id' _
  rw [nchwYuvFp16ToNv12, rest, planeY]
  apply congrArg
  apply List.ext_getElem?
  intro i
  by_cases hi : i < H / 2 * W
  · have wide : 0 < W := Nat.pos_of_ne_zero fun none => by simp [none] at hi
    have hy : i / W < H / 2 := Nat.div_lt_of_lt_mul (by rwa [Nat.mul_comm])
    have hx : i % W < W := Nat.mod_lt i wide
    have place : i / W * W + i % W = i := Nat.div_add_mod' i W
    have plane : (i % W % 2 + 1) * H * W = if i % W % 2 = 0 then H * W else 2 * (H * W) := by
      split
      · rename_i even
        rw [even, Nat.zero_add, Nat.one_mul]
      · rename_i odd
        rw [Nat.mod_two_ne_zero.mp odd, Nat.mul_assoc]
    have cell := (@mem_chromaCells src W H W evenW _).2 ⟨i / W, hy, i % W, hx, Eq.refl _⟩
    rw [Nat.add_mul, plane, place] at cell
    rw [store_getElem? (chromaCells_agree evenW (Nat.le_refl W)) cell (by omega), List.getElem?_map, List.getElem?_range hi,
      Option.map_some]
    dsimp only
    rw [if_pos (show i / W < H / 2 ∧ i % W < W / 2 * 2 by omega)]
  · rw [List.getElem?_eq_none (by rw [store_length]; omega), List.getElem?_eq_none (by simpa using hi)]

end Cells

/-! ## There and back -/

/-- The sizes of a picture, and the strides it is read and written with. -/
structure PictureShape where
  W : Nat
  H : Nat
  yStride : Nat
  uvStride : Nat
  outYStride : Nat
  outUvStride : Nat
  evenW : W % 2 = 0
  evenH : H % 2 = 0
  ints : W < 2 ^ 31 ∧ H < 2 ^ 31
  wideY : W ≤ yStride
  wideUv : W ≤ uvStride
  wideOutY : W ≤ outYStride
  wideOutUv : W ≤ outUvStride

namespace PictureShape

/-- The tensor of a picture. -/
def toTensor (s : PictureShape) (luma chroma : Nat → Nat → UInt8) (nhwc : List UInt16) : Option (List UInt16) :=
  let p : Picture := ⟨s.W, s.H, luma, chroma⟩
  yuvToNhwc (p.y s.yStride) s.yStride (p.uv s.uvStride) (fun i => p.uv s.uvStride (i + 1)) s.uvStride true s.W s.H nhwc

/-- What comes back, into two planes that were there. -/
structure Back (s : PictureShape) (luma chroma : Nat → Nat → UInt8) (stores : List (Nat × UInt8) × List (Nat × UInt8))
    (yp uv : List UInt8) : Prop where
  luma : ∀ y < s.H, ∀ x < s.W, (store yp stores.1)[y * s.outYStride + x]? = some (luma y x)
  chroma : ∀ y < s.H / 2, ∀ x < s.W, (store uv stores.2)[y * s.outUvStride + x]? = some (chroma y x)
  lumaInside : ∀ w ∈ stores.1, ∃ y < s.H, ∃ x < s.W, w.1 = y * s.outYStride + x
  chromaInside : ∀ w ∈ stores.2, ∃ y < s.H / 2, ∃ x < s.W, w.1 = y * s.outUvStride + x

/-- **A picture comes back from its tensor**: every read is of a sample, every sample is written as it was, and
nothing is written outside of the columns. -/
def Returns (s : PictureShape) (neon : Bool) : Prop :=
  ∀ luma chroma nhwc yp uv, s.H * s.W * 3 ≤ nhwc.length →
    Rows s.W s.H yp.length s.outYStride uv.length s.outUvStride →
      ∃ tensor stores, s.toTensor luma chroma nhwc = some tensor ∧
        nv12Stores neon (nhwcToNchw tensor s.W s.H) s.W s.H yp.length s.outYStride uv.length s.outUvStride =
          some stores ∧
        nchwYuvFp16ToNv12Planes neon (nhwcToNchw tensor s.W s.H) s.W s.H yp s.outYStride uv s.outUvStride =
          some (store yp stores.1, store uv stores.2) ∧
        s.Back luma chroma stores yp uv

/-- No `int` of the two conversions is too large. -/
structure Fits (s : PictureShape) : Prop where
  columns : 0 < s.H → 3 * s.W ≤ 2 ^ 31
  rows : s.H + 2 < 2 ^ 31

variable {s : PictureShape} {neon : Bool}

theorem Returns.fits (returns : s.Returns neon) : s.Fits := by
  have rows : Rows s.W s.H (List.replicate (s.H * s.outYStride) (0 : UInt8)).length s.outYStride
      (List.replicate (s.H * s.outUvStride) (0 : UInt8)).length s.outUvStride := by
    constructor
    · intro y hy
      have last := Nat.mul_le_mul_right s.outYStride (Nat.succ_le_of_lt hy)
      have wide := s.wideOutY
      rw [Nat.succ_mul] at last
      rw [List.length_replicate]
      omega
    · intro y hy
      have last := Nat.mul_le_mul_right s.outUvStride (show y + 1 ≤ s.H by omega)
      have wide := s.wideOutUv
      rw [Nat.succ_mul] at last
      rw [List.length_replicate]
      omega
  obtain ⟨tensor, stores, ran, -⟩ := returns (fun _ _ => 0) (fun _ _ => 0) (List.replicate (s.H * s.W * 3) 0) _ _
    (by rw [List.length_replicate]) rows
  rw [toTensor, yuvToNhwc, Option.map_eq_some_iff] at ran
  obtain ⟨l, ran, -⟩ := ran
  obtain ⟨columns, rows⟩ := @Picture.nhwcStores_fits ⟨s.W, s.H, fun _ _ => 0, fun _ _ => 0⟩ _ _ _ s.evenH _ _ _
    (Option.isSome_of_eq_some ran)
  exact ⟨columns, rows⟩

theorem Fits.tensor (fits : s.Fits) {luma chroma : Nat → Nat → UInt8} {nhwc : List UInt16}
    (room : s.H * s.W * 3 ≤ nhwc.length) :
    s.toTensor luma chroma nhwc = some (store nhwc (Picture.mk s.W s.H luma chroma).cells) := by
  obtain ⟨l, ran, alike⟩ := @Picture.nhwcStores_eq ⟨s.W, s.H, luma, chroma⟩ nhwc.length s.yStride s.uvStride s.evenW
    s.evenH fits.columns fits.rows s.wideY s.wideUv room
  rw [toTensor, yuvToNhwc, ran, Option.map_some, store_congr Picture.cells_agree alike]

/-- A picture in one buffer becomes the tensor that the encoder is given. -/
theorem Fits.tensor_data (fits : s.Fits) (data : List UInt8) (stride uv : Nat) {nhwc : List UInt16}
    (exact : nhwc.length = s.H * s.W * 3) :
    s.toTensor (fun y x => data.getD (y * stride + x) 0) (fun y x => data.getD (uv + y * stride + x) 0) nhwc =
      some (yuvToNhwcFp16 data stride uv s.W s.H) := by
  rw [fits.tensor exact.ge, Picture.store_cells exact]
  rfl

theorem Fits.returns (fits : s.Fits) : s.Returns neon := by
  intro luma chroma nhwc yp uv room rows
  obtain ⟨p, hp⟩ : ∃ p : Picture, p = ⟨s.W, s.H, luma, chroma⟩ := ⟨_, rfl⟩
  have wide : p.W = s.W := by rw [hp]
  have high : p.H = s.H := by rw [hp]
  have tensor : s.toTensor luma chroma nhwc = some (store nhwc p.cells) := by
    rw [hp]
    exact fits.tensor room
  -- what the planes of the tensor hold
  have held : ∀ c < 3, ∀ y < s.H, ∀ x < s.W,
      byteOf ((nhwcToNchw (store nhwc p.cells) s.W s.H).getD ((c * s.H + y) * s.W + x) 0) = p.sample c y x := by
    intro c hc y hy x hx
    have pixel := @Picture.tensor_at p nhwc (by rw [wide, high]; exact room) y x c (by omega) (by omega) hc
    rw [wide] at pixel
    rw [nhwcToNchw_at _ hc hy hx, List.getD_eq_getElem?_getD, pixel, Option.getD_some, byteOf_lut]
  have turns : neon → 0 < s.H → WideFits s.W := by
    intro _ some
    have columns := fits.columns some
    rw [WideFits]
    omega
  have stores := @nv12Stores_eq (nhwcToNchw (store nhwc p.cells) s.W s.H) s.W s.H yp.length s.outYStride uv.length
    s.outUvStride neon s.ints turns (by rw [length_nhwcToNchw]) rows
  refine ⟨_, _, tensor, stores, ?_, ?_⟩
  · rw [nchwYuvFp16ToNv12Planes, stores]
    rfl
  constructor
  case luma =>
    intro y hy x hx
    apply store_getElem? (lumaCells_agree s.wideOutY)
    · apply mem_lumaCells.2
      have value := held 0 (by decide) y hy x hx
      rw [Nat.zero_mul, Nat.zero_add] at value
      refine ⟨y, hy, x, hx, ?_⟩
      rw [value, hp]
      rfl
    · have room := rows.luma y hy
      omega
  case chroma =>
    intro y hy x hx
    have even := s.evenW
    apply store_getElem? (chromaCells_agree s.evenW s.wideOutUv)
    · apply (mem_chromaCells s.evenW).2
      have value := held (x % 2 + 1) (by omega) (y * 2) (by omega) (x / 2 * 2) (by omega)
      have row : y * 2 / 2 = y := Nat.mul_div_cancel y (by decide)
      have column : x / 2 * 2 / 2 * 2 + (x % 2 + 1 - 1) = x := by omega
      refine ⟨y, hy, x, hx, ?_⟩
      rw [value, Picture.sample, if_neg (by omega), row, column, hp]
    · have room := rows.chroma y hy
      omega
  case lumaInside =>
    intro w mem
    obtain ⟨y, hy, x, hx, rfl⟩ := mem_lumaCells.1 mem
    exact ⟨y, hy, x, hx, rfl⟩
  case chromaInside =>
    intro w mem
    obtain ⟨y, hy, x, hx, rfl⟩ := (mem_chromaCells s.evenW).1 mem
    exact ⟨y, hy, x, hx, rfl⟩

end PictureShape

/-- **Pictures come back on either build exactly where no `int` is too large.** -/
theorem nv12RoundTrip_iff (s : PictureShape) (neon : Bool) : s.Returns neon ↔ s.Fits :=
  ⟨PictureShape.Returns.fits, PictureShape.Fits.returns⟩

/-- Two rows of `2 ^ 30` columns. -/
def widePicture : PictureShape where
  W := 2 ^ 30
  H := 2
  yStride := 2 ^ 30
  uvStride := 2 ^ 30
  outYStride := 2 ^ 30
  outUvStride := 2 ^ 30
  evenW := by decide
  evenH := by decide
  ints := by decide
  wideY := Nat.le_refl _
  wideUv := Nat.le_refl _
  wideOutY := Nat.le_refl _
  wideOutUv := Nat.le_refl _

/-- Three halves to a pixel, and the product of the column is no `int`. -/
theorem widePicture_overflows : ¬widePicture.Returns false ∧ ¬widePicture.Returns true :=
  ⟨fun returns => absurd (returns.fits.columns (by decide)) (by decide),
    fun returns => absurd (returns.fits.columns (by decide)) (by decide)⟩

end Rkvc.Mlvc.Pixel
