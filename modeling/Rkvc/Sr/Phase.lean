import Mathlib.Data.List.Perm.Subperm
import Rkvc.Core.Status
import Rkvc.Lib.Store
import Rkvc.Lib.Tensor

/-!
# Phase packing

`post::phase_pack_nv12` gathers an NV12 picture into the twelve channels the
upscaler takes. The calibration set of the quantised model is built by another
program, `build_calibration.py`, from slices, concatenations and transpositions
of arrays. Both compute the same samples (`phasePack_eq_unshuffle`).
-/

namespace Rkvc.Sr
set_option autoImplicit false
open Lib

def kPhaseInFactor : Nat := 2
def kPhaseInCh : Nat := 12

/-! ## The packer -/

/-- One sample of the picture at full resolution, `none` past the end of a plane. -/
def channelAt (yPlane : List UInt8) (yStride : Nat) (uvPlane : List UInt8) (uvStride w h ch y x : Nat) :
    Option UInt8 :=
  if ch = 0 then yPlane[y * yStride + x]?
  else do
    let cw := w / 2
    let chh := h / 2
    let x0 := x / 2
    let y0 := y / 2
    let x1 := if x0 + 1 < cw then x0 + 1 else x0
    let y1 := if y0 + 1 < chh then y0 + 1 else y0
    let off := ch - 1
    let a ← uvPlane[y0 * uvStride + x0 * 2 + off]?
    if x % 2 = 0 ∧ y % 2 = 0 then return a
    let b ← uvPlane[y0 * uvStride + x1 * 2 + off]?
    let c ← uvPlane[y1 * uvStride + x0 * 2 + off]?
    if y % 2 = 0 then return UInt8.ofNat ((a.toNat + b.toNat + 1) / 2)
    if x % 2 = 0 then return UInt8.ofNat ((a.toNat + c.toNat + 1) / 2)
    let d ← uvPlane[y1 * uvStride + x1 * 2 + off]?
    return UInt8.ofNat ((a.toNat + b.toNat + c.toNat + d.toNat + 2) / 4)

/-- The five loops: `c`, `dy`, `dx`, `cy`, `cx`. -/
def packLoops (cw ch : Nat) : List (Nat × Nat × Nat × Nat × Nat) :=
  (List.range 3).flatMap fun c =>
    (List.range kPhaseInFactor).flatMap fun dy =>
      (List.range kPhaseInFactor).flatMap fun dx =>
        (List.range ch).flatMap fun cy =>
          (List.range cw).map fun cx => (c, dy, dx, cy, cx)

/-- Where a turn of the loops stores, in `size_t`. -/
def packIndex (cw c dy dx cy cx : Nat) : Nat := ((cy * cw + cx) * kPhaseInCh + (c * 4 + dy * 2 + dx)) % 2 ^ 64

/-- The stores of the loops, in order. -/
def packStores (y : List UInt8) (yStride : Nat) (uv : List UInt8) (uvStride w h : Nat) :
    Option (List (Nat × UInt8)) :=
  (packLoops (w / kPhaseInFactor) (h / kPhaseInFactor)).mapM fun (c, dy, dx, cy, cx) => do
    let sample ← channelAt y yStride uv uvStride w h c (cy * 2 + dy) (cx * 2 + dx)
    return (packIndex (w / kPhaseInFactor) c dy dx cy cx, sample)

/-- **`phase_pack_nv12`** on planes and an array of `phases_size` elements; `none` when a read or a
store leaves its array. A null pointer is `none`. -/
def phasePackNv12 (y : Option (List UInt8)) (yStride : Nat) (uv : Option (List UInt8)) (uvStride w h : Nat)
    (phases : Option (List UInt8)) : Option (Status × Option (List UInt8)) :=
  match y, uv, phases with
  | some y, some uv, some phases =>
    if w = 0 ∨ h = 0 ∨ yStride < w ∨ uvStride < w ∨ w % kPhaseInFactor ≠ 0 ∨ h % kPhaseInFactor ≠ 0 then
      some (.invalid, some phases)
    else if phases.length < kPhaseInCh * (w / kPhaseInFactor) * (h / kPhaseInFactor) % 2 ^ 64 then
      some (.invalid, some phases)
    else do
      let stores ← packStores y yStride uv uvStride w h
      if stores.all (·.1 < phases.length) then some (.ok, some (store phases stores)) else none
  | _, _, phases => some (.invalid, phases)

/-! ## The calibration reference -/

/-- `pixel_unshuffle_hwc`; `none` stands for the `ValueError`. -/
def pixelUnshuffleHwc {α : Type} [Inhabited α] (image : Tensor α) (factor : Nat) : Option (Tensor α) :=
  match image.shape with
  | [h, w, channels] =>
    if h % factor ≠ 0 ∨ w % factor ≠ 0 then none
    else do
      let chw := image.transpose [2, 0, 1]
      let nchw ← chw.reshape (1 :: chw.shape)
      let packed ← nchw.reshape [1, channels, h / factor, factor, w / factor, factor]
      (packed.transpose [0, 1, 3, 5, 2, 4]).reshape [1, channels * factor * factor, h / factor, w / factor]
  | _ => none

/-- `np.concatenate((t[1:], t[-1:]))` along an axis. -/
def shifted (t : Tensor UInt16) (axis : Nat) : Tensor UInt16 :=
  let n := t.shape.getD axis 0
  (t.slice axis 1 n).concat (t.slice axis (n - 1) n) axis

/-- `expanded` of `simulate_runtime_nv12`, after its four assignments. -/
def expandChroma (chroma : Tensor UInt16) (height width : Nat) : Tensor UInt8 :=
  let right := shifted chroma 1
  let bottom := shifted chroma 0
  let diagonal := shifted bottom 1
  Tensor.ofFn [height, width, 2] fun index =>
    let quad := [index.getD 0 0 / 2, index.getD 1 0 / 2, index.getD 2 0]
    if index.getD 0 0 % 2 = 0 then
      if index.getD 1 0 % 2 = 0 then (chroma.get quad).toUInt8
      else ((chroma.get quad + right.get quad + 1) / 2).toUInt8
    else if index.getD 1 0 % 2 = 0 then ((chroma.get quad + bottom.get quad + 1) / 2).toUInt8
    else ((chroma.get quad + right.get quad + bottom.get quad + diagonal.get quad + 2) / 4).toUInt8

/-- `np.rint` of the mean of four integers: half to even. -/
def rintMean (sum : Nat) : Nat := if sum % 4 = 2 then (sum / 4 + 1) / 2 * 2 else (sum + 2) / 4

/-- `chroma` of `simulate_runtime_nv12`: the mean over blocks of two by two. -/
def storeChroma (ycbcr : Tensor UInt8) (height width : Nat) : Tensor UInt16 :=
  Tensor.ofFn [height / 2, width / 2, 2] fun index =>
    let sample dy dx :=
      (ycbcr.get [index.getD 0 0 * 2 + dy, index.getD 1 0 * 2 + dx, index.getD 2 0 + 1]).toNat
    UInt16.ofNat (rintMean (sample 0 0 + sample 0 1 + sample 1 0 + sample 1 1))

/-- The picture the runtime sees: a luma plane, and a chroma plane expanded. -/
def runtimeImage (luma : Tensor UInt8) (chroma : Tensor UInt16) (height width : Nat) : Tensor UInt8 :=
  luma.concat (expandChroma chroma height width) 2

/-- `simulate_runtime_nv12`; `none` stands for the `ValueError`. -/
def simulateRuntimeNv12 (ycbcr : Tensor UInt8) : Option (Tensor UInt8) :=
  match ycbcr.shape with
  | [height, width, channels] =>
    if channels ≠ 3 ∨ height % 2 = 1 ∨ width % 2 = 1 then none
    else some (runtimeImage (ycbcr.slice 2 0 1) (storeChroma ycbcr height width) height width)
  | _ => none

/-! ## The reference, sample by sample -/

section Reference

/-- Channel `c * factor² + dy * factor + dx` holds the samples of phase `(dy, dx)`. -/
theorem pixelUnshuffleHwc_spec {α : Type} [Inhabited α] {image : Tensor α} {factor H W C : Nat}
    (hf : 0 < factor) (shape : image.shape = [H * factor, W * factor, C]) :
    ∃ t, pixelUnshuffleHwc image factor = some t ∧ t.shape = [1, C * factor * factor, H, W] ∧
      ∀ c dy dx cy cx, c < C → dy < factor → dx < factor → cy < H → cx < W →
        t.get [0, c * factor * factor + dy * factor + dx, cy, cx] =
          image.get [cy * factor + dy, cx * factor + dx, c] := by
  have hH : H * factor / factor = H := Nat.mul_div_cancel _ hf
  have hW : W * factor / factor = W := Nat.mul_div_cancel _ hf
  let chw := image.transpose [2, 0, 1]
  have chwShape : chw.shape = [C, H * factor, W * factor] := by
    simp [chw, Tensor.transpose, shape]
  obtain ⟨nchw, nchwEq, nchwShape, nchwGet⟩ :=
    Tensor.reshape_spec (t := chw) (1 :: chw.shape) (by simp)
  rw [chwShape] at nchwShape
  obtain ⟨packed, packedEq, packedShape, packedGet⟩ :=
    Tensor.reshape_spec (t := nchw) [1, C, H, factor, W, factor]
      (by rw [nchwShape]; simp only [List.prod_cons, List.prod_nil]; ring)
  let turned := packed.transpose [0, 1, 3, 5, 2, 4]
  have turnedShape : turned.shape = [1, C, factor, factor, H, W] := by
    simp [turned, Tensor.transpose, packedShape]
  obtain ⟨t, tEq, tShape, tGet⟩ :=
    Tensor.reshape_spec (t := turned) [1, C * factor * factor, H, W]
      (by rw [turnedShape]; simp only [List.prod_cons, List.prod_nil]; ring)
  refine ⟨t, ?_, tShape, ?_⟩
  · simp only [pixelUnshuffleHwc, shape, hH, hW, Nat.mul_mod_left, ne_eq, not_true_eq_false, or_self, if_false]
    rw [show image.transpose [2, 0, 1] = chw from rfl, nchwEq]
    simp only [Option.bind_eq_bind, Option.bind_some, packedEq]
    exact tEq
  · intro c dy dx cy cx hc hdy hdx hcy hcx
    have row : cy * factor + dy < H * factor := by
      calc cy * factor + dy < (cy + 1) * factor := by rw [Nat.succ_mul]; omega
        _ ≤ H * factor := Nat.mul_le_mul_right _ hcy
    have col : cx * factor + dx < W * factor := by
      calc cx * factor + dx < (cx + 1) * factor := by rw [Nat.succ_mul]; omega
        _ ≤ W * factor := Nat.mul_le_mul_right _ hcx
    calc t.get [0, c * factor * factor + dy * factor + dx, cy, cx]
        = turned.get [0, c, dy, dx, cy, cx] := by
          apply tGet
          rw [turnedShape]
          simp
          ring
      _ = packed.get [0, c, cy, dy, cx, dx] := by
          apply Tensor.get_transpose
          simp [packedShape, hc, hdy, hdx, hcy, hcx]
      _ = nchw.get [0, c, cy * factor + dy, cx * factor + dx] := by
          apply packedGet
          rw [nchwShape]
          simp
          ring
      _ = chw.get [c, cy * factor + dy, cx * factor + dx] := by
          apply nchwGet
          rw [chwShape]
          simp
      _ = image.get [cy * factor + dy, cx * factor + dx, c] := by
          apply Tensor.get_transpose
          simp [shape, hc, row, col]

/-- One step along an axis, as far as there is one. -/
theorem shifted_spec {t : Tensor UInt16} (axis : Nat) (within : axis < t.shape.length) :
    (shifted t axis).shape = t.shape ∧ ∀ index, Inside t.shape index →
      (shifted t axis).get index =
        t.get (index.modify axis fun i => if i + 1 < t.shape.getD axis 0 then i + 1 else i) := by
  have extent (m : Nat) : (t.shape.set axis m).getD axis 0 = m := by
    simp [List.getD_eq_getElem?_getD, List.getElem?_set_self within]
  have total : t.shape.getD axis 0 - 1 + (t.shape.getD axis 0 - (t.shape.getD axis 0 - 1)) =
      t.shape.getD axis 0 := by omega
  have same : t.shape.set axis (t.shape.getD axis 0) = t.shape := by
    rw [List.getD_eq_getElem?_getD, List.getElem?_eq_getElem within]
    exact List.set_getElem_self within
  have shape : (shifted t axis).shape = t.shape := by
    simp only [shifted, Tensor.concat, Tensor.slice, Tensor.shape_ofFn, extent, List.set_set, total, same]
  refine ⟨shape, ?_⟩
  intro index inside
  have below := inside.getD_lt within
  have head : (t.slice axis 1 (t.shape.getD axis 0)).shape.getD axis 0 = t.shape.getD axis 0 - 1 := extent _
  rw [shifted, Tensor.get_concat]
  · rw [head]
    by_cases next : index.getD axis 0 + 1 < t.shape.getD axis 0
    · rw [if_pos (by omega), Tensor.get_slice]
      · apply congrArg
        apply modify_congr
        rw [if_pos next]
      · have unchanged : Inside (t.shape.set axis (t.shape.getD axis 0 - 1)) (index.modify axis id) := by
          apply inside.modify
          show index.getD axis 0 < t.shape.getD axis 0 - 1
          omega
        rwa [List.modify_id] at unchanged
    · rw [if_neg (by omega), Tensor.get_slice]
      · rw [List.modify_modify_eq]
        apply congrArg
        apply modify_congr
        rw [if_neg next, Function.comp_apply]
        omega
      · apply inside.modify
        omega
  · rw [← shape] at inside
    exact inside

theorem expandChroma_get {chroma : Tensor UInt16} {height width y x k : Nat}
    (shape : chroma.shape = [height / 2, width / 2, 2]) (evenH : height % 2 = 0) (evenW : width % 2 = 0)
    (hy : y < height) (hx : x < width) (hk : k < 2) :
    let x1 := if x / 2 + 1 < width / 2 then x / 2 + 1 else x / 2
    let y1 := if y / 2 + 1 < height / 2 then y / 2 + 1 else y / 2
    let a := chroma.get [y / 2, x / 2, k]
    let b := chroma.get [y / 2, x1, k]
    let c := chroma.get [y1, x / 2, k]
    let d := chroma.get [y1, x1, k]
    (expandChroma chroma height width).get [y, x, k] =
      if y % 2 = 0 then if x % 2 = 0 then a.toUInt8 else ((a + b + 1) / 2).toUInt8
      else if x % 2 = 0 then ((a + c + 1) / 2).toUInt8 else ((a + b + c + d + 2) / 4).toUInt8 := by
  intro x1 y1 a b c d
  have row : y / 2 < height / 2 := by omega
  have col : x / 2 < width / 2 := by omega
  have col1 : x1 < width / 2 := by
    simp only [x1]
    split <;> omega
  have at0 : Inside chroma.shape [y / 2, x / 2, k] := by simp [shape, row, col, hk]
  have at1 : Inside chroma.shape [y / 2, x1, k] := by simp [shape, row, col1, hk]
  obtain ⟨-, rightGet⟩ := shifted_spec (t := chroma) 1 (by simp [shape])
  obtain ⟨bottomShape, bottomGet⟩ := shifted_spec (t := chroma) 0 (by simp [shape])
  obtain ⟨-, diagonalGet⟩ := shifted_spec (t := shifted chroma 0) 1 (by simp [bottomShape, shape])
  have right : (shifted chroma 1).get [y / 2, x / 2, k] = b := by
    rw [rightGet _ at0, shape]
    rfl
  have bottom : (shifted chroma 0).get [y / 2, x / 2, k] = c := by
    rw [bottomGet _ at0, shape]
    rfl
  have diagonal : (shifted (shifted chroma 0) 1).get [y / 2, x / 2, k] = d := by
    rw [diagonalGet _ (by rwa [bottomShape]), bottomShape, shape]
    show (shifted chroma 0).get [y / 2, x1, k] = d
    rw [bottomGet _ at1, shape]
    rfl
  rw [expandChroma, Tensor.get_ofFn (by simp [hy, hx, hk])]
  simp only [List.getD_cons_zero, List.getD_cons_succ, right, bottom, diagonal, a]

end Reference

/-! ## Both read the same samples -/

/-- Every row of a plane lies inside it. -/
def RowsIn (plane : List UInt8) (stride rows width : Nat) : Prop := ∀ r < rows, r * stride + width ≤ plane.length

/-- The luma plane as an image of one channel. -/
def lumaPlane (y : List UInt8) (stride h w : Nat) : Tensor UInt8 :=
  Tensor.ofFn [h, w, 1] fun index => y.getD (index.getD 0 0 * stride + index.getD 1 0) 0

/-- The interleaved chroma plane as an image of two channels. -/
def chromaPlane (uv : List UInt8) (stride h w : Nat) : Tensor UInt16 :=
  Tensor.ofFn [h / 2, w / 2, 2] fun index =>
    (uv.getD (index.getD 0 0 * stride + index.getD 1 0 * 2 + index.getD 2 0) 0).toUInt16

section Samples
variable {y uv : List UInt8} {yStride uvStride w h : Nat}

theorem mean2 (a b : UInt8) :
    ((a.toUInt16 + b.toUInt16 + 1) / 2).toUInt8 = UInt8.ofNat ((a.toNat + b.toNat + 1) / 2) := by
  apply UInt8.toNat_inj.1
  have ha := a.toNat_lt
  have hb := b.toNat_lt
  simp
  omega

theorem mean4 (a b c d : UInt8) :
    ((a.toUInt16 + b.toUInt16 + c.toUInt16 + d.toUInt16 + 2) / 4).toUInt8 =
      UInt8.ofNat ((a.toNat + b.toNat + c.toNat + d.toNat + 2) / 4) := by
  apply UInt8.toNat_inj.1
  have ha := a.toNat_lt
  have hb := b.toNat_lt
  have hc := c.toNat_lt
  have hd := d.toNat_lt
  simp
  omega

theorem RowsIn.read {plane : List UInt8} {stride rows width r k : Nat} (inside : RowsIn plane stride rows width)
    (hr : r < rows) (hk : k < width) : plane[r * stride + k]? = some (plane.getD (r * stride + k) 0) := by
  have row := inside r hr
  have bound : r * stride + k < plane.length := by omega
  rw [List.getD_eq_getElem?_getD, List.getElem?_eq_getElem bound, Option.getD_some]

/-- **One sample**: what the packer gathers is the reference picture's. -/
theorem channelAt_spec (evenW : w % 2 = 0) (evenH : h % 2 = 0) (yRows : RowsIn y yStride h w)
    (uvRows : RowsIn uv uvStride (h / 2) w) {c r k : Nat} (hc : c < 3) (hr : r < h) (hk : k < w) :
    channelAt y yStride uv uvStride w h c r k =
      some ((runtimeImage (lumaPlane y yStride h w) (chromaPlane uv uvStride h w) h w).get [r, k, c]) := by
  have whole : Inside ([h, w, 1].set 2 (1 + 2)) [r, k, c] := by simp [hr, hk, hc]
  rw [runtimeImage, Tensor.get_concat (by simpa [lumaPlane, expandChroma] using whole)]
  simp only [lumaPlane, Tensor.shape_ofFn, List.getD_cons_zero, List.getD_cons_succ]
  by_cases luma : c = 0
  · subst luma
    rw [channelAt, if_pos rfl, if_pos (by omega), yRows.read hr hk,
      Tensor.get_ofFn (by simp [hr, hk])]
    simp
  · have off : c - 1 < 2 := by omega
    have row : r / 2 < h / 2 := by omega
    have col : k / 2 < w / 2 := by omega
    have row1 : (if r / 2 + 1 < h / 2 then r / 2 + 1 else r / 2) < h / 2 := by split <;> omega
    have col1 : (if k / 2 + 1 < w / 2 then k / 2 + 1 else k / 2) < w / 2 := by split <;> omega
    have read {i j : Nat} (hi : i < h / 2) (hj : j < w / 2) :
        uv[i * uvStride + j * 2 + (c - 1)]? = some (uv.getD (i * uvStride + j * 2 + (c - 1)) 0) := by
      rw [Nat.add_assoc]
      exact uvRows.read hi (by omega)
    have chroma {i j : Nat} (hi : i < h / 2) (hj : j < w / 2) :
        (chromaPlane uv uvStride h w).get [i, j, c - 1] =
          (uv.getD (i * uvStride + j * 2 + (c - 1)) 0).toUInt16 := by
      rw [chromaPlane, Tensor.get_ofFn (by simp [hi, hj, off])]
      rfl
    rw [if_neg (by omega)]
    show _ = some ((expandChroma _ h w).get [r, k, c - 1])
    rw [expandChroma_get (by rfl) evenH evenW hr hk off, chroma row col, chroma row col1, chroma row1 col,
      chroma row1 col1, mean2, mean2, mean4]
    rw [channelAt, if_neg luma]
    simp only [read row col, read row col1, read row1 col, read row1 col1, Option.bind_eq_bind,
      Option.bind_some]
    by_cases evenRow : r % 2 = 0 <;> by_cases evenCol : k % 2 = 0 <;> simp [evenRow, evenCol]

/-- The calibration picture is the one of the planes that store its luma and its mean chroma. -/
theorem simulateRuntimeNv12_planes {ycbcr : Tensor UInt8} (shape : ycbcr.shape = [h, w, 3]) (evenW : w % 2 = 0)
    (evenH : h % 2 = 0) (luma : ∀ r k, r < h → k < w → y.getD (r * yStride + k) 0 = ycbcr.get [r, k, 0])
    (chroma : ∀ r k c, r < h / 2 → k < w / 2 → c < 2 →
      (uv.getD (r * uvStride + k * 2 + c) 0).toUInt16 = (storeChroma ycbcr h w).get [r, k, c]) :
    simulateRuntimeNv12 ycbcr =
      some (runtimeImage (lumaPlane y yStride h w) (chromaPlane uv uvStride h w) h w) := by
  have lumaEq : lumaPlane y yStride h w = ycbcr.slice 2 0 1 := by
    apply Tensor.ext_get
    · simp [lumaPlane, Tensor.slice, shape]
    · intro index inside
      match index, inside with
      | [r, k, c], ⟨hr, hk, hc, _⟩ =>
        have c0 : c = 0 := by omega
        subst c0
        rw [lumaPlane, Tensor.get_ofFn (by simp [hr, hk]), Tensor.get_slice (by simp [shape, hr, hk])]
        exact luma r k hr hk
  have chromaEq : chromaPlane uv uvStride h w = storeChroma ycbcr h w := by
    apply Tensor.ext_get
    · rfl
    · intro index inside
      match index, inside with
      | [r, k, c], ⟨hr, hk, hc, _⟩ =>
        rw [chromaPlane, Tensor.get_ofFn (by simp [hr, hk, hc])]
        exact chroma r k c hr hk hc
  rw [simulateRuntimeNv12, shape]
  simp [evenW, evenH, lumaEq, chromaEq]

end Samples

/-! ## Every element once -/

section Loops
variable {w h : Nat}

theorem length_packLoops (cw ch : Nat) : (packLoops cw ch).length = 12 * cw * ch := by
  simp [packLoops, List.length_flatMap, kPhaseInFactor]
  ring

theorem mem_packLoops {cw ch c dy dx cy cx : Nat} :
    (c, dy, dx, cy, cx) ∈ packLoops cw ch ↔ c < 3 ∧ dy < 2 ∧ dx < 2 ∧ cy < ch ∧ cx < cw := by
  simp [packLoops, kPhaseInFactor]

theorem packIndex_lt {cw ch c dy dx cy cx : Nat} (mem : (c, dy, dx, cy, cx) ∈ packLoops cw ch) :
    (cy * cw + cx) * 12 + (c * 4 + dy * 2 + dx) < 12 * cw * ch := by
  obtain ⟨hc, hdy, hdx, hcy, hcx⟩ := mem_packLoops.1 mem
  have row : (cy + 1) * cw ≤ ch * cw := Nat.mul_le_mul_right _ hcy
  rw [Nat.succ_mul] at row
  have cell : (cy * cw + cx + 1) * 12 ≤ (ch * cw) * 12 := Nat.mul_le_mul_right _ (by omega)
  have total : 12 * cw * ch = ch * cw * 12 := by ring
  omega

/-- **The loops reach every element of the packed picture once**, and no other. -/
theorem packIndex_perm {cw ch : Nat} (room : 12 * cw * ch < 2 ^ 64) :
    ((packLoops cw ch).map fun (c, dy, dx, cy, cx) => packIndex cw c dy dx cy cx).Perm
      (List.range (12 * cw * ch)) := by
  apply List.Perm.symm
  apply (List.Nodup.subperm List.nodup_range ?_).perm_of_length_le
  · rw [List.length_map, length_packLoops, List.length_range]
  · intro i hi
    rw [List.mem_range] at hi
    have cwPos : 0 < cw := by
      rcases Nat.eq_zero_or_pos cw with zero | pos
      · simp [zero] at hi
      · exact pos
    have cell : i / 12 < cw * ch := by
      apply Nat.div_lt_of_lt_mul
      rwa [← Nat.mul_assoc]
    have row : i / 12 / cw < ch := Nat.div_lt_of_lt_mul cell
    have col : i / 12 % cw < cw := Nat.mod_lt _ cwPos
    have back : i / 12 / cw * cw + i / 12 % cw = i / 12 := by
      rw [Nat.mul_comm]
      exact Nat.div_add_mod _ _
    refine List.mem_map.2 ⟨(i % 12 / 4, i % 4 / 2, i % 2, i / 12 / cw, i / 12 % cw), ?_, ?_⟩
    · rw [mem_packLoops]
      omega
    · simp only [packIndex, kPhaseInCh, back]
      rw [Nat.mod_eq_of_lt (by omega)]
      omega

end Loops

section Pack
variable {y uv phases : List UInt8} {yStride uvStride w h : Nat}

/-- What the loops store: the reference picture's samples. -/
theorem packStores_eq (evenW : w % 2 = 0) (evenH : h % 2 = 0) (yRows : RowsIn y yStride h w)
    (uvRows : RowsIn uv uvStride (h / 2) w) :
    packStores y yStride uv uvStride w h =
      some ((packLoops (w / 2) (h / 2)).map fun (c, dy, dx, cy, cx) =>
        (packIndex (w / 2) c dy dx cy cx,
          (runtimeImage (lumaPlane y yStride h w) (chromaPlane uv uvStride h w) h w).get
            [cy * 2 + dy, cx * 2 + dx, c])) := by
  apply mapM_some
  rintro ⟨c, dy, dx, cy, cx⟩ mem
  obtain ⟨hc, hdy, hdx, hcy, hcx⟩ := mem_packLoops.1 mem
  have row : cy * 2 + dy < h := by
    simp only [kPhaseInFactor] at hcy
    omega
  have col : cx * 2 + dx < w := by
    simp only [kPhaseInFactor] at hcx
    omega
  dsimp only
  rw [channelAt_spec evenW evenH yRows uvRows hc row col]
  rfl

/-- **The runtime packs what the calibration set shows the model.** Every element of the packed picture
is stored once; at `(cy, cx)`, channel `pc`, it is that of `pixel_unshuffle_hwc` of the picture whose
chroma is expanded as in `simulate_runtime_nv12`. -/
theorem phasePack_eq_unshuffle (evenW : w % 2 = 0) (evenH : h % 2 = 0) (yWide : w ≤ yStride)
    (uvWide : w ≤ uvStride) (yRows : RowsIn y yStride h w) (uvRows : RowsIn uv uvStride (h / 2) w)
    (room : 12 * (w / 2) * (h / 2) ≤ phases.length) (addressable : phases.length < 2 ^ 64) :
    ∃ stores reference,
      packStores y yStride uv uvStride w h = some stores ∧
      (stores.map Prod.fst).Perm (List.range (12 * (w / 2) * (h / 2))) ∧
      phasePackNv12 (some y) yStride (some uv) uvStride w h (some phases) =
        some (if w = 0 ∨ h = 0 then .invalid else .ok, some (store phases stores)) ∧
      pixelUnshuffleHwc (runtimeImage (lumaPlane y yStride h w) (chromaPlane uv uvStride h w) h w) 2 =
        some reference ∧
      reference.shape = [1, 12, h / 2, w / 2] ∧
      ∀ pc cy cx, pc < 12 → cy < h / 2 → cx < w / 2 →
        (store phases stores)[(cy * (w / 2) + cx) * 12 + pc]? = some (reference.get [0, pc, cy, cx]) := by
  let image := runtimeImage (lumaPlane y yStride h w) (chromaPlane uv uvStride h w) h w
  have imageShape : image.shape = [h / 2 * 2, w / 2 * 2, 3] := by
    rw [Nat.div_mul_cancel (Nat.dvd_of_mod_eq_zero evenH), Nat.div_mul_cancel (Nat.dvd_of_mod_eq_zero evenW)]
    rfl
  obtain ⟨reference, unshuffled, shape, reads⟩ := pixelUnshuffleHwc_spec (by decide) imageShape
  have loops := packStores_eq evenW evenH yRows uvRows
  let stores := (packLoops (w / 2) (h / 2)).map fun (c, dy, dx, cy, cx) =>
    (packIndex (w / 2) c dy dx cy cx, image.get [cy * 2 + dy, cx * 2 + dx, c])
  have places : (stores.map Prod.fst).Perm (List.range (12 * (w / 2) * (h / 2))) := by
    rw [List.map_map]
    exact packIndex_perm (by omega)
  refine ⟨stores, reference, loops, places, ?_, unshuffled, shape, ?_⟩
  · have inside : stores.all (·.1 < phases.length) := by
      rw [List.all_eq_true]
      intro store mem
      have place := places.mem_iff.1 (List.mem_map_of_mem mem)
      rw [List.mem_range] at place
      simp only [decide_eq_true_eq]
      omega
    by_cases empty : w = 0 ∨ h = 0
    · have none : stores = [] := by
        apply List.map_eq_nil_iff.2
        apply List.eq_nil_of_length_eq_zero
        rw [length_packLoops]
        rcases empty with rfl | rfl <;> simp
      rw [phasePackNv12, if_pos (by tauto), if_pos empty, none]
      rfl
    · have fits : ¬phases.length < kPhaseInCh * (w / kPhaseInFactor) * (h / kPhaseInFactor) % 2 ^ 64 := by
        simp only [kPhaseInCh, kPhaseInFactor]
        omega
      rw [phasePackNv12, if_neg (by simp only [kPhaseInFactor]; omega), if_neg fits, if_neg empty, loops]
      exact if_pos inside
  · intro pc cy cx hpc hcy hcx
    have cell : (cy * (w / 2) + cx) * 12 + pc < 12 * (w / 2) * (h / 2) := by
      have mem : (pc / 4, pc % 4 / 2, pc % 2, cy, cx) ∈ packLoops (w / 2) (h / 2) := by
        rw [mem_packLoops]
        omega
      have below := packIndex_lt mem
      omega
    have channel : pc = pc / 4 * 2 * 2 + pc % 4 / 2 * 2 + pc % 2 := by omega
    have value := reads (pc / 4) (pc % 4 / 2) (pc % 2) cy cx (by omega) (by omega) (by omega) hcy hcx
    rw [← channel] at value
    rw [value]
    apply store_getElem? (agree_of_nodup ((places.nodup_iff).2 List.nodup_range)) _ (by omega)
    refine List.mem_map.2 ⟨(pc / 4, pc % 4 / 2, pc % 2, cy, cx), ?_, ?_⟩
    · rw [mem_packLoops]
      omega
    · simp only [packIndex, kPhaseInCh]
      rw [Nat.mod_eq_of_lt (by omega), show pc / 4 * 4 + pc % 4 / 2 * 2 + pc % 2 = pc by omega]

end Pack

/-- A picture of four by two, with padded rows. -/
theorem phasePack_eq_unshuffle_small :
    ∃ stores reference,
      packStores [1, 2, 3, 4, 0, 5, 6, 7, 8, 0] 5 [10, 20, 13, 27] 4 4 2 = some stores ∧
      (stores.map Prod.fst).Perm (List.range 24) ∧
      phasePackNv12 (some [1, 2, 3, 4, 0, 5, 6, 7, 8, 0]) 5 (some [10, 20, 13, 27]) 4 4 2
        (some (List.replicate 24 0)) = some (.ok, some (store (List.replicate 24 0) stores)) ∧
      pixelUnshuffleHwc (runtimeImage (lumaPlane [1, 2, 3, 4, 0, 5, 6, 7, 8, 0] 5 2 4)
        (chromaPlane [10, 20, 13, 27] 4 2 4) 2 4) 2 = some reference ∧
      reference.shape = [1, 12, 1, 2] ∧
      ∀ pc cy cx, pc < 12 → cy < 1 → cx < 2 →
        (store (List.replicate 24 0) stores)[(cy * 2 + cx) * 12 + pc]? = some (reference.get [0, pc, cy, cx]) :=
  phasePack_eq_unshuffle (by decide) (by decide) (by decide) (by decide) (by unfold RowsIn; decide)
    (by unfold RowsIn; decide) (by decide) (by decide)

end Rkvc.Sr
