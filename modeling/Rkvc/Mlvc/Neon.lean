import Rkvc.Mlvc.Blocked
import Rkvc.Mlvc.Nv12

/-!
# The board against the host

The three functions of `pixel.cpp` that have a NEON branch, on tensors of finite
halves whose channels come in eights. Both builds succeed and leave the same
arrays exactly where the counter of the last turn, and the sum that counts the
blocks, are `int`s (`neonRight_iff`).
-/

namespace Rkvc.Mlvc.Pixel
set_option autoImplicit false
open Lib

/-- The sizes of a tensor, `int`s all of them, with its channels in blocks of eight. -/
structure Shape where
  C : Nat
  H : Nat
  W : Nat
  wStride : Nat
  channels : 0 < C
  eights : C % 8 = 0
  high : 0 < H
  wide : 0 < W
  stride : W ≤ wStride
  ints : C < 2 ^ 31 ∧ H < 2 ^ 31 ∧ wStride < 2 ^ 31

namespace Shape

/-- The elements of the packed tensor. -/
def packedSize (s : Shape) : Nat := s.C / 8 * s.H * s.wStride * 8

/-- No sum is too large for an `int`. -/
structure Fits (s : Shape) : Prop where
  blocks : s.C + 8 < 2 ^ 31
  turns : WideFits s.W

/-- **What the NEON branches are for**: they succeed and leave what the scalar loops leave. -/
structure NeonRight (s : Shape) : Prop where
  pack : ∀ src dst : List UInt16, src.length = s.C * s.H * s.W → allFinite src → s.packedSize ≤ dst.length →
    ∃ out, nchwF16ToNc1hwc2 true (some src) (some dst) s.C s.H s.W (8 : Nat) s.wStride = some (some out) ∧
      nchwF16ToNc1hwc2 false (some src) (some dst) s.C s.H s.W (8 : Nat) s.wStride = some (some out) ∧
      ∀ c < s.C, ∀ y < s.H, ∀ x < s.wStride, out[((c / 8 * s.H + y) * s.wStride + x) * 8 + c % 8]? =
        some (if x < s.W then src.getD ((c * s.H + y) * s.W + x) 0 else 0)
  unpack : ∀ (src : List UInt16) (dst : List Int32), src.length = s.C / 8 * s.H * s.W * 8 → allFinite src →
    s.C * s.H * s.W ≤ dst.length →
      ∃ out, nc1hwc2ToNchw true src dst s.C s.H s.W = some out ∧ nc1hwc2ToNchw false src dst s.C s.H s.W = some out
  planes : ∀ src : List UInt16, 3 * (s.H * s.W) ≤ src.length → allFinite src → ∀ yp yStride uv uvStride,
    Rows s.W s.H yp.length yStride uv.length uvStride →
      ∃ out, nchwYuvFp16ToNv12Planes true src s.W s.H yp yStride uv uvStride = some out ∧
        nchwYuvFp16ToNv12Planes false src s.W s.H yp yStride uv uvStride = some out

variable {s : Shape}

theorem inner (s : Shape) : s.C < 2 ^ 31 ∧ s.H < 2 ^ 31 ∧ s.W < 2 ^ 31 := by
  have ints := s.ints
  have stride := s.stride
  omega

theorem allFinite_zero (n : Nat) : allFinite (List.replicate n 0) := by
  apply List.all_eq_true.2
  intro h mem
  rw [List.eq_of_mem_replicate mem]
  rfl

/-- A board that packs has no sum that is too large. -/
theorem NeonRight.fits (right : s.NeonRight) : s.Fits := by
  obtain ⟨out, ran, -⟩ := right.pack (List.replicate (s.C * s.H * s.W) 0) (List.replicate s.packedSize 0)
    List.length_replicate (allFinite_zero _) (by rw [List.length_replicate])
  rw [nchwF16ToNc1hwc2_eq true _ ⟨s.channels, s.high, s.wide, by decide⟩ s.stride, Option.map_eq_some_iff] at ran
  obtain ⟨packed, ran, -⟩ := ran
  have fits := packBlocks_fits ⟨s.channels, s.high, s.wide⟩ (Option.isSome_of_eq_some ran)
  exact ⟨fits.blocks, fits.wide rfl rfl s.eights⟩

theorem Fits.pack (fits : s.Fits) (neon : Bool) {src dst : List UInt16} (room : src.length = s.C * s.H * s.W)
    (space : s.packedSize ≤ dst.length) :
    nchwF16ToNc1hwc2 neon (some src) (some dst) s.C s.H s.W (8 : Nat) s.wStride =
      some (some (store (List.replicate s.packedSize 0 ++ dst.drop s.packedSize)
        (scalarCells src s.C s.H s.W 8 s.wStride))) := by
  have blocks : (s.C + 8 - 1) / 8 = s.C / 8 := by
    have eights := s.eights
    omega
  have sums : PackFits neon s.C s.W 8 := ⟨fits.blocks, fun _ _ _ => fits.turns⟩
  have ran := packBlocks_eq sums s.inner (by decide) s.stride (Nat.le_of_eq room.symm)
    (show (s.C + 8 - 1) / 8 * s.H * s.wStride * 8 ≤ dst.length by rw [blocks]; exact space)
  rw [nchwF16ToNc1hwc2_eq neon dst ⟨s.channels, s.high, s.wide, by decide⟩ s.stride, ran, blocks]
  rfl

/-- **Without too large a sum the board does what the host does.** -/
theorem Fits.right (fits : s.Fits) : s.NeonRight where
  pack := by
    intro src dst room _ space
    refine ⟨_, fits.pack true room space, fits.pack false room space, ?_⟩
    intro c hc y hy x hx
    have blocks : c < s.C / 8 * 8 := by
      have eights := s.eights
      omega
    have size : s.packedSize = s.C / 8 * s.H * s.wStride * 8 := rfl
    rw [packed_at size (by decide) s.stride blocks hy hx]
    simp only [hc, true_and]
  unpack := by
    intro src dst room finite space
    have ran : ∀ neon, nc1hwc2ToNchw neon src dst s.C s.H s.W = some (store dst (unpackedCells src s.C s.H s.W)) :=
      fun neon => nc1hwc2ToNchw_eq s.inner (fun _ => fits.turns) s.eights finite (Nat.le_of_eq room.symm) space
    exact ⟨_, ran true, ran false⟩
  planes := by
    intro src room _ yp yStride uv uvStride rows
    have ran : ∀ neon, nchwYuvFp16ToNv12Planes neon src s.W s.H yp yStride uv uvStride =
        some (store yp (lumaCells src s.W s.H yStride), store uv (chromaCells src s.W s.H uvStride)) := by
      intro neon
      rw [nchwYuvFp16ToNv12Planes, nv12Stores_eq ⟨s.inner.2.2, s.inner.2.1⟩ (fun _ _ => fits.turns) room rows]
      rfl
    exact ⟨_, ran true, ran false⟩

end Shape

/-- **Board and host agree exactly where no sum is too large for an `int`.** -/
theorem neonRight_iff (s : Shape) : s.NeonRight ↔ s.Fits := ⟨Shape.NeonRight.fits, Shape.Fits.right⟩

theorem eight_pos : 0 < 8 := Nat.succ_pos 7

theorem eight_lanes : 8 % 8 = 0 := Nat.mod_self 8

/-- One row of the largest width. -/
def widestRow : Shape where
  C := 8
  H := 1
  W := 2 ^ 31 - 1
  wStride := 2 ^ 31 - 1
  channels := eight_pos
  eights := eight_lanes
  high := Nat.zero_lt_one
  wide := by decide
  stride := Nat.le_refl _
  ints := by decide

/-- Behind its last turn of eight the board adds eight once more. -/
theorem widestRow_overflows : ¬widestRow.NeonRight := fun right => absurd right.fits.turns (by decide)

end Rkvc.Mlvc.Pixel
