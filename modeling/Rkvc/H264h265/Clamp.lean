import Rkvc.H264h265.Roi
import Mathlib.Order.Bounds.Basic

/-!
# Clamping, sample by sample

A region is its samples, as integers without a bound. `clamp_roi` is meant to take
the regions that have a sample inside the frame and to give each the smallest box of
blocks of 16 that holds what is inside. It tests the corner of the box, which may be
inside the frame when no sample of the region is.
-/

namespace Rkvc.H264h265
set_option autoImplicit false

section Blocks

/-- The start of the block of 16 that a position is in. -/
def blockFloor (n : Nat) : Nat := n / 16 * 16

/-- The first block boundary from a position on. -/
def blockCeil (n : Nat) : Nat := (n + 15) / 16 * 16

theorem blockFloor_greatest (n : Nat) : IsGreatest {m | 16 ∣ m ∧ m ≤ n} (blockFloor n) := by
  unfold blockFloor
  constructor
  · exact ⟨Nat.dvd_mul_left 16 (n / 16), Nat.div_mul_le_self n 16⟩
  · rintro m ⟨⟨k, rfl⟩, below⟩
    omega

theorem blockCeil_least (n : Nat) : IsLeast {m | 16 ∣ m ∧ n ≤ m} (blockCeil n) := by
  unfold blockCeil
  constructor
  · exact ⟨Nat.dvd_mul_left 16 ((n + 15) / 16), by omega⟩
  · rintro m ⟨⟨k, rfl⟩, above⟩
    omega

theorem blockFloor_le (n : Nat) : blockFloor n ≤ n :=
  (blockFloor_greatest n).1.2

theorem le_blockCeil (n : Nat) : n ≤ blockCeil n :=
  (blockCeil_least n).1.2

end Blocks

/-- The samples of a region. -/
def Covers (r : RoiRegion) (px py : Nat) : Prop :=
  (r.x.toNat ≤ px ∧ px < r.x.toNat + r.width.toNat) ∧ r.y.toNat ≤ py ∧ py < r.y.toNat + r.height.toNat

/-- The samples of a box. -/
def ClampedRoi.Covers (box : ClampedRoi) (px py : Nat) : Prop :=
  (box.x.toNat ≤ px ∧ px < box.x.toNat + box.w.toNat) ∧ box.y.toNat ≤ py ∧ py < box.y.toNat + box.h.toNat

/-- Some sample of the region is one of the frame. -/
def HasPixel (frameW frameH : Nat) (r : RoiRegion) : Prop :=
  ∃ px py, px < frameW ∧ py < frameH ∧ Covers r px py

/-- The upper left corner of the region is in the frame. -/
def StartsIn (frameW frameH : Nat) (r : RoiRegion) : Prop :=
  r.x.toNat < frameW ∧ r.y.toNat < frameH

/-- The corner of the widened region is in the frame. -/
def CornerIn (frameW frameH : Nat) (r : RoiRegion) : Prop :=
  blockFloor r.x.toNat < frameW ∧ blockFloor r.y.toNat < frameH

/-- The clamped box has sides and a corner of 16 bits. -/
def FitsFields (frameW frameH : Nat) (r : RoiRegion) : Prop :=
  (blockFloor r.x.toNat ≤ 65535 ∧ blockFloor r.y.toNat ≤ 65535) ∧
    min (blockCeil (r.x.toNat + r.width.toNat)) frameW - blockFloor r.x.toNat ≤ 65535 ∧
    min (blockCeil (r.y.toNat + r.height.toNat)) frameH - blockFloor r.y.toNat ≤ 65535

instance (frameW frameH : Nat) (r : RoiRegion) : Decidable (StartsIn frameW frameH r) :=
  inferInstanceAs (Decidable (_ ∧ _))

instance (frameW frameH : Nat) (r : RoiRegion) : Decidable (CornerIn frameW frameH r) :=
  inferInstanceAs (Decidable (_ ∧ _))

instance (frameW frameH : Nat) (r : RoiRegion) : Decidable (FitsFields frameW frameH r) :=
  inferInstanceAs (Decidable (_ ∧ _))

/-- **The box of a region**: its sides are the nearest block boundaries outside the region, or
the frame's edge, and it holds what the region has inside the frame. -/
structure ClampsTo (frameW frameH : Nat) (src : RoiRegion) (box : ClampedRoi) : Prop where
  left : IsGreatest {m | 16 ∣ m ∧ m ≤ src.x.toNat} box.x.toNat
  top : IsGreatest {m | 16 ∣ m ∧ m ≤ src.y.toNat} box.y.toNat
  right : ∃ e, IsLeast {m | 16 ∣ m ∧ src.x.toNat + src.width.toNat ≤ m} e ∧
    box.x.toNat + box.w.toNat = min e frameW
  bottom : ∃ e, IsLeast {m | 16 ∣ m ∧ src.y.toNat + src.height.toNat ≤ m} e ∧
    box.y.toNat + box.h.toNat = min e frameH
  inside : box.x.toNat + box.w.toNat ≤ frameW ∧ box.y.toNat + box.h.toNat ≤ frameH
  nonempty : 0 < box.w.toNat ∧ 0 < box.h.toNat
  keeps : ∀ px py, px < frameW → py < frameH → Covers src px py → box.Covers px py
  qpDelta : box.qpDelta = src.qpDelta
  forceIntra : box.forceIntra = src.forceIntra

section Region

variable {frameW frameH : Nat} {src : RoiRegion} {box : ClampedRoi}

/-- A region that has samples has one in the frame exactly when its first is there. -/
theorem hasPixel_iff (wide : src.width ≠ 0) (high : src.height ≠ 0) :
    HasPixel frameW frameH src ↔ StartsIn frameW frameH src := by
  have width : src.width.toNat ≠ 0 := fun zero => wide (UInt32.toNat_inj.mp zero)
  have height : src.height.toNat ≠ 0 := fun zero => high (UInt32.toNat_inj.mp zero)
  constructor
  · rintro ⟨px, py, inW, inH, ⟨fromX, -⟩, fromY, -⟩
    exact ⟨Nat.lt_of_le_of_lt fromX inW, Nat.lt_of_le_of_lt fromY inH⟩
  · rintro ⟨inW, inH⟩
    exact ⟨src.x.toNat, src.y.toNat, inW, inH, ⟨Nat.le_refl _, by omega⟩, Nat.le_refl _, by omega⟩

theorem StartsIn.corner (starts : StartsIn frameW frameH src) : CornerIn frameW frameH src :=
  ⟨Nat.lt_of_le_of_lt (blockFloor_le _) starts.1, Nat.lt_of_le_of_lt (blockFloor_le _) starts.2⟩

/-- The loop body takes a region by the corner of its box. -/
theorem clampRegion_some_iff (wide : src.width ≠ 0) (high : src.height ≠ 0) :
    (clampRegion frameW frameH src).isSome ↔
      CornerIn frameW frameH src ∧ FitsFields frameW frameH src := by
  have width : src.width.toNat ≠ 0 := fun zero => wide (UInt32.toNat_inj.mp zero)
  have height : src.height.toNat ≠ 0 := fun zero => high (UInt32.toNat_inj.mp zero)
  unfold clampRegion CornerIn FitsFields blockFloor blockCeil
  dsimp only
  split
  · simp only [Option.isSome_none, Bool.false_eq_true, false_iff]
    omega
  · simp only [Option.isSome_some, true_iff]
    omega

theorem field_toNat {n : Nat} (fits : n ≤ 65535) : (UInt16.ofNat n).toNat = n := by
  rw [UInt16.toNat_ofNat']
  exact Nat.mod_eq_of_lt (by omega)

/-- What the loop body gives a region is its box. -/
theorem clampRegion_clamps (clamped : clampRegion frameW frameH src = some box) :
    ClampsTo frameW frameH src box := by
  unfold clampRegion at clamped
  dsimp only at clamped
  split at clamped
  · cases clamped
  · rename_i admitted
    cases clamped
    have left : (UInt16.ofNat (src.x.toNat / 16 * 16)).toNat = blockFloor src.x.toNat :=
      field_toNat (by omega)
    have top : (UInt16.ofNat (src.y.toNat / 16 * 16)).toNat = blockFloor src.y.toNat :=
      field_toNat (by omega)
    have width := field_toNat (n := min ((src.x.toNat + src.width.toNat + 15) / 16 * 16) frameW -
      src.x.toNat / 16 * 16) (by omega)
    have height := field_toNat (n := min ((src.y.toNat + src.height.toNat + 15) / 16 * 16) frameH -
      src.y.toNat / 16 * 16) (by omega)
    have right : blockFloor src.x.toNat + (min ((src.x.toNat + src.width.toNat + 15) / 16 * 16) frameW -
        src.x.toNat / 16 * 16) = min (blockCeil (src.x.toNat + src.width.toNat)) frameW := by
      unfold blockFloor blockCeil
      omega
    have bottom : blockFloor src.y.toNat + (min ((src.y.toNat + src.height.toNat + 15) / 16 * 16) frameH -
        src.y.toNat / 16 * 16) = min (blockCeil (src.y.toNat + src.height.toNat)) frameH := by
      unfold blockFloor blockCeil
      omega
    exact {
      left := by
        rw [left]
        exact blockFloor_greatest _
      top := by
        rw [top]
        exact blockFloor_greatest _
      right := ⟨_, blockCeil_least _, by rw [left, width, right]⟩
      bottom := ⟨_, blockCeil_least _, by rw [top, height, bottom]⟩
      inside := by
        rw [left, top, width, height, right, bottom]
        exact ⟨Nat.min_le_right _ _, Nat.min_le_right _ _⟩
      nonempty := by
        rw [width, height]
        omega
      keeps := by
        rintro px py inW inH ⟨⟨fromX, toX⟩, fromY, toY⟩
        unfold ClampedRoi.Covers
        rw [left, top, width, height, right, bottom]
        have beforeX := blockFloor_le src.x.toNat
        have beforeY := blockFloor_le src.y.toNat
        have afterX := le_blockCeil (src.x.toNat + src.width.toNat)
        have afterY := le_blockCeil (src.y.toNat + src.height.toNat)
        omega
      qpDelta := rfl
      forceIntra := rfl }

end Region

/-- **Clamping as it is meant**: the regions that have a sample in the frame and fit MPP's fields
are taken, and each gets its box. -/
structure ClampSound {count : Nat} (regions : Option (Vector RoiRegion count)) (frameW frameH : Nat) : Prop where
  takes : (∃ out, clampRoi regions frameW frameH = .ok out) ↔
    ∀ r ∈ regions.elim [] Vector.toList, HasPixel frameW frameH r ∧ FitsFields frameW frameH r
  boxes : ∀ out, clampRoi regions frameW frameH = .ok out →
    List.Forall₂ (ClampsTo frameW frameH) (regions.elim [] Vector.toList) out

section List

variable {count : Nat} {regions : Option (Vector RoiRegion count)} {frameW frameH : Nat}

/-- Every list that is taken gets its boxes. -/
theorem clampRoi_boxes {out : List ClampedRoi} (clamped : clampRoi regions frameW frameH = .ok out) :
    List.Forall₂ (ClampsTo frameW frameH) (regions.elim [] Vector.toList) out := by
  unfold clampRoi at clamped
  split at clamped
  · cases clamped
  · split at clamped
    · cases clamped
    · split at clamped
      · cases clamped
      · rename_i mapped
        cases clamped
        exact (Lib.mapM_some_forall₂ mapped).imp fun _ _ => clampRegion_clamps

/-- A list is taken by the corners of its boxes. -/
theorem clampRoi_takes (few : count ≤ kRoiMaxRegions) (there : regions.isSome ∨ count = 0)
    (sized : ∀ r ∈ regions.elim [] Vector.toList, r.width ≠ 0 ∧ r.height ≠ 0) :
    (∃ out, clampRoi regions frameW frameH = .ok out) ↔
      ∀ r ∈ regions.elim [] Vector.toList, CornerIn frameW frameH r ∧ FitsFields frameW frameH r := by
  rw [clampRoi_ok few there]
  apply forall₂_congr
  intro r listed
  exact clampRegion_some_iff (sized r listed).1 (sized r listed).2

/-- **Clamping is sound** exactly where a list whose boxes all have their corner in the frame,
and fit the fields, has no region that starts outside of it. -/
theorem clampRoi_sound_iff (few : count ≤ kRoiMaxRegions) (there : regions.isSome ∨ count = 0)
    (sized : ∀ r ∈ regions.elim [] Vector.toList, r.width ≠ 0 ∧ r.height ≠ 0) :
    ClampSound regions frameW frameH ↔
      ((∀ r ∈ regions.elim [] Vector.toList, CornerIn frameW frameH r ∧ FitsFields frameW frameH r) →
        ∀ r ∈ regions.elim [] Vector.toList, StartsIn frameW frameH r) := by
  have takes : (∃ out, clampRoi regions frameW frameH = .ok out) ↔ _ := clampRoi_takes few there sized
  have pixel : ∀ r ∈ regions.elim [] Vector.toList, HasPixel frameW frameH r ↔ StartsIn frameW frameH r :=
    fun r listed => hasPixel_iff (sized r listed).1 (sized r listed).2
  constructor
  · intro sound cornered r listed
    exact (pixel r listed).mp (sound.takes.mp (takes.mpr cornered) r listed).1
  · intro starts
    refine ⟨?_, fun out => clampRoi_boxes⟩
    rw [takes]
    constructor
    · intro cornered r listed
      exact ⟨(pixel r listed).mpr (starts cornered r listed), (cornered r listed).2⟩
    · intro inside r listed
      exact ⟨((pixel r listed).mp (inside r listed).1).corner, (inside r listed).2⟩

end List

/-- A region of 100 by 60 samples and one that ends behind the right edge, in 640 by 480. -/
theorem clampRoi_sound_pair :
    ClampSound (some #v[{ x := 10, y := 20, width := 100, height := 60, qpDelta := -8 },
      { x := 600, y := 20, width := 100, height := 60 }]) 640 480 := by
  apply (clampRoi_sound_iff (by decide) (Or.inl rfl) (by decide)).mpr
  decide

/-- A region of 8 by 8 samples at column 24. -/
def rightOfFrame : RoiRegion := { x := 24, width := 8, height := 8 }

/-- **A region without a sample in a frame of 20 by 16 is taken**, with a box of four columns. -/
theorem clampRoi_unsound :
    ¬ HasPixel 20 16 rightOfFrame ∧
      clampRoi (some #v[rightOfFrame]) 20 16 =
        .ok [{ x := 16, y := 0, w := 4, h := 16, qpDelta := 0, forceIntra := false }] ∧
      ¬ ClampSound (some #v[rightOfFrame]) 20 16 := by
  have outside : ¬ HasPixel 20 16 rightOfFrame := by
    rintro ⟨px, py, inW, -, ⟨fromX, -⟩, -⟩
    have start : rightOfFrame.x.toNat = 24 := rfl
    omega
  refine ⟨outside, rfl, fun sound => ?_⟩
  exact outside (sound.takes.mp ⟨_, rfl⟩ rightOfFrame (by decide)).1

end Rkvc.H264h265
