import Rkvc.Core.Roi
import Rkvc.Lib.Store

/-!
# Regions for the encoder

`detail::clamp_roi` widens the regions of a frame to multiples of 16 and cuts
them at its edges, `attach_roi` hands the result to MPP. A region that nothing is
left of ends the session.
-/

namespace Rkvc.H264h265
set_option autoImplicit false

structure ClampedRoi where
  x : UInt16
  y : UInt16
  w : UInt16
  h : UInt16
  qpDelta : Int16
  forceIntra : Bool
  deriving DecidableEq, Repr

/-- The loop body of `clamp_roi`; the sums are those of `uint64_t`, which hold them. -/
def clampRegion (frameW frameH : Nat) (src : RoiRegion) : Option ClampedRoi :=
  let left := src.x.toNat / 16 * 16
  let top := src.y.toNat / 16 * 16
  let right := min ((src.x.toNat + src.width.toNat + 15) / 16 * 16) frameW
  let bottom := min ((src.y.toNat + src.height.toNat + 15) / 16 * 16) frameH
  if 65535 < left ∨ 65535 < top ∨ right ≤ left ∨ bottom ≤ top ∨
      65535 < right - left ∨ 65535 < bottom - top then
    none
  else
    some { x := .ofNat left, y := .ofNat top, w := .ofNat (right - left), h := .ofNat (bottom - top)
           qpDelta := src.qpDelta, forceIntra := src.forceIntra }

/-- **`clamp_roi`** -/
def clampRoi {count : Nat} (regions : Option (Vector RoiRegion count)) (frameW frameH : Nat) :
    Result (List ClampedRoi) :=
  if kRoiMaxRegions < count then Result.reject .invalid "roi" "clamp" "too many regions"
  else if count ≠ 0 ∧ regions.isNone then Result.reject .invalid "roi" "clamp" "null regions"
  else
    match (regions.elim [] Vector.toList).mapM (clampRegion frameW frameH) with
    | none => Result.reject .format "roi" "clamp" "region out of frame"
    | some out => .ok out

/-- `MppEncROIRegion` as `attach_roi` fills it. -/
structure MppEncRoiRegion where
  x : UInt16
  y : UInt16
  w : UInt16
  h : UInt16
  intra : UInt16
  quality : Int16
  qpAreaIdx : UInt16 := 0
  areaMapEn : UInt8 := 1
  absQpEn : UInt8 := 0
  deriving DecidableEq, Repr

def MppEncRoiRegion.ofClamped (src : ClampedRoi) : MppEncRoiRegion where
  x := src.x
  y := src.y
  w := src.w
  h := src.h
  intra := if src.forceIntra then 1 else 0
  quality := src.qpDelta

/-- **`attach_roi`**: the regions that MPP gets with the frame, if the frame has any.
`metaSet` tells whether MPP takes them. -/
def attachRoi (metaSet : Bool) (width height : Nat) (t : RoiTable) : Except Status (Option (List MppEncRoiRegion)) :=
  if t.count = 0 then .ok none
  else
    match clampRoi (some (t.regions.take t.count)) width height with
    | .error e => .error e.status
    | .ok clamped => if metaSet then .ok (some (clamped.map .ofClamped)) else .error .hw

/-- What is left of a side of a region in a frame of `frame` samples. -/
def Visible (start size : UInt32) (frame : Nat) : Prop :=
  (size ≠ 0 ∨ start.toNat % 16 ≠ 0) ∧ start.toNat / 16 * 16 < frame

/-- A region with something left of it. -/
def RoiVisible (spec : Spec) (r : RoiRegion) : Prop :=
  Visible r.x r.width spec.width ∧ Visible r.y r.height spec.height

instance (start size : UInt32) (frame : Nat) : Decidable (Visible start size frame) :=
  inferInstanceAs (Decidable (_ ∧ _))

instance (spec : Spec) (r : RoiRegion) : Decidable (RoiVisible spec r) :=
  inferInstanceAs (Decidable (_ ∧ _))

/-- One side: the aligned and cut interval is not empty. -/
theorem visible_iff {start size : UInt32} {frame : Nat} :
    Visible start size frame ↔
      start.toNat / 16 * 16 < min ((start.toNat + size.toNat + 15) / 16 * 16) frame := by
  have zero : size ≠ 0 ↔ size.toNat ≠ 0 := by
    rw [ne_eq, ne_eq, ← UInt32.toNat_inj]
    rfl
  unfold Visible
  rw [zero]
  omega

/-- In a frame whose sides fit 16 bits, a region is clamped exactly when something is left of it. -/
theorem clampRegion_isSome {spec : Spec} (wide : spec.width ≤ 65535) (high : spec.height ≤ 65535)
    (r : RoiRegion) : (clampRegion spec.width spec.height r).isSome ↔ RoiVisible spec r := by
  unfold clampRegion RoiVisible
  rw [visible_iff, visible_iff]
  dsimp only
  split
  · simp only [Option.isSome_none, Bool.false_eq_true, false_iff]
    omega
  · simp only [Option.isSome_some, true_iff]
    omega

/-- `clamp_roi` on regions that are few and there. -/
theorem clampRoi_ok {count : Nat} {regions : Option (Vector RoiRegion count)} {frameW frameH : Nat}
    (few : count ≤ kRoiMaxRegions) (there : regions.isSome ∨ count = 0) :
    (∃ out, clampRoi regions frameW frameH = .ok out) ↔
      ∀ r ∈ regions.elim [] Vector.toList, (clampRegion frameW frameH r).isSome := by
  have present : ¬(count ≠ 0 ∧ regions.isNone) := by
    rintro ⟨counted, null⟩
    rcases there with there | zero
    · rw [← Option.not_isSome, there] at null
      exact absurd null (by decide)
    · exact counted zero
  unfold clampRoi
  rw [if_neg (by omega), if_neg present, ← Lib.isSome_mapM]
  cases (regions.elim [] Vector.toList).mapM (clampRegion frameW frameH) with
  | none => simp [Result.reject]
  | some out => simp

/-- An accepted call passed regions, unless it passed a count of zero. -/
theorem setRoi_there {spec : Spec} {t t' : RoiTable} {count : Nat} {regions : Option (Vector RoiRegion count)}
    (accepted : setRoi spec t regions = (t', .ok ())) : regions.isSome ∨ count = 0 := by
  cases regions with
  | some _ => exact Or.inl rfl
  | none =>
    by_cases zero : count = 0
    · exact Or.inr zero
    · unfold setRoi at accepted
      dsimp only at accepted
      by_cases few : count ≤ kRoiMaxRegions
      · rw [dif_pos few, if_pos ⟨zero, rfl⟩] at accepted
        cases accepted
      · rw [dif_neg few] at accepted
        cases accepted

/-- `attach_roi` fails as `clamp_roi` does, as long as MPP takes what it is given. -/
theorem attachRoi_ok {t : RoiTable} {width height : Nat} :
    (∃ cfg, attachRoi true width height t = .ok cfg) ↔
      ∃ out, clampRoi (some (t.regions.take t.count)) width height = .ok out := by
  unfold attachRoi
  by_cases zero : t.count = 0
  · have clamped : (∃ out, clampRoi (some (t.regions.take t.count)) width height = .ok out) ↔ _ :=
      clampRoi_ok (by have := t.fits; omega) (Or.inl rfl)
    have empty : (t.regions.take t.count).toList = [] := by
      rw [List.eq_nil_iff_length_eq_zero, Vector.length_toList, zero]
      rfl
    rw [if_pos zero, clamped, Option.elim_some, empty]
    simp
  · rw [if_neg zero]
    cases clampRoi (some (t.regions.take t.count)) width height with
    | ok clamped => simp
    | error e => simp

/-- **An accepted region of interest is clamped** exactly when something is left of every region,
and only then the frame that carries it is encoded. -/
theorem accepted_roi_clamps {spec : Spec} (wide : spec.width ≤ 65535) (high : spec.height ≤ 65535)
    {t t' : RoiTable} {count : Nat} {regions : Option (Vector RoiRegion count)}
    (accepted : setRoi spec t regions = (t', .ok ())) :
    ((∃ out, clampRoi regions spec.width spec.height = .ok out) ↔
      ∀ r ∈ regions.elim [] Vector.toList, RoiVisible spec r) ∧
    ((∃ cfg, attachRoi true spec.width spec.height t' = .ok cfg) ↔
      ∀ r ∈ regions.elim [] Vector.toList, RoiVisible spec r) := by
  obtain ⟨few, counted, shown, -⟩ := setRoi_ok accepted
  have clamps : ∀ {n : Nat} (rs : Option (Vector RoiRegion n)), n ≤ kRoiMaxRegions → (rs.isSome ∨ n = 0) →
      ((∃ out, clampRoi rs spec.width spec.height = .ok out) ↔
        ∀ r ∈ rs.elim [] Vector.toList, RoiVisible spec r) := by
    intro n rs few there
    rw [clampRoi_ok few there]
    apply forall₂_congr
    intro r _
    exact clampRegion_isSome wide high r
  constructor
  · exact clamps regions few (setRoi_there accepted)
  · have stored : (t'.regions.take t'.count).toList = regions.elim [] Vector.toList := by
      rw [← shown, RoiTable.shown]
      simp [Vector.toList]
    have attach := clamps (some (t'.regions.take t'.count)) (by have := t'.fits; omega) (Or.inl rfl)
    rw [Option.elim_some, stored] at attach
    rw [attachRoi_ok]
    exact attach

/-- A frame of 640 by 480 samples. -/
def vgaSpec : Spec := { width := 640, height := 480, fmt := .nv12 }

/-- A region of 32 samples that starts 16 samples before 2^32. -/
def wrappedRegion : RoiRegion := { x := 0xFFFFFFF0, width := 0x20, height := 16 }

/-- Two regions with something left of them are encoded. -/
theorem accepted_roi_pair :
    ∃ t', ((∃ out, clampRoi (some #v[{ x := 10, y := 20, width := 100, height := 60, qpDelta := -8 },
        { x := 600, y := 0, width := 40, height := 1 }]) vgaSpec.width vgaSpec.height = .ok out) ∧
      ∃ cfg, attachRoi true vgaSpec.width vgaSpec.height t' = .ok cfg) := by
  have accepted := @accepted_roi_clamps vgaSpec (by decide) (by decide) {} _ 2
    (some #v[{ x := 10, y := 20, width := 100, height := 60, qpDelta := -8 },
      { x := 600, y := 0, width := 40, height := 1 }]) rfl
  exact ⟨_, accepted.1.mpr (by decide), accepted.2.mpr (by decide)⟩

/-- An accepted region that no encoder clamps or attaches. -/
def EndsSession (r : RoiRegion) : Prop :=
  (setRoi vgaSpec {} (some #v[r])).2 = .ok () ∧
    clampRoi (some #v[r]) vgaSpec.width vgaSpec.height =
      .error ⟨.format, [⟨"roi", "clamp", "region out of frame"⟩]⟩ ∧
    attachRoi true vgaSpec.width vgaSpec.height (setRoi vgaSpec {} (some #v[r])).1 = .error .format

/-- **Two accepted regions that end the session**: the empty one, and one whose sum wraps. -/
theorem accepted_roi_kills : EndsSession {} ∧ EndsSession wrappedRegion := by
  constructor
  · exact ⟨rfl, rfl, rfl⟩
  · exact ⟨rfl, rfl, rfl⟩

end Rkvc.H264h265
