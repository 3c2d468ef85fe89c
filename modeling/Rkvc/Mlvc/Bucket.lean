import Mathlib.Algebra.Order.Floor.Ring
import Mathlib.Data.Rat.Floor
import Mathlib.Tactic.Linarith
import Rkvc.Mlvc.RateCtl

/-!
# The bucket over a run

What holds of a rate controller after any sequence of calls (`run_keeps`): the bucket
is never below empty, a change of the bitrate brings it below its capacity, and
the bits that are allocated to a frame leave a tenth of it free.
-/

namespace Rkvc.Mlvc
set_option autoImplicit false

variable {K : Type} [Field K] [LinearOrder K] [FloorRing K]

/-- A call of the controller. -/
inductive RcCall (K : Type) where
  | solve (pt : K) (frameType : RcFrameType) (reservedOverheadBits : Int)
  | update (headerBits payloadBits : Int)
  | configure (bitrateBps : K)

/-- Frames have no negative sizes. -/
def RcCall.Sized : RcCall K → Prop
  | .update headerBits payloadBits => 0 ≤ headerBits ∧ 0 ≤ payloadBits
  | _ => True

namespace RateController

def call (fns : LogExp K) (rc : RateController K) : RcCall K → RateController K
  | .solve pt frameType overhead => (rc.solve fns pt frameType overhead).2
  | .update headerBits payloadBits => rc.update fns headerBits payloadBits
  | .configure bitrateBps => rc.configure bitrateBps

def run (fns : LogExp K) (rc : RateController K) (calls : List (RcCall K)) : RateController K := calls.foldl (call fns) rc

end RateController

section Truncate

variable {x : K}

theorem truncate_nonneg (nonneg : 0 ≤ x) : 0 ≤ truncate x := by
  rw [truncate, if_pos nonneg]
  exact Int.floor_nonneg.mpr nonneg

theorem truncate_le (nonneg : 0 ≤ x) : (truncate x : K) ≤ x := by
  rw [truncate, if_pos nonneg]
  exact Int.floor_le x

end Truncate

/-- **What every call keeps.** -/
structure RateController.Kept (rc : RateController K) : Prop where
  bitrate : 0 < rc.alloc.bucket.bitrate
  fps : 0 < rc.alloc.bucket.fps
  capacity : 0 ≤ rc.alloc.bucket.capacityBits
  fill : 0 ≤ rc.alloc.bucket.fillBits

omit [FloorRing K] in
theorem Kept.of_alloc {rc : RateController K} {a : Allocator K} (alloc : rc.alloc = a) (bitrate : 0 < a.bucket.bitrate)
    (fps : 0 < a.bucket.fps) (capacity : 0 ≤ a.bucket.capacityBits) (fill : 0 ≤ a.bucket.fillBits) : rc.Kept := by
  subst alloc
  exact ⟨bitrate, fps, capacity, fill⟩

theorem lbCalcFill_nonneg (b : LeakyBucket K) (pt : K) : 0 ≤ lbCalcFill b pt := by
  have drained : lbDrainBits b pt ≤ b.fillBits := by
    unfold lbDrainBits
    dsimp only
    split <;> omega
  unfold lbCalcFill
  omega

/-- The clamps of an allocation behind the one to the headroom: where they undo it, nothing is allocated. -/
theorem clamp_range {v low high fill most : Int} (nonneg : 0 ≤ low) (nonneg' : 0 ≤ high) :
    let v := if v < low then low else v
    let v := if v > high then high else v
    let v := if fill + v > most then 0 else v
    0 ≤ v ∧ (v ≠ 0 → fill + v ≤ most) := by
  intro above below room
  have above_low : low ≤ above := by
    dsimp only [above]
    split <;> omega
  have below_nonneg : 0 ≤ below := by
    dsimp only [below]
    split <;> omega
  dsimp only [room]
  split <;> omega

/-- A new bitrate brings the bucket below its capacity. -/
theorem configure_fill {rc : RateController K} {bitrateBps : K} (positive : 0 < bitrateBps) :
    0 ≤ (rc.configure bitrateBps).alloc.bucket.fillBits ∧
      (rc.configure bitrateBps).alloc.bucket.fillBits ≤ (rc.configure bitrateBps).alloc.bucket.capacityBits := by
  have capacity : 0 ≤ truncate (bitrateBps * kBucketSecs) :=
    truncate_nonneg (by rw [kBucketSecs, mul_one]; exact positive.le)
  unfold RateController.configure
  rw [if_neg (not_le.mpr positive)]
  dsimp only
  generalize truncate (bitrateBps * kBucketSecs) = newCapacity at capacity
  split <;> split <;> omega

variable [IsStrictOrderedRing K]

section Bucket

variable {a : Allocator K} {pt weight tau : K}

/-- The planned excess is at most half of the bucket. -/
theorem raPlannedExcess_range (capacity : 0 ≤ a.bucket.capacityBits) (pt weight : K) :
    0 ≤ raPlannedExcess a pt weight ∧ (raPlannedExcess a pt weight : K) ≤ a.bucket.capacityBits / 2 := by
  have half : (0 : K) ≤ 1 / 2 * (a.bucket.capacityBits : K) :=
    mul_nonneg (by norm_num) (Int.cast_nonneg capacity)
  have lower := truncate_nonneg half
  have upper := truncate_le half
  have clamped : 0 ≤ raPlannedExcess a pt weight ∧
      raPlannedExcess a pt weight ≤ truncate (1 / 2 * (a.bucket.capacityBits : K)) := by
    unfold raPlannedExcess
    dsimp only
    generalize truncate (1 / 2 * (a.bucket.capacityBits : K)) = maxExcess at lower
    split <;> split <;> split <;> omega
  refine ⟨clamped.1, ?_⟩
  calc (raPlannedExcess a pt weight : K) ≤ (truncate (1 / 2 * (a.bucket.capacityBits : K)) : K) :=
        Int.cast_le.mpr clamped.2
    _ ≤ 1 / 2 * (a.bucket.capacityBits : K) := upper
    _ = a.bucket.capacityBits / 2 := by rw [one_div_mul_eq_div]

/-- What is allocated leaves a tenth of the bucket free. -/
theorem raAllocate_range (bitrate : 0 < a.bucket.bitrate) (fps : 0 < a.bucket.fps) (capacity : 0 ≤ a.bucket.capacityBits)
    (positive : 0 ≤ weight) :
    0 ≤ raAllocate a pt weight tau ∧ (raAllocate a pt weight tau ≠ 0 →
      ((lbCalcFill a.bucket pt + raAllocate a pt weight tau : Int) : K) ≤ 9 / 10 * a.bucket.capacityBits) := by
  have nominal : 0 ≤ truncate (weight * (a.bucket.bitrate / a.bucket.fps)) :=
    truncate_nonneg (mul_nonneg positive (div_nonneg bitrate.le fps.le))
  have scaled : ∀ c : K, 0 ≤ c →
      0 ≤ truncate (c * ((truncate (weight * (a.bucket.bitrate / a.bucket.fps)) : Int) : K)) :=
    fun c positive => truncate_nonneg (mul_nonneg positive (Int.cast_nonneg nominal))
  have tenths : (0 : K) ≤ 9 / 10 * (a.bucket.capacityBits : K) :=
    mul_nonneg (by norm_num) (Int.cast_nonneg capacity)
  obtain ⟨nonneg, room⟩ : 0 ≤ raAllocate a pt weight tau ∧ (raAllocate a pt weight tau ≠ 0 →
      lbCalcFill a.bucket pt + raAllocate a pt weight tau ≤ truncate (9 / 10 * (a.bucket.capacityBits : K))) :=
    clamp_range (scaled (33 / 100) (by norm_num)) (scaled 2 (by norm_num))
  refine ⟨nonneg, fun some => ?_⟩
  calc ((lbCalcFill a.bucket pt + raAllocate a pt weight tau : Int) : K)
      ≤ (truncate (9 / 10 * (a.bucket.capacityBits : K)) : K) := Int.cast_le.mpr (room some)
    _ ≤ 9 / 10 * a.bucket.capacityBits := truncate_le tenths

end Bucket

section Run

variable {fns : LogExp K} {rc : RateController K}

theorem lbInit_kept {bitrate fps : K} (positive : 0 < bitrate) :
    0 ≤ (lbInit bitrate fps).capacityBits ∧ 0 ≤ (lbInit bitrate fps).fillBits := by
  have capacity : 0 ≤ truncate (bitrate * kBucketSecs) := truncate_nonneg (by rw [kBucketSecs, mul_one]; exact positive.le)
  refine ⟨capacity, truncate_nonneg (mul_nonneg ?_ (Int.cast_nonneg capacity))⟩
  unfold kInitLevel
  norm_num

/-- A new controller. -/
theorem create_kept {width height : Nat} {bitrateBps fps : K}
    (created : RateController.create width height bitrateBps fps = .ok rc) : rc.Kept := by
  unfold RateController.create at created
  split at created
  · cases created
  · rename_i valid
    simp only [not_or, not_le] at valid
    obtain ⟨-, -, bitrate, positive⟩ := valid
    cases created
    exact ⟨bitrate, positive, (lbInit_kept bitrate).1, (lbInit_kept bitrate).2⟩

omit [FloorRing K] in
theorem frameWeight_nonneg (rc : RateController K) (frameType : RcFrameType) : 0 ≤ rc.frameWeight frameType := by
  have typed : ∀ typeW w : K, 0 ≤ typeW → 0 ≤ if typeW > w then typeW else w := by
    intro typeW w nonneg
    split
    · exact nonneg
    · rename_i less
      exact nonneg.trans (not_lt.mp less)
  unfold RateController.frameWeight
  apply typed
  cases frameType <;> norm_num

omit [IsStrictOrderedRing K] in
/-- One call. -/
theorem call_kept (kept : rc.Kept) {c : RcCall K} (sized : c.Sized) : (rc.call fns c).Kept := by
  cases c with
  | solve pt frameType overhead => exact ⟨kept.bitrate, kept.fps, kept.capacity, kept.fill⟩
  | update headerBits payloadBits =>
    have alloc := update_alloc fns rc headerBits payloadBits
    have drained := lbCalcFill_nonneg rc.alloc.bucket rc.curPt
    obtain ⟨header, payload⟩ : 0 ≤ headerBits ∧ 0 ≤ payloadBits := sized
    by_cases pending : rc.havePending = true
    · rw [if_pos pending] at alloc
      apply Kept.of_alloc alloc
      · exact kept.bitrate
      · exact kept.fps
      · exact kept.capacity
      · show 0 ≤ lbCalcFill rc.alloc.bucket rc.curPt + (headerBits + payloadBits)
        omega
    · rw [if_neg pending] at alloc
      exact Kept.of_alloc alloc kept.bitrate kept.fps kept.capacity kept.fill
  | configure bitrateBps =>
    rw [RateController.call]
    by_cases positive : 0 < bitrateBps
    · have fill : 0 ≤ (rc.configure bitrateBps).alloc.bucket.fillBits ∧ _ := configure_fill positive
      refine ⟨?_, ?_, fill.1.trans fill.2, fill.1⟩
      · rw [RateController.configure, if_neg (not_le.mpr positive)]
        exact positive
      · rw [RateController.configure, if_neg (not_le.mpr positive)]
        exact kept.fps
    · have ignored : rc.configure bitrateBps = rc := if_pos (not_lt.mp positive)
      rw [ignored]
      exact kept

omit [IsStrictOrderedRing K] in
/-- A run of calls. -/
theorem run_kept (kept : rc.Kept) {calls : List (RcCall K)} (sized : ∀ c ∈ calls, c.Sized) : (rc.run fns calls).Kept := by
  induction calls generalizing rc with
  | nil => exact kept
  | cons c calls ih =>
    obtain ⟨first, later⟩ := List.forall_mem_cons.mp sized
    exact ih (call_kept kept first) later

/-- What `solve` gives in a state. -/
structure Solves (fns : LogExp K) (rc : RateController K) (pt : K) (frameType : RcFrameType) (overhead : Int) : Prop where
  range : (rc.solve fns pt frameType overhead).1 = kQDrop ∨
    0 ≤ (rc.solve fns pt frameType overhead).1 ∧ (rc.solve fns pt frameType overhead).1 ≤ 63
  dropped : (rc.solve fns pt frameType overhead).1 = kQDrop ↔ (rc.solve fns pt frameType overhead).2.curAllocated = 0
  room : (rc.solve fns pt frameType overhead).1 ≠ kQDrop →
    ((lbCalcFill rc.alloc.bucket pt + (rc.solve fns pt frameType overhead).2.curAllocated : Int) : K) ≤
      9 / 10 * rc.alloc.bucket.capacityBits
  bucket : (rc.solve fns pt frameType overhead).2.alloc = rc.alloc
  models : (rc.solve fns pt frameType overhead).2.mI = rc.mI ∧ (rc.solve fns pt frameType overhead).2.mLtr = rc.mLtr ∧
    (rc.solve fns pt frameType overhead).2.mPIdr = rc.mPIdr ∧ (rc.solve fns pt frameType overhead).2.mPLtr = rc.mPLtr

theorem solve_solves (kept : rc.Kept) (pt : K) (frameType : RcFrameType) (overhead : Int) :
    Solves fns rc pt frameType overhead := by
  obtain ⟨nonneg, room⟩ : 0 ≤ (rc.solve fns pt frameType overhead).2.curAllocated ∧ _ :=
    raAllocate_range kept.bitrate kept.fps kept.capacity (frameWeight_nonneg rc frameType)
  obtain ⟨q, range, result⟩ : ∃ q : Int, (0 ≤ q ∧ q ≤ 63) ∧ (rc.solve fns pt frameType overhead).1 =
      if (rc.solve fns pt frameType overhead).2.curAllocated ≤ 0 then kQDrop else q :=
    ⟨_, rqSolveQ_range (rc.modelFor frameType) _, rfl⟩
  have drop : kQDrop = -1 := rfl
  by_cases empty : (rc.solve fns pt frameType overhead).2.curAllocated = 0
  · rw [if_pos empty.le] at result
    exact {
      range := Or.inl result
      dropped := ⟨fun _ => empty, fun _ => result⟩
      room := fun solved => absurd result solved
      bucket := rfl
      models := ⟨rfl, rfl, rfl, rfl⟩ }
  · rw [if_neg (by omega)] at result
    exact {
      range := Or.inr (by rw [result]; exact range)
      dropped := by
        rw [result, drop]
        constructor
        · omega
        · exact fun zero => absurd zero empty
      room := fun _ => room empty
      bucket := rfl
      models := ⟨rfl, rfl, rfl, rfl⟩ }

/-- **The laws of a controller's state**, and of the calls that are made in it. -/
structure Lawful (fns : LogExp K) (rc : RateController K) : Prop where
  fill : 0 ≤ rc.alloc.bucket.fillBits
  configured : ∀ bitrateBps, 0 < bitrateBps →
    (rc.configure bitrateBps).alloc.bucket.fillBits ≤ (rc.configure bitrateBps).alloc.bucket.capacityBits
  ignored : ∀ bitrateBps, bitrateBps ≤ 0 → rc.configure bitrateBps = rc
  updated : rc.havePending = true → ∀ headerBits payloadBits, 0 ≤ headerBits → 0 ≤ payloadBits →
    0 ≤ (rc.update fns headerBits payloadBits).alloc.accumExcessBits ∧
      ((rc.update fns headerBits payloadBits).alloc.accumExcessBits : K) ≤
        (rc.update fns headerBits payloadBits).alloc.bucket.capacityBits / 2
  unasked : rc.havePending = false → ∀ headerBits payloadBits, rc.update fns headerBits payloadBits = rc
  solves : ∀ pt frameType overhead, Solves fns rc pt frameType overhead

theorem Lawful.of_kept (kept : rc.Kept) : Lawful fns rc where
  fill := kept.fill
  configured bitrateBps positive := (configure_fill positive).2
  ignored bitrateBps off := if_pos off
  updated := by
    intro pending headerBits payloadBits _ _
    have alloc := update_alloc fns rc headerBits payloadBits
    rw [if_pos pending] at alloc
    rw [alloc]
    exact raPlannedExcess_range kept.capacity rc.curPt rc.curWeight
  unasked := by
    intro idle headerBits payloadBits
    rw [RateController.update, if_pos (by rw [idle]; rfl)]
  solves := solve_solves kept

/-- **The laws hold after every run** of a controller. -/
theorem run_lawful {width height : Nat} {bitrateBps fps : K}
    (created : RateController.create width height bitrateBps fps = .ok rc) (fns : LogExp K) (calls : List (RcCall K))
    (sized : ∀ c ∈ calls, c.Sized) : Lawful fns (rc.run fns calls) :=
  .of_kept (run_kept (create_kept created) sized)

end Run

/-- `log` and `exp` that tell nothing. -/
def flatLogExp : LogExp ℚ := { log := fun _ => 0, exp := fun _ => 1 }

/-- A controller of 100 bits and one frame a second is there. -/
theorem slow_created : ∃ rc : RateController ℚ, RateController.create 1 1 100 1 = .ok rc := by
  unfold RateController.create
  rw [if_neg (by norm_num)]
  exact ⟨_, rfl⟩

/-- The laws behind an I frame of 500 bits. -/
theorem run_lawful_slow : ∃ rc : RateController ℚ, RateController.create 1 1 100 1 = .ok rc ∧
    Lawful flatLogExp (rc.run flatLogExp [.solve 0 .I 0, .update 0 500]) := by
  obtain ⟨rc, created⟩ := slow_created
  refine ⟨rc, created, run_lawful created flatLogExp _ ?_⟩
  simp [RcCall.Sized]

/-- The fill, the capacity and the excess behind some calls. -/
def slowRun (calls : List (RcCall ℚ)) : Option (Int × Int × Int) :=
  (RateController.create 1 1 (100 : ℚ) 1).toOption.map fun rc =>
    let a := (rc.run flatLogExp calls).alloc
    (a.bucket.fillBits, a.bucket.capacityBits, a.accumExcessBits)

/-- **Calls that are ignored** leave the bucket above its capacity, and an excess of more than half of it. -/
theorem run_ignored :
    slowRun [.solve 0 .I 0, .update 0 500, .configure 0] = some (500, 100, 50) ∧
      slowRun [.solve 0 .I 0, .update 0 0, .configure 10, .update 0 0] = some (0, 10, 50) := by
  constructor
  · decide +kernel
  · decide +kernel

end Rkvc.Mlvc
