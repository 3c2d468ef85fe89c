import Mathlib.Algebra.Order.Floor.Ring
import Rkvc.Core.Status

/-!
# Rate control

`RateController`: a leaky bucket, an allocator over it, and four R-Q models that
turn the bits of a frame into a QP. `double` is an ordered field with a floor,
`log` and `exp` are any functions on it, and the casts truncate. The 64-bit
quantities are exact.
-/

namespace Rkvc.Mlvc
set_option autoImplicit false

inductive RcFrameType where
  | I | P | ltrRecovery
  deriving DecidableEq, Repr

def kQDrop : Int := -1

variable {K : Type} [Field K] [LinearOrder K] [FloorRing K]

/-! ## Arithmetic -/

/-- `log` and `exp`. -/
structure LogExp (K : Type) where
  log : K → K
  exp : K → K

/-- `static_cast<int64_t>`. -/
def truncate (x : K) : Int := if 0 ≤ x then ⌊x⌋ else ⌈x⌉

/-- Half to even. -/
def nearbyint (x : K) : Int :=
  let k := ⌊x⌋
  if x - k < 1 / 2 then k else if 1 / 2 < x - k then k + 1 else k + k % 2

def kBucketSecs : K := 1
def kInitLevel : K := 1 / 10
def kTargetLevel : K := 1 / 10
def kOvershootTau : K := 1 / 4
def kUndershootTau : K := 1
def kPlannedExcessTau : K := 1 / 2

/-! ## State -/

structure LeakyBucket (K : Type) where
  bitrate : K
  fps : K
  capacityBits : Int
  fillBits : Int
  haveLastTs : Bool
  lastDrainTs : K

structure Allocator (K : Type) where
  bucket : LeakyBucket K
  accumExcessBits : Int

structure Rq (K : Type) where
  initialAlpha : K
  beta : K
  alphaTau : K
  seedAlphaTau : K
  haveBetaRamp : Bool
  betaRampTarget : K
  betaRampDuration : K
  seedAlpha : K
  alpha : K
  curBeta : K
  numUpdates : Nat

structure RateController (K : Type) where
  width : Nat
  height : Nat
  alloc : Allocator K
  mI : Rq K
  mLtr : Rq K
  mPIdr : Rq K
  mPLtr : Rq K
  lastRecovery : RcFrameType
  curPt : K
  curType : RcFrameType
  curWeight : K
  curAllocated : Int
  curQ : Int
  havePending : Bool
  prevWeight : K

/-! ## Leaky bucket -/

def lbInit (bitrate fps : K) : LeakyBucket K :=
  let capacityBits := truncate (bitrate * kBucketSecs)
  { bitrate, fps, capacityBits
    fillBits := truncate (kInitLevel * (capacityBits : K))
    haveLastTs := false
    lastDrainTs := 0 }

/-- Seconds since the last drain, or one frame. -/
def LeakyBucket.drainSecs (b : LeakyBucket K) (pt : K) : K := if b.haveLastTs then pt - b.lastDrainTs else 1 / b.fps

def lbDrainBits (b : LeakyBucket K) (pt : K) : Int :=
  let drain := truncate (b.drainSecs pt * b.bitrate)
  if drain < b.fillBits then drain else b.fillBits

def lbCalcFill (b : LeakyBucket K) (pt : K) : Int := b.fillBits - lbDrainBits b pt

def lbUpdate (b : LeakyBucket K) (pt : K) (frameBits : Int) : LeakyBucket K :=
  { b with fillBits := lbCalcFill b pt + frameBits, lastDrainTs := pt, haveLastTs := true }

/-! ## Allocation -/

def raPlannedExcess (a : Allocator K) (pt weight : K) : Int :=
  let decay := truncate ((a.bucket.drainSecs pt / kPlannedExcessTau) * (a.accumExcessBits : K))
  let excess := truncate ((weight - 1) * (a.bucket.bitrate / a.bucket.fps))
  let maxExcess := truncate (1 / 2 * (a.bucket.capacityBits : K))
  let excess := if excess < 0 then 0 else excess
  let v := a.accumExcessBits - decay + excess
  let v := if v < 0 then 0 else v
  if v > maxExcess then maxExcess else v

def raAllocate (a : Allocator K) (pt weight undershootTauOverride : K) : Int :=
  let b := a.bucket
  let nominal := truncate (weight * (b.bitrate / b.fps))
  let plannedExcess := raPlannedExcess a pt weight
  let targetFill := truncate (kTargetLevel * (b.capacityBits : K)) + plannedExcess
  let currentFill := lbCalcFill b pt
  let errorBits := targetFill - (currentFill + nominal)
  let tau :=
    if errorBits ≥ 0 then if undershootTauOverride > 0 then undershootTauOverride else kUndershootTau
    else kOvershootTau
  let correction := truncate (1 / (tau * b.fps) * (errorBits : K))
  let bucketMax := truncate (9 / 10 * (b.capacityBits : K))
  let headroom := bucketMax - currentFill
  let allocated := nominal + correction
  let allocated := if allocated > headroom then headroom else allocated
  let lo := truncate (33 / 100 * (nominal : K))
  let hi := truncate (2 * (nominal : K))
  let allocated := if allocated < lo then lo else allocated
  let allocated := if allocated > hi then hi else allocated
  if currentFill + allocated > bucketMax then 0 else allocated

def raUpdate (a : Allocator K) (pt weight : K) (frameBits : Int) : Allocator K :=
  { accumExcessBits := raPlannedExcess a pt weight, bucket := lbUpdate a.bucket pt frameBits }

/-! ## R-Q models -/

def rqInit (alpha0 beta : K) (haveRamp : Bool) (rampTarget rampDuration : K) : Rq K where
  initialAlpha := alpha0
  beta := beta
  alphaTau := 2
  seedAlphaTau := 2
  haveBetaRamp := haveRamp
  betaRampTarget := rampTarget
  betaRampDuration := rampDuration
  seedAlpha := alpha0
  alpha := alpha0
  curBeta := beta
  numUpdates := 0

def rqReset (m : Rq K) : Rq K := { m with alpha := m.seedAlpha, curBeta := m.beta, numUpdates := 0 }

def rqSolveQ (fns : LogExp K) (m : Rq K) (bpp : K) : Int :=
  let q := nearbyint (-fns.log ((if bpp > 1 / 10 ^ 9 then bpp else 1 / 10 ^ 9) / m.alpha) / m.curBeta)
  let q := if q < 0 then 0 else q
  if q > 63 then 63 else q

/-- The ramp of `rq_update`. -/
def rqRamp (fns : LogExp K) (m : Rq K) (qIndex : Int) : Rq K :=
  if m.haveBetaRamp then
    let progress := (m.numUpdates : K) / (if m.betaRampDuration > 1 then m.betaRampDuration else 1)
    let progress := if progress > 1 then 1 else progress
    let newBeta := m.beta + progress * (m.betaRampTarget - m.beta)
    { m with alpha := m.alpha * fns.exp ((newBeta - m.curBeta) * (qIndex : K)), curBeta := newBeta }
  else m

def rqUpdate (fns : LogExp K) (m : Rq K) (qIndex : Int) (bpp : K) : Rq K :=
  let observedAlpha := bpp * fns.exp (m.curBeta * (qIndex : K))
  let trained :=
    { m with
      alpha := m.alpha + 1 / m.alphaTau * (observedAlpha - m.alpha)
      seedAlpha :=
        if m.numUpdates = 0 then m.seedAlpha + 1 / m.seedAlphaTau * (observedAlpha - m.seedAlpha) else m.seedAlpha
      numUpdates := m.numUpdates + 1 }
  rqRamp fns trained qIndex

/-! ## The controller -/

namespace RateController

def create (width height : Nat) (bitrateBps fps : K) : Result (RateController K) :=
  if width = 0 ∨ height = 0 ∨ bitrateBps ≤ 0 ∨ fps ≤ 0 then
    Result.reject .invalid "create" "ratectl" "bad geometry or rate"
  else
    .ok
      { width, height
        alloc := { bucket := lbInit bitrateBps fps, accumExcessBits := 0 }
        mI := rqInit (4969 / 100000) (-3626 / 100000) false 0 0
        mLtr := rqInit (1047 / 100000) (-5306 / 100000) false 0 0
        mPIdr := rqInit (2156 / 100000) (-3173 / 100000) true (-7654 / 100000) 9
        mPLtr := rqInit (315 / 100000) (-5925 / 100000) true (-8307 / 100000) 9
        lastRecovery := .I
        curPt := 0
        curType := .P
        curWeight := 0
        curAllocated := 0
        curQ := 0
        havePending := false
        prevWeight := 1 }

def configure (rc : RateController K) (bitrateBps : K) : RateController K :=
  if bitrateBps ≤ 0 then rc
  else
    let b := rc.alloc.bucket
    let excess := b.fillBits - truncate (kInitLevel * (b.capacityBits : K))
    let newCapacity := truncate (bitrateBps * kBucketSecs)
    let newFill := truncate (kInitLevel * (newCapacity : K)) + excess
    let newFill := if newFill < 0 then 0 else newFill
    let newFill := if newFill > newCapacity then newCapacity else newFill
    let bucket := { b with bitrate := bitrateBps, capacityBits := newCapacity, fillBits := newFill }
    { rc with alloc := { rc.alloc with bucket } }

def modelFor (rc : RateController K) : RcFrameType → Rq K
  | .I => rc.mI
  | .ltrRecovery => rc.mLtr
  | .P => if rc.lastRecovery = .I then rc.mPIdr else rc.mPLtr

/-- Write through the pointer that `model_for` returns. -/
def setModel (rc : RateController K) (m : Rq K) : RcFrameType → RateController K
  | .I => { rc with mI := m }
  | .ltrRecovery => { rc with mLtr := m }
  | .P => if rc.lastRecovery = .I then { rc with mPIdr := m } else { rc with mPLtr := m }

def frameWeight (rc : RateController K) (t : RcFrameType) : K :=
  let w := rc.prevWeight + 1 / 2 * (1 - rc.prevWeight)
  let typeW : K :=
    match t with
    | .I => 10
    | .ltrRecovery => 6
    | .P => 1
  if typeW > w then typeW else w

/-- What `solve` takes for the time constant of an undershoot. -/
def undershootTau (frameType : RcFrameType) : K := if frameType = .I ∨ frameType = .ltrRecovery then 100 else -1

/-- The next QP, or `kQDrop`. -/
def solve (fns : LogExp K) (rc : RateController K) (presentationTime : K) (frameType : RcFrameType)
    (reservedOverheadBits : Int) : Int × RateController K :=
  let weight := rc.frameWeight frameType
  let undershootTau : K := if frameType = .I ∨ frameType = .ltrRecovery then 100 else -1
  let allocated := raAllocate rc.alloc presentationTime weight undershootTau
  let targetBpp : K := ((allocated - reservedOverheadBits : Int) : K)
  let targetBpp := if targetBpp < 0 then 0 else targetBpp
  let targetBpp := targetBpp / ((rc.width : K) * (rc.height : K))
  let q := rqSolveQ fns (rc.modelFor frameType) targetBpp
  let rc :=
    { rc with
      curPt := presentationTime
      curType := frameType
      curWeight := weight
      curAllocated := allocated
      curQ := q
      havePending := true }
  (if allocated ≤ 0 then kQDrop else q, rc)

/-- `rq_update`, and the resets behind a frame that starts over. -/
def train (fns : LogExp K) (rc : RateController K) (payloadBits : Int) : RateController K :=
  let pixels : K := (rc.width : K) * (rc.height : K)
  let rc := rc.setModel (rqUpdate fns (rc.modelFor rc.curType) rc.curQ ((payloadBits : K) / pixels)) rc.curType
  if rc.curType = .I ∨ rc.curType = .ltrRecovery then
    { rc with mPIdr := rqReset rc.mPIdr, mPLtr := rqReset rc.mPLtr, lastRecovery := rc.curType }
  else rc

def update (fns : LogExp K) (rc : RateController K) (headerBits payloadBits : Int) : RateController K :=
  if !rc.havePending then rc
  else
    let rc :=
      { rc with
        havePending := false
        alloc := raUpdate rc.alloc rc.curPt rc.curWeight (headerBits + payloadBits) }
    let rc := if payloadBits > 0 then rc.train fns payloadBits else rc
    { rc with prevWeight := rc.curWeight }

end RateController

/-! ## What is solved for -/

variable {fns : LogExp K} {rc : RateController K} {pt : K} {t : RcFrameType} {overhead : Int}

/-- A QP of the range. -/
theorem rqSolveQ_range (m : Rq K) (bpp : K) : 0 ≤ rqSolveQ fns m bpp ∧ rqSolveQ fns m bpp ≤ 63 := by
  simp only [rqSolveQ]
  split <;> split <;> omega

theorem solve_eq (fns : LogExp K) (rc : RateController K) (pt : K) (t : RcFrameType) (overhead : Int) :
    ∃ (allocated : Int) (bpp : K), (rc.solve fns pt t overhead).1 =
      if allocated ≤ 0 then kQDrop else rqSolveQ fns (rc.modelFor t) bpp :=
  ⟨_, _, rfl⟩

theorem solve_range (solved : (rc.solve fns pt t overhead).1 ≠ kQDrop) :
    0 ≤ (rc.solve fns pt t overhead).1 ∧ (rc.solve fns pt t overhead).1 ≤ 63 := by
  obtain ⟨allocated, bpp, eq⟩ := solve_eq fns rc pt t overhead
  rw [eq] at solved ⊢
  by_cases empty : allocated ≤ 0
  · rw [if_pos empty] at solved
    exact absurd rfl solved
  · rw [if_neg empty]
    exact rqSolveQ_range (rc.modelFor t) bpp

/-! ## What is charged -/

omit [Field K] [LinearOrder K] [FloorRing K] in
theorem setModel_alloc (m : Rq K) (t : RcFrameType) : (rc.setModel m t).alloc = rc.alloc := by
  cases t with
  | I => rfl
  | ltrRecovery => rfl
  | P =>
    simp only [RateController.setModel]
    split <;> rfl

omit [FloorRing K] in
theorem train_alloc {payloadBits : Int} : (rc.train fns payloadBits).alloc = rc.alloc := by
  simp only [RateController.train]
  split
  · exact setModel_alloc _ _
  · exact setModel_alloc _ _

/-- The allocator is charged with a frame that was solved for. -/
theorem update_alloc (fns : LogExp K) (rc : RateController K) (headerBits payloadBits : Int) :
    (rc.update fns headerBits payloadBits).alloc =
      if rc.havePending then raUpdate rc.alloc rc.curPt rc.curWeight (headerBits + payloadBits) else rc.alloc := by
  by_cases pending : rc.havePending = true
  · rw [if_pos pending, RateController.update, if_neg (by simp [pending])]
    dsimp only
    by_cases coded : payloadBits > 0
    · rw [if_pos coded, train_alloc]
    · rw [if_neg coded]
  · rw [if_neg pending, RateController.update, if_pos (by simpa using pending)]

end Rkvc.Mlvc
