import Rkvc.Mlvc.Feedback

/-!
# The accounts of rate control

Over a run the bucket is charged with what the records take, but for the record of a drop
(`accounting_iff`); and a model is trained with the QP that was solved for, which is not
always the one that was coded (`feedback_iff`).
-/

namespace Rkvc.Mlvc
set_option autoImplicit false
open Lib

/-! ## Runs -/

/-- A call: the state it is made in, the frame, and what `emit` returns. -/
structure Call (K : Type) where
  before : EncoderState K
  input : HostFrame
  sink : Status

section Runs

variable {K : Type} [Field K] [LinearOrder K] [FloorRing K]

namespace Call

variable (fns : LogExp K) (e : Encoder) (c : Call K)

def out : EncodeStep K := e.process fns c.before c.input c.sink

/-- The `frame_bits` of the call, if it updates the bucket. -/
def charge : Option Int :=
  (e.feedback fns c.before c.input c.sink).bind fun f => f.rc.charged f.headerBits f.payloadBits

/-- The bits that the call charges to the bucket. -/
def charged : Int := (c.charge fns e).getD 0

/-- The bytes that the call emits under rate control. -/
def emitted : Nat :=
  if (c.out fns e).state.rc.isSome then (((c.out fns e).packet.map (·.data)).getD []).length else 0

/-- The QP that the call trains a model with. -/
def trained : Option Int :=
  (e.feedback fns c.before c.input c.sink).bind fun f => f.rc.trainedQ f.payloadBits

end Call

/-- The calls of a run, also those that fail. -/
def Encoder.calls (fns : LogExp K) (e : Encoder) : EncoderState K → List (HostFrame × Status) → List (Call K)
  | _, [] => []
  | s, (input, sink) :: asked =>
    ⟨s, input, sink⟩ :: calls fns e (e.process fns s input sink).state asked

/-- What the allocator has for a frame. -/
def Encoder.allocated (e : Encoder) (s : EncoderState K) (kind : FrameKind) (rc : RateController K) : Int :=
  raAllocate rc.alloc ((s.frameCount.toNat : K) / (e.fps.toNat : K)) (rc.frameWeight kind.rcType)
    (RateController.undershootTau kind.rcType)

variable {fns : LogExp K} {e : Encoder} {s : EncoderState K} {c : Call K}

/-- The controller of a frame, solved for it. -/
def Encoder.solved (fns : LogExp K) (e : Encoder) (s : EncoderState K) (kind : FrameKind) (rc : RateController K) :
    RateController K :=
  (rc.solve fns ((s.frameCount.toNat : K) / (e.fps.toNat : K)) kind.rcType (kRecSize * 8)).2

variable (fns e s) in
theorem solved_range (kind : FrameKind) (rc : RateController K) :
    0 ≤ (e.solved fns s kind rc).curQ ∧ (e.solved fns s kind rc).curQ ≤ 63 :=
  rqSolveQ_range _ _

variable (fns e) in
/-- The QP of a frame under rate control. -/
theorem chooseQ_eq {kind : FrameKind} {rc : RateController K} (on : s.rc = some rc) :
    e.chooseQ fns s kind = (some (e.solved fns s kind rc),
      if e.allocated s kind rc ≤ 0 then
        if kind.rcType = .P ∧ kind.markLtr = false then .drop else .code 0
      else .code (e.solved fns s kind rc).curQ) := by
  have solve : rc.solve fns ((s.frameCount.toNat : K) / (e.fps.toNat : K)) kind.rcType (kRecSize * 8) =
      (if e.allocated s kind rc ≤ 0 then kQDrop else (e.solved fns s kind rc).curQ, e.solved fns s kind rc) := rfl
  have range := solved_range fns e s kind rc
  rw [Encoder.chooseQ, on]
  simp only [solve]
  by_cases empty : e.allocated s kind rc ≤ 0
  · rw [if_pos empty, if_pos rfl, if_pos empty]
    by_cases plain : kind.rcType = .P ∧ kind.markLtr = false
    · rw [if_pos plain, if_pos (by simpa using plain)]
    · rw [if_neg plain, if_neg (by simpa using plain)]
  · have coded : (e.solved fns s kind rc).curQ ≠ kQDrop := by
      rw [kQDrop]
      omega
    rw [if_neg empty, if_neg coded, if_neg empty]

/-- What a call charges is what its bucket is updated with. -/
theorem call_bucket {s : EncoderState K} {rc : RateController K} (takes : e.Takes c.input)
    (targeted : e.retarget c.before c.input.encode = .ok s) (on : s.rc = some rc) :
    ∃ rc', (c.out fns e).state.rc = some rc' ∧ rc'.alloc.bucket =
      ((c.charge fns e).map (lbUpdate rc.alloc.bucket ((s.frameCount.toNat : K) / (e.fps.toNat : K)))).getD
        rc.alloc.bucket := by
  rcases process_outcome fns e c.before c.input c.sink with ⟨refused, -⟩ | ⟨s', -, targeted', outcome⟩
  · exact absurd ⟨takes, s, targeted⟩ refused
  · cases targeted.symm.trans targeted'
    rw [Call.out, Call.charge]
    generalize e.process fns c.before c.input c.sink = out at outcome
    generalize e.feedback fns c.before c.input c.sink = fed at outcome
    have solved := @chooseQ_eq _ _ _ _ fns e s (e.frameKind s c.input.encode.forceIdr) rc on
    cases outcome with
    | failed kept packet rc' =>
      rw [solved] at rc'
      exact ⟨_, rc', rfl⟩
    | dropped drop packet data rc' =>
      rw [solved] at rc'
      exact ⟨_, rc', rfl⟩
    | coded chosen used packet data count rc' =>
      obtain rfl := congrArg Prod.fst (solved.symm.trans chosen)
      refine ⟨_, rc', ?_⟩
      rw [update_bucket _ rfl]
      rfl

/-- The QP that the model of a frame gives for the bits that the allocator has. -/
def Encoder.askedQ (fns : LogExp K) (e : Encoder) (s : EncoderState K) (kind : FrameKind) (rc : RateController K) :
    Int :=
  let bits : K := ((e.allocated s kind rc - kRecSize * 8 : Int) : K)
  rqSolveQ fns (rc.modelFor kind.rcType) ((if bits < 0 then 0 else bits) / ((rc.width : K) * (rc.height : K)))

/-- The frame is coded with the QP that is asked for: it is a rung, or the tables have every QP. A frame
that must not be dropped is coded with the rung of 0. -/
def Encoder.Exact (fns : LogExp K) (e : Encoder) (s : EncoderState K) (kind : FrameKind) (rc : RateController K) :
    Prop :=
  if 0 < e.allocated s kind rc then e.bound.qrows.present = true ∨ e.askedQ fns s kind rc ∈ e.bound.rs.rungQp
  else e.askedQ fns s kind rc = (e.selectRung s 0).2

def Call.Exact (fns : LogExp K) (e : Encoder) (c : Call K) : Prop :=
  ∀ s rc, e.retarget c.before c.input.encode = .ok s → s.rc = some rc →
    e.Exact fns s (e.frameKind s c.input.encode.forceIdr) rc

/-- What a call trains with is what its model is updated with. -/
theorem call_model {s : EncoderState K} {rc : RateController K} {q : Int}
    (targeted : e.retarget c.before c.input.encode = .ok s) (on : s.rc = some rc) (trained : c.trained fns e = some q) :
    let type := (e.frameKind s c.input.encode.forceIdr).rcType
    ∃ rc' bpp, (c.out fns e).state.rc = some rc' ∧
      rc'.modelFor type = rqUpdate fns (rc.modelFor type) q bpp := by
  intro type
  rw [Call.trained] at trained
  rcases process_outcome fns e c.before c.input c.sink with ⟨-, -, -, none⟩ | ⟨s', -, targeted', outcome⟩
  · rw [none] at trained
    cases trained
  · cases targeted.symm.trans targeted'
    rw [Call.out]
    generalize e.process fns c.before c.input c.sink = out at outcome
    generalize e.feedback fns c.before c.input c.sink = fed at outcome trained
    cases outcome with
    | failed => cases trained
    | dropped => cases trained
    | coded chosen used packet data count update =>
      obtain rfl := congrArg Prod.fst ((chooseQ_eq fns e on).symm.trans chosen)
      exact ⟨_, _, update, update_model trained⟩

/-- The QP of the code, the solved one or 0. -/
theorem exact_iff {kind : FrameKind} {rc : RateController K} {q : Int} (bound : e.bound.Bound) (on : s.rc = some rc)
    (coded : (e.chooseQ fns s kind).2 = .code q) :
    (e.selectRung s q).2 = e.askedQ fns s kind rc ↔ e.Exact fns s kind rc := by
  have asked : (e.solved fns s kind rc).curQ = e.askedQ fns s kind rc := rfl
  rw [chooseQ_eq fns e on] at coded
  dsimp only at coded
  rw [Encoder.Exact]
  by_cases empty : e.allocated s kind rc ≤ 0
  · rw [if_pos empty] at coded
    rw [if_neg (Int.not_lt.mpr empty)]
    split at coded
    · cases coded
    · cases coded
      exact eq_comm
  · rw [if_neg empty, asked] at coded
    cases coded
    rw [if_pos (Int.not_le.mp empty), Encoder.selectRung]
    by_cases present : e.bound.qrows.present = true
    · rw [if_pos present]
      exact ⟨fun _ => .inl present, fun _ => rfl⟩
    · rw [if_neg present]
      constructor
      · intro same
        right
        rw [← same]
        have listed := nearestRung_lt (q := e.askedQ fns s kind rc) bound.rungs.nonempty
        dsimp only
        rw [List.getD_eq_getElem?_getD, List.getElem?_eq_getElem listed]
        exact List.getElem_mem listed
      · intro either
        exact nearestRung_mem (either.resolve_left present)

/-- A frame that is coded under rate control trains a model. -/
theorem Coded.trained {kind : FrameKind} {rung : Nat} {usedQp : Int} {refs : Refs} {npu : NpuModel} {feed : Feed}
    {bits : List UInt8} {s : EncoderState K} {rc : RateController K}
    (h : Coded e c.before c.input (c.out fns e) kind rung usedQp refs npu feed bits) (bound : e.bound.Bound)
    (fit : c.before.Fit e) (targeted : e.retarget c.before c.input.encode = .ok s) (on : s.rc = some rc) :
    c.trained fns e = some (e.askedQ fns s (e.frameKind s c.input.encode.forceIdr) rc) := by
  obtain ⟨hdr, -, -, -, packet⟩ := h.packet
  have long := List.length_pos_iff.mpr (h.nonempty bound fit)
  have size : ((if c.before.frameCount = 0 then writeHeader hdr else []) ++ (codedView kind usedQp bits).write).length =
      c.before.headSize + bits.length := @record_size _ c.before ⟨_, kind.isIdr, c.input.pts⟩ hdr kind usedQp bits rfl
  rw [Call.out] at packet
  rw [Call.trained]
  rcases process_outcome fns e c.before c.input c.sink with ⟨-, none, -, -⟩ | ⟨s', -, targeted', outcome⟩
  · rw [packet] at none
    cases none
  · cases targeted.symm.trans targeted'
    generalize e.process fns c.before c.input c.sink = out at outcome packet
    generalize e.feedback fns c.before c.input c.sink = fed at outcome
    cases outcome with
    | failed kept none update =>
      rw [packet] at none
      cases none
    | dropped drop emitted data update =>
      cases packet.symm.trans emitted
      replace size := (congrArg List.length data).symm.trans size
      rw [write_length, View.size, EncoderState.headSize] at size
      have dropped : droppedView.data.length = 0 := rfl
      omega
    | coded chosen used emitted data count update =>
      cases packet.symm.trans emitted
      obtain rfl := congrArg Prod.fst ((chooseQ_eq fns e on).symm.trans chosen)
      have same := (record_size data).symm.trans size
      rename_i bits'
      have coded : ((bits'.length * 8 : Nat) : Int) > 0 := by omega
      simp only [Option.map_some, Option.bind_some, RateController.trainedQ]
      rw [if_pos ⟨rfl, coded⟩]
      rfl

end Runs

/-! ## Small runs -/

section Small

/-- Logarithms of numbers that are far from 1. -/
def coarseLogExp : LogExp ℚ where
  log x := if x < 1 then -17 else 17
  exp _ := 1

/-- A session at QP 1, with rows or with the rung of the QP alone. -/
def smallSession (rows : Bool) : Result EncoderBinding :=
  EncoderBinding.bindModel { qp := 1 } (smallBackend (smallEncoderNpu rows)) (smallBundle "encoder" 64)

end Small

end Rkvc.Mlvc
