import Mathlib.Data.Rat.Floor
import Rkvc.Mlvc.Coding

/-!
# The QPs of a qp-dynamic encoder

`bind_model` takes tables of any number of rows, and nothing keeps the QP of a frame below
it: `qptab_row` feeds the last row instead, and the decoder refuses the record. The session's
QP is coded with until a frame asks for a bitrate; rate control then gives any of 64.
-/

namespace Rkvc.Mlvc
set_option autoImplicit false
open Lib Pixel

section Covered

variable {K : Type} {e : Encoder} {s : EncoderState K} {input : HostFrame} {step : EncodeStep K}

/-- The record behind the header of a first frame. -/
theorem record_eq {p : Packet} {hdr : Header} {v : View} (packet : step.packet = some p)
    (data : p.data = (if s.frameCount = 0 then writeHeader hdr else []) ++ v.write)
    (count : step.state.frameCount = s.frameCount + 1) : step.record = v.write := by
  have first : step.state.frameCount = 1 ↔ s.frameCount = 0 := by
    rw [count]
    constructor
    · intro one
      exact (UInt32.add_left_inj 1).mp (one.trans (UInt32.zero_add 1).symm)
    · intro zero
      rw [zero, UInt32.zero_add]
  simp only [EncodeStep.record, packet, Option.map_some, Option.getD_some, data, first]
  split
  · rw [← writeHeader_length hdr, List.drop_left]
  · rw [List.nil_append, List.drop_zero]

theorem qIndex_eq {v : View} (record : step.record = v.write) : step.qIndex = v.qIndex := by
  have words := (write_words v []).2.1
  rw [List.append_nil] at words
  rw [EncodeStep.qIndex, record, words]

theorem Dropped.qIndex (h : Dropped s input step) : step.qIndex = kQindexDropped := by
  have data : droppedView.write = (if s.frameCount = 0 then writeHeader {} else []) ++ droppedView.write := by
    rw [if_neg h.later, List.nil_append]
  exact qIndex_eq (record_eq h.packet data h.frameCount)

variable [Field K] [LinearOrder K] [FloorRing K]
variable {kind : FrameKind} {rung : Nat} {usedQp : Int} {refs : Refs} {npu : NpuModel} {feed : Feed}
  {bits : List UInt8}

theorem Coded.record (h : Coded e s input step kind rung usedQp refs npu feed bits) :
    step.record = (codedView kind usedQp bits).write := by
  obtain ⟨hdr, -, -, -, packet⟩ := h.packet
  exact record_eq packet rfl h.frameCount

/-- The QP that a coded frame is coded with. -/
theorem Coded.range (h : Coded e s input step kind rung usedQp refs npu feed bits) (bound : e.bound.Bound) :
    0 ≤ usedQp ∧ usedQp ≤ 63 := by
  obtain ⟨q, selected, origin⟩ := h.qp
  refine selected.range bound ?_
  rcases origin with ⟨-, rfl⟩ | ⟨-, range⟩
  · exact bound.qp
  · exact range

theorem Coded.qIndex (h : Coded e s input step kind rung usedQp refs npu feed bits) (bound : e.bound.Bound) :
    step.qIndex.toInt = usedQp ∧ step.qIndex ≠ kQindexDropped := by
  have range := h.range bound
  have value : step.qIndex.toInt = usedQp := by
    rw [qIndex_eq h.record, codedView]
    exact Int32.toInt_ofInt_of_le (by omega) (by omega)
  refine ⟨value, fun dropped => ?_⟩
  have minus : kQindexDropped.toInt = -1 := rfl
  rw [dropped, minus] at value
  omega

/-- A frame of a qp-dynamic encoder is coded with the QP that was chosen for it. -/
theorem Coded.chosen (h : Coded e s input step kind rung usedQp refs npu feed bits)
    (present : e.bound.qrows.present = true) : step.state.rc = none → usedQp = e.bound.qp := by
  intro off
  obtain ⟨q, selected, origin⟩ := h.qp
  have qp := selected.qp
  rw [if_pos present] at qp
  rcases origin with ⟨-, session⟩ | ⟨on, -⟩
  · exact qp.trans session
  · exact absurd off on

end Covered

/-! ## Whole runs -/

section Runs

variable {K : Type} [Field K] [LinearOrder K] [FloorRing K]
variable {fns : LogExp K} {e : Encoder} {s : EncoderState K} {inputs : List HostFrame} {steps : List (EncodeStep K)}

end Runs

/-! ## A small bundle -/

section Small

/-- An encoder of one latent of each kind, which takes a row too if it is qp-dynamic. -/
def smallEncoderNpu (rows : Bool) : NpuModel where
  inputs :=
    [⟨nameOf "x", [1, 1, 1, 3]⟩, ⟨nameOf "ref_feature", [1, 1, 1, 1]⟩] ++
      if rows then [⟨nameOf "q_a_row", [1, 1, 1, 1]⟩] else []
  outputs :=
    [⟨nameOf "feature", [1, 1, 1, 1]⟩, ⟨nameOf "z_raw", [1, 1, 1, 1]⟩, ⟨nameOf "y_raw_0", [1, 1, 1, 1]⟩,
      ⟨nameOf "y_raw_1", [1, 1, 1, 1]⟩]
  accepts _ _ := .ok
  run _ := .ok
  output _ i := if i = 0 then [0x3c00] else [0x4000]

/-- A table of one column. -/
def smallTable (rows : Nat) : List UInt8 :=
  qptMagic ++ leBytes 4 1 ++ leBytes 4 7 ++ nameOf "q_a_row" ++ leBytes 4 rows ++ leBytes 4 1 ++
    (List.range rows).flatMap (leBytes 2 ·)

/-- Distributions of two symbols each. -/
def smallPmf (n : Nat) : List UInt8 :=
  pmfMagic ++ leBytes 4 n ++ leBytes 4 n ++ leBytes 4 (2 * n) ++ (List.replicate n (leBytes 4 2)).flatten ++
    (List.replicate n (leBytes 4 0)).flatten ++ (List.replicate (2 * n) (leBytes 4 1)).flatten

/-- Two QPs, and a table of so many rows. -/
def smallBundle (role : String) (rows : Nat) : Model where
  role := role
  payloads :=
    [⟨kKindPmfGaussian, smallPmf 1 ++ leBytes 4 1 ++ leBytes 8 0 ++ leBytes 8 0 ++ leBytes 4 1 ++ leBytes 4 1⟩,
      ⟨kKindPmfBitest, smallPmf 2 ++ leBytes 4 2 ++ leBytes 4 2 ++ leBytes 4 1⟩, ⟨kKindRknn, [1]⟩,
      ⟨kKindQptab, smallTable rows⟩]

def smallBackend (npu : NpuModel) : NpuModelFn where
  make := some fun _ _ _ => .ok npu

def smallFrame : HostFrame where
  spec := { width := 1, height := 1, fmt := .nv12 }
  data := [16, 128, 128]

def smallLogExp : LogExp ℚ where
  log _ := 0
  exp _ := 1

end Small

end Rkvc.Mlvc
