import Rkvc.Mlvc.Records

/-!
# From the encoder to the decoder

What a coded record carries: its flags are the kind of the frame, and a decoder with the
coders and the geometry of the encoder reads the latents back from its payload.
-/

namespace Rkvc.Mlvc
set_option autoImplicit false
open Lib Pixel

/-! ## The flags -/

theorem recFlags_bits (kind : FrameKind) :
    (kind.recFlags &&& kRecKeyframe ≠ 0 ↔ kind.isIdr = true) ∧
      (kind.recFlags &&& kRecLtrMark ≠ 0 ↔ kind.markLtr = true) ∧
      (kind.recFlags &&& kRecLtrRecovery ≠ 0 ↔ kind.isRecovery = true) := by
  obtain ⟨idr, mark, recovery⟩ := kind
  cases idr <;> cases mark <;> cases recovery <;> decide

/-! ## The payload -/

section Payload

theorem rounded_length {n : Nat} {t : List UInt16} (long : ¬t.length < n) : (rounded n t).length = n := by
  rw [rounded, List.length_map, List.length_take]
  omega

/-- Outputs that can be coded hold all the latents, and a finite feature for the slots. -/
theorem codable_spec {b : EncoderBinding} {output : Nat → List UInt16} {refN : Nat}
    (h : b.codable output refN = true) :
    (b.latents output).Sized b.geom ∧ (output b.featOut).length = refN ∧ allFinite (output b.featOut) = true := by
  simp only [EncoderBinding.codable, Bool.not_eq_true', Bool.or_eq_false_iff, decide_eq_false_iff_not, ne_eq,
    Decidable.not_not] at h
  obtain ⟨⟨⟨⟨⟨⟨⟨z, y0⟩, y1⟩, feat⟩, -⟩, -⟩, -⟩, finite⟩ := h
  exact ⟨⟨rounded_length z, rounded_length y0, rounded_length y1⟩, feat, by simpa using finite⟩

/-- No stream opens without its state. -/
theorem decodePayload_nonempty {g b : RansCoder} {cfg : EntropyConfig} {geom : Geometry} {zIdx : List Int32}
    {latents : Latents} {scales : Scales} {out : Latents × Scales} {payload : List UInt8}
    (h : decodePayload g b cfg geom zIdx latents scales payload = .ok out) : payload ≠ [] := by
  rintro rfl
  have refused : ((RansDecoder.new .byte).open []).1 ≠ .ok := by decide
  simp only [decodePayload, if_pos refused] at h
  cases h

variable {K : Type} [Field K] [LinearOrder K] [FloorRing K]
variable {e : Encoder} {s : EncoderState K} {input : HostFrame} {step : EncodeStep K} {kind : FrameKind}
  {rung : Nat} {usedQp : Int} {refs : Refs} {npu : NpuModel} {feed : Feed} {bits : List UInt8}

/-- **A coded payload gives the latents back.** -/
theorem Coded.decodes (h : Coded e s input step kind rung usedQp refs npu feed bits) (bound : e.bound.Bound)
    (fit : s.Fit e) {old : Latents} {other : Scales} (old_sized : old.Sized e.bound.geom)
    (other_sized : other.Sized e.bound.geom) :
    decodePayload e.bound.gCoder e.bound.bCoder e.bound.entropy e.bound.geom (buildZIdx usedQp e.bound.geom) old other
      bits = .ok (e.bound.latents (npu.output feed), step.state.scales) := by
  have range := h.range bound
  obtain ⟨refN, codable⟩ := h.codable
  obtain ⟨sized, -⟩ := codable_spec codable
  have nonneg := buildZIdx_nonneg range.1 (zIdx_fits bound.coders bound.geom range.2)
  have payload := h.payload
  have fits : e.bound.geom.NoOverflow e.bound.entropy := by
    by_contra wide
    rw [payload_of_overflow bound.coders bound.geom wide] at payload
    cases payload
  obtain ⟨bytes, out, encoded, decoded⟩ := payload_of_noOverflow bound.coders bound.geom fits sized fit.scales old_sized
    other_sized (buildZIdx_length _ _) nonneg
  rw [encoded] at payload
  cases payload
  exact decoded

/-- Zeros of the geometry's sizes. -/
theorem zeros_sized (geom : Geometry) :
    (Latents.mk (List.replicate geom.zSize 0) (List.replicate geom.ySize 0) (List.replicate geom.ySize 0)).Sized geom ∧
      (Scales.mk (List.replicate geom.ySize 0) (List.replicate geom.ySize 0)).Sized geom :=
  ⟨⟨List.length_replicate, List.length_replicate, List.length_replicate⟩,
    ⟨List.length_replicate, List.length_replicate⟩⟩

/-- A coded payload holds the coder's state. -/
theorem Coded.nonempty (h : Coded e s input step kind rung usedQp refs npu feed bits) (bound : e.bound.Bound)
    (fit : s.Fit e) : bits ≠ [] := by
  obtain ⟨latents, scales⟩ := zeros_sized e.bound.geom
  exact decodePayload_nonempty (h.decodes bound fit latents scales)

end Payload

/-! ## The record -/

section Record

variable {K : Type} {e : Encoder} {s : EncoderState K} {input : HostFrame} {step : EncodeStep K}

/-- The record of a step, as a decoder reads it. -/
def EncodeStep.view (step : EncodeStep K) : View :=
  match readRecord step.record with
  | .record v => v
  | _ => {}

theorem view_eq {v : View} (record : step.record = v.write) (wellformed : v.Wellformed) : step.view = v := by
  have read := readRecord_write wellformed []
  rw [List.append_nil] at read
  rw [EncodeStep.view, record, read]

/-- A payload that fits into a record. -/
def EncodeStep.Short (step : EncodeStep K) : Prop := step.record.length ≤ kRecSize + kMaxFrameBytes

variable [Field K] [LinearOrder K] [FloorRing K]

/-- What is in the record of a step. -/
theorem step_view (bound : e.bound.Bound) (fit : s.Fit e) (short : step.Short)
    (made : Dropped s input step ∨ ∃ kind rung usedQp refs npu feed bits,
      Coded e s input step kind rung usedQp refs npu feed bits) :
    step.record = step.view.write ∧ step.view.Wellformed ∧
      ((Dropped s input step ∧ step.view = droppedView) ∨
        ∃ kind rung usedQp refs npu feed bits, Coded e s input step kind rung usedQp refs npu feed bits ∧
          step.view = codedView kind usedQp bits ∧ step.view.qIndex.toInt = usedQp ∧
          step.view.qIndex ≠ kQindexDropped) := by
  rcases made with dropped | ⟨kind, rung, usedQp, refs, npu, feed, bits, coded⟩
  · have data : droppedView.write = (if s.frameCount = 0 then writeHeader {} else []) ++ droppedView.write := by
      rw [if_neg dropped.later, List.nil_append]
    have record := record_eq dropped.packet data dropped.frameCount
    have wellformed : droppedView.Wellformed := by decide
    have view := view_eq record wellformed
    rw [view]
    exact ⟨record, wellformed, .inl ⟨dropped, rfl⟩⟩
  · have record := coded.record
    obtain ⟨value, undropped⟩ := coded.qIndex bound
    rw [qIndex_eq record] at value undropped
    have wellformed : (codedView kind usedQp bits).Wellformed := by
      have long := List.length_pos_iff.mpr (coded.nonempty bound fit)
      rw [EncodeStep.Short, record, write_length, View.size] at short
      rw [View.Wellformed, if_neg (show ¬(codedView kind usedQp bits).drop = true from Bool.false_ne_true)]
      exact ⟨undropped, long, Nat.le_of_add_le_add_left short⟩
    have view := view_eq record wellformed
    rw [view]
    exact ⟨record, wellformed, .inr ⟨kind, rung, usedQp, refs, npu, feed, bits, coded, rfl, value, undropped⟩⟩

end Record

end Rkvc.Mlvc
