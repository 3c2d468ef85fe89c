import Rkvc.Mlvc.Transport

/-!
# What the encoder feeds back

`solve` leaves a pending frame in the controller, and the `update` behind a coded
frame charges its bits to the leaky bucket and trains the model that was solved
with. `process` makes at most one update, behind the record of a coded frame
(`process_outcome`).
-/

namespace Rkvc.Mlvc
set_option autoImplicit false
open Lib

/-! ## One update -/

section Update

variable {K : Type} {fns : LogExp K} {rc : RateController K} {headerBits payloadBits : Int}

namespace RateController

/-- The `frame_bits` that `update` passes to `lb_update`. -/
def charged (rc : RateController K) (headerBits payloadBits : Int) : Option Int :=
  if rc.havePending then some (headerBits + payloadBits) else none

/-- The `q_index` that `update` passes to `rq_update`. -/
def trainedQ (rc : RateController K) (payloadBits : Int) : Option Int :=
  if rc.havePending ∧ payloadBits > 0 then some rc.curQ else none

end RateController

variable [Field K] [LinearOrder K] [FloorRing K]

/-- The bucket changes by what is charged. -/
theorem update_bucket (bits : Option Int) (h : rc.charged headerBits payloadBits = bits) :
    (rc.update fns headerBits payloadBits).alloc.bucket =
      (bits.map (lbUpdate rc.alloc.bucket rc.curPt)).getD rc.alloc.bucket := by
  subst h
  rw [update_alloc, RateController.charged]
  by_cases pending : rc.havePending = true
  · rw [if_pos pending, if_pos pending]
    rfl
  · rw [if_neg pending, if_neg pending]
    rfl

/-- The model that was solved with is trained, or none is. -/
theorem update_model {q : Int} (h : rc.trainedQ payloadBits = some q) :
    (rc.update fns headerBits payloadBits).modelFor rc.curType =
      rqUpdate fns (rc.modelFor rc.curType) q ((payloadBits : K) / ((rc.width : K) * (rc.height : K))) := by
  obtain ⟨⟨pending, coded⟩, rfl⟩ : (rc.havePending = true ∧ payloadBits > 0) ∧ rc.curQ = q := by
    rw [RateController.trainedQ] at h
    split at h
    · rename_i both
      exact ⟨both, Option.some.inj h⟩
    · cases h
  rw [RateController.update, if_neg (by simp [pending])]
  dsimp only
  rw [if_pos coded]
  cases type : rc.curType with
  | I => simp [RateController.train, RateController.setModel, RateController.modelFor]
  | ltrRecovery => simp [RateController.train, RateController.setModel, RateController.modelFor]
  | P =>
    by_cases idr : rc.lastRecovery = .I
    · simp [RateController.train, RateController.setModel, RateController.modelFor, idr]
    · simp [RateController.train, RateController.setModel, RateController.modelFor, idr]

end Update

/-! ## One call -/

/-- A frame that `process` looks at. -/
def Encoder.Takes (e : Encoder) (input : HostFrame) : Prop :=
  (input.spec.fmt = .nv12 ∧ input.spec.domain = .host ∧ input.data ≠ []) ∧
    input.spec.width = e.bound.imgW.toNat ∧ input.spec.height = e.bound.imgH.toNat

/-- The bytes in front of the payload of a record. -/
def EncoderState.headSize {K : Type} (s : EncoderState K) : Nat := (if s.frameCount = 0 then kHdrSize else 0) + kRecSize

/-- An `update` that `process` makes: the controller it is made on, and its arguments. -/
structure Feedback (K : Type) where
  rc : RateController K
  headerBits : Int
  payloadBits : Int

section Calls

variable {K : Type} {fns : LogExp K} {e : Encoder} {s : EncoderState K} {input : HostFrame} {sink : Status}

theorem record_size {p : Packet} {hdr : Header} {kind : FrameKind} {usedQp : Int} {bits : List UInt8}
    (data : p.data = (if s.frameCount = 0 then writeHeader hdr else []) ++ (codedView kind usedQp bits).write) :
    p.data.length = s.headSize + bits.length := by
  rw [data, List.length_append, write_length, View.size, EncoderState.headSize]
  change _ + (kRecSize + bits.length) = _
  split
  · rw [writeHeader_length, Nat.add_assoc]
  · rw [List.length_nil, Nat.add_assoc]

theorem prepare_keeps (kind : FrameKind) (q : Int) :
    (e.prepare s kind q).rc = s.rc ∧ (e.prepare s kind q).frameCount = s.frameCount := by
  unfold Encoder.prepare
  generalize e.selectRung s q = selected
  obtain ⟨active, usedQp⟩ := selected
  by_cases stale : s.zIdxQp ≠ usedQp
  · simp only [if_pos stale]
    cases kind.isIdr <;> exact ⟨rfl, rfl⟩
  · simp only [if_neg stale]
    cases kind.isIdr <;> exact ⟨rfl, rfl⟩

variable [Field K] [LinearOrder K] [FloorRing K]

/-- The `update` of a call: behind a packet that is not a drop's, under rate control. -/
def Encoder.feedback (fns : LogExp K) (e : Encoder) (s : EncoderState K) (input : HostFrame) (sink : Status) :
    Option (Feedback K) :=
  match e.retarget s input.encode with
  | .error _ => none
  | .ok s' =>
    match e.chooseQ fns s' (e.frameKind s' input.encode.forceIdr) with
    | (some rc, .code _) => (e.process fns s input sink).packet.map fun p =>
        { rc, headerBits := (s.headSize * 8 : Nat), payloadBits := ((p.data.length - s.headSize) * 8 : Nat) }
    | _ => none

/-- What a call does in a state that has been retargeted. -/
inductive Outcome (fns : LogExp K) (e : Encoder) (s s' : EncoderState K) (input : HostFrame) (out : EncodeStep K) :
    Option (Feedback K) → Prop
  /-- The frame is solved for, and fails. -/
  | failed : (e.chooseQ fns s' (e.frameKind s' input.encode.forceIdr)).2 ≠ .drop → out.packet = none →
      out.state.rc = (e.chooseQ fns s' (e.frameKind s' input.encode.forceIdr)).1 →
      Outcome fns e s s' input out none
  /-- The frame is dropped, and its record emitted. -/
  | dropped {p : Packet} : (e.chooseQ fns s' (e.frameKind s' input.encode.forceIdr)).2 = .drop →
      out.packet = some p → p.data = droppedView.write →
      out.state.rc = (e.chooseQ fns s' (e.frameKind s' input.encode.forceIdr)).1 →
      Outcome fns e s s' input out none
  /-- The frame is coded, and its record fed back. -/
  | coded {p : Packet} {q usedQp : Int} {hdr : Header} {bits : List UInt8} {rc : Option (RateController K)} :
      e.chooseQ fns s' (e.frameKind s' input.encode.forceIdr) = (rc, .code q) →
      usedQp = (e.selectRung s' q).2 → out.packet = some p →
      p.data = (if s.frameCount = 0 then writeHeader hdr else []) ++
        (codedView (e.frameKind s' input.encode.forceIdr) usedQp bits).write →
      out.state.frameCount = s.frameCount + 1 →
      out.state.rc = rc.map (fun rc => rc.update fns
        (s.headSize * 8 : Nat) (bits.length * 8 : Nat)) →
      Outcome fns e s s' input out (rc.map fun rc =>
        ⟨rc, (s.headSize * 8 : Nat), (bits.length * 8 : Nat)⟩)

theorem feedback_none (h : (e.process fns s input sink).packet = none) : e.feedback fns s input sink = none := by
  simp only [Encoder.feedback, h]
  split
  · rfl
  · split <;> rfl

/-- A frame that is not emitted leaves the controller with its QP. -/
theorem codeFrame_failed {kind : FrameKind} {q : Int}
    (h : (Encoder.codeFrame fns e s input kind q sink).packet = none) :
    (Encoder.codeFrame fns e s input kind q sink).state.rc = s.rc := by
  simp only [Encoder.codeFrame] at h ⊢
  split
  · rfl
  · rename_i npu model
    split
    · rfl
    · rename_i played
      split
      · rfl
      · rename_i codable
        split
        · exact (keep_keeps _ _ _).2.2.2.2
        · rename_i bits scales payload
          rw [model] at h
          dsimp only at h
          rw [if_neg played, if_neg codable, payload] at h
          cases h

/-- A frame that is emitted is fed back. -/
theorem emitFrame_spec (fns : LogExp K) (e : Encoder) (s : EncoderState K) (input : HostFrame) (kind : FrameKind)
    (usedQp : Int) (bits : List UInt8) (sink : Status) :
    (Encoder.emitFrame fns e s input kind usedQp bits sink).packet =
        some { data := e.leading s ++ (codedView kind usedQp bits).write, keyframe := kind.isIdr, pts := input.pts } ∧
      (Encoder.emitFrame fns e s input kind usedQp bits sink).state.rc =
        s.rc.map fun rc => rc.update fns (s.headSize * 8 : Nat) (bits.length * 8 : Nat) := by
  have record : e.leading s ++ writeRecord (UInt32.ofNat bits.length) (Int32.ofInt usedQp) kind.recFlags ++ bits =
      e.leading s ++ (codedView kind usedQp bits).write := List.append_assoc _ _ _
  have leading : (e.leading s).length = if s.frameCount = 0 then kHdrSize else 0 := by
    rw [Encoder.leading]
    split
    · exact writeHeader_length _
    · rfl
  have head : (e.leading s ++ writeRecord (UInt32.ofNat bits.length) (Int32.ofInt usedQp) kind.recFlags ++
      bits).length - bits.length = s.headSize := by
    rw [List.length_append, Nat.add_sub_cancel, List.length_append, leading, writeRecord_length]
    rfl
  rw [record] at head
  simp only [Encoder.emitFrame, record, head, Nat.cast_mul, Nat.cast_ofNat, and_self]

/-- A frame that is coded is emitted and fed back. -/
theorem codeFrame_fed {kind : FrameKind} {q : Int} {p : Packet}
    (h : (Encoder.codeFrame fns e s input kind q sink).packet = some p) :
    ∃ hdr bits, p.data = (if s.frameCount = 0 then writeHeader hdr else []) ++ (codedView kind q bits).write ∧
      (Encoder.codeFrame fns e s input kind q sink).state.frameCount = s.frameCount + 1 ∧
      (Encoder.codeFrame fns e s input kind q sink).state.rc =
        s.rc.map fun rc => rc.update fns (s.headSize * 8 : Nat) (bits.length * 8 : Nat) := by
  obtain ⟨npu, bits, scales, -, -, -, -, eq⟩ := codeFrame_spec (by rw [h]; rfl)
  generalize e.bound.feed (e.xNhwc input) (s.slot (Encoder.slotFor s kind)) q = feed at eq
  generalize kept : ({ s.keep (npu.output feed e.bound.featOut) kind.markLtr with scales } : EncoderState K) = t at eq
  obtain ⟨-, -, -, count, rc⟩ := keep_keeps s (npu.output feed e.bound.featOut) kind.markLtr
  have count : t.frameCount = s.frameCount := by
    rw [← kept]
    exact count
  have rc : t.rc = s.rc := by
    rw [← kept]
    exact rc
  have head : t.headSize = s.headSize := by rw [EncoderState.headSize, EncoderState.headSize, count]
  obtain ⟨packet, update⟩ := emitFrame_spec fns e t input kind q bits sink
  rw [eq] at h ⊢
  cases h.symm.trans packet
  refine ⟨e.header t, bits, ?_, ?_, ?_⟩
  · rw [Encoder.leading, count]
  · exact congrArg (· + 1) count
  · rw [← head, ← rc]
    exact update

/-- **What a call does to the controller**: nothing before the frame is solved for, and then at most the
update of its feedback. -/
theorem process_outcome (fns : LogExp K) (e : Encoder) (s : EncoderState K) (input : HostFrame) (sink : Status) :
    (¬(e.Takes input ∧ ∃ s', e.retarget s input.encode = .ok s') ∧ (e.process fns s input sink).packet = none ∧
      (e.process fns s input sink).state.rc = s.rc ∧ e.feedback fns s input sink = none) ∨
    ∃ s', e.Takes input ∧ e.retarget s input.encode = .ok s' ∧
      Outcome fns e s s' input (e.process fns s input sink) (e.feedback fns s input sink) := by
  have refused {err : Result Unit} (same : e.process fns s input sink = { state := s, result := err }) :
      (e.process fns s input sink).packet = none ∧ (e.process fns s input sink).state.rc = s.rc ∧
        e.feedback fns s input sink = none := by
    have packet : (e.process fns s input sink).packet = none := by rw [same]
    exact ⟨packet, by rw [same], feedback_none packet⟩
  by_cases format : input.spec.fmt ≠ .nv12 ∨ input.spec.domain ≠ .host ∨ input.data = []
  · refine .inl ⟨?_, refused (by rw [Encoder.process, if_pos format])⟩
    rintro ⟨⟨⟨nv12, host, some⟩, -⟩, -⟩
    rcases format with other | other | empty
    · exact other nv12
    · exact other host
    · exact some empty
  by_cases size : input.spec.width ≠ e.bound.imgW.toNat ∨ input.spec.height ≠ e.bound.imgH.toNat
  · refine .inl ⟨?_, refused (by rw [Encoder.process, if_neg format, if_pos size])⟩
    rintro ⟨⟨-, width, height⟩, -⟩
    rcases size with other | other
    · exact other width
    · exact other height
  cases targeted : e.retarget s input.encode with
  | error err =>
    refine .inl ⟨?_, refused (by rw [Encoder.process, if_neg format, if_neg size, targeted])⟩
    rintro ⟨-, s', ok⟩
    cases ok
  | ok s' =>
    have takes : e.Takes input := by
      simp only [ne_eq, not_or, Decidable.not_not] at format size
      exact ⟨format, size⟩
    refine .inr ⟨s', takes, rfl, ?_⟩
    obtain ⟨rc₁, rate, period, same, -⟩ := retarget_spec targeted
    have count : s'.frameCount = s.frameCount := by rw [same]
    cases chosen : e.chooseQ fns s' (e.frameKind s' input.encode.forceIdr) with
    | mk rc decision =>
      cases decision with
      | drop =>
        have out : e.process fns s input sink = Encoder.dropFrame { s' with rc } input sink := by
          rw [Encoder.process, if_neg format, if_neg size, targeted]
          simp only [chosen]
        have none : e.feedback fns s input sink = none := by
          rw [Encoder.feedback, targeted]
          simp only [chosen]
        rw [none, out]
        refine .dropped (by rw [chosen]) rfl ?_ (by rw [chosen]; rfl)
        rw [droppedView_write]
      | code q =>
        have out : e.process fns s input sink = Encoder.codeFrame fns e
            (e.prepare { s' with rc } (e.frameKind s' input.encode.forceIdr) q) input
            (e.frameKind s' input.encode.forceIdr) (e.selectRung s' q).2 sink := by
          rw [Encoder.process, if_neg format, if_neg size, targeted]
          simp only [chosen]
          rfl
        obtain ⟨kept, keptCount⟩ := prepare_keeps (e := e) (s := { s' with rc })
          (e.frameKind s' input.encode.forceIdr) q
        cases packet : (e.process fns s input sink).packet with
        | none =>
          rw [feedback_none packet]
          refine .failed (by simp [chosen]) packet ?_
          rw [out] at packet ⊢
          rw [codeFrame_failed packet, kept, chosen]
        | some p =>
          have emits := packet
          rw [out] at emits
          obtain ⟨hdr, bits, data, counted, update⟩ := codeFrame_fed emits
          have head : (e.prepare { s' with rc } (e.frameKind s' input.encode.forceIdr) q).headSize = s.headSize := by
            rw [EncoderState.headSize, EncoderState.headSize, keptCount, count]
          have was := keptCount.trans count
          rw [was] at data
          have counted := counted.trans (congrArg (· + 1) was)
          rw [kept, head] at update
          have payload : p.data.length - s.headSize = bits.length := by
            rw [record_size data, Nat.add_sub_cancel_left]
          have fed : e.feedback fns s input sink = rc.map fun rc =>
              ⟨rc, (s.headSize * 8 : Nat), (bits.length * 8 : Nat)⟩ := by
            rw [Encoder.feedback, targeted]
            dsimp only
            rw [chosen]
            cases rc with
            | none => rfl
            | some rc =>
              simp only [packet, Option.map_some, payload]
          rw [fed, out]
          exact .coded chosen rfl emits data counted update

end Calls

end Rkvc.Mlvc
