import Rkvc.Core.Filter
import Rkvc.Mlvc.Cuts
import Rkvc.Mlvc.Honest

/-!
# From file to file

`rkvc encode` and `rkvc decode` with an MLVC node: a session that encodes a file writes
the stream of the encoder (`encode_session`), one that decodes a file writes the pictures
that its bytes show (`decode_session`), and what the one has written the other plays,
one picture for each frame (`transcode`).
-/

namespace Rkvc.Mlvc
set_option autoImplicit false
open Lib Lib.Kahn Pixel Executor

instance : HostFrames HostFrame where
  wrap spec data := { spec, data }
  bytes := HostFrame.data
  bytes_wrap _ _ := rfl

def bitstreamSpec : Spec := { fmt := .bitstream }

/-- The frame of a packet. -/
def Packet.frame (p : Packet) : HostFrame := { spec := bitstreamSpec, data := p.data, pts := p.pts }

/-- The frame of a picture. -/
def Picture.frame (p : Picture) : HostFrame where
  spec :=
    { fmt := .nv12
      width := p.width.toNat
      height := p.height.toNat
      stride := p.width.toNat
      verStride := p.height.toNat }
  data := p.data

/-! ## The encoder in a session -/

section Encode

variable {K : Type} [Field K] [LinearOrder K] [FloorRing K]

/-- `process`. What it emits is fixed before the queue behind it has answered. -/
def Encoder.call (fns : LogExp K) (e : Encoder) (s : EncoderState K) (input : HostFrame) :
    Prog (FileState (EncoderState K)) HostFrame Status :=
  match (e.process fns s input .ok).packet with
  | none => .ret (.inner (e.process fns s input .ok).state) (e.process fns s input .ok).result.status
  | some packet =>
    .emit packet.frame fun st =>
      .ret (.inner (e.process fns s input st).state) (e.process fns s input st).result.status

/-- The node of a session. -/
def Encoder.node (fns : LogExp K) (quality : Quality) (e : Encoder) : NodeCode (FileState (EncoderState K)) HostFrame where
  init := .inner (EncoderState.fresh K quality e.bound)
  process st input :=
    match st, input with
    | .inner s, some f => e.call fns s f
    | _, _ => .ret st .internal
  flush st := .ret st .ok

variable {fns : LogExp K} {quality : Quality} {e : Encoder}

theorem filters_encoder (honest : e.bound.Honest) : Filters (e.node fns quality) where
  process st f := by
    cases st with
    | inner s =>
      show Returns okOrHard (e.call fns s f) ∧ Quiet (e.call fns s f)
      unfold Encoder.call
      split
      · exact ⟨(encoder_honest honest f (.inl rfl)).status, trivial⟩
      · exact ⟨fun st free => (encoder_honest honest f free).status, fun _ => trivial⟩
    | _ => exact ⟨.inr rfl, trivial⟩
  flush _ := rfl

/-- The frames that a step emits. -/
def EncodeStep.frames (step : EncodeStep K) : List HostFrame := (step.packet.map Packet.frame).toList

theorem answer_encoder (s : EncoderState K) (f : HostFrame) :
    (e.node fns quality).answer (.inner s) f =
      ((e.process fns s f .ok).frames, .inner (e.process fns s f .ok).state, (e.process fns s f .ok).result.status) := by
  show (((e.call fns s f).run ⟨[], true⟩).out, ((e.call fns s f).run ⟨[], true⟩).returned.getD _) = _
  unfold Encoder.call EncodeStep.frames
  split
  · rename_i none
    rw [none]
    rfl
  · rename_i packet made
    rw [made]
    rfl

/-- A frame that fails where the queue takes everything leaves no packet. -/
theorem process_failed {s : EncoderState K} {input : HostFrame} (failed : (e.process fns s input .ok).result ≠ .ok ()) :
    (e.process fns s input .ok).packet = none := by
  revert failed
  unfold Encoder.process
  dsimp only
  split
  · exact fun _ => rfl
  split
  · exact fun _ => rfl
  split
  · exact fun _ => rfl
  split
  · exact fun failed => absurd rfl failed
  · unfold Encoder.codeFrame
    dsimp only
    split
    · exact fun _ => rfl
    split
    · exact fun _ => rfl
    split
    · exact fun _ => rfl
    split
    · exact fun _ => rfl
    · exact fun failed => absurd rfl failed

/-- **What the encoder answers to frames**: its run on them, up to the first that fails. -/
theorem encoder_answers (honest : e.bound.Honest) (frames : List HostFrame) (s : EncoderState K) :
    ∃ done steps, done <+: frames ∧ e.steps fns s done = some steps ∧
      answerAll (e.node fns quality).answer (.inner s) frames =
        (steps.flatMap EncodeStep.frames, decide (done = frames)) := by
  induction frames generalizing s with
  | nil => exact ⟨[], [], List.prefix_rfl, rfl, rfl⟩
  | cons f frames ih =>
    have fails := @encoder_honest _ _ _ _ fns e s honest f .ok (.inl rfl)
    rw [answerAll, answer_encoder]
    dsimp only
    cases result : (e.process fns s f .ok).result with
    | error err =>
      have none : (e.process fns s f .ok).frames = [] := by
        rw [EncodeStep.frames, process_failed (by rw [result]; exact fun ok => by cases ok)]
        rfl
      have failed : err.status ≠ .ok := by
        intro ok
        have hard := fails err result
        rw [ok] at hard
        cases hard
      refine ⟨[], [], List.nil_prefix, rfl, ?_⟩
      rw [show Result.status (.error err : Result Unit) = err.status from rfl,
        show (Flow.ok : Status) = .ok from rfl, if_neg failed, none]
      simp
    | ok _ =>
      obtain ⟨done, steps, begins, run, answers⟩ := ih (e.process fns s f .ok).state
      refine ⟨f :: done, e.process fns s f .ok :: steps, (List.prefix_cons_inj f).mpr begins, ?_, ?_⟩
      · simp only [Encoder.steps, result, run, Option.map_some]
      · rw [show Result.status (.ok () : Result Unit) = Flow.ok from rfl, if_pos rfl, answers, List.flatMap_cons]
        simp

/-- A run on all frames answers them all. -/
theorem encoder_answers_all {frames : List HostFrame} {s : EncoderState K} {steps : List (EncodeStep K)}
    (run : e.steps fns s frames = some steps) :
    answerAll (e.node fns quality).answer (.inner s) frames = (steps.flatMap EncodeStep.frames, true) := by
  induction frames generalizing s steps with
  | nil =>
    rw [steps_nil run]
    rfl
  | cons f frames ih =>
    obtain ⟨step, later, rfl, rfl, ok, run⟩ := steps_cons run
    rw [answerAll, answer_encoder]
    dsimp only
    rw [ok, show Result.status (.ok () : Result Unit) = Flow.ok from rfl, if_pos rfl, ih run, List.flatMap_cons]

omit [Field K] [LinearOrder K] [FloorRing K] in
/-- The bytes of the frames of a run. -/
theorem payload_steps (steps : List (EncodeStep K)) : payload (steps.flatMap EncodeStep.frames) = streamOf steps := by
  rw [payload, streamOf, List.flatMap_assoc]
  refine List.flatMap_congr fun step _ => ?_
  unfold EncodeStep.frames
  cases step.packet with
  | none => rfl
  | some packet => exact List.append_nil _

/-- The frames of a file, as the node gets them. -/
def fileInputs (spec : Spec) (file : List UInt8) : List HostFrame := (fileFrames spec file).map (HostFrames.wrap spec)

section Session

variable {makeModel : NpuModelFn} {model : Model} {b : EncoderBinding} {path : String} {spec : Spec}
  {file : List UInt8} {opened : FileSourceNode} {disk : Nat → Nat → Nat} {capacity : Nat}
  {s : State (FileState (EncoderState K)) HostFrame}

/-- What a bound encoder makes of some frames. -/
def EncoderBinding.codes (fns : LogExp K) (quality : Quality) (b : EncoderBinding) (inputs : List HostFrame) :
    Option (List (EncodeStep K)) :=
  (Encoder.openWith quality b).steps fns (EncoderState.fresh K quality b) inputs

/-- What has been written begins the stream of a run on the first of the frames. -/
theorem encoder_written (bound : EncoderBinding.bindModel quality makeModel model = .ok b) (honest : makeModel.Honest)
    (hopen : FileSourceNode.open path spec (some file) = .ok opened)
    (reached : Reach (filterNet ((Encoder.openWith quality b).node fns quality) opened disk capacity) noShutdown s) :
    ∃ done steps, done <+: fileInputs spec file ∧ b.codes fns quality done = some steps ∧
      (fedSink disk (s.taken 2)).1.written <+: streamOf steps ∧
      (wait s = some .ok → done = fileInputs spec file ∧ (fedSink disk (s.taken 2)).1.written = streamOf steps) := by
  have models : (Encoder.openWith quality b).bound.Honest := bindModel_honest honest bound
  have filters : Filters ((Encoder.openWith quality b).node fns quality) := filters_encoder models
  obtain ⟨begins, all⟩ := filters.written hopen reached
  obtain ⟨done, steps, first, run, answers⟩ := @encoder_answers K _ _ _ fns quality (Encoder.openWith quality b) models
    (fileInputs spec file) (EncoderState.fresh K quality b)
  have answered : ((Encoder.openWith quality b).node fns quality).answers spec file =
      (steps.flatMap EncodeStep.frames, decide (done = fileInputs spec file)) := answers
  rw [answered, payload_steps] at begins all
  refine ⟨done, steps, first, run, begins, fun past => ?_⟩
  obtain ⟨whole, same⟩ := all past
  exact ⟨of_decide_eq_true whole, same⟩

end Session

end Encode

/-! ## The decoder in a session -/

section Decode

/-- A decoder that has bound no model but honest ones. -/
structure HonestState where
  state : DecoderState
  honest : state.Honest

theorem honest_start : ({} : DecoderState).Honest := by
  intro b bound
  cases bound

variable {d : Decoder} (hmake : d.makeModel.Honest) (sink : Nat → Status) (s : HonestState) (input : HostFrame)

include hmake in
theorem process_isSome : (d.process sink s.state input).isSome = true := by
  obtain ⟨s', r, made, -⟩ := @decoder_honest d s.state sink hmake s.honest input
  rw [made]
  rfl

theorem process_keeps : ((d.process sink s.state input).get (process_isSome hmake sink s input)).1.Honest := by
  obtain ⟨s', r, made, honest, -⟩ := @decoder_honest d s.state sink hmake s.honest input
  simpa only [made, Option.get_some] using honest

/-- `process`, where the emits return what `sink` says. -/
def Decoder.turn : HonestState × Result Unit :=
  (⟨((d.process sink s.state input).get (process_isSome hmake sink s input)).1, process_keeps hmake sink s input⟩,
    ((d.process sink s.state input).get (process_isSome hmake sink s input)).2)

theorem turn_spec : d.process sink s.state input =
      some ((Decoder.turn hmake sink s input).1.state, (Decoder.turn hmake sink s input).2) ∧
    ((∀ n, okOrHard (sink n)) → FailsHard (Decoder.turn hmake sink s input).2) := by
  obtain ⟨s', r, made, -, fails⟩ := @decoder_honest d s.state sink hmake s.honest input
  have got : (d.process sink s.state input).get (process_isSome hmake sink s input) = (s', r) := by
    simp only [made, Option.get_some]
  simp only [Decoder.turn, got]
  exact ⟨made, fails⟩

/-- The emits of a call, from picture `n` on: the first that fails ends it. -/
def Decoder.emits : Nat → List Picture → Prog (FileState HonestState) HostFrame Status
  | _, [] =>
    .ret (.inner (Decoder.turn hmake (fun _ => .ok) s input).1) (Decoder.turn hmake (fun _ => .ok) s input).2.status
  | n, picture :: pictures =>
    .emit picture.frame fun st =>
      if st = .ok then emits (n + 1) pictures
      else
        let sink := fun i => if i = n then st else .ok
        .ret (.inner (Decoder.turn hmake sink s input).1) (Decoder.turn hmake sink s input).2.status

/-- The pictures that a call emits, if they are taken. -/
def Decoder.pictures : List Picture :=
  (Decoder.turn hmake (fun _ => .ok) s input).1.state.core.emitted.drop s.state.core.emitted.length

/-- The node of a session. -/
def Decoder.node : NodeCode (FileState HonestState) HostFrame where
  init := .inner ⟨{}, honest_start⟩
  process st input :=
    match st, input with
    | .inner s, some f => Decoder.emits hmake s f s.state.core.emitted.length (Decoder.pictures hmake s f)
    | _, _ => .ret st .internal
  flush st := .ret st .ok

theorem emits_returns (n : Nat) (pictures : List Picture) :
    Returns okOrHard (Decoder.emits hmake s input n pictures) ∧ Quiet (Decoder.emits hmake s input n pictures) := by
  induction pictures generalizing n with
  | nil => exact ⟨((turn_spec hmake _ s input).2 fun _ => .inl rfl).status, trivial⟩
  | cons picture pictures ih =>
    constructor
    · intro st free
      dsimp only
      split
      · exact (ih (n + 1)).1
      · refine ((turn_spec hmake _ s input).2 fun i => ?_).status
        split
        · exact free
        · exact .inl rfl
    · intro st
      dsimp only
      split
      · exact (ih (n + 1)).2
      · trivial

theorem filters_decoder : Filters (Decoder.node hmake) where
  process st f := by
    cases st with
    | inner s => exact emits_returns hmake s f _ _
    | _ => exact ⟨.inr rfl, trivial⟩
  flush _ := rfl

theorem emits_run (n : Nat) (pictures : List Picture) :
    (Decoder.emits hmake s input n pictures).run ⟨[], true⟩ =
      ⟨pictures.map Picture.frame, ⟨[], true⟩, some (.inner (Decoder.turn hmake (fun _ => .ok) s input).1,
        (Decoder.turn hmake (fun _ => .ok) s input).2.status)⟩ := by
  induction pictures generalizing n with
  | nil => rfl
  | cons picture pictures ih =>
    have accepted : (Flow.ok : Status) = .ok := rfl
    simp only [Decoder.emits, Prog.run, accepted, if_true, ih (n + 1), List.map_cons]

/-- **What the decoder answers to a file** is what its bytes show. -/
theorem decoder_answers {file : List UInt8} (filled : file ≠ []) (small : file.length ≤ kSizeMax) :
    (Decoder.node hmake).answers bitstreamSpec file =
      ((d.shows (fun _ => .ok) file).1.map Picture.frame, (d.shows (fun _ => .ok) file).2) := by
  let frame : HostFrame := { spec := bitstreamSpec, data := file }
  let start : HonestState := ⟨{}, honest_start⟩
  obtain ⟨s', r, played, emitted, ok, -⟩ :=
    @Settled.process _ d {} [] (settled_start (fun _ => .ok) d) frame rfl filled small
  obtain ⟨called, fails⟩ := turn_spec hmake (fun _ => .ok) start frame
  have turned : (s', r) = ((Decoder.turn hmake (fun _ => .ok) start frame).1.state,
      (Decoder.turn hmake (fun _ => .ok) start frame).2) := Option.some.inj (played.symm.trans called)
  obtain ⟨rfl, rfl⟩ := Prod.mk.inj turned
  have answer : (Decoder.node hmake).answer (.inner start) frame =
      ((d.shows (fun _ => .ok) file).1.map Picture.frame, .inner (Decoder.turn hmake (fun _ => .ok) start frame).1,
        (Decoder.turn hmake (fun _ => .ok) start frame).2.status) := by
    have run := emits_run hmake start frame 0 (Decoder.pictures hmake start frame)
    show (((Decoder.emits hmake start frame 0 (Decoder.pictures hmake start frame)).run ⟨[], true⟩).out,
      ((Decoder.emits hmake start frame 0 (Decoder.pictures hmake start frame)).run ⟨[], true⟩).returned.getD _) = _
    rw [run, ← List.nil_append file, ← emitted]
    rfl
  have frames : fileFrames bitstreamSpec file = [file] := if_pos rfl
  show answerAll (Decoder.node hmake).answer (.inner start) ((fileFrames bitstreamSpec file).map _) = _
  rw [frames, List.map_singleton, answerAll, show HostFrames.wrap bitstreamSpec file = frame from rfl, answer]
  rw [List.nil_append] at ok
  rw [← ok]
  cases returned : (Decoder.turn hmake (fun _ => .ok) start frame).2 with
  | ok _ => simp [answerAll, Result.status, Flow.ok, Except.isOk, Except.toBool]
  | error e =>
    have failed : e.status ≠ .ok := by
      intro ok
      have hard := fails (fun _ => .inl rfl) e returned
      rw [ok] at hard
      cases hard
    simp [Result.status, Flow.ok, failed, Except.isOk, Except.toBool]

section Session

variable {path : String} {file : List UInt8} {opened : FileSourceNode} {disk : Nat → Nat → Nat} {capacity : Nat}
  {t : State (FileState HonestState) HostFrame}

/-- A stream that can be opened has bytes, and not too many. -/
theorem open_stream {spec : Spec} (unframed : minSize spec = 0)
    (h : FileSourceNode.open path spec (some file) = .ok opened) :
    file ≠ [] ∧ file.length ≤ FileSourceNode.kMaxStream := by
  simp only [FileSourceNode.open, FileSourceNode.openStream, unframed, if_true] at h
  split at h
  · exact absurd h Result.reject_ne_ok
  split at h
  · exact absurd h Result.reject_ne_ok
  · rename_i fits
    rw [not_or] at fits
    exact ⟨fun none => fits.1 (by rw [none]; rfl), Nat.le_of_not_lt fits.2⟩

theorem decoder_answers_open (hopen : FileSourceNode.open path bitstreamSpec (some file) = .ok opened) :
    (Decoder.node hmake).answers bitstreamSpec file =
      ((d.shows (fun _ => .ok) file).1.map Picture.frame, (d.shows (fun _ => .ok) file).2) := by
  obtain ⟨filled, small⟩ := open_stream rfl hopen
  exact decoder_answers hmake filled (small.trans (by decide))

theorem payload_pictures (pictures : List Picture) :
    payload (pictures.map Picture.frame) = pictures.flatMap (·.data) := List.flatMap_map _ _ _

end Session

end Decode

/-! ## From file to file -/

section Transcode

variable {K : Type} [Field K] [LinearOrder K] [FloorRing K]

/-- An encoder and a decoder of one bundle. -/
structure Pairing where
  quality : Quality
  makeEnc : NpuModelFn
  makeDec : NpuModelFn
  encModel : Model
  decModel : Model
  encoder : EncoderBinding
  decoder : Decoder
  binding : DecoderBinding
  bound : EncoderBinding.bindModel quality makeEnc encModel = .ok encoder
  made : Decoder.bindModel makeDec decModel = .ok decoder
  bind : decoder.bind encoder.qp = .ok binding
  same : SameBundle encModel decModel encoder binding
  plays : Plays binding
  honestEnc : makeEnc.Honest
  honestDec : makeDec.Honest

variable {u : Pairing} {fns : LogExp K}

theorem Pairing.honest (u : Pairing) : u.decoder.makeModel.Honest := by
  obtain ⟨-, -, same⟩ := decoder_coders u.made
  rw [same]
  exact u.honestDec

/-- What an encoder has written shows one picture for each frame. -/
theorem Pairing.shows (u : Pairing) {inputs : List HostFrame} {steps : List (EncodeStep K)} (filled : inputs ≠ [])
    (few : inputs.length < 2 ^ 32) (run : u.encoder.codes fns u.quality inputs = some steps)
    (short : ∀ step ∈ steps, step.Short) :
    ∃ pictures, u.decoder.shows (fun _ => .ok) (streamOf steps) = (pictures, true) ∧
      PicturedAll (Encoder.openWith u.quality u.encoder) u.binding [] steps pictures := by
  have paired := paired_of_bundle u.bound u.made u.bind u.same
  have ebound : (Encoder.openWith u.quality u.encoder).bound.Bound := (bindModel_spec u.bound).1
  obtain ⟨-, -, -, -, width, height⟩ := bindModel_spec u.bound
  obtain ⟨dbound, -, -, extent⟩ := bind_spec u.made u.bind
  obtain ⟨latents, scales⟩ := zeros_sized u.binding.geom
  have fit := fresh_fit (K := K) ebound u.quality
  have held : Held u.binding (({} : DecoderCore).sized u.binding) :=
    ⟨sized_fit dbound {}, latents, scales, List.length_replicate⟩
  obtain ⟨t, pictures, decodes, shown, pictured⟩ :=
    records_pictured ebound dbound paired u.plays (fun _ => rfl) extent fit held (fun later => absurd rfl later)
      ((Nat.zero_add _).trans_lt few) run short
  obtain ⟨hdr, hw, hh, hq, bytes, wellformed, -⟩ := stream_bytes ebound fit rfl filled few run short
  have hdrW : hdr.width ≠ 0 := by
    rw [hw]
    exact width
  have hdrH : hdr.height ≠ 0 := by
    rw [hh]
    exact height
  have session : u.decoder.bind hdr.normal.qp.toInt32.toInt = .ok u.binding := by
    rw [show hdr.normal.qp = hdr.qp from rfl, hq, header_qp ebound.qp]
    exact u.bind
  have reads : readFrom none (streamOf steps) = (steps.map (·.view), .again) := by
    rw [bytes, readFrom, run_container hdrW hdrH wellformed]
    rfl
  refine ⟨pictures, ?_, pictured⟩
  rw [shows_bound (by rw [bytes]; exact parseHeader_writeHeader hdrW hdrH _) session, reads]
  dsimp only
  rw [decodes]
  exact Prod.ext shown rfl

theorem process_packet {e : Encoder} {s : EncoderState K} {input : HostFrame}
    (ok : (e.process fns s input .ok).result = .ok ()) :
    ∃ packet, (e.process fns s input .ok).packet = some packet ∧ packet.data ≠ [] := by
  revert ok
  have record : ∀ a b c, writeRecord a b c ≠ [] := fun a b c none => by
    have long := congrArg List.length none
    rw [writeRecord_length] at long
    cases long
  unfold Encoder.process
  dsimp only
  split
  · exact nofun
  split
  · exact nofun
  split
  · exact nofun
  split
  · exact fun _ => ⟨_, rfl, record _ _ _⟩
  · unfold Encoder.codeFrame
    dsimp only
    split
    · exact nofun
    split
    · exact nofun
    split
    · exact nofun
    split
    · exact nofun
    · refine fun _ => ⟨_, rfl, ?_⟩
      simp [record]

/-- The bytes of a step are among those of its run, and each step has some. -/
theorem streamOf_long {e : Encoder} {s : EncoderState K} {inputs : List HostFrame} {steps : List (EncodeStep K)}
    (run : e.steps fns s inputs = some steps) :
    steps.length ≤ (streamOf steps).length ∧ ∀ step ∈ steps, step.record.length ≤ (streamOf steps).length := by
  induction inputs generalizing s steps with
  | nil =>
    rw [steps_nil run]
    exact ⟨Nat.le_refl 0, by simp⟩
  | cons input inputs ih =>
    obtain ⟨step, later, rfl, rfl, ok, run⟩ := steps_cons run
    obtain ⟨count, each⟩ := ih run
    obtain ⟨packet, made, filled⟩ := process_packet ok
    have split : streamOf (e.process fns s input .ok :: later) = packet.data ++ streamOf later := by
      rw [streamOf, List.flatMap_cons, made]
      rfl
    have some := List.length_pos_iff.mpr filled
    rw [split, List.length_append, List.length_cons]
    refine ⟨by omega, fun step listed => ?_⟩
    rcases List.mem_cons.mp listed with rfl | listed
    · rw [EncodeStep.record, made, List.length_drop]
      exact (Nat.sub_le _ _).trans (Nat.le_add_right _ _)
    · exact (each step listed).trans (Nat.le_add_left _ _)

omit [Field K] [LinearOrder K] [FloorRing K] in
/-- The pictures of a run have data. -/
theorem PicturedAll.filled {e : Encoder} {b : DecoderBinding} {shown pictures : List Picture}
    {steps : List (EncodeStep K)} (extent : b.imgW ≠ 0 ∧ b.imgH ≠ 0) (h : PicturedAll e b shown steps pictures)
    (before : ∀ picture ∈ shown, picture.data ≠ []) : ∀ picture ∈ pictures, picture.data ≠ [] := by
  induction steps generalizing shown pictures with
  | nil =>
    rw [show pictures = [] from h]
    simp
  | cons step steps ih =>
    obtain ⟨picture, later, rfl, pictured, rest⟩ := h
    have data : picture.data ≠ [] := by
      by_cases drop : step.view.qIndex = kQindexDropped
      · obtain ⟨last, listed, same⟩ := pictured.dropped drop
        rw [same]
        exact before last (List.mem_of_getLast? listed)
      · obtain ⟨run, run', npu, npu', ref, -, -, -, -, same⟩ := pictured.coded drop
        rw [same]
        exact nv12_nonempty extent.1 extent.2 _
    refine List.forall_mem_cons.mpr ⟨data, ih rest fun p listed => ?_⟩
    rcases List.mem_append.mp listed with earlier | here
    · exact before p earlier
    · rw [List.mem_singleton.mp here]
      exact data

/-- The session of `rkvc encode`, and that of `rkvc decode`. -/
def Pairing.encodes (u : Pairing) (fns : LogExp K) : FileSourceNode → (Nat → Nat → Nat) → Nat →
    Net (FileState (EncoderState K)) HostFrame :=
  filterNet ((Encoder.openWith u.quality u.encoder).node fns u.quality)

def Pairing.decodes (u : Pairing) : FileSourceNode → (Nat → Nat → Nat) → Nat → Net (FileState HonestState) HostFrame :=
  filterNet (Decoder.node u.honest)

variable {path path' : String} {spec : Spec} {file : List UInt8} {opened opened' : FileSourceNode}
  {disk disk' : Nat → Nat → Nat} {capacity capacity' : Nat} {s : State (FileState (EncoderState K)) HostFrame}
  {t : State (FileState HonestState) HostFrame}

/-- **What one session has encoded, another decodes.** If an encoding session ends well and its file can be opened,
then every decoding session of that file, on a disk with room, ends well, and has written one picture for each frame of
the file that was encoded. -/
theorem transcode (hopen : FileSourceNode.open path spec (some file) = .ok opened)
    (encoded : Reach (u.encodes fns opened disk capacity) noShutdown s) (done : wait s = some .ok)
    (hopen' : FileSourceNode.open path' bitstreamSpec (some (fedSink disk (s.taken 2)).1.written) = .ok opened')
    (room : ∀ k n, n ≤ disk' k n) (decoded : Reach (u.decodes opened' disk' capacity') noShutdown t) {e : Status}
    (past : wait t = some e) :
    e = .ok ∧ ∃ steps pictures, u.encoder.codes fns u.quality (fileInputs spec file) = some steps ∧
      PicturedAll (Encoder.openWith u.quality u.encoder) u.binding [] steps pictures ∧
      pictures.length = (fileFrames spec file).length ∧
      (fedSink disk' (t.taken 2)).1.written = pictures.flatMap (·.data) := by
  obtain ⟨_, steps, -, run, -, all⟩ := encoder_written u.bound u.honestEnc hopen encoded
  obtain ⟨rfl, written⟩ := all done
  rw [written] at hopen'
  obtain ⟨filled, small⟩ := open_stream rfl hopen'
  obtain ⟨fewer, shorter⟩ := streamOf_long run
  have count : steps.length = (fileInputs spec file).length := steps_count run
  -- a file that can be opened is not longer than one record may be
  have limits : FileSourceNode.kMaxStream < 2 ^ 32 ∧ FileSourceNode.kMaxStream ≤ kRecSize + kMaxFrameBytes := by decide
  have inputs : fileInputs spec file ≠ [] := by
    intro none
    rw [none] at run
    rw [steps_nil run] at filled
    exact filled rfl
  obtain ⟨pictures, shows, pictured⟩ := u.shows inputs (by omega) run fun step listed =>
    ((shorter step listed).trans small).trans limits.2
  obtain ⟨-, -, -, extent⟩ := bind_spec u.made u.bind
  have filters : Filters (Decoder.node u.honest) := filters_decoder u.honest
  have answers := decoder_answers_open u.honest hopen'
  rw [shows] at answers
  have ok : e = .ok := by
    refine (filters.ok_iff hopen' rfl decoded past).mpr ?_
    rw [answers]
    refine ⟨rfl, fedSink_room room fun frame listed => ?_⟩
    obtain ⟨picture, shown, rfl⟩ := List.mem_map.mp listed
    exact pictured.filled extent (by simp) picture shown
  refine ⟨ok, steps, pictures, run, pictured, ?_, ?_⟩
  · rw [pictured.length, count, fileInputs, List.length_map]
  · obtain ⟨-, same⟩ := (filters.written hopen' decoded).2 (by rw [past, ok])
    rw [same, answers, payload_pictures]

/-- The stream of a run is no longer than its latents make it. -/
theorem streamOf_short {e : Encoder} {s : EncoderState K} {inputs : List HostFrame} {steps : List (EncodeStep K)}
    (bound : e.bound.Bound) (fit : s.Fit e) (run : e.steps fns s inputs = some steps) :
    (streamOf steps).length ≤
      steps.length * (kHdrSize + kRecSize + (4 + 4 * (kValueSteps * e.bound.geom.latentCount))) := by
  induction inputs generalizing s steps with
  | nil =>
    rw [steps_nil run]
    exact Nat.zero_le _
  | cons input inputs ih =>
    obtain ⟨step, later, rfl, made, ok, run⟩ := steps_cons run
    obtain ⟨fit', -, made⟩ := step_spec bound fit made ok
    have here : ((step.packet.map (·.data)).getD []).length ≤
        kHdrSize + kRecSize + (4 + 4 * (kValueSteps * e.bound.geom.latentCount)) := by
      rcases made with dropped | ⟨kind, rung, usedQp, refs, npu, feed, bits, coded⟩
      · rw [dropped.packet]
        exact (show droppedView.write.length ≤ kHdrSize + kRecSize by decide).trans (Nat.le_add_right _ _)
      · obtain ⟨refN, codable⟩ := coded.codable
        obtain ⟨sized, -⟩ := codable_spec codable
        have length := payload_length bound.coders bound.geom sized fit.scales (buildZIdx_length _ _) coded.payload
        obtain ⟨hdr, -, -, -, packet⟩ := coded.packet
        have head : (if s.frameCount = 0 then writeHeader hdr else []).length ≤ kHdrSize := by
          split
          · exact (writeHeader_length hdr).le
          · exact Nat.zero_le _
        rw [packet]
        simp only [Option.map_some, Option.getD_some, List.length_append, write_length, View.size, codedView]
        omega
    have rest := ih fit' run
    rw [streamOf, List.flatMap_cons, List.length_append, List.length_cons, Nat.succ_mul]
    exact (Nat.add_le_add here rest).trans_eq (Nat.add_comm _ _)

/-- The frames of a run have bytes. -/
theorem frames_filled {e : Encoder} {s : EncoderState K} {inputs : List HostFrame} {steps : List (EncodeStep K)}
    (run : e.steps fns s inputs = some steps) : ∀ f ∈ steps.flatMap EncodeStep.frames, f.data ≠ [] := by
  induction inputs generalizing s steps with
  | nil =>
    rw [steps_nil run]
    simp
  | cons input inputs ih =>
    obtain ⟨step, later, rfl, rfl, ok, run⟩ := steps_cons run
    obtain ⟨packet, made, filled⟩ := process_packet ok
    intro f listed
    rw [List.flatMap_cons, EncodeStep.frames, made] at listed
    rcases List.mem_append.mp listed with here | later
    · rw [List.mem_singleton.mp here]
      exact filled
    · exact ih run f later

end Transcode

/-! ## A small file -/

section Small

theorem honest_small {npu : NpuModel} (accepts : ∀ i x, npu.accepts i x = .ok) (run : ∀ feed, npu.run feed = .ok) :
    (smallBackend npu).Honest := by
  rintro init ⟨⟩ base patch qp
  refine ⟨failsHard_ok npu, ?_⟩
  rintro npu' ⟨⟩
  exact ⟨fun i x => .inl (accepts i x), fun feed => .inl (run feed)⟩

/-- A file of one frame. -/
def smallFile : List UInt8 := [16]

/-- What is coded of it. -/
def smallCoded : Option (Option Nat × Nat) :=
  match EncoderBinding.bindModel { qp := 1 } (smallBackend (smallEncoderNpu true)) (smallBundle "encoder" 64) with
  | .error _ => none
  | .ok b =>
    some (((b.codes smallLogExp { qp := 1 } (fileInputs smallFrame.spec smallFile) :
      Option (List (EncodeStep ℚ)))).map List.length, b.geom.latentCount)

theorem smallPair_plays {eb : EncoderBinding} {d : Decoder} {b : DecoderBinding} {steps : List (EncodeStep ℚ)}
    (pair : SmallPair eb d b steps) : Plays b := by
  obtain ⟨xOut, refOut, picture, refN⟩ := pair.shapes
  intro npu listed feed
  rw [pair.models npu listed, xOut, refOut, picture, refN]
  have finite : allFinite [0, 0, 0] = true ∧ allFinite [0x3c00] = true := by decide
  refine ⟨?_, finite.1, finite.2, Nat.le_refl 3, rfl⟩
  have none : feed.find? (fun i => (smallDecoderNpu true).accepts i.1 i.2 ≠ .ok) = none :=
    List.find?_eq_none.mpr fun i _ => of_decide_eq_false rfl
  rw [NpuModel.play, none]
  rfl

/-- A small pair is of one bundle. -/
def smallPairing {eb : EncoderBinding} {d : Decoder} {b : DecoderBinding} {steps : List (EncodeStep ℚ)}
    (pair : SmallPair eb d b steps) : Pairing where
  quality := { qp := 1 }
  makeEnc := smallBackend (smallEncoderNpu true)
  makeDec := smallBackend (smallDecoderNpu true)
  encModel := smallBundle "encoder" 64
  decModel := smallBundle "decoder" 64
  encoder := eb
  decoder := d
  binding := b
  bound := pair.bound
  made := pair.made
  bind := pair.bind
  same := pair.same
  plays := smallPair_plays pair
  honestEnc := honest_small (fun _ _ => rfl) fun _ => rfl
  honestDec := honest_small (fun _ _ => rfl) fun _ => rfl

/-- A pair that codes the file in few bytes. -/
theorem smallFile_coded : ∃ (u : Pairing) (steps : List (EncodeStep ℚ)), u.encoder.geom.Small ∧
    u.encoder.codes smallLogExp u.quality (fileInputs smallFrame.spec smallFile) = some steps ∧ streamOf steps ≠ [] ∧
      (streamOf steps).length ≤ FileSourceNode.kMaxStream := by
  obtain ⟨eb, d, b, _, pair⟩ := smallPair_spec
  let u := smallPairing pair
  have facts : smallCoded = some (some 1, 3) := by decide +kernel
  rw [smallCoded, pair.bound] at facts
  obtain ⟨coded, latents⟩ := Prod.mk.inj (Option.some.inj facts)
  obtain ⟨steps, run, one⟩ := Option.map_eq_some_iff.mp coded
  have bound : (Encoder.openWith u.quality u.encoder).bound.Bound := (bindModel_spec u.bound).1
  have short := streamOf_short bound (fresh_fit (K := ℚ) bound u.quality) run
  have latents : (Encoder.openWith u.quality u.encoder).bound.geom.latentCount = 3 := latents
  rw [one, latents] at short
  obtain ⟨long, -⟩ := streamOf_long run
  refine ⟨u, steps, pair.small, run, ?_, short.trans (by decide)⟩
  intro none
  rw [one, none] at long
  cases long

def smallSource : FileSourceNode := { spec := smallFrame.spec, frameSize := 1, rest := smallFile }

theorem open_small : FileSourceNode.open "in" smallFrame.spec (some smallFile) = .ok smallSource := rfl

/-- A disk with room. -/
def roomy (_ n : Nat) : Nat := n

/-- Sessions that have encoded the file, and decoded what they wrote. -/
structure SmallSession (u : Pairing) (s : State (FileState (EncoderState ℚ)) HostFrame) (opened : FileSourceNode)
    (t : State (FileState HonestState) HostFrame) : Prop where
  small : u.encoder.geom.Small
  encoded : Reach (u.encodes smallLogExp smallSource roomy 1) noShutdown s
  ended : wait s = some .ok
  open' : FileSourceNode.open "out" bitstreamSpec (some (fedSink roomy (s.taken 2)).1.written) = .ok opened
  decoded : Reach (u.decodes opened roomy 1) noShutdown t
  past : ∃ e, wait t = some e

theorem smallSession_spec : ∃ u s opened t, SmallSession u s opened t := by
  obtain ⟨u, steps, geom, run, filled, small⟩ := smallFile_coded
  have models : (Encoder.openWith u.quality u.encoder).bound.Honest := bindModel_honest u.honestEnc u.bound
  have encoder : Filters ((Encoder.openWith u.quality u.encoder).node smallLogExp u.quality) := filters_encoder models
  obtain ⟨s, e, encoded, ended⟩ := @Filters.finishes _ _ _ _ smallSource roomy 1 encoder
  have answers : ((Encoder.openWith u.quality u.encoder).node smallLogExp u.quality).answers smallFrame.spec smallFile =
      (steps.flatMap EncodeStep.frames, true) := encoder_answers_all run
  have ok : e = .ok := by
    refine (encoder.ok_iff open_small rfl encoded ended).mpr ?_
    rw [answers]
    exact ⟨rfl, fedSink_room (fun _ n => Nat.le_refl n) (frames_filled run)⟩
  subst ok
  have written := ((encoder.written open_small encoded).2 ended).2
  rw [answers, payload_steps] at written
  have open' : FileSourceNode.open "out" bitstreamSpec (some (fedSink roomy (s.taken 2)).1.written) =
      .ok { spec := bitstreamSpec, stream := some (streamOf steps) } := by
    have fits : ¬((streamOf steps).length = 0 ∨ (streamOf steps).length > FileSourceNode.kMaxStream) := by
      rw [not_or]
      exact ⟨fun none => filled (List.length_eq_zero_iff.mp none), Nat.not_lt.mpr small⟩
    simp only [written, FileSourceNode.open, FileSourceNode.openStream, show minSize bitstreamSpec = 0 from rfl,
      if_true, if_neg fits]
    rfl
  obtain ⟨t, e, decoded, past⟩ := @Filters.finishes _ _ _ _ { spec := bitstreamSpec, stream := some (streamOf steps) }
    roomy 1 (filters_decoder u.honest)
  exact ⟨u, s, _, t, geom, encoded, ended, open', decoded, e, past⟩

theorem transcode_small : ∃ u s opened t, SmallSession u s opened t ∧ wait t = some .ok ∧
    ∃ pictures : List Picture, pictures.length = 1 ∧
      (fedSink roomy (t.taken 2)).1.written = pictures.flatMap (·.data) := by
  obtain ⟨u, s, opened, t, small⟩ := smallSession_spec
  obtain ⟨e, past⟩ := small.past
  obtain ⟨rfl, steps, pictures, -, -, count, same⟩ :=
    transcode open_small small.encoded small.ended small.open' (fun _ n => Nat.le_refl n) small.decoded past
  exact ⟨u, s, opened, t, small, past, pictures, count, same⟩

end Small

end Rkvc.Mlvc
