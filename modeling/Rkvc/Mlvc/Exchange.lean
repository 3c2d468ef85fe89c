import Rkvc.Mlvc.Length

/-!
# A record from one node to the other

A decoder that goes with an encoder (`Paired`, `Matched`) has the rung of the record, reads
the latents back, and runs its model on the reference that the encoder's was run on.
-/

namespace Rkvc.Mlvc
set_option autoImplicit false
open Lib Pixel

/-! ## Nodes that go together -/

/-- The nodes have the same coders and shapes, and the same rungs, or both tables of 64 rows. -/
structure Paired (eb : EncoderBinding) (d : Decoder) (b : DecoderBinding) : Prop where
  gCoder : d.gCoder = eb.gCoder
  bCoder : d.bCoder = eb.bCoder
  entropy : b.entropy = eb.entropy
  geom : b.geom = eb.geom
  slots : b.refN = eb.refN
  present : b.qrows.present = eb.qrows.present
  rungs : eb.qrows.present = false → b.rs.rungQp = eb.rs.rungQp
  rows : ∀ r ∈ b.qrows.rows, 64 ≤ r.2.rows

/-- A rung on which a frame is coded with a QP. -/
def codesWith (present : Bool) (rungQp : List Int) (rung : Nat) (q : Int) : Prop :=
  present = true ∨ rungQp[rung]? = some q

/-- The decoder's model gives the feature that the encoder's gave with the latents, from the same
reference and QP. -/
def Matched (eb : EncoderBinding) (b : DecoderBinding) : Prop :=
  ∀ i j q npu npu' x ref refN, codesWith eb.qrows.present eb.rs.rungQp i q → codesWith b.qrows.present b.rs.rungQp j q →
    eb.rs.models[i]? = some npu → b.rs.models[j]? = some npu' → npu.play (eb.feed x ref q) = .ok →
    eb.codable (npu.output (eb.feed x ref q)) refN = true →
    npu'.output (b.feed (eb.latents (npu.output (eb.feed x ref q))) ref q) b.refOut =
      npu.output (eb.feed x ref q) eb.featOut

/-- The decoder's models run, and give finite pictures. -/
def Total (b : DecoderBinding) : Prop :=
  ∀ npu ∈ b.rs.models, ∀ feed, npu.play feed = .ok ∧ allFinite (npu.output feed b.xOut) = true ∧
    b.pictureN ≤ (npu.output feed b.xOut).length

section Decode

variable {sink : Nat → Status} {d : Decoder} {b : DecoderBinding} {s : DecoderCore} {payload : List UInt8}
  {recQ : Int} {recFlags : UInt32} {rung : Nat}

/-- Outputs that a picture can be shown from. -/
structure Shown (b : DecoderBinding) (npu : NpuModel) (feed : Feed) (refN : Nat) : Prop where
  played : npu.play feed = .ok
  feature : (npu.output feed b.refOut).length = refN
  finite : allFinite (npu.output feed b.xOut) = true ∧ allFinite (npu.output feed b.refOut) = true
  picture : b.pictureN ≤ (npu.output feed b.xOut).length

/-- The decoder's slots by the flags of a record. -/
theorem decoder_slots (s : DecoderCore) (kind : FrameKind) :
    s.slotFor kind.recFlags = s.refs.slotFor kind.isRecovery ∧ (∀ slot, s.slot slot = s.refs.get slot) ∧
      ∀ feat, (s.keep feat kind.recFlags).refs = s.refs.keep feat kind.markLtr := by
  obtain ⟨-, mark, recovery⟩ := recFlags_bits kind
  refine ⟨?_, ?_, ?_⟩
  · simp only [DecoderCore.slotFor, Refs.slotFor, recovery, Bool.and_eq_true]
    rfl
  · intro slot
    cases slot <;> rfl
  · intro feat
    simp only [DecoderCore.keep, Refs.keep, mark]
    split <;> rfl

/-- The state behind a record that has been decoded. -/
def DecoderCore.shown (s : DecoderCore) (b : DecoderBinding) (npu : NpuModel) (run : NpuRun) (recFlags : UInt32) :
    DecoderCore :=
  let s' := { s with runs := s.runs ++ [run] }
  { s'.keep (npu.output run.feed b.refOut) recFlags with
    lastNv12 := b.nv12 (npu.output run.feed b.xOut), haveLastFrame := true }.emit b
    (b.nv12 (npu.output run.feed b.xOut)) (decide (recFlags &&& kRecKeyframe ≠ 0 ∨ s.frameCount = 0))

/-- What showing a picture leaves behind. -/
structure ShownBy (s : DecoderCore) (b : DecoderBinding) (npu : NpuModel) (run : NpuRun) (kind : FrameKind)
    (t : DecoderCore) : Prop where
  refs : t.refs = s.refs.keep (npu.output run.feed b.refOut) kind.markLtr
  runs : t.runs = s.runs ++ [run]
  latents : t.latents = s.latents
  scales : t.scales = s.scales
  emitted : ∃ keyframe, t.emitted = s.emitted ++
    [{ width := b.imgW, height := b.imgH, data := b.nv12 (npu.output run.feed b.xOut), keyframe }]
  last : t.haveLastFrame = true ∧ t.lastNv12 = b.nv12 (npu.output run.feed b.xOut)

theorem shown_spec (s : DecoderCore) (b : DecoderBinding) (npu : NpuModel) (run : NpuRun) (kind : FrameKind) :
    ShownBy s b npu run kind (s.shown b npu run kind.recFlags) := by
  obtain ⟨-, -, keep⟩ := decoder_slots { s with runs := s.runs ++ [run] } kind
  constructor
  · exact keep _
  · simp only [DecoderCore.shown, DecoderCore.emit, DecoderCore.keep]
    split <;> rfl
  · simp only [DecoderCore.shown, DecoderCore.emit, DecoderCore.keep]
    split <;> rfl
  · simp only [DecoderCore.shown, DecoderCore.emit, DecoderCore.keep]
    split <;> rfl
  · refine ⟨decide (kind.recFlags &&& kRecKeyframe ≠ 0 ∨ s.frameCount = 0), ?_⟩
    simp only [DecoderCore.shown, DecoderCore.emit, DecoderCore.keep]
    split <;> rfl
  · exact ⟨rfl, rfl⟩

/-- A payload that can be read is shown, if the model's outputs allow it. -/
theorem runFrame_shown {latents : Latents} {scales : Scales} {npu : NpuModel} (sink : Nat → Status)
    (decoded : decodePayload d.gCoder d.bCoder b.entropy b.geom s.zIdx s.latents s.scales payload = .ok (latents, scales))
    (model : b.rs.models[s.active]? = some npu) :
    let slot := s.slotFor recFlags
    let run : NpuRun :=
      { rung := s.active, slot, qp := b.zQp s.active recQ, feed := b.feed latents (s.slot slot) recQ }
    let out := d.runFrame sink b s payload recQ recFlags
    (out.2 = .ok () → Shown b npu run.feed s.refPrev.length) ∧
      (Shown b npu run.feed s.refPrev.length →
        out.1 = ({ s with latents, scales } : DecoderCore).shown b npu run recFlags ∧
          (sink s.emitted.length = .ok → out.2 = .ok ())) := by
  intro slot run out
  have step : out = d.runFrame sink b s payload recQ recFlags := rfl
  simp only [Decoder.runFrame, decoded] at step
  generalize feed : b.feed latents _ recQ = feed' at step
  have fed : run.feed = feed' := by
    rw [← feed]
    rfl
  rw [model] at step
  dsimp only at step
  rw [fed]
  have refused {state : DecoderCore} {status : Status} {reason : String} {shown : Prop}
      (eq : out = (state, Decoder.bad status reason))
      (unfit : ¬Shown b npu feed' s.refPrev.length) :
      (out.2 = .ok () → Shown b npu feed' s.refPrev.length) ∧ (Shown b npu feed' s.refPrev.length → shown) := by
    constructor
    · intro ok
      rw [eq] at ok
      exact absurd ok Result.reject_ne_ok
    · intro fit
      exact absurd fit unfit
  split at step
  · rename_i failed
    exact refused step fun fit => failed fit.played
  · rename_i played
    split at step
    · rename_i bad
      refine refused step fun fit => ?_
      rcases bad with length | picture | feature
      · exact length fit.feature
      · rw [fit.finite.1] at picture
        cases picture
      · rw [fit.finite.2] at feature
        cases feature
    · rename_i good
      split at step
      · rename_i short
        exact refused step fun fit => absurd short (Nat.not_lt.mpr fit.picture)
      · rename_i long
        simp only [not_or, ne_eq, Decidable.not_not, Bool.not_eq_true', Bool.not_eq_false] at good played
        refine ⟨fun _ => ⟨played, good.1, good.2, Nat.not_lt.mp long⟩, fun _ => ?_⟩
        rw [step]
        refine ⟨?_, fun taken => ?_⟩
        · rw [← fed]
          rfl
        · exact if_pos taken

end Decode

/-! ## One record -/

section Record

variable {K : Type} {fns : LogExp K} {e : Encoder} {s : EncoderState K} {input : HostFrame} {sink : Status}

variable {d : Decoder} {b : DecoderBinding} {t : DecoderCore} {kind : FrameKind} {rung : Nat} {usedQp : Int}
  {refs : Refs} {npu : NpuModel} {feed : Feed} {bits : List UInt8} {step : EncodeStep K}

/-- A decoder of the pair has the rung of a QP that the encoder codes with. -/
theorem Paired.selects (paired : Paired e.bound d b) (bound : b.Bound d) (fit : t.Fit b)
    (range : 0 ≤ usedQp ∧ usedQp ≤ 63) (coded : codesWith e.bound.qrows.present e.bound.rs.rungQp rung usedQp) :
    ∃ rung', b.selectRung t.active usedQp = .ok rung' ∧ Chosen b usedQp rung' ∧ b.zQp rung' usedQp = usedQp ∧
      codesWith b.qrows.present b.rs.rungQp rung' usedQp := by
  have selected : ∃ rung', b.selectRung t.active usedQp = .ok rung' := by
    rw [DecoderBinding.selectRung]
    cases present : b.qrows.present with
    | true =>
      have covers : b.covers usedQp = true := by
        rw [DecoderBinding.covers, List.all_eq_true]
        intro r listed
        have := paired.rows r listed
        have word : toU32 usedQp = usedQp.toNat := toU32_of_range range.1 (by omega)
        simp only [Bool.not_eq_true', Bool.or_eq_false_iff, decide_eq_false_iff_not, word]
        omega
      exact ⟨0, by rw [if_pos rfl, if_pos covers]⟩
    | false =>
      rw [if_neg Bool.false_ne_true]
      split
      · exact ⟨_, rfl⟩
      · have tables : e.bound.qrows.present = false := paired.present.symm.trans present
        have listed := coded.resolve_left (by rw [tables]; exact Bool.false_ne_true)
        rw [← paired.rungs tables] at listed
        cases found : findRung b.rs.rungQp usedQp with
        | none => exact absurd (List.mem_of_getElem? listed) (findRung_none found)
        | some n => exact ⟨n, rfl⟩
  obtain ⟨rung', selected⟩ := selected
  have chosen := selectRung_ok bound fit selected
  by_cases fixed : b.Fixed
  · have tables : e.bound.qrows.present = false := paired.present.symm.trans fixed.1
    have listed := coded.resolve_left (by rw [tables]; exact Bool.false_ne_true)
    rw [← paired.rungs tables] at listed
    obtain ⟨q, alone⟩ := List.length_eq_one_iff.mp fixed.2
    have same : usedQp = q := by
      have := List.mem_of_getElem? listed
      rw [alone] at this
      exact List.mem_singleton.mp this
    rw [← same] at alone
    obtain ⟨qp, there⟩ := chosen.zQp_fixed fixed alone
    exact ⟨rung', selected, chosen, qp, .inr there⟩
  · refine ⟨rung', selected, chosen, chosen.zQp fixed, ?_⟩
    cases present : b.qrows.present with
    | true => exact .inl rfl
    | false => exact .inr (chosen.qp present fixed)

theorem Selected.codes {q : Int} (h : Selected e q usedQp rung) :
    codesWith e.bound.qrows.present e.bound.rs.rungQp rung usedQp := by
  have qp := h.qp
  cases present : e.bound.qrows.present with
  | true => exact .inl rfl
  | false =>
    rw [present] at qp
    exact .inr qp

variable [Field K] [LinearOrder K] [FloorRing K]

/-- What a decoder of the pair runs for a coded record: from the state `t₁`, with the latents of the frame. -/
structure Decoding (e : Encoder) (b : DecoderBinding) (t : DecoderCore) (kind : FrameKind) (usedQp : Int)
    (npu : NpuModel) (feed : Feed) (t₁ : DecoderCore) (npu' : NpuModel) (run : NpuRun) : Prop where
  refs : t₁.refs = t.refs.start kind.isIdr
  runs : t₁.runs = t.runs
  emitted : t₁.emitted = t.emitted
  asked : run =
    { rung := t₁.active
      slot := t₁.refs.slotFor kind.isRecovery
      qp := usedQp
      feed := b.feed (e.bound.latents (npu.output feed)) (t₁.refs.get (t₁.refs.slotFor kind.isRecovery)) usedQp }
  model : b.rs.models[run.rung]? = some npu'
  codes : codesWith b.qrows.present b.rs.rungQp run.rung usedQp

/-- **A coded record at a decoder of the pair** is shown, where the outputs of the model allow it. -/
theorem Coded.decoding (sink' : Nat → Status) (coded : Coded e s input step kind rung usedQp refs npu feed bits)
    (bound : e.bound.Bound) (dbound : b.Bound d) (paired : Paired e.bound d b) (fit : s.Fit e) (tfit : t.Fit b)
    (latents : t.latents.Sized b.geom) (scales : t.scales.Sized b.geom) :
    ∃ t₁ npu' run, Decoding e b t kind usedQp npu feed t₁ npu' run ∧
      let out := d.decodeFrame sink' b t bits usedQp kind.recFlags
      let t₂ := { t₁ with latents := e.bound.latents (npu.output feed), scales := step.state.scales }
      (out.2 = .ok () → Shown b npu' run.feed t₁.refPrev.length) ∧
        (Shown b npu' run.feed t₁.refPrev.length →
          out.1 = t₂.shown b npu' run kind.recFlags ∧ (sink' t.emitted.length = .ok → out.2 = .ok ())) := by
  have range := coded.range bound
  obtain ⟨q, selected, -⟩ := coded.qp
  obtain ⟨rung', choice, chosen, zQp, codes⟩ := paired.selects dbound tfit range selected.codes
  have ready := readied usedQp kind.recFlags tfit rung'
  rw [Decoder.decodeFrame, choice]
  dsimp only
  generalize t.prepare b rung' usedQp kind.recFlags = t₁ at ready
  obtain rfl := ready.active
  have modelled : t₁.active < b.rs.models.length := by
    rw [dbound.rungs.models]
    exact chosen.listed
  have model : b.rs.models[t₁.active]? = some b.rs.models[t₁.active] := List.getElem?_eq_getElem modelled
  have decoded : decodePayload d.gCoder d.bCoder b.entropy b.geom t₁.zIdx t₁.latents t₁.scales bits =
      .ok (e.bound.latents (npu.output feed), step.state.scales) := by
    have zIdx := ready.zIdx (by omega)
    rw [zQp] at zIdx
    rw [paired.geom] at latents scales
    rw [zIdx, ready.latents, ready.scales, paired.gCoder, paired.bCoder, paired.entropy, paired.geom]
    exact coded.decodes bound fit latents scales
  have key : decide (kind.recFlags &&& kRecKeyframe ≠ 0) = kind.isIdr := by
    rw [Bool.eq_iff_iff, decide_eq_true_iff]
    exact (recFlags_bits kind).1
  obtain ⟨slot, get, -⟩ := decoder_slots t₁ kind
  obtain ⟨taken, shown⟩ := @runFrame_shown d b t₁ bits usedQp kind.recFlags _ _ _ sink' decoded model
  rw [get, slot, zQp] at taken shown
  refine ⟨t₁, b.rs.models[t₁.active], _, ⟨?_, ready.runs, ready.emitted, rfl, model, codes⟩, taken, fun fits => ?_⟩
  · rw [ready.refs, key]
  · obtain ⟨state, ok⟩ := shown fits
    refine ⟨state, fun free => ok ?_⟩
    rw [ready.emitted]
    exact free

end Record

end Rkvc.Mlvc
