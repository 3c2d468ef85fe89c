import Rkvc.Mlvc.Exchange

/-!
# A picture for every frame

Where its models run, a decoder of the pair shows one picture for each record, that of the
record's frame, or the last one again behind the record of a drop.
-/

namespace Rkvc.Mlvc
set_option autoImplicit false
open Lib Pixel

/-- The decoder's models run, and give finite outputs of their tensors' sizes. -/
def Plays (b : DecoderBinding) : Prop :=
  ∀ npu ∈ b.rs.models, ∀ feed, npu.play feed = .ok ∧ allFinite (npu.output feed b.xOut) = true ∧
    allFinite (npu.output feed b.refOut) = true ∧ b.pictureN ≤ (npu.output feed b.xOut).length ∧
    (npu.output feed b.refOut).length = b.refN

/-- The decoder between two records. -/
structure Held (b : DecoderBinding) (t : DecoderCore) : Prop where
  fit : t.Fit b
  latents : t.latents.Sized b.geom
  scales : t.scales.Sized b.geom
  slots : t.refPrev.length = b.refN

/-- A decoder that has shown a picture. -/
structure Showing (b : DecoderBinding) (t : DecoderCore) : Prop where
  shown : t.haveLastFrame = true
  filled : t.lastNv12 ≠ []
  last : ∃ pic, t.emitted.getLast? = some pic ∧ pic.data = t.lastNv12

/-- A picture has bytes. -/
theorem nv12_nonempty {b : DecoderBinding} (width : b.imgW ≠ 0) (height : b.imgH ≠ 0) (xh : List UInt16) :
    b.nv12 xh ≠ [] := by
  have w : 0 < b.imgW.toNat := Nat.pos_of_ne_zero fun zero => width (UInt32.toNat_inj.mp zero)
  have h : 0 < b.imgH.toNat := Nat.pos_of_ne_zero fun zero => height (UInt32.toNat_inj.mp zero)
  have plane : 0 < b.imgH.toNat * b.imgW.toNat := Nat.mul_pos h w
  intro empty
  have := congrArg List.length empty
  simp only [DecoderBinding.nv12, nchwYuvFp16ToNv12, List.length_append, List.length_map, List.length_range,
    List.length_nil] at this
  omega

section Record

variable {K : Type} [Field K] [LinearOrder K] [FloorRing K]
variable {fns : LogExp K} {e : Encoder} {s : EncoderState K} {input : HostFrame} {step : EncodeStep K}
variable {d : Decoder} {b : DecoderBinding} {t : DecoderCore} {kind : FrameKind} {rung : Nat} {usedQp : Int}
  {refs : Refs} {npu : NpuModel} {feed : Feed} {bits : List UInt8} {sink : Nat → Status}

/-- A coded record shows the picture that the decoder's model makes of the frame's latents. -/
theorem coded_pictured (bound : e.bound.Bound) (dbound : b.Bound d) (paired : Paired e.bound d b) (plays : Plays b)
    (free : ∀ n, sink n = .ok) (extent : b.imgW ≠ 0 ∧ b.imgH ≠ 0) (fit : s.Fit e) (held : Held b t)
    (coded : Coded e s input step kind rung usedQp refs npu feed bits) (fit' : step.state.Fit e) :
    let out := d.decodeFrame sink b t bits usedQp kind.recFlags
    out.2 = .ok () ∧ Held b out.1 ∧ Showing b out.1 ∧
      ∃ (npu' : NpuModel) (run' : NpuRun) (ref : List UInt16) (keyframe : Bool), b.rs.models[run'.rung]? = some npu' ∧
        run'.feed = b.feed (e.bound.latents (npu.output feed)) ref usedQp ∧
        out.1.emitted = t.emitted ++
          [{ width := b.imgW, height := b.imgH, data := b.nv12 (npu'.output run'.feed b.xOut), keyframe }] := by
  intro out
  have range := coded.range bound
  have whole : _ ∧ _ := @decodeFrame_spec sink d b t bits usedQp kind.recFlags dbound held.fit (by omega)
  obtain ⟨refN, codable⟩ := coded.codable
  obtain ⟨sized, -, -⟩ := codable_spec codable
  obtain ⟨t₁, npu', run', decoding, -, shown⟩ :=
    coded.decoding sink bound dbound paired fit held.fit held.latents held.scales
  obtain ⟨played, finite, feature, picture, length⟩ := plays npu' (List.mem_of_getElem? decoding.model) run'.feed
  have slots : t₁.refPrev.length = b.refN := by
    have := congrArg (fun r : Refs => r.prev.length) decoding.refs
    rw [Refs.start] at this
    split at this
    · exact (this.trans List.length_replicate).trans held.slots
    · exact this.trans held.slots
  obtain ⟨state, ok⟩ := shown ⟨played, length.trans slots.symm, ⟨finite, feature⟩, picture⟩
  have spec := shown_spec { t₁ with latents := e.bound.latents (npu.output feed), scales := step.state.scales } b npu'
    run' kind
  rw [← state] at spec
  obtain ⟨keyframe, emitted⟩ := spec.emitted
  dsimp only at emitted
  rw [decoding.emitted] at emitted
  refine ⟨ok (free _), ⟨whole.1, ?_, ?_, ?_⟩, ⟨spec.last.1, ?_, ?_⟩, npu', run',
    t₁.refs.get (t₁.refs.slotFor kind.isRecovery), keyframe, decoding.model, ?_, emitted⟩
  · rw [spec.latents, paired.geom]
    exact sized
  · rw [spec.scales, paired.geom]
    exact fit'.scales
  · have prev := congrArg Refs.prev spec.refs
    rw [Refs.keep] at prev
    refine (congrArg List.length prev).trans ?_
    split <;> exact length
  · rw [spec.last.2]
    exact nv12_nonempty extent.1 extent.2 _
  · refine ⟨⟨b.imgW, b.imgH, b.nv12 (npu'.output run'.feed b.xOut), keyframe⟩, ?_, spec.last.2.symm⟩
    rw [emitted, List.getLast?_concat]
  · rw [decoding.asked]

/-- The record of a drop shows the last picture again. -/
theorem dropped_pictured (free : ∀ n, sink n = .ok) (held : Held b t) (showing : Showing b t) :
    let out := Decoder.repeatFrame sink b t
    out.2 = .ok () ∧ Held b out.1 ∧ Showing b out.1 ∧
      out.1.emitted = t.emitted ++ [{ width := b.imgW, height := b.imgH, data := t.lastNv12 }] := by
  intro out
  have eq : out = (t.emit b t.lastNv12 false, .ok ()) := by
    show Decoder.repeatFrame sink b t = _
    rw [Decoder.repeatFrame, if_pos ⟨showing.shown, showing.filled⟩, free]
    rfl
  rw [eq]
  refine ⟨rfl, ⟨⟨held.fit.active, held.fit.tabled⟩, held.latents, held.scales, held.slots⟩,
    ⟨showing.shown, showing.filled, ?_⟩, rfl⟩
  refine ⟨{ width := b.imgW, height := b.imgH, data := t.lastNv12 }, ?_, rfl⟩
  exact List.getLast?_concat

end Record

/-! ## Runs -/

section Runs

theorem frameCount_succ {n : UInt32} (few : n.toNat + 1 < 2 ^ 32) : (n + 1).toNat = n.toNat + 1 := by
  rw [UInt32.toNat_add]
  exact Nat.mod_eq_of_lt few

variable {K : Type}

/-- What a decoder makes of a list of records. -/
def Decoder.decodeAll (sink : Nat → Status) (d : Decoder) (b : DecoderBinding) :
    DecoderCore → List View → DecoderCore × Result Unit
  | t, [] => (t, .ok ())
  | t, v :: views =>
    match d.decodeRecord sink b t v with
    | (t, .ok ()) => decodeAll sink d b t views
    | failed => failed

/-- The picture that the decoder shows for the frame of a step: of the latents that the encoder's model
gave, or the one that was shown last. -/
structure Pictured (e : Encoder) (b : DecoderBinding) (shown : List Picture) (step : EncodeStep K) (pic : Picture) :
    Prop where
  extent : pic.width = b.imgW ∧ pic.height = b.imgH
  dropped : step.view.qIndex = kQindexDropped → ∃ last, shown.getLast? = some last ∧ pic.data = last.data
  coded : step.view.qIndex ≠ kQindexDropped → ∃ (run run' : NpuRun) (npu npu' : NpuModel) (ref : List UInt16),
    step.run = some run ∧ e.bound.rs.models[run.rung]? = some npu ∧ b.rs.models[run'.rung]? = some npu' ∧
      run'.feed = b.feed (e.bound.latents (npu.output run.feed)) ref run.qp ∧
      pic.data = b.nv12 (npu'.output run'.feed b.xOut)

/-- One picture for each step, in their order. -/
def PicturedAll (e : Encoder) (b : DecoderBinding) : List Picture → List (EncodeStep K) → List Picture → Prop
  | _, [], pics => pics = []
  | shown, step :: steps, pics =>
    ∃ pic later, pics = pic :: later ∧ Pictured e b shown step pic ∧ PicturedAll e b (shown ++ [pic]) steps later

theorem PicturedAll.length {e : Encoder} {b : DecoderBinding} {shown pics : List Picture} {steps : List (EncodeStep K)}
    (h : PicturedAll e b shown steps pics) : pics.length = steps.length := by
  induction steps generalizing shown pics with
  | nil => exact congrArg List.length h
  | cons step steps ih =>
    obtain ⟨pic, later, rfl, -, rest⟩ := h
    rw [List.length_cons, List.length_cons, ih rest]

variable [Field K] [LinearOrder K] [FloorRing K]
variable {fns : LogExp K} {e : Encoder} {d : Decoder} {b : DecoderBinding} {sink : Nat → Status}
  {s : EncoderState K} {t : DecoderCore} {input : HostFrame} {inputs : List HostFrame} {steps : List (EncodeStep K)}

/-- One record, one picture. -/
theorem record_pictured (bound : e.bound.Bound) (dbound : b.Bound d) (paired : Paired e.bound d b) (plays : Plays b)
    (free : ∀ n, sink n = .ok) (extent : b.imgW ≠ 0 ∧ b.imgH ≠ 0) (fit : s.Fit e) (held : Held b t)
    (showing : s.frameCount ≠ 0 → Showing b t) {step : EncodeStep K} (made : e.process fns s input .ok = step)
    (ok : step.result = .ok ()) (short : step.Short) :
    let out := d.decodeRecord sink b t step.view
    step.state.Fit e ∧ step.state.frameCount = s.frameCount + 1 ∧ out.2 = .ok () ∧ Held b out.1 ∧ Showing b out.1 ∧
      ∃ pic, out.1.emitted = t.emitted ++ [pic] ∧ Pictured e b t.emitted step pic := by
  obtain ⟨fit', -, spec⟩ := step_spec bound fit made ok
  obtain ⟨-, -, dropped | coded⟩ := step_view bound fit short spec
  · obtain ⟨dropped, view⟩ := dropped
    have showing := showing dropped.later
    obtain ⟨taken, held', showing', emitted⟩ := dropped_pictured free held showing
    have repeated : d.decodeRecord sink b t step.view = Decoder.repeatFrame sink b t := by
      rw [view]
      exact if_pos rfl
    obtain ⟨last, before, same⟩ := showing.last
    rw [repeated]
    refine ⟨fit', dropped.frameCount, taken, held', showing', _, emitted, ⟨rfl, rfl⟩, fun _ => ⟨last, before, same.symm⟩, ?_⟩
    intro undropped
    rw [view] at undropped
    exact absurd rfl undropped
  · obtain ⟨kind, rung, usedQp, refs, npu, feed, bits, coded, view, value, undropped⟩ := coded
    have decoded : d.decodeRecord sink b t step.view = d.decodeFrame sink b t bits usedQp kind.recFlags := by
      rw [Decoder.decodeRecord, if_neg undropped, value, view]
      rfl
    obtain ⟨taken, held', showing', npu', run', ref, keyframe, model, fed, emitted⟩ :=
      coded_pictured bound dbound paired plays free extent fit held coded fit'
    rw [decoded]
    refine ⟨fit', coded.frameCount, taken, held', showing', _, emitted, ⟨rfl, rfl⟩, fun drop => absurd drop undropped, ?_⟩
    intro _
    exact ⟨_, run', npu, npu', ref, coded.run, coded.model, model, fed, rfl⟩

/-- **A picture for every record**, in their order. -/
theorem records_pictured (bound : e.bound.Bound) (dbound : b.Bound d) (paired : Paired e.bound d b) (plays : Plays b)
    (free : ∀ n, sink n = .ok) (extent : b.imgW ≠ 0 ∧ b.imgH ≠ 0) (fit : s.Fit e) (held : Held b t)
    (showing : s.frameCount ≠ 0 → Showing b t) (few : s.frameCount.toNat + inputs.length < 2 ^ 32)
    (run : e.steps fns s inputs = some steps) (short : ∀ step ∈ steps, step.Short) :
    ∃ t' pics, d.decodeAll sink b t (steps.map (·.view)) = (t', .ok ()) ∧ t'.emitted = t.emitted ++ pics ∧
      PicturedAll e b t.emitted steps pics := by
  induction inputs generalizing s t steps with
  | nil =>
    rw [steps_nil run]
    exact ⟨t, [], rfl, (List.append_nil _).symm, rfl⟩
  | cons input inputs ih =>
    obtain ⟨step, later, rfl, made, ok, run⟩ := steps_cons run
    obtain ⟨fit', count, taken, held', showing', pic, emitted, pictured⟩ :=
      @record_pictured _ _ _ _ fns e d b sink s t input bound dbound paired plays free extent fit held showing step made
        ok (short step List.mem_cons_self)
    rw [List.length_cons] at few
    have next : step.state.frameCount.toNat = s.frameCount.toNat + 1 := by
      rw [count]
      exact frameCount_succ (by omega)
    obtain ⟨t', pics, all, shown, rest⟩ := ih fit' held' (fun _ => showing') (by omega) run
      fun step listed => short step (List.mem_cons_of_mem _ listed)
    refine ⟨t', pic :: pics, ?_, ?_, pic, pics, rfl, pictured, ?_⟩
    · rw [List.map_cons, Decoder.decodeAll]
      generalize d.decodeRecord sink b t step.view = out at taken all
      obtain ⟨t₁, result⟩ := out
      dsimp only at taken all
      rw [taken]
      exact all
    · rw [shown, emitted, List.append_assoc]
      rfl
    · rw [← emitted]
      exact rest

end Runs

end Rkvc.Mlvc
