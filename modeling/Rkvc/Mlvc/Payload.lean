import Rkvc.Mlvc.Codec
import Rkvc.Mlvc.Pixel
import Rkvc.Mlvc.Rans.RoundTrip

/-!
# The payload of a frame record

The entropy-coded part of `MlvcEncoderNode::process` and of `decode_frame`. Two
coders share one stream: the latents are coded first, with the scales taken from
the hyper-latents as their indices, and the hyper-latents last. The decoder takes
the hyper-latents off first, rebuilds the scales from them, and with these takes
off the latents.

A bound geometry whose latent channels overflow the check of
`resolve_entropy_geometry` is refused by `extract_scales` at every frame;
everywhere else the payload round trip holds (`payload_round_trip`).
-/

namespace Rkvc.Mlvc
set_option autoImplicit false
open Lib Pixel

/-- The integers of one frame: hyper-latents and the two halves of the latents. -/
structure Latents where
  z : List Int32
  y0 : List Int32
  y1 : List Int32
  deriving DecidableEq, Repr

/-- The two scale planes. -/
structure Scales where
  s0 : List Int32
  s1 : List Int32
  deriving DecidableEq, Repr

/-- `extract_scales` as both nodes call it. -/
def extractFor (cfg : EntropyConfig) (geom : Geometry) (z : List Int32) (scales : Scales) : Status × Scales :=
  let (status, s0, s1) := extractScales z scales.s0 scales.s1 geom.YC.toInt geom.YH.toInt geom.YW.toInt
    geom.ZC.toInt geom.ZH.toInt geom.ZW.toInt cfg.channelRepeat cfg.spatialRepeat cfg.scaleMaxIndex
  (status, ⟨s0, s1⟩)

/-- The encoder's side, from the scale extraction to the flush. -/
def encodePayload (g b : RansCoder) (cfg : EntropyConfig) (geom : Geometry) (zIdx : List Int32)
    (latents : Latents) (scales : Scales) : Result (List UInt8 × Scales) :=
  let bad (s : Status) (reason : String) : Result (List UInt8 × Scales) :=
    Result.reject s "process" "mlvc.encode" reason
  let (xs, scales) := extractFor cfg geom latents.z scales
  if xs ≠ .ok then bad xs "scale extraction mismatch"
  else
    let (rs, enc) := (RansEncoder.new .byte 65536).encode g scales.s1 latents.y1
    let (rs, enc) := if rs = .ok then enc.encode g scales.s0 latents.y0 else (rs, enc)
    let (rs, enc) := if rs = .ok then enc.encode b zIdx latents.z else (rs, enc)
    if rs ≠ .ok then bad .internal "rANS encode failed"
    else
      let (fs, bits, _) := enc.flush
      if fs ≠ .ok then bad .internal "rANS flush failed" else .ok (bits, scales)

/-- The decoder's side, from the stream to its end. The arrays hold the previous
frame. -/
def decodePayload (g b : RansCoder) (cfg : EntropyConfig) (geom : Geometry) (zIdx : List Int32)
    (latents : Latents) (scales : Scales) (payload : List UInt8) : Result (Latents × Scales) :=
  let bad (reason : String) : Result (Latents × Scales) :=
    Result.reject .format "process" "mlvc.decode" reason
  let (os, dec) := (RansDecoder.new .byte).open payload
  if os ≠ .ok then bad "rANS stream open failed"
  else
    let (zs, z, dec) := dec.decode b latents.z zIdx
    if zs ≠ .ok then bad "rANS z decode failed"
    else
      let (xs, scales) := extractFor cfg geom z scales
      if xs ≠ .ok then bad "scale extraction mismatch"
      else
        let (ys0, y0, dec) := dec.decode g latents.y0 scales.s0
        if ys0 ≠ .ok then bad "rANS y decode failed"
        else
          let (ys1, y1, dec) := dec.decode g latents.y1 scales.s1
          if ys1 ≠ .ok then bad "rANS y decode failed"
          else if !dec.checkEof then bad "rANS trailing data"
          else .ok (⟨z, y0, y1⟩, scales)

/-- Arrays of the geometry's sizes. -/
structure Latents.Sized (latents : Latents) (geom : Geometry) : Prop where
  z : latents.z.length = geom.zSize
  y0 : latents.y0.length = geom.ySize
  y1 : latents.y1.length = geom.ySize

structure Scales.Sized (scales : Scales) (geom : Geometry) : Prop where
  s0 : scales.s0.length = geom.ySize
  s1 : scales.s1.length = geom.ySize

/-- The geometries whose channel check does not overflow. -/
def Geometry.NoOverflow (geom : Geometry) (cfg : EntropyConfig) : Prop :=
  2 * geom.YC.toInt + cfg.channelRepeat - 1 < 2 ^ 31

section
variable {g b : RansCoder} {cfg : EntropyConfig} {geom : Geometry}

/-- A checked geometry is one `extract_scales` accepts. -/
theorem accepts_of_noOverflow (coders : CodersReady g b cfg) (ready : GeometryReady cfg geom)
    (fits : geom.NoOverflow cfg) :
    Accepts geom.YC.toInt geom.YH.toInt geom.YW.toInt geom.ZC.toInt geom.ZH.toInt geom.ZW.toInt
      cfg.channelRepeat cfg.spatialRepeat cfg.scaleMaxIndex := by
  have pos := ready.positive
  have room := ready.room
  have rep := ready.repeats
  rw [i32_of_range (by omega) fits] at room
  exact ⟨by omega, coders.scale.1, room⟩

/-- A geometry whose check overflows is refused. -/
theorem refuses_of_overflow (coders : CodersReady g b cfg) (ready : GeometryReady cfg geom)
    (wide : ¬geom.NoOverflow cfg) :
    ¬Accepts geom.YC.toInt geom.YH.toInt geom.YW.toInt geom.ZC.toInt geom.ZH.toInt geom.ZW.toInt
      cfg.channelRepeat cfg.spatialRepeat cfg.scaleMaxIndex := by
  intro accepts
  have room := accepts.room
  have channels := coders.channels
  have zc := ready.channels
  simp only [Geometry.NoOverflow, kMaxLen, Nat.shiftLeft_eq] at wide channels
  have pos := ready.positive
  rcases ready.repeats with ⟨cr, -⟩ | ⟨cr, -⟩ <;>
    rw [cr] at room wide <;>
    rw [Int.tdiv_eq_ediv_of_nonneg (by omega)] at room <;>
    omega

/-- The scales of an accepted geometry: they succeed, have the planes' sizes, are
no negative index and do not depend on the arrays. -/
theorem extractFor_spec {z : List Int32} {scales other : Scales} (coders : CodersReady g b cfg)
    (ready : GeometryReady cfg geom) (fits : geom.NoOverflow cfg) (sized : scales.Sized geom)
    (sized' : other.Sized geom) :
    ∃ out : Scales, extractFor cfg geom z scales = (.ok, out) ∧ extractFor cfg geom z other = (.ok, out) ∧
      out.Sized geom ∧ (∀ i ∈ out.s0, 0 ≤ i.toInt) ∧ ∀ i ∈ out.s1, 0 ≤ i.toInt := by
  have accepts := accepts_of_noOverflow coders ready fits
  have small : cfg.scaleMaxIndex < 2 ^ 31 := by
    have := coders.scale.2
    simp only [kMaxLen, Nat.shiftLeft_eq] at this
    omega
  have same := extractScales_forget (z := z) accepts sized.s0 sized.s1 sized'.s0 sized'.s1
  obtain ⟨pos0, pos1⟩ := extractScales_nonneg (z := z) accepts small sized.s0 sized.s1
  obtain ⟨len0, len1⟩ := extractScales_length (z := z)
  have ok : (extractFor cfg geom z scales).1 = .ok := congrArg Prod.fst (extractScales_accepted accepts)
  refine ⟨(extractFor cfg geom z scales).2, Prod.ext ok rfl, ?_, ⟨len0.trans sized.s0, len1.trans sized.s1⟩,
    pos0, pos1⟩
  simp only [extractFor, ← same]
  exact Prod.ext ok rfl

theorem extractFor_sized {z : List Int32} {scales : Scales} (sized : scales.Sized geom) :
    (extractFor cfg geom z scales).2.Sized geom := by
  constructor
  · exact extractScales_length.1.trans sized.s0
  · exact extractScales_length.2.trans sized.s1

/-- The scales an encoder leaves have the sizes they had. -/
theorem encodePayload_sized {zIdx : List Int32} {latents : Latents} {scales out : Scales} {bits : List UInt8}
    (sized : scales.Sized geom) (h : encodePayload g b cfg geom zIdx latents scales = .ok (bits, out)) :
    out.Sized geom := by
  have kept := @extractFor_sized cfg geom latents.z scales sized
  unfold encodePayload at h
  generalize extractFor cfg geom latents.z scales = x at h kept
  obtain ⟨xs, scales'⟩ := x
  dsimp only at h kept
  -- every branch rejects but the last
  split_ifs at h <;> first | exact absurd h Result.reject_ne_ok | (cases h; exact kept)

/-- Where no index is negative, decoding gives every value back. -/
theorem decoded_of_nonneg {indices values : List Int32} (len : values.length = indices.length)
    (nonneg : ∀ i ∈ indices, 0 ≤ i.toInt) : List.zipWith RansDecoder.decoded indices values = values := by
  induction indices generalizing values with
  | nil => rw [List.length_eq_zero_iff.1 len]; rfl
  | cons index indices ih =>
    obtain ⟨value, values, rfl⟩ := List.exists_cons_of_length_eq_add_one len
    have head := nonneg index List.mem_cons_self
    rw [List.zipWith_cons_cons, ih (by simpa using len) fun i hi => nonneg i (List.mem_cons_of_mem index hi),
      RansDecoder.decoded, if_neg (by omega)]

/-- The calls of a payload meet what a round trip needs. -/
theorem sound_of_created {c : RansCoder} (indices : List Int32) {values : List Int32}
    (created : ∃ lengths offsets table, RansCoder.create .byte lengths offsets table 16 2 = .ok c)
    (len : values.length = indices.length) : (EncodeCall.mk c indices values).Sound .byte := by
  obtain ⟨lengths, offsets, table, hc⟩ := created
  obtain ⟨-, -, symbol, bypass⟩ := RansCoder.create_valid hc
  have symbol16 : c.symbolBits = 16 := symbol
  have bypass2 : c.bypassBits = 2 := bypass
  exact
    { accepted := ⟨_, _, _, _, _, hc⟩
      symbol := by simp only [symbol16]; decide
      bypass := by simp only [bypass2]; decide
      admitted := RansDecoder.digitsAdmitted_two bypass2
      spans := len }

/-- The status of a sound call. -/
theorem encode_ok (done : List EncodeCall) {call : EncodeCall} (sound : ∀ c ∈ done, c.Sound .byte)
    (call_sound : call.Sound .byte) :
    (encodeAll done (.new .byte 65536)).encode call.coder call.indices call.values =
      (.ok, encodeAll (done ++ [call]) (.new .byte 65536)) := by
  obtain ⟨valid, variant⟩ := call_sound.accepted.valid
  obtain ⟨opened, same⟩ := runPuts_open (done.flatMap EncodeCall.puts) (RansEncoder.new_open .byte 65536)
  have run : (encodeAll done (.new .byte 65536)).Open ∧ (encodeAll done (.new .byte 65536)).variant = .byte := by
    rw [encodeAll_eq (fun c hc => (sound c hc).accepted) (RansEncoder.new_open .byte 65536) rfl]
    exact ⟨opened, same⟩
  have status := RansEncoder.encode_eq valid run.1 (run.2.trans variant.symm) call_sound.spans.symm
  refine Prod.ext (by rw [status]) ?_
  rw [encodeAll, encodeAll, List.foldl_append]
  rfl

/-- The calls of a payload, in the encoder's order. -/
def payloadCalls (g b : RansCoder) (zIdx : List Int32) (latents : Latents) (scales : Scales) : List EncodeCall :=
  [⟨g, scales.s1, latents.y1⟩, ⟨g, scales.s0, latents.y0⟩, ⟨b, zIdx, latents.z⟩]

theorem payloadCalls_sound {zIdx : List Int32} {latents : Latents} {scales : Scales} (coders : CodersReady g b cfg)
    (sized : latents.Sized geom) (scales_sized : scales.Sized geom) (zlen : zIdx.length = geom.zSize) :
    (EncodeCall.mk g scales.s1 latents.y1).Sound .byte ∧ (EncodeCall.mk g scales.s0 latents.y0).Sound .byte ∧
      (EncodeCall.mk b zIdx latents.z).Sound .byte := by
  refine ⟨?_, ?_, ?_⟩
  · exact sound_of_created scales.s1 coders.gaussian (by rw [sized.y1, scales_sized.s1])
  · exact sound_of_created scales.s0 coders.gaussian (by rw [sized.y0, scales_sized.s0])
  · exact sound_of_created zIdx coders.bitest (by rw [sized.z, zlen])

/-- The payload of an accepted geometry is the stack of its calls. -/
theorem encodePayload_eq {zIdx : List Int32} {latents : Latents} {scales out : Scales} (coders : CodersReady g b cfg)
    (sized : latents.Sized geom) (out_sized : out.Sized geom) (zlen : zIdx.length = geom.zSize)
    (extracted : extractFor cfg geom latents.z scales = (.ok, out)) :
    encodePayload g b cfg geom zIdx latents scales =
      .ok (RansVariant.byte.frameBytes (stackOf .byte (payloadCalls g b zIdx latents out)), out) := by
  obtain ⟨call1, call2, call3⟩ := payloadCalls_sound coders sized out_sized zlen
  have first := encode_ok [] (by simp) call1
  have second := encode_ok [⟨g, out.s1, latents.y1⟩] (by simpa using call1) call2
  have third := encode_ok [⟨g, out.s1, latents.y1⟩, ⟨g, out.s0, latents.y0⟩] (by simpa using ⟨call1, call2⟩) call3
  obtain ⟨-, e', flushed⟩ := @encodeAll_flush .byte (payloadCalls g b zIdx latents out) 65536
    (by simpa [payloadCalls] using ⟨call1, call2, call3⟩)
  simp only [encodeAll, List.foldl_nil, List.nil_append] at first
  dsimp only [encodeAll, payloadCalls, List.cons_append, List.nil_append] at second third flushed
  simp only [encodePayload, extracted, first, second, third, flushed, ne_eq, not_true_eq_false, if_false, if_true]
  rfl

/-- **A payload round trip** for coders and a geometry the channel check covers. -/
theorem payload_of_noOverflow {zIdx : List Int32} {latents old : Latents} {scales other : Scales}
    (coders : CodersReady g b cfg) (ready : GeometryReady cfg geom) (fits : geom.NoOverflow cfg)
    (sized : latents.Sized geom) (scales_sized : scales.Sized geom) (old_sized : old.Sized geom)
    (other_sized : other.Sized geom) (zlen : zIdx.length = geom.zSize) (znonneg : ∀ i ∈ zIdx, 0 ≤ i.toInt) :
    ∃ bytes out, encodePayload g b cfg geom zIdx latents scales = .ok (bytes, out) ∧
      decodePayload g b cfg geom zIdx old other bytes = .ok (latents, out) := by
  obtain ⟨out, enc_scales, dec_scales, out_sized, nonneg0, nonneg1⟩ :=
    extractFor_spec (z := latents.z) coders ready fits scales_sized other_sized
  obtain ⟨call1, call2, call3⟩ := payloadCalls_sound coders sized out_sized zlen
  have sound : ∀ call ∈ payloadCalls g b zIdx latents out, call.Sound .byte := by
    simpa [payloadCalls] using ⟨call1, call2, call3⟩
  obtain ⟨e', d, -, opened, shows⟩ := encodeAll_open 65536 sound
  refine ⟨_, out, encodePayload_eq coders sized out_sized zlen enc_scales, ?_⟩
  simp only [stackOf, payloadCalls, List.flatMap_cons, List.flatMap_nil, List.append_nil, List.foldl_append] at shows
  have start := RansVariant.byte.lower_mem
  obtain ⟨d1, undo3, shows1⟩ := call3.decode_spec (by rw [old_sized.z, zlen]) (call2.mem (call1.mem start)) shows
  obtain ⟨d2, undo2, shows2⟩ := call2.decode_spec (by rw [old_sized.y0, out_sized.s0]) (call1.mem start) shows1
  obtain ⟨d3, undo1, shows3⟩ := call1.decode_spec (by rw [old_sized.y1, out_sized.s1]) start shows2
  dsimp only [EncodeCall.decoded] at undo1 undo2 undo3
  rw [decoded_of_nonneg (by rw [sized.z, zlen]) znonneg] at undo3
  rw [decoded_of_nonneg (by rw [sized.y0, out_sized.s0]) nonneg0] at undo2
  rw [decoded_of_nonneg (by rw [sized.y1, out_sized.s1]) nonneg1] at undo1
  have eof := RansDecoder.checkEof_of_shows shows3
  simp only [decodePayload, opened, undo3, dec_scales, undo2, undo1, eof, ne_eq, not_true_eq_false, if_false,
    Bool.not_true, Bool.false_eq_true]

/-- A refused geometry codes no frame. -/
theorem payload_of_overflow {zIdx : List Int32} {latents : Latents} {scales : Scales}
    (coders : CodersReady g b cfg) (ready : GeometryReady cfg geom) (wide : ¬geom.NoOverflow cfg) :
    encodePayload g b cfg geom zIdx latents scales =
      Result.reject .invalid "process" "mlvc.encode" "scale extraction mismatch" := by
  have refused : (extractFor cfg geom latents.z scales).1 = .invalid :=
    congrArg Prod.fst (extractScales_refused (refuses_of_overflow coders ready wide))
  simp only [encodePayload, refused, ne_eq, reduceCtorEq, not_false_eq_true, if_true]

end

/-- A QP of either node keeps the hyper-latents' indices in range. -/
theorem zIdx_fits {g b : RansCoder} {cfg : EntropyConfig} {geom : Geometry} {q : Int}
    (coders : CodersReady g b cfg) (ready : GeometryReady cfg geom) (hi : q ≤ 63) :
    q * geom.ZC.toInt + geom.ZC.toInt ≤ 2 ^ 31 := by
  have channels := coders.channels
  have zc := ready.channels
  have pos := ready.positive
  simp only [kMaxLen, Nat.shiftLeft_eq] at channels
  have : q * geom.ZC.toInt ≤ 63 * geom.ZC.toInt := Int.mul_le_mul_of_nonneg_right hi (by omega)
  omega

/-- **The payload round trip.** Both nodes take their coders from the same tables
and resolve the same geometry. Encoding a frame and decoding its payload gives
the frame back, with the same scales on both sides, exactly when the geometry's
channel check does not overflow. -/
theorem payload_round_trip {encModel decModel : Model} {g b g' b' : RansCoder}
    {bound bound' cfg cfg' : EntropyConfig} {qp qp' q : Int} {geom : Geometry} {latents old : Latents}
    {scales other : Scales} (gaussian : findGaussian encModel = findGaussian decModel)
    (bitest : encModel.find kKindPmfBitest = decModel.find kKindPmfBitest)
    (enc_init : initRansCoders encModel {} = .ok (g, b, bound))
    (dec_init : initRansCoders decModel {} = .ok (g', b', bound'))
    (enc_geom : resolveEntropyGeometry bound qp geom = .ok cfg)
    (dec_geom : resolveEntropyGeometry bound' qp' geom = .ok cfg') (qlo : 0 ≤ q) (qhi : q ≤ 63)
    (sized : latents.Sized geom) (scales_sized : scales.Sized geom) (old_sized : old.Sized geom)
    (other_sized : other.Sized geom) :
    (∃ bytes out, encodePayload g b cfg geom (buildZIdx q geom) latents scales = .ok (bytes, out) ∧
        decodePayload g' b' cfg' geom (buildZIdx q geom) old other bytes = .ok (latents, out)) ↔
      geom.NoOverflow cfg := by
  have same := (initRansCoders_congr {} gaussian bitest).symm.trans enc_init
  rw [dec_init] at same
  simp only [Except.ok.injEq, Prod.mk.injEq] at same
  obtain ⟨rfl, rfl, rfl⟩ := same
  obtain ⟨ready, scale, channels⟩ := resolveEntropyGeometry_ready enc_geom
  obtain rfl : cfg = cfg' := resolveEntropyGeometry_unique enc_geom dec_geom
  have bound_ready := initRansCoders_ready enc_init
  have coders : CodersReady g' b' cfg :=
    ⟨bound_ready.gaussian, bound_ready.bitest, by rw [scale]; exact bound_ready.scale,
      by rw [channels]; exact bound_ready.channels⟩
  constructor
  · rintro ⟨bytes, out, encoded, -⟩
    by_contra wide
    rw [payload_of_overflow coders ready wide] at encoded
    cases encoded
  · intro fits
    exact payload_of_noOverflow coders ready fits sized scales_sized old_sized other_sized
      (buildZIdx_length q geom) (buildZIdx_nonneg qlo (zIdx_fits coders ready qhi))

/-! ## A small model -/

/-- One Gaussian and one hyper-latent distribution, of two symbols each. -/
def smallModel : Model where
  role := "encoder"
  payloads :=
    let arrays := pmfMagic ++ leBytes 4 1 ++ leBytes 4 1 ++ leBytes 4 2 ++
      leBytes 4 2 ++ leBytes 4 0 ++ leBytes 4 1 ++ leBytes 4 1
    [⟨kKindPmfGaussian, arrays ++ leBytes 4 1 ++ leBytes 8 0 ++ leBytes 8 0 ++ leBytes 4 1 ++ leBytes 4 1⟩,
      ⟨kKindPmfBitest, arrays ++ leBytes 4 2 ++ leBytes 4 1 ++ leBytes 4 1⟩]

/-- The coders of the small model. -/
def smallCoders : RansCoder × RansCoder × EntropyConfig :=
  match initRansCoders smallModel {} with
  | .ok r => r
  | .error _ => ({}, {}, {})

theorem smallCoders_eq : initRansCoders smallModel {} = .ok smallCoders := by
  decide +kernel

/-- One hyper-latent and one latent of each half. -/
theorem payload_round_trip_small :
    ∃ bytes out, encodePayload smallCoders.1 smallCoders.2.1
        { smallCoders.2.2 with channelRepeat := 2, spatialRepeat := 8 } ⟨1, 1, 1, 1, 1, 1⟩
        (buildZIdx 21 ⟨1, 1, 1, 1, 1, 1⟩) ⟨[-3], [0], [700]⟩ ⟨[9], [9]⟩ = .ok (bytes, out) ∧
      decodePayload smallCoders.1 smallCoders.2.1
        { smallCoders.2.2 with channelRepeat := 2, spatialRepeat := 8 } ⟨1, 1, 1, 1, 1, 1⟩
        (buildZIdx 21 ⟨1, 1, 1, 1, 1, 1⟩) ⟨[0], [0], [0]⟩ ⟨[5], [6]⟩ bytes = .ok (⟨[-3], [0], [700]⟩, out) :=
  (@payload_round_trip smallModel smallModel _ _ _ _ _ _ _ _ 0 0 _ _ _ _ _ _ rfl rfl
    smallCoders_eq smallCoders_eq (by decide +kernel) (by decide +kernel) (by decide) (by decide)
    ⟨by decide, by decide, by decide⟩ ⟨by decide, by decide⟩ ⟨by decide, by decide, by decide⟩
    ⟨by decide, by decide⟩).2 (by unfold Geometry.NoOverflow; decide +kernel)

/-- With `2 ^ 30` latent channels the check of `resolve_entropy_geometry` wraps
and passes, and every frame is refused. -/
theorem wide_geometry_codes_nothing :
    resolveEntropyGeometry smallCoders.2.2 0 ⟨1, 1, 1, 2 ^ 30, 1, 1⟩ =
        .ok { smallCoders.2.2 with channelRepeat := 2, spatialRepeat := 8 } ∧
      (⟨[0], List.replicate (2 ^ 30) 0, List.replicate (2 ^ 30) 0⟩ : Latents).Sized ⟨1, 1, 1, 2 ^ 30, 1, 1⟩ ∧
      encodePayload smallCoders.1 smallCoders.2.1
          { smallCoders.2.2 with channelRepeat := 2, spatialRepeat := 8 } ⟨1, 1, 1, 2 ^ 30, 1, 1⟩
          (buildZIdx 0 ⟨1, 1, 1, 2 ^ 30, 1, 1⟩)
          ⟨[0], List.replicate (2 ^ 30) 0, List.replicate (2 ^ 30) 0⟩
          ⟨List.replicate (2 ^ 30) 0, List.replicate (2 ^ 30) 0⟩ =
        Result.reject .invalid "process" "mlvc.encode" "scale extraction mismatch" := by
  have resolved : resolveEntropyGeometry smallCoders.2.2 0 ⟨1, 1, 1, 2 ^ 30, 1, 1⟩ =
      .ok { smallCoders.2.2 with channelRepeat := 2, spatialRepeat := 8 } := by decide +kernel
  have bound := initRansCoders_ready smallCoders_eq
  have size : (2 ^ 30 : Int32).toInt.toNat * (1 : Int32).toInt.toNat * (1 : Int32).toInt.toNat = 2 ^ 30 := by
    decide
  refine ⟨resolved, ⟨by decide, ?_, ?_⟩, ?_⟩
  · rw [List.length_replicate]; exact size.symm
  · rw [List.length_replicate]; exact size.symm
  · refine payload_of_overflow ⟨bound.gaussian, bound.bitest, bound.scale, bound.channels⟩
      (resolveEntropyGeometry_ready resolved).1 ?_
    unfold Geometry.NoOverflow
    decide

end Rkvc.Mlvc
