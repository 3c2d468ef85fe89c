import Rkvc.Mlvc.Transport

/-!
# How long a payload is

A step of the coder sheds four bytes at most, and a value takes 34 steps at most, with its
bypass code. So the payloads of a small geometry fit into their records.
-/

namespace Rkvc.Mlvc
set_option autoImplicit false
open Lib Lib.Ans

/-! ## Steps -/

theorem shed_length {B xMax fuel x : Nat} : (shed B xMax fuel x).1.length ≤ fuel := by
  induction fuel generalizing x with
  | zero => exact Nat.le_refl 0
  | succ fuel ih =>
    rw [shed]
    split
    · exact Nat.succ_le_succ ih
    · exact Nat.zero_le _

theorem step_length (v : RansVariant) (p : Put) (s : Nat × List UInt8) :
    (p.step v s).2.length ≤ s.2.length + 4 := by
  have units : ∀ ds : List Nat, (ds.flatMap v.unit).length = v.unitBytes * ds.length := by
    intro ds
    induction ds with
    | nil => rfl
    | cons d ds ih =>
      rw [List.flatMap_cons, List.length_append, ih, RansVariant.unit, leBytes_length, List.length_cons, Nat.mul_succ,
        Nat.add_comm]
  have bytes : (v.shedBytes p.scaleBits p.freq s.1).length ≤ 4 := by
    rw [RansVariant.shedBytes, units, List.length_reverse]
    refine (Nat.mul_le_mul_left _ shed_length).trans ?_
    cases v <;> decide
  rw [Put.step, List.length_append]
  omega

theorem steps_length (v : RansVariant) (ps : List Put) (s : Nat × List UInt8) :
    (ps.foldl (fun s p => p.step v s) s).2.length ≤ s.2.length + 4 * ps.length := by
  induction ps generalizing s with
  | nil => exact Nat.le_refl _
  | cons p ps ih =>
    have first := step_length v p s
    have rest := ih (p.step v s)
    rw [List.foldl_cons, List.length_cons]
    omega

/-! ## Values -/

variable {c : RansCoder}

theorem bypassDigits_length {fuel v : Nat} : (RansEncoder.bypassDigits c fuel v).length ≤ fuel := by
  induction fuel generalizing v with
  | zero => exact Nat.le_refl 0
  | succ fuel ih =>
    rw [RansEncoder.bypassDigits]
    split
    · exact Nat.succ_le_succ ih
    · exact Nat.zero_le _

theorem splitCount_le {max fuel count : Nat} : (RansEncoder.splitCount max fuel count).2 ≤ fuel := by
  induction fuel generalizing count with
  | zero => exact Nat.le_refl 0
  | succ fuel ih =>
    rw [RansEncoder.splitCount]
    split
    · exact Nat.succ_le_succ ih
    · exact Nat.zero_le _

/-- The steps of a value at most. -/
def kValueSteps : Nat := 34

theorem valuePuts_length (desc : RansDist) (value : Int) : (valuePuts c desc value).length ≤ kValueSteps := by
  rw [valuePuts]
  split
  · generalize RansEncoder.foldBypass desc.bypassSentinel value = v
    have digits := @bypassDigits_length c 16 v
    have full := @splitCount_le c.bypassMax (RansEncoder.bypassDigits c 16 v).length
      (RansEncoder.bypassDigits c 16 v).length
    simp only [bypassPuts, List.length_append, List.length_map, List.length_reverse, List.length_cons,
      List.length_replicate, List.length_nil, kValueSteps]
    omega
  · exact (show 1 ≤ kValueSteps by decide)

theorem encodePuts_length {indices values : List Int32} :
    (encodePuts c indices values).length ≤ kValueSteps * indices.length := by
  induction indices generalizing values with
  | nil =>
    rw [encodePuts]
    · exact Nat.le_refl 0
    · intro _ _ _ _ h
      cases h
  | cons index indices ih =>
    cases values with
    | nil => exact Nat.zero_le _
    | cons value values =>
      have one : (roundPuts c index value).length ≤ kValueSteps := by
        rw [roundPuts]
        split
        · exact Nat.zero_le _
        · exact valuePuts_length _ _
      have rest := @ih values
      rw [encodePuts, List.length_append, List.length_cons, Nat.mul_succ]
      omega

theorem puts_length (call : EncodeCall) : call.puts.length ≤ kValueSteps * call.indices.length := by
  rw [EncodeCall.puts]
  split
  · exact Nat.zero_le _
  · exact encodePuts_length

/-! ## Payloads -/

/-- The latents of a geometry. -/
def Geometry.latentCount (geom : Geometry) : Nat := geom.zSize + 2 * geom.ySize

/-- A payload of a geometry is no longer than the steps of its latents make it. -/
theorem payload_length {g b : RansCoder} {cfg : EntropyConfig} {geom : Geometry} {zIdx : List Int32}
    {latents : Latents} {scales out : Scales} {bits : List UInt8} (coders : CodersReady g b cfg)
    (ready : GeometryReady cfg geom) (sized : latents.Sized geom) (scales_sized : scales.Sized geom)
    (zlen : zIdx.length = geom.zSize) (h : encodePayload g b cfg geom zIdx latents scales = .ok (bits, out)) :
    bits.length ≤ 4 + 4 * (kValueSteps * geom.latentCount) := by
  have fits : geom.NoOverflow cfg := by
    by_contra wide
    rw [payload_of_overflow coders ready wide] at h
    cases h
  obtain ⟨out', extracted, -, out_sized, -, -⟩ :=
    extractFor_spec (z := latents.z) coders ready fits scales_sized scales_sized
  rw [encodePayload_eq coders sized out_sized zlen extracted] at h
  cases h
  have steps := steps_length .byte ((payloadCalls g b zIdx latents out).flatMap EncodeCall.puts) (RansVariant.byte.lower, [])
  have calls : ((payloadCalls g b zIdx latents out).flatMap EncodeCall.puts).length ≤ kValueSteps * geom.latentCount := by
    have one := puts_length ⟨g, out.s1, latents.y1⟩
    have two := puts_length ⟨g, out.s0, latents.y0⟩
    have three := puts_length ⟨b, zIdx, latents.z⟩
    dsimp only at one two three
    rw [out_sized.s1] at one
    rw [out_sized.s0] at two
    rw [zlen] at three
    simp only [payloadCalls, List.flatMap_cons, List.flatMap_nil, List.length_append, List.length_nil,
      Geometry.latentCount, Nat.mul_add, Nat.mul_left_comm _ 2]
    omega
  have word : (leBytes (RansVariant.byte.unitBytes * RansVariant.byte.stateUnits)
      (stackOf .byte (payloadCalls g b zIdx latents out)).1).length = 4 := leBytes_length _ _
  rw [RansVariant.frameBytes, List.length_append, word, stackOf]
  rw [List.length_nil, Nat.zero_add] at steps
  omega

/-! ## Records -/

section Records

variable {K : Type} [Field K] [LinearOrder K] [FloorRing K]
variable {fns : LogExp K} {e : Encoder} {s : EncoderState K} {inputs : List HostFrame} {steps : List (EncodeStep K)}

/-- A geometry whose payloads all fit into a record. -/
def Geometry.Small (geom : Geometry) : Prop := 4 + 4 * (kValueSteps * geom.latentCount) ≤ kMaxFrameBytes

end Records

end Rkvc.Mlvc
