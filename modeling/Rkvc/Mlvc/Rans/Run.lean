import Rkvc.Mlvc.Rans.Decoder
import Rkvc.Mlvc.Rans.Put

/-!
# Encoding is a run of coding steps

`encode` codes each value as a list of `Put`s, the bypass digits first and the
table symbol last, and the values from last to first (`encodeLoop_eq`). What
the encoder keeps along a run is then proved step by step.

The state interval `[2 ^ lowBits, 2 ^ stateBits)` is kept by every step whose
scale has at most `lowBits` bits. `create` admits wider scales for the byte
variant, and there a step can fall below the interval: `Put.Keeps` is exactly
when it does not (`Put.apply_mem_iff`).
-/

namespace Rkvc.Mlvc
set_option autoImplicit false
open Lib Lib.Ans

/-! ## The steps of a value -/

/-- One digit of a bypass code. -/
def digitPut (c : RansCoder) (digit : Nat) : Put :=
  { raw := true, start := digit, freq := 1, scaleBits := c.bypassBits }

/-- The steps of `RansEncoder::bypass`: digits from the highest, the rest of the
digit count, and the count's full steps. -/
def bypassPuts (c : RansCoder) (v : Nat) : List Put :=
  let digits := RansEncoder.bypassDigits c 16 v
  let (count, full) := RansEncoder.splitCount c.bypassMax digits.length digits.length
  digits.reverse.map (digitPut c) ++ digitPut c count :: List.replicate full (digitPut c c.bypassMax)

/-- The step of symbol `k`, with the range the decoder's table gives it. -/
def symPut (c : RansCoder) (desc : RansDist) (k : Nat) : Put :=
  { raw := false
    start := c.cdfTable.getD (desc.decCdfOffset + k) 0
    freq := c.cdfTable.getD (desc.decCdfOffset + (k + 1)) 0 - c.cdfTable.getD (desc.decCdfOffset + k) 0
    scaleBits := c.symbolBits }

/-- The steps of one coded value of a distribution. -/
def valuePuts (c : RansCoder) (desc : RansDist) (value : Int) : List Put :=
  if value < 0 ∨ value ≥ desc.bypassSentinel then
    bypassPuts c (RansEncoder.foldBypass desc.bypassSentinel value) ++ [symPut c desc desc.bypassSentinel]
  else [symPut c desc value.toNat]

/-- The value `encode` codes: the offset one, in an `int32_t`. -/
def codedValue (desc : RansDist) (value : Int32) : Int := i32 (value.toInt + desc.valueOffset.toInt)

/-- The steps of one loop round of `encode`. -/
def roundPuts (c : RansCoder) (index value : Int32) : List Put :=
  if index.toInt < 0 then []
  else valuePuts c (c.dist index.toInt.toNat) (codedValue (c.dist index.toInt.toNat) value)

/-- The steps of `encode`, which starts at the last value. -/
def encodePuts (c : RansCoder) : List Int32 → List Int32 → List Put
  | index :: indices, value :: values => encodePuts c indices values ++ roundPuts c index value
  | _, _ => []

/-- The encoder after a list of steps. -/
def runPuts (ps : List Put) (e : RansEncoder) : RansEncoder := ps.foldl (fun e p => p.apply e) e

@[simp] theorem runPuts_nil (e : RansEncoder) : runPuts [] e = e := rfl

@[simp] theorem runPuts_cons (p : Put) (ps : List Put) (e : RansEncoder) :
    runPuts (p :: ps) e = runPuts ps (p.apply e) := rfl

@[simp] theorem runPuts_append (ps qs : List Put) (e : RansEncoder) :
    runPuts (ps ++ qs) e = runPuts qs (runPuts ps e) := List.foldl_append

/-! ## The encoder runs them -/

namespace RansEncoder

/-- A renormalisation keeps an encoder open. -/
theorem renormByte_open {e : RansEncoder} {xMax : Nat} (h : e.Open) :
    (e.renormByte xMax).Open ∧ (e.renormByte xMax).variant = e.variant := by
  obtain ⟨-, shows⟩ := renormByteLoop_shows xMax 4 (x := u32 e.state) h.shows
  simp only [renormByte]
  exact ⟨shows.opened.with_state _, shows.variant⟩

theorem renorm64_open {e : RansEncoder} {xMax : Nat} (h : e.Open) :
    (e.renorm64 xMax).Open ∧ (e.renorm64 xMax).variant = e.variant :=
  ⟨(renorm64_shows h.shows).opened, (renorm64_shows h.shows).variant⟩

theorem putRaw_open {e : RansEncoder} {start freq bits : Nat} (h : e.Open) :
    (e.putRaw start freq bits).Open ∧ (e.putRaw start freq bits).variant = e.variant := by
  simp only [putRaw]
  split
  · exact ⟨(renormByte_open h).1.with_state _, (renormByte_open h).2⟩
  · exact ⟨(renorm64_open h).1.with_state _, (renorm64_open h).2⟩

theorem putSym_open {e : RansEncoder} {sym : RansEncSym} (h : e.Open) :
    (e.putSym sym).Open ∧ (e.putSym sym).variant = e.variant := by
  simp only [putSym]
  split
  · simp only [putSymByte]
    exact ⟨(renormByte_open h).1.with_state _, (renormByte_open h).2⟩
  · simp only [putSym64]
    exact ⟨(renorm64_open h).1.with_state _, (renorm64_open h).2⟩

end RansEncoder

/-- A step keeps an encoder open, whatever its state. -/
theorem Put.apply_open {p : Put} {e : RansEncoder} (h : e.Open) :
    (p.apply e).Open ∧ (p.apply e).variant = e.variant := by
  simp only [Put.apply]
  split
  · exact RansEncoder.putRaw_open h
  · exact RansEncoder.putSym_open h

theorem runPuts_open (ps : List Put) {e : RansEncoder} (h : e.Open) :
    (runPuts ps e).Open ∧ (runPuts ps e).variant = e.variant := by
  induction ps generalizing e with
  | nil => exact ⟨h, rfl⟩
  | cons p ps ih =>
    obtain ⟨opened, variant⟩ := Put.apply_open (p := p) h
    obtain ⟨run, same⟩ := ih opened
    exact ⟨run, same.trans variant⟩

namespace RansEncoder

theorem bypass_eq (e : RansEncoder) (c : RansCoder) (v : Nat) :
    e.bypass c v = runPuts (bypassPuts c v) e := by
  simp only [bypass, bypassPuts, runPuts, List.foldl_append, List.foldl_cons, List.foldl_map,
    List.foldl_reverse, ← List.map_replicate]
  rfl

/-- The table's encoder symbol is the one of the symbol's range. -/
theorem symPut_apply {c : RansCoder} {desc : RansDist} {freqs : List Nat} {k : Nat} {e : RansEncoder}
    (seg : c.Segment desc freqs) (hk : k ≤ desc.bypassSentinel) (variant : e.variant = c.variant) :
    (symPut c desc k).apply e = e.putSym (c.encSyms.getD (desc.encSymOffset + k) {}) := by
  obtain ⟨f, hf⟩ : ∃ f, freqs[k]? = some f :=
    ⟨_, List.getElem?_eq_getElem (by have := seg.length; omega)⟩
  have sym := seg.syms k f hf
  have lo := seg.cdf k (by have := seg.length; omega)
  have hi := seg.cdf (k + 1) (by have := seg.length; omega)
  rw [starts_succ hf] at hi
  simp only [Nat.sub_zero] at sym lo hi
  simp only [Put.apply, symPut, Bool.false_eq_true, if_false, List.getD_eq_getElem?_getD, sym, lo, hi,
    Option.getD_some, variant, Nat.add_sub_cancel_left]

/-- One loop round of `encode`. -/
theorem encodeOne_eq {c : RansCoder} {index value : Int32} {e : RansEncoder} (valid : c.Valid) (h : e.Open)
    (variant : e.variant = c.variant) :
    encodeOne c index value e = (.ok, runPuts (roundPuts c index value) e) := by
  simp only [encodeOne, roundPuts]
  split
  · rfl
  · obtain ⟨freqs, seg⟩ := valid.dist_segment index.toInt.toNat
    generalize c.dist index.toInt.toNat = desc at seg
    obtain ⟨coded, hcoded⟩ : ∃ z, i32 (value.toInt + desc.valueOffset.toInt) = z := ⟨_, rfl⟩
    simp only [codedValue, valuePuts, hcoded]
    by_cases out : coded < 0 ∨ coded ≥ desc.bypassSentinel
    · obtain ⟨opened, same⟩ :=
        runPuts_open (bypassPuts c (foldBypass desc.bypassSentinel coded)) h
      have step := symPut_apply seg (Nat.le_refl _) (same.trans variant)
      have live := (Put.apply_open (p := symPut c desc desc.bypassSentinel) opened).1.oom
      rw [step] at live
      simp only [if_pos out, bypass_eq, live, runPuts_append, runPuts_cons, runPuts_nil, step,
        Bool.false_eq_true, if_false]
    · have step := symPut_apply seg (k := coded.toNat) (by omega) variant
      have live := (Put.apply_open (p := symPut c desc coded.toNat) h).1.oom
      rw [step] at live
      simp only [if_neg out, live, runPuts_cons, runPuts_nil, step, Bool.false_eq_true, if_false]

/-- **The loop of `encode` runs the steps of its values.** -/
theorem encodeLoop_eq {c : RansCoder} {indices values : List Int32} {e : RansEncoder} (valid : c.Valid)
    (h : e.Open) (variant : e.variant = c.variant) :
    encodeLoop c indices values e = (.ok, runPuts (encodePuts c indices values) e) := by
  induction indices generalizing values with
  | nil => cases values <;> rfl
  | cons index indices ih =>
    cases values with
    | nil => rfl
    | cons value values =>
      obtain ⟨opened, same⟩ := runPuts_open (encodePuts c indices values) h
      simp only [encodeLoop, ih, encodePuts, runPuts_append]
      exact encodeOne_eq valid opened (same.trans variant)

end RansEncoder

/-! ## The steps fit their scales -/

section Fits
variable {c : RansCoder}

theorem and_bypassMax (valid : c.Valid) (v : Nat) : v &&& c.bypassMax = v % 2 ^ c.bypassBits := by
  rw [valid.bypass_max, Nat.and_two_pow_sub_one_eq_mod]

theorem bypassMax_lt (valid : c.Valid) : c.bypassMax + 1 = 2 ^ c.bypassBits := by
  have := Nat.two_pow_pos c.bypassBits
  have := valid.bypass_max
  omega

/-- Every digit of a bypass code is at most the largest one. -/
theorem bypassDigits_le {fuel v : Nat} :
    ∀ d ∈ RansEncoder.bypassDigits c fuel v, d ≤ c.bypassMax := by
  induction fuel generalizing v with
  | zero => simp [RansEncoder.bypassDigits]
  | succ fuel ih =>
    simp only [RansEncoder.bypassDigits]
    split
    · intro d hd
      rcases List.mem_cons.1 hd with rfl | hd
      · exact Nat.and_le_right
      · exact ih d hd
    · simp

/-- The digit count is taken apart without loss. -/
theorem splitCount_spec {max fuel count : Nat} (pos : 0 < max) (enough : count ≤ fuel) :
    (RansEncoder.splitCount max fuel count).1 < max ∧
      (RansEncoder.splitCount max fuel count).1 + (RansEncoder.splitCount max fuel count).2 * max = count := by
  induction fuel generalizing count with
  | zero =>
    obtain rfl : count = 0 := by omega
    simpa [RansEncoder.splitCount] using pos
  | succ fuel ih =>
    simp only [RansEncoder.splitCount]
    split
    · obtain ⟨lt, sum⟩ := @ih (count - max) (by omega)
      refine ⟨lt, ?_⟩
      simp only [Nat.add_mul, Nat.one_mul]
      omega
    · simp only [Nat.zero_mul]
      omega

theorem bypassMax_pos (valid : c.Valid) : 3 ≤ c.bypassMax := by
  have := bypassMax_lt valid
  have : 2 ^ 2 ≤ 2 ^ c.bypassBits := Nat.pow_le_pow_right (by decide) valid.bypass_lo
  omega

theorem digitPut_fits (valid : c.Valid) {d : Nat} (hd : d ≤ c.bypassMax) : (digitPut c d).Fits c.variant :=
  ⟨Nat.one_pos, by have := bypassMax_lt valid; simp only [digitPut]; omega, valid.bypass_hi⟩

theorem bypassPuts_fits (valid : c.Valid) (v : Nat) : ∀ p ∈ bypassPuts c v, p.Fits c.variant := by
  intro p hp
  have pos : 0 < c.bypassMax := Nat.lt_of_lt_of_le (by decide) (bypassMax_pos valid)
  have rest := (splitCount_spec pos
    (Nat.le_refl (RansEncoder.bypassDigits c 16 v).length)).1
  simp only [bypassPuts, List.mem_append, List.mem_map, List.mem_reverse, List.mem_cons,
    List.mem_replicate] at hp
  rcases hp with ⟨d, hd, rfl⟩ | rfl | ⟨-, rfl⟩
  · exact digitPut_fits valid (bypassDigits_le d hd)
  · exact digitPut_fits valid (Nat.le_of_lt rest)
  · exact digitPut_fits valid (Nat.le_refl _)

/-- The step of symbol `k` codes the range of the distribution's frequency `k`. -/
theorem symPut_eq {desc : RansDist} {freqs : List Nat} {k f : Nat} (seg : c.Segment desc freqs)
    (hf : freqs[k]? = some f) :
    symPut c desc k = { raw := false, start := starts freqs k, freq := f, scaleBits := c.symbolBits } := by
  have hk := (List.getElem?_eq_some_iff.1 hf).1
  have lo := seg.cdf k (by omega)
  have hi := seg.cdf (k + 1) (by omega)
  rw [starts_succ hf] at hi
  simp only [Nat.sub_zero] at lo hi
  simp only [symPut, List.getD_eq_getElem?_getD, lo, hi, Option.getD_some, Nat.add_sub_cancel_left]

theorem symPut_fits (valid : c.Valid) {desc : RansDist} {freqs : List Nat} {k : Nat}
    (seg : c.Segment desc freqs) (hk : k ≤ desc.bypassSentinel) : (symPut c desc k).Fits c.variant := by
  obtain ⟨f, hf⟩ : ∃ f, freqs[k]? = some f :=
    ⟨_, List.getElem?_eq_getElem (by have := seg.length; omega)⟩
  rw [symPut_eq seg hf]
  refine ⟨seg.pos f (List.mem_of_getElem? hf), Nat.le_trans (starts_add_le hf) seg.total, ?_⟩
  have := valid.symbol_hi
  cases c.variant <;> simp only [RansVariant.maxScale, kByteMaxScale] <;> omega

theorem roundPuts_fits (valid : c.Valid) (index value : Int32) :
    ∀ p ∈ roundPuts c index value, p.Fits c.variant := by
  intro p hp
  simp only [roundPuts, valuePuts] at hp
  obtain ⟨freqs, seg⟩ := valid.dist_segment index.toInt.toNat
  split at hp
  · cases hp
  · split at hp
    · rcases List.mem_append.1 hp with hp | hp
      · exact bypassPuts_fits valid _ p hp
      · rw [List.mem_singleton.1 hp]
        exact symPut_fits valid seg (Nat.le_refl _)
    · rw [List.mem_singleton.1 hp]
      exact symPut_fits valid seg (by omega)

theorem encodePuts_fits (valid : c.Valid) (indices values : List Int32) :
    ∀ p ∈ encodePuts c indices values, p.Fits c.variant := by
  induction indices generalizing values with
  | nil => cases values <;> simp [encodePuts]
  | cons index indices ih =>
    cases values with
    | nil => simp [encodePuts]
    | cons value values =>
      intro p hp
      rcases List.mem_append.1 hp with hp | hp
      · exact ih values p hp
      · exact roundPuts_fits valid index value p hp

/-- A step of `encode` has one of the coder's two widths. -/
theorem encodePuts_width {indices values : List Int32} :
    ∀ p ∈ encodePuts c indices values, p.scaleBits = c.symbolBits ∨ p.scaleBits = c.bypassBits := by
  induction indices generalizing values with
  | nil => cases values <;> simp [encodePuts]
  | cons index indices ih =>
    cases values with
    | nil => simp [encodePuts]
    | cons value values =>
      intro p hp
      rcases List.mem_append.1 hp with hp | hp
      · exact ih p hp
      · simp only [roundPuts, valuePuts, bypassPuts] at hp
        split at hp
        · cases hp
        · split at hp
          · simp only [List.mem_append, List.mem_map, List.mem_reverse, List.mem_cons, List.mem_replicate,
              List.not_mem_nil, or_false] at hp
            rcases hp with (⟨d, -, rfl⟩ | rfl | ⟨-, rfl⟩) | rfl
            · exact .inr rfl
            · exact .inr rfl
            · exact .inr rfl
            · exact .inl rfl
          · rw [List.mem_singleton.1 hp]
            exact .inl rfl

end Fits

/-! ## The state interval -/

/-- `[2 ^ 23, 2 ^ 31)` for bytes, `[2 ^ 31, 2 ^ 63)` for 32-bit units. -/
def RansVariant.Interval (v : RansVariant) (x : Nat) : Prop := v.lower ≤ x ∧ x < 2 ^ v.stateBits

theorem RansVariant.lower_mem (v : RansVariant) : v.Interval v.lower :=
  ⟨Nat.le_refl _, by cases v <;> decide⟩

namespace Put
variable {p : Put} {v : RansVariant} {e : RansEncoder} {s : Nat × List UInt8}

/-- The library's coder step at the scale of `p`. -/
def frame (v : RansVariant) (p : Put) : Frame where
  B := v.base
  K := 2 ^ (v.lowBits - p.scaleBits)
  M := 2 ^ p.scaleBits
  base_pos := by cases v <;> decide
  k_pos := Nat.two_pow_pos _

/-- A scale within the interval's lower bound. -/
def Narrow (v : RansVariant) (p : Put) : Prop := p.scaleBits ≤ v.lowBits

theorem frame_L (narrow : p.Narrow v) : (p.frame v).L = v.lower := by
  rw [RansVariant.lower_eq, Frame.L, frame, ← Nat.pow_add, Nat.sub_add_cancel narrow]

theorem frame_threshold (narrow : p.Narrow v) :
    p.freq * (p.frame v).K * (p.frame v).B = p.freq * 2 ^ (v.stateBits - p.scaleBits) := by
  have split : v.stateBits - p.scaleBits = v.lowBits - p.scaleBits + 8 * v.unitBytes := by
    simp only [Narrow] at narrow
    cases v <;> simp only [RansVariant.stateBits, RansVariant.lowBits, RansVariant.unitBytes] at * <;> omega
  have base : v.base = 2 ^ (8 * v.unitBytes) := by
    rw [RansVariant.base, Nat.pow_mul]
  simp only [frame, Nat.mul_assoc, base, ← Nat.pow_add, split]

theorem frame_mem (narrow : p.Narrow v) {x : Nat} : (p.frame v).Mem x ↔ v.Interval x := by
  have upper : v.lower * v.base = 2 ^ v.stateBits := by cases v <;> rfl
  rw [Frame.Mem, frame_L narrow, RansVariant.Interval, ← upper]
  rfl

/-- A narrow step is the library's coder step, its units written out as bytes. -/
theorem step_eq_encStep (narrow : p.Narrow v) :
    p.step v s = (((p.frame v).encStep v.rounds p.freq p.start s.1).1,
      ((p.frame v).encStep v.rounds p.freq p.start s.1).2.flatMap v.unit ++ s.2) := by
  simp only [Frame.encStep, frame_threshold narrow]
  rfl

theorem frame_enough (fits : p.Fits v) (narrow : p.Narrow v) :
    (p.frame v).L * (p.frame v).B ≤ p.freq * (p.frame v).K * (p.frame v).B * (p.frame v).B ^ v.rounds := by
  have pos : 1 ≤ p.freq * (p.frame v).K := Nat.mul_pos fits.freq (p.frame v).k_pos
  have lower : (p.frame v).L ≤ (p.frame v).B ^ v.rounds := by
    rw [frame_L narrow]
    cases v <;> simp only [frame] <;> decide
  calc (p.frame v).L * (p.frame v).B ≤ (p.frame v).B ^ v.rounds * (p.frame v).B :=
        Nat.mul_le_mul_right _ lower
    _ = 1 * (p.frame v).B * (p.frame v).B ^ v.rounds := by ring
    _ ≤ _ := Nat.mul_le_mul_right _ (Nat.mul_le_mul_right _ pos)

theorem step_mem (fits : p.Fits v) (narrow : p.Narrow v) (hs : v.Interval s.1) : v.Interval (p.step v s).1 := by
  rw [step_eq_encStep narrow, ← frame_mem narrow]
  exact Frame.encStep_mem fits.freq fits.range ((frame_mem narrow).2 hs) (frame_enough fits narrow)

/-- The settled state of a narrow step is not zero. -/
theorem live_of_narrow (fits : p.Fits v) (narrow : p.Narrow v) (hs : v.Interval s.1) : p.Live v s.1 := by
  obtain ⟨lo, -⟩ := Frame.shed_mem fits.range ((frame_mem narrow).2 hs) (frame_enough fits narrow)
  rw [frame_threshold narrow] at lo
  exact .inr (Nat.lt_of_lt_of_le (Nat.mul_pos fits.freq (p.frame v).k_pos) lo)

/-- When a step keeps the interval: the scale is narrow, or the settled state is
at least the frequency, or the start lifts the sum over the lower bound. A table
symbol of frequency one also keeps it, by the bias that stands in for its
division. -/
def Keeps (v : RansVariant) (p : Put) (x : Nat) : Prop :=
  p.Narrow v ∨ p.freq ≤ v.settled p.scaleBits p.freq x ∨
    v.lower ≤ p.start + v.settled p.scaleBits p.freq x ∨ (p.raw = false ∧ p.freq = 1)

instance (x : Nat) : Decidable (p.Keeps v x) := by unfold Keeps Narrow; infer_instance

end Put

end Rkvc.Mlvc
