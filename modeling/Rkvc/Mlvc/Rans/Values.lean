import Mathlib.Algebra.BigOperators.Group.List.Basic
import Rkvc.Mlvc.Rans.Reads

/-!
# The values the decoder computes

What `decode` reads for an index is a `Code`: nothing, a symbol, or a bypass
code. The value it stores is computed from that in `int32_t`. A symbol's value
never leaves the range; a bypass code is a full word, and the larger ones do
(`decode_exact_iff`).
-/

namespace Rkvc.Mlvc
set_option autoImplicit false
open Lib

namespace RansDecoder

/-- What is read for an index. -/
inductive Code where
  /-- The index is negative. -/
  | skipped
  | symbol (desc : RansDist) (symbol : Nat)
  | bypassed (desc : RansDist) (bv : Nat)

namespace Code

/-- The value `decode` stores. -/
def stored : Code → Int32
  | skipped => 0
  | symbol desc k => Int32.ofInt (k - desc.valueOffset.toInt)
  | bypassed desc bv => Int32.ofInt (unfoldBypass desc.bypassSentinel bv - desc.valueOffset.toInt)

/-- The integers that `decode` computes on the way, with the last one the value. -/
def steps : Code → List Int
  | skipped => [0]
  | symbol desc k => [(k : Int), k - desc.valueOffset.toInt]
  | bypassed desc bv =>
    if bv % 2 = 1 then
      [(bv / 2 : Nat), -(bv / 2 : Nat), -(bv / 2 : Nat) - 1, -(bv / 2 : Nat) - 1 - desc.valueOffset.toInt]
    else
      [(bv / 2 : Nat), (bv / 2 : Nat) + desc.bypassSentinel,
        (bv / 2 : Nat) + desc.bypassSentinel - desc.valueOffset.toInt]

/-- No computation leaves the `int32_t` range, and the value is the integer one. -/
structure Exact (code : Code) : Prop where
  inside : ∀ z ∈ code.steps, -2 ^ 31 ≤ z ∧ z < 2 ^ 31
  value : some code.stored.toInt = code.steps.getLast?

/-- The bounds of a bypass code: half of an even one leaves room for the sentinel and the
offset, half of an odd one for the offset. -/
def InBounds : Code → Prop
  | skipped => True
  | symbol _ _ => True
  | bypassed desc bv =>
    if bv % 2 = 1 then (bv / 2 : Nat) + desc.valueOffset.toInt < 2 ^ 31
    else (bv / 2 : Nat) + desc.bypassSentinel < 2 ^ 31 ∧
      (bv / 2 : Nat) + desc.bypassSentinel - desc.valueOffset.toInt < 2 ^ 31

end Code

/-- What follows the symbol. -/
def symbolCode (c : RansCoder) (desc : RansDist) (symbol : Nat) (d : RansDecoder) : Option Code × RansDecoder :=
  if symbol = desc.bypassSentinel then
    andThen (fun d => d.bypass c) (fun bv d => (some (Code.bypassed desc bv), d)) d
  else (some (Code.symbol desc symbol), d)

/-- The loop body of `decode` up to the value. -/
def readCode (c : RansCoder) (index : Int32) (d : RansDecoder) : Option Code × RansDecoder :=
  if index.toInt < 0 then (some Code.skipped, d)
  else
    let desc := c.dist index.toInt.toNat
    let symbol := selected c desc (d.get c.symbolBits)
    if symbol > desc.bypassSentinel then (none, d)
    else
      andThen
        (advanceStep ((c.cdfTable.drop desc.decCdfOffset).getD symbol 0)
          ((c.cdfTable.drop desc.decCdfOffset).getD (symbol + 1) 0 -
            (c.cdfTable.drop desc.decCdfOffset).getD symbol 0) c.symbolBits)
        (fun _ => symbolCode c desc symbol) d

/-- What `decode` reads, up to where it fails. -/
def readCodes (c : RansCoder) : List Int32 → RansDecoder → List Code
  | [], _ => []
  | index :: indices, d =>
    match readCode c index d with
    | (none, _) => []
    | (some code, d) => code :: readCodes c indices d

theorem symbolValue_code (c : RansCoder) (desc : RansDist) (symbol : Nat) (d : RansDecoder) :
    symbolValue c desc symbol d =
      ((symbolCode c desc symbol d).1.map Code.stored, (symbolCode c desc symbol d).2) := by
  unfold symbolValue symbolCode
  by_cases sentinel : symbol = desc.bypassSentinel
  · rw [if_pos sentinel, if_pos sentinel]
    unfold andThen
    dsimp only
    cases d.bypass c with
    | mk r d1 => cases r <;> rfl
  · rw [if_neg sentinel, if_neg sentinel]
    rfl

/-- **The value is computed from the code that is read.** -/
theorem decodeOne_code (c : RansCoder) (index : Int32) (d : RansDecoder) :
    decodeOne c index d = ((readCode c index d).1.map Code.stored, (readCode c index d).2) := by
  unfold decodeOne readCode
  by_cases negative : index.toInt < 0
  · rw [if_pos negative, if_pos negative]
    rfl
  · rw [if_neg negative, if_neg negative, decodeSymbol_eq]
    unfold decodeAt
    generalize c.dist index.toInt.toNat = desc
    dsimp only
    generalize selected c desc (d.get c.symbolBits) = symbol
    by_cases beyond : symbol > desc.bypassSentinel
    · rw [if_pos beyond, if_pos beyond]
      rfl
    · rw [if_neg beyond, if_neg beyond]
      unfold andThen
      cases advanceStep _ _ c.symbolBits d with
      | mk r d1 =>
        cases r with
        | none => rfl
        | some u => exact symbolValue_code c desc symbol d1

theorem decodeLoop_codes {c : RansCoder} (values : List Int32) :
    ∀ {indices got : List Int32} {d d' : RansDecoder}, values.length = indices.length →
      decodeLoop c values indices d = (.ok, got, d') → got = (readCodes c indices d).map Code.stored := by
  induction values with
  | nil =>
    intro indices got d d' sizes done
    obtain rfl := List.length_eq_zero_iff.1 sizes.symm
    cases done
    rfl
  | cons value values ih =>
    intro indices got d d' sizes done
    obtain ⟨index, indices, rfl⟩ := List.exists_cons_of_length_eq_add_one sizes.symm
    unfold decodeLoop at done
    unfold readCodes
    rw [decodeOne_code] at done
    cases read : readCode c index d with
    | mk r d1 =>
      rw [read] at done
      cases r with
      | none => cases done
      | some code =>
        dsimp only [Option.map_some] at done
        cases rest : decodeLoop c values indices d1 with
        | mk status out =>
          obtain ⟨tail, d2⟩ := out
          rw [rest] at done
          cases done
          rw [List.map_cons, ← ih (by simpa using sizes) rest]

/-! ## The size of a bypass code -/

theorem countLoop_le {c : RansCoder} {maxDigits fuel : Nat} :
    ∀ {value count n : Nat} {d d' : RansDecoder}, count ≤ maxDigits →
      countLoop c maxDigits fuel value count d = (some n, d') → n ≤ maxDigits := by
  induction fuel with
  | zero =>
    intro value count n d d' le done
    cases done
    exact le
  | succ fuel ih =>
    intro value count n d d' le done
    rw [countLoop_succ] at done
    by_cases full : value = c.bypassMax
    · rw [if_pos full] at done
      cases taken : d.take c.bypassBits with
      | mk r d1 =>
        cases r with
        | none =>
          rw [andThen_none taken] at done
          cases done
        | some next =>
          rw [andThen_some taken] at done
          by_cases large : count + next > maxDigits
          · rw [if_pos large] at done
            cases done
          · rw [if_neg large] at done
            exact ih (Nat.le_of_not_lt large) done
    · rw [if_neg full] at done
      cases done
      exact le

theorem digitLoop_lt {c : RansCoder} (width : c.bypassBits ≤ 31) {n : Nat} :
    ∀ {shift encoded x : Nat} {d d' : RansDecoder}, encoded < 2 ^ shift →
      digitLoop c n shift encoded d = (some x, d') → x < 2 ^ (shift + c.bypassBits * n) := by
  induction n with
  | zero =>
    intro shift encoded x d d' bound done
    cases done
    exact bound
  | succ n ih =>
    intro shift encoded x d d' bound done
    rw [digitLoop_succ] at done
    cases taken : d.take c.bypassBits with
    | mk r d1 =>
      cases r with
      | none =>
        rw [andThen_none taken] at done
        cases done
      | some value =>
        rw [andThen_some taken] at done
        have digit : value < 2 ^ c.bypassBits := by
          rw [take_value taken, get, and_scale width]
          exact Nat.mod_lt _ (Nat.two_pow_pos _)
        have shifted : u32 (value <<< shift) < 2 ^ (shift + c.bypassBits) := by
          apply Nat.lt_of_le_of_lt (Nat.mod_le _ _)
          rw [Nat.shiftLeft_eq, Nat.pow_add, Nat.mul_comm]
          exact Nat.mul_lt_mul_of_pos_left digit (Nat.two_pow_pos _)
        have low : encoded < 2 ^ (shift + c.bypassBits) :=
          Nat.lt_of_lt_of_le bound (Nat.pow_le_pow_right (by decide) (Nat.le_add_right _ _))
        have more := ih (Nat.or_lt_two_pow low shifted) done
        rwa [Nat.add_assoc, Nat.add_comm c.bypassBits, ← Nat.mul_succ] at more

/-- **A bypass code has the bits of its digits.** -/
theorem bypass_lt {c : RansCoder} (width : c.bypassBits ≤ 31) {d d' : RansDecoder} {bv : Nat}
    (done : d.bypass c = (some bv, d')) : bv < 2 ^ (c.bypassBits * (32 / c.bypassBits)) := by
  rw [bypass_eq] at done
  cases counted : bypassCount c d with
  | mk r d1 =>
    cases r with
    | none =>
      rw [andThen_none counted] at done
      cases done
    | some count =>
      rw [andThen_some counted] at done
      have bound : count ≤ 32 / c.bypassBits := by
        unfold bypassCount at counted
        cases taken : d.take c.bypassBits with
        | mk r d0 =>
          cases r with
          | none =>
            rw [andThen_none taken] at counted
            cases counted
          | some value =>
            rw [andThen_some taken] at counted
            by_cases large : value > 32 / c.bypassBits
            · rw [if_pos large] at counted
              cases counted
            · rw [if_neg large] at counted
              exact countLoop_le (Nat.le_of_not_lt large) counted
      have digits := digitLoop_lt width (Nat.two_pow_pos 0) done
      rw [Nat.zero_add] at digits
      exact Nat.lt_of_lt_of_le digits (Nat.pow_le_pow_right (by decide) (Nat.mul_le_mul_left _ bound))

/-! ## The bounds -/

/-- A code that a coder's decoder reads. -/
def Code.Of (c : RansCoder) : Code → Prop
  | skipped => True
  | symbol desc k => desc ∈ c.dists ∧ k ≤ desc.bypassSentinel
  | bypassed desc bv => desc ∈ c.dists ∧ bv < 2 ^ (c.bypassBits * (32 / c.bypassBits))

theorem readCode_of {c : RansCoder} (valid : c.Valid) {index : Int32} {d d' : RansDecoder} {code : Code}
    (read : readCode c index d = (some code, d')) : code.Of c := by
  have mem := valid.dist_mem index.toInt.toNat
  have width : c.bypassBits ≤ 31 := Nat.le_trans valid.bypass_hi (maxScale_le c.variant)
  unfold readCode at read
  split at read
  · cases read
    exact trivial
  · dsimp only at read
    split at read
    · cases read
    · rename_i inside
      unfold andThen at read
      split at read
      · cases read
      · rename_i d1 _
        unfold symbolCode at read
        split at read
        · rename_i d1' _ _ _
          unfold andThen at read
          dsimp only at read
          split at read
          · cases read
          · rename_i bypassed
            cases read
            exact ⟨mem, bypass_lt width bypassed⟩
        · cases read
          exact ⟨mem, Nat.le_of_not_lt inside⟩

theorem readCodes_of {c : RansCoder} (valid : c.Valid) (indices : List Int32) :
    ∀ d : RansDecoder, ∀ code ∈ readCodes c indices d, code.Of c := by
  induction indices with
  | nil => exact fun _ _ mem => absurd mem List.not_mem_nil
  | cons index indices ih =>
    intro d code mem
    unfold readCodes at mem
    cases read : readCode c index d with
    | mk r d1 =>
      rw [read] at mem
      cases r with
      | none => exact absurd mem List.not_mem_nil
      | some first =>
        rcases List.mem_cons.1 mem with rfl | later
        · exact readCode_of valid read
        · exact ih d1 code later

/-- A distribution's sentinel is below a quarter of the word: its frequencies are positive
and add up to at most `2 ^ symbol_bits`. -/
theorem sentinel_lt {c : RansCoder} (valid : c.Valid) {desc : RansDist} (mem : desc ∈ c.dists) :
    desc.bypassSentinel < 2 ^ 30 := by
  obtain ⟨freqs, seg⟩ := valid.segment desc mem
  have count : freqs.length ≤ freqs.sum := List.length_le_sum_of_one_le freqs seg.pos
  have scale : 2 ^ c.symbolBits ≤ 2 ^ 30 := Nat.pow_le_pow_right (by decide) valid.symbol_hi
  have total := seg.total
  have len := seg.length
  omega

theorem toInt_ofInt {z : Int} (lo : -2 ^ 31 ≤ z) (hi : z < 2 ^ 31) : (Int32.ofInt z).toInt = z := by
  have size : Int32.size = 2 ^ 32 := rfl
  rw [Int32.toInt_ofInt, size]
  exact Int.bmod_eq_of_le (by omega) (by omega)

/-- **When a value is exact.** -/
theorem Code.exact_iff {c : RansCoder} (valid : c.Valid)
    (offsets : ∀ desc ∈ c.dists, -2 ^ 24 < desc.valueOffset.toInt ∧ desc.valueOffset.toInt < 2 ^ 24) {code : Code}
    (of : code.Of c) : code.Exact ↔ code.InBounds := by
  cases code with
  | skipped =>
    refine ⟨fun _ => trivial, fun _ => ⟨?_, rfl⟩⟩
    intro z mem
    rw [List.mem_singleton.1 mem]
    decide
  | symbol desc k =>
    obtain ⟨mem, le⟩ := of
    obtain ⟨lo, hi⟩ := offsets desc mem
    have small := sentinel_lt valid mem
    refine ⟨fun _ => trivial, fun _ => ⟨?_, ?_⟩⟩
    · intro z at_mem
      simp only [steps, List.mem_cons, List.not_mem_nil, or_false] at at_mem
      rcases at_mem with rfl | rfl <;> omega
    · exact congrArg some (toInt_ofInt (by omega) (by omega))
  | bypassed desc bv =>
    obtain ⟨mem, bound⟩ := of
    obtain ⟨lo, hi⟩ := offsets desc mem
    have small := sentinel_lt valid mem
    have word : bv < 2 ^ 32 :=
      Nat.lt_of_lt_of_le bound (Nat.pow_le_pow_right (by decide) (Nat.mul_div_le 32 c.bypassBits))
    by_cases odd : bv % 2 = 1
    · have unfolded : unfoldBypass desc.bypassSentinel bv = -(bv / 2 : Nat) - 1 := by
        unfold unfoldBypass
        rw [Nat.and_one_is_mod, if_pos (by omega), Nat.shiftRight_eq_div_pow, Nat.pow_one]
      simp only [InBounds, if_pos odd]
      constructor
      · intro exact_code
        have last := exact_code.inside (-(bv / 2 : Nat) - 1 - desc.valueOffset.toInt) (by simp [steps, if_pos odd])
        omega
      · intro room
        constructor
        · intro z at_mem
          simp only [steps, if_pos odd, List.mem_cons, List.not_mem_nil, or_false] at at_mem
          rcases at_mem with rfl | rfl | rfl | rfl <;> omega
        · simp only [steps, if_pos odd, stored, unfolded]
          exact congrArg some (toInt_ofInt (by omega) (by omega))
    · simp only [InBounds, if_neg odd]
      constructor
      · intro exact_code
        have raised := exact_code.inside ((bv / 2 : Nat) + desc.bypassSentinel) (by simp [steps, if_neg odd])
        have last := exact_code.inside ((bv / 2 : Nat) + desc.bypassSentinel - desc.valueOffset.toInt)
          (by simp [steps, if_neg odd])
        exact ⟨by omega, last.2⟩
      · rintro ⟨raised, room⟩
        have unfolded : unfoldBypass desc.bypassSentinel bv = (bv / 2 : Nat) + desc.bypassSentinel := by
          unfold unfoldBypass
          rw [Nat.and_one_is_mod, if_neg (by omega), Nat.shiftRight_eq_div_pow, Nat.pow_one]
          exact i32_of_range (by omega) (by omega)
        constructor
        · intro z at_mem
          simp only [steps, if_neg odd, List.mem_cons, List.not_mem_nil, or_false] at at_mem
          rcases at_mem with rfl | rfl | rfl <;> omega
        · simp only [steps, if_neg odd, stored, unfolded]
          exact congrArg some (toInt_ofInt (by omega) (by omega))

/-- Where the digits of a width do not fill the word, no code reaches the bounds. -/
theorem Code.inBounds_of_width {c : RansCoder} (valid : c.Valid)
    (offsets : ∀ desc ∈ c.dists, -2 ^ 24 < desc.valueOffset.toInt ∧ desc.valueOffset.toInt < 2 ^ 24)
    (width : c.bypassBits ∉ [2, 4, 8, 16, 31]) {code : Code} (of : code.Of c) : code.InBounds := by
  cases code with
  | skipped => trivial
  | symbol desc k => trivial
  | bypassed desc bv =>
    obtain ⟨mem, bound⟩ := of
    obtain ⟨lo, hi⟩ := offsets desc mem
    have small := sentinel_lt valid mem
    have cap := Nat.le_trans valid.bypass_hi (maxScale_le c.variant)
    have table : ∀ b < 32, 2 ≤ b → b ∉ [2, 4, 8, 16, 31] → b * (32 / b) ≤ 30 := by decide
    have bits := table c.bypassBits (by omega) valid.bypass_lo width
    have short : bv < 2 ^ 30 := Nat.lt_of_lt_of_le bound (Nat.pow_le_pow_right (by decide) bits)
    simp only [InBounds]
    split
    · omega
    · constructor <;> omega

/-- **When every value is exact.** A call that succeeds stores the values of the codes
it reads. None of them is computed outside the `int32_t` range, and each is the
integer it stands for, exactly when every bypass code is in its bounds; with
digits that do not fill the word it always is. -/
theorem decode_exact_iff {variant : RansVariant} {lengths offsets table : List Int32} {symbolBits bypassBits : Int32}
    {c : RansCoder} {values indices got : List Int32} {d d' : RansDecoder}
    (created : RansCoder.create variant lengths offsets table symbolBits bypassBits = .ok c)
    (small : ∀ desc ∈ c.dists, -2 ^ 24 < desc.valueOffset.toInt ∧ desc.valueOffset.toInt < 2 ^ 24)
    (done : d.decode c values indices = (.ok, got, d')) :
    got = (readCodes c indices d).map Code.stored ∧
      ((∀ code ∈ readCodes c indices d, code.Exact) ↔ ∀ code ∈ readCodes c indices d, code.InBounds) ∧
      (c.bypassBits ∉ [2, 4, 8, 16, 31] → ∀ code ∈ readCodes c indices d, code.InBounds) := by
  have valid := (RansCoder.create_valid created).1
  have of := readCodes_of valid indices d
  refine ⟨?_, ?_, ?_⟩
  · unfold decode at done
    split at done
    · cases done
    · rename_i sizes
      split at done
      · cases done
      · exact decodeLoop_codes values (Decidable.not_not.mp sizes) done
  · constructor
    · exact fun all code mem => (Code.exact_iff valid small (of code mem)).1 (all code mem)
    · exact fun all code mem => (Code.exact_iff valid small (of code mem)).2 (all code mem)
  · exact fun width code mem => Code.inBounds_of_width valid small width (of code mem)

/-- The decoder of a stream whose one value is bypassed with code six. -/
theorem decode_exact_six :
    ∃ d d', (RansDecoder.new .byte).open [175, 170, 170, 0, 26] = (.ok, d) ∧
      d.decode sampleCoder [0] [0] = (.ok, [4], d') ∧ ∀ code ∈ readCodes sampleCoder [0] d, code.Exact := by
  have created : RansCoder.create .byte [3] [1] [9, 4, 3] 4 2 = .ok sampleCoder := rfl
  have small : ∀ desc ∈ sampleCoder.dists, -2 ^ 24 < desc.valueOffset.toInt ∧ desc.valueOffset.toInt < 2 ^ 24 := by
    decide
  have opened : (RansDecoder.new .byte).open [175, 170, 170, 0, 26] =
      (.ok, ⟨.byte, 11184815, [175, 170, 170, 0, 26], 4, true⟩) := by decide +kernel
  have done : (RansDecoder.mk .byte 11184815 [175, 170, 170, 0, 26] 4 true).decode sampleCoder [0] [0] =
      (.ok, [4], ⟨.byte, 8388608, [175, 170, 170, 0, 26], 5, true⟩) := by decide +kernel
  obtain ⟨-, exact_iff, -⟩ := decode_exact_iff created small done
  refine ⟨_, _, opened, done, exact_iff.2 ?_⟩
  have read : readCodes sampleCoder [0] ⟨.byte, 11184815, [175, 170, 170, 0, 26], 4, true⟩ =
      [.bypassed (sampleCoder.dist 0) 6] := rfl
  intro code mem
  rw [read] at mem
  rw [List.mem_singleton.1 mem]
  exact ⟨by decide, by decide⟩

/-- The largest even code: half of it and the sentinel are more than an `int32_t`
holds, and the value comes out negative. -/
theorem decode_overflows :
    ∃ d d', (RansDecoder.new .byte).open [255, 171, 170, 42, 159, 255, 255, 255, 63] = (.ok, d) ∧
      d.decode sampleCoder [0] [0] = (.ok, [-2147483648], d') ∧ ¬∀ code ∈ readCodes sampleCoder [0] d, code.Exact := by
  have opened : (RansDecoder.new .byte).open [255, 171, 170, 42, 159, 255, 255, 255, 63] =
      (.ok, ⟨.byte, 715828223, [255, 171, 170, 42, 159, 255, 255, 255, 63], 4, true⟩) := by decide +kernel
  have done : (RansDecoder.mk .byte 715828223 [255, 171, 170, 42, 159, 255, 255, 255, 63] 4 true).decode sampleCoder
      [0] [0] = (.ok, [-2147483648], ⟨.byte, 8388608, [255, 171, 170, 42, 159, 255, 255, 255, 63], 9, true⟩) := by
    decide +kernel
  refine ⟨_, _, opened, done, ?_⟩
  intro all
  have read : readCodes sampleCoder [0] ⟨.byte, 715828223, [255, 171, 170, 42, 159, 255, 255, 255, 63], 4, true⟩ =
      [.bypassed (sampleCoder.dist 0) 4294967294] := rfl
  have exact_code := all (.bypassed (sampleCoder.dist 0) 4294967294) (by rw [read]; exact List.mem_singleton_self _)
  have raised := exact_code.inside 2147483649 (by decide)
  exact absurd raised.2 (by decide)

end RansDecoder

end Rkvc.Mlvc
