import Rkvc.Lib.Binary
import Rkvc.Mlvc.Fp16
import Rkvc.Mlvc.Simd

/-!
# The values of halves

What the portable conversions do with the value of a pattern. From a float the half is
the nearest one, of two the even one (`f32ToF16_nearest`); to a float every half is
exact and comes back (`f16ToF32_exact`, `f32ToF16_f16ToF32`). The halves the samples of
a picture are made of are those conversions too (`halfOfInt_eq`).
-/

namespace Rkvc.Mlvc.Pixel.Portable
set_option autoImplicit false
open Lib

/-! ## The values -/

def binary16 : Format := ⟨5, 10, by decide, by decide⟩

def binary32 : Format := ⟨8, 23, by decide, by decide⟩

theorem binary16_mant : binary16.mant = 10 := rfl

theorem binary16_exp : binary16.exp = 5 := rfl

theorem binary16_quantum : binary16.quantum = 24 := rfl

theorem binary16_magnitude (b : Nat) : binary16.magnitude b = b % 2 ^ 15 := rfl

theorem binary32_magnitude (b : Nat) : binary32.magnitude b = b % 2 ^ 31 := rfl

theorem binary16_negative (b : Nat) : binary16.Negative b ↔ b / 2 ^ 15 % 2 = 1 := Iff.rfl

theorem binary32_negative (b : Nat) : binary32.Negative b ↔ b / 2 ^ 31 % 2 = 1 := Iff.rfl

theorem binary32_value (m : Nat) : binary32.value m = binary32.units m / 2 ^ 149 := rfl

/-- A rounding shift is at most one half off, and then even. -/
theorem shiftRne_near (n k : Nat) : RoundsTo ((n : Rat) / 2 ^ k) (shiftRne n k) := by
  have near := rint_near ((n : Rat) / 2 ^ k)
  have tie := @rint_tie ((n : Rat) / 2 ^ k)
  rw [rint_shift, Int.cast_natCast] at near tie
  exact ⟨near, fun half => by have := tie half; omega⟩

/-- The value of a normal float, from its fields. -/
theorem binary32_normal {E M : Nat} (hE : 0 < E) (hM : M < 2 ^ 23) :
    binary32.value (E * 2 ^ 23 + M) = (2 ^ 23 + M : Nat) * 2 ^ (E - 1) / 2 ^ 149 := by
  have units : binary32.units (E * 2 ^ 23 + M) = (2 ^ 23 + M) * 2 ^ (E - 1) := Format.units_binade hE hM.le
  rw [binary32_value, units]
  push_cast
  ring

/-- Below `2 ^ -25` everything is nearest to zero. -/
theorem nearest_tiny {m : Nat} (tiny : m < 102 * 2 ^ 23) :
    Nearest binary16.value binary16.inf (binary32.value m) 0 := by
  have le : binary32.units m ≤ 2 ^ 124 := by
    have last : binary32.units (102 * 2 ^ 23) = 2 ^ 124 := by decide +kernel
    rw [← last]
    exact Format.units_strictMono.monotone tiny.le
  have le' : (binary32.units m : Rat) ≤ 2 ^ 124 := by exact_mod_cast le
  obtain ⟨y, hy⟩ : ∃ y : Rat, y = binary32.units m / 2 ^ 125 := ⟨_, rfl⟩
  have pos : 0 ≤ y := by rw [hy]; positivity
  have small : y ≤ 1 / 2 := by
    rw [hy, div_le_div_iff₀ (by norm_num) (by norm_num)]
    linarith
  have scale : binary32.value m = y / 2 ^ binary16.quantum := by
    rw [binary32_value, hy, binary16_quantum, div_div, ← pow_add]
  have none : RoundsTo y 0 := by
    refine ⟨?_, fun _ => rfl⟩
    rw [Nat.cast_zero, sub_zero, abs_of_nonneg pos]
    exact small
  rw [scale]
  exact Format.nearest_subnormal (small.trans (by norm_num [binary16_mant])) pos (Nat.zero_le _) none

/-- A float of a subnormal half is the significand, shifted. -/
theorem nearest_shifted {E M : Nat} (lo : 102 ≤ E) (hi : E ≤ 112) (hM : M < 2 ^ 23) :
    Nearest binary16.value binary16.inf (binary32.value (E * 2 ^ 23 + M)) (shiftRne (2 ^ 23 + M) (126 - E)) := by
  have scale : binary32.value (E * 2 ^ 23 + M) = ((2 ^ 23 + M : Nat) : Rat) / 2 ^ (126 - E) / 2 ^ binary16.quantum := by
    have shift : (2 : Rat) ^ 149 = 2 ^ (126 - E) * 2 ^ 24 * 2 ^ (E - 1) := by
      rw [← pow_add, ← pow_add]
      congr 1
      omega
    rw [binary32_normal (by omega) hM, binary16_quantum, div_div, shift]
    exact mul_div_mul_right _ _ (by positivity)
  rw [scale]
  have short : ((2 ^ 23 + M : Nat) : Rat) / 2 ^ (126 - E) ≤ 2 ^ binary16.mant := by
    have pos : (0 : Rat) < 2 ^ (126 - E) := by positivity
    have deep : 2 ^ 14 ≤ 2 ^ (126 - E) := Nat.pow_le_pow_right (by decide) (by omega)
    have whole : 2 ^ 23 + M ≤ 2 ^ 10 * 2 ^ (126 - E) := by omega
    rw [div_le_iff₀ pos]
    exact_mod_cast whole
  exact Format.nearest_subnormal short (by positivity) (shiftRne_significand hM (by omega)) (shiftRne_near _ _)

/-- A float of a normal half is between two of its binade, or at its end. -/
theorem nearest_normal {E M : Nat} (lo : 113 ≤ E) (hi : E < 143) (hM : M < 2 ^ 23) :
    Nearest binary16.value binary16.inf (binary32.value (E * 2 ^ 23 + M)) ((E - 112) * 2 ^ 10 + shiftRne M 13) := by
  have scale : binary32.value (E * 2 ^ 23 + M) =
      (2 ^ binary16.mant + (M : Rat) / 2 ^ 13) * 2 ^ (E - 112 - 1) / 2 ^ binary16.quantum := by
    have shift : (2 : Rat) ^ (E - 1) = 2 ^ (E - 112 - 1) * 2 ^ 112 := by
      rw [← pow_add]
      congr 1
      omega
    rw [binary32_normal (by omega) hM, binary16_quantum, binary16_mant, shift]
    push_cast
    ring
  rw [scale]
  have short : (M : Rat) / 2 ^ 13 ≤ 2 ^ binary16.mant := by
    have whole : M ≤ 2 ^ 10 * 2 ^ 13 := by omega
    rw [div_le_iff₀ (by norm_num)]
    exact_mod_cast whole
  have inside : E - 112 + 1 < 2 ^ binary16.exp := by
    rw [binary16_exp]
    omega
  exact Format.nearest_binade (by omega) inside short (by positivity) (shiftRne_fraction hM) (shiftRne_near _ _)

theorem binary16_top : binary16.value binary16.inf = 2 ^ 16 := by
  have units : binary16.units binary16.inf = 2 ^ 40 := by decide +kernel
  rw [Format.value, units, binary16_quantum]
  norm_num

/-- From `2 ^ 16` on everything is nearest to infinity. -/
theorem nearest_large {m : Nat} (large : 143 * 2 ^ 23 ≤ m) :
    Nearest binary16.value binary16.inf (binary32.value m) (31 * 2 ^ 10) := by
  apply nearest_top Format.value_strictMono
  have first : binary32.value (143 * 2 ^ 23) = 2 ^ 16 := by
    rw [← Nat.add_zero (143 * 2 ^ 23), binary32_normal (by decide) (by decide)]
    norm_num
  rw [binary16_top, ← first]
  exact Format.value_strictMono.monotone large

/-- **The magnitude is the nearest one.** -/
theorem halfBits_nearest (m : Nat) :
    Nearest binary16.value binary16.inf (binary32.value m) (halfBits (m / 2 ^ 23) (m % 2 ^ 23)) := by
  have hM : m % 2 ^ 23 < 2 ^ 23 := Nat.mod_lt _ (by decide)
  have parts := Nat.div_add_mod' m (2 ^ 23)
  simp only [halfBits]
  split
  · exact nearest_tiny (by omega)
  split
  · have found := nearest_shifted (E := m / 2 ^ 23) (by omega) (by omega) hM
    rwa [parts] at found
  split
  · have found := nearest_normal (E := m / 2 ^ 23) (by omega) (by omega) hM
    rwa [parts] at found
  · exact nearest_large (by omega)

theorem binary16_inf : binary16.inf = 31 * 2 ^ 10 := rfl

theorem binary32_inf : binary32.inf = 255 * 2 ^ 23 := rfl

theorem binary16_subnormal {f : Nat} (hf : f ≤ 2 ^ 10) : binary16.value f = f / 2 ^ 24 := by
  have units : binary16.units f = f := Format.units_subnormal hf
  rw [Format.value, units, binary16_quantum]

theorem binary16_normal {e f : Nat} (he : 0 < e) (hf : f ≤ 2 ^ 10) :
    binary16.value (e * 2 ^ 10 + f) = (2 ^ 10 + f : Nat) * 2 ^ (e - 1) / 2 ^ 24 := by
  have units : binary16.units (e * 2 ^ 10 + f) = (2 ^ 10 + f) * 2 ^ (e - 1) := Format.units_binade he hf
  rw [Format.value, units, binary16_quantum]
  push_cast
  ring

theorem Widened.lt {e f n : Nat} (he : e < 2 ^ 5) (hf : f < 2 ^ 10) (h : Widened e f n) : n < 2 ^ 31 := by
  cases h with
  | zero => decide
  | subnormal k e0 rounds lo hi => omega
  | normal => omega
  | special => omega

/-- **Widening keeps the value.** -/
theorem Widened.value {e f n : Nat} (finite : e < 31) (hf : f < 2 ^ 10) (h : Widened e f n) :
    n < binary32.inf ∧ binary32.value n = binary16.value (e * 2 ^ 10 + f) := by
  rw [binary32_inf]
  cases h with
  | zero e0 f0 =>
    rw [e0, f0]
    exact ⟨by decide, Format.value_zero.trans Format.value_zero.symm⟩
  | subnormal k e0 rounds lo hi =>
    refine ⟨by omega, ?_⟩
    have significand : 2 ^ 23 + (f * 2 ^ k - 2 ^ 10) * 2 ^ 13 = f * 2 ^ k * 2 ^ 13 := by omega
    have scale : (2 : Rat) ^ 149 = 2 ^ k * 2 ^ 13 * 2 ^ (113 - k - 1) * 2 ^ 24 := by
      have total : k + 13 + (113 - k - 1) + 24 = 149 := by omega
      rw [← pow_add, ← pow_add, ← pow_add, total]
    rw [binary32_normal (by omega) (by omega), significand, e0, Nat.zero_mul, Nat.zero_add,
      binary16_subnormal hf.le, scale]
    push_cast
    rw [div_eq_div_iff (by positivity) (by positivity)]
    ring
  | normal positive below =>
    refine ⟨by omega, ?_⟩
    have scale : (2 : Rat) ^ (e + 112 - 1) = 2 ^ (e - 1) * 2 ^ 112 := by
      rw [← pow_add]
      congr 1
      omega
    rw [binary32_normal (by omega) (by omega), binary16_normal positive hf.le, scale]
    push_cast
    ring
  | special e31 => exact absurd e31 (by omega)

theorem Widened.special_eq {e f n : Nat} (top : e = 31) (h : Widened e f n) : n = binary32.inf + f * 2 ^ 13 := by
  cases h with
  | zero e0 f0 => exact absurd top (by omega)
  | subnormal k e0 rounds lo hi => exact absurd top (by omega)
  | normal positive below => exact absurd top (by omega)
  | special => rfl

/-! ## Both conversions -/

theorem f32ToF16_fields (x : UInt32) :
    (f32ToF16 x).toNat / 2 ^ 15 = x.toNat / 2 ^ 31 ∧
      binary16.magnitude (f32ToF16 x).toNat =
        halfBits (binary32.magnitude x.toNat / 2 ^ 23) (binary32.magnitude x.toNat % 2 ^ 23) := by
  have inside := (halfBits_nearest (x.toNat % 2 ^ 31)).1
  have exponent : x.toNat / 2 ^ 23 % 2 ^ 8 = x.toNat % 2 ^ 31 / 2 ^ 23 := by omega
  have fraction : x.toNat % 2 ^ 23 = x.toNat % 2 ^ 31 % 2 ^ 23 := by omega
  have bits := f32ToF16_toNat x
  rw [exponent, fraction] at bits
  rw [binary16_inf] at inside
  rw [binary16_magnitude, binary32_magnitude, bits]
  generalize halfBits (x.toNat % 2 ^ 31 / 2 ^ 23) (x.toNat % 2 ^ 31 % 2 ^ 23) = m at inside
  omega

theorem f32ToF16_nearest (x : UInt32) :
    Nearest binary16.value binary16.inf (binary32.value (binary32.magnitude x.toNat))
      (binary16.magnitude (f32ToF16 x).toNat) := by
  rw [(f32ToF16_fields x).2]
  exact halfBits_nearest _

theorem f32ToF16_negative (x : UInt32) : binary16.Negative (f32ToF16 x).toNat ↔ binary32.Negative x.toNat := by
  rw [binary16_negative, binary32_negative, (f32ToF16_fields x).1]

/-- Infinity is what rounds to it: from the middle of the largest half and `2 ^ 16` on. -/
theorem f32ToF16_isInf (x : UInt32) : binary16.IsInf (f32ToF16 x).toNat ↔ 65520 ≤ |binary32.toRat x.toNat| := by
  have largest : binary16.units (31 * 2 ^ 10 - 1) = 2047 * 2 ^ 29 := by decide +kernel
  have next : binary16.units (31 * 2 ^ 10 - 1 + 1) = 2 ^ 40 := by decide +kernel
  have near : Nearest binary16.value (31 * 2 ^ 10 - 1 + 1) _ _ := f32ToF16_nearest x
  have last := near.top_iff Format.value_strictMono rfl
  rw [Format.value, Format.value, largest, next, binary16_quantum] at last
  rw [Format.abs_toRat]
  refine last.trans ?_
  norm_num
  constructor
  · intro le
    linarith
  · intro le
    linarith

theorem f16ToF32_fields (h : UInt16) :
    ∃ y, f16ToF32 h = some y ∧ y.toNat / 2 ^ 31 = h.toNat / 2 ^ 15 ∧
      Widened (binary16.magnitude h.toNat / 2 ^ 10) (binary16.magnitude h.toNat % 2 ^ 10)
        (binary32.magnitude y.toNat) := by
  obtain ⟨y, n, found, bits, widened⟩ := f16ToF32_toNat h
  have exponent : h.toNat / 2 ^ 10 % 2 ^ 5 = h.toNat % 2 ^ 15 / 2 ^ 10 := by omega
  have fraction : h.toNat % 2 ^ 10 = h.toNat % 2 ^ 15 % 2 ^ 10 := by omega
  rw [exponent, fraction] at widened
  have small : n < 2 ^ 31 := widened.lt (by omega) (by omega)
  have whole : y.toNat % 2 ^ 31 = n := by omega
  refine ⟨y, found, by omega, ?_⟩
  rw [binary16_magnitude, binary32_magnitude, whole]
  exact widened

/-- The conversion to a float answers for every half, and keeps its sign, its value and
its kind. -/
theorem f16ToF32_exact (h : UInt16) :
    ∃ y, f16ToF32 h = some y ∧ (binary32.Negative y.toNat ↔ binary16.Negative h.toNat) ∧
      (binary16.IsFinite h.toNat →
        binary32.IsFinite y.toNat ∧ binary32.toRat y.toNat = binary16.toRat h.toNat) ∧
      (binary16.IsInf h.toNat → binary32.IsInf y.toNat) ∧
      (binary16.IsNaN h.toNat → binary32.IsNaN y.toNat) := by
  obtain ⟨y, found, sign, widened⟩ := f16ToF32_fields h
  have parts := Nat.div_add_mod' (binary16.magnitude h.toNat) (2 ^ 10)
  have hf : binary16.magnitude h.toNat % 2 ^ 10 < 2 ^ 10 := Nat.mod_lt _ (by decide)
  have width : binary16.magnitude h.toNat < 2 ^ 15 := Nat.mod_lt _ (by decide)
  have negative : binary32.Negative y.toNat ↔ binary16.Negative h.toNat := by
    rw [binary16_negative, binary32_negative, sign]
  refine ⟨y, found, negative, ?_⟩
  simp only [Format.IsFinite, Format.IsInf, Format.IsNaN, Format.toRat, negative]
  generalize binary16.magnitude h.toNat = m at parts hf width widened ⊢
  generalize binary32.magnitude y.toNat = n at widened ⊢
  refine ⟨fun finite => ?_, fun infinite => ?_, fun nan => ?_⟩
  · rw [binary16_inf] at finite
    obtain ⟨below, same⟩ := widened.value (by omega) hf
    rw [parts] at same
    exact ⟨below, by rw [same]⟩
  · rw [binary16_inf] at infinite
    have special := widened.special_eq (by omega)
    omega
  · rw [binary16_inf] at nan
    have special := widened.special_eq (by omega)
    omega

/-- **There and back.** -/
theorem f32ToF16_f16ToF32 {h : UInt16} {y : UInt32} (number : ¬binary16.IsNaN h.toNat) (found : f16ToF32 h = some y) :
    f32ToF16 y = h := by
  obtain ⟨y', found', sign, widened⟩ := f16ToF32_fields h
  obtain rfl : y' = y := Option.some.inj (found'.symm.trans found)
  have width : (f32ToF16 y').toNat % 2 ^ 15 = h.toNat % 2 ^ 15 := by
    have near := f32ToF16_nearest y'
    have parts := Nat.div_add_mod' (binary16.magnitude h.toNat) (2 ^ 10)
    have hf : binary16.magnitude h.toNat % 2 ^ 10 < 2 ^ 10 := Nat.mod_lt _ (by decide)
    have le : binary16.magnitude h.toNat ≤ binary16.inf := not_lt.1 number
    rcases Nat.lt_or_eq_of_le le with finite | infinite
    · rw [binary16_inf] at finite
      obtain ⟨-, same⟩ := widened.value (by omega) hf
      rw [parts] at same
      rw [same] at near
      exact near.unique Format.value_strictMono (nearest_self Format.value_strictMono le)
    · rw [binary16_inf] at infinite
      have special := widened.special_eq (by omega)
      have bits := (f32ToF16_fields y').2
      rw [special, infinite] at bits
      exact bits.trans infinite.symm
  apply UInt16.toNat_inj.1
  have signs := (f32ToF16_fields y').1
  omega

/-- **The portable conversions are those of the formats.** For every float but the NaNs
the half has its sign and is the nearest one, of two the even one, infinity from 65520 on;
every half is widened exactly, and comes back. -/
theorem conversions_exact :
    (∀ x : UInt32, ¬binary32.IsNaN x.toNat →
      (binary16.Negative (f32ToF16 x).toNat ↔ binary32.Negative x.toNat) ∧
        (binary32.IsFinite x.toNat → binary16.Rounds (binary32.toRat x.toNat) (f32ToF16 x).toNat) ∧
        (binary32.IsInf x.toNat → binary16.IsInf (f32ToF16 x).toNat) ∧
        (binary16.IsInf (f32ToF16 x).toNat ↔ 65520 ≤ |binary32.toRat x.toNat|)) ∧
      ∀ h : UInt16, ∃ y, f16ToF32 h = some y ∧ (binary32.Negative y.toNat ↔ binary16.Negative h.toNat) ∧
        (binary16.IsFinite h.toNat →
          binary32.IsFinite y.toNat ∧ binary32.toRat y.toNat = binary16.toRat h.toNat) ∧
        (binary16.IsInf h.toNat → binary32.IsInf y.toNat) ∧
        (binary16.IsNaN h.toNat → binary32.IsNaN y.toNat) ∧
        (¬binary16.IsNaN h.toNat → f32ToF16 y = h) := by
  constructor
  · intro x _
    have sign := f32ToF16_negative x
    have near := f32ToF16_nearest x
    refine ⟨sign, fun _ => ?_, fun infinite => ?_, f32ToF16_isInf x⟩
    · have rounds := Format.rounds_of_nearest (Format.value_nonneg _) near
      simp only [sign] at rounds
      exact rounds
    · have bits := (f32ToF16_fields x).2
      rw [infinite] at bits
      exact bits
  · intro h
    obtain ⟨y, found, sign, finite, infinite, nan⟩ := f16ToF32_exact h
    exact ⟨y, found, sign, finite, infinite, nan, fun number => f32ToF16_f16ToF32 number found⟩

/-- Just below the least normal half, and the least subnormal one. -/
theorem conversions_exact_carry :
    f32ToF16 0x387fffff = 0x400 ∧ binary16.Rounds (binary32.toRat 0x387fffff) 0x400 ∧
      ∃ y, f16ToF32 1 = some y ∧ f32ToF16 y = 1 := by
  have carry := (conversions_exact.1 0x387fffff (by decide)).2.1 (by decide)
  obtain ⟨y, found, -, -, -, -, back⟩ := conversions_exact.2 1
  exact ⟨by decide, carry, y, found, back (by decide)⟩

/-! ## The halves of the samples -/

theorem halfMagnitude_eq (h : UInt16) : halfMagnitude h = binary16.units (binary16.magnitude h.toNat) := by
  have exponent : (h.toNat >>> 10) &&& 0x1f = h.toNat % 2 ^ 15 / 2 ^ 10 := by
    have mask : 0x1f = 2 ^ 5 - 1 := rfl
    rw [mask, Nat.and_two_pow_sub_one_eq_mod, Nat.shiftRight_eq_div_pow]
    omega
  have fraction : h.toNat &&& 0x3ff = h.toNat % 2 ^ 15 % 2 ^ 10 := by
    have mask : 0x3ff = 2 ^ 10 - 1 := rfl
    rw [mask, Nat.and_two_pow_sub_one_eq_mod]
    omega
  simp only [halfMagnitude, Format.units, binary16_magnitude, binary16_mant, exponent, fraction, Nat.shiftLeft_eq]
  rfl

/-- The value of a half in the scalar and the vector conversions. -/
theorem toRat_eq (h : UInt16) : binary16.toRat h.toNat = Pixel.f16ToF32 h := by
  have sign : binary16.Negative h.toNat ↔ h &&& 0x8000 ≠ 0 := by
    have mask : (0x8000 : UInt16).toNat = 2 ^ 15 := rfl
    have lt := h.toNat_lt
    rw [ne_eq, ← UInt16.toNat_inj, UInt16.toNat_and, mask, and_highest lt, binary16_negative, UInt16.toNat_zero]
    omega
  simp only [Format.toRat, Pixel.f16ToF32, sign, halfMagnitude_eq, Format.value, binary16_quantum]

/-- The fraction of a number brought to eleven bits: its rounding shift, or exactly the
number where it is shorter. -/
theorem significant_fraction {n : Nat} (pos : 0 < n) :
    ∃ r, r ≤ 2 ^ 10 ∧ significant 11 n * 2 ^ 10 = (2 ^ 10 + r) * 2 ^ n.log2 ∧
      RoundsTo ((n : Rat) * 2 ^ 10 / 2 ^ n.log2 - 2 ^ 10) r := by
  have lo := Nat.log2_self_le pos.ne'
  have hi := Nat.lt_log2_self (n := n)
  simp only [significant, Nat.shiftLeft_eq]
  generalize n.log2 = L at lo hi
  rcases Nat.lt_or_ge L 10 with short | long
  · have none : L + 1 - 11 = 0 := by omega
    have same : shiftRne n 0 = n := by simp [shiftRne, Nat.mod_one]
    obtain ⟨j, ten⟩ : ∃ j, 10 = L + j := ⟨10 - L, by omega⟩
    have scale : 2 ^ 10 = 2 ^ L * 2 ^ j := by rw [← pow_add, ← ten]
    have low : 2 ^ 10 ≤ n * 2 ^ j := by
      rw [scale]
      exact Nat.mul_le_mul_right _ lo
    have high : n * 2 ^ j < 2 ^ 11 := by
      calc n * 2 ^ j < 2 ^ (L + 1) * 2 ^ j := Nat.mul_lt_mul_of_pos_right hi (Nat.two_pow_pos j)
        _ = 2 ^ 11 := by rw [← pow_add, show L + 1 + j = 11 by omega]
    obtain ⟨r, fraction⟩ : ∃ r, n * 2 ^ j = 2 ^ 10 + r := Nat.exists_eq_add_of_le low
    have exact : (n : Rat) * 2 ^ 10 / 2 ^ L - 2 ^ 10 - r = 0 := by
      have cast : (n : Rat) * 2 ^ j = 2 ^ 10 + r := by exact_mod_cast fraction
      have whole : (n : Rat) * 2 ^ 10 / 2 ^ L = n * 2 ^ j := by
        rw [ten, pow_add, div_eq_iff (by positivity)]
        ring
      rw [whole, cast]
      ring
    refine ⟨r, by omega, ?_, ?_, ?_⟩
    · rw [none, same, pow_zero, mul_one, ← fraction, scale]
      ring
    · rw [exact, abs_zero]
      norm_num
    · intro half
      rw [exact, abs_zero] at half
      norm_num at half
  · obtain ⟨k, rfl⟩ : ∃ k, L = k + 10 := ⟨L - 10, by omega⟩
    have bits : k + 10 + 1 - 11 = k := by omega
    obtain ⟨near, tie⟩ := shiftRne_near n k
    have atLeast : 2 ^ 10 ≤ shiftRne n k := by
      have le : 2 ^ 10 ≤ n / 2 ^ k := by rwa [Nat.le_div_iff_mul_le (Nat.two_pow_pos k), ← pow_add, Nat.add_comm]
      exact le.trans (le_shiftRne n k)
    have atMost : shiftRne n k ≤ 2 ^ 11 := by
      have lt : n / 2 ^ k < 2 ^ 11 := by
        rw [Nat.div_lt_iff_lt_mul (Nat.two_pow_pos k), ← pow_add]
        exact hi.trans_le (Nat.pow_le_pow_right (by decide) (by omega))
      exact (shiftRne_le n k).trans lt
    obtain ⟨r, fraction⟩ : ∃ r, shiftRne n k = 2 ^ 10 + r := Nat.exists_eq_add_of_le atLeast
    have off : (n : Rat) * 2 ^ 10 / 2 ^ (k + 10) - 2 ^ 10 - r = n / 2 ^ k - shiftRne n k := by
      have whole : (n : Rat) * 2 ^ 10 / 2 ^ (k + 10) = n / 2 ^ k := by
        rw [pow_add]
        exact mul_div_mul_right _ _ (by positivity)
      rw [whole, fraction]
      push_cast
      ring
    refine ⟨r, by omega, ?_, by rw [off]; exact near, fun half => ?_⟩
    · rw [bits, fraction, pow_add]
      ring
    · rw [off] at half
      have even := tie half
      omega

/-- The pattern of a half in the range of the normal ones: a carry of the fraction runs
into the exponent here too. -/
theorem halfOf_toNat {n s r : Nat} (normal : s ≤ n.log2 + 14) (le : r ≤ 2 ^ 10)
    (fraction : significant 11 n * 2 ^ 10 = (2 ^ 10 + r) * 2 ^ n.log2) :
    (halfOf n s).toNat = if n.log2 + 15 - s ≥ 31 then 31 * 2 ^ 10 else (n.log2 + 15 - s) * 2 ^ 10 + r := by
  simp only [halfOf]
  generalize n.log2 = L at *
  generalize significant 11 n = m at *
  have pos := Nat.two_pow_pos L
  have some : m ≠ 0 := by
    rintro rfl
    have : 0 < (2 ^ 10 + r) * 2 ^ L := Nat.mul_pos (by omega) pos
    omega
  rw [if_neg some, Nat.shiftLeft_eq, Nat.shiftLeft_eq, Nat.shiftRight_eq_div_pow, fraction]
  have next : 2 ^ (L + 1) = 2 * 2 ^ L := pow_succ' 2 L
  have next' : 2 ^ (L + 1 + 1) = 4 * 2 ^ L := by rw [pow_succ', next, ← Nat.mul_assoc]
  rcases Nat.lt_or_eq_of_le le with short | rfl
  · have exponent : m.log2 = L := by
      have high : (2 ^ 10 + r) * 2 ^ L < 2 ^ 11 * 2 ^ L := Nat.mul_lt_mul_of_pos_right (by omega) pos
      have low : 2 ^ 10 * 2 ^ L ≤ (2 ^ 10 + r) * 2 ^ L := Nat.mul_le_mul_right _ (by omega)
      exact (Nat.log2_eq_iff some).2 ⟨by omega, by omega⟩
    have cut : 2 ^ 10 + r - 1024 = r := Nat.add_sub_cancel_left _ _
    rw [exponent, Nat.mul_div_cancel _ pos, cut]
    split
    · rfl
    · exact Nat.mod_eq_of_lt (by omega)
  · have exponent : m.log2 = L + 1 := by
      have same : m = 2 ^ (L + 1) := by omega
      rw [same, Nat.log2_two_pow]
    have whole : (2 ^ 10 + 2 ^ 10) * 2 ^ L / 2 ^ (L + 1) = 2 ^ 10 := by
      rw [next]
      exact Nat.div_eq_of_eq_mul_left (by omega) (by ring)
    rw [exponent, whole]
    split
    · split
      · rfl
      · have last : (0x7c00 : UInt16).toNat = 31 * 2 ^ 10 := rfl
        omega
    · have up : L + 1 + 15 - s = L + 15 - s + 1 := by omega
      have none : 2 ^ 10 - 1024 = 0 := rfl
      rw [if_neg (by omega), up, none, Nat.add_zero, Nat.succ_mul]
      exact Nat.mod_eq_of_lt (by omega)

/-- **The halves of the samples are the nearest ones**, in the range of the normal
halves and past it. -/
theorem halfOf_nearest {n s : Nat} (pos : 0 < n) (normal : s ≤ n.log2 + 14) :
    Nearest binary16.value binary16.inf ((n : Rat) / 2 ^ s) (halfOf n s).toNat := by
  obtain ⟨r, le, fraction, whole⟩ := significant_fraction pos
  rw [halfOf_toNat normal le fraction]
  have lo : (2 : Rat) ^ n.log2 ≤ n := by exact_mod_cast Nat.log2_self_le pos.ne'
  have hi : (n : Rat) < 2 ^ (n.log2 + 1) := by exact_mod_cast Nat.lt_log2_self
  generalize n.log2 = L at *
  split
  · -- From `2 ^ 16` on.
    apply nearest_top Format.value_strictMono
    have deep : (2 : Rat) ^ 16 * 2 ^ s ≤ 2 ^ L := by
      rw [← pow_add]
      exact pow_le_pow_right₀ (by norm_num) (by omega)
    rw [binary16_top, le_div_iff₀ (by positivity)]
    exact deep.trans lo
  · obtain ⟨y, hy⟩ : ∃ y : Rat, y = n * 2 ^ 10 / 2 ^ L - 2 ^ 10 := ⟨_, rfl⟩
    rw [← hy] at whole
    have pos : (0 : Rat) < 2 ^ L := by positivity
    have scale : (n : Rat) / 2 ^ s = (2 ^ binary16.mant + y) * 2 ^ (L + 15 - s - 1) / 2 ^ binary16.quantum := by
      have total : L + 24 = s + 10 + (L + 15 - s - 1) := by omega
      have powers : (2 : Rat) ^ L * 2 ^ 24 = 2 ^ s * 2 ^ 10 * 2 ^ (L + 15 - s - 1) := by
        rw [← pow_add, ← pow_add, ← pow_add, total]
      rw [hy, binary16_mant, binary16_quantum, add_sub_cancel, div_mul_eq_mul_div, div_div, powers,
        div_eq_div_iff (by positivity) (by positivity)]
      ring
    have short : y ≤ 2 ^ binary16.mant := by
      rw [hy, binary16_mant, sub_le_iff_le_add, div_le_iff₀ pos]
      rw [pow_succ] at hi
      linarith
    have start : 0 ≤ y := by
      rw [hy, sub_nonneg, le_div_iff₀ pos]
      linarith
    have inside : L + 15 - s + 1 < 2 ^ binary16.exp := by
      rw [binary16_exp]
      omega
    rw [scale]
    exact Format.nearest_binade (by omega) inside short start le whole

/-- They are what the conversion gives for a float of their value. -/
theorem halfOf_eq {n s : Nat} {x : UInt32} (pos : 0 < n) (normal : s ≤ n.log2 + 14)
    (value : |binary32.toRat x.toNat| = (n : Rat) / 2 ^ s) :
    (f32ToF16 x).toNat % 2 ^ 15 = (halfOf n s).toNat := by
  have near := f32ToF16_nearest x
  rw [Format.abs_toRat] at value
  rw [value] at near
  exact near.unique Format.value_strictMono (halfOf_nearest pos normal)

theorem significant_pos {p n : Nat} (hp : 0 < p) (pos : 0 < n) : 0 < significant p n := by
  have le : 2 ^ (n.log2 + 1 - p) ≤ n :=
    (Nat.pow_le_pow_right (by decide) (by omega)).trans (Nat.log2_self_le pos.ne')
  rw [significant, Nat.shiftLeft_eq]
  exact Nat.mul_pos ((Nat.div_pos le (Nat.two_pow_pos _)).trans_le (le_shiftRne _ _)) (Nat.two_pow_pos _)

/-- `f32_to_f16((float)v)`, the float being `v` rounded to 24 bits. -/
theorem halfOfInt_eq {v : Int32} {x : UInt32} (sign : binary32.Negative x.toNat ↔ v.toInt < 0)
    (value : |binary32.toRat x.toNat| = significant 24 v.toInt.natAbs) : f32ToF16 x = halfOfInt v := by
  have signs := (f32ToF16_fields x).1
  have lt := x.toNat_lt
  have negative : x.toNat / 2 ^ 31 % 2 = 1 ↔ v.toInt < 0 := sign
  have magnitude : (f32ToF16 x).toNat % 2 ^ 15 = (halfOf (significant 24 v.toInt.natAbs) 0).toNat := by
    rcases Nat.eq_zero_or_pos v.toInt.natAbs with zero | pos
    · have near := f32ToF16_nearest x
      have none : ((significant 24 0 : Nat) : Rat) = binary16.value 0 := by
        rw [Format.value_zero]
        rfl
      rw [zero] at value ⊢
      rw [← Format.abs_toRat, value, none] at near
      exact near.unique Format.value_strictMono (nearest_self Format.value_strictMono (Nat.zero_le _))
    · exact halfOf_eq (significant_pos (by decide) pos) (Nat.zero_le _) (by rw [value, pow_zero, div_one])
  have bit : ∀ h : UInt16, h.toNat < 2 ^ 15 → (h ||| 0x8000).toNat = 2 ^ 15 + h.toNat := by
    intro h short
    have mask : (0x8000 : UInt16).toNat = 1 <<< 15 := rfl
    rw [UInt16.toNat_or, mask, Nat.or_comm, shiftLeft_or short, Nat.one_mul]
  have short : (f32ToF16 x).toNat % 2 ^ 15 < 2 ^ 15 := Nat.mod_lt _ (by decide)
  apply UInt16.toNat_inj.1
  simp only [halfOfInt]
  split
  · rw [bit _ (magnitude ▸ short), ← magnitude]
    omega
  · rw [← magnitude]
    omega

end Rkvc.Mlvc.Pixel.Portable
