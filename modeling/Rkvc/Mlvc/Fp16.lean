import Rkvc.Lib.Word
import Rkvc.Mlvc.Sample

/-!
# The portable conversions of halves

`f32_to_f16` and `f16_to_f32` of `pixel.hpp` where there is no NEON, on the bit
patterns. On numbers the first is a rounding shift of the fraction in front of the
exponent, with every carry left to run (`f32ToF16_toNat`); the second shifts a
subnormal fraction up to its leading bit, and its loop ends (`f16ToF32_toNat`).
-/

namespace Rkvc.Mlvc.Pixel.Portable
set_option autoImplicit false
open Lib

/-- What both branches do with the bits a shift drops, `half` being their middle. -/
def roundUp (rest half mant16 : UInt32) : UInt32 :=
  if rest > half ∨ rest = half ∧ mant16 &&& 1 ≠ 0 then mant16 + 1 else mant16

def f32ToF16 (x : UInt32) : UInt16 :=
  let sign := (x >>> 16) &&& 0x8000
  let exp : Int := ((x >>> 23) &&& 0xff).toNat - 127 + 15
  let mant := x &&& 0x7fffff
  if exp ≤ 0 then
    if exp < -10 then sign.toUInt16
    else
      let mant := mant ||| 0x800000
      let shift := UInt32.ofNat (toU32 (14 - exp))
      let half := 1 <<< (shift - 1)
      let mant16 := roundUp (mant &&& (half * 2 - 1)) half (mant >>> shift)
      (sign ||| mant16).toUInt16
  else if exp ≥ 31 then (sign ||| 0x7c00).toUInt16
  else
    let mant16 := roundUp (mant &&& 0x1fff) 0x1000 (mant >>> 13)
    if mant16 = 0x400 then
      let exp := exp + 1
      if exp ≥ 31 then (sign ||| 0x7c00).toUInt16
      else (sign ||| (UInt32.ofNat (toU32 exp) <<< 10) ||| 0).toUInt16
    else (sign ||| (UInt32.ofNat (toU32 exp) <<< 10) ||| mant16).toUInt16

/-- `while (!(mant & 0x400))`. Ten rounds bring any bit of a fraction to its place. -/
def normalize : Nat → UInt32 → UInt32 → Option (UInt32 × UInt32)
  | 0, _, _ => none
  | fuel + 1, mant, exp =>
    if mant &&& 0x400 ≠ 0 then some (mant, exp) else normalize fuel (mant <<< 1) (exp - 1)

def f16ToF32 (h : UInt16) : Option UInt32 :=
  let sign := (h &&& 0x8000).toUInt32 <<< 16
  let exp := ((h >>> 10) &&& 0x1f).toUInt32
  let mant := (h &&& 0x3ff).toUInt32
  if exp = 0 then
    if mant = 0 then some sign
    else
      match normalize 11 mant (127 - 15 + 1) with
      | some (mant, exp) => some (sign ||| (exp <<< 23) ||| ((mant &&& 0x3ff) <<< 13))
      | none => none
  else if exp = 0x1f then some (sign ||| (0x7f800000 : UInt32) ||| (mant <<< 13))
  else some (sign ||| ((exp - 15 + 127) <<< 23) ||| (mant <<< 13))

/-! ## The words as numbers -/

/-- The magnitude of `f32_to_f16`, from the fields of the float. -/
def halfBits (E M : Nat) : Nat :=
  if E < 102 then 0
  else if E ≤ 112 then shiftRne (2 ^ 23 + M) (126 - E)
  else if E < 143 then (E - 112) * 2 ^ 10 + shiftRne M 13
  else 31 * 2 ^ 10

theorem shiftLeft_toNat {x k : UInt32} {m n : Nat} (hx : x.toNat = m) (hk : k.toNat = n) (short : n < 32)
    (room : m * 2 ^ n < 2 ^ 32) : (x <<< k).toNat = m <<< n := by
  rw [UInt32.toNat_shiftLeft, hx, hk, Nat.mod_eq_of_lt short, Nat.shiftLeft_eq]
  exact Nat.mod_eq_of_lt room

theorem shiftRight_toNat {x k : UInt32} {m n : Nat} (hx : x.toNat = m) (hk : k.toNat = n) (short : n < 32) :
    (x >>> k).toNat = m / 2 ^ n := by
  rw [UInt32.toNat_shiftRight, hx, hk, Nat.mod_eq_of_lt short, Nat.shiftRight_eq_div_pow]

theorem mask_toNat {x mask : UInt32} {m k : Nat} (hx : x.toNat = m) (hmask : mask.toNat = 2 ^ k - 1) :
    (x &&& mask).toNat = m % 2 ^ k := by
  rw [UInt32.toNat_and, hx, hmask, Nat.and_two_pow_sub_one_eq_mod]

theorem sign_toNat (x : UInt32) : ((x >>> 16) &&& 0x8000).toNat = (x.toNat / 2 ^ 31) <<< 15 := by
  have lt := x.toNat_lt
  have shifted : (x >>> 16).toNat = x.toNat / 2 ^ 16 := shiftRight_toNat rfl rfl (by decide)
  have mask : (0x8000 : UInt32).toNat = 2 ^ 15 := rfl
  rw [UInt32.toNat_and, shifted, mask, and_highest (by omega), Nat.div_div_eq_div_mul, ← Nat.pow_add,
    Nat.shiftLeft_eq]

theorem exp_toNat (x : UInt32) : ((x >>> 23) &&& 0xff).toNat = x.toNat / 2 ^ 23 % 2 ^ 8 := by
  have shifted : (x >>> 23).toNat = x.toNat / 2 ^ 23 := shiftRight_toNat rfl rfl (by decide)
  exact mask_toNat shifted rfl

theorem mant_toNat (x : UInt32) : (x &&& 0x7fffff).toNat = x.toNat % 2 ^ 23 :=
  mask_toNat rfl rfl

/-- The rounding of both branches is the rounding shift. -/
theorem roundUp_toNat {rest half q : UInt32} {n k : Nat} (hk : 0 < k) (hn : n < 2 ^ 31)
    (hrest : rest.toNat = n % 2 ^ k) (hhalf : half.toNat = 2 ^ (k - 1)) (hq : q.toNat = n / 2 ^ k) :
    (roundUp rest half q).toNat = shiftRne n k := by
  obtain ⟨j, rfl⟩ : ∃ j, k = j + 1 := ⟨k - 1, by omega⟩
  rw [Nat.add_sub_cancel] at hhalf
  have whole : n / 2 ^ (j + 1) ≤ n := Nat.div_le_self _ _
  have odd : q &&& 1 ≠ 0 ↔ q.toNat % 2 = 1 := by
    rw [ne_eq, ← UInt32.toNat_inj, UInt32.toNat_and]
    have mask : q.toNat &&& (1 : UInt32).toNat = q.toNat % 2 := Nat.and_one_is_mod _
    rw [mask]
    exact Nat.mod_two_ne_zero
  have up : (q + 1).toNat = n / 2 ^ (j + 1) + 1 := by
    rw [UInt32.toNat_add, hq, UInt32.toNat_one]
    exact Nat.mod_eq_of_lt (by omega)
  simp only [roundUp, shiftRne, gt_iff_lt, UInt32.lt_iff_toNat_lt, ← UInt32.toNat_inj, odd, hrest, hhalf, hq,
    Nat.shiftRight_eq_div_pow]
  have twice : 2 ^ (j + 1) = 2 * 2 ^ j := pow_succ' 2 j
  have more : 2 ^ j < n % 2 ^ (j + 1) ↔ 2 ^ (j + 1) < 2 * (n % 2 ^ (j + 1)) := by omega
  have equal : n % 2 ^ (j + 1) = 2 ^ j ↔ 2 * (n % 2 ^ (j + 1)) = 2 ^ (j + 1) := by omega
  simp only [more, equal]
  split
  · exact up
  · exact hq

/-- The shift of a subnormal half, by a count held in a word. -/
theorem roundUp_shift {mant shift : UInt32} {k : Nat} (hshift : shift.toNat = k) (hk : 0 < k) (short : k < 31)
    (small : mant.toNat < 2 ^ 31) :
    (roundUp (mant &&& ((1 <<< (shift - 1)) * 2 - 1)) (1 <<< (shift - 1)) (mant >>> shift)).toNat =
      shiftRne mant.toNat k := by
  have wide : 2 ^ k < 2 ^ 31 := Nat.pow_lt_pow_right (by decide) short
  have twice : 2 ^ k = 2 ^ (k - 1) * 2 := by rw [← pow_succ, Nat.sub_add_cancel hk]
  have back : (shift - 1).toNat = k - 1 := by
    rw [UInt32.toNat_sub_of_le _ _ (UInt32.le_iff_toNat_le.2 (by rw [hshift]; exact hk)), hshift]
    rfl
  have half : ((1 : UInt32) <<< (shift - 1)).toNat = 2 ^ (k - 1) := by
    rw [shiftLeft_toNat UInt32.toNat_one back (by omega) (by omega), Nat.one_shiftLeft]
  have full : ((1 : UInt32) <<< (shift - 1) * 2).toNat = 2 ^ k := by
    have two : (2 : UInt32).toNat = 2 := rfl
    rw [UInt32.toNat_mul, half, two, ← twice]
    exact Nat.mod_eq_of_lt (by omega)
  have mask : ((1 : UInt32) <<< (shift - 1) * 2 - 1).toNat = 2 ^ k - 1 := by
    rw [UInt32.toNat_sub_of_le _ _ (UInt32.le_iff_toNat_le.2 (by rw [full]; exact Nat.two_pow_pos k)), full]
    rfl
  apply roundUp_toNat hk small
  · exact mask_toNat rfl mask
  · exact half
  · exact shiftRight_toNat rfl hshift (by omega)

theorem shiftRne_le (n k : Nat) : shiftRne n k ≤ n / 2 ^ k + 1 := by
  simp only [shiftRne, Nat.shiftRight_eq_div_pow]
  split
  · exact le_refl _
  · exact Nat.le_succ _

theorem le_shiftRne (n k : Nat) : n / 2 ^ k ≤ shiftRne n k := by
  simp only [shiftRne, Nat.shiftRight_eq_div_pow]
  split
  · exact Nat.le_succ _
  · exact le_refl _

/-- A fraction of 23 bits keeps ten, or carries. -/
theorem shiftRne_fraction {M : Nat} (hM : M < 2 ^ 23) : shiftRne M 13 ≤ 2 ^ 10 := by
  have le := shiftRne_le M 13
  omega

theorem shiftRne_significand {M k : Nat} (hM : M < 2 ^ 23) (hk : 14 ≤ k) : shiftRne (2 ^ 23 + M) k ≤ 2 ^ 10 := by
  have le := shiftRne_le (2 ^ 23 + M) k
  have deep : (2 ^ 23 + M) / 2 ^ k ≤ (2 ^ 23 + M) / 2 ^ 14 :=
    Nat.div_le_div_left (Nat.pow_le_pow_right (by decide) hk) (by decide)
  omega

/-- The sign, in front of a magnitude of fifteen bits. -/
theorem signed_toNat {x m : UInt32} {n : Nat} (hm : m.toNat = n) (small : n < 2 ^ 15) :
    (((x >>> 16) &&& 0x8000) ||| m).toUInt16.toNat = x.toNat / 2 ^ 31 * 2 ^ 15 + n := by
  have lt := x.toNat_lt
  rw [UInt32.toNat_toUInt16, UInt32.toNat_or, sign_toNat, hm, shiftLeft_or small]
  exact Nat.mod_eq_of_lt (by omega)

/-- The exponent, in front of a fraction of ten bits. -/
theorem exponent_toNat {exp : Int} {q : UInt32} {e : Nat} (he : exp = e) (small : e < 31) (hq : q.toNat < 2 ^ 10) :
    (UInt32.ofNat (toU32 exp) <<< 10 ||| q).toNat = e * 2 ^ 10 + q.toNat := by
  have word : (UInt32.ofNat (toU32 exp)).toNat = e := by
    rw [toU32_of_range (by omega) (by omega), UInt32.toNat_ofNat', Nat.mod_eq_of_lt (by omega)]
    omega
  have shifted : (UInt32.ofNat (toU32 exp) <<< 10).toNat = e <<< 10 :=
    shiftLeft_toNat word rfl (by decide) (by omega)
  rw [UInt32.toNat_or, shifted, shiftLeft_or hq]

/-- The end of the branch of the normal halves: a carry out of the fraction is one more
in the exponent, and past the last exponent it is infinity. -/
theorem carry_toNat {x q : UInt32} {exp : Int} {e : Nat} (he : exp = e) (small : e < 31) (hq : q.toNat ≤ 2 ^ 10) :
    (if q = 0x400 then
        if exp + 1 ≥ 31 then (((x >>> 16) &&& (0x8000 : UInt32)) ||| (0x7c00 : UInt32)).toUInt16
        else (((x >>> 16) &&& (0x8000 : UInt32)) ||| (UInt32.ofNat (toU32 (exp + 1)) <<< 10) ||| 0).toUInt16
      else (((x >>> 16) &&& (0x8000 : UInt32)) ||| (UInt32.ofNat (toU32 exp) <<< 10) ||| q).toUInt16).toNat =
      x.toNat / 2 ^ 31 * 2 ^ 15 + (e * 2 ^ 10 + q.toNat) := by
  by_cases carry : q = 0x400
  · have full : q.toNat = 2 ^ 10 := by rw [carry]; rfl
    rw [if_pos carry, full]
    by_cases last : exp + 1 ≥ 31
    · obtain rfl : e = 30 := by omega
      rw [if_pos last]
      exact signed_toNat rfl (by decide)
    · rw [if_neg last, UInt32.or_assoc]
      apply signed_toNat _ (by omega)
      rw [exponent_toNat (e := e + 1) (by omega) (by omega) (by decide), UInt32.toNat_zero, Nat.add_zero, Nat.succ_mul]
  · have short : q.toNat ≠ 2 ^ 10 := fun full => carry (UInt32.toNat_inj.1 full)
    rw [if_neg carry, UInt32.or_assoc]
    apply signed_toNat _ (by omega)
    rw [exponent_toNat he small (by omega)]

/-- **The conversion on numbers**: every carry runs into the exponent, and from the
largest exponent into infinity. -/
theorem f32ToF16_toNat (x : UInt32) :
    (f32ToF16 x).toNat = x.toNat / 2 ^ 31 * 2 ^ 15 + halfBits (x.toNat / 2 ^ 23 % 2 ^ 8) (x.toNat % 2 ^ 23) := by
  have hE : x.toNat / 2 ^ 23 % 2 ^ 8 < 2 ^ 8 := Nat.mod_lt _ (by decide)
  have hM : x.toNat % 2 ^ 23 < 2 ^ 23 := Nat.mod_lt _ (by decide)
  have hmant := mant_toNat x
  simp only [f32ToF16, exp_toNat]
  generalize x.toNat / 2 ^ 23 % 2 ^ 8 = E at hE
  generalize x &&& 0x7fffff = mant at hmant
  generalize x.toNat % 2 ^ 23 = M at hM hmant
  simp only [halfBits]
  by_cases tiny : E < 102
  · rw [if_pos (by omega), if_pos (by omega), if_pos tiny]
    have alone := signed_toNat (x := x) (m := 0) rfl (by decide : 0 < 2 ^ 15)
    rwa [UInt32.or_zero] at alone
  rw [if_neg tiny]
  by_cases subnormal : E ≤ 112
  · rw [if_pos (by omega), if_neg (by omega), if_pos subnormal]
    have significand : (mant ||| 0x800000).toNat = 2 ^ 23 + M := by
      have bit : (0x800000 : UInt32).toNat = 1 <<< 23 := rfl
      rw [UInt32.toNat_or, Nat.or_comm, bit, hmant, shiftLeft_or hM, Nat.one_mul]
    have shift : (UInt32.ofNat (toU32 (14 - ((E : Int) - 127 + 15)))).toNat = 126 - E := by
      rw [toU32_of_range (by omega) (by omega), UInt32.toNat_ofNat', Nat.mod_eq_of_lt (by omega)]
      omega
    have rounded := @roundUp_shift (mant ||| 0x800000) _ _ shift (by omega) (by omega) (by omega)
    rw [significand] at rounded
    exact signed_toNat rounded (by have := shiftRne_significand hM (show 14 ≤ 126 - E by omega); omega)
  rw [if_neg (by omega), if_neg subnormal]
  by_cases large : E < 143
  · rw [if_neg (by omega), if_pos large]
    have rounded : (roundUp (mant &&& 0x1fff) 0x1000 (mant >>> 13)).toNat = shiftRne M 13 := by
      apply roundUp_toNat (by decide) (by omega)
      · exact mask_toNat hmant rfl
      · rfl
      · exact shiftRight_toNat hmant rfl (by decide)
    rw [← rounded]
    exact carry_toNat (e := E - 112) (by omega) (by omega) (by rw [rounded]; exact shiftRne_fraction hM)
  · rw [if_pos (by omega), if_neg large]
    exact signed_toNat rfl (by decide)

/-! ## Back to a float -/

theorem sign16_toNat (h : UInt16) : ((h &&& 0x8000).toUInt32 <<< 16).toNat = (h.toNat / 2 ^ 15) <<< 31 := by
  have lt := h.toNat_lt
  have mask : (0x8000 : UInt16).toNat = 2 ^ 15 := rfl
  have bit : (h &&& 0x8000).toUInt32.toNat = h.toNat / 2 ^ 15 * 2 ^ 15 := by
    rw [UInt16.toNat_toUInt32, UInt16.toNat_and, mask, and_highest lt]
  have moved : ((h &&& 0x8000).toUInt32 <<< 16).toNat = (h.toNat / 2 ^ 15 * 2 ^ 15) <<< 16 :=
    shiftLeft_toNat bit rfl (by decide) (by omega)
  rw [moved, Nat.shiftLeft_eq, Nat.shiftLeft_eq, Nat.mul_assoc, ← Nat.pow_add]

theorem exp16_toNat (h : UInt16) : ((h >>> 10) &&& 0x1f).toUInt32.toNat = h.toNat / 2 ^ 10 % 2 ^ 5 := by
  have mask : (0x1f : UInt16).toNat = 2 ^ 5 - 1 := rfl
  have shift : (10 : UInt16).toNat % 16 = 10 := rfl
  rw [UInt16.toNat_toUInt32, UInt16.toNat_and, UInt16.toNat_shiftRight, mask, shift, Nat.and_two_pow_sub_one_eq_mod,
    Nat.shiftRight_eq_div_pow]

theorem mant16_toNat (h : UInt16) : (h &&& 0x3ff).toUInt32.toNat = h.toNat % 2 ^ 10 := by
  have mask : (0x3ff : UInt16).toNat = 2 ^ 10 - 1 := rfl
  rw [UInt16.toNat_toUInt32, UInt16.toNat_and, mask, Nat.and_two_pow_sub_one_eq_mod]

/-- The three fields of a float are put together. -/
theorem float_toNat {h : UInt16} {exp mant : UInt32} {E F : Nat} (hexp : exp.toNat = E) (hmant : mant.toNat = F)
    (shortE : E < 2 ^ 8) (shortF : F < 2 ^ 10) :
    ((h &&& 0x8000).toUInt32 <<< 16 ||| exp <<< 23 ||| mant <<< 13).toNat =
      h.toNat / 2 ^ 15 * 2 ^ 31 + (E * 2 ^ 23 + F * 2 ^ 13) := by
  have exponent : (exp <<< 23).toNat = E <<< 23 := shiftLeft_toNat hexp rfl (by decide) (by omega)
  have fraction : (mant <<< 13).toNat = F <<< 13 := shiftLeft_toNat hmant rfl (by decide) (by omega)
  have fields : E <<< 23 ||| F <<< 13 = E * 2 ^ 23 + F * 2 ^ 13 := by
    rw [Nat.shiftLeft_eq F]
    exact shiftLeft_or (by omega)
  rw [UInt32.or_assoc, UInt32.toNat_or, UInt32.toNat_or, sign16_toNat, exponent, fraction, fields]
  exact shiftLeft_or (by omega)

/-- `mant & 0x400`, of a fraction that has not passed it. -/
theorem leading_iff {mant : UInt32} (short : mant.toNat < 2 ^ 11) : mant &&& 0x400 ≠ 0 ↔ 2 ^ 10 ≤ mant.toNat := by
  have mask : (0x400 : UInt32).toNat = 2 ^ 10 := rfl
  rw [ne_eq, ← UInt32.toNat_inj, UInt32.toNat_and, mask, and_highest short, UInt32.toNat_zero]
  omega

/-- The loop ends with the leading bit in its place, the exponent one less for each
round. -/
theorem normalize_spec {n f e : Nat} {mant exp : UInt32} (hmant : mant.toNat = f) (hexp : exp.toNat = e)
    (short : f < 2 ^ 11) (enough : 2 ^ 10 ≤ f * 2 ^ n) (room : n ≤ e) :
    ∃ k mant' exp', normalize (n + 1) mant exp = some (mant', exp') ∧ k ≤ n ∧ mant'.toNat = f * 2 ^ k ∧
      2 ^ 10 ≤ f * 2 ^ k ∧ f * 2 ^ k < 2 ^ 11 ∧ exp'.toNat = e - k := by
  induction n generalizing f e mant exp with
  | zero =>
    have high : 2 ^ 10 ≤ f := by omega
    refine ⟨0, mant, exp, ?_, le_refl _, by omega, by omega, by omega, by omega⟩
    rw [normalize, if_pos ((leading_iff (hmant ▸ short)).2 (hmant ▸ high))]
  | succ n ih =>
    rw [normalize]
    by_cases high : 2 ^ 10 ≤ f
    · rw [if_pos ((leading_iff (hmant ▸ short)).2 (hmant ▸ high))]
      exact ⟨0, mant, exp, rfl, Nat.zero_le _, by omega, by omega, by omega, by omega⟩
    · have doubled : (mant <<< 1).toNat = f * 2 := by
        rw [shiftLeft_toNat hmant UInt32.toNat_one (by decide) (by omega), Nat.shiftLeft_eq, pow_one]
      have less : (exp - 1).toNat = e - 1 := by
        rw [UInt32.toNat_sub_of_le _ _ (UInt32.le_iff_toNat_le.2 (by rw [hexp, UInt32.toNat_one]; omega)), hexp,
          UInt32.toNat_one]
      rw [if_neg (fun set => high (hmant ▸ (leading_iff (hmant ▸ short)).1 set))]
      obtain ⟨k, mant', exp', found, rounds, fraction, lo, hi, exponent⟩ := ih doubled less (by omega)
        (by rwa [Nat.mul_assoc, ← pow_succ']) (by omega)
      rw [Nat.mul_assoc, ← pow_succ'] at fraction lo hi
      exact ⟨k + 1, mant', exp', found, by omega, fraction, lo, hi, by omega⟩

/-- The magnitude of `f16_to_f32` for each kind of half, with exponent `e` and fraction
`f`: a subnormal one is shifted up. -/
inductive Widened (e f : Nat) : Nat → Prop
  | zero : e = 0 → f = 0 → Widened e f 0
  | subnormal (k : Nat) : e = 0 → k ≤ 10 → 2 ^ 10 ≤ f * 2 ^ k → f * 2 ^ k < 2 ^ 11 →
      Widened e f ((113 - k) * 2 ^ 23 + (f * 2 ^ k - 2 ^ 10) * 2 ^ 13)
  | normal : 0 < e → e < 31 → Widened e f ((e + 112) * 2 ^ 23 + f * 2 ^ 13)
  | special : e = 31 → Widened e f (255 * 2 ^ 23 + f * 2 ^ 13)

theorem f16ToF32_toNat (h : UInt16) :
    ∃ y n, f16ToF32 h = some y ∧ y.toNat = h.toNat / 2 ^ 15 * 2 ^ 31 + n ∧
      Widened (h.toNat / 2 ^ 10 % 2 ^ 5) (h.toNat % 2 ^ 10) n := by
  have he : h.toNat / 2 ^ 10 % 2 ^ 5 < 2 ^ 5 := Nat.mod_lt _ (by decide)
  have hf : h.toNat % 2 ^ 10 < 2 ^ 10 := Nat.mod_lt _ (by decide)
  have hexp := exp16_toNat h
  have hmant := mant16_toNat h
  simp only [f16ToF32]
  generalize ((h >>> 10) &&& 0x1f).toUInt32 = exp at hexp
  generalize (h &&& 0x3ff).toUInt32 = mant at hmant
  generalize h.toNat / 2 ^ 10 % 2 ^ 5 = e at he hexp
  generalize h.toNat % 2 ^ 10 = f at hf hmant
  by_cases subnormal : exp = 0
  · have e0 : e = 0 := by rw [← hexp, subnormal]; rfl
    rw [if_pos subnormal]
    by_cases none : mant = 0
    · have f0 : f = 0 := by rw [← hmant, none]; rfl
      rw [if_pos none]
      refine ⟨_, _, rfl, ?_, .zero e0 f0⟩
      rw [sign16_toNat, Nat.shiftLeft_eq, Nat.add_zero]
    · have some : 0 < f := by
        have : mant.toNat ≠ 0 := fun zero => none (UInt32.toNat_inj.1 zero)
        omega
      rw [if_neg none]
      obtain ⟨k, mant', exp', found, rounds, fraction, lo, hi, exponent⟩ :=
        @normalize_spec 10 f 113 mant (127 - 15 + 1) hmant rfl (by omega) (by omega) (by decide)
      have cut : (mant' &&& 0x3ff).toNat = f * 2 ^ k - 2 ^ 10 := by
        have low : (mant' &&& 0x3ff).toNat = f * 2 ^ k % 2 ^ 10 := mask_toNat fraction rfl
        omega
      rw [found]
      exact ⟨_, _, rfl, float_toNat exponent cut (by omega) (by omega), .subnormal k e0 rounds lo hi⟩
  have positive : 0 < e := by
    have : exp.toNat ≠ 0 := fun zero => subnormal (UInt32.toNat_inj.1 zero)
    omega
  rw [if_neg subnormal]
  by_cases special : exp = 0x1f
  · have e31 : e = 31 := by rw [← hexp, special]; rfl
    have field : (0x7f800000 : UInt32) = (255 : UInt32) <<< 23 := rfl
    rw [if_pos special, field]
    exact ⟨_, _, rfl, float_toNat rfl hmant (by decide) hf, .special e31⟩
  · have below : e < 31 := by
      have : exp.toNat ≠ 31 := fun last => special (UInt32.toNat_inj.1 last)
      omega
    have exponent : (exp - 15 + 127).toNat = e + 112 := by
      have old : (15 : UInt32).toNat = 15 := rfl
      have new : (127 : UInt32).toNat = 127 := rfl
      rw [UInt32.toNat_add, UInt32.toNat_sub, hexp, old, new]
      omega
    rw [if_neg special]
    exact ⟨_, _, rfl, float_toNat exponent hmant (by omega) hf, .normal positive below⟩

end Rkvc.Mlvc.Pixel.Portable
