import Mathlib.Data.Rat.Cast.Order
import Mathlib.Tactic.Linarith
import Mathlib.Tactic.Positivity
import Mathlib.Tactic.FieldSimp
import Rkvc.Lib.Lanes
import Rkvc.Lib.Rint
import Rkvc.Mlvc.Sample

/-!
# The registers of the board

The two helpers of `pixel.cpp` on NEON registers. Three stages of lane shuffles
transpose eight by eight halves (`transpose8x8U16_eq`); the conversion of eight
halves to bytes is the scalar one in every lane (`f16x8ToU8x8Sat255_eq`). A
`float` here is a half or a half times 255, which 24 bits hold exactly.
-/

namespace Rkvc.Mlvc.Pixel
set_option autoImplicit false
open Lib

/-- The sum of the last turn of `for (; x + 8 <= W; x += 8)` is an `int`. -/
def WideFits (W : Nat) : Prop := W / 8 * 8 + 8 < 2 ^ 31

instance (W : Nat) : Decidable (WideFits W) := inferInstanceAs (Decidable (_ < _))

/-! ## The transpose -/

def u16x2 : Halves UInt16 UInt32 where
  join lo hi := lo.toUInt32 ||| (hi.toUInt32 <<< 16)
  low w := w.toUInt16
  high w := (w >>> 16).toUInt16
  low_join := by
    intro a b
    apply UInt16.toBitVec_inj.1
    apply BitVec.eq_of_getLsbD_eq
    intro i hi
    simp
  high_join := by
    intro a b
    apply UInt16.toBitVec_inj.1
    apply BitVec.eq_of_getLsbD_eq
    intro i hi
    have inside : 16 + i < 32 ∧ i < 32 := by omega
    simp [hi, inside]

def u32x2 : Halves UInt32 UInt64 where
  join lo hi := lo.toUInt64 ||| (hi.toUInt64 <<< 32)
  low w := w.toUInt32
  high w := (w >>> 32).toUInt32
  low_join := by
    intro a b
    apply UInt32.toBitVec_inj.1
    apply BitVec.eq_of_getLsbD_eq
    intro i hi
    simp
  high_join := by
    intro a b
    apply UInt32.toBitVec_inj.1
    apply BitVec.eq_of_getLsbD_eq
    intro i hi
    have inside : 32 + i < 64 ∧ i < 64 := by omega
    simp [hi, inside]

/-- `vreinterpretq_u32_u16`. -/
def asU32 (r : List UInt16) : List UInt32 := u16x2.widen r

/-- `vreinterpretq_u64_u32`. -/
def asU64 (r : List UInt32) : List UInt64 := u32x2.widen r

/-- `vreinterpretq_u16_u64`. -/
def asU16 (r : List UInt64) : List UInt16 := u16x2.narrow (u32x2.narrow r)

def transpose8x8U16 (r : List (List UInt16)) : List (List UInt16) :=
  let t0 := trn1 (r.getD 0 []) (r.getD 1 [])
  let t1 := trn2 (r.getD 0 []) (r.getD 1 [])
  let t2 := trn1 (r.getD 2 []) (r.getD 3 [])
  let t3 := trn2 (r.getD 2 []) (r.getD 3 [])
  let t4 := trn1 (r.getD 4 []) (r.getD 5 [])
  let t5 := trn2 (r.getD 4 []) (r.getD 5 [])
  let t6 := trn1 (r.getD 6 []) (r.getD 7 [])
  let t7 := trn2 (r.getD 6 []) (r.getD 7 [])
  let v0 := trn1 (asU32 t0) (asU32 t2)
  let v1 := trn2 (asU32 t0) (asU32 t2)
  let v2 := trn1 (asU32 t1) (asU32 t3)
  let v3 := trn2 (asU32 t1) (asU32 t3)
  let v4 := trn1 (asU32 t4) (asU32 t6)
  let v5 := trn2 (asU32 t4) (asU32 t6)
  let v6 := trn1 (asU32 t5) (asU32 t7)
  let v7 := trn2 (asU32 t5) (asU32 t7)
  [asU16 (trn1 (asU64 v0) (asU64 v4)), asU16 (trn1 (asU64 v2) (asU64 v6)),
    asU16 (trn1 (asU64 v1) (asU64 v5)), asU16 (trn1 (asU64 v3) (asU64 v7)),
    asU16 (trn2 (asU64 v0) (asU64 v4)), asU16 (trn2 (asU64 v2) (asU64 v6)),
    asU16 (trn2 (asU64 v1) (asU64 v5)), asU16 (trn2 (asU64 v3) (asU64 v7))]

/-- **The shuffles transpose**, whatever the lanes hold. -/
theorem transpose8x8U16_eq (f : Nat → Nat → UInt16) :
    transpose8x8U16 ((List.range 8).map fun k => (List.range 8).map fun j => f k j) =
      (List.range 8).map fun k => (List.range 8).map fun j => f j k := by
  have eight : List.range 8 = [0, 1, 2, 3, 4, 5, 6, 7] := rfl
  simp only [eight, List.map_cons, List.map_nil, transpose8x8U16, List.getD_cons_zero, List.getD_cons_succ, asU16, asU32,
    asU64, trn1, trn2, Halves.widen, Halves.narrow, Halves.low_join, Halves.high_join]

/-! ## The conversions -/

/-- `f16_to_f32` of a finite half, `vcvt_f32_f16` of a lane. -/
def f16ToF32 (h : UInt16) : Rat :=
  let mag : Rat := halfMagnitude h / 2 ^ 24
  if h &&& 0x8000 ≠ 0 then -mag else mag

/-- `vcvtnq_s32_f32`: the nearest `int32_t`, half to even, saturating. -/
def vcvtnS32 (f : Rat) : Int := max (-2 ^ 31) (min (2 ^ 31 - 1) (rint f))

/-- `vqmovun_s32`. -/
def vqmovunS32 (v : Int) : Nat := min (2 ^ 16 - 1) v.toNat

/-- `vqmovn_u16`. -/
def vqmovnU16 (v : Nat) : UInt8 := UInt8.ofNat (min (2 ^ 8 - 1) v)

def f16x8ToU8x8Sat255 (h : List UInt16) : List UInt8 :=
  h.map fun h => vqmovnU16 (vqmovunS32 (vcvtnS32 (f16ToF32 h * 255)))

/-- A shift that rounds is a division that rounds. -/
theorem rint_shift (n k : Nat) : rint ((n : Rat) / 2 ^ k) = shiftRne n k := by
  have pos : (0 : Rat) < 2 ^ k := by positivity
  have back : ((n / 2 ^ k : Nat) : Rat) * 2 ^ k + (n % 2 ^ k : Nat) = n := by
    have parts := Nat.div_add_mod' n (2 ^ k)
    exact_mod_cast parts
  have split : (n : Rat) / 2 ^ k = (n / 2 ^ k : Nat) + ((n % 2 ^ k : Nat) : Rat) / 2 ^ k := by
    rw [eq_comm, add_div' _ _ _ pos.ne', back]
  have lt : ((n % 2 ^ k : Nat) : Rat) < 2 ^ k := by
    have below := Nat.mod_lt n (Nat.two_pow_pos k)
    exact_mod_cast below
  simp only [shiftRne, Nat.shiftRight_eq_div_pow]
  generalize n / 2 ^ k = q at split ⊢
  generalize n % 2 ^ k = r at split lt ⊢
  obtain ⟨t, ht⟩ : ∃ t : Rat, t = (r : Rat) / 2 ^ k := ⟨_, rfl⟩
  have rest : (r : Rat) = t * 2 ^ k := by rw [ht, div_mul_cancel₀ _ pos.ne']
  have t0 : 0 ≤ t := by rw [ht]; positivity
  have t1 : t < 1 := by rw [ht, div_lt_one pos]; exact lt
  have above : 2 * r > 2 ^ k ↔ 1 / 2 < t := by
    rw [gt_iff_lt, ← Nat.cast_lt (α := Rat), Nat.cast_mul, Nat.cast_pow, rest]
    push_cast
    constructor
    · intro h
      nlinarith
    · intro h
      nlinarith
  have equal : 2 * r = 2 ^ k ↔ t = 1 / 2 := by
    rw [← Nat.cast_inj (R := Rat), Nat.cast_mul, Nat.cast_pow, rest]
    push_cast
    constructor
    · intro h
      nlinarith
    · rintro rfl
      ring
  have whole := @rint_add q t t0 t1
  rw [Int.cast_natCast] at whole
  rw [split, ← ht, whole]
  have parity : (q : Int) % 2 = 1 ↔ q % 2 = 1 := by omega
  simp only [above, equal, parity]
  split
  · rw [Nat.cast_succ]
  · rfl
/-- The scalar conversion is the nearest integer of the half, scaled. -/
theorem lrintHalf_eq (h : UInt16) (scale : Nat) : lrintHalf h scale = rint (f16ToF32 h * scale) := by
  have mag : (halfMagnitude h : Rat) / 2 ^ 24 * scale = (halfMagnitude h * scale : Nat) / 2 ^ 24 := by
    push_cast
    ring
  rw [lrintHalf, f16ToF32]
  by_cases negative : h &&& 0x8000 ≠ 0
  · simp only [if_pos negative]
    rw [neg_mul, rint_neg, mag, rint_shift]
  · simp only [if_neg negative]
    rw [mag, rint_shift]

/-- The bits of the exponent, in place. -/
theorem exponent_bits (n : Nat) : ((n >>> 10) &&& 0x1f) <<< 10 = n &&& 0x7c00 := by
  have mask : (0x7c00 : Nat) = 0x1f <<< 10 := rfl
  rw [mask]
  apply Nat.eq_of_testBit_eq
  intro i
  simp only [Nat.testBit_shiftLeft, Nat.testBit_and, Nat.testBit_shiftRight]
  by_cases past : i ≥ 10
  · rw [decide_eq_true past, Nat.add_sub_cancel' past, Bool.true_and, Bool.true_and]
  · rw [decide_eq_false past, Bool.false_and, Bool.false_and, Bool.and_false]

/-- A finite half is below `2 ^ 16`. -/
theorem halfMagnitude_lt {h : UInt16} (finite : fp16Finite h) : halfMagnitude h < 2 ^ 40 := by
  have exponent : (h.toNat >>> 10) &&& 0x1f ≤ 30 := by
    have le : (h.toNat >>> 10) &&& 0x1f ≤ 31 := Nat.and_le_right
    have shifted := exponent_bits h.toNat
    have other : (h.toNat >>> 10) &&& 0x1f ≠ 31 := by
      intro top
      rw [top] at shifted
      have special : h &&& 0x7c00 = 0x7c00 := UInt16.toNat_inj.1 shifted.symm
      rw [fp16Finite, special] at finite
      cases finite
    omega
  have mantissa : h.toNat &&& 0x3ff ≤ 1023 := Nat.and_le_right
  simp only [halfMagnitude]
  generalize (h.toNat >>> 10) &&& 0x1f = e at exponent
  split
  · omega
  · rw [Nat.shiftLeft_eq]
    calc (1024 + (h.toNat &&& 0x3ff)) * 2 ^ (e - 1) ≤ 2047 * 2 ^ 29 :=
        Nat.mul_le_mul (by omega) (Nat.pow_le_pow_right (by decide) (by omega))
      _ < 2 ^ 40 := by decide

/-- No finite half saturates. -/
theorem vcvtnS32_eq {h : UInt16} (finite : fp16Finite h) : vcvtnS32 (f16ToF32 h) = lrintHalf h 1 := by
  have value := lrintHalf_eq h 1
  rw [Nat.cast_one, mul_one] at value
  have small := halfMagnitude_lt finite
  have bound : shiftRne (halfMagnitude h * 1) 24 ≤ 2 ^ 16 := by
    simp only [shiftRne, Nat.shiftRight_eq_div_pow]
    split <;> omega
  have range : -2 ^ 16 ≤ lrintHalf h 1 ∧ lrintHalf h 1 ≤ 2 ^ 16 := by
    simp only [lrintHalf]
    split <;> omega
  rw [vcvtnS32, ← value]
  omega

/-- **Eight at a time is one by one.** -/
theorem f16x8ToU8x8Sat255_eq (h : List UInt16) : f16x8ToU8x8Sat255 h = h.map byteOf := by
  apply List.map_congr_left
  intro h _
  have value := lrintHalf_eq h 255
  rw [Nat.cast_ofNat] at value
  rw [byteOf, vcvtnS32, ← value, vqmovnU16, vqmovunS32]
  generalize lrintHalf h 255 = v
  congr 1
  split
  · omega
  · split <;> omega

end Rkvc.Mlvc.Pixel
