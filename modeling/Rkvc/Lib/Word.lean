import Mathlib.Data.Nat.Bitwise
import Mathlib.Tactic.Ring

/-!
# Fixed-width words on naturals and integers

Unsigned words are naturals reduced modulo a power of two, signed words are
integers in two's complement (the wrap every build of the program has; the
language itself leaves signed overflow undefined). Little-endian byte strings
read and write such words.
-/

namespace Rkvc.Lib
set_option autoImplicit false

/-- A value stored in a 32-bit unsigned word. -/
def u32 (n : Nat) : Nat := n % 2 ^ 32

/-- A value stored in a 64-bit unsigned word. -/
def u64 (n : Nat) : Nat := n % 2 ^ 64

/-- A value stored in a 32-bit signed word. -/
def i32 (z : Int) : Int := z.bmod (2 ^ 32)

/-- `static_cast<uint32_t>` of a signed value. -/
def toU32 (z : Int) : Nat := (z % 2 ^ 32).toNat

theorem u32_of_lt {n : Nat} (h : n < 2 ^ 32) : u32 n = n := Nat.mod_eq_of_lt h

theorem u64_of_lt {n : Nat} (h : n < 2 ^ 64) : u64 n = n := Nat.mod_eq_of_lt h

theorem u32_lt (n : Nat) : u32 n < 2 ^ 32 := Nat.mod_lt _ (by decide)

theorem i32_of_range {z : Int} (lo : -2 ^ 31 ≤ z) (hi : z < 2 ^ 31) : i32 z = z :=
  Int.bmod_eq_of_le (by omega) (by omega)

theorem i32_range (z : Int) : -2 ^ 31 ≤ i32 z ∧ i32 z < 2 ^ 31 := by
  have lo := Int.le_bmod (x := z) (m := 2 ^ 32) (by decide)
  have hi := Int.bmod_lt (x := z) (m := 2 ^ 32) (by decide)
  simp only [i32]
  omega

theorem toU32_lt (z : Int) : toU32 z < 2 ^ 32 := by
  simp only [toU32]
  omega

theorem toU32_of_range {z : Int} (lo : 0 ≤ z) (hi : z < 2 ^ 32) : toU32 z = z.toNat := by
  simp only [toU32]
  omega

/-- A shifted number and what is below it. -/
theorem shiftLeft_or {a b k : Nat} (h : b < 2 ^ k) : a <<< k ||| b = a * 2 ^ k + b := by
  rw [← Nat.shiftLeft_add_eq_or_of_lt h, Nat.shiftLeft_eq]

/-- The highest bit of a number. -/
theorem and_highest {n k : Nat} (h : n < 2 ^ (k + 1)) : n &&& 2 ^ k = n / 2 ^ k * 2 ^ k := by
  have pos := Nat.two_pow_pos k
  have bit : n / 2 ^ k < 2 := Nat.div_lt_of_lt_mul (by rwa [← pow_succ])
  rw [Nat.and_two_pow, Nat.testBit_eq_decide_div_mod_eq]
  congr 1
  generalize n / 2 ^ k = b at bit
  have either : b = 0 ∨ b = 1 := by omega
  rcases either with rfl | rfl <;> rfl

/-- A word is its two halves. -/
theorem halves_or {r : Nat} (hr : r < 2 ^ 64) :
    u32 (r >>> 32) <<< 32 < 2 ^ 64 ∧ u32 (r >>> 32) <<< 32 ||| u32 r = r := by
  have hi : u32 (r >>> 32) = r / 2 ^ 32 := by
    rw [Nat.shiftRight_eq_div_pow]
    exact u32_of_lt (by omega)
  rw [hi, shiftLeft_or (u32_lt r), Nat.shiftLeft_eq, u32]
  omega

/-! ## Little-endian bytes -/

/-- The `k` low bytes of `n`, least significant first. -/
def leBytes : Nat → Nat → List UInt8
  | 0, _ => []
  | k + 1, n => UInt8.ofNat n :: leBytes k (n / 256)

/-- The value of little-endian bytes. -/
def leVal : List UInt8 → Nat
  | [] => 0
  | b :: bs => b.toNat + 256 * leVal bs

@[simp] theorem leBytes_length (k n : Nat) : (leBytes k n).length = k := by
  induction k generalizing n with
  | zero => rfl
  | succ k ih => simp [leBytes, ih]

theorem leVal_lt (bs : List UInt8) : leVal bs < 256 ^ bs.length := by
  induction bs with
  | nil => simp [leVal]
  | cons b bs ih =>
    have := b.toNat_lt
    simp only [leVal, List.length_cons, Nat.pow_succ]
    omega

theorem leVal_append (a b : List UInt8) : leVal (a ++ b) = leVal a + 256 ^ a.length * leVal b := by
  induction a with
  | nil => simp [leVal]
  | cons x a ih =>
    rw [List.cons_append, leVal, ih, leVal, List.length_cons, Nat.pow_succ']
    ring

/-- Reading back the low bytes of a number gives it modulo their range. -/
theorem leVal_leBytes_mod (k n : Nat) : leVal (leBytes k n) = n % 256 ^ k := by
  induction k generalizing n with
  | zero => simp [leBytes, leVal, Nat.mod_one]
  | succ k ih =>
    rw [leBytes, leVal, ih, Nat.pow_succ', Nat.mod_mul, UInt8.toNat_ofNat']

theorem leVal_leBytes {k n : Nat} (h : n < 256 ^ k) : leVal (leBytes k n) = n := by
  rw [leVal_leBytes_mod, Nat.mod_eq_of_lt h]

/-- A byte string is that of its value. -/
theorem leBytes_leVal (bs : List UInt8) : leBytes bs.length (leVal bs) = bs := by
  induction bs with
  | nil => rfl
  | cons b bs ih =>
    have low : UInt8.ofNat (b.toNat + 256 * leVal bs) = b := by
      apply UInt8.toNat_inj.1
      rw [UInt8.toNat_ofNat', Nat.add_mul_mod_self_left, Nat.mod_eq_of_lt b.toNat_lt]
    have high : (b.toNat + 256 * leVal bs) / 256 = leVal bs := by
      rw [Nat.add_mul_div_left _ _ (by decide), Nat.div_eq_of_lt b.toNat_lt, Nat.zero_add]
    rw [List.length_cons, leVal, leBytes, low, high, ih]

/-- Little-endian bytes in two groups: the low `m`, then the rest. -/
theorem leBytes_add (m k n : Nat) : leBytes (m + k) n = leBytes m n ++ leBytes k (n / 256 ^ m) := by
  induction m generalizing n with
  | zero => simp [leBytes]
  | succ m ih =>
    rw [Nat.succ_add, leBytes, leBytes, ih, Nat.div_div_eq_div_mul, Nat.pow_succ', List.cons_append]

/-- Only the low `k` bytes of the number matter. -/
theorem leBytes_mod (k n : Nat) : leBytes k (n % 256 ^ k) = leBytes k n := by
  induction k generalizing n with
  | zero => rfl
  | succ k ih =>
    have low : UInt8.ofNat (n % 256 ^ (k + 1)) = UInt8.ofNat n := by
      apply UInt8.toNat_inj.1
      rw [UInt8.toNat_ofNat', UInt8.toNat_ofNat', Nat.pow_succ']
      exact Nat.mod_mul_right_mod n 256 (256 ^ k)
    have high : n % 256 ^ (k + 1) / 256 = n / 256 % 256 ^ k := by
      rw [Nat.pow_succ', Nat.mod_mul_right_div_self]
    rw [leBytes, leBytes, low, high, ih]

end Rkvc.Lib
