import Mathlib.Data.Nat.Prime.Basic
import Mathlib.Data.List.Basic
import Mathlib.Tactic.Ring
import Rkvc.Lib.BigEndian

/-!
# The Secure Hash Standard: SHA-256

The digest of a bit string after FIPS 180-4, from its text: words are 32 bits,
strings of bits have their most significant bit first, and the constants are the
first bits of the fractional parts of roots of primes. The last section relates
bit strings to byte strings.
-/

namespace Rkvc.Lib.Fips180
set_option autoImplicit false

abbrev Word := BitVec 32

abbrev Bits := List Bool

/-! ## Functions -/

def rotr (n : Nat) (x : Word) : Word := x.rotateRight n

def shr (n : Nat) (x : Word) : Word := x >>> n

def choose (x y z : Word) : Word := (x &&& y) ^^^ (~~~x &&& z)

def majority (x y z : Word) : Word := (x &&& y) ^^^ (x &&& z) ^^^ (y &&& z)

def bigSigma0 (x : Word) : Word := rotr 2 x ^^^ rotr 13 x ^^^ rotr 22 x

def bigSigma1 (x : Word) : Word := rotr 6 x ^^^ rotr 11 x ^^^ rotr 25 x

def sigma0 (x : Word) : Word := rotr 7 x ^^^ rotr 18 x ^^^ shr 3 x

def sigma1 (x : Word) : Word := rotr 17 x ^^^ rotr 19 x ^^^ shr 10 x

/-! ## Constants -/

/-- The bits of a root below `2 ^ bits`, the highest first. -/
def rootLoop (k n : Nat) : Nat → Nat → Nat
  | 0, r => r
  | bits + 1, r => rootLoop k n bits (if (r + 2 ^ bits) ^ k ≤ n then r + 2 ^ bits else r)

/-- The `k`-th root, rounded down. -/
def root (k n : Nat) : Nat := rootLoop k n 40 0

theorem rootLoop_spec {k n : Nat} : ∀ (bits r : Nat), r ^ k ≤ n → n < (r + 2 ^ bits) ^ k →
    rootLoop k n bits r ^ k ≤ n ∧ n < (rootLoop k n bits r + 1) ^ k
  | 0, r, lo, hi => ⟨lo, by simpa [rootLoop] using hi⟩
  | bits + 1, r, lo, hi => by
    have double : r + 2 ^ (bits + 1) = r + 2 ^ bits + 2 ^ bits := by ring
    simp only [rootLoop]
    split
    · rename_i le
      exact rootLoop_spec bits _ le (by rwa [← double])
    · rename_i above
      exact rootLoop_spec bits r lo (Nat.lt_of_not_le above)

theorem root_spec {k n : Nat} (positive : 0 < k) (small : n < (2 ^ 40) ^ k) :
    root k n ^ k ≤ n ∧ n < (root k n + 1) ^ k := by
  apply rootLoop_spec
  · rw [Nat.zero_pow positive]
    exact Nat.zero_le n
  · rwa [Nat.zero_add]

/-- The first sixty-four primes. -/
def primes : List Nat := (List.range 312).filter fun n => 2 ≤ n && (List.range n).all fun m => m < 2 || n % m ≠ 0

theorem mem_primes {p : Nat} : p ∈ primes ↔ p < 312 ∧ p.Prime := by
  simp only [primes, List.mem_filter, List.mem_range, Bool.and_eq_true, decide_eq_true_eq, List.all_eq_true,
    Bool.or_eq_true, Nat.prime_def_lt', ne_eq, Nat.dvd_iff_mod_eq_zero, and_congr_right_iff]
  intro _ _
  constructor
  · intro each m two below
    exact (each m below).resolve_left (by omega)
  · intro each m below
    by_cases two : 2 ≤ m
    · exact Or.inr (each m two below)
    · exact Or.inl (by omega)

/-- The first 32 bits of the fractional part of the `k`-th root of `p`. -/
def fraction (k p : Nat) : Word := BitVec.ofNat 32 (root k (p * 2 ^ (32 * k)))

def roundConstants : List Word := primes.map (fraction 3)

def initialHash : List Word := (primes.take 8).map (fraction 2)

/-! ## Preprocessing -/

/-- The `n` low bits of a number. -/
def natBits (n l : Nat) : Bits := (List.range n).map fun i => l.testBit (n - 1 - i)

/-- The number of a bit string. -/
def bitsNat (bits : Bits) : Nat := bits.foldl (fun n b => 2 * n + b.toNat) 0

/-- The zero bits between the one behind a message of `l` bits and its length. -/
def zeros (l : Nat) : Nat := (447 + 512 - l % 512) % 512

/-- It is the least solution of the standard's congruence. -/
theorem zeros_spec (l : Nat) : (l + 1 + zeros l) % 512 = 448 ∧ ∀ k, (l + 1 + k) % 512 = 448 → zeros l ≤ k := by
  constructor
  · rw [zeros]
    omega
  · intro k solves
    rw [zeros]
    omega

def pad (message : Bits) : Bits :=
  message ++ true :: List.replicate (zeros message.length) false ++ natBits 64 message.length

/-- Word `t` of a bit string. -/
def word (bits : Bits) (t : Nat) : Word := BitVec.ofNat 32 (bitsNat ((bits.drop (32 * t)).take 32))

/-! ## Hash computation -/

/-- The words of a hash value, and the working variables. -/
structure State where
  a : Word
  b : Word
  c : Word
  d : Word
  e : Word
  f : Word
  g : Word
  h : Word
  deriving DecidableEq

def State.ofList (words : List Word) : State :=
  ⟨words.getD 0 0, words.getD 1 0, words.getD 2 0, words.getD 3 0, words.getD 4 0, words.getD 5 0, words.getD 6 0,
    words.getD 7 0⟩

def State.toList (s : State) : List Word := [s.a, s.b, s.c, s.d, s.e, s.f, s.g, s.h]

def State.add (s t : State) : State :=
  ⟨s.a + t.a, s.b + t.b, s.c + t.c, s.d + t.d, s.e + t.e, s.f + t.f, s.g + t.g, s.h + t.h⟩

/-- The message schedule of a block. -/
def schedule (block : Nat → Word) (t : Nat) : Word :=
  if t < 16 then block t
  else sigma1 (schedule block (t - 2)) + schedule block (t - 7) + sigma0 (schedule block (t - 15)) +
    schedule block (t - 16)

/-- Round `t`. -/
def round (w : Nat → Word) (s : State) (t : Nat) : State :=
  let t1 := s.h + bigSigma1 s.e + choose s.e s.f s.g + roundConstants.getD t 0 + w t
  let t2 := bigSigma0 s.a + majority s.a s.b s.c
  { a := t1 + t2, b := s.a, c := s.b, d := s.c, e := s.d + t1, f := s.e, g := s.f, h := s.g }

/-- The next hash value, from a block. -/
def compress (hash : State) (block : Nat → Word) : State :=
  State.add ((List.range 64).foldl (round (schedule block)) hash) hash

/-- The hash value of a padded message after its first `n` blocks. -/
def hashBlocks (padded : Bits) (n : Nat) : State :=
  (List.range n).foldl (fun hash i => compress hash (word (padded.drop (512 * i)))) (State.ofList initialHash)

/-- **The message digest.** -/
def sha256 (message : Bits) : Bits :=
  (hashBlocks (pad message) ((pad message).length / 512)).toList.flatMap fun w => natBits 32 w.toNat

/-! ## Bits of bytes -/

theorem natBits_length (n l : Nat) : (natBits n l).length = n := by
  simp [natBits]

/-- A number's bits, the high ones first. -/
theorem natBits_add (m n l : Nat) : natBits (m + n) l = natBits m (l >>> n) ++ natBits n l := by
  simp only [natBits, List.range_add, List.map_append, List.map_map]
  congr 1
  · apply List.map_congr_left
    intro i mem
    rw [List.mem_range] at mem
    rw [Nat.testBit_shiftRight]
    congr 1
    omega
  · apply List.map_congr_left
    intro i mem
    rw [List.mem_range] at mem
    rw [Function.comp_apply]
    congr 1
    omega

theorem foldl_bits (bits : Bits) (n : Nat) :
    bits.foldl (fun n b => 2 * n + b.toNat) n = n * 2 ^ bits.length + bitsNat bits := by
  induction bits generalizing n with
  | nil => simp [bitsNat]
  | cons b bits ih =>
    rw [bitsNat, List.foldl_cons, List.foldl_cons, ih, ih, List.length_cons]
    ring

theorem bitsNat_append (xs ys : Bits) : bitsNat (xs ++ ys) = bitsNat xs * 2 ^ ys.length + bitsNat ys := by
  rw [bitsNat, List.foldl_append, foldl_bits]
  rfl

/-- The bits of a byte string. -/
def bitsOf (bytes : List UInt8) : Bits := bytes.flatMap fun b => natBits 8 b.toNat

@[simp] theorem bitsOf_nil : bitsOf [] = [] := rfl

theorem bitsOf_cons (b : UInt8) (bytes : List UInt8) : bitsOf (b :: bytes) = natBits 8 b.toNat ++ bitsOf bytes := rfl

theorem bitsOf_append (xs ys : List UInt8) : bitsOf (xs ++ ys) = bitsOf xs ++ bitsOf ys := by
  rw [bitsOf, List.flatMap_append]
  rfl

@[simp] theorem bitsOf_length (bytes : List UInt8) : (bitsOf bytes).length = 8 * bytes.length := by
  induction bytes with
  | nil => rfl
  | cons b bytes ih =>
    rw [bitsOf_cons, List.length_append, natBits_length, ih, List.length_cons]
    omega

theorem bitsOf_take (bytes : List UInt8) (n : Nat) : (bitsOf bytes).take (8 * n) = bitsOf (bytes.take n) := by
  induction n generalizing bytes with
  | zero => simp
  | succ n ih =>
    cases bytes with
    | nil => simp
    | cons b bytes =>
      rw [bitsOf_cons, List.take_succ_cons, bitsOf_cons, ← ih, List.take_append, natBits_length,
        List.take_of_length_le (by rw [natBits_length]; omega)]
      congr 2

theorem bitsOf_drop (bytes : List UInt8) (n : Nat) : (bitsOf bytes).drop (8 * n) = bitsOf (bytes.drop n) := by
  induction n generalizing bytes with
  | zero => simp
  | succ n ih =>
    cases bytes with
    | nil => simp
    | cons b bytes =>
      rw [bitsOf_cons, List.drop_succ_cons, ← ih, List.drop_append, natBits_length,
        List.drop_of_length_le (by rw [natBits_length]; omega), List.nil_append]
      congr 1

theorem bitsNat_byte (b : UInt8) : bitsNat (natBits 8 b.toNat) = b.toNat := by
  have each : ∀ n < 256, bitsNat (natBits 8 n) = n := by decide +kernel
  exact each b.toNat b.toNat_lt

/-- The number of a byte string is big-endian. -/
theorem bitsNat_bitsOf (bytes : List UInt8) : bitsNat (bitsOf bytes) = beVal bytes := by
  induction bytes with
  | nil => rfl
  | cons b bytes ih =>
    rw [bitsOf_cons, bitsNat_append, bitsNat_byte, bitsOf_length, ih, beVal, Nat.pow_mul]

/-- The bits of big-endian bytes. -/
theorem bitsOf_beBytes (k n : Nat) : bitsOf (beBytes k n) = natBits (8 * k) n := by
  induction k with
  | zero => rfl
  | succ k ih =>
    rw [beBytes, bitsOf_cons, ih, Nat.mul_succ, Nat.add_comm (8 * k), natBits_add]
    congr 1
    apply List.map_congr_left
    intro i mem
    rw [List.mem_range] at mem
    rw [UInt8.toNat_ofNat', Nat.shiftRight_eq_div_pow, Nat.pow_mul, Nat.testBit_mod_two_pow]
    simp
    omega

/-- The standard's word of a block of bytes. -/
theorem word_bitsOf (bytes : List UInt8) (t : Nat) :
    word (bitsOf bytes) t = BitVec.ofNat 32 (beVal ((bytes.drop (4 * t)).take 4)) := by
  have four := bitsOf_take (bytes.drop (4 * t)) 4
  rw [word, show 32 * t = 8 * (4 * t) by omega, bitsOf_drop, four, bitsNat_bitsOf]

/-- A message of whole bytes is padded with whole bytes. -/
theorem pad_bitsOf {bytes : List UInt8} {k : Nat} (zero : zeros (8 * bytes.length) = 8 * k + 7) :
    pad (bitsOf bytes) = bitsOf (bytes ++ 0x80 :: List.replicate k 0 ++ beBytes 8 (8 * bytes.length)) := by
  have one : natBits 8 (0x80 : UInt8).toNat = true :: List.replicate 7 false := by decide
  have blank : ∀ n, bitsOf (List.replicate n 0) = List.replicate (8 * n) false := by
    intro n
    induction n with
    | zero => rfl
    | succ n ih =>
      rw [List.replicate_succ, bitsOf_cons, ih, Nat.mul_succ, Nat.add_comm, List.replicate_add]
      rfl
  rw [pad, bitsOf_length, zero, bitsOf_append, bitsOf_append, bitsOf_beBytes, bitsOf_cons, one, blank,
    Nat.add_comm (8 * k), List.replicate_add]
  rfl

end Rkvc.Lib.Fips180
