import Mathlib.Algebra.Order.Field.Basic
import Mathlib.Algebra.Order.Ring.Abs
import Mathlib.Data.Rat.Cast.Order
import Mathlib.Order.Monotone.Basic
import Mathlib.Tactic.Linarith
import Mathlib.Tactic.NormNum
import Mathlib.Tactic.Positivity
import Mathlib.Tactic.Ring

/-!
# Binary floating point formats

The patterns of a format, read as numbers, are in the order of their values, and so
rounding to a format is a choice among the members of an increasing sequence: the
nearest one, of two the one with the even number (`Nearest`). There is no other
(`Nearest.unique`), and where the sequence has equal steps it is found by rounding to an
integer (`nearest_of_steps`). A format (`Format`) has equal steps from each power of
two to the next one, the ends included (`Format.units_binade`), so that a carry out of
the fraction needs no case of its own.
-/

namespace Rkvc.Lib
set_option autoImplicit false

section Nearest

variable {K : Type*} [Field K] [LinearOrder K] [IsStrictOrderedRing K]

/-- The member of `u 0, .., u top` nearest to `x`, of two the one of even index. -/
def Nearest (u : Nat → K) (top : Nat) (x : K) (m : Nat) : Prop :=
  m ≤ top ∧ ∀ n ≤ top, |x - u m| ≤ |x - u n| ∧ (|x - u m| = |x - u n| → n ≠ m → m % 2 = 0)

/-- `r` is the integer nearest to `y`, of two the even one. -/
structure RoundsTo (y : K) (r : Nat) : Prop where
  near : |y - r| ≤ 1 / 2
  tie : |y - r| = 1 / 2 → r % 2 = 0

variable {u : Nat → K} {top m n : Nat} {x a b : K}

/-- From the middle up the upper end is nearer. -/
theorem nearer_above (lt : a < b) (half : a + b ≤ 2 * x) :
    |x - b| ≤ |x - a| ∧ (|x - b| = |x - a| → a + b = 2 * x) := by
  have right : |x - a| = x - a := abs_of_nonneg (by linarith)
  rcases abs_cases (x - b) with ⟨left, -⟩ | ⟨left, -⟩
  · rw [left, right]
    exact ⟨by linarith, fun tie => by linarith⟩
  · rw [left, right]
    exact ⟨by linarith, fun tie => by linarith⟩

/-- Up to the middle the lower end is nearer. -/
theorem nearer_below (lt : a < b) (half : 2 * x ≤ a + b) :
    |x - a| ≤ |x - b| ∧ (|x - a| = |x - b| → 2 * x = a + b) := by
  have right : |x - b| = -(x - b) := abs_of_nonpos (by linarith)
  rcases abs_cases (x - a) with ⟨left, -⟩ | ⟨left, -⟩
  · rw [left, right]
    exact ⟨by linarith, fun tie => by linarith⟩
  · rw [left, right]
    exact ⟨by linarith, fun tie => by linarith⟩

/-- A member is the nearest one when `x` lies between the middles to its neighbours. -/
theorem nearest_of_middles (mono : StrictMono u) (inside : m ≤ top)
    (below : ∀ k, m = k + 1 → u k + u m ≤ 2 * x ∧ (u k + u m = 2 * x → m % 2 = 0))
    (above : m < top → 2 * x ≤ u m + u (m + 1) ∧ (2 * x = u m + u (m + 1) → m % 2 = 0)) :
    Nearest u top x m := by
  refine ⟨inside, fun n hn => ?_⟩
  rcases Nat.lt_trichotomy n m with lt | rfl | gt
  · obtain ⟨k, rfl⟩ : ∃ k, m = k + 1 := ⟨m - 1, by omega⟩
    obtain ⟨half, even⟩ := below k rfl
    have lower : u n ≤ u k := mono.monotone (by omega)
    obtain ⟨near, tie⟩ := nearer_above (mono lt) (show u n + u (k + 1) ≤ 2 * x by linarith)
    exact ⟨near, fun same _ => even (by linarith [tie same])⟩
  · exact ⟨le_refl _, fun _ other => absurd rfl other⟩
  · obtain ⟨half, even⟩ := above (by omega)
    have upper : u (m + 1) ≤ u n := mono.monotone gt
    obtain ⟨near, tie⟩ := nearer_below (mono gt) (show 2 * x ≤ u m + u n by linarith)
    exact ⟨near, fun same _ => even (by linarith [tie same])⟩

/-- A member is its own nearest. -/
theorem nearest_self (mono : StrictMono u) (inside : m ≤ top) : Nearest u top (u m) m := by
  apply nearest_of_middles mono inside
  · rintro k rfl
    have lt := mono (Nat.lt_succ_self k)
    exact ⟨by linarith, fun tie => by linarith⟩
  · intro _
    have lt := mono (Nat.lt_succ_self m)
    exact ⟨by linarith, fun tie => by linarith⟩

/-- Two nearest members would both be even, with a nearer one between them. -/
theorem Nearest.le (mono : StrictMono u) (hm : Nearest u top x m) (hn : Nearest u top x n) : m ≤ n := by
  by_contra lt
  have gt : n < m := by omega
  have same : |x - u m| = |x - u n| := le_antisymm (hm.2 n hn.1).1 (hn.2 m hm.1).1
  have evenm := (hm.2 n hn.1).2 same (by omega)
  have evenn := (hn.2 m hm.1).2 same.symm (by omega)
  have low := mono (Nat.lt_succ_self n)
  have high := mono (show n + 1 < m by omega)
  have half : u n + u m = 2 * x := by
    by_contra off
    rcases le_total (u n + u m) (2 * x) with le | le
    · exact off ((nearer_above (mono gt) le).2 same)
    · exact off ((nearer_below (mono gt) le).2 same.symm).symm
  have near := (hm.2 (n + 1) (by have := hm.1; omega)).1
  rw [abs_of_nonpos (by linarith)] at near
  rcases abs_cases (x - u (n + 1)) with ⟨between, -⟩ | ⟨between, -⟩
  · linarith
  · linarith

theorem Nearest.unique (mono : StrictMono u) (hm : Nearest u top x m) (hn : Nearest u top x n) : m = n :=
  Nat.le_antisymm (hm.le mono hn) (hn.le mono hm)

/-- **Among equal steps rounding to a member is rounding to an integer.** -/
theorem nearest_of_steps {first count r : Nat} {g y : K} (mono : StrictMono u) (even : first % 2 = 0)
    (fits : first + count ≤ top) (wide : 0 < g) (steps : ∀ i ≤ count, u (first + i) = u first + i * g)
    (lo : 0 ≤ y) (hi : y ≤ count) (hr : r ≤ count) (whole : RoundsTo y r) :
    Nearest u top (u first + y * g) (first + r) := by
  obtain ⟨near, tie⟩ := whole
  obtain ⟨under, past⟩ := abs_le.1 near
  apply nearest_of_middles mono (by omega)
  · intro k hk
    rcases Nat.eq_zero_or_pos r with rfl | pos
    · have lt : u k < u first := mono (by omega)
      have left : 0 ≤ y * g := mul_nonneg lo wide.le
      rw [Nat.add_zero]
      exact ⟨by linarith, fun _ => even⟩
    · obtain ⟨s, rfl⟩ : ∃ s, r = s + 1 := ⟨r - 1, by omega⟩
      have hks : k = first + s := by omega
      push_cast at under past tie
      rw [hks, steps s (by omega), steps (s + 1) hr]
      push_cast
      have half : 0 ≤ (2 * y - (2 * s + 1)) * g := mul_nonneg (by linarith) wide.le
      refine ⟨by linarith, fun middle => ?_⟩
      have zero : (2 * y - (2 * s + 1)) * g = 0 := by linarith
      have exact : 2 * y - (2 * s + 1) = 0 := (mul_eq_zero.1 zero).resolve_right wide.ne'
      have parity := tie (by rw [show y - (s + 1) = -(1 / 2) by linarith, abs_neg, abs_of_pos (by norm_num)])
      omega
  · intro inside
    rcases Nat.lt_or_ge r count with lt | ge
    · rw [Nat.add_assoc, steps r hr, steps (r + 1) lt]
      push_cast
      have half : 0 ≤ (2 * r + 1 - 2 * y) * g := mul_nonneg (by linarith) wide.le
      refine ⟨by linarith, fun middle => ?_⟩
      have zero : (2 * r + 1 - 2 * y) * g = 0 := by linarith
      have exact : 2 * r + 1 - 2 * y = 0 := (mul_eq_zero.1 zero).resolve_right wide.ne'
      have parity := tie (by rw [show y - r = 1 / 2 by linarith, abs_of_pos (by norm_num)])
      omega
    · obtain rfl : r = count := by omega
      have last := steps r hr
      have lt := mono (Nat.lt_succ_self (first + r))
      have short : 0 ≤ (r - y) * g := mul_nonneg (by linarith) wide.le
      rw [Nat.succ_eq_add_one] at lt
      exact ⟨by linarith, fun middle => by linarith⟩

/-- From the last member on it is the nearest. -/
theorem nearest_top (mono : StrictMono u) (le : u top ≤ x) : Nearest u top x top := by
  apply nearest_of_middles mono (le_refl _)
  · rintro k rfl
    have lt := mono (Nat.lt_succ_self k)
    exact ⟨by linarith, fun tie => by linarith⟩
  · exact fun lt => absurd lt (lt_irrefl _)

/-- The last member is taken from the middle below it on. -/
theorem Nearest.top_iff (mono : StrictMono u) (even : (top + 1) % 2 = 0) (hm : Nearest u (top + 1) x m) :
    m = top + 1 ↔ u top + u (top + 1) ≤ 2 * x := by
  have lt := mono (Nat.lt_succ_self top)
  constructor
  · rintro rfl
    have near := (hm.2 top (Nat.le_succ top)).1
    by_contra short
    have closer := nearer_below lt (show 2 * x ≤ u top + u (top + 1) by linarith)
    exact short (closer.2 (le_antisymm closer.1 near)).ge
  · intro half
    have last : Nearest u (top + 1) x (top + 1) := by
      apply nearest_of_middles mono (le_refl _)
      · intro k hk
        obtain rfl : top = k := by omega
        exact ⟨half, fun _ => even⟩
      · exact fun lt => absurd lt (lt_irrefl _)
    exact hm.unique mono last

end Nearest

/-- A binary interchange format: a sign bit, `exp` bits of exponent and `mant` bits of
fraction. -/
structure Format where
  exp : Nat
  mant : Nat
  exp_two : 2 ≤ exp
  mant_pos : 0 < mant

namespace Format

variable (f : Format)

/-- The exponent field of one. -/
def bias : Nat := 2 ^ (f.exp - 1) - 1

/-- The least positive value is `2 ^ -quantum`. -/
def quantum : Nat := f.bias + f.mant - 1

/-- The pattern of infinity. -/
def inf : Nat := (2 ^ f.exp - 1) * 2 ^ f.mant

/-- A pattern without its sign. -/
def magnitude (b : Nat) : Nat := b % 2 ^ (f.exp + f.mant)

def Negative (b : Nat) : Prop := b / 2 ^ (f.exp + f.mant) % 2 = 1

instance (b : Nat) : Decidable (f.Negative b) := inferInstanceAs (Decidable (_ = _))

def IsNaN (b : Nat) : Prop := f.inf < f.magnitude b

def IsInf (b : Nat) : Prop := f.magnitude b = f.inf

def IsFinite (b : Nat) : Prop := f.magnitude b < f.inf

instance (b : Nat) : Decidable (f.IsNaN b) := inferInstanceAs (Decidable (_ < _))

instance (b : Nat) : Decidable (f.IsInf b) := inferInstanceAs (Decidable (_ = _))

instance (b : Nat) : Decidable (f.IsFinite b) := inferInstanceAs (Decidable (_ < _))

/-- The value of a magnitude, in multiples of the least positive one. -/
def units (m : Nat) : Nat :=
  if m / 2 ^ f.mant = 0 then m % 2 ^ f.mant else (2 ^ f.mant + m % 2 ^ f.mant) * 2 ^ (m / 2 ^ f.mant - 1)

/-- The value of a magnitude; infinity has that of the power of two after the largest
finite ones. -/
def value (m : Nat) : Rat := f.units m / 2 ^ f.quantum

/-- The value of a pattern. -/
def toRat (b : Nat) : Rat := if f.Negative b then -f.value (f.magnitude b) else f.value (f.magnitude b)

/-- `b` is the pattern nearest to `x`, of two the one of even fraction. -/
def Rounds (x : Rat) (b : Nat) : Prop :=
  ¬f.IsNaN b ∧ ∀ c, ¬f.IsNaN c →
    |x - f.toRat b| ≤ |x - f.toRat c| ∧
      (|x - f.toRat b| = |x - f.toRat c| → f.toRat c ≠ f.toRat b → b % 2 = 0)

variable {f}

theorem value_nonneg (m : Nat) : 0 ≤ f.value m := by
  rw [value]
  positivity

theorem abs_toRat (b : Nat) : |f.toRat b| = f.value (f.magnitude b) := by
  have pos := value_nonneg (f := f) (f.magnitude b)
  rw [toRat]
  split
  · rw [abs_neg, abs_of_nonneg pos]
  · exact abs_of_nonneg pos

/-- Below the first power of two the units count. -/
theorem units_subnormal {i : Nat} (hi : i ≤ 2 ^ f.mant) : f.units i = i := by
  have pos := Nat.two_pow_pos f.mant
  rcases Nat.lt_or_eq_of_le hi with lt | rfl
  · rw [units, Nat.div_eq_of_lt lt, if_pos rfl, Nat.mod_eq_of_lt lt]
  · rw [units, Nat.div_self pos, if_neg (by decide), Nat.mod_self]
    omega

/-- **From a power of two to the next one the steps are equal**, at both ends too. -/
theorem units_binade {e i : Nat} (he : 0 < e) (hi : i ≤ 2 ^ f.mant) :
    f.units (e * 2 ^ f.mant + i) = (2 ^ f.mant + i) * 2 ^ (e - 1) := by
  have pos := Nat.two_pow_pos f.mant
  rcases Nat.lt_or_eq_of_le hi with lt | rfl
  · have field : (e * 2 ^ f.mant + i) / 2 ^ f.mant = e := by
      rw [Nat.add_comm, Nat.add_mul_div_right _ _ pos, Nat.div_eq_of_lt lt, Nat.zero_add]
    rw [units, field, if_neg (by omega), Nat.mul_add_mod_of_lt lt]
  · have next : e * 2 ^ f.mant + 2 ^ f.mant = (e + 1) * 2 ^ f.mant := by ring
    rw [next, units, Nat.mul_div_cancel _ pos, if_neg (by omega), Nat.mul_mod_left, Nat.add_sub_cancel]
    obtain ⟨k, rfl⟩ : ∃ k, e = k + 1 := ⟨e - 1, by omega⟩
    rw [Nat.add_sub_cancel, pow_succ]
    ring

/-- The patterns are in the order of their values. -/
theorem units_strictMono : StrictMono f.units := by
  apply strictMono_nat_of_lt_succ
  intro m
  have parts := Nat.div_add_mod' m (2 ^ f.mant)
  have lt := Nat.mod_lt m (Nat.two_pow_pos f.mant)
  generalize m / 2 ^ f.mant = e at parts
  generalize m % 2 ^ f.mant = i at parts lt
  rw [← parts, Nat.add_assoc]
  rcases Nat.eq_zero_or_pos e with rfl | pos
  · rw [Nat.zero_mul, Nat.zero_add, Nat.zero_add, units_subnormal lt.le, units_subnormal lt]
    exact Nat.lt_succ_self i
  · rw [units_binade pos lt.le, units_binade pos lt]
    exact Nat.mul_lt_mul_of_pos_right (by omega) (Nat.two_pow_pos _)

theorem value_strictMono : StrictMono f.value := by
  intro m n lt
  have scale : (0 : Rat) < 2 ^ f.quantum := by positivity
  exact div_lt_div_of_pos_right (by exact_mod_cast units_strictMono lt) scale

@[simp] theorem value_zero : f.value 0 = 0 := by
  rw [value, units_subnormal (Nat.zero_le _), Nat.cast_zero, zero_div]

/-- Rounding between two powers of two, and below the first. -/
theorem nearest_subnormal {r : Nat} {y : Rat} (hi : y ≤ 2 ^ f.mant) (lo : 0 ≤ y) (hr : r ≤ 2 ^ f.mant)
    (whole : RoundsTo y r) : Nearest f.value f.inf (y / 2 ^ f.quantum) r := by
  have big : 1 ≤ 2 ^ f.exp - 1 := by
    have := Nat.pow_le_pow_right (show 0 < 2 by decide) f.exp_two
    omega
  have fits : 0 + 2 ^ f.mant ≤ f.inf := by
    rw [Nat.zero_add, inf]
    exact Nat.le_mul_of_pos_left _ big
  have steps : ∀ i ≤ 2 ^ f.mant, f.value (0 + i) = f.value 0 + i * (1 / 2 ^ f.quantum) := by
    intro i hi
    rw [Nat.zero_add, value_zero, value, units_subnormal hi]
    ring
  have found := nearest_of_steps value_strictMono rfl fits (by positivity) steps lo (by exact_mod_cast hi) hr whole
  rw [value_zero, zero_add, Nat.zero_add, mul_one_div] at found
  exact found

theorem nearest_binade {e r : Nat} {y : Rat} (he : 0 < e) (below : e + 1 < 2 ^ f.exp) (hi : y ≤ 2 ^ f.mant)
    (lo : 0 ≤ y) (hr : r ≤ 2 ^ f.mant) (whole : RoundsTo y r) :
    Nearest f.value f.inf ((2 ^ f.mant + y) * 2 ^ (e - 1) / 2 ^ f.quantum) (e * 2 ^ f.mant + r) := by
  have even : e * 2 ^ f.mant % 2 = 0 := by
    obtain ⟨k, hk⟩ : ∃ k, f.mant = k + 1 := ⟨f.mant - 1, by have := f.mant_pos; omega⟩
    rw [hk, pow_succ, ← Nat.mul_assoc]
    exact Nat.mul_mod_left _ 2
  have fits : e * 2 ^ f.mant + 2 ^ f.mant ≤ f.inf := by
    rw [inf, ← Nat.succ_mul]
    exact Nat.mul_le_mul_right _ (by omega)
  have first : f.value (e * 2 ^ f.mant) = 2 ^ f.mant * (2 ^ (e - 1) / 2 ^ f.quantum) := by
    have units := @units_binade f e 0 he (Nat.zero_le _)
    rw [Nat.add_zero, Nat.add_zero] at units
    rw [value, units]
    push_cast
    ring
  have steps : ∀ i ≤ 2 ^ f.mant,
      f.value (e * 2 ^ f.mant + i) = f.value (e * 2 ^ f.mant) + i * (2 ^ (e - 1) / 2 ^ f.quantum) := by
    intro i hi
    rw [first, value, units_binade he hi]
    push_cast
    ring
  have found := nearest_of_steps value_strictMono even fits (by positivity) steps lo (by exact_mod_cast hi) hr whole
  rw [first, ← add_mul, ← mul_div_assoc] at found
  exact found

/-- The parity of a pattern is that of its magnitude. -/
theorem magnitude_parity (b : Nat) : f.magnitude b % 2 = b % 2 := by
  have even : 2 ∣ 2 ^ (f.exp + f.mant) := dvd_pow_self 2 (by have := f.mant_pos; omega)
  exact Nat.mod_mod_of_dvd b even

/-- The distance to a pattern of the same sign. -/
theorem distance_same {v : Rat} {b c : Nat} (sign : f.Negative c ↔ f.Negative b) :
    |(if f.Negative b then -v else v) - f.toRat c| = |v - f.value (f.magnitude c)| := by
  simp only [toRat, sign]
  split
  · rw [neg_sub_neg, abs_sub_comm]
  · rfl

theorem distance_other {v : Rat} {b c : Nat} (pos : 0 ≤ v) (sign : ¬(f.Negative c ↔ f.Negative b)) :
    |(if f.Negative b then -v else v) - f.toRat c| = v + f.value (f.magnitude c) := by
  have total : 0 ≤ v + f.value (f.magnitude c) := add_nonneg pos (value_nonneg _)
  rw [toRat]
  by_cases negative : f.Negative b
  · rw [if_pos negative, if_neg (fun other => sign (iff_of_true other negative)), ← neg_add', abs_neg,
      abs_of_nonneg total]
  · rw [if_neg negative, if_pos (by by_contra other; exact sign (iff_of_false other negative)), sub_neg_eq_add,
      abs_of_nonneg total]

/-- **Magnitudes are rounded apart from the sign.** -/
theorem rounds_of_nearest {v : Rat} {b : Nat} (pos : 0 ≤ v) (near : Nearest f.value f.inf v (f.magnitude b)) :
    f.Rounds (if f.Negative b then -v else v) b := by
  refine ⟨not_lt.2 near.1, fun c number => ?_⟩
  rw [distance_same Iff.rfl, ← magnitude_parity (f := f) b]
  by_cases sign : f.Negative c ↔ f.Negative b
  · obtain ⟨le, tie⟩ := near.2 _ (not_lt.1 number)
    rw [distance_same sign]
    refine ⟨le, fun same other => tie same fun equal => other ?_⟩
    rw [toRat, toRat, equal]
    simp only [sign]
  · -- A pattern of the other sign is no nearer than zero.
    obtain ⟨le, tie⟩ := near.2 0 (Nat.zero_le _)
    have wide := value_nonneg (f := f) (f.magnitude c)
    rw [value_zero, sub_zero, abs_of_nonneg pos] at le tie
    rw [distance_other pos sign]
    refine ⟨by linarith, fun same _ => ?_⟩
    rcases Nat.eq_zero_or_pos (f.magnitude b) with zero | some
    · rw [zero]
    · exact tie (by linarith) some.ne

end Format

end Rkvc.Lib
