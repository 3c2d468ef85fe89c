import Mathlib.Algebra.Order.Floor.Ring
import Mathlib.Data.Rat.Floor
import Mathlib.Tactic.Linarith

/-!
# Rounding to the nearest integer, half to even

Exact rationals rounded the way a C library rounds by default: to the integer
that is at most one half away (`rint_near`), the even one of two (`rint_tie`),
and there is no other (`rint_unique`).
-/

namespace Rkvc.Lib
set_option autoImplicit false

/-- The nearest integer, the even one of two. -/
def rint (q : Rat) : Int :=
  let rest := q - ⌊q⌋
  if rest < 1 / 2 then ⌊q⌋
  else if 1 / 2 < rest then ⌊q⌋ + 1
  else if ⌊q⌋ % 2 = 0 then ⌊q⌋ else ⌊q⌋ + 1

/-- It is at most one half away. -/
theorem rint_near (q : Rat) : |q - rint q| ≤ 1 / 2 := by
  have lo := Int.floor_le q
  have hi := Int.lt_floor_add_one q
  rw [abs_le]
  simp only [rint]
  split
  · constructor <;> linarith
  · split
    · push_cast
      constructor <;> linarith
    · split
      · constructor <;> linarith
      · push_cast
        constructor <;> linarith

@[simp] theorem rint_intCast (n : Int) : rint n = n := by
  simp [rint]

@[simp] theorem rint_natCast (n : Nat) : rint n = n := by
  simp [rint]

/-- Of two nearest integers it is the even one. -/
theorem rint_tie {q : Rat} (tie : |q - rint q| = 1 / 2) : rint q % 2 = 0 := by
  have lo := Int.floor_le q
  have hi := Int.lt_floor_add_one q
  simp only [rint] at tie ⊢
  split at tie
  · rename_i low
    rw [abs_of_nonneg (by linarith)] at tie
    linarith
  · split at tie
    · rename_i high
      push_cast at tie
      rw [abs_of_nonpos (by linarith)] at tie
      linarith
    · rename_i low high
      rw [if_neg low, if_neg high]
      split <;> omega

/-- There is no other such integer. -/
theorem rint_unique {q : Rat} {n : Int} (near : |q - n| ≤ 1 / 2) (tie : |q - n| = 1 / 2 → n % 2 = 0) : rint q = n := by
  obtain ⟨below, above⟩ := abs_le.1 near
  by_cases up : (n : Rat) ≤ q
  · have floor : ⌊q⌋ = n := Int.floor_eq_iff.2 ⟨up, by linarith⟩
    simp only [rint, floor]
    split
    · rfl
    · rename_i low
      have half : q - n = 1 / 2 := le_antisymm above (not_lt.1 low)
      have even : n % 2 = 0 := tie (by rw [half, abs_of_pos (by norm_num)])
      rw [if_neg (by rw [half]; exact lt_irrefl _), if_pos even]
  · have floor : ⌊q⌋ = n - 1 := by
      apply Int.floor_eq_iff.2
      push_cast
      constructor <;> linarith
    simp only [rint, floor]
    push_cast
    rw [if_neg (by linarith)]
    split
    · omega
    · rename_i high
      have half : q - n = -(1 / 2) := by linarith
      have even : n % 2 = 0 := tie (by rw [half, abs_neg, abs_of_pos (by norm_num)])
      split <;> omega

theorem rint_neg (q : Rat) : rint (-q) = -rint q := by
  have flip : |-q - ((-rint q : Int) : Rat)| = |q - rint q| := by
    rw [← abs_neg]
    congr 1
    push_cast
    ring
  apply rint_unique
  · rw [flip]
    exact rint_near q
  · intro tie
    have even := rint_tie (flip.symm.trans tie)
    omega
/-- By the whole and the rest. -/
theorem rint_add {n : Int} {t : Rat} (lo : 0 ≤ t) (hi : t < 1) :
    rint (n + t) = if 1 / 2 < t ∨ t = 1 / 2 ∧ n % 2 = 1 then n + 1 else n := by
  have floor : ⌊(n : Rat) + t⌋ = n := by
    rw [Int.floor_intCast_add, Int.floor_eq_zero_iff.2 ⟨lo, hi⟩, add_zero]
  simp only [rint, floor, add_sub_cancel_left]
  by_cases low : t < 1 / 2
  · rw [if_pos low, if_neg]
    rintro (high | ⟨half, -⟩) <;> linarith
  · rw [if_neg low]
    by_cases high : 1 / 2 < t
    · rw [if_pos high, if_pos (Or.inl high)]
    · have half : t = 1 / 2 := le_antisymm (not_lt.1 high) (not_lt.1 low)
      rw [if_neg high]
      split
      · rw [if_neg]
        rintro (more | ⟨-, odd⟩)
        · exact high more
        · omega
      · rw [if_pos (Or.inr ⟨half, by omega⟩)]

end Rkvc.Lib
