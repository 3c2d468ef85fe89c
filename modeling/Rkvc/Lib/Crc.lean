import Mathlib.Data.List.Basic

/-!
# Cyclic redundancy checks, a bit or a byte at a time

A reflected CRC of 32 bits divides by a polynomial bit by bit. The division is linear in
exclusive or, so the eight steps of a byte are those of its low octet, which a table holds,
and a move of the rest by eight places (`byteStep_table`).
-/

namespace Rkvc.Lib.Crc
set_option autoImplicit false

variable (poly : BitVec 32)

/-- One bit of the division. -/
def bitStep (r : BitVec 32) : BitVec 32 := if r.getLsbD 0 then (r >>> 1) ^^^ poly else r >>> 1

def bitSteps : Nat → BitVec 32 → BitVec 32
  | 0, r => r
  | n + 1, r => bitSteps n (bitStep poly r)

/-- One byte, bit by bit. -/
def byteStep (r : BitVec 32) (b : BitVec 8) : BitVec 32 := bitSteps poly 8 (r ^^^ b.setWidth 32)

/-- What a table holds for an octet. -/
def entry (i : BitVec 8) : BitVec 32 := bitSteps poly 8 (i.setWidth 32)

theorem bitStep_xor (a b : BitVec 32) : bitStep poly (a ^^^ b) = bitStep poly a ^^^ bitStep poly b := by
  simp only [bitStep, BitVec.getLsbD_xor, BitVec.ushiftRight_xor_distrib]
  cases a.getLsbD 0 <;> cases b.getLsbD 0
  · rfl
  · simp only [Bool.false_xor, if_true, Bool.false_eq_true, if_false]
    rw [BitVec.xor_assoc]
  · simp only [Bool.true_xor, Bool.not_false, if_true, Bool.false_eq_true, if_false]
    rw [BitVec.xor_assoc, BitVec.xor_assoc, BitVec.xor_comm poly]
  · simp only [Bool.true_xor, Bool.not_true, if_true, Bool.false_eq_true, if_false]
    rw [BitVec.xor_assoc, ← BitVec.xor_assoc poly, BitVec.xor_comm poly, BitVec.xor_assoc, BitVec.xor_self,
      BitVec.xor_zero]

theorem bitSteps_xor (n : Nat) (a b : BitVec 32) :
    bitSteps poly n (a ^^^ b) = bitSteps poly n a ^^^ bitSteps poly n b := by
  induction n generalizing a b with
  | zero => rfl
  | succ n ih => rw [bitSteps, bitStep_xor, ih, bitSteps, bitSteps]

/-- As long as the bits that leave are clear, a step only moves. -/
theorem bitSteps_clear {n : Nat} {r : BitVec 32} (clear : ∀ i < n, r.getLsbD i = false) :
    bitSteps poly n r = r >>> n := by
  induction n generalizing r with
  | zero => exact (BitVec.ushiftRight_zero r).symm
  | succ n ih =>
    have first : bitStep poly r = r >>> 1 := by
      rw [bitStep, clear 0 (Nat.succ_pos n)]
      exact if_neg Bool.false_ne_true
    have rest : ∀ i < n, (r >>> 1).getLsbD i = false := by
      intro i below
      rw [BitVec.getLsbD_ushiftRight]
      apply clear
      omega
    rw [bitSteps, first, ih rest, ← BitVec.shiftRight_add, Nat.add_comm]

theorem mask_getLsbD {i : Nat} (below : i < 32) : (0xffffff00#32).getLsbD i = decide (8 ≤ i) := by
  have each : ∀ i : Fin 32, (0xffffff00#32).getLsbD i = decide (8 ≤ i.val) := by decide
  exact each ⟨i, below⟩

/-- A word is its low octet and the rest. -/
theorem octet_xor (r : BitVec 32) : r = (r.setWidth 8).setWidth 32 ^^^ (r &&& 0xffffff00#32) := by
  apply BitVec.eq_of_getLsbD_eq
  intro i below
  rw [BitVec.getLsbD_xor, BitVec.getLsbD_and, mask_getLsbD below, BitVec.getLsbD_setWidth, BitVec.getLsbD_setWidth]
  by_cases low : i < 8
  · simp [below, low, Nat.not_le.mpr low]
  · simp [low, Nat.not_lt.mp low]

theorem rest_clear (r : BitVec 32) : ∀ i < 8, (r &&& 0xffffff00#32).getLsbD i = false := by
  intro i low
  rw [BitVec.getLsbD_and, mask_getLsbD (by omega), decide_eq_false (by omega), Bool.and_false]

theorem rest_shift (r : BitVec 32) : (r &&& 0xffffff00#32) >>> 8 = r >>> 8 := by
  conv => rhs; rw [octet_xor r, BitVec.ushiftRight_xor_distrib]
  have none : (r.setWidth 8).setWidth 32 >>> 8 = 0#32 := by
    apply BitVec.eq_of_toNat_eq
    have := (r.setWidth 8).isLt
    simp only [BitVec.toNat_ushiftRight, BitVec.toNat_setWidth, BitVec.toNat_ofNat] at this ⊢
    omega
  rw [none, BitVec.zero_xor]

/-- **A byte at a time**: the table's word for the low octet, and the rest moved by eight places. -/
theorem byteStep_table (r : BitVec 32) (b : BitVec 8) :
    byteStep poly r b = entry poly ((r ^^^ b.setWidth 32).setWidth 8) ^^^ (r >>> 8) := by
  have low : (b.setWidth 32 : BitVec 32) >>> 8 = 0#32 := by
    apply BitVec.eq_of_toNat_eq
    have := b.isLt
    simp only [BitVec.toNat_ushiftRight, BitVec.toNat_setWidth, BitVec.toNat_ofNat] at this ⊢
    omega
  calc byteStep poly r b
      = bitSteps poly 8 (((r ^^^ b.setWidth 32).setWidth 8).setWidth 32) ^^^
          bitSteps poly 8 ((r ^^^ b.setWidth 32) &&& 0xffffff00#32) := by
        rw [← bitSteps_xor, ← octet_xor]
        rfl
    _ = entry poly ((r ^^^ b.setWidth 32).setWidth 8) ^^^ ((r ^^^ b.setWidth 32) >>> 8) := by
        rw [bitSteps_clear poly (rest_clear _), rest_shift]
        rfl
    _ = entry poly ((r ^^^ b.setWidth 32).setWidth 8) ^^^ (r >>> 8) := by
        rw [BitVec.ushiftRight_xor_distrib, low, BitVec.xor_zero]

end Rkvc.Lib.Crc
