import Mathlib.Tactic.Ring

/-!
# Big-endian bytes and bit fields

A bit writer fills bytes from the most significant bit on. What it has written
is a number (`Holds`): putting an `n`-bit field multiplies it by `2 ^ n` and adds
the field, and whole bytes are the number's big-endian bytes.
-/

namespace Rkvc.Lib
set_option autoImplicit false

/-- The `k` low bytes of `n`, most significant first. -/
def beBytes : Nat → Nat → List UInt8
  | 0, _ => []
  | k + 1, n => UInt8.ofNat (n / 256 ^ k) :: beBytes k n

/-- The value of big-endian bytes. -/
def beVal : List UInt8 → Nat
  | [] => 0
  | b :: bs => b.toNat * 256 ^ bs.length + beVal bs

@[simp] theorem beBytes_length (k n : Nat) : (beBytes k n).length = k := by
  induction k with
  | zero => rfl
  | succ k ih => simp [beBytes, ih]

theorem beVal_lt (bs : List UInt8) : beVal bs < 256 ^ bs.length := by
  induction bs with
  | nil => simp [beVal]
  | cons b bs ih =>
    have byte := b.toNat_lt
    calc beVal (b :: bs) < b.toNat * 256 ^ bs.length + 256 ^ bs.length := Nat.add_lt_add_left ih _
      _ = (b.toNat + 1) * 256 ^ bs.length := by ring
      _ ≤ 256 * 256 ^ bs.length := Nat.mul_le_mul_right _ (by omega)
      _ = 256 ^ (b :: bs).length := by rw [List.length_cons]; ring

theorem beVal_concat (bs : List UInt8) (b : UInt8) : beVal (bs ++ [b]) = beVal bs * 256 + b.toNat := by
  induction bs with
  | nil => simp [beVal]
  | cons c bs ih =>
    simp only [List.cons_append, beVal, ih, List.length_append, List.length_singleton]
    ring

theorem beBytes_add_mul (k n c : Nat) : beBytes k (c * 256 ^ k + n) = beBytes k n := by
  induction k generalizing c with
  | zero => rfl
  | succ k ih =>
    have split : c * 256 ^ (k + 1) + n = c * 256 * 256 ^ k + n := by ring
    rw [beBytes, beBytes, split, ih, Nat.add_comm (c * 256 * 256 ^ k),
      Nat.add_mul_div_right _ _ (Nat.pow_pos (by decide)), Nat.mul_comm c]
    congr 1
    exact UInt8.toNat_inj.mp (by simp [UInt8.toNat_ofNat'])

/-- Bytes are the big-endian bytes of their value. -/
theorem beBytes_beVal (bs : List UInt8) : beBytes bs.length (beVal bs) = bs := by
  induction bs with
  | nil => rfl
  | cons b bs ih =>
    rw [List.length_cons, beBytes, beVal, beBytes_add_mul, ih, Nat.add_comm,
      Nat.add_mul_div_right _ _ (Nat.pow_pos (by decide)), Nat.div_eq_of_lt (beVal_lt bs), Nat.zero_add]
    simp

theorem ofNat_eq {n : Nat} {b : UInt8} (h : n % 256 = b.toNat) : UInt8.ofNat n = b :=
  UInt8.toNat_inj.mp (by rw [UInt8.toNat_ofNat', h])

theorem ofNat_ne {n : Nat} {b : UInt8} (h : n % 256 ≠ b.toNat) : UInt8.ofNat n ≠ b := by
  rintro rfl
  exact h (by rw [UInt8.toNat_ofNat'])

/-! ## Bit fields -/

/-- The whole bytes written so far, and a byte that is filled bit by bit. -/
structure BitWriter where
  out : List UInt8
  cur : Nat := 0
  bits : Nat := 0

namespace BitWriter

def putBit (w : BitWriter) (b : Nat) : BitWriter :=
  let cur := (w.cur <<< 1 ||| b) % 256
  if w.bits + 1 = 8 then { out := w.out ++ [UInt8.ofNat cur] } else { w with cur, bits := w.bits + 1 }

/-- Put the `n` low bits of `v`, most significant first. -/
def put (w : BitWriter) (v : Nat) : Nat → BitWriter
  | 0 => w
  | n + 1 => put (w.putBit (v >>> n &&& 1)) v n

/-- Put fields, given as values and widths. -/
def puts (w : BitWriter) (fields : List (Nat × Nat)) : BitWriter :=
  fields.foldl (fun w f => w.put f.1 f.2) w

/-- Behind `base`, the writer has written the `n`-bit number `v`. -/
structure Holds (base : List UInt8) (w : BitWriter) (n v : Nat) : Prop where
  room : w.bits < 8
  bound : w.cur < 2 ^ w.bits
  written : ∃ own, w.out = base ++ own ∧ 8 * own.length + w.bits = n ∧ beVal own * 2 ^ w.bits + w.cur = v

variable {base : List UInt8} {w : BitWriter} {n v : Nat}

theorem holds_start (base : List UInt8) : Holds base { out := base } 0 0 :=
  ⟨Nat.succ_pos 7, by simp, [], by simp, by simp, by simp [beVal]⟩

theorem Holds.putBit (h : Holds base w n v) {b : Nat} (hb : b < 2) : Holds base (w.putBit b) (n + 1) (v * 2 + b) := by
  obtain ⟨room, bound, own, out, count, value⟩ := h
  have shifted : w.cur <<< 1 ||| b = w.cur * 2 + b := by
    rw [← Nat.shiftLeft_add_eq_or_of_lt (by simpa using hb), Nat.shiftLeft_eq, Nat.pow_one]
  have small : w.cur * 2 + b < 2 ^ (w.bits + 1) := by rw [Nat.pow_succ]; omega
  have byte : (w.cur * 2 + b) % 256 = w.cur * 2 + b :=
    Nat.mod_eq_of_lt (Nat.lt_of_lt_of_le small (Nat.pow_le_pow_right (by decide) room))
  simp only [BitWriter.putBit, shifted, byte]
  split
  · rename_i full
    refine ⟨Nat.succ_pos 7, by simp, own ++ [UInt8.ofNat (w.cur * 2 + b)], by rw [out, List.append_assoc], ?_, ?_⟩
    · simp only [List.length_append, List.length_singleton]
      omega
    · have seven : w.bits = 7 := by omega
      rw [seven] at value small
      rw [beVal_concat, UInt8.toNat_ofNat', Nat.mod_eq_of_lt (by simpa using small), ← value]
      ring
  · refine ⟨by dsimp only; omega, small, own, out, by dsimp only; omega, ?_⟩
    dsimp only
    rw [← value, Nat.pow_succ]
    ring

theorem Holds.put (h : Holds base w n v) (x k : Nat) :
    Holds base (w.put x k) (n + k) (v * 2 ^ k + x % 2 ^ k) := by
  induction k generalizing w n v with
  | zero => simpa [BitWriter.put, Nat.mod_one] using h
  | succ k ih =>
    have bit : x >>> k &&& 1 = x / 2 ^ k % 2 := by rw [Nat.and_one_is_mod, Nat.shiftRight_eq_div_pow]
    have next := ih (h.putBit (b := x / 2 ^ k % 2) (Nat.mod_lt _ (by decide)))
    rw [← bit] at next
    have low : x % 2 ^ (k + 1) = x % 2 ^ k + 2 ^ k * (x / 2 ^ k % 2) := by rw [Nat.pow_succ, Nat.mod_mul]
    have total : v * 2 ^ (k + 1) + x % 2 ^ (k + 1) = (v * 2 + (x >>> k &&& 1)) * 2 ^ k + x % 2 ^ k := by
      rw [low, bit]
      ring
    rw [BitWriter.put, total, show n + (k + 1) = n + 1 + k by omega]
    exact next

/-- The number a list of fields makes, behind `v`. -/
def fieldsVal (v : Nat) (fields : List (Nat × Nat)) : Nat :=
  fields.foldl (fun v f => v * 2 ^ f.2 + f.1 % 2 ^ f.2) v

theorem fieldsVal_nil (v : Nat) : fieldsVal v [] = v := by rw [fieldsVal, List.foldl_nil]

-- not by `rfl`: the kernel would unfold the sums of a number it is to compare
theorem fieldsVal_cons (v : Nat) (f : Nat × Nat) (fields : List (Nat × Nat)) :
    fieldsVal v (f :: fields) = fieldsVal (v * 2 ^ f.2 + f.1 % 2 ^ f.2) fields := by
  rw [fieldsVal, List.foldl_cons, ← fieldsVal]

theorem Holds.puts (h : Holds base w n v) (fields : List (Nat × Nat)) :
    Holds base (w.puts fields) (n + (fields.map Prod.snd).sum) (fieldsVal v fields) := by
  induction fields generalizing w n v with
  | nil => exact h
  | cons f fields ih =>
    rw [List.map_cons, List.sum_cons, ← Nat.add_assoc]
    exact ih (h.put f.1 f.2)

/-- **Fields that fill whole bytes are written as the bytes of their number.** -/
theorem puts_bytes (base : List UInt8) (fields : List (Nat × Nat)) (k : Nat)
    (whole : (fields.map Prod.snd).sum = 8 * k) :
    (({ out := base } : BitWriter).puts fields).out = base ++ beBytes k (fieldsVal 0 fields) := by
  obtain ⟨room, bound, own, out, count, value⟩ := (holds_start base).puts fields
  rw [Nat.zero_add, whole] at count
  have none : (({ out := base } : BitWriter).puts fields).bits = 0 := by omega
  rw [none] at bound value count
  have len : own.length = k := by omega
  rw [out, ← len, ← value, Nat.pow_zero, Nat.mul_one, Nat.lt_one_iff.mp bound, Nat.add_zero, beBytes_beVal]

end BitWriter

end Rkvc.Lib
