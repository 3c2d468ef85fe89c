import Rkvc.Mlvc.Rans.Put

/-!
# The reciprocal fast path

`put_sym_byte` and `put_sym_64` with every sum, product and shift checked
against its word. Below the renormalisation threshold the checked steps succeed
with the divided form of `put_raw` (`Checked.step_eq`), so no word overflows on
the way and the encoder's own step has the same state.
-/

namespace Rkvc.Mlvc
set_option autoImplicit false
open Lib Lib.Ans

namespace Checked

/-- A value a `uint32_t` holds. -/
def word32 (n : Nat) : Option Nat := if n < 2 ^ 32 then some n else none

/-- A value a `uint64_t` holds. -/
def word64 (n : Nat) : Option Nat := if n < 2 ^ 64 then some n else none

/-- A difference that does not go below zero. -/
def minus (m n : Nat) : Option Nat := if n ≤ m then some (m - n) else none

/-- `enc_sym_init_byte`. The greatest `1u << shift` of the loop is the last. -/
def encSymInitByte (start freq scaleBits : Nat) : Option RansEncSym := do
  let scale ← word32 (1 <<< scaleBits)
  let xMaxHi ← word32 (freq <<< (kByteStateBits - scaleBits))
  if freq > 1 then
    let shift := freqShift freq
    let _ ← word32 (1 <<< shift)
    let one ← word64 (1 <<< (shift + 32 - 1))
    let nom ← word64 (one + (freq - 1))
    let rcp ← word32 (nom / freq)
    let cmpl ← minus scale freq
    some { xMaxHi := xMaxHi, freqRcp := rcp, freqRcpShift := shift - 1 + 32, bias := start, freqCmpl := cmpl }
  else
    let last ← word32 (start + scale)
    let cmpl ← minus scale freq
    some { xMaxHi := xMaxHi, freqRcp := 0xFFFFFFFF, freqRcpShift := 32, bias := last - 1, freqCmpl := cmpl }

/-- `enc_sym_init_64`. The reciprocal is stored in two halves. -/
def encSymInit64 (start freq scaleBits : Nat) : Option RansEncSym := do
  let scale ← word32 (1 <<< scaleBits)
  let xMaxHi ← word32 (freq <<< (31 - scaleBits))
  if freq > 1 then
    let shift := freqShift freq
    let _ ← word32 (1 <<< shift)
    let x1 ← word64 (1 <<< (shift + 31))
    let rest ← word64 ((x1 % freq) <<< 32)
    let x0 ← word64 (freq - 1 + rest)
    let high ← word64 ((x1 / freq) <<< 32)
    let rcp ← word64 (x0 / freq + high)
    let cmpl ← minus scale freq
    some { xMaxHi := xMaxHi, freqRcp := u32 rcp, freqRcpHi := u32 (rcp >>> 32), freqRcpShift := shift - 1,
           bias := start, freqCmpl := cmpl }
  else
    let last ← word32 (start + scale)
    let cmpl ← minus scale freq
    some { xMaxHi := xMaxHi, freqRcp := 0xFFFFFFFF, freqRcpHi := 0xFFFFFFFF, freqRcpShift := 0, bias := last - 1,
           freqCmpl := cmpl }

/-- `put_sym_byte` behind its renormalisation. -/
def putSymByte (s : RansEncSym) (x : Nat) : Option Nat := do
  let product ← word64 (x * s.freqRcp)
  let q ← word32 (product >>> s.freqRcpShift)
  let scaled ← word32 (q * s.freqCmpl)
  let added ← word32 (scaled + s.bias)
  word32 (x + added)

/-- `put_sym_64` behind its renormalisation, with a high multiply of 128 bits. -/
def putSym64 (s : RansEncSym) (x : Nat) : Option Nat := do
  let high ← word64 (s.freqRcpHi <<< 32)
  let q ← word64 ((x * (high ||| s.freqRcp)) >>> 64)
  let scaled ← word64 ((q >>> s.freqRcpShift) * s.freqCmpl)
  let added ← word64 (scaled + s.bias)
  word64 (x + added)

/-- A symbol made and put. -/
def step (v : RansVariant) (start freq scaleBits x : Nat) : Option Nat :=
  match v with
  | .byte => (encSymInitByte start freq scaleBits).bind (putSymByte · x)
  | .rans64 => (encSymInit64 start freq scaleBits).bind (putSym64 · x)

theorem word32_some {n : Nat} (fits : n < 2 ^ 32) : word32 n = some n := if_pos fits

theorem word64_some {n : Nat} (fits : n < 2 ^ 64) : word64 n = some n := if_pos fits

theorem minus_some {m n : Nat} (le : n ≤ m) : minus m n = some (m - n) := if_pos le

section Step
variable {start f b x : Nat}

/-- The scale and the threshold are words. -/
theorem words (hs : start + f ≤ 2 ^ b) (hb : b ≤ 31) :
    word32 (1 <<< b) = some (2 ^ b) ∧ word32 (f <<< (31 - b)) = some (f <<< (31 - b)) ∧
      minus (2 ^ b) f = some (2 ^ b - f) := by
  have hM : 2 ^ b ≤ 2 ^ 31 := Nat.pow_le_pow_right (by decide) hb
  have le := threshold_le hs hb
  rw [Nat.one_shiftLeft, Nat.shiftLeft_eq]
  exact ⟨word32_some (by omega), word32_some (by omega), minus_some (by omega)⟩

section Put
variable {xMaxHi shift rcp rcpHi cmpl bias q : Nat}

/-- A byte symbol is put without overflow when its sum is a word. -/
theorem putSymByte_some (product : x * rcp < 2 ^ 64) (quot : x * rcp / 2 ^ shift = q) (hq : q < 2 ^ 32)
    (out : x + q * cmpl + bias < 2 ^ 32) :
    putSymByte ⟨xMaxHi, shift, rcp, 0, cmpl, bias⟩ x = some (x + q * cmpl + bias) := by
  simp only [putSymByte, word64_some product, Nat.shiftRight_eq_div_pow, quot, Option.bind_eq_bind, Option.bind_some,
    word32_some hq, word32_some (show q * cmpl < 2 ^ 32 by omega), word32_some (show q * cmpl + bias < 2 ^ 32 by omega),
    word32_some (show x + (q * cmpl + bias) < 2 ^ 32 by omega), Nat.add_assoc]

/-- A 64-bit symbol is put without overflow when its sum is a word. -/
theorem putSym64_some {r : Nat} (hi : rcpHi <<< 32 < 2 ^ 64) (halves : rcpHi <<< 32 ||| rcp = r)
    (product : x * r / 2 ^ 64 < 2 ^ 64) (quot : x * r / 2 ^ 64 / 2 ^ shift = q)
    (out : x + q * cmpl + bias < 2 ^ 64) :
    putSym64 ⟨xMaxHi, shift, rcp, rcpHi, cmpl, bias⟩ x = some (x + q * cmpl + bias) := by
  simp only [putSym64, word64_some hi, halves, Nat.shiftRight_eq_div_pow, word64_some product, quot,
    Option.bind_eq_bind, Option.bind_some, word64_some (show q * cmpl < 2 ^ 64 by omega),
    word64_some (show q * cmpl + bias < 2 ^ 64 by omega),
    word64_some (show x + (q * cmpl + bias) < 2 ^ 64 by omega), Nat.add_assoc]

end Put

theorem byte_eq (hf : 0 < f) (hs : start + f ≤ 2 ^ b) (hb : b ≤ 31) (hx : x < f * 2 ^ (31 - b))
    (live : 0 < x) : step .byte start f b x = some (push (2 ^ b) f start x) := by
  have hM : 2 ^ b ≤ 2 ^ 31 := Nat.pow_le_pow_right (by decide) hb
  have hx31 : x < 2 ^ 31 := Nat.lt_of_lt_of_le hx (threshold_le hs hb)
  have out := push_word hf hs hb hx
  obtain ⟨scale, threshold, cmpl⟩ := words hs hb
  by_cases one : 1 < f
  · obtain ⟨s, hshift, hs30, above, below⟩ := freqShift_spec one (by omega)
    have hpow : 2 ^ (s + 32) ≤ 2 ^ 62 := Nat.pow_le_pow_right (by decide) (by omega)
    have last : 2 ^ (s + 1) ≤ 2 ^ 31 := Nat.pow_le_pow_right (by decide) (by omega)
    have rcp_lt := reciprocal_lt (w := 32) above (by omega)
    have quot := reciprocal_quot (w := 31) above below hx31
    have small : x / f ≤ x := Nat.div_le_self x f
    have loop : word32 (1 <<< (s + 1)) = some (1 <<< (s + 1)) := by
      rw [Nat.one_shiftLeft]
      exact word32_some (by omega)
    have one64 : word64 (1 <<< (s + 1 + 32 - 1)) = some (2 ^ (s + 32)) := by
      rw [Nat.one_shiftLeft, show s + 1 + 32 - 1 = s + 32 by omega]
      exact word64_some (by omega)
    have nom : word64 (2 ^ (s + 32) + (f - 1)) = some (2 ^ (s + 32) + (f - 1)) := word64_some (by omega)
    have made : encSymInitByte start f b = some
        { xMaxHi := f <<< (31 - b), freqRcp := (2 ^ (s + 32) + (f - 1)) / f, freqRcpShift := s + 32,
          bias := start, freqCmpl := 2 ^ b - f } := by
      simp only [encSymInitByte, kByteStateBits, scale, threshold, cmpl, if_pos one, hshift, loop, one64, nom,
        word32_some rcp_lt, Option.bind_eq_bind, Option.bind_some, Nat.add_sub_cancel]
    rw [← push_of_quot hs] at out ⊢
    rw [step, made, Option.bind_some]
    apply putSymByte_some _ quot (by omega) (Nat.lt_of_lt_of_le out (by decide))
    calc x * ((2 ^ (s + 32) + (f - 1)) / f) ≤ 2 ^ 31 * 2 ^ 32 := Nat.mul_le_mul (by omega) (by omega)
      _ < 2 ^ 64 := by decide
  · obtain rfl : f = 1 := by omega
    have made : encSymInitByte start 1 b = some
        { xMaxHi := 1 <<< (31 - b), freqRcp := 0xFFFFFFFF, freqRcpShift := 32,
          bias := start + 2 ^ b - 1, freqCmpl := 2 ^ b - 1 } := by
      simp only [encSymInitByte, kByteStateBits, scale, threshold, cmpl, if_neg one,
        word32_some (show start + 2 ^ b < 2 ^ 32 by omega), Option.bind_eq_bind, Option.bind_some]
    rw [← push_of_pred live hs] at out ⊢
    rw [step, made, Option.bind_some]
    apply putSymByte_some _ (ones_quot (w := 32) live (by omega)) (by omega) (Nat.lt_of_lt_of_le out (by decide))
    omega

theorem rans64_eq (hf : 0 < f) (hs : start + f ≤ 2 ^ b) (hb : b ≤ 31) (hx : x < f * 2 ^ (63 - b))
    (live : 0 < x) : step .rans64 start f b x = some (push (2 ^ b) f start x) := by
  have hM : 2 ^ b ≤ 2 ^ 31 := Nat.pow_le_pow_right (by decide) hb
  have hx63 : x < 2 ^ 63 := Nat.lt_of_lt_of_le hx (threshold_le hs (by omega))
  have out := push_word hf hs (show b ≤ 63 by omega) hx
  obtain ⟨scale, threshold, cmpl⟩ := words hs hb
  have high : ∀ r, r < 2 ^ 64 → x * r / 2 ^ 64 < 2 ^ 64 := by
    intro r hr
    apply Nat.div_lt_of_lt_mul
    calc x * r ≤ 2 ^ 63 * 2 ^ 64 := Nat.mul_le_mul (by omega) (by omega)
      _ < 2 ^ 64 * 2 ^ 64 := by decide
  by_cases one : 1 < f
  · obtain ⟨s, hshift, hs30, above, below⟩ := freqShift_spec one (by omega)
    have hpow : 2 ^ (s + 32) ≤ 2 ^ 62 := Nat.pow_le_pow_right (by decide) (by omega)
    have last : 2 ^ (s + 1) ≤ 2 ^ 31 := Nat.pow_le_pow_right (by decide) (by omega)
    obtain ⟨rem_lt, quot_lt, two⟩ := reciprocal_words hf (by omega) above
    have rcp_lt := reciprocal_lt (w := 64) above (by omega)
    obtain ⟨r, hr⟩ : ∃ r, (2 ^ (s + 64) + (f - 1)) / f = r := ⟨_, rfl⟩
    rw [hr] at two rcp_lt
    have loop : word32 (1 <<< (s + 1)) = some (1 <<< (s + 1)) := by
      rw [Nat.one_shiftLeft]
      exact word32_some (by omega)
    have x1 : word64 (1 <<< (s + 1 + 31)) = some (2 ^ (s + 32)) := by
      rw [Nat.one_shiftLeft, show s + 1 + 31 = s + 32 by omega]
      exact word64_some (by omega)
    have rest : word64 ((2 ^ (s + 32) % f) <<< 32) = some ((2 ^ (s + 32) % f) <<< 32) := by
      rw [Nat.shiftLeft_eq]
      exact word64_some (by omega)
    have x0 : word64 (f - 1 + (2 ^ (s + 32) % f) <<< 32) = some (f - 1 + (2 ^ (s + 32) % f) <<< 32) := by
      rw [Nat.shiftLeft_eq]
      exact word64_some (by omega)
    have shifted : word64 ((2 ^ (s + 32) / f) <<< 32) = some ((2 ^ (s + 32) / f) <<< 32) := by
      rw [Nat.shiftLeft_eq]
      exact word64_some (by omega)
    have rcp : word64 ((f - 1 + (2 ^ (s + 32) % f) <<< 32) / f + (2 ^ (s + 32) / f) <<< 32) = some r := by
      rw [two]
      exact word64_some rcp_lt
    have made : encSymInit64 start f b = some
        { xMaxHi := f <<< (31 - b), freqRcp := u32 r, freqRcpHi := u32 (r >>> 32), freqRcpShift := s,
          bias := start, freqCmpl := 2 ^ b - f } := by
      simp only [encSymInit64, scale, threshold, cmpl, if_pos one, hshift, loop, x1, rest, x0, shifted, rcp,
        Option.bind_eq_bind, Option.bind_some, Nat.add_sub_cancel]
    obtain ⟨hi, halves⟩ := halves_or rcp_lt
    have quot : x * r / 2 ^ 64 / 2 ^ s = x / f := by
      rw [← hr, Nat.div_div_eq_div_mul, ← Nat.pow_add, show 64 + s = s + (63 + 1) by omega,
        show s + 64 = s + (63 + 1) by omega]
      exact reciprocal_quot above below hx63
    rw [← push_of_quot hs] at out ⊢
    rw [step, made, Option.bind_some]
    exact putSym64_some hi halves (high r rcp_lt) quot (Nat.lt_of_lt_of_le out (by decide))
  · obtain rfl : f = 1 := by omega
    have made : encSymInit64 start 1 b = some
        { xMaxHi := 1 <<< (31 - b), freqRcp := 0xFFFFFFFF, freqRcpHi := 0xFFFFFFFF, freqRcpShift := 0,
          bias := start + 2 ^ b - 1, freqCmpl := 2 ^ b - 1 } := by
      simp only [encSymInit64, scale, threshold, cmpl, if_neg one,
        word32_some (show start + 2 ^ b < 2 ^ 32 by omega), Option.bind_eq_bind, Option.bind_some]
    rw [← push_of_pred live hs] at out ⊢
    have hi : 0xFFFFFFFF <<< 32 < 2 ^ 64 := by decide
    have ones : 0xFFFFFFFF <<< 32 ||| 0xFFFFFFFF = 2 ^ 64 - 1 := by decide
    have quot : x * (2 ^ 64 - 1) / 2 ^ 64 / 2 ^ 0 = x - 1 := by
      rw [ones_quot live (by omega), Nat.pow_zero, Nat.div_one]
    rw [step, made, Option.bind_some]
    exact putSym64_some hi ones (high _ (by decide)) quot (Nat.lt_of_lt_of_le out (by decide))

end Step

/-- **No word overflows** on the way to the pushed state. -/
theorem step_eq (v : RansVariant) {start f b x : Nat} (hf : 0 < f) (hs : start + f ≤ 2 ^ b) (cap : b ≤ v.maxScale)
    (hx : x < f * 2 ^ (v.stateBits - b)) (live : 0 < x) : step v start f b x = some (push (2 ^ b) f start x) := by
  have hb := Nat.le_trans cap (maxScale_le v)
  cases v with
  | byte => exact byte_eq hf hs hb hx live
  | rans64 => exact rans64_eq hf hs hb hx live

end Checked

namespace RansEncoder

/-- A byte state below the threshold is a word. -/
theorem word_of_below {start freq scaleBits x : Nat} (range : start + freq ≤ 2 ^ scaleBits) (hb : scaleBits ≤ 31)
    (below : x < freq * 2 ^ (31 - scaleBits)) : u32 x = x := by
  have le := threshold_le range hb
  exact u32_of_lt (by omega)

/-- A state below the threshold is not shed. -/
theorem renormByte_of_lt {e : RansEncoder} {xMax : Nat} (below : u32 e.state < xMax) :
    e.renormByte xMax = { e with state := u32 e.state } := by
  simp only [renormByte, renormByteLoop, if_neg (Nat.not_le_of_lt below)]

theorem renorm64_of_lt {e : RansEncoder} {xMax : Nat} (below : e.state < xMax) : e.renorm64 xMax = e := by
  simp only [renorm64, if_neg (Nat.not_le_of_lt below)]

/-- **The reciprocal fast path** is the division of `put_raw`, and no word overflows on the way to it. -/
theorem putSym_reciprocal {e : RansEncoder} {start freq scaleBits : Nat} (cap : scaleBits ≤ e.variant.maxScale)
    (freq_pos : 1 ≤ freq) (range : start + freq ≤ 2 ^ scaleBits) (live : 1 ≤ e.state)
    (below : e.state < freq <<< (e.variant.stateBits - scaleBits)) :
    Checked.step e.variant start freq scaleBits e.state =
        some ((e.state / freq) <<< scaleBits + start + e.state % freq) ∧
      e.putSym (encSymInit e.variant start freq scaleBits) =
        { e with state := (e.state / freq) <<< scaleBits + start + e.state % freq } ∧
      e.putRaw start freq scaleBits =
        { e with state := (e.state / freq) <<< scaleBits + start + e.state % freq } := by
  have pushed : (e.state / freq) <<< scaleBits + start + e.state % freq = push (2 ^ scaleBits) freq start e.state := by
    rw [Nat.shiftLeft_eq, push]
  rw [Nat.shiftLeft_eq] at below
  have hb := Nat.le_trans cap (maxScale_le e.variant)
  have out := push_word freq_pos range (e.variant.scale_le_stateBits hb) below
  have fits : (Put.mk false start freq scaleBits).Fits e.variant := ⟨freq_pos, range, cap⟩
  rw [pushed]
  refine ⟨Checked.step_eq e.variant freq_pos range cap below live, ?_, ?_⟩
  · have threshold := Put.encSymInit_xMaxHi e.variant start freq scaleBits
    cases hv : e.variant with
    | byte =>
      rw [hv] at fits threshold below
      rw [Put.raw_threshold fits] at threshold
      have word := word_of_below range hb below
      simp only [putSym, hv, putSymByte]
      rw [renormByte_of_lt (by rwa [threshold, word])]
      simp only [word, encSymInit]
      rw [symByte_push freq_pos range hb below (Or.inr live), hv]
    | rans64 =>
      rw [hv] at fits threshold below
      have wide := Put.sym_threshold64 fits
      rw [← threshold] at wide
      simp only [putSym, hv, putSym64]
      rw [renorm64_of_lt (by rwa [wide])]
      simp only [encSymInit]
      rw [sym64_push freq_pos range hb below (Or.inr live), hv]
  · cases hv : e.variant with
    | byte =>
      rw [hv] at fits below out
      have threshold := Put.raw_threshold fits
      have word := word_of_below range hb below
      simp only [putRaw, hv, kByteStateBits]
      rw [renormByte_of_lt (by rwa [threshold, word])]
      simp only [word, pushed]
      rw [u32_of_lt (Nat.lt_of_lt_of_le out (by decide)), hv]
    | rans64 =>
      rw [hv] at fits below out
      have threshold := Put.raw_threshold64 fits
      simp only [putRaw, hv]
      rw [renorm64_of_lt (by rwa [threshold])]
      simp only [pushed]
      rw [u64_of_lt (Nat.lt_of_lt_of_le out (by decide)), hv]

/-- A symbol of frequency five at three bits, from a state just below its threshold. -/
theorem putSym_reciprocal_five :
    Checked.step .rans64 2 5 3 (5 <<< 60 - 1) = some (((5 <<< 60 - 1) / 5) <<< 3 + 2 + (5 <<< 60 - 1) % 5) :=
  (putSym_reciprocal (e := { new .rans64 512 with state := 5 <<< 60 - 1 }) (by decide) (by decide) (by decide)
    (by decide) (by decide)).1

end RansEncoder

end Rkvc.Mlvc
