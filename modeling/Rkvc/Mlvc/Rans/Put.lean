import Rkvc.Mlvc.Rans.Encoder

/-!
# Coding one symbol is an ANS push

`put_sym_byte` and `put_sym_64` divide by a precomputed reciprocal, `put_raw`
divides. Both are `Ans.push` on the renormalised state: the reciprocal is exact
below the renormalisation threshold (`symByte_push`, `sym64_push`). On the
encoder this is one step of a stack of states and bytes (`Put.apply_view`), the
units the state sheds being stored little-endian in front of the content.
-/

namespace Rkvc.Mlvc
set_option autoImplicit false
open Lib Lib.Ans

/-! ## The reciprocals -/

/-- The loop finds the least power of two that holds the frequency. -/
theorem growShift_spec {freq fuel shift : Nat} (lo : 1 ≤ shift) (room : shift + fuel ≤ 31)
    (above : 2 ^ (shift - 1) < freq) (below : freq ≤ 2 ^ (shift + fuel)) :
    ∃ s, growShift freq fuel shift = s ∧ 1 ≤ s ∧ s ≤ 31 ∧ 2 ^ (s - 1) < freq ∧ freq ≤ 2 ^ s := by
  induction fuel generalizing shift with
  | zero => exact ⟨shift, rfl, lo, by omega, above, by simpa using below⟩
  | succ fuel ih =>
    have word : u32 (1 <<< shift) = 2 ^ shift := by
      rw [Nat.one_shiftLeft]
      exact u32_of_lt (Nat.pow_lt_pow_right (by decide) (by omega))
    simp only [growShift, word]
    split
    · rename_i small
      exact ih (by omega) (by omega) (by simpa using small)
        (by rw [show shift + 1 + fuel = shift + (fuel + 1) by omega]; exact below)
    · rename_i big
      exact ⟨shift, rfl, lo, by omega, above, by omega⟩

theorem freqShift_spec {freq : Nat} (lo : 1 < freq) (hi : freq ≤ 2 ^ 31) :
    ∃ s, freqShift freq = s + 1 ∧ s ≤ 30 ∧ 2 ^ s < freq ∧ freq ≤ 2 ^ (s + 1) := by
  obtain ⟨s, hs, h1, h31, habove, hbelow⟩ :=
    growShift_spec (Nat.le_refl 1) (by decide : 1 + 30 ≤ 31) (by simpa using lo)
      (by simpa using hi)
  obtain ⟨s, rfl⟩ : ∃ n, s = n + 1 := ⟨s - 1, by omega⟩
  exact ⟨s, hs, by omega, by simpa using habove, hbelow⟩

section Reciprocal
variable {f s x start b : Nat}

/-- The rounded-up reciprocal at precision `w + s` fits `w` bits. -/
theorem reciprocal_lt {w : Nat} (above : 2 ^ s < f) (hf : f ≤ 2 ^ w) : (2 ^ (s + w) + (f - 1)) / f < 2 ^ w := by
  have s_pos := Nat.two_pow_pos s
  rw [Nat.div_lt_iff_lt_mul (by omega), Nat.pow_add]
  obtain ⟨g, rfl⟩ : ∃ g, f = g + 1 := ⟨f - 1, by omega⟩
  have := Nat.mul_le_mul_right (2 ^ w) (show 2 ^ s ≤ g by omega)
  rw [Nat.mul_add, Nat.mul_comm (2 ^ w) g]
  omega

/-- The quotient by the reciprocal at precision `w + s`, for states below
`2 ^ (w - 1)`. -/
theorem reciprocal_quot {w : Nat} (above : 2 ^ s < f) (below : f ≤ 2 ^ (s + 1)) (hx : x < 2 ^ w) :
    x * ((2 ^ (s + (w + 1)) + (f - 1)) / f) / 2 ^ (s + (w + 1)) = x / f := by
  have hf : 0 < f := by omega
  obtain ⟨lo, err⟩ := ceil_div_bounds (n := 2 ^ (s + (w + 1))) hf
  refine reciprocal_div hf lo ?_
  have expand : 2 ^ (s + (w + 1)) = 2 ^ w * 2 ^ (s + 1) := by
    rw [← Nat.pow_add]; congr 1; omega
  calc x * (f * ((2 ^ (s + (w + 1)) + (f - 1)) / f) - 2 ^ (s + (w + 1)))
      ≤ x * f := Nat.mul_le_mul_left _ (Nat.le_of_lt err)
    _ ≤ x * 2 ^ (s + 1) := Nat.mul_le_mul_left _ below
    _ < 2 ^ w * 2 ^ (s + 1) := Nat.mul_lt_mul_of_pos_right hx (Nat.two_pow_pos _)
    _ = 2 ^ (s + (w + 1)) := expand.symm

/-- A quotient, the complement and the start make a push. -/
theorem push_of_quot (hs : start + f ≤ 2 ^ b) :
    x + x / f * (2 ^ b - f) + start = push (2 ^ b) f start x := by
  have hdiv := Nat.div_add_mod x f
  have comm : x / f * (2 ^ b - f) = x / f * 2 ^ b - f * (x / f) := by
    rw [Nat.mul_sub, Nat.mul_comm (x / f) f]
  have le : f * (x / f) ≤ x / f * 2 ^ b := by
    rw [Nat.mul_comm]
    exact Nat.mul_le_mul_left _ (by omega)
  simp only [push, comm]
  omega

/-- With frequency one the all-ones reciprocal gives `x - 1`, which the bias makes
up for. -/
theorem push_of_pred (hx : 0 < x) (hs : start + 1 ≤ 2 ^ b) :
    x + (x - 1) * (2 ^ b - 1) + (start + 2 ^ b - 1) = push (2 ^ b) 1 start x := by
  obtain ⟨y, rfl⟩ : ∃ y, x = y + 1 := ⟨x - 1, by omega⟩
  obtain ⟨m, hm⟩ : ∃ m, 2 ^ b = m + 1 := ⟨2 ^ b - 1, by omega⟩
  simp only [push, Nat.div_one, Nat.mod_one, hm, Nat.add_sub_cancel]
  ring_nf
  omega

theorem ones_quot {w : Nat} (hx : 0 < x) (hw : x < 2 ^ w) : x * (2 ^ w - 1) / 2 ^ w = x - 1 := by
  have expand : x * (2 ^ w - 1) = (x - 1) * 2 ^ w + (2 ^ w - x) := by
    obtain ⟨y, rfl⟩ : ∃ y, x = y + 1 := ⟨x - 1, by omega⟩
    rw [Nat.mul_sub, Nat.add_sub_cancel, Nat.add_mul]
    omega
  rw [expand, Nat.mul_comm (x - 1), Nat.mul_add_div (Nat.two_pow_pos w), Nat.div_eq_of_lt (by omega),
    Nat.add_zero]

theorem threshold_le {n : Nat} (hs : start + f ≤ 2 ^ b) (hb : b ≤ n) : f * 2 ^ (n - b) ≤ 2 ^ n := by
  calc f * 2 ^ (n - b) ≤ 2 ^ b * 2 ^ (n - b) := Nat.mul_le_mul_right _ (by omega)
    _ = 2 ^ n := by rw [← Nat.pow_add]; congr 1; omega

theorem scale_word (hb : b ≤ 31) : u32 (1 <<< b) = 2 ^ b := by
  rw [Nat.one_shiftLeft]
  exact u32_of_lt (Nat.pow_lt_pow_right (by decide) (by omega))

/-- A pushed state stays below the state bound. -/
theorem push_word {n : Nat} (hf : 0 < f) (hs : start + f ≤ 2 ^ b) (hb : b ≤ n) (hx : x < f * 2 ^ (n - b)) :
    push (2 ^ b) f start x < 2 ^ n := by
  have := push_lt (K := 2 ^ (n - b)) hf hs hx
  rwa [← Nat.pow_add, show n - b + b = n by omega] at this

/-- `put_sym_byte`'s arithmetic with the precomputed symbol is a push. -/
theorem symByte_push (hf : 0 < f) (hs : start + f ≤ 2 ^ b) (hb : b ≤ 31) (hx : x < f * 2 ^ (31 - b))
    (live : 1 < f ∨ 0 < x) :
    u32 (x + u32 (u64 (x * (encSymInitByte start f b).freqRcp) >>> (encSymInitByte start f b).freqRcpShift) *
      (encSymInitByte start f b).freqCmpl + (encSymInitByte start f b).bias) = push (2 ^ b) f start x := by
  have hM : 2 ^ b ≤ 2 ^ 31 := Nat.pow_le_pow_right (by decide) hb
  have hx31 : x < 2 ^ 31 := Nat.lt_of_lt_of_le hx (threshold_le hs hb)
  have out := push_word hf hs hb hx
  by_cases one : 1 < f
  · obtain ⟨s, hshift, hs30, above, below⟩ := freqShift_spec one (by omega)
    have hpow : 2 ^ (s + 32) ≤ 2 ^ 62 := Nat.pow_le_pow_right (by decide) (by omega)
    have nom : u64 (u64 (1 <<< (s + 1 + 32 - 1)) + (f - 1)) = 2 ^ (s + 32) + (f - 1) := by
      rw [Nat.one_shiftLeft, show s + 1 + 32 - 1 = s + 32 by omega, u64_of_lt (n := 2 ^ (s + 32)) (by omega),
        u64_of_lt (by omega)]
    have rcp_lt := reciprocal_lt (w := 32) above (by omega)
    have quot := reciprocal_quot (w := 31) above below hx31
    have prod : x * ((2 ^ (s + 32) + (f - 1)) / f) < 2 ^ 64 :=
      calc x * ((2 ^ (s + 32) + (f - 1)) / f) ≤ 2 ^ 31 * 2 ^ 32 :=
            Nat.mul_le_mul (by omega) (by omega)
        _ < 2 ^ 64 := by decide
    have small : x / f ≤ x := Nat.div_le_self x f
    simp only [encSymInitByte, scale_word hb, if_pos one, hshift, nom, u32_of_lt rcp_lt, u64_of_lt prod,
      Nat.shiftRight_eq_div_pow, show s + 1 - 1 + 32 = s + (31 + 1) by omega]
    rw [show s + 32 = s + (31 + 1) by omega, quot, u32_of_lt (show x / f < 2 ^ 32 by omega),
      push_of_quot hs, u32_of_lt (by omega)]
  · obtain rfl : f = 1 := by omega
    have hx0 : 0 < x := by omega
    have quot := ones_quot (w := 32) hx0 (by omega)
    have prod : x * 0xFFFFFFFF < 2 ^ 64 := by omega
    have bias : u32 (start + 2 ^ b - 1) = start + 2 ^ b - 1 := u32_of_lt (by omega)
    simp only [encSymInitByte, scale_word hb, if_neg one, u64_of_lt prod, Nat.shiftRight_eq_div_pow, bias]
    rw [show x * 0xFFFFFFFF / 2 ^ 32 = x - 1 from quot, u32_of_lt (show x - 1 < 2 ^ 32 by omega),
      push_of_pred hx0 hs, u32_of_lt (by omega)]

/-- The two-step division of `enc_sym_init_64` is the rounded-up quotient. -/
theorem two_step_div {n m : Nat} (hf : 0 < f) :
    ((f - 1) + n % f * m) / f + n / f * m = (n * m + (f - 1)) / f := by
  have hdiv := Nat.div_add_mod n f
  have expand : n * m + (f - 1) = (f - 1) + n % f * m + f * (n / f * m) := by
    calc n * m + (f - 1) = (f * (n / f) + n % f) * m + (f - 1) := by rw [hdiv]
      _ = (f - 1) + n % f * m + f * (n / f * m) := by ring
  rw [expand, Nat.add_mul_div_left _ _ hf]

/-- Both steps fit their words. -/
theorem reciprocal_words {s : Nat} (hf : 0 < f) (low : f ≤ 2 ^ 31) (above : 2 ^ s < f) :
    2 ^ (s + 32) % f < 2 ^ 31 ∧ 2 ^ (s + 32) / f < 2 ^ 32 ∧
      (f - 1 + (2 ^ (s + 32) % f) <<< 32) / f + (2 ^ (s + 32) / f) <<< 32 = (2 ^ (s + 64) + (f - 1)) / f := by
  refine ⟨Nat.lt_of_lt_of_le (Nat.mod_lt _ hf) low, ?_, ?_⟩
  · rw [Nat.div_lt_iff_lt_mul hf, Nat.pow_add, Nat.mul_comm]
    exact Nat.mul_lt_mul_of_pos_left above (by decide)
  · have two := two_step_div (n := 2 ^ (s + 32)) (m := 2 ^ 32) hf
    rw [← Nat.pow_add, show s + 32 + 32 = s + 64 by omega] at two
    rw [Nat.shiftLeft_eq, Nat.shiftLeft_eq]
    exact two

/-- `put_sym_64`'s arithmetic with the precomputed symbol is a push. -/
theorem sym64_push (hf : 0 < f) (hs : start + f ≤ 2 ^ b) (hb : b ≤ 31) (hx : x < f * 2 ^ (63 - b))
    (live : 1 < f ∨ 0 < x) :
    u64 (x + mul64hi x (u64 ((encSymInit64 start f b).freqRcpHi <<< 32) ||| (encSymInit64 start f b).freqRcp) >>>
        (encSymInit64 start f b).freqRcpShift * (encSymInit64 start f b).freqCmpl +
      (encSymInit64 start f b).bias) = push (2 ^ b) f start x := by
  have hM : 2 ^ b ≤ 2 ^ 31 := Nat.pow_le_pow_right (by decide) hb
  have hx63 : x < 2 ^ 63 := Nat.lt_of_lt_of_le hx (threshold_le hs (by omega))
  have out := push_word hf hs (show b ≤ 63 by omega) hx
  by_cases one : 1 < f
  · obtain ⟨s, hshift, hs30, above, below⟩ := freqShift_spec one (by omega)
    have x1 : u64 (1 <<< (s + 1 + 31)) = 2 ^ (s + 32) := by
      rw [Nat.one_shiftLeft, show s + 1 + 31 = s + 32 by omega]
      exact u64_of_lt (Nat.pow_lt_pow_right (by decide) (by omega))
    obtain ⟨rem_lt, quot_lt, two⟩ := reciprocal_words hf (by omega) above
    have rcp_lt := reciprocal_lt (w := 64) above (by omega)
    have rcp : u64 (u64 ((f - 1) + u64 ((2 ^ (s + 32) % f) <<< 32)) / f + u64 ((2 ^ (s + 32) / f) <<< 32)) =
        (2 ^ (s + 64) + (f - 1)) / f := by
      rw [Nat.shiftLeft_eq, Nat.shiftLeft_eq] at two ⊢
      rw [u64_of_lt (n := 2 ^ (s + 32) % f * 2 ^ 32) (by omega), u64_of_lt (n := f - 1 + _) (by omega),
        u64_of_lt (n := 2 ^ (s + 32) / f * 2 ^ 32) (by omega), two, u64_of_lt rcp_lt]
    have quot := reciprocal_quot (w := 63) above below hx63
    obtain ⟨r, hr⟩ : ∃ r, (2 ^ (s + 64) + (f - 1)) / f = r := ⟨_, rfl⟩
    have word : u64 (u32 (r >>> 32) <<< 32) ||| u32 r = r := by
      obtain ⟨hi, halves⟩ := halves_or (show r < 2 ^ 64 by omega)
      rw [u64_of_lt hi, halves]
    have prod : x * r / 2 ^ 64 < 2 ^ 64 := by
      apply Nat.div_lt_of_lt_mul
      calc x * r ≤ 2 ^ 63 * 2 ^ 64 := Nat.mul_le_mul (by omega) (by omega)
        _ < 2 ^ 64 * 2 ^ 64 := by decide
    simp only [encSymInit64, scale_word hb, if_pos one, hshift, x1, rcp, hr, word]
    simp only [mul64hi, Nat.shiftRight_eq_div_pow, u64_of_lt prod, Nat.div_div_eq_div_mul, ← Nat.pow_add,
      show 64 + (s + 1 - 1) = s + (63 + 1) by omega]
    rw [show s + 64 = s + (63 + 1) by omega] at hr
    rw [← hr, quot, push_of_quot hs, u64_of_lt (by omega)]
  · obtain rfl : f = 1 := by omega
    have hx0 : 0 < x := by omega
    have quot := ones_quot (w := 64) hx0 (by omega)
    have bias : u32 (start + 2 ^ b - 1) = start + 2 ^ b - 1 := u32_of_lt (by omega)
    have ones : u64 (0xFFFFFFFF <<< 32) ||| 0xFFFFFFFF = 2 ^ 64 - 1 := by decide
    simp only [encSymInit64, scale_word hb, if_neg one, ones, mul64hi, Nat.shiftRight_eq_div_pow, bias, quot]
    rw [u64_of_lt (show x - 1 < 2 ^ 64 by omega), Nat.pow_zero, Nat.div_one, push_of_pred hx0 hs,
      u64_of_lt (by omega)]

end Reciprocal

/-! ## The encoder as a stack -/

namespace RansVariant

/-- The state interval is `[2 ^ lowBits, 2 ^ stateBits)`. -/
def lowBits : RansVariant → Nat
  | byte => 23
  | rans64 => 31

def stateBits : RansVariant → Nat
  | byte => 31
  | rans64 => 63

/-- The units one renormalisation can shed. -/
def rounds : RansVariant → Nat
  | byte => 4
  | rans64 => 1

def base (v : RansVariant) : Nat := 256 ^ v.unitBytes

/-- A unit as it stands in the stream. -/
def unit (v : RansVariant) (d : Nat) : List UInt8 := leBytes v.unitBytes d

/-- The state an encoder step divides: `x` shed below the step's threshold. -/
def settled (v : RansVariant) (bits freq x : Nat) : Nat :=
  (shed v.base (freq * 2 ^ (v.stateBits - bits)) v.rounds x).2

/-- The units the step sheds, in front of the content. -/
def shedBytes (v : RansVariant) (bits freq x : Nat) : List UInt8 :=
  (shed v.base (freq * 2 ^ (v.stateBits - bits)) v.rounds x).1.reverse.flatMap v.unit

theorem lower_eq (v : RansVariant) : v.lower = 2 ^ v.lowBits := by cases v <;> rfl

theorem scale_le_stateBits (v : RansVariant) {bits : Nat} (h : bits ≤ 31) : bits ≤ v.stateBits := by
  cases v <;> simp only [stateBits] <;> omega

/-- The rounds are enough for a state of the interval. -/
theorem settled_lt (v : RansVariant) {bits freq x : Nat} (hf : 0 < freq) (hb : bits ≤ 31)
    (hx : x < 2 ^ v.stateBits) : v.settled bits freq x < freq * 2 ^ (v.stateBits - bits) := by
  apply shed_lt
  have hpos : 1 ≤ freq * 2 ^ (v.stateBits - bits) := Nat.mul_pos hf (Nat.two_pow_pos _)
  cases v with
  | byte =>
    calc x < 2 ^ 31 := hx
      _ ≤ 1 * 256 ^ 4 := by decide
      _ ≤ _ := Nat.mul_le_mul_right _ hpos
  | rans64 =>
    have wide : 2 ^ 32 ≤ freq * 2 ^ (63 - bits) :=
      Nat.le_trans (Nat.pow_le_pow_right (by decide) (by omega)) (Nat.le_mul_of_pos_left _ hf)
    calc x < 2 ^ 63 := hx
      _ ≤ 2 ^ 32 * (256 ^ 4) ^ 1 := by decide
      _ ≤ _ := Nat.mul_le_mul_right _ wide

end RansVariant

namespace RansEncoder

/-- An encoder that takes data and shows the state and bytes `p`. -/
structure Shows (e : RansEncoder) (v : RansVariant) (p : Nat × List UInt8) : Prop where
  opened : e.Open
  variant : e.variant = v
  state : e.state = p.1
  content : e.content = p.2

theorem Open.shows {e : RansEncoder} (h : e.Open) : e.Shows e.variant (e.state, e.content) :=
  ⟨h, rfl, rfl, rfl⟩

theorem Shows.with_state {e : RansEncoder} {v : RansVariant} {x : Nat} {bytes : List UInt8}
    (h : e.Shows v (x, bytes)) (y : Nat) : { e with state := y }.Shows v (y, bytes) :=
  ⟨h.opened.with_state y, h.variant, rfl, h.content⟩

theorem Shows.write {e : RansEncoder} {v : RansVariant} {x : Nat} {content bytes : List UInt8}
    (h : e.Shows v (x, content)) (short : bytes.length ≤ 65536) :
    (e.write bytes).Shows v (x, bytes ++ content) := by
  obtain ⟨opened, hcontent, state, variant⟩ := write_spec h.opened short
  exact ⟨opened, variant.trans h.variant, state.trans h.state, by rw [hcontent, h.content]⟩

/-- The loop of `renorm_byte` sheds bytes. -/
theorem renormByteLoop_shows (xMax fuel : Nat) {x y : Nat} {e : RansEncoder} {v : RansVariant} {content : List UInt8}
    (h : e.Shows v (y, content)) :
    (renormByteLoop xMax fuel e x).2 = (shed 256 xMax fuel x).2 ∧
      (renormByteLoop xMax fuel e x).1.Shows v
        (y, (shed 256 xMax fuel x).1.reverse.flatMap (leBytes 1) ++ content) := by
  induction fuel generalizing e x content with
  | zero => exact ⟨rfl, by simpa [shed, renormByteLoop] using h⟩
  | succ fuel ih =>
    simp only [renormByteLoop, shed, Nat.shiftRight_eq_div_pow]
    split
    · have digit : leBytes 1 (x % 256) = [UInt8.ofNat x] := by
        simp only [leBytes, List.cons.injEq, and_true]
        apply UInt8.toNat_inj.1
        simp
      have written : (e.writeByte (UInt8.ofNat x)).Shows v (y, [UInt8.ofNat x] ++ content) :=
        h.write (by simp)
      obtain ⟨last, shows⟩ := ih (x := x / 2 ^ 8) written
      refine ⟨last, ?_⟩
      simpa [digit] using shows
    · exact ⟨rfl, by simpa using h⟩

/-- `renorm_byte` leaves the settled state. -/
theorem renormByte_shows {e : RansEncoder} {v : RansVariant} {xMax : Nat} {p : Nat × List UInt8}
    (h : e.Shows v p) (hx : p.1 < 2 ^ 32) :
    (e.renormByte xMax).Shows v ((shed 256 xMax 4 p.1).2,
      (shed 256 xMax 4 p.1).1.reverse.flatMap (leBytes 1) ++ p.2) := by
  obtain ⟨last, shows⟩ := renormByteLoop_shows xMax 4 (x := p.1) (y := p.1) h
  have word : u32 e.state = p.1 := by rw [h.state]; exact u32_of_lt hx
  simp only [renormByte, word, last]
  exact shows.with_state _

/-- `renorm_64` leaves the settled state. -/
theorem renorm64_shows {e : RansEncoder} {v : RansVariant} {xMax : Nat} {p : Nat × List UInt8}
    (h : e.Shows v p) :
    (e.renorm64 xMax).Shows v ((shed (256 ^ 4) xMax 1 p.1).2,
      (shed (256 ^ 4) xMax 1 p.1).1.reverse.flatMap (leBytes 4) ++ p.2) := by
  simp only [renorm64, h.state, shed, Nat.shiftRight_eq_div_pow]
  split
  · have written : (e.writeUnit32 (u32 p.1)).Shows v (p.1, leBytes 4 (u32 p.1) ++ p.2) :=
      Shows.write (x := p.1) h (by simp)
    simpa [u32] using written.with_state (p.1 / 4294967296)
  · simpa using Shows.with_state (x := p.1) h p.1

end RansEncoder

/-! ## One step -/

/-- One coding step: a table symbol, divided by its reciprocal, or a raw digit. -/
structure Put where
  raw : Bool
  start : Nat
  freq : Nat
  scaleBits : Nat
  deriving DecidableEq, Repr

namespace Put

/-- The source call the step stands for. -/
def apply (p : Put) (e : RansEncoder) : RansEncoder :=
  if p.raw then e.putRaw p.start p.freq p.scaleBits
  else e.putSym (encSymInit e.variant p.start p.freq p.scaleBits)

/-- The step on states and bytes. -/
def step (v : RansVariant) (p : Put) (s : Nat × List UInt8) : Nat × List UInt8 :=
  (push (2 ^ p.scaleBits) p.freq p.start (v.settled p.scaleBits p.freq s.1),
    v.shedBytes p.scaleBits p.freq s.1 ++ s.2)

/-- The step's range lies within its scale, and the scale within the variant's cap. -/
structure Fits (p : Put) (v : RansVariant) : Prop where
  freq : 0 < p.freq
  range : p.start + p.freq ≤ 2 ^ p.scaleBits
  cap : p.scaleBits ≤ v.maxScale

theorem Fits.scale {p : Put} {v : RansVariant} (fits : p.Fits v) : p.scaleBits ≤ 31 :=
  Nat.le_trans fits.cap (maxScale_le v)

variable {p : Put} {v : RansVariant} {e : RansEncoder} {s : Nat × List UInt8}

theorem step_lt (fits : p.Fits v) (hs : s.1 < 2 ^ v.stateBits) : (p.step v s).1 < 2 ^ v.stateBits :=
  push_word fits.freq fits.range (v.scale_le_stateBits fits.scale) (v.settled_lt fits.freq fits.scale hs)

theorem raw_threshold (fits : p.Fits v) : u32 (p.freq <<< (31 - p.scaleBits)) = p.freq * 2 ^ (31 - p.scaleBits) := by
  have le := threshold_le fits.range fits.scale
  rw [Nat.shiftLeft_eq]
  exact u32_of_lt (by omega)

theorem raw_threshold64 (fits : p.Fits v) :
    u64 (p.freq <<< (63 - p.scaleBits)) = p.freq * 2 ^ (63 - p.scaleBits) := by
  have le := threshold_le fits.range (show p.scaleBits ≤ 63 by have := fits.scale; omega)
  rw [Nat.shiftLeft_eq]
  exact u64_of_lt (by omega)

/-- The 64-bit symbol keeps the upper half of its threshold. -/
theorem sym_threshold64 (fits : p.Fits v) :
    u64 (u32 (p.freq <<< (31 - p.scaleBits)) <<< 32) = p.freq * 2 ^ (63 - p.scaleBits) := by
  have le := threshold_le fits.range (show p.scaleBits ≤ 63 by have := fits.scale; omega)
  have split : p.freq * 2 ^ (31 - p.scaleBits) * 2 ^ 32 = p.freq * 2 ^ (63 - p.scaleBits) := by
    have := fits.scale
    rw [Nat.mul_assoc, ← Nat.pow_add]; congr 2; omega
  rw [raw_threshold fits, Nat.shiftLeft_eq, split]
  exact u64_of_lt (by omega)

theorem encSymInit_xMaxHi (v : RansVariant) (start freq bits : Nat) :
    (encSymInit v start freq bits).xMaxHi = u32 (freq <<< (31 - bits)) := by
  cases v <;> simp only [encSymInit, encSymInitByte, encSymInit64, kByteStateBits] <;> split <;> rfl

theorem renormByte_settled (h : e.Shows .byte s) (hs : s.1 < 2 ^ RansVariant.byte.stateBits) :
    (e.renormByte (p.freq * 2 ^ (31 - p.scaleBits))).Shows .byte
      (RansVariant.settled .byte p.scaleBits p.freq s.1,
        RansVariant.shedBytes .byte p.scaleBits p.freq s.1 ++ s.2) :=
  RansEncoder.renormByte_shows h (Nat.lt_of_lt_of_le hs (by decide))

theorem renorm64_settled (h : e.Shows .rans64 s) :
    (e.renorm64 (p.freq * 2 ^ (63 - p.scaleBits))).Shows .rans64
      (RansVariant.settled .rans64 p.scaleBits p.freq s.1,
        RansVariant.shedBytes .rans64 p.scaleBits p.freq s.1 ++ s.2) :=
  RansEncoder.renorm64_shows h

/-- A settled byte state is a word. -/
theorem settled_word (fits : p.Fits .byte) (hs : s.1 < 2 ^ RansVariant.byte.stateBits) :
    u32 (RansVariant.settled .byte p.scaleBits p.freq s.1) =
      RansVariant.settled .byte p.scaleBits p.freq s.1 := by
  have settled : _ < p.freq * 2 ^ (31 - p.scaleBits) := RansVariant.settled_lt .byte fits.freq fits.scale hs
  have le := threshold_le fits.range fits.scale
  exact u32_of_lt (by omega)

theorem raw_shows (h : e.Shows v s) (fits : p.Fits v) (hs : s.1 < 2 ^ v.stateBits) :
    (e.putRaw p.start p.freq p.scaleBits).Shows v (p.step v s) := by
  have out := step_lt fits hs
  have division : v.settled p.scaleBits p.freq s.1 / p.freq * 2 ^ p.scaleBits + p.start +
      v.settled p.scaleBits p.freq s.1 % p.freq = (p.step v s).1 := rfl
  simp only [RansEncoder.putRaw, h.variant]
  cases v with
  | byte =>
    have renormed := renormByte_settled (p := p) h hs
    simp only [kByteStateBits, raw_threshold fits, renormed.state]
    rw [settled_word fits hs, Nat.shiftLeft_eq, division, u32_of_lt (Nat.lt_of_lt_of_le out (by decide))]
    exact renormed.with_state _
  | rans64 =>
    have renormed := renorm64_settled (p := p) h
    simp only [raw_threshold64 fits, renormed.state]
    rw [Nat.shiftLeft_eq, division, u64_of_lt (Nat.lt_of_lt_of_le out (by decide))]
    exact renormed.with_state _

/-- Whether the reciprocal applies: not to frequency one in state zero. -/
def Live (v : RansVariant) (p : Put) (x : Nat) : Prop := 1 < p.freq ∨ 0 < v.settled p.scaleBits p.freq x

theorem sym_shows (h : e.Shows v s) (fits : p.Fits v) (hs : s.1 < 2 ^ v.stateBits) (live : p.Live v s.1) :
    (e.putSym (encSymInit v p.start p.freq p.scaleBits)).Shows v (p.step v s) := by
  have settled := v.settled_lt fits.freq fits.scale hs
  have threshold := encSymInit_xMaxHi v p.start p.freq p.scaleBits
  simp only [RansEncoder.putSym, h.variant]
  cases v with
  | byte =>
    have renormed := renormByte_settled (p := p) h hs
    simp only [RansEncoder.putSymByte, threshold, raw_threshold fits, renormed.state]
    rw [settled_word fits hs]
    simp only [encSymInit]
    rw [symByte_push fits.freq fits.range fits.scale settled live]
    exact renormed.with_state _
  | rans64 =>
    have renormed := renorm64_settled (p := p) h
    simp only [RansEncoder.putSym64, threshold, sym_threshold64 fits, renormed.state]
    simp only [encSymInit]
    rw [sym64_push fits.freq fits.range fits.scale settled live]
    exact renormed.with_state _

/-- **Every coding step of the encoder is the stack's push.** -/
theorem apply_shows (h : e.Shows v s) (fits : p.Fits v) (hs : s.1 < 2 ^ v.stateBits)
    (live : p.raw = true ∨ p.Live v s.1) : (p.apply e).Shows v (p.step v s) := by
  simp only [apply]
  split
  · exact raw_shows h fits hs
  · rename_i sym
    rw [h.variant]
    exact sym_shows h fits hs (live.resolve_left sym)

end Put

end Rkvc.Mlvc
