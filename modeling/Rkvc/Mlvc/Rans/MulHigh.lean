import Rkvc.Mlvc.Rans.Encoder

/-!
# The portable high multiply

`mul64hi` of a build without `__int128`. The sum of the cross products is kept
in 64 bits and loses its carry: the product's high word is right exactly when
that sum fits (`mul64hiPortable_eq_iff`). A run of the encoder whose multiplies
all fit writes the stream of the other build (`encodeWith_portable`).
-/

namespace Rkvc.Mlvc
set_option autoImplicit false
open Lib

/-- The branch of `mul64hi` without `__int128`. -/
def mul64hiPortable (a b : Nat) : Nat :=
  let aLo := u32 a
  let aHi := a >>> 32
  let bLo := u32 b
  let bHi := b >>> 32
  let lo := u64 (aLo * bLo)
  let mid := u64 (u64 (u64 (aHi * bLo) + u64 (aLo * bHi)) + lo >>> 32)
  u64 (u64 (aHi * bHi) + mid >>> 32)

/-- The sum of the cross products and the low carry is a word. -/
def NoCarry (a b : Nat) : Prop := (a >>> 32) * u32 b + u32 a * (b >>> 32) + (u32 a * u32 b) >>> 32 < 2 ^ 64

instance (a b : Nat) : Decidable (NoCarry a b) := inferInstanceAs (Decidable (_ < _))

/-! ## One product -/

section Product
variable {a b : Nat}

/-- The product of two words of two halves. -/
theorem product_halves (a b : Nat) :
    a * b = (a / 2 ^ 32 * (b / 2 ^ 32)) * 2 ^ 64 +
      (a / 2 ^ 32 * (b % 2 ^ 32) + a % 2 ^ 32 * (b / 2 ^ 32)) * 2 ^ 32 + a % 2 ^ 32 * (b % 2 ^ 32) := by
  have ha := Nat.div_add_mod a (2 ^ 32)
  have hb := Nat.div_add_mod b (2 ^ 32)
  calc a * b = (2 ^ 32 * (a / 2 ^ 32) + a % 2 ^ 32) * (2 ^ 32 * (b / 2 ^ 32) + b % 2 ^ 32) := by rw [ha, hb]
    _ = _ := by ring

/-- The high word from the upper product and the middle sum. -/
theorem product_high (a b : Nat) : a * b / 2 ^ 64 = (a >>> 32) * (b >>> 32) +
    ((a >>> 32) * u32 b + u32 a * (b >>> 32) + (u32 a * u32 b) >>> 32) / 2 ^ 32 := by
  have halves := product_halves a b
  simp only [Nat.shiftRight_eq_div_pow, u32]
  generalize a / 2 ^ 32 * (b / 2 ^ 32) = top at halves ⊢
  generalize a / 2 ^ 32 * (b % 2 ^ 32) + a % 2 ^ 32 * (b / 2 ^ 32) = cross at halves ⊢
  generalize a % 2 ^ 32 * (b % 2 ^ 32) = low at halves ⊢
  omega

/-- The portable high word, from the middle sum without its carry. -/
theorem mul64hiPortable_eq (a b : Nat) : mul64hiPortable a b = ((a >>> 32) * (b >>> 32) +
    ((a >>> 32) * u32 b + u32 a * (b >>> 32) + (u32 a * u32 b) >>> 32) % 2 ^ 64 / 2 ^ 32) % 2 ^ 64 := by
  have low : u64 (u32 a * u32 b) = u32 a * u32 b := by
    apply u64_of_lt
    calc u32 a * u32 b < 2 ^ 32 * 2 ^ 32 := Nat.mul_lt_mul'' (u32_lt a) (u32_lt b)
      _ = 2 ^ 64 := by decide
  simp only [mul64hiPortable, low]
  simp only [u64, Nat.mod_add_mod, Nat.add_mod_mod]
  rw [Nat.shiftRight_eq_div_pow (_ % 2 ^ 64)]

/-- Where the middle sum is a word, both builds multiply alike. -/
theorem mul64hiPortable_of_noCarry (fits : NoCarry a b) : mul64hiPortable a b = mul64hi a b := by
  rw [mul64hiPortable_eq, mul64hi, u64, Nat.shiftRight_eq_div_pow (a * b), product_high, Nat.mod_eq_of_lt fits]

theorem mul64hi_eq (ha : a < 2 ^ 64) (hb : b < 2 ^ 64) : mul64hi a b = a * b / 2 ^ 64 := by
  rw [mul64hi, Nat.shiftRight_eq_div_pow]
  apply u64_of_lt
  apply Nat.div_lt_of_lt_mul
  exact Nat.mul_lt_mul'' ha hb

/-- The middle sum of two words is less than two words. -/
theorem middle_lt (ha : a < 2 ^ 64) (hb : b < 2 ^ 64) :
    (a >>> 32) * u32 b + u32 a * (b >>> 32) + (u32 a * u32 b) >>> 32 < 2 * 2 ^ 64 := by
  have aLo := u32_lt a
  have bLo := u32_lt b
  simp only [Nat.shiftRight_eq_div_pow]
  have left : a / 2 ^ 32 * u32 b ≤ (2 ^ 32 - 1) * (2 ^ 32 - 1) := Nat.mul_le_mul (by omega) (by omega)
  have right : u32 a * (b / 2 ^ 32) ≤ (2 ^ 32 - 1) * (2 ^ 32 - 1) := Nat.mul_le_mul (by omega) (by omega)
  have low : u32 a * u32 b ≤ (2 ^ 32 - 1) * (2 ^ 32 - 1) := Nat.mul_le_mul (by omega) (by omega)
  omega

/-- **The portable multiply is right exactly when no carry is lost.** -/
theorem mul64hiPortable_eq_iff (ha : a < 2 ^ 64) (hb : b < 2 ^ 64) :
    mul64hiPortable a b = a * b / 2 ^ 64 ↔ NoCarry a b := by
  constructor
  · intro same
    have below : a * b / 2 ^ 64 < 2 ^ 64 := Nat.div_lt_of_lt_mul (Nat.mul_lt_mul'' ha hb)
    have middle := middle_lt ha hb
    rw [mul64hiPortable_eq, product_high] at same
    rw [product_high] at below
    rw [NoCarry]
    omega
  · intro fits
    rw [mul64hiPortable_of_noCarry fits, mul64hi_eq ha hb]

end Product

/-! ## The encoder of a build -/

namespace RansEncoder

/-- `put_sym_64` with the build's multiply. -/
def putSym64With (mul : Nat → Nat → Nat) (e : RansEncoder) (s : RansEncSym) : RansEncoder :=
  let xMax := u64 (s.xMaxHi <<< 32)
  let e := e.renorm64 xMax
  let x := e.state
  let rcp := u64 (s.freqRcpHi <<< 32) ||| s.freqRcp
  let q := mul x rcp >>> s.freqRcpShift
  { e with state := u64 (x + q * s.freqCmpl + s.bias) }

/-- The operands of the multiply. -/
def factors (e : RansEncoder) (s : RansEncSym) : Nat × Nat :=
  ((e.renorm64 (u64 (s.xMaxHi <<< 32))).state, u64 (s.freqRcpHi <<< 32) ||| s.freqRcp)

def putSymWith (mul : Nat → Nat → Nat) (e : RansEncoder) (s : RansEncSym) : RansEncoder :=
  match e.variant with
  | .byte => e.putSymByte s
  | .rans64 => e.putSym64With mul s

/-- The encoder behind a value's bypass digits, and the symbol it puts next. -/
def nextSym (c : RansCoder) (index value : Int32) (e : RansEncoder) : RansEncoder × RansEncSym :=
  let desc := c.dist index.toInt.toNat
  let value := i32 (value.toInt + desc.valueOffset.toInt)
  let (e, value) :=
    if value < 0 ∨ value ≥ desc.bypassSentinel then
      (e.bypass c (foldBypass desc.bypassSentinel value), desc.bypassSentinel)
    else (e, value.toNat)
  (e, c.encSyms.getD (desc.encSymOffset + value) {})

/-- The loop body of `encode`. -/
def encodeOneWith (mul : Nat → Nat → Nat) (c : RansCoder) (index value : Int32) (e : RansEncoder) :
    Status × RansEncoder :=
  if index.toInt < 0 then (.ok, e)
  else
    let (e, sym) := nextSym c index value e
    let e := e.putSymWith mul sym
    if e.oom then (.nomem, e) else (.ok, e)

/-- The loop of `encode`, which runs from the last value to the first. -/
def encodeLoopWith (mul : Nat → Nat → Nat) (c : RansCoder) :
    List Int32 → List Int32 → RansEncoder → Status × RansEncoder
  | index :: indices, value :: values, e =>
    match encodeLoopWith mul c indices values e with
    | (.ok, e) => encodeOneWith mul c index value e
    | failed => failed
  | _, _, e => (.ok, e)

def encodeWith (mul : Nat → Nat → Nat) (c : RansCoder) (indices values : List Int32) (e : RansEncoder) :
    Status × RansEncoder :=
  if indices.length ≠ values.length then (.invalid, e)
  else if c.dists.isEmpty || c.encSyms.isEmpty then (.invalid, e)
  else if e.flushed || e.oom || e.buf.isEmpty then (.invalid, e)
  else encodeLoopWith mul c indices values e

/-- What a fresh encoder writes. -/
def streamWith (mul : Nat → Nat → Nat) (c : RansCoder) (capacity : Nat) (indices values : List Int32) :
    Status × List UInt8 :=
  match encodeWith mul c indices values (new c.variant capacity) with
  | (.ok, e) => (e.flush.1, e.flush.2.1)
  | (failed, _) => (failed, [])

/-- The products of one value's step: none for the byte variant. -/
def productsOne (c : RansCoder) (index value : Int32) (e : RansEncoder) : List (Nat × Nat) :=
  if index.toInt < 0 then []
  else
    match (nextSym c index value e).1.variant with
    | .byte => []
    | .rans64 => [(nextSym c index value e).1.factors (nextSym c index value e).2]

/-- The products of a run of `encode`. -/
def products (c : RansCoder) : List Int32 → List Int32 → RansEncoder → List (Nat × Nat)
  | index :: indices, value :: values, e =>
    products c indices values e ++
      match encodeLoop c indices values e with
      | (.ok, e) => productsOne c index value e
      | _ => []
  | _, _, _ => []

/-- The loop body is that of the encoder with a multiply of 128 bits. -/
theorem encodeOneWith_mul64hi (c : RansCoder) (index value : Int32) (e : RansEncoder) :
    encodeOneWith mul64hi c index value e = encodeOne c index value e := by
  simp only [encodeOneWith, encodeOne, nextSym]
  split
  · rfl
  · split <;> rfl

theorem encodeLoopWith_mul64hi (c : RansCoder) (indices values : List Int32) (e : RansEncoder) :
    encodeLoopWith mul64hi c indices values e = encodeLoop c indices values e := by
  induction indices generalizing values with
  | nil => rfl
  | cons index indices ih =>
    cases values with
    | nil => rfl
    | cons value values =>
      obtain ⟨⟨status, e'⟩, ran⟩ : ∃ r, encodeLoop c indices values e = r := ⟨_, rfl⟩
      cases status <;> simp only [encodeLoopWith, encodeLoop, ih, ran, encodeOneWith_mul64hi]

/-- **The two encoders are one** with a multiply of 128 bits. -/
theorem encodeWith_mul64hi (c : RansCoder) (indices values : List Int32) (e : RansEncoder) :
    encodeWith mul64hi c indices values e = encode c indices values e := by
  simp only [encodeWith, encode, encodeLoopWith_mul64hi]

section Portable
variable {c : RansCoder}

/-- A step whose product loses no carry is that of the other build. -/
theorem putSymWith_portable {e : RansEncoder} {s : RansEncSym}
    (fits : e.variant = .rans64 → NoCarry (e.factors s).1 (e.factors s).2) :
    e.putSymWith mul64hiPortable s = e.putSymWith mul64hi s := by
  simp only [putSymWith]
  cases hv : e.variant with
  | byte => rfl
  | rans64 =>
    have same := mul64hiPortable_of_noCarry (fits hv)
    rw [factors] at same
    simp only [putSym64With, same]

theorem encodeOneWith_portable {index value : Int32} {e : RansEncoder}
    (fits : ∀ p ∈ productsOne c index value e, NoCarry p.1 p.2) :
    encodeOneWith mul64hiPortable c index value e = encodeOneWith mul64hi c index value e := by
  simp only [encodeOneWith]
  split
  · rfl
  · rename_i live
    rw [putSymWith_portable]
    intro hv
    apply fits
    simp only [productsOne, if_neg live, hv, List.mem_singleton]

theorem encodeLoopWith_portable {indices values : List Int32} {e : RansEncoder}
    (fits : ∀ p ∈ products c indices values e, NoCarry p.1 p.2) :
    encodeLoopWith mul64hiPortable c indices values e = encodeLoopWith mul64hi c indices values e := by
  induction indices generalizing values with
  | nil => rfl
  | cons index indices ih =>
    cases values with
    | nil => rfl
    | cons value values =>
      simp only [products, List.mem_append] at fits
      have before := ih fun p mem => fits p (Or.inl mem)
      simp only [encodeLoopWith, before]
      rw [← encodeLoopWith_mul64hi] at fits
      split
      · rename_i e' ran
        rw [ran] at fits
        exact encodeOneWith_portable fun p mem => fits p (Or.inr mem)
      · rfl

/-- A run whose products lose no carry is that of the other build. -/
theorem encodeWith_portable {indices values : List Int32} {e : RansEncoder}
    (fits : ∀ p ∈ products c indices values e, NoCarry p.1 p.2) :
    encodeWith mul64hiPortable c indices values e = encode c indices values e := by
  rw [← encodeWith_mul64hi]
  simp only [encodeWith, encodeLoopWith_portable fits]

end Portable

/-- **The portable build**: it multiplies as the other exactly where no carry is lost, and a run that loses none is
the other build's run. -/
theorem portable_spec {a b : Nat} (ha : a < 2 ^ 64) (hb : b < 2 ^ 64) (c : RansCoder) (indices values : List Int32)
    (e : RansEncoder) :
    mul64hi a b = a * b / 2 ^ 64 ∧ (mul64hiPortable a b = a * b / 2 ^ 64 ↔ NoCarry a b) ∧
      ((∀ p ∈ products c indices values e, NoCarry p.1 p.2) →
        encodeWith mul64hiPortable c indices values e = encode c indices values e) :=
  ⟨mul64hi_eq ha hb, mul64hiPortable_eq_iff ha hb, encodeWith_portable⟩

/-- Three symbols of frequencies eleven, one and one at five bits. -/
def unevenCoder : Option RansCoder := (RansCoder.create .rans64 [3] [0] [11, 1, 1] 5 2).toOption

/-- Halves whose cross products stay below the word, and a run of one value. -/
theorem portable_spec_one :
    mul64hiPortable (2 ^ 63 - 1) (2 ^ 63 + 1) = (2 ^ 63 - 1) * (2 ^ 63 + 1) / 2 ^ 64 ∧
      ∃ c, unevenCoder = some c ∧
        encodeWith mul64hiPortable c [0] [1] (new .rans64 512) = encode c [0] [1] (new .rans64 512) := by
  have fits : ∀ c ∈ unevenCoder, ∀ p ∈ products c [0] [1] (new .rans64 512), NoCarry p.1 p.2 := by decide +kernel
  have made : unevenCoder.isSome := by decide +kernel
  obtain ⟨c, hc⟩ := Option.isSome_iff_exists.1 made
  obtain ⟨-, product, stream⟩ := @portable_spec (2 ^ 63 - 1) (2 ^ 63 + 1) (by decide) (by decide) c [0] [1] (new .rans64 512)
  exact ⟨product.2 (by decide), c, hc, stream (fits c hc)⟩

/-- The eighth symbol of this run loses a carry, and the streams of the two builds differ. -/
theorem portable_loses :
    ¬(mul64hiPortable 0xc4f3e1ff63116b (2 ^ 64 - 1) = 0xc4f3e1ff63116b * (2 ^ 64 - 1) / 2 ^ 64) ∧
      (unevenCoder.map fun c => products c [0, 0, 0, 0, 0, 0, 0, 0] [1, 1, 1, 0, 0, 0, 1, 1] (new .rans64 512)).bind
        List.getLast? = some (0xc4f3e1ff63116b, 2 ^ 64 - 1) ∧
      (unevenCoder.map fun c => streamWith mul64hiPortable c 512 [0, 0, 0, 0, 0, 0, 0, 0] [1, 1, 1, 0, 0, 0, 1, 1]) ≠
        unevenCoder.map fun c => streamWith mul64hi c 512 [0, 0, 0, 0, 0, 0, 0, 0] [1, 1, 1, 0, 0, 0, 1, 1] := by
  decide +kernel

end RansEncoder

end Rkvc.Mlvc
