import Rkvc.Mlvc.Rans.Interval

/-!
# The decoder undoes the encoder

A decoder that shows the stack after a coding step reads the step's symbol and
shows the stack before it (`RansDecoder.advance_step`). From this the bypass
code, one value, one segment and a list of segments follow in the order they
were coded, last first (`decode_encode`).
-/

namespace Rkvc.Mlvc
set_option autoImplicit false
open Lib Lib.Ans

namespace RansDecoder
variable {v : RansVariant} {p : Put} {s : Nat × List UInt8} {d : RansDecoder}

/-! ## One step -/

theorem and_scale {x b : Nat} (hb : b ≤ 31) : x &&& (u32 (1 <<< b) - 1) = x % 2 ^ b := by
  rw [scale_word hb, Nat.and_two_pow_sub_one_eq_mod]

theorem u32_mod_scale {x b : Nat} (hb : b ≤ 31) : u32 x % 2 ^ b = x % 2 ^ b :=
  Nat.mod_mod_of_dvd x (Nat.pow_dvd_pow 2 (by omega))

/-- The low bits of a coded state lie in the step's range. -/
theorem get_step (h : d.Shows v (p.step v s)) (fits : p.Fits v) :
    ∃ r, r < p.freq ∧ d.get p.scaleBits = p.start + r := by
  refine ⟨v.settled p.scaleBits p.freq s.1 % p.freq, Nat.mod_lt _ fits.freq, ?_⟩
  rw [get, and_scale fits.scale, u32_mod_scale fits.scale, h.state]
  exact push_mod fits.freq fits.range _

/-- `while (x < kByteLower)` reads the digits a refill takes. -/
theorem refillByte_spec (fuel : Nat) {ds : List Nat} {n x y : Nat} {bytes : List UInt8}
    (h : d.Reads .byte (ds.flatMap (RansVariant.unit .byte) ++ bytes)) (digits : ∀ u ∈ ds, u < 256)
    (hx : x < 2 ^ 31) (filled : refill 256 kByteLower n x ds = some (y, [])) (enough : ds.length < fuel) :
    ∃ d', refillByte fuel x d = (some y, d') ∧ d'.Reads .byte bytes ∧ d' = { d with pos := d'.pos } := by
  induction ds generalizing n fuel x d with
  | nil =>
    obtain ⟨fuel, rfl⟩ : ∃ m, fuel = m + 1 := ⟨fuel - 1, by simp at enough; omega⟩
    have full : kByteLower ≤ x := by
      by_contra low
      rw [refill.eq_def, if_neg low] at filled
      cases n <;> cases filled
    rw [refill_stop full] at filled
    simp only [Option.some.injEq, Prod.mk.injEq, and_true] at filled
    subst filled
    exact ⟨d, by rw [refillByte, if_neg (by omega)], h, rfl⟩
  | cons u ds ih =>
    obtain ⟨fuel, rfl⟩ : ∃ m, fuel = m + 1 := ⟨fuel - 1, by simp at enough; omega⟩
    have low : x < kByteLower := by
      by_contra full
      rw [refill_stop (by omega)] at filled
      simp at filled
    obtain ⟨n, rfl⟩ : ∃ m, n = m + 1 := by
      cases n with
      | zero => rw [refill.eq_def, if_neg (by omega)] at filled; cases filled
      | succ n => exact ⟨n, rfl⟩
    have digit := digits u List.mem_cons_self
    rw [refill_read low] at filled
    rw [List.flatMap_cons, List.append_assoc] at h
    obtain ⟨d1, read, reads, same⟩ := h.readUnit digit
    have read_byte : d.readByte = some (u, d1) := by
      rw [← read, RansDecoder.readUnit, h.variant]
    have bound : x < 2 ^ 23 := low
    have next : u32 (u32 (x <<< 8) + u) = x * 256 + u := by
      rw [Nat.shiftLeft_eq, u32_of_lt (n := x * 2 ^ 8) (by omega)]
      exact u32_of_lt (by omega)
    obtain ⟨d2, loop, reads2, same2⟩ := ih fuel (x := x * 256 + u) reads
      (fun w hw => digits w (List.mem_cons_of_mem u hw)) (by omega) filled
      (by simp only [List.length_cons] at enough; omega)
    refine ⟨d2, ?_, reads2, by rw [same2, same]⟩
    rw [refillByte, if_pos low, read_byte]
    simp only [next, loop]

/-- The value `advance` refills from. -/
theorem pop_word {w x start freq b n : Nat} (popped : pop (2 ^ b) freq start x < 2 ^ n)
    (le : start ≤ freq * (x / 2 ^ b) + x % 2 ^ b) (hn : n ≤ w) (hs : start ≤ 2 ^ w) :
    (freq * (x >>> b) + x % 2 ^ b + (2 ^ w - start)) % 2 ^ w = pop (2 ^ b) freq start x := by
  have room : 2 ^ n ≤ 2 ^ w := Nat.pow_le_pow_right (by decide) hn
  rw [Nat.shiftRight_eq_div_pow]
  simp only [pop] at popped ⊢
  rw [show freq * (x / 2 ^ b) + x % 2 ^ b + (2 ^ w - start) = freq * (x / 2 ^ b) + x % 2 ^ b - start + 2 ^ w by
    omega, Nat.add_mod_right, Nat.mod_eq_of_lt (by omega)]

/-- The word `advance` computes from a coded state is the settled state. -/
theorem settled_of_step (fits : p.Fits v) (hs : s.1 < 2 ^ v.stateBits) {w : Nat} (hw : v.stateBits ≤ w) :
    (p.freq * ((p.step v s).1 >>> p.scaleBits) + (p.step v s).1 % 2 ^ p.scaleBits + (2 ^ w - p.start)) % 2 ^ w =
      v.settled p.scaleBits p.freq s.1 := by
  have popped := pop_push fits.freq fits.range (v.settled p.scaleBits p.freq s.1)
  have low := push_mod fits.freq fits.range (v.settled p.scaleBits p.freq s.1)
  have wide : 2 ^ p.scaleBits ≤ 2 ^ w :=
    Nat.pow_le_pow_right (by decide) (Nat.le_trans (v.scale_le_stateBits fits.scale) hw)
  have small : v.settled p.scaleBits p.freq s.1 < 2 ^ v.stateBits :=
    Nat.lt_of_lt_of_le (v.settled_lt fits.freq fits.scale hs)
      (threshold_le fits.range (v.scale_le_stateBits fits.scale))
  have range := fits.range
  simp only [Put.step]
  rw [pop_word (n := v.stateBits) (by rw [popped]; exact small) (by rw [low]; omega) hw (by omega), popped]

/-- **Advancing over a coded step restores the stack before it.** -/
theorem advance_step (h : d.Shows v (p.step v s)) (fits : p.Fits v) (hs : v.Interval s.1) :
    ∃ d', d.advance p.start p.freq p.scaleBits = (true, d') ∧ d'.Shows v s := by
  obtain ⟨lo, hi⟩ := hs
  have word_lt := Put.step_lt fits hi
  cases v with
  | byte =>
    have word : u32 (p.step .byte s).1 = (p.step .byte s).1 :=
      u32_of_lt (Nat.lt_of_lt_of_le word_lt (by decide))
    have settled : u32 _ = _ := settled_of_step (w := 32) fits hi (by decide)
    have small : RansVariant.settled .byte p.scaleBits p.freq s.1 < 2 ^ 31 :=
      Nat.lt_of_lt_of_le (RansVariant.settled_lt .byte fits.freq fits.scale hi)
        (threshold_le fits.range fits.scale)
    have filled := refill_shed (B := 256) (L := kByteLower) (p.freq * 2 ^ (31 - p.scaleBits)) 4 [] lo hi
    rw [List.append_nil] at filled
    have len := h.reads.length
    simp only [Put.step, RansVariant.shedBytes, List.length_append, RansVariant.flatMap_unit_length,
      RansVariant.unitBytes, Nat.mul_one] at len
    obtain ⟨d', loop, reads, same⟩ := refillByte_spec (d.data.length - d.pos + 1) h.reads
      (fun u hu => shed_digit_lt (by decide) u (List.mem_reverse.1 hu)) small filled (by omega)
    refine ⟨{ d' with state := s.1 }, ?_, ⟨by rw [same]; exact h.opened, rfl, reads.with_state _⟩⟩
    simp only [advance, h.reads.variant, h.state, word, and_scale fits.scale, settled, loop]
  | rans64 =>
    have settled : u64 _ = _ := settled_of_step (w := 64) fits hi (by decide)
    have value : u32 ((p.step .rans64 s).1 % 2 ^ p.scaleBits) = (p.step .rans64 s).1 % 2 ^ p.scaleBits := by
      have cap : 2 ^ p.scaleBits ≤ 2 ^ 31 := Nat.pow_le_pow_right (by decide) fits.scale
      have := Nat.mod_lt (p.step .rans64 s).1 (Nat.two_pow_pos p.scaleBits)
      exact u32_of_lt (by omega)
    have lower : s.1 ≥ 2 ^ 31 := lo
    have upper : s.1 < 2 ^ 63 := hi
    by_cases shed_one : s.1 ≥ p.freq * 2 ^ (63 - p.scaleBits)
    · have state : RansVariant.settled .rans64 p.scaleBits p.freq s.1 = s.1 / 256 ^ 4 := by
        simp only [RansVariant.settled, RansVariant.rounds, RansVariant.stateBits, shed]
        rw [if_pos shed_one]
        rfl
      have bytes : (p.step .rans64 s).2 = RansVariant.unit .rans64 (s.1 % 256 ^ 4) ++ s.2 := by
        simp only [Put.step, RansVariant.shedBytes, RansVariant.rounds, RansVariant.stateBits, shed]
        rw [if_pos shed_one]
        simp [RansVariant.base, RansVariant.unitBytes]
      have reads := h.reads
      rw [bytes] at reads
      obtain ⟨d', read, left, same⟩ := reads.readUnit (Nat.mod_lt _ (by decide))
      have read_unit : d.readUnit32 = some (s.1 % 256 ^ 4, d') := by
        rw [← read, RansDecoder.readUnit, reads.variant]
      have low : s.1 / 256 ^ 4 < k64Lower := by
        simp only [k64Lower]
        omega
      have next : u64 (u64 ((s.1 / 256 ^ 4) <<< 32) + s.1 % 256 ^ 4) = s.1 := by
        rw [Nat.shiftLeft_eq, u64_of_lt (n := s.1 / 256 ^ 4 * 2 ^ 32) (by omega), u64_of_lt (by omega)]
        omega
      refine ⟨{ d' with state := s.1 }, ?_, ⟨by rw [same]; exact h.opened, rfl, left.with_state _⟩⟩
      simp only [advance, h.reads.variant, h.state, and_scale fits.scale, value, settled, state, if_pos low,
        read_unit, next]
    · have state : RansVariant.settled .rans64 p.scaleBits p.freq s.1 = s.1 := by
        simp only [RansVariant.settled, RansVariant.rounds, RansVariant.stateBits, shed]
        rw [if_neg shed_one]
      have bytes : (p.step .rans64 s).2 = s.2 := by
        simp only [Put.step, RansVariant.shedBytes, RansVariant.rounds, RansVariant.stateBits, shed]
        rw [if_neg shed_one]
        rfl
      have high : ¬s.1 < k64Lower := by
        simp only [k64Lower]
        omega
      have reads := h.reads
      rw [bytes] at reads
      refine ⟨{ d with state := s.1 }, ?_, ⟨h.opened, rfl, reads.with_state _⟩⟩
      simp only [advance, h.reads.variant, h.state, and_scale fits.scale, value, settled, state, if_neg high]

/-! ## The bypass code -/

section Bypass
variable {c : RansCoder}

/-- Taking a digit undoes its step. -/
theorem take_step {digit : Nat} (valid : c.Valid) (h : d.Shows c.variant ((digitPut c digit).step c.variant s))
    (hd : digit ≤ c.bypassMax) (hs : c.variant.Interval s.1) :
    ∃ d', d.take c.bypassBits = (some digit, d') ∧ d'.Shows c.variant s := by
  have fits := digitPut_fits valid hd
  obtain ⟨r, hr, value⟩ := get_step h fits
  obtain ⟨d', advanced, shows⟩ := advance_step h fits hs
  obtain rfl : r = 0 := by simpa [digitPut] using hr
  simp only [digitPut, Nat.add_zero] at value advanced
  exact ⟨d', by simp only [take, value, advanced], shows⟩

theorem digits_mem (ds : List Nat) (valid : c.Valid) (narrow : c.bypassBits ≤ c.variant.lowBits)
    (digits : ∀ x ∈ ds, x ≤ c.bypassMax) (hs : c.variant.Interval s.1) :
    c.variant.Interval ((ds.map (digitPut c)).foldl (fun s p => p.step c.variant s) s).1 := by
  apply foldl_step_mem _ _ hs
  · intro p hp
    obtain ⟨x, hx, rfl⟩ := List.mem_map.1 hp
    exact digitPut_fits valid (digits x hx)
  · intro p hp
    obtain ⟨x, hx, rfl⟩ := List.mem_map.1 hp
    exact narrow

/-- A number is its low digit and the rest. -/
theorem or_low_digit (b shift v : Nat) :
    (v % 2 ^ b) <<< shift ||| (v >>> b) <<< (shift + b) = v <<< shift := by
  have low : v % 2 ^ b < 2 ^ b := Nat.mod_lt _ (Nat.two_pow_pos b)
  have glue : v % 2 ^ b ||| (v >>> b) <<< b = v := by
    rw [Nat.or_comm, shiftLeft_or low, Nat.shiftRight_eq_div_pow, Nat.mul_comm]
    exact Nat.div_add_mod v (2 ^ b)
  rw [Nat.add_comm, Nat.shiftLeft_add, ← Nat.shiftLeft_or_distrib, glue]

/-- The digit loop reads the digits of `v` back, lowest first. -/
theorem digitLoop_spec {fuel x : Nat} (shift encoded : Nat) (valid : c.Valid)
    (narrow : c.bypassBits ≤ c.variant.lowBits) (hs : c.variant.Interval s.1)
    (fits : x < 2 ^ (c.bypassBits * fuel)) (word : x <<< shift < 2 ^ 32)
    (h : d.Shows c.variant (((RansEncoder.bypassDigits c fuel x).reverse.map (digitPut c)).foldl
      (fun s p => p.step c.variant s) s)) :
    ∃ d', digitLoop c (RansEncoder.bypassDigits c fuel x).length shift encoded d =
      (some (encoded ||| x <<< shift), d') ∧ d'.Shows c.variant s := by
  induction fuel generalizing x shift encoded d with
  | zero =>
    obtain rfl : x = 0 := by simpa using fits
    exact ⟨d, by simp [RansEncoder.bypassDigits, digitLoop], h⟩
  | succ fuel ih =>
    by_cases zero : x = 0
    · subst zero
      exact ⟨d, by simp [RansEncoder.bypassDigits, digitLoop], by simpa [RansEncoder.bypassDigits] using h⟩
    · simp only [RansEncoder.bypassDigits, ne_eq, zero, not_false_eq_true, if_true] at h ⊢
      rw [List.reverse_cons, List.map_append, List.foldl_append] at h
      have rest_fits : x >>> c.bypassBits < 2 ^ (c.bypassBits * fuel) := by
        rw [Nat.shiftRight_eq_div_pow]
        apply Nat.div_lt_of_lt_mul
        rw [← Nat.pow_add, Nat.add_comm, ← Nat.mul_succ]
        exact fits
      have glue := or_low_digit c.bypassBits shift x
      have mem := digits_mem (RansEncoder.bypassDigits c fuel (x >>> c.bypassBits)).reverse valid narrow
        (fun y hy => bypassDigits_le y (List.mem_reverse.1 hy)) hs
      obtain ⟨d1, taken, shows⟩ := take_step valid h Nat.and_le_right mem
      have low_word : (x % 2 ^ c.bypassBits) <<< shift ≤ x <<< shift := by
        rw [← glue]; exact Nat.left_le_or
      have high_word : (x >>> c.bypassBits) <<< (shift + c.bypassBits) ≤ x <<< shift := by
        rw [← glue]; exact Nat.right_le_or
      obtain ⟨d2, loop, final⟩ := ih (shift + c.bypassBits) _ rest_fits (by omega) shows
      refine ⟨d2, ?_, final⟩
      simp only [List.length_cons, digitLoop, taken, and_bypassMax valid]
      rw [u32_of_lt (by omega), loop, Nat.or_assoc, glue]

theorem count_mem {rest : Nat} (full : Nat) (valid : c.Valid) (narrow : c.bypassBits ≤ c.variant.lowBits)
    (hrest : rest ≤ c.bypassMax) (hs : c.variant.Interval s.1) :
    c.variant.Interval ((digitPut c rest :: List.replicate full (digitPut c c.bypassMax)).foldl
      (fun s p => p.step c.variant s) s).1 := by
  have digits : ∀ x ∈ rest :: List.replicate full c.bypassMax, x ≤ c.bypassMax := by
    intro x hx
    rcases List.mem_cons.1 hx with rfl | hx
    · exact hrest
    · exact Nat.le_of_eq (List.eq_of_mem_replicate hx)
  have mem := digits_mem _ valid narrow digits hs
  rwa [List.map_cons, List.map_replicate] at mem

/-- The count loop adds the full steps and the rest of the digit count. -/
theorem countLoop_spec {rest full : Nat} (maxDigits fuel acc : Nat) (valid : c.Valid)
    (narrow : c.bypassBits ≤ c.variant.lowBits) (hs : c.variant.Interval s.1) (hrest : rest < c.bypassMax)
    (bound : acc + (rest + full * c.bypassMax) ≤ maxDigits) (enough : full < fuel)
    (h : d.Shows c.variant ((digitPut c rest :: List.replicate full (digitPut c c.bypassMax)).foldl
      (fun s p => p.step c.variant s) s)) :
    ∃ d', countLoop c maxDigits fuel c.bypassMax acc d = (some (acc + (rest + full * c.bypassMax)), d') ∧
      d'.Shows c.variant s := by
  have rest_le := Nat.le_of_lt hrest
  induction full generalizing fuel acc d with
  | zero =>
    obtain ⟨fuel, rfl⟩ : ∃ m, fuel = m + 1 := ⟨fuel - 1, by omega⟩
    obtain ⟨d1, taken, shows⟩ := take_step valid h (Nat.le_of_lt hrest) hs
    have small : ¬acc + rest > maxDigits := by omega
    refine ⟨d1, ?_, shows⟩
    rw [countLoop, if_pos rfl, taken]
    simp only [if_neg small, Nat.zero_mul, Nat.add_zero]
    cases fuel with
    | zero => rfl
    | succ fuel => rw [countLoop, if_neg (by omega)]
  | succ full ih =>
    obtain ⟨fuel, rfl⟩ : ∃ m, fuel = m + 1 := ⟨fuel - 1, by omega⟩
    rw [List.replicate_succ', ← List.cons_append, List.foldl_append] at h
    have mem := count_mem full valid narrow rest_le hs
    obtain ⟨d1, taken, shows⟩ := take_step valid h (Nat.le_refl _) mem
    rw [Nat.add_mul, Nat.one_mul] at bound ⊢
    obtain ⟨d2, loop, final⟩ := ih fuel (acc + c.bypassMax) (by omega) (by omega) shows
    have small : ¬acc + c.bypassMax > maxDigits := by omega
    refine ⟨d2, ?_, final⟩
    rw [countLoop, if_pos rfl, taken]
    simp only [if_neg small, loop]
    congr 2
    omega

/-- **The bypass code round trip**, for a value whose digits the decoder admits. -/
theorem bypass_spec {x : Nat} (valid : c.Valid) (narrow : c.bypassBits ≤ c.variant.lowBits)
    (hs : c.variant.Interval s.1) (word : x < 2 ^ 32) (fits : x < 2 ^ (c.bypassBits * 16))
    (admitted : (RansEncoder.bypassDigits c 16 x).length ≤ 32 / c.bypassBits)
    (h : d.Shows c.variant ((bypassPuts c x).foldl (fun s p => p.step c.variant s) s)) :
    ∃ d', d.bypass c = (some x, d') ∧ d'.Shows c.variant s := by
  have max_pos := bypassMax_pos valid
  obtain ⟨rest_lt, total⟩ := splitCount_spec (by omega : 0 < c.bypassMax)
    (Nat.le_refl (RansEncoder.bypassDigits c 16 x).length)
  obtain ⟨rest, hrest⟩ : ∃ r, (RansEncoder.splitCount c.bypassMax (RansEncoder.bypassDigits c 16 x).length
    (RansEncoder.bypassDigits c 16 x).length).1 = r := ⟨_, rfl⟩
  obtain ⟨full, hfull⟩ : ∃ r, (RansEncoder.splitCount c.bypassMax (RansEncoder.bypassDigits c 16 x).length
    (RansEncoder.bypassDigits c 16 x).length).2 = r := ⟨_, rfl⟩
  simp only [bypassPuts, hrest, hfull] at rest_lt total h
  rw [List.foldl_append] at h
  have mem := digits_mem (RansEncoder.bypassDigits c 16 x).reverse valid narrow
    (fun y hy => bypassDigits_le y (List.mem_reverse.1 hy)) hs
  -- the count first, then the digits below it
  obtain ⟨d1, counted, shows⟩ : ∃ d1, (∃ value d0, d.take c.bypassBits = (some value, d0) ∧
      value ≤ 32 / c.bypassBits ∧
      countLoop c (32 / c.bypassBits) (32 / c.bypassBits + 1) value value d0 =
        (some (RansEncoder.bypassDigits c 16 x).length, d1)) ∧
      d1.Shows c.variant (((RansEncoder.bypassDigits c 16 x).reverse.map (digitPut c)).foldl
        (fun s p => p.step c.variant s) s) := by
    cases full with
    | zero =>
      obtain ⟨d1, taken, shows⟩ := take_step valid h (Nat.le_of_lt rest_lt) mem
      refine ⟨d1, ⟨rest, d1, taken, by omega, ?_⟩, shows⟩
      rw [countLoop, if_neg (by omega), ← total, Nat.zero_mul, Nat.add_zero]
    | succ full =>
      rw [List.replicate_succ', ← List.cons_append, List.foldl_append] at h
      have inner := count_mem full valid narrow (Nat.le_of_lt rest_lt) mem
      obtain ⟨d0, taken, top⟩ := take_step valid h (Nat.le_refl _) inner
      rw [Nat.add_mul, Nat.one_mul] at total
      have steps := Nat.le_mul_of_pos_right full (show 0 < c.bypassMax by omega)
      obtain ⟨d1, loop, shows⟩ := countLoop_spec (32 / c.bypassBits) (32 / c.bypassBits + 1) c.bypassMax
        valid narrow mem rest_lt (by omega) (by omega) top
      refine ⟨d1, ⟨c.bypassMax, d0, taken, by omega, ?_⟩, shows⟩
      rw [loop, ← total]
      congr 2
      omega
  obtain ⟨value, d0, taken, bound, loop⟩ := counted
  obtain ⟨d2, digits, final⟩ := digitLoop_spec 0 0 valid narrow hs fits (by simpa using word) shows
  refine ⟨d2, ?_, final⟩
  rw [bypass, taken]
  simp only [loop, digits]
  rw [if_neg (by omega)]
  simp

/-- Every bypassed value has at most as many digits as the decoder admits. -/
def DigitsAdmitted (c : RansCoder) : Prop :=
  ∀ x, x < 2 ^ 32 → (RansEncoder.bypassDigits c 16 x).length ≤ 32 / c.bypassBits

theorem bypassDigits_length_le (fuel x : Nat) : (RansEncoder.bypassDigits c fuel x).length ≤ fuel := by
  induction fuel generalizing x with
  | zero => simp [RansEncoder.bypassDigits]
  | succ fuel ih =>
    simp only [RansEncoder.bypassDigits]
    split
    · simpa using ih (x >>> c.bypassBits)
    · simp

/-- Two-bit digits fill the sixteen the decoder admits. -/
theorem digitsAdmitted_two (two : c.bypassBits = 2) : DigitsAdmitted c := by
  intro x _
  rw [two]
  exact bypassDigits_length_le 16 x

end Bypass

/-! ## One value -/

/-- The binary search finds `k` when exactly the symbols from `k` on end above
`cum`. -/
theorem search_spec {base : List Nat} {cum k n fuel lo hi : Nat}
    (bracket : ∀ mid, mid < n → (base.getD (mid + 1) 0 ≤ cum ↔ mid < k)) (hlo : lo ≤ k) (hhi : k ≤ hi)
    (hn : hi ≤ n) (enough : hi - lo ≤ fuel) : search base cum fuel lo hi = k := by
  induction fuel generalizing lo hi with
  | zero => rw [search]; omega
  | succ fuel ih =>
    simp only [search]
    split
    · have mid := bracket (lo + (hi - lo) / 2) (by omega)
      split
      · rename_i below
        exact ih (by have := mid.1 below; omega) hhi hn (by omega)
      · rename_i above
        exact ih hlo (by have := mt mid.2 above; omega) (by omega) (by omega)
    · omega

section Value
variable {c : RansCoder} {desc : RansDist} {freqs : List Nat}

theorem base_getD {k : Nat} (seg : c.Segment desc freqs) (hk : k ≤ freqs.length) :
    (c.cdfTable.drop desc.decCdfOffset).getD k 0 = starts freqs k := by
  have := seg.cdf k hk
  rw [Nat.sub_zero] at this
  rw [List.getD_eq_getElem?_getD, List.getElem?_drop, this, Option.getD_some]

/-- The decoder's search finds the symbol whose range holds `cum`. -/
theorem search_segment {k f r : Nat} (seg : c.Segment desc freqs) (hf : freqs[k]? = some f) (hr : r < f) :
    search (c.cdfTable.drop desc.decCdfOffset) (starts freqs k + r) (desc.bypassSentinel + 1) 0
      (desc.bypassSentinel + 1) = k := by
  have len := seg.length
  have hk := (List.getElem?_eq_some_iff.1 hf).1
  refine search_spec (n := desc.bypassSentinel + 1) ?_ (by omega) (by omega) (Nat.le_refl _) (by omega)
  intro mid hmid
  rw [base_getD seg (by omega)]
  constructor
  · intro below
    by_contra le
    have := starts_mono freqs (show k + 1 ≤ mid + 1 by omega)
    rw [starts_succ hf] at this
    omega
  · intro lt
    have := starts_mono freqs (show mid + 1 ≤ k by omega)
    omega

theorem toU32_fold_lt (sentinel : Nat) (value : Int) : RansEncoder.foldBypass sentinel value < 2 ^ 32 := by
  simp only [RansEncoder.foldBypass]
  split <;> exact toU32_lt _

theorem bypassPuts_narrow {x : Nat} (bypass : c.bypassBits ≤ c.variant.lowBits) :
    ∀ p ∈ bypassPuts c x, p.Narrow c.variant := by
  intro p hp
  simp only [bypassPuts, List.mem_append, List.mem_map, List.mem_reverse, List.mem_cons,
    List.mem_replicate] at hp
  rcases hp with ⟨y, -, rfl⟩ | rfl | ⟨-, rfl⟩ <;> exact bypass

/-- The bypass code of a value outside the symbols is unfolded to it. -/
theorem unfold_fold {sentinel : Nat} {coded : Int} (small : sentinel < 2 ^ 31) (lo : -2 ^ 31 ≤ coded)
    (hi : coded < 2 ^ 31) (out : coded < 0 ∨ coded ≥ sentinel) :
    unfoldBypass sentinel (RansEncoder.foldBypass sentinel coded) = coded := by
  simp only [unfoldBypass, RansEncoder.foldBypass, Nat.and_one_is_mod, Nat.shiftRight_eq_div_pow]
  by_cases neg : coded < 0
  · simp only [if_pos neg]
    by_cases least : coded = -2 ^ 31
    · have code : toU32 (2 * i32 (-coded) - 1) = 2 ^ 32 - 1 := by subst least; decide
      rw [code, if_pos (by decide), least]
      decide
    · rw [i32_of_range (z := -coded) (by omega) (by omega), toU32_of_range (by omega) (by omega)]
      rw [if_pos (by omega)]
      omega
  · simp only [if_neg neg]
    rw [toU32_of_range (by omega) (by omega), if_neg (by omega), i32_of_range (by omega) (by omega)]
    omega

/-- **Decoding a coded value** gives it back, less the distribution's offset. -/
theorem decodeSymbol_spec {coded : Int} (valid : c.Valid) (seg : c.Segment desc freqs)
    (bypass : c.bypassBits ≤ c.variant.lowBits) (admitted : DigitsAdmitted c) (lo : -2 ^ 31 ≤ coded)
    (hi : coded < 2 ^ 31) (hs : c.variant.Interval s.1)
    (h : d.Shows c.variant ((valuePuts c desc coded).foldl (fun s p => p.step c.variant s) s)) :
    ∃ d', decodeSymbol c desc d = (some (Int32.ofInt (coded - desc.valueOffset.toInt)), d') ∧
      d'.Shows c.variant s := by
  have len := seg.length
  have sentinel_small := seg.sentinel.2
  -- the symbol that was coded, on top of whatever was bypassed
  obtain ⟨k, s1, hk, hs1, top⟩ : ∃ k s1, k ≤ desc.bypassSentinel ∧ c.variant.Interval s1.1 ∧
      d.Shows c.variant ((symPut c desc k).step c.variant s1) ∧
      ((coded < 0 ∨ coded ≥ desc.bypassSentinel) ∧ k = desc.bypassSentinel ∧
          s1 = (bypassPuts c (RansEncoder.foldBypass desc.bypassSentinel coded)).foldl
            (fun s p => p.step c.variant s) s ∨
        ¬(coded < 0 ∨ coded ≥ desc.bypassSentinel) ∧ k = coded.toNat ∧ s1 = s) := by
    by_cases out : coded < 0 ∨ coded ≥ desc.bypassSentinel
    · rw [valuePuts, if_pos out, List.foldl_append] at h
      refine ⟨_, _, Nat.le_refl _, ?_, h, .inl ⟨out, rfl, rfl⟩⟩
      exact foldl_step_mem (bypassPuts_fits valid _) (bypassPuts_narrow bypass) hs
    · rw [valuePuts, if_neg out] at h
      exact ⟨_, s, by omega, hs, h, .inr ⟨out, rfl, rfl⟩⟩
  obtain ⟨shows, cases⟩ := top
  obtain ⟨f, hf⟩ : ∃ f, freqs[k]? = some f := ⟨_, List.getElem?_eq_getElem (by omega)⟩
  have fits := symPut_fits valid seg hk
  obtain ⟨r, hr, value⟩ := get_step shows fits
  obtain ⟨d1, advanced, after⟩ := advance_step shows fits hs1
  rw [symPut_eq seg hf] at hr value advanced
  have found := search_segment seg hf hr
  have start := base_getD (k := k) seg (by omega)
  have next := base_getD (k := k + 1) seg (by omega)
  rw [starts_succ hf] at next
  have range : ¬k > desc.bypassSentinel := by omega
  simp only [decodeSymbol, value, found, if_neg range, start, next, Nat.add_sub_cancel_left, advanced]
  rcases cases with ⟨out, rfl, rfl⟩ | ⟨inside, rfl, rfl⟩
  · obtain ⟨d2, undone, final⟩ := bypass_spec valid bypass hs (toU32_fold_lt _ _)
      (Nat.lt_of_lt_of_le (toU32_fold_lt _ _)
        (Nat.pow_le_pow_right (by decide) (by have := valid.bypass_lo; omega)))
      (admitted _ (toU32_fold_lt _ _)) after
    refine ⟨d2, ?_, final⟩
    simp only [if_true, undone, unfold_fold (by omega) lo hi out]
  · refine ⟨d1, ?_, after⟩
    rw [if_neg (by omega)]
    simp only [Int.toNat_of_nonneg (show 0 ≤ coded by omega)]

/-- Taking the offset off in an `int32_t` undoes adding it in one. -/
theorem ofInt_codedValue (value : Int32) :
    Int32.ofInt (codedValue desc value - desc.valueOffset.toInt) = value := by
  apply Int32.toInt_inj.1
  have size : Int32.size = 2 ^ 32 := rfl
  have lo := value.le_toInt
  have hi := value.toInt_lt
  rw [Int32.toInt_ofInt, codedValue, i32, size, Int.bmod_sub_bmod, Int.add_sub_cancel]
  exact Int.bmod_eq_of_le (by omega) (by omega)

/-- The value a decoder gives for an encoded one: zero where the index is
negative. -/
def decoded (index value : Int32) : Int32 := if index.toInt < 0 then 0 else value

/-- One loop round of `decode` undoes one of `encode`. -/
theorem decodeOne_spec {index value : Int32} (valid : c.Valid) (bypass : c.bypassBits ≤ c.variant.lowBits)
    (admitted : DigitsAdmitted c) (hs : c.variant.Interval s.1)
    (h : d.Shows c.variant ((roundPuts c index value).foldl (fun s p => p.step c.variant s) s)) :
    ∃ d', decodeOne c index d = (some (decoded index value), d') ∧ d'.Shows c.variant s := by
  simp only [decodeOne, decoded]
  by_cases neg : index.toInt < 0
  · rw [roundPuts, if_pos neg] at h
    exact ⟨d, by rw [if_pos neg, if_pos neg], h⟩
  · rw [roundPuts, if_neg neg] at h
    obtain ⟨freqs, seg⟩ := valid.dist_segment index.toInt.toNat
    obtain ⟨lo, hi⟩ := i32_range (value.toInt + (c.dist index.toInt.toNat).valueOffset.toInt)
    obtain ⟨d', symbol, shows⟩ := decodeSymbol_spec valid seg bypass admitted lo hi hs h
    refine ⟨d', ?_, shows⟩
    rw [if_neg neg, if_neg neg, symbol]
    exact congrArg (fun z => (some z, d')) (ofInt_codedValue value)

/-- **The loop of `decode` undoes the loop of `encode`.** -/
theorem decodeLoop_spec {indices values scratch : List Int32} (valid : c.Valid)
    (symbol : c.symbolBits ≤ c.variant.lowBits) (bypass : c.bypassBits ≤ c.variant.lowBits)
    (admitted : DigitsAdmitted c) (len : values.length = indices.length)
    (room : scratch.length = indices.length) (hs : c.variant.Interval s.1)
    (h : d.Shows c.variant ((encodePuts c indices values).foldl (fun s p => p.step c.variant s) s)) :
    ∃ d', decodeLoop c scratch indices d = (.ok, List.zipWith decoded indices values, d') ∧
      d'.Shows c.variant s := by
  induction indices generalizing values scratch d with
  | nil =>
    obtain rfl := List.length_eq_zero_iff.1 len
    obtain rfl := List.length_eq_zero_iff.1 room
    exact ⟨d, rfl, h⟩
  | cons index indices ih =>
    obtain ⟨value, values, rfl⟩ := List.exists_cons_of_length_eq_add_one len
    obtain ⟨old, scratch, rfl⟩ := List.exists_cons_of_length_eq_add_one room
    rw [encodePuts, List.foldl_append] at h
    have width : ∀ p ∈ encodePuts c indices values, p.Narrow c.variant := by
      intro p hp
      rcases encodePuts_width p hp with eq | eq <;> simp only [Put.Narrow, eq, symbol, bypass]
    have mem := foldl_step_mem (encodePuts_fits valid _ _) width hs
    obtain ⟨d1, one, shows⟩ := decodeOne_spec valid bypass admitted mem h
    obtain ⟨d2, loop, final⟩ := ih (by simpa using len)
      (by simpa using room) shows
    exact ⟨d2, by simp only [decodeLoop, one, loop, List.zipWith_cons_cons], final⟩

/-- The guards of `decode` pass for an opened decoder and a valid coder. -/
theorem decode_eq {indices scratch : List Int32} {bytes : List UInt8} {x : Nat} (valid : c.Valid)
    (h : d.Shows c.variant (x, bytes)) (room : scratch.length = indices.length) :
    decode c scratch indices d = decodeLoop c scratch indices d := by
  obtain ⟨freqs, seg⟩ := valid.dist_segment 0
  have cdf : c.cdfTable ≠ [] := by
    intro nil
    have := seg.cdf 0 (Nat.zero_le _)
    simp [nil] at this
  have guard : (!d.opened || c.dists.isEmpty || c.cdfTable.isEmpty) = false := by
    simp [h.opened, valid.dists, cdf]
  simp only [decode, room, guard, ne_eq, not_true_eq_false, if_false, Bool.false_eq_true]

end Value

/-- At the initial stack `check_eof` holds. -/
theorem checkEof_of_shows (h : d.Shows v (v.lower, [])) : d.checkEof = true := by
  have len := h.reads.length
  rw [List.length_nil, Nat.add_zero] at len
  simp only [checkEof, h.opened, len, h.reads.variant, h.state, Bool.not_true, ne_eq, not_true_eq_false,
    decide_false, Bool.or_false, Bool.false_eq_true, if_false]
  cases v <;> decide

end RansDecoder

/-! ## Segments -/

namespace EncodeCall

/-- The values a decoder gives back for a call. -/
def decoded (call : EncodeCall) : List Int32 := List.zipWith RansDecoder.decoded call.indices call.values

end EncodeCall

/-- `decode` on each call's coder and indices in turn, into the given arrays. -/
def decodeAll (scratch : EncodeCall → List Int32) :
    List EncodeCall → RansDecoder → List (Status × List Int32) × RansDecoder
  | [], d => ([], d)
  | call :: calls, d =>
    let (status, values, d) := d.decode call.coder (scratch call) call.indices
    let (rest, d) := decodeAll scratch calls d
    ((status, values) :: rest, d)

/-- A round trip's calls: accepted coders of narrow widths whose bypass digits the
decoder admits, and spans of one size. -/
structure EncodeCall.Sound (v : RansVariant) (call : EncodeCall) : Prop where
  accepted : call.Accepted v
  symbol : call.coder.symbolBits ≤ v.lowBits
  bypass : call.coder.bypassBits ≤ v.lowBits
  admitted : RansDecoder.DigitsAdmitted call.coder
  spans : call.values.length = call.indices.length

/-- A sound call keeps the interval. -/
theorem EncodeCall.Sound.mem {v : RansVariant} {call : EncodeCall} {s : Nat × List UInt8} (sound : call.Sound v)
    (hs : v.Interval s.1) : v.Interval (call.puts.foldl (fun s p => p.step v s) s).1 :=
  foldl_step_mem (EncodeCall.puts_fits sound.accepted) (EncodeCall.puts_narrow sound.symbol sound.bypass) hs

/-- One `decode` call undoes the `encode` call it follows. -/
theorem EncodeCall.Sound.decode_spec {v : RansVariant} {call : EncodeCall} {s : Nat × List UInt8} {d : RansDecoder}
    {scratch : List Int32} (sound : call.Sound v) (room : scratch.length = call.indices.length)
    (hs : v.Interval s.1) (h : d.Shows v (call.puts.foldl (fun s p => p.step v s) s)) :
    ∃ d', d.decode call.coder scratch call.indices = (.ok, call.decoded, d') ∧ d'.Shows v s := by
  obtain ⟨valid, rfl⟩ := sound.accepted.valid
  rw [puts, if_neg (by simp [sound.spans])] at h
  rw [RansDecoder.decode_eq valid h room]
  exact RansDecoder.decodeLoop_spec valid sound.symbol sound.bypass sound.admitted sound.spans room hs h

/-- Decoding the calls in reverse order unwinds the stack. -/
theorem decodeAll_spec {v : RansVariant} {calls : List EncodeCall} {scratch : EncodeCall → List Int32}
    {s : Nat × List UInt8} {d : RansDecoder} (sound : ∀ call ∈ calls, call.Sound v)
    (room : ∀ call ∈ calls, (scratch call).length = call.indices.length) (hs : v.Interval s.1)
    (h : d.Shows v ((calls.reverse.flatMap EncodeCall.puts).foldl (fun s p => p.step v s) s)) :
    ∃ d', decodeAll scratch calls d = (calls.map fun call => (.ok, call.decoded), d') ∧ d'.Shows v s := by
  induction calls generalizing d with
  | nil => exact ⟨d, rfl, h⟩
  | cons call calls ih =>
    have tail : ∀ c ∈ calls, c.Sound v := fun c hc => sound c (List.mem_cons_of_mem call hc)
    rw [List.reverse_cons, List.flatMap_append, List.foldl_append, List.flatMap_singleton] at h
    have mem := foldl_step_mem
      (flatMap_puts_fits fun c hc => (tail c (List.mem_reverse.1 hc)).accepted)
      (flatMap_puts_narrow fun c hc =>
        ⟨(tail c (List.mem_reverse.1 hc)).symbol, (tail c (List.mem_reverse.1 hc)).bypass⟩) hs
    obtain ⟨d1, one, shows⟩ := (sound call List.mem_cons_self).decode_spec
      (room call List.mem_cons_self) mem h
    obtain ⟨d2, rest, final⟩ := ih tail (fun c hc => room c (List.mem_cons_of_mem call hc)) shows
    exact ⟨d2, by simp only [decodeAll, one, rest, List.map_cons], final⟩

/-- The state and the bytes that calls leave. -/
def stackOf (v : RansVariant) (calls : List EncodeCall) : Nat × List UInt8 :=
  (calls.flatMap EncodeCall.puts).foldl (fun s p => p.step v s) (v.lower, [])

/-- Flushing behind sound calls gives their stack. -/
theorem encodeAll_flush {v : RansVariant} {calls : List EncodeCall} (capacity : Nat)
    (sound : ∀ call ∈ calls, call.Sound v) :
    v.Interval (stackOf v calls).1 ∧
      ∃ e', (encodeAll calls (.new v capacity)).flush = (.ok, v.frameBytes (stackOf v calls), e') := by
  have fits := flatMap_puts_fits fun call hc => (sound call hc).accepted
  have narrow := flatMap_puts_narrow fun call hc => ⟨(sound call hc).symbol, (sound call hc).bypass⟩
  have start : (RansEncoder.new v capacity).Shows v (v.lower, []) :=
    ⟨RansEncoder.new_open v capacity, rfl, rfl, RansEncoder.new_content v capacity⟩
  have shows := runPuts_shows start fits narrow v.lower_mem
  have mem := foldl_step_mem fits narrow (s := (v.lower, [])) v.lower_mem
  rw [← encodeAll_eq (fun call hc => (sound call hc).accepted) start.opened rfl] at shows
  exact ⟨mem, shows.flush mem.2⟩

/-- Encoding sound calls and flushing gives a stream the decoder opens on the
encoder's stack. -/
theorem encodeAll_open {v : RansVariant} {calls : List EncodeCall} (capacity : Nat)
    (sound : ∀ call ∈ calls, call.Sound v) :
    ∃ e' d, (encodeAll calls (.new v capacity)).flush = (.ok, v.frameBytes (stackOf v calls), e') ∧
      (RansDecoder.new v).open (v.frameBytes (stackOf v calls)) = (.ok, d) ∧ d.Shows v (stackOf v calls) := by
  obtain ⟨mem, e', flushed⟩ := encodeAll_flush capacity sound
  have aligned := foldl_step_aligned (calls.flatMap EncodeCall.puts) (s := (v.lower, [])) v.aligned_nil
  obtain ⟨d, opened, left⟩ := RansDecoder.open_frameBytes (v := v) (d := .new v) rfl mem.2 aligned
  rw [if_neg (Nat.not_lt.2 mem.1)] at opened
  exact ⟨e', d, flushed, opened, (left mem.1).1⟩

/-- **The multi-segment round trip.** Segments encoded in order and decoded in
reverse come back, with zero where an index is negative, and the stream is used
up. No range condition on the values is needed: what `encode` adds in an
`int32_t`, `decode` takes off in one. -/
theorem decode_encode {v : RansVariant} {segments : List EncodeCall} (capacity : Nat)
    (scratch : EncodeCall → List Int32) (accepted : ∀ seg ∈ segments, seg.Accepted v)
    (symbol : ∀ seg ∈ segments, seg.coder.symbolBits ≤ 16)
    (bypass : ∀ seg ∈ segments, seg.coder.bypassBits = 2)
    (spans : ∀ seg ∈ segments, seg.values.length = seg.indices.length)
    (room : ∀ seg ∈ segments, (scratch seg).length = seg.indices.length) :
    (∀ done seg rest, segments = done ++ seg :: rest →
      ((encodeAll done (.new v capacity)).encode seg.coder seg.indices seg.values).1 = .ok) ∧
    ∃ bytes e' d, (encodeAll segments (.new v capacity)).flush = (.ok, bytes, e') ∧
      (RansDecoder.new v).open bytes = (.ok, d) ∧
      (decodeAll scratch segments.reverse d).1 = segments.reverse.map (fun seg => (.ok, seg.decoded)) ∧
      (decodeAll scratch segments.reverse d).2.checkEof = true := by
  have sound : ∀ seg ∈ segments, seg.Sound v := fun seg hseg =>
    { accepted := accepted seg hseg
      symbol := Nat.le_trans (symbol seg hseg) (by cases v <;> decide)
      bypass := by rw [bypass seg hseg]; cases v <;> decide
      admitted := RansDecoder.digitsAdmitted_two (bypass seg hseg)
      spans := spans seg hseg }
  constructor
  · rintro done seg rest rfl
    have accepted_done : ∀ c ∈ done, c.Accepted v := fun c hc => accepted c (List.mem_append_left _ hc)
    obtain ⟨valid, variant⟩ := (accepted seg (by simp)).valid
    obtain ⟨opened, same⟩ := runPuts_open (done.flatMap EncodeCall.puts) (RansEncoder.new_open v capacity)
    rw [encodeAll_eq accepted_done (RansEncoder.new_open v capacity) rfl,
      RansEncoder.encode_eq valid opened (same.trans variant.symm) (spans seg (by simp)).symm]
  · obtain ⟨e', d, flushed, opened, shows⟩ := encodeAll_open capacity sound
    rw [stackOf] at shows
    refine ⟨_, e', d, flushed, opened, ?_⟩
    obtain ⟨d', decoded, final⟩ := decodeAll_spec
      (s := (v.lower, [])) (d := d) (fun seg hseg => sound seg (List.mem_reverse.1 hseg))
      (fun seg hseg => room seg (List.mem_reverse.1 hseg)) v.lower_mem (by rwa [List.reverse_reverse])
    rw [decoded]
    exact ⟨rfl, RansDecoder.checkEof_of_shows final⟩

/-- Two segments, with a negative index, one past the end and bypassed values on
both sides. -/
theorem decode_encode_sample :
    ∃ bytes e' d, (encodeAll [⟨sampleCoder, [0, -1, 5], [0, 7, 90]⟩, ⟨sampleCoder, [0], [-40]⟩]
        (.new .byte 0)).flush = (.ok, bytes, e') ∧
      (RansDecoder.new .byte).open bytes = (.ok, d) ∧
      (decodeAll (fun seg => seg.indices) [⟨sampleCoder, [0], [-40]⟩, ⟨sampleCoder, [0, -1, 5], [0, 7, 90]⟩]
        d).1 = [(.ok, [-40]), (.ok, [0, 0, 90])] := by
  have accepted : ∀ seg ∈ [EncodeCall.mk sampleCoder [0, -1, 5] [0, 7, 90], ⟨sampleCoder, [0], [-40]⟩],
      seg.Accepted .byte ∧ seg.coder.symbolBits ≤ 16 ∧ seg.coder.bypassBits = 2 ∧
        seg.values.length = seg.indices.length := by
    intro seg hseg
    have created : RansCoder.create .byte [3] [1] [9, 4, 3] 4 2 = .ok sampleCoder := rfl
    rcases List.mem_cons.1 hseg with rfl | hseg
    · exact ⟨⟨_, _, _, _, _, created⟩, by decide +kernel, by decide +kernel, rfl⟩
    · rw [List.mem_singleton.1 hseg]
      exact ⟨⟨_, _, _, _, _, created⟩, by decide +kernel, by decide +kernel, rfl⟩
  obtain ⟨bytes, e', d, flushed, opened, decoded, -⟩ := (decode_encode 0 (fun seg => seg.indices)
    (fun seg hseg => (accepted seg hseg).1) (fun seg hseg => (accepted seg hseg).2.1)
    (fun seg hseg => (accepted seg hseg).2.2.1) (fun seg hseg => (accepted seg hseg).2.2.2)
    (fun _ _ => rfl)).2
  exact ⟨bytes, e', d, flushed, opened, decoded⟩

end Rkvc.Mlvc
