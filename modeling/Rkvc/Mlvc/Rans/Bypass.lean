import Rkvc.Mlvc.Rans.Reads

/-!
# When the bypass code comes back

`RansDecoder::bypass` after `RansEncoder::bypass`. The encoder writes as many
digits as the value has, the decoder admits `32 / bypass_bits` of them, so a
value whose top digit would not fit a word whole is refused. On a scale wider
than the interval's lower bound the first digit's step can leave the interval,
and the decoder then reads past it. In every other case the code comes back
(`bypass_round_trip_iff`).
-/

namespace Rkvc.Mlvc
set_option autoImplicit false
open Lib Lib.Ans

/-! ## The digits -/

namespace RansEncoder
variable {c : RansCoder}

/-- Fuel for every digit is enough. -/
theorem bypassDigits_stable {fuel more w : Nat} (fits : w < 2 ^ (c.bypassBits * fuel)) (le : fuel ≤ more) :
    bypassDigits c more w = bypassDigits c fuel w := by
  induction fuel generalizing more w with
  | zero =>
    obtain rfl : w = 0 := by simpa using fits
    cases more <;> simp [bypassDigits]
  | succ fuel ih =>
    obtain ⟨more, rfl⟩ : ∃ m, more = m + 1 := ⟨more - 1, by omega⟩
    have rest : w >>> c.bypassBits < 2 ^ (c.bypassBits * fuel) := by
      rw [Nat.shiftRight_eq_div_pow]
      apply Nat.div_lt_of_lt_mul
      rwa [← Nat.pow_add, Nat.add_comm, ← Nat.mul_succ]
    unfold bypassDigits
    rw [ih rest (Nat.le_of_succ_le_succ le)]

/-- **The digits of a value**: at most `k` when it is below `2 ^ (bits * k)`. -/
theorem bypassDigits_length_le_iff {fuel w : Nat} (k : Nat) (fits : w < 2 ^ (c.bypassBits * fuel)) :
    (bypassDigits c fuel w).length ≤ k ↔ w < 2 ^ (c.bypassBits * k) := by
  induction fuel generalizing k w with
  | zero =>
    obtain rfl : w = 0 := by simpa using fits
    exact ⟨fun _ => Nat.two_pow_pos _, fun _ => Nat.zero_le _⟩
  | succ fuel ih =>
    unfold bypassDigits
    by_cases zero : w = 0
    · subst zero
      exact ⟨fun _ => Nat.two_pow_pos _, fun _ => Nat.zero_le _⟩
    · rw [if_pos zero]
      have split : ∀ n, w >>> c.bypassBits < 2 ^ (c.bypassBits * n) ↔ w < 2 ^ (c.bypassBits * (n + 1)) := by
        intro n
        rw [Nat.shiftRight_eq_div_pow, Nat.div_lt_iff_lt_mul (Nat.two_pow_pos _), ← Nat.pow_add, Nat.mul_succ]
      cases k with
      | zero =>
        have positive : ¬w < 1 := by omega
        simpa using zero
      | succ k =>
        rw [List.length_cons, Nat.succ_le_succ_iff, ih k ((split fuel).2 fits)]
        exact split k

/-- Sixteen digits hold a word. -/
theorem word_fits (valid : c.Valid) {w : Nat} (word : w < 2 ^ 32) : w < 2 ^ (c.bypassBits * 16) := by
  have room : 32 ≤ c.bypassBits * 16 := by
    have width := valid.bypass_lo
    omega
  exact Nat.lt_of_lt_of_le word (Nat.pow_le_pow_right (by decide) room)

/-- Raw steps follow the stack wherever the state is. -/
theorem rawPuts_shows {v : RansVariant} {ps : List Put} {e : RansEncoder} {s : Nat × List UInt8} (h : e.Shows v s)
    (fits : ∀ p ∈ ps, p.Fits v) (raw : ∀ p ∈ ps, p.raw = true) (hs : s.1 < 2 ^ v.stateBits) :
    (runPuts ps e).Shows v (ps.foldl (fun s p => p.step v s) s) := by
  induction ps generalizing e s with
  | nil => exact h
  | cons p ps ih =>
    have fit := fits p List.mem_cons_self
    have step := Put.apply_shows h fit hs (Or.inl (raw p List.mem_cons_self))
    exact ih step (fun q mem => fits q (List.mem_cons_of_mem p mem)) (fun q mem => raw q (List.mem_cons_of_mem p mem))
      (Put.step_lt fit hs)

/-- What `bypass` leaves. -/
theorem bypass_shows (valid : c.Valid) {e : RansEncoder} {s : Nat × List UInt8} (h : e.Shows c.variant s)
    (hs : s.1 < 2 ^ c.variant.stateBits) (w : Nat) :
    (e.bypass c w).Shows c.variant ((bypassPuts c w).foldl (fun s p => p.step c.variant s) s) := by
  rw [bypass_eq]
  apply rawPuts_shows h (bypassPuts_fits valid w) _ hs
  intro p mem
  simp only [bypassPuts, List.mem_append, List.mem_map, List.mem_reverse, List.mem_cons, List.mem_replicate] at mem
  rcases mem with ⟨y, -, rfl⟩ | rfl | ⟨-, rfl⟩ <;> rfl

end RansEncoder

namespace RansDecoder
variable {c : RansCoder} {d : RansDecoder} {s : Nat × List UInt8}

/-! ## Too many digits -/

/-- A count beyond the limit ends the loop without a result. -/
theorem countLoop_reject {rest full : Nat} (maxDigits fuel acc : Nat) (valid : c.Valid)
    (narrow : c.bypassBits ≤ c.variant.lowBits) (hs : c.variant.Interval s.1) (hrest : rest < c.bypassMax)
    (beyond : maxDigits < acc + (rest + full * c.bypassMax)) (enough : full < fuel)
    (h : d.Shows c.variant ((digitPut c rest :: List.replicate full (digitPut c c.bypassMax)).foldl
      (fun s p => p.step c.variant s) s)) : (countLoop c maxDigits fuel c.bypassMax acc d).1 = none := by
  have rest_le := Nat.le_of_lt hrest
  induction full generalizing fuel acc d with
  | zero =>
    obtain ⟨fuel, rfl⟩ : ∃ m, fuel = m + 1 := ⟨fuel - 1, by omega⟩
    obtain ⟨d1, taken, -⟩ := take_step valid h rest_le hs
    have large : acc + rest > maxDigits := by omega
    rw [countLoop, if_pos rfl, taken]
    dsimp only
    rw [if_pos large]
  | succ full ih =>
    obtain ⟨fuel, rfl⟩ : ∃ m, fuel = m + 1 := ⟨fuel - 1, by omega⟩
    rw [List.replicate_succ', ← List.cons_append, List.foldl_append] at h
    have mem := count_mem full valid narrow rest_le hs
    obtain ⟨d1, taken, shows⟩ := take_step valid h (Nat.le_refl _) mem
    rw [Nat.add_mul, Nat.one_mul] at beyond
    rw [countLoop, if_pos rfl, taken]
    dsimp only
    split
    · rfl
    · exact ih fuel (acc + c.bypassMax) (by omega) (by omega) shows

/-- **A value of more digits than the decoder admits is refused.** -/
theorem bypass_reject {w : Nat} (valid : c.Valid) (hs : c.variant.Interval s.1)
    (many : 32 / c.bypassBits < (RansEncoder.bypassDigits c 16 w).length)
    (h : d.Shows c.variant ((bypassPuts c w).foldl (fun s p => p.step c.variant s) s)) : (d.bypass c).1 = none := by
  have max_pos := bypassMax_pos valid
  have len := bypassDigits_length_le (c := c) 16 w
  obtain ⟨rest_lt, total⟩ := splitCount_spec (by omega : 0 < c.bypassMax)
    (Nat.le_refl (RansEncoder.bypassDigits c 16 w).length)
  obtain ⟨rest, hrest⟩ : ∃ r, (RansEncoder.splitCount c.bypassMax (RansEncoder.bypassDigits c 16 w).length
    (RansEncoder.bypassDigits c 16 w).length).1 = r := ⟨_, rfl⟩
  obtain ⟨full, hfull⟩ : ∃ r, (RansEncoder.splitCount c.bypassMax (RansEncoder.bypassDigits c 16 w).length
    (RansEncoder.bypassDigits c 16 w).length).2 = r := ⟨_, rfl⟩
  simp only [bypassPuts, hrest, hfull] at rest_lt total h
  rw [List.foldl_append] at h
  unfold bypass
  cases full with
  | zero =>
    obtain ⟨r, hr, value⟩ := get_step h (digitPut_fits valid (Nat.le_of_lt rest_lt))
    cases taken : d.take c.bypassBits with
    | mk first d1 =>
      cases first with
      | none => rfl
      | some first =>
        have shown := take_value taken
        have large : first > 32 / c.bypassBits := by
          have start : d.get c.bypassBits = rest + r := value
          omega
        dsimp only
        rw [if_pos large]
  | succ full =>
    -- sixteen digits make a full step only where a digit has at most four bits
    rw [Nat.add_mul, Nat.one_mul] at total
    have small : c.bypassBits ≤ 4 := by
      by_contra wide
      have large : 2 ^ 5 ≤ 2 ^ c.bypassBits := Nat.pow_le_pow_right (by decide) (by omega)
      rw [← bypassMax_lt valid] at large
      omega
    have narrow : c.bypassBits ≤ c.variant.lowBits := by
      cases c.variant <;> simp only [RansVariant.lowBits] <;> omega
    have width := valid.bypass_lo
    have room : 8 ≤ 32 / c.bypassBits := (Nat.le_div_iff_mul_le (by omega)).2 (by omega)
    have mem := digits_mem (RansEncoder.bypassDigits c 16 w).reverse valid narrow
      (fun y hy => bypassDigits_le y (List.mem_reverse.1 hy)) hs
    rw [List.replicate_succ', ← List.cons_append, List.foldl_append] at h
    have inner := count_mem full valid narrow (Nat.le_of_lt rest_lt) mem
    obtain ⟨d0, taken, top⟩ := take_step valid h (Nat.le_refl _) inner
    have steps := Nat.mul_le_mul_left full max_pos
    rw [taken]
    dsimp only
    split
    · rfl
    · have ended := countLoop_reject (32 / c.bypassBits) (32 / c.bypassBits + 1) c.bypassMax valid narrow mem rest_lt
        (by omega) (by omega) top
      cases counted : countLoop c (32 / c.bypassBits) (32 / c.bypassBits + 1) c.bypassMax c.bypassMax d0 with
      | mk r d1 =>
        rw [counted] at ended
        obtain rfl : r = none := ended
        rfl

/-! ## A scale wider than the interval -/

/-- What the refill loop reads is a refill. -/
theorem refillByte_refill (fuel : Nat) :
    ∀ {x z : Nat} {d d' : RansDecoder} {bytes : List UInt8}, d.Reads .byte bytes → x < 2 ^ 31 →
      bytes.length < fuel → refillByte fuel x d = (some z, d') →
      ∃ n left, refill 256 kByteLower n x (bytes.map UInt8.toNat) = some (z, left.map UInt8.toNat) ∧
        d'.Reads .byte left ∧ d'.opened = d.opened := by
  induction fuel with
  | zero => exact fun _ _ enough => absurd enough (Nat.not_lt_zero _)
  | succ fuel ih =>
    intro x z d d' bytes reads hx enough ran
    unfold refillByte at ran
    by_cases low : x < kByteLower
    · rw [if_pos low] at ran
      cases bytes with
      | nil =>
        have len := reads.length
        rw [List.length_nil, Nat.add_zero] at len
        have ended : d.readByte = none := by
          unfold readByte
          rw [if_pos (Nat.le_of_eq len.symm)]
        rw [ended] at ran
        cases ran
      | cons byte bytes =>
        have unit : RansVariant.unit .byte byte.toNat = [byte] := by
          have same : UInt8.ofNat byte.toNat = byte := UInt8.ofNat_toNat
          change [UInt8.ofNat byte.toNat] = [byte]
          rw [same]
        have front : d.Reads .byte (RansVariant.unit .byte byte.toNat ++ bytes) := by
          rw [unit]
          exact reads
        obtain ⟨d1, read, left, same⟩ := front.readUnit (UInt8.toNat_lt byte)
        have read_byte : d.readByte = some (byte.toNat, d1) := by
          rw [← read]
          unfold readUnit
          rw [reads.variant]
        rw [read_byte] at ran
        have bound : x < 2 ^ 23 := low
        have digit := UInt8.toNat_lt byte
        have next : u32 (u32 (x <<< 8) + byte.toNat) = x * 256 + byte.toNat := by
          rw [Nat.shiftLeft_eq, u32_of_lt (n := x * 2 ^ 8) (by omega)]
          exact u32_of_lt (by omega)
        dsimp only at ran
        rw [next] at ran
        rw [List.length_cons] at enough
        obtain ⟨n, rest, filled, after, opened⟩ := ih left (by omega) (by omega) ran
        refine ⟨n + 1, rest, ?_, after, by rw [opened, same]⟩
        rw [List.map_cons, refill_read low]
        exact filled
    · rw [if_neg low] at ran
      cases ran
      exact ⟨0, bytes, refill_stop (Nat.le_of_not_lt low), reads, rfl⟩

/-- A digit taken in the byte variant: the low bits, and a refill of the rest. -/
theorem take_refill {x bits value : Nat} {bytes : List UInt8} {d' : RansDecoder} (h : d.Shows .byte (x, bytes))
    (hx : x < 2 ^ 31) (hb : bits ≤ 31) (taken : d.take bits = (some value, d')) :
    value = x % 2 ^ bits ∧ ∃ n z left, refill 256 kByteLower n (x / 2 ^ bits) (bytes.map UInt8.toNat) =
      some (z, left.map UInt8.toNat) ∧ d'.Shows .byte (z, left) := by
  have shown : d.get bits = x % 2 ^ bits := by
    unfold get
    rw [and_scale hb, u32_mod_scale hb, h.state]
  have digit := take_value taken
  rw [shown] at digit
  refine ⟨digit, ?_⟩
  have word : d.advanceWord (d.get bits) 1 bits = x / 2 ^ bits := by
    unfold advanceWord
    rw [h.reads.variant, shown, h.state]
    dsimp only
    rw [and_scale hb, u32_of_lt (n := x) (by omega), Nat.shiftRight_eq_div_pow, Nat.one_mul]
    have small : x / 2 ^ bits ≤ x := Nat.div_le_self _ _
    have part : x % 2 ^ bits ≤ x := Nat.mod_le _ _
    generalize x / 2 ^ bits = q at small ⊢
    generalize x % 2 ^ bits = r at part ⊢
    unfold u32
    omega
  have reads : d.Reads .byte bytes := h.reads
  have len := reads.length
  rw [take_eq] at taken
  cases advanced : advanceStep (d.get bits) 1 bits d with
  | mk r d1 =>
    cases r with
    | none =>
      rw [andThen_none advanced] at taken
      cases taken
    | some u =>
      rw [andThen_some advanced] at taken
      cases taken
      rw [advanceStep_refill, word] at advanced
      unfold refillFrom at advanced
      rw [h.reads.variant] at advanced
      dsimp only at advanced
      cases filled : refillByte (d.data.length - d.pos + 1) (x / 2 ^ bits) d with
      | mk r d2 =>
        rw [filled] at advanced
        cases r with
        | none => cases advanced
        | some z =>
          cases advanced
          have below : x / 2 ^ bits ≤ x := Nat.div_le_self _ _
          obtain ⟨n, left, run, after, opened⟩ := refillByte_refill _ reads (by omega) (by omega) filled
          exact ⟨n, z, left, run, ⟨opened.trans h.opened, rfl, after.with_state z⟩⟩

theorem digits_map (ds : List Nat) (bytes : List UInt8) (digits : ∀ u ∈ ds, u < 256) :
    (ds.flatMap (RansVariant.unit .byte) ++ bytes).map UInt8.toNat = ds ++ bytes.map UInt8.toNat := by
  induction ds with
  | nil => rfl
  | cons u ds ih =>
    have unit : RansVariant.unit .byte u = [UInt8.ofNat u] := rfl
    have digit : (UInt8.ofNat u).toNat = u := by
      rw [UInt8.toNat_ofNat']
      exact Nat.mod_eq_of_lt (digits u List.mem_cons_self)
    rw [List.flatMap_cons, unit, List.singleton_append, List.cons_append, List.map_cons,
      ih fun w mem => digits w (List.mem_cons_of_mem u mem), digit, List.cons_append]

/-- A value of one digit is that digit and the count one. -/
theorem bypassPuts_one {w : Nat} (valid : c.Valid) (pos : 0 < w) (one : w < 2 ^ c.bypassBits) :
    bypassPuts c w = [digitPut c w, digitPut c 1] := by
  have max := bypassMax_pos valid
  have digits : RansEncoder.bypassDigits c 16 w = [w] := by
    have gone : w >>> c.bypassBits = 0 := by
      rw [Nat.shiftRight_eq_div_pow]
      exact Nat.div_eq_of_lt one
    unfold RansEncoder.bypassDigits
    rw [if_pos (by omega), and_bypassMax valid, Nat.mod_eq_of_lt one, gone]
    rfl
  have split : RansEncoder.splitCount c.bypassMax 1 1 = (1, 0) := by
    unfold RansEncoder.splitCount
    rw [if_neg (by omega)]
  unfold bypassPuts
  rw [digits]
  dsimp only [List.length_singleton]
  rw [split]
  rfl

theorem bypassPuts_zero (c : RansCoder) : bypassPuts c 0 = [digitPut c 0] := rfl

/-- After the count one the decoder takes one digit. -/
theorem bypass_one {d1 : RansDecoder} (valid : c.Valid) (admits : 1 ≤ 32 / c.bypassBits)
    (counted : d.take c.bypassBits = (some 1, d1)) :
    d.bypass c = andThen (fun d => d.take c.bypassBits) (fun value d => (some (0 ||| u32 (value <<< 0)), d)) d1 := by
  have max := bypassMax_pos valid
  have small : ¬1 > 32 / c.bypassBits := by omega
  have stop : ¬1 = c.bypassMax := by omega
  unfold bypass
  rw [counted]
  dsimp only
  rw [if_neg small, countLoop, if_neg stop]
  dsimp only
  rw [digitLoop_succ]
  rfl

/-- Without digits the decoder stops at the count. -/
theorem bypass_zero {d1 : RansDecoder} (valid : c.Valid) (counted : d.take c.bypassBits = (some 0, d1)) :
    d.bypass c = (some 0, d1) := by
  have max := bypassMax_pos valid
  have stop : ¬0 = c.bypassMax := by omega
  unfold bypass
  rw [counted]
  dsimp only
  rw [if_neg (Nat.not_lt_zero _), countLoop, if_neg stop]
  rfl

/-- Only the byte variant has scales wider than the lower bound, and then a word holds one
digit. -/
theorem wide_byte (valid : c.Valid) (wide : ¬c.bypassBits ≤ c.variant.lowBits) :
    c.variant = .byte ∧ 23 < c.bypassBits ∧ 32 / c.bypassBits = 1 := by
  have cap := valid.bypass_hi
  cases v : c.variant with
  | byte =>
    rw [v] at cap wide
    have above : 23 < c.bypassBits := Nat.lt_of_not_le wide
    have below : c.bypassBits ≤ 30 := cap
    refine ⟨rfl, above, ?_⟩
    apply Nat.div_eq_of_lt_le <;> omega
  | rans64 =>
    rw [v] at cap wide
    exact absurd cap wide

/-- **A first digit that leaves the interval does not come back.** The decoder goes on to
fill the state from the bytes below it, which are then missing from the state before. -/
theorem bypass_left_interval {w : Nat} (valid : c.Valid) (byte : c.variant = .byte) (wide : 23 < c.bypassBits)
    (low : w < 2 ^ 23) (pos : 0 < w) (zero : RansVariant.settled .byte c.bypassBits 1 s.1 = 0)
    (h : d.Shows .byte ((bypassPuts c w).foldl (fun s p => p.step .byte s) s)) :
    ¬∃ d', d.bypass c = (some w, d') ∧ d'.Shows .byte s := by
  rintro ⟨d', undone, final⟩
  have cap : c.bypassBits ≤ 30 := by
    have bound := valid.bypass_hi
    rwa [byte] at bound
  have scale : 2 ^ 24 ≤ 2 ^ c.bypassBits := Nat.pow_le_pow_right (by decide) wide
  have admits : 1 ≤ 32 / c.bypassBits := (Nat.le_div_iff_mul_le (by omega)).2 (by omega)
  have one_fits : (1 : Nat) + 1 ≤ 2 ^ c.bypassBits := by omega
  rw [bypassPuts_one valid pos (by omega)] at h
  -- the two stacks, and the digits each step sheds
  obtain ⟨ds1, shed1⟩ : ∃ ds, (shed 256 (1 * 2 ^ (31 - c.bypassBits)) 4 s.1).1 = ds := ⟨_, rfl⟩
  obtain ⟨ds2, shed2⟩ : ∃ ds, (shed 256 (1 * 2 ^ (31 - c.bypassBits)) 4 w).1 = ds := ⟨_, rfl⟩
  have digits1 : ∀ u ∈ ds1.reverse, u < 256 := fun u mem =>
    shed_digit_lt (by decide) u (by rw [shed1]; exact List.mem_reverse.1 mem)
  have digits2 : ∀ u ∈ ds2.reverse, u < 256 := fun u mem =>
    shed_digit_lt (by decide) u (by rw [shed2]; exact List.mem_reverse.1 mem)
  have first : (digitPut c w).step .byte s = (w, ds1.reverse.flatMap (RansVariant.unit .byte) ++ s.2) := by
    rw [← shed1]
    unfold Put.step
    have state : push (2 ^ c.bypassBits) 1 w 0 = w := by simp [push]
    exact Prod.ext_iff.mpr ⟨(congrArg (push (2 ^ c.bypassBits) 1 w) zero).trans state, rfl⟩
  have second : (digitPut c 1).step .byte ((digitPut c w).step .byte s) =
      (push (2 ^ c.bypassBits) 1 1 (shed 256 (1 * 2 ^ (31 - c.bypassBits)) 4 w).2,
        ds2.reverse.flatMap (RansVariant.unit .byte) ++ (ds1.reverse.flatMap (RansVariant.unit .byte) ++ s.2)) := by
    rw [first, ← shed2]
    rfl
  have stacked : d.Shows .byte ((digitPut c 1).step .byte ((digitPut c w).step .byte s)) := h
  rw [second] at stacked
  have small : push (2 ^ c.bypassBits) 1 1 (shed 256 (1 * 2 ^ (31 - c.bypassBits)) 4 w).2 < 2 ^ 31 := by
    have settled : (shed 256 (1 * 2 ^ (31 - c.bypassBits)) 4 w).2 < 1 * 2 ^ (31 - c.bypassBits) :=
      RansVariant.settled_lt .byte Nat.one_pos (by omega) (Nat.lt_trans low (by decide))
    exact push_word Nat.one_pos one_fits (by omega) settled
  -- the count one
  cases counted : d.take c.bypassBits with
  | mk r d1 =>
    cases r with
    | none =>
      rw [bypass, counted] at undone
      cases undone
    | some count =>
      obtain ⟨shown, n1, z1, left1, filled1, shows1⟩ := take_refill stacked small (by omega) counted
      rw [push_mod Nat.one_pos one_fits, Nat.mod_one] at shown
      obtain rfl : count = 1 := shown
      rw [push_div Nat.one_pos one_fits, Nat.div_one, digits_map _ _ digits2, digits_map _ _ digits1] at filled1
      have more := refill_mono filled1 (Nat.le_add_right n1 ds2.length)
      have below := refill_shed_below (B := 256) (L := kByteLower) (1 * 2 ^ (31 - c.bypassBits)) 4 n1
        (ds1.reverse ++ s.2.map UInt8.toNat) (show w < kByteLower from low)
      rw [shed2, more] at below
      have bytes_lt : ∀ u ∈ ds1.reverse ++ s.2.map UInt8.toNat, u < 256 := by
        intro u mem
        rcases List.mem_append.1 mem with digit | rest
        · exact digits1 u digit
        · obtain ⟨b, -, rfl⟩ := List.mem_map.1 rest
          exact UInt8.toNat_lt b
      have reached := refill_ge below.symm
      have bounded := refill_lt bytes_lt (Nat.lt_of_lt_of_le low (by decide)) below.symm
      obtain ⟨k1, room1, rest1, quot1⟩ := refill_quot bytes_lt below.symm
      have taken1 : 0 < k1 := by
        rcases Nat.eq_zero_or_pos k1 with none_read | some_read
        · rw [none_read, Nat.pow_zero, Nat.div_one] at quot1
          have large : 2 ^ 23 ≤ z1 := reached
          omega
        · exact some_read
      -- the digit
      rw [bypass_one valid admits counted] at undone
      cases digit : d1.take c.bypassBits with
      | mk r d2 =>
        cases r with
        | none =>
          rw [andThen_none digit] at undone
          cases undone
        | some value =>
          rw [andThen_some digit] at undone
          obtain ⟨-, same⟩ := Prod.ext_iff.mp undone
          obtain rfl : d2 = d' := same
          obtain ⟨-, n2, z2, left2, filled2, shows2⟩ := take_refill shows1 bounded (by omega) digit
          have state : z2 = s.1 := shows2.state.symm.trans final.state
          have rest : left2 = s.2 := shows2.reads.rest.symm.trans final.reads.rest
          rw [state, rest] at filled2
          have left_lt : ∀ u ∈ left1.map UInt8.toNat, u < 256 := by
            intro u mem
            obtain ⟨b, -, rfl⟩ := List.mem_map.1 mem
            exact UInt8.toNat_lt b
          obtain ⟨k2, room2, rest2, quot2⟩ := refill_quot left_lt filled2
          have len1 := congrArg List.length rest1
          have len2 := congrArg List.length rest2
          simp only [List.length_drop, List.length_append, List.length_reverse, List.length_map] at len1 len2 room1 room2
          have early : k2 < (shed 256 (1 * 2 ^ (31 - c.bypassBits)) 4 s.1).1.length := by
            rw [shed1]
            omega
          have above := shed_above early
          rw [quot2] at above
          have under : z1 / 2 ^ c.bypassBits < 2 ^ (31 - c.bypassBits) := by
            apply Nat.div_lt_of_lt_mul
            rw [← Nat.pow_add, show c.bypassBits + (31 - c.bypassBits) = 31 by omega]
            exact bounded
          omega

/-! ## The round trip -/

/-- **When the bypass code comes back.** Sixteen digits are always enough for the
encoder. The decoder gives the value and the stack before it back exactly when
the value has no more digits than fit a word whole and the first digit's step
keeps the state in its interval. -/
theorem bypass_round_trip_iff {variant : RansVariant} {lengths offsets table : List Int32}
    {symbolBits bypassBits : Int32} {e : RansEncoder} {w : Nat}
    (created : RansCoder.create variant lengths offsets table symbolBits bypassBits = .ok c)
    (encoder : e.Shows c.variant s) (interval : c.variant.Interval s.1) (word : w < 2 ^ 32)
    (decoder : d.Shows c.variant ((e.bypass c w).state, (e.bypass c w).content)) :
    ((RansEncoder.bypassDigits c 16 w).length ≤ 16 ∧
      ∀ more, 16 ≤ more → RansEncoder.bypassDigits c more w = RansEncoder.bypassDigits c 16 w) ∧
    ((∃ d', d.bypass c = (some w, d') ∧ d'.Shows c.variant s) ↔
      w < 2 ^ (c.bypassBits * (32 / c.bypassBits)) ∧ (w = 0 ∨ (digitPut c w).Keeps c.variant s.1)) := by
  have valid := (RansCoder.create_valid created).1
  have fits := RansEncoder.word_fits valid word
  have coded := RansEncoder.bypass_shows valid encoder interval.2 w
  have h : d.Shows c.variant ((bypassPuts c w).foldl (fun s p => p.step c.variant s) s) := by
    rw [coded.state, coded.content] at decoder
    exact decoder
  have admitted := RansEncoder.bypassDigits_length_le_iff (c := c) (32 / c.bypassBits) fits
  refine ⟨⟨bypassDigits_length_le 16 w, fun more le => RansEncoder.bypassDigits_stable fits le⟩, ?_, ?_⟩
  · rintro ⟨d', undone, final⟩
    constructor
    · by_contra many
      have refused := bypass_reject valid interval (Nat.lt_of_not_le (mt admitted.1 many)) h
      rw [undone] at refused
      cases refused
    · by_contra left
      obtain ⟨nonzero, dead⟩ := not_or.mp left
      unfold Put.Keeps at dead
      obtain ⟨wide, dead⟩ := not_or.mp dead
      obtain ⟨settled, dead⟩ := not_or.mp dead
      obtain ⟨low, -⟩ := not_or.mp dead
      obtain ⟨byte, above, -⟩ := wide_byte valid wide
      rw [byte] at settled low h final
      have zero : RansVariant.settled .byte c.bypassBits 1 s.1 = 0 := by
        simp only [digitPut] at settled
        omega
      have bound : w < 2 ^ 23 := by
        simp only [digitPut, zero] at low
        exact Nat.lt_of_not_le low
      exact bypass_left_interval valid byte above bound (Nat.pos_of_ne_zero nonzero) zero h
        ⟨d', undone, final⟩
  · rintro ⟨small, kept⟩
    by_cases narrow : c.bypassBits ≤ c.variant.lowBits
    · exact bypass_spec valid narrow interval word fits (admitted.2 small) h
    · obtain ⟨-, -, width⟩ := wide_byte valid narrow
      rw [width, Nat.mul_one] at small
      have max := bypassMax_pos valid
      have most := bypassMax_lt valid
      rcases Nat.eq_zero_or_pos w with rfl | pos
      · rw [bypassPuts_zero] at h
        obtain ⟨d1, counted, shows⟩ := take_step valid h (Nat.zero_le _) interval
        exact ⟨d1, bypass_zero valid counted, shows⟩
      · rw [bypassPuts_one valid pos small] at h
        have digit_fits := digitPut_fits valid (d := w) (by omega)
        have mem : c.variant.Interval ((digitPut c w).step c.variant s).1 := by
          refine ⟨?_, Put.step_lt digit_fits interval.2⟩
          apply (Put.step_ge_iff digit_fits narrow).2
          rcases kept.resolve_left (Nat.ne_of_gt pos) with thin | full | lift | ⟨sym, -⟩
          · exact absurd thin narrow
          · exact Or.inl full
          · exact Or.inr lift
          · cases sym
        obtain ⟨d1, counted, top⟩ := take_step valid h (by omega) mem
        obtain ⟨d2, digit, shows⟩ := take_step valid top (by omega) interval
        have value : 0 ||| u32 (w <<< 0) = w := by
          rw [Nat.zero_or, Nat.shiftLeft_zero, u32_of_lt word]
        refine ⟨d2, ?_, shows⟩
        rw [bypass_one valid (Nat.le_of_eq width.symm) counted, andThen_some digit, value]

/-- The open decoder of a stack. -/
def onto (v : RansVariant) (s : Nat × List UInt8) : RansDecoder := ⟨v, s.1, s.2, 0, true⟩

theorem onto_shows (v : RansVariant) (s : Nat × List UInt8) : (onto v s).Shows v s :=
  ⟨rfl, rfl, ⟨rfl, rfl, Nat.zero_le _⟩⟩

theorem new_shows (v : RansVariant) : (RansEncoder.new v 0).Shows v (v.lower, []) :=
  ⟨RansEncoder.new_open v 0, rfl, rfl, RansEncoder.new_content v 0⟩

/-- With digits of two bits five comes back. -/
theorem bypass_round_trip_five :
    ∃ d', (onto .byte (((RansEncoder.new .byte 0).bypass sampleCoder 5).state,
        ((RansEncoder.new .byte 0).bypass sampleCoder 5).content)).bypass sampleCoder = (some 5, d') ∧
      d'.Shows .byte (RansVariant.lower .byte, []) := by
  have created : RansCoder.create .byte [3] [1] [9, 4, 3] 4 2 = .ok sampleCoder := rfl
  have round := bypass_round_trip_iff created (new_shows .byte) (RansVariant.lower_mem .byte)
    (by decide : 5 < 2 ^ 32) (onto_shows .byte (((RansEncoder.new .byte 0).bypass sampleCoder 5).state,
      ((RansEncoder.new .byte 0).bypass sampleCoder 5).content))
  exact round.2.2 ⟨by decide, Or.inr (Or.inl (show 2 ≤ 23 by decide))⟩

/-- With digits of three bits the eleventh digit of `2 ^ 30` is one more than the decoder
admits. -/
theorem bypass_refuses :
    ∃ c, RansCoder.create .byte [3] [1] [9, 4, 3] 4 3 = .ok c ∧ RansVariant.Interval .byte (RansEncoder.new .byte 0).state ∧
      ¬∃ d', (onto .byte (((RansEncoder.new .byte 0).bypass c (2 ^ 30)).state,
        ((RansEncoder.new .byte 0).bypass c (2 ^ 30)).content)).bypass c = (some (2 ^ 30), d') := by
  refine ⟨{ sampleCoder with bypassBits := 3, bypassMax := 7 }, rfl, RansVariant.lower_mem .byte, ?_⟩
  rintro ⟨d', undone⟩
  have refused : ((onto .byte (((RansEncoder.new .byte 0).bypass
      { sampleCoder with bypassBits := 3, bypassMax := 7 } (2 ^ 30)).state,
      ((RansEncoder.new .byte 0).bypass { sampleCoder with bypassBits := 3, bypassMax := 7 } (2 ^ 30)).content)).bypass
        { sampleCoder with bypassBits := 3, bypassMax := 7 }).1 = none := by decide +kernel
  rw [undone] at refused
  cases refused

end RansDecoder

end Rkvc.Mlvc
