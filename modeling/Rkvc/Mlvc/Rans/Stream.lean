import Rkvc.Mlvc.Rans.Run

/-!
# From the encoder's bytes to the decoder's state

`flush` writes the state in front of the content and `open` reads it back: a
decoder opened on a flushed stream shows the state and bytes the encoder had
(`RansEncoder.Shows.flush_open`). A stream whose state is below the lower bound
is refused.
-/

namespace Rkvc.Mlvc
set_option autoImplicit false
open Lib Lib.Ans

namespace RansDecoder

/-- A decoder about to read `bytes`. -/
structure Reads (d : RansDecoder) (v : RansVariant) (bytes : List UInt8) : Prop where
  variant : d.variant = v
  rest : d.rest = bytes
  pos : d.pos ≤ d.data.length

/-- An opened decoder in state `p.1` with the bytes `p.2` to read. -/
structure Shows (d : RansDecoder) (v : RansVariant) (p : Nat × List UInt8) : Prop where
  opened : d.opened = true
  state : d.state = p.1
  reads : d.Reads v p.2

theorem Reads.length {d : RansDecoder} {v : RansVariant} {bytes : List UInt8} (h : d.Reads v bytes) :
    d.pos + bytes.length = d.data.length := by
  have inside := h.pos
  have len := congrArg List.length h.rest
  simp only [RansDecoder.rest, List.length_drop] at len
  omega

theorem Reads.with_state {d : RansDecoder} {v : RansVariant} {bytes : List UInt8} (h : d.Reads v bytes)
    (x : Nat) : { d with state := x }.Reads v bytes := ⟨h.variant, h.rest, h.pos⟩

/-- Skipping bytes at the read position. -/
theorem Reads.skip {d : RansDecoder} {v : RansVariant} {front bytes : List UInt8}
    (h : d.Reads v (front ++ bytes)) : { d with pos := d.pos + front.length }.Reads v bytes := by
  have len := h.length
  rw [List.length_append] at len
  refine ⟨h.variant, ?_, by dsimp only; omega⟩
  have rest := h.rest
  simp only [RansDecoder.rest] at rest ⊢
  rw [← List.drop_drop, rest, List.drop_left]

/-- A unit in front of the bytes is read as its digit. -/
theorem Reads.readUnit {d : RansDecoder} {v : RansVariant} {u : Nat} {bytes : List UInt8}
    (h : d.Reads v (v.unit u ++ bytes)) (hu : u < v.base) :
    ∃ d', d.readUnit = some (u, d') ∧ d'.Reads v bytes ∧ d' = { d with pos := d'.pos } := by
  have len := h.length
  have rest := h.rest
  have skipped := h.skip
  have value : leVal (v.unit u) = u := leVal_leBytes hu
  have width : (v.unit u).length = v.unitBytes := leBytes_length _ _
  rw [List.length_append, width] at len
  simp only [RansDecoder.rest] at rest
  refine ⟨{ d with pos := d.pos + (v.unit u).length }, ?_, skipped, rfl⟩
  cases v with
  | byte =>
    have choice : d.readUnit = d.readByte := by simp only [RansDecoder.readUnit, h.variant]
    have one : RansVariant.unit .byte u = [UInt8.ofNat u] := rfl
    have head : d.data.getD d.pos 0 = UInt8.ofNat u := by
      have := congrArg (·[0]?) rest
      simp only [List.getElem?_drop, Nat.add_zero, one, List.cons_append, List.getElem?_cons_zero] at this
      rw [List.getD_eq_getElem?_getD, this, Option.getD_some]
    have digit : (UInt8.ofNat u).toNat = u := by
      rw [UInt8.toNat_ofNat']
      exact Nat.mod_eq_of_lt hu
    rw [choice, readByte, if_neg (by simp only [RansVariant.unitBytes] at len; omega), head, digit]
    rfl
  | rans64 =>
    have choice : d.readUnit = d.readUnit32 := by simp only [RansDecoder.readUnit, h.variant]
    have four : (d.data.drop d.pos).take 4 = RansVariant.unit .rans64 u := by
      rw [rest]
      exact List.take_left' width
    rw [choice, readUnit32, if_neg (by simp only [RansVariant.unitBytes] at len; omega), four, value]
    rfl

/-- `init_state` reads the word its units spell. -/
theorem initLoop_spec {v : RansVariant} {n i x y : Nat} {d : RansDecoder} {bytes : List UInt8}
    (h : d.Reads v (leBytes (v.unitBytes * n) y ++ bytes)) (hy : y < v.base ^ n) :
    ∃ d', initLoop (8 * v.unitBytes) n i x d = (some (x + y * v.base ^ i), d') ∧ d'.Reads v bytes ∧
      d' = { d with pos := d'.pos } := by
  have base_pos : 0 < v.base := Nat.pow_pos (by decide)
  induction n generalizing i x y d with
  | zero =>
    obtain rfl : y = 0 := by simpa using hy
    refine ⟨d, by simp [initLoop], by simpa [leBytes] using h, rfl⟩
  | succ n ih =>
    have digits : leBytes (v.unitBytes * (n + 1)) y = v.unit (y % v.base) ++ leBytes (v.unitBytes * n) (y / v.base) := by
      rw [Nat.mul_add, Nat.mul_one, Nat.add_comm, leBytes_add, RansVariant.unit, RansVariant.base, leBytes_mod]
    rw [digits, List.append_assoc] at h
    obtain ⟨d1, read, reads, same⟩ := h.readUnit (Nat.mod_lt _ base_pos)
    obtain ⟨d2, loop, reads2, same2⟩ := ih (i := i + 1) (x := x + (y % v.base) <<< (i * (8 * v.unitBytes)))
      reads (Nat.div_lt_of_lt_mul (by rwa [← Nat.pow_succ']))
    refine ⟨d2, ?_, reads2, ?_⟩
    · have shift : (y % v.base) <<< (i * (8 * v.unitBytes)) = y % v.base * v.base ^ i := by
        rw [Nat.shiftLeft_eq, RansVariant.base, show (256 : Nat) = 2 ^ 8 from rfl, ← Nat.pow_mul, ← Nat.pow_mul,
          Nat.mul_comm i]
      have total : x + y % v.base * v.base ^ i + y / v.base * v.base ^ (i + 1) = x + y * v.base ^ i := by
        calc x + y % v.base * v.base ^ i + y / v.base * v.base ^ (i + 1)
            = x + (v.base * (y / v.base) + y % v.base) * v.base ^ i := by ring
          _ = x + y * v.base ^ i := by rw [Nat.div_add_mod]
      rw [shift, total] at loop
      simp only [initLoop, read, shift, loop]
    · rw [same2, same]

end RansDecoder

/-! ## Narrow runs -/

/-- A run of narrow steps from a state of the interval is a run of the stack. -/
theorem runPuts_shows {v : RansVariant} {ps : List Put} {e : RansEncoder} {s : Nat × List UInt8}
    (h : e.Shows v s) (fits : ∀ p ∈ ps, p.Fits v) (narrow : ∀ p ∈ ps, p.Narrow v) (hs : v.Interval s.1) :
    (runPuts ps e).Shows v (ps.foldl (fun s p => p.step v s) s) := by
  induction ps generalizing e s with
  | nil => exact h
  | cons p ps ih =>
    have fit := fits p List.mem_cons_self
    have small := narrow p List.mem_cons_self
    exact ih (Put.apply_shows h fit hs.2 (.inr (Put.live_of_narrow fit small hs)))
      (fun q hq => fits q (List.mem_cons_of_mem p hq)) (fun q hq => narrow q (List.mem_cons_of_mem p hq))
      (Put.step_mem fit small hs)

theorem foldl_step_mem {v : RansVariant} {ps : List Put} {s : Nat × List UInt8}
    (fits : ∀ p ∈ ps, p.Fits v) (narrow : ∀ p ∈ ps, p.Narrow v) (hs : v.Interval s.1) :
    v.Interval (ps.foldl (fun s p => p.step v s) s).1 := by
  induction ps generalizing s with
  | nil => exact hs
  | cons p ps ih =>
    exact ih (fun q hq => fits q (List.mem_cons_of_mem p hq)) (fun q hq => narrow q (List.mem_cons_of_mem p hq))
      (Put.step_mem (fits p List.mem_cons_self) (narrow p List.mem_cons_self) hs)

/-! ## Whole units -/

/-- The content consists of whole units. -/
def RansVariant.Aligned (v : RansVariant) (bytes : List UInt8) : Prop := v.unitBytes ∣ bytes.length

theorem RansVariant.aligned_nil (v : RansVariant) : v.Aligned [] := Nat.dvd_zero _

theorem RansVariant.flatMap_unit_length (v : RansVariant) (ds : List Nat) :
    (ds.flatMap v.unit).length = ds.length * v.unitBytes := by
  induction ds with
  | nil => simp
  | cons d ds ih =>
    rw [List.flatMap_cons, List.length_append, ih, RansVariant.unit, leBytes_length, List.length_cons,
      Nat.add_mul, Nat.one_mul, Nat.add_comm]

theorem Put.step_aligned {v : RansVariant} {p : Put} {s : Nat × List UInt8} (h : v.Aligned s.2) :
    v.Aligned (p.step v s).2 := by
  simp only [RansVariant.Aligned, step, List.length_append, RansVariant.shedBytes,
    RansVariant.flatMap_unit_length]
  exact Nat.dvd_add (Nat.dvd_mul_left _ _) h

theorem foldl_step_aligned {v : RansVariant} (ps : List Put) {s : Nat × List UInt8} (h : v.Aligned s.2) :
    v.Aligned (ps.foldl (fun s p => p.step v s) s).2 := by
  induction ps generalizing s with
  | nil => exact h
  | cons p ps ih => exact ih (Put.step_aligned h)

/-- Units of a state word. -/
def RansVariant.stateUnits : RansVariant → Nat
  | byte => 4
  | rans64 => 2

/-- A finished stream: the state word, then the content. -/
def RansVariant.frameBytes (v : RansVariant) (p : Nat × List UInt8) : List UInt8 :=
  leBytes (v.unitBytes * v.stateUnits) p.1 ++ p.2

/-- `flush` puts the state word in front of the content. -/
theorem RansEncoder.Shows.flush {e : RansEncoder} {v : RansVariant} {p : Nat × List UInt8}
    (h : e.Shows v p) (hp : p.1 < 2 ^ v.stateBits) :
    ∃ e', e.flush = (.ok, v.frameBytes p, e') := by
  simp only [RansEncoder.flush, h.opened.ready, h.variant, h.state, Bool.false_eq_true, if_false]
  cases v with
  | byte =>
    have written : ((((e.writeByte (UInt8.ofNat (p.1 >>> 24))).writeByte (UInt8.ofNat (p.1 >>> 16))).writeByte
        (UInt8.ofNat (p.1 >>> 8))).writeByte (UInt8.ofNat p.1)).Shows .byte (p.1, _) :=
      (((Shows.write (x := p.1) h (by simp)).write (by simp)).write (by simp)).write (by simp)
    have word : u32 p.1 = p.1 := u32_of_lt (Nat.lt_of_lt_of_le hp (by decide))
    have bytes : [UInt8.ofNat p.1] ++ ([UInt8.ofNat (p.1 >>> 8)] ++ ([UInt8.ofNat (p.1 >>> 16)] ++
        ([UInt8.ofNat (p.1 >>> 24)] ++ p.2))) = RansVariant.frameBytes .byte p := by
      simp [RansVariant.frameBytes, RansVariant.unitBytes, RansVariant.stateUnits, leBytes,
        Nat.shiftRight_eq_div_pow, Nat.div_div_eq_div_mul]
    simp only [word, written.opened.oom, Bool.false_eq_true, if_false, written.content, bytes]
    exact ⟨_, rfl⟩
  | rans64 =>
    have written : ((e.writeUnit32 (u32 (p.1 >>> 32))).writeUnit32 (u32 p.1)).Shows .rans64 (p.1, _) :=
      (Shows.write (x := p.1) h (by simp)).write (by simp)
    have bytes : leBytes 4 (u32 p.1) ++ (leBytes 4 (u32 (p.1 >>> 32)) ++ p.2) =
        RansVariant.frameBytes .rans64 p := by
      have low : leBytes 4 (u32 p.1) = leBytes 4 p.1 := leBytes_mod 4 p.1
      have high : leBytes 4 (u32 (p.1 >>> 32)) = leBytes 4 (p.1 / 256 ^ 4) := by
        rw [Nat.shiftRight_eq_div_pow]
        exact leBytes_mod 4 _
      rw [RansVariant.frameBytes, low, high, ← List.append_assoc, ← leBytes_add]
      rfl
    simp only [written.opened.oom, Bool.false_eq_true, if_false, written.content, bytes]
    exact ⟨_, rfl⟩

/-- `init_state` takes the state word, or refuses it below the lower bound. -/
theorem RansDecoder.initState_spec {d : RansDecoder} {v : RansVariant} {p : Nat × List UInt8}
    (h : d.Reads v (v.frameBytes p)) (hp : p.1 < 2 ^ v.stateBits) :
    ∃ r, d.initState = (if p.1 < v.lower then (false, r) else (true, { r with state := p.1 })) ∧
      r.Reads v p.2 ∧ r = { d with pos := r.pos } := by
  have small : p.1 < v.base ^ v.stateUnits := Nat.lt_of_lt_of_le hp (by cases v <;> decide)
  obtain ⟨r, loop, reads, same⟩ := initLoop_spec (i := 0) (x := 0) h small
  refine ⟨r, ?_, reads, same⟩
  rw [Nat.pow_zero, Nat.mul_one, Nat.zero_add] at loop
  have word : d.initWord = (some p.1, r) := by
    simp only [initWord, h.variant]
    cases v <;> exact loop
  simp only [initState, word, reads.variant]

/-- `open` on a stream of whole units. -/
theorem RansDecoder.open_frameBytes {d : RansDecoder} {v : RansVariant} {p : Nat × List UInt8}
    (variant : d.variant = v) (hp : p.1 < 2 ^ v.stateBits) (aligned : v.Aligned p.2) :
    ∃ d', d.open (v.frameBytes p) = (if p.1 < v.lower then .format else .ok, d') ∧
      (v.lower ≤ p.1 → d'.Shows v p ∧ d'.data = v.frameBytes p) := by
  have whole : (v.frameBytes p).length % d.variant.unitBytes = 0 := by
    apply Nat.mod_eq_zero_of_dvd
    rw [RansVariant.frameBytes, List.length_append, leBytes_length, variant]
    exact Nat.dvd_add (Nat.dvd_mul_right _ _) aligned
  have reads : { d with data := v.frameBytes p, pos := 0, opened := false }.Reads v (v.frameBytes p) :=
    ⟨variant, rfl, Nat.zero_le _⟩
  obtain ⟨r, state, left, same⟩ := initState_spec reads hp
  have data : r.data = v.frameBytes p := by rw [same]
  by_cases low : p.1 < v.lower
  · rw [if_pos low] at state
    refine ⟨r, ?_, fun ge => absurd low (by omega)⟩
    simp only [RansDecoder.open, whole, state, if_pos low, ne_eq, not_true_eq_false, if_false]
  · rw [if_neg low] at state
    refine ⟨{ r with state := p.1, opened := true }, ?_, fun _ => ⟨⟨rfl, rfl, left.variant, left.rest, left.pos⟩, data⟩⟩
    simp only [RansDecoder.open, whole, state, if_neg low, ne_eq, not_true_eq_false, if_false]

end Rkvc.Mlvc
