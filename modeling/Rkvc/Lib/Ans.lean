import Mathlib.Tactic.Ring
import Mathlib.Tactic.Linarith

/-!
# Asymmetric numeral systems with renormalisation

The arithmetic of a range variant ANS coder. A state `x` in `[L, L * B)` and a
stream of base-`B` digits form a stack. `push` codes one symbol of frequency
`f` and cumulative start `s` at scale `M`, `pop` takes it off again. Before a
push the state sheds its low digits onto the stream until it is below
`f * K * B`, where `L = K * M`; after a pop it is refilled until it is back at
`L`. Because `M` divides `L`, the pair keeps the state in the interval
(`Frame.encStep_mem`) and the two steps are inverse (`Frame.decStep_encStep`).

The last section is division by multiplication with a rounded-up reciprocal.
Nothing here depends on a particular coder: base, bound, scale and fuel are
parameters.
-/

namespace Rkvc.Lib.Ans
set_option autoImplicit false

/-! ## One symbol -/

/-- Code a symbol of frequency `f` and start `s` at scale `M` onto `x`. -/
def push (M f s x : Nat) : Nat := x / f * M + s + x % f

/-- Take a symbol of frequency `f` and start `s` at scale `M` off `x`. -/
def pop (M f s x : Nat) : Nat := f * (x / M) + x % M - s

section Symbol
variable {M f s : Nat}

theorem push_offset_lt (hf : 0 < f) (hs : s + f ≤ M) (x : Nat) : s + x % f < M := by
  have := Nat.mod_lt x hf
  omega

/-- The low digit of the coded state lies in the symbol's own range. -/
theorem push_mod (hf : 0 < f) (hs : s + f ≤ M) (x : Nat) : push M f s x % M = s + x % f := by
  have low := push_offset_lt hf hs x
  rw [push, Nat.add_assoc, Nat.mul_comm, Nat.mul_add_mod, Nat.mod_eq_of_lt low]

theorem push_div (hf : 0 < f) (hs : s + f ≤ M) (x : Nat) : push M f s x / M = x / f := by
  have low := push_offset_lt hf hs x
  rw [push, Nat.add_assoc, Nat.mul_comm, Nat.mul_add_div (by omega), Nat.div_eq_of_lt low,
    Nat.add_zero]

/-- Taking the symbol just coded gives the state back. -/
theorem pop_push (hf : 0 < f) (hs : s + f ≤ M) (x : Nat) : pop M f s (push M f s x) = x := by
  rw [pop, push_mod hf hs, push_div hf hs]
  have := Nat.div_add_mod x f
  omega

/-- A state below `f * K` is coded below `K * M`. -/
theorem push_lt {K x : Nat} (hf : 0 < f) (hs : s + f ≤ M) (hx : x < f * K) :
    push M f s x < K * M := by
  have low := push_offset_lt hf hs x
  have quot : x / f + 1 ≤ K := (Nat.div_lt_iff_lt_mul hf).2 (by rwa [Nat.mul_comm])
  have := Nat.mul_le_mul_right M quot
  rw [Nat.add_mul, Nat.one_mul] at this
  simp only [push]
  omega

/-- A state of at least `f * K` is coded to at least `K * M`. -/
theorem push_ge {K x : Nat} (hf : 0 < f) (hx : f * K ≤ x) : K * M ≤ push M f s x := by
  have quot : K ≤ x / f := (Nat.le_div_iff_mul_le hf).2 (by rwa [Nat.mul_comm])
  have := Nat.mul_le_mul_right M quot
  simp only [push]
  omega

end Symbol

/-! ## Renormalisation -/

/-- Shed at most `fuel` low digits of `x` while it is at least `xMax`. The
digits are listed in the order they are shed. -/
def shed (B xMax : Nat) : Nat → Nat → List Nat × Nat
  | 0, x => ([], x)
  | fuel + 1, x =>
    if x ≥ xMax then
      let (ds, y) := shed B xMax fuel (x / B)
      (x % B :: ds, y)
    else ([], x)

/-- Read at most `fuel` digits into `x` while it is below `L`. -/
def refill (B L fuel x : Nat) (ds : List Nat) : Option (Nat × List Nat) :=
  if L ≤ x then some (x, ds)
  else match fuel, ds with
    | 0, _ => none
    | _ + 1, [] => none
    | fuel + 1, d :: ds => refill B L fuel (x * B + d) ds

section Renorm
variable {B L xMax : Nat}

theorem refill_stop {fuel x : Nat} {ds : List Nat} (h : L ≤ x) : refill B L fuel x ds = some (x, ds) := by
  rw [refill.eq_def, if_pos h]

theorem refill_read {fuel x d : Nat} {ds : List Nat} (h : x < L) :
    refill B L (fuel + 1) x (d :: ds) = refill B L fuel (x * B + d) ds := by
  rw [refill.eq_def, if_neg (by omega)]

/-- More fuel never changes a refill that succeeded. -/
theorem refill_mono {fuel more x : Nat} {ds : List Nat} {r : Nat × List Nat}
    (h : refill B L fuel x ds = some r) (le : fuel ≤ more) : refill B L more x ds = some r := by
  induction fuel generalizing more x ds with
  | zero =>
    by_cases full : L ≤ x
    · rw [refill_stop full] at h ⊢; exact h
    · rw [refill.eq_def, if_neg full] at h; cases h
  | succ fuel ih =>
    by_cases full : L ≤ x
    · rw [refill_stop full] at h ⊢; exact h
    · cases ds with
      | nil => rw [refill.eq_def, if_neg full] at h; cases h
      | cons d ds =>
        obtain ⟨more, rfl⟩ : ∃ m, more = m + 1 := ⟨more - 1, by omega⟩
        rw [refill_read (by omega)] at h ⊢
        exact ih h (by omega)

theorem shed_digit_lt (hB : 0 < B) {fuel x : Nat} : ∀ d ∈ (shed B xMax fuel x).1, d < B := by
  induction fuel generalizing x with
  | zero => simp [shed]
  | succ fuel ih =>
    simp only [shed]
    split
    · intro d hd
      rcases List.mem_cons.1 hd with rfl | hd
      · exact Nat.mod_lt _ hB
      · exact ih d hd
    · simp

/-- The digits of a state below `L`, read back last digit first, rebuild it:
no partial value reaches `L`, so the refill does not stop early. -/
theorem refill_shed_below (xMax fuel m : Nat) {x : Nat} (rest : List Nat) (hx : x < L) :
    refill B L (m + (shed B xMax fuel x).1.length) (shed B xMax fuel x).2
      ((shed B xMax fuel x).1.reverse ++ rest) = refill B L m x rest := by
  induction fuel generalizing m x rest with
  | zero => simp [shed]
  | succ fuel ih =>
    simp only [shed]
    split
    · have below : x / B < L := Nat.lt_of_le_of_lt (Nat.div_le_self _ _) hx
      have step := @ih (m + 1) (x / B) (x % B :: rest) below
      simp only [List.length_cons, List.reverse_cons, List.append_assoc, List.singleton_append]
      rw [show m + ((shed B xMax fuel (x / B)).1.length + 1) =
        m + 1 + (shed B xMax fuel (x / B)).1.length by omega, step, refill_read below,
        Nat.mul_comm, Nat.div_add_mod]
    · simp

/-- **Refilling undoes shedding** for every state of the interval. -/
theorem refill_shed (xMax fuel : Nat) {x : Nat} (rest : List Nat) (lo : L ≤ x) (hi : x < L * B) :
    refill B L (shed B xMax fuel x).1.length (shed B xMax fuel x).2
      ((shed B xMax fuel x).1.reverse ++ rest) = some (x, rest) := by
  cases fuel with
  | zero => simpa [shed] using refill_stop lo
  | succ fuel =>
    simp only [shed]
    split
    · have below : x / B < L := Nat.div_lt_of_lt_mul (by rwa [Nat.mul_comm])
      have step := refill_shed_below (B := B) xMax fuel 1 (x % B :: rest) below
      simp only [List.length_cons, List.reverse_cons, List.append_assoc, List.singleton_append]
      rw [Nat.add_comm, step, refill_read below, Nat.mul_comm, Nat.div_add_mod, refill_stop lo]
    · simpa using refill_stop lo

/-- With fuel for `n` digits a state below `xMax * B ^ n` is shed below `xMax`. -/
theorem shed_lt {fuel x : Nat} (h : x < xMax * B ^ fuel) : (shed B xMax fuel x).2 < xMax := by
  induction fuel generalizing x with
  | zero => simpa [shed] using h
  | succ fuel ih =>
    simp only [shed]
    split
    · refine ih (Nat.div_lt_of_lt_mul ?_)
      calc x < xMax * B ^ (fuel + 1) := h
        _ = B * (xMax * B ^ fuel) := by ring
    · dsimp only; omega

/-- A state shed from above a multiple `n * B` of the base stays above `n`. -/
theorem shed_ge {n fuel x : Nat} (hB : 0 < B) (big : n * B ≤ xMax) (hx : n ≤ x) :
    n ≤ (shed B xMax fuel x).2 := by
  induction fuel generalizing x with
  | zero => simpa [shed] using hx
  | succ fuel ih =>
    simp only [shed]
    split
    · exact ih ((Nat.le_div_iff_mul_le hB).2 (by omega))
    · exact hx

/-- A refill ends at the bound. -/
theorem refill_ge {fuel x y : Nat} {ds rest : List Nat} (h : refill B L fuel x ds = some (y, rest)) : L ≤ y := by
  induction fuel generalizing x ds with
  | zero =>
    rw [refill.eq_def] at h
    split at h
    · cases h
      assumption
    · cases h
  | succ fuel ih =>
    by_cases full : L ≤ x
    · rw [refill_stop full] at h
      cases h
      exact full
    · cases ds with
      | nil =>
        rw [refill.eq_def, if_neg full] at h
        cases h
      | cons d ds =>
        rw [refill_read (Nat.lt_of_not_le full)] at h
        exact ih h

/-- A refill takes a front of the digits, and the state it started from is left on top of them. -/
theorem refill_quot {fuel x y : Nat} {ds rest : List Nat} (digits : ∀ d ∈ ds, d < B)
    (h : refill B L fuel x ds = some (y, rest)) : ∃ k, k ≤ ds.length ∧ rest = ds.drop k ∧ y / B ^ k = x := by
  induction fuel generalizing x ds with
  | zero =>
    rw [refill.eq_def] at h
    split at h
    · cases h
      exact ⟨0, Nat.zero_le _, rfl, by rw [Nat.pow_zero, Nat.div_one]⟩
    · cases h
  | succ fuel ih =>
    by_cases full : L ≤ x
    · rw [refill_stop full] at h
      cases h
      exact ⟨0, Nat.zero_le _, rfl, by rw [Nat.pow_zero, Nat.div_one]⟩
    · cases ds with
      | nil =>
        rw [refill.eq_def, if_neg full] at h
        cases h
      | cons d ds =>
        rw [refill_read (Nat.lt_of_not_le full)] at h
        obtain ⟨k, le, left, quot⟩ := ih (fun e mem => digits e (List.mem_cons_of_mem d mem)) h
        have digit := digits d List.mem_cons_self
        refine ⟨k + 1, Nat.succ_le_succ le, left, ?_⟩
        rw [Nat.pow_succ, ← Nat.div_div_eq_div_mul, quot, Nat.mul_comm, Nat.mul_add_div (by omega),
          Nat.div_eq_of_lt digit, Nat.add_zero]

/-- A refill stays below `L * B`. -/
theorem refill_lt {fuel x y : Nat} {ds rest : List Nat} (digits : ∀ d ∈ ds, d < B) (hx : x < L * B)
    (h : refill B L fuel x ds = some (y, rest)) : y < L * B := by
  induction fuel generalizing x ds with
  | zero =>
    rw [refill.eq_def] at h
    split at h
    · cases h
      exact hx
    · cases h
  | succ fuel ih =>
    by_cases full : L ≤ x
    · rw [refill_stop full] at h
      cases h
      exact hx
    · cases ds with
      | nil =>
        rw [refill.eq_def, if_neg full] at h
        cases h
      | cons d ds =>
        rw [refill_read (Nat.lt_of_not_le full)] at h
        apply ih (fun e mem => digits e (List.mem_cons_of_mem d mem)) _ h
        have digit := digits d List.mem_cons_self
        have below : (x + 1) * B ≤ L * B := Nat.mul_le_mul_right B (Nat.lt_of_not_le full)
        rw [Nat.succ_mul] at below
        omega

/-- Before its last digit a shed state was not below the threshold. -/
theorem shed_above {fuel x r : Nat} (h : r < (shed B xMax fuel x).1.length) : xMax ≤ x / B ^ r := by
  induction fuel generalizing x r with
  | zero => exact absurd h (Nat.not_lt_zero _)
  | succ fuel ih =>
    simp only [shed] at h
    split at h
    · rename_i above
      cases r with
      | zero => rwa [Nat.pow_zero, Nat.div_one]
      | succ r =>
        rw [Nat.pow_succ', ← Nat.div_div_eq_div_mul]
        exact ih (Nat.lt_of_succ_lt_succ h)
    · exact absurd h (Nat.not_lt_zero _)

end Renorm

/-! ## The coder's step -/

/-- The constants of one coder step: base `B`, lower bound `L = K * M`. -/
structure Frame where
  B : Nat
  K : Nat
  M : Nat
  base_pos : 0 < B
  k_pos : 0 < K

namespace Frame

/-- Lower bound of the state interval. -/
def L (F : Frame) : Nat := F.K * F.M

/-- The state interval `[L, L * B)`. -/
def Mem (F : Frame) (x : Nat) : Prop := F.L ≤ x ∧ x < F.L * F.B

/-- Shed, then push: the new state and the digits put in front of the stream. -/
def encStep (F : Frame) (fuel f s x : Nat) : Nat × List Nat :=
  let (ds, y) := shed F.B (f * F.K * F.B) fuel x
  (push F.M f s y, ds.reverse)

/-- Pop, then refill from the stream. -/
def decStep (F : Frame) (fuel f s x : Nat) (ds : List Nat) : Option (Nat × List Nat) :=
  refill F.B F.L fuel (pop F.M f s x) ds

variable {F : Frame} {fuel f s x : Nat}

/-- The shed state lies in `[f * K, f * K * B)`. -/
theorem shed_mem (hs : s + f ≤ F.M) (hx : F.Mem x)
    (enough : F.L * F.B ≤ f * F.K * F.B * F.B ^ fuel) :
    f * F.K ≤ (shed F.B (f * F.K * F.B) fuel x).2 ∧
      (shed F.B (f * F.K * F.B) fuel x).2 < f * (F.K * F.B) := by
  constructor
  · refine shed_ge F.base_pos (Nat.le_refl _) (Nat.le_trans ?_ hx.1)
    rw [L, Nat.mul_comm f]
    exact Nat.mul_le_mul_left _ (by omega)
  · rw [← Nat.mul_assoc]
    exact shed_lt (Nat.lt_of_lt_of_le hx.2 enough)

/-- **State interval**: a coder step keeps the state in `[L, L * B)`. -/
theorem encStep_mem (hf : 0 < f) (hs : s + f ≤ F.M) (hx : F.Mem x)
    (enough : F.L * F.B ≤ f * F.K * F.B * F.B ^ fuel) : F.Mem (F.encStep fuel f s x).1 := by
  obtain ⟨lo, hi⟩ := shed_mem hs hx enough
  refine ⟨push_ge hf lo, ?_⟩
  rw [L, Nat.mul_right_comm]
  exact push_lt hf hs hi

/-- **Round trip**: decoding the coded symbol restores state and stream. -/
theorem decStep_encStep {rest : List Nat} (hf : 0 < f) (hs : s + f ≤ F.M) (hx : F.Mem x) :
    F.decStep (F.encStep fuel f s x).2.length f s (F.encStep fuel f s x).1
      ((F.encStep fuel f s x).2 ++ rest) = some (x, rest) := by
  simp only [decStep, encStep, pop_push hf hs, List.length_reverse]
  exact refill_shed _ _ _ hx.1 hx.2

end Frame

/-! ## Division by a reciprocal -/

/-- With `r` the reciprocal `2 ^ N / f` rounded up, `x * r / 2 ^ N` is the exact
quotient as long as the rounding error `f * r - 2 ^ N`, scaled by `x`, stays
below `2 ^ N`. -/
theorem reciprocal_div {f N x r : Nat} (hf : 0 < f) (lo : 2 ^ N ≤ f * r)
    (err : x * (f * r - 2 ^ N) < 2 ^ N) : x * r / 2 ^ N = x / f := by
  have hN : 0 < 2 ^ N := Nat.two_pow_pos N
  obtain ⟨e, he⟩ : ∃ e, f * r = 2 ^ N + e := ⟨f * r - 2 ^ N, by omega⟩
  have small : x * e < 2 ^ N := by rwa [he, Nat.add_sub_cancel_left] at err
  have expand : f * (x * r) = x * 2 ^ N + x * e := by
    calc f * (x * r) = x * (f * r) := by ring
      _ = x * 2 ^ N + x * e := by rw [he]; ring
  apply Nat.div_eq_of_lt_le
  · refine Nat.le_of_mul_le_mul_left ?_ hf
    calc f * (x / f * 2 ^ N) = (f * (x / f)) * 2 ^ N := by ring
      _ ≤ x * 2 ^ N := Nat.mul_le_mul_right _ (Nat.mul_div_le x f)
      _ ≤ f * (x * r) := by omega
  · refine Nat.lt_of_mul_lt_mul_left (a := f) ?_
    have next : x + 1 ≤ f * (x / f + 1) := Nat.lt_mul_div_succ x hf
    calc f * (x * r) < (x + 1) * 2 ^ N := by rw [expand, Nat.add_mul, Nat.one_mul]; omega
      _ ≤ f * (x / f + 1) * 2 ^ N := Nat.mul_le_mul_right _ next
      _ = f * ((x / f + 1) * 2 ^ N) := by ring

/-- The rounded-up quotient `(n + f - 1) / f` is at least `n / f`, and over by
less than one. -/
theorem ceil_div_bounds {n f : Nat} (hf : 0 < f) :
    n ≤ f * ((n + (f - 1)) / f) ∧ f * ((n + (f - 1)) / f) - n < f := by
  have hdiv := Nat.div_add_mod (n + (f - 1)) f
  have hmod := Nat.mod_lt (n + (f - 1)) hf
  omega

end Rkvc.Lib.Ans
