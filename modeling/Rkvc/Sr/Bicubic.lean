import Mathlib.Tactic.Ring
import Mathlib.Tactic.FieldSimp
import Mathlib.Tactic.LinearCombination
import Rkvc.Lib.Store
import Rkvc.Sr.Residual

/-!
# The bicubic base picture

`post::bicubic_nv12` with floats as exact rationals. The weights of the four
taps on an axis sum to one at every phase (`weights_sum`), so constants are
kept, and at scale one the taps stand on the samples, so the picture is. Indices
are computed in `int`: a tap past `INT_MAX` is an overflow, and the scaler does
what it should exactly when no axis has one (`bicubicRight_iff`).
-/

namespace Rkvc.Sr
set_option autoImplicit false
open Lib

def cubicWeight (x : Rat) : Rat :=
  let a : Rat := -1 / 2
  let x := |x|
  if x < 1 then (a + 2) * x * x * x - (a + 3) * x * x + 1
  else if x < 2 then a * x * x * x - 5 * a * x * x + 8 * a * x - 4 * a
  else 0

def clampIndex (v : Int) (lim : Nat) : Nat :=
  if v < 0 then 0
  else if v.toNat ≥ lim then lim - 1
  else v.toNat

/-- An `int`, `none` when the value is out of its range. -/
def int (v : Int) : Option Int := if -2 ^ 31 ≤ v ∧ v < 2 ^ 31 then some v else none

/-- What a pointer reads: a byte at each offset it may be read at. -/
abbrev Pointer := Nat → Option UInt8

/-- The taps of a loop. -/
def taps : List Int := [-1, 0, 1, 2]

/-- The position of an output sample on an axis of the source. -/
def position (from' to' i : Nat) : Rat := ((i : Rat) + 1 / 2) * ((from' : Rat) / to') - 1 / 2

/-- The body of the inner loop: the two sums. -/
def tapTurn (src : Pointer) (sw stride px py : Nat) (sx wy : Rat) (ix : Int) (sums : Rat × Rat) (kx : Int) :
    Option (Rat × Rat) := do
  let x ← int (ix + kx)
  let wx := cubicWeight (sx - x)
  let w := wx * wy
  let sample ← src (py * stride + clampIndex x sw * px)
  return (sums.1 + sample.toNat * w, sums.2 + w)

/-- The body of the loop over the rows of taps. -/
def rowTurn (src : Pointer) (sw sh stride px : Nat) (sx sy : Rat) (ix iy : Int) (sums : Rat × Rat) (ky : Int) :
    Option (Rat × Rat) := do
  let y ← int (iy + ky)
  let wy := cubicWeight (sy - y)
  taps.foldlM (tapTurn src sw stride px (clampIndex y sh) sx wy ix) sums

/-- One output sample. -/
def bicubicSample (src : Pointer) (sw sh stride px : Nat) (sx sy : Rat) (iy : Int) : Option UInt8 := do
  let ix ← int ⌊sx⌋
  let (total, weights) ← taps.foldlM (rowTurn src sw sh stride px sx sy ix iy) (0, 0)
  let total := if |weights| > 1 / 10 ^ 8 then total / weights else total
  return clipU8 total

/-- The stores of `bicubic_channel`, in order. -/
def bicubicChannel (src : Pointer) (sw sh sStride sPx first dw dh dStride dPx : Nat) : Option (List (Nat × UInt8)) := do
  let rows ← (List.range dh).mapM fun y => do
    let iy ← int ⌊position sh dh y⌋
    (List.range dw).mapM fun x => do
      let value ← bicubicSample src sw sh sStride sPx (position sw dw x) (position sh dh y) iy
      return (first + y * dStride + x * dPx, value)
  return rows.flatten

/-- The stores of the three planes. -/
def bicubicStores (src : Pointer) (sw sh sStride sVstride dw dh : Nat) : Option (List (Nat × UInt8)) := do
  let srcUv := sStride * sVstride
  let dstUv := dw * dh
  let y ← bicubicChannel src sw sh sStride 1 0 dw dh dw 1
  let u ← bicubicChannel (fun i => src (srcUv + i)) (sw / 2) (sh / 2) sStride 2 dstUv (dw / 2) (dh / 2) dw 2
  let v ← bicubicChannel (fun i => src (srcUv + 1 + i)) (sw / 2) (sh / 2) sStride 2 (dstUv + 1) (dw / 2) (dh / 2) dw 2
  return y ++ u ++ v

/-- **`bicubic_nv12`**; `none` when a read or a store leaves its array, or an index is not an `int`. A null
pointer is `none`. -/
def bicubicNv12 (src : Option Pointer) (sw sh sStride sVstride : Nat) (dst : Option (List UInt8)) (dw dh : Nat) :
    Option (Status × Option (List UInt8)) :=
  match src, dst with
  | some src, some dst =>
    if sw = 0 ∨ sh = 0 ∨ dw = 0 ∨ dh = 0 ∨ sw % 2 = 1 ∨ sh % 2 = 1 ∨ dw % 2 = 1 ∨ dh % 2 = 1 ∨ sStride < sw ∨
        sVstride < sh then some (.invalid, some dst)
    else do
      let stores ← bicubicStores src sw sh sStride sVstride dw dh
      if stores.all (·.1 < dst.length) then return (.ok, some (store dst stores)) else none
  | _, dst => some (.invalid, dst)

/-! ## The kernel -/

/-- On `[0, 1]` the weight is its first polynomial. -/
theorem cubicWeight_near {t : Rat} (lo : 0 ≤ t) (hi : t ≤ 1) : cubicWeight t = 3 / 2 * t ^ 3 - 5 / 2 * t ^ 2 + 1 := by
  rw [cubicWeight, abs_of_nonneg lo]
  split
  · ring
  · rename_i above
    have one : t = 1 := le_antisymm hi (not_lt.1 above)
    subst one
    norm_num

/-- On `[1, 2]` it is its second. -/
theorem cubicWeight_far {t : Rat} (lo : 1 ≤ t) (hi : t ≤ 2) :
    cubicWeight t = -1 / 2 * t ^ 3 + 5 / 2 * t ^ 2 - 4 * t + 2 := by
  rw [cubicWeight, abs_of_nonneg (by linarith)]
  rw [if_neg (not_lt.2 lo)]
  split
  · ring
  · rename_i above
    have two : t = 2 := le_antisymm hi (not_lt.1 above)
    subst two
    norm_num

theorem cubicWeight_neg (t : Rat) : cubicWeight (-t) = cubicWeight t := by
  rw [cubicWeight, cubicWeight, abs_neg]

/-- The weight of tap `k` for a sample at `s`. -/
def weight (s : Rat) (k : Int) : Rat := cubicWeight (s - (⌊s⌋ + k : Int))

/-- **Partition of unity**: the four weights sum to one at every phase. -/
theorem weights_sum (s : Rat) : weight s (-1) + weight s 0 + weight s 1 + weight s 2 = 1 := by
  have lo := Int.floor_le s
  have hi := Int.lt_floor_add_one s
  obtain ⟨t, ht⟩ : ∃ t, t = s - ⌊s⌋ := ⟨_, rfl⟩
  have w1 : weight s (-1) = cubicWeight (t + 1) := by
    rw [weight, ht]
    push_cast
    ring_nf
  have w2 : weight s 0 = cubicWeight t := by
    rw [weight, ht]
    push_cast
    ring_nf
  have w3 : weight s 1 = cubicWeight (1 - t) := by
    rw [weight, ht, ← cubicWeight_neg]
    push_cast
    ring_nf
  have w4 : weight s 2 = cubicWeight (2 - t) := by
    rw [weight, ht, ← cubicWeight_neg]
    push_cast
    ring_nf
  rw [w1, w2, w3, w4, cubicWeight_far (by linarith) (by linarith), cubicWeight_near (by linarith) (by linarith),
    cubicWeight_near (by linarith) (by linarith), cubicWeight_far (by linarith) (by linarith)]
  ring

/-- On a sample only its own tap counts. -/
theorem weight_intCast (n : Int) (k : Int) (mem : k ∈ taps) : weight (n : Rat) k = if k = 0 then 1 else 0 := by
  have floor : ⌊(n : Rat)⌋ = n := Int.floor_intCast n
  have dist : (n : Rat) - ((n + k : Int) : Rat) = -(k : Rat) := by
    push_cast
    ring
  rw [weight, floor, dist, cubicWeight_neg]
  simp only [taps, List.mem_cons, List.not_mem_nil, or_false] at mem
  rcases mem with rfl | rfl | rfl | rfl <;> simp [cubicWeight] <;> norm_num

/-! ## One sample -/

/-- A position whose taps are computed in an `int`. -/
structure InRange (s : Rat) : Prop where
  lo : -1 ≤ ⌊s⌋
  hi : ⌊s⌋ + 2 < 2 ^ 31

/-- A plane of `sh` rows of `sw` samples, `px` bytes apart. -/
def Reads (src : Pointer) (sw sh stride px : Nat) (f : Nat → Nat → UInt8) : Prop :=
  ∀ y < sh, ∀ x < sw, src (y * stride + x * px) = some (f y x)

/-- The weighted sum of the sixteen taps. -/
def interpolated (f : Nat → Nat → UInt8) (sw sh : Nat) (sx sy : Rat) : Rat :=
  (taps.map fun ky => (taps.map fun kx =>
    ((f (clampIndex (⌊sy⌋ + ky) sh) (clampIndex (⌊sx⌋ + kx) sw)).toNat : Rat) * (weight sx kx * weight sy ky)).sum).sum

theorem clampIndex_lt {lim : Nat} (positive : 0 < lim) (v : Int) : clampIndex v lim < lim := by
  rw [clampIndex]
  split
  · exact positive
  · split <;> omega

theorem clampIndex_natCast {n lim : Nat} (below : n < lim) : clampIndex (n : Int) lim = n := by
  rw [clampIndex, if_neg (by omega), if_neg (by omega)]
  rfl

theorem InRange.tap {s : Rat} (fits : InRange s) {k : Int} (mem : k ∈ taps) : int (⌊s⌋ + k) = some (⌊s⌋ + k) := by
  have lo := fits.lo
  have hi := fits.hi
  simp only [taps, List.mem_cons, List.not_mem_nil, or_false] at mem
  exact if_pos (by omega)

theorem InRange.floor {s : Rat} (fits : InRange s) : int ⌊s⌋ = some ⌊s⌋ := by
  have := fits.tap (k := 0) (by decide)
  rwa [Int.add_zero] at this

/-- A loop that adds to two sums. -/
theorem foldlM_sums {step : Rat × Rat → Int → Option (Rat × Rat)} {a b : Int → Rat} {l : List Int}
    (each : ∀ k ∈ l, ∀ sums, step sums k = some (sums.1 + a k, sums.2 + b k)) (sums : Rat × Rat) :
    l.foldlM step sums = some (sums.1 + (l.map a).sum, sums.2 + (l.map b).sum) := by
  induction l generalizing sums with
  | nil => simp
  | cons k l ih =>
    rw [List.foldlM_cons, each k List.mem_cons_self, Option.bind_eq_bind, Option.bind_some,
      ih (fun j mem => each j (List.mem_cons_of_mem _ mem))]
    simp only [List.map_cons, List.sum_cons, add_assoc]

/-- The weights of an axis, scaled. -/
theorem weights_sum_mul (s c : Rat) : (taps.map fun k => weight s k * c).sum = c := by
  have unit := weights_sum s
  simp only [taps, List.map_cons, List.map_nil, List.sum_cons, List.sum_nil]
  linear_combination c * unit

section Sample
variable {src : Pointer} {f : Nat → Nat → UInt8} {sw sh stride px : Nat} {sx sy : Rat}

theorem rowTurn_eq (reads : Reads src sw sh stride px f) (wide : 0 < sw) (high : 0 < sh) (hx : InRange sx)
    (hy : InRange sy) {ky : Int} (mem : ky ∈ taps) (sums : Rat × Rat) :
    rowTurn src sw sh stride px sx sy ⌊sx⌋ ⌊sy⌋ sums ky = some (sums.1 + (taps.map fun kx =>
      ((f (clampIndex (⌊sy⌋ + ky) sh) (clampIndex (⌊sx⌋ + kx) sw)).toNat : Rat) * (weight sx kx * weight sy ky)).sum,
      sums.2 + weight sy ky) := by
  have turn : ∀ kx ∈ taps, ∀ sums,
      tapTurn src sw stride px (clampIndex (⌊sy⌋ + ky) sh) sx (weight sy ky) ⌊sx⌋ sums kx =
        some (sums.1 + ((f (clampIndex (⌊sy⌋ + ky) sh) (clampIndex (⌊sx⌋ + kx) sw)).toNat : Rat) *
          (weight sx kx * weight sy ky), sums.2 + weight sx kx * weight sy ky) := by
    intro kx mem sums
    simp only [tapTurn, hx.tap mem, reads _ (clampIndex_lt high _) _ (clampIndex_lt wide _), Option.bind_eq_bind,
      Option.bind_some, Option.pure_def]
    rfl
  have ran := foldlM_sums turn sums
  rw [weights_sum_mul] at ran
  simp only [rowTurn, hy.tap mem, Option.bind_eq_bind, Option.bind_some]
  exact ran

/-- **One sample**: the weighted sum of the taps, clipped. -/
theorem bicubicSample_eq (reads : Reads src sw sh stride px f) (wide : 0 < sw) (high : 0 < sh) (hx : InRange sx)
    (hy : InRange sy) :
    bicubicSample src sw sh stride px sx sy ⌊sy⌋ = some (clipU8 (interpolated f sw sh sx sy)) := by
  have ran := foldlM_sums (fun ky mem sums => rowTurn_eq reads wide high hx hy mem sums) (0, 0)
  have unit := weights_sum_mul sy 1
  simp only [mul_one] at unit
  rw [unit, zero_add, zero_add] at ran
  have counts : |(1 : Rat)| > 1 / 10 ^ 8 := by norm_num
  simp only [bicubicSample, hx.floor, ran, Option.bind_eq_bind, Option.bind_some, if_pos counts, div_one,
    Option.pure_def]
  rfl

/-- A constant plane is interpolated to its constant. -/
theorem interpolated_const {c : UInt8} (wide : 0 < sw) (high : 0 < sh) (const : ∀ y < sh, ∀ x < sw, f y x = c)
    (sx sy : Rat) : interpolated f sw sh sx sy = c.toNat := by
  have taken : interpolated f sw sh sx sy =
      (taps.map fun ky => (taps.map fun kx => weight sx kx * (weight sy ky * c.toNat)).sum).sum := by
    rw [interpolated]
    congr 1
    apply List.map_congr_left
    intro ky _
    congr 1
    apply List.map_congr_left
    intro kx _
    rw [const _ (clampIndex_lt high _) _ (clampIndex_lt wide _)]
    ring
  rw [taken]
  simp only [weights_sum_mul]

/-- On a sample its own value is taken. -/
theorem interpolated_sample {y x : Nat} (hy : y < sh) (hx : x < sw) :
    interpolated f sw sh ((x : Int) : Rat) ((y : Int) : Rat) = (f y x).toNat := by
  have w : ∀ n : Nat, weight ((n : Int) : Rat) (-1) = 0 ∧ weight ((n : Int) : Rat) 0 = 1 ∧
      weight ((n : Int) : Rat) 1 = 0 ∧ weight ((n : Int) : Rat) 2 = 0 := by
    intro n
    refine ⟨?_, ?_, ?_, ?_⟩ <;> rw [weight_intCast _ _ (by decide)] <;> rfl
  obtain ⟨x0, x1, x2, x3⟩ := w x
  obtain ⟨y0, y1, y2, y3⟩ := w y
  simp only [interpolated, taps, List.map_cons, List.map_nil, List.sum_cons, List.sum_nil, x0, x1, x2, x3, y0, y1, y2,
    y3, mul_zero, mul_one, add_zero, zero_add, Int.floor_intCast, clampIndex_natCast hy, clampIndex_natCast hx]

end Sample

/-! ## One plane -/

/-- The last tap of an axis, that of the last sample, is an `int`. -/
def AxisFits (s d : Nat) : Prop := ⌊position s d (d - 1)⌋ + 2 < 2 ^ 31

instance (s d : Nat) : Decidable (AxisFits s d) := inferInstanceAs (Decidable (_ < _))

section Axis
variable {s d : Nat}

theorem position_mono (s d : Nat) {i j : Nat} (le : i ≤ j) : position s d i ≤ position s d j := by
  have ratio : (0 : Rat) ≤ (s : Rat) / d := by positivity
  have order : (i : Rat) ≤ j := Nat.cast_le.2 le
  rw [position, position]
  gcongr

theorem AxisFits.inRange (fits : AxisFits s d) {i : Nat} (below : i < d) : InRange (position s d i) where
  lo := by
    apply Int.le_floor.2
    have ratio : (0 : Rat) ≤ (s : Rat) / d := by positivity
    have pos : (0 : Rat) ≤ ((i : Rat) + 1 / 2) * ((s : Rat) / d) := by positivity
    rw [position]
    push_cast
    linarith
  hi := by
    have mono := Int.floor_le_floor (position_mono s d (show i ≤ d - 1 by omega))
    have last : ⌊position s d (d - 1)⌋ + 2 < 2 ^ 31 := fits
    omega

/-- At scale one an output sample stands on a sample. -/
theorem position_same {d : Nat} (positive : 0 < d) (i : Nat) : position d d i = ((i : Int) : Rat) := by
  have ne : (d : Rat) ≠ 0 := by positivity
  rw [position, div_self ne, mul_one, add_sub_cancel_right, Int.cast_natCast]

/-- Halving both sizes keeps the scale. -/
theorem position_half (hs : s % 2 = 0) (hd : d % 2 = 0) (i : Nat) : position (s / 2) (d / 2) i = position s d i := by
  obtain ⟨m, rfl⟩ : ∃ m, s = 2 * m := ⟨s / 2, by omega⟩
  obtain ⟨n, rfl⟩ : ∃ n, d = 2 * n := ⟨d / 2, by omega⟩
  have ratio : ((2 * m : Nat) : Rat) / ((2 * n : Nat) : Rat) = (m : Rat) / n := by
    push_cast
    rw [mul_div_mul_left _ _ (by norm_num)]
  rw [position, position, ratio, Nat.mul_div_cancel_left _ (by decide), Nat.mul_div_cancel_left _ (by decide)]

/-- A chroma axis has the positions of the luma axis. -/
theorem AxisFits.half (fits : AxisFits s d) (hs : s % 2 = 0) (hd : d % 2 = 0) {i : Nat} (below : i < d / 2) :
    InRange (position (s / 2) (d / 2) i) := by
  rw [position_half hs hd]
  exact fits.inRange (by omega)

end Axis

section Plane
variable {src : Pointer} {f : Nat → Nat → UInt8} {sw sh stride px dw dh first dStride dPx : Nat}

/-- An output sample of a plane. -/
def resampled (f : Nat → Nat → UInt8) (sw sh dw dh y x : Nat) : UInt8 :=
  clipU8 (interpolated f sw sh (position sw dw x) (position sh dh y))

/-- The stores of a plane: a sample of the output each. -/
def planeStores (value : Nat → Nat → UInt8) (dw dh first dStride dPx : Nat) : List (Nat × UInt8) :=
  (List.range dh).flatMap fun y => (List.range dw).map fun x => (first + y * dStride + x * dPx, value y x)

theorem mem_planeStores {value : Nat → Nat → UInt8} {w : Nat × UInt8} :
    w ∈ planeStores value dw dh first dStride dPx ↔
      ∃ y < dh, ∃ x < dw, w = (first + y * dStride + x * dPx, value y x) := by
  simp only [planeStores, List.mem_flatMap, List.mem_range, List.mem_map]
  constructor
  · rintro ⟨y, hy, x, hx, rfl⟩
    exact ⟨y, hy, x, hx, rfl⟩
  · rintro ⟨y, hy, x, hx, rfl⟩
    exact ⟨y, hy, x, hx, rfl⟩

theorem bicubicChannel_eq (reads : Reads src sw sh stride px f) (wide : 0 < sw) (high : 0 < sh)
    (hx : ∀ x < dw, InRange (position sw dw x)) (hy : ∀ y < dh, InRange (position sh dh y)) :
    bicubicChannel src sw sh stride px first dw dh dStride dPx =
      some (planeStores (resampled f sw sh dw dh) dw dh first dStride dPx) := by
  have rows : (List.range dh).mapM (fun y => do
      let iy ← int ⌊position sh dh y⌋
      (List.range dw).mapM fun x => do
        let value ← bicubicSample src sw sh stride px (position sw dw x) (position sh dh y) iy
        return (first + y * dStride + x * dPx, value)) =
      some ((List.range dh).map fun y => (List.range dw).map fun x =>
        (first + y * dStride + x * dPx, resampled f sw sh dw dh y x)) := by
    apply mapM_some
    intro y memY
    have inY := hy y (List.mem_range.1 memY)
    rw [inY.floor, Option.bind_eq_bind, Option.bind_some]
    apply mapM_some
    intro x memX
    have inX := hx x (List.mem_range.1 memX)
    rw [bicubicSample_eq reads wide high inX inY]
    rfl
  rw [bicubicChannel, rows]
  rfl

/-- A loop that ends has run every turn. -/
theorem foldlM_turn {α β : Type} {step : α → β → Option α} {l : List β} {s : α} (done : (l.foldlM step s).isSome)
    {b : β} (mem : b ∈ l) : ∃ s', (step s' b).isSome := by
  induction l generalizing s with
  | nil => cases mem
  | cons c l ih =>
    rw [List.foldlM_cons, Option.bind_eq_bind, Option.isSome_bind, Option.any_eq_true] at done
    obtain ⟨s', first, rest⟩ := done
    rcases List.mem_cons.1 mem with rfl | mem
    · exact ⟨s, by rw [first]; rfl⟩
    · exact ih rest mem

theorem int_isSome {v : Int} (fits : (int v).isSome) : v < 2 ^ 31 := by
  rw [int] at fits
  split at fits
  · rename_i range
    exact range.2
  · cases fits

/-- A plane that is scaled has the last taps of both axes in an `int`. -/
theorem bicubicChannel_fits (wide : 0 < dw) (high : 0 < dh)
    (done : (bicubicChannel src sw sh stride px first dw dh dStride dPx).isSome) : AxisFits sw dw ∧ AxisFits sh dh := by
  simp only [bicubicChannel, Option.bind_eq_bind, Option.isSome_bind, Option.any_eq_true, Option.pure_def] at done
  obtain ⟨rows, ran, -⟩ := done
  have row := (isSome_mapM _ _).1 (Option.isSome_of_eq_some ran) (dh - 1) (List.mem_range.2 (by omega))
  rw [Option.isSome_bind, Option.any_eq_true] at row
  obtain ⟨iy, rowAt, row⟩ := row
  have sample := (isSome_mapM _ _).1 row (dw - 1) (List.mem_range.2 (by omega))
  rw [Option.isSome_bind, Option.any_eq_true] at sample
  obtain ⟨value, sample, -⟩ := sample
  simp only [bicubicSample, Option.bind_eq_bind, Option.bind_eq_some_iff] at sample
  obtain ⟨ix, colAt, sums, ran, -⟩ := sample
  -- the tap at two of both loops
  obtain ⟨_, two⟩ := foldlM_turn (Option.isSome_of_eq_some ran) (show (2 : Int) ∈ taps by decide)
  simp only [rowTurn, Option.bind_eq_bind, Option.isSome_bind, Option.any_eq_true] at two
  obtain ⟨y, tapY, inner⟩ := two
  obtain ⟨_, turn⟩ := foldlM_turn inner (show (2 : Int) ∈ taps by decide)
  simp only [tapTurn, Option.bind_eq_bind, Option.isSome_bind, Option.any_eq_true] at turn
  obtain ⟨x, tapX, -⟩ := turn
  have floor : ∀ {v n : Int}, int v = some n → n = v := by
    intro v n read
    rw [int] at read
    split at read
    · exact (Option.some.inj read).symm
    · cases read
  rw [floor rowAt] at tapY
  rw [floor colAt] at tapX
  exact ⟨int_isSome (Option.isSome_of_eq_some tapX), int_isSome (Option.isSome_of_eq_some tapY)⟩

end Plane

/-! ## The picture -/

/-- The sizes the scaler takes. -/
structure Geometry where
  sw : Nat
  sh : Nat
  sStride : Nat
  sVstride : Nat
  dw : Nat
  dh : Nat
  sw_even : sw % 2 = 0
  sh_even : sh % 2 = 0
  dw_even : dw % 2 = 0
  dh_even : dh % 2 = 0
  sw_two : 2 ≤ sw
  sh_two : 2 ≤ sh
  dw_two : 2 ≤ dw
  dh_two : 2 ≤ dh
  wide : sw ≤ sStride
  high : sh ≤ sVstride

namespace Geometry

/-- The bytes of the output. -/
def size (g : Geometry) : Nat := g.dw * g.dh + g.dw * (g.dh / 2)

/-- Where the source's chroma plane begins. -/
def uv (g : Geometry) : Nat := g.sStride * g.sVstride

/-- The places of the source's visible samples. -/
def visible (g : Geometry) (i : Nat) : Bool :=
  (i % g.sStride < g.sw && i / g.sStride < g.sh) ||
    (g.uv ≤ i && (i - g.uv) % g.sStride < g.sw && (i - g.uv) / g.sStride < g.sh / 2)

/-- A buffer of which nothing but visible samples can be read. -/
def shown (g : Geometry) (buf : List UInt8) : Pointer := fun i => if g.visible i then buf[i]? else none

/-- Both axes have their last taps in an `int`. -/
def Fits (g : Geometry) : Prop := AxisFits g.sw g.dw ∧ AxisFits g.sh g.dh

/-- What an output is of the visible picture in `buf`: a constant plane stays constant, and an equal size is the
picture. -/
structure Output (g : Geometry) (buf out : List UInt8) : Prop where
  luma_const : ∀ c, (∀ y < g.sh, ∀ x < g.sw, buf[y * g.sStride + x]? = some c) →
    ∀ y < g.dh, ∀ x < g.dw, out[y * g.dw + x]? = some c
  chroma_const : ∀ k < 2, ∀ c, (∀ y < g.sh / 2, ∀ x < g.sw / 2, buf[g.uv + y * g.sStride + (2 * x + k)]? = some c) →
    ∀ y < g.dh / 2, ∀ x < g.dw / 2, out[g.dw * g.dh + y * g.dw + (2 * x + k)]? = some c
  identity : g.dw = g.sw → g.dh = g.sh →
    (∀ y < g.sh, ∀ x < g.sw, out[y * g.dw + x]? = buf[y * g.sStride + x]?) ∧
      ∀ y < g.sh / 2, ∀ x < g.sw, out[g.dw * g.dh + y * g.dw + x]? = buf[g.uv + y * g.sStride + x]?

/-- The scaler does what it should: it returns, writes every byte of the output once, reads visible samples only,
and keeps constants and pictures of the same size. -/
def Right (g : Geometry) : Prop :=
  ∀ buf dst : List UInt8, (∀ i, g.visible i → i < buf.length) → g.size ≤ dst.length →
    ∃ stores, bicubicNv12 (some (g.shown buf)) g.sw g.sh g.sStride g.sVstride (some dst) g.dw g.dh =
        some (.ok, some (store dst stores)) ∧
      (stores.map Prod.fst).Perm (List.range g.size) ∧ g.Output buf (store dst stores)

/-- The luma samples of a buffer. -/
def luma (g : Geometry) (buf : List UInt8) (y x : Nat) : UInt8 := buf.getD (y * g.sStride + x) 0

/-- The chroma samples of a buffer, those of plane `k`. -/
def chroma (g : Geometry) (buf : List UInt8) (k y x : Nat) : UInt8 := buf.getD (g.uv + y * g.sStride + (2 * x + k)) 0

/-- The stores of the three planes. -/
def stores (g : Geometry) (buf : List UInt8) : List (Nat × UInt8) :=
  planeStores (resampled (g.luma buf) g.sw g.sh g.dw g.dh) g.dw g.dh 0 g.dw 1 ++
    planeStores (resampled (g.chroma buf 0) (g.sw / 2) (g.sh / 2) (g.dw / 2) (g.dh / 2)) (g.dw / 2) (g.dh / 2)
      (g.dw * g.dh) g.dw 2 ++
    planeStores (resampled (g.chroma buf 1) (g.sw / 2) (g.sh / 2) (g.dw / 2) (g.dh / 2)) (g.dw / 2) (g.dh / 2)
      (g.dw * g.dh + 1) g.dw 2

variable {g : Geometry} {buf dst : List UInt8}

theorem visible_luma {y x : Nat} (hy : y < g.sh) (hx : x < g.sw) : g.visible (y * g.sStride + x) := by
  obtain ⟨row, col⟩ := row_at (r := y) (Nat.lt_of_lt_of_le hx g.wide)
  simp [visible, col, row, hx, hy]

theorem visible_chroma {y x : Nat} (hy : y < g.sh / 2) (hx : x < g.sw) : g.visible (g.uv + y * g.sStride + x) := by
  obtain ⟨row, col⟩ := row_at (r := y) (Nat.lt_of_lt_of_le hx g.wide)
  have le : g.uv ≤ g.uv + (y * g.sStride + x) := Nat.le_add_right _ _
  rw [Nat.add_assoc]
  simp [visible, col, row, hx, hy, le]

/-- A source of two luma sizes holds the visible samples. -/
theorem visible_lt {i : Nat} (seen : g.visible i) : i < g.uv + g.uv := by
  have high := g.high
  have rows : ∀ {k n : Nat}, k / g.sStride < n → n ≤ g.sVstride → k < g.uv := by
    intro k n row le
    have stride : 0 < g.sStride := by
      have := g.sw_two
      have := g.wide
      omega
    have top : n * g.sStride ≤ g.sVstride * g.sStride := Nat.mul_le_mul_right _ le
    have lt := (Nat.div_lt_iff_lt_mul stride).1 row
    rw [uv, Nat.mul_comm]
    omega
  simp only [visible, Bool.or_eq_true, Bool.and_eq_true, decide_eq_true_eq] at seen
  rcases seen with ⟨-, row⟩ | ⟨⟨past, -⟩, row⟩
  · have := rows row high
    omega
  · have := rows row (by omega)
    omega

theorem shown_eq (room : ∀ i, g.visible i → i < buf.length) {i : Nat} (seen : g.visible i) :
    g.shown buf i = some (buf.getD i 0) := by
  rw [shown, if_pos seen, List.getD_eq_getElem?_getD, List.getElem?_eq_getElem (room i seen), Option.getD_some]

theorem read_eq (room : ∀ i, g.visible i → i < buf.length) {i : Nat} (seen : g.visible i) :
    buf[i]? = some (buf.getD i 0) := by
  rw [← shown_eq room seen, shown, if_pos seen]

theorem reads_luma (room : ∀ i, g.visible i → i < buf.length) :
    Reads (g.shown buf) g.sw g.sh g.sStride 1 (g.luma buf) := by
  intro y hy x hx
  rw [Nat.mul_one, shown_eq room (visible_luma hy hx), luma]

theorem reads_chroma (room : ∀ i, g.visible i → i < buf.length) {k : Nat} (hk : k < 2) :
    Reads (fun i => g.shown buf (g.uv + k + i)) (g.sw / 2) (g.sh / 2) g.sStride 2 (g.chroma buf k) := by
  intro y hy x hx
  have place : g.uv + k + (y * g.sStride + x * 2) = g.uv + y * g.sStride + (2 * x + k) := by ring
  show g.shown buf (g.uv + k + (y * g.sStride + x * 2)) = _
  rw [place, shown_eq room (visible_chroma hy (by omega)), chroma]

/-- The scaler makes its stores, whatever else can be read. -/
theorem bicubicStores_reads {src : Pointer} (fits : g.Fits) (lumaReads : Reads src g.sw g.sh g.sStride 1 (g.luma buf))
    (chromaReads : ∀ k < 2, Reads (fun i => src (g.uv + k + i)) (g.sw / 2) (g.sh / 2) g.sStride 2 (g.chroma buf k)) :
    bicubicStores src g.sw g.sh g.sStride g.sVstride g.dw g.dh = some (g.stores buf) := by
  have sw := g.sw_two
  have sh := g.sh_two
  have luma : ∀ first dStride dPx, bicubicChannel src g.sw g.sh g.sStride 1 first g.dw g.dh dStride dPx =
      some (planeStores (resampled (g.luma buf) g.sw g.sh g.dw g.dh) g.dw g.dh first dStride dPx) := by
    intro first dStride dPx
    exact bicubicChannel_eq lumaReads (by omega) (by omega) (fun _ below => fits.1.inRange below)
      fun _ below => fits.2.inRange below
  have chroma : ∀ k < 2, ∀ first dStride dPx,
      bicubicChannel (fun i => src (g.uv + k + i)) (g.sw / 2) (g.sh / 2) g.sStride 2 first (g.dw / 2)
          (g.dh / 2) dStride dPx =
        some (planeStores (resampled (g.chroma buf k) (g.sw / 2) (g.sh / 2) (g.dw / 2) (g.dh / 2)) (g.dw / 2)
          (g.dh / 2) first dStride dPx) := by
    intro k hk first dStride dPx
    exact bicubicChannel_eq (chromaReads k hk) (by omega) (by omega)
      (fun _ below => fits.1.half g.sw_even g.dw_even below) fun _ below => fits.2.half g.sh_even g.dh_even below
  have u := chroma 0 (by decide) (g.dw * g.dh) g.dw 2
  have v := chroma 1 (by decide) (g.dw * g.dh + 1) g.dw 2
  simp only [uv, Nat.add_zero] at u v
  simp only [bicubicStores, luma, u, v, Option.bind_eq_bind, Option.bind_some, Option.pure_def]
  rfl

/-! ### The places -/

theorem length_planeStores {value : Nat → Nat → UInt8} {dw dh first dStride dPx : Nat} :
    (planeStores value dw dh first dStride dPx).length = dh * dw := by
  simp [planeStores, List.length_flatMap]

/-- **Every byte of the output is stored to once**, and no other. -/
theorem stores_perm (g : Geometry) (buf : List UInt8) : ((g.stores buf).map Prod.fst).Perm (List.range g.size) := by
  have dw := g.dw_even
  have wide := g.dw_two
  apply perm_range
  · obtain ⟨n, half⟩ : ∃ n, g.dw = 2 * n := ⟨g.dw / 2, by omega⟩
    rw [List.length_map, stores, List.length_append, List.length_append, length_planeStores, length_planeStores,
      length_planeStores, size, half, Nat.mul_div_cancel_left _ (by decide)]
    ring
  intro i hi
  rw [size] at hi
  rw [List.mem_map]
  by_cases luma : i < g.dw * g.dh
  · refine ⟨_, List.mem_append_left _ (List.mem_append_left _ (mem_planeStores.2
      ⟨i / g.dw, Nat.div_lt_of_lt_mul luma, i % g.dw, Nat.mod_lt _ (by omega), rfl⟩)), ?_⟩
    have back := Nat.div_add_mod' i g.dw
    show 0 + i / g.dw * g.dw + i % g.dw * 1 = i
    omega
  · obtain ⟨k, rfl⟩ : ∃ k, i = g.dw * g.dh + k := ⟨i - g.dw * g.dh, by omega⟩
    have row : k / g.dw < g.dh / 2 := Nat.div_lt_of_lt_mul (by omega)
    have col : k % g.dw < g.dw := Nat.mod_lt _ (by omega)
    have back := Nat.div_add_mod' k g.dw
    rcases Nat.mod_two_eq_zero_or_one (k % g.dw) with even | odd
    · refine ⟨_, List.mem_append_left _ (List.mem_append_right _ (mem_planeStores.2
        ⟨k / g.dw, row, k % g.dw / 2, by omega, rfl⟩)), ?_⟩
      show g.dw * g.dh + k / g.dw * g.dw + k % g.dw / 2 * 2 = g.dw * g.dh + k
      omega
    · refine ⟨_, List.mem_append_right _ (mem_planeStores.2
        ⟨k / g.dw, row, k % g.dw / 2, by omega, rfl⟩), ?_⟩
      show g.dw * g.dh + 1 + k / g.dw * g.dw + k % g.dw / 2 * 2 = g.dw * g.dh + k
      omega

section Output

/-- What the output holds where a store goes. -/
theorem output_at (room : g.size ≤ dst.length) {i : Nat} {c : UInt8} (mem : (i, c) ∈ g.stores buf) :
    (store dst (g.stores buf))[i]? = some c := by
  have perm := g.stores_perm buf
  have inside : i < g.size := List.mem_range.1 (perm.mem_iff.1 (List.mem_map_of_mem mem))
  exact store_getElem? (agree_of_nodup (perm.nodup_iff.2 List.nodup_range)) mem (by omega)

theorem output_luma (room : g.size ≤ dst.length) {y x : Nat} (hy : y < g.dh) (hx : x < g.dw) :
    (store dst (g.stores buf))[y * g.dw + x]? = some (resampled (g.luma buf) g.sw g.sh g.dw g.dh y x) := by
  apply output_at room
  refine List.mem_append_left _ (List.mem_append_left _ (mem_planeStores.2 ⟨y, hy, x, hx, ?_⟩))
  rw [Nat.zero_add, Nat.mul_one]

theorem output_chroma (room : g.size ≤ dst.length) {k y x : Nat} (hk : k < 2) (hy : y < g.dh / 2)
    (hx : x < g.dw / 2) : (store dst (g.stores buf))[g.dw * g.dh + y * g.dw + (2 * x + k)]? =
      some (resampled (g.chroma buf k) (g.sw / 2) (g.sh / 2) (g.dw / 2) (g.dh / 2) y x) := by
  apply output_at room
  obtain rfl | rfl : k = 0 ∨ k = 1 := by omega
  · refine List.mem_append_left _ (List.mem_append_right _ (mem_planeStores.2 ⟨y, hy, x, hx, ?_⟩))
    rw [Nat.add_zero, Nat.mul_comm 2]
  · refine List.mem_append_right _ (mem_planeStores.2 ⟨y, hy, x, hx, ?_⟩)
    congr 1
    ring

/-- A constant plane gives a constant plane. -/
theorem resampled_const {f : Nat → Nat → UInt8} {sw sh : Nat} {c : UInt8} (wide : 0 < sw) (high : 0 < sh)
    (const : ∀ y < sh, ∀ x < sw, f y x = c) (dw dh y x : Nat) : resampled f sw sh dw dh y x = c := by
  rw [resampled, interpolated_const wide high const, clipU8_byte]

/-- A plane of the same size is copied. -/
theorem resampled_same {f : Nat → Nat → UInt8} {w h y x : Nat} (hy : y < h) (hx : x < w) :
    resampled f w h w h y x = f y x := by
  rw [resampled, position_same (Nat.lt_of_le_of_lt (Nat.zero_le _) hx),
    position_same (Nat.lt_of_le_of_lt (Nat.zero_le _) hy), interpolated_sample hy hx, clipU8_byte]

theorem output (room : ∀ i, g.visible i → i < buf.length) (space : g.size ≤ dst.length) :
    g.Output buf (store dst (g.stores buf)) where
  luma_const := by
    intro c const y hy x hx
    have sw := g.sw_two
    have sh := g.sh_two
    rw [output_luma space hy hx, resampled_const (by omega) (by omega)]
    intro y hy x hx
    rw [luma, List.getD_eq_getElem?_getD, const y hy x hx, Option.getD_some]
  chroma_const := by
    intro k hk c const y hy x hx
    have sw := g.sw_two
    have sh := g.sh_two
    rw [output_chroma space hk hy hx, resampled_const (by omega) (by omega)]
    intro y hy x hx
    rw [chroma, List.getD_eq_getElem?_getD, const y hy x hx, Option.getD_some]
  identity := by
    intro dw dh
    constructor
    · intro y hy x hx
      rw [output_luma space (by omega) (by omega), dw, dh, resampled_same hy hx, luma,
        ← read_eq room (visible_luma hy hx)]
    · intro y hy x hx
      have even := g.sw_even
      obtain ⟨j, k, hk, rfl⟩ : ∃ j k, k < 2 ∧ x = 2 * j + k := ⟨x / 2, x % 2, by omega, by omega⟩
      rw [output_chroma space hk (by omega) (by omega), dw, dh, resampled_same hy (by omega), chroma,
        ← read_eq room (visible_chroma hy hx)]

end Output

theorem guards_pass (g : Geometry) : ¬(g.sw = 0 ∨ g.sh = 0 ∨ g.dw = 0 ∨ g.dh = 0 ∨ g.sw % 2 = 1 ∨ g.sh % 2 = 1 ∨
    g.dw % 2 = 1 ∨ g.dh % 2 = 1 ∨ g.sStride < g.sw ∨ g.sVstride < g.sh) := by
  have sw := g.sw_even
  have sh := g.sh_even
  have dw := g.dw_even
  have dh := g.dh_even
  have sw2 := g.sw_two
  have sh2 := g.sh_two
  have dw2 := g.dw_two
  have dh2 := g.dh_two
  have wide := g.wide
  have high := g.high
  omega

/-- A scaler that returns has its last taps in an `int`. -/
theorem Right.fits (right : g.Right) : g.Fits := by
  have wide := g.dw_two
  have high := g.dh_two
  obtain ⟨zeros, named⟩ : ∃ zeros, zeros = List.replicate (g.uv + g.uv) (0 : UInt8) := ⟨_, rfl⟩
  have room : ∀ i, g.visible i → i < zeros.length := by
    intro i seen
    rw [named, List.length_replicate]
    exact visible_lt seen
  obtain ⟨out, ran, -⟩ := right zeros (List.replicate g.size 0) room (by rw [List.length_replicate])
  simp only [bicubicNv12, if_neg g.guards_pass, bicubicStores, Option.bind_eq_bind] at ran
  cases luma : bicubicChannel (g.shown zeros) g.sw g.sh g.sStride 1 0 g.dw g.dh g.dw 1 with
  | none =>
    rw [luma] at ran
    cases ran
  | some stores =>
    apply bicubicChannel_fits (by omega) (by omega)
    exact Option.isSome_of_eq_some luma

/-- A scaler that can read the samples makes its stores in the output. -/
theorem bicubicNv12_reads {src : Pointer} (fits : g.Fits) (lumaReads : Reads src g.sw g.sh g.sStride 1 (g.luma buf))
    (chromaReads : ∀ k < 2, Reads (fun i => src (g.uv + k + i)) (g.sw / 2) (g.sh / 2) g.sStride 2 (g.chroma buf k))
    (space : g.size ≤ dst.length) :
    bicubicNv12 (some src) g.sw g.sh g.sStride g.sVstride (some dst) g.dw g.dh =
      some (.ok, some (store dst (g.stores buf))) := by
  have inside : (g.stores buf).all (·.1 < dst.length) := by
    rw [List.all_eq_true]
    intro w mem
    have below := List.mem_range.1 ((g.stores_perm buf).mem_iff.1 (List.mem_map_of_mem mem))
    exact decide_eq_true (Nat.lt_of_lt_of_le below space)
  simp only [bicubicNv12, if_neg g.guards_pass, bicubicStores_reads fits lumaReads chromaReads, Option.bind_eq_bind,
    Option.bind_some, inside, if_true, Option.pure_def]

theorem Fits.right (fits : g.Fits) : g.Right := by
  intro buf dst room space
  exact ⟨g.stores buf, bicubicNv12_reads fits (reads_luma room) (fun _ hk => reads_chroma room hk) space,
    g.stores_perm buf, output room space⟩

end Geometry

end Rkvc.Sr
