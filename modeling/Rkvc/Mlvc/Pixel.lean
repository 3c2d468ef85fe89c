import Mathlib.Tactic.Ring
import Rkvc.Core.Status
import Rkvc.Lib.Store

/-!
# Scale extraction

`pixel::extract_scales` spreads each hyper-latent over a block of latents of the
two scale planes, in a checkerboard. The loop nest is the list of its stores;
every element of a plane is stored to, so the planes depend on the latents only
(`extractScales_forget`). Indices are exact: a bound geometry keeps them below
`2^31`.
-/

namespace Rkvc.Mlvc.Pixel
set_option autoImplicit false
open Lib

/-- `clamp_abs_scale`, in 64-bit arithmetic. -/
def clampAbsScale (value : Int32) (maxIndex : Int) : Int32 :=
  let mag := if value.toInt < 0 then -value.toInt else value.toInt
  Int32.ofInt (if mag > maxIndex then maxIndex else mag)

/-- `for (i = 0; i < n; i += step)`. -/
def blocks (n step : Nat) : List Nat := (List.range ((n + step - 1) / step)).map (· * step)

/-- `for (i = first; i < last; i++)`. -/
def span (first last : Nat) : List Nat := List.range' first (last - first)

/-- The stores of the loop nest: index, value for `s0`, value for `s1`. -/
def scaleStores (z : List Int32) (YC YH YW ZH ZW channelRepeat spatialRepeat : Nat) (scaleMaxIndex : Int) :
    List (Nat × Int32 × Int32) :=
  (List.range YC).flatMap fun c =>
    let z0 := c / channelRepeat * ZH * ZW
    let z1 := (c + YC) / channelRepeat * ZH * ZW
    let p := c * YH * YW
    (blocks YH spatialRepeat).flatMap fun y0 =>
      let ye := if y0 + spatialRepeat > YH then YH else y0 + spatialRepeat
      let zy := if y0 / spatialRepeat ≥ ZH then ZH - 1 else y0 / spatialRepeat
      (blocks YW spatialRepeat).flatMap fun x0 =>
        let xe := if x0 + spatialRepeat > YW then YW else x0 + spatialRepeat
        let zx := if x0 / spatialRepeat ≥ ZW then ZW - 1 else x0 / spatialRepeat
        let v0 := clampAbsScale (z.getD (z0 + zy * ZW + zx) 0) scaleMaxIndex
        let v1 := clampAbsScale (z.getD (z1 + zy * ZW + zx) 0) scaleMaxIndex
        (span y0 ye).flatMap fun y =>
          (span x0 xe).map fun x =>
            let chk := y % 2 = x % 2
            (p + y * YW + x, if chk then v0 else v1, if chk then v1 else v0)

def extractScales (z s0 s1 : List Int32) (YC YH YW ZC ZH ZW channelRepeat spatialRepeat scaleMaxIndex : Int) :
    Status × List Int32 × List Int32 :=
  if YC ≤ 0 ∨ YH ≤ 0 ∨ YW ≤ 0 ∨ ZC ≤ 0 ∨ ZH ≤ 0 ∨ ZW ≤ 0 ∨ channelRepeat ≤ 0 ∨ spatialRepeat ≤ 0 ∨
      scaleMaxIndex < 0 then (.invalid, s0, s1)
  else
    let needZ := (2 * YC + channelRepeat - 1).tdiv channelRepeat
    if needZ > ZC then (.invalid, s0, s1)
    else
      let stores := scaleStores z YC.toNat YH.toNat YW.toNat ZH.toNat ZW.toNat channelRepeat.toNat
        spatialRepeat.toNat scaleMaxIndex
      (.ok, store s0 (stores.map fun w => (w.1, w.2.1)), store s1 (stores.map fun w => (w.1, w.2.2)))

/-! ## What is stored -/

section Blocks
variable {n step i : Nat}

/-- A block's positions are those of its quotient. -/
theorem mem_block {first : Nat} (hs : 0 < step) (hb : first ∈ blocks n step)
    (hi : i ∈ span first (if first + step > n then n else first + step)) :
    first = i / step * step ∧ i < n := by
  obtain ⟨k, -, rfl⟩ := List.mem_map.1 hb
  simp only [span, List.mem_range'_1] at hi
  have quot : i / step = k := by
    apply Nat.div_eq_of_lt_le
    · omega
    · rw [Nat.add_mul, Nat.one_mul]
      split at hi <;> omega
  rw [quot]
  refine ⟨rfl, ?_⟩
  split at hi <;> omega

/-- Every position lies in the block of its quotient. -/
theorem block_mem (hs : 0 < step) (hi : i < n) :
    i / step * step ∈ blocks n step ∧
      i ∈ span (i / step * step)
        (if i / step * step + step > n then n else i / step * step + step) := by
  have below := Nat.div_mul_le_self i step
  have above := Nat.lt_div_mul_add (a := i) hs
  constructor
  · refine List.mem_map.2 ⟨i / step, List.mem_range.2 ?_, rfl⟩
    rw [Nat.lt_div_iff_mul_lt hs]
    omega
  · simp only [span, List.mem_range'_1]
    split <;> omega

end Blocks

section Stores
variable {z : List Int32} {YC YH YW ZH ZW cr sr : Nat} {maxIndex : Int}

/-- The latent a position of channel `k` reads, clamped. -/
def scaleAt (z : List Int32) (ZH ZW cr sr : Nat) (maxIndex : Int) (k y x : Nat) : Int32 :=
  clampAbsScale (z.getD (k / cr * ZH * ZW + (if y / sr ≥ ZH then ZH - 1 else y / sr) * ZW +
    (if x / sr ≥ ZW then ZW - 1 else x / sr)) 0) maxIndex

/-- The stores are exactly one for each channel and position. -/
theorem mem_scaleStores (hs : 0 < sr) {w : Nat × Int32 × Int32} :
    w ∈ scaleStores z YC YH YW ZH ZW cr sr maxIndex ↔
      ∃ c y x, c < YC ∧ y < YH ∧ x < YW ∧
        w = (c * YH * YW + y * YW + x,
          if y % 2 = x % 2 then scaleAt z ZH ZW cr sr maxIndex c y x
            else scaleAt z ZH ZW cr sr maxIndex (c + YC) y x,
          if y % 2 = x % 2 then scaleAt z ZH ZW cr sr maxIndex (c + YC) y x
            else scaleAt z ZH ZW cr sr maxIndex c y x) := by
  simp only [scaleStores, List.mem_flatMap, List.mem_map, List.mem_range]
  constructor
  · rintro ⟨c, hc, y0, hy0, x0, hx0, y, hy, x, hx, rfl⟩
    obtain ⟨row, hY⟩ := mem_block hs hy0 hy
    obtain ⟨col, hX⟩ := mem_block hs hx0 hx
    refine ⟨c, y, x, hc, hY, hX, ?_⟩
    simp only [scaleAt, row, col, Nat.mul_div_cancel _ hs]
  · rintro ⟨c, y, x, hc, hY, hX, rfl⟩
    obtain ⟨hy0, hy⟩ := block_mem hs hY
    obtain ⟨hx0, hx⟩ := block_mem hs hX
    refine ⟨c, hc, _, hy0, _, hx0, y, hy, x, hx, ?_⟩
    simp only [scaleAt, Nat.mul_div_cancel _ hs]

/-- An index of a plane determines its channel and position. -/
theorem index_inj {c y x c' y' x' : Nat} (hy : y < YH) (hx : x < YW) (hy' : y' < YH) (hx' : x' < YW)
    (eq : c * YH * YW + y * YW + x = c' * YH * YW + y' * YW + x') : c = c' ∧ y = y' ∧ x = x' := by
  have rows : c * YH + y = c' * YH + y' := by
    have left : (c * YH * YW + y * YW + x) / YW = c * YH + y := by
      rw [← Nat.add_mul, Nat.mul_comm, Nat.mul_add_div (by omega), Nat.div_eq_of_lt hx, Nat.add_zero]
    have right : (c' * YH * YW + y' * YW + x') / YW = c' * YH + y' := by
      rw [← Nat.add_mul, Nat.mul_comm, Nat.mul_add_div (by omega), Nat.div_eq_of_lt hx', Nat.add_zero]
    rw [← left, ← right, eq]
  have cols : x = x' := by
    have : (c * YH + y) * YW = (c' * YH + y') * YW := by rw [rows]
    rw [Nat.add_mul, Nat.add_mul] at this
    omega
  have channels : c = c' := by
    have left : (c * YH + y) / YH = c := by
      rw [Nat.mul_comm, Nat.mul_add_div (by omega), Nat.div_eq_of_lt hy, Nat.add_zero]
    have right : (c' * YH + y') / YH = c' := by
      rw [Nat.mul_comm, Nat.mul_add_div (by omega), Nat.div_eq_of_lt hy', Nat.add_zero]
    rw [← left, ← right, rows]
  subst channels
  exact ⟨rfl, by omega, cols⟩

/-- Every index of a plane is one of a channel and position. -/
theorem index_surj {i : Nat} (hi : i < YC * YH * YW) :
    ∃ c y x, c < YC ∧ y < YH ∧ x < YW ∧ i = c * YH * YW + y * YW + x := by
  have hW : 0 < YW := Nat.pos_of_ne_zero (by rintro rfl; simp at hi)
  have hH : 0 < YH := Nat.pos_of_ne_zero (by rintro rfl; simp at hi)
  refine ⟨i / YW / YH, i / YW % YH, i % YW, ?_, Nat.mod_lt _ hH, Nat.mod_lt _ hW, ?_⟩
  · rw [Nat.div_lt_iff_lt_mul hH, Nat.div_lt_iff_lt_mul hW]
    exact hi
  · have outer := Nat.div_add_mod i YW
    have inner := Nat.div_add_mod (i / YW) YH
    calc i = YW * (i / YW) + i % YW := outer.symm
      _ = YW * (YH * (i / YW / YH) + i / YW % YH) + i % YW := by rw [inner]
      _ = i / YW / YH * YH * YW + i / YW % YH * YW + i % YW := by ring

/-- The stores to either plane agree and cover it. -/
theorem scaleStores_plane (hs : 0 < sr) (pick : Int32 × Int32 → Int32) :
    Agree ((scaleStores z YC YH YW ZH ZW cr sr maxIndex).map fun w => (w.1, pick w.2)) ∧
      Cover (YC * YH * YW) ((scaleStores z YC YH YW ZH ZW cr sr maxIndex).map fun w => (w.1, pick w.2)) := by
  constructor
  · rintro w hw w' hw' same
    obtain ⟨u, hu, rfl⟩ := List.mem_map.1 hw
    obtain ⟨u', hu', rfl⟩ := List.mem_map.1 hw'
    obtain ⟨c, y, x, -, hy, hx, rfl⟩ := (mem_scaleStores hs).1 hu
    obtain ⟨c', y', x', -, hy', hx', rfl⟩ := (mem_scaleStores hs).1 hu'
    obtain ⟨rfl, rfl, rfl⟩ := index_inj hy hx hy' hx' same
    rfl
  · intro i hi
    obtain ⟨c, y, x, hc, hy, hx, rfl⟩ := index_surj hi
    exact ⟨_, List.mem_map.2 ⟨_, (mem_scaleStores hs).2 ⟨c, y, x, hc, hy, hx, rfl⟩, rfl⟩⟩

/-- A clamped scale is not negative. -/
theorem clampAbsScale_nonneg (value : Int32) (hmax : 0 ≤ maxIndex) (small : maxIndex < 2 ^ 31) :
    0 ≤ (clampAbsScale value maxIndex).toInt := by
  simp only [clampAbsScale]
  rw [Int32.toInt_ofInt_of_le]
  · split <;> split <;> omega
  · split <;> split <;> omega
  · split <;> split <;> omega

end Stores

/-! ## The two planes -/

section Planes
variable {z s0 s1 : List Int32} {YC YH YW ZC ZH ZW cr sr maxIndex : Int}

/-- The arguments `extract_scales` accepts. -/
structure Accepts (YC YH YW ZC ZH ZW cr sr maxIndex : Int) : Prop where
  positive : 0 < YC ∧ 0 < YH ∧ 0 < YW ∧ 0 < ZC ∧ 0 < ZH ∧ 0 < ZW ∧ 0 < cr ∧ 0 < sr
  index : 0 ≤ maxIndex
  room : (2 * YC + cr - 1).tdiv cr ≤ ZC

/-- Accepted arguments succeed, into planes that depend on the latents only. -/
theorem extractScales_accepted (h : Accepts YC YH YW ZC ZH ZW cr sr maxIndex) :
    extractScales z s0 s1 YC YH YW ZC ZH ZW cr sr maxIndex =
      (.ok, store s0 ((scaleStores z YC.toNat YH.toNat YW.toNat ZH.toNat ZW.toNat cr.toNat sr.toNat
          maxIndex).map fun w => (w.1, w.2.1)),
        store s1 ((scaleStores z YC.toNat YH.toNat YW.toNat ZH.toNat ZW.toNat cr.toNat sr.toNat
          maxIndex).map fun w => (w.1, w.2.2))) := by
  have pos := h.positive
  have index := h.index
  have room := h.room
  simp only [extractScales]
  rw [if_neg (by omega), if_neg (by omega)]

/-- Any other arguments are refused, and nothing is stored. -/
theorem extractScales_refused (h : ¬Accepts YC YH YW ZC ZH ZW cr sr maxIndex) :
    extractScales z s0 s1 YC YH YW ZC ZH ZW cr sr maxIndex = (.invalid, s0, s1) := by
  simp only [extractScales]
  split
  · rfl
  · split
    · rfl
    · exact absurd ⟨by omega, by omega, by omega⟩ h

/-- **The planes forget what the arrays held.** -/
theorem extractScales_forget {t0 t1 : List Int32} (h : Accepts YC YH YW ZC ZH ZW cr sr maxIndex)
    (hs0 : s0.length = YC.toNat * YH.toNat * YW.toNat) (hs1 : s1.length = YC.toNat * YH.toNat * YW.toNat)
    (ht0 : t0.length = YC.toNat * YH.toNat * YW.toNat) (ht1 : t1.length = YC.toNat * YH.toNat * YW.toNat) :
    extractScales z s0 s1 YC YH YW ZC ZH ZW cr sr maxIndex =
      extractScales z t0 t1 YC YH YW ZC ZH ZW cr sr maxIndex := by
  have step : 0 < sr.toNat := by have := h.positive; omega
  obtain ⟨agree0, cover0⟩ := scaleStores_plane (z := z) step Prod.fst
  obtain ⟨agree1, cover1⟩ := scaleStores_plane (z := z) step Prod.snd
  rw [extractScales_accepted h, extractScales_accepted h,
    store_forget t0 agree0 (by rw [hs0]; exact cover0) (by omega),
    store_forget t1 agree1 (by rw [hs1]; exact cover1) (by omega)]

/-- The scales are entropy-coder indices: none is negative. -/
theorem extractScales_nonneg (h : Accepts YC YH YW ZC ZH ZW cr sr maxIndex) (small : maxIndex < 2 ^ 31)
    (hs0 : s0.length = YC.toNat * YH.toNat * YW.toNat) (hs1 : s1.length = YC.toNat * YH.toNat * YW.toNat) :
    (∀ a ∈ (extractScales z s0 s1 YC YH YW ZC ZH ZW cr sr maxIndex).2.1, 0 ≤ a.toInt) ∧
      ∀ a ∈ (extractScales z s0 s1 YC YH YW ZC ZH ZW cr sr maxIndex).2.2, 0 ≤ a.toInt := by
  have step : 0 < sr.toNat := by have := h.positive; omega
  obtain ⟨agree0, cover0⟩ := scaleStores_plane (z := z) step Prod.fst
  obtain ⟨agree1, cover1⟩ := scaleStores_plane (z := z) step Prod.snd
  have stored : ∀ w ∈ scaleStores z YC.toNat YH.toNat YW.toNat ZH.toNat ZW.toNat cr.toNat sr.toNat maxIndex,
      0 ≤ w.2.1.toInt ∧ 0 ≤ w.2.2.toInt := by
    intro w hw
    obtain ⟨c, y, x, -, -, -, rfl⟩ := (mem_scaleStores step).1 hw
    dsimp only
    split <;> exact ⟨clampAbsScale_nonneg _ h.index small, clampAbsScale_nonneg _ h.index small⟩
  rw [extractScales_accepted h]
  refine ⟨forall_store (P := fun a => 0 ≤ a.toInt) agree0 (by rw [hs0]; exact cover0) ?_,
    forall_store (P := fun a => 0 ≤ a.toInt) agree1 (by rw [hs1]; exact cover1) ?_⟩
  · intro w hw
    obtain ⟨u, hu, rfl⟩ := List.mem_map.1 hw
    exact (stored u hu).1
  · intro w hw
    obtain ⟨u, hu, rfl⟩ := List.mem_map.1 hw
    exact (stored u hu).2

@[simp] theorem extractScales_length :
    (extractScales z s0 s1 YC YH YW ZC ZH ZW cr sr maxIndex).2.1.length = s0.length ∧
      (extractScales z s0 s1 YC YH YW ZC ZH ZW cr sr maxIndex).2.2.length = s1.length := by
  simp only [extractScales]
  split
  · exact ⟨rfl, rfl⟩
  · split
    · exact ⟨rfl, rfl⟩
    · exact ⟨store_length _ _, store_length _ _⟩

end Planes

end Rkvc.Mlvc.Pixel
