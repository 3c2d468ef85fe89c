import Mathlib.Algebra.BigOperators.Ring.List
import Mathlib.Data.List.Perm.Subperm
import Rkvc.Lib.Loop
import Rkvc.Mlvc.Pixel

/-!
# Scale extraction on its whole domain

`extract_scales` with its counters as `int`s, its accesses checked, and the fill of a
row as both builds have it. It does what it is for exactly where no sum of its
`int`s is too large (`scales_right_iff`); the offsets are products in a `size_t`
below the size of an array.
-/

namespace Rkvc.Mlvc.Pixel
set_option autoImplicit false
open Lib

namespace Checked

/-- A store to both planes. -/
def put (size i : Nat) (v0 v1 : Int32) : Option (List (Nat × Int32 × Int32)) :=
  if i < size then some [(i, v0, v1)] else none

/-- `vst1q_s32` of `pat01` to one plane and of `pat10` to the other. -/
def putPattern (size i : Nat) (v0 v1 : Int32) : Option (List (Nat × Int32 × Int32)) :=
  if i + 3 < size then some [(i, v0, v1), (i + 1, v1, v0), (i + 2, v0, v1), (i + 3, v1, v0)] else none

/-- A row of a block, one by one. -/
def fillScalar (size row y x0 xe : Nat) (v0 v1 : Int32) : Option (List (Nat × Int32 × Int32)) :=
  forInt x0 xe 1 fun x =>
    let chk := y % 2 = x % 2
    put size (row + x) (if chk then v0 else v1) (if chk then v1 else v0)

/-- A row of a block, four at a time. -/
def fillNeon (size row y x0 xe : Nat) (v0 v1 : Int32) : Option (List (Nat × Int32 × Int32)) :=
  wideInt x0 xe 4
    (fun x => if (y ^^^ x) &&& 1 = 0 then putPattern size (row + x) v0 v1 else putPattern size (row + x) v1 v0)
    (fun x => fillScalar size row y x xe v0 v1)

def fill (neon : Bool) : Nat → Nat → Nat → Nat → Nat → Int32 → Int32 → Option (List (Nat × Int32 × Int32)) :=
  if neon then fillNeon else fillScalar

/-- The stores of the loop nest, to planes of `size` elements. -/
def scaleStores (neon : Bool) (z : List Int32) (size YC YH YW ZH ZW channelRepeat spatialRepeat : Nat)
    (scaleMaxIndex : Int) : Option (List (Nat × Int32 × Int32)) :=
  forInt 0 YC 1 fun c =>
    (intSum c YC).bind fun other =>
      let z0 := c / channelRepeat * ZH * ZW
      let z1 := other / channelRepeat * ZH * ZW
      let p := c * YH * YW
      forInt 0 YH spatialRepeat fun y0 =>
        (intSum y0 spatialRepeat).bind fun below =>
          let ye := if below > YH then YH else below
          let zy := if y0 / spatialRepeat ≥ ZH then ZH - 1 else y0 / spatialRepeat
          forInt 0 YW spatialRepeat fun x0 =>
            (intSum x0 spatialRepeat).bind fun behind =>
              let xe := if behind > YW then YW else behind
              let zx := if x0 / spatialRepeat ≥ ZW then ZW - 1 else x0 / spatialRepeat
              z[z0 + zy * ZW + zx]?.bind fun a => z[z1 + zy * ZW + zx]?.bind fun b =>
                let v0 := clampAbsScale a scaleMaxIndex
                let v1 := clampAbsScale b scaleMaxIndex
                forInt y0 ye 1 fun y => fill neon size (p + y * YW) y x0 xe v0 v1

/-- `extract_scales`, with or without `MLVC_PX_NEON`. -/
def extractScales (neon : Bool) (z s0 s1 : List Int32)
    (YC YH YW ZC ZH ZW channelRepeat spatialRepeat scaleMaxIndex : Int32) : Option (Status × List Int32 × List Int32) :=
  if YC.toInt ≤ 0 ∨ YH.toInt ≤ 0 ∨ YW.toInt ≤ 0 ∨ ZC.toInt ≤ 0 ∨ ZH.toInt ≤ 0 ∨ ZW.toInt ≤ 0 ∨
      channelRepeat.toInt ≤ 0 ∨ spatialRepeat.toInt ≤ 0 ∨ scaleMaxIndex.toInt < 0 then some (.invalid, s0, s1)
  else
    -- this sum is one of 64 bits
    let needZ := (2 * YC.toInt + channelRepeat.toInt - 1).tdiv channelRepeat.toInt
    if needZ > ZC.toInt then some (.invalid, s0, s1)
    else
      (scaleStores neon z (min s0.length s1.length) YC.toInt.toNat YH.toInt.toNat YW.toInt.toNat ZH.toInt.toNat
        ZW.toInt.toNat channelRepeat.toInt.toNat spatialRepeat.toInt.toNat scaleMaxIndex.toInt).map fun stores =>
          (.ok, store s0 (stores.map fun w => (w.1, w.2.1)), store s1 (stores.map fun w => (w.1, w.2.2)))

end Checked

/-- **The arguments that `extract_scales` accepts.** -/
structure ScaleArgs where
  YC : Int32
  YH : Int32
  YW : Int32
  ZC : Int32
  ZH : Int32
  ZW : Int32
  channelRepeat : Int32
  spatialRepeat : Int32
  scaleMaxIndex : Int32
  accepts : Accepts YC.toInt YH.toInt YW.toInt ZC.toInt ZH.toInt ZW.toInt channelRepeat.toInt spatialRepeat.toInt
    scaleMaxIndex.toInt

section Row

variable {size row y x0 xe : Nat} {v0 v1 : Int32}

/-- What is stored at a place of a row. -/
def rowStore (row y : Nat) (v0 v1 : Int32) (x : Nat) : List (Nat × Int32 × Int32) :=
  [(row + x, if y % 2 = x % 2 then v0 else v1, if y % 2 = x % 2 then v1 else v0)]

theorem fillScalar_eq (inside : row + xe ≤ size) (fits : xe < 2 ^ 31) :
    Checked.fillScalar size row y x0 xe v0 v1 = some ((visits x0 xe 1).flatMap (rowStore row y v0 v1)) := by
  apply forInt_eq Nat.one_pos
  · intro x visited
    have below := ((mem_visits Nat.one_pos).mp visited).1
    exact if_pos (by omega)
  · intro x visited
    have below := ((mem_visits Nat.one_pos).mp visited).1
    omega

theorem xor_parity (y x : Nat) : (y ^^^ x) &&& 1 = 0 ↔ y % 2 = x % 2 := by
  have odd := @Nat.xor_mod_two_eq_one y x
  rw [Nat.and_one_is_mod]
  omega

theorem putPattern_eq {x : Nat} (inside : row + x + 4 ≤ size) :
    (if (y ^^^ x) &&& 1 = 0 then Checked.putPattern size (row + x) v0 v1
      else Checked.putPattern size (row + x) v1 v0) =
      some ((visits x (x + 4) 1).flatMap (rowStore row y v0 v1)) := by
  have four : visits x (x + 4) 1 = [x, x + 1, x + 2, x + 3] := by
    rw [visits_one, Nat.add_sub_cancel_left]
    rfl
  rw [four]
  by_cases even : y % 2 = x % 2
  · rw [if_pos ((xor_parity y x).mpr even), Checked.putPattern, if_pos (by omega)]
    simp only [List.flatMap_cons, List.flatMap_nil, rowStore, List.cons_append, List.nil_append]
    rw [if_pos even, if_pos even, if_neg (by omega), if_neg (by omega), if_pos (by omega), if_pos (by omega),
      if_neg (by omega), if_neg (by omega)]
    rfl
  · rw [if_neg fun zero => even ((xor_parity y x).mp zero), Checked.putPattern, if_pos (by omega)]
    simp only [List.flatMap_cons, List.flatMap_nil, rowStore, List.cons_append, List.nil_append]
    rw [if_neg even, if_neg even, if_pos (by omega), if_pos (by omega), if_neg (by omega), if_neg (by omega),
      if_pos (by omega), if_pos (by omega)]
    rfl

/-- **Four at a time is one by one.** -/
theorem fillNeon_eq (first : x0 ≤ xe) (inside : row + xe ≤ size) (fits : xe < 2 ^ 31)
    (sum : x0 + (xe - x0) / 4 * 4 + 4 < 2 ^ 31) :
    Checked.fillNeon size row y x0 xe v0 v1 = some ((visits x0 xe 1).flatMap (rowStore row y v0 v1)) := by
  apply wideInt_eq (by decide) first
  · intro x _ below
    exact putPattern_eq (by omega)
  · intro x _ _
    exact fillScalar_eq inside fits
  · exact sum

end Row

/-- No sum of the loop nest is too large: the channel of the second scale, the ends of the last block,
and the last step of four in it. -/
structure SumsFit (YC YH YW sr : Nat) : Prop where
  channel : 2 * YC - 1 < 2 ^ 31
  row : (YH - 1) / sr * sr + sr < 2 ^ 31
  column : (YW - 1) / sr * sr + sr < 2 ^ 31
  four : (YW - 1) / sr * sr + (YW - (YW - 1) / sr * sr) / 4 * 4 + 4 < 2 ^ 31

section Visited

variable {n step i : Nat}

theorem visits_block (n step : Nat) : visits 0 n step = blocks n step := by
  rw [visits, blocks, Nat.sub_zero]
  apply List.ext_getElem
  · rw [List.length_range', List.length_map, List.length_range]
  · intro i _ _
    rw [List.getElem_range', List.getElem_map, List.getElem_range, Nat.zero_add, Nat.mul_comm]

theorem visits_span (first last : Nat) : visits first last 1 = span first last := visits_one first last

/-- The last block is the largest. -/
theorem visit_le (positive : 0 < step) (visited : i ∈ visits 0 n step) : i ≤ (n - 1) / step * step := by
  obtain ⟨below, k, rfl⟩ := (mem_visits positive).mp visited
  rw [Nat.zero_add, Nat.mul_comm] at below ⊢
  exact Nat.mul_le_mul_right step ((Nat.le_div_iff_mul_le positive).mpr (by omega))

theorem last_visited (positive : 0 < step) (some : 0 < n) : (n - 1) / step * step ∈ visits 0 n step := by
  have le := Nat.div_mul_le_self (n - 1) step
  exact (mem_visits positive).mpr ⟨by omega, (n - 1) / step, by rw [Nat.zero_add, Nat.mul_comm]⟩

/-- A block in front of the last one ends in front of it. -/
theorem visit_lt (positive : 0 < step) (visited : i ∈ visits 0 n step) (other : i ≠ (n - 1) / step * step) :
    i + step ≤ (n - 1) / step * step := by
  have le := visit_le positive visited
  obtain ⟨-, k, rfl⟩ := (mem_visits positive).mp visited
  rw [Nat.zero_add, Nat.mul_comm] at le other ⊢
  have less : k < (n - 1) / step := Nat.lt_of_mul_lt_mul_right (Nat.lt_of_le_of_ne le other)
  rw [← Nat.succ_mul]
  exact Nat.mul_le_mul_right step less

end Visited

section Nest

variable {neon : Bool} {z : List Int32} {YC YH YW ZC ZH ZW cr sr : Nat} {maxIndex : Int}

/-- An index of a plane or of the latents is inside. -/
theorem cell_lt {a b c A B C : Nat} (ha : a < A) (hb : b < B) (hc : c < C) : a * B * C + b * C + c < A * B * C := by
  have rows : a * B + b + 1 ≤ A * B := by
    have next := Nat.mul_le_mul_right B ha
    rw [Nat.succ_mul] at next
    omega
  calc a * B * C + b * C + c < (a * B + b + 1) * C := by rw [Nat.add_mul, Nat.add_mul, Nat.one_mul]; omega
    _ ≤ A * B * C := Nat.mul_le_mul_right C rows

/-- The channels of both scales are there. -/
theorem channel_lt (positive : 0 < cr) (room : (2 * YC + cr - 1) / cr ≤ ZC) {k : Nat} (below : k < 2 * YC) : k / cr < ZC := by
  apply Nat.lt_of_lt_of_le _ room
  rw [Nat.lt_iff_add_one_le, Nat.le_div_iff_mul_le positive, Nat.succ_mul]
  have le := Nat.div_mul_le_self k cr
  omega

/-- A block, on either build. -/
theorem fillBlock_eq {c y0 ye x0 xe : Nat} {v0 v1 : Int32} (inC : c < YC) (inY : ye ≤ YH) (inX : xe ≤ YW) (first : x0 ≤ xe)
    (ints : YH < 2 ^ 31 ∧ YW < 2 ^ 31) (sum : x0 + (xe - x0) / 4 * 4 + 4 < 2 ^ 31) :
    (forInt y0 ye 1 fun y => Checked.fill neon (YC * YH * YW) (c * YH * YW + y * YW) y x0 xe v0 v1) =
      some ((span y0 ye).flatMap fun y => (span x0 xe).map fun x =>
        (c * YH * YW + y * YW + x, if y % 2 = x % 2 then v0 else v1, if y % 2 = x % 2 then v1 else v0)) := by
  rw [← visits_span y0 ye]
  apply forInt_eq Nat.one_pos
  · intro y visited
    have below := ((mem_visits Nat.one_pos).mp visited).1
    have inside : c * YH * YW + y * YW + xe ≤ YC * YH * YW := by
      cases xe with
      | zero =>
        have rows : c * YH * YW + y * YW ≤ YC * YH * YW := by
          rw [← Nat.add_mul]
          apply Nat.mul_le_mul_right
          have next := Nat.mul_le_mul_right YH inC
          rw [Nat.succ_mul] at next
          omega
        exact rows
      | succ x => exact cell_lt inC (by omega) (by omega)
    rw [← visits_span x0 xe, List.map_eq_flatMap]
    cases neon with
    | true => exact fillNeon_eq first inside (by omega) sum
    | false => exact fillScalar_eq inside (by omega)
  · intro y visited
    have below := ((mem_visits Nat.one_pos).mp visited).1
    omega

/-- The last step of four in a block. -/
theorem SumsFit.block (sums : SumsFit YC YH YW sr) (positive : 0 < sr) {x0 : Nat} (visited : x0 ∈ visits 0 YW sr) :
    x0 + ((if x0 + sr > YW then YW else x0 + sr) - x0) / 4 * 4 + 4 < 2 ^ 31 := by
  have four := sums.four
  by_cases last : x0 = (YW - 1) / sr * sr
  · have below := ((mem_visits positive).mp visited).1
    have behind := Nat.lt_div_mul_add (a := YW - 1) positive
    rw [← last] at four behind
    have whole : (if x0 + sr > YW then YW else x0 + sr) = YW := by
      split <;> omega
    rw [whole]
    exact four
  · have next := visit_lt positive visited last
    have width : (if x0 + sr > YW then YW else x0 + sr) - x0 ≤ sr := by
      split <;> omega
    have fours := Nat.div_mul_le_self ((if x0 + sr > YW then YW else x0 + sr) - x0) 4
    omega

/-- **The loop nest without a fault**: every read and store is inside, on both builds, and the stores
are the ones that the scales are meant to be. -/
theorem scaleStores_eq (positive : 0 < cr ∧ 0 < sr ∧ 0 < ZH ∧ 0 < ZW) (ints : YC < 2 ^ 31 ∧ YH < 2 ^ 31 ∧ YW < 2 ^ 31)
    (room : (2 * YC + cr - 1) / cr ≤ ZC) (length : z.length = ZC * ZH * ZW) (sums : SumsFit YC YH YW sr) :
    Checked.scaleStores neon z (YC * YH * YW) YC YH YW ZH ZW cr sr maxIndex =
      some (scaleStores z YC YH YW ZH ZW cr sr maxIndex) := by
  obtain ⟨cr0, sr0, zh0, zw0⟩ := positive
  have read : ∀ k y x, k < 2 * YC → ∀ i, i = k / cr * ZH * ZW + (if y ≥ ZH then ZH - 1 else y) * ZW +
      (if x ≥ ZW then ZW - 1 else x) → z[i]? = some (z.getD i 0) := by
    rintro k y x below i rfl
    have inside : k / cr * ZH * ZW + (if y ≥ ZH then ZH - 1 else y) * ZW + (if x ≥ ZW then ZW - 1 else x) < z.length := by
      rw [length]
      apply cell_lt (channel_lt cr0 room below)
      · split <;> omega
      · split <;> omega
    rw [List.getD_eq_getElem?_getD, List.getElem?_eq_getElem inside, Option.getD_some]
  unfold Checked.scaleStores scaleStores
  rw [← visits_zero YC]
  apply forInt_eq Nat.one_pos
  · intro c visited
    have inC := ((mem_visits Nat.one_pos).mp visited).1
    have channel := sums.channel
    rw [intSum_some (by omega), Option.bind_some]
    dsimp only
    rw [← visits_block YH]
    apply forInt_eq sr0
    · intro y0 visitedY
      have lastY := visit_le sr0 visitedY
      have row := sums.row
      rw [intSum_some (by omega), Option.bind_some]
      rw [← visits_block YW]
      apply forInt_eq sr0
      · intro x0 visitedX
        have lastX := visit_le sr0 visitedX
        have column := sums.column
        have inX := ((mem_visits sr0).mp visitedX).1
        rw [intSum_some (by omega), Option.bind_some]
        rw [read c (y0 / sr) (x0 / sr) (by omega) _ rfl, Option.bind_some,
          read (c + YC) (y0 / sr) (x0 / sr) (by omega) _ rfl, Option.bind_some]
        apply fillBlock_eq inC
        · split <;> omega
        · split <;> omega
        · split <;> omega
        · exact ints.2
        · exact sums.block sr0 visitedX
      · intro x0 visitedX
        have lastX := visit_le sr0 visitedX
        have column := sums.column
        omega
    · intro y0 visitedY
      have lastY := visit_le sr0 visitedY
      have row := sums.row
      omega
  · intro c visited
    have inC := ((mem_visits Nat.one_pos).mp visited).1
    omega

/-- The channel of the second scale is an `int`, on both builds. -/
theorem scaleStores_channel {size : Nat} (some : 0 < YC)
    (done : (Checked.scaleStores neon z size YC YH YW ZH ZW cr sr maxIndex).isSome) : YC - 1 + YC < 2 ^ 31 := by
  have last := (forInt_isSome Nat.one_pos done (YC - 1) ((mem_visits Nat.one_pos).mpr ⟨by omega, YC - 1, by omega⟩)).1
  obtain ⟨other, sum, -⟩ := bind_isSome last
  exact intSum_isSome.mp (Option.isSome_of_eq_some sum)

/-- **A run without a fault has no sum that is too large**, with the wide fill. -/
theorem scaleStores_isSome (positive : 0 < YC ∧ 0 < YH ∧ 0 < YW ∧ 0 < sr) {size : Nat}
    (done : (Checked.scaleStores true z size YC YH YW ZH ZW cr sr maxIndex).isSome) : SumsFit YC YH YW sr := by
  obtain ⟨yc0, yh0, yw0, sr0⟩ := positive
  have channel := scaleStores_channel yc0 done
  have channels := forInt_isSome Nat.one_pos done
  obtain ⟨other, -, rows⟩ := bind_isSome (channels 0 ((mem_visits Nat.one_pos).mpr ⟨yc0, 0, rfl⟩)).1
  have rows := forInt_isSome sr0 rows
  have row := (rows _ (last_visited sr0 yh0)).2
  obtain ⟨below, sumY, columns⟩ := bind_isSome (rows 0 ((mem_visits sr0).mpr ⟨yh0, 0, rfl⟩)).1
  have columns := forInt_isSome sr0 columns
  obtain ⟨turn, column⟩ := columns _ (last_visited sr0 yw0)
  obtain ⟨behind, sumX, turn⟩ := bind_isSome turn
  obtain ⟨a, -, turn⟩ := bind_isSome turn
  obtain ⟨b, -, turn⟩ := bind_isSome turn
  have behindIs := intSum_eq sumX
  have belowIs := intSum_eq sumY
  have past := Nat.lt_div_mul_add (a := YW - 1) sr0
  have first := (forInt_isSome Nat.one_pos turn 0 ((mem_visits Nat.one_pos).mpr ⟨by split <;> omega, 0, rfl⟩)).1
  rw [Checked.fill, if_pos rfl, Checked.fillNeon] at first
  have four := wideInt_isSome (by decide) first
  have whole : (if behind > YW then YW else behind) = YW := by
    split <;> omega
  rw [whole] at four
  exact ⟨by omega, row, column, four⟩

end Nest

/-! ## Each place once -/

section Once

variable {z : List Int32} {YC YH YW ZH ZW cr sr : Nat} {maxIndex : Int}

/-- The blocks of a row or a column have its length together. -/
theorem blocks_sum (positive : 0 < sr) (n : Nat) :
    ((blocks n sr).map fun b => (if b + sr > n then n else b + sr) - b).sum = n := by
  have all := congrArg List.length (visits_blocks positive 0 n)
  rw [List.length_flatMap, visits_zero, List.length_range, visits_block] at all
  refine Eq.trans (congrArg List.sum (List.map_congr_left ?_)) all
  intro b _
  rw [visits_one, List.length_range']
  split <;> omega

theorem scaleStores_length (positive : 0 < sr) :
    (scaleStores z YC YH YW ZH ZW cr sr maxIndex).length = YC * YH * YW := by
  simp only [scaleStores, List.length_flatMap, List.length_map, span, List.length_range', List.map_const', List.sum_replicate,
    Nat.nsmul_eq_mul, List.sum_map_mul_left, List.sum_map_mul_right, blocks_sum positive, List.length_range]
  rw [Nat.mul_assoc]

/-- **Every place is stored to exactly once.** -/
theorem scaleStores_once (positive : 0 < sr) :
    ((scaleStores z YC YH YW ZH ZW cr sr maxIndex).map fun w => w.1).Perm (List.range (YC * YH * YW)) := by
  have reached : List.range (YC * YH * YW) ⊆ (scaleStores z YC YH YW ZH ZW cr sr maxIndex).map fun w => w.1 := by
    intro i inside
    obtain ⟨a, there⟩ := (scaleStores_plane (z := z) positive Prod.fst).2 i (List.mem_range.mp inside)
    obtain ⟨w, stored, same⟩ := List.mem_map.mp there
    exact List.mem_map.mpr ⟨w, stored, congrArg Prod.fst same⟩
  apply List.Perm.symm
  apply (List.subperm_of_subset List.nodup_range reached).perm_of_length_le
  rw [List.length_map, scaleStores_length positive, List.length_range]

end Once

/-! ## The whole domain -/

namespace ScaleArgs

variable (a : ScaleArgs)

def yc : Nat := a.YC.toInt.toNat
def yh : Nat := a.YH.toInt.toNat
def yw : Nat := a.YW.toInt.toNat
def zc : Nat := a.ZC.toInt.toNat
def zh : Nat := a.ZH.toInt.toNat
def zw : Nat := a.ZW.toInt.toNat
def cr : Nat := a.channelRepeat.toInt.toNat
def sr : Nat := a.spatialRepeat.toInt.toNat

/-- The latents there are. -/
def latents : Nat := a.zc * a.zh * a.zw

/-- The elements of a plane. -/
def plane : Nat := a.yc * a.yh * a.yw

/-- A run of the loop nest, on one of the builds. -/
def stores (neon : Bool) (z : List Int32) : Option (List (Nat × Int32 × Int32)) :=
  Checked.scaleStores neon z a.plane a.yc a.yh a.yw a.zh a.zw a.cr a.sr a.scaleMaxIndex.toInt

/-- A call. -/
def extract (neon : Bool) (z s0 s1 : List Int32) : Option (Status × List Int32 × List Int32) :=
  Checked.extractScales neon z s0 s1 a.YC a.YH a.YW a.ZC a.ZH a.ZW a.channelRepeat a.spatialRepeat a.scaleMaxIndex

/-- The latent of a channel and position. -/
def latent (k y x : Nat) : Nat :=
  k / a.cr * a.zh * a.zw + min (y / a.sr) (a.zh - 1) * a.zw + min (x / a.sr) (a.zw - 1)

/-- **The scale of a channel and position**: the magnitude of its latent, up to the largest index. -/
def scale (z : List Int32) (k y x : Nat) : Int := min ((z.getD (a.latent k y x) 0).toInt.natAbs : Int) a.scaleMaxIndex.toInt

/-- No sum of the loop nest is too large for an `int`. -/
def Fits : Prop := SumsFit a.yc a.yh a.yw a.sr

theorem positive : 0 < a.yc ∧ 0 < a.yh ∧ 0 < a.yw ∧ 0 < a.cr ∧ 0 < a.sr ∧ 0 < a.zh ∧ 0 < a.zw := by
  have positive := a.accepts.positive
  simp only [yc, yh, yw, cr, sr, zh, zw]
  omega

theorem ints : a.yc < 2 ^ 31 ∧ a.yh < 2 ^ 31 ∧ a.yw < 2 ^ 31 := by
  have c := Int32.toInt_lt a.YC
  have h := Int32.toInt_lt a.YH
  have w := Int32.toInt_lt a.YW
  simp only [yc, yh, yw]
  omega

theorem room : (2 * a.yc + a.cr - 1) / a.cr ≤ a.zc := by
  obtain ⟨c0, -, -, zc0, -, -, cr0, -⟩ := a.accepts.positive
  have room := a.accepts.room
  have sum : 2 * a.YC.toInt + a.channelRepeat.toInt - 1 = ((2 * a.yc + a.cr - 1 : Nat) : Int) := by
    simp only [yc, cr]
    omega
  have divisor : a.channelRepeat.toInt = (a.cr : Int) := by
    simp only [cr]
    omega
  have channels : a.ZC.toInt = (a.zc : Int) := by
    simp only [zc]
    omega
  rw [sum, divisor, channels, ← Int.ofNat_tdiv, Int.ofNat_le] at room
  exact room

/-- The latents that are read are there. -/
theorem latent_lt {k : Nat} (below : k < 2 * a.yc) (y x : Nat) : a.latent k y x < a.latents := by
  obtain ⟨-, -, -, cr0, -, zh0, zw0⟩ := a.positive
  exact cell_lt (channel_lt cr0 a.room below) (by omega) (by omega)

theorem scaleAt_toInt (z : List Int32) (k y x : Nat) :
    (scaleAt z a.zh a.zw a.cr a.sr a.scaleMaxIndex.toInt k y x).toInt = a.scale z k y x := by
  obtain ⟨-, -, -, -, -, zh0, zw0⟩ := a.positive
  have index := a.accepts.index
  have small := Int32.toInt_lt a.scaleMaxIndex
  have row : (if y / a.sr ≥ a.zh then a.zh - 1 else y / a.sr) = min (y / a.sr) (a.zh - 1) := by
    split <;> omega
  have column : (if x / a.sr ≥ a.zw then a.zw - 1 else x / a.sr) = min (x / a.sr) (a.zw - 1) := by
    split <;> omega
  simp only [scaleAt, clampAbsScale, scale, latent]
  rw [row, column, Int32.toInt_ofInt_of_le]
  · split <;> split <;> omega
  · split <;> split <;> omega
  · split <;> split <;> omega

variable {a} {z s0 s1 : List Int32}

/-- The loop nest without a fault. -/
theorem stores_eq (fits : a.Fits) (neon : Bool) (length : z.length = a.latents) :
    a.stores neon z = some (scaleStores z a.yc a.yh a.yw a.zh a.zw a.cr a.sr a.scaleMaxIndex.toInt) := by
  obtain ⟨-, -, -, positive⟩ := a.positive
  exact scaleStores_eq positive a.ints a.room length fits

/-- A call runs the loop nest. -/
theorem extract_eq (neon : Bool) (z : List Int32) (plane0 : s0.length = a.plane) (plane1 : s1.length = a.plane) :
    a.extract neon z s0 s1 = (a.stores neon z).map fun stores =>
      (.ok, store s0 (stores.map fun w => (w.1, w.2.1)), store s1 (stores.map fun w => (w.1, w.2.2))) := by
  have positive := a.accepts.positive
  have index := a.accepts.index
  have room := a.accepts.room
  rw [extract, Checked.extractScales, if_neg (by omega)]
  dsimp only
  rw [if_neg (by omega), plane0, plane1, Nat.min_self]
  rfl

theorem extract_stores (fits : a.Fits) (neon : Bool) (length : z.length = a.latents) (plane0 : s0.length = a.plane)
    (plane1 : s1.length = a.plane) :
    a.extract neon z s0 s1 = some (.ok,
      store s0 ((scaleStores z a.yc a.yh a.yw a.zh a.zw a.cr a.sr a.scaleMaxIndex.toInt).map fun w => (w.1, w.2.1)),
      store s1 ((scaleStores z a.yc a.yh a.yw a.zh a.zw a.cr a.sr a.scaleMaxIndex.toInt).map fun w => (w.1, w.2.2))) := by
  rw [extract_eq neon z plane0 plane1, stores_eq fits neon length, Option.map_some]

/-- What the loop nest leaves at a place of a plane, through whichever of the two values is `pick`ed. -/
theorem store_at (z : List Int32) (pick : Int32 × Int32 → Int32) (plane : s0.length = a.plane) {c y x : Nat}
    (inC : c < a.yc) (inY : y < a.yh) (inX : x < a.yw) {v : Int32 × Int32}
    (value : v = (if y % 2 = x % 2 then scaleAt z a.zh a.zw a.cr a.sr a.scaleMaxIndex.toInt c y x
        else scaleAt z a.zh a.zw a.cr a.sr a.scaleMaxIndex.toInt (c + a.yc) y x,
      if y % 2 = x % 2 then scaleAt z a.zh a.zw a.cr a.sr a.scaleMaxIndex.toInt (c + a.yc) y x
        else scaleAt z a.zh a.zw a.cr a.sr a.scaleMaxIndex.toInt c y x)) :
    (store s0 ((scaleStores z a.yc a.yh a.yw a.zh a.zw a.cr a.sr a.scaleMaxIndex.toInt).map fun w => (w.1, pick w.2)))[
      c * a.yh * a.yw + y * a.yw + x]? = some (pick v) := by
  obtain ⟨-, -, -, -, sr0, -⟩ := a.positive
  apply store_getElem? (scaleStores_plane sr0 pick).1
  · apply List.mem_map.mpr
    refine ⟨(c * a.yh * a.yw + y * a.yw + x, v), ?_, rfl⟩
    rw [value]
    exact (mem_scaleStores sr0).mpr ⟨c, y, x, inC, inY, inX, rfl⟩
  · rw [plane]
    exact cell_lt inC inY inX

end ScaleArgs

/-- **What scale extraction is for**, at accepted arguments, on both builds. -/
structure ScalesRight (a : ScaleArgs) : Prop where
  /-- A call succeeds, and the planes hold the scales in a checkerboard. -/
  planes : ∀ neon z s0 s1, z.length = a.latents → s0.length = a.plane → s1.length = a.plane →
    ∃ t0 t1, a.extract neon z s0 s1 = some (.ok, t0, t1) ∧ t0.length = a.plane ∧ t1.length = a.plane ∧
      ∀ c y x, c < a.yc → y < a.yh → x < a.yw →
        ∃ v0 v1, t0[c * a.yh * a.yw + y * a.yw + x]? = some v0 ∧ t1[c * a.yh * a.yw + y * a.yw + x]? = some v1 ∧
          v0.toInt = (if (x + y) % 2 = 0 then a.scale z c y x else a.scale z (c + a.yc) y x) ∧
          v1.toInt = if (x + y) % 2 = 0 then a.scale z (c + a.yc) y x else a.scale z c y x
  /-- The latents that the scales come from are there. -/
  reads : ∀ k y x, k < 2 * a.yc → a.latent k y x < a.latents
  /-- Every place is stored to exactly once. -/
  once : ∀ neon z, z.length = a.latents →
    ∃ stores, a.stores neon z = some stores ∧ (stores.map fun w => w.1).Perm (List.range a.plane)
  /-- Four at a time is one by one. -/
  same : ∀ z s0 s1, z.length = a.latents → s0.length = a.plane → s1.length = a.plane →
    a.extract true z s0 s1 = a.extract false z s0 s1

/-- **Scale extraction is right exactly where no sum of its `int`s is too large.** -/
theorem scales_right_iff (a : ScaleArgs) : ScalesRight a ↔ a.Fits := by
  obtain ⟨yc0, yh0, yw0, positive⟩ := a.positive
  constructor
  · intro right
    apply scaleStores_isSome ⟨yc0, yh0, yw0, positive.2.1⟩
    obtain ⟨stores, ran, -⟩ := right.once true (List.replicate a.latents 0) List.length_replicate
    exact Option.isSome_of_eq_some ran
  intro fits
  constructor
  case planes =>
    intro neon z s0 s1 length plane0 plane1
    refine ⟨_, _, ScaleArgs.extract_stores fits neon length plane0 plane1, (store_length _ _).trans plane0,
      (store_length _ _).trans plane1, ?_⟩
    intro c y x inC inY inX
    refine ⟨_, _, ScaleArgs.store_at z Prod.fst plane0 inC inY inX rfl, ScaleArgs.store_at z Prod.snd plane1 inC inY inX rfl,
      ?_, ?_⟩
    · dsimp only
      rw [← ScaleArgs.scaleAt_toInt, ← ScaleArgs.scaleAt_toInt, ← apply_ite Int32.toInt]
      exact congrArg Int32.toInt (if_congr (by omega) rfl rfl)
    · dsimp only
      rw [← ScaleArgs.scaleAt_toInt, ← ScaleArgs.scaleAt_toInt, ← apply_ite Int32.toInt]
      exact congrArg Int32.toInt (if_congr (by omega) rfl rfl)
  case reads => exact fun k y x below => a.latent_lt below y x
  case once => exact fun neon z length => ⟨_, ScaleArgs.stores_eq fits neon length, scaleStores_once positive.2.1⟩
  case same =>
    intro z s0 s1 length plane0 plane1
    rw [ScaleArgs.extract_stores fits true length plane0 plane1, ScaleArgs.extract_stores fits false length plane0 plane1]

/-- Channels whose double is past the largest `int`, two to a latent. -/
def wideArgs : ScaleArgs where
  YC := 1073741825
  YH := 1
  YW := 1
  ZC := 2
  ZH := 1
  ZW := 1
  channelRepeat := 1073741825
  spatialRepeat := 1
  scaleMaxIndex := 63
  accepts := ⟨by decide, by decide, by decide⟩

/-- **Accepted arguments, and `c + YC` overflows**: the latents there have to be are counted in 64 bits. -/
theorem scales_overflow :
    ¬ ScalesRight wideArgs ∧
      wideArgs.extract false [0, 0] (List.replicate 1073741825 0) (List.replicate 1073741825 0) = none ∧
      wideArgs.extract true [0, 0] (List.replicate 1073741825 0) (List.replicate 1073741825 0) = none := by
  have faults : ∀ neon, wideArgs.stores neon [0, 0] = none := by
    intro neon
    apply Option.not_isSome_iff_eq_none.mp
    intro done
    have channel : 1073741825 - 1 + 1073741825 < 2 ^ 31 := scaleStores_channel (by decide) done
    exact absurd channel (by decide)
  have plane : (List.replicate 1073741825 (0 : Int32)).length = wideArgs.plane := List.length_replicate
  refine ⟨?_, ?_, ?_⟩
  · intro right
    obtain ⟨stores, ran, -⟩ := right.once false [0, 0] rfl
    rw [faults] at ran
    cases ran
  · rw [ScaleArgs.extract_eq false [0, 0] plane plane, faults]
    rfl
  · rw [ScaleArgs.extract_eq true [0, 0] plane plane, faults]
    rfl

end Rkvc.Mlvc.Pixel
