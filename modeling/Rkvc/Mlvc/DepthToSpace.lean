import Rkvc.Mlvc.Blocked

/-!
# Depth to space, fused and in two steps

`nchw_d2s_dcr_f16` on the planes of a tensor, and `nc1hwc2_d2s_dcr_f16` on its
blocks. The fused routine counts its output channels from the blocks, padding
and all, so it is the other one only where the padding is not counted as a
channel or nothing is moved (`d2sRight_iff`).
-/

namespace Rkvc.Mlvc.Pixel
set_option autoImplicit false
open Lib

/-- The loops of `nchw_d2s_dcr_f16`. -/
def d2sStores (src : List UInt16) (size OC H W bs : Nat) : Option (List (Nat × UInt16)) :=
  (intMul H bs).bind fun OH => (intMul W bs).bind fun OW =>
    forInt 0 OC 1 fun c => forInt 0 OH 1 fun y => forInt 0 OW 1 fun x =>
      let dy := y % bs
      let dx := x % bs
      src[(((dy * bs + dx) * OC + c) * H + y / bs) * W + x / bs]?.bind fun v => put size ((c * OH + y) * OW + x) v

/-- **`nchw_d2s_dcr_f16`**; `none` is a fault. -/
def nchwD2sDcr (src dst : List UInt16) (OC H W bs : Nat) : Option (List UInt16) :=
  (d2sStores src dst.length OC H W bs).map (store dst)

/-- An entry of the table `choff`, which has sixteen. -/
def choffAt (H W C2 bs oc c dy dx : Nat) : Option Nat :=
  if dx < 16 then
    (intMul bs oc).bind fun row => (intMul dy row).bind fun rows => (intMul dx oc).bind fun cols =>
      (intSum rows cols).bind fun sum => (intSum sum c).bind fun ic => some (ic / C2 * H * W * C2 + ic % C2)
  else none

/-- The loops of `nc1hwc2_d2s_dcr_f16`. -/
def fusedStores (src : List UInt16) (size C1 H W C2 bs : Nat) : Option (List (Nat × UInt16)) :=
  (intMul C1 C2).bind fun C =>
    let oc := C / (bs * bs)
    (intMul H bs).bind fun oh => (intMul W bs).bind fun ow =>
      forInt 0 oc 1 fun c => forInt 0 bs 1 fun dy =>
        ((List.range bs).mapM (choffAt H W C2 bs oc c dy)).bind fun choff =>
          forInt 0 H 1 fun h => (intMul h bs).bind fun top =>
            let orow := (c * oh + top + dy) * ow
            let srow := h * W * C2
            forInt 0 W 1 fun w => forInt 0 bs 1 fun dx =>
              (intMul w bs).bind fun left => (intSum left dx).bind fun x =>
                src[srow + (w * C2 + choff.getD dx 0)]?.bind fun v => put size (orow + x) v

/-- **`nc1hwc2_d2s_dcr_f16`**; `none` is a fault. -/
def nc1hwc2D2sDcr (src out : List UInt16) (C1 H W C2 bs : Nat) : Option (List UInt16) :=
  (fusedStores src out.length C1 H W C2 bs).map (store out)

/-- The input channel of an output sample. -/
def dcrChannel (OC bs c y x : Nat) : Nat := (y % bs * bs + x % bs) * OC + c

section Places
variable {src : List UInt16} {size OC H W bs C1 C2 : Nat}

theorem dcrChannel_lt {c : Nat} (positive : 0 < bs) (hc : c < OC) (y x : Nat) : dcrChannel OC bs c y x < bs * bs * OC :=
  row_lt (row_lt (Nat.mod_lt y positive) (Nat.mod_lt x positive)) hc

/-- What is stored for an output sample, from the value of an input channel and place. -/
def spaced (value : Nat → Nat → Nat → UInt16) (OC H W bs c y x : Nat) : Nat × UInt16 :=
  ((c * (H * bs) + y) * (W * bs) + x, value (dcrChannel OC bs c y x) (y / bs) (x / bs))

def spacedCells (value : Nat → Nat → Nat → UInt16) (OC H W bs : Nat) : List (Nat × UInt16) :=
  (List.range OC).flatMap fun c => (List.range (H * bs)).flatMap fun y => (List.range (W * bs)).flatMap fun x =>
    [spaced value OC H W bs c y x]

theorem mem_spacedCells {value : Nat → Nat → Nat → UInt16} {w : Nat × UInt16} :
    w ∈ spacedCells value OC H W bs ↔ ∃ c < OC, ∃ y < H * bs, ∃ x < W * bs, w = spaced value OC H W bs c y x := by
  simp only [spacedCells, List.mem_flatMap, List.mem_range, List.mem_singleton]

theorem spacedCells_agree (value : Nat → Nat → Nat → UInt16) : Agree (spacedCells value OC H W bs) := by
  intro w mem w' mem' same
  obtain ⟨c, -, y, hy, x, hx, rfl⟩ := mem_spacedCells.1 mem
  obtain ⟨c', -, y', hy', x', hx', rfl⟩ := mem_spacedCells.1 mem'
  obtain ⟨rows, rfl⟩ := row_unique hx hx' same
  obtain ⟨rfl, rfl⟩ := row_unique hy hy' rows
  rfl

/-- What an output sample holds. -/
theorem spaced_at {value : Nat → Nat → Nat → UInt16} {dst : List UInt16} (space : OC * (H * bs) * (W * bs) ≤ dst.length)
    {c y x : Nat} (hc : c < OC) (hy : y < H * bs) (hx : x < W * bs) :
    (store dst (spacedCells value OC H W bs))[(c * (H * bs) + y) * (W * bs) + x]? =
      some (value (dcrChannel OC bs c y x) (y / bs) (x / bs)) := by
  apply store_getElem? (spacedCells_agree value)
  · exact mem_spacedCells.2 ⟨c, hc, y, hy, x, hx, rfl⟩
  · exact Nat.lt_of_lt_of_le (row_lt (row_lt hc hy) hx) space

/-- An element of the planes. -/
def planeValue (src : List UInt16) (H W c y x : Nat) : UInt16 := src.getD ((c * H + y) * W + x) 0

/-- An element of the blocks. -/
def blockValue (src : List UInt16) (H W C2 c y x : Nat) : UInt16 :=
  src.getD (((c / C2 * H + y) * W + x) * C2 + c % C2) 0

theorem nchwD2sDcr_eq {dst : List UInt16} (positive : 0 < bs) (ints : OC < 2 ^ 31 ∧ H * bs < 2 ^ 31 ∧ W * bs < 2 ^ 31)
    (room : bs * bs * OC * H * W ≤ src.length) (space : OC * (H * bs) * (W * bs) ≤ dst.length) :
    nchwD2sDcr src dst OC H W bs = some (store dst (spacedCells (planeValue src H W) OC H W bs)) := by
  have stores : d2sStores src dst.length OC H W bs = some (spacedCells (planeValue src H W) OC H W bs) := by
    rw [d2sStores, intMul_some ints.2.1, Option.bind_some, intMul_some ints.2.2, Option.bind_some]
    apply forRange_eq ints.1
    intro c hc
    apply forRange_eq ints.2.1
    intro y hy
    apply forRange_eq ints.2.2
    intro x hx
    have row : y / bs < H := Nat.div_lt_of_lt_mul (by rwa [Nat.mul_comm])
    have col : x / bs < W := Nat.div_lt_of_lt_mul (by rwa [Nat.mul_comm])
    have inside := row_lt (row_lt (dcrChannel_lt positive hc y x) row) col
    have place := row_lt (row_lt hc hy) hx
    rw [dcrChannel] at inside
    dsimp only
    rw [getElem?_getD (Nat.lt_of_lt_of_le inside room) 0, Option.bind_some, put_eq (Nat.lt_of_lt_of_le place space)]
    rfl
  rw [nchwD2sDcr, stores]
  rfl

/-- The samples, one behind the other. -/
theorem store_spaced (value : Nat → Nat → Nat → UInt16) {dst : List UInt16}
    (exact : dst.length = OC * (H * bs) * (W * bs)) :
    store dst (spacedCells value OC H W bs) =
      (List.range OC).flatMap fun c => (List.range (H * bs)).flatMap fun y => (List.range (W * bs)).map fun x =>
        value (dcrChannel OC bs c y x) (y / bs) (x / bs) := by
  rw [store_range]
  · simp only [spacedCells, List.map_flatMap, List.map_cons, List.map_nil, spaced]
    simp only [List.map_eq_flatMap]
  · simp only [spacedCells, List.map_flatMap, List.map_cons, List.map_nil, spaced]
    rw [flatMap_rows (fun k => (List.range (W * bs)).flatMap fun x => [k * (W * bs) + x]), flatMap_rows (fun k => [k]),
      ← List.map_eq_flatMap, List.map_id', exact]

/-- An array of their size becomes what the decoder shows, whatever it held. -/
theorem nchwD2sDcr_exact {dst : List UInt16} (positive : 0 < bs)
    (ints : OC < 2 ^ 31 ∧ H * bs < 2 ^ 31 ∧ W * bs < 2 ^ 31) (room : bs * bs * OC * H * W ≤ src.length)
    (exact : dst.length = OC * (H * bs) * (W * bs)) :
    nchwD2sDcr src dst OC H W bs = some (nchwD2sDcrF16 src OC H W bs) := by
  rw [nchwD2sDcr_eq positive ints room exact.ge, store_spaced _ exact]
  rfl

/-- The entry of the table is where its channel begins. -/
theorem choffAt_eq {oc c dy dx : Nat} (ints : bs * bs * oc < 2 ^ 31) (small : bs ≤ 16) (hc : c < oc) (hdy : dy < bs)
    (hdx : dx < bs) :
    choffAt H W C2 bs oc c dy dx =
      some (((dy * bs + dx) * oc + c) / C2 * H * W * C2 + ((dy * bs + dx) * oc + c) % C2) := by
  have whole : dy * (bs * oc) + dx * oc + c = (dy * bs + dx) * oc + c := by ring
  have below := row_lt (row_lt hdy hdx) hc
  have row : 1 * (bs * oc) ≤ bs * (bs * oc) := Nat.mul_le_mul_right _ (by omega)
  rw [Nat.one_mul, ← Nat.mul_assoc] at row
  rw [choffAt, if_pos (by omega), intMul_some (by omega), Option.bind_some, intMul_some (by omega), Option.bind_some,
    intMul_some (by omega), Option.bind_some, intSum_some (by omega), Option.bind_some, intSum_some (by omega),
    Option.bind_some, whole]

/-- The fused stores, in their order. -/
def fusedCells (value : Nat → Nat → Nat → UInt16) (oc H W bs : Nat) : List (Nat × UInt16) :=
  (List.range oc).flatMap fun c => (List.range bs).flatMap fun dy => (List.range H).flatMap fun h =>
    (List.range W).flatMap fun w => (List.range bs).flatMap fun dx =>
      [spaced value oc H W bs c (h * bs + dy) (w * bs + dx)]

theorem fusedCells_alike (value : Nat → Nat → Nat → UInt16) (oc : Nat) (positive : 0 < bs) :
    Alike (fusedCells value oc H W bs) (spacedCells value oc H W bs) := by
  intro w
  rw [mem_spacedCells]
  simp only [fusedCells, List.mem_flatMap, List.mem_range, List.mem_singleton]
  constructor
  · rintro ⟨c, hc, dy, hdy, h, hh, w, hw, dx, hdx, rfl⟩
    exact ⟨c, hc, _, row_lt hh hdy, _, row_lt hw hdx, rfl⟩
  · rintro ⟨c, hc, y, hy, x, hx, rfl⟩
    refine ⟨c, hc, y % bs, Nat.mod_lt y positive, y / bs, Nat.div_lt_of_lt_mul (by rwa [Nat.mul_comm]), x / bs,
      Nat.div_lt_of_lt_mul (by rwa [Nat.mul_comm]), x % bs, Nat.mod_lt x positive, ?_⟩
    rw [Nat.div_add_mod', Nat.div_add_mod']

theorem nc1hwc2D2sDcr_eq {out : List UInt16} (positive : 0 < bs) (small : bs ≤ 16) (lanes : 0 < C2)
    (ints : C1 * C2 < 2 ^ 31 ∧ H * bs < 2 ^ 31 ∧ W * bs < 2 ^ 31) (room : C1 * H * W * C2 ≤ src.length)
    (space : C1 * C2 / (bs * bs) * (H * bs) * (W * bs) ≤ out.length) :
    nc1hwc2D2sDcr src out C1 H W C2 bs =
      some (store out (spacedCells (blockValue src H W C2) (C1 * C2 / (bs * bs)) H W bs)) := by
  obtain ⟨oc, hoc⟩ : ∃ oc, oc = C1 * C2 / (bs * bs) := ⟨_, rfl⟩
  have count : bs * bs * oc ≤ C1 * C2 := by
    rw [hoc]
    exact Nat.mul_div_le _ _
  have single : oc ≤ bs * bs * oc := Nat.le_mul_of_pos_left _ (Nat.mul_pos positive positive)
  have high : H ≤ H * bs := Nat.le_mul_of_pos_right _ positive
  have wide : W ≤ W * bs := Nat.le_mul_of_pos_right _ positive
  rw [← hoc] at space ⊢
  have stores : fusedStores src out.length C1 H W C2 bs = some (fusedCells (blockValue src H W C2) oc H W bs) := by
    rw [fusedStores, intMul_some ints.1, Option.bind_some]
    dsimp only
    rw [← hoc, intMul_some ints.2.1, Option.bind_some, intMul_some ints.2.2, Option.bind_some]
    apply forRange_eq (by omega)
    intro c hc
    apply forRange_eq (by omega)
    intro dy hdy
    have table : (List.range bs).mapM (choffAt H W C2 bs oc c dy) = some ((List.range bs).map fun dx =>
        ((dy * bs + dx) * oc + c) / C2 * H * W * C2 + ((dy * bs + dx) * oc + c) % C2) :=
      mapM_some fun dx mem => choffAt_eq (by omega) small hc hdy (List.mem_range.1 mem)
    rw [table, Option.bind_some]
    apply forRange_eq (by omega)
    intro h hh
    have top := row_lt hh hdy
    rw [intMul_some (by omega), Option.bind_some]
    apply forRange_eq (by omega)
    intro w hw
    apply forRange_eq (by omega)
    intro dx hdx
    have left := row_lt hw hdx
    rw [intMul_some (by omega), Option.bind_some, intSum_some (by omega), Option.bind_some, getD_map_range hdx]
    have channel := row_lt (row_lt hdy hdx) hc
    have block : ((dy * bs + dx) * oc + c) / C2 < C1 :=
      Nat.div_lt_of_lt_mul (by rw [Nat.mul_comm C2]; exact Nat.lt_of_lt_of_le channel count)
    have inside := row_lt (row_lt (row_lt block hh) hw) (Nat.mod_lt ((dy * bs + dx) * oc + c) lanes)
    have read : h * W * C2 + (w * C2 + (((dy * bs + dx) * oc + c) / C2 * H * W * C2 + ((dy * bs + dx) * oc + c) % C2)) =
        ((((dy * bs + dx) * oc + c) / C2 * H + h) * W + w) * C2 + ((dy * bs + dx) * oc + c) % C2 := by ring
    have place := row_lt (row_lt hc top) left
    obtain ⟨row, subrow⟩ := row_at (r := h) hdy
    obtain ⟨col, subcol⟩ := row_at (r := w) hdx
    rw [read, getElem?_getD (Nat.lt_of_lt_of_le inside room) 0, Option.bind_some, Nat.add_assoc (c * (H * bs)),
      put_eq (Nat.lt_of_lt_of_le place space), spaced, dcrChannel, row, subrow, col, subcol, blockValue]
  rw [nc1hwc2D2sDcr, stores, Option.map_some, store_congr (spacedCells_agree _) (fusedCells_alike _ oc positive)]

end Places

/-! ## The two paths -/

/-- The sizes of a tensor that is rearranged, and of the blocks it is packed into. -/
structure D2sShape where
  OC : Nat
  H : Nat
  W : Nat
  bs : Nat
  C2 : Nat
  outputs : 0 < OC
  high : 0 < H
  wide : 0 < W
  block : 0 < bs
  small : bs ≤ 16
  lanes : 0 < C2
  ints : OC * bs * bs < 2 ^ 31 ∧ H < 2 ^ 31 ∧ W < 2 ^ 31

namespace D2sShape

/-- The channels of the tensor. -/
def C (s : D2sShape) : Nat := s.OC * s.bs * s.bs

/-- Its blocks. -/
def C1 (s : D2sShape) : Nat := (s.C + s.C2 - 1) / s.C2

/-- The output channels that the fused routine counts. -/
def oc (s : D2sShape) : Nat := s.C1 * s.C2 / (s.bs * s.bs)

/-- The elements of so many output planes. -/
def size (s : D2sShape) (n : Nat) : Nat := n * (s.H * s.bs) * (s.W * s.bs)

/-- **What the fused routine is for**: from the packed tensor it makes the planes of the other. -/
def Right (s : D2sShape) (neon : Bool) : Prop :=
  ∀ src blocks out ref : List UInt16, src.length = s.C * s.H * s.W → s.C1 * s.H * s.W * s.C2 ≤ blocks.length →
    s.size s.oc ≤ out.length → s.size s.OC ≤ ref.length →
      ∃ packed fused spaced, nchwF16ToNc1hwc2 neon (some src) (some blocks) s.C s.H s.W s.C2 s.W = some (some packed) ∧
        nc1hwc2D2sDcr packed out s.C1 s.H s.W s.C2 s.bs = some fused ∧
        nchwD2sDcr src ref s.OC s.H s.W s.bs = some spaced ∧
        fused.take (s.size s.OC) = spaced.take (s.size s.OC)

/-- No sum or product is too large for an `int`. -/
structure Fits (s : D2sShape) (neon : Bool) : Prop where
  pack : PackFits neon s.C s.W s.C2
  rows : s.H * s.bs < 2 ^ 31
  columns : s.W * s.bs < 2 ^ 31

/-- Nothing is moved, or no padding is counted. -/
def Even (s : D2sShape) : Prop := s.bs = 1 ∨ s.oc = s.OC

variable {s : D2sShape} {neon : Bool} {src blocks out ref : List UInt16}

theorem channels (s : D2sShape) : 0 < s.C := Nat.mul_pos (Nat.mul_pos s.outputs s.block) s.block

/-- The blocks hold the channels, and less than a block more. -/
theorem blocks_hold (s : D2sShape) : s.C ≤ s.C1 * s.C2 ∧ s.C1 * s.C2 < s.C + s.C2 := by
  have lanes := s.lanes
  have channels := s.channels
  have le : s.C1 * s.C2 ≤ s.C + s.C2 - 1 := Nat.div_mul_le_self _ _
  have next := Nat.lt_div_mul_add (a := s.C + s.C2 - 1) lanes
  rw [← C1] at next
  omega

/-- The fused routine counts the output channels there are, and those of the padding. -/
theorem OC_le_oc (s : D2sShape) : s.OC ≤ s.oc := by
  have hold := s.blocks_hold.1
  rw [oc, Nat.le_div_iff_mul_le (Nat.mul_pos s.block s.block), ← Nat.mul_assoc]
  exact hold

/-- The packed tensor. -/
def packedOf (s : D2sShape) (src blocks : List UInt16) : List UInt16 :=
  store (List.replicate (s.C1 * s.H * s.W * s.C2) 0 ++ blocks.drop (s.C1 * s.H * s.W * s.C2))
    (scalarCells src s.C s.H s.W s.C2 s.W)

/-- The channels of the blocks are those of the tensor, and zeros. -/
theorem blockValue_packed {c y x : Nat} (hc : c < s.C1 * s.C2) (hy : y < s.H) (hx : x < s.W) :
    blockValue (s.packedOf src blocks) s.H s.W s.C2 c y x = if c < s.C then planeValue src s.H s.W c y x else 0 := by
  have held := @packed_at src s.C s.C1 s.H s.W s.C2 s.W blocks _ rfl s.lanes (Nat.le_refl _) c y x hc hy hx
  rw [blockValue, List.getD_eq_getElem?_getD, packedOf, held, Option.getD_some]
  simp only [hx, and_true]
  rfl

/-- **Both paths run** where no sum or product is too large. -/
theorem Fits.runs (fits : s.Fits neon) (room : src.length = s.C * s.H * s.W)
    (held : s.C1 * s.H * s.W * s.C2 ≤ blocks.length) (outs : s.size s.oc ≤ out.length) (refs : s.size s.OC ≤ ref.length) :
    nchwF16ToNc1hwc2 neon (some src) (some blocks) s.C s.H s.W s.C2 s.W = some (some (s.packedOf src blocks)) ∧
      nc1hwc2D2sDcr (s.packedOf src blocks) out s.C1 s.H s.W s.C2 s.bs =
        some (store out (spacedCells (blockValue (s.packedOf src blocks) s.H s.W s.C2) s.oc s.H s.W s.bs)) ∧
      nchwD2sDcr src ref s.OC s.H s.W s.bs =
        some (store ref (spacedCells (planeValue src s.H s.W) s.OC s.H s.W s.bs)) := by
  have sum := fits.pack.blocks
  have hold := s.blocks_hold
  have length : (s.packedOf src blocks).length = blocks.length := by
    rw [packedOf, store_length, List.length_append, List.length_replicate, List.length_drop]
    omega
  refine ⟨?_, ?_, ?_⟩
  · rw [nchwF16ToNc1hwc2_eq neon blocks ⟨s.channels, s.high, s.wide, s.lanes⟩ (Nat.le_refl _),
      packBlocks_eq fits.pack s.ints s.lanes (Nat.le_refl _) (Nat.le_of_eq room.symm) held]
    rfl
  · apply nc1hwc2D2sDcr_eq s.block s.small s.lanes ⟨by omega, fits.rows, fits.columns⟩
    · rw [length]
      exact held
    · exact outs
  · have outputs : s.OC ≤ s.C := by
      rw [C, Nat.mul_assoc]
      exact Nat.le_mul_of_pos_right _ (Nat.mul_pos s.block s.block)
    have count : s.bs * s.bs * s.OC = s.C := by
      rw [C]
      ring
    apply nchwD2sDcr_eq s.block ⟨by omega, fits.rows, fits.columns⟩
    · rw [count, room]
    · exact refs

/-- The same first planes, sample by sample. -/
theorem take_eq_iff {value value' : Nat → Nat → Nat → UInt16} (outs : s.size s.oc ≤ out.length)
    (refs : s.size s.OC ≤ ref.length) :
    (store out (spacedCells value s.oc s.H s.W s.bs)).take (s.size s.OC) =
        (store ref (spacedCells value' s.OC s.H s.W s.bs)).take (s.size s.OC) ↔
      ∀ c < s.OC, ∀ y < s.H * s.bs, ∀ x < s.W * s.bs,
        value (dcrChannel s.oc s.bs c y x) (y / s.bs) (x / s.bs) =
          value' (dcrChannel s.OC s.bs c y x) (y / s.bs) (x / s.bs) := by
  have le := s.OC_le_oc
  constructor
  · intro same c hc y hy x hx
    have inside : (c * (s.H * s.bs) + y) * (s.W * s.bs) + x < s.size s.OC := row_lt (row_lt hc hy) hx
    have at_place := congrArg (·[(c * (s.H * s.bs) + y) * (s.W * s.bs) + x]?) same
    simp only [List.getElem?_take_of_lt inside] at at_place
    rw [spaced_at outs (by omega) hy hx, spaced_at refs hc hy hx] at at_place
    exact Option.some.inj at_place
  · intro each
    apply List.ext_getElem?
    intro i
    by_cases inside : i < s.size s.OC
    · rw [List.getElem?_take_of_lt inside, List.getElem?_take_of_lt inside]
      rw [size] at inside
      have wide : 0 < s.W * s.bs := Nat.mul_pos s.wide s.block
      have high : 0 < s.H * s.bs := Nat.mul_pos s.high s.block
      have row : i / (s.W * s.bs) < s.OC * (s.H * s.bs) := Nat.div_lt_of_lt_mul (by rwa [Nat.mul_comm (s.W * s.bs)])
      have plane : i / (s.W * s.bs) / (s.H * s.bs) < s.OC := Nat.div_lt_of_lt_mul (by rwa [Nat.mul_comm (s.H * s.bs)])
      have split : i = (i / (s.W * s.bs) / (s.H * s.bs) * (s.H * s.bs) + i / (s.W * s.bs) % (s.H * s.bs)) *
          (s.W * s.bs) + i % (s.W * s.bs) := by
        rw [Nat.div_add_mod', Nat.div_add_mod']
      rw [split, spaced_at outs (by omega) (Nat.mod_lt _ high) (Nat.mod_lt _ wide),
        spaced_at refs plane (Nat.mod_lt _ high) (Nat.mod_lt _ wide),
        each _ plane _ (Nat.mod_lt _ high) _ (Nat.mod_lt _ wide)]
    · rw [List.getElem?_take_eq_none (by omega), List.getElem?_take_eq_none (by omega)]

/-- A build that does it has no sum or product that is too large. -/
theorem Right.fits (right : s.Right neon) : s.Fits neon := by
  obtain ⟨packed, fused, spaced, ran, -, ref, -⟩ := right (List.replicate (s.C * s.H * s.W) 0)
    (List.replicate (s.C1 * s.H * s.W * s.C2) 0) (List.replicate (s.size s.oc) 0) (List.replicate (s.size s.OC) 0)
    List.length_replicate (by rw [List.length_replicate]) (by rw [List.length_replicate]) (by rw [List.length_replicate])
  rw [nchwF16ToNc1hwc2_eq neon _ ⟨s.channels, s.high, s.wide, s.lanes⟩ (Nat.le_refl _), Option.map_eq_some_iff] at ran
  obtain ⟨_, ran, -⟩ := ran
  rw [nchwD2sDcr, Option.map_eq_some_iff] at ref
  obtain ⟨_, ref, -⟩ := ref
  rw [d2sStores, Option.bind_eq_some_iff] at ref
  obtain ⟨OH, rows, ref⟩ := ref
  rw [Option.bind_eq_some_iff] at ref
  obtain ⟨OW, columns, -⟩ := ref
  obtain ⟨rfl, rows⟩ := intMul_eq rows
  obtain ⟨rfl, columns⟩ := intMul_eq columns
  exact ⟨packBlocks_fits ⟨s.channels, s.high, s.wide⟩ (Option.isSome_of_eq_some ran), rows, columns⟩

/-- The tensor with a one where channel `OC` begins. -/
def probe (s : D2sShape) : List UInt16 := (List.replicate (s.C * s.H * s.W) 0).set ((s.OC * s.H + 0) * s.W + 0) 1

theorem probe_at (s : D2sShape) {c : Nat} (hc : c < s.C) :
    planeValue s.probe s.H s.W c 0 0 = if c = s.OC then 1 else 0 := by
  have inside := row_lt (row_lt hc s.high) s.wide
  rw [planeValue, probe, List.getD_eq_getElem?_getD]
  split
  · rename_i same
    rw [same] at inside ⊢
    rw [List.getElem?_set_self (by rw [List.length_replicate]; exact inside), Option.getD_some]
  · rename_i other
    have apart : (s.OC * s.H + 0) * s.W + 0 ≠ (c * s.H + 0) * s.W + 0 := by
      intro same
      exact other (row_unique s.high s.high (row_unique s.wide s.wide same).1).1.symm
    rw [List.getElem?_set_ne apart, List.getElem?_replicate_of_lt inside, Option.getD_some]

/-- The samples of the first planes are the same. -/
theorem Right.samples (right : s.Right neon) (room : src.length = s.C * s.H * s.W) {c y x : Nat} (hc : c < s.OC)
    (hy : y < s.H * s.bs) (hx : x < s.W * s.bs) :
    blockValue (s.packedOf src (List.replicate (s.C1 * s.H * s.W * s.C2) 0)) s.H s.W s.C2
        (dcrChannel s.oc s.bs c y x) (y / s.bs) (x / s.bs) =
      planeValue src s.H s.W (dcrChannel s.OC s.bs c y x) (y / s.bs) (x / s.bs) := by
  have zeros : ∀ n, n ≤ (List.replicate n (0 : UInt16)).length := by
    intro n
    rw [List.length_replicate]
  obtain ⟨packed, fused, spaced, ran, fusedRan, refRan, same⟩ :=
    right src _ _ _ room (zeros (s.C1 * s.H * s.W * s.C2)) (zeros (s.size s.oc)) (zeros (s.size s.OC))
  obtain ⟨ran', fusedRan', refRan'⟩ :=
    right.fits.runs room (zeros (s.C1 * s.H * s.W * s.C2)) (zeros (s.size s.oc)) (zeros (s.size s.OC))
  rw [ran', Option.some.injEq, Option.some.injEq] at ran
  rw [← ran, fusedRan', Option.some.injEq] at fusedRan
  rw [refRan', Option.some.injEq] at refRan
  rw [← fusedRan, ← refRan, take_eq_iff (zeros _) (zeros _)] at same
  exact same c hc y hy x hx

/-- Where something is moved, a counted padding moves it elsewhere. -/
theorem Right.even (right : s.Right neon) : s.Even := by
  rw [Even, or_iff_not_imp_left]
  intro moved
  by_contra padded
  have more : s.OC < s.oc := Nat.lt_of_le_of_ne s.OC_le_oc (Ne.symm padded)
  have two : 2 ≤ s.bs := by
    have block := s.block
    omega
  have outputs := s.outputs
  have inner : s.OC < s.C := by
    rw [C]
    have first : s.OC * 2 ≤ s.OC * s.bs := Nat.mul_le_mul_left _ two
    have second : s.OC * s.bs * 1 ≤ s.OC * s.bs * s.bs := Nat.mul_le_mul_left _ s.block
    omega
  have counted : s.oc < s.C1 * s.C2 := by
    have whole : s.oc * (s.bs * s.bs) ≤ s.C1 * s.C2 := Nat.div_mul_le_self _ _
    have four : s.oc * (2 * 2) ≤ s.oc * (s.bs * s.bs) := Nat.mul_le_mul_left _ (Nat.mul_le_mul two two)
    omega
  have channel : ∀ n, dcrChannel n s.bs 0 0 1 = n := by
    intro n
    rw [dcrChannel, Nat.zero_mod, Nat.mod_eq_of_lt (by omega), Nat.zero_mul, Nat.zero_add, Nat.one_mul, Nat.add_zero]
  have sample := right.samples (show s.probe.length = s.C * s.H * s.W by rw [probe, List.length_set, List.length_replicate])
    outputs (Nat.mul_pos s.high s.block)
    (Nat.lt_of_lt_of_le (by omega) (Nat.le_mul_of_pos_left s.bs s.wide) : 1 < s.W * s.bs)
  rw [channel, channel, Nat.zero_div, Nat.div_eq_of_lt (by omega), blockValue_packed counted s.high s.wide,
    s.probe_at inner, if_pos rfl] at sample
  split at sample
  · rename_i inside
    rw [s.probe_at inside, if_neg (by omega)] at sample
    exact absurd sample (by decide)
  · exact absurd sample (by decide)

/-- Without counted padding both read the same channels. -/
theorem Even.right (even : s.Even) (fits : s.Fits neon) : s.Right neon := by
  intro src blocks out ref room held outs refs
  obtain ⟨ran, fused, spaced⟩ := fits.runs room held outs refs
  refine ⟨_, _, _, ran, fused, spaced, (take_eq_iff outs refs).2 ?_⟩
  intro c hc y hy x hx
  have row : y / s.bs < s.H := Nat.div_lt_of_lt_mul (by rwa [Nat.mul_comm])
  have col : x / s.bs < s.W := Nat.div_lt_of_lt_mul (by rwa [Nat.mul_comm])
  have channel : dcrChannel s.oc s.bs c y x = dcrChannel s.OC s.bs c y x := by
    rcases even with one | same
    · rw [dcrChannel, dcrChannel, one, Nat.mod_one, Nat.mod_one]
      omega
    · rw [same]
  have below : dcrChannel s.OC s.bs c y x < s.C := by
    have lt := dcrChannel_lt s.block hc y x
    rw [C]
    calc dcrChannel s.OC s.bs c y x < s.bs * s.bs * s.OC := lt
      _ = s.OC * s.bs * s.bs := by ring
  have hold := s.blocks_hold.1
  rw [channel, blockValue_packed (by omega) row col, if_pos below]

end D2sShape

/-- **The fused routine makes the planes of the two steps exactly where it counts no padding as a channel, or
moves nothing**, as far as its `int`s reach. -/
theorem d2sRight_iff (s : D2sShape) (neon : Bool) : s.Right neon ↔ s.Fits neon ∧ s.Even :=
  ⟨fun right => ⟨right.fits, right.even⟩, fun ⟨fits, even⟩ => even.right fits⟩

/-- Four channels in a block of eight. -/
def halfBlock : D2sShape where
  OC := 1
  H := 1
  W := 1
  bs := 2
  C2 := 8
  outputs := by decide
  high := by decide
  wide := by decide
  block := by decide
  small := by decide
  lanes := by decide
  ints := by decide

/-- They are taken for eight. -/
theorem halfBlock_differs : ¬halfBlock.Right false ∧ ¬halfBlock.Right true := by
  have odd : ¬halfBlock.Even := by
    rintro (one | same)
    · cases one
    · cases same
  exact ⟨fun right => odd right.even, fun right => odd right.even⟩

end Rkvc.Mlvc.Pixel
