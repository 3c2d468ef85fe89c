import Rkvc.Lib.Loop
import Rkvc.Lib.Store
import Rkvc.Mlvc.Simd

/-!
# The blocked layout

`nchw_f16_to_nc1hwc2` and `nc1hwc2_to_nchw`, each as the scalar loops and as the
NEON build has them: rows eight columns at a time through the transpose, then the
columns that are left. Counters are `int`s, accesses are checked; offsets are
products in a `size_t`, below the size of an array. The two builds store the same
elements in another order.
-/

namespace Rkvc.Mlvc.Pixel
set_option autoImplicit false
open Lib

/-! ## To blocks -/

/-- The scalar loops of `nchw_f16_to_nc1hwc2`. -/
def packScalar (src : List UInt16) (size C H W C2 wStride : Nat) : Option (List (Nat × UInt16)) :=
  forInt 0 C 1 fun c =>
    let c1 := c / C2
    let c2 := c % C2
    forInt 0 H 1 fun y =>
      forInt 0 W 1 fun x =>
        src[(c * H + y) * W + x]?.bind fun v => put size (((c1 * H + y) * wStride + x) * C2 + c2) v

/-- Its NEON branch. -/
def packNeon (src : List UInt16) (size C1 H W wStride : Nat) : Option (List (Nat × UInt16)) :=
  forInt 0 C1 1 fun c1 =>
    forInt 0 H 1 fun y =>
      let dp := (c1 * H + y) * wStride * 8
      let sp := fun k => ((c1 * 8 + k) * H + y) * W
      wideInt 0 W 8
        (fun x => ((List.range 8).mapM fun k => ld1 8 src (sp k + x)).bind fun r =>
          forInt 0 8 1 fun k => st1 size (dp + (x + k) * 8) ((transpose8x8U16 r).getD k []))
        (fun x => forInt x W 1 fun x =>
          forInt 0 8 1 fun k => src[sp k + x]?.bind fun v => put size (dp + x * 8 + k) v)

/-- `memset(dst, 0, n)`. -/
def cleared (dst : List UInt16) (n : Nat) : Option (List UInt16) :=
  if n ≤ dst.length then some (List.replicate n 0 ++ dst.drop n) else none

/-- What is left of `nchw_f16_to_nc1hwc2` behind its checks. -/
def packBlocks (neon : Bool) (src dst : List UInt16) (C H W C2 wStride : Nat) : Option (List UInt16) := do
  let sum ← intSum C C2
  let C1 := (sum - 1) / C2
  let dst ← cleared dst (C1 * H * wStride * C2)
  let stores ← (if neon ∧ C2 = 8 ∧ C % 8 = 0 then packNeon src dst.length C1 H W wStride
    else packScalar src dst.length C H W C2 wStride)
  return store dst stores

/-- **`nchw_f16_to_nc1hwc2`**, with or without `MLVC_PX_NEON`; `none` is a fault. A null pointer is `none`. -/
def nchwF16ToNc1hwc2 (neon : Bool) (src dst : Option (List UInt16)) (C H W C2 wStride : Int) :
    Option (Option (List UInt16)) :=
  match src, dst with
  | some src, some dst =>
    if C ≤ 0 ∨ H ≤ 0 ∨ W ≤ 0 ∨ C2 ≤ 0 then some (some dst)
    else
      let wStride := if wStride ≤ 0 then W else wStride
      if wStride < W then some (some dst)
      else (packBlocks neon src dst C.toNat H.toNat W.toNat C2.toNat wStride.toNat).map some
  | _, dst => some dst

section Pack
variable {src : List UInt16} {size C C1 H W C2 wStride : Nat}

/-- What is stored for an element of the tensor. -/
def packed (src : List UInt16) (H W C2 wStride c y x : Nat) : Nat × UInt16 :=
  (((c / C2 * H + y) * wStride + x) * C2 + c % C2, src.getD ((c * H + y) * W + x) 0)

/-- The place of an element. -/
theorem packed_lt {c y x : Nat} (hc : c / C2 < C1) (hy : y < H) (hx : x < wStride) (positive : 0 < C2) :
    (packed src H W C2 wStride c y x).1 < C1 * H * wStride * C2 :=
  row_lt (row_lt (row_lt hc hy) hx) (Nat.mod_lt c positive)

theorem packed_inj {c y x c' y' x' : Nat} (positive : 0 < C2) (hy : y < H) (hy' : y' < H) (hx : x < wStride)
    (hx' : x' < wStride)
    (same : (packed src H W C2 wStride c y x).1 = (packed src H W C2 wStride c' y' x').1) :
    c = c' ∧ y = y' ∧ x = x' := by
  obtain ⟨same, low⟩ := row_unique (Nat.mod_lt c positive) (Nat.mod_lt c' positive) same
  obtain ⟨same, col⟩ := row_unique hx hx' same
  obtain ⟨block, row⟩ := row_unique hy hy' same
  have channel : c = c' := by rw [← Nat.div_add_mod c C2, ← Nat.div_add_mod c' C2, block, low]
  exact ⟨channel, row, col⟩

/-- The element is there. -/
theorem read_plane (room : C * H * W ≤ src.length) {c y x : Nat} (hc : c < C) (hy : y < H) (hx : x < W) :
    src[(c * H + y) * W + x]? = some (src.getD ((c * H + y) * W + x) 0) := by
  have inside := row_lt (row_lt hc hy) hx
  exact getElem?_getD (by omega) 0

/-- The scalar stores. -/
def scalarCells (src : List UInt16) (C H W C2 wStride : Nat) : List (Nat × UInt16) :=
  (List.range C).flatMap fun c => (List.range H).flatMap fun y => (List.range W).flatMap fun x =>
    [packed src H W C2 wStride c y x]

/-- The NEON stores. -/
def neonCells (src : List UInt16) (C1 H W wStride : Nat) : List (Nat × UInt16) :=
  (List.range C1).flatMap fun c1 => (List.range H).flatMap fun y => (List.range W).flatMap fun x =>
    (List.range 8).map fun k => packed src H W 8 wStride (c1 * 8 + k) y x

theorem packScalar_eq (ints : C < 2 ^ 31 ∧ H < 2 ^ 31 ∧ W < 2 ^ 31) (positive : 0 < C2) (le : W ≤ wStride)
    (blocks : ∀ c < C, c / C2 < C1) (room : C * H * W ≤ src.length) (space : C1 * H * wStride * C2 ≤ size) :
    packScalar src size C H W C2 wStride = some (scalarCells src C H W C2 wStride) := by
  apply forRange_eq ints.1
  intro c hc
  apply forRange_eq ints.2.1
  intro y hy
  apply forRange_eq ints.2.2
  intro x hx
  have inside := @packed_lt src C1 H W C2 wStride c y x (blocks c hc) hy (by omega) positive
  rw [read_plane room hc hy hx, Option.bind_some]
  exact put_eq (Nat.lt_of_lt_of_le inside space) _

theorem packed_block {c1 k y x : Nat} (hk : k < 8) :
    packed src H W 8 wStride (c1 * 8 + k) y x =
      ((c1 * H + y) * wStride * 8 + x * 8 + k, src.getD (((c1 * 8 + k) * H + y) * W + x) 0) := by
  have block : (c1 * 8 + k) / 8 = c1 := by omega
  have lane : (c1 * 8 + k) % 8 = k := by omega
  rw [packed, block, lane, Nat.add_mul ((c1 * H + y) * wStride)]

section Block
variable {c1 y : Nat}

/-- Eight columns of a block. -/
theorem packWide_eq (hc : c1 < C1) (hy : y < H) (le : W ≤ wStride) (room : C1 * 8 * H * W ≤ src.length)
    (space : C1 * H * wStride * 8 ≤ size) {x : Nat} (hx : x + 8 ≤ W) :
    ((List.range 8).mapM fun k => ld1 8 src (((c1 * 8 + k) * H + y) * W + x)).bind (fun r =>
        forInt 0 8 1 fun k => st1 size ((c1 * H + y) * wStride * 8 + (x + k) * 8) ((transpose8x8U16 r).getD k [])) =
      some ((visits x (x + 8) 1).flatMap fun x =>
        (List.range 8).map fun k => packed src H W 8 wStride (c1 * 8 + k) y x) := by
  have rows : ((List.range 8).mapM fun k => ld1 8 src (((c1 * 8 + k) * H + y) * W + x)) =
      some ((List.range 8).map fun k => (List.range 8).map fun j =>
        src.getD (((c1 * 8 + k) * H + y) * W + x + j) 0) := by
    apply mapM_some
    intro k mem
    have hk := List.mem_range.1 mem
    have last := row_lt (row_lt (show c1 * 8 + k < C1 * 8 by omega) hy) (show x + 7 < W by omega)
    exact ld1_eq (by omega) 0
  rw [rows, Option.bind_some, transpose8x8U16_eq fun k j => src.getD (((c1 * 8 + k) * H + y) * W + x + j) 0,
    visits_add, List.flatMap_map]
  apply forRange_eq (by decide)
  intro k hk
  have row := row_lt (row_lt hc hy) (show x + k < wStride by omega)
  have last := Nat.mul_le_mul_right 8 (Nat.succ_le_of_lt row)
  rw [Nat.succ_mul, Nat.add_mul] at last
  rw [getD_map_range hk, st1_eq (by omega)]
  congr 1
  apply List.map_congr_left
  intro j mem
  rw [packed_block (List.mem_range.1 mem), Nat.add_assoc _ x]

/-- One column of a block. -/
theorem packColumn_eq (hc : c1 < C1) (hy : y < H) (le : W ≤ wStride) (room : C1 * 8 * H * W ≤ src.length)
    (space : C1 * H * wStride * 8 ≤ size) {x : Nat} (hx : x < W) :
    (forInt 0 8 1 fun k => src[((c1 * 8 + k) * H + y) * W + x]?.bind fun v =>
        put size ((c1 * H + y) * wStride * 8 + x * 8 + k) v) =
      some ((List.range 8).map fun k => packed src H W 8 wStride (c1 * 8 + k) y x) := by
  rw [List.map_eq_flatMap]
  apply forRange_eq (by decide)
  intro k hk
  have row := row_lt (row_lt hc hy) (show x < wStride by omega)
  have last := Nat.mul_le_mul_right 8 (Nat.succ_le_of_lt row)
  rw [Nat.succ_mul, Nat.add_mul] at last
  rw [read_plane room (show c1 * 8 + k < C1 * 8 by omega) hy hx, Option.bind_some, put_eq (by omega), packed_block hk]

end Block

theorem packNeon_eq (ints : C1 < 2 ^ 31 ∧ H < 2 ^ 31 ∧ W < 2 ^ 31) (fits : WideFits W) (le : W ≤ wStride)
    (room : C1 * 8 * H * W ≤ src.length) (space : C1 * H * wStride * 8 ≤ size) :
    packNeon src size C1 H W wStride = some (neonCells src C1 H W wStride) := by
  apply forRange_eq ints.1
  intro c1 hc
  apply forRange_eq ints.2.1
  intro y hy
  rw [← visits_zero W]
  apply wideInt_eq (by decide) (Nat.zero_le W)
  · intro x _ hx
    exact packWide_eq hc hy le room space hx
  · intro x _ hx
    apply forInt_eq Nat.one_pos
    · intro x visited
      exact packColumn_eq hc hy le room space ((mem_visits Nat.one_pos).mp visited).1
    · intro x visited
      have below := ((mem_visits Nat.one_pos).mp visited).1
      omega
  · rw [Nat.sub_zero, Nat.zero_add]
    exact fits

theorem mem_scalarCells {w : Nat × UInt16} :
    w ∈ scalarCells src C H W C2 wStride ↔
      ∃ c < C, ∃ y < H, ∃ x < W, w = packed src H W C2 wStride c y x := by
  simp only [scalarCells, List.mem_flatMap, List.mem_range, List.mem_singleton]

theorem mem_neonCells {w : Nat × UInt16} :
    w ∈ neonCells src C1 H W wStride ↔
      ∃ c < C1 * 8, ∃ y < H, ∃ x < W, w = packed src H W 8 wStride c y x := by
  simp only [neonCells, List.mem_flatMap, List.mem_range, List.mem_map]
  constructor
  · rintro ⟨c1, hc, y, hy, x, hx, k, hk, rfl⟩
    exact ⟨c1 * 8 + k, by omega, y, hy, x, hx, rfl⟩
  · rintro ⟨c, hc, y, hy, x, hx, rfl⟩
    refine ⟨c / 8, by omega, y, hy, x, hx, c % 8, by omega, ?_⟩
    rw [Nat.div_add_mod']

theorem scalarCells_agree (positive : 0 < C2) (le : W ≤ wStride) : Agree (scalarCells src C H W C2 wStride) := by
  intro w mem w' mem' same
  obtain ⟨c, -, y, hy, x, hx, rfl⟩ := mem_scalarCells.1 mem
  obtain ⟨c', -, y', hy', x', hx', rfl⟩ := mem_scalarCells.1 mem'
  obtain ⟨rfl, rfl, rfl⟩ := packed_inj positive hy hy' (Nat.lt_of_lt_of_le hx le) (Nat.lt_of_lt_of_le hx' le) same
  rfl

/-- The blocks of the channels. -/
theorem blocks_enough (positive : 0 < C2) {c : Nat} (hc : c < C) : c / C2 < (C + C2 - 1) / C2 := by
  apply Nat.lt_of_lt_of_le (Nat.lt_succ_self _)
  rw [Nat.le_div_iff_mul_le positive, Nat.succ_mul]
  have le := Nat.div_mul_le_self c C2
  omega

/-- The sums of a build. -/
structure PackFits (neon : Bool) (C W C2 : Nat) : Prop where
  blocks : C + C2 < 2 ^ 31
  wide : neon → C2 = 8 → C % 8 = 0 → WideFits W

/-- **The packer, on both builds.** -/
theorem packBlocks_eq {neon : Bool} {dst : List UInt16} (fits : PackFits neon C W C2)
    (ints : C < 2 ^ 31 ∧ H < 2 ^ 31 ∧ W < 2 ^ 31) (positive : 0 < C2) (le : W ≤ wStride)
    (room : C * H * W ≤ src.length) (space : (C + C2 - 1) / C2 * H * wStride * C2 ≤ dst.length) :
    packBlocks neon src dst C H W C2 wStride =
      some (store (List.replicate ((C + C2 - 1) / C2 * H * wStride * C2) 0 ++
        dst.drop ((C + C2 - 1) / C2 * H * wStride * C2)) (scalarCells src C H W C2 wStride)) := by
  obtain ⟨n, hn⟩ : ∃ n, n = (C + C2 - 1) / C2 * H * wStride * C2 := ⟨_, rfl⟩
  have length : (List.replicate n 0 ++ dst.drop n : List UInt16).length = dst.length := by
    rw [List.length_append, List.length_replicate, List.length_drop]
    omega
  rw [← hn] at space ⊢
  simp only [packBlocks, intSum_some fits.blocks, Option.bind_eq_bind, Option.bind_some, ← hn, cleared, if_pos space,
    length]
  by_cases wide : neon ∧ C2 = 8 ∧ C % 8 = 0
  · obtain ⟨board, rfl, whole⟩ := wide
    have count : (C + 8 - 1) / 8 * 8 = C := by omega
    have ran := @packNeon_eq src dst.length ((C + 8 - 1) / 8) H W wStride ⟨by omega, ints.2⟩ (fits.wide board rfl whole)
      le (by rw [count]; exact room) (by omega)
    rw [if_pos ⟨board, rfl, whole⟩, ran, Option.bind_some]
    refine congrArg some (store_congr (scalarCells_agree positive le) ?_)
    intro w
    rw [mem_neonCells, mem_scalarCells, count]
  · have ran := @packScalar_eq src dst.length C ((C + C2 - 1) / C2) H W C2 wStride ints positive le
      (fun c hc => blocks_enough positive hc) room (by omega)
    rw [if_neg wide, ran]
    rfl

/-- A build that packs has no sum that is too large. -/
theorem packBlocks_fits {neon : Bool} {dst : List UInt16} (positive : 0 < C ∧ 0 < H ∧ 0 < W)
    (done : (packBlocks neon src dst C H W C2 wStride).isSome) : PackFits neon C W C2 := by
  simp only [packBlocks, Option.bind_eq_bind, Option.isSome_bind, Option.any_eq_true] at done
  obtain ⟨sum, blocks, dst, -, stores, ran, -⟩ := done
  refine ⟨intSum_isSome.1 (Option.isSome_of_eq_some blocks), ?_⟩
  rintro board rfl whole
  rw [if_pos ⟨board, rfl, whole⟩] at ran
  have sumIs := intSum_eq blocks
  have row := forRange_isSome (Option.isSome_of_eq_some ran) (show 0 < (sum - 1) / 8 by omega)
  have last := wideInt_isSome (by decide) (forRange_isSome row positive.2.1)
  rw [Nat.sub_zero, Nat.zero_add] at last
  exact last

/-- **What the packed tensor holds**: the elements of the tensor, and zeros. -/
theorem packed_at {dst : List UInt16} {n : Nat} (hn : n = C1 * H * wStride * C2) (positive : 0 < C2) (le : W ≤ wStride)
    {c y x : Nat} (hc : c < C1 * C2) (hy : y < H) (hx : x < wStride) :
    (store (List.replicate n 0 ++ dst.drop n) (scalarCells src C H W C2 wStride))[
        ((c / C2 * H + y) * wStride + x) * C2 + c % C2]? =
      some (if c < C ∧ x < W then src.getD ((c * H + y) * W + x) 0 else 0) := by
  have below := @packed_lt src C1 H W C2 wStride c y x (Nat.div_lt_of_lt_mul (by rwa [Nat.mul_comm])) hy hx positive
  rw [← hn] at below
  split
  · rename_i inside
    apply store_getElem? (scalarCells_agree positive le)
    · exact mem_scalarCells.2 ⟨c, inside.1, y, hy, x, inside.2, rfl⟩
    · rw [List.length_append, List.length_replicate]
      exact Nat.lt_of_lt_of_le below (Nat.le_add_right _ _)
  · rename_i outside
    rw [store_other]
    · rw [List.getElem?_append_left (by rw [List.length_replicate]; exact below)]
      exact List.getElem?_replicate_of_lt below
    · intro w mem same
      obtain ⟨c', hc', y', hy', x', hx', rfl⟩ := mem_scalarCells.1 mem
      obtain ⟨rfl, -, rfl⟩ := packed_inj positive hy' hy (Nat.lt_of_lt_of_le hx' le) hx
        (same : _ = (packed src H W C2 wStride c y x).1)
      exact outside ⟨hc', hx'⟩

/-- Arguments that pass the checks. -/
theorem nchwF16ToNc1hwc2_eq (neon : Bool) (dst : List UInt16) (positive : 0 < C ∧ 0 < H ∧ 0 < W ∧ 0 < C2)
    (le : W ≤ wStride) :
    nchwF16ToNc1hwc2 neon (some src) (some dst) C H W C2 wStride =
      (packBlocks neon src dst C H W C2 wStride).map some := by
  have given : ¬((C : Int) ≤ 0 ∨ (H : Int) ≤ 0 ∨ (W : Int) ≤ 0 ∨ (C2 : Int) ≤ 0) := by omega
  have stride : ¬(wStride : Int) ≤ 0 := by omega
  have wide : ¬(wStride : Int) < W := by omega
  simp only [nchwF16ToNc1hwc2, if_neg given, if_neg stride, if_neg wide, Int.toNat_natCast]

end Pack

/-! ## From blocks -/

/-- `nc1hwc2_to_nchw_scalar`. -/
def nc1hwc2ToNchwScalar (src : List UInt16) (size C H W : Nat) : Option (List (Nat × Int32)) :=
  forInt 0 C 1 fun c =>
    let c1 := c >>> 3
    let c2 := c &&& 7
    forInt 0 H 1 fun y =>
      forInt 0 W 1 fun x =>
        src[((c1 * H + y) * W + x) * 8 + c2]?.bind fun h =>
          put size ((c * H + y) * W + x) (Int32.ofInt (lrintHalf h 1))

/-- A row of a block in the NEON branch of `nc1hwc2_to_nchw`. -/
def nc1hwc2RowNeon (src : List UInt16) (size H W c1 y : Nat) : Option (List (Nat × Int32)) :=
  let sp := (c1 * H + y) * W * 8
  let dp := fun k => ((c1 * 8 + k) * H + y) * W
  let cvt := fun h => Int32.ofInt (vcvtnS32 (f16ToF32 h))
  wideInt 0 W 8
    -- every turn moves the source pointer by 64
    (fun x => ((List.range 8).mapM fun k => ld1 8 src (sp + x * 8 + k * 8)).bind fun r =>
      forInt 0 8 1 fun k =>
        let h := (transpose8x8U16 r).getD k []
        (st1 size (dp k + x) ((h.take 4).map cvt)).bind fun low =>
          (st1 size (dp k + x + 4) ((h.drop 4).map cvt)).map (low ++ ·))
    (fun xt => forInt xt W 1 fun x =>
      forInt 0 8 1 fun k => src[sp + xt * 8 + (x - xt) * 8 + k]?.bind fun h =>
        put size (dp k + x) (Int32.ofInt (lrintHalf h 1)))

def nc1hwc2ToNchwNeon (src : List UInt16) (size C H W : Nat) : Option (List (Nat × Int32)) :=
  let C1 := C >>> 3
  forInt 0 C1 1 fun c1 => forInt 0 H 1 fun y => nc1hwc2RowNeon src size H W c1 y

/-- **`nc1hwc2_to_nchw`**, with or without `MLVC_PX_NEON`; `none` is a fault. -/
def nc1hwc2ToNchw (neon : Bool) (src : List UInt16) (dst : List Int32) (C H W : Nat) : Option (List Int32) :=
  (if neon then nc1hwc2ToNchwNeon src dst.length C H W else nc1hwc2ToNchwScalar src dst.length C H W).map (store dst)

section Unpack
variable {src : List UInt16} {size C H W : Nat}

/-- What is stored for an element of the tensor. -/
def unpacked (src : List UInt16) (H W c y x : Nat) : Nat × Int32 :=
  ((c * H + y) * W + x, Int32.ofInt (lrintHalf (src.getD (((c / 8 * H + y) * W + x) * 8 + c % 8) 0) 1))

theorem unpacked_block {c1 k y x : Nat} (hk : k < 8) :
    unpacked src H W (c1 * 8 + k) y x =
      (((c1 * 8 + k) * H + y) * W + x,
        Int32.ofInt (lrintHalf (src.getD ((c1 * H + y) * W * 8 + x * 8 + k) 0) 1)) := by
  have block : (c1 * 8 + k) / 8 = c1 := by omega
  have lane : (c1 * 8 + k) % 8 = k := by omega
  rw [unpacked, block, lane, Nat.add_mul ((c1 * H + y) * W)]

/-- The stores of both builds. -/
def unpackedCells (src : List UInt16) (C H W : Nat) : List (Nat × Int32) :=
  (List.range C).flatMap fun c => (List.range H).flatMap fun y => (List.range W).flatMap fun x =>
    [unpacked src H W c y x]

theorem mem_unpackedCells {w : Nat × Int32} :
    w ∈ unpackedCells src C H W ↔ ∃ c < C, ∃ y < H, ∃ x < W, w = unpacked src H W c y x := by
  simp only [unpackedCells, List.mem_flatMap, List.mem_range, List.mem_singleton]

theorem unpackedCells_agree : Agree (unpackedCells src C H W) := by
  intro w mem w' mem' same
  obtain ⟨c, -, y, hy, x, hx, rfl⟩ := mem_unpackedCells.1 mem
  obtain ⟨c', -, y', hy', x', hx', rfl⟩ := mem_unpackedCells.1 mem'
  obtain ⟨rows, rfl⟩ := row_unique hx hx' same
  obtain ⟨rfl, rfl⟩ := row_unique hy hy' rows
  rfl

theorem nc1hwc2ToNchwScalar_eq (ints : C < 2 ^ 31 ∧ H < 2 ^ 31 ∧ W < 2 ^ 31) (whole : C % 8 = 0)
    (room : C / 8 * H * W * 8 ≤ src.length) (space : C * H * W ≤ size) :
    nc1hwc2ToNchwScalar src size C H W = some (unpackedCells src C H W) := by
  apply forRange_eq ints.1
  intro c hc
  apply forRange_eq ints.2.1
  intro y hy
  apply forRange_eq ints.2.2
  intro x hx
  have block : c >>> 3 = c / 8 := Nat.shiftRight_eq_div_pow c 3
  have lane : c &&& 7 = c % 8 := Nat.and_two_pow_sub_one_eq_mod c 3
  have inside := row_lt (row_lt (row_lt (show c / 8 < C / 8 by omega) hy) hx) (show c % 8 < 8 by omega)
  have place := row_lt (row_lt hc hy) hx
  rw [block, lane, getElem?_getD (Nat.lt_of_lt_of_le inside room) 0, Option.bind_some, put_eq (by omega), unpacked]

section Block
variable {C1 c1 y : Nat}

/-- A register of eight columns, in two halves. -/
theorem st1_halves {place : Nat} (f : Nat → UInt16) (cvt : UInt16 → Int32) (inside : place + 8 ≤ size) :
    ((st1 size place ((((List.range 8).map f).take 4).map cvt)).bind fun low =>
      (st1 size (place + 4) ((((List.range 8).map f).drop 4).map cvt)).map (low ++ ·)) =
      some ((List.range 8).map fun j => (place + j, cvt (f j))) := by
  have low : (((List.range 8).map f).take 4).map cvt = (List.range 4).map fun j => cvt (f j) := rfl
  have high : (((List.range 8).map f).drop 4).map cvt = (List.range 4).map fun j => cvt (f (4 + j)) := rfl
  rw [low, high, st1_eq (by omega), st1_eq (by omega), Option.bind_some, Option.map_some]
  rfl

/-- Eight columns of a block. -/
theorem unpackWide_eq (finite : allFinite src) (hc : c1 < C1) (hy : y < H) (room : C1 * H * W * 8 ≤ src.length)
    (space : C1 * 8 * H * W ≤ size) {x : Nat} (hx : x + 8 ≤ W) :
    ∃ l, (((List.range 8).mapM fun k => ld1 8 src ((c1 * H + y) * W * 8 + x * 8 + k * 8)).bind fun r =>
        forInt 0 8 1 fun k =>
          (st1 size (((c1 * 8 + k) * H + y) * W + x) ((((transpose8x8U16 r).getD k []).take 4).map
            fun h => Int32.ofInt (vcvtnS32 (f16ToF32 h)))).bind fun low =>
            (st1 size (((c1 * 8 + k) * H + y) * W + x + 4) ((((transpose8x8U16 r).getD k []).drop 4).map
              fun h => Int32.ofInt (vcvtnS32 (f16ToF32 h)))).map (low ++ ·)) = some l ∧
      Alike l ((visits x (x + 8) 1).flatMap fun x => (List.range 8).map fun k => unpacked src H W (c1 * 8 + k) y x) := by
  have last := row_lt (row_lt hc hy) (show x + 7 < W by omega)
  have end8 := Nat.mul_le_mul_right 8 (Nat.succ_le_of_lt last)
  rw [Nat.succ_mul, Nat.add_mul] at end8
  have rows : ((List.range 8).mapM fun k => ld1 8 src ((c1 * H + y) * W * 8 + x * 8 + k * 8)) =
      some ((List.range 8).map fun k => (List.range 8).map fun j =>
        src.getD ((c1 * H + y) * W * 8 + x * 8 + k * 8 + j) 0) := by
    apply mapM_some
    intro k mem
    have hk := List.mem_range.1 mem
    exact ld1_eq (by omega) 0
  rw [rows, Option.bind_some,
    transpose8x8U16_eq fun k j => src.getD ((c1 * H + y) * W * 8 + x * 8 + k * 8 + j) 0]
  refine ⟨(List.range 8).flatMap fun k => (List.range 8).map fun j => unpacked src H W (c1 * 8 + k) y (x + j),
    forRange_eq (by decide) (fun k hk => ?_), ?_⟩
  · have place := row_lt (row_lt (show c1 * 8 + k < C1 * 8 by omega) hy) (show x + 7 < W by omega)
    rw [getD_map_range hk, st1_halves _ _ (by omega)]
    congr 1
    apply List.map_congr_left
    intro j mem
    have hj := List.mem_range.1 mem
    have value : src.getD ((c1 * H + y) * W * 8 + x * 8 + j * 8 + k) 0 ∈ src :=
      getD_mem (by omega) 0
    rw [unpacked_block hk, vcvtnS32_eq (List.all_eq_true.1 finite _ value), Nat.add_assoc _ (x * 8), ← Nat.add_mul,
      Nat.add_assoc _ x]
  · intro w
    simp only [visits_add, List.flatMap_map, List.mem_flatMap, List.mem_map, List.mem_range]
    constructor
    · rintro ⟨k, hk, j, hj, rfl⟩
      exact ⟨j, hj, k, hk, rfl⟩
    · rintro ⟨j, hj, k, hk, rfl⟩
      exact ⟨k, hk, j, hj, rfl⟩

/-- One column of a block. -/
theorem unpackColumn_eq (hc : c1 < C1) (hy : y < H) (room : C1 * H * W * 8 ≤ src.length) (space : C1 * 8 * H * W ≤ size)
    {x xt : Nat} (past : xt ≤ x) (hx : x < W) :
    (forInt 0 8 1 fun k => src[(c1 * H + y) * W * 8 + xt * 8 + (x - xt) * 8 + k]?.bind fun h =>
        put size (((c1 * 8 + k) * H + y) * W + x) (Int32.ofInt (lrintHalf h 1))) =
      some ((List.range 8).map fun k => unpacked src H W (c1 * 8 + k) y x) := by
  rw [List.map_eq_flatMap]
  apply forRange_eq (by decide)
  intro k hk
  have last := Nat.mul_le_mul_right 8 (Nat.succ_le_of_lt (row_lt (row_lt hc hy) hx))
  rw [Nat.succ_mul, Nat.add_mul] at last
  have place := row_lt (row_lt (show c1 * 8 + k < C1 * 8 by omega) hy) hx
  have column : (c1 * H + y) * W * 8 + xt * 8 + (x - xt) * 8 + k = (c1 * H + y) * W * 8 + x * 8 + k := by omega
  rw [column, getElem?_getD (by omega) 0, Option.bind_some, put_eq (by omega), unpacked_block hk]

/-- A row of a block. -/
theorem unpackRow_eq (fits : WideFits W) (finite : allFinite src) (wide : W < 2 ^ 31) (hc : c1 < C1) (hy : y < H)
    (room : C1 * H * W * 8 ≤ src.length) (space : C1 * 8 * H * W ≤ size) :
    ∃ l, nc1hwc2RowNeon src size H W c1 y = some l ∧ Alike l ((List.range W).flatMap fun x =>
      (List.range 8).map fun k => unpacked src H W (c1 * 8 + k) y x) := by
  rw [← visits_zero W]
  apply wideInt_rel appends_alike (by decide) (Nat.zero_le W)
  · intro k hx
    exact unpackWide_eq finite hc hy room space hx
  · intro k _ _
    apply forInt_rel appends_alike Nat.one_pos
    · intro x visited
      obtain ⟨hx, k, past⟩ := (mem_visits Nat.one_pos).mp visited
      exact ⟨_, unpackColumn_eq hc hy room space (by omega) hx, fun _ => Iff.rfl⟩
    · intro x visited
      have below := ((mem_visits Nat.one_pos).mp visited).1
      omega
  · rw [Nat.sub_zero, Nat.zero_add]
    exact fits

end Block

/-- The stores of the NEON branch, in its order. -/
def neonUnpackedCells (src : List UInt16) (C1 H W : Nat) : List (Nat × Int32) :=
  (List.range C1).flatMap fun c1 => (List.range H).flatMap fun y => (List.range W).flatMap fun x =>
    (List.range 8).map fun k => unpacked src H W (c1 * 8 + k) y x

theorem neonUnpackedCells_alike (whole : C % 8 = 0) :
    Alike (neonUnpackedCells src (C / 8) H W) (unpackedCells src C H W) := by
  intro w
  rw [mem_unpackedCells]
  simp only [neonUnpackedCells, List.mem_flatMap, List.mem_range, List.mem_map]
  constructor
  · rintro ⟨c1, hc, y, hy, x, hx, k, hk, rfl⟩
    exact ⟨c1 * 8 + k, by omega, y, hy, x, hx, rfl⟩
  · rintro ⟨c, hc, y, hy, x, hx, rfl⟩
    refine ⟨c / 8, by omega, y, hy, x, hx, c % 8, by omega, ?_⟩
    rw [Nat.div_add_mod']

theorem nc1hwc2ToNchwNeon_eq (ints : C < 2 ^ 31 ∧ H < 2 ^ 31 ∧ W < 2 ^ 31) (fits : WideFits W) (whole : C % 8 = 0)
    (finite : allFinite src) (room : C / 8 * H * W * 8 ≤ src.length) (space : C * H * W ≤ size) :
    ∃ l, nc1hwc2ToNchwNeon src size C H W = some l ∧ Alike l (unpackedCells src C H W) := by
  have blocks : C >>> 3 = C / 8 := Nat.shiftRight_eq_div_pow C 3
  have count : C / 8 * 8 = C := by omega
  rw [← count] at space
  rw [nc1hwc2ToNchwNeon, blocks]
  have rows : ∃ l, (forInt 0 (C / 8) 1 fun c1 => forInt 0 H 1 fun y => nc1hwc2RowNeon src size H W c1 y) = some l ∧
      Alike l (neonUnpackedCells src (C / 8) H W) := by
    apply forRange_rel appends_alike (by omega)
    intro c1 hc
    apply forRange_rel appends_alike ints.2.1
    intro y hy
    exact unpackRow_eq fits finite ints.2.2 hc hy room space
  obtain ⟨l, ran, alike⟩ := rows
  exact ⟨l, ran, fun w => (alike w).trans (neonUnpackedCells_alike whole w)⟩

/-- **The unpacker, on both builds.** -/
theorem nc1hwc2ToNchw_eq {neon : Bool} {dst : List Int32} (ints : C < 2 ^ 31 ∧ H < 2 ^ 31 ∧ W < 2 ^ 31)
    (fits : neon → WideFits W) (whole : C % 8 = 0) (finite : allFinite src) (room : C / 8 * H * W * 8 ≤ src.length)
    (space : C * H * W ≤ dst.length) :
    nc1hwc2ToNchw neon src dst C H W = some (store dst (unpackedCells src C H W)) := by
  rw [nc1hwc2ToNchw]
  cases neon with
  | false =>
    rw [if_neg Bool.false_ne_true, nc1hwc2ToNchwScalar_eq ints whole room space]
    rfl
  | true =>
    obtain ⟨l, ran, alike⟩ := nc1hwc2ToNchwNeon_eq ints (fits rfl) whole finite room space
    rw [if_pos rfl, ran, Option.map_some, store_congr unpackedCells_agree alike]

/-- A board that unpacks has no sum that is too large. -/
theorem nc1hwc2ToNchw_fits {dst : List Int32} (positive : 8 ≤ C ∧ 0 < H)
    (done : (nc1hwc2ToNchw true src dst C H W).isSome) : WideFits W := by
  have blocks : C >>> 3 = C / 8 := Nat.shiftRight_eq_div_pow C 3
  rw [nc1hwc2ToNchw, if_pos rfl, Option.isSome_map, nc1hwc2ToNchwNeon, blocks] at done
  have row := forRange_isSome done (show 0 < C / 8 by omega)
  have last := wideInt_isSome (by decide) (forRange_isSome row positive.2)
  rw [Nat.sub_zero, Nat.zero_add] at last
  exact last

end Unpack

end Rkvc.Mlvc.Pixel
