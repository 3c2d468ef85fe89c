import Rkvc.Sr.Upscale

/-!
# What the upscaler makes of a picture

Whatever the RKNN library answers, a runtime that has been opened keeps to the sizes that
the node computes with (`rknnRuntime_sound`). Inside of them the kernels read and write
their arrays only, and each byte of the result has a formula (`SrGeometry.sample`).
-/

namespace Rkvc.Sr
set_option autoImplicit false
open Lib

/-! ## What an opened node can rely on -/

/-- The sizes of a model. -/
structure SrGeometry.Contract (g : SrGeometry) : Prop where
  coreW_pos : 0 < g.coreW
  coreH_pos : 0 < g.coreH
  coreW_le : g.coreW ≤ kMaxDim / kPhaseOutFactor
  coreH_le : g.coreH ≤ kMaxDim / kPhaseOutFactor
  inW : g.inW = g.coreW * 2
  inH : g.inH = g.coreH * 2
  outW : g.outW = g.coreW * 6
  outH : g.outH = g.coreH * 6

/-- The floats of a residual. -/
def SrGeometry.residualSize (g : SrGeometry) : Nat := kPhaseOutCh * g.coreW * g.coreH

/-- A run fills the residual, or fails hard. -/
structure SrOpened.Sound (o : SrOpened) : Prop where
  contract : o.geom.Contract
  fills : ∀ n packed residual, o.run n packed o.geom.residualSize = .ok residual →
    residual.length = o.geom.residualSize
  hard : ∀ n packed size e, o.run n packed size = .error e → e.status.isHard = true

theorem rknnRun_spec {ctx : RknnContext} {inAttr outAttr : RknnTensorAttr} {n size : Nat} {packed : List UInt8} :
    (∀ residual, rknnRun ctx inAttr outAttr n packed size = .ok residual →
      size = outAttr.nElems ∧ residual.length = outAttr.nElems) ∧
      ∀ e, rknnRun ctx inAttr outAttr n packed size = .error e → e.status.isHard = true := by
  unfold rknnRun
  dsimp only
  split
  · exact ⟨fun _ h => absurd h Result.reject_ne_ok, fun e h => by cases h; rfl⟩
  rename_i buffers
  split
  · exact ⟨fun _ h => absurd h Result.reject_ne_ok, fun e h => by cases h; rfl⟩
  split
  · exact ⟨fun _ h => absurd h Result.reject_ne_ok, fun e h => by cases h; rfl⟩
  split
  · exact ⟨fun _ h => absurd h Result.reject_ne_ok, fun e h => by cases h; rfl⟩
  split
  · exact ⟨fun _ h => absurd h Result.reject_ne_ok, fun e h => by cases h; rfl⟩
  · refine ⟨fun residual h => ?_, fun e h => by cases h⟩
    cases h
    rw [List.length_take]
    omega

/-- **What the RKNN runtime opens is sound**, whatever the library answers. -/
theorem rknnRuntime_sound {init : List UInt8 → Option RknnContext} {model : List UInt8} {o : SrOpened}
    (h : rknnRuntime init model = .ok o) : o.Sound := by
  unfold rknnRuntime at h
  dsimp only at h
  split at h
  · exact absurd h Result.reject_ne_ok
  split at h
  · exact absurd h Result.reject_ne_ok
  split at h
  · exact absurd h Result.reject_ne_ok
  split at h
  · rename_i ctx _ _ inAttr outAttr _ _
    split at h
    · rename_i inC inH inW outC outH outW inRead _
      split at h
      · exact absurd h Result.reject_ne_ok
      · rename_i agreed
        simp only [not_or, not_lt, Decidable.not_not] at agreed
        obtain ⟨-, -, -, -, sameW, sameH, wide, high, -⟩ := agreed
        subst sameW sameH
        have positive : 0 < inW ∧ 0 < inH := by
          unfold chw at inRead
          split at inRead
          · cases inRead
          · have kept := (Option.filter_eq_some_iff.mp inRead).2
            simp only [decide_eq_true_eq] at kept
            exact ⟨kept.2.2, kept.2.1⟩
        have small {n m : Nat} (le : n ≤ kMaxDim / kPhaseOutFactor) (times : m ≤ 6) : u32 (n * m) = n * m := by
          have product := Nat.mul_le_mul le times
          apply u32_of_lt
          simp only [kMaxDim, kPhaseOutFactor] at product
          omega
        cases h
        refine ⟨⟨positive.1, positive.2, wide, high, ?_, ?_, ?_, ?_⟩, fun n packed residual ran => ?_,
          fun n packed size e failed => rknnRun_spec.2 e failed⟩
        · exact small (m := 2) wide (by decide)
        · exact small (m := 2) high (by decide)
        · exact small (m := 6) wide (by decide)
        · exact small (m := 6) high (by decide)
        · obtain ⟨same, filled⟩ := rknnRun_spec.1 residual ran
          exact filled.trans same.symm
    · exact absurd h Result.reject_ne_ok
  · exact absurd h Result.reject_ne_ok

/-! ## What the kernels make of a picture -/

/-- A picture in NV12: its bytes, and its strides. -/
structure SrPicture where
  bytes : List UInt8
  stride : Nat
  vstride : Nat

namespace SrPicture

def luma (p : SrPicture) (y x : Nat) : UInt8 := p.bytes.getD (y * p.stride + x) 0

/-- The chroma samples of plane `k`. -/
def chroma (p : SrPicture) (k y x : Nat) : UInt8 :=
  p.bytes.getD (p.stride * p.vstride + y * p.stride + (2 * x + k)) 0

/-- The picture with its chroma expanded, as the model knows it from its calibration set. -/
def image (p : SrPicture) (h w : Nat) : Tensor UInt8 :=
  runtimeImage (lumaPlane p.bytes p.stride h w) (chromaPlane (p.bytes.drop (p.stride * p.vstride)) p.stride h w) h w

/-- It has `h` rows of `w` samples. -/
structure Holds (p : SrPicture) (h w : Nat) : Prop where
  wide : w ≤ p.stride
  high : h ≤ p.vstride
  long : p.stride * p.vstride * 3 / 2 ≤ p.bytes.length

end SrPicture

namespace SrGeometry

/-- What the model is shown: at core position `(cy, cx)`, the twelve samples of its pixels. -/
def phases (g : SrGeometry) (p : SrPicture) : List UInt8 :=
  (List.range (kPhaseInCh * g.coreW * g.coreH)).map fun i =>
    (p.image g.inH g.inW).get
      [i / 12 / g.coreW * 2 + i % 12 % 4 / 2, i / 12 % g.coreW * 2 + i % 12 % 2, i % 12 / 4]

/-- A byte of the picture that comes out: a sample of the scaled picture with its residual on it. -/
def sample (g : SrGeometry) (p : SrPicture) (residual : List Rat) (i : Nat) : UInt8 :=
  if i < g.outW * g.outH then
    let y := i / g.outW
    let x := i % g.outW
    added (phaseTap residual g.coreW g.coreH 0 y x) (resampled p.luma g.inW g.inH g.outW g.outH y x)
  else
    let y := (i - g.outW * g.outH) / g.outW
    let x := (i - g.outW * g.outH) % g.outW
    added (meanTap residual g.coreW g.coreH (x % 2 + 1) y (x / 2))
      (resampled (p.chroma (x % 2)) (g.inW / 2) (g.inH / 2) (g.outW / 2) (g.outH / 2) y (x / 2))

/-- The bytes of the picture that comes out. -/
def outSize (g : SrGeometry) : Nat := g.outW * g.outH * 3 / 2

def picture (g : SrGeometry) (p : SrPicture) (residual : List Rat) : List UInt8 :=
  (List.range g.outSize).map (g.sample p residual)

end SrGeometry

section Kernels

variable {g : SrGeometry} {p : SrPicture}

/-- The rows of both planes lie inside of what is read. -/
theorem SrPicture.Holds.rows {h w : Nat} (holds : p.Holds h w) :
    RowsIn p.bytes p.stride h w ∧ RowsIn (p.bytes.drop (p.stride * p.vstride)) p.stride (h / 2) w := by
  have wide := holds.wide
  have high := holds.high
  have long := holds.long
  constructor
  · intro r hr
    have rows : (r + 1) * p.stride ≤ p.vstride * p.stride := Nat.mul_le_mul_right _ (by omega)
    rw [Nat.succ_mul, Nat.mul_comm p.vstride] at rows
    omega
  · intro r hr
    have rows : (r + 1) * p.stride * 2 ≤ p.vstride * p.stride := by
      calc (r + 1) * p.stride * 2 = ((r + 1) * 2) * p.stride := by ring
        _ ≤ p.vstride * p.stride := Nat.mul_le_mul_right _ (by omega)
    rw [Nat.succ_mul, Nat.mul_comm p.vstride] at rows
    rw [List.length_drop]
    omega

/-- **The packer shows the model the picture.** -/
theorem phasePack_phases (c : g.Contract) (holds : p.Holds g.inH g.inW) {packed : List UInt8}
    (size : packed.length = kPhaseInCh * g.coreW * g.coreH) :
    phasePackNv12 (some p.bytes) p.stride (some (p.bytes.drop (p.stride * p.vstride))) p.stride g.inW g.inH
      (some packed) = some (.ok, some (g.phases p)) := by
  have wide := holds.wide
  obtain ⟨yRows, uvRows⟩ := holds.rows
  have coreW_pos := c.coreW_pos
  have coreH_pos := c.coreH_pos
  have room : 12 * g.coreW * g.coreH < 2 ^ 64 := by
    have product := Nat.mul_le_mul c.coreW_le c.coreH_le
    simp only [kMaxDim, kPhaseOutFactor] at product
    rw [Nat.mul_assoc]
    omega
  have halfW : g.inW / 2 = g.coreW := by rw [c.inW, Nat.mul_div_cancel _ (by decide)]
  have halfH : g.inH / 2 = g.coreH := by rw [c.inH, Nat.mul_div_cancel _ (by decide)]
  have evenW : g.inW % 2 = 0 := by rw [c.inW, Nat.mul_mod_left]
  have evenH : g.inH % 2 = 0 := by rw [c.inH, Nat.mul_mod_left]
  have guards : ¬(g.inW = 0 ∨ g.inH = 0 ∨ p.stride < g.inW ∨ p.stride < g.inW ∨ g.inW % kPhaseInFactor ≠ 0 ∨
      g.inH % kPhaseInFactor ≠ 0) := by
    rw [kPhaseInFactor, evenW, evenH, c.inW, c.inH]
    rw [c.inW] at wide
    omega
  have fits : ¬packed.length < kPhaseInCh * (g.inW / kPhaseInFactor) * (g.inH / kPhaseInFactor) % 2 ^ 64 := by
    rw [kPhaseInFactor, halfW, halfH, size, kPhaseInCh, Nat.mod_eq_of_lt room]
    exact lt_irrefl _
  have loops := packStores_eq evenW evenH yRows uvRows
  rw [halfW, halfH] at loops
  obtain ⟨stores, ran⟩ : ∃ stores,
      packStores p.bytes p.stride (p.bytes.drop (p.stride * p.vstride)) p.stride g.inW g.inH = some stores := ⟨_, loops⟩
  have named := Option.some.inj (loops.symm.trans ran)
  have places : (stores.map Prod.fst).Perm (List.range (12 * g.coreW * g.coreH)) := by
    rw [← named, List.map_map]
    exact packIndex_perm room
  have inside : stores.all (·.1 < packed.length) := by
    rw [List.all_eq_true]
    intro w mem
    have place := List.mem_range.1 (places.mem_iff.1 (List.mem_map_of_mem mem))
    rw [size]
    exact decide_eq_true place
  have made : store packed stores = g.phases p := by
    apply List.ext_getElem?
    intro i
    by_cases below : i < 12 * g.coreW * g.coreH
    · rw [SrGeometry.phases, kPhaseInCh, List.getElem?_map, List.getElem?_range below, Option.map_some]
      apply store_getElem? (agree_of_nodup (places.nodup_iff.2 List.nodup_range)) _ (by rw [size]; exact below)
      have cell : i / 12 < g.coreW * g.coreH := by
        apply Nat.div_lt_of_lt_mul
        rwa [← Nat.mul_assoc]
      have row : i / 12 / g.coreW < g.coreH := Nat.div_lt_of_lt_mul cell
      have col : i / 12 % g.coreW < g.coreW := Nat.mod_lt _ coreW_pos
      have back := Nat.div_add_mod' (i / 12) g.coreW
      rw [← named]
      refine List.mem_map.2 ⟨(i % 12 / 4, i % 12 % 4 / 2, i % 12 % 2, i / 12 / g.coreW, i / 12 % g.coreW), ?_, ?_⟩
      · rw [mem_packLoops]
        omega
      · simp only [packIndex, kPhaseInCh, back]
        have channel : i / 12 * 12 + (i % 12 / 4 * 4 + i % 12 % 4 / 2 * 2 + i % 12 % 2) = i := by omega
        rw [Nat.mod_eq_of_lt (by omega), channel]
        rfl
    · have past : 12 * g.coreW * g.coreH ≤ i := Nat.le_of_not_lt below
      rw [List.getElem?_eq_none (by rwa [store_length, size]),
        List.getElem?_eq_none (by rwa [SrGeometry.phases, List.length_map, List.length_range])]
  rw [phasePackNv12, if_neg guards, if_neg fits, ran, Option.bind_eq_bind, Option.bind_some, if_pos inside, made]

/-- The sizes that the scaler is given. -/
def SrGeometry.Contract.scale (c : g.Contract) (holds : p.Holds g.inH g.inW) : Geometry where
  sw := g.inW
  sh := g.inH
  sStride := p.stride
  sVstride := p.vstride
  dw := g.outW
  dh := g.outH
  sw_even := by rw [c.inW, Nat.mul_mod_left]
  sh_even := by rw [c.inH, Nat.mul_mod_left]
  dw_even := by rw [c.outW]; omega
  dh_even := by rw [c.outH]; omega
  sw_two := by have := c.coreW_pos; rw [c.inW]; omega
  sh_two := by have := c.coreH_pos; rw [c.inH]; omega
  dw_two := by have := c.coreW_pos; rw [c.outW]; omega
  dh_two := by have := c.coreH_pos; rw [c.outH]; omega
  wide := holds.wide
  high := holds.high

/-- An output axis that is no wider than `kMaxDim` has its taps in an `int`. -/
theorem axisFits_small {s d : Nat} (small : s < 2 ^ 30) (positive : 0 < d) : AxisFits s d := by
  have dPos : (0 : Rat) < d := Nat.cast_pos.2 positive
  have last : ((d - 1 : Nat) : Rat) + 1 / 2 ≤ d := by
    have : ((d - 1 : Nat) : Rat) = d - 1 := by rw [Nat.cast_sub positive, Nat.cast_one]
    rw [this]
    linarith
  have below : position s d (d - 1) < 2 ^ 30 := by
    have sBelow : (s : Rat) < 2 ^ 30 := by exact_mod_cast small
    have ratio : (0 : Rat) ≤ (s : Rat) / d := by positivity
    calc position s d (d - 1) < (((d - 1 : Nat) : Rat) + 1 / 2) * ((s : Rat) / d) := by
          rw [position]
          linarith
      _ ≤ d * ((s : Rat) / d) := mul_le_mul_of_nonneg_right last ratio
      _ = s := by field_simp
      _ < 2 ^ 30 := sBelow
  have floor : ⌊position s d (d - 1)⌋ < 2 ^ 30 := Int.floor_lt.2 (by exact_mod_cast below)
  show ⌊position s d (d - 1)⌋ + 2 < 2 ^ 31
  omega

theorem SrGeometry.Contract.fits (c : g.Contract) (holds : p.Holds g.inH g.inW) : (c.scale holds).Fits := by
  have wide := c.coreW_le
  have high := c.coreH_le
  have coreW_pos := c.coreW_pos
  have coreH_pos := c.coreH_pos
  simp only [kMaxDim, kPhaseOutFactor] at wide high
  constructor
  · apply axisFits_small
    · show g.inW < 2 ^ 30
      rw [c.inW]
      omega
    · show 0 < g.outW
      rw [c.outW]
      omega
  · apply axisFits_small
    · show g.inH < 2 ^ 30
      rw [c.inH]
      omega
    · show 0 < g.outH
      rw [c.outH]
      omega

/-- The output has its samples and no others. -/
theorem SrGeometry.Contract.outSize_eq (c : g.Contract) :
    g.outSize = g.coreW * 6 * (g.coreH * 6) + g.coreW * 6 * (g.coreH * 3) := by
  rw [SrGeometry.outSize, c.outW, c.outH, show g.coreW * 6 * (g.coreH * 6) * 3 =
    (g.coreW * 6 * (g.coreH * 6) + g.coreW * 6 * (g.coreH * 3)) * 2 by ring, Nat.mul_div_cancel _ (by decide)]

theorem SrGeometry.Contract.scale_size (c : g.Contract) (holds : p.Holds g.inH g.inW) :
    (c.scale holds).size = g.outSize := by
  rw [c.outSize_eq, Geometry.size]
  show g.outW * g.outH + g.outW * (g.outH / 2) = _
  rw [c.outW, c.outH, show g.coreH * 6 / 2 = g.coreH * 3 by omega]

/-- **The scaler fills the output** from inside of what is read. -/
theorem bicubic_scaled (c : g.Contract) (holds : p.Holds g.inH g.inW) {dst : List UInt8}
    (size : dst.length = g.outSize) :
    bicubicNv12 (some fun i => p.bytes[i]?) g.inW g.inH p.stride p.vstride (some dst) g.outW g.outH =
      some (.ok, some (store dst ((c.scale holds).stores p.bytes))) := by
  obtain ⟨yRows, uvRows⟩ := holds.rows
  have luma : Reads (fun i => p.bytes[i]?) g.inW g.inH p.stride 1 ((c.scale holds).luma p.bytes) := by
    intro y hy x hx
    rw [Nat.mul_one]
    exact yRows.read hy hx
  have chroma : ∀ k < 2, Reads (fun i => p.bytes[p.stride * p.vstride + k + i]?) (g.inW / 2) (g.inH / 2) p.stride 2
      ((c.scale holds).chroma p.bytes k) := by
    intro k hk y hy x hx
    have place : p.stride * p.vstride + k + (y * p.stride + x * 2) =
        p.stride * p.vstride + (y * p.stride + (2 * x + k)) := by ring
    have read := uvRows.read hy (show 2 * x + k < g.inW by omega)
    rw [List.getElem?_drop, List.getD_eq_getElem?_getD, List.getElem?_drop] at read
    show p.bytes[p.stride * p.vstride + k + (y * p.stride + x * 2)]? = some (p.bytes.getD _ 0)
    rw [place, read, List.getD_eq_getElem?_getD, Nat.add_assoc]
    rfl
  exact (c.scale holds).bicubicNv12_reads (c.fits holds) luma chroma (by rw [c.scale_size, size])

/-- **The residual is added** byte by byte. -/
theorem addPhaseResidual_picture (c : g.Contract) (holds : p.Holds g.inH g.inW) {dst : List UInt8}
    {residual : List Rat} (size : dst.length = g.outSize) (filled : residual.length = g.residualSize) :
    addPhaseResidual (some residual) g.coreW g.coreH (some (store dst ((c.scale holds).stores p.bytes))) g.outW g.outH =
      some (.ok, some (g.picture p residual)) := by
  have wide := c.coreW_le
  have high := c.coreH_le
  have coreW_pos := c.coreW_pos
  simp only [kMaxDim, kPhaseOutFactor] at wide high
  let scaled := store dst ((c.scale holds).stores p.bytes)
  have length : scaled.length = g.outSize := by rw [store_length, size]
  have space : (c.scale holds).size ≤ dst.length := by rw [c.scale_size, size]
  have tensor : residual.length = 108 * (g.coreW * g.coreH) := by
    rw [filled, SrGeometry.residualSize, kPhaseOutCh, Nat.mul_assoc]
  have made : bothAdded residual g.coreW g.coreH scaled = g.picture p residual := by
    apply List.ext_getElem?
    intro i
    by_cases inside : i < g.outSize
    · rw [SrGeometry.picture, List.getElem?_map, List.getElem?_range inside, Option.map_some, SrGeometry.sample]
      have outW : g.coreW * 6 = g.outW := c.outW.symm
      by_cases luma : i < g.outW * g.outH
      · have row : i / g.outW < g.outH := Nat.div_lt_of_lt_mul luma
        have col : i % g.outW < g.outW := Nat.mod_lt _ (by omega)
        have read : scaled[i / g.outW * g.outW + i % g.outW]? = _ := Geometry.output_luma space row col
        have taken := @bothAdded_luma residual g.coreW g.coreH scaled _ _ (by rwa [← c.outH]) (by rwa [← c.outW])
        rw [if_pos luma]
        rw [outW, read, Nat.div_add_mod'] at taken
        exact taken
      · obtain ⟨k, rfl⟩ : ∃ k, i = g.outW * g.outH + k := ⟨i - g.outW * g.outH, by omega⟩
        rw [if_neg luma, Nat.add_sub_cancel_left]
        have halfH : g.outH / 2 = g.coreH * 3 := by rw [c.outH]; omega
        have halfW : g.outW / 2 = g.coreW * 3 := by rw [c.outW]; omega
        rw [c.outSize_eq, ← c.outH, outW, ← halfH] at inside
        have row : k / g.outW < g.outH / 2 := Nat.div_lt_of_lt_mul (by omega)
        have col : k % g.outW < g.outW := Nat.mod_lt _ (by omega)
        have cell : k % g.outW / 2 < g.outW / 2 := by omega
        have plane : k % g.outW % 2 + 1 = 1 ∨ k % g.outW % 2 + 1 = 2 := by omega
        have read : scaled[g.outW * g.outH + k / g.outW * g.outW + (2 * (k % g.outW / 2) + k % g.outW % 2)]? = _ :=
          Geometry.output_chroma space (by omega) row cell
        have taken := @bothAdded_chroma residual g.coreW g.coreH scaled _ _ _ plane (by rwa [← halfH])
          (by rwa [← halfW])
        have place : g.outW * g.outH + k / g.outW * g.outW + (2 * (k % g.outW / 2) + k % g.outW % 2) =
            g.outW * g.outH + k := by
          rw [Nat.div_add_mod, Nat.add_assoc, Nat.div_add_mod']
        rw [outW, ← c.outH, Nat.add_sub_cancel, read, place] at taken
        exact taken
    · have past : g.outSize ≤ i := Nat.le_of_not_lt inside
      rw [List.getElem?_eq_none (by rwa [length_bothAdded, length]),
        List.getElem?_eq_none (by rwa [SrGeometry.picture, List.length_map, List.length_range])]
  have added := @addPhaseResidual_both residual g.coreW g.coreH scaled (by omega) (by omega) tensor
    (by rw [length, c.outSize_eq])
  rw [made] at added
  rw [c.outW, c.outH]
  exact added

end Kernels

end Rkvc.Sr
