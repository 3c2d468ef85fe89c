import Rkvc.Core.Model
import Rkvc.Mlvc.PmfGrammar
import Rkvc.Mlvc.Rans.Coder

/-!
# What both MLVC nodes share

`codec.cpp`: the entropy coders of a model, the QP rungs it carries, and the
geometry of the latents. `2 * YC + channel_repeat - 1` is an `int` product in
`resolve_entropy_geometry` and wraps before it is widened; `extract_scales`
widens first.
-/

namespace Rkvc.Mlvc
set_option autoImplicit false
open Lib

def kKindPmfGaussian : String := "pmf-gaussian"
def kKindPmfBitest : String := "pmf-bitest"
def kKindQppatch : String := "qppatch"
def kMaxRungs : Nat := 8
def kMlvcFps : Nat := 30
def kDefaultQp : Int := 21

structure EntropyConfig where
  scaleMaxIndex : Int := 0
  qpNum : Nat := 0
  zChannels : Nat := 0
  channelRepeat : Int := 0
  spatialRepeat : Int := 0
  deriving DecidableEq, Repr

/-- A loader's failure, reported once more by its caller. -/
def bindFailure {α : Type} (loader : Diag) (subject reason : String) : Result α :=
  .error ⟨.format, loader ++ [⟨"bind", subject, reason⟩]⟩

/-! ## Entropy coders -/

/-- The Gaussian table goes by either of two kinds. -/
def findGaussian (model : Model) : Option ModelPayload :=
  match model.find kKindPmfGaussian with
  | some p => some p
  | none => model.find "pmf"

def initRansCoders (model : Model) (cfg : EntropyConfig) : Result (RansCoder × RansCoder × EntropyConfig) :=
  match findGaussian model, model.find kKindPmfBitest with
  | some gv, some bv =>
    match loadPmf gv.data with
    | .error e => bindFailure e.diag "pmf" "gaussian pmf load failed"
    | .ok gpmf =>
      match loadPmf bv.data with
      | .error e => bindFailure e.diag "pmf" "bitest pmf load failed"
      | .ok bpmf =>
        if !gpmf.gaussian ∨ gpmf.indexSpace = 0 ∨ gpmf.scaleLevels = 0 ∨
            gpmf.scaleLevels > gpmf.lengths.length ∨ bpmf.qpNum = 0 ∨ bpmf.channels = 0 ∨
            bpmf.qpNum * bpmf.channels ≠ bpmf.lengths.length then
          bindFailure [] "pmf" "pmf contract mismatch"
        else
          match RansCoder.create .byte gpmf.lengths gpmf.offsets gpmf.table 16 2 with
          | .error e => bindFailure e.diag "pmf" "gaussian coder init failed"
          | .ok g =>
            match RansCoder.create .byte bpmf.lengths bpmf.offsets bpmf.table 16 2 with
            | .error e => bindFailure e.diag "pmf" "bitest coder init failed"
            | .ok b =>
              .ok (g, b, { cfg with
                scaleMaxIndex := (gpmf.scaleLevels : Int) - 1
                qpNum := bpmf.qpNum
                zChannels := bpmf.channels })
  | _, _ => bindFailure [] "pmf" "missing pmf payloads"

/-! ## Rungs -/

/-- `"QPP1"`. -/
def qppMagic : List UInt8 := [0x51, 0x50, 0x50, 0x31]

/-- The QP of a patch, or `-1` where the payload is none. -/
def qppatchQp (data : List UInt8) : Int :=
  if data.length < 48 ∨ data.take 4 ≠ qppMagic then -1 else i32 (rdU32 data 16)

/-- Insert before the last run of larger rungs. -/
def insertRung (qp : Int) (rungQp : List Int) : List Int :=
  (rungQp.reverse.dropWhile (· > qp)).reverse ++ [qp] ++ (rungQp.reverse.takeWhile (· > qp)).reverse

/-- One payload of `collect_rungs`. -/
def collectRung (rungQp : List Int) (p : ModelPayload) : List Int :=
  if p.kind ≠ kKindQppatch then rungQp
  else
    let qp := qppatchQp p.data
    if qp < 0 ∨ qp > 63 then rungQp
    else if qp ∈ rungQp ∨ rungQp.length ≥ kMaxRungs then rungQp
    else insertRung qp rungQp

def collectRungs (model : Model) (sessionQp : Int) : Result (List Int) :=
  let rungQp := model.payloads.foldl collectRung []
  if rungQp.isEmpty then .ok [sessionQp]
  else if sessionQp ∈ rungQp then .ok rungQp
  else Result.reject .format "bind" "rungs" "session qp missing from rung set"

/-- The loop of `nearest_rung`: the best index so far and its distance. -/
def nearestLoop (q : Int) : List Int → Nat → Nat → Int → Nat
  | [], _, best, _ => best
  | rung :: rungs, i, best, bestD =>
    let d := if rung > q then rung - q else q - rung
    if d < bestD then nearestLoop q rungs (i + 1) i d else nearestLoop q rungs (i + 1) best bestD

def nearestRung (rungQp : List Int) (q : Int) : Nat := nearestLoop q rungQp 0 0 (2 ^ 31 - 1)

/-! ## Geometry -/

/-- The tensor extents of the latents, as the `int`s they are passed as. -/
structure Geometry where
  ZC : Int32
  ZH : Int32
  ZW : Int32
  YC : Int32
  YH : Int32
  YW : Int32
  deriving DecidableEq, Repr

namespace Geometry

/-- Elements of the hyper-latents. -/
def zSize (geom : Geometry) : Nat := geom.ZC.toInt.toNat * geom.ZH.toInt.toNat * geom.ZW.toInt.toNat

/-- Elements of one half of the latents. -/
def ySize (geom : Geometry) : Nat := geom.YC.toInt.toNat * geom.YH.toInt.toNat * geom.YW.toInt.toNat

end Geometry

/-- `ceil_div`, in `int`. -/
def ceilDiv (v d : Int) : Int := (i32 (v + d - 1)).tdiv d

/-- The channel and spatial repeats of a geometry. -/
def repeats (geom : Geometry) : Option (Int × Int) :=
  if geom.ZH.toInt = ceilDiv geom.YH.toInt 8 ∧ geom.ZW.toInt = ceilDiv geom.YW.toInt 8 then some (2, 8)
  else if geom.ZH.toInt = ceilDiv geom.YH.toInt 4 ∧ geom.ZW.toInt = ceilDiv geom.YW.toInt 4 then some (4, 4)
  else none

def resolveEntropyGeometry (cfg : EntropyConfig) (qp : Int) (geom : Geometry) : Result EntropyConfig :=
  let bad : Result EntropyConfig := Result.reject .format "bind" "entropy" "geometry mismatch"
  if qp < 0 ∨ toU32 qp ≥ cfg.qpNum ∨ geom.ZC.toInt ≤ 0 ∨ geom.ZH.toInt ≤ 0 ∨ geom.ZW.toInt ≤ 0 ∨
      geom.YC.toInt ≤ 0 ∨ geom.YH.toInt ≤ 0 ∨ geom.YW.toInt ≤ 0 ∨ toU32 geom.ZC.toInt ≠ cfg.zChannels then bad
  else
    match repeats geom with
    | none => bad
    | some (channelRepeat, spatialRepeat) =>
      if (i32 (2 * geom.YC.toInt + channelRepeat - 1)).tdiv channelRepeat > geom.ZC.toInt then bad
      else .ok { cfg with channelRepeat := channelRepeat, spatialRepeat := spatialRepeat }

/-- `build_z_idx`: the distribution of every hyper-latent, `qp * ZC + c` in an `int`. -/
def buildZIdx (qp : Int) (geom : Geometry) : List Int32 :=
  (List.range geom.ZC.toInt.toNat).flatMap fun (c : Nat) =>
    List.replicate (geom.ZH.toInt.toNat * geom.ZW.toInt.toNat) (Int32.ofInt (qp * geom.ZC.toInt + c))

/-! ## What the calls establish -/

/-- What `init_rans_coders` leaves in the coders and the configuration. -/
structure CodersReady (g b : RansCoder) (cfg : EntropyConfig) : Prop where
  gaussian : ∃ lengths offsets table, RansCoder.create .byte lengths offsets table 16 2 = .ok g
  bitest : ∃ lengths offsets table, RansCoder.create .byte lengths offsets table 16 2 = .ok b
  scale : 0 ≤ cfg.scaleMaxIndex ∧ cfg.scaleMaxIndex < kMaxLen
  channels : cfg.zChannels ≤ kMaxLen

theorem initRansCoders_ready {model : Model} {cfg cfg' : EntropyConfig} {g b : RansCoder}
    (h : initRansCoders model cfg = .ok (g, b, cfg')) : CodersReady g b cfg' := by
  simp only [initRansCoders] at h
  split at h
  · split at h
    · cases h
    · rename_i gpmf hg
      split at h
      · cases h
      · rename_i bpmf hb
        split at h
        · cases h
        · rename_i contract
          split at h
          · cases h
          · rename_i g' hgc
            split at h
            · cases h
            · rename_i b' hbc
              simp only [Except.ok.injEq, Prod.mk.injEq] at h
              obtain ⟨rfl, rfl, rfl⟩ := h
              simp only [not_or, Decidable.not_not] at contract
              obtain ⟨-, -, levels, fits, qps, -, product⟩ := contract
              have glen := (loadPmf_sound hg).1.lengths.2
              have blen := (loadPmf_sound hb).1.lengths.2
              refine ⟨⟨_, _, _, hgc⟩, ⟨_, _, _, hbc⟩, ⟨by dsimp only; omega, by dsimp only; omega⟩, ?_⟩
              have := Nat.le_mul_of_pos_left bpmf.channels (Nat.pos_of_ne_zero qps)
              dsimp only
              omega
  · cases h

/-- The coders come from the two tables alone. -/
theorem initRansCoders_congr {model model' : Model} (cfg : EntropyConfig)
    (gaussian : findGaussian model = findGaussian model')
    (bitest : model.find kKindPmfBitest = model'.find kKindPmfBitest) :
    initRansCoders model cfg = initRansCoders model' cfg := by
  simp only [initRansCoders, gaussian, bitest]

/-- What `resolve_entropy_geometry` leaves in the configuration. -/
structure GeometryReady (cfg : EntropyConfig) (geom : Geometry) : Prop where
  positive : 0 < geom.YC.toInt ∧ 0 < geom.YH.toInt ∧ 0 < geom.YW.toInt ∧ 0 < geom.ZC.toInt ∧
    0 < geom.ZH.toInt ∧ 0 < geom.ZW.toInt
  channels : geom.ZC.toInt = cfg.zChannels
  repeats : cfg.channelRepeat = 2 ∧ cfg.spatialRepeat = 8 ∨ cfg.channelRepeat = 4 ∧ cfg.spatialRepeat = 4
  /-- The check as it is computed, wrapped. -/
  room : (i32 (2 * geom.YC.toInt + cfg.channelRepeat - 1)).tdiv cfg.channelRepeat ≤ geom.ZC.toInt

theorem resolveEntropyGeometry_ready {cfg cfg' : EntropyConfig} {qp : Int} {geom : Geometry}
    (h : resolveEntropyGeometry cfg qp geom = .ok cfg') :
    GeometryReady cfg' geom ∧ cfg'.scaleMaxIndex = cfg.scaleMaxIndex ∧ cfg'.zChannels = cfg.zChannels := by
  simp only [resolveEntropyGeometry] at h
  split at h
  · cases h
  · rename_i args
    simp only [not_or, Int.not_le, Decidable.not_not] at args
    obtain ⟨-, -, zc, zh, zw, yc, yh, yw, channels⟩ := args
    rw [toU32_of_range (by omega) (by have := geom.ZC.toInt_lt; omega)] at channels
    split at h
    · cases h
    · rename_i cr sr found
      split at h
      · cases h
      · rename_i room
        simp only [Except.ok.injEq] at h
        subst h
        refine ⟨⟨⟨yc, yh, yw, zc, zh, zw⟩, by dsimp only; omega, ?_, by dsimp only; omega⟩, rfl, rfl⟩
        simp only [Rkvc.Mlvc.repeats] at found
        split at found
        · simp only [Option.some.injEq, Prod.mk.injEq] at found
          exact .inl ⟨found.1.symm, found.2.symm⟩
        · split at found
          · simp only [Option.some.injEq, Prod.mk.injEq] at found
            exact .inr ⟨found.1.symm, found.2.symm⟩
          · cases found

/-- The session QP is only checked: the resolved configuration does not depend on it. -/
theorem resolveEntropyGeometry_unique {cfg out out' : EntropyConfig} {qp qp' : Int} {geom : Geometry}
    (h : resolveEntropyGeometry cfg qp geom = .ok out) (h' : resolveEntropyGeometry cfg qp' geom = .ok out') :
    out = out' := by
  simp only [resolveEntropyGeometry] at h h'
  split at h
  · cases h
  · split at h'
    · cases h'
    · split at h
      · cases h
      · rename_i cr sr found
        simp only [found] at h'
        split at h
        · cases h
        · rename_i room
          rw [if_neg room] at h'
          exact Except.ok.inj (h.symm.trans h')

@[simp] theorem buildZIdx_length (qp : Int) (geom : Geometry) : (buildZIdx qp geom).length = geom.zSize := by
  simp [buildZIdx, Geometry.zSize, List.length_flatMap, Nat.mul_assoc]

/-- For a QP of the product's range no index wraps. -/
theorem buildZIdx_nonneg {qp : Int} {geom : Geometry} (lo : 0 ≤ qp)
    (fits : qp * geom.ZC.toInt + geom.ZC.toInt ≤ 2 ^ 31) : ∀ i ∈ buildZIdx qp geom, 0 ≤ i.toInt := by
  intro i hi
  simp only [buildZIdx, List.mem_flatMap, List.mem_range, List.mem_replicate] at hi
  obtain ⟨c, hc, -, rfl⟩ := hi
  have base : 0 ≤ qp * geom.ZC.toInt := Int.mul_nonneg lo (by omega)
  rw [Int32.toInt_ofInt_of_le (by omega) (by omega)]
  omega

end Rkvc.Mlvc
