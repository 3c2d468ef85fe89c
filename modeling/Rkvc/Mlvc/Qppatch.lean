import Mathlib.Algebra.Order.BigOperators.Group.List
import Rkvc.Lib.Crc
import Rkvc.Mlvc.Codec

/-!
# QP patches

A QPP1 patch turns the base model into the one of a QP: a header of 48 bytes, a table of ranges,
and the bytes of the ranges. `apply_qppatch` checks the whole of a patch before it writes.
The reference, `qppatch.py`, writes a copy as it checks. Both take the same patches, and to
the same bytes (`apply_agrees`).
-/

namespace Rkvc.Mlvc
set_option autoImplicit false
open Lib

/-! ## The checksum -/

def crcPoly : BitVec 32 := 0xEDB88320

/-- A word of `kCrcTable`. -/
def crcWord (i : Nat) : BitVec 32 :=
  (List.range 8).foldl (fun (r : BitVec 32) _ => (r >>> 1) ^^^ (crcPoly &&& (0 - (r &&& 1)))) (BitVec.ofNat 32 i)

def kCrcTable : List (BitVec 32) := (List.range 256).map crcWord

def crc32 (data : List UInt8) : Nat :=
  let c : BitVec 32 := data.foldl
    (fun c b => kCrcTable.getD ((c ^^^ b.toBitVec.setWidth 32) &&& 0xff).toNat 0 ^^^ (c >>> 8)) 0xFFFFFFFF
  (c ^^^ 0xFFFFFFFF).toNat

/-! ## The applier -/

def kQppHeaderSize : Nat := 48
def kRangeSize : Nat := 8

def badQppatch {α : Type} (reason : String) : Result α := Result.reject .format "apply" "qppatch" reason

def rdU64 (data : List UInt8) (off : Nat) : Nat := rdU32 data off ||| rdU32 data (off + 4) <<< 32

/-- The entries of the range table. -/
def rangesOf (patch : List UInt8) (numRanges : Nat) : List (Nat × Nat) :=
  (List.range numRanges).map fun i =>
    (rdU32 patch (kQppHeaderSize + i * kRangeSize), rdU32 patch (kQppHeaderSize + i * kRangeSize + 4))

/-- The loop that checks the ranges and sums their lengths. -/
def needLoop (baseSize : Nat) : List (Nat × Nat) → Nat → Result Nat
  | [], need => .ok need
  | (off, len) :: ranges, need =>
    if off + len > baseSize then badQppatch "range out of bounds"
    else if len > kSizeMax - need then badQppatch "payload size overflow"
    else needLoop baseSize ranges (need + len)

/-- Bytes over others, from an offset on. -/
def overlay (out : List UInt8) (off : Nat) (chunk : List UInt8) : List UInt8 :=
  out.take off ++ chunk ++ out.drop (off + chunk.length)

/-- The loop that copies. -/
def copyLoop (payload : List UInt8) : List (Nat × Nat) → Nat → List UInt8 → List UInt8
  | [], _, base => base
  | (off, len) :: ranges, cursor, base =>
    let base := if len ≠ 0 then overlay base off ((payload.drop cursor).take len) else base
    copyLoop payload ranges (cursor + len) base

/-- The payload: the bytes behind the range table. -/
def payloadOf (patch : List UInt8) (numRanges : Nat) : List UInt8 := patch.drop (kQppHeaderSize + numRanges * kRangeSize)

/-- `apply_qppatch`, behind the header. -/
def applyRanges (base patch : List UInt8) (numRanges payloadCrc : Nat) : List UInt8 × Result Unit :=
  if numRanges > (2 ^ 32 - 1 - kQppHeaderSize) / kRangeSize then (base, badQppatch "range count overflow")
  else if patch.length < kQppHeaderSize + numRanges * kRangeSize then (base, badQppatch "truncated ranges")
  else
    match needLoop base.length (rangesOf patch numRanges) 0 with
    | .error e => (base, .error e)
    | .ok need =>
      if need ≠ (payloadOf patch numRanges).length ∨ crc32 (payloadOf patch numRanges) ≠ payloadCrc then
        (base, badQppatch "payload crc mismatch")
      else (copyLoop (payloadOf patch numRanges) (rangesOf patch numRanges) 0 base, .ok ())

/-- `apply_qppatch`: the bytes of `base` behind the call, and its result. An empty buffer has no
address; a negative QP expects none. -/
def applyQppatch (base patch : List UInt8) (expectedQp : Int) : List UInt8 × Result Unit :=
  if base = [] ∨ patch = [] then (base, .error { status := .invalid })
  else if patch.length < kQppHeaderSize ∨ patch.take 4 ≠ qppMagic then (base, badQppatch "bad magic")
  else if rdU32 patch 4 ≠ 1 then (base, badQppatch "bad version")
  else if rdU64 patch 8 ≠ base.length then (base, badQppatch "base size mismatch")
  else if rdU32 patch 24 ≠ 0 then (base, badQppatch "bad flags")
  else if expectedQp ≥ 0 ∧ rdU32 patch 16 ≠ toU32 expectedQp then (base, badQppatch "qp mismatch")
  else if crc32 base ≠ rdU32 patch 28 then (base, badQppatch "base crc mismatch")
  else applyRanges base patch (rdU32 patch 20) (rdU32 patch 32)

/-! ## The reference -/

/-- What the tool raises. -/
inductive PyError where
  | qppatch (message : String)
  | struct
  deriving DecidableEq, Repr

namespace PyQppatch

/-- `zlib.crc32`, which the tool masks to 32 bits. -/
def crc32 (data : List UInt8) : Nat :=
  (data.foldl (fun c b => Crc.byteStep crcPoly c b.toBitVec) 0xFFFFFFFF ^^^ 0xFFFFFFFF).toNat

structure Header where
  baseSize : Nat
  qp : Nat
  numRanges : Nat
  flags : Nat
  baseCrc32 : Nat
  payloadCrc32 : Nat
  coalesceGap : Nat
  deriving DecidableEq, Repr

def decodeHeader (blob : List UInt8) : Except PyError Header :=
  if blob.length < kQppHeaderSize then .error (.qppatch "补丁截断")
  else if blob.take 4 ≠ qppMagic then .error (.qppatch "不是 QPP1 文件")
  else if rdU32 blob 4 ≠ 1 then .error (.qppatch s!"不支持的 QPP1 版本 {rdU32 blob 4}")
  else
    .ok
      { baseSize := leVal ((blob.drop 8).take 8)
        qp := rdU32 blob 16
        numRanges := rdU32 blob 20
        flags := rdU32 blob 24
        baseCrc32 := rdU32 blob 28
        payloadCrc32 := rdU32 blob 32
        coalesceGap := rdU32 blob 36 }

/-- The loop over the ranges: the copy, and where the payload has been read to. -/
def applyLoop (blob : List UInt8) : List (Nat × Nat) → List UInt8 → Nat → Except PyError (List UInt8 × Nat)
  | [], out, cursor => .ok (out, cursor)
  | (off, ln) :: ranges, out, cursor =>
    if off + ln > out.length then .error (.qppatch s!"区间越界 offset={off} length={ln}")
    else
      let chunk := (blob.drop cursor).take ln
      if chunk.length ≠ ln then .error (.qppatch "payload 截断")
      else applyLoop blob ranges (overlay out off chunk) (cursor + ln)

def apply (base blob : List UInt8) (expectedQp : Option Nat) : Except PyError (List UInt8) :=
  match decodeHeader blob with
  | .error e => .error e
  | .ok header =>
    if header.flags ≠ 0 then .error (.qppatch s!"未知 flags={header.flags}")
    else if expectedQp.isSome ∧ some header.qp ≠ expectedQp then
      .error (.qppatch s!"补丁 qp={header.qp}，期望 {expectedQp.getD 0}")
    else if header.baseSize ≠ base.length then .error (.qppatch "基座大小与补丁声明不一致")
    else if crc32 base ≠ header.baseCrc32 then .error (.qppatch "基座 CRC32 不匹配（拿错基座或 toolkit 版本不同）")
    else
      let payloadOff := kQppHeaderSize + header.numRanges * kRangeSize
      if blob.length < payloadOff then .error (.qppatch "区间表截断")
      else
        match applyLoop blob (rangesOf blob header.numRanges) base payloadOff with
        | .error e => .error e
        | .ok (out, cursor) =>
          if cursor ≠ blob.length then .error (.qppatch "payload 长度与区间合计不符")
          else if crc32 (blob.drop payloadOff) ≠ header.payloadCrc32 then .error (.qppatch "payload CRC32 不匹配")
          else .ok out

/-- The runs of bytes that differ. -/
def leading : List (UInt8 × UInt8) → Nat
  | [] => 0
  | (b, t) :: pairs => if b ≠ t then leading pairs + 1 else 0

def rawRuns : Nat → Nat → List (UInt8 × UInt8) → List (Nat × Nat)
  | 0, _, _ => []
  | _, _, [] => []
  | fuel + 1, i, (b, t) :: pairs =>
    if b ≠ t then
      let n := leading pairs
      (i, n + 1) :: rawRuns fuel (i + (n + 1)) (pairs.drop n)
    else rawRuns fuel (i + 1) pairs

/-- Runs that are at most `gap` apart become one. -/
def coalesce (gap : Int) : Nat × Nat → List (Nat × Nat) → List (Nat × Nat)
  | last, [] => [last]
  | last, (off, ln) :: runs =>
    if (off : Int) - (last.1 + last.2 : Nat) ≤ gap then coalesce gap (last.1, off + ln - last.1) runs
    else last :: coalesce gap (off, ln) runs

def diffRanges (base target : List UInt8) (gap : Int) : Except PyError (List (Nat × Nat)) :=
  if base.length ≠ target.length then
    .error (.qppatch s!"基座与目标大小不同: {base.length} vs {target.length}")
  else if base.length > 0xFFFFFFFF then .error (.qppatch "文件超过 4GiB，QPP1 使用 uint32 偏移")
  else
    match rawRuns base.length 0 (base.zip target) with
    | [] => .ok []
    | first :: runs => .ok (coalesce gap first runs)

/-- `struct.pack` of one unsigned field. -/
def pack (bytes : Nat) (value : Int) : Except PyError (List UInt8) :=
  if 0 ≤ value ∧ value.toNat < 256 ^ bytes then .ok (leBytes bytes value.toNat) else .error .struct

/-- `struct.pack` of several fields, each with its width. -/
def packAll : List (Nat × Int) → Except PyError (List UInt8)
  | [] => .ok []
  | (bytes, value) :: fields =>
    match pack bytes value, packAll fields with
    | .ok first, .ok others => .ok (first ++ others)
    | _, _ => .error .struct

/-- A range's bytes. -/
def slice (bytes : List UInt8) (r : Nat × Nat) : List UInt8 := (bytes.drop r.1).take r.2

/-- The fields of the header, behind the magic and without the reserved bytes. -/
def headerFields (base payload : List UInt8) (qp gap : Int) (numRanges : Nat) : List (Nat × Int) :=
  [(4, 1), (8, base.length), (4, qp), (4, numRanges), (4, 0), (4, crc32 base), (4, crc32 payload), (4, gap)]

def rangeFields (ranges : List (Nat × Nat)) : List (Nat × Int) := ranges.flatMap fun r => [(4, r.1), (4, r.2)]

/-- The blob of some ranges. -/
def encodeRanges (base target : List UInt8) (qp gap : Int) (ranges : List (Nat × Nat)) : Except PyError (List UInt8) :=
  let payload := ranges.flatMap (slice target)
  match packAll (headerFields base payload qp gap ranges.length), packAll (rangeFields ranges) with
  | .ok header, .ok body => .ok (qppMagic ++ header ++ List.replicate 8 0 ++ body ++ payload)
  | _, _ => .error .struct

def encode (base target : List UInt8) (qp gap : Int) : Except PyError (List UInt8) :=
  if qp < 0 then .error (.qppatch s!"qp 不能为负: {qp}")
  else
    match diffRanges base target gap with
    | .error e => .error e
    | .ok ranges => encodeRanges base target qp gap ranges

end PyQppatch

/-! ## The two checksums -/

theorem crcStep_eq (r : BitVec 32) : (r >>> 1) ^^^ (crcPoly &&& (0 - (r &&& 1))) = Crc.bitStep crcPoly r := by
  have low : r &&& 1 = BitVec.setWidth 32 (BitVec.ofBool (r.getLsbD 0)) :=
    BitVec.and_one_eq_setWidth_ofBool_getLsbD
  rw [Crc.bitStep, low]
  cases r.getLsbD 0 with
  | true =>
    rw [if_pos rfl]
    congr 1
  | false =>
    rw [if_neg Bool.false_ne_true]
    have none : crcPoly &&& (0 - BitVec.setWidth 32 (BitVec.ofBool false)) = 0 := by decide
    rw [none]
    exact BitVec.xor_zero

theorem crcWord_eq (i : Nat) (h : i < 256) : crcWord i = Crc.entry crcPoly (BitVec.ofNat 8 i) := by
  have steps : ∀ r : BitVec 32, (List.range 8).foldl
      (fun (r : BitVec 32) _ => (r >>> 1) ^^^ (crcPoly &&& (0 - (r &&& 1)))) r = Crc.bitSteps crcPoly 8 r := by
    intro r
    simp only [crcStep_eq]
    rfl
  have word : (BitVec.ofNat 8 i).setWidth 32 = BitVec.ofNat 32 i := by
    apply BitVec.eq_of_toNat_eq
    rw [BitVec.toNat_setWidth, BitVec.toNat_ofNat, BitVec.toNat_ofNat]
    omega
  rw [crcWord, steps, Crc.entry, word]

theorem crcTable_eq (x : BitVec 32) : kCrcTable.getD (x &&& 0xff).toNat 0 = Crc.entry crcPoly (x.setWidth 8) := by
  have low : (x &&& 0xff).toNat = x.toNat % 256 := by
    rw [BitVec.toNat_and]
    exact Nat.and_two_pow_sub_one_eq_mod x.toNat 8
  have below : x.toNat % 256 < 256 := Nat.mod_lt _ (by decide)
  have octet : BitVec.ofNat 8 (x.toNat % 256) = x.setWidth 8 := by
    apply BitVec.eq_of_toNat_eq
    rw [BitVec.toNat_ofNat, BitVec.toNat_setWidth]
    omega
  rw [low, kCrcTable, List.getD_eq_getElem?_getD, List.getElem?_map, List.getElem?_range below, Option.map_some,
    Option.getD_some, crcWord_eq _ below, octet]

/-- The table gives the checksum of the reference. -/
theorem crc32_eq (data : List UInt8) : crc32 data = PyQppatch.crc32 data := by
  simp only [crc32, PyQppatch.crc32, crcTable_eq, Crc.byteStep_table]

theorem crc32_lt (data : List UInt8) : PyQppatch.crc32 data < 2 ^ 32 := BitVec.isLt _

/-! ## Words -/

theorem rdU64_eq {data : List UInt8} {off : Nat} (room : off + 8 ≤ data.length) :
    rdU64 data off = leVal ((data.drop off).take 8) :=
  rdF64_eq room

/-! ## What both check -/

/-- The bytes that ranges take. -/
def rangesSize (ranges : List (Nat × Nat)) : Nat := (ranges.map (·.2)).sum

@[simp] theorem rangesSize_nil : rangesSize [] = 0 := rfl

@[simp] theorem rangesSize_cons (r : Nat × Nat) (ranges : List (Nat × Nat)) :
    rangesSize (r :: ranges) = r.2 + rangesSize ranges := List.sum_cons

theorem rangesOf_length (patch : List UInt8) (n : Nat) : (rangesOf patch n).length = n := by
  rw [rangesOf, List.length_map, List.length_range]

theorem rangesSize_le (patch : List UInt8) (n : Nat) : rangesSize (rangesOf patch n) ≤ n * 2 ^ 32 := by
  have each : ∀ x ∈ (rangesOf patch n).map (·.2), x ≤ 2 ^ 32 := by
    intro x listed
    obtain ⟨r, held, rfl⟩ := List.mem_map.mp listed
    obtain ⟨i, -, rfl⟩ := List.mem_map.mp held
    exact (rdU32_lt _ _).le
  have sum := List.sum_le_card_nsmul _ _ each
  rw [List.length_map, rangesOf_length] at sum
  exact sum

section Loops

variable {ranges : List (Nat × Nat)} {baseSize need cursor : Nat} {blob payload out base : List UInt8}

/-- Each range lies in the base. -/
def Inside (baseSize : Nat) (ranges : List (Nat × Nat)) : Prop := ∀ r ∈ ranges, r.1 + r.2 ≤ baseSize

instance : Decidable (Inside baseSize ranges) := inferInstanceAs (Decidable (∀ r ∈ ranges, r.1 + r.2 ≤ baseSize))

theorem needLoop_ok (small : need + rangesSize ranges ≤ kSizeMax) (inside : Inside baseSize ranges) :
    needLoop baseSize ranges need = .ok (need + rangesSize ranges) := by
  induction ranges generalizing need with
  | nil => rfl
  | cons r ranges ih =>
    obtain ⟨off, len⟩ := r
    rw [rangesSize_cons] at small ⊢
    have here := inside (off, len) List.mem_cons_self
    dsimp only at small here ⊢
    rw [needLoop, if_neg (by omega), if_neg (by omega), ih (by omega), Nat.add_assoc]
    intro r listed
    exact inside r (List.mem_cons_of_mem _ listed)

theorem needLoop_inside {n : Nat} (h : needLoop baseSize ranges need = .ok n) : Inside baseSize ranges := by
  induction ranges generalizing need with
  | nil =>
    intro r listed
    exact absurd listed List.not_mem_nil
  | cons r ranges ih =>
    obtain ⟨off, len⟩ := r
    rw [needLoop] at h
    split at h
    · cases h
    · rename_i here
      split at h
      · cases h
      · intro r listed
        rcases List.mem_cons.mp listed with rfl | listed
        · exact Nat.not_lt.mp here
        · exact ih h r listed

theorem overlay_length {off : Nat} {chunk : List UInt8} (room : off + chunk.length ≤ out.length) :
    (overlay out off chunk).length = out.length := by
  simp only [overlay, List.length_append, List.length_take, List.length_drop]
  omega

theorem overlay_nil (off : Nat) : overlay out off [] = out := by
  rw [overlay, List.append_nil, List.length_nil, Nat.add_zero, List.take_append_drop]

/-- The reference's loop writes what the applier's loop copies. -/
theorem applyLoop_ok (inside : Inside out.length ranges) (room : cursor + rangesSize ranges ≤ payload.length) :
    PyQppatch.applyLoop payload ranges out cursor =
      .ok (copyLoop payload ranges cursor out, cursor + rangesSize ranges) := by
  induction ranges generalizing out cursor with
  | nil => rfl
  | cons r ranges ih =>
    obtain ⟨off, len⟩ := r
    rw [rangesSize_cons] at room ⊢
    have here := inside (off, len) List.mem_cons_self
    dsimp only at room here ⊢
    have full : ((payload.drop cursor).take len).length = len := by
      rw [List.length_take, List.length_drop]
      omega
    have kept : (overlay out off ((payload.drop cursor).take len)).length = out.length := overlay_length (by omega)
    have same : (if len ≠ 0 then overlay out off ((payload.drop cursor).take len) else out) =
        overlay out off ((payload.drop cursor).take len) := by
      split
      · rfl
      · rename_i empty
        rw [Decidable.not_not.mp empty, List.take_zero, overlay_nil]
    rw [PyQppatch.applyLoop, if_neg (by omega)]
    simp only [full, ne_eq, not_true_eq_false, if_false]
    rw [ih ?_ (by omega), copyLoop, same, Nat.add_assoc]
    intro r listed
    rw [kept]
    exact inside r (List.mem_cons_of_mem _ listed)

/-- What the reference's loop has accepted. -/
theorem applyLoop_spec {end_ : Nat} (h : PyQppatch.applyLoop payload ranges base cursor = .ok (out, end_)) :
    Inside base.length ranges ∧ end_ = cursor + rangesSize ranges := by
  induction ranges generalizing base cursor with
  | nil =>
    cases h
    constructor
    · intro r listed
      exact absurd listed List.not_mem_nil
    · rfl
  | cons r ranges ih =>
    obtain ⟨off, len⟩ := r
    rw [PyQppatch.applyLoop] at h
    split at h
    · cases h
    · rename_i here
      dsimp only at h
      split at h
      · cases h
      · rename_i full
        have full := Decidable.not_not.mp full
        have kept : (overlay base off ((payload.drop cursor).take len)).length = base.length :=
          overlay_length (by omega)
        obtain ⟨inside, read⟩ := ih h
        rw [kept] at inside
        constructor
        · intro r listed
          rcases List.mem_cons.mp listed with rfl | listed
          · exact Nat.not_lt.mp here
          · exact inside r listed
        · rw [read, rangesSize_cons]
          dsimp only
          omega

end Loops

/-! ## The patches that are taken -/

section Agree

variable {base patch : List UInt8} {expected : Option Nat}

/-- A QP that the caller expects, as the applier takes it. -/
def expectedArg : Option Nat → Int
  | none => -1
  | some q => q

/-- A patch for the base, of the expected QP. -/
structure Patches (base patch : List UInt8) (expected : Option Nat) : Prop where
  header : kQppHeaderSize ≤ patch.length
  magic : patch.take 4 = qppMagic
  version : rdU32 patch 4 = 1
  baseSize : rdU64 patch 8 = base.length
  flags : rdU32 patch 24 = 0
  qp : ∀ q, expected = some q → rdU32 patch 16 = q
  baseCrc : crc32 base = rdU32 patch 28
  table : kQppHeaderSize + rdU32 patch 20 * kRangeSize ≤ patch.length
  inside : Inside base.length (rangesOf patch (rdU32 patch 20))
  total : rangesSize (rangesOf patch (rdU32 patch 20)) = (payloadOf patch (rdU32 patch 20)).length
  payloadCrc : crc32 (payloadOf patch (rdU32 patch 20)) = rdU32 patch 32

/-- The base behind a patch. -/
def patched (base patch : List UInt8) : List UInt8 :=
  copyLoop (payloadOf patch (rdU32 patch 20)) (rangesOf patch (rdU32 patch 20)) 0 base

theorem qp_arg (range : ∀ q, expected = some q → q < 2 ^ 31) (word : Nat) :
    (∀ q, expected = some q → word = q) ↔ ¬(expectedArg expected ≥ 0 ∧ word ≠ toU32 (expectedArg expected)) := by
  cases expected with
  | none =>
    constructor
    · intro _ bad
      exact absurd bad.1 (by decide)
    · intro _ q asked
      cases asked
  | some q =>
    have below := range q rfl
    have arg : toU32 (expectedArg (some q)) = q := by
      rw [expectedArg, toU32_of_range (by omega) (by omega), Int.toNat_natCast]
    rw [arg]
    constructor
    · intro same bad
      exact bad.2 (same q rfl)
    · intro fine q' asked
      cases asked
      by_contra other
      exact fine ⟨Int.natCast_nonneg q, other⟩

theorem ranges_room (patch : List UInt8) : rangesSize (rangesOf patch (rdU32 patch 20)) ≤ kSizeMax := by
  have size := rangesSize_le patch (rdU32 patch 20)
  have count := rdU32_lt patch 20
  rw [kSizeMax]
  have : rdU32 patch 20 * 2 ^ 32 ≤ (2 ^ 32 - 1) * 2 ^ 32 := Nat.mul_le_mul_right _ (by omega)
  omega

/-- The applier takes the patches for the base. -/
theorem applyQppatch_ok (some : base ≠ []) (small : patch.length < 2 ^ 32)
    (range : ∀ q, expected = Option.some q → q < 2 ^ 31) (takes : Patches base patch expected) :
    applyQppatch base patch (expectedArg expected) = (patched base patch, .ok ()) := by
  have filled : patch ≠ [] := by
    intro none
    have header := takes.header
    rw [none] at header
    exact absurd header (by decide)
  have count : ¬rdU32 patch 20 > (2 ^ 32 - 1 - kQppHeaderSize) / kRangeSize := by
    have table := takes.table
    rw [kQppHeaderSize, kRangeSize] at table ⊢
    omega
  have room := ranges_room patch
  rw [applyQppatch, if_neg (not_or.mpr ⟨some, filled⟩),
    if_neg (not_or.mpr ⟨Nat.not_lt.mpr takes.header, not_not.mpr takes.magic⟩), if_neg (not_not.mpr takes.version),
    if_neg (not_not.mpr takes.baseSize), if_neg (not_not.mpr takes.flags), if_neg ((qp_arg range _).mp takes.qp),
    if_neg (not_not.mpr takes.baseCrc), applyRanges, if_neg count, if_neg (Nat.not_lt.mpr takes.table),
    needLoop_ok (by omega) takes.inside]
  dsimp only
  rw [Nat.zero_add, if_neg (not_or.mpr ⟨not_not.mpr takes.total, not_not.mpr takes.payloadCrc⟩)]
  rfl

/-- What it has checked when it succeeds, and what it leaves alone when it does not. -/
theorem applyQppatch_spec (range : ∀ q, expected = some q → q < 2 ^ 31) :
    let out := applyQppatch base patch (expectedArg expected)
    (out.2 = .ok () ∧ Patches base patch expected) ∨ (out.1 = base ∧ ∃ e, out.2 = .error e) := by
  rw [applyQppatch]
  by_cases none : base = [] ∨ patch = []
  · rw [if_pos none]
    exact .inr ⟨rfl, _, rfl⟩
  rw [if_neg none]
  by_cases magic : patch.length < kQppHeaderSize ∨ patch.take 4 ≠ qppMagic
  · rw [if_pos magic]
    exact .inr ⟨rfl, _, rfl⟩
  rw [if_neg magic]
  by_cases version : rdU32 patch 4 ≠ 1
  · rw [if_pos version]
    exact .inr ⟨rfl, _, rfl⟩
  rw [if_neg version]
  by_cases baseSize : rdU64 patch 8 ≠ base.length
  · rw [if_pos baseSize]
    exact .inr ⟨rfl, _, rfl⟩
  rw [if_neg baseSize]
  by_cases flags : rdU32 patch 24 ≠ 0
  · rw [if_pos flags]
    exact .inr ⟨rfl, _, rfl⟩
  rw [if_neg flags]
  by_cases qp : expectedArg expected ≥ 0 ∧ rdU32 patch 16 ≠ toU32 (expectedArg expected)
  · rw [if_pos qp]
    exact .inr ⟨rfl, _, rfl⟩
  rw [if_neg qp]
  by_cases baseCrc : crc32 base ≠ rdU32 patch 28
  · rw [if_pos baseCrc]
    exact .inr ⟨rfl, _, rfl⟩
  rw [if_neg baseCrc, applyRanges]
  by_cases count : rdU32 patch 20 > (2 ^ 32 - 1 - kQppHeaderSize) / kRangeSize
  · rw [if_pos count]
    exact .inr ⟨rfl, _, rfl⟩
  rw [if_neg count]
  by_cases table : patch.length < kQppHeaderSize + rdU32 patch 20 * kRangeSize
  · rw [if_pos table]
    exact .inr ⟨rfl, _, rfl⟩
  rw [if_neg table]
  cases summed : needLoop base.length (rangesOf patch (rdU32 patch 20)) 0 with
  | error e => exact .inr ⟨rfl, e, rfl⟩
  | ok need =>
    have inside := needLoop_inside summed
    have room := ranges_room patch
    rw [needLoop_ok (by omega) inside, Nat.zero_add] at summed
    cases summed
    dsimp only
    by_cases payload : rangesSize (rangesOf patch (rdU32 patch 20)) ≠ (payloadOf patch (rdU32 patch 20)).length ∨
        crc32 (payloadOf patch (rdU32 patch 20)) ≠ rdU32 patch 32
    · rw [if_pos payload]
      exact .inr ⟨rfl, _, rfl⟩
    rw [if_neg payload]
    rw [not_or] at magic payload
    refine .inl ⟨rfl, ?_⟩
    constructor
    · exact Nat.not_lt.mp magic.1
    · exact not_not.mp magic.2
    · exact not_not.mp version
    · exact not_not.mp baseSize
    · exact not_not.mp flags
    · exact (qp_arg range _).mpr qp
    · exact not_not.mp baseCrc
    · exact Nat.not_lt.mp table
    · exact inside
    · exact not_not.mp payload.1
    · exact not_not.mp payload.2

theorem copyLoop_drop (off cursor : Nat) (ranges : List (Nat × Nat)) (base : List UInt8) :
    copyLoop patch ranges (off + cursor) base = copyLoop (patch.drop off) ranges cursor base := by
  induction ranges generalizing cursor base with
  | nil => rfl
  | cons r ranges ih =>
    obtain ⟨first, len⟩ := r
    rw [copyLoop, copyLoop, List.drop_drop, Nat.add_assoc, ih]

theorem decodeHeader_ok (takes : Patches base patch expected) :
    PyQppatch.decodeHeader patch = .ok
      { baseSize := base.length
        qp := rdU32 patch 16
        numRanges := rdU32 patch 20
        flags := 0
        baseCrc32 := crc32 base
        payloadCrc32 := rdU32 patch 32
        coalesceGap := rdU32 patch 36 } := by
  have header := takes.header
  have size := takes.baseSize
  rw [kQppHeaderSize] at header
  rw [rdU64_eq (by omega)] at size
  rw [PyQppatch.decodeHeader, if_neg (Nat.not_lt.mpr takes.header), if_neg (not_not.mpr takes.magic),
    if_neg (not_not.mpr takes.version), size, takes.flags, takes.baseCrc]

/-- The reference takes the patches for the base, to the same bytes. -/
theorem apply_ok (takes : Patches base patch expected) :
    PyQppatch.apply base patch expected = .ok (patched base patch) := by
  have asked : ¬(expected.isSome ∧ some (rdU32 patch 16) ≠ expected) := by
    intro ⟨is, other⟩
    obtain ⟨q, rfl⟩ := Option.isSome_iff_exists.mp is
    exact other (congrArg some (takes.qp q rfl))
  have total := takes.total
  have table := takes.table
  have tail : (payloadOf patch (rdU32 patch 20)).length =
      patch.length - (kQppHeaderSize + rdU32 patch 20 * kRangeSize) := List.length_drop
  have crc := takes.payloadCrc
  rw [crc32_eq, payloadOf] at crc
  rw [PyQppatch.apply, decodeHeader_ok takes]
  dsimp only
  rw [if_neg (not_not.mpr rfl), if_neg asked, if_neg (not_not.mpr rfl), if_neg (not_not.mpr (crc32_eq base).symm),
    if_neg (Nat.not_lt.mpr table), applyLoop_ok takes.inside (by omega)]
  dsimp only
  rw [if_neg (by omega), if_neg (not_not.mpr crc)]
  exact congrArg Except.ok (copyLoop_drop _ 0 _ _)

/-- What the reference has checked when it returns. -/
theorem apply_spec {out : List UInt8} (h : PyQppatch.apply base patch expected = .ok out) :
    Patches base patch expected := by
  rw [PyQppatch.apply] at h
  cases decoded : PyQppatch.decodeHeader patch with
  | error e =>
    rw [decoded] at h
    cases h
  | ok header =>
    rw [decoded] at h
    dsimp only at h
    rw [PyQppatch.decodeHeader] at decoded
    by_cases size : patch.length < kQppHeaderSize
    · rw [if_pos size] at decoded
      cases decoded
    rw [if_neg size] at decoded
    by_cases magic : patch.take 4 ≠ qppMagic
    · rw [if_pos magic] at decoded
      cases decoded
    rw [if_neg magic] at decoded
    by_cases version : rdU32 patch 4 ≠ 1
    · rw [if_pos version] at decoded
      cases decoded
    rw [if_neg version] at decoded
    cases decoded
    dsimp only at h
    have words : 8 + 8 ≤ patch.length := by
      rw [kQppHeaderSize] at size
      omega
    rw [← rdU64_eq words] at h
    by_cases flags : rdU32 patch 24 ≠ 0
    · rw [if_pos flags] at h
      cases h
    rw [if_neg flags] at h
    by_cases qp : expected.isSome ∧ some (rdU32 patch 16) ≠ expected
    · rw [if_pos qp] at h
      cases h
    rw [if_neg qp] at h
    by_cases baseSize : rdU64 patch 8 ≠ base.length
    · rw [if_pos baseSize] at h
      cases h
    rw [if_neg baseSize] at h
    by_cases baseCrc : PyQppatch.crc32 base ≠ rdU32 patch 28
    · rw [if_pos baseCrc] at h
      cases h
    rw [if_neg baseCrc] at h
    by_cases table : patch.length < kQppHeaderSize + rdU32 patch 20 * kRangeSize
    · rw [if_pos table] at h
      cases h
    rw [if_neg table] at h
    cases looped : PyQppatch.applyLoop patch (rangesOf patch (rdU32 patch 20)) base
        (kQppHeaderSize + rdU32 patch 20 * kRangeSize) with
    | error e =>
      rw [looped] at h
      cases h
    | ok result =>
      obtain ⟨written, cursor⟩ := result
      rw [looped] at h
      dsimp only at h
      obtain ⟨inside, read⟩ := applyLoop_spec looped
      by_cases last : cursor ≠ patch.length
      · rw [if_pos last] at h
        cases h
      rw [if_neg last] at h
      by_cases payloadCrc :
          PyQppatch.crc32 (patch.drop (kQppHeaderSize + rdU32 patch 20 * kRangeSize)) ≠ rdU32 patch 32
      · rw [if_pos payloadCrc] at h
        cases h
      have crc := not_not.mp payloadCrc
      rw [← crc32_eq] at crc baseCrc
      constructor
      · exact Nat.not_lt.mp size
      · exact not_not.mp magic
      · exact not_not.mp version
      · exact not_not.mp baseSize
      · exact not_not.mp flags
      · intro q asked
        rw [asked] at qp
        by_contra other
        exact qp ⟨rfl, fun same => other (Option.some.inj same)⟩
      · exact not_not.mp baseCrc
      · exact Nat.not_lt.mp table
      · exact inside
      · rw [payloadOf, List.length_drop]
        omega
      · exact crc

/-- **The applier and the reference take the same patches, to the same bytes.** A patch that is
refused leaves the base alone. -/
theorem apply_agrees (some : base ≠ []) (small : patch.length < 2 ^ 32)
    (range : ∀ q, expected = Option.some q → q < 2 ^ 31) :
    (∀ bytes, PyQppatch.apply base patch expected = .ok bytes →
        applyQppatch base patch (expectedArg expected) = (bytes, .ok ())) ∧
      ∀ raised, PyQppatch.apply base patch expected = .error raised →
        (applyQppatch base patch (expectedArg expected)).1 = base ∧
          ∃ e, (applyQppatch base patch (expectedArg expected)).2 = .error e := by
  constructor
  · intro bytes reference
    have takes := apply_spec reference
    rw [apply_ok takes] at reference
    cases reference
    exact applyQppatch_ok some small range takes
  · intro raised reference
    rcases applyQppatch_spec range with ⟨-, takes⟩ | refused
    · rw [apply_ok takes] at reference
      cases reference
    · exact refused

end Agree

/-- A base of eight bytes, and a patch of its third and fourth. -/
def smallPatch : List UInt8 :=
  qppMagic ++ leBytes 4 1 ++ leBytes 8 8 ++ leBytes 4 21 ++ leBytes 4 1 ++ leBytes 4 0 ++
    leBytes 4 (crc32 [1, 2, 3, 4, 5, 6, 7, 8]) ++ leBytes 4 (crc32 [9, 9]) ++ List.replicate 12 0 ++ leBytes 4 2 ++
    leBytes 4 2 ++ [9, 9]

theorem apply_agrees_small : applyQppatch [1, 2, 3, 4, 5, 6, 7, 8] smallPatch 21 = ([1, 2, 9, 9, 5, 6, 7, 8], .ok ()) := by
  have reference : PyQppatch.apply [1, 2, 3, 4, 5, 6, 7, 8] smallPatch (some 21) = .ok [1, 2, 9, 9, 5, 6, 7, 8] := by
    decide +kernel
  have size : smallPatch.length < 2 ^ 32 := by
    decide +kernel
  have range : ∀ q, some 21 = some q → q < 2 ^ 31 := by
    intro q asked
    cases asked
    decide
  exact (apply_agrees (List.cons_ne_nil 1 [2, 3, 4, 5, 6, 7, 8]) size range).1 _ reference

end Rkvc.Mlvc
