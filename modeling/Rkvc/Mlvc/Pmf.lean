import Rkvc.Core.Status
import Rkvc.Lib.Word

/-!
# The PMF1 payload

`mlvc::load_pmf`: three integer arrays and a tagged tail, little-endian. The
scale bounds of the Gaussian tail are kept as the bit patterns they are stored
as; nothing computes with them.
-/

namespace Rkvc.Mlvc
set_option autoImplicit false
open Lib

structure Pmf where
  lengths : List Int32 := []
  offsets : List Int32 := []
  table : List Int32 := []
  scaleMin : Nat := 0
  scaleMax : Nat := 0
  scaleLevels : Nat := 0
  indexSpace : Nat := 0
  qpNum : Nat := 0
  channels : Nat := 0
  gaussian : Bool := false
  deriving DecidableEq, Repr

/-- `SIZE_MAX`. -/
def kSizeMax : Nat := 2 ^ 64 - 1

/-- `rd_u32`. -/
def rdU32 (data : List UInt8) (off : Nat) : Nat := leVal ((data.drop off).take 4)

/-- The bit pattern `rd_f64` copies. -/
def rdF64 (data : List UInt8) (off : Nat) : Nat := rdU32 data off ||| rdU32 data (off + 4) <<< 32

/-- The integers between two byte offsets. -/
def rdI32s (data : List UInt8) (first last : Nat) : List Int32 :=
  (List.range ((last - first) / 4)).map fun i => Int32.ofNat (rdU32 data (first + 4 * i))

def kMaxLen : Nat := 1 <<< 20
def kMaxTab : Nat := 16 <<< 20

/-- `"PMF1"`. -/
def pmfMagic : List UInt8 := [0x50, 0x4D, 0x46, 0x31]

def loadPmf (data : List UInt8) : Result Pmf :=
  let bad (reason : String) : Result Pmf := Result.reject .format "load" "pmf" reason
  if data.length < 20 ∨ data.take 4 ≠ pmfMagic then bad "bad magic"
  else
    let nL := rdU32 data 4
    let nO := rdU32 data 8
    let nT := rdU32 data 12
    if nL = 0 ∨ nL > kMaxLen ∨ nO = 0 ∨ nO > kMaxLen ∨ nT = 0 ∨ nT > kMaxTab then bad "bad counts"
    else if (nL + nO + nT) * 4 + 4 > data.length - 16 then bad "truncated arrays"
    else
      let offO := 16 + u32 (nL * 4)
      let offT := 16 + u32 (u32 (nL + nO) * 4)
      let cur := 16 + u32 (u32 (nL + nO + nT) * 4)
      let p : Pmf :=
        { lengths := rdI32s data 16 offO, offsets := rdI32s data offO offT, table := rdI32s data offT cur }
      let tag := rdU32 data cur
      let cur := cur + 4
      if tag = 1 then
        if data.length - cur < 24 then bad "truncated gaussian tail"
        else
          .ok { p with
            scaleMin := rdF64 data cur
            scaleMax := rdF64 data (cur + 8)
            scaleLevels := rdU32 data (cur + 16)
            indexSpace := rdU32 data (cur + 20)
            gaussian := true }
      else if tag = 2 then
        if data.length - cur < 8 then bad "truncated bitest tail"
        else .ok { p with qpNum := rdU32 data cur, channels := rdU32 data (cur + 4) }
      else bad "unknown tag"

/-- A field inside of the data has its whole length. -/
theorem field_length {data : List UInt8} {off size : Nat} (inside : off + size ≤ data.length) :
    ((data.drop off).take size).length = size := by
  rw [List.length_take, List.length_drop]
  omega

theorem rdU32_lt (data : List UInt8) (off : Nat) : rdU32 data off < 2 ^ 32 := by
  have lt := leVal_lt ((data.drop off).take 4)
  have len : ((data.drop off).take 4).length ≤ 4 := List.length_take_le _ _
  exact lt.trans_le (Nat.pow_le_pow_right (n := 256) (by decide) len)

/-- Two words are the value of their eight bytes. -/
theorem rdF64_eq {data : List UInt8} {off : Nat} (room : off + 8 ≤ data.length) :
    rdF64 data off = leVal ((data.drop off).take 8) := by
  have halves : (data.drop off).take 8 = (data.drop off).take 4 ++ (data.drop (off + 4)).take 4 := by
    rw [show (8 : Nat) = 4 + 4 from rfl, List.take_add, List.drop_drop]
  have len : ((data.drop off).take 4).length = 4 := field_length (by omega)
  rw [halves, leVal_append, len, rdF64, Nat.or_comm, shiftLeft_or (rdU32_lt data off), rdU32, rdU32]
  ring

@[simp] theorem rdI32s_length (data : List UInt8) (first last : Nat) :
    (rdI32s data first last).length = (last - first) / 4 := by
  simp [rdI32s]

end Rkvc.Mlvc
