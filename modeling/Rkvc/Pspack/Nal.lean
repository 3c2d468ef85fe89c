import Mathlib.Data.List.Basic

/-!
# NAL units of an access unit

`for_each_nal` calls back with the header byte behind every three- or four-byte
start code; `sniff` guesses the codec from the header bytes and `is_keyframe`
looks for a type that only keyframes have.
-/

namespace Rkvc.Pspack
set_option autoImplicit false

inductive VideoCodec where
  | avc | hevc
  deriving DecidableEq, Repr

/-- The bytes at a position. -/
def bytesAt (d : List UInt8) (i : Nat) (bytes : List UInt8) : Bool := bytes.isPrefixOf (d.drop i)

def forEachNalLoop (d : List UInt8) : Nat → Nat → List UInt8
  | 0, _ => []
  | fuel + 1, i =>
    if i + 3 < d.length then
      if bytesAt d i [0, 0, 1] then
        d.getD (i + 3) 0 :: forEachNalLoop d fuel (i + 3)
      else if i + 4 < d.length && bytesAt d i [0, 0, 0, 1] then
        d.getD (i + 4) 0 :: forEachNalLoop d fuel (i + 4)
      else forEachNalLoop d fuel (i + 1)
    else []

/-- `for_each_nal`: the bytes it calls back with, in order. -/
def forEachNal (d : List UInt8) : List UInt8 := forEachNalLoop d d.length 0

/-- The header bytes that mean an HEVC keyframe: VPS, IDR_W_RADL, IDR_N_LP. -/
def hevcKey (b : UInt8) : Bool :=
  let t := (b >>> 1) &&& 0x3F
  t = 32 || t = 19 || t = 20

/-- The header bytes that mean an AVC keyframe: SPS, IDR. -/
def avcKey (b : UInt8) : Bool :=
  let t := b &&& 0x1F
  t = 5 || t = 7

/-- HEVC first: the low five bits of an HEVC header byte can alias AVC types. -/
def sniff (d : List UInt8) : VideoCodec :=
  if (forEachNal d).any hevcKey then .hevc
  else if (forEachNal d).any avcKey then .avc
  else .hevc

def isKeyframe (codec : VideoCodec) (data : List UInt8) : Bool :=
  (forEachNal data).any fun b => match codec with
    | .avc => avcKey b
    | .hevc => hevcKey b

end Rkvc.Pspack
