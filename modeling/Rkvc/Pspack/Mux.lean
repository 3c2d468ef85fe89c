import Rkvc.Core.Status
import Rkvc.Lib.BigEndian
import Rkvc.Lib.Word
import Rkvc.Pspack.Nal

/-!
# The program stream multiplexer

`mux_frame` writes one access unit as a run of packs: a pack header and a PES
packet for every `kPesChunk` bytes, with a system header and a program stream
map in the first pack of a keyframe. The first PES packet carries the timestamp
and is marked as aligned.
-/

namespace Rkvc.Pspack
set_option autoImplicit false

open Lib

def kMaxPayload : Nat := 64 <<< 20

def kMaxBuffered : Nat := kMaxPayload + 1 <<< 20

/-- The most elementary-stream bytes of one PES packet. -/
def kPesChunk : Nat := 60000

def kVideoStreamId : UInt8 := 0xE0

def wrStart (o : List UInt8) (id : UInt8) : List UInt8 := o ++ [0, 0, 1, id]

def wrU16 (o : List UInt8) (v : Nat) : List UInt8 := o ++ [UInt8.ofNat (v >>> 8), UInt8.ofNat v]

def wrU32be (o : List UInt8) (v : Nat) : List UInt8 :=
  o ++ [UInt8.ofNat (v >>> 24), UInt8.ofNat (v >>> 16), UInt8.ofNat (v >>> 8), UInt8.ofNat v]

/-- The 33 bits of a timestamp that the stream carries. -/
def clock33 (pts : Int) : Nat := (if pts < 0 then 0 else pts.toNat) &&& 0x1FFFFFFFF

def ptsFields (p : Nat) : List (Nat × Nat) :=
  [(0x2, 4), (u32 (p >>> 30), 3), (1, 1), (u32 (p >>> 15), 15), (1, 1), (u32 p, 15), (1, 1)]

def wrPts (o : List UInt8) (pts : Int) : List UInt8 :=
  (({ out := o } : BitWriter).puts (ptsFields (clock33 pts))).out

def crcRound (c : Nat) : Nat := if c &&& 1 = 1 then (c >>> 1) ^^^ 0xEDB88320 else c >>> 1

def crcByte (c : Nat) (b : UInt8) : Nat := crcRound^[8] (c ^^^ b.toNat)

def crc32 (d : List UInt8) : Nat := d.foldl crcByte 0xFFFFFFFF ^^^ 0xFFFFFFFF

def streamType : VideoCodec → UInt8
  | .avc => 0x1B
  | .hevc => 0x24

/-! ## The packets of a pack -/

def packFields (scr rate : Nat) : List (Nat × Nat) :=
  [(1, 2), (u32 (scr >>> 30), 3), (1, 1), (u32 (scr >>> 15), 15), (1, 1), (u32 scr, 15), (1, 1), (0, 9), (1, 1),
    (rate, 22), (1, 1), (1, 1), (0x1F, 5), (0, 3)]

def wrPack (o : List UInt8) (scr rate : Nat) : List UInt8 :=
  (({ out := wrStart o 0xBA } : BitWriter).puts (packFields scr rate)).out

def systemFields (rate : Nat) : List (Nat × Nat) :=
  [(1, 1), (rate, 22), (1, 1), (0, 6), (0, 1), (0, 1), (0, 1), (0, 1), (1, 1), (1, 5), (0, 1), (0x7F, 7),
    (kVideoStreamId.toNat, 8), (3, 2), (1, 1), (230, 13)]

def wrSystem (o : List UInt8) (rate : Nat) : List UInt8 :=
  (({ out := wrU16 (wrStart o 0xBB) 9 } : BitWriter).puts (systemFields rate)).out

def psmTable (codec : VideoCodec) : List UInt8 :=
  [0xC0, 0xFF, 0x00, 0x00, 0x00, 0x04, streamType codec, kVideoStreamId, 0x00, 0x00]

def wrPsm (o : List UInt8) (codec : VideoCodec) : List UInt8 :=
  wrU32be (wrU16 (wrStart o 0xBC) ((psmTable codec).length + 4) ++ psmTable codec) (crc32 (psmTable codec))

def wrPes (o : List UInt8) (first : Bool) (pts90 : Int) (chunk : List UInt8) : List UInt8 :=
  (if first then
    wrPts (wrU16 (wrStart o kVideoStreamId) (3 + 5 + chunk.length) ++ [0x84, 0x80, 5]) pts90
  else
    wrU16 (wrStart o kVideoStreamId) (3 + chunk.length) ++ [0x80, 0x00, 0]) ++ chunk

/-! ## Access units -/

/-- The `while` loop over the access unit. -/
def muxLoop (codec : VideoCodec) (annexb : List UInt8) (pts90 : Int) (keyframe : Bool) (rate : Nat) :
    Nat → Nat → Bool → List UInt8 → List UInt8
  | 0, _, _, out => out
  | fuel + 1, off, first, out =>
    if off < annexb.length then
      let chunk := if annexb.length - off > kPesChunk then kPesChunk else annexb.length - off
      let packed := wrPack out (clock33 pts90) rate
      let mapped := if keyframe && first then wrPsm (wrSystem packed rate) codec else packed
      muxLoop codec annexb pts90 keyframe rate fuel (off + chunk) false
        (wrPes mapped first pts90 ((annexb.drop off).take chunk))
    else out

/-- `mux_frame`; `muxRate50bs` is its option. -/
def muxFrame (codec : VideoCodec) (annexb : List UInt8) (pts90 : Int) (keyframe : Bool)
    (muxRate50bs : Nat := 25000) : Result (List UInt8) :=
  if annexb.length = 0 then .error { status := .invalid }
  else if annexb.length > kMaxPayload then .error { status := .format }
  else .ok (muxLoop codec annexb pts90 keyframe (muxRate50bs &&& 0x3FFFFF) annexb.length 0 true [])

end Rkvc.Pspack
