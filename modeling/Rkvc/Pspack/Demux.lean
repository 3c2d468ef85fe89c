import Rkvc.Pspack.Mux

/-!
# The program stream demuxer

`Demux::next` scans the buffer for start codes and takes one packet after the
other, until an access unit is complete or more bytes are needed. Consumed bytes
are erased lazily, by the next call; a call that finds no start code keeps the
last three bytes of the buffer. `none` is a read outside the buffer.
-/

namespace Rkvc.Pspack
set_option autoImplicit false

structure Frame where
  annexb : List UInt8
  pts90 : Int := 0
  keyframe : Bool := false
  codec : VideoCodec := .hevc
  deriving DecidableEq, Repr

/-! ## Reading -/

def findScLoop (d : List UInt8) : Nat → Nat → Option Nat
  | 0, _ => none
  | fuel + 1, i =>
    if i + 2 < d.length then
      if bytesAt d i [0, 0, 1] then some i else findScLoop d fuel (i + 1)
    else none

/-- `find_sc`: the first start code from a position on. -/
def findSc (d : List UInt8) (start : Nat) : Option Nat := findScLoop d d.length start

def rdU16 (d : List UInt8) (i : Nat) : Option Nat :=
  match d.drop i with
  | hi :: lo :: _ => some (hi.toNat <<< 8 ||| lo.toNat)
  | _ => none

def rdPts (d : List UInt8) (i : Nat) : Option Nat :=
  match d.drop i with
  | p0 :: p1 :: p2 :: p3 :: p4 :: _ =>
    some (((p0.toNat >>> 1) &&& 7) <<< 30 ||| ((p1.toNat <<< 8 ||| p2.toNat) >>> 1) <<< 15 |||
      (p3.toNat <<< 8 ||| p4.toNat) >>> 1)
  | _ => none

/-! ## One packet -/

/-- What the bytes from a start code on are. Lengths count from the start code. -/
inductive Packet where
  /-- More bytes are needed. -/
  | short
  /-- `Format`. -/
  | refused
  | skip (len : Nat)
  /-- A program stream map, with the codec of its last video entry. -/
  | map (len : Nat) (codec : Option VideoCodec)
  | video (len : Nat) (aligned : Bool) (pts : Int) (payload : List UInt8)
  deriving DecidableEq, Repr

/-- The loop over the entries of the elementary stream map. -/
def esMapLoop (d : List UInt8) (esEnd : Nat) : Nat → Nat → Option VideoCodec → Option (Option VideoCodec)
  | 0, _, _ => none
  | fuel + 1, q, codec =>
    if q + 4 ≤ esEnd then
      match d[q]?, d[q + 1]?, rdU16 d (q + 2) with
      | some type, some sid, some ilen =>
        let codec := if 0xE0 ≤ sid ∧ sid ≤ 0xEF then
            if type = 0x1B then some .avc else if type = 0x24 then some .hevc else codec
          else codec
        esMapLoop d esEnd fuel (q + (4 + ilen)) codec
      | _, _, _ => none
    else some codec

/-- The map's table, between the header and the checksum, which is ignored. -/
def esMap (d : List UInt8) (stop : Nat) : Option (Option VideoCodec) :=
  let p := 6
  let mapEnd := stop - 4
  match rdU16 d (p + 2) with
  | none => none
  | some info =>
    let q := p + 4 + (info &&& 0x7FFF)
    if q + 2 ≤ mapEnd then
      match rdU16 d q with
      | none => none
      | some esLen => if q + 2 + esLen ≤ mapEnd then esMapLoop d (q + 2 + esLen) (esLen + 1) (q + 2) none else some none
    else some none

/-- A system header or a program stream map. -/
def readLengthPrefixed (d : List UInt8) (id : UInt8) : Option Packet :=
  if d.length < 6 then some .short
  else match rdU16 d 4 with
    | none => none
    | some len =>
      let stop := 6 + len
      if d.length < stop then some .short
      else if id = 0xBC ∧ 10 ≤ stop then (esMap d stop).map (.map stop)
      else some (.skip stop)

/-- The payload of a PES packet whose header has been read. -/
def readPayload (d : List UInt8) (id : UInt8) (len hlen : Nat) (pts : Int) : Option Packet :=
  let pay := 9 + hlen
  if len = 0 then
    if 0xE0 ≤ id then some .refused
    else match findSc d pay with
      | none => some .short
      | some nx => some (.skip nx)
  else if len < 3 + hlen then some .refused
  else
    let plen := len - 3 - hlen
    let stop := pay + plen
    if d.length < stop then some .short
    else if id < 0xE0 ∨ plen = 0 then some (.skip stop)
    else d[6]?.map fun flags1 => .video stop ((flags1 &&& 0x04) ≠ 0) pts ((d.drop pay).take plen)

def readPes (d : List UInt8) (id : UInt8) : Option Packet :=
  if d.length < 9 then some .short
  else match rdU16 d 4, d[7]?, d[8]? with
    | some len, some flags2, some hlen =>
      if d.length < 9 + hlen.toNat then some .short
      else if (flags2 &&& 0x80) ≠ 0 then
        if d.length < 14 then some .short
        else (rdPts d 9).bind fun pts => readPayload d id len hlen.toNat pts
      else readPayload d id len hlen.toNat 0
    | _, _, _ => none

def isPes (id : UInt8) : Bool := 0xBD ≤ id && id ≤ 0xBF || 0xC0 ≤ id && id ≤ 0xEF

/-- The packet at a start code; `d` begins with the start code. -/
def readPacket (d : List UInt8) : Option Packet :=
  if d.length < 4 then some .short
  else match d[3]? with
    | none => none
    | some id =>
      if id = 0xBA then some (if d.length < 14 then .short else .skip 14)
      else if id = 0xBB ∨ id = 0xBC then readLengthPrefixed d id
      else if id = 0xB7 ∨ id = 0xB9 then some (.skip 4)
      else if !isPes id then some (.skip 4)
      else readPes d id

/-! ## Access units -/

/-- The access unit under assembly, and the codec of the last map. -/
structure Assembly where
  au : List UInt8 := []
  auPts : Int := 0
  auOpen : Bool := false
  havePsm : Bool := false
  psmCodec : VideoCodec := .hevc
  deriving DecidableEq, Repr

namespace Assembly

/-- `Demux::emit_au`. -/
def emitAu (a : Assembly) : Result Frame × Assembly :=
  if !a.auOpen || a.au.isEmpty then (.error { status := .eof }, a)
  else
    let codec := if a.havePsm then a.psmCodec else sniff a.au
    (.ok { annexb := a.au, pts90 := a.auPts, keyframe := isKeyframe codec a.au, codec },
      { a with au := [], auOpen := false })

def setPsm (a : Assembly) : Option VideoCodec → Assembly
  | none => a
  | some codec => { a with havePsm := true, psmCodec := codec }

/-- Begin an access unit. -/
def start (a : Assembly) (pts : Int) (payload : List UInt8) : Assembly :=
  { a with au := payload, auPts := pts, auOpen := true }

end Assembly

structure Demux extends Assembly where
  buf : List UInt8 := []
  cursor : Nat := 0
  deriving DecidableEq, Repr

namespace Demux

/-- `Demux::append`. -/
def append (s : Demux) (data : List UInt8) : Status × Demux :=
  if data.isEmpty then (.ok, s)
  else if s.buf.length + data.length > kMaxBuffered then (.format, s)
  else (.ok, { s with buf := s.buf ++ data })

/-- The `for (;;)` of `next`, at a position of the buffer. -/
def nextLoop : Nat → Demux → Nat → Option (Result Frame × Demux)
  | 0, _, _ => none
  | fuel + 1, s, pos =>
    match findSc s.buf pos with
    | none =>
      -- keep a partial start code
      some (.error { status := .again }, { s with cursor := if s.buf.length > 3 then s.buf.length - 3 else 0 })
    | some sc =>
      match readPacket (s.buf.drop sc) with
      | none => none
      | some .short => some (.error { status := .again }, { s with cursor := sc })
      | some .refused => some (.error { status := .format }, s)
      | some (.skip len) => nextLoop fuel s (sc + len)
      | some (.map len codec) => nextLoop fuel { s with toAssembly := s.setPsm codec } (sc + len)
      | some (.video len aligned pts payload) =>
        if aligned then
          let opened : Demux := { s with toAssembly := s.emitAu.2.start pts payload, cursor := sc + len }
          match s.emitAu.1 with
          | .ok f => some (.ok f, opened)
          | .error _ => nextLoop fuel opened (sc + len)
        else if !s.auOpen then nextLoop fuel s (sc + len)
        else if s.au.length + payload.length > kMaxPayload then some (.error { status := .format }, s)
        else nextLoop fuel { s with au := s.au ++ payload, cursor := sc + len } (sc + len)

/-- Drop the consumed bytes. -/
def erase (s : Demux) : Demux := { s with buf := s.buf.drop s.cursor, cursor := 0 }

/-- `Demux::next`. -/
def next (s : Demux) : Option (Result Frame × Demux) := nextLoop (s.erase.buf.length + 1) s.erase 0

/-- `Demux::flush`. -/
def flush (s : Demux) : Result Frame × Demux := (s.emitAu.1, { s with toAssembly := s.emitAu.2 })

end Demux

end Rkvc.Pspack
