import Rkvc.Lib.Ans
import Rkvc.Mlvc.Rans.Coder

/-!
# The streaming rANS decoder

`mlvc::RansDecoder`. Every operation returns the decoder it leaves behind, also
when it fails: a failed read keeps the position it reached, and `decode` keeps
the values it wrote before the failure.
-/

namespace Rkvc.Mlvc
set_option autoImplicit false
open Lib

structure RansDecoder where
  variant : RansVariant
  state : Nat := 0
  data : List UInt8 := []
  pos : Nat := 0
  opened : Bool := false
  deriving DecidableEq, Repr

namespace RansDecoder

/-- The constructor. -/
def new (variant : RansVariant) : RansDecoder := { variant := variant }

/-- The bytes not read yet. -/
def rest (d : RansDecoder) : List UInt8 := d.data.drop d.pos

def readByte (d : RansDecoder) : Option (Nat × RansDecoder) :=
  if d.pos ≥ d.data.length then none
  else some ((d.data.getD d.pos 0).toNat, { d with pos := d.pos + 1 })

def readUnit32 (d : RansDecoder) : Option (Nat × RansDecoder) :=
  if d.data.length - d.pos < 4 then none
  else some (leVal ((d.data.drop d.pos).take 4), { d with pos := d.pos + 4 })

/-- The variant's read. -/
def readUnit (d : RansDecoder) : Option (Nat × RansDecoder) :=
  match d.variant with
  | .byte => d.readByte
  | .rans64 => d.readUnit32

/-- `init_state`'s reads: unit `i` is added at `i * width`. -/
def initLoop (width : Nat) : Nat → Nat → Nat → RansDecoder → Option Nat × RansDecoder
  | 0, _, x, d => (some x, d)
  | n + 1, i, x, d =>
    match d.readUnit with
    | none => (none, d)
    | some (u, d) => initLoop width n (i + 1) (x + u <<< (i * width)) d

/-- The state word: four bytes or two units. -/
def initWord (d : RansDecoder) : Option Nat × RansDecoder :=
  match d.variant with
  | .byte => initLoop 8 4 0 0 d
  | .rans64 => initLoop 32 2 0 0 d

def initState (d : RansDecoder) : Bool × RansDecoder :=
  match d.initWord with
  | (none, d) => (false, d)
  | (some x, d) => if x < d.variant.lower then (false, d) else (true, { d with state := x })

/-- `open`. A span always has its data pointer, so the null check is void. -/
def «open» (d : RansDecoder) (data : List UInt8) : Status × RansDecoder :=
  if data.length % d.variant.unitBytes ≠ 0 then (.format, d)
  else
    match { d with data := data, pos := 0, opened := false }.initState with
    | (false, d) => (.format, d)
    | (true, d) => (.ok, { d with opened := true })

def get (d : RansDecoder) (scaleBits : Nat) : Nat := u32 d.state &&& (u32 (1 <<< scaleBits) - 1)

/-- `while (x < kByteLower)`. Every round reads a byte, so the bytes left bound
the rounds. -/
def refillByte : Nat → Nat → RansDecoder → Option Nat × RansDecoder
  | 0, x, d => (some x, d)
  | fuel + 1, x, d =>
    if x < kByteLower then
      match d.readByte with
      | none => (none, d)
      | some (u, d) => refillByte fuel (u32 (u32 (x <<< 8) + u)) d
    else (some x, d)

def advance (d : RansDecoder) (start freq scaleBits : Nat) : Bool × RansDecoder :=
  let scale := u32 (1 <<< scaleBits)
  match d.variant with
  | .byte =>
    let x := u32 d.state
    let value := x &&& (scale - 1)
    let x := u32 (freq * (x >>> scaleBits) + value + (2 ^ 32 - start))
    match refillByte (d.data.length - d.pos + 1) x d with
    | (none, d) => (false, d)
    | (some x, d) => (true, { d with state := x })
  | .rans64 =>
    let x := d.state
    let value := u32 (x &&& (scale - 1))
    let x := u64 (freq * (x >>> scaleBits) + value + (2 ^ 64 - start))
    -- the source's loop leaves after its first round
    if x < k64Lower then
      match d.readUnit32 with
      | none => (false, d)
      | some (u, d) => (true, { d with state := u64 (u64 (x <<< 32) + u) })
    else (true, { d with state := x })

/-- `value = get(bits); advance(value, 1, bits)`. -/
def take (d : RansDecoder) (bits : Nat) : Option Nat × RansDecoder :=
  let value := d.get bits
  match d.advance value 1 bits with
  | (false, d) => (none, d)
  | (true, d) => (some value, d)

/-- `while (value == bypass_max)`. Each full step adds at least three to a count
of at most sixteen. -/
def countLoop (c : RansCoder) (maxDigits : Nat) : Nat → Nat → Nat → RansDecoder → Option Nat × RansDecoder
  | 0, _, count, d => (some count, d)
  | fuel + 1, value, count, d =>
    if value = c.bypassMax then
      match d.take c.bypassBits with
      | (none, d) => (none, d)
      | (some value, d) =>
        if count + value > maxDigits then (none, d)
        else countLoop c maxDigits fuel value (count + value) d
    else (some count, d)

/-- `for (shift = 0; shift < total_bits; shift += bypass_bits)`. -/
def digitLoop (c : RansCoder) : Nat → Nat → Nat → RansDecoder → Option Nat × RansDecoder
  | 0, _, encoded, d => (some encoded, d)
  | n + 1, shift, encoded, d =>
    match d.take c.bypassBits with
    | (none, d) => (none, d)
    | (some value, d) => digitLoop c n (shift + c.bypassBits) (encoded ||| u32 (value <<< shift)) d

def bypass (d : RansDecoder) (c : RansCoder) : Option Nat × RansDecoder :=
  match d.take c.bypassBits with
  | (none, d) => (none, d)
  | (some value, d) =>
    let maxDigits := 32 / c.bypassBits
    if value > maxDigits then (none, d)
    else
      match countLoop c maxDigits (maxDigits + 1) value value d with
      | (none, d) => (none, d)
      | (some count, d) => digitLoop c count 0 0 d

/-- The binary search: the first symbol whose range ends above `cum`. An interval
of `n` symbols is halved at most `n` times. -/
def search (base : List Nat) (cum : Nat) : Nat → Nat → Nat → Nat
  | 0, lo, _ => lo
  | fuel + 1, lo, hi =>
    if lo < hi then
      let mid := lo + (hi - lo) / 2
      if base.getD (mid + 1) 0 ≤ cum then search base cum fuel (mid + 1) hi
      else search base cum fuel lo mid
    else lo

/-- The value a bypass code stands for. -/
def unfoldBypass (sentinel : Nat) (bv : Nat) : Int :=
  if bv &&& 1 ≠ 0 then -(bv >>> 1 : Nat) - 1 else i32 ((bv >>> 1 : Nat) + sentinel)

/-- The loop body of `decode` for an index that selects a distribution. -/
def decodeSymbol (c : RansCoder) (desc : RansDist) (d : RansDecoder) : Option Int32 × RansDecoder :=
  let cum := d.get c.symbolBits
  let base := c.cdfTable.drop desc.decCdfOffset
  let symbol := search base cum (desc.bypassSentinel + 1) 0 (desc.bypassSentinel + 1)
  if symbol > desc.bypassSentinel then (none, d)
  else
    let start := base.getD symbol 0
    let freq := base.getD (symbol + 1) 0 - base.getD symbol 0
    match d.advance start freq c.symbolBits with
    | (false, d) => (none, d)
    | (true, d) =>
      if symbol = desc.bypassSentinel then
        match d.bypass c with
        | (none, d) => (none, d)
        | (some bv, d) =>
          (some (Int32.ofInt (unfoldBypass desc.bypassSentinel bv - desc.valueOffset.toInt)), d)
      else (some (Int32.ofInt (symbol - desc.valueOffset.toInt)), d)

/-- The loop body of `decode`. -/
def decodeOne (c : RansCoder) (index : Int32) (d : RansDecoder) : Option Int32 × RansDecoder :=
  if index.toInt < 0 then (some 0, d) else decodeSymbol c (c.dist index.toInt.toNat) d

/-- The loop of `decode`: the status, the values array, the decoder. -/
def decodeLoop (c : RansCoder) : List Int32 → List Int32 → RansDecoder → Status × List Int32 × RansDecoder
  | value :: values, index :: indices, d =>
    match decodeOne c index d with
    | (none, d) => (.format, value :: values, d)
    | (some v, d) =>
      let (status, values, d) := decodeLoop c values indices d
      (status, v :: values, d)
  | values, _, d => (.ok, values, d)

def decode (c : RansCoder) (values indices : List Int32) (d : RansDecoder) :
    Status × List Int32 × RansDecoder :=
  if values.length ≠ indices.length then (.invalid, values, d)
  else if !d.opened || c.dists.isEmpty || c.cdfTable.isEmpty then (.invalid, values, d)
  else decodeLoop c values indices d

def checkEof (d : RansDecoder) : Bool :=
  if !d.opened || d.pos ≠ d.data.length then false
  else
    match d.variant with
    | .byte => u32 d.state = kByteLower
    | .rans64 => d.state = k64Lower

end RansDecoder

end Rkvc.Mlvc
