import Rkvc.Lib.Ans
import Rkvc.Mlvc.Rans.Coder

/-!
# The streaming rANS encoder

`mlvc::RansEncoder`. Data is encoded back to front into a buffer that fills
downwards and doubles when it is full: `content`, the bytes from the write
position on, is all that leaves the encoder, and a write puts its bytes in
front of it whether or not the buffer had to grow (`RansEncoder.write_content`).
Sizes are unbounded naturals, so the size overflow that sets `oom` is there but
never reached.
-/

namespace Rkvc.Mlvc
set_option autoImplicit false
open Lib

/-- `static_cast<uint64_t>((static_cast<__uint128_t>(a) * b) >> 64)`. -/
def mul64hi (a b : Nat) : Nat := u64 ((a * b) >>> 64)

structure RansEncoder where
  variant : RansVariant
  state : Nat
  buf : List UInt8
  /-- Write position, grows downward. -/
  ptr : Nat
  flushed : Bool := false
  oom : Bool := false
  deriving DecidableEq, Repr

namespace RansEncoder

/-- The constructor. -/
def new (variant : RansVariant) (initialCapacity : Nat) : RansEncoder :=
  let capacity := if initialCapacity < 512 then 512 else initialCapacity
  { variant := variant, state := variant.lower, buf := List.replicate capacity 0, ptr := capacity }

/-- The bytes written so far, `[ptr, end)`. -/
def content (e : RansEncoder) : List UInt8 := e.buf.drop e.ptr

def grow (e : RansEncoder) : Bool × RansEncoder :=
  if e.oom || e.buf.isEmpty then (false, e)
  else
    let cap := e.buf.length
    let ncap := cap * 2
    let ncap := if ncap < cap + 65536 then cap + 65536 else ncap
    if ncap ≤ cap then (false, { e with oom := true })
    else
      let content := cap - e.ptr
      (true, { e with buf := List.replicate (ncap - content) 0 ++ e.buf.drop e.ptr, ptr := ncap - content })

/-- The common body of `write_byte` and `write_unit32`. -/
def write (e : RansEncoder) (bytes : List UInt8) : RansEncoder :=
  if e.oom || e.buf.isEmpty then e
  else
    let (room, e) := if e.ptr < bytes.length then e.grow else (true, e)
    if !room || e.ptr < bytes.length then e
    else
      { e with
        buf := e.buf.take (e.ptr - bytes.length) ++ bytes ++ e.buf.drop e.ptr
        ptr := e.ptr - bytes.length }

def writeByte (e : RansEncoder) (v : UInt8) : RansEncoder := e.write [v]

/-- The unit is stored little-endian. -/
def writeUnit32 (e : RansEncoder) (v : Nat) : RansEncoder := e.write (leBytes 4 v)

/-- The loop of `renorm_byte`. Four rounds empty a 32-bit word, and every
threshold of an accepted coder is positive. -/
def renormByteLoop (xMax : Nat) : Nat → RansEncoder → Nat → RansEncoder × Nat
  | 0, e, x => (e, x)
  | fuel + 1, e, x =>
    if x ≥ xMax then renormByteLoop xMax fuel (e.writeByte (UInt8.ofNat x)) (x >>> 8) else (e, x)

def renormByte (e : RansEncoder) (xMax : Nat) : RansEncoder :=
  let (e, x) := renormByteLoop xMax 4 e (u32 e.state)
  { e with state := x }

/-- The source's loop leaves after its first round. -/
def renorm64 (e : RansEncoder) (xMax : Nat) : RansEncoder :=
  let x := e.state
  if x ≥ xMax then { e.writeUnit32 (u32 x) with state := x >>> 32 } else { e with state := x }

def putSymByte (e : RansEncoder) (s : RansEncSym) : RansEncoder :=
  let e := e.renormByte s.xMaxHi
  let x := u32 e.state
  let q := u32 (u64 (x * s.freqRcp) >>> s.freqRcpShift)
  { e with state := u32 (x + q * s.freqCmpl + s.bias) }

def putSym64 (e : RansEncoder) (s : RansEncSym) : RansEncoder :=
  let xMax := u64 (s.xMaxHi <<< 32)
  let e := e.renorm64 xMax
  let x := e.state
  let rcp := u64 (s.freqRcpHi <<< 32) ||| s.freqRcp
  let q := mul64hi x rcp >>> s.freqRcpShift
  { e with state := u64 (x + q * s.freqCmpl + s.bias) }

def putRaw (e : RansEncoder) (start freq scaleBits : Nat) : RansEncoder :=
  match e.variant with
  | .byte =>
    let xMax := u32 (freq <<< (kByteStateBits - scaleBits))
    let e := e.renormByte xMax
    let x := u32 e.state
    { e with state := u32 ((x / freq) <<< scaleBits + start + x % freq) }
  | .rans64 =>
    let xMax := u64 (freq <<< (63 - scaleBits))
    let e := e.renorm64 xMax
    let x := e.state
    { e with state := u64 ((x / freq) <<< scaleBits + start + x % freq) }

/-- `encode`'s choice between the two symbol steps. -/
def putSym (e : RansEncoder) (s : RansEncSym) : RansEncoder :=
  match e.variant with
  | .byte => e.putSymByte s
  | .rans64 => e.putSym64 s

/-- `while (v != 0)`: the digits of a bypassed value, lowest first. A digit has
at least two bits, so sixteen rounds empty the word. -/
def bypassDigits (c : RansCoder) : Nat → Nat → List Nat
  | 0, _ => []
  | fuel + 1, v => if v ≠ 0 then (v &&& c.bypassMax) :: bypassDigits c fuel (v >>> c.bypassBits) else []

/-- `while (count >= bypass_max)`: what is left of the count, and the number of
full steps taken off it. -/
def splitCount (max : Nat) : Nat → Nat → Nat × Nat
  | 0, count => (count, 0)
  | fuel + 1, count =>
    if count ≥ max then
      let (rest, full) := splitCount max fuel (count - max)
      (rest, full + 1)
    else (count, 0)

def bypass (e : RansEncoder) (c : RansCoder) (v : Nat) : RansEncoder :=
  let digits := bypassDigits c 16 v
  let e := digits.foldr (fun digit e => e.putRaw digit 1 c.bypassBits) e
  let (count, full) := splitCount c.bypassMax digits.length digits.length
  let e := e.putRaw count 1 c.bypassBits
  (List.replicate full c.bypassMax).foldl (fun e max => e.putRaw max 1 c.bypassBits) e

/-- The bypass code of a value outside `[0, sentinel)`: odd below, even from the
sentinel up. -/
def foldBypass (sentinel : Nat) (value : Int) : Nat :=
  if value < 0 then toU32 (2 * i32 (-value) - 1) else toU32 (2 * (value - sentinel))

/-- The loop body of `encode`. -/
def encodeOne (c : RansCoder) (index value : Int32) (e : RansEncoder) : Status × RansEncoder :=
  if index.toInt < 0 then (.ok, e)
  else
    let desc := c.dist index.toInt.toNat
    let value := i32 (value.toInt + desc.valueOffset.toInt)
    let (e, value) :=
      if value < 0 ∨ value ≥ desc.bypassSentinel then
        (e.bypass c (foldBypass desc.bypassSentinel value), desc.bypassSentinel)
      else (e, value.toNat)
    let sym := c.encSyms.getD (desc.encSymOffset + value) {}
    let e := e.putSym sym
    if e.oom then (.nomem, e) else (.ok, e)

/-- The loop of `encode`, which runs from the last value to the first. -/
def encodeLoop (c : RansCoder) : List Int32 → List Int32 → RansEncoder → Status × RansEncoder
  | index :: indices, value :: values, e =>
    match encodeLoop c indices values e with
    | (.ok, e) => encodeOne c index value e
    | failed => failed
  | _, _, e => (.ok, e)

def encode (c : RansCoder) (indices values : List Int32) (e : RansEncoder) : Status × RansEncoder :=
  if indices.length ≠ values.length then (.invalid, e)
  else if c.dists.isEmpty || c.encSyms.isEmpty then (.invalid, e)
  else if e.flushed || e.oom || e.buf.isEmpty then (.invalid, e)
  else encodeLoop c indices values e

/-- `flush`: the status, the finished bytes, and the encoder. -/
def flush (e : RansEncoder) : Status × List UInt8 × RansEncoder :=
  if e.flushed || e.oom || e.buf.isEmpty then (.invalid, [], e)
  else
    let e := match e.variant with
      | .byte =>
        let x := u32 e.state
        (((e.writeByte (UInt8.ofNat (x >>> 24))).writeByte (UInt8.ofNat (x >>> 16))).writeByte
          (UInt8.ofNat (x >>> 8))).writeByte (UInt8.ofNat x)
      | .rans64 =>
        let x := e.state
        (e.writeUnit32 (u32 (x >>> 32))).writeUnit32 (u32 x)
    if e.oom then (.nomem, [], e)
    else (.ok, e.content, { e with flushed := true })

def reset (e : RansEncoder) : RansEncoder :=
  { e with ptr := e.buf.length, flushed := false, state := e.variant.lower }

/-! ## The buffer -/

/-- An encoder that takes data: the guard of `encode`, and the write position
within the buffer. -/
structure Open (e : RansEncoder) : Prop where
  oom : e.oom = false
  flushed : e.flushed = false
  buf : e.buf ≠ []
  ptr : e.ptr ≤ e.buf.length

theorem new_open (variant : RansVariant) (capacity : Nat) : (new variant capacity).Open where
  oom := rfl
  flushed := rfl
  buf := by
    simp only [new, ne_eq, List.replicate_eq_nil_iff]
    split <;> omega
  ptr := by simp [new]

@[simp] theorem new_content (variant : RansVariant) (capacity : Nat) :
    (new variant capacity).content = [] := by
  simp [new, content]

@[simp] theorem new_state (variant : RansVariant) (capacity : Nat) :
    (new variant capacity).state = variant.lower := rfl

@[simp] theorem new_variant (variant : RansVariant) (capacity : Nat) :
    (new variant capacity).variant = variant := rfl

theorem Open.with_state {e : RansEncoder} (h : e.Open) (x : Nat) : { e with state := x }.Open :=
  ⟨h.oom, h.flushed, h.buf, h.ptr⟩

/-- The guard of `encode` and `flush` passes. -/
theorem Open.ready {e : RansEncoder} (h : e.Open) : (e.flushed || e.oom || e.buf.isEmpty) = false := by
  simp [h.flushed, h.oom, h.buf]

/-- Growing keeps the content and makes room in front of it. -/
theorem grow_spec {e : RansEncoder} (h : e.Open) :
    ∃ g, e.grow = (true, g) ∧ g.Open ∧ g.content = e.content ∧ g.state = e.state ∧
      g.variant = e.variant ∧ 65536 ≤ g.ptr := by
  have room := h.ptr
  have cap_pos := List.length_pos_iff.2 h.buf
  have guard : (e.oom || e.buf.isEmpty) = false := by simp [h.oom, h.buf]
  obtain ⟨ncap, wide, hncap⟩ : ∃ n, e.buf.length + 65536 ≤ n ∧
      (if e.buf.length * 2 < e.buf.length + 65536 then e.buf.length + 65536 else e.buf.length * 2) = n :=
    ⟨_, by split <;> omega, rfl⟩
  simp only [grow, guard, hncap, Bool.false_eq_true, if_false]
  rw [if_neg (by omega)]
  refine ⟨_, rfl, ⟨h.oom, h.flushed, ?_, ?_⟩, ?_, rfl, rfl, ?_⟩
  · intro nil
    have := congrArg List.length nil
    simp only [List.length_append, List.length_replicate, List.length_drop, List.length_nil] at this
    omega
  · simp only [List.length_append, List.length_replicate, List.length_drop]
    omega
  · simp [content, List.drop_left']
  · dsimp only
    omega

/-- **A write puts its bytes in front of the content**, whether the buffer grows
or not. -/
theorem write_spec {e : RansEncoder} {bytes : List UInt8} (h : e.Open) (short : bytes.length ≤ 65536) :
    (e.write bytes).Open ∧ (e.write bytes).content = bytes ++ e.content ∧
      (e.write bytes).state = e.state ∧ (e.write bytes).variant = e.variant := by
  obtain ⟨g, room, hopen, hcontent, hstate, hvariant, hbytes⟩ : ∃ g : RansEncoder,
      (if e.ptr < bytes.length then e.grow else (true, e)) = (true, g) ∧ g.Open ∧
        g.content = e.content ∧ g.state = e.state ∧ g.variant = e.variant ∧ bytes.length ≤ g.ptr := by
    by_cases full : e.ptr < bytes.length
    · obtain ⟨g, hg, hopen, hcontent, hstate, hvariant, wide⟩ := grow_spec h
      exact ⟨g, by rw [if_pos full, hg], hopen, hcontent, hstate, hvariant, by omega⟩
    · exact ⟨e, by rw [if_neg full], h, rfl, rfl, rfl, by omega⟩
  have guard : (e.oom || e.buf.isEmpty) = false := by simp [h.oom, h.buf]
  have stored : e.write bytes = { g with
      buf := g.buf.take (g.ptr - bytes.length) ++ bytes ++ g.buf.drop g.ptr
      ptr := g.ptr - bytes.length } := by
    simp only [write, guard, room, Bool.false_eq_true, if_false, Bool.not_true, Bool.false_or,
      decide_eq_true_eq]
    rw [if_neg (by omega)]
  have inside := hopen.ptr
  have front : (g.buf.take (g.ptr - bytes.length)).length = g.ptr - bytes.length := by
    rw [List.length_take]; omega
  rw [stored]
  refine ⟨⟨hopen.oom, hopen.flushed, ?_, ?_⟩, ?_, hstate, hvariant⟩
  · intro nil
    have := congrArg List.length nil
    have pos := List.length_pos_iff.2 hopen.buf
    simp only [List.length_append, front, List.length_drop, List.length_nil] at this
    omega
  · simp only [List.length_append, front, List.length_drop]
    omega
  · rw [← hcontent]
    simp [content, List.drop_left' front]

end RansEncoder

end Rkvc.Mlvc
