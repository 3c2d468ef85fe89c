import Rkvc.Lib.Incremental
import Rkvc.Mlvc.Pmf

/-!
# The `.mlvc` container

A header of 64 bytes, then records: 16 bytes and the payload. `Demuxer` takes bytes
as they come; `next` returns a view of the first record in the buffer, and
`consume_record` drops it. An empty buffer has no data pointer, and `parse_header`
refuses a null pointer before it looks at the size.
-/

namespace Rkvc.Mlvc
set_option autoImplicit false
open Lib

def kHdrSize : Nat := 64
def kRecSize : Nat := 16
def kMaxFrameBytes : Nat := 64 <<< 20
def kQindexDropped : Int32 := -1
def kRecKeyframe : UInt32 := 1
def kRecLtrMark : UInt32 := 2
def kRecLtrRecovery : UInt32 := 4
def kHdrProactiveLtr : UInt32 := 1
def kHdrCbr : UInt32 := 2

structure Header where
  width : UInt32 := 0
  height : UInt32 := 0
  fpsNum : UInt32 := 30
  fpsDen : UInt32 := 1
  qp : UInt32 := 0
  frameCount : UInt32 := 0
  iframePeriod : UInt32 := 0
  ltrStartIdx : UInt32 := 0
  ltrPeriod : UInt32 := 0
  flags : UInt32 := 0
  targetBitrateBps : UInt32 := 0
  deriving DecidableEq, Repr

/-! ## Writing -/

def wrU32 (v : UInt32) : List UInt8 := leBytes 4 v.toNat

/-- `"MLVC1"`. -/
def mlvcMagic : List UInt8 := [0x4D, 0x4C, 0x56, 0x43, 0x31]

def writeHeader (hdr : Header) : List UInt8 :=
  mlvcMagic ++ [2, 0, 0] ++ wrU32 hdr.width ++ wrU32 hdr.height ++
    wrU32 (if hdr.fpsNum ≠ 0 then hdr.fpsNum else 30) ++ wrU32 (if hdr.fpsDen ≠ 0 then hdr.fpsDen else 1) ++
    wrU32 hdr.qp ++ [0, 0, 0, 0] ++ wrU32 hdr.iframePeriod ++ wrU32 hdr.ltrStartIdx ++ wrU32 hdr.ltrPeriod ++
    wrU32 hdr.flags ++ wrU32 hdr.targetBitrateBps ++ List.replicate 12 0

def writeRecord (payloadSize : UInt32) (qIndex : Int32) (flags : UInt32) : List UInt8 :=
  wrU32 payloadSize ++ wrU32 qIndex.toUInt32 ++ wrU32 flags ++ wrU32 0

/-! ## Reading -/

def rdWord (data : List UInt8) (off : Nat) : UInt32 := UInt32.ofNat (rdU32 data off)

/-- `parse_header`; the data pointer of an empty buffer is null. -/
def parseHeader (data : List UInt8) : Result Header :=
  if data = [] then .error { status := .format }
  else if data.length < kHdrSize then .error { status := .again }
  else if data.take 5 ≠ mlvcMagic ∨ data[5]? ≠ some 2 then .error { status := .format }
  else
    let h : Header :=
      { width := rdWord data 8
        height := rdWord data 12
        fpsNum := rdWord data 16
        fpsDen := rdWord data 20
        qp := rdWord data 24
        frameCount := rdWord data 28
        iframePeriod := rdWord data 32
        ltrStartIdx := rdWord data 36
        ltrPeriod := rdWord data 40
        flags := rdWord data 44
        targetBitrateBps := rdWord data 48 }
    if h.width = 0 ∨ h.height = 0 then .error { status := .format } else .ok h

/-- A record of the buffer: its payload is what `data` points to. -/
structure View where
  drop : Bool := false
  qIndex : Int32 := 0
  flags : UInt32 := 0
  data : List UInt8 := []
  deriving DecidableEq, Repr

/-- The record at the front of the buffer. -/
inductive RecordRead where
  /-- More bytes are needed. -/
  | short
  | malformed
  | record (v : View)
  deriving DecidableEq, Repr

def readRecord (buf : List UInt8) : RecordRead :=
  if buf.length < kRecSize then .short
  else
    let sz := (rdWord buf 0).toNat
    let qi := (rdWord buf 4).toInt32
    let flags := rdWord buf 8
    if qi = kQindexDropped then
      if sz ≠ 0 then .malformed else .record { drop := true, qIndex := qi, flags }
    else if sz = 0 ∨ sz > kMaxFrameBytes then .malformed
    else if buf.length < kRecSize + sz then .short
    else .record { qIndex := qi, flags, data := (buf.drop kRecSize).take sz }

/-- The bytes of the record. -/
def View.size (v : View) : Nat := kRecSize + v.data.length

/-! ## The demuxer -/

structure Demuxer where
  buf : List UInt8 := []
  header : Header := {}
  haveHeader : Bool := false
  parseError : Bool := false
  framesEmitted : Nat := 0
  /-- The bytes to drop on `consume_record`. -/
  lastRecord : Nat := 0
  deriving DecidableEq, Repr

namespace Demuxer

def append (d : Demuxer) (data : List UInt8) : Status × Demuxer :=
  if d.parseError then (.format, d)
  else if data = [] then (.ok, d)
  else if data.length > kSizeMax - d.buf.length then (.nomem, d)
  else (.ok, { d with buf := d.buf ++ data })

/-- `next`, behind the header. -/
def nextRecord (d : Demuxer) : Result View × Demuxer :=
  match readRecord d.buf with
  | .short => (.error { status := .again }, d)
  | .malformed => (.error { status := .format }, { d with parseError := true })
  | .record v => (.ok v, { d with lastRecord := v.size, framesEmitted := d.framesEmitted + 1 })

def next (d : Demuxer) : Result View × Demuxer :=
  if d.parseError then (.error { status := .format }, d)
  else if d.haveHeader then d.nextRecord
  else
    match parseHeader d.buf with
    | .error e =>
      if e.status = .again then (.error { status := .again }, d)
      else (.error { status := .format }, { d with parseError := true })
    | .ok h => nextRecord { d with header := h, haveHeader := true, buf := d.buf.drop kHdrSize }

def consumeRecord (d : Demuxer) : Demuxer :=
  if d.lastRecord = 0 ∨ d.lastRecord > d.buf.length then d
  else { d with buf := d.buf.drop d.lastRecord, lastRecord := 0 }

end Demuxer

/-! ## What a reader settles stays settled -/

section Stable

variable {w y : List UInt8} {off : Nat} {v : View}

theorem rdWord_append (inside : off + 4 ≤ w.length) (y : List UInt8) : rdWord (w ++ y) off = rdWord w off := by
  rw [rdWord, rdWord, rdU32, rdU32, List.drop_append_of_le_length (by omega),
    List.take_append_of_le_length (by rw [List.length_drop]; omega)]

theorem parseHeader_append (long : kHdrSize ≤ w.length) (y : List UInt8) : parseHeader (w ++ y) = parseHeader w := by
  have len : ¬(w ++ y).length < kHdrSize := by rw [List.length_append]; omega
  simp only [kHdrSize] at long
  have some : w ≠ [] := List.ne_nil_of_length_pos (by omega)
  have some' : w ++ y ≠ [] := by simp [some]
  have magic : (w ++ y).take 5 = w.take 5 := List.take_append_of_le_length (by omega)
  have byte : (w ++ y)[5]? = w[5]? := List.getElem?_append_left (by omega)
  have word : ∀ {off}, off + 4 ≤ 64 → rdWord (w ++ y) off = rdWord w off := fun h => rdWord_append (by omega) y
  simp only [parseHeader, if_neg some, if_neg some', if_neg len, if_neg (show ¬w.length < kHdrSize by simpa [kHdrSize]),
    magic, byte, word (show 8 + 4 ≤ 64 by decide), word (show 12 + 4 ≤ 64 by decide),
    word (show 16 + 4 ≤ 64 by decide), word (show 20 + 4 ≤ 64 by decide), word (show 24 + 4 ≤ 64 by decide),
    word (show 28 + 4 ≤ 64 by decide), word (show 32 + 4 ≤ 64 by decide), word (show 36 + 4 ≤ 64 by decide),
    word (show 40 + 4 ≤ 64 by decide), word (show 44 + 4 ≤ 64 by decide), word (show 48 + 4 ≤ 64 by decide)]

theorem parseHeader_ok {hdr : Header} (h : parseHeader w = .ok hdr) : kHdrSize ≤ w.length := by
  simp only [parseHeader] at h
  split at h
  · cases h
  · split at h
    · cases h
    · omega

theorem parseHeader_status {e : Failure} (h : parseHeader w = .error e) (settled : e.status ≠ .again) :
    e.status = .format := by
  simp only [parseHeader] at h
  split at h
  · cases h
    rfl
  · split at h
    · cases h
      exact absurd rfl settled
    · split at h
      · cases h
        rfl
      · split at h
        · cases h
          rfl
        · cases h

theorem readRecord_append (settled : readRecord w ≠ .short) (y : List UInt8) : readRecord (w ++ y) = readRecord w := by
  have header : kRecSize = 16 := rfl
  simp only [readRecord, List.length_append] at settled ⊢
  by_cases short : w.length < kRecSize
  · rw [if_pos short] at settled
    exact absurd rfl settled
  rw [if_neg short] at settled ⊢
  rw [if_neg (by omega), rdWord_append (by omega), rdWord_append (by omega), rdWord_append (by omega)]
  generalize rdWord w 0 = size at settled ⊢
  split
  · rfl
  · rename_i kept
    rw [if_neg kept] at settled
    split
    · rfl
    · rename_i fits
      rw [if_neg fits] at settled
      by_cases cut : w.length < kRecSize + size.toNat
      · rw [if_pos cut] at settled
        exact absurd rfl settled
      · rw [if_neg cut, if_neg (by omega), List.drop_append_of_le_length (by omega),
          List.take_append_of_le_length (by rw [List.length_drop]; omega)]

theorem readRecord_record (h : readRecord w = .record v) : 0 < v.size ∧ v.size ≤ w.length := by
  simp only [readRecord] at h
  split at h
  · cases h
  · rename_i long
    split at h
    · split at h
      · cases h
      · cases h
        simp only [View.size, kRecSize] at long ⊢
        simp only [List.length_nil]
        omega
    · split at h
      · cases h
      · split at h
        · cases h
        · rename_i whole
          cases h
          simp only [View.size, kRecSize, List.length_take, List.length_drop] at long whole ⊢
          omega

end Stable

/-! ## Reading back what was written -/

section RoundTrip

theorem wrU32_bytes (v : UInt32) : ∃ a b c d, wrU32 v = [a, b, c, d] ∧ UInt32.ofNat (leVal [a, b, c, d]) = v := by
  obtain ⟨a, b, c, d, shape⟩ : ∃ a b c d, wrU32 v = [a, b, c, d] := ⟨_, _, _, _, rfl⟩
  refine ⟨a, b, c, d, shape, ?_⟩
  rw [← shape, wrU32, leVal_leBytes (show v.toNat < 256 ^ 4 from v.toNat_lt)]
  exact UInt32.ofNat_toNat

theorem writeHeader_length (hdr : Header) : (writeHeader hdr).length = kHdrSize := by
  simp [writeHeader, wrU32, mlvcMagic, kHdrSize]

theorem writeRecord_length (size : UInt32) (q : Int32) (flags : UInt32) :
    (writeRecord size q flags).length = kRecSize := by
  simp [writeRecord, wrU32, kRecSize]

/-- What a header is read back as. -/
def Header.normal (hdr : Header) : Header :=
  { hdr with
    fpsNum := if hdr.fpsNum ≠ 0 then hdr.fpsNum else 30
    fpsDen := if hdr.fpsDen ≠ 0 then hdr.fpsDen else 1
    frameCount := 0 }

theorem parseHeader_writeHeader {hdr : Header} (width : hdr.width ≠ 0) (height : hdr.height ≠ 0) (y : List UInt8) :
    parseHeader (writeHeader hdr ++ y) = .ok hdr.normal := by
  rw [parseHeader_append (by rw [writeHeader_length])]
  have long : ¬(writeHeader hdr).length < kHdrSize := by rw [writeHeader_length]; exact Nat.lt_irrefl _
  have filled : writeHeader hdr ≠ [] := List.ne_nil_of_length_pos (by rw [writeHeader_length]; decide)
  obtain ⟨w₀, w₁, w₂, w₃, hw, rw_⟩ := wrU32_bytes hdr.width
  obtain ⟨h₀, h₁, h₂, h₃, hh, rh⟩ := wrU32_bytes hdr.height
  obtain ⟨n₀, n₁, n₂, n₃, hn, rn⟩ := wrU32_bytes (if hdr.fpsNum ≠ 0 then hdr.fpsNum else 30)
  obtain ⟨d₀, d₁, d₂, d₃, hd, rd⟩ := wrU32_bytes (if hdr.fpsDen ≠ 0 then hdr.fpsDen else 1)
  obtain ⟨q₀, q₁, q₂, q₃, hq, rq⟩ := wrU32_bytes hdr.qp
  obtain ⟨i₀, i₁, i₂, i₃, hi, ri⟩ := wrU32_bytes hdr.iframePeriod
  obtain ⟨s₀, s₁, s₂, s₃, hs, rs⟩ := wrU32_bytes hdr.ltrStartIdx
  obtain ⟨l₀, l₁, l₂, l₃, hl, rl⟩ := wrU32_bytes hdr.ltrPeriod
  obtain ⟨f₀, f₁, f₂, f₃, hf, rf⟩ := wrU32_bytes hdr.flags
  obtain ⟨t₀, t₁, t₂, t₃, ht, rt⟩ := wrU32_bytes hdr.targetBitrateBps
  have shape : writeHeader hdr = [0x4D, 0x4C, 0x56, 0x43, 0x31, 2, 0, 0, w₀, w₁, w₂, w₃, h₀, h₁, h₂, h₃, n₀, n₁, n₂,
      n₃, d₀, d₁, d₂, d₃, q₀, q₁, q₂, q₃, 0, 0, 0, 0, i₀, i₁, i₂, i₃, s₀, s₁, s₂, s₃, l₀, l₁, l₂, l₃, f₀, f₁, f₂, f₃,
      t₀, t₁, t₂, t₃, 0, 0, 0, 0, 0, 0, 0, 0, 0, 0, 0, 0] := by
    rw [writeHeader, hw, hh, hn, hd, hq, hi, hs, hl, hf, ht]
    rfl
  have magic : ¬((writeHeader hdr).take 5 ≠ mlvcMagic ∨ (writeHeader hdr)[5]? ≠ some 2) := by
    rw [shape]
    simp [mlvcMagic]
  have word : ∀ off, rdWord (writeHeader hdr) off = UInt32.ofNat (leVal (((writeHeader hdr).drop off).take 4)) :=
    fun _ => rfl
  have zero : UInt32.ofNat (leVal [0, 0, 0, 0]) = 0 := by decide
  rw [parseHeader, if_neg filled, if_neg long, if_neg magic]
  simp only [word]
  simp only [shape, List.drop_succ_cons, List.drop_zero, List.take_succ_cons, List.take_zero, rw_, rh, rn, rd, rq, ri,
    rs, rl, rf, rt, zero]
  rw [if_neg (not_or.mpr ⟨width, height⟩)]
  rfl

/-- A record, or the mark of a dropped frame. -/
def View.Wellformed (v : View) : Prop :=
  if v.drop then v.qIndex = kQindexDropped ∧ v.data = []
  else v.qIndex ≠ kQindexDropped ∧ 1 ≤ v.data.length ∧ v.data.length ≤ kMaxFrameBytes

instance (v : View) : Decidable v.Wellformed := by unfold View.Wellformed; infer_instance

/-- `write_record` and the payload behind it. -/
def View.write (v : View) : List UInt8 :=
  writeRecord (UInt32.ofNat v.data.length) v.qIndex v.flags ++ v.data

/-- The words of a record, and its payload. -/
theorem write_words (v : View) (y : List UInt8) :
    rdWord (v.write ++ y) 0 = UInt32.ofNat v.data.length ∧ (rdWord (v.write ++ y) 4).toInt32 = v.qIndex ∧
      rdWord (v.write ++ y) 8 = v.flags ∧ (v.write ++ y).drop kRecSize = v.data ++ y := by
  obtain ⟨s₀, s₁, s₂, s₃, hs, rs⟩ := wrU32_bytes (UInt32.ofNat v.data.length)
  obtain ⟨q₀, q₁, q₂, q₃, hq, rq⟩ := wrU32_bytes v.qIndex.toUInt32
  obtain ⟨f₀, f₁, f₂, f₃, hf, rf⟩ := wrU32_bytes v.flags
  obtain ⟨z₀, z₁, z₂, z₃, hz, -⟩ := wrU32_bytes 0
  have shape : v.write ++ y =
      [s₀, s₁, s₂, s₃, q₀, q₁, q₂, q₃, f₀, f₁, f₂, f₃, z₀, z₁, z₂, z₃] ++ (v.data ++ y) := by
    rw [View.write, writeRecord, hs, hq, hf, hz]
    simp
  have word : rdWord (v.write ++ y) 4 = v.qIndex.toUInt32 := by
    rw [shape]
    exact rq
  rw [word, Int32.toInt32_toUInt32, shape]
  exact ⟨rs, rfl, rf, rfl⟩

theorem write_length (v : View) : v.write.length = v.size := by
  rw [View.write, List.length_append, writeRecord_length, View.size]

theorem readRecord_write {v : View} (wellformed : v.Wellformed) (y : List UInt8) :
    readRecord (v.write ++ y) = .record v := by
  obtain ⟨size, q, flags, rest⟩ := write_words v y
  have len : (v.write ++ y).length = kRecSize + v.data.length + y.length := by
    rw [List.length_append, write_length, View.size]
  rw [readRecord, if_neg (by omega)]
  simp only [size, q, flags, rest]
  unfold View.Wellformed at wellformed
  split at wellformed
  · rename_i dropped
    obtain ⟨mark, empty⟩ := wellformed
    have none : (UInt32.ofNat v.data.length).toNat = 0 := by rw [empty]; rfl
    rw [if_pos mark, if_neg (by rw [none]; exact fun h => h rfl)]
    obtain ⟨drop, qIndex, flags', data⟩ := v
    simp only at dropped empty
    rw [dropped, empty]
  · rename_i kept
    obtain ⟨mark, some, most⟩ := wellformed
    have word : (UInt32.ofNat v.data.length).toNat = v.data.length := by
      refine UInt32.toNat_ofNat_of_lt' (Nat.lt_of_le_of_lt most ?_)
      decide
    rw [if_neg mark, word, if_neg (by omega), if_neg (by omega), List.take_left]
    obtain ⟨drop, qIndex, flags', data⟩ := v
    simp only [Bool.not_eq_true] at kept
    rw [kept]

end RoundTrip

end Rkvc.Mlvc
