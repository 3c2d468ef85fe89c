import Rkvc.Pspack.Packet

/-!
# The packets the multiplexer writes

The output of `mux_frame` is a list of pieces, each of which the demuxer reads
back as one packet. Behind the first byte of a pack header, a system header or a
map there is no start code.
-/

namespace Rkvc.Pspack
set_option autoImplicit false

open Lib

/-- The packets of a multiplexed stream. -/
inductive Piece where
  | pack (scr rate : Nat)
  | system (rate : Nat)
  | psm (codec : VideoCodec)
  | first (pts : Int) (payload : List UInt8)
  | more (payload : List UInt8)
  deriving DecidableEq, Repr

namespace Piece

def bytes : Piece → List UInt8
  | .pack scr rate => wrPack [] scr rate
  | .system rate => wrSystem [] rate
  | .psm codec => wrPsm [] codec
  | .first pts payload => wrPes [] true pts payload
  | .more payload => wrPes [] false 0 payload

/-- What the demuxer reads a piece as. -/
def packet : Piece → Packet
  | .pack _ _ => .skip 14
  | .system _ => .skip 15
  | .psm codec => .map 20 (some codec)
  | .first pts payload => .video (14 + payload.length) true (clock33 pts) payload
  | .more payload => .video (9 + payload.length) false 0 payload

def payload : Piece → List UInt8
  | .first _ payload | .more payload => payload
  | _ => []

def isVideo : Piece → Bool
  | .first _ _ | .more _ => true
  | _ => false

def isPack : Piece → Bool
  | .pack _ _ => true
  | _ => false

/-- A PES packet carries between one byte and `kPesChunk`. -/
def Valid (p : Piece) : Prop := p.isVideo = true → 0 < p.payload.length ∧ p.payload.length ≤ kPesChunk

end Piece

/-! ## Numbers in the headers -/

theorem byte_or (a : Nat) {b : Nat} (h : b < 256) : a <<< 8 ||| b = a * 256 + b := shiftLeft_or (k := 8) h

theorem groups_or (a : Nat) {b c : Nat} (hb : b < 2 ^ 15) (hc : c < 2 ^ 15) :
    a <<< 30 ||| b <<< 15 ||| c = (a * 2 ^ 15 + b) * 2 ^ 15 + c := by
  have upper : a <<< 30 ||| b <<< 15 = (a * 2 ^ 15 + b) <<< 15 := by
    rw [show a <<< 30 = a <<< 15 <<< 15 from Nat.shiftLeft_add a 15 15, ← Nat.shiftLeft_or_distrib, shiftLeft_or hb]
  rw [upper, shiftLeft_or hc]

theorem rdU16_wrU16 (d rest : List UInt8) {v : Nat} (hv : v < 65536) :
    rdU16 (wrU16 d v ++ rest) d.length = some v := by
  have word : (UInt8.ofNat (v >>> 8)).toNat <<< 8 ||| (UInt8.ofNat v).toNat = v := by
    rw [UInt8.toNat_ofNat', UInt8.toNat_ofNat', byte_or _ (Nat.mod_lt _ (by decide)), Nat.shiftRight_eq_div_pow]
    omega
  simp only [rdU16, wrU16, List.append_assoc, List.drop_left, List.cons_append, word]

theorem clock33_lt (pts : Int) : clock33 pts < 2 ^ 33 := Nat.lt_succ_of_le Nat.and_le_right

theorem clock33_eq (pts : Int) : (clock33 pts : Int) = max pts 0 % 2 ^ 33 := by
  have mask : clock33 pts = pts.toNat % 2 ^ 33 := by
    unfold clock33
    rw [show (0x1FFFFFFFF : Nat) = 2 ^ 33 - 1 by decide, Nat.and_two_pow_sub_one_eq_mod]
    split
    · rw [Int.toNat_of_nonpos (by omega)]
    · rfl
  rw [mask, Int.natCast_emod, Int.toNat_eq_max]
  rfl

/-- The 33 bits in three groups. -/
theorem clock_groups {p : Nat} (hp : p < 2 ^ 33) :
    u32 (p >>> 30) % 2 ^ 3 = p / 2 ^ 30 ∧ u32 (p >>> 15) % 2 ^ 15 = p / 2 ^ 15 % 2 ^ 15 ∧
      u32 p % 2 ^ 15 = p % 2 ^ 15 := by
  simp only [u32, Nat.shiftRight_eq_div_pow]
  omega

theorem ptsFields_val {p : Nat} (hp : p < 2 ^ 33) :
    BitWriter.fieldsVal 0 (ptsFields p) =
      33 * 2 ^ 32 + p / 2 ^ 30 * 2 ^ 33 + (2 * (p / 2 ^ 15 % 2 ^ 15) + 1) * 2 ^ 16 + 2 * (p % 2 ^ 15) + 1 := by
  obtain ⟨a, b, c⟩ := clock_groups hp
  simp only [BitWriter.fieldsVal_cons, BitWriter.fieldsVal_nil, ptsFields, a, b, c]
  omega

theorem rdPts_bytes (d rest : List UInt8) {p : Nat} (hp : p < 2 ^ 33) :
    rdPts (d ++ beBytes 5 (BitWriter.fieldsVal 0 (ptsFields p)) ++ rest) d.length = some p := by
  rw [ptsFields_val hp]
  generalize hv : 33 * 2 ^ 32 + p / 2 ^ 30 * 2 ^ 33 + (2 * (p / 2 ^ 15 % 2 ^ 15) + 1) * 2 ^ 16 +
    2 * (p % 2 ^ 15) + 1 = v
  have high : (v / 256 ^ 4 % 256) >>> 1 &&& 7 = p / 2 ^ 30 := by
    rw [show (7 : Nat) = 2 ^ 3 - 1 by decide, Nat.and_two_pow_sub_one_eq_mod, Nat.shiftRight_eq_div_pow]
    omega
  have middle : ((v / 256 ^ 3 % 256) <<< 8 ||| v / 256 ^ 2 % 256) >>> 1 = p / 2 ^ 15 % 2 ^ 15 := by
    rw [byte_or _ (Nat.mod_lt _ (by decide)), Nat.shiftRight_eq_div_pow]
    omega
  have low : ((v / 256 ^ 1 % 256) <<< 8 ||| v / 256 ^ 0 % 256) >>> 1 = p % 2 ^ 15 := by
    rw [byte_or _ (Nat.mod_lt _ (by decide)), Nat.shiftRight_eq_div_pow]
    omega
  have whole : (p / 2 ^ 30) <<< 30 ||| (p / 2 ^ 15 % 2 ^ 15) <<< 15 ||| p % 2 ^ 15 = p := by
    have deeper : p / 2 ^ 30 = p / 2 ^ 15 / 2 ^ 15 := by rw [Nat.div_div_eq_div_mul, ← Nat.pow_add]
    rw [groups_or _ (Nat.mod_lt _ (by decide)) (Nat.mod_lt _ (by decide)), deeper, Nat.div_add_mod', Nat.div_add_mod']
  simp only [rdPts, List.append_assoc, List.drop_left, beBytes, List.cons_append, UInt8.toNat_ofNat', high, middle,
    low, whole]

/-! ## The bytes of a piece -/

theorem bytes_pack (scr rate : Nat) :
    (Piece.pack scr rate).bytes = [0, 0, 1, 0xBA] ++ beBytes 10 (BitWriter.fieldsVal 0 (packFields scr rate)) :=
  BitWriter.puts_bytes (wrStart [] 0xBA) (packFields scr rate) 10 rfl

theorem bytes_system (rate : Nat) :
    (Piece.system rate).bytes = [0, 0, 1, 0xBB, 0, 9] ++ beBytes 9 (BitWriter.fieldsVal 0 (systemFields rate)) :=
  BitWriter.puts_bytes (wrU16 (wrStart [] 0xBB) 9) (systemFields rate) 9 rfl

/-- The map with its checksum. -/
theorem bytes_psm (codec : VideoCodec) :
    (Piece.psm codec).bytes = match codec with
      | .avc => [0, 0, 1, 0xBC, 0, 14, 0xC0, 0xFF, 0, 0, 0, 4, 0x1B, 0xE0, 0, 0, 0x09, 0x00, 0xCC, 0x62]
      | .hevc => [0, 0, 1, 0xBC, 0, 14, 0xC0, 0xFF, 0, 0, 0, 4, 0x24, 0xE0, 0, 0, 0xA1, 0x48, 0x24, 0x95] := by
  cases codec <;> decide +kernel

theorem bytes_first (pts : Int) (payload : List UInt8) :
    (Piece.first pts payload).bytes = wrU16 (wrStart [] kVideoStreamId) (3 + 5 + payload.length) ++ [0x84, 0x80, 5] ++
      beBytes 5 (BitWriter.fieldsVal 0 (ptsFields (clock33 pts))) ++ payload := by
  simp only [Piece.bytes, wrPes, if_true, wrPts]
  rw [BitWriter.puts_bytes _ _ 5 rfl]

theorem bytes_more (payload : List UInt8) :
    (Piece.more payload).bytes =
      wrU16 (wrStart [] kVideoStreamId) (3 + payload.length) ++ [0x80, 0x00, 0] ++ payload := rfl

theorem bytes_length (p : Piece) : p.bytes.length = p.packet.len := by
  cases p with
  | pack scr rate => rw [bytes_pack]; simp [Piece.packet, Packet.len]
  | system rate => rw [bytes_system]; simp [Piece.packet, Packet.len]
  | psm codec => rw [bytes_psm]; cases codec <;> rfl
  | first pts payload =>
    rw [bytes_first]
    simp [Piece.packet, Packet.len, wrU16, wrStart]
    omega
  | more payload =>
    rw [bytes_more]
    simp [Piece.packet, Packet.len, wrU16, wrStart]
    omega

/-- Every piece begins with a start code. -/
theorem bytes_startCode (p : Piece) : startCode <+: p.bytes := by
  have literal : ∀ (l : List UInt8) {d rest : List UInt8}, d = startCode ++ l ++ rest → startCode <+: d := by
    rintro l d rest rfl
    rw [List.append_assoc]
    exact List.prefix_append _ _
  cases p with
  | pack scr rate => exact literal [0xBA] (bytes_pack scr rate)
  | system rate => exact literal [0xBB, 0, 9] (bytes_system rate)
  | psm codec =>
    rw [bytes_psm]
    cases codec <;> decide
  | first pts payload =>
    rw [bytes_first, List.append_assoc, List.append_assoc]
    exact List.prefix_append startCode _
  | more payload => exact List.prefix_append startCode _

/-! ## Reading a piece -/

/-- The demuxer reads the PES packet of a payload. -/
theorem readPayload_piece {d payload rest head : List UInt8} (hlen : Nat) {flags1 : UInt8} (pts : Int)
    (hd : d = head ++ payload ++ rest) (hhead : head.length = 9 + hlen) (hflags : d[6]? = some flags1)
    (pos : 0 < payload.length) :
    readPayload d kVideoStreamId (3 + hlen + payload.length) hlen pts =
      some (.video (9 + hlen + payload.length) ((flags1 &&& 0x04) ≠ 0) pts payload) := by
  have len : d.length = 9 + hlen + payload.length + rest.length := by
    simp only [hd, List.length_append, hhead]
  have rest_len : 3 + hlen + payload.length - 3 - hlen = payload.length := by omega
  have body : (d.drop (9 + hlen)).take payload.length = payload := by
    rw [hd, List.append_assoc, ← hhead, List.drop_left, List.take_left]
  have nonempty : ¬(3 + hlen + payload.length = 0) := by omega
  have large : ¬(3 + hlen + payload.length < 3 + hlen) := by omega
  have whole : ¬(d.length < 9 + hlen + payload.length) := by omega
  have video : ¬(kVideoStreamId < 0xE0 ∨ payload.length = 0) := by
    rintro (low | none)
    · exact absurd low (by decide)
    · omega
  simp only [readPayload, if_neg nonempty, if_neg large, rest_len, if_neg whole, if_neg video, hflags, Option.map_some,
    body]

/-- **The demuxer reads back every piece**, whatever comes behind it. -/
theorem readPacket_piece {p : Piece} (valid : p.Valid) (rest : List UInt8) :
    readPacket (p.bytes ++ rest) = some p.packet := by
  cases p with
  | pack scr rate =>
    have len : ¬(Piece.bytes (.pack scr rate) ++ rest).length < 14 := by
      rw [List.length_append, bytes_length]
      simp [Piece.packet, Packet.len]
    rw [readPacket, if_neg (by omega), bytes_pack]
    rw [bytes_pack] at len
    simp only [List.append_assoc, List.cons_append, List.getElem?_cons_succ, List.getElem?_cons_zero, if_true]
    exact congrArg some (if_neg len)
  | system rate =>
    generalize hd : Piece.bytes (.system rate) ++ rest = d
    have len : ¬d.length < 15 := by
      rw [← hd, List.length_append, bytes_length]
      simp [Piece.packet, Packet.len]
    have size : rdU16 d 4 = some 9 := by rw [← hd, bytes_system]; rfl
    have id : d[3]? = some 0xBB := by rw [← hd, bytes_system]; rfl
    have body : readLengthPrefixed d 0xBB = some (.skip 15) := by
      rw [readLengthPrefixed, if_neg (by omega), size]
      simp only [if_neg len]
      rfl
    rw [readPacket, if_neg (by omega), id]
    exact body
  | psm codec =>
    generalize hd : Piece.bytes (.psm codec) ++ rest = d
    have len : ¬d.length < 20 := by
      rw [← hd, List.length_append, bytes_length]
      simp [Piece.packet, Packet.len]
    have shape := hd
    rw [bytes_psm] at shape
    have size : rdU16 d 4 = some 14 := by cases codec <;> rw [← shape] <;> rfl
    have id : d[3]? = some 0xBC := by cases codec <;> rw [← shape] <;> rfl
    have table : esMap d 20 = some (some codec) := by cases codec <;> rw [← shape] <;> rfl
    have body : readLengthPrefixed d 0xBC = some (.map 20 (some codec)) := by
      rw [readLengthPrefixed, if_neg (by omega), size]
      simp only [if_neg len, table]
      rfl
    rw [readPacket, if_neg (by omega), id]
    exact body
  | first pts payload =>
    obtain ⟨pos, most⟩ := valid rfl
    simp only [Piece.payload] at pos most
    generalize hd : Piece.bytes (.first pts payload) ++ rest = d
    have shape := hd
    rw [bytes_first] at shape
    have len : 14 + payload.length ≤ d.length := by
      rw [← hd, List.length_append, bytes_length]
      simp [Piece.packet, Packet.len]
    have size : rdU16 d 4 = some (3 + 5 + payload.length) := by
      rw [← shape, List.append_assoc, List.append_assoc, List.append_assoc]
      exact rdU16_wrU16 (wrStart [] kVideoStreamId) _ (by unfold kPesChunk at most; omega)
    have id : d[3]? = some kVideoStreamId := by rw [← shape]; rfl
    have flags1 : d[6]? = some 0x84 := by rw [← shape]; rfl
    have flags2 : d[7]? = some 0x80 := by rw [← shape]; rfl
    have hlen : d[8]? = some 5 := by rw [← shape]; rfl
    have time : rdPts d 9 = some (clock33 pts) := by
      rw [← shape, List.append_assoc _ payload]
      exact rdPts_bytes (wrU16 (wrStart [] kVideoStreamId) (3 + 5 + payload.length) ++ [0x84, 0x80, 5]) _
        (clock33_lt pts)
    rw [readPacket, if_neg (by omega), id]
    have body := readPayload_piece 5 (clock33 pts) shape.symm (by simp [wrU16, wrStart]) flags1 pos
    exact (by
      rw [readPes, if_neg (by omega), size, flags2, hlen]
      simp only [show ¬d.length < 9 + (5 : UInt8).toNat by simpa using by omega, if_false,
        show ¬d.length < 14 by omega, time, Option.bind_some]
      exact body : readPes d kVideoStreamId = some (Piece.packet (.first pts payload)))
  | more payload =>
    obtain ⟨pos, most⟩ := valid rfl
    simp only [Piece.payload] at pos most
    generalize hd : Piece.bytes (.more payload) ++ rest = d
    have shape := hd
    rw [bytes_more] at shape
    have len : 9 + payload.length ≤ d.length := by
      rw [← hd, List.length_append, bytes_length]
      simp [Piece.packet, Packet.len]
    have size : rdU16 d 4 = some (3 + payload.length) := by
      rw [← shape, List.append_assoc, List.append_assoc]
      exact rdU16_wrU16 (wrStart [] kVideoStreamId) _ (by unfold kPesChunk at most; omega)
    have id : d[3]? = some kVideoStreamId := by rw [← shape]; rfl
    have flags1 : d[6]? = some 0x80 := by rw [← shape]; rfl
    have flags2 : d[7]? = some 0x00 := by rw [← shape]; rfl
    have hlen : d[8]? = some 0 := by rw [← shape]; rfl
    rw [readPacket, if_neg (by omega), id]
    have body := readPayload_piece 0 0 shape.symm (by simp [wrU16, wrStart]) flags1 pos
    exact (by
      rw [readPes, if_neg (by omega), size, flags2, hlen]
      simp only [show ¬d.length < 9 + (0 : UInt8).toNat by simpa using by omega, if_false]
      exact body : readPes d kVideoStreamId = some (Piece.packet (.more payload)))

end Rkvc.Pspack
