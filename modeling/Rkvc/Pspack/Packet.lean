import Rkvc.Lib.Search
import Rkvc.Pspack.Demux

/-!
# Reading a packet

Every read of `Demux::next` is behind a check of the bytes there are, so a packet
is always read (`readPacket_reads`): it is short, or it is refused, or it is read
the same way from any longer input and ends within the bytes there are.
-/

namespace Rkvc.Pspack
set_option autoImplicit false

open Lib

variable {d y : List UInt8} {i k : Nat}

/-! ## Start codes -/

def startCode : List UInt8 := [0, 0, 1]

theorem startCode_ne : startCode ≠ [] := nofun

theorem unbordered_startCode : Unbordered startCode := by
  intro k pos lt
  match k, pos, lt with
  | 1, _, _ => decide
  | 2, _, _ => decide

theorem bytesAt_iff (d : List UInt8) (i : Nat) (bytes : List UInt8) :
    bytesAt d i bytes = true ↔ bytes <+: d.drop i := List.isPrefixOf_iff_prefix

theorem find_short (h : d.length < 3) : find startCode d = none := by
  cases hd : find startCode d with
  | none => rfl
  | some i =>
    have := (find_some hd).1.length_le
    simp only [startCode, List.length_drop, List.length_cons, List.length_nil] at this
    omega

theorem findScLoop_eq {fuel : Nat} (enough : d.length ≤ fuel + i) :
    findScLoop d fuel i = (find startCode (d.drop i)).map (· + i) := by
  induction fuel generalizing i with
  | zero => rw [List.drop_eq_nil_of_le (by omega)]; rfl
  | succ fuel ih =>
    rw [findScLoop]
    split
    · rw [show d.drop i = d[i] :: d.drop (i + 1) from List.drop_eq_getElem_cons (by omega), find_cons,
        ← List.drop_eq_getElem_cons, ih (by omega)]
      have test : bytesAt d i [0, 0, 1] = true ↔ startCode <+: d.drop i := bytesAt_iff d i startCode
      by_cases here : startCode <+: d.drop i
      · rw [if_pos (test.mpr here), if_pos here, Option.map_some, Nat.zero_add]
      · rw [if_neg (test.not.mpr here), if_neg here, Option.map_map]
        exact congrArg (Option.map · _) (funext fun n => by simp only [Function.comp]; omega)
    · rw [find_short (by rw [List.length_drop]; omega)]
      rfl

theorem findSc_eq (d : List UInt8) (i : Nat) : findSc d i = (find startCode (d.drop i)).map (· + i) :=
  findScLoop_eq (Nat.le_add_right _ _)

/-! ## Reads within the input -/

/-- What is read from the input is read from any longer input. -/
def Settled {γ : Type} (f : List UInt8 → Option γ) (d : List UInt8) : Prop :=
  ∃ c, f d = some c ∧ ∀ y, f (d ++ y) = some c

theorem settled_get (h : i < d.length) : Settled (·[i]?) d :=
  ⟨d[i], List.getElem?_eq_getElem h, fun y => by
    dsimp only
    rw [List.getElem?_append_left h, List.getElem?_eq_getElem h]⟩

theorem settled_rdU16 (h : i + 2 ≤ d.length) : Settled (rdU16 · i) d := by
  have cut : d.drop i = d[i] :: d[i + 1] :: d.drop (i + 2) := by
    rw [List.drop_eq_getElem_cons (by omega), List.drop_eq_getElem_cons (by omega)]
  refine ⟨d[i].toNat <<< 8 ||| d[i + 1].toNat, by simp only [rdU16, cut], fun y => ?_⟩
  simp only [rdU16, List.drop_append_of_le_length (show i ≤ d.length by omega), cut, List.cons_append]

theorem settled_rdPts (h : i + 5 ≤ d.length) : Settled (rdPts · i) d := by
  have cut : d.drop i = d[i] :: d[i + 1] :: d[i + 2] :: d[i + 3] :: d[i + 4] :: d.drop (i + 5) := by
    rw [List.drop_eq_getElem_cons (by omega), List.drop_eq_getElem_cons (by omega),
      List.drop_eq_getElem_cons (by omega), List.drop_eq_getElem_cons (by omega),
      List.drop_eq_getElem_cons (by omega)]
  refine ⟨_, by simp only [rdPts, cut]; rfl, fun y => ?_⟩
  simp only [rdPts, List.drop_append_of_le_length (show i ≤ d.length by omega), cut, List.cons_append]

theorem settled_esMapLoop {esEnd fuel q : Nat} (hend : esEnd ≤ d.length) (enough : esEnd < q + fuel + 4)
    (codec : Option VideoCodec) : Settled (esMapLoop · esEnd (fuel + 1) q codec) d := by
  induction fuel generalizing q codec with
  | zero => exact ⟨codec, by simp only [esMapLoop]; rw [if_neg (by omega)], fun y => by
      simp only [esMapLoop]; rw [if_neg (by omega)]⟩
  | succ fuel ih =>
    by_cases more : q + 4 ≤ esEnd
    · obtain ⟨type, htype, htype'⟩ := settled_get (d := d) (i := q) (by omega)
      obtain ⟨sid, hsid, hsid'⟩ := settled_get (d := d) (i := q + 1) (by omega)
      obtain ⟨ilen, hilen, hilen'⟩ := settled_rdU16 (d := d) (i := q + 2) (by omega)
      obtain ⟨c, hc, hc'⟩ := ih (q := q + (4 + ilen)) (by omega) (if 0xE0 ≤ sid ∧ sid ≤ 0xEF then
        if type = 0x1B then some .avc else if type = 0x24 then some .hevc else codec else codec)
      dsimp only at htype hsid hilen htype' hsid' hilen' hc hc'
      refine ⟨c, ?_, fun y => ?_⟩
      · dsimp only
        rw [esMapLoop, if_pos more, htype, hsid, hilen]
        exact hc
      · dsimp only
        rw [esMapLoop, if_pos more, htype', hsid', hilen']
        exact hc' y
    · exact ⟨codec, by dsimp only; rw [esMapLoop, if_neg more], fun y => by
        dsimp only; rw [esMapLoop, if_neg more]⟩

theorem settled_esMap {stop : Nat} (lo : 10 ≤ stop) (hi : stop ≤ d.length) : Settled (esMap · stop) d := by
  obtain ⟨info, hinfo, hinfo'⟩ := settled_rdU16 (d := d) (i := 6 + 2) (by omega)
  dsimp only at hinfo hinfo'
  unfold Settled
  simp only [esMap, hinfo, hinfo']
  by_cases table : 6 + 4 + (info &&& 0x7FFF) + 2 ≤ stop - 4
  · obtain ⟨esLen, hes, hes'⟩ := settled_rdU16 (d := d) (i := 6 + 4 + (info &&& 0x7FFF)) (by omega)
    dsimp only at hes hes'
    simp only [if_pos table, hes, hes']
    by_cases fits : 6 + 4 + (info &&& 0x7FFF) + 2 + esLen ≤ stop - 4
    · simp only [if_pos fits]
      exact settled_esMapLoop (by omega) (by omega) none
    · exact ⟨none, if_neg fits, fun _ => if_neg fits⟩
  · exact ⟨none, if_neg table, fun _ => if_neg table⟩

/-! ## Packets -/

/-- How much of the input a packet takes. -/
def Packet.len : Packet → Nat
  | .short | .refused => 0
  | .skip len | .map len _ | .video len _ _ _ => len

/-- A packet is read, and unless it is short it is read from any longer input;
unless it is refused it lies within the input. -/
def Reads (f : List UInt8 → Option Packet) (d : List UInt8) : Prop :=
  ∃ p, f d = some p ∧ (p ≠ .short → (∀ y, f (d ++ y) = some p) ∧ (p ≠ .refused → 4 ≤ p.len ∧ p.len ≤ d.length))

theorem reads_short {f : List UInt8 → Option Packet} (h : f d = some .short) : Reads f d :=
  ⟨.short, h, fun ne => absurd rfl ne⟩

theorem readLengthPrefixed_reads (id : UInt8) : Reads (readLengthPrefixed · id) d := by
  by_cases header : d.length < 6
  · exact reads_short (if_pos header)
  obtain ⟨len, hlen, hlen'⟩ := settled_rdU16 (d := d) (i := 4) (by omega)
  dsimp only at hlen hlen'
  have longer : ∀ y : List UInt8, ¬(d ++ y).length < 6 := fun y => by rw [List.length_append]; omega
  by_cases room : d.length < 6 + len
  · exact reads_short (by simp only [readLengthPrefixed, if_neg header, hlen, if_pos room])
  have room' : ∀ y : List UInt8, ¬(d ++ y).length < 6 + len := fun y => by rw [List.length_append]; omega
  unfold Reads
  simp only [readLengthPrefixed, if_neg header, hlen, if_neg room, if_neg (longer _), hlen', if_neg (room' _)]
  by_cases map : id = 0xBC ∧ 10 ≤ 6 + len
  · obtain ⟨codec, hcodec, hcodec'⟩ := settled_esMap (d := d) map.2 (Nat.le_of_not_lt room)
    dsimp only at hcodec hcodec'
    simp only [if_pos map, hcodec, hcodec']
    exact ⟨.map (6 + len) codec, rfl, fun _ => ⟨fun _ => rfl, fun _ => ⟨by simp only [Packet.len]; omega,
      Nat.le_of_not_lt room⟩⟩⟩
  · simp only [if_neg map]
    exact ⟨.skip (6 + len), rfl, fun _ => ⟨fun _ => rfl, fun _ => ⟨by simp only [Packet.len]; omega,
      Nat.le_of_not_lt room⟩⟩⟩

theorem readPayload_reads (id : UInt8) (len hlen : Nat) (pts : Int) (room : 9 + hlen ≤ d.length) :
    Reads (readPayload · id len hlen pts) d := by
  unfold Reads
  by_cases unbounded : len = 0
  · simp only [readPayload, if_pos unbounded]
    by_cases video : 0xE0 ≤ id
    · simp only [if_pos video]
      exact ⟨.refused, rfl, fun _ => ⟨fun _ => rfl, fun ne => absurd rfl ne⟩⟩
    · simp only [if_neg video]
      cases hnx : findSc d (9 + hlen) with
      | none => exact ⟨.short, rfl, fun ne => absurd rfl ne⟩
      | some nx =>
        rw [findSc_eq] at hnx
        obtain ⟨j, hj, rfl⟩ := Option.map_eq_some_iff.mp hnx
        have bound := (find_some hj).2
        rw [List.length_drop] at bound
        refine ⟨.skip (j + (9 + hlen)), rfl, fun _ => ⟨fun y => ?_, fun _ => ⟨?_, ?_⟩⟩⟩
        · rw [findSc_eq, List.drop_append_of_le_length room, find_append hj]
          rfl
        · simp only [Packet.len]; omega
        · simp only [Packet.len]; omega
  · simp only [readPayload, if_neg unbounded]
    by_cases small : len < 3 + hlen
    · simp only [if_pos small]
      exact ⟨.refused, rfl, fun _ => ⟨fun _ => rfl, fun ne => absurd rfl ne⟩⟩
    · simp only [if_neg small]
      by_cases ends : d.length < 9 + hlen + (len - 3 - hlen)
      · exact ⟨.short, by rw [if_pos ends], fun ne => absurd rfl ne⟩
      · have ends' : ∀ y : List UInt8, ¬(d ++ y).length < 9 + hlen + (len - 3 - hlen) := fun y => by
          rw [List.length_append]; omega
        simp only [if_neg ends, if_neg (ends' _)]
        by_cases other : id < 0xE0 ∨ len - 3 - hlen = 0
        · simp only [if_pos other]
          exact ⟨.skip _, rfl, fun _ => ⟨fun _ => rfl, fun _ => ⟨by simp only [Packet.len]; omega,
            Nat.le_of_not_lt ends⟩⟩⟩
        · obtain ⟨flags1, hflags, hflags'⟩ := settled_get (d := d) (i := 6) (by omega)
          dsimp only at hflags hflags'
          simp only [if_neg other, hflags, hflags', Option.map_some]
          refine ⟨_, rfl, fun _ => ⟨fun y => ?_, fun _ => ⟨by simp only [Packet.len]; omega,
            Nat.le_of_not_lt ends⟩⟩⟩
          rw [List.drop_append_of_le_length room, List.take_append_of_le_length]
          rw [List.length_drop]
          omega

theorem readPes_reads (id : UInt8) : Reads (readPes · id) d := by
  by_cases header : d.length < 9
  · exact reads_short (if_pos header)
  obtain ⟨len, hlen, hlen'⟩ := settled_rdU16 (d := d) (i := 4) (by omega)
  obtain ⟨flags2, hflags, hflags'⟩ := settled_get (d := d) (i := 7) (by omega)
  obtain ⟨hl, hhl, hhl'⟩ := settled_get (d := d) (i := 8) (by omega)
  dsimp only at hlen hlen' hflags hflags' hhl hhl'
  have header' : ∀ y : List UInt8, ¬(d ++ y).length < 9 := fun y => by rw [List.length_append]; omega
  by_cases room : d.length < 9 + hl.toNat
  · exact reads_short (by simp only [readPes, if_neg header, hlen, hflags, hhl, if_pos room])
  have room' : ∀ y : List UInt8, ¬(d ++ y).length < 9 + hl.toNat := fun y => by rw [List.length_append]; omega
  unfold Reads
  simp only [readPes, if_neg header, if_neg (header' _), hlen, hlen', hflags, hflags', hhl, hhl', if_neg room,
    if_neg (room' _)]
  by_cases timed : (flags2 &&& 0x80) ≠ 0
  · by_cases field : d.length < 14
    · exact ⟨.short, by rw [if_pos timed, if_pos field], fun ne => absurd rfl ne⟩
    · obtain ⟨pts, hpts, hpts'⟩ := settled_rdPts (d := d) (i := 9) (by omega)
      dsimp only at hpts hpts'
      have field' : ∀ y : List UInt8, ¬(d ++ y).length < 14 := fun y => by rw [List.length_append]; omega
      simp only [if_pos timed, if_neg field, if_neg (field' _), hpts, hpts', Option.bind_some]
      exact readPayload_reads id len hl.toNat pts (Nat.le_of_not_lt room)
  · simp only [if_neg timed]
    exact readPayload_reads id len hl.toNat 0 (Nat.le_of_not_lt room)

/-- **A packet is always read**, within the input, and the same way from any
longer input. -/
theorem readPacket_reads (d : List UInt8) : Reads readPacket d := by
  by_cases header : d.length < 4
  · exact reads_short (if_pos header)
  obtain ⟨id, hid, hid'⟩ := settled_get (d := d) (i := 3) (by omega)
  dsimp only at hid hid'
  have header' : ∀ y : List UInt8, ¬(d ++ y).length < 4 := fun y => by rw [List.length_append]; omega
  unfold Reads
  simp only [readPacket, if_neg header, if_neg (header' _), hid, hid']
  have skip4 : ∃ p : Packet, some (Packet.skip 4) = some p ∧
      (p ≠ .short → (∀ _y : List UInt8, some (Packet.skip 4) = some p) ∧
        (p ≠ .refused → 4 ≤ p.len ∧ p.len ≤ d.length)) :=
    ⟨.skip 4, rfl, fun _ => ⟨fun _ => rfl, fun _ => ⟨Nat.le_refl 4, Nat.le_of_not_lt header⟩⟩⟩
  by_cases pack : id = 0xBA
  · simp only [if_pos pack]
    by_cases whole : d.length < 14
    · exact ⟨.short, by rw [if_pos whole], fun ne => absurd rfl ne⟩
    · have whole' : ∀ y : List UInt8, ¬(d ++ y).length < 14 := fun y => by rw [List.length_append]; omega
      simp only [if_neg whole, if_neg (whole' _)]
      exact ⟨.skip 14, rfl, fun _ => ⟨fun _ => rfl, fun _ => ⟨by decide, Nat.le_of_not_lt whole⟩⟩⟩
  · simp only [if_neg pack]
    by_cases prefixed : id = 0xBB ∨ id = 0xBC
    · simp only [if_pos prefixed]
      exact readLengthPrefixed_reads id
    · simp only [if_neg prefixed]
      by_cases code : id = 0xB7 ∨ id = 0xB9
      · simp only [if_pos code]
        exact skip4
      · simp only [if_neg code]
        by_cases pes : isPes id
        · simp only [pes, Bool.not_true, Bool.false_eq_true, if_false]
          exact readPes_reads id
        · simp only [pes, Bool.not_false, if_true]
          exact skip4

end Rkvc.Pspack
