import Rkvc.Lib.AnnexB
import Rkvc.Pspack.Safety

/-!
# The codec of an access unit

Without a program stream map the demuxer guesses the codec of an access unit from the
header bytes of its NAL units, HEVC first (`call_sniffs`). Six header bytes of AVC units
are those of HEVC key pictures, so that an AVC access unit is told exactly when it has
none of them (`emitted_right_iff`).
-/

namespace Rkvc.Pspack
set_option autoImplicit false
open Lib.AnnexB

section Scan

variable {d : List UInt8}

theorem forEachNalLoop_eq (fuel i : Nat) (enough : d.length ≤ i + fuel) :
    forEachNalLoop d fuel i = headers 4 (d.drop i) := by
  induction fuel generalizing i with
  | zero =>
    rw [List.drop_of_length_le (by omega), headers]
    rfl
  | succ fuel ih =>
    rw [forEachNalLoop, headers_at (by decide)]
    by_cases long : i + 3 < d.length
    · rw [if_pos long, if_pos (show i + 4 ≤ d.length from long)]
      by_cases three : [0, 0, 1].isPrefixOf (d.drop i)
      · rw [if_pos three, bytesAt, if_pos three, ih (i + 3) (by omega)]
      · rw [if_neg three, bytesAt, if_neg three]
        simp only [bytesAt, Bool.and_eq_true, decide_eq_true_eq]
        by_cases four : i + 4 < d.length ∧ [0, 0, 0, 1].isPrefixOf (d.drop i) = true
        · rw [if_pos four, if_pos four, ih (i + 4) (by omega)]
        · rw [if_neg four, if_neg four, ih (i + 1) (by omega)]
    · rw [if_neg long, if_neg (show ¬ i + 4 ≤ d.length from long)]

/-- The header bytes of a stream's units are called back with, in order. -/
theorem forEachNal_byteStream (units : List (Nat × Nal)) (trailing : Nat) :
    forEachNal (byteStream units trailing) = units.map (·.2.header) := by
  rw [forEachNal, forEachNalLoop_eq _ _ (by omega), List.drop_zero, headers_byteStream (by decide)]

end Scan

/-! ## What is emitted -/

/-- A frame whose codec was guessed. -/
def Frame.Sniffed (f : Frame) : Prop := f.codec = sniff f.annexb ∧ f.keyframe = isKeyframe f.codec f.annexb

section Emitted

variable {a : Assembly} {s t : Demux} {f : Frame}

theorem emitAu_sniffs (emitted : a.emitAu.1 = .ok f) (unmapped : a.havePsm = false) : f.Sniffed := by
  unfold Assembly.emitAu at emitted
  split at emitted
  · cases emitted
  · rw [unmapped] at emitted
    cases emitted
    exact ⟨rfl, rfl⟩

theorem emitAu_havePsm (a : Assembly) : a.emitAu.2.havePsm = a.havePsm := by
  unfold Assembly.emitAu
  split <;> rfl

/-- What the loop of `next` emits, as long as there has been no map. -/
theorem nextLoop_sniffs {fuel pos : Nat} (emitted : s.nextLoop fuel pos = some (.ok f, t))
    (unmapped : t.havePsm = false) : f.Sniffed := by
  induction fuel generalizing s pos with
  | zero => cases emitted
  | succ fuel ih =>
    rw [Demux.nextLoop] at emitted
    split at emitted
    · cases emitted
    · split at emitted
      · cases emitted
      · cases emitted
      · cases emitted
      · exact ih emitted
      · exact ih emitted
      · split at emitted
        · split at emitted
          · rename_i g done
            cases emitted
            have kept : s.havePsm = false := (emitAu_havePsm s.toAssembly).symm.trans unmapped
            exact emitAu_sniffs done kept
          · exact ih emitted
        · split at emitted
          · exact ih emitted
          · split at emitted
            · cases emitted
            · exact ih emitted

/-- **Every frame of a demuxer without a map has its codec guessed.** -/
theorem call_sniffs {c : Call} (called : s.call c = some (.frame (.ok f), t)) (unmapped : t.havePsm = false) :
    f.Sniffed := by
  cases c with
  | append data => cases called
  | next =>
    obtain ⟨⟨r, u⟩, emitted, same⟩ := Option.map_eq_some_iff.mp called
    cases same
    exact nextLoop_sniffs emitted unmapped
  | flush =>
    have emitted : s.emitAu.1 = .ok f ∧ { s with toAssembly := s.emitAu.2 } = t := by
      rw [Demux.call, Demux.flush] at called
      cases emission : s.emitAu.1 with
      | error e =>
        rw [emission] at called
        cases called
      | ok g =>
        rw [emission] at called
        cases called
        exact ⟨rfl, rfl⟩
    obtain ⟨emitted, rfl⟩ := emitted
    exact emitAu_sniffs emitted ((emitAu_havePsm s.toAssembly).symm.trans unmapped)

end Emitted

/-- The frames that are emitted for these bytes without a map are keyframes of this codec. -/
def EmittedAs (data : List UInt8) (codec : VideoCodec) : Prop :=
  ∀ (s t : Demux) (c : Call) (f : Frame), s.call c = some (.frame (.ok f), t) → t.havePsm = false →
    f.annexb = data → f.codec = codec ∧ f.keyframe = true

section Units

variable {units : List (Nat × Nal)} {data : List UInt8} {codec : VideoCodec}

/-- It is a matter of the bytes alone. -/
theorem emittedAs_iff (some : data ≠ []) :
    EmittedAs data codec ↔ sniff data = codec ∧ isKeyframe codec data = true := by
  constructor
  · intro emitted
    let s : Demux := { au := data, auOpen := true }
    have flushed : s.emitAu.1 =
        .ok { annexb := data, pts90 := 0, keyframe := isKeyframe (sniff data) data, codec := sniff data } := by
      have filled : data.isEmpty = false := List.isEmpty_eq_false_iff.mpr some
      simp [s, Assembly.emitAu, filled]
    obtain ⟨told, key⟩ := emitted s { s with toAssembly := s.emitAu.2 } .flush _
      (by rw [Demux.call, Demux.flush, flushed]) (emitAu_havePsm s.toAssembly) rfl
    dsimp only at told key
    rw [told] at key
    exact ⟨told, key⟩
  · rintro ⟨told, key⟩ s t c f called unmapped rfl
    obtain ⟨codec', keyframe⟩ := call_sniffs called unmapped
    rw [told] at codec'
    rw [codec', key] at keyframe
    exact ⟨codec', keyframe⟩

/-- The header bytes of AVC units that are those of HEVC key pictures. -/
def ambiguous : List UInt8 := [0x26, 0x27, 0x28, 0x29, 0x40, 0x41]

theorem hevcKey_avc : ∀ b : UInt8, b &&& 0x80 = 0 → (hevcKey b = true ↔ b ∈ ambiguous) := by
  apply forall_byte
  decide +kernel

/-- An AVC unit of an SPS or of an IDR slice. -/
def AvcKey (nal : Nal) : Prop := avcType nal.header = 5 ∨ avcType nal.header = 7

/-- An HEVC unit of a VPS or of an IDR slice. -/
def HevcKey (nal : Nal) : Prop := hevcType nal.header = 32 ∨ hevcType nal.header = 19 ∨ hevcType nal.header = 20

theorem avcKey_iff (b : UInt8) : avcKey b = true ↔ avcType b = 5 ∨ avcType b = 7 := by
  simp [avcKey, avcType]

theorem hevcKey_iff (b : UInt8) : hevcKey b = true ↔ hevcType b = 32 ∨ hevcType b = 19 ∨ hevcType b = 20 := by
  simp [hevcKey, hevcType, or_assoc]

theorem any_header {p : UInt8 → Bool} : (units.map (·.2.header)).any p = true ↔ ∃ u ∈ units, p u.2.header = true := by
  rw [List.any_map, List.any_eq_true]
  rfl

/-- **Sniffing as it is meant**: a key access unit of either codec is a keyframe of its codec. -/
structure SniffsRight (units : List (Nat × Nal)) (trailing : Nat) : Prop where
  avc : (∀ u ∈ units, u.2.IsAvc) → (∃ u ∈ units, AvcKey u.2) → EmittedAs (byteStream units trailing) .avc
  hevc : (∀ u ∈ units, u.2.IsHevcBase) → (∃ u ∈ units, HevcKey u.2) → EmittedAs (byteStream units trailing) .hevc

theorem byteStream_ne_nil {trailing : Nat} (some : units ≠ []) : byteStream units trailing ≠ [] := by
  cases units with
  | nil => exact absurd rfl some
  | cons u units =>
    intro none
    simp [byteStream, streamUnit] at none

/-- An AVC access unit with a key picture is told exactly when no unit is ambiguous. -/
theorem emitted_avc {trailing : Nat} (avc : ∀ u ∈ units, u.2.IsAvc) (key : ∃ u ∈ units, AvcKey u.2) :
    EmittedAs (byteStream units trailing) .avc ↔ ∀ u ∈ units, u.2.header ∉ ambiguous := by
  have some : units ≠ [] := by
    rintro rfl
    obtain ⟨u, listed, -⟩ := key
    cases listed
  have keys : (units.map (·.2.header)).any avcKey = true := by
    obtain ⟨u, listed, key⟩ := key
    exact any_header.mpr ⟨u, listed, (avcKey_iff u.2.header).mpr key⟩
  have collides : (units.map (·.2.header)).any hevcKey = true ↔ ∃ u ∈ units, u.2.header ∈ ambiguous := by
    rw [any_header]
    apply exists_congr
    intro u
    apply and_congr_right
    intro listed
    exact hevcKey_avc u.2.header (avc u listed)
  rw [emittedAs_iff (byteStream_ne_nil some), sniff, isKeyframe, forEachNal_byteStream]
  by_cases collision : (units.map (·.2.header)).any hevcKey = true
  · rw [if_pos collision]
    obtain ⟨u, listed, hit⟩ := collides.mp collision
    constructor
    · rintro ⟨told, -⟩
      cases told
    · intro clear
      exact absurd hit (clear u listed)
  · rw [if_neg collision, if_pos keys]
    constructor
    · intro _ u listed hit
      exact collision (collides.mpr ⟨u, listed, hit⟩)
    · intro _
      exact ⟨rfl, keys⟩

/-- An HEVC access unit with a key picture is always told. -/
theorem emitted_hevc {trailing : Nat} (key : ∃ u ∈ units, HevcKey u.2) :
    EmittedAs (byteStream units trailing) .hevc := by
  obtain ⟨u, listed, key⟩ := key
  have keys : (units.map (·.2.header)).any hevcKey = true :=
    any_header.mpr ⟨u, listed, (hevcKey_iff u.2.header).mpr key⟩
  rw [emittedAs_iff (byteStream_ne_nil (List.ne_nil_of_mem listed)), sniff, isKeyframe, forEachNal_byteStream, if_pos keys]
  exact ⟨rfl, keys⟩

/-- **The frames of a demuxer without a map have the right codec** exactly where, if the access unit
is of AVC with a key picture, none of its units has one of six header bytes. -/
theorem emitted_right_iff (units : List (Nat × Nal)) (trailing : Nat) :
    SniffsRight units trailing ↔
      ((∀ u ∈ units, u.2.IsAvc) → (∃ u ∈ units, AvcKey u.2) → ∀ u ∈ units, u.2.header ∉ ambiguous) := by
  constructor
  · intro right avc key
    exact (emitted_avc avc key).mp (right.avc avc key)
  · intro clear
    constructor
    · intro avc key
      exact (emitted_avc avc key).mpr (clear avc key)
    · intro _ key
      exact emitted_hevc key

end Units

/-- An SPS with `nal_ref_idc` 1. -/
def lowSps : Nal where
  header := 0x27
  body := [0x42]
  filled := nofun
  escaped := by decide
  ends := by decide

/-- An IDR slice. -/
def idrSlice : Nal where
  header := 0x65
  body := [0x88]
  filled := by decide
  escaped := by decide
  ends := by decide

/-- The access unit as the payload of one packet. -/
def lowPacket : List UInt8 := [0, 0, 1, 0xE0, 0, 13, 0x84, 0, 0] ++ byteStream [(0, lowSps), (0, idrSlice)] 0

/-- **An AVC keyframe comes out as one of HEVC.** -/
theorem emitted_wrong :
    byteStream [(0, lowSps), (0, idrSlice)] 0 = [0, 0, 1, 0x27, 0x42, 0, 0, 1, 0x65, 0x88] ∧
      ((runCalls Demux.call {} [.append lowPacket, .next, .flush]).map fun r => r.1.map fun
        | .frame (.ok f) => some (f.annexb, f.codec, f.keyframe)
        | _ => none) = some [none, none, some ([0, 0, 1, 0x27, 0x42, 0, 0, 1, 0x65, 0x88], .hevc, true)] ∧
      ¬ SniffsRight [(0, lowSps), (0, idrSlice)] 0 := by
  refine ⟨rfl, by decide +kernel, fun right => ?_⟩
  have emitted := right.avc (by decide) ⟨(0, lowSps), List.mem_cons_self, Or.inr rfl⟩
  obtain ⟨told, -⟩ := (emittedAs_iff (byteStream_ne_nil (List.cons_ne_nil _ _))).mp emitted
  have wrong : sniff (byteStream [(0, lowSps), (0, idrSlice)] 0) = .hevc := rfl
  rw [wrong] at told
  cases told

end Rkvc.Pspack
