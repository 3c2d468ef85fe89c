import Rkvc.Lib.AnnexB

/-!
# The codec of a stream

The decoder node looks for the first parameter set of a stream to tell its codec. A
start code is followed by the header byte of an AVC or of an HEVC unit, and the
byte of an AVC slice with `nal_ref_idc` 2 is that of an HEVC VPS.
-/

namespace Rkvc.H264h265
set_option autoImplicit false
open Lib.AnnexB

inductive SniffedCodec where
  | unknown | avc | hevc
  deriving DecidableEq, Repr

/-- What the byte behind a start code tells, if anything. -/
def sniffNal (nal : UInt8) : Option SniffedCodec :=
  if nal &&& 0x1f = 7 then some .avc
  else if (nal >>> 1) &&& 0x3f = 32 then some .hevc
  else none

def sniffLoop (data : List UInt8) : Nat → Nat → SniffedCodec
  | 0, _ => .unknown
  | fuel + 1, i =>
    if i + 4 < data.length then
      if [0, 0, 1].isPrefixOf (data.drop i) then
        (sniffNal (data.getD (i + 3) 0)).getD (sniffLoop data fuel (i + 3))
      else if i + 5 ≤ data.length ∧ [0, 0, 0, 1].isPrefixOf (data.drop i) then
        (sniffNal (data.getD (i + 4) 0)).getD (sniffLoop data fuel (i + 4))
      else sniffLoop data fuel (i + 1)
    else .unknown

/-- **`sniff_annexb`**; there may be no data. -/
def sniffAnnexb : Option (List UInt8) → SniffedCodec
  | none => .unknown
  | some data => sniffLoop data data.length 0

/-- The first byte that tells a codec decides. -/
def sniffHeaders (bytes : List UInt8) : SniffedCodec := (bytes.findSome? sniffNal).getD .unknown

theorem sniffHeaders_cons (b : UInt8) (bytes : List UInt8) :
    sniffHeaders (b :: bytes) = (sniffNal b).getD (sniffHeaders bytes) := by
  rw [sniffHeaders, List.findSome?_cons]
  cases sniffNal b with
  | none => rfl
  | some codec => rfl

section Loop

variable {data : List UInt8}

/-- The loop decides by the bytes behind the start codes. -/
theorem sniffLoop_eq (fuel i : Nat) (enough : data.length ≤ i + fuel) :
    sniffLoop data fuel i = sniffHeaders (headers 5 (data.drop i)) := by
  induction fuel generalizing i with
  | zero =>
    rw [List.drop_of_length_le (by omega), headers]
    rfl
  | succ fuel ih =>
    rw [sniffLoop, headers_at (by decide)]
    by_cases long : i + 4 < data.length
    · rw [if_pos long, if_pos (show i + 5 ≤ data.length from long)]
      by_cases three : [0, 0, 1].isPrefixOf (data.drop i)
      · rw [if_pos three, if_pos three, sniffHeaders_cons, ih (i + 3) (by omega)]
      · rw [if_neg three, if_neg three]
        by_cases four : i + 5 ≤ data.length ∧ [0, 0, 0, 1].isPrefixOf (data.drop i)
        · rw [if_pos four, if_pos ⟨long, four.2⟩, sniffHeaders_cons, ih (i + 4) (by omega)]
        · rw [if_neg four, if_neg fun other => four ⟨long, other.2⟩, ih (i + 1) (by omega)]
    · rw [if_neg long, if_neg (show ¬ i + 5 ≤ data.length from long)]
      rfl

theorem sniffAnnexb_byteStream (units : List (Nat × Nal)) (trailing : Nat) :
    sniffAnnexb (some (byteStream units trailing)) = sniffHeaders (units.map (·.2.header)) := by
  rw [sniffAnnexb, sniffLoop_eq _ _ (by omega), List.drop_zero, headers_byteStream (by decide)]

end Loop

/-! ## AVC -/

/-- An AVC unit of the types 1 to 12. -/
def Avc (nal : Nal) : Prop := nal.IsAvc ∧ 1 ≤ avcType nal.header ∧ avcType nal.header ≤ 12

def IsSps (nal : Nal) : Prop := avcType nal.header = 7

/-- An HEVC VPS. -/
def IsVps (nal : Nal) : Prop := hevcType nal.header = 32

instance (nal : Nal) : Decidable (IsSps nal) := inferInstanceAs (Decidable (_ = _))

instance (nal : Nal) : Decidable (IsVps nal) := inferInstanceAs (Decidable (_ = _))

instance (nal : Nal) : Decidable (Avc nal) := inferInstanceAs (Decidable (_ ∧ _ ∧ _))

/-- The units in front of the first SPS. -/
def beforeSps (units : List (Nat × Nal)) : List (Nat × Nal) := units.takeWhile fun u => ¬ IsSps u.2

theorem sniffNal_avc : ∀ b : UInt8, b &&& 0x80 = 0 → 1 ≤ avcType b → avcType b ≤ 12 →
    sniffNal b = if avcType b = 7 then some .avc else if b = 0x41 then some .hevc else none := by
  apply forall_byte
  decide +kernel

theorem sniffNal_hevc : ∀ b : UInt8, b &&& 0x81 = 0 → sniffNal b = if hevcType b = 32 then some .hevc else none := by
  apply forall_byte
  decide +kernel

section Streams

variable {units : List (Nat × Nal)}

/-- An AVC stream is told by its first SPS, unless there is a slice of `nal_ref_idc` 2 in front of it. -/
theorem sniffHeaders_avc (avc : ∀ u ∈ units, Avc u.2) (sps : ∃ u ∈ units, IsSps u.2) :
    sniffHeaders (units.map (·.2.header)) = .avc ↔ ∀ u ∈ beforeSps units, u.2.header ≠ 0x41 := by
  induction units with
  | nil =>
    obtain ⟨u, listed, -⟩ := sps
    cases listed
  | cons u units ih =>
    obtain ⟨⟨forbidden, low, high⟩, avc⟩ := List.forall_mem_cons.mp avc
    have told : sniffNal u.2.header =
        if IsSps u.2 then some .avc else if u.2.header = 0x41 then some .hevc else none :=
      sniffNal_avc u.2.header forbidden low high
    rw [List.map_cons, sniffHeaders_cons, told, beforeSps]
    by_cases first : IsSps u.2
    · rw [if_pos first, List.takeWhile_cons_of_neg (by simpa using first)]
      simp
    · have later := (List.or_exists_of_exists_mem_cons sps).resolve_left first
      rw [if_neg first, List.takeWhile_cons_of_pos (by simpa using first), List.forall_mem_cons]
      by_cases slice : u.2.header = 0x41
      · rw [if_pos slice]
        simp [slice]
      · rw [if_neg slice, Option.getD_none, ih avc later, beforeSps]
        simp [slice]

/-- An HEVC stream is told by its VPS. -/
theorem sniffHeaders_hevc (hevc : ∀ u ∈ units, u.2.IsHevcBase) (vps : ∃ u ∈ units, IsVps u.2) :
    sniffHeaders (units.map (·.2.header)) = .hevc := by
  induction units with
  | nil =>
    obtain ⟨u, listed, -⟩ := vps
    cases listed
  | cons u units ih =>
    obtain ⟨⟨even, -⟩, hevc⟩ := List.forall_mem_cons.mp hevc
    have told : sniffNal u.2.header = if IsVps u.2 then some .hevc else none := sniffNal_hevc u.2.header even
    rw [List.map_cons, sniffHeaders_cons, told]
    by_cases first : IsVps u.2
    · rw [if_pos first]
      rfl
    · have later := (List.or_exists_of_exists_mem_cons vps).resolve_left first
      rw [if_neg first, Option.getD_none]
      exact ih hevc later

/-- **Sniffing as it is meant**: AVC streams with an SPS and HEVC streams with a VPS are told. -/
structure SniffsRight (units : List (Nat × Nal)) (trailing : Nat) : Prop where
  avc : (∀ u ∈ units, Avc u.2) → (∃ u ∈ units, IsSps u.2) → sniffAnnexb (some (byteStream units trailing)) = .avc
  hevc : (∀ u ∈ units, u.2.IsHevcBase) → (∃ u ∈ units, IsVps u.2) →
    sniffAnnexb (some (byteStream units trailing)) = .hevc

/-- **A stream is told its codec** exactly where, if it is an AVC stream with an SPS, no slice of type 1
with `nal_ref_idc` 2 is in front of the first SPS. -/
theorem sniffAnnexb_right_iff (units : List (Nat × Nal)) (trailing : Nat) :
    SniffsRight units trailing ↔
      ((∀ u ∈ units, Avc u.2) → (∃ u ∈ units, IsSps u.2) → ∀ u ∈ beforeSps units, u.2.header ≠ 0x41) := by
  have told := sniffAnnexb_byteStream units trailing
  constructor
  · intro right avc sps
    have codec := right.avc avc sps
    rw [told] at codec
    exact (sniffHeaders_avc avc sps).mp codec
  · intro clear
    constructor
    · intro avc sps
      rw [told]
      exact (sniffHeaders_avc avc sps).mpr (clear avc sps)
    · intro hevc vps
      rw [told]
      exact sniffHeaders_hevc hevc vps

end Streams

/-- A slice of type 1 with `nal_ref_idc` 2. -/
def referenceSlice : Nal where
  header := 0x41
  body := [0x9a]
  filled := by decide
  escaped := by decide
  ends := by decide

/-- An SPS. -/
def spsUnit : Nal where
  header := 0x67
  body := [0x42]
  filled := by decide
  escaped := by decide
  ends := by decide

/-- **An AVC stream that starts in the middle** is taken for HEVC. -/
theorem sniffAnnexb_wrong :
    byteStream [(0, referenceSlice), (0, spsUnit)] 0 = [0, 0, 1, 0x41, 0x9a, 0, 0, 1, 0x67, 0x42] ∧
      sniffAnnexb (some [0, 0, 1, 0x41, 0x9a, 0, 0, 1, 0x67, 0x42]) = .hevc ∧
      ¬ SniffsRight [(0, referenceSlice), (0, spsUnit)] 0 := by
  have hevc : sniffAnnexb (some (byteStream [(0, referenceSlice), (0, spsUnit)] 0)) = .hevc := rfl
  refine ⟨rfl, rfl, fun right => ?_⟩
  have avc := right.avc (by decide +kernel) ⟨(0, spsUnit), List.mem_cons_of_mem _ List.mem_cons_self, rfl⟩
  rw [hevc] at avc
  cases avc

end Rkvc.H264h265
