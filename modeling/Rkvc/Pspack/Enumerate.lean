import Rkvc.Pspack.Sniff

/-!
# The start codes that are enumerated

`for_each_nal` jumps over a start code of three or of four bytes. No other start code
begins in what it jumps over, so it calls back once for each start code that has a byte
behind it, however many zeros stand in front, in order and with that byte
(`forEachNal_calls`).
-/

namespace Rkvc.Pspack
set_option autoImplicit false
open Lib.AnnexB

/-- A start code with a byte behind it. -/
def HeaderAt (d : List UInt8) (p : Nat) : Prop :=
  d[p]? = some 0 ∧ d[p + 1]? = some 0 ∧ d[p + 2]? = some 1 ∧ p + 3 < d.length
  deriving Decidable

/-- The start codes from `i` on, in order. -/
def headersFrom (d : List UInt8) (i : Nat) : List Nat :=
  (List.range' i (d.length - i)).filter fun p => HeaderAt d p

/-- The types of a codec's key pictures and of the parameter sets in front of them. -/
def KeyHeader : VideoCodec → UInt8 → Prop
  | .avc, b => avcType b = 5 ∨ avcType b = 7
  | .hevc, b => hevcType b = 32 ∨ hevcType b = 19 ∨ hevcType b = 20

section Enumerate
variable {d : List UInt8} {i : Nat}

theorem headersFrom_done (short : d.length ≤ i + 3) : headersFrom d i = [] := by
  apply List.filter_eq_nil_iff.mpr
  intro p listed
  have reached := (List.mem_range'_1.mp listed).1
  rw [decide_eq_true_eq]
  rintro ⟨-, -, -, room⟩
  omega

theorem headersFrom_here (here : HeaderAt d i) : headersFrom d i = i :: headersFrom d (i + 1) := by
  have room := here.2.2.2
  obtain ⟨n, left, next⟩ : ∃ n, d.length - i = n + 1 ∧ d.length - (i + 1) = n := ⟨d.length - (i + 1), by omega, rfl⟩
  rw [headersFrom, left, List.range'_succ, List.filter_cons_of_pos (by simpa using here), headersFrom, next]

theorem headersFrom_skip (clear : ¬HeaderAt d i) : headersFrom d i = headersFrom d (i + 1) := by
  by_cases inside : i < d.length
  · obtain ⟨n, left, next⟩ : ∃ n, d.length - i = n + 1 ∧ d.length - (i + 1) = n := ⟨d.length - (i + 1), by omega, rfl⟩
    rw [headersFrom, left, List.range'_succ, List.filter_cons_of_neg (by simpa using clear), headersFrom, next]
  · rw [headersFrom_done (by omega), headersFrom_done (by omega)]

/-- The bytes at a position, one after the other. -/
theorem bytesAt_cons {b : UInt8} {bytes : List UInt8} :
    bytesAt d i (b :: bytes) = true ↔ d[i]? = some b ∧ bytesAt d (i + 1) bytes = true := by
  rw [bytesAt_iff, bytesAt_iff]
  by_cases inside : i < d.length
  · rw [List.drop_eq_getElem_cons inside, List.cons_prefix_cons, List.getElem?_eq_getElem inside, Option.some_inj, eq_comm]
  · rw [List.drop_of_length_le (by omega), List.getElem?_eq_none (by omega)]
    simp

theorem bytesAt_three : bytesAt d i [0, 0, 1] = true ↔ d[i]? = some 0 ∧ d[i + 1]? = some 0 ∧ d[i + 2]? = some 1 := by
  simp only [bytesAt_cons, Nat.add_assoc, Nat.reduceAdd]
  simp [bytesAt]

theorem bytesAt_four :
    bytesAt d i [0, 0, 0, 1] = true ↔ d[i]? = some 0 ∧ d[i + 1]? = some 0 ∧ d[i + 2]? = some 0 ∧ d[i + 3]? = some 1 := by
  simp only [bytesAt_cons, Nat.add_assoc, Nat.reduceAdd]
  simp [bytesAt]

/-- No start code begins with its last byte. -/
theorem not_headerAt (one : d[i]? = some 1) : ¬HeaderAt d i := by
  rintro ⟨zero, -⟩
  rw [one] at zero
  cases zero

theorem headersFrom_three (code : bytesAt d i [0, 0, 1] = true) (room : i + 3 < d.length) :
    headersFrom d i = i :: headersFrom d (i + 3) := by
  obtain ⟨first, second, one⟩ := bytesAt_three.mp code
  have inner : ¬HeaderAt d (i + 1) := by
    rintro ⟨-, zero, -⟩
    rw [one] at zero
    cases zero
  rw [headersFrom_here ⟨first, second, one, room⟩, headersFrom_skip inner, headersFrom_skip (not_headerAt one)]

theorem headersFrom_four (code : bytesAt d i [0, 0, 0, 1] = true) (room : i + 4 < d.length) :
    headersFrom d i = (i + 1) :: headersFrom d (i + 4) := by
  obtain ⟨first, second, third, one⟩ := bytesAt_four.mp code
  have outer : ¬HeaderAt d i := by
    rintro ⟨-, -, last, -⟩
    rw [third] at last
    cases last
  rw [headersFrom_skip outer]
  exact headersFrom_three (bytesAt_three.mpr ⟨second, third, one⟩) room

/-- From `i` on, the loop calls back with the byte behind each start code. -/
theorem forEachNalLoop_calls (fuel : Nat) (enough : d.length ≤ i + fuel) :
    forEachNalLoop d fuel i = (headersFrom d i).map fun p => d.getD (p + 3) 0 := by
  induction fuel generalizing i with
  | zero =>
    rw [headersFrom_done (by omega)]
    rfl
  | succ fuel ih =>
    rw [forEachNalLoop]
    by_cases room : i + 3 < d.length
    · rw [if_pos room]
      by_cases three : bytesAt d i [0, 0, 1] = true
      · rw [if_pos three, headersFrom_three three room, List.map_cons, ih (by omega)]
      · rw [if_neg three]
        by_cases four : i + 4 < d.length ∧ bytesAt d i [0, 0, 0, 1] = true
        · rw [if_pos (by simpa using four), headersFrom_four four.2 four.1, List.map_cons, ih (by omega)]
        · have clear : ¬HeaderAt d i := by
            rintro ⟨first, second, one, -⟩
            exact three (bytesAt_three.mpr ⟨first, second, one⟩)
          rw [if_neg (by simpa using four), headersFrom_skip clear, ih (by omega)]
    · rw [if_neg room, headersFrom_done (by omega)]
      rfl

theorem forEachNal_eq_map (d : List UInt8) :
    forEachNal d = (headersFrom d 0).map fun p => d.getD (p + 3) 0 :=
  forEachNalLoop_calls d.length (Nat.le_add_left _ _)

theorem mem_headersFrom {p : Nat} : p ∈ headersFrom d 0 ↔ HeaderAt d p := by
  rw [headersFrom, List.mem_filter, List.mem_range'_1, decide_eq_true_eq]
  constructor
  · exact fun listed => listed.2
  · intro here
    have room := here.2.2.2
    exact ⟨by omega, here⟩

/-- The test of `is_keyframe` for one header byte. -/
theorem keyHeader_iff (codec : VideoCodec) (b : UInt8) :
    (match codec with
      | .avc => avcKey b
      | .hevc => hevcKey b) = true ↔ KeyHeader codec b := by
  cases codec with
  | avc => exact avcKey_iff b
  | hevc => exact hevcKey_iff b

end Enumerate

/-- **Every start code with a byte behind it is enumerated once**, in order and with that byte; a keyframe is what has
a key header behind one of them. Nothing outside of the bytes is read on the way, and the loop ends. -/
theorem forEachNal_calls (codec : VideoCodec) (d : List UInt8) :
    Checked.forEachNal d = some (((List.range d.length).filter fun p => HeaderAt d p).map fun p => d.getD (p + 3) 0) ∧
      ∃ key, Checked.isKeyframe codec d = some key ∧
        (key = true ↔ ∃ p, HeaderAt d p ∧ KeyHeader codec (d.getD (p + 3) 0)) := by
  constructor
  · rw [Checked.forEachNal_eq, forEachNal_eq_map, headersFrom, List.range_eq_range', Nat.sub_zero]
  · refine ⟨isKeyframe codec d, Checked.isKeyframe_eq codec d, ?_⟩
    rw [isKeyframe, forEachNal_eq_map, List.any_map, List.any_eq_true]
    apply exists_congr
    intro p
    rw [mem_headersFrom]
    apply and_congr_right
    intro _
    exact keyHeader_iff codec _

end Rkvc.Pspack
