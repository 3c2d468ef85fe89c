import Mathlib.Data.List.Basic
import Mathlib.Tactic.Common

/-!
# Byte streams of NAL units

The byte stream format of Annex B: a NAL unit follows a start code `00 00 01`, in
front of which zeros may stand, and emulation prevention keeps start codes out of
the unit (`Nal`). A scan for start codes of three and four bytes calls back with the
first byte of every unit, once and in order (`headers_byteStream`).
-/

namespace Rkvc.Lib.AnnexB
set_option autoImplicit false

/-- What emulation prevention leaves: `00 00 00`, `00 00 01` and `00 00 02` do not occur. -/
def Escaped (d : List UInt8) : Prop := ¬ [0, 0, 0] <:+: d ∧ ¬ [0, 0, 1] <:+: d ∧ ¬ [0, 0, 2] <:+: d

instance (d : List UInt8) : Decidable (Escaped d) := inferInstanceAs (Decidable (_ ∧ _ ∧ _))

/-- **A NAL unit** of at least two bytes. -/
structure Nal where
  header : UInt8
  body : List UInt8
  filled : body ≠ []
  escaped : Escaped (header :: body)
  /-- Trailing zeros are not of the unit. -/
  ends : (header :: body).getLast? ≠ some 0

def Nal.bytes (nal : Nal) : List UInt8 := nal.header :: nal.body

/-- A unit in the stream, behind its zeros and its start code. -/
def streamUnit (zeros : Nat) (nal : Nal) : List UInt8 := List.replicate zeros 0 ++ ([0, 0, 1] ++ nal.bytes)

/-- **A byte stream**: each unit with the number of zeros in front of its start code, and
the number of zeros at the end. -/
def byteStream : List (Nat × Nal) → Nat → List UInt8
  | [], trailing => List.replicate trailing 0
  | (zeros, nal) :: units, trailing => streamUnit zeros nal ++ byteStream units trailing

/-- **The scan for start codes**, as long as there are `least` bytes left: the bytes behind them. -/
def headers (least : Nat) : List UInt8 → List UInt8
  | [] => []
  | x :: rest =>
    if rest.length + 1 < least then []
    else if [0, 0, 1] <+: x :: rest then rest.getD 2 0 :: headers least (rest.drop 2)
    else if 5 ≤ rest.length + 1 ∧ [0, 0, 0, 1] <+: x :: rest then
      rest.getD 3 0 :: headers least (rest.drop 3)
    else headers least rest
termination_by d => d.length
decreasing_by
  all_goals
    simp only [List.length_drop, List.length_cons]
    omega

/-- No start code begins here. -/
def Clear (d : List UInt8) : Prop := ¬ [0, 0, 1] <+: d ∧ ¬ [0, 0, 0, 1] <+: d

section Scan

variable {least : Nat} {d rest : List UInt8} {b x y z : UInt8}

theorem headers_short (short : d.length < least) : headers least d = [] := by
  cases d with
  | nil => rw [headers]
  | cons x rest =>
    rw [List.length_cons] at short
    rw [headers, if_pos short]

theorem headers_clear (clear : Clear (x :: rest)) : headers least (x :: rest) = headers least rest := by
  rw [headers]
  split
  · rename_i short
    rw [headers_short (by omega)]
  · rw [if_neg clear.1, if_neg fun four => clear.2 four.2]

theorem headers_three (long : least ≤ rest.length + 4) :
    headers least (0 :: 0 :: 1 :: b :: rest) = b :: headers least (b :: rest) := by
  rw [headers, if_neg (by simp only [List.length_cons]; omega), if_pos ⟨b :: rest, rfl⟩, List.getD_cons_succ,
    List.getD_cons_succ, List.getD_cons_zero, List.drop_succ_cons, List.drop_succ_cons, List.drop_zero]

theorem headers_four (long : least ≤ rest.length + 5) :
    headers least (0 :: 0 :: 0 :: 1 :: b :: rest) = b :: headers least (b :: rest) := by
  have three : ¬ [0, 0, 1] <+: 0 :: 0 :: (0 : UInt8) :: 1 :: b :: rest := by
    simp [List.cons_prefix_cons]
  rw [headers, if_neg (by simp only [List.length_cons]; omega), if_neg three,
    if_pos ⟨by simp only [List.length_cons]; omega, b :: rest, rfl⟩, List.getD_cons_succ, List.getD_cons_succ,
    List.getD_cons_succ, List.getD_cons_zero, List.drop_succ_cons, List.drop_succ_cons, List.drop_succ_cons,
    List.drop_zero]

theorem clear_first (first : x ≠ 0) : Clear (x :: rest) := by
  constructor
  · intro code
    exact first (List.cons_prefix_cons.mp code).1.symm
  · intro code
    exact first (List.cons_prefix_cons.mp code).1.symm

theorem clear_second (second : y ≠ 0) : Clear (x :: y :: rest) := by
  constructor
  · intro code
    exact second (List.cons_prefix_cons.mp (List.cons_prefix_cons.mp code).2).1.symm
  · intro code
    exact second (List.cons_prefix_cons.mp (List.cons_prefix_cons.mp code).2).1.symm

theorem clear_third (not0 : z ≠ 0) (not1 : z ≠ 1) : Clear (x :: y :: z :: rest) := by
  constructor
  · intro code
    exact not1 (List.cons_prefix_cons.mp (List.cons_prefix_cons.mp (List.cons_prefix_cons.mp code).2).2).1.symm
  · intro code
    exact not0 (List.cons_prefix_cons.mp (List.cons_prefix_cons.mp (List.cons_prefix_cons.mp code).2).2).1.symm

/-- Three zeros and no one behind them. -/
theorem clear_fourth (fourth : z ≠ 1) : Clear (0 :: 0 :: 0 :: z :: rest) := by
  constructor
  · simp [List.cons_prefix_cons]
  · simpa [List.cons_prefix_cons] using Ne.symm fourth

end Scan

section Stream

variable {least : Nat} {rest : List UInt8} {nal : Nal}

/-- Inside a unit no start code begins, whatever is behind it. -/
theorem clear_of_escaped {x : UInt8} {content : List UInt8} (escaped : Escaped (x :: content))
    (ends : (x :: content).getLast? ≠ some 0) (behind : List UInt8) : Clear (x :: (content ++ behind)) := by
  by_cases first : x = 0
  · subst first
    match content with
    | [] => exact absurd rfl ends
    | y :: content =>
      by_cases second : y = 0
      · subst second
        match content with
        | [] => exact absurd rfl ends
        | z :: content =>
          obtain ⟨not0, not1, -⟩ := escaped
          apply clear_third
          · rintro rfl
            exact not0 ⟨[], content, rfl⟩
          · rintro rfl
            exact not1 ⟨[], content, rfl⟩
      · exact clear_second second
  · exact clear_first first

theorem Escaped.tail {x : UInt8} {content : List UInt8} (escaped : Escaped (x :: content)) : Escaped content := by
  obtain ⟨not0, not1, not2⟩ := escaped
  exact ⟨fun code => not0 (List.infix_cons code), fun code => not1 (List.infix_cons code),
    fun code => not2 (List.infix_cons code)⟩

/-- The scan goes through a unit. -/
theorem headers_content (content : List UInt8) (escaped : Escaped content) (ends : content.getLast? ≠ some 0) :
    headers least (content ++ rest) = headers least rest := by
  induction content with
  | nil => rfl
  | cons x content ih =>
    rw [List.cons_append, headers_clear (clear_of_escaped escaped ends rest)]
    cases content with
    | nil => rfl
    | cons y content =>
      apply ih escaped.tail
      rw [List.getLast?_cons_cons] at ends
      exact ends

/-- Zeros alone are no start code. -/
theorem headers_zeros (n : Nat) : headers least (List.replicate n 0) = [] := by
  induction n with
  | zero => rw [List.replicate_zero, headers]
  | succ n ih =>
    have one : ∀ code : List UInt8, 1 ∈ code → ¬ code <+: List.replicate (n + 1) 0 := by
      intro code listed front
      exact absurd (List.eq_of_mem_replicate (front.subset listed)) (by decide)
    have clear : Clear (List.replicate (n + 1) 0) := ⟨one _ (by decide), one _ (by decide)⟩
    rw [List.replicate_succ] at clear ⊢
    rw [headers_clear clear, ih]

/-- In front of a unit, its first byte is met once, however many zeros there are. -/
theorem headers_start (few : least ≤ 5) (zeros : Nat) {header : UInt8} {content : List UInt8} (some : content ≠ []) :
    headers least (List.replicate zeros 0 ++ 0 :: 0 :: 1 :: header :: content) =
      header :: headers least (header :: content) := by
  have one := List.length_pos_iff.mpr some
  induction zeros with
  | zero => exact headers_three (by omega)
  | succ zeros ih =>
    cases zeros with
    | zero => exact headers_four (by omega)
    | succ zeros =>
      have zero_zero : ∀ (n : Nat) (l : List UInt8), List.replicate n 0 ++ 0 :: l = 0 :: (List.replicate n 0 ++ l) := by
        intro n l
        rw [← List.cons_append, ← List.replicate_succ, List.replicate_succ', List.append_assoc, List.singleton_append]
      have clear : Clear (List.replicate (zeros + 2) 0 ++ 0 :: 0 :: 1 :: header :: content) := by
        rw [List.replicate_succ, List.replicate_succ, List.cons_append, List.cons_append, zero_zero, zero_zero]
        exact clear_fourth (by decide)
      rw [List.replicate_succ, List.cons_append] at clear ⊢
      rw [headers_clear clear, ih]

theorem headers_unit (few : least ≤ 5) (zeros : Nat) (nal : Nal) (rest : List UInt8) :
    headers least (streamUnit zeros nal ++ rest) = nal.header :: headers least rest := by
  have shape : streamUnit zeros nal ++ rest =
      List.replicate zeros 0 ++ 0 :: 0 :: 1 :: nal.header :: (nal.body ++ rest) := by
    simp [streamUnit, Nal.bytes]
  have some : nal.body ++ rest ≠ [] := fun none => nal.filled (List.append_eq_nil_iff.mp none).1
  rw [shape, headers_start few zeros some, ← List.cons_append, headers_content _ nal.escaped nal.ends]

/-- **The scan meets the units of a stream**, each once and in order. -/
theorem headers_byteStream (few : least ≤ 5) (units : List (Nat × Nal)) (trailing : Nat) :
    headers least (byteStream units trailing) = units.map (·.2.header) := by
  induction units with
  | nil => exact headers_zeros trailing
  | cons unit units ih =>
    obtain ⟨zeros, nal⟩ := unit
    rw [byteStream, headers_unit few, ih, List.map_cons]

end Stream

/-- The scan as a loop over a position has it. -/
theorem headers_at {least : Nat} (some : 0 < least) (d : List UInt8) (i : Nat) :
    headers least (d.drop i) =
      if i + least ≤ d.length then
        if [0, 0, 1].isPrefixOf (d.drop i) then d.getD (i + 3) 0 :: headers least (d.drop (i + 3))
        else if i + 4 < d.length ∧ [0, 0, 0, 1].isPrefixOf (d.drop i) then
          d.getD (i + 4) 0 :: headers least (d.drop (i + 4))
        else headers least (d.drop (i + 1))
      else [] := by
  by_cases long : i + least ≤ d.length
  · have inside : i < d.length := by omega
    have split : d.drop i = d[i] :: d.drop (i + 1) := List.drop_eq_getElem_cons inside
    have length : (d.drop (i + 1)).length + 1 = d.length - i := by
      rw [List.length_drop]
      omega
    have third : (d.drop (i + 1)).getD 2 0 = d.getD (i + 3) 0 := by
      rw [List.getD_eq_getElem?_getD, List.getElem?_drop, ← List.getD_eq_getElem?_getD]
    have fourth : (d.drop (i + 1)).getD 3 0 = d.getD (i + 4) 0 := by
      rw [List.getD_eq_getElem?_getD, List.getElem?_drop, ← List.getD_eq_getElem?_getD]
    have enough : 5 ≤ d.length - i ↔ i + 4 < d.length := by omega
    rw [if_pos long, split, headers, length, if_neg (by omega), third, fourth, List.drop_drop, List.drop_drop]
    simp only [List.isPrefixOf_iff_prefix, enough]
  · rw [if_neg long]
    apply headers_short
    rw [List.length_drop]
    omega

/-! ## First bytes -/

/-- A property of bytes, byte by byte. -/
theorem forall_byte {P : UInt8 → Prop} (each : ∀ n : Fin 256, P (UInt8.ofNat n)) (b : UInt8) : P b := by
  have this := each ⟨b.toNat, b.toNat_lt⟩
  rw [show UInt8.ofNat _ = b from UInt8.ofNat_toNat] at this
  exact this

/-- `nal_unit_type` of an AVC unit. -/
def avcType (b : UInt8) : UInt8 := b &&& 0x1f

/-- `nal_unit_type` of an HEVC unit. -/
def hevcType (b : UInt8) : UInt8 := (b >>> 1) &&& 0x3f

/-- The first byte of an AVC unit: `forbidden_zero_bit` is zero. -/
def Nal.IsAvc (nal : Nal) : Prop := nal.header &&& 0x80 = 0

/-- The two first bytes of an HEVC unit of the base layer: `forbidden_zero_bit` and `nuh_layer_id`
are zero, `nuh_temporal_id_plus1` is not. -/
def Nal.IsHevcBase (nal : Nal) : Prop :=
  nal.header &&& 0x81 = 0 ∧ ∃ second rest, nal.body = second :: rest ∧ second >>> 3 = 0 ∧ second ≠ 0

instance (nal : Nal) : Decidable nal.IsAvc := inferInstanceAs (Decidable (_ = _))

end Rkvc.Lib.AnnexB
