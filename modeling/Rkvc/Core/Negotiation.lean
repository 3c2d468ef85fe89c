import Rkvc.Core.Spec
import Rkvc.Lib.Merge

/-!
# The laws of negotiation

Between known formats `unify` merges field by field, in any order
(`fieldMerge`). An unknown format short-circuits it: the other side is taken
whole, so what the unknown side asks of the dimensions is neither compared nor
kept.
-/

namespace Rkvc
set_option autoImplicit false
open Lib

/-! ## Field by field -/

/-- The fields that have to be equal, and the dimensions. -/
def Spec.fields : Spec ≃ (PixelFormat × MemDomain × Nat) × (Nat × Nat × Nat × Nat) where
  toFun s := ((s.fmt, s.domain, s.modifier), (s.width, s.height, s.stride, s.verStride))
  invFun f :=
    { fmt := f.1.1, domain := f.1.2.1, modifier := f.1.2.2
      width := f.2.1, height := f.2.2.1, stride := f.2.2.2.1, verStride := f.2.2.2.2 }
  left_inv _ := rfl
  right_inv _ := rfl

/-- What a merge of two specifications is for: equal fields, and dimensions with a wildcard. -/
def fieldMerge : Merge Spec :=
  .record Spec.fields
    (.both (.both .equal (.both .equal .equal)) (.both (.wild 0) (.both (.wild 0) (.both (.wild 0) (.wild 0)))))

theorem fieldMerge_lawful : fieldMerge.Lawful := by
  apply Merge.Lawful.record
  apply Merge.Lawful.both
  · exact Merge.equal_lawful.both (Merge.equal_lawful.both Merge.equal_lawful)
  · have dim := Merge.wild_lawful (0 : Nat)
    exact dim.both (dim.both (dim.both dim))

section Merge
variable {a b c r : Spec}

theorem fieldMerge_eq_some :
    fieldMerge a b = some r ↔
      ((a.fmt = b.fmt ∧ a.fmt = r.fmt) ∧ (a.domain = b.domain ∧ a.domain = r.domain) ∧
        a.modifier = b.modifier ∧ a.modifier = r.modifier) ∧
      mergeDim a.width b.width = some r.width ∧ mergeDim a.height b.height = some r.height ∧
      mergeDim a.stride b.stride = some r.stride ∧ mergeDim a.verStride b.verStride = some r.verStride := by
  simp only [fieldMerge, Merge.record_eq_some, Merge.both_eq_some, Merge.equal, Option.ite_none_right_eq_some,
    Option.some.injEq]
  rfl

theorem mergeDims_eq_some :
    mergeDims a b = some r ↔
      (a.fmt = r.fmt ∧ a.domain = r.domain ∧ a.modifier = r.modifier) ∧
      mergeDim a.width b.width = some r.width ∧ mergeDim a.height b.height = some r.height ∧
      mergeDim a.stride b.stride = some r.stride ∧ mergeDim a.verStride b.verStride = some r.verStride := by
  simp only [mergeDims, Option.bind_eq_bind, Option.bind_eq_some_iff, Option.pure_def, Option.some.injEq]
  constructor
  · rintro ⟨width, hw, height, hh, stride, hs, verStride, hv, rfl⟩
    exact ⟨⟨rfl, rfl, rfl⟩, hw, hh, hs, hv⟩
  · rintro ⟨⟨fmt, domain, modifier⟩, hw, hh, hs, hv⟩
    refine ⟨_, hw, _, hh, _, hs, _, hv, ?_⟩
    rw [fmt, domain, modifier]

/-- Known formats that agree in the fields that have to be equal merge, or differ in a dimension. -/
theorem unify_agreeing (known : a.fmt ≠ .unknown) (fmt : a.fmt = b.fmt) (domain : a.domain = b.domain)
    (modifier : a.modifier = b.modifier) :
    unify a b = match fieldMerge a b with
      | none => Result.reject .negotiate "negotiate" "spec" "dimension mismatch"
      | some r => .ok r := by
  have same : mergeDims a b = fieldMerge a b := by
    apply Option.ext
    intro r
    rw [mergeDims_eq_some, fieldMerge_eq_some]
    simp only [fmt, domain, modifier, true_and]
  have known' : b.fmt ≠ .unknown := fmt ▸ known
  rw [← same]
  cases merged : mergeDims a b <;> simp [unify, known', fmt, domain, modifier, merged]

/-- **Between known formats `unify` is the merge of the fields.** -/
theorem unify_toOption (ha : a.fmt ≠ .unknown) (hb : b.fmt ≠ .unknown) : (unify a b).toOption = fieldMerge a b := by
  apply Option.ext
  intro r
  constructor
  · intro merged
    have ok : unify a b = .ok r := by
      cases h : unify a b with
      | error e =>
        rw [h] at merged
        cases merged
      | ok r' =>
        rw [h] at merged
        cases merged
        rfl
    obtain ⟨fmt, domain, modifier⟩ := unify_known ha hb ok
    rw [unify_agreeing ha fmt domain modifier] at ok
    cases h : fieldMerge a b with
    | none =>
      rw [h] at ok
      cases ok
    | some r' =>
      rw [h] at ok
      cases ok
      rfl
  · intro merged
    obtain ⟨⟨⟨fmt, -⟩, ⟨domain, -⟩, modifier, -⟩, -⟩ := fieldMerge_eq_some.mp merged
    rw [unify_agreeing ha fmt domain modifier, merged]
    rfl

theorem unify_comm_known (ha : a.fmt ≠ .unknown) (hb : b.fmt ≠ .unknown) : unify a b = unify b a := by
  by_cases fmt : a.fmt = b.fmt
  · by_cases domain : a.domain = b.domain
    · by_cases modifier : a.modifier = b.modifier
      · rw [unify_agreeing ha fmt domain modifier, unify_agreeing hb fmt.symm domain.symm modifier.symm,
          fieldMerge_lawful.comm]
      · simp [unify, hb, fmt, domain, modifier, Ne.symm modifier]
    · simp [unify, hb, fmt, domain, Ne.symm domain]
  · simp [unify, ha, hb, fmt, Ne.symm fmt]

theorem unify_self (a : Spec) : unify a a = .ok a := by
  by_cases known : a.fmt = .unknown
  · exact unify_unknown_left a known
  · rw [unify_agreeing known rfl rfl rfl, fieldMerge_lawful.idem]

/-- **Three specifications merge in either order**, whatever is unknown. -/
theorem unify_assoc (a b c : Spec) :
    ((unify a b).toOption.bind fun r => (unify r c).toOption) =
      (unify b c).toOption.bind fun r => (unify a r).toOption := by
  by_cases ha : a.fmt = .unknown
  · rw [unify_unknown_left b ha]
    cases h : (unify b c).toOption with
    | none => exact h
    | some r =>
      rw [Option.bind_some, unify_unknown_left r ha]
      exact h
  · by_cases hb : b.fmt = .unknown
    · rw [unify_unknown_right ha hb, unify_unknown_left c hb]
      rfl
    · by_cases hc : c.fmt = .unknown
      · rw [unify_unknown_right hb hc]
        cases h : (unify a b).toOption with
        | none => exact h.symm
        | some r =>
          have known : r.fmt ≠ .unknown := by
            rw [unify_toOption ha hb] at h
            rw [← (fieldMerge_eq_some.mp h).1.1.2]
            exact ha
          rw [Option.bind_some, unify_unknown_right known hc]
          exact h.symm
      · rw [unify_toOption ha hb, unify_toOption hb hc]
        have left : ((fieldMerge a b).bind fun r => (unify r c).toOption) = (fieldMerge a b).bind (fieldMerge · c) := by
          apply Option.bind_congr
          intro r merged
          apply unify_toOption _ hc
          rw [← (fieldMerge_eq_some.mp merged).1.1.2]
          exact ha
        have right : ((fieldMerge b c).bind fun r => (unify a r).toOption) = (fieldMerge b c).bind (fieldMerge a ·) := by
          apply Option.bind_congr
          intro r merged
          apply unify_toOption ha
          rw [← (fieldMerge_eq_some.mp merged).1.1.2]
          exact hb
        rw [left, right]
        exact fieldMerge_lawful.assoc a b c

end Merge

/-! ## The field-wise laws -/

/-- Equal, or one of them a wildcard. -/
def DimFits (m n : Nat) : Prop := m = n ∨ m = 0 ∨ n = 0

/-- Every field of the two is compatible. -/
structure Compatible (a b : Spec) : Prop where
  fmt : a.fmt = b.fmt ∨ a.fmt = .unknown ∨ b.fmt = .unknown
  width : DimFits a.width b.width
  height : DimFits a.height b.height
  stride : DimFits a.stride b.stride
  verStride : DimFits a.verStride b.verStride
  domain : a.fmt ≠ .unknown → b.fmt ≠ .unknown → a.domain = b.domain
  modifier : a.fmt ≠ .unknown → b.fmt ≠ .unknown → a.modifier = b.modifier

/-- The dimensions that one fixes are those of another. -/
structure DimsIn (a r : Spec) : Prop where
  width : a.width ≠ 0 → r.width = a.width
  height : a.height ≠ 0 → r.height = a.height
  stride : a.stride ≠ 0 → r.stride = a.stride
  verStride : a.verStride ≠ 0 → r.verStride = a.verStride

/-- A result with all that one side fixes. -/
structure Carries (r a : Spec) : Prop where
  fmt : a.fmt ≠ .unknown → r.fmt = a.fmt ∧ r.domain = a.domain ∧ r.modifier = a.modifier
  dims : DimsIn a r

/-- **The laws of a field-wise wildcard merge.** -/
structure UnifyLaws (a b c : Spec) : Prop where
  succeeds : (∃ r, unify a b = .ok r) ↔ Compatible a b
  carries : ∀ r, unify a b = .ok r → Carries r a ∧ Carries r b
  idem : unify a a = .ok a
  comm : unify a b = unify b a
  assoc : ((unify a b).toOption.bind fun r => (unify r c).toOption) =
    (unify b c).toOption.bind fun r => (unify a r).toOption

/-- Two specifications of which none fixes anything that the short cut drops. -/
def Keeps (a b : Spec) : Prop :=
  (a.fmt = .unknown → b.fmt = .unknown → a = b) ∧ (a.fmt = .unknown → DimsIn a b) ∧ (b.fmt = .unknown → DimsIn b a)

section Laws
variable {a b c r : Spec}

theorem DimsIn.refl (a : Spec) : DimsIn a a := ⟨fun _ => rfl, fun _ => rfl, fun _ => rfl, fun _ => rfl⟩

theorem Carries.refl (a : Spec) : Carries a a := ⟨fun _ => ⟨rfl, rfl, rfl⟩, .refl a⟩

/-- What carries an unknown format has to carry its dimensions only. -/
theorem carries_unknown (unknown : a.fmt = .unknown) (dims : DimsIn a r) : Carries r a :=
  ⟨fun known => absurd unknown known, dims⟩

theorem dimFits_of {m n : Nat} (fixed : m ≠ 0 → n = m) : DimFits m n := by
  by_cases zero : m = 0
  · exact Or.inr (Or.inl zero)
  · exact Or.inl (fixed zero).symm

theorem compatible_unknown (unknown : a.fmt = .unknown) (dims : DimsIn a b) : Compatible a b where
  fmt := Or.inr (Or.inl unknown)
  width := dimFits_of dims.width
  height := dimFits_of dims.height
  stride := dimFits_of dims.stride
  verStride := dimFits_of dims.verStride
  domain := fun known => absurd unknown known
  modifier := fun known => absurd unknown known

theorem DimFits.symm {m n : Nat} (fits : DimFits m n) : DimFits n m := by
  rcases fits with same | left | right
  · exact Or.inl same.symm
  · exact Or.inr (Or.inr left)
  · exact Or.inr (Or.inl right)

theorem Compatible.symm (fits : Compatible a b) : Compatible b a where
  fmt := by
    rcases fits.fmt with same | left | right
    · exact Or.inl same.symm
    · exact Or.inr (Or.inr left)
    · exact Or.inr (Or.inl right)
  width := fits.width.symm
  height := fits.height.symm
  stride := fits.stride.symm
  verStride := fits.verStride.symm
  domain := fun hb ha => (fits.domain ha hb).symm
  modifier := fun hb ha => (fits.modifier ha hb).symm

theorem ok_iff_toOption {α : Type} {x : Result α} {y : α} : x = .ok y ↔ x.toOption = some y := by
  cases x <;> simp [Except.toOption]

theorem mergeDim_isSome {m n : Nat} : (∃ k, mergeDim m n = some k) ↔ DimFits m n := by
  rw [← Option.isSome_iff_exists]
  exact Merge.wild_isSome

/-- Known formats merge exactly where every field is compatible. -/
theorem unify_ok_known (ha : a.fmt ≠ .unknown) (hb : b.fmt ≠ .unknown) :
    (∃ r, unify a b = .ok r) ↔ Compatible a b := by
  simp only [ok_iff_toOption, unify_toOption ha hb, fieldMerge_eq_some]
  constructor
  · rintro ⟨r, ⟨⟨fmt, -⟩, ⟨domain, -⟩, modifier, -⟩, width, height, stride, verStride⟩
    exact ⟨Or.inl fmt, mergeDim_isSome.mp ⟨_, width⟩, mergeDim_isSome.mp ⟨_, height⟩, mergeDim_isSome.mp ⟨_, stride⟩,
      mergeDim_isSome.mp ⟨_, verStride⟩, fun _ _ => domain, fun _ _ => modifier⟩
  · intro fits
    obtain ⟨width, hw⟩ := mergeDim_isSome.mpr fits.width
    obtain ⟨height, hh⟩ := mergeDim_isSome.mpr fits.height
    obtain ⟨stride, hs⟩ := mergeDim_isSome.mpr fits.stride
    obtain ⟨verStride, hv⟩ := mergeDim_isSome.mpr fits.verStride
    have fmt : a.fmt = b.fmt := fits.fmt.resolve_right fun unknown => unknown.elim ha hb
    exact ⟨{ a with width, height, stride, verStride },
      ⟨⟨fmt, rfl⟩, ⟨fits.domain ha hb, rfl⟩, fits.modifier ha hb, rfl⟩, hw, hh, hs, hv⟩

theorem unify_carries_known (ha : a.fmt ≠ .unknown) (hb : b.fmt ≠ .unknown) (merged : unify a b = .ok r) :
    Carries r a ∧ Carries r b := by
  rw [ok_iff_toOption, unify_toOption ha hb, fieldMerge_eq_some] at merged
  obtain ⟨⟨⟨fmt, fmt'⟩, ⟨domain, domain'⟩, modifier, modifier'⟩, width, height, stride, verStride⟩ := merged
  have carried {m n k : Nat} (dim : mergeDim m n = some k) : (m ≠ 0 → k = m) ∧ (n ≠ 0 → k = n) :=
    Merge.wild_carries dim
  constructor
  · exact ⟨fun _ => ⟨fmt'.symm, domain'.symm, modifier'.symm⟩,
      (carried width).1, (carried height).1, (carried stride).1, (carried verStride).1⟩
  · exact ⟨fun _ => ⟨fmt'.symm.trans fmt, domain'.symm.trans domain, modifier'.symm.trans modifier⟩,
      (carried width).2, (carried height).2, (carried stride).2, (carried verStride).2⟩

/-- **The laws hold exactly where the short cut drops nothing**: between known formats, where an
unknown format fixes no dimension that the other side has not, and between equal ones. -/
theorem unify_laws_iff (a b c : Spec) : UnifyLaws a b c ↔ Keeps a b := by
  constructor
  · intro laws
    have same : a.fmt = .unknown → b.fmt = .unknown → a = b := by
      intro ha hb
      have swapped := laws.comm
      rw [unify_unknown_left b ha, unify_unknown_left a hb] at swapped
      exact (Except.ok.inj swapped).symm
    refine ⟨same, fun ha => ?_, fun hb => ?_⟩
    · exact (laws.carries b (unify_unknown_left b ha)).1.dims
    · by_cases ha : a.fmt = .unknown
      · rw [same ha hb]
        exact .refl b
      · exact (laws.carries a (unify_unknown_right ha hb)).2.dims
  · rintro ⟨same, left, right⟩
    by_cases ha : a.fmt = .unknown
    · have whole := unify_unknown_left b ha
      constructor
      · exact ⟨fun _ => compatible_unknown ha (left ha), fun _ => ⟨b, whole⟩⟩
      · intro r merged
        rw [whole] at merged
        cases merged
        exact ⟨carries_unknown ha (left ha), .refl b⟩
      · exact unify_self a
      · by_cases hb : b.fmt = .unknown
        · rw [same ha hb]
        · rw [whole, unify_unknown_right hb ha]
      · exact unify_assoc a b c
    · by_cases hb : b.fmt = .unknown
      · have whole := unify_unknown_right ha hb
        constructor
        · exact ⟨fun _ => (compatible_unknown hb (right hb)).symm, fun _ => ⟨a, whole⟩⟩
        · intro r merged
          rw [whole] at merged
          cases merged
          exact ⟨.refl a, carries_unknown hb (right hb)⟩
        · exact unify_self a
        · rw [whole, unify_unknown_left a hb]
        · exact unify_assoc a b c
      · constructor
        · exact unify_ok_known ha hb
        · exact fun r merged => unify_carries_known ha hb merged
        · exact unify_self a
        · exact unify_comm_known ha hb
        · exact unify_assoc a b c

end Laws

/-- **A dimension that is lost**: an unknown format asks for 640 columns, a decoder gives 320. -/
theorem unify_loses :
    unify { width := 640 } { width := 320, fmt := .nv12 } = .ok { width := 320, fmt := .nv12 } ∧
      ¬UnifyLaws { width := 640 } { width := 320, fmt := .nv12 } {} := by
  refine ⟨rfl, fun laws => ?_⟩
  have kept := (laws.carries { width := 320, fmt := .nv12 } rfl).1.dims.width (by decide)
  exact absurd kept (by decide)

end Rkvc
