import Mathlib.Logic.Equiv.Prod

/-!
# Partial merges

A merge joins two values into one, or fails. `Merge.Lawful` says that it may be
done in any order: it is idempotent, commutative and associative, failures
included. Merges with a wildcard and merges of equals are lawful, and so are
the merges of pairs and of records that are made of lawful ones.
-/

namespace Rkvc.Lib
set_option autoImplicit false

/-- An operation that joins two values, or fails. -/
abbrev Merge (α : Type) : Type := α → α → Option α

namespace Merge
variable {α β : Type}

/-- **Any order will do.** -/
structure Lawful (m : Merge α) : Prop where
  idem : ∀ a, m a a = some a
  comm : ∀ a b, m a b = m b a
  assoc : ∀ a b c, (m a b).bind (m · c) = (m b c).bind (m a ·)

section Atoms
variable [DecidableEq α]

/-- Equal values only. -/
def equal : Merge α := fun a b => if a = b then some a else none

/-- Equal values, and `w` with any. -/
def wild (w : α) : Merge α := fun a b => if a ≠ w ∧ b ≠ w ∧ a ≠ b then none else some (if a ≠ w then a else b)

theorem equal_lawful : Lawful (equal : Merge α) := by
  constructor
  · intro a
    exact if_pos rfl
  · intro a b
    by_cases same : a = b
    · rw [same]
    · rw [equal, equal, if_neg same, if_neg (Ne.symm same)]
  · intro a b c
    unfold equal
    by_cases left : a = b
    · subst left
      by_cases right : a = c <;> simp [right]
    · by_cases right : b = c
      · subst right
        simp [left]
      · simp [left, right]

variable {w a b : α}

theorem wild_isSome : (wild w a b).isSome ↔ a = b ∨ a = w ∨ b = w := by
  unfold wild
  split
  · rename_i clash
    simp only [Option.isSome_none, Bool.false_eq_true, false_iff, not_or]
    exact ⟨clash.2.2, clash.1, clash.2.1⟩
  · rename_i fits
    simp only [Option.isSome_some, true_iff]
    by_contra apart
    simp only [not_or] at apart
    exact fits ⟨apart.2.1, apart.2.2, apart.1⟩

/-- Neither side loses what it fixes. -/
theorem wild_carries {r : α} (merged : wild w a b = some r) : (a ≠ w → r = a) ∧ (b ≠ w → r = b) := by
  unfold wild at merged
  split at merged
  · cases merged
  · rename_i fits
    cases merged
    constructor
    · intro fixed
      exact if_pos fixed
    · intro fixed
      by_cases left : a = w
      · exact if_neg (not_not_intro left)
      · rw [if_pos left]
        by_contra apart
        exact fits ⟨left, fixed, apart⟩

theorem wild_self (a : α) : wild w a a = some a := by simp [wild]

theorem wild_left (b : α) : wild w w b = some b := by simp [wild]

theorem wild_right (a : α) : wild w a w = some a := by
  by_cases same : a = w <;> simp [wild, same]

theorem wild_none (left : a ≠ w) (right : b ≠ w) (apart : a ≠ b) : wild w a b = none := if_pos ⟨left, right, apart⟩

/-- The cases: a wildcard on a side, twice the same, or a clash. -/
theorem wild_lawful (w : α) : Lawful (wild w) := by
  constructor
  · exact wild_self
  · intro a b
    by_cases left : a = w
    · rw [left, wild_left, wild_right]
    · by_cases right : b = w
      · rw [right, wild_left, wild_right]
      · by_cases same : a = b
        · rw [same]
        · rw [wild_none left right same, wild_none right left (Ne.symm same)]
  · intro a b c
    by_cases first : a = w
    · rw [first, wild_left, Option.bind_some]
      cases wild w b c with
      | none => rfl
      | some r => exact (wild_left r).symm
    · by_cases last : c = w
      · rw [last, wild_right, Option.bind_some]
        cases wild w a b with
        | none => rfl
        | some r => exact wild_right r
      · by_cases middle : b = w
        · rw [middle, wild_left, wild_right, Option.bind_some, Option.bind_some]
        · by_cases left : a = b
          · subst left
            rw [wild_self, Option.bind_some]
            by_cases right : a = c
            · rw [right, wild_self, Option.bind_some, wild_self]
            · rw [wild_none first last right]
              rfl
          · rw [wild_none first middle left, Option.bind_none]
            by_cases right : b = c
            · rw [right, wild_self, Option.bind_some, wild_none first last (right ▸ left)]
            · rw [wild_none middle last right]
              rfl

end Atoms

/-- Both components. -/
def both (m : Merge α) (m' : Merge β) : Merge (α × β) := fun a b =>
  (m a.1 b.1).bind fun x => (m' a.2 b.2).map fun y => (x, y)

theorem both_eq_some {m : Merge α} {m' : Merge β} {a b r : α × β} :
    both m m' a b = some r ↔ m a.1 b.1 = some r.1 ∧ m' a.2 b.2 = some r.2 := by
  unfold both
  constructor
  · intro merged
    obtain ⟨x, first, rest⟩ := Option.bind_eq_some_iff.mp merged
    obtain ⟨y, second, rfl⟩ := Option.map_eq_some_iff.mp rest
    exact ⟨first, second⟩
  · rintro ⟨first, second⟩
    rw [first, second]
    rfl

theorem Lawful.both {m : Merge α} {m' : Merge β} (left : Lawful m) (right : Lawful m') : Lawful (both m m') := by
  constructor
  · intro a
    exact both_eq_some.mpr ⟨left.idem a.1, right.idem a.2⟩
  · intro a b
    rw [Merge.both, Merge.both, left.comm, right.comm]
  · intro a b c
    -- both sides are the two associated merges, side by side
    have sides (x : Option α) (y : Option β) (f : α → Option α) (g : β → Option β) :
        ((x.bind fun x => y.map fun y => (x, y)).bind fun p => (f p.1).bind fun x => (g p.2).map fun y => (x, y)) =
          (x.bind f).bind fun x => (y.bind g).map fun y => (x, y) := by
      cases x with
      | none => rfl
      | some x =>
        cases y with
        | none => cases first : f x <;> simp [first]
        | some y => rfl
    unfold Merge.both
    rw [sides _ _ (fun x => m x c.1) (fun y => m' y c.2), sides _ _ (fun x => m a.1 x) (fun y => m' a.2 y), left.assoc,
      right.assoc]

/-- A merge of records, field by field. -/
def record (e : α ≃ β) (m : Merge β) : Merge α := fun a b => (m (e a) (e b)).map e.symm

theorem record_eq_some {e : α ≃ β} {m : Merge β} {a b r : α} :
    record e m a b = some r ↔ m (e a) (e b) = some (e r) := by
  unfold record
  rw [Option.map_eq_some_iff]
  constructor
  · rintro ⟨x, merged, rfl⟩
    rw [e.apply_symm_apply]
    exact merged
  · intro merged
    exact ⟨e r, merged, e.symm_apply_apply r⟩

theorem Lawful.record {m : Merge β} (lawful : Lawful m) (e : α ≃ β) : Lawful (record e m) := by
  constructor
  · intro a
    exact record_eq_some.mpr (lawful.idem (e a))
  · intro a b
    rw [Merge.record, Merge.record, lawful.comm]
  · intro a b c
    have fields (x : Option β) (f : β → Option β) :
        ((x.map e.symm).bind fun r => (f (e r)).map e.symm) = (x.bind f).map e.symm := by
      cases x with
      | none => rfl
      | some x => simp
    unfold Merge.record
    rw [fields _ (m · (e c)), fields _ (m (e a) ·), lawful.assoc]

end Merge

end Rkvc.Lib
