import Mathlib.Data.List.Infix

/-!
# The first occurrence of a word

`find p l` is the first position at which the word `p` occurs in `l`. More
input behind `l` moves no occurrence that was found; input in front of `l` moves
it by its length, if no occurrence begins there. A word that overlaps no shifted
copy of itself (`Unbordered`) is found behind a list it does not occur in.
-/

namespace Rkvc.Lib
set_option autoImplicit false

variable {α : Type} {p l m : List α} {i j k : Nat}

/-- No shifted copy of the word overlaps it. -/
def Unbordered (p : List α) : Prop := ∀ k, 0 < k → k < p.length → ¬p.drop k <+: p

/-- An occurrence in front of more input stays one. -/
theorem prefix_append_right (h : p <+: l.drop i) (hi : i ≤ l.length) : p <+: (l ++ m).drop i := by
  rw [List.drop_append_of_le_length hi]
  exact h.trans (List.prefix_append _ _)

/-- An occurrence that ends before the added input was there without it. -/
theorem prefix_of_append (h : p <+: (l ++ m).drop i) (hi : i + p.length ≤ l.length) : p <+: l.drop i := by
  rw [List.drop_append_of_le_length (by omega)] at h
  exact List.prefix_of_prefix_length_le h (List.prefix_append _ _) (by rw [List.length_drop]; omega)

/-- Two occurrences of an unbordered word do not overlap. -/
theorem Unbordered.apart (hp : Unbordered p) (hi : p <+: l.drop i) (hj : p <+: l.drop j) (lt : i < j) :
    i + p.length ≤ j := by
  by_contra overlap
  refine hp (j - i) (by omega) (by omega) ?_
  have shifted : p.drop (j - i) <+: l.drop j := by
    have := hi.drop (j - i)
    rwa [List.drop_drop, show i + (j - i) = j by omega] at this
  exact List.prefix_of_prefix_length_le shifted hj (by rw [List.length_drop]; omega)

variable [DecidableEq α]

/-- The first position at which a non-empty word occurs. -/
def find (p : List α) : List α → Option Nat
  | [] => none
  | a :: l => if p <+: a :: l then some 0 else (find p l).map (· + 1)

theorem find_cons (a : α) (l : List α) :
    find p (a :: l) = if p <+: a :: l then some 0 else (find p l).map (· + 1) := rfl

theorem find_some (h : find p l = some i) : p <+: l.drop i ∧ i < l.length := by
  induction l generalizing i with
  | nil => cases h
  | cons a l ih =>
    rw [find_cons] at h
    split at h
    · rename_i here
      cases h
      exact ⟨here, Nat.succ_pos _⟩
    · obtain ⟨j, hj, rfl⟩ := Option.map_eq_some_iff.mp h
      obtain ⟨later, bound⟩ := ih hj
      exact ⟨later, Nat.succ_lt_succ bound⟩

theorem find_min (h : find p l = some i) (hj : j < i) : ¬p <+: l.drop j := by
  induction l generalizing i j with
  | nil => cases h
  | cons a l ih =>
    rw [find_cons] at h
    split at h
    · cases h
      exact absurd hj (Nat.not_lt_zero j)
    · rename_i notHere
      obtain ⟨i, hi, rfl⟩ := Option.map_eq_some_iff.mp h
      cases j with
      | zero => exact notHere
      | succ j => exact ih hi (Nat.lt_of_succ_lt_succ hj)

theorem find_none (hp : p ≠ []) (h : find p l = none) (j : Nat) : ¬p <+: l.drop j := by
  induction l generalizing j with
  | nil => simpa using hp
  | cons a l ih =>
    rw [find_cons] at h
    split at h
    · cases h
    · rename_i notHere
      cases j with
      | zero => exact notHere
      | succ j => exact ih (Option.map_eq_none_iff.mp h) j

/-- Where no occurrence begins in front, the search is that of the rest. -/
theorem find_drop (h : ∀ j < k, ¬p <+: l.drop j) : find p l = (find p (l.drop k)).map (· + k) := by
  induction k generalizing l with
  | zero => simp
  | succ k ih =>
    cases l with
    | nil => rfl
    | cons a l =>
      have notHere : ¬p <+: a :: l := h 0 (Nat.succ_pos k)
      rw [find_cons, if_neg notHere, ih fun j hj => h (j + 1) (Nat.succ_lt_succ hj),
        List.drop_succ_cons, Option.map_map]
      exact congrArg (Option.map · _) (funext fun n => Nat.add_assoc n k 1)

theorem find_of_first (here : p <+: l.drop i) (hi : i < l.length) (first : ∀ j < i, ¬p <+: l.drop j) :
    find p l = some i := by
  rw [find_drop first]
  cases hl : l.drop i with
  | nil => exact absurd hl (List.ne_nil_of_length_pos (by rw [List.length_drop]; omega))
  | cons a t => rw [find_cons, if_pos (hl ▸ here)]; simp

/-- **What was found stays found** as the input grows. -/
theorem find_append (h : find p l = some i) : find p (l ++ m) = some i := by
  obtain ⟨here, bound⟩ := find_some h
  refine find_of_first (prefix_append_right here (Nat.le_of_lt bound))
    (by rw [List.length_append]; omega) fun j hj before => ?_
  have room : i + p.length ≤ l.length := by
    have := here.length_le
    rw [List.length_drop] at this
    omega
  exact find_min h hj (prefix_of_append before (by omega))

end Rkvc.Lib
