import Mathlib.Data.List.Basic

/-!
# Spans one after another

A span is a start and a length. Spans laid one after another tile what lies
between the first start and the last end: no two of them meet, and none of the
places is left out (`Consecutive.tiles`).
-/

namespace Rkvc.Lib
set_option autoImplicit false

/-- The spans from `first` to `last`, each where the one in front of it ends. -/
def Consecutive : Nat → List (Nat × Nat) → Nat → Prop
  | first, [], last => first = last
  | first, (start, length) :: spans, last => start = first ∧ Consecutive (start + length) spans last

/-- `spans` take the places below `n` apart. -/
structure Tiles (n : Nat) (spans : List (Nat × Nat)) : Prop where
  consecutive : Consecutive 0 spans n
  within : ∀ s ∈ spans, s.1 + s.2 ≤ n
  disjoint : spans.Pairwise fun s t => s.1 + s.2 ≤ t.1
  covers : ∀ i, i < n → ∃ s ∈ spans, s.1 ≤ i ∧ i < s.1 + s.2

namespace Consecutive
variable {first last : Nat} {spans : List (Nat × Nat)}

theorem bounds (h : Consecutive first spans last) : first ≤ last ∧ ∀ s ∈ spans, first ≤ s.1 ∧ s.1 + s.2 ≤ last := by
  induction spans generalizing first with
  | nil =>
    obtain rfl : first = last := h
    simp
  | cons span spans ih =>
    obtain ⟨start, length⟩ := span
    obtain ⟨rfl, tail⟩ := h
    obtain ⟨le, each⟩ := ih tail
    refine ⟨by omega, ?_⟩
    rintro s (_ | ⟨_, mem⟩)
    · exact ⟨Nat.le_refl _, le⟩
    · have := each s mem
      omega

theorem disjoint (h : Consecutive first spans last) : spans.Pairwise fun s t => s.1 + s.2 ≤ t.1 := by
  induction spans generalizing first with
  | nil => exact List.Pairwise.nil
  | cons span spans ih =>
    obtain ⟨start, length⟩ := span
    obtain ⟨rfl, tail⟩ := h
    apply List.pairwise_cons.2
    exact ⟨fun s mem => (tail.bounds.2 s mem).1, ih tail⟩

theorem covers (h : Consecutive first spans last) {i : Nat} (lo : first ≤ i) (hi : i < last) :
    ∃ s ∈ spans, s.1 ≤ i ∧ i < s.1 + s.2 := by
  induction spans generalizing first with
  | nil =>
    obtain rfl : first = last := h
    omega
  | cons span spans ih =>
    obtain ⟨start, length⟩ := span
    obtain ⟨rfl, tail⟩ := h
    by_cases head : i < start + length
    · exact ⟨(start, length), List.mem_cons_self, lo, head⟩
    · obtain ⟨s, mem, at_i⟩ := ih tail (Nat.le_of_not_lt head)
      exact ⟨s, List.mem_cons_of_mem _ mem, at_i⟩

theorem tiles {n : Nat} (h : Consecutive 0 spans n) : Tiles n spans where
  consecutive := h
  within s mem := (h.bounds.2 s mem).2
  disjoint := h.disjoint
  covers i hi := h.covers (Nat.zero_le i) hi

end Consecutive

end Rkvc.Lib
