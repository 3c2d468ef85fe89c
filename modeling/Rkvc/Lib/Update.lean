import Mathlib.Data.List.Perm.Subperm
import Mathlib.Data.List.Nodup

/-!
# Arrays updated in place

A loop nest that updates an array in place, one element a turn. When the turns
have places of their own, every element is updated from what it was before the
loop (`update_at`), and the others are left (`update_other`).
-/

namespace Rkvc.Lib
set_option autoImplicit false

variable {α ι : Type}

/-- Run the turns, each of which updates the element at its place. -/
def update (place : ι → Nat) (f : ι → α → α) (turns : List ι) (buf : List α) : List α :=
  turns.foldl (fun buf turn => buf.modify (place turn) (f turn)) buf

section Update
variable {place : ι → Nat} {f : ι → α → α} {turns : List ι} {buf : List α}

@[simp] theorem update_length (place : ι → Nat) (f : ι → α → α) (turns : List ι) (buf : List α) :
    (update place f turns buf).length = buf.length := by
  induction turns generalizing buf with
  | nil => rfl
  | cons turn turns ih => exact (ih _).trans (List.length_modify _ _ _)

/-- Updates that change nothing. -/
theorem update_same (same : ∀ turn ∈ turns, ∀ a, f turn a = a) : update place f turns buf = buf := by
  induction turns generalizing buf with
  | nil => rfl
  | cons turn turns ih =>
    have first : f turn = id := funext (same turn List.mem_cons_self)
    rw [update, List.foldl_cons, first, List.modify_id]
    exact ih fun t mem => same t (List.mem_cons_of_mem _ mem)

theorem update_other {p : Nat} (out : ∀ turn ∈ turns, place turn ≠ p) : (update place f turns buf)[p]? = buf[p]? := by
  induction turns generalizing buf with
  | nil => rfl
  | cons turn turns ih =>
    have first := out turn List.mem_cons_self
    rw [update, List.foldl_cons]
    refine (ih fun t mem => out t (List.mem_cons_of_mem _ mem)).trans ?_
    rw [List.getElem?_modify_ne _ _ first]

/-- Every element is updated once. -/
theorem update_at {turn : ι} (once : (turns.map place).Nodup) (mem : turn ∈ turns) :
    (update place f turns buf)[place turn]? = (buf[place turn]?).map (f turn) := by
  induction turns generalizing buf with
  | nil => cases mem
  | cons head turns ih =>
    rw [List.map_cons, List.nodup_cons] at once
    rw [update, List.foldl_cons]
    rcases List.mem_cons.1 mem with rfl | mem
    · have others : ∀ t ∈ turns, place t ≠ place turn := by
        intro t later same
        exact once.1 (same ▸ List.mem_map_of_mem later)
      refine (update_other others).trans ?_
      rw [List.getElem?_modify_eq]
      rfl
    · have apart : place head ≠ place turn := by
        intro same
        exact once.1 (same ▸ List.mem_map_of_mem mem)
      refine (ih once.2 mem).trans ?_
      rw [List.getElem?_modify_ne _ _ apart]

/-- A loop whose every turn succeeds in an array of this size. -/
theorem foldlM_update {step : List α → ι → Option (List α)}
    (each : ∀ turn ∈ turns, ∀ b : List α, b.length = buf.length → step b turn = some (b.modify (place turn) (f turn))) :
    turns.foldlM step buf = some (update place f turns buf) := by
  induction turns generalizing buf with
  | nil => rfl
  | cons turn turns ih =>
    rw [List.foldlM_cons, each turn List.mem_cons_self buf rfl]
    apply ih
    intro t mem b len
    exact each t (List.mem_cons_of_mem _ mem) b (len.trans (List.length_modify _ _ _))

end Update

/-- As many places as there are elements, and each of them: every element once. -/
theorem perm_range {places : List Nat} {n : Nat} (count : places.length = n) (covers : ∀ i < n, i ∈ places) :
    places.Perm (List.range n) := by
  apply List.Perm.symm
  apply (List.Nodup.subperm List.nodup_range ?_).perm_of_length_le
  · exact Nat.le_of_eq (count.trans List.length_range.symm)
  · intro i hi
    exact covers i (List.mem_range.1 hi)

end Rkvc.Lib
