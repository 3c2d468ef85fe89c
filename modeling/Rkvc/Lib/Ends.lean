import Mathlib.Logic.Hydra

/-!
# Runs that end

`Ends next P s`: every run of `next` from `s` is finite, and where it can go no
further `P` holds. A system whose states carry a bag of loads ends if each step
puts finitely many lighter loads in the place of some it had (`Ends.of_loads`):
the multiset order, with the heads cut one after another (`lighter_of_dominated`).
-/

namespace Rkvc.Lib
set_option autoImplicit false

open Relation

inductive Ends {S : Type} (next : S → S → Prop) (P : S → Prop) : S → Prop
  | intro {s : S} : (∀ t, next s t → Ends next P t) → ((∀ t, ¬next s t) → P s) → Ends next P s

section Runs

variable {S : Type} {next : S → S → Prop} {P : S → Prop} {s t : S}

/-- No run goes on for ever. -/
theorem Ends.acc (h : Ends next P s) : Acc (fun t s => next s t) s := by
  induction h with
  | intro _ _ ih => exact ⟨_, ih⟩

/-- Wherever a run has got to, it still ends. -/
theorem Ends.reach (h : Ends next P s) (run : ReflTransGen next s t) : Ends next P t := by
  induction run with
  | refl => exact h
  | tail _ step ih =>
    cases ih with
    | intro go _ => exact go _ step

/-- A run that can go no further is at the end. -/
theorem Ends.stuck (h : Ends next P s) (run : ReflTransGen next s t) (stop : ∀ u, ¬next t u) : P t := by
  cases h.reach run with
  | intro _ done => exact done stop

/-- Some run gets there. -/
theorem Ends.exists (h : Ends next P s) : ∃ t, ReflTransGen next s t ∧ P t := by
  induction h with
  | @intro s _ done ih =>
    by_cases go : ∃ t, next s t
    · obtain ⟨t, step⟩ := go
      obtain ⟨u, run, here⟩ := ih t step
      exact ⟨u, .head step run, here⟩
    · exact ⟨s, .refl, done (not_exists.mp go)⟩

/-- **An invariant and a measure**: `inv s m` says that `s` is fine and measures `m`. -/
theorem Ends.of_measure {M : Type} {lt : M → M → Prop} (wf : WellFounded lt) (inv : S → M → Prop)
    (down : ∀ s m t, inv s m → next s t → ∃ m', inv t m' ∧ lt m' m)
    (stop : ∀ s m, inv s m → (∀ t, ¬next s t) → P s) {s : S} {m : M} (h : inv s m) : Ends next P s := by
  induction m using wf.induction generalizing s with
  | _ m ih =>
    refine .intro (fun t step => ?_) (stop s m h)
    obtain ⟨m', h', less⟩ := down s m t h step
    exact ih m' less h'

/-- **A system ends if one that can do as much does.** -/
theorem Ends.of_simulation {S' : Type} {next' : S' → S' → Prop} {P' : S' → Prop} (R : S → S' → Prop)
    (step : ∀ s s' t, R s s' → next s t → ∃ t', next' s' t' ∧ R t t') (stop : ∀ s s', R s s' → (∀ t, ¬next s t) → P s)
    {s : S} {s' : S'} (h : R s s') (ends : Ends next' P' s') : Ends next P s := by
  induction ends generalizing s with
  | @intro s' _ _ ih =>
    refine .intro (fun t go => ?_) (stop s s' h)
    obtain ⟨t', go', h'⟩ := step s s' t h go
    exact ih t' go' h'

end Runs

/-! ## Loads -/

section Loads

variable {L : Type} {less : L → L → Prop}

/-- One after another, loads have given way to lighter ones. -/
def Lighter (less : L → L → Prop) : Multiset L → Multiset L → Prop := TransGen (CutExpand less)

theorem lighter_wf (wf : WellFounded less) : WellFounded (Lighter less) := wf.cutExpand.transGen

/-- The loads beside them do not matter. -/
theorem Lighter.add {A B : Multiset L} (h : Lighter less A B) (C : Multiset L) : Lighter less (A + C) (B + C) := by
  refine TransGen.lift (· + C) (fun X Y cut => ?_) A B h
  obtain ⟨T, a, lower, same⟩ := cut
  exact ⟨T, a, lower, by rw [add_right_comm, same, add_right_comm]⟩

/-- **Loads that are each lighter than one of those in whose place they come.** -/
theorem lighter_of_dominated {X Y : Multiset L} (some : X ≠ 0) (below : ∀ y ∈ Y, ∃ x ∈ X, less y x) :
    Lighter less Y X := by
  classical
  induction X using Multiset.induction_on generalizing Y with
  | empty => exact absurd rfl some
  | cons a X ih =>
    by_cases last : X = 0
    · subst last
      refine .single (cutExpand_singleton fun y hy => ?_)
      obtain ⟨x, hx, lower⟩ := below y hy
      obtain rfl := Multiset.mem_singleton.mp hx
      exact lower
    · -- the first cut grows what is below its head, the others the rest
      have split : Y = Y.filter (less · a) + Y.filter (¬less · a) := (Multiset.filter_add_not _ _).symm
      have rest : Lighter less (Y.filter (¬less · a)) X := by
        refine ih last fun y hy => ?_
        obtain ⟨mem, above⟩ := Multiset.mem_filter.mp hy
        obtain ⟨x, hx, lower⟩ := below y mem
        rcases Multiset.mem_cons.mp hx with rfl | hx
        · exact absurd lower above
        · exact ⟨x, hx, lower⟩
      have cut : CutExpand less (X + Y.filter (less · a)) (a ::ₘ X) := by
        refine ⟨Y.filter (less · a), a, fun y hy => (Multiset.mem_filter.mp hy).2, ?_⟩
        rw [← Multiset.singleton_add]
        ac_rfl
      rw [split, add_comm]
      exact (rest.add _).tail cut

/-- **A system that trades its loads for lighter ones ends.** -/
theorem Ends.of_loads {S : Type} {next : S → S → Prop} {P : S → Prop} (wf : WellFounded less)
    (inv : S → Multiset L → Prop)
    (trade : ∀ s B t, inv s B → next s t → ∃ X Y rest, B = X + rest ∧ inv t (Y + rest) ∧ X ≠ 0 ∧
      ∀ y ∈ Y, ∃ x ∈ X, less y x)
    (stop : ∀ s B, inv s B → (∀ t, ¬next s t) → P s) {s : S} {B : Multiset L} (h : inv s B) : Ends next P s := by
  refine Ends.of_measure (lighter_wf wf) inv (fun s B t hs step => ?_) stop h
  obtain ⟨X, Y, rest, rfl, ht, some, below⟩ := trade s B t hs step
  exact ⟨Y + rest, ht, (lighter_of_dominated some below).add rest⟩

end Loads

end Rkvc.Lib
