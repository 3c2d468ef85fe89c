import Mathlib.Algebra.Group.Nat.Defs
import Mathlib.Data.List.Basic
import Mathlib.Tactic.Common

/-!
# Loops over an `int`

A loop that counts in an `int` adds its step behind every turn, and a sum past the
largest `int` is a fault (`none`), as is a turn that fails. A loop that has no
fault gives what its turns give, in order (`forInt_eq`), and it has none exactly if
no turn fails and no sum is too large (`forInt_isSome`). A loop over several
elements at once with a loop over the rest gives the same (`wideInt_eq`).
-/

namespace Rkvc.Lib
set_option autoImplicit false

theorem bind_isSome {α β : Type} {o : Option α} {f : α → Option β} (done : (o.bind f).isSome) :
    ∃ a, o = some a ∧ (f a).isSome := by
  cases o with
  | none => cases done
  | some a => exact ⟨a, rfl, done⟩

/-- The sum of two `int`s that are not negative. -/
def intSum (a b : Nat) : Option Nat := if a + b < 2 ^ 31 then some (a + b) else none

theorem intSum_some {a b : Nat} (fits : a + b < 2 ^ 31) : intSum a b = some (a + b) := if_pos fits

theorem intSum_isSome {a b : Nat} : (intSum a b).isSome ↔ a + b < 2 ^ 31 := by
  rw [intSum]
  split
  · rename_i fits
    exact ⟨fun _ => fits, fun _ => rfl⟩
  · rename_i wraps
    exact ⟨nofun, fun fits => absurd fits wraps⟩

theorem intSum_eq {a b c : Nat} (sum : intSum a b = some c) : c = a + b := by
  rw [intSum] at sum
  split at sum
  · exact (Option.some.inj sum).symm
  · cases sum

/-- The product of two `int`s that are not negative. -/
def intMul (a b : Nat) : Option Nat := if a * b < 2 ^ 31 then some (a * b) else none

theorem intMul_some {a b : Nat} (fits : a * b < 2 ^ 31) : intMul a b = some (a * b) := if_pos fits

theorem intMul_eq {a b c : Nat} (product : intMul a b = some c) : c = a * b ∧ c < 2 ^ 31 := by
  rw [intMul] at product
  split at product
  · cases product
    exact ⟨rfl, by assumption⟩
  · cases product

/-- The values that a loop counts through. -/
def visits (first last step : Nat) : List Nat := List.range' first ((last - first + step - 1) / step) step

section Visits

variable {first last step i : Nat}

theorem visits_done (done : last ≤ first) (positive : 0 < step) : visits first last step = [] := by
  have none : (last - first + step - 1) / step = 0 := Nat.div_eq_of_lt (by omega)
  rw [visits, none, List.range'_zero]

theorem visits_turn (turn : first < last) (positive : 0 < step) :
    visits first last step = first :: visits (first + step) last step := by
  have count : (last - first + step - 1) / step = (last - (first + step) + step - 1) / step + 1 := by
    by_cases more : first + step ≤ last
    · have shift : last - first + step - 1 = last - (first + step) + step - 1 + step := by omega
      rw [shift, Nat.add_div_right _ positive]
    · have none : (last - (first + step) + step - 1) / step = 0 := Nat.div_eq_of_lt (by omega)
      rw [none, Nat.zero_add]
      exact Nat.div_eq_of_lt_le (by omega) (by omega)
  rw [visits, count, List.range'_succ, visits]

theorem mem_visits (positive : 0 < step) : i ∈ visits first last step ↔ i < last ∧ ∃ k, i = first + step * k := by
  rw [visits, List.mem_range']
  constructor
  · rintro ⟨k, below, rfl⟩
    have le := (Nat.le_div_iff_mul_le positive).mp (Nat.succ_le_of_lt below)
    rw [Nat.succ_mul, Nat.mul_comm] at le
    exact ⟨by omega, k, rfl⟩
  · rintro ⟨below, k, rfl⟩
    refine ⟨k, (Nat.le_div_iff_mul_le positive).mpr ?_, rfl⟩
    rw [Nat.succ_mul, Nat.mul_comm]
    omega

/-- Counting by ones. -/
theorem visits_one (first last : Nat) : visits first last 1 = List.range' first (last - first) := by
  rw [visits, Nat.add_sub_cancel, Nat.div_one]

theorem visits_zero (n : Nat) : visits 0 n 1 = List.range n := by
  rw [visits_one, List.range_eq_range', Nat.sub_zero]

/-- Counting so many steps. -/
theorem visits_add (first n : Nat) : visits first (first + n) 1 = (List.range n).map (first + ·) := by
  rw [visits_one, Nat.add_sub_cancel_left, List.range'_eq_map_range]

/-- Counting in blocks, and in each block by ones, is counting by ones. -/
theorem visits_blocks (positive : 0 < step) (first last : Nat) :
    (visits first last step).flatMap (fun b => visits b (min (b + step) last) 1) = visits first last 1 := by
  by_cases turn : first < last
  · rw [visits_turn turn positive, List.flatMap_cons, visits_blocks positive (first + step) last, visits_one, visits_one,
      visits_one]
    by_cases more : first + step ≤ last
    · have block : min (first + step) last - first = step := by omega
      have all : last - first = step + (last - (first + step)) := by omega
      rw [block, all, List.range'_append_1]
    · have block : min (first + step) last - first = last - first := by omega
      have none : last - (first + step) = 0 := by omega
      rw [block, none, List.range'_zero, List.append_nil]
  · rw [visits_done (Nat.le_of_not_lt turn) positive, visits_done (Nat.le_of_not_lt turn) Nat.one_pos]
    rfl
termination_by last - first

end Visits

section Loop

variable {α : Type} {first last step width : Nat} {body wide rest : Nat → Option (List α)} {g : Nat → List α}

def forLoop (last step : Nat) (body : Nat → Option (List α)) : Nat → Nat → Option (List α)
  | 0, _ => none
  | fuel + 1, i =>
    if i < last then
      (body i).bind fun front => (intSum i step).bind fun next => (forLoop last step body fuel next).map (front ++ ·)
    else some []

/-- **`for (int i = first; i < last; i += step)`**: what the turns give, in order. -/
def forInt (first last step : Nat) (body : Nat → Option (List α)) : Option (List α) :=
  forLoop last step body (last - first + 1) first

def wideLoop (last width : Nat) (wide rest : Nat → Option (List α)) : Nat → Nat → Option (List α)
  | 0, _ => none
  | fuel + 1, i =>
    (intSum i width).bind fun next =>
      if next ≤ last then (wide i).bind fun front => (wideLoop last width wide rest fuel next).map (front ++ ·)
      else rest i

/-- **`for (; i + width <= last; i += width)`**, and what is done with the rest. -/
def wideInt (first last width : Nat) (wide rest : Nat → Option (List α)) : Option (List α) :=
  wideLoop last width wide rest (last - first + 1) first

/-- A relation that holds of lists when it holds of their parts. -/
structure Appends (R : List α → List α → Prop) : Prop where
  nil : R [] []
  append : ∀ {a b c d}, R a b → R c d → R (a ++ c) (b ++ d)

theorem appends_eq : Appends (@Eq (List α)) := ⟨rfl, fun ab cd => by rw [ab, cd]⟩

/-- The same elements, in any order. -/
def Alike (l l' : List α) : Prop := ∀ a, a ∈ l ↔ a ∈ l'

theorem appends_alike : Appends (@Alike α) where
  nil := fun _ => Iff.rfl
  append := by
    intro a b c d ab cd e
    rw [List.mem_append, List.mem_append, ab e, cd e]

variable {R : List α → List α → Prop}

theorem forLoop_rel (appends : Appends R) (positive : 0 < step) {fuel i : Nat} (enough : last - i < fuel)
    (each : ∀ j ∈ visits i last step, ∃ l, body j = some l ∧ R l (g j))
    (sums : ∀ j ∈ visits i last step, j + step < 2 ^ 31) :
    ∃ l, forLoop last step body fuel i = some l ∧ R l ((visits i last step).flatMap g) := by
  induction fuel generalizing i with
  | zero => exact absurd enough (Nat.not_lt_zero _)
  | succ fuel ih =>
    rw [forLoop]
    by_cases turn : i < last
    · have more := visits_turn turn positive
      rw [more] at each sums ⊢
      obtain ⟨⟨front, first, like⟩, each⟩ := List.forall_mem_cons.mp each
      obtain ⟨sum, sums⟩ := List.forall_mem_cons.mp sums
      obtain ⟨later, ran, likes⟩ := ih (by omega) each sums
      refine ⟨front ++ later, ?_, ?_⟩
      · rw [if_pos turn, first, Option.bind_some, intSum_some sum, Option.bind_some, ran, Option.map_some]
      · rw [List.flatMap_cons]
        exact appends.append like likes
    · rw [if_neg turn, visits_done (Nat.le_of_not_lt turn) positive]
      exact ⟨[], rfl, appends.nil⟩

theorem forLoop_isSome (positive : 0 < step) {fuel i : Nat} (done : (forLoop last step body fuel i).isSome) :
    ∀ j ∈ visits i last step, (body j).isSome ∧ j + step < 2 ^ 31 := by
  induction fuel generalizing i with
  | zero => exact absurd done (by simp [forLoop])
  | succ fuel ih =>
    rw [forLoop] at done
    by_cases turn : i < last
    · rw [if_pos turn] at done
      rw [visits_turn turn positive, List.forall_mem_cons]
      cases front : body i with
      | none =>
        rw [front] at done
        cases done
      | some front =>
        rw [front, Option.bind_some] at done
        by_cases sum : i + step < 2 ^ 31
        · rw [intSum_some sum, Option.bind_some, Option.isSome_map] at done
          exact ⟨⟨rfl, sum⟩, ih done⟩
        · rw [intSum, if_neg sum] at done
          cases done
    · rw [visits_done (Nat.le_of_not_lt turn) positive]
      exact nofun

/-- A loop over what the turns give, up to a relation. -/
theorem forInt_rel (appends : Appends R) (positive : 0 < step)
    (each : ∀ j ∈ visits first last step, ∃ l, body j = some l ∧ R l (g j))
    (sums : ∀ j ∈ visits first last step, j + step < 2 ^ 31) :
    ∃ l, forInt first last step body = some l ∧ R l ((visits first last step).flatMap g) :=
  forLoop_rel appends positive (by omega) each sums

theorem forInt_eq (positive : 0 < step) (each : ∀ j ∈ visits first last step, body j = some (g j))
    (sums : ∀ j ∈ visits first last step, j + step < 2 ^ 31) :
    forInt first last step body = some ((visits first last step).flatMap g) := by
  obtain ⟨l, ran, rfl⟩ := forInt_rel appends_eq positive (fun j visited => ⟨_, each j visited, rfl⟩) sums
  exact ran

theorem forInt_isSome (positive : 0 < step) (done : (forInt first last step body).isSome) :
    ∀ j ∈ visits first last step, (body j).isSome ∧ j + step < 2 ^ 31 :=
  forLoop_isSome positive done

/-- **`for (int i = 0; i < n; i++)`**, up to a relation. -/
theorem forRange_rel (appends : Appends R) {n : Nat} (fits : n < 2 ^ 31)
    (each : ∀ j < n, ∃ l, body j = some l ∧ R l (g j)) :
    ∃ l, forInt 0 n 1 body = some l ∧ R l ((List.range n).flatMap g) := by
  rw [← visits_zero]
  apply forInt_rel appends Nat.one_pos
  · intro j visited
    exact each j ((mem_visits Nat.one_pos).mp visited).1
  · intro j visited
    have below := ((mem_visits Nat.one_pos).mp visited).1
    omega

theorem forRange_eq {n : Nat} (fits : n < 2 ^ 31) (each : ∀ j < n, body j = some (g j)) :
    forInt 0 n 1 body = some ((List.range n).flatMap g) := by
  obtain ⟨l, ran, rfl⟩ := forRange_rel appends_eq fits fun j below => ⟨_, each j below, rfl⟩
  exact ran

theorem forRange_isSome {n : Nat} (done : (forInt 0 n 1 body).isSome) {j : Nat} (below : j < n) : (body j).isSome :=
  (forInt_isSome Nat.one_pos done j ((mem_visits Nat.one_pos).mpr ⟨below, j, by omega⟩)).1

theorem wideLoop_rel (appends : Appends R) (positive : 0 < width) {fuel i : Nat} (enough : last - i < fuel)
    (inside : i ≤ last)
    (each : ∀ k, i + width * k + width ≤ last →
      ∃ l, wide (i + width * k) = some l ∧ R l ((visits (i + width * k) (i + width * k + width) 1).flatMap g))
    (ones : ∀ k, i + width * k ≤ last → last < i + width * k + width →
      ∃ l, rest (i + width * k) = some l ∧ R l ((visits (i + width * k) last 1).flatMap g))
    (sum : i + (last - i) / width * width + width < 2 ^ 31) :
    ∃ l, wideLoop last width wide rest fuel i = some l ∧ R l ((visits i last 1).flatMap g) := by
  induction fuel generalizing i with
  | zero => exact absurd enough (Nat.not_lt_zero _)
  | succ fuel ih =>
    rw [wideLoop, intSum_some (by omega), Option.bind_some]
    by_cases turn : i + width ≤ last
    · have quotient : (last - i) / width = (last - (i + width)) / width + 1 := by
        have shift : last - i = last - (i + width) + width := by omega
        rw [shift, Nat.add_div_right _ positive]
      rw [quotient, Nat.succ_mul] at sum
      have next : ∀ k, i + width + width * k = i + width * (k + 1) := by
        intro k
        rw [Nat.mul_succ]
        omega
      obtain ⟨front, first, like⟩ := each 0 turn
      rw [Nat.mul_zero, Nat.add_zero] at first like
      obtain ⟨later, ran, likes⟩ := ih (by omega) turn
        (by
          intro k below
          rw [next] at below ⊢
          exact each (k + 1) below)
        (by
          intro k below above
          rw [next] at below above ⊢
          exact ones (k + 1) below above) (by omega)
      have parts : visits i last 1 = visits i (i + width) 1 ++ visits (i + width) last 1 := by
        have all : last - i = width + (last - (i + width)) := by omega
        rw [visits_one, visits_one, visits_one, all, Nat.add_sub_cancel_left, List.range'_append_1]
      refine ⟨front ++ later, ?_, ?_⟩
      · rw [if_pos turn, first, Option.bind_some, ran, Option.map_some]
      · rw [parts, List.flatMap_append]
        exact appends.append like likes
    · rw [if_neg turn]
      exact ones 0 inside (by omega)

/-- A wide loop does what the loop by ones does, up to a relation. -/
theorem wideInt_rel (appends : Appends R) (positive : 0 < width) (inside : first ≤ last)
    (each : ∀ k, first + width * k + width ≤ last →
      ∃ l, wide (first + width * k) = some l ∧
        R l ((visits (first + width * k) (first + width * k + width) 1).flatMap g))
    (ones : ∀ k, first + width * k ≤ last → last < first + width * k + width →
      ∃ l, rest (first + width * k) = some l ∧ R l ((visits (first + width * k) last 1).flatMap g))
    (sum : first + (last - first) / width * width + width < 2 ^ 31) :
    ∃ l, wideInt first last width wide rest = some l ∧ R l ((visits first last 1).flatMap g) :=
  wideLoop_rel appends positive (by omega) inside each ones sum

/-- **A wide loop does what the loop by ones does.** -/
theorem wideInt_eq (positive : 0 < width) (inside : first ≤ last)
    (each : ∀ j, first ≤ j → j + width ≤ last → wide j = some ((visits j (j + width) 1).flatMap g))
    (ones : ∀ j, first ≤ j → j ≤ last → rest j = some ((visits j last 1).flatMap g))
    (sum : first + (last - first) / width * width + width < 2 ^ 31) :
    wideInt first last width wide rest = some ((visits first last 1).flatMap g) := by
  obtain ⟨l, ran, rfl⟩ := wideInt_rel appends_eq positive inside
    (fun _ turn => ⟨_, each _ (Nat.le_add_right _ _) turn, rfl⟩)
    (fun _ below _ => ⟨_, ones _ (Nat.le_add_right _ _) below, rfl⟩) sum
  exact ran

theorem wideLoop_isSome (positive : 0 < width) {fuel i : Nat} (done : (wideLoop last width wide rest fuel i).isSome) :
    i + (last - i) / width * width + width < 2 ^ 31 := by
  induction fuel generalizing i with
  | zero => exact absurd done (by simp [wideLoop])
  | succ fuel ih =>
    rw [wideLoop] at done
    by_cases sum : i + width < 2 ^ 31
    · rw [intSum_some sum, Option.bind_some] at done
      by_cases turn : i + width ≤ last
      · rw [if_pos turn] at done
        cases front : wide i with
        | none =>
          rw [front] at done
          cases done
        | some front =>
          rw [front, Option.bind_some, Option.isSome_map] at done
          have later := ih done
          have shift : last - i = last - (i + width) + width := by omega
          rw [shift, Nat.add_div_right _ positive, Nat.succ_mul]
          omega
      · have none : (last - i) / width = 0 := Nat.div_eq_of_lt (by omega)
        rw [none]
        omega
    · rw [intSum, if_neg sum] at done
      cases done

theorem wideInt_isSome (positive : 0 < width) (done : (wideInt first last width wide rest).isSome) :
    first + (last - first) / width * width + width < 2 ^ 31 :=
  wideLoop_isSome positive done

/-- The first turn of a wide loop succeeds. -/
theorem wideInt_turn (done : (wideInt first last width wide rest).isSome) (turn : first + width ≤ last) :
    (wide first).isSome := by
  rw [wideInt, wideLoop] at done
  obtain ⟨next, sum, done⟩ := bind_isSome done
  have nextIs := intSum_eq sum
  rw [if_pos (by omega)] at done
  obtain ⟨front, ran, -⟩ := bind_isSome done
  exact Option.isSome_of_eq_some ran

end Loop

end Rkvc.Lib
