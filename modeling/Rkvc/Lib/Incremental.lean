import Mathlib.Data.List.Basic

/-!
# Incremental readers

A reader takes items off the front of its input, in a state, or waits for more
input. What it has taken it would also have taken from a longer input
(`stable`), so reading an input piece by piece is reading it at once
(`run_append`).
-/

namespace Rkvc.Lib
set_option autoImplicit false

structure Reader (σ β φ : Type) where
  /-- How much of the input is taken, the state after it, and what it yields. -/
  next : σ → List β → Option (Nat × σ × Option φ)
  progress : ∀ {s w n t f}, next s w = some (n, t, f) → 0 < n ∧ n ≤ w.length
  stable : ∀ {s w r}, next s w = some r → ∀ y, next s (w ++ y) = some r

namespace Reader

/-- What was read from an input, and the input that is left. -/
structure Run (σ β φ : Type) where
  items : List φ
  state : σ
  rest : List β

variable {σ β φ : Type}

def Run.after (r : Run σ β φ) (f : Option φ) : Run σ β φ := { r with items := f.toList ++ r.items }

@[simp] theorem Run.after_state (r : Run σ β φ) (f : Option φ) : (r.after f).state = r.state := rfl

@[simp] theorem Run.after_rest (r : Run σ β φ) (f : Option φ) : (r.after f).rest = r.rest := rfl

@[simp] theorem Run.after_items (r : Run σ β φ) (f : Option φ) : (r.after f).items = f.toList ++ r.items := rfl

variable (R : Reader σ β φ)

def runLoop : Nat → σ → List β → Run σ β φ
  | 0, s, w => ⟨[], s, w⟩
  | fuel + 1, s, w =>
    match R.next s w with
    | none => ⟨[], s, w⟩
    | some (n, t, f) => (runLoop fuel t (w.drop n)).after f

/-- Read as long as there is something to take. -/
def run (s : σ) (w : List β) : Run σ β φ := R.runLoop w.length s w

variable {R} {s t : σ} {w y : List β} {n : Nat} {f : Option φ}

theorem next_nil (s : σ) : R.next s [] = none := by
  cases h : R.next s [] with
  | none => rfl
  | some r =>
    obtain ⟨pos, bound⟩ := R.progress h
    exact absurd bound (Nat.not_le_of_lt pos)

theorem runLoop_of_none (h : R.next s w = none) (fuel : Nat) : R.runLoop fuel s w = ⟨[], s, w⟩ := by
  cases fuel with
  | zero => rfl
  | succ fuel => simp only [runLoop, h]

theorem runLoop_succ {fuel : Nat} (enough : w.length ≤ fuel) : R.runLoop (fuel + 1) s w = R.runLoop fuel s w := by
  induction fuel generalizing s w with
  | zero =>
    obtain rfl := List.length_eq_zero_iff.mp (Nat.le_zero.mp enough)
    exact runLoop_of_none (next_nil s) 1
  | succ fuel ih =>
    cases h : R.next s w with
    | none => rw [runLoop_of_none h, runLoop_of_none h]
    | some r =>
      obtain ⟨n, t, f⟩ := r
      have pos := (R.progress h).1
      rw [runLoop, h, runLoop, h]
      exact congrArg (Run.after · f) (ih (by rw [List.length_drop]; omega))

/-- The fuel is never what ends a run. -/
theorem runLoop_eq_run {fuel : Nat} (enough : w.length ≤ fuel) : R.runLoop fuel s w = R.run s w := by
  induction enough with
  | refl => rfl
  | step enough ih => rw [runLoop_succ enough, ih]

theorem run_of_none (h : R.next s w = none) : R.run s w = ⟨[], s, w⟩ := runLoop_of_none h _

theorem run_of_some (h : R.next s w = some (n, t, f)) : R.run s w = (R.run t (w.drop n)).after f := by
  obtain ⟨pos, bound⟩ := R.progress h
  rw [← runLoop_eq_run (Nat.le_succ w.length), runLoop, h]
  exact congrArg (Run.after · f) (runLoop_eq_run (by rw [List.length_drop]; omega))

/-- Induction along a run. -/
theorem run_induction {P : σ → List β → Prop} (s : σ) (w : List β) (stop : ∀ s w, R.next s w = none → P s w)
    (step : ∀ s w n t f, R.next s w = some (n, t, f) → P t (w.drop n) → P s w) : P s w := by
  induction h : w.length using Nat.strongRecOn generalizing s w with
  | _ len ih =>
    cases hw : R.next s w with
    | none => exact stop s w hw
    | some r =>
      obtain ⟨n, t, f⟩ := r
      have := R.progress hw
      exact step s w n t f hw (ih (w.drop n).length (by rw [List.length_drop]; omega) t (w.drop n) rfl)

/-- **Reading in pieces**: what was left over goes in front of the next piece. -/
theorem run_append (s : σ) (w y : List β) :
    R.run s (w ++ y) =
      { R.run (R.run s w).state ((R.run s w).rest ++ y) with
        items := (R.run s w).items ++ (R.run (R.run s w).state ((R.run s w).rest ++ y)).items } := by
  induction s, w using run_induction (R := R) with
  | stop s w h => rw [run_of_none h]; rfl
  | step s w n t f h ih =>
    rw [run_of_some (R.stable h y), run_of_some h, List.drop_append_of_le_length (R.progress h).2, ih]
    simp [Run.after]

/-! ## Reading that is under way -/

/-- What was read earlier goes in front. -/
def Run.behind (r : Run σ β φ) (done : List φ) : Run σ β φ := { r with items := done ++ r.items }

/-- Of an input `w` read from `a`, `done` has been read, and reading goes on with `u` in the
state `s`, whatever comes behind it. -/
def Under (R : Reader σ β φ) (a : σ) (w : List β) (done : List φ) (s : σ) (u : List β) : Prop :=
  ∀ y, R.run a (w ++ y) = (R.run s (u ++ y)).behind done

variable {a : σ} {u : List β} {done : List φ}

theorem Under.refl (a : σ) (w : List β) : R.Under a w [] a w := fun _ => rfl

theorem Under.append (h : R.Under a w done s u) (y : List β) : R.Under a (w ++ y) done s (u ++ y) := by
  intro z
  rw [List.append_assoc, List.append_assoc]
  exact h (y ++ z)

theorem Under.next (h : R.Under a w done s u) (hn : R.next s u = some (n, t, f)) :
    R.Under a w (done ++ f.toList) t (u.drop n) := by
  intro y
  rw [h y, run_of_some (R.stable hn y), List.drop_append_of_le_length (R.progress hn).2]
  simp only [Run.behind, Run.after, List.append_assoc]

theorem Under.run (h : R.Under a w done s u) : R.run a w = (R.run s u).behind done := by
  have := h []
  rwa [List.append_nil, List.append_nil] at this

end Reader

end Rkvc.Lib
