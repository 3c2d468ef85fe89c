import Mathlib.Data.List.Basic
import Mathlib.Tactic.Common

/-!
# Programs that drive a device

A driver makes calls on a world that answers as it likes, and goes by the answers.
`Driver.Traces` holds of all calls that a run makes before it ends, and `Driver.Halts`
says that it does end. What the calls come to is told by `Returns` (everything taken is
given back) and `Relays` (everything that comes in is passed on).
-/

namespace Rkvc.Lib
set_option autoImplicit false

/-- What a run on a world returns, the world behind it, and its calls in order; `none` while it runs on. -/
def Driver (W ω α : Type) : Type := W → Option (α × W × List ω)

namespace Driver

variable {W ω α β : Type}

protected def pure (a : α) : Driver W ω α := fun w => some (a, w, [])

protected def bind (p : Driver W ω α) (k : α → Driver W ω β) : Driver W ω β := fun w =>
  match p w with
  | none => none
  | some (a, w, calls) => (k a w).map fun r => (r.1, r.2.1, calls ++ r.2.2)

instance : Monad (Driver W ω) where
  pure := Driver.pure
  bind := Driver.bind

/-- A call, and what the world answers. -/
def call (answer : W → β × W) (note : β → ω) : Driver W ω β := fun w =>
  some ((answer w).1, (answer w).2, [note (answer w).1])

/-- A call without an answer. -/
def tell (note : ω) : Driver W ω Unit := fun w => some ((), w, [note])

/-- A run that does not end. -/
def stay : Driver W ω α := fun _ => none

/-! ## Traces -/

/-- What holds of the result and the calls of every run that ends. -/
def Traces (p : Driver W ω α) (Q : α → List ω → Prop) : Prop :=
  ∀ w a w' calls, p w = some (a, w', calls) → Q a calls

section Traces

variable {p : Driver W ω α} {k : α → Driver W ω β} {Q Q' : α → List ω → Prop} {R : β → List ω → Prop}

theorem Traces.mono (h : Traces p Q) (le : ∀ a calls, Q a calls → Q' a calls) : Traces p Q' :=
  fun w a w' calls ran => le a calls (h w a w' calls ran)

theorem Traces.pure {a : α} (h : Q a []) : Traces (pure a : Driver W ω α) Q := by
  intro w a' w' calls ran
  cases ran
  exact h

theorem Traces.call {answer : W → α × W} {note : α → ω} (h : ∀ a, Q a [note a]) : Traces (call answer note) Q := by
  intro w a w' calls ran
  cases ran
  exact h _

theorem Traces.tell {note : ω} {Q : Unit → List ω → Prop} (h : Q () [note]) :
    Traces (tell note : Driver W ω Unit) Q := by
  intro w a w' calls ran
  cases ran
  exact h

theorem Traces.stay : Traces (stay : Driver W ω α) Q := by
  intro w a w' calls ran
  cases ran

theorem bind_some {w w' : W} {b : β} {calls : List ω} (ran : (p >>= k) w = some (b, w', calls)) :
    ∃ a w1 first rest, p w = some (a, w1, first) ∧ k a w1 = some (b, w', rest) ∧ calls = first ++ rest := by
  change Driver.bind p k w = _ at ran
  unfold Driver.bind at ran
  split at ran
  · cases ran
  · rename_i a w1 first here
    obtain ⟨⟨b', w2, rest⟩, there, same⟩ := Option.map_eq_some_iff.mp ran
    cases same
    exact ⟨a, w1, first, rest, here, there, rfl⟩

/-- **One after another**: what holds behind the first is where the second starts. -/
theorem Traces.bind (first : Traces p Q)
    (second : ∀ a calls, Q a calls → Traces (k a) fun b more => R b (calls ++ more)) : Traces (p >>= k) R := by
  intro w b w' calls ran
  obtain ⟨a, w1, before, rest, here, there, rfl⟩ := bind_some ran
  exact second a before (first w a w1 before here) w1 b w' rest there

theorem Traces.call_bind {answer : W → α × W} {note : α → ω}
    (h : ∀ a, Traces (k a) fun b more => R b (note a :: more)) : Traces (Driver.call answer note >>= k) R :=
  (Traces.call (Q := fun a calls => calls = [note a]) fun _ => rfl).bind fun a calls here => by
    subst here
    exact h a

theorem Traces.tell_bind {note : ω} {k : Unit → Driver W ω β}
    (h : Traces (k ()) fun b more => R b (note :: more)) : Traces (Driver.tell note >>= k) R :=
  (Traces.tell (Q := fun _ calls => calls = [note]) rfl).bind fun _ calls here => by
    subst here
    exact h

theorem Traces.ite {c : Prop} [Decidable c] {p q : Driver W ω α} (left : c → Traces p Q) (right : ¬c → Traces q Q) :
    Traces (if c then p else q) Q := by
  by_cases h : c
  · rw [if_pos h]
    exact left h
  · rw [if_neg h]
    exact right h

end Traces

/-! ## Ends -/

/-- From a world of `P` the run comes to an end, in a world of `Q`. -/
def Halts (P : W → Prop) (p : Driver W ω α) (Q : α → W → Prop) : Prop :=
  ∀ w, P w → ∃ a w' calls, p w = some (a, w', calls) ∧ Q a w'

section Halts

variable {P : W → Prop} {p : Driver W ω α} {k : α → Driver W ω β} {Q : α → W → Prop} {R : β → W → Prop}

theorem Halts.pure {a : α} (h : ∀ w, P w → Q a w) : Halts P (pure a : Driver W ω α) Q :=
  fun w here => ⟨a, w, [], rfl, h w here⟩

theorem Halts.call {answer : W → α × W} {note : α → ω} (h : ∀ w, P w → Q (answer w).1 (answer w).2) :
    Halts P (call answer note) Q :=
  fun w here => ⟨_, _, _, rfl, h w here⟩

theorem Halts.tell {note : ω} {Q : Unit → W → Prop} (h : ∀ w, P w → Q () w) :
    Halts P (tell note : Driver W ω Unit) Q :=
  fun w here => ⟨_, _, _, rfl, h w here⟩

theorem Halts.bind (first : Halts P p Q) (second : ∀ a, Halts (Q a) (k a) R) : Halts P (p >>= k) R := by
  intro w here
  obtain ⟨a, w1, before, ran, mid⟩ := first w here
  obtain ⟨b, w2, rest, later, done⟩ := second a w1 mid
  refine ⟨b, w2, before ++ rest, ?_, done⟩
  change Driver.bind p k w = _
  simp only [Driver.bind, ran, later, Option.map_some]

theorem Halts.ite {c : Prop} [Decidable c] {p q : Driver W ω α} (left : c → Halts P p Q) (right : ¬c → Halts P q Q) :
    Halts P (if c then p else q) Q := by
  by_cases h : c
  · rw [if_pos h]
    exact left h
  · rw [if_neg h]
    exact right h

/-- A fact that does not depend on the world. -/
theorem Halts.assume {F : Prop} (h : F → Halts P p Q) : Halts (fun w => F ∧ P w) p fun a w => F ∧ Q a w :=
  fun w here => by
    obtain ⟨a, w', calls, ran, done⟩ := h here.1 w here.2
    exact ⟨a, w', calls, ran, here.1, done⟩

theorem Halts.mono {P' : W → Prop} {Q' : α → W → Prop} (h : Halts P p Q) (pre : ∀ w, P' w → P w)
    (post : ∀ a w, Q a w → Q' a w) : Halts P' p Q' := by
  intro w here
  obtain ⟨a, w', calls, ran, done⟩ := h w (pre w here)
  exact ⟨a, w', calls, ran, post a w' done⟩

end Halts

end Driver

/-! ## What is held -/

section Held

variable {ω : Type} {takes gives : ω → Bool}

/-- How much is held behind some calls; `none` if something is given back that is not held. -/
def held (takes gives : ω → Bool) : List ω → Nat → Option Nat
  | [], n => some n
  | c :: calls, n =>
    if takes c then held takes gives calls (n + 1)
    else if gives c then if n = 0 then none else held takes gives calls (n - 1)
    else held takes gives calls n

theorem held_append (first rest : List ω) (n : Nat) :
    held takes gives (first ++ rest) n = (held takes gives first n).bind (held takes gives rest) := by
  induction first generalizing n with
  | nil => rfl
  | cons c calls ih =>
    rw [List.cons_append, held, held]
    by_cases took : takes c
    · rw [if_pos took, if_pos took, ih]
    · rw [if_neg took, if_neg took]
      by_cases gave : gives c
      · rw [if_pos gave, if_pos gave]
        by_cases none : n = 0
        · rw [if_pos none, if_pos none, Option.bind_none]
        · rw [if_neg none, if_neg none, ih]
      · rw [if_neg gave, if_neg gave, ih]

/-- Everything that is taken is given back once. -/
def Returns (takes gives : ω → Bool) (calls : List ω) : Prop := ∀ n, held takes gives calls n = some n

theorem Returns.append {first rest : List ω} (h : Returns takes gives first) (later : Returns takes gives rest) :
    Returns takes gives (first ++ rest) := by
  intro n
  rw [held_append, h, Option.bind_some, later]

/-- Something is taken, and given back behind its use. -/
theorem Returns.around {c d : ω} {calls : List ω} (took : takes c = true) (gave : takes d = false ∧ gives d = true)
    (h : Returns takes gives calls) : Returns takes gives (c :: (calls ++ [d])) := by
  intro n
  rw [held, if_pos took, held_append, h, Option.bind_some, held, gave.1, gave.2, if_neg Bool.false_ne_true, if_pos rfl,
    if_neg (Nat.succ_ne_zero n)]
  rfl

end Held

/-! ## What is passed on -/

section Relays

variable {β : Type} {came went came' went' : List β} {done : Prop}

/-- What has come in has been passed on in order, and a failure loses one at most. -/
structure Relays (came went : List β) (done : Prop) : Prop where
  begins : went <+: came
  lost : came.length ≤ went.length + 1
  whole : done → went = came

theorem Relays.append (h : Relays came went True) (later : Relays came' went' done) :
    Relays (came ++ came') (went ++ went') done where
  begins := by
    rw [h.whole trivial]
    exact (List.prefix_append_right_inj _).mpr later.begins
  lost := by
    have lost := later.lost
    rw [h.whole trivial, List.length_append, List.length_append]
    omega
  whole is := by rw [h.whole trivial, later.whole is]

theorem Relays.now (h : Relays came went done) (is : done) : Relays came went True :=
  ⟨h.begins, h.lost, fun _ => h.whole is⟩

/-- Nothing comes and nothing goes. -/
theorem Relays.nil : Relays ([] : List β) [] done := ⟨List.nil_prefix, Nat.zero_le _, fun _ => rfl⟩

end Relays

end Rkvc.Lib
