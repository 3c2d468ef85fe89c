import Rkvc.Lib.Kahn

/-!
# Processes that answer item by item

A process that reacts to each item before it takes the next, and keeps nothing back:
what it makes of a stream is what it answers to the items, one after another, up to
the first that it fails on.
-/

namespace Rkvc.Lib.Kahn
set_option autoImplicit false

variable {σ α ε : Type} [Flow ε] [DecidableEq ε]

/-- The process takes an item a call, and `answer` is what it emits, its next state, and what it returns. -/
structure Answers (P : Proc σ α ε) (answer : σ → α → List α × σ × ε) : Prop where
  call : ∀ s, ∃ k, P.call s = .pull s k ∧
    ∀ x inp, (k x).run inp = ⟨(answer s x).1, inp, some (answer s x).2⟩
  flush : ∀ s inp, ((P.flush s).run inp).out = [] ∧ ((P.flush s).run inp).returned = some (s, Flow.ok)
  goesOn : ∀ s x, (answer s x).2.2 ≠ Flow.eof

/-- What is answered to some items, and whether to all of them. -/
def answerAll (answer : σ → α → List α × σ × ε) : σ → List α → List α × Bool
  | _, [] => ([], true)
  | s, x :: xs =>
    if (answer s x).2.2 = Flow.ok then
      ((answer s x).1 ++ (answerAll answer (answer s x).2.1 xs).1, (answerAll answer (answer s x).2.1 xs).2)
    else ((answer s x).1, false)

variable {P : Proc σ α ε} {answer : σ → α → List α × σ × ε}

/-- Called more often than there are items, the process answers all that it can. -/
theorem Answers.stream_eq (h : Answers P answer) (apart : (Flow.eof : ε) ≠ Flow.ok) {m : Nat} {xs : List α}
    (often : xs.length < m) (s : σ) :
    P.stream m s ⟨xs, true⟩ = ⟨(answerAll answer s xs).1, (answerAll answer s xs).2⟩ := by
  induction xs generalizing m s with
  | nil =>
    obtain ⟨m, rfl⟩ : ∃ k, m = k + 1 := ⟨m - 1, by rw [List.length_nil] at often; omega⟩
    obtain ⟨k, call, -⟩ := h.call s
    obtain ⟨out, returned⟩ := h.flush s ⟨[], true⟩
    rw [Proc.stream, call]
    simp only [Prog.run, goOn, if_neg apart, if_pos, finish, out, returned, answerAll]
    simp [Stream.prepend]
  | cons x xs ih =>
    rw [List.length_cons] at often
    obtain ⟨m, rfl⟩ : ∃ k, m = k + 1 := ⟨m - 1, by omega⟩
    obtain ⟨k, call, reacts⟩ := h.call s
    rw [Proc.stream, call, Prog.run, reacts]
    simp only [goOn, answerAll]
    by_cases ok : (answer s x).2.2 = Flow.ok
    · rw [if_pos ok, if_pos ok]
      exact congrArg (Stream.prepend _) (ih (by omega) _)
    · rw [if_neg ok, if_neg ok, if_neg (h.goesOn s x)]

/-- In any number of calls, it answers no more than that. -/
theorem Answers.stream_le (h : Answers P answer) (apart : (Flow.eof : ε) ≠ Flow.ok) (m : Nat) (s : σ) (xs : List α) :
    P.stream m s ⟨xs, true⟩ ≤ ⟨(answerAll answer s xs).1, (answerAll answer s xs).2⟩ := by
  rw [← h.stream_eq apart (Nat.lt_add_left m (Nat.lt_succ_self xs.length)) s]
  exact P.stream_mono (Nat.le_add_right m _) s (le_refl (⟨xs, true⟩ : Stream α))

/-- **A complete output is all answers.** -/
theorem Answers.complete_iff (h : Answers P answer) (apart : (Flow.eof : ε) ≠ Flow.ok) {s : σ} {xs ys : List α} :
    (∃ m, P.stream m s ⟨xs, true⟩ = ⟨ys, true⟩) ↔ answerAll answer s xs = (ys, true) := by
  constructor
  · rintro ⟨m, made⟩
    have below := h.stream_le apart m s xs
    rw [made] at below
    have same := below.2 rfl
    exact Prod.ext (congrArg Stream.items same).symm (congrArg Stream.complete same).symm
  · intro complete
    refine ⟨xs.length + 1, ?_⟩
    rw [h.stream_eq apart (Nat.lt_succ_self _), complete]

end Rkvc.Lib.Kahn
