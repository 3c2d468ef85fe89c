import Mathlib.Data.List.Infix
import Mathlib.Order.Basic

/-!
# Sequential processes over streams

A process is called over and over. A call pulls items, emits items and returns:
`ok` to be called again, `eof` to be flushed and finish, anything else to stop
(`Proc`). What a process does is fixed by what it reads, so it denotes a function
from the stream it is given to the stream it makes (`Proc.stream`), monotone in
the input and in the number of calls that are looked at. `Hist` says what one
run has read and written so far; `Hist.stream_eq` reads the rest of the output
off the place the run has got to.
-/

namespace Rkvc.Lib.Kahn
set_option autoImplicit false

/-- A call. The process hears what became of an item it emits; a pull from an
input that has ended returns at once, with the status of the end. -/
inductive Prog (σ α ε : Type) where
  | ret (s : σ) (e : ε)
  | emit (f : α) (k : ε → Prog σ α ε)
  | pull (s : σ) (k : α → Prog σ α ε)

/-- The two statuses that are not failures. -/
class Flow (ε : Type) where
  ok : ε
  eof : ε

structure Proc (σ α ε : Type) where
  init : σ
  call : σ → Prog σ α ε
  flush : σ → Prog σ α ε

/-! ## Streams -/

/-- The items of a stream so far, and whether it has ended with them. -/
@[ext] structure Stream (α : Type) where
  items : List α
  complete : Bool

namespace Stream

variable {α : Type}

/-- A stream goes on to a longer one; a complete stream only to itself. -/
instance : Preorder (Stream α) where
  le a b := a.items <+: b.items ∧ (a.complete = true → a = b)
  le_refl a := ⟨List.prefix_rfl, fun _ => rfl⟩
  le_trans a b c hab hbc := by
    refine ⟨hab.1.trans hbc.1, fun ha => ?_⟩
    obtain rfl := hab.2 ha
    exact hbc.2 ha

/-- Items in front of a stream. -/
def prepend (ys : List α) (s : Stream α) : Stream α := ⟨ys ++ s.items, s.complete⟩

@[simp] theorem prepend_nil (s : Stream α) : s.prepend [] = s := rfl

theorem prepend_prepend (xs ys : List α) (s : Stream α) :
    (s.prepend ys).prepend xs = s.prepend (xs ++ ys) := by
  simp [prepend]

theorem prepend_mono {ys : List α} {s t : Stream α} (h : s ≤ t) : s.prepend ys ≤ t.prepend ys := by
  refine ⟨(List.prefix_append_right_inj ys).mpr h.1, fun hs => ?_⟩
  rw [h.2 hs]

/-- A stream that is still going on is below whatever extends its items. -/
theorem open_le {ys : List α} {t : Stream α} (h : ys <+: t.items) : (⟨ys, false⟩ : Stream α) ≤ t :=
  ⟨h, nofun⟩

end Stream

/-! ## What a process makes of a stream -/

variable {σ α ε : Type} [Flow ε] [DecidableEq ε]

/-- What a call did: the items emitted, the input left, and the return; none if
the input ran dry. -/
structure Outcome (σ α ε : Type) where
  out : List α
  left : Stream α
  returned : Option (σ × ε)

/-- Run a call on an input, with every item it emits accepted. -/
def Prog.run : Prog σ α ε → Stream α → Outcome σ α ε
  | .ret s e, inp => ⟨[], inp, some (s, e)⟩
  | .emit f k, inp => { (k Flow.ok).run inp with out := f :: ((k Flow.ok).run inp).out }
  | .pull _ k, ⟨x :: xs, c⟩ => (k x).run ⟨xs, c⟩
  | .pull s _, ⟨[], true⟩ => ⟨[], ⟨[], true⟩, some (s, Flow.eof)⟩
  | .pull _ _, ⟨[], false⟩ => ⟨[], ⟨[], false⟩, none⟩

/-- The end of the output: what a flush emits, complete if it succeeds. -/
def finish (o : Outcome σ α ε) : Stream α where
  items := o.out
  complete := o.returned.any (·.2 = Flow.ok)

/-- How the output goes on after a call. -/
def goOn (P : Proc σ α ε) (again : σ → Stream α → Stream α) (o : Outcome σ α ε) : Stream α :=
  match o.returned with
  | none => ⟨o.out, false⟩
  | some (s, e) =>
    if e = Flow.ok then (again s o.left).prepend o.out
    else if e = Flow.eof then (finish ((P.flush s).run o.left)).prepend o.out
    else ⟨o.out, false⟩

/-- **The output of a process**, up to `m` calls from state `s`. -/
def Proc.stream (P : Proc σ α ε) : Nat → σ → Stream α → Stream α
  | 0, _, _ => ⟨[], false⟩
  | m + 1, s, inp => goOn P (P.stream m) ((P.call s).run inp)

/-! ## Monotonicity -/

omit [DecidableEq ε] in
/-- On a longer input a call does the same, if it returned on the shorter one. -/
theorem Prog.run_mono (p : Prog σ α ε) {a b : Stream α} (h : a ≤ b) :
    (p.run a).out <+: (p.run b).out ∧
      ∀ r, (p.run a).returned = some r →
        (p.run b).out = (p.run a).out ∧ (p.run b).returned = some r ∧ (p.run a).left ≤ (p.run b).left := by
  induction p generalizing a b with
  | ret s e => exact ⟨List.prefix_rfl, fun r hr => ⟨rfl, hr, h⟩⟩
  | emit f k ih =>
    obtain ⟨hout, hret⟩ := ih Flow.ok h
    refine ⟨(List.prefix_cons_inj f).mpr hout, fun r hr => ?_⟩
    obtain ⟨same, hb, hleft⟩ := hret r hr
    exact ⟨congrArg (f :: ·) same, hb, hleft⟩
  | pull s k ih =>
    obtain ⟨xs, c⟩ := a
    obtain ⟨ys, d⟩ := b
    obtain ⟨hitems, hcomplete⟩ := h
    cases xs with
    | cons x xs =>
      obtain ⟨zs, rfl⟩ := hitems
      refine ih x (a := ⟨xs, c⟩) (b := ⟨xs ++ zs, d⟩) ⟨List.prefix_append xs zs, fun hc => ?_⟩
      have := hcomplete hc
      simp only [List.cons_append, Stream.mk.injEq, List.cons.injEq, true_and] at this ⊢
      exact this
    | nil =>
      cases c with
      | true =>
        obtain rfl := (Stream.mk.inj (hcomplete rfl)).1
        obtain rfl := (Stream.mk.inj (hcomplete rfl)).2
        exact ⟨List.prefix_rfl, fun r hr => ⟨rfl, hr, le_refl _⟩⟩
      | false => exact ⟨List.nil_prefix, nofun⟩

theorem out_prefix_goOn (P : Proc σ α ε) (again : σ → Stream α → Stream α) (o : Outcome σ α ε) :
    o.out <+: (goOn P again o).items := by
  unfold goOn
  split
  · exact List.prefix_rfl
  split
  · exact List.prefix_append _ _
  split
  · exact List.prefix_append _ _
  · exact List.prefix_rfl

theorem finish_mono (p : Prog σ α ε) {a b : Stream α} (h : a ≤ b) : finish (p.run a) ≤ finish (p.run b) := by
  obtain ⟨hout, hret⟩ := p.run_mono h
  refine ⟨hout, fun hc => ?_⟩
  cases hr : (p.run a).returned with
  | none => simp [finish, hr] at hc
  | some r =>
    obtain ⟨same, hb, -⟩ := hret r hr
    simp only [finish, same, hr, hb]

theorem goOn_mono (P : Proc σ α ε) {g g' : σ → Stream α → Stream α}
    (hg : ∀ s {a b : Stream α}, a ≤ b → g s a ≤ g' s b) (p : Prog σ α ε) {a b : Stream α} (h : a ≤ b) :
    goOn P g (p.run a) ≤ goOn P g' (p.run b) := by
  obtain ⟨hout, hret⟩ := p.run_mono h
  cases hr : (p.run a).returned with
  | none =>
    have hgo : goOn P g (p.run a) = ⟨(p.run a).out, false⟩ := by unfold goOn; rw [hr]
    rw [hgo]
    exact Stream.open_le (hout.trans (out_prefix_goOn P g' _))
  | some r =>
    obtain ⟨same, hb, hleft⟩ := hret r hr
    unfold goOn
    rw [hr, hb, same]
    dsimp only
    split
    · exact Stream.prepend_mono (hg _ hleft)
    split
    · exact Stream.prepend_mono (finish_mono _ hleft)
    · exact le_refl _

/-- **More input and more calls only extend the output.** -/
theorem Proc.stream_mono (P : Proc σ α ε) {m n : Nat} (hmn : m ≤ n) (s : σ) {a b : Stream α} (h : a ≤ b) :
    P.stream m s a ≤ P.stream n s b := by
  induction m generalizing n s a b with
  | zero => exact Stream.open_le List.nil_prefix
  | succ m ih =>
    obtain ⟨n, rfl⟩ : ∃ k, n = k + 1 := ⟨n - 1, by omega⟩
    exact goOn_mono P (fun s _ _ hab => ih (by omega) s hab) _ h

/-! ## Runs -/

/-- A call belongs to the calls of a process, or is its flush. -/
inductive Phase where
  | process | flush
  deriving DecidableEq, Repr

/-- Where a run has got to: between calls, in one, or finished. -/
inductive Place (σ α ε : Type) where
  | idle (s : σ)
  | running (ph : Phase) (p : Prog σ α ε)
  | done

/-- The output from a place on, up to `m` further calls. -/
def Proc.rest (P : Proc σ α ε) (m : Nat) : Place σ α ε → Stream α → Stream α
  | .idle s, inp => P.stream m s inp
  | .running .process p, inp => goOn P (P.stream m) (p.run inp)
  | .running .flush p, inp => finish (p.run inp)
  | .done, _ => ⟨[], true⟩

/-- **What a run has read and written**: the items it pulled, whether it was told
that there are no more, the items it emitted, all of them accepted, and its place. -/
inductive Hist (P : Proc σ α ε) : List α → Bool → List α → Place σ α ε → Prop
  | start : Hist P [] false [] (.idle P.init)
  | call {xs e ys s} : Hist P xs e ys (.idle s) → Hist P xs e ys (.running .process (P.call s))
  | pull {xs ys ph s k} (x : α) : Hist P xs false ys (.running ph (.pull s k)) →
      Hist P (xs ++ [x]) false ys (.running ph (k x))
  | pullEof {xs e ys ph s k} : Hist P xs e ys (.running ph (.pull s k)) →
      Hist P xs true ys (.running ph (.ret s Flow.eof))
  | emit {xs e ys ph f k} : Hist P xs e ys (.running ph (.emit f k)) →
      Hist P xs e (ys ++ [f]) (.running ph (k Flow.ok))
  | next {xs e ys s} : Hist P xs e ys (.running .process (.ret s Flow.ok)) → Hist P xs e ys (.idle s)
  | flush {xs e ys s} : Hist P xs e ys (.running .process (.ret s Flow.eof)) →
      Hist P xs e ys (.running .flush (P.flush s))
  | close {xs e ys s} : Hist P xs e ys (.running .flush (.ret s Flow.ok)) → Hist P xs e ys .done

/-- An emitted item leads the output. -/
theorem Proc.rest_emit (P : Proc σ α ε) (m : Nat) (ph : Phase) (f : α) (k : ε → Prog σ α ε) (inp : Stream α) :
    P.rest m (.running ph (.emit f k)) inp = (P.rest m (.running ph (k Flow.ok)) inp).prepend [f] := by
  cases ph with
  | flush => rfl
  | process =>
    simp only [rest, goOn, Prog.run]
    split
    · rfl
    split
    · rw [Stream.prepend_prepend]; rfl
    split
    · rw [Stream.prepend_prepend]; rfl
    · rfl

/-- **The rest of the output, from the place of a run**: on any input that goes
on from what the run has read. The induction is on the run; every step but a call
leaves the number of calls alone. -/
theorem Hist.stream_eq {P : Proc σ α ε} (hne : (Flow.ok : ε) ≠ Flow.eof) {xs ys : List α} {e : Bool}
    {c : Place σ α ε} (h : Hist P xs e ys c) {more : List α} {complete : Bool}
    (hend : e = true → more = [] ∧ complete = true) :
    ∃ j, ∀ m, P.stream (m + j) P.init ⟨xs ++ more, complete⟩ = (P.rest m c ⟨more, complete⟩).prepend ys := by
  induction h generalizing more complete with
  | start => exact ⟨0, fun m => rfl⟩
  | call _ ih =>
    obtain ⟨j, hj⟩ := ih hend
    refine ⟨j + 1, fun m => ?_⟩
    have := hj (m + 1)
    rw [show m + 1 + j = m + (j + 1) by omega] at this
    rw [this]
    rfl
  | pull x _ ih =>
    obtain ⟨j, hj⟩ := ih nofun
    refine ⟨j, fun m => ?_⟩
    rw [List.append_assoc, List.singleton_append, hj m]
    rename_i ph _ _ _
    cases ph <;> rfl
  | pullEof _ ih =>
    obtain ⟨rfl, rfl⟩ := hend rfl
    obtain ⟨j, hj⟩ := ih fun _ => ⟨rfl, rfl⟩
    refine ⟨j, fun m => ?_⟩
    rw [hj m]
    rename_i ph _ _ _
    cases ph <;> rfl
  | emit _ ih =>
    obtain ⟨j, hj⟩ := ih hend
    refine ⟨j, fun m => ?_⟩
    rw [hj m, Proc.rest_emit, Stream.prepend_prepend]
  | next _ ih =>
    obtain ⟨j, hj⟩ := ih hend
    refine ⟨j, fun m => ?_⟩
    rw [hj m]
    simp [Proc.rest, Prog.run, goOn]
  | flush _ ih =>
    obtain ⟨j, hj⟩ := ih hend
    refine ⟨j, fun m => ?_⟩
    rw [hj m]
    simp [Proc.rest, Prog.run, goOn, hne.symm]
  | close _ ih =>
    obtain ⟨j, hj⟩ := ih hend
    refine ⟨j, fun m => ?_⟩
    rw [hj m]
    simp [Proc.rest, Prog.run, finish]

/-- What a run has written begins the output on every input that extends what it
has read. -/
theorem Hist.le_stream {P : Proc σ α ε} (hne : (Flow.ok : ε) ≠ Flow.eof) {xs ys : List α} {e : Bool}
    {c : Place σ α ε} (h : Hist P xs e ys c) {inp : Stream α} (hxs : xs <+: inp.items)
    (hend : e = true → inp = ⟨xs, true⟩) : ∃ m, (⟨ys, false⟩ : Stream α) ≤ P.stream m P.init inp := by
  obtain ⟨items, complete⟩ := inp
  obtain ⟨more, rfl⟩ := hxs
  obtain ⟨j, hj⟩ := h.stream_eq hne fun he => by
    have := hend he
    simp only [Stream.mk.injEq, List.append_right_eq_self] at this
    exact this
  exact ⟨0 + j, Stream.open_le (by rw [hj 0]; exact List.prefix_append _ _)⟩

/-- A finished run has written all of the output. -/
theorem Hist.done_stream {P : Proc σ α ε} (hne : (Flow.ok : ε) ≠ Flow.eof) {xs ys : List α} {e : Bool}
    (h : Hist P xs e ys .done) {inp : Stream α} (hxs : xs <+: inp.items)
    (hend : e = true → inp = ⟨xs, true⟩) : ∃ m, P.stream m P.init inp = ⟨ys, true⟩ := by
  obtain ⟨items, complete⟩ := inp
  obtain ⟨more, rfl⟩ := hxs
  obtain ⟨j, hj⟩ := h.stream_eq hne fun he => by
    have := hend he
    simp only [Stream.mk.injEq, List.append_right_eq_self] at this
    exact this
  exact ⟨0 + j, by rw [hj 0]; simp [Proc.rest, Stream.prepend]⟩

/-! ## Failures -/

/-- **A run that fails has no complete output**, on any input that goes on from what it has read. -/
theorem Hist.broken {P : Proc σ α ε} (hne : (Flow.ok : ε) ≠ Flow.eof) {xs ys : List α} {e : Bool} {ph : Phase} {s : σ}
    {c : ε} (h : Hist P xs e ys (.running ph (.ret s c))) (failed : c ≠ Flow.ok ∧ c ≠ Flow.eof) {inp : Stream α}
    (hxs : xs <+: inp.items) (hend : e = true → inp = ⟨xs, true⟩) (m : Nat) :
    (P.stream m P.init inp).complete = false := by
  obtain ⟨items, complete⟩ := inp
  obtain ⟨more, rfl⟩ := hxs
  obtain ⟨j, hj⟩ := h.stream_eq hne fun he => by
    have := hend he
    simp only [Stream.mk.injEq, List.append_right_eq_self] at this
    exact this
  have later : (P.stream (m + j) P.init ⟨xs ++ more, complete⟩).complete = false := by
    rw [hj m]
    cases ph with
    | process => simp [Proc.rest, Prog.run, goOn, failed.1, failed.2, Stream.prepend]
    | flush => simp [Proc.rest, Prog.run, finish, failed.1, Stream.prepend]
  by_contra finished
  have same := (P.stream_mono (Nat.le_add_right m j) P.init (le_refl ⟨xs ++ more, complete⟩)).2
    ((Bool.not_eq_false _).mp finished)
  rw [← same] at later
  exact finished later

/-- The call says `eof` only where it has been told so. -/
def Earnest : Prog σ α ε → Prop
  | .ret _ e => e ≠ Flow.eof
  | .emit _ k => Earnest (k Flow.ok)
  | .pull _ k => ∀ f, Earnest (k f)

omit [DecidableEq ε] in
theorem Prog.left_complete (p : Prog σ α ε) (inp : Stream α) : (p.run inp).left.complete = inp.complete := by
  induction p generalizing inp with
  | ret s e => rfl
  | emit f k ih => exact ih Flow.ok inp
  | pull s k ih =>
    obtain ⟨items, c⟩ := inp
    cases items with
    | cons x xs => exact ih x ⟨xs, c⟩
    | nil => cases c <;> rfl

omit [DecidableEq ε] in
theorem Earnest.told {p : Prog σ α ε} (h : Earnest p) {inp : Stream α} {s : σ}
    (returned : (p.run inp).returned = some (s, Flow.eof)) : inp.complete = true := by
  induction p generalizing inp with
  | ret s' e =>
    cases returned
    exact absurd rfl h
  | emit f k ih => exact ih Flow.ok h returned
  | pull s' k ih =>
    obtain ⟨items, c⟩ := inp
    cases items with
    | cons x xs =>
      have told := ih x (h x) returned
      exact told
    | nil =>
      cases c with
      | true => rfl
      | false => cases returned

/-- **A process that waits for the end of its input** has no complete output before. -/
theorem Proc.complete_input {P : Proc σ α ε} (earnest : ∀ s, Earnest (P.call s)) (m : Nat) (s : σ) (inp : Stream α)
    (h : (P.stream m s inp).complete = true) : inp.complete = true := by
  induction m generalizing s inp with
  | zero => cases h
  | succ m ih =>
    rw [Proc.stream] at h
    unfold goOn at h
    split at h
    · cases h
    · rename_i s' e returned
      split at h
      · rw [← (P.call s).left_complete inp]
        exact ih s' _ h
      split at h
      · rename_i told
        subst told
        exact (earnest s).told returned
      · cases h

/-! ## Pipelines -/

/-- The stream behind the first `k` processes of a pipeline, run one after
another, each up to `m` calls. -/
def through (P : Nat → Proc σ α ε) (m : Nat) (inp : Stream α) : Nat → Stream α
  | 0 => inp
  | k + 1 => (P k).stream m (P k).init (through P m inp k)

theorem through_mono (P : Nat → Proc σ α ε) {m n : Nat} (hmn : m ≤ n) (inp : Stream α) (k : Nat) :
    through P m inp k ≤ through P n inp k := by
  induction k with
  | zero => exact le_refl _
  | succ k ih => exact (P k).stream_mono hmn _ ih

/-- Streams that each process keeps below its output are below the pipeline's. -/
theorem le_through {P : Nat → Proc σ α ε} {S : Nat → Stream α} {n : Nat}
    (h : ∀ k < n, ∃ m, S (k + 1) ≤ (P k).stream m (P k).init (S k)) :
    ∃ m, S n ≤ through P m (S 0) n := by
  induction n with
  | zero => exact ⟨0, le_refl _⟩
  | succ n ih =>
    obtain ⟨m, hm⟩ := ih fun k hk => h k (by omega)
    obtain ⟨m', hm'⟩ := h n (Nat.lt_succ_self n)
    refine ⟨max m m', hm'.trans ?_⟩
    exact (P n).stream_mono (Nat.le_max_right m m') _
      (hm.trans (through_mono P (Nat.le_max_left m m') _ n))

/-- Where a pipeline completes its output, so do the processes in front, if those behind wait for that. -/
theorem through_complete {P : Nat → Proc σ α ε} {m : Nat} {inp : Stream α} {i n : Nat} (hin : i ≤ n)
    (earnest : ∀ k, i ≤ k → k < n → ∀ s, Earnest ((P k).call s)) (h : (through P m inp n).complete = true) :
    (through P m inp i).complete = true := by
  induction n with
  | zero =>
    obtain rfl : i = 0 := Nat.le_zero.mp hin
    exact h
  | succ n ih =>
    by_cases last : i = n + 1
    · subst last
      exact h
    · have before := Proc.complete_input (earnest n (by omega) (Nat.lt_succ_self n)) m _ _ h
      exact ih (by omega) (fun k hik hkn => earnest k hik (by omega)) before

/-- The first process of a pipeline, and the others behind it. -/
theorem through_behind (P : Nat → Proc σ α ε) (m : Nat) (inp : Stream α) (k : Nat) :
    through P m inp (k + 1) = through (fun j => P (j + 1)) m ((P 0).stream m (P 0).init inp) k := by
  induction k with
  | zero => rfl
  | succ k ih => exact congrArg ((P (k + 1)).stream m (P (k + 1)).init) ih

end Rkvc.Lib.Kahn
