import Rkvc.Core.FileSession
import Rkvc.Lib.Answers

/-!
# One node between two files

What `rkvc encode` and `rkvc decode` run: a node that answers each frame before it
takes the next. Its session writes the answers to the frames of the file
(`Filters.written`), and succeeds exactly if it answers them all (`Filters.ok_iff`).
-/

namespace Rkvc.Executor
set_option autoImplicit false

open Lib.Kahn

variable {τ α : Type} [HostFrames α]

theorem filter_workers : 2 ≤ 3 := by decide

/-- A file, a node, and a file. -/
def filterNet (node : NodeCode (FileState τ) α) (opened : FileSourceNode) (disk : Nat → Nat → Nat) (capacity : Nat) :
    Net (FileState τ) α where
  n := 3
  node i := if i = 0 then fileSource opened else if i = 1 then node else fileSink disk
  capacity
  two_le := filter_workers

section Filter

variable {node : NodeCode (FileState τ) α} {opened : FileSourceNode} {disk : Nat → Nat → Nat} {capacity : Nat}

theorem fileNet_filter : FileNet (filterNet node opened disk capacity) opened disk where
  source := rfl
  sink := rfl

/-- The node is well behaved, and leaves the session's queues alone. -/
structure Filters (node : NodeCode (FileState τ) α) : Prop where
  process : ∀ st f, Returns okOrHard (node.process st (some f)) ∧ Quiet (node.process st (some f))
  flush : ∀ st, node.flush st = .ret st .ok

theorem Filters.wellBehaved (h : Filters node) : WellBehaved (filterNet node opened disk capacity) where
  source st := fileSource_returns opened st none
  process i hi st f := by
    simp only [filterNet, Nat.pos_iff_ne_zero.mp hi, if_false]
    split
    · exact (h.process st f).1
    · exact fileSink_returns disk st f
  flush i st := by
    simp only [filterNet]
    split
    · exact .inl rfl
    split
    · rw [h.flush]
      exact .inl rfl
    · exact .inl rfl

theorem Filters.pullsAtSource (h : Filters node) : PullsAtSource (filterNet node opened disk capacity) where
  process i hi st f := by
    simp only [filterNet, Nat.pos_iff_ne_zero.mp hi, if_false]
    split
    · exact (h.process st f).2
    · cases st <;> trivial
  flush i hi st := by
    simp only [filterNet, Nat.pos_iff_ne_zero.mp hi, if_false]
    split
    · rw [h.flush]
      trivial
    · trivial

/-- What a call of the node answers to a frame: what it emits, its state and what it returns. -/
def NodeCode.answer (node : NodeCode (FileState τ) α) (st : FileState τ) (f : α) : List α × FileState τ × Status :=
  let o := (node.process st (some f)).run ⟨[], true⟩
  (o.out, o.returned.getD (st, .internal))

omit [HostFrames α] in
/-- A quiet call reads nothing. -/
theorem quiet_run {p : Prog (FileState τ) α Status} (quiet : Quiet p) (inp : Stream α) :
    ∃ r, p.run inp = ⟨(p.run ⟨[], true⟩).out, inp, some r⟩ ∧ (p.run ⟨[], true⟩).returned = some r := by
  induction p generalizing inp with
  | ret st e => exact ⟨(st, e), rfl, rfl⟩
  | emit f k ih =>
    obtain ⟨r, run, returned⟩ := ih .ok (quiet .ok) inp
    refine ⟨r, ?_, returned⟩
    rw [Prog.run, show k Flow.ok = k .ok from rfl, run]
    rfl
  | pull st k => exact quiet.elim

omit [HostFrames α] in
theorem returns_run {P : Status → Prop} {p : Prog (FileState τ) α Status} {r : FileState τ × Status}
    (h : Returns P p) (quiet : Quiet p) (returned : (p.run ⟨[], true⟩).returned = some r) : P r.2 := by
  induction p with
  | ret st e =>
    cases returned
    exact h
  | emit f k ih => exact ih .ok (h .ok (.inl rfl)) (quiet .ok) returned
  | pull st k => exact quiet.elim

theorem Filters.answers (h : Filters node) :
    Answers (proc (filterNet node opened disk capacity) 1) node.answer where
  call st := by
    refine ⟨_, proc_call_pos _ Nat.one_pos st, fun f inp => ?_⟩
    obtain ⟨r, run, returned⟩ := quiet_run (h.process st f).2 inp
    show (node.process st (some f)).run inp = _
    rw [run]
    simp only [NodeCode.answer, returned, Option.getD_some]
  flush st inp := by
    show ((node.flush st).run inp).out = [] ∧ ((node.flush st).run inp).returned = some (st, .ok)
    rw [h.flush]
    exact ⟨rfl, rfl⟩
  goesOn st f := by
    obtain ⟨r, -, returned⟩ := quiet_run (h.process st f).2 ⟨[], true⟩
    have honest := returns_run (h.process st f).1 (h.process st f).2 returned
    simp only [NodeCode.answer, returned, Option.getD_some]
    rcases honest with ok | hard
    · rw [ok]
      decide
    · intro eof
      rw [eof] at hard
      cases hard

variable {path : String} {spec : Spec} {file : List UInt8} {s : State (FileState τ) α}

/-- The answers to the frames of a file, and whether to all of them. -/
def NodeCode.answers (node : NodeCode (FileState τ) α) (spec : Spec) (file : List UInt8) : List α × Bool :=
  answerAll node.answer node.init ((fileFrames spec file).map (HostFrames.wrap spec))

theorem Filters.madeOf_le (h : Filters node) (m : Nat) :
    madeOf (filterNet node opened disk capacity) m spec file ≤
      ⟨(node.answers spec file).1, (node.answers spec file).2⟩ :=
  h.answers.stream_le (by decide) m node.init _

theorem Filters.made_iff (h : Filters node) {frames : List α} :
    (∃ m, madeOf (filterNet node opened disk capacity) m spec file = ⟨frames, true⟩) ↔
      node.answers spec file = (frames, true) :=
  h.answers.complete_iff (by decide)

/-- **What the session writes** begins the answers to the frames of the file, and is all of them where it ends
well. -/
theorem Filters.written (h : Filters node) (hopen : FileSourceNode.open path spec (some file) = .ok opened)
    (reached : Reach (filterNet node opened disk capacity) noShutdown s) :
    (fedSink disk (s.taken 2)).1.written <+: payload (node.answers spec file).1 ∧
      (wait s = some .ok → (node.answers spec file).2 = true ∧
        (fedSink disk (s.taken 2)).1.written = payload (node.answers spec file).1) := by
  constructor
  · obtain ⟨m, begins⟩ := fileNet_filter.written_prefix hopen h.wellBehaved reached
    obtain ⟨more, items⟩ := (h.madeOf_le m).1
    refine List.IsPrefix.trans begins ?_
    dsimp only at items
    rw [← items, payload, payload, List.flatMap_append]
    exact List.prefix_append _ _
  · intro done
    obtain ⟨m, frames, made, -, same, -⟩ := fileNet_filter.written_all hopen h.wellBehaved reached done
    have all := h.made_iff.mp ⟨m, made⟩
    rw [all]
    exact ⟨rfl, same⟩

/-- **The session succeeds** exactly if the node answers every frame and the disk takes the answers. -/
theorem Filters.ok_iff (h : Filters node) (hopen : FileSourceNode.open path spec (some file) = .ok opened)
    (host : spec.domain = .host) (reached : Reach (filterNet node opened disk capacity) noShutdown s) {e : Status}
    (done : wait s = some e) :
    e = .ok ↔ (node.answers spec file).2 = true ∧ (fedSink disk (node.answers spec file).1).2 = .ok := by
  constructor
  · rintro rfl
    obtain ⟨m, frames, made, ok, -⟩ := fileNet_filter.written_all hopen h.wellBehaved reached done
    rw [h.made_iff.mp ⟨m, made⟩]
    exact ⟨rfl, ok⟩
  · rintro ⟨all, ok⟩
    obtain ⟨m, made⟩ : ∃ m, madeOf (filterNet node opened disk capacity) m spec file =
        ⟨(node.answers spec file).1, true⟩ := h.made_iff.mpr (Prod.ext rfl all)
    exact fileNet_filter.ok_of_made hopen host h.wellBehaved reached done made ok

/-- Some run of the session comes to its end. -/
theorem Filters.finishes (h : Filters node) :
    ∃ s e, Reach (filterNet node opened disk capacity) noShutdown s ∧ wait s = some e := by
  have net : FileNet (filterNet node opened disk capacity) opened disk := fileNet_filter
  obtain ⟨s, run, -, waited⟩ :=
    (workers_complete h.wellBehaved h.pullsAtSource net.sourceEnds net.selfContained .start).exists
  refine ⟨s, s.error, ?_, waited⟩
  clear waited
  induction run with
  | refl => exact .start
  | tail _ step ih =>
    obtain ⟨i, hi, step⟩ := step
    refine ih.step (e := .work i) trivial ?_
    rw [Executor.step, if_pos hi]
    exact step

end Filter

end Rkvc.Executor
