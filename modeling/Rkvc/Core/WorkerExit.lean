import Mathlib.Data.Finset.Card
import Mathlib.Data.Finset.Filter
import Mathlib.Data.Finset.Range
import Rkvc.Core.Executor

/-!
# No worker dies silently

A worker that returns leaves the queue it writes ended, and unless its input
came to its end and its flush went well, the executor has an error
(`no_silent_death`). That takes nodes which report failures as failures:
`Executor::fail` ignores `Again` and `Eof`, and a worker that hands it one of
them returns all the same, with its output open and no error
(`again_strands_sink`).

The invariant is `Sound`: what is known of a worker from where it is, and that
the one recorded error has either cancelled every queue or is being spread.
-/

namespace Rkvc.Executor
set_option autoImplicit false

open Lib.Kahn

variable {σ α : Type}

/-- A queue has ended. -/
def State.Ended (s : State σ α) (k : Nat) : Prop := (s.queue k).ended.isSome = true

/-- Queues stay ended, and an error stays recorded. -/
structure Later (s t : State σ α) : Prop where
  ended : ∀ k, s.Ended k → t.Ended k
  error : s.error ≠ .ok → t.error ≠ .ok

/-- What is known of worker `i` from where it is. -/
def Known (net : Net σ α) (s : State σ α) (i : Nat) : Pc σ α → Prop
  | .loop _ | .calling _ _ | .closing => True
  | .failing e => e.isHard = true
  | .cancelling e k => e.isHard = true ∧ s.error ≠ .ok ∧ ∀ j < k, s.Ended j
  | .failed e => e.isHard = true ∧ s.error ≠ .ok
  | .leaving (.status e) | .exited (.status e) =>
    e.isHard = true ∧ s.error ≠ .ok ∧ (i + 1 = net.n → s.Ended net.n)
  | .leaving .eof | .exited .eof => s.Ended (i + 1)

theorem Known.later {net : Net σ α} {s t : State σ α} {i : Nat} {pc : Pc σ α} (hst : Later s t)
    (h : Known net s i pc) : Known net t i pc := by
  match pc, h with
  | .loop _, _ => trivial
  | .calling _ _, _ => trivial
  | .closing, _ => trivial
  | .failing _, h => exact h
  | .cancelling _ _, h => exact ⟨h.1, hst.error h.2.1, fun j hj => hst.ended j (h.2.2 j hj)⟩
  | .failed _, h => exact ⟨h.1, hst.error h.2⟩
  | .leaving (.status _), h => exact ⟨h.1, hst.error h.2.1, fun hi => hst.ended _ (h.2.2 hi)⟩
  | .exited (.status _), h => exact ⟨h.1, hst.error h.2.1, fun hi => hst.ended _ (h.2.2 hi)⟩
  | .leaving .eof, h => exact hst.ended _ h
  | .exited .eof, h => exact hst.ended _ h

/-- The worker is inside `Executor::fail`. -/
def Pc.InFail : Pc σ α → Prop
  | .failing _ | .cancelling _ _ => True
  | _ => False

/-- The worker is cancelling the queues. -/
def Pc.Spreading : Pc σ α → Prop
  | .cancelling _ _ => True
  | _ => False

/-- The worker has handed a status to `fail`, and an error was recorded. -/
def Pc.Failed : Pc σ α → Prop
  | .cancelling _ _ | .failed _ | .leaving (.status _) | .exited (.status _) => True
  | _ => False

def Pc.isExited : Pc σ α → Bool
  | .exited _ => true
  | _ => false

/-- The workers that have not returned. -/
def running (net : Net σ α) (s : State σ α) : Finset Nat :=
  (Finset.range net.n).filter fun i => (s.pc i).isExited = false

structure Sound (net : Net σ α) (s : State σ α) : Prop where
  ends : ∀ k e, (s.queue k).ended = some e → e = .eof ∨ e.isHard = true
  known : ∀ i, Known net s i (s.pc i)
  spread : s.error ≠ .ok → (∃ i < net.n, (s.pc i).Spreading) ∨ ∀ k < net.n, s.Ended k
  blamed : s.error ≠ .ok → ∃ i < net.n, (s.pc i).Failed
  active : s.active = (running net s).card

/-- Worker `i` returns from its node with a success or a failure, the source's
`process` also with `Eof`. -/
def returnsHonestly (i : Nat) : Pc σ α → Bool
  | .calling .process (.ret _ e) => e = .ok || e.isHard || (i = 0 && e = .eof)
  | .calling .flush (.ret _ e) => e = .ok || e.isHard
  | _ => true

def honest (s : State σ α) : Event α → Bool
  | .work i => returnsHonestly i (s.pc i)
  | _ => true

/-! ## Steps -/

/-- Ending a queue, with `Eof` or an error. -/
theorem later_setQueue {s : State σ α} {k : Nat} {q : BoundedQueue α}
    (h : (s.queue k).ended.isSome = true → q.ended.isSome = true) : Later s (s.setQueue k q) where
  ended j hj := by
    unfold State.Ended State.setQueue at *
    by_cases hjk : j = k
    · subst hjk; simpa using h hj
    · simpa [hjk] using hj
  error := id

/-- What worker `i` leaves behind when it goes on: the other workers are where
they were, nothing is forgotten, and ended queues ended soundly. -/
theorem Sound.goto {net : Net σ α} {s t : State σ α} {i : Nat} {pc : Pc σ α} (hs : Sound net s)
    (hi : i < net.n) (hpc : t.pc = s.pc) (hst : Later s t)
    (hends : ∀ k e, (t.queue k).ended = some e → e = .eof ∨ e.isHard = true)
    (hknown : Known net t i pc)
    (hspread : t.error ≠ .ok → pc.Spreading ∨
      (s.error ≠ .ok ∧ ¬(s.pc i).Spreading) ∨ ∀ k < net.n, t.Ended k)
    (hblamed : t.error ≠ .ok → pc.Failed ∨ (s.error ≠ .ok ∧ ¬(s.pc i).Failed))
    (hactive : t.active = (running net (t.goto i pc)).card) : Sound net (t.goto i pc) where
  ends := hends
  known j := by
    have later : Later s (t.goto i pc) := ⟨hst.ended, hst.error⟩
    by_cases hj : j = i
    · subst hj
      simp only [State.goto_pc, Function.update_self]
      exact Known.later ⟨fun _ h => h, id⟩ hknown
    · simp only [State.goto_pc, Function.update_of_ne hj, hpc]
      exact (hs.known j).later later
  spread herr := by
    rcases hspread herr with hpc' | ⟨herr', hno⟩ | hall
    · exact .inl ⟨i, hi, by simpa using hpc'⟩
    · rcases hs.spread herr' with ⟨j, hj, hspreading⟩ | hall
      · refine .inl ⟨j, hj, ?_⟩
        have hji : j ≠ i := fun h => hno (h ▸ hspreading)
        simpa [Function.update_of_ne hji, hpc] using hspreading
      · exact .inr fun k hk => hst.ended k (hall k hk)
    · exact .inr hall
  blamed herr := by
    rcases hblamed herr with hpc' | ⟨herr', hno⟩
    · exact ⟨i, hi, by simpa using hpc'⟩
    · obtain ⟨j, hj, hfailed⟩ := hs.blamed herr'
      have hji : j ≠ i := fun h => hno (h ▸ hfailed)
      exact ⟨j, hj, by simpa [Function.update_of_ne hji, hpc] using hfailed⟩
  active := hactive

/-- Going on without returning changes no count. -/
theorem running_goto {net : Net σ α} {s t : State σ α} {i : Nat} {pc : Pc σ α} (hpc : t.pc = s.pc)
    (hfrom : (s.pc i).isExited = false) (hto : pc.isExited = false) :
    running net (t.goto i pc) = running net s := by
  unfold running
  refine Finset.filter_congr fun j _ => ?_
  by_cases hj : j = i
  · subst hj; simp [hfrom, hto]
  · simp [Function.update_of_ne hj, hpc]

/-- Returning takes one worker off. -/
theorem running_exit {net : Net σ α} {s t : State σ α} {i : Nat} {why : Exit} (hpc : t.pc = s.pc) :
    running net (t.goto i (.exited why)) = (running net s).erase i := by
  ext j
  simp only [running, Finset.mem_filter, Finset.mem_erase, Finset.mem_range]
  by_cases hj : j = i
  · subst hj; simp [Pc.isExited]
  · simp [hpc, hj]

theorem Sound.active_goto {net : Net σ α} {s t : State σ α} {i : Nat} {pc : Pc σ α} (hs : Sound net s)
    (hpc : t.pc = s.pc) (hactive : t.active = s.active) (hfrom : (s.pc i).isExited = false)
    (hto : pc.isExited = false) : t.active = (running net (t.goto i pc)).card := by
  rw [hactive, hs.active, running_goto hpc hfrom hto]

theorem later_refl (s : State σ α) : Later s s := ⟨fun _ h => h, id⟩

/-- Cancelling a queue ends it, if the status is an error. -/
theorem ended_cancel_isSome {q : BoundedQueue α} {e : Status} (he : e.isHard = true) :
    (q.cancel e).ended.isSome = true := by
  rw [BoundedQueue.ended_cancel he]; rfl

theorem ends_setQueue {s : State σ α} {k : Nat} {q : BoundedQueue α}
    (hs : ∀ k e, (s.queue k).ended = some e → e = .eof ∨ e.isHard = true)
    (hq : ∀ e, q.ended = some e → e = .eof ∨ e.isHard = true) :
    ∀ j e, ((s.setQueue k q).queue j).ended = some e → e = .eof ∨ e.isHard = true := by
  intro j e he
  unfold State.setQueue at he
  by_cases hjk : j = k
  · subst hjk; exact hq e (by simpa using he)
  · exact hs j e (by simpa [hjk] using he)

theorem ends_close {q : BoundedQueue α} (hq : ∀ e, q.ended = some e → e = .eof ∨ e.isHard = true) :
    ∀ e, q.close.ended = some e → e = .eof ∨ e.isHard = true := by
  intro e he
  cases hend : q.ended with
  | none => rw [BoundedQueue.ended_close, hend] at he; cases he; exact .inl rfl
  | some e' => rw [BoundedQueue.ended_close, hend] at he; cases he; exact hq _ hend

theorem ends_cancel {q : BoundedQueue α} {c : Status}
    (hq : ∀ e, q.ended = some e → e = .eof ∨ e.isHard = true) :
    ∀ e, (q.cancel c).ended = some e → e = .eof ∨ e.isHard = true := by
  intro e he
  unfold BoundedQueue.cancel at he
  split at he
  · rename_i hc
    cases hend : q.ended with
    | none => rw [hend] at he; cases he; exact .inr hc
    | some e' => rw [hend] at he; cases he; exact hq _ hend
  · exact hq e he

/-- A queue operation that ends no queue. -/
theorem later_accept (s : State σ α) (k : Nat) (f : α) : Later s (s.accept k f) where
  ended j hj := by
    unfold State.Ended State.accept at *
    by_cases hjk : j = k
    · subst hjk; simpa using hj
    · simpa [hjk] using hj
  error := id

theorem later_take (s : State σ α) (k : Nat) (f : α) : Later s (s.take k f) where
  ended j hj := by
    unfold State.Ended State.take at *
    by_cases hjk : j = k
    · subst hjk; simpa using hj
    · simpa [hjk] using hj
  error := id

theorem ended_accept (s : State σ α) (k j : Nat) (f : α) :
    ((s.accept k f).queue j).ended = (s.queue j).ended := by
  unfold State.accept
  by_cases hjk : j = k
  · subst hjk; simp
  · simp [hjk]

theorem ended_take (s : State σ α) (k j : Nat) (f : α) :
    ((s.take k f).queue j).ended = (s.queue j).ended := by
  unfold State.take
  by_cases hjk : j = k
  · subst hjk; simp
  · simp [hjk]

/-- The owner's calls leave the workers where they are. -/
theorem Sound.owner {net : Net σ α} {s t : State σ α} (hs : Sound net s) (hpc : t.pc = s.pc)
    (herror : t.error = s.error) (hactive : t.active = s.active) (hst : Later s t)
    (hends : ∀ k e, (t.queue k).ended = some e → e = .eof ∨ e.isHard = true) : Sound net t where
  ends := hends
  known i := hpc ▸ (hs.known i).later hst
  spread herr := by
    rw [hpc]
    rw [herror] at herr
    exact (hs.spread herr).imp_right fun hall k hk => hst.ended k (hall k hk)
  blamed herr := by
    rw [hpc]
    exact hs.blamed (herror ▸ herr)
  active := by
    rw [hactive, hs.active]
    unfold running
    rw [hpc]

section Worker

variable {net : Net σ α} {s t : State σ α} {i : Nat}

/-- A step inside the loop: the worker is not in `fail`, before or after. -/
theorem Sound.inLoop {pc : Pc σ α} (hs : Sound net s) (hi : i < net.n) (hpc : t.pc = s.pc)
    (herror : t.error = s.error) (hactive : t.active = s.active) (hst : Later s t)
    (hends : ∀ k e, (t.queue k).ended = some e → e = .eof ∨ e.isHard = true)
    (hfrom : ¬(s.pc i).Failed ∧ (s.pc i).isExited = false) (hto : pc.isExited = false)
    (hknown : Known net t i pc) : Sound net (t.goto i pc) := by
  have hno : ¬(s.pc i).Spreading := fun h => hfrom.1 <| by
    revert h
    cases s.pc i <;> simp [Pc.Spreading, Pc.Failed]
  refine hs.goto hi hpc hst hends hknown (fun herr => .inr (.inl ⟨herror ▸ herr, hno⟩))
    (fun herr => .inr ⟨herror ▸ herr, hfrom.1⟩) ?_
  exact hs.active_goto hpc hactive hfrom.2 hto

/-- **A step of a worker keeps the invariant.** -/
theorem Sound.work (hs : Sound net s) (hi : i < net.n) (hret : returnsHonestly i (s.pc i) = true)
    (h : Work net s i t) : Sound net t := by
  have take : ∀ k f, ∀ j e, ((s.take k f).queue j).ended = some e → e = .eof ∨ e.isHard = true :=
    fun k f j e he => hs.ends j e (ended_take s k j f ▸ he)
  cases h with
  | call _ hpc =>
    exact hs.inLoop hi rfl rfl rfl (later_refl s) hs.ends (by simp [hpc, Pc.Failed, Pc.isExited]) rfl trivial
  | take _ hpc _ =>
    exact hs.inLoop hi rfl rfl rfl (later_take s _ _) (take _ _)
      (by simp [hpc, Pc.Failed, Pc.isExited]) rfl trivial
  | takeEof _ hpc _ _ =>
    exact hs.inLoop hi rfl rfl rfl (later_refl s) hs.ends (by simp [hpc, Pc.Failed, Pc.isExited]) rfl trivial
  | takeEnd _ hpc _ hend hne =>
    exact hs.inLoop hi rfl rfl rfl (later_refl s) hs.ends (by simp [hpc, Pc.Failed, Pc.isExited]) rfl
      ((hs.ends _ _ hend).resolve_left hne)
  | emit hpc _ _ =>
    exact hs.inLoop hi rfl rfl rfl (later_accept s _ _)
      (fun j e he => hs.ends j e (ended_accept s _ j _ ▸ he)) (by simp [hpc, Pc.Failed, Pc.isExited]) rfl trivial
  | emitEnd hpc _ =>
    exact hs.inLoop hi rfl rfl rfl (later_refl s) hs.ends (by simp [hpc, Pc.Failed, Pc.isExited]) rfl trivial
  | pull _ hpc _ =>
    exact hs.inLoop hi rfl rfl rfl (later_take s _ _) (take _ _)
      (by simp [hpc, Pc.Failed, Pc.isExited]) rfl trivial
  | pullEnd _ hpc _ _ =>
    exact hs.inLoop hi rfl rfl rfl (later_refl s) hs.ends (by simp [hpc, Pc.Failed, Pc.isExited]) rfl trivial
  | again hpc =>
    exact hs.inLoop hi rfl rfl rfl (later_refl s) hs.ends (by simp [hpc, Pc.Failed, Pc.isExited]) rfl trivial
  | sourceEof _ hpc =>
    exact hs.inLoop hi rfl rfl rfl (later_refl s) hs.ends (by simp [hpc, Pc.Failed, Pc.isExited]) rfl trivial
  | fail hpc hok heof =>
    refine hs.inLoop hi rfl rfl rfl (later_refl s) hs.ends (by simp [hpc, Pc.Failed, Pc.isExited]) rfl ?_
    rw [hpc] at hret
    simp only [returnsHonestly, Bool.or_eq_true, decide_eq_true_eq, Bool.and_eq_true, hok, heof, or_false,
      false_or] at hret
    exact hret
  | flushed hpc =>
    exact hs.inLoop hi rfl rfl rfl (later_refl s) hs.ends (by simp [hpc, Pc.Failed, Pc.isExited]) rfl trivial
  | flushFail hpc hok =>
    refine hs.inLoop hi rfl rfl rfl (later_refl s) hs.ends (by simp [hpc, Pc.Failed, Pc.isExited]) rfl ?_
    rw [hpc] at hret
    simp only [returnsHonestly, Bool.or_eq_true, decide_eq_true_eq, hok, false_or] at hret
    exact hret
  | close hpc =>
    refine hs.inLoop hi rfl rfl rfl (later_setQueue fun _ => rfl)
      (ends_setQueue hs.ends (ends_close (hs.ends _))) (by simp [hpc, Pc.Failed, Pc.isExited]) rfl ?_
    simp [Known, State.Ended, State.setQueue]
  | filtered hpc hflow =>
    have := hs.known i
    rw [hpc] at this
    exact absurd this (by simp [Known, hflow])
  | second hpc herr =>
    have := hs.known i
    rw [hpc] at this
    exact hs.inLoop hi rfl rfl rfl (later_refl s) hs.ends (by simp [hpc, Pc.Failed, Pc.isExited]) rfl ⟨this, herr⟩
  | first hpc hhard herr =>
    have hne : ∀ {e : Status}, e.isHard = true → e ≠ .ok := fun he h => by simp [h, Status.isHard] at he
    refine hs.goto hi rfl ⟨fun _ h => h, fun h => absurd herr h⟩ hs.ends ⟨hhard, hne hhard, fun j hj => ?_⟩
      (fun _ => .inl trivial) (fun _ => .inl trivial) ?_
    · exact absurd hj (Nat.not_lt_zero j)
    · exact hs.active_goto rfl rfl (by simp [hpc, Pc.isExited]) rfl
  | @cancel e k hpc hk =>
    have known := hs.known i
    rw [hpc] at known
    have later : Later s (s.setQueue k ((s.queue k).cancel e)) :=
      later_setQueue fun _ => ended_cancel_isSome known.1
    refine hs.goto hi rfl later (ends_setQueue hs.ends (ends_cancel (hs.ends _)))
      ⟨known.1, known.2.1, fun j hj => ?_⟩ (fun _ => .inl trivial) (fun _ => .inl trivial) ?_
    · by_cases hjk : j = k
      · subst hjk
        simpa [State.Ended, State.setQueue] using ended_cancel_isSome (q := s.queue j) known.1
      · exact later.ended j (known.2.2 j (by omega))
    · exact hs.active_goto rfl rfl (by simp [hpc, Pc.isExited]) rfl
  | cancelled hpc hk =>
    have known := hs.known i
    rw [hpc] at known
    refine hs.goto hi rfl (later_refl s) hs.ends ⟨known.1, known.2.1⟩
      (fun _ => .inr (.inr fun k hkn => known.2.2 k (by omega))) (fun _ => .inl trivial) ?_
    exact hs.active_goto rfl rfl (by simp [hpc, Pc.isExited]) rfl
  | leaveSink hpc hsink =>
    have known := hs.known i
    rw [hpc] at known
    refine hs.goto hi rfl (later_setQueue fun _ => ended_cancel_isSome known.1)
      (ends_setQueue hs.ends (ends_cancel (hs.ends _))) ⟨known.1, known.2, fun _ => ?_⟩
      (fun herr => .inr (.inl ⟨herr, by simp [hpc, Pc.Spreading]⟩)) (fun _ => .inl trivial) ?_
    · simpa [State.Ended, State.setQueue] using ended_cancel_isSome (q := s.queue net.n) known.1
    · exact hs.active_goto rfl rfl (by simp [hpc, Pc.isExited]) rfl
  | leave hpc hsink =>
    have known := hs.known i
    rw [hpc] at known
    refine hs.goto hi rfl (later_refl s) hs.ends ⟨known.1, known.2, fun h => absurd h hsink⟩
      (fun herr => .inr (.inl ⟨herr, by simp [hpc, Pc.Spreading]⟩)) (fun _ => .inl trivial) ?_
    exact hs.active_goto rfl rfl (by simp [hpc, Pc.isExited]) rfl
  | @exit why hpc =>
    have known := hs.known i
    rw [hpc] at known
    have active : (s.pc i).isExited = false := by rw [hpc]; rfl
    have member : i ∈ running net s := by simp [running, hi, active]
    refine hs.goto (t := { s with active := s.active - 1 }) hi rfl ⟨fun _ h => h, id⟩ hs.ends ?_
      (fun herr => .inr (.inl ⟨herr, by simp [hpc, Pc.Spreading]⟩)) ?_ ?_
    · cases why <;> exact known
    · intro herr
      cases why with
      | eof => exact .inr ⟨herr, by simp [hpc, Pc.Failed]⟩
      | status e => exact .inl trivial
    · have erased : running net ({ s with active := s.active - 1 }.goto i (.exited why)) = (running net s).erase i :=
        running_exit rfl
      rw [erased, Finset.card_erase_of_mem member, ← hs.active]

end Worker

/-! ## Runs -/

theorem sound_start (net : Net σ α) : Sound net net.start where
  ends k e h := by cases h
  known i := trivial
  spread h := absurd rfl h
  blamed h := absurd rfl h
  active := by simp [running, Net.start, Pc.isExited]

theorem Sound.step {net : Net σ α} {s t : State σ α} {e : Event α} (hs : Sound net s)
    (hhonest : honest s e = true) (h : Executor.step net s e = some t) : Sound net t := by
  cases e with
  | push f =>
    simp only [Executor.step] at h
    split at h
    · cases h
      exact hs.owner rfl rfl rfl (later_accept s 0 f) fun j e he => hs.ends j e (ended_accept s 0 j f ▸ he)
    · cases h
  | pushEos =>
    cases h
    exact hs.owner rfl rfl rfl (later_setQueue fun _ => rfl) (ends_setQueue hs.ends (ends_close (hs.ends _)))
  | pull =>
    simp only [Executor.step] at h
    split at h
    · cases h
      exact hs.owner rfl rfl rfl (later_take s _ _) fun j e he => hs.ends j e (ended_take s _ j _ ▸ he)
    · cases h
  | shutdown k =>
    simp only [Executor.step] at h
    split at h
    · cases h
      exact hs.owner rfl rfl rfl (later_setQueue fun _ => ended_cancel_isSome rfl)
        (ends_setQueue hs.ends (ends_cancel (hs.ends _)))
    · cases h
  | work i =>
    simp only [Executor.step] at h
    split at h
    · rename_i hi
      exact hs.work hi hhonest (work_spec h)
    · cases h

/-- Every state of a run with honest nodes is sound. -/
theorem reach_sound {net : Net σ α} {s : State σ α} (h : Reach net (fun s e => honest s e = true) s) :
    Sound net s :=
  h.invariant (sound_start net) fun _ _ _ hs ha hstep => hs.step ha hstep

/-- **No worker dies silently.** In every run of every graph in which the nodes
return honestly, and in every state of it in which no worker is inside `fail`: a
worker that has returned has left the queue it writes ended, and has left an
error unless it came to the end of its input and its flush went well. So once no
worker is active, `wait` returns `Ok` exactly if all of them ended that way, and
the session's output queue has ended. -/
theorem no_silent_death {net : Net σ α} {s : State σ α} (h : Reach net (fun s e => honest s e = true) s)
    (outside : ∀ i < net.n, ¬(s.pc i).InFail) :
    (∀ i < net.n, ∀ why, s.pc i = .exited why →
      (s.queue (i + 1)).ended.isSome = true ∧ (why ≠ .eof → s.error ≠ .ok)) ∧
    (s.active = 0 →
      (wait s = some .ok ↔ ∀ i < net.n, s.pc i = .exited .eof) ∧ (s.queue net.n).ended.isSome = true) := by
  have hs := reach_sound h
  have returned : ∀ i < net.n, ∀ why, s.pc i = .exited why →
      (s.queue (i + 1)).ended.isSome = true ∧ (why ≠ .eof → s.error ≠ .ok) := by
    intro i hi why hpc
    have known := hs.known i
    rw [hpc] at known
    cases why with
    | eof => exact ⟨known, fun hne => absurd rfl hne⟩
    | status e =>
      refine ⟨?_, fun _ => known.2.1⟩
      by_cases hsink : i + 1 = net.n
      · rw [hsink]
        exact known.2.2 hsink
      · rcases hs.spread known.2.1 with ⟨j, hj, hspreading⟩ | hall
        · refine absurd ?_ (outside j hj)
          revert hspreading
          cases s.pc j <;> simp [Pc.Spreading, Pc.InFail]
        · exact hall (i + 1) (by omega)
  refine ⟨returned, fun hactive => ?_⟩
  have hnone : running net s = ∅ := Finset.card_eq_zero.mp (hs.active ▸ hactive)
  have exited : ∀ i < net.n, ∃ why, s.pc i = .exited why := by
    intro i hi
    have : i ∉ running net s := by rw [hnone]; exact Finset.notMem_empty i
    simp only [running, Finset.mem_filter, Finset.mem_range, hi, true_and, Bool.not_eq_false] at this
    revert this
    cases s.pc i <;> simp [Pc.isExited]
  have two := net.two_le
  refine ⟨?_, ?_⟩
  · simp only [wait, hactive, if_true, Option.some.injEq]
    constructor
    · intro hok i hi
      obtain ⟨why, hpc⟩ := exited i hi
      cases why with
      | eof => exact hpc
      | status e => exact absurd hok ((returned i hi _ hpc).2 nofun)
    · intro hall
      by_contra herr
      obtain ⟨i, hi, hfailed⟩ := hs.blamed herr
      rw [hall i hi] at hfailed
      exact hfailed
  · obtain ⟨why, hpc⟩ := exited (net.n - 1) (by omega)
    have := (returned (net.n - 1) (by omega) why hpc).1
    rwa [Nat.sub_add_cancel (by omega)] at this

/-! ## Two graphs -/

/-- The two queue adapters. -/
def pairNet : Net Unit Unit where
  n := 2
  node i := if i = 0 then queueSource () else queueSink ()
  capacity := 1
  two_le := by decide

/-- A frame goes through, the input is closed, and both workers return. -/
def pairRun : List (Event Unit) :=
  [.push (), .work 0, .work 0, .work 0, .work 0, .work 1, .work 1, .work 1, .pushEos] ++
    List.replicate 6 (.work 0) ++ List.replicate 4 (.work 1)

def pairEnd : State Unit Unit := (play pairNet honest pairNet.start pairRun).getD pairNet.start

theorem pair_ends : wait pairEnd = some .ok ∧ (pairEnd.queue 2).ended.isSome = true := by
  have reached : Reach pairNet (fun s e => honest s e = true) pairEnd := play_reach honest pairRun .start rfl
  obtain ⟨-, ended⟩ := no_silent_death reached fun i hi => by
    match i, hi with
    | 0, _ => exact id
    | 1, _ => exact id
  obtain ⟨waits, out⟩ := ended rfl
  refine ⟨waits.mpr fun i hi => ?_, out⟩
  match i, hi with
  | 0, _ => rfl
  | 1, _ => rfl

/-- A node between the adapters that has nothing to say yet, and says `Again`. -/
def againNet : Net Unit Unit where
  n := 3
  node i := if i = 0 then queueSource () else
    if i = 1 then { init := (), process := fun st _ => .ret st .again, flush := fun st => .ret st .ok }
    else queueSink ()
  capacity := 1
  two_le := by decide

def againRun : List (Event Unit) :=
  .push () :: List.replicate 4 (.work 0) ++ List.replicate 5 (.work 1)

/-- Its worker returns, the sink's queue stays open and there is no error. -/
theorem again_strands_sink :
    ∃ s, Reach againNet (fun _ _ => True) s ∧ (∀ i < 3, ¬(s.pc i).InFail) ∧
      s.pc 1 = .exited (.status .again) ∧ (s.queue 2).ended = none ∧ s.error = .ok := by
  refine ⟨(play againNet (fun _ _ => true) againNet.start againRun).getD againNet.start,
    (play_reach (fun _ _ => true) againRun .start rfl).mono fun _ _ _ => trivial,
    fun i hi => ?_, rfl, rfl, rfl⟩
  match i, hi with
  | 0, _ => exact id
  | 1, _ => exact id
  | 2, _ => exact id

end Rkvc.Executor
