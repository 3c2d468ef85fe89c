import Rkvc.Core.Completion

/-!
# Sessions that need nobody

Where the source makes its own frames and the sink keeps them, nobody has to push,
to pull or to close the input queue: the workers come to an end by themselves
(`workers_complete`). They do not look at the input queue, so the session does
what it would do with that queue closed.
-/

namespace Rkvc.Executor
set_option autoImplicit false

open Lib Lib.Kahn

variable {σ α : Type}

/-- The call returns without touching a queue. -/
def Mute : Prog σ α Status → Prop
  | .ret _ _ => True
  | _ => False

/-- The source makes its own frames and the sink keeps them. -/
structure SelfContained (net : Net σ α) : Prop where
  source : ∀ st, Quiet ((net.node 0).process st none) ∧ Quiet ((net.node 0).flush st)
  sink : ∀ st f, Mute ((net.node net.sink).process st (some f))
  sink_flush : ∀ st, Mute ((net.node net.sink).flush st)

/-- The call a worker is in touches no queue. -/
def Pc.InMute : Pc σ α → Prop
  | .calling _ p => Mute p
  | _ => True

/-- Neither end of the graph waits for the owner. -/
structure Apart (net : Net σ α) (s : State σ α) : Prop where
  source : (s.pc 0).InQuiet
  sink : (s.pc net.sink).InMute

section SelfContained

variable {net : Net σ α} {s s' t : State σ α} {j : Nat}

theorem Work.quiet_source (hnet : SelfContained net) (w : Work net s 0 t) (h : (s.pc 0).InQuiet) : (t.pc 0).InQuiet := by
  cases w with
  | @call st _ hpc =>
    rw [State.goto_pc, Function.update_self]
    exact (hnet.source st).1
  | @sourceEof st _ hpc =>
    rw [State.goto_pc, Function.update_self]
    exact (hnet.source st).2
  | emit hpc _ _ =>
    rw [hpc] at h
    rw [State.goto_pc, Function.update_self]
    exact h .ok
  | emitEnd hpc _ =>
    rw [hpc] at h
    rw [State.goto_pc, Function.update_self]
    exact h _
  | pull _ hpc =>
    rw [hpc] at h
    exact h.elim
  | pullEnd _ hpc =>
    rw [hpc] at h
    exact h.elim
  | take pos => omega
  | takeEof pos => omega
  | takeEnd pos => omega
  | _ => simp [Pc.InQuiet]

theorem Work.mute_sink (hnet : SelfContained net) (w : Work net s net.sink t) (h : (s.pc net.sink).InMute) :
    (t.pc net.sink).InMute := by
  have pos := net.sink_pos
  cases w with
  | @take st f _ _ hpc =>
    rw [State.goto_pc, Function.update_self]
    exact hnet.sink st f
  | @takeEof st _ hpc =>
    rw [State.goto_pc, Function.update_self]
    exact hnet.sink_flush st
  | emit hpc _ _ =>
    rw [hpc] at h
    exact h.elim
  | emitEnd hpc _ =>
    rw [hpc] at h
    exact h.elim
  | call => omega
  | sourceEof => omega
  | pull => omega
  | pullEnd => omega
  | _ => simp [Pc.InMute]

theorem Apart.work (hnet : SelfContained net) (h : Apart net s) (w : Work net s j t) : Apart net t where
  source := by
    by_cases h0 : 0 = j
    · subst h0
      exact w.quiet_source hnet h.source
    · rw [w.pc_other h0]
      exact h.source
  sink := by
    by_cases h0 : net.sink = j
    · subst h0
      exact w.mute_sink hnet h.sink
    · rw [w.pc_other h0]
      exact h.sink

/-- The same but for what is in the input queue. -/
structure Twin (s s' : State σ α) : Prop where
  pc : s'.pc = s.pc
  error : s'.error = s.error
  active : s'.active = s.active
  queue : ∀ k, 0 < k → s'.queue k = s.queue k

theorem Twin.goto (h : Twin s s') (i : Nat) (pc : Pc σ α) : Twin (s.goto i pc) (s'.goto i pc) where
  pc := by rw [State.goto_pc, State.goto_pc, h.pc]
  error := h.error
  active := h.active
  queue := h.queue

theorem Twin.setQueue (h : Twin s s') {k : Nat} {q q' : BoundedQueue α} (same : 0 < k → q' = q) :
    Twin (s.setQueue k q) (s'.setQueue k q') where
  pc := h.pc
  error := h.error
  active := h.active
  queue m pos := by
    by_cases hm : m = k
    · subst hm
      simp [State.setQueue, same pos]
    · simp [State.setQueue, hm, h.queue m pos]

theorem Twin.accept (h : Twin s s') (k : Nat) (f : α) : Twin (s.accept k f) (s'.accept k f) where
  pc := h.pc
  error := h.error
  active := h.active
  queue m pos := by
    by_cases hm : m = k
    · subst hm
      simp [State.accept, h.queue m pos]
    · simp [State.accept, hm, h.queue m pos]

theorem Twin.take (h : Twin s s') (k : Nat) (f : α) : Twin (s.take k f) (s'.take k f) where
  pc := h.pc
  error := h.error
  active := h.active
  queue m pos := by
    by_cases hm : m = k
    · subst hm
      simp [State.take, h.queue m pos]
    · simp [State.take, hm, h.queue m pos]

/-- **A worker that does not read the input queue** does the same in both. -/
theorem Twin.work (h : Twin s s') (quiet : j = 0 → (s.pc 0).InQuiet) (w : Work net s j t) :
    ∃ t', work net s' j = some t' ∧ Twin t t' := by
  have pc : s'.pc j = s.pc j := congrFun h.pc j
  cases w with
  | call hj hpc =>
    subst hj
    exact ⟨_, by simp [work, pc, hpc], h.goto _ _⟩
  | take pos hpc hitems =>
    refine ⟨_, ?_, (h.take _ _).goto _ _⟩
    simp [work, pc, hpc, Nat.pos_iff_ne_zero.mp pos, pop, BoundedQueue.pop, h.queue _ pos, hitems]
  | takeEof pos hpc hitems hended =>
    refine ⟨_, ?_, h.goto _ _⟩
    simp [work, pc, hpc, Nat.pos_iff_ne_zero.mp pos, pop, BoundedQueue.pop, h.queue _ pos, hitems, hended]
  | takeEnd pos hpc hitems hended hne =>
    refine ⟨_, ?_, h.goto _ _⟩
    simp [work, pc, hpc, Nat.pos_iff_ne_zero.mp pos, pop, BoundedQueue.pop, h.queue _ pos, hitems, hended, hne]
  | emit hpc hopen room =>
    refine ⟨_, ?_, (h.accept _ _).goto _ _⟩
    simp [work, pc, hpc, emit, BoundedQueue.push, h.queue _ (Nat.succ_pos j), hopen, room]
  | emitEnd hpc hended =>
    refine ⟨_, ?_, h.goto _ _⟩
    simp [work, pc, hpc, emit, BoundedQueue.push, h.queue _ (Nat.succ_pos j), hended]
  | pull hj hpc =>
    subst hj
    have := quiet rfl
    rw [hpc] at this
    exact this.elim
  | pullEnd hj hpc =>
    subst hj
    have := quiet rfl
    rw [hpc] at this
    exact this.elim
  | again hpc => exact ⟨_, by simp [work, pc, hpc], h.goto _ _⟩
  | sourceEof hj hpc =>
    subst hj
    exact ⟨_, by simp [work, pc, hpc], h.goto _ _⟩
  | fail hpc hok hne => exact ⟨_, by simp [work, pc, hpc, hok, hne], h.goto _ _⟩
  | flushed hpc => exact ⟨_, by simp [work, pc, hpc], h.goto _ _⟩
  | flushFail hpc hok => exact ⟨_, by simp [work, pc, hpc, hok], h.goto _ _⟩
  | close hpc =>
    refine ⟨_, by simp only [work, pc, hpc]; rfl, (h.setQueue fun pos => ?_).goto _ _⟩
    rw [h.queue _ pos]
  | filtered hpc soft => exact ⟨_, by simp [work, pc, hpc, soft], h.goto _ _⟩
  | second hpc error => exact ⟨_, by simp [work, pc, hpc, h.error, error], h.goto _ _⟩
  | @first e hpc hard ok =>
    refine ⟨_, by simp [work, pc, hpc, h.error, hard, ok]; rfl, ?_⟩
    have twin : Twin { s with error := e } { s' with error := e } := ⟨h.pc, rfl, h.active, h.queue⟩
    exact twin.goto _ _
  | cancel hpc hk =>
    refine ⟨_, by simp only [work, pc, hpc, if_pos hk]; rfl, (h.setQueue fun pos => ?_).goto _ _⟩
    rw [h.queue _ pos]
  | cancelled hpc hk => exact ⟨_, by simp [work, pc, hpc, Nat.not_lt.mpr hk], h.goto _ _⟩
  | leaveSink hpc hsink =>
    refine ⟨_, by simp only [work, pc, hpc, if_pos hsink]; rfl, (h.setQueue fun pos => ?_).goto _ _⟩
    rw [h.queue _ pos]
  | leave hpc hsink => exact ⟨_, by simp [work, pc, hpc, hsink], h.goto _ _⟩
  | exit hpc =>
    refine ⟨_, by simp only [work, pc, hpc]; rfl, ?_⟩
    have twin : Twin { s with active := s.active - 1 } { s' with active := s'.active - 1 } :=
      ⟨h.pc, h.error, congrArg (· - 1) h.active, h.queue⟩
    exact twin.goto _ _

theorem reach_apart (hnet : SelfContained net) (h : Reach net (fun _ _ => True) s) : Apart net s := by
  refine h.invariant ⟨trivial, trivial⟩ fun s t e hs _ hstep => ?_
  cases e with
  | push f =>
    simp only [Executor.step] at hstep
    split at hstep
    · cases hstep
      exact ⟨hs.source, hs.sink⟩
    · cases hstep
  | pushEos =>
    cases hstep
    exact ⟨hs.source, hs.sink⟩
  | pull =>
    simp only [Executor.step] at hstep
    split at hstep
    · cases hstep
      exact ⟨hs.source, hs.sink⟩
    · cases hstep
  | shutdown k =>
    simp only [Executor.step] at hstep
    split at hstep
    · cases hstep
      exact ⟨hs.source, hs.sink⟩
    · cases hstep
  | work i =>
    simp only [Executor.step] at hstep
    split at hstep
    · exact hs.work hnet (work_spec hstep)
    · cases hstep

end SelfContained

/-- **A session between files needs nobody.** Where the source reads nothing from the owner and the sink hands
nothing on, the workers come to an end by themselves: compare with the session whose input queue is closed. -/
theorem workers_complete {net : Net σ α} {lt : σ → σ → Prop} {s : State σ α} (hnet : WellBehaved net)
    (hpull : PullsAtSource net) (source : SourceEnds net lt) (self : SelfContained net)
    (h : Reach net (fun _ _ => True) s) : Ends (fun s t => ∃ i < net.n, work net s i = some t) (Joined net) s := by
  have closed : Reach net (fun _ _ => True) (s.setQueue 0 (s.queue 0).close) := h.step (e := .pushEos) trivial rfl
  obtain ⟨B, burden⟩ := (reach_steady hnet hpull closed).burden lt (by simp [State.Ended, State.setQueue])
  have ends := burden.ends hnet hpull source
  have twin : Twin s (s.setQueue 0 (s.queue 0).close) :=
    ⟨rfl, rfl, rfl, fun k pos => by simp [State.setQueue, Nat.pos_iff_ne_zero.mp pos]⟩
  refine Ends.of_simulation (fun s s' => Reach net (fun _ _ => True) s ∧ Twin s s') (fun s s' t hs next => ?_)
    (fun s s' hs stop => ?_) ⟨h, twin⟩ ends
  · obtain ⟨i, hi, step⟩ := next
    obtain ⟨t', go, twin⟩ := hs.2.work (fun h0 => (reach_apart self hs.1).source) (work_spec step)
    refine ⟨t', .inl ⟨i, hi, go⟩, hs.1.step (e := .work i) trivial ?_, twin⟩
    rw [Executor.step, if_pos hi]
    exact step
  · have steady := reach_steady hnet hpull hs.1
    have apart := reach_apart self hs.1
    rcases steady.progress with ⟨i, hi, t, step⟩ | exited | frame | room
    · exact absurd ⟨i, hi, step⟩ (stop t)
    · exact ⟨exited, steady.waited exited⟩
    · obtain ⟨ph, st, k, here⟩ := frame.pulls
      have quiet := apart.source
      rw [here] at quiet
      exact quiet.elim
    · obtain ⟨ph, f, k, here⟩ := room.emits
      have mute := apart.sink
      rw [here] at mute
      exact mute.elim

end Rkvc.Executor
