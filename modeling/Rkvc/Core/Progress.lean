import Rkvc.Core.Determinism

/-!
# A session waits for nobody but its owner

Workers block on queues only: a worker that reads waits for the one before it, a
worker that writes for the one behind it. Whenever no worker can go on, all of
them have returned, or the source waits for a frame of the session's owner, or
the sink for room in the output queue (`never_wedged`), whatever the interleaving
and with `shutdown` at any point.

The invariant is `Steady`: on top of `Sound`, what a worker that has come to the
end of its input says of that input, and what a closed queue says of its writer.
-/

namespace Rkvc.Executor
set_option autoImplicit false

open Lib.Kahn

variable {σ α : Type}

/-- The call takes nothing off the session's input queue. -/
def Quiet : Prog σ α Status → Prop
  | .ret _ _ => True
  | .emit _ k => ∀ e, Quiet (k e)
  | .pull _ _ => False

/-- Only the source reads the session's input queue. -/
structure PullsAtSource (net : Net σ α) : Prop where
  process : ∀ i, 0 < i → ∀ st f, Quiet ((net.node i).process st (some f))
  flush : ∀ i, 0 < i → ∀ st, Quiet ((net.node i).flush st)

/-- The call a worker is in is quiet. -/
def Pc.InQuiet : Pc σ α → Prop
  | .calling _ p => Quiet p
  | _ => True

/-- What holds of every state of every run, `shutdown` included. -/
structure Steady (net : Net σ α) (s : State σ α) : Prop where
  sound : Sound net s
  returns : ∀ i, CallReturns i (s.pc i)
  closed : ∀ i, (s.queue (i + 1)).ended = some .eof → (s.pc i).Finished
  ending : ∀ i, 0 < i → (s.pc i).Ending → s.Ended i
  room : ∀ k, 0 < (s.queue k).capacity
  quiet : ∀ i, 0 < i → (s.pc i).InQuiet

/-! ## What a step leaves of the queues -/

theorem capacity_accept (s : State σ α) (m k : Nat) (f : α) :
    ((s.accept m f).queue k).capacity = (s.queue k).capacity := by
  unfold State.accept
  by_cases h : k = m
  · subst h; simp
  · simp [h]

theorem capacity_take (s : State σ α) (m k : Nat) (f : α) :
    ((s.take m f).queue k).capacity = (s.queue k).capacity := by
  unfold State.take
  by_cases h : k = m
  · subst h; simp
  · simp [h]

theorem capacity_setQueue {s : State σ α} {m : Nat} {q : BoundedQueue α}
    (h : q.capacity = (s.queue m).capacity) (k : Nat) :
    ((s.setQueue m q).queue k).capacity = (s.queue k).capacity := by
  unfold State.setQueue
  by_cases hk : k = m
  · subst hk; simpa using h
  · simp [hk]

theorem capacity_cancel (q : BoundedQueue α) (e : Status) : (q.cancel e).capacity = q.capacity := by
  unfold BoundedQueue.cancel
  split <;> rfl

section Worker

variable {net : Net σ α} {s t : State σ α} {i j : Nat}

theorem Work.capacity (w : Work net s j t) (k : Nat) : (t.queue k).capacity = (s.queue k).capacity := by
  cases w with
  | @emit ph f => exact capacity_accept s _ k f
  | @take st f => exact capacity_take s _ k f
  | @pull ph st p f => exact capacity_take s _ k f
  | close => exact capacity_setQueue (s := s) (q := (s.queue (j + 1)).close) rfl k
  | cancel => exact capacity_setQueue (s := s) (capacity_cancel _ _) k
  | leaveSink => exact capacity_setQueue (s := s) (capacity_cancel _ _) k
  | _ => rfl

/-- Queues stay ended. -/
theorem Work.ended (w : Work net s j t) (k : Nat) (h : s.Ended k) : t.Ended k := by
  cases w with
  | @emit ph f => exact (later_accept s (j + 1) f).ended k h
  | @take st f => exact (later_take s j f).ended k h
  | @pull ph st p f => exact (later_take s 0 f).ended k h
  | close => exact (later_setQueue (s := s) fun _ => rfl).ended k h
  | cancel => exact (later_setQueue (s := s) ended_cancel_keeps).ended k h
  | leaveSink => exact (later_setQueue (s := s) ended_cancel_keeps).ended k h
  | _ => exact h

/-- Only its writer closes a queue. -/
theorem Work.closes (hs : Sound net s) (w : Work net s j t) {k : Nat} (h : (t.queue k).ended = some .eof) :
    (s.queue k).ended = some .eof ∨ k = j + 1 ∧ s.pc j = .closing := by
  cases w with
  | @emit ph f => exact .inl ((ended_accept s (j + 1) k f).symm.trans h)
  | @take st f => exact .inl ((ended_take s j k f).symm.trans h)
  | @pull ph st p f => exact .inl ((ended_take s 0 k f).symm.trans h)
  | close hpc =>
    by_cases hk : k = j + 1
    · exact .inr ⟨hk, hpc⟩
    · exact .inl ((downstream_close s hk).closed h)
  | cancel hpc _ => exact .inl ((downstream_cancel s _ k (hs.hard (.inl hpc))).closed h)
  | leaveSink hpc _ => exact .inl ((downstream_cancel s _ k (hs.hard (k := 0) (.inr hpc))).closed h)
  | _ => exact .inl h

/-- The others are where they were. -/
theorem Work.pc_other (w : Work net s j t) (hij : i ≠ j) : t.pc i = s.pc i := by
  cases w <;> exact Function.update_of_ne hij _ _

/-- A worker that has finished only returns. -/
theorem Work.finished (w : Work net s j t) (h : (s.pc j).Finished) : (t.pc j).Finished := by
  cases w with
  | @exit why hpc =>
    rw [hpc] at h
    rw [State.goto_pc, Function.update_self]
    cases why with
    | eof => trivial
    | status => exact h
  | _ => simp_all [Pc.Finished]

/-- A worker comes to the end of its input when the input has ended. -/
theorem Work.ending (hj : 0 < j) (w : Work net s j t) (h : (t.pc j).Ending) :
    (s.pc j).Ending ∨ s.Ended j := by
  cases w with
  | takeEof _ _ _ hended => exact .inr (by rw [State.Ended, hended]; rfl)
  | sourceEof h0 _ => omega
  | pull h0 _ _ => omega
  | pullEnd h0 _ _ _ => omega
  | @emit ph f k hpc _ _ =>
    rw [hpc]
    cases ph with
    | process => simp [Pc.Ending] at h
    | flush => exact .inl trivial
  | @emitEnd ph f k e hpc _ =>
    rw [hpc]
    cases ph with
    | process => simp [Pc.Ending] at h
    | flush => exact .inl trivial
  | flushed hpc => exact .inl (by rw [hpc]; trivial)
  | close hpc => exact .inl (by rw [hpc]; trivial)
  | @exit why hpc =>
    rw [hpc]
    cases why with
    | eof => exact .inl trivial
    | status => simp [Pc.Ending] at h
  | _ => simp [Pc.Ending] at h

theorem Work.quiet (hnet : PullsAtSource net) (hj : 0 < j) (w : Work net s j t) (h : (s.pc j).InQuiet) :
    (t.pc j).InQuiet := by
  cases w with
  | take _ hpc _ =>
    rw [State.goto_pc, Function.update_self]
    exact hnet.process j hj _ _
  | takeEof _ hpc _ _ =>
    rw [State.goto_pc, Function.update_self]
    exact hnet.flush j hj _
  | emit hpc _ _ =>
    rw [hpc] at h
    rw [State.goto_pc, Function.update_self]
    exact h .ok
  | emitEnd hpc _ =>
    rw [hpc] at h
    rw [State.goto_pc, Function.update_self]
    exact h _
  | call h0 _ => omega
  | pull h0 _ _ => omega
  | pullEnd h0 _ _ _ => omega
  | sourceEof h0 _ => omega
  | _ => simp [Pc.InQuiet]

end Worker

/-! ## Runs -/

theorem steady_start (net : Net σ α) : Steady net net.start where
  sound := sound_start net
  returns _ := trivial
  closed _ h := by cases h
  ending _ _ h := h.elim
  room k := by
    simp only [Net.start, BoundedQueue.ofCapacity]
    split <;> omega
  quiet _ _ := trivial

/-- What the owner does changes no worker. -/
theorem Steady.owner {net : Net σ α} {s t : State σ α} (h : Steady net s) (sound : Sound net t) (hpc : t.pc = s.pc)
    (later : Later s t) (closes : ∀ k, 0 < k → (t.queue k).ended = some .eof → (s.queue k).ended = some .eof)
    (capacity : ∀ k, (t.queue k).capacity = (s.queue k).capacity) : Steady net t where
  sound := sound
  returns i := hpc ▸ h.returns i
  closed i heof := hpc ▸ h.closed i (closes _ (Nat.succ_pos i) heof)
  ending i hi hend := later.ended i (h.ending i hi (hpc ▸ hend))
  room k := capacity k ▸ h.room k
  quiet i hi := hpc ▸ h.quiet i hi

theorem Steady.worker {net : Net σ α} {s t : State σ α} {j : Nat} (hnet : WellBehaved net) (hpull : PullsAtSource net)
    (h : Steady net s) (hj : j < net.n) (w : Work net s j t) : Steady net t where
  sound := h.sound.work hj (h.returns j).honest w
  returns := callReturns_work hnet h.sound (h.closed j) h.returns w
  closed i heof := by
    by_cases hij : i = j
    · subst hij
      rcases w.closes h.sound heof with before | ⟨-, hpc⟩
      · exact w.finished (h.closed i before)
      · cases w <;> simp_all [Pc.Finished]
    · rw [w.pc_other hij]
      exact h.closed i ((w.closes h.sound heof).resolve_right fun here => hij (Nat.succ.inj here.1))
  ending i hi hend := by
    by_cases hij : i = j
    · subst hij
      rcases w.ending hi hend with before | ended
      · exact w.ended i (h.ending i hi before)
      · exact w.ended i ended
    · rw [w.pc_other hij] at hend
      exact w.ended i (h.ending i hi hend)
  room k := w.capacity k ▸ h.room k
  quiet i hi := by
    by_cases hij : i = j
    · subst hij
      exact w.quiet hpull hi (h.quiet i hi)
    · rw [w.pc_other hij]
      exact h.quiet i hi

theorem Steady.step {net : Net σ α} {s t : State σ α} {e : Event α} (hnet : WellBehaved net)
    (hpull : PullsAtSource net) (h : Steady net s) (hstep : Executor.step net s e = some t) : Steady net t := by
  have sound : Sound net t := by
    refine h.sound.step ?_ hstep
    cases e with
    | work i => exact (h.returns i).honest
    | _ => rfl
  cases e with
  | push f =>
    simp only [Executor.step] at hstep
    split at hstep
    · cases hstep
      exact h.owner sound rfl (later_accept s 0 f) (fun k _ heof => (ended_accept s 0 k f).symm.trans heof)
        fun k => capacity_accept s 0 k f
    · cases hstep
  | pushEos =>
    cases hstep
    exact h.owner sound rfl (later_setQueue fun _ => rfl)
      (fun k hk heof => (downstream_close s (Nat.pos_iff_ne_zero.mp hk)).closed heof)
        fun k => capacity_setQueue (s := s) (q := (s.queue 0).close) rfl k
  | pull =>
    simp only [Executor.step] at hstep
    split at hstep
    · cases hstep
      exact h.owner sound rfl (later_take s _ _) (fun k _ heof => (ended_take s _ k _).symm.trans heof)
        fun k => capacity_take s _ k _
    · cases hstep
  | shutdown m =>
    simp only [Executor.step] at hstep
    split at hstep
    · cases hstep
      exact h.owner sound rfl (later_setQueue ended_cancel_keeps)
        (fun k _ heof => (downstream_cancel s m k rfl).closed heof) fun k => capacity_setQueue (capacity_cancel _ _) k
    · cases hstep
  | work j =>
    simp only [Executor.step] at hstep
    split at hstep
    · rename_i hj
      exact h.worker hnet hpull hj (work_spec hstep)
    · cases hstep

theorem reach_steady {net : Net σ α} {s : State σ α} (hnet : WellBehaved net) (hpull : PullsAtSource net)
    (h : Reach net (fun _ _ => True) s) : Steady net s :=
  h.invariant (steady_start net) fun _ _ _ hs _ hstep => hs.step hnet hpull hstep

/-! ## Workers that cannot go on -/

/-- A reader of queue `k` waits. -/
def State.Dry (s : State σ α) (k : Nat) : Prop := (s.queue k).items = [] ∧ (s.queue k).ended = none

/-- A writer of queue `k` waits. -/
def State.Choked (s : State σ α) (k : Nat) : Prop :=
  (s.queue k).ended = none ∧ (s.queue k).capacity ≤ (s.queue k).items.length

/-- Why worker `i` does not go on. -/
inductive Waits (s : State σ α) (i : Nat) : Prop
  | exited {why} (here : s.pc i = .exited why)
  | dry {st} (here : s.pc i = .loop st) (pos : 0 < i) (dry : s.Dry i)
  | choked {ph f k} (here : s.pc i = .calling ph (.emit f k)) (choked : s.Choked (i + 1))
  | pulls {ph st k} (here : s.pc i = .calling ph (.pull st k)) (dry : i = 0 → s.Dry 0)

theorem pop_none {s : State σ α} {k : Nat} (h : pop s k = none) : s.Dry k := by
  unfold pop BoundedQueue.pop at h
  cases hitems : (s.queue k).items with
  | cons f rest => simp [hitems] at h
  | nil =>
    cases hend : (s.queue k).ended with
    | none => exact ⟨hitems, hend⟩
    | some e => simp [hitems, hend] at h

theorem emit_none {s : State σ α} {k : Nat} {f : α} (h : emit s k f = none) : s.Choked k := by
  unfold emit BoundedQueue.push at h
  cases hend : (s.queue k).ended with
  | some e => simp [hend] at h
  | none =>
    simp only [hend] at h
    by_cases room : (s.queue k).items.length < (s.queue k).capacity
    · simp [room] at h
    · exact ⟨hend, Nat.le_of_not_lt room⟩

/-- **A worker that cannot go on waits.** -/
theorem waits_of_none {net : Net σ α} {s : State σ α} {i : Nat} (h : work net s i = none) : Waits s i := by
  cases hpc : s.pc i with
  | loop st =>
    simp only [work, hpc] at h
    split at h
    · cases h
    · rename_i h0
      split at h
      · rename_i none
        exact .dry hpc (Nat.pos_of_ne_zero h0) (pop_none none)
      · cases h
      · cases h
  | calling ph p =>
    cases p with
    | ret st e => cases ph <;> simp [work, hpc] at h
    | emit f k =>
      simp only [work, hpc] at h
      split at h
      · rename_i none
        exact .choked hpc (emit_none none)
      · cases h
    | pull st k =>
      refine .pulls hpc fun h0 => ?_
      subst h0
      simp only [work, hpc, ne_eq, not_true_eq_false, if_false] at h
      split at h
      · rename_i none
        exact pop_none none
      · cases h
      · cases h
  | closing => simp [work, hpc] at h
  | failing e =>
    simp only [work, hpc] at h
    split at h <;> cases h
  | cancelling e k =>
    simp only [work, hpc] at h
    split at h <;> cases h
  | failed e =>
    simp only [work, hpc] at h
    split at h <;> cases h
  | leaving why => simp [work, hpc] at h
  | exited why => exact .exited hpc

/-- The source waits for a frame, which the owner can push. -/
structure AwaitsFrame (s : State σ α) : Prop where
  pulls : ∃ ph st k, s.pc 0 = .calling ph (.pull st k)
  dry : s.Dry 0

/-- The sink waits for room, which the owner can make. -/
structure AwaitsRoom (net : Net σ α) (s : State σ α) : Prop where
  emits : ∃ ph f k, s.pc net.sink = .calling ph (.emit f k)
  choked : s.Choked net.n

section Stuck

variable {net : Net σ α} {s : State σ α}

/-- Once every worker waits, none is spreading an error; so if there is one, the
queues have ended. -/
theorem Steady.all_ended (h : Steady net s) (waits : ∀ i < net.n, Waits s i) (error : s.error ≠ .ok) :
    ∀ k < net.n, s.Ended k := by
  rcases h.sound.spread error with ⟨i, hi, spreading⟩ | all
  · cases waits i hi <;> simp_all [Pc.Spreading]
  · exact all

/-- **Waiting for a frame passes on to the worker before**, down to the source. -/
theorem Steady.dry_down (h : Steady net s) (waits : ∀ i < net.n, Waits s i) {i : Nat} (hi : i < net.n) (pos : 0 < i)
    (dry : s.Dry i) : AwaitsFrame s := by
  have opened : ¬s.Ended i := by simp [State.Ended, dry.2]
  induction i with
  | zero => omega
  | succ i ih =>
    cases waits i (by omega) with
    | @exited why here =>
      have known := h.sound.known i
      rw [here] at known
      cases why with
      | eof => exact absurd known opened
      | status e => exact absurd (h.all_ended waits known.2.1 _ hi) opened
    | dry here pos' dry' => exact ih (by omega) pos' dry' (by simp [State.Ended, dry'.2])
    | choked here full =>
      have room := h.room (i + 1)
      have short := full.2
      rw [dry.1] at short
      exact absurd short (by simp; omega)
    | @pulls ph st k here dry' =>
      by_cases h0 : i = 0
      · subst h0
        exact ⟨⟨ph, st, k, here⟩, dry' rfl⟩
      · have quiet := h.quiet i (Nat.pos_of_ne_zero h0)
        rw [here] at quiet
        exact quiet.elim

/-- **Waiting for room passes on to the worker behind**, up to the sink. -/
theorem Steady.choked_up (h : Steady net s) (waits : ∀ i < net.n, Waits s i) {i : Nat} (hi : i < net.n)
    (emits : ∃ ph f k, s.pc i = .calling ph (.emit f k)) (full : s.Choked (i + 1)) : AwaitsRoom net s := by
  induction hd : net.n - 1 - i generalizing i with
  | zero =>
    obtain rfl : i = net.sink := by unfold Net.sink; omega
    exact ⟨emits, by rw [← net.sink_succ]; exact full⟩
  | succ d ih =>
    have next : i + 1 < net.n := by omega
    have opened : ¬s.Ended (i + 1) := by simp [State.Ended, full.1]
    cases waits (i + 1) next with
    | @exited why here =>
      have known := h.sound.known (i + 1)
      rw [here] at known
      cases why with
      | eof => exact absurd (h.ending (i + 1) (Nat.succ_pos i) (by rw [here]; trivial)) opened
      | status e => exact absurd (h.all_ended waits known.2.1 _ next) opened
    | dry here pos dry =>
      have room := h.room (i + 1)
      have long := full.2
      rw [dry.1] at long
      exact absurd long (by simp; omega)
    | @choked ph f k here full' => exact ih next ⟨ph, f, k, here⟩ full' (by omega)
    | pulls here _ =>
      have quiet := h.quiet (i + 1) (Nat.succ_pos i)
      rw [here] at quiet
      exact quiet.elim

/-- Once every worker has returned, `wait` does. -/
theorem Steady.waited (h : Steady net s) (exited : ∀ i < net.n, ∃ why, s.pc i = .exited why) :
    wait s = some s.error := by
  have none : running net s = ∅ := by
    refine Finset.filter_eq_empty_iff.mpr fun i hi => ?_
    obtain ⟨why, here⟩ := exited i (Finset.mem_range.mp hi)
    rw [here]
    simp [Pc.isExited]
  have active := h.sound.active
  rw [none, Finset.card_empty] at active
  rw [wait, if_pos active]

theorem Steady.progress (h : Steady net s) :
    (∃ i < net.n, ∃ t, work net s i = some t) ∨ (∀ i < net.n, ∃ why, s.pc i = .exited why) ∨ AwaitsFrame s ∨
      AwaitsRoom net s := by
  by_cases going : ∃ i < net.n, ∃ t, work net s i = some t
  · exact .inl going
  have waits : ∀ i < net.n, Waits s i := by
    intro i hi
    refine waits_of_none (Option.eq_none_iff_forall_ne_some.mpr fun t step => going ⟨i, hi, t, step⟩)
  by_cases all : ∀ i < net.n, ∃ why, s.pc i = .exited why
  · exact .inr (.inl all)
  obtain ⟨i, hi, stays⟩ : ∃ i < net.n, ¬∃ why, s.pc i = .exited why := by
    simpa only [not_forall, exists_prop] using all
  refine .inr (.inr ?_)
  cases waits i hi with
  | @exited why here => exact absurd ⟨why, here⟩ stays
  | dry here pos dry => exact .inl (h.dry_down waits hi pos dry)
  | @choked ph f k here full => exact .inr (h.choked_up waits hi ⟨ph, f, k, here⟩ full)
  | @pulls ph st k here dry =>
    by_cases h0 : i = 0
    · subst h0
      exact .inl ⟨⟨ph, st, k, here⟩, dry rfl⟩
    · have quiet := h.quiet i (Nat.pos_of_ne_zero h0)
      rw [here] at quiet
      exact quiet.elim

/-- A source that waits gets the frame the owner pushes. -/
theorem AwaitsFrame.push (h : AwaitsFrame s) (room : 0 < (s.queue 0).capacity) (f : α) :
    Executor.step net s (.push f) = some (s.accept 0 f) := by
  have accepts : ((s.queue 0).tryPush f).2 = .ok := by
    simp only [BoundedQueue.tryPush, h.dry.1, h.dry.2, List.length_nil]
    rw [if_neg (by omega)]
  rw [Executor.step, if_pos accepts]

/-- A sink that waits has a frame for the owner to pull. -/
theorem AwaitsRoom.pull (h : AwaitsRoom net s) (room : 0 < (s.queue net.n).capacity) :
    ∃ f rest, (s.queue net.n).items = f :: rest ∧ Executor.step net s .pull = some (s.take net.n f) := by
  have long := h.choked.2
  cases items : (s.queue net.n).items with
  | nil => simp [items] at long; omega
  | cons f rest => exact ⟨f, rest, rfl, by simp [Executor.step, items]⟩

end Stuck

end Rkvc.Executor
