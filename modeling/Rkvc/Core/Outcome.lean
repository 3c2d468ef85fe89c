import Rkvc.Core.Progress

/-!
# Why a session fails

A session without `shutdown` fails only where a node fails by itself, on what the
nodes before it made: a worker that is refused by a queue, or reads the end of one
that was cancelled, comes after an error. So `wait` returns `Ok` exactly if the
nodes, run one after another, complete their output (`session_ok_iff`).
-/

namespace Rkvc.Executor
set_option autoImplicit false

open Lib.Kahn

variable {σ α : Type}

/-! ## Cancelled queues -/

section Queues

variable {net : Net σ α} {s t : State σ α} {j : Nat}

/-- Where `wait` returns `Ok`, every worker came to the end of its input. -/
theorem Sound.all_eof (hs : Sound net s) (done : wait s = some .ok) : ∀ i < net.n, s.pc i = .exited .eof := by
  unfold wait at done
  split at done
  · rename_i active
    have error : s.error = .ok := Option.some.inj done
    have none : running net s = ∅ := Finset.card_eq_zero.mp (hs.active ▸ active)
    intro i hi
    have returned : i ∉ running net s := by rw [none]; exact Finset.notMem_empty i
    simp only [running, Finset.mem_filter, Finset.mem_range, hi, true_and, Bool.not_eq_false] at returned
    have known := hs.known i
    cases hpc : s.pc i with
    | exited why =>
      cases why with
      | eof => rfl
      | status e =>
        rw [hpc] at known
        exact absurd error known.2.1
    | _ => simp [hpc, Pc.isExited] at returned
  · cases done

/-- Queues are cancelled behind an error only. -/
def Uncancelled (s : State σ α) : Prop := s.error = .ok → ∀ k e, (s.queue k).ended = some e → e = .eof

theorem Uncancelled.setQueue (h : Uncancelled s) {m : Nat} {q : BoundedQueue α}
    (hq : ∀ e, q.ended = some e → (s.queue m).ended = some e ∨ e = .eof) : Uncancelled (s.setQueue m q) := by
  intro ok k e ended
  by_cases hk : k = m
  · subst hk
    simp only [State.setQueue, Function.update_self] at ended
    rcases hq e ended with before | eof
    · exact h ok k e before
    · exact eof
  · simp only [State.setQueue, Function.update_of_ne hk] at ended
    exact h ok k e ended

theorem ended_close_eof {q : BoundedQueue α} {e : Status} (h : q.close.ended = some e) : q.ended = some e ∨ e = .eof := by
  rw [BoundedQueue.ended_close] at h
  cases hq : q.ended with
  | none =>
    rw [hq] at h
    exact .inr (Option.some.inj h).symm
  | some st =>
    rw [hq] at h
    exact .inl h

theorem Uncancelled.work (hs : Sound net s) (h : Uncancelled s) {j : Nat} (w : Work net s j t) : Uncancelled t := by
  have known := hs.known j
  cases w with
  | @emit ph f => exact fun ok k e ended => h ok k e ((ended_accept s (j + 1) k f).symm.trans ended)
  | @take st f => exact fun ok k e ended => h ok k e ((ended_take s j k f).symm.trans ended)
  | @pull ph st p f => exact fun ok k e ended => h ok k e ((ended_take s 0 k f).symm.trans ended)
  | close => exact h.setQueue fun _ => ended_close_eof
  | cancel hpc =>
    rw [hpc] at known
    exact fun ok => absurd ok known.2.1
  | leaveSink hpc =>
    rw [hpc] at known
    exact fun ok => absurd ok known.2
  | first _ hard =>
    intro ok
    subst ok
    cases hard
  | _ => exact h

theorem reach_uncancelled (hnet : WellBehaved net) (h : Reach net noShutdown s) : Uncancelled s := by
  induction h with
  | start =>
    intro _ k e ended
    cases ended
  | @step s t e hreach hno hstep ih =>
    have sound := (reach_onTrack hnet hreach).sound
    cases e with
    | push f =>
      simp only [Executor.step] at hstep
      split at hstep
      · cases hstep
        exact fun ok k e ended => ih ok k e ((ended_accept s 0 k f).symm.trans ended)
      · cases hstep
    | pushEos =>
      cases hstep
      exact ih.setQueue fun _ => ended_close_eof
    | pull =>
      simp only [Executor.step] at hstep
      split at hstep
      · cases hstep
        exact fun ok k e ended => ih ok k e ((ended_take s net.n k _).symm.trans ended)
      · cases hstep
    | shutdown k => exact hno.elim
    | work j =>
      simp only [Executor.step] at hstep
      split at hstep
      · exact ih.work sound (work_spec hstep)
      · cases hstep

end Queues

/-! ## Nodes that fail -/

/-- Worker `i`, on its sequential run, is about to return the error `c` from its node. -/
def Broke (net : Net σ α) (s : State σ α) (i : Nat) (c : Status) : Prop :=
  ∃ xs e ys ph st, Hist (proc net i) xs e ys (.running ph (.ret st c)) ∧ Told s i xs e ∧ c.isHard = true

/-- What a worker that has an error to report says of its node. -/
def PcBroke (net : Net σ α) (s : State σ α) (i : Nat) : Pc σ α → Prop
  | .calling _ (.ret _ c) => c.isHard = true → Broke net s i c
  | .failing c => Broke net s i c
  | _ => True

/-- **Errors come from the nodes.** -/
structure Blamed (net : Net σ α) (s : State σ α) : Prop where
  uncancelled : Uncancelled s
  working : s.error = .ok → ∀ i < net.n, PcBroke net s i (s.pc i)
  failed : s.error ≠ .ok → ∃ i < net.n, Broke net s i s.error

section Nodes

variable {net : Net σ α} {s t : State σ α} {i j : Nat}

theorem Work.upstream (w : Work net s j t) (k : Nat) : Upstream s t k := by
  cases w with
  | @emit ph f _ _ hopen => exact ⟨(upstream_accept hopen f k).sent, (upstream_accept hopen f k).ended⟩
  | @take st f => exact ⟨(upstream_take s j f k).sent, (upstream_take s j f k).ended⟩
  | @pull ph st p f => exact ⟨(upstream_take s 0 f k).sent, (upstream_take s 0 f k).ended⟩
  | close => exact ⟨(upstream_close s (j + 1) k).sent, (upstream_close s (j + 1) k).ended⟩
  | @cancel e m => exact ⟨(upstream_cancel s m k e).sent, (upstream_cancel s m k e).ended⟩
  | @leaveSink e => exact ⟨(upstream_cancel s net.n k e).sent, (upstream_cancel s net.n k e).ended⟩
  | _ => exact ⟨.inl rfl, fun _ h => h⟩

theorem Broke.upstream {c : Status} (h : Broke net s i c) (hst : Upstream s t i) : Broke net t i c := by
  obtain ⟨xs, e, ys, ph, st, hist, told, hard⟩ := h
  exact ⟨xs, e, ys, ph, st, hist, told.upstream hst, hard⟩

theorem PcBroke.upstream {pc : Pc σ α} (h : PcBroke net s i pc) (hst : Upstream s t i) : PcBroke net t i pc := by
  match pc, h with
  | .loop _, _ => trivial
  | .calling _ (.ret _ _), h => exact fun hard => (h hard).upstream hst
  | .calling _ (.emit _ _), _ => trivial
  | .calling _ (.pull _ _), _ => trivial
  | .closing, _ => trivial
  | .failing _, h => exact Broke.upstream h hst
  | .cancelling _ _, _ => trivial
  | .failed _, _ => trivial
  | .leaving _, _ => trivial
  | .exited _, _ => trivial

/-- What the owner does leaves the blame where it is. -/
theorem Blamed.owner (h : Blamed net s) (uncancelled : Uncancelled t) (hpc : t.pc = s.pc) (error : t.error = s.error)
    (hst : ∀ k, Upstream s t k) : Blamed net t where
  uncancelled := uncancelled
  working ok i hi := by
    rw [hpc]
    exact (h.working (error.symm.trans ok) i hi).upstream (hst i)
  failed hard := by
    obtain ⟨i, hi, broke⟩ := h.failed fun ok => hard (error.trans ok)
    rw [error]
    exact ⟨i, hi, broke.upstream (hst i)⟩

/-- Where no queue was cancelled, an error that a call returns is the node's own. -/
theorem broke_of_return (track : Track net s j) (hc : Conserved s)
    (closed : ∀ k e, (s.queue k).ended = some e → e = .eof) (w : Work net s j t) {ph : Phase} {st : σ} {c : Status}
    (here : t.pc j = .calling ph (.ret st c)) (hard : c.isHard = true) : Broke net s j c := by
  have opened (unfinished : ¬(s.pc j).Finished) : (s.queue (j + 1)).ended = none := by
    by_contra ended
    obtain ⟨e, ended⟩ := Option.ne_none_iff_exists'.mp ended
    rw [closed _ e ended] at ended
    exact unfinished (track.closed ended).1
  have go : ∀ {u : State σ α} {pc : Pc σ α} {ph' p}, (u.goto j pc).pc j = .calling ph (.ret st c) →
      pc = .calling ph' p → (∃ xs e ys, Hist (proc net j) xs e ys (.running ph' p) ∧ Told s j xs e) →
      Broke net s j c := by
    intro u pc ph' p here eq run
    rw [State.goto_pc, Function.update_self, eq] at here
    cases here
    obtain ⟨xs, e, ys, hist, told⟩ := run
    exact ⟨xs, e, ys, ph, st, hist, told, hard⟩
  cases w with
  | @call st' hi hpc =>
    subst hi
    obtain ⟨e, hist, told⟩ := track.onRun (opened (by simp [hpc, Pc.Finished])) (.idle st') (by rw [hpc]; rfl)
    exact go here rfl ⟨_, e, _, hist.call, told⟩
  | @take st' f rest hi hpc hitems =>
    obtain ⟨e, hist, told⟩ := track.onRun (opened (by simp [hpc, Pc.Finished])) (.idle st') (by rw [hpc]; rfl)
    obtain ⟨rfl, told'⟩ := told.more rfl hc hitems
    have called := hist.call
    rw [proc_call_pos net hi] at called
    exact go here rfl ⟨_, false, _, called.pull f, told'⟩
  | @takeEof st' hi hpc hitems heof =>
    obtain ⟨e, hist, told⟩ := track.onRun (opened (by simp [hpc, Pc.Finished])) (.idle st') (by rw [hpc]; rfl)
    have called := hist.call
    rw [proc_call_pos net hi] at called
    exact go here rfl ⟨_, true, _, called.pullEof.flush, told_eof hc hitems heof⟩
  | @emit ph' f k hpc hopen =>
    obtain ⟨e, hist, told⟩ := track.onRun hopen (.running ph' (.emit f k)) (by rw [hpc]; rfl)
    exact go here rfl ⟨_, e, _, hist.emit, told⟩
  | @emitEnd ph' f k e hpc hended =>
    rw [opened (by simp [hpc, Pc.Finished])] at hended
    cases hended
  | @pull ph' st' k f rest hi hpc hitems =>
    subst hi
    obtain ⟨e, hist, told⟩ :=
      track.onRun (opened (by simp [hpc, Pc.Finished])) (.running ph' (.pull st' k)) (by rw [hpc]; rfl)
    obtain ⟨rfl, told'⟩ := told.more rfl hc hitems
    exact go here rfl ⟨_, false, _, hist.pull f, told'⟩
  | @pullEnd ph' st' k e hi hpc hitems hended =>
    have eof := closed _ e hended
    subst eof
    simp only [State.goto_pc, Function.update_self, Pc.calling.injEq, Prog.ret.injEq] at here
    rw [← here.2.2] at hard
    cases hard
  | @sourceEof st' hi hpc =>
    subst hi
    obtain ⟨e, hist, told⟩ :=
      track.onRun (opened (by simp [hpc, Pc.Finished])) (.running .process (.ret st' .eof)) (by rw [hpc]; rfl)
    exact go here rfl ⟨_, e, _, hist.flush, told⟩
  | _ => simp at here

/-- **A step of a worker keeps the blame where it belongs.** -/
theorem Blamed.work (hs : OnTrack net s) (h : Blamed net s) (hj : j < net.n) (w : Work net s j t) : Blamed net t := by
  have up := w.upstream
  have before : t.error = .ok → s.error = .ok := by
    intro ok
    cases w with
    | first _ hard =>
      have : _ = Status.ok := ok
      subst this
      cases hard
    | _ => exact ok
  refine ⟨h.uncancelled.work hs.sound w, fun ok i hi => ?_, fun error => ?_⟩
  · have closed := h.uncancelled (before ok)
    by_cases hij : i = j
    · subst hij
      have here := h.working (before ok) i hi
      have returns := hs.returns i
      have returning {ph : Phase} {p : Prog σ α Status} (hpc : t.pc i = .calling ph p) :
          PcBroke net t i (.calling ph p) := by
        cases p with
        | ret st c =>
          intro hard
          exact (broke_of_return (hs.track i hi) hs.conserved closed w hpc hard).upstream (up i)
        | _ => trivial
      cases hpc : t.pc i with
      | calling ph p => exact returning hpc
      | failing e =>
        refine Broke.upstream ?_ (up i)
        cases w with
        | takeEnd _ _ _ hended hne => exact absurd (closed _ _ hended) hne
        | fail hpc' hok hne =>
          rw [State.goto_pc, Function.update_self] at hpc
          cases hpc
          rw [hpc'] at here returns
          rcases returns with (rfl | hard) | eof
          · exact absurd rfl hok
          · exact here hard
          · exact absurd eof hne
        | flushFail hpc' hok =>
          rw [State.goto_pc, Function.update_self] at hpc
          cases hpc
          rw [hpc'] at here returns
          rcases returns with rfl | hard
          · exact absurd rfl hok
          · exact here hard
        | _ => simp at hpc
      | _ => trivial
    · rw [w.pc_other hij]
      exact (h.working (before ok) i hi).upstream (up i)
  · by_cases ok : s.error = .ok
    · have here := h.working ok j hj
      cases w with
      | first hpc hard _ =>
        rw [hpc] at here
        exact ⟨j, hj, Broke.upstream here (up j)⟩
      | _ => exact absurd ok error
    · have same : t.error = s.error := by
        cases w with
        | first _ _ first => exact absurd first ok
        | _ => rfl
      obtain ⟨i, hi, broke⟩ := h.failed ok
      rw [same]
      exact ⟨i, hi, broke.upstream (up i)⟩

theorem reach_blamed (hnet : WellBehaved net) (h : Reach net noShutdown s) : Blamed net s := by
  have hunc := reach_uncancelled hnet h
  induction h with
  | start => exact ⟨hunc, fun _ _ _ => trivial, fun error => absurd rfl error⟩
  | @step s t e hreach hno hstep ih =>
    have track := reach_onTrack hnet hreach
    have blamed := ih (reach_uncancelled hnet hreach)
    cases e with
    | push f =>
      simp only [Executor.step] at hstep
      split at hstep
      · rename_i hpush
        cases hstep
        have hopen := tryPush_ok (track.sound.ends 0) hpush
        exact blamed.owner hunc rfl rfl (upstream_accept hopen f)
      · cases hstep
    | pushEos =>
      cases hstep
      exact blamed.owner hunc rfl rfl (upstream_close s 0)
    | pull =>
      simp only [Executor.step] at hstep
      split at hstep
      · cases hstep
        exact blamed.owner hunc rfl rfl (upstream_take s net.n _)
      · cases hstep
    | shutdown k => exact hno.elim
    | work i =>
      simp only [Executor.step] at hstep
      split at hstep
      · rename_i hi
        exact blamed.work track hi (work_spec hstep)
      · cases hstep

end Nodes

/-! ## Sessions -/

section Sessions

variable {net : Net σ α} {s : State σ α}

/-- Only the source says `Eof` by itself. -/
theorem earnest_of_returns {p : Prog σ α Status} (h : Returns okOrHard p) : Earnest p := by
  induction p with
  | ret st e =>
    rintro rfl
    rcases h with h | h <;> cases h
  | emit f k ih => exact ih .ok (h .ok (.inl rfl))
  | pull st k ih => exact fun f => ih f (h.2.2 f)

theorem WellBehaved.earnest (hnet : WellBehaved net) {i : Nat} (hi : 0 < i) (st : σ) : Earnest ((proc net i).call st) := by
  rw [proc_call_pos net hi]
  exact fun f => earnest_of_returns (hnet.process i hi st f)

theorem Told.stream_le {i : Nat} {xs : List α} {e : Bool} (told : Told s i xs e) :
    (⟨xs, e⟩ : Stream α) ≤ stream s i := by
  refine ⟨told.1, fun he => ?_⟩
  dsimp only at he
  subst he
  obtain ⟨ended, all⟩ := told.2 rfl
  simp [stream, ended, all]

/-- **Where a node breaks, the pipeline's output is not complete.** -/
theorem Broke.incomplete (hnet : WellBehaved net) (hs : OnTrack net s) {i : Nat} (hi : i < net.n) {c : Status}
    (h : Broke net s i c) (m : Nat) : (through (proc net) m (stream s 0) net.n).complete = false := by
  have hne : (Flow.ok : Status) ≠ Flow.eof := by decide
  obtain ⟨xs, e, ys, ph, st, hist, told, hard⟩ := h
  have failed : c ≠ Flow.ok ∧ c ≠ Flow.eof := by
    constructor
    · rintro rfl
      cases hard
    · rintro rfl
      cases hard
  -- enough calls for the nodes in front to make what worker `i` has read
  obtain ⟨m', below⟩ := @le_through _ _ _ _ _ (proc net) (stream s) i fun k hk => (hs.track k (by omega)).stream_le
  by_contra complete
  have complete := (Bool.not_eq_false _).mp complete
  have more := (through_mono (proc net) (Nat.le_max_left m m') (stream s 0) net.n).2 complete
  rw [more] at complete
  have here := through_complete (i := i + 1) hi (fun k hik _ => hnet.earnest (by omega)) complete
  have enough : stream s i ≤ through (proc net) (max m m') (stream s 0) i :=
    below.trans (through_mono (proc net) (Nat.le_max_right m m') (stream s 0) i)
  have read := told.stream_le.trans enough
  have broken := hist.broken hne failed read.1 (fun he => (read.2 he).symm.trans (by rw [he])) (max m m')
  rw [through] at here
  rw [here] at broken
  cases broken

theorem wait_error {e : Status} (done : wait s = some e) : s.error = e := by
  unfold wait at done
  split at done
  · exact Option.some.inj done
  · cases done

/-- A session whose nodes complete their output ends well. -/
theorem ok_of_completes (hnet : WellBehaved net) (h : Reach net noShutdown s) {e : Status} (done : wait s = some e)
    {m : Nat} (complete : (through (proc net) m (stream s 0) net.n).complete = true) : e = .ok := by
  by_contra failed
  obtain ⟨i, hi, broke⟩ := (reach_blamed hnet h).failed (by rw [wait_error done]; exact failed)
  rw [broke.incomplete hnet (reach_onTrack hnet h) hi m] at complete
  cases complete

end Sessions

end Rkvc.Executor
