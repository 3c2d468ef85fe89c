import Rkvc.Core.WorkerExit

/-!
# What the pipeline delivers

Each worker is a sequential process between two queues (`proc`): it reads what
its queue has delivered and writes what the next queue accepts, until a push is
refused, and from then on it writes nothing. So whatever the interleaving, what
a queue has accepted begins what the process in front of it makes of what *it*
has been sent (`Track`), and what the session's output queue has accepted begins
the output of the sequential composition (`pipeline_deterministic`).
-/

namespace Rkvc.Executor
set_option autoImplicit false

open Lib.Kahn

variable {σ α : Type}

/-- A node as a sequential process: the source is called, the others are called
with the next frame. -/
def proc (net : Net σ α) (i : Nat) : Proc σ α Status where
  init := (net.node i).init
  call st :=
    if i = 0 then (net.node i).process st none
    else .pull st fun f => (net.node i).process st (some f)
  flush := (net.node i).flush

theorem proc_call_pos (net : Net σ α) {i : Nat} (hi : 0 < i) (st : σ) :
    (proc net i).call st = .pull st fun f => (net.node i).process st (some f) :=
  if_neg (Nat.pos_iff_ne_zero.mp hi)

/-- What a queue has been sent, complete if it was closed. -/
def stream (s : State σ α) (k : Nat) : Stream α where
  items := s.sent k
  complete := (s.queue k).ended = some .eof

/-! ## Nodes that report failures as failures -/

/-- Whatever becomes of its pushes, a call returns a status that satisfies `P`. -/
def Returns (P : Status → Prop) : Prog σ α Status → Prop
  | .ret _ e => P e
  | .emit _ k => ∀ e, e = .ok ∨ e.isHard = true → Returns P (k e)
  | .pull _ k => P .eof ∧ (∀ e, e.isHard = true → P e) ∧ ∀ f, Returns P (k f)

def okOrHard (e : Status) : Prop := e = .ok ∨ e.isHard = true

/-- `process` and `flush` return `Ok` or an error; the source's `process` ends
with `Eof`. -/
structure WellBehaved (net : Net σ α) : Prop where
  source : ∀ st, Returns (fun e => okOrHard e ∨ e = .eof) ((net.node 0).process st none)
  process : ∀ i, 0 < i → ∀ st f, Returns okOrHard ((net.node i).process st (some f))
  flush : ∀ i st, Returns okOrHard ((net.node i).flush st)

/-- The call a worker is in returns well. -/
def CallReturns (i : Nat) : Pc σ α → Prop
  | .calling .process p => Returns (fun e => okOrHard e ∨ (i = 0 ∧ e = .eof)) p
  | .calling .flush p => Returns okOrHard p
  | _ => True

theorem Returns.imp {P Q : Status → Prop} (hPQ : ∀ e, P e → Q e) {p : Prog σ α Status} (h : Returns P p) :
    Returns Q p := by
  induction p with
  | ret st e => exact hPQ e h
  | emit f k ih => exact fun e he => ih e (h e he)
  | pull st k ih => exact ⟨hPQ _ h.1, fun e he => hPQ e (h.2.1 e he), fun f => ih f (h.2.2 f)⟩

/-- A worker whose calls return well is honest. -/
theorem CallReturns.honest {i : Nat} {pc : Pc σ α} (h : CallReturns i pc) : returnsHonestly i pc = true := by
  unfold returnsHonestly
  split
  · rcases h with (h | h) | h <;> simp [h]
  · rcases h with h | h <;> simp [h]
  · rfl

/-! ## One worker and its two queues -/

/-- The place of a worker that is on its way; none once it has failed or a hard
return is about to make it fail. -/
def placeOf : Pc σ α → Option (Place σ α Status)
  | .loop st => some (.idle st)
  | .calling ph p =>
    match p with
    | .ret _ e => if e.isHard then none else some (.running ph p)
    | _ => some (.running ph p)
  | .closing => some .done
  | _ => none

/-- What worker `i` has read: a part of what its queue was sent, and all of it
if it has been told that there is no more. -/
def Told (s : State σ α) (i : Nat) (xs : List α) (e : Bool) : Prop :=
  xs <+: s.sent i ∧ (e = true → (s.queue i).ended = some .eof ∧ xs = s.sent i)

/-- The worker has returned at the end of its input. -/
def Pc.Finished : Pc σ α → Prop
  | .leaving .eof | .exited .eof => True
  | _ => False

theorem Pc.Finished.eq {pc : Pc σ α} (h : pc.Finished) : pc = .leaving .eof ∨ pc = .exited .eof := by
  unfold Pc.Finished at h
  split at h
  · exact .inl rfl
  · exact .inr rfl
  · exact h.elim

/-- The worker has read the end of its input. -/
def Pc.Ending : Pc σ α → Prop
  | .calling .flush _ | .closing | .leaving .eof | .exited .eof => True
  | _ => False

/-- **Worker `i` is on its sequential run**, or has stopped writing. -/
structure Track (net : Net σ α) (s : State σ α) (i : Nat) : Prop where
  /-- While the queue it writes is open, the worker is on the run itself. -/
  onRun : (s.queue (i + 1)).ended = none → ∀ c, placeOf (s.pc i) = some c →
    ∃ e, Hist (proc net i) (s.taken i) e (s.sent (i + 1)) c ∧ Told s i (s.taken i) e
  /-- What it has written was written by the run at some place. -/
  wrote : ∃ xs e c, Hist (proc net i) xs e (s.sent (i + 1)) c ∧ Told s i xs e
  /-- It closes its queue at the end of the run. -/
  closed : (s.queue (i + 1)).ended = some .eof → (s.pc i).Finished ∧
    ∃ xs e, Hist (proc net i) xs e (s.sent (i + 1)) .done ∧ Told s i xs e
  /-- It flushes at the end of its input. -/
  ending : 0 < i → (s.pc i).Ending → (s.queue i).ended = some .eof

/-- Nothing happened to a queue but that it was sent more before it ended, or that it ended. -/
structure Upstream (s t : State σ α) (k : Nat) : Prop where
  sent : t.sent k = s.sent k ∨ (s.queue k).ended = none ∧ s.sent k <+: t.sent k
  ended : ∀ e, (s.queue k).ended = some e → (t.queue k).ended = some e

/-- Nothing happened to a queue but that frames were taken or that it was cancelled. -/
structure Downstream (s t : State σ α) (k : Nat) : Prop where
  sent : t.sent k = s.sent k
  ended : ∀ e, (s.queue k).ended = some e → (t.queue k).ended = some e
  closed : (t.queue k).ended = some .eof → (s.queue k).ended = some .eof

theorem Told.upstream {s t : State σ α} {i : Nat} {xs : List α} {e : Bool} (h : Told s i xs e)
    (hst : Upstream s t i) : Told t i xs e := by
  rcases hst.sent with hsent | ⟨hopen, hsent⟩
  · exact ⟨hsent ▸ h.1, fun he => ⟨hst.ended _ (h.2 he).1, hsent ▸ (h.2 he).2⟩⟩
  · refine ⟨h.1.trans hsent, fun he => ?_⟩
    have := (h.2 he).1
    rw [hopen] at this
    cases this

theorem Downstream.open {s t : State σ α} {k : Nat} (h : Downstream s t k) (ht : (t.queue k).ended = none) :
    (s.queue k).ended = none := by
  cases hs : (s.queue k).ended with
  | none => rfl
  | some e => rw [h.ended e hs] at ht; cases ht

/-- What the others do leaves a worker on its run. -/
theorem Track.others {net : Net σ α} {s t : State σ α} {i : Nat} (h : Track net s i) (hpc : t.pc i = s.pc i)
    (htaken : t.taken i = s.taken i) (hup : Upstream s t i) (hdown : Downstream s t (i + 1)) :
    Track net t i where
  onRun hopen c hc := by
    obtain ⟨e, hist, told⟩ := h.onRun (hdown.open hopen) c (hpc ▸ hc)
    exact ⟨e, by rw [htaken, hdown.sent]; exact hist, by rw [htaken]; exact told.upstream hup⟩
  wrote := by
    obtain ⟨xs, e, c, hist, told⟩ := h.wrote
    exact ⟨xs, e, c, by rw [hdown.sent]; exact hist, told.upstream hup⟩
  closed heof := by
    obtain ⟨hfin, xs, e, hist, told⟩ := h.closed (hdown.closed heof)
    exact ⟨hpc ▸ hfin, xs, e, by rw [hdown.sent]; exact hist, told.upstream hup⟩
  ending hi hend := hup.ended _ (h.ending hi (hpc ▸ hend))

/-- So does another worker that goes on. -/
theorem Track.others_goto {net : Net σ α} {s t : State σ α} {i j : Nat} {pc : Pc σ α} (h : Track net s i)
    (hij : i ≠ j) (hpc : t.pc = s.pc) (htaken : t.taken i = s.taken i) (hup : Upstream s t i)
    (hdown : Downstream s t (i + 1)) : Track net (t.goto j pc) i :=
  h.others (by simp [hij, hpc]) htaken ⟨hup.sent, hup.ended⟩ ⟨hdown.sent, hdown.ended, hdown.closed⟩

/-! ## What the steps do to the queues -/

/-- Every frame a queue has accepted was delivered or is in it. -/
def Conserved (s : State σ α) : Prop := ∀ k, s.sent k = s.taken k ++ (s.queue k).items

theorem upstream_refl (s : State σ α) (k : Nat) : Upstream s s k := ⟨.inl rfl, fun _ h => h⟩

theorem downstream_refl (s : State σ α) (k : Nat) : Downstream s s k := ⟨rfl, fun _ h => h, id⟩

theorem upstream_accept {s : State σ α} {m : Nat} (hopen : (s.queue m).ended = none) (f : α) (k : Nat) :
    Upstream s (s.accept m f) k where
  sent := by
    by_cases hk : k = m
    · subst hk; exact .inr ⟨hopen, by simp [State.accept]⟩
    · exact .inl (by simp [State.accept, hk])
  ended e he := by rw [ended_accept]; exact he

theorem downstream_accept {s : State σ α} {m k : Nat} (f : α) (hk : k ≠ m) :
    Downstream s (s.accept m f) k where
  sent := by simp [State.accept, hk]
  ended e he := by rw [ended_accept]; exact he
  closed he := by rw [ended_accept] at he; exact he

theorem upstream_take (s : State σ α) (m : Nat) (f : α) (k : Nat) : Upstream s (s.take m f) k where
  sent := .inl rfl
  ended e he := by rw [ended_take]; exact he

theorem downstream_take (s : State σ α) (m : Nat) (f : α) (k : Nat) : Downstream s (s.take m f) k where
  sent := rfl
  ended e he := by rw [ended_take]; exact he
  closed he := by rw [ended_take] at he; exact he

theorem taken_take {s : State σ α} {m k : Nat} (f : α) (hk : k ≠ m) : (s.take m f).taken k = s.taken k := by
  simp [State.take, hk]

/-- Ending a queue keeps the ends there are. -/
theorem ended_setQueue {s : State σ α} {m k : Nat} {q : BoundedQueue α}
    (hq : ∀ e, (s.queue m).ended = some e → q.ended = some e) {e : Status} (he : (s.queue k).ended = some e) :
    ((s.setQueue m q).queue k).ended = some e := by
  by_cases hk : k = m
  · subst hk; simpa [State.setQueue] using hq e he
  · simpa [State.setQueue, hk] using he

theorem upstream_close (s : State σ α) (m k : Nat) : Upstream s (s.setQueue m (s.queue m).close) k where
  sent := .inl rfl
  ended _ he := ended_setQueue (fun e h => by simp [h]) he

theorem downstream_close (s : State σ α) {m k : Nat} (hk : k ≠ m) :
    Downstream s (s.setQueue m (s.queue m).close) k where
  sent := rfl
  ended _ he := ended_setQueue (fun e h => by simp [h]) he
  closed he := by simpa [State.setQueue, hk] using he

theorem upstream_cancel (s : State σ α) (m k : Nat) (c : Status) :
    Upstream s (s.setQueue m ((s.queue m).cancel c)) k where
  sent := .inl rfl
  ended _ he := ended_setQueue (fun _ h => BoundedQueue.ended_cancel_of_some h) he

theorem downstream_cancel (s : State σ α) (m k : Nat) {c : Status} (hc : c.isHard = true) :
    Downstream s (s.setQueue m ((s.queue m).cancel c)) k where
  sent := rfl
  ended _ he := ended_setQueue (fun _ h => BoundedQueue.ended_cancel_of_some h) he
  closed he := by
    by_cases hk : k = m
    · subst hk
      simp only [State.setQueue, Function.update_self, BoundedQueue.ended_cancel hc, Option.some.injEq] at he
      cases hs : (s.queue k).ended with
      | none => rw [hs] at he; rw [Option.getD_none] at he; rw [he] at hc; cases hc
      | some e => rw [hs] at he; exact congrArg some he
    · simpa [State.setQueue, hk] using he

theorem Conserved.accept {s : State σ α} (h : Conserved s) (m : Nat) (f : α) : Conserved (s.accept m f) := by
  intro k
  by_cases hk : k = m
  · subst hk; simp [State.accept, h k]
  · simp [State.accept, hk, h k]

theorem Conserved.take {s : State σ α} (h : Conserved s) {m : Nat} {f : α} {rest : List α}
    (hitems : (s.queue m).items = f :: rest) : Conserved (s.take m f) := by
  intro k
  by_cases hk : k = m
  · subst hk; simp [State.take, h k, hitems]
  · simp [State.take, hk, h k]

theorem Conserved.setQueue {s : State σ α} (h : Conserved s) {m : Nat} {q : BoundedQueue α}
    (hq : q.items = (s.queue m).items) : Conserved (s.setQueue m q) := by
  intro k
  by_cases hk : k = m
  · subst hk; simp [State.setQueue, h k, hq]
  · simp [State.setQueue, hk, h k]

/-! ## Steps of the workers -/

section Worker

variable {net : Net σ α} {s t : State σ α} {i j : Nat}

theorem Work.conserved (hs : Conserved s) (h : Work net s j t) : Conserved t := by
  cases h with
  | take _ _ hitems => exact Conserved.take hs hitems
  | pull _ _ hitems => exact Conserved.take hs hitems
  | emit => exact hs.accept _ _
  | close => exact hs.setQueue rfl
  | cancel => exact hs.setQueue (BoundedQueue.items_cancel _ _)
  | leaveSink => exact hs.setQueue (BoundedQueue.items_cancel _ _)
  | _ => exact hs

/-- The status a worker is cancelling with, or has failed with, is an error. -/
theorem Sound.hard (hs : Sound net s) {e : Status} {k : Nat}
    (h : s.pc j = .cancelling e k ∨ s.pc j = .failed e) : e.isHard = true := by
  have known := hs.known j
  rcases h with h | h <;> rw [h] at known <;> exact known.1

/-- **A step of one worker leaves every other on its run.** -/
theorem Track.other_work (h : Track net s i) (hs : Sound net s) (hij : i ≠ j)
    (w : Work net s j t) : Track net t i := by
  have hij' : i + 1 ≠ j + 1 := by omega
  cases w with
  | take => exact h.others_goto hij rfl (taken_take _ hij) (upstream_take s _ _ _) (downstream_take s _ _ _)
  | pull hj =>
    exact h.others_goto hij rfl (taken_take _ (hj ▸ hij)) (upstream_take s _ _ _) (downstream_take s _ _ _)
  | emit _ hopen => exact h.others_goto hij rfl rfl (upstream_accept hopen _ _) (downstream_accept _ hij')
  | close => exact h.others_goto hij rfl rfl (upstream_close s _ _) (downstream_close s hij')
  | cancel hpc =>
    exact h.others_goto hij rfl rfl (upstream_cancel s _ _ _) (downstream_cancel s _ _ (hs.hard (.inl hpc)))
  | leaveSink hpc =>
    exact h.others_goto hij rfl rfl (upstream_cancel s _ _ _) (downstream_cancel s _ _ (hs.hard (k := 0) (.inr hpc)))
  | first => exact h.others_goto hij rfl rfl ⟨.inl rfl, fun _ h => h⟩ ⟨rfl, fun _ h => h, id⟩
  | exit => exact h.others_goto hij rfl rfl ⟨.inl rfl, fun _ h => h⟩ ⟨rfl, fun _ h => h, id⟩
  | _ => exact h.others_goto hij rfl rfl (upstream_refl s _) (downstream_refl s _)

theorem placeOf_calling {ph : Phase} {p : Prog σ α Status} {c : Place σ α Status}
    (h : placeOf (.calling ph p) = some c) : c = .running ph p := by
  cases p with
  | ret st e =>
    simp only [placeOf] at h
    split at h
    · cases h
    · exact (Option.some.inj h).symm
  | emit f k => exact (Option.some.inj h).symm
  | pull st k => exact (Option.some.inj h).symm

/-- A step of a worker that leaves the queue it writes as it is, or cancels it. -/
theorem Track.goOn {u : State σ α} {pc : Pc σ α} (h : Track net s i) (hfin : ¬(s.pc i).Finished)
    (hup : Upstream s u i) (hdown : Downstream s u (i + 1))
    (hrun : (s.queue (i + 1)).ended = none → ∀ c, placeOf pc = some c →
      ∃ e, Hist (proc net i) (u.taken i) e (s.sent (i + 1)) c ∧ Told s i (u.taken i) e)
    (hend : 0 < i → pc.Ending → (s.queue i).ended = some .eof) : Track net (u.goto i pc) i where
  onRun hopen c hc := by
    rw [State.goto_pc, Function.update_self] at hc
    obtain ⟨e, hist, told⟩ := hrun (hdown.open hopen) c hc
    exact ⟨e, by rw [State.goto_sent, hdown.sent]; exact hist,
      Told.upstream (t := u.goto i pc) told ⟨hup.sent, hup.ended⟩⟩
  wrote := by
    obtain ⟨xs, e, c, hist, told⟩ := h.wrote
    exact ⟨xs, e, c, by rw [State.goto_sent, hdown.sent]; exact hist,
      Told.upstream (t := u.goto i pc) told ⟨hup.sent, hup.ended⟩⟩
  closed heof := absurd (h.closed (hdown.closed heof)).1 hfin
  ending hi hpc := by
    rw [State.goto_pc, Function.update_self] at hpc
    exact hup.ended _ (hend hi hpc)

/-- A step of a worker that is past its calls. -/
theorem Track.goOut {u : State σ α} {pc : Pc σ α} (h : Track net s i) (hfin : ¬(s.pc i).Finished)
    (hup : Upstream s u i) (hdown : Downstream s u (i + 1)) (hout : placeOf pc = none) (hend : ¬pc.Ending) :
    Track net (u.goto i pc) i := by
  refine h.goOn hfin hup hdown (fun _ c hplace => ?_) fun _ h => absurd h hend
  rw [hout] at hplace
  cases hplace

/-- While frames are left, a worker has not been told that there are none. -/
theorem Told.more {xs : List α} {e : Bool} {f : α} {rest : List α} (h : Told s i xs e)
    (hxs : xs = s.taken i) (hs : Conserved s) (hitems : (s.queue i).items = f :: rest) :
    e = false ∧ Told s i (xs ++ [f]) false := by
  have hsent : s.sent i = xs ++ f :: rest := by rw [hs i, hitems, hxs]
  refine ⟨?_, ⟨rest, by simp [hsent]⟩, nofun⟩
  cases e with
  | false => rfl
  | true =>
    have := (h.2 rfl).2
    rw [hsent] at this
    simp at this

/-- Once its queue is closed and empty, it may be told. -/
theorem told_eof (hs : Conserved s) (hitems : (s.queue i).items = [])
    (heof : (s.queue i).ended = some .eof) : Told s i (s.taken i) true := by
  have hsent : s.sent i = s.taken i := by rw [hs i, hitems, List.append_nil]
  exact ⟨hsent ▸ List.prefix_rfl, fun _ => ⟨heof, hsent.symm⟩⟩

/-- **A step of a worker keeps it on its run.** Every step that reads, writes or
goes on is a step of the run; after a failed push or a failure there is nothing
left to write. -/
theorem Track.own_work (h : Track net s i) (hs : Sound net s) (hc : Conserved s) (w : Work net s i t) :
    Track net t i := by
  cases w with
  | @call st hi hpc =>
    refine h.goOn (by simp [hpc, Pc.Finished]) (upstream_refl s _) (downstream_refl s _) ?_
      fun hi' => absurd hi' (by omega)
    intro hopen c hplace
    obtain rfl := placeOf_calling hplace
    obtain ⟨e, hist, told⟩ := h.onRun hopen (.idle st) (by rw [hpc]; rfl)
    subst hi
    exact ⟨e, hist.call, told⟩
  | @take st f rest hi hpc hitems =>
    refine h.goOn (by simp [hpc, Pc.Finished]) (upstream_take s _ _ _) (downstream_take s _ _ _) ?_
      fun _ hend => absurd hend (by simp [Pc.Ending])
    intro hopen c hplace
    obtain rfl := placeOf_calling hplace
    obtain ⟨e, hist, told⟩ := h.onRun hopen (.idle st) (by rw [hpc]; rfl)
    obtain ⟨rfl, told'⟩ := told.more rfl hc hitems
    have called := hist.call
    rw [proc_call_pos net hi] at called
    have taken : (s.take i f).taken i = s.taken i ++ [f] := by simp [State.take]
    rw [taken]
    exact ⟨false, called.pull f, told'⟩
  | @takeEof st hi hpc hitems heof =>
    refine h.goOn (by simp [hpc, Pc.Finished]) (upstream_refl s _) (downstream_refl s _) ?_ fun _ _ => heof
    intro hopen c hplace
    obtain rfl := placeOf_calling hplace
    obtain ⟨e, hist, told⟩ := h.onRun hopen (.idle st) (by rw [hpc]; rfl)
    have called := hist.call
    rw [proc_call_pos net hi] at called
    exact ⟨true, called.pullEof.flush, told_eof hc hitems heof⟩
  | takeEnd _ hpc =>
    exact h.goOut (by simp [hpc, Pc.Finished]) (upstream_refl s _) (downstream_refl s _) rfl (by simp [Pc.Ending])
  | @emit ph f k hpc hopen room =>
    obtain ⟨e, hist, told⟩ := h.onRun hopen (.running ph (.emit f k)) (by rw [hpc]; rfl)
    have sent : (s.accept (i + 1) f).sent (i + 1) = s.sent (i + 1) ++ [f] := by simp [State.accept]
    have told' : Told ((s.accept (i + 1) f).goto i (.calling ph (k .ok))) i (s.taken i) e :=
      told.upstream ⟨(upstream_accept hopen f i).sent, (upstream_accept hopen f i).ended⟩
    have emitted : Hist (proc net i) (s.taken i) e ((s.accept (i + 1) f).sent (i + 1)) (.running ph (k .ok)) := by
      rw [sent]
      exact hist.emit
    refine ⟨fun _ c hplace => ?_, ⟨_, e, _, emitted, told'⟩, fun heof => ?_, fun hi hend => ?_⟩
    · rw [State.goto_pc, Function.update_self] at hplace
      obtain rfl := placeOf_calling hplace
      exact ⟨e, emitted, told'⟩
    · rw [State.goto_queue, ended_accept, hopen] at heof
      cases heof
    · rw [State.goto_queue, ended_accept]
      refine h.ending hi ?_
      rw [State.goto_pc, Function.update_self] at hend
      rw [hpc]
      cases ph with
      | process => exact hend
      | flush => trivial
  | @emitEnd ph f k e hpc hended =>
    refine h.goOn (by simp [hpc, Pc.Finished]) (upstream_refl s _) (downstream_refl s _) ?_ ?_
    · intro hopen
      rw [hended] at hopen
      cases hopen
    · intro hi hend
      refine h.ending hi ?_
      rw [hpc]
      cases ph with
      | process => exact hend
      | flush => trivial
  | @pull ph st k f rest hi hpc hitems =>
    refine h.goOn (by simp [hpc, Pc.Finished]) (upstream_take s _ _ _) (downstream_take s _ _ _) ?_
      fun hi' => absurd hi' (by omega)
    intro hopen c hplace
    obtain rfl := placeOf_calling hplace
    obtain ⟨e, hist, told⟩ := h.onRun hopen (.running ph (.pull st k)) (by rw [hpc]; rfl)
    obtain ⟨rfl, told'⟩ := told.more rfl hc (by rw [hi]; exact hitems)
    have taken : (s.take 0 f).taken i = s.taken i ++ [f] := by simp [State.take, hi]
    rw [taken]
    exact ⟨false, hist.pull f, told'⟩
  | @pullEnd ph st k e hi hpc hitems hended =>
    refine h.goOn (by simp [hpc, Pc.Finished]) (upstream_refl s _) (downstream_refl s _) ?_
      fun hi' => absurd hi' (by omega)
    intro hopen c hplace
    rcases hs.ends 0 e hended with rfl | hard
    · obtain rfl := placeOf_calling hplace
      obtain ⟨e, hist, told⟩ := h.onRun hopen (.running ph (.pull st k)) (by rw [hpc]; rfl)
      exact ⟨true, hist.pullEof, told_eof hc (by rw [hi]; exact hitems) (by rw [hi]; exact hended)⟩
    · simp [placeOf, hard] at hplace
  | @again st hpc =>
    refine h.goOn (by simp [hpc, Pc.Finished]) (upstream_refl s _) (downstream_refl s _) ?_
      fun _ hend => absurd hend (by simp [Pc.Ending])
    intro hopen c hplace
    cases hplace
    obtain ⟨e, hist, told⟩ := h.onRun hopen (.running .process (.ret st .ok)) (by rw [hpc]; rfl)
    exact ⟨e, hist.next, told⟩
  | @sourceEof st hi hpc =>
    refine h.goOn (by simp [hpc, Pc.Finished]) (upstream_refl s _) (downstream_refl s _) ?_
      fun hi' => absurd hi' (by omega)
    intro hopen c hplace
    obtain rfl := placeOf_calling hplace
    obtain ⟨e, hist, told⟩ := h.onRun hopen (.running .process (.ret st .eof)) (by rw [hpc]; rfl)
    exact ⟨e, hist.flush, told⟩
  | fail hpc =>
    exact h.goOut (by simp [hpc, Pc.Finished]) (upstream_refl s _) (downstream_refl s _) rfl (by simp [Pc.Ending])
  | @flushed st hpc =>
    refine h.goOn (by simp [hpc, Pc.Finished]) (upstream_refl s _) (downstream_refl s _) ?_
      fun hi _ => h.ending hi (by rw [hpc]; trivial)
    intro hopen c hplace
    cases hplace
    obtain ⟨e, hist, told⟩ := h.onRun hopen (.running .flush (.ret st .ok)) (by rw [hpc]; rfl)
    exact ⟨e, hist.close, told⟩
  | flushFail hpc =>
    exact h.goOut (by simp [hpc, Pc.Finished]) (upstream_refl s _) (downstream_refl s _) rfl (by simp [Pc.Ending])
  | close hpc =>
    have hup := upstream_close s (i + 1) i
    have told' : ∀ {xs e}, Told s i xs e →
        Told ((s.setQueue (i + 1) (s.queue (i + 1)).close).goto i (.leaving .eof)) i xs e :=
      fun told => told.upstream ⟨hup.sent, hup.ended⟩
    refine ⟨fun _ c hplace => ?_, ?_, fun heof => ?_, fun hi _ => hup.ended _ (h.ending hi (by rw [hpc]; trivial))⟩
    · rw [State.goto_pc, Function.update_self] at hplace
      cases hplace
    · obtain ⟨xs, e, c, hist, told⟩ := h.wrote
      exact ⟨xs, e, c, hist, told' told⟩
    · refine ⟨by simp [Pc.Finished], ?_⟩
      cases hend : (s.queue (i + 1)).ended with
      | none =>
        obtain ⟨e, hist, told⟩ := h.onRun hend .done (by rw [hpc]; rfl)
        exact ⟨_, e, hist, told' told⟩
      | some e =>
        simp only [State.goto_queue, State.setQueue, Function.update_self, BoundedQueue.ended_close, hend,
          Option.getD_some, Option.some.injEq] at heof
        obtain ⟨hfin, -⟩ := h.closed (heof ▸ hend)
        rw [hpc] at hfin
        exact hfin.elim
  | filtered hpc =>
    exact h.goOut (by simp [hpc, Pc.Finished]) (upstream_refl s _) (downstream_refl s _) rfl (by simp [Pc.Ending])
  | second hpc =>
    exact h.goOut (by simp [hpc, Pc.Finished]) (upstream_refl s _) (downstream_refl s _) rfl (by simp [Pc.Ending])
  | first hpc =>
    exact h.goOut (by simp [hpc, Pc.Finished]) ⟨.inl rfl, fun _ h => h⟩ ⟨rfl, fun _ h => h, id⟩
      rfl (by simp [Pc.Ending])
  | cancel hpc =>
    exact h.goOut (by simp [hpc, Pc.Finished]) (upstream_cancel s _ _ _)
      (downstream_cancel s _ _ (hs.hard (.inl hpc))) rfl (by simp [Pc.Ending])
  | cancelled hpc =>
    exact h.goOut (by simp [hpc, Pc.Finished]) (upstream_refl s _) (downstream_refl s _) rfl (by simp [Pc.Ending])
  | leaveSink hpc =>
    exact h.goOut (by simp [hpc, Pc.Finished]) (upstream_cancel s _ _ _)
      (downstream_cancel s _ _ (hs.hard (k := 0) (.inr hpc))) rfl (by simp [Pc.Ending])
  | leave hpc =>
    exact h.goOut (by simp [hpc, Pc.Finished]) (upstream_refl s _) (downstream_refl s _) rfl (by simp [Pc.Ending])
  | @exit why hpc =>
    have moved : ∀ {P : Pc σ α → Prop}, P (.exited why) →
        P (({ s with active := s.active - 1 }.goto i (.exited why)).pc i) := by
      intro P hP
      simpa using hP
    refine ⟨fun _ c hplace => ?_, h.wrote, fun heof => ?_, fun hi hend => ?_⟩
    · rw [State.goto_pc, Function.update_self] at hplace
      cases hplace
    · obtain ⟨hfin, run⟩ := h.closed heof
      rw [hpc] at hfin
      exact ⟨moved (by cases why <;> exact hfin), run⟩
    · rw [State.goto_pc, Function.update_self] at hend
      exact h.ending hi (by rw [hpc]; cases why <;> exact hend)

/-- **The calls of a well-behaved graph return well**: a worker's queue is not
closed while it is in a call, so a refused push reports an error. -/
theorem callReturns_work (hnet : WellBehaved net) (hs : Sound net s)
    (hclosed : (s.queue (j + 1)).ended = some .eof → (s.pc j).Finished)
    (h : ∀ k, CallReturns k (s.pc k)) (w : Work net s j t) : ∀ k, CallReturns k (t.pc k) := by
  have go : ∀ {u : State σ α} {pc : Pc σ α}, u.pc = s.pc → CallReturns j pc →
      ∀ k, CallReturns k ((u.goto j pc).pc k) := by
    intro u pc hu hpc k
    by_cases hk : k = j
    · subst hk; simpa using hpc
    · simpa [hk, hu] using h k
  cases w with
  | @call st hj hpc =>
    subst hj
    exact go rfl ((hnet.source st).imp fun e he => he.imp_right fun he => ⟨rfl, he⟩)
  | @take st f rest hj hpc hitems => exact go rfl ((hnet.process j hj st f).imp fun e he => .inl he)
  | @takeEof st hj hpc hitems hended => exact go rfl (hnet.flush j st)
  | @emit ph f k hpc hopen room =>
    have := h j
    rw [hpc] at this
    cases ph <;> exact go rfl (this .ok (.inl rfl))
  | @emitEnd ph f k e hpc hended =>
    have := h j
    rw [hpc] at this
    rcases hs.ends _ e hended with rfl | hard
    · have hfin := hclosed hended
      rw [hpc] at hfin
      exact hfin.elim
    · cases ph <;> exact go rfl (this e (.inr hard))
  | @pull ph st k f rest hj hpc hitems =>
    have := h j
    rw [hpc] at this
    cases ph <;> exact go rfl (this.2.2 f)
  | @pullEnd ph st k e hj hpc hitems hended =>
    have := h j
    rw [hpc] at this
    rcases hs.ends _ e hended with rfl | hard
    · cases ph <;> exact go rfl this.1
    · cases ph <;> exact go rfl (this.2.1 e hard)
  | @sourceEof st hj hpc => exact go rfl (hnet.flush j st)
  | _ => exact go rfl trivial

end Worker

/-! ## Runs -/

/-- What holds of every state of a run without `shutdown`. -/
structure OnTrack (net : Net σ α) (s : State σ α) : Prop where
  sound : Sound net s
  conserved : Conserved s
  returns : ∀ i, CallReturns i (s.pc i)
  track : ∀ i < net.n, Track net s i

def noShutdown (_ : State σ α) : Event α → Prop
  | .shutdown _ => False
  | _ => True

theorem onTrack_start (net : Net σ α) : OnTrack net net.start where
  sound := sound_start net
  conserved _ := rfl
  returns _ := trivial
  track i _ := by
    have told : Told net.start i [] false := ⟨List.nil_prefix, nofun⟩
    refine ⟨fun _ c hc => ?_, ⟨[], false, _, .start, told⟩, nofun, fun _ hend => hend.elim⟩
    cases hc
    exact ⟨false, .start, told⟩

/-- The frame the owner pushes was not refused. -/
theorem tryPush_ok {q : BoundedQueue α} {f : α} (hends : ∀ e, q.ended = some e → e = .eof ∨ e.isHard = true)
    (h : (q.tryPush f).2 = .ok) : q.ended = none := by
  unfold BoundedQueue.tryPush at h
  cases hend : q.ended with
  | none => rfl
  | some e =>
    rw [hend] at h
    rcases hends e hend with rfl | hard
    · cases h
    · dsimp only at h
      rw [h] at hard
      cases hard

theorem OnTrack.step {net : Net σ α} (hnet : WellBehaved net) {s t : State σ α} {e : Event α}
    (hs : OnTrack net s) (hno : noShutdown s e) (h : Executor.step net s e = some t) : OnTrack net t := by
  have honest : honest s e = true := by
    cases e with
    | work i => exact (hs.returns i).honest
    | _ => rfl
  have sound := hs.sound.step honest h
  cases e with
  | push f =>
    simp only [Executor.step] at h
    split at h
    · rename_i hpush
      cases h
      have hopen := tryPush_ok (hs.sound.ends 0) hpush
      exact ⟨sound, hs.conserved.accept 0 f, hs.returns, fun i hi => (hs.track i hi).others rfl rfl
        (upstream_accept hopen f i) (downstream_accept f (Nat.succ_ne_zero i))⟩
    · cases h
  | pushEos =>
    cases h
    exact ⟨sound, hs.conserved.setQueue rfl, hs.returns, fun i hi => (hs.track i hi).others rfl rfl
      (upstream_close s 0 i) (downstream_close s (Nat.succ_ne_zero i))⟩
  | pull =>
    simp only [Executor.step] at h
    split at h
    · rename_i f rest hitems
      cases h
      exact ⟨sound, hs.conserved.take hitems, hs.returns, fun i hi => (hs.track i hi).others rfl
        (taken_take f (Nat.ne_of_lt hi)) (upstream_take s _ f i) (downstream_take s _ f _)⟩
    · cases h
  | shutdown k => exact hno.elim
  | work j =>
    simp only [Executor.step] at h
    split at h
    · rename_i hj
      have w := work_spec h
      have returns := callReturns_work hnet hs.sound (fun heof => ((hs.track j hj).closed heof).1) hs.returns w
      refine ⟨sound, w.conserved hs.conserved, returns, fun i hi => ?_⟩
      by_cases hij : i = j
      · subst hij
        exact (hs.track i hi).own_work hs.sound hs.conserved w
      · exact (hs.track i hi).other_work hs.sound hij w
    · cases h

theorem reach_onTrack {net : Net σ α} (hnet : WellBehaved net) {s : State σ α}
    (h : Reach net noShutdown s) : OnTrack net s :=
  h.invariant (onTrack_start net) fun _ _ _ hs hno hstep => hs.step hnet hno hstep

/-! ## The sink -/

/-- The last worker. -/
def Net.sink (net : Net σ α) : Nat := net.n - 1

theorem Net.sink_succ (net : Net σ α) : net.sink + 1 = net.n := Nat.sub_add_cancel (Nat.le_of_succ_le net.two_le)

theorem Net.sink_pos (net : Net σ α) : 0 < net.sink := Nat.sub_pos_of_lt net.two_le

/-- The sink has passed on everything its queue will ever hold. -/
def Drained (net : Net σ α) (s : State σ α) : Prop :=
  s.sent net.n = s.taken net.sink ∧ (s.queue net.sink).items = [] ∧ s.Ended net.sink

/-- Where the sink is in passing frames on. -/
def Passing (net : Net σ α) (s : State σ α) : Pc σ α → Prop
  | .loop _ => s.sent net.n = s.taken net.sink
  | .calling .process (.emit f k) => (∀ e, ∃ st, k e = .ret st e) ∧ s.taken net.sink = s.sent net.n ++ [f]
  | .calling .process (.ret _ e) => e = .ok ∧ s.sent net.n = s.taken net.sink
  | .calling .flush (.ret _ e) => e = .ok ∧ Drained net s
  | .calling _ _ => False
  | _ => Drained net s

structure SinkPasses (net : Net σ α) (s : State σ α) : Prop where
  passing : Passing net s (s.pc net.sink)
  ended : s.Ended net.n → ∃ why, s.pc net.sink = .leaving why ∨ s.pc net.sink = .exited why

/-- What happens around the sink: its queue may end, and may be sent more before that. -/
structure AroundSink (net : Net σ α) (s t : State σ α) : Prop where
  sent : t.sent net.n = s.sent net.n
  taken : t.taken net.sink = s.taken net.sink
  queue : s.Ended net.sink → t.Ended net.sink ∧ (t.queue net.sink).items = (s.queue net.sink).items
  out : t.Ended net.n → s.Ended net.n

theorem AroundSink.drained {net : Net σ α} {s t : State σ α} (hst : AroundSink net s t) (h : Drained net s) :
    Drained net t := by
  obtain ⟨hsent, hitems, hended⟩ := h
  obtain ⟨hended', hitems'⟩ := hst.queue hended
  exact ⟨by rw [hst.sent, hst.taken, hsent], by rw [hitems', hitems], hended'⟩

theorem AroundSink.passing {net : Net σ α} {s t : State σ α} (hst : AroundSink net s t) {pc : Pc σ α}
    (h : Passing net s pc) : Passing net t pc := by
  cases pc with
  | loop st => exact hst.sent.trans (h.trans hst.taken.symm)
  | calling ph p =>
    cases ph with
    | process =>
      cases p with
      | ret st e => exact ⟨h.1, hst.sent.trans (h.2.trans hst.taken.symm)⟩
      | emit f k => exact ⟨h.1, by rw [hst.sent, hst.taken]; exact h.2⟩
      | pull st k => exact h
    | flush =>
      cases p with
      | ret st e => exact ⟨h.1, hst.drained h.2⟩
      | emit f k => exact h
      | pull st k => exact h
  | _ => exact hst.drained h

theorem AroundSink.sinkPasses {net : Net σ α} {s t : State σ α} (h : SinkPasses net s)
    (hst : AroundSink net s t) (hpc : t.pc net.sink = s.pc net.sink) : SinkPasses net t where
  passing := hpc ▸ hst.passing h.passing
  ended hended := hpc ▸ h.ended (hst.out hended)

section Sink

variable {net : Net σ α} {s t : State σ α}

theorem aroundSink_refl (net : Net σ α) (s : State σ α) : AroundSink net s s :=
  ⟨rfl, rfl, fun h => ⟨h, rfl⟩, id⟩

theorem aroundSink_accept {m : Nat} (hopen : (s.queue m).ended = none) (hm : m ≠ net.n) (f : α) :
    AroundSink net s (s.accept m f) where
  sent := by simp [State.accept, hm.symm]
  taken := rfl
  queue hended := by
    have hne : net.sink ≠ m := by
      rintro rfl
      rw [State.Ended, hopen] at hended
      cases hended
    exact ⟨by rw [State.Ended, ended_accept]; exact hended, by simp [State.accept, hne]⟩
  out h := by rw [State.Ended, ended_accept] at h; exact h

theorem aroundSink_take {m : Nat} (hm : m ≠ net.sink) (f : α) : AroundSink net s (s.take m f) where
  sent := rfl
  taken := by simp [State.take, hm.symm]
  queue hended := ⟨by rw [State.Ended, ended_take]; exact hended, by simp [State.take, hm.symm]⟩
  out h := by rw [State.Ended, ended_take] at h; exact h

theorem aroundSink_setQueue {m : Nat} (hm : m ≠ net.n) {q : BoundedQueue α}
    (hitems : q.items = (s.queue m).items)
    (hended : (s.queue m).ended.isSome = true → q.ended.isSome = true) : AroundSink net s (s.setQueue m q) where
  sent := rfl
  taken := rfl
  queue h := by
    refine ⟨(later_setQueue hended).ended _ h, ?_⟩
    by_cases hk : net.sink = m
    · subst hk; simpa [State.setQueue] using hitems
    · simp [State.setQueue, hk]
  out h := by simpa [State.Ended, State.setQueue, hm.symm] using h

/-- Cancelling a queue with any status does not reopen it. -/
theorem ended_cancel_keeps {q : BoundedQueue α} {c : Status} (h : q.ended.isSome = true) :
    (q.cancel c).ended.isSome = true := by
  obtain ⟨e, he⟩ := Option.isSome_iff_exists.mp h
  rw [BoundedQueue.ended_cancel_of_some he]
  rfl

/-- **The other workers leave the sink alone.** -/
theorem Work.aroundSink {j : Nat} (hj : j ≠ net.sink) (w : Work net s j t) :
    AroundSink net s t ∧ t.pc net.sink = s.pc net.sink := by
  have succ := net.sink_succ
  have pos := net.sink_pos
  have go : ∀ {u : State σ α} {pc : Pc σ α}, u.pc = s.pc → AroundSink net s u →
      AroundSink net s (u.goto j pc) ∧ (u.goto j pc).pc net.sink = s.pc net.sink := by
    intro u pc hu hst
    exact ⟨⟨hst.sent, hst.taken, hst.queue, hst.out⟩, by simp [hj.symm, hu]⟩
  cases w with
  | take => exact go rfl (aroundSink_take hj _)
  | pull => exact go rfl (aroundSink_take (by omega) _)
  | emit _ hopen => exact go rfl (aroundSink_accept hopen (by omega) _)
  | close => exact go rfl (aroundSink_setQueue (by omega) rfl fun _ => rfl)
  | cancel _ hk =>
    exact go rfl (aroundSink_setQueue (Nat.ne_of_lt hk) (BoundedQueue.items_cancel _ _) ended_cancel_keeps)
  | leaveSink _ hsink => omega
  | first => exact go rfl ⟨rfl, rfl, fun h => ⟨h, rfl⟩, id⟩
  | exit => exact go rfl ⟨rfl, rfl, fun h => ⟨h, rfl⟩, id⟩
  | _ => exact go rfl (aroundSink_refl net s)

/-- A step of the sink before it leaves: its own queue is as it was, or ends. -/
theorem SinkPasses.goOn {u : State σ α} {pc : Pc σ α} (hu : AroundSink net s u) (hpc : Passing net u pc)
    (hopen : ¬s.Ended net.n) : SinkPasses net (u.goto net.sink pc) where
  passing := by
    have : Passing net (u.goto net.sink pc) pc :=
      AroundSink.passing (s := u) ⟨rfl, rfl, fun h => ⟨h, rfl⟩, id⟩ hpc
    simpa using this
  ended hended := absurd (hu.out hended) hopen

/-- Ending another queue changes nothing of it. -/
theorem Drained.out (h : Drained net s) {m : Nat} (hm : m ≠ net.sink) {q : BoundedQueue α} {i : Nat}
    {pc : Pc σ α} : Drained net ((s.setQueue m q).goto i pc) := by
  obtain ⟨hsent, hitems, hended⟩ := h
  exact ⟨hsent, by simpa [State.setQueue, hm.symm] using hitems,
    by simpa [State.Ended, State.setQueue, hm.symm] using hended⟩

/-- **A step of the sink passes frames on.** -/
theorem SinkPasses.own_work {init : σ} (hsink : net.node net.sink = queueSink init) (h : SinkPasses net s)
    (w : Work net s net.sink t) : SinkPasses net t := by
  have succ := net.sink_succ
  have pos := net.sink_pos
  have passing := h.passing
  have stays : ∀ {pc : Pc σ α}, s.pc net.sink = pc →
      (∀ why, pc ≠ .leaving why ∧ pc ≠ .exited why) → ¬s.Ended net.n := by
    rintro pc hpc hne hended
    obtain ⟨why, hwhy | hwhy⟩ := h.ended hended
    · exact (hne why).1 (hpc ▸ hwhy)
    · exact (hne why).2 (hpc ▸ hwhy)
  cases w with
  | call hi => omega
  | @take st f rest hi hpc hitems =>
    have hopen := stays hpc (by simp)
    rw [hpc] at passing
    refine ⟨?_, fun hended => absurd (by rw [State.Ended, State.goto_queue, ended_take] at hended; exact hended) hopen⟩
    have taken : (s.take net.sink f).taken net.sink = s.taken net.sink ++ [f] := by simp [State.take]
    simp only [State.goto_pc, Function.update_self, hsink, queueSink, Passing, State.goto_taken, taken]
    exact ⟨fun e => ⟨st, rfl⟩, by rw [show s.taken net.sink = s.sent net.n from passing.symm]; rfl⟩
  | @takeEof st hi hpc hitems hended =>
    rw [hpc] at passing
    refine goOn (aroundSink_refl net s) ?_ (stays hpc (by simp))
    rw [hsink]
    exact ⟨rfl, passing, hitems, by rw [State.Ended, hended]; rfl⟩
  | takeEnd hi hpc hitems hended =>
    rw [hpc] at passing
    exact goOn (aroundSink_refl net s) ⟨passing, hitems, by rw [State.Ended, hended]; rfl⟩ (stays hpc (by simp))
  | @emit ph f k hpc hopen room =>
    have hends := stays hpc (by simp)
    rw [hpc] at passing
    cases ph with
    | flush => exact passing.elim
    | process =>
      obtain ⟨hret, htaken⟩ := passing
      obtain ⟨st, hk⟩ := hret .ok
      refine ⟨?_, fun hended => absurd (by rw [State.Ended, State.goto_queue, ended_accept] at hended; exact hended) hends⟩
      have sent : (s.accept (net.sink + 1) f).sent net.n = s.sent net.n ++ [f] := by simp [State.accept, succ]
      simp only [State.goto_pc, Function.update_self, hk, Passing, State.goto_sent, sent]
      exact ⟨trivial, htaken.symm⟩
  | emitEnd hpc hended =>
    refine absurd ?_ (stays hpc (by simp))
    rw [State.Ended, ← succ, hended]
    rfl
  | pull hi => omega
  | pullEnd hi => omega
  | again hpc =>
    rw [hpc] at passing
    exact goOn (aroundSink_refl net s) passing.2 (stays hpc (by simp))
  | sourceEof hi => omega
  | fail hpc hok =>
    rw [hpc] at passing
    exact absurd passing.1 hok
  | flushed hpc =>
    rw [hpc] at passing
    exact goOn (aroundSink_refl net s) passing.2 (stays hpc (by simp))
  | flushFail hpc hok =>
    rw [hpc] at passing
    exact absurd passing.1 hok
  | close hpc =>
    rw [hpc] at passing
    have left : ((s.setQueue (net.sink + 1) (s.queue (net.sink + 1)).close).goto net.sink (.leaving .eof)).pc
        net.sink = .leaving .eof := by simp
    exact ⟨by rw [left]; exact passing.out (Nat.succ_ne_self _), fun _ => ⟨.eof, .inl left⟩⟩
  | filtered hpc =>
    rw [hpc] at passing
    exact goOn (aroundSink_refl net s) passing (stays hpc (by simp))
  | second hpc =>
    rw [hpc] at passing
    exact goOn (aroundSink_refl net s) passing (stays hpc (by simp))
  | @first e hpc =>
    rw [hpc] at passing
    exact goOn (u := { s with error := e }) ⟨rfl, rfl, fun h => ⟨h, rfl⟩, id⟩ passing (stays hpc (by simp))
  | @cancel e k hpc hk =>
    rw [hpc] at passing
    have around : AroundSink net s (s.setQueue k ((s.queue k).cancel e)) :=
      aroundSink_setQueue (Nat.ne_of_lt hk) (BoundedQueue.items_cancel _ _) ended_cancel_keeps
    exact goOn around (around.drained passing) (stays hpc (by simp))
  | cancelled hpc =>
    rw [hpc] at passing
    exact goOn (aroundSink_refl net s) passing (stays hpc (by simp))
  | @leaveSink e hpc _ =>
    rw [hpc] at passing
    have left : ((s.setQueue net.n ((s.queue net.n).cancel e)).goto net.sink (.leaving (.status e))).pc
        net.sink = .leaving (.status e) := by simp
    exact ⟨by rw [left]; exact passing.out (by omega), fun _ => ⟨_, .inl left⟩⟩
  | leave _ hne => exact absurd succ hne
  | @exit why hpc =>
    rw [hpc] at passing
    have left : ({ s with active := s.active - 1 }.goto net.sink (.exited why)).pc net.sink = .exited why := by
      simp
    exact ⟨by rw [left]; exact passing, fun _ => ⟨why, .inr left⟩⟩

end Sink

theorem sinkPasses_start (net : Net σ α) : SinkPasses net net.start := ⟨rfl, nofun⟩

/-- A step is one of the sink's, or leaves it alone. -/
theorem step_aroundSink {net : Net σ α} {s t : State σ α} {e : Event α} (hs : Sound net s) (hno : noShutdown s e)
    (hstep : Executor.step net s e = some t) :
    Work net s net.sink t ∨ AroundSink net s t ∧ t.pc net.sink = s.pc net.sink := by
  have two := net.two_le
  have succ := net.sink_succ
  cases e with
  | push f =>
    simp only [Executor.step] at hstep
    split at hstep
    · rename_i hpush
      cases hstep
      exact .inr ⟨aroundSink_accept (tryPush_ok (hs.ends 0) hpush) (by omega) f, rfl⟩
    · cases hstep
  | pushEos =>
    cases hstep
    exact .inr ⟨aroundSink_setQueue (by omega) rfl fun _ => rfl, rfl⟩
  | pull =>
    simp only [Executor.step] at hstep
    split at hstep
    · cases hstep
      exact .inr ⟨aroundSink_take (by omega) _, rfl⟩
    · cases hstep
  | shutdown k => exact hno.elim
  | work j =>
    simp only [Executor.step] at hstep
    split at hstep
    · by_cases hj : j = net.sink
      · subst hj
        exact .inl (work_spec hstep)
      · exact .inr ((work_spec hstep).aroundSink hj)
    · cases hstep

theorem SinkPasses.step {net : Net σ α} {init : σ} (hsink : net.node net.sink = queueSink init)
    {s t : State σ α} {e : Event α} (hs : Sound net s) (h : SinkPasses net s) (hno : noShutdown s e)
    (hstep : Executor.step net s e = some t) : SinkPasses net t := by
  rcases step_aroundSink hs hno hstep with w | ⟨around, hpc⟩
  · exact h.own_work hsink w
  · exact around.sinkPasses h hpc

theorem reach_sinkPasses {net : Net σ α} (hnet : WellBehaved net) {init : σ}
    (hsink : net.node net.sink = queueSink init) {s : State σ α} (h : Reach net noShutdown s) :
    SinkPasses net s := by
  induction h with
  | start => exact sinkPasses_start net
  | step hreach hno hstep ih => exact ih.step hsink (reach_onTrack hnet hreach).sound hno hstep

/-! ## The whole pipeline -/

/-- What each queue was sent is below what the process in front of it makes of
what it was sent. -/
theorem Track.stream_le {net : Net σ α} {s : State σ α} {i : Nat} (h : Track net s i) :
    ∃ m, stream s (i + 1) ≤ (proc net i).stream m (proc net i).init (stream s i) := by
  have hne : (Flow.ok : Status) ≠ Flow.eof := by decide
  have told : ∀ {xs e}, Told s i xs e →
      xs <+: (stream s i).items ∧ (e = true → stream s i = ⟨xs, true⟩) := by
    rintro xs e ⟨hxs, he⟩
    refine ⟨hxs, fun h => ?_⟩
    obtain ⟨heof, rfl⟩ := he h
    simp [stream, heof]
  by_cases heof : (s.queue (i + 1)).ended = some .eof
  · obtain ⟨-, xs, e, hist, htold⟩ := h.closed heof
    obtain ⟨m, hm⟩ := hist.done_stream hne (told htold).1 (told htold).2
    refine ⟨m, ?_⟩
    rw [hm]
    simp [stream, heof]
  · obtain ⟨xs, e, c, hist, htold⟩ := h.wrote
    obtain ⟨m, hm⟩ := hist.le_stream hne (told htold).1 (told htold).2
    refine ⟨m, ?_⟩
    have hopen : stream s (i + 1) = ⟨s.sent (i + 1), false⟩ := by simp [stream, heof]
    rw [hopen]
    exact hm

/-- A closed output queue was closed by workers that all came to the end of
their inputs. -/
theorem OnTrack.finished {net : Net σ α} {s : State σ α} (h : OnTrack net s)
    (heof : (s.queue net.n).ended = some .eof) : ∀ i < net.n, (s.pc i).Finished := by
  have go : ∀ d i, i + d + 1 = net.n → (s.queue (i + 1)).ended = some .eof := by
    intro d
    induction d with
    | zero => intro i hi; rw [show i + 1 = net.n by omega]; exact heof
    | succ d ih =>
      intro i hi
      have next := ih (i + 1) (by omega)
      have track := h.track (i + 1) (by omega)
      refine track.ending (Nat.succ_pos i) ?_
      rcases (track.closed next).1.eq with hpc | hpc <;> rw [hpc] <;> trivial
  intro i hi
  exact ((h.track i hi).closed (go (net.n - 1 - i) i (by omega))).1

/-- **The pipeline is deterministic.** For every graph of well-behaved nodes,
every capacity and every state of every run without `shutdown`: what the output
queue has accepted begins the output of the sequential composition on what was
pushed; the output queue is closed only if no worker has failed, and then it has
accepted all of that output; and if the graph ends in the queue sink, an ended
output queue has accepted every frame the last edge has. -/
theorem pipeline_deterministic {net : Net σ α} (hnet : WellBehaved net) {s : State σ α}
    (h : Reach net noShutdown s) :
    (∃ m, s.sent net.n <+: (through (proc net) m (stream s 0) net.n).items) ∧
    ((s.queue net.n).ended = some .eof →
      s.error = .ok ∧ (∀ i < net.n, (s.pc i).Finished) ∧
        ∃ m, through (proc net) m (stream s 0) net.n = ⟨s.sent net.n, true⟩) ∧
    (∀ init, net.node net.sink = queueSink init → (s.queue net.n).ended.isSome = true →
      s.sent net.n = s.sent net.sink ∧ (s.queue net.sink).ended.isSome = true) := by
  have hs := reach_onTrack hnet h
  obtain ⟨m, hm⟩ := le_through (P := proc net) (S := stream s) (n := net.n) fun k hk => (hs.track k hk).stream_le
  refine ⟨⟨m, hm.1⟩, fun heof => ?_, fun init hsink hended => ?_⟩
  · have finished := hs.finished heof
    refine ⟨?_, finished, m, ?_⟩
    · by_contra herr
      obtain ⟨i, hi, hfailed⟩ := hs.sound.blamed herr
      rcases (finished i hi).eq with hpc | hpc <;> rw [hpc] at hfailed <;> exact hfailed
    · have hcomplete : stream s net.n = ⟨s.sent net.n, true⟩ := by simp [stream, heof]
      rw [← hcomplete]
      exact (hm.2 (by rw [hcomplete])).symm
  · have hsinks := reach_sinkPasses hnet hsink h
    have drained : Drained net s := by
      obtain ⟨why, hpc | hpc⟩ := hsinks.ended hended
      · have := hsinks.passing; rw [hpc] at this; exact this
      · have := hsinks.passing; rw [hpc] at this; exact this
    obtain ⟨hsent, hitems, hend⟩ := drained
    refine ⟨?_, hend⟩
    rw [hsent, hs.conserved net.sink, hitems, List.append_nil]

theorem wellBehaved_pairNet : WellBehaved pairNet where
  source _ := ⟨.inr rfl, fun _ he => .inl (.inr he), fun _ _ he => .inl he⟩
  process i hi st f := by
    simp only [pairNet, Nat.pos_iff_ne_zero.mp hi, if_false]
    exact fun _ he => he
  flush i st := by
    by_cases hi : i = 0 <;> simp [pairNet, hi, queueSource, queueSink, Returns, okOrHard]

theorem pair_delivers :
    WellBehaved pairNet ∧ (pairEnd.queue 2).ended = some .eof ∧ pairEnd.error = .ok ∧
      pairEnd.sent 2 = pairEnd.sent 1 ∧
      ∃ m, through (proc pairNet) m ⟨[()], true⟩ 2 = ⟨[()], true⟩ := by
  have reached : Reach pairNet noShutdown pairEnd :=
    (play_reach (fun _ e => match e with | .shutdown _ => false | _ => true) pairRun .start rfl).mono
    fun _ e he => by cases e <;> trivial
  obtain ⟨-, closed, delivered⟩ := pipeline_deterministic wellBehaved_pairNet reached
  obtain ⟨herr, -, whole⟩ := closed rfl
  exact ⟨wellBehaved_pairNet, rfl, herr, (delivered () rfl rfl).1, whole⟩

end Rkvc.Executor
