import Mathlib.Algebra.BigOperators.Group.Finset.Basic
import Rkvc.Core.Progress
import Rkvc.Lib.Ends

/-!
# Sessions complete

Once its input queue has ended, a session whose owner keeps pulling comes to an
end: no run goes on for ever, and where it can go no further every worker has
returned (`session_completes`). `shutdown` cancels every queue, and then nobody
has to pull (`shutdown_joins`).

What is left to do is a bag of loads, and each step puts lighter ones in the
place of one: a call makes way for what is left of it and the frame it emits one
queue further on, a frame for the call it is handed to, a worker at the top of
its loop for its flush. The source is called with no frame, so its own states
have to run out (`SourceEnds`), unless the call has read one.
-/

namespace Rkvc.Executor
set_option autoImplicit false

open Lib Lib.Kahn

variable {σ α : Type}

/-- A call that returns `Ok` without a frame from the input queue leaves a
smaller state than it found. -/
def Shrinks (lt : σ → σ → Prop) (st : σ) : Prog σ α Status → Prop
  | .ret st' e => e = .ok → lt st' st
  | .emit _ k => ∀ e, e = .ok ∨ e.isHard = true → Shrinks lt st (k e)
  | .pull _ _ => True

/-- The source cannot go on for ever without reading frames. -/
structure SourceEnds (net : Net σ α) (lt : σ → σ → Prop) : Prop where
  wf : WellFounded lt
  shrinks : ∀ st, Shrinks lt st ((net.node 0).process st none)

/-! ## Loads -/

/-- What is left to do. -/
inductive Load (σ α : Type) where
  /-- A frame in queue `k`. -/
  | frame (k : Nat)
  /-- Worker `i` has not come to its flush, or failed. -/
  | serve (i : Nat)
  /-- What is left of a call of worker `i`. -/
  | run (i : Nat) (p : Prog σ α Status)
  /-- The source will be called from a state, or is in the call, or is in a call
  that has read a frame. -/
  | turn (st : σ)
  | held (st : σ)
  | credit
  /-- Steps on the way out. -/
  | leave (m : Nat)

inductive Less (n : Nat) (lt : σ → σ → Prop) : Load σ α → Load σ α → Prop
  | leave {m m'} : m' < m → Less n lt (.leave m') (.leave m)
  | flush {i m} : Less n lt (.leave m) (.serve i)
  | flushRun {i p} : i < n → Less n lt (.run i p) (.serve i)
  | hand {i p} : i < n → Less n lt (.run i p) (.frame i)
  | sent {i f k} : Less n lt (.frame (i + 1)) (.run i (.emit f k))
  | told {i f k e} : Less n lt (.run i (k e)) (.run i (.emit f k))
  | given {i st k f} : Less n lt (.run i (k f)) (.run i (.pull st k))
  | ended {i st k e} : Less n lt (.run i (.ret st e)) (.run i (.pull st k))
  | call {st p} : Less n lt (.run 0 p) (.turn st)
  | hold {st} : Less n lt (.held st) (.turn st)
  | shrink {st st'} : lt st' st → Less n lt (.turn st') (.held st)
  | spend {st} : Less n lt (.turn st) .credit
  | read : Less n lt .credit (.frame 0)

section Wf

variable {n : Nat} {lt : σ → σ → Prop}

theorem acc_leave (m : Nat) : Acc (Less (α := α) n lt) (.leave m) := by
  induction m using Nat.strongRecOn with
  | _ m ih =>
    refine ⟨_, fun y below => ?_⟩
    cases below with
    | leave less => exact ih _ less

theorem acc_run {i : Nat} (next : Acc (Less (α := α) n lt) (.frame (i + 1))) (p : Prog σ α Status) :
    Acc (Less n lt) (.run i p) := by
  induction p with
  | ret st e => exact ⟨_, fun y below => by cases below⟩
  | emit f k ih =>
    refine ⟨_, fun y below => ?_⟩
    cases below with
    | sent => exact next
    | told => exact ih _
  | pull st k ih =>
    refine ⟨_, fun y below => ?_⟩
    cases below with
    | given => exact ih _
    | ended => exact ⟨_, fun y below => by cases below⟩

/-- A frame leads to work further on only, and there are `n` workers. -/
theorem acc_frame {k : Nat} (pos : 0 < k) : Acc (Less (σ := σ) (α := α) n lt) (.frame k) := by
  induction hd : n - k generalizing k with
  | zero =>
    refine ⟨_, fun y below => ?_⟩
    cases below <;> omega
  | succ d ih =>
    refine ⟨_, fun y below => ?_⟩
    cases below with
    | hand => exact acc_run (ih (Nat.succ_pos k) (by omega)) _
    | read => omega

/-- The loads are well-founded: along the graph, and within a worker along its
calls; the source's calls along its states. -/
theorem less_wf (wf : WellFounded lt) : WellFounded (Less (α := α) n lt) := by
  have run : ∀ i p, Acc (Less (α := α) n lt) (.run i p) := fun i p => acc_run (acc_frame (Nat.succ_pos i)) p
  have turn : ∀ st, Acc (Less (α := α) n lt) (.turn st) := by
    intro st
    induction st using wf.induction with
    | _ st ih =>
      refine ⟨_, fun y below => ?_⟩
      cases below with
      | call => exact run _ _
      | hold =>
        refine ⟨_, fun y below => ?_⟩
        cases below with
        | shrink less => exact ih _ less
  have credit : Acc (Less (α := α) n lt) .credit := by
    refine ⟨_, fun y below => ?_⟩
    cases below with
    | spend => exact turn _
  refine ⟨fun load => ⟨_, fun y below => ?_⟩⟩
  cases below with
  | leave | flush => exact acc_leave _
  | flushRun | hand | told | given | ended | call => exact run _ _
  | sent => exact acc_frame (Nat.succ_pos _)
  | hold =>
    refine ⟨_, fun y below => ?_⟩
    cases below with
    | shrink => exact turn _
  | shrink | spend => exact turn _
  | read => exact credit

end Wf

/-- The worker's calls are over. -/
def Pc.Past : Pc σ α → Prop
  | .loop _ | .calling _ _ => False
  | _ => True

/-- The steps to a worker's return once its calls are over. -/
def wayOut (n : Nat) : Pc σ α → Nat
  | .closing | .failing _ => n + 4
  | .cancelling _ k => n - k + 3
  | .failed _ => 2
  | .leaving _ => 1
  | _ => 0

/-- The loads of worker `i`. -/
inductive Carries (n : Nat) (lt : σ → σ → Prop) (i : Nat) : Pc σ α → Multiset (Load σ α) → Prop
  | loop {st} : 0 < i → Carries n lt i (.loop st) {.serve i}
  | turn {st} : i = 0 → Carries n lt i (.loop st) ({.serve i} + {.turn st})
  | call {p} : 0 < i → Carries n lt i (.calling .process p) ({.serve i} + {.run i p})
  | held {st p} : i = 0 → Shrinks lt st p →
      Carries n lt i (.calling .process p) ({.serve i} + ({.held st} + {.run i p}))
  | paid {p} : i = 0 → Carries n lt i (.calling .process p) ({.serve i} + ({.credit} + {.run i p}))
  | flush {p} : Carries n lt i (.calling .flush p) ({.leave (n + 5)} + {.run i p})
  | out {pc} : pc.Past →
      Carries n lt i pc {.leave (wayOut n pc)}

/-- The frames in the queues. -/
def frames (n : Nat) (q : Nat → BoundedQueue α) : Multiset (Load σ α) :=
  ∑ k ∈ Finset.range (n + 1), Multiset.replicate (q k).items.length (.frame k)

theorem frames_update {n k : Nat} (hk : k ≤ n) (q : Nat → BoundedQueue α) (v : BoundedQueue α) :
    ∃ G : Multiset (Load σ α), frames n q = G + Multiset.replicate (q k).items.length (.frame k) ∧
      frames n (Function.update q k v) = G + Multiset.replicate v.items.length (.frame k) := by
  have mem : k ∈ Finset.range (n + 1) := Finset.mem_range.mpr (by omega)
  refine ⟨∑ j ∈ (Finset.range (n + 1)).erase k, Multiset.replicate (q j).items.length (.frame j), ?_, ?_⟩
  · rw [frames, Finset.sum_erase_add _ _ mem]
  · rw [frames, ← Finset.sum_erase_add _ _ mem, Function.update_self]
    congr 1
    refine Finset.sum_congr rfl fun j hj => ?_
    rw [Function.update_of_ne (Finset.ne_of_mem_erase hj)]

theorem frames_accept {n k : Nat} (hk : k ≤ n) (s : State σ α) (f : α) :
    frames (σ := σ) n (s.accept k f).queue = frames n s.queue + {.frame k} := by
  obtain ⟨G, before, after⟩ := frames_update (σ := σ) hk s.queue { s.queue k with items := (s.queue k).items ++ [f] }
  rw [State.accept, after, before, List.length_append, List.length_singleton, Multiset.replicate_add, ← add_assoc]
  rfl

theorem frames_take {n k : Nat} (hk : k ≤ n) (s : State σ α) {f : α} {rest : List α}
    (items : (s.queue k).items = f :: rest) :
    frames (σ := σ) n s.queue = frames n (s.take k f).queue + {.frame k} := by
  obtain ⟨G, before, after⟩ := frames_update (σ := σ) hk s.queue { s.queue k with items := (s.queue k).items.tail }
  rw [State.take, after, before, items, List.length_cons, Multiset.replicate_succ, List.tail_cons, add_assoc,
    ← Multiset.singleton_add, add_comm _ {Load.frame k}]

theorem frames_setQueue {n k : Nat} (s : State σ α) {q : BoundedQueue α} (items : q.items = (s.queue k).items) :
    frames (σ := σ) n (s.setQueue k q).queue = frames n s.queue := by
  refine Finset.sum_congr rfl fun j _ => ?_
  simp only [State.setQueue]
  by_cases hj : j = k
  · subst hj
    rw [Function.update_self, items]
  · rw [Function.update_of_ne hj]

/-! ## What a step trades -/

/-- Loads of a worker, and frames with them, give way to lighter ones. -/
def Trade (n : Nat) (lt : σ → σ → Prop) (q q' : Nat → BoundedQueue α) (A A' : Multiset (Load σ α)) : Prop :=
  ∃ C X Y G P N, A = C + X ∧ A' = C + Y ∧ frames n q = G + P ∧ frames n q' = G + N ∧ X + P ≠ 0 ∧
    ∀ y ∈ Y + N, ∃ x ∈ X + P, Less n lt y x

section Trade

variable {n : Nat} {lt : σ → σ → Prop} {q q' : Nat → BoundedQueue α} {C X Y : Multiset (Load σ α)}

theorem trade_loads (same : frames (σ := σ) n q' = frames n q) (some : X ≠ 0)
    (below : ∀ y ∈ Y, ∃ x ∈ X, Less n lt y x) : Trade n lt q q' (C + X) (C + Y) :=
  ⟨C, X, Y, frames n q, 0, 0, rfl, rfl, (add_zero _).symm, same.trans (add_zero _).symm, by simpa using some,
    by simpa using below⟩

/-- A load gives way to nothing but one lighter. -/
theorem trade_one {a b : Load σ α} (same : frames (σ := σ) n q' = frames n q) (lower : Less n lt b a) :
    Trade n lt q q' (C + {a}) (C + {b}) := by
  refine trade_loads same (by simp) fun y hy => ⟨a, Multiset.mem_singleton_self a, ?_⟩
  rw [Multiset.mem_singleton.mp hy]
  exact lower

end Trade

section Worker

variable {net : Net σ α} {lt : σ → σ → Prop} {s t : State σ α} {i : Nat} {A : Multiset (Load σ α)}

/-- A worker in a call carries what is left of it. -/
theorem Carries.run {n : Nat} {ph : Phase} {p : Prog σ α Status} (h : Carries n lt i (.calling ph p) A) :
    ∃ C, A = C + {.run i p} ∧ ∀ p', (∀ st, Shrinks lt st p → Shrinks lt st p') →
      Carries n lt i (.calling ph p') (C + {.run i p'}) := by
  cases h with
  | call pos => exact ⟨{.serve i}, rfl, fun p' _ => .call pos⟩
  | @held st _ h0 shrinks =>
    refine ⟨{.serve i} + {.held st}, (add_assoc _ _ _).symm, fun p' keeps => ?_⟩
    rw [add_assoc]
    exact .held h0 (keeps st shrinks)
  | paid h0 =>
    refine ⟨{.serve i} + {.credit}, (add_assoc _ _ _).symm, fun p' _ => ?_⟩
    rw [add_assoc]
    exact .paid h0
  | flush => exact ⟨{.leave (n + 5)}, rfl, fun p' _ => .flush⟩
  | out past => exact past.elim

/-- Before its flush a worker is to serve. -/
theorem Carries.serves {n : Nat} {p : Prog σ α Status} (h : Carries n lt i (.calling .process p) A) :
    Load.serve i ∈ A := by
  cases h with
  | call => exact Multiset.mem_add.mpr (.inl (Multiset.mem_singleton_self _))
  | held => exact Multiset.mem_add.mpr (.inl (Multiset.mem_singleton_self _))
  | paid => exact Multiset.mem_add.mpr (.inl (Multiset.mem_singleton_self _))
  | out past => exact past.elim

theorem Carries.wayOut {n : Nat} {pc : Pc σ α} (h : Carries n lt i pc A) (past : pc.Past) :
    A = {.leave (Executor.wayOut n pc)} := by
  cases h with
  | out => rfl
  | _ => exact past.elim

/-- Everything a worker carries gives way to what is below one load of it. -/
theorem trade_all {n : Nat} {q q' : Nat → BoundedQueue α} {a : Load σ α} {B : Multiset (Load σ α)} (mem : a ∈ A)
    (same : frames (σ := σ) n q' = frames n q) (below : ∀ y ∈ B, Less n lt y a) : Trade n lt q q' A B := by
  have some : A ≠ 0 := fun none => by simp [none] at mem
  simpa using trade_loads (C := 0) same some fun y hy => ⟨a, mem, below y hy⟩

/-- A call that emits. -/
theorem Work.trade_emit {ph : Phase} {f : α} {k : Status → Prog σ α Status} (hi : i < net.n)
    (h : Carries net.n lt i (.calling ph (.emit f k)) A) :
    ∃ A', Carries net.n lt i (.calling ph (k .ok)) A' ∧
      Trade net.n lt s.queue (s.accept (i + 1) f).queue A A' := by
  obtain ⟨C, rfl, keeps⟩ := h.run
  refine ⟨_, keeps (k .ok) fun st shrinks => shrinks .ok (.inl rfl), C, {.run i (.emit f k)}, {.run i (k .ok)},
    frames net.n s.queue, 0, {.frame (i + 1)}, rfl, rfl, (add_zero _).symm, frames_accept hi s f, by simp, ?_⟩
  intro y hy
  refine ⟨.run i (.emit f k), by simp, ?_⟩
  rcases Multiset.mem_add.mp hy with told | sent
  · rw [Multiset.mem_singleton.mp told]
    exact .told
  · rw [Multiset.mem_singleton.mp sent]
    exact .sent

/-- A call that hears that a queue has ended. -/
theorem Work.trade_told {ph : Phase} {p p' : Prog σ α Status} (h : Carries net.n lt i (.calling ph p) A)
    (keeps : ∀ st, Shrinks lt st p → Shrinks lt st p') (lower : Less net.n lt (.run i p') (.run i p)) :
    ∃ A', Carries net.n lt i (.calling ph p') A' ∧ Trade net.n lt s.queue s.queue A A' := by
  obtain ⟨C, rfl, goesOn⟩ := h.run
  exact ⟨_, goesOn p' keeps, trade_one rfl lower⟩

/-- A call that reads a frame has paid for the next one. -/
theorem Work.trade_pull {ph : Phase} {st : σ} {k : α → Prog σ α Status} {f : α} {rest : List α} (h0 : i = 0)
    (items : (s.queue 0).items = f :: rest) (h : Carries net.n lt i (.calling ph (.pull st k)) A) :
    ∃ A', Carries net.n lt i (.calling ph (k f)) A' ∧ Trade net.n lt s.queue (s.take 0 f).queue A A' := by
  have taken := frames_take (σ := σ) (Nat.zero_le net.n) s items
  have given : Less net.n lt (.run i (k f)) (.run i (.pull st k)) := .given
  have same : ∀ C, Trade net.n lt s.queue (s.take 0 f).queue (C + {.run i (.pull st k)}) (C + {.run i (k f)}) := by
    intro C
    refine ⟨C, _, _, frames net.n (s.take 0 f).queue, {.frame 0}, 0, rfl, rfl, taken, (add_zero _).symm, by simp, ?_⟩
    intro y hy
    rw [add_zero, Multiset.mem_singleton] at hy
    exact ⟨.run i (.pull st k), by simp, hy ▸ given⟩
  cases h with
  | call pos => omega
  | @held st' _ _ _ =>
    refine ⟨_, .paid h0, {.serve i}, {.held st'} + {.run i (.pull st k)}, {.credit} + {.run i (k f)},
      frames net.n (s.take 0 f).queue, {.frame 0}, 0, rfl, rfl, taken, (add_zero _).symm, by simp, ?_⟩
    intro y hy
    rw [add_zero] at hy
    rcases Multiset.mem_add.mp hy with credit | run
    · rw [Multiset.mem_singleton.mp credit]
      exact ⟨.frame 0, by simp, .read⟩
    · rw [Multiset.mem_singleton.mp run]
      exact ⟨.run i (.pull st k), by simp, given⟩
  | paid =>
    refine ⟨_, .paid h0, ?_⟩
    rw [← add_assoc, ← add_assoc]
    exact same _
  | flush => exact ⟨_, .flush, same _⟩
  | out past => exact past.elim

/-- A call that is over, from the top of the loop to the top of the loop. -/
theorem Work.trade_again {st : σ} (h : Carries net.n lt i (.calling .process (.ret st .ok)) A) :
    ∃ A', Carries net.n lt i (.loop st) A' ∧ Trade net.n lt s.queue s.queue A A' := by
  cases h with
  | call pos =>
    refine ⟨_, .loop pos, ?_⟩
    have gone : Trade net.n lt s.queue s.queue ({.serve i} + {.run i (.ret st .ok)}) ({.serve i} + 0) :=
      trade_loads rfl (by simp) (by simp)
    rwa [add_zero] at gone
  | @held st' _ h0 shrinks =>
    refine ⟨_, .turn h0, trade_loads rfl (by simp) fun y hy => ⟨.held st', by simp, ?_⟩⟩
    rw [Multiset.mem_singleton.mp hy]
    exact .shrink (shrinks rfl)
  | paid h0 =>
    refine ⟨_, .turn h0, trade_loads rfl (by simp) fun y hy => ⟨.credit, by simp, ?_⟩⟩
    rw [Multiset.mem_singleton.mp hy]
    exact .spend
  | out past => exact past.elim

/-- To its flush. -/
theorem trade_flush {q : Nat → BoundedQueue α} {p : Prog σ α Status} (hi : i < net.n) (serves : Load.serve i ∈ A) :
    ∃ A', Carries net.n lt i (.calling .flush p) A' ∧ Trade net.n lt q q A A' := by
  refine ⟨_, .flush, trade_all serves rfl fun y hy => ?_⟩
  rcases Multiset.mem_add.mp hy with leave | run
  · rw [Multiset.mem_singleton.mp leave]
    exact .flush
  · rw [Multiset.mem_singleton.mp run]
    exact .flushRun hi

/-- Out of its calls, or further on its way out. -/
theorem trade_out {n : Nat} {q q' : Nat → BoundedQueue α} {pc : Pc σ α} {a : Load σ α} (past : pc.Past)
    (same : frames (σ := σ) n q' = frames n q) (mem : a ∈ A) (lower : Less n lt (.leave (wayOut n pc)) a) :
    ∃ A', Carries n lt i pc A' ∧ Trade n lt q q' A A' :=
  ⟨_, .out past, trade_all mem same fun y hy => by rw [Multiset.mem_singleton.mp hy]; exact lower⟩

/-- **Every step of a worker trades loads for lighter ones.** -/
theorem Work.trade (source : SourceEnds net lt) (steady : Steady net s) (hi : i < net.n) (w : Work net s i t)
    (h : Carries net.n lt i (s.pc i) A) :
    ∃ A', Carries net.n lt i (t.pc i) A' ∧ Trade net.n lt s.queue t.queue A A' := by
  have onWay : ∀ {pc pc' : Pc σ α} {q' : Nat → BoundedQueue α}, s.pc i = pc →
      pc.Past → pc'.Past → wayOut net.n pc' < wayOut net.n pc → frames (σ := σ) net.n q' = frames net.n s.queue →
      ∃ A', Carries net.n lt i pc' A' ∧ Trade net.n lt s.queue q' A A' := by
    intro pc pc' q' hpc past past' less same
    rw [hpc] at h
    obtain rfl := h.wayOut past
    exact trade_out past' same (Multiset.mem_singleton_self _) (.leave less)
  cases w <;> rw [State.goto_pc, Function.update_self]
  case call st h0 hpc =>
    rw [hpc] at h
    cases h with
    | loop pos => omega
    | turn =>
      subst h0
      refine ⟨_, .held rfl (source.shrinks st), trade_loads rfl (by simp) fun y hy => ⟨.turn st, by simp, ?_⟩⟩
      rcases Multiset.mem_add.mp hy with held | run
      · rw [Multiset.mem_singleton.mp held]
        exact .hold
      · rw [Multiset.mem_singleton.mp run]
        exact .call
    | out past => exact past.elim
  case take st f rest pos hpc items =>
    rw [hpc] at h
    cases h with
    | loop =>
      refine ⟨_, .call pos, {.serve i}, 0, _, frames net.n (s.take i f).queue, {.frame i}, 0, (add_zero _).symm, rfl,
        frames_take (Nat.le_of_lt hi) s items, (add_zero _).symm, by simp, fun y hy => ⟨.frame i, by simp, ?_⟩⟩
      rw [add_zero, Multiset.mem_singleton] at hy
      exact hy ▸ .hand hi
    | turn => omega
    | out past => exact past.elim
  case takeEof pos hpc _ _ =>
    rw [hpc] at h
    cases h with
    | loop => exact trade_flush hi (Multiset.mem_singleton_self _)
    | turn => omega
    | out past => exact past.elim
  case takeEnd pos hpc _ _ _ =>
    rw [hpc] at h
    cases h with
    | loop => exact trade_out trivial rfl (Multiset.mem_singleton_self _) .flush
    | turn => omega
    | out past => exact past.elim
  case emit hpc _ _ =>
    rw [hpc] at h
    exact Work.trade_emit hi h
  case emitEnd ph f k e hpc ended =>
    have hard : e.isHard = true := by
      rcases steady.sound.ends _ e ended with rfl | hard
      · have finished := steady.closed i ended
        rw [hpc] at finished
        exact finished.elim
      · exact hard
    rw [hpc] at h
    exact Work.trade_told h (fun st shrinks => shrinks e (.inr hard)) .told
  case pull h0 hpc items =>
    rw [hpc] at h
    exact Work.trade_pull h0 items h
  case pullEnd ph st k e h0 hpc _ ended =>
    rw [hpc] at h
    refine Work.trade_told h (fun _ _ ok => ?_) .ended
    subst ok
    rcases steady.sound.ends _ _ ended with eof | hard
    · cases eof
    · cases hard
  case again hpc =>
    rw [hpc] at h
    exact Work.trade_again h
  case sourceEof h0 hpc =>
    rw [hpc] at h
    exact trade_flush hi h.serves
  case fail hpc _ _ =>
    rw [hpc] at h
    exact trade_out trivial rfl h.serves .flush
  case flushed hpc =>
    rw [hpc] at h
    cases h with
    | flush => exact trade_out (a := .leave (net.n + 5)) trivial rfl (by simp) (.leave (by simp [wayOut]))
    | out past => exact past.elim
  case flushFail hpc _ =>
    rw [hpc] at h
    cases h with
    | flush => exact trade_out (a := .leave (net.n + 5)) trivial rfl (by simp) (.leave (by simp [wayOut]))
    | out past => exact past.elim
  case close hpc =>
    exact onWay hpc trivial trivial (by simp [wayOut]) (frames_setQueue s rfl)
  case filtered hpc _ =>
    exact onWay hpc trivial trivial (by simp [wayOut]) rfl
  case second hpc _ =>
    exact onWay hpc trivial trivial (by simp [wayOut]) rfl
  case first hpc _ _ =>
    exact onWay hpc trivial trivial (by simp [wayOut]) rfl
  case cancel hpc more =>
    exact onWay hpc trivial trivial (by simp only [wayOut]; omega) (frames_setQueue s (BoundedQueue.items_cancel _ _))
  case cancelled hpc _ =>
    exact onWay hpc trivial trivial (by simp [wayOut]) rfl
  case leaveSink hpc _ =>
    exact onWay hpc trivial trivial (by simp [wayOut]) (frames_setQueue s (BoundedQueue.items_cancel _ _))
  case leave hpc _ =>
    exact onWay hpc trivial trivial (by simp [wayOut]) rfl
  case exit hpc =>
    exact onWay hpc trivial trivial (by simp [wayOut]) rfl

end Worker

/-! ## Runs -/

/-- All that is left to do, while no frame can come in. -/
structure Burden (net : Net σ α) (lt : σ → σ → Prop) (s : State σ α) (B : Multiset (Load σ α)) : Prop where
  steady : Steady net s
  ended : s.Ended 0
  loads : ∃ m : Nat → Multiset (Load σ α), (∀ i < net.n, Carries net.n lt i (s.pc i) (m i)) ∧
    B = frames net.n s.queue + ∑ i ∈ Finset.range net.n, m i

section Burden

variable {net : Net σ α} {lt : σ → σ → Prop} {s t : State σ α} {B : Multiset (Load σ α)}

/-- There is always a finite number of things to do. -/
theorem Steady.burden (lt : σ → σ → Prop) (h : Steady net s) (ended : s.Ended 0) : ∃ B, Burden net lt s B := by
  have carries : ∀ i, ∃ A, Carries net.n lt i (s.pc i) A := by
    intro i
    have past : (s.pc i).Past → ∃ A, Carries net.n lt i (s.pc i) A := fun past => ⟨_, .out past⟩
    cases hpc : s.pc i with
    | loop st =>
      rcases Nat.eq_zero_or_pos i with h0 | pos
      · exact ⟨_, .turn h0⟩
      · exact ⟨_, .loop pos⟩
    | calling ph p =>
      cases ph with
      | flush => exact ⟨_, .flush⟩
      | process =>
        rcases Nat.eq_zero_or_pos i with h0 | pos
        · exact ⟨_, .paid h0⟩
        · exact ⟨_, .call pos⟩
    | _ => exact ⟨_, .out trivial⟩
  choose m carries using carries
  exact ⟨_, h, ended, m, fun i _ => carries i, rfl⟩

/-- **A step of a worker trades part of what is left for something lighter.** -/
theorem Burden.work (source : SourceEnds net lt) (hnet : WellBehaved net) (hpull : PullsAtSource net)
    (h : Burden net lt s B) {i : Nat} (hi : i < net.n) (step : Executor.work net s i = some t) :
    ∃ X Y rest, B = X + rest ∧ Burden net lt t (Y + rest) ∧ X ≠ 0 ∧ ∀ y ∈ Y, ∃ x ∈ X, Less net.n lt y x := by
  have w := work_spec step
  obtain ⟨m, carries, rfl⟩ := h.loads
  obtain ⟨A', carries', C, X, Y, G, P, N, mine, rfl, before, after, some, below⟩ :=
    w.trade source h.steady hi (carries i hi)
  have mem : i ∈ Finset.range net.n := Finset.mem_range.mpr hi
  have others : ∑ j ∈ Finset.range net.n, m j = (C + X) + ∑ j ∈ (Finset.range net.n).erase i, m j := by
    rw [← mine, Finset.add_sum_erase _ _ mem]
  have others' : ∑ j ∈ Finset.range net.n, Function.update m i (C + Y) j =
      (C + Y) + ∑ j ∈ (Finset.range net.n).erase i, m j := by
    rw [← Finset.add_sum_erase _ _ mem, Function.update_self]
    congr 1
    exact Finset.sum_congr rfl fun j hj => Function.update_of_ne (Finset.ne_of_mem_erase hj) _ _
  refine ⟨X + P, Y + N, G + (C + ∑ j ∈ (Finset.range net.n).erase i, m j), ?_, ?_, some, below⟩
  · rw [before, others]
    ac_rfl
  · refine ⟨h.steady.worker hnet hpull hi w, w.ended 0 h.ended, Function.update m i (C + Y), fun j hj => ?_, ?_⟩
    · by_cases hji : j = i
      · subst hji
        rw [Function.update_self]
        exact carries'
      · rw [Function.update_of_ne hji, w.pc_other hji]
        exact carries j hj
    · rw [after, others']
      ac_rfl

/-- A frame the owner pulls is one thing less to do. -/
theorem Burden.pull (h : Burden net lt s B) (steady : Steady net t) (step : Executor.step net s .pull = some t) :
    ∃ X Y rest, B = X + rest ∧ Burden net lt t (Y + rest) ∧ X ≠ 0 ∧ ∀ y ∈ Y, ∃ x ∈ X, Less net.n lt y x := by
  obtain ⟨m, carries, rfl⟩ := h.loads
  simp only [Executor.step] at step
  split at step
  · rename_i f rest items
    cases step
    refine ⟨{.frame net.n}, 0, frames net.n (s.take net.n f).queue + ∑ i ∈ Finset.range net.n, m i, ?_, ?_, by simp,
      by simp⟩
    · rw [frames_take (Nat.le_refl _) s items]
      ac_rfl
    · exact ⟨steady, (later_take s net.n f).ended 0 h.ended, m, carries, zero_add _⟩
  · cases step

end Burden

/-- What happens while the owner only pulls. -/
def Next (net : Net σ α) (s t : State σ α) : Prop := (∃ i < net.n, work net s i = some t) ∨ step net s .pull = some t

/-- Every worker has returned, and `wait` gives the error. -/
def Joined (net : Net σ α) (s : State σ α) : Prop :=
  (∀ i < net.n, ∃ why, s.pc i = .exited why) ∧ wait s = some s.error

/-- What is left to do comes to an end. -/
theorem Burden.ends {net : Net σ α} {lt : σ → σ → Prop} {s : State σ α} {B : Multiset (Load σ α)}
    (hnet : WellBehaved net) (hpull : PullsAtSource net) (source : SourceEnds net lt) (burden : Burden net lt s B) :
    Ends (Next net) (Joined net) s := by
  refine Ends.of_loads (less_wf (n := net.n) source.wf) (Burden net lt) (fun s B t hs next => ?_)
    (fun s B hs stop => ?_) burden
  · rcases next with ⟨i, hi, step⟩ | step
    · exact hs.work source hnet hpull hi step
    · exact hs.pull (hs.steady.step hnet hpull step) step
  · rcases hs.steady.progress with ⟨i, hi, t, step⟩ | exited | frame | room
    · exact absurd (.inl ⟨i, hi, step⟩) (stop t)
    · exact ⟨exited, hs.steady.waited exited⟩
    · have ended := hs.ended
      simp [State.Ended, frame.dry.2] at ended
    · obtain ⟨f, _, -, pull⟩ := room.pull (hs.steady.room net.n)
      exact absurd (.inr pull) (stop _)

end Rkvc.Executor
