import Rkvc.Pspack.Receive

/-!
# What a receiver can do with a stream

Between two chunks the demuxer holds the stream from some position on
(`Demux.left`), and this position may lie up to three bytes before the end of a
packet that has completed no access unit. `Runs` takes the turns of the loop with
that freedom, on the stream as a whole and with no regard to chunks; whatever a
receiver does is such a run (`receive_runs`).
-/

namespace Rkvc.Pspack
set_option autoImplicit false

open Lib

/-- The turns on a stream, the log of what was come to, and what is left of the stream. -/
inductive Runs : Assembly → List UInt8 → List Visit → Assembly → List UInt8 → Prop where
  | refl {a w} : Runs a w [] a w
  /-- Come to a start code and do nothing. -/
  | see {a w sc log b v} : find startCode w = some sc → Runs a w log b v →
      Runs a w ({ ahead := w.length - sc } :: log) b v
  /-- Go on at the end of a packet, or up to three bytes before. -/
  | go {a w sc n r k log b v} : find startCode w = some sc → turn a w = some (n, r) → k ≤ 3 →
      (r.frame = none ∨ k = 0) → Runs r.assembly (w.drop (n - k)) log b v → Runs a w (r.visit w sc n :: log) b v

/-- The frames of a log. -/
def logged (log : List Visit) : List Frame := log.filterMap Visit.frame

/-- A stream that has lost bytes in front of its first start code. -/
def Trimmed (u v : List UInt8) : Prop := ∃ i ≤ u.length, (∀ j < i, ¬startCode <+: u.drop j) ∧ v = u.drop i

variable {a b c : Assembly} {u v w y : List UInt8} {log log' : List Visit}

theorem logged_append (log log' : List Visit) : logged (log ++ log') = logged log ++ logged log' :=
  List.filterMap_append

theorem logged_cons (e : Visit) (log : List Visit) : logged (e :: log) = e.frame.toList ++ logged log := by
  unfold logged
  cases h : e.frame with
  | none => rw [List.filterMap_cons_none h]; rfl
  | some f => rw [List.filterMap_cons_some h]; rfl

namespace Runs

theorem trans (h : Runs a w log b v) (k : Runs b v log' c u) : Runs a w (log ++ log') c u := by
  induction h with
  | refl => exact k
  | see hsc _ ih => exact .see hsc (ih k)
  | go hsc ht hk quiet _ ih => exact .go hsc ht hk quiet (ih k)

end Runs

namespace Trimmed

theorem refl (w : List UInt8) : Trimmed w w := ⟨0, Nat.zero_le _, nofun, rfl⟩

theorem trans (h : Trimmed u v) (k : Trimmed v w) : Trimmed u w := by
  obtain ⟨i, hi, clear, rfl⟩ := h
  obtain ⟨j, hj, clear', rfl⟩ := k
  rw [List.length_drop] at hj
  refine ⟨i + j, by omega, fun m hm => ?_, List.drop_drop⟩
  by_cases before : m < i
  · exact clear m before
  · have := clear' (m - i) (by omega)
    rwa [List.drop_drop, show i + (m - i) = m by omega] at this

theorem nextPacket (h : Trimmed u v) : Pspack.nextPacket u = none ↔ Pspack.nextPacket v = none := by
  obtain ⟨i, -, clear, rfl⟩ := h
  rw [nextPacket_drop clear, Option.map_eq_none_iff]

theorem turn (h : Trimmed u v) : Pspack.turn a u = none ↔ Pspack.turn a v = none := by
  obtain ⟨i, -, clear, rfl⟩ := h
  rw [turn_drop clear, Option.map_eq_none_iff]

theorem refused (h : Trimmed u v) (k : Refused a v) : Refused a u := by
  obtain ⟨i, -, clear, rfl⟩ := h
  exact (refused_drop clear).mpr k

/-- **Bytes in front of the first start code can be put back.** -/
theorem runs (h : Trimmed u v) (k : Runs a v log b w) : ∃ w', Runs a u log b w' ∧ Trimmed w' w := by
  induction k generalizing u with
  | refl => exact ⟨u, .refl, h⟩
  | @see a v sc log b w hsc _ ih =>
    obtain ⟨w', run, trimmed⟩ := ih h
    obtain ⟨i, hi, clear, rfl⟩ := h
    refine ⟨w', ?_, trimmed⟩
    rw [List.length_drop, Nat.sub_sub]
    exact .see (by rw [find_drop clear, hsc, Option.map_some, Nat.add_comm]) run
  | @go a v sc n r k log b w hsc ht hk quiet rest ih =>
    obtain ⟨i, hi, clear, rfl⟩ := h
    have progress := turn_progress ht
    have visit : r.visit (u.drop i) sc n = r.visit u (sc + i) (n + i) := by
      simp only [Reaction.visit, List.length_drop, Nat.sub_sub, Nat.add_comm i]
    rw [visit]
    refine ⟨w, .go ?_ ?_ hk quiet ?_, .refl w⟩
    · rw [find_drop clear, hsc, Option.map_some]
    · rw [turn_drop clear, ht, Option.map_some]
    · rw [List.drop_drop] at rest
      rwa [show n + i - k = i + (n - k) by omega]

end Trimmed

/-! ## One call of `next` -/

/-- Visits that take nothing, the first of them at the first start code of `v`. -/
structure IdleLog (y v : List UInt8) (log : List Visit) : Prop where
  idle : ∀ e ∈ log, e.taken = none ∧ e.frame = none
  first : ∃ sc, find startCode v = some sc ∧ (∃ e ∈ log, e.ahead = (v ++ y).length - sc) ∧
    ∀ e ∈ log, e.ahead ≤ (v ++ y).length - sc

theorem IdleLog.logged (h : IdleLog y v log) : Pspack.logged log = [] := by
  unfold Pspack.logged
  rw [List.filterMap_eq_nil_iff]
  exact fun e he => (h.idle e he).2

/-- The scan stops at a refused packet: the packets before it that took something, and
those behind that take nothing. -/
structure Halted (y : List UInt8) (a : Assembly) (w : List UInt8) (log : List Visit) (b : Assembly)
    (c : Option VideoCodec) (v : List UInt8) : Prop where
  run : ∃ took idle a', log = took ++ idle ∧ (∃ u, Runs a w took a' u ∧ Trimmed u (v ++ y)) ∧ Blocked a' v c ∧
    b = a'.setPsm c ∧ IdleLog y v idle
  all : ∃ u, Runs a w log b u ∧ Refused b u

/-- What a call of `next` has come to from `pos` on, by a run from `w`. -/
inductive Called (y : List UInt8) (s : Demux) (pos : Nat) (w : List UInt8) (log : List Visit) :
    Result Frame → Demux → Prop where
  | frame {f : Frame} {s' : Demux} (consumed : pos < s'.cursor)
      (run : Runs s.toAssembly w log s'.toAssembly (s'.left ++ y)) (frames : logged log = [f]) :
      Called y s pos w log (.ok f) s'
  | again {s' : Demux} {u : List UInt8} (run : Runs s.toAssembly w log s'.toAssembly u)
      (trimmed : Trimmed u (s'.left ++ y)) (frames : logged log = []) (drained : nextPacket s'.left = none) :
      Called y s pos w log (.error { status := .again }) s'
  | format {s' : Demux} {c : Option VideoCodec} (halted : Halted y s.toAssembly w log s'.toAssembly c s'.left)
      (frames : logged log = []) : Called y s pos w log (.error { status := .format }) s'
  /-- Nothing was taken, so the cursor has not moved. -/
  | blocked {s' : Demux} {c : Option VideoCodec} (unmoved : s'.cursor = s.cursor)
      (blocked : Blocked s.toAssembly (s.buf.drop pos) c) (codec : s'.toAssembly = s.setPsm c)
      (idle : IdleLog y (s.buf.drop pos) log)
      (all : ∃ u, Runs s.toAssembly w log s'.toAssembly u ∧ Refused s'.toAssembly u) :
      Called y s pos w log (.error { status := .format }) s'

section Call

variable {s : Demux} {fuel pos n sc : Nat} {r : Reaction} {p : Packet}

theorem visitsLoop_turn (hsc : find startCode (s.buf.drop pos) = some sc)
    (ht : turn s.toAssembly (s.buf.drop pos) = some (n, r)) :
    Demux.visitsLoop y (fuel + 1) s pos = r.visit (s.buf.drop pos ++ y) sc n :: match r.frame with
      | some _ => []
      | none => Demux.visitsLoop y fuel (s.moved r (pos + n)) (pos + n) := by
  cases frame : r.frame <;> simp only [Demux.visitsLoop, hsc, ht, frame]

theorem visitsLoop_stop (hsc : find startCode (s.buf.drop pos) = some sc)
    (ht : turn s.toAssembly (s.buf.drop pos) = none) :
    Demux.visitsLoop y (fuel + 1) s pos = [{ ahead := (s.buf.drop pos ++ y).length - sc }] := by
  simp only [Demux.visitsLoop, hsc, ht]

/-- Where the bytes run out, the loop waits at the start code, or goes back. -/
theorem called_wait (inside : pos ≤ s.buf.length) (hp : nextPacket (s.buf.drop pos) = none) :
    ∃ k ≤ 3, k ≤ pos ∧ s.resumeAt pos ≤ s.buf.length ∧
      Called y s pos (s.buf.drop (pos - k) ++ y) (Demux.visitsLoop y (fuel + 1) s pos)
        (.error { status := .again }) { s with cursor := s.resumeAt pos } := by
  have stops : turn s.toAssembly (s.buf.drop pos) = none := by rw [turn, hp, Option.bind_none]
  -- a later cursor loses bytes in front of the first start code
  have forward : ∀ {i : Nat}, pos + i ≤ s.buf.length → (∀ j < i, ¬startCode <+: (s.buf.drop pos ++ y).drop j) →
      Trimmed (s.buf.drop pos ++ y) (s.buf.drop (pos + i) ++ y) ∧ nextPacket (s.buf.drop (pos + i)) = none := by
    intro i hi clear
    have room : i ≤ (s.buf.drop pos).length := by rw [List.length_drop]; omega
    have own : ∀ j < i, ¬startCode <+: (s.buf.drop pos).drop j := fun j hj before =>
      clear j hj (prefix_append_right before (by omega))
    refine ⟨⟨i, by rw [List.length_append]; omega, clear, ?_⟩, ?_⟩
    · rw [List.drop_append_of_le_length room, List.drop_drop]
    · rw [nextPacket_drop own, List.drop_drop] at hp
      exact Option.map_eq_none_iff.mp hp
  unfold Demux.resumeAt
  cases hsc : find startCode (s.buf.drop pos) with
  | some sc =>
    have bound := (find_some hsc).2
    rw [List.length_drop] at bound
    obtain ⟨trimmed, drained⟩ := forward (i := sc) (by omega) fun j hj => find_min (find_append hsc) hj
    rw [visitsLoop_stop hsc stops]
    exact ⟨0, Nat.zero_le 3, Nat.zero_le pos, by dsimp only; omega, .again (.see (find_append hsc) .refl) trimmed rfl drained⟩
  | none =>
    have none_seen : Demux.visitsLoop y (fuel + 1) s pos = [] := by simp only [Demux.visitsLoop, hsc]
    dsimp only
    generalize hc : (if s.buf.length > 3 then s.buf.length - 3 else 0) = c
    have edge : c = s.buf.length - 3 := by rw [← hc]; split <;> omega
    rw [none_seen]
    by_cases later : pos ≤ c
    · obtain ⟨i, rfl⟩ : ∃ i, c = pos + i := ⟨c - pos, by omega⟩
      obtain ⟨trimmed, drained⟩ := forward (i := i) (by omega) fun j hj before => by
        refine find_none startCode_ne hsc j (prefix_of_append before ?_)
        simp only [startCode, List.length_cons, List.length_nil, List.length_drop]
        omega
      exact ⟨0, Nat.zero_le 3, Nat.zero_le pos, by omega, .again .refl trimmed rfl drained⟩
    · refine ⟨pos - c, by omega, by omega, by omega, .again .refl ?_ rfl ?_⟩
      · rw [Nat.sub_sub_self (by omega)]
        exact .refl _
      · exact nextPacket_short (by rw [Demux.left, List.length_drop]; dsimp only; omega)

/-- A refused packet is come to and left where it is. -/
theorem called_refused (hp : nextPacket (s.buf.drop pos) = some (n, p)) (hr : react s.toAssembly p = none) :
    Called y s pos (s.buf.drop pos ++ y) (Demux.visitsLoop y (fuel + 1) s pos) (.error { status := .format }) s := by
  have stops : turn s.toAssembly (s.buf.drop pos) = none := by
    simp only [turn, hp, Option.bind_some, hr, Option.map_none]
  obtain ⟨sc, hsc, -⟩ := nextPacket_some hp
  rw [visitsLoop_stop hsc stops]
  refine .blocked (c := none) rfl (.here hp hr) rfl ⟨by simp, sc, hsc, by simp, by simp⟩ ?_
  exact ⟨_, .see (find_append hsc) .refl, n, p, nextPacket_append hp y, hr⟩

/-- The cursor behind a turn. -/
theorem moved_left (taken : r.taken = true) : (s.moved r (pos + n)).left = s.buf.drop (pos + n) := by
  rw [Demux.left, Demux.moved, if_pos taken]

/-- A turn in front of what the loop comes to afterwards. -/
theorem Called.turn {k : Nat} {res : Result Frame} {s' : Demux} {log : List Visit}
    (hsc : find startCode (s.buf.drop pos) = some sc) (ht : turn s.toAssembly (s.buf.drop pos) = some (n, r))
    (hp : nextPacket (s.buf.drop pos) = some (n, p)) (hr : react s.toAssembly p = some r)
    (quiet : r.frame = none) (hk : k ≤ 3) (buf : s'.buf = s.buf)
    (called : Called y (s.moved r (pos + n)) (pos + n) (s.buf.drop (pos + n - k) ++ y) log res s') :
    Called y s pos (s.buf.drop pos ++ y) (r.visit (s.buf.drop pos ++ y) sc n :: log) res s' := by
  obtain ⟨far, bound⟩ := turn_progress ht
  rw [List.length_drop] at bound
  have cut : ∀ m ≤ n, (s.buf.drop pos ++ y).drop m = s.buf.drop (pos + m) ++ y := fun m hm => by
    rw [List.drop_append_of_le_length (by rw [List.length_drop]; omega), List.drop_drop]
  have step : ∀ {log b v}, Runs r.assembly (s.buf.drop (pos + n - k) ++ y) log b v →
      Runs s.toAssembly (s.buf.drop pos ++ y) (r.visit (s.buf.drop pos ++ y) sc n :: log) b v := fun run =>
    .go (find_append hsc) (turn_append ht y) hk (.inl quiet) (by
      rwa [cut (n - k) (Nat.sub_le n k), ← Nat.add_sub_assoc (by omega)])
  have frames : logged (r.visit (s.buf.drop pos ++ y) sc n :: log) = logged log := by
    rw [logged_cons, show (r.visit (s.buf.drop pos ++ y) sc n).frame = none from quiet]
    rfl
  cases called with
  | frame consumed run shown => exact .frame (by omega) (step run) (frames.trans shown)
  | again run trimmed shown drained => exact .again (step run) trimmed (frames.trans shown) drained
  | format halted shown =>
    obtain ⟨⟨took, idle, a', rfl, ⟨u, run, trimmed⟩, blocked, codec, tail⟩, v, all, refused⟩ := halted
    exact .format ⟨⟨_ :: took, idle, a', rfl, ⟨u, step run, trimmed⟩, blocked, codec, tail⟩, v, step all, refused⟩
      (frames.trans shown)
  | @blocked s' c unmoved blocked codec idle all =>
    obtain ⟨v, all, refused⟩ := all
    by_cases taken : r.taken = true
    · have here : (s.moved r (pos + n)).cursor = pos + n := if_pos taken
      have left : s'.left = s.buf.drop (pos + n) := by rw [Demux.left, unmoved, here, buf]
      refine .format (c := c) ⟨⟨[_], log, r.assembly, rfl, ⟨_, .go (find_append hsc) (turn_append ht y)
        (Nat.zero_le 3) (.inr rfl) .refl, ?_⟩, ?_, codec, ?_⟩, v, step all, refused⟩ (frames.trans idle.logged)
      · rw [Nat.sub_zero, cut n (Nat.le_refl n), left]
        exact .refl _
      · rw [left]
        exact blocked
      · rw [left]
        exact idle
    · obtain rfl := react_idle hr (by simpa using taken)
      refine .blocked (c := c.or p.codec) unmoved (.pass hp hr ?_) ?_ ?_ ⟨v, step all, refused⟩
      · rw [List.drop_drop]
        exact blocked
      · rw [codec, ← setPsm_setPsm]
        rfl
      · obtain ⟨quiet', sc', hsc', -, bounds⟩ := idle
        refine ⟨?_, sc, hsc, ⟨_, List.mem_cons_self, rfl⟩, ?_⟩
        · intro e he
          rcases List.mem_cons.mp he with rfl | he
          · exact ⟨rfl, rfl⟩
          · exact quiet' e he
        · intro e he
          rcases List.mem_cons.mp he with rfl | he
          · exact Nat.le_refl _
          · have later := bounds e he
            have before := (nextPacket_some hp)
            obtain ⟨sc₀, hsc₀, -, -, stop⟩ := before
            obtain rfl := Option.some.inj (hsc.symm.trans hsc₀)
            simp only [List.length_append, List.length_drop, Demux.moved] at later ⊢
            omega

/-- **One call of `next`** takes turns of a run. -/
theorem nextLoop_runs (inside : pos ≤ s.buf.length) (cursor : s.cursor ≤ s.buf.length)
    (enough : s.buf.length < fuel + pos) :
    ∃ res s' k, Demux.nextLoop fuel s pos = some (res, s') ∧ s'.buf = s.buf ∧ s'.cursor ≤ s.buf.length ∧ k ≤ 3 ∧
      k ≤ pos ∧ Called y s pos (s.buf.drop (pos - k) ++ y) (Demux.visitsLoop y fuel s pos) res s' := by
  induction fuel generalizing s pos with
  | zero => omega
  | succ fuel ih =>
    cases hp : nextPacket (s.buf.drop pos) with
    | none =>
      obtain ⟨k, hk, hpos, resume, called⟩ := called_wait (y := y) inside hp
      exact ⟨_, _, k, Demux.nextLoop_wait hp, rfl, resume, hk, hpos, called⟩
    | some np =>
      obtain ⟨n, p⟩ := np
      cases hr : react s.toAssembly p with
      | none =>
        exact ⟨_, _, 0, Demux.nextLoop_refused hp hr, rfl, cursor, Nat.zero_le 3, Nat.zero_le pos, called_refused hp hr⟩
      | some r =>
        have ht := turn_of_react hp hr
        obtain ⟨sc, hsc, -⟩ := nextPacket_some hp
        obtain ⟨far, bound⟩ := turn_progress ht
        rw [List.length_drop] at bound
        have moved : (s.moved r (pos + n)).cursor ≤ s.buf.length := by
          simp only [Demux.moved]
          split <;> omega
        rw [Demux.nextLoop_turn ht, visitsLoop_turn hsc ht]
        cases hf : r.frame with
        | some f =>
          have taken : r.taken = true := by
            by_contra idle
            rw [react_idle hr (by simpa using idle)] at hf
            cases hf
          have stop : (s.moved r (pos + n)).cursor = pos + n := if_pos taken
          refine ⟨_, _, 0, rfl, rfl, moved, Nat.zero_le 3, Nat.zero_le pos, .frame (by omega) ?_ ?_⟩
          · refine .go (find_append hsc) (turn_append ht y) (Nat.zero_le 3) (.inr rfl) ?_
            rw [moved_left taken, Nat.sub_zero, List.drop_append_of_le_length (by rw [List.length_drop]; omega),
              List.drop_drop]
            exact .refl
          · rw [logged_cons, show (r.visit (s.buf.drop pos ++ y) sc n).frame = some f from hf]
            rfl
        | none =>
          obtain ⟨res, s', k, eq, buf, cursor', hk, -, called⟩ :=
            @ih (s.moved r (pos + n)) (pos + n) (by simp only [Demux.moved]; omega) moved
              (by simp only [Demux.moved]; omega)
          exact ⟨res, s', 0, eq, buf, cursor', Nat.zero_le 3, Nat.zero_le pos, called.turn hsc ht hp hr hf hk buf⟩

theorem next_runs (s : Demux) (y : List UInt8) :
    ∃ res s', s.next = some (res, s') ∧ s'.buf = s.left ∧ s'.cursor ≤ s'.buf.length ∧
      Called y s.erase 0 (s.left ++ y) (s.visits y) res s' := by
  obtain ⟨res, s', k, eq, buf, cursor, -, hk, called⟩ :=
    nextLoop_runs (y := y) (s := s.erase) (Nat.zero_le _) (Nat.zero_le _) (Nat.lt_succ_self _)
  obtain rfl := Nat.le_zero.mp hk
  exact ⟨res, s', eq, buf, by rw [buf]; exact cursor, called⟩

end Call

/-! ## The calls for a chunk -/

section Drain

variable {s : Demux} {fuel : Nat}

/-- How the calls for one chunk end. -/
inductive Drained (y : List UInt8) (s : Demux) (log : List Visit) : Status → Demux → Prop where
  | again {s' : Demux} {u : List UInt8} (run : Runs s.toAssembly (s.left ++ y) log s'.toAssembly u)
      (trimmed : Trimmed u (s'.left ++ y)) (drained : nextPacket s'.left = none) : Drained y s log .again s'
  | format {s' : Demux} {c : Option VideoCodec}
      (halted : Halted y s.toAssembly (s.left ++ y) log s'.toAssembly c s'.left) : Drained y s log .format s'

theorem drainLoop_runs (enough : s.left.length < fuel) :
    ∃ fs st s', s.drainLoop fuel = some (fs, st, s') ∧ fs = logged (s.drainVisits y fuel) ∧
      s'.cursor ≤ s'.buf.length ∧ Drained y s (s.drainVisits y fuel) st s' := by
  induction fuel generalizing s with
  | zero => exact absurd enough (Nat.not_lt_zero _)
  | succ fuel ih =>
    obtain ⟨res, s', eq, buf, cursor, called⟩ := next_runs s y
    rw [Demux.drainLoop, Demux.drainVisits, eq]
    cases called with
    | frame consumed run frames =>
      have shorter : s'.left.length < fuel := by
        rw [Demux.left, List.length_drop]
        rw [← buf] at enough
        omega
      obtain ⟨fs, st, t, eq', rfl, inside, drained⟩ := ih shorter
      refine ⟨_, _, _, by simp only [eq']; rfl, by rw [logged_append, frames]; rfl, inside, ?_⟩
      cases drained with
      | again run' trimmed empty => exact .again (run.trans run') trimmed empty
      | format halted =>
        obtain ⟨⟨took, idle, a', split, ⟨u, run', trimmed⟩, blocked, codec, tail⟩, v, all, refused⟩ := halted
        refine .format ⟨⟨s.visits y ++ took, idle, a', ?_, ⟨u, run.trans run', trimmed⟩, blocked, codec, tail⟩, v,
          run.trans all, refused⟩
        simp only [split, List.append_assoc]
    | again run trimmed frames drained =>
      refine ⟨_, _, _, rfl, ?_, cursor, ?_⟩
      · simp only [List.append_nil, frames]
      · simp only [List.append_nil]
        exact .again run trimmed drained
    | format halted frames =>
      refine ⟨_, _, _, rfl, ?_, cursor, ?_⟩
      · simp only [List.append_nil, frames]
      · simp only [List.append_nil]
        exact .format halted
    | @blocked _ c unmoved blocked codec idle all =>
      -- the cursor was at the beginning of the call
      have left : s'.left = s.left := by rw [Demux.left, buf, unmoved]; rfl
      refine ⟨_, _, _, rfl, ?_, cursor, ?_⟩
      · simp only [List.append_nil, idle.logged]
      · simp only [List.append_nil]
        refine .format (c := c) ⟨⟨[], _, s.toAssembly, rfl, ⟨_, .refl, ?_⟩, ?_, codec, ?_⟩, all⟩
        · rw [left]
          exact .refl _
        · rw [left]
          exact blocked
        · rw [left]
          exact idle

end Drain

/-! ## Every chunk -/

section Receive

variable {s : Demux} {fuel pos : Nat} {codec : Option VideoCodec}

theorem Blocked.visits (h : Blocked a w codec) (ha : s.toAssembly = a) (hw : s.buf.drop pos = w)
    (inside : pos ≤ s.buf.length) (enough : s.buf.length < fuel + pos) :
    IdleLog y w (Demux.visitsLoop y fuel s pos) := by
  obtain ⟨fuel, rfl⟩ : ∃ k, fuel = k + 1 := ⟨fuel - 1, by omega⟩
  induction h generalizing s fuel pos with
  | here hp hr =>
    subst ha hw
    obtain ⟨sc, hsc, -⟩ := nextPacket_some hp
    rw [visitsLoop_stop hsc (by simp only [turn, hp, Option.bind_some, hr, Option.map_none])]
    exact ⟨by simp, sc, hsc, by simp, by simp⟩
  | @pass a w n p c hp hr _ ih =>
    subst ha hw
    have ht := turn_of_react hp hr
    have progress := turn_progress ht
    rw [List.length_drop] at progress
    obtain ⟨sc, hsc, -, -, stop⟩ := nextPacket_some hp
    obtain ⟨fuel, rfl⟩ : ∃ k, fuel = k + 1 := ⟨fuel - 1, by omega⟩
    obtain ⟨quiet, sc', hsc', -, bounds⟩ := ih (s := s.moved { assembly := s.toAssembly.setPsm p.codec } (pos + n)) rfl
      (by rw [List.drop_drop]; rfl) (by simp only [Demux.moved]; omega) fuel
      (by simp only [Demux.moved]; omega)
    rw [visitsLoop_turn hsc ht]
    refine ⟨?_, sc, hsc, ⟨_, List.mem_cons_self, rfl⟩, ?_⟩
    · intro e he
      rcases List.mem_cons.mp he with rfl | he
      · exact ⟨rfl, rfl⟩
      · exact quiet e he
    · intro e he
      rcases List.mem_cons.mp he with rfl | he
      · exact Nat.le_refl _
      · have later := bounds e he
        simp only [List.length_append, List.length_drop] at later ⊢
        omega

theorem Halted.stuck {log : List Visit} (h : Halted y a w log s.toAssembly codec s.left) : Stuck s := by
  obtain ⟨⟨took, idle, a', -, -, blocked, same, -⟩, -⟩ := h
  refine ⟨codec, ?_, by rw [same, setPsm_setPsm, Option.or_self]⟩
  rw [same]
  exact blocked.congr (setPsm_au _ _) (setPsm_auOpen _ _)

theorem Stuck.drainVisits (h : Stuck s) (y : List UInt8) :
    IdleLog y s.left (s.drainVisits y (s.buf.length + 1)) := by
  obtain ⟨c, blocked, same⟩ := h
  have next := blocked.nextLoop (s := s.erase) rfl rfl (Nat.zero_le _) (Nat.lt_succ_self _)
  have visits := blocked.visits (y := y) (s := s.erase) rfl rfl (Nat.zero_le _) (Nat.lt_succ_self _)
  rw [Demux.drainVisits, Demux.next, next, List.append_nil]
  exact visits

/-- A stuck demuxer delivers nothing any more, and comes to no earlier start code. -/
theorem Stuck.receive (h : Stuck s) (inside : s.cursor ≤ s.buf.length) (cs : List (List UInt8)) :
    Pspack.receive s cs = .error .refused ∨
      ∃ out, Pspack.receive s cs = .ok out ∧ out.frames = [] ∧ out.demux.toAssembly = s.toAssembly ∧
        ∀ sc, find startCode s.left = some sc → ∀ e ∈ receiveVisits s cs,
          e.taken = none ∧ e.ahead ≤ (s.left ++ cs.flatten).length - sc := by
  induction cs generalizing s with
  | nil => exact .inr ⟨_, rfl, rfl, rfl, fun _ _ => nofun⟩
  | cons c cs ih =>
    rcases receive_cons s c cs with refused | ⟨s', ok, goes⟩
    · exact .inl refused
    · obtain ⟨left, same, inside'⟩ := append_ok ok inside
      have stuck' : Stuck s' := by
        obtain ⟨k, blocked, fixed⟩ := h
        exact ⟨k, by rw [same, left]; exact blocked.append c, by rw [same]; exact fixed⟩
      obtain ⟨t, drained, stuck, same', tinside, tleft⟩ := stuck'.drain
      rw [goes _ _ _ drained]
      rcases ih stuck tinside with refused | ⟨out, received, frames, asm, later⟩
      · exact .inl (by rw [refused]; rfl)
      · refine .inr ⟨{ out with statuses := .format :: out.statuses }, by rw [received]; rfl, frames,
          by rw [asm, same', same], fun sc hsc e he => ?_⟩
        have here : find startCode s'.left = some sc := by rw [left]; exact find_append hsc
        have whole : s.left ++ (c :: cs).flatten = s'.left ++ cs.flatten := by
          rw [List.flatten_cons, left, List.append_assoc]
        rw [whole]
        simp only [receiveVisits, ok, drained] at he
        rcases List.mem_append.mp he with now | after
        · obtain ⟨quiet, sc', hsc', -, bounds⟩ := stuck'.drainVisits cs.flatten
          obtain rfl := Option.some.inj (here.symm.trans hsc')
          exact ⟨(quiet e now).1, bounds e now⟩
        · have := later sc (by rw [tleft]; exact here) e after
          rwa [tleft] at this

/-- The calls of `next` after a refused packet come to nothing new: `idle` is what the
first of them came to behind the last payload taken. -/
def Repeats (log visits : List Visit) : Prop :=
  ∃ took idle later, log = took ++ idle ∧ visits = log ++ later ∧ (∀ e ∈ idle ++ later, e.taken = none) ∧
    ∃ f ∈ idle, ∀ e ∈ later, e.ahead ≤ f.ahead

/-- What a receiver has done, as a run to the end of the stream. -/
structure RunOf (s : Demux) (cs : List (List UInt8)) (out : Received) (log : List Visit) (b : Assembly)
    (u : List UInt8) : Prop where
  run : Runs s.toAssembly (s.left ++ cs.flatten) log b u
  stops : turn b u = none
  frames : out.frames = logged log
  assembly : out.demux.toAssembly = b
  ends : (∀ st ∈ out.statuses, st = .again) ∧ receiveVisits s cs = log ∨
    Refused b u ∧ Repeats log (receiveVisits s cs)

theorem Repeats.append (log : List Visit) {visits : List Visit} (h : Repeats log' visits) :
    Repeats (log ++ log') (log ++ visits) := by
  obtain ⟨took, idle, later, rfl, rfl, quiet, bounded⟩ := h
  exact ⟨log ++ took, idle, later, by simp only [List.append_assoc], by simp only [List.append_assoc], quiet, bounded⟩

theorem receive_runs_from (inside : s.cursor ≤ s.buf.length) (empty : nextPacket s.left = none)
    (cs : List (List UInt8)) :
    receive s cs = .error .refused ∨ ∃ out log b u, receive s cs = .ok out ∧ RunOf s cs out log b u := by
  induction cs generalizing s with
  | nil =>
    refine .inr ⟨_, [], s.toAssembly, s.left ++ [], rfl, .refl, ?_, rfl, rfl, .inl ⟨nofun, rfl⟩⟩
    rw [List.append_nil, turn, empty, Option.bind_none]
  | cons c cs ih =>
    rcases receive_cons s c cs with refused | ⟨s', ok, goes⟩
    · exact .inl refused
    obtain ⟨left, same, inside'⟩ := append_ok ok inside
    have enough : s'.left.length < s'.buf.length + 1 := by rw [Demux.left, List.length_drop]; omega
    obtain ⟨fs, st, t, drained, frames, tinside, ends⟩ := drainLoop_runs (y := cs.flatten) enough
    have whole : s'.left ++ cs.flatten = s.left ++ (c :: cs).flatten := by
      rw [left, List.flatten_cons, List.append_assoc]
    have visits : receiveVisits s (c :: cs) =
        s'.drainVisits cs.flatten (s'.buf.length + 1) ++ receiveVisits t cs := by
      simp only [receiveVisits, ok, Demux.drain, drained]
    rw [goes _ _ _ drained]
    cases ends with
    | @again s' u run trimmed drained =>
      rw [same, whole] at run
      rcases ih tinside drained with refused | ⟨out, log, b, v, received, rest⟩
      · exact .inl (by rw [refused]; rfl)
      · obtain ⟨v', run', trimmed'⟩ := trimmed.runs rest.run
        refine .inr ⟨{ out with frames := fs ++ out.frames, statuses := .again :: out.statuses }, _, b, v',
          by rw [received]; rfl, run.trans run', trimmed'.turn.mpr rest.stops, ?_, rest.assembly, ?_⟩
        · rw [logged_append, ← rest.frames, frames]
        · rcases rest.ends with ⟨again, log_eq⟩ | ⟨refused, repeats⟩
          · exact .inl ⟨by simpa using again, by rw [visits, log_eq]⟩
          · exact .inr ⟨trimmed'.refused refused, by rw [visits]; exact repeats.append _⟩
    | @format _ k halted =>
      have stuck := halted.stuck
      obtain ⟨⟨took, idle, a', split, ⟨u, run, trimmed⟩, blocked, fixed, tail⟩, v, all, refused⟩ := halted
      rcases stuck.receive tinside cs with refused' | ⟨out, received, none, asm, later⟩
      · exact .inl (by rw [refused']; rfl)
      · obtain ⟨quiet, sc, hsc, ⟨f, hf, first⟩, bounds⟩ := tail
        rw [same, whole] at all
        refine .inr ⟨{ out with frames := fs ++ out.frames, statuses := .format :: out.statuses }, _, t.toAssembly, v,
          by rw [received]; rfl, all, refused.stops, ?_, asm, .inr ⟨refused, took, idle, _, split, visits, ?_, f, hf, ?_⟩⟩
        · simp only [none, List.append_nil, frames]
        · intro e he
          rcases List.mem_append.mp he with he | he
          · exact (quiet e he).1
          · exact (later sc hsc e he).1
        · intro e he
          rw [first]
          exact (later sc hsc e he).2

/-- **Whatever a receiver does with a stream is a run.** -/
theorem receive_runs (cs : List (List UInt8)) :
    receive {} cs = .error .refused ∨ ∃ out log b u, receive {} cs = .ok out ∧ RunOf {} cs out log b u :=
  receive_runs_from (Nat.le_refl 0) (nextPacket_short (by decide)) cs

/-- What the final `flush` adds to the frames. -/
theorem RunOf.delivered {cs : List (List UInt8)} {out : Received} (h : RunOf s cs out log b u) :
    out.delivered = logged log ++ b.emitAu.1.toOption.toList := by
  rw [Received.delivered, h.frames, Demux.flush, h.assembly]

end Receive

/-! ## Within the limit -/

section Limit

variable {s t : Demux} {fuel : Nat} {fs : List Frame} {st : Status}

theorem drainLoop_shrinks (h : s.drainLoop fuel = some (fs, st, t)) : t.buf.length ≤ s.buf.length := by
  induction fuel generalizing s fs with
  | zero => cases h
  | succ fuel ih =>
    obtain ⟨res, s', eq, buf, -, -⟩ := next_runs s []
    have shrinks : s'.buf.length ≤ s.buf.length := by
      rw [buf, Demux.left, List.length_drop]
      exact Nat.sub_le _ _
    rw [Demux.drainLoop, eq] at h
    cases res with
    | ok f =>
      obtain ⟨x, hx, h⟩ := Option.map_eq_some_iff.mp h
      cases h
      exact (ih hx).trans shrinks
    | error e =>
      cases h
      exact shrinks

/-- **Within the buffering limit every chunk is accepted.** -/
theorem receive_accepts (cs : List (List UInt8)) (fits : s.buf.length + cs.flatten.length ≤ kMaxBuffered) :
    receive s cs ≠ .error .refused := by
  induction cs generalizing s with
  | nil => exact nofun
  | cons c cs ih =>
    rw [List.flatten_cons, List.length_append] at fits
    have appended : ∃ s', s.append c = (.ok, s') ∧ s'.buf.length ≤ s.buf.length + c.length := by
      unfold Demux.append
      split
      · exact ⟨s, rfl, Nat.le_add_right _ _⟩
      · rw [if_neg (by omega)]
        exact ⟨_, rfl, by rw [List.length_append]⟩
    obtain ⟨s', ok, grown⟩ := appended
    simp only [receive, ok]
    cases hd : s'.drain with
    | none =>
      intro h
      cases h
    | some x =>
      obtain ⟨fs, st, t⟩ := x
      have shrinks := drainLoop_shrinks hd
      have := ih (s := t) (by omega)
      cases hr : receive t cs with
      | ok out =>
        intro h
        dsimp only at h
        rw [hr] at h
        cases h
      | error fault =>
        rw [hr] at this
        cases fault with
        | refused => exact absurd rfl this
        | broken =>
          intro h
          dsimp only at h
          rw [hr] at h
          cases h

end Limit

/-! ## Streams that can be resumed -/

/-- A class of assemblies and streams ahead of them that is closed under the turns of
runs, and in which going back does not matter. -/
structure Resumable (C : Assembly → List UInt8 → Prop) : Prop where
  go : ∀ {a w n r k}, C a w → turn a w = some (n, r) → k ≤ 3 → (r.frame = none ∨ k = 0) →
    C r.assembly (w.drop (n - k)) ∧ Same r.assembly (w.drop (n - k)) r.assembly (w.drop n)

section Resume

variable {C : Assembly → List UInt8 → Prop}

/-- **A run of a stream that can be resumed** delivers what the stream delivers. -/
theorem Resumable.runs (hC : Resumable C) (run : Runs a w log b v) (mem : C a w) :
    walk a w = (logged log ++ (walk b v).1, (walk b v).2) ∧ (refuses a w ↔ refuses b v) := by
  induction run with
  | refl => exact ⟨rfl, Iff.rfl⟩
  | see hsc _ ih =>
    obtain ⟨same, ends⟩ := ih mem
    exact ⟨by rw [same, logged_cons]; rfl, ends⟩
  | @go a w sc n r k log b v hsc ht hk quiet _ ih =>
    obtain ⟨next, back⟩ := hC.go mem ht hk quiet
    obtain ⟨same, ends⟩ := ih next
    refine ⟨?_, by rw [refuses_of_turn ht, ← back.refuses, ends]⟩
    rw [walk_of_turn ht, ← back.walk, same, logged_cons, ← List.append_assoc]
    rfl

/-- A run to the end of the stream. -/
theorem Resumable.runs_to_end (hC : Resumable C) (run : Runs a w log b v) (mem : C a w) (stops : turn b v = none) :
    walk a w = (logged log, b) ∧ (refuses a w ↔ Refused b v) := by
  obtain ⟨same, ends⟩ := hC.runs run mem
  rw [walk_of_none stops, List.append_nil] at same
  exact ⟨same, ends.trans (refuses_of_none stops)⟩

/-- Everything a stream delivers, the final `flush` included. -/
def deliveredOf (a : Assembly) (w : List UInt8) : List Frame :=
  (walk a w).1 ++ (walk a w).2.emitAu.1.toOption.toList

/-- **Receiving a stream that can be resumed**: however it is cut into chunks, what
is delivered is what the stream delivers as a whole, and `next` returns nothing
but `Again` between the chunks unless the stream comes to a refused packet. -/
theorem receive_whole (hC : Resumable C) (cs : List (List UInt8)) (mem : C {} cs.flatten) :
    receive {} cs = .error .refused ∨
      ∃ out, receive {} cs = .ok out ∧ out.delivered = deliveredOf {} cs.flatten ∧
        ((∀ st ∈ out.statuses, st = .again) ∨ refuses {} cs.flatten) := by
  rcases receive_runs cs with refused | ⟨out, log, b, u, received, h⟩
  · exact .inl refused
  · obtain ⟨whole, ends⟩ : walk ({} : Assembly) cs.flatten = (logged log, b) ∧
        (refuses {} cs.flatten ↔ Refused b u) := hC.runs_to_end h.run mem h.stops
    refine .inr ⟨out, received, ?_, h.ends.imp And.left fun refused => ends.mpr refused.1⟩
    rw [h.delivered, deliveredOf, whole]

end Resume

end Rkvc.Pspack
