import Rkvc.Pspack.Walk

/-!
# Receiving a stream in chunks

A receiver appends a chunk, calls `next` until it stops returning frames, and
goes on with the next chunk. The start codes it comes to are logged with their
distance from the end of the whole stream, so that the log does not depend on what
has been erased (`receiveVisits`). A refused packet is come to again by every later
call, over the packets before it that take nothing (`Blocked`).
-/

namespace Rkvc.Pspack
set_option autoImplicit false

open Lib

/-! ## The receiver -/

namespace Demux

def drainLoop : Nat → Demux → Option (List Frame × Status × Demux)
  | 0, _ => none
  | fuel + 1, s =>
    match s.next with
    | none => none
    | some (.ok f, s') => (drainLoop fuel s').map fun (frames, st, t) => (f :: frames, st, t)
    | some (.error e, s') => some ([], e.status, s')

/-- Call `next` until it returns no frame: the frames, the last status, the demuxer. -/
def drain (s : Demux) : Option (List Frame × Status × Demux) := drainLoop (s.buf.length + 1) s

end Demux

inductive Fault where
  /-- `append` did not accept a chunk. -/
  | refused
  /-- A read outside the buffer, or a loop that does not end. -/
  | broken
  deriving DecidableEq, Repr

structure Received where
  frames : List Frame
  statuses : List Status
  demux : Demux
  deriving DecidableEq

def receive : Demux → List (List UInt8) → Except Fault Received
  | s, [] => .ok { frames := [], statuses := [], demux := s }
  | s, c :: cs =>
    match s.append c with
    | (.ok, s') =>
      match s'.drain with
      | none => .error .broken
      | some (frames, st, t) =>
        (receive t cs).map fun r => { r with frames := frames ++ r.frames, statuses := st :: r.statuses }
    | _ => .error .refused

/-- The frames and what the final `flush` returns. -/
def Received.delivered (r : Received) : List Frame := r.frames ++ r.demux.flush.1.toOption.toList

/-! ## The log of start codes -/

/-- A start code that was come to: the bytes from it to the end of the stream, the
bytes behind the payload that was taken, and the access unit that was completed. -/
structure Visit where
  ahead : Nat
  taken : Option Nat := none
  frame : Option Frame := none
  deriving DecidableEq, Repr

/-- The visit of a turn that ends `n` bytes into `w`. -/
def Reaction.visit (r : Reaction) (w : List UInt8) (sc n : Nat) : Visit :=
  { ahead := w.length - sc, taken := if r.taken then some (w.length - n) else none, frame := r.frame }

namespace Demux

/-- The visits of `nextLoop`, with `y` to come. -/
def visitsLoop (y : List UInt8) : Nat → Demux → Nat → List Visit
  | 0, _, _ => []
  | fuel + 1, s, pos =>
    match find startCode (s.buf.drop pos) with
    | none => []
    | some sc =>
      match turn s.toAssembly (s.buf.drop pos) with
      | none => [{ ahead := (s.buf.drop pos ++ y).length - sc }]
      | some (n, r) => r.visit (s.buf.drop pos ++ y) sc n :: match r.frame with
        | some _ => []
        | none => visitsLoop y fuel (s.moved r (pos + n)) (pos + n)

def visits (y : List UInt8) (s : Demux) : List Visit := visitsLoop y (s.erase.buf.length + 1) s.erase 0

def drainVisits (y : List UInt8) : Nat → Demux → List Visit
  | 0, _ => []
  | fuel + 1, s => s.visits y ++ match s.next with
    | some (.ok _, s') => drainVisits y fuel s'
    | _ => []

end Demux

def receiveVisits : Demux → List (List UInt8) → List Visit
  | _, [] => []
  | s, c :: cs =>
    match s.append c with
    | (.ok, s') => s'.drainVisits cs.flatten (s'.buf.length + 1) ++ match s'.drain with
      | some (_, _, t) => receiveVisits t cs
      | none => []
    | _ => []

/-- No byte of a payload that was taken is scanned again as part of a start code. -/
def NoRescan (log : List Visit) : Prop := log.Pairwise fun e e' => ∀ stop ∈ e.taken, e'.ahead ≤ stop

/-! ## Packets that take nothing -/

/-- The codec a packet sets. -/
def Packet.codec : Packet → Option VideoCodec
  | .map _ codec => codec
  | _ => none

/-- The walk comes to a refused packet over packets that take nothing; `c` is the
codec of the last map on the way. -/
inductive Blocked : Assembly → List UInt8 → Option VideoCodec → Prop where
  | here {a w n p} : nextPacket w = some (n, p) → react a p = none → Blocked a w none
  | pass {a w n p c} : nextPacket w = some (n, p) → react a p = some { assembly := a.setPsm p.codec } →
      Blocked (a.setPsm p.codec) (w.drop n) c → Blocked a w (c.or p.codec)

section Idle

variable {a b : Assembly} {p : Packet} {r : Reaction}

@[simp] theorem setPsm_au (a : Assembly) (c : Option VideoCodec) : (a.setPsm c).au = a.au := by cases c <;> rfl

@[simp] theorem setPsm_auOpen (a : Assembly) (c : Option VideoCodec) : (a.setPsm c).auOpen = a.auOpen := by
  cases c <;> rfl

theorem setPsm_setPsm (a : Assembly) (c₁ c₂ : Option VideoCodec) : (a.setPsm c₁).setPsm c₂ = a.setPsm (c₂.or c₁) := by
  cases c₁ <;> cases c₂ <;> rfl

/-- A packet of which nothing is taken sets the codec and nothing else. -/
theorem react_idle (h : react a p = some r) (idle : r.taken = false) : r = { assembly := a.setPsm p.codec } := by
  cases p with
  | short => cases h
  | refused => cases h
  | skip len => cases h; rfl
  | map len codec => cases h; rfl
  | video len aligned pts payload =>
    simp only [react] at h
    split at h
    · cases h; cases idle
    · split at h
      · cases h; rfl
      · split at h
        · cases h
        · cases h; cases idle

/-- Only the access unit under assembly matters for that. -/
theorem react_idle_congr (au : b.au = a.au) (auOpen : b.auOpen = a.auOpen)
    (h : react a p = some { assembly := a.setPsm p.codec }) : react b p = some { assembly := b.setPsm p.codec } := by
  cases p with
  | video len aligned pts payload =>
    simp only [react, au, auOpen] at h ⊢
    split
    · rename_i first; simp [first] at h
    · rename_i first
      rw [if_neg first] at h
      split
      · rfl
      · rename_i opened
        rw [if_neg opened] at h
        split at h <;> simp at h
  | short => cases h
  | refused => cases h
  | skip len => rfl
  | map len codec => rfl

theorem react_none_congr (au : b.au = a.au) (auOpen : b.auOpen = a.auOpen) (h : react a p = none) :
    react b p = none := by
  cases p with
  | video len aligned pts payload =>
    simp only [react, au, auOpen] at h ⊢
    split
    · rename_i first; rw [if_pos first] at h; cases h
    · rename_i first
      rw [if_neg first] at h
      split
      · rename_i closed; rw [if_pos closed] at h; cases h
      · rename_i opened
        rw [if_neg opened] at h
        split
        · rfl
        · rename_i small; rw [if_neg small] at h; cases h
  | short => rfl
  | refused => rfl
  | skip len => cases h
  | map len codec => cases h

theorem Blocked.congr {w : List UInt8} {c : Option VideoCodec} (h : Blocked a w c) :
    ∀ {b : Assembly}, b.au = a.au → b.auOpen = a.auOpen → Blocked b w c := by
  induction h with
  | here hp hr => exact fun au auOpen => .here hp (react_none_congr au auOpen hr)
  | pass hp hr _ ih => exact fun au auOpen => .pass hp (react_idle_congr au auOpen hr) (ih (by simpa) (by simpa))

end Idle

/-- The next call of `next` comes to a refused packet again. -/
def Stuck (s : Demux) : Prop := ∃ c, Blocked s.toAssembly s.left c ∧ s.setPsm c = s.toAssembly

/-! ## A stuck demuxer -/

section Stuck

variable {a : Assembly} {w : List UInt8} {c : Option VideoCodec} {s : Demux}

theorem Blocked.append (h : Blocked a w c) (y : List UInt8) : Blocked a (w ++ y) c := by
  induction h with
  | here hp hr => exact .here (nextPacket_append hp y) hr
  | @pass a w n p c hp hr _ ih =>
    have inside := (turn_progress (turn_of_react hp hr)).2
    refine .pass (nextPacket_append hp y) hr ?_
    rwa [List.drop_append_of_le_length inside]

theorem Blocked.nextLoop {fuel pos : Nat} (h : Blocked a w c) (ha : s.toAssembly = a) (hw : s.buf.drop pos = w)
    (inside : pos ≤ s.buf.length) (enough : s.buf.length < fuel + pos) :
    Demux.nextLoop fuel s pos = some (.error { status := .format }, { s with toAssembly := a.setPsm c }) := by
  obtain ⟨fuel, rfl⟩ : ∃ k, fuel = k + 1 := ⟨fuel - 1, by omega⟩
  induction h generalizing s fuel pos with
  | here hp hr =>
    subst ha hw
    exact Demux.nextLoop_refused hp hr
  | @pass a w n p c hp hr _ ih =>
    subst ha hw
    have ht := turn_of_react hp hr
    have := turn_progress ht
    rw [List.length_drop] at this
    obtain ⟨fuel, rfl⟩ : ∃ k, fuel = k + 1 := ⟨fuel - 1, by omega⟩
    rw [Demux.nextLoop_turn ht, ← setPsm_setPsm]
    exact ih rfl (by rw [List.drop_drop]; rfl) (by simp only [Demux.moved]; omega) fuel
      (by simp only [Demux.moved]; omega)

theorem Stuck.next (h : Stuck s) :
    ∃ s', s.next = some (.error { status := .format }, s') ∧ Stuck s' ∧ s'.toAssembly = s.toAssembly ∧
      s'.cursor ≤ s'.buf.length ∧ s'.left = s.left := by
  obtain ⟨c, blocked, same⟩ := h
  refine ⟨_, blocked.nextLoop (s := s.erase) rfl rfl (Nat.zero_le _) (Nat.lt_succ_self _), ⟨c, ?_, ?_⟩, same,
    Nat.zero_le _, rfl⟩
  · rw [same]; exact blocked
  · rw [same]; exact same

theorem Stuck.drain (h : Stuck s) :
    ∃ s', s.drain = some ([], .format, s') ∧ Stuck s' ∧ s'.toAssembly = s.toAssembly ∧
      s'.cursor ≤ s'.buf.length ∧ s'.left = s.left := by
  obtain ⟨s', eq, rest⟩ := h.next
  exact ⟨s', by rw [Demux.drain, Demux.drainLoop, eq], rest⟩

/-- An accepted chunk goes behind what the demuxer holds. -/
theorem append_ok {c : List UInt8} {s' : Demux} (h : s.append c = (.ok, s')) (inside : s.cursor ≤ s.buf.length) :
    s'.left = s.left ++ c ∧ s'.toAssembly = s.toAssembly ∧ s'.cursor ≤ s'.buf.length := by
  unfold Demux.append at h
  split at h
  · rename_i empty
    obtain ⟨-, rfl⟩ := Prod.mk.inj h
    rw [List.isEmpty_iff.mp empty, List.append_nil]
    exact ⟨rfl, rfl, inside⟩
  · split at h
    · cases h
    · obtain ⟨-, rfl⟩ := Prod.mk.inj h
      exact ⟨List.drop_append_of_le_length inside, rfl, by simp only [List.length_append]; omega⟩

theorem append_status (s : Demux) (c : List UInt8) : (s.append c).1 = .ok ∨ (s.append c).1 = .format := by
  unfold Demux.append
  split
  · exact .inl rfl
  · split
    · exact .inr rfl
    · exact .inl rfl

/-- A chunk is refused, or appended and drained. -/
theorem receive_cons (s : Demux) (c : List UInt8) (cs : List (List UInt8)) :
    receive s (c :: cs) = .error .refused ∨
      ∃ s', s.append c = (.ok, s') ∧ ∀ fs st t, s'.drain = some (fs, st, t) →
        receive s (c :: cs) = (receive t cs).map fun r =>
          { r with frames := fs ++ r.frames, statuses := st :: r.statuses } := by
  rcases hap : s.append c with ⟨st, s'⟩
  rcases append_status s c with ok | format
  · rw [hap] at ok
    obtain rfl : st = .ok := ok
    exact .inr ⟨s', rfl, fun fs st t drained => by simp only [receive, hap, drained]⟩
  · rw [hap] at format
    obtain rfl : st = .format := format
    exact .inl (by simp only [receive, hap])

end Stuck

end Rkvc.Pspack
