import Rkvc.Lib.Incremental
import Rkvc.Pspack.Packet

/-!
# The demuxer on a whole stream

What `next` does with one packet does not depend on where the packet lies in the
buffer (`turn`), so the stream as a whole is read by an incremental reader. The
loop of `next` takes the reader's turns on the bytes it has; what it leaves in
the buffer when they run out is the stream from a position on that may lie up to
three bytes before the position it has got to.
-/

namespace Rkvc.Pspack
set_option autoImplicit false

open Lib

/-! ## One packet, one turn -/

/-- What a packet does: the assembly after it, the access unit it completes, and
whether its payload was taken. -/
structure Reaction where
  assembly : Assembly
  frame : Option Frame := none
  taken : Bool := false

/-- The turn of the loop for a packet; `none` is `Format`. -/
def react (a : Assembly) : Packet → Option Reaction
  | .short | .refused => none
  | .skip _ => some { assembly := a }
  | .map _ codec => some { assembly := a.setPsm codec }
  | .video _ aligned pts payload =>
    if aligned then
      some { assembly := a.emitAu.2.start pts payload, frame := a.emitAu.1.toOption, taken := true }
    else if !a.auOpen then some { assembly := a }
    else if a.au.length + payload.length > kMaxPayload then none
    else some { assembly := { a with au := a.au ++ payload }, taken := true }

/-- The first packet of a byte string, and where it ends. -/
def nextPacket (w : List UInt8) : Option (Nat × Packet) :=
  (find startCode w).bind fun sc => (readPacket (w.drop sc)).bind fun p =>
    if p = .short then none else some (sc + p.len, p)

def turn (a : Assembly) (w : List UInt8) : Option (Nat × Reaction) :=
  (nextPacket w).bind fun (n, p) => (react a p).map fun r => (n, r)

variable {a : Assembly} {w y : List UInt8} {n i : Nat} {p : Packet} {r : Reaction}

theorem nextPacket_some (h : nextPacket w = some (n, p)) :
    ∃ sc, find startCode w = some sc ∧ readPacket (w.drop sc) = some p ∧ p ≠ .short ∧ n = sc + p.len := by
  obtain ⟨sc, hsc, h⟩ := Option.bind_eq_some_iff.mp h
  obtain ⟨q, hq, h⟩ := Option.bind_eq_some_iff.mp h
  split at h
  · cases h
  · rename_i ne
    cases h
    exact ⟨sc, hsc, hq, ne, rfl⟩

theorem nextPacket_of_read {sc : Nat} (hsc : find startCode w = some sc) (hp : readPacket (w.drop sc) = some p)
    (ne : p ≠ .short) : nextPacket w = some (sc + p.len, p) := by
  rw [nextPacket, hsc, Option.bind_some, hp, Option.bind_some, if_neg ne]

theorem turn_some (h : turn a w = some (n, r)) : ∃ p, nextPacket w = some (n, p) ∧ react a p = some r := by
  obtain ⟨⟨m, p⟩, hp, h⟩ := Option.bind_eq_some_iff.mp h
  obtain ⟨r', hr, h⟩ := Option.map_eq_some_iff.mp h
  cases h
  exact ⟨p, hp, hr⟩

theorem turn_of_react (hp : nextPacket w = some (n, p)) (hr : react a p = some r) : turn a w = some (n, r) := by
  simp only [turn, hp, Option.bind_some, hr, Option.map_some]

/-- A packet that is reacted to ends within the input, at least four bytes behind its start. -/
theorem turn_bounds {sc : Nat} (hsc : find startCode w = some sc) (h : turn a w = some (n, r)) :
    sc + 4 ≤ n ∧ n ≤ w.length := by
  obtain ⟨p, hp, hr⟩ := turn_some h
  obtain ⟨sc', hsc', hread, ne, rfl⟩ := nextPacket_some hp
  obtain rfl := Option.some.inj (hsc.symm.trans hsc')
  have bound := (find_some hsc).2
  obtain ⟨q, hq, facts⟩ := readPacket_reads (w.drop sc)
  obtain rfl := Option.some.inj (hread.symm.trans hq)
  have accepted : p ≠ .refused := by
    rintro rfl
    cases hr
  have := (facts ne).2 accepted
  rw [List.length_drop] at this
  omega

theorem turn_progress (h : turn a w = some (n, r)) : 4 ≤ n ∧ n ≤ w.length := by
  obtain ⟨p, hp, -⟩ := turn_some h
  obtain ⟨sc, hsc, -⟩ := nextPacket_some hp
  have := turn_bounds hsc h
  omega

theorem nextPacket_append (h : nextPacket w = some (n, p)) (y : List UInt8) : nextPacket (w ++ y) = some (n, p) := by
  obtain ⟨sc, hsc, hread, ne, rfl⟩ := nextPacket_some h
  have bound := (find_some hsc).2
  obtain ⟨q, hq, facts⟩ := readPacket_reads (w.drop sc)
  obtain rfl := Option.some.inj (hread.symm.trans hq)
  refine nextPacket_of_read (find_append hsc) ?_ ne
  rw [List.drop_append_of_le_length (Nat.le_of_lt bound)]
  exact (facts ne).1 y

theorem turn_append (h : turn a w = some (n, r)) (y : List UInt8) : turn a (w ++ y) = some (n, r) := by
  obtain ⟨p, hp, hr⟩ := turn_some h
  exact turn_of_react (nextPacket_append hp y) hr

theorem nextPacket_short (h : w.length < 4) : nextPacket w = none := by
  cases hsc : find startCode w with
  | none => rw [nextPacket, hsc, Option.bind_none]
  | some sc =>
    have short : readPacket (w.drop sc) = some .short := if_pos (by rw [List.length_drop]; omega)
    rw [nextPacket, hsc, Option.bind_some, short, Option.bind_some, if_pos rfl]

/-- Bytes in front of the first start code only move the packet. -/
theorem nextPacket_drop (clear : ∀ j < i, ¬startCode <+: w.drop j) :
    nextPacket w = (nextPacket (w.drop i)).map fun (n, p) => (n + i, p) := by
  unfold nextPacket
  rw [find_drop clear]
  cases find startCode (w.drop i) with
  | none => rfl
  | some sc =>
    simp only [Option.map_some, Option.bind_some, List.drop_drop, Nat.add_comm i]
    cases readPacket (w.drop (sc + i)) with
    | none => rfl
    | some p =>
      by_cases short : p = .short
      · simp [short]
      · simp only [Option.bind_some, if_neg short, Option.map_some]
        rw [Nat.add_right_comm]

theorem turn_drop (clear : ∀ j < i, ¬startCode <+: w.drop j) :
    turn a w = (turn a (w.drop i)).map fun (n, r) => (n + i, r) := by
  rw [turn, turn, nextPacket_drop clear]
  cases nextPacket (w.drop i) with
  | none => rfl
  | some x =>
    obtain ⟨n, p⟩ := x
    simp only [Option.map_some, Option.bind_some]
    cases react a p <;> rfl

/-! ## The reader -/

/-- The demuxer as a reader of a byte string. -/
def demuxReader : Reader Assembly UInt8 Frame where
  next a w := (turn a w).map fun (n, r) => (n, r.assembly, r.frame)
  progress {s w n t f} h := by
    obtain ⟨⟨m, r⟩, hr, h⟩ := Option.map_eq_some_iff.mp h
    cases h
    have := turn_progress hr
    omega
  stable {s w x} h y := by
    obtain ⟨⟨m, r⟩, hr, rfl⟩ := Option.map_eq_some_iff.mp h
    rw [turn_append hr y, Option.map_some]

/-- What the demuxer delivers of a byte string, and the assembly it ends with. -/
def walk (a : Assembly) (w : List UInt8) : List Frame × Assembly :=
  ((demuxReader.run a w).items, (demuxReader.run a w).state)

theorem walk_of_none (h : turn a w = none) : walk a w = ([], a) := by
  have : demuxReader.next a w = none := by simp only [demuxReader, h, Option.map_none]
  rw [walk, Reader.run_of_none this]

theorem walk_of_turn (h : turn a w = some (n, r)) :
    walk a w = (r.frame.toList ++ (walk r.assembly (w.drop n)).1, (walk r.assembly (w.drop n)).2) := by
  have : demuxReader.next a w = some (n, r.assembly, r.frame) := by simp only [demuxReader, h, Option.map_some]
  rw [walk, Reader.run_of_some this]
  rfl

/-- The next packet is refused. -/
def Refused (a : Assembly) (w : List UInt8) : Prop := ∃ n p, nextPacket w = some (n, p) ∧ react a p = none

/-- The demuxer comes to a refused packet in the end. -/
def refuses (a : Assembly) (w : List UInt8) : Prop := Refused (demuxReader.run a w).state (demuxReader.run a w).rest

theorem Refused.stops (h : Refused a w) : turn a w = none := by
  obtain ⟨n, p, hp, hr⟩ := h
  simp only [turn, hp, Option.bind_some, hr, Option.map_none]

theorem refuses_of_none (h : turn a w = none) : refuses a w ↔ Refused a w := by
  have : demuxReader.next a w = none := by simp only [demuxReader, h, Option.map_none]
  rw [refuses, Reader.run_of_none this]

theorem refuses_of_turn (h : turn a w = some (n, r)) : refuses a w ↔ refuses r.assembly (w.drop n) := by
  have : demuxReader.next a w = some (n, r.assembly, r.frame) := by simp only [demuxReader, h, Option.map_some]
  rw [refuses, Reader.run_of_some this]
  rfl

theorem refused_drop (clear : ∀ j < i, ¬startCode <+: w.drop j) : Refused a w ↔ Refused a (w.drop i) := by
  unfold Refused
  rw [nextPacket_drop clear]
  constructor
  · rintro ⟨n, p, hp, hr⟩
    obtain ⟨⟨m, q⟩, hq, h⟩ := Option.map_eq_some_iff.mp hp
    cases h
    exact ⟨m, p, hq, hr⟩
  · rintro ⟨n, p, hp, hr⟩
    exact ⟨n + i, p, by rw [hp, Option.map_some], hr⟩

/-! ## Streams that make no difference -/

/-- The demuxer delivers the same of both, and comes to the same end. -/
structure Same (a : Assembly) (w : List UInt8) (b : Assembly) (v : List UInt8) : Prop where
  walk : walk a w = walk b v
  refuses : refuses a w ↔ refuses b v

namespace Same

variable {b c : Assembly} {v u : List UInt8}

theorem refl (a : Assembly) (w : List UInt8) : Same a w a w := ⟨rfl, Iff.rfl⟩

theorem symm (h : Same a w b v) : Same b v a w := ⟨h.walk.symm, h.refuses.symm⟩

theorem trans (h : Same a w b v) (k : Same b v c u) : Same a w c u := ⟨h.walk.trans k.walk, h.refuses.trans k.refuses⟩

/-- Behind a turn that completes no access unit. -/
theorem of_turn (h : turn a w = some (n, r)) (quiet : r.frame = none) : Same a w r.assembly (w.drop n) :=
  ⟨by rw [walk_of_turn h, quiet]; rfl, refuses_of_turn h⟩

end Same

/-- Bytes in front of the first start code do not matter. -/
theorem same_drop (clear : ∀ j < i, ¬startCode <+: w.drop j) : Same a w a (w.drop i) := by
  cases h : turn a (w.drop i) with
  | none =>
    have whole : turn a w = none := by rw [turn_drop clear, h, Option.map_none]
    exact ⟨by rw [walk_of_none h, walk_of_none whole],
      by rw [refuses_of_none h, refuses_of_none whole, refused_drop clear]⟩
  | some x =>
    obtain ⟨n, r⟩ := x
    have whole : turn a w = some (n + i, r) := by rw [turn_drop clear, h, Option.map_some]
    have cut : w.drop (n + i) = (w.drop i).drop n := by rw [List.drop_drop, Nat.add_comm]
    exact ⟨by rw [walk_of_turn h, walk_of_turn whole, cut], by rw [refuses_of_turn h, refuses_of_turn whole, cut]⟩

/-! ## The loop of `next` -/

namespace Demux

/-- The bytes that have not been given up. -/
def left (s : Demux) : List UInt8 := s.buf.drop s.cursor

/-- The demuxer after a turn that ends at a position of the buffer. -/
def moved (s : Demux) (r : Reaction) (stop : Nat) : Demux :=
  { s with toAssembly := r.assembly, cursor := if r.taken then stop else s.cursor }

variable {s : Demux} {fuel pos : Nat}

theorem nextLoop_turn (h : turn s.toAssembly (s.buf.drop pos) = some (n, r)) :
    nextLoop (fuel + 1) s pos = match r.frame with
      | some f => some (.ok f, s.moved r (pos + n))
      | none => nextLoop fuel (s.moved r (pos + n)) (pos + n) := by
  obtain ⟨p, hp, hr⟩ := turn_some h
  obtain ⟨sc, hsc, hread, ne, rfl⟩ := nextPacket_some hp
  rw [List.drop_drop] at hread
  have found : findSc s.buf pos = some (pos + sc) := by rw [findSc_eq, hsc, Option.map_some, Nat.add_comm]
  cases p with
  | short => exact absurd rfl ne
  | refused => cases hr
  | skip len =>
    cases hr
    simp only [nextLoop, found, hread, Packet.len, Nat.add_assoc]
    rfl
  | map len codec =>
    cases hr
    simp only [nextLoop, found, hread, Packet.len, Nat.add_assoc]
    rfl
  | video len aligned pts payload =>
    simp only [nextLoop, found, hread, Packet.len, Nat.add_assoc]
    simp only [react] at hr
    by_cases first : aligned
    · rw [if_pos first, Option.some.injEq] at hr
      rw [if_pos first, ← hr]
      cases s.emitAu.1 <;> rfl
    · rw [if_neg first] at hr ⊢
      by_cases closed : !s.auOpen
      · rw [if_pos closed] at hr ⊢
        cases hr
        rfl
      · rw [if_neg closed] at hr ⊢
        by_cases large : s.au.length + payload.length > kMaxPayload
        · rw [if_pos large] at hr
          cases hr
        · rw [if_neg large] at hr ⊢
          cases hr
          rfl

theorem nextLoop_refused (h : nextPacket (s.buf.drop pos) = some (n, p)) (hr : react s.toAssembly p = none) :
    nextLoop (fuel + 1) s pos = some (.error { status := .format }, s) := by
  obtain ⟨sc, hsc, hread, ne, rfl⟩ := nextPacket_some h
  rw [List.drop_drop] at hread
  have found : findSc s.buf pos = some (pos + sc) := by rw [findSc_eq, hsc, Option.map_some, Nat.add_comm]
  cases p with
  | short => exact absurd rfl ne
  | refused => simp only [nextLoop, found, hread]
  | skip len => cases hr
  | map len codec => cases hr
  | video len aligned pts payload =>
    simp only [nextLoop, found, hread]
    simp only [react] at hr
    by_cases first : aligned
    · rw [if_pos first] at hr
      cases hr
    · rw [if_neg first] at hr ⊢
      by_cases closed : !s.auOpen
      · rw [if_pos closed] at hr
        cases hr
      · rw [if_neg closed] at hr ⊢
        by_cases large : s.au.length + payload.length > kMaxPayload
        · rw [if_pos large]
        · rw [if_neg large] at hr
          cases hr

/-- Where the bytes run out, the cursor is put on the start code that was found,
or three bytes before the end. -/
def resumeAt (s : Demux) (pos : Nat) : Nat :=
  match find startCode (s.buf.drop pos) with
  | some sc => pos + sc
  | none => if s.buf.length > 3 then s.buf.length - 3 else 0

theorem nextLoop_wait (h : nextPacket (s.buf.drop pos) = none) :
    nextLoop (fuel + 1) s pos = some (.error { status := .again }, { s with cursor := s.resumeAt pos }) := by
  unfold resumeAt
  cases hsc : find startCode (s.buf.drop pos) with
  | none =>
    have found : findSc s.buf pos = none := by rw [findSc_eq, hsc, Option.map_none]
    simp only [nextLoop, found]
  | some sc =>
    have found : findSc s.buf pos = some (pos + sc) := by rw [findSc_eq, hsc, Option.map_some, Nat.add_comm]
    obtain ⟨p, hread, -⟩ := readPacket_reads ((s.buf.drop pos).drop sc)
    have short : p = .short := by
      by_contra ne
      rw [nextPacket_of_read hsc hread ne] at h
      cases h
    rw [List.drop_drop, short] at hread
    simp only [nextLoop, found, hread]

end Demux

end Rkvc.Pspack
