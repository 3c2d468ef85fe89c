import Rkvc.Pspack.Recovery

/-!
# The demuxer on arbitrary input

The demuxer once more, with every access checked: `none` is a read outside the
buffer or the access unit, an erasure of more bytes than the buffer holds, a turn
of the loop with the cursor, the buffer or the access unit out of bounds, or a
loop that does not end. (The reads of the integers and of the program stream map
are checked in the demuxer as it stands.) On no sequence of calls does any of this happen
(`calls_safe`), because a turn of the loop keeps the bounds and gets on by at
least four bytes (`nextLoop_safe`).
-/

namespace Rkvc.Pspack
set_option autoImplicit false

open Lib

/-- The cursor is inside the buffer, and neither the buffer nor the access unit
under assembly is larger than it may be. -/
def Demux.Bounded (s : Demux) : Prop :=
  s.cursor ≤ s.buf.length ∧ s.buf.length ≤ kMaxBuffered ∧ s.au.length ≤ kMaxPayload
  deriving Decidable

namespace Checked

/-! ## Checked reads -/

/-- The comparison of the bytes at a position, up to the first that differs. -/
def bytesAt (d : List UInt8) : Nat → List UInt8 → Option Bool
  | _, [] => some true
  | i, b :: bytes => d[i]?.bind fun x => if x = b then bytesAt d (i + 1) bytes else some false

/-- The range `[d + i, d + i + n)`. -/
def range (d : List UInt8) (i n : Nat) : Option (List UInt8) :=
  if i + n ≤ d.length then some ((d.drop i).take n) else none

def findScLoop (d : List UInt8) : Nat → Nat → Option (Option Nat)
  | 0, _ => none
  | fuel + 1, i =>
    if i + 2 < d.length then
      (bytesAt d i [0, 0, 1]).bind fun here => if here then some (some i) else findScLoop d fuel (i + 1)
    else some none

def findSc (d : List UInt8) (start : Nat) : Option (Option Nat) := findScLoop d (d.length + 1) start

def forEachNalLoop (d : List UInt8) : Nat → Nat → Option (List UInt8)
  | 0, _ => none
  | fuel + 1, i =>
    if i + 3 < d.length then
      (bytesAt d i [0, 0, 1]).bind fun three =>
        if three then d[i + 3]?.bind fun b => (forEachNalLoop d fuel (i + 3)).map (b :: ·)
        else (if i + 4 < d.length then bytesAt d i [0, 0, 0, 1] else some false).bind fun four =>
          if four then d[i + 4]?.bind fun b => (forEachNalLoop d fuel (i + 4)).map (b :: ·)
          else forEachNalLoop d fuel (i + 1)
    else some []

def forEachNal (d : List UInt8) : Option (List UInt8) := forEachNalLoop d (d.length + 1) 0

def sniff (d : List UInt8) : Option VideoCodec :=
  (forEachNal d).map fun headers =>
    if headers.any hevcKey then .hevc
    else if headers.any avcKey then .avc
    else .hevc

def isKeyframe (codec : VideoCodec) (data : List UInt8) : Option Bool :=
  (forEachNal data).map fun headers => headers.any fun b => match codec with
    | .avc => avcKey b
    | .hevc => hevcKey b

/-! ## The checked demuxer -/

def readPayload (d : List UInt8) (id : UInt8) (len hlen : Nat) (pts : Int) : Option Packet :=
  let pay := 9 + hlen
  if len = 0 then
    if 0xE0 ≤ id then some .refused
    else (findSc d pay).map fun
      | none => .short
      | some nx => .skip nx
  else if len < 3 + hlen then some .refused
  else
    let plen := len - 3 - hlen
    let stop := pay + plen
    if d.length < stop then some .short
    else if id < 0xE0 ∨ plen = 0 then some (.skip stop)
    else d[6]?.bind fun flags1 => (range d pay plen).map fun payload =>
      .video stop ((flags1 &&& 0x04) ≠ 0) pts payload

def readPes (d : List UInt8) (id : UInt8) : Option Packet :=
  if d.length < 9 then some .short
  else match rdU16 d 4, d[7]?, d[8]? with
    | some len, some flags2, some hlen =>
      if d.length < 9 + hlen.toNat then some .short
      else if (flags2 &&& 0x80) ≠ 0 then
        if d.length < 14 then some .short
        else (rdPts d 9).bind fun pts => readPayload d id len hlen.toNat pts
      else readPayload d id len hlen.toNat 0
    | _, _, _ => none

def readPacket (d : List UInt8) : Option Packet :=
  if d.length < 4 then some .short
  else match d[3]? with
    | none => none
    | some id =>
      if id = 0xBA then some (if d.length < 14 then .short else .skip 14)
      else if id = 0xBB ∨ id = 0xBC then readLengthPrefixed d id
      else if id = 0xB7 ∨ id = 0xB9 then some (.skip 4)
      else if !isPes id then some (.skip 4)
      else readPes d id

def emitAu (a : Assembly) : Option (Result Frame × Assembly) :=
  if !a.auOpen || a.au.isEmpty then some (.error { status := .eof }, a)
  else
    (if a.havePsm then some a.psmCodec else sniff a.au).bind fun codec =>
      (isKeyframe codec a.au).map fun keyframe =>
        (.ok { annexb := a.au, pts90 := a.auPts, keyframe, codec }, { a with au := [], auOpen := false })

def nextLoop : Nat → Demux → Nat → Option (Result Frame × Demux)
  | 0, _, _ => none
  | fuel + 1, s, pos =>
    if ¬s.Bounded then none
    else match findSc s.buf pos with
    | none => none
    | some none =>
      some (.error { status := .again }, { s with cursor := if s.buf.length > 3 then s.buf.length - 3 else 0 })
    | some (some sc) =>
      match readPacket (s.buf.drop sc) with
      | none => none
      | some .short => some (.error { status := .again }, { s with cursor := sc })
      | some .refused => some (.error { status := .format }, s)
      | some (.skip len) => nextLoop fuel s (sc + len)
      | some (.map len codec) => nextLoop fuel { s with toAssembly := s.setPsm codec } (sc + len)
      | some (.video len aligned pts payload) =>
        if aligned then
          match emitAu s.toAssembly with
          | none => none
          | some (done, a) =>
            let opened : Demux := { s with toAssembly := a.start pts payload, cursor := sc + len }
            match done with
            | .ok f => some (.ok f, opened)
            | .error _ => nextLoop fuel opened (sc + len)
        else if !s.auOpen then nextLoop fuel s (sc + len)
        else if s.au.length + payload.length > kMaxPayload then some (.error { status := .format }, s)
        else nextLoop fuel { s with au := s.au ++ payload, cursor := sc + len } (sc + len)

def next (s : Demux) : Option (Result Frame × Demux) :=
  if s.cursor ≤ s.buf.length then nextLoop (s.erase.buf.length + 1) s.erase 0 else none

def flush (s : Demux) : Option (Result Frame × Demux) :=
  (emitAu s.toAssembly).map fun (done, a) => (done, { s with toAssembly := a })

end Checked

/-! ## Calls -/

inductive Call where
  | append (data : List UInt8)
  | next
  | flush
  deriving DecidableEq, Repr

/-- What a call returns. -/
inductive Reply where
  | status (st : Status)
  | frame (r : Result Frame)

/-- One call; `none` is a `next` that does not return. -/
def Demux.call (s : Demux) : Call → Option (Reply × Demux)
  | .append data => some (.status (s.append data).1, (s.append data).2)
  | .next => s.next.map fun (r, t) => (.frame r, t)
  | .flush => some (.frame s.flush.1, s.flush.2)

def Checked.call (s : Demux) : Call → Option (Reply × Demux)
  | .append data => some (.status (s.append data).1, (s.append data).2)
  | .next => (next s).map fun (r, t) => (.frame r, t)
  | .flush => (flush s).map fun (r, t) => (.frame r, t)

/-- A sequence of calls, and what they return. -/
def runCalls (call : Demux → Call → Option (Reply × Demux)) : Demux → List Call → Option (List Reply × Demux)
  | s, [] => some ([], s)
  | s, c :: calls => (call s c).bind fun (r, t) => (runCalls call t calls).map fun (rs, u) => (r :: rs, u)

/-! ## No read is outside the buffer -/

namespace Checked

variable {d : List UInt8} {i fuel : Nat}

theorem bytesAt_eq {bytes : List UInt8} (inside : i + bytes.length ≤ d.length) :
    bytesAt d i bytes = some (Pspack.bytesAt d i bytes) := by
  induction bytes generalizing i with
  | nil => rfl
  | cons b bytes ih =>
    rw [List.length_cons] at inside
    have lt : i < d.length := by omega
    have cut : d.drop i = d[i] :: d.drop (i + 1) := List.drop_eq_getElem_cons lt
    rw [bytesAt, List.getElem?_eq_getElem lt, Option.bind_some, Pspack.bytesAt, cut, List.isPrefixOf]
    by_cases same : d[i] = b
    · rw [if_pos same, ih (by omega), same, beq_self_eq_true, Bool.true_and]
      rfl
    · rw [if_neg same, beq_false_of_ne (Ne.symm same), Bool.false_and]

theorem findScLoop_eq (enough : d.length ≤ i + fuel) :
    findScLoop d (fuel + 1) i = some (Pspack.findScLoop d fuel i) := by
  induction fuel generalizing i with
  | zero => rw [findScLoop, if_neg (by omega), Pspack.findScLoop]
  | succ fuel ih =>
    rw [findScLoop, Pspack.findScLoop]
    by_cases room : i + 2 < d.length
    · rw [if_pos room, if_pos room, bytesAt_eq (show i + 3 ≤ d.length from room), Option.bind_some, ih (by omega)]
      split <;> rfl
    · rw [if_neg room, if_neg room]

theorem findSc_eq (d : List UInt8) (start : Nat) : findSc d start = some (Pspack.findSc d start) :=
  findScLoop_eq (Nat.le_add_left _ _)

theorem forEachNalLoop_eq (enough : d.length ≤ i + fuel) :
    forEachNalLoop d (fuel + 1) i = some (Pspack.forEachNalLoop d fuel i) := by
  induction fuel generalizing i with
  | zero => rw [forEachNalLoop, if_neg (by omega), Pspack.forEachNalLoop]
  | succ fuel ih =>
    have header {k : Nat} (lt : k < d.length) : d[k]? = some (d.getD k 0) := by
      rw [List.getD_eq_getElem?_getD, List.getElem?_eq_getElem lt, Option.getD_some]
    rw [forEachNalLoop, Pspack.forEachNalLoop]
    by_cases room : i + 3 < d.length
    · rw [if_pos room, if_pos room, bytesAt_eq (show i + 3 ≤ d.length from Nat.le_of_lt room),
        Option.bind_some]
      by_cases three : Pspack.bytesAt d i [0, 0, 1] = true
      · rw [if_pos three, if_pos three, header room, Option.bind_some, ih (by omega), Option.map_some]
      · rw [if_neg three, if_neg three]
        by_cases more : i + 4 < d.length
        · rw [if_pos more, bytesAt_eq (show i + 4 ≤ d.length from Nat.le_of_lt more), Option.bind_some,
            decide_eq_true more, Bool.true_and]
          by_cases four : Pspack.bytesAt d i [0, 0, 0, 1] = true
          · rw [if_pos four, if_pos four, header more, Option.bind_some, ih (by omega), Option.map_some]
          · rw [if_neg four, if_neg four, ih (by omega)]
        · rw [if_neg more, Option.bind_some, decide_eq_false more, Bool.false_and, if_neg nofun, if_neg nofun,
            ih (by omega)]
    · rw [if_neg room, if_neg room]

theorem forEachNal_eq (d : List UInt8) : forEachNal d = some (Pspack.forEachNal d) :=
  forEachNalLoop_eq (Nat.le_add_left _ _)

theorem sniff_eq (d : List UInt8) : sniff d = some (Pspack.sniff d) := by
  rw [sniff, forEachNal_eq, Option.map_some, Pspack.sniff]

theorem isKeyframe_eq (codec : VideoCodec) (d : List UInt8) :
    isKeyframe codec d = some (Pspack.isKeyframe codec d) := by
  apply Eq.trans (congrArg (Option.map _) (forEachNal_eq d))
  rfl

theorem readPayload_eq (d : List UInt8) (id : UInt8) (len hlen : Nat) (pts : Int) :
    readPayload d id len hlen pts = Pspack.readPayload d id len hlen pts := by
  unfold readPayload Pspack.readPayload
  dsimp only
  by_cases unbounded : len = 0
  · rw [if_pos unbounded, if_pos unbounded, findSc_eq, Option.map_some]
    cases Pspack.findSc d (9 + hlen) <;> rfl
  · rw [if_neg unbounded, if_neg unbounded]
    by_cases ends : d.length < 9 + hlen + (len - 3 - hlen)
    · rw [if_pos ends, if_pos ends]
    · rw [if_neg ends, if_neg ends, range, if_pos (Nat.le_of_not_lt ends)]
      cases d[6]? <;> rfl

theorem readPacket_eq (d : List UInt8) : readPacket d = Pspack.readPacket d := by
  have pes (id : UInt8) : readPes d id = Pspack.readPes d id := by
    unfold readPes Pspack.readPes
    cases rdU16 d 4 <;> cases d[7]? <;> cases d[8]? <;> simp only [readPayload_eq]
  unfold readPacket Pspack.readPacket
  cases d[3]? <;> simp only [pes]

theorem emitAu_eq (a : Assembly) : emitAu a = some a.emitAu := by
  unfold emitAu Assembly.emitAu
  by_cases nothing : (!a.auOpen || a.au.isEmpty) = true
  · rw [if_pos nothing, if_pos nothing]
  · rw [if_neg nothing, if_neg nothing, sniff_eq]
    cases a.havePsm <;>
      simp only [if_true, if_false, Bool.false_eq_true, Option.bind_some, isKeyframe_eq, Option.map_some]

end Checked

/-! ## A turn of the loop -/

section Turn

variable {a : Assembly} {s : Demux} {d payload : List UInt8} {id : UInt8} {len hlen : Nat} {aligned : Bool}
  {pts clock : Int}

/-- The payload of a packet is shorter than its sixteen-bit length. -/
theorem readPayload_short {stop : Nat} (small : len < 65536)
    (h : readPayload d id len hlen clock = some (.video stop aligned pts payload)) : payload.length < 65536 := by
  unfold readPayload at h
  dsimp only at h
  split at h
  · split at h
    · cases h
    · split at h <;> cases h
  · split at h
    · cases h
    · split at h
      · cases h
      · split at h
        · cases h
        · obtain ⟨flags, -, h⟩ := Option.map_eq_some_iff.mp h
          cases h
          rw [List.length_take]
          omega

theorem readPes_short {stop : Nat} (h : readPes d id = some (.video stop aligned pts payload)) :
    payload.length < 65536 := by
  unfold readPes at h
  split at h
  · cases h
  · split at h
    · rename_i len flags2 hlen hlen_eq _ _
      have small := rdU16_lt hlen_eq
      split at h
      · cases h
      · split at h
        · split at h
          · cases h
          · obtain ⟨pts, -, h⟩ := Option.bind_eq_some_iff.mp h
            exact readPayload_short small h
        · exact readPayload_short small h
    · cases h

theorem readLengthPrefixed_no_video {stop : Nat} :
    readLengthPrefixed d id ≠ some (.video stop aligned pts payload) := by
  intro h
  unfold readLengthPrefixed at h
  split at h
  · cases h
  · split at h
    · cases h
    · dsimp only at h
      split at h
      · cases h
      · split at h
        · obtain ⟨codec, -, h⟩ := Option.map_eq_some_iff.mp h
          cases h
        · cases h

theorem readPacket_short {stop : Nat} (h : readPacket d = some (.video stop aligned pts payload)) :
    payload.length < 65536 := by
  unfold readPacket at h
  split at h
  · cases h
  · split at h
    · cases h
    · split at h
      · split at h <;> cases h
      · split at h
        · exact absurd h readLengthPrefixed_no_video
        · split at h
          · cases h
          · split at h
            · cases h
            · exact readPes_short h

/-- An access unit that is emitted has bytes. -/
theorem emitAu_nonempty {f : Frame} {b : Assembly} (h : a.emitAu = (.ok f, b)) : f.annexb ≠ [] := by
  unfold Assembly.emitAu at h
  split at h
  · cases h
  · rename_i some
    cases h
    intro empty
    dsimp only at empty
    rw [empty, List.isEmpty_nil, Bool.or_true] at some
    exact some rfl

/-- The loop, checked, does what the demuxer does, and leaves it within its bounds. -/
structure Ends (checked plain : Option (Result Frame × Demux)) : Prop where
  same : checked = plain
  ends : ∃ r t, plain = some (r, t) ∧ t.Bounded ∧ ∀ f, r = .ok f → f.annexb ≠ []

theorem ends_of {r : Result Frame} {t : Demux} (bounded : t.Bounded) (emits : ∀ f, r = .ok f → f.annexb ≠ []) :
    Ends (some (r, t)) (some (r, t)) := ⟨rfl, r, t, rfl, bounded, emits⟩

theorem ends_of_error {r : Failure} {t : Demux} (bounded : t.Bounded) :
    Ends (some (.error r, t)) (some (.error r, t)) := ends_of bounded nofun

/-- **A turn of the loop keeps the bounds and gets on**: the packet behind the start
code ends inside the buffer, at least four bytes behind its start. -/
theorem nextLoop_safe {fuel pos : Nat} (bounded : s.Bounded) (enough : s.buf.length < pos + fuel)
    (inside : pos ≤ s.buf.length) : Ends (Checked.nextLoop fuel s pos) (s.nextLoop fuel pos) := by
  induction fuel generalizing s pos with
  | zero => omega
  | succ fuel ih =>
    obtain ⟨cursor, buf, au⟩ := bounded
    rw [Checked.nextLoop, if_neg (not_not.mpr ⟨cursor, buf, au⟩), Checked.findSc_eq, Demux.nextLoop]
    cases hsc : findSc s.buf pos with
    | none =>
      apply ends_of_error
      refine ⟨?_, buf, au⟩
      dsimp only
      split <;> omega
    | some sc =>
      rw [findSc_eq] at hsc
      obtain ⟨j, hj, rfl⟩ := Option.map_eq_some_iff.mp hsc
      have found := (find_some hj).2
      rw [List.length_drop] at found
      obtain ⟨p, hp, facts⟩ := readPacket_reads (s.buf.drop (j + pos))
      dsimp only
      rw [Checked.readPacket_eq, hp]
      rw [List.length_drop] at facts
      have gets_on (ne : p ≠ .short) (accepted : p ≠ .refused) : 4 ≤ p.len ∧ j + pos + p.len ≤ s.buf.length := by
        have := (facts ne).2 accepted
        omega
      cases p with
      | short => exact ends_of_error ⟨show j + pos ≤ s.buf.length by omega, buf, au⟩
      | refused => exact ends_of_error ⟨cursor, buf, au⟩
      | skip len =>
        have := gets_on (by simp) (by simp)
        simp only [Packet.len] at this
        exact ih ⟨cursor, buf, au⟩ (by omega) (by omega)
      | map len codec =>
        have := gets_on (by simp) (by simp)
        simp only [Packet.len] at this
        refine ih ⟨cursor, buf, ?_⟩ (by dsimp only; omega) (by dsimp only; omega)
        rw [setPsm_au]
        exact au
      | video len aligned pts payload =>
        have := gets_on (by simp) (by simp)
        simp only [Packet.len] at this
        have small := readPacket_short hp
        dsimp only
        cases aligned with
        | true =>
          rw [if_pos rfl, if_pos rfl, Checked.emitAu_eq]
          have opened : Demux.Bounded { s with toAssembly := s.emitAu.2.start pts payload, cursor := j + pos + len } :=
            ⟨by dsimp only; omega, buf, by simp only [Assembly.start, kMaxPayload]; omega⟩
          cases hemit : s.emitAu with
          | mk done a =>
            rw [hemit] at opened
            cases done with
            | ok f =>
              apply ends_of opened
              intro g hg
              cases hg
              exact emitAu_nonempty hemit
            | error r => exact ih opened (by dsimp only; omega) (by dsimp only; omega)
        | false =>
          rw [if_neg Bool.false_ne_true, if_neg Bool.false_ne_true]
          by_cases closed : (!s.auOpen) = true
          · rw [if_pos closed, if_pos closed]
            exact ih ⟨cursor, buf, au⟩ (by omega) (by omega)
          · rw [if_neg closed, if_neg closed]
            by_cases large : s.au.length + payload.length > kMaxPayload
            · rw [if_pos large, if_pos large]
              exact ends_of_error ⟨cursor, buf, au⟩
            · rw [if_neg large, if_neg large]
              refine ih ⟨by dsimp only; omega, buf, ?_⟩ (by dsimp only; omega) (by dsimp only; omega)
              rw [List.length_append]
              exact Nat.le_of_not_lt large

end Turn

/-! ## Any sequence of calls -/

section Calls

variable {s : Demux}

theorem next_safe (bounded : s.Bounded) : Ends (Checked.next s) s.next := by
  obtain ⟨cursor, buf, au⟩ := bounded
  rw [Checked.next, if_pos cursor, Demux.next]
  refine nextLoop_safe ⟨Nat.zero_le _, ?_, au⟩ (by omega) (Nat.zero_le _)
  exact Nat.le_trans (by rw [Demux.erase, List.length_drop]; exact Nat.sub_le _ _) buf

theorem emitAu_au_le (a : Assembly) : a.emitAu.2.au.length ≤ a.au.length := by
  unfold Assembly.emitAu
  split
  · exact Nat.le_refl _
  · exact Nat.zero_le _

theorem flush_safe (bounded : s.Bounded) : Ends (Checked.flush s) (some s.flush) := by
  have same : Checked.flush s = some s.flush := by rw [Checked.flush, Checked.emitAu_eq]; rfl
  refine ⟨same, s.flush.1, s.flush.2, rfl, ?_, ?_⟩
  · exact ⟨bounded.1, bounded.2.1, Nat.le_trans (emitAu_au_le s.toAssembly) bounded.2.2⟩
  · intro f hf
    exact emitAu_nonempty (b := s.emitAu.2) (by rw [← hf]; rfl)

theorem append_bounded (bounded : s.Bounded) (data : List UInt8) : (s.append data).2.Bounded := by
  unfold Demux.append
  split
  · exact bounded
  · split
    · exact bounded
    · rename_i room
      refine ⟨?_, ?_, bounded.2.2⟩
      · rw [List.length_append]
        exact Nat.le_add_right_of_le bounded.1
      · rw [List.length_append]
        exact Nat.le_of_not_lt room

/-- What a call may return. -/
def Reply.Fine : Reply → Prop
  | .status _ => True
  | .frame r => ∀ f, r = .ok f → f.annexb ≠ []

theorem call_safe (bounded : s.Bounded) (c : Call) :
    ∃ r t, Checked.call s c = some (r, t) ∧ s.call c = some (r, t) ∧ t.Bounded ∧ r.Fine := by
  cases c with
  | append data => exact ⟨_, _, rfl, rfl, append_bounded bounded data, trivial⟩
  | next =>
    obtain ⟨same, r, t, ends, within, fine⟩ := next_safe bounded
    exact ⟨.frame r, t, by rw [Checked.call, same, ends]; rfl, by rw [Demux.call, ends]; rfl, within, fine⟩
  | flush =>
    obtain ⟨same, r, t, ends, within, fine⟩ := flush_safe bounded
    cases ends
    exact ⟨.frame s.flush.1, s.flush.2, by rw [Checked.call, same]; rfl, rfl, within, fine⟩

theorem runCalls_cons {call : Demux → Call → Option (Reply × Demux)} {c : Call} {calls : List Call} {r : Reply}
    {rs : List Reply} {t u : Demux} (first : call s c = some (r, t)) (rest : runCalls call t calls = some (rs, u)) :
    runCalls call s (c :: calls) = some (r :: rs, u) := by
  rw [runCalls, first, Option.bind_some]
  dsimp only
  rw [rest, Option.map_some]

theorem runCalls_safe (bounded : s.Bounded) (calls : List Call) :
    ∃ replies t, runCalls Checked.call s calls = some (replies, t) ∧ runCalls Demux.call s calls = some (replies, t) ∧
      t.Bounded ∧ ∀ r ∈ replies, r.Fine := by
  induction calls generalizing s with
  | nil => exact ⟨[], s, rfl, rfl, bounded, nofun⟩
  | cons c calls ih =>
    obtain ⟨r, t, checked, plain, within, fine⟩ := call_safe bounded c
    obtain ⟨replies, u, checked', plain', within', fine'⟩ := ih within
    refine ⟨r :: replies, u, runCalls_cons checked checked', runCalls_cons plain plain', within', ?_⟩
    intro x hx
    rcases List.mem_cons.mp hx with rfl | later
    · exact fine
    · exact fine' x later

/-- **The demuxer is safe on arbitrary input**: whatever is appended, and in whatever
order the calls come, every call returns without a read outside the buffer, the
cursor stays inside the buffer, the buffer and the access unit under assembly keep
their limits, and no access unit without bytes is emitted. -/
theorem calls_safe (calls : List Call) :
    ∃ replies s, runCalls Checked.call {} calls = some (replies, s) ∧ runCalls Demux.call {} calls = some (replies, s) ∧
      s.cursor ≤ s.buf.length ∧ s.buf.length ≤ kMaxBuffered ∧ s.au.length ≤ kMaxPayload ∧
      ∀ f, .frame (.ok f) ∈ replies → f.annexb ≠ [] := by
  obtain ⟨replies, s, checked, plain, ⟨cursor, buf, au⟩, fine⟩ := runCalls_safe (s := {}) (by decide) calls
  refine ⟨replies, s, checked, plain, cursor, buf, au, ?_⟩
  intro f hf
  exact fine _ hf f rfl

end Calls

end Rkvc.Pspack
