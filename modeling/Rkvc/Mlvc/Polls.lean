import Rkvc.Mlvc.Container

/-!
# Polling the demuxer

A caller appends bytes, polls for a view and consumes it, in any order. The demuxer
follows an incremental reader of the whole stream, except that a poll of an empty
buffer in front of the header refuses the stream for good, and that a repeated poll
counts its record again.
-/

namespace Rkvc.Mlvc
set_option autoImplicit false
open Lib

/-! ## The stream as a whole -/

/-- The container as a reader; its state is the header that has been read. -/
def containerReader : Reader (Option Header) UInt8 View where
  next
    | none, w => match parseHeader w with
      | .ok h => some (kHdrSize, some h, none)
      | .error _ => none
    | some h, w => match readRecord w with
      | .record v => some (v.size, some h, some v)
      | _ => none
  progress {s w n t f} h := by
    cases s with
    | none =>
      dsimp only at h
      split at h
      · rename_i hdr parsed
        cases h
        exact ⟨by decide, parseHeader_ok parsed⟩
      · cases h
    | some hdr =>
      dsimp only at h
      split at h
      · rename_i v read
        cases h
        exact readRecord_record read
      · cases h
  stable {s w r} h y := by
    cases s with
    | none =>
      dsimp only at h ⊢
      split at h
      · rename_i hdr parsed
        rw [parseHeader_append (parseHeader_ok parsed), parsed]
        exact h
      · cases h
    | some hdr =>
      dsimp only at h ⊢
      split at h
      · rename_i v read
        rw [readRecord_append (by rw [read]; exact nofun), read]
        exact h
      · cases h

/-- The stream is malformed here. -/
def malformedAt : Option Header → List UInt8 → Bool
  | none, w => (parseHeader w).status = .format
  | some _, w => readRecord w = .malformed

/-- The records of a stream, from a state of the reader on, and how reading it ends. -/
def readFrom (s : Option Header) (w : List UInt8) : List View × Status :=
  let r := containerReader.run s w
  (r.items, if malformedAt r.state r.rest then .format else .again)

section Read

variable {s t : Option Header} {w y : List UInt8} {n : Nat} {f : Option View} {v : View}

theorem readFrom_of_none (h : containerReader.next s w = none) :
    readFrom s w = ([], if malformedAt s w then .format else .again) := by
  rw [readFrom, Reader.run_of_none h]

theorem readFrom_of_some (h : containerReader.next s w = some (n, t, f)) :
    readFrom s w = (f.toList ++ (readFrom t (w.drop n)).1, (readFrom t (w.drop n)).2) := by
  rw [readFrom, Reader.run_of_some h]
  rfl

theorem malformedAt_stops (h : malformedAt s w = true) : containerReader.next s w = none := by
  cases s with
  | none =>
    simp only [malformedAt, decide_eq_true_eq] at h
    simp only [containerReader]
    split
    · rename_i hdr parsed
      rw [parsed] at h
      cases h
    · rfl
  | some hdr =>
    simp only [malformedAt, decide_eq_true_eq] at h
    simp only [containerReader, h]

/-- A malformed stream stays so, but for the empty one. -/
theorem malformedAt_append (h : malformedAt s w = true) (settled : s = none → w ≠ []) (y : List UInt8) :
    malformedAt s (w ++ y) = true := by
  cases s with
  | none =>
    simp only [malformedAt, decide_eq_true_eq] at h ⊢
    have long : kHdrSize ≤ w.length := by
      by_contra short
      simp only [parseHeader, if_neg (settled rfl), if_pos (Nat.lt_of_not_le short)] at h
      cases h
    rw [parseHeader_append long]
    exact h
  | some hdr =>
    simp only [malformedAt, decide_eq_true_eq] at h ⊢
    rw [readRecord_append (by simp [h])]
    exact h

theorem readFrom_malformed (h : malformedAt s w = true) : readFrom s w = ([], .format) := by
  rw [readFrom_of_none (malformedAt_stops h), if_pos h]

end Read

/-! ## Schedules -/

inductive Op where
  | append (chunk : List UInt8)
  | poll
  | consume
  deriving DecidableEq, Repr

/-- The bytes a step appends. -/
def Op.bytes : Op → List UInt8
  | .append chunk => chunk
  | _ => []

def bytesOf (ops : List Op) : List UInt8 := ops.flatMap Op.bytes

/-- A caller: the demuxer, the records it was handed, whether the last of them is still to
be consumed, and how often such a record was polled again. -/
structure Caller where
  demux : Demuxer := {}
  records : List View := []
  outstanding : Bool := false
  repolls : Nat := 0
  deriving DecidableEq

namespace Caller

def step (c : Caller) : Op → Caller
  | .append chunk => { c with demux := (c.demux.append chunk).2 }
  | .poll => match c.demux.next with
    | (.error _, d) => { c with demux := d }
    | (.ok v, d) =>
      if c.outstanding then { c with demux := d, repolls := c.repolls + 1 }
      else { c with demux := d, records := c.records ++ [v], outstanding := true }
  | .consume => { c with demux := c.demux.consumeRecord, outstanding := false }

def run (c : Caller) (ops : List Op) : Caller := ops.foldl step c

/-- No append of the schedule is refused for its size. -/
def Fits (c : Caller) : List Op → Prop
  | [] => True
  | op :: ops => c.demux.buf.length + op.bytes.length ≤ kSizeMax ∧ Fits (c.step op) ops

instance decidableFits : (ops : List Op) → (c : Caller) → Decidable (c.Fits ops)
  | [], _ => .isTrue trivial
  | op :: ops, c =>
    have := decidableFits ops (c.step op)
    inferInstanceAs (Decidable (_ ∧ _))

/-- Poll and consume until there is no record. -/
def finishLoop : Nat → Caller → Caller × Status
  | 0, c => (c, .again)
  | fuel + 1, c =>
    match c.demux.next with
    | (.error e, d) => ({ c with demux := d }, e.status)
    | (.ok _, _) => finishLoop fuel ((c.step .poll).step .consume)

/-- Consume what is outstanding and read to the end. -/
def finish (c : Caller) : Caller × Status :=
  finishLoop (c.demux.buf.length + 2) (c.step .consume)

end Caller

/-- The first poll comes before the first byte. -/
def earlyPoll : List Op → Bool
  | [] => false
  | .append [] :: ops => earlyPoll ops
  | .append _ :: _ => false
  | .poll :: _ => true
  | .consume :: ops => earlyPoll ops

/-! ## A caller and the stream -/

def Demuxer.state (d : Demuxer) : Option Header := if d.haveHeader then some d.header else none

/-- The demuxer follows the reader of `w`, of which `done` has been consumed. -/
structure Follows (d : Demuxer) (w : List UInt8) (done : List View) : Prop where
  under : d.parseError = false → containerReader.Under none w done d.state d.buf
  /-- A refused stream is malformed however it goes on. -/
  failed : d.parseError = true → ∀ y, readFrom none (w ++ y) = (done, .format)
  waiting : d.haveHeader = false → d.parseError = false → d.buf = w

/-- Between two steps: nothing is outstanding, or the record at the front of the buffer. -/
inductive Sync (c : Caller) (w : List UInt8) : Prop where
  | idle (follows : Follows c.demux w c.records) (fresh : c.outstanding = false) (none : c.demux.lastRecord = 0)
      (count : c.demux.framesEmitted = c.records.length + c.repolls)
  | held {done : List View} {v : View} (follows : Follows c.demux w done) (outstanding : c.outstanding = true)
      (records : c.records = done ++ [v]) (header : c.demux.haveHeader = true)
      (accepted : c.demux.parseError = false) (view : readRecord c.demux.buf = .record v)
      (last : c.demux.lastRecord = v.size) (count : c.demux.framesEmitted = c.records.length + c.repolls)

section Follow

variable {c : Caller} {d : Demuxer} {w : List UInt8} {done : List View} {v : View} {ops : List Op}

theorem Follows.append (h : Follows d w done) {chunk : List UInt8}
    (fits : d.buf.length + chunk.length ≤ kSizeMax) :
    Follows (d.append chunk).2 (w ++ chunk) done := by
  unfold Demuxer.append
  split
  · rename_i refused
    constructor
    · intro accepted
      rw [refused] at accepted
      cases accepted
    · intro _ y
      rw [List.append_assoc]
      exact h.failed refused (chunk ++ y)
    · intro _ accepted
      rw [refused] at accepted
      cases accepted
  · rename_i accepted
    split
    · rename_i empty
      rw [empty, List.append_nil]
      exact h
    · rw [if_neg (by omega)]
      constructor
      · intro accepted
        exact (h.under accepted).append chunk
      · intro refused
        exact absurd refused accepted
      · intro noHeader accepted
        exact congrArg (· ++ chunk) (h.waiting noHeader accepted)

theorem append_keeps (d : Demuxer) (chunk : List UInt8) :
    (d.append chunk).2.lastRecord = d.lastRecord ∧ (d.append chunk).2.framesEmitted = d.framesEmitted ∧
      (d.append chunk).2.haveHeader = d.haveHeader ∧ (d.append chunk).2.parseError = d.parseError := by
  unfold Demuxer.append
  split
  · exact ⟨rfl, rfl, rfl, rfl⟩
  · split
    · exact ⟨rfl, rfl, rfl, rfl⟩
    · split <;> exact ⟨rfl, rfl, rfl, rfl⟩

theorem Sync.append (h : Sync c w) {chunk : List UInt8} (fits : c.demux.buf.length + chunk.length ≤ kSizeMax) :
    Sync (c.step (.append chunk)) (w ++ chunk) := by
  obtain ⟨last, frames, header, error⟩ := append_keeps c.demux chunk
  cases h with
  | idle follows fresh none count =>
    exact .idle (follows.append fits) fresh (last.trans none) (frames.trans count)
  | @held done v follows outstanding records have_ accepted view size count =>
    refine .held (follows.append fits) outstanding records (header.trans have_) (error.trans accepted) ?_
      (last.trans size) (frames.trans count)
    have grown : ∃ y, (c.demux.append chunk).2.buf = c.demux.buf ++ y := by
      unfold Demuxer.append
      split
      · exact ⟨[], (List.append_nil _).symm⟩
      · split
        · exact ⟨[], (List.append_nil _).symm⟩
        · split
          · exact ⟨[], (List.append_nil _).symm⟩
          · exact ⟨chunk, rfl⟩
    obtain ⟨y, grown⟩ := grown
    have same := readRecord_append (w := c.demux.buf) (by rw [view]; exact nofun) y
    rw [view] at same
    simp only [Caller.step, grown, same]

/-- A record that is consumed leaves the buffer. -/
theorem consumeRecord_view (view : readRecord d.buf = .record v) (last : d.lastRecord = v.size) :
    d.consumeRecord = { d with buf := d.buf.drop v.size, lastRecord := 0 } := by
  have bounds := readRecord_record view
  rw [Demuxer.consumeRecord, last, if_neg (by omega)]

/-- What follows the reader follows it behind the record that is consumed. -/
theorem Follows.consume (h : Follows d w done) (header : d.haveHeader = true) (accepted : d.parseError = false)
    (view : readRecord d.buf = .record v) (last : d.lastRecord = v.size) :
    Follows d.consumeRecord w (done ++ [v]) := by
  have state : d.state = some d.header := if_pos header
  have next : containerReader.next d.state d.buf = some (v.size, some d.header, some v) := by
    simp only [containerReader, state, view]
  rw [consumeRecord_view view last]
  constructor
  · intro _
    have behind := (h.under accepted).next next
    rw [← state] at behind
    exact behind
  · intro refused
    exact absurd (accepted.symm.trans refused) Bool.false_ne_true
  · intro noHeader
    exact absurd (noHeader.symm.trans header) Bool.false_ne_true

theorem Sync.consume (h : Sync c w) : Sync (c.step .consume) w := by
  cases h with
  | idle follows fresh none count =>
    have same : c.demux.consumeRecord = c.demux := if_pos (.inl none)
    refine .idle ?_ rfl ?_ ?_
    · simp only [Caller.step, same]
      exact follows
    · simp only [Caller.step, same]
      exact none
    · simp only [Caller.step, same]
      exact count
  | @held done v follows outstanding records header accepted view last count =>
    have dropped := consumeRecord_view view last
    refine .idle ?_ rfl ?_ ?_
    · simp only [Caller.step, records]
      exact follows.consume header accepted view last
    · simp only [Caller.step, dropped]
    · simp only [Caller.step, dropped]
      exact count

/-! ### Polls -/

/-- The demuxer behind the header, if that can be read. -/
def Demuxer.opened (d : Demuxer) : Demuxer :=
  if d.haveHeader then d
  else match parseHeader d.buf with
    | .ok h => { d with header := h, haveHeader := true, buf := d.buf.drop kHdrSize }
    | .error _ => d

theorem next_opened (accepted : d.parseError = false) (header : d.opened.haveHeader = true) :
    d.next = d.opened.nextRecord := by
  unfold Demuxer.opened at header ⊢
  unfold Demuxer.next
  rw [if_neg (by rw [accepted]; exact nofun)]
  split
  · rfl
  · rename_i noHeader
    rw [if_neg noHeader] at header
    cases parsed : parseHeader d.buf with
    | ok h => rfl
    | error e =>
      rw [parsed] at header
      exact absurd header noHeader

theorem next_closed (accepted : d.parseError = false) (header : d.opened.haveHeader = false) :
    d.haveHeader = false ∧ ∃ e, parseHeader d.buf = .error e ∧
      d.next = if e.status = .again then (.error { status := .again }, d)
        else (.error { status := .format }, { d with parseError := true }) := by
  unfold Demuxer.opened at header
  split at header
  · rename_i have_
    rw [have_] at header
    cases header
  · rename_i noHeader
    refine ⟨by simpa using noHeader, ?_⟩
    cases parsed : parseHeader d.buf with
    | ok h =>
      rw [parsed] at header
      cases header
    | error e =>
      refine ⟨e, rfl, ?_⟩
      rw [Demuxer.next, if_neg (by rw [accepted]; exact nofun), if_neg noHeader, parsed]

theorem opened_keeps (d : Demuxer) :
    d.opened.lastRecord = d.lastRecord ∧ d.opened.framesEmitted = d.framesEmitted ∧
      d.opened.parseError = d.parseError ∧ d.opened.buf.length ≤ d.buf.length := by
  unfold Demuxer.opened
  split
  · exact ⟨rfl, rfl, rfl, Nat.le_refl _⟩
  · split
    · exact ⟨rfl, rfl, rfl, by simp only [List.length_drop]; omega⟩
    · exact ⟨rfl, rfl, rfl, Nat.le_refl _⟩

theorem Follows.opened (h : Follows d w done) (accepted : d.parseError = false) : Follows d.opened w done := by
  unfold Demuxer.opened
  split
  · exact h
  · rename_i noHeader
    split
    · rename_i hdr parsed
      have state : d.state = none := if_neg noHeader
      have next : containerReader.next d.state d.buf = some (kHdrSize, some hdr, none) := by
        simp only [containerReader, state, parsed]
      constructor
      · intro _
        have := (h.under accepted).next next
        rw [Option.toList_none, List.append_nil] at this
        exact this
      · intro refused
        exact absurd (accepted.symm.trans refused) nofun
      · exact nofun
    · exact h

/-- Reading on from where the demuxer is. -/
theorem Follows.readFrom (h : Follows d w done) (accepted : d.parseError = false) (y : List UInt8) :
    Mlvc.readFrom none (w ++ y) =
      (done ++ (Mlvc.readFrom d.state (d.buf ++ y)).1, (Mlvc.readFrom d.state (d.buf ++ y)).2) := by
  rw [Mlvc.readFrom, h.under accepted y]
  rfl

/-- A stream that turns out to be malformed is refused from then on. -/
theorem Follows.refuse (h : Follows d w done) (accepted : d.parseError = false)
    (malformed : malformedAt d.state d.buf = true) (settled : d.state = none → d.buf ≠ []) :
    Follows { d with parseError := true } w done where
  under := nofun
  failed _ y := by
    rw [h.readFrom accepted y, readFrom_malformed (malformedAt_append malformed settled y), List.append_nil]
  waiting _ := nofun

/-- A poll that returns a view. -/
structure Viewed (d d' : Demuxer) (w : List UInt8) (done : List View) (v : View) : Prop where
  follows : Follows d' w done
  accepted : d'.parseError = false
  header : d'.haveHeader = true
  view : readRecord d'.buf = .record v
  last : d'.lastRecord = v.size
  count : d'.framesEmitted = d.framesEmitted + 1
  room : d'.buf.length ≤ d.buf.length

/-- A poll that returns none: the records have all been read. -/
structure Waited (d d' : Demuxer) (w : List UInt8) (done : List View) (s : Status) : Prop where
  ends : readFrom none w = (done, s)
  follows : w ≠ [] → Follows d' w done
  last : d'.lastRecord = d.lastRecord
  count : d'.framesEmitted = d.framesEmitted
  left : s = .again → containerReader.run none w = ⟨done, d'.state, d'.buf⟩

/-- **One poll.** -/
theorem Follows.next (h : Follows d w done) :
    (∃ v d', d.next = (.ok v, d') ∧ Viewed d d' w done v) ∨
      ∃ e d', d.next = (.error e, d') ∧ Waited d d' w done e.status := by
  by_cases refused : d.parseError = true
  · have ends := h.failed refused []
    rw [List.append_nil] at ends
    exact .inr ⟨_, d, if_pos refused, ends, fun _ => h, rfl, rfl, by simp⟩
  have accepted : d.parseError = false := by simpa using refused
  obtain ⟨last, frames, error, room⟩ := opened_keeps d
  by_cases header : d.opened.haveHeader = true
  · have follows := h.opened accepted
    have accepted' := error.trans accepted
    have state : d.opened.state = some d.opened.header := if_pos header
    have reading := follows.readFrom accepted' []
    rw [List.append_nil, List.append_nil] at reading
    rw [next_opened accepted header, Demuxer.nextRecord]
    cases read : readRecord d.opened.buf with
    | short =>
      have stops : containerReader.next d.opened.state d.opened.buf = none := by
        simp only [containerReader, state, read]
      have fine : malformedAt d.opened.state d.opened.buf = false := by simp [malformedAt, state, read]
      refine .inr ⟨_, _, rfl, ?_, fun _ => follows, last, frames, fun _ => ?_⟩
      · rw [reading, readFrom_of_none stops, fine]
        simp
      · have run := (follows.under accepted').run
        rw [Reader.run_of_none stops, Reader.Run.behind, List.append_nil] at run
        exact run
    | malformed =>
      have bad : malformedAt d.opened.state d.opened.buf = true := by simp [malformedAt, state, read]
      refine .inr ⟨_, _, rfl, ?_, fun _ => follows.refuse accepted' bad ?_, last, frames, by simp⟩
      · rw [reading, readFrom_malformed bad, List.append_nil]
      · simp [state]
    | record v =>
      refine .inl ⟨v, _, rfl, ?_, accepted', header, read, rfl, by simp only [frames], room⟩
      exact ⟨follows.under, follows.failed, follows.waiting⟩
  · obtain ⟨noHeader, e, parsed, eq⟩ := next_closed accepted (by simpa using header)
    have whole := h.waiting noHeader accepted
    have state : d.state = none := if_neg (by simp [noHeader])
    have stops : containerReader.next d.state d.buf = none := by simp only [containerReader, state, parsed]
    have reading := h.readFrom accepted []
    rw [List.append_nil, List.append_nil, readFrom_of_none stops, List.append_nil] at reading
    rw [eq]
    by_cases again : e.status = .again
    · have fine : malformedAt d.state d.buf = false := by simp [malformedAt, state, parsed, Result.status, again]
      rw [if_pos again]
      refine .inr ⟨_, d, rfl, by rw [reading, fine]; rfl, fun _ => h, rfl, rfl, fun _ => ?_⟩
      have run := (h.under accepted).run
      rw [Reader.run_of_none stops, Reader.Run.behind, List.append_nil] at run
      exact run
    · have format : e.status = .format := parseHeader_status parsed again
      have bad : malformedAt d.state d.buf = true := by simp [malformedAt, state, parsed, Result.status, format]
      rw [if_neg again]
      refine .inr ⟨_, _, rfl, by rw [reading, bad]; rfl, fun some => ?_, rfl, rfl, by simp⟩
      exact h.refuse accepted bad fun _ => by rw [whole]; exact some

/-- A poll that returns a view to a caller with none outstanding. -/
theorem Viewed.sync {d' : Demuxer} (h : Viewed c.demux d' w c.records v) (eq : c.demux.next = (.ok v, d'))
    (fresh : c.outstanding = false) (count : c.demux.framesEmitted = c.records.length + c.repolls) :
    Sync (c.step .poll) w := by
  have step : c.step .poll = { c with demux := d', records := c.records ++ [v], outstanding := true } := by
    simp [Caller.step, eq, fresh]
  rw [step]
  refine .held h.follows rfl rfl h.header h.accepted h.view h.last ?_
  rw [h.count, count, List.length_append]
  simp only [List.length_cons, List.length_nil]
  omega

theorem Sync.poll (h : Sync c w) (some : w ≠ []) : Sync (c.step .poll) w := by
  cases h with
  | idle follows fresh none count =>
    rcases follows.next with ⟨v, d', eq, viewed⟩ | ⟨e, d', eq, waited⟩
    · exact viewed.sync eq fresh count
    · have step : c.step .poll = { c with demux := d' } := by simp only [Caller.step, eq]
      rw [step]
      exact .idle (waited.follows some) fresh (waited.last.trans none) (waited.count.trans count)
  | @held done v follows outstanding records header accepted view last count =>
    have eq : c.demux.next =
        (.ok v, { c.demux with lastRecord := v.size, framesEmitted := c.demux.framesEmitted + 1 }) := by
      rw [Demuxer.next, if_neg (by rw [accepted]; exact nofun), if_pos header, Demuxer.nextRecord, view]
    have step : c.step .poll =
        { c with
          demux := { c.demux with lastRecord := v.size, framesEmitted := c.demux.framesEmitted + 1 }
          repolls := c.repolls + 1 } := by
      simp [Caller.step, eq, outstanding]
    rw [step]
    refine .held ⟨follows.under, follows.failed, follows.waiting⟩ outstanding records header accepted
      view rfl ?_
    simp only [count]
    omega

/-! ### Whole schedules -/

theorem bytesOf_cons (op : Op) (ops : List Op) : bytesOf (op :: ops) = op.bytes ++ bytesOf ops := rfl

theorem nextRecord_buf (d : Demuxer) : d.nextRecord.2.buf = d.buf := by
  unfold Demuxer.nextRecord
  split <;> rfl

theorem next_buf (d : Demuxer) : d.next.2.buf.length ≤ d.buf.length := by
  unfold Demuxer.next
  split
  · exact Nat.le_refl _
  · split
    · rw [nextRecord_buf]
    · split
      · split <;> exact Nat.le_refl _
      · rw [nextRecord_buf]
        simp only [List.length_drop]
        omega

theorem consume_buf (d : Demuxer) : d.consumeRecord.buf.length ≤ d.buf.length := by
  unfold Demuxer.consumeRecord
  split
  · exact Nat.le_refl _
  · simp only [List.length_drop]
    omega

theorem append_buf (d : Demuxer) (chunk : List UInt8) :
    (d.append chunk).2.buf.length ≤ d.buf.length + chunk.length := by
  unfold Demuxer.append
  split
  · exact Nat.le_add_right _ _
  · split
    · exact Nat.le_add_right _ _
    · split
      · exact Nat.le_add_right _ _
      · rw [List.length_append]

theorem step_buf (c : Caller) (op : Op) : (c.step op).demux.buf.length ≤ c.demux.buf.length + op.bytes.length := by
  cases op with
  | append chunk => exact append_buf c.demux chunk
  | consume => exact consume_buf c.demux
  | poll =>
    have next := next_buf c.demux
    simp only [Caller.step, Op.bytes, List.length_nil, Nat.add_zero]
    split
    · rename_i eq
      rw [eq] at next
      exact next
    · rename_i eq
      rw [eq] at next
      split <;> exact next

/-- A stream that fits is appended in pieces that do. -/
theorem fits_of_total (fits : c.demux.buf.length + (bytesOf ops).length ≤ kSizeMax) : c.Fits ops := by
  induction ops generalizing c with
  | nil => trivial
  | cons op ops ih =>
    rw [bytesOf_cons, List.length_append] at fits
    have grows := step_buf c op
    exact ⟨by omega, ih (by omega)⟩

/-- **A schedule without an early poll** follows the stream. -/
theorem Sync.run (h : Sync c w) (fits : c.Fits ops) (late : w ≠ [] ∨ earlyPoll ops = false) :
    Sync (c.run ops) (w ++ bytesOf ops) := by
  induction ops generalizing c w with
  | nil =>
    rw [bytesOf, List.flatMap_nil, List.append_nil]
    exact h
  | cons op ops ih =>
    obtain ⟨room, fits⟩ := fits
    rw [bytesOf_cons, ← List.append_assoc, Caller.run, List.foldl_cons]
    have goesOn : w ++ op.bytes ≠ [] ∨ earlyPoll ops = false := by
      rcases late with some | late
      · exact .inl (by simp [some])
      · match op, late with
        | .append [], late => exact .inr late
        | .append (b :: chunk), _ => exact .inl (by simp [Op.bytes])
        | .consume, late => exact .inr late
    refine ih ?_ fits goesOn
    match op with
    | .append chunk => exact h.append room
    | .poll =>
      have some : w ≠ [] := late.resolve_right nofun
      have := h.poll some
      rwa [show Op.bytes .poll = [] from rfl, List.append_nil]
    | .consume =>
      have := h.consume
      rwa [show Op.bytes .consume = [] from rfl, List.append_nil]

theorem sync_start : Sync {} [] :=
  .idle ⟨fun _ => Reader.Under.refl none [], nofun, fun _ _ => rfl⟩ rfl rfl rfl

/-- What a caller has that has read a stream to its end. -/
structure Finished (c : Caller) (w : List UInt8) (repolls : Nat) (out : Caller × Status) : Prop where
  ends : readFrom none w = (out.1.records, out.2)
  count : out.1.demux.framesEmitted = out.1.records.length + repolls
  left : out.2 = .again → containerReader.run none w = ⟨out.1.records, out.1.demux.state, out.1.demux.buf⟩

/-- Reading to the end. -/
theorem Sync.finishLoop (h : Sync c w) (fresh : c.outstanding = false) {fuel : Nat}
    (enough : c.demux.buf.length < fuel) : Finished c w c.repolls (c.finishLoop fuel) := by
  induction fuel generalizing c with
  | zero => exact absurd enough (Nat.not_lt_zero _)
  | succ fuel ih =>
    cases h with
    | held follows outstanding => exact absurd (fresh.symm.trans outstanding) nofun
    | idle follows fresh none count =>
      rcases follows.next with ⟨v, d', eq, viewed⟩ | ⟨e, d', eq, waited⟩
      · have polled := viewed.sync eq fresh count
        have consumed := polled.consume
        have bounds := readRecord_record viewed.view
        have step : (c.step .poll).demux = d' := by simp [Caller.step, eq, fresh]
        have dropped : ((c.step .poll).step .consume).demux.buf.length + v.size = d'.buf.length := by
          simp only [Caller.step, eq, fresh, Bool.false_eq_true, if_false, Demuxer.consumeRecord, viewed.last]
          rw [if_neg (by omega), List.length_drop]
          omega
        have room := viewed.room
        have again : ((c.step .poll).step .consume).repolls = c.repolls := by
          simp [Caller.step, eq, fresh]
        have rest := ih consumed rfl (by omega)
        rw [again] at rest
        simp only [Caller.finishLoop, eq]
        exact ⟨rest.ends, rest.count, rest.left⟩
      · simp only [Caller.finishLoop, eq]
        exact ⟨waited.ends, waited.count.trans count, waited.left⟩

theorem Sync.finish (h : Sync c w) : Finished c w c.repolls c.finish := by
  have shrinks : (c.step .consume).demux.buf.length ≤ c.demux.buf.length := step_buf c .consume
  have := h.consume.finishLoop rfl (show (c.step .consume).demux.buf.length < c.demux.buf.length + 2 by omega)
  exact ⟨this.ends, this.count, this.left⟩

end Follow

/-! ## When the schedule makes no difference -/

/-- The stream is malformed at its header or at its first record. -/
def opensMalformed (w : List UInt8) : Bool :=
  match parseHeader w with
  | .error e => e.status = .format
  | .ok _ => readRecord (w.drop kHdrSize) = .malformed

theorem opensMalformed_iff (w : List UInt8) : opensMalformed w = true ↔ readFrom none w = ([], .format) := by
  unfold opensMalformed
  cases parsed : parseHeader w with
  | error e =>
    have stops : containerReader.next none w = none := by simp only [containerReader, parsed]
    rw [readFrom_of_none stops]
    by_cases format : e.status = .format <;> simp [malformedAt, parsed, Result.status, format]
  | ok h =>
    have header : containerReader.next none w = some (kHdrSize, some h, none) := by
      simp only [containerReader, parsed]
    rw [readFrom_of_some header, Option.toList_none, List.nil_append]
    cases read : readRecord (w.drop kHdrSize) with
    | short =>
      have stops : containerReader.next (some h) (w.drop kHdrSize) = none := by simp only [containerReader, read]
      rw [readFrom_of_none stops]
      simp [malformedAt, read]
    | malformed =>
      have bad : malformedAt (some h) (w.drop kHdrSize) = true := by simp [malformedAt, read]
      rw [readFrom_malformed bad]
      simp
    | record v =>
      have taken : containerReader.next (some h) (w.drop kHdrSize) = some (v.size, some h, some v) := by
        simp only [containerReader, read]
      rw [readFrom_of_some taken]
      simp

/-- A caller whose demuxer has refused the stream before it came. -/
structure Dead (c : Caller) : Prop where
  refused : c.demux.parseError = true
  records : c.records = []
  fresh : c.outstanding = false
  last : c.demux.lastRecord = 0
  frames : c.demux.framesEmitted = 0
  repolls : c.repolls = 0

section Dead

variable {c : Caller}

theorem Dead.step (h : Dead c) (op : Op) : c.step op = c := by
  have fresh := h.fresh
  match op with
  | .append chunk =>
    have same : c.demux.append chunk = (.format, c.demux) := if_pos h.refused
    simp only [Caller.step, same]
  | .poll =>
    have same : c.demux.next = (.error { status := .format }, c.demux) := if_pos h.refused
    simp only [Caller.step, same]
  | .consume =>
    have same : c.demux.consumeRecord = c.demux := if_pos (.inl h.last)
    simp only [Caller.step, same]
    rw [← fresh]

theorem Dead.run (h : Dead c) (ops : List Op) : c.run ops = c := by
  induction ops with
  | nil => rfl
  | cons op ops ih =>
    rw [Caller.run, List.foldl_cons, h.step op]
    exact ih

theorem Dead.finish (h : Dead c) : c.finish = (c, .format) := by
  have same : c.demux.next = (.error { status := .format }, c.demux) := if_pos h.refused
  rw [Caller.finish, h.step .consume, Caller.finishLoop, same]

theorem dead_of_early {ops : List Op} (early : earlyPoll ops = true) : Dead (({} : Caller).run ops) := by
  induction ops with
  | nil => cases early
  | cons op ops ih =>
    match op, early with
    | .append [], early => exact ih early
    | .consume, early => exact ih early
    | .poll, _ =>
      have dead : Dead (({} : Caller).step .poll) := ⟨rfl, rfl, rfl, rfl, rfl, rfl⟩
      rw [Caller.run, List.foldl_cons]
      have stays := dead.run ops
      rw [Caller.run] at stays
      rw [stays]
      exact dead

end Dead

/-- The records, how they end and how many are counted, whatever the schedule. -/
def Agrees (ops : List Op) : Prop :=
  let reached := (({} : Caller).run ops).finish
  let whole := (({} : Caller).run [.append (bytesOf ops)]).finish
  reached.1.records = whole.1.records ∧ reached.2 = whole.2 ∧
    reached.1.demux.framesEmitted = reached.1.records.length

theorem sync_of_late {ops : List Op} (fits : ({} : Caller).Fits ops) (late : earlyPoll ops = false) :
    Sync (({} : Caller).run ops) (bytesOf ops) :=
  sync_start.run fits (.inr late)

/-- **The schedule makes no difference exactly where** it does not poll before the first byte,
or the stream opens malformed, and no record is polled again before it is consumed. -/
theorem polls_agree_iff (ops : List Op) (fits : (bytesOf ops).length ≤ kSizeMax) :
    Agrees ops ↔ (earlyPoll ops = true → opensMalformed (bytesOf ops) = true) ∧
      (({} : Caller).run ops).repolls = 0 := by
  have once : bytesOf [.append (bytesOf ops)] = bytesOf ops := by
    simp [bytesOf, Op.bytes]
  have start : ({} : Caller).demux.buf.length + (bytesOf ops).length = (bytesOf ops).length := Nat.zero_add _
  have late : earlyPoll [.append (bytesOf ops)] = false := by
    cases bytesOf ops <;> rfl
  have whole := (sync_of_late (fits_of_total (by rw [once, start]; exact fits)) late).finish.ends
  rw [once] at whole
  cases early : earlyPoll ops with
  | true =>
    have dead := dead_of_early early
    have malformed := opensMalformed_iff (bytesOf ops)
    unfold Agrees
    rw [dead.finish]
    rw [whole] at malformed
    constructor
    · rintro ⟨records, status, -⟩
      exact ⟨fun _ => malformed.mpr (Prod.ext (records.symm.trans dead.records) status.symm), dead.repolls⟩
    · rintro ⟨opens, -⟩
      obtain ⟨records, status⟩ := Prod.mk.inj (malformed.mp (opens rfl))
      exact ⟨dead.records.trans records.symm, status.symm, by rw [dead.frames, dead.records]; rfl⟩
  | false =>
    have reached := (sync_of_late (fits_of_total (start.trans_le fits)) early).finish
    obtain ⟨records, status⟩ := Prod.mk.inj (reached.ends.symm.trans whole)
    have count := reached.count
    constructor
    · rintro ⟨-, -, frames⟩
      exact ⟨nofun, by omega⟩
    · rintro ⟨-, none⟩
      exact ⟨records, status, by rw [count, none, Nat.add_zero]⟩

/-- A header and a dropped frame. -/
def dropStream : List UInt8 :=
  writeHeader { width := 64, height := 32 } ++ writeRecord 0 kQindexDropped 0

theorem polls_agree_chunks : Agrees [.append (dropStream.take 10), .poll, .append (dropStream.drop 10), .poll, .consume] :=
  (polls_agree_iff _ (by decide +kernel)).mpr ⟨by decide +kernel, by decide +kernel⟩

/-- A poll before the first byte, and a record that is polled twice. -/
theorem polls_disagree :
    ¬Agrees [.poll, .append dropStream] ∧ ¬Agrees [.append dropStream, .poll, .poll, .consume] := by
  constructor
  · unfold Agrees
    decide +kernel
  · unfold Agrees
    decide +kernel

/-! ## Reading a container back -/

section RoundTrip

variable {hdr : Header} {records : List View}

theorem run_records (wellformed : ∀ v ∈ records, v.Wellformed) :
    containerReader.run (some hdr) (records.flatMap View.write) = ⟨records, some hdr, []⟩ := by
  induction records with
  | nil =>
    rw [List.flatMap_nil]
    exact Reader.run_of_none (Reader.next_nil _)
  | cons v records ih =>
    have read := readRecord_write (wellformed v List.mem_cons_self) (records.flatMap View.write)
    have next : containerReader.next (some hdr) ((v :: records).flatMap View.write) =
        some (v.size, some hdr, some v) := by
      simp only [containerReader, List.flatMap_cons, read]
    rw [Reader.run_of_some next, List.flatMap_cons, ← write_length, List.drop_left,
      ih fun v' listed => wellformed v' (List.mem_cons_of_mem _ listed)]
    rfl

theorem run_container (width : hdr.width ≠ 0) (height : hdr.height ≠ 0)
    (wellformed : ∀ v ∈ records, v.Wellformed) :
    containerReader.run none (writeHeader hdr ++ records.flatMap View.write) = ⟨records, some hdr.normal, []⟩ := by
  have parsed := parseHeader_writeHeader width height (records.flatMap View.write)
  have next : containerReader.next none (writeHeader hdr ++ records.flatMap View.write) =
      some (kHdrSize, some hdr.normal, none) := by
    simp only [containerReader, parsed]
  rw [Reader.run_of_some next, ← writeHeader_length hdr, List.drop_left, run_records wellformed]
  rfl

/-- **What was written is read back**, however it comes, if no poll comes before it does. -/
theorem container_round_trip (width : hdr.width ≠ 0) (height : hdr.height ≠ 0)
    (wellformed : ∀ v ∈ records, v.Wellformed) {ops : List Op}
    (written : bytesOf ops = writeHeader hdr ++ records.flatMap View.write) (late : earlyPoll ops = false)
    (fits : ({} : Caller).Fits ops) :
    let out := (({} : Caller).run ops).finish
    out.1.records = records ∧ out.2 = .again ∧ out.1.demux.haveHeader = true ∧
      out.1.demux.header = hdr.normal ∧ out.1.demux.buf = [] := by
  have finished := (sync_of_late fits late).finish
  rw [written] at finished
  have whole := run_container width height wellformed
  have stops : malformedAt (some hdr.normal) [] = false := rfl
  have ends : readFrom none (writeHeader hdr ++ records.flatMap View.write) = (records, .again) := by
    rw [readFrom, whole, stops]
    rfl
  obtain ⟨same, status⟩ := Prod.mk.inj (finished.ends.symm.trans ends)
  obtain ⟨-, state, rest⟩ := Reader.Run.mk.inj ((finished.left status).symm.trans whole)
  have header : (({} : Caller).run ops).finish.1.demux.haveHeader = true := by
    by_contra noHeader
    rw [Demuxer.state, if_neg noHeader] at state
    cases state
  rw [Demuxer.state, if_pos header] at state
  exact ⟨same, status, header, Option.some.inj state, rest⟩

/-- Two records, in pieces. -/
theorem container_round_trip_pieces :
    let hdr : Header := { width := 64, height := 32, fpsNum := 0 }
    let records : List View := [{ qIndex := 21, flags := kRecKeyframe, data := [7, 8] },
      { drop := true, qIndex := kQindexDropped }]
    let bytes := writeHeader hdr ++ records.flatMap View.write
    let out := (({} : Caller).run [.append (bytes.take 70), .poll, .append (bytes.drop 70), .poll, .poll]).finish
    out.1.records = records ∧ out.2 = .again ∧ out.1.demux.haveHeader = true ∧
      out.1.demux.header = hdr.normal ∧ out.1.demux.buf = [] := by
  intro hdr records bytes
  exact container_round_trip (by decide) (by decide) (by decide +kernel) (by decide +kernel) (by decide +kernel)
    (by decide +kernel)

end RoundTrip

end Rkvc.Mlvc
