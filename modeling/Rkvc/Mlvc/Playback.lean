import Rkvc.Mlvc.LockStep
import Rkvc.Mlvc.Pictures
import Rkvc.Mlvc.Polls

/-!
# Playing a stream

The decoder polls its demuxer as the stream comes in, whatever the pieces: behind the
header it binds its model, and it decodes each record once.
-/

namespace Rkvc.Mlvc
set_option autoImplicit false
open Lib Pixel

/-! ## The demuxer on a stream that was written -/

section Stream

variable {d d' : Demuxer} {w y : List UInt8} {done records : List View} {v : View} {hdr : Header}
  {r : Result View}

/-- A view that is consumed has been read. -/
theorem Viewed.consume (h : Viewed d d' w done v) :
    Follows d'.consumeRecord w (done ++ [v]) ∧ d'.consumeRecord.parseError = false ∧
      d'.consumeRecord.buf.length < d'.buf.length := by
  have bounds := readRecord_record h.view
  refine ⟨h.follows.consume h.header h.accepted h.view h.last, ?_⟩
  rw [consumeRecord_view h.view h.last]
  refine ⟨h.accepted, ?_⟩
  rw [List.length_drop]
  omega

/-- What is left to read begins with the view. -/
theorem Viewed.rest (h : Viewed d d' w done v) {rest : List View} {status : Status}
    (reads : readFrom none w = (done ++ rest, status)) : ∃ more, rest = v :: more := by
  have state : d'.state = some d'.header := if_pos h.header
  have next : containerReader.next d'.state d'.buf = some (v.size, some d'.header, some v) := by
    simp only [containerReader, state, h.view]
  have reading := h.follows.readFrom h.accepted []
  rw [List.append_nil, List.append_nil, reads, readFrom_of_some next] at reading
  exact ⟨_, List.append_cancel_left (congrArg Prod.fst reading)⟩

/-- A demuxer that waits on a stream that goes on has not refused it. -/
theorem Waited.rest {s : Status} (h : Waited d d' w done s) {rest : List View}
    (reads : readFrom none w = (done ++ rest, .again)) (some : w ≠ []) :
    rest = [] ∧ s = .again ∧ d'.parseError = false := by
  have both := reads.symm.trans h.ends
  have none : rest = [] := List.append_cancel_left ((congrArg Prod.fst both).trans (List.append_nil done).symm)
  refine ⟨none, (congrArg Prod.snd both).symm, ?_⟩
  by_contra refused
  have failed := (h.follows some).failed (by simpa using refused) []
  rw [List.append_nil, reads] at failed
  exact absurd (congrArg Prod.snd failed) nofun

/-- A header that has been read stays so. -/
theorem run_opened (h : Header) (w : List UInt8) : (containerReader.run (some h) w).state = some h := by
  generalize start : some h = s
  induction s, w using Reader.run_induction (R := containerReader) with
  | stop s w stops => rw [Reader.run_of_none stops]
  | step s w n t f next ih =>
    subst start
    have kept : t = some h := by
      simp only [containerReader] at next
      split at next
      · cases next
        rfl
      · cases next
    rw [Reader.run_of_some next, Reader.Run.after_state, ih kept.symm, kept]

/-- A piece of a stream that was written is read as its first records. -/
theorem prefix_read (width : hdr.width ≠ 0) (height : hdr.height ≠ 0) (wellformed : ∀ v ∈ records, v.Wellformed)
    (part : w ++ y = writeHeader hdr ++ records.flatMap View.write) (some : w ≠ []) :
    ∃ views later, records = views ++ later ∧ readFrom none w = (views, .again) := by
  have whole := run_container width height wellformed
  rw [← part, Reader.run_append] at whole
  have settled : (containerReader.run none w).state = none → (containerReader.run none w).rest ≠ [] := by
    cases next : containerReader.next none w with
    | none =>
      rw [Reader.run_of_none next]
      exact fun _ => some
    | some r =>
      obtain ⟨n, t, f⟩ := r
      intro unread
      simp only [containerReader] at next
      split at next
      · rename_i h parsed
        cases next
        have next : containerReader.next none w = Option.some (kHdrSize, Option.some h, none) := by
          simp only [containerReader, parsed]
        rw [Reader.run_of_some next, Reader.Run.after_state, run_opened] at unread
        cases unread
      · cases next
  generalize read : containerReader.run none w = r at whole settled
  obtain ⟨items, state, rest⟩ := Reader.Run.mk.inj whole
  refine ⟨r.items, _, items.symm, ?_⟩
  rw [readFrom, read]
  split
  · rename_i malformed
    have bad := malformedAt_append malformed settled y
    rw [Reader.run_of_none (malformedAt_stops bad)] at state rest
    dsimp only at state rest
    rw [state, rest] at bad
    cases bad
  · rfl

/-- The header that is read is the one that was written. -/
theorem prefix_header (width : hdr.width ≠ 0) (height : hdr.height ≠ 0) {z : List UInt8}
    (part : w ++ y = writeHeader hdr ++ z) {h : Header} (parsed : parseHeader w = .ok h) : h = hdr.normal := by
  have longer := parseHeader_append (parseHeader_ok parsed) y
  rw [part, parseHeader_writeHeader width height, parsed] at longer
  exact (Except.ok.inj longer).symm

theorem nextRecord_header (d : Demuxer) :
    d.nextRecord.2.haveHeader = d.haveHeader ∧ d.nextRecord.2.header = d.header := by
  unfold Demuxer.nextRecord
  split <;> exact ⟨rfl, rfl⟩

/-- The first poll that has the header reads it off the front of the stream. -/
theorem next_header (h : Follows d w done) (accepted : d.parseError = false) (closed : d.haveHeader = false)
    (next : d.next = (r, d')) (opened : d'.haveHeader = true) : parseHeader w = .ok d'.header := by
  have whole := h.waiting closed accepted
  rw [Demuxer.next, if_neg (by simp [accepted]), if_neg (by simp [closed]), whole] at next
  cases parsed : parseHeader w with
  | ok hdr =>
    simp only [parsed] at next
    have header := nextRecord_header { d with header := hdr, haveHeader := true, buf := w.drop kHdrSize }
    rw [next] at header
    rw [header.2]
  | error e =>
    simp only [parsed] at next
    split at next
    · cases next
      exact absurd (closed.symm.trans opened) Bool.false_ne_true
    · cases next
      exact absurd (closed.symm.trans opened) Bool.false_ne_true

end Stream

/-! ## The decoder on a stream -/

section Decode

variable {sink : Nat → Status} {d : Decoder} {b : DecoderBinding} {t t' : DecoderCore} {views later : List View}

theorem decodeAll_cons {v : View} (h : d.decodeAll sink b t (v :: views) = (t', .ok ())) :
    ∃ t₁, d.decodeRecord sink b t v = (t₁, .ok ()) ∧ d.decodeAll sink b t₁ views = (t', .ok ()) := by
  rw [Decoder.decodeAll] at h
  split at h
  · rename_i t₁ taken
    exact ⟨t₁, taken, h⟩
  · rename_i failed stops
    exact (stops t' h).elim

/-- Decoding in two parts. -/
theorem decodeAll_append :
    d.decodeAll sink b t (views ++ later) = (t', .ok ()) ↔
      ∃ t₁, d.decodeAll sink b t views = (t₁, .ok ()) ∧ d.decodeAll sink b t₁ later = (t', .ok ()) := by
  induction views generalizing t with
  | nil =>
    constructor
    · intro all
      exact ⟨t, rfl, all⟩
    · rintro ⟨t₁, none, all⟩
      cases none
      exact all
  | cons v views ih =>
    constructor
    · intro all
      obtain ⟨t₁, taken, rest⟩ := decodeAll_cons all
      obtain ⟨t₂, first, second⟩ := ih.mp rest
      refine ⟨t₂, ?_, second⟩
      rw [Decoder.decodeAll, taken]
      exact first
    · rintro ⟨t₂, first, second⟩
      obtain ⟨t₁, taken, rest⟩ := decodeAll_cons first
      rw [List.cons_append, Decoder.decodeAll, taken]
      exact ih.mpr ⟨t₂, rest, second⟩

/-- A decoder that has bound its model and decoded the records of `w` up to `done`. -/
structure Ready (b : DecoderBinding) (s : DecoderState) (w : List UInt8) (done : List View) : Prop where
  follows : Follows s.demux w done
  accepted : s.demux.parseError = false
  ready : s.modelReady = true
  bound : s.bound = some b
  room : s.demux.buf.length ≤ w.length

/-- The poll loop of a decoder that is ready decodes what is left. -/
theorem Ready.loop {s : DecoderState} {w : List UInt8} {done rest : List View} (h : Ready b s w done) (some : w ≠ [])
    (reads : readFrom none w = (done ++ rest, .again)) (decodes : d.decodeAll sink b s.core rest = (t', .ok ()))
    {fuel : Nat} (enough : s.demux.buf.length < fuel) :
    ∃ s', d.processLoop sink fuel s = Option.some (s', .ok ()) ∧ Ready b s' w (done ++ rest) ∧ s'.core = t' := by
  induction fuel generalizing s done rest with
  | zero => exact absurd enough (Nat.not_lt_zero _)
  | succ fuel ih =>
    have room := next_buf s.demux
    rcases h.follows.next with ⟨v, demux, next, viewed⟩ | ⟨e, demux, next, waited⟩
    · obtain ⟨more, rfl⟩ := viewed.rest reads
      obtain ⟨t₁, taken, decodes⟩ := decodeAll_cons decodes
      obtain ⟨follows, accepted, shrinks⟩ := viewed.consume
      rw [next] at room
      dsimp only at room
      have ready : Ready b { s with demux := demux.consumeRecord, core := t₁ } w (done ++ [v]) := by
        constructor
        · exact follows
        · exact accepted
        · exact h.ready
        · exact h.bound
        · exact (shrinks.le.trans room).trans h.room
      have reads' : readFrom none w = ((done ++ [v]) ++ more, .again) := by
        rw [List.append_assoc]
        exact reads
      obtain ⟨s', loops, ready', core⟩ := ih ready reads' decodes (by dsimp only; omega)
      refine ⟨s', ?_, ?_, core⟩
      · rw [Decoder.processLoop, next]
        simp only [h.ready, h.bound, taken, Bool.not_true, Bool.false_eq_true, if_false]
        rw [← h.ready, ← h.bound]
        exact loops
      · rw [List.append_assoc] at ready'
        exact ready'
    · obtain ⟨rfl, again, accepted⟩ := waited.rest reads some
      rw [next] at room
      cases decodes
      rw [List.append_nil]
      refine ⟨{ s with demux }, ?_, ?_, rfl⟩
      · rw [Decoder.processLoop, next]
        simp only [h.ready, again, Bool.not_true, Bool.false_eq_true, false_and, and_false, if_false, if_true]
      · exact ⟨waited.follows some, accepted, h.ready, h.bound, room.trans h.room⟩

/-- A decoder that waits for the header. -/
structure Waiting (s : DecoderState) (w : List UInt8) : Prop where
  follows : Follows s.demux w []
  accepted : s.demux.parseError = false
  closed : s.demux.haveHeader = false
  fresh : s.modelReady = false
  core : s.core = {}
  room : s.demux.buf.length ≤ w.length

/-- A decoder that has played the stream so far. -/
inductive Playing (sink : Nat → Status) (d : Decoder) (b : DecoderBinding) (s : DecoderState) (w : List UInt8) : Prop
  | waiting (waits : Waiting s w) (unread : (containerReader.run none w).state = none)
  | ready {done : List View} (ready : Ready b s w done) (reads : readFrom none w = (done, .again))
      (decoded : d.decodeAll sink b (({} : DecoderCore).sized b) done = (s.core, .ok ()))

variable {s : DecoderState} {w : List UInt8}

/-- Behind the header, the decoder binds its model and decodes what has come so far. -/
theorem Waiting.opens (h : Waiting s w) (some : w ≠ []) (reads : readFrom none w = (views, .again)) {demux : Demuxer}
    {r : Result View} (next : s.demux.next = (r, demux)) (follows : Follows demux w []) (accepted : demux.parseError = false)
    (bind : d.bind demux.header.qp.toInt32.toInt = .ok b)
    (decodes : d.decodeAll sink b (({} : DecoderCore).sized b) views = (t, .ok ())) {fuel : Nat}
    (enough : s.demux.buf.length < fuel) :
    ∃ s₁ s', d.lazyInit { s with demux := demux, qp := demux.header.qp.toInt32.toInt } = (s₁, .ok ()) ∧
      d.processLoop sink fuel s₁ = Option.some (s', .ok ()) ∧ Playing sink d b s' w := by
  have room := next_buf s.demux
  rw [next] at room
  let s₁ : DecoderState :=
    { s with
      demux
      qp := demux.header.qp.toInt32.toInt
      core := ({} : DecoderCore).sized b
      modelReady := true
      bound := Option.some b }
  have made : d.lazyInit { s with demux := demux, qp := demux.header.qp.toInt32.toInt } = (s₁, .ok ()) := by
    rw [lazyInit_eq _ bind]
    simp only [h.core, s₁]
  have ready : Ready b s₁ w [] := ⟨follows, accepted, rfl, rfl, room.trans h.room⟩
  obtain ⟨s', loops, ready', core⟩ := ready.loop some reads decodes (room.trans_lt enough)
  refine ⟨s₁, s', made, loops, .ready ready' reads ?_⟩
  rw [core]
  exact decodes

/-- The poll loop of a decoder that waits for the header. -/
theorem Waiting.loop (h : Waiting s w) (some : w ≠ []) (reads : readFrom none w = (views, .again))
    (bind : ∀ hdr, parseHeader w = .ok hdr → d.bind hdr.qp.toInt32.toInt = .ok b)
    (decodes : d.decodeAll sink b (({} : DecoderCore).sized b) views = (t, .ok ())) {fuel : Nat}
    (enough : s.demux.buf.length + 1 < fuel) :
    ∃ s', d.processLoop sink fuel s = Option.some (s', .ok ()) ∧ Playing sink d b s' w := by
  obtain ⟨fuel, rfl⟩ : ∃ n, fuel = n + 1 := ⟨fuel - 1, by omega⟩
  have enough' : s.demux.buf.length < fuel := by omega
  have opened {r : Result View} {demux : Demuxer} (next : s.demux.next = (r, demux)) (have_ : demux.haveHeader = true) :
      d.bind demux.header.qp.toInt32.toInt = .ok b :=
    bind _ (next_header h.follows h.accepted h.closed next have_)
  rcases h.follows.next with ⟨v, demux, next, viewed⟩ | ⟨e, demux, next, waited⟩
  · obtain ⟨s₁, s', init, loops, playing⟩ :=
      h.opens some reads next viewed.follows viewed.accepted (opened next viewed.header) decodes enough'
    refine ⟨s', ?_, playing⟩
    rw [h.fresh] at init
    rw [Decoder.processLoop, next]
    simp only [h.fresh, init, Bool.not_false, if_true]
    exact loops
  · have reads' : readFrom none w = ([] ++ views, .again) := reads
    obtain ⟨rfl, again, accepted⟩ := waited.rest reads' some
    cases have_ : demux.haveHeader with
    | true =>
      obtain ⟨s₁, s', init, loops, playing⟩ :=
        h.opens some reads next (waited.follows some) accepted (opened next have_) decodes enough'
      refine ⟨s', ?_, playing⟩
      rw [h.fresh] at init
      rw [Decoder.processLoop, next]
      simp only [h.fresh, init, again, have_, Bool.not_false, and_self, if_true]
      exact loops
    | false =>
      have room := next_buf s.demux
      rw [next] at room
      have state : demux.state = none := if_neg (by rw [have_]; exact nofun)
      refine ⟨{ s with demux }, ?_, .waiting ?_ ?_⟩
      · rw [Decoder.processLoop, next]
        simp only [again, have_, Bool.false_eq_true, and_false, if_false, if_true]
      · exact ⟨waited.follows some, accepted, have_, h.fresh, h.core, room.trans h.room⟩
      · rw [waited.left again]
        exact state

/-- What an append does that is not refused. -/
theorem append_eq {demux : Demuxer} {data : List UInt8} (accepted : demux.parseError = false) (some : data ≠ [])
    (fits : demux.buf.length + data.length ≤ kSizeMax) :
    demux.append data = (.ok, { demux with buf := demux.buf ++ data }) := by
  rw [Demuxer.append, if_neg (by rw [accepted]; exact nofun), if_neg some, if_neg (by omega)]

variable {hdr : Header} {records : List View}

/-- **One frame** of a stream that was written, of whatever length. -/
theorem Playing.process (h : Playing sink d b s w) (width : hdr.width ≠ 0) (height : hdr.height ≠ 0)
    (wellformed : ∀ v ∈ records, v.Wellformed) (bind : d.bind hdr.normal.qp.toInt32.toInt = .ok b)
    (decodes : d.decodeAll sink b (({} : DecoderCore).sized b) records = (t, .ok ())) {frame : HostFrame}
    (bitstream : frame.spec.fmt = .bitstream) (some : frame.data ≠ []) {y : List UInt8}
    (part : w ++ frame.data ++ y = writeHeader hdr ++ records.flatMap View.write)
    (small : (w ++ frame.data).length ≤ kSizeMax) :
    ∃ s', d.process sink s frame = Option.some (s', .ok ()) ∧ Playing sink d b s' (w ++ frame.data) := by
  have longer : w ++ frame.data ≠ [] := List.append_ne_nil_of_right_ne_nil w some
  obtain ⟨views, later, split, reads⟩ := prefix_read width height wellformed part longer
  rw [split] at decodes
  obtain ⟨t₁, decoded, -⟩ := decodeAll_append.mp decodes
  rw [List.length_append] at small
  have begins : ∀ {demux : Demuxer}, s.demux.append frame.data = (.ok, demux) →
      d.process sink s frame = d.processLoop sink (demux.buf.length + 3) { s with demux } := by
    intro demux appended
    rw [Decoder.process, if_neg (by simp only [bitstream, some, ne_eq, not_true, or_self, not_false_eq_true]), appended]
    rfl
  cases h with
  | waiting waits unread =>
    have fits : s.demux.buf.length + frame.data.length ≤ kSizeMax := (Nat.add_le_add_right waits.room _).trans small
    have appended := append_eq waits.accepted some fits
    have follows := waits.follows.append fits
    rw [appended] at follows
    have waits' : Waiting { s with demux := { s.demux with buf := s.demux.buf ++ frame.data } } (w ++ frame.data) := by
      refine ⟨follows, waits.accepted, waits.closed, waits.fresh, waits.core, ?_⟩
      rw [List.length_append, List.length_append]
      exact Nat.add_le_add_right waits.room _
    rw [begins appended]
    refine waits'.loop longer reads ?_ decoded (by dsimp only; omega)
    intro h parsed
    rw [prefix_header width height part parsed]
    exact bind
  | @ready done ready read before =>
    have fits : s.demux.buf.length + frame.data.length ≤ kSizeMax := (Nat.add_le_add_right ready.room _).trans small
    have appended := append_eq ready.accepted some fits
    have follows := ready.follows.append fits
    rw [appended] at follows
    have ready' : Ready b { s with demux := { s.demux with buf := s.demux.buf ++ frame.data } } (w ++ frame.data) done := by
      refine ⟨follows, ready.accepted, ready.ready, ready.bound, ?_⟩
      rw [List.length_append, List.length_append]
      exact Nat.add_le_add_right ready.room _
    have goesOn := follows.readFrom ready.accepted []
    rw [List.append_nil, reads] at goesOn
    obtain ⟨rest, rfl⟩ : ∃ rest, views = done ++ rest := ⟨_, congrArg Prod.fst goesOn⟩
    obtain ⟨t₂, first, second⟩ := decodeAll_append.mp decoded
    cases before.symm.trans first
    rw [begins appended]
    obtain ⟨s', loops, playing, core⟩ := ready'.loop longer reads second (Nat.lt_add_of_pos_right (by decide : 0 < 3))
    refine ⟨s', loops, .ready playing reads ?_⟩
    rw [core]
    exact decoded

/-- What the calls for a list of frames make of a decoder. -/
def Decoder.processAll (sink : Nat → Status) (d : Decoder) :
    DecoderState → List HostFrame → Option (DecoderState × Result Unit)
  | s, [] => some (s, .ok ())
  | s, frame :: frames =>
    match d.process sink s frame with
    | some (s, .ok ()) => processAll sink d s frames
    | stopped => stopped

theorem Playing.processAll (h : Playing sink d b s w) (width : hdr.width ≠ 0) (height : hdr.height ≠ 0)
    (wellformed : ∀ v ∈ records, v.Wellformed) (bind : d.bind hdr.normal.qp.toInt32.toInt = .ok b)
    (decodes : d.decodeAll sink b (({} : DecoderCore).sized b) records = (t, .ok ())) {frames : List HostFrame}
    (pieces : ∀ frame ∈ frames, frame.spec.fmt = .bitstream ∧ frame.data ≠ [])
    (whole : w ++ frames.flatMap (·.data) = writeHeader hdr ++ records.flatMap View.write)
    (small : (w ++ frames.flatMap (·.data)).length ≤ kSizeMax) :
    ∃ s', d.processAll sink s frames = some (s', .ok ()) ∧ Playing sink d b s' (w ++ frames.flatMap (·.data)) := by
  induction frames generalizing s w with
  | nil =>
    rw [List.flatMap_nil, List.append_nil]
    exact ⟨s, rfl, h⟩
  | cons frame frames ih =>
    obtain ⟨⟨bitstream, some⟩, pieces⟩ := List.forall_mem_cons.mp pieces
    rw [List.flatMap_cons, ← List.append_assoc] at whole small ⊢
    have room : (w ++ frame.data).length ≤ kSizeMax := by
      rw [List.length_append] at small
      omega
    obtain ⟨s₁, played, playing⟩ := h.process width height wellformed bind decodes bitstream some whole room
    rw [Decoder.processAll, played]
    exact ih playing pieces whole small

/-- A decoder that has the whole stream has decoded all of it. -/
theorem Playing.done (width : hdr.width ≠ 0) (height : hdr.height ≠ 0) (wellformed : ∀ v ∈ records, v.Wellformed)
    (h : Playing sink d b s (writeHeader hdr ++ records.flatMap View.write))
    (decodes : d.decodeAll sink b (({} : DecoderCore).sized b) records = (t, .ok ())) : s.core = t := by
  have whole := run_container width height wellformed
  cases h with
  | waiting waits unread =>
    rw [whole] at unread
    cases unread
  | ready ready reads decoded =>
    rw [readFrom, whole] at reads
    obtain ⟨all, -⟩ := Prod.mk.inj reads
    rw [← all, decodes] at decoded
    exact (congrArg Prod.fst decoded).symm

end Decode

/-! ## The stream of an encoder -/

section Written

variable {K : Type}

/-- The bytes that an encoder has emitted. -/
def streamOf (steps : List (EncodeStep K)) : List UInt8 :=
  steps.flatMap fun step => (step.packet.map (·.data)).getD []

variable [Field K] [LinearOrder K] [FloorRing K]
variable {fns : LogExp K} {e : Encoder} {s : EncoderState K} {input : HostFrame} {inputs : List HostFrame}
  {step : EncodeStep K} {steps : List (EncodeStep K)}

/-- The bytes of one step: its record, behind the header of the first. -/
theorem step_bytes (bound : e.bound.Bound) (fit : s.Fit e) (short : step.Short)
    (made : Dropped s input step ∨ ∃ kind rung usedQp refs npu feed bits,
      Coded e s input step kind rung usedQp refs npu feed bits) :
    step.state.frameCount = s.frameCount + 1 ∧ step.view.Wellformed ∧
      step.view.size ≤ kRecSize + kMaxFrameBytes ∧ ∃ hdr : Header, hdr.width = e.bound.imgW ∧
        hdr.height = e.bound.imgH ∧ hdr.qp = UInt32.ofNat (toU32 e.bound.qp) ∧
        (step.packet.map (·.data)).getD [] = (if s.frameCount = 0 then writeHeader hdr else []) ++ step.view.write := by
  obtain ⟨record, wellformed, dropped | coded⟩ := step_view bound fit short made
  · obtain ⟨dropped, view⟩ := dropped
    rw [view] at record wellformed ⊢
    rw [EncodeStep.Short, record, write_length] at short
    refine ⟨dropped.frameCount, wellformed, short, e.header s, rfl, rfl, rfl, ?_⟩
    rw [dropped.packet, if_neg dropped.later]
    rfl
  · obtain ⟨kind, rung, usedQp, refs, npu, feed, bits, coded, view, -, -⟩ := coded
    rw [EncodeStep.Short, record, write_length] at short
    obtain ⟨hdr, width, height, qp, packet⟩ := coded.packet
    refine ⟨coded.frameCount, wellformed, short, hdr, width, height, qp, ?_⟩
    rw [view, packet]
    rfl

/-- Behind the first frame there are only records. -/
theorem steps_bytes (bound : e.bound.Bound) (fit : s.Fit e) (later : s.frameCount ≠ 0)
    (few : s.frameCount.toNat + inputs.length < 2 ^ 32) (run : e.steps fns s inputs = some steps)
    (short : ∀ step ∈ steps, step.Short) :
    streamOf steps = (steps.map (·.view)).flatMap View.write ∧ (∀ v ∈ steps.map (·.view), v.Wellformed) ∧
      (streamOf steps).length ≤ inputs.length * (kRecSize + kMaxFrameBytes) := by
  induction inputs generalizing s steps with
  | nil =>
    rw [steps_nil run]
    exact ⟨rfl, fun v listed => absurd listed List.not_mem_nil, Nat.zero_le _⟩
  | cons input inputs ih =>
    obtain ⟨step, rest, rfl, made, ok, run⟩ := steps_cons run
    obtain ⟨first, short⟩ := List.forall_mem_cons.mp short
    obtain ⟨fit', -, spec⟩ := step_spec bound fit made ok
    obtain ⟨count, wellformed, size, hdr, -, -, -, bytes⟩ := step_bytes bound fit first spec
    rw [List.length_cons] at few
    have next : step.state.frameCount.toNat = s.frameCount.toNat + 1 := by
      rw [count]
      exact frameCount_succ (by omega)
    have later' : step.state.frameCount ≠ 0 := by
      intro zero
      rw [zero] at next
      exact absurd next (Nat.succ_ne_zero _).symm
    obtain ⟨stream, all, length⟩ := ih fit' later' (by omega) run short
    rw [if_neg later, List.nil_append] at bytes
    have split : streamOf (step :: rest) = step.view.write ++ streamOf rest := by
      rw [streamOf, List.flatMap_cons, bytes]
      rfl
    refine ⟨?_, List.forall_mem_cons.mpr ⟨wellformed, all⟩, ?_⟩
    · rw [split, stream]
      rfl
    · rw [split, List.length_append, write_length, List.length_cons, Nat.add_mul, one_mul]
      omega

/-- **The stream of a run**: its header, and the records behind it. -/
theorem stream_bytes (bound : e.bound.Bound) (fit : s.Fit e) (start : s.frameCount = 0) (filled : inputs ≠ [])
    (few : inputs.length < 2 ^ 32) (run : e.steps fns s inputs = some steps) (short : ∀ step ∈ steps, step.Short) :
    ∃ hdr : Header, hdr.width = e.bound.imgW ∧ hdr.height = e.bound.imgH ∧
      hdr.qp = UInt32.ofNat (toU32 e.bound.qp) ∧
      streamOf steps = writeHeader hdr ++ (steps.map (·.view)).flatMap View.write ∧
      (∀ v ∈ steps.map (·.view), v.Wellformed) ∧ (streamOf steps).length ≤ kSizeMax := by
  obtain ⟨input, inputs, rfl⟩ := List.exists_cons_of_ne_nil filled
  obtain ⟨step, rest, rfl, made, ok, run⟩ := steps_cons run
  obtain ⟨first, short⟩ := List.forall_mem_cons.mp short
  obtain ⟨fit', -, spec⟩ := step_spec bound fit made ok
  obtain ⟨count, wellformed, size, hdr, width, height, qp, bytes⟩ := step_bytes bound fit first spec
  rw [List.length_cons] at few
  rw [start, UInt32.zero_add] at count
  have one : step.state.frameCount.toNat = 1 := congrArg UInt32.toNat count
  obtain ⟨stream, all, length⟩ := steps_bytes bound fit' (by rw [count]; decide) (by omega) run short
  rw [if_pos start] at bytes
  have split : streamOf (step :: rest) = writeHeader hdr ++ step.view.write ++ streamOf rest := by
    rw [streamOf, List.flatMap_cons, bytes]
    rfl
  refine ⟨hdr, width, height, qp, ?_, List.forall_mem_cons.mpr ⟨wellformed, all⟩, ?_⟩
  · rw [split, stream, List.append_assoc]
    rfl
  · have sizes : kHdrSize = 64 ∧ kRecSize + kMaxFrameBytes = 67108880 ∧ kSizeMax = 18446744073709551615 := by decide
    rw [split, List.length_append, List.length_append, writeHeader_length, write_length, sizes.1, sizes.2.2]
    rw [sizes.2.1] at size length
    omega

end Written

/-! ## From frame to frame -/

section Played

variable {K : Type} [Field K] [LinearOrder K] [FloorRing K]

/-- The QP of a session comes through the header. -/
theorem header_qp {q : Int} (range : 0 ≤ q ∧ q ≤ 63) : (UInt32.ofNat (toU32 q)).toInt32.toInt = q := by
  rw [toU32_of_range range.1 (by omega), UInt32.toInt32_ofNat', Int32.toInt_ofNat_of_lt (by omega)]
  exact Int.toNat_of_nonneg range.1

theorem steps_count {fns : LogExp K} {e : Encoder} {s : EncoderState K} {inputs : List HostFrame}
    {steps : List (EncodeStep K)} (run : e.steps fns s inputs = some steps) : steps.length = inputs.length := by
  induction inputs generalizing s steps with
  | nil => exact congrArg List.length (steps_nil run)
  | cons input inputs ih =>
    obtain ⟨step, later, rfl, -, -, run⟩ := steps_cons run
    rw [List.length_cons, List.length_cons, ih run]

end Played

end Rkvc.Mlvc
