import Rkvc.Mlvc.Playback

/-!
# However a stream is cut

What a decoder shows of a stream, cut short or corrupt as it may be, depends on its
bytes alone (`decode_cuts`): the blocks it comes in may be cut anywhere. What it
shows of the beginning of a stream begins what it shows of the whole.
-/

namespace Rkvc.Mlvc
set_option autoImplicit false
open Lib Pixel

/-- **What a decoder makes of a stream**: the pictures, and whether it goes on. -/
def Decoder.shows (sink : Nat → Status) (d : Decoder) (w : List UInt8) : List Picture × Bool :=
  match parseHeader w with
  | .error e => ([], e.status = .again)
  | .ok hdr =>
    match d.bind hdr.qp.toInt32.toInt with
    | .error _ => ([], false)
    | .ok b =>
      let (views, status) := readFrom none w
      let (t, r) := d.decodeAll sink b (({} : DecoderCore).sized b) views
      (t.emitted, r.isOk && status = .again)

section Records

variable {sink : Nat → Status} {d : Decoder} {b : DecoderBinding} {t : DecoderCore}

/-- A record adds at most one picture. -/
theorem decodeRecord_emitted (v : View) : t.emitted <+: (d.decodeRecord sink b t v).1.emitted := by
  unfold Decoder.decodeRecord
  split
  · unfold Decoder.repeatFrame
    split
    · exact List.prefix_append _ _
    · exact List.prefix_rfl
  · have prepared : ∀ active, (t.prepare b active v.qIndex.toInt v.flags).emitted = t.emitted := by
      intro active
      unfold DecoderCore.prepare
      dsimp only
      split <;> split <;> rfl
    unfold Decoder.decodeFrame
    split
    · exact List.prefix_rfl
    · rename_i active _
      rw [← prepared active]
      generalize t.prepare b active v.qIndex.toInt v.flags = s
      unfold Decoder.runFrame
      split
      · exact List.prefix_rfl
      dsimp only
      split
      · exact List.prefix_rfl
      split
      · exact List.prefix_rfl
      split
      · exact List.prefix_rfl
      split
      · exact List.prefix_rfl
      · have kept : ∀ (s : DecoderCore) feat flags, (s.keep feat flags).emitted = s.emitted := by
          intro s feat flags
          unfold DecoderCore.keep
          split <;> rfl
        simp only [DecoderCore.emit, kept]
        exact List.prefix_append _ _

theorem decodeAll_emitted (views : List View) : t.emitted <+: (d.decodeAll sink b t views).1.emitted := by
  induction views generalizing t with
  | nil => exact List.prefix_rfl
  | cons v views ih =>
    have first : t.emitted <+: (d.decodeRecord sink b t v).1.emitted := decodeRecord_emitted v
    rw [Decoder.decodeAll]
    split
    · rename_i t₁ taken
      rw [taken] at first
      exact first.trans ih
    · exact first

/-- Decoding goes on behind records that are fine, and stops behind one that is not. -/
theorem decodeAll_later (views later : List View) :
    d.decodeAll sink b t (views ++ later) =
      if (d.decodeAll sink b t views).2.isOk then d.decodeAll sink b (d.decodeAll sink b t views).1 later
      else d.decodeAll sink b t views := by
  induction views generalizing t with
  | nil => rfl
  | cons v views ih =>
    rw [List.cons_append, Decoder.decodeAll, Decoder.decodeAll]
    generalize d.decodeRecord sink b t v = out
    obtain ⟨t₁, r⟩ := out
    cases r with
    | ok _ => exact ih
    | error e => rfl

end Records

/-! ## More of a stream -/

section Stream

variable {w : List UInt8}

/-- A reader that has not found a header has the whole stream before it. -/
theorem run_unread (some : w ≠ []) (unread : (containerReader.run none w).state = none) :
    (containerReader.run none w).rest ≠ [] := by
  cases next : containerReader.next none w with
  | none =>
    rw [Reader.run_of_none next]
    exact some
  | some r =>
    obtain ⟨n, t, f⟩ := r
    simp only [containerReader] at next
    split at next
    · rename_i h parsed
      cases next
      have next : containerReader.next none w = Option.some (kHdrSize, Option.some h, none) := by
        simp only [containerReader, parsed]
      rw [Reader.run_of_some next, Reader.Run.after_state, run_opened] at unread
      cases unread
    · cases next

/-- The records of the beginning of a stream come first; behind what is malformed there are none. -/
theorem readFrom_more (some : w ≠ []) (y : List UInt8) :
    (∃ later, (readFrom none (w ++ y)).1 = (readFrom none w).1 ++ later) ∧
      ((readFrom none w).2 ≠ .again → readFrom none (w ++ y) = readFrom none w) := by
  have settled := run_unread some
  have both : containerReader.run none (w ++ y) = _ := Reader.run_append none w y
  constructor
  · exact ⟨_, congrArg Reader.Run.items both⟩
  · intro bad
    have malformed : malformedAt (containerReader.run none w).state (containerReader.run none w).rest = true := by
      by_contra fine
      exact bad (if_neg fine)
    have longer := malformedAt_append malformed settled y
    rw [Reader.run_of_none (malformedAt_stops longer)] at both
    rw [readFrom, both, readFrom]
    dsimp only
    rw [if_pos longer, if_pos malformed, List.append_nil]

theorem readFrom_status (s : Option Header) (w : List UInt8) :
    (readFrom s w).2 = .again ∨ (readFrom s w).2 = .format := by
  unfold readFrom
  dsimp only
  split
  · exact .inr rfl
  · exact .inl rfl

variable {sink : Nat → Status} {d : Decoder} {b : DecoderBinding} {hdr : Header}

theorem shows_bound (parsed : parseHeader w = .ok hdr) (bind : d.bind hdr.qp.toInt32.toInt = .ok b) :
    d.shows sink w =
      ((d.decodeAll sink b (({} : DecoderCore).sized b) (readFrom none w).1).1.emitted,
        (d.decodeAll sink b (({} : DecoderCore).sized b) (readFrom none w).1).2.isOk &&
          (readFrom none w).2 = .again) := by
  unfold Decoder.shows
  rw [parsed]
  simp only [bind]

theorem shows_unbound {e : Failure} (parsed : parseHeader w = .ok hdr) (bind : d.bind hdr.qp.toInt32.toInt = .error e) :
    d.shows sink w = ([], false) := by
  unfold Decoder.shows
  rw [parsed]
  simp only [bind]

/-- **More of a stream shows more**, and nothing more where the decoder has stopped. -/
theorem shows_more (some : w ≠ []) (y : List UInt8) :
    (d.shows sink w).1 <+: (d.shows sink (w ++ y)).1 ∧
      ((d.shows sink w).2 = false → d.shows sink (w ++ y) = d.shows sink w) := by
  cases parsed : parseHeader w with
  | error e =>
    have here : d.shows sink w = ([], decide (e.status = .again)) := by
      unfold Decoder.shows
      rw [parsed]
    rw [here]
    refine ⟨List.nil_prefix, fun stopped => ?_⟩
    have settled : e.status ≠ .again := by simpa using stopped
    have long : kHdrSize ≤ w.length := by
      by_contra short
      rw [parseHeader, if_neg some, if_pos (Nat.lt_of_not_le short)] at parsed
      cases parsed
      exact settled rfl
    unfold Decoder.shows
    rw [parseHeader_append long, parsed]
  | ok hdr =>
    have longer : parseHeader (w ++ y) = .ok hdr := (parseHeader_append (parseHeader_ok parsed) y).trans parsed
    cases bind : d.bind hdr.qp.toInt32.toInt with
    | error e =>
      rw [shows_unbound parsed bind, shows_unbound longer bind]
      exact ⟨List.prefix_rfl, fun _ => rfl⟩
    | ok b =>
      obtain ⟨⟨later, views⟩, same⟩ := readFrom_more some y
      rw [shows_bound parsed bind, shows_bound longer bind, views, decodeAll_later]
      by_cases ok : (d.decodeAll sink b (({} : DecoderCore).sized b) (readFrom none w).1).2.isOk = true
      · rw [if_pos ok]
        refine ⟨decodeAll_emitted later, fun stopped => ?_⟩
        have bad : (readFrom none w).2 ≠ .again := by
          intro again
          simp [ok, again] at stopped
        rw [same bad] at views ⊢
        have none : later = [] := List.append_cancel_left (views.symm.trans (List.append_nil _).symm)
        rw [none]
        simp [Decoder.decodeAll, bad]
      · rw [if_neg ok]
        refine ⟨List.prefix_rfl, fun _ => ?_⟩
        simp [ok]

end Stream

/-! ## One block -/

section Block

variable {sink : Nat → Status} {d : Decoder} {b : DecoderBinding} {s : DecoderState} {w : List UInt8}

/-- The poll loop of a decoder that is ready decodes what is left, as far as that goes. -/
theorem Ready.settle {done rest : List View} {status : Status} (h : Ready b s w done) (some : w ≠ [])
    (reads : readFrom none w = (done ++ rest, status)) {fuel : Nat} (enough : s.demux.buf.length < fuel) :
    ∃ s' r, d.processLoop sink fuel s = Option.some (s', r) ∧ s'.core = (d.decodeAll sink b s.core rest).1 ∧
      (r.isOk = ((d.decodeAll sink b s.core rest).2.isOk && status = .again)) ∧
      (r.isOk = true → Ready b s' w (done ++ rest)) := by
  induction fuel generalizing s done rest with
  | zero => exact absurd enough (Nat.not_lt_zero _)
  | succ fuel ih =>
    have room := next_buf s.demux
    rcases h.follows.next with ⟨v, demux, next, viewed⟩ | ⟨e, demux, next, waited⟩
    · obtain ⟨more, rfl⟩ := viewed.rest reads
      obtain ⟨follows, accepted, shrinks⟩ := viewed.consume
      rw [next] at room
      dsimp only at room
      cases decoded : d.decodeRecord sink b s.core v with
      | mk t₁ r =>
        cases r with
        | error e =>
          refine ⟨{ s with demux, core := t₁ }, .error e, ?_, ?_, ?_, fun fine => by cases fine⟩
          · rw [Decoder.processLoop, next]
            simp only [h.ready, h.bound, decoded, Bool.not_true, Bool.false_eq_true, if_false]
          · rw [Decoder.decodeAll, decoded]
          · rw [Decoder.decodeAll, decoded]
            rfl
        | ok _ =>
          have ready : Ready b { s with demux := demux.consumeRecord, core := t₁ } w (done ++ [v]) :=
            ⟨follows, accepted, h.ready, h.bound, (shrinks.le.trans room).trans h.room⟩
          have reads' : readFrom none w = ((done ++ [v]) ++ more, status) := by
            rw [List.append_assoc]
            exact reads
          obtain ⟨s', r, loops, core, ok, ready'⟩ := ih ready reads' (by dsimp only; omega)
          refine ⟨s', r, ?_, ?_, ?_, fun fine => ?_⟩
          · rw [Decoder.processLoop, next]
            simp only [h.ready, h.bound, decoded, Bool.not_true, Bool.false_eq_true, if_false]
            rw [← h.ready, ← h.bound]
            exact loops
          · rw [Decoder.decodeAll, decoded]
            exact core
          · rw [Decoder.decodeAll, decoded]
            exact ok
          · have := ready' fine
            rw [List.append_assoc] at this
            exact this
    · have both := reads.symm.trans waited.ends
      have none : rest = [] := List.append_cancel_left ((congrArg Prod.fst both).trans (List.append_nil done).symm)
      have ends : status = e.status := congrArg Prod.snd both
      subst none ends
      rw [next] at room
      rw [Decoder.processLoop, next]
      by_cases again : e.status = .again
      · refine ⟨{ s with demux }, .ok (), ?_, rfl, ?_, fun _ => ?_⟩
        · simp only [h.ready, again, Bool.not_true, Bool.false_eq_true, false_and, and_false, if_false, if_true]
        · simp [Decoder.decodeAll, again]
        · obtain ⟨-, -, accepted⟩ := waited.rest (by rw [reads, again]) some
          rw [List.append_nil]
          exact ⟨waited.follows some, accepted, h.ready, h.bound, room.trans h.room⟩
      · refine ⟨{ s with demux }, Decoder.bad .format "malformed .mlvc stream", ?_, rfl, ?_, ?_⟩
        · simp only [again, false_and, if_false]
        · simp [Decoder.decodeAll, again, Decoder.bad, Result.reject, Except.isOk, Except.toBool]
        · intro fine
          cases fine

/-- Where binding fails, nothing has been shown. -/
theorem lazyInit_failed {e : Failure} (h : d.bind s.qp = .error e) :
    ∃ s', d.lazyInit s = (s', .error e) ∧ s'.core.emitted = s.core.emitted := by
  rw [Decoder.bind] at h
  rw [Decoder.lazyInit]
  cases models : d.initModels s.qp with
  | error e' =>
    rw [models] at h
    cases h
    exact ⟨s, rfl, rfl⟩
  | ok made =>
    obtain ⟨npu, rs, qrows⟩ := made
    rw [models] at h
    have geom : d.initGeom s.qp npu rs qrows = .error e := h
    simp only [geom]
    exact ⟨_, rfl, rfl⟩

/-- A decoder that has shown what the stream so far shows. -/
inductive Settled (sink : Nat → Status) (d : Decoder) (s : DecoderState) (w : List UInt8) : Prop
  | waiting (waits : Waiting s w) (unread : w ≠ [] → ∃ e, parseHeader w = .error e ∧ e.status = .again)
  | ready {b : DecoderBinding} {hdr : Header} {done : List View} (ready : Ready b s w done)
      (parsed : parseHeader w = .ok hdr) (bind : d.bind hdr.qp.toInt32.toInt = .ok b)
      (reads : readFrom none w = (done, .again))
      (decoded : d.decodeAll sink b (({} : DecoderCore).sized b) done = (s.core, .ok ()))

/-- The outcome of a call is what the stream shows. -/
structure Showed (sink : Nat → Status) (d : Decoder) (w : List UInt8) (s : DecoderState) (r : Result Unit) : Prop where
  emitted : s.core.emitted = (d.shows sink w).1
  ok : r.isOk = (d.shows sink w).2
  settled : r.isOk = true → Settled sink d s w

theorem isOk_unit {r : Result Unit} (h : r.isOk = true) : r = .ok () := by
  cases r with
  | ok _ => rfl
  | error e => cases h

/-- Behind the header, the decoder binds its model and goes on. -/
theorem Waiting.settle_open {views : List View} {status : Status} (h : Waiting s w) (some : w ≠ [])
    (reads : readFrom none w = (views, status)) {demux : Demuxer} {r : Result View} (next : s.demux.next = (r, demux))
    (follows : Follows demux w []) (accepted : demux.parseError = false) (header : demux.haveHeader = true) {fuel : Nat}
    (enough : s.demux.buf.length < fuel) :
    ∃ s₁ r₁, d.lazyInit { s with demux := demux, qp := demux.header.qp.toInt32.toInt } = (s₁, r₁) ∧
      ((∃ e, r₁ = .error e ∧ Showed sink d w s₁ (also e "process" "mlvc.decode" "lazy init failed")) ∨
        r₁ = .ok () ∧ ∃ s' r', d.processLoop sink fuel s₁ = Option.some (s', r') ∧ Showed sink d w s' r') := by
  have parsed := next_header h.follows h.accepted h.closed next header
  have room := next_buf s.demux
  rw [next] at room
  cases bind : d.bind demux.header.qp.toInt32.toInt with
  | error e =>
    obtain ⟨s', failed, emitted⟩ := @lazyInit_failed d { s with demux, qp := demux.header.qp.toInt32.toInt } e bind
    refine ⟨s', .error e, failed, .inl ⟨e, rfl, ?_, ?_, nofun⟩⟩
    · rw [emitted, shows_unbound parsed bind, h.core]
    · rw [shows_unbound parsed bind]
      rfl
  | ok b =>
    let s₁ : DecoderState :=
      { s with
        demux
        qp := demux.header.qp.toInt32.toInt
        core := ({} : DecoderCore).sized b
        modelReady := true
        bound := Option.some b }
    have made : d.lazyInit { s with demux := demux, qp := demux.header.qp.toInt32.toInt } = (s₁, .ok ()) := by
      rw [lazyInit_eq _ bind]
      simp only [h.core, s₁]
    have ready : Ready b s₁ w [] := ⟨follows, accepted, rfl, rfl, room.trans h.room⟩
    have reads' : readFrom none w = ([] ++ views, status) := reads
    obtain ⟨s', r', loops, core, ok, ready'⟩ :=
      ready.settle some reads' (show demux.buf.length < fuel from room.trans_lt enough)
    refine ⟨s₁, .ok (), made, .inr ⟨rfl, s', r', loops, ?_, ?_, fun fine => ?_⟩⟩
    · rw [core, shows_bound parsed bind, reads]
    · rw [ok, shows_bound parsed bind, reads]
    · rw [fine] at ok
      have both := ok.symm
      rw [Bool.and_eq_true, decide_eq_true_eq] at both
      rw [both.2] at reads
      exact .ready (ready' fine) parsed bind reads (Prod.ext core.symm (isOk_unit both.1))

/-- What is malformed from the first record on shows nothing. -/
theorem shows_malformed (reads : readFrom none w = ([], .format)) : d.shows sink w = ([], false) := by
  cases parsed : parseHeader w with
  | error e =>
    have stops : containerReader.next none w = none := by simp only [containerReader, parsed]
    rw [readFrom_of_none stops] at reads
    have bad : malformedAt none w = true := by
      by_contra fine
      rw [if_neg fine] at reads
      cases reads
    have format : e.status = .format := by simpa [malformedAt, parsed, Result.status] using bad
    unfold Decoder.shows
    rw [parsed]
    simp [format]
  | ok hdr =>
    cases bind : d.bind hdr.qp.toInt32.toInt with
    | error e => exact shows_unbound parsed bind
    | ok b =>
      rw [shows_bound parsed bind, reads]
      rfl

/-- The poll loop of a decoder that waits for the header. -/
theorem Waiting.settle (h : Waiting s w) (some : w ≠ []) {fuel : Nat} (enough : s.demux.buf.length + 1 < fuel) :
    ∃ s' r, d.processLoop sink fuel s = Option.some (s', r) ∧ Showed sink d w s' r := by
  obtain ⟨fuel, rfl⟩ : ∃ n, fuel = n + 1 := ⟨fuel - 1, by omega⟩
  have enough' : s.demux.buf.length < fuel := by omega
  obtain ⟨views, status, reads⟩ : ∃ views status, readFrom none w = (views, status) := ⟨_, _, rfl⟩
  have opened {r : Result View} {demux : Demuxer} (next : s.demux.next = (r, demux)) (follows : Follows demux w [])
      (accepted : demux.parseError = false) (header : demux.haveHeader = true)
      (fails : ∀ s₁ e, d.lazyInit { s with demux := demux, qp := demux.header.qp.toInt32.toInt } = (s₁, .error e) →
        d.processLoop sink (fuel + 1) s = Option.some (s₁, also e "process" "mlvc.decode" "lazy init failed"))
      (goesOn : ∀ s₁, d.lazyInit { s with demux := demux, qp := demux.header.qp.toInt32.toInt } = (s₁, .ok ()) →
        d.processLoop sink (fuel + 1) s = d.processLoop sink fuel s₁) :
      ∃ s' r, d.processLoop sink (fuel + 1) s = Option.some (s', r) ∧ Showed sink d w s' r := by
    obtain ⟨s₁, r₁, init, ⟨e, rfl, shows⟩ | ⟨rfl, s', r', loops, shows⟩⟩ :=
      h.settle_open some reads next follows accepted header enough'
    · exact ⟨s₁, _, fails s₁ e init, shows⟩
    · exact ⟨s', r', (goesOn s₁ init).trans loops, shows⟩
  rcases h.follows.next with ⟨v, demux, next, viewed⟩ | ⟨e, demux, next, waited⟩
  · refine opened next viewed.follows viewed.accepted viewed.header (fun s₁ e init => ?_) fun s₁ init => ?_
    · rw [h.fresh] at init
      rw [Decoder.processLoop, next]
      simp only [h.fresh, init, Bool.not_false, if_true]
    · rw [h.fresh] at init
      rw [Decoder.processLoop, next]
      simp only [h.fresh, init, Bool.not_false, if_true]
  · have ends := waited.ends
    by_cases again : e.status = .again
    · obtain ⟨-, -, accepted⟩ := waited.rest (by rw [ends, again]; rfl) some
      cases header : demux.haveHeader with
      | true =>
        refine opened next (waited.follows some) accepted header (fun s₁ e init => ?_) fun s₁ init => ?_
        · rw [h.fresh] at init
          rw [Decoder.processLoop, next]
          simp only [h.fresh, init, again, header, Bool.not_false, and_self, if_true]
        · rw [h.fresh] at init
          rw [Decoder.processLoop, next]
          simp only [h.fresh, init, again, header, Bool.not_false, and_self, if_true]
      | false =>
        have room := next_buf s.demux
        rw [next] at room
        have state : demux.state = none := if_neg (by rw [header]; exact Bool.false_ne_true)
        have run := waited.left again
        rw [state] at run
        have parsed : ∃ e, parseHeader w = .error e ∧ e.status = .again := by
          cases parsed : parseHeader w with
          | ok hdr =>
            have found : containerReader.next none w = Option.some (kHdrSize, Option.some hdr, none) := by
              simp only [containerReader, parsed]
            rw [Reader.run_of_some found] at run
            have kept := congrArg Reader.Run.state run
            rw [Reader.Run.after_state, run_opened] at kept
            cases kept
          | error e' =>
            refine ⟨e', rfl, ?_⟩
            by_contra settled
            have stops : containerReader.next none w = none := by simp only [containerReader, parsed]
            have bad : malformedAt none w = true := by
              simp [malformedAt, parsed, Result.status, parseHeader_status parsed settled]
            rw [readFrom_malformed bad, again] at ends
            cases ends
        have shows : d.shows sink w = ([], true) := by
          obtain ⟨e', parsed, status⟩ := parsed
          unfold Decoder.shows
          rw [parsed]
          simp [status]
        refine ⟨{ s with demux }, .ok (), ?_, ?_, ?_, fun _ => .waiting ?_ fun _ => parsed⟩
        · rw [Decoder.processLoop, next]
          simp only [again, header, Bool.false_eq_true, and_false, if_false, if_true]
        · rw [shows, h.core]
        · rw [shows]
          rfl
        · exact ⟨waited.follows some, accepted, header, h.fresh, h.core, room.trans h.room⟩
    · have format : e.status = .format := by
        have either := readFrom_status none w
        rw [ends] at either
        exact either.resolve_left again
      rw [format] at ends
      refine ⟨{ s with demux }, Decoder.bad .format "malformed .mlvc stream", ?_, ?_, ?_, fun fine => by cases fine⟩
      · rw [Decoder.processLoop, next]
        simp only [again, false_and, if_false]
      · rw [shows_malformed ends, h.core]
      · rw [shows_malformed ends]
        rfl

/-- **One block.** -/
theorem Settled.process (h : Settled sink d s w) {frame : HostFrame} (bitstream : frame.spec.fmt = .bitstream)
    (some : frame.data ≠ []) (small : (w ++ frame.data).length ≤ kSizeMax) :
    ∃ s' r, d.process sink s frame = Option.some (s', r) ∧ Showed sink d (w ++ frame.data) s' r := by
  have longer : w ++ frame.data ≠ [] := List.append_ne_nil_of_right_ne_nil w some
  rw [List.length_append] at small
  have begins : ∀ {demux : Demuxer}, s.demux.append frame.data = (.ok, demux) →
      d.process sink s frame = d.processLoop sink (demux.buf.length + 3) { s with demux } := by
    intro demux appended
    rw [Decoder.process, if_neg (by simp only [bitstream, some, ne_eq, not_true, or_self, not_false_eq_true]), appended]
    rfl
  cases h with
  | waiting waits unread =>
    have fits : s.demux.buf.length + frame.data.length ≤ kSizeMax := (Nat.add_le_add_right waits.room _).trans small
    have appended := append_eq waits.accepted some fits
    have follows := waits.follows.append fits
    rw [appended] at follows
    have waits' : Waiting { s with demux := { s.demux with buf := s.demux.buf ++ frame.data } } (w ++ frame.data) := by
      refine ⟨follows, waits.accepted, waits.closed, waits.fresh, waits.core, ?_⟩
      rw [List.length_append, List.length_append]
      exact Nat.add_le_add_right waits.room _
    rw [begins appended]
    exact waits'.settle longer (by dsimp only; omega)
  | @ready b hdr done ready parsed bind reads decoded =>
    have fits : s.demux.buf.length + frame.data.length ≤ kSizeMax := (Nat.add_le_add_right ready.room _).trans small
    have appended := append_eq ready.accepted some fits
    have follows := ready.follows.append fits
    rw [appended] at follows
    have ready' :
        Ready b { s with demux := { s.demux with buf := s.demux.buf ++ frame.data } } (w ++ frame.data) done := by
      refine ⟨follows, ready.accepted, ready.ready, ready.bound, ?_⟩
      rw [List.length_append, List.length_append]
      exact Nat.add_le_add_right ready.room _
    obtain ⟨rest, status, goesOn⟩ : ∃ rest status, readFrom none (w ++ frame.data) = (done ++ rest, status) := by
      have here := follows.readFrom ready.accepted []
      rw [List.append_nil] at here
      exact ⟨_, _, here⟩
    have parsed' : parseHeader (w ++ frame.data) = .ok hdr :=
      (parseHeader_append (parseHeader_ok parsed) frame.data).trans parsed
    rw [begins appended]
    obtain ⟨s', r, loops, core, ok, ready''⟩ :=
      ready'.settle longer goesOn (Nat.lt_add_of_pos_right (by decide : 0 < 3))
    have all : d.decodeAll sink b (({} : DecoderCore).sized b) (done ++ rest) = d.decodeAll sink b s.core rest := by
      rw [decodeAll_later, decoded, if_pos (by rfl)]
    refine ⟨s', r, loops, ?_, ?_, fun fine => ?_⟩
    · rw [core, shows_bound parsed' bind, goesOn, all]
    · rw [ok, shows_bound parsed' bind, goesOn, all]
    · rw [fine] at ok
      have both := ok.symm
      rw [Bool.and_eq_true, decide_eq_true_eq] at both
      rw [both.2] at goesOn
      refine .ready (ready'' fine) parsed' bind goesOn ?_
      rw [all]
      exact Prod.ext core.symm (isOk_unit both.1)

/-- A decoder that has nothing yet. -/
theorem settled_start (sink : Nat → Status) (d : Decoder) : Settled sink d {} [] := by
  refine .waiting ⟨?_, rfl, rfl, rfl, rfl, Nat.le_refl _⟩ fun some => absurd rfl some
  exact ⟨fun _ => Lib.Reader.Under.refl none [], nofun, fun _ _ => rfl⟩

/-- What a settled decoder has shown. -/
theorem Settled.shows (h : Settled sink d s w) (some : w ≠ []) : Showed sink d w s (.ok ()) := by
  refine ⟨?_, ?_, fun _ => h⟩
  · cases h with
    | waiting waits unread =>
      obtain ⟨e, parsed, -⟩ := unread some
      unfold Decoder.shows
      rw [parsed, waits.core]
    | ready _ parsed bind reads decoded => rw [shows_bound parsed bind, reads, decoded]
  · cases h with
    | waiting waits unread =>
      obtain ⟨e, parsed, again⟩ := unread some
      unfold Decoder.shows
      rw [parsed]
      simp [again, Except.isOk, Except.toBool]
    | ready _ parsed bind reads decoded =>
      rw [shows_bound parsed bind, reads, decoded]
      rfl

theorem Settled.processAll (h : Settled sink d s w) {frames : List HostFrame}
    (pieces : ∀ frame ∈ frames, frame.spec.fmt = .bitstream ∧ frame.data ≠ [])
    (some : w ++ frames.flatMap (·.data) ≠ []) (small : (w ++ frames.flatMap (·.data)).length ≤ kSizeMax) :
    ∃ s' r, d.processAll sink s frames = Option.some (s', r) ∧
      s'.core.emitted = (d.shows sink (w ++ frames.flatMap (·.data))).1 ∧
      r.isOk = (d.shows sink (w ++ frames.flatMap (·.data))).2 := by
  induction frames generalizing s w with
  | nil =>
    rw [List.flatMap_nil, List.append_nil] at some ⊢
    have shows := h.shows some
    exact ⟨s, .ok (), rfl, shows.emitted, shows.ok⟩
  | cons frame frames ih =>
    obtain ⟨⟨bitstream, filled⟩, pieces⟩ := List.forall_mem_cons.mp pieces
    rw [List.flatMap_cons, ← List.append_assoc] at some small ⊢
    have room : (w ++ frame.data).length ≤ kSizeMax := by
      rw [List.length_append] at small
      omega
    obtain ⟨s₁, r, played, shows⟩ := h.process bitstream filled room
    cases r with
    | ok _ =>
      rw [Decoder.processAll, played]
      exact ih (shows.settled rfl) pieces some small
    | error e =>
      have stopped : (d.shows sink (w ++ frame.data)).2 = false := shows.ok.symm
      have same := (shows_more (List.append_ne_nil_of_right_ne_nil w filled) (frames.flatMap (·.data))).2 stopped
      refine ⟨s₁, .error e, ?_, ?_, ?_⟩
      · rw [Decoder.processAll, played]
      · rw [same]
        exact shows.emitted
      · rw [same]
        exact shows.ok

end Block

end Rkvc.Mlvc
