import Rkvc.Mlvc.Accounts

/-!
# The structure of the GOP

`process` types a frame with two counters, one of the session and one of the GOP, which
coded, dropped and key frames advance on paths of their own. The records that come out are
keyframes at the multiples of the period, whatever rate control decides (`gop_structure`),
because every call keeps the counters in step with the records (`Tracks.turn`).
-/

namespace Rkvc.Mlvc
set_option autoImplicit false
open Lib

/-! ## The records of a stream -/

inductive Entry where
  | dropped
  | coded (kind : FrameKind)
  deriving DecidableEq, Repr

namespace Entry

def isKey : Entry → Bool
  | dropped => false
  | coded kind => kind.isIdr

def marks : Entry → Bool
  | dropped => false
  | coded kind => kind.markLtr

def recovers : Entry → Bool
  | dropped => false
  | coded kind => kind.isRecovery

def flags : Entry → UInt32
  | dropped => 0
  | coded kind => kind.recFlags

end Entry

/-- A record has marked the long-term slot since the last keyframe. -/
def Marked (es : List Entry) : Prop :=
  ∃ (j : Nat) (e : Entry), es[j]? = some e ∧ e.marks = true ∧
    ∀ (k : Nat) (e' : Entry), j < k → es[k]? = some e' → e'.isKey = false

/-- Keyframes at the multiples of the period, and recoveries only behind a mark. -/
structure GopShaped (period : Nat) (es : List Entry) : Prop where
  key : ∀ (i : Nat) (e : Entry), es[i]? = some e → (e.isKey = true ↔ period ∣ i)
  plain : ∀ (i : Nat) (e : Entry), es[i]? = some e → e.isKey = true → e.marks = false ∧ e.recovers = false
  recovery : ∀ (i : Nat) (e : Entry), es[i]? = some e → e.recovers = true → Marked (es.take i)

section Records

variable {period i : Nat} {es : List Entry} {e e' : Entry}

theorem marked_mark (mark : e.marks = true) : Marked (es ++ [e]) := by
  refine ⟨es.length, e, List.getElem?_concat_length, mark, ?_⟩
  intro k e' behind at_
  have inside := (List.getElem?_eq_some_iff.mp at_).1
  rw [List.length_append, List.length_singleton] at inside
  omega

/-- A record of the list, or the one behind it. -/
theorem concat_at (h : (es ++ [e])[i]? = some e') : es[i]? = some e' ∨ i = es.length ∧ e' = e := by
  rcases Nat.lt_or_ge i es.length with before | behind
  · rw [List.getElem?_append_left before] at h
    exact .inl h
  · obtain rfl : i = es.length := by
      have inside := (List.getElem?_eq_some_iff.mp h).1
      rw [List.length_append, List.length_singleton] at inside
      omega
    rw [List.getElem?_concat_length] at h
    exact .inr ⟨rfl, (Option.some.inj h).symm⟩

theorem Marked.concat (h : Marked es) (plain : e.isKey = false) : Marked (es ++ [e]) := by
  obtain ⟨j, marker, at_, mark, since⟩ := h
  have inside := (List.getElem?_eq_some_iff.mp at_).1
  refine ⟨j, marker, by rw [List.getElem?_append_left inside, at_], mark, ?_⟩
  intro k e' behind at_'
  rcases concat_at at_' with before | ⟨-, rfl⟩
  · exact since k e' behind before
  · exact plain

theorem gopShaped_nil : GopShaped period [] := ⟨nofun, nofun, nofun⟩

/-- One record more. -/
theorem GopShaped.concat (h : GopShaped period es) (key : e.isKey = true ↔ period ∣ es.length)
    (plain : e.isKey = true → e.marks = false ∧ e.recovers = false) (recovery : e.recovers = true → Marked es) :
    GopShaped period (es ++ [e]) := by
  constructor
  · intro i e' at_
    rcases concat_at at_ with before | ⟨rfl, rfl⟩
    · exact h.key i e' before
    · exact key
  · intro i e' at_
    rcases concat_at at_ with before | ⟨rfl, rfl⟩
    · exact h.plain i e' before
    · exact plain
  · intro i e' at_ recovers
    rcases concat_at at_ with before | ⟨rfl, rfl⟩
    · rw [List.take_append_of_le_length (Nat.le_of_lt (List.getElem?_eq_some_iff.mp before).1)]
      exact h.recovery i e' before recovers
    · rw [List.take_left]
      exact recovery recovers

end Records

/-! ## Any rate control -/

section Any

variable {K : Type}

/-- `chooseQ` with rate control that solves as it likes. -/
def Encoder.chooseBy (e : Encoder) (s : EncoderState K) (solve : RateController K → Int32 × RateController K)
    (kind : FrameKind) : Option (RateController K) × Decision :=
  match s.rc with
  | none => (none, .code e.bound.qp)
  | some rc =>
    let (solved, rc) := solve rc
    if solved.toInt = kQDrop then
      if kind.rcType = .P ∧ !kind.markLtr then (some rc, .drop) else (some rc, .code 0)
    else (some rc, .code solved.toInt)

variable {e : Encoder} {s : EncoderState K}

/-- A frame that is coded is not written as a drop. -/
theorem chooseBy_code {solve : RateController K → Int32 × RateController K} {kind : FrameKind} {q : Int}
    (bound : e.bound.Bound) (t : EncoderState K) (h : (e.chooseBy s solve kind).2 = .code q) :
    Int32.ofInt (e.selectRung t q).2 ≠ kQindexDropped := by
  have listed {q : Int} (range : 0 ≤ q ∧ q ≤ 63) : Int32.ofInt q ≠ kQindexDropped := by
    intro drop
    have same : (Int32.ofInt q).toInt = q := Int32.toInt_ofInt_of_le (by omega) (by omega)
    rw [drop] at same
    have : (kQindexDropped.toInt : Int) = -1 := rfl
    omega
  have written : Int32.ofInt q ≠ kQindexDropped := by
    unfold Encoder.chooseBy at h
    cases on : s.rc with
    | none =>
      rw [on] at h
      cases h
      exact listed bound.qp
    | some rc =>
      rw [on] at h
      dsimp only at h
      split at h
      · split at h
        · cases h
        · cases h
          exact listed ⟨by decide, by decide⟩
      · rename_i solved
        cases h
        intro drop
        rw [Int32.ofInt_toInt] at drop
        rw [drop] at solved
        exact solved rfl
  unfold Encoder.selectRung
  split
  · exact written
  · dsimp only
    rw [List.getD_eq_getElem?_getD]
    cases at_ : e.bound.rs.rungQp[nearestRung e.bound.rs.rungQp q]? with
    | none => exact listed ⟨by decide, by decide⟩
    | some rung => exact listed (bound.range rung (List.mem_of_getElem? at_))

/-- Only a plain frame is dropped. -/
theorem chooseBy_drop {solve : RateController K → Int32 × RateController K} {kind : FrameKind}
    (h : (e.chooseBy s solve kind).2 = .drop) : kind.isIdr = false ∧ kind.markLtr = false := by
  unfold Encoder.chooseBy at h
  cases on : s.rc with
  | none =>
    rw [on] at h
    cases h
  | some rc =>
    rw [on] at h
    dsimp only at h
    split at h
    · split at h
      · rename_i plain
        obtain ⟨type, mark⟩ := plain
        refine ⟨?_, by simpa using mark⟩
        cases idr : kind.isIdr with
        | false => rfl
        | true =>
          rw [FrameKind.rcType, if_pos idr] at type
          cases type
      · cases h
    · cases h

variable [Field K] [LinearOrder K] [FloorRing K]

namespace Encoder

/-- `process` with rate control that solves as it likes. -/
def processBy (fns : LogExp K) (e : Encoder) (s : EncoderState K)
    (solve : RateController K → Int32 × RateController K) (input : HostFrame) (sink : Status) : EncodeStep K :=
  if input.spec.fmt ≠ .nv12 ∨ input.spec.domain ≠ .host ∨ input.data = [] then
    { state := s, result := bad .format "NV12 host input only" }
  else if input.spec.width ≠ e.bound.imgW.toNat ∨ input.spec.height ≠ e.bound.imgH.toNat then
    { state := s, result := bad .format "geometry mismatch" }
  else
    match e.retarget s input.encode with
    | .error err => { state := s, result := .error err }
    | .ok s =>
      let kind := e.frameKind s input.encode.forceIdr
      let (rc, decision) := e.chooseBy s solve kind
      let s := { s with rc }
      match decision with
      | .drop => dropFrame s input sink
      | .code qIndex => e.codeFrame fns (e.prepare s kind qIndex) input kind (e.selectRung s qIndex).2 sink

end Encoder

variable {fns : LogExp K} {input : HostFrame} {sink : Status}

theorem solved_int32 (rc : RateController K) (pt : K) (t : RcFrameType) (overhead : Int) :
    (Int32.ofInt (rc.solve fns pt t overhead).1).toInt = (rc.solve fns pt t overhead).1 := by
  by_cases dropped : (rc.solve fns pt t overhead).1 = kQDrop
  · rw [dropped]
    rfl
  · have range := solve_range dropped
    exact Int32.toInt_ofInt_of_le (by omega) (by omega)

variable (fns e s) in
/-- The rate control of the encoder is one of them. -/
theorem chooseQ_by (kind : FrameKind) : ∃ solve, e.chooseQ fns s kind = e.chooseBy s solve kind := by
  refine ⟨fun rc =>
    let out := rc.solve fns ((s.frameCount.toNat : K) / (e.fps.toNat : K)) kind.rcType (kRecSize * 8)
    (Int32.ofInt out.1, out.2), ?_⟩
  unfold Encoder.chooseQ Encoder.chooseBy
  cases s.rc with
  | none => rfl
  | some rc =>
    dsimp only
    rw [solved_int32]

variable (fns e s input sink) in
theorem process_by : ∃ solve, e.process fns s input sink = e.processBy fns s solve input sink := by
  unfold Encoder.process Encoder.processBy
  cases e.retarget s input.encode with
  | error err => exact ⟨fun rc => (0, rc), rfl⟩
  | ok s' =>
    obtain ⟨solve, same⟩ := chooseQ_by e s' fns (e.frameKind s' input.encode.forceIdr)
    refine ⟨solve, ?_⟩
    dsimp only
    generalize e.chooseQ fns s' (e.frameKind s' input.encode.forceIdr) = chosen at same ⊢
    subst same
    rfl

end Any

/-! ## The counters -/

/-- The counters behind `n` records. -/
structure Counts {K : Type} (s : EncoderState K) (period n : Nat) : Prop where
  frames : s.frameCount.toNat = n
  gop : s.curFrameIdx.toNat = if n = 0 then 0 else (n - 1) % period + 1

section Counters

variable {K : Type} {e : Encoder} {s t : EncoderState K} {period n : Nat}

theorem Counts.of_eq (h : Counts s period n) (frames : t.frameCount = s.frameCount)
    (gop : t.curFrameIdx = s.curFrameIdx) : Counts t period n := by
  constructor
  · rw [frames]
    exact h.frames
  · rw [gop]
    exact h.gop

/-- A frame is a keyframe where the period divides its position. -/
theorem Counts.isIdr (h : Counts s s.iframePeriod.toNat n) (pos : 0 < s.iframePeriod.toNat) :
    (e.frameKind s false).isIdr = true ↔ s.iframePeriod.toNat ∣ n := by
  have first : s.frameCount = 0 ↔ n = 0 := by
    rw [← h.frames, ← UInt32.toNat_inj]
    rfl
  have some : s.iframePeriod ≠ 0 := by
    intro none
    rw [none] at pos
    exact absurd pos (Nat.lt_irrefl 0)
  have multiple : s.curFrameIdx % s.iframePeriod = 0 ↔ s.curFrameIdx.toNat % s.iframePeriod.toNat = 0 := by
    rw [← UInt32.toNat_inj, UInt32.toNat_mod]
    rfl
  have later : s.curFrameIdx > 0 ↔ 0 < s.curFrameIdx.toNat := UInt32.lt_iff_toNat_lt
  simp only [Encoder.frameKind, decide_eq_true_eq, Bool.false_eq_true, false_or, first, multiple, later, h.gop]
  by_cases zero : n = 0
  · simp only [zero, true_or, dvd_zero]
  · have next : n - 1 + 1 = n := by omega
    rw [if_neg zero, Nat.mod_add_mod, next, Nat.dvd_iff_mod_eq_zero]
    simp only [zero, some, ne_eq, not_false_eq_true, Nat.zero_lt_succ, true_and, false_or]

/-- One record more: a keyframe starts the count of the GOP over. -/
theorem Counts.next {key : Bool} (h : Counts s period n) (pos : 0 < period) (room : n + 1 < 2 ^ 32)
    (typed : key = true ↔ period ∣ n) (frames : t.frameCount = s.frameCount + 1)
    (gop : t.curFrameIdx = if key then 1 else s.curFrameIdx + 1) : Counts t period (n + 1) := by
  have before := h.gop
  constructor
  · rw [frames, UInt32.toNat_add, h.frames]
    exact Nat.mod_eq_of_lt room
  · rw [gop, if_neg (Nat.succ_ne_zero n), Nat.add_sub_cancel]
    cases key with
    | true =>
      have start : n % period = 0 := Nat.mod_eq_zero_of_dvd (typed.mp rfl)
      rw [if_pos rfl, start]
      rfl
    | false =>
      have inside : n % period ≠ 0 := fun zero => nomatch typed.mpr (Nat.dvd_of_mod_eq_zero zero)
      have zero : n ≠ 0 := by
        intro zero
        rw [zero, Nat.zero_mod] at inside
        exact inside rfl
      rw [if_neg zero] at before
      have step : (n - 1) % period + 1 = n % period := by
        have bound := Nat.mod_lt (n - 1) pos
        have wrap := Nat.mod_add_mod (n - 1) period 1
        rw [Nat.sub_add_cancel (Nat.pos_of_ne_zero zero)] at wrap
        rcases Nat.lt_or_ge ((n - 1) % period + 1) period with less | full
        · rw [Nat.mod_eq_of_lt less] at wrap
          exact wrap
        · rw [show (n - 1) % period + 1 = period by omega, Nat.mod_self] at wrap
          exact absurd wrap.symm inside
      have small := Nat.mod_le n period
      rw [if_neg Bool.false_ne_true, UInt32.toNat_add, before, step]
      exact Nat.mod_eq_of_lt (show n % period + 1 < 2 ^ 32 by omega)

end Counters

/-! ## One call -/

section Call

variable {K : Type} {fns : LogExp K} {e : Encoder} {s : EncoderState K} {input : HostFrame} {sink : Status}
  {kind : FrameKind} {q : Int}

/-- What the entropy coder needs of the state. -/
structure EncoderState.Sized (s : EncoderState K) (e : Encoder) : Prop where
  zIdx : s.zIdx.length = e.bound.geom.zSize
  scales : s.scales.Sized e.bound.geom

theorem fresh_sized (quality : Quality) : (EncoderState.fresh K quality e.bound).Sized e := by
  constructor
  · exact List.length_replicate
  · constructor
    · exact List.length_replicate
    · exact List.length_replicate

/-- What `prepare` does to the counters and to the long-term slot. -/
structure PreparedFor (e : Encoder) (s t : EncoderState K) (keyframe : Bool) : Prop where
  sized : t.Sized e
  frames : t.frameCount = s.frameCount
  gop : t.curFrameIdx = s.curFrameIdx
  ltr : t.haveLtr = (!keyframe && s.haveLtr)

theorem prepare_for (sized : s.Sized e) (kind : FrameKind) (q : Int) :
    PreparedFor e s (e.prepare s kind q) kind.isIdr := by
  obtain ⟨zIdx, scales⟩ := sized
  unfold Encoder.prepare
  generalize e.selectRung s q = selected
  obtain ⟨active, usedQp⟩ := selected
  by_cases stale : s.zIdxQp ≠ usedQp
  · simp only [if_pos stale]
    cases kind.isIdr
    · exact ⟨⟨buildZIdx_length _ _, scales⟩, rfl, rfl, rfl⟩
    · exact ⟨⟨buildZIdx_length _ _, scales⟩, rfl, rfl, rfl⟩
  · simp only [if_neg stale]
    cases kind.isIdr
    · exact ⟨⟨zIdx, scales⟩, rfl, rfl, rfl⟩
    · exact ⟨⟨zIdx, scales⟩, rfl, rfl, rfl⟩

/-- Outputs that can be coded are coded, but for a geometry that is always refused. -/
theorem encodePayload_ok {output : Nat → List UInt16} {refN : Nat} (bound : e.bound.Bound) (sized : s.Sized e)
    (fits : e.bound.geom.NoOverflow e.bound.entropy) (codable : e.bound.codable output refN = true) :
    ∃ bits scales, encodePayload e.bound.gCoder e.bound.bCoder e.bound.entropy e.bound.geom s.zIdx
      (e.bound.latents output) s.scales = .ok (bits, scales) := by
  obtain ⟨latents, -, -⟩ := codable_spec codable
  obtain ⟨out, extracted, -, out_sized, -, -⟩ :=
    extractFor_spec (z := (e.bound.latents output).z) bound.coders bound.geom fits sized.scales sized.scales
  exact ⟨_, _, encodePayload_eq bound.coders latents out_sized sized.zIdx extracted⟩

/-- A call that emits no packet, or the packet of a frame of `kind`. -/
inductive Emits (e : Encoder) (s : EncoderState K) (kind : FrameKind) (out : EncodeStep K) : List Entry → Prop
  | nothing : out.packet = none → out.state.frameCount = s.frameCount → out.state.curFrameIdx = s.curFrameIdx →
      (out.state.haveLtr = true → s.haveLtr = true) → Emits e s kind out []
  | dropped : kind.isIdr = false → (∃ pts, out.packet = some { data := droppedView.write, pts }) →
      out.state.frameCount = s.frameCount + 1 → out.state.curFrameIdx = s.curFrameIdx + 1 →
      out.state.haveLtr = s.haveLtr → Emits e s kind out [.dropped]
  | coded {usedQp : Int} {bits : List UInt8} {hdr : Header} : Int32.ofInt usedQp ≠ kQindexDropped →
      (∃ pts, out.packet = some
        { data := (if s.frameCount = 0 then writeHeader hdr else []) ++ (codedView kind usedQp bits).write
          keyframe := kind.isIdr
          pts }) →
      out.state.frameCount = s.frameCount + 1 →
      out.state.curFrameIdx = (if kind.isIdr then 1 else s.curFrameIdx + 1) →
      out.state.haveLtr = (kind.markLtr || !kind.isIdr && s.haveLtr) → e.bound.geom.NoOverflow e.bound.entropy →
      Emits e s kind out [.coded kind]

variable [Field K] [LinearOrder K] [FloorRing K]

/-- A frame that is coded: where it fails, the long-term slot is not marked. -/
theorem codeFrame_emits {t : EncoderState K} (bound : e.bound.Bound) (ready : PreparedFor e s t kind.isIdr)
    (wide : ¬e.bound.geom.NoOverflow e.bound.entropy → kind.markLtr = false)
    (written : Int32.ofInt q ≠ kQindexDropped) :
    (Encoder.codeFrame fns e t input kind q sink).state.Sized e ∧
      ∃ es, Emits e s kind (Encoder.codeFrame fns e t input kind q sink) es := by
  obtain ⟨sized, frames, gop, ltr⟩ := ready
  have unmarked : t.haveLtr = true → s.haveLtr = true := by
    rw [ltr, Bool.and_eq_true]
    exact fun both => both.2
  unfold Encoder.codeFrame
  dsimp only
  split
  · exact ⟨sized, [], .nothing rfl frames gop unmarked⟩
  · rename_i npu model
    split
    · exact ⟨sized, [], .nothing rfl frames gop unmarked⟩
    · split
      · exact ⟨sized, [], .nothing rfl frames gop unmarked⟩
      · rename_i codable
        rw [Bool.not_eq_true, Bool.not_eq_false'] at codable
        generalize npu.output _ = output at codable ⊢
        obtain ⟨-, zIdx, -, count, -⟩ := keep_keeps t (output e.bound.featOut) kind.markLtr
        have scales : (t.keep (output e.bound.featOut) kind.markLtr).scales = t.scales := by
          cases kind.markLtr <;> rfl
        have cur : (t.keep (output e.bound.featOut) kind.markLtr).curFrameIdx = t.curFrameIdx := by
          cases kind.markLtr <;> rfl
        have marked : (t.keep (output e.bound.featOut) kind.markLtr).haveLtr = (kind.markLtr || t.haveLtr) := by
          cases kind.markLtr <;> rfl
        have sized' : (t.keep (output e.bound.featOut) kind.markLtr).Sized e := by
          constructor
          · rw [zIdx]
            exact sized.zIdx
          · rw [scales]
            exact sized.scales
        generalize t.keep (output e.bound.featOut) kind.markLtr = kept at count scales cur marked sized' ⊢
        by_cases fits : e.bound.geom.NoOverflow e.bound.entropy
        · obtain ⟨bits, scales', payload⟩ := encodePayload_ok bound sized' fits codable
          rw [payload]
          refine ⟨⟨sized'.zIdx, encodePayload_sized sized'.scales payload⟩, [.coded kind], ?_⟩
          refine @Emits.coded _ _ _ _ _ q bits (e.header kept) written ⟨input.pts, ?_⟩ ?_ ?_ ?_ fits
          · simp only [Encoder.emitFrame, Encoder.leading, count, frames, List.append_assoc]
            rfl
          · exact congrArg (· + 1) (count.trans frames)
          · simp only [Encoder.emitFrame, cur, gop]
          · rw [← ltr]
            exact marked
        · rw [payload_of_overflow bound.coders bound.geom fits]
          refine ⟨sized', [], .nothing rfl (count.trans frames) (cur.trans gop) ?_⟩
          rw [wide fits, Bool.false_or] at marked
          exact fun have_ => unmarked (marked ▸ have_)

/-- The period that a frame is typed with. -/
def EncoderState.periodFor {K : Type} (s : EncoderState K) (control : EncodeControl) : UInt32 :=
  if control.gopSize > 0 then control.gopSize else s.iframePeriod

theorem retarget_period {control : EncodeControl} {s' : EncoderState K} (h : e.retarget s control = .ok s') :
    s'.iframePeriod = s.periodFor control := by
  obtain ⟨rc, rcBitrate, iframePeriod, same, -⟩ := retarget_spec h
  unfold Encoder.retarget at h
  dsimp only at h
  split at h
  · cases h
  · rename_i s₁ targeted
    have period : s₁.iframePeriod = s.iframePeriod := by
      split at targeted
      · split at targeted
        · split at targeted
          · cases targeted
          · cases targeted
            rfl
        · cases targeted
          rfl
      · cases targeted
        rfl
    cases h
    unfold EncoderState.periodFor
    split
    · rfl
    · exact period

/-- What a call emits: nothing, or a record of the frame's kind. -/
theorem processBy_emits (fns : LogExp K) (solve : RateController K → Int32 × RateController K) (sink : Status)
    (bound : e.bound.Bound) (sized : s.Sized e) (wide : ¬e.bound.geom.NoOverflow e.bound.entropy → s.frameCount = 0)
    (unforced : input.encode.forceIdr = false) :
    (e.processBy fns s solve input sink).state.Sized e ∧
      ∃ es, Emits e s (e.frameKind { s with iframePeriod := s.periodFor input.encode } false)
        (e.processBy fns s solve input sink) es := by
  have failed {err : Result Unit} : Emits e s (e.frameKind { s with iframePeriod := s.periodFor input.encode } false)
      { state := s, result := err } [] := .nothing rfl rfl rfl id
  unfold Encoder.processBy
  split
  · exact ⟨sized, [], failed⟩
  · split
    · exact ⟨sized, [], failed⟩
    · cases targeted : e.retarget s input.encode with
      | error err => exact ⟨sized, [], failed⟩
      | ok s' =>
        have period := retarget_period targeted
        obtain ⟨rc₁, rcBitrate, iframePeriod, rfl, -⟩ := retarget_spec targeted
        dsimp only at period
        subst period
        dsimp only
        have typed : e.frameKind
            ({ s with rc := rc₁, rcBitrate, iframePeriod := s.periodFor input.encode } : EncoderState K)
              input.encode.forceIdr =
            e.frameKind { s with iframePeriod := s.periodFor input.encode } false := by
          rw [unforced]
          rfl
        rw [typed]
        generalize kinded : e.frameKind { s with iframePeriod := s.periodFor input.encode } false = kind
        generalize chosen : e.chooseBy
          ({ s with rc := rc₁, rcBitrate, iframePeriod := s.periodFor input.encode } : EncoderState K) solve kind = choice
        cases choice with
        | mk rc decision =>
          cases decision with
          | drop =>
            obtain ⟨idr, -⟩ := chooseBy_drop (congrArg Prod.snd chosen)
            refine ⟨⟨sized.zIdx, sized.scales⟩, [.dropped], .dropped idr ⟨input.pts, ?_⟩ rfl rfl rfl⟩
            rw [droppedView_write]
            rfl
          | code q =>
            refine codeFrame_emits bound ?_ ?_ (chooseBy_code bound _ (congrArg Prod.snd chosen))
            · have ready := prepare_for
                (show ({ s with rc, rcBitrate, iframePeriod := s.periodFor input.encode } : EncoderState K).Sized e from
                  ⟨sized.zIdx, sized.scales⟩) kind q
              exact ⟨ready.sized, ready.frames, ready.gop, ready.ltr⟩
            · intro overflow
              rw [← kinded]
              simp [Encoder.frameKind, wide overflow]

end Call

/-! ## Runs -/

/-- A call that is asked for. -/
structure Asked (K : Type) where
  input : HostFrame
  sink : Status := .ok
  solve : RateController K → Int32 × RateController K

/-- A call that was made. -/
structure Turn (K : Type) where
  before : EncoderState K
  input : HostFrame
  out : EncodeStep K

/-- The period that the frame of a call is typed with. -/
def Turn.period {K : Type} (t : Turn K) : UInt32 := t.before.periodFor t.input.encode

/-- The record of a call, behind the header of the first one. -/
def Turn.record? {K : Type} (t : Turn K) : Option (List UInt8) := t.out.packet.map fun _ => t.out.record

def records {K : Type} (turns : List (Turn K)) : List (List UInt8) := turns.filterMap Turn.record?

def recordQIndex (r : List UInt8) : Int32 := (rdWord r 4).toInt32

def recordFlags (r : List UInt8) : UInt32 := rdWord r 8

/-- A record has a flag. -/
def Flagged (r : List UInt8) (flag : UInt32) : Prop := recordFlags r &&& flag ≠ 0

/-- The bytes of a record. -/
structure Shows (r : List UInt8) (e : Entry) : Prop where
  flags : recordFlags r = e.flags
  written : e ≠ .dropped → recordQIndex r ≠ kQindexDropped

section Runs

variable {K : Type} {e : Encoder} {s : EncoderState K} {es : List Entry} {period : UInt32}

theorem Shows.flagged {r : List UInt8} {e : Entry} (h : Shows r e) :
    (Flagged r kRecKeyframe ↔ e.isKey = true) ∧ (Flagged r kRecLtrMark ↔ e.marks = true) ∧
      (Flagged r kRecLtrRecovery ↔ e.recovers = true) := by
  unfold Flagged
  rw [h.flags]
  cases e with
  | dropped => decide
  | coded kind => exact recFlags_bits kind

theorem shows_view {v : View} {e : Entry} (flags : v.flags = e.flags)
    (written : e ≠ .dropped → v.qIndex ≠ kQindexDropped) : Shows v.write e := by
  obtain ⟨-, qIndex, flags', -⟩ := write_words v []
  rw [List.append_nil] at qIndex flags'
  constructor
  · rw [recordFlags, flags', flags]
  · rw [recordQIndex, qIndex]
    exact written

theorem records_cons (t : Turn K) (turns : List (Turn K)) : records (t :: turns) = records [t] ++ records turns := by
  rw [records, ← List.singleton_append, List.filterMap_append]
  rfl

theorem records_of {t : Turn K} {p : Packet} (packet : t.out.packet = some p) : records [t] = [t.out.record] := by
  simp [records, Turn.record?, packet]

variable (e s) in
/-- A keyframe neither marks nor recovers, and a recovery has something to recover from. -/
theorem frameKind_spec (forceIdr : Bool) :
    let kind := e.frameKind s forceIdr
    (kind.isIdr = true → kind.markLtr = false ∧ kind.isRecovery = false) ∧
      (kind.isRecovery = true → s.haveLtr = true) := by
  intro kind
  constructor
  · intro idr
    have unmarked : kind.markLtr = false := by
      change decide _ = true at idr
      simp [kind, Encoder.frameKind, of_decide_eq_true idr]
    refine ⟨unmarked, ?_⟩
    change (e.proactiveLtr && kind.markLtr && s.haveLtr) = false
    rw [unmarked, Bool.and_false, Bool.false_and]
  · intro recovery
    change (e.proactiveLtr && kind.markLtr && s.haveLtr) = true at recovery
    exact (Bool.and_eq_true_iff.mp recovery).2

/-- The records so far and the state they leave. -/
structure Tracks (e : Encoder) (period : Nat) (s : EncoderState K) (es : List Entry) : Prop where
  counts : Counts s period es.length
  shaped : GopShaped period es
  ltr : s.haveLtr = true → Marked es
  sized : s.Sized e
  refused : ¬e.bound.geom.NoOverflow e.bound.entropy → es = []

theorem fresh_tracks (period : Nat) (quality : Quality) :
    Tracks e period (EncoderState.fresh K quality e.bound) [] := by
  constructor
  · exact ⟨rfl, rfl⟩
  · exact gopShaped_nil
  · exact nofun
  · exact fresh_sized quality
  · exact fun _ => rfl

variable [Field K] [LinearOrder K] [FloorRing K]

/-- **What a call keeps.** -/
theorem Tracks.turn (fns : LogExp K) (solve : RateController K → Int32 × RateController K) {input : HostFrame}
    (sink : Status) (h : Tracks e period.toNat s es) (bound : e.bound.Bound) (room : es.length + 1 < 2 ^ 32)
    (pos : 0 < period.toNat) (fixed : s.periodFor input.encode = period) (unforced : input.encode.forceIdr = false) :
    let out := e.processBy fns s solve input sink
    ∃ more, Tracks e period.toNat out.state (es ++ more) ∧
      List.Forall₂ Shows (records [⟨s, input, out⟩]) more ∧ more.length ≤ 1 := by
  have counts := h.counts
  have wide : ¬e.bound.geom.NoOverflow e.bound.entropy → s.frameCount = 0 := by
    intro overflow
    rw [h.refused overflow] at counts
    exact UInt32.toNat_inj.mp counts.frames
  obtain ⟨sized, more, emits⟩ := processBy_emits fns solve sink bound h.sized wide unforced
  rw [fixed] at emits
  generalize typed : e.frameKind { s with iframePeriod := period } false = kind at emits
  have key : kind.isIdr = true ↔ period.toNat ∣ es.length := by
    rw [← typed]
    have counts' : Counts ({ s with iframePeriod := period } : EncoderState K) period.toNat es.length :=
      counts.of_eq rfl rfl
    exact counts'.isIdr pos
  intro out
  change out.state.Sized e at sized
  change Emits e s kind out more at emits
  generalize out = out at emits sized ⊢
  cases emits with
  | nothing packet frames gop ltr =>
    have none : records [⟨s, input, out⟩] = [] := by simp [records, Turn.record?, packet]
    rw [none]
    refine ⟨[], ?_, .nil, Nat.zero_le 1⟩
    rw [List.append_nil]
    exact ⟨counts.of_eq frames gop, h.shaped, fun marked => h.ltr (ltr marked), sized, h.refused⟩
  | dropped idr packet frames gop ltr =>
    obtain ⟨pts, packet⟩ := packet
    have some : es ≠ [] := by
      intro none
      rw [none, idr] at key
      exact Bool.false_ne_true (key.mpr (dvd_zero _))
    have later : s.frameCount ≠ 0 := by
      intro zero
      have frames := counts.frames
      rw [zero] at frames
      exact some (List.length_eq_zero_iff.mp frames.symm)
    have data : droppedView.write = (if s.frameCount = 0 then writeHeader {} else []) ++ droppedView.write := by
      rw [if_neg later, List.nil_append]
    have record := record_eq packet data frames
    refine ⟨[.dropped], ⟨?_, ?_, ?_, sized, ?_⟩, ?_, Nat.le_refl 1⟩
    · rw [List.length_append]
      refine counts.next pos room key frames ?_
      rw [gop, idr]
      rfl
    · refine h.shaped.concat ?_ nofun nofun
      rw [← key, idr]
      rfl
    · intro marked
      rw [ltr] at marked
      exact (h.ltr marked).concat rfl
    · exact fun overflow => absurd (h.refused overflow) some
    · rw [records_of packet, record]
      exact .cons (shows_view rfl fun coded => absurd rfl coded) .nil
  | @coded usedQp bits hdr written packet frames gop ltr fits =>
    obtain ⟨pts, packet⟩ := packet
    have record := record_eq packet rfl frames
    obtain ⟨exclusive, recovers⟩ := frameKind_spec e ({ s with iframePeriod := period } : EncoderState K) false
    rw [typed] at exclusive recovers
    refine ⟨[.coded kind], ⟨?_, ?_, ?_, sized, ?_⟩, ?_, Nat.le_refl 1⟩
    · rw [List.length_append]
      exact counts.next pos room key frames gop
    · exact h.shaped.concat key exclusive fun recovery => h.ltr (recovers recovery)
    · intro marked
      rw [ltr, Bool.or_eq_true, Bool.and_eq_true, Bool.not_eq_true'] at marked
      rcases marked with mark | ⟨plain, marked⟩
      · exact marked_mark mark
      · exact (h.ltr marked).concat plain
    · exact fun overflow => absurd fits overflow
    · rw [records_of packet, record]
      exact .cons (shows_view rfl fun _ => written) .nil

/-- The calls of a run, also those that fail, under any rate control. -/
def Encoder.turns (fns : LogExp K) (e : Encoder) : EncoderState K → List (Asked K) → List (Turn K)
  | _, [] => []
  | s, a :: asked =>
    let out := e.processBy fns s a.solve a.input a.sink
    ⟨s, a.input, out⟩ :: turns fns e out.state asked

/-- The calls of a run are those that were asked for. -/
theorem turns_asked {fns : LogExp K} {asked : List (Asked K)} {t : Turn K} (h : t ∈ e.turns fns s asked) :
    ∃ a ∈ asked, t.input = a.input := by
  induction asked generalizing s with
  | nil => exact absurd h List.not_mem_nil
  | cons a asked ih =>
    rw [Encoder.turns] at h
    rcases List.mem_cons.mp h with rfl | later
    · exact ⟨a, List.mem_cons_self, rfl⟩
    · obtain ⟨b, listed, same⟩ := ih later
      exact ⟨b, List.mem_cons_of_mem _ listed, same⟩

variable (e) in
/-- The runs of the encoder's own rate control are among them. -/
theorem calls_by (fns : LogExp K) (s : EncoderState K) (asked : List (HostFrame × Status)) :
    ∃ given : List (Asked K), given.map (fun a => (a.input, a.sink)) = asked ∧
      e.turns fns s given = (e.calls fns s asked).map fun c => ⟨c.before, c.input, c.out fns e⟩ := by
  induction asked generalizing s with
  | nil => exact ⟨[], rfl, rfl⟩
  | cons frame asked ih =>
    obtain ⟨input, sink⟩ := frame
    obtain ⟨solve, same⟩ := process_by e s fns input sink
    obtain ⟨given, inputs, turns⟩ := ih (e.process fns s input sink).state
    refine ⟨{ input, sink, solve } :: given, ?_, ?_⟩
    · rw [List.map_cons, inputs]
    · rw [Encoder.turns, Encoder.calls, List.map_cons, ← turns, ← same]
      rfl

/-- What a run keeps. -/
theorem Tracks.run {fns : LogExp K} {asked : List (Asked K)} (h : Tracks e period.toNat s es) (bound : e.bound.Bound)
    (room : es.length + asked.length < 2 ^ 32) (pos : 0 < period.toNat)
    (fixed : ∀ t ∈ e.turns fns s asked, t.period = period)
    (unforced : ∀ a ∈ asked, a.input.encode.forceIdr = false) :
    ∃ more, GopShaped period.toNat (es ++ more) ∧ List.Forall₂ Shows (records (e.turns fns s asked)) more := by
  induction asked generalizing s es with
  | nil =>
    refine ⟨[], ?_, .nil⟩
    rw [List.append_nil]
    exact h.shaped
  | cons a asked ih =>
    rw [List.length_cons] at room
    rw [Encoder.turns] at fixed ⊢
    obtain ⟨more, tracks, shows_, short⟩ := h.turn fns a.solve a.sink bound (by omega) pos
      (fixed _ List.mem_cons_self) (unforced a List.mem_cons_self)
    obtain ⟨later, shaped, shows'⟩ := ih tracks (by rw [List.length_append]; omega)
      (fun t ht => fixed t (List.mem_cons_of_mem _ ht)) (fun b hb => unforced b (List.mem_cons_of_mem _ hb))
    refine ⟨more ++ later, ?_, ?_⟩
    · rw [← List.append_assoc]
      exact shaped
    · rw [records_cons]
      exact List.rel_append shows_ shows'

/-- A record and what it shows. -/
theorem shown_at {rs : List (List UInt8)} {i : Nat} {r : List UInt8} (h : List.Forall₂ Shows rs es)
    (at_ : rs[i]? = some r) : ∃ e, es[i]? = some e ∧ Shows r e := by
  obtain ⟨inside, rfl⟩ := List.getElem?_eq_some_iff.mp at_
  have inside' : i < es.length := h.length_eq ▸ inside
  exact ⟨es[i], List.getElem?_eq_getElem inside', h.get inside inside'⟩

theorem shows_at {rs : List (List UInt8)} {i : Nat} {e : Entry} (h : List.Forall₂ Shows rs es)
    (at_ : es[i]? = some e) : ∃ r, rs[i]? = some r ∧ Shows r e := by
  obtain ⟨inside, rfl⟩ := List.getElem?_eq_some_iff.mp at_
  have inside' : i < rs.length := h.length_eq ▸ inside
  exact ⟨rs[i], List.getElem?_eq_getElem inside', h.get inside' inside⟩

/-- **The structure of the GOP**: with a fixed period and no keyframe asked for, the keyframes are
the records at the multiples of the period, drops counted; no keyframe and no marked frame is a
drop; a keyframe neither marks nor recovers; and a recovery comes behind a mark that no keyframe
has followed. -/
theorem gop_structure {quality : Quality} {makeModel : NpuModelFn} {model : Model} {e : Encoder} {period : UInt32}
    (bind : EncoderBinding.bindModel quality makeModel model = .ok e.bound) (fns : LogExp K) (asked : List (Asked K))
    (few : asked.length < 2 ^ 32) (pos : 0 < period)
    (fixed : ∀ t ∈ e.turns fns (EncoderState.fresh K quality e.bound) asked, t.period = period)
    (unforced : ∀ a ∈ asked, a.input.encode.forceIdr = false) :
    let rs := records (e.turns fns (EncoderState.fresh K quality e.bound) asked)
    ∀ i r, rs[i]? = some r →
      (Flagged r kRecKeyframe ↔ period.toNat ∣ i) ∧
      (Flagged r kRecKeyframe ∨ Flagged r kRecLtrMark → recordQIndex r ≠ kQindexDropped) ∧
      (Flagged r kRecKeyframe → ¬Flagged r kRecLtrMark ∧ ¬Flagged r kRecLtrRecovery) ∧
      (Flagged r kRecLtrRecovery → ∃ j < i, ∃ r', rs[j]? = some r' ∧ Flagged r' kRecLtrMark ∧
        ∀ k r'', j < k → k ≤ i → rs[k]? = some r'' → ¬Flagged r'' kRecKeyframe) := by
  intro rs i r at_
  have start := fresh_tracks (K := K) (e := e) period.toNat quality
  obtain ⟨entries, shaped, shown⟩ := start.run (bindModel_spec bind).1 (by simpa using few) pos fixed unforced
  rw [List.nil_append] at shaped
  obtain ⟨entry, there, shows_⟩ := shown_at shown at_
  obtain ⟨key, mark, recovery⟩ := shows_.flagged
  rw [key, mark, recovery]
  refine ⟨shaped.key i entry there, ?_, ?_, ?_⟩
  · intro coded
    apply shows_.written
    rintro rfl
    rcases coded with is | is
    · exact Bool.false_ne_true is
    · exact Bool.false_ne_true is
  · intro is
    obtain ⟨unmarked, unrecovered⟩ := shaped.plain i entry there is
    exact ⟨Bool.eq_false_iff.mp unmarked, Bool.eq_false_iff.mp unrecovered⟩
  · intro is
    obtain ⟨j, marker, before, marks, since⟩ := shaped.recovery i entry there is
    have inside := (List.getElem?_eq_some_iff.mp before).1
    rw [List.length_take] at inside
    have less : j < i := by omega
    rw [List.getElem?_take_of_lt less] at before
    obtain ⟨r', at_', shows'⟩ := shows_at shown before
    refine ⟨j, less, r', at_', shows'.flagged.2.1.mpr marks, ?_⟩
    intro k r'' behind until_ at_k keyed
    obtain ⟨entry', there', shows''⟩ := shown_at shown at_k
    have is_key := shows''.flagged.1.mp keyed
    rcases Nat.lt_or_eq_of_le until_ with earlier | rfl
    · have plain := since k entry' behind (by rw [List.getElem?_take_of_lt earlier, there'])
      rw [plain] at is_key
      exact Bool.false_ne_true is_key
    · obtain rfl := Option.some.inj (there.symm.trans there')
      have := (shaped.plain k entry there is_key).2
      rw [is] at this
      exact Bool.false_ne_true this.symm

end Runs

/-! ## A period of four -/

section Small

/-- An encoder that marks every other frame, and recovers from the second mark on. -/
def markingEncoder (b : EncoderBinding) : Encoder where
  bound := b
  fps := 30
  ltrStartIdx := 1
  ltrPeriod := 2
  proactiveLtr := true

/-- Six frames under rate control that drops whatever it can. -/
def droppingCalls : List (Asked ℚ) :=
  List.replicate 6
    { input := { smallFrame with encode := { bitrateBps := 100, gopSize := 4 } }, solve := fun rc => (-1, rc) }

def markingTurns (b : EncoderBinding) : List (Turn ℚ) :=
  (markingEncoder b).turns coarseLogExp (EncoderState.fresh ℚ { qp := 1 } b) droppingCalls

theorem gop_structure_four : ∃ b, smallSession true = .ok b ∧
    (records (markingTurns b)).map recordFlags = [1, 2, 6, 0, 1, 2] ∧
    (records (markingTurns b)).map recordQIndex = [0, 0, 0, -1, 0, 0] ∧
    ∀ i r, (records (markingTurns b))[i]? = some r →
      (Flagged r kRecKeyframe ↔ 4 ∣ i) ∧
      (Flagged r kRecKeyframe ∨ Flagged r kRecLtrMark → recordQIndex r ≠ kQindexDropped) ∧
      (Flagged r kRecKeyframe → ¬Flagged r kRecLtrMark ∧ ¬Flagged r kRecLtrRecovery) ∧
      (Flagged r kRecLtrRecovery → ∃ j < i, ∃ r', (records (markingTurns b))[j]? = some r' ∧
        Flagged r' kRecLtrMark ∧
        ∀ k r'', j < k → k ≤ i → (records (markingTurns b))[k]? = some r'' → ¬Flagged r'' kRecKeyframe) := by
  have facts : (smallSession true).toOption.map (fun b =>
      ((records (markingTurns b)).map recordFlags, (records (markingTurns b)).map recordQIndex)) =
      some ([1, 2, 6, 0, 1, 2], [0, 0, 0, -1, 0, 0]) := by decide +kernel
  cases session : smallSession true with
  | error e =>
    rw [session] at facts
    cases facts
  | ok b =>
    rw [session] at facts
    obtain ⟨flags, qps⟩ := Prod.mk.inj (Option.some.inj facts)
    refine ⟨b, rfl, flags, qps, ?_⟩
    have bind : EncoderBinding.bindModel { qp := 1 } (smallBackend (smallEncoderNpu true)) (smallBundle "encoder" 64) =
        .ok (markingEncoder b).bound := session
    refine gop_structure bind coarseLogExp droppingCalls (by decide) (show (0 : UInt32) < 4 by decide) ?_ ?_
    · intro t listed
      obtain ⟨a, asked, same⟩ := turns_asked listed
      rw [Turn.period, EncoderState.periodFor, same, List.eq_of_mem_replicate asked]
      rfl
    · intro a listed
      rw [List.eq_of_mem_replicate listed]

end Small

end Rkvc.Mlvc
