import Rkvc.Mlvc.Bound

/-!
# What the encoder does with a frame

A call of `process` that succeeds drops its frame or codes it. The two reference slots are
an abstract machine of their own (`Refs`): a frame starts it over or not, reads a slot and
leaves its feature.
-/

namespace Rkvc.Mlvc
set_option autoImplicit false
open Lib Pixel

/-! ## The reference slots -/

structure Refs where
  prev : List UInt16
  ltr : List UInt16
  haveLtr : Bool
  deriving DecidableEq

namespace Refs

/-- A keyframe clears the slots. -/
def start (r : Refs) (keyframe : Bool) : Refs :=
  if keyframe then
    { prev := List.replicate r.prev.length 0, ltr := List.replicate r.ltr.length 0, haveLtr := false }
  else r

/-- A recovery reads the long-term slot, where there is one. -/
def slotFor (r : Refs) (recovery : Bool) : Slot := if recovery && r.haveLtr then .ltr else .prev

def get (r : Refs) : Slot → List UInt16
  | .prev => r.prev
  | .ltr => r.ltr

def keep (r : Refs) (feat : List UInt16) (mark : Bool) : Refs :=
  if mark then { prev := feat, ltr := feat, haveLtr := true } else { r with prev := feat }

end Refs

def EncoderState.refs {K : Type} (s : EncoderState K) : Refs := ⟨s.refPrev, s.refLtr, s.haveLtr⟩

def DecoderCore.refs (s : DecoderCore) : Refs := ⟨s.refPrev, s.refLtr, s.haveLtr⟩

/-! ## Rungs -/

section Rungs

variable {q bestD : Int} {rungs : List Int} {i best n : Nat}

theorem nearestLoop_lt (h : best < n) (listed : i + rungs.length ≤ n) : nearestLoop q rungs i best bestD < n := by
  induction rungs generalizing i best bestD with
  | nil => exact h
  | cons rung rungs ih =>
    rw [List.length_cons] at listed
    simp only [nearestLoop]
    generalize (if rung > q then rung - q else q - rung) = d
    split
    · refine ih ?_ ?_
      · omega
      · omega
    · refine ih h ?_
      omega

theorem nearestRung_lt (some : rungs ≠ []) : nearestRung rungs q < rungs.length :=
  nearestLoop_lt (List.length_pos_iff.mpr some) (Nat.zero_add _).le

/-- A distance of 0 is not improved on. -/
theorem nearestLoop_done : nearestLoop q rungs i best 0 = best := by
  induction rungs generalizing i with
  | nil => rfl
  | cons rung rungs ih =>
    rw [nearestLoop, if_neg (by split <;> omega)]
    exact ih

theorem nearestLoop_mem (apart : 0 < bestD) (listed : q ∈ rungs) :
    i ≤ nearestLoop q rungs i best bestD ∧ rungs[nearestLoop q rungs i best bestD - i]? = some q := by
  induction rungs generalizing i best bestD with
  | nil => exact absurd listed List.not_mem_nil
  | cons rung rungs ih =>
    rw [nearestLoop]
    by_cases same : rung = q
    · subst same
      rw [if_neg (Int.lt_irrefl rung), Int.sub_self, if_pos apart, nearestLoop_done, Nat.sub_self]
      exact ⟨Nat.le_refl i, rfl⟩
    · have later := (List.mem_cons.mp listed).resolve_left fun eq => same eq.symm
      generalize far : (if rung > q then rung - q else q - rung) = d
      have away : 0 < d := by
        rw [← far]
        split <;> omega
      -- the best distance stays positive until the rung of the QP
      have next {best' : Nat} {bestD' : Int} (apart : 0 < bestD') :
          i ≤ nearestLoop q rungs (i + 1) best' bestD' ∧
            (rung :: rungs)[nearestLoop q rungs (i + 1) best' bestD' - i]? = some q := by
        obtain ⟨above, there⟩ := @ih bestD' (i + 1) best' apart later
        refine ⟨by omega, ?_⟩
        generalize nearestLoop q rungs (i + 1) best' bestD' = n at above there
        rw [show n - i = n - (i + 1) + 1 by omega, List.getElem?_cons_succ]
        exact there
      split
      · exact next away
      · exact next apart

/-- A rung is its own nearest. -/
theorem nearestRung_mem (listed : q ∈ rungs) : rungs.getD (nearestRung rungs q) 0 = q := by
  obtain ⟨-, there⟩ := @nearestLoop_mem q (2 ^ 31 - 1) rungs 0 0 (by decide) listed
  rw [Nat.sub_zero] at there
  rw [nearestRung, List.getD_eq_getElem?_getD, there, Option.getD_some]

theorem findRungLoop_spec {found : Option Nat} (h : findRungLoop q rungs i found = some n) :
    found = some n ∨ i ≤ n ∧ rungs[n - i]? = some q := by
  induction rungs generalizing i found with
  | nil => exact .inl h
  | cons rung rungs ih =>
    rcases ih h with here | ⟨above, there⟩
    · split at here
      · rename_i same
        cases here
        refine .inr ⟨Nat.le_refl _, ?_⟩
        rw [Nat.sub_self, List.getElem?_cons_zero, same]
      · exact .inl here
    · refine .inr ⟨by omega, ?_⟩
      rw [show n - i = n - (i + 1) + 1 by omega, List.getElem?_cons_succ]
      exact there

theorem findRungLoop_some {found : Option Nat} (h : found.isSome ∨ q ∈ rungs) :
    (findRungLoop q rungs i found).isSome := by
  induction rungs generalizing i found with
  | nil => exact h.resolve_right List.not_mem_nil
  | cons rung rungs ih =>
    refine ih ?_
    by_cases same : rung = q
    · rw [if_pos same]
      exact .inl rfl
    · rw [if_neg same]
      refine h.imp_right fun listed => ?_
      exact (List.mem_cons.mp listed).resolve_left fun eq => same eq.symm

/-- A rung of the QP, if there is one. -/
theorem findRung_spec (h : findRung rungs q = some n) : rungs[n]? = some q := by
  rcases findRungLoop_spec h with none | ⟨-, there⟩
  · cases none
  · exact there

theorem findRung_none (h : findRung rungs q = none) : q ∉ rungs := by
  intro listed
  have : (findRungLoop q rungs 0 none).isSome := findRungLoop_some (.inr listed)
  rw [findRung] at h
  rw [h] at this
  cases this

end Rungs

/-! ## The steps of `process` -/

section Steps

variable {K : Type} {fns : LogExp K} {e : Encoder} {s : EncoderState K} {input : HostFrame} {sink : Status}

/-- What every call keeps. -/
structure EncoderState.Fit (s : EncoderState K) (e : Encoder) : Prop where
  active : s.active < e.bound.rs.rungQp.length
  tabled : s.zIdxQp ≠ -1 → s.zIdx = buildZIdx s.zIdxQp e.bound.geom
  scales : s.scales.Sized e.bound.geom

theorem fresh_fit (bound : e.bound.Bound) (quality : Quality) :
    (EncoderState.fresh K quality e.bound).Fit e := by
  constructor
  · exact List.length_pos_iff.mpr bound.rungs.nonempty
  · exact fun set => absurd rfl set
  · constructor
    · exact List.length_replicate
    · exact List.length_replicate

/-- The rung of a QP. -/
structure Selected (e : Encoder) (q usedQp : Int) (rung : Nat) : Prop where
  listed : rung < e.bound.rs.rungQp.length
  qp : if e.bound.qrows.present then usedQp = q else e.bound.rs.rungQp[rung]? = some usedQp

theorem selectRung_spec (bound : e.bound.Bound) (fit : s.Fit e) (q : Int) :
    Selected e q (e.selectRung s q).2 (e.selectRung s q).1 := by
  simp only [Encoder.selectRung]
  cases rows : e.bound.qrows.present with
  | true =>
    constructor
    · exact fit.active
    · rw [if_pos rows]
      rfl
  | false =>
    have listed := nearestRung_lt (q := q) bound.rungs.nonempty
    constructor
    · exact listed
    · rw [if_neg (by rw [rows]; exact nofun)]
      simp only [Bool.false_eq_true, if_false]
      rw [List.getElem?_eq_getElem listed, List.getD_eq_getElem?_getD, List.getElem?_eq_getElem listed]
      rfl

/-- A QP that is coded with is one of the range. -/
theorem Selected.range {q usedQp : Int} {rung : Nat} (h : Selected e q usedQp rung) (bound : e.bound.Bound)
    (range : 0 ≤ q ∧ q ≤ 63) : 0 ≤ usedQp ∧ usedQp ≤ 63 := by
  have qp := h.qp
  split at qp
  · rw [qp]
    exact range
  · exact bound.range usedQp (List.mem_of_getElem? qp)

/-- The prepared state: the rung, its distributions, and the slots of a keyframe cleared. -/
structure Prepared (e : Encoder) (s s' : EncoderState K) (keyframe : Bool) (usedQp : Int) (rung : Nat) : Prop where
  active : s'.active = rung
  zIdx : usedQp ≠ -1 → s'.zIdx = buildZIdx usedQp e.bound.geom
  tabled : s'.zIdxQp ≠ -1 → s'.zIdx = buildZIdx s'.zIdxQp e.bound.geom
  refs : s'.refs = s.refs.start keyframe
  frameCount : s'.frameCount = s.frameCount
  scales : s'.scales = s.scales
  rc : s'.rc = s.rc

theorem prepare_spec (fit : s.Fit e) (kind : FrameKind) (q : Int) :
    Prepared e s (e.prepare s kind q) kind.isIdr (e.selectRung s q).2 (e.selectRung s q).1 := by
  unfold Encoder.prepare
  generalize e.selectRung s q = selected
  obtain ⟨active, usedQp⟩ := selected
  generalize kind.isIdr = idr
  have tabled := fit.tabled
  by_cases stale : s.zIdxQp ≠ usedQp
  · simp only [if_pos stale]
    cases idr
    · exact ⟨rfl, fun _ => rfl, fun _ => rfl, rfl, rfl, rfl, rfl⟩
    · exact ⟨rfl, fun _ => rfl, fun _ => rfl, rfl, rfl, rfl, rfl⟩
  · obtain rfl : s.zIdxQp = usedQp := Decidable.not_not.mp stale
    simp only [if_neg stale]
    cases idr
    · exact ⟨rfl, tabled, tabled, rfl, rfl, rfl, rfl⟩
    · exact ⟨rfl, tabled, tabled, rfl, rfl, rfl, rfl⟩

/-- Where the encoder's slot comes from. -/
theorem slot_eq (s : EncoderState K) (kind : FrameKind) :
    Encoder.slotFor s kind = s.refs.slotFor kind.isRecovery ∧ ∀ slot, s.slot slot = s.refs.get slot := by
  constructor
  · rfl
  · intro slot
    cases slot <;> rfl

theorem keep_refs (s : EncoderState K) (feat : List UInt16) (mark : Bool) :
    (s.keep feat mark).refs = s.refs.keep feat mark := by
  cases mark <;> rfl

theorem keep_keeps (s : EncoderState K) (feat : List UInt16) (mark : Bool) :
    (s.keep feat mark).active = s.active ∧ (s.keep feat mark).zIdx = s.zIdx ∧ (s.keep feat mark).zIdxQp = s.zIdxQp ∧
      (s.keep feat mark).frameCount = s.frameCount ∧ (s.keep feat mark).rc = s.rc := by
  cases mark <;> exact ⟨rfl, rfl, rfl, rfl, rfl⟩

variable [Field K] [LinearOrder K] [FloorRing K]

/-- Nothing but rate control and the GOP size changes before a frame is typed. -/
theorem retarget_spec {control : EncodeControl} {s' : EncoderState K} (h : e.retarget s control = .ok s') :
    ∃ rc rcBitrate iframePeriod, s' = { s with rc, rcBitrate, iframePeriod } ∧
      (control.bitrateBps ≤ 0 → rc = s.rc) := by
  simp only [Encoder.retarget] at h
  split at h
  · cases h
  · rename_i s₁ targeted
    have settled : ∃ rc rcBitrate, s₁ = { s with rc, rcBitrate } ∧ (control.bitrateBps ≤ 0 → rc = s.rc) := by
      split at targeted
      · rename_i asked
        split at targeted
        · split at targeted
          · cases targeted
          · cases targeted
            exact ⟨_, _, rfl, fun none => absurd asked.1 (Int.not_lt.mpr none)⟩
        · cases targeted
          exact ⟨_, _, rfl, fun none => absurd asked.1 (Int.not_lt.mpr none)⟩
      · cases targeted
        exact ⟨s.rc, s.rcBitrate, rfl, fun _ => rfl⟩
    obtain ⟨rc, rcBitrate, rfl, kept⟩ := settled
    cases h
    split
    · exact ⟨rc, rcBitrate, control.gopSize, rfl, kept⟩
    · exact ⟨rc, rcBitrate, s.iframePeriod, rfl, kept⟩

/-- A QP is the session's, or one that rate control can give. -/
theorem chooseQ_code {kind : FrameKind} {q : Int} (h : (e.chooseQ fns s kind).2 = .code q) :
    (s.rc = none ∧ q = e.bound.qp) ∨ (s.rc ≠ none ∧ 0 ≤ q ∧ q ≤ 63) := by
  simp only [Encoder.chooseQ] at h
  split at h
  · rename_i off
    cases h
    exact .inl ⟨off, rfl⟩
  · rename_i rc on
    refine .inr ⟨by rw [on]; exact nofun, ?_⟩
    split at h
    · split at h
      · cases h
      · cases h
        exact ⟨by decide, by decide⟩
    · rename_i solved
      cases h
      exact solve_range solved

/-- Only a plain frame is dropped, and only by rate control. -/
theorem chooseQ_drop {kind : FrameKind} (h : (e.chooseQ fns s kind).2 = .drop) :
    s.rc ≠ none ∧ kind.isIdr = false ∧ kind.markLtr = false := by
  simp only [Encoder.chooseQ] at h
  split at h
  · cases h
  · rename_i rc on
    split at h
    · split at h
      · rename_i plain
        obtain ⟨type, mark⟩ := plain
        refine ⟨by rw [on]; exact nofun, ?_, by simpa using mark⟩
        by_contra idr
        rw [FrameKind.rcType, if_pos (by simpa using idr)] at type
        cases type
      · cases h
    · cases h

/-- Rate control stays off unless a frame asks for it. -/
theorem chooseQ_rc {kind : FrameKind} : (e.chooseQ fns s kind).1 = none ↔ s.rc = none := by
  simp only [Encoder.chooseQ]
  split
  · rename_i off
    exact ⟨fun _ => off, fun _ => rfl⟩
  · rename_i rc on
    constructor
    · intro none
      split at none
      · split at none <;> cases none
      · cases none
    · intro none
      rw [on] at none
      cases none

/-! ### A whole call -/

/-- The record of a coded frame. -/
def codedView (kind : FrameKind) (q : Int) (bits : List UInt8) : View where
  qIndex := Int32.ofInt q
  flags := kind.recFlags
  data := bits

def droppedView : View where
  drop := true
  qIndex := kQindexDropped

theorem droppedView_write : droppedView.write = writeRecord 0 kQindexDropped 0 := List.append_nil _

/-- A frame of `kind` that was coded on a rung with a QP, from `refs` by a model that was fed
`feed`, into `bits`. -/
structure Coded (e : Encoder) (s : EncoderState K) (input : HostFrame) (out : EncodeStep K) (kind : FrameKind)
    (rung : Nat) (usedQp : Int) (refs : Refs) (npu : NpuModel) (feed : Feed) (bits : List UInt8) : Prop where
  typed : ∃ s', e.retarget s input.encode = .ok s' ∧ kind = e.frameKind s' input.encode.forceIdr
  qp : ∃ q, Selected e q usedQp rung ∧ (out.state.rc = none ∧ q = e.bound.qp ∨ out.state.rc ≠ none ∧ 0 ≤ q ∧ q ≤ 63)
  start : refs = s.refs.start kind.isIdr
  fed : feed = e.bound.feed (e.xNhwc input) (refs.get (refs.slotFor kind.isRecovery)) usedQp
  model : e.bound.rs.models[rung]? = some npu
  played : npu.play feed = .ok
  codable : ∃ refN, e.bound.codable (npu.output feed) refN = true
  payload : encodePayload e.bound.gCoder e.bound.bCoder e.bound.entropy e.bound.geom (buildZIdx usedQp e.bound.geom)
    (e.bound.latents (npu.output feed)) s.scales = .ok (bits, out.state.scales)
  run : out.run = some { rung, slot := refs.slotFor kind.isRecovery, qp := usedQp, feed }
  refs : out.state.refs = refs.keep (npu.output feed e.bound.featOut) kind.markLtr
  packet : ∃ hdr : Header, hdr.width = e.bound.imgW ∧ hdr.height = e.bound.imgH ∧
    hdr.qp = UInt32.ofNat (toU32 e.bound.qp) ∧ out.packet = some
      { data := (if s.frameCount = 0 then writeHeader hdr else []) ++ (codedView kind usedQp bits).write
        keyframe := kind.isIdr
        pts := input.pts }
  frameCount : out.state.frameCount = s.frameCount + 1

/-- A frame that rate control has dropped. It is not the first. -/
structure Dropped (s : EncoderState K) (input : HostFrame) (out : EncodeStep K) : Prop where
  run : out.run = none
  packet : out.packet = some { data := droppedView.write, pts := input.pts }
  refs : out.state.refs = s.refs
  frameCount : out.state.frameCount = s.frameCount + 1
  later : s.frameCount ≠ 0
  rate : out.state.rc ≠ none

theorem codeFrame_spec {kind : FrameKind} {q : Int}
    (h : (Encoder.codeFrame fns e s input kind q sink).packet.isSome) :
    let feed := e.bound.feed (e.xNhwc input) (s.slot (Encoder.slotFor s kind)) q
    ∃ npu bits scales, e.bound.rs.models[s.active]? = some npu ∧ npu.play feed = .ok ∧
      e.bound.codable (npu.output feed) s.refPrev.length = true ∧
      encodePayload e.bound.gCoder e.bound.bCoder e.bound.entropy e.bound.geom s.zIdx
        (e.bound.latents (npu.output feed)) s.scales = .ok (bits, scales) ∧
      Encoder.codeFrame fns e s input kind q sink =
        { Encoder.emitFrame fns e { s.keep (npu.output feed e.bound.featOut) kind.markLtr with scales } input kind q
            bits sink with
          run := some { rung := s.active, slot := Encoder.slotFor s kind, qp := q, feed } } := by
  simp only [Encoder.codeFrame] at h ⊢
  split at h
  · cases h
  · rename_i npu model
    split at h
    · cases h
    · rename_i played
      split at h
      · cases h
      · rename_i codable
        split at h
        · cases h
        · rename_i bits scales payload
          refine ⟨npu, bits, scales, model, by simpa using played, by simpa using codable, ?_, ?_⟩
          · rw [← payload]
            cases kind.markLtr <;> rfl
          · simp only [if_neg played, if_neg codable]

/-- Coding a frame from a state that differs from `s` in rate control and the GOP size only. -/
theorem codeFrame_coded {s' : EncoderState K} {kind : FrameKind} {q : Int} (bound : e.bound.Bound) (fit : s'.Fit e)
    (refs : s'.refs = s.refs) (count : s'.frameCount = s.frameCount) (scales : s'.scales = s.scales)
    (typed : ∃ s', e.retarget s input.encode = .ok s' ∧ kind = e.frameKind s' input.encode.forceIdr)
    (qp : s'.rc = none ∧ q = e.bound.qp ∨ s'.rc ≠ none ∧ 0 ≤ q ∧ q ≤ 63)
    (h : (Encoder.codeFrame fns e (e.prepare s' kind q) input kind (e.selectRung s' q).2 sink).packet.isSome) :
    let out := Encoder.codeFrame fns e (e.prepare s' kind q) input kind (e.selectRung s' q).2 sink
    out.state.Fit e ∧ (out.state.rc = none ↔ s'.rc = none) ∧
      ∃ rung usedQp refs npu feed bits, Coded e s input out kind rung usedQp refs npu feed bits := by
  have fit_scales := fit.scales
  have selected := selectRung_spec bound fit q
  have prepared := prepare_spec fit kind q
  obtain ⟨npu, bits, scales', model, played, codable, payload, eq⟩ := codeFrame_spec h
  have range : 0 ≤ q ∧ q ≤ 63 := by
    rcases qp with ⟨-, rfl⟩ | ⟨-, range⟩
    · exact bound.qp
    · exact range
  have used := selected.range bound range
  obtain ⟨slot, get⟩ := slot_eq (e.prepare s' kind q) kind
  rw [get, slot, prepared.refs, refs] at played codable payload eq
  rw [prepared.zIdx (by omega), prepared.scales, scales] at payload
  rw [scales] at fit_scales
  rw [prepared.active] at model eq
  generalize fed : e.bound.feed (e.xNhwc input) _ _ = feed at played codable payload eq
  obtain ⟨active, zIdx, zIdxQp, frameCount, rc⟩ := keep_keeps (e.prepare s' kind q) (npu.output feed e.bound.featOut)
    kind.markLtr
  have kept := keep_refs (e.prepare s' kind q) (npu.output feed e.bound.featOut) kind.markLtr
  rw [prepared.refs, refs] at kept
  rw [prepared.active] at active
  rw [prepared.frameCount, count] at frameCount
  rw [prepared.rc] at rc
  intro out
  rw [show out = _ from eq]
  refine ⟨?_, ?_, (e.selectRung s' q).1, (e.selectRung s' q).2, s.refs.start kind.isIdr, npu, feed, bits, ?_⟩
  · constructor
    · exact active.trans_lt selected.listed
    · intro set
      have tabled := prepared.tabled
      rw [← zIdx, ← zIdxQp] at tabled
      exact tabled set
    · exact encodePayload_sized fit_scales payload
  · simp only [Encoder.emitFrame, Option.map_eq_none_iff, rc]
  · constructor
    · exact typed
    · refine ⟨q, selected, ?_⟩
      simpa only [Encoder.emitFrame, ne_eq, Option.map_eq_none_iff, rc] using qp
    · rfl
    · exact fed.symm
    · exact model
    · exact played
    · exact ⟨_, codable⟩
    · exact payload
    · rfl
    · exact kept
    · refine ⟨e.header { (e.prepare s' kind q).keep (npu.output feed e.bound.featOut) kind.markLtr with scales := scales' },
        rfl, rfl, rfl, ?_⟩
      simp only [Encoder.emitFrame, Encoder.leading, frameCount, List.append_assoc]
      rfl
    · exact congrArg (· + 1) frameCount

/-- **What a call does** that emits a packet. -/
theorem process_spec (bound : e.bound.Bound) (fit : s.Fit e) (h : (e.process fns s input sink).packet.isSome) :
    (e.process fns s input sink).state.Fit e ∧
      (input.encode.bitrateBps ≤ 0 → s.rc = none → (e.process fns s input sink).state.rc = none) ∧
      (Dropped s input (e.process fns s input sink) ∨
        ∃ kind rung usedQp refs npu feed bits,
          Coded e s input (e.process fns s input sink) kind rung usedQp refs npu feed bits) := by
  generalize out : e.process fns s input sink = step at h
  simp only [Encoder.process] at out
  split at out
  · rw [← out] at h
    cases h
  · split at out
    · rw [← out] at h
      cases h
    · split at out
      · rw [← out] at h
        cases h
      · rename_i s₁ retargeted
        obtain ⟨rc₁, rcBitrate, iframePeriod, same, off⟩ := retarget_spec retargeted
        have fit₁ : s₁.Fit e := by
          rw [same]
          exact ⟨fit.active, fit.tabled, fit.scales⟩
        have off₁ : input.encode.bitrateBps ≤ 0 → s₁.rc = s.rc := by
          rw [same]
          exact off
        have refs₁ : s₁.refs = s.refs := by
          rw [same]
          rfl
        have count₁ : s₁.frameCount = s.frameCount := by rw [same]
        have scales₁ : s₁.scales = s.scales := by rw [same]
        generalize typed : e.frameKind s₁ input.encode.forceIdr = kind at out
        have rcs : (e.chooseQ fns s₁ kind).1 = none ↔ s₁.rc = none := chooseQ_rc
        split at out
        · rename_i drop
          obtain ⟨on, plain, -⟩ := chooseQ_drop drop
          refine ⟨?_, ?_, .inl ?_⟩
          · rw [← out]
            exact ⟨fit₁.active, fit₁.tabled, fit₁.scales⟩
          · intro none unset
            rw [← out]
            exact rcs.mpr ((off₁ none).trans unset)
          · rw [← out]
            constructor
            · rfl
            · rw [droppedView_write]
              rfl
            · exact refs₁
            · exact congrArg (· + 1) count₁
            · intro first
              rw [← typed] at plain
              simp [Encoder.frameKind, count₁, first] at plain
            · exact fun none => on (rcs.mp none)
        · rename_i q code
          rw [← out] at h ⊢
          have qp : (e.chooseQ fns s₁ kind).1 = none ∧ q = e.bound.qp ∨
              (e.chooseQ fns s₁ kind).1 ≠ none ∧ 0 ≤ q ∧ q ≤ 63 := by
            rw [ne_eq, rcs]
            exact chooseQ_code code
          have fit₂ : ({ s₁ with rc := (e.chooseQ fns s₁ kind).1 } : EncoderState K).Fit e :=
            ⟨fit₁.active, fit₁.tabled, fit₁.scales⟩
          obtain ⟨fit', off', rung, usedQp, refs, npu, feed, bits, coded⟩ :=
            codeFrame_coded bound fit₂ refs₁ count₁ scales₁ ⟨s₁, retargeted, typed.symm⟩ qp h
          refine ⟨fit', ?_, .inr ⟨kind, rung, usedQp, refs, npu, feed, bits, coded⟩⟩
          intro none unset
          exact off'.mpr (rcs.mpr ((off₁ none).trans unset))

/-- A call that succeeds emits a packet. -/
theorem process_emits (h : (e.process fns s input sink).result = .ok ()) :
    (e.process fns s input sink).packet.isSome := by
  generalize out : e.process fns s input sink = step at h
  simp only [Encoder.process] at out
  split at out
  · rw [← out] at h
    cases h
  · split at out
    · rw [← out] at h
      cases h
    · split at out
      · rw [← out] at h
        cases h
      · split at out
        · rw [← out]
          rfl
        · rw [← out] at h ⊢
          simp only [Encoder.codeFrame] at h ⊢
          split at h
          · cases h
          · split at h
            · cases h
            · rename_i played
              split at h
              · cases h
              · rename_i codable
                split at h
                · cases h
                · simp only [if_neg played, if_neg codable]
                  rfl

/-! ### Runs -/

/-- The steps of a run whose calls all succeed, the packets being taken. -/
def Encoder.steps (fns : LogExp K) (e : Encoder) : EncoderState K → List HostFrame → Option (List (EncodeStep K))
  | _, [] => some []
  | s, input :: inputs =>
    let step := e.process fns s input .ok
    match step.result with
    | .error _ => none
    | .ok () => (steps fns e step.state inputs).map (step :: ·)

/-- The bytes of the record, behind the header of the first one. -/
def EncodeStep.record (step : EncodeStep K) : List UInt8 :=
  ((step.packet.map (·.data)).getD []).drop (if step.state.frameCount = 1 then kHdrSize else 0)

def EncodeStep.qIndex (step : EncodeStep K) : Int32 := (rdWord step.record 4).toInt32

theorem steps_nil {steps : List (EncodeStep K)} (h : e.steps fns s [] = some steps) : steps = [] := by
  rw [Encoder.steps] at h
  exact (Option.some.inj h).symm

/-- The first step of a run, and the run behind it. -/
theorem steps_cons {inputs : List HostFrame} {steps : List (EncodeStep K)}
    (h : e.steps fns s (input :: inputs) = some steps) :
    ∃ step later, steps = step :: later ∧ e.process fns s input .ok = step ∧ step.result = .ok () ∧
      e.steps fns step.state inputs = some later := by
  rw [Encoder.steps] at h
  generalize e.process fns s input .ok = step at h
  split at h
  · cases h
  · rename_i ok
    obtain ⟨later, run, rfl⟩ := Option.map_eq_some_iff.mp h
    exact ⟨step, later, rfl, rfl, ok, run⟩

/-- **What a step of a run does.** -/
theorem step_spec {step : EncodeStep K} (bound : e.bound.Bound) (fit : s.Fit e)
    (made : e.process fns s input sink = step) (ok : step.result = .ok ()) :
    step.state.Fit e ∧ (input.encode.bitrateBps ≤ 0 → s.rc = none → step.state.rc = none) ∧
      (Dropped s input step ∨ ∃ kind rung usedQp refs npu feed bits,
        Coded e s input step kind rung usedQp refs npu feed bits) := by
  subst made
  exact process_spec bound fit (process_emits ok)

end Steps

end Rkvc.Mlvc
